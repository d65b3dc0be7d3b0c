import LinkedCache.Cache
import LinkedCache.Update

-- The updates that a change of one resource implies for others. Each rule contributes on its own; a
-- rule that fails contributes nothing.

namespace LinkedCache

structure Source where
  type : Descriptor
  fields : List String
deriving DecidableEq, Repr, Inhabited

namespace Rule

def update (rule : Rule) (targetIds : List String) (back : Link) (operation : Operation)
    (timestamp : Int) : Update where
  target := rule.target
  targetIds := targetIds
  binding := ⟨rule.inverse, [back]⟩
  operation := operation
  timestamp := timestamp

def withdrawals (rule : Rule) (back : Link) (links : List Link) (timestamp : Int) :
    Except Error (List Update) :=
  links.mapM fun l => do
    let identity ← l.identity
    pure (rule.update [identity] back .delete timestamp)

def stale (rule : Rule) (old new : Resource) : List Link :=
  (old.links rule.relation).filter fun l => !(new.holds rule.relation l)

-- Withdraws the back link from targets that are no longer linked. It is the new resource's back
-- link, or the old one's if the new resource has none.
def pruned (rule : Rule) (source : Source) (old new : Resource) (timestamp : Int) :
    Except Error (List Update) :=
  match rule.stale old new with
  | [] => .ok []
  | links => do
    let back ← match new.backLink source.type source.fields with
      | .ok back => .ok back
      | .error _ => old.backLink source.type source.fields
    rule.withdrawals back links timestamp

-- The links that count for a rule: all of them if both sides are many-valued, else the first.
def counted (rule : Rule) (links : List Link) : List Link :=
  if rule.isManyToMany then links else links.take 1

-- Puts the back link on the targets that are linked. A rule that needs a link fails without.
def added (rule : Rule) (source : Source) (r : Resource) (timestamp : Int) :
    Except Error (List Update) :=
  match r.links rule.relation with
  | [] =>
    if rule.isMandatory then .error (.missingLink source.type.text rule.relation) else .ok []
  | links => do
    let targetIds ← (rule.counted links).mapM Link.identity
    let back ← r.backLink source.type source.fields
    pure [rule.update targetIds back .add timestamp]

def derived (rule : Rule) (source : Source) (old : Option Resource) (new : Resource)
    (timestamp : Int) : Except Error (List Update) := do
  let prunedUpdates ← match old with
    | some old => if rule.prunes then rule.pruned source old new timestamp else .ok []
    | none => .ok []
  let addedUpdates ← rule.added source new timestamp
  pure (prunedUpdates ++ addedUpdates)

def withdrawn (rule : Rule) (source : Source) (r : Resource) (timestamp : Int) :
    Except Error (List Update) :=
  match r.links rule.relation with
  | [] => .ok []
  | links => do
    let back ← r.backLink source.type source.fields
    rule.withdrawals back links timestamp

end Rule

-- The updates of several rules one after the other, without those that failed.
def contributions (rules : List Rule) (derive : Rule → Except Error (List Update)) :
    List Update :=
  rules.flatMap fun rule =>
    match derive rule with
    | .ok updates => updates
    | .error _ => []

end LinkedCache
