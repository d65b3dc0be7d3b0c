import LinkedCache.Bounds
import LinkedCache.Resource
import LinkedCache.Text.Blank

-- Queries: words that a resource has to match, all of them. A word asks for the value of an
-- attribute, for a relation, for a link of a relation, or for a piece of text in any attribute.

namespace LinkedCache

inductive Term where
  -- The attribute on a path has this text.
  | value (path text : String)
  -- The relation has a link, with this identity if one is given.
  | link (relation : String) (identity : Option String)
  -- A text attribute has this piece, in any case.
  | piece (text : String)
deriving DecidableEq, Repr, Inhabited

-- One step of a path: a member, and then an item if a position is given.
structure Step where
  key : String
  position : Option Nat
deriving DecidableEq, Repr, Inhabited

namespace Step

-- A step is a key, perhaps with a position in brackets. What follows the bracket is not looked at.
def parse? (s : String) : Option Step :=
  if s.isEmpty then none
  else match Text.cut? '[' s with
    | none => some ⟨s, none⟩
    | some (key, rest) => do
      let (position, _) ← Text.cut? ']' rest
      let n ← Text.natural? Bounds.maxNat64 position
      pure ⟨key, some n⟩

def follow? (step : Step) (v : Json.Value) : Option Json.Value := do
  let v ← v.member? step.key
  match step.position with
  | none => pure v
  | some i =>
    match v with
    | .array items => items[i]?
    | _ => none

end Step

namespace Resource

-- The value on a path from the attributes, step by step between dots.
def onPath? (r : Resource) (path : String) : Option Json.Value :=
  (Text.pieces '.' path).foldlM (fun v s => do (← Step.parse? s).follow? v) (.object r.attributes)

end Resource

namespace Term

def value? (word : String) : Option Term := do
  let rest ← Text.after? "field:" word
  let (path, text) ← Text.cut? '=' rest
  if path.isEmpty then none else some (value path text)

def link? (word : String) : Option Term := do
  let rest ← Text.after? "link:" word
  match Text.cut? '=' rest with
  | some (relation, identity) =>
    if relation.isEmpty then none else some (link relation (some (Text.lower identity)))
  | none => if rest.isEmpty then none else some (link rest none)

def ofWord (word : String) : Term :=
  ((value? word).or (link? word)).getD (piece (Text.lower word))

def text? : Json.Value → Option String
  | .string s => some s
  | .int n => some (toString n)
  | .float x => some (Decimal.write x)
  | .bool b => some (if b then "true" else "false")
  | _ => none

def hasPiece (text : String) : Json.Value → Bool
  | .string s => Text.occursIn text (Text.lower s)
  | _ => false

def holds (r : Resource) : Term → Bool
  | value path text => (r.onPath? path).bind text? == some text
  | link relation none => r.hasRelation relation
  | link relation (some identity) => (r.links relation).any (·.identity? == some identity)
  | piece text => r.attributes.any fun (_, v) => hasPiece text v

end Term

structure Query where
  terms : List Term
deriving DecidableEq, Repr, Inhabited

namespace Query

def parse (s : String) : Query :=
  ⟨(Text.words s).map Term.ofWord⟩

def isEmpty (q : Query) : Bool := q.terms.isEmpty

def holds (q : Query) (r : Resource) : Bool :=
  q.terms.all (·.holds r)

end Query
end LinkedCache
