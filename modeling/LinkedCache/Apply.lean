import LinkedCache.Cache
import LinkedCache.Update

-- Applying an update to its targets. Each target is looked up and changed under its own lock; links
-- for a target that is not cached wait in the buffer.

namespace LinkedCache

inductive Applied where
  | applied
  | pending
  | notLocal
deriving DecidableEq, Repr, Inhabited

namespace Applied

def word : Applied → String
  | applied => "applied"
  | pending => "pending"
  | notLocal => "not_local"

end Applied

namespace Resource

-- Adds or removes one link, and notes whether that changed anything.
def applyLink (operation : Operation) (relation : String) (r : Resource × Bool) (l : Link) :
    Resource × Bool :=
  match operation with
  | .add => (r.1.addUnique relation l, r.2 || !r.1.holds relation l)
  | .delete => (r.1.removeMatching relation l, r.2 || r.1.holds relation l)

def applyLinks (operation : Operation) (relation : String) (links : List Link) (r : Resource) :
    Resource × Bool :=
  links.foldl (applyLink operation relation) (r, false)

end Resource

namespace Cache

def target? (c : Cache) (type : Descriptor) (identity : String) : Option (Store × Entry) := do
  let store ← c.store? type
  let id ← store.resolve? identity
  let entry ← store.entry? id
  pure (store, entry)

-- Applies an update to the entry of one target. The later timestamp counts, so that a target does
-- not look stale that was changed by an update only.
def applyToEntry (c : Cache) (u : Update) (store : Store) (entry : Entry) : Cache :=
  let key : LockKey := ⟨u.target, entry.id⟩
  let c := { c with locks := c.locks.acquire key }
  let (r, changed) :=
    entry.resource.applyLinks u.operation u.binding.relation u.binding.links
  let c :=
    if changed then
      c.withStore (store.putIfCurrent entry.id entry r (max entry.timestamp u.timestamp))
    else c
  { c with locks := c.locks.release key }

def await (c : Cache) (u : Update) (identity : String) (now : Int) : Cache :=
  let a := Address.of u.target identity u.binding.relation
  { c with buffer := u.binding.links.foldl (fun b l => b.register a l now) c.buffer }

def cancel (c : Cache) (u : Update) (identity : String) : Cache :=
  let a := Address.of u.target identity u.binding.relation
  { c with buffer := u.binding.links.foldl (fun b l => b.cancel a l) c.buffer }

-- Applies an update to one target, and tells whether the target is cached.
def applyToTarget (c : Cache) (u : Update) (identity : String) (now : Int) : Bool × Cache :=
  match c.target? u.target identity, u.operation with
  | some (store, entry), _ => (true, (c.applyToEntry u store entry).cancel u identity)
  | none, .add => (false, c.await u identity now)
  | none, .delete => (false, c.cancel u identity)

def apply (c : Cache) (u : Update) (now : Int) : Applied × Cache :=
  if c.contains u.target then
    let (all, c) := u.targetIds.foldl (fun (all, c) identity =>
      let (here, c) := applyToTarget c u identity now
      (all && here, c)) (true, c)
    (if all then .applied else .pending, c)
  else (.notLocal, c)

end Cache
end LinkedCache
