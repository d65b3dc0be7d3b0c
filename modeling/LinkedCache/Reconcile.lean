import LinkedCache.Derivation

-- Writing and removing resources. A write carries over the links that rules put on the old
-- resource, takes in what waited for the new one, and tells which updates its own links imply for
-- others. The updates are for the caller to apply, when the lock on the resource is released.

namespace LinkedCache

namespace Resource

-- The resource with the old links of a relation, if it brings none of its own.
def carryOver (r : Resource) (old : Option Resource) (relation : String) : Resource :=
  match old with
  | some old => if r.hasRelation relation then r else r.addAll relation (old.links relation)
  | none => r

-- Moves the links that wait for a resource under a relation from the buffer to the resource.
def takeWaiting (type : Descriptor) (identities : List String) (relation : String)
    (r : Resource) (b : Buffer) : Resource × Buffer :=
  identities.foldl (fun (r, b) identity =>
    let a := Address.of type identity relation
    (r.addAll relation (b.links a), b.clear a)) (r, b)

-- The resource to be stored: for each inverse relation the links carried over, then those that
-- waited under any of the identities.
def mergeInverse (type : Descriptor) (relations identities : List String) (old : Option Resource)
    (r : Resource) (b : Buffer) : Resource × Buffer :=
  relations.foldl (fun (r, b) relation =>
    takeWaiting type identities relation (r.carryOver old relation) b) (r, b)

end Resource

namespace Cache

def source (store : Store) : Source := ⟨store.type, store.fields⟩

def reconcile (c : Cache) (type : Descriptor) (id : String) (incoming : Resource)
    (timestamp : Int) : Except Error (List Update × Cache) :=
  match c.store? type with
  | none => .error (.unknownResource type.text)
  | some store =>
    let c := { c with locks := c.locks.acquire ⟨type, id⟩ }
    let old := store.get? id
    let (merged, buffer) := Resource.mergeInverse type (c.rules.inverseRelationsOf type)
      (incoming.identities store.fields) old incoming c.buffer
    let updates := contributions (c.rules.rulesOf type) fun rule =>
      rule.derived (source store) old merged timestamp
    let c := { c with buffer }.withStore (store.put id merged timestamp)
    .ok (updates, { c with locks := c.locks.release ⟨type, id⟩ })

def removalUpdates (c : Cache) (type : Descriptor) (r : Resource) (timestamp : Int) :
    List Update :=
  let fields := match c.store? type with
    | some store => store.fields
    | none => []
  contributions (c.rules.rulesOf type) fun rule => rule.withdrawn ⟨type, fields⟩ r timestamp

def remove (c : Cache) (type : Descriptor) (id : String) (timestamp : Int) :
    Except Error (List Update × Cache) :=
  match c.store? type with
  | none => .error (.unknownResource type.text)
  | some store =>
    let c := { c with locks := c.locks.acquire ⟨type, id⟩ }
    let c := c.withStore (store.remove id timestamp)
    let c := { c with locks := c.locks.release ⟨type, id⟩ }
    match store.get? id with
    | some old => .ok (c.removalUpdates type old timestamp, c)
    | none => .ok ([], c)

def evict (c : Cache) (type : Descriptor) (cutoff : Int) : Except Error (List Entry × Cache) :=
  match c.store? type with
  | none => .error (.unknownResource type.text)
  | some store => .ok (store.olderThan cutoff, c.withStore (store.evict cutoff))

end Cache
end LinkedCache
