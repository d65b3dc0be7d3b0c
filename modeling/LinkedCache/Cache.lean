import LinkedCache.Buffer
import LinkedCache.LockTable
import LinkedCache.Registry
import LinkedCache.Store

-- The cache: a store for each type, the rules between the types, the links that wait for targets,
-- and the locks in use.

namespace LinkedCache

structure Cache where
  rules : Registry := {}
  stores : List Store
  locks : LockTable := {}
  buffer : Buffer
deriving Inhabited

namespace Cache

-- Puts a store into the place of the one for its type, or behind the others.
def install (store : Store) : List Store → List Store
  | [] => [store]
  | s :: rest => if s.type = store.type then store :: rest else s :: install store rest

-- A cache of empty stores. Of several entries for a type the last one counts.
def ofTypes (types : List (Descriptor × List String)) (retentionMs : Nat) : Cache where
  stores := types.foldl (fun stores (type, fields) => install (Store.empty type fields) stores) []
  buffer := Buffer.empty retentionMs

def store? (c : Cache) (type : Descriptor) : Option Store :=
  c.stores.find? (·.type == type)

def withStore (c : Cache) (store : Store) : Cache :=
  { c with stores := c.stores.map fun s => if s.type = store.type then store else s }

def contains (c : Cache) (type : Descriptor) : Bool :=
  (c.store? type).isSome

def types (c : Cache) : List Descriptor :=
  Descriptor.sorted (c.stores.map (·.type))

end Cache
end LinkedCache
