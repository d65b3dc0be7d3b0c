import LinkedCache.Resource
import LinkedCache.Store.Index

-- The store of one resource type: a table of resources by id, an index by identifying fields, and a
-- watermark of the latest change. Entries stay in the order in which they were created.

namespace LinkedCache

structure Entry where
  id : String
  resource : Resource
  timestamp : Int
  -- The place in the table: kept by later writes, and new after a removal.
  seq : Nat
  -- The write that made this entry. No two writes of a store have one number.
  version : Nat
deriving Inhabited, Repr

structure Store where
  type : Descriptor
  fields : List String
  entries : List Entry := []
  index : Index := []
  nextSeq : Nat := 0
  nextVersion : Nat := 0
  lastUpdated : Int := 0
deriving Inhabited, Repr

namespace Store

def empty (type : Descriptor) (fields : List String) : Store :=
  { type, fields := fields.map Text.lower }

def size (s : Store) : Nat := s.entries.length

-- The entry of an id. As long as the entry is not overwritten or removed, it is a handle on it.
def entry? (s : Store) (id : String) : Option Entry :=
  s.entries.find? (·.id == id)

def get? (s : Store) (id : String) : Option Resource :=
  (s.entry? id).map (·.resource)

def owner? (s : Store) (field value : String) : Option String :=
  (s.index.owners (Text.lower field) (Text.lower value)).head?

def getByField? (s : Store) (field value : String) : Option Resource :=
  (s.owner? field value).bind s.get?

-- The id behind an identity `field/value`. The first slash ends the field.
def resolve? (s : Store) (identity : String) : Option String := do
  let (field, value) ← Text.cut? '/' identity
  s.owner? field value

def indexed (fields : List String) (r : Resource) : List (String × String) :=
  fields.filterMap fun field => (r.fieldValue? field).map fun value => (field, Text.lower value)

def released (s : Store) (id : String) (r : Resource) : Index :=
  (indexed s.fields r).foldl (fun rows (field, value) => rows.release field value id) s.index

def claimed (s : Store) (id : String) (r : Resource) (rows : Index) : Index :=
  (indexed s.fields r).foldl (fun rows (field, value) => Index.claim field value id rows) rows

-- Replaces the entry `old` of an id, which keeps its place.
def overwrite (s : Store) (old : Entry) (r : Resource) (timestamp : Int) : Store :=
  let new : Entry := { old with resource := r, timestamp, version := s.nextVersion }
  { s with
    entries := s.entries.map fun e => if e.id == old.id then new else e
    index := s.claimed old.id r (s.released old.id old.resource)
    nextVersion := s.nextVersion + 1
    lastUpdated := max s.lastUpdated timestamp }

def create (s : Store) (id : String) (r : Resource) (timestamp : Int) : Store :=
  let new : Entry := { id, resource := r, timestamp, seq := s.nextSeq, version := s.nextVersion }
  { s with
    entries := s.entries ++ [new]
    index := s.claimed id r s.index
    nextSeq := s.nextSeq + 1
    nextVersion := s.nextVersion + 1
    lastUpdated := max s.lastUpdated timestamp }

def put (s : Store) (id : String) (r : Resource) (timestamp : Int) : Store :=
  match s.entry? id with
  | some old => s.overwrite old r timestamp
  | none => s.create id r timestamp

def isCurrent (s : Store) (id : String) (seen : Entry) : Bool :=
  match s.entry? id with
  | some e => e.seq == seen.seq && e.version == seen.version
  | none => false

def putIfCurrent (s : Store) (id : String) (seen : Entry) (r : Resource) (timestamp : Int) :
    Store :=
  if s.isCurrent id seen then s.overwrite seen r timestamp else s

-- Drops an entry without touching the watermark.
def drop (s : Store) (e : Entry) : Store :=
  { s with
    entries := s.entries.filter (·.id != e.id)
    index := s.released e.id e.resource }

-- Removes an id. The watermark moves only if there was an entry.
def remove (s : Store) (id : String) (timestamp : Int) : Store :=
  match s.entry? id with
  | some e => { s.drop e with lastUpdated := max s.lastUpdated timestamp }
  | none => s

-- The resources that are at least as late as `since` and pass the filter, without the first
-- `offset` of them, and at most `size` of the rest. The size 0 sets no bound.
def list (s : Store) (size offset : Nat) (since : Int) (filter : Resource → Bool) :
    List Resource :=
  let found := s.entries.filter fun e => decide (since ≤ e.timestamp) && filter e.resource
  let rest := found.drop offset
  (if size = 0 then rest else rest.take size).map (·.resource)

def olderThan (s : Store) (cutoff : Int) : List Entry :=
  s.entries.filter fun e => decide (e.timestamp < cutoff)

-- Drops the entries written strictly before a time. The watermark stays.
def evict (s : Store) (cutoff : Int) : Store :=
  (s.olderThan cutoff).foldl drop s

end Store
end LinkedCache
