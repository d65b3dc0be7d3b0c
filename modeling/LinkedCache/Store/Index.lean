import LinkedCache.Text

-- The secondary index of a store: for each field and value the ids that carry the value, in the
-- order in which they were written. A row without ids is dropped.

namespace LinkedCache

structure IndexRow where
  field : String
  value : String
  owners : List String
deriving DecidableEq, Repr, Inhabited

namespace IndexRow

def isFor (row : IndexRow) (field value : String) : Bool :=
  row.field == field && row.value == value

def release? (row : IndexRow) (id : String) : Option IndexRow :=
  match row.owners.filter (· != id) with
  | [] => none
  | owners => some { row with owners }

def claim (row : IndexRow) (id : String) : IndexRow :=
  if row.owners.contains id then row else { row with owners := row.owners ++ [id] }

end IndexRow

abbrev Index := List IndexRow

namespace Index

def release (rows : Index) (field value id : String) : Index :=
  rows.filterMap fun row => if row.isFor field value then row.release? id else some row

def claim (field value id : String) : Index → Index
  | [] => [⟨field, value, [id]⟩]
  | row :: rest =>
    if row.isFor field value then row.claim id :: rest else row :: claim field value id rest

def owners (rows : Index) (field value : String) : List String :=
  match rows.find? (·.isFor field value) with
  | some row => row.owners
  | none => []

end Index
end LinkedCache
