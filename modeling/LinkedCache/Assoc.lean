-- Association lists with text keys, kept in the order of their keys and with each key once.

namespace LinkedCache.Assoc

variable {α : Type}

def insert (key : String) (value : α) : List (String × α) → List (String × α)
  | [] => [(key, value)]
  | (k, v) :: rest =>
    if key < k then (key, value) :: (k, v) :: rest
    else if key = k then (key, value) :: rest
    else (k, v) :: insert key value rest

def erase (key : String) (members : List (String × α)) : List (String × α) :=
  members.filter (·.1 != key)

-- The members in the order of their keys; of several with one key the last one counts.
def ofList (members : List (String × α)) : List (String × α) :=
  members.foldl (fun acc m => insert m.1 m.2 acc) []

end LinkedCache.Assoc
