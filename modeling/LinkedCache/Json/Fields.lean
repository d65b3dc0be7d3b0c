import LinkedCache.Bounds
import LinkedCache.Json.Value

namespace LinkedCache.Json.Value

-- The fields of a record in the order of `names`. A record is written as an object with these
-- members, among others perhaps, or as an array of the fields, which may be cut short.
def fields? (names : List String) : Value → Option (List (Option Value))
  | object members => some (names.map fun n => members.lookup n)
  | array items =>
    if items.length ≤ names.length then
      some (items.map some ++ List.replicate (names.length - items.length) none)
    else none
  | _ => none

-- The word of a value of an enumeration: a text, or an object with this text as its only key and
-- null as its value.
def word? : Value → Option String
  | string s => some s
  | object [(s, null)] => some s
  | _ => none

def enum? {α : Type} (word : α → String) (all : List α) (v : Value) : Option α := do
  let s ← v.word?
  all.find? fun a => word a == s

def int64? : Value → Option Int
  | int n => if Bounds.minInt64 ≤ n ∧ n ≤ Bounds.maxInt64 then some n else none
  | _ => none

def nat64? : Value → Option Nat
  | int n => if 0 ≤ n ∧ n ≤ Bounds.maxNat64 then some n.toNat else none
  | _ => none

def string? : Value → Option String
  | string s => some s
  | _ => none

def bool? : Value → Option Bool
  | bool b => some b
  | _ => none

def list? {α : Type} (item? : Value → Option α) : Value → Option (List α)
  | array items => items.mapM item?
  | _ => none

def orDefault {α : Type} (default : α) (read? : Value → Option α) : Option Value → Option α
  | none => some default
  | some v => read? v

def optional {α : Type} (read? : Value → Option α) : Option Value → Option (Option α)
  | none | some null => some none
  | some v => (read? v).map some

end LinkedCache.Json.Value
