import LinkedCache.Assoc

-- JSON values. Integers and floating-point numbers are apart: `1` is not `1.0`.

namespace LinkedCache.Json

inductive Value where
  | null
  | bool (b : Bool)
  | int (n : Int)
  | float (x : Float)
  | string (s : String)
  | array (items : List Value)
  | object (members : List (String × Value))
deriving Inhabited, Repr

namespace Value

def kind : Value → String
  | null => "null"
  | bool _ => "bool"
  | int _ | float _ => "number"
  | string _ => "string"
  | array _ => "array"
  | object _ => "object"

def member? (key : String) : Value → Option Value
  | object members => members.lookup key
  | _ => none

def strings (ss : List String) : Value :=
  array (ss.map string)

mutual

-- The same value with the members of every object in the order of their keys.
def sorted : Value → Value
  | array items => array (sortedItems items)
  | object members => object (Assoc.ofList (sortedMembers members))
  | v => v

def sortedItems : List Value → List Value
  | [] => []
  | v :: rest => v.sorted :: sortedItems rest

def sortedMembers : List (String × Value) → List (String × Value)
  | [] => []
  | (k, v) :: rest => (k, v.sorted) :: sortedMembers rest

end

end Value
end LinkedCache.Json
