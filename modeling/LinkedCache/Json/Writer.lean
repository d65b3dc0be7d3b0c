import LinkedCache.Json.Value
import LinkedCache.Decimal.Layout

-- Writing JSON texts, on one line or indented by two spaces.

namespace LinkedCache.Json

def escaped (c : Char) : List Char :=
  match c with
  | '"' => ['\\', '"']
  | '\\' => ['\\', '\\']
  | '\x08' => ['\\', 'b']
  | '\x0c' => ['\\', 'f']
  | '\n' => ['\\', 'n']
  | '\r' => ['\\', 'r']
  | '\t' => ['\\', 't']
  | c =>
    if c.toNat < 0x20 then
      ['\\', 'u', '0', '0', Nat.digitChar (c.toNat / 16), Nat.digitChar (c.toNat % 16)]
    else [c]

def quoted (s : String) : String :=
  String.ofList ('"' :: s.toList.flatMap escaped ++ ['"'])

namespace Value

-- The text of a value that is no array and no object. A float that is not finite has none, and is
-- written as null.
def leaf : Value → String
  | null => "null"
  | bool b => if b then "true" else "false"
  | int n => toString n
  | float x => if x.isFinite then Decimal.write x else "null"
  | string s => quoted s
  | array _ => "[]"
  | object _ => "\x7b\x7d"

mutual

def compact : Value → String
  | array items => "[" ++ String.intercalate "," (compactItems items) ++ "]"
  | object members => "\x7b" ++ String.intercalate "," (compactMembers members) ++ "\x7d"
  | v => v.leaf

def compactItems : List Value → List String
  | [] => []
  | v :: rest => v.compact :: compactItems rest

def compactMembers : List (String × Value) → List String
  | [] => []
  | (k, v) :: rest => (quoted k ++ ":" ++ v.compact) :: compactMembers rest

end

-- Lines indented by one level, with a comma behind the last one if more follows.
def indented (ls : List String) (more : Bool) : List String :=
  match ls.reverse with
  | [] => []
  | last :: before =>
    before.reverse.map ("  " ++ ·) ++ ["  " ++ last ++ (if more then "," else "")]

mutual

-- The lines of a value, the first of which follows what stands before the value. An array or an
-- object without members is one line.
def lines : Value → List String
  | array [] => ["[]"]
  | object [] => ["\x7b\x7d"]
  | array (v :: rest) => ["["] ++ itemLines (v :: rest) ++ ["]"]
  | object (m :: rest) => ["\x7b"] ++ memberLines (m :: rest) ++ ["\x7d"]
  | v => [v.leaf]

def itemLines : List Value → List String
  | [] => []
  | v :: rest => indented (v.lines) (!rest.isEmpty) ++ itemLines rest

def memberLines : List (String × Value) → List String
  | [] => []
  | (k, v) :: rest =>
    let ls := match v.lines with
      | [] => []
      | l :: more => (quoted k ++ ": " ++ l) :: more
    indented ls (!rest.isEmpty) ++ memberLines rest

end

end Value
end LinkedCache.Json
