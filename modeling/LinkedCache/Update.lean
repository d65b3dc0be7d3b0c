import LinkedCache.Link
import LinkedCache.Rule

-- Relation updates: links to be put under, or taken from, a relation of some targets.

namespace LinkedCache

inductive Operation where
  | add
  | delete
deriving DecidableEq, Repr, Inhabited

namespace Operation

def word : Operation → String
  | add => "ADD"
  | delete => "DELETE"

def all : List Operation := [add, delete]

def toValue (o : Operation) : Json.Value := .string o.word

def ofValue? : Json.Value → Option Operation := Json.Value.enum? word all

end Operation

structure Binding where
  relation : String
  links : List Link
deriving DecidableEq, Repr, Inhabited

namespace Binding

def toValue (b : Binding) : Json.Value :=
  .object [("relation", .string b.relation), ("links", Link.listToValue b.links)]

def ofValue? (v : Json.Value) : Option Binding :=
  match v.fields? ["relation", "links"] with
  | some [some relation, some links] => do
    pure { relation := ← relation.string?, links := ← Link.listOfValue? links }
  | _ => none

end Binding

structure Update where
  target : Descriptor
  targetIds : List String
  binding : Binding
  operation : Operation
  timestamp : Int
deriving DecidableEq, Repr, Inhabited

namespace Update

def fieldNames : List String :=
  ["target", "target_ids", "binding", "operation", "timestamp"]

def toValue (u : Update) : Json.Value :=
  .object [("target", u.target.toValue), ("target_ids", .strings u.targetIds),
    ("binding", u.binding.toValue), ("operation", u.operation.toValue),
    ("timestamp", .int u.timestamp)]

-- An update without a timestamp has the timestamp 0.
def ofValue? (v : Json.Value) : Option Update :=
  match v.fields? fieldNames with
  | some [some target, some targetIds, some binding, some operation, timestamp] => do
    pure {
      target := ← Descriptor.ofValue? target
      targetIds := ← targetIds.list? Json.Value.string?
      binding := ← Binding.ofValue? binding
      operation := ← Operation.ofValue? operation
      timestamp := ← Json.Value.orDefault 0 Json.Value.int64? timestamp }
  | _ => none

-- The text that stands for a link in a key: its identity, or its address if it has none.
def linkKey (l : Link) : String :=
  l.identity?.getD (Text.lower l.href)

-- Updates with one key address the same targets, relation and links. The later one of them makes
-- the earlier one obsolete, whatever the two operations are.
def supersedeKey (u : Update) : String :=
  let ids := Text.sorted (u.targetIds.map Text.lower)
  let links := Text.sorted (u.binding.links.map linkKey)
  String.intercalate "|"
    [u.target.text, String.intercalate "," ids, Text.lower u.binding.relation,
      String.intercalate "," links]

end Update
end LinkedCache
