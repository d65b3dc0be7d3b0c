import LinkedCache.Descriptor
import LinkedCache.Json.Fields

-- Rules: which relations are kept in sync, and how. A rule belongs to the type that triggers it,
-- and says under which relation the target of a link holds the link back.

namespace LinkedCache

inductive Multiplicity where
  | one
  | zeroOrOne
  | zeroOrMany
  | oneOrMany
deriving DecidableEq, Repr, Inhabited

namespace Multiplicity

def isSingle : Multiplicity → Bool
  | one | zeroOrOne => true
  | zeroOrMany | oneOrMany => false

def isMany (m : Multiplicity) : Bool := !m.isSingle

def isRequired : Multiplicity → Bool
  | one | oneOrMany => true
  | zeroOrOne | zeroOrMany => false

def word : Multiplicity → String
  | one => "one"
  | zeroOrOne => "zero_or_one"
  | zeroOrMany => "zero_or_many"
  | oneOrMany => "one_or_many"

def all : List Multiplicity := [one, zeroOrOne, zeroOrMany, oneOrMany]

def toValue (m : Multiplicity) : Json.Value := .string m.word

def ofValue? : Json.Value → Option Multiplicity := Json.Value.enum? word all

end Multiplicity

structure Rule where
  relation : String
  inverse : String
  target : Descriptor
  multiplicity : Multiplicity
  inverseMultiplicity : Multiplicity
  -- Whether the triggering type owns a relation that is many-valued on both sides.
  isSource : Bool
deriving DecidableEq, Repr, Inhabited

namespace Rule

def isMandatory (r : Rule) : Bool := r.multiplicity.isRequired

def isManyToMany (r : Rule) : Bool :=
  r.multiplicity.isMany && r.inverseMultiplicity.isMany

-- A link that the triggering resource no longer has is withdrawn from its target.
def prunes (r : Rule) : Bool :=
  r.multiplicity.isSingle || (r.isManyToMany && r.isSource)

def fieldNames : List String :=
  ["target_relation", "inverse_relation", "target", "target_multiplicity", "inverse_multiplicity",
    "is_source"]

def toValue (r : Rule) : Json.Value :=
  .object [("target_relation", .string r.relation), ("inverse_relation", .string r.inverse),
    ("target", r.target.toValue), ("target_multiplicity", r.multiplicity.toValue),
    ("inverse_multiplicity", r.inverseMultiplicity.toValue), ("is_source", .bool r.isSource)]

def ofValue? (v : Json.Value) : Option Rule :=
  match v.fields? fieldNames with
  | some [some relation, some inverse, some target, some multiplicity, some inverseMultiplicity,
      some isSource] => do
    pure {
      relation := ← relation.string?
      inverse := ← inverse.string?
      target := ← Descriptor.ofValue? target
      multiplicity := ← Multiplicity.ofValue? multiplicity
      inverseMultiplicity := ← Multiplicity.ofValue? inverseMultiplicity
      isSource := ← isSource.bool? }
  | _ => none

end Rule
end LinkedCache
