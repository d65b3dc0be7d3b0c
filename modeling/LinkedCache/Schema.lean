import LinkedCache.Json.Reader
import LinkedCache.Registry

-- Schemas: the resource types with their identifying fields and relations. The schema decides which
-- relations are kept in sync, and thereby the rules.

namespace LinkedCache

structure Inverse where
  name : String
  multiplicity : Multiplicity
deriving DecidableEq, Repr, Inhabited

structure Relation where
  name : String
  target : Descriptor
  multiplicity : Multiplicity
  inverse : Option Inverse
  -- Whether this side owns a relation that is many-valued on both sides.
  source : Bool
deriving DecidableEq, Repr, Inhabited

structure TypeSchema where
  type : Descriptor
  idFields : List String
  relations : List Relation
deriving DecidableEq, Repr, Inhabited

structure Schema where
  types : List TypeSchema
deriving DecidableEq, Repr, Inhabited

namespace Inverse

def toValue (i : Inverse) : Json.Value :=
  .object [("name", .string i.name), ("multiplicity", i.multiplicity.toValue)]

def ofValue? (v : Json.Value) : Option Inverse :=
  match v.fields? ["name", "multiplicity"] with
  | some [some name, some multiplicity] => do
    pure { name := ← name.string?, multiplicity := ← Multiplicity.ofValue? multiplicity }
  | _ => none

end Inverse

namespace Relation

-- Whether a relation and its inverse are kept in sync. Pairs that are single-valued on both sides
-- are not, and those that are many-valued on both sides only from the side that owns them.
def isManaged (r : Relation) (i : Inverse) : Bool :=
  !(r.multiplicity.isSingle && i.multiplicity.isSingle)
    && !(r.multiplicity.isMany && i.multiplicity.isMany && !r.source)

def rule? (r : Relation) : Option Rule :=
  match r.inverse with
  | none => none
  | some i =>
    if r.isManaged i then
      some {
        relation := r.name
        inverse := i.name
        target := r.target
        multiplicity := r.multiplicity
        inverseMultiplicity := i.multiplicity
        isSource := r.source }
    else none

def toValue (r : Relation) : Json.Value :=
  .object [("name", .string r.name), ("target", r.target.toValue),
    ("multiplicity", r.multiplicity.toValue),
    ("inverse", match r.inverse with
      | some i => i.toValue
      | none => .null),
    ("source", .bool r.source)]

def ofValue? (v : Json.Value) : Option Relation :=
  match v.fields? ["name", "target", "multiplicity", "inverse", "source"] with
  | some [some name, some target, some multiplicity, inverse, source] => do
    pure {
      name := ← name.string?
      target := ← Descriptor.ofValue? target
      multiplicity := ← Multiplicity.ofValue? multiplicity
      inverse := ← Json.Value.optional Inverse.ofValue? inverse
      source := ← Json.Value.orDefault false Json.Value.bool? source }
  | _ => none

end Relation

namespace TypeSchema

def fields (t : TypeSchema) : List String :=
  t.idFields.map Text.lower

def rules (t : TypeSchema) : List Rule :=
  t.relations.filterMap Relation.rule?

def toValue (t : TypeSchema) : Json.Value :=
  .object [("resource", t.type.toValue), ("id_fields", .strings t.idFields),
    ("relations", .array (t.relations.map Relation.toValue))]

def ofValue? (v : Json.Value) : Option TypeSchema :=
  match v.fields? ["resource", "id_fields", "relations"] with
  | some [some type, idFields, relations] => do
    pure {
      type := ← Descriptor.ofValue? type
      idFields := ← Json.Value.orDefault [] (Json.Value.list? Json.Value.string?) idFields
      relations := ← Json.Value.orDefault [] (Json.Value.list? Relation.ofValue?) relations }
  | _ => none

end TypeSchema

namespace Schema

-- The types of a component with their identifying fields; all types if no domain is given.
def cachedTypes (s : Schema) (domain package : String) : List (Descriptor × List String) :=
  (s.types.filter fun t => domain.isEmpty || t.type.sameComponent domain package).map
    fun t => (t.type, t.fields)

-- The identifying fields of a type: those of its first entry.
def idFields (s : Schema) (type : Descriptor) : List String :=
  match s.types.find? (·.type == type) with
  | some t => t.fields
  | none => []

def rules (s : Schema) : List (Descriptor × List Rule) :=
  (s.types.map fun t => (t.type, t.rules)).filter (!·.2.isEmpty)

def toValue (s : Schema) : Json.Value :=
  .object [("resources", .array (s.types.map TypeSchema.toValue))]

def ofValue? (v : Json.Value) : Option Schema :=
  match v.fields? ["resources"] with
  | some [some types] => do
    pure { types := ← types.list? TypeSchema.ofValue? }
  | _ => none

open Json (Shape)

def wordShape (words : List String) : Shape :=
  .choice (words.map (·, .free))

def multiplicityShape : Shape :=
  wordShape (Multiplicity.all.map Multiplicity.word)

def inverseShape : Shape :=
  .record true [("name", .free), ("multiplicity", multiplicityShape)]

def relationShape : Shape :=
  .record true [("name", .free), ("target", .free), ("multiplicity", multiplicityShape),
    ("inverse", inverseShape), ("source", .free)]

def typeShape : Shape :=
  .record true [("resource", .free), ("id_fields", .free), ("relations", .listOf relationShape)]

def shape : Shape :=
  .record true [("resources", .listOf typeShape)]

def read? (text : String) : Option Schema := do
  let d ← Json.Document.read? text
  let v ← d.select? Json.Document.depthLimit shape
  ofValue? v

end Schema
end LinkedCache
