import LinkedCache.Decimal.Layout
import LinkedCache.Descriptor
import LinkedCache.Link

-- Resources: free attributes and, under `_links`, lists of links by relation. Relations and
-- attributes are kept in the order of their names.

namespace LinkedCache

structure Resource where
  relations : List (String × List Link) := []
  attributes : List (String × Json.Value) := []
deriving Inhabited, Repr

namespace Resource

def linksKey : String := "_links"

def selfRelation : String := "self"

def relationsOfValue? : Json.Value → Option (List (String × List Link))
  | .object members => do
    let lists ← members.mapM fun (relation, v) => do
      let links ← Link.listOfValue? v
      pure (relation, links)
    pure (Assoc.ofList lists)
  | _ => none

def ofValue : Json.Value → Except Error Resource
  | .object members =>
    let attributes := Assoc.erase linksKey members
    match members.lookup linksKey with
    | none => .ok ⟨[], attributes⟩
    | some v =>
      match relationsOfValue? v with
      | some relations => .ok ⟨relations, attributes⟩
      | none => .error (.conversion "malformed links")
  | v => .error (.conversion ("expected object, got " ++ v.kind))

def relationsToValue (relations : List (String × List Link)) : Json.Value :=
  .object (relations.map fun (relation, links) => (relation, Link.listToValue links))

-- The payload of a resource. Without any relation it has no `_links`.
def toValue (r : Resource) : Json.Value :=
  if r.relations.isEmpty then .object r.attributes
  else .object (Assoc.insert linksKey (relationsToValue r.relations) r.attributes)

def links (r : Resource) (relation : String) : List Link :=
  (r.relations.lookup relation).getD []

def hasRelation (r : Resource) (relation : String) : Bool :=
  !(r.links relation).isEmpty

def holds (r : Resource) (relation : String) (link : Link) : Bool :=
  (r.links relation).any (·.sameTarget link)

-- Appends a link to a relation, unless there is one to the same target.
def addUnique (r : Resource) (relation : String) (link : Link) : Resource :=
  if r.holds relation link then r
  else { r with relations := Assoc.insert relation (r.links relation ++ [link]) r.relations }

def addAll (r : Resource) (relation : String) (links : List Link) : Resource :=
  links.foldl (fun r l => r.addUnique relation l) r

-- Drops every link to the same target, and the relation if none is left.
def removeMatching (r : Resource) (relation : String) (link : Link) : Resource :=
  match r.relations.lookup relation with
  | none => r
  | some links =>
    match links.filter (!·.sameTarget link) with
    | [] => { r with relations := Assoc.erase relation r.relations }
    | kept => { r with relations := Assoc.insert relation kept r.relations }

-- The text of a value that can identify something: a number, or a text that is not empty.
def scalar? : Json.Value → Option String
  | .string s => if s.isEmpty then none else some s
  | .int n => some (toString n)
  | .float x => some (Decimal.write x)
  | _ => none

-- The attribute of this name in any case; the first of several.
def attribute? (r : Resource) (field : String) : Option Json.Value :=
  (r.attributes.find? fun (name, _) => Text.sameFolded name field).map (·.2)

def fieldValue? (r : Resource) (field : String) : Option String := do
  let v ← r.attribute? field
  (scalar? v).or ((v.member? "value").bind scalar?)

def identityUnder? (r : Resource) (field : String) : Option String :=
  (r.fieldValue? field).map fun value => Text.lower (field ++ "/" ++ value)

def identities (r : Resource) (fields : List String) : List String :=
  fields.filterMap r.identityUnder?

-- The link that other resources hold to this one: its own address if it gives one, else one made of
-- its first identity.
def backLink (r : Resource) (type : Descriptor) (fields : List String) : Except Error Link :=
  match r.links selfRelation, r.identities fields with
  | own :: _, _ => .ok own
  | [], identity :: _ => .ok ⟨type.text ++ "/" ++ identity⟩
  | [], [] => .error (.missingIdentity type.text)

end Resource
end LinkedCache
