import LinkedCache.Pipeline
import LinkedCache.Proofs.Derivation

-- A school: students are members of groups. It serves as an example of what is proved of all
-- pipelines.

namespace LinkedCache.Roster

def student : Descriptor := ⟨"school", "roster", "student"⟩

def group : Descriptor := ⟨"school", "roster", "group"⟩

def types : List (Descriptor × List String) :=
  [(student, ["systemId"]), (group, ["systemId"])]

def membership (multiplicity : Multiplicity) : Rule where
  relation := "group"
  inverse := "member"
  target := group
  multiplicity := multiplicity
  inverseMultiplicity := .zeroOrMany
  isSource := true

def rules (multiplicity : Multiplicity) : List (Descriptor × List Rule) :=
  [(student, [membership multiplicity])]

def link (type : Descriptor) (value : String) : Link :=
  ⟨type.text ++ "/systemid/" ++ value⟩

-- A resource under its own identifier, with links to groups.
def sent (type : Descriptor) (value : String) (groups : List String) (timestamp : Int) :
    EntityEvent where
  type := type
  id := value
  payload := some (.object [
    ("systemId", .string value),
    ("_links", .object [("group", Link.listToValue (groups.map (link group)))])])
  timestamp := timestamp
  sync := none

-- A resource under its own identifier, with links under any relations.
def carrying (type : Descriptor) (value : String) (relations : List (String × List Link))
    (timestamp : Int) : EntityEvent :=
  { sent type value [] timestamp with
    payload := some (.object [
      ("systemId", .string value), ("_links", Resource.relationsToValue relations)]) }

-- The update that puts or drops a student's link on groups.
def joins (operation : Operation) (value : String) (groups : List String) (timestamp : Int) :
    Update where
  target := group
  targetIds := groups.map ("systemid/" ++ ·)
  binding := ⟨"member", [link student value]⟩
  operation := operation
  timestamp := timestamp

theorem mem_rulesOf {type : Descriptor} {rule : Rule} {multiplicity : Multiplicity} :
    rule ∈ (Registry.ofRules (rules multiplicity)).rulesOf type ↔
      type = student ∧ rule = membership multiplicity := by
  have h : Registry.ofRules (rules multiplicity) =
    ({} : Registry).enterRule student (membership multiplicity) := rfl
  rw [h, Registry.rulesOf, Registry.enterRule, Registry.mem_listed_enter]
  simp [Registry.listed]

end LinkedCache.Roster
