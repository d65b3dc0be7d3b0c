import LinkedCache.Proofs.Layout
import LinkedCache.Proofs.Resource

-- Payloads and the resources that they are read as. An object is turned down only for its links,
-- and what is written for a resource is what it was read from, with all links in one form.

namespace LinkedCache

theorem mapM_map_of_inverse {α β : Type} {f : β → Option α} {g : α → β} {as : List α}
    (h : ∀ a ∈ as, f (g a) = some a) : (as.map g).mapM f = some as := by
  rw [mapM_eq_some_iff, List.forall₂_map_left_iff, List.forall₂_same]
  exact h

namespace Link

variable {l : Link} {ls : List Link} {v : Json.Value}

-- How a link may be given: by an object with its address, among other members perhaps, or by an
-- array with nothing else.
inductive Given : Json.Value → Link → Prop
  | object {href : String} {members : List (String × Json.Value)}
    (h : members.lookup "href" = some (.string href)) : Given (.object members) ⟨href⟩
  | array (href : String) : Given (.array [.string href]) ⟨href⟩

theorem ofValue?_eq_some_iff : ofValue? v = some l ↔ Given v l := by
  constructor
  case mp =>
    intro h
    unfold ofValue? at h
    split at h
    case h_2 => cases h
    case h_1 href hf =>
      cases h
      unfold Json.Value.fields? at hf
      split at hf
      case h_1 members => exact .object (by simpa using hf)
      case h_2 items =>
        split at hf
        case isFalse => cases hf
        case isTrue hl =>
          match items, hl with
          | [], _ => cases hf
          | [item], _ =>
            cases hf
            exact .array href
      case h_3 => cases hf
  case mpr =>
    intro h
    cases h
    case object h => simp [ofValue?, Json.Value.fields?, h]
    case array => rfl

theorem ofValue?_toValue (l : Link) : ofValue? l.toValue = some l :=
  ofValue?_eq_some_iff.mpr (.object rfl)

-- Links are given by an array, in their order.
def AllGiven (v : Json.Value) (ls : List Link) : Prop :=
  ∃ items, v = .array items ∧ List.Forall₂ Given items ls

theorem listOfValue?_eq_some_iff : listOfValue? v = some ls ↔ AllGiven v ls := by
  unfold listOfValue? AllGiven
  cases v
  case array items => simp [mapM_eq_some_iff, ofValue?_eq_some_iff]
  all_goals simp

theorem listOfValue?_listToValue (ls : List Link) : listOfValue? (listToValue ls) = some ls :=
  mapM_map_of_inverse fun l _ => ofValue?_toValue l

end Link

namespace Resource

variable {r : Resource} {v : Json.Value} {members : List (String × Json.Value)}
  {relations : List (String × List Link)}

theorem relationsOfValue?_eq_some_iff : relationsOfValue? v = some relations ↔
    ∃ given lists, v = .object given ∧
      List.Forall₂ (fun m list => m.1 = list.1 ∧ Link.AllGiven m.2 list.2) given lists ∧
      relations = Assoc.ofList lists := by
  have hmember (m : String × Json.Value) (list : String × List Link) :
      ((Link.listOfValue? m.2).bind fun links => some (m.1, links)) = some list ↔
        m.1 = list.1 ∧ Link.AllGiven m.2 list.2 := by
    rw [← Link.listOfValue?_eq_some_iff]
    cases h : Link.listOfValue? m.2 <;> simp [Prod.ext_iff]
  constructor
  case mp =>
    intro h
    unfold relationsOfValue? at h
    split at h
    case h_2 => cases h
    case h_1 given =>
      have ⟨lists, hl, he⟩ := Option.bind_eq_some_iff.mp h
      refine ⟨given, lists, rfl, (mapM_eq_some_iff.mp hl).imp fun m list => (hmember m list).mp, ?_⟩
      exact (Option.some.inj he).symm
  case mpr =>
    rintro ⟨given, lists, rfl, hl, rfl⟩
    refine Option.bind_eq_some_iff.mpr ⟨lists, mapM_eq_some_iff.mpr ?_, rfl⟩
    exact hl.imp fun m list => (hmember m list).mpr

theorem relationsOfValue?_relationsToValue (h : Assoc.Sorted relations) :
    relationsOfValue? (relationsToValue relations) = some relations := by
  refine relationsOfValue?_eq_some_iff.mpr ⟨_, relations, rfl, ?_, h.ofList_eq.symm⟩
  rw [List.forall₂_map_left_iff, List.forall₂_same]
  exact fun list _ => ⟨rfl, Link.listOfValue?_eq_some_iff.mp (Link.listOfValue?_listToValue list.2)⟩

-- The relations are in order, and no attribute is taken for them.
structure Regular (r : Resource) : Prop where
  relations : Assoc.Sorted r.relations
  attributes : Assoc.erase linksKey r.attributes = r.attributes

theorem Regular.ofValue_toValue (h : r.Regular) : ofValue r.toValue = .ok r := by
  unfold toValue
  split
  case isTrue hn =>
    have hl : r.attributes.lookup linksKey = none := by
      rw [← h.attributes, Assoc.lookup_erase, if_pos rfl]
    rw [ofValue, hl]
    simp [h.attributes, ← List.isEmpty_iff.mp hn]
  case isFalse =>
    rw [ofValue, Assoc.lookup_insert, if_pos rfl, Assoc.erase_insert, h.attributes]
    simp only [relationsOfValue?_relationsToValue h.relations]

-- What can be read as a resource: an object whose links, if there are any, are given by relation.
theorem ofValue_eq_ok_iff : ofValue v = .ok r ↔ ∃ members, v = .object members ∧
    r.attributes = Assoc.erase linksKey members ∧
    match members.lookup linksKey with
    | none => r.relations = []
    | some w => relationsOfValue? w = some r.relations := by
  have hmk (relations : List (String × List Link)) (attributes : List (String × Json.Value)) :
      ⟨relations, attributes⟩ = r ↔ r.attributes = attributes ∧ r.relations = relations := by
    constructor
    · rintro rfl
      exact ⟨rfl, rfl⟩
    · rintro ⟨rfl, rfl⟩
      rfl
  cases v
  case object members =>
    simp only [ofValue, Json.Value.object.injEq, exists_eq_left']
    cases members.lookup linksKey
    case none => simp only [Except.ok.injEq, hmk]
    case some w =>
      cases hw : relationsOfValue? w
      case none => simp [hw]
      case some relations =>
        simp only [hw, Except.ok.injEq, hmk, Option.some.injEq, eq_comm (a := relations)]
  all_goals simp [ofValue]

theorem eq_conversion_of_ofValue {e : Error} (h : ofValue v = .error e) :
    ∃ detail, e = .conversion detail := by
  unfold ofValue at h
  split at h
  case h_1 =>
    dsimp only at h
    split at h
    case h_1 => cases h
    case h_2 =>
      split at h
      case h_1 => cases h
      case h_2 =>
        cases h
        exact ⟨_, rfl⟩
  case h_2 =>
    cases h
    exact ⟨_, rfl⟩

theorem regular_of_ofValue (h : ofValue v = .ok r) : r.Regular := by
  have ⟨members, _, ha, hr⟩ := ofValue_eq_ok_iff.mp h
  refine ⟨?_, ha ▸ Assoc.erase_erase ..⟩
  split at hr
  case h_1 => exact hr ▸ .nil
  case h_2 =>
    have ⟨_, lists, _, _, hl⟩ := relationsOfValue?_eq_some_iff.mp hr
    exact hl ▸ Assoc.sorted_ofList lists

-- Whether a payload is an object whose links, if there are any, are given by relation.
def Readable (v : Json.Value) : Prop :=
  ∃ members, v = .object members ∧ ∀ w, members.lookup linksKey = some w →
    ∃ given, w = .object given ∧ ∀ m ∈ given, ∃ ls, Link.AllGiven m.2 ls

theorem readable_iff : Readable v ↔ ∃ r, ofValue v = .ok r := by
  constructor
  case mp =>
    rintro ⟨members, rfl, hlinks⟩
    cases hw : members.lookup linksKey
    case none =>
      refine ⟨⟨[], _⟩, ofValue_eq_ok_iff.mpr ⟨members, rfl, rfl, ?_⟩⟩
      rw [hw]
    case some w =>
      obtain ⟨given, rfl, hgiven⟩ := hlinks w hw
      have ⟨lists, hl⟩ : ∃ lists : List (String × List Link),
          List.Forall₂ (fun m list => m.1 = list.1 ∧ Link.AllGiven m.2 list.2) given lists :=
        exists_forall₂_iff.mpr fun m hm => have ⟨ls, hls⟩ := hgiven m hm; ⟨(m.1, ls), rfl, hls⟩
      refine ⟨⟨Assoc.ofList lists, _⟩, ofValue_eq_ok_iff.mpr ⟨members, rfl, rfl, ?_⟩⟩
      rw [hw]
      exact relationsOfValue?_eq_some_iff.mpr ⟨given, lists, rfl, hl, rfl⟩
  case mpr =>
    intro ⟨r, h⟩
    obtain ⟨members, rfl, _, hr⟩ := ofValue_eq_ok_iff.mp h
    refine ⟨members, rfl, fun w hw => ?_⟩
    rw [hw] at hr
    obtain ⟨given, lists, rfl, hl, _⟩ := relationsOfValue?_eq_some_iff.mp hr
    refine ⟨given, rfl, fun m hm => ?_⟩
    have ⟨list, _, hlist⟩ := exists_forall₂_iff.mp ⟨lists, hl⟩ m hm
    exact ⟨list.2, hlist⟩

-- What is written for a resource against the payload that it was read from: all members but the
-- links, and of the links every relation with all of its links in their order.
structure Restates (members : List (String × Json.Value)) (r : Resource)
    (written : List (String × Json.Value)) : Prop where
  others : Assoc.erase linksKey written = Assoc.erase linksKey members
  sorted : Assoc.Sorted members → Assoc.Sorted written
  isSome : (written.lookup linksKey).isSome ↔ r.relations ≠ []
  unlinked : members.lookup linksKey = none → r.relations = []
  relations : ∀ given, members.lookup linksKey = some (.object given) →
    (given.map (·.1)).Nodup → ∀ relation,
      Option.Rel Link.AllGiven (given.lookup relation) (r.relations.lookup relation) ∧
      (written.lookup linksKey).bind (·.member? relation) =
        (r.relations.lookup relation).map Link.listToValue

theorem exists_restates (h : ofValue v = .ok r) : ∃ members written, v = .object members ∧
    r.toValue = .object written ∧ Restates members r written := by
  obtain ⟨members, rfl, ha, hr⟩ := ofValue_eq_ok_iff.mp h
  have hlink : r.attributes.lookup linksKey = none := by rw [ha, Assoc.lookup_erase, if_pos rfl]
  have hunlinked (hn : members.lookup linksKey = none) : r.relations = [] := by rwa [hn] at hr
  -- What is read of the relations does not depend on whether there are any.
  have hrelations (given : List (String × Json.Value))
      (hgiven : members.lookup linksKey = some (.object given)) (hd : (given.map (·.1)).Nodup)
      (relation : String) :
      Option.Rel Link.AllGiven (given.lookup relation) (r.relations.lookup relation) := by
    rw [hgiven] at hr
    obtain ⟨_, lists, he, hl, hlists⟩ := relationsOfValue?_eq_some_iff.mp hr
    cases he
    have hl : Assoc.Related (fun _ => Link.AllGiven) given lists := hl
    rw [hlists, Assoc.lookup_ofList_of_nodup (hl.keys_eq ▸ hd)]
    exact hl.lookup relation
  have hsorted (hs : Assoc.Sorted members) : Assoc.Sorted r.attributes := ha ▸ hs.erase linksKey
  refine ⟨members, _, rfl, apply_ite Json.Value.object .. |>.symm, ?_⟩
  by_cases hn : r.relations = []
  case pos =>
    rw [if_pos (List.isEmpty_iff.mpr hn)]
    refine ⟨by rw [ha, Assoc.erase_erase], hsorted, by simp [hlink, hn], hunlinked, ?_⟩
    intro given hgiven hd relation
    refine ⟨hrelations given hgiven hd relation, ?_⟩
    simp [hlink, hn]
  case neg =>
    rw [if_neg (mt List.isEmpty_iff.mp hn)]
    refine ⟨?_, fun hs => (hsorted hs).insert .., by simp [hn], hunlinked, ?_⟩
    · rw [Assoc.erase_insert, ha, Assoc.erase_erase]
    · intro given hgiven hd relation
      refine ⟨hrelations given hgiven hd relation, ?_⟩
      rw [Assoc.lookup_insert, if_pos rfl]
      exact Assoc.lookup_map Link.listToValue

-- A payload that can be read is read as a resource for which the same payload is written, with its
-- relations by name and each link as an object; and what is written is read as this resource again.
theorem ofValue_of_readable (v : Json.Value) :
    (Readable v → ∃ r members written, ofValue v = .ok r ∧ ofValue r.toValue = .ok r ∧
      v = .object members ∧ r.toValue = .object written ∧ Restates members r written) ∧
    (¬Readable v → ∃ detail, ofValue v = .error (.conversion detail)) := by
  constructor
  case left =>
    intro h
    have ⟨r, hr⟩ := readable_iff.mp h
    have ⟨members, written, hrestates⟩ := exists_restates hr
    exact ⟨r, members, written, hr, (regular_of_ofValue hr).ofValue_toValue, hrestates⟩
  case right =>
    intro h
    cases hv : ofValue v
    case ok r => exact absurd (readable_iff.mpr ⟨r, hv⟩) h
    case error e =>
      obtain ⟨detail, rfl⟩ := eq_conversion_of_ofValue hv
      exact ⟨detail, rfl⟩

section Enrolled

-- A student with links in each form, an empty relation, and attributes on both sides of the links.
def enrolled : List (String × Json.Value) := [
  ("Name", .string "Kari"),
  ("_links", .object [
    ("friend", .array []),
    ("group", .array [
      .object [("href", .string "x/systemid/a"), ("title", .null)],
      .array [.string "systemid/b"]])]),
  ("systemId", .object [("value", .int 1)])]

def restated : List (String × Json.Value) := [
  ("Name", .string "Kari"),
  ("_links", .object [
    ("friend", .array []),
    ("group", .array [
      .object [("href", .string "x/systemid/a")],
      .object [("href", .string "systemid/b")]])]),
  ("systemId", .object [("value", .int 1)])]

theorem ofValue_of_readable_enrolled : Readable (.object enrolled) ∧
    ∃ r, ofValue (.object enrolled) = .ok r ∧ ofValue r.toValue = .ok r ∧
      r.toValue = .object restated := by
  have hr : ofValue (.object enrolled) = .ok {
      relations := [("friend", []), ("group", [⟨"x/systemid/a"⟩, ⟨"systemid/b"⟩])]
      attributes := [("Name", .string "Kari"), ("systemId", .object [("value", .int 1)])] } :=
    rfl
  have h : Readable (.object enrolled) := readable_iff.mpr ⟨_, hr⟩
  have ⟨r, _, _, hread, hwritten, _⟩ := (ofValue_of_readable (.object enrolled)).1 h
  refine ⟨h, r, hread, hwritten, ?_⟩
  cases hr.symm.trans hread
  rfl

end Enrolled

end Resource

end LinkedCache
