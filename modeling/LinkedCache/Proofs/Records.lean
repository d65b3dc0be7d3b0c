import LinkedCache.Event
import LinkedCache.Schema
import LinkedCache.Proofs.Keys
import LinkedCache.Proofs.Reading
import LinkedCache.Proofs.Roster

-- The layouts of the records. A record is read back from whatever shows it in its layout.

namespace LinkedCache

open Json (Document Filled Layout Reads Shows ShowsFields fields?_of_shows)
open Json.Value (Exact)

theorem Descriptor.Parsed.reads {d : Descriptor} (h : d.Parsed) :
    Reads .plain Descriptor.ofValue? d.toValue d :=
  Json.reads_plain (by simp [ofValue?, toValue, h.parse_text, Except.toOption])

theorem Multiplicity.reads (m : Multiplicity) : Reads .plain ofValue? m.toValue m :=
  Json.reads_plain (by cases m <;> rfl)

namespace Link

def layout : Layout := .record true [⟨"href", .plain, none⟩]

theorem reads (l : Link) : Reads layout ofValue? l.toValue l := by
  intro w h
  obtain ⟨ws, hs, hf⟩ := fields?_of_shows h
  match ws, hs with
  | [some href], ⟨_, ⟨_, hh⟩, _⟩ =>
    have hf : w.fields? ["href"] = _ := hf
    simp [ofValue?, hf, hh]

theorem reads_list (ls : List Link) :
    Reads (.listOf layout) listOfValue? (listToValue ls) ls := by
  intro w h
  have hw : w.list? ofValue? = some ls := Json.reads_list (fun l _ => reads l) w h
  obtain ⟨ws, _, rfl, _⟩ := h
  exact hw

theorem shows (l : Link) : Shows layout l.toValue l.toValue :=
  Json.shows_self (by decide) ⟨rfl, ⟨rfl, rfl⟩, trivial⟩

theorem exact (l : Link) (depth : Nat) : l.toValue.Exact (depth + 1) :=
  .object (by simp [Exact.string])

end Link

namespace Binding

def layout : Layout :=
  .record true [⟨"relation", .plain, none⟩, ⟨"links", .listOf Link.layout, none⟩]

theorem reads (b : Binding) : Reads layout ofValue? b.toValue b := by
  intro w h
  obtain ⟨ws, hs, hf⟩ := fields?_of_shows h
  match ws, hs with
  | [some relation, some links], ⟨_, ⟨_, hr⟩, _, hl, _⟩ =>
    have hf : w.fields? ["relation", "links"] = _ := hf
    simp [ofValue?, hf, hr, Link.reads_list _ _ hl, Json.Value.string?]

theorem shows (b : Binding) : Shows layout b.toValue b.toValue := by
  refine Json.shows_self (by decide) ⟨rfl, ⟨rfl, rfl⟩, rfl, ?_, trivial⟩
  exact Json.shows_list (List.forall_mem_map.mpr fun l _ => l.shows)

theorem exact (b : Binding) (depth : Nat) : b.toValue.Exact (depth + 3) := by
  have hl : (Link.listToValue b.links).Exact (depth + 2) :=
    .array (List.forall_mem_map.mpr fun l _ => l.exact depth)
  exact .object (by simp [Exact.string, hl])

end Binding

namespace Update

def fields : List (Json.Field Layout) := [
  ⟨"target", .plain, none⟩,
  ⟨"target_ids", .listOf .plain, none⟩,
  ⟨"binding", Binding.layout, none⟩,
  ⟨"operation", .plain, none⟩,
  ⟨"timestamp", .plain, some (.int 0)⟩]

def layout : Layout := .record true fields

structure Sendable (u : Update) : Prop where
  target : u.target.Parsed
  timestamp : Bounds.minInt64 ≤ u.timestamp ∧ u.timestamp ≤ Bounds.maxInt64

variable {u : Update}

def members (u : Update) : List (String × Json.Value) := [
  ("target", u.target.toValue),
  ("target_ids", .strings u.targetIds),
  ("binding", u.binding.toValue),
  ("operation", u.operation.toValue),
  ("timestamp", .int u.timestamp)]

theorem Sendable.ofValue?_eq {w : Json.Value} {ws : List (Option Json.Value)} (hu : u.Sendable)
    (hf : w.fields? fieldNames = some ws) (hs : ShowsFields fields ws u.members) :
    ofValue? w = some u := by
  match ws, hs with
  | [some target, some targetIds, some binding, some operation, timestamp],
      ⟨_, ht, _, hi, _, hb, _, ⟨_, ho⟩, _, hts, _⟩ =>
    have ht := hu.target.reads _ ht
    have hi := Json.reads_strings _ _ hi
    have hb := u.binding.reads _ hb
    have ho : Operation.ofValue? operation = some u.operation := by
      rw [ho]
      cases u.operation <;> rfl
    have hts : Json.Value.orDefault 0 Json.Value.int64? timestamp = some u.timestamp := by
      refine Json.orDefault_of_filled ?_ Json.Value.int.inj hts
      exact Json.reads_plain (if_pos hu.timestamp)
    simp [ofValue?, hf, ht, hi, hb, ho, hts]

theorem Sendable.reads (hu : u.Sendable) : Reads layout ofValue? u.toValue u := by
  intro w h
  obtain ⟨ws, hs, hf⟩ := fields?_of_shows h
  exact hu.ofValue?_eq hf hs

theorem showsFields (u : Update) :
    ShowsFields fields (u.members.map fun m => some m.2) u.members := by
  refine ⟨rfl, ⟨rfl, rfl⟩, rfl, ?_, rfl, u.binding.shows, rfl, ⟨rfl, rfl⟩, rfl, ⟨rfl, rfl⟩, trivial⟩
  exact Json.shows_list (List.forall_mem_map.mpr fun _ _ => ⟨rfl, rfl⟩)

theorem shows (u : Update) : Shows layout u.toValue u.toValue :=
  Json.shows_self (by decide) u.showsFields

theorem Sendable.exact_members (hu : u.Sendable) (depth : Nat) :
    ∀ m ∈ u.members, m.2.Exact (depth + 3) := by
  have hi : (Json.Value.strings u.targetIds).Exact (depth + 3) :=
    .array (List.forall_mem_map.mpr fun _ _ => .string _)
  have ht : (Json.Value.int u.timestamp).Exact (depth + 3) := by
    have h := hu.timestamp
    simp only [Bounds.maxInt64] at h
    exact .int ⟨h.1, by simp only [Bounds.maxNat64]; omega⟩
  simp [members, Descriptor.toValue, Operation.toValue, Exact.string, hi, u.binding.exact, ht]

end Update

namespace RelationEvent

-- The fields of the update stand beside the organisation, so that an array could not tell them.
def layout : Layout := .record false (⟨"org_id", .plain, none⟩ :: Update.fields)

theorem shows (e : RelationEvent) : Shows layout e.toValue e.toValue :=
  Json.shows_self (by decide) ⟨rfl, ⟨rfl, rfl⟩, e.update.showsFields⟩

theorem exact {e : RelationEvent} (he : e.update.Sendable) (depth : Nat) :
    e.toValue.Exact (depth + 4) :=
  .object (List.forall_mem_cons.mpr ⟨.string _, he.exact_members depth⟩)

theorem lookup_map_plainOperation {members : List (String × Json.Value)} {s : String}
    (h : members.lookup "operation" = some (.string s)) (n : String) :
    (members.map plainOperation).lookup n = members.lookup n := by
  have hp (m : String × Json.Value) : plainOperation m = (m.1, (plainOperation m).2) := by
    unfold plainOperation
    split <;> rfl
  rw [List.map_congr_left fun m _ => hp m,
    Assoc.lookup_map_keyed fun k v => (plainOperation (k, v)).2]
  by_cases hn : n = "operation"
  case pos =>
    rw [hn, h]
    rfl
  case neg =>
    have hv (v : Json.Value) : (plainOperation (n, v)).2 = v := by simp [plainOperation, hn]
    simp [hv]

theorem reads {e : RelationEvent} (he : e.update.Sendable) :
    Reads layout ofValue? e.toValue e := by
  intro w h
  obtain ⟨_, _, hv, hs, hw⟩ := h
  cases hv
  match hw with
  | .inl ⟨given, hw, _, hws⟩ =>
    cases hw
    cases hws
    obtain ⟨_, hid, hs⟩ := hs
    have ⟨_, _, _, _, _, _, _, ho, _⟩ := hs
    have hl := lookup_map_plainOperation (Json.eq_some_of_filled_plain ho)
    have hf : (Json.Value.object (given.map plainOperation)).fields? Update.fieldNames =
        some (Update.fields.map fun f => given.lookup f.name) :=
      congrArg some (List.map_congr_left fun n _ => hl n)
    have hu := he.ofValue?_eq hf hs
    have hid : given.lookup "org_id" = _ := Json.eq_some_of_filled_plain hid
    simp [ofValue?, hid, hu, Json.Value.string?]

end RelationEvent

namespace SyncMetadata

def layout : Layout := .record true [
  ⟨"type", .plain, none⟩,
  ⟨"correlation_id", .plain, none⟩,
  ⟨"total_size", .plain, none⟩]

theorem reads {m : SyncMetadata} (hm : m.totalSize ≤ Bounds.maxNat64) :
    Reads layout ofValue? m.toValue m := by
  intro w h
  obtain ⟨ws, hs, hf⟩ := fields?_of_shows h
  match ws, hs with
  | [some kind, some correlationId, some totalSize], ⟨_, ⟨_, hk⟩, _, ⟨_, hc⟩, _, ⟨_, ht⟩, _⟩ =>
    have hf : w.fields? ["type", "correlation_id", "total_size"] = _ := hf
    have hk : SyncKind.ofValue? kind = some m.kind := by
      rw [hk]
      cases m.kind <;> rfl
    have ht : totalSize.nat64? = some m.totalSize := by
      rw [ht]
      exact if_pos ⟨Int.natCast_nonneg _, Int.ofNat_le.mpr hm⟩
    simp [ofValue?, hf, hk, hc, ht, Json.Value.string?]

theorem shows (m : SyncMetadata) : Shows layout m.toValue m.toValue :=
  Json.shows_self (by decide) ⟨rfl, ⟨rfl, rfl⟩, rfl, ⟨rfl, rfl⟩, rfl, ⟨rfl, rfl⟩, trivial⟩

theorem exact {m : SyncMetadata} (hm : m.totalSize ≤ Bounds.maxNat64) (depth : Nat) :
    m.toValue.Exact (depth + 1) := by
  have ht : (Json.Value.int m.totalSize).Exact depth :=
    .int ⟨by simp only [Bounds.minInt64]; omega, Int.ofNat_le.mpr hm⟩
  exact .object (by simp [SyncKind.toValue, Exact.string, ht])

end SyncMetadata

namespace Rule

def layout : Layout := .record true [
  ⟨"target_relation", .plain, none⟩,
  ⟨"inverse_relation", .plain, none⟩,
  ⟨"target", .plain, none⟩,
  ⟨"target_multiplicity", .plain, none⟩,
  ⟨"inverse_multiplicity", .plain, none⟩,
  ⟨"is_source", .plain, none⟩]

theorem reads {r : Rule} (ht : r.target.Parsed) : Reads layout ofValue? r.toValue r := by
  intro w h
  obtain ⟨ws, hs, hf⟩ := fields?_of_shows h
  match ws, hs with
  | [some relation, some inverse, some target, some multiplicity, some inverseMultiplicity,
      some isSource], ⟨_, ⟨_, hr⟩, _, ⟨_, hi⟩, _, htarget, _, hm, _, him, _, ⟨_, hs⟩, _⟩ =>
    have hf : w.fields? fieldNames = _ := hf
    have ht := ht.reads _ htarget
    have hm := r.multiplicity.reads _ hm
    have him := r.inverseMultiplicity.reads _ him
    simp [ofValue?, hf, hr, hi, ht, hm, him, hs, Json.Value.string?, Json.Value.bool?]

theorem shows (r : Rule) : Shows layout r.toValue r.toValue :=
  Json.shows_self (by decide) ⟨rfl, ⟨rfl, rfl⟩, rfl, ⟨rfl, rfl⟩, rfl, ⟨rfl, rfl⟩, rfl, ⟨rfl, rfl⟩,
    rfl, ⟨rfl, rfl⟩, rfl, ⟨rfl, rfl⟩, trivial⟩

theorem exact (r : Rule) (depth : Nat) : r.toValue.Exact (depth + 1) :=
  .object (by simp [Descriptor.toValue, Multiplicity.toValue, Exact.string, Exact.bool])

end Rule

namespace Inverse

def layout : Layout := .record true [⟨"name", .plain, none⟩, ⟨"multiplicity", .plain, none⟩]

theorem reads (i : Inverse) : Reads layout ofValue? i.toValue i := by
  intro w h
  obtain ⟨ws, hs, hf⟩ := fields?_of_shows h
  match ws, hs with
  | [some name, some multiplicity], ⟨_, ⟨_, hn⟩, _, hm, _⟩ =>
    have hf : w.fields? ["name", "multiplicity"] = _ := hf
    simp [ofValue?, hf, hn, i.multiplicity.reads _ hm, Json.Value.string?]

theorem shows (i : Inverse) : Shows layout i.toValue i.toValue :=
  Json.shows_self (by decide) ⟨rfl, ⟨rfl, rfl⟩, rfl, ⟨rfl, rfl⟩, trivial⟩

theorem exact (i : Inverse) (depth : Nat) : i.toValue.Exact (depth + 1) :=
  .object (by simp [Multiplicity.toValue, Exact.string])

end Inverse

namespace Relation

def layout : Layout := .record true [
  ⟨"name", .plain, none⟩,
  ⟨"target", .plain, none⟩,
  ⟨"multiplicity", .plain, none⟩,
  ⟨"inverse", .optional Inverse.layout, some .null⟩,
  ⟨"source", .plain, some (.bool false)⟩]

theorem reads {r : Relation} (ht : r.target.Parsed) : Reads layout ofValue? r.toValue r := by
  intro w h
  obtain ⟨ws, hs, hf⟩ := fields?_of_shows h
  match ws, hs with
  | [some name, some target, some multiplicity, inverse, source],
      ⟨_, ⟨_, hn⟩, _, htarget, _, hm, _, hi, _, hsource, _⟩ =>
    have hf : w.fields? ["name", "target", "multiplicity", "inverse", "source"] = _ := hf
    have ht := ht.reads _ htarget
    have hm := r.multiplicity.reads _ hm
    have hi : Json.Value.optional Inverse.ofValue? inverse = some r.inverse := by
      refine Json.optional_of_filled (fun i _ => i.reads) nofun rfl ?_
      generalize r.inverse = i at hi ⊢
      cases i <;> exact hi
    have hsource : Json.Value.orDefault false Json.Value.bool? source = some r.source :=
      Json.orDefault_of_filled (Json.reads_plain rfl) Json.Value.bool.inj hsource
    simp [ofValue?, hf, hn, ht, hm, hi, hsource, Json.Value.string?]

theorem shows (r : Relation) : Shows layout r.toValue r.toValue := by
  refine Json.shows_self (by decide) ⟨rfl, ⟨rfl, rfl⟩, rfl, ⟨rfl, rfl⟩, rfl, ?_, rfl, ?_, rfl,
    ⟨rfl, rfl⟩, trivial⟩
  case refine_1 => exact ⟨rfl, rfl⟩
  case refine_2 =>
    cases r.inverse
    case none => exact .inl ⟨⟨rfl, rfl⟩, rfl⟩
    case some i => exact .inr i.shows

theorem exact (r : Relation) (depth : Nat) : r.toValue.Exact (depth + 2) := by
  obtain ⟨name, target, multiplicity, inverse, source⟩ := r
  refine .object ?_
  cases inverse
  case none =>
    simp [Descriptor.toValue, Multiplicity.toValue, Exact.string, Exact.bool, Exact.null]
  case some i =>
    simp [Descriptor.toValue, Multiplicity.toValue, Exact.string, Exact.bool, i.exact]

end Relation

namespace TypeSchema

def layout : Layout := .record true [
  ⟨"resource", .plain, none⟩,
  ⟨"id_fields", .listOf .plain, some (.array [])⟩,
  ⟨"relations", .listOf Relation.layout, some (.array [])⟩]

structure Parsed (t : TypeSchema) : Prop where
  type : t.type.Parsed
  targets : ∀ r ∈ t.relations, r.target.Parsed

theorem Parsed.reads {t : TypeSchema} (ht : t.Parsed) : Reads layout ofValue? t.toValue t := by
  intro w h
  obtain ⟨ws, hs, hf⟩ := fields?_of_shows h
  match ws, hs with
  | [some type, idFields, relations], ⟨_, htype, _, hi, _, hr, _⟩ =>
    have hf : w.fields? ["resource", "id_fields", "relations"] = _ := hf
    have htype := ht.type.reads _ htype
    have hi : Json.Value.orDefault [] (Json.Value.list? Json.Value.string?) idFields =
        some t.idFields := by
      refine Json.orDefault_of_filled (Json.reads_strings _) (fun h => ?_) hi
      exact List.map_eq_nil_iff.mp (Json.Value.array.inj h)
    have hr : Json.Value.orDefault [] (Json.Value.list? Relation.ofValue?) relations =
        some t.relations := by
      have hreads := Json.reads_list fun r hr => Relation.reads (ht.targets r hr)
      refine Json.orDefault_of_filled hreads (fun h => ?_) hr
      exact List.map_eq_nil_iff.mp (Json.Value.array.inj h)
    simp [ofValue?, hf, htype, hi, hr]

theorem shows (t : TypeSchema) : Shows layout t.toValue t.toValue := by
  refine Json.shows_self (by decide) ⟨rfl, ⟨rfl, rfl⟩, rfl, ?_, rfl, ?_, trivial⟩
  case refine_1 => exact Json.shows_list (List.forall_mem_map.mpr fun _ _ => ⟨rfl, rfl⟩)
  case refine_2 => exact Json.shows_list (List.forall_mem_map.mpr fun r _ => r.shows)

theorem exact (t : TypeSchema) (depth : Nat) : t.toValue.Exact (depth + 4) := by
  have hi : (Json.Value.strings t.idFields).Exact (depth + 3) :=
    .array (List.forall_mem_map.mpr fun _ _ => .string _)
  have hr : (Json.Value.array (t.relations.map Relation.toValue)).Exact (depth + 3) :=
    .array (List.forall_mem_map.mpr fun r _ => r.exact depth)
  exact .object (by simp [Descriptor.toValue, Exact.string, hi, hr])

end TypeSchema

namespace Schema

def layout : Layout := .record true [⟨"resources", .listOf TypeSchema.layout, none⟩]

def Parsed (s : Schema) : Prop :=
  ∀ t ∈ s.types, t.Parsed

theorem Parsed.reads {s : Schema} (hs : s.Parsed) : Reads layout ofValue? s.toValue s := by
  intro w h
  obtain ⟨ws, hw, hf⟩ := fields?_of_shows h
  match ws, hw with
  | [some types], ⟨_, ht, _⟩ =>
    have hf : w.fields? ["resources"] = _ := hf
    have ht := Json.reads_list (fun t ht => (hs t ht).reads) _ ht
    simp [ofValue?, hf, ht]

theorem shows (s : Schema) : Shows layout s.toValue s.toValue := by
  refine Json.shows_self (by decide) ⟨rfl, ?_, trivial⟩
  exact Json.shows_list (List.forall_mem_map.mpr fun t _ => t.shows)

theorem exact (s : Schema) (depth : Nat) : s.toValue.Exact (depth + 6) := by
  have ht : (Json.Value.array (s.types.map TypeSchema.toValue)).Exact (depth + 5) :=
    .array (List.forall_mem_map.mpr fun t _ => t.exact depth)
  exact .object (by simp [ht])

open Json.Document (Selects selects_free_list selects_list selects_optional selects_plain
  selects_record)

theorem selects_inverse (depth : Nat) : Selects inverseShape Inverse.layout (depth + 1) := by
  refine selects_record (by decide) ?_
  exact List.Forall₂.cons ⟨rfl, selects_plain⟩ (.cons ⟨rfl, selects_plain⟩ .nil)

theorem selects_relation (depth : Nat) : Selects relationShape Relation.layout (depth + 2) := by
  refine selects_record (by decide) ?_
  exact List.Forall₂.cons ⟨rfl, selects_plain⟩ (.cons ⟨rfl, selects_plain⟩
    (.cons ⟨rfl, selects_plain⟩ (.cons ⟨rfl, selects_optional (selects_inverse depth)⟩
      (.cons ⟨rfl, selects_plain⟩ .nil))))

theorem selects_type (depth : Nat) : Selects typeShape TypeSchema.layout (depth + 4) := by
  refine selects_record (by decide) ?_
  exact List.Forall₂.cons ⟨rfl, selects_plain⟩ (.cons ⟨rfl, selects_free_list⟩
    (.cons ⟨rfl, selects_list (selects_relation depth)⟩ .nil))

theorem selects (depth : Nat) : Selects shape layout (depth + 6) := by
  refine selects_record (by decide) ?_
  exact List.Forall₂.cons ⟨rfl, selects_list (selects_type depth)⟩ .nil

-- A text is read as the schema that it shows.
theorem Parsed.read?_eq {s : Schema} (hs : s.Parsed) {text : String} {d : Document}
    (hd : Document.read? text = some d) (h : Shows layout d s.toValue) : read? text = some s := by
  have ⟨w, hw, hshows⟩ := selects 121 h
  have hw : d.select? Document.depthLimit shape = some w := hw
  simp [read?, hd, hw, hs.reads w hshows]

end Schema

namespace Json

variable {α : Type} {layout : Layout} {toValue : α → Value} {ofValue? : Value → Option α} {a : α}

-- A record is read from its encoding, and from all values and texts that show it.
structure Recovers (layout : Layout) (toValue : α → Value) (ofValue? : Value → Option α) (a : α) :
    Prop where
  value : ofValue? (toValue a) = some a
  text : (Value.read? (toValue a).compact).bind ofValue? = some a
  shown : ∀ w : Value, Shows layout w (toValue a) → ofValue? w = some a
  shownText : ∀ text d w, Document.read? text = some d → Shows layout d (toValue a) →
    Value.read? text = some w → ofValue? w = some a

theorem Reads.recovers (hr : Reads layout ofValue? (toValue a) a)
    (hs : Shows layout (toValue a) (toValue a)) (he : (toValue a).Exact Document.depthLimit) :
    Recovers layout toValue ofValue? a := by
  have hd {d : Document} {w : Value} (h : Shows layout d (toValue a))
      (hw : d.toValue? Document.depthLimit = some w) : ofValue? w = some a :=
    hr w (Document.translates_hasValue.shows layout ⟨_, hw⟩ h)
  have hdoc : Shows layout (toValue a).document (toValue a) :=
    Value.translates_hasDocument.shows layout ⟨⟨_, he⟩, rfl⟩ hs
  refine ⟨hr _ hs, ?_, hr, fun text d w ht h hw => ?_⟩
  case refine_1 => rw [he.read?_compact, Option.bind_some, hd hdoc he.toValue?_document]
  case refine_2 =>
    rw [Value.read?, ht] at hw
    exact hd h hw

end Json

open Json (Recovers)

-- Every record is read back from what it is written as, with the members of an object in any order,
-- with others beside them or without those that hold their default, and with an array in place of
-- an object.
theorem recovers_records :
    (∀ u : Update, u.Sendable → Recovers Update.layout Update.toValue Update.ofValue? u) ∧
    (∀ e : RelationEvent, e.update.Sendable →
      Recovers RelationEvent.layout RelationEvent.toValue RelationEvent.ofValue? e) ∧
    (∀ m : SyncMetadata, m.totalSize ≤ Bounds.maxNat64 →
      Recovers SyncMetadata.layout SyncMetadata.toValue SyncMetadata.ofValue? m) ∧
    (∀ r : Rule, r.target.Parsed → Recovers Rule.layout Rule.toValue Rule.ofValue? r) ∧
    (∀ s : Schema, s.Parsed → Recovers Schema.layout Schema.toValue Schema.ofValue? s ∧
      Schema.read? s.toValue.compact = some s ∧
      ∀ text d, Document.read? text = some d → Shows Schema.layout d s.toValue →
        Schema.read? text = some s) := by
  refine ⟨fun u hu => ?_, fun e he => ?_, fun m hm => ?_, fun r hr => ?_, fun s hs => ?_⟩
  case refine_1 => exact hu.reads.recovers u.shows (.object (hu.exact_members 123))
  case refine_2 => exact (RelationEvent.reads he).recovers e.shows (RelationEvent.exact he 123)
  case refine_3 => exact (SyncMetadata.reads hm).recovers m.shows (SyncMetadata.exact hm 126)
  case refine_4 => exact (Rule.reads hr).recovers r.shows (r.exact 126)
  case refine_5 =>
    have he := s.exact 121
    refine ⟨hs.reads.recovers s.shows he, ?_, fun text d => hs.read?_eq⟩
    refine hs.read?_eq he.document?_compact ?_
    exact Json.Value.translates_hasDocument.shows _ ⟨⟨_, he⟩, rfl⟩ s.shows

section School

open Roster
open Json (shows_array shows_list shows_object)

def leaving : Update := joins .delete "1" ["a"] 0

-- A student leaves a group: with the binding and its link as arrays, and without the timestamp.
def leavingMembers : List (String × Json.Value) := [
  ("operation", .string "DELETE"),
  ("binding", .array [.string "member",
    .array [.array [.string "school/roster/student/systemid/1"]]]),
  ("target_ids", .array [.string "systemid/a"]),
  ("target", .string "school/roster/group")]

theorem showsFields_leaving : ShowsFields Update.fields
    (Update.fields.map fun f => leavingMembers.lookup f.name) leaving.members := by
  have hlink : Json.Value.string "school/roster/student/systemid/1" =
      .string (link student "1").href := congrArg _ (by decide +kernel)
  refine ⟨rfl, ⟨rfl, congrArg _ (by decide +kernel)⟩, rfl, ?_, rfl, shows_array 0 ?_, rfl,
    ⟨rfl, rfl⟩, rfl, rfl, trivial⟩
  case refine_1 => exact shows_list (List.forall_mem_singleton.mpr ⟨rfl, rfl⟩)
  case refine_2 =>
    refine ⟨rfl, ⟨rfl, rfl⟩, rfl, ⟨_, _, rfl, rfl, .cons (shows_array 0 ?_) .nil⟩, trivial⟩
    exact ⟨rfl, ⟨rfl, hlink⟩, trivial⟩

def school : Schema where
  types := [
    ⟨student, ["systemId"], [⟨"group", group, .zeroOrMany, some ⟨"member", .zeroOrMany⟩, true⟩]⟩,
    ⟨group, [], []⟩]

-- One type with the members in another order and an array for its relation, and another one without
-- what holds its default.
def schoolValue : Json.Value := .object [("resources", .array [
  .object [
    ("relations", .array [.array [.string "group", .string "school/roster/group",
      .string "zero_or_many",
      .object [("multiplicity", .string "zero_or_many"), ("name", .string "member")],
      .bool true]]),
    ("id_fields", .array [.string "systemId"]),
    ("resource", .string "school/roster/student")],
  .object [("comment", .int 1), ("resource", .string "school/roster/group")]])]

theorem shows_school : Shows Schema.layout schoolValue school.toValue := by
  have hgroup : Json.Value.string "school/roster/group" = group.toValue :=
    congrArg _ (by decide +kernel)
  have hstudent : Json.Value.string "school/roster/student" = student.toValue :=
    congrArg _ (by decide +kernel)
  refine shows_object (by decide) ⟨rfl, ⟨_, _, rfl, rfl, .cons ?_ (.cons ?_ .nil)⟩, trivial⟩
  case refine_1 =>
    refine shows_object (by decide) ⟨rfl, ⟨rfl, hstudent⟩, rfl, ?_, rfl, ?_, trivial⟩
    · exact shows_list (List.forall_mem_singleton.mpr ⟨rfl, rfl⟩)
    · refine ⟨_, _, rfl, rfl, .cons (shows_array 0 ?_) .nil⟩
      refine ⟨rfl, ⟨rfl, rfl⟩, rfl, ⟨rfl, hgroup⟩, rfl, ⟨rfl, rfl⟩, rfl, .inr ?_, rfl, ⟨rfl, rfl⟩,
        trivial⟩
      exact shows_object (by decide) ⟨rfl, ⟨rfl, rfl⟩, rfl, ⟨rfl, rfl⟩, trivial⟩
  case refine_2 =>
    exact shows_object (by decide) ⟨rfl, ⟨rfl, hgroup⟩, rfl, rfl, rfl, rfl, trivial⟩

theorem recovers_records_school :
    Update.ofValue? (.object (("comment", .null) :: leavingMembers)) = some leaving ∧
    RelationEvent.ofValue? (.object (leavingMembers ++ [("org_id", .string "north")])) =
      some ⟨"north", leaving⟩ ∧
    SyncMetadata.ofValue? (.array [.string "DELTA", .string "run", .int Bounds.maxNat64]) =
      some ⟨.delta, "run", Bounds.maxNat64⟩ ∧
    Rule.ofValue? (.array [.string "group", .string "member", .string "school/roster/group",
      .string "zero_or_one", .string "zero_or_many", .bool true]) =
      some (membership .zeroOrOne) ∧
    Schema.ofValue? schoolValue = some school ∧
    Schema.read? school.toValue.compact = some school := by
  have hgroup : group.Parsed := ⟨"school/roster/group", rfl⟩
  have hstudent : student.Parsed := ⟨"school/roster/student", rfl⟩
  have hleaving : leaving.Sendable := ⟨hgroup, by decide, by decide⟩
  have hschool : school.Parsed := List.forall_mem_cons.mpr
    ⟨⟨hstudent, List.forall_mem_singleton.mpr hgroup⟩,
      List.forall_mem_singleton.mpr ⟨hgroup, nofun⟩⟩
  have ⟨hu, he, hm, hr, hs⟩ := recovers_records
  have ⟨hs, ht, _⟩ := hs school hschool
  refine ⟨(hu leaving hleaving).shown _ ?_, (he ⟨"north", leaving⟩ hleaving).shown _ ?_,
    (hm ⟨.delta, "run", Bounds.maxNat64⟩ (Nat.le_refl _)).shown _ ?_,
    (hr (membership .zeroOrOne) hgroup).shown _ ?_, hs.shown _ shows_school, ht⟩
  case refine_1 => exact (shows_object (by decide) showsFields_leaving).cons (by decide)
  case refine_2 =>
    refine Shows.perm ?_ (List.perm_append_singleton _ leavingMembers).symm
    exact shows_object (by decide) ⟨rfl, ⟨rfl, rfl⟩, showsFields_leaving⟩
  case refine_3 => exact shows_array 0 ⟨rfl, ⟨rfl, rfl⟩, rfl, ⟨rfl, rfl⟩, rfl, ⟨rfl, rfl⟩, trivial⟩
  case refine_4 =>
    exact shows_array 0 ⟨rfl, ⟨rfl, rfl⟩, rfl, ⟨rfl, rfl⟩, rfl,
      ⟨rfl, congrArg _ (by decide +kernel)⟩, rfl, ⟨rfl, rfl⟩, rfl, ⟨rfl, rfl⟩, rfl, ⟨rfl, rfl⟩,
      trivial⟩

end School

end LinkedCache
