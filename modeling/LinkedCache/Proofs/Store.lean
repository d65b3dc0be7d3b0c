import LinkedCache.Store
import LinkedCache.Proofs.Link

-- A store is a table, and its index says nothing that the table does not say: an id stands under a
-- field and a value if and only if its resource carries the value. Looking an identity up in the
-- index thus finds the resources that answer to it.

namespace LinkedCache

open Text (lower)

namespace IndexRow

variable {row row' : IndexRow} {field value id i : String}

def key (row : IndexRow) : String × String := (row.field, row.value)

theorem isFor_iff : row.isFor field value ↔ row.key = (field, value) := by
  simp [isFor, key]

@[simp]
theorem key_claim : (row.claim id).key = row.key := by
  unfold claim
  split <;> rfl

theorem mem_claim : i ∈ (row.claim id).owners ↔ i ∈ row.owners ∨ i = id := by
  unfold claim
  split
  case isTrue hc =>
    simp only [iff_self_or]
    rintro rfl
    simpa using hc
  case isFalse => simp

theorem release?_eq_some (h : row.release? id = some row') :
    row'.key = row.key ∧ ∀ i, i ∈ row'.owners ↔ i ∈ row.owners ∧ i ≠ id := by
  unfold release? at h
  split at h
  case h_1 => simp at h
  case h_2 =>
    cases h
    simp [key]

theorem release?_eq_none (h : row.release? id = none) (hi : i ∈ row.owners) : i = id := by
  unfold release? at h
  split at h
  case h_1 hf => simpa using List.filter_eq_nil_iff.mp hf i hi
  case h_2 => simp at h

end IndexRow

namespace Index

variable {rows : Index} {field value f v id i : String}

-- There is one row for each field and value.
def Keyed (rows : Index) : Prop :=
  (rows.map IndexRow.key).Nodup

theorem Keyed.mem_owners_iff (h : Keyed rows) :
    id ∈ rows.owners field value ↔ ∃ row ∈ rows, row.key = (field, value) ∧ id ∈ row.owners := by
  induction rows
  case nil => simp [owners]
  case cons row rest hi =>
    have ⟨hn, hr⟩ := List.nodup_cons.mp h
    have hi := hi hr
    unfold owners at hi ⊢
    rw [List.find?_cons]
    cases hf : row.isFor field value
    case false =>
      have hk : row.key ≠ (field, value) := mt IndexRow.isFor_iff.mpr (by simp [hf])
      simp [hi, hk]
    case true =>
      have hk := IndexRow.isFor_iff.mp hf
      simp only [List.mem_cons, exists_eq_or_imp, hk, true_and, iff_self_or]
      rintro ⟨other, hm, ho, _⟩
      exact absurd (List.mem_map.mpr ⟨other, hm, ho.trans hk.symm⟩) hn

theorem keys_claim (field value id : String) (rows : Index) :
    (claim field value id rows).map IndexRow.key =
      rows.map IndexRow.key ++
        if (field, value) ∈ rows.map IndexRow.key then [] else [(field, value)] := by
  induction rows
  case nil => simp [claim, IndexRow.key]
  case cons row rest hi =>
    unfold claim
    by_cases hf : row.isFor field value
    case pos => simp [hf, IndexRow.isFor_iff.mp hf]
    case neg =>
      have hk : (field, value) ≠ row.key := mt (IndexRow.isFor_iff.mpr ∘ Eq.symm) hf
      simp [hf, hi, hk]

theorem Keyed.claim (h : Keyed rows) : Keyed (claim field value id rows) := by
  unfold Keyed
  rw [keys_claim]
  split
  case isTrue => simpa [Keyed] using h
  case isFalse hn => exact List.nodup_append.mpr ⟨h, by simp, by simpa using hn⟩

theorem Keyed.release (h : Keyed rows) : Keyed (rows.release field value id) := by
  refine List.Nodup.sublist ?_ h
  clear h
  induction rows
  case nil => simp [Index.release]
  case cons row rest hi =>
    rw [Index.release, List.filterMap_cons]
    cases hr : (if row.isFor field value then row.release? id else some row)
    case none => exact hi.cons _
    case some row' =>
      have hk : row'.key = row.key := by
        split at hr
        case isTrue => exact (IndexRow.release?_eq_some hr).1
        case isFalse => cases hr; rfl
      rw [List.map_cons, List.map_cons, hk]
      exact hi.cons_cons _

theorem mem_owners_claim (h : Keyed rows) :
    i ∈ (claim field value id rows).owners f v ↔
      i ∈ rows.owners f v ∨ (i = id ∧ (field, value) = (f, v)) := by
  rw [h.claim.mem_owners_iff, h.mem_owners_iff]
  clear h
  induction rows
  case nil => simp [claim, IndexRow.key, and_comm]
  case cons row rest hi =>
    unfold claim
    by_cases hf : row.isFor field value
    case neg =>
      simp only [hf, Bool.false_eq_true, if_false, List.mem_cons, exists_eq_or_imp, hi, or_assoc]
    case pos =>
      simp only [hf, if_true, List.mem_cons, exists_eq_or_imp, IndexRow.key_claim,
        IndexRow.mem_claim, IndexRow.isFor_iff.mp hf]
      rw [and_or_left, or_right_comm, and_comm (a := i = id)]

theorem mem_owners_release (h : Keyed rows) :
    i ∈ (rows.release field value id).owners f v ↔
      i ∈ rows.owners f v ∧ ¬(i = id ∧ (field, value) = (f, v)) := by
  rw [h.release.mem_owners_iff, h.mem_owners_iff]
  simp only [Index.release, List.mem_filterMap]
  constructor
  · rintro ⟨row', ⟨row, hm, hr⟩, hk, hi⟩
    split at hr
    case isTrue hf =>
      have ⟨hk', ho⟩ := IndexRow.release?_eq_some hr
      have ⟨hi, hn⟩ := (ho i).mp hi
      exact ⟨⟨row, hm, hk' ▸ hk, hi⟩, fun h => hn h.1⟩
    case isFalse hf =>
      cases hr
      exact ⟨⟨_, hm, hk, hi⟩, fun h => hf (IndexRow.isFor_iff.mpr (hk.trans h.2.symm))⟩
  · rintro ⟨⟨row, hm, hk, hi⟩, hn⟩
    by_cases hf : row.isFor field value
    case neg => exact ⟨row, ⟨row, hm, by simp [hf]⟩, hk, hi⟩
    case pos =>
      have hn : i ≠ id := fun h => hn ⟨h, (IndexRow.isFor_iff.mp hf).symm.trans hk⟩
      cases hr : row.release? id
      case none => exact absurd (IndexRow.release?_eq_none hr hi) hn
      case some row' =>
        have ⟨hk', ho⟩ := IndexRow.release?_eq_some hr
        exact ⟨row', ⟨row, hm, by simp [hf, hr]⟩, hk'.trans hk, (ho i).mpr ⟨hi, hn⟩⟩

end Index

namespace Resource

variable {r r' : Resource} {fields : List String} {field value i : String}

-- Whether the index finds a resource by an identity.
def AnswersTo (r : Resource) (fields : List String) (identity : String) : Prop :=
  ∃ field value, Text.cut? '/' identity = some (field, value) ∧
    (lower field, lower value) ∈ Store.indexed fields r

theorem mem_indexed_iff :
    (field, value) ∈ Store.indexed fields r ↔
      field ∈ fields ∧ ∃ v, r.fieldValue? field = some v ∧ lower v = value := by
  simp only [Store.indexed, List.mem_filterMap, Option.map_eq_some_iff, Prod.mk.injEq]
  constructor
  · rintro ⟨_, hf, v, hv, rfl, rfl⟩
    exact ⟨hf, v, hv, rfl⟩
  · rintro ⟨hf, v, hv, rfl⟩
    exact ⟨field, hf, v, hv, rfl, rfl⟩

theorem mem_identities_iff :
    i ∈ r.identities fields ↔
      ∃ field ∈ fields, ∃ v, r.fieldValue? field = some v ∧ lower (field ++ "/" ++ v) = i := by
  simp [identities, identityUnder?]

theorem fieldValue?_congr (h : r.attributes = r'.attributes) :
    r.fieldValue? = r'.fieldValue? := by
  funext field
  simp only [fieldValue?, attribute?, h]

theorem fieldValue?_lower (r : Resource) (field : String) :
    r.fieldValue? (lower field) = r.fieldValue? field := by
  simp [fieldValue?, attribute?, Text.sameFolded]

theorem indexed_congr (h : r.attributes = r'.attributes) :
    Store.indexed fields r = Store.indexed fields r' := by
  simp only [Store.indexed, fieldValue?_congr h]

theorem identities_congr (h : r.attributes = r'.attributes) :
    r.identities fields = r'.identities fields := by
  unfold identities identityUnder?
  rw [fieldValue?_congr h]

theorem answersTo_congr (h : r.attributes = r'.attributes) :
    r.AnswersTo fields i ↔ r'.AnswersTo fields i := by
  simp only [AnswersTo, indexed_congr h]

theorem answersTo_lower : r.AnswersTo fields (lower i) ↔ r.AnswersTo fields i := by
  simp only [AnswersTo, Text.cut?_lower, Option.map_eq_some_iff, Prod.exists, Prod.mk.injEq]
  constructor
  · rintro ⟨_, _, ⟨f, v, hc, rfl, rfl⟩, h⟩
    exact ⟨f, v, hc, by simpa using h⟩
  · rintro ⟨f, v, hc, h⟩
    exact ⟨_, _, ⟨f, v, hc, rfl, rfl⟩, by simpa using h⟩

theorem AnswersTo.mem_identities (h : r.AnswersTo fields i) : lower i ∈ r.identities fields := by
  obtain ⟨f, v, hc, hi⟩ := h
  have ⟨hf, v', hv, he⟩ := mem_indexed_iff.mp hi
  have ⟨hi, _⟩ := Text.eq_of_cut? "/" hc rfl
  exact mem_identities_iff.mpr ⟨lower f, hf, v', hv, by simp [hi, he]⟩

-- An identity has one slash only, so that it can be cut in one way only.
theorem answersTo_of_mem_identities (hf : ∀ field ∈ fields, lower field = field)
    (hi : Link.Identity i) (h : i ∈ r.identities fields) : r.AnswersTo fields i := by
  obtain ⟨field, hm, v, hv, he⟩ := mem_identities_iff.mp h
  obtain ⟨f, v', rfl, hfs, hvs, -⟩ := hi.segments
  rw [Text.lower_append, Text.lower_append, Text.lower_slash, hf field hm] at he
  have ⟨hef, hev⟩ := Text.append_slash_inj he hfs.unbroken hvs.unbroken
  refine ⟨f, v', Text.cut?_append "/" v' hfs.unbroken rfl, mem_indexed_iff.mpr ?_⟩
  rw [← hef, hf field hm]
  exact ⟨hm, v, hv, by rw [← hev, Text.lower_lower]⟩

theorem lower_of_mem_identities (h : i ∈ r.identities fields) : lower i = i := by
  obtain ⟨_, _, _, _, rfl⟩ := mem_identities_iff.mp h
  exact Text.lower_lower _

theorem answersTo_iff_exists (hf : ∀ field ∈ fields, lower field = field)
    (hi : Link.Identity i) :
    r.AnswersTo fields i ↔ ∃ j ∈ r.identities fields, lower i = lower j := by
  constructor
  · exact fun h => ⟨lower i, h.mem_identities, (Text.lower_lower i).symm⟩
  · rintro ⟨j, hj, he⟩
    rw [hi.lower_eq, lower_of_mem_identities hj] at he
    exact answersTo_of_mem_identities hf hi (he ▸ hj)

end Resource

namespace Store

variable {s : Store} {field value id i : String} {r : Resource}

-- The table has one entry for each id, and the index mirrors the table.
structure Mirrors (s : Store) : Prop where
  folded : ∀ field ∈ s.fields, lower field = field
  nodup : (s.entries.map (·.id)).Nodup
  keyed : s.index.Keyed
  owners : ∀ field value id, id ∈ s.index.owners field value ↔
    ∃ r, s.get? id = some r ∧ (field, value) ∈ indexed s.fields r

theorem resolve?_eq_none_iff (h : s.Mirrors) :
    s.resolve? i = none ↔ ∀ id r, s.get? id = some r → ¬r.AnswersTo s.fields i := by
  unfold resolve? Resource.AnswersTo owner?
  cases hc : Text.cut? '/' i
  case none => simp
  case some fv =>
    simp only [Option.bind_eq_bind, Option.bind_some, List.head?_eq_none_iff, Option.some.injEq,
      List.eq_nil_iff_forall_not_mem, h.owners]
    constructor
    · rintro hn id r hr ⟨f, v, rfl, hi⟩
      exact hn id ⟨r, hr, hi⟩
    · rintro hn id ⟨r, hr, hi⟩
      exact hn id r hr ⟨_, _, rfl, hi⟩

theorem exists_of_resolve? (h : s.Mirrors) (hi : s.resolve? i = some id) :
    ∃ r, s.get? id = some r ∧ r.AnswersTo s.fields i := by
  unfold resolve? owner? at hi
  cases hc : Text.cut? '/' i
  case none => simp [hc] at hi
  case some fv =>
    simp only [hc, Option.bind_eq_bind, Option.bind_some] at hi
    have ⟨r, hr, hm⟩ := (h.owners ..).mp (List.mem_of_mem_head? hi)
    exact ⟨r, hr, fv.1, fv.2, hc, hm⟩

theorem entry?_id {e : Entry} (h : s.entry? id = some e) : e.id = id := by
  simpa using List.find?_some h

theorem mem_entries {e : Entry} (h : s.entry? id = some e) : e ∈ s.entries :=
  List.mem_of_find?_eq_some h

theorem entry?_of_mem {e : Entry} (h : (s.entries.map (·.id)).Nodup) (he : e ∈ s.entries) :
    s.entry? e.id = some e := by
  unfold entry?
  generalize s.entries = es at h he
  induction es
  case nil => simp at he
  case cons e' es hi =>
    simp only [List.map_cons, List.nodup_cons, List.mem_map, not_exists, not_and] at h
    rw [List.find?_cons]
    obtain rfl | he := List.mem_cons.mp he
    case inl => simp
    case inr => rw [beq_false_of_ne (Ne.symm (h.1 e he)), hi h.2 he]

theorem entry?_isSome_iff : (s.entry? id).isSome ↔ id ∈ s.entries.map (·.id) := by
  simp [ entry?]

theorem entry?_overwrite (old : Entry) (t : Int) :
    entry? (s.overwrite old r t) i = (s.entry? i).map fun e =>
      if i = old.id then { old with resource := r, timestamp := t, version := s.nextVersion }
      else e := by
  unfold overwrite entry?
  rw [List.find?_map]
  have hp : (fun e : Entry => e.id == i) ∘ (fun e => if e.id == old.id then
      { old with resource := r, timestamp := t, version := s.nextVersion } else e) =
      fun e => e.id == i := by
    funext e
    simp only [Function.comp_apply]
    split <;> simp_all
  rw [hp]
  cases hf : s.entries.find? (·.id == i)
  case none => rfl
  case some e => simp [← show e.id = i by simpa using List.find?_some hf]

theorem entry?_overwrite_self {old : Entry} {t : Int} (h : s.entry? old.id = some old) :
    entry? (s.overwrite old r t) old.id =
      some { old with resource := r, timestamp := t, version := s.nextVersion } := by
  rw [entry?_overwrite, h, Option.map_some, if_pos rfl]

theorem entry?_overwrite_of_ne {old : Entry} {t : Int} (h : i ≠ old.id) :
    entry? (s.overwrite old r t) i = s.entry? i := by
  simp [entry?_overwrite, h]

theorem get?_overwrite (old : Entry) (t : Int) (h : (s.entry? old.id).isSome) :
    (s.overwrite old r t).get? i = if i = old.id then some r else s.get? i := by
  unfold get?
  rw [entry?_overwrite]
  split
  case isTrue hi => simp [hi, Option.isSome_iff_exists.mp h]
  case isFalse hi => simp

theorem entry?_create (t : Int) (h : s.entry? id = none) :
    entry? (s.create id r t) i =
      if i = id then some ⟨id, r, t, s.nextSeq, s.nextVersion⟩ else s.entry? i := by
  unfold entry? create
  unfold entry? at h
  rw [List.find?_append]
  by_cases hi : i = id
  case pos => simp [hi, h]
  case neg => simp [hi, Ne.symm hi]

theorem get?_create (t : Int) (h : s.entry? id = none) :
    (s.create id r t).get? i = if i = id then some r else s.get? i := by
  unfold get?
  rw [entry?_create t h]
  split <;> rfl

theorem entry?_put_self (s : Store) (id : String) (r : Resource) (t : Int) :
    ∃ e, entry? (s.put id r t) id = some e ∧ e.resource = r ∧ e.timestamp = t ∧
      e.version = s.nextVersion := by
  unfold put
  split
  case h_1 old h =>
    obtain rfl := entry?_id h
    exact ⟨_, entry?_overwrite_self h, rfl, rfl, rfl⟩
  case h_2 h => exact ⟨_, (entry?_create t h).trans (if_pos rfl), rfl, rfl, rfl⟩

theorem entry?_put_of_ne {t : Int} (h : i ≠ id) : entry? (s.put id r t) i = s.entry? i := by
  unfold put
  split
  case h_1 old ho => exact entry?_overwrite_of_ne (entry?_id ho ▸ h)
  case h_2 hn => exact (entry?_create t hn).trans (if_neg h)

theorem get?_put (t : Int) : (s.put id r t).get? i = if i = id then some r else s.get? i := by
  unfold put
  split
  case h_1 old h =>
    rw [get?_overwrite, entry?_id h]
    simp [entry?_id h, h]
  case h_2 h => exact get?_create t h

theorem entry?_drop (e : Entry) :
    entry? (s.drop e) i = if i = e.id then none else s.entry? i := by
  unfold entry? drop
  rw [List.find?_filter]
  split
  case isTrue hi => simp [hi]
  case isFalse hi =>
    congr 1
    funext e'
    by_cases he : e'.id = i <;> simp [he, hi]

theorem entry?_remove (t : Int) :
    entry? (s.remove id t) i = if i = id then none else s.entry? i := by
  unfold remove
  split
  case h_1 e he => exact entry?_id he ▸ entry?_drop e
  case h_2 he =>
    split
    case isTrue hi => exact hi ▸ he
    case isFalse => rfl

theorem entry?_remove_of_ne {t : Int} (h : i ≠ id) : entry? (s.remove id t) i = s.entry? i :=
  (entry?_remove t).trans (if_neg h)

theorem get?_drop (e : Entry) : (s.drop e).get? i = if i = e.id then none else s.get? i := by
  unfold get?
  rw [entry?_drop]
  split <;> rfl

theorem entries_foldl_drop (es : List Entry) :
    (es.foldl drop s).entries = s.entries.filter fun e => e.id ∉ es.map (·.id) := by
  induction es generalizing s
  case nil => exact (List.filter_eq_self.mpr fun _ _ => by simp).symm
  case cons e es hi =>
    rw [List.foldl_cons, hi, drop, List.filter_filter]
    refine List.filter_congr fun e' _ => ?_
    by_cases he : e'.id = e.id <;> simp [he]

theorem entry?_foldl_drop (es : List Entry) :
    entry? (es.foldl drop s) i = if i ∈ es.map (·.id) then none else s.entry? i := by
  induction es generalizing s
  case nil => simp
  case cons e es hi =>
    rw [List.foldl_cons, hi, entry?_drop, List.map_cons]
    by_cases he : i = e.id <;> simp [he]

theorem keyed_foldl_release (id : String) (keys : List (String × String)) {rows : Index}
    (h : rows.Keyed) :
    (keys.foldl (fun rows (field, value) => rows.release field value id) rows).Keyed := by
  induction keys generalizing rows
  case nil => exact h
  case cons key keys hi => exact hi h.release

theorem mem_owners_foldl_release (keys : List (String × String)) {rows : Index} (h : rows.Keyed) :
    i ∈ (keys.foldl (fun rows (field, value) => rows.release field value id) rows).owners
        field value ↔
      i ∈ rows.owners field value ∧ ¬(i = id ∧ (field, value) ∈ keys) := by
  induction keys generalizing rows
  case nil => simp
  case cons key keys hi =>
    rw [List.foldl_cons, hi h.release, Index.mem_owners_release h, List.mem_cons, and_assoc,
      ← not_or, ← and_or_left, eq_comm (a := key)]

theorem keyed_foldl_claim (id : String) (keys : List (String × String)) {rows : Index}
    (h : rows.Keyed) :
    (keys.foldl (fun rows (field, value) => Index.claim field value id rows) rows).Keyed := by
  induction keys generalizing rows
  case nil => exact h
  case cons key keys hi => exact hi h.claim

theorem mem_owners_foldl_claim (keys : List (String × String)) {rows : Index} (h : rows.Keyed) :
    i ∈ (keys.foldl (fun rows (field, value) => Index.claim field value id rows) rows).owners
        field value ↔
      i ∈ rows.owners field value ∨ (i = id ∧ (field, value) ∈ keys) := by
  induction keys generalizing rows
  case nil => simp
  case cons key keys hi =>
    rw [List.foldl_cons, hi h.claim, Index.mem_owners_claim h, List.mem_cons, or_assoc,
      ← and_or_left, eq_comm (a := key)]

theorem mirrors_empty (type : Descriptor) (fields : List String) : (empty type fields).Mirrors where
  folded := by simp [empty]
  nodup := by simp [empty]
  keyed := by simp [empty, Index.Keyed]
  owners := by simp [empty, Index.owners, get?, entry?]

-- An overwritten entry keeps its id and its place.
theorem map_entries_overwrite {α : Type} {f : Entry → α} {old : Entry} {t : Int}
    (hn : (s.entries.map (·.id)).Nodup) (ho : s.entry? old.id = some old)
    (hf : ∀ v, f { old with resource := r, timestamp := t, version := v } = f old) :
    (s.overwrite old r t).entries.map f = s.entries.map f := by
  unfold overwrite
  rw [List.map_map]
  refine List.map_congr_left fun e he => ?_
  simp only [Function.comp_apply]
  split
  case isTrue hi =>
    have he := entry?_of_mem hn he
    rw [beq_iff_eq.mp hi, ho] at he
    rw [hf, Option.some.inj he]
  case isFalse => rfl

theorem Mirrors.overwrite {old : Entry} (h : s.Mirrors) (ho : s.entry? old.id = some old)
    (r : Resource) (t : Int) : (s.overwrite old r t).Mirrors where
  folded := h.folded
  nodup := by
    have hids := map_entries_overwrite (f := (·.id)) (r := r) (t := t) h.nodup ho fun _ => rfl
    exact hids ▸ h.nodup
  keyed := keyed_foldl_claim _ _ (keyed_foldl_release _ _ h.keyed)
  owners field value id := by
    have hk := keyed_foldl_release old.id (indexed s.fields old.resource) h.keyed
    have hg : s.get? old.id = some old.resource := by simp [get?, ho]
    rw [get?_overwrite old t (by simp [ho])]
    refine (mem_owners_foldl_claim _ hk).trans ?_
    rw [mem_owners_foldl_release _ h.keyed, h.owners]
    by_cases hi : id = old.id
    case pos => simp [hi, hg, Store.overwrite]
    case neg => simp [hi, Store.overwrite]

theorem Mirrors.create (h : s.Mirrors) (hn : s.entry? id = none) (r : Resource) (t : Int) :
    (s.create id r t).Mirrors where
  folded := h.folded
  nodup := by
    have hm : id ∉ s.entries.map (·.id) := mt entry?_isSome_iff.mpr (by simp [hn])
    simpa [Store.create, List.nodup_append, h.nodup] using hm
  keyed := keyed_foldl_claim _ _ h.keyed
  owners field value i := by
    rw [get?_create t hn]
    refine (mem_owners_foldl_claim _ h.keyed).trans ?_
    rw [h.owners]
    by_cases hi : i = id
    case pos => simp [hi, get?, hn, Store.create]
    case neg => simp [hi, Store.create]

theorem Mirrors.put (h : s.Mirrors) (id : String) (r : Resource) (t : Int) :
    (s.put id r t).Mirrors := by
  unfold Store.put
  split
  case h_1 old ho => exact h.overwrite (by rw [entry?_id ho, ho]) r t
  case h_2 hn => exact h.create hn r t

theorem Mirrors.drop {e : Entry} (h : s.Mirrors) (he : s.entry? e.id = some e) :
    (s.drop e).Mirrors where
  folded := h.folded
  nodup := h.nodup.sublist (List.filter_sublist.map _)
  keyed := keyed_foldl_release _ _ h.keyed
  owners field value id := by
    have hg : s.get? e.id = some e.resource := by simp [get?, he]
    rw [get?_drop]
    refine (mem_owners_foldl_release _ h.keyed).trans ?_
    rw [h.owners]
    by_cases hi : id = e.id
    case pos => simp [hi, hg]
    case neg => simp [hi, Store.drop]

theorem Mirrors.touch (h : s.Mirrors) (t : Int) : { s with lastUpdated := t }.Mirrors where
  folded := h.folded
  nodup := h.nodup
  keyed := h.keyed
  owners := h.owners

theorem get?_remove (t : Int) : (s.remove id t).get? i = if i = id then none else s.get? i := by
  unfold get?
  rw [entry?_remove]
  split <;> rfl

theorem Mirrors.remove (h : s.Mirrors) (id : String) (t : Int) : (s.remove id t).Mirrors := by
  unfold Store.remove
  split
  case h_1 e he => exact (h.drop (entry?_id he ▸ he)).touch _
  case h_2 => exact h

theorem mem_olderThan_iff {e : Entry} {cutoff : Int} :
    e ∈ s.olderThan cutoff ↔ e ∈ s.entries ∧ e.timestamp < cutoff := by
  simp [olderThan]

theorem mem_ids_olderThan_iff {e : Entry} {cutoff : Int} (h : (s.entries.map (·.id)).Nodup)
    (he : e ∈ s.entries) : e.id ∈ (s.olderThan cutoff).map (·.id) ↔ e.timestamp < cutoff := by
  constructor
  · intro hm
    obtain ⟨e', ho, hi⟩ := List.mem_map.mp hm
    have ⟨hs, ht⟩ := mem_olderThan_iff.mp ho
    have he' := entry?_of_mem h hs
    rw [hi, entry?_of_mem h he, Option.some.injEq] at he'
    exact he' ▸ ht
  · exact fun ht => List.mem_map.mpr ⟨e, mem_olderThan_iff.mpr ⟨he, ht⟩, rfl⟩

theorem entries_evict (h : (s.entries.map (·.id)).Nodup) (cutoff : Int) :
    (s.evict cutoff).entries = s.entries.filter fun e => cutoff ≤ e.timestamp := by
  rw [evict, entries_foldl_drop]
  refine List.filter_congr fun e he => ?_
  simp only [mem_ids_olderThan_iff h he, Int.not_lt]

theorem entry?_evict (h : (s.entries.map (·.id)).Nodup) (cutoff : Int) :
    entry? (s.evict cutoff) i = (s.entry? i).filter fun e => cutoff ≤ e.timestamp := by
  unfold evict
  rw [entry?_foldl_drop]
  cases he : s.entry? i
  case none => simp
  case some e =>
    have hm : i ∈ (s.olderThan cutoff).map (·.id) ↔ e.timestamp < cutoff :=
      entry?_id he ▸ mem_ids_olderThan_iff h (mem_entries he)
    simp only [hm, Option.filter, decide_eq_true_eq, ← Int.not_lt]
    split <;> simp_all

theorem Mirrors.foldl_drop (h : s.Mirrors) (es : List Entry) (hn : (es.map (·.id)).Nodup)
    (hm : ∀ e ∈ es, s.entry? e.id = some e) : (es.foldl Store.drop s).Mirrors := by
  induction es generalizing s
  case nil => exact h
  case cons e es hi =>
    simp only [List.map_cons, List.nodup_cons, List.mem_map, not_exists, not_and] at hn
    refine hi (h.drop (hm e (.head _))) hn.2 fun e' he' => ?_
    rw [entry?_drop, if_neg (hn.1 e' he'), hm e' (.tail _ he')]

theorem Mirrors.evict (h : s.Mirrors) (cutoff : Int) : (s.evict cutoff).Mirrors :=
  h.foldl_drop _ (h.nodup.sublist (List.filter_sublist.map _)) fun _ he =>
    entry?_of_mem h.nodup (mem_olderThan_iff.mp he).1

section Frame

variable (s) (e : Entry) (r : Resource) (id : String) (t : Int)

@[simp]
theorem type_put : (s.put id r t).type = s.type := by
  unfold put
  split <;> rfl

@[simp]
theorem fields_put : (s.put id r t).fields = s.fields := by
  unfold put
  split <;> rfl

@[simp]
theorem type_remove : (s.remove id t).type = s.type := by
  unfold remove
  split <;> rfl

@[simp]
theorem fields_remove : (s.remove id t).fields = s.fields := by
  unfold remove
  split <;> rfl

@[simp]
theorem type_evict : (s.evict t).type = s.type := by
  unfold evict
  induction s.olderThan t generalizing s <;> simp_all [drop]

@[simp]
theorem fields_evict : (s.evict t).fields = s.fields := by
  unfold evict
  induction s.olderThan t generalizing s <;> simp_all [drop]

end Frame

end Store
end LinkedCache
