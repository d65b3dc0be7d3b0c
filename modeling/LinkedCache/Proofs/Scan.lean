import Mathlib.Data.List.Dedup
import LinkedCache.Proofs.Store

-- The index of a store against a look through its whole table: a row lists the ids that carry its
-- value in the order in which they were last written, whatever was written, removed or evicted.

namespace LinkedCache

open Text (lower sameFolded)

theorem IndexRow.owners_claim (row : IndexRow) (id : String) :
    (row.claim id).owners = if id ∈ row.owners then row.owners else row.owners ++ [id] := by
  unfold claim
  simp only [List.contains_iff_mem]
  split <;> rfl

theorem IndexRow.release?_eq (row : IndexRow) (id : String) :
    row.release? id = if row.owners.filter (· != id) = [] then none
      else some { row with owners := row.owners.filter (· != id) } := by
  unfold release?
  split
  case h_1 h => rw [if_pos h]
  case h_2 h => rw [if_neg h]

namespace Index

variable {rows : Index} {field value f v id : String}

theorem owners_cons (row : IndexRow) (rows : Index) :
    owners (row :: rows) f v = if row.key = (f, v) then row.owners else rows.owners f v := by
  unfold owners
  rw [List.find?_cons]
  by_cases hf : row.isFor f v
  case pos => simp only [hf, IndexRow.isFor_iff.mp hf, if_true]
  case neg => simp only [hf, mt IndexRow.isFor_iff.mpr hf, if_false]

theorem owners_eq_nil (h : (f, v) ∉ rows.map IndexRow.key) : rows.owners f v = [] := by
  induction rows
  case nil => rfl
  case cons row rest hi =>
    rw [List.map_cons, List.mem_cons, not_or] at h
    rw [owners_cons, if_neg (Ne.symm h.1), hi h.2]

theorem Keyed.owners_of_mem {row : IndexRow} (h : Keyed rows) (hr : row ∈ rows) :
    rows.owners row.field row.value = row.owners := by
  induction rows
  case nil => simp at hr
  case cons row' rest hi =>
    have ⟨hn, hk⟩ := List.nodup_cons.mp h
    rw [owners_cons]
    obtain rfl | hr := List.mem_cons.mp hr
    case inl => exact if_pos rfl
    case inr =>
      have hk' : row'.key ≠ (row.field, row.value) := fun he =>
        hn (List.mem_map.mpr ⟨row, hr, he.symm⟩)
      rw [if_neg hk', hi hk hr]

theorem owners_claim (field value id : String) (rows : Index) :
    (claim field value id rows).owners f v =
      if (field, value) = (f, v) ∧ id ∉ rows.owners f v then rows.owners f v ++ [id]
      else rows.owners f v := by
  induction rows
  case nil =>
    rw [claim, owners_cons]
    by_cases hk : (field, value) = (f, v) <;> simp_all [owners, IndexRow.key]
  case cons row rest hi =>
    unfold claim
    simp only [IndexRow.isFor_iff]
    by_cases hr : row.key = (field, value)
    case pos =>
      rw [if_pos hr, owners_cons, owners_cons, IndexRow.key_claim, IndexRow.owners_claim, hr]
      by_cases hk : (field, value) = (f, v)
      case neg => simp only [hk, false_and, if_false]
      case pos => simp only [hk, if_true, true_and, ite_not]
    case neg =>
      rw [if_neg hr, owners_cons, owners_cons, hi]
      by_cases hk : row.key = (f, v)
      case neg => simp only [hk, if_false]
      case pos => simp only [hk, Ne.symm (hk ▸ hr), false_and, if_true, if_false]

-- Without its last owner a row is gone, and there is no second one for its key.
theorem owners_release (h : Keyed rows) :
    (rows.release field value id).owners f v =
      if (field, value) = (f, v) then (rows.owners f v).filter (· != id)
      else rows.owners f v := by
  induction rows
  case nil => simp [release, owners]
  case cons row rest hi =>
    obtain ⟨hn, hr⟩ := List.nodup_cons.mp h
    have hi := hi hr
    unfold release at hi ⊢
    simp only [IndexRow.isFor_iff, IndexRow.release?_eq] at hi ⊢
    rw [List.filterMap_cons, owners_cons]
    by_cases hr : row.key = (field, value)
    case neg =>
      rw [if_neg hr]
      dsimp only
      rw [owners_cons, hi]
      by_cases hk : row.key = (f, v)
      case neg => simp only [hk, if_false]
      case pos => simp only [hk, Ne.symm (hk ▸ hr), if_true, if_false]
    case pos =>
      rw [if_pos hr]
      have hrest : owners rest field value = [] := owners_eq_nil (hr ▸ hn)
      by_cases ho : row.owners.filter (· != id) = []
      case pos =>
        rw [if_pos ho]
        dsimp only
        rw [hi]
        by_cases hk : (field, value) = (f, v)
        case neg => simp only [hr, hk, if_false]
        case pos =>
          obtain ⟨rfl, rfl⟩ := Prod.mk.inj hk
          simp only [hr, if_true, hrest, ho, List.filter_nil]
      case neg =>
        rw [if_neg ho]
        dsimp only
        have hr' : IndexRow.key { row with owners := row.owners.filter (· != id) } =
          (field, value) := hr
        rw [owners_cons, hi, hr, hr']
        split <;> rfl

end Index

-- Whether a resource has a value under a field. Neither has case.
def Resource.carries (r : Resource) (field value : String) : Bool :=
  (r.fieldValue? field).any (sameFolded value)

namespace Store

variable {s s' : Store} {ids : List String} {id i field value : String} {r : Resource}
  {keys : List (String × String)} {rows : Index}

theorem owners_foldl_claim :
    (keys.foldl (fun rows (field, value) => Index.claim field value id rows) rows).owners
        field value =
      if (field, value) ∈ keys ∧ id ∉ rows.owners field value then rows.owners field value ++ [id]
      else rows.owners field value := by
  induction keys generalizing rows
  case nil => simp
  case cons key keys hi =>
    rw [List.foldl_cons, hi, Index.owners_claim]
    simp only [List.mem_cons]
    by_cases hk : key = (field, value)
    case neg => simp only [hk, Ne.symm hk, false_and, false_or, if_false]
    case pos =>
      simp only [hk, true_and, true_or]
      by_cases hm : id ∈ rows.owners field value <;> simp [hm]

theorem owners_foldl_release (h : rows.Keyed) :
    (keys.foldl (fun rows (field, value) => rows.release field value id) rows).owners field value =
      if (field, value) ∈ keys then (rows.owners field value).filter (· != id)
      else rows.owners field value := by
  induction keys generalizing rows
  case nil => simp
  case cons key keys hi =>
    rw [List.foldl_cons, hi h.release, Index.owners_release h]
    simp only [List.mem_cons]
    by_cases hk : key = (field, value)
    case neg => simp only [hk, Ne.symm hk, false_or, if_false]
    case pos =>
      simp only [hk, true_or, if_true, List.filter_filter, Bool.and_self]
      split <;> rfl

-- The ids whose resources have a value under a field, in the order in which they are given.
def owning (s : Store) (ids : List String) (field value : String) : List String :=
  ids.filter fun id => (s.get? id).any fun r => decide ((field, value) ∈ indexed s.fields r)

-- A store whose ids were last written in a certain order, which is the order of its index.
structure Ordered (s : Store) (ids : List String) : Prop where
  mirrors : s.Mirrors
  nodup : ids.Nodup
  listed : ∀ id r, s.get? id = some r → id ∈ ids
  owners : ∀ field value, s.index.owners field value = s.owning ids field value

-- Moves an id behind the others.
def behind (ids : List String) (id : String) : List String :=
  ids.filter (· != id) ++ [id]

theorem mem_behind : i ∈ behind ids id ↔ i ∈ ids ∨ i = id := by
  by_cases hi : i = id <;> simp [behind, hi]

theorem behind_dedup (ids : List String) (id : String) :
    behind ids.dedup id = (ids ++ [id]).dedup := by
  induction ids
  case nil => rfl
  case cons i ids hi =>
    rw [List.cons_append, List.dedup_cons, List.dedup_cons, ← hi]
    simp only [List.mem_append, List.mem_singleton]
    by_cases hm : i ∈ ids
    case pos => simp only [hm, true_or, if_true]
    case neg =>
      simp only [hm, false_or, if_false]
      by_cases he : i = id <;> simp [he, behind]

theorem nodup_behind (h : ids.Nodup) : (behind ids id).Nodup := by
  refine List.nodup_append.mpr ⟨h.filter _, by simp, ?_⟩
  simp_all

-- A write of one id releases what the id had before and claims what it has now.
theorem owning_of_write (hg : ∀ i, s'.get? i = if i = id then some r else s.get? i)
    (hf : s'.fields = s.fields) (field value : String) :
    s'.owning (behind ids id) field value =
      (s.owning ids field value).filter (· != id) ++
        if (field, value) ∈ indexed s.fields r then [id] else [] := by
  unfold owning behind
  rw [List.filter_append, List.filter_filter, List.filter_filter, hf]
  congr 1
  · refine List.filter_congr fun i _ => ?_
    by_cases hi : i = id <;> simp [hg, hi, Bool.and_comm]
  · simp [hg, List.filter_cons]

theorem owning_of_drop (hg : ∀ i, s'.get? i = if i = id then none else s.get? i)
    (hf : s'.fields = s.fields) (field value : String) :
    s'.owning ids field value = (s.owning ids field value).filter (· != id) := by
  unfold owning
  rw [List.filter_filter, hf]
  refine List.filter_congr fun i _ => ?_
  by_cases hi : i = id <;> simp [hg, hi]

theorem Ordered.owners_released {old : Entry} (h : s.Ordered ids)
    (ho : s.entry? old.id = some old) :
    (s.released old.id old.resource).owners field value =
      (s.owning ids field value).filter (· != old.id) := by
  unfold released
  rw [owners_foldl_release h.mirrors.keyed, h.owners]
  split
  case isTrue => rfl
  case isFalse hn =>
    refine (List.filter_eq_self.mpr fun i hi => ?_).symm
    rw [bne_iff_ne]
    rintro rfl
    simp [owning, get?, ho, hn] at hi

theorem Ordered.overwrite {old : Entry} (h : s.Ordered ids) (ho : s.entry? old.id = some old)
    (r : Resource) (t : Int) : (s.overwrite old r t).Ordered (behind ids old.id) where
  mirrors := h.mirrors.overwrite ho r t
  nodup := nodup_behind h.nodup
  listed i r' hi := by
    rw [get?_overwrite old t (by simp [ho])] at hi
    rw [mem_behind]
    split at hi
    case isTrue he => exact .inr he
    case isFalse => exact .inl (h.listed i r' hi)
  owners field value := by
    rw [owning_of_write (fun _ => get?_overwrite old t (by simp [ho])) rfl]
    refine owners_foldl_claim.trans ?_
    rw [h.owners_released ho]
    split <;> simp_all

theorem Ordered.create (h : s.Ordered ids) (hn : s.entry? id = none) (r : Resource) (t : Int) :
    (s.create id r t).Ordered (behind ids id) where
  mirrors := h.mirrors.create hn r t
  nodup := nodup_behind h.nodup
  listed i r' hi := by
    rw [get?_create t hn] at hi
    rw [mem_behind]
    split at hi
    case isTrue he => exact .inr he
    case isFalse => exact .inl (h.listed i r' hi)
  owners field value := by
    rw [owning_of_write (fun _ => get?_create t hn) rfl]
    refine owners_foldl_claim.trans ?_
    have hi : id ∉ s.owning ids field value := by simp [owning, get?, hn]
    have hf : (s.owning ids field value).filter (· != id) = s.owning ids field value :=
      List.filter_eq_self.mpr fun i hi' => bne_iff_ne.mpr (ne_of_mem_of_not_mem hi' hi)
    rw [h.owners, hf]
    split <;> simp_all

theorem Ordered.put (h : s.Ordered ids) (id : String) (r : Resource) (t : Int) :
    (s.put id r t).Ordered (behind ids id) := by
  unfold Store.put
  split
  case h_1 old ho => exact entry?_id ho ▸ h.overwrite (entry?_id ho ▸ ho) r t
  case h_2 hn => exact h.create hn r t

theorem Ordered.drop {e : Entry} (h : s.Ordered ids) (he : s.entry? e.id = some e) :
    (s.drop e).Ordered ids where
  mirrors := h.mirrors.drop he
  nodup := h.nodup
  listed i r hi := by
    rw [get?_drop] at hi
    split at hi
    case isTrue => simp at hi
    case isFalse => exact h.listed i r hi
  owners field value := by
    rw [owning_of_drop (fun _ => get?_drop e) rfl]
    exact h.owners_released he

theorem Ordered.remove (h : s.Ordered ids) (id : String) (t : Int) :
    (s.remove id t).Ordered ids := by
  unfold Store.remove
  split
  case h_1 e he =>
    have hd := h.drop (entry?_id he ▸ he)
    exact ⟨hd.mirrors.touch _, hd.nodup, hd.listed, hd.owners⟩
  case h_2 => exact h

theorem Ordered.foldl_drop (h : s.Ordered ids) (es : List Entry) (hn : (es.map (·.id)).Nodup)
    (hm : ∀ e ∈ es, s.entry? e.id = some e) : (es.foldl Store.drop s).Ordered ids := by
  induction es generalizing s
  case nil => exact h
  case cons e es hi =>
    simp only [List.map_cons, List.nodup_cons, List.mem_map, not_exists, not_and] at hn
    refine hi (h.drop (hm e (.head _))) hn.2 fun e' he' => ?_
    rw [entry?_drop, if_neg (hn.1 e' he'), hm e' (.tail _ he')]

theorem Ordered.evict (h : s.Ordered ids) (cutoff : Int) : (s.evict cutoff).Ordered ids :=
  h.foldl_drop _ (h.mirrors.nodup.sublist (List.filter_sublist.map _)) fun _ he =>
    entry?_of_mem h.mirrors.nodup (mem_olderThan_iff.mp he).1

theorem ordered_empty (type : Descriptor) (fields : List String) :
    (empty type fields).Ordered ([] : List String).dedup where
  mirrors := mirrors_empty type fields
  nodup := .nil
  listed id r h := by simp [get?, entry?, empty] at h
  owners _ _ := rfl

-- Entries that were read from a store at some time, its present ones among them. No two of them
-- are of one version, so that a version tells whether an entry is the present one.
structure Dated (s : Store) (read : List Entry) : Prop where
  present : ∀ e ∈ s.entries, e ∈ read
  older : ∀ e ∈ read, e.version < s.nextVersion
  unique : ∀ e ∈ read, ∀ e' ∈ s.entries, e.version = e'.version → e = e'

variable {read : List Entry}

theorem Dated.of_kept (h : s.Dated read) (hv : s'.nextVersion = s.nextVersion)
    (he : ∀ e ∈ s'.entries, e ∈ s.entries) : s'.Dated (read ++ s'.entries) where
  present e hm := List.mem_append_right _ hm
  older e hm := by
    rw [hv]
    exact (List.mem_append.mp hm).elim (h.older e) fun hm => h.older e (h.present e (he e hm))
  unique e hm e' hm' hv := by
    obtain hm | hm := List.mem_append.mp hm
    · exact h.unique e hm e' (he e' hm') hv
    · exact h.unique e (h.present e (he e hm)) e' (he e' hm') hv

theorem Dated.of_written (h : s.Dated read) (new : Entry) (hn : new.version = s.nextVersion)
    (hv : s'.nextVersion = s.nextVersion + 1) (he : ∀ e ∈ s'.entries, e ∈ s.entries ∨ e = new) :
    s'.Dated (read ++ s'.entries) := by
  have hr : ∀ e ∈ read ++ s'.entries, e ∈ read ∨ e = new := by
    intro e hm
    obtain hm | hm := List.mem_append.mp hm
    · exact .inl hm
    · exact (he e hm).imp_left (h.present e)
  refine ⟨fun e hm => List.mem_append_right _ hm, fun e hm => ?_, fun e hm e' hm' hvv => ?_⟩
  case refine_1 =>
    rw [hv]
    obtain hm | rfl := hr e hm
    · exact (h.older e hm).trans (Nat.lt_succ_self _)
    · exact hn ▸ Nat.lt_succ_self _
  case refine_2 =>
    obtain hm | rfl := hr e hm <;> obtain hm' | rfl := he e' hm'
    · exact h.unique e hm e' hm' hvv
    · exact absurd (hvv.trans hn) (h.older e hm).ne
    · exact absurd (hvv.symm.trans hn) (h.older e' (h.present e' hm')).ne
    · rfl

theorem dated_empty (type : Descriptor) (fields : List String) :
    (empty type fields).Dated [] where
  present := by simp [empty]
  older := by simp
  unique := by simp

-- What can be done to a store from outside. An entry that was read is the handle of a conditional
-- write.
inductive Action
  | put (id : String) (r : Resource) (timestamp : Int)
  | putIfCurrent (id : String) (seen : Entry) (r : Resource) (timestamp : Int)
  | remove (id : String) (timestamp : Int)
  | evict (cutoff : Int)

def perform (s : Store) : Action → Store
  | .put id r t => s.put id r t
  | .putIfCurrent id seen r t => s.putIfCurrent id seen r t
  | .remove id t => s.remove id t
  | .evict cutoff => s.evict cutoff

def performAll (s : Store) (actions : List Action) : Store :=
  actions.foldl perform s

-- The id that an action writes, if the write succeeds.
def written? (s : Store) : Action → Option String
  | .put id _ _ => some id
  | .putIfCurrent id seen _ _ => if s.isCurrent id seen then some id else none
  | .remove .. | .evict .. => none

-- The ids of the successful writes, each as often as it was written.
def writes (s : Store) : List Action → List String
  | [] => []
  | a :: actions => (s.written? a).toList ++ writes (s.perform a) actions

-- Whether the handles of all conditional writes were read from the store before, or are in `read`.
def ReadsHandles (s : Store) (read : List Entry) : List Action → Prop
  | [] => True
  | a :: actions =>
    (match a with
      | .putIfCurrent _ seen _ _ => seen ∈ read
      | _ => True) ∧
    ReadsHandles (s.perform a) (read ++ (s.perform a).entries) actions

-- A handle is as good as the entry that it was read from.
theorem Dated.putIfCurrent_eq {seen : Entry} (h : s.Dated read) (hs : seen ∈ read) (id : String)
    (r : Resource) (t : Int) :
    s.putIfCurrent id seen r t = if s.isCurrent id seen then s.put id r t else s := by
  unfold putIfCurrent
  split
  case isFalse => rfl
  case isTrue hc =>
    unfold isCurrent at hc
    split at hc
    case h_2 => simp at hc
    case h_1 e he =>
      have ⟨_, hv⟩ : e.seq = seen.seq ∧ e.version = seen.version := by simpa using hc
      obtain rfl := h.unique seen hs e (mem_entries he) hv.symm
      rw [Store.put, he]

theorem Dated.put (h : s.Dated read) (id : String) (r : Resource) (t : Int) :
    (s.put id r t).Dated (read ++ (s.put id r t).entries) := by
  unfold Store.put
  split
  case h_1 old _ =>
    refine h.of_written { old with resource := r, timestamp := t, version := s.nextVersion } rfl
      rfl fun e he => ?_
    obtain ⟨e', he', rfl⟩ := List.mem_map.mp he
    split
    case isTrue => exact .inr rfl
    case isFalse => exact .inl he'
  case h_2 =>
    refine h.of_written ⟨id, r, t, s.nextSeq, s.nextVersion⟩ rfl rfl fun e he => ?_
    exact (List.mem_append.mp he).imp_right List.mem_singleton.mp

theorem nextVersion_foldl_drop (es : List Entry) :
    (es.foldl drop s).nextVersion = s.nextVersion := by
  induction es generalizing s
  case nil => rfl
  case cons e es hi => exact hi

theorem Dated.perform {a : Action} {actions : List Action} (h : s.Dated read)
    (ha : s.ReadsHandles read (a :: actions)) :
    (s.perform a).Dated (read ++ (s.perform a).entries) := by
  cases a
  case put id r t => exact h.put id r t
  case putIfCurrent id seen r t =>
    rw [Store.perform, h.putIfCurrent_eq ha.1]
    split
    case isTrue => exact h.put id r t
    case isFalse => exact h.of_kept rfl fun _ he => he
  case remove id t =>
    unfold Store.perform Store.remove
    dsimp only
    split
    case h_1 => exact h.of_kept rfl fun _ he => (List.mem_filter.mp he).1
    case h_2 => exact h.of_kept rfl fun _ he => he
  case evict cutoff =>
    refine h.of_kept (nextVersion_foldl_drop _) fun _ he => ?_
    exact (List.mem_filter.mp (entries_foldl_drop _ ▸ he)).1

theorem Ordered.perform {a : Action} {actions : List Action} {log : List String}
    (h : s.Ordered log.dedup) (hd : s.Dated read) (ha : s.ReadsHandles read (a :: actions)) :
    (s.perform a).Ordered (log ++ (s.written? a).toList).dedup := by
  cases a
  case put id r t => exact behind_dedup log id ▸ h.put id r t
  case putIfCurrent id seen r t =>
    rw [Store.perform, hd.putIfCurrent_eq ha.1, written?]
    split
    case isTrue => exact behind_dedup log id ▸ h.put id r t
    case isFalse => exact (List.append_nil log).symm ▸ h
  case remove id t => exact (List.append_nil log).symm ▸ h.remove id t
  case evict cutoff => exact (List.append_nil log).symm ▸ h.evict cutoff

theorem Ordered.performAll {actions : List Action} {log : List String} (h : s.Ordered log.dedup)
    (hd : s.Dated read) (ha : s.ReadsHandles read actions) :
    (s.performAll actions).Ordered (log ++ s.writes actions).dedup := by
  induction actions generalizing s log read
  case nil => exact (List.append_nil log).symm ▸ h
  case cons a actions hi =>
    have h := hi (h.perform hd ha) (hd.perform ha) ha.2
    rwa [List.append_assoc] at h

@[simp]
theorem fields_performAll (actions : List Action) : (s.performAll actions).fields = s.fields := by
  induction actions generalizing s
  case nil => rfl
  case cons a actions hi =>
    refine hi.trans ?_
    cases a
    case putIfCurrent =>
      simp only [perform, putIfCurrent]
      split <;> rfl
    all_goals simp [perform]

-- The answer without an index: of the present entries that have a value under a declared field, the
-- one whose last write is the oldest.
def scan (s : Store) (declared ids : List String) (field value : String) : Option String :=
  if declared.any (sameFolded field) then
    ids.find? fun id => (s.get? id).any (·.carries field value)
  else none

theorem carries_iff : r.carries field value ↔
    ∃ v, r.fieldValue? (lower field) = some v ∧ lower v = lower value := by
  rw [r.fieldValue?_lower, Resource.carries, Option.any_eq_true]
  refine exists_congr fun v => and_congr_right fun _ => ?_
  rw [Text.sameFolded_iff, eq_comm]

theorem any_sameFolded_iff {declared : List String} (hf : s.fields = declared.map lower) :
    declared.any (sameFolded field) ↔ lower field ∈ s.fields := by
  rw [hf, List.any_eq_true, List.mem_map]
  refine exists_congr fun f => and_congr_right fun _ => ?_
  rw [Text.sameFolded_iff, eq_comm]

theorem Ordered.owner?_eq {declared : List String} (h : s.Ordered ids)
    (hf : s.fields = declared.map lower) (field value : String) :
    s.owner? field value = s.scan declared ids field value := by
  unfold owner? scan
  rw [h.owners, owning, List.head?_filter]
  split
  case isTrue hd =>
    have hm := (any_sameFolded_iff hf).mp hd
    congr 1
    funext i
    congr 1
    funext r
    rw [Bool.eq_iff_iff, decide_eq_true_eq, Resource.mem_indexed_iff, carries_iff]
    exact and_iff_right hm
  case isFalse hd =>
    have hn := mt (any_sameFolded_iff hf).mpr hd
    refine List.find?_eq_none.mpr fun i _ => ?_
    simp [Resource.mem_indexed_iff, hn]

theorem Ordered.resolve?_eq {declared : List String} (h : s.Ordered ids)
    (hf : s.fields = declared.map lower) (hn : '/' ∉ field.toList) (value : String) :
    s.resolve? (field ++ "/" ++ value) = s.scan declared ids field value := by
  rw [resolve?, Text.cut?_append "/" value hn rfl]
  exact h.owner?_eq hf field value

theorem resolve?_of_unbroken {identity : String} (hn : '/' ∉ identity.toList) :
    s.resolve? identity = none := by
  rw [resolve?]
  cases hc : Text.cut? '/' identity
  case none => rfl
  case some fv =>
    simp [(Text.eq_of_cut? (f := fv.1) (v := fv.2) "/" hc rfl).1] at hn

-- A row that the index has for a field and a value is the one that a look-up finds.
theorem Ordered.owners_row {row : IndexRow} (h : s.Ordered ids) (hr : row ∈ s.index) :
    row.owners = s.owning ids row.field row.value :=
  (h.mirrors.keyed.owners_of_mem hr).symm.trans (h.owners ..)

theorem carries_of_mem_indexed (hf : ∀ field ∈ s.fields, lower field = field)
    (h : (field, value) ∈ indexed s.fields r) : r.carries field value := by
  have ⟨hm, v, hv, he⟩ := Resource.mem_indexed_iff.mp h
  exact carries_iff.mpr ⟨v, (hf field hm).symm ▸ hv, by rw [← he, Text.lower_lower]⟩

theorem Ordered.exists_of_mem_owners {row : IndexRow} (h : s.Ordered ids) (hr : row ∈ s.index)
    (hi : id ∈ row.owners) : ∃ r, s.get? id = some r ∧ r.carries row.field row.value := by
  rw [h.owners_row hr, owning, List.mem_filter, Option.any_eq_true] at hi
  obtain ⟨-, r, hg, hc⟩ := hi
  exact ⟨r, hg, carries_of_mem_indexed h.mirrors.folded (of_decide_eq_true hc)⟩

-- The ids in the order of their last writes are the log without all but the last of each.
theorem lookups_performAll (type : Descriptor) (declared : List String) (actions : List Action)
    (h : (empty type declared).ReadsHandles [] actions) :
    let s := (empty type declared).performAll actions
    let ids := ((empty type declared).writes actions).dedup
    (∀ id, (s.get? id).isSome → id ∈ ids) ∧
    (∀ field value, s.getByField? field value = (s.scan declared ids field value).bind s.get?) ∧
    (∀ field value, '/' ∉ field.toList →
      s.resolve? (field ++ "/" ++ value) = s.scan declared ids field value) ∧
    (∀ identity, '/' ∉ identity.toList → s.resolve? identity = none) ∧
    ∀ row ∈ s.index, row.owners.Nodup ∧
      ∀ id ∈ row.owners, ∃ r, s.get? id = some r ∧ r.carries row.field row.value := by
  intro s ids
  have ho : s.Ordered ids := (ordered_empty type declared).performAll (dated_empty type declared) h
  have hf : s.fields = declared.map lower := fields_performAll actions
  refine ⟨fun id hi => ?_, fun field value => ?_, fun field value hn => ho.resolve?_eq hf hn value,
    fun _ => resolve?_of_unbroken, fun row hr => ⟨?_, fun _ => ho.exists_of_mem_owners hr⟩⟩
  · have ⟨r, hg⟩ := Option.isSome_iff_exists.mp hi
    exact ho.listed id r hg
  · rw [getByField?, ho.owner?_eq hf]
  · exact ho.owners_row hr ▸ ho.nodup.filter _

section Shared

def code (value : String) : Resource :=
  ⟨[], [("code", .string value)]⟩

-- Two ids share a value. The first one is written again with a handle on its entry, and then once
-- more with the same handle, which is in vain.
def shared : List Action := [
  .put "1" (code "a") 1,
  .put "2" (code "A") 2,
  .putIfCurrent "1" ⟨"1", code "a", 1, 0, 0⟩ (code "a") 3,
  .putIfCurrent "1" ⟨"1", code "a", 1, 0, 0⟩ (code "b") 4,
  .put "3" (code "a") 5,
  .remove "3" 6,
  .evict 2]

theorem resolve?_performAll_shared :
    ((empty default ["code", "CODE"]).performAll shared).resolve? ("Code" ++ "/" ++ "a") =
      some "2" := by
  have hreads : (empty default ["code", "CODE"]).ReadsHandles [] shared :=
    ⟨trivial, trivial, .head _, .head _, trivial, trivial, trivial, trivial⟩
  have ⟨_, _, hresolve, _⟩ := lookups_performAll default ["code", "CODE"] shared hreads
  rw [hresolve "Code" "a" (by decide)]
  decide +kernel

end Shared

end Store
end LinkedCache
