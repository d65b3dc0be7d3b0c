import LinkedCache.Proofs.Scan

-- The table of a store as it is read: each present id once, in the order in which the ids were
-- created, as a whole or in pages, and the watermark above all of it.

namespace LinkedCache

-- What a table says about an entry.
def Entry.row (e : Entry) : String × Int × Resource :=
  (e.id, e.timestamp, e.resource)

namespace Store

variable {α : Type} {s : Store} {id : String} {r : Resource} {t cutoff : Int} {old e e' : Entry}
  {a : Action} {created : List String} {read : List Entry}

def snapshot (s : Store) : List (String × Int × Resource) :=
  s.entries.map Entry.row

-- The id that an action brings into the table.
def created? (s : Store) (a : Action) : Option String :=
  (s.written? a).filter fun id => (s.get? id).isNone

-- The time to which an action moves the watermark, if this is not there yet.
def stamp? (s : Store) : Action → Option Int
  | .put _ _ t => some t
  | .putIfCurrent id seen _ t => if s.isCurrent id seen then some t else none
  | .remove id t => if (s.get? id).isSome then some t else none
  | .evict _ => none

-- What some actions in a row bring, each in the state in which it finds the store.
def gathered (brings? : Store → Action → Option α) (s : Store) : List Action → List α
  | [] => []
  | a :: actions => (brings? s a).toList ++ gathered brings? (s.perform a) actions

section Order

-- A table whose ids were created in a certain order. Their places go up along it.
structure Listed (s : Store) (created : List String) : Prop where
  ids : s.entries.map (·.id) = created.dedup.filter fun id => (s.get? id).isSome
  seqs : (s.entries.map (·.seq)).Pairwise (· < ·)
  nextSeq : ∀ n ∈ s.entries.map (·.seq), n < s.nextSeq

theorem Listed.nodup (h : s.Listed created) : (s.entries.map (·.id)).Nodup :=
  h.ids ▸ created.nodup_dedup.filter _

-- A place belongs to one id.
theorem Listed.seq_eq_iff (h : s.Listed created) (he : e ∈ s.entries) (he' : e' ∈ s.entries) :
    e.seq = e'.seq ↔ e.id = e'.id := by
  have hseqs : (s.entries.map (·.seq)).Nodup := h.seqs.imp Nat.ne_of_lt
  constructor
  · exact fun hs => congrArg Entry.id (List.inj_on_of_nodup_map hseqs he he' hs)
  · exact fun hi => congrArg Entry.seq (List.inj_on_of_nodup_map h.nodup he he' hi)

theorem Listed.overwrite (h : s.Listed created) (ho : s.entry? old.id = some old) (r : Resource)
    (t : Int) : (s.overwrite old r t).Listed created := by
  have hseqs := map_entries_overwrite (r := r) (t := t) (f := (·.seq)) h.nodup ho fun _ => rfl
  constructor
  case ids =>
    rw [map_entries_overwrite h.nodup ho fun _ => rfl, h.ids]
    refine List.filter_congr fun id _ => ?_
    rw [get?_overwrite old t (by simp [ho])]
    split
    case isTrue hi => simp [hi, get?, ho]
    case isFalse => rfl
  case seqs => exact hseqs ▸ h.seqs
  case nextSeq => exact hseqs ▸ h.nextSeq

theorem Listed.create (h : s.Listed created) (hn : s.entry? id = none) (r : Resource) (t : Int) :
    (s.create id r t).Listed (created ++ [id]) where
  ids := by
    have hid : s.get? id = none := by simp [get?, hn]
    rw [← behind_dedup, behind, List.filter_append, List.filter_filter]
    have hmap : (s.create id r t).entries.map (·.id) = s.entries.map (·.id) ++ [id] := by
      simp [Store.create]
    rw [hmap, h.ids]
    congr 1
    · refine List.filter_congr fun i _ => ?_
      rw [get?_create t hn]
      by_cases hi : i = id <;> simp [hi, hid]
    · simp [get?_create t hn]
  seqs := by
    have hmap : (s.create id r t).entries.map (·.seq) = s.entries.map (·.seq) ++ [s.nextSeq] := by
      simp [Store.create]
    rw [hmap, List.pairwise_append]
    exact ⟨h.seqs, List.pairwise_singleton .., by simpa using h.nextSeq⟩
  nextSeq n hm := by
    simp only [Store.create, List.map_append, List.mem_append, List.map_singleton,
      List.mem_singleton] at hm
    exact hm.elim (fun hm => (h.nextSeq n hm).trans (Nat.lt_succ_self _)) fun he =>
      he ▸ Nat.lt_succ_self _

theorem Listed.drop (h : s.Listed created) (e : Entry) : (s.drop e).Listed created := by
  have hsub : ((s.drop e).entries.map (·.seq)).Sublist (s.entries.map (·.seq)) :=
    List.filter_sublist.map _
  constructor
  case ids =>
    have hmap : (s.drop e).entries.map (·.id) = (s.entries.map (·.id)).filter (· != e.id) := by
      simp [Store.drop, List.filter_map, Function.comp_def]
    rw [hmap, h.ids, List.filter_filter]
    refine List.filter_congr fun i _ => ?_
    rw [get?_drop]
    by_cases hi : i = e.id <;> simp [hi]
  case seqs => exact h.seqs.sublist hsub
  case nextSeq => exact fun n hm => h.nextSeq n (hsub.subset hm)

theorem Listed.foldl_drop (h : s.Listed created) (es : List Entry) :
    (es.foldl Store.drop s).Listed created := by
  induction es generalizing s
  case nil => exact h
  case cons e es hi => exact hi (h.drop e)

theorem Listed.remove (h : s.Listed created) (id : String) (t : Int) :
    (s.remove id t).Listed created := by
  unfold Store.remove
  split
  case h_1 e _ =>
    have hd := h.drop e
    exact ⟨hd.ids, hd.seqs, hd.nextSeq⟩
  case h_2 => exact h

theorem Listed.put (h : s.Listed created) (id : String) (r : Resource) (t : Int) :
    (s.put id r t).Listed
      (created ++ ((some id).filter fun id => (s.get? id).isNone).toList) := by
  unfold Store.put
  split
  case h_1 old ho =>
    have hid : (s.get? id).isNone = false := by simp [get?, ho]
    rw [Option.filter_some, hid]
    rw [← entry?_id ho] at ho
    simpa using h.overwrite ho r t
  case h_2 ho =>
    have hid : (s.get? id).isNone = true := by simp [get?, ho]
    rw [Option.filter_some, hid]
    exact h.create ho r t

theorem listed_empty (type : Descriptor) (fields : List String) :
    (empty type fields).Listed [] where
  ids := rfl
  seqs := .nil
  nextSeq := by simp [empty]

theorem Listed.perform {actions : List Action} (h : s.Listed created) (hd : s.Dated read)
    (ha : s.ReadsHandles read (a :: actions)) :
    (s.perform a).Listed (created ++ (s.created? a).toList) := by
  cases a
  case put id r t => exact h.put id r t
  case putIfCurrent id seen r t =>
    rw [Store.perform, hd.putIfCurrent_eq ha.1, created?, written?]
    split
    case isTrue => exact h.put id r t
    case isFalse => exact (List.append_nil created).symm ▸ h
  case remove id t => exact (List.append_nil created).symm ▸ h.remove id t
  case evict cutoff => exact (List.append_nil created).symm ▸ h.foldl_drop _

theorem Listed.performAll {actions : List Action} (h : s.Listed created) (hd : s.Dated read)
    (ha : s.ReadsHandles read actions) :
    (s.performAll actions).Listed (created ++ s.gathered created? actions) := by
  induction actions generalizing s created read
  case nil => exact (List.append_nil created).symm ▸ h
  case cons a actions hi =>
    have hall := hi (h.perform hd ha) (hd.perform ha) ha.2
    rwa [List.append_assoc] at hall

theorem Listed.snapshot_eq (h : s.Listed created) :
    s.snapshot = created.dedup.filterMap fun id => (s.entry? id).map Entry.row := by
  have hentries : (s.entries.map (·.id)).filterMap s.entry? = s.entries := by
    rw [List.filterMap_map]
    exact (List.filterMap_congr fun e he => entry?_of_mem h.nodup he).trans List.filterMap_some
  have hpresent : (created.dedup.filter fun id => (s.get? id).isSome).filterMap s.entry? =
      created.dedup.filterMap s.entry? := by
    rw [List.filterMap_filter]
    refine List.filterMap_congr fun id _ => ?_
    cases he : s.entry? id <;> simp [get?, he]
  rw [snapshot, ← hentries, h.ids, hpresent, List.map_filterMap]

end Order

section Paging

variable (s) (since : Int) (f : Resource → Bool)

theorem list_eq (size offset : Nat) :
    s.list size offset since f =
      let rest := (s.snapshot.filter fun (_, t, r) => decide (since ≤ t) && f r).drop offset
      (if size = 0 then rest else rest.take size).map (·.2.2) := by
  unfold list snapshot
  simp only [List.filter_map, ← List.map_drop]
  split
  case isTrue => rw [List.map_map]; rfl
  case isFalse => rw [← List.map_take, List.map_map]; rfl

theorem pages_eq (k n : Nat) (hk : 0 < k) :
    (List.range n).flatMap (fun i => s.list k (i * k) since f) =
      (s.list 0 0 since f).take (n * k) := by
  induction n
  case zero => simp
  case succ n hi =>
    rw [List.range_succ, List.flatMap_append, hi, Nat.succ_mul, List.take_add]
    simp [list, hk.ne']

end Paging

section Eviction

theorem map_row_olderThan (cutoff : Int) :
    (s.olderThan cutoff).map Entry.row = s.snapshot.filter fun (_, t, _) => t < cutoff := by
  rw [snapshot, List.filter_map]
  rfl

theorem snapshot_evict (hn : (s.entries.map (·.id)).Nodup) (cutoff : Int) :
    (s.evict cutoff).snapshot = s.snapshot.filter fun (_, t, _) => cutoff ≤ t := by
  rw [snapshot, snapshot, entries_evict hn, List.filter_map]
  rfl

@[simp]
theorem lastUpdated_foldl_drop (es : List Entry) :
    (es.foldl Store.drop s).lastUpdated = s.lastUpdated := by
  induction es generalizing s
  case nil => rfl
  case cons e es hi => exact hi

end Eviction

section Watermark

theorem lastUpdated_put : (s.put id r t).lastUpdated = max s.lastUpdated t := by
  unfold Store.put
  split <;> rfl

theorem lastUpdated_perform (a : Action) :
    (s.perform a).lastUpdated = (s.stamp? a).elim s.lastUpdated (max s.lastUpdated) := by
  cases a
  case put => exact lastUpdated_put
  case putIfCurrent id seen r t =>
    simp only [Store.perform, putIfCurrent, stamp?]
    split <;> rfl
  case remove id t =>
    simp only [Store.perform, Store.remove, stamp?, get?, Option.isSome_map]
    cases s.entry? id <;> rfl
  case evict => exact lastUpdated_foldl_drop _

theorem lastUpdated_le_perform (s : Store) (a : Action) :
    s.lastUpdated ≤ (s.perform a).lastUpdated := by
  rw [lastUpdated_perform]
  cases s.stamp? a
  case none => exact Int.le_refl s.lastUpdated
  case some t => exact Int.le_max_left s.lastUpdated t

theorem lastUpdated_performAll (actions : List Action) :
    (s.performAll actions).lastUpdated =
      (s.gathered stamp? actions).foldl max s.lastUpdated := by
  induction actions generalizing s
  case nil => rfl
  case cons a actions hi =>
    refine hi.trans ?_
    rw [gathered, List.foldl_append, lastUpdated_perform]
    cases s.stamp? a <;> rfl

theorem mem_entries_overwrite (he : e ∈ (s.overwrite old r t).entries) :
    e ∈ s.entries ∨ e.version = s.nextVersion ∧ e.timestamp = t := by
  obtain ⟨e', he', rfl⟩ := List.mem_map.mp he
  split
  case isTrue => exact .inr ⟨rfl, rfl⟩
  case isFalse => exact .inl he'

theorem mem_entries_put (he : e ∈ (s.put id r t).entries) :
    e ∈ s.entries ∨ e.version = s.nextVersion ∧ e.timestamp = t := by
  unfold Store.put at he
  split at he
  case h_1 => exact mem_entries_overwrite he
  case h_2 =>
    obtain he | he := List.mem_append.mp he
    case inl => exact .inl he
    case inr =>
      obtain rfl := List.mem_singleton.mp he
      exact .inr ⟨rfl, rfl⟩

-- What an action leaves in the table was there before, or is of this one write.
theorem mem_entries_perform (he : e ∈ (s.perform a).entries) :
    e ∈ s.entries ∨ e.version = s.nextVersion ∧ s.stamp? a = some e.timestamp := by
  cases a
  case put id r t =>
    refine (mem_entries_put he).imp_right fun hnew => ⟨hnew.1, ?_⟩
    rw [stamp?, hnew.2]
  case putIfCurrent id seen r t =>
    simp only [Store.perform, putIfCurrent] at he
    split at he
    case isTrue hc =>
      refine (mem_entries_overwrite he).imp_right fun hnew => ⟨hnew.1, ?_⟩
      rw [stamp?, if_pos hc, hnew.2]
    case isFalse => exact .inl he
  case remove id t =>
    unfold Store.perform Store.remove at he
    dsimp only at he
    split at he
    case h_1 => exact .inl (List.mem_filter.mp he).1
    case h_2 => exact .inl he
  case evict => exact .inl (List.mem_filter.mp (entries_foldl_drop _ ▸ he)).1

-- A row is at most as late as the watermark.
theorem timestamp_le_performAll {actions : List Action}
    (h : ∀ e ∈ s.entries, e.timestamp ≤ s.lastUpdated) :
    ∀ e ∈ (s.performAll actions).entries, e.timestamp ≤ (s.performAll actions).lastUpdated := by
  induction actions generalizing s
  case nil => exact h
  case cons a actions hi =>
    refine hi fun e he => ?_
    obtain he | ⟨-, hs⟩ := mem_entries_perform he
    case inl => exact Int.le_trans (h e he) (s.lastUpdated_le_perform a)
    case inr =>
      rw [lastUpdated_perform, hs]
      exact Int.le_max_right s.lastUpdated e.timestamp

end Watermark

theorem mem_snapshot_iff (hn : (s.entries.map (·.id)).Nodup) :
    (id, t, r) ∈ s.snapshot ↔ ∃ e, s.entry? id = some e ∧ e.timestamp = t ∧ e.resource = r := by
  simp only [snapshot, List.mem_map, Entry.row, Prod.mk.injEq]
  constructor
  · rintro ⟨e, he, rfl, ht, hr⟩
    exact ⟨e, entry?_of_mem hn he, ht, hr⟩
  · rintro ⟨e, he, ht, hr⟩
    exact ⟨e, mem_entries he, entry?_id he, ht, hr⟩

end Store
end LinkedCache
