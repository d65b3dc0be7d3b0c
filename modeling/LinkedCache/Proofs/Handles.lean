import LinkedCache.Proofs.Scan

-- A handle on an entry is good until something is done to its id, and never again, whatever is
-- written later under this id or another one.

namespace LinkedCache.Store

variable {s : Store} {id other : String} {seen e : Entry} {a : Action}
  {actions before later : List Action} {read : List Entry}

-- Whether an action writes an id, removes it, or evicts it.
def Touches (s : Store) (id : String) : Action → Prop
  | .put i _ _ => i = id
  | .putIfCurrent i seen _ _ => i = id ∧ s.isCurrent i seen
  | .remove i _ => i = id
  | .evict cutoff => id ∈ (s.olderThan cutoff).map (·.id)

-- Whether actions in a row do nothing to an id.
def Leaves (s : Store) (id : String) : List Action → Prop
  | [] => True
  | a :: actions => ¬s.Touches id a ∧ (s.perform a).Leaves id actions

instance decidableTouches (s : Store) (id : String) : DecidablePred (s.Touches id)
  | .put .. => inferInstanceAs (Decidable (_ = _))
  | .putIfCurrent .. => inferInstanceAs (Decidable (_ ∧ _))
  | .remove .. => inferInstanceAs (Decidable (_ = _))
  | .evict _ => inferInstanceAs (Decidable (_ ∈ _))

instance decidableLeaves (s : Store) (id : String) : DecidablePred (s.Leaves id)
  | [] => .isTrue trivial
  | a :: actions =>
    have := decidableLeaves (s.perform a) id actions
    inferInstanceAs (Decidable (_ ∧ _))

theorem Dated.isCurrent_iff (h : s.Dated read) (hs : seen ∈ read) :
    s.isCurrent id seen ↔ s.entry? id = some seen := by
  unfold isCurrent
  split
  case h_1 e he =>
    rw [he, Option.some.injEq, Bool.and_eq_true, beq_iff_eq, beq_iff_eq]
    constructor
    · exact fun ⟨_, hv⟩ => (h.unique seen hs e (mem_entries he) hv.symm).symm
    · exact fun hs => ⟨congrArg Entry.seq hs, congrArg Entry.version hs⟩
  case h_2 he => simp [he]

theorem Dated.entry?_of_left (h : s.Dated read) (ha : s.ReadsHandles read (a :: actions))
    (hl : ¬s.Touches id a) : entry? (s.perform a) id = s.entry? id := by
  cases a
  case put => exact entry?_put_of_ne (Ne.symm hl)
  case putIfCurrent i seen r t =>
    rw [Store.perform, h.putIfCurrent_eq ha.1]
    split
    case isTrue hc => exact entry?_put_of_ne fun hi => hl ⟨hi.symm, hc⟩
    case isFalse => rfl
  case remove => exact entry?_remove_of_ne (Ne.symm hl)
  case evict => exact (entry?_foldl_drop _).trans (if_neg hl)

theorem version_put {r : Resource} {t : Int} (he : entry? (s.put id r t) id = some e) :
    e.version = s.nextVersion := by
  have ⟨new, hnew, _, _, hv⟩ := s.entry?_put_self id r t
  exact Option.some.inj (hnew.symm.trans he) ▸ hv

-- What an action that touches an id leaves there, if anything, is of this one write.
theorem Dated.version_of_touched (h : s.Dated read) (ha : s.ReadsHandles read (a :: actions))
    (ht : s.Touches id a) (he : entry? (s.perform a) id = some e) :
    e.version = s.nextVersion := by
  cases a
  case put => exact version_put (ht ▸ he)
  case putIfCurrent =>
    rw [Store.perform, h.putIfCurrent_eq ha.1, if_pos ht.2] at he
    exact version_put (ht.1 ▸ he)
  case remove =>
    rw [Store.perform, entry?_remove, if_pos ht.symm] at he
    simp at he
  case evict cutoff =>
    have hm : id ∈ (s.olderThan cutoff).map (·.id) := ht
    rw [Store.perform, evict, entry?_foldl_drop, if_pos hm] at he
    simp at he

theorem Dated.isCurrent_perform_iff (h : s.Dated read) (ha : s.ReadsHandles read (a :: actions))
    (hs : seen ∈ read) :
    (s.perform a).isCurrent id seen ↔ s.isCurrent id seen ∧ ¬s.Touches id a := by
  rw [(h.perform ha).isCurrent_iff (List.mem_append_left _ hs), h.isCurrent_iff hs]
  constructor
  · intro he
    have hl : ¬s.Touches id a := fun ht =>
      (h.older seen hs).ne (h.version_of_touched ha ht he)
    exact ⟨h.entry?_of_left ha hl ▸ he, hl⟩
  · exact fun ⟨he, hl⟩ => (h.entry?_of_left ha hl).trans he

theorem Dated.isCurrent_performAll_iff (h : s.Dated read) (ha : s.ReadsHandles read actions)
    (hs : seen ∈ read) :
    (s.performAll actions).isCurrent id seen ↔ s.isCurrent id seen ∧ s.Leaves id actions := by
  induction actions generalizing s read
  case nil => exact (and_iff_left trivial).symm
  case cons a actions hi =>
    refine (hi (h.perform ha) ha.2 (List.mem_append_left _ hs)).trans ?_
    rw [h.isCurrent_perform_iff ha hs, and_assoc]
    rfl

-- Midway through a run the handles from before are still known.
theorem Dated.midway (h : s.Dated read) (ha : s.ReadsHandles read (before ++ later)) :
    ∃ read', read ⊆ read' ∧ (s.performAll before).Dated read' ∧
      (s.performAll before).ReadsHandles read' later := by
  induction before generalizing s read
  case nil => exact ⟨read, List.Subset.refl read, h, ha⟩
  case cons a before hi =>
    have ⟨read', hsub, h', ha'⟩ := hi (h.perform ha) ha.2
    exact ⟨read', fun e he => hsub (List.mem_append_left _ he), h', ha'⟩

-- A conditional write is in time if nothing was done to its id since the handle was taken. It is
-- then the same as a write, and otherwise it does nothing.
theorem putIfCurrent_performAll (type : Descriptor) (declared : List String)
    (before later : List Action) (id : String) (seen : Entry)
    (h : (empty type declared).ReadsHandles [] (before ++ later))
    (he : entry? ((empty type declared).performAll before) id = some seen) :
    let taken := (empty type declared).performAll before
    let s := taken.performAll later
    (s.isCurrent id seen ↔ taken.Leaves id later) ∧
    (∀ other ≠ id, s.isCurrent other seen = false) ∧
    ∀ i r t, s.putIfCurrent i seen r t = if s.isCurrent i seen then s.put i r t else s := by
  intro taken s
  have ⟨read, _, hd, hl⟩ := (dated_empty type declared).midway h
  have hs : seen ∈ read := hd.present seen (mem_entries he)
  have ⟨read', hsub, hd', _⟩ := hd.midway ((List.append_nil later).symm ▸ hl)
  refine ⟨?current, fun other hn => ?other, hd'.putIfCurrent_eq (hsub hs)⟩
  case current =>
    rw [hd.isCurrent_performAll_iff hl hs, hd.isCurrent_iff hs]
    exact and_iff_right he
  case other =>
    rw [Bool.eq_false_iff, ne_eq, hd.isCurrent_performAll_iff hl hs, hd.isCurrent_iff hs]
    rintro ⟨ho, -⟩
    exact hn ((entry?_id ho).symm.trans (entry?_id he))

section Rewritten

def written : List Action := [.put "1" (code "a") 1]

-- What happens to a second id does not matter, but an entry that is written again as it was is
-- another one.
def elsewhere : List Action := [.put "2" (code "a") 2, .evict 1, .remove "2" 3]

def rewritten : List Action := elsewhere ++ [.put "1" (code "a") 1]

theorem putIfCurrent_performAll_rewritten :
    let taken := (empty default ["code"]).performAll written
    let seen : Entry := ⟨"1", code "a", 1, 0, 0⟩
    (taken.performAll elsewhere).isCurrent "1" seen ∧
    ¬(taken.performAll rewritten).isCurrent "1" seen := by
  intro taken seen
  have hseen : taken.entry? "1" = some seen := rfl
  have ⟨helsewhere, _⟩ := putIfCurrent_performAll default ["code"] written elsewhere "1" seen
    ⟨trivial, trivial, trivial, trivial, trivial⟩ hseen
  have ⟨hrewritten, _⟩ := putIfCurrent_performAll default ["code"] written rewritten "1" seen
    ⟨trivial, trivial, trivial, trivial, trivial, trivial⟩ hseen
  exact ⟨helsewhere.mpr (by decide +kernel), mt hrewritten.mp (by decide +kernel)⟩

end Rewritten

end LinkedCache.Store
