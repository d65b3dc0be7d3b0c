import LinkedCache.Proofs.Lanes

-- Runs whose events agree. Each of their events counts, whatever other runs go on beside them, and
-- the last one completes the run.

namespace LinkedCache.Sync.Tracker

variable {tracker : Tracker} {type : Descriptor} {m : SyncMetadata} {e : Event}
  {events : List Event} {ts : List Int}

-- A tracker that has seen some events of a run, all of them with the same metadata, and not yet as
-- many as these declare.
structure Amid (tracker : Tracker) (type : Descriptor) (m : SyncMetadata) (ts : List Int) :
    Prop where
  fresh : m.correlationId ∉ (tracker.lane (.ofEvent type m)).superseded
  session : tracker.session? (.ofEvent type m) = ts.min?.map fun startedAt =>
    .run .inProgress ⟨type.name, m.correlationId, m.totalSize, ts.length, startedAt⟩

theorem type_of_key (h : e.key = .ofEvent type e.run) : e.type = type := by
  unfold Event.key RunKey.ofEvent at h
  cases hk : e.run.kind <;> simp_all

theorem Amid.accepted (h : tracker.Amid e.type e.run ts) : ¬tracker.rejected e :=
  mt rejected_iff.mp h.fresh

theorem Amid.overtakenBy?_eq_none (h : tracker.Amid e.type e.run ts) :
    tracker.overtakenBy? e.type e.run = none := by
  refine Tracker.overtakenBy?_eq_none fun p hp => ?_
  rw [Event.key, h.session] at hp
  cases hm : ts.min? <;> rw [hm] at hp <;> cases hp
  rfl

theorem Amid.found?_eq (h : tracker.Amid e.type e.run ts) :
    tracker.found? e = tracker.session? e.key :=
  found?_eq_session? h.overtakenBy?_eq_none

theorem Amid.makeWay_eq (h : tracker.Amid e.type e.run ts) :
    tracker.makeWay e.type e.run = tracker := by
  simp [makeWay, h.overtakenBy?_eq_none]

-- The session that the next event of the run makes of the one before it.
theorem Amid.reached_eq (h : tracker.Amid e.type e.run ts) :
    tracker.reached e = .counted ⟨e.type.name, e.run.correlationId, e.run.totalSize,
      ts.length + 1, ts.min?.elim e.timestamp (min · e.timestamp)⟩ := by
  unfold reached
  rw [h.found?_eq, Event.key, h.session]
  cases hm : ts.min?
  case none =>
    rw [List.min?_eq_none_iff.mp hm]
    rfl
  case some startedAt => simp [Event.input, Session.next, Session.advance]

theorem Amid.completes (h : tracker.Amid e.type e.run ts) (hn : e.run.totalSize ≤ ts.length + 1) :
    (tracker.take e).1 = .completed
        (if e.run.kind = .full then (ts ++ [e.timestamp]).min? else none) ∧
      (tracker.take e).2.session? e.key = none := by
  have hr := h.reached_eq
  rw [Session.counted, if_pos hn] at hr
  rw [session?_take h.accepted, take_of_accepted h.accepted, reply, hr, min?_concat]
  exact ⟨rfl, rfl⟩

theorem Amid.take (h : tracker.Amid e.type e.run ts) (hn : ts.length + 1 < e.run.totalSize) :
    (tracker.take e).1 = (if ts = [] then .started else .incremented) ∧
      (tracker.take e).2.Amid e.type e.run (ts ++ [e.timestamp]) := by
  have hr := h.reached_eq
  rw [Session.counted, if_neg (Nat.not_le.mpr hn)] at hr
  refine ⟨?_, ?_, ?_⟩
  · have ha : answer (tracker.found? e) .inProgress =
        if ts = [] then .started else .incremented := by
      rw [h.found?_eq, Event.key, h.session]
      cases ts <;> rfl
    rw [take_of_accepted h.accepted, reply, hr]
    dsimp only
    rw [ha, h.overtakenBy?_eq_none]
    split <;> simp
  · have hl := congrArg Lane.superseded (lane_take h.accepted)
    rw [h.makeWay_eq] at hl
    rw [← Event.key, hl]
    exact h.fresh
  · rw [← Event.key, session?_take h.accepted, hr, min?_concat]
    simp [Session.tracked?]

-- The answers to events that bring a run that has begun to its end.
theorem Amid.answers (h : tracker.Amid type m ts) (hts : ts ≠ []) (hnil : events ≠ [])
    (he : ∀ e ∈ events, e.type = type ∧ e.run = m)
    (hn : ts.length + events.length = m.totalSize) :
    (tracker.answers events).map (·.2) = List.replicate (events.length - 1) .incremented ++
      [.completed (if m.kind = .full then (ts ++ events.map (·.timestamp)).min? else none)] := by
  induction events generalizing tracker ts
  case nil => exact absurd rfl hnil
  case cons e events hi =>
    obtain ⟨⟨rfl, rfl⟩, he⟩ := List.forall_mem_cons.mp he
    rw [List.length_cons] at hn
    rw [Tracker.answers, List.map_cons]
    cases events
    case nil =>
      rw [(h.completes hn.ge).1]
      rfl
    case cons e' events =>
      obtain ⟨ho, ha⟩ := h.take (by rw [List.length_cons] at hn; omega)
      have hrest := hi ha (by simp) (by simp) he (by simp at hn ⊢; omega)
      rw [hrest, ho, if_neg hts]
      simp [List.replicate_succ]

theorem Amid.answers_all (h : tracker.Amid type m [])
    (he : ∀ e ∈ events, e.type = type ∧ e.run = m) (htwo : 2 ≤ m.totalSize)
    (hn : events.length = m.totalSize) :
    (tracker.answers events).map (·.2) =
      .started :: (List.replicate (m.totalSize - 2) .incremented ++
        [.completed (if m.kind = .full then (events.map (·.timestamp)).min? else none)]) := by
  cases events
  case nil => rw [List.length_nil] at hn; omega
  case cons e events =>
    obtain ⟨⟨rfl, rfl⟩, he⟩ := List.forall_mem_cons.mp he
    rw [List.length_cons] at hn
    have ⟨ho, ha⟩ := h.take htwo
    have hnil : events ≠ [] := fun hnil => by
      rw [hnil, List.length_nil] at hn
      omega
    have hrest := ha.answers (by simp) hnil he (by simpa [Nat.add_comm] using hn)
    rw [Tracker.answers, List.map_cons, hrest, ho, if_pos rfl, ← hn]
    rfl

theorem Counts.amid (h : tracker.Counts type m ts) (hm : m.kind = .full) :
    tracker.Amid type m ts := by
  constructor <;> rw [ofEvent_eq_full hm]
  · exact h.fresh
  · exact h.session

theorem Counts.record (h : tracker.Counts type m ts) (hm : m.kind = .full)
    (hn : ts.length + 1 < m.totalSize) (t : Int) :
    (tracker.record type m t).1.evictBefore? = none ∧
      (tracker.record type m t).2.Counts type m (ts ++ [t]) := by
  have ⟨ho, ha⟩ := Amid.take (e := ⟨type, m, t⟩) (h.amid hm) hn
  have ho : (tracker.record type m t).1 = _ := ho
  rw [ho]
  refine ⟨by split <;> rfl, ?_⟩
  have ⟨hf, hs⟩ := ha
  rw [ofEvent_eq_full hm] at hf hs
  exact ⟨hf, hs⟩

theorem Counts.completes (h : tracker.Counts type m ts) (hm : m.kind = .full)
    (hn : m.totalSize ≤ ts.length + 1) (t : Int) :
    (tracker.record type m t).1 = .completed (ts ++ [t]).min? ∧
      (tracker.record type m t).2.session? (.full type) = none := by
  have ⟨ho, hs⟩ := Amid.completes (e := ⟨type, m, t⟩) (h.amid hm) hn
  rw [if_pos hm] at ho
  rw [Event.key, ofEvent_eq_full hm] at hs
  exact ⟨ho, hs⟩

end LinkedCache.Sync.Tracker
