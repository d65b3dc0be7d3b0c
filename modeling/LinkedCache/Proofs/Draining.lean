import LinkedCache.Proofs.Failing

-- What becomes of a failed run. None of its further events is reported, as long as there are no
-- more of them than its first event declared. The last one of these drops it, and what comes in
-- after that begins a run anew.

namespace LinkedCache.Sync

variable {key : RunKey} {id : String} {e last : Event} {events : List Event}

theorem partsOf_append (key : RunKey) (id : String) (events later : List Event) :
    partsOf key id (events ++ later) = partsOf key id events ++ partsOf key id later :=
  List.filter_append ..

theorem partsOf_cons_of_mem (h : e.key = key ∧ e.run.correlationId = id) :
    partsOf key id (e :: events) = e :: partsOf key id events := by
  simp [partsOf, h]

theorem partsOf_cons_of_not_mem (h : ¬(e.key = key ∧ e.run.correlationId = id)) :
    partsOf key id (e :: events) = partsOf key id events := by
  simp [partsOf, h]

namespace Tracker

variable {tracker : Tracker} {total count : Nat} {p : Progress}

-- A run that failed and has seen some of the events that it declared. With all of them it is gone.
structure Lane.Failed (lane : Lane) (id : String) (total count : Nat) : Prop where
  fresh : id ∉ lane.superseded
  session : if count < total then ∃ phase p, lane.session = some (.run phase p) ∧
      phase.isFailed ∧ p.correlationId = id ∧ p.totalSize = total ∧ p.processed = count
    else lane.session = none

-- No event among some events in a row begins another run of a key.
def Unrivalled (tracker : Tracker) (key : RunKey) (id : String) : List Event → Prop
  | [] => True
  | e :: events => (e.key = key → e.run.correlationId ≠ id → ¬tracker.Begins e) ∧
    (tracker.take e).2.Unrivalled key id events

theorem Lane.Failed.not_active (h : (tracker.lane key).Failed id total count) {other : String}
    (ho : other ≠ id) : ¬tracker.Active key other := by
  intro ⟨s, p, hs, hp, hi⟩
  have hsession := h.session
  split at hsession
  case isTrue =>
    obtain ⟨phase, q, hq, _, hid, _⟩ := hsession
    have hsq : s = .run phase q := Option.some.inj (hs.symm.trans hq)
    rw [hsq] at hp
    cases hp
    exact ho (hi.symm.trans hid)
  case isFalse =>
    have hnone : tracker.session? key = none := hsession
    rw [hnone] at hs
    cases hs

-- An event that is not one of the run leaves it as it was.
theorem Lane.Failed.skip (h : (tracker.lane key).Failed id total count)
    (he : ¬(e.key = key ∧ e.run.correlationId = id))
    (hb : e.key = key → e.run.correlationId ≠ id → ¬tracker.Begins e) :
    ((tracker.take e).2.lane key).Failed id total count := by
  by_cases hk : e.key = key
  case neg =>
    rw [lane_take_of_ne hk]
    exact h
  case pos =>
    have hne : e.run.correlationId ≠ id := fun hi => he ⟨hk, hi⟩
    have hr : tracker.rejected e := by
      by_contra hr
      exact hb hk hne ⟨hr, hk ▸ h.not_active hne⟩
    rwa [take_of_rejected hr]

theorem Lane.Failed.accepted (h : (tracker.lane e.key).Failed e.run.correlationId total count) :
    ¬tracker.rejected e :=
  mt rejected_iff.mp h.fresh

theorem Lane.Failed.take (h : (tracker.lane e.key).Failed e.run.correlationId total count)
    (hn : count < total) : (tracker.take e).1 = .untracked ∧
      ((tracker.take e).2.lane e.key).Failed e.run.correlationId total (count + 1) := by
  have hsession := h.session
  rw [if_pos hn] at hsession
  obtain ⟨phase, p, hs, hphase, hi, ht, hc⟩ := hsession
  have ho := overtakenBy?_of_session? hs hi
  have hreached : tracker.reached e =
      .run .failedAndUntracked { p with processed := p.processed + 1 } := by
    have hfound : tracker.found? e = some (.run phase p) := (found?_eq_session? ho).trans hs
    rw [reached, hfound]
    exact Session.next_of_isFailed hphase
  constructor
  case left =>
    rw [take_of_accepted h.accepted, reply, hreached, ho]
    exact ite_self _
  case right =>
    have hw : tracker.makeWay e.type e.run = tracker := by simp [makeWay, ho]
    rw [lane_take h.accepted, hreached, hw, Session.tracked?_failedAndUntracked]
    refine ⟨h.fresh, ?_⟩
    dsimp only
    by_cases hlt : count + 1 < total
    case pos =>
      rw [if_pos hlt, if_neg (by omega)]
      exact ⟨_, _, rfl, rfl, hi, ht, congrArg (· + 1) hc⟩
    case neg => rw [if_neg hlt, if_pos (by omega)]

theorem Lane.Failed.after (h : (tracker.lane key).Failed id total count)
    (hu : tracker.Unrivalled key id events)
    (hn : count + (partsOf key id events).length ≤ total) :
    ((tracker.after events).lane key).Failed id total (count + (partsOf key id events).length) := by
  induction events generalizing tracker count
  case nil => exact h
  case cons e events hi =>
    by_cases he : e.key = key ∧ e.run.correlationId = id
    case pos =>
      rw [partsOf_cons_of_mem he, List.length_cons] at hn ⊢
      obtain ⟨rfl, rfl⟩ := he
      have ⟨_, hnext⟩ := h.take (by omega)
      rw [Nat.add_comm _ 1, ← Nat.add_assoc] at hn ⊢
      exact hi hnext hu.2 hn
    case neg =>
      rw [partsOf_cons_of_not_mem he] at hn ⊢
      exact hi (h.skip he hu.1) hu.2 hn

-- A run that was dropped begins anew, and is complete with its first event if it declares no more.
theorem Lane.Failed.begins (h : (tracker.lane e.key).Failed e.run.correlationId total total) :
    (tracker.take e).1 =
      if e.run.totalSize ≤ 1 then
        .completed (if e.run.kind = .full then some e.timestamp else none)
      else .started := by
  have hs : tracker.session? e.key = none := by
    have hsession := h.session
    rwa [if_neg (Nat.lt_irrefl _)] at hsession
  have ho : tracker.overtakenBy? e.type e.run = none :=
    overtakenBy?_eq_none fun p hp => by simp [hs] at hp
  have hfound : tracker.found? e = none := (found?_eq_session? ho).trans hs
  have hinput : e.input.totalSize = e.run.totalSize := rfl
  rw [take_of_accepted h.accepted, reply, reached, hfound, ho]
  dsimp only [Option.getD, Session.next, Session.start, Session.counted]
  rw [hinput]
  by_cases hn : e.run.totalSize ≤ 1
  case pos =>
    rw [if_pos hn, if_pos hn]
    rfl
  case neg =>
    rw [if_neg hn, if_neg hn]
    rfl

-- An event that makes a run fail is answered so, and all that is known of the run is its count.
theorem reached_of_totalSizeChanged (h : (tracker.take e).1 = .totalSizeChanged) :
    ¬tracker.rejected e ∧ ∃ p, tracker.reached e = .run .totalSizeChanged p := by
  have ⟨hr, phase, p, hn, ha⟩ := reached_of_contradiction h (.inr rfl)
  refine ⟨hr, p, ?_⟩
  cases phase
  case inProgress => cases hf : tracker.found? e <;> simp [answer, hf] at ha
  case totalSizeChanged => exact hn
  all_goals cases ha

-- A run that failed is not reported up to the last event that it declared, and is dropped by this
-- one, if it had failed before. The next event with its id begins another run.
theorem untracked_until_drained (old : List Event) (e : Event)
    (h : ((({} : Tracker).after old).take e).1 = .totalSizeChanged) :
    let id := e.run.correlationId
    let failed := ((({} : Tracker).after old).take e).2
    ∃ before first tail, before ++ first :: tail = old ∧ Since before (first :: tail) e.key id ∧
      (∀ part ∈ partsOf e.key id (first :: tail), part.run.totalSize = first.run.totalSize) ∧
      e.run.totalSize ≠ first.run.totalSize ∧
      ∀ (later : List Event) (last : Event), failed.Unrivalled e.key id later →
        last.key = e.key → last.run.correlationId = id →
        let n := (partsOf e.key id (first :: tail ++ e :: later)).length
        (n < first.run.totalSize → ((failed.after later).take last).1 = .untracked) ∧
        (n = first.run.totalSize → partsOf e.key id later ≠ [] →
          (failed.after later).session? e.key = none ∧
          ((failed.after later).take last).1 =
            if last.run.totalSize ≤ 1 then
              .completed (if last.run.kind = .full then some last.timestamp else none)
            else .started) := by
  intro id failed
  have ⟨hr, p, hreached⟩ := reached_of_totalSizeChanged h
  obtain ⟨q, hf, ht, rfl⟩ := found?_of_totalSizeChanged hreached
  have hi : q.correlationId = id := correlationId_of_inProgress hf
  have ⟨ho, hs⟩ := session?_of_found? hf
  have ⟨hlt, before, rest, hold, hc⟩ := inStep old e.key q hs
  obtain ⟨first, tail, rfl, hk, hfirst, -⟩ := hc.since.begins
  have htotal : first.run.totalSize = q.totalSize :=
    hc.total first (partsOf_cons_of_mem ⟨hk, hfirst⟩ ▸ .head _)
  have hcount : (partsOf e.key id (first :: tail)).length = q.processed := hi ▸ hc.length
  refine ⟨before, first, tail, hold, hi ▸ hc.since, fun part hp => ?_, htotal ▸ ht.symm, ?_⟩
  · exact (hc.total part (hi ▸ hp)).trans htotal.symm
  -- The run fails with this event, and goes on as long as it is not the last one.
  have hfailed (hn : q.processed + 1 < q.totalSize) :
      (failed.lane e.key).Failed id q.totalSize (q.processed + 1) := by
    rw [lane_take hr, hreached, makeWay, ho]
    refine ⟨mt rejected_iff.mpr hr, ?_⟩
    rw [if_pos hn]
    exact ⟨_, _, rfl, rfl, hi, rfl, rfl⟩
  intro later last hu hlk hli n
  have hn : n = q.processed + 1 + (partsOf e.key id later).length := by
    have he : e.key = e.key ∧ e.run.correlationId = id := ⟨rfl, rfl⟩
    change (partsOf e.key id (first :: tail ++ e :: later)).length = _
    rw [partsOf_append, List.length_append, hcount, partsOf_cons_of_mem he, List.length_cons]
    omega
  have hafter (hlt : q.processed + 1 < q.totalSize) (hle : n ≤ q.totalSize) :
      ((failed.after later).lane e.key).Failed id q.totalSize n :=
    hn ▸ (hfailed hlt).after hu (hn ▸ hle)
  rw [htotal]
  constructor
  case left =>
    intro hlt
    have hlast := hafter (by omega) hlt.le
    rw [← hlk, ← hli] at hlast
    exact (hlast.take hlt).1
  case right =>
    intro hall hparts
    have hpos := List.length_pos_iff.mpr hparts
    have hlast := hafter (by omega) hall.le
    rw [hall] at hlast
    refine ⟨?_, ?_⟩
    · have hsession := hlast.session
      rwa [if_neg (Nat.lt_irrefl _)] at hsession
    · rw [← hlk, ← hli] at hlast
      exact hlast.begins

section Regrouping

open Roster

-- A FULL run overtakes another one, and then declares another size.
def regrouping : List Event := [⟨group, ⟨.full, "z", 2⟩, 1⟩, ⟨group, ⟨.full, "a", 4⟩, 2⟩]

-- Neither a run of another kind nor an event of the overtaken run gets in the way, and it does not
-- matter what the last event declares.
theorem untracked_of_regrouping :
    let failing : Event := ⟨group, ⟨.full, "a", 5⟩, 3⟩
    let later : List Event := [⟨group, ⟨.delta, "a", 1⟩, 4⟩, ⟨group, ⟨.full, "z", 2⟩, 5⟩,
      ⟨group, ⟨.full, "a", 4⟩, 6⟩]
    let failed := ((({} : Tracker).after regrouping).take failing).2
    ((({} : Tracker).after regrouping).take failing).1 = .totalSizeChanged ∧
      failed.Unrivalled (.full group) "a" later ∧
      ((failed.after later).take ⟨group, ⟨.full, "a", 1⟩, 9⟩).1 = .untracked := by
  intro failing later failed
  have hfails : ((({} : Tracker).after regrouping).take failing).1 = .totalSizeChanged := by
    decide +kernel
  have hu : failed.Unrivalled (.full group) "a" later := by
    refine ⟨fun hk => absurd hk (by decide), fun _ _ hb => hb.1 (by decide +kernel), ?_⟩
    exact ⟨fun _ hi => absurd rfl hi, trivial⟩
  refine ⟨hfails, hu, ?_⟩
  have ⟨before, first, rest, hold, hsince, _, _, hrun⟩ := untracked_until_drained regrouping failing
    hfails
  have ⟨hn, _⟩ := hrun later ⟨group, ⟨.full, "a", 1⟩, 9⟩ hu rfl rfl
  -- The run began with the second event, as the first one is of the run that was overtaken.
  cases before
  case nil =>
    obtain ⟨_, _, hfirst, _, hid, _⟩ := hsince.begins
    cases hfirst
    cases hold
    exact absurd hid (by decide)
  case cons z before =>
    obtain ⟨rfl, rfl, rfl⟩ : before = [] ∧ first = ⟨group, ⟨.full, "a", 4⟩, 2⟩ ∧ rest = [] := by
      cases before <;> simp_all [regrouping]
    exact hn (by decide +kernel)

-- A run of three events whose second one declares four. The third one drops it, and a further one
-- is complete by itself.
theorem not_failed_of_drained :
    ¬∀ (old later : List Event) (e last : Event),
      let failed := (({} : Tracker).after old).take e
      failed.1 = .totalSizeChanged → failed.2.Unrivalled e.key e.run.correlationId later →
      last.key = e.key → last.run.correlationId = e.run.correlationId →
      let outcome := ((failed.2.after later).take last).1
      outcome ≠ .started ∧ outcome ≠ .incremented ∧ ∀ cutoff, outcome ≠ .completed cutoff := by
  intro h
  have ⟨_, _, hcompleted⟩ := h [⟨group, ⟨.full, "a", 3⟩, 1⟩] [⟨group, ⟨.full, "a", 3⟩, 3⟩]
    ⟨group, ⟨.full, "a", 4⟩, 2⟩ ⟨group, ⟨.full, "a", 1⟩, 9⟩ (by decide +kernel)
    ⟨fun _ hi => absurd rfl hi, trivial⟩ rfl rfl
  exact hcompleted (some 9) (by decide +kernel)

end Regrouping

end Tracker
end LinkedCache.Sync
