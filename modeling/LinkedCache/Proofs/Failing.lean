import LinkedCache.Proofs.Completion

-- Runs that failed. Such a run goes on counting its events and reports none of them. It is dropped
-- when it has seen as many as its first event declared, except by the event that made it fail.

namespace LinkedCache.Sync

def RunKey.type : RunKey → Descriptor
  | full type => type
  | keyed type _ _ => type

theorem Event.name_key (e : Event) : e.key.type.name = e.input.resource := by
  unfold key RunKey.ofEvent
  split <;> rfl

namespace Session

variable {s s' : Session} {i : Input} {p : Progress} {name : String}

-- How many events a run that is tracked has seen: fewer than it declared, unless the latest one
-- made it fail. A run of one type never sees another name.
def Within (name : String) : Session → Prop
  | .run .inProgress p | .run .failedAndUntracked p => p.resource = name ∧ p.processed < p.totalSize
  | .run .totalSizeChanged p => p.resource = name ∧ p.processed ≤ p.totalSize
  | _ => False

theorem Within.eq_run (h : s.Within name) : ∃ phase p, s = .run phase p ∧
    (p.processed < p.totalSize ∨ phase = .totalSizeChanged ∧ p.processed = p.totalSize) := by
  cases s
  case init => cases h
  case run phase p =>
    refine ⟨phase, p, rfl, ?_⟩
    cases phase
    case inProgress => exact .inl h.2
    case totalSizeChanged => exact h.2.lt_or_eq.imp_right fun he => ⟨rfl, he⟩
    case failedAndUntracked => exact .inl h.2
    all_goals cases h

theorem within_counted (h : p.resource = name) (ht : (counted p).tracked? = some s) :
    s.Within name := by
  unfold counted at ht
  by_cases hn : p.totalSize ≤ p.processed
  case pos =>
    rw [if_pos hn] at ht
    cases ht
  case neg =>
    rw [if_neg hn] at ht
    cases ht
    exact ⟨h, Nat.lt_of_not_le hn⟩

theorem advance_of_name (h : p.resource = i.resource) : advance p i =
    let p' := { p with processed := p.processed + 1, startedAt := min p.startedAt i.timestamp }
    if p.totalSize ≠ i.totalSize then run .totalSizeChanged p' else counted p' := by
  unfold advance
  exact if_neg (not_not.mpr h)

theorem next_of_isFailed {phase : Phase} (h : phase.isFailed) :
    (run phase p).next i = run .failedAndUntracked { p with processed := p.processed + 1 } := by
  cases phase <;> first | rfl | cases h

theorem tracked?_failedAndUntracked (p : Progress) : (run .failedAndUntracked p).tracked? =
    if p.totalSize ≤ p.processed then none else some (run .failedAndUntracked p) := by
  simp [tracked?]

theorem Within.next (h : s.Within i.resource) (ht : (s.next i).tracked? = some s') :
    s'.Within i.resource := by
  cases s
  case init => cases h
  case run phase p =>
    have hfailed (hf : phase.isFailed) (hn : p.resource = i.resource) : s'.Within i.resource := by
      rw [next_of_isFailed hf, tracked?_failedAndUntracked] at ht
      split at ht
      case isTrue => cases ht
      case isFalse hlt =>
        cases ht
        exact ⟨hn, Nat.lt_of_not_le hlt⟩
    cases phase
    case inProgress =>
      have hn : (run .inProgress p).next i = advance p i := rfl
      rw [hn, advance_of_name h.1] at ht
      dsimp only at ht
      split at ht
      case isTrue =>
        cases ht
        exact ⟨h.1, Nat.succ_le_of_lt h.2⟩
      case isFalse =>
        refine within_counted ?_ ht
        exact h.1
    case totalSizeChanged => exact hfailed rfl h.1
    case failedAndUntracked => exact hfailed rfl h.1
    all_goals cases h

end Session

theorem Session.counted_ne (p q : Progress) : counted p ≠ .run .totalSizeChanged q := by
  unfold counted
  split <;> nofun

-- What makes a run fail is an event that declares another size than its first one.
theorem Session.next_eq_totalSizeChanged {s : Session} {i : Input} {p : Progress}
    (h : s.next i = .run .totalSizeChanged p) : ∃ q, s = .run .inProgress q ∧
      q.totalSize ≠ i.totalSize ∧
      p = { q with processed := q.processed + 1, startedAt := min q.startedAt i.timestamp } := by
  cases s
  case init => exact (counted_ne _ _ h).elim
  case run phase q =>
    cases phase
    case inProgress =>
      unfold next advance at h
      dsimp only at h
      split at h
      case isTrue => cases h
      case isFalse =>
        split at h
        case isTrue ht =>
          cases h
          exact ⟨q, rfl, ht, rfl⟩
        case isFalse => exact (counted_ne _ _ h).elim
    case completed => exact (counted_ne _ _ h).elim
    all_goals cases h

namespace Tracker

variable {tracker : Tracker} {key : RunKey} {id : String} {e : Event} {p : Progress} {s : Session}
  {events : List Event}

-- There is one session for each key.
def Keyed (tracker : Tracker) : Prop :=
  (tracker.active.map (·.1)).Nodup

theorem Keyed.drop (h : tracker.Keyed) (key : RunKey) : (tracker.drop key).Keyed :=
  h.sublist (List.filter_sublist.map _)

theorem Keyed.keep (h : tracker.Keyed) (key : RunKey) (s : Session) :
    (tracker.keep key s).Keyed := by
  unfold Keyed Tracker.keep
  rw [List.map_append, List.nodup_append]
  refine ⟨h.drop key, List.pairwise_singleton .., ?_⟩
  simp

theorem Keyed.makeWay (h : tracker.Keyed) (type : Descriptor) (m : SyncMetadata) :
    (tracker.makeWay type m).Keyed := by
  unfold Tracker.makeWay
  split
  case h_1 => exact h.drop (.full type)
  case h_2 => exact h

theorem Keyed.take (h : tracker.Keyed) (e : Event) : (tracker.take e).2.Keyed := by
  by_cases hr : tracker.rejected e
  case pos => rwa [take_of_rejected hr]
  case neg =>
    rw [take_of_accepted hr]
    have hw := h.makeWay e.type e.run
    cases (tracker.reached e).tracked?
    case none => exact hw.drop e.key
    case some s => exact hw.keep e.key s

theorem keyed_after (events : List Event) : (({} : Tracker).after events).Keyed :=
  after_induct (P := Keyed) (by simp [Keyed]) (fun _ e h => h.take e) events

def Within (tracker : Tracker) : Prop :=
  ∀ key s, tracker.session? key = some s → s.Within key.type.name

theorem Within.take (h : tracker.Within) (e : Event) : (tracker.take e).2.Within := by
  intro key s hs
  by_cases hr : tracker.rejected e
  case pos =>
    rw [take_of_rejected hr] at hs
    exact h key s hs
  case neg =>
    by_cases hk : e.key = key
    case neg => exact h key s (tracker.session?_take_of_ne hk ▸ hs)
    case pos =>
      rw [← hk, session?_take hr, reached] at hs
      rw [← hk, e.name_key]
      cases hf : tracker.found? e
      case none =>
        rw [hf] at hs
        exact Session.within_counted rfl hs
      case some s' =>
        rw [hf] at hs
        have hs' := h e.key s' (session?_of_found? hf).2
        rw [e.name_key] at hs'
        exact hs'.next hs

theorem within_after (events : List Event) : (({} : Tracker).after events).Within :=
  after_induct (P := Within) (fun _ _ hs => by simp [session?] at hs) (fun _ e h => h.take e) events

theorem overtakenBy?_of_session? {phase : Phase} (hs : tracker.session? e.key = some (.run phase p))
    (hi : p.correlationId = e.run.correlationId) : tracker.overtakenBy? e.type e.run = none := by
  refine overtakenBy?_eq_none fun q hq => ?_
  rw [hs] at hq
  cases hq
  exact hi

-- An event that makes a run fail finds the run in progress.
theorem found?_of_totalSizeChanged (h : tracker.reached e = .run .totalSizeChanged p) :
    ∃ q, tracker.found? e = some (.run .inProgress q) ∧ q.totalSize ≠ e.run.totalSize ∧
      p = { q with processed := q.processed + 1, startedAt := min q.startedAt e.timestamp } := by
  have ⟨q, hq, ht, hp⟩ := Session.next_eq_totalSizeChanged h
  cases hf : tracker.found? e
  case none =>
    rw [hf] at hq
    cases hq
  case some s =>
    rw [hf, Option.getD_some] at hq
    exact ⟨q, hq ▸ rfl, ht, hp⟩

-- An event that is told that it contradicts the first one of its run has made it fail.
theorem reached_of_contradiction {outcome : Outcome} (h : (tracker.take e).1 = outcome)
    (ho : outcome = .resourceNameChanged ∨ outcome = .totalSizeChanged) :
    ¬tracker.rejected e ∧ ∃ phase p, tracker.reached e = .run phase p ∧
      answer (tracker.found? e) phase = outcome := by
  by_cases hr : tracker.rejected e
  case pos =>
    rw [take_of_rejected hr] at h
    simp [← h] at ho
  case neg =>
    rw [take_of_accepted hr, reply] at h
    dsimp only at h
    split at h
    case h_1 => simp [← h] at ho
    case h_2 => simp [← h] at ho
    case h_3 phase p _ hn =>
      split at h
      case isTrue => simp [← h] at ho
      case isFalse =>
        split at h
        case h_1 => simp [← h] at ho
        case h_2 => exact ⟨hr, phase, p, hn, h⟩

theorem correlationId_of_inProgress
    (h : (({} : Tracker).after events).found? e = some (.run .inProgress p)) :
    p.correlationId = e.run.correlationId := by
  have ⟨_, hs⟩ := session?_of_found? h
  have ⟨_, _, _, _, hc⟩ := inStep events e.key p hs
  have ⟨_, _, _, hk, hi, _⟩ := hc.since.begins
  exact (correlationId_of_found? h hk hi).symm

-- A run that is tracked although it has seen as many events as it declared.
def Lingers (tracker : Tracker) (key : RunKey) : Prop :=
  ∃ s p, tracker.session? key = some s ∧ s.progress? = some p ∧ p.totalSize ≤ p.processed

-- A run is dropped by the event that completes its number, unless it is this event that makes it
-- fail.
theorem lingers_iff (events : List Event) :
    let tracker := ({} : Tracker).after events
    (∀ key s, (key, s) ∈ tracker.active → ∃ phase p, s = .run phase p ∧
      (p.processed < p.totalSize ∨ phase = .totalSizeChanged ∧ p.processed = p.totalSize)) ∧
    ∀ e : Event, (tracker.take e).1 ≠ .rejected →
      ((tracker.take e).2.Lingers e.key ↔
        ∃ p, tracker.session? e.key = some (.run .inProgress p) ∧
          p.correlationId = e.run.correlationId ∧ p.processed + 1 = p.totalSize ∧
          p.totalSize ≠ e.run.totalSize) := by
  intro tracker
  constructor
  case left =>
    intro key s hm
    exact (within_after events key s (Assoc.lookup_of_mem (keyed_after events) hm)).eq_run
  case right =>
    intro e ha
    have hr := mt outcome_eq_rejected.mpr ha
    have hw : (tracker.take e).2.Within := (within_after events).take e
    constructor
    case mp =>
      intro ⟨s, q, hs, hq, hn⟩
      obtain ⟨phase, q', rfl, hlt⟩ := (hw e.key s hs).eq_run
      cases hq
      have ⟨hphase, hn⟩ := hlt.resolve_left (Nat.not_lt.mpr hn)
      subst hphase
      rw [session?_take hr] at hs
      obtain ⟨p, hf, ht, rfl⟩ := found?_of_totalSizeChanged (Session.eq_of_tracked? hs).symm
      exact ⟨p, (session?_of_found? hf).2, correlationId_of_inProgress hf, hn, ht⟩
    case mpr =>
      intro ⟨p, hs, hi, hn, ht⟩
      have hf := found?_eq_session? (overtakenBy?_of_session? hs hi)
      have hname : p.resource = e.input.resource :=
        (within_after events e.key _ hs).1.trans e.name_key
      have hreached : tracker.reached e = .advance p e.input := by
        rw [reached, hf, hs]
        rfl
      rw [Session.advance_of_name hname] at hreached
      have hfailed := hreached.trans (if_pos ht)
      rw [Lingers, session?_take hr, hfailed]
      exact ⟨_, _, rfl, rfl, hn.ge⟩

section Changing

open Roster

-- A run of two events, the second of which declares three.
def changing : List Event := [⟨group, ⟨.delta, "a", 2⟩, 1⟩, ⟨group, ⟨.delta, "a", 3⟩, 2⟩]

theorem lingers_of_changing :
    let tracker := ({} : Tracker).after (changing.take 1)
    (tracker.take ⟨group, ⟨.delta, "a", 3⟩, 2⟩).1 = .totalSizeChanged ∧
      (tracker.take ⟨group, ⟨.delta, "a", 3⟩, 2⟩).2.Lingers (.keyed group .delta "a") := by
  intro tracker
  have ⟨_, hiff⟩ := lingers_iff (changing.take 1)
  refine ⟨by decide +kernel, (hiff ⟨group, ⟨.delta, "a", 3⟩, 2⟩ (by decide +kernel)).mpr ?_⟩
  exact ⟨⟨"group", "a", 2, 1, 1⟩, by decide +kernel, rfl, rfl, by decide⟩

theorem not_processed_lt_of_changing :
    ¬∀ (events : List Event) (key : RunKey) (s : Session) (p : Progress),
      (key, s) ∈ (({} : Tracker).after events).active → s.progress? = some p →
        p.processed < p.totalSize := by
  intro h
  have hlt := h changing (.keyed group .delta "a")
    (.run .totalSizeChanged ⟨"group", "a", 2, 2, 1⟩) _ (by decide +kernel) rfl
  exact absurd hlt (by decide)

end Changing

end Tracker
end LinkedCache.Sync
