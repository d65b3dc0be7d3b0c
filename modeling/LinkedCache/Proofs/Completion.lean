import Mathlib.Data.List.Induction
import LinkedCache.Proofs.Counting
import LinkedCache.Proofs.Overtaking

-- Runs that come to their end. A complete run has seen as many events since it began as each of
-- them declared, and a run whose events agree is completed by the last of them, whatever other runs
-- go on beside it.

namespace LinkedCache.Sync

-- An event that completes a run, or goes on with it, agrees with the events before it.
theorem next_of_inProgress {q p : Progress} {i : Input} {phase : Phase}
    (h : (Session.run .inProgress q).next i = .run phase p)
    (hp : phase = .inProgress ∨ phase = .completed) :
    q.totalSize = i.totalSize ∧
      p = { q with processed := q.processed + 1, startedAt := min q.startedAt i.timestamp } ∧
      (phase = .completed ↔ p.totalSize ≤ p.processed) := by
  unfold Session.next Session.advance at h
  dsimp only at h
  split at h
  case isTrue => cases h; simp at hp
  case isFalse =>
    split at h
    case isTrue => cases h; simp at hp
    case isFalse ht =>
      cases h
      refine ⟨not_not.mp ht, rfl, ?_⟩
      dsimp only
      split <;> simp [*]

-- The events of a run among others.
def partsOf (key : RunKey) (id : String) (events : List Event) : List Event :=
  events.filter fun e => e.key = key ∧ e.run.correlationId = id

namespace Tracker

variable {tracker : Tracker} {key : RunKey} {id : String} {e : Event} {p q : Progress} {s : Session}
  {phase : Phase} {old rest events : List Event}

theorem after_concat (tracker : Tracker) (events : List Event) (e : Event) :
    tracker.after (events ++ [e]) = ((tracker.after events).take e).2 :=
  tracker.after_append events [e]

-- Whether a run is under way, be it as a failed one.
def Active (tracker : Tracker) (key : RunKey) (id : String) : Prop :=
  ∃ s p, tracker.session? key = some s ∧ s.progress? = some p ∧ p.correlationId = id

def Begins (tracker : Tracker) (e : Event) : Prop :=
  ¬tracker.rejected e ∧ ¬tracker.Active e.key e.run.correlationId

-- The events `rest` after `old` are those since a run began. It was under way after each of them,
-- except for the last one, which may have ended it.
structure Since (old rest : List Event) (key : RunKey) (id : String) : Prop where
  begins : ∃ first tail, rest = first :: tail ∧ first.key = key ∧ first.run.correlationId = id ∧
    (({} : Tracker).after old).Begins first
  active : ∀ mid later, mid ++ later = rest → mid ≠ [] → later ≠ [] →
    (({} : Tracker).after (old ++ mid)).Active key id

theorem since_of_begins (h : (({} : Tracker).after old).Begins e) :
    Since old [e] e.key e.run.correlationId where
  begins := ⟨e, [], rfl, rfl, rfl, h⟩
  active mid later hm hmid hlater := by
    have hl := congrArg List.length hm
    have := List.length_pos_iff.mpr hmid
    have := List.length_pos_iff.mpr hlater
    rw [List.length_append, List.length_singleton] at hl
    omega

theorem Since.concat (h : Since old rest key id)
    (ha : (({} : Tracker).after (old ++ rest)).Active key id) (e : Event) :
    Since old (rest ++ [e]) key id where
  begins :=
    have ⟨first, tail, hr, hf⟩ := h.begins
    ⟨first, tail ++ [e], by rw [hr, List.cons_append], hf⟩
  active mid later hm hmid hlater := by
    have ⟨before, last, hl⟩ := (List.eq_nil_or_concat later).resolve_left hlater
    rw [hl, List.concat_eq_append, ← List.append_assoc] at hm
    have hr := (List.append_inj' hm rfl).1
    by_cases hb : before = []
    case pos => rwa [← hr, hb, List.append_nil] at ha
    case neg => exact h.active mid before hr hmid hb

-- A run as it stands after its events.
structure Counted (old rest : List Event) (key : RunKey) (p : Progress) : Prop where
  since : Since old rest key p.correlationId
  length : (partsOf key p.correlationId rest).length = p.processed
  total : ∀ e ∈ partsOf key p.correlationId rest, e.run.totalSize = p.totalSize
  startedAt : ((partsOf key p.correlationId rest).map (·.timestamp)).min? = some p.startedAt

theorem Counted.pos (h : Counted old rest key p) : 0 < p.processed := by
  by_contra hn
  have hl := h.length
  have hs := h.startedAt
  rw [List.eq_nil_of_length_eq_zero (hl.trans (Nat.eq_zero_of_not_pos hn))] at hs
  cases hs

theorem counted_of_begins (h : (({} : Tracker).after old).Begins e) :
    Counted old [e] e.key
      ⟨e.type.name, e.run.correlationId, e.run.totalSize, 1, e.timestamp⟩ where
  since := since_of_begins h
  length := by simp [partsOf]
  total := by simp [partsOf]
  startedAt := by simp [partsOf]

theorem Counted.skip (h : Counted old rest key p)
    (ha : (({} : Tracker).after (old ++ rest)).Active key p.correlationId)
    (he : ¬(e.key = key ∧ e.run.correlationId = p.correlationId)) :
    Counted old (rest ++ [e]) key p := by
  have hp : partsOf key p.correlationId (rest ++ [e]) = partsOf key p.correlationId rest := by
    simp [partsOf, he]
  exact ⟨h.since.concat ha e, hp ▸ h.length, hp ▸ h.total, hp ▸ h.startedAt⟩

theorem Counted.count (h : Counted old rest key p)
    (ha : (({} : Tracker).after (old ++ rest)).Active key p.correlationId)
    (hk : e.key = key) (hi : e.run.correlationId = p.correlationId)
    (ht : e.run.totalSize = p.totalSize) :
    Counted old (rest ++ [e]) key
      { p with processed := p.processed + 1, startedAt := min p.startedAt e.timestamp } := by
  have hp : partsOf key p.correlationId (rest ++ [e]) =
      partsOf key p.correlationId rest ++ [e] := by
    simp [partsOf, hk, hi]
  constructor
  case since => exact h.since.concat ha e
  case length => simp [hp, h.length]
  case total =>
    intro e' he
    rw [hp] at he
    obtain he | he := List.mem_append.mp he
    · exact h.total e' he
    · exact List.mem_singleton.mp he ▸ ht
  case startedAt => simp [hp, min?_concat, h.startedAt]

-- Only runs that go on are tracked.
def Tidy (tracker : Tracker) : Prop :=
  ∀ key s, tracker.session? key = some s → s.tracked? = some s

theorem Tidy.take (h : tracker.Tidy) (e : Event) : (tracker.take e).2.Tidy := by
  intro key s hs
  by_cases hr : tracker.rejected e
  case pos =>
    rw [take_of_rejected hr] at hs
    exact h key s hs
  case neg =>
    by_cases hk : e.key = key
    case pos =>
      rw [← hk, session?_take hr] at hs
      obtain rfl := Session.eq_of_tracked? hs
      exact hs
    case neg => exact h key s (tracker.session?_take_of_ne hk ▸ hs)

theorem tidy_after (events : List Event) : (({} : Tracker).after events).Tidy :=
  after_induct (P := Tidy) (fun _ _ hs => by simp [session?] at hs) (fun _ e h => h.take e) events

theorem begins_of_found?_eq_none (hr : ¬tracker.rejected e) (h : tracker.found? e = none) :
    tracker.Begins e := by
  refine ⟨hr, fun ⟨s, p, hs, hp, hi⟩ => ?_⟩
  have ho : tracker.overtakenBy? e.type e.run = none := by
    refine overtakenBy?_eq_none fun q hq => ?_
    rw [hs, Option.bind_some, hp] at hq
    cases hq
    exact hi
  simp [found?_eq_session? ho, hs] at h

theorem session?_of_found? (h : tracker.found? e = some s) :
    tracker.overtakenBy? e.type e.run = none ∧ tracker.session? e.key = some s := by
  cases ho : tracker.overtakenBy? e.type e.run
  case some => simp [found?_of_overtaking ho] at h
  case none => exact ⟨rfl, found?_eq_session? ho ▸ h⟩

theorem correlationId_of_key {e' : Event} (h : e'.key = e.key) (hk : e.run.kind ≠ .full) :
    e'.run.correlationId = e.run.correlationId := by
  unfold Event.key RunKey.ofEvent at h
  cases hd : e.run.kind <;> cases hd' : e'.run.kind <;> simp_all

-- Events of one key have the id of the run that they find under way.
theorem correlationId_of_found? {first : Event} (h : tracker.found? e = some (.run phase p))
    (hk : first.key = e.key) (hi : first.run.correlationId = p.correlationId) :
    e.run.correlationId = p.correlationId := by
  have ⟨ho, hs⟩ := session?_of_found? h
  by_cases hfull : e.run.kind = .full
  case neg => exact (correlationId_of_key hk hfull).symm.trans hi
  case pos =>
    by_contra hne
    rw [key_eq_full.mpr ⟨rfl, hfull⟩] at hs
    have hp : (tracker.session? (.full e.type)).bind Session.progress? = some p := by
      rw [hs]
      rfl
    rw [overtakenBy?_eq_some.mpr ⟨hfull, Ne.symm hne, p, hp, rfl⟩] at ho
    cases ho

-- The runs in progress are as their events have made them.
def InStep (events : List Event) : Prop :=
  ∀ key p, (({} : Tracker).after events).session? key = some (.run .inProgress p) →
    p.processed < p.totalSize ∧ ∃ old rest, old ++ rest = events ∧ Counted old rest key p

-- The run that an event goes on with or completes is as its events have made it, this one included.
theorem InStep.exists_counted (h : InStep events) (hr : ¬(({} : Tracker).after events).rejected e)
    (hn : (({} : Tracker).after events).reached e = .run phase p)
    (hp : phase = .inProgress ∨ phase = .completed) :
    p.correlationId = e.run.correlationId ∧ p.totalSize = e.run.totalSize ∧
      (phase = .completed ↔ p.totalSize ≤ p.processed) ∧ p.processed ≤ max 1 p.totalSize ∧
      ∃ old rest, old ++ rest = events ++ [e] ∧ Counted old rest e.key p := by
  unfold reached at hn
  cases hf : (({} : Tracker).after events).found? e
  case none =>
    rw [hf] at hn
    cases hn
    refine ⟨rfl, rfl, ?_, Nat.le_max_left .., events, [e], rfl, ?_⟩
    · dsimp only
      split <;> simp [*]
    · exact counted_of_begins (begins_of_found?_eq_none hr hf)
  case some s =>
    rw [hf, Option.getD_some] at hn
    have ⟨_, hs⟩ := session?_of_found? hf
    have ht := tidy_after events e.key s hs
    cases s
    case init => cases ht
    case run phase' q =>
      cases phase'
      case completed => cases ht
      case inProgress =>
        have ⟨hlt, old, rest, he, hc⟩ := h e.key q hs
        have ⟨first, _, _, hk, hi, _⟩ := hc.since.begins
        have hi := correlationId_of_found? hf hk hi
        have ⟨ht, hq, hdone⟩ := next_of_inProgress hn hp
        have ha : (({} : Tracker).after (old ++ rest)).Active e.key q.correlationId :=
          ⟨_, q, he ▸ hs, rfl, rfl⟩
        subst hq
        refine ⟨hi.symm, ht, hdone, (Nat.succ_le_of_lt hlt).trans (Nat.le_max_right ..), old,
          rest ++ [e], ?_, hc.count ha rfl hi ht.symm⟩
        rw [← List.append_assoc, he]
      all_goals
        cases hn
        simp at hp

theorem InStep.concat (h : InStep events) (e : Event) : InStep (events ++ [e]) := by
  intro key p hs
  rw [after_concat] at hs
  -- An event that is not one of the run leaves it as it was.
  have hskip (hs : (({} : Tracker).after events).session? key = some (.run .inProgress p))
      (he : ¬(e.key = key ∧ e.run.correlationId = p.correlationId)) :
      p.processed < p.totalSize ∧
        ∃ old rest, old ++ rest = events ++ [e] ∧ Counted old rest key p := by
    have ⟨hlt, old, rest, hevents, hc⟩ := h key p hs
    have ha : (({} : Tracker).after (old ++ rest)).Active key p.correlationId :=
      ⟨_, p, hevents ▸ hs, rfl, rfl⟩
    exact ⟨hlt, old, rest ++ [e], by rw [← List.append_assoc, hevents], hc.skip ha he⟩
  by_cases hk : e.key = key
  case neg =>
    rw [session?_take_of_ne _ hk] at hs
    exact hskip hs fun he => hk he.1
  case pos =>
    by_cases hr : (({} : Tracker).after events).rejected e
    case pos =>
      rw [take_of_rejected hr] at hs
      refine hskip hs fun ⟨_, hi⟩ => ?_
      have hm := rejected_iff.mp hr
      rw [hk] at hm
      cases key
      case full type =>
        exact (apart_empty.after events).active _ p hs rfl (hi ▸ hm)
      case keyed => cases hm
    case neg =>
      rw [← hk, session?_take hr] at hs
      have hn := (Session.eq_of_tracked? hs).symm
      have ⟨_, _, hdone, _, hc⟩ := h.exists_counted hr hn (.inl rfl)
      exact ⟨Nat.lt_of_not_le (mt hdone.mpr nofun), hk ▸ hc⟩

theorem inStep (events : List Event) : InStep events := by
  induction events using List.reverseRecOn
  case nil => exact nofun
  case append_singleton events e hi => exact hi.concat e

theorem answer_ne_completed (before : Option Session) (cutoff : Option Int)
    (h : phase ≠ .completed) : answer before phase ≠ .completed cutoff := by
  cases phase
  case inProgress => cases before <;> simp [answer]
  case completed => exact absurd rfl h
  all_goals simp [answer]

theorem reached_of_completed {cutoff : Option Int}
    (h : (tracker.take e).1 = .completed cutoff) : ¬tracker.rejected e ∧
      ∃ p, tracker.reached e = .run .completed p ∧
        cutoff = if e.run.kind = .full then some p.startedAt else none := by
  by_cases hr : tracker.rejected e
  case pos =>
    rw [take_of_rejected hr] at h
    cases h
  case neg =>
    refine ⟨hr, ?_⟩
    rw [take_of_accepted hr, reply] at h
    dsimp only at h
    split at h
    case h_1 => cases h
    case h_2 p hn => exact ⟨p, hn, (Outcome.completed.inj h).symm⟩
    case h_3 _ _ _ hne hn =>
      split at h
      case isTrue => cases h
      case isFalse =>
        split at h
        case h_1 => cases h
        case h_2 => exact absurd h (answer_ne_completed _ _ hne)

-- What is answered to be complete is a run with as many events as each of them declared, and a run
-- with as many events as each of them declares is answered to be complete by the last of them.
theorem completes_runs :
    (∀ events last cutoff,
      ((({} : Tracker).after events).take last).1 = .completed cutoff →
      ∃ old rest, old ++ rest = events ++ [last] ∧
        Since old rest last.key last.run.correlationId ∧
        let parts := partsOf last.key last.run.correlationId rest
        parts.length = max 1 last.run.totalSize ∧
        (∀ e ∈ parts, e.run.totalSize = last.run.totalSize) ∧
        cutoff = (if last.run.kind = .full then (parts.map (·.timestamp)).min? else none) ∧
        ((({} : Tracker).after events).take last).2.session? last.key = none) ∧
    ∀ (tracker : Tracker) (type : Descriptor) (m : SyncMetadata) (events : List Event),
      let key := RunKey.ofEvent type m
      let parts := events.filter (·.key = key)
      tracker.session? key = none →
      (m.kind = .full → m.correlationId ∉ tracker.supersededOf type) →
      2 ≤ m.totalSize → (∀ e ∈ parts, e.run = m) → parts.length = m.totalSize →
      ((tracker.answers events).filter (·.1.key = key)).map (·.2) =
        .started :: (List.replicate (m.totalSize - 2) .incremented ++
          [.completed (if m.kind = .full then (parts.map (·.timestamp)).min? else none)]) := by
  constructor
  case left =>
    intro events last cutoff h
    have ⟨hr, p, hn, hcut⟩ := reached_of_completed h
    have ⟨hi, ht, hdone, hle, old, rest, he, hc⟩ := (inStep events).exists_counted hr hn (.inr rfl)
    refine ⟨old, rest, he, hi ▸ hc.since, ?_⟩
    dsimp only
    rw [← hi, ← ht, hc.startedAt, session?_take hr, hn, hc.length]
    exact ⟨hle.antisymm (max_le hc.pos (hdone.mp rfl)), hc.total, hcut, rfl⟩
  case right =>
    intro tracker type m events key parts hidle hfresh htwo hagree hlength
    have hamid : tracker.Amid type m [] := by
      refine ⟨?_, hidle⟩
      cases hk : m.kind
      case full => exact ofEvent_eq_full hk ▸ hfresh hk
      all_goals simp [RunKey.ofEvent, hk, lane]
    have hparts : ∀ e ∈ parts, e.type = type ∧ e.run = m := fun e he => by
      have hrun := hagree e he
      have hkey : e.key = key := by simpa using (List.mem_filter.mp he).2
      exact ⟨type_of_key (hrun ▸ hkey), hrun⟩
    rw [(answers_filter_of_lane events rfl).1]
    exact hamid.answers_all hparts htwo hlength

section Beside

open Roster

-- A FULL run of groups up to its last event, beside a DELTA run of groups and a FULL run of
-- students, the former with the same id.
def beside : List Event := [
  ⟨group, ⟨.full, "a", 3⟩, 5⟩, ⟨group, ⟨.delta, "a", 2⟩, 1⟩, ⟨group, ⟨.full, "a", 3⟩, 4⟩,
  ⟨student, ⟨.full, "b", 2⟩, 0⟩]

theorem completes_runs_beside :
    let last : Event := ⟨group, ⟨.full, "a", 3⟩, 6⟩
    ((({} : Tracker).answers (beside ++ [last])).filter (·.1.key = .full group)).map (·.2) =
        [.started, .incremented, .completed (some 4)] ∧
      ∃ old rest, old ++ rest = beside ++ [last] ∧ Since old rest (.full group) "a" ∧
        (partsOf (.full group) "a" rest).length = 3 := by
  intro last
  have ⟨hsound, hcomplete⟩ := completes_runs
  constructor
  case left =>
    exact hcomplete {} group ⟨.full, "a", 3⟩ (beside ++ [last]) rfl (fun _ => nofun) (by decide)
      (by decide +kernel) (by decide +kernel)
  case right =>
    have ⟨old, rest, he, hs, hl, _⟩ := hsound beside last (some 4) (by decide +kernel)
    exact ⟨old, rest, he, hs, hl⟩

end Beside

end Tracker
end LinkedCache.Sync
