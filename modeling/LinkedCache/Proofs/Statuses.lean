import LinkedCache.Proofs.Descriptor
import LinkedCache.Proofs.Failing

-- The runs under way against their keys. A run is of the type and, unless it is a FULL run, has the
-- id that its key says, and it counts events of its own id only. So a tracker can list its runs by
-- their keys, and tell the events of a run that failed from those of one that takes its place.

namespace LinkedCache

namespace Sync

namespace RunKey

-- FULL runs stand before all others.
def tier : RunKey → Nat
  | full _ => 0
  | keyed .. => 1

def correlationId? : RunKey → Option String
  | full _ => none
  | keyed _ _ id => some id

theorem compare_eq_compareLex : compare =
    compareLex (compareOn tier) (compareLex (compareOn (·.type.domain))
      (compareLex (compareOn (·.type.package)) (compareLex (compareOn (·.type.name))
        (compareLex (compareOn (rank ·.kind)) (compareOn (·.correlationId?.getD "")))))) := by
  funext a b
  cases a <;> cases b
  case full.full =>
    simp [compare, compareLex, compareOn, Descriptor.compare, tier, type, kind, correlationId?]
  case full.keyed => rfl
  case keyed.full => rfl
  case keyed.keyed =>
    simp [compare, compareLex, compareOn, Descriptor.compare, tier, type, kind, correlationId?,
      Ordering.then_assoc]

instance : Std.TransCmp compare :=
  compare_eq_compareLex ▸ inferInstance

theorem rank_inj {k l : SyncKind} (h : rank k = rank l) : k = l := by
  cases k <;> cases l <;> first | rfl | cases h

theorem eq_of_compare {a b : RunKey} (h : a.compare b = .eq) : a = b := by
  cases a <;> cases b
  case full.full => exact congrArg full (Descriptor.compare_eq_iff.mp h)
  case full.keyed => cases h
  case keyed.full => cases h
  case keyed.keyed =>
    simp only [compare, Ordering.then_eq_eq, Std.compare_eq_iff_eq] at h
    rw [Descriptor.compare_eq_iff.mp h.1, rank_inj h.2.1, h.2.2]

end RunKey

-- A run that goes on counts one event more, and keeps its id.
theorem Session.Within.progress?_next {s : Session} {i : Input} {p q : Progress} {name : String}
    (h : s.Within name) (hp : s.progress? = some p) (hq : (s.next i).progress? = some q) :
    q.processed = p.processed + 1 ∧ q.correlationId = p.correlationId := by
  cases s
  case init => cases h
  case run phase p' =>
    cases hp
    cases phase
    case inProgress =>
      unfold Session.next advance at hq
      dsimp only at hq
      split at hq
      case isTrue => cases hq; exact ⟨rfl, rfl⟩
      case isFalse => split at hq <;> cases hq <;> exact ⟨rfl, rfl⟩
    case totalSizeChanged => cases hq; exact ⟨rfl, rfl⟩
    case failedAndUntracked => cases hq; exact ⟨rfl, rfl⟩
    all_goals cases h

theorem Outcome.evictBefore?_eq_some {outcome : Outcome} {cutoff : Int}
    (h : outcome.evictBefore? = some cutoff) : outcome = .completed (some cutoff) := by
  cases outcome
  case completed => exact congrArg completed h
  all_goals cases h

namespace Tracker

variable {tracker : Tracker} {key : RunKey} {e : Event} {s : Session} {phase : Phase} {p : Progress}
  {counted before events : List Event}

-- The events that the run of a key has counted, where those in `before` are from before.
def tallyFrom (tracker : Tracker) (key : RunKey) (before : List Event) :
    List Event → List Event
  | [] => before
  | e :: events =>
    (tracker.take e).2.tallyFrom key
      (if e.key ≠ key ∨ tracker.rejected e then before
      else if tracker.found? e = none then [e] else before ++ [e])
      events

-- The events that the run of a key has counted since it began.
def tally (events : List Event) (key : RunKey) : List Event :=
  ({} : Tracker).tallyFrom key [] events

theorem tallyFrom_concat : tracker.tallyFrom key before (events ++ [e]) =
    if e.key ≠ key ∨ (tracker.after events).rejected e then tracker.tallyFrom key before events
    else if (tracker.after events).found? e = none then [e]
    else tracker.tallyFrom key before events ++ [e] := by
  induction events generalizing tracker before
  case nil => rfl
  case cons e' events hi => exact hi

theorem tally_concat : tally (events ++ [e]) key =
    if e.key ≠ key ∨ (({} : Tracker).after events).rejected e then tally events key
    else if (({} : Tracker).after events).found? e = none then [e]
    else tally events key ++ [e] :=
  tallyFrom_concat

-- What a run has counted: as many events as it says, each of them one of its own.
structure Tallies (counted : List Event) (key : RunKey) (p : Progress) : Prop where
  nonempty : counted ≠ []
  length : counted.length = p.processed
  own : ∀ e ∈ counted, e.key = key ∧ e.run.correlationId = p.correlationId

theorem Tallies.exists_mem (h : Tallies counted key p) :
    ∃ first : Event, first.key = key ∧ first.run.correlationId = p.correlationId :=
  have ⟨first, _, hc⟩ := List.exists_cons_of_ne_nil h.nonempty
  ⟨first, h.own first (hc ▸ .head _)⟩

theorem Tallies.correlationId_eq {id : String} (h : Tallies counted key p)
    (hk : key.correlationId? = some id) : p.correlationId = id := by
  have ⟨first, hfirst, hi⟩ := h.exists_mem
  rw [← hfirst, Event.key, RunKey.ofEvent] at hk
  split at hk
  case h_1 => cases hk
  case h_2 =>
    cases hk
    exact hi.symm

theorem Tallies.concat {q : Progress} (h : Tallies counted e.key p)
    (hn : q.processed = p.processed + 1) (hq : q.correlationId = p.correlationId)
    (he : e.run.correlationId = p.correlationId) : Tallies (counted ++ [e]) e.key q where
  nonempty := List.append_ne_nil_of_right_ne_nil _ (List.cons_ne_nil _ _)
  length := by rw [List.length_append, List.length_singleton, h.length, hn]
  own := by
    rw [List.forall_mem_append, List.forall_mem_singleton, hq]
    exact ⟨h.own, rfl, he⟩

theorem tallies_tally (events : List Event) (key : RunKey)
    (hs : (({} : Tracker).after events).session? key = some s) (hp : s.progress? = some p) :
    Tallies (tally events key) key p := by
  induction events using List.reverseRecOn generalizing s p
  case nil => cases hs
  case append_singleton events e hi =>
    rw [after_concat] at hs
    rw [tally_concat]
    by_cases hk : e.key = key
    case neg =>
      rw [session?_take_of_ne _ hk] at hs
      rw [if_pos (.inl hk)]
      exact hi hs hp
    case pos =>
      by_cases hr : (({} : Tracker).after events).rejected e
      case pos =>
        rw [take_of_rejected hr] at hs
        rw [if_pos (.inr hr)]
        exact hi hs hp
      case neg =>
        subst hk
        rw [session?_take hr] at hs
        obtain rfl := Session.eq_of_tracked? hs
        rw [if_neg (by simp [hr])]
        unfold reached at hp
        cases hf : (({} : Tracker).after events).found? e
        case none =>
          rw [hf] at hp
          cases hp
          rw [if_pos rfl]
          refine ⟨List.cons_ne_nil _ _, rfl, fun e' he => ?_⟩
          rw [List.mem_singleton.mp he]
          exact ⟨rfl, rfl⟩
        case some s =>
          rw [hf, Option.getD_some] at hp
          rw [if_neg nofun]
          have ⟨_, hs⟩ := session?_of_found? hf
          have hw := within_after events e.key s hs
          obtain ⟨phase, q, rfl, -⟩ := hw.eq_run
          have ht := hi hs rfl
          have ⟨hn, hq⟩ := hw.progress?_next rfl hp
          have ⟨_, hfirst, hid⟩ := ht.exists_mem
          exact ht.concat hn hq (correlationId_of_found? hf hfirst hid)

section Failed

variable (hs : tracker.session? e.key = some (.run phase p)) (hphase : phase.isFailed)

include hs hphase

-- An event of a run that failed is not turned away, and is not reported.
theorem take_of_failed (hr : ¬tracker.rejected e) (hi : p.correlationId = e.run.correlationId) :
    (tracker.take e).1 = .untracked := by
  have ho := overtakenBy?_of_session? hs hi
  have hf : tracker.found? e = some (.run phase p) := (found?_eq_session? ho).trans hs
  rw [take_of_accepted hr, reply, reached, hf, Option.getD_some, Session.next_of_isFailed hphase,
    ho]
  exact ite_self _

-- What completes a run under the key of one that failed is the only event of a run that takes its
-- place.
theorem overtakenBy?_of_failed {cutoff : Option Int}
    (h : (tracker.take e).1 = .completed cutoff) :
    tracker.overtakenBy? e.type e.run = some p.correlationId ∧ cutoff = some e.timestamp := by
  have ⟨hr, q, hq, hcutoff⟩ := reached_of_completed h
  cases ho : tracker.overtakenBy? e.type e.run
  case none =>
    have hf : tracker.found? e = some (.run phase p) := (found?_eq_session? ho).trans hs
    rw [reached, hf, Option.getD_some, Session.next_of_isFailed hphase] at hq
    cases hq
  case some id =>
    obtain ⟨hfull, -, p', hp', hid⟩ := overtakenBy?_eq_some.mp ho
    rw [← key_eq_full.mpr ⟨rfl, hfull⟩, hs] at hp'
    cases hp'
    rw [reached, found?_of_overtaking ho] at hq
    obtain rfl : _ = q := (Session.run.inj hq).2
    exact ⟨congrArg some hid.symm, hcutoff.trans (if_pos hfull)⟩

end Failed

theorem not_rejected_of_active (hs : (({} : Tracker).after events).session? e.key = some s)
    (hp : s.progress? = some p) (hi : p.correlationId = e.run.correlationId) :
    ¬(({} : Tracker).after events).rejected e := by
  rw [rejected_iff, ← hi]
  cases hk : e.key
  case full type => exact (apart_empty.after events).active s p (hk ▸ hs) hp
  case keyed => exact List.not_mem_nil

-- Events of one type never name another one.
theorem take_ne_resourceNameChanged (events : List Event) (e : Event) :
    ((({} : Tracker).after events).take e).1 ≠ .resourceNameChanged := by
  intro h
  have ⟨hr, phase, p, hn, ha⟩ := reached_of_contradiction h (.inl rfl)
  cases phase
  case inProgress => cases hf : (({} : Tracker).after events).found? e <;> simp [answer, hf] at ha
  case resourceNameChanged =>
    have hs : ((({} : Tracker).after events).take e).2.session? e.key =
        some (.run .resourceNameChanged p) := by
      rw [session?_take hr, hn]
      rfl
    exact (within_after events).take e e.key _ hs
  all_goals cases ha

-- The entries of a tracker as its list of runs gives them.
def Status.entry (status : Status) : RunKey × Session :=
  (status.key, .run status.phase status.progress)

theorem map_statuses (h : ∀ key s, (key, s) ∈ tracker.active → ∃ phase p, s = .run phase p) :
    tracker.statuses.map Status.entry =
      tracker.active.mergeSort fun a b => (a.1.compare b.1).isLE := by
  unfold statuses
  have hrun : ∀ m ∈ tracker.active.mergeSort fun a b => (a.1.compare b.1).isLE,
      ∃ phase p, m.2 = .run phase p := fun m hm =>
    h m.1 m.2 ((List.mergeSort_perm ..).mem_iff.mp hm)
  generalize (tracker.active.mergeSort fun a b => (a.1.compare b.1).isLE) = active at hrun ⊢
  induction active
  case nil => rfl
  case cons m active hi =>
    have ⟨⟨phase, p, hp⟩, hrest⟩ := List.forall_mem_cons.mp hrun
    obtain ⟨key, s⟩ := m
    obtain rfl : s = .run phase p := hp
    rw [List.filterMap_cons]
    exact congrArg _ (hi hrest)

-- Each run is listed once, and the one with the smaller key stands before the other.
theorem pairwise_statuses (hk : tracker.Keyed)
    (h : tracker.statuses.map Status.entry =
      tracker.active.mergeSort fun a b => (a.1.compare b.1).isLE) :
    tracker.statuses.Pairwise fun a b => a.key.compare b.key = .lt := by
  have hle : (tracker.active.mergeSort fun a b => (a.1.compare b.1).isLE).Pairwise
      fun a b => (a.1.compare b.1).isLE :=
    List.pairwise_mergeSort (fun _ _ _ => Std.TransCmp.isLE_trans)
      (fun a b => isLE_total a.1 b.1) _
  have hne : (tracker.active.mergeSort fun a b => (a.1.compare b.1).isLE).Pairwise
      fun a b => a.1 ≠ b.1 :=
    List.pairwise_map.mp ((List.mergeSort_perm ..).map _ |>.nodup_iff.mpr hk)
  have hlt := hle.and hne
  rw [← h, List.pairwise_map] at hlt
  refine hlt.imp fun {a b} ⟨hle, hne⟩ => ?_
  cases hc : a.key.compare b.key
  case lt => rfl
  case eq => exact absurd (RunKey.eq_of_compare hc) hne
  case gt => simp [Status.entry, hc] at hle

-- What can be told of a run from the key under which it is tracked.
structure Fits (events : List Event) (key : RunKey) (phase : Phase) (p : Progress) : Prop where
  phase : phase = .inProgress ∨ phase = .totalSizeChanged ∨ phase = .failedAndUntracked
  resource : p.resource = key.type.name
  correlationId : ∀ id, key.correlationId? = some id → p.correlationId = id
  length : (tally events key).length = p.processed
  own : ∀ e ∈ tally events key, e.key = key ∧ e.run.correlationId = p.correlationId

theorem fits_of_session? (hs : (({} : Tracker).after events).session? key = some s) :
    ∃ phase p, s = .run phase p ∧ Fits events key phase p := by
  have hw := within_after events key s hs
  obtain ⟨phase, p, rfl, -⟩ := hw.eq_run
  have ht := tallies_tally events key hs rfl
  refine ⟨phase, p, rfl, ?_, ?_, fun _ => ht.correlationId_eq, ht.length, ht.own⟩
  all_goals cases phase
  case refine_1.inProgress => exact .inl rfl
  case refine_1.totalSizeChanged => exact .inr (.inl rfl)
  case refine_1.failedAndUntracked => exact .inr (.inr rfl)
  case refine_2.inProgress => exact hw.1
  case refine_2.totalSizeChanged => exact hw.1
  case refine_2.failedAndUntracked => exact hw.1
  all_goals cases hw

-- The runs that a tracker lists are those under way, each of them under the key of all events that
-- it counts. No event is ever taken for one of another type, and what completes a run under the key
-- of one that failed belongs to a run that has taken its place.
theorem statuses_perm_active (events : List Event) :
    let tracker := ({} : Tracker).after events
    (∀ key s, (key, s) ∈ tracker.active → ∃ phase p, s = .run phase p ∧
      Fits events key phase p) ∧
    (∀ e, (tracker.take e).1 ≠ .resourceNameChanged) ∧
    (tracker.statuses.map Status.entry).Perm tracker.active ∧
    (tracker.statuses.Pairwise fun a b => a.key.compare b.key = .lt) ∧
    ∀ key phase p, (key, .run phase p) ∈ tracker.active → phase.isFailed →
      ∀ e : Event, e.key = key →
        (e.run.correlationId = p.correlationId → (tracker.take e).1 = .untracked) ∧
        ∀ cutoff, (tracker.take e).1.evictBefore? = some cutoff →
          tracker.overtakenBy? e.type e.run = some p.correlationId ∧ cutoff = e.timestamp := by
  intro tracker
  have hkeyed : tracker.Keyed := keyed_after events
  have hsession {key s} (hm : (key, s) ∈ tracker.active) : tracker.session? key = some s :=
    Assoc.lookup_of_mem hkeyed hm
  have hfits : ∀ key s, (key, s) ∈ tracker.active → ∃ phase p, s = .run phase p ∧
      Fits events key phase p := fun _ _ hm => fits_of_session? (hsession hm)
  have hstatuses := map_statuses fun key s hm =>
    have ⟨phase, p, hs, _⟩ := hfits key s hm
    ⟨phase, p, hs⟩
  refine ⟨hfits, take_ne_resourceNameChanged events, hstatuses ▸ List.mergeSort_perm ..,
    pairwise_statuses hkeyed hstatuses, ?_⟩
  intro key phase p hm hphase e hk
  have hs := hsession hm
  subst hk
  constructor
  case left =>
    intro hi
    exact take_of_failed hs hphase (not_rejected_of_active hs rfl hi.symm) hi.symm
  case right =>
    intro cutoff hc
    have ⟨ho, hcutoff⟩ := overtakenBy?_of_failed hs hphase (Outcome.evictBefore?_eq_some hc)
    exact ⟨ho, Option.some.inj hcutoff⟩

section Crowded

open Roster

-- A FULL run of groups that failed with its second event, beside a DELTA run of groups with its id
-- and a FULL run of students.
def crowded : List Event := [
  ⟨group, ⟨.delta, "a", 3⟩, 1⟩, ⟨student, ⟨.full, "b", 2⟩, 3⟩, ⟨group, ⟨.full, "a", 3⟩, 5⟩,
  ⟨group, ⟨.full, "a", 4⟩, 2⟩]

theorem statuses_perm_active_crowded :
    let tracker := ({} : Tracker).after crowded
    let p : Progress := ⟨"group", "a", 3, 2, 2⟩
    (.full group, .run .totalSizeChanged p) ∈ tracker.active ∧
      (tally crowded (.full group)).length = p.processed ∧
      (tracker.take ⟨group, ⟨.full, "a", 3⟩, 9⟩).1 = .untracked ∧
      (tracker.take ⟨group, ⟨.full, "z", 1⟩, 9⟩).1.evictBefore? = some 9 ∧
      tracker.overtakenBy? group ⟨.full, "z", 1⟩ = some "a" := by
  intro tracker p
  have ⟨hfits, _, _, _, hfailed⟩ := statuses_perm_active crowded
  have hm : (.full group, .run .totalSizeChanged p) ∈ tracker.active := by decide +kernel
  have hcutoff : (tracker.take ⟨group, ⟨.full, "z", 1⟩, 9⟩).1.evictBefore? = some 9 := by
    decide +kernel
  have ⟨huntracked, _⟩ := hfailed _ _ p hm rfl ⟨group, ⟨.full, "a", 3⟩, 9⟩ rfl
  have ⟨_, hreplaced⟩ := hfailed _ _ p hm rfl ⟨group, ⟨.full, "z", 1⟩, 9⟩ rfl
  obtain ⟨phase, q, hq, hfit⟩ := hfits _ _ hm
  cases hq
  exact ⟨hm, hfit.length, huntracked rfl, hcutoff, (hreplaced 9 hcutoff).1⟩

end Crowded

end Tracker
end Sync
end LinkedCache
