import LinkedCache.Proofs.Tracking

-- The runs of one key go on as if there were no others: FULL runs of a type, or the DELTA or DELETE
-- run of a type with one correlation id.

namespace LinkedCache.Sync

-- An event as a tracker is told of it.
structure Event where
  type : Descriptor
  run : SyncMetadata
  timestamp : Int
deriving DecidableEq

namespace Event

def key (e : Event) : RunKey :=
  .ofEvent e.type e.run

def input (e : Event) : Input :=
  ⟨e.type.name, e.run.correlationId, e.run.totalSize, e.timestamp⟩

end Event

-- A run is not tracked any longer when it is complete, or when it failed and has seen as many
-- events as it declared.
def Session.tracked? : Session → Option Session
  | .init | .run .completed _ => none
  | .run phase p =>
    if (phase = .failedAndUntracked ∨ phase = .concurrentFullSync) ∧ p.totalSize ≤ p.processed then
      none
    else some (.run phase p)

theorem Session.eq_of_tracked? {s s' : Session} (h : s.tracked? = some s') : s' = s := by
  unfold tracked? at h
  split at h
  case h_3 => split at h <;> cases h; rfl
  all_goals cases h

namespace Tracker

variable {tracker tracker' : Tracker} {type : Descriptor} {m : SyncMetadata} {key : RunKey}
  {s : Session} {e : Event} {events : List Event}

def take (tracker : Tracker) (e : Event) : Outcome × Tracker :=
  tracker.record e.type e.run e.timestamp

def after (tracker : Tracker) (events : List Event) : Tracker :=
  events.foldl (fun tracker e => (tracker.take e).2) tracker

theorem after_append (tracker : Tracker) (events later : List Event) :
    tracker.after (events ++ later) = (tracker.after events).after later :=
  List.foldl_append

theorem after_induct {P : Tracker → Prop} (h : P tracker)
    (hs : ∀ tracker e, P tracker → P (tracker.take e).2) (events : List Event) :
    P (tracker.after events) := by
  induction events generalizing tracker
  case nil => exact h
  case cons e events hi => exact hi (hs tracker e h)

-- Some events in a row, each with the answer to it.
def answers (tracker : Tracker) : List Event → List (Event × Outcome)
  | [] => []
  | e :: events => (e, (tracker.take e).1) :: (tracker.take e).2.answers events

def rejected (tracker : Tracker) (e : Event) : Bool :=
  tracker.rejects e.type e.run

-- The run that an event goes on with, if it does not begin one.
def found? (tracker : Tracker) (e : Event) : Option Session :=
  (tracker.makeWay e.type e.run).session? e.key

def reached (tracker : Tracker) (e : Event) : Session :=
  ((tracker.found? e).getD .init).next e.input

-- The answer to an event that is not turned away.
def reply (tracker : Tracker) (e : Event) : Outcome :=
  match tracker.reached e with
  | .init => .untracked
  | .run .completed p => .completed (if e.run.kind = .full then some p.startedAt else none)
  | .run phase p =>
    if answer (tracker.found? e) phase = .untracked ∧ p.totalSize ≤ p.processed then .untracked
    else
      match tracker.overtakenBy? e.type e.run with
      | some old => .concurrentFullSync old
      | none => answer (tracker.found? e) phase

theorem answer_eq_untracked_iff {before : Option Session} {phase : Phase} :
    answer before phase = .untracked ↔
      phase = .failedAndUntracked ∨ phase = .concurrentFullSync := by
  cases phase <;> simp [answer]
  split <;> simp

@[simp]
theorem lane_drop : (tracker.drop key).lane key = { tracker.lane key with session := none } := by
  cases key <;> simp [lane]

@[simp]
theorem lane_keep : (tracker.keep key s).lane key =
    { tracker.lane key with session := some s } := by
  cases key <;> simp [lane]

theorem lane_take_of_ne (h : e.key ≠ key) : (tracker.take e).2.lane key = tracker.lane key :=
  tracker.lane_record_of_ne e.timestamp h

theorem session?_take_of_ne (tracker : Tracker) (h : e.key ≠ key) :
    (tracker.take e).2.session? key = tracker.session? key :=
  congrArg Lane.session (lane_take_of_ne h)

theorem supersededOf_take_of_ne (tracker : Tracker) (h : e.key ≠ .full type) :
    (tracker.take e).2.supersededOf type = tracker.supersededOf type :=
  congrArg Lane.superseded (lane_take_of_ne h)

theorem key_eq_full : e.key = .full type ↔ e.type = type ∧ e.run.kind = .full := by
  unfold Event.key RunKey.ofEvent
  cases e.run.kind <;> simp

theorem rejected_iff :
    tracker.rejected e ↔ e.run.correlationId ∈ (tracker.lane e.key).superseded := by
  unfold rejected rejects
  cases hk : e.run.kind
  case full => simp [key_eq_full.mpr ⟨rfl, hk⟩, lane]
  all_goals simp [Event.key, RunKey.ofEvent, hk, lane]

-- An event of the run under way, if there is one, overtakes nothing.
theorem overtakenBy?_eq_none
    (h : ∀ p, (tracker.session? e.key).bind Session.progress? = some p →
      p.correlationId = e.run.correlationId) :
    tracker.overtakenBy? e.type e.run = none := by
  refine Option.eq_none_iff_forall_ne_some.mpr fun id ho => ?_
  have ⟨hfull, hne, p, hp, hid⟩ := overtakenBy?_eq_some.mp ho
  rw [← key_eq_full.mpr ⟨rfl, hfull⟩] at hp
  exact hne (hid ▸ h p hp)

theorem found?_of_overtaking {id : String} (h : tracker.overtakenBy? e.type e.run = some id) :
    tracker.found? e = none := by
  simp [found?, makeWay, h, key_eq_full.mpr ⟨rfl, (overtakenBy?_eq_some.mp h).1⟩]

theorem found?_eq_session? (h : tracker.overtakenBy? e.type e.run = none) :
    tracker.found? e = tracker.session? e.key := by
  simp [found?, makeWay, h]

theorem take_of_rejected (h : tracker.rejected e) : tracker.take e = (.rejected, tracker) :=
  if_pos h

theorem take_of_accepted (h : ¬tracker.rejected e) : tracker.take e = (tracker.reply e,
    (tracker.reached e).tracked?.elim ((tracker.makeWay e.type e.run).drop e.key)
      ((tracker.makeWay e.type e.run).keep e.key)) := by
  unfold rejected at h
  unfold take record reply
  rw [if_neg h]
  dsimp only
  cases hr : tracker.reached e
  case init =>
    simp only [reached, found?, Event.key, Event.input] at hr
    simp only [hr]
    rfl
  case run phase p =>
    simp only [reached, found?, Event.key, Event.input] at hr
    simp only [hr, answer_eq_untracked_iff]
    cases phase
    case failedAndUntracked | concurrentFullSync =>
      simp only [Session.tracked?, true_or, or_true, true_and]
      split <;> rfl
    all_goals rfl

-- What an event leaves of the runs of its key, unless it is turned away.
theorem lane_take (h : ¬tracker.rejected e) : (tracker.take e).2.lane e.key =
    ⟨(tracker.reached e).tracked?, ((tracker.makeWay e.type e.run).lane e.key).superseded⟩ := by
  rw [take_of_accepted h]
  cases (tracker.reached e).tracked?
  case none => exact lane_drop
  case some s => exact lane_keep

theorem session?_take (h : ¬tracker.rejected e) :
    (tracker.take e).2.session? e.key = (tracker.reached e).tracked? :=
  congrArg Lane.session (lane_take h)

section Congr

-- An event cannot tell trackers apart that know the same about the runs of its key.
variable (h : tracker'.lane e.key = tracker.lane e.key)

include h

theorem rejected_congr : tracker'.rejected e = tracker.rejected e := by
  rw [Bool.eq_iff_iff, rejected_iff, rejected_iff, h]

theorem overtakenBy?_congr :
    tracker'.overtakenBy? e.type e.run = tracker.overtakenBy? e.type e.run := by
  unfold overtakenBy?
  cases hk : e.run.kind
  case full =>
    rw [Event.key, ofEvent_eq_full hk] at h
    have hs : tracker'.session? (.full e.type) = tracker.session? (.full e.type) :=
      congrArg Lane.session h
    rw [hs]
  all_goals rfl

theorem lane_makeWay_congr : (tracker'.makeWay e.type e.run).lane e.key =
    (tracker.makeWay e.type e.run).lane e.key := by
  unfold makeWay
  rw [overtakenBy?_congr h]
  split
  case h_2 => exact h
  case h_1 old ho =>
    rw [Event.key, ofEvent_eq_full (overtakenBy?_eq_some.mp ho).1] at h ⊢
    have hs : tracker'.supersededOf e.type = tracker.supersededOf e.type :=
      congrArg Lane.superseded h
    simp [lane, hs]

theorem take_congr : (tracker'.take e).1 = (tracker.take e).1 ∧
    (tracker'.take e).2.lane e.key = (tracker.take e).2.lane e.key := by
  have hr := rejected_congr h
  by_cases ha : tracker.rejected e
  case pos =>
    rw [take_of_rejected ha, take_of_rejected (hr ▸ ha)]
    exact ⟨rfl, h⟩
  case neg =>
    have hw := lane_makeWay_congr h
    have hf : tracker'.found? e = tracker.found? e := congrArg Lane.session hw
    have hn : tracker'.reached e = tracker.reached e := by rw [reached, hf, reached]
    have ha' : ¬tracker'.rejected e := hr ▸ ha
    constructor
    · rw [take_of_accepted ha, take_of_accepted ha', reply, hn, hf, overtakenBy?_congr h, reply]
    · rw [lane_take ha, lane_take ha', hn, hw]

end Congr

-- What is answered to the events of a key, and what they leave, is what they would be answered and
-- would leave by themselves.
theorem answers_filter_of_lane (events : List Event)
    (h : tracker'.lane key = tracker.lane key) :
    let alone := events.filter (·.key = key)
    (tracker.answers events).filter (·.1.key = key) = tracker'.answers alone ∧
      (tracker.after events).lane key = (tracker'.after alone).lane key := by
  induction events generalizing tracker tracker'
  case nil => exact ⟨rfl, h.symm⟩
  case cons e events hi =>
    by_cases hk : e.key = key
    case pos =>
      subst hk
      have ⟨ho, hl⟩ := take_congr h
      have ⟨ha, hs⟩ := hi hl
      rw [List.filter_cons_of_pos (by simp)]
      refine ⟨?_, hs⟩
      rw [answers, answers, List.filter_cons_of_pos (by simp), ha, ho]
    case neg =>
      have ⟨ha, hs⟩ := hi (h.trans (lane_take_of_ne hk).symm)
      rw [List.filter_cons_of_neg (by simp [hk])]
      refine ⟨?_, hs⟩
      rw [answers, List.filter_cons_of_neg (by simp [hk]), ha]

theorem answers_filter (events : List Event) (key : RunKey) :
    let alone := events.filter (·.key = key)
    (({} : Tracker).answers events).filter (·.1.key = key) = ({} : Tracker).answers alone ∧
      (({} : Tracker).after events).lane key = (({} : Tracker).after alone).lane key :=
  answers_filter_of_lane events rfl

end Tracker
end LinkedCache.Sync
