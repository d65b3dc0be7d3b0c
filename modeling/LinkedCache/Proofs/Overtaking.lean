import LinkedCache.Proofs.Lanes
import LinkedCache.Proofs.Roster

-- FULL runs that were overtaken. Their ids are remembered, the latest ones of each type, and events
-- that still come in for them are turned away.

namespace LinkedCache.Sync

theorem correlationId_next {s : Session} {i : Input} {p : Progress}
    (h : (s.next i).progress? = some p)
    (hs : ∀ q, s.progress? = some q → q.correlationId = i.correlationId) :
    p.correlationId = i.correlationId := by
  cases s
  case init => cases h; rfl
  case run phase q =>
    have hq := hs q rfl
    cases phase
    case completed => cases h; rfl
    case inProgress =>
      unfold Session.next Session.advance at h
      dsimp only at h
      split at h
      case isTrue => cases h; exact hq
      case isFalse => split at h <;> cases h <;> exact hq
    all_goals cases h; exact hq

namespace Tracker

variable {tracker : Tracker} {type : Descriptor} {s : Session} {e : Event} {events : List Event}
  {id : String} {ids ids' : List String} {p : Progress}

section Recent

theorem length_recent (ids : List String) : (recent ids).length ≤ memory := by
  simp [recent]
  omega

theorem recent_eq_self (h : ids.length ≤ memory) : recent ids = ids := by
  simp [recent, Nat.sub_eq_zero_of_le h]

theorem recent_append (ids ids' : List String) :
    recent (recent ids ++ ids') = recent (ids ++ ids') := by
  unfold recent
  rw [List.drop_append, List.drop_append, List.drop_drop]
  simp only [List.length_append, List.length_drop]
  congr 2 <;> omega

theorem recent_sublist (ids : List String) : (recent ids).Sublist ids :=
  List.drop_sublist ..

theorem mem_recent (h : ids'.length < memory) : id ∈ recent (ids ++ id :: ids') := by
  unfold recent
  rw [List.drop_append_of_le_length (by simp; omega)]
  simp

end Recent

-- The id of the run that an event overtakes.
def overtaken? (tracker : Tracker) (e : Event) : Option String :=
  if tracker.rejected e then none else tracker.overtakenBy? e.type e.run

-- The ids of the FULL runs of a type that some events in a row overtake.
def overtakings (tracker : Tracker) (type : Descriptor) : List Event → List String
  | [] => []
  | e :: events =>
    let later := (tracker.take e).2.overtakings type events
    if e.type = type then (tracker.overtaken? e).toList ++ later else later

theorem rejected_iff_mem (h : e.key = .full type) :
    tracker.rejected e ↔ e.run.correlationId ∈ tracker.supersededOf type := by
  rw [rejected_iff, h, lane]

theorem outcome_eq_rejected : (tracker.take e).1 = .rejected ↔ tracker.rejected e := by
  by_cases h : tracker.rejected e
  case pos => simp [take_of_rejected h, h]
  case neg =>
    have hr : tracker.reply e ≠ .rejected := by
      unfold reply answer
      split
      case h_3 phase _ _ _ => cases phase <;> grind
      all_goals nofun
    simp [take_of_accepted h, h, hr]

theorem supersededOf_take (tracker : Tracker) (e : Event) (type : Descriptor) :
    (tracker.take e).2.supersededOf type =
      if e.type = type then (tracker.overtaken? e).elim (tracker.supersededOf type)
        fun id => recent (tracker.supersededOf type ++ [id])
      else tracker.supersededOf type := by
  unfold overtaken?
  by_cases hr : tracker.rejected e
  case pos => simp [take_of_rejected hr, hr]
  case neg =>
    simp only [hr]
    by_cases hk : e.key = .full type
    case pos =>
      have hl := lane_take hr
      rw [hk] at hl
      have hl : (tracker.take e).2.supersededOf type = _ := congrArg Lane.superseded hl
      obtain ⟨rfl, _⟩ := key_eq_full.mp hk
      rw [hl, if_pos rfl, makeWay]
      cases tracker.overtakenBy? e.type e.run <;> simp [lane]
    case neg =>
      rw [tracker.supersededOf_take_of_ne hk]
      split
      case isFalse => rfl
      case isTrue ht =>
        cases ho : tracker.overtakenBy? e.type e.run
        case none => rfl
        case some => exact absurd (key_eq_full.mpr ⟨ht, (overtakenBy?_eq_some.mp ho).1⟩) hk

-- What is remembered is what was overtaken last.
theorem supersededOf_after (h : (tracker.supersededOf type).length ≤ memory) :
    (tracker.after events).supersededOf type =
      recent (tracker.supersededOf type ++ tracker.overtakings type events) := by
  induction events generalizing tracker
  case nil => simp [overtakings, after, recent_eq_self h]
  case cons e events hi =>
    have hs := tracker.supersededOf_take e type
    change ((tracker.take e).2.after events).supersededOf type = _
    unfold overtakings
    split at hs
    case isFalse ht => rw [hi (hs ▸ h), hs, if_neg ht]
    case isTrue ht =>
      rw [if_pos ht]
      cases ho : tracker.overtaken? e
      case none =>
        rw [ho, Option.elim_none] at hs
        rw [hi (hs ▸ h), hs]
        rfl
      case some id =>
        rw [ho, Option.elim_some] at hs
        rw [hi (hs ▸ length_recent _), hs, recent_append, List.append_assoc]
        rfl

-- The run that an event leaves behind has the id of the event.
theorem correlationId_of_take (h : ¬tracker.rejected e) (hk : e.key = .full type)
    (hs : (tracker.take e).2.session? (.full type) = some s) (hp : s.progress? = some p) :
    p.correlationId = e.run.correlationId := by
  rw [← hk, session?_take h] at hs
  obtain rfl := Session.eq_of_tracked? hs
  refine correlationId_next hp fun q hq => ?_
  obtain ⟨rfl, hfull⟩ := key_eq_full.mp hk
  cases ho : tracker.overtakenBy? e.type e.run
  case some => simp [found?_of_overtaking ho, Session.progress?] at hq
  case none =>
    by_contra hne
    have hfound : (tracker.session? (.full e.type)).bind Session.progress? = some q := by
      rw [found?_eq_session? ho, hk] at hq
      cases hs : tracker.session? (.full e.type)
      case none => simp [hs, Session.progress?] at hq
      case some => simpa [hs] using hq
    rw [overtakenBy?_eq_some.mpr ⟨hfull, hne, q, hfound, rfl⟩] at ho
    cases ho

-- An id is remembered once, and not while its run goes on.
structure Apart (tracker : Tracker) (type : Descriptor) : Prop where
  nodup : (tracker.supersededOf type).Nodup
  active : ∀ s p, tracker.session? (.full type) = some s → s.progress? = some p →
    p.correlationId ∉ tracker.supersededOf type

theorem Apart.take (h : tracker.Apart type) (e : Event) : (tracker.take e).2.Apart type := by
  by_cases hk : e.key = .full type
  case neg =>
    have hs := tracker.session?_take_of_ne hk
    have hr := tracker.supersededOf_take_of_ne hk
    exact ⟨hr ▸ h.nodup, fun s p => hs ▸ hr ▸ h.active s p⟩
  case pos =>
    by_cases hr : tracker.rejected e
    case pos => rwa [take_of_rejected hr]
    case neg =>
      have hid := mt (rejected_iff_mem hk).mpr hr
      obtain ⟨rfl, hfull⟩ := key_eq_full.mp hk
      have hs := tracker.supersededOf_take e e.type
      rw [if_pos rfl, overtaken?, if_neg hr] at hs
      cases ho : tracker.overtakenBy? e.type e.run
      case none =>
        rw [ho, Option.elim_none] at hs
        refine ⟨hs ▸ h.nodup, fun s p hs' hp => ?_⟩
        rw [hs, correlationId_of_take hr hk hs' hp]
        exact hid
      case some old =>
        rw [ho, Option.elim_some] at hs
        have ⟨_, hne, q, hq, ho⟩ := overtakenBy?_eq_some.mp ho
        have ⟨s, hs', hq⟩ := Option.bind_eq_some_iff.mp hq
        have hold : old ∉ tracker.supersededOf e.type := ho ▸ h.active s q hs' hq
        have hsub := recent_sublist (tracker.supersededOf e.type ++ [old])
        constructor
        case nodup =>
          rw [hs]
          exact (List.nodup_append.mpr ⟨h.nodup, List.pairwise_singleton .., by grind⟩).sublist hsub
        case active =>
          intro s p hs' hp hm
          rw [hs, correlationId_of_take hr hk hs' hp] at hm
          obtain hm | hm := List.mem_append.mp (hsub.subset hm)
          · exact hid hm
          · exact hne (List.mem_singleton.mp hm).symm

theorem Apart.after (h : tracker.Apart type) (events : List Event) :
    (tracker.after events).Apart type :=
  after_induct (P := fun tracker => tracker.Apart type) h (fun _ e h => h.take e) events

theorem apart_empty : ({} : Tracker).Apart type :=
  ⟨.nil, nofun⟩

-- What is remembered of overtaken runs of a type, and what becomes of events that still come in for
-- them.
theorem rejects_superseded (events : List Event) (type : Descriptor) :
    let tracker := ({} : Tracker).after events
    let ids := tracker.supersededOf type
    ids.length ≤ 32 ∧ ids.Nodup ∧
    (∀ s p, tracker.session? (.full type) = some s → s.progress? = some p →
      p.correlationId ∉ ids) ∧
    (∀ e : Event, e.key = .full type →
      ((tracker.take e).1 = .rejected ↔ e.run.correlationId ∈ ids) ∧
      ((tracker.take e).1 = .rejected → (tracker.take e).2 = tracker)) ∧
    ∀ s p (e : Event) (later : List Event) (last : Event),
      tracker.session? (.full type) = some s → s.progress? = some p →
      e.key = .full type → e.run.correlationId ≠ p.correlationId → (tracker.take e).1 ≠ .rejected →
      ((tracker.take e).2.overtakings type later).length < 32 →
      last.key = .full type → last.run.correlationId = p.correlationId →
      (((tracker.take e).2.after later).take last).1 = .rejected := by
  intro tracker ids
  have hapart : tracker.Apart type := apart_empty.after events
  have hids : ids = recent (({} : Tracker).overtakings type events) :=
    supersededOf_after (Nat.zero_le _)
  refine ⟨hids ▸ length_recent _, hapart.nodup, hapart.active, fun e hk => ⟨?_, fun hr => ?_⟩, ?_⟩
  case refine_1 => rw [outcome_eq_rejected, rejected_iff_mem hk]
  case refine_2 => rw [take_of_rejected (outcome_eq_rejected.mp hr)]
  case refine_3 =>
    intro s p e later last hs hp hk hne hr hn hlast hid
    have hr := mt outcome_eq_rejected.mpr hr
    obtain ⟨rfl, hfull⟩ := key_eq_full.mp hk
    have ho : tracker.overtaken? e = some p.correlationId := by
      rw [overtaken?, if_neg hr, overtakenBy?_eq_some]
      exact ⟨hfull, hne.symm, p, by rw [hs, Option.bind_some, hp], rfl⟩
    have hs := tracker.supersededOf_take e e.type
    rw [if_pos rfl, ho, Option.elim_some] at hs
    rw [outcome_eq_rejected, rejected_iff_mem hlast, supersededOf_after (hs ▸ length_recent _), hs,
      recent_append, hid, List.append_assoc]
    exact mem_recent hn

section Flurry

open Roster

-- FULL runs of groups that overtake one another, so that only the last one goes on.
def flurry (n : Nat) : List Event :=
  (List.range n).map fun i => ⟨group, ⟨.full, toString i, 2⟩, i⟩

-- One run overtakes another and is complete at once, and 31 more are overtaken after that.
theorem rejects_superseded_of_flurry :
    let tracker := ({} : Tracker).after [⟨group, ⟨.full, "first", 3⟩, 1⟩]
    let (outcome, overtaken) := tracker.take ⟨group, ⟨.full, "second", 1⟩, 2⟩
    outcome = .completed (some 2) ∧ (overtaken.overtakings group (flurry 32)).length = 31 ∧
      ((overtaken.after (flurry 32)).take ⟨group, ⟨.full, "first", 3⟩, 4⟩).1 = .rejected := by
  have ⟨_, _, _, _, h⟩ := rejects_superseded [⟨group, ⟨.full, "first", 3⟩, 1⟩] group
  have hn : ((({} : Tracker).after [⟨group, ⟨.full, "first", 3⟩, 1⟩] |>.take
      ⟨group, ⟨.full, "second", 1⟩, 2⟩).2.overtakings group (flurry 32)).length = 31 := by
    decide +kernel
  refine ⟨by decide +kernel, hn, ?_⟩
  exact h _ _ ⟨group, ⟨.full, "second", 1⟩, 2⟩ (flurry 32) _ rfl rfl rfl (by decide)
    (by decide +kernel) (by rw [hn]; decide) rfl rfl

end Flurry

end Tracker
end LinkedCache.Sync
