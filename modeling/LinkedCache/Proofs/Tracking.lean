import LinkedCache.Sync.Tracker
import LinkedCache.Proofs.Resource

-- The events of a FULL run as the tracker counts them. Events of other types, and those of runs of
-- other kinds, do not get in the way.

namespace LinkedCache.Sync

theorem min?_concat (ts : List Int) (t : Int) :
    (ts ++ [t]).min? = some (ts.min?.elim t (min · t)) := by
  cases ts
  case nil => rfl
  case cons t' ts =>
    simp only [List.cons_append, List.min?_cons', List.foldl_append]
    rfl

-- A run that is complete started at its last event or earlier.
theorem startedAt_le_of_next {s : Session} {i : Input} {progress : Progress}
    (h : s.next i = .run .completed progress) : progress.startedAt ≤ i.timestamp := by
  have hcounted {p : Progress} (hp : Session.counted p = .run .completed progress) :
      p = progress :=
    (Session.run.inj hp).2
  unfold Session.next at h
  split at h
  case h_1 => exact hcounted h ▸ Int.le_refl _
  case h_2 => exact hcounted h ▸ Int.le_refl _
  case h_3 p =>
    unfold Session.advance at h
    dsimp only at h
    split at h
    case isTrue => simp at h
    case isFalse =>
      split at h
      case isTrue => simp at h
      case isFalse => exact hcounted h ▸ Int.min_le_right ..
  case h_4 => simp at h
  case h_5 => simp at h

namespace Tracker

variable {tracker : Tracker} {type other : Descriptor} {m : SyncMetadata} {key k : RunKey}
  {s : Session} {id : String} {t : Int} {ts : List Int}

@[simp]
theorem session?_drop : (tracker.drop key).session? k =
    if k = key then none else tracker.session? k :=
  Assoc.lookup_filter key k tracker.active

@[simp]
theorem session?_keep : (tracker.keep key s).session? k =
    if k = key then some s else tracker.session? k := by
  unfold session? keep
  rw [List.lookup_append, Assoc.lookup_filter, Assoc.lookup_cons_eq]
  by_cases hk : k = key <;> simp [hk]

@[simp]
theorem supersededOf_drop : (tracker.drop key).supersededOf type = tracker.supersededOf type :=
  rfl

@[simp]
theorem supersededOf_keep : (tracker.keep key s).supersededOf type = tracker.supersededOf type :=
  rfl

-- The latest of some ids, as many as are remembered.
def recent (ids : List String) : List String :=
  ids.drop (ids.length - memory)

@[simp]
theorem supersededOf_remember : (tracker.remember type id).supersededOf other =
    if other = type then recent (tracker.supersededOf type ++ [id])
    else tracker.supersededOf other := by
  by_cases h : other = type <;>
    simp [supersededOf, remember, recent, List.lookup_append, Assoc.lookup_filter,
      Assoc.lookup_cons_eq, h]

@[simp]
theorem session?_remember : (tracker.remember type id).session? key = tracker.session? key :=
  rfl

theorem overtakenBy?_eq_some : tracker.overtakenBy? type m = some id ↔
    m.kind = .full ∧ id ≠ m.correlationId ∧
      ∃ p, (tracker.session? (.full type)).bind Session.progress? = some p ∧
        p.correlationId = id := by
  unfold overtakenBy?
  cases m.kind <;> cases (tracker.session? (.full type)).bind Session.progress?
  case full.some p =>
    by_cases hp : p.correlationId = m.correlationId <;> simp [hp] <;> grind
  all_goals simp

theorem ofEvent_eq_full (h : m.kind = .full) : RunKey.ofEvent type m = .full type := by
  simp [RunKey.ofEvent, h]

theorem ofEvent_ne (h : other ≠ type ∨ m.kind ≠ .full) : RunKey.full type ≠ .ofEvent other m := by
  unfold RunKey.ofEvent
  split
  case h_1 hk => exact fun he => (h.resolve_right (not_not.mpr hk)) (RunKey.full.inj he).symm
  case h_2 => exact nofun

-- What is known about the runs of one key. Of runs that are not FULL none is ever superseded.
structure Lane where
  session : Option Session
  superseded : List String

def lane (tracker : Tracker) (key : RunKey) : Lane where
  session := tracker.session? key
  superseded :=
    match key with
    | .full type => tracker.supersededOf type
    | .keyed .. => []

theorem lane_congr {tracker' : Tracker} (hs : tracker'.session? key = tracker.session? key)
    (hr : ∀ type, key = .full type → tracker'.supersededOf type = tracker.supersededOf type) :
    tracker'.lane key = tracker.lane key := by
  cases key
  case full type => simp only [lane, hs, hr type rfl]
  case keyed => simp only [lane, hs]

theorem lane_drop_of_ne (h : k ≠ key) : (tracker.drop key).lane k = tracker.lane k :=
  lane_congr (by simp [h]) fun _ _ => rfl

theorem lane_keep_of_ne (h : k ≠ key) : (tracker.keep key s).lane k = tracker.lane k :=
  lane_congr (by simp [h]) fun _ _ => rfl

theorem lane_makeWay_of_ne (h : RunKey.ofEvent type m ≠ key) :
    (tracker.makeWay type m).lane key = tracker.lane key := by
  unfold makeWay
  split
  case h_2 => rfl
  case h_1 old ho =>
    rw [ofEvent_eq_full (overtakenBy?_eq_some.mp ho).1] at h
    refine lane_congr (by simp [Ne.symm h]) fun other hk => ?_
    have ht : other ≠ type := fun ht => h (ht ▸ hk.symm)
    simp [ht]

-- An event concerns the runs of its own key alone.
theorem lane_record_of_ne (tracker : Tracker) (t : Int) (h : RunKey.ofEvent type m ≠ key) :
    (tracker.record type m t).2.lane key = tracker.lane key := by
  have hw : (tracker.makeWay type m).lane key = tracker.lane key := lane_makeWay_of_ne h
  have hd := (lane_drop_of_ne (Ne.symm h)).trans hw
  unfold record
  split
  case isTrue => rfl
  case isFalse =>
    dsimp only
    split
    case h_1 => exact hd
    case h_2 => exact hd
    case h_3 =>
      split
      case isTrue => exact hd
      case isFalse => exact (lane_keep_of_ne (Ne.symm h)).trans hw

-- Whether a tracker treats the FULL runs of a type as another one.
structure Agrees (tracker tracker' : Tracker) (type : Descriptor) : Prop where
  session : tracker'.session? (.full type) = tracker.session? (.full type)
  superseded : tracker'.supersededOf type = tracker.supersededOf type

theorem agrees_record (tracker : Tracker) (t : Int) (h : other ≠ type ∨ m.kind ≠ .full) :
    tracker.Agrees (tracker.record other m t).2 type :=
  have hl := tracker.lane_record_of_ne t (Ne.symm (ofEvent_ne h))
  ⟨congrArg Lane.session hl, congrArg Lane.superseded hl⟩

theorem evictBefore?_answer (before : Option Session) (phase : Phase) :
    (answer before phase).evictBefore? = none := by
  cases phase <;> simp only [answer] <;> try split
  all_goals rfl

-- Only FULL runs evict, and then nothing that is as late as the event that completes the run.
theorem kind_and_le_of_evictBefore? {cutoff : Int}
    (h : (tracker.record type m t).1.evictBefore? = some cutoff) :
    m.kind = .full ∧ cutoff ≤ t := by
  unfold record at h
  split at h
  case isTrue => simp [Outcome.evictBefore?] at h
  case isFalse =>
    dsimp only at h
    split at h
    case h_1 => simp [Outcome.evictBefore?] at h
    case h_2 hn =>
      dsimp only [Outcome.evictBefore?] at h
      split at h
      case isFalse => simp at h
      case isTrue hk =>
        cases h
        exact ⟨hk, startedAt_le_of_next hn⟩
    case h_3 =>
      split at h
      case isTrue => simp [Outcome.evictBefore?] at h
      case isFalse =>
        dsimp only at h
        split at h
        case h_1 => simp [Outcome.evictBefore?] at h
        case h_2 => simp [evictBefore?_answer] at h

theorem evictBefore?_record (h : m.kind ≠ .full) :
    (tracker.record type m t).1.evictBefore? = none :=
  Option.eq_none_iff_forall_ne_some.mpr fun _ hc => h (kind_and_le_of_evictBefore? hc).1

-- A tracker that has seen some events of a FULL run, all of them with the same metadata, and not
-- yet as many as these declare. An id that was overtaken once is not taken for a new run.
structure Counts (tracker : Tracker) (type : Descriptor) (m : SyncMetadata) (ts : List Int) :
    Prop where
  fresh : m.correlationId ∉ tracker.supersededOf type
  session : tracker.session? (.full type) = ts.min?.map fun startedAt =>
    .run .inProgress ⟨type.name, m.correlationId, m.totalSize, ts.length, startedAt⟩

theorem Agrees.counts {tracker' : Tracker} (h : tracker.Agrees tracker' type)
    (hc : tracker.Counts type m ts) : tracker'.Counts type m ts :=
  ⟨h.superseded ▸ hc.fresh, h.session.trans hc.session⟩

end Tracker
end LinkedCache.Sync
