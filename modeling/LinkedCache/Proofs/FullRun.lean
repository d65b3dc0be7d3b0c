import LinkedCache.Proofs.Arrival
import LinkedCache.Proofs.ArrivalOrder
import LinkedCache.Proofs.Counting
import LinkedCache.Proofs.Entries
import LinkedCache.Proofs.Roster

-- A FULL run that comes to its end. What its events brought last is kept, and what is older than
-- all of its events is evicted, whatever else happens in between.

namespace LinkedCache.Pipeline

variable {Outbound : Type} [Publisher Outbound] {p : Pipeline Outbound} {now : Moment}
  {e : EntityEvent} {type : Descriptor} {id : String} {a : Arrival} {m : SyncMetadata}

-- What an event does before it counts towards its run.
def deliver (p : Pipeline Outbound) (now : Moment) (e : EntityEvent) : Pipeline Outbound :=
  match p.write e with
  | .ok (updates, cache) => (p.withCache cache).dispatchAll now updates
  | .error _ => p

section Deliver

theorem processEntity_eq (now : Moment) (h : p.cache.contains e.type) :
    (p.processEntity now e).2 = ((p.deliver now e).advanceRun now e).2.2 := by
  unfold processEntity deliver
  rw [if_pos h]
  cases p.write e <;> rfl

theorem answer_of_write {us : List Update} {c : Cache} (now : Moment)
    (h : p.cache.contains e.type) (hw : p.write e = .ok (us, c)) :
    (p.processEntity now e).1 = .ok {
      derived := us.length
      evicted := ((p.deliver now e).advanceRun now e).1
      sync := ((p.deliver now e).advanceRun now e).2.1 } := by
  unfold processEntity deliver
  rw [if_pos h, hw]

omit [Publisher Outbound] in
theorem exists_write (h : p.cache.contains e.type) (hp : e.payload = none ∨ e.arrival?.isSome) :
    ∃ us c, p.write e = .ok (us, c) := by
  obtain hp | hp := hp
  case inl =>
    have ⟨_, hs⟩ := Option.isSome_iff_exists.mp h
    unfold write Cache.remove
    rw [hp, hs]
    dsimp only
    split <;> exact ⟨_, _, rfl⟩
  case inr =>
    have ⟨_, ha⟩ := Option.isSome_iff_exists.mp hp
    have ⟨us, c, hw, _⟩ := write_arrival ha h
    exact ⟨us, c, hw⟩

theorem deliver_of_unconvertible (now : Moment) (hp : e.payload.isSome) (ha : e.arrival? = none) :
    p.deliver now e = p := by
  have ⟨payload, hp⟩ := Option.isSome_iff_exists.mp hp
  unfold deliver write
  rw [hp]
  cases hr : Resource.ofValue payload
  case error => simp only [hr, bind, Except.bind]
  case ok r => simp [EntityEvent.arrival?, hp, hr, Except.toOption] at ha

theorem moves_deliver (p : Pipeline Outbound) (now : Moment) (e : EntityEvent) :
    p.Moves (p.deliver now e) := by
  unfold deliver
  split
  case h_1 us c hw => exact .head (.change (change_write p hw)) (moves_dispatchAll _ now us)
  case h_2 => exact .refl

theorem grows_deliver (now : Moment) (h : ¬(type = e.type ∧ id = e.id)) :
    p.cache.Grows (p.deliver now e).cache type id := by
  unfold deliver
  split
  case h_2 => exact .refl ..
  case h_1 us c hw =>
    have hg : c.Grows ((p.withCache c).dispatchAll now us).cache type id :=
      grows_dispatchAll (p.withCache c) now us
    refine (Cache.Grows.of_eq ?_).trans hg
    obtain ⟨_, hr⟩ | ⟨a, ha, hr⟩ := remove_or_reconcile_of_write hw
    · exact Cache.cached?_remove hr h
    · have ⟨ht, hi, _⟩ := EntityEvent.arrival?_eq_some ha
      exact (Cache.cached?_reconcile hr).2 type id (ht ▸ hi ▸ h)

theorem exists_cached_deliver (now : Moment) (h : p.cache.contains e.type)
    (ha : e.arrival? = some a) :
    ∃ entry, (p.deliver now e).cache.cached? e.type e.id = some entry ∧
      entry.resource.attributes = a.resource.attributes ∧ e.timestamp ≤ entry.timestamp := by
  have ⟨ht, hi, htime, _⟩ := EntityEvent.arrival?_eq_some ha
  have ⟨us, c, hw, hr⟩ := write_arrival ha h
  have ⟨entry, he, hattr, hts⟩ := (Cache.cached?_reconcile hr).1
  have hg : c.Grows ((p.withCache c).dispatchAll now us).cache e.type e.id :=
    grows_dispatchAll (p.withCache c) now us
  have ⟨entry', he', hgrows⟩ := hg.exists_after (ht ▸ hi ▸ he)
  refine ⟨entry', ?_, hgrows.attributes.trans hattr, ?_⟩
  · rw [deliver, hw]
    exact he'
  · exact htime ▸ hts ▸ hgrows.timestamp

end Deliver

section Sync

@[simp]
theorem sync_dispatch (u : Update) : (p.dispatch now u).2.sync = p.sync := by
  unfold dispatch
  dsimp only
  split <;> rfl

@[simp]
theorem sync_dispatchAll (us : List Update) : (p.dispatchAll now us).sync = p.sync := by
  unfold dispatchAll
  induction us generalizing p
  case nil => rfl
  case cons u us hi => exact hi.trans (sync_dispatch u)

theorem sync_evict {evicted : Descriptor} {cutoff : Int} {n : Nat} {p' : Pipeline Outbound}
    (h : p.evict now evicted cutoff = .ok (n, p')) : p'.sync = p.sync :=
  have ⟨_, _, us, _, _, hp, _⟩ := p.exists_of_evict now h
  hp ▸ sync_dispatchAll us

@[simp]
theorem sync_deliver : (p.deliver now e).sync = p.sync := by
  unfold deliver
  split
  case h_1 us c _ => exact sync_dispatchAll us
  case h_2 => rfl

theorem advanceRun_none (p : Pipeline Outbound) (now : Moment) (h : e.sync = none) :
    p.advanceRun now e = (0, none, p) := by
  unfold advanceRun
  rw [h]

theorem advanceRun_of_spared (p : Pipeline Outbound) (now : Moment) (h : e.sync = some m)
    (ho : (p.sync.record e.type m e.timestamp).1.evictBefore? = none) :
    p.advanceRun now e = (0, some (p.sync.record e.type m e.timestamp).1,
      { p with sync := (p.sync.record e.type m e.timestamp).2 }) := by
  unfold advanceRun
  rw [h]
  dsimp only
  rw [ho]

theorem advanceRun_of_cutoff (p : Pipeline Outbound) (now : Moment) {cutoff : Int}
    (h : e.sync = some m) (hc : p.cache.contains e.type)
    (ho : (p.sync.record e.type m e.timestamp).1.evictBefore? = some cutoff) :
    ∃ n p', { p with sync := (p.sync.record e.type m e.timestamp).2 }.evict now e.type cutoff =
        .ok (n, p') ∧
      p.advanceRun now e = (n, some (p.sync.record e.type m e.timestamp).1, p') := by
  have ⟨es, c, he⟩ := Cache.exists_evict hc cutoff
  let q : Pipeline Outbound := { p with sync := (p.sync.record e.type m e.timestamp).2 }
  have hq : ∃ n p', q.evict now e.type cutoff = .ok (n, p') := by
    unfold evict
    rw [show q.cache.evict e.type cutoff = .ok (es, c) from he]
    exact ⟨_, _, rfl⟩
  have ⟨n, p', hq⟩ := hq
  refine ⟨n, p', hq, ?_⟩
  unfold advanceRun
  rw [h]
  dsimp only
  rw [ho]
  dsimp only
  rw [hq]

-- An event is tracked, and may evict what is older than it is.
theorem advanceRun_cases (p : Pipeline Outbound) (now : Moment) (h : p.cache.contains e.type) :
    (∃ sync, (p.advanceRun now e).2.2 = { p with sync }) ∨
    ∃ sync cutoff n, { p with sync }.evict now e.type cutoff =
      .ok (n, (p.advanceRun now e).2.2) ∧ cutoff ≤ e.timestamp := by
  cases hm : e.sync
  case none => exact .inl ⟨p.sync, by rw [p.advanceRun_none now hm]⟩
  case some m =>
    cases ho : (p.sync.record e.type m e.timestamp).1.evictBefore?
    case none => exact .inl ⟨_, by rw [p.advanceRun_of_spared now hm ho]⟩
    case some cutoff =>
      have ⟨n, p', hev, he⟩ := p.advanceRun_of_cutoff now hm h ho
      have hle := (Sync.Tracker.kind_and_le_of_evictBefore? ho).2
      rw [he]
      exact .inr ⟨_, cutoff, n, hev, hle⟩

-- Whether an event says nothing about the FULL runs of a type.
def Silent (e : EntityEvent) (type : Descriptor) : Prop :=
  ∀ m, e.sync = some m → e.type ≠ type ∨ m.kind ≠ .full

theorem agrees_advanceRun (now : Moment) (hs : p.cache.Sound) (hc : p.cache.contains e.type)
    (h : Silent e type) :
    p.sync.Agrees (p.advanceRun now e).2.2.sync type ∧
      ∀ id, p.cache.Grows (p.advanceRun now e).2.2.cache type id := by
  cases hm : e.sync
  case none =>
    rw [p.advanceRun_none now hm]
    exact ⟨⟨rfl, rfl⟩, .refl _ _⟩
  case some m =>
    have ha := p.sync.agrees_record e.timestamp (h m hm)
    cases ho : (p.sync.record e.type m e.timestamp).1.evictBefore?
    case none =>
      rw [p.advanceRun_of_spared now hm ho]
      exact ⟨ha, .refl _ _⟩
    case some cutoff =>
      have ⟨n, p', hev, he⟩ := p.advanceRun_of_cutoff now hm hc ho
      -- Only FULL runs evict, and this is not one of the type.
      have ht : type ≠ e.type := fun ht => by
        have hk := (h m hm).resolve_left fun hne => hne ht.symm
        simp [Sync.Tracker.evictBefore?_record hk] at ho
      rw [he]
      refine ⟨sync_evict hev ▸ ha, fun id => ?_⟩
      let q : Pipeline Outbound := { p with sync := (p.sync.record e.type m e.timestamp).2 }
      have ⟨_, c, hcached, hgrows⟩ := q.grows_evict now hs hev
      exact .trans (.of_eq ((hcached type id).trans (if_neg ht))) (hgrows type id)

end Sync

-- The last of some events that is about an id.
def lastOf? (events : List EntityEvent) (id : String) : Option EntityEvent :=
  events.reverse.find? (·.id == id)

theorem lastOf?_concat (events : List EntityEvent) (e : EntityEvent) (id : String) :
    lastOf? (events ++ [e]) id = if e.id = id then some e else lastOf? events id := by
  unfold lastOf?
  rw [List.reverse_concat, List.find?_cons]
  by_cases he : e.id = id
  case pos => simp [he]
  case neg => rw [beq_false_of_ne he, if_neg he]

theorem lastOf?_eq_some {events : List EntityEvent} (h : lastOf? events id = some e) :
    e ∈ events ∧ e.id = id :=
  ⟨List.mem_reverse.mp (List.mem_of_find?_eq_some h), by simpa using List.find?_some h⟩

-- Whether a cache has what the last events about each id brought.
def Delivered (c : Cache) (type : Descriptor) (events : List EntityEvent) : Prop :=
  ∀ id e a, lastOf? events id = some e → e.arrival? = some a →
    ∃ entry, c.cached? type id = some entry ∧
      entry.resource.attributes = a.resource.attributes ∧ e.timestamp ≤ entry.timestamp

section Delivered

variable {c c' : Cache} {events : List EntityEvent}

theorem Delivered.grows (h : Delivered c type events)
    (hg : ∀ e ∈ events, c.Grows c' type e.id) : Delivered c' type events := by
  intro id e a he ha
  have ⟨hm, hi⟩ := lastOf?_eq_some he
  have ⟨entry, hentry, hattr, ht⟩ := h id e a he ha
  have ⟨entry', hentry', hgrows⟩ := (hi ▸ hg e hm).exists_after hentry
  exact ⟨entry', hentry', hgrows.attributes.trans hattr, Int.le_trans ht hgrows.timestamp⟩

theorem Delivered.deliver (h : Delivered p.cache e.type events) (now : Moment)
    (hc : p.cache.contains e.type) :
    Delivered (p.deliver now e).cache e.type (events ++ [e]) := by
  intro id e' a he ha
  rw [lastOf?_concat] at he
  split at he
  case isTrue hi =>
    cases he
    exact hi ▸ exists_cached_deliver now hc ha
  case isFalse hi =>
    have ⟨entry, hentry, hattr, ht⟩ := h id e' a he ha
    have hg : p.cache.Grows (p.deliver now e).cache e.type id :=
      grows_deliver now fun hn => hi hn.2.symm
    have ⟨entry', hentry', hgrows⟩ := hg.exists_after hentry
    exact ⟨entry', hentry', hgrows.attributes.trans hattr, Int.le_trans ht hgrows.timestamp⟩

end Delivered

-- A pipeline amid a FULL run of a type, after some events of the run.
structure Running (type : Descriptor) (m : SyncMetadata) (events : List EntityEvent)
    (p : Pipeline Outbound) : Prop where
  sound : p.cache.Sound
  served : p.cache.contains type
  counts : p.sync.Counts type m (events.map (·.timestamp))
  delivered : Delivered p.cache type events

-- Whether a step is an event of a run.
def Step.partOf? (type : Descriptor) (m : SyncMetadata) : Step → Option EntityEvent
  | .entity _ e => if e.type = type ∧ e.sync = some m then some e else none
  | _ => none

def partsOf (type : Descriptor) (m : SyncMetadata) (steps : List Step) : List EntityEvent :=
  steps.filterMap (Step.partOf? type m)

-- Whether a step neither writes nor deletes some resources of a type, and does not evict any.
def Step.Avoids (type : Descriptor) (ids : List String) : Step → Prop
  | .entity _ e => Silent e type ∧ (e.type = type → e.id ∉ ids)
  | .evict _ evicted _ => evicted ≠ type
  | _ => True

section Running

variable {events : List EntityEvent} {ids : List String} {steps : List Step} {s : Step}

theorem spares_entity (hs : p.cache.Sound) (now : Moment) (h : Silent e type) :
    p.sync.Agrees (p.processEntity now e).2.sync type ∧
      ∀ id, (e.type = type → e.id ≠ id) →
        p.cache.Grows (p.processEntity now e).2.cache type id := by
  by_cases hc : p.cache.contains e.type
  case neg =>
    have hp : (p.processEntity now e).2 = p := by simp [processEntity, hc]
    rw [hp]
    exact ⟨⟨rfl, rfl⟩, fun _ _ => .refl ..⟩
  case pos =>
    have ⟨hk, hs⟩ := Cache.kin_and_sound_of_changes hs (changes_of_moves (p.moves_deliver now e))
    have ⟨ha, hg⟩ := agrees_advanceRun now hs (hk.contains ▸ hc) h
    rw [processEntity_eq now hc]
    rw [sync_deliver] at ha
    exact ⟨ha, fun id hi => (grows_deliver now fun hn => hi hn.1.symm hn.2.symm).trans (hg id)⟩

theorem spares_step (hs : p.cache.Sound) (ha : s.Avoids type ids) :
    p.sync.Agrees (p.step s).sync type ∧
      ∀ id ∈ ids, p.cache.Grows (p.step s).cache type id := by
  cases s
  case entity now e =>
    have ⟨hsync, hg⟩ := spares_entity hs now ha.1
    exact ⟨hsync, fun id hi => hg id fun ht he => ha.2 ht (he ▸ hi)⟩
  case relation now e =>
    unfold step processRelation
    dsimp only
    split
    case h_1 => exact ⟨⟨rfl, rfl⟩, fun _ _ => .refl ..⟩
    case h_2 => exact ⟨by rw [sync_dispatch]; exact ⟨rfl, rfl⟩, fun _ _ => p.grows_dispatch now _⟩
  case dispatch now u =>
    exact ⟨by rw [step, sync_dispatch]; exact ⟨rfl, rfl⟩, fun _ _ => p.grows_dispatch now u⟩
  case evict now evicted cutoff =>
    unfold step
    dsimp only
    split
    case h_2 => exact ⟨⟨rfl, rfl⟩, fun _ _ => .refl ..⟩
    case h_1 n p' he =>
      have ⟨_, c, hcached, hgrows⟩ := p.grows_evict now hs he
      refine ⟨by rw [sync_evict he]; exact ⟨rfl, rfl⟩, fun id _ => ?_⟩
      exact .trans (.of_eq ((hcached type id).trans (if_neg (Ne.symm ha)))) (hgrows type id)
  case cleanUp now => exact ⟨⟨rfl, rfl⟩, fun _ _ => .refl ..⟩
  case pass now => exact ⟨⟨rfl, rfl⟩, fun _ _ => p.grows_pass now⟩

theorem Running.avoids (h : Running type m events p) (ha : s.Avoids type ids)
    (hi : ∀ e ∈ events, e.id ∈ ids) : Running type m events (p.step s) := by
  have ⟨hk, hs⟩ := Cache.kin_and_sound_of_changes h.sound (changes_of_moves (p.moves_step s))
  have ⟨hsync, hg⟩ := spares_step h.sound ha
  exact ⟨hs, hk.contains ▸ h.served, hsync.counts h.counts,
    h.delivered.grows fun e he => hg e.id (hi e he)⟩

theorem Running.part (h : Running e.type m events p) (hm : m.kind = .full)
    (hsync : e.sync = some m) (hn : events.length + 1 < m.totalSize) (now : Moment) :
    Running e.type m (events ++ [e]) (p.processEntity now e).2 := by
  have hmoves := p.moves_deliver now e
  have ⟨hk, hs⟩ := Cache.kin_and_sound_of_changes h.sound (changes_of_moves hmoves)
  have ⟨hspared, hcounts⟩ := h.counts.record hm (by simpa using hn) e.timestamp
  have ha := (p.deliver now e).advanceRun_of_spared now hsync
    (by rw [sync_deliver]; exact hspared)
  rw [processEntity_eq now h.served, ha]
  refine ⟨hs, hk.contains ▸ h.served, ?_, h.delivered.deliver now h.served⟩
  rw [List.map_append, sync_deliver]
  exact hcounts

theorem Running.run (h : Running type m events p) (hm : m.kind = .full)
    (ha : ∀ s ∈ steps, (s.partOf? type m).isSome ∨ s.Avoids type ids)
    (hi : ∀ e ∈ events ++ partsOf type m steps, e.id ∈ ids)
    (hn : events.length + (partsOf type m steps).length < m.totalSize) :
    Running type m (events ++ partsOf type m steps) (p.run steps) := by
  induction steps generalizing events p
  case nil => exact (List.append_nil events).symm ▸ h
  case cons s steps hr =>
    have ⟨hstep, hrest⟩ := List.forall_mem_cons.mp ha
    cases hp : s.partOf? type m
    case none =>
      have hparts : partsOf type m (s :: steps) = partsOf type m steps :=
        List.filterMap_cons_none hp
      rw [hparts] at hi hn ⊢
      have hs := hstep.resolve_left (by simp [hp])
      exact hr (h.avoids hs fun e he => hi e (List.mem_append_left _ he)) hrest hi hn
    case some e =>
      have hparts : partsOf type m (s :: steps) = e :: partsOf type m steps :=
        List.filterMap_cons_some hp
      rw [hparts] at hi hn ⊢
      unfold Step.partOf? at hp
      split at hp
      case h_2 => simp at hp
      case h_1 now e' =>
        split at hp
        case isFalse => simp at hp
        case isTrue hc =>
          obtain ⟨rfl, hsync⟩ := hc
          obtain rfl := Option.some.inj hp
          rw [List.append_cons] at hi ⊢
          rw [List.length_cons] at hn
          refine hr (h.part hm hsync ?_ now) hrest hi ?_
          · omega
          · rw [List.length_append, List.length_singleton]
            omega

-- The last event of a run evicts the entries that are older than the run, as they are after the
-- event was delivered.
theorem Running.completes (h : Running e.type m events p) (hm : m.kind = .full)
    (hsync : e.sync = some m) (hn : m.totalSize = events.length + 1) (now : Moment) :
    ∃ cutoff n p', ((events ++ [e]).map (·.timestamp)).min? = some cutoff ∧
      (p.deliver now e).advanceRun now e = (n, some (.completed (some cutoff)), p') ∧
      p'.sync.session? (.full e.type) = none ∧
      (∃ store, (p.deliver now e).cache.store? e.type = some store ∧
        n = (store.olderThan cutoff).length) ∧
      ∀ id, Option.Rel Entry.Grows
        (((p.deliver now e).cache.cached? e.type id).filter fun entry => cutoff ≤ entry.timestamp)
        (p'.cache.cached? e.type id) := by
  have hmoves := p.moves_deliver now e
  have ⟨hk, hs⟩ := Cache.kin_and_sound_of_changes h.sound (changes_of_moves hmoves)
  have ⟨hcompleted, hidle⟩ := h.counts.completes hm (by simpa using hn.le) e.timestamp
  have hmap : (events ++ [e]).map (·.timestamp) = events.map (·.timestamp) ++ [e.timestamp] := by
    simp
  rw [← hmap] at hcompleted
  have ⟨cutoff, hmin⟩ : ∃ cutoff, ((events ++ [e]).map (·.timestamp)).min? = some cutoff := by
    rw [hmap, Sync.min?_concat]
    exact ⟨_, rfl⟩
  have hsame : (p.deliver now e).sync = p.sync := sync_deliver
  rw [hmin, ← hsame] at hcompleted
  have hcut : ((p.deliver now e).sync.record e.type m e.timestamp).1.evictBefore? =
      some cutoff := by
    rw [hcompleted]
    rfl
  have ⟨n, p', hev, ha⟩ :=
    (p.deliver now e).advanceRun_of_cutoff now hsync (hk.contains ▸ h.served) hcut
  let q : Pipeline Outbound := { p.deliver now e with
    sync := ((p.deliver now e).sync.record e.type m e.timestamp).2 }
  have ⟨hstore, c, hcached, hgrows⟩ := q.grows_evict now hs hev
  refine ⟨cutoff, n, p', hmin, ha.trans (by rw [hcompleted]), ?_, hstore, fun id => ?_⟩
  · rw [sync_evict hev]
    exact hsame ▸ hidle
  · have hg := hgrows e.type id
    unfold Cache.Grows at hg
    rw [hcached, if_pos rfl] at hg
    exact hg

end Running

-- After the last event of a FULL run the cache has what the run brought, at the run's first
-- timestamp or later, and of the other resources of the type only what is as late as that. Events
-- whose payloads are no resources count and bring nothing.
theorem evicts_undelivered (config : Config) (types : List (Descriptor × List String))
    (rules : Registry) (outbound : Outbound) (before steps : List Step) (now : Moment)
    (last : EntityEvent) (type : Descriptor) (correlationId : String) (total : Nat)
    (hserved : ((start config types rules outbound).run before).cache.contains type)
    (hidle : ((start config types rules outbound).run before).sync.session? (.full type) = none)
    (hfresh : correlationId ∉
      ((start config types rules outbound).run before).sync.supersededOf type)
    (hlast : last.type = type ∧ last.sync = some ⟨.full, correlationId, total⟩)
    (htotal : (partsOf type ⟨.full, correlationId, total⟩ steps ++ [last]).length = total)
    (havoids : ∀ s ∈ steps, (s.partOf? type ⟨.full, correlationId, total⟩).isSome ∨
      s.Avoids type
        ((partsOf type ⟨.full, correlationId, total⟩ steps ++ [last]).map (·.id))) :
    let p := ((start config types rules outbound).run before).run steps
    let events := partsOf type ⟨.full, correlationId, total⟩ steps ++ [last]
    let delivered := p.deliver now last
    let done := p.step (.entity now last)
    ∃ cutoff n, (events.map (·.timestamp)).min? = some cutoff ∧
      delivered.advanceRun now last = (n, some (.completed (some cutoff)), done) ∧
      (last.payload = none ∨ last.arrival?.isSome → ∃ derived,
        (p.processEntity now last).1 = .ok ⟨derived, n, some (.completed (some cutoff))⟩) ∧
      done.sync.session? (.full type) = none ∧
      (∀ id e a, lastOf? events id = some e → e.arrival? = some a →
        ∃ r, done.cache.get? type id = some r ∧ r.attributes = a.resource.attributes) ∧
      (∀ id entry, done.cache.cached? type id = some entry → cutoff ≤ entry.timestamp) ∧
      (∀ id, (done.cache.get? type id).isSome ↔
        ∃ entry, delivered.cache.cached? type id = some entry ∧ cutoff ≤ entry.timestamp) ∧
      (∃ store, delivered.cache.store? type = some store ∧
        n = (store.olderThan cutoff).length) ∧
      ∀ e ∈ events, e.payload.isSome → e.arrival? = none → ∀ now (q : Pipeline Outbound),
        q.deliver now e = q := by
  intro p events delivered done
  obtain ⟨rfl, hsync⟩ := hlast
  let m : SyncMetadata := ⟨.full, correlationId, total⟩
  have hmoves := moves_run (start config types rules outbound) before
  have hsound := (Cache.kin_and_sound_of_changes sound_start (changes_of_moves hmoves)).2
  have hstart : Running last.type m [] ((start config types rules outbound).run before) :=
    ⟨hsound, hserved, ⟨hfresh, hidle⟩, fun _ _ _ he => nomatch he⟩
  rw [List.length_append, List.length_singleton] at htotal
  have hrun : Running last.type m (partsOf last.type m steps) p := by
    refine hstart.run rfl havoids (fun e he => ?_) ?_
    · exact List.mem_map_of_mem (List.mem_append_left _ he)
    · rw [List.length_nil, Nat.zero_add]
      exact Nat.lt_of_succ_le htotal.le
  have ⟨cutoff, n, p', hmin, hadv, hdone, hstore, hrel⟩ :=
    hrun.completes rfl hsync htotal.symm now
  have hp : done = p' := (processEntity_eq now hrun.served).trans (by rw [hadv])
  have hdelivered : Delivered delivered.cache last.type events :=
    hrun.delivered.deliver now hrun.served
  refine ⟨cutoff, n, hmin, hp ▸ hadv, fun hw => ?_, hp ▸ hdone, fun id e a he ha => ?_,
    fun id entry he => ?_, fun id => ?_, hstore, fun e _ hpay ha now q => ?_⟩
  case refine_1 =>
    have ⟨us, c, hw⟩ := exists_write hrun.served hw
    refine ⟨us.length, ?_⟩
    rw [answer_of_write now hrun.served hw, hadv]
  case refine_2 =>
    have ⟨entry, hentry, hattr, ht⟩ := hdelivered id e a he ha
    have hle : cutoff ≤ e.timestamp := (List.min?_eq_some_iff.mp hmin).2 _
      (List.mem_map_of_mem (lastOf?_eq_some he).1)
    have ⟨entry', hentry', hgrows⟩ := exists_of_kept (hrel id) hentry (Int.le_trans hle ht)
    exact ⟨entry'.resource, by rw [hp, Cache.get?_eq, hentry', Option.map_some],
      hgrows.attributes.trans hattr⟩
  case refine_3 =>
    have ⟨_, _, ht, hgrows⟩ := exists_of_left (hrel id) (hp ▸ he)
    exact Int.le_trans ht hgrows.timestamp
  case refine_4 =>
    rw [hp, Cache.get?_eq, Option.isSome_map, Option.isSome_iff_exists]
    constructor
    · rintro ⟨entry, he⟩
      have ⟨entry', hentry', ht, _⟩ := exists_of_left (hrel id) he
      exact ⟨entry', hentry', ht⟩
    · rintro ⟨entry, he, ht⟩
      have ⟨entry', hentry', _⟩ := exists_of_kept (hrel id) he ht
      exact ⟨entry', hentry'⟩
  case refine_5 => exact deliver_of_unconvertible now hpay ha

section Resync

open Roster

-- A group of a run with three events.
def resent (value : String) (timestamp : Int) : EntityEvent :=
  { sent group value [] timestamp with sync := some ⟨.full, "run", 3⟩ }

def blank (value : String) (timestamp : Int) : EntityEvent :=
  { resent value timestamp with payload := some (.string value) }

-- One of the events is of no use, one is late, and a student joins a group in between.
def resync : List Step := [
  .entity ⟨2, 2⟩ (resent "b" 5),
  .entity ⟨3, 3⟩ (sent student "1" ["b"] 3),
  .entity ⟨4, 4⟩ (blank "c" 4)]

theorem get?_group_of_resync :
    let p := ((start {} types (.ofRules (rules .zeroOrMany)) ()).run
      [.entity ⟨1, 1⟩ (sent group "a" [] 1)]).run resync
    (∃ derived n, (p.processEntity ⟨5, 5⟩ (resent "d" 7)).1 =
      .ok ⟨derived, n, some (.completed (some 4))⟩) ∧
    ∃ r, (p.step (.entity ⟨5, 5⟩ (resent "d" 7))).cache.get? group "b" = some r ∧
      r.attributes = [("systemId", .string "b")] := by
  intro p
  have hserved : ((start {} types (.ofRules (rules .zeroOrMany)) ()).run
      [.entity ⟨1, 1⟩ (sent group "a" [] 1)]).cache.contains group := by
    decide +kernel
  have hidle : ((start {} types (.ofRules (rules .zeroOrMany)) ()).run
      [.entity ⟨1, 1⟩ (sent group "a" [] 1)]).sync.session? (.full group) = none := by
    decide +kernel
  have hfresh : "run" ∉ ((start {} types (.ofRules (rules .zeroOrMany)) ()).run
      [.entity ⟨1, 1⟩ (sent group "a" [] 1)]).sync.supersededOf group := by
    decide +kernel
  have hparts : partsOf group ⟨.full, "run", 3⟩ resync = [resent "b" 5, blank "c" 4] := rfl
  obtain ⟨cutoff, n, hmin, _, hok, _, hkept, _⟩ := evicts_undelivered {} types
    (.ofRules (rules .zeroOrMany)) () [.entity ⟨1, 1⟩ (sent group "a" [] 1)] resync ⟨5, 5⟩
    (resent "d" 7) group "run" 3 hserved hidle hfresh ⟨rfl, rfl⟩ (by rw [hparts]; rfl) (by
      rw [hparts]
      simp [resync, Step.partOf?, Step.Avoids, Silent, resent, blank, sent, student, group])
  rw [hparts] at hmin hkept
  obtain rfl : 4 = cutoff := Option.some.inj hmin
  obtain ⟨derived, hok⟩ := hok (.inr rfl)
  exact ⟨⟨derived, n, hok⟩, hkept "b" (resent "b" 5) _ rfl rfl⟩

end Resync

end LinkedCache.Pipeline
