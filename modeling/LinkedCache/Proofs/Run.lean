import Mathlib.Logic.Relation
import LinkedCache.Pipeline
import LinkedCache.Proofs.Queue
import LinkedCache.Proofs.Reconcile

-- Pipelines at work. Whatever a pipeline does, it changes its cache by a sequence of a few changes,
-- so that what each of these preserves holds of every pipeline that is reached.

namespace LinkedCache

namespace Cache

variable {c c' : Cache} {u : Update} {now : Int}

inductive Change : Cache → Cache → Prop
  | apply {c : Cache} (u : Update) (now : Int) : Change c (c.apply u now).2
  | write {c c' : Cache} {type : Descriptor} {id : String} {r : Resource} {t : Int}
    {us : List Update} (h : c.reconcile type id r t = .ok (us, c')) : Change c c'
  | remove {c c' : Cache} {type : Descriptor} {id : String} {t : Int} {us : List Update}
    (h : c.remove type id t = .ok (us, c')) : Change c c'
  | evict {c c' : Cache} {type : Descriptor} {cutoff : Int} {es : List Entry}
    (h : c.evict type cutoff = .ok (es, c')) : Change c c'
  | cleanUp {c : Cache} (now : Int) : Change c { c with buffer := c.buffer.cleanUp now }

abbrev Changes : Cache → Cache → Prop := Relation.ReflTransGen Change

theorem kin_and_sound_of_change (h : c.Sound) : c.Change c' → c.Kin c' ∧ c'.Sound
  | .apply _ _ => (apply_induct h trivial fun _ _ _ _ _ _ _ _ => trivial).2
  | .write hw => ⟨(writes_reconcile h hw).kin, (writes_reconcile h hw).sound⟩
  | .remove hr => ⟨(removes_remove h hr).kin, (removes_remove h hr).sound⟩
  | .evict he => ⟨(evicts_evict h he).kin, (evicts_evict h he).sound⟩
  | .cleanUp _ => ⟨⟨rfl, rfl⟩, h⟩

theorem kin_and_sound_of_changes (h : c.Sound) (hc : c.Changes c') : c.Kin c' ∧ c'.Sound := by
  induction hc
  case refl => exact ⟨.refl c, h⟩
  case tail hs hi =>
    have ⟨hk, hm⟩ := kin_and_sound_of_change hi.2 hs
    exact ⟨hi.1.trans hk, hm⟩

end Cache

namespace Cache

theorem mem_of_mem_install {s store : Store} {stores : List Store}
    (h : s ∈ install store stores) : s = store ∨ s ∈ stores := by
  induction stores
  case nil => exact .inl (List.mem_singleton.mp h)
  case cons s' stores hi =>
    unfold install at h
    split at h
    all_goals
      obtain rfl | h := List.mem_cons.mp h
    case isTrue.inl => exact .inl rfl
    case isTrue.inr => exact .inr (.tail _ h)
    case isFalse.inl => exact .inr (.head _)
    case isFalse.inr => exact (hi h).imp_right (.tail _)

theorem empty_of_mem_ofTypes {types : List (Descriptor × List String)} {s : Store}
    (retentionMs : Nat) (h : s ∈ (ofTypes types retentionMs).stores) :
    ∃ tf ∈ types, s = Store.empty tf.1 tf.2 := by
  suffices hs : ∀ stores, s ∈ types.foldl (fun stores tf =>
      install (Store.empty tf.1 tf.2) stores) stores →
      s ∈ stores ∨ ∃ tf ∈ types, s = Store.empty tf.1 tf.2 from
    (hs [] h).resolve_left (by simp)
  clear h
  induction types
  case nil => exact fun _ => .inl
  case cons tf types hi =>
    intro stores h
    obtain h | ⟨tf', hm, he⟩ := hi _ h
    case inr => exact .inr ⟨tf', .tail _ hm, he⟩
    case inl => exact (mem_of_mem_install h).symm.imp_right fun he => ⟨tf, .head _, he⟩

end Cache

namespace Pipeline

section Start

variable {Outbound : Type} (config : Config) (types : List (Descriptor × List String))
  (rules : Registry) (outbound : Outbound)

-- A pipeline without any resources yet.
def start : Pipeline Outbound where
  config
  router := {
    cache := { Cache.ofTypes types (1000 * config.bufferRetentionSecs) with rules }
    outbound }

theorem ofSchema_eq_start (schema : Schema) :
    ofSchema config schema outbound =
      start config (schema.cachedTypes config.domain config.package)
        (Registry.ofRules schema.rules) outbound :=
  rfl

variable {config types rules outbound}

theorem empty_of_mem_start {s : Store}
    (h : s ∈ (start config types rules outbound).cache.stores) :
    ∃ tf ∈ types, s = Store.empty tf.1 tf.2 :=
  Cache.empty_of_mem_ofTypes (1000 * config.bufferRetentionSecs) h

theorem sound_start : (start config types rules outbound).cache.Sound := by
  intro s hs
  have ⟨_, _, he⟩ := empty_of_mem_start hs
  exact he ▸ Store.mirrors_empty ..

theorem get?_start (type : Descriptor) (id : String) :
    (start config types rules outbound).cache.get? type id = none := by
  unfold Cache.get?
  cases hs : (start config types rules outbound).cache.store? type
  case none => rfl
  case some s =>
    have ⟨_, _, he⟩ := empty_of_mem_start (List.mem_of_find?_eq_some hs)
    rw [he]
    rfl

theorem numbered_start : (start config types rules outbound).retry.Numbered :=
  Retry.Queue.numbered_empty

theorem not_offers_start (n : Nat) (u : Update) :
    ¬(start config types rules outbound).retry.Offers n u := by
  simp [start, Retry.Queue.Offers]

theorem not_awaits_start (a : Address) (key : String) :
    ¬(start config types rules outbound).cache.buffer.Awaits a key :=
  Buffer.not_awaits_empty _

end Start

end Pipeline

namespace Router

variable {Outbound : Type} [Publisher Outbound] (r : Router Outbound) (u : Update) (now : Int)

@[simp]
theorem cache_route : (r.route u now).2.cache = (r.cache.apply u now).2 := by
  unfold route
  split
  case h_3 h => simp only [h]; split <;> rfl
  all_goals simp only [*]

@[simp]
theorem cache_redeliver : (r.redeliver u now).2.cache = (r.cache.apply u now).2 := by
  rw [← cache_route]
  unfold redeliver
  split <;> simp only [*]

end Router

namespace Pipeline

section Run

variable {Outbound : Type} [Publisher Outbound] (p : Pipeline Outbound)

-- What can happen to a pipeline.
inductive Step
  | entity (now : Moment) (e : EntityEvent)
  | relation (now : Moment) (e : RelationEvent)
  | dispatch (now : Moment) (u : Update)
  | evict (now : Moment) (type : Descriptor) (cutoff : Int)
  | cleanUp (now : Moment)
  | pass (now : Moment)

def step : Step → Pipeline Outbound
  | .entity now e => (p.processEntity now e).2
  | .relation now e => (p.processRelation now e).2
  | .dispatch now u => (p.dispatch now u).2
  | .evict now type cutoff =>
    match p.evict now type cutoff with
    | .ok (_, p) => p
    | .error _ => p
  | .cleanUp now => p.cleanUp now
  | .pass now => (p.pass now).2

def run (steps : List Step) : Pipeline Outbound :=
  steps.foldl step p

end Run

section Moves

variable {Outbound : Type} [Publisher Outbound]

-- What a step is made of.
inductive Move : Pipeline Outbound → Pipeline Outbound → Prop
  | change {p : Pipeline Outbound} {c : Cache} (h : p.cache.Change c) : Move p (p.withCache c)
  | track {p : Pipeline Outbound} (sync : Sync.Tracker) : Move p { p with sync }
  | dispatch {p : Pipeline Outbound} (now : Moment) (u : Update) : Move p (p.dispatch now u).2
  | pass {p : Pipeline Outbound} (now : Moment) : Move p (p.pass now).2

abbrev Moves : Pipeline Outbound → Pipeline Outbound → Prop := Relation.ReflTransGen Move

variable (p : Pipeline Outbound) {p' : Pipeline Outbound} (now : Moment)

theorem moves_dispatchAll (us : List Update) : p.Moves (p.dispatchAll now us) := by
  unfold dispatchAll
  induction us generalizing p
  case nil => exact .refl
  case cons u us hi => exact .head (.dispatch now u) (hi (p.dispatch now u).2)

@[simp]
theorem cache_dispatch (u : Update) :
    (p.dispatch now u).2.cache = (p.cache.apply u now.wall).2 := by
  unfold dispatch cache
  rw [← Router.cache_route]
  dsimp only
  split <;> rfl

-- A pass applies updates that were offered.
theorem cache_pass_induct {P : Cache → Prop} (h : P p.cache)
    (hp : ∀ item ∈ p.retry.due now.ticks, p.retry.isLive item → ∀ c, P c →
      P (c.apply item.update now.wall).2) : P (p.pass now).2.cache := by
  unfold pass
  refine Retry.Worker.pass_induct (w := (p.router, [])) (P := fun _ w => P w.1.cache) h ?_
  intro item hm hl q w hc
  have hd : P ((delivery now.wall).deliver now.ticks item.update w).2.1.cache :=
    Router.cache_redeliver w.1 item.update now.wall ▸ hp item hm hl _ hc
  obtain hw | ⟨_, hw⟩ := Retry.Worker.attempt_world p.policy q item
  all_goals exact hw ▸ hd

theorem retry_dispatch (u : Update) :
    (p.dispatch now u).2.retry = p.retry.enqueue p.policy now.ticks u ∨
      (p.dispatch now u).2.retry = p.retry.noteApplied u := by
  unfold dispatch
  dsimp only
  split
  case h_3 => exact .inr rfl
  all_goals exact .inl rfl

theorem retry_dispatch_of_buffered {u : Update}
    (h : (p.router.route u now.wall).1 = .ok .buffered) :
    (p.dispatch now u).2.retry = p.retry.enqueue p.policy now.ticks u := by
  unfold dispatch
  dsimp only
  rw [h]
  rfl

-- An update that has to wait is all that a fresh pipeline offers.
theorem offers_start_dispatch_iff {config : Config} {types : List (Descriptor × List String)}
    {rules : Registry} {outbound : Outbound} {u v : Update} {n : Nat}
    (h : ((start config types rules outbound).router.route u now.wall).1 = .ok .buffered) :
    ((start config types rules outbound).dispatch now u).2.retry.Offers n v ↔ n = 0 ∧ v = u := by
  rw [retry_dispatch_of_buffered _ now h, Retry.Queue.offers_enqueue numbered_start,
    or_iff_right fun ho => not_offers_start n v ho.1]
  rfl

-- A dispatch offers nothing new but its own update.
theorem offers_of_dispatch {u v : Update} {n : Nat} (h : p.retry.Numbered)
    (ho : (p.dispatch now u).2.retry.Offers n v) :
    (p.retry.Offers n v ∧ v.supersedeKey ≠ u.supersedeKey) ∨ v = u := by
  obtain hr | hr := p.retry_dispatch now u <;> rw [hr] at ho
  case inl => exact ((Retry.Queue.offers_enqueue h).mp ho).imp_right (·.2)
  case inr => exact .inl (Retry.Queue.offers_noteApplied.mp ho)

-- A dispatch makes obsolete what is offered under the key, and nothing else.
theorem offers_dispatch {u v : Update} {n : Nat} (h : p.retry.Numbered) (hn : n < p.retry.nextSeq) :
    (p.dispatch now u).2.retry.Offers n v ↔
      p.retry.Offers n v ∧ v.supersedeKey ≠ u.supersedeKey := by
  obtain hr | hr := p.retry_dispatch now u <;> rw [hr]
  case inl => rw [Retry.Queue.offers_enqueue h, or_iff_left fun he => hn.ne he.1]
  case inr => rw [Retry.Queue.offers_noteApplied]

theorem within_pass (h : p.retry.Numbered) : p.retry.Within (p.pass now).2.retry :=
  Retry.Worker.within_pass h

variable {p}

theorem later_of_move (h : p.retry.Numbered) : p.Move p' → p.retry.Later p'.retry
  | .change _ | .track _ => .refl h
  | .dispatch now u => by
    obtain hr | hr := p.retry_dispatch now u <;> rw [hr]
    case inl => exact Retry.Queue.later_enqueue h
    case inr => exact Retry.Queue.later_noteApplied h
  | .pass now => (p.within_pass now h).later

theorem later_of_moves (h : p.retry.Numbered) (hm : p.Moves p') : p.retry.Later p'.retry := by
  induction hm
  case refl => exact .refl h
  case tail hm hi => exact hi.trans (later_of_move hi.numbered hm)

theorem changes_of_move : p.Move p' → p.cache.Changes p'.cache
  | .change h => .single h
  | .track _ => .refl
  | .dispatch now u => .single (cache_dispatch p now u ▸ .apply u now.wall)
  | .pass now => cache_pass_induct p now .refl fun _ _ _ _ hc => hc.tail (.apply _ _)

theorem changes_of_moves (h : p.Moves p') : p.cache.Changes p'.cache := by
  induction h
  case refl => exact .refl
  case tail hm hi => exact hi.trans (changes_of_move hm)

variable (p)

theorem dispatchAll_append (us us' : List Update) :
    p.dispatchAll now (us ++ us') = (p.dispatchAll now us).dispatchAll now us' :=
  List.foldl_append ..

theorem answers_dispatchAll (us : List Update) (h : p.cache.Sound) (type : Descriptor)
    (i id : String) :
    (p.dispatchAll now us).cache.Answers type i id ↔ p.cache.Answers type i id := by
  unfold dispatchAll
  induction us generalizing p
  case nil => rfl
  case cons u us hi =>
    have hs := (Cache.kin_and_sound_of_change h (.apply u now.wall)).2
    rw [← cache_dispatch] at hs
    rw [List.foldl_cons, hi _ hs, cache_dispatch, Cache.answers_apply u now.wall h]

-- What is true up to some updates that are still to be made is true when they are made.
theorem dispatchAll_induct {P : List Update → Pipeline Outbound → Prop} {us : List Update}
    (hp : ∀ u us p, P (u :: us) p → P us (p.dispatch now u).2) (h : P us p) :
    P [] (p.dispatchAll now us) := by
  unfold dispatchAll
  induction us generalizing p
  case nil => exact h
  case cons u us hi => exact hi _ (hp u _ p h)

-- An eviction takes entries out, and then dispatches what withdraws their links.
theorem exists_of_evict {type : Descriptor} {cutoff : Int} {n : Nat}
    (h : p.evict now type cutoff = .ok (n, p')) :
    ∃ es c us, p.cache.evict type cutoff = .ok (es, c) ∧ n = es.length ∧
      p' = (p.withCache c).dispatchAll now us ∧
      (c.Sound → us = es.flatMap fun e => c.removalUpdates type e.resource cutoff) := by
  unfold evict at h
  split at h
  case h_1 => simp at h
  case h_2 es c he =>
    simp only [Except.ok.injEq, Prod.mk.injEq] at h
    obtain ⟨rfl, rfl⟩ := h
    suffices hs : ∀ q : Pipeline Outbound, ∃ us,
        es.foldl (fun p e =>
          p.dispatchAll now (p.cache.removalUpdates type e.resource cutoff)) q =
          q.dispatchAll now us ∧
        (q.cache.Sound → us = es.flatMap fun e => q.cache.removalUpdates type e.resource cutoff) by
      have ⟨us, hp, hu⟩ := hs (p.withCache c)
      exact ⟨es, c, us, he, rfl, hp, hu⟩
    clear he
    induction es
    case nil => exact fun _ => ⟨[], rfl, fun _ => rfl⟩
    case cons e es hi =>
      intro q
      have ⟨us, hp, hu⟩ := hi (q.dispatchAll now (q.cache.removalUpdates type e.resource cutoff))
      refine ⟨q.cache.removalUpdates type e.resource cutoff ++ us, ?_, fun hs => ?_⟩
      · rw [List.foldl_cons, hp, dispatchAll_append]
      · have hm := q.moves_dispatchAll now (q.cache.removalUpdates type e.resource cutoff)
        have ⟨hk, hs'⟩ := Cache.kin_and_sound_of_changes hs (changes_of_moves hm)
        rw [hu hs', hk.removalUpdates, List.flatMap_cons]

theorem evicts_of_evict {type : Descriptor} {cutoff : Int} {n : Nat} {c₀ : Cache}
    (hk : c₀.Kin p.cache) (hs : p.cache.Sound) (h : p.evict now type cutoff = .ok (n, p')) :
    ∃ es c, p.cache.Evicts type es c ∧ p' = (p.withCache c).dispatchAll now
      (es.flatMap fun e => c₀.removalUpdates type e.resource cutoff) := by
  obtain ⟨es, c, us, he, -, rfl, hu⟩ := p.exists_of_evict now h
  have hev := Cache.evicts_evict hs he
  refine ⟨es, c, hev, ?_⟩
  rw [hu hev.sound, (hk.trans hev.kin).removalUpdates]

theorem moves_evict {type : Descriptor} {cutoff : Int} {n : Nat}
    (h : p.evict now type cutoff = .ok (n, p')) : p.Moves p' := by
  obtain ⟨es, c, us, he, -, rfl, -⟩ := p.exists_of_evict now h
  exact .head (.change (.evict he)) (moves_dispatchAll _ now us)

omit [Publisher Outbound] in
theorem change_write {e : EntityEvent} {us : List Update} {c : Cache}
    (h : p.write e = .ok (us, c)) : p.cache.Change c := by
  unfold write at h
  split at h
  case h_1 => exact .remove h
  case h_2 payload _ =>
    cases hr : Resource.ofValue payload
    case error => simp [hr, bind, Except.bind] at h
    case ok r =>
      rw [hr] at h
      exact .write h

theorem moves_advanceRun (e : EntityEvent) : p.Moves (p.advanceRun now e).2.2 := by
  unfold advanceRun
  split
  case h_1 => exact .refl
  case h_2 m _ =>
    refine .head (.track (p.sync.record e.type m e.timestamp).2) ?_
    dsimp only
    split
    case h_1 => exact .refl
    case h_2 cutoff _ =>
      split
      case h_1 he => exact moves_evict _ now he
      case h_2 => exact .refl

theorem moves_processEntity (e : EntityEvent) : p.Moves (p.processEntity now e).2 := by
  unfold processEntity
  split
  case isFalse => exact .refl
  case isTrue =>
    split
    case h_1 us c hw =>
      refine .head (.change (change_write p hw)) ?_
      exact ((p.withCache c).moves_dispatchAll now us).trans (moves_advanceRun _ now e)
    case h_2 => exact p.moves_advanceRun now e

theorem moves_processRelation (e : RelationEvent) : p.Moves (p.processRelation now e).2 := by
  unfold processRelation
  split
  case h_1 => exact .refl
  case h_2 => exact .single (.dispatch now _)

theorem moves_step (s : Step) : p.Moves (p.step s) := by
  cases s
  case entity now e => exact p.moves_processEntity now e
  case relation now e => exact p.moves_processRelation now e
  case dispatch now u => exact .single (.dispatch now u)
  case evict now type cutoff =>
    unfold step
    dsimp only
    split
    case h_1 h => exact p.moves_evict now h
    case h_2 => exact .refl
  case cleanUp now => exact .single (.change (.cleanUp now.wall))
  case pass now => exact .single (.pass now)

theorem moves_run (steps : List Step) : p.Moves (p.run steps) := by
  induction steps generalizing p
  case nil => exact .refl
  case cons s steps hi => exact (p.moves_step s).trans (hi (p.step s))

theorem sound_run {config : Config} {types : List (Descriptor × List String)} {rules : Registry}
    {outbound : Outbound} (steps : List Step) :
    ((start config types rules outbound).run steps).cache.Sound :=
  (Cache.kin_and_sound_of_changes sound_start (changes_of_moves (moves_run _ steps))).2

end Moves

end Pipeline
end LinkedCache
