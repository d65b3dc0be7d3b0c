import LinkedCache.Proofs.Run

-- The entries of a cache with their timestamps. An update leaves the attributes of its targets as
-- they are and never makes an entry older, so that links do not bring an eviction nearer.

namespace LinkedCache

-- What links may do to an entry.
structure Entry.Grows (e e' : Entry) : Prop where
  attributes : e'.resource.attributes = e.resource.attributes
  timestamp : e.timestamp ≤ e'.timestamp

theorem Entry.Grows.refl (e : Entry) : e.Grows e := ⟨rfl, Int.le_refl _⟩

theorem Entry.Grows.trans {e e' e'' : Entry} (h : e.Grows e') (h' : e'.Grows e'') : e.Grows e'' :=
  ⟨h'.attributes.trans h.attributes, Int.le_trans h.timestamp h'.timestamp⟩

theorem exists_of_some_rel {α β : Type} {r : α → β → Prop} {a : α} {o : Option β} :
    Option.Rel r (some a) o → ∃ b, o = some b ∧ r a b
  | .some h => ⟨_, rfl, h⟩

theorem exists_of_rel_some {α β : Type} {r : α → β → Prop} {b : β} {o : Option α} :
    Option.Rel r o (some b) → ∃ a, o = some a ∧ r a b
  | .some h => ⟨_, rfl, h⟩

section Cutoff

variable {o o' : Option Entry} {cutoff : Int} {e e' : Entry}

-- An entry that is late enough is kept and may grow, and what is left was late enough.
theorem exists_of_kept (h : Option.Rel Entry.Grows (o.filter fun e => cutoff ≤ e.timestamp) o')
    (he : o = some e) (ht : cutoff ≤ e.timestamp) : ∃ e', o' = some e' ∧ e.Grows e' := by
  rw [he, Option.filter_some, if_pos (decide_eq_true ht)] at h
  exact exists_of_some_rel h

theorem exists_of_left (h : Option.Rel Entry.Grows (o.filter fun e => cutoff ≤ e.timestamp) o')
    (he : o' = some e') : ∃ e, o = some e ∧ cutoff ≤ e.timestamp ∧ e.Grows e' := by
  have ⟨e, hf, hg⟩ := exists_of_rel_some (he ▸ h)
  have ⟨ho, ht⟩ := Option.filter_eq_some_iff.mp hf
  exact ⟨e, ho, of_decide_eq_true ht, hg⟩

end Cutoff

namespace Cache

variable {c c' c'' : Cache} {type other : Descriptor} {id i : String} {u : Update} {now t : Int}

def cached? (c : Cache) (type : Descriptor) (id : String) : Option Entry :=
  (c.store? type).bind fun store => store.entry? id

theorem get?_eq (c : Cache) (type : Descriptor) (id : String) :
    c.get? type id = (c.cached? type id).map (·.resource) := by
  unfold get? cached?
  cases c.store? type <;> rfl

theorem cached?_of_store? {store : Store} (h : c.store? type = some store) (id : String) :
    c.cached? type id = store.entry? id := by
  simp [cached?, h]

theorem cached?_withStore {old : Store} (store : Store) (ho : c.store? type = some old)
    (ht : store.type = old.type) (other : Descriptor) (id : String) :
    (c.withStore store).cached? other id =
      if other = type then store.entry? id else c.cached? other id := by
  have ht := ht.trans (type_of_store? ho)
  unfold cached?
  rw [store?_withStore, ht]
  split
  case isTrue he => simp [he, ho]
  case isFalse => rfl

-- Whether an entry, if there is one, grew, and none came or went.
def Grows (c c' : Cache) (type : Descriptor) (id : String) : Prop :=
  Option.Rel Entry.Grows (c.cached? type id) (c'.cached? type id)

theorem Grows.refl (c : Cache) (type : Descriptor) (id : String) : c.Grows c type id := by
  unfold Grows
  cases c.cached? type id
  case none => exact .none
  case some e => exact .some (.refl e)

theorem Grows.of_eq (h : c'.cached? type id = c.cached? type id) : c.Grows c' type id := by
  have hr := Grows.refl c type id
  unfold Grows at hr ⊢
  rwa [h]

theorem Grows.trans (h : c.Grows c' type id) (h' : c'.Grows c'' type id) :
    c.Grows c'' type id := by
  unfold Grows at h h' ⊢
  revert h h'
  cases c.cached? type id <;> cases c'.cached? type id <;> cases c''.cached? type id <;>
    rintro (h | _) (h' | _)
  case none.none.none => exact .none
  case some.some.some => exact .some (h.trans h')

theorem Grows.exists_after {e : Entry} (h : c.Grows c' type id)
    (he : c.cached? type id = some e) : ∃ e', c'.cached? type id = some e' ∧ e.Grows e' :=
  exists_of_some_rel (he ▸ h)

theorem Grows.isSome_iff (h : c.Grows c' type id) :
    (c'.get? type id).isSome ↔ (c.get? type id).isSome := by
  unfold Grows at h
  rw [get?_eq, get?_eq, Option.isSome_map, Option.isSome_map]
  revert h
  cases c.cached? type id <;> cases c'.cached? type id <;> rintro (_ | _) <;> rfl

theorem target?_eq_some {identity : String} {store : Store} {e : Entry}
    (h : c.target? type identity = some (store, e)) :
    c.store? type = some store ∧ store.entry? e.id = some e := by
  unfold target? at h
  cases hs : c.store? type
  case none => simp [hs] at h
  case some store' =>
    cases hi : store'.resolve? identity
    case none => simp [hs, hi] at h
    case some id =>
      cases he : Store.entry? store' id
      case none => simp [hs, hi, he] at h
      case some e' =>
        simp only [hs, hi, he, Option.bind_eq_bind, Option.bind_some, Option.pure_def,
          Option.some.injEq, Prod.mk.injEq] at h
        obtain ⟨rfl, rfl⟩ := h
        exact ⟨rfl, Store.entry?_id he ▸ he⟩

theorem grows_applyToEntry {store : Store} {e : Entry} (hs : c.store? u.target = some store)
    (he : store.entry? e.id = some e) (type : Descriptor) (id : String) :
    c.Grows (c.applyToEntry u store e) type id := by
  unfold applyToEntry
  dsimp only
  split
  case isFalse => exact .refl c type id
  case isTrue =>
    have ha := (u.acts_applyLinks e.resource).attributes
    rw [putIfCurrent_eq _ _ he]
    generalize (e.resource.applyLinks u.operation u.binding.relation u.binding.links).1 = r at ha
    have hw := cached?_withStore (store.overwrite e r (max e.timestamp u.timestamp)) hs rfl type id
    have hc : c.Grows (c.withStore (store.overwrite e r (max e.timestamp u.timestamp)))
        type id := by
      by_cases ht : type = u.target ∧ id = e.id
      case pos =>
        obtain ⟨rfl, rfl⟩ := ht
        unfold Grows
        rw [hw, if_pos rfl, Store.entry?_overwrite_self he, cached?_of_store? hs, he]
        exact .some ⟨ha, Int.le_max_left ..⟩
      case neg =>
        refine .of_eq (hw.trans ?_)
        split
        case isTrue hi =>
          rw [Store.entry?_overwrite_of_ne fun h => ht ⟨hi, h⟩, hi, cached?_of_store? hs]
        case isFalse => rfl
    exact hc

theorem grows_applyToTarget (identity : String) :
    c.Grows (c.applyToTarget u identity now).2 type id := by
  unfold applyToTarget
  split
  case h_1 store e h =>
    have ⟨hs, he⟩ := target?_eq_some h
    exact grows_applyToEntry hs he type id
  case h_2 => exact .refl c type id
  case h_3 => exact .refl c type id

theorem grows_apply (c : Cache) (u : Update) (now : Int) (type : Descriptor) (id : String) :
    c.Grows (c.apply u now).2 type id := by
  unfold apply
  split
  case isFalse => exact .refl c type id
  case isTrue hu =>
    clear hu
    dsimp only
    generalize true = all
    induction u.targetIds generalizing c all
    case nil => exact .refl c type id
    case cons identity ids hi => exact (grows_applyToTarget identity).trans (hi _ _)

theorem cached?_reconcile {incoming : Resource} {us : List Update}
    (h : c.reconcile type id incoming t = .ok (us, c')) :
    (∃ e, c'.cached? type id = some e ∧ e.resource.attributes = incoming.attributes ∧
      e.timestamp = t) ∧
    ∀ other i, ¬(other = type ∧ i = id) → c'.cached? other i = c.cached? other i := by
  unfold reconcile at h
  split at h
  case h_1 => simp at h
  case h_2 store hs =>
    simp only [Except.ok.injEq, Prod.mk.injEq] at h
    obtain ⟨-, rfl⟩ := h
    generalize hp : Resource.mergeInverse type (c.rules.inverseRelationsOf type)
      (incoming.identities store.fields) (store.get? id) incoming c.buffer = p
    have ha : p.1.attributes = incoming.attributes := hp ▸ Resource.attributes_mergeInverse
    have hw := cached?_withStore (store.put id p.1 t) hs (by simp)
    constructor
    · have ⟨e, he, hr, ht, _⟩ := store.entry?_put_self id p.1 t
      exact ⟨e, (hw type id).trans ((if_pos rfl).trans he), hr ▸ ha, ht⟩
    · intro other i hn
      refine (hw other i).trans ?_
      split
      case isTrue ho => rw [Store.entry?_put_of_ne fun h => hn ⟨ho, h⟩, ho, cached?_of_store? hs]
      case isFalse => rfl

theorem cached?_remove {us : List Update} (h : c.remove type id t = .ok (us, c'))
    (hn : ¬(other = type ∧ i = id)) : c'.cached? other i = c.cached? other i := by
  unfold remove at h
  split at h
  case h_1 => simp at h
  case h_2 store hs =>
    have hw := cached?_withStore (store.remove id t) hs (by simp) other i
    have he : c' = { c.withStore (store.remove id t) with
        locks := (c.locks.acquire ⟨type, id⟩).release ⟨type, id⟩ } := by
      dsimp only at h
      split at h <;> cases h <;> rfl
    rw [he]
    refine hw.trans ?_
    split
    case isTrue ho => rw [Store.entry?_remove_of_ne fun h => hn ⟨ho, h⟩, ho, cached?_of_store? hs]
    case isFalse => rfl

-- An eviction takes the entries before the cutoff, and leaves the others as they are.
theorem cached?_evict {es : List Entry} {cutoff : Int} (hm : c.Sound)
    (h : c.evict type cutoff = .ok (es, c')) :
    (∃ store, c.store? type = some store ∧ es = store.olderThan cutoff) ∧
    ∀ other i, c'.cached? other i =
      if other = type then (c.cached? type i).filter fun e => cutoff ≤ e.timestamp
      else c.cached? other i := by
  unfold evict at h
  split at h
  case h_1 => simp at h
  case h_2 store hs =>
    simp only [Except.ok.injEq, Prod.mk.injEq] at h
    obtain ⟨rfl, rfl⟩ := h
    refine ⟨⟨store, hs, rfl⟩, fun other i => ?_⟩
    rw [cached?_withStore _ hs (by simp), Store.entry?_evict (hm.store? hs).nodup,
      cached?_of_store? hs]

theorem exists_evict (h : c.contains type) (cutoff : Int) :
    ∃ es c', c.evict type cutoff = .ok (es, c') := by
  have ⟨_, hs⟩ := Option.isSome_iff_exists.mp h
  unfold evict
  rw [hs]
  exact ⟨_, _, rfl⟩

end Cache

namespace Pipeline

variable {Outbound : Type} [Publisher Outbound] (p : Pipeline Outbound) {p' : Pipeline Outbound}
  (now : Moment) {type : Descriptor} {id : String}

theorem grows_dispatch (u : Update) : p.cache.Grows (p.dispatch now u).2.cache type id := by
  rw [cache_dispatch]
  exact Cache.grows_apply ..

theorem grows_dispatchAll (us : List Update) :
    p.cache.Grows (p.dispatchAll now us).cache type id := by
  unfold dispatchAll
  induction us generalizing p
  case nil => exact .refl ..
  case cons u us hi => exact (p.grows_dispatch now u).trans (hi _)

theorem grows_pass : p.cache.Grows (p.pass now).2.cache type id :=
  cache_pass_induct p now (P := fun c => p.cache.Grows c type id) (.refl ..)
    fun _ _ _ _ hc => hc.trans (Cache.grows_apply ..)

-- What an eviction dispatches makes no other entry old.
theorem grows_evict {n : Nat} {evicted : Descriptor} {cutoff : Int} (hs : p.cache.Sound)
    (h : p.evict now evicted cutoff = .ok (n, p')) :
    (∃ store, p.cache.store? evicted = some store ∧ n = (store.olderThan cutoff).length) ∧
    ∃ c : Cache, (∀ type id, c.cached? type id =
        if type = evicted then (p.cache.cached? evicted id).filter fun e => cutoff ≤ e.timestamp
        else p.cache.cached? type id) ∧
      ∀ type id, c.Grows p'.cache type id := by
  obtain ⟨es, c, us, he, rfl, rfl, -⟩ := p.exists_of_evict now h
  obtain ⟨⟨store, hstore, rfl⟩, hc⟩ := Cache.cached?_evict hs he
  exact ⟨⟨store, hstore, rfl⟩, c, hc, fun _ _ => (p.withCache c).grows_dispatchAll now us⟩

end Pipeline
end LinkedCache
