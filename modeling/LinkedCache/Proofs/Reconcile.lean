import LinkedCache.Proofs.Apply

-- What writing, removing and evicting resources does to a cache. A write merges the incoming
-- resource with the links that rules put on the old one and those that wait for it.

namespace LinkedCache

open Text (lower)

namespace Resource

variable {r r' old : Resource} {b : Buffer} {a : Address} {type : Descriptor} {ids : List String}
  {relations : List String} {relation other key : String}

theorem hasRelation_congr (h : r.links relation = r'.links relation) :
    r.hasRelation relation = r'.hasRelation relation := by
  rw [hasRelation, h, ← hasRelation]

theorem reaches_congr (h : r.links relation = r'.links relation) :
    r.Reaches relation key ↔ r'.Reaches relation key := by
  rw [Reaches, h, ← Reaches]

-- Whether a write brings an old link over.
def Carries (r : Resource) (old : Option Resource) (relation key : String) : Prop :=
  ¬r.hasRelation relation ∧ ∃ o, old = some o ∧ o.Reaches relation key

@[simp]
theorem attributes_carryOver (old : Option Resource) :
    (r.carryOver old relation).attributes = r.attributes := by
  cases old
  case none => rfl
  case some o =>
    simp only [carryOver]
    split <;> simp

theorem links_carryOver_of_ne {old : Option Resource} (h : other ≠ relation) :
    (r.carryOver old relation).links other = r.links other := by
  cases old
  case none => rfl
  case some o =>
    simp only [carryOver]
    split
    case isTrue => rfl
    case isFalse => exact links_addAll_of_ne h

theorem reaches_carryOver {old : Option Resource} :
    (r.carryOver old relation).Reaches other key ↔
      r.Reaches other key ∨ (other = relation ∧ r.Carries old relation key) := by
  cases old
  case none => simp [carryOver, Carries]
  case some o =>
    simp only [carryOver, Carries]
    split
    case isTrue h => simp [h]
    case isFalse h =>
      simp only [h, reaches_addAll, mem_links_iff, Option.some.injEq, exists_eq_left', true_and,
        not_false_eq_true, Bool.false_eq_true]

-- Which addresses a resource takes the waiting links from.
def Takes (type : Descriptor) (ids : List String) (relation : String) (a : Address) : Prop :=
  ∃ i ∈ ids, a = Address.of type i relation

@[simp]
theorem attributes_takeWaiting :
    (takeWaiting type ids relation r b).1.attributes = r.attributes := by
  unfold takeWaiting
  induction ids generalizing r b
  case nil => rfl
  case cons i ids hi => rw [List.foldl_cons, hi, attributes_addAll]

theorem links_takeWaiting_of_ne (h : other ≠ relation) :
    (takeWaiting type ids relation r b).1.links other = r.links other := by
  unfold takeWaiting
  induction ids generalizing r b
  case nil => rfl
  case cons i ids hi => rw [List.foldl_cons, hi, links_addAll_of_ne h]

theorem awaits_takeWaiting :
    (takeWaiting type ids relation r b).2.Awaits a key ↔
      b.Awaits a key ∧ ¬Takes type ids relation a := by
  unfold takeWaiting
  induction ids generalizing r b
  case nil => simp [Takes]
  case cons i ids hi =>
    rw [List.foldl_cons, hi, Buffer.awaits_clear, and_assoc, ← not_or]
    simp only [Takes, List.mem_cons, exists_eq_or_imp]

theorem reaches_takeWaiting :
    (takeWaiting type ids relation r b).1.Reaches other key ↔
      r.Reaches other key ∨
        (other = relation ∧ ∃ a, Takes type ids relation a ∧ b.Awaits a key) := by
  unfold takeWaiting
  induction ids generalizing r b
  case nil => simp [Takes]
  case cons i ids hi =>
    rw [List.foldl_cons, hi, reaches_addAll, Buffer.mem_links_iff, or_assoc, ← and_or_left]
    refine or_congr_right (and_congr_right fun _ => ?_)
    constructor
    · rintro (h | ⟨a, ⟨i', hm, ha⟩, h⟩)
      · exact ⟨_, ⟨i, .head _, rfl⟩, h⟩
      · exact ⟨a, ⟨i', .tail _ hm, ha⟩, (Buffer.awaits_clear.mp h).1⟩
    · rintro ⟨a, ⟨i', hm, ha⟩, h⟩
      by_cases he : a = Address.of type i relation
      case pos => exact .inl (he ▸ h)
      case neg =>
        refine .inr ⟨a, ⟨i', ?_, ha⟩, Buffer.awaits_clear.mpr ⟨h, he⟩⟩
        exact (List.mem_cons.mp hm).resolve_left fun hi => he (hi ▸ ha)

theorem Takes.relation_eq : Takes type ids relation a → a.relation = relation
  | ⟨_, _, h⟩ => h ▸ rfl

-- The part that one relation has in a merge.
def merged (type : Descriptor) (ids : List String) (old : Option Resource) (r : Resource)
    (b : Buffer) (relation : String) : Resource × Buffer :=
  takeWaiting type ids relation (r.carryOver old relation) b

section Merged

variable {o : Option Resource}

theorem links_merged_of_ne (h : other ≠ relation) :
    (merged type ids o r b relation).1.links other = r.links other := by
  rw [merged, links_takeWaiting_of_ne h, links_carryOver_of_ne h]

theorem reaches_merged :
    (merged type ids o r b relation).1.Reaches relation key ↔
      r.Reaches relation key ∨ r.Carries o relation key ∨
        ∃ a, Takes type ids relation a ∧ b.Awaits a key := by
  simp only [merged, reaches_takeWaiting, reaches_carryOver, true_and, or_assoc]

theorem not_carries_merged : ¬(merged type ids o r b relation).1.Carries o relation key := by
  rintro ⟨hn, ho⟩
  refine hn (hasRelation_iff.mpr ⟨key, reaches_merged.mpr (.inr (.inl ⟨fun hr => hn ?_, ho⟩))⟩)
  have ⟨k, hk⟩ := hasRelation_iff.mp hr
  exact hasRelation_iff.mpr ⟨k, reaches_merged.mpr (.inl hk)⟩

end Merged

-- Once a relation is merged, nothing is left to be merged under it, and the other relations are not
-- touched.
theorem reaches_mergeInverse {old : Option Resource} :
    (mergeInverse type relations ids old r b).1.Reaches other key ↔
      r.Reaches other key ∨ (other ∈ relations ∧
        (r.Carries old other key ∨ ∃ a, Takes type ids other a ∧ b.Awaits a key)) := by
  induction relations generalizing r b
  case nil => simp [mergeInverse]
  case cons relation relations hi =>
    have hm : mergeInverse type (relation :: relations) ids old r b =
      mergeInverse type relations ids old (merged type ids old r b relation).1
        (merged type ids old r b relation).2 := rfl
    rw [hm, hi]
    by_cases ho : other = relation
    case neg =>
      have hl : (merged type ids old r b relation).1.links other = r.links other :=
        links_merged_of_ne ho
      have hc : (merged type ids old r b relation).1.Carries old other key ↔
          r.Carries old other key := by
        rw [Carries, hasRelation_congr hl, ← Carries]
      have hw : (∃ a, Takes type ids other a ∧
            (merged type ids old r b relation).2.Awaits a key) ↔
          ∃ a, Takes type ids other a ∧ b.Awaits a key := by
        refine exists_congr fun a => and_congr_right fun ha => ?_
        refine awaits_takeWaiting.trans (and_iff_left fun hr => ho ?_)
        exact ha.relation_eq.symm.trans hr.relation_eq
      rw [reaches_congr hl, hc, hw, List.mem_cons, or_iff_right ho]
    case pos =>
      have hw : ¬∃ a, Takes type ids other a ∧
          (merged type ids old r b relation).2.Awaits a key :=
        fun ⟨_, ha, h⟩ => (awaits_takeWaiting.mp h).2 (ho ▸ ha)
      rw [or_iff_left hw, ho, reaches_merged]
      simp only [not_carries_merged, and_false, or_false, List.mem_cons, true_or, true_and]

@[simp]
theorem attributes_mergeInverse {old : Option Resource} :
    (mergeInverse type relations ids old r b).1.attributes = r.attributes := by
  unfold mergeInverse
  induction relations generalizing r b
  case nil => rfl
  case cons relation relations hi =>
    rw [List.foldl_cons, hi, attributes_takeWaiting, attributes_carryOver]

theorem links_mergeInverse_of_not_mem {old : Option Resource} (h : other ∉ relations) :
    (mergeInverse type relations ids old r b).1.links other = r.links other := by
  unfold mergeInverse
  induction relations generalizing r b
  case nil => rfl
  case cons relation relations hi =>
    have ⟨hn, h⟩ := not_or.mp (mt List.mem_cons.mpr h)
    rw [List.foldl_cons, hi h, links_takeWaiting_of_ne hn, links_carryOver_of_ne hn]

theorem awaits_mergeInverse {old : Option Resource} :
    (mergeInverse type relations ids old r b).2.Awaits a key ↔
      b.Awaits a key ∧ ¬∃ relation ∈ relations, Takes type ids relation a := by
  unfold mergeInverse
  induction relations generalizing r b
  case nil => simp
  case cons relation relations hi =>
    rw [List.foldl_cons, hi, awaits_takeWaiting, and_assoc, ← not_or]
    simp only [List.mem_cons, exists_eq_or_imp]

end Resource

theorem Resource.takes_address {u : Update} {i : String} {type : Descriptor} {ids : List String}
    {relation : String} :
    Resource.Takes type ids relation (u.address i) ↔
      u.target = type ∧ u.binding.relation = relation ∧ ∃ j ∈ ids, lower i = lower j := by
  unfold Resource.Takes Update.address Address.of
  simp only [Address.mk.injEq]
  constructor
  · exact fun ⟨j, hm, ht, hi, hr⟩ => ⟨ht, hr, j, hm, hi⟩
  · exact fun ⟨ht, hr, j, hm, hi⟩ => ⟨j, hm, ht, hi, hr⟩

namespace Cache

variable {c c' : Cache} {type other : Descriptor} {id i relation key : String} {r : Resource}
  {t : Int} {us : List Update}

-- What is known of a resource that was merged from an incoming one when it was written.
structure Merges (c : Cache) (type : Descriptor) (id : String) (incoming merged : Resource) :
    Prop where
  attributes : merged.attributes = incoming.attributes
  others : ∀ relation ∉ c.rules.inverseRelationsOf type,
    merged.links relation = incoming.links relation
  reaches : ∀ relation key, merged.Reaches relation key ↔
    incoming.Reaches relation key ∨ (relation ∈ c.rules.inverseRelationsOf type ∧
      (incoming.Carries (c.get? type id) relation key ∨
        ∃ a, Resource.Takes type (incoming.identities (c.fieldsOf type)) relation a ∧
          c.buffer.Awaits a key))

-- Whether a write takes what waits for an address.
def TakenBy (c : Cache) (type : Descriptor) (r : Resource) (a : Address) : Prop :=
  ∃ relation ∈ c.rules.inverseRelationsOf type,
    Resource.Takes type (r.identities (c.fieldsOf type)) relation a

def sourceOf (c : Cache) (type : Descriptor) : Source :=
  ⟨type, c.fieldsOf type⟩

structure Writes (c : Cache) (type : Descriptor) (id : String) (incoming : Resource) (t : Int)
    (us : List Update) (c' : Cache) : Prop where
  kin : c.Kin c'
  sound : c'.Sound
  waits : ∀ a key, c'.buffer.Awaits a key ↔ c.buffer.Awaits a key ∧ ¬c.TakenBy type incoming a
  merges : ∃ merged, c.Merges type id incoming merged ∧
    (∀ other i, c'.get? other i = if other = type ∧ i = id then some merged else c.get? other i) ∧
    us = contributions (c.rules.rulesOf type) fun rule =>
      rule.derived (c.sourceOf type) (c.get? type id) merged t

theorem exists_reconcile (hc : c.contains type) (id : String) (r : Resource) (t : Int) :
    ∃ us c', c.reconcile type id r t = .ok (us, c') := by
  have ⟨_, hs⟩ := Option.isSome_iff_exists.mp hc
  unfold reconcile
  rw [hs]
  exact ⟨_, _, rfl⟩

theorem writes_reconcile (h : c.Sound) (hr : c.reconcile type id r t = .ok (us, c')) :
    c.Writes type id r t us c' := by
  unfold reconcile at hr
  split at hr
  case h_1 => simp at hr
  case h_2 store hs =>
    have hf := fieldsOf_of_store? hs
    have hg := get?_of_store? hs id
    have ht := type_of_store? hs
    simp only [Except.ok.injEq, Prod.mk.injEq] at hr
    obtain ⟨rfl, rfl⟩ := hr
    generalize hp : Resource.mergeInverse type (c.rules.inverseRelationsOf type)
      (r.identities store.fields) (store.get? id) r c.buffer = p
    have hk : c.Kin (c.withStore (store.put id p.1 t)) := kin_withStore _ hs (by simp) (by simp)
    refine ⟨⟨hk.rules, hk.layout⟩, h.withStore ((h.store? hs).put id p.1 t), fun a key => ?_,
      p.1, ⟨?_, ?_, ?_⟩, fun other i => ?_, ?_⟩
    · rw [← hf] at hp
      exact hp ▸ Resource.awaits_mergeInverse
    · exact hp ▸ Resource.attributes_mergeInverse
    · exact fun _ hn => hp ▸ Resource.links_mergeInverse_of_not_mem hn
    · intro relation key
      rw [hg, hf]
      exact hp ▸ Resource.reaches_mergeInverse
    · refine (get?_withStore (store.put id p.1 t) hs (by simp) other i).trans ?_
      rw [Store.get?_put]
      by_cases ho : other = type <;> simp [ho, get?_of_store? hs]
    · rw [sourceOf, hf, hg, source, ht]

structure Removes (c : Cache) (type : Descriptor) (id : String) (t : Int) (us : List Update)
    (c' : Cache) : Prop where
  kin : c.Kin c'
  sound : c'.Sound
  buffer : c'.buffer = c.buffer
  gets : ∀ other i, c'.get? other i = if other = type ∧ i = id then none else c.get? other i
  updates : us = match c.get? type id with
    | some old => c.removalUpdates type old t
    | none => []

theorem removalUpdates_eq (c : Cache) (type : Descriptor) (r : Resource) (t : Int) :
    c.removalUpdates type r t =
      contributions (c.rules.rulesOf type) fun rule => rule.withdrawn (c.sourceOf type) r t := by
  unfold removalUpdates sourceOf fieldsOf layout
  cases c.store? type <;> rfl

theorem Kin.sourceOf (h : c.Kin c') : c'.sourceOf = c.sourceOf := by
  funext type
  rw [Cache.sourceOf, h.fieldsOf, ← Cache.sourceOf]

theorem Kin.removalUpdates (h : c.Kin c') : c'.removalUpdates = c.removalUpdates := by
  funext type r t
  rw [removalUpdates_eq, removalUpdates_eq, h.rules, h.sourceOf]

theorem removes_remove (h : c.Sound) (hr : c.remove type id t = .ok (us, c')) :
    c.Removes type id t us c' := by
  unfold remove at hr
  split at hr
  case h_1 => simp at hr
  case h_2 store hs =>
    have hg := get?_of_store? hs id
    have hk : c.Kin (c.withStore (store.remove id t)) := kin_withStore _ hs (by simp) (by simp)
    have hgets (other : Descriptor) (i : String) :
        (c.withStore (store.remove id t)).get? other i =
          if other = type ∧ i = id then none else c.get? other i := by
      rw [get?_withStore _ hs (by simp), Store.get?_remove]
      by_cases ho : other = type <;> simp [ho, get?_of_store? hs]
    dsimp only at hr
    split at hr
    case h_1 old ho =>
      simp only [Except.ok.injEq, Prod.mk.injEq] at hr
      obtain ⟨rfl, rfl⟩ := hr
      refine ⟨⟨hk.rules, hk.layout⟩, h.withStore ((h.store? hs).remove id t), rfl, hgets, ?_⟩
      rw [hg, ho]
      exact congrFun (congrFun (congrFun hk.removalUpdates type) old) t
    case h_2 hn =>
      simp only [Except.ok.injEq, Prod.mk.injEq] at hr
      obtain ⟨rfl, rfl⟩ := hr
      refine ⟨⟨hk.rules, hk.layout⟩, h.withStore ((h.store? hs).remove id t), rfl, hgets, ?_⟩
      rw [hg, hn]

-- An eviction takes entries out and keeps the others as they are.
structure Evicts (c : Cache) (type : Descriptor) (es : List Entry) (c' : Cache) : Prop where
  kin : c.Kin c'
  sound : c'.Sound
  buffer : c'.buffer = c.buffer
  cached : ∀ e ∈ es, c.get? type e.id = some e.resource
  gone : ∀ e ∈ es, c'.get? type e.id = none
  kept : ∀ other i r, c'.get? other i = some r → c.get? other i = some r
  lost : ∀ other i r, c.get? other i = some r →
    c'.get? other i = some r ∨ (other = type ∧ ∃ e ∈ es, e.id = i ∧ e.resource = r)

theorem evicts_evict {es : List Entry} {cutoff : Int} (h : c.Sound)
    (he : c.evict type cutoff = .ok (es, c')) : c.Evicts type es c' := by
  unfold evict at he
  split at he
  case h_1 => simp at he
  case h_2 store hs =>
    simp only [Except.ok.injEq, Prod.mk.injEq] at he
    obtain ⟨rfl, rfl⟩ := he
    have hm := h.store? hs
    have hk : c.Kin (c.withStore (store.evict cutoff)) := kin_withStore _ hs (by simp) (by simp)
    have hg (other : Descriptor) (i : String) :
        (c.withStore (store.evict cutoff)).get? other i =
          if other = type then
            ((store.entry? i).filter fun e => cutoff ≤ e.timestamp).map (·.resource)
          else c.get? other i := by
      rw [get?_withStore _ hs (by simp), Store.get?, Store.entry?_evict hm.nodup]
    have hc (i : String) : c.get? type i = (store.entry? i).map (·.resource) := get?_of_store? hs i
    refine ⟨⟨hk.rules, hk.layout⟩, h.withStore (hm.evict cutoff), rfl, fun e he => ?_,
      fun e he => ?_, fun other i r hr => ?_, fun other i r hr => ?_⟩
    case refine_1 =>
      rw [hc, Store.entry?_of_mem hm.nodup (Store.mem_olderThan_iff.mp he).1, Option.map_some]
    case refine_2 =>
      obtain ⟨hm', ht⟩ := Store.mem_olderThan_iff.mp he
      rw [hg, if_pos rfl, Store.entry?_of_mem hm.nodup hm']
      simp [Option.filter, ht]
    case refine_3 =>
      rw [hg] at hr
      split at hr
      case isFalse => exact hr
      case isTrue ho =>
        rw [ho, hc]
        obtain ⟨e, he, rfl⟩ := Option.map_eq_some_iff.mp hr
        rw [(Option.filter_eq_some_iff.mp he).1, Option.map_some]
    case refine_4 =>
      rw [hg]
      split
      case isFalse => exact .inl hr
      case isTrue ho =>
        rw [ho, hc] at hr
        obtain ⟨e, he, rfl⟩ := Option.map_eq_some_iff.mp hr
        by_cases ht : cutoff ≤ e.timestamp
        case pos => exact .inl (by simp [he, ht])
        case neg =>
          refine .inr ⟨ho, e, Store.mem_olderThan_iff.mpr ⟨Store.mem_entries he, ?_⟩,
            Store.entry?_id he, rfl⟩
          exact Int.not_le.mp ht

end Cache
end LinkedCache
