import LinkedCache.Proofs.Buffer
import LinkedCache.Proofs.Resource
import LinkedCache.Proofs.Store

-- What an update does to a cache. It is applied to each of its targets on its own: it changes the
-- resource that answers to the identity, or else what waits for the identity.

namespace LinkedCache

namespace Cache

variable {c c' : Cache} {type : Descriptor} {id : String}

def layout (c : Cache) (type : Descriptor) : Option (List String) :=
  (c.store? type).map (·.fields)

def fieldsOf (c : Cache) (type : Descriptor) : List String :=
  (c.layout type).getD []

def get? (c : Cache) (type : Descriptor) (id : String) : Option Resource :=
  (c.store? type).bind (·.get? id)

def Sound (c : Cache) : Prop :=
  ∀ store ∈ c.stores, store.Mirrors

-- Whether a cache is over the same types and rules as another.
structure Kin (c c' : Cache) : Prop where
  rules : c'.rules = c.rules
  layout : c'.layout = c.layout

theorem Kin.refl (c : Cache) : c.Kin c := ⟨rfl, rfl⟩

theorem Kin.trans {c'' : Cache} (h : c.Kin c') (h' : c'.Kin c'') : c.Kin c'' :=
  ⟨h'.rules.trans h.rules, h'.layout.trans h.layout⟩

theorem Kin.fieldsOf (h : c.Kin c') : c'.fieldsOf = c.fieldsOf := by
  funext type
  rw [Cache.fieldsOf, h.layout, ← Cache.fieldsOf]

theorem contains_iff : c.contains type ↔ (c.layout type).isSome := by
  simp [contains, layout]

theorem Kin.contains (h : c.Kin c') : c'.contains type = c.contains type := by
  rw [Bool.eq_iff_iff, contains_iff, contains_iff, h.layout]

theorem type_of_store? {store : Store} (h : c.store? type = some store) : store.type = type := by
  simpa using List.find?_some h

theorem Sound.store? {store : Store} (h : c.Sound) (hs : c.store? type = some store) :
    store.Mirrors :=
  h store (List.mem_of_find?_eq_some hs)

theorem fieldsOf_of_store? {store : Store} (h : c.store? type = some store) :
    c.fieldsOf type = store.fields := by
  simp [fieldsOf, layout, h]

theorem get?_of_store? {store : Store} (h : c.store? type = some store) (id : String) :
    c.get? type id = store.get? id := by
  simp [get?, h]

theorem Sound.folded {field : String} (h : c.Sound) (hf : field ∈ c.fieldsOf type) :
    Text.lower field = field := by
  unfold fieldsOf layout at hf
  cases hs : c.store? type
  case none => simp [hs] at hf
  case some store => exact (h.store? hs).folded field (by simpa [hs] using hf)

theorem contains_of_get? {r : Resource} (h : c.get? type id = some r) : c.contains type := by
  unfold get? at h
  unfold contains
  cases hs : c.store? type
  case none => simp [hs] at h
  case some => rfl

theorem store?_withStore (c : Cache) (store : Store) (type : Descriptor) :
    (c.withStore store).store? type =
      if type = store.type then (c.store? type).map fun _ => store else c.store? type := by
  unfold withStore store?
  rw [List.find?_map]
  have hp : (fun s : Store => s.type == type) ∘
      (fun s => if s.type = store.type then store else s) = fun s => s.type == type := by
    funext s
    simp only [Function.comp_apply]
    split <;> simp_all
  rw [hp]
  cases hf : c.stores.find? (·.type == type)
  case none => simp
  case some s =>
    have ht : s.type = type := by simpa using List.find?_some hf
    split <;> simp_all

theorem Sound.withStore {store : Store} (h : c.Sound) (hs : store.Mirrors) :
    (c.withStore store).Sound := by
  intro s hm
  obtain ⟨s', hm', rfl⟩ := List.mem_map.mp hm
  split
  case isTrue => exact hs
  case isFalse => exact h s' hm'

section WithStore

variable {old : Store} (store : Store) (ho : c.store? type = some old)
  (ht : store.type = old.type)

include ho ht

theorem kin_withStore (hf : store.fields = old.fields) : c.Kin (c.withStore store) where
  rules := rfl
  layout := by
    funext other
    have ht := ht.trans (type_of_store? ho)
    unfold layout
    rw [store?_withStore, ht]
    split
    case isTrue he => simp [he, ho, hf]
    case isFalse => rfl

theorem get?_withStore (other : Descriptor) (id : String) :
    (c.withStore store).get? other id =
      if other = type then store.get? id else c.get? other id := by
  have ht := ht.trans (type_of_store? ho)
  unfold get?
  rw [store?_withStore, ht]
  split
  case isTrue he => simp [he, ho]
  case isFalse => rfl

end WithStore

-- The resources of a type that answer to an identity.
def Answers (c : Cache) (type : Descriptor) (identity : String) (id : String) : Prop :=
  ∃ r, c.get? type id = some r ∧ r.AnswersTo (c.fieldsOf type) identity

theorem target?_of_resolve? {store : Store} (identity : String) (h : c.Sound)
    (hs : c.store? type = some store) :
    (∃ id e, c.target? type identity = some (store, e) ∧ store.entry? id = some e ∧
      c.Answers type identity id) ∨
    (c.target? type identity = none ∧ ∀ id, ¬c.Answers type identity id) := by
  have hm := h.store? hs
  simp only [Answers, get?_of_store? hs, fieldsOf_of_store? hs]
  cases hi : store.resolve? identity
  case some id =>
    have ⟨r, hr, ha⟩ := Store.exists_of_resolve? hm hi
    have ⟨e, he, _⟩ := Option.map_eq_some_iff.mp hr
    exact .inl ⟨id, e, by simp [target?, hs, hi, he], he, r, hr, ha⟩
  case none =>
    have hn := (Store.resolve?_eq_none_iff hm).mp hi
    exact .inr ⟨by simp [target?, hs, hi], fun id ⟨r, hr, ha⟩ => hn id r hr ha⟩

end Cache

namespace Update

variable {c : Cache} {u : Update}

def address (u : Update) (identity : String) : Address :=
  Address.of u.target identity u.binding.relation

end Update

namespace Cache

variable {c c' : Cache} {u : Update} {identity : String} {now : Int}

-- The change that an update makes for one of its targets.
inductive Applies (u : Update) (identity : String) (c c' : Cache) : Prop
  | here (id : String) (r r' : Resource)
    (answers : c.Answers u.target identity id)
    (cached : c.get? u.target id = some r)
    (acts : u.Acts r r')
    (gets : ∀ type i, c'.get? type i = if type = u.target ∧ i = id then some r' else c.get? type i)
    (waits : ∀ a key, c'.buffer.Awaits a key ↔
      c.buffer.Awaits a key ∧ ¬(a = u.address identity ∧ key ∈ u.keys))
  | away
    (absent : ∀ id, ¬c.Answers u.target identity id)
    (gets : ∀ type i, c'.get? type i = c.get? type i)
    (waits : ∀ a key, c'.buffer.Awaits a key ↔
      u.Effect (c.buffer.Awaits a key) (a = u.address identity ∧ key ∈ u.keys))

theorem Applies.answers_iff (ha : Applies u identity c c') (hk : c.Kin c') (type : Descriptor)
    (i id : String) : c'.Answers type i id ↔ c.Answers type i id := by
  unfold Answers
  rw [hk.fieldsOf]
  cases ha
  case away _ gets _ => rw [gets]
  case here _ r r' _ cached acts gets _ =>
    rw [gets]
    split
    case isFalse => rfl
    case isTrue h =>
      rw [h.1, h.2, cached]
      simp [Resource.answersTo_congr acts.attributes]

theorem awaits_await {a : Address} {key : String} :
    (c.await u identity now).buffer.Awaits a key ↔
      c.buffer.Awaits a key ∨ (a = u.address identity ∧ key ∈ u.keys) :=
  Buffer.awaits_registerAll

theorem awaits_cancel {a : Address} {key : String} :
    (c.cancel u identity).buffer.Awaits a key ↔
      c.buffer.Awaits a key ∧ ¬(a = u.address identity ∧ key ∈ u.keys) :=
  Buffer.awaits_cancelAll

theorem putIfCurrent_eq {store : Store} {e : Entry} (r : Resource) (t : Int)
    (he : store.entry? e.id = some e) :
    store.putIfCurrent e.id e r t = store.overwrite e r t := by
  simp [Store.putIfCurrent, Store.isCurrent, he]

theorem buffer_applyToEntry (store : Store) (e : Entry) :
    (c.applyToEntry u store e).buffer = c.buffer := by
  unfold applyToEntry
  dsimp only
  split <;> rfl

theorem acts_applyToEntry {store : Store} {e : Entry} (h : c.Sound)
    (hs : c.store? u.target = some store) (he : store.entry? e.id = some e) :
    (∃ r, u.Acts e.resource r ∧ ∀ type i, (c.applyToEntry u store e).get? type i =
        if type = u.target ∧ i = e.id then some r else c.get? type i) ∧
      c.Kin (c.applyToEntry u store e) ∧ (c.applyToEntry u store e).Sound := by
  have hg : c.get? u.target e.id = some e.resource := by simp [get?, hs, Store.get?, he]
  unfold applyToEntry
  dsimp only
  split
  case isFalse hc =>
    refine ⟨⟨e.resource, Update.acts_of_unchanged (by simpa using hc), fun type i => ?_⟩,
      ⟨rfl, rfl⟩, h⟩
    split
    case isTrue hi => rw [hi.1, hi.2, ← hg]; rfl
    case isFalse => rfl
  case isTrue hc =>
    rw [putIfCurrent_eq _ _ he]
    let new := store.overwrite e
      (e.resource.applyLinks u.operation u.binding.relation u.binding.links).1
      (max e.timestamp u.timestamp)
    have hm : new.Mirrors := (h.store? hs).overwrite he _ _
    have hk : c.Kin (c.withStore new) := kin_withStore new hs rfl rfl
    refine ⟨⟨_, u.acts_applyLinks e.resource, fun type i => ?_⟩, ⟨hk.rules, hk.layout⟩,
      h.withStore hm⟩
    refine (get?_withStore new hs rfl type i).trans ?_
    rw [Store.get?_overwrite e _ (by simp [he])]
    by_cases ht : type = u.target <;> simp [ht, get?_of_store? hs]

theorem applies_applyToTarget (identity : String) (now : Int) (h : c.Sound)
    (hu : c.contains u.target) :
    Applies u identity c (c.applyToTarget u identity now).2 ∧
      c.Kin (c.applyToTarget u identity now).2 ∧ (c.applyToTarget u identity now).2.Sound := by
  have ⟨store, hs⟩ := Option.isSome_iff_exists.mp hu
  unfold applyToTarget
  obtain ⟨id, e, ht, he, ha⟩ | ⟨ht, ha⟩ := target?_of_resolve? identity h hs
  case inl =>
    obtain rfl := Store.entry?_id he
    have ⟨⟨r, hr, hg⟩, hk, hm⟩ := acts_applyToEntry h hs he
    have hc : c.get? u.target e.id = some e.resource := by simp [get?, hs, Store.get?, he]
    rw [ht]
    refine ⟨.here e.id e.resource r ha hc hr hg fun _ _ => ?_, ⟨hk.rules, hk.layout⟩, hm⟩
    exact buffer_applyToEntry (c := c) store e ▸ awaits_cancel
  case inr =>
    rw [ht]
    cases ho : u.operation
    case add =>
      refine ⟨.away ha (fun _ _ => rfl) fun _ _ => ?_, ⟨rfl, rfl⟩, h⟩
      simp only [Update.Effect, ho, awaits_await]
    case delete =>
      refine ⟨.away ha (fun _ _ => rfl) fun _ _ => ?_, ⟨rfl, rfl⟩, h⟩
      simp only [Update.Effect, ho, awaits_cancel]

theorem apply_of_not_contains (h : ¬c.contains u.target) : (c.apply u now).2 = c := by
  simp [apply, h]

theorem applies_apply {i : String} (now : Int) (h : c.Sound) (hu : c.contains u.target)
    (hi : u.targetIds = [i]) :
    Applies u i c (c.apply u now).2 ∧ c.Kin (c.apply u now).2 ∧ (c.apply u now).2.Sound := by
  have he : (c.apply u now).2 = (c.applyToTarget u i now).2 := by simp [apply, hu, hi]
  exact he ▸ applies_applyToTarget i now h hu

-- What holds after an update was applied to some of its targets holds after the next one, too.
theorem apply_fold {P : List String → Cache → Prop} (h : c.Sound) (hu : c.contains u.target)
    (h₀ : P [] c) (hp : ∀ ids, ∀ i ∈ u.targetIds, ∀ c₁ c₂, c₁.Kin c₂ → c₂.Sound →
      Applies u i c₁ c₂ → P ids c₁ → P (ids ++ [i]) c₂) :
    P u.targetIds (c.apply u now).2 ∧ c.Kin (c.apply u now).2 ∧ (c.apply u now).2.Sound := by
  suffices hs : ∀ ids : List String, (∀ i ∈ ids, i ∈ u.targetIds) → ∀ done, ∀ p : Bool × Cache,
      P done p.2 ∧ c.Kin p.2 ∧ p.2.Sound →
      let p' := ids.foldl (fun p identity =>
        let result := applyToTarget p.2 u identity now
        (p.1 && result.1, result.2)) p
      P (done ++ ids) p'.2 ∧ c.Kin p'.2 ∧ p'.2.Sound by
    unfold apply
    rw [if_pos hu]
    exact hs u.targetIds (fun _ => id) [] (true, c) ⟨h₀, .refl c, h⟩
  intro ids
  induction ids
  case nil => exact fun _ done _ h => by rwa [List.append_nil]
  case cons i ids hi =>
    rintro hm done p ⟨hd, hk, hs⟩
    obtain ⟨ha, hk', hs'⟩ := applies_applyToTarget i now hs (hk.contains ▸ hu)
    have hd' := hp done i (hm i (.head _)) _ _ hk' hs' ha hd
    rw [List.append_cons]
    exact hi (fun j hj => hm j (.tail _ hj)) _ _ ⟨hd', hk.trans hk', hs'⟩

theorem apply_induct {P : Cache → Prop} (h : c.Sound) (h₀ : P c)
    (hp : ∀ i ∈ u.targetIds, ∀ c₁ c₂, c₁.Kin c₂ → c₂.Sound → Applies u i c₁ c₂ → P c₁ → P c₂) :
    P (c.apply u now).2 ∧ c.Kin (c.apply u now).2 ∧ (c.apply u now).2.Sound := by
  by_cases hu : c.contains u.target
  case pos =>
    exact apply_fold (P := fun _ => P) h hu h₀
      fun _ i hm _ _ hk hs ha => hp i hm _ _ hk hs ha
  case neg =>
    rw [apply_of_not_contains hu]
    exact ⟨h₀, .refl c, h⟩

theorem answers_apply (u : Update) (now : Int) (h : c.Sound) (type : Descriptor) (i id : String) :
    (c.apply u now).2.Answers type i id ↔ c.Answers type i id :=
  (apply_induct (P := fun c' => c'.Answers type i id ↔ c.Answers type i id) h .rfl
    fun _ _ _ _ hk _ ha hi => (ha.answers_iff hk ..).trans hi).1

end Cache
end LinkedCache
