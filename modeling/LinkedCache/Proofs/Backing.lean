import LinkedCache.Proofs.Arrival

-- What backs a link that rules put on a resource: a cached source that the link points to, and
-- that links to the resource. The rules are for single links, and no two have the same inverse
-- relation of the same type.

namespace LinkedCache

open Text (lower Segment)

namespace Update

variable {u u' : Update} {type : Descriptor} {i relation key : String}

-- Whether an update is about a single link of a single target.
structure Concerns (u : Update) (type : Descriptor) (identity relation key : String) : Prop where
  target : u.target = type
  ids : u.targetIds = [identity]
  relation : u.binding.relation = relation
  keys : u.keys = [key]

theorem Concerns.supersedeKey_eq (hu : u.Concerns type i relation key)
    (hv : u'.Concerns type i relation key) : u.supersedeKey = u'.supersedeKey := by
  have hk : u.binding.links.map linkKey = u'.binding.links.map linkKey :=
    hu.keys.trans hv.keys.symm
  unfold supersedeKey
  rw [hu.target, hv.target, hu.ids, hv.ids, hu.relation, hv.relation, hk]

theorem Concerns.unique {type' : Descriptor} {i' relation' key' : String}
    (h : u.Concerns type i relation key) (h' : u.Concerns type' i' relation' key') :
    type = type' ∧ i = i' ∧ relation = relation' ∧ key = key' where
  left := h.target.symm.trans h'.target
  right.left := List.singleton_inj.mp (h.ids.symm.trans h'.ids)
  right.right.left := h.relation.symm.trans h'.relation
  right.right.right := List.singleton_inj.mp (h.keys.symm.trans h'.keys)

theorem Concerns.iff_of_ids {type' : Descriptor} {i' relation' key' : String}
    (h : u.Concerns type i relation key) :
    u.Concerns type' i' relation' key' ↔
      type' = u.target ∧ i' = i ∧ relation' = u.binding.relation ∧ key' ∈ u.keys := by
  rw [h.target, h.relation, h.keys, List.mem_singleton]
  constructor
  case mp =>
    intro h'
    have ⟨ht, hi, hr, hk⟩ := h'.unique h
    exact ⟨ht, hi, hr, hk⟩
  case mpr =>
    rintro ⟨rfl, rfl, rfl, rfl⟩
    exact h

end Update

theorem Rule.concerns_update {rule : Rule} {i : String} {back : Link} {o : Operation} {t : Int} :
    (rule.update [i] back o t).Concerns rule.target i rule.inverse (Update.linkKey back) :=
  ⟨rfl, rfl, rfl, rfl⟩

namespace Cache

variable {c₀ c c' : Cache} {v : Descriptor → String → String} {as : List Arrival}
  {a : Arrival} {type : Descriptor} {id id' i relation key : String} {r r' : Resource} {u : Update}

-- The identity of a resource, for a value that is assigned to it.
def ident (c₀ : Cache) (v : Descriptor → String → String) (type : Descriptor) (id : String) :
    String :=
  lower ((c₀.fieldsOf type).headD "" ++ "/" ++ v type id)

-- Each rule is for a single link, has the inverse relation of its target for itself, and reads no
-- relation that rules write. Each type has one identifying field.
structure Simple (c₀ : Cache) : Prop where
  single : ∀ type, ∀ rule ∈ c₀.rules.rulesOf type, rule.multiplicity = .zeroOrOne
  distinct : ∀ type type', ∀ rule ∈ c₀.rules.rulesOf type, ∀ rule' ∈ c₀.rules.rulesOf type',
    rule.target = rule'.target → lower rule.inverse = lower rule'.inverse →
      type = type' ∧ rule = rule'
  unmixed : ∀ type, ∀ rule ∈ c₀.rules.rulesOf type,
    rule.relation ∉ c₀.rules.inverseRelationsOf type
  unnamed : ∀ type, ∀ rule ∈ c₀.rules.rulesOf type,
    rule.relation ≠ Resource.selfRelation ∧ rule.inverse ≠ Resource.selfRelation
  field : ∀ type, c₀.contains type → ∃ field, c₀.fieldsOf type = [field] ∧ Segment field

-- A resource carries its value, and only links that can be resolved, none of them under a relation
-- that rules write.
structure Plain (c₀ : Cache) (v : Descriptor → String → String) (a : Arrival) : Prop where
  value : ∀ field ∈ c₀.fieldsOf a.type, a.resource.fieldValue? field = some (v a.type a.id)
  segment : Segment (v a.type a.id)
  linked : ∀ relation, ∀ l ∈ a.resource.links relation, l.identity?.isSome
  unnamed : a.resource.links Resource.selfRelation = []
  own : ∀ relation ∈ c₀.rules.inverseRelationsOf a.type, a.resource.links relation = []

structure Setting (c₀ : Cache) (v : Descriptor → String → String) (as : List Arrival) :
    Prop where
  sound : c₀.Sound
  closed : c₀.rules.Closed
  simple : c₀.Simple
  plain : ∀ a ∈ as, c₀.Plain v a
  unique : ∀ a ∈ as, ∀ b ∈ as, a.type = b.type →
    lower (v a.type a.id) = lower (v b.type b.id) → a.id = b.id

-- What remains true of a resource that was sent.
structure Fits (c₀ : Cache) (v : Descriptor → String → String) (as : List Arrival)
    (type : Descriptor) (id : String) (r : Resource) : Prop where
  contained : c₀.contains type
  sent : ∃ a ∈ as, a.type = type ∧ a.id = id
  value : ∀ field ∈ c₀.fieldsOf type, r.fieldValue? field = some (v type id)
  linked : ∀ relation ∉ c₀.rules.inverseRelationsOf type, ∀ l ∈ r.links relation,
    l.identity?.isSome
  unnamed : r.links Resource.selfRelation = []

section Fits

variable (hs : c₀.Setting v as) (h : c₀.Fits v as type id r)

include hs

theorem Setting.segment (hm : ∃ a ∈ as, a.type = type ∧ a.id = id) : Segment (v type id) := by
  obtain ⟨a, ha, rfl, rfl⟩ := hm
  exact (hs.plain a ha).segment

include h

theorem Fits.identity : Link.Identity (c₀.ident v type id) := by
  have ⟨field, hf, hseg⟩ := hs.simple.field type h.contained
  unfold ident
  rw [hf]
  exact .intro hseg (hs.segment h.sent)

theorem Fits.identities : r.identities (c₀.fieldsOf type) = [c₀.ident v type id] := by
  have ⟨field, hf, _⟩ := hs.simple.field type h.contained
  have hv := h.value field (by simp [hf])
  simp [Resource.identities, Resource.identityUnder?, ident, hf, hv]

theorem Fits.answersTo_iff (hi : Link.Identity i) :
    r.AnswersTo (c₀.fieldsOf type) i ↔ c₀.ident v type id = i := by
  rw [Resource.answersTo_iff_exists (fun _ => hs.sound.folded) hi, h.identities hs]
  simp only [List.mem_singleton, exists_eq_left]
  rw [hi.lower_eq, (h.identity hs).lower_eq, eq_comm]

theorem Fits.backLink : ∃ back, r.backLink type (c₀.fieldsOf type) = .ok back ∧
    Update.linkKey back = c₀.ident v type id := by
  refine ⟨⟨type.text ++ "/" ++ c₀.ident v type id⟩, ?_, ?_⟩
  · simp [Resource.backLink, h.unnamed, h.identities hs]
  · exact Link.linkKey_eq_of_identity? (Link.identityOf?_append _ (h.identity hs))

theorem Fits.eq_of_ident (h' : c₀.Fits v as type id' r')
    (he : c₀.ident v type id = c₀.ident v type id') : id = id' := by
  have ⟨field, hf, hseg⟩ := hs.simple.field type h.contained
  simp only [ident, hf, List.headD_cons, Text.lower_append, Text.lower_slash] at he
  have hv' := (hs.segment h'.sent).lower
  have ⟨_, hv⟩ := Text.append_slash_inj he hseg.lower.unbroken hv'.unbroken
  obtain ⟨a, ha, rfl, rfl⟩ := h.sent
  obtain ⟨b, hb, ht, rfl⟩ := h'.sent
  exact hs.unique a ha b hb ht.symm (by rw [hv, ht])

end Fits

-- Whether two caches hold the same resources, up to the links that rules write.
def Frame (c₀ c c' : Cache) : Prop :=
  ∀ type id, Option.Rel (fun r r' => r'.attributes = r.attributes ∧
    ∀ relation ∉ c₀.rules.inverseRelationsOf type, r'.links relation = r.links relation)
    (c.get? type id) (c'.get? type id)

theorem Frame.refl (c : Cache) : c₀.Frame c c := fun type id => by
  cases c.get? type id
  case none => exact .none
  case some => exact .some ⟨rfl, fun _ _ => rfl⟩

theorem Frame.get? (h : c₀.Frame c c') (hg : c.get? type id = some r) :
    ∃ r', c'.get? type id = some r' ∧ r'.attributes = r.attributes ∧
      ∀ relation ∉ c₀.rules.inverseRelationsOf type, r'.links relation = r.links relation := by
  have h := h type id
  rw [hg] at h
  generalize c'.get? type id = o at h
  cases h
  case some r' h => exact ⟨r', rfl, h⟩

theorem Frame.of_get? (h : c₀.Frame c c') (hg : c'.get? type id = some r') :
    ∃ r, c.get? type id = some r ∧ r'.attributes = r.attributes ∧
      ∀ relation ∉ c₀.rules.inverseRelationsOf type, r'.links relation = r.links relation := by
  have h := h type id
  rw [hg] at h
  generalize c.get? type id = o at h
  cases h
  case some r h => exact ⟨r, rfl, h⟩

theorem Frame.eq_none (h : c₀.Frame c c') (hn : c'.get? type id = none) :
    c.get? type id = none := by
  refine Option.eq_none_iff_forall_ne_some.mpr fun r hg => ?_
  have ⟨_, hg', _⟩ := h.get? hg
  exact nomatch hn.symm.trans hg'

theorem Frame.trans {c'' : Cache} (h : c₀.Frame c c') (h' : c₀.Frame c' c'') : c₀.Frame c c'' := by
  intro type id
  cases hg : c.get? type id
  case none =>
    cases hg'' : c''.get? type id
    case none => exact .none
    case some =>
      have ⟨_, hg', _⟩ := h'.of_get? hg''
      have ⟨_, hn, _⟩ := h.of_get? hg'
      simp [hg] at hn
  case some =>
    have ⟨_, hg', ha, hl⟩ := h.get? hg
    have ⟨_, hg'', ha', hl'⟩ := h'.get? hg'
    rw [hg'']
    exact .some ⟨ha'.trans ha, fun relation hr => (hl' relation hr).trans (hl relation hr)⟩

theorem frame_of_applies (ha : Applies u i c c')
    (hu : u.binding.relation ∈ c₀.rules.inverseRelationsOf u.target) : c₀.Frame c c' := by
  intro type id
  cases ha
  case away gets _ =>
    rw [gets]
    exact Frame.refl c type id
  case here id₀ r r' _ cached acts gets _ =>
    rw [gets]
    split
    case isFalse => exact Frame.refl c type id
    case isTrue he =>
      rw [he.1, he.2, cached]
      exact .some ⟨acts.attributes, fun relation hr => acts.others relation fun hn => hr (hn ▸ hu)⟩

theorem Fits.of_same (h : c₀.Fits v as type id r) (ha : r'.attributes = r.attributes)
    (hl : ∀ relation ∉ c₀.rules.inverseRelationsOf type, r'.links relation = r.links relation)
    (hself : Resource.selfRelation ∉ c₀.rules.inverseRelationsOf type) :
    c₀.Fits v as type id r' where
  contained := h.contained
  sent := h.sent
  value field hf := by rw [Resource.fieldValue?_congr ha, h.value field hf]
  linked relation hr l hm := h.linked relation hr l (hl relation hr ▸ hm)
  unnamed := (hl _ hself).trans h.unnamed

theorem Setting.self_not_mem (hs : c₀.Setting v as) :
    Resource.selfRelation ∉ c₀.rules.inverseRelationsOf type := by
  intro hm
  have ⟨τ, rule, hr, _, he⟩ := hs.closed.origin type _ hm
  exact (hs.simple.unnamed τ rule hr).2 he

-- Whether a cached source that has the key for its identity links to a target, as a rule demands
-- for the target to hold the key.
def Backed (c₀ : Cache) (v : Descriptor → String → String) (c : Cache) (type : Descriptor)
    (identity relation key : String) : Prop :=
  ∃ τ, ∃ rule ∈ c₀.rules.rulesOf τ, rule.target = type ∧ rule.inverse = relation ∧
    ∃ id r, c.get? τ id = some r ∧ c₀.ident v τ id = key ∧ r.Reaches rule.relation identity

theorem Backed.frame (hs : c₀.Setting v as) (hf : c₀.Frame c c')
    (h : c₀.Backed v c type i relation key) : c₀.Backed v c' type i relation key := by
  obtain ⟨τ, rule, hr, ht, hi, id, r, hg, hk, hl⟩ := h
  have ⟨r', hg', _, hl'⟩ := hf.get? hg
  have hn := hl' _ (hs.simple.unmixed τ rule hr)
  exact ⟨τ, rule, hr, ht, hi, id, r', hg', hk, (Resource.reaches_congr hn).mpr hl⟩

-- Whether a link is on a cached target, or waits for it.
def Holds (c₀ : Cache) (v : Descriptor → String → String) (c : Cache) (type : Descriptor)
    (identity relation key : String) : Prop :=
  (∃ id r, c.get? type id = some r ∧ c₀.ident v type id = identity ∧ r.Reaches relation key) ∨
  c.buffer.Awaits ⟨type, identity, relation⟩ key

theorem address_iff {type' : Descriptor} {i' relation' key' : String}
    (hu : u.Concerns type i relation key) (hi : Link.Identity i) :
    (⟨type', i', relation'⟩ : Address) = u.address i ∧ key' ∈ u.keys ↔
      u.Concerns type' i' relation' key' := by
  rw [hu.iff_of_ids, Update.address, Address.of, hi.lower_eq, Address.mk.injEq]
  simp only [and_assoc]

-- An addition puts its link somewhere, and a deletion leaves its link nowhere.
theorem Holds.applies {type' : Descriptor} {i' relation' key' : String} (hs : c₀.Setting v as)
    (hk : c₀.Kin c) (hf : ∀ type id r, c.get? type id = some r → c₀.Fits v as type id r)
    (hu : u.Concerns type i relation key) (hi : Link.Identity i) (ha : Applies u i c c')
    (h : c₀.Holds v c' type' i' relation' key') :
    u.Effect (c₀.Holds v c type' i' relation' key') (u.Concerns type' i' relation' key') := by
  have hw : (⟨type', i', relation'⟩ : Address) = u.address i ∧ key' ∈ u.keys ↔
      u.Concerns type' i' relation' key' := address_iff hu hi
  have hn {id : String} {r : Resource} (hg : c.get? u.target id = some r) :
      r.AnswersTo (c.fieldsOf u.target) i ↔ c₀.ident v u.target id = i := by
    rw [hk.fieldsOf, (hf _ _ _ hg).answersTo_iff hs hi]
  cases ha
  case here id₀ r₀ r₁ answers cached acts gets waits =>
    obtain ⟨id, r, hg, he, hl⟩ | hb := h
    case inr =>
      have ⟨hb, hn⟩ := (waits _ _).mp hb
      exact Update.Effect.of_before (.inr hb) (mt hw.mpr hn)
    case inl =>
      have hi₀ : c₀.ident v u.target id₀ = i := by
        have ⟨r, hg, ha⟩ := answers
        exact (hn hg).mp ha
      rw [gets] at hg
      split at hg
      case isTrue ht =>
        obtain ⟨rfl, rfl⟩ := ht
        obtain rfl := Option.some.inj hg
        obtain rfl := hi₀.symm.trans he
        have hl := (acts.reaches _ _).mp hl
        rw [hu.iff_of_ids]
        simp only [true_and]
        exact hl.imp fun hl => .inl ⟨id, r₀, cached, he, hl⟩
      case isFalse ht =>
        refine Update.Effect.of_before (.inl ⟨id, r, hg, he, hl⟩) fun hc => ht ?_
        obtain ⟨rfl, rfl, -⟩ := hu.iff_of_ids.mp hc
        exact ⟨rfl, (hf _ _ _ hg).eq_of_ident hs (hf _ _ _ cached) (he.trans hi₀.symm)⟩
  case away absent gets waits =>
    obtain ⟨id, r, hg, he, hl⟩ | hb := h
    case inr =>
      have hb := (waits _ _).mp hb
      rw [propext hw] at hb
      exact hb.imp .inr
    case inl =>
      rw [gets] at hg
      refine Update.Effect.of_before (.inl ⟨id, r, hg, he, hl⟩) fun hc => absent id ?_
      obtain ⟨rfl, rfl, -⟩ := hu.iff_of_ids.mp hc
      exact ⟨r, hg, (hn hg).mpr he⟩

-- An update about a link under a relation that rules write.
structure Proper (c₀ : Cache) (u : Update) : Prop where
  concerns : ∃ i key, u.Concerns u.target i u.binding.relation key ∧ Link.Identity i
  relation : u.binding.relation ∈ c₀.rules.inverseRelationsOf u.target

section Rules

variable {rule : Rule} {l back : Link} {o : Operation} {t : Int}

theorem Setting.proper_update (hs : c₀.Setting v as) (hr : rule ∈ c₀.rules.rulesOf type)
    (hl : l.identity?.isSome) : c₀.Proper (rule.update [Update.linkKey l] back o t) where
  concerns := by
    have ⟨i, hi⟩ := Option.isSome_iff_exists.mp hl
    refine ⟨_, _, Rule.concerns_update, ?_⟩
    rw [Link.linkKey_eq_of_identity? hi]
    exact Link.identity_of_identityOf? hi
  relation := hs.closed.inverse type rule hr

variable (hs : c₀.Setting v as) (h : c₀.Fits v as type id r)

include hs h

-- The links that a rule is about can be resolved.
theorem Fits.linked_of_rule (hr : rule ∈ c₀.rules.rulesOf type) :
    ∀ l ∈ r.links rule.relation, l.identity?.isSome :=
  h.linked _ (hs.simple.unmixed type rule hr)

theorem Fits.withdrawn (hr : rule ∈ c₀.rules.rulesOf type) :
    ∃ back, Update.linkKey back = c₀.ident v type id ∧
      rule.withdrawn (c₀.sourceOf type) r t = .ok ((r.links rule.relation).map fun l =>
        rule.update [Update.linkKey l] back .delete t) := by
  have ⟨back, hb, hk⟩ := h.backLink hs
  exact ⟨back, hk, Rule.withdrawn_eq hb (h.linked_of_rule hs hr)⟩

theorem Fits.proper_of_mem_removalUpdates (hu : u ∈ c₀.removalUpdates type r t) :
    c₀.Proper u ∧ u.operation = .delete := by
  rw [removalUpdates_eq] at hu
  obtain ⟨rule, hr, us, he, hu⟩ := mem_contributions.mp hu
  have ⟨_, _, hw⟩ := h.withdrawn (t := t) hs hr
  obtain rfl := Except.ok.inj (he.symm.trans hw)
  obtain ⟨l, hl, rfl⟩ := List.mem_map.mp hu
  exact ⟨hs.proper_update hr (h.linked_of_rule hs hr l hl), rfl⟩

theorem Fits.exists_removalUpdates (hr : rule ∈ c₀.rules.rulesOf type)
    (hl : r.Reaches rule.relation i) :
    ∃ d ∈ c₀.removalUpdates type r t, d.operation = .delete ∧
      d.Concerns rule.target i rule.inverse (c₀.ident v type id) := by
  have ⟨back, hk, hw⟩ := h.withdrawn (t := t) hs hr
  obtain ⟨l, hm, rfl⟩ := hl
  refine ⟨rule.update [Update.linkKey l] back .delete t, ?_, rfl, hk ▸ Rule.concerns_update⟩
  rw [removalUpdates_eq]
  exact mem_contributions.mpr ⟨rule, hr, _, hw, List.mem_map.mpr ⟨l, hm, rfl⟩⟩

end Rules

-- What the updates that follow from a write are about.
structure Tells (c₀ : Cache) (v : Descriptor → String → String) (type : Descriptor) (id : String)
    (old : Option Resource) (new : Resource) (us : List Update) : Prop where
  proper : ∀ u ∈ us, c₀.Proper u
  added : ∀ u ∈ us, u.operation = .add → ∃ rule ∈ c₀.rules.rulesOf type, ∃ i,
    new.Reaches rule.relation i ∧ u.Concerns rule.target i rule.inverse (c₀.ident v type id)
  deleted : ∀ rule ∈ c₀.rules.rulesOf type, ∀ o i, old = some o → o.Reaches rule.relation i →
    ¬new.Reaches rule.relation i → ∃ d ∈ us, d.operation = .delete ∧
      d.Concerns rule.target i rule.inverse (c₀.ident v type id)

theorem mem_derived_iff {old : Option Resource} {new : Resource} {t : Int} {back : Link}
    (hs : c₀.Setting v as) (ho : ∀ o, old = some o → c₀.Fits v as type id o)
    (h : c₀.Fits v as type id new) (hb : new.backLink type (c₀.fieldsOf type) = .ok back) :
    u ∈ contributions (c₀.rules.rulesOf type) (fun rule =>
        rule.derived (c₀.sourceOf type) old new t) ↔
      ∃ rule ∈ c₀.rules.rulesOf type,
        (∃ l ∈ rule.dropped old new, rule.update [Update.linkKey l] back .delete t = u) ∨
        ∃ l ∈ (new.links rule.relation).take 1,
          rule.update [Update.linkKey l] back .add t = u := by
  rw [mem_contributions]
  refine exists_congr fun rule => and_congr_right fun hr => ?_
  rw [Rule.derived_eq (c₀.sourceOf type) t (hs.simple.single type rule hr) hb
    (fun o hm => (ho o hm).linked_of_rule hs hr) (h.linked_of_rule hs hr)]
  simp only [Except.ok.injEq, exists_eq_left', List.mem_append, List.mem_map]

theorem tells_derived {old : Option Resource} {new : Resource} {t : Int} (hs : c₀.Setting v as)
    (ho : ∀ o, old = some o → c₀.Fits v as type id o) (h : c₀.Fits v as type id new) :
    c₀.Tells v type id old new (contributions (c₀.rules.rulesOf type) fun rule =>
      rule.derived (c₀.sourceOf type) old new t) := by
  have ⟨back, hb, hk⟩ := h.backLink hs
  constructor
  case proper =>
    intro u hu
    obtain ⟨rule, hr, ⟨l, hl, rfl⟩ | ⟨l, hl, rfl⟩⟩ := (mem_derived_iff hs ho h hb).mp hu
    · have ⟨o, he, hl, _⟩ := Rule.mem_dropped.mp hl
      exact hs.proper_update hr ((ho o he).linked_of_rule hs hr l hl)
    · exact hs.proper_update hr (h.linked_of_rule hs hr l (List.mem_of_mem_take hl))
  case added =>
    intro u hu ha
    obtain ⟨rule, hr, ⟨l, hl, rfl⟩ | ⟨l, hl, rfl⟩⟩ := (mem_derived_iff hs ho h hb).mp hu
    · simp [Rule.update] at ha
    · exact ⟨rule, hr, _, ⟨l, List.mem_of_mem_take hl, rfl⟩, hk ▸ Rule.concerns_update⟩
  case deleted =>
    intro rule hr o i he ⟨l, hl, hi⟩ hn
    have hm : l ∈ rule.dropped old new := Rule.mem_dropped.mpr ⟨o, he, hl, hi ▸ hn⟩
    refine ⟨rule.update [i] back .delete t, ?_, rfl, hk ▸ Rule.concerns_update⟩
    exact (mem_derived_iff hs ho h hb).mpr ⟨rule, hr, .inl ⟨l, hm, hi ▸ rfl⟩⟩

theorem Plain.fits (hs : c₀.Setting v as) (hm : a ∈ as) (ht : c₀.contains a.type)
    (hl : r.attributes = a.resource.attributes)
    (ho : ∀ relation ∉ c₀.rules.inverseRelationsOf a.type,
      r.links relation = a.resource.links relation) :
    c₀.Fits v as a.type a.id r where
  contained := ht
  sent := ⟨a, hm, rfl, rfl⟩
  value field hf := by rw [Resource.fieldValue?_congr hl, (hs.plain a hm).value field hf]
  linked relation hr l hl := (hs.plain a hm).linked relation l (ho relation hr ▸ hl)
  unnamed := (ho _ hs.self_not_mem).trans (hs.plain a hm).unnamed

theorem frame_apply (now : Int) (hc : c.Sound) (hu : c₀.Proper u) :
    c₀.Frame c (c.apply u now).2 ∧ c.Kin (c.apply u now).2 ∧ (c.apply u now).2.Sound := by
  by_cases ht : c.contains u.target
  case neg =>
    rw [apply_of_not_contains ht]
    exact ⟨.refl c, .refl c, hc⟩
  case pos =>
    have ⟨i, _, hi, _⟩ := hu.concerns
    have ⟨ha, hk⟩ := applies_apply now hc ht hi.ids
    exact ⟨frame_of_applies ha hu.relation, hk⟩

theorem Holds.apply {now : Int} (hs : c₀.Setting v as) (hk : c₀.Kin c) (hm : c.Sound)
    (hf : ∀ type id r, c.get? type id = some r → c₀.Fits v as type id r) (hu : c₀.Proper u)
    (hc : c₀.contains type) (h : c₀.Holds v (c.apply u now).2 type i relation key) :
    u.Effect (c₀.Holds v c type i relation key) (u.Concerns type i relation key) := by
  by_cases ht : c.contains u.target
  case neg =>
    rw [apply_of_not_contains ht] at h
    exact .of_before h fun hu => ht (by rwa [hu.target, hk.contains])
  case pos =>
    have ⟨i, _, hi, hl⟩ := hu.concerns
    exact h.applies hs hk hf hi hl (applies_apply now hm ht hi.ids).1

-- A write brings no links under relations that rules write. It only moves them.
theorem Holds.of_writes {t : Int} {us : List Update} {type' : Descriptor} (hs : c₀.Setting v as)
    (hk : c₀.Kin c) (hm : a ∈ as) (ht : c₀.contains a.type)
    (hw : c.Writes a.type a.id a.resource t us c')
    (hr : relation ∈ c₀.rules.inverseRelationsOf type')
    (h : c₀.Holds v c' type' i relation key) : c₀.Holds v c type' i relation key := by
  obtain ⟨id', r', hg, he, hl⟩ | hb := h
  case inr => exact .inr ((hw.waits _ _).mp hb).1
  case inl =>
    have ⟨merged, hmerge, hgets, _⟩ := hw.merges
    rw [hgets] at hg
    split at hg
    case isFalse => exact .inl ⟨id', r', hg, he, hl⟩
    case isTrue hi =>
      obtain ⟨rfl, rfl⟩ := hi
      obtain rfl := Option.some.inj hg
      obtain ⟨l, hn, _⟩ | ⟨_, ⟨_, o, ho, hl⟩ | ⟨_, ⟨j, hj, rfl⟩, hb⟩⟩ :=
        (hmerge.reaches _ _).mp hl
      · simp [(hs.plain a hm).own relation hr] at hn
      · exact .inl ⟨a.id, o, ho, he, hl⟩
      · have hf : c₀.Fits v as a.type a.id merged :=
          Plain.fits hs hm ht hmerge.attributes (hk.rules ▸ hmerge.others)
        rw [hk.fieldsOf, ← Resource.identities_congr hmerge.attributes, hf.identities hs,
          List.mem_singleton] at hj
        refine .inr ?_
        rwa [hj, Address.of, (hf.identity hs).lower_eq, he] at hb

-- Resources go, and leave the updates behind that withdraw their links.
structure Loses (c₀ c : Cache) (us : List Update) (c' : Cache) : Prop where
  kin : c.Kin c'
  sound : c'.Sound
  buffer : c'.buffer = c.buffer
  kept : ∀ type id r, c'.get? type id = some r → c.get? type id = some r
  lost : ∀ type id r, c.get? type id = some r →
    c'.get? type id = some r ∨ ∃ t, c₀.removalUpdates type r t ⊆ us
  only : ∀ u ∈ us, ∃ type id r t, c.get? type id = some r ∧ u ∈ c₀.removalUpdates type r t

theorem Removes.loses {t : Int} {us : List Update} (hk : c₀.Kin c)
    (h : c.Removes type id t us c') : c₀.Loses c us c' where
  kin := h.kin
  sound := h.sound
  buffer := h.buffer
  kept type' id' r hg := by
    rw [h.gets] at hg
    split at hg
    case isTrue => simp at hg
    case isFalse => exact hg
  lost type' id' r hg := by
    rw [h.gets]
    split
    case isFalse => exact .inl hg
    case isTrue he =>
      rw [h.updates, ← he.1, ← he.2, hg, hk.removalUpdates]
      exact .inr ⟨t, fun _ hu => hu⟩
  only u hu := by
    rw [h.updates] at hu
    split at hu
    case h_1 r hg => exact ⟨type, id, r, t, hg, hk.removalUpdates ▸ hu⟩
    case h_2 => simp at hu

theorem Evicts.loses {es : List Entry} (h : c.Evicts type es c') (t : Int) :
    c₀.Loses c (es.flatMap fun e => c₀.removalUpdates type e.resource t) c' where
  kin := h.kin
  sound := h.sound
  buffer := h.buffer
  kept := h.kept
  lost type' id' r hg := by
    refine (h.lost type' id' r hg).imp_right fun ⟨ht, e, he, _, hr⟩ => ⟨t, fun u hu => ?_⟩
    exact List.mem_flatMap.mpr ⟨e, he, ht ▸ hr ▸ hu⟩
  only u hu := by
    obtain ⟨e, he, hu⟩ := List.mem_flatMap.mp hu
    exact ⟨type, e.id, e.resource, t, h.cached e he, hu⟩

-- Whether a link on a target is the back link of a cached source that links to the target.
def HasSource (c : Cache) (type : Descriptor) (rule : Rule) (r : Resource) (l : Link) : Prop :=
  ∃ id s, c.get? type id = some s ∧
    (∃ back, s.backLink type (c.fieldsOf type) = .ok back ∧ back.sameTarget l) ∧
    ∃ l' ∈ s.links rule.relation, ∃ i ∈ r.identities (c.fieldsOf rule.target),
      l'.identity? = some i

end Cache
end LinkedCache
