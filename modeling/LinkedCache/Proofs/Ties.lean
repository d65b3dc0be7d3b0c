import LinkedCache.Proofs.Backing
import LinkedCache.Proofs.Waiting

-- The two ends of a link that a rule ties together, and what each change of a cache means for the
-- link back: an addition makes it, a write of the target takes it over, and a removal of the target
-- takes it away.

namespace LinkedCache

namespace Cache

variable {c₀ c c' : Cache} {v : Descriptor → String → String} {as : List Arrival}
  {a : Arrival} {type type' : Descriptor} {id i i' relation relation' key key' : String}
  {r : Resource} {u : Update}

-- An addition puts its link somewhere, and a deletion takes no other link away.
theorem Holds.of_effect (hs : c₀.Setting v as) (hk : c₀.Kin c)
    (hf : ∀ type id r, c.get? type id = some r → c₀.Fits v as type id r)
    (hu : u.Concerns type i relation key) (hi : Link.Identity i) (ha : Applies u i c c')
    (h : u.Effect (c₀.Holds v c type' i' relation' key') (u.Concerns type' i' relation' key')) :
    c₀.Holds v c' type' i' relation' key' := by
  have hw : (⟨type', i', relation'⟩ : Address) = u.address i ∧ key' ∈ u.keys ↔
      u.Concerns type' i' relation' key' := address_iff hu hi
  by_cases hc : u.Concerns type' i' relation' key'
  case pos =>
    have ho : u.operation = .add := by
      unfold Update.Effect at h
      split at h
      case h_1 ho => exact ho
      case h_2 => exact absurd hc h.2
    obtain ⟨rfl, rfl, rfl, hkey⟩ := hu.iff_of_ids.mp hc
    cases ha
    case here id₀ r₀ r₁ answers cached acts gets _ =>
      have ⟨r, hg, hr⟩ := answers
      rw [hk.fieldsOf, (hf _ _ _ hg).answersTo_iff hs hi] at hr
      refine .inl ⟨id₀, r₁, (gets _ _).trans (if_pos ⟨rfl, rfl⟩), hr, (acts.reaches _ _).mpr ?_⟩
      unfold Update.Effect
      rw [ho]
      exact .inr ⟨rfl, hkey⟩
    case away absent gets waits =>
      refine .inr ((waits _ _).mpr ?_)
      unfold Update.Effect
      rw [ho]
      exact .inr (hw.mpr hc)
  case neg =>
    rw [Update.effect_of_not_hit hc] at h
    cases ha
    case here id₀ r₀ r₁ answers cached acts gets waits =>
      obtain ⟨id, r, hg, he, hl⟩ | hb := h
      case inr => exact .inr ((waits _ _).mpr ⟨hb, mt hw.mp hc⟩)
      case inl =>
        by_cases ht : type' = u.target ∧ id = id₀
        case neg => exact .inl ⟨id, r, (gets _ _).trans ((if_neg ht).trans hg), he, hl⟩
        case pos =>
          obtain ⟨rfl, rfl⟩ := ht
          obtain rfl := Option.some.inj (hg.symm.trans cached)
          have ⟨r', hg', hr⟩ := answers
          rw [hk.fieldsOf, (hf _ _ _ hg').answersTo_iff hs hi] at hr
          refine .inl ⟨id, r₁, (gets _ _).trans (if_pos ⟨rfl, rfl⟩), he, ?_⟩
          refine (acts.reaches _ _).mpr (.of_before hl fun hn => hc ?_)
          exact hu.iff_of_ids.mpr ⟨rfl, he.symm.trans hr, hn⟩
    case away absent gets waits =>
      obtain ⟨id, r, hg, he, hl⟩ | hb := h
      case inl => exact .inl ⟨id, r, (gets _ _).trans hg, he, hl⟩
      case inr => exact .inr ((waits _ _).mpr (.of_before hb (mt hw.mp hc)))

theorem Holds.apply_of_effect {now : Int} (hs : c₀.Setting v as) (hk : c₀.Kin c) (hm : c.Sound)
    (hf : ∀ type id r, c.get? type id = some r → c₀.Fits v as type id r) (hu : c₀.Proper u)
    (hc : c₀.contains type)
    (h : u.Effect (c₀.Holds v c type i relation key) (u.Concerns type i relation key)) :
    c₀.Holds v (c.apply u now).2 type i relation key := by
  by_cases ht : c.contains u.target
  case neg =>
    rw [apply_of_not_contains ht]
    refine (Update.effect_of_not_hit fun hu => ht ?_).mp h
    rwa [hu.target, hk.contains]
  case pos =>
    have ⟨i, _, hi, hl⟩ := hu.concerns
    exact Holds.of_effect hs hk hf hi hl (applies_apply now hm ht hi.ids).1 h

-- What a target holds or waits for is there after a write, as a write takes what waits.
theorem Holds.writes {t : Int} {us : List Update} (hs : c₀.Setting v as) (hk : c₀.Kin c)
    (hm : a ∈ as) (ht : c₀.contains a.type) (hw : c.Writes a.type a.id a.resource t us c')
    (hr : relation ∈ c₀.rules.inverseRelationsOf type) (h : c₀.Holds v c type i relation key) :
    c₀.Holds v c' type i relation key := by
  obtain ⟨merged, hmerge, hgets, _⟩ := hw.merges
  have hf : c₀.Fits v as a.type a.id merged :=
    Plain.fits hs hm ht hmerge.attributes (hk.rules ▸ hmerge.others)
  obtain ⟨id, r, hg, he, hl⟩ | hb := h
  case inl =>
    by_cases hi : type = a.type ∧ id = a.id
    case neg => exact .inl ⟨id, r, (hgets _ _).trans ((if_neg hi).trans hg), he, hl⟩
    case pos =>
      obtain ⟨rfl, rfl⟩ := hi
      refine .inl ⟨a.id, merged, (hgets _ _).trans (if_pos ⟨rfl, rfl⟩), he, ?_⟩
      refine (hmerge.reaches _ _).mpr (.inr ⟨hk.rules ▸ hr, .inl ⟨?_, r, hg, hl⟩⟩)
      simp [Resource.hasRelation, (hs.plain a hm).own relation hr]
  case inr =>
    by_cases htaken : c.TakenBy a.type a.resource ⟨type, i, relation⟩
    case neg => exact .inr ((hw.waits _ _).mpr ⟨hb, htaken⟩)
    case pos =>
      obtain ⟨relation', hr', htakes⟩ := htaken
      obtain rfl : relation = relation' := htakes.relation_eq
      obtain ⟨j, hj, ha⟩ := id htakes
      rw [hk.fieldsOf, ← Resource.identities_congr hmerge.attributes, hf.identities hs,
        List.mem_singleton] at hj
      rw [hj, Address.of, (hf.identity hs).lower_eq, Address.mk.injEq] at ha
      obtain ⟨rfl, rfl, -⟩ := ha
      refine .inl ⟨a.id, merged, (hgets _ _).trans (if_pos ⟨rfl, rfl⟩), rfl, ?_⟩
      exact (hmerge.reaches _ _).mpr (.inr ⟨hr', .inr ⟨_, htakes, hb⟩⟩)

section Derived

variable {t : Int} {new : Resource} {old : Option Resource}

theorem concerns_of_mem_derived (hs : c₀.Setting v as)
    (ho : ∀ o, old = some o → c₀.Fits v as type id o) (h : c₀.Fits v as type id new)
    (hu : u ∈ contributions (c₀.rules.rulesOf type) fun rule =>
      rule.derived (c₀.sourceOf type) old new t) :
    ∃ rule ∈ c₀.rules.rulesOf type, ∃ i,
      u.Concerns rule.target i rule.inverse (c₀.ident v type id) ∧
      (u.operation = .add ∨ ¬new.Reaches rule.relation i) := by
  have ⟨back, hb, hk⟩ := h.backLink hs
  obtain ⟨rule, hr, ⟨l, hl, rfl⟩ | ⟨l, hl, rfl⟩⟩ := (mem_derived_iff hs ho h hb).mp hu
  · have ⟨_, _, _, hn⟩ := Rule.mem_dropped.mp hl
    exact ⟨rule, hr, _, hk ▸ Rule.concerns_update, .inr hn⟩
  · exact ⟨rule, hr, _, hk ▸ Rule.concerns_update, .inl rfl⟩

theorem exists_derived_of_head? {rule : Rule} {l : Link} (hs : c₀.Setting v as)
    (ho : ∀ o, old = some o → c₀.Fits v as type id o) (h : c₀.Fits v as type id new)
    (hr : rule ∈ c₀.rules.rulesOf type) (hl : (new.links rule.relation).head? = some l) :
    ∃ u ∈ contributions (c₀.rules.rulesOf type) (fun rule =>
        rule.derived (c₀.sourceOf type) old new t),
      u.Concerns rule.target (Update.linkKey l) rule.inverse (c₀.ident v type id) := by
  have ⟨back, hb, hk⟩ := h.backLink hs
  refine ⟨rule.update [Update.linkKey l] back .add t, ?_, hk ▸ Rule.concerns_update⟩
  refine (mem_derived_iff hs ho h hb).mpr ⟨rule, hr, .inr ⟨l, ?_, rfl⟩⟩
  have ⟨ls, hls⟩ := List.head?_eq_some_iff.mp hl
  simp [hls]

theorem Fits.concerns_of_mem_removalUpdates (hs : c₀.Setting v as) (h : c₀.Fits v as type id r)
    (hu : u ∈ c₀.removalUpdates type r t) :
    ∃ rule ∈ c₀.rules.rulesOf type, ∃ i,
      u.Concerns rule.target i rule.inverse (c₀.ident v type id) := by
  rw [removalUpdates_eq] at hu
  obtain ⟨rule, hr, us, he, hu⟩ := mem_contributions.mp hu
  have ⟨back, hk, hw⟩ := h.withdrawn (t := t) hs hr
  obtain rfl := Except.ok.inj (he.symm.trans hw)
  obtain ⟨l, _, rfl⟩ := List.mem_map.mp hu
  exact ⟨rule, hr, _, hk ▸ Rule.concerns_update⟩

end Derived

-- What withdraws its links is no longer there.
structure Drops (c₀ c : Cache) (us : List Update) (c' : Cache) : Prop extends
    c₀.Loses c us c' where
  gone : ∀ u ∈ us, ∃ type id r t, c.get? type id = some r ∧ c'.get? type id = none ∧
    u ∈ c₀.removalUpdates type r t

theorem Removes.drops {t : Int} {us : List Update} (hk : c₀.Kin c)
    (h : c.Removes type id t us c') : c₀.Drops c us c' where
  toLoses := h.loses hk
  gone u hu := by
    rw [h.updates] at hu
    split at hu
    case h_1 r hg =>
      exact ⟨type, id, r, t, hg, (h.gets _ _).trans (if_pos ⟨rfl, rfl⟩), hk.removalUpdates ▸ hu⟩
    case h_2 => simp at hu

theorem Evicts.drops {es : List Entry} (h : c.Evicts type es c') (t : Int) :
    c₀.Drops c (es.flatMap fun e => c₀.removalUpdates type e.resource t) c' where
  toLoses := h.loses t
  gone u hu := by
    obtain ⟨e, he, hu⟩ := List.mem_flatMap.mp hu
    exact ⟨type, e.id, e.resource, t, h.cached e he, h.gone e he, hu⟩

-- Whether a target is what the first link of a source points to.
def Selects (c : Cache) (rule : Rule) (s r : Resource) : Prop :=
  ∃ l, (s.links rule.relation).head? = some l ∧
    ∃ i ∈ r.identities (c.fieldsOf rule.target), l.identity? = some i

def LinkedBack (c : Cache) (type : Descriptor) (rule : Rule) (s r : Resource) : Prop :=
  ∃ back, s.backLink type (c.fieldsOf type) = .ok back ∧ r.holds rule.inverse back

-- A source and a target of a rule.
structure Tie (c₀ : Cache) (v : Descriptor → String → String) (as : List Arrival) where
  type : Descriptor
  rule : Rule
  source : String
  target : String
  listed : rule ∈ c₀.rules.rulesOf type
  sourceFits : ∃ s, c₀.Fits v as type source s
  targetFits : ∃ r, c₀.Fits v as rule.target target r

namespace Tie

variable (t : c₀.Tie v as)

-- Whether the first link of the source points to the target.
def Points (c : Cache) : Prop :=
  ∃ s l, c.get? t.type t.source = some s ∧ (s.links t.rule.relation).head? = some l ∧
    Update.linkKey l = c₀.ident v t.rule.target t.target

-- Whether the link back is made: the target holds it, or it waits for the target.
def IsMade (c : Cache) : Prop :=
  c₀.Holds v c t.rule.target (c₀.ident v t.rule.target t.target) t.rule.inverse
    (c₀.ident v t.type t.source)

-- Whether an update is about the link back.
def IsHitBy (u : Update) : Prop :=
  u.Concerns t.rule.target (c₀.ident v t.rule.target t.target) t.rule.inverse
    (c₀.ident v t.type t.source)

variable {t} (hs : c₀.Setting v as)

include hs

theorem Points.frame (hf : c₀.Frame c c') (h : t.Points c') : t.Points c := by
  have ⟨s', l, hg', hl, hk⟩ := h
  have ⟨s, hg, _, he⟩ := hf.of_get? hg'
  exact ⟨s, l, hg, he _ (hs.simple.unmixed _ _ t.listed) ▸ hl, hk⟩

theorem IsHitBy.eq {rule : Rule} (h : t.IsHitBy u) (hr : rule ∈ c₀.rules.rulesOf type)
    (hf : c₀.Fits v as type id r)
    (hu : u.Concerns rule.target i rule.inverse (c₀.ident v type id)) :
    type = t.type ∧ id = t.source ∧ rule = t.rule ∧ i = c₀.ident v t.rule.target t.target := by
  have ⟨ht, hi, hinverse, hk⟩ := hu.unique h
  obtain ⟨rfl, rfl⟩ := hs.simple.distinct type t.type rule hr t.rule t.listed ht (by rw [hinverse])
  have ⟨_, hf'⟩ := t.sourceFits
  exact ⟨rfl, hf.eq_of_ident hs hf' hk, rfl, hi⟩

theorem IsMade.apply {now : Int} (hk : c₀.Kin c) (hm : c.Sound)
    (hf : ∀ type id r, c.get? type id = some r → c₀.Fits v as type id r) (hu : c₀.Proper u)
    (h : u.Effect (t.IsMade c) (t.IsHitBy u)) : t.IsMade (c.apply u now).2 :=
  have ⟨_, ht⟩ := t.targetFits
  Holds.apply_of_effect hs hk hm hf hu ht.contained h

theorem IsMade.of_apply {now : Int} (hk : c₀.Kin c) (hm : c.Sound)
    (hf : ∀ type id r, c.get? type id = some r → c₀.Fits v as type id r) (hu : c₀.Proper u)
    (hd : t.IsHitBy u → u.operation = .delete) (h : t.IsMade (c.apply u now).2) : t.IsMade c := by
  have ⟨_, ht⟩ := t.targetFits
  have he := Holds.apply hs hk hm hf hu ht.contained h
  unfold Update.Effect at he
  split at he
  case h_1 ho => exact he.resolve_right fun hi => nomatch ho.symm.trans (hd hi)
  case h_2 => exact he.1

theorem IsMade.cases (hf : ∀ type id r, c.get? type id = some r → c₀.Fits v as type id r)
    (h : t.IsMade c) :
    (∃ r, c.get? t.rule.target t.target = some r ∧
      r.Reaches t.rule.inverse (c₀.ident v t.type t.source)) ∨
    c.buffer.Awaits ⟨t.rule.target, c₀.ident v t.rule.target t.target, t.rule.inverse⟩
      (c₀.ident v t.type t.source) := by
  refine h.imp_left fun ⟨id, r, hg, he, hl⟩ => ?_
  have ⟨_, ht⟩ := t.targetFits
  obtain rfl := (hf _ _ _ hg).eq_of_ident hs ht he
  exact ⟨r, hg, hl⟩

-- A cached target does not have its links waiting.
theorem not_awaits (t : c₀.Tie v as) (hk : c₀.Kin c) (hc : c.Settled)
    (hf : ∀ type id r, c.get? type id = some r → c₀.Fits v as type id r)
    (hg : c.get? t.rule.target t.target = some r) :
    ¬c.buffer.Awaits ⟨t.rule.target, c₀.ident v t.rule.target t.target, t.rule.inverse⟩
      (c₀.ident v t.type t.source) := by
  intro hb
  have hr := hf _ _ _ hg
  have hi : t.rule.inverse ∈ c.rules.inverseRelationsOf t.rule.target :=
    hk.rules ▸ hs.closed.inverse _ _ t.listed
  refine hc.unanswered _ _ hb hi t.target ⟨r, hg, ?_⟩
  rw [hk.fieldsOf]
  exact (hr.answersTo_iff hs (hr.identity hs)).mpr rfl

theorem isMade_iff_reaches (t : c₀.Tie v as) (hk : c₀.Kin c) (hc : c.Settled)
    (hf : ∀ type id r, c.get? type id = some r → c₀.Fits v as type id r)
    (hg : c.get? t.rule.target t.target = some r) :
    t.IsMade c ↔ r.Reaches t.rule.inverse (c₀.ident v t.type t.source) := by
  constructor
  case mp =>
    intro h
    have ⟨r', hg', hl⟩ := (h.cases hs hf).resolve_right (t.not_awaits hs hk hc hf hg)
    exact Option.some.inj (hg.symm.trans hg') ▸ hl
  case mpr => exact fun hl => .inl ⟨t.target, r, hg, rfl, hl⟩

section Ends

variable {s : Resource} (t : c₀.Tie v as) (hk : c₀.Kin c)
  (hf : ∀ type id r, c.get? type id = some r → c₀.Fits v as type id r)
  (hsource : c.get? t.type t.source = some s) (htarget : c.get? t.rule.target t.target = some r)

include hk hf hsource htarget

theorem points_of_selects (h : c.Selects t.rule s r) : t.Points c := by
  have ⟨l, hl, i, hi, hid⟩ := h
  rw [hk.fieldsOf, (hf _ _ _ htarget).identities hs, List.mem_singleton] at hi
  exact ⟨s, l, hsource, hl, (Link.linkKey_eq_of_identity? hid).trans hi⟩

theorem linkedBack_iff_isMade (hc : c.Settled) :
    c.LinkedBack t.type t.rule s r ↔ t.IsMade c := by
  have ⟨back, hb, hkey⟩ := (hf _ _ _ hsource).backLink hs
  have hiff : r.holds t.rule.inverse back ↔ r.Reaches t.rule.inverse (Update.linkKey back) :=
    Resource.holds_iff
  rw [t.isMade_iff_reaches hs hk hc hf htarget, ← hkey, ← hiff, LinkedBack, hk.fieldsOf, hb]
  simp only [Except.ok.injEq, exists_eq_left']

end Ends

end Tie

end Cache
end LinkedCache
