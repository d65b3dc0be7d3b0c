import Mathlib.Data.List.Pairwise
import LinkedCache.Proofs.Arrival
import LinkedCache.Proofs.Roster
import LinkedCache.Proofs.Tracking

-- Resources that arrive in different orders end up with the same links: whether a link meets its
-- target or waits for it, the target has it as soon as both have arrived.

namespace LinkedCache

open Text (lower)

namespace Arrival

variable {c₀ : Cache} {a b : Arrival} {i : String}

-- Different resources, which no identity confuses.
structure Apart (c₀ : Cache) (a b : Arrival) : Prop where
  id : a.type = b.type → a.id ≠ b.id
  values : a.type = b.type → ∀ fv ∈ Store.indexed (c₀.fieldsOf a.type) a.resource,
    fv ∉ Store.indexed (c₀.fieldsOf a.type) b.resource

theorem Apart.symm (h : a.Apart c₀ b) : b.Apart c₀ a where
  id ht := (h.id ht.symm).symm
  values ht fv hb ha := h.values ht.symm fv (ht ▸ ha) (ht ▸ hb)

instance : Std.Symm (Apart c₀) := ⟨fun _ _ => Apart.symm⟩

theorem Apart.not_answersTo (h : a.Apart c₀ b) (ht : a.type = b.type)
    (ha : a.resource.AnswersTo (c₀.fieldsOf a.type) i) :
    ¬b.resource.AnswersTo (c₀.fieldsOf a.type) i := by
  rintro ⟨f, v, hc, hb⟩
  obtain ⟨f', v', hc', ha⟩ := ha
  cases hc.symm.trans hc'
  exact h.values ht _ ha hb

def updates (c₀ : Cache) (a : Arrival) : List Update :=
  contributions (c₀.rules.rulesOf a.type) fun rule =>
    rule.added (c₀.sourceOf a.type) a.resource a.timestamp

end Arrival

namespace Cache

variable {c₀ c c' : Cache} {as : List Arrival} {a : Arrival} {D : Update → String → Prop}
  {u : Update} {i id : String} {type : Descriptor}

-- No rule that a type triggers reads what other rules write.
def Unmixed (c₀ : Cache) : Prop :=
  ∀ type, ∀ rule ∈ c₀.rules.rulesOf type, rule.relation ∉ c₀.rules.inverseRelationsOf type ∧
    Resource.selfRelation ∉ c₀.rules.inverseRelationsOf type

-- An addition that is addressed in a way in which it can be delivered early or late.
structure Addressed (c₀ : Cache) (u : Update) (i : String) : Prop where
  add : u.operation = .add
  identity : Link.Identity i
  relation : u.binding.relation ∈ c₀.rules.inverseRelationsOf u.target

-- The state that is reached when the resources `as` have arrived and the updates `D` have been
-- applied, each to an identity: the resources have the links they brought and those that were added
-- for one of their identities, and the other links wait.
structure Arrived (c₀ : Cache) (as : List Arrival) (D : Update → String → Prop) (c : Cache) :
    Prop where
  kin : c₀.Kin c
  sound : c.Sound
  absent : ∀ type id, (∀ a ∈ as, a.type = type → a.id ≠ id) → c.get? type id = none
  present : ∀ a ∈ as, c₀.contains a.type → ∃ r, c.get? a.type a.id = some r ∧
    r.attributes = a.resource.attributes ∧ ∀ relation key, r.Reaches relation key ↔
      a.resource.Reaches relation key ∨ ∃ u i, D u i ∧ u.target = a.type ∧
        a.resource.AnswersTo (c₀.fieldsOf a.type) i ∧ relation = u.binding.relation ∧ key ∈ u.keys
  waits : ∀ ad key, c.buffer.Awaits ad key ↔ ∃ u i, D u i ∧ ad = u.address i ∧ key ∈ u.keys ∧
    ∀ id, ¬c.Answers u.target i id

theorem Arrived.get?_eq_none (h : c₀.Arrived as D c)
    (hn : ¬(c₀.contains type ∧ ∃ a ∈ as, a.type = type ∧ a.id = id)) : c.get? type id = none := by
  by_contra hg
  have ⟨r, hg⟩ := Option.ne_none_iff_exists'.mp hg
  refine hn ⟨h.kin.contains ▸ contains_of_get? hg, ?_⟩
  by_contra hn
  simp only [not_exists, not_and] at hn
  simp [h.absent type id hn] at hg

theorem Arrived.answers_iff (h : c₀.Arrived as D c) :
    c.Answers type i id ↔ c₀.contains type ∧ ∃ a ∈ as, a.type = type ∧ a.id = id ∧
      a.resource.AnswersTo (c₀.fieldsOf type) i := by
  unfold Answers
  rw [h.kin.fieldsOf]
  constructor
  · rintro ⟨r, hg, hr⟩
    have ⟨hc, a, hm, ht, hi⟩ : c₀.contains type ∧ ∃ a ∈ as, a.type = type ∧ a.id = id := by
      by_contra hn
      simp [h.get?_eq_none hn] at hg
    have ⟨r', hg', ha, _⟩ := h.present a hm (ht ▸ hc)
    obtain rfl : r' = r := by simpa [ht, hi, hg] using hg'.symm
    exact ⟨hc, a, hm, ht, hi, (Resource.answersTo_congr ha).mp hr⟩
  · rintro ⟨hc, a, hm, rfl, rfl, hr⟩
    have ⟨r, hg, ha, _⟩ := h.present a hm hc
    exact ⟨r, hg, (Resource.answersTo_congr ha).mpr hr⟩

theorem Arrived.eq_of_answers {id' : String} (h : c₀.Arrived as D c)
    (hp : as.Pairwise (Arrival.Apart c₀)) (hi : c.Answers type i id) (hi' : c.Answers type i id') :
    id = id' := by
  obtain ⟨_, a, ha, rfl, rfl, hr⟩ := h.answers_iff.mp hi
  obtain ⟨_, b, hb, ht, rfl, hr'⟩ := h.answers_iff.mp hi'
  by_contra hn
  exact (hp.forall ha hb fun he => hn (he ▸ rfl)).not_answersTo ht.symm hr hr'

-- The deliveries of an update to an identity, and those before.
def After (D : Update → String → Prop) (u : Update) (i : String) (v : Update) (j : String) : Prop :=
  D v j ∨ (v = u ∧ j = i)

theorem exists_after {Q : Update → String → Prop} :
    (∃ v j, After D u i v j ∧ Q v j) ↔ (∃ v j, D v j ∧ Q v j) ∨ Q u i := by
  unfold After
  constructor
  · rintro ⟨v, j, hd | ⟨rfl, rfl⟩, hq⟩
    · exact .inl ⟨v, j, hd, hq⟩
    · exact .inr hq
  · rintro (⟨v, j, hd, hq⟩ | hq)
    · exact ⟨v, j, .inl hd, hq⟩
    · exact ⟨u, i, .inr ⟨rfl, rfl⟩, hq⟩

theorem Arrived.applies (h : c₀.Arrived as D c) (hp : as.Pairwise (Arrival.Apart c₀))
    (hu : u.operation = .add) (hk : c.Kin c') (hs : c'.Sound) (ha : Applies u i c c') :
    c₀.Arrived as (After D u i) c' := by
  have hn := ha.answers_iff hk
  have he (before hit : Prop) : u.Effect before hit ↔ before ∨ hit := by simp [Update.Effect, hu]
  refine ⟨h.kin.trans hk, hs, fun type id hm => ?_, fun a hm hc => ?_, fun ad key => ?_⟩
  case refine_1 =>
    have hg := h.absent type id hm
    cases ha
    case away gets _ => rw [gets, hg]
    case here id₀ r r' _ cached _ gets _ =>
      rw [gets, if_neg, hg]
      rintro ⟨rfl, rfl⟩
      simp [hg] at cached
  case refine_2 =>
    obtain ⟨r, hg, hr, hl⟩ := h.present a hm hc
    have hai (ht : a.type = u.target) (hi : a.resource.AnswersTo (c₀.fieldsOf a.type) i) :
        c.Answers u.target i a.id := h.answers_iff.mpr ⟨ht ▸ hc, a, hm, ht, rfl, ht ▸ hi⟩
    cases ha
    case away absent gets _ =>
      refine ⟨r, (gets _ _).trans hg, hr, fun relation key => ?_⟩
      rw [exists_after, ← or_assoc, ← hl, or_iff_left]
      exact fun hq => absent _ (hai hq.1.symm hq.2.1)
    case here id r₀ r' answers cached acts gets _ =>
      rw [gets]
      split
      case isFalse hn =>
        refine ⟨r, hg, hr, fun relation key => ?_⟩
        rw [exists_after, ← or_assoc, ← hl, or_iff_left]
        exact fun hq => hn ⟨hq.1.symm, h.eq_of_answers hp (hai hq.1.symm hq.2.1) answers⟩
      case isTrue he =>
        obtain ⟨ht, rfl⟩ := he
        obtain rfl : r = r₀ := Option.some.inj (hg.symm.trans (ht ▸ cached))
        refine ⟨r', rfl, acts.attributes.trans hr, fun relation key => ?_⟩
        have hi : a.resource.AnswersTo (c₀.fieldsOf a.type) i := by
          obtain ⟨r'', hg', hi⟩ := answers
          obtain rfl : r'' = r := Option.some.inj (hg'.symm.trans (ht ▸ hg))
          exact (Resource.answersTo_congr hr).mp (ht ▸ h.kin.fieldsOf ▸ hi)
        rw [acts.reaches, he, hl, exists_after, or_assoc]
        simp only [ht, true_and, ht ▸ hi]
  case refine_3 =>
    simp only [hn]
    rw [exists_after, ← h.waits]
    cases ha
    case away absent _ waits =>
      rw [waits, he]
      simp only [absent, not_false_eq_true, implies_true, and_true]
    case here id r r' answers _ _ _ waits =>
      rw [waits]
      have hw : c.buffer.Awaits ad key → ad ≠ u.address i := by
        rintro hw rfl
        obtain ⟨v, j, -, hv, -, hj⟩ := (h.waits _ _).mp hw
        obtain ⟨ht, hi, _⟩ := Address.mk.inj hv
        obtain ⟨r, hg, hr⟩ := answers
        rw [ht] at hg hr
        refine hj id ⟨r, hg, Resource.answersTo_lower.mp (hi ▸ Resource.answersTo_lower.mpr hr)⟩
      constructor
      · exact fun hw => .inl hw.1
      · rintro (hw' | ⟨-, -, hi⟩)
        · exact ⟨hw', fun hu => hw hw' hu.1⟩
        · exact absurd answers (hi id)

theorem Arrived.answers_cons {r : Resource} (h : c₀.Arrived as D c)
    (hr : r.attributes = a.resource.attributes) (hn : c.get? a.type a.id = none) (hk : c.Kin c')
    (hg : ∀ type i, c'.get? type i = if type = a.type ∧ i = a.id then some r else c.get? type i)
    (type : Descriptor) (i id : String) :
    c'.Answers type i id ↔ c.Answers type i id ∨
      (type = a.type ∧ id = a.id ∧ a.resource.AnswersTo (c₀.fieldsOf type) i) := by
  unfold Answers
  rw [hg, hk.fieldsOf, h.kin.fieldsOf]
  split
  case isTrue he => simp [he, hn, Resource.answersTo_congr hr]
  case isFalse he =>
    refine (or_iff_left fun hi => he ⟨hi.1, hi.2.1⟩).symm

theorem Arrived.writes {us : List Update} (h : c₀.Arrived as D c)
    (hD : ∀ u i, D u i → c₀.Addressed u i) (hp : ∀ b ∈ as, a.Apart c₀ b)
    (hw : c.Writes a.type a.id a.resource a.timestamp us c') : c₀.Arrived (a :: as) D c' := by
  have ⟨merged, hm, hg, _⟩ := hw.merges
  have hn : c.get? a.type a.id = none := h.absent _ _ fun b hb ht => ((hp b hb).id ht.symm).symm
  have ha := h.answers_cons hm.attributes hn hw.kin hg
  have hr := h.kin.rules
  have ht (u : Update) (i relation : String) (hd : D u i) :
      Resource.Takes a.type (a.resource.identities (c.fieldsOf a.type)) relation (u.address i) ↔
        u.target = a.type ∧ u.binding.relation = relation ∧
          a.resource.AnswersTo (c₀.fieldsOf a.type) i := by
    rw [Resource.takes_address, ← h.kin.fieldsOf]
    rw [Resource.answersTo_iff_exists (fun _ => h.sound.folded) (hD u i hd).identity]
  refine ⟨h.kin.trans hw.kin, hw.sound, fun type id hm => ?_, fun b hb hc => ?_, fun ad key => ?_⟩
  case refine_1 =>
    have ⟨hna, hm⟩ := List.forall_mem_cons.mp hm
    rw [hg, if_neg fun he => hna he.1.symm he.2.symm, h.absent type id hm]
  case refine_2 =>
    rw [hg]
    obtain rfl | hb := List.mem_cons.mp hb
    case inr =>
      rw [if_neg fun he => (hp b hb).id he.1.symm he.2.symm]
      exact h.present b hb hc
    case inl =>
      refine ⟨merged, if_pos ⟨rfl, rfl⟩, hm.attributes, fun relation key => ?_⟩
      rw [hm.reaches, hn]
      refine or_congr_right ⟨?_, ?_⟩
      · rintro ⟨-, ⟨-, _, ho, _⟩ | ⟨ad, htake, hwait⟩⟩
        · exact nomatch ho
        · obtain ⟨u, i, hd, rfl, hk, -⟩ := (h.waits ad key).mp hwait
          have ⟨ht, hr, hi⟩ := (ht u i relation hd).mp htake
          exact ⟨u, i, hd, ht, hi, hr.symm, hk⟩
      · rintro ⟨u, i, hd, htype, hi, rfl, hk⟩
        refine ⟨hr ▸ htype ▸ (hD u i hd).relation, .inr ⟨u.address i, ?_, ?_⟩⟩
        · exact (ht u i _ hd).mpr ⟨htype, rfl, hi⟩
        · refine (h.waits _ key).mpr ⟨u, i, hd, rfl, hk, fun id ho => ?_⟩
          have ⟨_, a, hma, hta, _, ho⟩ := h.answers_iff.mp ho
          exact (hp a hma).not_answersTo (hta.trans htype).symm hi (htype ▸ ho)
  case refine_3 =>
    rw [hw.waits, h.waits]
    constructor
    · rintro ⟨⟨u, i, hd, rfl, hk, hna⟩, hntake⟩
      refine ⟨u, i, hd, rfl, hk, fun id ho => ?_⟩
      obtain ho | ⟨htype, -, hi⟩ := (ha u.target i id).mp ho
      · exact hna id ho
      · refine hntake ⟨_, ?_, (ht u i _ hd).mpr ⟨htype, rfl, htype ▸ hi⟩⟩
        exact hr ▸ htype ▸ (hD u i hd).relation
    · rintro ⟨u, i, hd, rfl, hk, hna⟩
      refine ⟨⟨u, i, hd, rfl, hk, fun id ho => hna id ((ha _ _ _).mpr (.inl ho))⟩, ?_⟩
      rintro ⟨relation, -, htake⟩
      have ⟨htype, _, hi⟩ := (ht u i relation hd).mp htake
      exact hna a.id ((ha _ _ _).mpr (.inr ⟨htype, rfl, htype ▸ hi⟩))

-- The updates that are derived from a write depend only on what was sent.
theorem Writes.updates_eq {us : List Update} (hk : c₀.Kin c) (hm : c₀.Unmixed)
    (hn : c.get? a.type a.id = none)
    (hw : c.Writes a.type a.id a.resource a.timestamp us c') : us = a.updates c₀ := by
  obtain ⟨merged, hmerge, -, rfl⟩ := hw.merges
  rw [hn, hk.rules, hk.sourceOf]
  refine contributions_congr fun rule hr => ?_
  have ⟨hl, hs⟩ := hm a.type rule hr
  rw [← hk.rules] at hl hs
  rw [Rule.derived_none]
  exact Rule.added_congr (hmerge.others _ hl)
    (Rule.backLink_congr (hmerge.others _ hs) hmerge.attributes)

theorem addressed_of_updates (hc : c₀.rules.Closed) (hu : u ∈ a.updates c₀)
    (hi : i ∈ u.targetIds) : c₀.Addressed u i := by
  obtain ⟨rule, hr, us, hus, hu⟩ := mem_contributions.mp hu
  obtain ⟨ids, back, hids, -, rfl⟩ := Rule.mem_added hus hu
  refine ⟨rfl, ?_, hc.inverse a.type rule hr⟩
  have ⟨l, _, hl⟩ := List.mem_map.mp (hids ▸ List.mem_map_of_mem hi)
  exact Link.identity_of_identityOf? (Rule.identity_eq_ok.mp hl)

-- The deliveries that are due when the resources `as` have arrived.
def Due (c₀ : Cache) (as : List Arrival) (u : Update) (i : String) : Prop :=
  ∃ a ∈ as, c₀.contains a.type ∧ u ∈ a.updates c₀ ∧ i ∈ u.targetIds ∧ c₀.contains u.target

theorem due_cons : c₀.Due (a :: as) u i ↔ c₀.Due as u i ∨
    (c₀.contains a.type ∧ u ∈ a.updates c₀ ∧ i ∈ u.targetIds ∧ c₀.contains u.target) := by
  simp only [Due, List.mem_cons, exists_eq_or_imp, or_comm]

theorem Arrived.congr {D' : Update → String → Prop} (h : c₀.Arrived as D c)
    (hD : ∀ u i, D u i ↔ D' u i) : c₀.Arrived as D' c := by
  have he : D = D' := funext fun u => funext fun i => propext (hD u i)
  exact he ▸ h

-- A type that is not cached takes nothing in.
theorem Arrived.cons_of_not_contains (h : c₀.Arrived as D c) (ha : ¬c₀.contains a.type) :
    c₀.Arrived (a :: as) D c where
  kin := h.kin
  sound := h.sound
  absent type id hm := h.absent type id fun b hb => hm b (.tail _ hb)
  present b hb hc := by
    obtain rfl | hb := List.mem_cons.mp hb
    · exact absurd hc ha
    · exact h.present b hb hc
  waits := h.waits

theorem Arrived.of_same (h : c₀.Arrived as D c) (hk : c.Kin c') (hs : c'.Sound)
    (hb : c'.buffer = c.buffer) (hg : c'.get? = c.get?) : c₀.Arrived as D c' where
  kin := h.kin.trans hk
  sound := hs
  absent := hg ▸ h.absent
  present := hg ▸ h.present
  waits := by
    unfold Answers
    rw [hb, hg, hk.fieldsOf]
    exact h.waits

theorem Arrived.apply {now : Int} (h : c₀.Arrived as D c) (hp : as.Pairwise (Arrival.Apart c₀))
    (hu : c₀.contains u.target → u.operation = .add) :
    c₀.Arrived as (fun v j => D v j ∨ (v = u ∧ j ∈ u.targetIds ∧ c₀.contains u.target))
      (c.apply u now).2 := by
  by_cases hc : c₀.contains u.target
  case neg =>
    rw [apply_of_not_contains (h.kin.contains ▸ hc)]
    exact h.congr (by simp [hc])
  case pos =>
    refine (apply_fold (P := fun is => c₀.Arrived as fun v j => D v j ∨ (v = u ∧ j ∈ is))
      h.sound (h.kin.contains ▸ hc) (h.congr (by simp)) ?_).1.congr (by simp [hc])
    intro is i _ c₁ c₂ hk hs ha h
    refine (h.applies hp (hu hc) hk hs ha).congr fun v j => ?_
    simp only [After, List.mem_append, List.mem_singleton, and_or_left, or_assoc]

end Cache

namespace Pipeline

variable {Outbound : Type} [Publisher Outbound] {c₀ : Cache} {as : List Arrival} {a : Arrival}
  {D : Update → String → Prop} {p : Pipeline Outbound}

-- A pipeline whose queue holds nothing but what its cache has been told already.
structure Arrived (c₀ : Cache) (as : List Arrival) (D : Update → String → Prop)
    (p : Pipeline Outbound) : Prop where
  cache : c₀.Arrived as D p.cache
  numbered : p.retry.Numbered
  offers : ∀ n u, p.retry.Offers n u → c₀.contains u.target →
    u.operation = .add ∧ ∀ i ∈ u.targetIds, D u i

omit [Publisher Outbound] in
theorem Arrived.congr {D' : Update → String → Prop} (h : Arrived c₀ as D p)
    (hD : ∀ u i, D u i ↔ D' u i) : Arrived c₀ as D' p := by
  have he : D = D' := funext fun u => funext fun i => propext (hD u i)
  exact he ▸ h

theorem Arrived.dispatch (h : Arrived c₀ as D p) (hp : as.Pairwise (Arrival.Apart c₀))
    (now : Moment) {u : Update} (hu : u.operation = .add) :
    Arrived c₀ as (fun v j => D v j ∨ (v = u ∧ j ∈ u.targetIds ∧ c₀.contains u.target))
      (p.dispatch now u).2 where
  cache := p.cache_dispatch now u ▸ h.cache.apply hp fun _ => hu
  numbered := (later_of_move h.numbered (.dispatch now u)).numbered
  offers n v ho hv := by
    obtain ho | rfl := p.offers_of_dispatch now h.numbered ho
    case inl => exact (h.offers n v ho.1 hv).imp_right fun hd i hi => .inl (hd i hi)
    case inr => exact ⟨hu, fun i hi => .inr ⟨rfl, hi, hv⟩⟩

theorem Arrived.dispatchAll (h : Arrived c₀ as D p) (hp : as.Pairwise (Arrival.Apart c₀))
    (now : Moment) {us : List Update} (hu : ∀ u ∈ us, u.operation = .add) :
    Arrived c₀ as (fun v j => D v j ∨ (v ∈ us ∧ j ∈ v.targetIds ∧ c₀.contains v.target))
      (p.dispatchAll now us) := by
  unfold Pipeline.dispatchAll
  induction us generalizing p D
  case nil => exact h.congr (by simp)
  case cons u us hi =>
    have ⟨hu, hus⟩ := List.forall_mem_cons.mp hu
    refine (hi (h.dispatch hp now hu) hus).congr fun v j => ?_
    rw [or_assoc, List.mem_cons, or_and_right]
    refine or_congr_right (or_congr_left ?_)
    exact ⟨fun ⟨hv, hr⟩ => ⟨hv, hv ▸ hr⟩, fun ⟨hv, hr⟩ => ⟨hv, hv ▸ hr⟩⟩

theorem Arrived.pass (h : Arrived c₀ as D p) (hp : as.Pairwise (Arrival.Apart c₀)) (now : Moment) :
    Arrived c₀ as D (p.pass now).2 := by
  have hw := within_pass p now h.numbered
  refine ⟨?_, hw.numbered, fun n u ho => h.offers n u (hw.offers n u ho)⟩
  refine cache_pass_induct p now h.cache fun item hm hl c hc => ?_
  have ho := h.numbered.offers (Retry.Queue.mem_due_iff.mp hm).1 hl
  refine (hc.apply hp fun hv => (h.offers _ _ ho hv).1).congr fun v j => or_iff_left_of_imp ?_
  rintro ⟨rfl, hj, hv⟩
  exact (h.offers _ _ ho hv).2 j hj

-- Evicting nothing changes nothing.
theorem evict_none {p p' : Pipeline Outbound} {now : Moment} {type : Descriptor} {cutoff : Int}
    (hs : p.cache.Sound) (h : p.evict now type cutoff = .ok (0, p')) :
    p'.retry = p.retry ∧ p.cache.Kin p'.cache ∧ p'.cache.Sound ∧
      p'.cache.buffer = p.cache.buffer ∧ p'.cache.get? = p.cache.get? := by
  unfold evict at h
  split at h
  case h_1 => simp at h
  case h_2 es c he =>
    simp only [Except.ok.injEq, Prod.mk.injEq, List.length_eq_zero_iff] at h
    obtain ⟨rfl, rfl⟩ := h
    have he := Cache.evicts_evict hs he
    refine ⟨rfl, he.kin, he.sound, he.buffer, funext fun type => funext fun i => ?_⟩
    refine Option.ext fun r => ⟨he.kept type i r, fun hr => ?_⟩
    exact (he.lost type i r hr).resolve_right (by simp)

theorem Arrived.advanceRun (h : Arrived c₀ as D p) (now : Moment) (e : EntityEvent)
    (hn : (p.advanceRun now e).1 = 0) : Arrived c₀ as D (p.advanceRun now e).2.2 := by
  unfold Pipeline.advanceRun at hn ⊢
  split at hn
  case h_1 => exact h
  case h_2 m _ =>
    dsimp only at hn ⊢
    split
    case h_1 => exact ⟨h.cache, h.numbered, h.offers⟩
    case h_2 cutoff hc =>
      split
      case h_2 => exact ⟨h.cache, h.numbered, h.offers⟩
      case h_1 n p' he =>
        simp only [hc, he] at hn
        obtain rfl := hn
        have ⟨hr, hk, hs, hb, hg⟩ :=
          evict_none (p := { p with sync := (p.sync.record e.type m e.timestamp).2 })
            h.cache.sound he
        exact ⟨h.cache.of_same hk hs hb hg, hr ▸ h.numbered, hr ▸ h.offers⟩

-- Whether a step sends a resource or is a pass of the worker.
def Step.Sends : Step → Prop
  | .entity _ e => e.arrival?.isSome
  | .pass _ => True
  | _ => False

-- Whether a step is no part of a FULL run.
def Step.Partial : Step → Prop
  | .entity _ e => ∀ m, e.sync = some m → m.kind ≠ .full
  | _ => True

-- Whether no event of a run evicts anything.
def Spares (p : Pipeline Outbound) : List Step → Prop
  | [] => True
  | .entity now e :: steps =>
    (∀ o, (p.processEntity now e).1 = .ok o → o.evicted = 0) ∧
      Spares (p.processEntity now e).2 steps
  | s :: steps => Spares (p.step s) steps

theorem advanceRun_of_not_full {now : Moment} {e : EntityEvent}
    (h : ∀ m, e.sync = some m → m.kind ≠ .full) : (p.advanceRun now e).1 = 0 := by
  unfold Pipeline.advanceRun
  split
  case h_1 => rfl
  case h_2 m hm => simp only [Sync.Tracker.evictBefore?_record (h m hm)]

theorem evicted_eq {now : Moment} {e : EntityEvent} {o : EntityOutcome}
    (h : (p.processEntity now e).1 = .ok o) : ∃ q : Pipeline Outbound,
      o.evicted = (q.advanceRun now e).1 := by
  unfold processEntity at h
  split at h
  case isFalse => simp at h
  case isTrue =>
    split at h
    case h_2 => simp at h
    case h_1 us c _ =>
      simp only [Except.ok.injEq] at h
      exact ⟨(p.withCache c).dispatchAll now us, h ▸ rfl⟩

theorem spares_of_partial {steps : List Step} (h : ∀ s ∈ steps, s.Partial) : p.Spares steps := by
  induction steps generalizing p
  case nil => trivial
  case cons s steps hi =>
    rw [List.forall_mem_cons] at h
    cases s
    case entity now e =>
      refine ⟨fun o ho => ?_, hi h.2⟩
      have ⟨q, hq⟩ := evicted_eq ho
      rw [hq, advanceRun_of_not_full h.1]
    all_goals exact hi h.2

theorem Arrived.entity {e : EntityEvent} {now : Moment} (h : Arrived c₀ as (c₀.Due as) p)
    (hr : c₀.rules.Closed) (hm : c₀.Unmixed) (ha : e.arrival? = some a)
    (hp : (a :: as).Pairwise (Arrival.Apart c₀))
    (hs : ∀ o, (p.processEntity now e).1 = .ok o → o.evicted = 0) :
    Arrived c₀ (a :: as) (c₀.Due (a :: as)) (p.processEntity now e).2 := by
  have ⟨ht, hi, htime, _, hpay, hres⟩ := EntityEvent.arrival?_eq_some ha
  have ⟨ha', has⟩ := List.pairwise_cons.mp hp
  by_cases hc : c₀.contains a.type
  case neg =>
    have hn : ¬p.cache.contains e.type := ht ▸ h.cache.kin.contains ▸ hc
    unfold processEntity
    rw [if_neg hn]
    have hd (u : Update) (i : String) : c₀.Due as u i ↔ c₀.Due (a :: as) u i := by
      rw [Cache.due_cons, or_iff_left fun hu => hc hu.1]
    exact Arrived.congr ⟨h.cache.cons_of_not_contains hc, h.numbered, h.offers⟩ hd
  case pos =>
    have hn : p.cache.contains e.type := ht ▸ h.cache.kin.contains ▸ hc
    have ⟨us, c, hw, hrec⟩ := write_arrival ha hn
    have hw' := Cache.writes_reconcile h.cache.sound hrec
    unfold processEntity at hs ⊢
    rw [if_pos hn, hw] at hs ⊢
    have hcache := h.cache.writes
      (fun u i ⟨b, _, _, hu, hi, _⟩ => Cache.addressed_of_updates hr hu hi) ha' hw'
    have hus := hw'.updates_eq h.cache.kin hm (h.cache.absent _ _ fun b hb ht' =>
      ((ha' b hb).id ht'.symm).symm)
    have hadd : ∀ u ∈ us, u.operation = .add := by
      intro u hu
      obtain ⟨rule, _, _, hok, hu⟩ := mem_contributions.mp (hus ▸ hu)
      obtain ⟨_, _, _, _, rfl⟩ := Rule.mem_added hok hu
      rfl
    have hwritten : Arrived c₀ (a :: as) (c₀.Due as) (p.withCache c) :=
      ⟨hcache, h.numbered, h.offers⟩
    refine ((hwritten.dispatchAll hp now hadd).advanceRun now e (hs _ rfl)).congr fun u i => ?_
    rw [Cache.due_cons, hus]
    simp only [hc, true_and]

theorem Arrived.run {steps : List Step} (h : Arrived c₀ as (c₀.Due as) p)
    (hr : c₀.rules.Closed) (hm : c₀.Unmixed) (hsend : ∀ s ∈ steps, s.Sends)
    (hp : (arrivals steps ++ as).Pairwise (Arrival.Apart c₀)) (hs : p.Spares steps) :
    Arrived c₀ ((arrivals steps).reverse ++ as) (c₀.Due ((arrivals steps).reverse ++ as))
      (p.run steps) := by
  induction steps generalizing p as
  case nil => exact h
  case cons s steps hi =>
    rw [List.forall_mem_cons] at hsend
    obtain ⟨hsend, hsends⟩ := hsend
    cases s
    case entity now e =>
      have ⟨a, ha⟩ := Option.isSome_iff_exists.mp hsend
      have he : arrivals (.entity now e :: steps) = a :: arrivals steps := by simp [arrivals, ha]
      rw [he] at hp ⊢
      have hp : (arrivals steps ++ a :: as).Pairwise (Arrival.Apart c₀) :=
        (List.perm_middle.symm.pairwise_iff Arrival.Apart.symm).mp hp
      have hp' := hp.sublist (List.sublist_append_right ..)
      rw [List.reverse_cons, List.append_assoc, List.singleton_append]
      exact hi (h.entity hr hm ha hp' hs.1) hsends hp hs.2
    case pass now =>
      have hp' := hp.sublist (List.sublist_append_right ..)
      exact hi (h.pass hp' now) hsends hp hs
    all_goals exact hsend.elim

omit [Publisher Outbound] in
theorem arrived_start {config : Config} {types : List (Descriptor × List String)}
    {rules : Registry} {outbound : Outbound} :
    Arrived (start config types rules outbound).cache []
      ((start config types rules outbound).cache.Due []) (start config types rules outbound) where
  cache.kin := .refl _
  cache.sound := sound_start
  cache.absent type id _ := get?_start type id
  cache.present := by simp
  cache.waits ad key := by simp [not_awaits_start, Cache.Due]
  numbered := numbered_start
  offers n u h := absurd h (not_offers_start n u)

end Pipeline

-- Whether two resources have the same attributes, and links to the same targets.
structure Resource.Same (r r' : Resource) : Prop where
  attributes : r.attributes = r'.attributes
  links : ∀ relation key, r.Reaches relation key ↔ r'.Reaches relation key

structure Cache.Agrees (c c' : Cache) : Prop where
  stored : ∀ type id, Option.Rel Resource.Same (c.get? type id) (c'.get? type id)
  waiting : ∀ a key, c.buffer.Awaits a key ↔ c'.buffer.Awaits a key

namespace Cache

variable {c₀ c c' : Cache} {as as' : List Arrival}

theorem due_congr (c₀ : Cache) (h : ∀ a, a ∈ as ↔ a ∈ as') (u : Update) (i : String) :
    c₀.Due as u i ↔ c₀.Due as' u i := by
  simp only [Due, h]

theorem Arrived.agrees (h : c₀.Arrived as (c₀.Due as) c) (h' : c₀.Arrived as' (c₀.Due as') c')
    (hm : ∀ a, a ∈ as ↔ a ∈ as') : c.Agrees c' := by
  have hd := due_congr c₀ hm
  constructor
  case waiting =>
    intro ad key
    rw [h.waits, h'.waits]
    simp only [h.answers_iff, h'.answers_iff, hd, hm]
  case stored =>
    intro type id
    by_cases ha : c₀.contains type ∧ ∃ a ∈ as, a.type = type ∧ a.id = id
    case pos =>
      obtain ⟨hc, a, ha, rfl, rfl⟩ := ha
      have ⟨r, hg, hr, hl⟩ := h.present a ha hc
      have ⟨r', hg', hr', hl'⟩ := h'.present a ((hm a).mp ha) hc
      rw [hg, hg']
      refine .some ⟨hr.trans hr'.symm, fun relation key => ?_⟩
      rw [hl, hl']
      simp only [hd]
    case neg =>
      rw [h.get?_eq_none ha, h'.get?_eq_none (by simpa only [hm] using ha)]
      exact .none

end Cache

namespace Pipeline

-- Resources that are sent in any two orders, with passes of the worker at any time, end up with the
-- same links, if no event evicts any of them.
theorem agrees_of_perm {Outbound : Type} [Publisher Outbound] (config : Config)
    (types : List (Descriptor × List String)) (given : List (Descriptor × List Rule))
    (outbound : Outbound) (steps steps' : List Step)
    (hrules : (start config types (.ofRules given) outbound).cache.Unmixed)
    (hsend : ∀ s ∈ steps, s.Sends) (hsend' : ∀ s ∈ steps', s.Sends)
    (hperm : (arrivals steps).Perm (arrivals steps'))
    (hapart : (arrivals steps).Pairwise
      (Arrival.Apart (start config types (.ofRules given) outbound).cache))
    (hspare : (start config types (.ofRules given) outbound).Spares steps)
    (hspare' : (start config types (.ofRules given) outbound).Spares steps') :
    ((start config types (.ofRules given) outbound).run steps).cache.Agrees
      ((start config types (.ofRules given) outbound).run steps').cache := by
  have hclosed : (start config types (.ofRules given) outbound).cache.rules.Closed :=
    Registry.closed_ofRules given
  have hapart' := (hperm.pairwise_iff Arrival.Apart.symm).mp hapart
  have h := arrived_start.run hclosed hrules hsend (by simpa using hapart) hspare
  have h' := arrived_start.run hclosed hrules hsend' (by simpa using hapart') hspare'
  exact h.cache.agrees h'.cache fun a => by simp [hperm.mem_iff]

-- A student may be sent before the group.
theorem agrees_student_before_group :
    ((start {} Roster.types (.ofRules (Roster.rules .zeroOrMany)) ()).run [
      .entity ⟨1, 1⟩ (Roster.sent Roster.group "b" [] 1),
      .entity ⟨2, 2⟩ (Roster.sent Roster.student "1" ["a", "b"] 2)]).cache.Agrees
    ((start {} Roster.types (.ofRules (Roster.rules .zeroOrMany)) ()).run [
      .entity ⟨1, 1⟩ (Roster.sent Roster.student "1" ["a", "b"] 2),
      .pass ⟨2, 5000⟩,
      .entity ⟨3, 5001⟩ (Roster.sent Roster.group "b" [] 1)]).cache := by
  let a (type : Descriptor) (value : String) (groups : List String) (t : Int) : Arrival :=
    ⟨type, value,
      ⟨[("group", groups.map (Roster.link Roster.group))], [("systemId", .string value)]⟩, t⟩
  have hg : (Roster.sent Roster.group "b" [] 1).arrival? = some (a Roster.group "b" [] 1) := rfl
  have hs : (Roster.sent Roster.student "1" ["a", "b"] 2).arrival? =
    some (a Roster.student "1" ["a", "b"] 2) := rfl
  apply agrees_of_perm
  case hrules =>
    intro type rule hr
    obtain ⟨rfl, rfl⟩ := Roster.mem_rulesOf.mp hr
    exact ⟨nofun, nofun⟩
  case hsend => simp [Step.Sends, hg, hs]
  case hsend' => simp [Step.Sends, hg, hs]
  case hperm =>
    simp only [arrivals, List.filterMap_cons, hg, hs, List.filterMap_nil]
    exact .swap _ _ _
  case hapart =>
    simp only [arrivals, List.filterMap_cons, hg, hs, List.filterMap_nil, List.pairwise_pair]
    exact ⟨fun ht => absurd ht (by decide), fun ht => absurd ht (by decide)⟩
  case hspare => exact spares_of_partial (by simp [Step.Partial, Roster.sent])
  case hspare' => exact spares_of_partial (by simp [Step.Partial, Roster.sent])

-- A FULL run of one resource that ends in an eviction: what was sent before goes, what is sent
-- after stays.
theorem not_agrees_of_evicting :
    ¬∀ (config : Config) (types : List (Descriptor × List String))
      (given : List (Descriptor × List Rule)) (steps steps' : List Step),
      (start config types (.ofRules given) ()).cache.Unmixed →
      (∀ s ∈ steps, s.Sends) → (∀ s ∈ steps', s.Sends) →
      (arrivals steps).Perm (arrivals steps') →
      (arrivals steps).Pairwise (Arrival.Apart (start config types (.ofRules given) ()).cache) →
      ((start config types (.ofRules given) ()).run steps).cache.Agrees
        ((start config types (.ofRules given) ()).run steps').cache := by
  intro h
  let x := Roster.sent Roster.group "x" [] 1
  let y := { Roster.sent Roster.group "y" [] 2 with sync := some ⟨.full, "run", 1⟩ }
  let a (value : String) (t : Int) : Arrival :=
    ⟨Roster.group, value, ⟨[("group", [])], [("systemId", .string value)]⟩, t⟩
  have hx : x.arrival? = some (a "x" 1) := rfl
  have hy : y.arrival? = some (a "y" 2) := rfl
  have hsx : (Step.entity ⟨1, 1⟩ x).Sends := by simp [Step.Sends, hx]
  have hsy : (Step.entity ⟨2, 2⟩ y).Sends := by simp [Step.Sends, hy]
  have hxy : arrivals [.entity ⟨1, 1⟩ x, .entity ⟨2, 2⟩ y] = [a "x" 1, a "y" 2] := by
    simp [arrivals, hx, hy]
  have hyx : arrivals [.entity ⟨2, 2⟩ y, .entity ⟨1, 1⟩ x] = [a "y" 2, a "x" 1] := by
    simp [arrivals, hx, hy]
  have hagree := h {} Roster.types [] [.entity ⟨1, 1⟩ x, .entity ⟨2, 2⟩ y]
    [.entity ⟨2, 2⟩ y, .entity ⟨1, 1⟩ x] ?_ ?_ ?_ ?_ ?_
  · have hs := hagree.stored Roster.group "x"
    have hn : (((start {} Roster.types (.ofRules []) ()).run
        [.entity ⟨1, 1⟩ x, .entity ⟨2, 2⟩ y]).cache.get? Roster.group "x").isNone := by
      decide +kernel
    have ⟨r, hr⟩ : ∃ r, ((start {} Roster.types (.ofRules []) ()).run
        [.entity ⟨2, 2⟩ y, .entity ⟨1, 1⟩ x]).cache.get? Roster.group "x" = some r :=
      Option.isSome_iff_exists.mp (by decide +kernel)
    rw [Option.isNone_iff_eq_none.mp hn, hr] at hs
    cases hs
  · intro type rule hr
    exact absurd (show rule ∈ [] from hr) (by simp)
  · simp [hsx, hsy]
  · simp [hsx, hsy]
  · rw [hxy, hyx]
    exact .swap _ _ _
  · rw [hxy, List.pairwise_pair]
    exact ⟨fun _ => by decide, fun _ => by decide +kernel⟩

end Pipeline
end LinkedCache
