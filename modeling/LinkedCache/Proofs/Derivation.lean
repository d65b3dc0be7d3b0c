import Mathlib.Data.List.Basic
import Mathlib.Data.List.Forall2
import LinkedCache.Registry
import LinkedCache.Proofs.Reconcile

-- Which updates the rules derive from a change of a resource.

namespace LinkedCache

namespace Registry

variable {α : Type} [DecidableEq α] {type other : Descriptor} {a b : α}
  {table : List (Descriptor × List α)}

theorem listed_enter : listed other (enter type a table) =
    if other = type then
      if a ∈ listed type table then listed type table else listed type table ++ [a]
    else listed other table := by
  unfold listed
  induction table
  case nil => by_cases h : other = type <;> simp [enter, Assoc.lookup_cons_eq, h]
  case cons m rest hi =>
    unfold enter
    by_cases hm : m.1 = type
    case pos =>
      rw [if_pos hm, Assoc.lookup_cons_eq, Assoc.lookup_cons_eq, Assoc.lookup_cons_eq, hm]
      by_cases ho : other = type <;> simp [ho]
    case neg =>
      rw [if_neg hm, Assoc.lookup_cons_eq, Assoc.lookup_cons_eq, Assoc.lookup_cons_eq]
      by_cases ho : other = m.1
      case pos => simp [ho, hm]
      case neg => simp [ho, Ne.symm hm, hi]

theorem mem_listed_enter :
    b ∈ listed other (enter type a table) ↔ b ∈ listed other table ∨ (other = type ∧ b = a) := by
  rw [listed_enter]
  by_cases ho : other = type
  case neg => simp [ho]
  case pos =>
    by_cases ha : a ∈ listed type table
    case neg => simp [ho, ha]
    case pos =>
      simp only [ho, ha, if_true, true_and, iff_self_or]
      exact fun he => he ▸ ha

variable {g : Registry} {rule : Rule}

-- The inverse relations of a type are those of the rules that have it as their target.
structure Closed (g : Registry) : Prop where
  inverse : ∀ type, ∀ rule ∈ g.rulesOf type, rule.inverse ∈ g.inverseRelationsOf rule.target
  origin : ∀ target, ∀ relation ∈ g.inverseRelationsOf target,
    ∃ type, ∃ rule ∈ g.rulesOf type, rule.target = target ∧ rule.inverse = relation

theorem Closed.enterRule (h : g.Closed) : (g.enterRule type rule).Closed where
  inverse other rule' hm := by
    obtain hm | ⟨_, rfl⟩ := mem_listed_enter.mp hm
    · exact mem_listed_enter.mpr (.inl (h.inverse other rule' hm))
    · exact mem_listed_enter.mpr (.inr ⟨rfl, rfl⟩)
  origin target relation hm := by
    obtain hm | ⟨rfl, rfl⟩ := mem_listed_enter.mp hm
    · have ⟨other, rule', hr, he⟩ := h.origin target relation hm
      exact ⟨other, rule', mem_listed_enter.mpr (.inl hr), he⟩
    · exact ⟨type, rule, mem_listed_enter.mpr (.inr ⟨rfl, rfl⟩), rfl, rfl⟩

theorem closed_ofRules (given : List (Descriptor × List Rule)) : (ofRules given).Closed := by
  unfold ofRules
  have h : ({} : Registry).Closed :=
    ⟨by simp [rulesOf, listed], by simp [inverseRelationsOf, listed]⟩
  generalize ({} : Registry) = g at h
  induction given generalizing g
  case nil => exact h
  case cons m given hi =>
    obtain ⟨type, rules⟩ := m
    refine hi (rules.foldl (·.enterRule type ·) g) ?_
    clear hi
    induction rules generalizing g
    case nil => exact h
    case cons rule rules hi => exact hi _ h.enterRule

end Registry

theorem mem_contributions {rules : List Rule} {derive : Rule → Except Error (List Update)}
    {u : Update} :
    u ∈ contributions rules derive ↔ ∃ rule ∈ rules, ∃ us, derive rule = .ok us ∧ u ∈ us := by
  simp only [contributions, List.mem_flatMap]
  refine exists_congr fun rule => and_congr_right fun _ => ?_
  cases derive rule <;> simp

theorem contributions_congr {rules : List Rule} {derive derive' : Rule → Except Error (List Update)}
    (h : ∀ rule ∈ rules, derive rule = derive' rule) :
    contributions rules derive = contributions rules derive' := by
  unfold contributions
  exact List.flatMap_congr fun rule hr => by rw [h rule hr]

namespace Rule

variable {rule : Rule} {source : Source} {r r' : Resource} {t : Int} {u : Update} {back : Link}
  {l : Link} {ls : List Link} {ids : List String} {us : List Update} {i : String}

theorem identity_eq_ok : l.identity = .ok i ↔ l.identity? = some i := by
  unfold Link.identity
  split <;> simp [*]

theorem bind_eq_ok_iff {α β : Type} {x : Except Error α} {f : α → Except Error β} {b : β} :
    (x >>= f) = .ok b ↔ ∃ a, x = .ok a ∧ f a = .ok b := by
  cases x <;> simp [bind, Except.bind]

theorem mapM_eq_ok {α β : Type} {f : α → Except Error β} {as : List α} {bs : List β} :
    as.mapM f = .ok bs ↔ as.map f = bs.map .ok := by
  induction as generalizing bs
  case nil => cases bs <;> simp [pure, Except.pure]
  case cons a as hi =>
    rw [List.mapM_cons, List.map_cons]
    cases f a
    case error e => cases bs <;> simp [bind, Except.bind]
    case ok b =>
      cases bs
      case nil => cases as.mapM f <;> simp [bind, Except.bind, pure, Except.pure]
      case cons b' bs =>
        rw [List.map_cons, List.cons.injEq, Except.ok.injEq, ← hi]
        cases as.mapM f <;> simp [bind, Except.bind, pure, Except.pure]

theorem mapM_eq_ok_iff {α β : Type} {f : α → Except Error β} {as : List α} {bs : List β} :
    as.mapM f = .ok bs ↔ List.Forall₂ (fun a b => f a = .ok b) as bs := by
  rw [mapM_eq_ok, ← List.forall₂_eq_eq_eq, List.forall₂_map_left_iff, List.forall₂_map_right_iff]

theorem mem_iff_of_mapM {α β : Type} {f : α → Except Error β} {as : List α} {bs : List β} {b : β}
    (h : as.map f = bs.map .ok) : b ∈ bs ↔ ∃ a ∈ as, f a = .ok b := by
  have hb : Except.ok b ∈ as.map f ↔ b ∈ bs := by simp [h]
  rw [← hb, List.mem_map]

theorem exists_of_mapM {α β : Type} {f : α → Except Error β} {as : List α} {bs : List β} {a : α}
    (h : as.map f = bs.map .ok) (ha : a ∈ as) : ∃ b ∈ bs, f a = .ok b := by
  have hm : f a ∈ bs.map .ok := h ▸ List.mem_map_of_mem ha
  have ⟨b, hb, he⟩ := List.mem_map.mp hm
  exact ⟨b, hb, he.symm⟩

-- The link back is put on the targets of the links that count, all at once.
def Announces (rule : Rule) (source : Source) (r : Resource) (t : Int) (us : List Update) :
    Prop :=
  if r.links rule.relation = [] then ¬rule.isMandatory ∧ us = []
  else ∃ ids back, r.backLink source.type source.fields = .ok back ∧
    List.Forall₂ (fun l i => l.identity = .ok i) (rule.counted (r.links rule.relation)) ids ∧
    us = [rule.update ids back .add t]

theorem added_eq_ok_iff : rule.added source r t = .ok us ↔ rule.Announces source r t us := by
  unfold added Announces
  split
  case h_1 hn =>
    rw [if_pos hn]
    by_cases hm : rule.isMandatory <;> simp [hm, eq_comm]
  case h_2 hn =>
    rw [if_neg hn]
    simp only [bind_eq_ok_iff, mapM_eq_ok_iff, pure, Except.pure, Except.ok.injEq]
    constructor
    · rintro ⟨ids, hi, back, hb, rfl⟩
      exact ⟨ids, back, hb, hi, rfl⟩
    · rintro ⟨ids, back, hb, hi, rfl⟩
      exact ⟨ids, hi, back, hb, rfl⟩

theorem mem_added (h : rule.added source r t = .ok us) (hu : u ∈ us) :
    ∃ ids back, (rule.counted (r.links rule.relation)).map Link.identity = ids.map .ok ∧
      r.backLink source.type source.fields = .ok back ∧ u = rule.update ids back .add t := by
  have h := added_eq_ok_iff.mp h
  unfold Announces at h
  split at h
  case isTrue => simp [h.2] at hu
  case isFalse =>
    obtain ⟨ids, back, hb, hi, rfl⟩ := h
    exact ⟨ids, back, mapM_eq_ok.mp (mapM_eq_ok_iff.mpr hi), hb, List.mem_singleton.mp hu⟩

theorem derived_none : rule.derived source none r t = rule.added source r t := by
  cases h : rule.added source r t <;> simp [derived, h, bind, Except.bind, pure, Except.pure]

theorem backLink_congr (hl : r.links Resource.selfRelation = r'.links Resource.selfRelation)
    (ha : r.attributes = r'.attributes) : r.backLink = r'.backLink := by
  funext type fields
  simp only [Resource.backLink, hl, Resource.identities_congr ha]

theorem added_congr (h : r.links rule.relation = r'.links rule.relation)
    (hb : r.backLink = r'.backLink) : rule.added source r t = rule.added source r' t := by
  simp only [added, h, hb]

section Identities

variable {old new : Resource}

theorem identity_of_isSome (h : l.identity?.isSome) : l.identity = .ok (Update.linkKey l) := by
  have ⟨i, hi⟩ := Option.isSome_iff_exists.mp h
  rw [identity_eq_ok, hi, Link.linkKey_eq_of_identity? hi]

theorem withdrawals_eq (hl : ∀ l ∈ ls, l.identity?.isSome) :
    rule.withdrawals back ls t =
      .ok (ls.map fun l => rule.update [Update.linkKey l] back .delete t) := by
  refine mapM_eq_ok.mpr ?_
  rw [List.map_map]
  refine List.map_congr_left fun l hm => ?_
  rw [identity_of_isSome (hl l hm)]
  rfl

theorem isSome_of_withdrawals (h : rule.withdrawals back ls t = .ok us) (hl : l ∈ ls) :
    l.identity?.isSome := by
  have ⟨_, _, hu⟩ := exists_of_mapM (mapM_eq_ok.mp h) hl
  cases hi : l.identity
  case error => simp [hi, bind, Except.bind] at hu
  case ok i => simp [identity_eq_ok.mp hi]

-- A malformed link keeps all links from being withdrawn.
theorem mem_withdrawals_iff : (∃ us, rule.withdrawals back ls t = .ok us ∧ u ∈ us) ↔
    (∀ l ∈ ls, l.identity?.isSome) ∧
      ∃ i, (∃ l ∈ ls, l.identity? = some i) ∧ u = rule.update [i] back .delete t := by
  constructor
  · rintro ⟨us, h, hu⟩
    have hl : ∀ l ∈ ls, l.identity?.isSome := fun l => isSome_of_withdrawals h
    rw [withdrawals_eq hl, Except.ok.injEq] at h
    have ⟨l, hm, he⟩ := List.mem_map.mp (h ▸ hu)
    exact ⟨hl, _, ⟨l, hm, identity_eq_ok.mp (identity_of_isSome (hl l hm))⟩, he.symm⟩
  · rintro ⟨hl, i, ⟨l, hm, hi⟩, rfl⟩
    refine ⟨_, withdrawals_eq hl, List.mem_map.mpr ⟨l, hm, ?_⟩⟩
    rw [Link.linkKey_eq_of_identity? hi]

theorem pruned_eq (hb : new.backLink source.type source.fields = .ok back)
    (hl : ∀ l ∈ rule.stale old new, l.identity?.isSome) :
    rule.pruned source old new t =
      .ok ((rule.stale old new).map fun l => rule.update [Update.linkKey l] back .delete t) := by
  unfold pruned
  split
  case h_1 hn => rw [hn, List.map_nil]
  case h_2 =>
    rw [hb]
    exact withdrawals_eq hl

-- The targets of the links that count are told at once.
theorem added_of_counted (hn : new.links rule.relation ≠ [])
    (hb : new.backLink source.type source.fields = .ok back)
    (hl : ∀ l ∈ rule.counted (new.links rule.relation), l.identity?.isSome) :
    rule.added source new t = .ok [rule.update
      ((rule.counted (new.links rule.relation)).map Update.linkKey) back .add t] := by
  rw [added_eq_ok_iff, Announces, if_neg hn]
  refine ⟨_, back, hb, ?_, rfl⟩
  rw [List.forall₂_map_right_iff, List.forall₂_same]
  exact fun l hm => identity_of_isSome (hl l hm)

-- A rule for a single link adds the back link to the target of the first one.
theorem added_eq (hm : rule.multiplicity = .zeroOrOne)
    (hb : new.backLink source.type source.fields = .ok back)
    (hl : ∀ l ∈ new.links rule.relation, l.identity?.isSome) :
    rule.added source new t = .ok (((new.links rule.relation).take 1).map fun l =>
      rule.update [Update.linkKey l] back .add t) := by
  have hc (ls : List Link) : rule.counted ls = ls.take 1 := by
    simp [counted, isManyToMany, hm, Multiplicity.isMany, Multiplicity.isSingle]
  cases hs : new.links rule.relation
  case nil => simp [added, hs, isMandatory, hm, Multiplicity.isRequired]
  case cons l ls =>
    have hl' : ∀ l ∈ rule.counted (new.links rule.relation), l.identity?.isSome :=
      fun l hm => hl l (List.mem_of_mem_take (hc _ ▸ hm))
    rw [added_of_counted (by simp [hs]) hb hl', hc, hs]
    rfl

theorem derived_of_not_prunes (hp : ¬rule.prunes) :
    rule.derived source (some old) new t = rule.added source new t := by
  cases ha : rule.added source new t <;>
    simp [derived, hp, ha, bind, Except.bind, pure, Except.pure]

theorem derived_eq_ok_iff (hp : rule.prunes) : rule.derived source (some old) new t = .ok us ↔
    ∃ ds as, rule.pruned source old new t = .ok ds ∧ rule.added source new t = .ok as ∧
      us = ds ++ as := by
  cases hds : rule.pruned source old new t <;> cases has : rule.added source new t <;>
    simp [derived, hp, hds, has, bind, Except.bind, pure, Except.pure, eq_comm]

-- The links that a write drops, if there was anything to be written over.
def dropped (rule : Rule) (old : Option Resource) (new : Resource) : List Link :=
  match old with
  | some o => rule.stale o new
  | none => []

theorem mem_dropped {old : Option Resource} :
    l ∈ rule.dropped old new ↔ ∃ o, old = some o ∧ l ∈ o.links rule.relation ∧
      ¬new.Reaches rule.relation (Update.linkKey l) := by
  cases old
  case none => simp [dropped]
  case some o => simp [dropped, stale, ← Resource.holds_iff]

theorem derived_eq {old : Option Resource} (source : Source) (t : Int)
    (hm : rule.multiplicity = .zeroOrOne)
    (hb : new.backLink source.type source.fields = .ok back)
    (ho : ∀ o, old = some o → ∀ l ∈ o.links rule.relation, l.identity?.isSome)
    (hl : ∀ l ∈ new.links rule.relation, l.identity?.isSome) :
    rule.derived source old new t = .ok
      (((rule.dropped old new).map fun l => rule.update [Update.linkKey l] back .delete t) ++
      ((new.links rule.relation).take 1).map fun l =>
        rule.update [Update.linkKey l] back .add t) := by
  have hp : rule.prunes := by simp [prunes, hm, Multiplicity.isSingle]
  unfold derived
  cases old
  case none => simp [dropped, added_eq hm hb hl, bind, Except.bind, pure, Except.pure]
  case some o =>
    have hs : ∀ l ∈ rule.stale o new, l.identity?.isSome :=
      fun l hm => ho o rfl l (List.mem_filter.mp hm).1
    simp [dropped, hp, pruned_eq hb hs, added_eq hm hb hl, bind, Except.bind, pure,
      Except.pure]

theorem withdrawn_eq (hb : r.backLink source.type source.fields = .ok back)
    (hl : ∀ l ∈ r.links rule.relation, l.identity?.isSome) :
    rule.withdrawn source r t = .ok ((r.links rule.relation).map fun l =>
      rule.update [Update.linkKey l] back .delete t) := by
  unfold withdrawn
  split
  case h_1 hn => rw [hn, List.map_nil]
  case h_2 =>
    rw [hb]
    exact withdrawals_eq hl

end Identities

end Rule
end LinkedCache
