import LinkedCache.Schema
import LinkedCache.Proofs.Derivation
import LinkedCache.Proofs.Descriptor

-- The registry as an index of the rules that were given. What it answers for a type depends on what
-- was given for this type, and its list of all rules is sorted, so that neither the order of types
-- in its tables nor that in which the types were given makes a difference.

namespace LinkedCache

section Lists

variable {α : Type} [DecidableEq α] {a : α} {as bs : List α} {le : α → α → Bool}

theorem eraseDups_concat : (as ++ [a]).eraseDups =
    if a ∈ as then as.eraseDups else as.eraseDups ++ [a] := by
  rw [List.eraseDups_append]
  by_cases h : a ∈ as <;> simp [List.removeAll, List.eraseDups_cons, h]

theorem nodup_eraseDups (as : List α) : as.eraseDups.Nodup := by
  induction as using List.reverseRecOn
  case nil => exact List.nodup_nil
  case append_singleton as a hi =>
    rw [eraseDups_concat]
    split
    case isTrue => exact hi
    case isFalse h =>
      rw [← List.concat_eq_append]
      exact hi.concat (mt List.mem_eraseDups.mp h)

omit [DecidableEq α]

-- Whether an order does not tell two items apart.
def tied (le : α → α → Bool) (a b : α) : Bool :=
  le a b && le b a

-- Sorting leaves ties in their order.
theorem filter_tied_mergeSort (htrans : ∀ a b c, le a b → le b c → le a c)
    (htotal : ∀ a b, le a b || le b a) (a : α) (as : List α) :
    (as.mergeSort le).filter (tied le a) = as.filter (tied le a) := by
  have hp : (as.filter (tied le a)).Pairwise (le · ·) := by
    refine List.pairwise_of_forall_mem_list fun b hb c hc => ?_
    simp only [tied, List.mem_filter, Bool.and_eq_true] at hb hc
    exact htrans b a c hb.2.2 hc.2.1
  have hs := (List.sublist_mergeSort htrans htotal hp List.filter_sublist).filter (tied le a)
  simp only [List.filter_filter, Bool.and_self] at hs
  exact (hs.eq_of_length ((List.mergeSort_perm as le).filter _).length_eq.symm).symm

theorem le_of_mem_cons {b : α} (hrefl : ∀ a, le a a) (h : (a :: as).Pairwise (le · ·))
    (hb : b ∈ a :: as) : le a b := by
  obtain rfl | hb := List.mem_cons.mp hb
  · exact hrefl b
  · exact (List.pairwise_cons.mp h).1 b hb

theorem mem_of_filter_tied {b : α} (hrefl : ∀ a, le a a)
    (h : ∀ a, as.filter (tied le a) = bs.filter (tied le a)) (hb : b ∈ as) : b ∈ bs := by
  have hf : b ∈ as.filter (tied le b) := List.mem_filter.mpr ⟨hb, by simp [tied, hrefl]⟩
  exact (List.mem_filter.mp (h b ▸ hf)).1

-- A list is determined by its order and by the sequences of items that are tied. The one that comes
-- first is tied with the first one of any other such list, and so it is the same.
theorem eq_of_filter_tied (hrefl : ∀ a, le a a) (has : as.Pairwise (le · ·))
    (hbs : bs.Pairwise (le · ·))
    (h : ∀ a, as.filter (tied le a) = bs.filter (tied le a)) : as = bs := by
  induction as generalizing bs
  case nil =>
    have hn : ∀ b, b ∉ bs := fun b hb => nomatch mem_of_filter_tied hrefl (h · |>.symm) hb
    exact (List.eq_nil_iff_forall_not_mem.mpr hn).symm
  case cons a as hi =>
    cases bs
    case nil => exact nomatch mem_of_filter_tied hrefl h (.head as)
    case cons b bs =>
      have hab : le a b :=
        le_of_mem_cons hrefl has (mem_of_filter_tied hrefl (h · |>.symm) (.head bs))
      have hba : le b a := le_of_mem_cons hrefl hbs (mem_of_filter_tied hrefl h (.head as))
      have hfirst := h a
      simp only [List.filter_cons, tied, hrefl, hab, hba, Bool.and_self, if_true,
        List.cons.injEq] at hfirst
      obtain rfl := hfirst.1
      refine congrArg _ (hi has.of_cons hbs.of_cons fun c => ?_)
      have hrest := h c
      rw [List.filter_cons, List.filter_cons] at hrest
      split at hrest
      case isTrue => exact List.tail_eq_of_cons_eq hrest
      case isFalse => exact hrest

end Lists

namespace Registry

variable {α : Type} {type target : Descriptor} {a : α} {table table' : List (Descriptor × List α)}
  {g g' : Registry} {given given' : List (Descriptor × List Rule)} {rule : Rule}
  {relation : String}

-- The entries of a table, each with its type.
def pairs (table : List (Descriptor × List α)) : List (Descriptor × α) :=
  table.flatMap fun m => m.2.map (m.1, ·)

theorem mem_pairs : (type, a) ∈ pairs table ↔ ∃ m ∈ table, m.1 = type ∧ a ∈ m.2 := by
  simp only [pairs, List.mem_flatMap, List.mem_map, Prod.mk.injEq]
  refine exists_congr fun m => and_congr_right fun _ => ?_
  exact ⟨fun ⟨_, ha, ht, he⟩ => ⟨ht, he ▸ ha⟩, fun ⟨ht, ha⟩ => ⟨a, ha, ht, rfl⟩⟩

theorem filter_pairs (type : Descriptor) (table : List (Descriptor × List α)) :
    (pairs table).filter (·.1 = type) =
      ((table.filter (·.1 = type)).flatMap (·.2)).map (type, ·) := by
  induction table
  case nil => rfl
  case cons m rest hi =>
    have hp : pairs (m :: rest) = m.2.map (m.1, ·) ++ pairs rest := List.flatMap_cons
    rw [hp, List.filter_append, List.filter_map, hi]
    by_cases hm : m.1 = type
    case pos => simp [hm, Function.comp_def]
    case neg => simp [hm, Function.comp_def]

-- A type that is there once has its entries in one place.
theorem flatMap_filter_key (h : (table.map (·.1)).Nodup) :
    (table.filter (·.1 = type)).flatMap (·.2) = listed type table := by
  induction table
  case nil => rfl
  case cons m rest hi =>
    have ⟨hm, hr⟩ := List.nodup_cons.mp h
    rw [listed, Assoc.lookup_cons_eq, List.filter_cons]
    by_cases ht : m.1 = type
    case neg =>
      simp only [ht, Ne.symm ht, decide_false, Bool.false_eq_true, if_false]
      exact hi hr
    case pos =>
      have hn : rest.filter (·.1 = type) = [] := by
        simp only [List.filter_eq_nil_iff, decide_eq_true_eq]
        exact fun m' hm' he => hm (List.mem_map.mpr ⟨m', hm', he.trans ht.symm⟩)
      simp [ht, hn]

theorem listed_perm (h : (table.map (·.1)).Nodup) (hp : table.Perm table') (type : Descriptor) :
    listed type table = listed type table' := by
  rw [listed, listed, Assoc.lookup_perm h hp]

theorem listed_forall₂ {R : List α → List α → Prop} (hnil : R [] [])
    (h : List.Forall₂ (fun m m' => m.1 = m'.1 ∧ R m.2 m'.2) table table') (type : Descriptor) :
    R (listed type table) (listed type table') := by
  unfold listed
  induction h
  case nil => exact hnil
  case cons m m' _ _ hm _ hi =>
    rw [Assoc.lookup_cons_eq, Assoc.lookup_cons_eq, ← hm.1]
    split
    case isTrue => exact hm.2
    case isFalse => exact hi

theorem nodup_pairs (h : (table.map (·.1)).Nodup) (hl : ∀ m ∈ table, m.2.Nodup) :
    (pairs table).Nodup := by
  refine List.nodup_flatMap.mpr ⟨fun m hm => (hl m hm).map fun _ _ he => (Prod.mk.inj he).2, ?_⟩
  refine (List.pairwise_map.mp h).imp fun {m m'} hne p hp hp' => ?_
  obtain ⟨_, _, rfl⟩ := List.mem_map.mp hp
  obtain ⟨_, _, he⟩ := List.mem_map.mp hp'
  exact hne (congrArg Prod.fst he).symm

section Entering

variable [DecidableEq α]

-- The table of items that are entered one by one.
def entered (items : List (Descriptor × α)) : List (Descriptor × List α) :=
  items.foldl (fun table m => enter m.1 m.2 table) []

theorem entered_concat (items : List (Descriptor × α)) (m : Descriptor × α) :
    entered (items ++ [m]) = enter m.1 m.2 (entered items) := by
  simp [entered]

theorem keys_enter : (enter type a table).map (·.1) =
    if type ∈ table.map (·.1) then table.map (·.1) else table.map (·.1) ++ [type] := by
  induction table
  case nil => rfl
  case cons m rest hi =>
    unfold enter
    by_cases hm : m.1 = type
    case pos => simp [hm]
    case neg =>
      rw [if_neg hm, List.map_cons, hi]
      by_cases hr : type ∈ rest.map (·.1) <;> simp [hr, Ne.symm hm]

-- The types are in the order in which each of them came first, and so are the items of a type.
theorem keys_entered (items : List (Descriptor × α)) :
    (entered items).map (·.1) = (items.map (·.1)).eraseDups := by
  induction items using List.reverseRecOn
  case nil => rfl
  case append_singleton items m hi =>
    rw [entered_concat, keys_enter, hi, List.map_append, List.map_singleton, eraseDups_concat]
    simp only [List.mem_eraseDups]

theorem nodup_keys_entered (items : List (Descriptor × α)) :
    ((entered items).map (·.1)).Nodup :=
  keys_entered items ▸ nodup_eraseDups _

theorem listed_entered (type : Descriptor) (items : List (Descriptor × α)) :
    listed type (entered items) = ((items.filter (·.1 = type)).map (·.2)).eraseDups := by
  induction items using List.reverseRecOn
  case nil => rfl
  case append_singleton items m hi =>
    rw [entered_concat, listed_enter, List.filter_append]
    by_cases hm : m.1 = type
    case neg => simp [hm, Ne.symm hm, hi]
    case pos =>
      have hs : [m].filter (·.1 = type) = [m] := by simp [hm]
      rw [hs, List.map_append, List.map_singleton, eraseDups_concat, hm, if_pos rfl, hi]
      simp only [List.mem_eraseDups]

end Entering

theorem foldl_enterRule (items : List (Descriptor × Rule)) :
    items.foldl (fun g m => enterRule g m.1 m.2) {} =
      ⟨entered items, entered (items.map fun m => (m.2.target, m.2.inverse))⟩ := by
  induction items using List.reverseRecOn
  case nil => rfl
  case append_singleton items m hi =>
    rw [List.foldl_concat, hi, List.map_append, List.map_singleton, entered_concat, entered_concat]
    rfl

theorem ofRules_eq (given : List (Descriptor × List Rule)) : ofRules given =
    ⟨entered (pairs given), entered ((pairs given).map fun m => (m.2.target, m.2.inverse))⟩ := by
  rw [← foldl_enterRule]
  simp only [ofRules, pairs, List.foldl_flatMap, List.foldl_map]

-- What was given for a type, one list behind the other.
def givenFor (type : Descriptor) (given : List (Descriptor × List Rule)) : List Rule :=
  (given.filter (·.1 = type)).flatMap (·.2)

theorem mem_givenFor : rule ∈ givenFor type given ↔ ∃ m ∈ given, m.1 = type ∧ rule ∈ m.2 := by
  simp [givenFor, and_assoc]

-- A list that is empty adds nothing.
theorem givenFor_filter_isEmpty (type : Descriptor) (given : List (Descriptor × List Rule)) :
    givenFor type (given.filter (!·.2.isEmpty)) = givenFor type given := by
  unfold givenFor
  induction given
  case nil => rfl
  case cons m given hi =>
    obtain ⟨t, rules⟩ := m
    cases rules <;> by_cases ht : t = type <;> simpa [ht] using hi

theorem nodup_types (given : List (Descriptor × List Rule)) :
    ((ofRules given).triggered.map (·.1)).Nodup := by
  rw [ofRules_eq]
  exact nodup_keys_entered _

theorem nodup_targets (given : List (Descriptor × List Rule)) :
    ((ofRules given).inverse.map (·.1)).Nodup := by
  rw [ofRules_eq]
  exact nodup_keys_entered _

theorem rulesOf_ofRules (type : Descriptor) (given : List (Descriptor × List Rule)) :
    (ofRules given).rulesOf type = (givenFor type given).eraseDups := by
  rw [ofRules_eq, rulesOf, listed_entered, filter_pairs, List.map_map]
  simp [givenFor, Function.comp_def]

theorem mem_inverseRelationsOf : relation ∈ (ofRules given).inverseRelationsOf target ↔
    ∃ type, ∃ rule ∈ givenFor type given, rule.target = target ∧ rule.inverse = relation := by
  rw [ofRules_eq, inverseRelationsOf, listed_entered, List.mem_eraseDups]
  simp only [List.mem_map, List.mem_filter, decide_eq_true_eq, mem_givenFor]
  constructor
  case mp =>
    rintro ⟨_, ⟨⟨m, hm, rfl⟩, ht⟩, hr⟩
    exact ⟨m.1, m.2, mem_pairs.mp hm, ht, hr⟩
  case mpr =>
    rintro ⟨type, rule, hm, ht, hr⟩
    exact ⟨_, ⟨⟨(type, rule), mem_pairs.mpr hm, rfl⟩, ht⟩, hr⟩

theorem nodup_inverseRelationsOf (target : Descriptor) (given : List (Descriptor × List Rule)) :
    ((ofRules given).inverseRelationsOf target).Nodup := by
  rw [ofRules_eq, inverseRelationsOf, listed_entered]
  exact nodup_eraseDups _

section Listing

variable {m m' : Descriptor × Rule}

-- The order of the list of all rules: the parts of the type one by one, then the relation.
def order : Descriptor × Rule → Descriptor × Rule → Ordering :=
  compareLex (compareOn (·.1.domain)) (compareLex (compareOn (·.1.package))
    (compareLex (compareOn (·.1.name)) (compareOn (·.2.relation))))

instance : Std.TransCmp order :=
  inferInstanceAs (Std.TransCmp (compareLex _ _))

theorem order_eq (m m' : Descriptor × Rule) :
    order m m' = (m.1.compare m'.1).then (compare m.2.relation m'.2.relation) := by
  simp [order, compareLex, compareOn, Descriptor.compare, Ordering.then_assoc]

theorem order_eq_eq_iff : order m m' = .eq ↔ m.1 = m'.1 ∧ m.2.relation = m'.2.relation := by
  rw [order_eq, Ordering.then_eq_eq, Descriptor.compare_eq_iff, Std.compare_eq_iff_eq]

theorem ruleLE_eq (m m' : Descriptor × Rule) : ruleLE m m' = (order m m').isLE := by
  rw [order_eq, ruleLE]

theorem ruleLE_trans (m₁ m₂ m₃ : Descriptor × Rule) :
    ruleLE m₁ m₂ → ruleLE m₂ m₃ → ruleLE m₁ m₃ := by
  simp only [ruleLE_eq]
  exact Std.TransCmp.isLE_trans

theorem ruleLE_total (m m' : Descriptor × Rule) : ruleLE m m' || ruleLE m' m := by
  rw [ruleLE_eq, ruleLE_eq]
  exact isLE_total m m'

theorem ruleLE_iff : ruleLE m m' ↔
    m.1.compare m'.1 = .lt ∨ (m.1 = m'.1 ∧ m.2.relation ≤ m'.2.relation) := by
  rw [ruleLE, Ordering.isLE_then_iff_or, Descriptor.compare_eq_iff, Text.isLE_compare_iff]

-- Rules are tied if they belong to one type and are for one relation.
theorem tied_ruleLE (m : Descriptor × Rule) :
    tied ruleLE m = fun m' => decide (m'.1 = m.1 ∧ m'.2.relation = m.2.relation) := by
  funext m'
  have hswap : order m' m = (order m m').swap := Std.OrientedCmp.eq_swap
  rw [Bool.eq_iff_iff, decide_eq_true_eq, ← order_eq_eq_iff, tied, Bool.and_eq_true, ruleLE_eq,
    ruleLE_eq, hswap]
  cases order m m' <;> decide

theorem allRules_perm (g : Registry) : g.allRules.Perm (pairs g.triggered) :=
  List.mergeSort_perm ..

theorem pairwise_allRules (g : Registry) : g.allRules.Pairwise (ruleLE · ·) :=
  List.pairwise_mergeSort ruleLE_trans ruleLE_total _

theorem mem_allRules (h : (g.triggered.map (·.1)).Nodup) :
    (type, rule) ∈ g.allRules ↔ rule ∈ g.rulesOf type := by
  rw [g.allRules_perm.mem_iff, rulesOf, ← flatMap_filter_key h]
  simp [mem_pairs, and_assoc]

theorem nodup_allRules (h : (g.triggered.map (·.1)).Nodup) (hr : ∀ type, (g.rulesOf type).Nodup) :
    g.allRules.Nodup := by
  refine g.allRules_perm.nodup_iff.mpr (nodup_pairs h fun m hm => ?_)
  have hl : g.rulesOf m.1 = m.2 := by
    rw [rulesOf, listed, Assoc.lookup_of_mem h hm, Option.getD_some]
  exact hl ▸ hr m.1

-- Any rule for the relation will do to pick its ties.
theorem filter_allRules (h : (g.triggered.map (·.1)).Nodup) (type : Descriptor)
    (relation : String) :
    g.allRules.filter (fun m => m.1 = type ∧ m.2.relation = relation) =
      ((g.rulesOf type).filter (·.relation = relation)).map (type, ·) := by
  have ht := tied_ruleLE (type, { (default : Rule) with relation })
  calc g.allRules.filter (fun m => m.1 = type ∧ m.2.relation = relation)
    _ = (pairs g.triggered).filter (fun m => m.1 = type ∧ m.2.relation = relation) := by
      rw [← ht]
      exact filter_tied_mergeSort ruleLE_trans ruleLE_total ..
    _ = ((pairs g.triggered).filter (·.1 = type)).filter (·.2.relation = relation) := by
      simp only [List.filter_filter, Bool.decide_and, Bool.and_comm]
    _ = ((listed type g.triggered).map (type, ·)).filter (·.2.relation = relation) := by
      rw [filter_pairs, flatMap_filter_key h]
    _ = ((g.rulesOf type).filter (·.relation = relation)).map (type, ·) := by
      rw [List.filter_map]
      rfl

theorem ruleCount_eq (g : Registry) : g.ruleCount = g.allRules.length := by
  rw [g.allRules_perm.length_eq]
  simp [ruleCount, pairs, List.length_flatMap]

end Listing

-- What a registry answers, as a function of what was given: for each type the rules given for it,
-- each where it came first; for each target the inverse relations of the rules for it; and in the
-- list of all rules the rules of all types in order, those of a type for one relation as they came.
structure Indexes (g : Registry) (given : List (Descriptor × List Rule)) : Prop where
  rules : ∀ type, g.rulesOf type = (givenFor type given).eraseDups
  inverse : ∀ target relation, relation ∈ g.inverseRelationsOf target ↔
    ∃ type, ∃ rule ∈ givenFor type given, rule.target = target ∧ rule.inverse = relation
  inverseOnce : ∀ target, (g.inverseRelationsOf target).Nodup
  all : ∀ type rule, (type, rule) ∈ g.allRules ↔ rule ∈ g.rulesOf type
  allOnce : g.allRules.Nodup
  ordered : g.allRules.Pairwise fun m m' =>
    m.1.compare m'.1 = .lt ∨ (m.1 = m'.1 ∧ m.2.relation ≤ m'.2.relation)
  ties : ∀ type relation, g.allRules.filter (fun m => m.1 = type ∧ m.2.relation = relation) =
    ((g.rulesOf type).filter (·.relation = relation)).map (type, ·)
  count : g.ruleCount = g.allRules.length

-- The same tables, gone through in another order: the types of both, and the relations of a target.
structure Reordered (g g' : Registry) : Prop where
  triggered : g.triggered.Perm g'.triggered
  inverse : ∃ table, g.inverse.Perm table ∧
    List.Forall₂ (fun m m' => m.1 = m'.1 ∧ m.2.Perm m'.2) table g'.inverse

theorem Reordered.refl (g : Registry) : g.Reordered g :=
  ⟨.rfl, g.inverse, .rfl, List.forall₂_same.mpr fun _ _ => ⟨rfl, .rfl⟩⟩

theorem Reordered.indexes (h : (ofRules given).Reordered g) : g.Indexes given := by
  have ⟨table, hp, hf⟩ := h.inverse
  have ht : (g.triggered.map (·.1)).Nodup :=
    (h.triggered.map (·.1)).nodup_iff.mp (nodup_types given)
  have hr (type : Descriptor) : g.rulesOf type = (givenFor type given).eraseDups := by
    rw [← rulesOf_ofRules, rulesOf, ← listed_perm (nodup_types given) h.triggered, rulesOf]
  have hi (target : Descriptor) :
      ((ofRules given).inverseRelationsOf target).Perm (g.inverseRelationsOf target) := by
    rw [inverseRelationsOf, listed_perm (nodup_targets given) hp]
    exact listed_forall₂ .nil hf target
  exact {
    rules := hr
    inverse := fun target _ => (hi target).mem_iff.symm.trans mem_inverseRelationsOf
    inverseOnce := fun target => (hi target).nodup_iff.mp (nodup_inverseRelationsOf target given)
    all := fun _ _ => mem_allRules ht
    allOnce := nodup_allRules ht fun type => hr type ▸ nodup_eraseDups _
    ordered := g.pairwise_allRules.imp ruleLE_iff.mp
    ties := filter_allRules ht
    count := g.ruleCount_eq }

-- Registries that give the same answers.
structure Alike (g g' : Registry) : Prop where
  rules : ∀ type, g.rulesOf type = g'.rulesOf type
  inverse : ∀ target relation,
    relation ∈ g.inverseRelationsOf target ↔ relation ∈ g'.inverseRelationsOf target
  all : g.allRules = g'.allRules
  count : g.ruleCount = g'.ruleCount

-- The list of all rules says no more than what the rules of each type are, and these do not depend
-- on how what is given for a type is mixed with what is given for others.
theorem Indexes.alike (h : g.Indexes given) (h' : g'.Indexes given')
    (hf : ∀ type, given.filter (·.1 = type) = given'.filter (·.1 = type)) : g.Alike g' := by
  have hg (type : Descriptor) : givenFor type given = givenFor type given' := by
    rw [givenFor, hf, givenFor]
  have hr (type : Descriptor) : g.rulesOf type = g'.rulesOf type := by
    rw [h.rules, h'.rules, hg]
  have ha : g.allRules = g'.allRules := by
    refine eq_of_filter_tied ?_ g.pairwise_allRules g'.pairwise_allRules fun m => ?_
    case refine_1 => exact fun m => ruleLE_iff.mpr (.inr ⟨rfl, String.le_refl _⟩)
    case refine_2 => rw [tied_ruleLE, h.ties, h'.ties, hr]
  refine ⟨hr, fun target relation => ?_, ha, by rw [h.count, h'.count, ha]⟩
  rw [h.inverse, h'.inverse]
  simp only [hg]

end Registry

section Schemas

variable {r : Relation} {rule : Rule}

-- What a relation says of its rule, and when it has one: it has an inverse, is not single-valued on
-- both sides, and belongs to the side that owns it if it is many-valued on both.
structure Relation.Yields (r : Relation) (rule : Rule) : Prop where
  relation : rule.relation = r.name
  target : rule.target = r.target
  multiplicity : rule.multiplicity = r.multiplicity
  isSource : rule.isSource = r.source
  inverse : r.inverse = some ⟨rule.inverse, rule.inverseMultiplicity⟩
  several : ¬(r.multiplicity.isSingle ∧ rule.inverseMultiplicity.isSingle)
  owned : r.multiplicity.isMany → rule.inverseMultiplicity.isMany → r.source

theorem Relation.isManaged_iff {i : Inverse} : r.isManaged i ↔
    ¬(r.multiplicity.isSingle ∧ i.multiplicity.isSingle) ∧
      (r.multiplicity.isMany → i.multiplicity.isMany → r.source) := by
  simp [isManaged, imp_iff_not_or, or_assoc]

theorem Relation.rule?_eq_some_iff : r.rule? = some rule ↔ r.Yields rule := by
  unfold rule?
  constructor
  case mp =>
    intro h
    split at h
    case h_1 => cases h
    case h_2 i hi =>
      split at h
      case isTrue hm =>
        cases h
        have ⟨hs, ho⟩ := isManaged_iff.mp hm
        exact ⟨rfl, rfl, rfl, rfl, hi, hs, ho⟩
      case isFalse => cases h
  case mpr =>
    intro h
    rw [h.inverse]
    dsimp only
    rw [if_pos (isManaged_iff.mpr ⟨h.several, h.owned⟩), ← h.relation, ← h.target,
      ← h.multiplicity, ← h.isSource]

-- The relations that the entries for a type declare.
def Schema.declared (s : Schema) (type : Descriptor) : List Relation :=
  (s.types.filter (·.type = type)).flatMap (·.relations)

theorem Schema.givenFor_rules (s : Schema) (type : Descriptor) :
    Registry.givenFor type s.rules = (s.declared type).filterMap Relation.rule? := by
  rw [rules, Registry.givenFor_filter_isEmpty, Registry.givenFor, List.filter_map,
    List.flatMap_map, declared, List.filterMap_flatMap]
  rfl

end Schemas

namespace Registry

-- A registry indexes what it was given, whatever the order of its tables and of the types that it
-- was given. For a schema this is what the relations of the type yield.
theorem indexes_given :
    (∀ given, (ofRules given).Indexes given) ∧
    (∀ given g, (ofRules given).Reordered g → g.Indexes given) ∧
    (∀ given given' g g', (ofRules given).Reordered g → (ofRules given').Reordered g' →
      (∀ type, given.filter (·.1 = type) = given'.filter (·.1 = type)) → g.Alike g') ∧
    ∀ (s : Schema) (type : Descriptor),
      (ofRules s.rules).rulesOf type = ((s.declared type).filterMap Relation.rule?).eraseDups ∧
      ∀ rule, rule ∈ (ofRules s.rules).rulesOf type ↔ ∃ r ∈ s.declared type, r.Yields rule := by
  refine ⟨fun given => (Reordered.refl _).indexes, fun given g h => h.indexes,
    fun given given' g g' h h' hf => h.indexes.alike h'.indexes hf, fun s type => ?_⟩
  rw [rulesOf_ofRules, s.givenFor_rules]
  simp only [List.mem_eraseDups, List.mem_filterMap, Relation.rule?_eq_some_iff, true_and,
    implies_true]

-- Two rules for one relation of groups, one of them given twice, with the rule of another type
-- given in between or in front.
theorem indexes_given_repeated :
    let student : Descriptor := ⟨"school", "roster", "student"⟩
    let group : Descriptor := ⟨"school", "roster", "group"⟩
    let room : Descriptor := ⟨"school", "roster", "room"⟩
    let seat : Rule := ⟨"room", "student", room, .zeroOrOne, .zeroOrMany, false⟩
    let member : Rule := ⟨"member", "group", student, .zeroOrMany, .zeroOrMany, true⟩
    let tutor : Rule := { member with inverse := "tutored" }
    let given := [(group, [member]), (student, [seat]), (group, [tutor, member])]
    let given' := [(student, [seat]), (group, [member]), (group, [tutor, member])]
    let g : Registry := {
      triggered := [(student, [seat]), (group, [member, tutor])]
      inverse := [(room, ["student"]), (student, ["tutored", "group"])] }
    let seated : Relation := ⟨"room", room, .zeroOrOne, some ⟨"student", .zeroOrMany⟩, false⟩
    let keyed : Relation := ⟨"key", room, .zeroOrOne, some ⟨"student", .one⟩, false⟩
    let s : Schema := ⟨[⟨student, [], [seated, keyed]⟩, ⟨student, [], [seated]⟩]⟩
    (ofRules given).Reordered g ∧ g.Indexes given ∧ g.Alike (ofRules given') ∧
      g.rulesOf group = [member, tutor] ∧ (ofRules s.rules).rulesOf student = [seat] := by
  intro student group room seat member tutor given given' g seated keyed s
  have ⟨_, hindexes, halike, hschema⟩ := indexes_given
  have hg : (ofRules given).Reordered g := by
    refine ⟨by decide +kernel, g.inverse.map fun m => (m.1, m.2.reverse), ?_, ?_⟩
    · decide +kernel
    · simp [g, List.Perm.swap]
  have hf (type : Descriptor) : given.filter (·.1 = type) = given'.filter (·.1 = type) := by
    have hne : group ≠ student := by decide
    by_cases hs : student = type
    case pos => simp [given, given', ← hs, hne]
    case neg => simp [given, given', List.filter_cons, hs]
  have hi := hindexes given g hg
  refine ⟨hg, hi, halike given given' g _ hg (.refl _) hf, ?_, ?_⟩
  · rw [hi.rules]
    decide +kernel
  · rw [(hschema s student).1]
    decide +kernel

end Registry
end LinkedCache
