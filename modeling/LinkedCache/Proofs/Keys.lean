import LinkedCache.Proofs.Descriptor
import LinkedCache.Proofs.Supersession

-- What the keys of updates tell apart. Updates about the same links of the same targets have one
-- key. The converse needs that no target, relation or link is spelled with one of the separators,
-- as these are not escaped.

namespace LinkedCache

open Text (lower sameFolded)

namespace Update

variable {u v : Update}

-- Whether two updates are about the same links of the same targets.
structure Same (u v : Update) : Prop where
  target : u.target = v.target
  targetIds : ∀ i, u.targetIds.countP (sameFolded i) = v.targetIds.countP (sameFolded i)
  relation : sameFolded u.binding.relation v.binding.relation
  links : ∀ l : Link,
    u.binding.links.countP l.sameTarget = v.binding.links.countP l.sameTarget

theorem same_iff : u.Same v ↔ u.target = v.target ∧
    (u.targetIds.map lower).Perm (v.targetIds.map lower) ∧
    lower u.binding.relation = lower v.binding.relation ∧ u.keys.Perm v.keys := by
  have hsame : Link.sameTarget = fun l l' => linkKey l == linkKey l' := by
    funext l l'
    rw [Bool.eq_iff_iff, Link.sameTarget_iff, beq_iff_eq]
  have hlinks (l : Link) : l.sameTarget = (linkKey l == linkKey ·) := congrFun hsame l
  unfold keys
  rw [Text.map_perm_iff, Text.map_perm_iff, ← Text.sameFolded_iff]
  simp only [← hlinks]
  exact ⟨fun ⟨ht, hi, hr, hl⟩ => ⟨ht, hi, hr, hl⟩, fun ⟨ht, hi, hr, hl⟩ => ⟨ht, hi, hr, hl⟩⟩

instance : Decidable (u.Same v) :=
  decidable_of_iff _ same_iff.symm

theorem supersedeKey_eq (u : Update) : u.supersedeKey = String.intercalate "|" [u.target.text,
    String.intercalate "," (Text.sorted (u.targetIds.map lower)), lower u.binding.relation,
    String.intercalate "," (Text.sorted u.keys)] :=
  rfl

theorem Same.supersedeKey_eq (h : u.Same v) : u.supersedeKey = v.supersedeKey := by
  have ⟨ht, hi, hr, hl⟩ := same_iff.mp h
  rw [u.supersedeKey_eq, v.supersedeKey_eq, ht, hr, Text.sorted_eq_iff.mpr hi,
    Text.sorted_eq_iff.mpr hl]

-- An update without separators where they would be taken for the key's own.
structure Plain (u : Update) : Prop where
  target : '|' ∉ u.target.text.toList
  targetIds : ∀ i ∈ u.targetIds, ',' ∉ i.toList ∧ '|' ∉ i.toList
  relation : '|' ∉ u.binding.relation.toList
  links : ∀ l ∈ u.binding.links, ',' ∉ (linkKey l).toList
  -- A single empty text would be taken for none.
  targetIds_ne : u.targetIds ≠ [""]
  keys_ne : u.keys ≠ [""]

instance : Decidable u.Plain :=
  decidable_of_iff (_ ∧ _ ∧ _ ∧ _ ∧ _ ∧ _)
    ⟨fun ⟨ht, hi, hr, hl, hi', hl'⟩ => ⟨ht, hi, hr, hl, hi', hl'⟩,
      fun ⟨ht, hi, hr, hl, hi', hl'⟩ => ⟨ht, hi, hr, hl, hi', hl'⟩⟩

theorem toList_supersedeKey (u : Update) : u.supersedeKey.toList =
    u.target.text.toList ++ '|' ::
      ((String.intercalate "," (Text.sorted (u.targetIds.map lower))).toList ++ '|' ::
        ((lower u.binding.relation).toList ++ '|' ::
          (String.intercalate "," (Text.sorted u.keys)).toList)) := by
  rw [supersedeKey_eq]
  simp

theorem Plain.not_mem_targetIds (h : u.Plain) :
    '|' ∉ (String.intercalate "," (Text.sorted (u.targetIds.map lower))).toList := by
  intro hm
  obtain hm | ⟨i, hi, hm⟩ := Text.mem_intercalate hm
  · exact absurd hm (by decide)
  · obtain ⟨j, hj, rfl⟩ := List.mem_map.mp ((Text.sorted_perm _).mem_iff.mp hi)
    exact (h.targetIds j hj).2 ((Text.mem_lower (by decide)).mp hm)

theorem Plain.not_mem_lower_targetIds (h : u.Plain) : ∀ i ∈ u.targetIds.map lower,
    ',' ∉ i.toList :=
  List.forall_mem_map.mpr fun i hi => mt (Text.mem_lower (by decide)).mp (h.targetIds i hi).1

theorem Plain.not_mem_keys (h : u.Plain) : ∀ key ∈ u.keys, ',' ∉ key.toList :=
  List.forall_mem_map.mpr h.links

theorem Plain.lower_targetIds_ne (h : u.Plain) : u.targetIds.map lower ≠ [""] := by
  intro he
  have ⟨i, hi, he⟩ := List.map_eq_singleton_iff.mp he
  exact h.targetIds_ne (hi.trans (congrArg (fun i => [i]) (Text.lower_eq_empty.mp he)))

theorem supersedeKey_eq_iff_same (hu : u.target.Parsed) (hv : v.target.Parsed) (hu' : u.Plain)
    (hv' : v.Plain) : u.supersedeKey = v.supersedeKey ↔ u.Same v := by
  refine ⟨fun h => ?_, Same.supersedeKey_eq⟩
  have hl := congrArg String.toList h
  rw [u.toList_supersedeKey, v.toList_supersedeKey] at hl
  have ⟨ht, hl⟩ := Text.append_cons_inj hl hu'.target hv'.target
  have ⟨hi, hl⟩ := Text.append_cons_inj hl hu'.not_mem_targetIds hv'.not_mem_targetIds
  have ⟨hr, hk⟩ := Text.append_cons_inj hl (mt (Text.mem_lower (by decide)).mp hu'.relation)
    (mt (Text.mem_lower (by decide)).mp hv'.relation)
  rw [String.toList_inj] at ht hi hr hk
  refine same_iff.mpr ⟨(Descriptor.text_inj hu hv).mp ht, ?_, hr, ?_⟩
  · exact Text.perm_of_intercalate_sorted rfl hu'.not_mem_lower_targetIds
      hv'.not_mem_lower_targetIds hu'.lower_targetIds_ne hv'.lower_targetIds_ne hi
  · exact Text.perm_of_intercalate_sorted rfl hu'.not_mem_keys hv'.not_mem_keys hu'.keys_ne
      hv'.keys_ne hk

end Update

namespace Pipeline

variable {Outbound : Type} [Publisher Outbound]

-- Updates about the same have one key, and among updates without separators only these. What is
-- queued is then made obsolete by updates about the same, and by no others.
theorem supersedes_iff_same (config : Config) (types : List (Descriptor × List String))
    (rules : Registry) (outbound : Outbound) (steps : List Step) (now : Moment) (u v : Update) :
    let p := (start config types rules outbound).run steps
    (u.Same v → u.supersedeKey = v.supersedeKey ∧ ∀ n, n < p.retry.nextSeq →
      ¬(p.dispatch now v).2.retry.Offers n u) ∧
    (u.target.Parsed → v.target.Parsed → u.Plain → v.Plain →
      (u.supersedeKey = v.supersedeKey ↔ u.Same v) ∧ ∀ n, p.retry.Offers n u →
        ((p.dispatch now v).2.retry.Offers n u ↔ ¬u.Same v)) := by
  intro p
  have hq : p.retry.Numbered :=
    (later_of_moves numbered_start (moves_run (start config types rules outbound) steps)).numbered
  constructor
  case left =>
    refine fun h => ⟨h.supersedeKey_eq, fun n hn ho => ?_⟩
    exact ((p.offers_dispatch now hq hn).mp ho).2 h.supersedeKey_eq
  case right =>
    intro hu hv hu' hv'
    have hk := Update.supersedeKey_eq_iff_same hu hv hu' hv'
    refine ⟨hk, fun n ho => ?_⟩
    rw [p.offers_dispatch now hq (ho.lt hq), ← hk]
    exact and_iff_right ho

open Roster

-- A student joins two groups, and leaves them again. That another one leaves them does not matter.
theorem supersedes_iff_same_joins :
    let p := (start {} types (.ofRules (rules .zeroOrMany)) ()).run
      [.dispatch ⟨1, 1⟩ (joins .add "1" ["a", "b"] 1)]
    (p.dispatch ⟨2, 2⟩ (joins .delete "2" ["a", "b"] 2)).2.retry.Offers 0
      (joins .add "1" ["a", "b"] 1) ∧
    ¬(p.dispatch ⟨2, 2⟩ (joins .delete "1" ["B", "a"] 2)).2.retry.Offers 0
      (joins .add "1" ["a", "b"] 1) := by
  intro p
  let u := joins .add "1" ["a", "b"] 1
  have ho : p.retry.Offers 0 u :=
    (offers_start_dispatch_iff ⟨1, 1⟩ (by decide +kernel)).mpr ⟨rfl, rfl⟩
  have hp : group.Parsed := ⟨"school/roster/group", rfl⟩
  have hiff (v : Update) := supersedes_iff_same {} types (.ofRules (rules .zeroOrMany)) ()
    [.dispatch ⟨1, 1⟩ u] ⟨2, 2⟩ u v
  have hother := (hiff (joins .delete "2" ["a", "b"] 2)).2 hp hp (by decide +kernel)
    (by decide +kernel)
  have hsame := (hiff (joins .delete "1" ["B", "a"] 2)).2 hp hp (by decide +kernel)
    (by decide +kernel)
  exact ⟨(hother.2 0 ho).mpr (by decide +kernel), fun h => (hsame.2 0 ho).mp h (by decide +kernel)⟩

-- Two groups, and one with a name that reads like both.
theorem not_supersedeKey_iff_same : ¬∀ u v : Update, u.target.Parsed → v.target.Parsed →
    (u.supersedeKey = v.supersedeKey ↔ u.Same v) := by
  intro h
  let u := joins .add "1" ["a", "b"] 1
  let v := joins .add "1" ["a,systemid/b"] 2
  have hp : group.Parsed := ⟨"school/roster/group", rfl⟩
  have hu : (u.targetIds.map lower).Pairwise (· ≤ ·) := by decide +kernel
  have hv : (v.targetIds.map lower).Pairwise (· ≤ ·) := by decide +kernel
  have hk : u.supersedeKey = v.supersedeKey := by
    rw [u.supersedeKey_eq, v.supersedeKey_eq, Text.sorted_eq_self hu, Text.sorted_eq_self hv]
    simp only [Text.sorted]
    decide +kernel
  exact absurd ((h u v hp hp).mp hk) (by decide +kernel)

end Pipeline
end LinkedCache
