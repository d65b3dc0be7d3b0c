import LinkedCache.Assoc
import Mathlib.Data.List.Forall2
import Mathlib.Data.List.Induction
import Mathlib.Data.List.Nodup
import Mathlib.Tactic.Common

-- Association lists as maps. What is found under a key depends on the last insertion under it, and
-- not on the order of the members, as long as each key is there once.

namespace LinkedCache.Assoc

variable {α β : Type} {members members' : List (String × α)} {key k k' : String} {v v' : α}

theorem lookup_cons_eq {κ : Type} [DecidableEq κ] (k : κ) (m : κ × α) (rest : List (κ × α)) :
    (m :: rest).lookup k = if k = m.1 then some m.2 else rest.lookup k := by
  cases m
  case mk k' v => by_cases h : k = k' <;> simp [List.lookup_cons, h, beq_false_of_ne]

@[simp]
theorem lookup_insert (key k : String) (v : α) (members : List (String × α)) :
    (insert key v members).lookup k = if k = key then some v else members.lookup k := by
  induction members
  case nil => simp [insert, lookup_cons_eq]
  case cons m rest hi =>
    unfold insert
    split
    case isTrue => simp [lookup_cons_eq]
    case isFalse =>
      split
      case isTrue hm => by_cases h : k = key <;> simp [lookup_cons_eq, ← hm, h]
      case isFalse hm =>
        rw [lookup_cons_eq, lookup_cons_eq, hi]
        by_cases h : k = key <;> simp [h, hm]

theorem lookup_filter {κ : Type} [DecidableEq κ] (key k : κ) (members : List (κ × α)) :
    (members.filter (·.1 != key)).lookup k = if k = key then none else members.lookup k := by
  induction members
  case nil => simp
  case cons m rest hi =>
    rw [List.filter_cons, lookup_cons_eq]
    by_cases hm : m.1 = key
    case pos =>
      simp only [hm, bne_self_eq_false, Bool.false_eq_true, if_false, hi]
      split <;> rfl
    case neg =>
      simp only [bne_iff_ne, ne_eq, hm, not_false_eq_true, if_true, lookup_cons_eq, hi]
      by_cases h : k = key
      case pos => rw [if_neg (h ▸ Ne.symm hm), if_pos h, if_pos h]
      case neg => rw [if_neg h, if_neg h]

theorem lookup_of_mem {κ : Type} [DecidableEq κ] {m : κ × α} {members : List (κ × α)}
    (h : (members.map (·.1)).Nodup) (hm : m ∈ members) : members.lookup m.1 = some m.2 := by
  induction members
  case nil => cases hm
  case cons m' rest hi =>
    have ⟨hn, hr⟩ := List.nodup_cons.mp h
    rw [lookup_cons_eq]
    cases hm
    case head => exact if_pos rfl
    case tail hm =>
      have hne : m.1 ≠ m'.1 := fun he => hn (List.mem_map.mpr ⟨m, hm, he⟩)
      rw [if_neg hne, hi hr hm]

@[simp]
theorem lookup_erase (key k : String) (members : List (String × α)) :
    (erase key members).lookup k = if k = key then none else members.lookup k :=
  lookup_filter key k members

-- The keys are in order, and so each of them is there once.
def Sorted (members : List (String × α)) : Prop :=
  members.Pairwise (·.1 < ·.1)

theorem mem_insert {value : α} {m : String × α} (h : m ∈ insert key value members) :
    m = (key, value) ∨ m ∈ members := by
  induction members
  case nil => exact .inl (List.mem_singleton.mp h)
  case cons m' rest hi =>
    unfold insert at h
    split at h
    case isTrue => exact List.mem_cons.mp h
    case isFalse =>
      split at h
      case isTrue => exact (List.mem_cons.mp h).imp_right (.tail _)
      case isFalse =>
        obtain rfl | h := List.mem_cons.mp h
        · exact .inr (.head _)
        · exact (hi h).imp_right (.tail _)

theorem Sorted.insert (h : Sorted members) (key : String) (value : α) :
    Sorted (insert key value members) := by
  induction members
  case nil => exact List.pairwise_singleton ..
  case cons m rest hi =>
    have ⟨hm, hr⟩ := List.pairwise_cons.mp h
    unfold Assoc.insert
    split
    case isTrue hk =>
      refine List.pairwise_cons.mpr ⟨fun m' hm' => ?_, h⟩
      obtain rfl | hm' := List.mem_cons.mp hm'
      · exact hk
      · exact String.lt_trans hk (hm m' hm')
    case isFalse hk =>
      split
      case isTrue he => exact List.pairwise_cons.mpr ⟨fun m' hm' => he ▸ hm m' hm', hr⟩
      case isFalse he =>
        refine List.pairwise_cons.mpr ⟨fun m' hm' => ?_, hi hr⟩
        obtain rfl | hm' := mem_insert hm'
        · exact Std.lt_of_le_of_ne (String.not_lt.mp hk) (Ne.symm he)
        · exact hm m' hm'

theorem Sorted.erase (h : Sorted members) (key : String) : Sorted (erase key members) :=
  h.sublist List.filter_sublist

theorem Sorted.nodup (h : Sorted members) : (members.map (·.1)).Nodup := by
  refine List.pairwise_map.mpr (h.imp ?_)
  intro m m' hl he
  exact String.lt_irrefl _ (he ▸ hl)

theorem lookup_isSome_iff : (members.lookup key).isSome ↔ key ∈ members.map (·.1) := by
  induction members
  case nil => simp
  case cons m rest hi =>
    rw [lookup_cons_eq, List.map_cons, List.mem_cons]
    by_cases hk : key = m.1 <;> simp [hk, hi]

theorem insert_insert (members : List (String × α)) :
    insert k v (insert k v' members) = insert k v members := by
  induction members
  case nil => simp [insert]
  case cons m rest hi => grind [insert]

theorem insert_comm (h : k ≠ k') (members : List (String × α)) :
    insert k v (insert k' v' members) = insert k' v' (insert k v members) := by
  induction members
  case nil => grind [insert]
  case cons m rest hi => grind [insert]

section Keys

variable {κ : Type} [DecidableEq κ] {k : κ} {members members' : List (κ × α)}

theorem lookup_eq_some_iff (h : (members.map (·.1)).Nodup) :
    members.lookup k = some v ↔ (k, v) ∈ members := by
  constructor
  case mp =>
    intro hl
    have ⟨before, after, hm, _⟩ := List.lookup_eq_some_iff.mp hl
    exact hm ▸ List.mem_append_right before (.head after)
  case mpr => exact lookup_of_mem h

theorem lookup_perm (h : (members.map (·.1)).Nodup) (hp : members.Perm members') :
    members.lookup k = members'.lookup k := by
  have h' := (hp.map (·.1)).nodup_iff.mp h
  refine Option.ext fun v => ?_
  rw [lookup_eq_some_iff h, lookup_eq_some_iff h', hp.mem_iff]

end Keys

-- Members under other keys may go.
theorem lookup_filter_key {p : String → Bool} (h : p k) :
    (members.filter fun m => p m.1).lookup k = members.lookup k := by
  induction members
  case nil => rfl
  case cons m rest hi =>
    rw [List.filter_cons, lookup_cons_eq]
    split
    case isTrue => rw [lookup_cons_eq, hi]
    case isFalse hm => rw [hi, if_neg fun he : k = m.1 => hm (he ▸ h)]

theorem lookup_map_keyed (f : String → α → β) :
    (members.map fun m => (m.1, f m.1 m.2)).lookup k = (members.lookup k).map (f k) := by
  induction members
  case nil => rfl
  case cons m rest hi =>
    rw [List.map_cons, lookup_cons_eq, lookup_cons_eq, hi]
    split
    case isTrue h => rw [h, Option.map_some]
    case isFalse => rfl

theorem lookup_map (f : α → β) :
    (members.map fun m => (m.1, f m.2)).lookup k = (members.lookup k).map f :=
  lookup_map_keyed fun _ => f

-- The same keys in the same order, and related values under each of them.
def Related (R : String → α → β → Prop) (members : List (String × α))
    (others : List (String × β)) : Prop :=
  List.Forall₂ (fun m m' => m.1 = m'.1 ∧ R m.1 m.2 m'.2) members others

namespace Related

variable {R : String → α → β → Prop} {others : List (String × β)}

theorem keys_eq (h : Related R members others) : members.map (·.1) = others.map (·.1) := by
  rw [← List.forall₂_eq_eq_eq, List.forall₂_map_left_iff, List.forall₂_map_right_iff]
  exact h.imp fun _ _ hm => hm.1

theorem filter (p : String → Bool) (h : Related R members others) :
    Related R (members.filter fun m => p m.1) (others.filter fun m => p m.1) :=
  List.rel_filter (fun _ _ hm => by simp only [hm.1]) h

theorem lookup (h : Related R members others) (k : String) :
    Option.Rel (R k) (members.lookup k) (others.lookup k) := by
  induction h
  case nil => exact .none
  case cons m m' rest rest' hm _ hi =>
    rw [lookup_cons_eq, lookup_cons_eq, ← hm.1]
    split
    case isTrue hk => exact .some (hk ▸ hm.2)
    case isFalse => exact hi

end Related

theorem erase_erase (key : String) (members : List (String × α)) :
    erase key (erase key members) = erase key members := by
  simp [erase]

theorem erase_insert (key : String) (v : α) (members : List (String × α)) :
    erase key (insert key v members) = erase key members := by
  induction members
  case nil => simp [insert, erase]
  case cons m rest hi => grind [insert, erase]

theorem insert_of_lt (h : ∀ m ∈ members, m.1 < key) :
    insert key v members = members ++ [(key, v)] := by
  induction members
  case nil => rfl
  case cons m rest hi =>
    have ⟨hm, hr⟩ := List.forall_mem_cons.mp h
    unfold insert
    rw [if_neg (String.lt_asymm hm), if_neg fun he => String.lt_irrefl _ (he ▸ hm), hi hr,
      List.cons_append]

theorem ofList_concat (members : List (String × α)) (m : String × α) :
    ofList (members ++ [m]) = insert m.1 m.2 (ofList members) := by
  simp [ofList]

theorem sorted_ofList (members : List (String × α)) : Sorted (ofList members) := by
  induction members using List.reverseRecOn
  case nil => exact .nil
  case append_singleton members m hi =>
    rw [ofList_concat]
    exact hi.insert ..

-- Of several members with one key the last one counts.
theorem lookup_ofList : (ofList members).lookup k = members.reverse.lookup k := by
  induction members using List.reverseRecOn
  case nil => rfl
  case append_singleton members m hi =>
    rw [ofList_concat, lookup_insert, List.reverse_concat, lookup_cons_eq, hi]

-- A key that is there once is found, whatever the other keys are.
theorem lookup_ofList_of_nodup_filter {p : String → Bool} (hp : p k)
    (h : ((members.filter fun m => p m.1).map (·.1)).Nodup) :
    (ofList members).lookup k = members.lookup k := by
  rw [lookup_ofList, ← lookup_filter_key hp, List.filter_reverse,
    ← lookup_perm h (List.reverse_perm _).symm, lookup_filter_key hp]

theorem lookup_ofList_of_nodup (h : (members.map (·.1)).Nodup) :
    (ofList members).lookup k = members.lookup k :=
  lookup_ofList.trans (lookup_perm h members.reverse_perm.symm).symm

theorem Sorted.ofList_eq (h : Sorted members) : ofList members = members := by
  induction members using List.reverseRecOn
  case nil => rfl
  case append_singleton members m hi =>
    have ⟨hs, _, hm⟩ := List.pairwise_append.mp h
    rw [ofList_concat, hi hs, insert_of_lt fun m' hm' => hm m' hm' m (.head _)]

end LinkedCache.Assoc
