import LinkedCache.Text
import Mathlib.Data.List.TakeWhile
import Mathlib.Tactic.Common

-- Folding, cutting and joining of text: folding twice is folding once, and touches no slash, so
-- that it commutes with every cut at one. Texts without a separator are read back from what they
-- are joined to.

namespace LinkedCache.Text

theorem val_toLower {c : Char} (h : c.val ≥ 'A'.val ∧ c.val ≤ 'Z'.val) :
    c.toLower.val = c.val + ('a'.val - 'A'.val) :=
  congrArg Char.val (dif_pos h)

theorem toLower_toLower (c : Char) : c.toLower.toLower = c.toLower := by
  by_cases h : c.val ≥ 'A'.val ∧ c.val ≤ 'Z'.val
  case neg =>
    have hc : c.toLower = c := dif_neg h
    rw [hc, hc]
  case pos =>
    refine dif_neg ?_
    rw [val_toLower h]
    simp [UInt32.le_iff_toNat_le] at h ⊢
    omega

-- Whether a character stands before the letters or behind them.
def Outside (x : Char) : Prop :=
  x.val < 'A'.val ∨ 'z'.val < x.val

instance : DecidablePred Outside :=
  fun _ => inferInstanceAs (Decidable (_ ∨ _))

theorem toLower_eq_iff {x c : Char} (hx : Outside x) : c.toLower = x ↔ c = x := by
  by_cases h : c.val ≥ 'A'.val ∧ c.val ≤ 'Z'.val
  case neg =>
    have hc : c.toLower = c := dif_neg h
    rw [hc]
  case pos =>
    unfold Outside at hx
    rw [Char.ext_iff, Char.ext_iff, val_toLower h]
    simp [UInt32.le_iff_toNat_le, UInt32.lt_iff_toNat_lt, ← UInt32.toNat_inj] at h hx ⊢
    omega

theorem toLower_eq_slash {c : Char} : c.toLower = '/' ↔ c = '/' :=
  toLower_eq_iff (by decide)

@[simp]
theorem toList_lower (s : String) : (lower s).toList = s.toList.map Char.toLower := by
  simp [lower]

@[simp]
theorem lower_lower (s : String) : lower (lower s) = lower s := by
  apply String.ext
  rw [toList_lower, toList_lower, List.map_map]
  exact List.map_congr_left fun c _ => toLower_toLower c

@[simp]
theorem lower_append (s t : String) : lower (s ++ t) = lower s ++ lower t := by
  apply String.ext
  simp

@[simp]
theorem lower_slash : lower "/" = "/" :=
  rfl

theorem sameFolded_iff {s t : String} : sameFolded s t ↔ lower s = lower t := by
  simp [sameFolded]

theorem lower_eq_empty {s : String} : lower s = "" ↔ s = "" := by
  rw [← String.toList_eq_nil_iff, ← String.toList_eq_nil_iff, toList_lower, List.map_eq_nil_iff]

theorem isEmpty_lower (s : String) : (lower s).isEmpty = s.isEmpty := by
  rw [Bool.eq_iff_iff, String.isEmpty_iff, String.isEmpty_iff, lower_eq_empty]

theorem mem_lower {x : Char} {s : String} (hx : Outside x) :
    x ∈ (lower s).toList ↔ x ∈ s.toList := by
  simp [toLower_eq_iff hx]

-- A text that can stand between two slashes.
structure Segment (s : String) : Prop where
  nonempty : s ≠ ""
  unbroken : '/' ∉ s.toList

instance {s : String} : Decidable (Segment s) :=
  decidable_of_iff (s ≠ "" ∧ '/' ∉ s.toList) ⟨fun ⟨hn, hs⟩ => ⟨hn, hs⟩, fun ⟨hn, hs⟩ => ⟨hn, hs⟩⟩

theorem segment_lower_iff {s : String} : Segment (lower s) ↔ Segment s := by
  have hslash : '/' ∈ (lower s).toList ↔ '/' ∈ s.toList := mem_lower (by decide)
  constructor
  · exact fun h => ⟨mt lower_eq_empty.mpr h.nonempty, mt hslash.mpr h.unbroken⟩
  · exact fun h => ⟨mt lower_eq_empty.mp h.nonempty, mt hslash.mp h.unbroken⟩

theorem Segment.lower {s : String} (h : Segment s) : Segment (lower s) :=
  segment_lower_iff.mpr h

theorem isLE_compare_iff {s t : String} : (compare s t).isLE ↔ s ≤ t :=
  isLE_compareOfLessAndEq String.le_antisymm String.not_le String.le_total

theorem sorted_eq_self {ss : List String} (h : ss.Pairwise (· ≤ ·)) : sorted ss = ss :=
  List.mergeSort_of_pairwise (by simpa using h)

theorem splitOn_map_toLower (cs : List Char) :
    (cs.map Char.toLower).splitOn '/' = (cs.splitOn '/').map (·.map Char.toLower) := by
  induction cs
  case nil => simp
  case cons c cs hi =>
    have ⟨p, ps, hp⟩ := List.exists_cons_of_ne_nil (List.splitOn_ne_nil '/' cs)
    rw [hp] at hi
    by_cases hc : c = '/'
    case pos => simp [List.splitOn_cons_eq_if_modifyHead, hi, hp, hc, toLower_eq_slash.mpr rfl]
    case neg => simp [List.splitOn_cons_eq_if_modifyHead, hi, hp, hc, mt toLower_eq_slash.mp hc]

theorem pieces_lower (s : String) : pieces '/' (lower s) = (pieces '/' s).map lower := by
  simp only [pieces, toList_lower, splitOn_map_toLower, List.map_map]
  congr 1
  funext cs
  simp [lower]

-- No piece between separators has one.
theorem forall_mem_piece {α : Type} {p : α → Bool} {as piece : List α}
    (h : piece ∈ as.splitOnP p) : ∀ a ∈ piece, p a = false := by
  induction as generalizing piece
  case nil => simp_all
  case cons a as hi =>
    have ⟨q, qs, hq⟩ := List.exists_cons_of_ne_nil (List.splitOnP_ne_nil p as)
    rw [hq] at hi
    rw [List.splitOnP_cons_eq_if_modifyHead, hq] at h
    by_cases ha : p a
    case pos =>
      rw [if_pos ha, List.mem_cons] at h
      obtain rfl | h := h
      · exact List.forall_mem_nil _
      · exact hi h
    case neg =>
      rw [if_neg ha, List.modifyHead_cons, List.mem_cons] at h
      obtain rfl | h := h
      · exact List.forall_mem_cons.mpr ⟨Bool.eq_false_iff.mpr ha, hi (.head qs)⟩
      · exact hi (.tail q h)

section Cutting

variable {x : Char} {s f v : String}

theorem takeWhile_separator {cs : List Char} (ds : List Char) (h : x ∉ cs) :
    (cs ++ x :: ds).takeWhile (· != x) = cs := by
  rw [List.takeWhile_append_of_pos (by simpa using fun c hc => ne_of_mem_of_not_mem hc h)]
  simp

theorem dropWhile_separator {cs : List Char} (ds : List Char) (h : x ∉ cs) :
    (cs ++ x :: ds).dropWhile (· != x) = x :: ds := by
  rw [List.dropWhile_append_of_pos (by simpa using fun c hc => ne_of_mem_of_not_mem hc h)]
  simp

theorem cut?_append (sep v : String) (h : x ∉ f.toList) (hsep : sep.toList = [x]) :
    cut? x (f ++ sep ++ v) = some (f, v) := by
  have hl : (f ++ sep ++ v).toList = f.toList ++ x :: v.toList := by simp [hsep]
  simp [cut?, hl, takeWhile_separator v.toList h, dropWhile_separator v.toList h]

theorem eq_of_cut? (sep : String) (h : cut? x s = some (f, v)) (hsep : sep.toList = [x]) :
    s = f ++ sep ++ v ∧ x ∉ f.toList := by
  unfold cut? at h
  split at h
  case h_1 => simp at h
  case h_2 c after hd =>
    have hc : c = x := by simpa [hd] using s.toList.head_dropWhile_not (· != x) (by simp [hd])
    simp only [Option.some.injEq, Prod.mk.injEq] at h
    obtain ⟨rfl, rfl⟩ := h
    constructor
    · apply String.ext
      simpa [hsep, hd, hc] using (s.toList.takeWhile_append_dropWhile (p := (· != x))).symm
    · intro hm
      rw [String.toList_ofList] at hm
      simpa using List.mem_takeWhile_imp hm

theorem cut?_eq_none_iff : cut? x s = none ↔ x ∉ s.toList := by
  constructor
  case mp =>
    intro h hm
    have ⟨as, bs, hs, ha⟩ := List.eq_append_cons_of_mem hm
    simp [cut?, hs, dropWhile_separator bs ha] at h
  case mpr =>
    intro h
    have hd : s.toList.dropWhile (· != x) = [] :=
      List.dropWhile_eq_nil_iff.mpr (by simpa using fun c hc => ne_of_mem_of_not_mem hc h)
    rw [cut?, hd]

end Cutting

theorem append_slash_inj {f v f' v' : String} (h : f ++ "/" ++ v = f' ++ "/" ++ v')
    (hf : '/' ∉ f'.toList) (hv : '/' ∉ v'.toList) : f = f' ∧ v = v' := by
  have hl : f.toList ++ '/' :: v.toList = f'.toList ++ '/' :: v'.toList := by
    simpa using congrArg String.toList h
  suffices hs : f.toList = f'.toList by
    rw [hs, List.append_right_inj, List.cons.injEq, String.toList_inj] at hl
    exact ⟨String.toList_inj.mp hs, hl.2⟩
  obtain ⟨cs, he, hc⟩ | ⟨cs, he, hc⟩ := List.append_eq_append_iff.mp hl
  all_goals
    cases cs
    case nil => simp [he]
    case cons =>
      have ⟨_, hc⟩ := List.cons.inj hc
      simp_all

theorem cut?_lower (s : String) :
    cut? '/' (lower s) = (cut? '/' s).map fun (f, v) => (lower f, lower v) := by
  have hp : (fun c => c != '/') ∘ Char.toLower = fun c => c != '/' := by
    funext c
    simp [bne, toLower_eq_slash]
  simp only [cut?, toList_lower, List.takeWhile_map, List.dropWhile_map, hp]
  cases s.toList.dropWhile (· != '/') <;> simp [lower]

section Joining

variable {x : Char} {sep s t : String} {ss ts : List String}

theorem append_cons_inj {α : Type} {a : α} {as as' bs bs' : List α}
    (h : as ++ a :: bs = as' ++ a :: bs') (ha : a ∉ as) (ha' : a ∉ as') :
    as = as' ∧ bs = bs' := by
  induction as generalizing as'
  case nil => cases as' <;> grind
  case cons b as hi => cases as' <;> grind

theorem mem_intercalate (h : x ∈ (String.intercalate sep ss).toList) :
    x ∈ sep.toList ∨ ∃ s ∈ ss, x ∈ s.toList := by
  rw [String.toList_intercalate] at h
  induction ss
  case nil => simp [List.intercalate] at h
  case cons s ss hi =>
    cases ss
    case nil => simp_all [List.intercalate]
    case cons s' ss => simp_all [List.intercalate]; grind

theorem pieces_intercalate (hsep : sep.toList = [x]) (hs : ∀ s ∈ ss, x ∉ s.toList)
    (hn : ss ≠ []) : pieces x (String.intercalate sep ss) = ss := by
  have hs : ∀ cs ∈ ss.map String.toList, x ∉ cs := by simpa using hs
  rw [pieces, String.toList_intercalate, hsep, List.splitOn_intercalate x hs (by simpa using hn)]
  simp

theorem pieces_append (s t : String) (hsep : sep.toList = [x]) :
    pieces x (s ++ sep ++ t) = pieces x s ++ pieces x t := by
  have hl : (s ++ sep ++ t).toList = s.toList ++ x :: t.toList := by simp [hsep]
  simp [pieces, hl, List.splitOn_append_cons_self]

theorem pieces_eq_singleton (h : x ∉ s.toList) : pieces x s = [s] := by
  simp [pieces, List.splitOn_eq_singleton h]

theorem pieces_ne_nil (x : Char) (s : String) : pieces x s ≠ [] := by
  simp [pieces, List.splitOn_ne_nil]

theorem intercalate_pieces (s : String) (hsep : sep.toList = [x]) :
    String.intercalate sep (pieces x s) = s := by
  apply String.ext
  simp [pieces, hsep]

theorem not_mem_of_mem_pieces (h : s ∈ pieces x t) : x ∉ s.toList := by
  obtain ⟨cs, hcs, rfl⟩ := List.mem_map.mp h
  rw [String.toList_ofList]
  exact fun hm => absurd (forall_mem_piece hcs x hm) (by simp)

theorem pieces_eq_singleton_iff : pieces x s = [t] ↔ x ∉ s.toList ∧ s = t := by
  constructor
  case mp =>
    intro h
    have hs : s = t := by
      rw [← intercalate_pieces s (String.toList_singleton x), h, String.intercalate_singleton]
    have hm : t ∈ pieces x s := h ▸ List.mem_singleton_self t
    exact ⟨hs ▸ not_mem_of_mem_pieces hm, hs⟩
  case mpr => exact fun ⟨hn, hs⟩ => hs ▸ pieces_eq_singleton hn

-- A list of one empty text is joined to the same as no text at all.
theorem intercalate_inj (hsep : sep.toList = [x]) (hs : ∀ s ∈ ss, x ∉ s.toList)
    (ht : ∀ t ∈ ts, x ∉ t.toList) (hs' : ss ≠ [""]) (ht' : ts ≠ [""])
    (h : String.intercalate sep ss = String.intercalate sep ts) : ss = ts := by
  have hnil : pieces x (String.intercalate sep []) = [""] := by simp [pieces]
  have hp := congrArg (pieces x) h
  cases ss <;> cases ts
  case nil.nil => rfl
  case nil.cons =>
    rw [hnil, pieces_intercalate hsep ht (List.cons_ne_nil _ _)] at hp
    exact absurd hp.symm ht'
  case cons.nil =>
    rw [hnil, pieces_intercalate hsep hs (List.cons_ne_nil _ _)] at hp
    exact absurd hp hs'
  case cons.cons =>
    rwa [pieces_intercalate hsep hs (List.cons_ne_nil _ _),
      pieces_intercalate hsep ht (List.cons_ne_nil _ _)] at hp

theorem sorted_perm (ss : List String) : (sorted ss).Perm ss :=
  List.mergeSort_perm ..

theorem sorted_eq_iff : sorted ss = sorted ts ↔ ss.Perm ts := by
  constructor
  case mp => exact fun h => (sorted_perm ss).symm.trans (h ▸ sorted_perm ts)
  case mpr =>
    intro h
    have hp (ss : List String) : (sorted ss).Pairwise fun s t => decide (s ≤ t) :=
      List.pairwise_mergeSort (by simpa using fun a b c => String.le_trans)
        (by simpa using String.le_total) ss
    refine List.Perm.eq_of_pairwise ?_ (hp ss) (hp ts)
      ((sorted_perm ss).trans (h.trans (sorted_perm ts).symm))
    simpa using fun a b _ _ => String.le_antisymm

theorem perm_of_intercalate_sorted (hsep : sep.toList = [x]) (hs : ∀ s ∈ ss, x ∉ s.toList)
    (ht : ∀ t ∈ ts, x ∉ t.toList) (hs' : ss ≠ [""]) (ht' : ts ≠ [""])
    (h : String.intercalate sep (sorted ss) = String.intercalate sep (sorted ts)) :
    ss.Perm ts := by
  rw [← sorted_eq_iff]
  refine intercalate_inj hsep (fun s hm => hs s ((sorted_perm ss).mem_iff.mp hm))
    (fun t hm => ht t ((sorted_perm ts).mem_iff.mp hm)) ?_ ?_ h
  · exact fun he => hs' (List.perm_singleton.mp (he ▸ sorted_perm ss).symm)
  · exact fun he => ht' (List.perm_singleton.mp (he ▸ sorted_perm ts).symm)

-- Lists that are the same up to their order and to what a function tells apart.
theorem map_perm_iff {α : Type} {f : α → String} {as bs : List α} :
    (as.map f).Perm (bs.map f) ↔
      ∀ a, as.countP (f a == f ·) = bs.countP (f a == f ·) := by
  have hcount (a : α) (as : List α) : (as.map f).count (f a) = as.countP (f a == f ·) := by
    rw [List.count, List.countP_map]
    refine List.countP_congr fun b _ => ?_
    rw [Function.comp_apply, beq_iff_eq, beq_iff_eq, eq_comm]
  rw [List.perm_iff_count]
  constructor
  case mp =>
    intro h a
    rw [← hcount, h, hcount]
  case mpr =>
    intro h s
    by_cases hs : s ∈ as.map f ∨ s ∈ bs.map f
    case neg =>
      have ⟨ha, hb⟩ := not_or.mp hs
      rw [List.count_eq_zero.mpr ha, List.count_eq_zero.mpr hb]
    case pos =>
      have ⟨a, ha⟩ : ∃ a, f a = s := by
        simp only [List.mem_map] at hs
        grind
      rw [← ha, hcount, hcount, h]

end Joining

end LinkedCache.Text
