import LinkedCache.Json.Reader
import LinkedCache.Json.Writer
import LinkedCache.Proofs.Documents
import Mathlib.Data.List.TakeWhile
import Mathlib.Tactic.Common

-- Reading what was written on one line.

namespace LinkedCache.Json

namespace Numeral

def integer (negative : Bool) (n : Nat) : Numeral :=
  ⟨negative, (Nat.toDigits 10 n).map Reader.digit, none, none⟩

theorem le_foldl (ds : List Nat) (s : Nat) : s ≤ ds.foldl (fun n d => 10 * n + d) s := by
  induction ds generalizing s
  case nil => exact Nat.le_refl s
  case cons d ds hi => exact Nat.le_trans (by omega) (hi (10 * s + d))

theorem absorb_eq {ds : List Nat} {s : Nat}
    (h : ds.foldl (fun n d => 10 * n + d) s ≤ Bounds.maxNat64) :
    absorb s ds = (ds.foldl (fun n d => 10 * n + d) s, []) := by
  induction ds generalizing s
  case nil => rfl
  case cons d ds hi =>
    rw [absorb, if_pos (Nat.le_trans (le_foldl ds _) h)]
    exact hi h

theorem absorb_integer {n : Nat} (negative : Bool) (h : n ≤ Bounds.maxNat64) :
    absorb 0 (integer negative n).whole = (n, []) := by
  have hn : ((Nat.toDigits 10 n).map Reader.digit).foldl (fun n d => 10 * n + d) 0 = n := by
    rw [List.foldl_map]
    exact Nat.ofDigitChars_eq_foldl.symm.trans Nat.ofDigitChars_ten_toDigits
  exact (absorb_eq (hn.symm ▸ h)).trans (congrArg (·, []) hn)

theorem toValue?_integer {n : Int} (h : Bounds.minInt64 ≤ n ∧ n ≤ Bounds.maxNat64) :
    (integer (n < 0) n.natAbs).toValue? = some (.int n) := by
  have hmax : n.natAbs ≤ Bounds.maxNat64 := by
    simp only [Bounds.minInt64, Bounds.maxNat64] at h ⊢
    omega
  unfold toValue?
  rw [absorb_integer _ hmax]
  by_cases hn : n < 0
  case pos =>
    have he : -(n.natAbs : Int) = n := by omega
    have hpos : 0 < n.natAbs := by omega
    simp only [integer, hn, decide_true, he, hpos, h.1]
    rfl
  case neg =>
    have he : (n.natAbs : Int) = n := by omega
    simp only [integer, hn, decide_false, he]
    rfl

end Numeral

namespace Reader

-- What stands behind a value that is written, so that a number ends there.
def Closed (rest : List Char) : Prop :=
  ∀ c ∈ rest.head?, c = ',' ∨ c = ']' ∨ c = '\x7d'

variable {cs ds rest : List Char} {c : Char} {n : Nat}

theorem digits_append (hd : ∀ c ∈ ds, c.isDigit) (hr : Closed rest) :
    digits (ds ++ rest) = (ds.map digit, rest) := by
  have ⟨ht, hr⟩ : rest.takeWhile Char.isDigit = [] ∧ rest.dropWhile Char.isDigit = rest := by
    cases rest
    case nil => exact ⟨rfl, rfl⟩
    case cons c rest => obtain rfl | rfl | rfl := hr c rfl <;> exact ⟨rfl, rfl⟩
  rw [digits, List.takeWhile_append_of_pos hd, List.dropWhile_append_of_pos hd, ht, hr,
    List.append_nil]

theorem fraction?_of_closed (hr : Closed rest) : fraction? rest = some (none, rest) := by
  cases rest
  case nil => rfl
  case cons c rest => obtain rfl | rfl | rfl := hr c rfl <;> rfl

theorem exponent?_of_closed (hr : Closed rest) : exponent? rest = some (none, rest) := by
  cases rest
  case nil => rfl
  case cons c rest => obtain rfl | rfl | rfl := hr c rfl <;> rfl

theorem head_toDigits (h : 0 < n) : ∀ d ∈ ((Nat.toDigits 10 n).map digit).head?, d ≠ 0 := by
  induction n using Nat.strongRecOn
  case ind n hi =>
    by_cases hn : n < 10
    case pos =>
      have hd : digit n.digitChar = n := Nat.toNat_digitChar_sub_48_of_lt_ten hn
      rw [Nat.toDigits_of_lt_base hn]
      simp only [List.map_cons, List.head?_cons, Option.mem_some_iff, hd]
      omega
    case neg =>
      have hi := hi (n / 10) (by omega) (by omega)
      have ⟨c, cs, hc⟩ := List.exists_cons_of_ne_nil (Nat.toDigits_ne_nil (n := n / 10) (b := 10))
      rw [Nat.toDigits_of_base_le (by decide) (Nat.not_lt.mp hn)]
      rw [hc] at hi ⊢
      exact hi

-- Only zero is written with a zero in front, and only with this one.
theorem toDigits_ne_zero_cons (n d : Nat) (ds : List Nat) :
    (Nat.toDigits 10 n).map digit ≠ 0 :: d :: ds := by
  intro h
  cases n
  case zero => cases h
  case succ n => exact head_toDigits n.succ_pos 0 (by rw [h]; rfl) rfl

theorem number?_integer (negative : Bool) (n : Nat) (hr : Closed rest) :
    number? ((if negative then ['-'] else []) ++ (Nat.toDigits 10 n ++ rest)) =
      some (.number (.integer negative n), rest) := by
  have hdigit : ∀ c ∈ Nat.toDigits 10 n, c.isDigit := fun c =>
    Nat.isDigit_of_mem_toDigits (by decide) (by decide)
  have hd := digits_append hdigit hr
  have ⟨c, cs, hc⟩ := List.exists_cons_of_ne_nil (Nat.toDigits_ne_nil (n := n) (b := 10))
  have hne : c ≠ '-' := by
    rintro rfl
    exact absurd (hdigit '-' (hc ▸ .head _)) (by decide)
  rw [hc, List.cons_append] at hd ⊢
  unfold number?
  cases negative
  all_goals
    simp only [Bool.false_eq_true, if_true, if_false, List.nil_append, List.cons_append,
      List.cons.injEq, hne, false_and, imp_self, implies_true, hd, ← hc]
    split
    case h_1 he => exact absurd (List.map_eq_nil_iff.mp (congrArg Prod.fst he)) Nat.toDigits_ne_nil
    case h_2 he => exact absurd (congrArg Prod.fst he) (toDigits_ne_zero_cons n _ _)
    case h_3 => simp [fraction?_of_closed hr, exponent?_of_closed hr, Numeral.integer]

theorem hexDigit?_digitChar : ∀ m < 16, hexDigit? m.digitChar = some m := by
  decide

theorem resolve?_unit (h : c.toNat < 0x20) (ps : List Piece) :
    resolve? (.unit c.toNat :: ps) = (resolve? ps).map (c :: ·) := by
  have hhigh : isHigh c.toNat = false := by
    simp only [isHigh, Bool.and_eq_false_iff, decide_eq_false_iff_not]
    omega
  have hlow : isLow c.toNat = false := by
    simp only [isLow, Bool.and_eq_false_iff, decide_eq_false_iff_not]
    omega
  match ps with
  | [] | .char _ :: _ | .unit _ :: _ => simp [resolve?, hhigh, hlow, Char.ofNat_toNat]

theorem pieces?_plain (hquote : c ≠ '"') (hslash : c ≠ '\\') (hc : ¬c.toNat < 0x20)
    (cs : List Char) : pieces? (c :: cs) = (pieces? cs).map fun r => (.char c :: r.1, r.2) := by
  rw [pieces?.eq_def]
  split
  case h_1 he => cases he
  case h_2 he => exact absurd (List.cons.inj he).1 hquote
  case h_3 he => exact absurd (List.cons.inj he).1 hslash
  case h_4 he => exact absurd (List.cons.inj he).1 hslash
  case h_5 he =>
    cases he
    rw [if_neg hc]
    cases pieces? cs <;> rfl

-- A character is read back from what is written for it.
theorem pieces?_escaped (c : Char) : ∃ p, (∀ ps, resolve? (p :: ps) = (resolve? ps).map (c :: ·)) ∧
    ∀ cs, pieces? (escaped c ++ cs) = (pieces? cs).map fun r => (p :: r.1, r.2) := by
  unfold escaped
  split
  case h_8 _ hquote hslash _ _ _ _ _ =>
    split
    case isTrue hc =>
      refine ⟨.unit c.toNat, resolve?_unit hc, fun cs => ?_⟩
      have ha := hexDigit?_digitChar (c.toNat / 16) (by omega)
      have hb := hexDigit?_digitChar (c.toNat % 16) (by omega)
      have h0 : hexDigit? '0' = some 0 := by decide
      have hn : 16 * (c.toNat / 16) + c.toNat % 16 = c.toNat := by omega
      cases hp : pieces? cs <;> simp [pieces?, ha, hb, h0, hn, hp]
    case isFalse hc =>
      exact ⟨.char c, fun ps => rfl, pieces?_plain hquote hslash hc⟩
  all_goals
    refine ⟨.char _, fun ps => rfl, fun cs => ?_⟩
    cases hp : pieces? cs <;> simp [pieces?, escape?, hp]

theorem text?_escaped (s : String) (rest : List Char) :
    text? (s.toList.flatMap escaped ++ '"' :: rest) = some (some s, rest) := by
  have ⟨ps, hp, hr⟩ : ∃ ps, pieces? (s.toList.flatMap escaped ++ '"' :: rest) = some (ps, rest) ∧
      resolve? ps = some s.toList := by
    induction s.toList
    case nil => exact ⟨[], rfl, rfl⟩
    case cons c cs hi =>
      have ⟨ps, hp, hr⟩ := hi
      have ⟨p, hpr, hpp⟩ := pieces?_escaped c
      refine ⟨p :: ps, ?_, by rw [hpr, hr, Option.map_some]⟩
      rw [List.flatMap_cons, List.append_assoc, hpp, hp, Option.map_some]
  simp [text?, hp, hr]

theorem skipSpace_cons (h : isSpace c = false) : skipSpace (c :: cs) = c :: cs := by
  rw [skipSpace, List.dropWhile_cons_of_neg (by simp [h])]

-- What a list or record with something in it starts with.
def Opens (close : Char) (cs : List Char) : Prop :=
  ∃ c cs', cs = c :: cs' ∧ isSpace c = false ∧ c ≠ close

section

variable {d : Document} {ds : List Document} {members : List (Option String × Document)}
  {key : Option String} {cs' : List Char} {fuel : Nat}

theorem value?_text (h : text? cs = some (key, rest)) :
    value? (fuel + 1) ('"' :: cs) = some (.text key, rest) := by
  simp [value?, skipSpace_cons, isSpace, h]

theorem value?_list (ho : Opens ']' cs) (h : items? fuel cs = some (ds, rest)) :
    value? (fuel + 1) ('[' :: cs) = some (.list ds, rest) := by
  obtain ⟨c, cs, rfl, hs, hc⟩ := ho
  rw [value?, skipSpace_cons (by decide)]
  simp only [skipSpace_cons hs]
  simp [hc, h]

theorem value?_record (ho : Opens '\x7d' cs) (h : members? fuel cs = some (members, rest)) :
    value? (fuel + 1) ('\x7b' :: cs) = some (.record members, rest) := by
  obtain ⟨c, cs, rfl, hs, hc⟩ := ho
  rw [value?, skipSpace_cons (by decide)]
  simp only [skipSpace_cons hs]
  simp [hc, h]

theorem isSpace_eq_false (hc : c = '-' ∨ c.isDigit) : isSpace c = false := by
  rw [← Bool.not_eq_true]
  intro hs
  simp only [isSpace, Bool.or_eq_true, beq_iff_eq] at hs
  obtain ((rfl | rfl) | rfl) | rfl := hs <;> exact absurd hc (by decide)

theorem value?_number (hc : c = '-' ∨ c.isDigit) (h : number? (c :: cs) = some (d, rest)) :
    value? (fuel + 1) (c :: cs) = some (d, rest) := by
  rw [value?, skipSpace_cons (isSpace_eq_false hc)]
  split
  case h_7 => exact h
  all_goals
    rename_i he
    cases he
    exact absurd hc (by decide)

theorem items?_last (h : value? fuel cs = some (d, ']' :: rest)) :
    items? (fuel + 1) cs = some ([d], rest) := by
  simp [items?, skipSpace_cons, isSpace, h]

theorem items?_more (h : value? fuel cs = some (d, ',' :: cs'))
    (hr : items? fuel cs' = some (ds, rest)) : items? (fuel + 1) cs = some (d :: ds, rest) := by
  simp [items?, skipSpace_cons, isSpace, h, hr]

theorem members?_last (hk : text? cs = some (key, ':' :: cs'))
    (h : value? fuel cs' = some (d, '\x7d' :: rest)) :
    members? (fuel + 1) ('"' :: cs) = some ([(key, d)], rest) := by
  simp [members?, skipSpace_cons, isSpace, hk, h]

theorem members?_more {cs'' : List Char} (hk : text? cs = some (key, ':' :: cs'))
    (h : value? fuel cs' = some (d, ',' :: cs'')) (hr : members? fuel cs'' = some (members, rest)) :
    members? (fuel + 1) ('"' :: cs) = some ((key, d) :: members, rest) := by
  simp [members?, skipSpace_cons, isSpace, hk, h, hr]

end

end Reader

namespace Value

mutual

-- The document of a value without numbers that are no integers.
def document : Value → Document
  | null => .null
  | bool b => .bool b
  | int n => .number (.integer (n < 0) n.natAbs)
  | float _ => .null
  | string s => .text (some s)
  | array items => .list (itemDocuments items)
  | object members => .record (memberDocuments members)

def itemDocuments : List Value → List Document
  | [] => []
  | v :: rest => v.document :: itemDocuments rest

def memberDocuments : List (String × Value) → List (Option String × Document)
  | [] => []
  | (k, v) :: rest => (some k, v.document) :: memberDocuments rest

end

theorem itemDocuments_eq_map (vs : List Value) : itemDocuments vs = vs.map document := by
  induction vs
  case nil => rfl
  case cons v vs hi => rw [itemDocuments, hi, List.map_cons]

theorem memberDocuments_eq_map (members : List (String × Value)) :
    memberDocuments members = members.map fun m => (some m.1, m.2.document) := by
  induction members
  case nil => rfl
  case cons m members hi => rw [memberDocuments, hi, List.map_cons]

theorem compactItems_eq_map (vs : List Value) : compactItems vs = vs.map compact := by
  induction vs
  case nil => rfl
  case cons v vs hi => rw [compactItems, hi, List.map_cons]

def memberText (m : String × Value) : String :=
  quoted m.1 ++ ":" ++ m.2.compact

theorem compactMembers_eq_map (members : List (String × Value)) :
    compactMembers members = members.map memberText := by
  induction members
  case nil => rfl
  case cons m members hi => rw [compactMembers, hi, List.map_cons, memberText]

-- All numbers are integers of 64 bits, with or without sign, and at most `depth` arrays and objects
-- stand within each other.
inductive Exact : Nat → Value → Prop
  | null {depth : Nat} : Exact depth null
  | bool {depth : Nat} (b : Bool) : Exact depth (bool b)
  | int {depth : Nat} {n : Int} (h : Bounds.minInt64 ≤ n ∧ n ≤ Bounds.maxNat64) :
    Exact depth (int n)
  | string {depth : Nat} (s : String) : Exact depth (string s)
  | array {depth : Nat} {items : List Value} (h : ∀ v ∈ items, Exact depth v) :
    Exact (depth + 1) (array items)
  | object {depth : Nat} {members : List (String × Value)} (h : ∀ m ∈ members, Exact depth m.2) :
    Exact (depth + 1) (object members)

open Reader

variable {v : Value} {depth : Nat}

theorem toList_compact_string (s : String) :
    (string s).compact.toList = '"' :: (s.toList.flatMap escaped ++ ['"']) := by
  simp [compact, leaf, quoted]

theorem toList_compact_array (items : List Value) : (array items).compact.toList =
    '[' :: ((String.intercalate "," (items.map compact)).toList ++ [']']) := by
  simp [compact, compactItems_eq_map]

theorem toList_memberText (m : String × Value) : (memberText m).toList =
    '"' :: (m.1.toList.flatMap escaped ++ '"' :: ':' :: m.2.compact.toList) := by
  simp [memberText, quoted]

theorem toList_compact_object (members : List (String × Value)) :
    (object members).compact.toList =
      '\x7b' :: ((String.intercalate "," (members.map memberText)).toList ++ ['\x7d']) := by
  simp [compact, compactMembers_eq_map]

theorem toList_intercalate_cons_cons (s t : String) (ss : List String) :
    (String.intercalate "," (s :: t :: ss)).toList =
      s.toList ++ ',' :: (String.intercalate "," (t :: ss)).toList := by
  simp [String.intercalate_cons_cons]

theorem toList_compact_int (n : Int) : (int n).compact.toList =
    (if n < 0 then ['-'] else []) ++ Nat.toDigits 10 n.natAbs := by
  cases n
  case ofNat n => simp [compact, leaf, Int.toString_eq_repr, Int.repr, Nat.repr_eq_ofList_toDigits]
  case negSucc n =>
    simp [compact, leaf, Int.toString_eq_repr, Int.repr, Nat.repr_eq_ofList_toDigits,
      Int.negSucc_lt_zero]

theorem opens_int (n : Int) :
    ∃ c cs, (int n).compact.toList = c :: cs ∧ (c = '-' ∨ c.isDigit) := by
  have ⟨c, cs, hc⟩ := List.exists_cons_of_ne_nil (Nat.toDigits_ne_nil (n := n.natAbs) (b := 10))
  rw [toList_compact_int]
  by_cases hn : n < 0
  case pos => exact ⟨'-', c :: cs, by simp [hn, hc], .inl rfl⟩
  case neg =>
    have hm : c ∈ Nat.toDigits 10 n.natAbs := hc ▸ .head cs
    exact ⟨c, cs, by simp [hn, hc], .inr (Nat.isDigit_of_mem_toDigits (by decide) (by decide) hm)⟩

theorem opens_compact (h : v.Exact depth) (rest : List Char) :
    Opens ']' (v.compact.toList ++ rest) := by
  cases h
  case null => exact ⟨_, _, rfl, by decide, by decide⟩
  case bool b => cases b <;> exact ⟨_, _, rfl, by decide, by decide⟩
  case int n h =>
    obtain ⟨c, cs, hc, hd⟩ := opens_int n
    refine ⟨c, cs ++ rest, by rw [hc, List.cons_append], isSpace_eq_false hd, ?_⟩
    rintro rfl
    exact absurd hd (by decide)
  case string s =>
    rw [toList_compact_string]
    exact ⟨_, _, rfl, by decide, by decide⟩
  case array items h =>
    rw [toList_compact_array]
    exact ⟨_, _, rfl, by decide, by decide⟩
  case object members h =>
    rw [toList_compact_object]
    exact ⟨_, _, rfl, by decide, by decide⟩

theorem opens_memberText (m : String × Value) (rest : List Char) :
    Opens '\x7d' ((memberText m).toList ++ rest) := by
  rw [toList_memberText]
  exact ⟨_, _, rfl, by decide, by decide⟩

theorem opens_intercalate {close : Char} {s : String}
    (h : ∀ rest, Opens close (s.toList ++ rest)) (ss : List String) (rest : List Char) :
    Opens close ((String.intercalate "," (s :: ss)).toList ++ rest) := by
  cases ss
  case nil =>
    rw [String.intercalate_singleton]
    exact h rest
  case cons t ss =>
    rw [toList_intercalate_cons_cons, List.append_assoc]
    exact h _

-- A value is read from its text, with as many steps as this has characters.
def Recurs (v : Value) : Prop :=
  ∀ fuel rest, v.compact.toList.length ≤ fuel → Closed rest →
    value? fuel (v.compact.toList ++ rest) = some (v.document, rest)

theorem items?_compact {vs : List Value} (hne : vs ≠ []) (h : ∀ v ∈ vs, v.Recurs) (fuel : Nat)
    (hl : (String.intercalate "," (vs.map compact)).toList.length < fuel) (rest : List Char) :
    items? fuel ((String.intercalate "," (vs.map compact)).toList ++ ']' :: rest) =
      some (vs.map document, rest) := by
  induction vs generalizing fuel
  case nil => exact absurd rfl hne
  case cons v vs hi =>
    have ⟨hv, hvs⟩ := List.forall_mem_cons.mp h
    cases fuel
    case zero => cases hl
    case succ fuel =>
      cases vs
      case nil =>
        simp only [List.map_cons, List.map_nil, String.intercalate_singleton] at hl ⊢
        exact items?_last (hv _ _ (by omega) (by simp [Closed]))
      case cons w vs =>
        have hi := hi (List.cons_ne_nil w vs) hvs fuel
        simp only [List.map_cons, toList_intercalate_cons_cons, List.append_assoc,
          List.length_append, List.length_cons, List.cons_append] at hl hi ⊢
        exact items?_more (hv _ _ (by omega) (by simp [Closed])) (hi (by omega))

theorem members?_compact {members : List (String × Value)} (hne : members ≠ [])
    (h : ∀ m ∈ members, m.2.Recurs) (fuel : Nat)
    (hl : (String.intercalate "," (members.map memberText)).toList.length < fuel)
    (rest : List Char) :
    members? fuel ((String.intercalate "," (members.map memberText)).toList ++ '\x7d' :: rest) =
      some (members.map fun m => (some m.1, m.2.document), rest) := by
  induction members generalizing fuel
  case nil => exact absurd rfl hne
  case cons m members hi =>
    have ⟨hm, hms⟩ := List.forall_mem_cons.mp h
    have hlm : m.2.compact.toList.length ≤ (memberText m).toList.length := by
      simp only [memberText, String.toList_append, List.length_append]
      omega
    have hk (cs : List Char) : text? (m.1.toList.flatMap escaped ++ '"' :: ':' :: cs) =
        some (some m.1, ':' :: cs) := text?_escaped m.1 (':' :: cs)
    cases fuel
    case zero => cases hl
    case succ fuel =>
      cases members
      case nil =>
        simp only [List.map_cons, List.map_nil, String.intercalate_singleton] at hl ⊢
        simp only [toList_memberText, List.cons_append, List.append_assoc]
        exact members?_last (hk _) (hm _ _ (by omega) (by simp [Closed]))
      case cons m' members =>
        have hi := hi (List.cons_ne_nil m' members) hms fuel
        simp only [List.map_cons, toList_intercalate_cons_cons, List.length_append,
          List.length_cons] at hl hi ⊢
        simp only [toList_memberText, List.cons_append, List.append_assoc]
        exact members?_more (hk _) (hm _ _ (by omega) (by simp [Closed])) (hi (by omega))

theorem Exact.recurs (h : v.Exact depth) : v.Recurs := by
  induction h
  all_goals
    intro fuel rest hl hr
    obtain _ | fuel := fuel
  case null.succ => simp [compact, leaf, document, value?, skipSpace_cons, isSpace, Reader.word?]
  case bool.succ b =>
    cases b <;> simp [compact, leaf, document, value?, skipSpace_cons, isSpace, Reader.word?]
  case int.succ n h =>
    obtain ⟨c, cs, hc, hd⟩ := opens_int n
    have hn := number?_integer (n < 0) n.natAbs hr
    rw [hc, List.cons_append]
    refine value?_number hd ?_
    rw [← List.cons_append, ← hc, toList_compact_int, List.append_assoc]
    simpa [document] using hn
  case string.succ s =>
    rw [toList_compact_string, List.cons_append, List.append_assoc]
    exact value?_text (text?_escaped s rest)
  case array.succ items he hi =>
    rw [toList_compact_array, List.length_cons, List.length_append, List.length_singleton] at hl
    rw [toList_compact_array, List.cons_append, List.append_assoc, document, itemDocuments_eq_map]
    cases items
    case nil => simp [value?, skipSpace_cons, isSpace]
    case cons v vs =>
      refine value?_list (opens_intercalate (opens_compact (he v (.head vs))) _ _) ?_
      exact items?_compact (List.cons_ne_nil v vs) hi fuel (by omega) rest
  case object.succ members he hi =>
    rw [toList_compact_object, List.length_cons, List.length_append, List.length_singleton] at hl
    rw [toList_compact_object, List.cons_append, List.append_assoc, document,
      memberDocuments_eq_map]
    cases members
    case nil => simp [value?, skipSpace_cons, isSpace]
    case cons m members =>
      refine value?_record (opens_intercalate (opens_memberText m) _ _) ?_
      exact members?_compact (List.cons_ne_nil m members) hi fuel (by omega) rest
  case int.zero n _ =>
    obtain ⟨c, cs, hc, -⟩ := opens_int n
    simp [hc] at hl
  case bool.zero b => cases b <;> simp [compact, leaf] at hl
  all_goals simp [compact, leaf, quoted] at hl

-- The text of a value on one line is read as the document of the value.
theorem Exact.document?_compact (h : v.Exact depth) :
    Document.read? v.compact = some v.document := by
  have hr := h.recurs (v.compact.toList.length + 1) [] (Nat.le_succ _) nofun
  rw [List.append_nil] at hr
  simp [Document.read?, hr, skipSpace]

theorem sortedItems_eq_map (vs : List Value) : sortedItems vs = vs.map sorted := by
  induction vs
  case nil => rfl
  case cons v vs hi => rw [sortedItems, hi, List.map_cons]

theorem sortedMembers_eq_map (members : List (String × Value)) :
    sortedMembers members = members.map fun m => (m.1, m.2.sorted) := by
  induction members
  case nil => rfl
  case cons m members hi => rw [sortedMembers, hi, List.map_cons]

-- Reading what was written gives the value with the members in order.
theorem Exact.toValue?_document (h : v.Exact depth) :
    v.document.toValue? depth = some v.sorted := by
  induction h
  case null | bool | string => rfl
  case int n h => exact Numeral.toValue?_integer h
  case array depth items _ hi =>
    have hv : Document.itemsToValues? depth (itemDocuments items) = some (sortedItems items) := by
      rw [Document.itemsToValues?_eq_mapM, itemDocuments_eq_map, sortedItems_eq_map,
        mapM_eq_some_iff, List.forall₂_map_left_iff, List.forall₂_map_right_iff,
        List.forall₂_same]
      exact hi
    rw [document, Document.toValue?, hv, sorted, Option.map_some]
  case object depth members _ hi =>
    have hm := Document.membersToValues?_eq_mapM (k := depth)
      (members.map fun m => (m.1, m.2.document))
    rw [List.map_map] at hm
    have hv : Document.membersToValues? depth (memberDocuments members) =
        some (sortedMembers members) := by
      rw [memberDocuments_eq_map, sortedMembers_eq_map]
      refine hm.trans ?_
      rw [mapM_eq_some_iff, List.forall₂_map_left_iff, List.forall₂_map_right_iff,
        List.forall₂_same]
      exact fun m hm => by rw [hi m hm, Option.map_some]
    rw [document, Document.toValue?, hv, sorted, Option.map_some]

theorem Exact.read?_compact (h : v.Exact Document.depthLimit) :
    Value.read? v.compact = some v.sorted := by
  rw [Value.read?, h.document?_compact, Option.bind_some, h.toValue?_document]

def HasDocument (v : Value) (d : Document) : Prop :=
  (∃ depth, v.Exact depth) ∧ d = v.document

theorem translates_hasDocument : Translates HasDocument where
  scalar := by
    rintro w _ v ⟨⟨depth, he⟩, rfl⟩ ⟨hs, rfl⟩
    cases he
    case int n he => exact Numeral.toValue?_integer he
    case array | object => cases hs
    all_goals rfl
  items := by
    rintro _ _ items ⟨⟨_, he⟩, rfl⟩ rfl
    cases he
    case array depth he =>
      refine ⟨items.map document, congrArg _ (itemDocuments_eq_map items), ?_⟩
      rw [List.forall₂_map_right_iff, List.forall₂_same]
      exact fun v hv => ⟨⟨depth, he v hv⟩, rfl⟩
  members := by
    rintro _ _ given ⟨⟨_, he⟩, rfl⟩ rfl
    cases he
    case object depth he =>
      have hr : Assoc.Related (fun _ => HasDocument) given
          (given.map fun m => (m.1, m.2.document)) := by
        refine List.forall₂_map_right_iff.mpr (List.forall₂_same.mpr fun m hm => ?_)
        exact ⟨rfl, ⟨depth, he m hm⟩, rfl⟩
      refine ⟨_, ?_, fun p hn => ⟨(hr.filter p).keys_eq ▸ hn, fun n _ => hr.lookup n⟩⟩
      refine congrArg _ ((memberDocuments_eq_map given).trans ?_)
      rw [List.map_map]
      rfl

end Value
end LinkedCache.Json
