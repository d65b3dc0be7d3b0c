import Mathlib.Data.List.Forall2
import LinkedCache.Query
import LinkedCache.Proofs.Text

-- Paths into the attributes of a resource. A path that is spelled from keys and positions leads
-- where following them one by one leads, and every path is cut between characters.

namespace LinkedCache

namespace Text

variable {c x : Char}

theorem toList_toString (n : Nat) : (toString n).toList = Nat.toDigits 10 n := by
  rw [Nat.toString_eq_repr, Nat.repr_eq_ofList_toDigits, String.toList_ofList]

theorem isDigit_of_mem_toString {n : Nat} (h : c ∈ (toString n).toList) : c.isDigit :=
  Nat.isDigit_of_mem_toDigits (by decide) (by decide) (toList_toString n ▸ h)

theorem not_mem_toString {n : Nat} (h : x.isDigit = false) : x ∉ (toString n).toList := by
  intro hm
  rw [isDigit_of_mem_toString hm] at h
  cases h

theorem decimal?_toDigits (n : Nat) : decimal? (Nat.toDigits 10 n) = some n := by
  have hd : (Nat.toDigits 10 n).all Char.isDigit :=
    List.all_eq_true.mpr fun c => Nat.isDigit_of_mem_toDigits (by decide) (by decide)
  have hn : (Nat.toDigits 10 n).foldl (fun n c => 10 * n + (c.toNat - '0'.toNat)) 0 = n :=
    Nat.ofDigitChars_eq_foldl.symm.trans Nat.ofDigitChars_ten_toDigits
  rw [decimal?, if_neg (by simp [Nat.toDigits_ne_nil]), if_pos hd, hn]

theorem natural?_toString (limit n : Nat) :
    natural? limit (toString n) = if n ≤ limit then some n else none := by
  have hp : '+' ∉ (toString n).toList := not_mem_toString (by decide)
  unfold natural?
  rw [toList_toString] at hp ⊢
  split
  case h_1 hs => exact absurd (hs ▸ List.mem_cons_self) hp
  case h_2 => simp [decimal?_toDigits, Option.filter_some]

theorem after?_append (start s : String) : after? start (start ++ s) = some s := by
  have hp : start.toList.isPrefixOf (start ++ s).toList := by simp
  rw [after?, if_pos hp, String.toList_append, List.drop_left, String.ofList_toList]

end Text

namespace Step

-- A step takes an object to the member under its key, and to an item of it if it gives a position.
-- Positions have 64 bits, and no array goes beyond them.
inductive Takes : Step → Json.Value → Json.Value → Prop
  | member {key members w} (hw : members.lookup key = some w) :
    Takes ⟨key, none⟩ (.object members) w
  | item {key i members items w} (hm : members.lookup key = some (.array items))
    (hi : i ≤ Bounds.maxNat64) (hw : items[i]? = some w) :
    Takes ⟨key, some i⟩ (.object members) w

inductive Leads : List Step → Json.Value → Json.Value → Prop
  | here {v} : Leads [] v v
  | step {step steps v u w} (h : Takes step v u) (hs : Leads steps u w) : Leads (step :: steps) v w

-- Where a step does not get on.
inductive Stuck : Step → Json.Value → Prop
  | noObject {step v} (h : ∀ members, v ≠ .object members) : Stuck step v
  | noMember {step members} (h : members.lookup step.key = none) : Stuck step (.object members)
  | noArray {key i members u} (hu : members.lookup key = some u) (h : ∀ items, u ≠ .array items) :
    Stuck ⟨key, some i⟩ (.object members)
  | noItem {key i members items} (hm : members.lookup key = some (.array items))
    (h : items.length ≤ i) : Stuck ⟨key, some i⟩ (.object members)

-- The key of the step stands in a path as it is.
structure Plain (step : Step) : Prop where
  nonempty : step.key ≠ ""
  marks : ∀ c ∈ step.key.toList, c ≠ '.' ∧ c ≠ '[' ∧ c ≠ '='
  blanks : ∀ c ∈ step.key.toList, Text.isBlank c = false

theorem plain_iff {step : Step} : step.Plain ↔ step.key ≠ "" ∧ step.key.toList.all fun c =>
    c != '.' && c != '[' && c != '=' && !Text.isBlank c := by
  simp only [List.all_eq_true, Bool.and_eq_true, bne_iff_ne, Bool.not_eq_true', and_assoc]
  constructor
  case mp =>
    intro ⟨hn, hm, hb⟩
    exact ⟨hn, fun c hc => ⟨(hm c hc).1, (hm c hc).2.1, (hm c hc).2.2, hb c hc⟩⟩
  case mpr =>
    intro ⟨hn, h⟩
    exact ⟨hn, fun c hc => ⟨(h c hc).1, (h c hc).2.1, (h c hc).2.2.1⟩, fun c hc => (h c hc).2.2.2⟩

instance : DecidablePred Plain :=
  fun _ => decidable_of_iff _ plain_iff.symm

def InRange (step : Step) : Prop :=
  ∀ i ∈ step.position, i ≤ Bounds.maxNat64

-- The step as a path spells it.
def text (step : Step) : String :=
  match step.position with
  | none => step.key
  | some i => step.key ++ "[" ++ toString i ++ "]"

def path (steps : List Step) : String :=
  String.intercalate "." (steps.map text)

variable {step step' : Step} {steps steps' : List Step} {s : String} {v u w : Json.Value}

theorem forall_mem_text {p : Char → Prop} (hkey : ∀ c ∈ step.key.toList, p c) (hopen : p '[')
    (hclose : p ']') (hdigit : ∀ c : Char, c.isDigit → p c) : ∀ c ∈ step.text.toList, p c := by
  obtain ⟨key, position⟩ := step
  cases position
  case none => exact hkey
  case some i =>
    intro c hc
    simp only [text, String.toList_append, List.mem_append] at hc
    obtain ((hc | hc) | hc) | hc := hc
    · exact hkey c hc
    · exact List.mem_singleton.mp hc ▸ hopen
    · exact hdigit c (Text.isDigit_of_mem_toString hc)
    · exact List.mem_singleton.mp hc ▸ hclose

-- The marks that cut a path, and a word for it.
theorem Plain.not_mem_text {x : Char} (h : step.Plain) (hx : x = '.' ∨ x = '=') :
    x ∉ step.text.toList := by
  refine fun hm => forall_mem_text (p := (· ≠ x)) (fun c hc he => ?_) ?_ ?_ ?_ x hm rfl
  · have ⟨hdot, _, hequals⟩ := h.marks c hc
    exact hx.elim (fun hx => hdot (he.trans hx)) fun hx => hequals (he.trans hx)
  · obtain rfl | rfl := hx <;> decide
  · obtain rfl | rfl := hx <;> decide
  · rintro _ hd rfl
    obtain rfl | rfl := hx <;> cases hd

theorem forall_mem_path {p : Char → Prop} (hdot : p '.')
    (h : ∀ step ∈ steps, ∀ c ∈ step.text.toList, p c) : ∀ c ∈ (path steps).toList, p c := by
  intro c hc
  obtain hc | ⟨_, hm, hc⟩ := Text.mem_intercalate hc
  · exact List.mem_singleton.mp hc ▸ hdot
  · obtain ⟨step, hs, rfl⟩ := List.mem_map.mp hm
    exact h step hs c hc

theorem Takes.inRange (h : step.Takes v w) : step.InRange := by
  cases h
  case member => exact fun _ hm => nomatch hm
  case item hi _ => exact fun _ hm => Option.mem_some.mp hm ▸ hi

theorem Leads.inRange (h : Leads steps v w) : ∀ step ∈ steps, step.InRange := by
  induction h
  case here => exact List.forall_mem_nil _
  case step h _ hi => exact List.forall_mem_cons.mpr ⟨h.inRange, hi⟩

theorem Takes.unique : step.Takes v w → step.Takes v u → w = u
  | .member hw, .member hu => Option.some.inj (hw.symm.trans hu)
  | .item hm _ hw, .item hm' _ hu => by
    cases hm.symm.trans hm'
    exact Option.some.inj (hw.symm.trans hu)

theorem Leads.unique (h : Leads steps v w) (h' : Leads steps v u) : w = u := by
  induction h
  case here =>
    cases h'
    rfl
  case step h _ hi =>
    cases h'
    case step h' hs' => exact hi (h'.unique h ▸ hs')

theorem leads_append_iff :
    Leads (steps ++ steps') v w ↔ ∃ u, Leads steps v u ∧ Leads steps' u w := by
  induction steps generalizing v
  case nil =>
    constructor
    case mp => exact fun h => ⟨v, .here, h⟩
    case mpr => exact fun ⟨_, .here, h⟩ => h
  case cons step steps hi =>
    constructor
    case mp =>
      rintro (_ | ⟨h, hs⟩)
      have ⟨u, hu, hw⟩ := hi.mp hs
      exact ⟨u, .step h hu, hw⟩
    case mpr =>
      rintro ⟨u, _ | ⟨h, hs⟩, hw⟩
      exact .step h (hi.mpr ⟨u, hs, hw⟩)

theorem Stuck.not_takes : step.Stuck v → ¬step.Takes v w
  | .noObject h, .member _ | .noObject h, .item _ _ _ => h _ rfl
  | .noMember h, .member hw => nomatch h.symm.trans hw
  | .noMember h, .item hm _ _ => nomatch h.symm.trans hm
  | .noArray hu h, .item hm _ _ => h _ (Option.some.inj (hu.symm.trans hm))
  | .noItem hm h, .item hm' _ hw => by
    cases hm.symm.trans hm'
    rw [List.getElem?_eq_none h] at hw
    cases hw

-- A path does not get past a step that is stuck.
theorem Stuck.not_leads {after : List Step} (h : step.Stuck u) (hs : Leads steps v u) :
    ¬Leads (steps ++ step :: after) v w := by
  intro hl
  have ⟨u', hu, ha⟩ := leads_append_iff.mp hl
  cases ha
  case step ht _ => exact h.not_takes (hs.unique hu ▸ ht)

theorem inRange_of_parse? (h : parse? s = some step) : step.InRange := by
  unfold parse? at h
  split at h
  case isTrue => cases h
  case isFalse =>
    split at h
    case h_1 =>
      cases h
      exact fun _ hm => nomatch hm
    case h_2 rest _ =>
      simp only [Option.bind_eq_bind, Option.bind_eq_some_iff] at h
      obtain ⟨⟨position, _⟩, _, n, hn, h⟩ := h
      cases h
      have hl := (Option.filter_eq_some_iff.mp hn).2
      simpa [InRange] using hl

theorem follow?_eq_some_iff (h : step.InRange) : step.follow? v = some w ↔ step.Takes v w := by
  obtain ⟨key, position⟩ := step
  unfold follow?
  rw [Option.bind_eq_bind, Option.bind_eq_some_iff]
  constructor
  case mp =>
    rintro ⟨u, hu, hw⟩
    cases v
    case object members =>
      cases position
      case none =>
        cases hw
        exact .member hu
      case some i =>
        cases u
        case array items => exact .item hu (h i rfl) hw
        all_goals cases hw
    all_goals cases hu
  case mpr =>
    rintro (hw | ⟨hm, _, hw⟩)
    · exact ⟨w, hw, rfl⟩
    · exact ⟨_, hm, hw⟩

-- A step is read from how it is spelled, unless its position is out of range.
theorem parse?_text_eq_some_iff (h : step.Plain) :
    parse? step.text = some step' ↔ step = step' ∧ step.InRange := by
  have hb : '[' ∉ step.key.toList := fun hm => (h.marks _ hm).2.1 rfl
  obtain ⟨key, position⟩ := step
  cases position
  case none =>
    have hk : key.isEmpty = false := by simpa using h.nonempty
    simp [text, parse?, hk, Text.cut?_eq_none_iff.mpr hb, InRange]
  case some i =>
    have hk : (key ++ "[" ++ toString i ++ "]").isEmpty = false := by simp
    have hopen : Text.cut? '[' (key ++ "[" ++ toString i ++ "]") =
        some (key, toString i ++ "]") := by
      rw [String.append_assoc]
      exact Text.cut?_append "[" _ hb rfl
    have hclose : Text.cut? ']' (toString i ++ "]") = some (toString i, "") := by
      have hc := Text.cut?_append "]" "" (Text.not_mem_toString (n := i) (by decide)) rfl
      rwa [String.append_empty] at hc
    simp only [text, parse?, hk, hopen, hclose, Text.natural?_toString, bind, Option.bind]
    by_cases hi : i ≤ Bounds.maxNat64 <;> simp [hi, InRange]

theorem forall₂_parse?_text (hp : ∀ step ∈ steps, step.Plain) :
    List.Forall₂ (fun s step => parse? s = some step) (steps.map text) steps' ↔
      steps = steps' ∧ ∀ step ∈ steps, step.InRange := by
  induction steps generalizing steps'
  case nil => simp [eq_comm]
  case cons step steps hi =>
    have ⟨hs, hp⟩ := List.forall_mem_cons.mp hp
    cases steps'
    case nil => simp
    case cons step' steps' =>
      rw [List.map_cons, List.forall₂_cons, parse?_text_eq_some_iff hs, hi hp, List.cons.injEq,
        List.forall_mem_cons, and_and_and_comm]

theorem foldlM_eq_some_iff {ss : List String} :
    ss.foldlM (fun v s => do (← parse? s).follow? v) v = some w ↔
      ∃ steps, List.Forall₂ (fun s step => parse? s = some step) ss steps ∧ Leads steps v w := by
  induction ss generalizing v
  case nil =>
    constructor
    case mp =>
      intro h
      cases h
      exact ⟨[], .nil, .here⟩
    case mpr =>
      rintro ⟨_, ⟨⟩, ⟨⟩⟩
      rfl
  case cons s ss hi =>
    rw [List.foldlM_cons, Option.bind_eq_bind, Option.bind_eq_some_iff]
    constructor
    case mp =>
      rintro ⟨u, hu, hw⟩
      have ⟨step, hs, hu⟩ := Option.bind_eq_some_iff.mp hu
      have ⟨steps, hss, hl⟩ := hi.mp hw
      exact ⟨step :: steps, .cons hs hss,
        .step ((follow?_eq_some_iff (inRange_of_parse? hs)).mp hu) hl⟩
    case mpr =>
      rintro ⟨_, _ | ⟨hs, hss⟩, hl⟩
      cases hl
      case step ht hl =>
        have hu := (follow?_eq_some_iff (inRange_of_parse? hs)).mpr ht
        exact ⟨_, Option.bind_eq_some_iff.mpr ⟨_, hs, hu⟩, hi.mpr ⟨_, hss, hl⟩⟩

theorem Plain.text_ne_empty (h : step.Plain) : step.text ≠ "" := by
  obtain ⟨key, position⟩ := step
  cases position
  case none => exact h.nonempty
  case some i => simp [text]

-- What is spelled between the dots of a path.
theorem pieces_path (hp : ∀ step ∈ steps, step.Plain) (hn : steps ≠ []) :
    Text.pieces '.' (path steps) = steps.map text := by
  refine Text.pieces_intercalate rfl ?_ (by simpa using hn)
  exact List.forall_mem_map.mpr fun step hm => (hp step hm).not_mem_text (.inl rfl)

theorem path_ne_empty (hp : ∀ step ∈ steps, step.Plain) (hn : steps ≠ []) : path steps ≠ "" := by
  intro he
  have hs := pieces_path hp hn
  rw [he] at hs
  have hm : "" ∈ steps.map text := hs ▸ .head _
  obtain ⟨step, hm, ht⟩ := List.mem_map.mp hm
  exact (hp step hm).text_ne_empty ht

end Step

namespace Resource

variable {r : Resource} {steps : List Step} {w : Json.Value}

-- Whatever the text of a path, it is followed if each of its pieces is a step, and there is
-- something where these lead.
theorem onPath?_eq_some_iff {path : String} : r.onPath? path = some w ↔
    ∃ steps, List.Forall₂ (fun s step => Step.parse? s = some step) (Text.pieces '.' path) steps ∧
      Step.Leads steps (.object r.attributes) w :=
  Step.foldlM_eq_some_iff

theorem onPath?_path_eq_some_iff (hp : ∀ step ∈ steps, step.Plain) (hn : steps ≠ []) :
    r.onPath? (Step.path steps) = some w ↔ Step.Leads steps (.object r.attributes) w := by
  rw [onPath?_eq_some_iff, Step.pieces_path hp hn]
  simp only [Step.forall₂_parse?_text hp]
  constructor
  case mp =>
    rintro ⟨_, ⟨rfl, _⟩, h⟩
    exact h
  case mpr => exact fun h => ⟨steps, ⟨rfl, h.inRange⟩, h⟩

end Resource

-- Cutting at bytes. A path is searched for its brackets byte by byte and cut where they are found,
-- which is an error inside a character. It does not occur, as the brackets are found at characters
-- and take one byte each.
section Bytes

namespace Text

variable {x : Char} {s t f v : String} {as bs cs : List Char}

-- How many bytes characters take.
def bytes : List Char → Nat
  | [] => 0
  | c :: cs => c.utf8Size + bytes cs

-- The byte at which a character is found first.
def find? (x : Char) : List Char → Option Nat
  | [] => none
  | c :: cs => if c = x then some 0 else (find? x cs).map (c.utf8Size + ·)

-- The characters before and after a byte, unless it is inside a character or behind the end.
def splitAt? : Nat → List Char → Option (List Char × List Char)
  | 0, cs => some ([], cs)
  | _ + 1, [] => none
  | n + 1, c :: cs =>
    if c.utf8Size ≤ n + 1 then
      (splitAt? (n + 1 - c.utf8Size) cs).map fun (before, after) => (c :: before, after)
    else none

-- The text between two bytes.
def slice? (start stop : Nat) (s : String) : Option String := do
  let (_, after) ← splitAt? start s.toList
  if start ≤ stop then
    let (middle, _) ← splitAt? (stop - start) after
    pure (String.ofList middle)
  else none

theorem bytes_append (as bs : List Char) : bytes (as ++ bs) = bytes as + bytes bs := by
  induction as
  case nil => exact (Nat.zero_add _).symm
  case cons a as hi => rw [List.cons_append, bytes, hi, bytes, Nat.add_assoc]

theorem find?_eq_none (h : x ∉ cs) : find? x cs = none := by
  induction cs
  case nil => rfl
  case cons c cs hi =>
    have ⟨hc, hcs⟩ := not_or.mp (mt List.mem_cons.mpr h)
    rw [find?, if_neg (Ne.symm hc), hi hcs, Option.map_none]

theorem find?_append (bs : List Char) (h : x ∉ as) : find? x (as ++ x :: bs) = some (bytes as) := by
  induction as
  case nil => exact if_pos rfl
  case cons a as hi =>
    have ⟨ha, has⟩ := not_or.mp (mt List.mem_cons.mpr h)
    rw [List.cons_append, find?, if_neg (Ne.symm ha), hi has]
    rfl

theorem splitAt?_append (as bs : List Char) :
    splitAt? (bytes as) (as ++ bs) = some (as, bs) := by
  induction as
  case nil => exact splitAt?.eq_1 bs
  case cons a as hi =>
    have hn : a.utf8Size + bytes as = a.utf8Size + bytes as - 1 + 1 := by
      have := a.utf8Size_pos
      omega
    rw [bytes, hn, List.cons_append, splitAt?, if_pos (by omega), ← hn, Nat.add_sub_cancel_left, hi]
    rfl

theorem slice?_append {start stop : Nat} (as cs : List Char)
    (hs : s.toList = as ++ t.toList ++ cs) (hstart : start = bytes as)
    (hstop : stop = start + bytes t.toList) : slice? start stop s = some t := by
  subst hstop hstart
  unfold slice?
  rw [hs, List.append_assoc, splitAt?_append]
  simp [splitAt?_append]

theorem find?_of_cut? (sep : String) (h : cut? x s = some (f, v)) (hsep : sep.toList = [x]) :
    find? x s.toList = some (bytes f.toList) := by
  have ⟨hs, hf⟩ := eq_of_cut? sep h hsep
  have hl : s.toList = f.toList ++ x :: v.toList := by simp [hs, hsep]
  rw [hl, find?_append _ hf]

theorem find?_of_cut?_eq_none (h : cut? x s = none) : find? x s.toList = none :=
  find?_eq_none (cut?_eq_none_iff.mp h)

end Text

open Text (bytes find? splitAt? slice?)

-- How a step is read from bytes. Where a cut fails there is no answer at all.
def Step.readBytes? (s : String) : Option (Option Step) :=
  if s.isEmpty then some none
  else match find? '[' s.toList with
    | none => some (some ⟨s, none⟩)
    | some start =>
      match splitAt? (start + 1) s.toList with
      | none => some none
      | some (_, rest) =>
        match find? ']' rest with
        | none => some none
        | some length => do
          let position ← slice? (start + 1) (length + start + 1) s
          match Text.natural? Bounds.maxNat64 position with
          | none => pure none
          | some i => pure (some ⟨← slice? 0 start s, some i⟩)

def Step.followBytes? : List String → Json.Value → Option (Option Json.Value)
  | [], v => some (some v)
  | s :: ss, v => do
    match ← readBytes? s with
    | none => pure none
    | some step =>
      match step.follow? v with
      | none => pure none
      | some w => followBytes? ss w

theorem Step.readBytes?_eq (s : String) : readBytes? s = some (parse? s) := by
  unfold readBytes? parse?
  split
  case isTrue => rfl
  case isFalse =>
    cases hopen : Text.cut? '[' s
    case none => rw [Text.find?_of_cut?_eq_none hopen]
    case some m =>
      obtain ⟨key, rest⟩ := m
      have hl : s.toList = key.toList ++ ['['] ++ rest.toList := by
        simp [(Text.eq_of_cut? "[" hopen rfl).1]
      have hb : bytes key.toList + 1 = bytes (key.toList ++ ['[']) :=
        (Text.bytes_append key.toList ['[']).symm
      have hsplit : splitAt? (bytes key.toList + 1) s.toList =
          some (key.toList ++ ['['], rest.toList) := by
        rw [hl, hb, Text.splitAt?_append]
      have hkey : slice? 0 (bytes key.toList) s = some key :=
        Text.slice?_append [] _ (hl.trans (List.append_assoc ..)) rfl (Nat.zero_add _).symm
      simp only [Text.find?_of_cut? "[" hopen rfl, hsplit]
      cases hclose : Text.cut? ']' rest
      case none =>
        rw [Text.find?_of_cut?_eq_none hclose]
        rfl
      case some m =>
        obtain ⟨position, after⟩ := m
        have hposition : slice? (bytes key.toList + 1)
            (bytes position.toList + bytes key.toList + 1) s = some position := by
          refine Text.slice?_append (key.toList ++ ['[']) (']' :: after.toList) ?_ hb ?_
          · simp [hl, (Text.eq_of_cut? "]" hclose rfl).1]
          · omega
        simp only [Text.find?_of_cut? "]" hclose rfl, hposition, hkey, bind, Option.bind, pure]
        cases Text.natural? Bounds.maxNat64 position <;> rfl

theorem Step.followBytes?_eq (ss : List String) (v : Json.Value) :
    followBytes? ss v = some (ss.foldlM (fun v s => do (← parse? s).follow? v) v) := by
  induction ss generalizing v
  case nil => rfl
  case cons s ss hi =>
    rw [followBytes?, readBytes?_eq, List.foldlM_cons]
    cases parse? s
    case none => rfl
    case some step =>
      cases hw : step.follow? v
      case none => simp [hw]
      case some w => simp [hw, hi]

-- The value on a path that is cut at bytes.
def Resource.onPathBytes? (r : Resource) (path : String) : Option (Option Json.Value) :=
  Step.followBytes? (Text.pieces '.' path) (.object r.attributes)

theorem Resource.onPathBytes?_eq (r : Resource) (path : String) :
    r.onPathBytes? path = some (r.onPath? path) :=
  Step.followBytes?_eq ..

end Bytes

end LinkedCache
