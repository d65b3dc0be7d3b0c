import LinkedCache.Descriptor
import LinkedCache.Proofs.Reading
import LinkedCache.Proofs.Text

-- Descriptors and their texts. A descriptor can be made of any three parts, but its text has three
-- parts only if none of them is empty or broken by a slash. Exactly then it is read back.

namespace LinkedCache

open Text (lower sameFolded Segment)

theorem isLE_total {α : Type} {cmp : α → α → Ordering} [Std.OrientedCmp cmp] (a b : α) :
    (cmp a b).isLE || (cmp b a).isLE := by
  have hswap : cmp b a = (cmp a b).swap := Std.OrientedCmp.eq_swap
  rw [hswap]
  cases cmp a b <;> rfl

namespace Descriptor

variable {d d' : Descriptor} {s domain package name : String}

theorem compare_eq_iff : d.compare d' = .eq ↔ d = d' := by
  unfold compare
  simp only [Ordering.then_eq_eq, Std.compare_eq_iff_eq]
  cases d
  cases d'
  simp

def Parsed (d : Descriptor) : Prop :=
  ∃ s, parse s = .ok d

-- The texts that are read: three parts, none of them empty.
def Readable (s : String) : Prop :=
  ∃ domain package name, Text.pieces '/' s = [domain, package, name] ∧
    ∀ p ∈ [domain, package, name], p ≠ ""

theorem parse_eq_ok_iff : parse s = .ok d ↔ ∃ domain package name,
    Text.pieces '/' s = [domain, package, name] ∧ (∀ p ∈ [domain, package, name], p ≠ "") ∧
      of domain package name = d := by
  unfold parse
  split
  case h_1 domain package name hp =>
    have he : (∀ p ∈ [domain, package, name], p ≠ "") ↔
        ¬(domain.isEmpty || package.isEmpty || name.isEmpty) := by
      simp [and_assoc]
    constructor
    case mp =>
      intro h
      split at h
      case isTrue => cases h
      case isFalse hn => exact ⟨domain, package, name, hp, he.mpr hn, Except.ok.inj h⟩
    case mpr =>
      rintro ⟨_, _, _, hq, hne, rfl⟩
      cases hp.symm.trans hq
      rw [if_neg (he.mp hne)]
  case h_2 hn =>
    constructor
    case mp => exact nofun
    case mpr => exact fun ⟨_, _, _, hp, _⟩ => absurd hp (hn _ _ _)

theorem exists_parse_iff : (∃ d, parse s = .ok d) ↔ Readable s := by
  simp only [parse_eq_ok_iff]
  constructor
  case mp => exact fun ⟨_, domain, package, name, hp, hne, _⟩ => ⟨domain, package, name, hp, hne⟩
  case mpr => exact fun ⟨domain, package, name, hp, hne⟩ => ⟨_, domain, package, name, hp, hne, rfl⟩

theorem text_of (domain package name : String) :
    (of domain package name).text = lower (domain ++ "/" ++ package ++ "/" ++ name) := by
  simp [text, of, String.append_assoc]

-- Reading does not change a text but for the case of its letters.
theorem text_of_parse (h : parse s = .ok d) : d.text = lower s := by
  have ⟨domain, package, name, hp, _, hd⟩ := parse_eq_ok_iff.mp h
  have hs : String.intercalate "/" [domain, package, name] = s :=
    hp ▸ Text.intercalate_pieces s rfl
  rw [← hd, ← hs, text_of]
  simp [String.append_assoc]

theorem pieces_text (d : Descriptor) : Text.pieces '/' d.text =
    Text.pieces '/' d.domain ++ Text.pieces '/' d.package ++ Text.pieces '/' d.name := by
  rw [text, Text.pieces_append _ _ rfl, Text.pieces_append _ _ rfl]

-- Each part is at least one piece of the text, so that three pieces are the parts themselves.
theorem pieces_text_eq_iff {p q r : String} : Text.pieces '/' d.text = [p, q, r] ↔
    (∀ s ∈ [d.domain, d.package, d.name], '/' ∉ s.toList) ∧
      [d.domain, d.package, d.name] = [p, q, r] := by
  constructor
  case mp =>
    intro h
    have ⟨p', ps, hp⟩ := List.exists_cons_of_ne_nil (Text.pieces_ne_nil '/' d.domain)
    have ⟨q', qs, hq⟩ := List.exists_cons_of_ne_nil (Text.pieces_ne_nil '/' d.package)
    have ⟨r', rs, hr⟩ := List.exists_cons_of_ne_nil (Text.pieces_ne_nil '/' d.name)
    rw [pieces_text, hp, hq, hr] at h
    have hl := congrArg List.length h
    simp only [List.length_append, List.length_cons, List.length_nil] at hl
    obtain ⟨rfl, rfl, rfl⟩ : ps = [] ∧ qs = [] ∧ rs = [] := by
      simp only [← List.length_eq_zero_iff]
      omega
    cases h
    obtain ⟨hd, rfl⟩ := Text.pieces_eq_singleton_iff.mp hp
    obtain ⟨hp, rfl⟩ := Text.pieces_eq_singleton_iff.mp hq
    obtain ⟨hn, rfl⟩ := Text.pieces_eq_singleton_iff.mp hr
    simp [hd, hp, hn]
  case mpr =>
    rintro ⟨hn, h⟩
    cases h
    simp only [List.forall_mem_cons] at hn
    rw [pieces_text, Text.pieces_eq_singleton hn.1, Text.pieces_eq_singleton hn.2.1,
      Text.pieces_eq_singleton hn.2.2.1]
    rfl

theorem parse_text_eq_ok_iff : parse d.text = .ok d' ↔
    (∀ p ∈ [d.domain, d.package, d.name], Segment p) ∧ of d.domain d.package d.name = d' := by
  simp only [parse_eq_ok_iff, pieces_text_eq_iff]
  constructor
  case mp =>
    rintro ⟨p, q, r, ⟨hn, he⟩, hne, hd⟩
    cases he
    exact ⟨fun s hs => ⟨hne s hs, hn s hs⟩, hd⟩
  case mpr =>
    rintro ⟨hs, hd⟩
    exact ⟨_, _, _, ⟨fun s hm => (hs s hm).unbroken, rfl⟩, fun s hm => (hs s hm).nonempty, hd⟩

theorem parse_text_of_eq_ok_iff : parse (of domain package name).text = .ok d ↔
    (∀ p ∈ [domain, package, name], Segment p) ∧ of domain package name = d := by
  simp [parse_text_eq_ok_iff, of, Text.segment_lower_iff]

-- Parsing reads back what a parsed descriptor is printed as.
theorem Parsed.parse_text (h : d.Parsed) : parse d.text = .ok d := by
  have ⟨s, hs⟩ := h
  have ⟨domain, package, name, hp, hne, hd⟩ := parse_eq_ok_iff.mp hs
  rw [← hd]
  exact parse_text_of_eq_ok_iff.mpr
    ⟨fun p hm => ⟨hne p hm, Text.not_mem_of_mem_pieces (hp ▸ hm)⟩, rfl⟩

theorem text_inj (h : d.Parsed) (h' : d'.Parsed) : d.text = d'.text ↔ d = d' := by
  constructor
  case mp =>
    intro he
    have hp := h.parse_text
    rw [he, h'.parse_text] at hp
    exact (Except.ok.inj hp).symm
  case mpr => exact congrArg text

theorem of_eq_of_iff {domain' package' name' : String} :
    of domain package name = of domain' package' name' ↔
      sameFolded domain domain' ∧ sameFolded package package' ∧ sameFolded name name' := by
  simp [of, Text.sameFolded_iff]

-- A way to show descriptors and to read them back: `form` shows a descriptor as `given` shows its
-- text. What is read are three parts that are not empty, and what is shown is the text in lower
-- case. Of the descriptors made of any parts, those are read back whose parts are not broken.
structure ReadsBack {α : Type} (given : String → α) (form : Descriptor → α)
    (read? : α → Option Descriptor) : Prop where
  accepts : ∀ s, (∃ d, read? (given s) = some d) ↔ Readable s
  folds : ∀ s d, read? (given s) = some d → form d = given (lower s) ∧ read? (form d) = some d
  restores : ∀ domain package name,
    read? (form (of domain package name)) = some (of domain package name) ↔
      ∀ p ∈ [domain, package, name], Segment p
  refuses : ∀ domain package name, (¬∀ p ∈ [domain, package, name], Segment p) →
    read? (form (of domain package name)) = none

theorem readsBack_of_eq {α : Type} {given : String → α} {form : Descriptor → α}
    {read? : α → Option Descriptor} (hform : ∀ d, form d = given d.text)
    (hread : ∀ s, read? (given s) = (parse s).toOption) : ReadsBack given form read? := by
  have hok (s : String) (d : Descriptor) : read? (given s) = some d ↔ parse s = .ok d := by
    rw [hread]
    cases parse s <;> simp [Except.toOption]
  refine ⟨fun s => ?_, fun s d h => ?_, fun domain package name => ?_,
    fun domain package name h => ?_⟩
  case refine_1 => simp only [hok, exists_parse_iff]
  case refine_2 =>
    have hp := (hok s d).mp h
    rw [hform, text_of_parse hp, hok, ← text_of_parse hp]
    exact ⟨rfl, Parsed.parse_text ⟨s, hp⟩⟩
  case refine_3 => rw [hform, hok, parse_text_of_eq_ok_iff, and_iff_left rfl]
  case refine_4 =>
    rw [hform, Option.eq_none_iff_forall_ne_some]
    exact fun d hd => h (parse_text_of_eq_ok_iff.mp ((hok _ d).mp hd)).1

theorem ofValue?_string (s : String) : ofValue? (.string s) = (parse s).toOption :=
  rfl

theorem read?_compact_string (s : String) :
    (Json.Value.read? (Json.Value.string s).compact).bind ofValue? = (parse s).toOption := by
  rw [(Json.Value.Exact.string s).read?_compact]
  rfl

-- A descriptor is read back from its text, from its value and from the text of this value, if and
-- only if its parts are neither empty nor broken. It is told apart from others by its parts in any
-- case, and by its text if it was read.
theorem readsBack_forms :
    ReadsBack id text (fun s => (parse s).toOption) ∧
    ReadsBack Json.Value.string toValue ofValue? ∧
    ReadsBack (fun s => (Json.Value.string s).compact) (fun d => d.toValue.compact)
      (fun t => (Json.Value.read? t).bind ofValue?) ∧
    (∀ domain package name domain' package' name',
      of domain package name = of domain' package' name' ↔
        sameFolded domain domain' ∧ sameFolded package package' ∧ sameFolded name name') ∧
    ∀ d d' : Descriptor, d.Parsed → d'.Parsed → (d = d' ↔ d.text = d'.text) :=
  ⟨readsBack_of_eq (fun _ => rfl) (fun _ => rfl), readsBack_of_eq (fun _ => rfl) ofValue?_string,
    readsBack_of_eq (fun _ => rfl) read?_compact_string, fun _ _ _ _ _ _ => of_eq_of_iff,
    fun _ _ h h' => (text_inj h h').symm⟩

-- A descriptor in several spellings, and one of three parts with the text of four.
theorem readsBack_forms_spelled :
    let d := of "School" "roster" "Ärzte"
    (parse "SCHOOL/Roster/Ärzte").toOption = some d ∧ d.text = lower "SCHOOL/Roster/Ärzte" ∧
      ofValue? d.toValue = some d ∧
      (Json.Value.read? (of "school/roster" "" "group").toValue.compact).bind ofValue? = none ∧
      d = of "SCHOOL" "ROSTER" "Ärzte" ∧ d.text ≠ (of "school" "roster" "ärzte").text := by
  intro d
  have ⟨htext, hvalue, hjson, hof, hinj⟩ := readsBack_forms
  have hd : parse "SCHOOL/Roster/Ärzte" = .ok d := by decide +kernel
  have hd' : parse "school/roster/ärzte" = .ok (of "school" "roster" "ärzte") := by
    decide +kernel
  have hread : (parse "SCHOOL/Roster/Ärzte").toOption = some d := by rw [hd]; rfl
  refine ⟨hread, (htext.folds _ _ hread).1, (hvalue.restores ..).mpr (by decide +kernel),
    hjson.refuses _ _ _ (by decide +kernel), (hof ..).mpr (by decide +kernel), fun he => ?_⟩
  exact absurd ((hinj _ _ ⟨_, hd⟩ ⟨_, hd'⟩).mpr he) (by decide +kernel)

end Descriptor
end LinkedCache
