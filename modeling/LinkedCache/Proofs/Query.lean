import LinkedCache.Proofs.Path

-- What queries mean: all of their words, each on its own. A word for an attribute asks for the text
-- of the value that its path leads to.

namespace LinkedCache

namespace Text

variable {x : Char} {s t b w : String}

def chunks (cs : List Char) : List (List Char) :=
  (cs.splitOnP isBlank).filter (!·.isEmpty)

theorem chunks_append_cons (as bs : List Char) (hx : isBlank x) :
    chunks (as ++ x :: bs) = chunks as ++ chunks bs := by
  rw [chunks, List.splitOnP_append_cons as bs hx, List.filter_append, chunks, chunks]

theorem chunks_append_of_blank {as : List Char} (bs : List Char) (h : ∀ c ∈ as, isBlank c) :
    chunks (as ++ bs) = chunks bs := by
  induction as
  case nil => rfl
  case cons a as hi =>
    have ⟨ha, has⟩ := List.forall_mem_cons.mp h
    calc chunks (a :: as ++ bs)
      _ = chunks [] ++ chunks (as ++ bs) := chunks_append_cons [] _ ha
      _ = chunks bs := hi has

theorem words_append (s t : String) (hn : b ≠ "") (hb : ∀ c ∈ b.toList, isBlank c) :
    words (s ++ b ++ t) = words s ++ words t := by
  have ⟨x, bs, hx⟩ := List.exists_cons_of_ne_nil (mt String.toList_eq_nil_iff.mp hn)
  rw [hx, List.forall_mem_cons] at hb
  have hl : (s ++ b ++ t).toList = s.toList ++ x :: (bs ++ t.toList) := by simp [hx]
  have hc : chunks (s ++ b ++ t).toList = chunks s.toList ++ chunks t.toList := by
    rw [hl, chunks_append_cons _ _ hb.1, chunks_append_of_blank _ hb.2]
  exact (congrArg (·.map String.ofList) hc).trans List.map_append

theorem words_of_unbroken (hn : w ≠ "") (h : ∀ c ∈ w.toList, isBlank c = false) :
    words w = [w] := by
  simp [words, List.splitOnP_eq_singleton h, hn]

-- A word is not broken any further.
theorem words_of_mem (h : w ∈ words s) : words w = [w] := by
  obtain ⟨cs, hcs, rfl⟩ := List.mem_map.mp h
  have ⟨hp, hne⟩ := List.mem_filter.mp hcs
  refine words_of_unbroken (by simpa using hne) ?_
  rw [String.toList_ofList]
  exact forall_mem_piece hp

theorem isBlank_eq_false_of_all (h : s.toList.all (!isBlank ·)) :
    ∀ c ∈ s.toList, isBlank c = false := by
  simpa using h

theorem not_isBlank_of_isDigit (h : x.isDigit) : isBlank x = false := by
  have hx : 48 ≤ x.toNat ∧ x.toNat ≤ 57 := by
    simpa [Char.isDigit, UInt32.le_iff_toNat_le] using h
  simp [isBlank]
  omega

end Text

namespace Term

variable {r : Resource} {path text : String} {v : Json.Value}

-- What a value is compared to: a text as it is, a number or a truth value as it is written.
inductive Spells : Json.Value → String → Prop
  | string {s} : Spells (.string s) s
  | int {n} : Spells (.int n) (toString n)
  | float {x} : Spells (.float x) (Decimal.write x)
  | true : Spells (.bool true) "true"
  | false : Spells (.bool false) "false"

theorem text?_eq_some_iff : text? v = some text ↔ Spells v text := by
  constructor
  case mp =>
    intro h
    cases v
    case bool b => cases b <;> cases h <;> constructor
    all_goals cases h <;> constructor
  case mpr =>
    intro h
    cases h <;> rfl

theorem holds_value_iff :
    (value path text).holds r ↔ ∃ v, r.onPath? path = some v ∧ Spells v text := by
  simp [holds, Option.bind_eq_some_iff, text?_eq_some_iff]

-- The path ends at the first equals sign, and the text may have more of them.
theorem ofWord_field (text : String) (hp : '=' ∉ path.toList) (hn : path ≠ "") :
    ofWord ("field:" ++ path ++ "=" ++ text) = value path text := by
  have hv : value? ("field:" ++ path ++ "=" ++ text) = some (value path text) := by
    have hcut := Text.cut?_append "=" text hp rfl
    rw [value?, String.append_assoc, String.append_assoc, Text.after?_append, ← String.append_assoc]
    simp [hcut, hn]
  rw [ofWord, hv, Option.some_or, Option.getD_some]

end Term

namespace Query

variable {r : Resource} {q text w : String} {steps : List Step}

theorem holds_parse_iff :
    (parse q).holds r ↔ ∀ w ∈ Text.words q, (Term.ofWord w).holds r := by
  simp [parse, holds]

theorem holds_parse_word (h : Text.words w = [w]) :
    (parse w).holds r ↔ (Term.ofWord w).holds r := by
  rw [holds_parse_iff, h, List.forall_mem_singleton]

theorem holds_words_iff : (parse q).holds r ↔ ∀ w ∈ Text.words q, (parse w).holds r := by
  rw [holds_parse_iff]
  exact forall₂_congr fun w hw => (holds_parse_word (Text.words_of_mem hw)).symm

-- The query for the attribute on a path.
def field (steps : List Step) (text : String) : String :=
  "field:" ++ Step.path steps ++ "=" ++ text

theorem words_field (hp : ∀ step ∈ steps, step.Plain)
    (ht : ∀ c ∈ text.toList, Text.isBlank c = false) :
    Text.words (field steps text) = [field steps text] := by
  have hstart : ∀ c ∈ "field:".toList, Text.isBlank c = false :=
    Text.isBlank_eq_false_of_all (by decide)
  have hpath : ∀ c ∈ (Step.path steps).toList, Text.isBlank c = false := by
    refine Step.forall_mem_path (by decide) fun step hs => ?_
    exact Step.forall_mem_text (hp step hs).blanks (by decide) (by decide)
      fun c => Text.not_isBlank_of_isDigit
  refine Text.words_of_unbroken (by simp [field]) fun c hc => ?_
  simp only [field, String.toList_append, List.mem_append] at hc
  obtain ((hc | hc) | hc) | hc := hc
  · exact hstart c hc
  · exact hpath c hc
  · exact List.mem_singleton.mp hc ▸ rfl
  · exact ht c hc

theorem holds_field_iff (hn : steps ≠ []) (hp : ∀ step ∈ steps, step.Plain)
    (ht : ∀ c ∈ text.toList, Text.isBlank c = false) : (parse (field steps text)).holds r ↔
      ∃ v, Step.Leads steps (.object r.attributes) v ∧ Term.Spells v text := by
  have hequals : '=' ∉ (Step.path steps).toList := by
    intro hm
    refine Step.forall_mem_path (p := (· ≠ '=')) (by decide) (fun step hs c hc he => ?_) _ hm rfl
    exact (hp step hs).not_mem_text (.inr he) hc
  rw [holds_parse_word (words_field hp ht), field,
    Term.ofWord_field text hequals (Step.path_ne_empty hp hn), Term.holds_value_iff]
  simp only [Resource.onPath?_path_eq_some_iff hp hn]

-- A query asks for each of its words, so that two queries in a row ask for what both ask for, and
-- only the set of words counts. A word for the attribute on a path asks for a value with the text
-- where the path leads. There is none if a step of the path gets stuck, and cutting the text of a
-- path at bytes does not fail, whatever the text is.
theorem holds_words_and_paths :
    (∀ q r, (parse q).holds r ↔ ∀ w ∈ Text.words q, (parse w).holds r) ∧
    (∀ q b q' r, b ≠ "" → (∀ c ∈ b.toList, Text.isBlank c) →
      ((parse (q ++ b ++ q')).holds r ↔ (parse q).holds r ∧ (parse q').holds r)) ∧
    (∀ q q' r, (∀ w, w ∈ Text.words q ↔ w ∈ Text.words q') →
      (parse q).holds r = (parse q').holds r) ∧
    (∀ steps text r, steps ≠ [] → (∀ step ∈ steps, step.Plain) →
      (∀ c ∈ text.toList, Text.isBlank c = false) → ((parse (field steps text)).holds r ↔
        ∃ v, Step.Leads steps (.object r.attributes) v ∧ Term.Spells v text)) ∧
    (∀ before step after u text r, (∀ s ∈ before ++ step :: after, s.Plain) →
      (∀ c ∈ text.toList, Text.isBlank c = false) →
      Step.Leads before (.object r.attributes) u → step.Stuck u →
      ¬(parse (field (before ++ step :: after) text)).holds r) ∧
    ∀ (r : Resource) (path : String), r.onPathBytes? path = some (r.onPath? path) := by
  refine ⟨fun _ _ => holds_words_iff, fun q b q' r hn hb => ?_, fun q q' r h => ?_,
    fun steps text r hn hp ht => holds_field_iff hn hp ht,
    fun before step after u text r hp ht hl hs => ?_, Resource.onPathBytes?_eq⟩
  case refine_1 =>
    simp only [holds_parse_iff, Text.words_append q q' hn hb, List.forall_mem_append]
  case refine_2 =>
    rw [Bool.eq_iff_iff, holds_parse_iff, holds_parse_iff]
    simp only [h]
  case refine_3 =>
    rw [holds_field_iff (by simp) hp ht]
    exact fun ⟨_, hv, _⟩ => hs.not_leads hl hv

-- An attribute in an array, asked for by a word of its own, by one for an item that is not there,
-- and together with a piece of a name.
theorem holds_words_and_paths_contacts :
    let r : Resource := { attributes := [
      ("contacts", .array [.object [("email", .string "kari@x.no")]]),
      ("name", .string "Kari Nordmann")] }
    let email (i : Nat) : List Step := [⟨"contacts", some i⟩, ⟨"email", none⟩]
    field (email 0) "kari@x.no" = "field:contacts[0].email=kari@x.no" ∧
      (parse (field (email 0) "kari@x.no")).holds r ∧
      ¬(parse (field (email 1) "kari@x.no")).holds r ∧
      (parse ("nordmann" ++ " " ++ field (email 0) "kari@x.no")).holds r := by
  intro r email
  have ⟨_, hboth, _, hfield, hstuck, _⟩ := holds_words_and_paths
  have ht : ∀ c ∈ "kari@x.no".toList, Text.isBlank c = false :=
    Text.isBlank_eq_false_of_all (by decide)
  have hr : (parse (field (email 0) "kari@x.no")).holds r := by
    refine (hfield (email 0) _ r (List.cons_ne_nil _ _) (by decide) ht).mpr ?_
    exact ⟨_, .step (.item rfl (by decide) rfl) (.step (.member rfl) .here), .string⟩
  refine ⟨by decide +kernel, hr, ?_, ?_⟩
  · exact hstuck [] _ _ _ _ r (by decide) ht .here (.noItem rfl (by decide))
  · exact (hboth _ _ _ _ (by decide) (List.all_eq_true.mp (by decide))).mpr ⟨by decide +kernel, hr⟩

end Query
end LinkedCache
