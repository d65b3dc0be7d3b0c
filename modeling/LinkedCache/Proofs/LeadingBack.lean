import LinkedCache.Proofs.Derivation
import LinkedCache.Proofs.Scan

-- Where the link leads that is made of the first identity of a resource. It gives the identity back
-- if and only if field and value can stand between slashes. The first slash then ends the field, so
-- that a store with the resource resolves it.

namespace LinkedCache

open Text (lower Segment)

theorem Link.identity_lower_iff {f v : String} :
    Identity (lower (f ++ "/" ++ v)) ↔ Segment f ∧ Segment v := by
  constructor
  case mp =>
    intro h
    have ⟨f', v', he, hf, hv, _⟩ := h.segments
    rw [Text.lower_append, Text.lower_append, Text.lower_slash] at he
    obtain ⟨rfl, rfl⟩ := Text.append_slash_inj he hf.unbroken hv.unbroken
    exact ⟨Text.segment_lower_iff.mp hf, Text.segment_lower_iff.mp hv⟩
  case mpr => exact fun ⟨hf, hv⟩ => .intro hf hv

theorem Link.identityOf?_append_iff {s i : String} :
    identityOf? (s ++ "/" ++ i) = some i ↔ Identity i :=
  ⟨identity_of_identityOf?, identityOf?_append s⟩

theorem Decimal.Layout.write_ne_empty (l : Layout) (x : Scaled) : l.write x ≠ "" := by
  unfold Layout.write
  dsimp only
  rw [ne_eq, ← String.toList_eq_nil_iff]
  split <;> try split
  all_goals try split
  all_goals simp

theorem Decimal.write_ne_empty (x : Float) : write x ≠ "" := by
  unfold write
  dsimp only
  split <;> simp [String.append_eq_empty_iff, layout.write_ne_empty]

namespace Resource

variable {r : Resource} {type : Descriptor} {fields : List String} {f v : String}

-- The text of a number is never empty.
theorem scalar?_ne_empty {value : Json.Value} (h : scalar? value = some v) : v ≠ "" := by
  cases value
  case int n =>
    cases h
    cases n
    case ofNat => exact Nat.repr_ne_empty
    case negSucc n => simp [Int.toString_eq_repr, Int.repr, String.append_eq_empty_iff]
  case float x =>
    cases h
    exact Decimal.write_ne_empty x
  case string s =>
    unfold scalar? at h
    dsimp only at h
    split at h
    case isTrue => cases h
    case isFalse hs =>
      cases h
      exact mt String.isEmpty_iff.mpr hs
  all_goals cases h

theorem fieldValue?_ne_empty (h : r.fieldValue? f = some v) : v ≠ "" := by
  unfold fieldValue? at h
  have ⟨value, _, h⟩ := Option.bind_eq_some_iff.mp h
  obtain h | ⟨_, h⟩ := Option.or_eq_some_iff.mp h
  · exact scalar?_ne_empty h
  · have ⟨_, _, h⟩ := Option.bind_eq_some_iff.mp h
    exact scalar?_ne_empty h

-- The field and the value of the first identity.
def identifier? (r : Resource) (fields : List String) : Option (String × String) :=
  fields.findSome? fun field => (r.fieldValue? field).map (field, ·)

theorem head?_identities (r : Resource) (fields : List String) : (r.identities fields).head? =
    (r.identifier? fields).map fun (field, value) => lower (field ++ "/" ++ value) := by
  unfold identities identifier? identityUnder?
  rw [List.head?_filterMap, List.map_findSome?]
  simp [Function.comp_def]

theorem mem_of_identifier? (h : r.identifier? fields = some (f, v)) :
    f ∈ fields ∧ r.fieldValue? f = some v := by
  have ⟨field, hm, h⟩ := List.exists_of_findSome?_eq_some h
  have ⟨value, hv, h⟩ := Option.map_eq_some_iff.mp h
  cases h
  exact ⟨hm, hv⟩

theorem backLink_eq_of_identifier? (type : Descriptor) (hs : r.links selfRelation = [])
    (h : r.identifier? fields = some (f, v)) :
    r.backLink type fields = .ok ⟨type.text ++ "/" ++ lower (f ++ "/" ++ v)⟩ := by
  have hi := r.head?_identities fields
  rw [h, Option.map_some] at hi
  have ⟨_, hi⟩ := List.head?_eq_some_iff.mp hi
  rw [backLink, hs, hi]

-- An identity of a resource answers to itself if its field has no slash.
theorem answersTo_lower_append {declared : List String} (hm : f ∈ declared)
    (hv : r.fieldValue? f = some v) (hf : '/' ∉ f.toList) :
    r.AnswersTo (declared.map lower) (lower (f ++ "/" ++ v)) := by
  rw [answersTo_lower]
  refine ⟨f, v, Text.cut?_append "/" v hf rfl,
    mem_indexed_iff.mpr ⟨List.mem_map_of_mem hm, v, ?_, rfl⟩⟩
  rw [fieldValue?_lower, hv]

theorem carries_of_answersTo (hf : '/' ∉ f.toList)
    (h : r.AnswersTo fields (lower (f ++ "/" ++ v))) : r.carries f v := by
  rw [answersTo_lower] at h
  have ⟨f', v', hc, hi⟩ := h
  rw [Text.cut?_append "/" v hf rfl] at hc
  cases hc
  have ⟨_, value, hv, he⟩ := mem_indexed_iff.mp hi
  exact Store.carries_iff.mpr ⟨value, hv, he⟩

end Resource

namespace Store

open Resource (selfRelation)

variable {s : Store} {r : Resource} {declared : List String} {id f v : String}

theorem Mirrors.exists_carrying (h : s.Mirrors) (hd : s.fields = declared.map lower)
    (hg : s.get? id = some r) (hm : f ∈ declared) (hv : r.fieldValue? f = some v)
    (hf : '/' ∉ f.toList) : ∃ other r', s.resolve? (lower (f ++ "/" ++ v)) = some other ∧
      s.get? other = some r' ∧ r'.carries f v := by
  have hi : s.resolve? (lower (f ++ "/" ++ v)) ≠ none := by
    rw [ne_eq, resolve?_eq_none_iff h, hd]
    exact fun hn => hn id r hg (Resource.answersTo_lower_append hm hv hf)
  have ⟨other, hi⟩ := Option.ne_none_iff_exists'.mp hi
  have ⟨r', hg, ha⟩ := exists_of_resolve? h hi
  exact ⟨other, r', hi, hg, Resource.carries_of_answersTo hf ha⟩

-- The entry that is found need not be the resource itself. Another one may have had the value for
-- longer.
theorem backLink_leads_back (type : Descriptor) (declared : List String) (r : Resource)
    (hs : r.links selfRelation = []) (hi : r.identities declared ≠ []) :
    ∃ f v back, r.identifier? declared = some (f, v) ∧
      (r.identities declared).head? = some (lower (f ++ "/" ++ v)) ∧
      r.backLink type declared = .ok back ∧
      (back.identity = .ok (lower (f ++ "/" ++ v)) ↔
        f ≠ "" ∧ '/' ∉ f.toList ∧ '/' ∉ v.toList) ∧
      (back.identity = .ok (lower (f ++ "/" ++ v)) → ∀ actions id,
        (empty type declared).ReadsHandles [] actions →
        let s := (empty type declared).performAll actions
        s.get? id = some r → ∃ other r', s.resolve? (lower (f ++ "/" ++ v)) = some other ∧
          s.get? other = some r' ∧ r'.carries f v) := by
  have hhead := r.head?_identities declared
  have ⟨i, _, hcons⟩ := List.exists_cons_of_ne_nil hi
  have ⟨(f, v), hfirst, _⟩ :=
    Option.map_eq_some_iff.mp (hhead.symm.trans (congrArg List.head? hcons))
  rw [hfirst, Option.map_some] at hhead
  have ⟨hm, hv⟩ := Resource.mem_of_identifier? hfirst
  have hsafe : Link.Identity (lower (f ++ "/" ++ v)) ↔
      f ≠ "" ∧ '/' ∉ f.toList ∧ '/' ∉ v.toList := by
    rw [Link.identity_lower_iff]
    constructor
    · exact fun ⟨hf, hv⟩ => ⟨hf.nonempty, hf.unbroken, hv.unbroken⟩
    · exact fun ⟨hn, hf, hv'⟩ => ⟨⟨hn, hf⟩, Resource.fieldValue?_ne_empty hv, hv'⟩
  have hback : Link.identity ⟨type.text ++ "/" ++ lower (f ++ "/" ++ v)⟩ =
      .ok (lower (f ++ "/" ++ v)) ↔ f ≠ "" ∧ '/' ∉ f.toList ∧ '/' ∉ v.toList := by
    rw [Rule.identity_eq_ok, Link.identity?, Link.identityOf?_append_iff, hsafe]
  refine ⟨f, v, _, hfirst, hhead, r.backLink_eq_of_identifier? type hs hfirst, hback, ?_⟩
  intro hident actions id hreads s hg
  have ⟨_, hf, _⟩ := hback.mp hident
  have ho := (ordered_empty type declared).performAll (dated_empty type declared) hreads
  exact ho.mirrors.exists_carrying (fields_performAll actions) hg hm hv hf

-- The first id is found by a value that the second one has had for longer.
theorem backLink_leads_back_shared :
    let s := (empty default ["Code"]).performAll shared
    ∃ back other r', (code "a").backLink default ["Code"] = .ok back ∧
      back.identity = .ok "code/a" ∧ s.resolve? "code/a" = some other ∧
      s.get? other = some r' ∧ r'.carries "Code" "a" := by
  intro s
  have ⟨f, v, back, hfirst, _, hback, hident, hleads⟩ :=
    backLink_leads_back default ["Code"] (code "a") rfl (by decide +kernel)
  have hcode : (code "a").identifier? ["Code"] = some ("Code", "a") := rfl
  cases hfirst.symm.trans hcode
  have hident := hident.mpr (by decide)
  have hreads : (empty default ["Code"]).ReadsHandles [] shared :=
    ⟨trivial, trivial, .head _, .head _, trivial, trivial, trivial, trivial⟩
  have ⟨other, r', hfound⟩ := hleads hident shared "1" hreads rfl
  exact ⟨back, other, r', hback, hident, hfound⟩

end Store
end LinkedCache
