import LinkedCache.Update
import LinkedCache.Proofs.Text

-- The identity of a link is the same as that of the link which is spelled like the identity, and
-- whatever stands in front of it does not matter. Each link has a key, and links are the same if
-- and only if their keys are.

namespace LinkedCache

open Text (lower Segment)

namespace Link

theorem segments_append (s t : String) :
    segments (s ++ "/" ++ t) = segments s ++ segments t := by
  rw [segments, Text.pieces_append s t rfl, List.filter_append, segments, segments]

theorem segments_of_segment {s : String} (h : Segment s) : segments s = [s] := by
  simp [segments, Text.pieces_eq_singleton h.unbroken, h.nonempty]

theorem segment_of_mem_segments {s p : String} (h : p ∈ segments s) : Segment p where
  nonempty := by simp_all [segments]
  unbroken := Text.not_mem_of_mem_pieces (List.mem_filter.mp h).1

theorem segments_lower (s : String) : segments (lower s) = (segments s).map lower := by
  have he : (fun p : String => !p.isEmpty) ∘ lower = fun p => !p.isEmpty := by
    funext p
    simp only [Function.comp_apply, Text.isEmpty_lower]
  simp only [segments, Text.pieces_lower, List.filter_map, he]

-- What identities look like: a field and a value, in lower case.
inductive Identity : String → Prop
  | intro {field value : String} (hf : Segment field) (hv : Segment value) :
    Identity (lower (field ++ "/" ++ value))

theorem Identity.lower_eq {i : String} : Identity i → lower i = i
  | intro .. => Text.lower_lower _

theorem Identity.segments {i : String} :
    Identity i → ∃ f v, i = f ++ "/" ++ v ∧ Segment f ∧ Segment v ∧ lower i = i
  | .intro hf hv => ⟨_, _, by simp, hf.lower, hv.lower, Text.lower_lower _⟩

theorem identityOf?_append {i : String} (s : String) (h : Identity i) :
    identityOf? (s ++ "/" ++ i) = some i := by
  obtain ⟨f, v, rfl, hf, hv, hl⟩ := h.segments
  simpa [identityOf?, segments_append, segments_of_segment hf, segments_of_segment hv] using hl

theorem identityOf?_identity {i : String} (h : Identity i) : identityOf? i = some i := by
  obtain ⟨f, v, rfl, hf, hv, hl⟩ := h.segments
  simpa [identityOf?, segments_append, segments_of_segment hf, segments_of_segment hv] using hl

theorem identity_of_identityOf? {s i : String} (h : identityOf? s = some i) : Identity i := by
  unfold identityOf? at h
  split at h
  case h_1 value field rest hs =>
    have hm (p : String) (hp : p ∈ value :: field :: rest) : Segment p :=
      segment_of_mem_segments (List.mem_reverse.mp (hs ▸ hp))
    cases h
    exact .intro (hm field (by simp)) (hm value (by simp))
  case h_2 => simp at h

theorem identityOf?_lower (s : String) : identityOf? (lower s) = identityOf? s := by
  unfold identityOf?
  rw [segments_lower, ← List.map_reverse]
  match (segments s).reverse with
  | [] | [_] => rfl
  | value :: field :: _ => simp

theorem linkKey_eq_of_identity? {l : Link} {i : String} (h : l.identity? = some i) :
    Update.linkKey l = i := by
  simp [Update.linkKey, h]

-- The key tells whether the link has an identity, as the identity itself has one.
theorem identityOf?_linkKey (l : Link) : identityOf? (Update.linkKey l) = l.identity? := by
  cases h : l.identity?
  case some i => rw [linkKey_eq_of_identity? h, identityOf?_identity (identity_of_identityOf? h)]
  case none => rw [Update.linkKey, h, Option.getD_none, identityOf?_lower, ← identity?, h]

theorem sameTarget_iff {a b : Link} : a.sameTarget b ↔ Update.linkKey a = Update.linkKey b := by
  have ha := identityOf?_linkKey a
  have hb := identityOf?_linkKey b
  unfold sameTarget
  split
  case h_1 i j hi hj => simp [linkKey_eq_of_identity? hi, linkKey_eq_of_identity? hj]
  case h_2 hn =>
    cases hi : a.identity? <;> cases hj : b.identity?
    case none.none => simp [Update.linkKey, hi, hj, Text.sameFolded_iff]
    case some.some => exact (hn _ _ hi hj).elim
    all_goals
      constructor <;> intro h
    case none.some.mp | some.none.mp =>
      have := congrArg identityOf? (Text.sameFolded_iff.mp h)
      simp_all [identityOf?_lower, identity?]
    case none.some.mpr | some.none.mpr =>
      simp [h, hb, hi, hj] at ha

theorem identity?_eq_of_linkKey {l : Link} {i : String} (h : Update.linkKey l = i)
    (hi : Identity i) : l.identity? = some i := by
  rw [← identityOf?_linkKey, h, identityOf?_identity hi]

end Link
end LinkedCache
