import LinkedCache.Proofs.Derivation

-- Identities as the canonical form of addresses. What stands before the last two segments, the case
-- of letters and slashes at the end do not matter, and what is left is its own identity. So links
-- to the same target are a class of links, in which either all or none have an identity.

namespace LinkedCache

open Text (lower sameFolded)
open Rule (identity_eq_ok)

namespace Link

variable {href i : String} {a b l : Link}

-- The last two segments make the identity.
theorem identityOf?_eq_some_iff : identityOf? href = some i ↔ ∃ before field value,
    segments href = before ++ [field, value] ∧ lower (field ++ "/" ++ value) = i := by
  unfold identityOf?
  constructor
  case mp =>
    intro h
    split at h
    case h_1 value field rest hs =>
      refine ⟨rest.reverse, field, value, ?_, Option.some.inj h⟩
      simpa using congrArg List.reverse hs
    case h_2 => cases h
  case mpr =>
    rintro ⟨before, field, value, hs, rfl⟩
    simp [hs]

theorem exists_identity_iff : (∃ i, l.identity = .ok i) ↔ 2 ≤ (segments l.href).length := by
  simp only [identity_eq_ok, identity?, identityOf?]
  rw [← List.length_reverse]
  obtain _ | ⟨value, _ | ⟨field, rest⟩⟩ := (segments l.href).reverse
  all_goals simp

theorem identityOf?_append_of_some (before : String) (h : identityOf? href = some i) :
    identityOf? (before ++ "/" ++ href) = some i := by
  have ⟨front, field, value, hs, hi⟩ := identityOf?_eq_some_iff.mp h
  refine identityOf?_eq_some_iff.mpr ⟨segments before ++ front, field, value, ?_, hi⟩
  rw [segments_append, hs, List.append_assoc]

theorem segments_append_slashes (href : String) (n : Nat) :
    segments (href ++ String.ofList (List.replicate n '/')) = segments href := by
  induction n
  case zero => simp
  case succ n hi =>
    have hn : href ++ String.ofList (List.replicate (n + 1) '/') =
        href ++ String.ofList (List.replicate n '/') ++ "/" ++ "" := by
      apply String.ext
      simp [List.replicate_succ']
    rw [hn, segments_append, hi]
    exact List.append_nil _

theorem identity?_congr (h : segments a.href = segments b.href) : a.identity? = b.identity? := by
  rw [identity?, identity?, identityOf?, identityOf?, h]

theorem identity?_of_sameFolded (h : sameFolded a.href b.href) : a.identity? = b.identity? := by
  rw [identity?, identity?, ← identityOf?_lower, Text.sameFolded_iff.mp h, identityOf?_lower]

-- The form of an address to which no spelling makes a difference.
structure Canonical (i : String) : Prop where
  fixed : identity ⟨i⟩ = .ok i
  pieces : ∃ field value, Text.pieces '/' i = [field, value] ∧
    ∀ s ∈ [field, value], s ≠ "" ∧ lower s = s

theorem Identity.canonical (h : Identity i) : Canonical i where
  fixed := identity_eq_ok.mpr (identityOf?_identity h)
  pieces := by
    cases h
    case intro field value hf hv =>
      refine ⟨lower field, lower value, ?_, by simp [hf.lower.nonempty, hv.lower.nonempty]⟩
      rw [Text.lower_append, Text.lower_append, Text.lower_slash, Text.pieces_append _ _ rfl,
        Text.pieces_eq_singleton hf.lower.unbroken, Text.pieces_eq_singleton hv.lower.unbroken]
      rfl

theorem sameTarget_equivalence : Equivalence fun a b : Link => a.sameTarget b := by
  simp only [sameTarget_iff]
  exact ⟨fun _ => rfl, Eq.symm, Eq.trans⟩

theorem sameTarget_of_sameFolded (h : sameFolded a.href b.href) : a.sameTarget b := by
  rw [sameTarget_iff, Update.linkKey, Update.linkKey, identity?_of_sameFolded h,
    Text.sameFolded_iff.mp h]

theorem exists_identity_congr (h : a.sameTarget b) :
    (∃ i, a.identity = .ok i) ↔ ∃ i, b.identity = .ok i := by
  simp only [identity_eq_ok, ← identityOf?_linkKey, sameTarget_iff.mp h]

-- The last two segments of an address make its identity, which is in canonical form and does not
-- depend on how the address is spelled. Comparing links by it is an equivalence, which is coarser
-- than that of addresses in any case and does not mix links that have an identity with others.
theorem identity_canonical :
    (∀ (l : Link) i, l.identity = .ok i ↔ ∃ before field value,
      segments l.href = before ++ [field, value] ∧ lower (field ++ "/" ++ value) = i) ∧
    (∀ l : Link, (∃ i, l.identity = .ok i) ↔ 2 ≤ (segments l.href).length) ∧
    (∀ (l : Link) i, l.identity = .ok i → Canonical i ∧
      ∀ before, identity ⟨before ++ "/" ++ l.href⟩ = .ok i) ∧
    (∀ a b : Link, sameFolded a.href b.href → a.identity? = b.identity?) ∧
    (∀ (l : Link) n, identity? ⟨l.href ++ String.ofList (List.replicate n '/')⟩ = l.identity?) ∧
    (Equivalence fun a b : Link => a.sameTarget b) ∧
    (∀ a b : Link, sameFolded a.href b.href → a.sameTarget b) ∧
    ∀ a b : Link, a.sameTarget b → ((∃ i, a.identity = .ok i) ↔ ∃ i, b.identity = .ok i) := by
  refine ⟨fun _ _ => identity_eq_ok.trans identityOf?_eq_some_iff,
    fun _ => exists_identity_iff, fun l i h => ?_, fun _ _ => identity?_of_sameFolded,
    fun l n => identity?_congr (segments_append_slashes l.href n), sameTarget_equivalence,
    fun _ _ => sameTarget_of_sameFolded, fun _ _ => exists_identity_congr⟩
  have hi : identityOf? l.href = some i := identity_eq_ok.mp h
  exact ⟨(identity_of_identityOf? hi).canonical, fun before =>
    identity_eq_ok.mpr (identityOf?_append_of_some before hi)⟩

-- Three spellings of one link, and two of a link without an identity.
theorem identity_canonical_spelled :
    let spelled : Link := ⟨"https://a/Group//SystemId/Ä1/"⟩
    spelled.identity = .ok "systemid/Ä1" ∧ Canonical "systemid/Ä1" ∧
      identity ⟨"https://b/x" ++ "/" ++ spelled.href⟩ = .ok "systemid/Ä1" ∧
      identity? ⟨"HTTPS://A/GROUP//SYSTEMID/Ä1/"⟩ = some "systemid/Ä1" ∧
      sameTarget ⟨"Kari/"⟩ ⟨"KARI/"⟩ ∧ ¬∃ i, identity ⟨"KARI/"⟩ = .ok i := by
  intro spelled
  have ⟨_, hexists, hcanonical, hfolded, _, _, hsame, hmixed⟩ := identity_canonical
  have hi : spelled.identity = .ok "systemid/Ä1" := by decide +kernel
  have hcase := hfolded ⟨"HTTPS://A/GROUP//SYSTEMID/Ä1/"⟩ spelled (by decide +kernel)
  have hkari := hsame ⟨"Kari/"⟩ ⟨"KARI/"⟩ (by decide +kernel)
  have hnone : ¬∃ i, identity ⟨"Kari/"⟩ = .ok i :=
    mt (hexists _).mp (by decide +kernel)
  exact ⟨hi, (hcanonical _ _ hi).1, (hcanonical _ _ hi).2 "https://b/x",
    hcase.trans (identity_eq_ok.mp hi), hkari, mt (hmixed _ _ hkari).mpr hnone⟩

end Link
end LinkedCache
