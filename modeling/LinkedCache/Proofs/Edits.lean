import LinkedCache.Proofs.LinkLists

-- The lists of links of a resource as ordered sets. Links to the same target stand for each other,
-- so what a list holds after any edits is decided by the last edit of each kind of link.

namespace LinkedCache

-- Adds or drops one link under one relation.
structure Edit where
  operation : Operation
  relation : String
  link : Link
deriving DecidableEq, Repr

namespace Edit

-- Whether an edit is of a relation and of links to the same target as `l`.
def concerns (relation : String) (l : Link) (e : Edit) : Bool :=
  e.relation = relation && e.link.sameTarget l

end Edit

namespace Resource

variable {r : Resource} {relation : String} {l : Link} {e : Edit} {edits : List Edit}

def edit (r : Resource) (e : Edit) : Resource × Bool :=
  applyLink e.operation e.relation (r, false) e.link

def editAll (r : Resource) (edits : List Edit) : Resource :=
  edits.foldl (fun r e => (r.edit e).1) r

-- No relation has two links to the same target.
def Distinct (r : Resource) : Prop :=
  ∀ relation, (r.links relation).Pairwise fun l l' => ¬l.sameTarget l'

theorem edit_eq : r.edit e = match e.operation with
    | .add => (r.addUnique e.relation e.link, !r.holds e.relation e.link)
    | .delete => (r.removeMatching e.relation e.link, r.holds e.relation e.link) := by
  unfold edit applyLink
  cases e.operation <;> simp

theorem editAll_concat : r.editAll (edits ++ [e]) = ((r.editAll edits).edit e).1 := by
  simp [editAll]

theorem not_holds_iff : ¬r.holds relation l ↔ ∀ l' ∈ r.links relation, ¬l'.sameTarget l := by
  simp [holds]

theorem Distinct.addUnique (h : r.Distinct) (relation : String) (l : Link) :
    (r.addUnique relation l).Distinct := by
  intro other
  rw [links_addUnique]
  split
  case isFalse => exact h other
  case isTrue hn =>
    refine List.pairwise_append.mpr ⟨h relation, List.pairwise_singleton .., fun l' hm _ hl => ?_⟩
    rw [List.mem_singleton.mp hl]
    exact not_holds_iff.mp hn.2 l' hm

theorem Distinct.removeMatching (h : r.Distinct) (relation : String) (l : Link) :
    (r.removeMatching relation l).Distinct := by
  intro other
  rw [links_removeMatching]
  split
  case isFalse => exact h other
  case isTrue => exact (h relation).filter _

theorem Distinct.edit (h : r.Distinct) (e : Edit) : (r.edit e).1.Distinct := by
  rw [edit_eq]
  cases e.operation
  case add => exact h.addUnique e.relation e.link
  case delete => exact h.removeMatching e.relation e.link

theorem Distinct.editAll (h : r.Distinct) (edits : List Edit) : (r.editAll edits).Distinct := by
  induction edits generalizing r
  case nil => exact h
  case cons e edits hi => exact hi (h.edit e)

-- No relation is left without links by dropping one under it.
theorem lookup_removeMatching_ne_nil (r : Resource) (relation : String) (l : Link) :
    (r.removeMatching relation l).relations.lookup relation ≠ some [] := by
  unfold removeMatching
  split
  case h_1 hn => simp [hn]
  case h_2 =>
    split
    case h_1 => simp
    case h_2 hf => simpa using hf

theorem lookup_edit_of_ne {other : String} (h : other ≠ e.relation) :
    (r.edit e).1.relations.lookup other = r.relations.lookup other := by
  rw [edit_eq]
  cases e.operation
  case add => exact lookup_addUnique_of_ne h
  case delete => exact lookup_removeMatching_of_ne h

theorem attributes_edit : (r.edit e).1.attributes = r.attributes :=
  attributes_applyLink (r, false)

-- Of links to different targets at most one is dropped at a time.
theorem exists_append_of_distinct {ls : List Link}
    (hd : ls.Pairwise fun l l' => ¬l.sameTarget l') (h : ls.any (·.sameTarget l)) :
    ∃ before same after, ls = before ++ same :: after ∧ same.sameTarget l ∧
      ls.filter (!·.sameTarget l) = before ++ after := by
  have ⟨same, hm, hs⟩ := List.any_eq_true.mp h
  have ⟨before, after, hls⟩ := List.append_of_mem hm
  refine ⟨before, same, after, hls, hs, ?_⟩
  subst hls
  have ⟨_, hafter, hbefore⟩ := List.pairwise_append.mp hd
  have hother (l' : Link) (hn : ¬l'.sameTarget same) : (!l'.sameTarget l) = true := by
    rw [Link.sameTarget_iff] at hs hn
    rwa [Bool.not_eq_true', Bool.eq_false_iff, ne_eq, Link.sameTarget_iff, ← hs]
  rw [List.filter_append, List.filter_cons_of_neg (by simp [hs]), List.filter_eq_self.mpr,
    List.filter_eq_self.mpr]
  · intro l' hl'
    exact hother l' (Link.sameTarget_comm same l' ▸ List.rel_of_pairwise_cons hafter hl')
  · exact fun l' hl' => hother l' (hbefore l' hl' same (.head _))

-- What an edit makes of a resource, and what it answers. What is added stands behind what is there.
structure Edited (r : Resource) (e : Edit) (r' : Resource) (changed : Bool) : Prop where
  added : e.operation = .add →
    (changed ↔ ∀ l ∈ r.links e.relation, ¬l.sameTarget e.link) ∧
    (changed → r'.links e.relation = r.links e.relation ++ [e.link]) ∧ (¬changed → r' = r)
  dropped : e.operation = .delete →
    (changed ↔ ∃ l ∈ r.links e.relation, l.sameTarget e.link) ∧
    (changed → ∃ before same after, r.links e.relation = before ++ same :: after ∧
      same.sameTarget e.link ∧ r'.links e.relation = before ++ after) ∧
    (¬changed → r'.links e.relation = r.links e.relation) ∧
    r'.relations.lookup e.relation ≠ some []
  others : ∀ other ≠ e.relation, r'.relations.lookup other = r.relations.lookup other
  attributes : r'.attributes = r.attributes

theorem Distinct.edited (h : r.Distinct) (e : Edit) : r.Edited e (r.edit e).1 (r.edit e).2 := by
  refine ⟨fun ho => ?_, fun ho => ?_, fun _ => lookup_edit_of_ne, attributes_edit⟩
  all_goals
    rw [edit_eq, ho]
    dsimp only
  case refine_1 =>
    rw [← not_holds_iff]
    refine ⟨by simp, fun hn => ?_, fun hh => ?_⟩
    · rw [links_addUnique, if_pos ⟨rfl, by simpa using hn⟩]
    · exact if_pos (by simpa using hh)
  case refine_2 =>
    have hfilter := r.links_removeMatching e.relation e.relation e.link
    rw [if_pos rfl] at hfilter
    refine ⟨by simp [holds], fun hh => ?_, fun hn => ?_,
      lookup_removeMatching_ne_nil r e.relation e.link⟩
    · rw [hfilter]
      exact exists_append_of_distinct (h e.relation) hh
    · rw [hfilter, List.filter_eq_self]
      simpa using not_holds_iff.mp hn

-- An edit decides whether the links that it is about are held, and does not touch others.
theorem holds_edit : (r.edit e).1.holds relation l =
    if e.concerns relation l then decide (e.operation = .add) else r.holds relation l := by
  have hconcerns : e.concerns relation l ↔
      relation = e.relation ∧ Update.linkKey l = Update.linkKey e.link := by
    rw [Edit.concerns, Bool.and_eq_true, decide_eq_true_iff, Link.sameTarget_iff]
    exact and_congr eq_comm eq_comm
  rw [edit_eq, Bool.eq_iff_iff]
  cases e.operation
  case add =>
    rw [holds_iff, reaches_addUnique, ← hconcerns, ← holds_iff]
    by_cases hc : e.concerns relation l <;> simp [hc]
  case delete =>
    rw [holds_iff, reaches_removeMatching, ← hconcerns, ← holds_iff]
    by_cases hc : e.concerns relation l <;> simp [hc]

theorem holds_editAll : (r.editAll edits).holds relation l =
    match (edits.filter (·.concerns relation l)).getLast? with
    | some e => decide (e.operation = .add)
    | none => r.holds relation l := by
  induction edits using List.reverseRecOn
  case nil => rfl
  case append_singleton edits e hi =>
    rw [editAll_concat, holds_edit, List.filter_append]
    by_cases hc : e.concerns relation l
    case pos => simp [hc]
    case neg => simp [hc, hi]

-- The links under each relation stay different from one another whatever is added and dropped. Each
-- edit says whether it found something to do and leaves everything else alone, and the last edit
-- that is about a link decides whether it is held.
theorem edited_editAll (r : Resource) (h : r.Distinct) (edits : List Edit) :
    (r.editAll edits).Distinct ∧
    (∀ e, (r.editAll edits).Edited e ((r.editAll edits).edit e).1 ((r.editAll edits).edit e).2) ∧
    ∀ relation l, (r.editAll edits).holds relation l ↔
      match (edits.filter (·.concerns relation l)).getLast? with
      | some e => e.operation = .add
      | none => ∃ l' ∈ r.links relation, l'.sameTarget l := by
  refine ⟨h.editAll edits, (h.editAll edits).edited, fun relation l => ?_⟩
  rw [holds_editAll]
  cases (edits.filter (·.concerns relation l)).getLast?
  case none => simp [holds]
  case some e => exact decide_eq_true_iff

section Spellings

-- A link that is spelled in several ways, next to links without an identity.
def spellings : Resource where
  relations := [("member", [⟨"https://a/student/systemid/1"⟩, ⟨"Kari"⟩, ⟨"Ola"⟩])]

def respelled : List Edit := [
  ⟨.add, "member", ⟨"x/SYSTEMID/1/"⟩⟩, ⟨.delete, "member", ⟨"systemid/1"⟩⟩,
  ⟨.add, "Member", ⟨"systemid/1"⟩⟩, ⟨.delete, "member", ⟨"kari"⟩⟩, ⟨.add, "member", ⟨"KARI"⟩⟩]

theorem edited_editAll_respelled :
    spellings.Distinct ∧
    (spellings.editAll respelled).links "member" = [⟨"Ola"⟩, ⟨"KARI"⟩] ∧
    (spellings.editAll respelled).holds "member" ⟨"kari"⟩ ∧
    ¬(spellings.editAll respelled).holds "member" ⟨"systemId/1"⟩ := by
  have hd : spellings.Distinct := by
    intro relation
    by_cases hr : relation = "member"
    case pos =>
      subst hr
      decide +kernel
    case neg => simp [links, spellings, List.lookup_cons, beq_false_of_ne hr]
  have hholds := (edited_editAll spellings hd respelled).2.2
  have hadded : (respelled.filter (·.concerns "member" ⟨"kari"⟩)).getLast? =
      some ⟨.add, "member", ⟨"KARI"⟩⟩ := by
    decide +kernel
  have hdropped : (respelled.filter (·.concerns "member" ⟨"systemId/1"⟩)).getLast? =
      some ⟨.delete, "member", ⟨"systemid/1"⟩⟩ := by
    decide +kernel
  refine ⟨hd, by decide +kernel, ?_, ?_⟩
  · rw [hholds, hadded]
  · rw [hholds, hdropped]
    intro hadd
    cases hadd

end Spellings

end Resource
end LinkedCache
