import LinkedCache.Apply
import LinkedCache.Reconcile
import LinkedCache.Proofs.Assoc
import LinkedCache.Proofs.Link

-- What the operations on a resource do to the links under its relations. Most of what follows needs
-- the keys of these links only, as equivalent links stand for each other.

namespace LinkedCache

namespace Resource

variable {r : Resource} {relation other key : String} {l : Link}

-- Whether a resource has a link with a key under a relation.
def Reaches (r : Resource) (relation key : String) : Prop :=
  ∃ l ∈ r.links relation, Update.linkKey l = key

theorem exists_mem_of_mem_links (h : l ∈ r.links relation) :
    ∃ m ∈ r.relations, m.1 = relation ∧ l ∈ m.2 := by
  unfold links at h
  generalize r.relations = members at h
  induction members
  case nil => simp at h
  case cons m rest hi =>
    rw [Assoc.lookup_cons_eq] at h
    split at h
    case isTrue he => exact ⟨m, .head _, he.symm, h⟩
    case isFalse =>
      have ⟨m', hm, h⟩ := hi h
      exact ⟨m', .tail _ hm, h⟩

theorem mem_links_iff : key ∈ (r.links relation).map Update.linkKey ↔ r.Reaches relation key := by
  simp [Reaches]

theorem hasRelation_iff : r.hasRelation relation ↔ ∃ key, r.Reaches relation key := by
  simp [hasRelation, Reaches, List.eq_nil_iff_forall_not_mem]

theorem holds_iff : r.holds relation l ↔ r.Reaches relation (Update.linkKey l) := by
  simp [holds, Reaches, Link.sameTarget_iff]

theorem links_addUnique (r : Resource) (relation other : String) (l : Link) :
    (r.addUnique relation l).links other =
      if other = relation ∧ ¬r.holds relation l then r.links relation ++ [l]
      else r.links other := by
  unfold addUnique
  by_cases hh : r.holds relation l <;> by_cases ho : other = relation <;> simp [hh, ho, links]

theorem links_removeMatching (r : Resource) (relation other : String) (l : Link) :
    (r.removeMatching relation l).links other =
      if other = relation then (r.links relation).filter (!·.sameTarget l)
      else r.links other := by
  unfold removeMatching
  split
  case h_1 hn => by_cases ho : other = relation <;> simp [links, ho, hn]
  case h_2 ls hs =>
    split
    case h_1 hf => by_cases ho : other = relation <;> simp [links, ho, hs, hf]
    case h_2 => by_cases ho : other = relation <;> simp [links, ho, hs]

@[simp]
theorem attributes_addUnique (r : Resource) (relation : String) (l : Link) :
    (r.addUnique relation l).attributes = r.attributes := by
  unfold addUnique
  split <;> rfl

@[simp]
theorem attributes_removeMatching (r : Resource) (relation : String) (l : Link) :
    (r.removeMatching relation l).attributes = r.attributes := by
  unfold removeMatching
  split <;> try split
  all_goals rfl

theorem reaches_addUnique :
    (r.addUnique relation l).Reaches other key ↔
      r.Reaches other key ∨ (other = relation ∧ key = Update.linkKey l) := by
  unfold Reaches
  rw [links_addUnique]
  by_cases hh : r.holds relation l
  case neg =>
    by_cases ho : other = relation <;> simp [hh, ho, or_and_right, exists_or, eq_comm]
  case pos =>
    simp only [hh, not_true_eq_false, and_false, if_false]
    constructor
    · exact .inl
    · rintro (h | ⟨rfl, rfl⟩)
      · exact h
      · exact holds_iff.mp hh

theorem reaches_removeMatching :
    (r.removeMatching relation l).Reaches other key ↔
      r.Reaches other key ∧ ¬(other = relation ∧ key = Update.linkKey l) := by
  unfold Reaches
  rw [links_removeMatching]
  by_cases ho : other = relation
  case neg => simp [ho]
  case pos =>
    simp only [ho, if_true, List.mem_filter, Bool.not_eq_true', true_and, ← Bool.not_eq_true,
      Link.sameTarget_iff]
    constructor
    · rintro ⟨l', ⟨hm, hn⟩, rfl⟩
      exact ⟨⟨l', hm, rfl⟩, hn⟩
    · rintro ⟨⟨l', hm, rfl⟩, hn⟩
      exact ⟨l', ⟨hm, hn⟩, rfl⟩

@[simp]
theorem attributes_addAll (r : Resource) (relation : String) (ls : List Link) :
    (r.addAll relation ls).attributes = r.attributes := by
  induction ls generalizing r
  case nil => rfl
  case cons l ls hi =>
    rw [addAll, List.foldl_cons, ← addAll, hi, attributes_addUnique]

theorem reaches_addAll {ls : List Link} :
    (r.addAll relation ls).Reaches other key ↔
      r.Reaches other key ∨ (other = relation ∧ key ∈ ls.map Update.linkKey) := by
  induction ls generalizing r
  case nil => simp [addAll]
  case cons l ls hi =>
    rw [addAll, List.foldl_cons, ← addAll, hi, reaches_addUnique, List.map_cons, List.mem_cons,
      and_or_left, or_assoc]

theorem links_addAll_of_ne {ls : List Link} (h : other ≠ relation) :
    (r.addAll relation ls).links other = r.links other := by
  induction ls generalizing r
  case nil => rfl
  case cons l ls hi =>
    rw [addAll, List.foldl_cons, ← addAll, hi, links_addUnique]
    simp [h]

theorem links_applyLink_of_ne {o : Operation} {b : Bool} (h : other ≠ relation) :
    (applyLink o relation (r, b) l).1.links other = r.links other := by
  cases o
  case add => simp [applyLink, links_addUnique, h]
  case delete => simp [applyLink, links_removeMatching, h]

theorem reaches_applyLink_of_unchanged {o : Operation} {b : Bool} (other key : String)
    (h : (applyLink o relation (r, b) l).2 = false) :
    b = false ∧ ((applyLink o relation (r, b) l).1.Reaches other key ↔ r.Reaches other key) := by
  cases o
  case add =>
    simp only [applyLink, Bool.or_eq_false_iff, Bool.not_eq_false', holds_iff] at h
    refine ⟨h.1, reaches_addUnique.trans (or_iff_left_of_imp ?_)⟩
    rintro ⟨rfl, rfl⟩
    exact h.2
  case delete =>
    simp only [applyLink, Bool.or_eq_false_iff] at h
    refine ⟨h.1, reaches_removeMatching.trans (and_iff_left_of_imp ?_)⟩
    rintro hr ⟨rfl, rfl⟩
    simp [holds_iff.mpr hr] at h

theorem attributes_applyLink {o : Operation} (p : Resource × Bool) :
    (applyLink o relation p l).1.attributes = p.1.attributes := by
  cases o <;> simp [applyLink]

section ApplyLinks

variable {o : Operation} {ls : List Link}

theorem attributes_applyLinks : (r.applyLinks o relation ls).1.attributes = r.attributes := by
  unfold applyLinks
  generalize false = b
  induction ls generalizing r b
  case nil => rfl
  case cons l ls hi => rw [List.foldl_cons, hi, attributes_applyLink]

theorem links_applyLinks_of_ne (h : other ≠ relation) :
    (r.applyLinks o relation ls).1.links other = r.links other := by
  unfold applyLinks
  generalize false = b
  induction ls generalizing r b
  case nil => rfl
  case cons l ls hi => rw [List.foldl_cons, hi, links_applyLink_of_ne h]

theorem reaches_applyLinks_add :
    (r.applyLinks .add relation ls).1.Reaches other key ↔
      r.Reaches other key ∨ (other = relation ∧ key ∈ ls.map Update.linkKey) := by
  unfold applyLinks
  generalize false = b
  induction ls generalizing r b
  case nil => simp
  case cons l ls hi =>
    rw [List.foldl_cons, applyLink, hi, reaches_addUnique, List.map_cons, List.mem_cons,
      and_or_left, or_assoc]

theorem reaches_applyLinks_delete :
    (r.applyLinks .delete relation ls).1.Reaches other key ↔
      r.Reaches other key ∧ ¬(other = relation ∧ key ∈ ls.map Update.linkKey) := by
  unfold applyLinks
  generalize false = b
  induction ls generalizing r b
  case nil => simp
  case cons l ls hi =>
    rw [List.foldl_cons, applyLink, hi, reaches_removeMatching, List.map_cons, List.mem_cons,
      and_assoc, ← not_or, ← and_or_left]

theorem reaches_applyLinks_of_unchanged (h : (r.applyLinks o relation ls).2 = false) :
    (r.applyLinks o relation ls).1.Reaches other key ↔ r.Reaches other key := by
  unfold applyLinks at h ⊢
  suffices hs : ∀ b, (ls.foldl (applyLink o relation) (r, b)).2 = false →
      b = false ∧
        ((ls.foldl (applyLink o relation) (r, b)).1.Reaches other key ↔ r.Reaches other key) from
    (hs false h).2
  clear h
  induction ls generalizing r
  case nil => simp
  case cons l ls hi =>
    intro b h
    rw [List.foldl_cons] at h ⊢
    have ⟨hb, hr⟩ := hi _ h
    have ⟨hb, hs⟩ := reaches_applyLink_of_unchanged other key hb
    exact ⟨hb, hr.trans hs⟩

end ApplyLinks

end Resource

namespace Update

variable {u : Update} {r : Resource}

def keys (u : Update) : List String :=
  u.binding.links.map linkKey

-- Whether something holds after an update that was `hit` by it.
def Effect (u : Update) (before hit : Prop) : Prop :=
  match u.operation with
  | .add => before ∨ hit
  | .delete => before ∧ ¬hit

theorem effect_of_not_hit {before hit : Prop} (h : ¬hit) : u.Effect before hit ↔ before := by
  unfold Effect
  split <;> simp [h]

theorem Effect.of_before {before hit : Prop} (h : before) (hn : ¬hit) : u.Effect before hit :=
  (effect_of_not_hit hn).mpr h

theorem Effect.imp {before before' hit : Prop} (h : before → before') (he : u.Effect before hit) :
    u.Effect before' hit := by
  unfold Effect at he ⊢
  split at he
  case h_1 => exact he.imp_left h
  case h_2 => exact he.imp_left h

-- Updates act on the links under one relation and leave the rest of a resource alone.
structure Acts (u : Update) (r r' : Resource) : Prop where
  attributes : r'.attributes = r.attributes
  others : ∀ other ≠ u.binding.relation, r'.links other = r.links other
  reaches : ∀ relation key, r'.Reaches relation key ↔
    u.Effect (r.Reaches relation key) (relation = u.binding.relation ∧ key ∈ u.keys)

theorem acts_applyLinks (u : Update) (r : Resource) :
    u.Acts r (r.applyLinks u.operation u.binding.relation u.binding.links).1 where
  attributes := Resource.attributes_applyLinks
  others _ h := Resource.links_applyLinks_of_ne h
  reaches _ _ := by
    unfold Effect
    cases u.operation
    case add => exact Resource.reaches_applyLinks_add
    case delete => exact Resource.reaches_applyLinks_delete

theorem acts_of_unchanged
    (h : (r.applyLinks u.operation u.binding.relation u.binding.links).2 = false) :
    u.Acts r r where
  attributes := rfl
  others _ _ := rfl
  reaches _ _ := by
    rw [← (u.acts_applyLinks r).reaches, Resource.reaches_applyLinks_of_unchanged h]

end Update
end LinkedCache
