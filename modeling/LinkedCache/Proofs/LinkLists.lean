import LinkedCache.Proofs.Queues
import LinkedCache.Proofs.Resource

-- The lists of links that come out of adding and dropping links, link by link and in order. What is
-- added goes behind the links that are there, in the order in which it comes, and no link is added
-- that is there already; what is dropped leaves the others in their places.

namespace LinkedCache

namespace Link

variable {held held' ls ls' : List Link} {l : Link} {key : String}

-- The links of a list that another one does not hold, each of them once.
def fresh (held new : List Link) : List Link :=
  (new.eraseDupsBy sameTarget).filter fun l => !held.any (·.sameTarget l)

def without (held dropped : List Link) : List Link :=
  held.filter fun l => !dropped.any l.sameTarget

theorem sameTarget_comm (a b : Link) : a.sameTarget b = b.sameTarget a := by
  rw [Bool.eq_iff_iff, sameTarget_iff, sameTarget_iff, eq_comm]

theorem any_sameTarget_iff :
    held.any (·.sameTarget l) ↔ Update.linkKey l ∈ held.map Update.linkKey := by
  simp [sameTarget_iff]

-- A filter that does not tell equivalent links apart leaves the first one of each kind, or none.
theorem eraseDupsBy_filter {p : Link → Bool} (hp : ∀ a b, sameTarget a b → p a = p b)
    (ls : List Link) :
    (ls.filter p).eraseDupsBy sameTarget = (ls.eraseDupsBy sameTarget).filter p := by
  match ls with
  | [] => rfl
  | l :: ls =>
    have hi := eraseDupsBy_filter hp (ls.filter fun b => decide (sameTarget b l = false))
    have hswap : (ls.filter p).filter (fun b => decide (sameTarget b l = false)) =
        (ls.filter fun b => decide (sameTarget b l = false)).filter p := by
      simp only [List.filter_filter, Bool.and_comm]
    rw [List.eraseDupsBy_cons, List.filter_cons, List.filter_cons]
    by_cases hl : p l
    case pos => rw [if_pos hl, if_pos hl, List.eraseDupsBy_cons, hswap, hi]
    case neg =>
      rw [if_neg hl, if_neg hl, ← hi, ← hswap]
      congr 1
      refine (List.filter_eq_self.mpr fun b hb => ?_).symm
      rw [decide_eq_true_eq, Bool.eq_false_iff]
      exact fun hs => hl (hp b l hs ▸ (List.mem_filter.mp hb).2)
termination_by ls.length
decreasing_by simpa using Nat.lt_succ_of_le (List.length_filter_le ..)

@[simp]
theorem fresh_nil : fresh held [] = [] :=
  rfl

theorem fresh_congr (h : ∀ key, key ∈ held.map Update.linkKey ↔ key ∈ held'.map Update.linkKey) :
    fresh held ls = fresh held' ls := by
  refine List.filter_congr fun l _ => ?_
  rw [Bool.not_inj_iff, Bool.eq_iff_iff, any_sameTarget_iff, any_sameTarget_iff, h]

theorem fresh_cons_aux (held : List Link) (l : Link) (ls : List Link) :
    ((ls.filter fun b => decide (sameTarget b l = false)).eraseDupsBy sameTarget).filter
      (fun l => !held.any (·.sameTarget l)) = fresh (held ++ [l]) ls := by
  rw [eraseDupsBy_filter, List.filter_filter]
  case hp =>
    intro a b h
    rw [decide_eq_decide, Bool.eq_false_iff, Bool.eq_false_iff, ne_eq, ne_eq, sameTarget_iff,
      sameTarget_iff, sameTarget_iff.mp h]
  refine List.filter_congr fun b _ => ?_
  simp [sameTarget_comm b l]

theorem fresh_cons_of_held (h : held.any (·.sameTarget l)) :
    fresh held (l :: ls) = fresh held ls := by
  have hk := any_sameTarget_iff.mp h
  rw [fresh, List.eraseDupsBy_cons, List.filter_cons, h, fresh_cons_aux]
  refine fresh_congr fun key => ?_
  simp only [List.map_append, List.mem_append, List.map_singleton, List.mem_singleton,
    or_iff_left_iff_imp]
  exact fun hkey => hkey ▸ hk

theorem fresh_cons_of_new (h : ¬held.any (·.sameTarget l)) :
    fresh held (l :: ls) = l :: fresh (held ++ [l]) ls := by
  rw [fresh, List.eraseDupsBy_cons, List.filter_cons, if_pos (by simpa using h), fresh_cons_aux]

theorem mem_keys_join :
    key ∈ (held ++ fresh held ls).map Update.linkKey ↔
      key ∈ held.map Update.linkKey ∨ key ∈ ls.map Update.linkKey := by
  induction ls generalizing held
  case nil => simp
  case cons l ls hi =>
    by_cases h : held.any (·.sameTarget l)
    case pos =>
      rw [fresh_cons_of_held h, hi, List.map_cons, List.mem_cons]
      have hk := any_sameTarget_iff.mp h
      constructor
      · exact Or.imp_right .inr
      · rintro (hh | rfl | hh)
        · exact .inl hh
        · exact .inl hk
        · exact .inr hh
    case neg =>
      rw [fresh_cons_of_new h, List.append_cons, hi]
      simp [or_assoc, eq_comm]

theorem fresh_append :
    fresh held (ls ++ ls') = fresh held ls ++ fresh (held ++ fresh held ls) ls' := by
  induction ls generalizing held
  case nil => simp
  case cons l ls hi =>
    rw [List.cons_append]
    by_cases h : held.any (·.sameTarget l)
    case pos => rw [fresh_cons_of_held h, fresh_cons_of_held h, hi]
    case neg =>
      rw [fresh_cons_of_new h, fresh_cons_of_new h, hi]
      simp

theorem fresh_eq_nil_iff : fresh held ls = [] ↔ ∀ l ∈ ls, held.any (·.sameTarget l) := by
  induction ls generalizing held
  case nil => simp
  case cons l ls hi =>
    rw [List.forall_mem_cons]
    by_cases h : held.any (·.sameTarget l)
    case pos => rw [fresh_cons_of_held h, hi, and_iff_right h]
    case neg => simp [fresh_cons_of_new h, h]

-- What a list holds already can be left out of what is new to it.
theorem fresh_flatMap_congr {α : Type} {f g : α → List Link} {as : List α}
    (h : ∀ a ∈ as, f a = g a ∨ f a = [] ∧ ∀ l ∈ g a, held.any (·.sameTarget l)) :
    fresh held (as.flatMap f) = fresh held (as.flatMap g) := by
  induction as generalizing held
  case nil => rfl
  case cons a as hi =>
    have ⟨ha, has⟩ := List.forall_mem_cons.mp h
    have hnext (held' : List Link) (hsub : ∀ l, held.any (·.sameTarget l) →
        held'.any (·.sameTarget l)) :
        fresh held' (as.flatMap f) = fresh held' (as.flatMap g) :=
      hi fun a ha => (has a ha).imp_right fun hn => ⟨hn.1, fun l hl => hsub l (hn.2 l hl)⟩
    rw [List.flatMap_cons, List.flatMap_cons, fresh_append, fresh_append]
    obtain he | ⟨hn, hg⟩ := ha
    case inl =>
      rw [he, hnext]
      intro l hl
      rw [List.any_append, hl, Bool.true_or]
    case inr =>
      rw [hn, fresh_nil, fresh_eq_nil_iff.mpr hg, List.append_nil, hnext held fun _ => id]

theorem without_eq_self_iff :
    without held ls = held ↔ ∀ l ∈ ls, ¬held.any (·.sameTarget l) := by
  simp only [without, List.filter_eq_self, Bool.not_eq_true', List.any_eq_true,
    List.any_eq_false, not_exists, not_and]
  exact ⟨fun h l hl l' hl' => h l' hl' l hl, fun h l hl l' hl' => h l' hl' l hl⟩

theorem without_without (held ls : List Link) : without (without held ls) ls = without held ls := by
  simp [without, List.filter_filter]

theorem without_cons : without held (l :: ls) = without (held.filter (!·.sameTarget l)) ls := by
  simp only [without, List.filter_filter, List.any_cons, Bool.not_or]
  exact List.filter_congr fun _ _ => Bool.and_comm ..

end Link

namespace Resource

variable {r : Resource} {relation other : String} {l : Link} {ls : List Link}

theorem links_addAll :
    (r.addAll relation ls).links relation =
      r.links relation ++ Link.fresh (r.links relation) ls := by
  induction ls generalizing r
  case nil => simp [addAll]
  case cons l ls hi =>
    rw [addAll, List.foldl_cons, ← addAll, hi, links_addUnique]
    by_cases h : r.holds relation l
    case pos => rw [Link.fresh_cons_of_held h, if_neg (by simp [h])]
    case neg => simp [Link.fresh_cons_of_new h, h]

theorem lookup_addUnique_of_ne (h : other ≠ relation) :
    (r.addUnique relation l).relations.lookup other = r.relations.lookup other := by
  unfold addUnique
  split
  case isTrue => rfl
  case isFalse => simp [h]

theorem lookup_addAll_of_ne (h : other ≠ relation) :
    (r.addAll relation ls).relations.lookup other = r.relations.lookup other := by
  induction ls generalizing r
  case nil => rfl
  case cons l ls hi => rw [addAll, List.foldl_cons, ← addAll, hi, lookup_addUnique_of_ne h]

theorem lookup_removeMatching_of_ne (h : other ≠ relation) :
    (r.removeMatching relation l).relations.lookup other = r.relations.lookup other := by
  unfold removeMatching
  split
  case h_1 => rfl
  case h_2 => split <;> simp [h]

end Resource

-- What an update makes of the links that a resource has under its relation.
def Update.revise (u : Update) (held : List Link) : List Link :=
  match u.operation with
  | .add => held ++ Link.fresh held u.binding.links
  | .delete => Link.without held u.binding.links

theorem Update.revise_revise (u : Update) (held : List Link) :
    u.revise (u.revise held) = u.revise held := by
  unfold revise
  split
  case h_1 =>
    rw [List.append_right_eq_self, Link.fresh_eq_nil_iff]
    intro l hl
    rw [Link.any_sameTarget_iff, Link.mem_keys_join]
    exact .inr (List.mem_map_of_mem hl)
  case h_2 => exact Link.without_without ..

namespace Resource

variable {r : Resource} {relation other : String} {l : Link} {ls : List Link} {b : Bool}

theorem foldl_applyLink_add :
    ls.foldl (applyLink .add relation) (r, b) =
      (r.addAll relation ls, b || !(Link.fresh (r.links relation) ls).isEmpty) := by
  induction ls generalizing r b
  case nil => simp [addAll]
  case cons l ls hi =>
    rw [List.foldl_cons, applyLink, hi, links_addUnique, addAll, addAll, List.foldl_cons]
    by_cases h : r.holds relation l
    case pos => simp [Link.fresh_cons_of_held h, h]
    case neg => simp [Link.fresh_cons_of_new h, h]

theorem links_foldl_removeMatching :
    (ls.foldl (·.removeMatching relation ·) r).links relation =
      Link.without (r.links relation) ls := by
  induction ls generalizing r
  case nil => simp [Link.without]
  case cons l ls hi =>
    rw [List.foldl_cons, hi, links_removeMatching, if_pos rfl, Link.without_cons]

theorem lookup_foldl_removeMatching_of_ne (h : other ≠ relation) :
    (ls.foldl (·.removeMatching relation ·) r).relations.lookup other =
      r.relations.lookup other := by
  induction ls generalizing r
  case nil => rfl
  case cons l ls hi => rw [List.foldl_cons, hi, lookup_removeMatching_of_ne h]

theorem foldl_applyLink_delete :
    ls.foldl (applyLink .delete relation) (r, b) =
      (ls.foldl (·.removeMatching relation ·) r, b || ls.any (r.holds relation)) := by
  induction ls generalizing r b
  case nil => simp
  case cons l ls hi =>
    rw [List.foldl_cons, applyLink, hi, List.foldl_cons, List.any_cons, ← Bool.or_assoc]
    congr 1
    by_cases h : r.holds relation l
    case pos => simp [h]
    case neg =>
      have hl : (r.removeMatching relation l).links relation = r.links relation := by
        rw [links_removeMatching, if_pos rfl, List.filter_eq_self]
        simpa [holds] using h
      have hh : (r.removeMatching relation l).holds relation = r.holds relation := by
        funext l
        rw [holds, hl, ← holds]
      rw [hh]

end Resource

namespace Update

variable {u : Update} {r : Resource}

-- What an update makes of a resource.
def applied (u : Update) (r : Resource) : Resource :=
  (r.applyLinks u.operation u.binding.relation u.binding.links).1

-- Whether a resource is already as an update would make it.
def FulfilledBy (u : Update) (r : Resource) : Prop :=
  u.revise (r.links u.binding.relation) = r.links u.binding.relation

theorem attributes_applied : (u.applied r).attributes = r.attributes :=
  Resource.attributes_applyLinks

theorem links_applied :
    (u.applied r).links u.binding.relation = u.revise (r.links u.binding.relation) := by
  unfold applied revise Resource.applyLinks
  cases u.operation
  case add => rw [Resource.foldl_applyLink_add, Resource.links_addAll]
  case delete => rw [Resource.foldl_applyLink_delete, Resource.links_foldl_removeMatching]

theorem lookup_applied_of_ne {other : String} (h : other ≠ u.binding.relation) :
    (u.applied r).relations.lookup other = r.relations.lookup other := by
  unfold applied Resource.applyLinks
  cases u.operation
  case add => rw [Resource.foldl_applyLink_add, Resource.lookup_addAll_of_ne h]
  case delete =>
    rw [Resource.foldl_applyLink_delete, Resource.lookup_foldl_removeMatching_of_ne h]

-- A change is noted if and only if there is one.
theorem changed_eq_false_iff :
    (r.applyLinks u.operation u.binding.relation u.binding.links).2 = false ↔
      u.FulfilledBy r := by
  unfold FulfilledBy revise Resource.applyLinks
  cases u.operation
  case add =>
    rw [Resource.foldl_applyLink_add, List.append_right_eq_self]
    simp
  case delete =>
    rw [Resource.foldl_applyLink_delete, Link.without_eq_self_iff]
    simp [Resource.holds]

end Update

namespace Buffer

variable {b : Buffer} {a : Address} {ls : List Link}

theorem queue_registerAll (now : Int) :
    (ls.foldl (fun b l => b.register a l now) b).queue =
      Function.update b.queue a
        (b.queue a ++ (Link.fresh ((b.queue a).map (·.1)) ls).map (·, now)) := by
  induction ls generalizing b
  case nil => simp
  case cons l ls hi =>
    have hh : (b.queue a).holds l = ((b.queue a).map (·.1)).any (·.sameTarget l) := by
      simp [Queue.holds, List.any_map, Function.comp_def]
    rw [List.foldl_cons, hi, queue_register]
    by_cases h : (b.queue a).holds l
    case pos => rw [if_pos h, Link.fresh_cons_of_held (hh ▸ h)]
    case neg => simp [h, Link.fresh_cons_of_new (hh ▸ h)]

theorem queue_cancelAll :
    (ls.foldl (fun b l => b.cancel a l) b).queue =
      Function.update b.queue a ((b.queue a).filter fun w => !ls.any w.1.sameTarget) := by
  induction ls generalizing b
  case nil => simp
  case cons l ls hi =>
    rw [List.foldl_cons, hi, queue_cancel, Function.update_idem, Function.update_self,
      Queue.without, List.filter_filter]
    congr 2
    funext w
    simp [Bool.and_comm]

end Buffer
end LinkedCache
