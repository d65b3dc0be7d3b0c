import LinkedCache.Proofs.Merging
import LinkedCache.Proofs.Pruning

-- Rules are independent of one another. Each contributes to a write, or to a removal, what it would
-- contribute alone, and that comes in the order of the rules. What is stored depends on none of
-- them.

namespace LinkedCache

namespace Rule

variable {rule : Rule} {source : Source} {old : Option Resource} {o new r : Resource} {t : Int}
  {us ds as : List Update} {back : Link} {ls : List Link}

-- One withdrawal of the link back for each of some links, in their order. Without any link there
-- need not be a link back.
def Retracts (rule : Rule) (back? : Option Link) (t : Int) (ls : List Link) (ds : List Update) :
    Prop :=
  List.Forall₂ (fun l d => ∃ i back, l.identity = .ok i ∧ back? = some back ∧
    d = rule.update [i] back .delete t) ls ds

-- The old links that a write drops, if the rule withdraws them.
def lost (rule : Rule) (old : Option Resource) (new : Resource) : List Link :=
  if rule.prunes then rule.dropped old new else []

-- What a rule that does not fail derives from a write.
def Derives (rule : Rule) (source : Source) (old : Option Resource) (new : Resource) (t : Int)
    (us : List Update) : Prop :=
  ∃ ds as, us = ds ++ as ∧ rule.Announces source new t as ∧
    rule.Retracts (old.bind fun o => source.back? o new) t (rule.lost old new) ds

theorem retracts_nil {back? : Option Link} : rule.Retracts back? t [] ds ↔ ds = [] :=
  List.forall₂_nil_left_iff

theorem not_retracts_none (h : ls ≠ []) : ¬rule.Retracts none t ls ds := by
  rintro (_ | ⟨⟨_, _, _, hn, _⟩, _⟩)
  · exact h rfl
  · cases hn

theorem withdrawals_eq_ok_iff : rule.withdrawals back ls t = .ok ds ↔
    rule.Retracts (some back) t ls ds := by
  have hstep (l : Link) (d : Update) :
      (do let identity ← l.identity; pure (rule.update [identity] back .delete t)) =
          (Except.ok d : Except Error Update) ↔
        ∃ i back', l.identity = .ok i ∧ some back = some back' ∧
          d = rule.update [i] back' .delete t := by
    rw [bind_eq_ok_iff]
    simp [pure, Except.pure, eq_comm (b := d)]
  unfold withdrawals Retracts
  rw [mapM_eq_ok_iff]
  simp only [hstep]

theorem withdrawn_eq_ok_iff : rule.withdrawn source r t = .ok ds ↔
    rule.Retracts (r.backLink source.type source.fields).toOption t (r.links rule.relation) ds := by
  unfold withdrawn
  split
  case h_1 hn => rw [hn, retracts_nil, Except.ok.injEq, eq_comm]
  case h_2 hn =>
    cases r.backLink source.type source.fields
    case ok back => exact withdrawals_eq_ok_iff
    case error => exact iff_of_false nofun (not_retracts_none hn)

theorem pruned_eq_ok_iff : rule.pruned source o new t = .ok ds ↔
    rule.Retracts (source.back? o new) t (rule.stale o new) ds := by
  unfold pruned Source.back?
  split
  case h_1 hn => rw [hn, retracts_nil, Except.ok.injEq, eq_comm]
  case h_2 hn =>
    cases new.backLink source.type source.fields
    case ok back => exact withdrawals_eq_ok_iff
    case error =>
      cases o.backLink source.type source.fields
      case ok back => exact withdrawals_eq_ok_iff
      case error => exact iff_of_false nofun (not_retracts_none hn)

theorem derives_of_lost (h : rule.lost old new = []) :
    rule.Derives source old new t us ↔ rule.Announces source new t us := by
  unfold Derives
  rw [h]
  simp only [retracts_nil]
  constructor
  · rintro ⟨_, as, rfl, ha, rfl⟩
    exact ha
  · exact fun ha => ⟨[], us, rfl, ha, rfl⟩

theorem derived_eq_ok_iff_derives : rule.derived source old new t = .ok us ↔
    rule.Derives source old new t us := by
  cases old
  case none => rw [derived_none, added_eq_ok_iff, derives_of_lost (by simp [lost, dropped])]
  case some o =>
    by_cases hp : rule.prunes
    case neg =>
      rw [derived_of_not_prunes hp, added_eq_ok_iff, derives_of_lost (if_neg hp)]
    case pos =>
      rw [derived_eq_ok_iff hp, Derives, lost, if_pos hp]
      simp only [pruned_eq_ok_iff, added_eq_ok_iff, dropped, Option.bind_some]
      constructor
      · rintro ⟨ds, as, hd, ha, he⟩
        exact ⟨ds, as, he, ha, hd⟩
      · rintro ⟨ds, as, he, ha, hd⟩
        exact ⟨ds, as, hd, ha, he⟩

end Rule

namespace Registry

variable {g : Registry} {type : Descriptor} {rules : List Rule}

-- A registry in which a type triggers some other rules. The relations under which it is linked back
-- stay.
def triggering (g : Registry) (type : Descriptor) (rules : List Rule) : Registry :=
  { g with triggered := (type, rules) :: g.triggered.filter (·.1 != type) }

@[simp]
theorem rulesOf_triggering : (g.triggering type rules).rulesOf type = rules := by
  simp [rulesOf, listed, triggering]

end Registry

theorem contributions_eq_flatMap (rules : List Rule) (derive : Rule → Except Error (List Update)) :
    contributions rules derive = rules.flatMap fun rule => (derive rule).toOption.getD [] := by
  unfold contributions
  congr 1
  funext rule
  cases derive rule <;> rfl

namespace Cache

variable {c c' : Cache} {type : Descriptor} {id : String} {r : Resource} {t : Int}
  {us : List Update} {rules : List Rule}

def triggering (c : Cache) (type : Descriptor) (rules : List Rule) : Cache :=
  { c with rules := c.rules.triggering type rules }

-- The updates that a write returns.
def updatesOf : Except Error (List Update × Cache) → List Update
  | .ok (us, _) => us
  | .error _ => []

theorem reconcile_triggering (rules : List Rule) (h : c.reconcile type id r t = .ok (us, c')) :
    (c.triggering type rules).reconcile type id r t = .ok (
      contributions rules fun rule =>
        rule.derived (c.sourceOf type) (c.get? type id) (c.merge type id r) t,
      c'.triggering type rules) := by
  have ⟨s, hs⟩ := store?_of_reconcile h
  have hs' : (c.triggering type rules).store? type = some s := hs
  rw [reconcile_eq hs, Except.ok.injEq, Prod.mk.injEq] at h
  rw [reconcile_eq hs', ← h.2, triggering, Registry.rulesOf_triggering]
  rfl

theorem removalUpdates_triggering (c : Cache) (type : Descriptor) (r : Resource) (t : Int)
    (rules : List Rule) : (c.triggering type rules).removalUpdates type r t =
      contributions rules fun rule => rule.withdrawn (c.sourceOf type) r t := by
  rw [removalUpdates_eq, triggering, Registry.rulesOf_triggering]
  rfl

theorem updatesOf_alone (rule : Rule) (h : c.reconcile type id r t = .ok (us, c')) :
    updatesOf ((c.triggering type [rule]).reconcile type id r t) =
      (rule.derived (c.sourceOf type) (c.get? type id) (c.merge type id r) t).toOption.getD [] := by
  rw [reconcile_triggering [rule] h, contributions_eq_flatMap, List.flatMap_singleton]
  rfl

theorem removalUpdates_alone (c : Cache) (type : Descriptor) (r : Resource) (t : Int)
    (rule : Rule) : (c.triggering type [rule]).removalUpdates type r t =
      (rule.withdrawn (c.sourceOf type) r t).toOption.getD [] := by
  rw [removalUpdates_triggering, contributions_eq_flatMap, List.flatMap_singleton]

theorem get?_of_reconcile (h : c.reconcile type id r t = .ok (us, c')) :
    c'.get? type id = some (c.merge type id r) := by
  have ⟨s, hs⟩ := store?_of_reconcile h
  rw [reconcile_eq hs, Except.ok.injEq, Prod.mk.injEq] at h
  have hstore : c'.store? type = some (s.put id (c.merge type id r) t) :=
    h.2 ▸ (store?_withStore_of_store? hs (by simp) type).trans (if_pos rfl)
  rw [get?_of_store? hstore, Store.get?_put, if_pos rfl]

-- A write returns what each rule contributes alone, in the order of the rules, and stores the same
-- whichever rules there are. A rule that fails contributes nothing. It is the same with a removal.
theorem flatMap_alone (c : Cache) (type : Descriptor) (id : String) (r : Resource) (t : Int) :
    let old := c.get? type id
    let new := c.merge type id r
    let source := c.sourceOf type
    let alone (rule : Rule) := updatesOf ((c.triggering type [rule]).reconcile type id r t)
    let removal (rule : Rule) := (c.triggering type [rule]).removalUpdates type r t
    (c.contains type →
      (∃ c', c.reconcile type id r t = .ok ((c.rules.rulesOf type).flatMap alone, c') ∧
        c'.get? type id = some new ∧
        ∀ rules, (c.triggering type rules).reconcile type id r t =
          .ok (rules.flatMap alone, c'.triggering type rules)) ∧
      ∀ rule, alone rule = (rule.derived source old new t).toOption.getD [] ∧
        ∀ us, rule.derived source old new t = .ok us ↔ rule.Derives source old new t us) ∧
    c.removalUpdates type r t = (c.rules.rulesOf type).flatMap removal ∧
    (∀ rules, (c.triggering type rules).removalUpdates type r t = rules.flatMap removal) ∧
    ∀ rule, removal rule = (rule.withdrawn source r t).toOption.getD [] ∧
      ∀ us, rule.withdrawn source r t = .ok us ↔
        rule.Retracts (r.backLink source.type source.fields).toOption t (r.links rule.relation)
          us := by
  intro old new source alone removal
  have hremoval (rule : Rule) : removal rule = (rule.withdrawn source r t).toOption.getD [] :=
    c.removalUpdates_alone type r t rule
  have hwithdrawn (rules : List Rule) :
      (contributions rules fun rule => rule.withdrawn source r t) = rules.flatMap removal := by
    rw [contributions_eq_flatMap, funext hremoval]
  refine ⟨fun hc => ?_, ?_, fun rules => ?_,
    fun rule => ⟨hremoval rule, fun _ => Rule.withdrawn_eq_ok_iff⟩⟩
  case refine_1 =>
    have ⟨us, c', h⟩ := exists_reconcile hc id r t
    have halone (rule : Rule) : alone rule = (rule.derived source old new t).toOption.getD [] :=
      updatesOf_alone rule h
    have hcontributed (rules : List Rule) :
        (contributions rules fun rule => rule.derived source old new t) = rules.flatMap alone := by
      rw [contributions_eq_flatMap, funext halone]
    refine ⟨⟨c', ?_, get?_of_reconcile h, fun rules => ?_⟩,
      fun rule => ⟨halone rule, fun _ => Rule.derived_eq_ok_iff_derives⟩⟩
    · rw [h, ← hcontributed, ← updates_of_reconcile h]
    · rw [reconcile_triggering rules h, hcontributed]
  case refine_2 => rw [removalUpdates_eq, hwithdrawn]
  case refine_3 => rw [removalUpdates_triggering, hwithdrawn]

section Mentoring

open Roster Pipeline

def mentorship : Rule :=
  { membership .one with relation := "mentor", inverse := "mentee", target := student }

-- A student who moves to another group, and needs a mentor but has none.
theorem flatMap_alone_moving :
    let c := ((start {} Roster.types (.ofRules [(student, [mentorship, membership .zeroOrOne])])
      ()).run settled).cache
    ∃ c', c.reconcile student "1" (placed ["b"]) 3 =
      .ok ([joins .delete "1" ["a"] 3, joins .add "1" ["b"] 3], c') := by
  intro c
  have ⟨hc, _⟩ := flatMap_alone c student "1" (placed ["b"]) 3
  have ⟨⟨c', h, _⟩, _⟩ := hc (by decide +kernel)
  have hus : (c.rules.rulesOf student).flatMap (fun rule => updatesOf
      ((c.triggering student [rule]).reconcile student "1" (placed ["b"]) 3)) =
      [joins .delete "1" ["a"] 3, joins .add "1" ["b"] 3] := by
    decide +kernel
  exact ⟨c', hus ▸ h⟩

end Mentoring

end Cache
end LinkedCache
