import LinkedCache.Proofs.SharedTargets

-- Dropped links. A write over an old resource withdraws its link from where a dropped link led, but
-- what a rule withdraws is lost if the rule fails afterwards: for want of a link that it needs, or
-- because of a malformed one.

namespace LinkedCache

-- The link back to a resource that is written: that of the new one, or else that of the old one.
def Source.back? (source : Source) (o new : Resource) : Option Link :=
  (new.backLink source.type source.fields).toOption.or
    (o.backLink source.type source.fields).toOption

namespace Rule

variable {rule : Rule} {source : Source} {o new : Resource} {t : Int} {us ds : List Update}
  {d : Update} {back : Link} {ls : List Link} {l : Link} {i : String}

-- Whether nothing keeps a rule from telling the targets of a resource that they are linked.
def Succeeds (rule : Rule) (source : Source) (new : Resource) : Prop :=
  if new.links rule.relation = [] then ¬rule.isMandatory
  else (∀ l ∈ rule.counted (new.links rule.relation), l.identity?.isSome) ∧
    ∃ back, new.backLink source.type source.fields = .ok back

-- Whether a rule withdraws the link back from a target to which a dropped link led.
structure Prunes (rule : Rule) (source : Source) (o new : Resource) (i : String) : Prop where
  prunes : rule.prunes
  dropped : ∃ l ∈ rule.stale o new, l.identity? = some i
  wellFormed : ∀ l ∈ rule.stale o new, l.identity?.isSome
  succeeds : rule.Succeeds source new

theorem exists_added_iff : (∃ us, rule.added source new t = .ok us) ↔ rule.Succeeds source new := by
  unfold Succeeds
  split
  case isTrue hn => simp [added_eq_ok_iff, Announces, hn]
  case isFalse hn =>
    constructor
    · rintro ⟨us, h⟩
      rw [added_eq_ok_iff, Announces, if_neg hn] at h
      obtain ⟨ids, back, hb, hi, -⟩ := h
      refine ⟨fun l hl => ?_, back, hb⟩
      obtain ⟨i, -, he⟩ := exists_of_mapM (mapM_eq_ok.mp (mapM_eq_ok_iff.mpr hi)) hl
      simp [identity_eq_ok.mp he]
    · rintro ⟨hc, back, hb⟩
      exact ⟨_, added_of_counted hn hb hc⟩

theorem mem_pruned_iff : (∃ ds, rule.pruned source o new t = .ok ds ∧ d ∈ ds) ↔
    ∃ back, source.back? o new = some back ∧
      ∃ ds, rule.withdrawals back (rule.stale o new) t = .ok ds ∧ d ∈ ds := by
  unfold pruned Source.back?
  split
  case h_1 hn => simp [hn, withdrawals, pure, Except.pure]
  case h_2 =>
    cases new.backLink source.type source.fields
    case ok back => simp [bind, Except.bind, Except.toOption]
    case error =>
      cases o.backLink source.type source.fields <;> simp [bind, Except.bind, Except.toOption]

-- A rule that fails withdraws nothing.
theorem mem_derived_delete_iff (hd : d.operation = .delete) :
    (∃ us, rule.derived source (some o) new t = .ok us ∧ d ∈ us) ↔
      ∃ back i, source.back? o new = some back ∧ rule.Prunes source o new i ∧
        d = rule.update [i] back .delete t := by
  have hadded {us : List Update} (ha : rule.added source new t = .ok us) : d ∉ us := fun hm => by
    obtain ⟨_, _, _, _, rfl⟩ := mem_added ha hm
    cases hd
  by_cases hp : rule.prunes
  case neg =>
    rw [derived_of_not_prunes hp]
    exact iff_of_false (fun ⟨_, ha, hm⟩ => hadded ha hm) fun ⟨_, _, _, h, _⟩ => hp h.prunes
  case pos =>
    constructor
    · rintro ⟨us, h, hm⟩
      obtain ⟨ds, as, hds, has, rfl⟩ := (derived_eq_ok_iff hp).mp h
      have hm := (List.mem_append.mp hm).resolve_right (hadded has)
      have ⟨back, hb, hw⟩ := mem_pruned_iff.mp ⟨ds, hds, hm⟩
      have ⟨hl, i, hi, he⟩ := mem_withdrawals_iff.mp hw
      exact ⟨back, i, hb, ⟨hp, hi, hl, exists_added_iff.mp ⟨as, has⟩⟩, he⟩
    · rintro ⟨back, i, hb, hprunes, he⟩
      have ⟨as, has⟩ := exists_added_iff (t := t) |>.mpr hprunes.succeeds
      have hw := mem_withdrawals_iff.mpr ⟨hprunes.wellFormed, i, hprunes.dropped, he⟩
      have ⟨ds, hds, hm⟩ := mem_pruned_iff (o := o) |>.mpr ⟨back, hb, hw⟩
      exact ⟨_, (derived_eq_ok_iff hp).mpr ⟨ds, as, hds, has, rfl⟩, List.mem_append_left _ hm⟩

end Rule

-- Whether an update takes a link back from a target that a rule is about.
structure Update.Withdraws (d : Update) (rule : Rule) (i : String) : Prop where
  operation : d.operation = .delete
  target : d.target = rule.target
  relation : d.binding.relation = rule.inverse
  addressed : i ∈ d.targetIds

namespace Cache

variable {c c' : Cache} {type : Descriptor} {id i : String} {r o : Resource} {t : Int}
  {us : List Update} {d : Update} {rule : Rule}

-- All that a write over an old resource withdraws.
theorem mem_reconcile_delete_iff (h : c.reconcile type id r t = .ok (us, c'))
    (ho : c.get? type id = some o) (hd : d.operation = .delete) :
    d ∈ us ↔ ∃ rule ∈ c.rules.rulesOf type, ∃ back i,
      (c.sourceOf type).back? o (c.merge type id r) = some back ∧
      rule.Prunes (c.sourceOf type) o (c.merge type id r) i ∧
      d = rule.update [i] back .delete t := by
  rw [updates_of_reconcile h, mem_contributions, ho]
  simp only [Rule.mem_derived_delete_iff hd]

-- Whether a write withdraws the link back from a target that a rule is about. Some other rule that
-- mirrors onto the same relation may do it.
def Prunes (c : Cache) (type : Descriptor) (rule : Rule) (o new : Resource) (i : String) : Prop :=
  ∃ rule' ∈ c.rules.rulesOf type, rule'.target = rule.target ∧ rule'.inverse = rule.inverse ∧
    rule'.Prunes (c.sourceOf type) o new i

theorem prunes_iff {back : Link} (rule : Rule) (i : String)
    (h : c.reconcile type id r t = .ok (us, c'))
    (ho : c.get? type id = some o)
    (hb : (c.sourceOf type).back? o (c.merge type id r) = some back) :
    (c.Prunes type rule o (c.merge type id r) i ↔ rule.update [i] back .delete t ∈ us) ∧
    (c.Prunes type rule o (c.merge type id r) i ↔ ∃ d ∈ us, d.Withdraws rule i) := by
  have hmem : c.Prunes type rule o (c.merge type id r) i →
      rule.update [i] back .delete t ∈ us := by
    rintro ⟨rule', hr, ht, hi, hp⟩
    refine (mem_reconcile_delete_iff h ho rfl).mpr ⟨rule', hr, back, i, hb, hp, ?_⟩
    rw [Rule.update, Rule.update, ht, hi]
  have hprunes : (∃ d ∈ us, d.Withdraws rule i) → c.Prunes type rule o (c.merge type id r) i := by
    rintro ⟨d, hm, hd⟩
    obtain ⟨rule', hr, _, j, _, hp, rfl⟩ :=
      (mem_reconcile_delete_iff h ho hd.operation).mp hm
    obtain rfl : i = j := List.mem_singleton.mp hd.addressed
    exact ⟨rule', hr, hd.target, hd.relation, hp⟩
  have hwithdraws (hm : rule.update [i] back .delete t ∈ us) : ∃ d ∈ us, d.Withdraws rule i :=
    ⟨_, hm, rfl, rfl, rfl, .head _⟩
  exact ⟨⟨hmem, hprunes ∘ hwithdraws⟩, ⟨hwithdraws ∘ hmem, hprunes⟩⟩

end Cache

namespace Pipeline

variable {Outbound : Type} [Publisher Outbound]

-- A write takes its link back from where a dropped link led if and only if some rule about that
-- target does not fail. A rule fails if one of the links that were dropped or that count is
-- malformed, if a link is left but the resource has no identity any more, or if none is left and it
-- needs one.
theorem prunes_dropped (config : Config) (types : List (Descriptor × List String))
    (rules : Registry) (outbound : Outbound) (steps : List Step) (type : Descriptor) (id : String)
    (r o : Resource) (t : Int) (rule : Rule) (l back : Link) (i : String) :
    let c := ((start config types rules outbound).run steps).cache
    let new := c.merge type id r
    c.get? type id = some o → rule ∈ c.rules.rulesOf type → rule.prunes →
    l ∈ o.links rule.relation → ¬new.holds rule.relation l → l.identity? = some i →
    (c.sourceOf type).back? o new = some back →
    ∃ us c', c.reconcile type id r t = .ok (us, c') ∧
      (c.Prunes type rule o new i ↔ rule.update [i] back .delete t ∈ us) ∧
      (c.Prunes type rule o new i ↔ ∃ d ∈ us, d.Withdraws rule i) ∧
      ((∀ l ∈ rule.stale o new, l.identity?.isSome) → rule.Succeeds (c.sourceOf type) new →
        c.Prunes type rule o new i) := by
  intro c new ho hr hp hl hn hi hb
  have ⟨us, c', h⟩ := Cache.exists_reconcile (Cache.contains_of_get? ho) id r t
  have ⟨hmem, hwithdraws⟩ := Cache.prunes_iff rule i h ho hb
  have hstale : l ∈ rule.stale o new := List.mem_filter.mpr ⟨hl, by simpa using hn⟩
  exact ⟨us, c', h, hmem, hwithdraws, fun hw hs =>
    ⟨rule, hr, rfl, rfl, hp, ⟨l, hstale, hi⟩, hw, hs⟩⟩

section Moving

open Roster

-- A student of a group.
def settled : List Step := [
  .entity ⟨1, 1⟩ (sent group "a" [] 1),
  .entity ⟨2, 2⟩ (sent student "1" ["a"] 2)]

def placed (groups : List String) : Resource where
  relations := [("group", groups.map (link group))]
  attributes := [("systemId", .string "1")]

theorem prunes_dropped_moving :
    let c := ((start {} types (.ofRules (rules .zeroOrOne)) ()).run settled).cache
    let new := c.merge student "1" (placed ["b"])
    ∃ o us c', c.get? student "1" = some o ∧
      c.reconcile student "1" (placed ["b"]) 3 = .ok (us, c') ∧
      c.Prunes student (membership .zeroOrOne) o new "systemid/a" ∧
      joins .delete "1" ["a"] 3 ∈ us := by
  intro c new
  let rule := membership .zeroOrOne
  have hold : (c.get? student "1").map (fun o => decide (link group "a" ∈ o.links "group" ∧
      (c.sourceOf student).back? o new = some (link student "1") ∧
      ∀ l ∈ rule.stale o new, l.identity?.isSome)) = some true := by
    decide +kernel
  have ⟨o, ho, hold⟩ := Option.map_eq_some_iff.mp hold
  have ⟨hl, hb, hw⟩ := of_decide_eq_true hold
  have hsucceeds : rule.Succeeds (c.sourceOf student) new := by
    unfold Rule.Succeeds
    rw [if_neg (by decide +kernel)]
    exact ⟨by decide +kernel, link student "1", by decide +kernel⟩
  have ⟨us, c', h, hmem, _, hprunes⟩ := prunes_dropped {} types (.ofRules (rules .zeroOrOne)) ()
    settled student "1" (placed ["b"]) o 3 rule (link group "a") (link student "1") "systemid/a"
    ho (by decide +kernel) (by decide) hl (by decide +kernel) (by decide +kernel) hb
  exact ⟨o, us, c', ho, h, hprunes hw hsucceeds, hmem.mp (hprunes hw hsucceeds)⟩

-- A student who must have a group and leaves the only one.
theorem not_prunes_dropped_of_mandatory :
    ¬∀ (steps : List Step) (type : Descriptor) (id : String) (r o : Resource) (t : Int)
      (rule : Rule) (l : Link) (i : String) (us : List Update) (c' : Cache),
      let c := ((start {} types (.ofRules (rules .one)) ()).run steps).cache
      let new := c.merge type id r
      c.get? type id = some o → rule ∈ c.rules.rulesOf type → rule.prunes →
      l ∈ o.links rule.relation → ¬new.holds rule.relation l → l.identity? = some i →
      ((c.sourceOf type).back? o new).isSome → c.reconcile type id r t = .ok (us, c') →
      ∃ d ∈ us, d.Withdraws rule i := by
  intro h
  let c := ((start {} types (.ofRules (rules .one)) ()).run settled).cache
  let new := c.merge student "1" (placed [])
  have hold : (c.get? student "1").map (fun o => decide (link group "a" ∈ o.links "group" ∧
      ((c.sourceOf student).back? o new).isSome)) = some true := by
    decide +kernel
  have ⟨o, ho, hold⟩ := Option.map_eq_some_iff.mp hold
  have ⟨hl, hb⟩ := of_decide_eq_true hold
  have ⟨us, c', hr⟩ := Cache.exists_reconcile (Cache.contains_of_get? ho) "1" (placed []) 3
  have hus : (c.reconcile student "1" (placed []) 3).toOption.map (·.1) = some [] := by
    decide +kernel
  rw [hr] at hus
  obtain rfl : us = [] := Option.some.inj hus
  have ⟨_, hd, _⟩ := h settled student "1" (placed []) o 3 (membership .one) (link group "a")
    "systemid/a" [] c' ho (by decide +kernel) (by decide) hl (by decide +kernel) (by decide +kernel)
    hb hr
  cases hd

end Moving

end Pipeline
end LinkedCache
