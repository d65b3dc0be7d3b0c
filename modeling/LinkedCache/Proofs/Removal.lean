import LinkedCache.Proofs.FullRun
import LinkedCache.Proofs.Ties

-- Deletions and evictions. Both take resources out of the cache, and then dispatch the updates that
-- withdraw their links: one for each link under a relation that a rule is about, or none for the
-- whole relation if one of its links is malformed.

namespace LinkedCache

namespace Rule

variable {rule : Rule} {source : Source} {r : Resource} {t : Int} {us : List Update} {d : Update}
  {i : String} {back : Link} {l : Link}

-- Whether removing a resource takes its link back from a target on account of a rule.
structure Withdraws (rule : Rule) (r : Resource) (i : String) : Prop where
  wellFormed : ∀ l ∈ r.links rule.relation, l.identity?.isSome
  linked : ∃ l ∈ r.links rule.relation, l.identity? = some i

theorem exists_backLink_of_withdrawn (h : rule.withdrawn source r t = .ok us) (hd : d ∈ us) :
    ∃ back, r.backLink source.type source.fields = .ok back ∧
      rule.withdrawals back (r.links rule.relation) t = .ok us := by
  unfold withdrawn at h
  split at h
  case h_1 =>
    cases h
    cases hd
  case h_2 =>
    cases hb : r.backLink source.type source.fields
    case error => simp [hb, bind, Except.bind] at h
    case ok back => exact ⟨back, rfl, by rwa [hb] at h⟩

theorem mem_withdrawn_iff :
    (∃ ds, rule.withdrawn source r t = .ok ds ∧ d ∈ ds) ↔
      ∃ back i, r.backLink source.type source.fields = .ok back ∧ rule.Withdraws r i ∧
        d = rule.update [i] back .delete t := by
  constructor
  · rintro ⟨ds, h, hd⟩
    have ⟨back, hb, hw⟩ := exists_backLink_of_withdrawn h hd
    have ⟨hl, i, hi, he⟩ := mem_withdrawals_iff.mp ⟨ds, hw, hd⟩
    exact ⟨back, i, hb, ⟨hl, hi⟩, he⟩
  · rintro ⟨back, i, hb, ⟨hl, l, hm, hi⟩, rfl⟩
    refine ⟨_, withdrawn_eq hb hl, List.mem_map.mpr ⟨l, hm, ?_⟩⟩
    rw [Link.linkKey_eq_of_identity? hi]

end Rule

namespace Cache

variable {c₀ c c' : Cache} {type : Descriptor} {r : Resource} {t : Int} {us : List Update}
  {d : Update} {i id id' : String}

-- A type of one resource has nothing else that answers to an identity.
theorem id_of_answers (h : (c.store? type).map (fun s => s.entries.map (·.id)) = some [id])
    (ha : c.Answers type i id') : id' = id := by
  obtain ⟨s, hs, hids⟩ := Option.map_eq_some_iff.mp h
  obtain ⟨r, hr, _⟩ := ha
  rw [get?_of_store? hs, Store.get?] at hr
  obtain ⟨e, he, _⟩ := Option.map_eq_some_iff.mp hr
  have hm := Store.entry?_isSome_iff.mp (Option.isSome_of_eq_some he)
  rwa [hids, List.mem_singleton] at hm

theorem operation_of_mem_removalUpdates (h : d ∈ c.removalUpdates type r t) :
    d.operation = .delete := by
  rw [removalUpdates_eq] at h
  have ⟨_, _, hd⟩ := mem_contributions.mp h
  obtain ⟨_, _, _, _, rfl⟩ := Rule.mem_withdrawn_iff.mp hd
  rfl

theorem Loses.operation (h : c₀.Loses c us c') (hd : d ∈ us) : d.operation = .delete := by
  obtain ⟨_, _, _, _, _, hm⟩ := h.only d hd
  exact operation_of_mem_removalUpdates hm

theorem Loses.answers (h : c₀.Loses c us c')
    (ha : c'.Answers type i id) : c.Answers type i id := by
  have ⟨r, hg, ha⟩ := ha
  exact ⟨r, h.kept _ _ _ hg, h.kin.fieldsOf ▸ ha⟩

theorem Drops.refl (h : c.Sound) : c₀.Drops c [] c where
  kin := .refl c
  sound := h
  buffer := rfl
  kept _ _ _ := id
  lost _ _ _ := .inl
  only := nofun
  gone := nofun

end Cache

namespace Pipeline

variable {Outbound : Type} [Publisher Outbound] {p p' : Pipeline Outbound} {now : Moment}
  {type : Descriptor} {i id : String}

theorem get?_dispatchAll_eq_none (now : Moment) (us : List Update) :
    (p.dispatchAll now us).cache.get? type id = none ↔ p.cache.get? type id = none := by
  have hg : p.cache.Grows (p.dispatchAll now us).cache type id := p.grows_dispatchAll now us
  rw [← Option.not_isSome_iff_eq_none, hg.isSome_iff, Option.not_isSome_iff_eq_none]

inductive Removal (p : Pipeline Outbound) (now : Moment) : Pipeline Outbound → Prop
  | delete (e : EntityEvent) (h : e.payload = none) : Removal p now (p.deliver now e)
  | evict (type : Descriptor) (cutoff : Int) (n : Nat) (p' : Pipeline Outbound)
    (h : p.evict now type cutoff = .ok (n, p')) : Removal p now p'

theorem exists_remove {e : EntityEvent} (now : Moment) (hc : p.cache.contains e.type)
    (h : e.payload = none) : ∃ us c, p.cache.remove e.type e.id e.timestamp = .ok (us, c) ∧
      p.deliver now e = (p.withCache c).dispatchAll now us := by
  have ⟨us, c, hw⟩ := exists_write hc (.inl h)
  have hd : p.deliver now e = (p.withCache c).dispatchAll now us := by
    unfold deliver
    rw [hw]
  unfold write at hw
  rw [h] at hw
  exact ⟨us, c, hw, hd⟩

theorem deliver_of_not_contains {e : EntityEvent} (now : Moment) (hc : ¬p.cache.contains e.type)
    (h : e.payload = none) : p.deliver now e = p := by
  have hn : p.cache.store? e.type = none := by simpa [Cache.contains] using hc
  have hw : p.write e = .error (.unknownResource e.type.text) := by
    unfold write
    rw [h]
    dsimp only
    unfold Cache.remove
    rw [hn]
  unfold deliver
  rw [hw]

theorem get?_of_delete {e : EntityEvent} (now : Moment) (hs : p.cache.Sound)
    (h : e.payload = none) : (p.deliver now e).cache.get? e.type e.id = none := by
  by_cases hc : p.cache.contains e.type
  case pos =>
    have ⟨us, c, hr, hd⟩ := exists_remove now hc h
    rw [hd, get?_dispatchAll_eq_none]
    exact ((Cache.removes_remove hs hr).gets e.type e.id).trans (if_pos ⟨rfl, rfl⟩)
  case neg =>
    rw [deliver_of_not_contains now hc h, Option.eq_none_iff_forall_ne_some]
    exact fun r hr => hc (Cache.contains_of_get? hr)

theorem Removal.exists_drops (h : p.Removal now p') (hs : p.cache.Sound) :
    ∃ us c, p.cache.Drops p.cache us c ∧ p' = (p.withCache c).dispatchAll now us := by
  cases h
  case evict type cutoff n he =>
    obtain ⟨es, c, hev, rfl⟩ := p.evicts_of_evict now (.refl _) hs he
    exact ⟨_, c, hev.drops cutoff, rfl⟩
  case delete e he =>
    by_cases hc : p.cache.contains e.type
    case pos =>
      have ⟨us, c, hr, hd⟩ := exists_remove now hc he
      exact ⟨us, c, (Cache.removes_remove hs hr).drops (.refl _), hd⟩
    case neg => exact ⟨[], p.cache, .refl hs, deliver_of_not_contains now hc he⟩

theorem Removal.kin_and_sound (h : p.Removal now p') (hs : p.cache.Sound) :
    p.cache.Kin p'.cache ∧ p'.cache.Sound := by
  obtain ⟨us, c, hd, rfl⟩ := h.exists_drops hs
  have ⟨hk, hs'⟩ := Cache.kin_and_sound_of_changes hd.sound
    (changes_of_moves ((p.withCache c).moves_dispatchAll now us))
  exact ⟨hd.kin.trans hk, hs'⟩

theorem Removal.answers (h : p.Removal now p') (hs : p.cache.Sound)
    (ha : p'.cache.Answers type i id) : p.cache.Answers type i id := by
  obtain ⟨us, c, hd, rfl⟩ := h.exists_drops hs
  exact hd.answers (((p.withCache c).answers_dispatchAll now us hd.sound ..).mp ha)

end Pipeline
end LinkedCache
