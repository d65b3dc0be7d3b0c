import LinkedCache.Proofs.Removal

-- Targets that several sources link to, and what becomes of the link to one source when another
-- one comes or goes. Sources keep out of each other's way as long as their own links are not the
-- same: whether an update is about a link depends on the end of its address only, and not on the
-- type that stands in front.

namespace LinkedCache

namespace Rule

variable {rule : Rule} {source : Source} {old : Option Resource} {o new : Resource} {t : Int}
  {us : List Update} {u : Update} {back : Link}

theorem mem_pruned (hb : new.backLink source.type source.fields = .ok back)
    (h : rule.pruned source o new t = .ok us) (hu : u ∈ us) :
    ∃ l ∈ rule.stale o new, ∃ i, l.identity? = some i ∧ u = rule.update [i] back .delete t := by
  unfold pruned at h
  split at h
  case h_1 =>
    cases h
    cases hu
  case h_2 =>
    rw [hb] at h
    have ⟨_, i, ⟨l, hl, hi⟩, he⟩ := mem_withdrawals_iff.mp ⟨us, h, hu⟩
    exact ⟨l, hl, i, hi, he⟩

-- All that is derived from a write is about the link back to what is written, and withdraws it only
-- from where a dropped link led.
theorem mem_derived (hb : new.backLink source.type source.fields = .ok back)
    (h : rule.derived source old new t = .ok us) (hu : u ∈ us) :
    ∃ ids operation, u = rule.update ids back operation t ∧
      (operation = .delete → rule.prunes ∧
        ∃ l ∈ rule.dropped old new, ∃ i, l.identity? = some i ∧ ids = [i]) := by
  have hadded {us : List Update} (h : rule.added source new t = .ok us) (hu : u ∈ us) :
      ∃ ids operation, u = rule.update ids back operation t ∧
        (operation = .delete → rule.prunes ∧
          ∃ l ∈ rule.dropped old new, ∃ i, l.identity? = some i ∧ ids = [i]) := by
    obtain ⟨ids, back', _, hb', he⟩ := mem_added h hu
    obtain rfl := Except.ok.inj (hb.symm.trans hb')
    exact ⟨ids, .add, he, nofun⟩
  cases old
  case none => exact hadded (derived_none ▸ h) hu
  case some o =>
    by_cases hp : rule.prunes
    case neg => exact hadded (derived_of_not_prunes hp ▸ h) hu
    case pos =>
      obtain ⟨ds, as, hds, has, rfl⟩ := (derived_eq_ok_iff hp).mp h
      obtain hu | hu := List.mem_append.mp hu
      case inr => exact hadded has hu
      case inl =>
        obtain ⟨l, hl, i, hi, he⟩ := mem_pruned hb hds hu
        exact ⟨[i], .delete, he, fun _ => ⟨hp, l, hl, i, hi, rfl⟩⟩

theorem exists_derived (source : Source) (t : Int) (hn : new.links rule.relation ≠ [])
    (hb : new.backLink source.type source.fields = .ok back)
    (hc : ∀ l ∈ rule.counted (new.links rule.relation), l.identity?.isSome)
    (hd : rule.prunes → ∀ l ∈ rule.dropped old new, l.identity?.isSome) :
    ∃ ds, rule.derived source old new t = .ok (ds ++ [rule.update
      ((rule.counted (new.links rule.relation)).map Update.linkKey) back .add t]) := by
  have ha := added_of_counted (t := t) hn hb hc
  unfold derived
  cases old
  case none => exact ⟨[], by simp [ha, bind, Except.bind, pure, Except.pure]⟩
  case some o =>
    by_cases hp : rule.prunes
    case neg => exact ⟨[], by simp [hp, ha, bind, Except.bind, pure, Except.pure]⟩
    case pos =>
      refine ⟨(rule.stale o new).map fun l => rule.update [Update.linkKey l] back .delete t, ?_⟩
      simp [hp, pruned_eq (t := t) hb (hd hp), ha, bind, Except.bind, pure, Except.pure]

end Rule

theorem Update.effect_or {u : Update} {before hit hit' : Prop} :
    u.Effect (u.Effect before hit) hit' ↔ u.Effect before (hit ∨ hit') := by
  unfold Effect
  split
  case h_1 => exact or_assoc
  case h_2 => rw [and_assoc, not_or]

theorem Update.mem_keys_iff {u : Update} {link : Link} :
    linkKey link ∈ u.keys ↔ ∃ l ∈ u.binding.links, l.sameTarget link := by
  simp only [keys, List.mem_map, Link.sameTarget_iff]

-- A link under a relation of a resource.
structure Anchor where
  type : Descriptor
  id : String
  relation : String
  link : Link

namespace Cache

variable {c c' : Cache} {u : Update} {a : Anchor} {type : Descriptor} {i id : String} {now : Int}

def Linked (c : Cache) (a : Anchor) : Prop :=
  ∃ r, c.get? a.type a.id = some r ∧ r.holds a.relation a.link

instance (c : Cache) (a : Anchor) : Decidable (c.Linked a) :=
  decidable_of_iff ((c.get? a.type a.id).any (·.holds a.relation a.link)) (by
    unfold Linked
    cases c.get? a.type a.id <;> simp)

-- Whether an update is about a link, in a cache where no resource but the link's own answers to its
-- identities.
structure Touches (c : Cache) (u : Update) (a : Anchor) : Prop where
  target : u.target = a.type
  relation : u.binding.relation = a.relation
  links : ∃ l ∈ u.binding.links, l.sameTarget a.link
  addressed : ∃ i ∈ u.targetIds, c.Answers a.type i a.id

theorem touches_congr (h : ∀ i, c'.Answers a.type i a.id ↔ c.Answers a.type i a.id) :
    c'.Touches u a ↔ c.Touches u a := by
  constructor
  · rintro ⟨ht, hr, hl, i, hm, ha⟩
    exact ⟨ht, hr, hl, i, hm, (h i).mp ha⟩
  · rintro ⟨ht, hr, hl, i, hm, ha⟩
    exact ⟨ht, hr, hl, i, hm, (h i).mpr ha⟩

-- Whether no other resource answers to an identity of a resource.
def Alone (c : Cache) (type : Descriptor) (id : String) : Prop :=
  ∀ i id', c.Answers type i id → c.Answers type i id' → id' = id

theorem alone_of_ids (h : (c.store? type).map (fun s => s.entries.map (·.id)) = some [id]) :
    c.Alone type id :=
  fun _ _ _ => id_of_answers h

structure Known (c : Cache) (type : Descriptor) (id : String) : Prop where
  sound : c.Sound
  cached : (c.get? type id).isSome
  alone : c.Alone type id

theorem linked_congr {link : Link} (h : link.sameTarget a.link) :
    c.Linked { a with link } ↔ c.Linked a := by
  unfold Linked
  simp only [Resource.holds_iff, Link.sameTarget_iff.mp h]

theorem linked_applies (halone : c.Alone a.type a.id) (ha : Applies u i c c') :
    c'.Linked a ↔ u.Effect (c.Linked a) (u.target = a.type ∧ u.binding.relation = a.relation ∧
      Update.linkKey a.link ∈ u.keys ∧ c.Answers a.type i a.id) := by
  unfold Linked
  cases ha
  case away absent gets _ =>
    rw [gets, Update.effect_of_not_hit]
    exact fun h => absent a.id (h.1 ▸ h.2.2.2)
  case here id' r r' answers cached acts gets _ =>
    rw [gets]
    by_cases hi : a.type = u.target ∧ a.id = id'
    case neg =>
      rw [if_neg hi, Update.effect_of_not_hit]
      exact fun h => hi ⟨h.1.symm, (halone i id' h.2.2.2 (h.1 ▸ answers)).symm⟩
    case pos =>
      have hans : c.Answers a.type i a.id := hi.1 ▸ hi.2 ▸ answers
      rw [if_pos hi, hi.1, hi.2, cached]
      simp only [Option.some.injEq, exists_eq_left', Resource.holds_iff, acts.reaches]
      rw [← hi.1, ← hi.2]
      simp only [hans, and_true, true_and, eq_comm]

theorem linked_apply (u : Update) (now : Int) (h : c.Known a.type a.id) :
    (c.apply u now).2.Linked a ↔ u.Effect (c.Linked a) (c.Touches u a) := by
  by_cases hu : c.contains u.target
  case neg =>
    rw [apply_of_not_contains hu, Update.effect_of_not_hit]
    have ⟨r, hr⟩ := Option.isSome_iff_exists.mp h.cached
    exact fun ht => hu (ht.target ▸ contains_of_get? hr)
  case pos =>
    let P (ids : List String) (c' : Cache) : Prop :=
      (∀ i id, c'.Answers a.type i id ↔ c.Answers a.type i id) ∧
      (c'.Linked a ↔ u.Effect (c.Linked a) (∃ i ∈ ids, u.target = a.type ∧
        u.binding.relation = a.relation ∧ Update.linkKey a.link ∈ u.keys ∧
        c.Answers a.type i a.id))
    have hp : P u.targetIds (c.apply u now).2 := by
      refine (apply_fold (P := P) h.sound hu ?_ ?_).1
      case refine_1 => exact ⟨fun _ _ => .rfl, (Update.effect_of_not_hit (by simp)).symm⟩
      case refine_2 =>
        rintro ids i - c₁ c₂ hk - ha ⟨hans, hl⟩
        have halone : c₁.Alone a.type a.id := fun j id h₁ h₂ =>
          h.alone j id ((hans j a.id).mp h₁) ((hans j id).mp h₂)
        refine ⟨fun j id => (ha.answers_iff hk ..).trans (hans j id), ?_⟩
        rw [linked_applies halone ha, hl, Update.effect_or, hans]
        simp only [List.mem_append, List.mem_singleton, or_and_right, exists_or, exists_eq_left]
    rw [hp.2]
    have ht : c.Touches u a ↔ ∃ i ∈ u.targetIds, u.target = a.type ∧
        u.binding.relation = a.relation ∧ Update.linkKey a.link ∈ u.keys ∧
        c.Answers a.type i a.id := by
      rw [Update.mem_keys_iff]
      constructor
      · exact fun ⟨ht, hr, hl, i, hm, ha⟩ => ⟨i, hm, ht, hr, hl, ha⟩
      · exact fun ⟨i, hm, ht, hr, hl, ha⟩ => ⟨ht, hr, hl, i, hm, ha⟩
    rw [ht]

-- Whether removing a resource takes a link away. It does if the link is the one back to the
-- resource, and the resource links to where it is, under a relation without malformed links.
structure Strips (c : Cache) (type : Descriptor) (s : Resource) (a : Anchor) : Prop where
  back : ∃ back, s.backLink type (c.fieldsOf type) = .ok back ∧ back.sameTarget a.link
  withdraws : ∃ rule ∈ c.rules.rulesOf type, rule.target = a.type ∧ rule.inverse = a.relation ∧
    ∃ i, rule.Withdraws s i ∧ c.Answers a.type i a.id

theorem strips_iff (t : Int) {s : Resource} :
    c.Strips type s a ↔ ∃ d ∈ c.removalUpdates type s t, c.Touches d a := by
  simp only [removalUpdates_eq, mem_contributions, Rule.mem_withdrawn_iff]
  constructor
  · rintro ⟨⟨back, hb, hsame⟩, rule, hr, ht, hi, i, hw, ha⟩
    refine ⟨_, ⟨rule, hr, back, i, hb, hw, rfl⟩, ht, hi, ?_, i, .head _, ha⟩
    exact ⟨back, .head _, hsame⟩
  · rintro ⟨_, ⟨rule, hr, back, i, hb, hw, rfl⟩, ht, hi, ⟨l, hl, hsame⟩, j, hj, ha⟩
    obtain rfl : l = back := List.mem_singleton.mp hl
    obtain rfl : j = i := List.mem_singleton.mp hj
    exact ⟨⟨l, hb, hsame⟩, rule, hr, ht, hi, j, hw, ha⟩

-- The resource that a write stores.
def merge (c : Cache) (type : Descriptor) (id : String) (r : Resource) : Resource :=
  (Resource.mergeInverse type (c.rules.inverseRelationsOf type) (r.identities (c.fieldsOf type))
    (c.get? type id) r c.buffer).1

theorem updates_of_reconcile {r : Resource} {t : Int} {us : List Update}
    (h : c.reconcile type id r t = .ok (us, c')) :
    us = contributions (c.rules.rulesOf type) fun rule =>
      rule.derived (c.sourceOf type) (c.get? type id) (c.merge type id r) t := by
  unfold reconcile at h
  split at h
  case h_1 => simp at h
  case h_2 store hs =>
    simp only [Except.ok.injEq, Prod.mk.injEq] at h
    rw [← h.1, sourceOf, merge, fieldsOf_of_store? hs, get?_of_store? hs, source,
      type_of_store? hs]

end Cache

namespace Pipeline

variable {Outbound : Type} [Publisher Outbound] {p p' : Pipeline Outbound} {now : Moment}
  {us ds before after : List Update} {u : Update} {a : Anchor} {type : Descriptor} {id : String}
  {c : Cache}

section Dispatch

theorem known_dispatchAll (now : Moment) (us : List Update) (h : p.cache.Known type id) :
    (p.dispatchAll now us).cache.Known type id where
  sound := (Cache.kin_and_sound_of_changes h.sound
    (changes_of_moves (moves_dispatchAll p now us))).2
  cached := by
    have hg : p.cache.Grows (p.dispatchAll now us).cache type id := p.grows_dispatchAll now us
    exact hg.isSome_iff.mpr h.cached
  alone i id' hi hi' := by
    rw [p.answers_dispatchAll now us h.sound] at hi hi'
    exact h.alone i id' hi hi'

theorem touches_dispatchAll (now : Moment) (us : List Update) (hs : p.cache.Sound) :
    (p.dispatchAll now us).cache.Touches u a ↔ p.cache.Touches u a :=
  Cache.touches_congr fun _ => p.answers_dispatchAll now us hs ..

theorem linked_dispatch (now : Moment) (u : Update) (h : p.cache.Known a.type a.id) :
    (p.dispatchAll now [u]).cache.Linked a ↔ u.Effect (p.cache.Linked a) (p.cache.Touches u a) := by
  have hc : (p.dispatchAll now [u]).cache = (p.cache.apply u now.wall).2 := cache_dispatch p now u
  rw [hc, Cache.linked_apply u now.wall h]

-- What is linked stays linked unless an update takes the link away.
theorem linked_of_linked (h : p.cache.Known a.type a.id) (hl : p.cache.Linked a)
    (hus : ∀ u ∈ us, u.operation = .delete → ¬p.cache.Touches u a) :
    (p.dispatchAll now us).cache.Linked a := by
  induction us generalizing p
  case nil => exact hl
  case cons u us hi =>
    have hu := hus u (.head _)
    refine hi (p := p.dispatchAll now [u]) (known_dispatchAll now [u] h) ?_ fun u hm => ?_
    case refine_1 =>
      rw [linked_dispatch now u h]
      unfold Update.Effect
      cases ho : u.operation
      case add => exact .inl hl
      case delete => exact ⟨hl, hu ho⟩
    case refine_2 =>
      rw [touches_dispatchAll now [_] h.sound]
      exact hus u (.tail _ hm)

-- The last update that is about a link decides on it.
theorem linked_of_added (h : p.cache.Known a.type a.id) (ho : u.operation = .add)
    (hu : p.cache.Touches u a)
    (hafter : ∀ u ∈ after, u.operation = .delete → ¬p.cache.Touches u a) :
    (p.dispatchAll now (before ++ u :: after)).cache.Linked a := by
  have hbefore := known_dispatchAll now before h
  have hadded : ((p.dispatchAll now before).dispatchAll now [u]).cache.Linked a := by
    rw [linked_dispatch now u hbefore, Update.Effect, ho]
    exact .inr ((touches_dispatchAll now before h.sound).mpr hu)
  rw [List.append_cons, dispatchAll_append, dispatchAll_append]
  refine linked_of_linked (known_dispatchAll now [u] hbefore) hadded fun u' hm ho' => ?_
  rw [touches_dispatchAll now [u] hbefore.sound, touches_dispatchAll now before h.sound]
  exact hafter u' hm ho'

theorem linked_deletes_iff (h : p.cache.Known a.type a.id)
    (hds : ∀ d ∈ ds, d.operation = .delete) :
    (p.dispatchAll now ds).cache.Linked a ↔
      p.cache.Linked a ∧ ∀ d ∈ ds, ¬p.cache.Touches d a := by
  induction ds generalizing p
  case nil => simp [dispatchAll]
  case cons d ds hi =>
    have hd := hds d (.head _)
    have hi := hi (p := p.dispatchAll now [d]) (known_dispatchAll now [d] h)
      fun d hm => hds d (.tail _ hm)
    rw [linked_dispatch now d h, Update.Effect, hd] at hi
    simp only [touches_dispatchAll now [d] h.sound] at hi
    rw [List.forall_mem_cons, ← and_assoc]
    exact hi

end Dispatch

section Removal

-- What takes resources out of a cache takes those links away that lead back to one of them.
theorem linked_of_drops (now : Moment) (h : p.cache.Drops p.cache ds c)
    (hk : p.cache.Known a.type a.id) (hc : (c.get? a.type a.id).isSome) :
    ((p.withCache c).dispatchAll now ds).cache.Linked a ↔ p.cache.Linked a ∧
      ∀ type id s, p.cache.get? type id = some s →
        ((p.withCache c).dispatchAll now ds).cache.get? type id = none →
          ¬p.cache.Strips type s a := by
  have hsame : c.get? a.type a.id = p.cache.get? a.type a.id := by
    have ⟨r, hr⟩ := Option.isSome_iff_exists.mp hc
    rw [hr, h.kept _ _ _ hr]
  have hans (i : String) : c.Answers a.type i a.id ↔ p.cache.Answers a.type i a.id := by
    unfold Cache.Answers
    rw [hsame, h.kin.fieldsOf]
  have hknown : c.Known a.type a.id :=
    ⟨h.sound, hc, fun i id hi hi' => hk.alone i id (h.answers hi) (h.answers hi')⟩
  have hlinked : c.Linked a ↔ p.cache.Linked a := by
    unfold Cache.Linked
    rw [hsame]
  have htouches (d : Update) : c.Touches d a ↔ p.cache.Touches d a := Cache.touches_congr hans
  have hdeletes : ((p.withCache c).dispatchAll now ds).cache.Linked a ↔
      c.Linked a ∧ ∀ d ∈ ds, ¬c.Touches d a :=
    linked_deletes_iff (p := p.withCache c) hknown fun _ => h.operation
  refine hdeletes.trans (and_congr hlinked
    ⟨fun hn type id s hg hgone hstrips => ?_, fun hn d hd ht => ?_⟩)
  case refine_1 =>
    have hgone : c.get? type id = none := (get?_dispatchAll_eq_none now ds).mp hgone
    obtain hg | ⟨t, hsub⟩ := h.lost _ _ _ hg
    · exact nomatch hgone.symm.trans hg
    · have ⟨d, hd, ht⟩ := (Cache.strips_iff t).mp hstrips
      exact hn d (hsub hd) ((htouches d).mpr ht)
  case refine_2 =>
    have ⟨type, id, r, t, hg, hgone, hd⟩ := h.gone d hd
    refine hn type id r hg ((get?_dispatchAll_eq_none now ds).mpr hgone) ?_
    exact (Cache.strips_iff t).mpr ⟨d, hd, (htouches d).mp ht⟩

theorem linked_removal_iff (h : p.Removal now p') (hk : p.cache.Known a.type a.id)
    (hc : (p'.cache.get? a.type a.id).isSome) :
    p'.cache.Linked a ↔ p.cache.Linked a ∧ ∀ type id s, p.cache.get? type id = some s →
      p'.cache.get? type id = none → ¬p.cache.Strips type s a := by
  obtain ⟨ds, c, hd, rfl⟩ := h.exists_drops hk.sound
  refine linked_of_drops now hd hk ?_
  rw [Option.isSome_iff_ne_none] at hc ⊢
  exact mt (get?_dispatchAll_eq_none (p := p.withCache c) now ds).mpr hc

end Removal

section Mirror

variable {e : EntityEvent} {rule : Rule} {r : Resource} {back link : Link}

-- Whether an event brings a source that a rule links a target back to. The source is taken as it is
-- stored, with what waited for it. A malformed link would keep the rule from being applied, and a
-- later rule about the same relation could withdraw what this one adds.
structure Mirrors (p : Pipeline Outbound) (now : Moment) (e : EntityEvent) (rule : Rule)
    (r : Resource) (id : String) (back : Link) : Prop where
  served : p.cache.contains e.type
  brings : ∃ a, e.arrival? = some a ∧ p.cache.merge e.type e.id a.resource = r
  apart : ¬(rule.target = e.type ∧ id = e.id)
  cached : (p.cache.get? rule.target id).isSome
  alone : (p.deliver now e).cache.Alone rule.target id
  back : r.backLink e.type (p.cache.fieldsOf e.type) = .ok back
  first : ∃ l i, (r.links rule.relation).head? = some l ∧ l.identity? = some i ∧
    (p.deliver now e).cache.Answers rule.target i id
  wellFormed : ∀ l ∈ rule.counted (r.links rule.relation), l.identity?.isSome
  dropped : rule.prunes → ∀ l ∈ rule.dropped (p.cache.get? e.type e.id) r, l.identity?.isSome
  last : ∃ before after, p.cache.rules.rulesOf e.type = before ++ rule :: after ∧
    ∀ rule' ∈ after, rule'.target = rule.target → rule'.inverse = rule.inverse → rule'.prunes →
      ∀ l ∈ rule'.dropped (p.cache.get? e.type e.id) r, ∀ i, l.identity? = some i →
        ¬(p.deliver now e).cache.Answers rule.target i id

-- What a delivery of a source dispatches, and where.
theorem Mirrors.exists_writes (h : p.Mirrors now e rule r id back) (hs : p.cache.Sound) :
    ∃ us c, p.deliver now e = (p.withCache c).dispatchAll now us ∧
      c.get? rule.target id = p.cache.get? rule.target id ∧ c.Known rule.target id ∧
      (∀ i, (p.deliver now e).cache.Answers rule.target i id ↔ c.Answers rule.target i id) ∧
      us = contributions (p.cache.rules.rulesOf e.type) fun rule =>
        rule.derived (p.cache.sourceOf e.type) (p.cache.get? e.type e.id) r e.timestamp := by
  obtain ⟨a, ha, rfl⟩ := h.brings
  have ⟨ht, hi, htime, _⟩ := EntityEvent.arrival?_eq_some ha
  have ⟨us, c, hw, hr⟩ := write_arrival ha h.served
  rw [ht, hi, htime] at hr
  have hd : p.deliver now e = (p.withCache c).dispatchAll now us := by
    unfold deliver
    rw [hw]
  have hwrites := Cache.writes_reconcile hs hr
  have ⟨_, _, hgets, _⟩ := hwrites.merges
  have hget := (hgets rule.target id).trans (if_neg h.apart)
  have hans (i id : String) : (p.deliver now e).cache.Answers rule.target i id ↔
      c.Answers rule.target i id := by
    rw [hd]
    exact answers_dispatchAll (p.withCache c) now us hwrites.sound ..
  refine ⟨us, c, hd, hget, ⟨hwrites.sound, hget ▸ h.cached, fun i id' h₁ h₂ => ?_⟩,
    fun i => hans i id, Cache.updates_of_reconcile hr⟩
  exact h.alone i id' ((hans i id).mpr h₁) ((hans i id').mpr h₂)

theorem contributions_append_cons {rules rules' : List Rule}
    {derive : Rule → Except Error (List Update)} (h : derive rule = .ok (ds ++ [u])) :
    contributions (rules ++ rule :: rules') derive =
      (contributions rules derive ++ ds) ++ u :: contributions rules' derive := by
  simp [contributions, h]

theorem Mirrors.known (h : p.Mirrors now e rule r id back) (hs : p.cache.Sound) :
    (p.deliver now e).cache.Known rule.target id := by
  have ⟨us, c, hd, _, hknown, _⟩ := h.exists_writes hs
  rw [hd]
  exact known_dispatchAll (p := p.withCache c) now us hknown

theorem Mirrors.linked (h : p.Mirrors now e rule r id back) (hs : p.cache.Sound) :
    (p.deliver now e).cache.Linked ⟨rule.target, id, rule.inverse, back⟩ := by
  have ⟨us, c, hd, _, hknown, hans, hus⟩ := h.exists_writes hs
  have ⟨l, i, hl, hi, ha⟩ := h.first
  have ⟨before, after, hrules, hlast⟩ := h.last
  have hcounted : l ∈ rule.counted (r.links rule.relation) := by
    unfold Rule.counted
    split
    case isTrue => exact List.mem_of_mem_head? hl
    case isFalse => simp [List.take_one, hl]
  have ⟨ds, hderived⟩ := Rule.exists_derived (p.cache.sourceOf e.type) e.timestamp
    (List.ne_nil_of_mem (List.mem_of_mem_head? hl)) h.back h.wellFormed h.dropped
  rw [hrules, contributions_append_cons hderived] at hus
  rw [hd, hus]
  refine linked_of_added (p := p.withCache c) (a := ⟨rule.target, id, rule.inverse, back⟩)
    hknown rfl ⟨rfl, rfl, ⟨back, .head _, ?_⟩, i, ?_, (hans i).mp ha⟩ fun u hu ho ht => ?_
  case refine_1 => exact Link.sameTarget_iff.mpr rfl
  case refine_2 => exact List.mem_map.mpr ⟨l, hcounted, Link.linkKey_eq_of_identity? hi⟩
  case refine_3 =>
    have ⟨rule', hr, us', hderived', hu⟩ := mem_contributions.mp hu
    obtain ⟨ids, operation, rfl, hdrop⟩ := Rule.mem_derived h.back hderived' hu
    have ⟨hprunes, l', hl', i', hi', hids⟩ := hdrop ho
    have ⟨j, hj, ha'⟩ := ht.addressed
    obtain rfl : j = i' := List.mem_singleton.mp (hids ▸ hj)
    exact hlast rule' hr ht.target ht.relation hprunes l' hl' j hi' ((hans j).mpr ha')

-- All that a delivery dispatches is about the link to the source that it brings.
theorem Mirrors.linked_of_linked (link : Link) (h : p.Mirrors now e rule r id back)
    (hs : p.cache.Sound)
    (hl : p.cache.Linked ⟨rule.target, id, rule.inverse, link⟩) :
    (p.deliver now e).cache.Linked ⟨rule.target, id, rule.inverse, link⟩ := by
  by_cases hsame : back.sameTarget link
  case pos =>
    have hiff := Cache.linked_congr (c := (p.deliver now e).cache)
      (a := ⟨rule.target, id, rule.inverse, link⟩) hsame
    exact hiff.mp (h.linked hs)
  case neg =>
    have ⟨us, c, hd, hget, hknown, _, hus⟩ := h.exists_writes hs
    rw [hd]
    refine Pipeline.linked_of_linked (p := p.withCache c)
      (a := ⟨rule.target, id, rule.inverse, link⟩) hknown ?_ fun u hu _ ht => hsame ?_
    case refine_1 =>
      have ⟨t, ht, hholds⟩ := hl
      exact ⟨t, hget.trans ht, hholds⟩
    case refine_2 =>
      rw [hus] at hu
      have ⟨_, _, _, hderived, hu⟩ := mem_contributions.mp hu
      obtain ⟨_, _, rfl, _⟩ := Rule.mem_derived h.back hderived hu
      have ⟨l, hl, hsame⟩ := ht.links
      exact List.mem_singleton.mp hl ▸ hsame

end Mirror

-- Two sources that a target is linked back to. The target holds the links to both of them, and when
-- any resources go, be it one of the sources, it still holds a link unless it leads back to one of
-- the resources that go, or to a namesake of one.
theorem linked_beside (config : Config) (types : List (Descriptor × List String))
    (rules : Registry) (outbound : Outbound) (steps : List Step) (now₁ now₂ : Moment)
    (e₁ e₂ : EntityEvent) (rule₁ rule₂ : Rule) (r₁ r₂ : Resource) (id : String)
    (back₁ back₂ : Link) :
    let p := (start config types rules outbound).run steps
    let p₁ := p.deliver now₁ e₁
    let p₂ := p₁.deliver now₂ e₂
    p.Mirrors now₁ e₁ rule₁ r₁ id back₁ → p₁.Mirrors now₂ e₂ rule₂ r₂ id back₂ →
    rule₂.target = rule₁.target → rule₂.inverse = rule₁.inverse →
      p₂.cache.Linked ⟨rule₁.target, id, rule₁.inverse, back₁⟩ ∧
      p₂.cache.Linked ⟨rule₁.target, id, rule₁.inverse, back₂⟩ ∧
      ∀ now p₃ link, p₂.Removal now p₃ → (p₃.cache.get? rule₁.target id).isSome →
        (p₃.cache.Linked ⟨rule₁.target, id, rule₁.inverse, link⟩ ↔
          p₂.cache.Linked ⟨rule₁.target, id, rule₁.inverse, link⟩ ∧
          ∀ type id' s, p₂.cache.get? type id' = some s → p₃.cache.get? type id' = none →
            ¬p₂.cache.Strips type s ⟨rule₁.target, id, rule₁.inverse, link⟩) := by
  intro p p₁ p₂ h₁ h₂ htarget hinverse
  have hs : p.cache.Sound := sound_run steps
  have hs₁ : p₁.cache.Sound := (h₁.known hs).sound
  have hlinked₁ := h₁.linked hs
  have hlinked₂ := h₂.linked hs₁
  have hknown := h₂.known hs₁
  rw [htarget, hinverse] at hlinked₂
  rw [htarget] at hknown
  refine ⟨?_, hlinked₂, fun now p₃ link hr hc => ?_⟩
  case refine_1 =>
    have hstays := h₂.linked_of_linked back₁ hs₁
    rw [htarget, hinverse] at hstays
    exact hstays hlinked₁
  case refine_2 =>
    exact linked_removal_iff (a := ⟨rule₁.target, id, rule₁.inverse, link⟩) hr hknown hc

section Staff

open Roster

def teacher : Descriptor := ⟨"school", "roster", "teacher"⟩

def staffed : List (Descriptor × List String) := types ++ [(teacher, ["systemId"])]

-- Groups have students and teachers for members.
def memberships : List (Descriptor × List Rule) :=
  [(student, [membership .zeroOrOne]), (teacher, [membership .zeroOrOne])]

def opening : List Step := [.entity ⟨1, 1⟩ (sent group "a" [] 1)]

theorem answers_of_indexed {c : Cache}
    (h : (c.get? group "a").map (Store.indexed (c.fieldsOf group)) = some [("systemid", "a")]) :
    c.Answers group "systemid/a" "a" := by
  have ⟨g, hg, hi⟩ := Option.map_eq_some_iff.mp h
  exact ⟨g, hg, "systemid", "a", by decide +kernel, hi ▸ .head _⟩

theorem mirrors_sent {p : Pipeline Unit} {now : Moment} {type : Descriptor} {value : String}
    {t : Int} {r : Resource} {back : Link}
    (hr : ((sent type value ["a"] t).arrival?.map fun a =>
      p.cache.merge type value a.resource) = some r)
    (hc : p.cache.contains type) (ht : type ≠ group) (hg : (p.cache.get? group "a").isSome)
    (hb : r.backLink type (p.cache.fieldsOf type) = .ok back)
    (hl : r.links "group" = [link group "a"]) (hn : p.cache.get? type value = none)
    (hrules : p.cache.rules.rulesOf type = [membership .zeroOrOne])
    (hids : ((p.deliver now (sent type value ["a"] t)).cache.store? group).map
      (fun s => s.entries.map (·.id)) = some ["a"])
    (hindex : ((p.deliver now (sent type value ["a"] t)).cache.get? group "a").map
      (Store.indexed ((p.deliver now (sent type value ["a"] t)).cache.fieldsOf group)) =
        some [("systemid", "a")]) :
    p.Mirrors now (sent type value ["a"] t) (membership .zeroOrOne) r "a" back where
  served := hc
  brings := by
    have ⟨a, ha, he⟩ := Option.map_eq_some_iff.mp hr
    exact ⟨a, ha, he⟩
  apart h := ht h.1.symm
  cached := hg
  alone := Cache.alone_of_ids hids
  back := hb
  first := ⟨link group "a", "systemid/a", congrArg List.head? hl, by decide +kernel,
    answers_of_indexed hindex⟩
  wellFormed l hm := by
    have hm : l ∈ (r.links "group").take 1 := hm
    rw [hl] at hm
    obtain rfl := List.mem_singleton.mp hm
    decide +kernel
  dropped _ l hm := by
    have hm : l ∈ (membership .zeroOrOne).dropped (p.cache.get? type value) r := hm
    simp [hn, Rule.dropped] at hm
  last := ⟨[], [], hrules, by simp⟩

theorem linked_beside_student :
    let p := (start {} staffed (.ofRules memberships) ()).run opening
    let p₁ := p.deliver ⟨2, 2⟩ (sent student "1" ["a"] 2)
    let p₂ := p₁.deliver ⟨3, 3⟩ (sent teacher "2" ["a"] 3)
    let p₃ := p₂.deliver ⟨4, 4⟩ { sent student "1" [] 4 with payload := none }
    p₂.cache.Linked ⟨group, "a", "member", link student "1"⟩ ∧
    p₂.cache.Linked ⟨group, "a", "member", link teacher "2"⟩ ∧
    p₃.cache.Linked ⟨group, "a", "member", link teacher "2"⟩ := by
  intro p p₁ p₂ p₃
  let r₁ := p.cache.merge student "1" ⟨[("group", [link group "a"])], [("systemId", .string "1")]⟩
  let r₂ := p₁.cache.merge teacher "2" ⟨[("group", [link group "a"])], [("systemId", .string "2")]⟩
  have h₁ : p.Mirrors ⟨2, 2⟩ (sent student "1" ["a"] 2) (membership .zeroOrOne) r₁ "a"
      (link student "1") := by
    refine mirrors_sent rfl ?_ ?_ ?_ ?_ ?_ ?_ ?_ ?_ ?_ <;> decide +kernel
  have h₂ : p₁.Mirrors ⟨3, 3⟩ (sent teacher "2" ["a"] 3) (membership .zeroOrOne) r₂ "a"
      (link teacher "2") := by
    refine mirrors_sent rfl ?_ ?_ ?_ ?_ ?_ ?_ ?_ ?_ ?_ <;> decide +kernel
  have ⟨hstudent, hteacher, hiff⟩ := linked_beside {} staffed (.ofRules memberships) () opening
    ⟨2, 2⟩ ⟨3, 3⟩ _ _ _ _ r₁ r₂ "a" _ _ h₁ h₂ rfl rfl
  refine ⟨hstudent, hteacher, ?_⟩
  refine (hiff ⟨4, 4⟩ p₃ (link teacher "2") (.delete _ rfl) ?_).mpr ⟨hteacher, ?_⟩
  case refine_1 => decide +kernel
  case refine_2 =>
    -- Only the student goes, and links to the student and the teacher have different ends.
    intro type id' s hg hn hstrips
    have hi : type = student ∧ id' = "1" := by
      by_contra hi
      have hgrows : p₂.cache.Grows p₃.cache type id' := grows_deliver ⟨4, 4⟩ hi
      have hsome := hgrows.isSome_iff.mpr (Option.isSome_of_eq_some hg)
      simp [hn] at hsome
    obtain ⟨rfl, rfl⟩ := hi
    have hback : (p₂.cache.get? student "1").map (·.backLink student (p₂.cache.fieldsOf student)) =
        some (.ok (link student "1")) := by
      decide +kernel
    obtain ⟨back, hb, hsame⟩ := hstrips.back
    rw [hg, Option.map_some, hb] at hback
    cases hback
    exact absurd hsame (by decide +kernel)

-- A student links to a group in two ways.
def sided : List (Descriptor × List Rule) :=
  [(student, [{ membership .zeroOrOne with relation := "main" },
    { membership .zeroOrOne with relation := "side" }])]

-- A student and a teacher with one identifier are namesakes. Besides, a rule does not link back if
-- one of the links that count is malformed, nor if a later rule drops what this one adds.
theorem not_linked_beside :
    (¬∀ (config : Config) (types : List (Descriptor × List String))
      (given : List (Descriptor × List Rule)) (steps : List Step) (now₁ now₂ now₃ : Moment)
      (e₁ e₂ e₃ : EntityEvent) (a₁ a₂ : Arrival) (rule₁ rule₂ : Rule) (id : String)
      (back₁ back₂ : Link),
      let p := (start config types (.ofRules given) ()).run steps
      let p₂ := (p.deliver now₁ e₁).deliver now₂ e₂
      e₁.type ≠ e₂.type → rule₁ ∈ (Registry.ofRules given).rulesOf e₁.type →
      rule₂ ∈ (Registry.ofRules given).rulesOf e₂.type → rule₂.target = rule₁.target →
      rule₂.inverse = rule₁.inverse → e₁.arrival? = some a₁ → e₂.arrival? = some a₂ →
      p₂.cache.Alone e₁.type e₁.id → p₂.cache.Alone e₂.type e₂.id →
      (p.cache.get? rule₁.target id).isSome → p₂.cache.Alone rule₁.target id →
      a₁.resource.backLink e₁.type (p.cache.fieldsOf e₁.type) = .ok back₁ →
      a₂.resource.backLink e₂.type (p.cache.fieldsOf e₂.type) = .ok back₂ →
      (∃ l i, (a₁.resource.links rule₁.relation).head? = some l ∧ l.identity? = some i ∧
        p₂.cache.Answers rule₁.target i id) →
      (∃ l i, (a₂.resource.links rule₂.relation).head? = some l ∧ l.identity? = some i ∧
        p₂.cache.Answers rule₁.target i id) →
      e₃.type = e₁.type → e₃.id = e₁.id → e₃.payload = none →
        p₂.cache.Linked ⟨rule₁.target, id, rule₁.inverse, back₁⟩ ∧
        p₂.cache.Linked ⟨rule₁.target, id, rule₁.inverse, back₂⟩ ∧
        (p₂.deliver now₃ e₃).cache.Linked ⟨rule₁.target, id, rule₁.inverse, back₂⟩) ∧
    ¬(((start {} types (.ofRules (rules .zeroOrMany)) ()).run opening).deliver ⟨2, 2⟩
        (carrying student "1" [("group", [link group "a", ⟨"b"⟩])] 2)).cache.Linked
      ⟨group, "a", "member", link student "1"⟩ ∧
    ¬((((start {} types (.ofRules sided) ()).run opening).deliver ⟨2, 2⟩
        (carrying student "1" [("side", [link group "a"])] 2)).deliver ⟨3, 3⟩
        (carrying student "1" [("main", [link group "a"])] 3)).cache.Linked
      ⟨group, "a", "member", link student "1"⟩ := by
  refine ⟨fun h => ?_, ?_, ?_⟩
  case refine_2 => decide +kernel
  case refine_3 => decide +kernel
  case refine_1 =>
    let p₂ := (((start {} staffed (.ofRules memberships) ()).run opening).deliver ⟨2, 2⟩
      (sent student "1" ["a"] 2)).deliver ⟨3, 3⟩ (sent teacher "1" ["a"] 3)
    have hstudents : p₂.cache.Alone student "1" := Cache.alone_of_ids (by decide +kernel)
    have hteachers : p₂.cache.Alone teacher "1" := Cache.alone_of_ids (by decide +kernel)
    have hgroups : p₂.cache.Alone group "a" := Cache.alone_of_ids (by decide +kernel)
    have hanswers : p₂.cache.Answers group "systemid/a" "a" :=
      answers_of_indexed (by decide +kernel)
    have hidentity : (link group "a").identity? = some "systemid/a" := by decide +kernel
    have ⟨_, _, hlinked⟩ := h {} staffed memberships opening ⟨2, 2⟩ ⟨3, 3⟩ ⟨4, 4⟩
      (sent student "1" ["a"] 2) (sent teacher "1" ["a"] 3)
      { sent student "1" [] 4 with payload := none } _ _ (membership .zeroOrOne)
      (membership .zeroOrOne) "a" (link student "1") (link teacher "1") (by decide)
      (by decide +kernel) (by decide +kernel) rfl rfl rfl rfl hstudents hteachers
      (by decide +kernel) hgroups (by decide +kernel) (by decide +kernel)
      ⟨link group "a", _, rfl, hidentity, hanswers⟩ ⟨link group "a", _, rfl, hidentity, hanswers⟩
      rfl rfl rfl
    exact absurd hlinked (by decide +kernel)

end Staff

end Pipeline
end LinkedCache
