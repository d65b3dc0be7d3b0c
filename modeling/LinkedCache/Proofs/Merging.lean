import LinkedCache.Proofs.Effects
import LinkedCache.Proofs.SharedTargets

-- What a write stores, link by link. Each relation under which others link back is merged on its
-- own, from the incoming resource, the old one and what waits for it. So the relations may be
-- merged in any order.

namespace LinkedCache

namespace Buffer

variable {b : Buffer} {a : Address} {as as' : List Address}

-- The buffer without anything that waits under some addresses.
def clearAll (b : Buffer) (as : List Address) : Buffer :=
  { b with waiting := b.waiting.filter fun w => w.address ∉ as }

theorem clearAll_nil : b.clearAll [] = b := by
  simp [clearAll]

theorem clearAll_append : b.clearAll (as ++ as') = (b.clearAll as).clearAll as' := by
  simp only [clearAll, List.filter_filter]
  congr 2
  funext w
  simp [Bool.and_comm]

theorem clearAll_perm (h : as.Perm as') : b.clearAll as = b.clearAll as' := by
  simp only [clearAll, h.mem_iff]

theorem clearAll_cons : b.clearAll (a :: as) = (b.clear a).clearAll as := by
  simp only [clearAll, clear, List.filter_filter]
  congr 2
  funext w
  simp [Bool.and_comm, bne, Bool.beq_eq_decide_eq]

theorem clearAll_comm : (b.clearAll as).clearAll as' = (b.clearAll as').clearAll as := by
  simp only [clearAll, List.filter_filter, Bool.and_comm]

theorem queue_clearAll : (b.clearAll as).queue a = if a ∈ as then [] else b.queue a := by
  unfold clearAll queue
  dsimp only
  rw [List.filter_filter]
  split
  case isTrue h =>
    rw [List.map_eq_nil_iff, List.filter_eq_nil_iff]
    grind
  case isFalse h =>
    congr 1
    refine List.filter_congr fun w _ => ?_
    grind

theorem links_clearAll : (b.clearAll as).links a = if a ∈ as then [] else b.links a := by
  rw [links_eq, links_eq, queue_clearAll]
  split <;> rfl

theorem links_clear {other : Address} :
    (b.clear a).links other = if other = a then [] else b.links other := by
  rw [links_eq, links_eq, queue_clear]
  by_cases h : other = a <;> simp [h]

end Buffer

namespace Resource

variable {r : Resource} {old : Option Resource} {b : Buffer} {type : Descriptor}
  {ids relations relations' : List String} {relation other : String} {ls ls' : List Link}

def withLinks (r : Resource) (relation : String) (ls : List Link) : Resource :=
  { r with relations := Assoc.insert relation ls r.relations }

theorem links_withLinks : (r.withLinks relation ls).links other =
    if other = relation then ls else r.links other := by
  unfold withLinks links
  rw [Assoc.lookup_insert]
  split <;> rfl

theorem withLinks_comm (h : other ≠ relation) : (r.withLinks relation ls).withLinks other ls' =
    (r.withLinks other ls').withLinks relation ls := by
  simp only [withLinks, Assoc.insert_comm h]

theorem addAll_eq : r.addAll relation ls =
    if Link.fresh (r.links relation) ls = [] then r
    else r.withLinks relation (r.links relation ++ Link.fresh (r.links relation) ls) := by
  induction ls generalizing r
  case nil => rfl
  case cons l ls hi =>
    rw [addAll, List.foldl_cons, ← addAll, hi, addUnique]
    by_cases h : r.holds relation l
    case pos => rw [if_pos h, Link.fresh_cons_of_held h]
    case neg =>
      have hl : (r.withLinks relation (r.links relation ++ [l])).links relation =
        r.links relation ++ [l] := by rw [links_withLinks, if_pos rfl]
      rw [if_neg h, Link.fresh_cons_of_new h, if_neg (List.cons_ne_nil _ _), ← withLinks, hl]
      split
      case isTrue hn => rw [hn]
      case isFalse => simp [withLinks, Assoc.insert_insert]

theorem addAll_append : r.addAll relation (ls ++ ls') =
    (r.addAll relation ls).addAll relation ls' := by
  simp [addAll]

theorem addAll_congr (h : Link.fresh (r.links relation) ls = Link.fresh (r.links relation) ls') :
    r.addAll relation ls = r.addAll relation ls' := by
  rw [addAll_eq, h, ← addAll_eq]

theorem addAll_comm (h : other ≠ relation) :
    (r.addAll relation ls).addAll other ls' = (r.addAll other ls').addAll relation ls := by
  rw [addAll_eq, links_addAll_of_ne h, addAll_eq (r := r.addAll _ _), links_addAll_of_ne h.symm]
  simp only [addAll_eq]
  split <;> split
  case isFalse.isFalse => exact withLinks_comm h
  all_goals rfl

-- What a write brings to a relation: the old links, if there are no incoming ones, and those that
-- wait.
def carried (old : Option Resource) (r : Resource) (relation : String) : List Link :=
  if r.hasRelation relation then [] else (old.map (·.links relation)).getD []

def waiting (type : Descriptor) (ids : List String) (b : Buffer) (relation : String) : List Link :=
  ids.flatMap fun i => b.links (Address.of type i relation)

theorem carryOver_eq : r.carryOver old relation = r.addAll relation (carried old r relation) := by
  unfold carryOver carried
  cases old
  case none => simp [addAll]
  case some o =>
    dsimp only
    split <;> rfl

theorem takeWaiting_eq : takeWaiting type ids relation r b =
    (r.addAll relation (waiting type ids b relation),
      b.clearAll (ids.map fun i => Address.of type i relation)) := by
  unfold waiting
  induction ids generalizing r b
  case nil => simp [takeWaiting, addAll, Buffer.clearAll_nil]
  case cons i ids hi =>
    rw [takeWaiting, List.foldl_cons, ← takeWaiting, hi, List.flatMap_cons, addAll_append,
      List.map_cons, Buffer.clearAll_cons]
    congr 1
    refine addAll_congr (Link.fresh_flatMap_congr fun j _ => ?_)
    -- What waits under one address is not found there again.
    by_cases hj : Address.of type j relation = Address.of type i relation
    case neg => exact .inl (Buffer.links_clear.trans (if_neg hj))
    case pos =>
      refine .inr ⟨Buffer.links_clear.trans (if_pos hj), fun l hl => ?_⟩
      rw [Link.any_sameTarget_iff, links_addAll, Link.mem_keys_join]
      exact .inr (List.mem_map_of_mem (hj ▸ hl))

theorem merged_eq : merged type ids old r b relation =
    (r.addAll relation (carried old r relation ++ waiting type ids b relation),
      b.clearAll (ids.map fun i => Address.of type i relation)) := by
  rw [merged, takeWaiting_eq, carryOver_eq, addAll_append]

theorem carried_congr {r' : Resource} (h : r'.links relation = r.links relation) :
    carried old r' relation = carried old r relation := by
  rw [carried, carried, hasRelation_congr h]

theorem waiting_clearAll_of_ne (h : other ≠ relation) :
    waiting type ids (b.clearAll (ids.map fun i => Address.of type i relation)) other =
      waiting type ids b other := by
  refine List.flatMap_congr fun i _ => ?_
  rw [Buffer.links_clearAll, if_neg]
  intro hm
  have ⟨_, _, he⟩ := List.mem_map.mp hm
  exact h (congrArg Address.relation he).symm

theorem merged_comm (h : other ≠ relation) :
    let p := merged type ids old r b relation
    let q := merged type ids old r b other
    merged type ids old p.1 p.2 other = merged type ids old q.1 q.2 relation := by
  simp only [merged_eq, waiting_clearAll_of_ne h, waiting_clearAll_of_ne h.symm,
    carried_congr (links_addAll_of_ne h), carried_congr (links_addAll_of_ne h.symm)]
  rw [addAll_comm h, Buffer.clearAll_comm]

theorem waiting_clearAll :
    waiting type ids (b.clearAll (ids.map fun i => Address.of type i relation)) relation = [] := by
  rw [waiting, List.flatMap_eq_nil_iff]
  intro i hi
  rw [Buffer.links_clearAll, if_pos (List.mem_map_of_mem hi)]

-- The order in which the relations are merged does not matter.
theorem mergeInverse_perm (h : relations.Perm relations') :
    mergeInverse type relations ids old r b = mergeInverse type relations' ids old r b := by
  refine h.foldl_eq' (fun x _ y _ p => ?_) _
  by_cases hxy : y = x
  case pos => rw [hxy]
  case neg => exact merged_comm hxy

-- The links that a merge leaves under one of its relations.
def mergedLinks (type : Descriptor) (ids : List String) (old : Option Resource) (r : Resource)
    (b : Buffer) (relation : String) : List Link :=
  let held :=
    if r.hasRelation relation then r.links relation
    else Link.fresh [] ((old.map (·.links relation)).getD [])
  held ++ Link.fresh held (waiting type ids b relation)

theorem links_eq_nil (h : ¬r.hasRelation relation) : r.links relation = [] := by
  simpa [hasRelation] using h

theorem links_merged : (merged type ids old r b relation).1.links relation =
    mergedLinks type ids old r b relation := by
  rw [merged_eq, links_addAll, mergedLinks, carried]
  split
  case isTrue => rw [List.nil_append]
  case isFalse h => rw [links_eq_nil h, Link.fresh_append, List.nil_append, List.nil_append]

theorem mergedLinks_congr_of_ne (h : other ≠ relation) :
    let p := merged type ids old r b relation
    mergedLinks type ids old p.1 p.2 other = mergedLinks type ids old r b other := by
  have hl : (merged type ids old r b relation).1.links other = r.links other :=
    links_merged_of_ne h
  dsimp only
  rw [mergedLinks, mergedLinks, hasRelation_congr hl, hl, merged_eq, waiting_clearAll_of_ne h]

-- Merging a relation again changes nothing.
theorem mergedLinks_merged :
    let p := merged type ids old r b relation
    mergedLinks type ids old p.1 p.2 relation = mergedLinks type ids old r b relation := by
  have hw : waiting type ids (merged type ids old r b relation).2 relation = [] := by
    rw [merged_eq]
    exact waiting_clearAll
  dsimp only
  rw [mergedLinks, hw, Link.fresh_nil, List.append_nil, links_merged]
  split
  case isTrue => rfl
  case isFalse h =>
    have hn : mergedLinks type ids old r b relation = [] := links_merged ▸ links_eq_nil h
    rw [hn]
    have hheld := (List.append_eq_nil_iff.mp hn).1
    split at hheld
    case isTrue hr => simp [hasRelation, hheld] at hr
    case isFalse => exact hheld

theorem mergeInverse_cons : mergeInverse type (relation :: relations) ids old r b =
    let p := merged type ids old r b relation
    mergeInverse type relations ids old p.1 p.2 :=
  rfl

theorem links_mergeInverse (hm : relation ∈ relations) :
    (mergeInverse type relations ids old r b).1.links relation =
      mergedLinks type ids old r b relation := by
  induction relations generalizing r b
  case nil => cases hm
  case cons x relations hi =>
    rw [mergeInverse_cons]
    by_cases hr : relation ∈ relations
    case pos =>
      rw [hi hr]
      by_cases hx : relation = x
      case pos => exact hx ▸ mergedLinks_merged
      case neg => exact mergedLinks_congr_of_ne hx
    case neg =>
      obtain rfl := (List.mem_cons.mp hm).resolve_right hr
      rw [links_mergeInverse_of_not_mem hr, links_merged]

theorem lookup_merged_of_ne (h : other ≠ relation) :
    (merged type ids old r b relation).1.relations.lookup other = r.relations.lookup other := by
  rw [merged_eq, lookup_addAll_of_ne h]

theorem lookup_mergeInverse_of_not_mem (h : other ∉ relations) :
    (mergeInverse type relations ids old r b).1.relations.lookup other =
      r.relations.lookup other := by
  induction relations generalizing r b
  case nil => rfl
  case cons x relations hi =>
    have ⟨hx, h⟩ := not_or.mp (mt List.mem_cons.mpr h)
    rw [mergeInverse_cons, hi h, lookup_merged_of_ne hx]

-- A relation under which there are no links is as it came, missing or empty.
theorem lookup_addAll_of_links (h : (r.addAll relation ls).links other = []) :
    (r.addAll relation ls).relations.lookup other = r.relations.lookup other := by
  by_cases ho : other = relation
  case neg => exact lookup_addAll_of_ne ho
  case pos =>
    rw [ho, links_addAll, List.append_eq_nil_iff] at h
    rw [addAll_eq, if_pos h.2]

theorem lookup_mergeInverse_of_links
    (h : (mergeInverse type relations ids old r b).1.links other = []) :
    (mergeInverse type relations ids old r b).1.relations.lookup other =
      r.relations.lookup other := by
  induction relations generalizing r b
  case nil => rfl
  case cons x relations hi =>
    rw [mergeInverse_cons] at h ⊢
    have hi := hi h
    have hl : (merged type ids old r b x).1.links other = [] := by
      rw [links, ← hi, ← links, h]
    rw [hi]
    rw [merged_eq] at hl ⊢
    exact lookup_addAll_of_links hl

theorem snd_mergeInverse :
    (mergeInverse type relations ids old r b).2 =
      b.clearAll (relations.flatMap fun relation => ids.map fun i =>
        Address.of type i relation) := by
  induction relations generalizing r b
  case nil => exact Buffer.clearAll_nil.symm
  case cons x relations hi =>
    rw [mergeInverse_cons, hi, merged_eq, List.flatMap_cons,
      Buffer.clearAll_append]

end Resource

theorem Store.rows_put {s : Store} (hm : s.Mirrors) (id : String) (r : Resource) (t : Int) :
    (s.put id r t).rows = s.rows ++ if (s.entry? id).isSome then [] else [(id, s.nextSeq)] := by
  unfold put rows
  split
  case h_1 e he =>
    have hid := entry?_id he
    rw [map_entries_overwrite hm.nodup (hid ▸ he) fun _ => rfl, he, Option.isSome_some, if_pos rfl,
      List.append_nil]
  case h_2 hn => simp [create, hn]

namespace Cache

variable {c c' : Cache} {type : Descriptor} {id : String} {incoming r : Resource} {t : Int}
  {us : List Update} {s : Store}

-- What is stored for an incoming resource.
structure Composes (c : Cache) (type : Descriptor) (id : String) (incoming stored : Resource) :
    Prop where
  attributes : stored.attributes = incoming.attributes
  others : ∀ relation ∉ c.rules.inverseRelationsOf type,
    stored.relations.lookup relation = incoming.relations.lookup relation
  links : ∀ relation ∈ c.rules.inverseRelationsOf type,
    stored.links relation = Resource.mergedLinks type (incoming.identities (c.fieldsOf type))
      (c.get? type id) incoming c.buffer relation
  empty : ∀ relation, stored.links relation = [] →
    stored.relations.lookup relation = incoming.relations.lookup relation

-- What a write of an incoming resource comes to.
structure Stores (c : Cache) (type : Descriptor) (id : String) (incoming : Resource) (t : Int)
    (c' : Cache) : Prop where
  kin : c.Kin c'
  entry : ∃ e, c'.cached? type id = some e ∧ e.timestamp = t ∧
    c.Composes type id incoming e.resource
  entries : ∀ other i, ¬(other = type ∧ i = id) → c'.cached? other i = c.cached? other i
  stores : ∀ other ≠ type, c'.store? other = c.store? other
  table : c'.table type = (c.store? type).map fun s =>
    s.rows ++ if (s.entry? id).isSome then [] else [(id, s.nextSeq)]
  taken : ∀ a, c.TakenBy type incoming a → c'.buffer.queue a = []
  waits : ∀ a, ¬c.TakenBy type incoming a → c'.buffer.queue a = c.buffer.queue a

-- The addresses from which a write takes what waits.
def sourcesOf (c : Cache) (type : Descriptor) (r : Resource) : List Address :=
  (c.rules.inverseRelationsOf type).flatMap fun relation =>
    (r.identities (c.fieldsOf type)).map fun i => Address.of type i relation

theorem mem_sourcesOf_iff {a : Address} : a ∈ c.sourcesOf type r ↔ c.TakenBy type r a := by
  simp [sourcesOf, TakenBy, Resource.Takes, eq_comm]

theorem composes_merge : c.Composes type id r (c.merge type id r) where
  attributes := Resource.attributes_mergeInverse
  others _ := Resource.lookup_mergeInverse_of_not_mem
  links _ := Resource.links_mergeInverse
  empty _ := Resource.lookup_mergeInverse_of_links

theorem reconcile_eq (hs : c.store? type = some s) (id : String) (r : Resource) (t : Int) :
    c.reconcile type id r t = .ok (
      contributions (c.rules.rulesOf type) fun rule =>
        rule.derived (c.sourceOf type) (c.get? type id) (c.merge type id r) t,
      { c.withStore (s.put id (c.merge type id r) t) with
        buffer := c.buffer.clearAll (c.sourcesOf type r)
        locks := (c.locks.acquire ⟨type, id⟩).release ⟨type, id⟩ }) := by
  unfold reconcile merge sourceOf sourcesOf
  rw [hs, fieldsOf_of_store? hs, get?_of_store? hs, ← Resource.snd_mergeInverse]
  simp only [source, type_of_store? hs]
  rfl

theorem store?_of_reconcile (h : c.reconcile type id r t = .ok (us, c')) :
    ∃ s, c.store? type = some s := by
  cases hs : c.store? type
  case none => simp [reconcile, hs] at h
  case some s => exact ⟨s, rfl⟩

theorem stores_of_reconcile (hm : c.Sound) (h : c.reconcile type id r t = .ok (us, c')) :
    c.Stores type id r t c' := by
  have hk := (writes_reconcile hm h).kin
  have ⟨s, hs⟩ := store?_of_reconcile h
  rw [reconcile_eq hs, Except.ok.injEq, Prod.mk.injEq] at h
  have hstore (other : Descriptor) : c'.store? other =
      if other = type then some (s.put id (c.merge type id r) t) else c.store? other :=
    h.2 ▸ store?_withStore_of_store? hs (by simp) other
  have hqueue (a : Address) : c'.buffer.queue a =
      if a ∈ c.sourcesOf type r then [] else c.buffer.queue a :=
    h.2 ▸ Buffer.queue_clearAll
  refine ⟨hk, ?_, fun other i hn => ?_, fun other ho => (hstore other).trans (if_neg ho), ?_,
    fun a ha => (hqueue a).trans (if_pos (mem_sourcesOf_iff.mpr ha)),
    fun a ha => (hqueue a).trans (if_neg (mt mem_sourcesOf_iff.mp ha))⟩
  case refine_1 =>
    have ⟨e, he, hr, ht, _⟩ := s.entry?_put_self id (c.merge type id r) t
    exact ⟨e, by rw [cached?, hstore, if_pos rfl, Option.bind_some, he], ht, hr ▸ composes_merge⟩
  case refine_2 =>
    rw [cached?, hstore]
    split
    case isTrue ho =>
      rw [Option.bind_some, Store.entry?_put_of_ne fun hi => hn ⟨ho, hi⟩, ho, cached?_of_store? hs]
    case isFalse => rfl
  case refine_3 =>
    rw [table, hstore, if_pos rfl, hs, Option.map_some, Option.map_some,
      Store.rows_put (hm.store? hs)]

-- With other rules of the type, or its inverse relations in another order, a write stores the same.
theorem reconcile_of_perm {rules : Registry} (h : c.reconcile type id r t = .ok (us, c'))
    (hp : (rules.inverseRelationsOf type).Perm (c.rules.inverseRelationsOf type)) :
    ∃ us', Cache.reconcile { c with rules } type id r t = .ok (us', { c' with rules }) ∧
      (rules.rulesOf type = c.rules.rulesOf type → us' = us) := by
  have ⟨s, hs⟩ := store?_of_reconcile h
  have hmerge : Cache.merge { c with rules } type id r = c.merge type id r :=
    congrArg Prod.fst (Resource.mergeInverse_perm hp)
  have hsources : (Cache.sourcesOf { c with rules } type r).Perm (c.sourcesOf type r) :=
    hp.flatMap_right _
  have hs' : Cache.store? { c with rules } type = some s := hs
  have ⟨us', c'', h'⟩ := exists_reconcile (Option.isSome_iff_exists.mpr ⟨s, hs'⟩) id r t
  rw [reconcile_eq hs, Except.ok.injEq, Prod.mk.injEq] at h
  refine ⟨us', h'.trans ?_, fun hr => ?_⟩
  all_goals
    rw [reconcile_eq hs', hmerge, Buffer.clearAll_perm hsources, Except.ok.injEq,
      Prod.mk.injEq] at h'
  case refine_1 =>
    rw [← h'.2, ← h.2]
    rfl
  case refine_2 =>
    rw [← h'.1, ← h.1, ← hr]
    rfl

end Cache

namespace Pipeline

variable {Outbound : Type} [Publisher Outbound]

-- A write is never refused, takes in what waits for the resource under its inverse relations and
-- nothing else, and leaves all other entries alone. What it stores depends neither on the order of
-- these relations nor on the rules of the type, whether they fail or not.
theorem stores_reconcile (config : Config) (types : List (Descriptor × List String))
    (rules : Registry) (outbound : Outbound) (steps : List Step) (type : Descriptor) (id : String)
    (r : Resource) (t : Int) :
    let c := ((start config types rules outbound).run steps).cache
    c.contains type → ∃ us c', c.reconcile type id r t = .ok (us, c') ∧ c.Stores type id r t c' ∧
      ∀ rules : Registry,
        (rules.inverseRelationsOf type).Perm (c.rules.inverseRelationsOf type) →
        ∃ us', Cache.reconcile { c with rules } type id r t = .ok (us', { c' with rules }) ∧
          (rules.rulesOf type = c.rules.rulesOf type → us' = us) := by
  intro c hu
  have ⟨us, c', h⟩ := Cache.exists_reconcile hu id r t
  exact ⟨us, c', h, Cache.stores_of_reconcile (sound_run steps) h,
    fun _ hp => Cache.reconcile_of_perm h hp⟩

section Awaited

open Roster

-- A group that comes after one of its students, and with a member of its own.
theorem stores_reconcile_awaited :
    let c := ((start {} types (.ofRules (rules .zeroOrOne)) ()).run
      [.entity ⟨1, 1⟩ (sent student "1" ["a"] 1)]).cache
    let r : Resource := ⟨[("member", [link student "2"])], [("systemId", .string "a")]⟩
    c.contains group ∧ ∃ us c', c.reconcile group "a" r 2 = .ok (us, c') ∧
      c.Stores group "a" r 2 c' ∧
      (c'.cached? group "a").map (·.resource.links "member") =
        some [link student "2", link student "1"] ∧
      c'.buffer.queue (Address.of group "systemid/a" "member") = [] := by
  intro c r
  have hu : c.contains group := by decide +kernel
  have ⟨us, c', h, hstores, _⟩ := stores_reconcile {} types (.ofRules (rules .zeroOrOne)) ()
    [.entity ⟨1, 1⟩ (sent student "1" ["a"] 1)] group "a" r 2 hu
  have hlinks : (c.reconcile group "a" r 2).toOption.bind (fun p =>
      (p.2.cached? group "a").map (·.resource.links "member")) =
        some [link student "2", link student "1"] := by
    decide +kernel
  have htaken : c.TakenBy group r (Address.of group "systemid/a" "member") :=
    ⟨"member", by decide +kernel, "systemid/a", by decide +kernel, rfl⟩
  rw [h] at hlinks
  exact ⟨hu, us, c', h, hstores, hlinks, hstores.taken _ htaken⟩

end Awaited

end Pipeline
end LinkedCache
