import LinkedCache.Proofs.Entries
import LinkedCache.Proofs.LinkLists
import LinkedCache.Proofs.Roster

-- What applying an update changes, to the letter, and what it leaves alone. The targets are served
-- one after the other: each time the entry to which the identity then resolves is revised, or else
-- the links wait for the identity.

namespace LinkedCache

namespace Update

variable {u : Update} {e e' e'' : Entry}

instance (u : Update) (r : Resource) : Decidable (u.FulfilledBy r) :=
  inferInstanceAs (Decidable (_ = _))

-- What an update makes of an entry. An entry that is not changed is not written either.
structure Revises (u : Update) (e e' : Entry) : Prop where
  attributes : e'.resource.attributes = e.resource.attributes
  links : e'.resource.links u.binding.relation = u.revise (e.resource.links u.binding.relation)
  others : ∀ relation ≠ u.binding.relation,
    e'.resource.relations.lookup relation = e.resource.relations.lookup relation
  timestamp : e'.timestamp =
    if u.FulfilledBy e.resource then e.timestamp else max e.timestamp u.timestamp
  unchanged : u.FulfilledBy e.resource → e' = e

-- What an update leaves alone in an entry, however often it comes to it.
structure Spares (u : Update) (e e' : Entry) : Prop where
  attributes : e'.resource.attributes = e.resource.attributes
  identities : e'.resource.identities = e.resource.identities
  others : ∀ relation ≠ u.binding.relation,
    e'.resource.relations.lookup relation = e.resource.relations.lookup relation

theorem Spares.refl (u : Update) (e : Entry) : u.Spares e e :=
  ⟨rfl, rfl, fun _ _ => rfl⟩

theorem Spares.trans (h : u.Spares e e') (h' : u.Spares e' e'') : u.Spares e e'' where
  attributes := h'.attributes.trans h.attributes
  identities := h'.identities.trans h.identities
  others relation hr := (h'.others relation hr).trans (h.others relation hr)

theorem Revises.spares (h : u.Revises e e') : u.Spares e e' where
  attributes := h.attributes
  identities := funext fun _ => Resource.identities_congr h.attributes
  others := h.others

-- An update at the queue of a target that is cached, or that is not.
def unqueued (u : Update) (q : Buffer.Queue) : Buffer.Queue :=
  q.filter fun w => !u.binding.links.any w.1.sameTarget

def queued (u : Update) (now : Int) (q : Buffer.Queue) : Buffer.Queue :=
  q ++ (Link.fresh (q.map (·.1)) u.binding.links).map (·, now)

end Update

namespace Store

variable {s : Store} {u : Update} {i id : String} {e : Entry}

-- The ids with their places, in the order of these.
def rows (s : Store) : List (String × Nat) :=
  s.entries.map fun e => (e.id, e.seq)

-- The entry to which an identity resolves.
def addressed? (s : Store) (identity : String) : Option Entry :=
  (s.resolve? identity).bind s.entry?

-- An update at one of its targets.
def revise (u : Update) (s : Store) (identity : String) : Store :=
  match s.addressed? identity with
  | none => s
  | some e =>
    if u.FulfilledBy e.resource then s
    else s.overwrite e (u.applied e.resource) (max e.timestamp u.timestamp)

theorem addressed?_eq_some (h : s.addressed? i = some e) :
    s.resolve? i = some e.id ∧ s.entry? e.id = some e := by
  have ⟨id, hi, he⟩ := Option.bind_eq_some_iff.mp h
  obtain rfl := entry?_id he
  exact ⟨hi, he⟩

theorem Mirrors.resolve?_eq (h : s.Mirrors) (i : String) :
    s.resolve? i = (s.addressed? i).map (·.id) := by
  unfold addressed?
  cases hi : s.resolve? i
  case none => rfl
  case some id =>
    have ⟨r, hr, _⟩ := exists_of_resolve? h hi
    have ⟨e, he, _⟩ := Option.map_eq_some_iff.mp hr
    simp [he, entry?_id he]

-- An update writes an entry or leaves the store as it is.
theorem revise_cases (u : Update) (s : Store) (i : String) :
    (∃ e, s.addressed? i = some e ∧ ¬u.FulfilledBy e.resource ∧
      s.revise u i = s.overwrite e (u.applied e.resource) (max e.timestamp u.timestamp)) ∨
    ((∀ e, s.addressed? i = some e → u.FulfilledBy e.resource) ∧ s.revise u i = s) := by
  unfold revise
  cases h : s.addressed? i
  case none => exact .inr ⟨nofun, rfl⟩
  case some e =>
    by_cases hf : u.FulfilledBy e.resource
    case pos => exact .inr ⟨fun _ he => Option.some.inj he ▸ hf, if_pos hf⟩
    case neg => exact .inl ⟨e, rfl, hf, if_neg hf⟩

theorem rows_revise (h : s.Mirrors) (u : Update) (i : String) : (s.revise u i).rows = s.rows := by
  obtain ⟨e, he, -, hr⟩ | ⟨-, hr⟩ := revise_cases u s i
  case inl => exact hr ▸ map_entries_overwrite h.nodup (addressed?_eq_some he).2 fun _ => rfl
  case inr => rw [hr]

theorem revises_of_fulfilled (h : u.FulfilledBy e.resource) : u.Revises e e :=
  ⟨rfl, h.symm, fun _ _ => rfl, (if_pos h).symm, fun _ => rfl⟩

theorem entry?_revise (s : Store) (u : Update) (i id : String) :
    Option.Rel (fun e e' => if s.resolve? i = some id then u.Revises e e' else e' = e)
      (s.entry? id) ( entry? (s.revise u i) id) := by
  obtain ⟨e, he, hf, hr⟩ | ⟨hf, hr⟩ := revise_cases u s i
  case inl =>
    have ⟨hi, he⟩ := addressed?_eq_some he
    simp only [hr, hi, Option.some.injEq]
    by_cases hid : id = e.id
    case pos =>
      rw [hid, he, entry?_overwrite_self he]
      refine .some ?_
      rw [if_pos rfl]
      exact ⟨Update.attributes_applied, Update.links_applied, fun _ => Update.lookup_applied_of_ne,
        (if_neg hf).symm, fun h => absurd h hf⟩
    case neg =>
      rw [entry?_overwrite_of_ne hid]
      cases s.entry? id
      case none => exact .none
      case some => exact .some (by rw [if_neg (Ne.symm hid)])
  case inr =>
    rw [hr]
    cases he : s.entry? id
    case none => exact .none
    case some e =>
      refine .some ?_
      split
      case isFalse => rfl
      case isTrue hi =>
        exact revises_of_fulfilled (hf e (by rw [addressed?, hi, Option.bind_some, he]))

end Store

namespace Cache

variable {c c' c'' : Cache} {u : Update} {type : Descriptor} {i id : String} {now : Int}
  {is is' : List String}

def resolve? (c : Cache) (type : Descriptor) (identity : String) : Option String :=
  (c.store? type).bind (·.resolve? identity)

def addressed? (c : Cache) (type : Descriptor) (identity : String) : Option Entry :=
  (c.store? type).bind (·.addressed? identity)

def table (c : Cache) (type : Descriptor) : Option (List (String × Nat)) :=
  (c.store? type).map (·.rows)

-- The cache when some targets of an update are served.
def served (c : Cache) (u : Update) (now : Int) (identities : List String) : Cache :=
  identities.foldl (fun c identity => (c.applyToTarget u identity now).2) c

theorem served_concat :
    c.served u now (is ++ [i]) = ((c.served u now is).applyToTarget u i now).2 := by
  simp [served]

theorem Sound.resolve?_eq (h : c.Sound) (type : Descriptor) (i : String) :
    c.resolve? type i = (c.addressed? type i).map (·.id) := by
  unfold resolve? addressed?
  cases hs : c.store? type
  case none => rfl
  case some s => exact (h.store? hs).resolve?_eq i

theorem target?_eq {s : Store} (hs : c.store? type = some s) :
    c.target? type i = (s.addressed? i).map (s, ·) := by
  unfold target? Store.addressed?
  cases hi : s.resolve? i
  case none => simp [hs, hi]
  case some id => cases he : s.entry? id <;> simp [hs, hi, he]

theorem isSome_resolve?_iff (h : c.Sound) :
    (c.resolve? type i).isSome ↔ ∃ id, c.Answers type i id := by
  unfold resolve? Answers
  cases hs : c.store? type
  case none => simp [get?, hs]
  case some s =>
    have hn := Store.resolve?_eq_none_iff (i := i) (h.store? hs)
    simp only [get?_of_store? hs, fieldsOf_of_store? hs, Option.bind_some,
      Option.isSome_iff_ne_none, ne_eq, hn]
    simp

theorem cached?_congr (h : c'.store? type = c.store? type) (id : String) :
    c'.cached? type id = c.cached? type id := by
  rw [cached?, h, ← cached?]

-- What serving one target of an update comes to.
structure Serves (u : Update) (i : String) (now : Int) (c c' : Cache) : Prop where
  kin : c.Kin c'
  stores : ∀ type ≠ u.target, c'.store? type = c.store? type
  table : c'.table u.target = c.table u.target
  entries : ∀ id,
    Option.Rel (fun e e' => if c.resolve? u.target i = some id then u.Revises e e' else e' = e)
      (c.cached? u.target id) (c'.cached? u.target id)
  queue : c'.buffer.queue = Function.update c.buffer.queue (u.address i)
    (if u.operation = .add ∧ c.resolve? u.target i = none
      then u.queued now (c.buffer.queue (u.address i))
      else u.unqueued (c.buffer.queue (u.address i)))

-- What is left alone by an update when it is applied to some targets.
structure Spared (u : Update) (is : List String) (c c' : Cache) : Prop where
  kin : c.Kin c'
  stores : ∀ type ≠ u.target, c'.store? type = c.store? type
  table : ∀ type, c'.table type = c.table type
  entries : ∀ type id, Option.Rel u.Spares (c.cached? type id) (c'.cached? type id)
  answers : ∀ type i id, c'.Answers type i id ↔ c.Answers type i id
  queue : ∀ a, (∀ i ∈ is, a ≠ u.address i) → c'.buffer.queue a = c.buffer.queue a

theorem cases_of_rel {α β : Type} {r : α → β → Prop} {o : Option α} {o' : Option β} :
    Option.Rel r o o' → o = none ∧ o' = none ∨ ∃ a b, o = some a ∧ o' = some b ∧ r a b
  | .none => .inl ⟨rfl, rfl⟩
  | .some h => .inr ⟨_, _, rfl, rfl, h⟩

theorem rel_spares_refl (u : Update) (o : Option Entry) : Option.Rel u.Spares o o := by
  cases o
  case none => exact .none
  case some e => exact .some (.refl u e)

theorem Spared.refl (u : Update) (c : Cache) : Spared u [] c c :=
  ⟨.refl c, fun _ _ => rfl, fun _ => rfl, fun _ _ => rel_spares_refl .., fun _ _ _ => .rfl,
    fun _ _ => rfl⟩

theorem Spared.trans (h : Spared u is c c') (h' : Spared u is' c' c'') :
    Spared u (is ++ is') c c'' where
  kin := h.kin.trans h'.kin
  stores type ht := (h'.stores type ht).trans (h.stores type ht)
  table type := (h'.table type).trans (h.table type)
  entries type id := by
    have h' := h'.entries type id
    obtain ⟨hc, hc'⟩ | ⟨e, e', hc, hc', hs⟩ := cases_of_rel (h.entries type id)
    case inl => rwa [hc, ← hc']
    case inr =>
      have ⟨e'', hc'', hs'⟩ := exists_of_some_rel (hc' ▸ h')
      rw [hc, hc'']
      exact .some (hs.trans hs')
  answers type i id := (h'.answers type i id).trans (h.answers type i id)
  queue a ha := by
    rw [h'.queue a fun i hi => ha i (List.mem_append_right _ hi),
      h.queue a fun i hi => ha i (List.mem_append_left _ hi)]

theorem Serves.spared (h : Serves u i now c c') : Spared u [i] c c' := by
  have hentries (type : Descriptor) (id : String) :
      Option.Rel u.Spares (c.cached? type id) (c'.cached? type id) := by
    by_cases ht : type = u.target
    case neg =>
      rw [cached?_congr (h.stores type ht)]
      exact rel_spares_refl ..
    case pos =>
      obtain ⟨hc, hc'⟩ | ⟨e, e', hc, hc', hr⟩ := cases_of_rel (h.entries id)
      case inl =>
        rw [ht, hc, hc']
        exact .none
      case inr =>
        rw [ht, hc, hc']
        refine .some ?_
        split at hr
        case isTrue => exact hr.spares
        case isFalse => exact hr ▸ .refl u e
  refine ⟨h.kin, h.stores, fun type => ?_, hentries, fun type j id => ?_, fun a ha => ?_⟩
  case refine_1 =>
    by_cases ht : type = u.target
    case pos => exact ht ▸ h.table
    case neg => rw [Cache.table, h.stores type ht, Cache.table]
  case refine_2 =>
    unfold Answers
    rw [h.kin.fieldsOf, get?_eq, get?_eq]
    obtain ⟨hc, hc'⟩ | ⟨e, e', hc, hc', hr⟩ := cases_of_rel (hentries type id)
    case inl => rw [hc, hc']
    case inr => simp [hc, hc', Resource.answersTo_congr hr.attributes]
  case refine_3 =>
    rw [h.queue, Function.update_of_ne (ha i (.head _))]

theorem store?_withStore_of_store? {s s' : Store} (hs : c.store? type = some s)
    (ht : s'.type = s.type) (other : Descriptor) :
    (c.withStore s').store? other = if other = type then some s' else c.store? other := by
  rw [store?_withStore, ht, type_of_store? hs]
  split
  case isTrue he => rw [he, hs, Option.map_some]
  case isFalse => rfl

-- The entry behind a target is written with what the update makes of it, if that is a change.
theorem store?_applyToEntry {s : Store} {e : Entry} (hs : c.store? u.target = some s)
    (he : s.addressed? i = some e) (type : Descriptor) :
    (c.applyToEntry u s e).store? type =
      if type = u.target then some (s.revise u i) else c.store? type := by
  unfold applyToEntry Store.revise
  rw [he]
  dsimp only
  by_cases hf : u.FulfilledBy e.resource
  case pos =>
    rw [Update.changed_eq_false_iff.mpr hf, if_neg Bool.false_ne_true, if_pos hf]
    split
    case isTrue ht => exact ht ▸ hs
    case isFalse => rfl
  case neg =>
    rw [if_pos (by simpa using mt Update.changed_eq_false_iff.mp hf), if_neg hf,
      putIfCurrent_eq _ _ (Store.addressed?_eq_some he).2]
    have ht : (s.overwrite e (u.applied e.resource) (max e.timestamp u.timestamp)).type = s.type :=
      rfl
    exact store?_withStore_of_store? hs ht type

theorem store?_applyToTarget {s : Store} (hs : c.store? u.target = some s) (i : String) (now : Int)
    (type : Descriptor) :
    (c.applyToTarget u i now).2.store? type =
      if type = u.target then some (s.revise u i) else c.store? type := by
  have hsame (he : s.addressed? i = none) : c.store? type =
      if type = u.target then some (s.revise u i) else c.store? type := by
    rw [Store.revise, he]
    split
    case isTrue ht => exact ht ▸ hs
    case isFalse => rfl
  unfold applyToTarget
  rw [target?_eq hs]
  cases he : s.addressed? i
  case some e => exact store?_applyToEntry hs he type
  case none =>
    cases u.operation
    case add => exact hsame he
    case delete => exact hsame he

theorem queue_applyToTarget {s : Store} (hs : c.store? u.target = some s) (i : String)
    (now : Int) :
    (c.applyToTarget u i now).2.buffer.queue = Function.update c.buffer.queue (u.address i)
      (if u.operation = .add ∧ s.addressed? i = none
        then u.queued now (c.buffer.queue (u.address i))
        else u.unqueued (c.buffer.queue (u.address i))) := by
  unfold applyToTarget
  rw [target?_eq hs]
  cases he : s.addressed? i
  case some e =>
    rw [if_neg nofun]
    exact buffer_applyToEntry (c := c) s e ▸ Buffer.queue_cancelAll
  case none =>
    cases ho : u.operation
    case add =>
      rw [if_pos ⟨rfl, rfl⟩]
      exact Buffer.queue_registerAll now
    case delete =>
      rw [if_neg nofun]
      exact Buffer.queue_cancelAll

theorem serves_applyToTarget (hs : c.Sound) (hu : c.contains u.target) (i : String) (now : Int) :
    Serves u i now c (c.applyToTarget u i now).2 := by
  have ⟨s, hstore⟩ := Option.isSome_iff_exists.mp hu
  have hm := hs.store? hstore
  have hresolve : c.resolve? u.target i = s.resolve? i := by simp [resolve?, hstore]
  have hnone : c.resolve? u.target i = none ↔ s.addressed? i = none := by
    rw [hresolve, hm.resolve?_eq, Option.map_eq_none_iff]
  have hstore' := store?_applyToTarget hstore i now
  refine ⟨(applies_applyToTarget i now hs hu).2.1, fun type ht => ?_, ?_, fun id => ?_, ?_⟩
  case refine_1 => rw [hstore', if_neg ht]
  case refine_2 =>
    rw [table, table, hstore', if_pos rfl, hstore, Option.map_some, Option.map_some,
      Store.rows_revise hm]
  case refine_3 =>
    rw [cached?, cached?, hstore', if_pos rfl, hstore, Option.bind_some, Option.bind_some]
    simpa only [hresolve] using s.entry?_revise u i id
  case refine_4 => simp only [queue_applyToTarget hstore, hnone]

theorem fst_applyToTarget (hs : c.Sound) (hu : c.contains u.target) (i : String) (now : Int) :
    (c.applyToTarget u i now).1 = (c.resolve? u.target i).isSome := by
  have ⟨s, hstore⟩ := Option.isSome_iff_exists.mp hu
  rw [hs.resolve?_eq, addressed?, hstore, Option.bind_some, Option.isSome_map]
  unfold applyToTarget
  rw [target?_eq hstore]
  cases s.addressed? i
  case some => rfl
  case none => cases u.operation <;> rfl

theorem Spared.isSome_resolve? (h : Spared u is c c') (hs : c.Sound) (hs' : c'.Sound)
    (type : Descriptor) (i : String) :
    (c'.resolve? type i).isSome = (c.resolve? type i).isSome := by
  rw [Bool.eq_iff_iff, isSome_resolve?_iff hs, isSome_resolve?_iff hs']
  simp only [h.answers]

section Served

variable (hs : c.Sound) (hu : c.contains u.target) (now : Int) (is : List String)

include hs hu

-- Whatever targets were served, nothing but the update's relation and its queues was touched.
theorem spared_served : Spared u is c (c.served u now is) ∧ (c.served u now is).Sound := by
  induction is using List.reverseRecOn
  case nil => exact ⟨.refl u c, hs⟩
  case append_singleton is i hi =>
    have hu' := hi.1.kin.contains ▸ hu
    rw [served_concat]
    exact ⟨hi.1.trans (serves_applyToTarget hi.2 hu' i now).spared,
      (applies_applyToTarget i now hi.2 hu').2.2⟩

theorem sound_served : (c.served u now is).Sound :=
  (spared_served hs hu now is).2

theorem contains_served : (c.served u now is).contains u.target :=
  (spared_served hs hu now is).1.kin.contains ▸ hu

theorem isSome_resolve?_served (i : String) :
    ((c.served u now is).resolve? u.target i).isSome = (c.resolve? u.target i).isSome :=
  (spared_served hs hu now is).1.isSome_resolve? hs (sound_served hs hu now is) u.target i

theorem serves_served (i : String) :
    Serves u i now (c.served u now is) (c.served u now (is ++ [i])) := by
  rw [served_concat]
  exact serves_applyToTarget (sound_served hs hu now is) (contains_served hs hu now is) i now

theorem apply_eq : c.apply u now =
    (if ∀ i ∈ u.targetIds, (c.resolve? u.target i).isSome then .applied else .pending,
      c.served u now u.targetIds) := by
  have hfold (is : List String) : is.foldl (fun p i =>
      let result := applyToTarget p.2 u i now
      (p.1 && result.1, result.2)) (true, c) =
      (is.all fun i => (c.resolve? u.target i).isSome, c.served u now is) := by
    induction is using List.reverseRecOn
    case nil => rfl
    case append_singleton is i hi =>
      have hfst := fst_applyToTarget (sound_served hs hu now is) (contains_served hs hu now is)
        i now
      rw [isSome_resolve?_served hs hu] at hfst
      rw [List.foldl_append, hi, List.foldl_cons, List.foldl_nil, served_concat]
      simp [hfst]
  have hanswer := congrArg (fun p : Bool × Cache =>
    (if p.1 then Applied.applied else .pending, p.2)) (hfold u.targetIds)
  unfold apply
  rw [if_pos hu]
  refine Eq.trans hanswer ?_
  simp only [List.all_eq_true]

end Served

end Cache

namespace Pipeline

variable {Outbound : Type} [Publisher Outbound]

-- Where the type of its target is cached, an update serves its targets one after the other, and the
-- rest is spared. It is applied in full if and only if all targets are cached, which none of them
-- has an effect on.
theorem serves_apply (config : Config) (types : List (Descriptor × List String))
    (rules : Registry) (outbound : Outbound) (steps : List Step) (u : Update) (now : Int) :
    let c := ((start config types rules outbound).run steps).cache
    (¬c.contains u.target → c.apply u now = (.notLocal, c)) ∧
    (c.contains u.target →
      c.apply u now =
        (if ∀ i ∈ u.targetIds, (c.resolve? u.target i).isSome then .applied else .pending,
          c.served u now u.targetIds) ∧
      ∀ is, Cache.Spared u is c (c.served u now is) ∧
        ∀ i, Cache.Serves u i now (c.served u now is) (c.served u now (is ++ [i])) ∧
          ((c.served u now is).resolve? u.target i).isSome = (c.resolve? u.target i).isSome) := by
  intro c
  have hs : c.Sound := sound_run steps
  refine ⟨fun hn => by simp [Cache.apply, hn], fun hu => ⟨Cache.apply_eq hs hu now, fun is => ?_⟩⟩
  exact ⟨(Cache.spared_served hs hu now is).1, fun i =>
    ⟨Cache.serves_served hs hu now is i, Cache.isSome_resolve?_served hs hu now is i⟩⟩

section Joining

open Roster

-- Of two groups the second one is not cached.
theorem serves_apply_joining :
    let c := ((start {} types (.ofRules (rules .zeroOrOne)) ()).run
      [.entity ⟨1, 1⟩ (sent group "a" [] 1)]).cache
    let u := joins .add "1" ["a", "b"] 2
    c.contains u.target ∧ (c.apply u 3).1 = .pending ∧
      Cache.Serves u "systemid/a" 3 c (c.served u 3 ["systemid/a"]) ∧
      Cache.Serves u "systemid/b" 3 (c.served u 3 ["systemid/a"]) (c.apply u 3).2 ∧
      ((c.apply u 3).2.cached? group "a").map (fun e => (e.resource.links "member", e.timestamp)) =
        some ([link student "1"], 2) ∧
      (c.apply u 3).2.buffer.queue (u.address "systemid/b") = [(link student "1", 3)] := by
  intro c u
  have hu : c.contains u.target := by decide +kernel
  have ⟨happly, hserved⟩ := (serves_apply {} types (.ofRules (rules .zeroOrOne)) ()
    [.entity ⟨1, 1⟩ (sent group "a" [] 1)] u 3).2 hu
  have hcache : (c.apply u 3).2 = c.served u 3 ["systemid/a", "systemid/b"] :=
    congrArg Prod.snd happly
  have hb : ¬∀ i ∈ u.targetIds, (c.resolve? u.target i).isSome := by decide +kernel
  refine ⟨hu, ?_, ((hserved []).2 _).1, ?_, by decide +kernel, by decide +kernel⟩
  case refine_1 =>
    rw [happly]
    dsimp only
    exact if_neg hb
  case refine_2 => exact hcache ▸ ((hserved ["systemid/a"]).2 "systemid/b").1

end Joining

end Pipeline
end LinkedCache
