import LinkedCache.Proofs.Effects
import LinkedCache.Proofs.Withdrawal

-- Applying an update once more. What waits in the buffer is then as the update wants it, and so is
-- every entry that the update has come to. But writing an entry puts it behind the others that
-- share an identity with it, so that the identity may lead to another entry the next time.

namespace LinkedCache

namespace Store

variable {s : Store} {u : Update} {i : String}

theorem revise_of_fulfilled (h : ∀ e, s.addressed? i = some e → u.FulfilledBy e.resource) :
    s.revise u i = s := by
  obtain ⟨e, he, hf, _⟩ | ⟨_, hr⟩ := revise_cases u s i
  case inl => exact absurd (h e he) hf
  case inr => exact hr

end Store

theorem Update.map_revise_map_revise (u : Update) (held : Option (List Link)) :
    (held.map u.revise).map u.revise = held.map u.revise := by
  cases held
  case none => rfl
  case some => simp [revise_revise]

namespace Buffer

variable {b : Buffer} {a : Address} {ls : List Link}

theorem registerAll_eq_self (now : Int) (h : ∀ l ∈ ls, b.holds a l) :
    ls.foldl (fun b l => b.register a l now) b = b := by
  induction ls
  case nil => rfl
  case cons l ls hi =>
    have ⟨hl, hls⟩ := List.forall_mem_cons.mp h
    rw [List.foldl_cons, register, if_pos hl, hi hls]

theorem cancelAll_eq_self (h : ∀ l ∈ ls, ¬b.holds a l) :
    ls.foldl (fun b l => b.cancel a l) b = b := by
  induction ls
  case nil => rfl
  case cons l ls hi =>
    have ⟨hl, hls⟩ := List.forall_mem_cons.mp h
    have hc : b.cancel a l = b := by
      unfold cancel
      congr 1
      rw [List.filter_eq_self]
      simpa [holds, imp_iff_not_or] using hl
    rw [List.foldl_cons, hc, hi hls]

end Buffer

namespace Cache

variable {c c' : Cache} {u : Update} {i j id : String} {is : List String} {now : Int} {e : Entry}

-- Whether the entries behind some targets are as an update would make them.
def Fulfils (c : Cache) (u : Update) (is : List String) : Prop :=
  ∀ i ∈ is, ∀ e, c.addressed? u.target i = some e → u.FulfilledBy e.resource

-- Whether an entry is as an update would make it.
def Done (c : Cache) (u : Update) (id : String) : Prop :=
  ∀ e, c.cached? u.target id = some e → u.FulfilledBy e.resource

-- The links under a relation of an entry.
def linksUnder? (c : Cache) (type : Descriptor) (id relation : String) : Option (List Link) :=
  (c.cached? type id).map (·.resource.links relation)

-- Whether what waits for a target is as an update would make it.
def Waits (c : Cache) (u : Update) (i : String) : Prop :=
  ∀ key ∈ u.keys, c.buffer.Awaits (u.address i) key ↔
    u.operation = .add ∧ ∀ id, ¬c.Answers u.target i id

theorem Sound.addressed?_eq_some (h : c.Sound) {type : Descriptor}
    (he : c.addressed? type i = some e) :
    c.resolve? type i = some e.id ∧ c.cached? type e.id = some e ∧ c.Answers type i e.id := by
  unfold addressed? at he
  have ⟨s, hs, he⟩ := Option.bind_eq_some_iff.mp he
  have ⟨hi, he⟩ := Store.addressed?_eq_some he
  have ⟨r, hr, ha⟩ := Store.exists_of_resolve? (h.store? hs) hi
  refine ⟨by rw [resolve?, hs, Option.bind_some, hi], (cached?_of_store? hs _).trans he, r, ?_, ?_⟩
  · rwa [get?_of_store? hs]
  · rwa [fieldsOf_of_store? hs]

theorem Sound.exists_addressed? (h : c.Sound) {type : Descriptor} (hone : c.Single type i)
    (ha : c.Answers type i id) : ∃ e, c.addressed? type i = some e ∧ e.id = id := by
  have hsome := (isSome_resolve?_iff h).mpr ⟨id, ha⟩
  rw [h.resolve?_eq, Option.isSome_map] at hsome
  have ⟨e, he⟩ := Option.isSome_iff_exists.mp hsome
  exact ⟨e, he, hone _ _ (h.addressed?_eq_some he).2.2 ha⟩

theorem Serves.revises (h : Serves u i now c c') (hi : c.resolve? u.target i = some id) :
    Option.Rel u.Revises (c.cached? u.target id) (c'.cached? u.target id) := by
  simpa only [hi, if_true] using h.entries id

theorem Serves.cached?_of_ne (h : Serves u i now c c') (hi : c.resolve? u.target i ≠ some id) :
    c'.cached? u.target id = c.cached? u.target id := by
  obtain ⟨hc, hc'⟩ | ⟨e, e', hc, hc', hr⟩ := cases_of_rel (h.entries id)
  case inl => rw [hc, hc']
  case inr =>
    rw [if_neg hi] at hr
    rw [hc, hc', hr]

theorem Serves.cached?_of_done (h : Serves u i now c c') (hd : c.Done u id) :
    c'.cached? u.target id = c.cached? u.target id := by
  by_cases hi : c.resolve? u.target i = some id
  case neg => exact h.cached?_of_ne hi
  case pos =>
    obtain ⟨hc, hc'⟩ | ⟨e, e', hc, hc', hr⟩ := cases_of_rel (h.revises hi)
    case inl => rw [hc, hc']
    case inr => rw [hc, hc', hr.unchanged (hd e hc)]

theorem Serves.done (h : Serves u i now c c') (hi : c.resolve? u.target i = some id) :
    c'.Done u id := by
  intro e' he'
  have ⟨e, _, hr⟩ := exists_of_rel_some (he' ▸ h.revises hi)
  rw [Update.FulfilledBy, hr.links, Update.revise_revise]

theorem Serves.cached?_eq_or_done (h : Serves u i now c c') (id : String) :
    c'.cached? u.target id = c.cached? u.target id ∨ c'.Done u id := by
  by_cases hi : c.resolve? u.target i = some id
  case pos => exact .inr (h.done hi)
  case neg => exact .inl (h.cached?_of_ne hi)

theorem linksUnder?_congr {type : Descriptor} (h : c'.cached? type id = c.cached? type id)
    (relation : String) : c'.linksUnder? type id relation = c.linksUnder? type id relation := by
  rw [linksUnder?, h, ← linksUnder?]

theorem Serves.linksUnder?_eq (h : Serves u i now c c') (id : String) :
    c'.linksUnder? u.target id u.binding.relation =
        c.linksUnder? u.target id u.binding.relation ∨
      c'.linksUnder? u.target id u.binding.relation =
        (c.linksUnder? u.target id u.binding.relation).map u.revise := by
  by_cases hi : c.resolve? u.target i = some id
  case neg => exact .inl (linksUnder?_congr (h.cached?_of_ne hi) _)
  case pos =>
    unfold linksUnder?
    obtain ⟨hc, hc'⟩ | ⟨e, e', hc, hc', hr⟩ := cases_of_rel (h.revises hi)
    case inl => exact .inl (by rw [hc, hc'])
    case inr =>
      rw [hc, hc']
      exact .inr (congrArg some hr.links)

theorem fulfils_of_not_contains (h : ¬c.contains u.target) : c.Fulfils u is := by
  intro i _ e he
  have ⟨s, hstore, _⟩ := Option.bind_eq_some_iff.mp he
  exact absurd (Option.isSome_iff_exists.mpr ⟨s, hstore⟩) h

theorem store?_served_of_fulfils (now : Int) (hu : c.contains u.target) (hf : c.Fulfils u is)
    (type : Descriptor) :
    (c.served u now is).store? type = c.store? type := by
  induction is using List.reverseRecOn generalizing type
  case nil => rfl
  case append_singleton is i hi =>
    have hi := hi fun j hj => hf j (List.mem_append_left _ hj)
    have ⟨s, hstore⟩ := Option.isSome_iff_exists.mp hu
    have hfulfilled : ∀ e, s.addressed? i = some e → u.FulfilledBy e.resource := fun e he =>
      hf i (by simp) e (by rw [addressed?, hstore, Option.bind_some, he])
    rw [served_concat, store?_applyToTarget ((hi u.target).trans hstore),
      Store.revise_of_fulfilled hfulfilled]
    split
    case isTrue ht => rw [ht, hstore]
    case isFalse => exact hi type

section Served

variable (hs : c.Sound) (hu : c.contains u.target)

include hs hu

-- An entry that is changed needs no further change.
theorem cached?_served_eq_or_done (now : Int) (is : List String) (id : String) :
    (c.served u now is).cached? u.target id = c.cached? u.target id ∨
      (c.served u now is).Done u id := by
  induction is using List.reverseRecOn
  case nil => exact .inl rfl
  case append_singleton is i hi =>
    have hserves := serves_served hs hu now is i
    obtain he | hd := hserves.cached?_eq_or_done id
    case inr => exact .inr hd
    case inl =>
      rw [he, Done, he]
      exact hi

theorem cached?_served_of_done (now : Int) (is : List String) (hd : c.Done u id) :
    (c.served u now is).cached? u.target id = c.cached? u.target id := by
  induction is using List.reverseRecOn
  case nil => rfl
  case append_singleton is i hi =>
    rw [(serves_served hs hu now is i).cached?_of_done (by rwa [Done, hi]), hi]

theorem linksUnder?_served (now : Int) (is : List String) (id : String) :
    (c.served u now is).linksUnder? u.target id u.binding.relation =
        c.linksUnder? u.target id u.binding.relation ∨
      (c.served u now is).linksUnder? u.target id u.binding.relation =
        (c.linksUnder? u.target id u.binding.relation).map u.revise := by
  induction is using List.reverseRecOn
  case nil => exact .inl rfl
  case append_singleton is i hi =>
    obtain he | he := (serves_served hs hu now is i).linksUnder?_eq id
    case inl => rwa [he]
    case inr =>
      right
      obtain hi | hi := hi
      case inl => rw [he, hi]
      case inr => rw [he, hi, u.map_revise_map_revise]

-- If no links are other ones in the end, none of them were in between.
theorem fulfils_of_linksUnder? (now : Int)
    (h : ∀ id, (c.served u now is).linksUnder? u.target id u.binding.relation =
      c.linksUnder? u.target id u.binding.relation) : c.Fulfils u is := by
  induction is using List.reverseRecOn
  case nil => exact nofun
  case append_singleton is i hi =>
    have hserves := serves_served hs hu now is i
    have hf : c.Fulfils u is := hi fun id => by
      obtain he | he := linksUnder?_served hs hu now is id
      case inl => exact he
      case inr =>
        obtain he' | he' := hserves.linksUnder?_eq id
        case inl => rw [← he', h]
        case inr =>
          rw [he, u.map_revise_map_revise, h] at he'
          rw [he, ← he']
    intro j hj e he
    obtain hj | hj := List.mem_append.mp hj
    case inl => exact hf j hj e he
    case inr =>
      obtain rfl := List.mem_singleton.mp hj
      have hstore := store?_served_of_fulfils now hu hf u.target
      obtain ⟨hj, hc, _⟩ := hs.addressed?_eq_some he
      have hc' : (c.served u now is).cached? u.target e.id = some e :=
        (cached?_congr hstore e.id).trans hc
      have hj' : (c.served u now is).resolve? u.target j = some e.id := by
        rwa [resolve?, hstore, ← resolve?]
      obtain ⟨e', he', hr⟩ := exists_of_some_rel (hc' ▸ hserves.revises hj')
      have hlinks := h e.id
      rw [linksUnder?, linksUnder?, he', hc, Option.map_some, Option.map_some, Option.some.injEq,
        hr.links] at hlinks
      exact hlinks

-- If nobody else answers to a target's identity, nothing is left to do there.
theorem fulfils_served (now : Int) (hone : ∀ i ∈ is, c.Single u.target i) :
    (c.served u now is).Fulfils u is := by
  induction is using List.reverseRecOn
  case nil => exact nofun
  case append_singleton is i hi =>
    have hi := hi fun j hj => hone j (List.mem_append_left _ hj)
    have hserves := serves_served hs hu now is i
    have ⟨hspared, hs₁⟩ := spared_served hs hu now is
    have ⟨hspared', hs₂⟩ := spared_served hs hu now (is ++ [i])
    intro j hj e he
    have ⟨_, hc, ha⟩ := hs₂.addressed?_eq_some he
    -- The identity led to the same entry before.
    have hone' : (c.served u now is).Single u.target j := fun _ _ h h' =>
      hone j hj _ _ ((hspared.answers ..).mp h) ((hspared.answers ..).mp h')
    have ⟨e₁, he₁, hid⟩ :=
      hs₁.exists_addressed? hone' ((hspared.answers ..).mpr ((hspared'.answers ..).mp ha))
    have ⟨hr₁, hc₁, _⟩ := hs₁.addressed?_eq_some he₁
    obtain hj | hj := List.mem_append.mp hj
    case inr =>
      obtain rfl := List.mem_singleton.mp hj
      exact hserves.done (hid ▸ hr₁) e hc
    case inl =>
      have hd : (c.served u now is).Done u e.id := fun e' he' => by
        rw [← hid, hc₁] at he'
        exact Option.some.inj he' ▸ hi j hj e₁ he₁
      exact hd e (hserves.cached?_of_done hd ▸ hc)

end Served

theorem address_eq_iff : u.address i = u.address j ↔ Text.lower i = Text.lower j := by
  simp [Update.address, Address.of]

theorem answers_congr {type : Descriptor} (h : Text.lower i = Text.lower j) (id : String) :
    c.Answers type i id ↔ c.Answers type j id := by
  unfold Answers
  simp only [← Resource.answersTo_lower (i := i), h, Resource.answersTo_lower]

theorem waits_of_applies (ha : Applies u j c c') (hk : c.Kin c')
    (h : i = j ∨ c.Waits u i) : c'.Waits u i := by
  intro key hkey
  simp only [ha.answers_iff hk]
  by_cases hij : u.address i = u.address j
  case neg =>
    have hw := (h.resolve_left (mt (congrArg u.address) hij)) key hkey
    cases ha
    case here _ _ _ _ _ _ _ waits => simpa [waits, hij] using hw
    case away _ _ waits => rwa [waits, Update.effect_of_not_hit fun he => hij he.1]
  case pos =>
    have hans (id : String) : c.Answers u.target i id ↔ c.Answers u.target j id :=
      answers_congr (address_eq_iff.mp hij) id
    simp only [hans]
    cases ha
    case here id _ _ answers _ _ _ waits =>
      simpa [waits, hij, hkey] using fun _ => ⟨id, answers⟩
    case away absent _ waits =>
      rw [waits, Update.Effect]
      cases u.operation
      case add => simp [hij, hkey, absent]
      case delete => simp [hij, hkey]

theorem buffer_applyToTarget_of_waits (now : Int) (hs : c.Sound) (hu : c.contains u.target)
    (h : c.Waits u i) : (c.applyToTarget u i now).2.buffer = c.buffer := by
  have ⟨s, hstore⟩ := Option.isSome_iff_exists.mp hu
  have hkeys (l : Link) (hl : l ∈ u.binding.links) : c.buffer.holds (u.address i) l ↔
      u.operation = .add ∧ ∀ id, ¬c.Answers u.target i id :=
    Buffer.holds_iff.trans (h _ (List.mem_map_of_mem hl))
  unfold applyToTarget
  obtain ⟨id, e, ht, _, ha⟩ | ⟨ht, ha⟩ := target?_of_resolve? i hs hstore
  case inl =>
    have hnot : ∀ l ∈ u.binding.links, ¬c.buffer.holds (u.address i) l := fun l hl hh =>
      ((hkeys l hl).mp hh).2 id ha
    rw [ht]
    dsimp only
    rw [cancel, buffer_applyToEntry]
    exact Buffer.cancelAll_eq_self hnot
  case inr =>
    rw [ht]
    cases ho : u.operation
    case add => exact Buffer.registerAll_eq_self now fun l hl => (hkeys l hl).mpr ⟨ho, ha⟩
    case delete =>
      exact Buffer.cancelAll_eq_self fun l hl hh => nomatch ho.symm.trans ((hkeys l hl).mp hh).1

section Served

variable (now : Int) (hs : c.Sound) (hu : c.contains u.target)

include hs hu

theorem waits_served : ∀ i ∈ is, (c.served u now is).Waits u i := by
  induction is using List.reverseRecOn
  case nil => exact nofun
  case append_singleton is j hi =>
    have ⟨ha, hk, _⟩ := applies_applyToTarget j now (sound_served hs hu now is)
      (contains_served hs hu now is)
    intro i hm
    rw [served_concat]
    exact waits_of_applies ha hk ((List.mem_append.mp hm).symm.imp List.mem_singleton.mp (hi i))

theorem buffer_served (h : ∀ i ∈ is, c.Waits u i) : (c.served u now is).buffer = c.buffer := by
  induction is using List.reverseRecOn
  case nil => rfl
  case append_singleton is j hi =>
    have hi := hi fun i hm => h i (List.mem_append_left _ hm)
    have hw : (c.served u now is).Waits u j := fun key hkey => by
      simp only [hi, (spared_served hs hu now is).1.answers]
      exact h j (by simp) key hkey
    rw [served_concat, buffer_applyToTarget_of_waits now (sound_served hs hu now is)
      (contains_served hs hu now is) hw, hi]

end Served

end Cache

namespace Pipeline

variable {Outbound : Type} [Publisher Outbound]

-- Applying an update again gives the same answer and leaves the buffer as it is, and so every entry
-- that it changed. It changes nothing else either if and only if the entries to which its targets
-- lead after the first time are as it wants them. Of two entries with one identity only the first
-- one may be.
theorem repeats_apply (config : Config) (types : List (Descriptor × List String))
    (rules : Registry) (outbound : Outbound) (steps : List Step) (u : Update) (now now' : Int) :
    let c := ((start config types rules outbound).run steps).cache
    let c₁ := (c.apply u now).2
    let c₂ := (c₁.apply u now').2
    (c₁.apply u now').1 = (c.apply u now).1 ∧
    c₂.buffer = c₁.buffer ∧
    (∀ type id, c₁.cached? type id = c.cached? type id ∨
      c₂.cached? type id = c₁.cached? type id) ∧
    (c₁.Fulfils u u.targetIds ↔ ∀ type, c₂.store? type = c₁.store? type) ∧
    (c₁.Fulfils u u.targetIds ↔ ∀ id, c₂.linksUnder? u.target id u.binding.relation =
      c₁.linksUnder? u.target id u.binding.relation) ∧
    ((∀ i ∈ u.targetIds, c.Single u.target i) → c₁.Fulfils u u.targetIds) := by
  intro c c₁ c₂
  have hs : c.Sound := sound_run steps
  by_cases hu : c.contains u.target
  case neg =>
    have happly (now : Int) : c.apply u now = (.notLocal, c) := by simp [Cache.apply, hu]
    have h₁ : c₁ = c := congrArg Prod.snd (happly now)
    have h₂ : c₂ = c := (congrArg (fun c => (Cache.apply c u now').2) h₁).trans
      (congrArg Prod.snd (happly now'))
    have hf : c.Fulfils u u.targetIds := Cache.fulfils_of_not_contains hu
    rw [h₁, h₂, happly, happly]
    exact ⟨rfl, rfl, fun _ _ => .inl rfl, iff_of_true hf fun _ => rfl, iff_of_true hf fun _ => rfl,
      fun _ => hf⟩
  case pos =>
    have happly := Cache.apply_eq hs hu now
    have h₁ : c₁ = c.served u now u.targetIds := congrArg Prod.snd happly
    have hs₁ : c₁.Sound := h₁ ▸ Cache.sound_served hs hu now u.targetIds
    have hu₁ : c₁.contains u.target := h₁ ▸ Cache.contains_served hs hu now u.targetIds
    have happly' := Cache.apply_eq hs₁ hu₁ now'
    have h₂ : c₂ = c₁.served u now' u.targetIds := congrArg Prod.snd happly'
    have hstores (hf : c₁.Fulfils u u.targetIds) (type : Descriptor) :
        c₂.store? type = c₁.store? type :=
      h₂ ▸ Cache.store?_served_of_fulfils now' hu₁ hf type
    have hlinks (h : ∀ id, c₂.linksUnder? u.target id u.binding.relation =
        c₁.linksUnder? u.target id u.binding.relation) : c₁.Fulfils u u.targetIds :=
      Cache.fulfils_of_linksUnder? hs₁ hu₁ now' (h₂ ▸ h)
    have hsame (h : ∀ type, c₂.store? type = c₁.store? type) (id : String) :
        c₂.linksUnder? u.target id u.binding.relation =
          c₁.linksUnder? u.target id u.binding.relation :=
      Cache.linksUnder?_congr (Cache.cached?_congr (h u.target) id) _
    refine ⟨?_, ?_, fun type id => ?_, ⟨hstores, hlinks ∘ hsame⟩, ⟨hsame ∘ hstores, hlinks⟩,
      fun hone => h₁ ▸ Cache.fulfils_served hs hu now hone⟩
    case refine_1 =>
      have hresolve := h₁ ▸ Cache.isSome_resolve?_served hs hu now u.targetIds
      rw [happly, happly']
      simp only [hresolve]
    case refine_2 =>
      exact h₂ ▸ Cache.buffer_served now' hs₁ hu₁ (h₁ ▸ Cache.waits_served now hs hu)
    case refine_3 =>
      by_cases ht : type = u.target
      case neg =>
        have hspared := h₁ ▸ (Cache.spared_served hs hu now u.targetIds).1
        exact .inl (Cache.cached?_congr (hspared.stores type ht) id)
      case pos =>
        rw [ht]
        have hchanged := h₁ ▸ Cache.cached?_served_eq_or_done hs hu now u.targetIds id
        exact hchanged.imp_right fun hd => h₂ ▸ Cache.cached?_served_of_done hs₁ hu₁ now' _ hd

section Rejoining

open Roster

theorem repeats_apply_joined :
    let c := ((start {} types (.ofRules (rules .zeroOrOne)) ()).run
      [.entity ⟨1, 1⟩ (sent group "a" [] 1)]).cache
    let u := joins .add "1" ["a", "b"] 2
    let c₁ := (c.apply u 3).2
    let c₂ := (c₁.apply u 4).2
    (∀ i ∈ u.targetIds, c.Single u.target i) ∧
      c₁.linksUnder? group "a" "member" = some [link student "1"] ∧
      c₁.buffer.queue (u.address "systemid/b") = [(link student "1", 3)] ∧
      c₂.buffer = c₁.buffer ∧ ∀ type, c₂.store? type = c₁.store? type := by
  intro c u c₁ c₂
  have hone : ∀ i ∈ u.targetIds, c.Single u.target i :=
    fun _ _ => Cache.single_of_ids "a" (by decide +kernel)
  have ⟨_, hbuffer, _, hstores, _, hf⟩ := repeats_apply {} types (.ofRules (rules .zeroOrOne)) ()
    [.entity ⟨1, 1⟩ (sent group "a" [] 1)] u 3 4
  exact ⟨hone, by decide +kernel, by decide +kernel, hbuffer, hstores.mp (hf hone)⟩

-- Two groups under one identifier.
def doubled : List Step := [
  .entity ⟨1, 1⟩ { sent group "a" [] 1 with id := "g1" },
  .entity ⟨2, 2⟩ { sent group "a" [] 2 with id := "g2" }]

theorem not_repeats_apply_doubled :
    ¬∀ (steps : List Step) (u : Update) (now now' : Int),
      let c := ((start {} types (.ofRules (rules .zeroOrOne)) ()).run steps).cache
      let c₁ := (c.apply u now).2
      let c₂ := (c₁.apply u now').2
      c.contains u.target → ∀ id, c₂.linksUnder? u.target id u.binding.relation =
        c₁.linksUnder? u.target id u.binding.relation := by
  intro h
  have h := h doubled (joins .add "1" ["a"] 5) 6 7 (by decide +kernel) "g2"
  revert h
  decide +kernel

end Rejoining

end Pipeline
end LinkedCache
