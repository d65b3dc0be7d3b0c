import LinkedCache.Proofs.Removal

-- Events that are turned down. A pipeline that answers an error is as it was before, but for one
-- thing: an event whose payload is no resource still counts towards its run, which may end with it
-- and evict what it did not deliver. Whatever this takes out of the cache, nothing gets in.

namespace LinkedCache

-- Whether an update is about a link that waits.
def Update.Hits (u : Update) (a : Address) (key : String) : Prop :=
  ∃ i ∈ u.targetIds, a = u.address i ∧ key ∈ u.keys

namespace Cache

variable {c c' c'' : Cache} {d : Update} {i : String} {a : Address} {key : String} {now : Int}

-- Whether a cache has nothing that another one has not: no resource, no attribute, and no link.
structure Sheds (c c' : Cache) : Prop where
  gets : ∀ type id r', c'.get? type id = some r' → ∃ r, c.get? type id = some r ∧
    r'.attributes = r.attributes ∧ ∀ relation key, r'.Reaches relation key → r.Reaches relation key
  awaits : ∀ a key, c'.buffer.Awaits a key → c.buffer.Awaits a key

theorem Sheds.refl (c : Cache) : c.Sheds c where
  gets _ _ r hg := ⟨r, hg, rfl, fun _ _ h => h⟩
  awaits _ _ := id

theorem Sheds.trans (h : c.Sheds c') (h' : c'.Sheds c'') : c.Sheds c'' where
  gets type id r'' hg := by
    have ⟨r', hg', ha', hr'⟩ := h'.gets type id r'' hg
    have ⟨r, hg, ha, hr⟩ := h.gets type id r' hg'
    exact ⟨r, hg, ha'.trans ha, fun relation key hk => hr _ _ (hr' _ _ hk)⟩
  awaits a key ha := h.awaits a key (h'.awaits a key ha)

theorem Loses.sheds {c₀ : Cache} {us : List Update} (h : c₀.Loses c us c') : c.Sheds c' where
  gets _ _ r hg := ⟨r, h.kept _ _ _ hg, rfl, fun _ _ h => h⟩
  awaits _ _ := h.buffer ▸ id

section Delete

variable (hd : d.operation = .delete)

include hd

theorem awaits_of_applies (ha : Applies d i c c') :
    c'.buffer.Awaits a key ↔
      c.buffer.Awaits a key ∧ ¬(a = d.address i ∧ key ∈ d.keys) := by
  cases ha
  case here _ _ _ _ _ _ _ waits => rw [waits]
  case away _ _ waits => rw [waits, Update.Effect, hd]

theorem sheds_of_applies (ha : Applies d i c c') : c.Sheds c' where
  gets type id r' hg := by
    cases ha
    case away _ gets _ => exact ⟨r', gets .. ▸ hg, rfl, fun _ _ h => h⟩
    case here id' r₁ r₂ _ cached acts gets _ =>
      rw [gets] at hg
      split at hg
      case isFalse => exact ⟨r', hg, rfl, fun _ _ h => h⟩
      case isTrue hi =>
        obtain rfl := Option.some.inj hg
        refine ⟨r₁, hi.1 ▸ hi.2 ▸ cached, acts.attributes, fun relation key hk => ?_⟩
        rw [acts.reaches, Update.Effect, hd] at hk
        exact hk.1
  awaits a key h := ((awaits_of_applies hd ha).mp h).1

theorem sheds_apply (now : Int) (hs : c.Sound) : c.Sheds (c.apply d now).2 :=
  (apply_induct hs (.refl c) fun _ _ _ _ _ _ ha h => h.trans (sheds_of_applies hd ha)).1

theorem awaits_apply (hs : c.Sound) (hc : c.contains d.target) :
    (c.apply d now).2.buffer.Awaits a key ↔ c.buffer.Awaits a key ∧ ¬d.Hits a key := by
  let P (ids : List String) (c' : Cache) : Prop := c'.buffer.Awaits a key ↔
    c.buffer.Awaits a key ∧ ¬∃ i ∈ ids, a = d.address i ∧ key ∈ d.keys
  refine (apply_fold (P := P) hs hc (by simp [P]) ?_).1
  rintro ids i - c₁ c₂ - - ha hp
  dsimp only [P] at hp ⊢
  rw [awaits_of_applies hd ha, hp, and_assoc, ← not_or]
  simp only [List.mem_append, List.mem_singleton, or_and_right, exists_or, exists_eq_left]

end Delete

end Cache

theorem Resource.exists_conversion_of_ofValue {v : Json.Value} {e : Error}
    (h : Resource.ofValue v = .error e) : ∃ detail, e = .conversion detail := by
  unfold Resource.ofValue at h
  split at h
  case h_2 => exact ⟨_, (Except.error.inj h).symm⟩
  case h_1 =>
    dsimp only at h
    split at h
    case h_1 => simp at h
    case h_2 =>
      split at h
      case h_1 => simp at h
      case h_2 => exact ⟨_, (Except.error.inj h).symm⟩

namespace Pipeline

variable {Outbound : Type} [Publisher Outbound] {p p' : Pipeline Outbound} {now : Moment}
  {e : EntityEvent} {type : Descriptor} {id : String} {ds us : List Update} {a : Address}
  {key : String} {cutoff : Int} {n : Nat}

section Delete

theorem sheds_dispatchAll (now : Moment) (hds : ∀ d ∈ ds, d.operation = .delete)
    (hs : p.cache.Sound) : p.cache.Sheds (p.dispatchAll now ds).cache := by
  unfold dispatchAll
  induction ds generalizing p
  case nil => exact .refl _
  case cons d ds hi =>
    have hs' := (Cache.kin_and_sound_of_change hs (.apply d now.wall)).2
    have hd := Cache.sheds_apply (hds d (.head _)) now.wall hs
    rw [← cache_dispatch] at hs' hd
    exact hd.trans (hi (fun d hm => hds d (.tail _ hm)) hs')

-- A link goes on waiting unless an update is about it.
theorem awaits_dispatchAll (now : Moment) (hds : ∀ d ∈ ds, d.operation = .delete)
    (hs : p.cache.Sound) (ha : p.cache.buffer.Awaits a key) (hn : ∀ d ∈ ds, ¬d.Hits a key) :
    (p.dispatchAll now ds).cache.buffer.Awaits a key := by
  unfold dispatchAll
  induction ds generalizing p
  case nil => exact ha
  case cons d ds hi =>
    have hs' := (Cache.kin_and_sound_of_change hs (.apply d now.wall)).2
    have ha' : (p.cache.apply d now.wall).2.buffer.Awaits a key := by
      by_cases hc : p.cache.contains d.target
      case pos => exact (Cache.awaits_apply (hds d (.head _)) hs hc).mpr ⟨ha, hn d (.head _)⟩
      case neg => rwa [Cache.apply_of_not_contains hc]
    rw [← cache_dispatch] at hs' ha'
    exact hi (fun d hm => hds d (.tail _ hm)) hs' ha' fun d hm => hn d (.tail _ hm)

end Delete

-- Whether a link does not wait any more because the resource it leads back to was evicted.
def Withdrawn (p p' : Pipeline Outbound) (a : Address) (key : String) : Prop :=
  ∃ type id r t, p.cache.get? type id = some r ∧ p'.cache.get? type id = none ∧
    ∃ d ∈ p.cache.removalUpdates type r t, d.Hits a key

theorem Removal.sheds (h : p.Removal now p') (hs : p.cache.Sound) : p.cache.Sheds p'.cache := by
  obtain ⟨ds, c, hd, rfl⟩ := h.exists_drops hs
  exact hd.sheds.trans (sheds_dispatchAll (p := p.withCache c) now (fun _ => hd.operation) hd.sound)

theorem Removal.awaits (h : p.Removal now p') (hs : p.cache.Sound)
    (ha : p.cache.buffer.Awaits a key) : p'.cache.buffer.Awaits a key ∨ Withdrawn p p' a key := by
  obtain ⟨ds, c, hd, rfl⟩ := h.exists_drops hs
  by_cases hn : ∃ d ∈ ds, d.Hits a key
  case pos =>
    have ⟨d, hm, hhits⟩ := hn
    have ⟨type, id, r, t, hg, hgone, hm⟩ := hd.gone d hm
    exact .inr ⟨type, id, r, t, hg, (get?_dispatchAll_eq_none now ds).mpr hgone, d, hm, hhits⟩
  case neg =>
    exact .inl (awaits_dispatchAll (p := p.withCache c) now (fun _ => hd.operation) hd.sound
      (hd.buffer ▸ ha) fun d hm hhits => hn ⟨d, hm, hhits⟩)

-- What an event does that only counts towards its run.
inductive OnlyCounts (p : Pipeline Outbound) (now : Moment) (e : EntityEvent) :
    Pipeline Outbound → Prop
  | untracked (hm : e.sync = none) : OnlyCounts p now e p
  | unfinished (m : SyncMetadata) (outcome : Sync.Outcome) (sync : Sync.Tracker)
    (hm : e.sync = some m) (hr : p.sync.record e.type m e.timestamp = (outcome, sync))
    (ho : ∀ cutoff, outcome ≠ .completed (some cutoff)) : OnlyCounts p now e { p with sync }
  | finished (m : SyncMetadata) (cutoff : Int) (sync : Sync.Tracker) (n : Nat)
    (p' : Pipeline Outbound) (hm : e.sync = some m) (hk : m.kind = .full)
    (hr : p.sync.record e.type m e.timestamp = (.completed (some cutoff), sync))
    (he : { p with sync }.evict now e.type cutoff = .ok (n, p')) : OnlyCounts p now e p'

section Counts

theorem evictBefore?_eq_some {o : Sync.Outcome} :
    o.evictBefore? = some cutoff ↔ o = .completed (some cutoff) := by
  cases o <;> simp [Sync.Outcome.evictBefore?]

theorem onlyCounts_advanceRun (now : Moment) (hc : p.cache.contains e.type) :
    p.OnlyCounts now e (p.advanceRun now e).2.2 := by
  cases hm : e.sync
  case none =>
    rw [p.advanceRun_none now hm]
    exact .untracked hm
  case some m =>
    cases ho : (p.sync.record e.type m e.timestamp).1.evictBefore?
    case none =>
      rw [p.advanceRun_of_spared now hm ho]
      refine .unfinished m (p.sync.record e.type m e.timestamp).1 _ hm rfl fun cutoff he => ?_
      exact nomatch ho.symm.trans (evictBefore?_eq_some.mpr he)
    case some cutoff =>
      have ⟨n, p', hev, he⟩ := p.advanceRun_of_cutoff now hm hc ho
      have hk := (Sync.Tracker.kind_and_le_of_evictBefore? ho).1
      rw [he]
      exact .finished m cutoff _ n p' hm hk (Prod.ext (evictBefore?_eq_some.mp ho) rfl) hev

theorem OnlyCounts.sheds (h : p.OnlyCounts now e p') (hs : p.cache.Sound) :
    p.cache.Sheds p'.cache ∧ ∀ a key, p.cache.buffer.Awaits a key →
      p'.cache.buffer.Awaits a key ∨ Withdrawn p p' a key := by
  cases h
  case untracked => exact ⟨.refl _, fun _ _ => .inl⟩
  case unfinished => exact ⟨.refl _, fun _ _ => .inl⟩
  case finished cutoff sync n _ _ _ he =>
    have hremoval : { p with sync }.Removal now p' := .evict e.type cutoff n p' he
    exact ⟨hremoval.sheds hs, fun _ _ => hremoval.awaits hs⟩

theorem OnlyCounts.sync_eq (h : p.OnlyCounts now e p') :
    p'.sync = (e.sync.map fun m => (p.sync.record e.type m e.timestamp).2).getD p.sync := by
  cases h
  case untracked hm => rw [hm, Option.map_none, Option.getD_none]
  case unfinished hm hr _ => rw [hm, Option.map_some, hr, Option.getD_some]
  case finished hm _ hr he => rw [hm, Option.map_some, hr, Option.getD_some, sync_evict he]

-- Sessions see of an event what it says about its run, whatever else it brings.
theorem sync_processEntity (now : Moment) (hs : p.cache.Sound) (hc : p.cache.contains e.type) :
    (p.processEntity now e).2.sync =
      (e.sync.map fun m => (p.sync.record e.type m e.timestamp).2).getD p.sync := by
  have ⟨hk, _⟩ := Cache.kin_and_sound_of_changes hs (changes_of_moves (p.moves_deliver now e))
  rw [processEntity_eq now hc, (onlyCounts_advanceRun now (hk.contains ▸ hc)).sync_eq, sync_deliver]

end Counts

section Errors

omit [Publisher Outbound] in
theorem write_eq_error {err : Error} (hc : p.cache.contains e.type) :
    p.write e = .error err ↔ ∃ payload detail, e.payload = some payload ∧
      Resource.ofValue payload = .error (.conversion detail) ∧ err = .conversion detail := by
  constructor
  · intro hw
    cases hp : e.payload
    case none =>
      have ⟨_, _, hok⟩ := exists_write hc (.inl hp)
      simp [hok] at hw
    case some payload =>
      cases hr : Resource.ofValue payload
      case ok r =>
        have ha : e.arrival?.isSome := by simp [EntityEvent.arrival?, hp, hr, Except.toOption]
        have ⟨_, _, hok⟩ := exists_write hc (.inr ha)
        simp [hok] at hw
      case error =>
        obtain ⟨detail, rfl⟩ := Resource.exists_conversion_of_ofValue hr
        unfold write at hw
        rw [hp] at hw
        simp only [hr, bind, Except.bind, Except.error.injEq] at hw
        exact ⟨payload, detail, rfl, hr, hw.symm⟩
  · rintro ⟨payload, detail, hp, hr, rfl⟩
    unfold write
    rw [hp]
    simp only [hr, bind, Except.bind]

theorem processEntity_eq_error {f : Failure} :
    (p.processEntity now e).1 = .error f ↔
      (¬p.cache.contains e.type ∧ f = .noStore e.type.text) ∨
      (p.cache.contains e.type ∧ ∃ payload detail, e.payload = some payload ∧
        Resource.ofValue payload = .error (.conversion detail) ∧ f = .conversion detail) := by
  by_cases hc : p.cache.contains e.type
  case neg => simp [processEntity, hc, eq_comm]
  case pos =>
    have hiff : (p.processEntity now e).1 = .error f ↔
        ∃ err, p.write e = .error err ∧ f = .ofError err := by
      cases hw : p.write e
      case ok => simp [answer_of_write now hc hw]
      case error => simp [processEntity, hc, hw, eq_comm]
    rw [hiff]
    constructor
    · rintro ⟨err, hw, rfl⟩
      obtain ⟨payload, detail, hp, hr, rfl⟩ := (write_eq_error hc).mp hw
      exact .inr ⟨hc, payload, detail, hp, hr, rfl⟩
    · rintro (⟨hn, _⟩ | ⟨_, payload, detail, hp, hr, rfl⟩)
      · exact absurd hc hn
      · exact ⟨_, (write_eq_error hc).mpr ⟨payload, detail, hp, hr, rfl⟩, rfl⟩

end Errors

-- What a rejected event leaves behind. No error but these two is ever answered to an event about a
-- resource.
theorem rejects_intact (config : Config) (types : List (Descriptor × List String))
    (rules : Registry) (outbound : Outbound) (steps : List Step) (now : Moment) :
    let p := (start config types rules outbound).run steps
    (∀ e f, (p.processRelation now e).1 = .error f → (p.processRelation now e).2 = p) ∧
    (∀ e f, (p.processEntity now e).1 = .error f ↔
      (¬p.cache.contains e.type ∧ f = .noStore e.type.text) ∨
      (p.cache.contains e.type ∧ ∃ payload detail, e.payload = some payload ∧
        Resource.ofValue payload = .error (.conversion detail) ∧ f = .conversion detail)) ∧
    (∀ e detail, (p.processEntity now e).1 = .error (.notFound detail) →
      (p.processEntity now e).2 = p) ∧
    ∀ e detail, (p.processEntity now e).1 = .error (.conversion detail) →
      p.OnlyCounts now e (p.processEntity now e).2 ∧
      p.cache.Sheds (p.processEntity now e).2.cache ∧
      (∀ a key, p.cache.buffer.Awaits a key →
        (p.processEntity now e).2.cache.buffer.Awaits a key ∨
          Withdrawn p (p.processEntity now e).2 a key) ∧
      ∀ payload, (p.processEntity now { e with payload }).2.sync =
        (p.processEntity now e).2.sync := by
  intro p
  have hs : p.cache.Sound := sound_run steps
  refine ⟨fun e f hf => ?_, fun e f => processEntity_eq_error, fun e detail hf => ?_,
    fun e detail hf => ?_⟩
  case refine_1 =>
    unfold processRelation at hf ⊢
    split
    case h_1 => rfl
    case h_2 hn => simp [hn] at hf
  case refine_2 =>
    obtain ⟨hc, _⟩ | ⟨_, _, _, _, _, he⟩ := processEntity_eq_error.mp hf
    case inl => simp [processEntity, hc]
    case inr => cases he
  case refine_3 =>
    obtain ⟨_, he⟩ | ⟨hc, payload, _, hp, hr, _⟩ := processEntity_eq_error.mp hf
    case inl => cases he
    case inr =>
      have hd : p.deliver now e = p := by
        refine deliver_of_unconvertible now (by simp [hp]) ?_
        simp [EntityEvent.arrival?, hp, hr, Except.toOption]
      have hcounts : p.OnlyCounts now e (p.processEntity now e).2 := by
        rw [processEntity_eq now hc, hd]
        exact onlyCounts_advanceRun now hc
      obtain ⟨hsheds, hwaits⟩ := hcounts.sheds hs
      refine ⟨hcounts, hsheds, hwaits, fun payload' => ?_⟩
      exact (sync_processEntity (e := { e with payload := payload' }) now hs hc).trans
        (sync_processEntity now hs hc).symm

section Garbled

open Roster

-- A run of two students, of whom the second cannot be read.
def counted (e : EntityEvent) : EntityEvent :=
  { e with sync := some ⟨.full, "run", 2⟩ }

def garbled : EntityEvent :=
  counted { sent student "3" [] 6 with payload := some (.string "3") }

def garbling : List Step := [
  .entity ⟨1, 1⟩ (sent group "a" [] 1),
  .entity ⟨2, 2⟩ (sent student "1" ["a"] 2),
  .entity ⟨3, 3⟩ (counted (sent student "2" ["a"] 5))]

theorem rejects_intact_garbled :
    let p := (start {} types (.ofRules (rules .zeroOrOne)) ()).run garbling
    let p' := (p.processEntity ⟨6, 6⟩ garbled).2
    (p.processEntity ⟨6, 6⟩ garbled).1 =
      .error (.conversion "expected object, got string") ∧
    p.OnlyCounts ⟨6, 6⟩ garbled p' ∧ p.cache.Sheds p'.cache ∧
    p'.cache.get? student "1" = none ∧ (p'.cache.get? student "2").isSome := by
  intro p p'
  have hc : p.cache.contains garbled.type := by decide +kernel
  have ⟨_, hiff, _, hconversion⟩ := rejects_intact {} types (.ofRules (rules .zeroOrOne)) ()
    garbling ⟨6, 6⟩
  have hf := (hiff garbled (.conversion "expected object, got string")).mpr
    (.inr ⟨hc, .string "3", _, rfl, rfl, rfl⟩)
  have ⟨hcounts, hsheds, _⟩ := hconversion garbled _ hf
  refine ⟨hf, hcounts, hsheds, ?_, ?_⟩
  · rw [← Option.not_isSome_iff_eq_none]
    decide +kernel
  · decide +kernel

end Garbled

end Pipeline
end LinkedCache
