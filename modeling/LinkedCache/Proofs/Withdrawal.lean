import LinkedCache.Proofs.Removal

-- Taking back what was put on other resources. Removing a resource withdraws its link from the
-- targets of all links that it holds under a relation, and from none of them if one of these links
-- is malformed. Writing it puts its link on the target of the first one only, so that what comes
-- behind does not matter, unless the relation is many-valued on both sides.

namespace LinkedCache

namespace Rule

variable {rule : Rule} {source : Source} {r : Resource} {t : Int} {us : List Update} {d u : Update}
  {i : String} {back : Link} {l : Link}

theorem withdraws_of_added (ha : rule.added source r t = .ok us) (hu : u ∈ us)
    (hi : i ∈ u.targetIds)
    (hl : rule.isManyToMany ∨ ∀ l ∈ r.links rule.relation, l.identity?.isSome) :
    rule.Withdraws r i := by
  obtain ⟨ids, back, hids, _, he⟩ := mem_added ha hu
  rw [he] at hi
  obtain ⟨l, hm, hl'⟩ := (mem_iff_of_mapM hids).mp hi
  refine ⟨hl.elim (fun hmany l hm => ?_) id, l, ?_, identity_eq_ok.mp hl'⟩
  case refine_1 =>
    have hm : l ∈ rule.counted (r.links rule.relation) := by simpa [counted, hmany] using hm
    obtain ⟨_, _, hi⟩ := exists_of_mapM hids hm
    simp [identity_eq_ok.mp hi]
  case refine_2 =>
    unfold counted at hm
    split at hm
    case isTrue => exact hm
    case isFalse => exact List.mem_of_mem_take hm

end Rule

-- Whether one update takes the links of another back from a target.
structure Update.Undoes (d u : Update) (i : String) : Prop where
  operation : d.operation = .delete
  target : d.target = u.target
  addressed : i ∈ d.targetIds
  relation : d.binding.relation = u.binding.relation
  links : ∀ l ∈ u.binding.links, ∃ l' ∈ d.binding.links, l'.sameTarget l

theorem Update.Undoes.keys {d u : Update} {i key : String} (h : d.Undoes u i)
    (hk : key ∈ u.keys) : key ∈ d.keys := by
  have ⟨l, hl, he⟩ := List.mem_map.mp hk
  have ⟨l', hl', hs⟩ := h.links l hl
  exact List.mem_map.mpr ⟨l', hl', (Link.sameTarget_iff.mp hs).trans he⟩

namespace Cache

variable {c c' : Cache} {type : Descriptor} {rule : Rule} {r : Resource} {t t' now : Int}
  {us ds : List Update} {d u : Update} {i j : String}

-- Whether removing a resource takes its link back from a target that a rule is about. Some other
-- rule that mirrors onto the same relation may do it.
def Withdraws (c : Cache) (type : Descriptor) (rule : Rule) (r : Resource) (i : String) : Prop :=
  ∃ rule' ∈ c.rules.rulesOf type,
    rule'.target = rule.target ∧ rule'.inverse = rule.inverse ∧ rule'.Withdraws r i

theorem undoes_iff (t' : Int) (ha : rule.added (c.sourceOf type) r t = .ok us) (hu : u ∈ us) :
    (∃ d ∈ c.removalUpdates type r t', d.Undoes u i) ↔ c.Withdraws type rule r i := by
  have ⟨ids, back, _, hb, he⟩ := Rule.mem_added ha hu
  simp only [removalUpdates_eq, mem_contributions, Rule.mem_withdrawn_iff]
  constructor
  · rintro ⟨d, ⟨rule', hr, _, j, _, hw, rfl⟩, h⟩
    obtain rfl : i = j := List.mem_singleton.mp h.addressed
    exact ⟨rule', hr, h.target.trans (he ▸ rfl), h.relation.trans (he ▸ rfl), hw⟩
  · rintro ⟨rule', hr, ht, hi, hw⟩
    refine ⟨_, ⟨rule', hr, back, i, hb, hw, rfl⟩, ?_⟩
    rw [he]
    refine ⟨rfl, ht, .head _, hi, fun l hl => ⟨back, .head _, ?_⟩⟩
    obtain rfl : l = back := List.mem_singleton.mp hl
    exact Link.sameTarget_iff.mpr rfl

-- Whether at most one resource answers to an identity.
def Single (c : Cache) (type : Descriptor) (i : String) : Prop :=
  ∀ id id', c.Answers type i id → c.Answers type i id' → id = id'

theorem single_of_ids (id : String)
    (h : (c.store? type).map (fun s => s.entries.map (·.id)) = some [id]) : c.Single type i :=
  fun _ _ h₁ h₂ => (id_of_answers h h₁).trans (id_of_answers h h₂).symm

-- Whether none of the links of an update is left at one of its targets.
structure Without (c : Cache) (u : Update) (i : String) : Prop where
  reaches : ∀ id r, c.Answers u.target i id → c.get? u.target id = some r →
    ∀ key ∈ u.keys, ¬r.Reaches u.binding.relation key
  awaits : ∀ key ∈ u.keys, ¬c.buffer.Awaits (u.address i) key

theorem Without.applies (h : c.Without u i) (hk : c.Kin c') (hd : d.operation = .delete)
    (ha : Applies d j c c') : c'.Without u i := by
  refine ⟨fun id r' hans hg key hkey => ?_, fun key hkey => ?_⟩
  case refine_1 =>
    have hans := (ha.answers_iff hk ..).mp hans
    cases ha
    case away _ gets _ => exact h.reaches id r' hans (gets .. ▸ hg) key hkey
    case here id' r₁ r₂ _ cached acts gets _ =>
      rw [gets] at hg
      split at hg
      case isFalse => exact h.reaches id r' hans hg key hkey
      case isTrue hi =>
        obtain rfl := Option.some.inj hg
        rw [← hi.1, ← hi.2] at cached
        rw [acts.reaches, Update.Effect, hd]
        exact fun hr => h.reaches id r₁ hans cached key hkey hr.1
  case refine_2 =>
    cases ha
    case away _ _ waits =>
      rw [waits, Update.Effect, hd]
      exact fun hw => h.awaits key hkey hw.1
    case here _ _ _ _ _ _ _ waits =>
      rw [waits]
      exact fun hw => h.awaits key hkey hw.1

theorem without_of_applies (hk : c.Kin c') (hd : d.Undoes u i) (hone : c.Single u.target i)
    (ha : Applies d i c c') : c'.Without u i := by
  have haddress : u.address i = d.address i := by
    simp [Update.address, hd.target, hd.relation]
  refine ⟨fun id r' hans hg key hkey => ?_, fun key hkey => ?_⟩
  case refine_1 =>
    have hans := (ha.answers_iff hk ..).mp hans
    cases ha
    case away absent _ _ => exact absurd (hd.target ▸ hans) (absent id)
    case here id' r₁ r₂ answers cached acts gets _ =>
      obtain rfl := hone id id' hans (hd.target ▸ answers)
      rw [gets, if_pos ⟨hd.target.symm, rfl⟩] at hg
      obtain rfl := Option.some.inj hg
      rw [acts.reaches, Update.Effect, hd.operation]
      exact fun hr => hr.2 ⟨hd.relation.symm, hd.keys hkey⟩
  case refine_2 =>
    rw [haddress]
    cases ha
    case away _ _ waits =>
      rw [waits, Update.Effect, hd.operation]
      exact fun hw => hw.2 ⟨rfl, hd.keys hkey⟩
    case here _ _ _ _ _ _ _ waits =>
      rw [waits]
      exact fun hw => hw.2 ⟨rfl, hd.keys hkey⟩

theorem Without.apply (h : c.Without u i) (hs : c.Sound) (hd : d.operation = .delete) :
    (c.apply d now).2.Without u i :=
  (apply_induct (P := (·.Without u i)) hs h fun _ _ _ _ hk _ ha hw => hw.applies hk hd ha).1

theorem without_apply (hs : c.Sound) (hc : c.contains u.target) (hd : d.Undoes u i)
    (hone : c.Single u.target i) :
    (c.apply d now).2.Without u i := by
  let P (ids : List String) (c' : Cache) : Prop :=
    (∀ id, c'.Answers u.target i id ↔ c.Answers u.target i id) ∧ (i ∈ ids → c'.Without u i)
  have h : P d.targetIds (c.apply d now).2 := by
    refine (apply_fold hs (hd.target ▸ hc) ⟨fun _ => .rfl, by simp⟩ ?_).1
    rintro ids j - c₁ c₂ hk - ha ⟨hsame, hw⟩
    refine ⟨fun id => (ha.answers_iff hk ..).trans (hsame id), fun hi => ?_⟩
    obtain hi | hi := List.mem_append.mp hi
    case inl => exact (hw hi).applies hk hd.operation ha
    case inr =>
      obtain rfl := List.mem_singleton.mp hi
      exact without_of_applies hk hd
        (fun id id' h h' => hone id id' ((hsame id).mp h) ((hsame id').mp h')) ha
  exact h.2 hd.addressed

-- Nothing that is taken out of a cache leaves a link behind that was not there.
theorem Loses.without {c₀ : Cache} (h : c₀.Loses c ds c') (hw : c.Without u i) :
    c'.Without u i := by
  refine ⟨fun id r hans hg => ?_, h.buffer ▸ hw.awaits⟩
  have ⟨r', hg', ha⟩ := hans
  exact hw.reaches id r ⟨r', h.kept _ _ _ hg', h.kin.fieldsOf ▸ ha⟩ (h.kept _ _ _ hg)

end Cache

namespace Pipeline

variable {Outbound : Type} [Publisher Outbound] {p p' : Pipeline Outbound} {now : Moment}
  {type : Descriptor} {id i : String} {r : Resource} {ds us : List Update} {u : Update}
  {c : Cache}

theorem without_dispatchAll (now : Moment) (hs : p.cache.Sound) (hc : p.cache.contains u.target)
    (hds : ∀ d ∈ ds, d.operation = .delete)
    (hone : p.cache.Single u.target i)
    (h : (∃ d ∈ ds, d.Undoes u i) ∨ p.cache.Without u i) :
    (p.dispatchAll now ds).cache.Without u i := by
  unfold dispatchAll
  induction ds generalizing p
  case nil => simpa using h
  case cons d ds hi =>
    have hk := Cache.kin_and_sound_of_change hs (.apply d now.wall)
    rw [← cache_dispatch] at hk
    have hans (id : String) : (p.dispatch now d).2.cache.Answers u.target i id ↔
        p.cache.Answers u.target i id := by
      rw [cache_dispatch]
      exact Cache.answers_apply d now.wall hs ..
    refine hi hk.2 (hk.1.contains ▸ hc) (fun d hd => hds d (.tail _ hd))
      (fun id id' h h' => hone id id' ((hans id).mp h) ((hans id').mp h')) ?_
    rw [cache_dispatch]
    obtain ⟨d', hm, hd⟩ | hw := h
    case inr => exact .inr (hw.apply hs (hds d (.head _)))
    case inl =>
      obtain rfl | hm := List.mem_cons.mp hm
      case inl => exact .inr (Cache.without_apply hs hc hd hone)
      case inr => exact .inl ⟨d', hm, hd⟩

-- What takes a resource out of the cache also takes its link back from a target, if one of the
-- updates that withdraw its links is about the target.
theorem without_of_removal (h : p.Removal now p') (hs : p.cache.Sound)
    (hc : p.cache.contains u.target) (hone : p.cache.Single u.target i)
    (hu : p.cache.Without u i ∨ ∃ type id r, p.cache.get? type id = some r ∧
      p'.cache.get? type id = none ∧ ∀ t, ∃ d ∈ p.cache.removalUpdates type r t, d.Undoes u i) :
    p'.cache.Without u i := by
  obtain ⟨ds, c, hd, rfl⟩ := h.exists_drops hs
  refine without_dispatchAll now hd.sound (hd.kin.contains ▸ hc) (fun _ => hd.operation)
    (fun id id' hi hi' => hone id id' (hd.answers hi) (hd.answers hi')) ?_
  obtain hw | ⟨type, id, r, hg, hn, hw⟩ := hu
  case inl => exact .inr (hd.without hw)
  case inr =>
    have hn : c.get? type id = none := (get?_dispatchAll_eq_none now ds).mp hn
    obtain hg | ⟨t, ht⟩ := hd.lost _ _ _ hg
    case inl => exact nomatch hn.symm.trans hg
    case inr =>
      have ⟨d, hm, hundoes⟩ := hw t
      exact .inl ⟨d, ht hm, hundoes⟩

theorem without_of_delete {e : EntityEvent} (now : Moment) (hs : p.cache.Sound)
    (hc : p.cache.contains u.target) (hone : p.cache.Single u.target i) (hp : e.payload = none)
    (hg : p.cache.get? e.type e.id = some r)
    (hu : ∀ t, ∃ d ∈ p.cache.removalUpdates e.type r t, d.Undoes u i) :
    (p.processEntity now e).2.cache.Without u i := by
  have hserved := Cache.contains_of_get? hg
  have hremoval : p.Removal now (p.deliver now e) := .delete e hp
  have hw : (p.deliver now e).cache.Without u i :=
    without_of_removal hremoval hs hc hone (.inr ⟨_, _, _, hg, get?_of_delete now hs hp, hu⟩)
  have hone' : (p.deliver now e).cache.Single u.target i := fun id id' h h' =>
    hone id id' (hremoval.answers hs h) (hremoval.answers hs h')
  have ⟨hk, hs'⟩ := hremoval.kin_and_sound hs
  rw [processEntity_eq now hserved]
  -- The end of a run may evict others, which puts nothing on a target.
  obtain ⟨sync, he⟩ | ⟨sync, cutoff, n, hev, _⟩ :=
    (p.deliver now e).advanceRun_cases now (hk.contains ▸ hserved)
  case inl => exact he ▸ hw
  case inr =>
    exact without_of_removal (p := { p.deliver now e with sync }) (.evict e.type cutoff n _ hev)
      hs' (hk.contains.trans hc) hone' (.inl hw)

-- Removing a resource takes back what adding its links put on a target, unless a malformed link
-- keeps every rule that is about the target from doing so. Once it is taken back, nothing of it is
-- left on the target, nor waits for it.
theorem undoes_added (config : Config) (types : List (Descriptor × List String))
    (rules : Registry) (outbound : Outbound) (steps : List Step) (type : Descriptor) (rule : Rule)
    (r : Resource) (t : Int) (us : List Update) (u : Update) (i : String) :
    let p := (start config types rules outbound).run steps
    rule ∈ p.cache.rules.rulesOf type → rule.added (p.cache.sourceOf type) r t = .ok us →
      u ∈ us → i ∈ u.targetIds →
    (∀ t', (∃ d ∈ p.cache.removalUpdates type r t', d.Undoes u i) ↔
      p.cache.Withdraws type rule r i) ∧
    (rule.isManyToMany ∨ (∀ l ∈ r.links rule.relation, l.identity?.isSome) →
      p.cache.Withdraws type rule r i) ∧
    (p.cache.Withdraws type rule r i → p.cache.contains u.target → p.cache.Single u.target i →
      ∀ id now, p.cache.get? type id = some r →
        (∀ e : EntityEvent, e.type = type → e.id = id → e.payload = none →
          (p.step (.entity now e)).cache.Without u i) ∧
        ∀ cutoff, (p.step (.evict now type cutoff)).cache.get? type id = none →
          (p.step (.evict now type cutoff)).cache.Without u i) := by
  intro p hr ha hu hi
  have hs : p.cache.Sound := sound_run steps
  have hiff (t' : Int) := p.cache.undoes_iff (i := i) t' ha hu
  refine ⟨hiff, fun hl => ⟨rule, hr, rfl, rfl, Rule.withdraws_of_added ha hu hi hl⟩,
    fun hw hc hone id now hg => ⟨?_, fun cutoff hn => ?_⟩⟩
  case refine_1 =>
    rintro e rfl rfl hp
    exact without_of_delete now hs hc hone hp hg fun t' => (hiff t').mpr hw
  case refine_2 =>
    unfold step at hn ⊢
    dsimp only at hn ⊢
    split at hn
    case h_2 => simp [hg] at hn
    case h_1 he =>
      exact without_of_removal (.evict type cutoff _ _ he) hs hc hone
        (.inr ⟨_, _, _, hg, hn, fun t' => (hiff t').mpr hw⟩)

section Leaving

open Roster

-- A student of one group, with a link behind that may be malformed.
def enrolled (behind : Link) : EntityEvent :=
  carrying student "1" [("group", [link group "a", behind])] 2

def enrolling (behind : Link) : List Step :=
  [.entity ⟨1, 1⟩ (sent group "a" [] 1), .entity ⟨2, 2⟩ (enrolled behind)]

theorem undoes_added_of_leaving :
    let p := (start {} types (.ofRules (rules .zeroOrOne)) ()).run (enrolling (link group "b"))
    let u := joins .add "1" ["a"] 2
    ∃ r, p.cache.get? student "1" = some r ∧
      (∃ d ∈ p.cache.removalUpdates student r 3, d.Undoes u "systemid/a") ∧
      (p.step (.entity ⟨3, 3⟩ { enrolled (link group "b") with payload := none })).cache.Without u
        "systemid/a" ∧
      (p.step (.evict ⟨3, 3⟩ student 3)).cache.Without u "systemid/a" := by
  intro p u
  have hadded : (p.cache.get? student "1").map ((membership .zeroOrOne).added
      (p.cache.sourceOf student) · 2) = some (.ok [u]) := by
    decide +kernel
  have hlinks : (p.cache.get? student "1").map
      (fun r => decide (∀ l ∈ r.links "group", l.identity?.isSome)) = some true := by
    decide +kernel
  have ⟨r, hr, hadded⟩ := Option.map_eq_some_iff.mp hadded
  rw [hr] at hlinks
  have hgone : ((p.step (.evict ⟨3, 3⟩ student 3)).cache.get? student "1").isNone := by
    decide +kernel
  have hone : p.cache.Single group "systemid/a" := Cache.single_of_ids "a" (by decide +kernel)
  have hrule : membership .zeroOrOne ∈ p.cache.rules.rulesOf student := by
    decide +kernel
  have ⟨hiff, hwithdraws, hwithout⟩ := undoes_added {} types (.ofRules (rules .zeroOrOne)) ()
    (enrolling (link group "b")) student (membership .zeroOrOne) r 2 [u] u "systemid/a" hrule hadded
    (.head _) (.head _)
  have hwithdraws := hwithdraws (.inr (of_decide_eq_true (Option.some.inj hlinks)))
  have ⟨hdelete, hevict⟩ := hwithout hwithdraws (by decide +kernel) hone "1" ⟨3, 3⟩ hr
  exact ⟨r, hr, (hiff 3).mpr hwithdraws, hdelete _ rfl rfl rfl,
    hevict 3 (Option.isNone_iff_eq_none.mp hgone)⟩

theorem not_undoes_of_malformed :
    ¬∀ (c : Cache) (type : Descriptor) (rule : Rule) (r : Resource) (t t' : Int)
      (us : List Update), rule ∈ c.rules.rulesOf type →
        rule.added (c.sourceOf type) r t = .ok us →
        ∀ u ∈ us, ∀ i ∈ u.targetIds, ∃ d ∈ c.removalUpdates type r t', d.Undoes u i := by
  intro h
  let p := (start {} types (.ofRules (rules .zeroOrOne)) ()).run (enrolling ⟨"b"⟩)
  have hadded : (p.cache.get? student "1").map ((membership .zeroOrOne).added
      (p.cache.sourceOf student) · 2) = some (.ok [joins .add "1" ["a"] 2]) := by
    decide +kernel
  have hremoval : (p.cache.get? student "1").map (p.cache.removalUpdates student · 3) =
      some [] := by
    decide +kernel
  have ⟨r, hr, hadded⟩ := Option.map_eq_some_iff.mp hadded
  have hremoval : p.cache.removalUpdates student r 3 = [] := by
    rwa [hr, Option.map_some, Option.some.injEq] at hremoval
  have ⟨d, hd, _⟩ := h p.cache student (membership .zeroOrOne) r 2 3 _ (by decide +kernel) hadded _
    (.head _) "systemid/a" (.head _)
  rw [hremoval] at hd
  cases hd

end Leaving

end Pipeline
end LinkedCache
