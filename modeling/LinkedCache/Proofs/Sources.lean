import LinkedCache.Proofs.Backing
import LinkedCache.Proofs.Roster

-- No link under a relation that rules write is stale: between any two steps of a pipeline, its
-- source is cached and links to the resource that the link is on. The links that wait and those
-- that are queued are as good, and while updates are still to be made, this is true up to these
-- updates.

namespace LinkedCache

open Text (lower)

namespace Pipeline

variable {Outbound : Type} {p p' : Pipeline Outbound} {c₀ c : Cache}
  {v : Descriptor → String → String} {as : List Arrival} {todo us : List Update} {u : Update}
  {type : Descriptor} {i relation key : String}

-- Whether a link is on a target, waits for it, or is queued to be put there.
def Keeps (c₀ : Cache) (v : Descriptor → String → String) (p : Pipeline Outbound)
    (type : Descriptor) (identity relation key : String) : Prop :=
  c₀.Holds v p.cache type identity relation key ∨
  ∃ n u, p.retry.Offers n u ∧ u.operation = .add ∧ u.Concerns type identity relation key

-- All links under relations that rules write are backed, except for those that the updates which
-- are still to be made will take away.
structure Clean (c₀ : Cache) (v : Descriptor → String → String) (as : List Arrival)
    (todo : List Update) (p : Pipeline Outbound) : Prop where
  kin : c₀.Kin p.cache
  sound : p.cache.Sound
  numbered : p.retry.Numbered
  fits : ∀ type id r, p.cache.get? type id = some r → c₀.Fits v as type id r
  offered : ∀ n u, p.retry.Offers n u → c₀.Proper u
  proper : ∀ u ∈ todo, c₀.Proper u
  added : ∀ u ∈ todo, u.operation = .add → ∀ type i relation key,
    u.Concerns type i relation key → c₀.Backed v p.cache type i relation key
  backed : ∀ type i relation key, c₀.contains type →
    relation ∈ c₀.rules.inverseRelationsOf type → p.Keeps c₀ v type i relation key →
    c₀.Backed v p.cache type i relation key ∨
      ∃ d ∈ todo, d.operation = .delete ∧ d.Concerns type i relation key

theorem Clean.fits_of_frame (hs : c₀.Setting v as) (h : Clean c₀ v as todo p)
    (hf : c₀.Frame p.cache c) (id : String) (r : Resource) (hg : c.get? type id = some r) :
    c₀.Fits v as type id r := by
  have ⟨r', hg', ha, hl⟩ := hf.of_get? hg
  exact (h.fits _ _ _ hg').of_same ha hl hs.self_not_mem

-- Nothing is put anywhere, and no source is changed.
theorem Clean.of_frame (hs : c₀.Setting v as) (h : Clean c₀ v as todo p)
    (hf : c₀.Frame p.cache p'.cache) (hk : p.cache.Kin p'.cache) (hm : p'.cache.Sound)
    (hq : p'.retry.Numbered) (ho : ∀ n u, p'.retry.Offers n u → p.retry.Offers n u)
    (hb : ∀ type i relation key, c₀.contains type →
      p'.Keeps c₀ v type i relation key → p.Keeps c₀ v type i relation key) :
    Clean c₀ v as todo p' where
  kin := h.kin.trans hk
  sound := hm
  numbered := hq
  fits _ := h.fits_of_frame hs hf
  offered n u hn := h.offered n u (ho n u hn)
  proper := h.proper
  added u hu ha _ _ _ _ hc := (h.added u hu ha _ _ _ _ hc).frame hs hf
  backed _ _ _ _ ht hr hl :=
    (h.backed _ _ _ _ ht hr (hb _ _ _ _ ht hl)).imp_left (Cache.Backed.frame hs hf)

theorem Clean.loses (hs : c₀.Setting v as) (h : Clean c₀ v as [] p)
    (hc : c₀.Loses p.cache us c) : Clean c₀ v as us (p.withCache c) where
  kin := h.kin.trans hc.kin
  sound := hc.sound
  numbered := h.numbered
  fits type id r hg := h.fits type id r (hc.kept _ _ _ hg)
  offered := h.offered
  proper u hu := by
    have ⟨type, id, r, t, hg, hu⟩ := hc.only u hu
    exact ((h.fits _ _ _ hg).proper_of_mem_removalUpdates hs hu).1
  added u hu ha := by
    have ⟨type, id, r, t, hg, hu⟩ := hc.only u hu
    simp [((h.fits _ _ _ hg).proper_of_mem_removalUpdates hs hu).2] at ha
  backed type i relation key ht hr hl := by
    have hl : p.Keeps c₀ v type i relation key := by
      obtain (⟨id, r, hg, hl⟩ | hb) | ho := hl
      · exact .inl (.inl ⟨id, r, hc.kept _ _ _ hg, hl⟩)
      · exact .inl (.inr (hc.buffer ▸ hb))
      · exact .inr ho
    have hb := (h.backed _ _ _ _ ht hr hl).resolve_right (by simp)
    obtain ⟨τ, rule, hrule, rfl, rfl, id, r, hg, rfl, hm⟩ := hb
    obtain hg' | ⟨t, hu⟩ := hc.lost _ _ _ hg
    · exact .inl ⟨τ, rule, hrule, rfl, rfl, id, r, hg', rfl, hm⟩
    · have ⟨d, hd, hc⟩ := (h.fits _ _ _ hg).exists_removalUpdates (t := t) hs hrule hm
      exact .inr ⟨d, hu hd, hc⟩

theorem Clean.exists_merged {a : Arrival} {t : Int} (hs : c₀.Setting v as)
    (h : Clean c₀ v as [] p) (ha : a ∈ as) (ht : c₀.contains a.type)
    (hw : p.cache.Writes a.type a.id a.resource t us c) :
    ∃ merged, c₀.Fits v as a.type a.id merged ∧
      (∀ type id, c.get? type id =
        if type = a.type ∧ id = a.id then some merged else p.cache.get? type id) ∧
      us = contributions (c₀.rules.rulesOf a.type) fun rule =>
        rule.derived (c₀.sourceOf a.type) (p.cache.get? a.type a.id) merged t := by
  have ⟨merged, hm, hg, hu⟩ := hw.merges
  rw [h.kin.rules, h.kin.sourceOf] at hu
  exact ⟨merged, Cache.Plain.fits hs ha ht hm.attributes (h.kin.rules ▸ hm.others), hg, hu⟩

theorem Clean.writes {a : Arrival} {t : Int} (hs : c₀.Setting v as) (h : Clean c₀ v as [] p)
    (ha : a ∈ as) (ht : c₀.contains a.type)
    (hw : p.cache.Writes a.type a.id a.resource t us c) : Clean c₀ v as us (p.withCache c) := by
  have ⟨merged, hf, hg, hu⟩ := h.exists_merged hs ha ht hw
  have htell := hu ▸ Cache.tells_derived (t := t) hs (fun o ho => h.fits _ _ o ho) hf
  have hnew : c.get? a.type a.id = some merged := by rw [hg, if_pos ⟨rfl, rfl⟩]
  refine ⟨h.kin.trans hw.kin, hw.sound, h.numbered, fun type id r hr => ?_, h.offered,
    htell.proper, fun u hu ho type i relation key hc => ?_,
    fun type i relation key htype hr hl => ?_⟩
  case refine_1 =>
    have hr := (hg type id).symm.trans hr
    split at hr
    case isFalse => exact h.fits _ _ _ hr
    case isTrue hi => exact hi.1 ▸ hi.2 ▸ Option.some.inj hr ▸ hf
  case refine_2 =>
    have ⟨rule, hrule, _, hl, hc'⟩ := htell.added u hu ho
    obtain ⟨rfl, rfl, rfl, rfl⟩ := hc'.unique hc
    exact ⟨_, rule, hrule, rfl, rfl, a.id, merged, hnew, rfl, hl⟩
  case refine_3 =>
    have hl : p.Keeps c₀ v type i relation key :=
      hl.imp_left (Cache.Holds.of_writes hs h.kin ha ht hw hr)
    have hb := (h.backed _ _ _ _ htype hr hl).resolve_right (by simp)
    obtain ⟨τ, rule, hrule, rfl, rfl, id, r, hget, rfl, hreach⟩ := hb
    by_cases hi : τ = a.type ∧ id = a.id
    case neg =>
      refine .inl ⟨τ, rule, hrule, rfl, rfl, id, r, ?_, rfl, hreach⟩
      exact (hg τ id).trans (by rwa [if_neg hi])
    case pos =>
      obtain ⟨rfl, rfl⟩ := hi
      by_cases hn : merged.Reaches rule.relation i
      case pos => exact .inl ⟨_, rule, hrule, rfl, rfl, a.id, merged, hnew, rfl, hn⟩
      case neg => exact .inr (htell.deleted rule hrule r i hget hreach hn)

section Dispatch

variable [Publisher Outbound]

theorem Keeps.dispatch {now : Moment} (hs : c₀.Setting v as) (hp : Clean c₀ v as todo p)
    (hu : c₀.Proper u) (hc : c₀.contains type)
    (h : (p.dispatch now u).2.Keeps c₀ v type i relation key) :
    u.Effect (p.Keeps c₀ v type i relation key) (u.Concerns type i relation key) := by
  obtain h | ⟨n, u', ho, ha, hu'⟩ := h
  case inl =>
    rw [cache_dispatch] at h
    exact (h.apply hs hp.kin hp.sound hp.fits hu hc).imp .inl
  case inr =>
    obtain ⟨ho, hk⟩ | rfl := p.offers_of_dispatch now hp.numbered ho
    · exact .of_before (.inr ⟨n, u', ho, ha, hu'⟩) fun hu => hk (hu'.supersedeKey_eq hu)
    · unfold Update.Effect
      rw [ha]
      exact .inr hu'

theorem Clean.dispatch (hs : c₀.Setting v as) (h : Clean c₀ v as (u :: todo) p) (now : Moment) :
    Clean c₀ v as todo (p.dispatch now u).2 := by
  have hu := h.proper u (.head _)
  have ⟨hf, hk, hm⟩ := Cache.frame_apply now.wall h.sound hu
  rw [← cache_dispatch] at hf hk hm
  refine ⟨h.kin.trans hk, hm, (later_of_move h.numbered (.dispatch now u)).numbered,
    fun _ => h.fits_of_frame hs hf, fun n u' ho => ?_, fun d hd => h.proper d (.tail _ hd),
    fun d hd ha _ _ _ _ hc => (h.added d (.tail _ hd) ha _ _ _ _ hc).frame hs hf, ?_⟩
  case refine_1 =>
    obtain ho | rfl := p.offers_of_dispatch now h.numbered ho
    · exact h.offered n u' ho.1
    · exact hu
  case refine_2 =>
    intro type i relation key ht hr hl
    have he := hl.dispatch hs h hu ht
    unfold Update.Effect at he
    have hold (hl : p.Keeps c₀ v type i relation key)
        (hn : ¬(u.operation = .delete ∧ u.Concerns type i relation key)) :
        c₀.Backed v (p.dispatch now u).2.cache type i relation key ∨
          ∃ d ∈ todo, d.operation = .delete ∧ d.Concerns type i relation key := by
      obtain hb | ⟨d, hd, hc⟩ := h.backed _ _ _ _ ht hr hl
      · exact .inl (hb.frame hs hf)
      · obtain rfl | hd := List.mem_cons.mp hd
        · exact absurd hc hn
        · exact .inr ⟨d, hd, hc⟩
    split at he
    case h_1 ha =>
      obtain hl | hc := he
      · exact hold hl (by simp [ha])
      · exact .inl ((h.added u (.head _) ha _ _ _ _ hc).frame hs hf)
    case h_2 => exact hold he.1 fun hc => he.2 hc.2

theorem Clean.dispatchAll (hs : c₀.Setting v as) (h : Clean c₀ v as us p) (now : Moment) :
    Clean c₀ v as [] (p.dispatchAll now us) :=
  p.dispatchAll_induct now (fun _ _ _ h => h.dispatch hs now) h

-- A pass applies updates that were offered, to caches that are like the one that it starts with.
theorem Clean.pass_induct {P : Cache → Prop} (hs : c₀.Setting v as) (h : Clean c₀ v as todo p)
    (now : Moment) (hp : P p.cache)
    (happly : ∀ n u c, p.retry.Offers n u → c₀.Proper u → c₀.Kin c → c.Sound →
      (∀ type id r, c.get? type id = some r → c₀.Fits v as type id r) → P c →
        P (c.apply u now.wall).2) :
    (c₀.Frame p.cache (p.pass now).2.cache ∧ p.cache.Kin (p.pass now).2.cache ∧
      (p.pass now).2.cache.Sound) ∧ P (p.pass now).2.cache := by
  refine cache_pass_induct p now
    (P := fun c => (c₀.Frame p.cache c ∧ p.cache.Kin c ∧ c.Sound) ∧ P c)
    ⟨⟨.refl _, .refl _, h.sound⟩, hp⟩ ?_
  intro item hd hlive c ⟨⟨hf, hk, hm⟩, hc⟩
  have ho := h.numbered.offers (Retry.Queue.mem_due_iff.mp hd).1 hlive
  have hu := h.offered _ _ ho
  have ⟨hf', hk', hm'⟩ := Cache.frame_apply now.wall hm hu
  exact ⟨⟨hf.trans hf', hk.trans hk', hm'⟩,
    happly _ _ c ho hu (h.kin.trans hk) hm (fun _ => h.fits_of_frame hs hf) hc⟩

-- What a pass puts somewhere was queued before.
theorem Clean.pass (hs : c₀.Setting v as) (h : Clean c₀ v as todo p) (now : Moment) :
    Clean c₀ v as todo (p.pass now).2 := by
  have hw := p.within_pass now h.numbered
  have ⟨⟨hf, hk, hm⟩, hl⟩ := h.pass_induct hs now
    (P := fun c => ∀ type i relation key, c₀.contains type →
      c₀.Holds v c type i relation key → p.Keeps c₀ v type i relation key)
    (fun _ _ _ _ _ => .inl) ?_
  · refine h.of_frame hs hf hk hm hw.numbered hw.offers fun _ _ _ _ ht hk => ?_
    obtain hh | ⟨n, u, ho, hu⟩ := hk
    · exact hl _ _ _ _ ht hh
    · exact .inr ⟨n, u, hw.offers n u ho, hu⟩
  · intro n u c ho hu hk hm hf hl type i relation key ht hh
    have he := hh.apply hs hk hm hf hu ht
    unfold Update.Effect at he
    split at he
    case h_1 ha =>
      obtain hh | hc := he
      · exact hl _ _ _ _ ht hh
      · exact .inr ⟨n, u, ho, ha, hc⟩
    case h_2 => exact hl _ _ _ _ ht he.1

end Dispatch

theorem Clean.cleanUp (hs : c₀.Setting v as) (h : Clean c₀ v as todo p) (now : Moment) :
    Clean c₀ v as todo (p.cleanUp now) := by
  refine h.of_frame hs (.refl p.cache) ⟨rfl, rfl⟩ h.sound h.numbered (fun _ _ => id) ?_
  rintro type i relation key - ((⟨id, r, hg, hl⟩ | hb) | ho)
  · exact .inl (.inl ⟨id, r, hg, hl⟩)
  · exact .inl (.inr (Buffer.awaits_of_cleanUp hb))
  · exact .inr ho

theorem Clean.track (h : Clean c₀ v as todo p) (sync : Sync.Tracker) :
    Clean c₀ v as todo { p with sync } :=
  ⟨h.kin, h.sound, h.numbered, h.fits, h.offered, h.proper, h.added, h.backed⟩

theorem Clean.write {e : EntityEvent} (hs : c₀.Setting v as) (h : Clean c₀ v as [] p)
    (ha : ∀ a, e.arrival? = some a → a ∈ as) (hc : p.cache.contains e.type)
    (hw : p.write e = .ok (us, c)) : Clean c₀ v as us (p.withCache c) := by
  obtain ⟨_, hr⟩ | ⟨a, he, hr⟩ := remove_or_reconcile_of_write hw
  case inl => exact h.loses hs ((Cache.removes_remove h.sound hr).loses h.kin)
  case inr =>
    have ht := contains_of_arrival h.kin he hc
    exact h.writes hs (ha a he) ht (Cache.writes_reconcile h.sound hr)

theorem clean_start {config : Config} {types : List (Descriptor × List String)} {rules : Registry}
    {outbound : Outbound} :
    Clean (start config types rules outbound).cache v as []
      (start config types rules outbound) where
  kin := .refl _
  sound := sound_start
  numbered := numbered_start
  fits type id r h := by simp [get?_start] at h
  offered n u h := absurd h (not_offers_start n u)
  proper := by simp
  added := by simp
  backed type i relation key _ _ := by
    rintro ((⟨id, r, h, _⟩ | h) | ⟨n, u, h, _⟩)
    · simp [get?_start] at h
    · exact absurd h (not_awaits_start _ _)
    · exact absurd h (not_offers_start n u)

section Run

variable [Publisher Outbound]

theorem Clean.evict {now : Moment} {cutoff : Int} {n : Nat} (hs : c₀.Setting v as)
    (h : Clean c₀ v as [] p) (he : p.evict now type cutoff = .ok (n, p')) :
    Clean c₀ v as [] p' := by
  obtain ⟨es, c, hev, rfl⟩ := p.evicts_of_evict now h.kin h.sound he
  exact (h.loses hs (hev.loses cutoff)).dispatchAll hs now

theorem Clean.advanceRun (hs : c₀.Setting v as) (h : Clean c₀ v as [] p) (now : Moment)
    (e : EntityEvent) : Clean c₀ v as [] (p.advanceRun now e).2.2 := by
  unfold Pipeline.advanceRun
  split
  case h_1 => exact h
  case h_2 m _ =>
    have h := h.track (p.sync.record e.type m e.timestamp).2
    dsimp only
    split
    case h_1 => exact h
    case h_2 =>
      split
      case h_1 he => exact h.evict hs he
      case h_2 => exact h

theorem Clean.processEntity {e : EntityEvent} (hs : c₀.Setting v as) (h : Clean c₀ v as [] p)
    (ha : ∀ a, e.arrival? = some a → a ∈ as) (now : Moment) :
    Clean c₀ v as [] (p.processEntity now e).2 := by
  unfold Pipeline.processEntity
  split
  case isFalse => exact h
  case isTrue hc =>
    split
    case h_2 => exact h.advanceRun hs now e
    case h_1 hw => exact ((h.write hs ha hc hw).dispatchAll hs now).advanceRun hs now e

-- Whether a step makes no updates but those that follow from changes of resources.
def Step.IsInner : Step → Prop
  | .relation .. | .dispatch .. => False
  | .entity .. | .evict .. | .cleanUp .. | .pass .. => True

theorem Clean.step {s : Step} (hs : c₀.Setting v as) (h : Clean c₀ v as [] p) (hi : s.IsInner)
    (ha : ∀ a ∈ arrivals [s], a ∈ as) : Clean c₀ v as [] (p.step s) := by
  cases s
  case entity now e =>
    refine h.processEntity hs (fun a he => ha a ?_) now
    simp [arrivals, he]
  case relation => exact hi.elim
  case dispatch => exact hi.elim
  case cleanUp now => exact h.cleanUp hs now
  case pass now => exact h.pass hs now
  case evict now type cutoff =>
    unfold Pipeline.step
    dsimp only
    split
    case h_1 he => exact h.evict hs he
    case h_2 => exact h

theorem Clean.run {steps : List Step} (hs : c₀.Setting v as) (h : Clean c₀ v as [] p)
    (hi : ∀ s ∈ steps, s.IsInner) (ha : ∀ a ∈ arrivals steps, a ∈ as) :
    Clean c₀ v as [] (p.run steps) := by
  induction steps generalizing p
  case nil => exact h
  case cons s steps hr =>
    rw [arrivals_cons] at ha
    refine hr ?_ (fun s hs => hi s (.tail _ hs)) fun a h => ha a (List.mem_append_right _ h)
    exact h.step hs (hi s (.head _)) fun a h => ha a (List.mem_append_left _ h)

-- A link that a rule puts on a resource is the back link of a source that is cached and links to
-- the resource, and so none is stale.
theorem hasSource_of_mem_links (config : Config) (types : List (Descriptor × List String))
    (given : List (Descriptor × List Rule)) (outbound : Outbound) (steps : List Step)
    (v : Descriptor → String → String)
    (hsimple : (start config types (.ofRules given) outbound).cache.Simple)
    (hplain : ∀ a ∈ arrivals steps, (start config types (.ofRules given) outbound).cache.Plain v a)
    (hunique : ∀ a ∈ arrivals steps, ∀ b ∈ arrivals steps, a.type = b.type →
      lower (v a.type a.id) = lower (v b.type b.id) → a.id = b.id)
    (hsteps : ∀ s ∈ steps, s.IsInner) (type : Descriptor) (rule : Rule) (id : String)
    (r : Resource) (l : Link) (hrule : rule ∈ (Registry.ofRules given).rulesOf type)
    (hget : ((start config types (.ofRules given) outbound).run steps).cache.get? rule.target id =
      some r)
    (hlink : l ∈ r.links rule.inverse) :
    ((start config types (.ofRules given) outbound).run steps).cache.HasSource type rule r l := by
  have hs : (start config types (.ofRules given) outbound).cache.Setting v (arrivals steps) :=
    ⟨sound_start, Registry.closed_ofRules given, hsimple, hplain, hunique⟩
  have h := clean_start.run hs hsteps fun _ ha => ha
  have hr := h.fits _ _ _ hget
  have hb := h.backed rule.target _ rule.inverse (Update.linkKey l) hr.contained
    (hs.closed.inverse type rule hrule) (.inl (.inl ⟨id, r, hget, rfl, l, hlink, rfl⟩))
  obtain ⟨τ, rule', hrule', ht, hi, id', s, hget', hkey, l', hm, hl'⟩ :=
    hb.resolve_right (by simp)
  obtain ⟨rfl, rfl⟩ := hs.simple.distinct τ type rule' hrule' rule hrule ht (by rw [hi])
  have hs' := h.fits _ _ _ hget'
  have ⟨back, hback, hk⟩ := hs'.backLink hs
  rw [← h.kin.fieldsOf] at hback
  refine ⟨id', s, hget', ⟨back, hback, Link.sameTarget_iff.mpr (hk.trans hkey)⟩, l', hm, _, ?_,
    Link.identity?_eq_of_linkKey hl' (hr.identity hs)⟩
  rw [h.kin.fieldsOf, hr.identities hs]
  exact List.mem_singleton.mpr rfl

end Run

section Moving

open Roster (student group membership sent)

theorem simple_start_roster :
    (start {} Roster.types (.ofRules (Roster.rules .zeroOrOne)) ()).cache.Simple where
  single type rule h := by
    obtain ⟨rfl, rfl⟩ := Roster.mem_rulesOf.mp h
    rfl
  distinct type type' rule h rule' h' _ _ := by
    obtain ⟨rfl, rfl⟩ := Roster.mem_rulesOf.mp h
    obtain ⟨rfl, rfl⟩ := Roster.mem_rulesOf.mp h'
    exact ⟨rfl, rfl⟩
  unmixed type rule h := by
    obtain ⟨rfl, rfl⟩ := Roster.mem_rulesOf.mp h
    decide
  unnamed type rule h := by
    obtain ⟨rfl, rfl⟩ := Roster.mem_rulesOf.mp h
    decide
  field type h := by
    have hf : ∀ tf ∈ Roster.types, (Store.empty tf.1 tf.2).fields = ["systemid"] := by decide
    have ⟨s, hs⟩ := Option.isSome_iff_exists.mp h
    have ⟨tf, hm, he⟩ := empty_of_mem_start (List.mem_of_find?_eq_some hs)
    refine ⟨"systemid", ?_, by decide, by decide⟩
    rw [Cache.fieldsOf_of_store? hs, he, hf tf hm]

-- A student moves from one group to another, and the first group is dropped.
def moving : List Step := [
  .entity ⟨1, 1⟩ (sent student "1" ["a"] 1),
  .entity ⟨2, 2⟩ (sent group "a" [] 2),
  .entity ⟨3, 3⟩ (sent group "b" [] 3),
  .entity ⟨4, 4⟩ (sent student "1" ["b"] 4),
  .pass ⟨5, 9000⟩,
  .evict ⟨6, 9001⟩ group 3,
  .cleanUp ⟨7, 9002⟩]

theorem hasSource_group_of_moving :
    ∃ r, ((start {} Roster.types (.ofRules (Roster.rules .zeroOrOne)) ()).run
        moving).cache.get? group "b" = some r ∧
      Roster.link student "1" ∈ r.links "member" ∧
      ((start {} Roster.types (.ofRules (Roster.rules .zeroOrOne)) ()).run
        moving).cache.HasSource student (membership .zeroOrOne) r (Roster.link student "1") := by
  have hvalue : ∀ a ∈ arrivals moving, ∀ field ∈ (start {} Roster.types
      (.ofRules (Roster.rules .zeroOrOne)) ()).cache.fieldsOf a.type,
      a.resource.fieldValue? field = some a.id := by
    decide +kernel
  have hsegment : ∀ a ∈ arrivals moving, a.id ≠ "" ∧ '/' ∉ a.id.toList := by
    decide +kernel
  have hlinked : ∀ a ∈ arrivals moving, ∀ m ∈ a.resource.relations, ∀ l ∈ m.2,
      l.identity?.isSome := by
    decide +kernel
  have hunnamed : ∀ a ∈ arrivals moving, a.resource.links Resource.selfRelation = [] := by
    decide +kernel
  have hown : ∀ a ∈ arrivals moving, ∀ relation ∈ (start {} Roster.types
      (.ofRules (Roster.rules .zeroOrOne)) ()).cache.rules.inverseRelationsOf a.type,
      a.resource.links relation = [] := by
    decide +kernel
  have hunique : ∀ a ∈ arrivals moving, ∀ b ∈ arrivals moving, a.type = b.type →
      lower a.id = lower b.id → a.id = b.id := by
    decide +kernel
  have hmember : (((start {} Roster.types (.ofRules (Roster.rules .zeroOrOne)) ()).run
      moving).cache.get? group "b").map (·.links "member") = some [Roster.link student "1"] := by
    decide +kernel
  have ⟨r, hget, hlinks⟩ := Option.map_eq_some_iff.mp hmember
  have hlink : Roster.link student "1" ∈ r.links "member" := hlinks ▸ .head _
  refine ⟨r, hget, hlink, hasSource_of_mem_links {} Roster.types (Roster.rules .zeroOrOne) ()
    moving (fun _ id => id) simple_start_roster (fun a ha => ?_) hunique
    (by simp [moving, Step.IsInner]) student (membership .zeroOrOne) "b" r
    (Roster.link student "1") (Roster.mem_rulesOf.mpr ⟨rfl, rfl⟩) hget hlink⟩
  exact {
    value := hvalue a ha
    segment := ⟨(hsegment a ha).1, (hsegment a ha).2⟩
    linked := fun relation l hl =>
      have ⟨m, hm, _, hl⟩ := Resource.exists_mem_of_mem_links hl
      hlinked a ha m hm l hl
    unnamed := hunnamed a ha
    own := hown a ha }

end Moving

end Pipeline
end LinkedCache
