import LinkedCache.Proofs.FullRun
import LinkedCache.Proofs.Sources
import LinkedCache.Proofs.Ties

-- The other end of a link. A source that links to a target is linked back, or its link waits for
-- the target, as long as the target is not taken out after the source was written. What a target
-- holds goes with it, and only a write of the source brings it back.

namespace LinkedCache

open Text (lower)

namespace Pipeline

variable {Outbound : Type} {p p' : Pipeline Outbound} {c₀ c : Cache}
  {v : Descriptor → String → String} {as : List Arrival} {t : c₀.Tie v as}
  {todo us : List Update} {u : Update} {a : Arrival} {e : EntityEvent} {now : Moment}
  {type : Descriptor}

-- If the source points to the target, the link back is made already, or still to be made, and
-- nothing that is queued will take it away.
structure Tied (t : c₀.Tie v as) (todo : List Update) (p : Pipeline Outbound) : Prop where
  clean : Clean c₀ v as todo p
  added : t.Points p.cache → ∀ u ∈ todo, t.IsHitBy u → u.operation = .add
  linked : t.Points p.cache → (∃ u ∈ todo, t.IsHitBy u) ∨
    (t.IsMade p.cache ∧ ∀ n u, p.retry.Offers n u → t.IsHitBy u → u.operation = .add)

theorem Tied.made (h : Tied t [] p) (hp : t.Points p.cache) :
    t.IsMade p.cache ∧ ∀ n u, p.retry.Offers n u → t.IsHitBy u → u.operation = .add :=
  (h.linked hp).resolve_left (by simp)

theorem Tied.loses (hs : c₀.Setting v as) (h : Tied t [] p) (hc : c₀.Drops p.cache us c)
    (hstays : (p.cache.get? t.rule.target t.target).isSome →
      (c.get? t.rule.target t.target).isSome) : Tied t us (p.withCache c) := by
  have hpoints (hp : t.Points c) : t.Points p.cache := by
    have ⟨s, l, hg, hl⟩ := hp
    exact ⟨s, l, hc.kept _ _ _ hg, hl⟩
  refine ⟨h.clean.loses hs hc.toLoses, fun hp u hu hi => ?_, fun hp => .inr ?_⟩
  case refine_1 =>
    have ⟨type, id, r, t', hg, hn, hu⟩ := hc.gone u hu
    have hf := h.clean.fits _ _ _ hg
    have ⟨rule, hr, _, hu⟩ := hf.concerns_of_mem_removalUpdates hs hu
    obtain ⟨rfl, rfl, -⟩ := hi.eq hs hr hf hu
    have ⟨s, _, hg', _⟩ := hp
    exact nomatch hn.symm.trans hg'
  case refine_2 =>
    have ⟨hl, ho⟩ := h.made (hpoints hp)
    refine ⟨?_, ho⟩
    obtain ⟨r, hg, hr⟩ | hb := hl.cases hs h.clean.fits
    case inr => exact .inr (hc.buffer ▸ hb)
    case inl =>
      have ⟨r', hg'⟩ := Option.isSome_iff_exists.mp (hstays (Option.isSome_of_eq_some hg))
      obtain rfl := Option.some.inj (hg.symm.trans (hc.kept _ _ _ hg'))
      exact .inl ⟨t.target, r, hg', rfl, hr⟩

-- A write of the source makes the link back, whatever was before.
theorem Tied.writes {timestamp : Int} (hs : c₀.Setting v as) (hp : Clean c₀ v as [] p)
    (h : a.type = t.type ∧ a.id = t.source ∨ Tied t [] p) (ha : a ∈ as)
    (ht : c₀.contains a.type)
    (hw : p.cache.Writes a.type a.id a.resource timestamp us c) : Tied t us (p.withCache c) := by
  have ⟨merged, hf, hg, hu⟩ := hp.exists_merged hs ha ht hw
  have hold (o : Resource) (ho : p.cache.get? a.type a.id = some o) := hp.fits _ _ o ho
  refine ⟨hp.writes hs ha ht hw, fun hpoints u hmem hi => ?_, fun hpoints => ?_⟩
  case refine_1 =>
    have ⟨rule, hr, i, hconcerns, hop⟩ := Cache.concerns_of_mem_derived hs hold hf (hu ▸ hmem)
    obtain ⟨htype, hid, rfl, rfl⟩ := hi.eq hs hr hf hconcerns
    refine hop.resolve_right fun hn => hn ?_
    have ⟨s, l, hget, hl, hk⟩ := hpoints
    have hget := (hg _ _).symm.trans hget
    rw [if_pos ⟨htype.symm, hid.symm⟩] at hget
    obtain rfl := Option.some.inj hget
    exact ⟨l, List.mem_of_mem_head? hl, hk⟩
  case refine_2 =>
    have ⟨s, l, hget, hl, hk⟩ := hpoints
    have hget := (hg _ _).symm.trans hget
    by_cases hi : t.type = a.type ∧ t.source = a.id
    case pos =>
      rw [if_pos hi] at hget
      obtain rfl := Option.some.inj hget
      have hr := hi.1 ▸ t.listed
      have ⟨u, hmem, hconcerns⟩ :=
        Cache.exists_derived_of_head? (t := timestamp) hs hold hf hr hl
      refine .inl ⟨u, hu ▸ hmem, ?_⟩
      unfold Cache.Tie.IsHitBy
      rw [hi.1, hi.2, ← hk]
      exact hconcerns
    case neg =>
      rw [if_neg hi] at hget
      have h := h.resolve_left fun hn => hi ⟨hn.1.symm, hn.2.symm⟩
      have ⟨hback, ho⟩ := h.made ⟨s, l, hget, hl, hk⟩
      have hr := hs.closed.inverse _ _ t.listed
      exact .inr ⟨hback.writes hs hp.kin ha ht hw hr, ho⟩

-- Whether an event is a write of the source.
def Rewrites (t : c₀.Tie v as) (e : EntityEvent) : Prop :=
  ∃ a, e.arrival? = some a ∧ a.type = t.type ∧ a.id = t.source

theorem Tied.write (hs : c₀.Setting v as) (hp : Clean c₀ v as [] p)
    (h : Rewrites t e ∨ Tied t [] p) (ha : ∀ a, e.arrival? = some a → a ∈ as)
    (hc : p.cache.contains e.type)
    (hstays : (p.cache.get? t.rule.target t.target).isSome →
      (c.get? t.rule.target t.target).isSome)
    (hw : p.write e = .ok (us, c)) : Tied t us (p.withCache c) := by
  obtain ⟨hpay, hr⟩ | ⟨a, he, hr⟩ := remove_or_reconcile_of_write hw
  case inl =>
    have h := h.resolve_left (by simp [Rewrites, EntityEvent.arrival?, hpay])
    exact h.loses hs ((Cache.removes_remove hp.sound hr).drops hp.kin) hstays
  case inr =>
    have ht := contains_of_arrival hp.kin he hc
    refine .writes hs hp (h.imp_left ?_) (ha a he) ht (Cache.writes_reconcile hp.sound hr)
    rintro ⟨a', he', hi⟩
    exact Option.some.inj (he.symm.trans he') ▸ hi

theorem Tied.track (h : Tied t [] p) (sync : Sync.Tracker) : Tied t [] { p with sync } :=
  ⟨h.clean.track sync, h.added, h.linked⟩

section Dispatch

variable [Publisher Outbound]

theorem Tied.dispatch (hs : c₀.Setting v as) (h : Tied t (u :: todo) p) (now : Moment) :
    Tied t todo (p.dispatch now u).2 := by
  have hu := h.clean.proper u (.head _)
  have ⟨hf, _⟩ := Cache.frame_apply now.wall h.clean.sound hu
  rw [← cache_dispatch] at hf
  refine ⟨h.clean.dispatch hs now, fun hp u' hu' => ?_, fun hp => ?_⟩
  case refine_1 => exact h.added (hp.frame hs hf) u' (.tail _ hu')
  case refine_2 =>
    have hp := hp.frame hs hf
    have hadd (hi : t.IsHitBy u) : u.operation = .add := h.added hp u (.head _) hi
    have hdone (he : u.Effect (t.IsMade p.cache) (t.IsHitBy u)) :
        t.IsMade (p.dispatch now u).2.cache := by
      rw [cache_dispatch]
      exact Cache.Tie.IsMade.apply hs h.clean.kin h.clean.sound h.clean.fits hu he
    have hoffers {n : Nat} {u' : Update} (ho : (p.dispatch now u).2.retry.Offers n u') :=
      p.offers_of_dispatch now h.clean.numbered ho
    by_cases hi : t.IsHitBy u
    case pos =>
      refine .inr ⟨hdone (by rw [Update.Effect, hadd hi]; exact .inr hi), fun n u' ho hi' => ?_⟩
      -- What was queued for the link back before is obsolete.
      obtain ⟨_, hk⟩ | rfl := hoffers ho
      · exact absurd (hi'.supersedeKey_eq hi) hk
      · exact hadd hi
    case neg =>
      obtain ⟨u', hm, hi'⟩ | ⟨hback, ho⟩ := h.linked hp
      case inl =>
        obtain rfl | hm := List.mem_cons.mp hm
        · exact absurd hi' hi
        · exact .inl ⟨u', hm, hi'⟩
      case inr =>
        refine .inr ⟨hdone (.of_before hback hi), fun n u' ho' hi' => ?_⟩
        obtain ⟨ho', _⟩ | rfl := hoffers ho'
        · exact ho n u' ho' hi'
        · exact absurd hi' hi

theorem Tied.dispatchAll (hs : c₀.Setting v as) (h : Tied t us p) (now : Moment) :
    Tied t [] (p.dispatchAll now us) :=
  p.dispatchAll_induct now (fun _ _ _ h => h.dispatch hs now) h

theorem Tied.pass (hs : c₀.Setting v as) (h : Tied t [] p) (now : Moment) :
    Tied t [] (p.pass now).2 := by
  have hw := p.within_pass now h.clean.numbered
  have ⟨⟨hf, _⟩, hmade⟩ := h.clean.pass_induct hs now
    (P := fun c => t.Points p.cache → t.IsMade c) (fun hp => (h.made hp).1) ?_
  · refine ⟨h.clean.pass hs now, by simp, fun hp => .inr ?_⟩
    have hp := hp.frame hs hf
    exact ⟨hmade hp, fun n u ho => (h.made hp).2 n u (hw.offers n u ho)⟩
  · intro n u c ho hu hk hm hf hmade hp
    refine Cache.Tie.IsMade.apply hs hk hm hf hu ?_
    by_cases hi : t.IsHitBy u
    case neg => exact .of_before (hmade hp) hi
    case pos =>
      rw [Update.Effect, (h.made hp).2 n u ho hi]
      exact .inr hi

end Dispatch

section Stays

variable [Publisher Outbound] {id : String}

-- Only what is older than an event is evicted by the end of its run, and then entries grow.
theorem exists_advanceRun (now : Moment) (hs : p.cache.Sound) (hc : p.cache.contains e.type) :
    ∃ c : Cache, (∀ type id, c.Grows (p.advanceRun now e).2.2.cache type id) ∧
      ∀ type id, ((c.cached? type id).isSome → (p.cache.cached? type id).isSome) ∧
        ∀ entry, p.cache.cached? type id = some entry → e.timestamp ≤ entry.timestamp →
          c.cached? type id = some entry := by
  obtain ⟨sync, he⟩ | ⟨sync, cutoff, n, hev, hle⟩ := p.advanceRun_cases now hc
  case inl =>
    rw [he]
    exact ⟨p.cache, .refl _, fun _ _ => ⟨id, fun _ h _ => h⟩⟩
  case inr =>
    have ⟨_, c, hcached, hgrows⟩ := grows_evict { p with sync } now hs hev
    refine ⟨c, hgrows, fun type id => ?_⟩
    rw [hcached]
    split
    case isFalse => exact ⟨fun h => h, fun _ h _ => h⟩
    case isTrue ht =>
      obtain rfl := ht
      refine ⟨fun h => ?_, fun entry hentry ht => ?_⟩
      · have ⟨_, hentry⟩ := Option.isSome_iff_exists.mp h
        exact Option.isSome_of_eq_some (Option.filter_eq_some_iff.mp hentry).1
      · refine Option.filter_eq_some_iff.mpr ⟨hentry, ?_⟩
        simpa using Int.le_trans hle ht

-- What an event brings is not older than the event.
theorem timestamp_le_of_deliver {entry : Entry} (now : Moment) (hs : p.cache.Sound)
    (hc : p.cache.contains e.type) (hn : p.cache.cached? type id = none)
    (h : (p.deliver now e).cache.cached? type id = some entry) : e.timestamp ≤ entry.timestamp := by
  by_cases hi : type = e.type ∧ id = e.id
  case neg =>
    have hg : p.cache.Grows (p.deliver now e).cache type id := grows_deliver now hi
    unfold Cache.Grows at hg
    rw [hn, h] at hg
    exact nomatch hg
  case pos =>
    obtain ⟨rfl, rfl⟩ := hi
    cases ha : e.arrival?
    case some a =>
      have ⟨entry', hentry, _, ht⟩ := exists_cached_deliver now hc ha
      obtain rfl := Option.some.inj (h.symm.trans hentry)
      exact ht
    case none =>
      exfalso
      cases hp : e.payload
      case some => simp [deliver_of_unconvertible now (by simp [hp]) ha, hn] at h
      case none =>
        have ⟨us, c, hw⟩ := exists_write hc (.inl hp)
        have hg : c.Grows ((p.withCache c).dispatchAll now us).cache e.type e.id :=
          grows_dispatchAll (p.withCache c) now us
        have hd : p.deliver now e = (p.withCache c).dispatchAll now us := by
          unfold deliver
          rw [hw]
        unfold write at hw
        rw [hp] at hw
        have hgets := (Cache.removes_remove hs hw).gets e.type e.id
        rw [if_pos ⟨rfl, rfl⟩] at hgets
        have hsome : ((p.deliver now e).cache.get? e.type e.id).isSome := by
          simp [Cache.get?_eq, h]
        rw [hd, hg.isSome_iff, hgets] at hsome
        simp at hsome

-- An event that leaves a resource in the cache takes it out at no point.
theorem stays_deliver (now : Moment) (hs : p.cache.Sound) (hc : p.cache.contains e.type)
    (h : (p.cache.get? type id).isSome →
      (((p.deliver now e).advanceRun now e).2.2.cache.get? type id).isSome) :
    ((p.cache.get? type id).isSome → ((p.deliver now e).cache.get? type id).isSome) ∧
    (((p.deliver now e).cache.get? type id).isSome →
      (((p.deliver now e).advanceRun now e).2.2.cache.get? type id).isSome) := by
  have ⟨hk, hs'⟩ := Cache.kin_and_sound_of_changes hs (changes_of_moves (p.moves_deliver now e))
  have ⟨c, hgrows, hrun⟩ :=
    exists_advanceRun (p := p.deliver now e) now hs' (hk.contains.trans hc)
  have ⟨hback, hkept⟩ := hrun type id
  rw [(hgrows type id).isSome_iff] at h ⊢
  simp only [Cache.get?_eq, Option.isSome_map] at h ⊢
  refine ⟨fun hp => hback (h hp), fun hd => ?_⟩
  cases hp : p.cache.cached? type id
  case some => exact h (by simp [hp])
  case none =>
    have ⟨entry, hentry⟩ := Option.isSome_iff_exists.mp hd
    exact Option.isSome_of_eq_some
      (hkept entry hentry (timestamp_le_of_deliver now hs hc hp hentry))

end Stays

section Run

variable [Publisher Outbound]

theorem Tied.evict {cutoff : Int} {n : Nat} (hs : c₀.Setting v as) (h : Tied t [] p)
    (he : p.evict now type cutoff = .ok (n, p'))
    (hstays : (p.cache.get? t.rule.target t.target).isSome →
      (p'.cache.get? t.rule.target t.target).isSome) : Tied t [] p' := by
  obtain ⟨es, c, hev, rfl⟩ := p.evicts_of_evict now h.clean.kin h.clean.sound he
  refine Tied.dispatchAll hs (h.loses hs (hev.drops cutoff) fun hi => ?_) now
  have hgrows (us : List Update) :
      c.Grows ((p.withCache c).dispatchAll now us).cache t.rule.target t.target :=
    (p.withCache c).grows_dispatchAll now us
  exact (hgrows _).isSome_iff.mp (hstays hi)

theorem Tied.advanceRun (hs : c₀.Setting v as) (h : Tied t [] p) (now : Moment)
    (hc : p.cache.contains e.type)
    (hstays : (p.cache.get? t.rule.target t.target).isSome →
      ((p.advanceRun now e).2.2.cache.get? t.rule.target t.target).isSome) :
    Tied t [] (p.advanceRun now e).2.2 := by
  obtain ⟨sync, he⟩ | ⟨sync, _, _, hev, _⟩ := p.advanceRun_cases now hc
  case inl => exact he ▸ h.track sync
  case inr => exact (h.track sync).evict hs hev hstays

theorem Tied.deliver (hs : c₀.Setting v as) (hp : Clean c₀ v as [] p)
    (h : Rewrites t e ∨ Tied t [] p) (ha : ∀ a, e.arrival? = some a → a ∈ as)
    (hc : p.cache.contains e.type)
    (hstays : (p.cache.get? t.rule.target t.target).isSome →
      ((p.deliver now e).cache.get? t.rule.target t.target).isSome) :
    Tied t [] (p.deliver now e) := by
  unfold Pipeline.deliver at hstays ⊢
  split at hstays
  case h_1 us c hw =>
    have hg : c.Grows ((p.withCache c).dispatchAll now us).cache t.rule.target t.target :=
      grows_dispatchAll (p.withCache c) now us
    have h := Tied.write hs hp h ha hc (fun hi => hg.isSome_iff.mp (hstays hi)) hw
    exact h.dispatchAll hs now
  case h_2 hw =>
    refine h.resolve_left ?_
    rintro ⟨a, he, _⟩
    have ⟨_, _, hw', _⟩ := write_arrival he hc
    simp [hw] at hw'

theorem Tied.processEntity (hs : c₀.Setting v as) (hp : Clean c₀ v as [] p)
    (h : Rewrites t e ∨ Tied t [] p) (ha : ∀ a, e.arrival? = some a → a ∈ as) (now : Moment)
    (hstays : (p.cache.get? t.rule.target t.target).isSome →
      ((p.processEntity now e).2.cache.get? t.rule.target t.target).isSome) :
    Tied t [] (p.processEntity now e).2 := by
  by_cases hc : p.cache.contains e.type
  case neg =>
    have he : (p.processEntity now e).2 = p := by simp [Pipeline.processEntity, hc]
    rw [he]
    refine h.resolve_left ?_
    rintro ⟨a, he, ht, _⟩
    obtain ⟨_, hf⟩ := t.sourceFits
    rw [← (EntityEvent.arrival?_eq_some he).1, ht, hp.kin.contains] at hc
    exact hc hf.contained
  case pos =>
    obtain ⟨hk, _⟩ :=
      Cache.kin_and_sound_of_changes hp.sound (changes_of_moves (p.moves_deliver now e))
    rw [processEntity_eq now hc] at hstays ⊢
    obtain ⟨hdeliver, hrun⟩ := stays_deliver now hp.sound hc hstays
    exact (Tied.deliver hs hp h ha hc hdeliver).advanceRun hs now (hk.contains ▸ hc) hrun

theorem Tied.step {s : Step} (hs : c₀.Setting v as) (h : Tied t [] p) (hi : s.IsInner)
    (hn : ∀ now, s ≠ .cleanUp now) (ha : ∀ a ∈ arrivals [s], a ∈ as)
    (hstays : (p.cache.get? t.rule.target t.target).isSome →
      ((p.step s).cache.get? t.rule.target t.target).isSome) : Tied t [] (p.step s) := by
  cases s
  case entity now e =>
    refine .processEntity hs h.clean (.inr h) (fun a he => ha a ?_) now hstays
    simp [arrivals, he]
  case relation => exact hi.elim
  case dispatch => exact hi.elim
  case cleanUp now => exact absurd rfl (hn now)
  case pass now => exact h.pass hs now
  case evict now type cutoff =>
    unfold Pipeline.step at hstays ⊢
    dsimp only at hstays ⊢
    split at hstays
    case h_1 he => exact h.evict hs he hstays
    case h_2 => exact h

-- Whether a resource, once it is cached, stays so to the end of a run.
def Stays (p : Pipeline Outbound) (type : Descriptor) (id : String) : List Step → Prop
  | [] => True
  | s :: steps =>
    ((p.cache.get? type id).isSome → ((p.step s).cache.get? type id).isSome) ∧
      (p.step s).Stays type id steps

instance decidableStays (p : Pipeline Outbound) (type : Descriptor) (id : String) :
    (steps : List Step) → Decidable (p.Stays type id steps)
  | [] => .isTrue trivial
  | s :: steps =>
    have := decidableStays (p.step s) type id steps
    inferInstanceAs (Decidable (_ ∧ _))

theorem Tied.run {steps : List Step} (hs : c₀.Setting v as) (h : Tied t [] p)
    (hi : ∀ s ∈ steps, s.IsInner) (hn : ∀ now, .cleanUp now ∉ steps)
    (ha : ∀ a ∈ arrivals steps, a ∈ as) (hstays : p.Stays t.rule.target t.target steps) :
    Tied t [] (p.run steps) := by
  induction steps generalizing p
  case nil => exact h
  case cons s steps hr =>
    rw [arrivals_cons] at ha
    refine hr ?_ (fun s hs => hi s (.tail _ hs)) (fun now hm => hn now (.tail _ hm))
      (fun a h => ha a (List.mem_append_right _ h)) hstays.2
    exact h.step hs (hi s (.head _)) (fun now he => hn now (he ▸ .head _))
      (fun a h => ha a (List.mem_append_left _ h)) hstays.1

end Run

-- The source is not written again, and nothing that is queued brings the link back. While the
-- target is not cached, and from the time on at which it was taken out, the link is not there.
structure Lacks (t : c₀.Tie v as) (gone : Prop) (todo : List Update) (p : Pipeline Outbound) :
    Prop where
  clean : Clean c₀ v as todo p
  deleted : ∀ u ∈ todo, t.IsHitBy u → u.operation = .delete
  offered : ∀ n u, p.retry.Offers n u → t.IsHitBy u → u.operation = .delete
  lacking : gone ∨ p.cache.get? t.rule.target t.target = none → ¬t.IsMade p.cache

section Lacks

variable {gone : Prop}

theorem Lacks.loses (hs : c₀.Setting v as) (h : Lacks t gone [] p) (hw : p.cache.Settled)
    (hc : c₀.Loses p.cache us c) : Lacks t gone us (p.withCache c) := by
  refine ⟨h.clean.loses hs hc, fun u hu _ => ?_, h.offered, fun hg hm => ?_⟩
  case refine_1 =>
    have ⟨_, _, _, _, hg, hu⟩ := hc.only u hu
    exact ((h.clean.fits _ _ _ hg).proper_of_mem_removalUpdates hs hu).2
  case refine_2 =>
    have hm := Cache.Tie.IsMade.cases hs (h.clean.loses hs hc).fits hm
    have hbefore : t.IsMade p.cache := by
      obtain ⟨r, hg, hl⟩ | hb := hm
      · exact .inl ⟨t.target, r, hc.kept _ _ _ hg, rfl, hl⟩
      · exact .inr (hc.buffer ▸ hb)
    refine h.lacking (hg.imp_right fun hn => Option.eq_none_iff_forall_ne_some.mpr fun r hr => ?_)
      hbefore
    obtain ⟨r', hr', _⟩ | hb := hm
    · exact nomatch hn.symm.trans hr'
    · exact t.not_awaits hs h.clean.kin hw h.clean.fits hr (hc.buffer ▸ hb)

theorem Lacks.writes {timestamp : Int} (hs : c₀.Setting v as) (h : Lacks t gone [] p)
    (hn : ¬(a.type = t.type ∧ a.id = t.source)) (ha : a ∈ as) (ht : c₀.contains a.type)
    (hw : p.cache.Writes a.type a.id a.resource timestamp us c) :
    Lacks t gone us (p.withCache c) := by
  have hp := h.clean
  have ⟨merged, hf, hg, hu⟩ := hp.exists_merged hs ha ht hw
  refine ⟨hp.writes hs ha ht hw, fun u hmem hi => ?_, h.offered, fun hgone hmade => ?_⟩
  case refine_1 =>
    have ⟨rule, hr, _, hconcerns, _⟩ :=
      Cache.concerns_of_mem_derived hs (fun o ho => hp.fits _ _ o ho) hf (hu ▸ hmem)
    have ⟨htype, hid, _⟩ := hi.eq hs hr hf hconcerns
    exact absurd ⟨htype, hid⟩ hn
  case refine_2 =>
    have hr := hs.closed.inverse _ _ t.listed
    refine h.lacking (hgone.imp_right fun hnone => ?_) (hmade.of_writes hs hp.kin ha ht hw hr)
    have hnone := (hg _ _).symm.trans hnone
    split at hnone
    case isTrue => simp at hnone
    case isFalse => exact hnone

theorem Lacks.write (hs : c₀.Setting v as) (h : Lacks t gone [] p) (hset : p.cache.Settled)
    (hn : ¬Rewrites t e) (ha : ∀ a, e.arrival? = some a → a ∈ as) (hc : p.cache.contains e.type)
    (hw : p.write e = .ok (us, c)) : Lacks t gone us (p.withCache c) := by
  have hp := h.clean
  obtain ⟨_, hr⟩ | ⟨a, he, hr⟩ := remove_or_reconcile_of_write hw
  case inl => exact h.loses hs hset ((Cache.removes_remove hp.sound hr).loses hp.kin)
  case inr =>
    have ht := contains_of_arrival hp.kin he hc
    exact h.writes hs (fun hi => hn ⟨a, he, hi⟩) (ha a he) ht (Cache.writes_reconcile hp.sound hr)

theorem Lacks.track (h : Lacks t gone [] p) (sync : Sync.Tracker) :
    Lacks t gone [] { p with sync } :=
  ⟨h.clean.track sync, h.deleted, h.offered, h.lacking⟩

variable [Publisher Outbound]

theorem Lacks.dispatch (hs : c₀.Setting v as) (h : Lacks t gone (u :: todo) p) (now : Moment) :
    Lacks t gone todo (p.dispatch now u).2 := by
  have hu := h.clean.proper u (.head _)
  have ⟨hf, _⟩ := Cache.frame_apply now.wall h.clean.sound hu
  rw [← cache_dispatch] at hf
  have hdelete := h.deleted u (.head _)
  refine ⟨h.clean.dispatch hs now, fun u' hu' => h.deleted u' (.tail _ hu'), fun n u' ho hi => ?_,
    fun hg hm => ?_⟩
  case refine_1 =>
    obtain ⟨ho, _⟩ | rfl := p.offers_of_dispatch now h.clean.numbered ho
    · exact h.offered n u' ho hi
    · exact hdelete hi
  case refine_2 =>
    rw [cache_dispatch] at hm
    refine h.lacking (hg.imp_right hf.eq_none) ?_
    exact hm.of_apply hs h.clean.kin h.clean.sound h.clean.fits hu hdelete

theorem Lacks.dispatchAll (hs : c₀.Setting v as) (h : Lacks t gone us p) (now : Moment) :
    Lacks t gone [] (p.dispatchAll now us) :=
  p.dispatchAll_induct now (fun _ _ _ h => h.dispatch hs now) h

theorem Lacks.pass (hs : c₀.Setting v as) (h : Lacks t gone [] p) (now : Moment) :
    Lacks t gone [] (p.pass now).2 := by
  have hw := p.within_pass now h.clean.numbered
  have ⟨⟨hf, _⟩, hmade⟩ := h.clean.pass_induct hs now
    (P := fun c => t.IsMade c → t.IsMade p.cache) id fun n u c ho hu hk hm hf hmade h' =>
      hmade (h'.of_apply hs hk hm hf hu (h.offered n u ho))
  exact ⟨h.clean.pass hs now, by simp, fun n u ho => h.offered n u (hw.offers n u ho),
    fun hg hm => h.lacking (hg.imp_right hf.eq_none) (hmade hm)⟩

theorem Lacks.evict {cutoff : Int} {n : Nat} (hs : c₀.Setting v as) (h : Lacks t gone [] p)
    (hset : p.cache.Settled) (he : p.evict now type cutoff = .ok (n, p')) :
    Lacks t gone [] p' := by
  obtain ⟨es, c, hev, rfl⟩ := p.evicts_of_evict now h.clean.kin h.clean.sound he
  exact (h.loses hs hset (hev.loses cutoff)).dispatchAll hs now

theorem Lacks.processEntity (hs : c₀.Setting v as) (h : Lacks t gone [] p)
    (hset : p.cache.Settled) (hn : ¬Rewrites t e) (ha : ∀ a, e.arrival? = some a → a ∈ as)
    (now : Moment) : Lacks t gone [] (p.processEntity now e).2 := by
  by_cases hc : p.cache.contains e.type
  case neg => simpa [Pipeline.processEntity, hc] using h
  case pos =>
    have hmoves := changes_of_moves (p.moves_deliver now e)
    obtain ⟨hk, _⟩ := Cache.kin_and_sound_of_changes h.clean.sound hmoves
    have hset' := hset.changes h.clean.sound hmoves
    have hd : Lacks t gone [] (p.deliver now e) := by
      unfold Pipeline.deliver
      split
      case h_2 => exact h
      case h_1 hw => exact (h.write hs hset hn ha hc hw).dispatchAll hs now
    rw [processEntity_eq now hc]
    obtain ⟨sync, he⟩ | ⟨sync, _, _, hev, _⟩ :=
      (p.deliver now e).advanceRun_cases now (hk.contains ▸ hc)
    case inl => exact he ▸ hd.track sync
    case inr => exact (hd.track sync).evict hs hset' hev

-- Whether a step is not a write of the source.
def Step.Leaves (t : c₀.Tie v as) : Step → Prop
  | .entity _ e => ¬Rewrites t e
  | .evict .. | .pass _ => True
  | .relation .. | .dispatch .. | .cleanUp _ => False

theorem Lacks.step {s : Step} (hs : c₀.Setting v as) (h : Lacks t gone [] p)
    (hset : p.cache.Settled) (hl : s.Leaves t) (ha : ∀ a ∈ arrivals [s], a ∈ as) :
    Lacks t gone [] (p.step s) := by
  cases s
  case entity now e =>
    refine h.processEntity hs hset hl (fun a he => ha a ?_) now
    simp [arrivals, he]
  case relation => exact hl.elim
  case dispatch => exact hl.elim
  case cleanUp => exact hl.elim
  case pass now => exact h.pass hs now
  case evict now type cutoff =>
    unfold Pipeline.step
    dsimp only
    split
    case h_1 he => exact h.evict hs hset he
    case h_2 => exact h

theorem Lacks.run {steps : List Step} (hs : c₀.Setting v as) (h : Lacks t gone [] p)
    (hset : p.cache.Settled) (hl : ∀ s ∈ steps, s.Leaves t) (ha : ∀ a ∈ arrivals steps, a ∈ as)
    (hgone : gone ∨ ¬p.Stays t.rule.target t.target steps) : ¬t.IsMade (p.run steps).cache := by
  induction steps generalizing p gone
  case nil => exact h.lacking (.inl (hgone.resolve_right (not_not.mpr trivial)))
  case cons s steps hr =>
    rw [arrivals_cons] at ha
    have hset' := hset.changes h.clean.sound (changes_of_moves (p.moves_step s))
    have hstep := h.step hs hset (hl s (.head _)) fun a h => ha a (List.mem_append_left _ h)
    have hl' : ∀ s ∈ steps, s.Leaves t := fun s hs => hl s (.tail _ hs)
    have ha' : ∀ a ∈ arrivals steps, a ∈ as := fun a h => ha a (List.mem_append_right _ h)
    cases hget : (p.step s).cache.get? t.rule.target t.target
    case none =>
      -- From here on the link back is not there, whether the target comes back or not.
      have hn := hstep.lacking (.inr hget)
      have hstep' : Lacks t True [] (p.step s) :=
        ⟨hstep.clean, hstep.deleted, hstep.offered, fun _ => hn⟩
      exact hr hstep' hset' hl' ha' (.inl trivial)
    case some r =>
      refine hr hstep hset' hl' ha' (hgone.imp_right fun hn hs => hn ⟨fun _ => ?_, hs⟩)
      exact Option.isSome_of_eq_some hget

end Lacks


section Exact

variable [Publisher Outbound]

-- A source that is cached is linked back by the target of its first link, if the target was not
-- taken out of the cache since some write of the source. If that was the last one, and found the
-- target, this is the only way.
theorem linkedBack_iff_stays (config : Config) (types : List (Descriptor × List String))
    (given : List (Descriptor × List Rule)) (outbound : Outbound) (before after : List Step)
    (now : Moment) (e : EntityEvent) (a : Arrival) (v : Descriptor → String → String)
    (hsimple : (start config types (.ofRules given) outbound).cache.Simple)
    (hplain : ∀ a ∈ arrivals (before ++ .entity now e :: after),
      (start config types (.ofRules given) outbound).cache.Plain v a)
    (hunique : ∀ a ∈ arrivals (before ++ .entity now e :: after),
      ∀ b ∈ arrivals (before ++ .entity now e :: after), a.type = b.type →
        lower (v a.type a.id) = lower (v b.type b.id) → a.id = b.id)
    (hsteps : ∀ s ∈ before ++ .entity now e :: after, s.IsInner)
    (hbuffer : ∀ now, .cleanUp now ∉ after) (harrival : e.arrival? = some a) (rule : Rule)
    (id : String) (s r : Resource) (hrule : rule ∈ (Registry.ofRules given).rulesOf a.type) :
    let p := (start config types (.ofRules given) outbound).run before
    let written := p.step (.entity now e)
    let c := (written.run after).cache
    c.get? a.type a.id = some s → c.get? rule.target id = some r → c.Selects rule s r →
      (p.Stays rule.target id (.entity now e :: after) → c.LinkedBack a.type rule s r) ∧
      ((∀ b ∈ arrivals after, ¬(b.type = a.type ∧ b.id = a.id)) → written.retry.pending = [] →
        (written.cache.get? rule.target id).isSome →
          (c.LinkedBack a.type rule s r ↔ written.Stays rule.target id after)) := by
  intro p written c hsource htarget hselects
  let c₀ := (start config types (.ofRules given) outbound).cache
  let as := arrivals (before ++ .entity now e :: after)
  have hs : c₀.Setting v as :=
    ⟨sound_start, Registry.closed_ofRules given, hsimple, hplain, hunique⟩
  have has : as = arrivals before ++ a :: arrivals after := by
    simp [as, arrivals, harrival]
  have harrivals : ∀ a ∈ arrivals after, a ∈ as := fun b hb => by simp [has, hb]
  have hinner : ∀ s ∈ after, s.IsInner := fun s hm => hsteps s (by simp [hm])
  have hp : Clean c₀ v as [] p :=
    clean_start.run hs (fun s hm => hsteps s (by simp [hm])) fun b hb => by simp [has, hb]
  have hwritten : Clean c₀ v as [] written := by
    refine hp.processEntity hs (fun b hb => ?_) now
    simp [has, Option.some.inj (harrival.symm.trans hb)]
  have hc := hwritten.run hs hinner harrivals
  have hset : written.cache.Settled := settled_start.changes sound_start
    (changes_of_moves ((moves_run _ before).trans (p.moves_step (.entity now e))))
  have hsetc : c.Settled := hset.changes hwritten.sound (changes_of_moves (written.moves_run after))
  let t : c₀.Tie v as :=
    ⟨a.type, rule, a.id, id, hrule, ⟨s, hc.fits _ _ _ hsource⟩, ⟨r, hc.fits _ _ _ htarget⟩⟩
  have hmade : c.LinkedBack a.type rule s r ↔ t.IsMade c :=
    t.linkedBack_iff_isMade hs hc.kin hc.fits hsource htarget hsetc
  have hstays (h : p.Stays rule.target id (.entity now e :: after)) :
      c.LinkedBack a.type rule s r := by
    have htied : Tied t [] written :=
      .processEntity hs hp (.inl ⟨a, harrival, rfl, rfl⟩)
        (fun b hb => by simp [has, Option.some.inj (harrival.symm.trans hb)]) now h.1
    have htied := htied.run hs hinner hbuffer harrivals h.2
    have hpoints := t.points_of_selects hs hc.kin hc.fits hsource htarget hselects
    exact hmade.mpr (htied.made hpoints).1
  refine ⟨hstays, fun hlast hidle hthere =>
    ⟨fun hlinked => ?_, fun h => hstays ⟨fun _ => hthere, h⟩⟩⟩
  by_contra hn
  have hlacks : Lacks t False [] written := by
    refine ⟨hwritten, by simp, fun n u ho => ?_, fun hg => ?_⟩
    · obtain ⟨_, item, hm, _⟩ := ho
      simp [hidle] at hm
    · simp [t, hg.resolve_left not_false] at hthere
  refine hlacks.run hs hset (fun s hm => ?_) harrivals (.inr hn) (hmade.mp hlinked)
  cases s
  case entity now e' =>
    rintro ⟨b, hb, hi⟩
    exact hlast b (List.mem_filterMap.mpr ⟨_, hm, hb⟩) hi
  case relation => exact (hinner _ hm).elim
  case dispatch => exact (hinner _ hm).elim
  case cleanUp now => exact absurd hm (hbuffer now)
  case evict => trivial
  case pass => trivial

end Exact

section Rejoining

open Roster (student group membership sent)

theorem eq_of_mem_fieldsOf_roster {field : String}
    (h : field ∈ (start {} Roster.types (.ofRules (Roster.rules .zeroOrOne)) ()).cache.fieldsOf
      type) : field = "systemid" := by
  have hf : ∀ tf ∈ Roster.types, (Store.empty tf.1 tf.2).fields = ["systemid"] := by decide
  unfold Cache.fieldsOf Cache.layout at h
  cases hs : (start {} Roster.types (.ofRules (Roster.rules .zeroOrOne)) ()).cache.store? type
  case none => simp [hs] at h
  case some s =>
    have ⟨tf, hm, he⟩ := empty_of_mem_start (List.mem_of_find?_eq_some hs)
    simpa [hs, he, hf tf hm] using h

theorem plain_roster (h : a.resource.fieldValue? "systemid" = some a.id ∧
      (a.id ≠ "" ∧ '/' ∉ a.id.toList) ∧
      ∀ m ∈ a.resource.relations, m.1 = "group" ∧ ∀ l ∈ m.2, l.identity?.isSome) :
    (start {} Roster.types (.ofRules (Roster.rules .zeroOrOne)) ()).cache.Plain
      (fun _ id => id) a := by
  have ⟨hvalue, hid, hlinks⟩ := h
  have hnone {relation : String} (h : relation ≠ "group") : a.resource.links relation = [] := by
    refine List.eq_nil_iff_forall_not_mem.mpr fun l hl => h ?_
    have ⟨m, hm, he, _⟩ := Resource.exists_mem_of_mem_links hl
    exact he.symm.trans (hlinks m hm).1
  refine ⟨fun field hf => ?_, ⟨hid.1, hid.2⟩, fun relation l hl => ?_, hnone (by decide),
    fun relation hr => hnone ?_⟩
  case refine_1 => rw [eq_of_mem_fieldsOf_roster hf, hvalue]
  case refine_2 =>
    have ⟨m, hm, _, hl⟩ := Resource.exists_mem_of_mem_links hl
    exact (hlinks m hm).2 l hl
  case refine_3 =>
    have ⟨_, rule, hrule, _, he⟩ := (Registry.closed_ofRules _).origin _ _ hr
    obtain ⟨-, rfl⟩ := Roster.mem_rulesOf.mp hrule
    exact he ▸ by decide

-- A group is dropped and comes back, and then its student is sent again.
def rejoining : List Step := [
  .entity ⟨1, 1⟩ (sent group "a" [] 1),
  .entity ⟨2, 2⟩ (sent student "1" ["a"] 2),
  .entity ⟨3, 3⟩ { sent group "a" [] 3 with payload := none },
  .entity ⟨4, 4⟩ (sent group "a" [] 4)]

def rejoined : List Step := [
  .pass ⟨6, 9000⟩,
  .entity ⟨7, 9001⟩ (sent group "a" [] 6),
  .evict ⟨8, 9002⟩ group 5]

theorem linkedBack_rejoined :
    let written := ((start {} Roster.types (.ofRules (Roster.rules .zeroOrOne)) ()).run
      rejoining).step (.entity ⟨5, 5⟩ (sent student "1" ["a"] 5))
    let c := (written.run rejoined).cache
    ∃ s r, c.get? student "1" = some s ∧ c.get? group "a" = some r ∧
      c.Selects (membership .zeroOrOne) s r ∧
      c.LinkedBack student (membership .zeroOrOne) s r ∧ written.Stays group "a" rejoined := by
  intro written c
  let e : EntityEvent := sent student "1" ["a"] 5
  let steps := rejoining ++ .entity ⟨5, 5⟩ e :: rejoined
  have hinorder : ∀ a ∈ arrivals steps, a.resource.fieldValue? "systemid" = some a.id ∧
      (a.id ≠ "" ∧ '/' ∉ a.id.toList) ∧
      ∀ m ∈ a.resource.relations, m.1 = "group" ∧ ∀ l ∈ m.2, l.identity?.isSome := by
    decide +kernel
  have hplain : ∀ a ∈ arrivals steps, (start {} Roster.types
      (.ofRules (Roster.rules .zeroOrOne)) ()).cache.Plain (fun _ id => id) a :=
    fun a ha => plain_roster (hinorder a ha)
  have hunique : ∀ a ∈ arrivals steps, ∀ b ∈ arrivals steps, a.type = b.type →
      lower a.id = lower b.id → a.id = b.id := by
    decide +kernel
  have hstudent : (c.get? student "1").map (·.links "group") = some [Roster.link group "a"] := by
    decide +kernel
  have hgroup : (c.get? group "a").map (·.identities (c.fieldsOf group)) =
      some ["systemid/a"] := by
    decide +kernel
  have ⟨s, hs, hlinks⟩ := Option.map_eq_some_iff.mp hstudent
  have ⟨r, hr, hids⟩ := Option.map_eq_some_iff.mp hgroup
  have hselects : c.Selects (membership .zeroOrOne) s r :=
    ⟨_, congrArg List.head? hlinks, "systemid/a", hids ▸ .head _, by decide +kernel⟩
  have hstays : ((start {} Roster.types (.ofRules (Roster.rules .zeroOrOne)) ()).run
      rejoining).Stays group "a" (.entity ⟨5, 5⟩ e :: rejoined) := by
    decide +kernel
  have hlast : ∀ b ∈ arrivals rejoined, ¬(b.type = student ∧ b.id = "1") := by
    decide +kernel
  have hidle : written.retry.pending = [] := by
    decide +kernel
  have hthere : (written.cache.get? group "a").isSome := by
    decide +kernel
  have ⟨hlinked, hiff⟩ := linkedBack_iff_stays {} Roster.types (Roster.rules .zeroOrOne) ()
    rejoining rejoined ⟨5, 5⟩ e _ (fun _ id => id) simple_start_roster hplain hunique
    (by simp [rejoining, rejoined, Step.IsInner]) (by simp [rejoined]) rfl (membership .zeroOrOne)
    "a" s r (Roster.mem_rulesOf.mpr ⟨rfl, rfl⟩) hs hr hselects
  have hlinked := hlinked hstays
  exact ⟨s, r, hs, hr, hselects, hlinked, (hiff hlast hidle hthere).mp hlinked⟩

-- The student is not sent again, and the group comes back without its member.
def dropping : List Step := [
  .entity ⟨1, 1⟩ (sent group "a" [] 1),
  .entity ⟨2, 2⟩ (sent student "1" ["a"] 2),
  .entity ⟨3, 3⟩ { sent group "a" [] 3 with payload := none },
  .entity ⟨4, 4⟩ (sent group "a" [] 4),
  .pass ⟨5, 9000⟩]

theorem not_linkedBack_of_dropping :
    ¬∀ (config : Config) (types : List (Descriptor × List String))
      (given : List (Descriptor × List Rule)) (steps : List Step)
      (v : Descriptor → String → String),
      (start config types (.ofRules given) ()).cache.Simple →
      (∀ a ∈ arrivals steps, (start config types (.ofRules given) ()).cache.Plain v a) →
      (∀ a ∈ arrivals steps, ∀ b ∈ arrivals steps, a.type = b.type →
        lower (v a.type a.id) = lower (v b.type b.id) → a.id = b.id) →
      (∀ s ∈ steps, s.IsInner) → (∀ now, .cleanUp now ∉ steps) →
      ∀ (type : Descriptor) (rule : Rule) (id id' : String) (s r : Resource),
        rule ∈ (Registry.ofRules given).rulesOf type →
        let c := ((start config types (.ofRules given) ()).run steps).cache
        c.get? type id = some s → c.get? rule.target id' = some r → c.Selects rule s r →
          c.LinkedBack type rule s r := by
  intro h
  let c := ((start {} Roster.types (.ofRules (Roster.rules .zeroOrOne)) ()).run dropping).cache
  have hinorder : ∀ a ∈ arrivals dropping, a.resource.fieldValue? "systemid" = some a.id ∧
      (a.id ≠ "" ∧ '/' ∉ a.id.toList) ∧
      ∀ m ∈ a.resource.relations, m.1 = "group" ∧ ∀ l ∈ m.2, l.identity?.isSome := by
    decide +kernel
  have hunique : ∀ a ∈ arrivals dropping, ∀ b ∈ arrivals dropping, a.type = b.type →
      lower a.id = lower b.id → a.id = b.id := by
    decide +kernel
  have hstudent : (c.get? student "1").map (·.links "group") = some [Roster.link group "a"] := by
    decide +kernel
  have hgroup : (c.get? group "a").map (fun r => (r.identities (c.fieldsOf group),
      r.links "member")) = some (["systemid/a"], []) := by
    decide +kernel
  have ⟨s, hs, hlinks⟩ := Option.map_eq_some_iff.mp hstudent
  have ⟨r, hr, hboth⟩ := Option.map_eq_some_iff.mp hgroup
  have ⟨hids, hmember⟩ := Prod.mk.inj hboth
  have hselects : c.Selects (membership .zeroOrOne) s r :=
    ⟨_, congrArg List.head? hlinks, "systemid/a", hids ▸ .head _, by decide +kernel⟩
  have hplain : ∀ a ∈ arrivals dropping, (start {} Roster.types
      (.ofRules (Roster.rules .zeroOrOne)) ()).cache.Plain (fun _ id => id) a :=
    fun a ha => plain_roster (hinorder a ha)
  have ⟨back, _, hheld⟩ := h {} Roster.types (Roster.rules .zeroOrOne) dropping (fun _ id => id)
    simple_start_roster hplain hunique (by simp [dropping, Step.IsInner]) (by simp [dropping])
    student (membership .zeroOrOne) "1" "a" s r (Roster.mem_rulesOf.mpr ⟨rfl, rfl⟩) hs hr hselects
  have hm : r.links (membership .zeroOrOne).inverse = [] := hmember
  simp [Resource.holds, hm] at hheld

end Rejoining

end Pipeline
end LinkedCache
