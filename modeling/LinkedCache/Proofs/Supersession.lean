import LinkedCache.Proofs.Roster
import LinkedCache.Proofs.Run

-- An update makes obsolete what is queued under its key. The key stands for all targets and all
-- links of an update, so that updates which have a target and a link in common may have different
-- keys, and then do not get in each other's way.

namespace LinkedCache

open Text (lower)

namespace Update

-- Whether an update is about the link with a key under a relation of a target.
structure Covers (u : Update) (type : Descriptor) (identity relation key : String) : Prop where
  target : u.target = type
  identity : ∃ i ∈ u.targetIds, lower i = lower identity
  relation : u.binding.relation = relation
  key : key ∈ u.keys

def Overlaps (u v : Update) : Prop :=
  ∃ type identity relation key, u.Covers type identity relation key ∧
    v.Covers type identity relation key

end Update

theorem Roster.overlaps_joins {o o' : Operation} {value g : String} {gs gs' : List String}
    {t t' : Int} (h : g ∈ gs) (h' : g ∈ gs') :
    (joins o value gs t).Overlaps (joins o' value gs' t') :=
  ⟨group, "systemid/" ++ g, "member", Update.linkKey (link student value),
    ⟨rfl, ⟨_, List.mem_map_of_mem h, rfl⟩, rfl, .head _⟩,
    ⟨rfl, ⟨_, List.mem_map_of_mem h', rfl⟩, rfl, .head _⟩⟩

namespace Cache

variable {c c' : Cache} {u : Update} {now : Int} {type : Descriptor}
  {i identity relation key : String}

-- Whether a target has a link, or the link waits for the target.
def Has (c : Cache) (type : Descriptor) (identity relation key : String) : Prop :=
  c.buffer.Awaits (Address.of type identity relation) key ∨
    ∃ id r, c.get? type id = some r ∧ r.AnswersTo (c.fieldsOf type) identity ∧
      r.Reaches relation key

-- Whether two identities are of one target.
def Alias (c : Cache) (type : Descriptor) (i j : String) : Prop :=
  lower i = lower j ∨ ∃ id, c.Answers type i id ∧ c.Answers type j id

-- An update brings only links that it covers to its targets.
def Brings (c : Cache) (u : Update) (type : Descriptor) (identity relation key : String) : Prop :=
  u.operation = .add ∧ ∃ j, c.Alias type identity j ∧ u.Covers type j relation key

theorem has_of_applies (hk : c.Kin c') (hi : i ∈ u.targetIds) (ha : Applies u i c c')
    (h : c'.Has type identity relation key) :
    c.Has type identity relation key ∨ c.Brings u type identity relation key := by
  obtain hb | ⟨id, r, hg, hr, hl⟩ := h <;> cases ha
  case inl.here waits => exact .inl (.inl ((waits _ _).mp hb).1)
  case inl.away waits =>
    have hb := (waits _ _).mp hb
    unfold Update.Effect at hb
    split at hb
    case h_2 => exact .inl (.inl hb.1)
    case h_1 ho =>
      refine hb.imp .inl fun ⟨ha, hm⟩ => ⟨ho, identity, .inl rfl, ?_⟩
      have ⟨ht, hi', hr⟩ := Address.mk.inj ha
      exact ⟨ht.symm, ⟨i, hi, hi'.symm⟩, hr.symm, hm⟩
  case inr.away gets _ =>
    rw [gets] at hg
    exact .inl (.inr ⟨id, r, hg, hk.fieldsOf ▸ hr, hl⟩)
  case inr.here id₀ r₀ r' answers cached acts gets _ =>
    rw [gets] at hg
    rw [hk.fieldsOf] at hr
    split at hg
    case isFalse => exact .inl (.inr ⟨id, r, hg, hr, hl⟩)
    case isTrue he =>
      obtain ⟨rfl, rfl⟩ := he
      obtain rfl := Option.some.inj hg
      have hr := (Resource.answersTo_congr acts.attributes).mp hr
      have hl := (acts.reaches relation key).mp hl
      unfold Update.Effect at hl
      split at hl
      case h_2 => exact .inl (.inr ⟨id, r₀, cached, hr, hl.1⟩)
      case h_1 ho =>
        refine hl.imp (fun hl => .inr ⟨id, r₀, cached, hr, hl⟩) fun ⟨hl, hm⟩ => ⟨ho, i, ?_, ?_⟩
        · exact .inr ⟨id, ⟨r₀, cached, hr⟩, answers⟩
        · exact ⟨rfl, ⟨i, hi, rfl⟩, hl.symm, hm⟩

theorem alias_congr (h : ∀ type i id, c'.Answers type i id ↔ c.Answers type i id) {j : String} :
    c'.Alias type i j ↔ c.Alias type i j := by
  unfold Alias
  simp only [h]

theorem has_of_apply (u : Update) (now : Int) (hs : c.Sound) :
    ((∀ type i id, (c.apply u now).2.Answers type i id ↔ c.Answers type i id) ∧
      ∀ type identity relation key, (c.apply u now).2.Has type identity relation key →
        c.Has type identity relation key ∨ c.Brings u type identity relation key) ∧
      (c.apply u now).2.Sound := by
  refine (apply_induct (P := fun c' => (∀ type i id, c'.Answers type i id ↔ c.Answers type i id) ∧
    ∀ type identity relation key, c'.Has type identity relation key →
      c.Has type identity relation key ∨ c.Brings u type identity relation key) hs
    ⟨fun _ _ _ => .rfl, fun _ _ _ _ => .inl⟩ ?_).imp_right (·.2)
  intro i hi c₁ c₂ hk _ ha ⟨hn, hh⟩
  refine ⟨fun type i id => (ha.answers_iff hk type i id).trans (hn type i id),
    fun type i r k h => ?_⟩
  obtain h | ⟨ho, j, hj, hc⟩ := has_of_applies hk hi ha h
  · exact hh type _ r k h
  · exact .inr ⟨ho, j, (alias_congr hn).mp hj, hc⟩

end Cache

namespace Pipeline

variable {Outbound : Type} {p : Pipeline Outbound} {now : Moment} {type : Descriptor}
  {identity relation key : String}

-- Whether a pass delivers an update that was enqueued under a number.
def Delivers (p : Pipeline Outbound) (now : Moment) (n : Nat) (u : Update) : Prop :=
  ∃ item ∈ p.retry.due now.ticks, p.retry.isLive item ∧ item.seq = n ∧ item.update = u

theorem Delivers.offers {n : Nat} {u : Update} (h : p.Delivers now n u) (hq : p.retry.Numbered) :
    p.retry.Offers n u := by
  obtain ⟨item, hm, hl, rfl, rfl⟩ := h
  exact hq.offers (Retry.Queue.mem_due_iff.mp hm).1 hl

-- What is offered will be delivered by a pass, at the latest when it is due.
theorem delivers_of_offers {n : Nat} {u : Update} (h : p.retry.Offers n u)
    (hq : p.retry.Numbered) : ∃ now, p.Delivers now n u := by
  obtain ⟨hl, item, hm, rfl, rfl⟩ := h
  refine ⟨⟨0, item.due⟩, item, Retry.Queue.mem_due_iff.mpr ⟨hm, Nat.le_refl _⟩, ?_, rfl, rfl⟩
  rw [Retry.Queue.isLive_iff, hq.key item hm, hl]

theorem has_of_pass [Publisher Outbound] (hs : p.cache.Sound)
    (h : (p.pass now).2.cache.Has type identity relation key) :
    p.cache.Has type identity relation key ∨
      ∃ n u, p.Delivers now n u ∧ p.cache.Brings u type identity relation key := by
  refine (cache_pass_induct p now (P := fun c => c.Sound ∧
    (∀ type i id, c.Answers type i id ↔ p.cache.Answers type i id) ∧
    (c.Has type identity relation key → p.cache.Has type identity relation key ∨
      ∃ n u, p.Delivers now n u ∧ p.cache.Brings u type identity relation key))
    ⟨hs, fun _ _ _ => .rfl, .inl⟩ ?_).2.2 h
  intro item hm hl c ⟨hs, hn, hc⟩
  have ⟨⟨hn', hh⟩, hs'⟩ := Cache.has_of_apply item.update now.wall hs
  refine ⟨hs', fun type i id => (hn' type i id).trans (hn type i id), fun h => ?_⟩
  obtain h | ⟨ho, j, hj, hc'⟩ := hh _ _ _ _ h
  · exact hc h
  · exact .inr ⟨item.seq, item.update, ⟨item, hm, hl, rfl, rfl⟩, ho, j,
      (Cache.alias_congr hn).mp hj, hc'⟩

-- Whether an update makes every addition obsolete that has a link to a target in common with it.
def Cancels (p : Pipeline Outbound) (d : Update) : Prop :=
  ∀ n u, p.retry.Offers n u → u.operation = .add → u.Overlaps d → u.supersedeKey = d.supersedeKey

section Dispatch

variable [Publisher Outbound]

theorem Cancels.not_overlaps {d u : Update} {later : List Step} {n : Nat} {now' : Moment}
    (h : p.Cancels d) (hq : p.retry.Numbered)
    (hd : ((p.dispatch now d).2.run later).Delivers now' n u) (hn : n < p.retry.nextSeq)
    (hu : u.operation = .add) : ¬u.Overlaps d := by
  have hl := later_of_move hq (.dispatch now d)
  have hl' := later_of_moves hl.numbered ((p.dispatch now d).2.moves_run later)
  have ho := hl'.offers n u (hn.trans_le hl.le) (hd.offers hl'.numbered)
  have ⟨ho, hk⟩ := (p.offers_dispatch now hq hn).mp ho
  exact fun hv => hk (h n u ho hu hv)

-- An update keeps all additions that overlap with it from being delivered again if and only if they
-- all have its key. A later pass then brings the links of the update only by additions that were
-- dispatched after it, or are addressed to the target under another identity.
theorem cancels_iff (config : Config) (types : List (Descriptor × List String)) (rules : Registry)
    (outbound : Outbound) (steps : List Step) (now : Moment) (d : Update) :
    let p := (start config types rules outbound).run steps
    (p.Cancels d ↔ ∀ later now' n u, ((p.dispatch now d).2.run later).Delivers now' n u →
      n < p.retry.nextSeq → u.operation = .add → ¬u.Overlaps d) ∧
    (p.Cancels d → ∀ later now' type identity relation key, d.Covers type identity relation key →
      let q := (p.dispatch now d).2.run later
      (q.pass now').2.cache.Has type identity relation key →
        q.cache.Has type identity relation key ∨
          ∃ n u, q.Delivers now' n u ∧ q.cache.Brings u type identity relation key ∧
            (u.Covers type identity relation key → p.retry.nextSeq ≤ n)) := by
  intro p
  have hm := moves_run (start config types rules outbound) steps
  have hq : p.retry.Numbered := (later_of_moves numbered_start hm).numbered
  have hs : p.cache.Sound := (Cache.kin_and_sound_of_changes sound_start (changes_of_moves hm)).2
  refine ⟨⟨fun h _ _ _ _ hd hn hu => h.not_overlaps hq hd hn hu, fun h n u ho hu hv => ?_⟩, ?_⟩
  · by_contra hk
    have hn := ho.lt hq
    have hl := later_of_move hq (.dispatch now d)
    have ⟨now', hd⟩ := delivers_of_offers ((p.offers_dispatch now hq hn).mpr ⟨ho, hk⟩) hl.numbered
    exact h [] now' n u hd hn hu hv
  · intro h later now' type identity relation key hc q hh
    have hm : p.Moves q := .head (.dispatch now d) ((p.dispatch now d).2.moves_run later)
    have hs := (Cache.kin_and_sound_of_changes hs (changes_of_moves hm)).2
    obtain hh | ⟨n, u, hd, hb⟩ := has_of_pass hs hh
    case inl => exact .inl hh
    case inr =>
      refine .inr ⟨n, u, hd, hb, fun hu => Nat.le_of_not_lt fun hn => ?_⟩
      exact h.not_overlaps hq hd hn hb.1 ⟨type, identity, relation, key, hu, hc⟩

end Dispatch

-- A student joins one group and leaves it again, and is not to join it any more.
theorem cancels_joined_alone :
    let p := (start {} Roster.types (.ofRules (Roster.rules .zeroOrMany)) ()).run
      [.dispatch ⟨1, 1⟩ (Roster.joins .add "1" ["a"] 1)]
    let d := Roster.joins .delete "1" ["a"] 2
    p.retry.Offers 0 (Roster.joins .add "1" ["a"] 1) ∧
    (Roster.joins .add "1" ["a"] 1).Overlaps d ∧ p.Cancels d ∧
    ∀ later now', ¬((p.dispatch ⟨2, 2⟩ d).2.run later).Delivers now' 0
      (Roster.joins .add "1" ["a"] 1) := by
  intro p d
  let u := Roster.joins .add "1" ["a"] 1
  have hoffers (n : Nat) (v : Update) : p.retry.Offers n v ↔ n = 0 ∧ v = u :=
    offers_start_dispatch_iff ⟨1, 1⟩ (by decide +kernel)
  have ho : p.retry.Offers 0 u := (hoffers 0 u).mpr ⟨rfl, rfl⟩
  have hu : u.Overlaps d := Roster.overlaps_joins (.head _) (.head _)
  have hc : p.Cancels d := by
    intro n v hv _ _
    obtain ⟨-, rfl⟩ := (hoffers n v).mp hv
    rfl
  have hn : 0 < p.retry.nextSeq := by decide +kernel
  have ⟨hiff, _⟩ := cancels_iff {} Roster.types (.ofRules (Roster.rules .zeroOrMany)) ()
    [.dispatch ⟨1, 1⟩ u] ⟨2, 2⟩ d
  exact ⟨ho, hu, hc, fun later now' hd => hiff.mp hc later now' 0 u hd hn rfl hu⟩

theorem supersedeKey_joins_ne :
    (Roster.joins .add "1" ["a", "b"] 1).supersedeKey ≠
      (Roster.joins .delete "1" ["a"] 2).supersedeKey := by
  have hs : ((Roster.joins .add "1" ["a", "b"] 1).targetIds.map lower).Pairwise (· ≤ ·) := by
    decide +kernel
  unfold Update.supersedeKey
  rw [Text.sorted_eq_self hs]
  simp only [Text.sorted]
  decide +kernel

-- A student joins two groups and leaves one of them, and is to join both of them again.
theorem delivers_joined_after_left :
    let p := (start {} Roster.types (.ofRules (Roster.rules .zeroOrMany)) ()).run
      [.dispatch ⟨1, 1⟩ (Roster.joins .add "1" ["a", "b"] 1)]
    0 < p.retry.nextSeq ∧
    (Roster.joins .add "1" ["a", "b"] 1).Overlaps (Roster.joins .delete "1" ["a"] 2) ∧
    ∃ now, (p.dispatch ⟨2, 2⟩ (Roster.joins .delete "1" ["a"] 2)).2.Delivers now 0
      (Roster.joins .add "1" ["a", "b"] 1) := by
  intro p
  let u := Roster.joins .add "1" ["a", "b"] 1
  let d := Roster.joins .delete "1" ["a"] 2
  have ho : p.retry.Offers 0 u :=
    (offers_start_dispatch_iff ⟨1, 1⟩ (by decide +kernel)).mpr ⟨rfl, rfl⟩
  have hm := moves_run (start {} Roster.types (.ofRules (Roster.rules .zeroOrMany)) ())
    [.dispatch ⟨1, 1⟩ u]
  have hq : p.retry.Numbered := (later_of_moves numbered_start hm).numbered
  have ho' := (offers_dispatch _ ⟨2, 2⟩ hq (ho.lt hq)).mpr ⟨ho, supersedeKey_joins_ne⟩
  have hd := delivers_of_offers ho' (later_of_move hq (.dispatch ⟨2, 2⟩ d)).numbered
  exact ⟨ho.lt hq, Roster.overlaps_joins (.head _) (.head _), hd⟩

end Pipeline
end LinkedCache
