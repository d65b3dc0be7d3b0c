import LinkedCache.Proofs.Roster
import LinkedCache.Proofs.Run

-- What waits in the buffer waits for something that is not cached: a write takes the links that
-- wait for any identity of its resource, and an update leaves a link waiting only if no resource
-- answers to the identity.

namespace LinkedCache

open Text (lower)

namespace Cache

variable {c c' : Cache} {type : Descriptor} {id : String} {r : Resource} {t : Int}
  {us : List Update}

-- Links under relations that no write takes from the buffer may wait for ever.
structure Settled (c : Cache) : Prop where
  folded : ∀ a key, c.buffer.Awaits a key → lower a.identity = a.identity
  unanswered : ∀ a key, c.buffer.Awaits a key →
    a.relation ∈ c.rules.inverseRelationsOf a.type → ∀ id, ¬c.Answers a.type a.identity id

theorem Settled.applies {u : Update} {identity : String} (h : c.Settled) (hk : c.Kin c')
    (ha : Applies u identity c c') : c'.Settled := by
  have hw (a : Address) (key : String) (hw : c'.buffer.Awaits a key) :
      c.buffer.Awaits a key ∨
        (a = u.address identity ∧ ∀ id, ¬c.Answers u.target identity id) := by
    cases ha
    case here _ _ _ _ _ _ _ waits => exact .inl ((waits a key).mp hw).1
    case away absent _ waits =>
      have hw := (waits a key).mp hw
      unfold Update.Effect at hw
      split at hw
      case h_1 => exact hw.imp_right fun hu => ⟨hu.1, absent⟩
      case h_2 => exact .inl hw.1
  constructor
  case folded =>
    intro a key hm
    obtain hm | ⟨rfl, -⟩ := hw a key hm
    · exact h.folded a key hm
    · exact Text.lower_lower _
  case unanswered =>
    intro a key hm hr id hi
    rw [hk.rules] at hr
    rw [ha.answers_iff hk a.type a.identity id] at hi
    obtain hm | ⟨rfl, hn⟩ := hw a key hm
    · exact h.unanswered a key hm hr id hi
    · have ⟨r, hg, hi⟩ := hi
      exact hn id ⟨r, hg, Resource.answersTo_lower.mp hi⟩

theorem Settled.writes (h : c.Settled) (hw : c.Writes type id r t us c') : c'.Settled := by
  constructor
  case folded => exact fun a key hm => h.folded a key ((hw.waits a key).mp hm).1
  case unanswered =>
    intro a key hm hr i hi
    have ⟨hm, ht⟩ := (hw.waits a key).mp hm
    have ⟨merged, hmerge, hgets, _⟩ := hw.merges
    have hf := h.folded a key hm
    rw [hw.kin.rules] at hr
    unfold Answers at hi
    rw [hw.kin.fieldsOf, hgets] at hi
    have ⟨r', hg, hi⟩ := hi
    split at hg
    case isFalse => exact h.unanswered a key hm hr i ⟨r', hg, hi⟩
    case isTrue he =>
      obtain rfl := Option.some.inj hg
      refine ht ⟨a.relation, he.1 ▸ hr, a.identity, ?_, ?_⟩
      · rw [← Resource.identities_congr hmerge.attributes, ← he.1, ← hf]
        exact hi.mem_identities
      · rw [Address.of, hf, ← he.1]

-- Where resources only go and links only leave the buffer, everything stays settled.
theorem Settled.shrinks (h : c.Settled) (hk : c.Kin c')
    (hb : ∀ a key, c'.buffer.Awaits a key → c.buffer.Awaits a key)
    (hg : ∀ type id r, c'.get? type id = some r → c.get? type id = some r) : c'.Settled where
  folded a key hm := h.folded a key (hb a key hm)
  unanswered a key hm hr id := by
    rintro ⟨r, hi, ha⟩
    exact h.unanswered a key (hb a key hm) (hk.rules ▸ hr) id ⟨r, hg _ _ _ hi, hk.fieldsOf ▸ ha⟩

theorem Settled.change (h : c.Settled) (hs : c.Sound) : c.Change c' → c'.Settled
  | .apply _ _ => (apply_induct hs h fun _ _ _ _ hk _ ha hi => hi.applies hk ha).1
  | .write hw => h.writes (writes_reconcile hs hw)
  | .remove hr =>
    have hr := removes_remove hs hr
    h.shrinks hr.kin (fun _ _ => hr.buffer ▸ id) fun type id r hg => by
      rw [hr.gets] at hg
      split at hg
      case isTrue => simp at hg
      case isFalse => exact hg
  | .evict he =>
    have he := evicts_evict hs he
    h.shrinks he.kin (fun _ _ => he.buffer ▸ id) he.kept
  | .cleanUp _ => h.shrinks ⟨rfl, rfl⟩ (fun _ _ => Buffer.awaits_of_cleanUp) fun _ _ _ => id

theorem Settled.changes (h : c.Settled) (hs : c.Sound) (hc : c.Changes c') : c'.Settled := by
  induction hc
  case refl => exact h
  case tail hc hc' hi => exact hi.change (kin_and_sound_of_changes hs hc).2 hc'

end Cache

namespace Pipeline

theorem settled_start {Outbound : Type} {config : Config} {types : List (Descriptor × List String)}
    {rules : Registry} {outbound : Outbound} :
    (start config types rules outbound).cache.Settled where
  folded a key h := absurd h (not_awaits_start a key)
  unanswered a key h := absurd h (not_awaits_start a key)

-- No link waits for a resource that is cached.
theorem resolve?_waiting_eq_none {Outbound : Type} [Publisher Outbound] (config : Config)
    (types : List (Descriptor × List String)) (rules : Registry) (outbound : Outbound)
    (steps : List Step) (w : Waiting) (store : Store)
    (hw : w ∈ ((start config types rules outbound).run steps).cache.buffer.waiting)
    (hs : ((start config types rules outbound).run steps).cache.store? w.address.type = some store)
    (hr : w.address.relation ∈ rules.inverseRelationsOf w.address.type) :
    store.resolve? w.address.identity = none := by
  have hc := changes_of_moves (moves_run (start config types rules outbound) steps)
  have ⟨hk, hm⟩ := Cache.kin_and_sound_of_changes sound_start hc
  have h := settled_start.changes sound_start hc
  refine (Store.resolve?_eq_none_iff (hm.store? hs)).mpr fun id r hg ha => ?_
  refine h.unanswered _ _ (Buffer.awaits_of_mem hw) (hk.rules ▸ hr) id ⟨r, ?_, ?_⟩
  · rw [Cache.get?_of_store? hs, hg]
  · rwa [Cache.fieldsOf_of_store? hs]

-- Of the two groups of a student, one is cached, and the link waits for the other.
theorem resolve?_waiting_group_eq_none :
    ∃ steps w store,
      w ∈ ((start {} Roster.types (.ofRules (Roster.rules .zeroOrMany)) ()).run
        steps).cache.buffer.waiting ∧
      ((start {} Roster.types (.ofRules (Roster.rules .zeroOrMany)) ()).run
        steps).cache.store? w.address.type = some store ∧
      w.address.relation ∈
        (Registry.ofRules (Roster.rules .zeroOrMany)).inverseRelationsOf w.address.type ∧
      store.resolve? w.address.identity = none := by
  let steps : List Step := [
    .entity ⟨5, 0⟩ (Roster.sent Roster.group "b" [] 1),
    .entity ⟨6, 1⟩ (Roster.sent Roster.student "1" ["a", "b"] 2)]
  let w : Waiting :=
    ⟨.of Roster.group "systemid/a" "member", Roster.link Roster.student "1", 6⟩
  have hw : w ∈ ((start {} Roster.types (.ofRules (Roster.rules .zeroOrMany)) ()).run
      steps).cache.buffer.waiting := by
    decide +kernel
  have ⟨store, hs⟩ : ∃ store, ((start {} Roster.types
      (.ofRules (Roster.rules .zeroOrMany)) ()).run steps).cache.store? w.address.type =
        some store :=
    Option.isSome_iff_exists.mp (by decide +kernel)
  have hr : w.address.relation ∈
      (Registry.ofRules (Roster.rules .zeroOrMany)).inverseRelationsOf w.address.type := by
    decide +kernel
  exact ⟨steps, w, store, hw, hs, hr, resolve?_waiting_eq_none _ _ _ _ steps w store hw hs hr⟩

end Pipeline
end LinkedCache
