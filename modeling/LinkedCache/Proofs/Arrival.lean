import LinkedCache.Proofs.Derivation
import LinkedCache.Proofs.Run

-- The resources that events bring.

namespace LinkedCache

-- A resource that was sent.
structure Arrival where
  type : Descriptor
  id : String
  resource : Resource
  timestamp : Int

namespace EntityEvent

def arrival? (e : EntityEvent) : Option Arrival := do
  let r ← (Resource.ofValue (← e.payload)).toOption
  pure ⟨e.type, e.id, r, e.timestamp⟩

theorem arrival?_eq_some {e : EntityEvent} {a : Arrival} (h : e.arrival? = some a) :
    a.type = e.type ∧ a.id = e.id ∧ a.timestamp = e.timestamp ∧
      ∃ payload, e.payload = some payload ∧ Resource.ofValue payload = .ok a.resource := by
  unfold arrival? at h
  cases hp : e.payload
  case none => simp [hp] at h
  case some payload =>
    cases hr : Resource.ofValue payload
    case error => simp [hp, hr, Except.toOption] at h
    case ok r =>
      simp only [hp, hr, Except.toOption, Option.bind_eq_bind, Option.bind_some, Option.pure_def,
        Option.some.injEq] at h
      cases h
      exact ⟨rfl, rfl, rfl, payload, rfl, hr⟩

end EntityEvent

namespace Pipeline

variable {Outbound : Type} {p : Pipeline Outbound} {a : Arrival} {e : EntityEvent}

-- The resources that a run sends.
def arrivals (steps : List Step) : List Arrival :=
  steps.filterMap fun
    | .entity _ e => e.arrival?
    | _ => none

theorem arrivals_cons (s : Step) (steps : List Step) :
    arrivals (s :: steps) = arrivals [s] ++ arrivals steps :=
  List.filterMap_append (l := [s])

-- An event that does not fail removes a resource, or brings one.
theorem remove_or_reconcile_of_write {us : List Update} {c : Cache}
    (h : p.write e = .ok (us, c)) :
    (e.payload = none ∧ p.cache.remove e.type e.id e.timestamp = .ok (us, c)) ∨
    ∃ a, e.arrival? = some a ∧
      p.cache.reconcile a.type a.id a.resource a.timestamp = .ok (us, c) := by
  unfold write at h
  split at h
  case h_1 hp => exact .inl ⟨hp, h⟩
  case h_2 payload hp =>
    cases hr : Resource.ofValue payload
    case error => simp [hr, bind, Except.bind] at h
    case ok r =>
      rw [hr] at h
      exact .inr ⟨⟨e.type, e.id, r, e.timestamp⟩,
        by simp [EntityEvent.arrival?, hp, hr, Except.toOption], h⟩

theorem contains_of_arrival {c : Cache} (hk : c.Kin p.cache) (ha : e.arrival? = some a)
    (hc : p.cache.contains e.type) : c.contains a.type := by
  rw [(EntityEvent.arrival?_eq_some ha).1, ← hk.contains]
  exact hc

theorem write_arrival (ha : e.arrival? = some a) (hc : p.cache.contains e.type) :
    ∃ us c, p.write e = .ok (us, c) ∧
      p.cache.reconcile a.type a.id a.resource a.timestamp = .ok (us, c) := by
  have ⟨ht, hi, htime, _, hpay, hres⟩ := EntityEvent.arrival?_eq_some ha
  have ⟨us, c, hr⟩ := Cache.exists_reconcile hc e.id a.resource e.timestamp
  refine ⟨us, c, ?_, ht ▸ hi ▸ htime ▸ hr⟩
  unfold write
  rw [hpay]
  simp only [hres, bind, Except.bind, hr]

end Pipeline
end LinkedCache
