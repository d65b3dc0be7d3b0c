import LinkedCache.Retry.Queue

-- What becomes of one update that was enqueued: the attempts that are made for it, and how it comes
-- to an end.

namespace LinkedCache.Retry

structure Trial where
  time : Nat
  attempt : Nat
  error : Option String
deriving DecidableEq

inductive Entry where
  | tried (trial : Trial)
  | buried (letter : DeadLetter)
  | superseded
deriving DecidableEq

namespace Entry

def trial? : Entry → Option Trial
  | tried trial => some trial
  | buried _ | superseded => none

-- An update is done with when it is delivered, given up or superseded.
def ends : Entry → Bool
  | tried trial => trial.error.isNone
  | buried _ | superseded => true

end Entry

-- An update, the time at which it was enqueued and what happened to it since.
structure Account where
  time : Nat
  update : Update
  entries : List Entry := []
deriving DecidableEq

namespace Account

def isOpen (a : Account) : Bool :=
  a.entries.all (!·.ends)

def trials (a : Account) : List Trial :=
  a.entries.filterMap Entry.trial?

def times (a : Account) : List Nat :=
  a.time :: a.trials.map (·.time)

theorem times_ne_nil (a : Account) : a.times ≠ [] :=
  List.cons_ne_nil _ _

-- The time from which the next attempt may be made.
def nextDue (policy : Policy) (a : Account) : Nat :=
  a.times.getLast a.times_ne_nil + policy.delay a.times.length

def enter (a : Account) (entries : List Entry) : Account :=
  { a with entries := a.entries ++ entries }

def supersede (key : String) (a : Account) : Account :=
  if a.isOpen ∧ a.update.supersedeKey = key then a.enter [.superseded] else a

variable {a : Account} {policy : Policy} {key : String} {entry : Entry} {entries : List Entry}
  {letter : DeadLetter} {t : Trial} {now : Nat} {error : String}

theorem enter_cons : a.enter (entry :: entries) = (a.enter [entry]).enter entries := by
  simp [enter]

@[simp]
theorem isOpen_enter : (a.enter entries).isOpen = (a.isOpen && entries.all (!·.ends)) :=
  List.all_append

@[simp]
theorem trials_enter : (a.enter entries).trials = a.trials ++ entries.filterMap Entry.trial? :=
  List.filterMap_append

@[simp]
theorem times_enter : (a.enter entries).times =
    a.times ++ (entries.filterMap Entry.trial?).map (·.time) := by
  simp only [times, trials_enter, List.map_append, List.cons_append]
  rfl

@[simp]
theorem update_supersede : (a.supersede key).update = a.update := by
  unfold supersede
  split <;> rfl

@[simp]
theorem time_supersede : (a.supersede key).time = a.time := by
  unfold supersede
  split <;> rfl

@[simp]
theorem trials_supersede : (a.supersede key).trials = a.trials := by
  unfold supersede
  split <;> simp [Entry.trial?]

@[simp]
theorem isOpen_supersede :
    (a.supersede key).isOpen ↔ a.isOpen ∧ a.update.supersedeKey ≠ key := by
  unfold supersede
  by_cases hk : a.update.supersedeKey = key <;> cases ho : a.isOpen <;> simp [hk, ho, Entry.ends]

@[simp]
theorem nextDue_supersede : (a.supersede key).nextDue policy = a.nextDue policy := by
  simp [nextDue, times]

theorem nextDue_eq {k earlier : Nat} (hk : k + 1 = a.times.length)
    (he : a.times[k]? = some earlier) : a.nextDue policy = earlier + policy.delay (k + 1) := by
  have hl := List.getLast?_eq_getElem? (l := a.times)
  rw [← hk, Nat.add_sub_cancel, he, List.getLast?_eq_some_getLast a.times_ne_nil] at hl
  rw [nextDue, hk, Option.some.inj hl]

theorem length_times : a.times.length = a.trials.length + 1 := by
  simp [times]

theorem ends_of_isOpen (h : a.isOpen) (hm : entry ∈ a.entries) : ¬entry.ends := by
  simpa using List.all_eq_true.mp h entry hm

theorem error_of_isOpen (h : a.isOpen) (ht : t ∈ a.trials) : t.error.isSome := by
  have ⟨entry, hm, he⟩ := List.mem_filterMap.mp ht
  cases entry <;> cases he
  simpa [Entry.ends, ← Option.isSome_iff_ne_none] using ends_of_isOpen h hm

-- An account that is in order. The attempts were made one by one, none too early and not too many,
-- and nothing happened after the end. What was given up failed as often as is allowed.
structure Regular (policy : Policy) (a : Account) : Prop where
  attempts : a.trials.map (·.attempt) = List.range' 1 a.trials.length
  atMost : a.trials.length ≤ policy.maxAttempts
  waits : ∀ k earlier later, a.times[k]? = some earlier → a.times[k + 1]? = some later →
    earlier + policy.delay (k + 1) ≤ later
  ends : ∀ entry ∈ a.entries.dropLast, ¬entry.ends
  buried : ∀ letter, .buried letter ∈ a.entries → letter.update = a.update ∧
    letter.attempts = policy.maxAttempts ∧ a.trials.length = policy.maxAttempts ∧
    (∀ t ∈ a.trials, t.error.isSome) ∧ a.trials.getLast?.bind (·.error) = some letter.error

theorem regular_start (policy : Policy) (time : Nat) (u : Update) :
    (Account.mk time u []).Regular policy where
  attempts := rfl
  atMost := Nat.zero_le _
  waits k earlier later _ hl := by simp [times, trials] at hl
  ends := by simp
  buried := by simp

-- An open account stays in order when it is ended by something other than an attempt.
theorem Regular.close (h : a.Regular policy) (ho : a.isOpen) (hn : entry.trial? = none)
    (hb : ∀ letter, entry = .buried letter → letter.update = a.update ∧
      letter.attempts = policy.maxAttempts ∧ a.trials.length = policy.maxAttempts ∧
      a.trials.getLast?.bind (·.error) = some letter.error) :
    (a.enter [entry]).Regular policy := by
  have ht : (a.enter [entry]).trials = a.trials := by simp [hn]
  have htimes : (a.enter [entry]).times = a.times := by simp [hn]
  constructor
  case attempts => rw [ht, h.attempts]
  case atMost => rw [ht]; exact h.atMost
  case waits => rw [htimes]; exact h.waits
  case ends =>
    intro e hm
    rw [enter, List.dropLast_concat] at hm
    exact ends_of_isOpen ho hm
  case buried =>
    intro letter hm
    rw [ht]
    obtain hm | hm := List.mem_append.mp hm
    · exact absurd rfl (ends_of_isOpen ho hm)
    · have ⟨hu, hl, hmax, he⟩ := hb letter (List.mem_singleton.mp hm).symm
      exact ⟨hu, hl, hmax, fun _ => error_of_isOpen ho, he⟩

theorem Regular.supersede (h : a.Regular policy) (key : String) :
    (a.supersede key).Regular policy := by
  unfold Account.supersede
  split
  case isTrue ho => exact h.close ho.1 rfl nofun
  case isFalse => exact h

theorem Regular.bury (h : a.Regular policy) (ho : a.isOpen)
    (hn : a.trials.length = policy.maxAttempts)
    (he : a.trials.getLast?.bind (·.error) = some error) :
    (a.enter [.buried ⟨a.update, policy.maxAttempts, error⟩]).Regular policy :=
  h.close ho rfl fun _ hb => Entry.buried.inj hb ▸ ⟨rfl, rfl, hn, he⟩

theorem Regular.tried (h : a.Regular policy) (ho : a.isOpen)
    (hn : a.trials.length < policy.maxAttempts) (hd : a.nextDue policy ≤ now)
    (error : Option String) :
    (a.enter [.tried ⟨now, a.trials.length + 1, error⟩]).Regular policy := by
  have ht : (a.enter [.tried ⟨now, a.trials.length + 1, error⟩]).trials =
      a.trials ++ [⟨now, a.trials.length + 1, error⟩] := by
    simp [Entry.trial?]
  have htimes : (a.enter [.tried ⟨now, a.trials.length + 1, error⟩]).times = a.times ++ [now] := by
    simp [Entry.trial?]
  constructor
  case attempts =>
    rw [ht, List.map_append, h.attempts, List.length_append, List.length_singleton,
      List.range'_concat, Nat.one_mul, Nat.add_comm]
    rfl
  case atMost =>
    rw [ht, List.length_append]
    exact hn
  case waits =>
    intro k earlier later he hl
    rw [htimes] at he hl
    have hk := (List.getElem?_eq_some_iff.mp hl).1
    rw [List.length_append, List.length_singleton] at hk
    rw [List.getElem?_append_left (Nat.lt_of_succ_lt_succ hk)] at he
    obtain hk | hk := Nat.lt_or_eq_of_le (Nat.le_of_lt_succ hk)
    · rw [List.getElem?_append_left hk] at hl
      exact h.waits k earlier later he hl
    · rw [hk, List.getElem?_concat_length] at hl
      rw [← nextDue_eq hk he]
      exact Option.some.inj hl ▸ hd
  case ends =>
    intro e hm
    rw [enter, List.dropLast_concat] at hm
    exact ends_of_isOpen ho hm
  case buried =>
    intro letter hm
    obtain hm | hm := List.mem_append.mp hm
    · exact absurd rfl (ends_of_isOpen ho hm)
    · cases List.mem_singleton.mp hm

end Account
end LinkedCache.Retry
