import LinkedCache.Assoc
import LinkedCache.Retry.Policy
import LinkedCache.Update

-- Updates that wait for another delivery. Each carries the number under which it was enqueued; an
-- update whose key was enqueued again since, or delivered by other means, is obsolete, and is
-- dropped when it comes due.

namespace LinkedCache.Retry

structure Scheduled where
  due : Nat
  seq : Nat
  attempt : Nat
  key : String
  update : Update
deriving DecidableEq, Repr, Inhabited

structure DeadLetter where
  update : Update
  attempts : Nat
  error : String
deriving DecidableEq, Repr, Inhabited

structure Queue where
  pending : List Scheduled := []
  latest : List (String × Nat) := []
  nextSeq : Nat := 0
deriving DecidableEq, Repr, Inhabited

namespace Queue

def size (q : Queue) : Nat := q.latest.length

def isLive (q : Queue) (item : Scheduled) : Bool :=
  q.latest.lookup item.key == some item.seq

-- Schedules the first attempt for an update. What waits under the same key becomes obsolete.
def enqueue (q : Queue) (policy : Policy) (now : Nat) (u : Update) : Queue :=
  let item : Scheduled :=
    { due := now + policy.delay 1, seq := q.nextSeq, attempt := 1
      key := u.supersedeKey, update := u }
  { pending := q.pending ++ [item]
    latest := Assoc.insert item.key item.seq q.latest
    nextSeq := q.nextSeq + 1 }

-- Makes obsolete what waits under the key of an update that took effect by other means.
def noteApplied (q : Queue) (u : Update) : Queue :=
  { q with latest := Assoc.erase u.supersedeKey q.latest }

def earlier (a b : Scheduled) : Bool :=
  decide (a.due < b.due) || (a.due == b.due && decide (a.seq ≤ b.seq))

def due (q : Queue) (now : Nat) : List Scheduled :=
  (q.pending.filter fun item => decide (item.due ≤ now)).mergeSort earlier

def withoutDue (q : Queue) (now : Nat) : Queue :=
  { q with pending := q.pending.filter fun item => decide (now < item.due) }

def finish (q : Queue) (item : Scheduled) : Queue :=
  if q.isLive item then { q with latest := Assoc.erase item.key q.latest } else q

-- Schedules the next attempt. The update keeps its number.
def reschedule (q : Queue) (policy : Policy) (now : Nat) (item : Scheduled) : Queue :=
  let attempt := item.attempt + 1
  { q with pending := q.pending ++ [{ item with due := now + policy.delay attempt, attempt }] }

-- Accounts for a delivery that succeeded, or that failed with an error. After the last attempt the
-- update is given up.
def settle (q : Queue) (policy : Policy) (now : Nat) (item : Scheduled) :
    Option String → Queue × Option DeadLetter
  | none => (q.finish item, none)
  | some error =>
    if item.attempt < policy.maxAttempts then (q.reschedule policy now item, none)
    else (q.finish item, some ⟨item.update, item.attempt, error⟩)

def nextDue? (q : Queue) : Option Nat :=
  (q.pending.map (·.due)).min?

def workload (q : Queue) (policy : Policy) : Nat :=
  q.pending.foldr (fun item n => (policy.maxAttempts - item.attempt + 1) + n) 0

end Queue
end LinkedCache.Retry
