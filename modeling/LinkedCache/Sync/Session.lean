namespace LinkedCache.Sync

structure Progress where
  resource : String
  correlationId : String
  totalSize : Nat
  processed : Nat
  -- The smallest timestamp of the run.
  startedAt : Int
deriving DecidableEq, Repr, Inhabited

structure Input where
  resource : String
  correlationId : String
  totalSize : Nat
  timestamp : Int
deriving DecidableEq, Repr, Inhabited

inductive Phase where
  | inProgress
  | completed
  -- The latest event named another resource.
  | resourceNameChanged
  -- The latest event declared another size.
  | totalSizeChanged
  -- An event came after one of these failures.
  | failedAndUntracked
  -- Another run of the same type overtook this one.
  | concurrentFullSync
deriving DecidableEq, Repr, Inhabited

namespace Phase

def word : Phase → String
  | inProgress => "in_progress"
  | completed => "completed"
  | resourceNameChanged => "resource_name_changed"
  | totalSizeChanged => "total_size_changed"
  | failedAndUntracked => "failed_and_untracked"
  | concurrentFullSync => "concurrent_full_sync"

def isFailed : Phase → Bool
  | resourceNameChanged | totalSizeChanged | failedAndUntracked => true
  | inProgress | completed | concurrentFullSync => false

end Phase

inductive Session where
  | init
  | run (phase : Phase) (progress : Progress)
deriving DecidableEq, Repr, Inhabited

namespace Session

def word : Session → String
  | init => "init"
  | run phase _ => phase.word

def progress? : Session → Option Progress
  | init => none
  | run _ p => some p

def isFailed : Session → Bool
  | init => false
  | run phase _ => phase.isFailed

def overtaken : Session → Session
  | init => init
  | run _ p => run .concurrentFullSync p

-- A run is complete as soon as it has seen as many events as it declares.
def counted (p : Progress) : Session :=
  run (if p.totalSize ≤ p.processed then .completed else .inProgress) p

def start (i : Input) : Session :=
  counted ⟨i.resource, i.correlationId, i.totalSize, 1, i.timestamp⟩

-- A further event of a run in progress. It is counted even where it contradicts the first one; of
-- two contradictions the other resource counts.
def advance (p : Progress) (i : Input) : Session :=
  let p := { p with processed := p.processed + 1, startedAt := min p.startedAt i.timestamp }
  if p.resource ≠ i.resource then run .resourceNameChanged p
  else if p.totalSize ≠ i.totalSize then run .totalSizeChanged p
  else counted p

-- The session after one more event. A run that failed or was overtaken only counts.
def next (s : Session) (i : Input) : Session :=
  match s with
  | init | run .completed _ => start i
  | run .inProgress p => advance p i
  | run .concurrentFullSync p => run .concurrentFullSync { p with processed := p.processed + 1 }
  | run _ p => run .failedAndUntracked { p with processed := p.processed + 1 }

end Session
end LinkedCache.Sync
