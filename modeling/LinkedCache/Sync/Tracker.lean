import LinkedCache.Event
import LinkedCache.Sync.Session

-- The runs under way. There is one FULL run for each type at a time, and a newer one overtakes it;
-- DELTA and DELETE runs are told apart by their correlation ids and may go on side by side.

namespace LinkedCache.Sync

inductive RunKey where
  | full (type : Descriptor)
  | keyed (type : Descriptor) (kind : SyncKind) (correlationId : String)
deriving DecidableEq, Repr, Inhabited

namespace RunKey

def ofEvent (type : Descriptor) (m : SyncMetadata) : RunKey :=
  match m.kind with
  | .full => full type
  | kind => keyed type kind m.correlationId

def kind : RunKey → SyncKind
  | full _ => .full
  | keyed _ kind _ => kind

def text : RunKey → String
  | full type => "full:" ++ type.text
  | keyed type kind correlationId => kind.label ++ ":" ++ type.text ++ ":" ++ correlationId

def rank : SyncKind → Nat
  | .full => 0
  | .delta => 1
  | .delete => 2

def compare : RunKey → RunKey → Ordering
  | full a, full b => a.compare b
  | full _, keyed .. => .lt
  | keyed .., full _ => .gt
  | keyed a k i, keyed b l j =>
    (a.compare b).then ((Ord.compare (rank k) (rank l)).then (Ord.compare i j))

end RunKey

inductive Outcome where
  | started
  | incremented
  -- The run is complete. Of a FULL run the earliest timestamp is given: what is older than that was
  -- not delivered by it.
  | completed (evictBefore : Option Int)
  | resourceNameChanged
  | totalSizeChanged
  | concurrentFullSync (superseded : String)
  | rejected
  | untracked
deriving DecidableEq, Repr, Inhabited

namespace Outcome

def word : Outcome → String
  | started => "started"
  | incremented => "incremented"
  | completed _ => "completed"
  | resourceNameChanged => "resource_name_changed"
  | totalSizeChanged => "total_size_changed"
  | concurrentFullSync _ => "concurrent_full_sync"
  | rejected => "rejected"
  | untracked => "untracked"

def evictBefore? : Outcome → Option Int
  | completed cutoff => cutoff
  | _ => none

end Outcome

structure Status where
  key : RunKey
  phase : Phase
  progress : Progress
deriving DecidableEq, Repr, Inhabited

structure Tracker where
  active : List (RunKey × Session) := []
  -- The FULL runs of each type that were overtaken, oldest first.
  superseded : List (Descriptor × List String) := []
deriving DecidableEq, Repr, Inhabited

namespace Tracker

def memory : Nat := 32

def size (t : Tracker) : Nat := t.active.length

def session? (t : Tracker) (key : RunKey) : Option Session :=
  t.active.lookup key

def supersededOf (t : Tracker) (type : Descriptor) : List String :=
  (t.superseded.lookup type).getD []

def drop (t : Tracker) (key : RunKey) : Tracker :=
  { t with active := t.active.filter (·.1 != key) }

def keep (t : Tracker) (key : RunKey) (s : Session) : Tracker :=
  { t with active := (t.active.filter (·.1 != key)) ++ [(key, s)] }

-- Remembers an overtaken run of a type, and forgets the oldest ones beyond the limit.
def remember (t : Tracker) (type : Descriptor) (correlationId : String) : Tracker :=
  let ids := t.supersededOf type ++ [correlationId]
  { t with
    superseded :=
      (t.superseded.filter (·.1 != type)) ++ [(type, ids.drop (ids.length - memory))] }

def overtakenBy? (t : Tracker) (type : Descriptor) (m : SyncMetadata) : Option String :=
  match m.kind, (t.session? (.full type)).bind Session.progress? with
  | .full, some p => if p.correlationId = m.correlationId then none else some p.correlationId
  | _, _ => none

-- The state in which an event finds the tracker: without the run that it overtakes.
def makeWay (t : Tracker) (type : Descriptor) (m : SyncMetadata) : Tracker :=
  match t.overtakenBy? type m with
  | some old => (t.drop (.full type)).remember type old
  | none => t

def rejects (t : Tracker) (type : Descriptor) (m : SyncMetadata) : Bool :=
  m.kind == .full && (t.supersededOf type).contains m.correlationId

def answer (before : Option Session) (phase : Phase) : Outcome :=
  match phase with
  | .inProgress => if before.isNone then .started else .incremented
  | .completed => .completed none
  | .resourceNameChanged => .resourceNameChanged
  | .totalSizeChanged => .totalSizeChanged
  | .failedAndUntracked | .concurrentFullSync => .untracked

def record (t : Tracker) (type : Descriptor) (m : SyncMetadata) (timestamp : Int) :
    Outcome × Tracker :=
  if t.rejects type m then (.rejected, t)
  else
    let key := RunKey.ofEvent type m
    let replaced := t.overtakenBy? type m
    let t := t.makeWay type m
    let before := t.session? key
    match (before.getD .init).next ⟨type.name, m.correlationId, m.totalSize, timestamp⟩ with
    | .init => (.untracked, t.drop key)
    | .run .completed p =>
      (.completed (if m.kind = .full then some p.startedAt else none), t.drop key)
    | .run phase p =>
      -- A failed run is dropped by the event that reaches its size.
      if answer before phase = .untracked ∧ p.totalSize ≤ p.processed then
        (.untracked, t.drop key)
      else
        (match replaced with
          | some old => .concurrentFullSync old
          | none => answer before phase,
        t.keep key (.run phase p))

def statuses (t : Tracker) : List Status :=
  (t.active.mergeSort fun a b => (a.1.compare b.1).isLE).filterMap fun (key, s) =>
    match s with
    | .init => none
    | .run phase p => some ⟨key, phase, p⟩

end Tracker
end LinkedCache.Sync
