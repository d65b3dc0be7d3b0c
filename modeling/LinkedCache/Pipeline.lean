import LinkedCache.Query
import LinkedCache.Reconcile
import LinkedCache.Router
import LinkedCache.Schema
import LinkedCache.Sync.Tracker

-- The pipeline takes events in, keeps the cache in step with them, and answers questions about it.

namespace LinkedCache

inductive Failure where
  | conversion (detail : String)
  | notFound (detail : String)
  | validation (detail : String)
  | ignored (detail : String)
  | internal (detail : String)
deriving DecidableEq, Repr

namespace Failure

def kind : Failure → String
  | conversion _ => "conversion"
  | notFound _ => "not_found"
  | validation _ => "validation"
  | ignored _ => "ignored"
  | internal _ => "internal"

def detail : Failure → String
  | conversion d | notFound d | validation d | ignored d | internal d => d

def message (f : Failure) : String :=
  f.kind ++ ": " ++ f.detail

def tag : Failure → String
  | conversion _ => "Conversion"
  | notFound _ => "NotFound"
  | validation _ => "Validation"
  | ignored _ => "Ignored"
  | internal _ => "Internal"

def toValue (f : Failure) : Json.Value :=
  .object [(f.tag, .string f.detail)]

def noStore (type : String) : Failure :=
  notFound ("no store for " ++ type)

def ofError : Error → Failure
  | .conversion detail => conversion detail
  | .unknownResource type => noStore type
  | e => validation e.message

end Failure

-- A point in time, in milliseconds: on the wall clock since the epoch, and on the clock by which
-- retries are scheduled.
structure Moment where
  wall : Int
  ticks : Nat
deriving DecidableEq, Repr, Inhabited

structure Pipeline (Outbound : Type) where
  config : Config
  router : Router Outbound
  retry : Retry.Queue := {}
  sync : Sync.Tracker := {}

structure EntityOutcome where
  derived : Nat
  evicted : Nat
  sync : Option Sync.Outcome
deriving DecidableEq, Repr, Inhabited

namespace Pipeline

variable {Outbound : Type}

def ofSchema (config : Config) (schema : Schema) (outbound : Outbound) : Pipeline Outbound :=
  let cache := Cache.ofTypes (schema.cachedTypes config.domain config.package)
    (1000 * config.bufferRetentionSecs)
  { config, router := { cache := { cache with rules := Registry.ofRules schema.rules }, outbound } }

def cache (p : Pipeline Outbound) : Cache := p.router.cache

def withCache (p : Pipeline Outbound) (cache : Cache) : Pipeline Outbound :=
  { p with router := { p.router with cache } }

def installRules (p : Pipeline Outbound) (schema : Schema) : Pipeline Outbound :=
  p.withCache { p.cache with rules := Registry.ofRules schema.rules }

def policy (p : Pipeline Outbound) : Retry.Policy :=
  Retry.Policy.ofConfig p.config

section Dispatch

variable [Publisher Outbound]

-- Routes an update, and queues it for another try if it could not be done.
def dispatch (p : Pipeline Outbound) (now : Moment) (u : Update) : Route × Pipeline Outbound :=
  let (answer, router) := p.router.route u now.wall
  let p := { p with router }
  match answer with
  | .ok .buffered | .error _ =>
    (.buffered, { p with retry := p.retry.enqueue p.policy now.ticks u })
  | .ok route => (route, { p with retry := p.retry.noteApplied u })

def dispatchAll (p : Pipeline Outbound) (now : Moment) (us : List Update) : Pipeline Outbound :=
  us.foldl (fun p u => (p.dispatch now u).2) p

-- Drops the entries of a type written before a time, and withdraws their links. Returns their
-- number.
def evict (p : Pipeline Outbound) (now : Moment) (type : Descriptor) (cutoff : Int) :
    Except Failure (Nat × Pipeline Outbound) :=
  match p.cache.evict type cutoff with
  | .error e => .error (.ofError e)
  | .ok (entries, cache) =>
    .ok (entries.length, entries.foldl (fun p e =>
      p.dispatchAll now (p.cache.removalUpdates type e.resource cutoff)) (p.withCache cache))

def write (p : Pipeline Outbound) (e : EntityEvent) : Except Error (List Update × Cache) :=
  match e.payload with
  | none => p.cache.remove e.type e.id e.timestamp
  | some payload => do
    let r ← Resource.ofValue payload
    p.cache.reconcile e.type e.id r e.timestamp

-- Counts an event towards its run, and evicts what a complete FULL run did not deliver.
def advanceRun (p : Pipeline Outbound) (now : Moment) (e : EntityEvent) :
    Nat × Option Sync.Outcome × Pipeline Outbound :=
  match e.sync with
  | none => (0, none, p)
  | some m =>
    let (outcome, sync) := p.sync.record e.type m e.timestamp
    let p := { p with sync }
    match outcome.evictBefore? with
    | none => (0, some outcome, p)
    | some cutoff =>
      match p.evict now e.type cutoff with
      | .ok (n, p) => (n, some outcome, p)
      | .error _ => (0, some outcome, p)

-- Takes in an event about a resource. A payload that is no resource is not written, but its event
-- counts towards its run; the error is reported afterwards.
def processEntity (p : Pipeline Outbound) (now : Moment) (e : EntityEvent) :
    Except Failure EntityOutcome × Pipeline Outbound :=
  if p.cache.contains e.type then
    match p.write e with
    | .ok (updates, cache) =>
      let p := (p.withCache cache).dispatchAll now updates
      let (evicted, sync, p) := p.advanceRun now e
      (.ok { derived := updates.length, evicted, sync }, p)
    | .error err =>
      let (_, _, p) := p.advanceRun now e
      (.error (.ofError err), p)
  else (.error (.noStore e.type.text), p)

def refusal? (p : Pipeline Outbound) (e : RelationEvent) : Option Failure :=
  let c := p.config
  let target := e.update.target
  if !c.domain.isEmpty && !target.sameComponent c.domain c.package then
    some (.ignored (target.text ++ " is not served by " ++ c.domain ++ "/" ++ c.package))
  else if !c.orgId.isEmpty && e.orgId != c.orgId then
    some (.ignored ("org " ++ e.orgId ++ " is not " ++ c.orgId))
  else if !p.cache.contains target then some (.noStore target.text)
  else none

-- Takes in a relation update from elsewhere. Without a timestamp it is from now.
def processRelation (p : Pipeline Outbound) (now : Moment) (e : RelationEvent) :
    Except Failure Route × Pipeline Outbound :=
  match p.refusal? e with
  | some f => (.error f, p)
  | none =>
    let u := e.update
    let u := if u.timestamp = 0 then { u with timestamp := now.wall } else u
    let (route, p) := p.dispatch now u
    (.ok route, p)

-- The worker delivers through the router and lays dead letters down in the order in which it gives
-- updates up.
def delivery (wall : Int) : Retry.Delivery (Router Outbound × List Retry.DeadLetter) where
  deliver _ u w :=
    let (error, router) := w.1.redeliver u wall
    (error, router, w.2)
  bury _ letter w := (w.1, w.2 ++ [letter])

-- One pass of the retry worker.
def pass (p : Pipeline Outbound) (now : Moment) : List Retry.DeadLetter × Pipeline Outbound :=
  let (retry, router, letters) :=
    Retry.Worker.pass p.policy (delivery now.wall) now.ticks p.retry (p.router, [])
  (letters, { p with retry, router })

-- The passes of the retry worker while time goes on from `now` to `horizon`.
def work (p : Pipeline Outbound) (now : Moment) (horizon : Nat) :
    List Retry.DeadLetter × Pipeline Outbound :=
  let (retry, router, letters) :=
    Retry.Worker.run p.policy (delivery now.wall) horizon now.ticks p.retry (p.router, [])
  (letters, { p with retry, router })

end Dispatch

def get (p : Pipeline Outbound) (type : Descriptor) (id : String) : Except Failure Resource :=
  match p.cache.store? type with
  | none => .error (.noStore type.text)
  | some store =>
    match store.get? id with
    | some r => .ok r
    | none => .error (.notFound (type.text ++ " " ++ id))

def getByField (p : Pipeline Outbound) (type : Descriptor) (field value : String) :
    Except Failure Resource :=
  match p.cache.store? type with
  | none => .error (.noStore type.text)
  | some store =>
    match store.getByField? field value with
    | some r => .ok r
    | none => .error (.notFound (type.text ++ " " ++ field ++ "=" ++ value))

def search (p : Pipeline Outbound) (type : Descriptor) (query : String) (size offset : Nat)
    (since : Int) : Except Failure (List Resource) :=
  match p.cache.store? type with
  | none => .error (.noStore type.text)
  | some store => .ok (store.list size offset since (Query.parse query).holds)

def cleanUp (p : Pipeline Outbound) (now : Moment) : Pipeline Outbound :=
  p.withCache { p.cache with buffer := p.cache.buffer.cleanUp now.wall }

structure StoreStats where
  type : Descriptor
  entries : Nat
  lastUpdated : Int
deriving DecidableEq, Repr, Inhabited

structure Stats where
  stores : List StoreStats
  rules : Nat
  bufferedLinks : Nat
  retryPending : Nat
  lockEntries : Nat
  sessions : List Sync.Status
  config : Config
deriving Repr, Inhabited

def stats (p : Pipeline Outbound) : Stats where
  stores := p.cache.types.filterMap fun type =>
    (p.cache.store? type).map fun s => ⟨type, s.size, s.lastUpdated⟩
  rules := p.cache.rules.ruleCount
  bufferedLinks := p.cache.buffer.size
  retryPending := p.retry.size
  lockEntries := p.cache.locks.size
  sessions := p.sync.statuses
  config := p.config

end Pipeline
end LinkedCache
