import LinkedCache.Pipeline

-- A pipeline at work: with a channel for published updates, a clock, and a worker that retries what
-- waits and leaves dead letters in a channel of their own.

namespace LinkedCache

structure Node where
  pipeline : Pipeline (Channel Update)
  deadLetters : Channel Retry.DeadLetter := Channel.ofCapacity 1
  working : Bool := false
  now : Moment

namespace Node

def work (n : Node) (ticks : Nat) : Node :=
  if n.working then
    let (letters, pipeline) := n.pipeline.work n.now ticks
    { n with pipeline, deadLetters := letters.foldl Channel.offer n.deadLetters }
  else n

-- Starts the worker with an empty channel for dead letters. What is overdue is tried at once.
def start (n : Node) (capacity : Nat) : Node :=
  { n with deadLetters := Channel.ofCapacity capacity, working := true }.work n.now.ticks

def stop (n : Node) : Node :=
  { n with working := false }

def advance (n : Node) (ms : Nat) : Node :=
  let ticks := n.now.ticks + ms
  let n := n.work ticks
  { n with now := { n.now with ticks } }

def takeDeadLetters (n : Node) : List Retry.DeadLetter × Node :=
  (n.deadLetters.waiting, { n with deadLetters := n.deadLetters.drained })

def withOutbound (n : Node) (outbound : Channel Update) : Node :=
  { n with pipeline := { n.pipeline with router := { n.pipeline.router with outbound } } }

def takePublished (n : Node) : List Update × Node :=
  let c := n.pipeline.router.outbound
  (c.waiting, n.withOutbound c.drained)

def closeOutbound (n : Node) : Node :=
  n.withOutbound n.pipeline.router.outbound.close

def processEntity (n : Node) (e : EntityEvent) : Except Failure EntityOutcome × Node :=
  let (answer, pipeline) := n.pipeline.processEntity n.now e
  (answer, { n with pipeline })

def processRelation (n : Node) (e : RelationEvent) : Except Failure Route × Node :=
  let (answer, pipeline) := n.pipeline.processRelation n.now e
  (answer, { n with pipeline })

-- Takes in events without looking at the answers: first those about resources, then relation
-- updates.
def consume (n : Node) (entities : List EntityEvent) (relations : List RelationEvent) : Node :=
  let n := entities.foldl (fun n e => (n.processEntity e).2) n
  relations.foldl (fun n e => (n.processRelation e).2) n

end Node
end LinkedCache
