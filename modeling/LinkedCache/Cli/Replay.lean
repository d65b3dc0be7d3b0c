import LinkedCache.Json.Reader
import LinkedCache.Pipeline
import LinkedCache.Text.Blank

-- Event files: one event to a line, as an object whose only key says what kind of event it is.

namespace LinkedCache.Cli

inductive ReplayEvent where
  | entity (e : EntityEvent)
  | relation (e : RelationEvent)
deriving Inhabited

namespace ReplayEvent

open Json (Shape)

def syncShape : Shape :=
  .record true [("type", Schema.wordShape (SyncKind.all.map SyncKind.word)),
    ("correlation_id", .free), ("total_size", .free)]

def entityShape : Shape :=
  .record true [("resource_type", .free), ("id", .free), ("resource", .free),
    ("timestamp", .free), ("sync", syncShape)]

def bindingShape : Shape :=
  .record false [("relation", .free), ("links", .listOf (.record false [("href", .free)]))]

-- The fields of the update stand beside the others, so all of them are read before it is known
-- which of them matter.
def relationShape : Shape :=
  .record false [("org_id", .free), ("target", .free), ("target_ids", .free),
    ("binding", bindingShape),
    ("operation", Schema.wordShape (Operation.all.map Operation.word)), ("timestamp", .free)]

def shape : Shape :=
  .choice [("entity", entityShape), ("relation", relationShape)]

def ofValue? : Json.Value → Option ReplayEvent
  | .object [("entity", v)] => (EntityEvent.ofValue? v).map entity
  | .object [("relation", v)] => (RelationEvent.ofValue? v).map relation
  | _ => none

def read? (line : String) : Option ReplayEvent := do
  let d ← Json.Document.read? line
  let v ← d.select? Json.Document.depthLimit shape
  ofValue? v

end ReplayEvent

variable {Outbound : Type} [Publisher Outbound]

-- Takes in the event of a line. A line that holds none, or an event that is turned down, changes
-- nothing else.
def replayLine (p : Pipeline Outbound) (now : Moment) (line : String) : Pipeline Outbound :=
  match ReplayEvent.read? line with
  | some (.entity e) => (p.processEntity now e).2
  | some (.relation e) => (p.processRelation now e).2
  | none => p

def replay (p : Pipeline Outbound) (now : Moment) (text : String) : Pipeline Outbound :=
  (Text.lines text).foldl (fun p line => replayLine p now line) p

end LinkedCache.Cli
