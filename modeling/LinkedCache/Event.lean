import LinkedCache.Json.Document
import LinkedCache.Update

-- Inbound events: changes of resources, and relation updates that another component derived.

namespace LinkedCache

inductive SyncKind where
  | full
  | delta
  | delete
deriving DecidableEq, Repr, Inhabited

namespace SyncKind

def word : SyncKind → String
  | full => "FULL"
  | delta => "DELTA"
  | delete => "DELETE"

def label : SyncKind → String
  | full => "full"
  | delta => "delta"
  | delete => "delete"

def all : List SyncKind := [full, delta, delete]

def toValue (k : SyncKind) : Json.Value := .string k.word

def ofValue? : Json.Value → Option SyncKind := Json.Value.enum? word all

end SyncKind

structure SyncMetadata where
  kind : SyncKind
  correlationId : String
  totalSize : Nat
deriving DecidableEq, Repr, Inhabited

namespace SyncMetadata

def toValue (m : SyncMetadata) : Json.Value :=
  .object [("type", m.kind.toValue), ("correlation_id", .string m.correlationId),
    ("total_size", .int m.totalSize)]

def ofValue? (v : Json.Value) : Option SyncMetadata :=
  match v.fields? ["type", "correlation_id", "total_size"] with
  | some [some kind, some correlationId, some totalSize] => do
    pure {
      kind := ← SyncKind.ofValue? kind
      correlationId := ← correlationId.string?
      totalSize := ← totalSize.nat64? }
  | _ => none

end SyncMetadata

-- A change of one resource. Without a payload the resource is deleted.
structure EntityEvent where
  type : Descriptor
  id : String
  payload : Option Json.Value
  timestamp : Int
  sync : Option SyncMetadata
deriving Inhabited

namespace EntityEvent

def ofValue? (v : Json.Value) : Option EntityEvent :=
  match v.fields? ["resource_type", "id", "resource", "timestamp", "sync"] with
  | some [some type, some id, payload, some timestamp, sync] => do
    pure {
      type := ← Descriptor.ofValue? type
      id := ← id.string?
      payload := ← Json.Value.optional some payload
      timestamp := ← timestamp.int64?
      sync := ← Json.Value.optional SyncMetadata.ofValue? sync }
  | _ => none

end EntityEvent

structure RelationEvent where
  orgId : String
  update : Update
deriving DecidableEq, Repr, Inhabited

namespace RelationEvent

def toValue (e : RelationEvent) : Json.Value :=
  match e.update.toValue with
  | .object members => .object (("org_id", .string e.orgId) :: members)
  | v => v

-- The word of the operation with an empty object in place of null, which is read alike here.
def plainOperation : String × Json.Value → String × Json.Value
  | ("operation", .object [(word, .object [])]) => ("operation", .string word)
  | m => m

-- Only an object is an event; its fields cannot be told apart by position.
def ofValue? : Json.Value → Option RelationEvent
  | .object members => do
    let orgId ← (← members.lookup "org_id").string?
    let update ← Update.ofValue? (.object (members.map plainOperation))
    pure ⟨orgId, update⟩
  | _ => none

end RelationEvent
end LinkedCache
