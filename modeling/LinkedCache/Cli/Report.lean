import LinkedCache.Json.Writer
import LinkedCache.Pipeline

-- What the command line prints: rules, resources and statistics, as tables or as JSON.

namespace LinkedCache.Cli

inductive Format where
  | human
  | json
deriving DecidableEq, Repr, Inhabited

def row (cells : List String) : String :=
  String.intercalate "\t" cells

def yesNo (b : Bool) : String :=
  if b then "true" else "false"

def rulesReport (rules : List (Descriptor × Rule)) : Format → List String
  | .human =>
    row ["TRIGGER", "RELATION", "TARGET", "INVERSE", "PRUNE"] :: rules.map fun (type, r) =>
      row [type.text, r.relation, r.target.text, r.inverse, yesNo r.prunes]
  | .json =>
    (Json.Value.array (rules.map fun (type, r) =>
      .object [("trigger", type.toValue), ("rule", r.toValue)])).sorted.lines

def resourcesReport (rs : List Resource) : Format → List String
  | .human => rs.map fun r => r.toValue.sorted.compact
  | .json => (Json.Value.array (rs.map Resource.toValue)).sorted.lines

def statusValue (s : Sync.Status) : Json.Value :=
  .object [("key", .string s.key.text), ("phase", .string s.phase.word),
    ("correlation_id", .string s.progress.correlationId),
    ("processed", .int s.progress.processed), ("total_size", .int s.progress.totalSize),
    ("started_at", .int s.progress.startedAt)]

def storeValue (s : Pipeline.StoreStats) : Json.Value :=
  .object [("resource", s.type.toValue), ("entries", .int s.entries),
    ("last_updated", .int s.lastUpdated)]

def statsValue (s : Pipeline.Stats) : Json.Value :=
  .object [("stores", .array (s.stores.map storeValue)), ("rules", .int s.rules),
    ("buffered_links", .int s.bufferedLinks), ("retry_pending", .int s.retryPending),
    ("lock_entries", .int s.lockEntries), ("sessions", .array (s.sessions.map statusValue)),
    ("config", s.config.toValue)]

def storeRow (s : Pipeline.StoreStats) : String :=
  row [s.type.text, toString s.entries, toString s.lastUpdated]

def statusLine (s : Sync.Status) : String :=
  "session " ++ s.key.text ++ " " ++ s.phase.word ++ " " ++ toString s.progress.processed ++ "/"
    ++ toString s.progress.totalSize

def countsLine (s : Pipeline.Stats) : String :=
  "rules: " ++ toString s.rules ++ "  buffered_links: " ++ toString s.bufferedLinks
    ++ "  retry_pending: " ++ toString s.retryPending ++ "  locks: " ++ toString s.lockEntries

def statsReport (s : Pipeline.Stats) : Format → List String
  | .human =>
    row ["RESOURCE", "ENTRIES", "LAST_UPDATED"] :: s.stores.map storeRow
      ++ [countsLine s] ++ s.sessions.map statusLine
  | .json => (statsValue s).lines

end LinkedCache.Cli
