import LinkedCache.Cli.Replay
import LinkedCache.Cli.Report

-- The commands: list the rules of a schema, replay a file of events, or run a made-up FULL sync.

namespace LinkedCache.Cli

-- A file as a command finds it: its name, and its text if it can be read.
structure File where
  name : String
  text : Option String
deriving DecidableEq, Repr, Inhabited

inductive Command where
  | rules (schema : File)
  -- With a type to be dumped afterwards, and a query that limits the dump.
  | replay (schema events : File) (dump query : Option String)
  | demo (schema : File) (size : Nat)
deriving DecidableEq, Repr, Inhabited

inductive CommandError where
  | readingSchema (name : String)
  | parsingSchema (name : String)
  | openingEvents (name : String)
  | nothingCached
  | descriptor (e : Error)
  | search (f : Failure)
deriving DecidableEq, Repr

namespace CommandError

def message : CommandError → String
  | readingSchema name => "reading schema file " ++ name
  | parsingSchema name => "parsing schema file " ++ name
  | openingEvents name => "opening " ++ name
  | nothingCached => "schema caches no resource type"
  | descriptor e => e.message
  | search f => f.message

end CommandError

def loadSchema (f : File) : Except CommandError Schema :=
  match f.text with
  | none => .error (.readingSchema f.name)
  | some text =>
    match Schema.read? text with
    | some s => .ok s
    | none => .error (.parsingSchema f.name)

-- A pipeline whose published updates are taken off at once.
def pipelineOf (env : List (String × String)) (schema : Schema) : Pipeline Unit :=
  Pipeline.ofSchema (Config.ofEnvironment env) schema ()

def dump (p : Pipeline Unit) (type : String) (query : Option String) :
    Except CommandError (List Resource) := do
  let d ← (Descriptor.parse type).mapError .descriptor
  (p.search d (query.getD "") Bounds.maxNat64 0 0).mapError .search

-- The events of the made-up run: each brings one resource, which has its identifier under the field
-- and a name.
def demoEvent (type : Descriptor) (field : String) (size : Nat) (now : Moment) (i : Nat) :
    EntityEvent :=
  let id := "demo-" ++ toString i
  let name := "demo " ++ toString i
  { type, id
    payload := some (.object (Assoc.ofList
      [(field, .object [("value", .string id)]), ("name", .string name)]))
    timestamp := now.wall
    sync := some ⟨.full, "demo", size⟩ }

def runDemo (p : Pipeline Unit) (schema : Schema) (size : Nat) (now : Moment) :
    Except CommandError (Pipeline Unit) :=
  match p.cache.types with
  | [] => .error .nothingCached
  | type :: _ =>
    let field := (schema.idFields type).headD "systemId"
    .ok ((List.range size).foldl (fun p i =>
      (p.processEntity now (demoEvent type field size now i)).2) p)

def run (env : List (String × String)) (now : Moment) (format : Format) :
    Command → Except CommandError (List String)
  | .rules schema => do
    let s ← loadSchema schema
    pure (rulesReport (Registry.ofRules s.rules).allRules format)
  | .replay schema events type query => do
    let s ← loadSchema schema
    match events.text with
    | none => .error (.openingEvents events.name)
    | some text =>
      let p := replay (pipelineOf env s) now text
      match type with
      | some type => pure (resourcesReport (← dump p type query) format)
      | none => pure (statsReport p.stats format)
  | .demo schema size => do
    let s ← loadSchema schema
    let p ← runDemo (pipelineOf env s) s size now
    pure (statsReport p.stats format)

end LinkedCache.Cli
