import LinkedCache.Cli.Arguments
import Std.Time.DateTime.Timestamp

-- The command line: reads the arguments, the files and the environment, and prints what the command
-- answers.

namespace LinkedCache.Cli

def fileText (name : String) : IO (String × Option String) := do
  try
    let text ← IO.FS.readFile name
    pure (name, some text)
  catch _ => pure (name, none)

def environment : IO (List (String × String)) :=
  ["TETHER_DOMAIN", "TETHER_PACKAGE", "TETHER_ORG_ID", "TETHER_RETRY_INITIAL_MS",
    "TETHER_RETRY_MULTIPLIER", "TETHER_RETRY_EXPONENTIAL", "TETHER_RETRY_MAX_ATTEMPTS",
    "TETHER_BUFFER_RETENTION_SECS", "TETHER_BUFFER_CLEANUP_SECS", "TETHER_QUEUE_CAP"].filterMapM
    fun name => do pure ((← IO.getEnv name).map (name, ·))

end LinkedCache.Cli

open LinkedCache Cli in
def main (args : List String) : IO UInt32 := do
  match Arguments.parse? {} args with
  | none => IO.eprintln "error: invalid arguments"; pure 2
  | some a =>
    let files ← (a.schema.toList ++ a.events.toList).mapM fun name => fileText name
    match a.command? fun name => (files.lookup name).join with
    | none => IO.eprintln "error: invalid arguments"; pure 2
    | some command =>
      let wall ← Std.Time.Timestamp.now
      let now : Moment := ⟨wall.toMillisecondsSinceUnixEpoch.val, ← IO.monoMsNow⟩
      match run (← environment) now a.format command with
      | .ok lines => lines.forM fun l => IO.println l; pure 0
      | .error e => IO.eprintln ("Error: " ++ e.message); pure 1
