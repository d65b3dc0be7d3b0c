import LinkedCache.Cli.Command

namespace LinkedCache.Cli

-- What the arguments ask for. Files are only named here; somebody has to read them.
structure Arguments where
  format : Format := .human
  command : Option String := none
  schema : Option String := none
  events : Option String := none
  dump : Option String := none
  query : Option String := none
  size : Nat := 100
deriving DecidableEq, Repr, Inhabited

namespace Arguments

def format? : String → Option Format
  | "human" => some .human
  | "json" => some .json
  | _ => none

def set? (a : Arguments) (option value : String) : Option Arguments :=
  match option with
  | "-o" | "--output" => (format? value).map fun format => { a with format }
  | "--schema" => some { a with schema := some value }
  | "--events" => some { a with events := some value }
  | "--dump" => some { a with dump := some value }
  | "--query" => some { a with query := some value }
  | "--size" => (Text.natural? Bounds.maxNat64 value).map fun size => { a with size }
  | _ => none

def isOption (word : String) : Bool :=
  word.toList.head? == some '-'

-- Reads words one by one. An option takes its value after an equals sign or from the next word.
def parse? (a : Arguments) : List String → Option Arguments
  | [] => some a
  | word :: rest =>
    if isOption word then
      match Text.cut? '=' word, rest with
      | some (option, value), rest => do (← a.set? option value).parse? rest
      | none, value :: rest => do (← a.set? word value).parse? rest
      | none, [] => none
    else if a.command.isNone then parse? { a with command := some word } rest
    else none
termination_by words => words.length

def command? (a : Arguments) (read : String → Option String) : Option Command := do
  let schema ← a.schema
  let file (name : String) : File := ⟨name, read name⟩
  match ← a.command with
  | "rules" => some (.rules (file schema))
  | "replay" => (a.events).map fun events => .replay (file schema) (file events) a.dump a.query
  | "demo" => some (.demo (file schema) a.size)
  | _ => none

end Arguments
end LinkedCache.Cli
