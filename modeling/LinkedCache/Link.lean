import LinkedCache.Error
import LinkedCache.Json.Fields
import LinkedCache.Text

-- Links and what they point to. The identity of a link is the end of its address: the last two
-- segments, in lower case. Two links with one identity are the same link, whatever stands in front.

namespace LinkedCache

structure Link where
  href : String
deriving DecidableEq, Repr, Inhabited

namespace Link

def segments (href : String) : List String :=
  (Text.pieces '/' href).filter (!·.isEmpty)

def identityOf? (href : String) : Option String :=
  match (segments href).reverse with
  | value :: field :: _ => some (Text.lower (field ++ "/" ++ value))
  | _ => none

def identity? (l : Link) : Option String :=
  identityOf? l.href

def identity (l : Link) : Except Error String :=
  match l.identity? with
  | some i => .ok i
  | none => .error (.invalidLink l.href)

-- Links are the same if their identities are. Where one of them has none, the addresses decide, in
-- any case.
def sameTarget (a b : Link) : Bool :=
  match a.identity?, b.identity? with
  | some i, some j => i == j
  | _, _ => Text.sameFolded a.href b.href

def toValue (l : Link) : Json.Value :=
  .object [("href", .string l.href)]

def ofValue? (v : Json.Value) : Option Link :=
  match v.fields? ["href"] with
  | some [some (.string href)] => some ⟨href⟩
  | _ => none

def listToValue (ls : List Link) : Json.Value :=
  .array (ls.map toValue)

def listOfValue? : Json.Value → Option (List Link)
  | .array items => items.mapM ofValue?
  | _ => none

end Link
end LinkedCache
