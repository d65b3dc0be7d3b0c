-- Case folding and cutting of text. Only ASCII letters have case here, and every cut works on code
-- points.

namespace LinkedCache.Text

-- ASCII letters in lower case, all other characters as they are.
def lower (s : String) : String :=
  String.ofList (s.toList.map Char.toLower)

def sameFolded (s t : String) : Bool :=
  lower s == lower t

-- The pieces between the separators, empty ones included: one more than there are separators.
def pieces (sep : Char) (s : String) : List String :=
  (s.toList.splitOn sep).map String.ofList

def cut? (sep : Char) (s : String) : Option (String × String) :=
  match s.toList.dropWhile (· != sep) with
  | [] => none
  | _ :: after => some (String.ofList (s.toList.takeWhile (· != sep)), String.ofList after)

def after? (start s : String) : Option String :=
  if start.toList.isPrefixOf s.toList then some (String.ofList (s.toList.drop start.toList.length))
  else none

def occursAt (part : List Char) : List Char → Bool
  | [] => part.isEmpty
  | c :: whole => part.isPrefixOf (c :: whole) || occursAt part whole

-- Whether `part` is a piece of `whole`. The empty text is a piece of every text.
def occursIn (part whole : String) : Bool :=
  occursAt part.toList whole.toList

def decimal? (digits : List Char) : Option Nat :=
  if digits.isEmpty then none
  else if digits.all Char.isDigit then
    some (digits.foldl (fun n c => 10 * n + (c.toNat - '0'.toNat)) 0)
  else none

-- The value of a natural number up to `limit`: digits, with an optional leading plus sign.
def natural? (limit : Nat) (s : String) : Option Nat :=
  let digits := match s.toList with
    | '+' :: rest => rest
    | cs => cs
  (decimal? digits).filter (· ≤ limit)

-- Texts in the order of their code points, which is also the order of their UTF-8 bytes.
def sorted (ss : List String) : List String :=
  ss.mergeSort (fun s t => decide (s ≤ t))

end LinkedCache.Text
