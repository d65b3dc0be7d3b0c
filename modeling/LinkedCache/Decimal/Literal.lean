import LinkedCache.Text

-- Reading a double from a plain text, correctly rounded: an optional sign, then digits with at most
-- one point among or around them and an optional exponent, or one of the words for infinity and for
-- no number, in any case.

namespace LinkedCache.Decimal

-- The double nearest to `digits * 10 ^ exponent`. What is far outside of the range is settled
-- before any power of ten is computed.
def nearest (digits : Nat) (exponent : Int) : Float :=
  let place := (Nat.toDigits 10 digits).length + exponent
  if digits = 0 ∨ place < -400 then 0
  else if 400 < place then Float.ofScientific 1 false 400
  else if 0 ≤ exponent then Float.ofScientific digits false exponent.toNat
  else Float.ofScientific digits true (-exponent).toNat

def splitSign : List Char → Bool × List Char
  | '+' :: rest => (false, rest)
  | '-' :: rest => (true, rest)
  | cs => (false, cs)

def exponent? (cs : List Char) : Option Int :=
  let (negative, digits) := splitSign cs
  (Text.decimal? digits).map fun n => if negative then -(n : Int) else n

def unsigned? (cs : List Char) : Option Float := do
  let isLetter (c : Char) : Bool := c == 'e' || c == 'E'
  let mantissa := cs.takeWhile (!isLetter ·)
  let exponent ← match cs.dropWhile (!isLetter ·) with
    | [] => some 0
    | _ :: rest => exponent? rest
  let whole := mantissa.takeWhile (· != '.')
  let fraction := (mantissa.dropWhile (· != '.')).drop 1
  let digits ← Text.decimal? (whole ++ fraction)
  pure (nearest digits (exponent - fraction.length))

def word? (cs : List Char) : Option Float :=
  match String.ofList (cs.map Char.toLower) with
  | "inf" | "infinity" => some (1 / 0)
  | "nan" => some (0 / 0)
  | _ => none

-- The double written in a text.
def read? (s : String) : Option Float :=
  let (negative, cs) := splitSign s.toList
  ((word? cs).or (unsigned? cs)).map fun x => if negative then -x else x

end LinkedCache.Decimal
