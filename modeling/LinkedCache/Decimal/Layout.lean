import LinkedCache.Decimal.Shortest

-- The text of a double: shortest digits, written out plainly from `1e-5` up to `1e16` and with an
-- exponent outside of that, always recognisable as no integer.

namespace LinkedCache.Decimal

structure Layout where
  lowestPlain : Int
  highestPlain : Int

-- Five places behind the point and sixteen digits before it are still written out.
def layout : Layout := ⟨-5, 15⟩

def Layout.write (l : Layout) (x : Scaled) : String :=
  let ds := Nat.toDigits 10 x.digits
  let count : Int := ds.length
  let place := count + x.exponent - 1
  if l.lowestPlain ≤ place ∧ place ≤ l.highestPlain then
    if 0 ≤ x.exponent then
      String.ofList (ds ++ List.replicate x.exponent.toNat '0' ++ ['.', '0'])
    else if 0 ≤ place then
      let whole := (place + 1).toNat
      String.ofList (ds.take whole ++ ['.'] ++ ds.drop whole)
    else
      String.ofList (['0', '.'] ++ List.replicate (-place - 1).toNat '0' ++ ds)
  else
    let digits := match ds with
      | [] => []
      | [d] => [d]
      | d :: rest => d :: '.' :: rest
    let sign := if 0 ≤ place then '+' else '-'
    String.ofList (digits ++ ['e', sign] ++ Nat.toDigits 10 place.natAbs)

-- The text of a finite double. Both zeros keep their sign.
def write (x : Float) : String :=
  let magnitude := Binary.ofBits x.toBits
  let sign := if x.toBits >>> 63 == 0 then "" else "-"
  if magnitude.mantissa = 0 then sign ++ "0.0"
  else sign ++ layout.write magnitude.shortest

end LinkedCache.Decimal
