-- Shortest decimal digits of a binary floating-point number. A positive finite double stands for
-- all the reals that round to it; of the decimals among them the one on the coarsest power of ten
-- is chosen, and of two on that grid the nearer one, the even one if they are equally near. All
-- arithmetic is exact, on natural numbers.

namespace LinkedCache.Decimal

-- A positive finite double `mantissa * 2 ^ exponent`. `isPower` marks a mantissa at the lower end
-- of a binade, where the neighbour below is only half as far away as the one above.
structure Binary where
  mantissa : Nat
  exponent : Int
  isPower : Bool
deriving DecidableEq, Repr

def Binary.ofBits (bits : UInt64) : Binary :=
  let fraction : Nat := (bits &&& 0xFFFFFFFFFFFFF).toNat
  let biased : Nat := (bits >>> 52 &&& 0x7FF).toNat
  if biased = 0 then ⟨fraction, -1074, false⟩
  else ⟨0x10000000000000 + fraction, Int.ofNat biased - 1075, fraction = 0 && 1 < biased⟩

structure Scaled where
  digits : Nat
  exponent : Int
deriving DecidableEq, Repr

def ratio (n b : Nat) (e : Int) : Nat × Nat :=
  if 0 ≤ e then (n * b.pow e.toNat, 1) else (n, b.pow (-e).toNat)

-- The point nearest to `x` on the grid of multiples of `10 ^ k`, if one of the two neighbours of
-- `x` rounds to `x`. The quarter of the last binary place is the unit of the interval's ends.
def Binary.onGrid? (x : Binary) (k : Int) : Option Nat :=
  let (binNum, binDen) := ratio 1 2 (x.exponent - 2)
  let (decNum, decDen) := ratio 1 10 k
  -- A quarter place counts `up` and a grid step counts `step` in a common unit.
  let up := binNum * decDen
  let step := decNum * binDen
  let value := 4 * x.mantissa * up
  let low := (4 * x.mantissa - (if x.isPower then 1 else 2)) * up
  let high := (4 * x.mantissa + 2) * up
  let closed := x.mantissa % 2 = 0
  let inside (d : Nat) : Bool :=
    if closed then low ≤ d * step && d * step ≤ high else low < d * step && d * step < high
  let below := value / step
  let above := below + 1
  match inside below, inside above with
  | true, true =>
    let toBelow := value - below * step
    let toAbove := above * step - value
    some (if toBelow < toAbove ∨ (toBelow = toAbove ∧ below % 2 = 0) then below else above)
  | true, false => some below
  | false, true => some above
  | false, false => none

-- The point on the first of `fuel` grids, from `10 ^ k` downwards, that has one.
def Binary.firstGrid (x : Binary) (k : Int) : Nat → Scaled
  | 0 => ⟨0, 0⟩
  | fuel + 1 =>
    match x.onGrid? k with
    | some d => ⟨d, k⟩
    | none => x.firstGrid (k - 1) fuel

-- The shortest decimal that rounds to `x`. The grids run from above the largest double to below the
-- smallest one.
def Binary.shortest (x : Binary) : Scaled :=
  x.firstGrid 309 650

end LinkedCache.Decimal
