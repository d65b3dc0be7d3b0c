import LinkedCache.Config

-- When a delivery that failed is tried again, and how often.

namespace LinkedCache.Retry

-- The number of attempts, at least one, and the wait before each of them in milliseconds.
structure Policy where
  maxAttempts : Nat
  delay : Nat → Nat

structure Backoff where
  initialMs : Nat
  multiplier : Float
  exponential : Bool
deriving Repr

namespace Backoff

-- The first wait as a double, taken as seconds and a rest in nanoseconds. Some whole numbers of
-- milliseconds come out a hair low.
def base (b : Backoff) : Float :=
  let seconds := Float.ofNat (b.initialMs / 1000)
  let nanos := Float.ofNat (b.initialMs % 1000 * 1000000)
  (seconds + nanos / 1000000000) * 1000

-- The product of `r` and `a ^ n`, by repeated squaring, each step rounded.
def powerBy (r a : Float) (n : Nat) : Nat → Float
  | 0 => r
  | fuel + 1 =>
    let r := if n % 2 = 1 then r * a else r
    if n / 2 = 0 then r else powerBy r (a * a) (n / 2) fuel

def power (a : Float) (n : Nat) : Float :=
  powerBy 1 a n 32

def maxExponent : Nat := 0x7FFFFFFF

-- A number of milliseconds as a whole number of 64 bits, at least 1. What is not finite is the
-- longest wait.
def toMs (x : Float) : Nat :=
  if x.isFinite then
    if x < 1 then 1
    else if 18446744073709551616 < x then Bounds.maxNat64
    else x.toUInt64.toNat
  else Bounds.maxNat64

def delay (b : Backoff) (attempt : Nat) : Nat :=
  let growth := if b.exponential then power b.multiplier (min (attempt - 1) maxExponent) else 1
  toMs (b.base * growth)

end Backoff

def Backoff.ofConfig (c : Config) : Backoff where
  initialMs := c.retryInitialMs
  multiplier := c.retryMultiplier
  exponential := c.retryExponential

def Policy.ofConfig (c : Config) : Policy where
  maxAttempts := max c.retryMaxAttempts 1
  delay := (Backoff.ofConfig c).delay

end LinkedCache.Retry
