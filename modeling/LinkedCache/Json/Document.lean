import LinkedCache.Bounds
import LinkedCache.Json.Value

-- What is written in a JSON text, before it is given a meaning. A document keeps members in written
-- order, repeated ones too, and keeps numbers and texts that denote nothing: a number beyond the
-- range of doubles, or half of a surrogate pair. Such a part does no harm where nobody reads it.

namespace LinkedCache.Json

structure Numeral where
  negative : Bool
  whole : List Nat
  fraction : Option (List Nat)
  exponent : Option (Bool × List Nat)
deriving DecidableEq, Repr

namespace Numeral

-- Takes digits into a significand while it stays within 64 bits, and returns those left.
def absorb (significand : Nat) : List Nat → Nat × List Nat
  | [] => (significand, [])
  | d :: rest =>
    if 10 * significand + d ≤ Bounds.maxNat64 then absorb (10 * significand + d) rest
    else (significand, d :: rest)

def power (n : Nat) : Float := Float.ofScientific 1 false n

-- `x * 10 ^ e` in at most `fuel` steps, each rounded: divisions by `10 ^ 308` while `e` is below
-- -308, then one multiplication or division. Nothing is returned above the range.
def scale (x : Float) (e : Int) : Nat → Option Float
  | 0 => some x
  | fuel + 1 =>
    if e.natAbs ≤ 308 then
      if 0 ≤ e then
        let y := x * power e.natAbs
        if y.isInf then none else some y
      else some (x / power e.natAbs)
    else if x == 0 then some x
    else if 0 ≤ e then none
    else scale (x / power 308) (e + 308) fuel

-- The value of a number. An integer within the range of 64 bits, signed or unsigned, is itself;
-- anything else is a double.
def toValue? (n : Numeral) : Option Value :=
  let (significand, left) := absorb 0 n.whole
  match left, n.fraction, n.exponent with
  | [], none, none =>
    if !n.negative then some (.int significand)
    else if 0 < significand ∧ Bounds.minInt64 ≤ -(significand : Int) then
      some (.int (-(significand : Int)))
    else some (.float (-(Float.ofNat significand)))
  | _, _, _ =>
    let digits := n.fraction.getD []
    let (significand, unread) := absorb significand digits
    let place : Int := (left.length : Int) - (digits.length - unread.length : Nat)
    let exponent : Int := match n.exponent with
      | none => 0
      | some (negative, ds) =>
        let e : Int := (ds.foldl (fun e d => 10 * e + d) 0 : Nat)
        if negative then -e else e
    (scale (Float.ofNat significand) (place + exponent) 4).map fun x =>
      .float (if n.negative then -x else x)

end Numeral

inductive Document where
  | null
  | bool (b : Bool)
  | number (n : Numeral)
  -- A text, unless it holds half of a surrogate pair.
  | text (s : Option String)
  | list (items : List Document)
  | record (members : List (Option String × Document))
deriving Inhabited, Repr

inductive Shape where
  -- All of it. Of members with one key the last one counts.
  | free
  | listOf (item : Shape)
  -- The members named, each at most once, or an array of them in this order. Other members are
  -- skipped if `skips` is set, and have to be readable otherwise.
  | record (skips : Bool) (fields : List (String × Shape))
  -- An object with one member, which is among those named.
  | choice (options : List (String × Shape))
deriving Inhabited, Repr

namespace Document

-- The number of objects and arrays that may stand within each other where they are read.
def depthLimit : Nat := 127

mutual

-- The value of a whole document, with at most `depth` levels of objects and arrays.
def toValue? (depth : Nat) : Document → Option Value
  | null => some .null
  | bool b => some (.bool b)
  | number n => n.toValue?
  | text s => s.map .string
  | list items =>
    match depth with
    | 0 => none
    | d + 1 => (itemsToValues? d items).map .array
  | record members =>
    match depth with
    | 0 => none
    | d + 1 => (membersToValues? d members).map fun ms => .object (Assoc.ofList ms)

def itemsToValues? (depth : Nat) : List Document → Option (List Value)
  | [] => some []
  | d :: rest => do
    let v ← d.toValue? depth
    let vs ← itemsToValues? depth rest
    pure (v :: vs)

def membersToValues? (depth : Nat) :
    List (Option String × Document) → Option (List (String × Value))
  | [] => some []
  | (key, d) :: rest => do
    let k ← key
    let v ← d.toValue? depth
    let ms ← membersToValues? depth rest
    pure ((k, v) :: ms)

end

mutual

def select? (depth : Nat) (shape : Shape) : Document → Option Value
  | list items =>
    match shape, depth with
    | _, 0 => none
    | .listOf s, d + 1 => (selectItems? d s items).map .array
    | .record _ fields, d + 1 => (selectFields? d (fields.map (·.2)) items).map .array
    | _, d + 1 => (itemsToValues? d items).map .array
  | record members =>
    match shape, depth with
    | _, 0 => none
    | .record skips fields, d + 1 =>
      (selectMembers? d skips fields [] members).map .object
    | .choice options, d + 1 =>
      match members with
      | [_] => (selectMembers? d false options [] members).map .object
      | _ => none
    | _, d + 1 => (membersToValues? d members).map fun ms => .object (Assoc.ofList ms)
  | d => d.toValue? depth

def selectItems? (depth : Nat) (shape : Shape) : List Document → Option (List Value)
  | [] => some []
  | d :: rest => do
    let v ← d.select? depth shape
    let vs ← selectItems? depth shape rest
    pure (v :: vs)

def selectFields? (depth : Nat) (shapes : List Shape) : List Document → Option (List Value)
  | [] => some []
  | d :: rest => do
    let v ← d.select? depth (shapes.headD .free)
    let vs ← selectFields? depth shapes.tail rest
    pure (v :: vs)

def selectMembers? (depth : Nat) (skips : Bool) (fields : List (String × Shape))
    (seen : List String) : List (Option String × Document) → Option (List (String × Value))
  | [] => some []
  | (key, d) :: rest => do
    let k ← key
    match fields.lookup k with
    | some shape =>
      if seen.contains k then none
      else
        let v ← d.select? depth shape
        let ms ← selectMembers? depth skips fields (k :: seen) rest
        pure ((k, v) :: ms)
    | none =>
      if skips then selectMembers? depth skips fields seen rest
      else
        let v ← d.toValue? depth
        let ms ← selectMembers? depth skips fields seen rest
        pure ((k, v) :: ms)

end

end Document
end LinkedCache.Json
