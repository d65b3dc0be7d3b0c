-- Bounded channels, on the side of the sender: what waits to be taken, and whether anybody will.

namespace LinkedCache

structure Channel (α : Type) where
  capacity : Nat
  waiting : List α := []
  closed : Bool := false
deriving DecidableEq, Repr, Inhabited

namespace Channel

variable {α : Type}

-- An open channel, which holds at least one item.
def ofCapacity (capacity : Nat) : Channel α :=
  { capacity := max capacity 1 }

-- Puts an item behind those that wait. A channel that is full or closed takes none.
def send (c : Channel α) (a : α) : Except String (Channel α) :=
  if c.closed then .error "outbound channel closed"
  else if c.capacity ≤ c.waiting.length then .error "outbound channel full"
  else .ok { c with waiting := c.waiting ++ [a] }

-- An item that finds no room is lost.
def offer (c : Channel α) (a : α) : Channel α :=
  match c.send a with
  | .ok c => c
  | .error _ => c

def drained (c : Channel α) : Channel α :=
  { c with waiting := [] }

def close (c : Channel α) : Channel α :=
  { c with waiting := [], closed := true }

end Channel
end LinkedCache
