import LinkedCache.Bounds
import LinkedCache.Descriptor
import LinkedCache.Link

-- Links that wait for targets which are not cached yet. Whoever caches the target takes them out.

namespace LinkedCache

-- What a waiting link is addressed to. The identity is in lower case.
structure Address where
  type : Descriptor
  identity : String
  relation : String
deriving DecidableEq, Repr, Inhabited

namespace Address

def of (type : Descriptor) (identity relation : String) : Address :=
  ⟨type, Text.lower identity, relation⟩

end Address

structure Waiting where
  address : Address
  link : Link
  since : Int
deriving DecidableEq, Repr, Inhabited

structure Buffer where
  retentionMs : Nat
  waiting : List Waiting := []
deriving DecidableEq, Repr, Inhabited

namespace Buffer

def empty (retentionMs : Nat) : Buffer :=
  { retentionMs := min retentionMs Bounds.maxInt64 }

def size (b : Buffer) : Nat := b.waiting.length

def holds (b : Buffer) (a : Address) (link : Link) : Bool :=
  b.waiting.any fun w => w.address == a && w.link.sameTarget link

def register (b : Buffer) (a : Address) (link : Link) (now : Int) : Buffer :=
  if b.holds a link then b else { b with waiting := b.waiting ++ [⟨a, link, now⟩] }

def cancel (b : Buffer) (a : Address) (link : Link) : Buffer :=
  { b with waiting := b.waiting.filter fun w => !(w.address == a && w.link.sameTarget link) }

def links (b : Buffer) (a : Address) : List Link :=
  (b.waiting.filter (·.address == a)).map (·.link)

def clear (b : Buffer) (a : Address) : Buffer :=
  { b with waiting := b.waiting.filter (·.address != a) }

def cutoff (b : Buffer) (now : Int) : Int :=
  max Bounds.minInt64 (now - b.retentionMs)

def cleanUp (b : Buffer) (now : Int) : Buffer :=
  { b with waiting := b.waiting.filter fun w => decide (b.cutoff now ≤ w.since) }

end Buffer
end LinkedCache
