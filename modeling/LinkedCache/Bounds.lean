-- The ranges of the whole numbers that are read from texts or written to them.

namespace LinkedCache.Bounds

def maxNat32 : Nat := 0xFFFFFFFF

def maxNat64 : Nat := 0xFFFFFFFFFFFFFFFF

def maxInt64 : Nat := 0x7FFFFFFFFFFFFFFF

def minInt64 : Int := -0x8000000000000000

end LinkedCache.Bounds
