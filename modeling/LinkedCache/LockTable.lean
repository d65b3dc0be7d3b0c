import LinkedCache.Descriptor

-- Locks on single resources. A lock is in the table as long as somebody holds it or waits for it.

namespace LinkedCache

structure LockKey where
  type : Descriptor
  id : String
deriving DecidableEq, Repr, Inhabited

structure LockTable where
  users : List (LockKey × Nat) := []
deriving DecidableEq, Repr, Inhabited

namespace LockTable

def size (t : LockTable) : Nat := t.users.length

def acquireIn (key : LockKey) : List (LockKey × Nat) → List (LockKey × Nat)
  | [] => [(key, 1)]
  | (k, n) :: rest => if k = key then (k, n + 1) :: rest else (k, n) :: acquireIn key rest

def releaseIn (key : LockKey) : List (LockKey × Nat) → List (LockKey × Nat)
  | [] => []
  | (k, n) :: rest =>
    if k = key then (if n ≤ 1 then rest else (k, n - 1) :: rest)
    else (k, n) :: releaseIn key rest

def acquire (t : LockTable) (key : LockKey) : LockTable :=
  ⟨acquireIn key t.users⟩

-- One user less. The last one takes the lock out of the table.
def release (t : LockTable) (key : LockKey) : LockTable :=
  ⟨releaseIn key t.users⟩

end LockTable
end LinkedCache
