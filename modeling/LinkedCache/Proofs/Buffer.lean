import LinkedCache.Buffer
import LinkedCache.Proofs.Link

-- What waits in the buffer, seen as a set of keys for each address.

namespace LinkedCache

namespace Buffer

variable {b : Buffer} {a a' : Address} {l : Link} {key : String} {now : Int}

def Awaits (b : Buffer) (a : Address) (key : String) : Prop :=
  ∃ w ∈ b.waiting, w.address = a ∧ Update.linkKey w.link = key

theorem awaits_of_mem {w : Waiting} (h : w ∈ b.waiting) :
    b.Awaits w.address (Update.linkKey w.link) :=
  ⟨w, h, rfl, rfl⟩

theorem not_awaits_empty (retentionMs : Nat) : ¬(empty retentionMs).Awaits a key := by
  simp [Awaits, empty]

theorem holds_iff : b.holds a l ↔ b.Awaits a (Update.linkKey l) := by
  simp [holds, Awaits, Link.sameTarget_iff]

theorem mem_links_iff : key ∈ (b.links a).map Update.linkKey ↔ b.Awaits a key := by
  simp [links, Awaits, and_assoc]

theorem awaits_register :
    (b.register a l now).Awaits a' key ↔
      b.Awaits a' key ∨ (a' = a ∧ key = Update.linkKey l) := by
  unfold register
  split
  case isTrue h =>
    simp only [iff_self_or]
    rintro ⟨rfl, rfl⟩
    exact holds_iff.mp h
  case isFalse => simp [Awaits, or_and_right, exists_or, eq_comm]

theorem awaits_cancel :
    (b.cancel a l).Awaits a' key ↔ b.Awaits a' key ∧ ¬(a' = a ∧ key = Update.linkKey l) := by
  simp only [Awaits, cancel, List.mem_filter, Bool.not_eq_true', ← Bool.not_eq_true,
    Bool.and_eq_true, beq_iff_eq, Link.sameTarget_iff]
  constructor
  · rintro ⟨w, ⟨hm, hn⟩, rfl, rfl⟩
    exact ⟨⟨w, hm, rfl, rfl⟩, hn⟩
  · rintro ⟨⟨w, hm, rfl, rfl⟩, hn⟩
    exact ⟨w, ⟨hm, hn⟩, rfl, rfl⟩

theorem awaits_clear : (b.clear a).Awaits a' key ↔ b.Awaits a' key ∧ a' ≠ a := by
  simp only [Awaits, clear, List.mem_filter, bne_iff_ne]
  constructor
  · rintro ⟨w, ⟨hm, hn⟩, rfl, rfl⟩
    exact ⟨⟨w, hm, rfl, rfl⟩, hn⟩
  · rintro ⟨⟨w, hm, rfl, rfl⟩, hn⟩
    exact ⟨w, ⟨hm, hn⟩, rfl, rfl⟩

theorem awaits_of_cleanUp : (b.cleanUp now).Awaits a key → b.Awaits a key
  | ⟨w, hm, ha, hk⟩ => ⟨w, (List.mem_filter.mp hm).1, ha, hk⟩

theorem awaits_registerAll {ls : List Link} :
    (ls.foldl (fun b l => b.register a l now) b).Awaits a' key ↔
      b.Awaits a' key ∨ (a' = a ∧ key ∈ ls.map Update.linkKey) := by
  induction ls generalizing b
  case nil => simp
  case cons l ls hi =>
    rw [List.foldl_cons, hi, awaits_register, List.map_cons, List.mem_cons, and_or_left, or_assoc]

theorem awaits_cancelAll {ls : List Link} :
    (ls.foldl (fun b l => b.cancel a l) b).Awaits a' key ↔
      b.Awaits a' key ∧ ¬(a' = a ∧ key ∈ ls.map Update.linkKey) := by
  induction ls generalizing b
  case nil => simp
  case cons l ls hi =>
    rw [List.foldl_cons, hi, awaits_cancel, List.map_cons, List.mem_cons, and_assoc, ← not_or,
      ← and_or_left]

end Buffer
end LinkedCache
