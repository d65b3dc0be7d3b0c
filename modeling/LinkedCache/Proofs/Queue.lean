import LinkedCache.Retry.Worker
import LinkedCache.Proofs.Resource

-- What the queue offers for delivery, and what a pass of the worker does to it. An update is
-- offered under its number as long as it is pending and the latest one under its key.

namespace LinkedCache.Retry

namespace Queue

variable {q : Queue} {policy : Policy} {now n : Nat} {u v : Update} {item : Scheduled}

structure Numbered (q : Queue) : Prop where
  key : ∀ item ∈ q.pending, item.key = item.update.supersedeKey
  seq : ∀ item ∈ q.pending, item.seq < q.nextSeq

def Offers (q : Queue) (n : Nat) (u : Update) : Prop :=
  q.latest.lookup u.supersedeKey = some n ∧ ∃ item ∈ q.pending, item.seq = n ∧ item.update = u

theorem isLive_iff : q.isLive item ↔ q.latest.lookup item.key = some item.seq := by
  simp [isLive]

@[simp]
theorem pending_finish : (q.finish item).pending = q.pending := by
  unfold finish
  split <;> rfl

@[simp]
theorem nextSeq_finish : (q.finish item).nextSeq = q.nextSeq := by
  unfold finish
  split <;> rfl

theorem mem_due_iff : item ∈ q.due now ↔ item ∈ q.pending ∧ item.due ≤ now := by
  simp [due]

theorem Numbered.offers (h : q.Numbered) (hm : item ∈ q.pending) (hl : q.isLive item) :
    q.Offers item.seq item.update :=
  ⟨h.key item hm ▸ isLive_iff.mp hl, item, hm, rfl, rfl⟩

theorem Offers.lt (h : q.Offers n u) (hq : q.Numbered) : n < q.nextSeq :=
  have ⟨_, item, hm, hn, _⟩ := h
  hn ▸ hq.seq item hm

theorem numbered_empty : ({} : Queue).Numbered where
  key := by simp
  seq := by simp

theorem numbered_enqueue (h : q.Numbered) : (q.enqueue policy now u).Numbered where
  key item hm := by
    obtain hm | hm := List.mem_append.mp hm
    · exact h.key item hm
    · rw [List.mem_singleton.mp hm]
  seq item hm := by
    obtain hm | hm := List.mem_append.mp hm
    · exact (h.seq item hm).trans (Nat.lt_succ_self _)
    · rw [List.mem_singleton.mp hm]
      exact Nat.lt_succ_self _

theorem numbered_noteApplied (h : q.Numbered) : (q.noteApplied u).Numbered :=
  ⟨h.key, h.seq⟩

theorem offers_noteApplied :
    (q.noteApplied v).Offers n u ↔ q.Offers n u ∧ u.supersedeKey ≠ v.supersedeKey := by
  unfold Offers noteApplied
  rw [Assoc.lookup_erase]
  by_cases hk : u.supersedeKey = v.supersedeKey <;> simp [hk]

theorem offers_enqueue (h : q.Numbered) :
    (q.enqueue policy now v).Offers n u ↔
      (q.Offers n u ∧ u.supersedeKey ≠ v.supersedeKey) ∨ (n = q.nextSeq ∧ u = v) := by
  unfold Offers enqueue
  simp only [Assoc.lookup_insert, List.mem_append, List.mem_singleton]
  constructor
  · rintro ⟨hl, item, hm | rfl, rfl, rfl⟩
    · split at hl
      case isTrue => exact absurd (Option.some.inj hl) (h.seq item hm).ne'
      case isFalse hk => exact .inl ⟨⟨hl, item, hm, rfl, rfl⟩, hk⟩
    · exact .inr ⟨rfl, rfl⟩
  · rintro (⟨⟨hl, item, hm, rfl, rfl⟩, hk⟩ | ⟨rfl, rfl⟩)
    · exact ⟨by rw [if_neg hk, hl], item, .inl hm, rfl, rfl⟩
    · exact ⟨if_pos rfl, _, .inr rfl, rfl, rfl⟩

-- The queue offers nothing that another did not offer.
structure Within (q q' : Queue) : Prop where
  numbered : q'.Numbered
  nextSeq : q'.nextSeq = q.nextSeq
  offers : ∀ n u, q'.Offers n u → q.Offers n u

theorem within_withoutDue (h : q.Numbered) : q.Within (q.withoutDue now) where
  numbered := ⟨fun item hm => h.key item (List.mem_filter.mp hm).1,
    fun item hm => h.seq item (List.mem_filter.mp hm).1⟩
  nextSeq := rfl
  offers := fun _ _ ⟨hl, item, hm, he⟩ => ⟨hl, item, (List.mem_filter.mp hm).1, he⟩

theorem Within.finish {q' : Queue} (h : q.Within q') : q.Within (q'.finish item) := by
  unfold Queue.finish
  split
  case isFalse => exact h
  case isTrue =>
    refine ⟨⟨h.numbered.key, h.numbered.seq⟩, h.nextSeq, fun n u ⟨hl, hm⟩ => h.offers n u ⟨?_, hm⟩⟩
    rw [Assoc.lookup_erase] at hl
    split at hl
    case isTrue => simp at hl
    case isFalse => exact hl

-- An update that is tried again keeps its number and its key.
theorem Within.reschedule {q' : Queue} (h : q.Within q') (hq : q.Numbered)
    (hm : item ∈ q.pending) (hl : q.isLive item) : q.Within (q'.reschedule policy now item) where
  numbered := by
    constructor <;> intro i hi <;> obtain hi | hi := List.mem_append.mp hi
    · exact h.numbered.key i hi
    · exact List.mem_singleton.mp hi ▸ hq.key item hm
    · exact h.numbered.seq i hi
    · exact List.mem_singleton.mp hi ▸ h.nextSeq ▸ hq.seq item hm
  nextSeq := h.nextSeq
  offers := by
    rintro _ _ ⟨ho, i, hi, rfl, rfl⟩
    obtain hi | hi := List.mem_append.mp hi
    · exact h.offers _ _ ⟨ho, i, hi, rfl, rfl⟩
    · have ho := hq.offers hm hl
      exact List.mem_singleton.mp hi ▸ ho

theorem Within.settle {q' : Queue} (h : q.Within q') (hq : q.Numbered)
    (hm : item ∈ q.pending) (hl : q.isLive item) (error : Option String) :
    q.Within (q'.settle policy now item error).1 := by
  unfold Queue.settle
  split
  case h_1 => exact h.finish
  case h_2 =>
    split
    case isTrue => exact h.reschedule hq hm hl
    case isFalse => exact h.finish

-- What a queue still offers after some time was offered before, or was enqueued since.
structure Later (q q' : Queue) : Prop where
  numbered : q'.Numbered
  le : q.nextSeq ≤ q'.nextSeq
  offers : ∀ n u, n < q.nextSeq → q'.Offers n u → q.Offers n u

theorem Later.refl (h : q.Numbered) : q.Later q :=
  ⟨h, Nat.le_refl _, fun _ _ _ => id⟩

theorem Later.trans {q' q'' : Queue} (h : q.Later q') (h' : q'.Later q'') : q.Later q'' where
  numbered := h'.numbered
  le := h.le.trans h'.le
  offers n u hn ho := h.offers n u hn (h'.offers n u (hn.trans_le h.le) ho)

theorem Within.later {q' : Queue} (h : q.Within q') : q.Later q' :=
  ⟨h.numbered, h.nextSeq.ge, fun n u _ => h.offers n u⟩

theorem later_noteApplied (h : q.Numbered) : q.Later (q.noteApplied u) :=
  ⟨numbered_noteApplied h, Nat.le_refl _, fun _ _ _ ho => (offers_noteApplied.mp ho).1⟩

theorem later_enqueue (h : q.Numbered) : q.Later (q.enqueue policy now u) where
  numbered := numbered_enqueue h
  le := Nat.le_succ _
  offers _ _ hn ho := ((offers_enqueue h).mp ho).elim (·.1) fun he => absurd he.1 hn.ne

end Queue

namespace Worker

variable {World : Type} {policy : Policy} {d : Delivery World} {now : Nat} {q : Queue} {w : World}

theorem pass_induct {P : Queue → World → Prop} (h : P (q.withoutDue now) w)
    (hs : ∀ item ∈ q.due now, q.isLive item → ∀ q' w', P q' w' →
      P (attempt policy d now q' w' item).1 (attempt policy d now q' w' item).2) :
    P (pass policy d now q w).1 (pass policy d now q w).2 := by
  unfold pass
  have hm : ∀ item ∈ (q.due now).filter q.isLive, item ∈ q.due now ∧ q.isLive item :=
    fun item hi => List.mem_filter.mp hi
  generalize q.withoutDue now = q', (q.due now).filter q.isLive = items at h hm
  induction items generalizing q' w
  case nil => exact h
  case cons item items hi =>
    have ⟨hd, hl⟩ := hm item (.head _)
    exact hi _ (hs item hd hl q' w h) fun i hi => hm i (.tail _ hi)

theorem attempt_queue (item : Scheduled) :
    (attempt policy d now q w item).1 =
      (q.settle policy now item (d.deliver now item.update w).1).1 := by
  unfold attempt
  dsimp only
  split <;> simp only [*]

theorem attempt_world (policy : Policy) (q : Queue) (item : Scheduled) :
    (attempt policy d now q w item).2 = (d.deliver now item.update w).2 ∨
      ∃ letter, (attempt policy d now q w item).2 =
        d.bury now letter (d.deliver now item.update w).2 := by
  unfold attempt
  dsimp only
  split
  case h_1 => exact .inl rfl
  case h_2 => exact .inr ⟨_, rfl⟩

theorem within_pass (h : q.Numbered) : q.Within (pass policy d now q w).1 := by
  refine pass_induct (P := fun q' _ => q.Within q') (Queue.within_withoutDue h) ?_
  intro item hm hl q' w' hw
  rw [attempt_queue]
  exact hw.settle h (Queue.mem_due_iff.mp hm).1 hl _

end Worker
end LinkedCache.Retry
