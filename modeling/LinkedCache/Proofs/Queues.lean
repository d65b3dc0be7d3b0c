import Mathlib.Algebra.BigOperators.Group.Finset.Piecewise
import LinkedCache.Buffer
import LinkedCache.Proofs.Link

-- The buffer against a map from addresses to queues. What waits under an address is in the order in
-- which it was registered, no link twice, and no address keeps a queue in which nothing waits.

namespace LinkedCache.Buffer

-- The links that wait under one address, and since when.
abbrev Queue : Type := List (Link × Int)

namespace Queue

def holds (q : Queue) (l : Link) : Bool :=
  q.any (·.1.sameTarget l)

def without (q : Queue) (l : Link) : Queue :=
  q.filter (!·.1.sameTarget l)

def fresh (q : Queue) (limit : Nat) (now : Int) : Queue :=
  q.filter fun w => decide (now - w.2 ≤ limit)

def expired (q : Queue) (limit : Nat) (now : Int) : Queue :=
  q.filter fun w => decide (limit < now - w.2)

def Distinct (q : Queue) : Prop :=
  q.Pairwise fun w w' => ¬w.1.sameTarget w'.1

variable {q : Queue} {l : Link}

theorem Distinct.concat (h : q.Distinct) (hn : ¬q.holds l) (since : Int) :
    Distinct (q ++ [(l, since)]) := by
  refine List.pairwise_append.mpr ⟨h, List.pairwise_singleton .., fun w hw w' hw' => ?_⟩
  rw [List.mem_singleton.mp hw']
  exact fun hs => hn (List.any_eq_true.mpr ⟨w, hw, hs⟩)

end Queue

-- What is asked of a buffer.
inductive Request where
  | register (type : Descriptor) (identity relation : String) (link : Link) (since : Int)
  | cancel (type : Descriptor) (identity relation : String) (link : Link)
  | take (type : Descriptor) (identity relation : String)
  | cleanUp (now : Int)
deriving DecidableEq, Repr

inductive Answer where
  | registered (added : Bool)
  | cancelled (found : Bool)
  | taken (links : List Link)
  | cleanedUp (removed : Nat)
deriving DecidableEq, Repr

-- Times are whole numbers of 64 bits.
def IsTime (t : Int) : Prop :=
  Bounds.minInt64 ≤ t ∧ t ≤ Bounds.maxInt64

namespace Request

def InRange : Request → Prop
  | register _ _ _ _ time | cleanUp time => IsTime time
  | cancel .. | take .. => True

instance : DecidablePred InRange
  | register .. | cleanUp _ => inferInstanceAs (Decidable (_ ∧ _))
  | cancel .. | take .. => .isTrue trivial

def Concerns (a : Address) : Request → Prop
  | register type identity relation .. | cancel type identity relation _
  | take type identity relation => a = .of type identity relation
  | cleanUp _ => True

end Request

def answer (b : Buffer) : Request → Answer
  | .register type identity relation l _ => .registered !b.holds (.of type identity relation) l
  | .cancel type identity relation l => .cancelled (b.holds (.of type identity relation) l)
  | .take type identity relation => .taken (b.links (.of type identity relation))
  | .cleanUp now => .cleanedUp (b.size - (b.cleanUp now).size)

def perform (b : Buffer) : Request → Buffer
  | .register type identity relation l since => b.register (.of type identity relation) l since
  | .cancel type identity relation l => b.cancel (.of type identity relation) l
  | .take type identity relation => b.clear (.of type identity relation)
  | .cleanUp now => b.cleanUp now

def performAll (b : Buffer) (requests : List Request) : Buffer :=
  requests.foldl perform b

def answers (b : Buffer) : List Request → List Answer
  | [] => []
  | r :: requests => b.answer r :: (b.perform r).answers requests

def queue (b : Buffer) (a : Address) : Queue :=
  (b.waiting.filter (·.address == a)).map fun w => (w.link, w.since)

-- A map from addresses to queues, with the addresses under which there is one.
structure Queues where
  keys : Finset Address := ∅
  queue : Address → Queue := fun _ => []

namespace Queues

def size (q : Queues) : Nat :=
  ∑ a ∈ q.keys, (q.queue a).length

def answer (q : Queues) (limit : Nat) : Request → Answer
  | .register type identity relation l _ =>
    .registered !(q.queue (.of type identity relation)).holds l
  | .cancel type identity relation l => .cancelled ((q.queue (.of type identity relation)).holds l)
  | .take type identity relation => .taken ((q.queue (.of type identity relation)).map (·.1))
  | .cleanUp now => .cleanedUp (∑ a ∈ q.keys, ((q.queue a).expired limit now).length)

-- A registration makes a queue for its address before it looks into it. A queue in which nothing
-- waits any more is given up.
def perform (limit : Nat) (q : Queues) : Request → Queues
  | .register type identity relation l since =>
    let a := .of type identity relation
    { keys := insert a q.keys
      queue :=
        if (q.queue a).holds l then q.queue
        else Function.update q.queue a (q.queue a ++ [(l, since)]) }
  | .cancel type identity relation l =>
    let a := .of type identity relation
    let kept := (q.queue a).without l
    { keys := if kept = [] then q.keys.erase a else q.keys
      queue := Function.update q.queue a kept }
  | .take type identity relation =>
    let a := .of type identity relation
    { keys := q.keys.erase a
      queue := Function.update q.queue a [] }
  | .cleanUp now =>
    { keys := q.keys.filter fun a => (q.queue a).fresh limit now ≠ []
      queue := fun a => (q.queue a).fresh limit now }

def performAll (limit : Nat) (q : Queues) (requests : List Request) : Queues :=
  requests.foldl (perform limit) q

def answers (limit : Nat) (q : Queues) : List Request → List Answer
  | [] => []
  | r :: requests => q.answer limit r :: (q.perform limit r).answers limit requests

end Queues

variable {b : Buffer} {q : Queues} {a : Address} {l : Link} {now : Int} {limit : Nat} {r : Request}

section Queue

theorem length_queue (b : Buffer) (a : Address) :
    (b.queue a).length = (b.waiting.filter (·.address == a)).length :=
  List.length_map ..

theorem holds_eq : b.holds a l = (b.queue a).holds l := by
  simp only [holds, Queue.holds, queue, List.any_map, List.any_filter, Function.comp_def]

theorem links_eq : b.links a = (b.queue a).map (·.1) := by
  rw [queue, List.map_map]
  rfl

-- A filter that looks at the link and the time only, as far as one address is concerned.
theorem queue_filter {f : Waiting → Bool} {g : Link × Int → Bool}
    (h : ∀ w ∈ b.waiting, w.address = a → f w = g (w.link, w.since)) :
    queue { b with waiting := b.waiting.filter f } a = (b.queue a).filter g := by
  rw [queue, queue, List.filter_map, List.filter_filter, List.filter_filter]
  congr 1
  refine List.filter_congr fun w hw => ?_
  by_cases ha : w.address = a
  case pos => simp [ha, h w hw ha]
  case neg => simp [beq_false_of_ne ha]

theorem queue_filter_of_ne {f : Waiting → Bool} (h : ∀ w ∈ b.waiting, w.address = a → f w) :
    queue { b with waiting := b.waiting.filter f } a = b.queue a := by
  rw [queue_filter (g := fun _ => true) h, List.filter_true]

theorem queue_register (since : Int) :
    (b.register a l since).queue =
      if (b.queue a).holds l then b.queue
      else Function.update b.queue a (b.queue a ++ [(l, since)]) := by
  unfold register
  rw [holds_eq]
  split
  case isTrue => rfl
  case isFalse =>
    funext a'
    by_cases ha : a' = a
    case pos => simp [queue, ha]
    case neg => simp [queue, ha, Ne.symm ha]

theorem queue_cancel :
    (b.cancel a l).queue = Function.update b.queue a ((b.queue a).without l) := by
  funext a'
  by_cases ha : a' = a
  case pos =>
    rw [ha, Function.update_self]
    exact queue_filter fun w _ hw => by simp [hw]
  case neg =>
    rw [Function.update_of_ne ha]
    exact queue_filter_of_ne fun w _ hw => by simp [hw, ha]

theorem queue_clear : (b.clear a).queue = Function.update b.queue a [] := by
  funext a'
  by_cases ha : a' = a
  case pos =>
    rw [ha, Function.update_self, ← List.filter_false (b.queue a)]
    exact queue_filter fun w _ hw => by simp [hw]
  case neg =>
    rw [Function.update_of_ne ha]
    exact queue_filter_of_ne fun w _ hw => by simp [hw, ha]

theorem isTime_cutoff (h : IsTime now) : IsTime (b.cutoff now) := by
  unfold IsTime cutoff at *
  omega

theorem cutoff_le_iff {since : Int} (hs : Bounds.minInt64 ≤ since) :
    b.cutoff now ≤ since ↔ now - since ≤ b.retentionMs := by
  unfold cutoff
  omega

theorem queue_cleanUp (now : Int) (h : ∀ w ∈ b.waiting, Bounds.minInt64 ≤ w.since) :
    (b.cleanUp now).queue = fun a => (b.queue a).fresh b.retentionMs now := by
  funext a
  refine queue_filter fun w hw _ => ?_
  rw [decide_eq_decide]
  exact cutoff_le_iff (h w hw)

-- Links that wait are counted address by address.
theorem length_eq_sum {ws : List Waiting} {keys : Finset Address}
    (h : ∀ w ∈ ws, w.address ∈ keys) :
    ws.length = ∑ a ∈ keys, (ws.filter (·.address == a)).length := by
  induction ws
  case nil => simp
  case cons w ws hi =>
    have hc (a : Address) : ((w :: ws).filter (·.address == a)).length =
        (ws.filter (·.address == a)).length + if w.address = a then 1 else 0 := by
      rw [List.filter_cons]
      by_cases ha : w.address = a <;> simp [ha]
    simp only [hc, Finset.sum_add_distrib, Finset.sum_ite_eq, if_pos (h w (.head _))]
    rw [List.length_cons, hi fun w hw => h w (.tail _ hw)]

end Queue

-- How a map of queues stands for what waits in a buffer.
structure Models (q : Queues) (b : Buffer) : Prop where
  queue : q.queue = b.queue
  keys : ∀ a, a ∈ q.keys ↔ b.queue a ≠ []
  distinct : ∀ a, (b.queue a).Distinct
  since : ∀ w ∈ b.waiting, Bounds.minInt64 ≤ w.since

theorem models_empty (retentionMs : Nat) : Models {} (empty retentionMs) where
  queue := rfl
  keys _ := by simp [queue, empty]
  distinct _ := .nil
  since := by simp [empty]

@[simp]
theorem retentionMs_perform (b : Buffer) (r : Request) :
    (b.perform r).retentionMs = b.retentionMs := by
  cases r
  case register => exact apply_ite ..|>.trans (ite_self _)
  all_goals rfl

theorem Models.mem_keys (h : Models q b) {w : Waiting} (hw : w ∈ b.waiting) :
    w.address ∈ q.keys := by
  refine (h.keys w.address).mpr (List.ne_nil_of_mem (a := (w.link, w.since)) ?_)
  exact List.mem_map.mpr ⟨w, List.mem_filter.mpr ⟨hw, beq_self_eq_true _⟩, rfl⟩

theorem Models.size_eq (h : Models q b) : b.size = q.size := by
  simp only [Queues.size, h.queue, length_queue]
  exact length_eq_sum fun w hw => h.mem_keys hw

theorem Models.isEmpty_iff (h : Models q b) : q.keys = ∅ ↔ b.size = 0 := by
  rw [size, List.length_eq_zero_iff]
  constructor
  · intro hk
    refine List.eq_nil_iff_forall_not_mem.mpr fun w hw => ?_
    simpa [hk] using h.mem_keys hw
  · intro hw
    refine Finset.eq_empty_of_forall_notMem fun a ha => (h.keys a).mp ha ?_
    simp [Buffer.queue, hw]

theorem Models.removed_eq (h : Models q b) (now : Int) :
    b.size - (b.cleanUp now).size =
      ∑ a ∈ q.keys, ((q.queue a).expired b.retentionMs now).length := by
  let stale : Buffer :=
    { b with waiting := b.waiting.filter fun w => !decide (b.cutoff now ≤ w.since) }
  have hsize : b.size = (b.cleanUp now).size + stale.size :=
    List.length_eq_length_filter_add _
  have hqueue (a : Address) : stale.queue a = (q.queue a).expired b.retentionMs now := by
    rw [h.queue]
    refine queue_filter fun w hw _ => ?_
    rw [← decide_not, decide_eq_decide, cutoff_le_iff (h.since w hw), Int.not_le]
  simp only [← hqueue, length_queue]
  rw [hsize, Nat.add_sub_cancel_left]
  exact length_eq_sum fun w hw => h.mem_keys (List.mem_filter.mp hw).1

theorem Models.answer_eq (h : Models q b) (r : Request) :
    b.answer r = q.answer b.retentionMs r := by
  cases r
  case register => rw [answer, Queues.answer, holds_eq, h.queue]
  case cancel => rw [answer, Queues.answer, holds_eq, h.queue]
  case take => rw [answer, Queues.answer, links_eq, h.queue]
  case cleanUp now => rw [answer, Queues.answer, h.removed_eq]

theorem Models.register (h : Models q b) (a : Address) (l : Link) {since : Int}
    (hs : Bounds.minInt64 ≤ since) :
    Models ⟨insert a q.keys, if (q.queue a).holds l then q.queue
      else Function.update q.queue a (q.queue a ++ [(l, since)])⟩ (b.register a l since) := by
  have hq := b.queue_register (a := a) (l := l) since
  rw [h.queue]
  by_cases hh : (b.queue a).holds l
  case pos =>
    have hb : b.register a l since = b := if_pos (holds_eq.trans hh)
    rw [if_pos hh, hb]
    refine ⟨rfl, fun a' => ?_, h.distinct, h.since⟩
    rw [Finset.mem_insert, h.keys, or_iff_right_of_imp]
    rintro rfl hn
    simp [Queue.holds, hn] at hh
  case neg =>
    rw [if_neg hh] at hq ⊢
    refine ⟨hq.symm, fun a' => ?_, fun a' => ?_, fun w hw => ?_⟩
    case refine_1 =>
      rw [hq, Finset.mem_insert, h.keys]
      by_cases ha : a' = a <;> simp [ha]
    case refine_2 =>
      rw [hq]
      by_cases ha : a' = a
      case pos =>
        rw [ha, Function.update_self]
        exact (h.distinct a).concat hh since
      case neg =>
        rw [Function.update_of_ne ha]
        exact h.distinct a'
    case refine_3 =>
      have hb : b.register a l since = { b with waiting := b.waiting ++ [⟨a, l, since⟩] } :=
        if_neg (holds_eq ▸ hh)
      rw [hb] at hw
      obtain hw | hw := List.mem_append.mp hw
      · exact h.since w hw
      · exact List.mem_singleton.mp hw ▸ hs

-- A queue from which links were dropped stays under its address as long as one is left.
theorem Models.update {b' : Buffer} {kept : Queue} (h : Models q b) (a : Address)
    (hw : b'.waiting ⊆ b.waiting) (hk : kept.Sublist (b.queue a))
    (hq : b'.queue = Function.update b.queue a kept) :
    Models ⟨if kept = [] then q.keys.erase a else q.keys, Function.update q.queue a kept⟩ b' := by
  refine ⟨h.queue ▸ hq.symm, fun a' => ?_, fun a' => ?_, fun w hm => h.since w (hw hm)⟩
  case refine_1 =>
    rw [hq]
    by_cases ha : a' = a
    case neg => split <;> simp [ha, h.keys]
    case pos =>
      rw [ha, Function.update_self]
      split
      case isTrue hn => simp [hn]
      case isFalse hn =>
        have hb : b.queue a ≠ [] := fun hb => hn (List.sublist_nil.mp (hb ▸ hk))
        simp [hn, h.keys, hb]
  case refine_2 =>
    rw [hq]
    by_cases ha : a' = a
    case pos =>
      rw [ha, Function.update_self]
      exact (h.distinct a).sublist hk
    case neg =>
      rw [Function.update_of_ne ha]
      exact h.distinct a'

theorem Models.cleanUp (h : Models q b) (now : Int) :
    Models ⟨q.keys.filter fun a => (q.queue a).fresh b.retentionMs now ≠ [],
      fun a => (q.queue a).fresh b.retentionMs now⟩ (b.cleanUp now) := by
  have hq := queue_cleanUp now h.since
  refine ⟨h.queue ▸ hq.symm, fun a => ?_, fun a => ?_, fun w hm => ?_⟩
  case refine_1 =>
    rw [hq, h.queue, Finset.mem_filter, h.keys, and_iff_right_of_imp]
    rintro hn hb
    exact hn (by rw [hb]; rfl)
  case refine_2 =>
    rw [hq]
    exact (h.distinct a).filter _
  case refine_3 => exact h.since w (List.mem_filter.mp hm).1

theorem Models.perform (h : Models q b) (hr : r.InRange) :
    Models (q.perform b.retentionMs r) (b.perform r) := by
  cases r
  case register type identity relation l since => exact h.register _ l hr.1
  case cancel type identity relation l =>
    refine h.update _ (List.filter_subset_self _) (h.queue ▸ List.filter_sublist) ?_
    exact h.queue ▸ queue_cancel
  case take type identity relation =>
    exact h.update _ (List.filter_subset_self _) (List.nil_sublist _) queue_clear
  case cleanUp now => exact h.cleanUp now

theorem Models.performAll {requests : List Request} (h : Models q b)
    (hr : ∀ r ∈ requests, r.InRange) :
    Models (q.performAll b.retentionMs requests) (b.performAll requests) ∧
      b.answers requests = q.answers b.retentionMs requests := by
  induction requests generalizing q b
  case nil => exact ⟨h, rfl⟩
  case cons r requests hi =>
    have ⟨hm, ha⟩ := hi (h.perform (hr r (.head _))) fun r' hm => hr r' (.tail _ hm)
    rw [retentionMs_perform] at hm ha
    refine ⟨hm, ?_⟩
    rw [answers, Queues.answers, h.answer_eq, ha]

theorem queue_perform_of_not_concerns (hr : ¬r.Concerns a) :
    (b.perform r).queue a = b.queue a := by
  cases r
  case register type identity relation l since =>
    rw [perform, queue_register]
    split
    case isTrue => rfl
    case isFalse => exact Function.update_of_ne hr ..
  case cancel => exact (congrFun queue_cancel a).trans (Function.update_of_ne hr ..)
  case take => exact (congrFun queue_clear a).trans (Function.update_of_ne hr ..)
  case cleanUp => exact absurd trivial hr

-- A buffer does what the map of queues does, and a request about one address changes nothing under
-- another one.
theorem answers_eq_queues (retentionMs : Nat) (requests : List Request)
    (h : ∀ r ∈ requests, r.InRange) :
    let limit := min retentionMs Bounds.maxInt64
    let b := (empty retentionMs).performAll requests
    let q := Queues.performAll limit {} requests
    (empty retentionMs).answers requests = Queues.answers limit {} requests ∧
    (∀ a, b.queue a = q.queue a) ∧
    (∀ a, (q.queue a).Distinct) ∧
    b.size = q.size ∧
    (q.keys = ∅ ↔ b.size = 0) ∧
    (∀ r a, ¬r.Concerns a → (b.perform r).queue a = b.queue a) ∧
    ∀ now, IsTime now → IsTime (b.cutoff now) := by
  intro limit b q
  have ⟨hm, ha⟩ := (models_empty retentionMs).performAll h
  have hm : Models q b := hm
  exact ⟨ha, fun a => congrFun hm.queue.symm a, fun a => hm.queue ▸ hm.distinct a, hm.size_eq,
    hm.isEmpty_iff, fun _ _ => queue_perform_of_not_concerns, fun _ => isTime_cutoff⟩

section Overdue

-- The limit is the largest time, and what was registered at the smallest one has waited longer.
def overdue : List Request := [
  .register default "systemId/A" "member" ⟨"https://a/student/systemid/1"⟩ Bounds.minInt64,
  .register default "systemid/a" "member" ⟨"x/SYSTEMID/1/"⟩ 7,
  .register default "systemid/a" "Member" ⟨"1"⟩ 0,
  .register default "systemid/a" "member" ⟨"systemid/2"⟩ 0,
  .cancel default "systemid/a" "Member" ⟨"systemid/1"⟩,
  .cleanUp Bounds.maxInt64,
  .take default "systemid/A" "member",
  .cancel default "systemid/a" "Member" ⟨"1"⟩]

theorem answers_overdue :
    (∀ r ∈ overdue, r.InRange) ∧
    (empty Bounds.maxNat64).answers overdue = [.registered true, .registered false,
      .registered true, .registered true, .cancelled false, .cleanedUp 1, .taken [⟨"systemid/2"⟩],
      .cancelled true] := by
  have h : ∀ r ∈ overdue, r.InRange := by decide
  refine ⟨h, ?_⟩
  rw [(answers_eq_queues Bounds.maxNat64 overdue h).1]
  decide +kernel

end Overdue

end LinkedCache.Buffer
