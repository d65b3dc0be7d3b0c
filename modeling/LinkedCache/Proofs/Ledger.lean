import LinkedCache.Proofs.Account
import LinkedCache.Proofs.Attempts
import LinkedCache.Proofs.Roster

-- The accounts of all updates that were enqueued, beside the queue and the world of the worker.
-- What is still to be brought home is queued once, and nothing else is delivered.

namespace LinkedCache.Retry

-- What is done to a queue.
inductive Call where
  | enqueue (now : Nat) (u : Update)
  | noteApplied (u : Update)
  | pass (now : Nat)

variable {World : Type}

namespace Call

def act (policy : Policy) (d : Delivery World) : Queue × World → Call → Queue × World
  | (q, w), enqueue now u => (q.enqueue policy now u, w)
  | (q, w), noteApplied u => (q.noteApplied u, w)
  | (q, w), pass now => Worker.pass policy d now q w

end Call

-- The account of an update stands under the number of the update.
structure Ledger (World : Type) where
  queue : Queue := {}
  world : World
  accounts : List Account := []

namespace Ledger

def attempt (policy : Policy) (d : Delivery World) (now : Nat) (l : Ledger World)
    (item : Scheduled) : Ledger World :=
  let error := (d.deliver now item.update l.world).1
  let letter := (l.queue.settle policy now item error).2
  { queue := (Worker.attempt policy d now l.queue l.world item).1
    world := (Worker.attempt policy d now l.queue l.world item).2
    accounts := l.accounts.modify item.seq
      (·.enter (.tried ⟨now, item.attempt, error⟩ :: letter.toList.map .buried)) }

-- What is enqueued or took effect supersedes what is open under its key.
def act (policy : Policy) (d : Delivery World) (l : Ledger World) : Call → Ledger World
  | .enqueue now u =>
    { l with
      queue := l.queue.enqueue policy now u
      accounts := l.accounts.map (·.supersede u.supersedeKey) ++ [⟨now, u, []⟩] }
  | .noteApplied u =>
    { l with
      queue := l.queue.noteApplied u
      accounts := l.accounts.map (·.supersede u.supersedeKey) }
  | .pass now =>
    ((l.queue.due now).filter l.queue.isLive).foldl (attempt policy d now)
      { l with queue := l.queue.withoutDue now }

def after (policy : Policy) (d : Delivery World) (w : World) (calls : List Call) :
    Ledger World :=
  calls.foldl (act policy d) { world := w }

variable {policy : Policy} {d : Delivery World} {l : Ledger World} {now n : Nat} {u : Update}
  {q q' : Queue} {item other : Scheduled} {flight items : List Scheduled} {a b : Account}
  {accounts : List Account} {key : String} {entries : List Entry} {w : World}

-- An item and the account of its update.
structure Backs (policy : Policy) (q : Queue) (item : Scheduled) (a : Account) : Prop where
  update : item.update = a.update
  live : q.isLive item ↔ a.isOpen
  next : a.isOpen → item.attempt = a.trials.length + 1 ∧ item.attempt ≤ policy.maxAttempts ∧
    item.due = a.nextDue policy

-- A ledger that is in order, while some items are being delivered.
structure Balanced (policy : Policy) (l : Ledger World) (flight : List Scheduled) : Prop where
  fit : l.queue.Fit flight
  length : l.accounts.length = l.queue.nextSeq
  regular : ∀ (n : Nat) (a : Account), l.accounts[n]? = some a → a.Regular policy
  item : ∀ item ∈ l.queue.pending ++ flight,
    ∃ a, l.accounts[item.seq]? = some a ∧ Backs policy l.queue item a
  held : ∀ (n : Nat) (a : Account), l.accounts[n]? = some a → a.isOpen →
    ∃ item ∈ l.queue.pending ++ flight, item.seq = n

theorem Backs.supersede (h : Backs policy q item a) (hk : item.key = item.update.supersedeKey)
    (hl : q'.isLive item ↔ q.isLive item ∧ item.key ≠ key) :
    Backs policy q' item (a.supersede key) where
  update := by rw [h.update, Account.update_supersede]
  live := by rw [hl, h.live, hk, h.update, Account.isOpen_supersede]
  next ho := by
    rw [Account.trials_supersede, Account.nextDue_supersede]
    exact h.next (Account.isOpen_supersede.mp ho).1

theorem getElem?_supersede : (accounts.map (·.supersede key))[n]? = some a ↔
    ∃ b, accounts[n]? = some b ∧ b.supersede key = a := by
  rw [List.getElem?_map, Option.map_eq_some_iff]

theorem getElem?_concat : (accounts ++ [b])[n]? = some a ↔
    accounts[n]? = some a ∨ n = accounts.length ∧ a = b := by
  rw [List.getElem?_append]
  split
  case isTrue hn => simp [hn.ne]
  case isFalse hn =>
    have hnone : accounts[n]? = none := List.getElem?_eq_none (Nat.le_of_not_lt hn)
    simp only [hnone, List.getElem?_singleton]
    grind

theorem getElem?_modify {k : Nat} : (accounts.modify n (·.enter entries))[k]? = some a ↔
    ∃ b, accounts[k]? = some b ∧ a = if n = k then b.enter entries else b := by
  rw [List.getElem?_modify, Option.map_eq_map, Option.map_eq_some_iff]
  simp only [eq_comm]

theorem Balanced.noteApplied (h : l.Balanced policy []) (u : Update) :
    (l.act policy d (.noteApplied u)).Balanced policy [] where
  fit := h.fit.noteApplied
  length := (List.length_map _).trans h.length
  regular n a ha := by
    obtain ⟨b, hb, rfl⟩ := getElem?_supersede.mp ha
    exact (h.regular n b hb).supersede _
  item item hm := by
    have ⟨a, ha, hb⟩ := h.item item hm
    refine ⟨_, getElem?_supersede.mpr ⟨a, ha, rfl⟩, ?_⟩
    exact hb.supersede (h.fit.key item hm) Queue.isLive_noteApplied
  held n a ha ho := by
    obtain ⟨b, hb, rfl⟩ := getElem?_supersede.mp ha
    exact h.held n b hb (Account.isOpen_supersede.mp ho).1

theorem Balanced.enqueue (h : l.Balanced policy []) (hmax : 1 ≤ policy.maxAttempts) (now : Nat)
    (u : Update) : (l.act policy d (.enqueue now u)).Balanced policy [] where
  fit := h.fit.enqueue
  length := by simp [act, Queue.enqueue, h.length]
  regular n a ha := by
    obtain ha | ⟨_, rfl⟩ := getElem?_concat.mp ha
    · obtain ⟨b, hb, rfl⟩ := getElem?_supersede.mp ha
      exact (h.regular n b hb).supersede _
    · exact Account.regular_start policy now u
  item item hm := by
    rw [List.append_nil] at hm
    obtain hm | hm := List.mem_append.mp hm
    · have hm := List.mem_append_left [] hm
      obtain ⟨a, ha, hb⟩ := h.item item hm
      refine ⟨_, getElem?_concat.mpr (.inl (getElem?_supersede.mpr ⟨a, ha, rfl⟩)), ?_⟩
      exact hb.supersede (h.fit.key item hm) (Queue.isLive_enqueue (h.fit.seq item hm))
    · obtain rfl := List.mem_singleton.mp hm
      refine ⟨_, getElem?_concat.mpr (.inr ⟨by simp [h.length], rfl⟩), rfl, ?_, fun _ => ?_⟩
      · simp [act, Queue.isLive_iff, Queue.enqueue, Assoc.lookup_insert, Account.isOpen]
      · exact ⟨rfl, hmax, rfl⟩
  held n a ha ho := by
    obtain ha | ⟨rfl, _⟩ := getElem?_concat.mp ha
    · obtain ⟨b, hb, rfl⟩ := getElem?_supersede.mp ha
      obtain ⟨item, hm, hs⟩ := h.held n b hb (Account.isOpen_supersede.mp ho).1
      rw [List.append_nil] at hm
      exact ⟨item, List.mem_append_left _ (List.mem_append_left _ hm), hs⟩
    · refine ⟨_, List.mem_append_left _ (List.mem_append_right _ (.head _)), ?_⟩
      simp [h.length]

theorem Balanced.withoutDue (h : l.Balanced policy []) (now : Nat) :
    ({ l with queue := l.queue.withoutDue now } : Ledger World).Balanced policy
      ((l.queue.due now).filter l.queue.isLive) where
  fit := h.fit.withoutDue
  length := h.length
  regular := h.regular
  item item hm := by
    have hm : item ∈ l.queue.pending := by
      obtain hm | hm := List.mem_append.mp hm
      · exact (List.mem_filter.mp hm).1
      · exact (Queue.mem_due_iff.mp (List.mem_filter.mp hm).1).1
    have ⟨a, ha, hb⟩ := h.item item (List.mem_append_left _ hm)
    exact ⟨a, ha, hb.update, hb.live, hb.next⟩
  held n a ha ho := by
    obtain ⟨item, hm, rfl⟩ := h.held n a ha ho
    have ⟨b, hb, hbacks⟩ := h.item item hm
    obtain rfl := Option.some.inj (ha.symm.trans hb)
    rw [List.append_nil] at hm
    refine ⟨item, ?_, rfl⟩
    by_cases hd : now < item.due
    case pos => exact List.mem_append_left _ (List.mem_filter.mpr ⟨hm, by simpa using hd⟩)
    case neg =>
      refine List.mem_append_right _ (List.mem_filter.mpr ⟨?_, hbacks.live.mpr ho⟩)
      exact Queue.mem_due_iff.mpr ⟨hm, Nat.le_of_not_lt hd⟩

-- The update of an item that is being delivered is still open.
theorem Balanced.exists_account (h : l.Balanced policy (item :: items)) :
    ∃ a, l.accounts[item.seq]? = some a ∧ Backs policy l.queue item a ∧ a.isOpen := by
  have ⟨a, ha, hb⟩ := h.item item (List.mem_append_right _ (.head _))
  exact ⟨a, ha, hb, hb.live.mp (h.fit.live item (.head _))⟩

-- The accounts of other items are not touched by what becomes of one.
theorem Balanced.rest (h : l.Balanced policy (item :: items))
    (hm : other ∈ l.queue.pending ++ items) (entries : List Entry) :
    other.seq ≠ item.seq ∧ ∃ a,
      (l.accounts.modify item.seq (·.enter entries))[other.seq]? = some a ∧
        Backs policy l.queue other a := by
  have hne : item.seq ≠ other.seq := fun he => by
    have hn := h.fit.nodup
    rw [List.map_append, List.map_cons, List.perm_middle.nodup_iff, ← List.map_append] at hn
    exact (List.nodup_cons.mp hn).1 (he ▸ List.mem_map_of_mem hm)
  have hm : other ∈ l.queue.pending ++ item :: items :=
    (List.sublist_cons_self item items).append_left _ |>.subset hm
  have ⟨a, ha, hb⟩ := h.item other hm
  exact ⟨hne.symm, a, getElem?_modify.mpr ⟨a, ha, (if_neg hne).symm⟩, hb⟩

theorem Balanced.regular_modify (h : l.Balanced policy flight)
    (ha : l.accounts[item.seq]? = some a) (hr : (a.enter entries).Regular policy) (n : Nat)
    (b : Account) (hb : (l.accounts.modify item.seq (·.enter entries))[n]? = some b) :
    b.Regular policy := by
  obtain ⟨c, hc, rfl⟩ := getElem?_modify.mp hb
  split
  case isTrue hn =>
    obtain rfl := Option.some.inj (ha.symm.trans (hn ▸ hc))
    exact hr
  case isFalse => exact h.regular n c hc

-- Each open account keeps its item, except for the one whose item is being delivered.
theorem Balanced.held_modify (h : l.Balanced policy (item :: items))
    (hb : (l.accounts.modify item.seq (·.enter entries))[n]? = some b) (ho : b.isOpen)
    (hn : n ≠ item.seq) : ∃ other ∈ l.queue.pending ++ items, other.seq = n := by
  obtain ⟨c, hc, rfl⟩ := getElem?_modify.mp hb
  rw [if_neg hn.symm] at ho
  obtain ⟨other, hm, rfl⟩ := h.held n c hc ho
  refine ⟨other, ?_, rfl⟩
  rw [List.mem_append, List.mem_cons] at hm
  exact List.mem_append.mpr (hm.imp_right fun hm => hm.resolve_left fun he => hn (he ▸ rfl))

theorem Balanced.finish (h : l.Balanced policy (item :: items)) (w : World)
    (ha : l.accounts[item.seq]? = some a) (hr : (a.enter entries).Regular policy)
    (ho : ¬(a.enter entries).isOpen) :
    (Ledger.mk (l.queue.finish item) w
      (l.accounts.modify item.seq (·.enter entries))).Balanced policy items where
  fit := h.fit.finish
  length := by simp [h.length]
  regular := h.regular_modify ha hr
  item other hm := by
    rw [Queue.pending_finish] at hm
    have ⟨hne, b, hb, hbacks⟩ := h.rest hm entries
    refine ⟨b, hb, hbacks.update, ?_, hbacks.next⟩
    have hl := h.fit.live item (.head _)
    have hi : item ∈ l.queue.pending ++ item :: items := List.mem_append_right _ (.head _)
    have hm : other ∈ l.queue.pending ++ item :: items :=
      (List.sublist_cons_self item items).append_left _ |>.subset hm
    rw [Queue.isLive_finish hl, ← hbacks.live, and_iff_left_iff_imp]
    exact fun hlive hk => hne (congrArg Scheduled.seq (h.fit.eq_of_key hm hi hlive hl hk))
  held n b hb hopen := by
    rw [Queue.pending_finish]
    refine h.held_modify hb hopen fun hn => ho ?_
    obtain ⟨c, hc, rfl⟩ := getElem?_modify.mp hb
    obtain rfl := Option.some.inj (ha.symm.trans (hn ▸ hc))
    rwa [if_pos hn.symm] at hopen

theorem Balanced.reschedule (h : l.Balanced policy (item :: items)) (w : World) (now : Nat)
    (ha : l.accounts[item.seq]? = some a) (hr : (a.enter entries).Regular policy)
    (hb : Backs policy l.queue
      { item with due := now + policy.delay (item.attempt + 1), attempt := item.attempt + 1 }
      (a.enter entries)) :
    (Ledger.mk (l.queue.reschedule policy now item) w
      (l.accounts.modify item.seq (·.enter entries))).Balanced policy items where
  fit := h.fit.reschedule
  length := by simp [Queue.reschedule, h.length]
  regular := h.regular_modify ha hr
  item other hm := by
    simp only [Queue.reschedule, List.mem_append, List.mem_singleton] at hm
    obtain (hm | rfl) | hm := hm
    case inl.inr =>
      exact ⟨_, getElem?_modify.mpr ⟨a, ha, (if_pos rfl).symm⟩, hb.update, hb.live, hb.next⟩
    all_goals
      have hm : other ∈ l.queue.pending ++ items := by simp [hm]
      obtain ⟨_, b, hb, hbacks⟩ := h.rest hm entries
      exact ⟨b, hb, hbacks.update, hbacks.live, hbacks.next⟩
  held n b hb hopen := by
    by_cases hn : n = item.seq
    case pos => exact ⟨_, List.mem_append_left _ (List.mem_append_right _ (.head _)), hn.symm⟩
    case neg =>
      obtain ⟨other, hm, hs⟩ := h.held_modify hb hopen hn
      refine ⟨other, ?_, hs⟩
      simp only [Queue.reschedule, List.mem_append] at hm ⊢
      exact hm.imp_left .inl

theorem Balanced.attempt (h : l.Balanced policy (item :: items)) (hd : item.due ≤ now) :
    (l.attempt policy d now item).Balanced policy items := by
  have ⟨a, ha, hb, ho⟩ := h.exists_account
  have ⟨hn, hmax, hdue⟩ := hb.next ho
  have hlt : a.trials.length < policy.maxAttempts := by omega
  have htried error : (a.enter [.tried ⟨now, item.attempt, error⟩]).Regular policy :=
    hn ▸ (h.regular item.seq a ha).tried ho hlt (hdue ▸ hd) error
  have hq : (Worker.attempt policy d now l.queue l.world item).1 = _ := Worker.attempt_queue item
  unfold Ledger.attempt
  rw [hq]
  generalize (d.deliver now item.update l.world).1 = error
  cases error
  case none => exact h.finish _ ha (htried none) (by simp [Entry.ends])
  case some error =>
    have hopen : (a.enter [.tried ⟨now, item.attempt, some error⟩]).isOpen := by
      simp [ho, Entry.ends]
    dsimp only [Queue.settle]
    split
    case isTrue hlt =>
      refine h.reschedule _ now ha (htried (some error)) ⟨hb.update, ?_, fun _ => ⟨?_, hlt, ?_⟩⟩
      · exact iff_of_true (h.fit.live item (.head _)) hopen
      · simp [hn, Entry.trial?]
      · simp [Account.nextDue, Account.length_times, Entry.trial?, hn]
    case isFalse hge =>
      have hlast : item.attempt = policy.maxAttempts := hmax.antisymm (Nat.le_of_not_lt hge)
      refine h.finish _ ha ?_ (by simp [Entry.ends])
      have hr : ((a.enter [.tried ⟨now, item.attempt, some error⟩]).enter
          [.buried ⟨a.update, policy.maxAttempts, error⟩]).Regular policy :=
        (htried (some error)).bury hopen (by simp [← hlast, hn, Entry.trial?])
          (by simp [Entry.trial?])
      rw [← hlast, ← hb.update] at hr
      rwa [Account.enter_cons]

theorem Balanced.attempts (h : l.Balanced policy items) (hd : ∀ item ∈ items, item.due ≤ now) :
    (items.foldl (Ledger.attempt policy d now) l).Balanced policy [] := by
  induction items generalizing l
  case nil => exact h
  case cons item items hi =>
    have ⟨hd, hrest⟩ := List.forall_mem_cons.mp hd
    exact hi (h.attempt hd) hrest

theorem Balanced.act (h : l.Balanced policy []) (hmax : 1 ≤ policy.maxAttempts) (call : Call) :
    (l.act policy d call).Balanced policy [] := by
  cases call
  case enqueue now u => exact h.enqueue hmax now u
  case noteApplied u => exact h.noteApplied u
  case pass now =>
    exact (h.withoutDue now).attempts fun item hm =>
      (Queue.mem_due_iff.mp (List.mem_filter.mp hm).1).2

theorem Balanced.acts (h : l.Balanced policy []) (hmax : 1 ≤ policy.maxAttempts)
    (calls : List Call) : (calls.foldl (Ledger.act policy d) l).Balanced policy [] := by
  induction calls generalizing l
  case nil => exact h
  case cons call calls hi => exact hi (h.act hmax call)

end Ledger

-- The same delivery, with a list of the updates that are delivered.
def Delivery.listed (d : Delivery World) : Delivery (World × List Update) where
  deliver now u w := ((d.deliver now u w.1).1, (d.deliver now u w.1).2, w.2 ++ [u])
  bury now letter w := (d.bury now letter w.1, w.2)

namespace Worker

variable {policy : Policy} {d : Delivery World} {now : Nat} {q : Queue} {w : World}
  {us : List Update}

end Worker

namespace Ledger

section Failing

open Roster

end Failing

end Ledger
end LinkedCache.Retry
