import LinkedCache.Proofs.Run

-- The attempts that are made for updates, directly and by the retry worker. The queue keeps
-- obsolete items until they are due, and tells them by a number alone: for each key at most one
-- item is live, the one of the latest update that was dispatched with the key.

namespace LinkedCache

namespace Retry.Queue

variable {q : Queue} {flight items : List Scheduled} {item other : Scheduled} {policy : Policy}
  {now : Nat} {u : Update}

-- A queue some of whose items were taken out and are being delivered. A number is live as long as
-- one of all these items has it.
structure Fit (q : Queue) (flight : List Scheduled) : Prop where
  nodup : ((q.pending ++ flight).map (·.seq)).Nodup
  seq : ∀ item ∈ q.pending ++ flight, item.seq < q.nextSeq
  key : ∀ item ∈ q.pending ++ flight, item.key = item.update.supersedeKey
  sorted : Assoc.Sorted q.latest
  held : ∀ key n, q.latest.lookup key = some n →
    ∃ item ∈ q.pending ++ flight, item.key = key ∧ item.seq = n
  live : ∀ item ∈ flight, q.isLive item

theorem Fit.nodup_pending (h : q.Fit []) : (q.pending.map (·.seq)).Nodup := by
  simpa using h.nodup

theorem Fit.nodup_due (h : q.Fit []) (now : Nat) : ((q.due now).map (·.seq)).Nodup :=
  (((List.mergeSort_perm _ _).map _).nodup_iff).mpr
    (h.nodup_pending.sublist (List.filter_sublist.map _))

theorem Fit.eq_of_seq (h : q.Fit flight) (hi : item ∈ q.pending ++ flight)
    (ho : other ∈ q.pending ++ flight) (hs : item.seq = other.seq) : item = other :=
  List.inj_on_of_nodup_map h.nodup hi ho hs

theorem Fit.eq_of_key (h : q.Fit flight) (hi : item ∈ q.pending ++ flight)
    (ho : other ∈ q.pending ++ flight) (hl : q.isLive item) (hl' : q.isLive other)
    (hk : item.key = other.key) : item = other := by
  rw [isLive_iff] at hl hl'
  exact h.eq_of_seq hi ho (Option.some.inj (hl.symm.trans (hk ▸ hl')))

theorem Fit.nodup_live (h : q.Fit []) : ((q.pending.filter q.isLive).map (·.key)).Nodup := by
  refine List.Nodup.map_on (fun a ha b hb he => ?_) (h.nodup_pending.of_map.filter _)
  have ⟨ha, hla⟩ := List.mem_filter.mp ha
  have ⟨hb, hlb⟩ := List.mem_filter.mp hb
  exact h.eq_of_key (List.mem_append_left _ ha) (List.mem_append_left _ hb) hla hlb he

-- Between two passes the size of the queue is the number of its live items.
theorem Fit.size_eq (h : q.Fit []) : q.size = (q.pending.filter q.isLive).length := by
  have hp : (q.latest.map (·.1)).Perm ((q.pending.filter q.isLive).map (·.key)) := by
    refine (List.perm_ext_iff_of_nodup h.sorted.nodup h.nodup_live).mpr fun key => ?_
    rw [← Assoc.lookup_isSome_iff, Option.isSome_iff_exists]
    constructor
    · rintro ⟨n, hn⟩
      obtain ⟨item, hm, rfl, rfl⟩ := h.held key n hn
      rw [List.append_nil] at hm
      exact List.mem_map.mpr ⟨item, List.mem_filter.mpr ⟨hm, isLive_iff.mpr hn⟩, rfl⟩
    · intro hk
      obtain ⟨item, hm, rfl⟩ := List.mem_map.mp hk
      exact ⟨item.seq, isLive_iff.mp (List.mem_filter.mp hm).2⟩
  simpa [size] using hp.length_eq

theorem isLive_enqueue (hs : item.seq < q.nextSeq) :
    (q.enqueue policy now u).isLive item ↔ q.isLive item ∧ item.key ≠ u.supersedeKey := by
  simp only [isLive_iff, enqueue, Assoc.lookup_insert]
  by_cases hk : item.key = u.supersedeKey <;> simp [hk, hs.ne']

theorem isLive_noteApplied :
    (q.noteApplied u).isLive item ↔ q.isLive item ∧ item.key ≠ u.supersedeKey := by
  simp only [isLive_iff, noteApplied, Assoc.lookup_erase]
  by_cases hk : item.key = u.supersedeKey <;> simp [hk]

theorem isLive_finish (hl : q.isLive item) :
    (q.finish item).isLive other ↔ q.isLive other ∧ other.key ≠ item.key := by
  simp only [finish, hl, if_true, isLive_iff, Assoc.lookup_erase]
  by_cases hk : other.key = item.key <;> simp [hk]

theorem Fit.enqueue (h : q.Fit []) : (q.enqueue policy now u).Fit [] where
  nodup := by
    have hn := h.nodup
    have hs := h.seq
    simp only [List.append_nil, Queue.enqueue, List.map_append, List.map_cons, List.map_nil]
      at hn hs ⊢
    refine List.nodup_append.mpr ⟨hn, List.nodup_singleton _, fun n hm m hm' => ?_⟩
    obtain ⟨item, hi, rfl⟩ := List.mem_map.mp hm
    exact List.mem_singleton.mp hm' ▸ (hs item hi).ne
  seq item hm := by
    rw [List.append_nil] at hm
    obtain hm | hm := List.mem_append.mp hm
    · exact (h.seq item (List.mem_append_left _ hm)).trans (Nat.lt_succ_self _)
    · exact List.mem_singleton.mp hm ▸ Nat.lt_succ_self _
  key item hm := by
    rw [List.append_nil] at hm
    obtain hm | hm := List.mem_append.mp hm
    · exact h.key item (List.mem_append_left _ hm)
    · exact List.mem_singleton.mp hm ▸ rfl
  sorted := h.sorted.insert _ _
  held key n hl := by
    simp only [Queue.enqueue, Assoc.lookup_insert, List.append_nil, List.mem_append,
      List.mem_singleton] at hl ⊢
    split at hl
    case isTrue hk => exact ⟨_, .inr rfl, hk.symm, Option.some.inj hl⟩
    case isFalse =>
      have ⟨item, hm, he⟩ := h.held key n hl
      exact ⟨item, .inl (List.append_nil q.pending ▸ hm), he⟩
  live := by simp

theorem Fit.noteApplied (h : q.Fit []) : (q.noteApplied u).Fit [] where
  nodup := h.nodup
  seq := h.seq
  key := h.key
  sorted := h.sorted.erase _
  held key n hl := by
    simp only [Queue.noteApplied, Assoc.lookup_erase] at hl
    split at hl
    case isTrue => simp at hl
    case isFalse => exact h.held key n hl
  live := by simp

-- Obsolete items are dropped when they are due.
theorem Fit.withoutDue (h : q.Fit []) :
    (q.withoutDue now).Fit ((q.due now).filter q.isLive) := by
  have hmem : ∀ item ∈ (q.withoutDue now).pending ++ (q.due now).filter q.isLive,
      item ∈ q.pending ++ [] := by
    intro item hm
    rw [List.append_nil]
    obtain hm | hm := List.mem_append.mp hm
    · exact (List.mem_filter.mp hm).1
    · exact (mem_due_iff.mp (List.mem_filter.mp hm).1).1
  constructor
  case nodup =>
    rw [List.map_append]
    refine List.nodup_append.mpr ⟨h.nodup_pending.sublist (List.filter_sublist.map _),
      (h.nodup_due now).sublist (List.filter_sublist.map _), fun n hm m hm' he => ?_⟩
    obtain ⟨a, ha, rfl⟩ := List.mem_map.mp hm
    obtain ⟨b, hb, rfl⟩ := List.mem_map.mp hm'
    obtain rfl := h.eq_of_seq (hmem a (List.mem_append_left _ ha))
      (hmem b (List.mem_append_right _ hb)) he
    have hlt : now < a.due := by simpa using (List.mem_filter.mp ha).2
    exact absurd (mem_due_iff.mp (List.mem_filter.mp hb).1).2 (Nat.not_le.mpr hlt)
  case seq => exact fun item hm => h.seq item (hmem item hm)
  case key => exact fun item hm => h.key item (hmem item hm)
  case sorted => exact h.sorted
  case held =>
    intro key n hl
    obtain ⟨item, hm, rfl, rfl⟩ := h.held key n hl
    rw [List.append_nil] at hm
    refine ⟨item, ?_, rfl, rfl⟩
    by_cases hd : now < item.due
    case pos => exact List.mem_append_left _ (List.mem_filter.mpr ⟨hm, by simpa using hd⟩)
    case neg =>
      refine List.mem_append_right _ (List.mem_filter.mpr ⟨?_, isLive_iff.mpr hl⟩)
      exact mem_due_iff.mpr ⟨hm, Nat.le_of_not_lt hd⟩
  case live => exact fun item hm => (List.mem_filter.mp hm).2

theorem Fit.finish (h : q.Fit (item :: items)) : (q.finish item).Fit items := by
  have hl := h.live item (.head _)
  have hsub : (q.pending ++ items).Sublist (q.pending ++ item :: items) :=
    (List.sublist_cons_self item items).append_left q.pending
  have hp : (q.finish item).pending = q.pending := Queue.pending_finish
  have hs : (q.finish item).nextSeq = q.nextSeq := Queue.nextSeq_finish
  constructor
  case nodup => exact hp ▸ h.nodup.sublist (hsub.map _)
  case seq => exact fun i hm => hs ▸ h.seq i (hsub.subset (hp ▸ hm))
  case key => exact fun i hm => h.key i (hsub.subset (hp ▸ hm))
  case sorted => simpa [Queue.finish, hl] using h.sorted.erase _
  case held =>
    intro key n hn
    simp only [Queue.finish, hl, if_true, Assoc.lookup_erase] at hn
    split at hn
    case isTrue => simp at hn
    case isFalse hk =>
      obtain ⟨i, hm, rfl, rfl⟩ := h.held key n hn
      rw [hp]
      refine ⟨i, ?_, rfl, rfl⟩
      simp only [List.mem_append, List.mem_cons] at hm ⊢
      exact hm.imp_right fun hm => hm.resolve_left fun he => hk (he ▸ rfl)
  case live =>
    intro i hm
    refine (isLive_finish hl).mpr ⟨h.live i (.tail _ hm), fun hk => ?_⟩
    have hi : i ∈ q.pending ++ item :: items := List.mem_append_right _ (.tail _ hm)
    have he := h.eq_of_key hi (List.mem_append_right _ (.head _)) (h.live i (.tail _ hm)) hl hk
    have hn := h.nodup
    rw [List.map_append, List.map_cons, List.nodup_append] at hn
    exact (List.nodup_cons.mp hn.2.1).1 (List.mem_map.mpr ⟨i, hm, he ▸ rfl⟩)

theorem Fit.reschedule (h : q.Fit (item :: items)) :
    (q.reschedule policy now item).Fit items := by
  -- The item comes back with another time and another attempt, and else as it was.
  have hmem : ∀ i ∈ (q.reschedule policy now item).pending ++ items,
      ∃ i' ∈ q.pending ++ item :: items,
        i.seq = i'.seq ∧ i.key = i'.key ∧ i.update = i'.update := by
    intro i hm
    simp only [Queue.reschedule, List.mem_append, List.mem_singleton] at hm
    obtain (hm | rfl) | hm := hm
    · exact ⟨i, List.mem_append_left _ hm, rfl, rfl, rfl⟩
    · exact ⟨item, List.mem_append_right _ (.head _), rfl, rfl, rfl⟩
    · exact ⟨i, List.mem_append_right _ (.tail _ hm), rfl, rfl, rfl⟩
  constructor
  case nodup => simpa [Queue.reschedule] using h.nodup
  case seq =>
    intro i hm
    have ⟨i', hm, hs, _⟩ := hmem i hm
    exact hs ▸ h.seq i' hm
  case key =>
    intro i hm
    have ⟨i', hm, _, hk, hu⟩ := hmem i hm
    exact hk ▸ hu ▸ h.key i' hm
  case sorted => exact h.sorted
  case held =>
    intro key n hl
    obtain ⟨i, hm, rfl, rfl⟩ := h.held key n hl
    simp only [Queue.reschedule, List.mem_append, List.mem_cons, List.mem_nil_iff, or_false]
      at hm ⊢
    obtain hm | rfl | hm := hm
    · exact ⟨i, .inl (.inl hm), rfl, rfl⟩
    · exact ⟨_, .inl (.inr rfl), rfl, rfl⟩
    · exact ⟨i, .inr hm, rfl, rfl⟩
  case live => exact fun i hm => h.live i (.tail _ hm)

end Retry.Queue

-- One try to bring an update home: the number of its dispatch and what became of it.
structure Attempt where
  number : Nat
  update : Update
  answer : Except String Route

def Attempt.TookEffect (a : Attempt) : Prop :=
  a.answer = .ok .applied ∨ a.answer = .ok .published

-- What was dispatched, with the answers; the dispatch behind each number of the queue; and all
-- attempts, in the order in which they were made.
structure Log where
  dispatched : List (Update × Route) := []
  queued : List Nat := []
  attempts : List Attempt := []

namespace Log

open Retry (Queue Scheduled)

variable {log : Log} {n m : Nat} {u v : Update} {route : Route} {a : Attempt} {q q' : Queue}
  {flight items : List Scheduled} {item : Scheduled} {answer : Except String Route}

def dispatch (log : Log) (u : Update) (route : Route) (answer : Except String Route) : Log where
  dispatched := log.dispatched ++ [(u, route)]
  queued := log.queued ++ if route = .buffered then [log.dispatched.length] else []
  attempts := log.attempts ++ [⟨log.dispatched.length, u, answer⟩]

def retry (log : Log) (item : Scheduled) (answer : Except String Route) : Log :=
  { log with attempts := log.attempts ++ [⟨log.queued.getD item.seq 0, item.update, answer⟩] }

-- For each key the attempts go forward, and end with the first one that took effect.
structure Forward (log : Log) : Prop where
  recorded : ∀ a ∈ log.attempts, ∃ route, log.dispatched[a.number]? = some (a.update, route)
  ordered : log.attempts.Pairwise fun a b =>
    a.update.supersedeKey = b.update.supersedeKey → a.number ≤ b.number
  once : log.attempts.Pairwise fun a b => a.TookEffect → a.number ≠ b.number

-- The update of a dispatch is still to be brought home, and no later one has its key.
structure Latest (log : Log) (n : Nat) (u : Update) : Prop where
  dispatched : log.dispatched[n]? = some (u, .buffered)
  last : ∀ m v route, n < m → log.dispatched[m]? = some (v, route) →
    v.supersedeKey ≠ u.supersedeKey
  failed : ∀ a ∈ log.attempts, a.number = n → ¬a.TookEffect

theorem Latest.lt (h : log.Latest n u) : n < log.dispatched.length :=
  (List.getElem?_eq_some_iff.mp h.dispatched).1

theorem Forward.lt (h : log.Forward) (ha : a ∈ log.attempts) :
    a.number < log.dispatched.length :=
  have ⟨_, hr⟩ := h.recorded a ha
  (List.getElem?_eq_some_iff.mp hr).1

theorem Forward.dispatch (h : log.Forward) (u : Update) (route : Route)
    (answer : Except String Route) : (log.dispatch u route answer).Forward where
  recorded a ha := by
    obtain ha | ha := List.mem_append.mp ha
    · have ⟨route, hr⟩ := h.recorded a ha
      exact ⟨route, (List.getElem?_append_left (h.lt ha)).trans hr⟩
    · exact List.mem_singleton.mp ha ▸ ⟨route, List.getElem?_concat_length⟩
  ordered := by
    refine List.pairwise_append.mpr ⟨h.ordered, List.pairwise_singleton .., ?_⟩
    intro a ha b hb _
    exact List.mem_singleton.mp hb ▸ (h.lt ha).le
  once := by
    refine List.pairwise_append.mpr ⟨h.once, List.pairwise_singleton .., ?_⟩
    intro a ha b hb _
    exact List.mem_singleton.mp hb ▸ (h.lt ha).ne

theorem Latest.dispatch (h : log.Latest n u) (hk : u.supersedeKey ≠ v.supersedeKey)
    (route : Route) (answer : Except String Route) :
    (log.dispatch v route answer).Latest n u where
  dispatched := (List.getElem?_append_left h.lt).trans h.dispatched
  last m w route' hm hw := by
    obtain hl | hl := lt_or_ge m log.dispatched.length
    · rw [Log.dispatch, List.getElem?_append_left hl] at hw
      exact h.last m w route' hm hw
    · rw [Log.dispatch, List.getElem?_append_right hl, List.getElem?_singleton] at hw
      split at hw
      case isTrue => cases hw; exact Ne.symm hk
      case isFalse => simp at hw
  failed a ha hn := by
    obtain ha | ha := List.mem_append.mp ha
    · exact h.failed a ha hn
    · exact absurd hn (List.mem_singleton.mp ha ▸ h.lt.ne')

theorem Forward.latest_dispatch (h : log.Forward) (u : Update)
    (hn : answer ≠ .ok .applied ∧ answer ≠ .ok .published) :
    (log.dispatch u .buffered answer).Latest log.dispatched.length u where
  dispatched := List.getElem?_concat_length
  last m v route hm hv := by
    rw [Log.dispatch, List.getElem?_eq_none (by simpa using Nat.succ_le_of_lt hm)] at hv
    simp at hv
  failed a ha he := by
    obtain ha | ha := List.mem_append.mp ha
    · exact absurd he (h.lt ha).ne
    · exact List.mem_singleton.mp ha ▸ not_or.mpr hn

theorem Forward.retry (h : log.Forward) (hq : log.queued[item.seq]? = some n)
    (hl : log.Latest n item.update) (answer : Except String Route) :
    (log.retry item answer).Forward := by
  have hn : log.queued.getD item.seq 0 = n := by simp [hq]
  constructor
  case recorded =>
    intro a ha
    obtain ha | ha := List.mem_append.mp ha
    · exact h.recorded a ha
    · rw [List.mem_singleton.mp ha, hn]
      exact ⟨_, hl.dispatched⟩
  case ordered =>
    refine List.pairwise_append.mpr ⟨h.ordered, List.pairwise_singleton .., ?_⟩
    intro a ha b hb hk
    rw [List.mem_singleton.mp hb] at hk ⊢
    rw [hn]
    by_contra hlt
    have ⟨route, hr⟩ := h.recorded a ha
    exact hl.last a.number a.update route (Nat.lt_of_not_le hlt) hr hk
  case once =>
    refine List.pairwise_append.mpr ⟨h.once, List.pairwise_singleton .., ?_⟩
    intro a ha b hb ht he
    rw [List.mem_singleton.mp hb, hn] at he
    exact hl.failed a ha he ht

theorem Latest.retry (h : log.Latest m v) (hq : log.queued[item.seq]? = some n)
    (ht : answer = .ok .applied ∨ answer = .ok .published → m ≠ n) :
    (log.retry item answer).Latest m v where
  dispatched := h.dispatched
  last := h.last
  failed a ha he hte := by
    obtain ha | ha := List.mem_append.mp ha
    · exact h.failed a ha he hte
    · rw [List.mem_singleton.mp ha] at he hte
      simp only [hq, List.getD_eq_getElem?_getD, Option.getD_some] at he
      exact ht hte he.symm

-- The queue and the log of it belong together: each live item is about the latest dispatch with its
-- key.
structure Follows (log : Log) (q : Queue) (flight : List Scheduled) : Prop where
  fit : q.Fit flight
  forward : log.Forward
  length : log.queued.length = q.nextSeq
  latest : ∀ item ∈ q.pending ++ flight, q.isLive item →
    ∃ n, log.queued[item.seq]? = some n ∧ log.Latest n item.update

theorem Follows.enqueue (h : log.Follows q []) (policy : Retry.Policy) (now : Nat) (u : Update)
    (hn : answer ≠ .ok .applied ∧ answer ≠ .ok .published) :
    (log.dispatch u .buffered answer).Follows (q.enqueue policy now u) [] where
  fit := h.fit.enqueue
  forward := h.forward.dispatch u .buffered answer
  length := by simp [Log.dispatch, Queue.enqueue, h.length]
  latest item hm hl := by
    rw [List.append_nil] at hm
    obtain hm | hm := List.mem_append.mp hm
    case inl =>
      have hm := List.mem_append_left [] hm
      have ⟨hl, hk⟩ := (Queue.isLive_enqueue (h.fit.seq item hm)).mp hl
      have ⟨n, hq, hl⟩ := h.latest item hm hl
      refine ⟨n, ?_, hl.dispatch (h.fit.key item hm ▸ hk) .buffered answer⟩
      exact (List.getElem?_append_left (List.getElem?_eq_some_iff.mp hq).1).trans hq
    case inr =>
      rw [List.mem_singleton.mp hm]
      refine ⟨log.dispatched.length, ?_, h.forward.latest_dispatch u hn⟩
      simp [Log.dispatch, ← h.length]

theorem Follows.noteApplied (h : log.Follows q []) (hr : route ≠ .buffered) (u : Update)
    (answer : Except String Route) :
    (log.dispatch u route answer).Follows (q.noteApplied u) [] where
  fit := h.fit.noteApplied
  forward := h.forward.dispatch u route answer
  length := by simp [Log.dispatch, Queue.noteApplied, hr, h.length]
  latest item hm hl := by
    have ⟨hl, hk⟩ := Queue.isLive_noteApplied.mp hl
    have ⟨n, hq, hl⟩ := h.latest item hm hl
    refine ⟨n, ?_, hl.dispatch (h.fit.key item hm ▸ hk) route answer⟩
    simpa [Log.dispatch, hr] using hq

theorem Follows.withoutDue (h : log.Follows q []) (now : Nat) :
    log.Follows (q.withoutDue now) ((q.due now).filter q.isLive) where
  fit := h.fit.withoutDue
  forward := h.forward
  length := h.length
  latest item hm hl := by
    refine h.latest item (List.mem_append_left _ ?_) hl
    obtain hm | hm := List.mem_append.mp hm
    · exact (List.mem_filter.mp hm).1
    · exact (Queue.mem_due_iff.mp (List.mem_filter.mp hm).1).1

theorem Follows.finish (h : log.Follows q (item :: items)) (answer : Except String Route) :
    (log.retry item answer).Follows (q.finish item) items := by
  have hi : item ∈ q.pending ++ item :: items := List.mem_append_right _ (.head _)
  have hl := h.fit.live item (.head _)
  have ⟨n, hq, hn⟩ := h.latest item hi hl
  have hs : (q.finish item).nextSeq = q.nextSeq := Queue.nextSeq_finish
  have hp : (q.finish item).pending = q.pending := Queue.pending_finish
  refine ⟨h.fit.finish, h.forward.retry hq hn answer, hs ▸ h.length, fun i hm hli => ?_⟩
  have hm : i ∈ q.pending ++ item :: items := by
    rw [hp] at hm
    exact (List.mem_append.mp hm).elim (List.mem_append_left _) fun hm =>
      List.mem_append_right _ (.tail _ hm)
  have ⟨hli, hk⟩ := (Queue.isLive_finish hl).mp hli
  have ⟨m, hqi, hmi⟩ := h.latest i hm hli
  refine ⟨m, hqi, hmi.retry hq fun _ he => hk ?_⟩
  -- One dispatch has one update, and hence one key.
  have hu := hmi.dispatched.symm.trans (he ▸ hn.dispatched)
  simp only [Option.some.injEq, Prod.mk.injEq, and_true] at hu
  rw [h.fit.key i hm, h.fit.key item hi, hu]

theorem Follows.reschedule (h : log.Follows q (item :: items)) (policy : Retry.Policy) (now : Nat)
    (ha : answer ≠ .ok .applied ∧ answer ≠ .ok .published) :
    (log.retry item answer).Follows (q.reschedule policy now item) items := by
  have hi : item ∈ q.pending ++ item :: items := List.mem_append_right _ (.head _)
  have hl := h.fit.live item (.head _)
  have ⟨n, hq, hn⟩ := h.latest item hi hl
  refine ⟨h.fit.reschedule, h.forward.retry hq hn answer, h.length, fun i hm hli => ?_⟩
  simp only [Queue.reschedule, List.mem_append, List.mem_singleton] at hm
  obtain (hm | rfl) | hm := hm
  case inl.inr => exact ⟨n, hq, hn.retry hq fun ht => absurd ht (not_or.mpr ha)⟩
  all_goals
    have hm : i ∈ q.pending ++ item :: items := by simp [hm]
    have ⟨m, hqi, hmi⟩ := h.latest i hm hli
    exact ⟨m, hqi, hmi.retry hq fun ht => absurd ht (not_or.mpr ha)⟩

theorem Follows.settle (h : log.Follows q (item :: items)) (policy : Retry.Policy) (now : Nat)
    (error : Option String)
    (ha : error.isSome → answer ≠ .ok .applied ∧ answer ≠ .ok .published) :
    (log.retry item answer).Follows (q.settle policy now item error).1 items := by
  unfold Queue.settle
  split
  case h_1 => exact h.finish answer
  case h_2 =>
    split
    case isTrue => exact h.reschedule policy now (ha rfl)
    case isFalse => exact h.finish answer

end Log

namespace Pipeline

open Retry (Queue Scheduled DeadLetter)

variable {Outbound : Type} [Publisher Outbound]

-- Deliveries between which anything may happen to the cache and to the publisher.
def deliveryAmid (amid : Update → Router Outbound → Router Outbound) (wall : Int) :
    Retry.Delivery (Router Outbound × List DeadLetter) where
  deliver now u w := (delivery wall).deliver now u (amid u w.1, w.2)
  bury := (delivery wall).bury

def passAmid (p : Pipeline Outbound) (now : Moment)
    (amid : Update → Router Outbound → Router Outbound) : Pipeline Outbound :=
  let (retry, router, _) := Retry.Worker.pass p.policy (deliveryAmid amid now.wall) now.ticks
    p.retry (p.router, [])
  { p with retry, router }

theorem passAmid_id (p : Pipeline Outbound) (now : Moment) :
    p.passAmid now (fun _ r => r) = (p.pass now).2 :=
  rfl

-- The log of the deliveries of some items.
def retryAll (policy : Retry.Policy) (amid : Update → Router Outbound → Router Outbound)
    (now : Moment) (q : Queue) (w : Router Outbound × List DeadLetter) (log : Log) :
    List Scheduled → Log
  | [] => log
  | item :: items =>
    let answer := ((amid item.update w.1).route item.update now.wall).1
    let (q, w) := Retry.Worker.attempt policy (deliveryAmid amid now.wall) now.ticks q w item
    retryAll policy amid now q w (log.retry item answer) items

inductive Turn (Outbound : Type)
  | become (router : Router Outbound)
  | dispatch (now : Moment) (u : Update)
  | pass (now : Moment) (amid : Update → Router Outbound → Router Outbound)

def take (p : Pipeline Outbound) (log : Log) : Turn Outbound → Pipeline Outbound × Log
  | .become router => ({ p with router }, log)
  | .dispatch now u =>
    let (route, p') := p.dispatch now u
    (p', log.dispatch u route (p.router.route u now.wall).1)
  | .pass now amid =>
    (p.passAmid now amid, retryAll p.policy amid now (p.retry.withoutDue now.ticks) (p.router, [])
      log ((p.retry.due now.ticks).filter p.retry.isLive))

variable {log : Log} {p : Pipeline Outbound} {q : Queue} {items : List Scheduled}

end Pipeline
end LinkedCache
