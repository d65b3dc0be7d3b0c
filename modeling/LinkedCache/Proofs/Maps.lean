import LinkedCache.Proofs.Assoc
import LinkedCache.Proofs.Handles
import LinkedCache.Proofs.Table

-- A store as two maps: what is kept by id, and the ids by their places. Each write touches both of
-- them, and a reader goes from one to the other. They never come apart, and so are read as the one
-- table of entries.

namespace LinkedCache

-- What is kept of an entry under its id.
structure Cell where
  resource : Resource
  timestamp : Int
  seq : Nat
  version : Nat
deriving Inhabited, Repr

def Entry.cell (e : Entry) : Cell :=
  ⟨e.resource, e.timestamp, e.seq, e.version⟩

namespace Store

structure Maps where
  fields : List String
  cells : List (String × Cell) := []
  order : List (Nat × String) := []
  index : Index := []
  nextSeq : Nat := 0
  nextVersion : Nat := 0
  lastUpdated : Int := 0
deriving Inhabited, Repr

namespace Maps

def empty (fields : List String) : Maps :=
  { fields := fields.map Text.lower }

def size (m : Maps) : Nat := m.cells.length

def cell? (m : Maps) (id : String) : Option Cell :=
  m.cells.lookup id

def get? (m : Maps) (id : String) : Option Resource :=
  (m.cell? id).map (·.resource)

-- The rows of the table. A place without a cell is skipped.
def snapshot (m : Maps) : List (String × Int × Resource) :=
  m.order.filterMap fun place => (m.cell? place.2).map fun cell =>
    (place.2, cell.timestamp, cell.resource)

def list (m : Maps) (size offset : Nat) (since : Int) (filter : Resource → Bool) :
    List Resource :=
  let cells := m.order.filterMap fun place => m.cell? place.2
  let found := (cells.filter fun cell => since ≤ cell.timestamp).filter fun cell =>
    filter cell.resource
  let rest := found.drop offset
  (if size = 0 then rest else rest.take size).map (·.resource)

def unindex (m : Maps) (id : String) (r : Resource) : Maps :=
  { m with
    index := (indexed m.fields r).foldl (fun rows key => rows.release key.1 key.2 id) m.index }

-- Writes an id at a place that belongs to it.
def write (m : Maps) (id : String) (r : Resource) (timestamp : Int) (seq : Nat) : Maps :=
  { m with
    cells := Assoc.insert id ⟨r, timestamp, seq, m.nextVersion⟩ m.cells
    index := (indexed m.fields r).foldl (fun rows key => Index.claim key.1 key.2 id rows) m.index
    nextVersion := m.nextVersion + 1
    lastUpdated := max m.lastUpdated timestamp }

def insertPlace (seq : Nat) (id : String) : List (Nat × String) → List (Nat × String)
  | [] => [(seq, id)]
  | place :: rest =>
    if seq < place.1 then (seq, id) :: place :: rest
    else if seq = place.1 then (seq, id) :: rest
    else place :: insertPlace seq id rest

def put (m : Maps) (id : String) (r : Resource) (timestamp : Int) : Maps :=
  match m.cell? id with
  | some old =>
    let m := { m with cells := Assoc.erase id m.cells }
    (m.unindex id old.resource).write id r timestamp old.seq
  | none =>
    let m' := { m with nextSeq := m.nextSeq + 1, order := insertPlace m.nextSeq id m.order }
    m'.write id r timestamp m.nextSeq

def isCurrent (m : Maps) (id : String) (seen : Cell) : Bool :=
  match m.cell? id with
  | some cell => cell.seq == seen.seq && cell.version == seen.version
  | none => false

def putIfCurrent (m : Maps) (id : String) (seen : Cell) (r : Resource) (timestamp : Int) :
    Bool × Maps :=
  if m.isCurrent id seen then (true, (m.unindex id seen.resource).write id r timestamp seen.seq)
  else (false, m)

-- Takes an id out of both maps, and answers what was there.
def drop (m : Maps) (id : String) : Option Resource × Maps :=
  match m.cell? id with
  | some old =>
    let m := { m with cells := Assoc.erase id m.cells }
    (some old.resource,
      { m.unindex id old.resource with order := m.order.filter (·.1 != old.seq) })
  | none => (none, m)

def remove (m : Maps) (id : String) (timestamp : Int) : Option Resource × Maps :=
  match m.drop id with
  | (some old, m) => (some old, { m with lastUpdated := max m.lastUpdated timestamp })
  | (none, m) => (none, m)

def stale (m : Maps) (cutoff : Int) : List String :=
  (m.order.map (·.2)).filter fun id => (m.cell? id).any fun cell => cell.timestamp < cutoff

-- Drops ids in a row, and answers those that were there.
def dropAll (m : Maps) : List String → List (String × Resource) × Maps
  | [] => ([], m)
  | id :: ids =>
    let dropped := m.drop id
    let rest := dropped.2.dropAll ids
    ((dropped.1.map fun r => (id, r)).toList ++ rest.1, rest.2)

def evict (m : Maps) (cutoff : Int) : List (String × Resource) × Maps :=
  m.dropAll (m.stale cutoff)

def perform (m : Maps) : Action → Maps
  | .put id r t => m.put id r t
  | .putIfCurrent id seen r t => (m.putIfCurrent id seen.cell r t).2
  | .remove id t => (m.remove id t).2
  | .evict cutoff => (m.evict cutoff).2

def performAll (m : Maps) (actions : List Action) : Maps :=
  actions.foldl perform m

variable {m : Maps} {s : Store} {id : String} {old seen e : Entry} {a : Action}
  {created : List String} {read : List Entry}

-- Whether two maps say the same as a table of entries.
structure Keeps (m : Maps) (s : Store) : Prop where
  fields : m.fields = s.fields
  cells : ∀ id, m.cell? id = (s.entry? id).map Entry.cell
  sorted : Assoc.Sorted m.cells
  order : m.order = s.entries.map fun e => (e.seq, e.id)
  index : m.index = s.index
  nextSeq : m.nextSeq = s.nextSeq
  nextVersion : m.nextVersion = s.nextVersion
  lastUpdated : m.lastUpdated = s.lastUpdated

theorem keeps_empty (type : Descriptor) (declared : List String) :
    (empty declared).Keeps (Store.empty type declared) where
  fields := rfl
  cells _ := rfl
  sorted := .nil
  order := rfl
  index := rfl
  nextSeq := rfl
  nextVersion := rfl
  lastUpdated := rfl

section Writing

theorem insertPlace_of_lt {seq : Nat} {order : List (Nat × String)}
    (h : ∀ place ∈ order, place.1 < seq) : insertPlace seq id order = order ++ [(seq, id)] := by
  induction order
  case nil => rfl
  case cons place rest hi =>
    have ⟨hp, hr⟩ := List.forall_mem_cons.mp h
    rw [insertPlace, if_neg (Nat.lt_asymm hp), if_neg (Nat.ne_of_gt hp), hi hr, List.cons_append]

-- An entry is written anew at its place, whether its cell was taken out before or not.
theorem Keeps.overwrite {cells : List (String × Cell)} (h : m.Keeps s) (hl : s.Listed created)
    (ho : s.entry? old.id = some old) (hs : Assoc.Sorted cells)
    (hc : ∀ i, i ≠ old.id → cells.lookup i = m.cell? i) (r : Resource) (t : Int) :
    ((unindex { m with cells := cells } old.id old.resource).write old.id r t old.seq).Keeps
      (s.overwrite old r t) where
  fields := h.fields
  cells i := by
    rw [entry?_overwrite]
    refine (Assoc.lookup_insert ..).trans ?_
    by_cases hi : i = old.id
    case pos =>
      rw [if_pos hi, hi, ho]
      simp [Entry.cell, unindex, h.nextVersion]
    case neg =>
      rw [if_neg hi]
      refine (hc i hi).trans ?_
      simp [h.cells, hi]
  sorted := hs.insert ..
  order := h.order.trans (map_entries_overwrite hl.nodup ho fun _ => rfl).symm
  index := by
    simp only [write, unindex, h.fields, h.index]
    rfl
  nextSeq := h.nextSeq
  nextVersion := congrArg (· + 1) h.nextVersion
  lastUpdated := congrArg (max · t) h.lastUpdated

-- A new place is the last one of the table.
theorem Keeps.create (h : m.Keeps s) (hl : s.Listed created) (hn : s.entry? id = none)
    (r : Resource) (t : Int) :
    (write { m with nextSeq := m.nextSeq + 1, order := insertPlace m.nextSeq id m.order } id r t
      m.nextSeq).Keeps (s.create id r t) where
  fields := h.fields
  cells i := by
    rw [entry?_create t hn]
    refine (Assoc.lookup_insert ..).trans ?_
    by_cases hi : i = id
    case pos =>
      rw [if_pos hi, if_pos hi, ← h.nextSeq, ← h.nextVersion]
      rfl
    case neg =>
      rw [if_neg hi, if_neg hi]
      exact h.cells i
  sorted := h.sorted.insert ..
  order := by
    have hlt : ∀ place ∈ m.order, place.1 < m.nextSeq := by
      intro place hp
      rw [h.order] at hp
      obtain ⟨e, he, rfl⟩ := List.mem_map.mp hp
      exact h.nextSeq ▸ hl.nextSeq e.seq (List.mem_map_of_mem he)
    refine (insertPlace_of_lt hlt).trans ?_
    rw [h.order, h.nextSeq, Store.create, List.map_append]
    rfl
  index := by
    simp only [write, h.fields, h.index]
    rfl
  nextSeq := congrArg (· + 1) h.nextSeq
  nextVersion := congrArg (· + 1) h.nextVersion
  lastUpdated := congrArg (max · t) h.lastUpdated

theorem Keeps.put (h : m.Keeps s) (hl : s.Listed created) (id : String) (r : Resource) (t : Int) :
    (m.put id r t).Keeps (s.put id r t) := by
  unfold Maps.put Store.put
  rw [h.cells]
  cases ho : s.entry? id
  case none => exact h.create hl ho r t
  case some old =>
    obtain rfl := entry?_id ho
    refine h.overwrite hl ho (h.sorted.erase _) (fun i hi => ?_) r t
    rw [Assoc.lookup_erase, if_neg hi, cell?]

theorem Keeps.isCurrent_eq (h : m.Keeps s) (id : String) (seen : Entry) :
    m.isCurrent id seen.cell = s.isCurrent id seen := by
  unfold Maps.isCurrent Store.isCurrent
  rw [h.cells]
  cases s.entry? id <;> rfl

theorem Keeps.fst_putIfCurrent (h : m.Keeps s) (id : String) (seen : Entry) (r : Resource)
    (t : Int) : (m.putIfCurrent id seen.cell r t).1 = s.isCurrent id seen := by
  rw [← h.isCurrent_eq, Maps.putIfCurrent]
  cases m.isCurrent id seen.cell <;> rfl

theorem Keeps.putIfCurrent (h : m.Keeps s) (hl : s.Listed created) (hd : s.Dated read)
    (hs : seen ∈ read) (id : String) (r : Resource) (t : Int) :
    (m.putIfCurrent id seen.cell r t).2.Keeps (s.putIfCurrent id seen r t) := by
  unfold Maps.putIfCurrent Store.putIfCurrent
  rw [h.isCurrent_eq]
  split
  case isFalse => exact h
  case isTrue hc =>
    have ho := (hd.isCurrent_iff hs).mp hc
    obtain rfl := entry?_id ho
    exact h.overwrite hl ho h.sorted (fun _ _ => rfl) r t

end Writing

section Dropping

theorem Keeps.drop (h : m.Keeps s) (hl : s.Listed created) (he : s.entry? e.id = some e) :
    (m.drop e.id).1 = some e.resource ∧ (m.drop e.id).2.Keeps (s.drop e) := by
  unfold Maps.drop
  rw [h.cells, he, Option.map_some]
  refine ⟨rfl, h.fields, fun i => ?cells, h.sorted.erase _, ?order, ?index, h.nextSeq,
    h.nextVersion, h.lastUpdated⟩
  case cells =>
    rw [entry?_drop]
    refine (Assoc.lookup_erase ..).trans ?_
    split
    case isTrue => rfl
    case isFalse => exact h.cells i
  case order =>
    refine (congrArg (List.filter _) h.order).trans ?_
    rw [List.filter_map]
    refine congrArg _ (List.filter_congr fun e' he' => ?_)
    change (e'.seq != e.seq) = (e'.id != e.id)
    rw [Bool.eq_iff_iff, bne_iff_ne, bne_iff_ne]
    exact not_congr (hl.seq_eq_iff he' (mem_entries he))
  case index =>
    simp only [unindex, h.fields, h.index]
    rfl

theorem Keeps.remove (h : m.Keeps s) (hl : s.Listed created) (id : String) (t : Int) :
    (m.remove id t).1 = s.get? id ∧ (m.remove id t).2.Keeps (s.remove id t) := by
  unfold Store.remove Store.get?
  cases he : s.entry? id
  case none =>
    have hd : m.drop id = (none, m) := by rw [Maps.drop, h.cells, he, Option.map_none]
    rw [Maps.remove, hd]
    exact ⟨rfl, h⟩
  case some e =>
    obtain rfl := entry?_id he
    have ⟨ho, hk⟩ := h.drop hl he
    rw [Maps.remove, ← Prod.eta (m.drop e.id), ho]
    exact ⟨rfl, { hk with lastUpdated := congrArg (max · t) hk.lastUpdated }⟩

theorem Keeps.dropAll (h : m.Keeps s) (hl : s.Listed created) {es : List Entry}
    (hn : (es.map (·.id)).Nodup) (he : ∀ e ∈ es, s.entry? e.id = some e) :
    (m.dropAll (es.map (·.id))).1 = es.map (fun e => (e.id, e.resource)) ∧
      (m.dropAll (es.map (·.id))).2.Keeps (es.foldl Store.drop s) := by
  induction es generalizing m s
  case nil => exact ⟨rfl, h⟩
  case cons e es hi =>
    have ⟨hne, hn⟩ := List.nodup_cons.mp hn
    have ⟨hhead, htail⟩ := List.forall_mem_cons.mp he
    have ⟨ho, hk⟩ := h.drop hl hhead
    have hrest := hi hk (hl.drop e) hn fun e' he' => by
      have hid : e'.id ≠ e.id := fun hid => hne (List.mem_map.mpr ⟨e', he', hid⟩)
      rw [entry?_drop, if_neg hid, htail e' he']
    rw [List.map_cons, Maps.dropAll, ho]
    exact ⟨congrArg _ hrest.1, hrest.2⟩

theorem Keeps.stale_eq (h : m.Keeps s) (hl : s.Listed created) (cutoff : Int) :
    m.stale cutoff = (s.olderThan cutoff).map (·.id) := by
  rw [stale, h.order, List.map_map, List.filter_map]
  refine congrArg _ (List.filter_congr fun e he => ?_)
  rw [Function.comp_apply, Function.comp_apply, h.cells, entry?_of_mem hl.nodup he]
  rfl

theorem Keeps.evict (h : m.Keeps s) (hl : s.Listed created) (cutoff : Int) :
    (m.evict cutoff).1 = (s.olderThan cutoff).map (fun e => (e.id, e.resource)) ∧
      (m.evict cutoff).2.Keeps (s.evict cutoff) := by
  rw [Maps.evict, h.stale_eq hl]
  exact h.dropAll hl (hl.nodup.sublist (List.filter_sublist.map _)) fun e he =>
    entry?_of_mem hl.nodup (mem_olderThan_iff.mp he).1

end Dropping

theorem Keeps.perform {actions : List Action} (h : m.Keeps s) (hl : s.Listed created)
    (hd : s.Dated read) (ha : s.ReadsHandles read (a :: actions)) :
    (m.perform a).Keeps (s.perform a) := by
  cases a
  case put id r t => exact h.put hl id r t
  case putIfCurrent id seen r t => exact h.putIfCurrent hl hd ha.1 id r t
  case remove id t => exact (h.remove hl id t).2
  case evict cutoff => exact (h.evict hl cutoff).2

theorem Keeps.performAll {actions : List Action} (h : m.Keeps s) (hl : s.Listed created)
    (hd : s.Dated read) (ha : s.ReadsHandles read actions) :
    (m.performAll actions).Keeps (s.performAll actions) := by
  induction actions generalizing m s created read
  case nil => exact h
  case cons a actions hi =>
    exact hi (h.perform hl hd ha) (hl.perform hd ha) (hd.perform ha) ha.2

section Reading

-- No place is without a cell, and no cell without its place.
theorem Keeps.mem_order_iff (h : m.Keeps s) (hl : s.Listed created) {seq : Nat} :
    (seq, id) ∈ m.order ↔ ∃ cell, m.cell? id = some cell ∧ cell.seq = seq := by
  rw [h.order, h.cells]
  simp only [List.mem_map, Prod.mk.injEq, Option.map_eq_some_iff]
  constructor
  · rintro ⟨e, he, hs, rfl⟩
    exact ⟨e.cell, ⟨e, entry?_of_mem hl.nodup he, rfl⟩, hs⟩
  · rintro ⟨_, ⟨e, he, rfl⟩, hs⟩
    exact ⟨e, mem_entries he, hs, entry?_id he⟩

-- A reader that follows the places meets the cell of each entry.
theorem Keeps.filterMap_order {α : Type} (h : m.Keeps s) (hl : s.Listed created)
    (f : String → Cell → α) :
    (m.order.filterMap fun place => (m.cell? place.2).map (f place.2)) =
      s.entries.map fun e => f e.id e.cell := by
  rw [h.order, List.filterMap_map, ← List.filterMap_eq_map]
  refine List.filterMap_congr fun e he => ?_
  rw [Function.comp_apply, h.cells, entry?_of_mem hl.nodup he]
  rfl

theorem Keeps.snapshot_eq (h : m.Keeps s) (hl : s.Listed created) : m.snapshot = s.snapshot :=
  h.filterMap_order hl fun id cell => (id, cell.timestamp, cell.resource)

theorem Keeps.list_eq (h : m.Keeps s) (hl : s.Listed created) (size offset : Nat) (since : Int)
    (f : Resource → Bool) : m.list size offset since f = s.list size offset since f := by
  have hcells : (m.order.filterMap fun place => m.cell? place.2) = s.entries.map Entry.cell := by
    simpa using h.filterMap_order hl fun _ cell => cell
  unfold Maps.list Store.list
  dsimp only
  rw [hcells, List.filter_filter, List.filter_map, ← List.map_drop]
  simp only [Function.comp_def, Entry.cell, Bool.and_comm (f _)]
  split
  case isTrue =>
    rw [List.map_map]
    rfl
  case isFalse =>
    rw [← List.map_take, List.map_map]
    rfl

theorem Keeps.size_eq (h : m.Keeps s) (hl : s.Listed created) : m.size = s.size := by
  have hp : (m.cells.map (·.1)).Perm (s.entries.map (·.id)) := by
    refine (List.perm_ext_iff_of_nodup h.sorted.nodup hl.nodup).mpr fun id => ?_
    rw [← Assoc.lookup_isSome_iff, ← cell?, h.cells, Option.isSome_map, entry?_isSome_iff]
  simpa [Maps.size, Store.size] using hp.length_eq

theorem Keeps.get?_eq (h : m.Keeps s) (id : String) : m.get? id = s.get? id := by
  rw [Maps.get?, Store.get?, h.cells, Option.map_map]
  rfl

-- Whether two maps answer as a table of entries does, with one place for each id that is there.
structure ReadsAs (m : Maps) (s : Store) : Prop where
  snapshot : m.snapshot = s.snapshot
  size : m.size = s.size
  get? : ∀ id, m.get? id = s.get? id
  list : ∀ size offset since f, m.list size offset since f = s.list size offset since f
  putIfCurrent : ∀ id seen r t, (m.putIfCurrent id seen.cell r t).1 = s.isCurrent id seen
  remove : ∀ id t, (m.remove id t).1 = s.get? id
  evict : ∀ cutoff,
    (m.evict cutoff).1 = (s.olderThan cutoff).map (fun e => (e.id, e.resource)) ∧
    (m.evict cutoff).2.snapshot = (s.evict cutoff).snapshot ∧
    (m.evict cutoff).2.lastUpdated = (s.evict cutoff).lastUpdated
  lastUpdated : m.lastUpdated = s.lastUpdated
  order : ∀ seq id, (seq, id) ∈ m.order ↔ ∃ cell, m.cell? id = some cell ∧ cell.seq = seq

theorem Keeps.readsAs (h : m.Keeps s) (hl : s.Listed created) : m.ReadsAs s where
  snapshot := h.snapshot_eq hl
  size := h.size_eq hl
  get? := h.get?_eq
  list := h.list_eq hl
  putIfCurrent := h.fst_putIfCurrent
  remove id t := (h.remove hl id t).1
  evict cutoff := by
    have ⟨hout, hk⟩ := h.evict hl cutoff
    exact ⟨hout, hk.snapshot_eq (hl.foldl_drop _), hk.lastUpdated⟩
  lastUpdated := h.lastUpdated
  order _ _ := h.mem_order_iff hl

end Reading

end Maps

-- An id stands in the table where it was last brought into it, and the two maps answer as this
-- table does.
theorem table_performAll (type : Descriptor) (declared : List String) (actions : List Action)
    (h : (empty type declared).ReadsHandles [] actions) :
    let s := (empty type declared).performAll actions
    let m := (Maps.empty declared).performAll actions
    let created := (empty type declared).gathered created? actions
    let stamps := (empty type declared).gathered stamp? actions
    m.ReadsAs s ∧
    s.snapshot = created.dedup.filterMap (fun id => (s.entry? id).map Entry.row) ∧
    (s.snapshot.map (·.1)).Nodup ∧
    (∀ id r, s.get? id = some r ↔ ∃ t, (id, t, r) ∈ s.snapshot) ∧
    (s.entries.map (·.seq)).Pairwise (· < ·) ∧
    s.size = s.snapshot.length ∧
    (∀ since f size offset, s.list size offset since f =
      let rest := (s.snapshot.filter fun (_, t, r) => decide (since ≤ t) && f r).drop offset
      (if size = 0 then rest else rest.take size).map (·.2.2)) ∧
    (∀ since f k n, 0 < k → (s.list 0 0 since f).length ≤ n * k →
      (List.range n).flatMap (fun i => s.list k (i * k) since f) = s.list 0 0 since f) ∧
    (∀ cutoff,
      (s.olderThan cutoff).map Entry.row = s.snapshot.filter (fun (_, t, _) => t < cutoff) ∧
      (s.evict cutoff).snapshot = s.snapshot.filter (fun (_, t, _) => cutoff ≤ t) ∧
      (s.evict cutoff).lastUpdated = s.lastUpdated) ∧
    (0 :: stamps).max? = some s.lastUpdated ∧
    (∀ a, s.lastUpdated ≤ (s.perform a).lastUpdated) ∧
    ∀ id t r, (id, t, r) ∈ s.snapshot → t ≤ s.lastUpdated := by
  intro s m created stamps
  have hl := listed_empty type declared
  have hd := dated_empty type declared
  have hlisted : s.Listed created := hl.performAll hd h
  have hkeeps : m.Keeps s := (Maps.keeps_empty type declared).performAll hl hd h
  have hn : (s.entries.map (·.id)).Nodup := hlisted.nodup
  refine ⟨hkeeps.readsAs hlisted, hlisted.snapshot_eq, ?nodup, fun id r => ?_, hlisted.seqs, ?size,
    s.list_eq, fun since f k n hk hlen => ?pages, fun cutoff => ⟨map_row_olderThan cutoff,
      snapshot_evict hn cutoff, lastUpdated_foldl_drop _⟩, ?stamps, s.lastUpdated_le_perform,
    fun id t r hm => ?_⟩
  case nodup =>
    rw [snapshot, List.map_map]
    exact hn
  case refine_1 => simp [mem_snapshot_iff hn, get?]
  case size => exact (List.length_map _).symm
  case pages => rw [s.pages_eq since f k n hk, List.take_of_length_le hlen]
  case stamps => rw [List.max?_cons', lastUpdated_performAll]; rfl
  case refine_2 =>
    obtain ⟨e, he, rfl, -⟩ := (mem_snapshot_iff hn).mp hm
    exact timestamp_le_performAll (by simp [empty]) e (mem_entries he)

section Regrown

-- The first id is written in its place, removed, and brought back behind the second one.
def regrown : List Action := [
  .put "1" (code "a") 5,
  .put "2" (code "b") 3,
  .put "1" (code "c") 7,
  .putIfCurrent "2" ⟨"2", code "b", 3, 1, 1⟩ (code "d") 4,
  .remove "1" 6,
  .put "1" (code "e") 6,
  .put "3" (code "f") 1,
  .evict 2]

theorem snapshot_performAll_regrown :
    let s := (empty default ["code"]).performAll regrown
    let m := (Maps.empty ["code"]).performAll regrown
    s.snapshot.map (·.1) = ["2", "1"] ∧ m.snapshot = s.snapshot ∧ s.lastUpdated = 7 := by
  have hreads : (empty default ["code"]).ReadsHandles [] regrown :=
    ⟨trivial, trivial, trivial, .tail _ (.tail _ (.head _)), trivial, trivial, trivial, trivial,
      trivial⟩
  have ⟨hanswers, hrows, _, _, _, _, _, _, _, hmax, _⟩ :=
    table_performAll default ["code"] regrown hreads
  refine ⟨?_, hanswers.snapshot, Option.some.inj (hmax.symm.trans rfl)⟩
  rw [hrows]
  decide +kernel

end Regrown

end Store
end LinkedCache
