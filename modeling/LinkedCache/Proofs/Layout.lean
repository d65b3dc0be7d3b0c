import LinkedCache.Json.Document
import LinkedCache.Json.Fields
import LinkedCache.Proofs.Assoc

-- Layouts of values, and the ways in which a value of a layout may be written.

namespace LinkedCache

theorem mapM_eq_some_iff {α β : Type} {f : α → Option β} {as : List α} {bs : List β} :
    as.mapM f = some bs ↔ List.Forall₂ (fun a b => f a = some b) as bs := by
  induction as generalizing bs
  case nil => simp [eq_comm]
  case cons a as hi =>
    simp only [List.mapM_cons, Option.bind_eq_bind, Option.bind_eq_some_iff, hi,
      List.forall₂_cons_left_iff]
    constructor
    · rintro ⟨b, hb, bs', hbs, he⟩
      cases he
      exact ⟨b, bs', hb, hbs, rfl⟩
    · rintro ⟨b, bs', hb, hbs, rfl⟩
      exact ⟨b, hb, bs', hbs, rfl⟩

theorem exists_forall₂_iff {α β : Type} {R : α → β → Prop} {as : List α} :
    (∃ bs, List.Forall₂ R as bs) ↔ ∀ a ∈ as, ∃ b, R a b := by
  induction as
  case nil => simp
  case cons a as hi =>
    rw [List.forall_mem_cons, ← hi]
    simp only [List.forall₂_cons_left_iff]
    constructor
    · rintro ⟨_, b, bs, hb, hbs, rfl⟩
      exact ⟨⟨b, hb⟩, bs, hbs⟩
    · rintro ⟨⟨b, hb⟩, bs, hbs⟩
      exact ⟨_, b, bs, hb, hbs, rfl⟩

theorem Assoc.mapM_eq_some_iff {α β : Type} {f : String → α → Option β}
    {members : List (String × α)} {others : List (String × β)} :
    (members.mapM fun m => (f m.1 m.2).map fun v => (m.1, v)) = some others ↔
      Related (fun k v v' => f k v = some v') members others := by
  have hm (m : String × α) (m' : String × β) :
      (f m.1 m.2).map (fun v => (m.1, v)) = some m' ↔ m.1 = m'.1 ∧ f m.1 m.2 = some m'.2 := by
    rw [Option.map_eq_some_iff]
    constructor
    · rintro ⟨v, hv, rfl⟩
      exact ⟨rfl, hv⟩
    · rintro ⟨hk, hv⟩
      exact ⟨m'.2, hv, Prod.ext hk rfl⟩
  simp only [LinkedCache.mapM_eq_some_iff, hm, Related]

namespace Json

-- A field of a record. Where it holds its default, it may be left out.
structure Field (Layout : Type) where
  name : String
  layout : Layout
  default : Option Value

inductive Layout where
  | plain
  | listOf (item : Layout)
  -- Null, or a value of the layout.
  | optional (layout : Layout)
  -- An object or, if the fields may be told apart by their positions, an array.
  | record (positional : Bool) (fields : List (Field Layout))

-- What a value is written in: a value itself, with members in any order, or a document.
class Node (ν : Type) where
  Scalar : ν → Value → Prop
  Items : ν → List ν → Prop
  Members : ν → List (String × ν) → Prop

namespace Value

def isScalar : Value → Bool
  | array _ | object _ => false
  | _ => true

instance : Node Value where
  Scalar w v := w.isScalar ∧ w = v
  Items w items := w = .array items
  Members w members := w = .object members

end Value

namespace Document

instance : Node Document where
  Scalar d v := d.toValue? 0 = some v
  Items d items := d = .list items
  Members d members := d = .record (members.map fun m => (some m.1, m.2))

end Document

section

variable {ν : Type}

def names (fields : List (Field Layout)) : List String :=
  fields.map (·.name)

-- A field is written, or it is left out and holds its default.
def Filled (R : ν → Value → Prop) (default : Option Value) : Option ν → Value → Prop
  | some w, v => R w v
  | none, v => default = some v

variable [Node ν]

-- The fields are found by their names, each of which is there at most once. The order of the
-- members does not count, and neither do other members.
def IsObject (fields : List (Field Layout)) (ws : List (Option ν)) (w : ν) : Prop :=
  ∃ members, Node.Members w members ∧
    ((members.filter fun m => m.1 ∈ names fields).map (·.1)).Nodup ∧
    ws = fields.map fun f => members.lookup f.name

-- The fields in their order, without some at the end.
def IsArray (ws : List (Option ν)) (w : ν) : Prop :=
  ∃ items n, Node.Items w items ∧ ws = items.map some ++ List.replicate n none

mutual

-- What a value may be written as. On the right stands the value with the members of each record in
-- the order of its layout and without any others.
def Shows : Layout → ν → Value → Prop
  | .plain, w, v => Node.Scalar w v
  | .listOf item, w, v => ∃ ws vs, Node.Items w ws ∧ v = .array vs ∧ List.Forall₂ (Shows item) ws vs
  | .optional layout, w, v => Node.Scalar w .null ∧ v = .null ∨ Shows layout w v
  | .record positional fields, w, v => ∃ ws members, v = .object members ∧
      ShowsFields fields ws members ∧ (IsObject fields ws w ∨ positional ∧ IsArray ws w)

def ShowsFields : List (Field Layout) → List (Option ν) → List (String × Value) → Prop
  | [], [], [] => True
  | ⟨name, layout, default⟩ :: fields, w :: ws, (key, v) :: members =>
    key = name ∧ Filled (Shows layout) default w v ∧ ShowsFields fields ws members
  | _, _, _ => False

end

variable {fields : List (Field Layout)} {ws : List (Option ν)} {members : List (String × Value)}

omit [Node ν] in
theorem lookup_filter_names {given : List (String × ν)} {n : String} (hn : n ∈ names fields) :
    (given.filter fun m => m.1 ∈ names fields).lookup n = given.lookup n :=
  Assoc.lookup_filter_key (p := fun n => n ∈ names fields) (decide_eq_true hn)

theorem showsFields_nil_iff : ShowsFields [] ws members ↔ ws = [] ∧ members = [] := by
  cases ws <;> cases members <;> simp [ShowsFields]

theorem showsFields_cons_iff {f : Field Layout} : ShowsFields (f :: fields) ws members ↔
    ∃ w ws' v members', ws = w :: ws' ∧ members = (f.name, v) :: members' ∧
      Filled (Shows f.layout) f.default w v ∧ ShowsFields fields ws' members' := by
  constructor
  case mp =>
    intro h
    match ws, members with
    | w :: ws, (key, v) :: members =>
      obtain ⟨rfl, hf, h⟩ := h
      exact ⟨w, ws, v, members, rfl, rfl, hf, h⟩
  case mpr =>
    rintro ⟨w, ws, v, members, rfl, rfl, hf, h⟩
    exact ⟨rfl, hf, h⟩

theorem ShowsFields.length_eq (h : ShowsFields fields ws members) :
    ws.length = fields.length := by
  induction fields generalizing ws members
  case nil => exact (showsFields_nil_iff.mp h).1 ▸ rfl
  case cons f fields hi =>
    obtain ⟨w, ws, v, members, rfl, -, -, h⟩ := showsFields_cons_iff.mp h
    exact congrArg Nat.succ (hi h)

theorem ShowsFields.keys_eq (h : ShowsFields fields ws members) :
    members.map (·.1) = names fields := by
  induction fields generalizing ws members
  case nil => exact (showsFields_nil_iff.mp h).2 ▸ rfl
  case cons f fields hi =>
    obtain ⟨w, ws, v, members, -, rfl, -, h⟩ := showsFields_cons_iff.mp h
    exact congrArg _ (hi h)

theorem showsFields_map_iff {g : Field Layout → Option ν} :
    ShowsFields fields (fields.map g) members ↔ List.Forall₂
      (fun f m => m.1 = f.name ∧ Filled (Shows f.layout) f.default (g f) m.2) fields members := by
  induction fields generalizing members
  case nil => simp [showsFields_nil_iff]
  case cons f fields hi =>
    rw [List.map_cons, showsFields_cons_iff, List.forall₂_cons_left_iff]
    constructor
    · rintro ⟨_, _, v, members, he, rfl, hf, h⟩
      cases he
      exact ⟨(f.name, v), members, ⟨rfl, hf⟩, hi.mp h, rfl⟩
    · rintro ⟨⟨_, v⟩, members, ⟨rfl, hf⟩, h, rfl⟩
      exact ⟨_, _, v, members, rfl, rfl, hf, hi.mpr h⟩

end

section

variable {α : Type} {positional : Bool} {fields : List (Field Layout)} {item layout : Layout}
  {read? : Value → Option α} {toValue : α → Value}

-- However a record is written, its fields are found.
theorem fields?_of_shows {w : Value} {members : List (String × Value)}
    (h : Shows (.record positional fields) w (.object members)) :
    ∃ ws, ShowsFields fields ws members ∧ w.fields? (names fields) = some ws := by
  obtain ⟨ws, _, he, hs, hw⟩ := h
  cases he
  refine ⟨ws, hs, ?_⟩
  obtain ⟨given, rfl, -, rfl⟩ | ⟨-, items, n, rfl, rfl⟩ := hw
  case inl => simp [Value.fields?, names]
  case inr =>
    have hl := hs.length_eq
    simp only [List.length_append, List.length_map, List.length_replicate] at hl
    simp [Value.fields?, names, ← hl]

-- The value is read as `a`, however it is written.
def Reads (layout : Layout) (read? : Value → Option α) (v : Value) (a : α) : Prop :=
  ∀ w : Value, Shows layout w v → read? w = some a

theorem reads_plain {v : Value} {a : α} (h : read? v = some a) : Reads .plain read? v a :=
  fun _ ⟨_, he⟩ => he ▸ h

theorem reads_list {as : List α} (h : ∀ a ∈ as, Reads item read? (toValue a) a) :
    Reads (.listOf item) (Value.list? read?) (.array (as.map toValue)) as := by
  rintro _ ⟨ws, vs, rfl, he, hs⟩
  cases he
  refine mapM_eq_some_iff.mpr ?_
  have hs := (List.forall₂_map_right_iff.mp hs).flip
  exact ((List.forall₂_and_left _ _).mpr ⟨h, hs⟩).flip.imp fun w _ ⟨hr, hw⟩ => hr w hw

theorem reads_strings (ss : List String) :
    Reads (.listOf .plain) (Value.list? Value.string?) (.strings ss) ss :=
  reads_list fun _ _ => reads_plain rfl

theorem eq_some_of_filled_plain {v : Value} {w : Option Value}
    (h : Filled (Shows .plain) none w v) : w = some v := by
  cases w
  case none => cases h
  case some w => exact congrArg some h.2

theorem orDefault_of_filled {a default : α} {v v' : Value} {w : Option Value}
    (h : Reads layout read? v a) (hd : v = v' → a = default)
    (hw : Filled (Shows layout) (some v') w v) :
    Value.orDefault default read? w = some a := by
  cases w
  case none => exact congrArg some (hd (Option.some.inj hw).symm).symm
  case some w => exact h w hw

theorem optional_of_filled {a : Option α} {w : Option Value}
    (h : ∀ x ∈ a, Reads (.record positional fields) read? (toValue x) x)
    (hv : ∀ x, toValue x ≠ .null) (hnull : read? .null = none)
    (hw : Filled (Shows (.optional (.record positional fields))) (some .null) w
      (a.elim .null toValue)) : Value.optional read? w = some a := by
  cases a
  case none =>
    match w, hw with
    | none, _ => rfl
    | some _, .inl ⟨⟨_, rfl⟩, _⟩ => rfl
  case some x =>
    match w, hw with
    | none, hw => exact absurd (Option.some.inj hw).symm (hv x)
    | some _, .inl ⟨_, hx⟩ => exact absurd hx (hv x)
    | some w, .inr hw =>
      have hx := h x rfl w hw
      have hw : w ≠ .null := fun he => by simp [he, hnull] at hx
      simp [Value.optional, hx]

theorem shows_list {vs : List Value} (h : ∀ v ∈ vs, Shows item v v) :
    Shows (.listOf item) (Value.array vs) (.array vs) :=
  ⟨vs, vs, rfl, rfl, List.forall₂_same.mpr h⟩

theorem shows_object {given members : List (String × Value)}
    (hn : ((given.filter fun m => m.1 ∈ names fields).map (·.1)).Nodup)
    (h : ShowsFields fields (fields.map fun f => given.lookup f.name) members) :
    Shows (.record positional fields) (Value.object given) (.object members) :=
  ⟨_, members, rfl, h, .inl ⟨given, rfl, hn, rfl⟩⟩

theorem shows_array {items : List Value} {members : List (String × Value)} (n : Nat)
    (h : ShowsFields fields (items.map some ++ List.replicate n none) members) :
    Shows (.record true fields) (Value.array items) (.object members) :=
  ⟨_, members, rfl, h, .inr ⟨rfl, items, n, rfl, rfl⟩⟩

section

variable {given given' : List (String × Value)} {v : Value}

theorem shows_object_iff : Shows (.record positional fields) (Value.object given) v ↔
    ∃ members, v = .object members ∧
      ((given.filter fun m => m.1 ∈ names fields).map (·.1)).Nodup ∧
      ShowsFields fields (fields.map fun f => given.lookup f.name) members := by
  constructor
  case mp =>
    rintro ⟨ws, members, rfl, hs, ⟨_, he, hn, rfl⟩ | ⟨-, _, _, he, -⟩⟩ <;> cases he
    exact ⟨members, rfl, hn, hs⟩
  case mpr =>
    rintro ⟨members, rfl, hn, hs⟩
    exact shows_object hn hs

-- The members of an object may be put in another order.
theorem Shows.perm (h : Shows (.record positional fields) (Value.object given) v)
    (hp : given.Perm given') : Shows (.record positional fields) (Value.object given') v := by
  obtain ⟨members, rfl, hn, hs⟩ := shows_object_iff.mp h
  have hpf := hp.filter fun m => m.1 ∈ names fields
  refine shows_object ((hpf.map (·.1)).nodup_iff.mp hn) ?_
  have hl : (fields.map fun f => given'.lookup f.name) =
      fields.map fun f => given.lookup f.name := by
    refine List.map_congr_left fun f hf => ?_
    have hf : f.name ∈ names fields := List.mem_map_of_mem hf
    rw [← lookup_filter_names hf, ← Assoc.lookup_perm hn hpf, lookup_filter_names hf]
  exact hl ▸ hs

-- A member that belongs to no field may be added.
theorem Shows.cons {m : String × Value}
    (h : Shows (.record positional fields) (Value.object given) v) (hm : m.1 ∉ names fields) :
    Shows (.record positional fields) (Value.object (m :: given)) v := by
  obtain ⟨members, rfl, hn, hs⟩ := shows_object_iff.mp h
  refine shows_object (by rwa [List.filter_cons_of_neg (by simpa using hm)]) ?_
  have hl : (fields.map fun f => (m :: given).lookup f.name) =
      fields.map fun f => given.lookup f.name := by
    refine List.map_congr_left fun f hf => ?_
    have hne : f.name ≠ m.1 := fun he => hm (he ▸ List.mem_map_of_mem hf)
    rw [Assoc.lookup_cons_eq, if_neg hne]
  exact hl ▸ hs

end

-- A record is written as the object of its fields.
theorem shows_self {members : List (String × Value)} (hn : (names fields).Nodup)
    (h : ShowsFields fields (members.map fun m => some m.2) members) :
    Shows (.record positional fields) (Value.object members) (.object members) := by
  have hk := h.keys_eq
  have hn : (members.map (·.1)).Nodup := hk ▸ hn
  refine shows_object (hn.sublist (List.filter_sublist.map _)) ?_
  have hl : (members.map fun m => some m.2) = fields.map fun f => members.lookup f.name := by
    calc members.map (fun m => some m.2)
      _ = members.map (fun m => members.lookup m.1) :=
        List.map_congr_left fun m hm => (Assoc.lookup_of_mem hn hm).symm
      _ = (names fields).map (fun n => members.lookup n) := by rw [← hk, List.map_map]; rfl
      _ = fields.map (fun f => members.lookup f.name) := List.map_map
  exact hl ▸ h

end

end Json
end LinkedCache
