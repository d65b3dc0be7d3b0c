import LinkedCache.Proofs.Layout

-- Documents that are read as values. What a document shows in a layout, its value shows as well.

namespace LinkedCache.Json

-- A property of all layouts, by the layouts that they are made of.
theorem Layout.induct {motive : Layout → Prop} (plain : motive .plain)
    (listOf : ∀ item, motive item → motive (.listOf item))
    (optional : ∀ layout, motive layout → motive (.optional layout))
    (record : ∀ positional fields, (∀ f ∈ fields, motive f.layout) →
      motive (.record positional fields)) : ∀ layout, motive layout
  | .plain => plain
  | .listOf item => listOf item (induct plain listOf optional record item)
  | .optional layout => optional layout (induct plain listOf optional record layout)
  | .record positional fields =>
    record positional fields fun f _ => induct plain listOf optional record f.layout
decreasing_by
  all_goals simp_wf
  rename_i hf
  have := List.sizeOf_lt_of_mem hf
  cases f
  simp at this ⊢
  omega

section

variable {ν ν' : Type} [Node ν] [Node ν'] {fields : List (Field Layout)} {ws : List (Option ν)}
  {ws' : List (Option ν')} {members : List (String × Value)}

-- A translation of what values are written in into something else: part by part, and finding the
-- same under each key that is there only once.
structure Translates (T : ν → ν' → Prop) : Prop where
  scalar {w w' v} : T w w' → Node.Scalar w v → Node.Scalar w' v
  items {w w' ws} : T w w' → Node.Items w ws → ∃ ws', Node.Items w' ws' ∧ List.Forall₂ T ws ws'
  members {w w'} {given : List (String × ν)} : T w w' → Node.Members w given →
    ∃ given', Node.Members w' given' ∧ ∀ p : String → Bool,
      ((given.filter fun m => p m.1).map (·.1)).Nodup →
        ((given'.filter fun m => p m.1).map (·.1)).Nodup ∧
          ∀ n, p n → Option.Rel T (given.lookup n) (given'.lookup n)

variable {T : ν → ν' → Prop}

omit [Node ν] [Node ν'] in
theorem forall₂_replicate_none (n : Nat) :
    List.Forall₂ (Option.Rel T) (List.replicate n none) (List.replicate n none) := by
  induction n
  case zero => exact .nil
  case succ hi => exact .cons .none hi

theorem ShowsFields.translate (h : ShowsFields fields ws members)
    (hT : ∀ f ∈ fields, ∀ {w w' v}, T w w' → Shows f.layout w v → Shows f.layout w' v)
    (hw : List.Forall₂ (Option.Rel T) ws ws') : ShowsFields fields ws' members := by
  induction fields generalizing ws ws' members
  case nil =>
    obtain ⟨rfl, rfl⟩ := showsFields_nil_iff.mp h
    cases hw
    trivial
  case cons f fields hi =>
    have ⟨hf, hT⟩ := List.forall_mem_cons.mp hT
    obtain ⟨w, ws, v, members, rfl, rfl, hv, h⟩ := showsFields_cons_iff.mp h
    obtain _ | ⟨hw, hws⟩ := hw
    refine showsFields_cons_iff.mpr ⟨_, _, v, members, rfl, rfl, ?_, hi h hT hws⟩
    cases hw
    case none => exact hv
    case some hw => exact hf hw hv

theorem Translates.shows (h : Translates T) (layout : Layout) :
    ∀ {w w' v}, T w w' → Shows layout w v → Shows layout w' v := by
  induction layout using Layout.induct
  case plain => exact h.scalar
  case listOf item hi =>
    rintro w w' _ ht ⟨ws, vs, hw, rfl, hs⟩
    have ⟨ws', hw', hts⟩ := h.items ht hw
    refine ⟨ws', vs, hw', rfl, ?_⟩
    clear hw hw'
    induction hts generalizing vs
    case nil =>
      cases hs
      exact .nil
    case cons ht _ hi' =>
      obtain _ | ⟨hw, hs⟩ := hs
      exact .cons (hi ht hw) (hi' _ hs)
  case optional layout hi =>
    intro w w' v ht hs
    exact hs.imp (fun ⟨hn, hv⟩ => ⟨h.scalar ht hn, hv⟩) (hi ht)
  case record positional fields hi =>
    rintro w w' _ ht ⟨ws, members, rfl, hs, hw⟩
    obtain ⟨given, hg, hn, rfl⟩ | ⟨hp, items, n, hw, rfl⟩ := hw
    case inl =>
      obtain ⟨given', hg', hgiven⟩ := h.members ht hg
      have ⟨hn', hl⟩ := hgiven (fun n => n ∈ names fields) hn
      refine ⟨_, members, rfl, hs.translate hi ?_, .inl ⟨given', hg', hn', rfl⟩⟩
      rw [List.forall₂_map_left_iff, List.forall₂_map_right_iff, List.forall₂_same]
      exact fun f hf => hl f.name (decide_eq_true (List.mem_map_of_mem hf))
    case inr =>
      obtain ⟨items', hw', hts⟩ := h.items ht hw
      refine ⟨items'.map some ++ List.replicate n none, members, rfl, hs.translate hi ?_,
        .inr ⟨hp, items', n, hw', rfl⟩⟩
      exact List.rel_append (List.rel_map (fun _ _ => .some) hts) (forall₂_replicate_none n)

end

namespace Document

variable {d : Document} {v w : Value} {k : Nat}

theorem itemsToValues?_eq_mapM (ds : List Document) :
    itemsToValues? k ds = ds.mapM (toValue? k) := by
  induction ds
  case nil => rfl
  case cons d ds hi => simp [itemsToValues?, hi]

theorem membersToValues?_eq_mapM (members : List (String × Document)) :
    membersToValues? k (members.map fun m => (some m.1, m.2)) =
      members.mapM fun m => (m.2.toValue? k).map fun v => (m.1, v) := by
  induction members
  case nil => rfl
  case cons m members hi => cases h : m.2.toValue? k <;> simp [membersToValues?, hi, h]

theorem selectItems?_eq_mapM {shape : Shape} (ds : List Document) :
    selectItems? k shape ds = ds.mapM (select? k shape) := by
  induction ds
  case nil => rfl
  case cons d ds hi => simp [selectItems?, hi]

theorem isScalar_of_numeral {n : Numeral} (h : n.toValue? = some v) : v.isScalar := by
  unfold Numeral.toValue? at h
  split at h
  split at h
  · split at h
    · cases h
      rfl
    · split at h <;> cases h <;> rfl
  · have ⟨x, _, he⟩ := Option.map_eq_some_iff.mp h
    exact he ▸ rfl

theorem isScalar_of_toValue? (h : d.toValue? 0 = some v) : v.isScalar := by
  match d, h with
  | null, h | bool _, h =>
    cases h
    rfl
  | text (some s), h =>
    cases h
    rfl
  | number n, h => exact isScalar_of_numeral h

-- What is no list and no record is read alike at every depth, and in every shape.
theorem toValue?_of_scalar (h : d.toValue? 0 = some v) : d.toValue? k = some v := by
  match d, h with
  | null, h | bool _, h | text _, h | number _, h => exact h

theorem select?_of_scalar {shape : Shape} (h : d.toValue? 0 = some v) :
    d.select? k shape = some v := by
  match d, h with
  | null, h | bool _, h | text _, h | number _, h => simpa [select?, toValue?] using h

def HasValue (d : Document) (v : Value) : Prop :=
  ∃ k, d.toValue? k = some v

-- The value of a document is written as the document is, with the members in order.
theorem translates_hasValue : Translates HasValue where
  scalar := by
    rintro d w v ⟨k, hk⟩ h
    cases (toValue?_of_scalar h).symm.trans hk
    exact ⟨isScalar_of_toValue? h, rfl⟩
  items := by
    rintro _ w ds ⟨k, hk⟩ rfl
    cases k
    case zero => simp [toValue?] at hk
    case succ k =>
      simp only [toValue?, Option.map_eq_some_iff, itemsToValues?_eq_mapM] at hk
      obtain ⟨ws, hws, rfl⟩ := hk
      exact ⟨ws, rfl, (mapM_eq_some_iff.mp hws).imp fun _ _ h => ⟨k, h⟩⟩
  members := by
    rintro _ w given ⟨k, hk⟩ rfl
    cases k
    case zero => simp [toValue?] at hk
    case succ k =>
      simp only [toValue?, Option.map_eq_some_iff, membersToValues?_eq_mapM] at hk
      obtain ⟨ms, hms, rfl⟩ := hk
      have hms := Assoc.mapM_eq_some_iff (f := fun _ d => toValue? k d).mp hms
      have hms : Assoc.Related (fun _ => HasValue) given ms :=
        hms.imp fun _ _ ⟨hk, hv⟩ => ⟨hk, k, hv⟩
      refine ⟨Assoc.ofList ms, rfl, fun p hn => ⟨?_, fun n hp => ?_⟩⟩
      case refine_1 => exact (Assoc.sorted_ofList ms).nodup.sublist (List.filter_sublist.map _)
      case refine_2 =>
        rw [Assoc.lookup_ofList_of_nodup_filter hp ((hms.filter p).keys_eq ▸ hn)]
        exact hms.lookup n

section

variable {shape : Shape} {item layout : Layout}

-- What is written for a value of the layout is selected in the shape, and stands for this value
-- still.
def Selects (shape : Shape) (layout : Layout) (depth : Nat) : Prop :=
  ∀ {d : Document} {v : Value}, Shows layout d v →
    ∃ w : Value, d.select? depth shape = some w ∧ Shows layout w v

theorem selects_plain : Selects shape .plain k :=
  fun {_ v} h => ⟨v, select?_of_scalar h, isScalar_of_toValue? h, rfl⟩

theorem selects_optional (h : Selects shape layout k) : Selects shape (.optional layout) k := by
  rintro d v (⟨hn, rfl⟩ | hs)
  case inl => exact ⟨.null, select?_of_scalar hn, .inl ⟨⟨rfl, rfl⟩, rfl⟩⟩
  case inr =>
    have ⟨w, hw, hs⟩ := h hs
    exact ⟨w, hw, .inr hs⟩

theorem mapM_of_shows {read? : Document → Option Value} {ds : List Document} {vs : List Value}
    (h : ∀ {d v}, Shows item d v → ∃ w : Value, read? d = some w ∧ Shows item w v)
    (hs : List.Forall₂ (Shows item) ds vs) :
    ∃ ws, ds.mapM read? = some ws ∧ List.Forall₂ (Shows item) ws vs := by
  simp only [mapM_eq_some_iff]
  induction hs
  case nil => exact ⟨[], .nil, .nil⟩
  case cons hd _ hi =>
    have ⟨w, hr, hw⟩ := h hd
    have ⟨ws, hrs, hws⟩ := hi
    exact ⟨w :: ws, .cons hr hrs, .cons hw hws⟩

theorem selects_list (h : Selects shape item k) :
    Selects (.listOf shape) (.listOf item) (k + 1) := by
  rintro _ _ ⟨ds, vs, rfl, rfl, hs⟩
  have ⟨ws, hr, hw⟩ := mapM_of_shows h hs
  exact ⟨.array ws, by simp [select?, selectItems?_eq_mapM, hr], ws, vs, rfl, rfl, hw⟩

theorem selects_free_list : Selects .free (.listOf .plain) (k + 1) := by
  rintro _ _ ⟨ds, vs, rfl, rfl, hs⟩
  have hplain {d : Document} {v : Value} (h : Shows .plain d v) :
      ∃ w : Value, d.toValue? k = some w ∧ Shows .plain w v :=
    ⟨v, toValue?_of_scalar h, isScalar_of_toValue? h, rfl⟩
  have ⟨ws, hr, hw⟩ := mapM_of_shows hplain hs
  exact ⟨.array ws, by simp [select?, itemsToValues?_eq_mapM, hr], ws, vs, rfl, rfl, hw⟩

variable {shapes : List (String × Shape)} {given : List (String × Document)}
  {fields : List (Field Layout)} {members : List (String × Value)} {positional : Bool}

-- Members that no shape is named for are skipped. The others are selected each in its shape, unless
-- one of them is there twice.
theorem selectMembers?_eq_mapM (seen : List String)
    (hn : ((given.filter fun m => (shapes.lookup m.1).isSome).map (·.1)).Nodup)
    (hs : ∀ m ∈ given, (shapes.lookup m.1).isSome → m.1 ∉ seen) :
    selectMembers? k true shapes seen (given.map fun m => (some m.1, m.2)) =
      (given.filter fun m => (shapes.lookup m.1).isSome).mapM fun m =>
        (m.2.select? k ((shapes.lookup m.1).getD .free)).map fun v => (m.1, v) := by
  induction given generalizing seen
  case nil => rfl
  case cons m given hi =>
    have ⟨hm, hs⟩ := List.forall_mem_cons.mp hs
    rw [List.map_cons, selectMembers?]
    cases hl : shapes.lookup m.1
    case none =>
      rw [List.filter_cons_of_neg (by simp [hl])] at hn ⊢
      simpa [hl] using hi seen hn hs
    case some shape =>
      rw [List.filter_cons_of_pos (by simp [hl])] at hn ⊢
      have ⟨hne, hn⟩ := List.nodup_cons.mp hn
      have hseen : m.1 ∉ seen := hm (by simp [hl])
      have hi := hi (m.1 :: seen) hn fun m' hm' hl' => by
        refine List.not_mem_cons_of_ne_of_not_mem (fun he => hne ?_) (hs m' hm' hl')
        exact List.mem_map.mpr ⟨m', List.mem_filter.mpr ⟨hm', hl'⟩, he⟩
      cases hv : m.2.select? k shape <;> simp [hl, hseen, hv, hi]

variable (hn : (names fields).Nodup)
  (hS : Assoc.Related (fun _ s l => Selects s l k) shapes (fields.map fun f => (f.name, f.layout)))

include hn hS

theorem exists_selects {f : Field Layout} (hf : f ∈ fields) :
    ∃ s, shapes.lookup f.name = some s ∧ Selects s f.layout k := by
  have hl := hS.lookup f.name
  have hm : (f.name, f.layout) ∈ fields.map fun f => (f.name, f.layout) := List.mem_map_of_mem hf
  rw [Assoc.lookup_of_mem (by rwa [List.map_map]) hm] at hl
  generalize shapes.lookup f.name = s at hl ⊢
  cases hl
  case some hs => exact ⟨_, rfl, hs⟩

-- The members with a name of a field are selected, each in the shape of its field.
theorem exists_selected (hg : ((given.filter fun m => m.1 ∈ names fields).map (·.1)).Nodup)
    (h : ShowsFields fields (fields.map fun f => given.lookup f.name) members) :
    ∃ ws : List (String × Value), Assoc.Related
      (fun n d w => select? k ((shapes.lookup n).getD .free) d = some w)
      (given.filter fun m => m.1 ∈ names fields) ws := by
  refine exists_forall₂_iff.mpr fun m hm => ?_
  have hd := Assoc.lookup_of_mem hg hm
  have hm := of_decide_eq_true (List.mem_filter.mp hm).2
  rw [lookup_filter_names hm] at hd
  obtain ⟨f, hf, hfm⟩ := List.mem_map.mp hm
  have ⟨_, _, hv⟩ := exists_forall₂_iff.mp ⟨members, showsFields_map_iff.mp h⟩ f hf
  have ⟨s, hs, hsel⟩ := exists_selects hn hS hf
  rw [hfm, hd] at hv
  have ⟨w, hw, _⟩ := hsel hv
  have hw : m.2.select? k ((shapes.lookup m.1).getD .free) = some w := by
    rw [← hfm, hs, Option.getD_some, hw]
  exact ⟨(m.1, w), rfl, hw⟩

theorem showsFields_of_selected {ws : List (String × Value)}
    (hr : Assoc.Related (fun n d w => select? k ((shapes.lookup n).getD .free) d = some w)
      (given.filter fun m => m.1 ∈ names fields) ws)
    (h : ShowsFields fields (fields.map fun f => given.lookup f.name) members) :
    ShowsFields fields (fields.map fun f => ws.lookup f.name) members := by
  have hfs := (List.forall₂_and_left _ _).mpr
    ⟨fun f (hf : f ∈ fields) => hf, showsFields_map_iff.mp h⟩
  refine showsFields_map_iff.mpr (hfs.imp ?_)
  rintro f m ⟨hf, hm, hv⟩
  refine ⟨hm, ?_⟩
  have ⟨s, hs, hsel⟩ := exists_selects hn hS hf
  have hl := lookup_filter_names (List.mem_map_of_mem hf) ▸ hr.lookup f.name
  rw [hs] at hl
  generalize given.lookup f.name = o, ws.lookup f.name = o' at hl hv ⊢
  cases hl
  case none => exact hv
  case some hd =>
    have ⟨w, hw, hv⟩ := hsel hv
    cases hd.symm.trans hw
    exact hv

theorem selectMembers?_of_showsFields
    (hg : ((given.filter fun m => m.1 ∈ names fields).map (·.1)).Nodup)
    (h : ShowsFields fields (fields.map fun f => given.lookup f.name) members) :
    ∃ ws, selectMembers? k true shapes [] (given.map fun m => (some m.1, m.2)) = some ws ∧
      (ws.map (·.1)).Nodup ∧ ShowsFields fields (fields.map fun f => ws.lookup f.name) members := by
  have hknown (n : String) : (shapes.lookup n).isSome = decide (n ∈ names fields) := by
    rw [Bool.eq_iff_iff, Assoc.lookup_isSome_iff, hS.keys_eq, List.map_map, decide_eq_true_iff]
    exact Iff.rfl
  have ⟨ws, hr⟩ := exists_selected hn hS hg h
  refine ⟨ws, ?_, hr.keys_eq ▸ hg, showsFields_of_selected hn hS hr h⟩
  rw [selectMembers?_eq_mapM [] (by simpa only [hknown] using hg) fun _ _ _ => List.not_mem_nil]
  simp only [hknown]
  exact Assoc.mapM_eq_some_iff.mpr hr

omit hn in
theorem selectFields?_of_showsFields {ds : List Document} {n : Nat}
    (h : ShowsFields fields (ds.map some ++ List.replicate n none) members) :
    ∃ ws : List Value, selectFields? k (shapes.map (·.2)) ds = some ws ∧
      ShowsFields fields (ws.map some ++ List.replicate n none) members := by
  induction ds generalizing shapes fields members
  case nil =>
    have hnone := forall₂_replicate_none (T := fun (_ : Document) (_ : Value) => False) n
    exact ⟨[], rfl, h.translate (fun _ _ => False.elim) hnone⟩
  case cons d ds hi =>
    cases fields
    case nil => cases (showsFields_nil_iff.mp h).1
    case cons f fields =>
      obtain _ | ⟨⟨-, hsel⟩, hS⟩ := hS
      obtain ⟨_, _, v, members, he, rfl, hv, h⟩ := showsFields_cons_iff.mp h
      cases he
      have ⟨w, hw, hv⟩ := hsel hv
      have ⟨ws, hws, h⟩ := hi hS h
      refine ⟨w :: ws, by simp [selectFields?, hw, hws], ?_⟩
      exact showsFields_cons_iff.mpr ⟨_, _, v, members, rfl, rfl, hv, h⟩

theorem selects_record : Selects (.record true shapes) (.record positional fields) (k + 1) := by
  rintro _ _ ⟨_, members, rfl, hs, hw⟩
  obtain ⟨given, rfl, hg, rfl⟩ | ⟨hp, ds, n, rfl, rfl⟩ := hw
  case inl =>
    have ⟨ws, hw, hnw, hs⟩ := selectMembers?_of_showsFields hn hS hg hs
    refine ⟨.object ws, by simp [select?, hw], _, members, rfl, hs, .inl ⟨ws, rfl, ?_, rfl⟩⟩
    exact hnw.sublist (List.filter_sublist.map _)
  case inr =>
    have ⟨ws, hw, hs⟩ := selectFields?_of_showsFields hS hs
    exact ⟨.array ws, by simp [select?, hw], _, members, rfl, hs, .inr ⟨hp, ws, n, rfl, rfl⟩⟩

end

end Document
end LinkedCache.Json
