import LinkedCache.Proofs.Failing

-- Sessions that are fed with one input after the other. All that such a session says follows from
-- its inputs since the first one: their number, the earliest of their timestamps as long as nothing
-- went wrong, and the first of them that disagrees.

namespace LinkedCache.Sync

namespace Input

-- Whether an input has the resource and the size that the first one of its session has.
def agrees (first i : Input) : Bool :=
  i.resource == first.resource && i.totalSize == first.totalSize

-- What is left of the inputs from the first one on that makes a session fail.
def dissent (first : Input) (rest : List Input) : List Input :=
  rest.dropWhile first.agrees

-- The inputs up to the one that makes a session fail.
def heeded (first : Input) : List Input → List Input
  | [] => []
  | i :: rest => i :: if first.agrees i then first.heeded rest else []

variable {first i : Input} {rest more : List Input}

theorem agrees_iff :
    first.agrees i ↔ i.resource = first.resource ∧ i.totalSize = first.totalSize := by
  simp [agrees]

theorem dissent_eq_nil_iff : first.dissent rest = [] ↔ ∀ i ∈ rest, first.agrees i :=
  List.dropWhile_eq_nil_iff

theorem dissent_eq_cons_iff : first.dissent rest = i :: more ↔
    ∃ same, rest = same ++ i :: more ∧ (∀ j ∈ same, first.agrees j) ∧ ¬first.agrees i := by
  unfold dissent
  constructor
  case mp =>
    intro h
    refine ⟨rest.takeWhile first.agrees, ?_, fun j => List.mem_takeWhile_imp, ?_⟩
    · rw [← h, List.takeWhile_append_dropWhile]
    · have hi := List.head?_dropWhile_not first.agrees rest
      simpa [h] using hi
  case mpr =>
    rintro ⟨same, rfl, hs, hi⟩
    rw [List.dropWhile_append, List.dropWhile_eq_nil_iff.mpr hs, List.dropWhile_cons_of_neg hi]
    rfl

theorem dissent_concat : first.dissent (rest ++ [i]) =
    if first.dissent rest = [] ∧ first.agrees i then [] else first.dissent rest ++ [i] := by
  unfold dissent
  rw [List.dropWhile_append]
  by_cases hr : rest.dropWhile first.agrees = [] <;> by_cases hi : first.agrees i <;>
    simp [hr, hi]

theorem heeded_concat : first.heeded (rest ++ [i]) =
    if first.dissent rest = [] then first.heeded rest ++ [i] else first.heeded rest := by
  induction rest
  case nil => simp [heeded, dissent]
  case cons i' rest hi =>
    unfold dissent at hi ⊢
    rw [List.cons_append, heeded, heeded, List.dropWhile_cons, hi]
    by_cases ha : first.agrees i'
    case neg => simp [ha]
    case pos =>
      simp only [ha, if_true]
      split <;> rfl

-- What a session has to say after its inputs.
def verdict (first : Input) (rest : List Input) : Phase :=
  match first.dissent rest with
  | [] => if first.totalSize ≤ rest.length + 1 then .completed else .inProgress
  | [i] => if i.resource = first.resource then .totalSizeChanged else .resourceNameChanged
  | _ :: _ :: _ => .failedAndUntracked

theorem verdict_of_nil (hd : first.dissent rest = []) : first.verdict rest =
    if first.totalSize ≤ rest.length + 1 then .completed else .inProgress := by
  rw [verdict, hd]

theorem verdict_of_cons (hd : first.dissent rest = i :: more) : first.verdict rest =
    if more ≠ [] then .failedAndUntracked
    else if i.resource = first.resource then .totalSizeChanged else .resourceNameChanged := by
  rw [verdict, hd]
  cases more <;> rfl

theorem verdict_eq_iff (phase : Phase) : first.verdict rest = phase ↔
    match phase with
    | .inProgress => first.dissent rest = [] ∧ rest.length + 1 < first.totalSize
    | .completed => first.dissent rest = [] ∧ first.totalSize ≤ rest.length + 1
    | .resourceNameChanged => ∃ i, first.dissent rest = [i] ∧ i.resource ≠ first.resource
    | .totalSizeChanged => ∃ i, first.dissent rest = [i] ∧ i.resource = first.resource
    | .failedAndUntracked => ∃ i more, first.dissent rest = i :: more ∧ more ≠ []
    | .concurrentFullSync => False := by
  cases hd : first.dissent rest
  case nil =>
    rw [verdict_of_nil hd]
    cases phase <;> grind
  case cons i more =>
    rw [verdict_of_cons hd]
    cases phase <;> grind

theorem isFailed_verdict (hd : first.dissent rest ≠ []) : (first.verdict rest).isFailed := by
  unfold verdict
  split
  case h_1 h => exact absurd h hd
  case h_2 => split <;> rfl
  case h_3 => rfl

theorem verdict_concat_of_ne_nil (hd : first.dissent rest ≠ []) :
    first.verdict (rest ++ [i]) = .failedAndUntracked := by
  have ⟨j, more, hj⟩ := List.exists_cons_of_ne_nil hd
  rw [verdict, dissent_concat, hj]
  cases more <;> rfl

theorem verdict_concat_of_not_agrees (hd : first.dissent rest = []) (hi : ¬first.agrees i) :
    first.verdict (rest ++ [i]) =
      if i.resource = first.resource then .totalSizeChanged else .resourceNameChanged := by
  rw [verdict, dissent_concat, if_neg (hi ·.2), hd, List.nil_append]

end Input

namespace Session

variable {s : Session} {first i : Input} {rest inputs : List Input} {phase : Phase} {p : Progress}

def fed (inputs : List Input) : Session :=
  inputs.foldl next .init

-- Whether a session begins with the next input.
def isIdle : Session → Bool
  | init | run .completed _ => true
  | run .. => false

-- The inputs since the session's first one, where those in `since` are from before.
def latestFrom (s : Session) (since : List Input) : List Input → List Input
  | [] => since
  | i :: inputs => latestFrom (s.next i) (if s.isIdle then [i] else since ++ [i]) inputs

def latest (inputs : List Input) : List Input :=
  latestFrom .init [] inputs

theorem latestFrom_concat (s : Session) (since : List Input) : latestFrom s since (inputs ++ [i]) =
    if (inputs.foldl next s).isIdle then [i] else latestFrom s since inputs ++ [i] := by
  induction inputs generalizing s since
  case nil => rfl
  case cons i' inputs hi => exact hi (s.next i') _

theorem latest_concat :
    latest (inputs ++ [i]) = if (fed inputs).isIdle then [i] else latest inputs ++ [i] :=
  latestFrom_concat init []

theorem fed_concat : fed (inputs ++ [i]) = (fed inputs).next i := by
  simp [fed]

-- The figures of a session after its inputs. What follows on its failure only counts.
structure Totals (first : Input) (rest : List Input) (p : Progress) : Prop where
  resource : p.resource = first.resource
  correlationId : p.correlationId = first.correlationId
  totalSize : p.totalSize = first.totalSize
  processed : p.processed = rest.length + 1
  startedAt : ((first :: first.heeded rest).map (·.timestamp)).min? = some p.startedAt

theorem Totals.count (h : Totals first rest p) (hd : first.dissent rest ≠ []) (i : Input) :
    Totals first (rest ++ [i]) { p with processed := p.processed + 1 } where
  resource := h.resource
  correlationId := h.correlationId
  totalSize := h.totalSize
  processed := by simp [h.processed]
  startedAt := by
    rw [Input.heeded_concat, if_neg hd]
    exact h.startedAt

theorem Totals.heed (h : Totals first rest p) (hd : first.dissent rest = []) (i : Input) :
    Totals first (rest ++ [i])
      { p with processed := p.processed + 1, startedAt := min p.startedAt i.timestamp } where
  resource := h.resource
  correlationId := h.correlationId
  totalSize := h.totalSize
  processed := by simp [h.processed]
  startedAt := by
    rw [Input.heeded_concat, if_pos hd, ← List.cons_append, List.map_append, List.map_singleton,
      min?_concat, h.startedAt]
    rfl

theorem Totals.advance (h : Totals first rest p) (hd : first.dissent rest = []) (i : Input) :
    advance p i = run (first.verdict (rest ++ [i]))
      { p with processed := p.processed + 1, startedAt := min p.startedAt i.timestamp } := by
  unfold Session.advance
  by_cases hi : first.agrees i
  case pos =>
    have hd' : first.dissent (rest ++ [i]) = [] := by
      rw [Input.dissent_concat, if_pos ⟨hd, hi⟩]
    have ⟨hr, hs⟩ := Input.agrees_iff.mp hi
    rw [Input.verdict_of_nil hd']
    simp [counted, h.resource, h.totalSize, h.processed, hr, hs]
  case neg =>
    rw [Input.verdict_concat_of_not_agrees hd hi]
    by_cases hr : i.resource = first.resource
    case neg => simp [h.resource, hr, Ne.symm hr]
    case pos =>
      have hs : first.totalSize ≠ i.totalSize := fun hs => hi (Input.agrees_iff.mpr ⟨hr, hs.symm⟩)
      simp [h.resource, h.totalSize, hr, hs]

-- A session that has had its inputs. As long as they agree, there are no more of them than the
-- first one declares.
structure Stands (first : Input) (rest : List Input) (s : Session) : Prop where
  session : ∃ p, s = .run (first.verdict rest) p ∧ Totals first rest p
  length : first.dissent rest = [] → rest.length + 1 ≤ max 1 first.totalSize

theorem stands_start (i : Input) : Stands i [] (.start i) where
  session := ⟨⟨i.resource, i.correlationId, i.totalSize, 1, i.timestamp⟩, rfl,
    ⟨rfl, rfl, rfl, rfl, rfl⟩⟩
  length _ := Nat.le_max_left ..

theorem Stands.next (h : Stands first rest s) (hs : ¬s.isIdle) (i : Input) :
    Stands first (rest ++ [i]) (s.next i) := by
  obtain ⟨⟨p, rfl, ht⟩, hl⟩ := h
  by_cases hd : first.dissent rest = []
  case neg =>
    have hd' : first.dissent (rest ++ [i]) ≠ [] := by simp [Input.dissent_concat, hd]
    refine ⟨⟨_, ?_, ht.count hd i⟩, (absurd · hd')⟩
    rw [next_of_isFailed (Input.isFailed_verdict hd), Input.verdict_concat_of_ne_nil hd]
  case pos =>
    have hn : rest.length + 1 < first.totalSize := by
      by_contra hn
      rw [Input.verdict_of_nil hd, if_pos (Nat.le_of_not_lt hn)] at hs
      exact hs rfl
    have hnext : (run (first.verdict rest) p).next i = advance p i := by
      rw [Input.verdict_of_nil hd, if_neg (Nat.not_le.mpr hn)]
      rfl
    refine ⟨⟨_, ?_, ht.heed hd i⟩, fun _ => ?_⟩
    · rw [hnext, ht.advance hd]
    · rw [List.length_append]
      exact Nat.le_trans hn (Nat.le_max_right ..)

theorem isIdle_next_start {s : Session} (h : s.isIdle) (i : Input) : s.next i = start i := by
  cases s
  case init => rfl
  case run phase p =>
    cases phase
    case completed => rfl
    all_goals cases h

theorem stands_latest (inputs : List Input) : match latest inputs with
    | [] => inputs = []
    | first :: rest => Stands first rest (fed inputs) := by
  induction inputs using List.reverseRecOn
  case nil => rfl
  case append_singleton inputs i hi =>
    rw [latest_concat, fed_concat]
    by_cases hs : (fed inputs).isIdle
    case pos =>
      rw [if_pos hs, isIdle_next_start hs]
      exact stands_start i
    case neg =>
      rw [if_neg hs]
      cases hl : latest inputs
      case nil =>
        rw [hl] at hi
        exact absurd rfl (hi ▸ hs)
      case cons first rest =>
        rw [hl] at hi
        exact hi.next hs i

-- A session begins where the one before it was complete, and goes on until it is complete itself.
theorem exists_earlier (h : latest inputs = first :: rest) :
    ∃ earlier, inputs = earlier ++ first :: rest ∧ (fed earlier).isIdle ∧
      ∀ more, more <+: rest → more ≠ rest → ¬(fed (earlier ++ first :: more)).isIdle := by
  induction inputs using List.reverseRecOn generalizing rest
  case nil => cases h
  case append_singleton inputs i hi =>
    rw [latest_concat] at h
    by_cases hs : (fed inputs).isIdle
    case pos =>
      rw [if_pos hs] at h
      cases h
      refine ⟨inputs, rfl, hs, fun more hm hne => ?_⟩
      exact absurd (List.prefix_nil.mp hm) hne
    case neg =>
      rw [if_neg hs] at h
      have hl := stands_latest inputs
      cases hc : latest inputs
      case nil =>
        rw [hc] at hl
        exact absurd rfl (hl ▸ hs)
      case cons first' rest' =>
        rw [hc, List.cons_append] at h
        cases h
        have ⟨earlier, he, hidle, hgo⟩ := hi hc
        refine ⟨earlier, by simp [he], hidle, fun more hm hne => ?_⟩
        have hm := (List.prefix_concat_iff.mp hm).resolve_left hne
        by_cases hr : more = rest'
        case pos => rwa [hr, ← he]
        case neg => exact hgo more hm hr

-- What a session says of its inputs.
structure Tells (first : Input) (rest : List Input) (phase : Phase) (p : Progress) : Prop
    extends Totals first rest p where
  inProgress : phase = .inProgress ↔
    (∀ i ∈ rest, first.agrees i) ∧ rest.length + 1 < max 1 first.totalSize
  completed : phase = .completed ↔
    (∀ i ∈ rest, first.agrees i) ∧ rest.length + 1 = max 1 first.totalSize
  resourceNameChanged : phase = .resourceNameChanged ↔ ∃ same i, rest = same ++ [i] ∧
    (∀ j ∈ same, first.agrees j) ∧ i.resource ≠ first.resource
  totalSizeChanged : phase = .totalSizeChanged ↔ ∃ same i, rest = same ++ [i] ∧
    (∀ j ∈ same, first.agrees j) ∧ i.resource = first.resource ∧ i.totalSize ≠ first.totalSize
  failedAndUntracked : phase = .failedAndUntracked ↔ ∃ same i more, rest = same ++ i :: more ∧
    (∀ j ∈ same, first.agrees j) ∧ ¬first.agrees i ∧ more ≠ []

theorem Stands.tells (h : Stands first rest s) : ∃ phase p, s = .run phase p ∧
    Tells first rest phase p := by
  obtain ⟨⟨p, rfl, ht⟩, hl⟩ := h
  refine ⟨_, p, rfl, ht, ?_, ?_, ?_, ?_, ?_⟩
  all_goals rw [Input.verdict_eq_iff]
  case refine_1 =>
    rw [← Input.dissent_eq_nil_iff]
    exact and_congr_right fun _ => by omega
  case refine_2 =>
    rw [← Input.dissent_eq_nil_iff]
    refine and_congr_right fun hd => ?_
    have hn := hl hd
    omega
  case refine_3 =>
    simp only [Input.dissent_eq_cons_iff, Input.agrees_iff]
    grind
  case refine_4 =>
    simp only [Input.dissent_eq_cons_iff, Input.agrees_iff]
    grind
  case refine_5 =>
    simp only [Input.dissent_eq_cons_iff]
    grind

inductive Signal where
  | input (i : Input)
  | overtake

-- What a session makes of an input, or of being overtaken.
def react (s : Session) : Signal → Session
  | .input i => s.next i
  | .overtake => s.overtaken

def Signal.isInput : Signal → Bool
  | .input _ => true
  | .overtake => false

theorem foldl_react_overtaken (p : Progress) (signals : List Signal) :
    signals.foldl react (run .concurrentFullSync p) =
      run .concurrentFullSync { p with processed := p.processed + signals.countP (·.isInput) } := by
  induction signals generalizing p
  case nil => rfl
  case cons signal signals hi =>
    rw [List.foldl_cons, List.countP_cons]
    cases signal
    case input i =>
      refine (hi _).trans ?_
      simp [Signal.isInput, Nat.add_assoc, Nat.add_comm 1]
    case overtake => exact hi p

-- A session tells exactly how its inputs since the first one went, and once it is overtaken it only
-- goes on counting.
theorem tells_latest (inputs : List Input) :
    match latest inputs with
    | [] => inputs = [] ∧ fed inputs = .init
    | first :: rest =>
      (∃ earlier, inputs = earlier ++ first :: rest ∧ (fed earlier).isIdle ∧
        ∀ more, more <+: rest → more ≠ rest → ¬(fed (earlier ++ first :: more)).isIdle) ∧
      ∃ phase p, fed inputs = .run phase p ∧ Tells first rest phase p ∧ ∀ signals : List Signal,
        signals.foldl react (fed inputs).overtaken = .run .concurrentFullSync
          { p with processed := p.processed + signals.countP (·.isInput) } := by
  have h := stands_latest inputs
  cases hl : latest inputs
  case nil =>
    rw [hl] at h
    exact ⟨h, congrArg fed h⟩
  case cons first rest =>
    rw [hl] at h
    have ⟨phase, p, hp, ht⟩ := h.tells
    exact ⟨exists_earlier hl, phase, p, hp, ht, fun signals => hp ▸ foldl_react_overtaken p signals⟩

end Session
end LinkedCache.Sync
