import RayTfm.Lib.Mixing
import RayTfm.Lib.Runs
import RayTfm.Data.BundleQueue

/-! # Mixing several inputs

The model of `execution/operators/mix_operator.py`.  The operator always pulls from the input that
is furthest behind its share of the rows, and waits if that input has nothing yet.  The source keeps
what it knows of each input in lists of the same length, here they are one list.  Weights are
exact. -/

namespace RayTfm.Data

variable {ρ α : Type}

inductive MixStoppingCondition where
  | stopOnShortest
  | stopOnLongestDrop
deriving DecidableEq, Repr

/-- One input: its normalized weight, its queue, the rows it gave so far, and whether it is done. -/
structure MixInput (ρ : Type) where
  weight : ℚ
  buffer : FIFOBundleQueue ρ
  rowsSeen : ℕ
  inputDone : Bool

structure MixOperator (ρ : Type) where
  inputs : List (MixInput ρ)
  stoppingCondition : MixStoppingCondition
  outputBuffer : FIFOBundleQueue ρ
  stopped : Bool
  executionMarkedFinished : Bool
  inputsComplete : Bool

/-- An input is exhausted when it is done and its queue is empty. -/
def MixInput.isExhausted (t : MixInput ρ) : Bool := t.inputDone && !t.buffer.hasNext

namespace MixOperator

def init (numInputs : ℕ) (weights : List ℚ) (stoppingCondition : MixStoppingCondition) :
    Except PyError (MixOperator ρ) := do
  pyAssert (1 ≤ numInputs)
  pyAssert (weights.length = numInputs)
  if ∃ w ∈ weights, w ≤ 0 then .error (.valueError "Weights must be positive.")
  else
    .ok ⟨weights.map (fun w => ⟨w / weights.sum, .init, 0, false⟩), stoppingCondition, .init,
      false, false,
      false⟩

/-- `has_execution_finished`; the operator has no tasks. -/
def hasExecutionFinished (s : MixOperator ρ) : Bool :=
  s.executionMarkedFinished ||
    (s.inputsComplete && (s.inputs.map (fun t => t.buffer.metrics.numBlocks)).sum = 0)

def hasNext (s : MixOperator ρ) : Bool := 0 < s.outputBuffer.metrics.numBundles

def hasCompleted (s : MixOperator ρ) : Bool :=
  s.hasExecutionFinished && s.outputBuffer.metrics.numBlocks = 0 && !s.hasNext

/-- `mark_execution_finished` keeps the output, and drops what waits in the inputs. -/
def markExecutionFinished (s : MixOperator ρ) : MixOperator ρ :=
  { s with
    executionMarkedFinished := true
    inputs := s.inputs.map (fun t => { t with buffer := .init }) }

/-- The loop body of `_select_most_behind_input`; the state is the best index with its gap and
weight. -/
def selectStep (total : ℕ) (best : Option (ℕ × ℚ × ℚ)) (t : MixInput ρ × ℕ) : Option (ℕ × ℚ × ℚ) :=
  if t.1.isExhausted then best
  else
    let gap := t.1.weight * total - t.1.rowsSeen
    match best with
    | none => some (t.2, gap, t.1.weight)
    | some (i, mostBehind, bestWeight) =>
      if mostBehind < gap ∨ (gap = mostBehind ∧ bestWeight < t.1.weight) then
        some (t.2, gap, t.1.weight)
      else some (i, mostBehind, bestWeight)

/-- `none` stands for `-1`. -/
def selectMostBehindInput (s : MixOperator ρ) : Option ℕ :=
  let total := (s.inputs.map MixInput.rowsSeen).sum
  (s.inputs.zipIdx.foldl (selectStep total) none).map Prod.fst

/-- The end of a round: one bundle moves to the output. -/
def moveFrom (s : MixOperator ρ) (i : ℕ) (t : MixInput ρ) : Except PyError (MixOperator ρ) := do
  let r ← t.buffer.getNext
  match r.1.numRows with
  | none => .error .assertionError
  | some rows =>
    .ok { s with
      inputs := s.inputs.set i { t with buffer := r.2, rowsSeen := t.rowsSeen + rows }
      outputBuffer := s.outputBuffer.add r.1 }

/-- A round that is not the end by the stopping condition; `false` if the loop ends. -/
def outputRound (s : MixOperator ρ) : Except PyError (Bool × MixOperator ρ) :=
  match s.selectMostBehindInput with
  | none => .ok (false, s)
  | some i =>
    match s.inputs[i]? with
    | none => .error .indexError
    | some t =>
      if t.buffer.hasNext then do
        let s ← s.moveFrom i t
        .ok (true, s)
      else .ok (false, s)

/-- One round of the loop in `_try_output`. -/
def tryRound (s : MixOperator ρ) : Except PyError (Bool × MixOperator ρ) :=
  if s.stoppingCondition = .stopOnShortest ∧ ∃ t ∈ s.inputs, t.isExhausted = true then
    .ok (false, { s with stopped := true }.markExecutionFinished)
  else s.outputRound

/-- The loop of `_try_output`.  A round after which it goes on takes a bundle out of a queue, so one
round more than there are bundles is always enough. -/
def outputLoop : ℕ → MixOperator ρ → Except PyError (MixOperator ρ)
  | 0, _ => .error (.runtimeError "more rounds than bundles")
  | rounds + 1, s => do
      let r ← s.tryRound
      if r.1 then outputLoop rounds r.2 else .ok r.2

/-- The bundles in the queues of the inputs. -/
def numBuffered (s : MixOperator ρ) : ℕ := (s.inputs.map (fun t => t.buffer.inner.length)).sum

def tryOutput (s : MixOperator ρ) : Except PyError (MixOperator ρ) :=
  if s.stopped then .ok s else s.outputLoop (s.numBuffered + 1)

/-- `_add_input_inner`. -/
def addInput (s : MixOperator ρ) (i : ℕ) (bundle : RefBundle ρ) : Except PyError (MixOperator ρ) := do
  pyAssert (!s.hasCompleted)
  match s.inputs[i]? with
  | none => .error .assertionError
  | some t =>
    if s.stopped then .ok s
    else tryOutput { s with inputs := s.inputs.set i { t with buffer := t.buffer.add bundle } }

def inputDone (s : MixOperator ρ) (i : ℕ) : Except PyError (MixOperator ρ) :=
  match s.inputs[i]? with
  | none => .error .indexError
  | some t => tryOutput { s with inputs := s.inputs.set i { t with inputDone := true } }

def allInputsDone (s : MixOperator ρ) : Except PyError (MixOperator ρ) :=
  tryOutput { s with inputsComplete := true }

def getNext (s : MixOperator ρ) : Except PyError (RefBundle ρ × MixOperator ρ) := do
  let r ← s.outputBuffer.getNext
  .ok (r.1, { s with outputBuffer := r.2 })

end MixOperator

/-- What the executor does with the operator. -/
inductive MixOp (ρ : Type) where
  | add (i : ℕ) (bundle : RefBundle ρ)
  | inputDone (i : ℕ)
  | allInputsDone
  | getNext

/-- The bundles that arrive at one input, in order. -/
def arrivals (i : ℕ) (ops : List (MixOp ρ)) : List (RefBundle ρ) :=
  ops.filterMap (fun op =>
    match op with
    | .add j bundle => if j = i then some bundle else none
    | _ => none)

namespace MixOperator

def step (s : MixOperator ρ) : MixOp ρ → Except PyError (MixOperator ρ × List (RefBundle ρ))
  | .add i bundle => do
      let s ← s.addInput i bundle
      .ok (s, [])
  | .inputDone i => do
      let s ← s.inputDone i
      .ok (s, [])
  | .allInputsDone => do
      let s ← s.allInputsDone
      .ok (s, [])
  | .getNext =>
    if s.hasNext then do
      let r ← s.getNext
      .ok (r.2, [r.1])
    else .ok (s, [])

/-! ### The inputs by their index -/

/-- The input with an index; beyond the last one there is nothing. -/
def inputAt (s : MixOperator ρ) (i : ℕ) : MixInput ρ := s.inputs.getD i ⟨0, .init, 0, false⟩

def weightAt (s : MixOperator ρ) (i : ℕ) : ℚ := (s.inputAt i).weight

def seenAt (s : MixOperator ρ) (i : ℕ) : ℕ := (s.inputAt i).rowsSeen

def waitingAt (s : MixOperator ρ) (i : ℕ) : List (RefBundle ρ) := (s.inputAt i).buffer.inner

/-- How far an input is behind its share of the rows seen so far, then its weight. -/
def mixKey (n : ℕ) (weight : ℕ → ℚ) (seen : ℕ → ℕ) (i : ℕ) : ℚ ×ₗ ℚ :=
  toLex (weight i * (∑ j ∈ Finset.range n, seen j : ℕ) - seen i, weight i)

variable {s s' : MixOperator ρ}
variable {i : ℕ}

theorem getElem?_inputs (hi : i < s.inputs.length) : s.inputs[i]? = some (s.inputAt i) := by
  rw [inputAt, List.getD_eq_getElem?_getD, List.getElem?_eq_getElem hi]
  rfl

section setInput
variable {i : ℕ} {t : MixInput ρ} (hi : i < s.inputs.length) (h : s'.inputs = s.inputs.set i t)
include hi h

theorem inputAt_of_set : s'.inputAt = Function.update s.inputAt i t := by
  funext j
  unfold inputAt
  rw [h, List.getD_eq_getElem?_getD, List.getElem?_set]
  by_cases hij : i = j
  · subst hij
    rw [if_pos rfl, if_pos hi, Function.update_self]
    rfl
  · rw [if_neg hij, Function.update_of_ne (Ne.symm hij), List.getD_eq_getElem?_getD]

theorem weightAt_of_set (hw : t.weight = s.weightAt i) : s'.weightAt = s.weightAt := by
  show MixInput.weight ∘ s'.inputAt = _
  rw [inputAt_of_set hi h, Function.comp_update, hw]
  exact Function.update_eq_self i _

theorem seenAt_of_set : s'.seenAt = Function.update s.seenAt i t.rowsSeen := by
  show MixInput.rowsSeen ∘ s'.inputAt = _
  rw [inputAt_of_set hi h, Function.comp_update]
  rfl

theorem waitingAt_of_set : s'.waitingAt = Function.update s.waitingAt i t.buffer.inner := by
  show (fun t : MixInput ρ => t.buffer.inner) ∘ s'.inputAt = _
  rw [inputAt_of_set hi h, Function.comp_update]
  rfl

theorem forall_of_set {n : ℕ} {P : ℕ → MixInput ρ → Prop} (hP : ∀ j < n, P j (s.inputAt j))
    (hPi : P i t) :
    ∀ j < n, P j (s'.inputAt j) := by
  intro j hj
  rw [inputAt_of_set hi h]
  by_cases hij : j = i
  · subst hij
    rwa [Function.update_self]
  · rw [Function.update_of_ne hij]
    exact hP j hj

end setInput

theorem sum_rowsSeen (s : MixOperator ρ) :
    (s.inputs.map MixInput.rowsSeen).sum = ∑ j ∈ Finset.range s.inputs.length, s.seenAt j := by
  have hsum : ∀ (l : List (MixInput ρ)) (f : ℕ → MixInput ρ), (∀ i < l.length, l[i]? = some (f i)) →
      (l.map MixInput.rowsSeen).sum = ∑ j ∈ Finset.range l.length, (f j).rowsSeen := by
    intro l
    induction l using List.reverseRecOn with
    | nil => simp
    | append_singleton l t ih =>
      intro f hf
      have hlast := hf l.length (by simp)
      rw [List.getElem?_concat_length] at hlast
      rw [List.map_append, List.sum_append, List.length_append, List.length_singleton,
        Finset.sum_range_succ, ih f (fun i hi => ?_), ← Option.some.inj hlast]
      · simp
      · rw [← hf i (by rw [List.length_append]; omega), List.getElem?_append_left hi]
  exact hsum s.inputs s.inputAt (fun i hi => getElem?_inputs hi)

/-- The loop of `_select_most_behind_input` finds the first input with the greatest key. -/
theorem foldl_selectStep (total : ℕ) (l : List (MixInput ρ)) (f : ℕ → MixInput ρ)
    (hf : ∀ i < l.length, l[i]? = some (f i)) :
    l.zipIdx.foldl (selectStep total) none =
      (firstBest (fun i => toLex ((f i).weight * total - (f i).rowsSeen, (f i).weight))
        (fun i => !(f i).isExhausted) l.length).map
          (fun i => (i, (f i).weight * total - (f i).rowsSeen, (f i).weight)) := by
  induction l using List.reverseRecOn with
  | nil => rfl
  | append_singleton l t ih =>
    have hlast := hf l.length (by simp)
    rw [List.getElem?_concat_length] at hlast
    have ht : f l.length = t := (Option.some.inj hlast).symm
    have hl : ∀ i < l.length, l[i]? = some (f i) := by
      intro i hi
      rw [← hf i (by rw [List.length_append]; omega), List.getElem?_append_left hi]
    rw [List.zipIdx_append, List.foldl_append, ih hl, List.length_append, List.length_singleton,
      firstBest]
    simp only [List.zipIdx_singleton, List.foldl_cons, List.foldl_nil, Nat.zero_add, selectStep]
    cases hb : firstBest (fun i => toLex ((f i).weight * (total : ℚ) - (f i).rowsSeen, (f i).weight))
      (fun i => !(f i).isExhausted) l.length with
    | none =>
      by_cases hex : t.isExhausted = true
      · simp [ht, hex]
      · simp [ht, hex]
    | some i =>
      by_cases hex : t.isExhausted = true
      · simp [ht, hex]
      · simp only [ht, hex, Option.map_some, Bool.not_false, true_and, Prod.Lex.toLex_lt_toLex]
        rw [if_neg Bool.false_ne_true, apply_ite (Option.map _), Option.map_some, Option.map_some, ht]
        exact if_congr (or_congr Iff.rfl (and_congr eq_comm Iff.rfl)) rfl rfl

theorem selectMostBehindInput_eq (s : MixOperator ρ) :
    s.selectMostBehindInput = firstBest (mixKey s.inputs.length s.weightAt s.seenAt)
      (fun i => !(s.inputAt i).isExhausted) s.inputs.length := by
  unfold selectMostBehindInput
  simp only
  rw [foldl_selectStep _ s.inputs s.inputAt (fun i hi => getElem?_inputs hi), sum_rowsSeen,
    Option.map_map]
  show Option.map id _ = _
  rw [Option.map_id]
  rfl

/-! ### What the operator keeps -/

/-- For whatever may still arrive, what went out so far and the mixture of all that is left make the
mixture of all. -/
structure Inv (n : ℕ) (weight : ℕ → ℚ) (ops : List (MixOp ρ)) (s : MixOperator ρ)
    (out : List (RefBundle ρ)) : Prop where
  condition : s.stoppingCondition = .stopOnLongestDrop
  length : s.inputs.length = n
  weights : s.weightAt = weight
  stopped : s.stopped = false
  finished : s.executionMarkedFinished = false
  complete : s.inputsComplete = true → .allInputsDone ∈ ops
  done : ∀ i < n, (s.inputAt i).inputDone = true ↔ .inputDone i ∈ ops
  valid : ∀ i < n, (s.inputAt i).buffer.Valid
  outValid : s.outputBuffer.Valid
  known : ∀ i < n, ∀ b ∈ s.waitingAt i, b.numRows.isSome = true
  mixed : ∃ labelled : List (ℕ × RefBundle ρ),
    labelled.map Prod.snd = out ++ s.outputBuffer.inner ∧
    ∀ future : ℕ → List (RefBundle ρ), (∀ i < n, .inputDone i ∈ ops → future i = []) →
      labelled ++ mix n (mixKey n weight) RefBundle.rowsOrZero s.seenAt
          (fun i => s.waitingAt i ++ future i) =
        mix n (mixKey n weight) RefBundle.rowsOrZero (fun _ => 0) (fun i => arrivals i ops ++ future i)

/-- Nobody can be served: the input that is furthest behind has nothing. -/
def Waiting (s : MixOperator ρ) : Prop := ∀ i, s.selectMostBehindInput = some i → s.waitingAt i = []

theorem sum_set {l : List (MixInput ρ)} {t t' : MixInput ρ} (h : l[i]? = some t)
    (hlen : t.buffer.inner.length = t'.buffer.inner.length + 1) :
    (l.map (fun t => t.buffer.inner.length)).sum =
      ((l.set i t').map (fun t => t.buffer.inner.length)).sum + 1 := by
  induction l generalizing i with
  | nil => cases h
  | cons a l ih =>
    cases i with
    | zero =>
      cases h
      simp only [List.set_cons_zero, List.map_cons, List.sum_cons]
      omega
    | succ i =>
      have := ih (i := i) h
      simp only [List.set_cons_succ, List.map_cons, List.sum_cons]
      omega

/-- A bundle that is moved on leaves its input, where its rows are counted. -/
theorem exists_moveFrom (hi : i < s.inputs.length) (hvalid : (s.inputAt i).buffer.Valid)
    (hknown : ∀ b ∈ s.waitingAt i, b.numRows.isSome = true) {b : RefBundle ρ} {l : List (RefBundle ρ)}
    (hbl : s.waitingAt i = b :: l) :
    ∃ (t : MixInput ρ) (s' : MixOperator ρ), s.moveFrom i (s.inputAt i) = .ok s' ∧
      s' = { s with inputs := s.inputs.set i t, outputBuffer := s.outputBuffer.add b } ∧
      t.inputDone = (s.inputAt i).inputDone ∧ t.weight = s.weightAt i ∧ t.buffer.Valid ∧
      (∀ b ∈ t.buffer.inner, b.numRows.isSome = true) ∧ s'.waitingAt = Function.update s.waitingAt i l ∧
      s'.seenAt = Function.update s.seenAt i (s.seenAt i + b.rowsOrZero) ∧
      s.numBuffered = s'.numBuffered + 1 := by
  obtain ⟨q, hget, hq, hqvalid⟩ := hvalid.getNext hbl
  rw [hbl] at hknown
  obtain ⟨rows, hrows⟩ := Option.isSome_iff_exists.mp (hknown b (.head _))
  have hzero : b.rowsOrZero = rows := by rw [RefBundle.rowsOrZero, hrows]; rfl
  refine ⟨{ s.inputAt i with buffer := q, rowsSeen := (s.inputAt i).rowsSeen + rows }, _, ?_, rfl,
    rfl, rfl, hqvalid,
    fun x hx => hknown x (.tail _ (hq ▸ hx)), ?_, ?_, ?_⟩
  · rw [MixOperator.moveFrom, hget, ok_bind]
    simp only [hrows]
  · rw [waitingAt_of_set hi rfl, ← hq]
  · rw [seenAt_of_set hi rfl, hzero]
    rfl
  · apply sum_set (getElem?_inputs hi)
    show (s.waitingAt i).length = q.inner.length + 1
    rw [hbl, hq, List.length_cons]

variable {n : ℕ} {weight : ℕ → ℚ} {ops : List (MixOp ρ)} {out : List (RefBundle ρ)}

/-- Who is chosen among the inputs not known to be exhausted, and has something, is the one that the
mixture of everything chooses. -/
theorem Inv.isFirstBest (h : Inv n weight ops s out) (hi : s.selectMostBehindInput = some i)
    (hne : s.waitingAt i ≠ []) {future : ℕ → List (RefBundle ρ)}
    (hfuture : ∀ i < n, .inputDone i ∈ ops → future i = []) :
    IsFirstBest (mixKey n weight s.seenAt) (fun j => !(s.waitingAt j ++ future j).isEmpty) n i := by
  rw [selectMostBehindInput_eq, h.length, h.weights] at hi
  refine (firstBest_eq_some.mp hi).mono (fun j hj hq => ?_) ?_
  · rw [Bool.not_eq_true', List.isEmpty_eq_false_iff] at hq
    rw [Bool.not_eq_true', MixInput.isExhausted, Bool.and_eq_false_iff]
    by_contra hex
    push Not at hex
    obtain ⟨hdone, hempty⟩ := hex
    have hnil : s.waitingAt j = [] := by
      by_contra hsome
      rw [(h.valid j hj).hasNext.mpr hsome] at hempty
      exact hempty rfl
    have hnone := hfuture j hj ((h.done j hj).mp (by simpa using hdone))
    rw [hnil, hnone] at hq
    exact hq rfl
  · rw [Bool.not_eq_true', List.isEmpty_eq_false_iff]
    exact List.append_ne_nil_of_left_ne_nil hne _

theorem Inv.moveFrom (h : Inv n weight ops s out) (hselect : s.selectMostBehindInput = some i)
    (hi : i < n) {b : RefBundle ρ} {l : List (RefBundle ρ)} (hbl : s.waitingAt i = b :: l) :
    ∃ s', s.moveFrom i (s.inputAt i) = .ok s' ∧ Inv n weight ops s' out ∧
      s.numBuffered = s'.numBuffered + 1 := by
  have hilen : i < s.inputs.length := by rw [h.length]; exact hi
  obtain ⟨t, _, hmove, rfl, hdone, hweight, hvalid, hknown, hwaiting, hseen, hless⟩ :=
    exists_moveFrom hilen (h.valid i hi) (h.known i hi) hbl
  obtain ⟨labelled, hout, hmix⟩ := h.mixed
  refine ⟨_, hmove, ⟨h.condition, ?_, (weightAt_of_set hilen rfl hweight).trans h.weights,
    h.stopped, h.finished,
    h.complete, forall_of_set (P := fun j t => t.inputDone = true ↔ .inputDone j ∈ ops) hilen rfl h.done
      (hdone ▸ h.done i hi),
    forall_of_set (P := fun _ t => t.buffer.Valid) hilen rfl h.valid hvalid, h.outValid.add b,
    forall_of_set (P := fun _ t => ∀ b ∈ t.buffer.inner, b.numRows.isSome = true) hilen rfl
    h.known hknown,
    labelled ++ [(i, b)], ?_, fun future hfuture => ?_⟩, hless⟩
  · rw [List.length_set, h.length]
  · rw [List.map_append, hout, List.append_assoc]
    rfl
  · have hbest := h.isFirstBest hselect (by rw [hbl]; exact List.cons_ne_nil b l) hfuture
    have hrest : s.waitingAt i ++ future i = b :: (l ++ future i) := by rw [hbl, List.cons_append]
    rw [← hmix future hfuture, mix_cons hbest hrest, List.append_assoc, List.singleton_append,
      hseen, hwaiting]
    congr 3
    funext j
    by_cases hij : j = i
    · subst hij
      rw [Function.update_self, Function.update_self]
    · rw [Function.update_of_ne hij, Function.update_of_ne hij]

theorem Inv.tryRound (h : Inv n weight ops s out) :
    (s.tryRound = .ok (false, s) ∧ s.Waiting) ∨
      ∃ s', s.tryRound = .ok (true, s') ∧ Inv n weight ops s' out ∧
      s.numBuffered = s'.numBuffered + 1 := by
  have hround : s.tryRound = s.outputRound := by
    rw [MixOperator.tryRound, if_neg]
    rw [h.condition]
    simp
  rw [hround]
  unfold outputRound
  cases hselect : s.selectMostBehindInput with
  | none =>
    refine .inl ⟨rfl, fun i hi => ?_⟩
    rw [hselect] at hi
    cases hi
  | some i =>
    have hi : i < n := by
      have hbest := hselect
      rw [selectMostBehindInput_eq, h.length] at hbest
      exact (firstBest_eq_some.mp hbest).lt
    simp only [getElem?_inputs (show i < s.inputs.length by rw [h.length]; exact hi)]
    split_ifs with hnext
    · obtain ⟨b, l, hbl⟩ := List.exists_cons_of_ne_nil ((h.valid i hi).hasNext.mp hnext)
      obtain ⟨s', hmove, hinv, hless⟩ := h.moveFrom hselect hi hbl
      rw [hmove]
      exact .inr ⟨s', rfl, hinv, hless⟩
    · refine .inl ⟨rfl, fun j hj => ?_⟩
      rw [hselect] at hj
      cases hj
      by_contra hne
      exact hnext ((h.valid i hi).hasNext.mpr hne)

theorem Inv.tryOutput (h : Inv n weight ops s out) :
    ∃ s', s.tryOutput = .ok s' ∧ Inv n weight ops s' out ∧ s'.Waiting := by
  have hloop : ∀ (rounds : ℕ) {s : MixOperator ρ}, Inv n weight ops s out → s.numBuffered < rounds →
      ∃ s', s.outputLoop rounds = .ok s' ∧ Inv n weight ops s' out ∧ s'.Waiting := by
    intro rounds
    induction rounds with
    | zero =>
      intro s _ hlt
      omega
    | succ rounds ih =>
      intro s h hlt
      rw [outputLoop]
      obtain ⟨hround, hwait⟩ | ⟨s₁, hround, h₁, hless⟩ := h.tryRound
      · rw [hround]
        exact ⟨s, rfl, h, hwait⟩
      · rw [hround]
        exact ih h₁ (show s₁.numBuffered < rounds by omega)
  rw [MixOperator.tryOutput, h.stopped, if_neg (by simp)]
  exact hloop _ h (Nat.lt_succ_self _)

/-! ### Runs -/

theorem arrivals_snoc_add (ops : List (MixOp ρ)) (i : ℕ) (b : RefBundle ρ) :
    (fun j => arrivals j (ops ++ [.add i b])) =
      Function.update (fun j => arrivals j ops) i (arrivals i ops ++ [b]) := by
  funext j
  rw [arrivals, List.filterMap_append]
  by_cases hij : i = j
  · subst hij
    rw [Function.update_self]
    simp [arrivals]
  · rw [Function.update_of_ne (Ne.symm hij)]
    simp [arrivals, hij]

theorem arrivals_snoc (ops : List (MixOp ρ)) (op : MixOp ρ) (hop : ∀ i b, op ≠ .add i b) (j : ℕ) :
    arrivals j (ops ++ [op]) = arrivals j ops := by
  rw [arrivals, List.filterMap_append]
  cases op with
  | add i b => exact absurd rfl (hop i b)
  | inputDone i => exact List.append_nil _
  | allInputsDone => exact List.append_nil _
  | getNext => exact List.append_nil _

theorem Inv.addInput (h : Inv n weight ops s out) (hi : i < n) {b : RefBundle ρ}
    (hb : b.numRows.isSome = true) (hdone : .inputDone i ∉ ops) (hall : .allInputsDone ∉ ops) :
    ∃ s', s.addInput i b = .ok s' ∧ Inv n weight (ops ++ [.add i b]) s' out ∧ s'.Waiting := by
  have hilen : i < s.inputs.length := by rw [h.length]; exact hi
  set t : MixInput ρ := { s.inputAt i with buffer := (s.inputAt i).buffer.add b } with ht
  set s₁ : MixOperator ρ := { s with inputs := s.inputs.set i t } with hs₁
  have hset : s₁.inputs = s.inputs.set i t := rfl
  have hinv : Inv n weight (ops ++ [.add i b]) s₁ out := by
    obtain ⟨labelled, hout, hmix⟩ := h.mixed
    have hmem : ∀ j, .inputDone j ∈ ops ++ [.add i b] ↔ .inputDone j ∈ ops := by simp
    refine ⟨h.condition, ?_, (weightAt_of_set hilen hset rfl).trans h.weights, h.stopped, h.finished,
      fun hc => List.mem_append_left _ (h.complete hc), ?_,
      forall_of_set (P := fun _ t => t.buffer.Valid) hilen hset h.valid
        ((h.valid i hi).add b), h.outValid,
      ?_, labelled, hout, fun future hfuture => ?_⟩
    · rw [hset, List.length_set, h.length]
    · refine forall_of_set
        (P := fun j t => t.inputDone = true ↔ .inputDone j ∈ ops ++ [.add i b]) hilen hset
        (fun j hj => ?_) ?_
      · rw [hmem]
        exact h.done j hj
      · rw [hmem]
        exact h.done i hi
    · refine forall_of_set (P := fun _ t => ∀ b ∈ t.buffer.inner, b.numRows.isSome = true) hilen
        hset h.known ?_
      intro x hx
      obtain hx | hx := List.mem_append.mp hx
      · exact h.known i hi x hx
      · rw [List.mem_singleton.mp hx]
        exact hb
    · -- the new bundle was the next one in the future of its input
      have hbefore := hmix (Function.update future i (b :: future i)) (by
        intro j hj hjd
        by_cases hij : j = i
        · subst hij
          exact absurd hjd hdone
        · rw [Function.update_of_ne hij]
          exact hfuture j hj ((hmem j).mpr hjd))
      have hshift : ∀ (f g : ℕ → List (RefBundle ρ)), g = Function.update f i (f i ++ [b]) →
          (fun j => g j ++ future j) = fun j => f j ++ Function.update future i (b :: future i) j := by
        rintro f g rfl
        funext j
        by_cases hij : j = i
        · subst hij
          simp
        · rw [Function.update_of_ne hij, Function.update_of_ne hij]
      rw [hshift s.waitingAt s₁.waitingAt (waitingAt_of_set hilen hset),
        hshift (fun j => arrivals j ops) _ (arrivals_snoc_add ops i b), ← hbefore,
        seenAt_of_set hilen hset]
      rw [show Function.update s.seenAt i t.rowsSeen = s.seenAt from Function.update_eq_self i s.seenAt]
  obtain ⟨s', htry, hinv', hwait⟩ := hinv.tryOutput
  refine ⟨s', ?_, hinv', hwait⟩
  have hcompleted : s.hasCompleted = false := by
    have hfin : s.hasExecutionFinished = false := by
      have hcomplete : s.inputsComplete = false := by
        by_contra hc
        exact hall (h.complete (by simpa using hc))
      rw [hasExecutionFinished, h.finished, hcomplete]
      rfl
    rw [hasCompleted, hfin]
    rfl
  rw [MixOperator.addInput, hcompleted, Bool.not_false, pyAssert_true, ok_bind]
  simp only [getElem?_inputs hilen]
  rw [if_neg (by rw [h.stopped]; exact Bool.false_ne_true)]
  exact htry

theorem Inv.inputDone (h : Inv n weight ops s out) (hi : i < n) :
    ∃ s', s.inputDone i = .ok s' ∧ Inv n weight (ops ++ [.inputDone i]) s' out ∧ s'.Waiting := by
  have hilen : i < s.inputs.length := by rw [h.length]; exact hi
  set t : MixInput ρ := { s.inputAt i with inputDone := true } with ht
  set s₁ : MixOperator ρ := { s with inputs := s.inputs.set i t } with hs₁
  have hset : s₁.inputs = s.inputs.set i t := rfl
  have hwaiting : s₁.waitingAt = s.waitingAt :=
    (waitingAt_of_set hilen hset).trans (Function.update_eq_self i s.waitingAt)
  have hseen : s₁.seenAt = s.seenAt :=
    (seenAt_of_set hilen hset).trans (Function.update_eq_self i s.seenAt)
  have hinv : Inv n weight (ops ++ [.inputDone i]) s₁ out := by
    obtain ⟨labelled, hout, hmix⟩ := h.mixed
    refine ⟨h.condition, ?_, (weightAt_of_set hilen hset rfl).trans h.weights, h.stopped, h.finished,
      fun hc => List.mem_append_left _ (h.complete hc), fun j hj => ?_,
      forall_of_set (P := fun _ t => t.buffer.Valid) hilen hset h.valid (h.valid i hi), h.outValid,
      forall_of_set (P := fun _ t => ∀ b ∈ t.buffer.inner, b.numRows.isSome = true) hilen hset h.known
        (h.known i hi), labelled, hout, fun future hfuture => ?_⟩
    · rw [hset, List.length_set, h.length]
    · rw [inputAt_of_set hilen hset, List.mem_append, List.mem_singleton]
      by_cases hij : j = i
      · subst hij
        rw [Function.update_self]
        simp [ht]
      · rw [Function.update_of_ne hij, h.done j hj]
        simp [hij]
    · rw [hwaiting, hseen, hmix future (fun j hj hjd => hfuture j hj (List.mem_append_left _ hjd))]
      simp only [arrivals_snoc ops (.inputDone i) nofun]
  obtain ⟨s', htry, hinv', hwait⟩ := hinv.tryOutput
  refine ⟨s', ?_, hinv', hwait⟩
  unfold MixOperator.inputDone
  rw [getElem?_inputs hilen]
  exact htry

theorem Inv.allInputsDone (h : Inv n weight ops s out) :
    ∃ s', s.allInputsDone = .ok s' ∧ Inv n weight (ops ++ [.allInputsDone]) s' out ∧ s'.Waiting := by
  have hinv : Inv n weight (ops ++ [.allInputsDone]) { s with inputsComplete := true } out := by
    obtain ⟨labelled, hout, hmix⟩ := h.mixed
    refine ⟨h.condition, h.length, h.weights, h.stopped, h.finished, by simp, fun j hj => ?_, h.valid,
      h.outValid, h.known, labelled, hout, fun future hfuture => ?_⟩
    · rw [List.mem_append, List.mem_singleton, or_iff_left nofun]
      exact h.done j hj
    · simp only [arrivals_snoc ops .allInputsDone nofun]
      exact hmix future (fun j hj hjd => hfuture j hj (List.mem_append_left _ hjd))
  exact hinv.tryOutput

theorem Inv.step_getNext (h : Inv n weight ops s out) (hwait : s.Waiting) :
    ∃ s' o, s.step .getNext = .ok (s', o) ∧ Inv n weight (ops ++ [.getNext]) s' (out ++ o) ∧
    s'.Waiting := by
  have hkeep : ∀ {q : FIFOBundleQueue ρ} {o : List (RefBundle ρ)}, q.Valid →
      out ++ s.outputBuffer.inner = out ++ o ++ q.inner →
      Inv n weight (ops ++ [.getNext]) { s with outputBuffer := q } (out ++ o) := by
    intro q o hq heq
    obtain ⟨labelled, hout, hmix⟩ := h.mixed
    refine ⟨h.condition, h.length, h.weights, h.stopped, h.finished,
      fun hc => List.mem_append_left _ (h.complete hc), fun j hj => ?_, h.valid, hq, h.known, labelled,
      hout.trans heq, fun future hfuture => ?_⟩
    · rw [List.mem_append, List.mem_singleton, or_iff_left nofun]
      exact h.done j hj
    · simp only [arrivals_snoc ops .getNext nofun]
      exact hmix future (fun j hj hjd => hfuture j hj (List.mem_append_left _ hjd))
  rw [MixOperator.step]
  split_ifs with hnext
  · obtain ⟨b, l, hbl⟩ := List.exists_cons_of_ne_nil (h.outValid.hasNext.mp hnext)
    obtain ⟨q, hget, hq, hvalid⟩ := h.outValid.getNext hbl
    refine ⟨{ s with outputBuffer := q }, [b], ?_, hkeep hvalid ?_, hwait⟩
    · rw [MixOperator.getNext, hget, ok_bind, ok_bind]
    · rw [hq, hbl, List.append_assoc, List.singleton_append]
  · exact ⟨s, [], rfl, hkeep h.outValid (by rw [List.append_nil]), hwait⟩

end MixOperator

/-- What the executor keeps to: an input sends nothing after it is done. -/
structure MixLegal (n : ℕ) (ops : List (MixOp ρ)) : Prop where
  add : ∀ done i b rest, ops = done ++ .add i b :: rest →
    i < n ∧ .inputDone i ∉ done ∧ .allInputsDone ∉ done ∧ b.numRows.isSome = true
  inputDone : ∀ i, .inputDone i ∈ ops → i < n

theorem MixLegal.arrivals_eq_nil {n : ℕ} {ops : List (MixOp ρ)} (h : MixLegal n ops) {i : ℕ}
    (hi : n ≤ i) :
    arrivals i ops = [] := by
  apply List.filterMap_eq_nil_iff.mpr
  intro op hop
  cases op with
  | add j b =>
    obtain ⟨done, rest, heq⟩ := List.append_of_mem hop
    have hj := (h.add done j b rest heq).1
    exact if_neg (by omega)
  | inputDone j => rfl
  | allInputsDone => rfl
  | getNext => rfl

namespace MixOperator

variable {n : ℕ} {weight : ℕ → ℚ} {ops : List (MixOp ρ)} {s : MixOperator ρ}

/-- No legal run fails. -/
theorem run_inv (hs : Inv n weight [] s []) (hwait : s.Waiting) (hops : MixLegal n ops) :
    ∃ s' out, runSteps step s ops = .ok (s', out) ∧ Inv n weight ops s' out ∧ s'.Waiting := by
  apply runSteps_ok (P := fun done s out => Inv n weight done s out ∧ s.Waiting)
  · exact ⟨hs, hwait⟩
  · rintro done op rest s out heq ⟨h, hwait⟩
    cases op with
    | add i b =>
      obtain ⟨hi, hdone, hall, hb⟩ := hops.add done i b rest heq
      obtain ⟨s', hadd, h', hwait'⟩ := h.addInput hi hb hdone hall
      exact ⟨s', [], by rw [step, hadd]; rfl, by rwa [List.append_nil], hwait'⟩
    | inputDone i =>
      obtain ⟨s', hdone, h', hwait'⟩ := h.inputDone (hops.inputDone i (by rw [heq]; simp))
      exact ⟨s', [], by rw [step, hdone]; rfl, by rwa [List.append_nil], hwait'⟩
    | allInputsDone =>
      obtain ⟨s', hdone, h', hwait'⟩ := h.allInputsDone
      exact ⟨s', [], by rw [step, hdone]; rfl, by rwa [List.append_nil], hwait'⟩
    | getNext => exact h.step_getNext hwait

/-- Once all inputs are done, the output is the mixture of all that arrived. -/
theorem Inv.output_eq {out : List (RefBundle ρ)} (h : Inv n weight ops s out) (hwait : s.Waiting)
    (hall : ∀ i < n, .inputDone i ∈ ops) :
    out ++ s.outputBuffer.inner =
      (mix n (mixKey n weight) RefBundle.rowsOrZero (fun _ => 0) (fun i => arrivals i ops)).map
        Prod.snd := by
  have hempty : ∀ i < n, s.waitingAt i = [] := by
    intro i hi
    have hdone : ∀ j < n, (s.inputAt j).isExhausted = false → s.waitingAt j ≠ [] := by
      intro j hj hex hnil
      rw [MixInput.isExhausted, (h.done j hj).mpr (hall j hj), Bool.true_and, Bool.not_eq_false'] at hex
      exact (h.valid j hj).hasNext.mp hex hnil
    obtain ⟨-, hno⟩ | ⟨j, hj, hbest⟩ := firstBest_spec (mixKey s.inputs.length s.weightAt s.seenAt)
      (fun i => !(s.inputAt i).isExhausted) s.inputs.length
    · have hex := hno i (by rw [h.length]; exact hi)
      rw [Bool.not_eq_false', MixInput.isExhausted, Bool.and_eq_true, Bool.not_eq_true'] at hex
      by_contra hne
      rw [(h.valid i hi).hasNext.mpr hne] at hex
      exact absurd hex.2 (by simp)
    · rw [← selectMostBehindInput_eq] at hj
      have hq := hbest.qualifies
      rw [Bool.not_eq_true'] at hq
      exact absurd (hwait j hj) (hdone j (h.length ▸ hbest.lt) hq)
  obtain ⟨labelled, hout, hmix⟩ := h.mixed
  have hend := hmix (fun _ => []) (fun _ _ _ => rfl)
  simp only [List.append_nil] at hend
  rw [mix_nil hempty, List.append_nil] at hend
  rw [← hout, hend]

theorem exists_init {weights : List ℚ} (hne : weights ≠ []) (hpos : ∀ w ∈ weights, 0 < w) :
    ∃ s : MixOperator ρ, init weights.length weights .stopOnLongestDrop = .ok s ∧ s.Waiting ∧
      ∃ weight, Inv weights.length weight [] s [] := by
  set s : MixOperator ρ :=
    ⟨weights.map (fun w => ⟨w / weights.sum, .init, 0, false⟩), .stopOnLongestDrop,
    .init, false, false, false⟩ with hs
  have hat : ∀ i, (s.inputAt i).buffer = .init ∧ s.seenAt i = 0 ∧ (s.inputAt i).inputDone = false := by
    intro i
    unfold seenAt inputAt
    rw [List.getD_eq_getElem?_getD, List.getElem?_map]
    cases weights[i]? with
    | none => exact ⟨rfl, rfl, rfl⟩
    | some w => exact ⟨rfl, rfl, rfl⟩
  have hwaiting : s.waitingAt = fun _ => [] := by
    funext i
    show (s.inputAt i).buffer.inner = []
    rw [(hat i).1]
    rfl
  refine ⟨s, ?_, fun i _ => by rw [hwaiting], s.weightAt, rfl, List.length_map _, rfl, rfl, rfl, nofun,
    fun i _ => ?_, fun i _ => ?_, FIFOBundleQueue.valid_init, fun i _ => ?_, [], rfl,
    fun future _ => ?_⟩
  · have hlen : 1 ≤ weights.length := List.length_pos_iff.mpr hne
    rw [init, decide_eq_true hlen, pyAssert_true, ok_bind, decide_eq_true rfl, pyAssert_true,
      ok_bind, if_neg]
    rintro ⟨w, hw, hle⟩
    exact absurd (hpos w hw) (not_lt.mpr hle)
  · rw [(hat i).2.2]
    simp
  · rw [(hat i).1]
    exact FIFOBundleQueue.valid_init
  · rw [hwaiting]
    simp
  · have hseen : s.seenAt = fun _ => 0 := funext (fun i => (hat i).2.1)
    rw [hwaiting, hseen]
    rfl

end MixOperator

/-- `MixOperator` with `STOP_ON_LONGEST_DROP`: any two legal runs in which the same bundles arrive
at each input, in whatever interleaving with each other, with the ends of the inputs and with the
consumer, put out the same sequence once all inputs are done; and it interleaves the inputs.  Row
counts are known, as the operator asserts. -/
theorem mixOperator_longestDrop {weights : List ℚ} (hne : weights ≠ []) (hpos : ∀ w ∈ weights, 0 < w)
    {ops ops' : List (MixOp ρ)} (hops : MixLegal weights.length ops)
    (hops' : MixLegal weights.length ops')
    (hall : ∀ i < weights.length, .inputDone i ∈ ops)
    (hall' : ∀ i < weights.length, .inputDone i ∈ ops')
    (hsame : ∀ i < weights.length, arrivals i ops = arrivals i ops') :
    ∃ s₀ s out s' out', MixOperator.init weights.length weights .stopOnLongestDrop = .ok s₀ ∧
      runSteps MixOperator.step s₀ ops = .ok (s, out) ∧
      runSteps MixOperator.step s₀ ops' = .ok (s', out') ∧
      out ++ s.outputBuffer.inner = out' ++ s'.outputBuffer.inner ∧
      ∃ labelled : List (ℕ × RefBundle ρ), labelled.map Prod.snd = out ++ s.outputBuffer.inner ∧
        (∀ t ∈ labelled, t.1 < weights.length) ∧
        ∀ i < weights.length, (labelled.filter (fun t => t.1 = i)).map Prod.snd = arrivals i ops := by
  obtain ⟨s₀, hinit, hwait₀, weight, h₀⟩ := MixOperator.exists_init (ρ := ρ) hne hpos
  obtain ⟨s, out, hrun, h, hwait⟩ := MixOperator.run_inv h₀ hwait₀ hops
  obtain ⟨s', out', hrun', h', hwait'⟩ := MixOperator.run_inv h₀ hwait₀ hops'
  have hout := h.output_eq hwait hall
  have hout' := h'.output_eq hwait' hall'
  have harrivals : (fun i => arrivals i ops) = fun i => arrivals i ops' := by
    funext i
    by_cases hi : i < weights.length
    · exact hsame i hi
    · rw [hops.arrivals_eq_nil (by omega), hops'.arrivals_eq_nil (by omega)]
  obtain ⟨hlt, hfilter⟩ := mix_interleaves weights.length (MixOperator.mixKey weights.length weight)
    RefBundle.rowsOrZero (fun _ => 0) (fun i => arrivals i ops)
  exact ⟨s₀, s, out, s', out', hinit, hrun, hrun', by rw [hout, hout', harrivals], _, hout.symm,
    hlt, hfilter⟩

theorem mixOperator_longestDrop_two :
    ∃ s₀ s out s' out', MixOperator.init 2 [1, 2] .stopOnLongestDrop = .ok s₀ ∧
      runSteps MixOperator.step s₀
        [.add 0 (.ofBlocks [⟨.arrow, [1, 2]⟩]), .add 1 (.ofBlocks [⟨.arrow, [3]⟩]),
        .getNext, .inputDone 0, .inputDone 1] = .ok (s, out) ∧
      runSteps MixOperator.step s₀ [.add 1 (.ofBlocks [⟨.arrow, [3]⟩]), .inputDone 1,
        .add 0 (.ofBlocks [⟨.arrow, [1, 2]⟩]), .inputDone 0, .allInputsDone] = .ok (s', out') ∧
      out ++ s.outputBuffer.inner = out' ++ s'.outputBuffer.inner := by
  have hops : MixLegal 2
    [.add 0 (.ofBlocks [⟨.arrow, [1, 2]⟩]), .add 1 (.ofBlocks [⟨.arrow, [3]⟩]), .getNext,
      .inputDone 0, .inputDone (ρ := Block ℕ) 1] := by
    refine ⟨fun done i b rest h => ?_, by simp⟩
    rcases done with _ | ⟨_, _ | ⟨_, _ | ⟨_, _ | ⟨_, _ | ⟨_, done⟩⟩⟩⟩⟩ <;> simp at h
    · obtain ⟨⟨rfl, rfl⟩, -⟩ := h
      exact ⟨by decide, by simp, by simp, rfl⟩
    · obtain ⟨rfl, ⟨rfl, rfl⟩, -⟩ := h
      exact ⟨by decide, by simp, by simp, rfl⟩
  have hops' : MixLegal 2 [.add 1 (.ofBlocks [⟨.arrow, [3]⟩]), .inputDone 1,
      .add 0 (.ofBlocks [⟨.arrow, [1, 2]⟩]), .inputDone 0, .allInputsDone (ρ := Block ℕ)] := by
    refine ⟨fun done i b rest h => ?_, by simp⟩
    rcases done with _ | ⟨_, _ | ⟨_, _ | ⟨_, _ | ⟨_, _ | ⟨_, done⟩⟩⟩⟩⟩ <;> simp at h
    · obtain ⟨⟨rfl, rfl⟩, -⟩ := h
      exact ⟨by decide, by simp, by simp, rfl⟩
    · obtain ⟨rfl, rfl, ⟨rfl, rfl⟩, -⟩ := h
      exact ⟨by decide, by simp, by simp, rfl⟩
  have hall : ∀ i < 2, i = 0 ∨ i = 1 := by omega
  obtain ⟨s₀, s, out, s', out', hinit, hrun, hrun', hout, -⟩ := mixOperator_longestDrop
    (show ([1, 2] : List ℚ) ≠ [] by simp) (by simp) hops hops'
    (fun i hi => by obtain rfl | rfl := hall i hi <;> simp)
    (fun i hi => by obtain rfl | rfl := hall i hi <;> simp)
    (fun i hi => by obtain rfl | rfl := hall i hi <;> rfl)
  exact ⟨s₀, s, out, s', out', hinit, hrun, hrun', hout⟩

end RayTfm.Data
