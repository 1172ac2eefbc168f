import RayTfm.Data.MixOperator

/-! # Mixing until the shortest input ends

With `STOP_ON_SHORTEST` the operator stops when it knows that an input has ended and has nothing
left.  It may know that late: until then it goes on as the selection tells, so what it puts out lies
between the mixture that stops when the first input is drained and the one that stops when the
selected input has nothing. -/

namespace RayTfm.Data

variable {ρ : Type}

namespace MixOperator

/-- The executor hands nothing to an operator that has completed. -/
def guardedStep (s : MixOperator ρ) : MixOp ρ → Except PyError (MixOperator ρ × List (RefBundle ρ))
  | .add i bundle => if s.hasCompleted then .ok (s, []) else s.step (.add i bundle)
  | op => s.step op

/-- The mixture until the selected input has nothing. -/
def untilStuck (n : ℕ) (weight : ℕ → ℚ) (seen : ℕ → ℕ) (rest : ℕ → List (RefBundle ρ)) :
    List (ℕ × RefBundle ρ) :=
  strictMix n (mixKey n weight) RefBundle.rowsOrZero (fun _ => false) seen rest

/-- The mixture until some input is drained. -/
def untilDrained (n : ℕ) (weight : ℕ → ℚ) (seen : ℕ → ℕ) (rest : ℕ → List (RefBundle ρ)) :
    List (ℕ × RefBundle ρ) :=
  strictMix n (mixKey n weight) RefBundle.rowsOrZero (anyDrained n) seen rest

/-- What may still arrive: nothing at an input that is done. -/
def MayFollow (n : ℕ) (ops : List (MixOp ρ)) (future : ℕ → List (RefBundle ρ)) : Prop :=
  ∀ i < n, .inputDone i ∈ ops → future i = []

/-! ### What every operation keeps -/

structure Kept (n : ℕ) (weight : ℕ → ℚ) (ops : List (MixOp ρ)) (s : MixOperator ρ) : Prop where
  condition : s.stoppingCondition = .stopOnShortest
  length : s.inputs.length = n
  weights : s.weightAt = weight
  finished : s.executionMarkedFinished = s.stopped
  complete : s.inputsComplete = true → .allInputsDone ∈ ops
  done : ∀ i < n, (s.inputAt i).inputDone = true ↔ .inputDone i ∈ ops
  stoppedDone : s.stopped = true → ∃ i < n, .inputDone i ∈ ops
  valid : ∀ i < n, (s.inputAt i).buffer.Valid
  outValid : s.outputBuffer.Valid
  known : ∀ i < n, ∀ b ∈ s.waitingAt i, b.numRows.isSome = true

/-- What was put out so far, compared with the mixtures of everything that ever arrives. -/
structure Between (n : ℕ) (weight : ℕ → ℚ) (ops : List (MixOp ρ)) (s : MixOperator ρ)
    (labelled : List (ℕ × RefBundle ρ)) : Prop where
  taken : s.stopped = false → ∀ i < n, takenFrom i labelled ++ s.waitingAt i = arrivals i ops
  stuck : s.stopped = false → ∀ future, MayFollow n ops future →
    labelled ++ untilStuck n weight s.seenAt (fun i => s.waitingAt i ++ future i) =
      untilStuck n weight (fun _ => 0) (fun i => arrivals i ops ++ future i)
  drained : s.stopped = false → ∀ future, MayFollow n ops future →
    untilDrained n weight (fun _ => 0) (fun i => arrivals i ops ++ future i) <+:
      labelled ++ untilDrained n weight s.seenAt (fun i => s.waitingAt i ++ future i)
  lower : s.stopped = true → ∀ future, MayFollow n ops future →
    untilDrained n weight (fun _ => 0) (fun i => arrivals i ops ++ future i) <+: labelled
  upper : s.stopped = true → ∀ future, MayFollow n ops future →
    labelled <+: untilStuck n weight (fun _ => 0) (fun i => arrivals i ops ++ future i)

structure ShortInv (n : ℕ) (weight : ℕ → ℚ) (ops : List (MixOp ρ)) (s : MixOperator ρ)
    (out : List (RefBundle ρ)) : Prop where
  kept : Kept n weight ops s
  mixed : ∃ labelled, labelled.map Prod.snd = out ++ s.outputBuffer.inner ∧
    Between n weight ops s labelled

/-- Stopped, or no input is known to be exhausted and the selected one has nothing. -/
def Settled (s : MixOperator ρ) : Prop :=
  s.stopped = true ∨ (∀ t ∈ s.inputs, t.isExhausted = false) ∧ s.Waiting

variable {n : ℕ} {weight : ℕ → ℚ} {ops : List (MixOp ρ)} {s s' : MixOperator ρ}
    {out : List (RefBundle ρ)}
variable {i : ℕ}

theorem inputAt_mem (hi : i < s.inputs.length) : s.inputAt i ∈ s.inputs :=
  List.mem_of_getElem? (getElem?_inputs hi)

theorem exists_inputAt {t : MixInput ρ} (ht : t ∈ s.inputs) :
    ∃ i < s.inputs.length, s.inputAt i = t := by
  obtain ⟨i, hi, rfl⟩ := List.mem_iff_getElem.mp ht
  refine ⟨i, hi, ?_⟩
  rw [inputAt, List.getD_eq_getElem _ _ hi]

theorem Kept.selectMostBehindInput_eq (h : Kept n weight ops s)
    (hex : ∀ t ∈ s.inputs, t.isExhausted = false) :
    s.selectMostBehindInput = firstBest (mixKey n weight s.seenAt) (fun _ => true) n := by
  rw [MixOperator.selectMostBehindInput_eq, h.length, h.weights]
  apply firstBest_congr
  intro i hi
  rw [hex _ (inputAt_mem (by rw [h.length]; exact hi)), Bool.not_false]

variable {b : RefBundle ρ}

theorem ShortInv.moveFrom (h : ShortInv n weight ops s out) (hstopped : s.stopped = false)
    (hex : ∀ t ∈ s.inputs, t.isExhausted = false) (hselect : s.selectMostBehindInput = some i)
    {l : List (RefBundle ρ)} (hbl : s.waitingAt i = b :: l) :
    ∃ s', s.moveFrom i (s.inputAt i) = .ok s' ∧ ShortInv n weight ops s' out ∧ s'.stopped = false ∧
      s.numBuffered = s'.numBuffered + 1 ∧ s.outputBuffer.inner <+: s'.outputBuffer.inner := by
  obtain ⟨hk, labelled, hout, hb⟩ := h
  have hbest : IsFirstBest (mixKey n weight s.seenAt) (fun _ => true) n i :=
    firstBest_eq_some.mp ((hk.selectMostBehindInput_eq hex).symm.trans hselect)
  have hi := hbest.lt
  have hilen : i < s.inputs.length := by rw [hk.length]; exact hi
  obtain ⟨t, s', hmove, hs', hdone, hweight, hvalid, hknown, hwaiting, hseen, hless⟩ :=
    exists_moveFrom hilen (hk.valid i hi) (hk.known i hi) hbl
  have hrest : ∀ future : ℕ → List (RefBundle ρ), (fun j => s'.waitingAt j ++ future j) =
      Function.update (fun j => s.waitingAt j ++ future j) i (l ++ future i) := by
    intro future
    funext j
    rw [hwaiting]
    by_cases hij : j = i
    · subst hij
      rw [Function.update_self, Function.update_self]
    · rw [Function.update_of_ne hij, Function.update_of_ne hij]
  have hcons : ∀ future : ℕ → List (RefBundle ρ), s.waitingAt i ++ future i = b :: (l ++ future i) := by
    intro future
    rw [hbl, List.cons_append]
  subst hs'
  have hkept : Kept n weight ops
      { s with inputs := s.inputs.set i t, outputBuffer := s.outputBuffer.add b } := by
    refine ⟨hk.condition, ?_, (weightAt_of_set hilen rfl hweight).trans hk.weights, hk.finished,
      hk.complete,
      forall_of_set (P := fun j t => t.inputDone = true ↔ .inputDone j ∈ ops) hilen rfl hk.done
        (hdone ▸ hk.done i hi),
      hk.stoppedDone, forall_of_set (P := fun _ t => t.buffer.Valid) hilen rfl hk.valid hvalid,
      hk.outValid.add b,
      forall_of_set (P := fun _ t => ∀ b ∈ t.buffer.inner, b.numRows.isSome = true) hilen rfl
      hk.known hknown⟩
    rw [List.length_set, hk.length]
  have hrun : Between n weight ops
      { s with inputs := s.inputs.set i t, outputBuffer := s.outputBuffer.add b }
      (labelled ++ [(i, b)]) := by
    refine ⟨fun _ j hj => ?_, fun _ future hfuture => ?_, fun _ future hfuture => ?_, ?_, ?_⟩
    · rw [← hb.taken hstopped j hj, hwaiting, takenFrom, List.filter_append, List.map_append]
      by_cases hij : j = i
      · subst hij
        rw [Function.update_self, hbl]
        simp [takenFrom]
      · rw [Function.update_of_ne hij]
        simp [takenFrom, Ne.symm hij]
    · rw [← hb.stuck hstopped future hfuture, untilStuck, untilStuck,
        strictMix_cons rfl hbest (hcons future), List.append_assoc, List.singleton_append, hseen,
        hrest]
    · refine (hb.drained hstopped future hfuture).trans ?_
      rw [List.append_assoc, List.singleton_append]
      apply (List.prefix_append_right_inj _).mpr
      cases hany : anyDrained n (fun j => s.waitingAt j ++ future j) with
      | true =>
        rw [untilDrained, strictMix_stop hany]
        exact List.nil_prefix
      | false =>
        rw [untilDrained, untilDrained, strictMix_cons hany hbest (hcons future), hseen, hrest]
    · intro hcontra
      exact absurd (hstopped.symm.trans hcontra) (by simp)
    · intro hcontra
      exact absurd (hstopped.symm.trans hcontra) (by simp)
  refine ⟨_, hmove, ⟨hkept, labelled ++ [(i, b)], ?_, hrun⟩, hstopped, hless, List.prefix_append _ _⟩
  rw [List.map_append, hout, List.append_assoc]
  rfl

theorem ShortInv.stop (h : ShortInv n weight ops s out) (hstopped : s.stopped = false)
    (hex : ∃ t ∈ s.inputs, t.isExhausted = true) :
    ShortInv n weight ops { s with stopped := true }.markExecutionFinished out := by
  obtain ⟨hk, labelled, hout, hb⟩ := h
  obtain ⟨t, ht, hex⟩ := hex
  obtain ⟨i, hi, rfl⟩ := exists_inputAt ht
  rw [hk.length] at hi
  rw [MixInput.isExhausted, Bool.and_eq_true, Bool.not_eq_true'] at hex
  have hdone := (hk.done i hi).mp hex.1
  have hempty : s.waitingAt i = [] := by
    by_contra hne
    rw [(hk.valid i hi).hasNext.mpr hne] at hex
    exact absurd hex.2 (by simp)
  set s' : MixOperator ρ := { s with stopped := true }.markExecutionFinished with hs'
  have hgoes : s'.stopped ≠ false := Bool.false_ne_true.symm
  have hat : ∀ j < n, s'.inputAt j = { s.inputAt j with buffer := .init } := by
    intro j hj
    have hjlen : j < s.inputs.length := by rw [hk.length]; exact hj
    have : s'.inputs[j]? = some { s.inputAt j with buffer := .init } := by
      show (s.inputs.map _)[j]? = _
      rw [List.getElem?_map, getElem?_inputs hjlen]
      rfl
    rw [inputAt, List.getD_eq_getElem?_getD, this]
    rfl
  have hweight : s'.weightAt = s.weightAt := by
    funext j
    unfold weightAt inputAt
    rw [List.getD_eq_getElem?_getD, List.getD_eq_getElem?_getD]
    show MixInput.weight ((s.inputs.map _)[j]?.getD _) = _
    rw [List.getElem?_map]
    cases s.inputs[j]? with
    | none => rfl
    | some t => rfl
  refine ⟨⟨hk.condition, ?_, hweight.trans hk.weights, rfl, hk.complete, fun j hj => ?_,
    fun _ => ⟨i, hi, hdone⟩,
    fun j hj => ?_, hk.outValid, fun j hj b hb => ?_⟩, labelled, hout, fun hs => absurd hs hgoes,
    fun hs => absurd hs hgoes, fun hs => absurd hs hgoes, fun _ future hfuture => ?_,
    fun _ future hfuture => ?_⟩
  · show (s.inputs.map _).length = n
    rw [List.length_map, hk.length]
  · rw [hat j hj]
    exact hk.done j hj
  · rw [hat j hj]
    exact FIFOBundleQueue.valid_init
  · rw [waitingAt, hat j hj] at hb
    cases hb
  · -- the exhausted input is drained: nothing more would come
    have hany : anyDrained n (fun j => s.waitingAt j ++ future j) = true := by
      apply anyDrained_iff.mpr
      refine ⟨i, hi, ?_⟩
      rw [hempty, hfuture i hi hdone]
      rfl
    have hle := hb.drained hstopped future hfuture
    rwa [untilDrained, untilDrained, strictMix_stop hany, List.append_nil] at hle
  · rw [← hb.stuck hstopped future hfuture]
    exact List.prefix_append _ _

theorem ShortInv.tryRound (h : ShortInv n weight ops s out) (hstopped : s.stopped = false) :
    (∃ s', s.tryRound = .ok (false, s') ∧ ShortInv n weight ops s' out ∧ s'.Settled ∧
        s.outputBuffer.inner <+: s'.outputBuffer.inner) ∨
      ∃ s', s.tryRound = .ok (true, s') ∧ ShortInv n weight ops s' out ∧ s'.stopped = false ∧
        s.numBuffered = s'.numBuffered + 1 ∧ s.outputBuffer.inner <+: s'.outputBuffer.inner := by
  have hk := h.kept
  unfold MixOperator.tryRound
  by_cases hex : ∃ t ∈ s.inputs, t.isExhausted = true
  · rw [if_pos ⟨hk.condition, hex⟩]
    exact .inl ⟨_, rfl, h.stop hstopped hex, .inl rfl, List.prefix_refl _⟩
  · rw [if_neg (fun hboth => hex hboth.2)]
    have hno : ∀ t ∈ s.inputs, t.isExhausted = false := by
      intro t ht
      by_contra hne
      exact hex ⟨t, ht, by simpa using hne⟩
    unfold outputRound
    cases hselect : s.selectMostBehindInput with
    | none =>
      refine .inl ⟨s, rfl, h, .inr ⟨hno, fun i hi => ?_⟩, List.prefix_refl _⟩
      rw [hselect] at hi
      cases hi
    | some i =>
      have hi : i < n :=
        (firstBest_eq_some.mp ((hk.selectMostBehindInput_eq hno).symm.trans hselect)).lt
      simp only [getElem?_inputs (show i < s.inputs.length by rw [hk.length]; exact hi)]
      split_ifs with hnext
      · obtain ⟨b, l, hbl⟩ := List.exists_cons_of_ne_nil ((hk.valid i hi).hasNext.mp hnext)
        obtain ⟨s', hmove, hinv, hst, hless, hgrow⟩ := h.moveFrom hstopped hno hselect hbl
        rw [hmove]
        exact .inr ⟨s', rfl, hinv, hst, hless, hgrow⟩
      · refine .inl ⟨s, rfl, h, .inr ⟨hno, fun j hj => ?_⟩, List.prefix_refl _⟩
        rw [hselect] at hj
        cases hj
        by_contra hne
        exact hnext ((hk.valid i hi).hasNext.mpr hne)

theorem ShortInv.tryOutput (h : ShortInv n weight ops s out) :
    ∃ s', s.tryOutput = .ok s' ∧ ShortInv n weight ops s' out ∧ s'.Settled ∧
      s.outputBuffer.inner <+: s'.outputBuffer.inner ∧ (s.stopped = true → s' = s) := by
  have hloop : ∀ (rounds : ℕ) {s : MixOperator ρ}, ShortInv n weight ops s out → s.stopped = false →
      s.numBuffered < rounds → ∃ s', s.outputLoop rounds = .ok s' ∧ ShortInv n weight ops s' out ∧
      s'.Settled ∧
        s.outputBuffer.inner <+: s'.outputBuffer.inner := by
    intro rounds
    induction rounds with
    | zero =>
      intro s _ _ hlt
      omega
    | succ rounds ih =>
      intro s h hstopped hlt
      rw [outputLoop]
      obtain ⟨s₁, hround, h₁, hsettled, hgrow⟩ | ⟨s₁, hround, h₁, hst, hless, hgrow⟩ :=
        h.tryRound hstopped
      · rw [hround]
        exact ⟨s₁, rfl, h₁, hsettled, hgrow⟩
      · rw [hround]
        obtain ⟨s₂, hrun, h₂, hsettled, hgrow'⟩ := ih h₁ hst (by omega)
        exact ⟨s₂, hrun, h₂, hsettled, hgrow.trans hgrow'⟩
  unfold MixOperator.tryOutput
  cases hstopped : s.stopped with
  | true => exact ⟨s, rfl, h, .inl hstopped, List.prefix_refl _, fun _ => rfl⟩
  | false =>
    obtain ⟨s', hrun, h', hsettled, hgrow⟩ := hloop _ h hstopped (Nat.lt_succ_self _)
    exact ⟨s', hrun, h', hsettled, hgrow, by simp⟩

/-! ### The operations -/

/-- What was put out stays, and after the stop nothing is added. -/
structure Grows (s : MixOperator ρ) (out : List (RefBundle ρ)) (s' : MixOperator ρ)
    (out' : List (RefBundle ρ)) :
    Prop where
  grows : out ++ s.outputBuffer.inner <+: out' ++ s'.outputBuffer.inner
  stopped : s.stopped = true → s'.stopped = true ∧
    out' ++ s'.outputBuffer.inner = out ++ s.outputBuffer.inner

theorem Grows.trans {s₁ s₂ s₃ : MixOperator ρ} {out₁ out₂ out₃ : List (RefBundle ρ)}
    (h : Grows s₁ out₁ s₂ out₂)
    (h' : Grows s₂ out₂ s₃ out₃) : Grows s₁ out₁ s₃ out₃ where
  grows := h.grows.trans h'.grows
  stopped := fun hs => by
    obtain ⟨hs₂, heq⟩ := h.stopped hs
    obtain ⟨hs₃, heq'⟩ := h'.stopped hs₂
    exact ⟨hs₃, heq'.trans heq⟩

variable {labelled : List (ℕ × RefBundle ρ)}
variable {ops' : List (MixOp ρ)}

/-- An operation that brings no bundle may only restrict what may follow. -/
theorem Between.of_arrivals_eq
    (h : Between n weight ops s labelled) (hsub : ops ⊆ ops')
    (harr : ∀ i, arrivals i ops' = arrivals i ops)
    (hstopped : s'.stopped = s.stopped) (hwaiting : s'.waitingAt = s.waitingAt)
    (hseen : s'.seenAt = s.seenAt) :
    Between n weight ops' s' labelled := by
  have hfollow : ∀ future, MayFollow n ops' future → MayFollow n ops future :=
    fun future hfuture i hi hdone => hfuture i hi (hsub hdone)
  constructor
  · rw [hstopped, hwaiting]
    simp only [harr]
    exact h.taken
  · rw [hstopped, hwaiting, hseen]
    simp only [harr]
    exact fun hs future hfuture => h.stuck hs future (hfollow future hfuture)
  · rw [hstopped, hwaiting, hseen]
    simp only [harr]
    exact fun hs future hfuture => h.drained hs future (hfollow future hfuture)
  · rw [hstopped]
    simp only [harr]
    exact fun hs future hfuture => h.lower hs future (hfollow future hfuture)
  · rw [hstopped]
    simp only [harr]
    exact fun hs future hfuture => h.upper hs future (hfollow future hfuture)

theorem Between.add (h : Between n weight ops s labelled)
    (hdone : .inputDone i ∉ ops) (hstopped : s'.stopped = s.stopped)
    (hwaiting : s.stopped = false → s'.waitingAt = Function.update s.waitingAt i (s.waitingAt i ++ [b]))
    (hseen : s'.seenAt = s.seenAt) : Between n weight (ops ++ [.add i b]) s' labelled := by
  have hfollow : ∀ future, MayFollow n (ops ++ [.add i b]) future →
      MayFollow n ops (Function.update future i (b :: future i)) := by
    intro future hfuture j hj hjd
    by_cases hij : j = i
    · subst hij
      exact absurd hjd hdone
    · rw [Function.update_of_ne hij]
      exact hfuture j hj (List.mem_append_left _ hjd)
  have hshift : ∀ (future f g : ℕ → List (RefBundle ρ)), g = Function.update f i (f i ++ [b]) →
      (fun j => g j ++ future j) = fun j => f j ++ Function.update future i (b :: future i) j := by
    rintro future f g rfl
    funext j
    by_cases hij : j = i
    · subst hij
      simp
    · rw [Function.update_of_ne hij, Function.update_of_ne hij]
  have harr := arrivals_snoc_add ops i b
  constructor
  · intro hs j hj
    rw [hstopped] at hs
    rw [hwaiting hs, congrFun harr j]
    by_cases hij : j = i
    · subst hij
      rw [Function.update_self, Function.update_self, ← List.append_assoc, h.taken hs j hj]
    · rw [Function.update_of_ne hij, Function.update_of_ne hij, h.taken hs j hj]
  · intro hs future hfuture
    rw [hstopped] at hs
    rw [hshift future _ _ harr, hshift future _ _ (hwaiting hs), hseen]
    exact h.stuck hs _ (hfollow future hfuture)
  · intro hs future hfuture
    rw [hstopped] at hs
    rw [hshift future _ _ harr, hshift future _ _ (hwaiting hs), hseen]
    exact h.drained hs _ (hfollow future hfuture)
  · intro hs future hfuture
    rw [hstopped] at hs
    rw [hshift future _ _ harr]
    exact h.lower hs _ (hfollow future hfuture)
  · intro hs future hfuture
    rw [hstopped] at hs
    rw [hshift future _ _ harr]
    exact h.upper hs _ (hfollow future hfuture)

theorem Kept.of_inputs_eq (h : Kept n weight ops s) (hsub : ops ⊆ ops')
    (hdone : ∀ i < n, .inputDone i ∈ ops' → .inputDone i ∈ ops) : Kept n weight ops' s where
  condition := h.condition
  length := h.length
  weights := h.weights
  finished := h.finished
  complete := fun hc => hsub (h.complete hc)
  done := fun i hi => (h.done i hi).trans ⟨fun hd => hsub hd, hdone i hi⟩
  stoppedDone := fun hs => by
    obtain ⟨i, hi, hd⟩ := h.stoppedDone hs
    exact ⟨i, hi, hsub hd⟩
  valid := h.valid
  outValid := h.outValid
  known := h.known

/-- What `_try_output` leaves to be shown of an operation. -/
theorem ShortInv.of_tryOutput {s₁ : MixOperator ρ} (h : ShortInv n weight ops s₁ out)
    (hout : s₁.outputBuffer = s.outputBuffer) (hstopped : s₁.stopped = s.stopped) :
    ∃ s', s₁.tryOutput = .ok s' ∧ ShortInv n weight ops s' out ∧ s'.Settled ∧ Grows s out s' out := by
  obtain ⟨s', htry, h', hsettled, hgrow, hkeep⟩ := h.tryOutput
  rw [hout] at hgrow
  refine ⟨s', htry, h', hsettled, (List.prefix_append_right_inj _).mpr hgrow, fun hs => ?_⟩
  rw [hkeep (hstopped.trans hs), hout]
  exact ⟨hstopped.trans hs, rfl⟩

theorem ShortInv.step_add (h : ShortInv n weight ops s out) (hsettled : s.Settled) (hi : i < n)
    (hb : b.numRows.isSome = true) (hdone : .inputDone i ∉ ops) (hall : .allInputsDone ∉ ops) :
    ∃ s', s.guardedStep (.add i b) = .ok (s', []) ∧ ShortInv n weight (ops ++ [.add i b]) s' out ∧
    s'.Settled ∧
      Grows s out s' out := by
  obtain ⟨hk, labelled, hout, hbetween⟩ := h
  have hmem : ∀ j, .inputDone j ∈ ops ++ [.add i b] → .inputDone j ∈ ops := by simp
  have hkept : Kept n weight (ops ++ [.add i b]) s :=
    hk.of_inputs_eq (List.subset_append_left _ _) (fun j _ => hmem j)
  -- after the stop nothing happens
  have hstay : s.stopped = true → ShortInv n weight (ops ++ [.add i b]) s out ∧ s.Settled ∧
    Grows s out s out := by
    intro hs
    refine ⟨⟨hkept, labelled, hout, hbetween.add hdone rfl (fun hf => ?_) rfl⟩, hsettled,
      List.prefix_refl _,
      fun _ => ⟨hs, rfl⟩⟩
    rw [hs] at hf
    cases hf
  have hilen : i < s.inputs.length := by rw [hk.length]; exact hi
  unfold guardedStep
  split_ifs with hcompleted
  · refine ⟨s, rfl, hstay ?_⟩
    have hcomplete : s.inputsComplete = false := by
      by_contra hc
      exact hall (hk.complete (by simpa using hc))
    rw [hasCompleted, hasExecutionFinished, hcomplete, hk.finished] at hcompleted
    simp only [Bool.false_and, Bool.or_false, Bool.and_eq_true] at hcompleted
    exact hcompleted.1.1
  · rw [Bool.not_eq_true] at hcompleted
    show ∃ s', s.step (.add i b) = .ok (s', []) ∧ _
    rw [MixOperator.step, MixOperator.addInput, hcompleted, Bool.not_false, pyAssert_true, ok_bind]
    simp only [getElem?_inputs hilen]
    split_ifs with hs
    · exact ⟨s, rfl, hstay hs⟩
    · set t : MixInput ρ := { s.inputAt i with buffer := (s.inputAt i).buffer.add b } with ht
      set s₁ : MixOperator ρ := { s with inputs := s.inputs.set i t } with hs₁
      have hset : s₁.inputs = s.inputs.set i t := rfl
      have hinv : ShortInv n weight (ops ++ [.add i b]) s₁ out := by
        refine ⟨⟨hk.condition, ?_, (weightAt_of_set hilen hset rfl).trans hk.weights, hk.finished,
          hkept.complete, forall_of_set
            (P := fun j t => t.inputDone = true ↔ .inputDone j ∈ ops ++ [.add i b])
            hilen hset hkept.done (hkept.done i hi), hkept.stoppedDone,
          forall_of_set (P := fun _ t => t.buffer.Valid) hilen hset hk.valid
            ((hk.valid i hi).add b), hk.outValid,
          ?_⟩, labelled, hout, hbetween.add hdone rfl (fun _ => waitingAt_of_set hilen hset) ?_⟩
        · rw [hset, List.length_set, hk.length]
        · refine forall_of_set
            (P := fun _ t => ∀ b ∈ t.buffer.inner, b.numRows.isSome = true) hilen hset
            hk.known ?_
          intro x hx
          obtain hx | hx := List.mem_append.mp hx
          · exact hk.known i hi x hx
          · rw [List.mem_singleton.mp hx]
            exact hb
        · rw [seenAt_of_set hilen hset]
          exact Function.update_eq_self i s.seenAt
      obtain ⟨s', htry, h'⟩ := hinv.of_tryOutput (s := s) rfl rfl
      exact ⟨s', by rw [htry]; rfl, h'⟩

theorem ShortInv.step_inputDone (h : ShortInv n weight ops s out) (hi : i < n) :
    ∃ s', s.guardedStep (.inputDone i) = .ok (s', []) ∧
    ShortInv n weight (ops ++ [.inputDone i]) s' out ∧
      s'.Settled ∧ Grows s out s' out := by
  obtain ⟨hk, labelled, hout, hbetween⟩ := h
  have hilen : i < s.inputs.length := by rw [hk.length]; exact hi
  set t : MixInput ρ := { s.inputAt i with inputDone := true } with ht
  set s₁ : MixOperator ρ := { s with inputs := s.inputs.set i t } with hs₁
  have hset : s₁.inputs = s.inputs.set i t := rfl
  have hinv : ShortInv n weight (ops ++ [.inputDone i]) s₁ out := by
    refine ⟨⟨hk.condition, ?_, (weightAt_of_set hilen hset rfl).trans hk.weights, hk.finished,
      fun hc => List.mem_append_left _ (hk.complete hc), fun j hj => ?_,
      fun _ => ⟨i, hi, List.mem_append_right _ (.head _)⟩,
      forall_of_set (P := fun _ t => t.buffer.Valid) hilen hset hk.valid (hk.valid i hi), hk.outValid,
      forall_of_set (P := fun _ t => ∀ b ∈ t.buffer.inner, b.numRows.isSome = true) hilen hset hk.known
        (hk.known i hi)⟩, labelled, hout,
      hbetween.of_arrivals_eq (List.subset_append_left _ _)
        (arrivals_snoc ops (.inputDone i) nofun) rfl ?_ ?_⟩
    · rw [hset, List.length_set, hk.length]
    · rw [inputAt_of_set hilen hset, List.mem_append, List.mem_singleton]
      by_cases hij : j = i
      · subst hij
        rw [Function.update_self]
        simp [ht]
      · rw [Function.update_of_ne hij, hk.done j hj]
        simp [hij]
    · exact (waitingAt_of_set hilen hset).trans (Function.update_eq_self i s.waitingAt)
    · exact (seenAt_of_set hilen hset).trans (Function.update_eq_self i s.seenAt)
  obtain ⟨s', htry, h'⟩ := hinv.of_tryOutput (s := s) rfl rfl
  refine ⟨s', ?_, h'⟩
  rw [guardedStep, MixOperator.step, MixOperator.inputDone, getElem?_inputs hilen]
  · simp only
    rw [htry, ok_bind]
  · exact nofun

theorem ShortInv.step_allInputsDone (h : ShortInv n weight ops s out) :
    ∃ s', s.guardedStep .allInputsDone = .ok (s', []) ∧
    ShortInv n weight (ops ++ [.allInputsDone]) s' out ∧
      s'.Settled ∧ Grows s out s' out := by
  obtain ⟨hk, labelled, hout, hbetween⟩ := h
  have hkept : Kept n weight (ops ++ [.allInputsDone]) s :=
    hk.of_inputs_eq (List.subset_append_left _ _) (by simp)
  have hinv : ShortInv n weight (ops ++ [.allInputsDone]) { s with inputsComplete := true } out :=
    ⟨⟨hkept.condition, hkept.length, hkept.weights, hkept.finished, by simp, hkept.done,
      hkept.stoppedDone,
      hkept.valid, hkept.outValid, hkept.known⟩, labelled, hout,
      hbetween.of_arrivals_eq (List.subset_append_left _ _) (arrivals_snoc ops .allInputsDone nofun)
        rfl rfl rfl⟩
  obtain ⟨s', htry, h'⟩ := hinv.of_tryOutput (s := s) rfl rfl
  refine ⟨s', ?_, h'⟩
  rw [guardedStep, MixOperator.step, MixOperator.allInputsDone, htry, ok_bind]
  exact nofun

theorem ShortInv.step_getNext (h : ShortInv n weight ops s out) (hsettled : s.Settled) :
    ∃ s' o, s.guardedStep .getNext = .ok (s', o) ∧ ShortInv n weight (ops ++ [.getNext]) s' (out ++ o) ∧
      s'.Settled ∧ Grows s out s' (out ++ o) := by
  obtain ⟨hk, labelled, hout, hbetween⟩ := h
  have hkept : Kept n weight (ops ++ [.getNext]) s :=
    hk.of_inputs_eq (List.subset_append_left _ _) (by simp)
  have hkeep : ∀ {q : FIFOBundleQueue ρ} {o : List (RefBundle ρ)}, q.Valid →
      out ++ o ++ q.inner = out ++ s.outputBuffer.inner →
      ShortInv n weight (ops ++ [.getNext]) { s with outputBuffer := q } (out ++ o) ∧
        Settled { s with outputBuffer := q } ∧ Grows s out { s with outputBuffer := q } (out ++ o) := by
    intro q o hq heq
    refine ⟨⟨⟨hkept.condition, hkept.length, hkept.weights, hkept.finished, hkept.complete, hkept.done,
      hkept.stoppedDone, hkept.valid, hq, hkept.known⟩, labelled, hout.trans heq.symm,
      hbetween.of_arrivals_eq (List.subset_append_left _ _) (arrivals_snoc ops .getNext nofun)
        rfl rfl rfl⟩,
      hsettled, ?_, fun hs => ⟨hs, heq⟩⟩
    rw [heq]
  rw [guardedStep, MixOperator.step]
  · split_ifs with hnext
    · obtain ⟨b, l, hbl⟩ := List.exists_cons_of_ne_nil (hk.outValid.hasNext.mp hnext)
      obtain ⟨q, hget, hq, hvalid⟩ := hk.outValid.getNext hbl
      refine ⟨{ s with outputBuffer := q }, [b], ?_, hkeep hvalid ?_⟩
      · rw [MixOperator.getNext, hget, ok_bind, ok_bind]
      · rw [hq, hbl, List.append_assoc, List.singleton_append]
    · exact ⟨s, [], rfl, hkeep hk.outValid (by rw [List.append_nil])⟩
  · exact nofun

theorem ShortInv.step (h : ShortInv n weight ops s out) (hsettled : s.Settled) {op : MixOp ρ}
    (hadd : ∀ i b, op = .add i b → i < n ∧ .inputDone i ∉ ops ∧ .allInputsDone ∉ ops ∧
      b.numRows.isSome = true)
    (hdone : ∀ i, op = .inputDone i → i < n) :
    ∃ s' o, s.guardedStep op = .ok (s', o) ∧ ShortInv n weight (ops ++ [op]) s' (out ++ o) ∧
    s'.Settled ∧
      Grows s out s' (out ++ o) := by
  cases op with
  | add i b =>
    obtain ⟨hi, hnot, hall, hb⟩ := hadd i b rfl
    obtain ⟨s', hstep, h'⟩ := h.step_add hsettled hi hb hnot hall
    exact ⟨s', [], hstep, by rwa [List.append_nil]⟩
  | inputDone i =>
    obtain ⟨s', hstep, h'⟩ := h.step_inputDone (hdone i rfl)
    exact ⟨s', [], hstep, by rwa [List.append_nil]⟩
  | allInputsDone =>
    obtain ⟨s', hstep, h'⟩ := h.step_allInputsDone
    exact ⟨s', [], hstep, by rwa [List.append_nil]⟩
  | getNext => exact h.step_getNext hsettled

/-! ### Runs -/

theorem ShortInv.run (h : ShortInv n weight ops s out) (hsettled : s.Settled) {l : List (MixOp ρ)}
    (hl : MixLegal n (ops ++ l)) :
    ∃ s' o, runSteps guardedStep s l = .ok (s', o) ∧ ShortInv n weight (ops ++ l) s' (out ++ o) ∧
    s'.Settled ∧
      Grows s out s' (out ++ o) := by
  apply runSteps_ok (P := fun done s' o =>
    ShortInv n weight (ops ++ done) s' (out ++ o) ∧ s'.Settled ∧ Grows s out s' (out ++ o))
  · rw [List.append_nil, List.append_nil]
    exact ⟨h, hsettled, List.prefix_refl _, fun hs => ⟨hs, rfl⟩⟩
  · rintro done op rest s₁ o heq ⟨h₁, hsettled₁, hgrows⟩
    have hsplit : ops ++ l = (ops ++ done) ++ op :: rest := by rw [heq, List.append_assoc]
    obtain ⟨s', o', hstep, h', hsettled', hgrows'⟩ := h₁.step hsettled₁
      (fun i b (hop : op = .add i b) => hl.add _ i b rest (by rw [hsplit, hop]))
      (fun i hop => hl.inputDone i (by rw [hsplit, hop]; simp))
    rw [List.append_assoc] at h'
    rw [List.append_assoc] at h' hgrows'
    exact ⟨s', o', hstep, h', hsettled', hgrows.trans hgrows'⟩

/-- The weight of an input. -/
def normalized (weights : List ℚ) (i : ℕ) : ℚ := weights.getD i 0 / weights.sum

theorem exists_init_shortest {weights : List ℚ} (hne : weights ≠ []) (hpos : ∀ w ∈ weights, 0 < w) :
    ∃ s : MixOperator ρ, init weights.length weights .stopOnShortest = .ok s ∧
      ShortInv weights.length (normalized weights) [] s [] ∧ s.Settled := by
  set s : MixOperator ρ := ⟨weights.map (fun w => ⟨w / weights.sum, .init, 0, false⟩), .stopOnShortest,
    .init, false, false, false⟩ with hs
  have hat : ∀ i, s.inputAt i = ⟨normalized weights i, .init, 0, false⟩ := by
    intro i
    unfold inputAt normalized
    rw [List.getD_eq_getElem?_getD, List.getElem?_map, List.getD_eq_getElem?_getD]
    cases weights[i]? with
    | none =>
      show (⟨0, .init, 0, false⟩ : MixInput ρ) = ⟨0 / weights.sum, .init, 0, false⟩
      rw [zero_div]
    | some w => rfl
  have hwaiting : s.waitingAt = fun _ => [] := by
    funext i
    rw [waitingAt, hat]
    rfl
  have hseen : s.seenAt = fun _ => 0 := by
    funext i
    rw [seenAt, hat]
  have hbetween : Between weights.length (normalized weights) [] s [] := by
    refine ⟨fun _ i _ => ?_, fun _ future _ => ?_, fun _ future _ => ?_, nofun, nofun⟩
    · rw [hwaiting]
      rfl
    · rw [hwaiting, hseen]
      rfl
    · rw [hwaiting, hseen]
      exact List.prefix_refl _
  refine ⟨s, ?_, ⟨⟨rfl, List.length_map _, ?_, rfl, nofun, fun i _ => ?_, nofun, fun i _ => ?_,
    FIFOBundleQueue.valid_init, fun i _ => ?_⟩, [], rfl, hbetween⟩,
      .inr ⟨fun t ht => ?_, fun i _ => ?_⟩⟩
  · have hlen : 1 ≤ weights.length := List.length_pos_iff.mpr hne
    rw [init, decide_eq_true hlen, pyAssert_true, ok_bind, decide_eq_true rfl, pyAssert_true,
      ok_bind, if_neg]
    rintro ⟨w, hw, hle⟩
    exact absurd (hpos w hw) (not_lt.mpr hle)
  · funext i
    rw [weightAt, hat]
  · rw [hat]
    simp
  · rw [hat]
    exact FIFOBundleQueue.valid_init
  · rw [hwaiting]
    simp
  · obtain ⟨w, -, rfl⟩ := List.mem_map.mp ht
    rfl
  · rw [hwaiting]

theorem ShortInv.stopped_of_done (h : ShortInv n weight ops s out) (hsettled : s.Settled) (hn : 0 < n)
    (hall : ∀ i < n, .inputDone i ∈ ops) : s.stopped = true := by
  obtain hstopped | ⟨hex, hwait⟩ := hsettled
  · exact hstopped
  · exfalso
    have hk := h.kept
    obtain ⟨i, hi⟩ := exists_best_of_pos (mixKey n weight) s.seenAt hn
    have hselect : s.selectMostBehindInput = some i :=
      (hk.selectMostBehindInput_eq hex).trans (firstBest_eq_some.mpr hi)
    have hnext := hex _ (inputAt_mem (by rw [hk.length]; exact hi.lt))
    rw [MixInput.isExhausted, (hk.done i hi.lt).mpr (hall i hi.lt), Bool.true_and,
      Bool.not_eq_false'] at hnext
    exact (hk.valid i hi.lt).hasNext.mp hnext (hwait i hselect)

theorem ShortInv.labelled_eq (hk : Kept n weight ops s) (hsettled : s.Settled) (hn : 0 < n)
    (hstopped : s.stopped = false) (hb : Between n weight ops s labelled) :
    labelled = untilStuck n weight (fun _ => 0) (fun i => arrivals i ops) := by
  obtain hs | ⟨hex, hwait⟩ := hsettled
  · rw [hs] at hstopped
    cases hstopped
  · obtain ⟨i, hi⟩ := exists_best_of_pos (mixKey n weight) s.seenAt hn
    have hselect : s.selectMostBehindInput = some i :=
      (hk.selectMostBehindInput_eq hex).trans (firstBest_eq_some.mpr hi)
    have hall := hb.stuck hstopped (fun _ => []) (fun _ _ _ => rfl)
    simp only [List.append_nil] at hall
    rw [← hall, untilStuck, strictMix_stuck hi (hwait i hselect), List.append_nil]

end MixOperator

/-- A complete run: all bundles of every input arrive, and every input is done. -/
structure CompleteRun (n : ℕ) (seqs : List (List (RefBundle ρ))) (ops : List (MixOp ρ)) : Prop where
  legal : MixLegal n ops
  arrive : ∀ i < n, arrivals i ops = seqs.getD i []
  done : ∀ i < n, .inputDone i ∈ ops

variable {n : ℕ} {ops : List (MixOp ρ)}

theorem mixLegal_nil : MixLegal n ([] : List (MixOp ρ)) := ⟨by simp, by simp⟩

theorem MixLegal.snoc (h : MixLegal n ops) {op : MixOp ρ}
    (hadd : ∀ i b, op = .add i b → i < n ∧ .inputDone i ∉ ops ∧ .allInputsDone ∉ ops ∧
      b.numRows.isSome = true)
    (hdone : ∀ i, op = .inputDone i → i < n) : MixLegal n (ops ++ [op]) := by
  constructor
  · intro done i b rest heq
    induction rest using List.reverseRecOn with
    | nil =>
      obtain ⟨rfl, hop⟩ := List.append_inj' heq rfl
      exact hadd i b (List.cons.inj hop).1
    | append_singleton rest op' _ =>
      rw [← List.cons_append, ← List.append_assoc] at heq
      exact h.add done i b rest (List.append_inj' heq rfl).1
  · intro i hi
    obtain hi | hi := List.mem_append.mp hi
    · exact h.inputDone i hi
    · exact hdone i (List.mem_singleton.mp hi).symm

theorem MixLegal.snoc_add (h : MixLegal n ops) {i : ℕ} {b : RefBundle ρ} (hi : i < n)
    (hdone : .inputDone i ∉ ops)
    (hall : .allInputsDone ∉ ops) (hb : b.numRows.isSome = true) : MixLegal n (ops ++ [.add i b]) := by
  apply h.snoc
  · intro j c hop
    cases hop
    exact ⟨hi, hdone, hall, hb⟩
  · exact nofun

theorem MixLegal.snoc_done (h : MixLegal n ops) {i : ℕ} (hi : i < n) :
    MixLegal n (ops ++ [.inputDone i]) := by
  apply h.snoc
  · exact nofun
  · intro j hop
    cases hop
    exact hi

/-- The arrivals of labelled bundles. -/
def feed (l : List (ℕ × RefBundle ρ)) : List (MixOp ρ) := l.map (fun t => .add t.1 t.2)

theorem not_mem_feed (l : List (ℕ × RefBundle ρ)) :
    (∀ i, .inputDone i ∉ feed l) ∧ .allInputsDone ∉ feed l := by
  constructor
  · intro i hi
    obtain ⟨t, -, h⟩ := List.mem_map.mp hi
    cases h
  · intro h
    obtain ⟨t, -, h⟩ := List.mem_map.mp h
    cases h

theorem arrivals_append (i : ℕ) (ops ops' : List (MixOp ρ)) :
    arrivals i (ops ++ ops') = arrivals i ops ++ arrivals i ops' := List.filterMap_append

theorem arrivals_feed (i : ℕ) (l : List (ℕ × RefBundle ρ)) : arrivals i (feed l) = takenFrom i l := by
  induction l with
  | nil => rfl
  | cons t l ih =>
    rw [← List.singleton_append, takenFrom_append, ← ih, feed, List.map_append, arrivals_append]
    congr 1
    unfold arrivals takenFrom
    by_cases hi : t.1 = i
    · simp [hi]
    · simp [hi]

theorem arrivals_map_inputDone (i : ℕ) (is : List ℕ) :
    arrivals i (is.map (MixOp.inputDone (ρ := ρ))) = [] := by
  apply List.filterMap_eq_nil_iff.mpr
  intro op hop
  obtain ⟨j, -, rfl⟩ := List.mem_map.mp hop
  rfl

theorem MixLegal.append_feed (h : MixLegal n ops) (hall : .allInputsDone ∉ ops)
    {l : List (ℕ × RefBundle ρ)}
    (hl : ∀ t ∈ l, t.1 < n ∧ .inputDone t.1 ∉ ops ∧ t.2.numRows.isSome = true) :
    MixLegal n (ops ++ feed l) := by
  induction l using List.reverseRecOn with
  | nil => rwa [feed, List.map_nil, List.append_nil]
  | append_singleton l t ih =>
    rw [feed, List.map_append, ← List.append_assoc]
    obtain ⟨hi, hnot, hb⟩ := hl t (by simp)
    refine (ih (fun t' ht' => hl t' (List.mem_append_left _ ht'))).snoc_add hi (fun hmem => ?_)
      (fun hmem => ?_) hb
    · exact (List.mem_append.mp hmem).elim hnot ((not_mem_feed l).1 _)
    · exact (List.mem_append.mp hmem).elim hall (not_mem_feed l).2

theorem MixLegal.append_done (h : MixLegal n ops) {is : List ℕ} (his : ∀ i ∈ is, i < n) :
    MixLegal n (ops ++ is.map .inputDone) := by
  induction is using List.reverseRecOn with
  | nil => rwa [List.map_nil, List.append_nil]
  | append_singleton is i ih =>
    rw [List.map_append, ← List.append_assoc]
    exact (ih (fun j hj => his j (List.mem_append_left _ hj))).snoc_done (his i (by simp))


namespace MixOperator

section complete
variable {weight : ℕ → ℚ} {seqs : List (List (RefBundle ρ))} {s₀ : MixOperator ρ}

theorem arrivals_of_complete (hlen : seqs.length = n) (h : CompleteRun n seqs ops) :
    (fun i => arrivals i ops) = fun i => seqs.getD i [] := by
  funext i
  by_cases hi : i < n
  · exact h.arrive i hi
  · rw [h.legal.arrivals_eq_nil (by omega), List.getD_eq_getElem?_getD,
      List.getElem?_eq_none (by rw [hlen]; omega)]
    rfl

theorem ShortInv.complete (h₀ : ShortInv n weight [] s₀ []) (hsettled : s₀.Settled) (hn : 0 < n)
    (hlen : seqs.length = n) (h : CompleteRun n seqs ops) :
    ∃ s out labelled, runSteps guardedStep s₀ ops = .ok (s, out) ∧
      labelled.map Prod.snd = out ++ s.outputBuffer.inner ∧
      untilDrained n weight (fun _ => 0) (fun i => seqs.getD i []) <+: labelled ∧
      labelled <+: untilStuck n weight (fun _ => 0) (fun i => seqs.getD i []) := by
  obtain ⟨s, out, hrun, hinv, hset, -⟩ := h₀.run hsettled (l := ops) h.legal
  have hstopped := hinv.stopped_of_done hset hn h.done
  obtain ⟨-, labelled, hout, hb⟩ := hinv
  have hlower := hb.lower hstopped (fun _ => []) (fun _ _ _ => rfl)
  have hupper := hb.upper hstopped (fun _ => []) (fun _ _ _ => rfl)
  simp only [List.append_nil, List.nil_append] at hlower hupper hout
  rw [arrivals_of_complete hlen h] at hlower hupper
  exact ⟨s, out, labelled, hrun, hout, hlower, hupper⟩

variable (hknown : ∀ l ∈ seqs, ∀ b ∈ l, b.numRows.isSome = true)
include hknown

theorem known_getD {i : ℕ} {b : RefBundle ρ} (hb : b ∈ seqs.getD i []) : b.numRows.isSome = true := by
  rw [List.getD_eq_getElem?_getD] at hb
  cases hget : seqs[i]? with
  | none =>
    rw [hget] at hb
    cases hb
  | some l =>
    rw [hget] at hb
    exact hknown l (List.mem_of_getElem? hget) b hb

/-- If all bundles arrive before any input is done, the output goes as far as it can. -/
theorem ShortInv.late_run (h₀ : ShortInv n weight [] s₀ []) (hsettled : s₀.Settled) (hn : 0 < n)
    (hlen : seqs.length = n) :
    ∃ ops s out, CompleteRun n seqs ops ∧ runSteps guardedStep s₀ ops = .ok (s, out) ∧
      out ++ s.outputBuffer.inner =
        (untilStuck n weight (fun _ => 0) (fun i => seqs.getD i [])).map Prod.snd := by
  set adds : List (MixOp ρ) := feed (labelAll n (fun i => seqs.getD i [])) with hadds
  set ops : List (MixOp ρ) := adds ++ (List.range n).map .inputDone with hops
  have hlegal₁ : MixLegal n adds := by
    have h := (mixLegal_nil (ρ := ρ) (n := n)).append_feed
      (l := labelAll n (fun i => seqs.getD i [])) (by simp)
      (fun t ht => ⟨(mem_labelAll ht).1, by simp, known_getD hknown (mem_labelAll ht).2⟩)
    rwa [List.nil_append] at h
  have hcomplete : CompleteRun n seqs ops := by
    refine ⟨hlegal₁.append_done (fun i hi => List.mem_range.mp hi), fun i hi => ?_, fun i hi => ?_⟩
    · rw [hops, arrivals_append, arrivals_map_inputDone, List.append_nil, hadds, arrivals_feed,
        takenFrom_labelAll hi]
    · exact List.mem_append_right _ (List.mem_map_of_mem (List.mem_range.mpr hi))
  have harr : (fun i => arrivals i adds) = fun i => seqs.getD i [] := by
    rw [← arrivals_of_complete hlen hcomplete]
    funext i
    rw [hops, arrivals_append, arrivals_map_inputDone, List.append_nil]
  obtain ⟨s₁, out₁, hrun₁, hinv₁, hset₁, -⟩ := h₀.run hsettled (l := adds) hlegal₁
  obtain ⟨s, o, hrun₂, hinv, hset, hgrows⟩ :=
    hinv₁.run hset₁ (l := (List.range n).map .inputDone) hcomplete.legal
  simp only [List.nil_append] at hinv₁ hinv hgrows
  have hnot : s₁.stopped = false := by
    by_contra hs
    obtain ⟨i, -, hdone⟩ := hinv₁.kept.stoppedDone (by simpa using hs)
    exact (not_mem_feed _).1 i hdone
  obtain ⟨hk₁, labelled₁, hout₁, hb₁⟩ := hinv₁
  have heq₁ := ShortInv.labelled_eq hk₁ hset₁ hn hnot hb₁
  rw [harr] at heq₁
  have hstopped := hinv.stopped_of_done hset hn hcomplete.done
  obtain ⟨-, labelled, hout, hb⟩ := hinv
  have hupper := hb.upper hstopped (fun _ => []) (fun _ _ _ => rfl)
  simp only [List.append_nil] at hupper
  rw [← hops, arrivals_of_complete hlen hcomplete, ← heq₁] at hupper
  have hlower := hgrows.grows
  rw [← hout, ← hout₁] at hlower
  have hlast : labelled = labelled₁ := by
    apply hupper.eq_of_length_le
    have := hlower.length_le
    rwa [List.length_map, List.length_map] at this
  refine ⟨ops, s, out₁ ++ o, hcomplete, runSteps_append_eq_ok.mpr ⟨s₁, out₁, o, hrun₁, hrun₂, rfl⟩, ?_⟩
  rw [← hout, hlast, heq₁]

/-- If an input that is drained first is done as soon as its last bundle moved, the output ends
there. -/
theorem ShortInv.early_run (h₀ : ShortInv n weight [] s₀ []) (hsettled : s₀.Settled) (hn : 0 < n) :
    ∃ ops s out, CompleteRun n seqs ops ∧ runSteps guardedStep s₀ ops = .ok (s, out) ∧
      out ++ s.outputBuffer.inner =
        (untilDrained n weight (fun _ => 0) (fun i => seqs.getD i [])).map Prod.snd := by
  set first : List (ℕ × RefBundle ρ) :=
    untilDrained n weight (fun _ => 0) (fun i => seqs.getD i []) with hfirst
  obtain ⟨left, hleft⟩ : ∃ left : ℕ → List (RefBundle ρ),
      (fun i => seqs.getD i []) = fun j => takenFrom j first ++ left j := takenFrom_strictMix hn
  have hself : untilStuck n weight (fun _ => 0) (fun j => takenFrom j first) = first :=
    strictMix_takenFrom hn
  obtain ⟨i, hi, hdrained⟩ : ∃ i < n, takenFrom i first = seqs.getD i [] := exists_takenFrom_eq hn
  replace hleft : ∀ j, seqs.getD j [] = takenFrom j first ++ left j := congrFun hleft
  have hlefti : left i = [] := by
    have h := hleft i
    rw [hdrained] at h
    exact List.append_cancel_left (h.symm.trans (List.append_nil _).symm)
  set ops₁ : List (MixOp ρ) := feed first with hops₁
  set ops₃ : List (MixOp ρ) := feed (labelAll n left) with hops₃
  set dones : List ℕ := (List.range n).filter (fun j => j ≠ i) with hdones
  have hlegal₁ : MixLegal n ops₁ := by
    have h := (mixLegal_nil (ρ := ρ) (n := n)).append_feed (l := first) (by simp) (fun t ht =>
      ⟨lt_of_mem_strictMix hn ht, by simp, known_getD hknown (i := t.1) (by
        rw [hleft]
        exact List.mem_append_left _ (mem_takenFrom ht))⟩)
    rwa [List.nil_append] at h
  have hlegal₂ : MixLegal n (ops₁ ++ [.inputDone i]) := hlegal₁.snoc_done hi
  have hlegal₃ : MixLegal n (ops₁ ++ [.inputDone i] ++ ops₃) := by
    refine hlegal₂.append_feed ?_ (fun t ht => ?_)
    · intro hmem
      obtain hmem | hmem := List.mem_append.mp hmem
      · exact (not_mem_feed _).2 hmem
      · simp at hmem
    · obtain ⟨hlt, hmem⟩ := mem_labelAll ht
      refine ⟨hlt, fun hdone => ?_, known_getD hknown (i := t.1) (by
        rw [hleft]
        exact List.mem_append_right _ hmem)⟩
      obtain hdone | hdone := List.mem_append.mp hdone
      · exact (not_mem_feed _).1 _ hdone
      · rw [List.mem_singleton, MixOp.inputDone.injEq] at hdone
        rw [hdone, hlefti] at hmem
        cases hmem
  have hcomplete : CompleteRun n seqs (ops₁ ++ [.inputDone i] ++ ops₃ ++ dones.map .inputDone) := by
    refine ⟨hlegal₃.append_done ?_, fun j hj => ?_, fun j hj => ?_⟩
    · intro j hj
      exact List.mem_range.mp (List.mem_filter.mp hj).1
    · rw [arrivals_append, arrivals_append, arrivals_append, arrivals_map_inputDone, hops₁, hops₃,
        arrivals_feed, arrivals_feed, takenFrom_labelAll hj, hleft j]
      simp [arrivals]
    · by_cases hij : j = i
      · subst hij
        simp
      · apply List.mem_append_right
        exact List.mem_map_of_mem (List.mem_filter.mpr ⟨List.mem_range.mpr hj, by simpa using hij⟩)
  have harr₁ : (fun j => arrivals j ops₁) = fun j => takenFrom j first :=
    funext (fun j => arrivals_feed j first)
  have harr₂ : (fun j => arrivals j (ops₁ ++ [.inputDone i])) = fun j => takenFrom j first := by
    rw [← harr₁]
    exact funext (arrivals_snoc ops₁ (.inputDone i) (by simp))
  obtain ⟨s₁, out₁, hrun₁, hinv₁, hset₁, -⟩ := h₀.run hsettled (l := ops₁) hlegal₁
  simp only [List.nil_append] at hinv₁
  obtain ⟨s₂, o₂, hrun₂, hinv₂, hset₂, hgrows₂⟩ := hinv₁.run hset₁ (l := [.inputDone i]) hlegal₂
  obtain ⟨s, o, hrun₃, hinv, hset, hgrows⟩ := hinv₂.run hset₂ (l := ops₃ ++ dones.map .inputDone) (by
    rw [← List.append_assoc]
    exact hcomplete.legal)
  have hnot : s₁.stopped = false := by
    by_contra hs
    obtain ⟨j, -, hdone⟩ := hinv₁.kept.stoppedDone (by simpa using hs)
    exact (not_mem_feed _).1 j hdone
  obtain ⟨hk₁, labelled₁, hout₁, hb₁⟩ := hinv₁
  have heq₁ := ShortInv.labelled_eq hk₁ hset₁ hn hnot hb₁
  rw [harr₁, hself] at heq₁
  obtain ⟨hk₂, labelled₂, hout₂, hb₂⟩ := hinv₂
  -- the drained input is known to be exhausted
  have hstopped₂ : s₂.stopped = true := by
    by_contra hs
    rw [Bool.not_eq_true] at hs
    have heq₂ := ShortInv.labelled_eq hk₂ hset₂ hn hs hb₂
    rw [harr₂, hself] at heq₂
    have htaken := hb₂.taken hs i hi
    rw [congrFun harr₂ i, heq₂] at htaken
    have hempty : s₂.waitingAt i = [] := List.append_cancel_left (htaken.trans (List.append_nil _).symm)
    obtain hst | ⟨hex, -⟩ := hset₂
    · rw [hst] at hs
      cases hs
    · have hno := hex _ (inputAt_mem (by rw [hk₂.length]; exact hi))
      rw [MixInput.isExhausted, (hk₂.done i hi).mpr (by simp), Bool.true_and, Bool.not_eq_false'] at hno
      exact (hk₂.valid i hi).hasNext.mp hno hempty
  have hlast : labelled₂ = first := by
    have hupper := hb₂.upper hstopped₂ (fun _ => []) (fun _ _ _ => rfl)
    simp only [List.append_nil] at hupper
    rw [harr₂, hself] at hupper
    have hlower := hgrows₂.grows
    rw [← hout₁, ← hout₂, heq₁] at hlower
    apply hupper.eq_of_length_le
    have := hlower.length_le
    rwa [List.length_map, List.length_map] at this
  refine ⟨_, s, out₁ ++ (o₂ ++ o), hcomplete, ?_, ?_⟩
  · rw [List.append_assoc, List.append_assoc]
    exact runSteps_append_eq_ok.mpr ⟨s₁, out₁, o₂ ++ o, hrun₁,
      runSteps_append_eq_ok.mpr ⟨s₂, o₂, o, hrun₂, hrun₃, rfl⟩, rfl⟩
  · rw [← List.append_assoc, (hgrows.stopped hstopped₂).2, ← hout₂, hlast]

end complete
end MixOperator

/-- `MixOperator` with `STOP_ON_SHORTEST`: for given sequences of bundles, any two complete runs put
out the same if and only if the selection, followed over the whole sequences, pulls nothing after
the first input is drained. -/
theorem mixOperator_shortest_iff {weights : List ℚ} (hne : weights ≠ []) (hpos : ∀ w ∈ weights, 0 < w)
    (seqs : List (List (RefBundle ρ))) (hlen : seqs.length = weights.length)
    (hknown : ∀ l ∈ seqs, ∀ b ∈ l, b.numRows.isSome = true) :
    (∀ ops ops', CompleteRun weights.length seqs ops → CompleteRun weights.length seqs ops' →
      ∃ s₀ s out s' out', MixOperator.init weights.length weights .stopOnShortest = .ok s₀ ∧
        runSteps MixOperator.guardedStep s₀ ops = .ok (s, out) ∧
        runSteps MixOperator.guardedStep s₀ ops' = .ok (s', out') ∧
        out ++ s.outputBuffer.inner = out' ++ s'.outputBuffer.inner) ↔
      MixOperator.untilDrained weights.length (MixOperator.normalized weights) (fun _ => 0)
          (fun i => seqs.getD i []) =
        MixOperator.untilStuck weights.length (MixOperator.normalized weights) (fun _ => 0)
          (fun i => seqs.getD i []) := by
  have hn : 0 < weights.length := List.length_pos_iff.mpr hne
  obtain ⟨s₀, hinit, h₀, hsettled⟩ := MixOperator.exists_init_shortest (ρ := ρ) hne hpos
  constructor
  · intro hsame
    obtain ⟨ops, s, out, hops, hrun, hout⟩ := h₀.late_run hknown hsettled hn hlen
    obtain ⟨ops', s', out', hops', hrun', hout'⟩ := h₀.early_run hknown hsettled hn
    obtain ⟨s₁, t, o, t', o', hinit₁, ht, ht', heq⟩ := hsame ops ops' hops hops'
    cases hinit.symm.trans hinit₁
    cases hrun.symm.trans ht
    cases hrun'.symm.trans ht'
    apply (strictMix_isPrefix hn).eq_of_length
    rw [hout, hout'] at heq
    have := congrArg List.length heq
    rw [List.length_map, List.length_map] at this
    exact this.symm
  · intro heq ops ops' hops hops'
    obtain ⟨s, out, labelled, hrun, hout, hlower, hupper⟩ := h₀.complete hsettled hn hlen hops
    obtain ⟨s', out', labelled', hrun', hout', hlower', hupper'⟩ := h₀.complete hsettled hn hlen hops'
    refine ⟨s₀, s, out, s', out', hinit, hrun, hrun', ?_⟩
    rw [heq] at hlower hlower'
    rw [← hout, ← hout', hupper.eq_of_length_le hlower.length_le,
      hupper'.eq_of_length_le hlower'.length_le]

/-- The heavier input has no bundles, and is selected first. -/
theorem mixOperator_shortest_same :
    MixOperator.untilDrained 2 (MixOperator.normalized [1, 2]) (fun _ => 0)
        (fun i => [[.ofBlocks [⟨.arrow, [1]⟩]], []].getD i []) =
      MixOperator.untilStuck 2 (MixOperator.normalized [1, 2]) (fun _ => 0)
        (fun i => [[(.ofBlocks [⟨.arrow, [1]⟩] : RefBundle (Block ℕ))], []].getD i []) ∧
    ∀ ops ops' : List (MixOp (Block ℕ)), CompleteRun 2 [[.ofBlocks [⟨.arrow, [1]⟩]], []] ops →
      CompleteRun 2 [[.ofBlocks [⟨.arrow, [1]⟩]], []] ops' →
      ∃ s₀ s out s' out', MixOperator.init 2 [1, 2] .stopOnShortest = .ok s₀ ∧
        runSteps MixOperator.guardedStep s₀ ops = .ok (s, out) ∧
        runSteps MixOperator.guardedStep s₀ ops' = .ok (s', out') ∧
        out ++ s.outputBuffer.inner = out' ++ s'.outputBuffer.inner := by
  have hsame : MixOperator.untilDrained 2 (MixOperator.normalized [1, 2]) (fun _ => 0)
        (fun i => [[.ofBlocks [⟨.arrow, [1]⟩]], []].getD i []) =
      MixOperator.untilStuck 2 (MixOperator.normalized [1, 2]) (fun _ => 0)
        (fun i => [[(.ofBlocks [⟨.arrow, [1]⟩] : RefBundle (Block ℕ))], []].getD i []) := by
    apply (strictMix_isPrefix (by decide)).eq_of_length
    decide +kernel
  refine ⟨hsame, (mixOperator_shortest_iff (show ([1, 2] : List ℚ) ≠ [] by simp) (by simp)
    [[.ofBlocks [⟨.arrow, [1]⟩]], []] rfl ?_).mpr hsame⟩
  simp only [List.mem_cons, List.not_mem_nil, or_false, forall_eq_or_imp, forall_eq]
  exact ⟨rfl, nofun⟩

/-- One bundle at each input: if the first input is done before the other bundle arrives, that
bundle is not put out, and else it is. -/
theorem mixOperator_shortest_order_matters :
    ¬ ∀ ops ops' : List (MixOp (Block ℕ)),
      CompleteRun 2 [[.ofBlocks [⟨.arrow, [1]⟩]], [.ofBlocks [⟨.arrow, [2]⟩]]] ops →
      CompleteRun 2 [[.ofBlocks [⟨.arrow, [1]⟩]], [.ofBlocks [⟨.arrow, [2]⟩]]] ops' →
      ∃ s₀ s out s' out', MixOperator.init 2 [1, 1] .stopOnShortest = .ok s₀ ∧
        runSteps MixOperator.guardedStep s₀ ops = .ok (s, out) ∧
        runSteps MixOperator.guardedStep s₀ ops' = .ok (s', out') ∧
        out ++ s.outputBuffer.inner = out' ++ s'.outputBuffer.inner := by
  intro hsame
  have hcases : ∀ i < 2, i = 0 ∨ i = 1 := by omega
  have hearly : CompleteRun 2 [[.ofBlocks [⟨.arrow, [1]⟩]], [.ofBlocks [⟨.arrow, [2]⟩]]]
      [.add 0 (.ofBlocks [⟨.arrow, [1]⟩]), .inputDone 0, .add 1 (.ofBlocks [⟨.arrow, [2]⟩]),
        .inputDone (ρ := Block ℕ) 1] := by
    refine ⟨(((mixLegal_nil.snoc_add (by decide) (by simp) (by simp) rfl).snoc_done
      (by decide)).snoc_add (by decide)
      (by simp) (by simp) rfl).snoc_done (by decide), fun i hi => ?_, fun i hi => ?_⟩
    · obtain rfl | rfl := hcases i hi <;> rfl
    · obtain rfl | rfl := hcases i hi <;> simp
  have hlate : CompleteRun 2 [[.ofBlocks [⟨.arrow, [1]⟩]], [.ofBlocks [⟨.arrow, [2]⟩]]]
      [.add 1 (.ofBlocks [⟨.arrow, [2]⟩]), .add 0 (.ofBlocks [⟨.arrow, [1]⟩]), .inputDone 0,
        .inputDone (ρ := Block ℕ) 1] := by
    refine ⟨(((mixLegal_nil.snoc_add (by decide) (by simp) (by simp) rfl).snoc_add (by decide)
      (by simp) (by simp)
      rfl).snoc_done (by decide)).snoc_done (by decide), fun i hi => ?_, fun i hi => ?_⟩
    · obtain rfl | rfl := hcases i hi <;> rfl
    · obtain rfl | rfl := hcases i hi <;> simp
  obtain ⟨s₀, s, out, s', out', hinit, hrun, hrun', heq⟩ := hsame _ _ hearly hlate
  have hone : (MixOperator.init 2 [1, 1] .stopOnShortest >>= fun s => runSteps MixOperator.guardedStep s
      [.add 0 (.ofBlocks [⟨.arrow, [1]⟩]), .inputDone 0, .add 1 (.ofBlocks [⟨.arrow, [2]⟩]),
        .inputDone (ρ := Block ℕ) 1]).toOption.map
          (fun r => (r.2 ++ r.1.outputBuffer.inner).length) = some 1 := by
    decide +kernel
  have htwo : (MixOperator.init 2 [1, 1] .stopOnShortest >>= fun s => runSteps MixOperator.guardedStep s
      [.add 1 (.ofBlocks [⟨.arrow, [2]⟩]), .add 0 (.ofBlocks [⟨.arrow, [1]⟩]), .inputDone 0,
        .inputDone (ρ := Block ℕ) 1]).toOption.map
          (fun r => (r.2 ++ r.1.outputBuffer.inner).length) = some 2 := by
    decide +kernel
  rw [hinit, ok_bind, hrun] at hone
  rw [hinit, ok_bind, hrun'] at htwo
  have hlen : some 1 = some 2 := by
    rw [← hone, ← htwo]
    exact congrArg (fun l => some (List.length l)) heq
  cases hlen

end RayTfm.Data
