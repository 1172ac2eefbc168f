import RayTfm.Data.Rebundle

/-! # The originals of rebundled inputs

`get_next_with_original` returns with each ready bundle the added bundles that went into it, so that
`MapOperator` can count its inputs out.  A bundle is listed with the ready bundle that it completes
or is flushed with, once, even if it is cut (`Accounted`).  A bundle without rows is merged into the
pending ones but never listed: the originals are the added bundles exactly if all of them have rows
(`rebundleQueue_originals_iff`). -/

namespace RayTfm.Data

variable {ρ α : Type}

/-- What `MapOperator` does with its queue; `getNextWithOriginal` is guarded by `has_next`. -/
inductive OriginalOp (ρ : Type) where
  | add (bundle : RefBundle ρ)
  | getNextWithOriginal
  | finalize

/-- The bundle an operation adds. -/
def OriginalOp.added : OriginalOp ρ → List (RefBundle ρ)
  | .add bundle => [bundle]
  | _ => []

/-- The bundle has rows on record. -/
def RefBundle.hasRows (b : RefBundle ρ) : Bool := b.rowsOrZero ≠ 0

namespace RebundleQueue

/-- One operation; it puts out the originals. -/
def originalStep (q : RebundleQueue ρ) :
    OriginalOp ρ → Except PyError (RebundleQueue ρ × List (List (RefBundle ρ)))
  | .add bundle => do
      let q ← q.add bundle
      .ok (q, [])
  | .getNextWithOriginal =>
    if q.hasNext then do
      let r ← q.getNextWithOriginal
      .ok (r.2, [r.1.2])
    else .ok (q, [])
  | .finalize => do
      let q ← q.finalize
      .ok (q, [])

/-! ### What building does to the originals -/

/-- The lists of originals are the same. -/
structure SameOriginals (q q' : RebundleQueue ρ) : Prop where
  consumed : q'.consumedBundlesList = q.consumedBundlesList
  curr : q'.currConsumedBundles = q.currConsumedBundles

variable {q q' : RebundleQueue ρ}

theorem SameOriginals.trans {q'' : RebundleQueue ρ} (h : SameOriginals q q')
    (h' : SameOriginals q' q'') : SameOriginals q q'' :=
  ⟨h'.consumed.trans h.consumed, h'.curr.trans h.curr⟩

theorem mergeBundles_originals (h : q.mergeBundles = .ok q') :
    SameOriginals q q' ∧ q'.readyBundles.length = q.readyBundles.length + 1 ∧
      q'.pendingBundles = [] := by
  obtain ⟨merged, -, h⟩ := bind_eq_ok.mp h
  cases h
  exact ⟨⟨rfl, rfl⟩, List.length_append, rfl⟩

theorem buildReadyBundle_originals {last : RefBundle ρ} (h : q.buildReadyBundle last = .ok q') :
    SameOriginals q q' ∧ q'.readyBundles.length = q.readyBundles.length + 1 := by
  obtain ⟨rowsNeeded, -, h⟩ := bind_eq_ok.mp h
  obtain ⟨-, -, h⟩ := bind_eq_ok.mp h
  obtain ⟨⟨q₁, remaining⟩, hcut, h⟩ := bind_eq_ok.mp h
  obtain ⟨q₂, hmerge, h⟩ := bind_eq_ok.mp h
  cases h
  have hcut' : SameOriginals q q₁ ∧ q₁.readyBundles = q.readyBundles := by
    unfold cutLast at hcut
    split_ifs at hcut
    · obtain ⟨r, -, hcut⟩ := bind_eq_ok.mp hcut
      cases hcut
      exact ⟨⟨rfl, rfl⟩, rfl⟩
    · obtain ⟨-, -, hcut⟩ := bind_eq_ok.mp hcut
      cases hcut
      exact ⟨⟨rfl, rfl⟩, rfl⟩
  obtain ⟨hsame, hready, -⟩ := mergeBundles_originals hmerge
  have hcarry : SameOriginals q₂ (q₂.carryOver remaining) ∧
      (q₂.carryOver remaining).readyBundles = q₂.readyBundles := by
    cases remaining <;> exact ⟨⟨rfl, rfl⟩, rfl⟩
  refine ⟨(hcut'.1.trans hsame).trans hcarry.1, ?_⟩
  rw [hcarry.2, hready, hcut'.2]

variable {flushRemaining : Bool} {r : ℕ × RebundleQueue ρ}

theorem flush_originals {built : ℕ} (h : q.flush flushRemaining built = .ok r) :
    SameOriginals q r.2 ∧ r.2.readyBundles.length + built = q.readyBundles.length + r.1 ∧
      (flushRemaining = true → r.2.pendingBundles = []) ∧ (r.1 = built → r.2 = q) := by
  unfold flush at h
  split_ifs at h with hflush
  · obtain ⟨q₁, hmerge, h⟩ := bind_eq_ok.mp h
    cases h
    obtain ⟨hsame, hready, hnil⟩ := mergeBundles_originals hmerge
    exact ⟨hsame, by show q₁.readyBundles.length + built = _; omega, fun _ => hnil,
      fun heq => absurd heq (Nat.succ_ne_self built)⟩
  · cases h
    refine ⟨⟨rfl, rfl⟩, rfl, fun htrue => ?_, fun _ => rfl⟩
    rw [htrue, Bool.true_and, Bool.not_eq_true', Bool.not_eq_false, List.isEmpty_iff] at hflush
    exact hflush

/-- As many ready bundles are built as the call says; if none, nothing changes. -/
theorem tryBuildReadyBundle_originals (h : q.tryBuildReadyBundle flushRemaining = .ok r) :
    SameOriginals q r.2 ∧ r.2.readyBundles.length = q.readyBundles.length + r.1 ∧
      (flushRemaining = true → r.2.pendingBundles = []) ∧ (r.1 = 0 → r.2 = q) := by
  have hflush : q.flush flushRemaining 0 = .ok r → SameOriginals q r.2 ∧
      r.2.readyBundles.length = q.readyBundles.length + r.1 ∧
      (flushRemaining = true → r.2.pendingBundles = []) ∧ (r.1 = 0 → r.2 = q) := flush_originals
  unfold tryBuildReadyBundle at h
  cases hlast : q.pendingBundles.getLast? with
  | none =>
    simp only [hlast] at h
    exact hflush h
  | some last =>
    simp only [hlast] at h
    split_ifs at h with hcan
    · obtain ⟨q₁, hbuild, h⟩ := bind_eq_ok.mp h
      obtain ⟨hsame, hready⟩ := buildReadyBundle_originals hbuild
      obtain ⟨hsame', hready', hnil, -⟩ := flush_originals h
      refine ⟨hsame.trans hsame', by omega, hnil, fun hzero => ?_⟩
      unfold flush at h
      split_ifs at h
      · obtain ⟨q₂, -, h⟩ := bind_eq_ok.mp h
        cases h
        cases hzero
      · cases h
        cases hzero
    · exact hflush h

/-! ### What every operation keeps -/

/-- The returned originals, those of the ready bundles and those of the pending ones are the added
bundles with rows, in order. -/
structure Accounted (added : List (RefBundle ρ)) (q : RebundleQueue ρ)
    (out : List (List (RefBundle ρ))) : Prop where
  originals : out.flatten ++ q.consumedBundlesList.flatten ++ q.currConsumedBundles =
    added.filter RefBundle.hasRows
  length : q.consumedBundlesList.length = q.readyBundles.length
  pending : q.pendingBundles = [] → q.currConsumedBundles = []

variable {added : List (RefBundle ρ)} {out o : List (List (RefBundle ρ))}

theorem accounted_init (strategy : RebundlingStrategy) :
    Accounted [] (init strategy : RebundleQueue ρ) [] := ⟨rfl, rfl, fun _ => rfl⟩

theorem Accounted.closeConsumed {added' : List (RefBundle ρ)} (h : Accounted added q out)
    {curr : List (RefBundle ρ)} (hadded : added' = added ++ curr) (hrows : ∀ b ∈ curr, b.hasRows = true)
    (hconsumed : q'.consumedBundlesList = q.consumedBundlesList)
    (hcurr : q'.currConsumedBundles = q.currConsumedBundles ++ curr)
    (hready : q'.readyBundles.length = q.readyBundles.length + 1) :
    Accounted added' q'.closeConsumed out := by
  refine ⟨?_, ?_, fun _ => rfl⟩
  · show out.flatten ++ (q'.consumedBundlesList ++ [q'.currConsumedBundles]).flatten ++ [] = _
    rw [hconsumed, hcurr, hadded, List.filter_append, ← h.originals, List.filter_eq_self.mpr hrows]
    simp
  · show (q'.consumedBundlesList ++ [_]).length = q'.readyBundles.length
    rw [hconsumed, List.length_append, h.length, hready]
    rfl

variable {bundle : RefBundle ρ}

theorem Accounted.add (h : Accounted added q out)
    (hadd : q.add bundle = .ok q') : Accounted (added ++ [bundle]) q' out := by
  unfold RebundleQueue.add at hadd
  split_ifs at hadd with hzero
  · -- without rows the bundle is not listed
    have hrows : bundle.hasRows = false := by simp [RefBundle.hasRows, hzero]
    have hkeep : SameOriginals q q' ∧ q'.readyBundles = q.readyBundles ∧ q'.pendingBundles ≠ [] := by
      unfold addEmpty at hadd
      split at hadd
      · obtain ⟨merged, -, hadd⟩ := bind_eq_ok.mp hadd
        cases hadd
        exact ⟨⟨rfl, rfl⟩, rfl, by simp⟩
      · cases hadd
        exact ⟨⟨rfl, rfl⟩, rfl, by simp⟩
    obtain ⟨⟨hconsumed, hcurr⟩, hready, hne⟩ := hkeep
    refine ⟨?_, by rw [hconsumed, hready, h.length], fun hnil => absurd hnil hne⟩
    rw [hconsumed, hcurr, h.originals, List.filter_append]
    simp [hrows]
  · have hrows : ∀ b ∈ [bundle], b.hasRows = true := by simp [RefBundle.hasRows, hzero]
    obtain ⟨r, htry, hadd⟩ := bind_eq_ok.mp hadd
    obtain ⟨⟨hconsumed, hcurr⟩, hready, -, hsame⟩ := tryBuildReadyBundle_originals htry
    split_ifs at hadd with hbuilt
    · obtain ⟨_, hone, hadd⟩ := bind_eq_ok.mp hadd
      cases hadd
      have hone : r.1 = 1 := of_decide_eq_true (pyAssert_eq_ok.mp hone)
      refine h.closeConsumed rfl hrows hconsumed hcurr ?_
      rw [hready, hone]
    · cases hadd
      rw [hsame (by omega)]
      refine ⟨?_, h.length, fun hnil => absurd hnil (by simp)⟩
      rw [← List.append_assoc, h.originals, List.filter_append, List.filter_eq_self.mpr hrows]

theorem Accounted.finalize (h : Accounted added q out) (hfin : q.finalize = .ok q') :
    Accounted added q' out ∧ q'.pendingBundles = [] := by
  unfold RebundleQueue.finalize at hfin
  split_ifs at hfin with hpending
  · obtain ⟨r, htry, hfin⟩ := bind_eq_ok.mp hfin
    obtain ⟨_, hone, hfin⟩ := bind_eq_ok.mp hfin
    cases hfin
    have hone : r.1 = 1 := of_decide_eq_true (pyAssert_eq_ok.mp hone)
    obtain ⟨⟨hconsumed, hcurr⟩, hready, hnil, -⟩ := tryBuildReadyBundle_originals htry
    refine ⟨h.closeConsumed (List.append_nil added).symm nofun hconsumed ?_ ?_, hnil rfl⟩
    · rw [hcurr, List.append_nil]
    · rw [hready, hone]
  · cases hfin
    exact ⟨h, List.length_eq_zero_iff.mp (by omega)⟩

theorem Accounted.getNextWithOriginal (h : Accounted added q out)
    {r : (RefBundle ρ × List (RefBundle ρ)) × RebundleQueue ρ}
    (hget : q.getNextWithOriginal = .ok r) :
    Accounted added r.2 (out ++ [r.1.2]) ∧ r.2.pendingBundles = q.pendingBundles ∧
      q.readyBundles.length = r.2.readyBundles.length + 1 := by
  unfold RebundleQueue.getNextWithOriginal at hget
  split at hget
  · cases hget
  · cases hget
  · rename_i ready readyBundles consumed consumedBundlesList hready hconsumed
    cases hget
    have hlen := h.length
    have horig := h.originals
    rw [hready, hconsumed, List.length_cons, List.length_cons] at hlen
    rw [hconsumed] at horig
    refine ⟨⟨?_, Nat.succ.inj hlen, h.pending⟩, rfl, by rw [hready]; rfl⟩
    rw [← horig]
    simp

theorem Accounted.step (h : Accounted added q out) {op : OriginalOp ρ}
    (hstep : q.originalStep op = .ok (q', o)) : Accounted (added ++ op.added) q' (out ++ o) := by
  cases op with
  | add bundle =>
    obtain ⟨q₁, hadd, hstep⟩ := bind_eq_ok.mp hstep
    cases hstep
    rw [List.append_nil]
    exact h.add hadd
  | getNextWithOriginal =>
    rw [originalStep] at hstep
    split_ifs at hstep with hnext
    · obtain ⟨r, hget, hstep⟩ := bind_eq_ok.mp hstep
      cases hstep
      show Accounted (added ++ []) _ _
      rw [List.append_nil]
      exact (h.getNextWithOriginal hget).1
    · cases hstep
      show Accounted (added ++ []) _ _
      rwa [List.append_nil, List.append_nil]
  | finalize =>
    obtain ⟨q₁, hfin, hstep⟩ := bind_eq_ok.mp hstep
    cases hstep
    show Accounted (added ++ []) _ _
    rw [List.append_nil, List.append_nil]
    exact (h.finalize hfin).1

/-! ### No operation fails -/

variable {fetch : ρ → List α}

/-- A state from which no operation fails: with an exact size the invariant of the runs holds, and
with an estimate what is pending is too little to build a bundle. -/
def Alive (fetch : ρ → List α) (q : RebundleQueue ρ) : Prop :=
  (∃ t added out, Inv fetch t added q out) ∨
    ∃ m, q.strategy = .estimateSize m ∧ q.strategy.canBuildReadyBundle q.totalPendingRows = false ∧
      q.consumedBundlesList.length = q.readyBundles.length

theorem canBuildReadyBundle_zero (m : Option ℕ) :
    (RebundlingStrategy.estimateSize m).canBuildReadyBundle 0 = false := by
  cases m <;> rfl

theorem mergeBundles_eq_ok (hne : q.pendingBundles ≠ []) :
    ∃ q', q.mergeBundles = .ok q' ∧ q'.strategy = q.strategy ∧ q'.totalPendingRows = 0 := by
  obtain ⟨merged, hmerge, -⟩ := RefBundle.mergeRefBundles_eq hne
  rw [mergeBundles, hmerge]
  exact ⟨_, rfl, rfl, rfl⟩

theorem buildReadyBundle_estimate {m : Option ℕ} (hs : q.strategy = .estimateSize m)
    {last : RefBundle ρ} (hlast : q.pendingBundles.getLast? = some last) (hpos : last.rowsOrZero ≠ 0) :
    ∃ q', q.buildReadyBundle last = .ok q' ∧ q'.strategy = q.strategy ∧ q'.totalPendingRows = 0 := by
  have hne : q.pendingBundles ≠ [] := by
    rintro hnil
    rw [hnil] at hlast
    cases hlast
  obtain ⟨q', hmerge, hkeep⟩ := mergeBundles_eq_ok hne
  refine ⟨q', ?_, hkeep⟩
  have hneeded : q.strategy.rowsNeededFromLastPendingBundle q.totalPendingRows last =
      .ok (last.rowsOrZero : ℤ) := by
    rw [hs]
    rfl
  have hcut : q.cutLast last (last.rowsOrZero : ℤ) = .ok (q, none) := by
    rw [cutLast, if_neg (lt_irrefl _)]
    simp
  have hrows : (0 : ℤ) < last.rowsOrZero := by omega
  rw [buildReadyBundle, hneeded, ok_bind, decide_eq_true hrows, pyAssert_true, ok_bind, hcut,
    ok_bind, hmerge]
  rfl

theorem Alive.add (h : Alive fetch q) (hb : bundle.Sound fetch) :
    ∃ q', q.add bundle = .ok q' ∧ Alive fetch q' := by
  obtain ⟨t, added, out, hinv⟩ | ⟨m, hs, hcan, hlen⟩ := h
  · obtain ⟨q', hadd, hinv', -⟩ := hinv.add hb
    exact ⟨q', hadd, .inl ⟨t, _, out, hinv'⟩⟩
  unfold RebundleQueue.add
  by_cases hzero : bundle.rowsOrZero = 0
  · rw [if_pos hzero, addEmpty]
    cases q.pendingBundles.getLast? with
    | none => exact ⟨_, rfl, .inr ⟨m, hs, hcan, hlen⟩⟩
    | some last =>
      obtain ⟨merged, hmerge, -⟩ := RefBundle.mergeRefBundles_eq (show [last, bundle] ≠ [] by simp)
      simp only [hmerge, ok_bind]
      exact ⟨_, rfl, .inr ⟨m, hs, hcan, hlen⟩⟩
  rw [if_neg hzero]
  show ∃ q', ((q.withPending bundle).tryBuildReadyBundle false >>= _) = .ok q' ∧ _
  have hlast : (q.withPending bundle).pendingBundles.getLast? = some bundle := List.getLast?_concat
  by_cases hbuild : (q.withPending bundle).strategy.canBuildReadyBundle
      (q.withPending bundle).totalPendingRows = true
  · obtain ⟨q', hq', hs', htotal⟩ :=
      buildReadyBundle_estimate (q := q.withPending bundle) hs hlast hzero
    obtain ⟨hsame, hready⟩ := buildReadyBundle_originals hq'
    have htry : (q.withPending bundle).tryBuildReadyBundle false = .ok (1, q') := by
      rw [tryBuildReadyBundle, hlast]
      simp only [hbuild, if_true, hq', ok_bind]
      rfl
    rw [htry, ok_bind, if_pos Nat.one_pos]
    refine ⟨q'.closeConsumed, rfl, .inr ⟨m, hs'.trans hs, ?_, ?_⟩⟩
    · show q'.strategy.canBuildReadyBundle q'.totalPendingRows = false
      rw [hs', htotal]
      show q.strategy.canBuildReadyBundle 0 = false
      rw [hs, canBuildReadyBundle_zero]
    · show (q'.consumedBundlesList ++ [_]).length = q'.readyBundles.length
      rw [hsame.consumed, List.length_append, hready]
      exact congrArg (· + 1) hlen
  · have hbuild := Bool.eq_false_iff.mpr hbuild
    have htry : (q.withPending bundle).tryBuildReadyBundle false = .ok (0, q.withPending bundle) := by
      rw [tryBuildReadyBundle, hlast]
      simp only [hbuild]
      rfl
    rw [htry, ok_bind, if_neg (Nat.lt_irrefl 0)]
    exact ⟨_, rfl, .inr ⟨m, hs, hbuild, hlen⟩⟩

theorem Alive.getNextWithOriginal (h : Alive fetch q) (hnext : q.hasNext = true) :
    ∃ r, q.getNextWithOriginal = .ok r ∧ Alive fetch r.2 := by
  obtain ⟨t, added, out, hinv⟩ | ⟨m, hs, hcan, hlen⟩ := h
  · obtain ⟨b, q', hget, hinv', -⟩ := hinv.getNext hnext
    obtain ⟨r, hr, hget⟩ := bind_eq_ok.mp hget
    cases hget
    exact ⟨r, hr, .inl ⟨t, added, _, hinv'⟩⟩
  · have hpos : 0 < q.readyBundles.length := of_decide_eq_true hnext
    obtain ⟨b, ready, hready⟩ := List.exists_cons_of_length_pos hpos
    obtain ⟨c, consumed, hconsumed⟩ := List.exists_cons_of_length_pos (hlen.symm ▸ hpos)
    rw [hready, hconsumed] at hlen
    rw [RebundleQueue.getNextWithOriginal, hready, hconsumed]
    exact ⟨_, rfl, .inr ⟨m, hs, hcan, Nat.succ.inj hlen⟩⟩

theorem Alive.finalize (h : Alive fetch q) : ∃ q', q.finalize = .ok q' ∧ Alive fetch q' := by
  obtain ⟨t, added, out, hinv⟩ | ⟨m, hs, hcan, hlen⟩ := h
  · obtain ⟨q', -, hfin, hinv', -⟩ := hinv.finalize
    exact ⟨q', hfin, .inl ⟨t, added, out, hinv'⟩⟩
  by_cases hnil : q.pendingBundles = []
  · exact ⟨q, by rw [RebundleQueue.finalize, if_neg (by simp [hnil])], .inr ⟨m, hs, hcan, hlen⟩⟩
  · obtain ⟨q', hmerge, hs', htotal⟩ := mergeBundles_eq_ok hnil
    obtain ⟨hsame, hready, -⟩ := mergeBundles_originals hmerge
    have hflush : q.flush true 0 = .ok (1, q') := by
      rw [flush, if_pos (by simp [hnil]), hmerge]
      rfl
    have htry : q.tryBuildReadyBundle true = .ok (1, q') := by
      rw [tryBuildReadyBundle]
      cases q.pendingBundles.getLast? with
      | none => exact hflush
      | some last =>
        simp only [hcan]
        exact hflush
    refine ⟨q'.closeConsumed, ?_, .inr ⟨m, hs'.trans hs, ?_, ?_⟩⟩
    · rw [RebundleQueue.finalize, if_pos (List.length_pos_iff.mpr hnil), htry]
      rfl
    · show q'.strategy.canBuildReadyBundle q'.totalPendingRows = false
      rw [hs', htotal, hs, canBuildReadyBundle_zero]
    · show (q'.consumedBundlesList ++ [_]).length = q'.readyBundles.length
      rw [hsame.consumed, List.length_append, hready]
      exact congrArg (· + 1) hlen

theorem Alive.step (h : Alive fetch q) {op : OriginalOp ρ} (hb : ∀ b ∈ op.added, b.Sound fetch) :
    ∃ q' o, q.originalStep op = .ok (q', o) ∧ Alive fetch q' := by
  cases op with
  | add bundle =>
    obtain ⟨q', hadd, halive⟩ := h.add (hb bundle (.head _))
    exact ⟨q', [], by rw [originalStep, hadd]; rfl, halive⟩
  | getNextWithOriginal =>
    by_cases hnext : q.hasNext = true
    · obtain ⟨r, hget, halive⟩ := h.getNextWithOriginal hnext
      exact ⟨r.2, [r.1.2], by rw [originalStep, if_pos hnext, hget]; rfl, halive⟩
    · exact ⟨q, [], by rw [originalStep, if_neg hnext], h⟩
  | finalize =>
    obtain ⟨q', hfin, halive⟩ := h.finalize
    exact ⟨q', [], by rw [originalStep, hfin]; rfl, halive⟩

/-! ### Runs -/

variable {strategy : RebundlingStrategy}

theorem alive_init (h : ∀ t, strategy = .exactMultipleSize t → 1 ≤ t) :
    Alive fetch (init strategy : RebundleQueue ρ) := by
  cases strategy with
  | estimateSize m => exact .inr ⟨m, rfl, canBuildReadyBundle_zero m, rfl⟩
  | exactMultipleSize t => exact .inl ⟨t, [], [], inv_init fetch (h t rfl)⟩

/-- The bundles that operations add. -/
def addedOriginals (ops : List (OriginalOp ρ)) : List (RefBundle ρ) := ops.flatMap OriginalOp.added

theorem run_keepsAccount
    (h : ∀ t, strategy = .exactMultipleSize t → 1 ≤ t) {ops : List (OriginalOp ρ)}
    (hsound : ∀ b ∈ addedOriginals ops, b.Sound fetch) :
    ∃ q out, runSteps originalStep (init strategy) ops = .ok (q, out) ∧
      Accounted (addedOriginals ops) q out ∧ Alive fetch q := by
  apply runSteps_ok (P := fun done q out => Accounted (addedOriginals done) q out ∧ Alive fetch q)
  · exact ⟨accounted_init strategy, alive_init h⟩
  · rintro done op rest q out rfl ⟨hacc, halive⟩
    have hop : ∀ b ∈ op.added, b.Sound fetch := fun b hb => hsound b (by
      rw [addedOriginals, List.flatMap_append, List.flatMap_cons]
      exact List.mem_append_right _ (List.mem_append_left _ hb))
    obtain ⟨q', o, hstep, halive'⟩ := halive.step hop
    refine ⟨q', o, hstep, ?_, halive'⟩
    rw [addedOriginals, List.flatMap_append, List.flatMap_singleton]
    exact hacc.step hstep

theorem Accounted.drain (hacc : Accounted added q out) (halive : Alive fetch q)
    (hnil : q.pendingBundles = []) {k : ℕ} (hk : q.readyBundles.length ≤ k) :
    ∃ q' out', runSteps originalStep q (List.replicate k .getNextWithOriginal) = .ok (q', out') ∧
      Accounted added q' (out ++ out') ∧ q'.readyBundles = [] ∧ q'.pendingBundles = [] := by
  induction k generalizing q out with
  | zero =>
    refine ⟨q, [], rfl, by rwa [List.append_nil], ?_, hnil⟩
    exact List.length_eq_zero_iff.mp (Nat.le_zero.mp hk)
  | succ k ih =>
    by_cases hnext : q.hasNext = true
    · obtain ⟨r, hget, halive'⟩ := halive.getNextWithOriginal hnext
      obtain ⟨hacc', hpending, hlen⟩ := hacc.getNextWithOriginal hget
      obtain ⟨q', out', hrun, hfinal, hempty⟩ :=
        ih hacc' halive' (hpending.trans hnil) (by omega)
      refine ⟨q', [r.1.2] ++ out', ?_, by rwa [← List.append_assoc], hempty⟩
      rw [List.replicate_succ, runSteps_cons_eq_ok]
      exact ⟨r.2, [r.1.2], out', by rw [originalStep, if_pos hnext, hget]; rfl, hrun, rfl⟩
    · have hready : q.readyBundles.length = 0 := by
        rw [hasNext, decide_eq_true_eq] at hnext
        omega
      obtain ⟨q', out', hrun, hfinal⟩ := ih hacc halive hnil (by omega)
      refine ⟨q', out', ?_, hfinal⟩
      rw [List.replicate_succ, runSteps_cons_eq_ok]
      exact ⟨q, [], out', by rw [originalStep, if_neg hnext], hrun, rfl⟩

end RebundleQueue

open RebundleQueue in
/-- Every run of `RebundleQueue` with every strategy: no operation fails, and once it is finalized
and drained, the originals are the added bundles exactly if all added bundles have rows on
record. -/
theorem rebundleQueue_originals_iff (fetch : ρ → List α) {strategy : RebundlingStrategy}
    (h : ∀ t, strategy = .exactMultipleSize t → 1 ≤ t) (ops : List (OriginalOp ρ))
    (hsound : ∀ b ∈ addedOriginals ops, b.Sound fetch) :
    ∃ q out, runSteps originalStep (.init strategy) (ops ++ [.finalize]) = .ok (q, out) ∧
      ∀ k, q.readyBundles.length ≤ k → ∃ q' out',
        runSteps originalStep q (List.replicate k .getNextWithOriginal) = .ok (q', out') ∧
        q'.readyBundles = [] ∧ q'.pendingBundles = [] ∧
        ((out ++ out').flatten.Perm (addedOriginals ops) ↔
          ∀ b ∈ addedOriginals ops, b.hasRows = true) := by
  obtain ⟨q₀, out₀, hrun, hacc₀, halive₀⟩ := run_keepsAccount h hsound
  obtain ⟨q, hfin, halive⟩ := halive₀.finalize
  obtain ⟨hacc, hnil⟩ := hacc₀.finalize hfin
  refine ⟨q, out₀, ?_, fun k hk => ?_⟩
  · rw [runSteps_append_eq_ok]
    refine ⟨q₀, out₀, [], hrun, ?_, (List.append_nil _).symm⟩
    rw [runSteps_cons_eq_ok]
    exact ⟨q, [], [], by rw [originalStep, hfin]; rfl, rfl, rfl⟩
  · obtain ⟨q', out', hdrain, hfinal, hready, hpending⟩ := hacc.drain halive hnil hk
    refine ⟨q', out', hdrain, hready, hpending, ?_⟩
    have horiginals := hfinal.originals
    have hconsumed : q'.consumedBundlesList = [] := by
      apply List.length_eq_zero_iff.mp
      rw [hfinal.length, hready]
      rfl
    rw [hconsumed, hfinal.pending hpending, List.append_nil, List.flatten_nil, List.append_nil]
      at horiginals
    rw [horiginals, ← List.filter_eq_self]
    refine ⟨fun hperm => List.filter_sublist.eq_of_length hperm.length_eq, fun heq => ?_⟩
    rw [heq]

open RebundleQueue in
/-- A bundle without rows comes out of the queue, but not among the originals. -/
theorem rebundleQueue_original_lost :
    ∃ q out, runSteps originalStep (.init (.exactMultipleSize 2))
        [.add (.ofBlocks [(⟨.arrow, []⟩ : Block ℕ)]), .finalize, .getNextWithOriginal] = .ok (q, out) ∧
      q.readyBundles = [] ∧ q.pendingBundles = [] ∧ out = [[]] ∧
      ¬ out.flatten.Perm (addedOriginals
        [.add (.ofBlocks [(⟨.arrow, []⟩ : Block ℕ)]), .finalize, .getNextWithOriginal]) := by
  refine ⟨_, _, rfl, rfl, rfl, rfl, fun hperm => ?_⟩
  exact absurd hperm.length_eq (by decide)

open RebundleQueue in
/-- Three rows and two rows for a target of two: the second bundle is cut, and both are returned
once. -/
theorem rebundleQueue_originals_iff_two :
    ∃ q out, runSteps originalStep (.init (.exactMultipleSize 2))
        ([.add (.ofBlocks [(⟨.arrow, [1, 2, 3]⟩ : Block ℕ)]), .getNextWithOriginal,
          .add (.ofBlocks [⟨.arrow, [4, 5]⟩])] ++ [.finalize]) = .ok (q, out) ∧
      ∃ q' out', runSteps originalStep q (List.replicate q.readyBundles.length .getNextWithOriginal) =
          .ok (q', out') ∧
        (out ++ out').flatten.Perm [.ofBlocks [⟨.arrow, [1, 2, 3]⟩], .ofBlocks [⟨.arrow, [4, 5]⟩]] := by
  have hadded : ∀ b ∈ addedOriginals [.add (.ofBlocks [(⟨.arrow, [1, 2, 3]⟩ : Block ℕ)]),
      .getNextWithOriginal, .add (.ofBlocks [⟨.arrow, [4, 5]⟩])],
      b.Sound Block.rows ∧ b.hasRows = true := by
    intro b hb
    have hb : b ∈ [RefBundle.ofBlocks [(⟨.arrow, [1, 2, 3]⟩ : Block ℕ)],
        .ofBlocks [⟨.arrow, [4, 5]⟩]] := hb
    rw [List.mem_cons, List.mem_singleton] at hb
    obtain rfl | rfl := hb
    · exact ⟨(RefBundle.counted_ofBlocks _).sound, rfl⟩
    · exact ⟨(RefBundle.counted_ofBlocks _).sound, rfl⟩
  obtain ⟨q, out, hrun, hdrain⟩ := rebundleQueue_originals_iff Block.rows
    (fun t (ht : RebundlingStrategy.exactMultipleSize 2 = .exactMultipleSize t) => by cases ht; decide)
    _ (fun b hb => (hadded b hb).1)
  obtain ⟨q', out', hrun', -, -, hiff⟩ := hdrain _ le_rfl
  exact ⟨q, out, hrun, q', out', hrun', hiff.mpr (fun b hb => (hadded b hb).2)⟩

end RayTfm.Data
