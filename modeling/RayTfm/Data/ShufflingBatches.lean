import RayTfm.Data.Batcher

/-! # The sizes of shuffled batches

`has_batch` counts the rows of the compacted buffer and of the builder together, and `next_batch`
compacts only if the buffer holds at most `min_rows_to_yield_batch` rows.  Between that threshold
and the batch size there is a gap: there the batch is cut from the buffer alone, and is too short
although there are rows enough (`Uneven`).  A run returns full batches up to the last one exactly if
no call of `next_batch` falls into the gap (`shufflingBatcher_exact_iff`). -/

namespace RayTfm.Data

variable {α : Type}

namespace ShufflingBatcher

variable {n : ℕ} {t t' : ShufflingBatcher α} {b : Block α}

/-- There are rows enough for a batch, but not in the compacted buffer, and the buffer is not
compacted. -/
def Uneven (t : ShufflingBatcher α) : Prop :=
  t.doneAdding = false ∧ t.minRowsToYieldBatch < t.numCompactedRows ∧
    t.numCompactedRows < t.batchSize ∧ t.batchSize ≤ t.numRows

instance (t : ShufflingBatcher α) : Decidable t.Uneven := inferInstanceAs (Decidable (_ ∧ _ ∧ _ ∧ _))

/-! ### One batch -/

theorem step_nextBatch (h : t.step .nextBatch = .ok (t', [b])) :
    (t.hasBatch || (t.doneAdding && t.hasAny)) = true ∧
      ∃ t₁, t.compactIfNeeded = .ok t₁ ∧ t₁.takeBatch = .ok (b, t') := by
  rw [step] at h
  split_ifs at h with hguard
  · obtain ⟨⟨b', t''⟩, hb, h⟩ := bind_eq_ok.mp h
    cases h
    obtain ⟨-, -, hb⟩ := bind_eq_ok.mp hb
    exact ⟨hguard, bind_eq_ok.mp hb⟩
  · cases h

variable {t₁ : ShufflingBatcher α}

/-- After a compaction all rows are in the buffer; without one nothing changes. -/
theorem compactIfNeeded_cases (ht : t.Valid) (h : t.compactIfNeeded = .ok t₁) :
    (0 < t.numUncompactedRows ∧ (t.doneAdding = true ∨ t.numCompactedRows ≤ t.minRowsToYieldBatch) ∧
        t₁.builder.rows = [] ∧ t₁.pending.length = t.numRows) ∨
      (t = t₁ ∧ (t.numUncompactedRows = 0 ∨
        (t.doneAdding = false ∧ t.minRowsToYieldBatch < t.numCompactedRows))) := by
  unfold compactIfNeeded at h
  split_ifs at h with hcompact
  · rw [Bool.and_eq_true, Bool.or_eq_true, decide_eq_true_eq, decide_eq_true_eq] at hcompact
    obtain ⟨-, hbuilder, hperm, -⟩ := compact_spec ht h
    exact .inl ⟨hcompact.1, hcompact.2, hbuilder, hperm.length_eq.trans (numRows_eq ht).symm⟩
  · cases h
    refine .inr ⟨rfl, ?_⟩
    by_cases hzero : t.numUncompactedRows = 0
    · exact .inl hzero
    · simp only [Nat.pos_of_ne_zero hzero, decide_true, Bool.true_and, Bool.or_eq_true,
        decide_eq_true_eq, not_or, not_le, Bool.not_eq_true] at hcompact
      exact .inr hcompact

theorem takeBatch_length (ht : t₁.Valid) (hne : t₁.pending ≠ []) (h : t₁.takeBatch = .ok (b, t')) :
    b.rows.length = min t₁.batchSize t₁.pending.length ∧ t'.Valid ∧
      t'.pending.length = t₁.pending.length - b.rows.length ∧ t'.builder = t₁.builder ∧
      t'.batchSize = t₁.batchSize ∧ t'.doneAdding = t₁.doneAdding := by
  obtain ⟨b', t'', htake, hv, hsplit, hlen, hbuilder, hsize, hdone, -⟩ :=
    takeBatch_spec ht (shuffleBuffer_ne_none hne)
  rw [h] at htake
  cases htake
  have hcount := congrArg List.length hsplit
  rw [List.length_append] at hcount
  exact ⟨hlen, hv, by omega, hbuilder, hsize, hdone⟩

/-- The size of a batch: it is full unless the state is uneven, or the rows run out after
`done_adding`. -/
theorem nextBatch_length (hn : 1 ≤ n) (ht : t.Valid) (hsize : t.batchSize = n)
    (h : t.step .nextBatch = .ok (t', [b])) :
    (t.Uneven → b.rows.length < n) ∧
      (¬ t.Uneven → b.rows.length = n ∨ (t.doneAdding = true ∧ t'.hasAny = false)) := by
  obtain ⟨hguard, t₁, hcompact, htake⟩ := step_nextBatch h
  have hany := hasAny_of_guard hn hsize hguard
  obtain ⟨hv₁, -, hsize₁, hdone₁⟩ := compactIfNeeded_spec ht hcompact
  have hne := pending_ne_nil ht hany hcompact
  obtain ⟨hlen, hv', hleft, hbuilder, -, hdone⟩ := takeBatch_length hv₁ hne htake
  have hrows : t.numRows = t.numCompactedRows + t.numUncompactedRows := rfl
  have hpending := numCompactedRows_eq ht
  rw [hsize₁, hsize] at hlen
  constructor
  · rintro ⟨hnot, hlow, hhigh, henough⟩
    obtain ⟨-, hor, -⟩ | ⟨rfl, -⟩ := compactIfNeeded_cases ht hcompact
    · obtain hd | hle := hor
      · rw [hnot] at hd
        cases hd
      · omega
    · omega
  · intro huneven
    by_cases hd : t.doneAdding = true
    · -- all rows are in the buffer, whether it was compacted or not
      have hall : t₁.builder.rows = [] ∧ t₁.pending.length = t.numRows := by
        obtain ⟨-, -, hbuilder, hall⟩ | ⟨rfl, hzero | ⟨hnot, -⟩⟩ := compactIfNeeded_cases ht hcompact
        · exact ⟨hbuilder, hall⟩
        · rw [numUncompactedRows, DelegatingBlockBuilder.numRows_eq] at hzero
          refine ⟨List.length_eq_zero_iff.mp hzero, ?_⟩
          rw [hrows, numUncompactedRows, DelegatingBlockBuilder.numRows_eq, hzero]
          omega
        · rw [hd] at hnot
          cases hnot
      by_cases hfull : n ≤ t.numRows
      · exact .inl (by omega)
      · refine .inr ⟨hd, ?_⟩
        rw [hasAny, decide_eq_false_iff_not, numRows_eq hv', List.length_append, hbuilder, hall.1]
        rw [List.length_nil]
        omega
    · have hd : t.doneAdding = false := Bool.eq_false_iff.mpr hd
      have henough : n ≤ t.numRows := by
        rw [hasBatch, hd] at hguard
        simp only [Bool.false_and, Bool.or_false, Bool.false_eq_true, if_false, Bool.and_eq_true,
          decide_eq_true_eq] at hguard
        exact hsize ▸ hguard.1
      left
      obtain ⟨-, -, -, hall⟩ | ⟨rfl, hzero | ⟨-, hlow⟩⟩ := compactIfNeeded_cases ht hcompact
      · omega
      · omega
      · have hhigh : ¬ t.numCompactedRows < n := fun hlt =>
          huneven ⟨hd, hlow, hsize.symm ▸ hlt, hsize.symm ▸ henough⟩
        omega

/-- In an uneven state `next_batch` is legal, and does not fail. -/
theorem step_uneven (ht : t.Valid) (h : t.Uneven) : ∃ t' b, t.step .nextBatch = .ok (t', [b]) := by
  obtain ⟨hd, hlow, hhigh, henough⟩ := h
  have hbatch : t.hasBatch = true := by
    rw [hasBatch, hd]
    simp [henough, hlow.le]
  have hkeep : t.compactIfNeeded = .ok t := by
    rw [compactIfNeeded, hd, if_neg]
    simp only [Bool.false_or, Bool.and_eq_true, decide_eq_true_eq, not_and, not_le]
    exact fun _ => hlow
  have hne : t.pending ≠ [] := by
    apply List.ne_nil_of_length_pos
    rw [← numCompactedRows_eq ht]
    omega
  obtain ⟨b, t', htake, -⟩ := takeBatch_spec ht (shuffleBuffer_ne_none hne)
  refine ⟨t', b, ?_⟩
  rw [step, hbatch, Bool.true_or, if_pos rfl, nextBatch, hbatch, Bool.true_or, pyAssert_true,
    ok_bind, hkeep, ok_bind, htake]
  rfl

/-- Once all rows are returned after `done_adding`, nothing comes any more. -/
theorem runSteps_drained (hn : 1 ≤ n) {ops : List (BatcherOp α)} {out : List (Block α)}
    (hsize : t.batchSize = n) (hdone : t.doneAdding = true) (hany : t.hasAny = false)
    (h : runSteps step t ops = .ok (t', out)) : out = [] := by
  have hstay : ∀ op, t.step op = .ok (t, []) := by
    have hzero : t.numRows = 0 := by
      rw [hasAny, decide_eq_false_iff_not] at hany
      omega
    intro op
    cases op with
    | add block => rw [step, if_pos hdone]
    | nextBatch =>
      rw [step, if_neg]
      rw [hasBatch, hdone, hzero, hsize, hany]
      simp only [if_true, Bool.and_false, Bool.or_false, decide_eq_true_eq]
      omega
    | doneAdding =>
      obtain ⟨size, rng, draws, yield, trigger, builder, buffer, indices, head, done⟩ := t
      cases hdone
      rfl
  induction ops generalizing out with
  | nil =>
    cases h
    rfl
  | cons op ops ih =>
    obtain ⟨t₁, o, out', hstep, hrun, rfl⟩ := runSteps_cons_eq_ok.mp h
    rw [hstay] at hstep
    cases hstep
    rw [ih hrun, List.append_nil]

theorem step_minRowsToYieldBatch {op : BatcherOp α} {o : List (Block α)}
    (h : t.step op = .ok (t', o)) : t'.minRowsToYieldBatch = t.minRowsToYieldBatch := by
  cases op with
  | add block =>
    rw [step] at h
    split_ifs at h
    · cases h
      rfl
    · obtain ⟨t₁, hadd, h⟩ := bind_eq_ok.mp h
      cases h
      unfold ShufflingBatcher.add at hadd
      split_ifs at hadd
      · obtain ⟨builder, -, hadd⟩ := bind_eq_ok.mp hadd
        cases hadd
        rfl
      · cases hadd
        rfl
  | nextBatch =>
    rw [step] at h
    split_ifs at h
    · obtain ⟨r, hr, h⟩ := bind_eq_ok.mp h
      cases h
      obtain ⟨-, -, hr⟩ := bind_eq_ok.mp hr
      obtain ⟨t₁, hcompact, htake⟩ := bind_eq_ok.mp hr
      have hsame : t₁.minRowsToYieldBatch = t.minRowsToYieldBatch := by
        unfold compactIfNeeded at hcompact
        split_ifs at hcompact
        · obtain ⟨builder, -, hcompact⟩ := bind_eq_ok.mp hcompact
          cases hcompact
          rfl
        · cases hcompact
          rfl
      unfold takeBatch at htake
      split at htake
      · obtain ⟨batch, -, htake⟩ := bind_eq_ok.mp htake
        cases htake
        exact hsame
      · cases htake
    · cases h
      rfl
  | doneAdding =>
    cases h
    rfl

/-! ### Whole runs -/

/-- Every batch is full, except that the last one returned after `done_adding` may be shorter. -/
def ExactBatches (t : ShufflingBatcher α) (ops : List (BatcherOp α)) : Prop :=
  ∀ done rest out t₁ t₂ b, ops = done ++ .nextBatch :: rest → runSteps step t done = .ok (t₁, out) →
    t₁.step .nextBatch = .ok (t₂, [b]) →
    b.rows.length = t.batchSize ∨ (t₁.doneAdding = true ∧
      ∀ t₃ out', runSteps step t₂ rest = .ok (t₃, out') → out' = [])

end ShufflingBatcher

/-- In every run of `ShufflingBatcher`: every batch is full, except the last one after
`done_adding`, exactly if no call of `next_batch` finds the buffer uneven. -/
theorem shufflingBatcher_exact_iff {n : ℕ} (hn : 1 ≤ n) (minSize : ℤ) (rng : Rng)
    (ops : List (BatcherOp α)) :
    (ShufflingBatcher.init n minSize rng : ShufflingBatcher α).ExactBatches ops ↔
      ∀ done rest out t, ops = done ++ .nextBatch :: rest →
        runSteps ShufflingBatcher.step (.init n minSize rng) done = .ok (t, out) → ¬ t.Uneven := by
  have hinv : ∀ (done : List (BatcherOp α)) out t, runSteps ShufflingBatcher.step
    (.init n minSize rng) done = .ok (t, out) →
      ShufflingBatcher.Inv n done t out := fun done out t hrun =>
    runSteps_inv (ShufflingBatcher.inv_init n minSize rng)
      (fun _ _ _ _ _ _ => ShufflingBatcher.inv_step hn) hrun
  constructor
  · intro hexact done rest out t hops hrun huneven
    have hv := hinv done out t hrun
    obtain ⟨t', b, hstep⟩ := ShufflingBatcher.step_uneven hv.valid huneven
    have hshort := (ShufflingBatcher.nextBatch_length hn hv.valid hv.size hstep).1 huneven
    obtain hfull | ⟨hdone, -⟩ := hexact done rest out t t' b hops hrun hstep
    · exact absurd hfull (Nat.ne_of_lt hshort)
    · rw [huneven.1] at hdone
      cases hdone
  · intro hgap done rest out t t' b hops hrun hstep
    have hv := hinv done out t hrun
    refine ((ShufflingBatcher.nextBatch_length hn hv.valid hv.size hstep).2
      (hgap done rest out t hops hrun)).imp id (fun ⟨hdone, hany⟩ => ⟨hdone, fun t'' out' hrest => ?_⟩)
    have hv' := ShufflingBatcher.inv_step hn hv hstep
    have hdone' : t'.doneAdding = true := by
      rw [hv'.done, isDone_snoc_nextBatch, ← hv.done, hdone]
    exact ShufflingBatcher.runSteps_drained hn hv'.size hdone' hany hrest

/-- If the buffer holds two batches less two rows, no call falls into the gap. -/
theorem shufflingBatcher_not_uneven {n : ℕ} (hn : 1 ≤ n) {minSize : ℤ}
    (h : 2 * (n : ℤ) ≤ max minSize n + 2) (rng : Rng) {ops : List (BatcherOp α)}
    {t : ShufflingBatcher α} {out : List (Block α)}
    (hrun : runSteps ShufflingBatcher.step (.init n minSize rng) ops = .ok (t, out)) :
    ¬ t.Uneven := by
  have hsize := (runSteps_inv (ShufflingBatcher.inv_init n minSize rng)
    (fun _ _ _ _ _ _ => ShufflingBatcher.inv_step hn) hrun).size
  have hmin : t.minRowsToYieldBatch =
      (ShufflingBatcher.init n minSize rng : ShufflingBatcher α).minRowsToYieldBatch :=
    runSteps_inv (P := fun _ t _ => t.minRowsToYieldBatch =
        (ShufflingBatcher.init n minSize rng : ShufflingBatcher α).minRowsToYieldBatch) rfl
      (fun _ _ _ _ _ _ hmin hstep => (ShufflingBatcher.step_minRowsToYieldBatch hstep).trans hmin)
      hrun
  have hle : n ≤ t.minRowsToYieldBatch + 1 := by
    rw [hmin]
    show n ≤ max 1 ((if minSize < n then (n : ℤ) else minSize) / 2).toNat + 1
    split_ifs with hlt <;> omega
  rintro ⟨-, hlow, hhigh, -⟩
  omega

/-- Two rows a batch: the gap is empty. -/
theorem shufflingBatcher_exact_iff_two :
    (ShufflingBatcher.init 2 1 ⟨fun _ n => List.range n, fun _ _ => .refl _⟩ :
      ShufflingBatcher ℕ).ExactBatches [.add ⟨.pandas, [1, 2, 3, 4, 5]⟩, .nextBatch, .doneAdding,
        .nextBatch, .nextBatch] :=
  (shufflingBatcher_exact_iff (by decide) 1 _ _).mpr
    (fun _ _ _ _ _ hrun => shufflingBatcher_not_uneven (by decide) (by decide) _ hrun)

/-- Four rows a batch: of eleven rows two full batches are cut and three rows are left; one more row
makes `has_batch` true again, and the batch has three rows. -/
theorem shufflingBatcher_short_batch :
    ∃ t out, runSteps ShufflingBatcher.step
        (.init 4 4 ⟨fun _ n => List.range n, fun _ _ => .refl _⟩ : ShufflingBatcher ℕ)
        [.add ⟨.pandas, List.range 11⟩, .nextBatch, .nextBatch, .add ⟨.pandas, [11]⟩, .nextBatch] =
          .ok (t, out) ∧
      t.doneAdding = false ∧ out.map (fun b => b.rows.length) = [4, 4, 3] :=
  ⟨_, _, rfl, rfl, rfl⟩

end RayTfm.Data
