import RayTfm.Data.Batcher
import RayTfm.Data.Rebundle

/-! # Output blocks

The model of `output_buffer.py` and of the iterator in `map_transformer.py` that shapes the output
of a task with it.  With `RebundleQueue` in front, one task per ready bundle, this is streaming
repartition.  `sizeBytes` is the size of a block in memory; quotients are exact. -/

namespace RayTfm.Data

variable {ρ α : Type}

/-- The options of an output buffer; at least one is set. -/
structure OutputBlockSizeOption where
  targetMaxBlockSize : Option ℕ
  targetNumRowsPerBlock : Option ℕ
  disableBlockShaping : Bool
  valid : ¬ (targetMaxBlockSize = none ∧ targetNumRowsPerBlock = none ∧ disableBlockShaping = false)
deriving DecidableEq

/-- Only the number of rows is set. -/
def OutputBlockSizeOption.ofRows (targetNumRowsPerBlock : ℕ) : OutputBlockSizeOption :=
  ⟨none, some targetNumRowsPerBlock, false, by simp⟩

structure BlockOutputBuffer (α : Type) where
  outputBlockSizeOption : Option OutputBlockSizeOption
  buffer : DelegatingBlockBuilder α
  /-- The sizes of the tables in the builder, together. -/
  tablesSizeBytes : ℕ
  finalized : Bool
  hasYieldedBlocks : Bool

namespace BlockOutputBuffer

def init (option : Option OutputBlockSizeOption) : BlockOutputBuffer α :=
  ⟨option, .init, 0, false, false⟩

section methods
variable (sizeBytes : Block α → ℕ) (q : BlockOutputBuffer α)

/-- `add_block`; a block without rows is no table of the builder. -/
def addBlock (block : Block α) : Except PyError (BlockOutputBuffer α) := do
  pyAssert (!q.finalized)
  let buffer ← q.buffer.addBlock block
  .ok { q with
    buffer
    tablesSizeBytes := q.tablesSizeBytes + if block.rows.length = 0 then 0 else sizeBytes block }

def finalize : Except PyError (BlockOutputBuffer α) := do
  pyAssert (!q.finalized)
  .ok { q with finalized := true }

def maxNumRowsPerBlock : Option ℕ :=
  match q.outputBlockSizeOption with
  | none => none
  | some o => if o.disableBlockShaping then none else o.targetNumRowsPerBlock

def maxBytesPerBlock : Option ℕ :=
  match q.outputBlockSizeOption with
  | none => none
  | some o => if o.disableBlockShaping then none else o.targetMaxBlockSize

def exceededBufferRowLimit : Bool :=
  match q.maxNumRowsPerBlock with
  | none => false
  | some n => n < q.buffer.numRows

def getEstimatedMemoryUsage : ℕ := if q.buffer.numRows = 0 then 0 else q.tablesSizeBytes

def exceededBufferSizeLimit : Bool :=
  match q.maxBytesPerBlock with
  | none => false
  | some n => n < q.getEstimatedMemoryUsage

def hasNext : Bool :=
  if q.finalized then !q.hasYieldedBlocks || 0 < q.buffer.numRows
  else
    match q.outputBlockSizeOption with
    | none => false
    | some o =>
      if o.disableBlockShaping then 0 < q.buffer.numRows
      else q.exceededBufferRowLimit || q.exceededBufferSizeLimit

/-- The rows of the next block if the buffer holds too much for one block.  A block is too large
from half as much again as the limit on. -/
def targetNumRows (block : Block α) : Except PyError (Option ℕ) :=
  match q.maxNumRowsPerBlock, q.maxBytesPerBlock with
  | some n, bytes =>
    if n < block.rows.length then .ok (some n)
    else bySize bytes
  | none, bytes => bySize bytes
where
  bySize : Option ℕ → Except PyError (Option ℕ)
    | none => .ok none
    | some bytes =>
      if 3 * bytes ≤ 2 * sizeBytes block then do
        pyAssert (0 < block.rows.length)
        if sizeBytes block = 0 then .error .zeroDivisionError
        else
          let numBytesPerRow : ℚ := sizeBytes block / block.rows.length
          .ok (some (max 1 ⌈bytes / numBytesPerRow⌉.toNat))
      else .ok none

/-- Cut the block at the target, if there is one inside it. -/
def cutBlock (block : Block α) : Option ℕ → Except PyError (Block α × Option (Block α))
  | none => .ok (block, none)
  | some n =>
    if n < block.rows.length then do
      let first ← block.slice 0 (some (n : ℤ))
      let remainder ← block.slice n (some (block.rows.length : ℤ))
      .ok (first, some remainder)
    else .ok (block, none)

/-- The builder after `next`: only the remainder, if there is one. -/
def keepRemainder : Option (Block α) → Except PyError (BlockOutputBuffer α)
  | none => .ok { q with buffer := .init, tablesSizeBytes := 0, hasYieldedBlocks := true }
  | some remainder => do
      let buffer ← DelegatingBlockBuilder.init.addBlock remainder
      .ok { q with buffer, tablesSizeBytes := sizeBytes remainder, hasYieldedBlocks := true }

def next : Except PyError (Block α × BlockOutputBuffer α) := do
  pyAssert q.hasNext
  let target ← q.targetNumRows sizeBytes q.buffer.build
  let r ← cutBlock q.buffer.build target
  let q ← q.keepRemainder sizeBytes r.2
  .ok (r.1, q)

end methods

/-! ### One block -/

variable {sizeBytes : Block α → ℕ} {q : BlockOutputBuffer α}

/-- What an option must satisfy for the buffer to work: a block may have a row, and an empty block
is not too large. -/
def Usable (sizeBytes : Block α → ℕ) (option : Option OutputBlockSizeOption) : Prop :=
  ∀ o ∈ option, (∀ n ∈ o.targetNumRowsPerBlock, 1 ≤ n) ∧
    ∀ bytes ∈ o.targetMaxBlockSize, ∀ fmt, 2 * sizeBytes ⟨fmt, []⟩ < 3 * bytes

theorem usable_ofRows {n : ℕ} (hn : 1 ≤ n) : Usable sizeBytes (some (.ofRows n)) := by
  intro o ho
  cases ho
  refine ⟨fun m hm => ?_, nofun⟩
  cases hm
  exact hn

theorem cutBlock_spec (block : Block α) {target : Option ℕ} (h : ∀ n ∈ target, 1 ≤ n) :
    ∃ first remainder, cutBlock block target = .ok (first, remainder) ∧
      first.rows ++ (remainder.map Block.rows).getD [] = block.rows ∧
      (first.rows = [] → block.rows = []) ∧
      (∀ r ∈ remainder, r.rows ≠ [] ∧ r.format = block.format) ∧
      (∀ n ∈ target, first.rows.length = min n block.rows.length) ∧
      (target = none → remainder = none) := by
  cases target with
  | none => exact ⟨block, none, rfl, by simp, id, by simp, by simp, fun _ => rfl⟩
  | some n =>
    rw [cutBlock]
    split_ifs with hlt
    · have hhead := slice_eq block (Nat.zero_le n) hlt.le
      rw [Nat.cast_zero] at hhead
      have hn := h n rfl
      rw [hhead, ok_bind, slice_eq block hlt.le le_rfl, ok_bind]
      refine ⟨_, _, rfl, ?_, ?_, ?_, ?_, by simp⟩
      · show segment block.rows 0 n ++ segment block.rows n block.rows.length = block.rows
        rw [segment_zero, segment, List.take_length, List.take_append_drop]
      · intro hnil
        have hlen := length_segment block.rows (Nat.zero_le n) hlt.le
        have hzero : (segment block.rows 0 n).length = 0 := List.length_eq_zero_iff.mpr hnil
        omega
      · intro r hr
        cases hr
        refine ⟨fun hnil => ?_, rfl⟩
        have hlen := length_segment block.rows hlt.le le_rfl
        have hzero : (segment block.rows n block.rows.length).length = 0 :=
          List.length_eq_zero_iff.mpr hnil
        omega
      · intro m hm
        cases hm
        have hlen := length_segment block.rows (Nat.zero_le n) hlt.le
        show (segment block.rows 0 n).length = _
        omega
    · refine ⟨block, none, rfl, by simp, id, by simp, ?_, by simp⟩
      intro m hm
      cases hm
      omega

theorem Usable.rows (hu : Usable sizeBytes q.outputBlockSizeOption) {n : ℕ}
    (hn : q.maxNumRowsPerBlock = some n) : 1 ≤ n := by
  unfold maxNumRowsPerBlock at hn
  cases ho : q.outputBlockSizeOption with
  | none =>
    rw [ho] at hn
    cases hn
  | some o =>
    simp only [ho] at hn
    split_ifs at hn
    exact (hu o ho).1 n hn

theorem Usable.bytes (hu : Usable sizeBytes q.outputBlockSizeOption) {bytes : ℕ}
    (hb : q.maxBytesPerBlock = some bytes) (fmt : BlockFormat) :
    2 * sizeBytes ⟨fmt, []⟩ < 3 * bytes := by
  unfold maxBytesPerBlock at hb
  cases ho : q.outputBlockSizeOption with
  | none =>
    rw [ho] at hb
    cases hb
  | some o =>
    simp only [ho] at hb
    split_ifs at hb
    exact (hu o ho).2 bytes hb fmt

/-- Under a usable option the target is found, and it is positive. -/
theorem targetNumRows_spec (hu : Usable sizeBytes q.outputBlockSizeOption) (block : Block α) :
    ∃ target, q.targetNumRows sizeBytes block = .ok target ∧ ∀ n ∈ target, 1 ≤ n := by
  have hsize : ∃ target, targetNumRows.bySize sizeBytes block q.maxBytesPerBlock = .ok target ∧
      ∀ n ∈ target, 1 ≤ n := by
    cases hb : q.maxBytesPerBlock with
    | none => exact ⟨none, rfl, nofun⟩
    | some bytes =>
      rw [targetNumRows.bySize]
      split_ifs with hlarge hzero
      · -- the limit is positive, so a block that is too large has a size
        have := hu.bytes hb .arrow
        omega
      · have hpos : 0 < block.rows.length := by
          by_contra hnot
          have hnil : block = ⟨block.format, []⟩ := by
            have hrows : block.rows = [] := List.length_eq_zero_iff.mp (by omega)
            obtain ⟨fmt, rows⟩ := block
            cases hrows
            rfl
          have := hu.bytes hb block.format
          rw [← hnil] at this
          omega
        rw [decide_eq_true hpos, pyAssert_true, ok_bind]
        refine ⟨_, rfl, fun n hn => ?_⟩
        cases hn
        exact le_max_left 1 _
      · exact ⟨none, rfl, nofun⟩
  unfold targetNumRows
  cases hn : q.maxNumRowsPerBlock with
  | none => exact hsize
  | some n =>
    simp only
    split_ifs
    · refine ⟨some n, rfl, fun m hm => ?_⟩
      cases hm
      exact hu.rows hn
    · exact hsize

/-- `next` takes a first part of the buffer, which has a row if there is one. -/
theorem next_spec (hu : Usable sizeBytes q.outputBlockSizeOption) (hnext : q.hasNext = true) :
    ∃ b q', q.next sizeBytes = .ok (b, q') ∧ b.rows ++ q'.buffer.rows = q.buffer.rows ∧
      (b.rows = [] → q.buffer.rows = []) ∧ q'.hasYieldedBlocks = true ∧
      q'.finalized = q.finalized ∧ q'.outputBlockSizeOption = q.outputBlockSizeOption ∧
      (∀ fmt, q.buffer.HasFormat fmt → q'.buffer.HasFormat fmt) ∧
      ∃ target, q.targetNumRows sizeBytes q.buffer.build = .ok target ∧
        (∀ n ∈ target, b.rows.length = min n q.buffer.rows.length) ∧
        (target = none → q'.buffer.rows = []) := by
  obtain ⟨target, htarget, hpos⟩ := targetNumRows_spec hu q.buffer.build
  obtain ⟨first, remainder, hcut, hsplit, hempty, hrem, hlen, hnone⟩ :=
    cutBlock_spec q.buffer.build hpos
  have hkeep : ∃ q', q.keepRemainder sizeBytes remainder = .ok q' ∧
      q'.buffer.rows = (remainder.map Block.rows).getD [] ∧ q'.hasYieldedBlocks = true ∧
      q'.finalized = q.finalized ∧ q'.outputBlockSizeOption = q.outputBlockSizeOption ∧
      ∀ fmt, q.buffer.HasFormat fmt → q'.buffer.HasFormat fmt := by
    cases remainder with
    | none => exact ⟨_, rfl, rfl, rfl, rfl, rfl, fun fmt _ => DelegatingBlockBuilder.hasFormat_init fmt⟩
    | some r =>
      obtain ⟨hne, hfmt⟩ := hrem r rfl
      obtain ⟨buffer, hadd, hbf⟩ := DelegatingBlockBuilder.addBlock_eq_ok
        (DelegatingBlockBuilder.hasFormat_init r.format) (fun _ : r.rows ≠ [] => rfl)
      refine ⟨{ q with buffer, tablesSizeBytes := sizeBytes r, hasYieldedBlocks := true }, ?_, ?_, rfl,
        rfl, rfl, fun fmt hq => ?_⟩
      · rw [keepRemainder, hadd, ok_bind]
      · exact DelegatingBlockBuilder.rows_addBlock hadd
      · have hbuild : q.buffer.rows ≠ [] := by
          intro hnil
          have hsplit' : first.rows ++ r.rows = q.buffer.rows := hsplit
          rw [hnil, List.append_eq_nil_iff] at hsplit'
          exact hne hsplit'.2
        rw [← DelegatingBlockBuilder.build_format hq hbuild, ← hfmt]
        exact hbf
  obtain ⟨q', hq', hrows, hyield, hfin, hopt, hformat⟩ := hkeep
  refine ⟨first, q', ?_, ?_, hempty, hyield, hfin, hopt, hformat, target, htarget, hlen, fun ht => ?_⟩
  · rw [next, hnext, pyAssert_true, ok_bind, htarget, ok_bind, hcut, ok_bind, hq', ok_bind]
  · rw [hrows]
    exact hsplit
  · rw [hrows, hnone ht]
    rfl

variable (sizeBytes) in
/-- With a number of rows only, `next` cuts off that many, or takes everything. -/
theorem next_ofRows {t : ℕ} (ht : 1 ≤ t) (ho : q.outputBlockSizeOption = some (.ofRows t))
    (hnext : q.hasNext = true) :
    ∃ b q', q.next sizeBytes = .ok (b, q') ∧ b.rows ++ q'.buffer.rows = q.buffer.rows ∧
      q'.hasYieldedBlocks = true ∧ q'.finalized = q.finalized ∧
      q'.outputBlockSizeOption = some (.ofRows t) ∧
      (∀ fmt, q.buffer.HasFormat fmt → q'.buffer.HasFormat fmt) ∧
      (t < q.buffer.rows.length → b.rows.length = t) ∧
      (q.buffer.rows.length ≤ t → q'.buffer.rows = []) := by
  have hu : Usable sizeBytes q.outputBlockSizeOption := by
    rw [ho]
    exact usable_ofRows ht
  obtain ⟨b, q', hq', hsplit, -, hyield, hfin, hopt, hformat, target, htarget, hlen, hnone⟩ :=
    next_spec hu hnext
  have hcut : q.targetNumRows sizeBytes q.buffer.build =
      .ok (if t < q.buffer.rows.length then some t else none) := by
    have hrows : q.maxNumRowsPerBlock = some t := by
      rw [maxNumRowsPerBlock, ho]
      rfl
    have hbytes : q.maxBytesPerBlock = none := by
      rw [maxBytesPerBlock, ho]
      rfl
    unfold targetNumRows
    rw [hrows, hbytes]
    show (if t < q.buffer.rows.length then Except.ok (some t) else Except.ok none) = _
    split_ifs <;> rfl
  rw [hcut] at htarget
  cases htarget
  refine ⟨b, q', hq', hsplit, hyield, hfin, hopt.trans ho, hformat, fun hlt => ?_, fun hle => ?_⟩
  · have hmin := hlen t (if_pos hlt)
    omega
  · exact hnone (if_neg (by omega))

theorem hasNext_ofRows {t : ℕ} (ho : q.outputBlockSizeOption = some (.ofRows t)) :
    q.hasNext = if q.finalized then !q.hasYieldedBlocks || decide (0 < q.buffer.rows.length)
      else decide (t < q.buffer.rows.length) := by
  unfold hasNext exceededBufferRowLimit exceededBufferSizeLimit maxNumRowsPerBlock maxBytesPerBlock
  rw [ho, DelegatingBlockBuilder.numRows_eq]
  simp [OutputBlockSizeOption.ofRows]

/-! ### Runs of a buffer -/

/-- One operation of a legal run: `next` if `has_next`, and nothing is added after `finalize`. -/
def step (sizeBytes : Block α → ℕ) (q : BlockOutputBuffer α) :
    BatcherOp α → Except PyError (BlockOutputBuffer α × List (Block α))
  | .add block =>
    if q.finalized then .ok (q, [])
    else do
      let q ← q.addBlock sizeBytes block
      .ok (q, [])
  | .nextBatch =>
    if q.hasNext then do
      let r ← q.next sizeBytes
      .ok (r.2, [r.1])
    else .ok (q, [])
  | .doneAdding =>
    if q.finalized then .ok (q, [])
    else do
      let q ← q.finalize
      .ok (q, [])

/-- What was put out and the buffer make up the added rows. -/
structure Inv (sizeBytes : Block α → ℕ) (ops : List (BatcherOp α)) (q : BlockOutputBuffer α)
    (out : List (Block α)) : Prop where
  usable : Usable sizeBytes q.outputBlockSizeOption
  done : q.finalized = isDone ops
  rows : blockRows out ++ q.buffer.rows = blockRows (addedBlocks ops)
  yielded : q.hasYieldedBlocks = true ↔ out ≠ []

variable {fmt : BlockFormat} {ops : List (BatcherOp α)} {out : List (Block α)}

theorem inv_init {option : Option OutputBlockSizeOption} (hu : Usable sizeBytes option) :
    Inv sizeBytes [] (init option) [] := ⟨hu, rfl, rfl, by simp [init]⟩

variable (sizeBytes) in
theorem addBlock_spec (hq : q.finalized = false) (hf : q.buffer.HasFormat fmt) {block : Block α}
    (hb : block.rows ≠ [] → block.format = fmt) :
    ∃ q', q.addBlock sizeBytes block = .ok q' ∧ q'.buffer.HasFormat fmt ∧
      q'.buffer.rows = q.buffer.rows ++ block.rows ∧ q'.finalized = false ∧
      q'.hasYieldedBlocks = q.hasYieldedBlocks ∧
      q'.outputBlockSizeOption = q.outputBlockSizeOption := by
  obtain ⟨buffer, hadd, hbf⟩ := DelegatingBlockBuilder.addBlock_eq_ok hf hb
  rw [addBlock, hq, Bool.not_false, pyAssert_true, ok_bind, hadd]
  exact ⟨_, rfl, hbf, DelegatingBlockBuilder.rows_addBlock hadd, rfl, rfl, rfl⟩

theorem finalize_eq (hq : q.finalized = false) : q.finalize = .ok { q with finalized := true } := by
  rw [finalize, hq, Bool.not_false, pyAssert_true, ok_bind]

variable {o : List (Block α)}

theorem inv_step {q' : BlockOutputBuffer α} {op : BatcherOp α}
    (h : Inv sizeBytes ops q out) (hstep : q.step sizeBytes op = .ok (q', o)) :
    Inv sizeBytes (ops ++ [op]) q' (out ++ o) := by
  have hskip : ∀ {op : BatcherOp α} {q' : BlockOutputBuffer α},
      q' = { q with finalized := isDone (ops ++ [op]) } →
      addedBlocks (ops ++ [op]) = addedBlocks ops → Inv sizeBytes (ops ++ [op]) q' (out ++ []) := by
    rintro op q' rfl ha
    rw [List.append_nil]
    exact ⟨h.usable, rfl, ha.symm ▸ h.rows, h.yielded⟩
  cases op with
  | add block =>
    rw [step] at hstep
    split_ifs at hstep with hfin
    · cases hstep
      exact hskip (by rw [isDone_snoc_add, ← h.done])
        (addedBlocks_of_isDone (h.done.symm.trans hfin) _)
    · obtain ⟨q₁, hadd, hstep⟩ := bind_eq_ok.mp hstep
      cases hstep
      obtain ⟨-, -, hadd⟩ := bind_eq_ok.mp hadd
      obtain ⟨buffer, hbuffer, hadd⟩ := bind_eq_ok.mp hadd
      cases hadd
      have hdone : isDone ops = false := h.done.symm.trans (Bool.eq_false_iff.mpr hfin)
      refine ⟨h.usable, by rw [isDone_snoc_add]; exact h.done, ?_, ?_⟩
      · rw [addedBlocks_snoc_add hdone, List.append_nil,
          DelegatingBlockBuilder.rows_addBlock hbuffer, ← List.append_assoc, h.rows,
          blockRows_append, blockRows_cons, blockRows_nil, List.append_nil]
      · rw [List.append_nil]
        exact h.yielded
  | nextBatch =>
    rw [step] at hstep
    split_ifs at hstep with hnext
    · obtain ⟨r, hr, hstep⟩ := bind_eq_ok.mp hstep
      cases hstep
      obtain ⟨b, q₁, hq₁, hsplit, -, hyield, hfin, hopt, -⟩ := next_spec h.usable hnext
      rw [hq₁] at hr
      cases hr
      refine ⟨by rw [hopt]; exact h.usable, by rw [isDone_snoc_nextBatch, hfin, h.done], ?_, ?_⟩
      · rw [addedBlocks_snoc_nextBatch, blockRows_append, blockRows_cons, blockRows_nil,
          List.append_nil, List.append_assoc, hsplit, h.rows]
      · simp [hyield]
    · cases hstep
      exact hskip (by rw [isDone_snoc_nextBatch, ← h.done]) (addedBlocks_snoc_nextBatch ops)
  | doneAdding =>
    have hq' : q' = { q with finalized := true } ∧ o = [] := by
      rw [step] at hstep
      split_ifs at hstep with hfin
      · cases hstep
        exact ⟨by rw [← hfin], rfl⟩
      · rw [finalize_eq (Bool.eq_false_iff.mpr hfin)] at hstep
        cases hstep
        exact ⟨rfl, rfl⟩
    obtain ⟨rfl, rfl⟩ := hq'
    exact hskip (by rw [isDone_snoc_doneAdding]) (addedBlocks_doneAdding ops [])

/-- The only operation that fails is to add a block with rows to a table of the other format. -/
theorem Inv.step_eq_ok_iff (h : Inv sizeBytes ops q out) (op : BatcherOp α) :
    (∃ r, q.step sizeBytes op = .ok r) ↔
      (isDone ops = false → ∀ block, op = .add block → block.rows ≠ [] →
        q.buffer.HasFormat block.format) := by
  cases op with
  | add block =>
    rw [step]
    split_ifs with hfin
    · rw [h.done] at hfin
      exact ⟨fun _ hopen => absurd hfin (by rw [hopen]; simp), fun _ => ⟨_, rfl⟩⟩
    · have hopen : q.finalized = false := Bool.eq_false_iff.mpr hfin
      constructor
      · rintro ⟨r, hr⟩ - block' heq hne
        cases heq
        obtain ⟨q₁, hadd, -⟩ := bind_eq_ok.mp hr
        obtain ⟨-, -, hadd⟩ := bind_eq_ok.mp hadd
        obtain ⟨buffer, hbuffer, -⟩ := bind_eq_ok.mp hadd
        obtain ⟨fmt, hfmt⟩ := buffer.exists_hasFormat
        obtain ⟨hold, hblock⟩ := DelegatingBlockBuilder.addBlock_format hbuffer hfmt
        rwa [hblock hne]
      · intro hsame
        have hadd : ∃ q', q.addBlock sizeBytes block = .ok q' := by
          by_cases hne : block.rows = []
          · obtain ⟨fmt, hfmt⟩ := q.buffer.exists_hasFormat
            obtain ⟨q', hadd, -⟩ := addBlock_spec sizeBytes hopen hfmt (absurd hne)
            exact ⟨q', hadd⟩
          · obtain ⟨q', hadd, -⟩ := addBlock_spec sizeBytes hopen
              (hsame (h.done.symm.trans hopen) block rfl hne) (fun _ => rfl)
            exact ⟨q', hadd⟩
        obtain ⟨q', hadd⟩ := hadd
        rw [hadd]
        exact ⟨_, rfl⟩
  | nextBatch =>
    refine ⟨fun _ _ _ heq => (nomatch heq), fun _ => ?_⟩
    rw [step]
    split_ifs with hnext
    · obtain ⟨b, q', hq', -⟩ := next_spec h.usable hnext
      rw [hq']
      exact ⟨_, rfl⟩
    · exact ⟨_, rfl⟩
  | doneAdding =>
    refine ⟨fun _ _ _ heq => (nomatch heq), fun _ => ?_⟩
    rw [step]
    split_ifs with hfin
    · exact ⟨_, rfl⟩
    · rw [finalize_eq (Bool.eq_false_iff.mpr hfin)]
      exact ⟨_, rfl⟩

/-- What the drain loop uses up: rows, and the one block that is always put out. -/
def remaining (q : BlockOutputBuffer α) : ℕ :=
  q.buffer.rows.length + if q.hasYieldedBlocks then 0 else 1

theorem hasNext_of_rows_nil (hnil : q.buffer.rows = []) :
    q.hasNext = (q.finalized && !q.hasYieldedBlocks) := by
  have hzero : q.buffer.numRows = 0 := by
    rw [DelegatingBlockBuilder.numRows_eq, hnil]
    rfl
  have hlimit : q.exceededBufferRowLimit = false ∧ q.exceededBufferSizeLimit = false := by
    unfold exceededBufferRowLimit exceededBufferSizeLimit getEstimatedMemoryUsage
    rw [hzero]
    cases q.maxNumRowsPerBlock <;> cases q.maxBytesPerBlock <;> simp
  unfold hasNext
  rw [hzero, hlimit.1, hlimit.2]
  cases q.finalized <;> cases q.outputBlockSizeOption <;> simp

theorem remaining_pos (hnext : q.hasNext = true) : 0 < q.remaining := by
  by_contra hno
  unfold remaining at hno
  have hrows : q.buffer.rows = [] := List.length_eq_zero_iff.mp (by omega)
  have hyield : q.hasYieldedBlocks = true := by
    by_contra hnot
    rw [if_neg hnot] at hno
    omega
  rw [hasNext_of_rows_nil hrows, hyield] at hnext
  simp at hnext

variable {q' : BlockOutputBuffer α}

theorem next_drains (hu : Usable sizeBytes q.outputBlockSizeOption) (hnext : q.hasNext = true)
    {b : Block α} (h : q.next sizeBytes = .ok (b, q')) :
    q'.remaining ≤ q.remaining - 1 := by
  obtain ⟨b₁, q₁, hq', hsplit, hempty, hyield, -⟩ := next_spec hu hnext
  rw [h] at hq'
  cases hq'
  have hlen := congrArg List.length hsplit
  rw [List.length_append] at hlen
  unfold remaining
  rw [hyield, if_pos rfl]
  by_cases hnil : q.buffer.rows = []
  · have hno : q.hasYieldedBlocks = false := by
      rw [hasNext_of_rows_nil hnil, Bool.and_eq_true, Bool.not_eq_true'] at hnext
      exact hnext.2
    rw [hno, hnil, if_neg (by simp)]
    rw [hnil, List.length_nil] at hlen
    omega
  · have hb : 0 < b.rows.length := List.length_pos_iff.mpr (fun h => hnil (hempty h))
    split_ifs <;> omega

theorem step_drains (hQ : Usable sizeBytes q.outputBlockSizeOption)
    (hstep : q.step sizeBytes .nextBatch = .ok (q', o)) :
    Usable sizeBytes q'.outputBlockSizeOption ∧
      (if q'.hasNext then q'.remaining else 0) ≤ (if q.hasNext then q.remaining else 0) - 1 := by
  rw [step] at hstep
  split_ifs at hstep with hnext
  · obtain ⟨r, hr, hstep⟩ := bind_eq_ok.mp hstep
    cases hstep
    have hlt := next_drains hQ hnext hr
    obtain ⟨b₁, q₁, hq', -, -, -, -, hopt, -⟩ := next_spec hQ hnext
    rw [hr] at hq'
    cases hq'
    refine ⟨by rw [hopt]; exact hQ, ?_⟩
    rw [if_pos hnext]
    split_ifs
    · exact hlt
    · exact Nat.zero_le _
  · cases hstep
    refine ⟨hQ, ?_⟩
    rw [if_neg hnext]

theorem hasNext_drained (hu : Usable sizeBytes q.outputBlockSizeOption) {k : ℕ}
    (hk : q.remaining ≤ k)
    (hrun : runSteps (step sizeBytes) q (List.replicate k .nextBatch) = .ok (q', o)) :
    q'.hasNext = false := by
  have hzero := runSteps_replicate
    (m := fun q : BlockOutputBuffer α => if q.hasNext then q.remaining else 0)
    (fun _ _ _ => step_drains) hu hrun
  by_contra hnext
  rw [Bool.not_eq_false] at hnext
  have hpos := remaining_pos hnext
  split_ifs at hzero <;> omega

end BlockOutputBuffer

theorem addedBlocks_replicate (ops : List (BatcherOp α)) (k : ℕ) :
    addedBlocks (ops ++ List.replicate k .nextBatch) = addedBlocks ops := by
  induction k generalizing ops with
  | zero => rw [List.replicate_zero, List.append_nil]
  | succ k ih => rw [List.replicate_succ', ← List.append_assoc, addedBlocks_snoc_nextBatch, ih]

namespace BlockOutputBuffer

section drained
variable {sizeBytes : Block α → ℕ} {ops : List (BatcherOp α)} {q : BlockOutputBuffer α}
  {out : List (Block α)} {k : ℕ}

/-- Draining in the middle of a run: the loop ends, whether the buffer is finalized or not. -/
theorem Inv.drain (h : Inv sizeBytes ops q out) (hk : q.buffer.rows.length + 1 ≤ k) :
    ∃ q' o, runSteps (step sizeBytes) q (List.replicate k .nextBatch) = .ok (q', o) ∧
      q'.hasNext = false ∧ Inv sizeBytes (ops ++ List.replicate k .nextBatch) q' (out ++ o) := by
  obtain ⟨q', o, hrun, hinv⟩ : ∃ q' o,
      runSteps (step sizeBytes) q (List.replicate k .nextBatch) = .ok (q', o) ∧
        Inv sizeBytes (ops ++ List.replicate k .nextBatch) q' (out ++ o) := by
    refine runSteps_ok (P := fun done q' o => Inv sizeBytes (ops ++ done) q' (out ++ o)) ?_ ?_
    · rwa [List.append_nil, List.append_nil]
    · intro done op rest q' o hops hinv
      have hop : op = .nextBatch := List.eq_of_mem_replicate (n := k) (by rw [hops]; simp)
      subst hop
      obtain ⟨⟨q₁, o₁⟩, hstep⟩ := (hinv.step_eq_ok_iff .nextBatch).mpr (fun _ _ heq => nomatch heq)
      refine ⟨q₁, o₁, hstep, ?_⟩
      rw [← List.append_assoc, ← List.append_assoc]
      exact inv_step hinv hstep
  have hremaining : q.remaining ≤ k := by
    unfold remaining
    split_ifs <;> omega
  exact ⟨q', o, hrun, hasNext_drained h.usable hremaining hrun, hinv⟩

/-- A finalized buffer without a next block put out all rows, in at least one block. -/
theorem Inv.complete (h : Inv sizeBytes ops q out) (hdone : isDone ops = true)
    (hnext : q.hasNext = false) : out ≠ [] ∧ blockRows out = blockRows (addedBlocks ops) := by
  rw [hasNext, h.done, hdone, if_pos rfl, Bool.or_eq_false_iff, Bool.not_eq_false'] at hnext
  have hnil : q.buffer.rows = [] := by
    apply List.length_eq_zero_iff.mp
    rw [← DelegatingBlockBuilder.numRows_eq]
    exact Nat.eq_zero_of_not_pos (of_decide_eq_false hnext.2)
  have hrows := h.rows
  rw [hnil, List.append_nil] at hrows
  exact ⟨h.yielded.mp hnext.1, hrows⟩

/-- After every run that did not fail the drain loop ends, before `finalize` and after it; then
nothing is lost and at least one block was put out. -/
theorem Inv.drained (h : Inv sizeBytes ops q out) (hk : q.buffer.rows.length + 1 ≤ k) :
    (∃ q' o, runSteps (step sizeBytes) q (List.replicate k .nextBatch) = .ok (q', o) ∧
      q'.hasNext = false) ∧
    ∃ q' o, runSteps (step sizeBytes) q (.doneAdding :: List.replicate k .nextBatch) = .ok (q', o) ∧
      q'.hasNext = false ∧ out ++ o ≠ [] ∧ blockRows (out ++ o) = blockRows (addedBlocks ops) := by
  constructor
  · obtain ⟨q', o, hrun, hnext, -⟩ := h.drain hk
    exact ⟨q', o, hrun, hnext⟩
  · obtain ⟨⟨q₁, o₁⟩, hfin⟩ := (h.step_eq_ok_iff .doneAdding).mpr (fun _ _ heq => nomatch heq)
    have hinv := inv_step h hfin
    have hrows : q₁.buffer = q.buffer ∧ o₁ = [] := by
      rw [step] at hfin
      split_ifs at hfin with hopen
      · cases hfin
        exact ⟨rfl, rfl⟩
      · rw [finalize_eq (Bool.eq_false_iff.mpr hopen)] at hfin
        cases hfin
        exact ⟨rfl, rfl⟩
    obtain ⟨q', o, hrun, hnext, hinv'⟩ := hinv.drain (k := k) (by rwa [hrows.1])
    have hdone : isDone (ops ++ [.doneAdding] ++ List.replicate k .nextBatch) = true := by
      rw [isDone_append, isDone_snoc_doneAdding, Bool.true_or]
    obtain ⟨hne, hall⟩ := hinv'.complete hdone hnext
    rw [addedBlocks_replicate, addedBlocks_doneAdding] at hall
    rw [hrows.2, List.append_nil] at hne hall
    refine ⟨q', o, runSteps_cons_eq_ok.mpr ⟨q₁, [], o, ?_, hrun, rfl⟩, hnext, hne, hall⟩
    rw [hfin, hrows.2]

end drained

end BlockOutputBuffer

end RayTfm.Data
