import RayTfm.Data.Batcher
import RayTfm.Data.BundleQueue
import RayTfm.Lib.Mixing

/-! # Limits

`LimitOperator` of `limit_operator.py`, which cuts the stream of bundles after `limit` rows, and
`_per_block_limit_fn` of `map_operator.py`, which limits pushdown adds at the end of every map task
in front of it.  The operator counts over the whole stream, the limiter over the blocks of its own
task.

A reference to a block is modelled by the block, and the remote call that slices one by its result.
The executor never adds an input to an operator that has completed, it drops the bundle instead. -/

namespace RayTfm.Data

variable {α : Type}

/-! ### The limiter of a task -/

/-- The body of the loop of `_per_block_limit_fn`, on a block that is not behind the limit: what is
yielded, and the rows processed then. -/
def limitBlock (perBlockLimit processedRows : ℕ) (block : Block α) : Except PyError (Block α × ℕ) :=
  let blockRows := block.rows.length
  if processedRows + blockRows ≤ perBlockLimit then .ok (block, processedRows + blockRows)
  else do
    let remainingRows := perBlockLimit - processedRows
    let truncatedBlock ← block.slice 0 (some (remainingRows : ℤ))
    .ok (truncatedBlock, processedRows + remainingRows)

/-- The loop of `_per_block_limit_fn` over the blocks of the task. -/
def perBlockLimitLoop (perBlockLimit : ℕ) : ℕ → List (Block α) → Except PyError (List (Block α))
  | _, [] => .ok []
  | processedRows, block :: input =>
    if perBlockLimit ≤ processedRows then .ok []
    else do
      let r ← limitBlock perBlockLimit processedRows block
      let rest ← perBlockLimitLoop perBlockLimit r.2 input
      .ok (r.1 :: rest)

/-- `_per_block_limit_fn`. -/
def perBlockLimitFn (input : List (Block α)) (perBlockLimit : ℕ) : Except PyError (List (Block α)) :=
  perBlockLimitLoop perBlockLimit 0 input

/-- The blocks of many tasks as they arrive, each task with a limiter that has processed the given
number of rows. -/
def limitArrivals (perBlockLimit : ℕ) :
    (ℕ → ℕ) → List (ℕ × Block α) → Except PyError (List (ℕ × Block α))
  | _, [] => .ok []
  | processedRows, (task, block) :: arrivals =>
    if perBlockLimit ≤ processedRows task then limitArrivals perBlockLimit processedRows arrivals
    else do
      let r ← limitBlock perBlockLimit (processedRows task) block
      let rest ← limitArrivals perBlockLimit (Function.update processedRows task r.2) arrivals
      .ok ((task, r.1) :: rest)

theorem limitBlock_eq {perBlockLimit processedRows : ℕ} (h : processedRows < perBlockLimit)
    (block : Block α) :
    limitBlock perBlockLimit processedRows block =
      .ok ({ block with rows := block.rows.take (perBlockLimit - processedRows) },
        min perBlockLimit (processedRows + block.rows.length)) := by
  unfold limitBlock
  by_cases hfit : processedRows + block.rows.length ≤ perBlockLimit
  · have htake : block.rows.take (perBlockLimit - processedRows) = block.rows :=
      List.take_of_length_le (by omega)
    rw [if_pos hfit, htake, Nat.min_eq_right hfit]
  · have hslice := slice_eq block (Nat.zero_le _)
      (show perBlockLimit - processedRows ≤ block.rows.length by omega)
    rw [Nat.cast_zero, segment_zero] at hslice
    have hall : processedRows + (perBlockLimit - processedRows) = perBlockLimit := by omega
    rw [if_neg hfit]
    simp only [hslice, ok_bind, hall]
    rw [Nat.min_eq_left (by omega)]

/-- Of every task arrives what its limiter yields, in the order of arrival. -/
theorem limitArrivals_spec (perBlockLimit : ℕ) :
    ∀ (arrivals : List (ℕ × Block α)) (processedRows : ℕ → ℕ),
      ∃ out, limitArrivals perBlockLimit processedRows arrivals = .ok out ∧
        ∀ task, perBlockLimitLoop perBlockLimit (processedRows task) (takenFrom task arrivals) =
          .ok (takenFrom task out)
  | [], _ => ⟨[], rfl, fun _ => rfl⟩
  | (task, block) :: arrivals, processedRows => by
    rw [limitArrivals]
    by_cases hdone : perBlockLimit ≤ processedRows task
    · obtain ⟨out, hout, hproj⟩ := limitArrivals_spec perBlockLimit arrivals processedRows
      refine ⟨out, by rw [if_pos hdone, hout], fun i => ?_⟩
      rw [takenFrom_cons]
      by_cases hi : task = i
      · -- the generator of this task has ended
        subst hi
        have hended : ∀ input, perBlockLimitLoop perBlockLimit (processedRows task) input =
            (.ok [] : Except PyError (List (Block α))) := by
          intro input
          cases input with
          | nil => rfl
          | cons block input => exact if_pos hdone
        rw [hended, ← hproj task, hended]
      · rw [if_neg hi, hproj i]
    · have hcut := limitBlock_eq (Nat.lt_of_not_le hdone) block
      obtain ⟨out, hout, hproj⟩ := limitArrivals_spec perBlockLimit arrivals
        (Function.update processedRows task
          (min perBlockLimit (processedRows task + block.rows.length)))
      refine ⟨(task, { block with rows := block.rows.take (perBlockLimit - processedRows task) }) ::
        out,
        by rw [if_neg hdone, hcut, ok_bind, hout, ok_bind], fun i => ?_⟩
      have hi := hproj i
      rw [takenFrom_cons, takenFrom_cons]
      by_cases htask : task = i
      · subst htask
        rw [Function.update_self] at hi
        rw [if_pos rfl, if_pos rfl, perBlockLimitLoop, if_neg hdone, hcut, ok_bind, hi, ok_bind]
      · rw [Function.update_of_ne (Ne.symm htask)] at hi
        rw [if_neg htask, if_neg htask, hi]

/-- With limiters that still let `k` more rows of every task through, the first `k` rows to arrive
are the same as without. -/
theorem limitArrivals_take (perBlockLimit : ℕ) :
    ∀ (arrivals : List (ℕ × Block α)) (processedRows : ℕ → ℕ) (k : ℕ),
      (∀ task, k ≤ perBlockLimit - processedRows task) →
      ∃ out, limitArrivals perBlockLimit processedRows arrivals = .ok out ∧
        (blockRows (out.map Prod.snd)).take k = (blockRows (arrivals.map Prod.snd)).take k
  | [], _, _, _ => ⟨[], rfl, rfl⟩
  | (task, block) :: arrivals, processedRows, k, hk => by
    have htask := hk task
    rw [limitArrivals, List.map_cons, blockRows_cons, List.take_append]
    by_cases hdone : perBlockLimit ≤ processedRows task
    · obtain ⟨out, hout, -⟩ := limitArrivals_spec perBlockLimit arrivals processedRows
      have hzero : k = 0 := by omega
      subst hzero
      exact ⟨out, by rw [if_pos hdone, hout], by simp⟩
    · have hcut := limitBlock_eq (Nat.lt_of_not_le hdone) block
      -- a row of another task fills one of the `k` places as well
      obtain ⟨out, hout, htake⟩ := limitArrivals_take perBlockLimit arrivals
        (Function.update processedRows task
          (min perBlockLimit (processedRows task + block.rows.length)))
        (k - block.rows.length) (by
          intro i
          by_cases hi : i = task
          · subst hi
            rw [Function.update_self]
            omega
          · rw [Function.update_of_ne hi]
            have := hk i
            omega)
      refine ⟨(task, { block with rows := block.rows.take (perBlockLimit - processedRows task) }) ::
        out,
        by rw [if_neg hdone, hcut, ok_bind, hout, ok_bind], ?_⟩
      rw [List.map_cons, blockRows_cons, List.take_append, List.take_take, Nat.min_eq_left htask,
        ← htake, List.length_take]
      by_cases hle : k ≤ block.rows.length
      · rw [Nat.sub_eq_zero_of_le hle, List.take_zero,
          Nat.sub_eq_zero_of_le
            (by omega : k ≤ min (perBlockLimit - processedRows task) block.rows.length),
          List.take_zero]
      · rw [Nat.min_eq_right (by omega : block.rows.length ≤ perBlockLimit - processedRows task)]

/-! ### The operator -/

/-- Statistics about a block; times are left out. -/
structure BlockStats where
  numRows : Option ℕ
  sizeBytes : Option ℕ
deriving DecidableEq, Repr

def BlockMetadata.toStats (m : BlockMetadata) : BlockStats := ⟨m.numRows, m.sizeBytes⟩

structure LimitOperator (α : Type) where
  limit : ℕ
  consumedRows : ℕ
  buffer : List (RefBundle (Block α))
  outputBlocksStats : List BlockStats
  curOutputBundles : ℕ
  estimatedNumOutputBundles : Option ℤ
  inputsComplete : Bool
  executionMarkedFinished : Bool

/-- The variables of the loop of `_add_input_inner`. -/
structure LimitLoop (α : Type) where
  outBlocks : List (Block α)
  outMetadata : List BlockMetadata
  outputBlocksStats : List BlockStats
  consumedRows : ℕ

namespace LimitOperator

def init (limit : ℕ) : LimitOperator α where
  limit := limit
  consumedRows := 0
  buffer := []
  outputBlocksStats := []
  curOutputBundles := 0
  estimatedNumOutputBundles := none
  inputsComplete := false
  executionMarkedFinished := decide (limit ≤ 0)

def limitReached (s : LimitOperator α) : Bool := decide (s.limit ≤ s.consumedRows)

def hasNext (s : LimitOperator α) : Bool := !s.buffer.isEmpty

/-- The operator has no tasks and no internal queues. -/
def hasExecutionFinished (s : LimitOperator α) : Bool := s.executionMarkedFinished || s.inputsComplete

def hasCompleted (s : LimitOperator α) : Bool := s.hasExecutionFinished && !s.hasNext

def markExecutionFinished (s : LimitOperator α) : LimitOperator α :=
  { s with executionMarkedFinished := true }

def allInputsDone (s : LimitOperator α) : LimitOperator α := { s with inputsComplete := true }

def getNext (s : LimitOperator α) : Except PyError (RefBundle (Block α) × LimitOperator α) :=
  match s.buffer with
  | [] => .error .indexError
  | output :: buffer => .ok (output, { s with buffer })

section inputs
variable (sizeBytes : Block α → ℕ)

/-- `slice_fn`, the remote call for the last block. -/
def sliceFn (block : Block α) (m : BlockMetadata) (numRows : ℕ) :
    Except PyError (Block α × BlockMetadata) := do
  let block ← block.slice 0 (some (numRows : ℤ))
  .ok (block, { m with numRows := some numRows, sizeBytes := some (sizeBytes block) })

/-- The loop of `_add_input_inner` over the blocks of the bundle. -/
def limitLoop (limit : ℕ) :
    List (BlockEntry (Block α)) → LimitLoop α → Except PyError (LimitLoop α)
  | [], st => .ok st
  | entry :: entries, st =>
    match entry.metadata.numRows with
    | none => .error .assertionError
    | some numRows =>
      if st.consumedRows + numRows ≤ limit then
        limitLoop limit entries
          { outBlocks := st.outBlocks ++ [entry.ref]
            outMetadata := st.outMetadata ++ [entry.metadata]
            outputBlocksStats := st.outputBlocksStats ++ [entry.metadata.toStats]
            consumedRows := st.consumedRows + numRows }
      else do
        let r ← sliceFn sizeBytes entry.ref entry.metadata (limit - st.consumedRows)
        .ok
          { outBlocks := st.outBlocks ++ [r.1]
            outMetadata := st.outMetadata ++ [r.2]
            outputBlocksStats := st.outputBlocksStats ++ [r.2.toStats]
            consumedRows := limit }

/-- The new estimate of the number of output bundles, once some rows are consumed and the number of
bundles that come in is known. -/
def estimate (s : LimitOperator α) (numInputs : Option ℕ) : Option ℤ :=
  match numInputs with
  | some numInputs =>
    if 0 < s.consumedRows then
      let estimatedTotalOutputRows : ℚ :=
        min s.limit ((s.consumedRows : ℚ) / s.curOutputBundles * numInputs)
      some (RefBundle.roundHalfEven
        (estimatedTotalOutputRows / s.consumedRows * s.curOutputBundles))
    else s.estimatedNumOutputBundles
  | none => s.estimatedNumOutputBundles

/-- The end of `_add_input_inner`: the bundle is queued, and the limit may be reached. -/
def queueOutput (s : LimitOperator α) (numInputs : Option ℕ) (st : LimitLoop α)
    (outRefs : RefBundle (Block α)) : LimitOperator α :=
  let s : LimitOperator α :=
    { s with
      consumedRows := st.consumedRows
      buffer := s.buffer ++ [outRefs]
      outputBlocksStats := st.outputBlocksStats
      curOutputBundles := s.curOutputBundles + 1 }
  let s := if s.limitReached then s.markExecutionFinished else s
  { s with estimatedNumOutputBundles := s.estimate numInputs }

/-- `_add_input_inner`; `numInputs` is what the input operator gives as its number of outputs. -/
def addInput (s : LimitOperator α) (numInputs : Option ℕ) (refs : RefBundle (Block α)) :
    Except PyError (LimitOperator α) := do
  pyAssert (!s.hasCompleted)
  if s.limitReached then .ok s
  else
    let st ← limitLoop sizeBytes s.limit (refs.blocks.map Prod.fst)
      ⟨[], [], s.outputBlocksStats, s.consumedRows⟩
    let outRefs ← RefBundle.make
      ((st.outBlocks.zip st.outMetadata).map (fun p => (⟨p.1, p.2⟩, none))) refs.schema refs.ownsBlocks
    .ok (s.queueOutput numInputs st outRefs)

/-- The executor at work on the operator: a bundle for an operator that has completed is dropped.
`numOutputsTotal` is what the input operator answers after so many output bundles. -/
def step (numOutputsTotal : ℕ → Option ℕ) (s : LimitOperator α) :
    BundleOp (Block α) → Except PyError (LimitOperator α × List (RefBundle (Block α)))
  | .add refs =>
    if s.hasCompleted then .ok (s, [])
    else do
      let s ← s.addInput sizeBytes (numOutputsTotal s.curOutputBundles) refs
      .ok (s, [])
  | .getNext =>
    if s.hasNext then do
      let r ← s.getNext
      .ok (r.2, [r.1])
    else .ok (s, [])

end inputs

/-! ### What a bundle adds -/

/-- A full block with its row count and its size on record. -/
def Recorded (e : SlicedEntry (Block α)) : Prop :=
  e.2 = none ∧ e.1.metadata.numRows = some e.1.ref.rows.length ∧
    e.1.metadata.sizeBytes.isSome = true

/-- The rows of some entries, whole blocks. -/
def entriesRows (l : List (BlockEntry (Block α))) : List α := blockRows (l.map BlockEntry.ref)

@[simp] theorem entriesRows_nil : entriesRows ([] : List (BlockEntry (Block α))) = [] := rfl

@[simp] theorem entriesRows_cons (entry : BlockEntry (Block α)) (l : List (BlockEntry (Block α))) :
    entriesRows (entry :: l) = entry.ref.rows ++ entriesRows l := rfl

theorem content_eq_entriesRows {l : List (SlicedEntry (Block α))} (h : ∀ e ∈ l, e.2 = none) :
    RefBundle.content Block.rows l = entriesRows (l.map Prod.fst) := by
  induction l with
  | nil => rfl
  | cons e l ih =>
    obtain ⟨entry, s⟩ := e
    have hnone : s = none := h _ (.head _)
    subst hnone
    rw [RefBundle.content_cons, List.map_cons, entriesRows_cons, ih (fun e he => h e (.tail _ he))]
    rfl

theorem sliceFn_eq (sizeBytes : Block α → ℕ) {block : Block α} (m : BlockMetadata) {numRows : ℕ}
    (h : numRows ≤ block.rows.length) :
    sliceFn sizeBytes block m numRows =
      .ok ({ block with rows := block.rows.take numRows },
        { m with
          numRows := some numRows
          sizeBytes := some (sizeBytes { block with rows := block.rows.take numRows }) }) := by
  have hslice := slice_eq block (Nat.zero_le numRows) h
  rw [Nat.cast_zero, segment_zero] at hslice
  rw [sliceFn, hslice, ok_bind]

/-- The loop takes the rows up to the limit; the blocks, the metadata and the statistics that it
adds belong together. -/
theorem limitLoop_spec (sizeBytes : Block α → ℕ) (limit : ℕ) :
    ∀ {entries : List (BlockEntry (Block α))} (st : LimitLoop α),
      (∀ entry ∈ entries, Recorded (entry, none)) → st.consumedRows ≤ limit →
      ∃ new : List (BlockEntry (Block α)),
        limitLoop sizeBytes limit entries st = .ok
          { outBlocks := st.outBlocks ++ new.map BlockEntry.ref
            outMetadata := st.outMetadata ++ new.map BlockEntry.metadata
            outputBlocksStats := st.outputBlocksStats ++ new.map (fun e => e.metadata.toStats)
            consumedRows := st.consumedRows + (entriesRows new).length } ∧
        (∀ entry ∈ new, Recorded (entry, none)) ∧
        entriesRows new = (entriesRows entries).take (limit - st.consumedRows)
  | [], st, _, _ => ⟨[], by simp [limitLoop], nofun, by simp⟩
  | entry :: entries, st, hentries, hle => by
    have hentry := hentries entry (.head _)
    have hnumRows : entry.metadata.numRows = some entry.ref.rows.length := hentry.2.1
    unfold limitLoop
    rw [entriesRows_cons, List.take_append]
    simp only [hnumRows]
    by_cases hfit : st.consumedRows + entry.ref.rows.length ≤ limit
    · obtain ⟨new, hloop, hnew, hrows⟩ := limitLoop_spec sizeBytes limit
        (⟨st.outBlocks ++ [entry.ref], st.outMetadata ++ [entry.metadata],
          st.outputBlocksStats ++ [entry.metadata.toStats], st.consumedRows + entry.ref.rows.length⟩)
        (fun e he => hentries e (.tail _ he)) hfit
      refine ⟨entry :: new, ?_, List.forall_mem_cons.mpr ⟨hentries _ (.head _), hnew⟩, ?_⟩
      · rw [if_pos hfit, hloop]
        simp [Nat.add_assoc]
      · have htake : entry.ref.rows.take (limit - st.consumedRows) = entry.ref.rows :=
          List.take_of_length_le (by omega)
        rw [entriesRows_cons, hrows, htake, Nat.sub_add_eq]
    · -- the limit is inside this block
      have hcut : limit - st.consumedRows ≤ entry.ref.rows.length := by omega
      have hlength : (entry.ref.rows.take (limit - st.consumedRows)).length =
          limit - st.consumedRows := List.length_take_of_le hcut
      refine ⟨[⟨{ entry.ref with rows := entry.ref.rows.take (limit - st.consumedRows) },
        { entry.metadata with
          numRows := some (limit - st.consumedRows)
          sizeBytes := some (sizeBytes
            { entry.ref with rows := entry.ref.rows.take (limit - st.consumedRows) }) }⟩],
        ?_, List.forall_mem_singleton.mpr ⟨rfl, ?_, rfl⟩, ?_⟩
      · have hall : st.consumedRows + (limit - st.consumedRows) = limit := by omega
        rw [if_neg hfit, sliceFn_eq sizeBytes entry.metadata hcut, ok_bind]
        simp only [List.map_cons, List.map_nil, entriesRows_cons, entriesRows_nil, List.append_nil,
          hlength, hall]
      · rw [hlength]
      · rw [entriesRows_cons, entriesRows_nil, Nat.sub_eq_zero_of_le hcut, List.take_zero]

/-- A queued bundle changes the counters and the buffer, nothing else. -/
theorem queueOutput_spec (s : LimitOperator α) (numInputs : Option ℕ) (st : LimitLoop α)
    (outRefs : RefBundle (Block α)) :
    (s.queueOutput numInputs st outRefs).limit = s.limit ∧
      (s.queueOutput numInputs st outRefs).consumedRows = st.consumedRows ∧
      (s.queueOutput numInputs st outRefs).buffer = s.buffer ++ [outRefs] ∧
      (s.queueOutput numInputs st outRefs).outputBlocksStats = st.outputBlocksStats ∧
      (s.queueOutput numInputs st outRefs).inputsComplete = s.inputsComplete ∧
      (s.queueOutput numInputs st outRefs).executionMarkedFinished =
        (s.executionMarkedFinished || decide (s.limit ≤ st.consumedRows)) := by
  unfold queueOutput limitReached
  by_cases h : s.limit ≤ st.consumedRows
  · simp [h, markExecutionFinished]
  · simp [h]

variable {refs : RefBundle (Block α)}

/-- A bundle with room for more rows: the output bundle takes the rows up to the limit, and nothing
fails. -/
theorem addInput_eq (sizeBytes : Block α → ℕ) (numInputs : Option ℕ) {s : LimitOperator α}
    (hcompleted : s.hasCompleted = false)
    (hrefs : ∀ e ∈ refs.blocks, Recorded e) (hroom : s.consumedRows < s.limit) :
    ∃ (outRefs : RefBundle (Block α)) (st : LimitLoop α),
      s.addInput sizeBytes numInputs refs = .ok (s.queueOutput numInputs st outRefs) ∧
      (∀ e ∈ outRefs.blocks, Recorded e) ∧
      outRefs.rows Block.rows = (refs.rows Block.rows).take (s.limit - s.consumedRows) ∧
      st.consumedRows = s.consumedRows + (outRefs.rows Block.rows).length ∧
      st.outputBlocksStats =
        s.outputBlocksStats ++ outRefs.blocks.map (fun e => e.1.metadata.toStats) := by
  have hentries : ∀ entry ∈ refs.blocks.map Prod.fst, Recorded (entry, none) := by
    intro entry hentry
    obtain ⟨⟨entry', slice⟩, he, rfl⟩ := List.mem_map.mp hentry
    exact ⟨rfl, (hrefs _ he).2⟩
  obtain ⟨new, hloop, hnew, hrows⟩ := limitLoop_spec sizeBytes s.limit
    ⟨[], [], s.outputBlocksStats, s.consumedRows⟩ hentries hroom.le
  have hzip : ((new.map BlockEntry.ref).zip (new.map BlockEntry.metadata)).map
      (fun p => ((⟨p.1, p.2⟩, none) : SlicedEntry (Block α))) = new.map (fun e => (e, none)) := by
    rw [List.zip_map', List.map_map]
    rfl
  have hall : ∀ e ∈ new.map (fun e => ((e, none) : SlicedEntry (Block α))), Recorded e := by
    intro e he
    obtain ⟨entry, hentry, rfl⟩ := List.mem_map.mp he
    exact hnew entry hentry
  obtain ⟨outRefs, hmake, hblocks⟩ := RefBundle.make_eq_ok
    (l := new.map (fun e => ((e, none) : SlicedEntry (Block α))))
    (by
      intro e he t ht
      rw [(hall e he).1] at ht
      cases ht)
    (fun e he => (hall e he).2.2) refs.schema refs.ownsBlocks
  have hfst : outRefs.blocks.map Prod.fst = new := by
    rw [hblocks, List.map_map]
    exact List.map_id _
  have hout : outRefs.rows Block.rows = entriesRows new := by
    rw [RefBundle.rows, content_eq_entriesRows (fun e he => (hall e (hblocks ▸ he)).1), hfst]
  have hin : refs.rows Block.rows = entriesRows (refs.blocks.map Prod.fst) :=
    content_eq_entriesRows (fun e he => (hrefs e he).1)
  have hnot : s.limitReached = false := decide_eq_false (Nat.not_le_of_lt hroom)
  refine ⟨outRefs, ⟨new.map BlockEntry.ref, new.map BlockEntry.metadata,
    s.outputBlocksStats ++ new.map (fun e => e.metadata.toStats),
    s.consumedRows + (entriesRows new).length⟩, ?_, fun e he => hall e (hblocks ▸ he), ?_, ?_, ?_⟩
  · unfold addInput
    rw [hcompleted, Bool.not_false, pyAssert_true, ok_bind, if_neg (by simp [hnot]), hloop, ok_bind]
    simp only [List.nil_append, hzip, hmake, ok_bind]
  · rw [hout, hin, hrows]
  · rw [hout]
  · show s.outputBlocksStats ++ new.map (fun e => e.metadata.toStats) = _
    rw [← hfst, List.map_map]
    rfl

/-! ### Runs -/

/-- After every run: what went out and what waits are the first rows of the input, full blocks with
their metadata and statistics, and the operator is marked finished as soon as the limit is
reached. -/
structure Inv (limit : ℕ) (added : List (RefBundle (Block α))) (s : LimitOperator α)
    (out : List (RefBundle (Block α))) : Prop where
  limit_eq : s.limit = limit
  consumed : s.consumedRows = (rowsOf Block.rows (out ++ s.buffer)).length
  rows : rowsOf Block.rows (out ++ s.buffer) = (rowsOf Block.rows added).take limit
  recorded : ∀ b ∈ out ++ s.buffer, ∀ e ∈ b.blocks, Recorded e
  stats : s.outputBlocksStats =
    ((out ++ s.buffer).flatMap RefBundle.blocks).map (fun e => e.1.metadata.toStats)
  incomplete : s.inputsComplete = false
  finished : s.executionMarkedFinished = s.limitReached

theorem inv_init (limit : ℕ) : Inv limit [] (init limit : LimitOperator α) [] where
  limit_eq := rfl
  consumed := rfl
  rows := List.take_nil.symm
  recorded := nofun
  stats := rfl
  incomplete := rfl
  finished := rfl

variable {limit : ℕ} {added : List (RefBundle (Block α))} {s : LimitOperator α}
  {out : List (RefBundle (Block α))}

theorem Inv.skip (h : Inv limit added s out) (hreached : s.limitReached = true)
    (refs : RefBundle (Block α)) : Inv limit (added ++ [refs]) s out := by
  have hle : s.limit ≤ s.consumedRows := of_decide_eq_true hreached
  rw [h.limit_eq, h.consumed, h.rows, List.length_take] at hle
  refine { h with rows := ?_ }
  rw [h.rows, rowsOf_append, List.take_append_of_le_length (by omega)]

theorem Inv.hasCompleted (h : Inv limit added s out) (hcompleted : s.hasCompleted = true) :
    s.limitReached = true := by
  unfold LimitOperator.hasCompleted hasExecutionFinished at hcompleted
  rw [h.incomplete, Bool.or_false, Bool.and_eq_true] at hcompleted
  rw [← h.finished]
  exact hcompleted.1

theorem Inv.addInput (h : Inv limit added s out) (sizeBytes : Block α → ℕ) (numInputs : Option ℕ)
    (hrefs : ∀ e ∈ refs.blocks, Recorded e) (hcompleted : s.hasCompleted = false) :
    ∃ s', s.addInput sizeBytes numInputs refs = .ok s' ∧ Inv limit (added ++ [refs]) s' out := by
  by_cases hreached : s.limitReached = true
  · refine ⟨s, ?_, h.skip hreached refs⟩
    rw [LimitOperator.addInput, hcompleted, Bool.not_false, pyAssert_true, ok_bind, if_pos hreached]
  · have hroom : s.consumedRows < s.limit := by
      have := of_decide_eq_false (Bool.eq_false_of_not_eq_true hreached)
      omega
    obtain ⟨outRefs, st, hadd, hrec, hrows, hconsumed, hstats⟩ :=
      addInput_eq sizeBytes numInputs hcompleted hrefs hroom
    obtain ⟨hlimit, hconsumed', hbuffer, hstats', hinputs, hmarked⟩ :=
      queueOutput_spec s numInputs st outRefs
    have hlimit' := h.limit_eq
    have hlen := h.consumed
    have hsame : out ++ (s.queueOutput numInputs st outRefs).buffer = (out ++ s.buffer) ++
      [outRefs] := by
      rw [hbuffer, List.append_assoc]
    -- the input so far lies in front of the limit
    have hshort : (rowsOf Block.rows added).length = s.consumedRows := by
      have htake := congrArg List.length h.rows
      rw [List.length_take] at htake
      omega
    refine ⟨_, hadd, hlimit.trans hlimit', ?_, ?_, ?_, ?_, hinputs.trans h.incomplete, ?_⟩
    · rw [hsame, rowsOf_append, rowsOf_singleton, List.length_append, hconsumed', hconsumed, hlen]
    · rw [hsame, rowsOf_append (out ++ s.buffer), rowsOf_singleton, rowsOf_append added,
        rowsOf_singleton, h.rows, hrows, List.take_append, hshort, hlimit']
    · rw [hsame]
      intro b hb
      obtain hb | hb := List.mem_append.mp hb
      · exact h.recorded b hb
      · rw [List.mem_singleton.mp hb]
        exact hrec
    · rw [hsame, hstats', hstats, h.stats]
      simp
    · rw [hmarked, h.finished, Bool.eq_false_of_not_eq_true hreached, Bool.false_or, limitReached,
        hlimit, hconsumed']

theorem Inv.getNext (h : Inv limit added s out) (hnext : s.hasNext = true) :
    ∃ b buffer, s.buffer = b :: buffer ∧ s.getNext = .ok (b, { s with buffer }) ∧
      Inv limit added { s with buffer } (out ++ [b]) := by
  cases hbuffer : s.buffer with
  | nil =>
    rw [hasNext, hbuffer] at hnext
    cases hnext
  | cons b buffer =>
    have hsame : out ++ [b] ++ buffer = out ++ s.buffer := by
      rw [hbuffer, List.append_assoc, List.singleton_append]
    refine ⟨b, buffer, rfl, by rw [LimitOperator.getNext, hbuffer], ?_⟩
    refine ⟨h.limit_eq, ?_, ?_, ?_, ?_, h.incomplete, h.finished⟩
    · rw [hsame]
      exact h.consumed
    · rw [hsame]
      exact h.rows
    · rw [hsame]
      exact h.recorded
    · rw [hsame]
      exact h.stats

/-- No run fails, whatever the order of bundles coming in and going out. -/
theorem run_inv (sizeBytes : Block α → ℕ) (numOutputsTotal : ℕ → Option ℕ) (limit : ℕ)
    {ops : List (BundleOp (Block α))} (hrefs : ∀ b ∈ addedBundles ops, ∀ e ∈ b.blocks, Recorded e) :
    ∃ s out, runSteps (step sizeBytes numOutputsTotal) (init limit) ops = .ok (s, out) ∧
      Inv limit (addedBundles ops) s out := by
  apply runSteps_ok (P := fun done s out => Inv limit (addedBundles done) s out) (inv_init limit)
  rintro done op rest s out rfl h
  cases op with
  | add refs =>
    rw [addedBundles_snoc_add]
    by_cases hcompleted : s.hasCompleted = true
    · refine ⟨s, [], if_pos hcompleted, ?_⟩
      rw [List.append_nil]
      exact h.skip (h.hasCompleted hcompleted) refs
    · obtain ⟨s', hadd, h'⟩ := h.addInput sizeBytes (numOutputsTotal s.curOutputBundles)
        (hrefs refs (mem_addedBundles done rest refs)) (Bool.eq_false_of_not_eq_true hcompleted)
      refine ⟨s', [], ?_, ?_⟩
      · rw [step, if_neg hcompleted, hadd, ok_bind]
      · rwa [List.append_nil]
  | getNext =>
    rw [addedBundles_snoc_getNext]
    by_cases hnext : s.hasNext = true
    · obtain ⟨b, buffer, -, hget, h'⟩ := h.getNext hnext
      exact ⟨_, [b], by rw [step, if_pos hnext, hget, ok_bind], h'⟩
    · refine ⟨s, [], if_neg hnext, ?_⟩
      rwa [List.append_nil]

theorem run_getNext (sizeBytes : Block α → ℕ) (numOutputsTotal : ℕ → Option ℕ)
    (s : LimitOperator α) : ∀ buffer : List (RefBundle (Block α)),
      runSteps (step sizeBytes numOutputsTotal) { s with buffer }
        (List.replicate buffer.length .getNext) = .ok ({ s with buffer := [] }, buffer)
  | [] => rfl
  | b :: buffer => by
    rw [List.length_cons, List.replicate_succ, runSteps_cons_eq_ok]
    exact ⟨{ s with buffer }, [b], buffer, rfl, run_getNext sizeBytes numOutputsTotal s buffer, rfl⟩

theorem recorded_of_counted (hcounted : refs.Counted Block.rows)
    (hfull : ∀ e ∈ refs.blocks, e.2 = none) : ∀ e ∈ refs.blocks, Recorded e := by
  intro e he
  obtain ⟨n, hn⟩ := Option.isSome_iff_exists.mp ((hcounted e he).known (hfull e he))
  refine ⟨hfull e he, ?_, refs.sizes_known e he⟩
  rw [hn, (hcounted e he).count n hn]

end LimitOperator

/-- Every run of `LimitOperator`, whatever the order of bundles coming in and going out: nothing
fails, and the output is the first rows of the input, in full blocks whose metadata and statistics
give their row counts; once the input is complete, the waiting bundles can be taken and the operator
completes. With limiters of at least the limit in the tasks in front of it, however the blocks of
the tasks are mixed and bundled, the output has the same rows.  Bundles that come from another
operator hold full blocks: only `RebundleQueue` makes slices, for its own tasks. -/
theorem limitOperator_run (sizeBytes : Block α → ℕ) (numOutputsTotal : ℕ → Option ℕ) (limit : ℕ)
    (ops : List (BundleOp (Block α)))
    (hcounted : ∀ b ∈ addedBundles ops, b.Counted Block.rows)
    (hfull : ∀ b ∈ addedBundles ops, ∀ e ∈ b.blocks, e.2 = none) :
    ∃ s out, runSteps (LimitOperator.step sizeBytes numOutputsTotal) (.init limit) ops = .ok (s, out) ∧
      rowsOf Block.rows (out ++ s.buffer) = (rowsOf Block.rows (addedBundles ops)).take
        (min limit (rowsOf Block.rows (addedBundles ops)).length) ∧
      (∀ b ∈ out ++ s.buffer, ∀ e ∈ b.blocks,
        e.2 = none ∧ e.1.metadata.numRows = some e.1.ref.rows.length) ∧
      s.outputBlocksStats.map BlockStats.numRows =
        ((out ++ s.buffer).flatMap RefBundle.blocks).map (fun e => some e.1.ref.rows.length) ∧
      (∃ s', runSteps (LimitOperator.step sizeBytes numOutputsTotal) s.allInputsDone
        (List.replicate s.buffer.length .getNext) = .ok (s', s.buffer) ∧ s'.hasCompleted = true) ∧
      ∀ (perBlockLimit : ℕ) (arrivals : List (ℕ × Block α)), limit ≤ perBlockLimit →
        blockRows (arrivals.map Prod.snd) = rowsOf Block.rows (addedBundles ops) →
        ∃ limited, limitArrivals perBlockLimit (fun _ => 0) arrivals = .ok limited ∧
          (∀ task, perBlockLimitFn (takenFrom task arrivals) perBlockLimit =
            .ok (takenFrom task limited)) ∧
          ∀ (numOutputsTotal' : ℕ → Option ℕ) (ops' : List (BundleOp (Block α))),
            (∀ b ∈ addedBundles ops', b.Counted Block.rows) →
            (∀ b ∈ addedBundles ops', ∀ e ∈ b.blocks, e.2 = none) →
            rowsOf Block.rows (addedBundles ops') = blockRows (limited.map Prod.snd) →
            ∃ s' out', runSteps (LimitOperator.step sizeBytes numOutputsTotal') (.init limit) ops' =
                .ok (s', out') ∧
              rowsOf Block.rows (out' ++ s'.buffer) = rowsOf Block.rows (out ++ s.buffer) := by
  obtain ⟨s, out, hrun, h⟩ := LimitOperator.run_inv sizeBytes numOutputsTotal limit
    (fun b hb => LimitOperator.recorded_of_counted (hcounted b hb) (hfull b hb))
  refine ⟨s, out, hrun, ?_, fun b hb e he => ?_, ?_, ?_, ?_⟩
  · rw [h.rows, List.take_eq_take_min]
  · obtain ⟨hnone, hrows, -⟩ := h.recorded b hb e he
    exact ⟨hnone, hrows⟩
  · rw [h.stats, List.map_map]
    apply List.map_congr_left
    intro e he
    obtain ⟨b, hb, he⟩ := List.mem_flatMap.mp he
    exact (h.recorded b hb e he).2.1
  · refine ⟨_, LimitOperator.run_getNext sizeBytes numOutputsTotal s.allInputsDone s.buffer, ?_⟩
    simp [LimitOperator.hasCompleted, LimitOperator.hasExecutionFinished, LimitOperator.hasNext,
      LimitOperator.allInputsDone]
  · intro perBlockLimit arrivals hle harrivals
    obtain ⟨limited, hlimited, hproj⟩ := limitArrivals_spec perBlockLimit arrivals (fun _ => 0)
    refine ⟨limited, hlimited, hproj, fun numOutputsTotal' ops' hcounted' hfull' hrows' => ?_⟩
    obtain ⟨limited', hlimited', htake⟩ := limitArrivals_take perBlockLimit arrivals (fun _ => 0) limit
      (fun _ => hle)
    rw [hlimited] at hlimited'
    cases hlimited'
    obtain ⟨s', out', hrun', h'⟩ := LimitOperator.run_inv sizeBytes numOutputsTotal' limit
      (fun b hb => LimitOperator.recorded_of_counted (hcounted' b hb) (hfull' b hb))
    refine ⟨s', out', hrun', ?_⟩
    rw [h'.rows, hrows', htake, harrivals, h.rows]

/-- Three of five rows, cut inside the second bundle, from tasks that take turns. -/
theorem limitOperator_run_cut :
    ∃ s out, runSteps (LimitOperator.step (fun b : Block ℕ => b.rows.length)
      (fun _ => some 3)) (.init 3)
        [.add (.ofBlocks [⟨.arrow, [1, 2]⟩, ⟨.pandas, []⟩]), .getNext,
          .add (.ofBlocks [⟨.arrow, [3, 4]⟩]), .add (.ofBlocks [⟨.arrow, [5]⟩])] = .ok (s, out) ∧
      rowsOf Block.rows (out ++ s.buffer) = [1, 2, 3] ∧
      ∃ limited, limitArrivals 3 (fun _ => 0) [(0, ⟨.arrow, [1, 2]⟩), (1, ⟨.pandas, []⟩),
        (0, ⟨.arrow, [3, 4]⟩), (1, ⟨.arrow, [5]⟩)] = .ok limited := by
  obtain ⟨s, out, hrun, hrows, -, -, -, hlimiter⟩ := limitOperator_run
    (fun b : Block ℕ => b.rows.length) (fun _ => some 3) 3
    [.add (.ofBlocks [⟨.arrow, [1, 2]⟩, ⟨.pandas, []⟩]), .getNext, .add (.ofBlocks [⟨.arrow, [3, 4]⟩]),
      .add (.ofBlocks [⟨.arrow, [5]⟩])]
    (by
      intro b hb
      simp only [addedBundles, List.filterMap_cons, List.filterMap_nil, List.mem_cons,
        List.not_mem_nil, or_false] at hb
      obtain rfl | rfl | rfl := hb
      all_goals exact RefBundle.counted_ofBlocks _)
    (by
      intro b hb
      simp only [addedBundles, List.filterMap_cons, List.filterMap_nil, List.mem_cons,
        List.not_mem_nil, or_false] at hb
      obtain rfl | rfl | rfl := hb
      all_goals simp [RefBundle.ofBlocks])
  obtain ⟨limited, hlimited, -⟩ := hlimiter 3 [(0, ⟨.arrow, [1, 2]⟩), (1, ⟨.pandas, []⟩),
    (0, ⟨.arrow, [3, 4]⟩), (1, ⟨.arrow, [5]⟩)] le_rfl rfl
  exact ⟨s, out, hrun, hrows, limited, hlimited⟩

end RayTfm.Data
