import RayTfm.Data.TableBlock
import RayTfm.Data.BundleQueue

/-! # Zipping several inputs

The model of `execution/operators/zip_operator.py`.  The operator waits for all its inputs, and then
zips them one after the other: the side with fewer bytes is cut at the block borders of the other
side, each block is zipped with the pieces that face it, and if the sides were exchanged each pair
of blocks is exchanged back.

References are the blocks they refer to and a remote call is its result, as in `splitAtIndices`.
Freeing the inputs and the statistics are left out.  What the operator should do it does for blocks
whose row counts are on record (`TableInput.Counted`) and whose index is the default one
(`PandasIndex.Default`). -/

namespace RayTfm.Data

variable {V : Type}

structure ZipOperator (V : Type) where
  inputBuffers : List (FIFOBundleQueue (Block (Row V)))
  outputBuffer : FIFOBundleQueue (Block (Row V))
  executionMarkedFinished : Bool
  inputsComplete : Bool

/-- `_zip_one_block`. -/
def zipOneBlock (P : PandasIndex V) (inverted : Bool) (block : Block (Row V))
    (otherBlocks : List (Block (Row V))) :
    Except PyError (Block (Row V)) := do
  let builder ← otherBlocks.foldlM DelegatingBlockBuilder.addBlock .init
  if inverted then builder.build.zip P block else block.zip P builder.build

namespace ZipOperator

def init (numInputs : ℕ) : Except PyError (ZipOperator V) := do
  pyAssert (2 ≤ numInputs)
  .ok ⟨List.replicate numInputs .init, .init, false, false⟩

/-- `has_execution_finished`; the operator has no tasks. -/
def hasExecutionFinished (s : ZipOperator V) : Bool :=
  s.executionMarkedFinished ||
    (s.inputsComplete && (s.inputBuffers.map (fun q => q.metrics.numBlocks)).sum = 0)

def hasNext (s : ZipOperator V) : Bool := 0 < s.outputBuffer.metrics.numBundles

def hasCompleted (s : ZipOperator V) : Bool :=
  s.hasExecutionFinished && s.outputBuffer.metrics.numBlocks = 0 && !s.hasNext

/-- `_add_input_inner`; the upper bound of the second assertion is off by one. -/
def addInput (s : ZipOperator V) (inputIndex : ℕ) (refs : RefBundle (Block (Row V))) :
    Except PyError (ZipOperator V) := do
  pyAssert (!s.hasCompleted)
  pyAssert (inputIndex ≤ s.inputBuffers.length)
  match s.inputBuffers[inputIndex]? with
  | none => .error .indexError
  | some q => .ok { s with inputBuffers := s.inputBuffers.set inputIndex (q.add refs) }

section zip
variable (P : PandasIndex V) (sizeBytes : Block (Row V) → ℕ) (schemaOf : Block (Row V) → Option Schema)

/-- The loop body of `_calculate_blocks_rows_and_bytes`: if one number is missing, both are
fetched. -/
def blockRowsAndBytes (e : BlockEntry (Block (Row V))) : ℕ × ℕ :=
  match e.metadata.numRows, e.metadata.sizeBytes with
  | some n, some b => (n, b)
  | _, _ => (e.ref.rows.length, sizeBytes e.ref)

/-- `_calculate_blocks_rows_and_bytes`. -/
def calculateBlocksRowsAndBytes (entries : List (BlockEntry (Block (Row V)))) : List ℕ × List ℕ :=
  (entries.map (fun e => (blockRowsAndBytes sizeBytes e).1),
    entries.map (fun e => (blockRowsAndBytes sizeBytes e).2))

/-- The second half of `_zip`: the right side is cut at the block borders of the left side, which
are the partial sums of its row counts without the last one. -/
def zipAligned (inverted : Bool) (leftEntries rightEntries : List (BlockEntry (Block (Row V))))
    (leftBlockRows rightBlockRows : List ℕ) : Except PyError (List (Block (Row V))) :=
  match leftBlockRows with
  | [] => .error .indexError
  | n :: rest => do
      let indices := (partialSums 0 (n :: rest)).dropLast
      let r ← splitAtIndices sizeBytes (rightEntries.map (fun e => (e.ref, e.metadata)))
        (indices.map Nat.cast) (some rightBlockRows)
      (leftEntries.zip r.1).mapM (fun p => zipOneBlock P inverted p.1.ref p.2)

/-- The exchange of the sides: the right side has to be the smaller one. -/
def zipSides (leftEntries rightEntries : List (BlockEntry (Block (Row V))))
    (left right : List ℕ × List ℕ) :
    Except PyError (List (Block (Row V))) :=
  if left.2.sum < right.2.sum then zipAligned P sizeBytes true rightEntries leftEntries right.1 left.1
  else zipAligned P sizeBytes false leftEntries rightEntries left.1 right.1

/-- The bundle of one output block. -/
def outputBundle (ownsBlocks : Bool) (block : Block (Row V)) :
    Except PyError (RefBundle (Block (Row V))) :=
  RefBundle.make [(⟨block, ⟨some block.rows.length, some (sizeBytes block), []⟩⟩, none)]
    (schemaOf block) ownsBlocks

/-- `_zip`. -/
def zip (leftInput rightInput : FIFOBundleQueue (Block (Row V))) :
    Except PyError (List (RefBundle (Block (Row V)))) := do
  let leftEntries := leftInput.inner.flatMap (fun b => b.blocks.map Prod.fst)
  let rightEntries := rightInput.inner.flatMap (fun b => b.blocks.map Prod.fst)
  let left := calculateBlocksRowsAndBytes sizeBytes leftEntries
  let right := calculateBlocksRowsAndBytes sizeBytes rightEntries
  let totalLeftRows := left.1.sum
  let totalRightRows := right.1.sum
  if totalLeftRows ≠ totalRightRows then
    .error (.valueError s!"Cannot zip datasets of different number of rows: {totalLeftRows}, {totalRightRows}")
  else do
    let blocks ← zipSides P sizeBytes leftEntries rightEntries left right
    blocks.mapM (outputBundle sizeBytes schemaOf (leftInput.inner.all RefBundle.ownsBlocks))

end zip

/-- The loop that takes all bundles out of a queue. -/
def drain : ℕ → FIFOBundleQueue (Block (Row V)) →
    Except PyError (List (RefBundle (Block (Row V))) × FIFOBundleQueue (Block (Row V)))
  | 0, q => .ok ([], q)
  | n + 1, q =>
    if q.hasNext then do
      let r ← q.getNext
      let rest ← drain n r.2
      .ok (r.1 :: rest.1, rest.2)
    else .ok ([], q)

/-- `FIFOBundleQueue(bundles)`. -/
def queueOf (bundles : List (RefBundle (Block (Row V)))) : FIFOBundleQueue (Block (Row V)) :=
  bundles.foldl FIFOBundleQueue.add .init

/-- The loop body of `all_inputs_done`: the next input is zipped to the output, then emptied. -/
def zipNext (P : PandasIndex V) (sizeBytes : Block (Row V) → ℕ)
    (schemaOf : Block (Row V) → Option Schema)
    (st : FIFOBundleQueue (Block (Row V)) × List (FIFOBundleQueue (Block (Row V))))
    (q : FIFOBundleQueue (Block (Row V))) :
    Except PyError (FIFOBundleQueue (Block (Row V)) × List (FIFOBundleQueue (Block (Row V)))) := do
  let bundles ← zip P sizeBytes schemaOf st.1 q
  let r ← drain q.inner.length q
  .ok (queueOf bundles, st.2 ++ [r.2])

def allInputsDone (P : PandasIndex V) (sizeBytes : Block (Row V) → ℕ)
    (schemaOf : Block (Row V) → Option Schema) (s : ZipOperator V) :
    Except PyError (ZipOperator V) := do
  pyAssert (s.outputBuffer.metrics.numBundles = 0)
  match s.inputBuffers with
  | [] => .error .indexError
  | first :: others => do
      let r ← drain first.inner.length first
      let st ← others.foldlM (zipNext P sizeBytes schemaOf)
        (r.1.foldl FIFOBundleQueue.add s.outputBuffer, [])
      .ok { s with inputBuffers := r.2 :: st.2, outputBuffer := st.1, inputsComplete := true }

end ZipOperator

/-! ### Inputs -/

/-- What arrives at one input: a table, laid out in bundles of blocks in any way; bundles with
slices occur only inside map operators. -/
structure TableInput (V : Type) where
  columns : List String
  format : BlockFormat
  bundles : List (RefBundle (Block (Row V)))
  nodup : columns.Nodup
  unsliced : ∀ b ∈ bundles, ∀ e ∈ b.blocks, e.2 = none
  hasColumns : HasColumns columns (rowsOf Block.rows bundles)
  formats : ∀ b ∈ bundles, ∀ e ∈ b.blocks, e.1.ref.rows ≠ [] → e.1.ref.format = format

namespace TableInput

def rows (t : TableInput V) : List (Row V) := rowsOf Block.rows t.bundles

def entries (t : TableInput V) : List (BlockEntry (Block (Row V))) :=
  t.bundles.flatMap (fun b => b.blocks.map Prod.fst)

/-- The bytes on record. -/
def bytes (t : TableInput V) : ℕ := (t.entries.map (fun e => e.metadata.sizeBytes.getD 0)).sum

/-- The row counts are on record: the operator fetches a missing one, but `split.py` is not told. -/
def Counted (t : TableInput V) : Prop := ∀ b ∈ t.bundles, b.Counted Block.rows

theorem mem_entries {t : TableInput V} {e : BlockEntry (Block (Row V))} (he : e ∈ t.entries) :
    (t.Counted → e.metadata.numRows = some e.ref.rows.length) ∧ e.metadata.sizeBytes.isSome = true ∧
      (e.ref.rows ≠ [] → e.ref.format = t.format) := by
  obtain ⟨b, hb, he⟩ := List.mem_flatMap.mp he
  obtain ⟨⟨e, slice⟩, hes, rfl⟩ := List.mem_map.mp he
  refine ⟨fun hcounted => ?_, b.sizes_known _ hes, t.formats b hb _ hes⟩
  obtain ⟨n, hn⟩ := Option.isSome_iff_exists.mp ((hcounted b hb _ hes).known (t.unsliced b hb _ hes))
  rw [hn, (hcounted b hb _ hes).count n hn]

theorem rows_eq (t : TableInput V) : t.rows = t.entries.flatMap (fun e => e.ref.rows) := by
  rw [rows, rowsOf, entries, List.flatMap_assoc]
  apply List.flatMap_congr
  intro b hb
  rw [RefBundle.rows, RefBundle.content, List.flatMap_map]
  apply List.flatMap_congr
  rintro ⟨e, slice⟩ he
  have hnone := t.unsliced b hb _ he
  cases hnone
  rfl

/-- A table in a given layout. -/
def ofLayout (columns : List String) (format : BlockFormat) (layout : List (List (Block (Row V))))
    (nodup : columns.Nodup) (hasColumns : ∀ l ∈ layout, ∀ b ∈ l, HasColumns columns b.rows)
    (formats : ∀ l ∈ layout, ∀ b ∈ l, b.rows ≠ [] → b.format = format) : TableInput V where
  columns := columns
  format := format
  bundles := layout.map RefBundle.ofBlocks
  nodup := nodup
  unsliced := by
    intro b hb e he
    obtain ⟨l, -, rfl⟩ := List.mem_map.mp hb
    obtain ⟨c, -, rfl⟩ := List.mem_map.mp he
    rfl
  hasColumns := by
    intro row hrow
    obtain ⟨b, hb, hrow⟩ := List.mem_flatMap.mp hrow
    obtain ⟨l, hl, rfl⟩ := List.mem_map.mp hb
    obtain ⟨e, he, hrow⟩ := List.mem_flatMap.mp hrow
    obtain ⟨c, hc, rfl⟩ := List.mem_map.mp he
    exact hasColumns l hl c hc row hrow
  formats := by
    intro b hb e he
    obtain ⟨l, hl, rfl⟩ := List.mem_map.mp hb
    obtain ⟨c, hc, rfl⟩ := List.mem_map.mp he
    exact formats l hl c hc

theorem counted_ofLayout {columns : List String} {format : BlockFormat}
    {layout : List (List (Block (Row V)))}
    {nodup : columns.Nodup} {hasColumns : ∀ l ∈ layout, ∀ b ∈ l, HasColumns columns b.rows}
    {formats : ∀ l ∈ layout, ∀ b ∈ l, b.rows ≠ [] → b.format = format} :
    (ofLayout columns format layout nodup hasColumns formats).Counted := by
  intro b hb
  obtain ⟨l, -, rfl⟩ := List.mem_map.mp hb
  exact RefBundle.counted_ofBlocks l

end TableInput

/-! ### One step -/

namespace ZipOperator

/-- Two tables side by side, or the other way round. -/
def sideBySide (inverted : Bool) (rows rows' : List (Row V)) : List (Row V) :=
  if inverted then List.zipWith zipRow rows' rows else List.zipWith zipRow rows rows'

theorem sideBySide_append (inverted : Bool) {a b : List (Row V)} (a' b' : List (Row V))
    (h : a.length = b.length) :
    sideBySide inverted (a ++ a') (b ++ b') = sideBySide inverted a b ++ sideBySide inverted a' b' := by
  unfold sideBySide
  split_ifs
  · exact List.zipWith_append h.symm
  · exact List.zipWith_append h

/-- The columns and the format of one side. -/
structure Side (columns : List String) (format : BlockFormat) (b : Block (Row V)) : Prop where
  hasColumns : HasColumns columns b.rows
  formats : b.rows ≠ [] → b.format = format

variable {columns columns' : List String} {format format' : BlockFormat}
  {P : PandasIndex V} (hP : P.Default)

theorem foldlM_addBlock {blocks : List (Block (Row V))} (h : ∀ b ∈ blocks, Side columns format b) :
    ∃ t, blocks.foldlM DelegatingBlockBuilder.addBlock .init = .ok t ∧ t.build.rows = blockRows blocks ∧
      Side columns format t.build := by
  obtain ⟨t, ht, hfmt, hrows⟩ := DelegatingBlockBuilder.foldlM_addBlock (fun b hb => (h b hb).formats)
  refine ⟨t, ht, hrows, ?_, DelegatingBlockBuilder.build_format hfmt⟩
  show HasColumns columns t.rows
  rw [hrows]
  intro row hrow
  obtain ⟨b, hb, hrow⟩ := List.mem_flatMap.mp hrow
  exact (h b hb).hasColumns row hrow

include hP in
theorem zipOneBlock_spec (inverted : Bool) (hnodup : columns.Nodup) (hnodup' : columns'.Nodup)
    {block : Block (Row V)} {otherBlocks : List (Block (Row V))} (hb : Side columns format block)
    (ho : ∀ b ∈ otherBlocks, Side columns' format' b)
    (hlen : block.rows.length = (blockRows otherBlocks).length) :
    ∃ c, zipOneBlock P inverted block otherBlocks = .ok c ∧
      c.rows = sideBySide inverted block.rows (blockRows otherBlocks) ∧
      (c.rows ≠ [] → c.format = if inverted then format' else format) := by
  obtain ⟨t, ht, hrows, hside⟩ := foldlM_addBlock ho
  rw [← hrows] at hlen ⊢
  rw [zipOneBlock, ht, ok_bind]
  cases inverted with
  | true =>
    obtain ⟨c, hc, hfmt, hcrows⟩ := Block.zip_spec hP hside.hasColumns hb.hasColumns hnodup hlen.symm
    refine ⟨c, hc, hcrows, fun hne => ?_⟩
    rw [hfmt]
    apply hside.formats
    rintro hnil
    rw [hcrows, hnil] at hne
    exact hne rfl
  | false =>
    obtain ⟨c, hc, hfmt, hcrows⟩ := Block.zip_spec hP hb.hasColumns hside.hasColumns hnodup' hlen
    refine ⟨c, hc, hcrows, fun hne => ?_⟩
    rw [hfmt]
    apply hb.formats
    rintro hnil
    rw [hcrows, hnil] at hne
    exact hne rfl

include hP in
theorem mapM_zipOneBlock (inverted : Bool) (hnodup : columns.Nodup) (hnodup' : columns'.Nodup) :
    ∀ (entries : List (BlockEntry (Block (Row V)))) (groups : List (List (Block (Row V)))),
      (∀ e ∈ entries, Side columns format e.ref) → (∀ g ∈ groups, ∀ b ∈ g, Side columns' format' b) →
      groups.map (fun g => (blockRows g).length) = entries.map (fun e => e.ref.rows.length) →
      ∃ cs, (entries.zip groups).mapM (fun p => zipOneBlock P inverted p.1.ref p.2) = .ok cs ∧
        cs.length = entries.length ∧
        blockRows cs = sideBySide inverted (entries.flatMap (fun e => e.ref.rows))
          (blockRows groups.flatten) ∧
        ∀ c ∈ cs, c.rows ≠ [] → c.format = if inverted then format' else format
  | [], [], _, _, _ => ⟨[], rfl, rfl, by cases inverted <;> rfl, by simp⟩
  | [], _ :: _, _, _, hlen => by cases hlen
  | _ :: _, [], _, _, hlen => by cases hlen
  | e :: entries, g :: groups, he, hg, hlen => by
    obtain ⟨he, hes⟩ := List.forall_mem_cons.mp he
    obtain ⟨hg, hgs⟩ := List.forall_mem_cons.mp hg
    obtain ⟨hhead, htail⟩ := List.cons.inj hlen
    obtain ⟨c, hc, hcrows, hcfmt⟩ := zipOneBlock_spec hP inverted hnodup hnodup' he hg hhead.symm
    obtain ⟨cs, hcs, hcslen, hcsrows, hcsfmt⟩ :=
      mapM_zipOneBlock inverted hnodup hnodup' entries groups hes hgs htail
    refine ⟨c :: cs, ?_, by rw [List.length_cons, hcslen, List.length_cons], ?_, ?_⟩
    · rw [List.zip_cons_cons, List.mapM_cons, hc, ok_bind, hcs]
      rfl
    · rw [blockRows_cons, hcrows, hcsrows, List.flatMap_cons, List.flatten_cons, blockRows_append,
        sideBySide_append inverted _ _ hhead.symm]
    · exact List.forall_mem_cons.mpr ⟨hcfmt, hcsfmt⟩

theorem dropLast_partialSums (a : ℕ) : ∀ l :
    List ℕ, (partialSums a l).dropLast = partialSums a l.dropLast
  | [] => rfl
  | [_] => rfl
  | n :: m :: l => congrArg ((a + n) :: ·) (dropLast_partialSums (a + n) (m :: l))

variable (sizeBytes : Block (Row V) → ℕ)

theorem calculateBlocksRowsAndBytes_eq {t : TableInput V} (ht : t.Counted) :
    (calculateBlocksRowsAndBytes sizeBytes t.entries).1 = t.entries.map (fun e => e.ref.rows.length) ∧
      (calculateBlocksRowsAndBytes sizeBytes t.entries).2.sum = t.bytes := by
  have heq : ∀ e ∈ t.entries,
      blockRowsAndBytes sizeBytes e = (e.ref.rows.length, e.metadata.sizeBytes.getD 0) := by
    intro e he
    obtain ⟨hn, hb, -⟩ := t.mem_entries he
    obtain ⟨b, hb⟩ := Option.isSome_iff_exists.mp hb
    rw [blockRowsAndBytes, hn ht, hb]
    rfl
  constructor
  · apply List.map_congr_left
    intro e he
    rw [heq e he]
  · rw [TableInput.bytes]
    congr 1
    apply List.map_congr_left
    intro e he
    rw [heq e he]

theorem side_entries (t : TableInput V) : ∀ e ∈ t.entries, Side t.columns t.format e.ref := by
  intro e he
  refine ⟨fun row hrow => t.hasColumns row ?_, (t.mem_entries he).2.2⟩
  show row ∈ t.rows
  rw [t.rows_eq]
  exact List.mem_flatMap.mpr ⟨e, he, hrow⟩

theorem zipAligned_eq (inverted : Bool) (leftEntries rightEntries : List (BlockEntry (Block (Row V))))
    {leftBlockRows : List ℕ} (hne : leftBlockRows ≠ []) (rightBlockRows : List ℕ) :
    zipAligned P sizeBytes inverted leftEntries rightEntries leftBlockRows rightBlockRows =
      (splitAtIndices sizeBytes (rightEntries.map (fun e => (e.ref, e.metadata)))
        ((partialSums 0 leftBlockRows).dropLast.map Nat.cast) (some rightBlockRows) >>= fun r =>
          (leftEntries.zip r.1).mapM (fun p => zipOneBlock P inverted p.1.ref p.2)) := by
  cases leftBlockRows with
  | nil => exact absurd rfl hne
  | cons n rest => rfl

variable {t t' : TableInput V}

include hP in
/-- One side with at least one block and another one with as many rows. -/
theorem zipAligned_spec (inverted : Bool) (hne : t.entries ≠ []) (ht' : t'.Counted)
    (hlen : t.rows.length = t'.rows.length) :
    ∃ cs, zipAligned P sizeBytes inverted t.entries t'.entries
      (t.entries.map (fun e => e.ref.rows.length))
        (t'.entries.map (fun e => e.ref.rows.length)) = .ok cs ∧
      cs ≠ [] ∧ blockRows cs = sideBySide inverted t.rows t'.rows ∧
      ∀ c ∈ cs, c.rows ≠ [] → c.format = if inverted then t'.format else t.format := by
  set ns := t.entries.map (fun e => e.ref.rows.length) with hns
  set pairs : BlockPartition (Row V) := t'.entries.map (fun e => (e.ref, e.metadata)) with hpairs
  have hnne : ns ≠ [] := fun h => hne (List.map_eq_nil_iff.mp h)
  have hall : allRows pairs = t'.rows := by
    rw [allRows, hpairs, List.map_map, t'.rows_eq]
    rfl
  have hsum : ns.sum = t'.rows.length := by
    rw [← hlen, t.rows_eq, List.length_flatMap]
  have hsplit : ns = ns.dropLast ++ [ns.getLast hnne] := (List.dropLast_append_getLast hnne).symm
  have hlast : ns.sum = ns.dropLast.sum + ns.getLast hnne := by
    conv_lhs => rw [hsplit, List.sum_append, List.sum_singleton]
  have hcounted : ∀ p ∈ pairs, Counted p := by
    intro p hp
    obtain ⟨e, he, rfl⟩ := List.mem_map.mp hp
    exact (t'.mem_entries he).1 ht'
  obtain ⟨gs, hgs, hrows, -, hsizes⟩ := splitAtIndices_partialSums sizeBytes pairs ns.dropLast
    (some (t'.entries.map (fun e => e.ref.rows.length))) hcounted
    (.inr (by rw [hpairs, List.map_map]; rfl)) (by rw [hall]; omega)
  have hgsizes : (gs.map (fun g => g.map Prod.fst)).map (fun g => (blockRows g).length) = ns := by
    rw [List.map_map, hsplit, show ns.getLast hnne = (allRows pairs).length - ns.dropLast.sum by
      rw [hall]; omega, ← hsizes]
    apply List.map_congr_left
    intro g _
    show (blockRows (g.map Prod.fst)).length = total pieceRows g
    rw [← length_allRows, blockRows, allRows, List.flatMap_map]
    rfl
  have hgrows : blockRows (gs.map (fun g => g.map Prod.fst)).flatten = t'.rows := by
    rw [← hall, ← hrows, ← List.map_flatten, blockRows, List.flatMap_map]
    rfl
  have hcols : ∀ g ∈ gs.map (fun g => g.map Prod.fst), ∀ b ∈ g, Side t'.columns t'.format b := by
    intro g hg b hb
    refine ⟨fun row hrow => t'.hasColumns row ?_, ?_⟩
    · show row ∈ t'.rows
      rw [← hgrows]
      exact List.mem_flatMap.mpr ⟨b, List.mem_flatten.mpr ⟨g, hg, hb⟩, hrow⟩
    · exact splitAtIndices_formats (fun p hp => by
        obtain ⟨e, he, rfl⟩ := List.mem_map.mp hp
        exact (t'.mem_entries he).2.2) hgs g hg b hb
  obtain ⟨cs, hcs, hcslen, hcsrows, hcsfmt⟩ := mapM_zipOneBlock hP inverted t.nodup t'.nodup t.entries
    (gs.map (fun g => g.map Prod.fst)) (side_entries t) hcols hgsizes
  refine ⟨cs, ?_, ?_, ?_, hcsfmt⟩
  · rw [zipAligned_eq sizeBytes inverted t.entries t'.entries hnne, dropLast_partialSums, ← hpairs,
      hgs, ok_bind, hcs]
  · intro hnil
    rw [hnil] at hcslen
    exact hne (List.length_eq_zero_iff.mp hcslen.symm)
  · rw [hcsrows, hgrows, ← t.rows_eq]

/-- The first input has no blocks and the second one neither rows nor bytes: then no side has a
border. -/
def NoBorder (t t' : TableInput V) : Prop := t.entries = [] ∧ t'.rows = [] ∧ t'.bytes = 0

variable (schemaOf : Block (Row V) → Option Schema)

/-- The bundle that `outputBundle` makes. -/
def bundleFor (ownsBlocks : Bool) (block : Block (Row V)) : RefBundle (Block (Row V)) where
  blocks := [(⟨block, ⟨some block.rows.length, some (sizeBytes block), []⟩⟩, none)]
  schema := schemaOf block
  ownsBlocks := ownsBlocks
  outputSplitIdx := none
  slices_valid := List.forall_mem_singleton.mpr nofun
  sizes_known := List.forall_mem_singleton.mpr rfl

theorem outputBundle_eq (ownsBlocks : Bool) (block : Block (Row V)) :
    outputBundle sizeBytes schemaOf ownsBlocks block =
      .ok (bundleFor sizeBytes schemaOf ownsBlocks block) := by
  unfold outputBundle RefBundle.make
  exact (dif_pos (bundleFor sizeBytes schemaOf ownsBlocks block).slices_valid).trans
    (dif_pos (bundleFor sizeBytes schemaOf ownsBlocks block).sizes_known)

theorem exists_outputBundles (ownsBlocks : Bool) {cs : List (Block (Row V))}
    (hne : cs ≠ []) (hrows : blockRows cs = List.zipWith zipRow t.rows t'.rows)
    (hfmt : ∀ c ∈ cs, c.rows ≠ [] → c.format = t.format) :
    ∃ u : TableInput V, cs.mapM (outputBundle sizeBytes schemaOf ownsBlocks) = .ok u.bundles ∧
      u.rows = List.zipWith zipRow t.rows t'.rows ∧ u.entries ≠ [] ∧ u.Counted := by
  have hall : ∀ (P : SlicedEntry (Block (Row V)) → Prop),
      (∀ c ∈ cs, P (⟨c, ⟨some c.rows.length, some (sizeBytes c), []⟩⟩, none)) →
      ∀ b ∈ cs.map (bundleFor sizeBytes schemaOf ownsBlocks), ∀ e ∈ b.blocks, P e := by
    intro P hP b hb
    obtain ⟨c, hc, rfl⟩ := List.mem_map.mp hb
    exact List.forall_mem_singleton.mpr (hP c hc)
  have hrowsOf : rowsOf Block.rows (cs.map (bundleFor sizeBytes schemaOf ownsBlocks)) =
      List.zipWith zipRow t.rows t'.rows := by
    rw [← hrows, rowsOf, List.flatMap_map]
    apply List.flatMap_congr
    intro c _
    exact List.append_nil _
  refine ⟨⟨zipNames t.columns t'.columns, t.format, cs.map (bundleFor sizeBytes schemaOf ownsBlocks),
    nodup_zipNames t.nodup, hall _ (fun _ _ => rfl), ?_, hall _ hfmt⟩, ?_, hrowsOf, ?_, hall _ ?_⟩
  · rw [hrowsOf]
    exact t.hasColumns.zipWith t'.hasColumns
  · exact mapM_eq_ok (fun c _ => outputBundle_eq sizeBytes schemaOf ownsBlocks c)
  · obtain ⟨c, cs', rfl⟩ := List.exists_cons_of_ne_nil hne
    exact List.cons_ne_nil _ _
  · intro c _
    refine ⟨fun _ => rfl, fun n hn => ?_, nofun⟩
    cases hn
    rfl

theorem rows_eq_nil_of_entries (h : t.entries = []) : t.rows = [] := by
  rw [t.rows_eq, h, List.flatMap_nil]

include hP in
theorem zip_spec {q q' : FIFOBundleQueue (Block (Row V))} (hq : q.inner = t.bundles)
    (hq' : q'.inner = t'.bundles) (ht : t.Counted) (ht' : t'.Counted) :
    (t.rows.length ≠ t'.rows.length ∧ ∃ msg, zip P sizeBytes schemaOf q q' = .error (.valueError msg)) ∨
      (t.rows.length = t'.rows.length ∧ NoBorder t t' ∧ zip P sizeBytes schemaOf q q' =
        .error .indexError) ∨
      (t.rows.length = t'.rows.length ∧ ¬ NoBorder t t' ∧
        ∃ u : TableInput V, zip P sizeBytes schemaOf q q' = .ok u.bundles ∧
          u.rows = List.zipWith zipRow t.rows t'.rows ∧ u.entries ≠ [] ∧ u.Counted) := by
  have hentries : ∀ {q : FIFOBundleQueue (Block (Row V))} {t : TableInput V}, q.inner = t.bundles →
      q.inner.flatMap (fun b => b.blocks.map Prod.fst) = t.entries := by
    intro q t h
    rw [h]
    rfl
  obtain ⟨hr, hb⟩ := calculateBlocksRowsAndBytes_eq sizeBytes ht
  obtain ⟨hr', hb'⟩ := calculateBlocksRowsAndBytes_eq sizeBytes ht'
  have htotal : ∀ t : TableInput V, (t.entries.map (fun e => e.ref.rows.length)).sum =
    t.rows.length := by
    intro t
    rw [t.rows_eq, List.length_flatMap]
  unfold zip
  simp only [hentries hq, hentries hq', zipSides, hr, hr', hb, hb', htotal]
  by_cases hlen : t.rows.length = t'.rows.length
  · right
    rw [if_neg (not_not.mpr hlen)]
    by_cases hside : t.bytes < t'.bytes
    · -- the other side is cut, and it has a block: it has bytes
      have hne : t'.entries ≠ [] := by
        intro hnil
        rw [TableInput.bytes, TableInput.bytes, hnil] at hside
        exact absurd hside (Nat.not_lt_zero _)
      obtain ⟨cs, hcs, hcsne, hcsrows, hcsfmt⟩ := zipAligned_spec hP sizeBytes true hne ht hlen.symm
      obtain ⟨u, hu, hurows, hune⟩ := exists_outputBundles sizeBytes schemaOf
        (q.inner.all RefBundle.ownsBlocks) hcsne hcsrows hcsfmt
      refine .inr ⟨hlen, fun hno => ?_, u, ?_, hurows, hune⟩
      · have := hno.2.2
        omega
      · rw [if_pos hside, hcs, ok_bind, hu]
    · rw [if_neg hside]
      obtain hnil | hne := eq_or_ne t.entries []
      · left
        have hrows := rows_eq_nil_of_entries hnil
        refine ⟨hlen, ⟨hnil, ?_, ?_⟩, ?_⟩
        · rw [hrows] at hlen
          exact List.length_eq_zero_iff.mp hlen.symm
        · have : t.bytes = 0 := by rw [TableInput.bytes, hnil]; rfl
          omega
        · rw [hnil]
          rfl
      · obtain ⟨cs, hcs, hcsne, hcsrows, hcsfmt⟩ := zipAligned_spec hP sizeBytes false hne ht' hlen
        obtain ⟨u, hu, hurows, hune⟩ := exists_outputBundles sizeBytes schemaOf
          (q.inner.all RefBundle.ownsBlocks) hcsne hcsrows hcsfmt
        refine .inr ⟨hlen, fun hno => hne hno.1, u, ?_, hurows, hune⟩
        rw [hcs, ok_bind, hu]
  · left
    rw [if_pos hlen]
    exact ⟨hlen, _, rfl⟩

/-! ### All inputs -/

theorem queueOf_spec (bundles : List (RefBundle (Block (Row V)))) :
    (queueOf bundles).inner = bundles ∧ (queueOf bundles).Valid := by
  induction bundles using List.reverseRecOn with
  | nil => exact ⟨rfl, FIFOBundleQueue.valid_init⟩
  | append_singleton bundles b ih =>
    rw [queueOf, List.foldl_append]
    exact ⟨congrArg (· ++ [b]) ih.1, ih.2.add b⟩

theorem drain_eq {q : FIFOBundleQueue (Block (Row V))} (h : q.Valid) :
    ∃ q', drain q.inner.length q = .ok (q.inner, q') := by
  induction hq : q.inner generalizing q with
  | nil => exact ⟨q, rfl⟩
  | cons b l ih =>
    obtain ⟨q', hget, hinner, hvalid⟩ := h.getNext hq
    obtain ⟨q'', hdrain⟩ := ih hvalid hinner
    have hnext : q.hasNext = true := h.hasNext.mpr (by rw [hq]; exact List.cons_ne_nil b l)
    refine ⟨q'', ?_⟩
    rw [List.length_cons, drain, if_pos hnext, hget, ok_bind, hdrain]
    rfl

include hP in
/-- The loop of `all_inputs_done`, once the output has a block. -/
theorem foldlM_zipNext : ∀ (ts : List (TableInput V)) (u : TableInput V)
    (emptied : List (FIFOBundleQueue (Block (Row V)))), u.entries ≠ [] → u.Counted →
    (∀ t ∈ ts, t.Counted) →
    ((∃ t ∈ ts, t.rows.length ≠ u.rows.length) ∧ ∃ msg,
      (ts.map (fun t => queueOf t.bundles)).foldlM (zipNext P sizeBytes schemaOf)
      (queueOf u.bundles, emptied) =
        .error (.valueError msg)) ∨
    ((∀ t ∈ ts, t.rows.length = u.rows.length) ∧ ∃ (u' : TableInput V) (emptied' : _),
      (ts.map (fun t => queueOf t.bundles)).foldlM (zipNext P sizeBytes schemaOf)
      (queueOf u.bundles, emptied) =
        .ok (queueOf u'.bundles, emptied') ∧
      u'.rows = (ts.map TableInput.rows).foldl (List.zipWith zipRow) u.rows)
  | [], u, emptied, _, _, _ => .inr ⟨by simp, u, emptied, rfl, rfl⟩
  | t :: ts, u, emptied, hne, hu, hts => by
    obtain ⟨ht, hts⟩ := List.forall_mem_cons.mp hts
    obtain ⟨q, hdrain⟩ := drain_eq (queueOf_spec t.bundles).2
    obtain ⟨hlen, msg, hzip⟩ | ⟨-, hno, -⟩ | ⟨hlen, -, v, hzip, hrows, hvne, hv⟩ :=
      zip_spec hP sizeBytes schemaOf
      (queueOf_spec u.bundles).1 (queueOf_spec t.bundles).1 hu ht
    · refine .inl ⟨⟨t, .head _, hlen.symm⟩, msg, ?_⟩
      rw [List.map_cons, List.foldlM_cons, zipNext, hzip]
      rfl
    · exact absurd hno.1 hne
    · have hvlen : v.rows.length = u.rows.length := by
        rw [hrows, List.length_zipWith, ← hlen, min_self]
      have hstep : zipNext P sizeBytes schemaOf (queueOf u.bundles, emptied) (queueOf t.bundles) =
          .ok (queueOf v.bundles, emptied ++ [q]) := by
        rw [zipNext, hzip, ok_bind, hdrain, ok_bind]
      rw [List.map_cons, List.foldlM_cons, hstep, ok_bind]
      obtain ⟨⟨t', ht', hlen'⟩, msg, herr⟩ | ⟨hall, u', emptied', hok, hrows'⟩ :=
        foldlM_zipNext ts v (emptied ++ [q]) hvne hv hts
      · exact .inl ⟨⟨t', .tail _ ht', by rwa [← hvlen]⟩, msg, herr⟩
      · refine .inr ⟨List.forall_mem_cons.mpr ⟨hlen.symm, fun t' ht' => (hall t' ht').trans hvlen⟩, u',
          emptied', hok, ?_⟩
        rw [hrows', hrows]
        rfl

include hP in
theorem allInputsDone_cases (t t' : TableInput V) (ts : List (TableInput V))
    (hcounted : ∀ u ∈ t :: t' :: ts, u.Counted) :
    (NoBorder t t' ∧
      allInputsDone P sizeBytes schemaOf
        ⟨(t :: t' :: ts).map (fun t => queueOf t.bundles), .init, false, false⟩ = .error .indexError) ∨
    (¬ NoBorder t t' ∧ (∃ x ∈ t' :: ts, x.rows.length ≠ t.rows.length) ∧ ∃ msg,
      allInputsDone P sizeBytes schemaOf
        ⟨(t :: t' :: ts).map (fun t => queueOf t.bundles), .init, false, false⟩ =
          .error (.valueError msg)) ∨
    (¬ NoBorder t t' ∧ (∀ x ∈ t' :: ts, x.rows.length = t.rows.length) ∧ ∃ s',
      allInputsDone P sizeBytes schemaOf
        ⟨(t :: t' :: ts).map (fun t => queueOf t.bundles), .init, false, false⟩ = .ok s' ∧
      rowsOf Block.rows s'.outputBuffer.inner =
        ((t' :: ts).map TableInput.rows).foldl (List.zipWith zipRow) t.rows) := by
  obtain ⟨ht, ht', hts⟩ : t.Counted ∧ t'.Counted ∧ ∀ u ∈ ts, u.Counted := by
    simpa only [List.forall_mem_cons] using hcounted
  obtain ⟨q, hdrain⟩ := drain_eq (queueOf_spec t.bundles).2
  obtain ⟨q', hdrain'⟩ := drain_eq (queueOf_spec t'.bundles).2
  have hstart : allInputsDone P sizeBytes schemaOf
      ⟨(t :: t' :: ts).map (fun t => queueOf t.bundles), .init, false, false⟩ =
      (zipNext P sizeBytes schemaOf (queueOf t.bundles, []) (queueOf t'.bundles) >>= fun st =>
        (ts.map (fun t => queueOf t.bundles)).foldlM (zipNext P sizeBytes schemaOf) st) >>= fun st =>
          .ok ⟨q :: st.2, st.1, false, true⟩ := by
    rw [allInputsDone]
    simp only [List.map_cons]
    rw [hdrain, (queueOf_spec t.bundles).1]
    rfl
  rw [hstart]
  obtain ⟨hlen, msg, hzip⟩ | ⟨-, hno, hzip⟩ | ⟨hlen, hno, v, hzip, hrows, hvne, hv⟩ :=
    zip_spec hP sizeBytes schemaOf
    (queueOf_spec t.bundles).1 (queueOf_spec t'.bundles).1 ht ht'
  · refine .inr (.inl ⟨fun hno => ?_, ⟨t', .head _, hlen.symm⟩, msg, ?_⟩)
    · rw [rows_eq_nil_of_entries hno.1, hno.2.1] at hlen
      exact hlen rfl
    · rw [zipNext, hzip]
      rfl
  · refine .inl ⟨hno, ?_⟩
    rw [zipNext, hzip]
    rfl
  · have hvlen : v.rows.length = t.rows.length := by
      rw [hrows, List.length_zipWith, ← hlen, min_self]
    have hstep : zipNext P sizeBytes schemaOf (queueOf t.bundles, []) (queueOf t'.bundles) =
        .ok (queueOf v.bundles, [q']) := by
      rw [zipNext, hzip, ok_bind, hdrain']
      rfl
    rw [hstep, ok_bind]
    obtain ⟨⟨x, hx, hxlen⟩, msg, herr⟩ | ⟨hall, u, emptied, hok, hurows⟩ :=
      foldlM_zipNext hP sizeBytes schemaOf ts v [q'] hvne hv hts
    · refine .inr (.inl ⟨hno, ⟨x, .tail _ hx, by rwa [← hvlen]⟩, msg, ?_⟩)
      rw [herr]
      rfl
    · refine .inr (.inr ⟨hno, List.forall_mem_cons.mpr ⟨hlen.symm, fun x hx => (hall x hx).trans hvlen⟩,
        ⟨q :: emptied, queueOf u.bundles, false, true⟩, ?_, ?_⟩)
      · rw [hok, ok_bind]
      · show rowsOf Block.rows (queueOf u.bundles).inner = _
        rw [(queueOf_spec u.bundles).1]
        show u.rows = _
        rw [hurows, hrows]
        rfl

/-- Several tables side by side, row by row. -/
def zipTables : List (List (Row V)) → List (Row V)
  | [] => []
  | t :: ts => ts.foldl (List.zipWith zipRow) t

/-- The end of the inputs as it should be: a `ValueError` exactly if two row counts differ, and else
the rows side by side. -/
def Zips (P : PandasIndex V) (s : ZipOperator V) (tables : List (List (Row V))) : Prop :=
  ((∃ msg, s.allInputsDone P sizeBytes schemaOf = .error (.valueError msg)) ↔
      ∃ t ∈ tables, ∃ t' ∈ tables, t.length ≠ t'.length) ∧
    ((∀ t ∈ tables, ∀ t' ∈ tables, t.length = t'.length) →
      ∃ s', s.allInputsDone P sizeBytes schemaOf = .ok s' ∧
        rowsOf Block.rows s'.outputBuffer.inner = zipTables tables)

/-- The rows arrive in any interleaving of the inputs. -/
def addAll (s : ZipOperator V) (ops : List (ℕ × RefBundle (Block (Row V)))) :
    Except PyError (ZipOperator V) :=
  ops.foldlM (fun s op => s.addInput op.1 op.2) s

/-- The bundles for one input, in order. -/
def bundlesFor (i : ℕ) (ops : List (ℕ × RefBundle (Block (Row V)))) :
    List (RefBundle (Block (Row V))) :=
  (ops.filter (fun op => op.1 = i)).map Prod.snd

theorem bundlesFor_snoc (i : ℕ) (ops : List (ℕ × RefBundle (Block (Row V))))
    (op : ℕ × RefBundle (Block (Row V))) :
    bundlesFor i (ops ++ [op]) = if op.1 = i then bundlesFor i ops ++ [op.2] else bundlesFor i ops := by
  unfold bundlesFor
  rw [List.filter_append, List.map_append]
  split_ifs with h
  · rw [List.filter_cons_of_pos (by simpa using h)]
    rfl
  · rw [List.filter_cons_of_neg (by simpa using h)]
    exact List.append_nil _

theorem addAll_eq {n : ℕ} {ops : List (ℕ × RefBundle (Block (Row V)))} (hops : ∀ op ∈ ops, op.1 < n) :
    addAll ⟨List.replicate n .init, .init, false, false⟩ ops =
      .ok ⟨(List.range n).map (fun i => queueOf (bundlesFor i ops)), .init, false, false⟩ := by
  have hstart : List.replicate n FIFOBundleQueue.init =
      (List.range n).map (fun i => queueOf
        (bundlesFor i ([] : List (ℕ × RefBundle (Block (Row V)))))) := by
    symm
    apply List.eq_replicate_iff.mpr
    refine ⟨by simp, fun q hq => ?_⟩
    obtain ⟨i, -, rfl⟩ := List.mem_map.mp hq
    rfl
  obtain ⟨s, hs, rfl⟩ := foldlM_ok (f := fun (s : ZipOperator V) (op : ℕ × _) => s.addInput op.1 op.2)
    (P := fun done s => s = ⟨(List.range n).map (fun i => queueOf (bundlesFor i done)), .init,
      false, false⟩)
    (l := ops) (s := ⟨List.replicate n .init, .init, false, false⟩) (by rw [hstart]) (by
      rintro done op s hop rfl
      refine ⟨_, ?_, rfl⟩
      have hi := hops op hop
      have hget : ((List.range n).map (fun i => queueOf (bundlesFor i done)))[op.1]? =
          some (queueOf (bundlesFor op.1 done)) := by
        rw [List.getElem?_map, List.getElem?_range hi]
        rfl
      have hset : ((List.range n).map (fun i => queueOf (bundlesFor i done))).set op.1
          ((queueOf (bundlesFor op.1 done)).add op.2) =
          (List.range n).map (fun i => queueOf (bundlesFor i (done ++ [op]))) := by
        apply List.ext_getElem
        · simp
        · intro i h _
          rw [List.getElem_set, List.getElem_map, List.getElem_map, List.getElem_range, bundlesFor_snoc]
          split_ifs with h
          · rw [h, queueOf, queueOf, List.foldl_append]
            rfl
          · rfl
      have hbound : op.1 ≤ ((List.range n).map (fun i => queueOf (bundlesFor i done))).length := by
        rw [List.length_map, List.length_range]
        omega
      rw [addInput, decide_eq_true hbound]
      simp only [hget, hset]
      rfl)
  exact hs

end ZipOperator

end RayTfm.Data
