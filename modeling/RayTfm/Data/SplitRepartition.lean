import RayTfm.Data.Batcher
import RayTfm.Data.BundleQueue

/-! # Repartitioning by splits

`SplitRepartitionTaskScheduler.execute` of `planner/exchange/split_repartition_task_scheduler.py`,
the repartition without a shuffle.  The blocks are cut at `outputNumBlocks - 1` equally spaced rows,
the pieces of every split are concatenated by a reduce task, and empty blocks fill up the number.

A reference to a block is modelled by the block, and a remote call by its result.  The running
index, a float in the source, is exact. -/

namespace RayTfm.Data

variable {α : Type}

/-- `BlockMetadataWithSchema`; the class of the schema object tells the format. -/
structure BlockMetadataWithSchema where
  metadata : BlockMetadata
  schemaFormat : BlockFormat
  schema : Schema
deriving DecidableEq, Repr

/-- The stats that come with the output. -/
structure SplitRepartitionStats where
  split : List BlockMetadata
  reduce : List BlockMetadataWithSchema
deriving DecidableEq, Repr

section
variable (sizeBytes : Block α → ℕ) (schemaOf : Block α → Schema)

/-- `BlockMetadataWithSchema.from_block`. -/
def BlockMetadataWithSchema.fromBlock (block : Block α) : BlockMetadataWithSchema :=
  ⟨⟨some block.rows.length, some (sizeBytes block), []⟩, block.format, schemaOf block⟩

/-- `ShuffleTaskSpec.reduce`, without the random shuffle. -/
def shuffleReduce (mapperOutputs : List (Block α)) :
    Except PyError (Block α × BlockMetadataWithSchema) := do
  let builder ← mapperOutputs.foldlM DelegatingBlockBuilder.addBlock .init
  .ok (builder.build, .fromBlock sizeBytes schemaOf builder.build)

end

namespace SplitRepartitionTaskScheduler

section
variable (sizeBytes : Block α → ℕ) (schemaOf : Block α → Schema)

/-- The loop over the bundles: their rows, and whether all of them own their blocks. -/
def inputLoop : List (RefBundle (Block α)) → ℕ → Bool → Except PyError (ℕ × Bool)
  | [], inputNumRows, owned => .ok (inputNumRows, owned)
  | refBundle :: refs, inputNumRows, owned =>
    match refBundle.numRows with
    | none => .error (.valueError "Cannot split partition on blocks with unknown number of rows.")
    | some n => inputLoop refs (inputNumRows + n) (if refBundle.ownsBlocks then owned else false)

/-- The loop that steps through the rows; the indices are not negative, so `int` is the floor. -/
def indexLoop (step : ℚ) : ℕ → ℚ → List ℤ
  | 0, _ => []
  | n + 1, curIdx => ⌊curIdx + step⌋ :: indexLoop step n (curIdx + step)

/-- The indices to split at. -/
def repartitionIndices (inputNumRows outputNumBlocks : ℕ) : List ℤ :=
  if outputNumBlocks = 1 then [(inputNumRows : ℤ)]
  else indexLoop (inputNumRows / outputNumBlocks) (outputNumBlocks - 1) 0

/-- All blocks of the bundles with their metadata. -/
def blocksWithMetadata (refs : List (RefBundle (Block α))) : BlockPartition α :=
  refs.flatMap (fun b => b.blocks.map (fun e => (e.1.ref, e.1.metadata)))

/-- The empty blocks behind the reduced ones, in the format of the first of these. -/
def emptyFillers (outputNumBlocks : ℕ) (reduced : List (Block α × BlockMetadataWithSchema)) :
    List (Block α × BlockMetadataWithSchema) :=
  if reduced.length < outputNumBlocks then
    let format :=
      match reduced with
      | [] => BlockFormat.arrow
      | r :: _ => r.2.schemaFormat
    let emptyBlock : Block α := ⟨format, []⟩
    List.replicate (outputNumBlocks - reduced.length)
      (emptyBlock, BlockMetadataWithSchema.fromBlock sizeBytes schemaOf emptyBlock)
  else []

/-- `l[j]` for a list. -/
def listItem {β : Type} (l : List β) (j : ℕ) : Except PyError β :=
  match l[j]? with
  | some b => .ok b
  | none => .error .indexError

/-- `SplitRepartitionTaskScheduler.execute`. -/
def execute (refs : List (RefBundle (Block α))) (outputNumBlocks : ℕ) :
    Except PyError (List (RefBundle (Block α)) × SplitRepartitionStats) := do
  let (inputNumRows, owned) ← inputLoop refs 0 true
  let indices := repartitionIndices inputNumRows outputNumBlocks
  pyAssert (indices.length ≤ outputNumBlocks)
  let splitReturn ← splitAtIndices sizeBytes (blocksWithMetadata refs) indices none
  let splits := splitReturn.1.zip splitReturn.2
  let splitBlockRefs := splits.map Prod.fst
  let chosen ← (List.range outputNumBlocks).mapM (listItem splitBlockRefs)
  -- only splits with blocks are reduced
  let reduced ← (chosen.filter (fun refs => 0 < refs.length)).mapM (shuffleReduce sizeBytes schemaOf)
  let results := reduced ++ emptyFillers sizeBytes schemaOf outputNumBlocks reduced
  let output ← results.mapM
    (fun r => RefBundle.make [(⟨r.1, r.2.metadata⟩, none)] (some r.2.schema) owned)
  .ok (output, ⟨splits.flatMap Prod.snd, results.map Prod.snd⟩)

end

/-! ### The indices -/

/-- The number of rows of part `i` when `n` rows are cut into `k` equal parts. -/
def partSize (n k i : ℕ) : ℕ := (i + 1) * n / k - i * n / k

theorem partSize_bounds (n k i : ℕ) : n / k ≤ partSize n k i ∧ partSize n k i ≤ n / k + 1 := by
  obtain rfl | hk := Nat.eq_zero_or_pos k
  · simp [partSize]
  · have hadd := Nat.add_div (a := i * n) (b := n) hk
    unfold partSize
    rw [Nat.succ_mul, hadd]
    generalize i * n / k = a
    generalize n / k = b
    split_ifs
    · omega
    · omega

variable {n k : ℕ}

theorem partEnd_le {i : ℕ} (h : i ≤ k) : i * n / k ≤ n :=
  Nat.div_le_of_le_mul (Nat.mul_le_mul_right n h)

theorem indexLoop_eq (n k : ℕ) : ∀ (m a : ℕ),
    indexLoop ((n : ℚ) / k) m ((a * n : ℕ) / (k : ℚ)) =
      (List.range' a m).map (fun i => (((i + 1) * n / k : ℕ) : ℤ))
  | 0, _ => rfl
  | m + 1, a => by
    have hstep : ((a * n : ℕ) : ℚ) / k + (n : ℚ) / k = (((a + 1) * n : ℕ) : ℚ) / k := by
      push_cast
      ring
    rw [indexLoop, hstep, indexLoop_eq n k m (a + 1), List.range'_succ, List.map_cons,
      Rat.floor_natCast_div_natCast, Int.natCast_div]

theorem repartitionIndices_eq (hk : k ≠ 1) :
    repartitionIndices n k = (List.range (k - 1)).map (fun i => (((i + 1) * n / k : ℕ) : ℤ)) := by
  have hloop := indexLoop_eq n k (k - 1) 0
  rw [Nat.zero_mul, Nat.cast_zero, zero_div] at hloop
  rw [repartitionIndices, if_neg hk, hloop, List.range_eq_range']

theorem length_repartitionIndices (hk : 0 < k) : (repartitionIndices n k).length ≤ k := by
  by_cases h1 : k = 1
  · rw [repartitionIndices, if_pos h1, h1]
    rfl
  · rw [repartitionIndices_eq h1, List.length_map, List.length_range]
    omega

theorem repartitionIndices_nonneg : ∀ i ∈ repartitionIndices n k, 0 ≤ i := by
  intro i hi
  by_cases h1 : k = 1
  · rw [repartitionIndices, if_pos h1, List.mem_singleton] at hi
    omega
  · rw [repartitionIndices_eq h1, List.mem_map] at hi
    obtain ⟨j, -, rfl⟩ := hi
    exact Int.natCast_nonneg _

theorem repartitionIndices_sorted : (repartitionIndices n k).Pairwise (· ≤ ·) := by
  by_cases h1 : k = 1
  · rw [repartitionIndices, if_pos h1]
    exact List.pairwise_singleton _ _
  · rw [repartitionIndices_eq h1]
    refine List.pairwise_map.mpr (List.pairwise_lt_range.imp (fun {a b} h => ?_))
    exact Int.ofNat_le.mpr (Nat.div_le_div_right (Nat.mul_le_mul_right n (by omega)))

/-- The splits end at the ends of the equal parts; with one part there is a split behind it. -/
theorem endPoints_repartitionIndices (hk : 0 < k) :
    ∃ rest, endPoints (repartitionIndices n k) n =
      (List.range k).map (fun i => (i + 1) * n / k) ++ rest := by
  by_cases h1 : k = 1
  · subst h1
    refine ⟨[n], ?_⟩
    rw [repartitionIndices, if_pos rfl, endPoints]
    simp
  · refine ⟨[], ?_⟩
    obtain ⟨m, rfl⟩ : ∃ m, k = m + 1 := ⟨k - 1, by omega⟩
    rw [repartitionIndices_eq h1, endPoints, List.map_map, List.append_nil, Nat.add_sub_cancel,
      List.range_succ, List.map_append, List.map_singleton, Nat.mul_div_cancel_left n hk]
    congr 1
    refine List.map_congr_left (fun i hi => ?_)
    have hle : (i + 1) * n / (m + 1) ≤ n := partEnd_le (by have := List.mem_range.mp hi; omega)
    show (min (((i + 1) * n / (m + 1) : ℕ) : ℤ) (n : ℤ)).toNat = (i + 1) * n / (m + 1)
    rw [min_eq_left (Int.ofNat_le.mpr hle), Int.toNat_natCast]

theorem cutPoints_repartitionIndices {j : ℕ} (hk : 0 < k) (hj : j ≤ k) :
    (cutPoints (repartitionIndices n k) n).getD j 0 = j * n / k := by
  obtain ⟨rest, hend⟩ := endPoints_repartitionIndices (n := n) hk
  cases j with
  | zero => rw [cutPoints, List.getD_cons_zero, Nat.zero_mul, Nat.zero_div]
  | succ i =>
    rw [cutPoints, List.getD_cons_succ, hend, List.getD_append _ _ _ _ (by simpa using hj),
      List.getD_eq_getElem _ _ (by simpa using hj), List.getElem_map, List.getElem_range]

theorem diffs_map_range' (f : ℕ → ℕ) (rest : List ℕ) : ∀ (m a : ℕ),
    diffs (f a) ((List.range' a m).map (fun i => f (i + 1)) ++ rest) =
      (List.range' a m).map (fun i => f (i + 1) - f i) ++ diffs (f (a + m)) rest
  | 0, _ => rfl
  | m + 1, a => by
    have ih := diffs_map_range' f rest m (a + 1)
    rw [List.range'_succ, List.map_cons, List.map_cons, List.cons_append, List.cons_append, diffs,
      ih, Nat.add_right_comm, Nat.add_assoc]

/-! ### The splits -/

/-- The first `k` splits hold all rows in order; split `i` is part `i` of the rows. -/
theorem split_spec (sizeBytes : Block α → ℕ) {blocks : BlockPartition α} (hm : ∀ p ∈ blocks, Counted p)
    (hk : 0 < k) (hn : n = (allRows blocks).length) :
    ∃ gs : List (BlockPartition α),
      splitAtIndices sizeBytes blocks (repartitionIndices n k) none =
        .ok (gs.map (fun g => g.map Prod.fst), gs.map (fun g => g.map Prod.snd)) ∧
      k ≤ gs.length ∧ (gs.take k).map (total pieceRows) = (List.range k).map (partSize n k) ∧
      allRows (gs.take k).flatten = allRows blocks ∧
      ∀ i (hi : i < gs.length), i < k →
        formatsOf gs[i] = segment (formatsOf blocks) (i * n / k) ((i + 1) * n / k) := by
  have hs : (repartitionIndices n k).Pairwise (· ≤ ·) := repartitionIndices_sorted
  obtain ⟨perBlock, pieces, gs, hplaced, hall, hg, hp, -, hrows, hsz⟩ :=
    splitAtIndices_pieces sizeBytes blocks (repartitionIndices n k) none hm (.inl rfl)
      repartitionIndices_nonneg hs
  rw [← hn] at hsz
  obtain ⟨rest, hend⟩ := endPoints_repartitionIndices (n := n) hk
  have hdiffs : diffs 0 (endPoints (repartitionIndices n k) n) =
      (List.range k).map (partSize n k) ++ diffs (k * n / k) rest := by
    have h := diffs_map_range' (fun i => i * n / k) rest k 0
    simp only [Nat.zero_mul, Nat.zero_div, Nat.zero_add] at h
    rw [hend, List.range_eq_range', h]
    rfl
  rw [hdiffs] at hsz
  have hlen : k ≤ gs.length := by
    have h := congrArg List.length hsz
    rw [List.length_map, List.length_append, List.length_map, List.length_range] at h
    omega
  have htake : (gs.take k).map (total pieceRows) = (List.range k).map (partSize n k) := by
    rw [List.map_take, hsz, List.take_append_of_le_length (by simp), List.take_of_length_le (by simp)]
  refine ⟨gs, hg, hlen, htake, ?_, ?_⟩
  · -- the parts make up all rows, so nothing is left behind the first `k` splits
    obtain ⟨t, ht⟩ := hp
    have hsplit : allRows blocks = allRows (gs.take k).flatten ++
      (allRows (gs.drop k).flatten ++ allRows t) := by
      rw [← hrows, ← ht, ← List.take_append_drop k gs, List.flatten_append, allRows_append,
        allRows_append, List.take_append_drop, List.append_assoc]
    have hk' : k < (cutPoints (repartitionIndices n k) n).length := by
      rw [cutPoints, hend, List.length_cons, List.length_append, List.length_map, List.length_range]
      omega
    have hsum : ((diffs 0 (endPoints (repartitionIndices n k) n)).take k).sum = n := by
      have h := sum_take_diffs (cutPoints_sorted hs) hk'
      have hcut := cutPoints_repartitionIndices (n := n) hk le_rfl
      rw [List.getD_eq_getElem _ _ hk', Nat.mul_div_cancel_left n hk] at hcut
      rw [Nat.zero_add] at h
      exact h.trans hcut
    rw [hdiffs, ← hsz, ← List.map_take, ← total_flatten, ← length_allRows] at hsum
    have hrest : allRows (gs.drop k).flatten ++ allRows t = [] := by
      apply List.eq_nil_of_length_eq_zero
      have hlength := congrArg List.length hsplit
      rw [List.length_append, hsum] at hlength
      omega
    rw [hsplit, hrest, List.append_nil]
  · intro i hi hik
    have hprefix : (gs.map formatsOf).flatten <+: formatsOf blocks := by
      obtain ⟨t, ht⟩ := hp
      rw [← splitAllBlocks_formatsOf hm hplaced hall, ← ht, formatsOf_append, formatsOf_flatten]
      exact List.prefix_append _ _
    rw [← hdiffs] at hsz
    rw [group_eq_segment length_formatsOf hs hprefix hsz hi, cutPoints_repartitionIndices hk hik.le,
      cutPoints_repartitionIndices hk hik]

/-! ### The reduce tasks -/

variable {sizeBytes : Block α → ℕ} {schemaOf : Block α → Schema}

/-- A block with the metadata that describe it. -/
def withMetadata (sizeBytes : Block α → ℕ) (schemaOf : Block α → Schema) (b : Block α) :
    Block α × BlockMetadataWithSchema := (b, .fromBlock sizeBytes schemaOf b)

variable {blocks : List (Block α)}

/-- Blocks of one format, as far as they have rows, become one block with their rows. -/
theorem shuffleReduce_spec (sizeBytes : Block α → ℕ) (schemaOf : Block α → Schema)
    {fmt : BlockFormat} (h : ∀ b ∈ blocks, b.rows ≠ [] → b.format = fmt) :
    ∃ b, shuffleReduce sizeBytes schemaOf blocks = .ok (withMetadata sizeBytes schemaOf b) ∧
      b.rows = blockRows blocks := by
  obtain ⟨t, ht, -, hrows⟩ := DelegatingBlockBuilder.foldlM_addBlock h
  refine ⟨t.build, ?_, hrows⟩
  rw [shuffleReduce, ht]
  rfl

theorem mapM_shuffleReduce (sizeBytes : Block α → ℕ) (schemaOf : Block α → Schema)
    {groups : List (List (Block α))}
    (h : ∀ g ∈ groups, ∃ fmt : BlockFormat, ∀ b ∈ g, b.rows ≠ [] → b.format = fmt) :
    ∃ bs : List (Block α), groups.mapM (shuffleReduce sizeBytes schemaOf) =
      .ok (bs.map (withMetadata sizeBytes schemaOf)) ∧
      bs.map Block.rows = groups.map blockRows := by
  induction groups with
  | nil => exact ⟨[], rfl, rfl⟩
  | cons g groups ih =>
    obtain ⟨fmt, hfmt⟩ := h g (.head _)
    obtain ⟨b, hb, hrows⟩ := shuffleReduce_spec sizeBytes schemaOf hfmt
    obtain ⟨bs, hbs, hrest⟩ := ih (fun g' hg' => h g' (.tail _ hg'))
    refine ⟨b :: bs, ?_, by rw [List.map_cons, List.map_cons, hrows, hrest]⟩
    rw [List.mapM_cons, hb, ok_bind, hbs]
    rfl

theorem emptyFillers_eq (sizeBytes : Block α → ℕ) (schemaOf : Block α → Schema)
    (k : ℕ) (bs : List (Block α)) :
    ∃ fmt : BlockFormat, emptyFillers sizeBytes schemaOf k (bs.map (withMetadata sizeBytes schemaOf)) =
      (List.replicate (k - bs.length) (⟨fmt, []⟩ : Block α)).map (withMetadata sizeBytes schemaOf) := by
  unfold emptyFillers
  rw [List.length_map]
  split_ifs with hlt
  · exact ⟨_, by rw [List.map_replicate]; rfl⟩
  · refine ⟨.arrow, ?_⟩
    rw [Nat.sub_eq_zero_of_le (by omega)]
    rfl

/-- The bundle of one output block. -/
def outputBundle (sizeBytes : Block α → ℕ) (schemaOf : Block α → Schema) (owned : Bool) (b : Block α) :
    RefBundle (Block α) where
  blocks := [(⟨b, ⟨some b.rows.length, some (sizeBytes b), []⟩⟩, none)]
  schema := some (schemaOf b)
  ownsBlocks := owned
  outputSplitIdx := none
  slices_valid := by
    intro e he
    rw [List.mem_singleton.mp he]
    exact nofun
  sizes_known := by
    intro e he
    rw [List.mem_singleton.mp he]
    rfl

theorem make_outputBundle (owned : Bool) (b : Block α) :
    RefBundle.make [(⟨b, (withMetadata sizeBytes schemaOf b).2.metadata⟩, none)]
        (some (withMetadata sizeBytes schemaOf b).2.schema) owned =
      .ok (outputBundle sizeBytes schemaOf owned b) := by
  exact (dif_pos (outputBundle sizeBytes schemaOf owned b).slices_valid).trans
    (dif_pos (outputBundle sizeBytes schemaOf owned b).sizes_known)

theorem mapM_outputBundle (owned : Bool) (blocks : List (Block α)) :
    (blocks.map (withMetadata sizeBytes schemaOf)).mapM (fun r =>
      RefBundle.make [(⟨r.1, r.2.metadata⟩, none)] (some r.2.schema) owned) =
        .ok (blocks.map (outputBundle sizeBytes schemaOf owned)) := by
  rw [List.mapM_map]
  exact mapM_eq_ok (fun b _ => make_outputBundle owned b)

theorem rows_outputBundle (owned : Bool) (b : Block α) :
    (outputBundle sizeBytes schemaOf owned b).rows Block.rows = b.rows := by
  rw [RefBundle.rows, outputBundle, RefBundle.content_cons, RefBundle.content_nil, List.append_nil]
  rfl

/-! ### The whole repartition -/

/-- A bundle of full blocks with known and correct row counts. -/
def FullBlocks (b : RefBundle (Block α)) : Prop :=
  ∀ e ∈ b.blocks, e.2 = none ∧ e.1.metadata.numRows = some e.1.ref.rows.length

/-- The rows of every part come in one format. -/
def PartsOfOneFormat (refs : List (RefBundle (Block α))) (k : ℕ) : Prop :=
  ∀ i < k, ∃ fmt, ∀ f ∈ segment (formatsOf (blocksWithMetadata refs))
    (i * (rowsOf Block.rows refs).length / k)
    ((i + 1) * (rowsOf Block.rows refs).length / k), f = fmt

/-- `out` is a repartition of the rows into `k` blocks: one block a bundle, the rows in order, and
the row counts those of the equal parts in some order. -/
structure Repartitions (rows : List α) (k : ℕ) (out : List (RefBundle (Block α))) : Prop where
  length : out.length = k
  single : ∀ b ∈ out, ∃ block metadata, b.blocks = [(⟨block, metadata⟩, none)] ∧
    metadata.numRows = some block.rows.length
  content : rowsOf Block.rows out = rows
  counts : (out.map (fun b => (b.rows Block.rows).length)).Perm
    ((List.range k).map (partSize rows.length k))
  near : ∀ b ∈ out, ∀ b' ∈ out, (b.rows Block.rows).length ≤ (b'.rows Block.rows).length + 1

theorem FullBlocks.counted {b : RefBundle (Block α)} (h : FullBlocks b) : b.Counted Block.rows := by
  intro e he
  obtain ⟨hfull, hcount⟩ := h e he
  refine ⟨fun _ => by rw [hcount]; rfl, fun n hn => ?_, fun s hs => ?_⟩
  · rw [hcount, Option.mem_some_iff] at hn
    exact hn.symm
  · rw [hfull] at hs
    cases hs

theorem inputLoop_eq : ∀ {refs : List (RefBundle (Block α))} (n : ℕ) (owned : Bool),
    (∀ b ∈ refs, b.Counted Block.rows) →
      ∃ owned', inputLoop refs n owned = .ok (n + (rowsOf Block.rows refs).length, owned')
  | [], n, owned, _ => ⟨owned, rfl⟩
  | b :: refs, n, owned, h => by
    obtain ⟨owned', hloop⟩ := inputLoop_eq (n + (b.rows Block.rows).length)
      (if b.ownsBlocks then owned else false) (fun b' hb' => h b' (.tail _ hb'))
    refine ⟨owned', ?_⟩
    rw [inputLoop, (h b List.mem_cons_self).numRows_eq, rowsOf_cons, List.length_append,
      ← Nat.add_assoc]
    exact hloop

theorem allRows_blocksWithMetadata : ∀ {refs : List (RefBundle (Block α))},
    (∀ b ∈ refs, FullBlocks b) → allRows (blocksWithMetadata refs) = rowsOf Block.rows refs
  | [], _ => rfl
  | b :: refs, h => by
    have hb : ∀ {l : List (SlicedEntry (Block α))}, (∀ e ∈ l, e.2 = none) →
        allRows (l.map (fun e => (e.1.ref, e.1.metadata))) = RefBundle.content Block.rows l := by
      intro l
      induction l with
      | nil => exact fun _ => rfl
      | cons e l ih =>
        intro hl
        rw [List.map_cons, allRows_cons, RefBundle.content_cons,
          ih (fun e' he' => hl e' (.tail _ he')), RefBundle.entryContent, hl e (.head _)]
    have ih := allRows_blocksWithMetadata (fun b' hb' => h b' (.tail _ hb'))
    unfold blocksWithMetadata at ih ⊢
    rw [List.flatMap_cons, allRows_append, rowsOf_cons, ih, RefBundle.rows]
    rw [hb (fun e he => (h b List.mem_cons_self e he).1)]

variable {refs : List (RefBundle (Block α))}

theorem counted_blocksWithMetadata (h : ∀ b ∈ refs, FullBlocks b) :
    ∀ p ∈ blocksWithMetadata refs, Counted p := by
  intro p hp
  obtain ⟨b, hb, hp⟩ := List.mem_flatMap.mp hp
  obtain ⟨e, he, rfl⟩ := List.mem_map.mp hp
  exact (h b hb e he).2

theorem mapM_listItem {β : Type} {l : List β} (h : k ≤ l.length) :
    (List.range k).mapM (listItem l) = .ok (l.take k) := by
  rw [mapM_eq_ok_iff, List.forall₂_iff_get]
  refine ⟨by simp [h], fun i hi hi' => ?_⟩
  have hlt : i < l.length := by
    rw [List.length_range] at hi
    omega
  simp only [listItem, List.get_eq_getElem, List.getElem_range, List.getElem_take,
    List.getElem?_eq_getElem hlt]

theorem blockRows_map_fst (g : BlockPartition α) : blockRows (g.map Prod.fst) = allRows g := by
  rw [blockRows, List.flatMap_map, allRows, List.flatMap_def]

theorem format_of_formatsOf {g : BlockPartition α} {fmt : BlockFormat}
    (h : ∀ f ∈ formatsOf g, f = fmt) :
    ∀ b ∈ g.map Prod.fst, b.rows ≠ [] → b.format = fmt := by
  intro b hb hne
  obtain ⟨p, hp, rfl⟩ := List.mem_map.mp hb
  apply h
  exact List.mem_flatMap.mpr
    ⟨p, hp, List.mem_replicate.mpr ⟨fun h0 => hne (List.length_eq_zero_iff.mp h0), rfl⟩⟩

/-- Blocks with the rows in order and the right row counts, one bundle each. -/
theorem repartitions_of_blocks (sizeBytes : Block α → ℕ) (schemaOf : Block α → Schema)
    {rows : List α} (hrows : blockRows blocks = rows)
    (hcounts : (blocks.map (fun b => b.rows.length)).Perm ((List.range k).map (partSize rows.length k)))
    (owned : Bool) : Repartitions rows k (blocks.map (outputBundle sizeBytes schemaOf owned)) := by
  have hmap : (blocks.map (outputBundle sizeBytes schemaOf owned)).map
    (fun b => (b.rows Block.rows).length) =
      blocks.map (fun b => b.rows.length) := by
    rw [List.map_map]
    exact List.map_congr_left (fun b _ => congrArg List.length (rows_outputBundle owned b))
  have hlen := hcounts.length_eq
  rw [List.length_map, List.length_map, List.length_range] at hlen
  rw [← hmap] at hcounts
  have hbound : ∀ b ∈ blocks.map (outputBundle sizeBytes schemaOf owned),
      rows.length / k ≤ (b.rows Block.rows).length ∧
      (b.rows Block.rows).length ≤ rows.length / k + 1 := by
    intro b hb
    obtain ⟨i, -, hi⟩ := List.mem_map.mp (hcounts.subset (List.mem_map_of_mem hb))
    rw [← hi]
    exact partSize_bounds _ _ _
  refine ⟨by rw [List.length_map, hlen], ?_, ?_, hcounts, ?_⟩
  · intro b hb
    obtain ⟨block, -, rfl⟩ := List.mem_map.mp hb
    exact ⟨block, _, rfl, rfl⟩
  · rw [rowsOf, List.flatMap_map, ← hrows]
    exact List.flatMap_congr (fun b _ => rows_outputBundle owned b)
  · intro b hb b' hb'
    have h := (hbound b hb).2
    have h' := (hbound b' hb').1
    omega

theorem flatten_map_blockRows (groups : List (List (Block α))) :
    (groups.map blockRows).flatten = blockRows groups.flatten := by
  induction groups with
  | nil => rfl
  | cons g groups ih => rw [List.map_cons, List.flatten_cons, ih, List.flatten_cons, blockRows_append]

/-- Splits without blocks are left out, and blocks without rows take their places at the end. -/
theorem filled_spec {chosen : List (List (Block α))} {bs : List (Block α)}
    (hbs : bs.map Block.rows = (chosen.filter (fun g => 0 < g.length)).map blockRows)
    (fmt : BlockFormat) :
    blockRows (bs ++ List.replicate (chosen.length - bs.length) ⟨fmt, []⟩) = blockRows chosen.flatten ∧
      ((bs ++ List.replicate (chosen.length - bs.length) (⟨fmt, []⟩ : Block α)).map
        (fun b => b.rows.length)).Perm
        (chosen.map (fun g => (blockRows g).length)) := by
  have hempty : ∀ g ∈ chosen.filter (fun g => !decide (0 < g.length)), g = [] := by
    intro g hg
    have h := (List.mem_filter.mp hg).2
    rw [Bool.not_eq_true', decide_eq_false_iff_not] at h
    exact List.length_eq_zero_iff.mp (by omega)
  have hperm := List.filter_append_perm (fun g : List (Block α) => decide (0 < g.length)) chosen
  have hlen : (chosen.filter (fun g => !decide (0 < g.length))).length = chosen.length - bs.length := by
    have h := hperm.length_eq
    have hb := congrArg List.length hbs
    rw [List.length_append] at h
    rw [List.length_map, List.length_map] at hb
    omega
  constructor
  · have hflat : (chosen.filter (fun g => 0 < g.length)).flatten = chosen.flatten := by
      rw [← List.flatten_filter_not_isEmpty (L := chosen)]
      congr 1
      apply List.filter_congr
      intro g _
      cases g <;> simp
    have hfill : blockRows (List.replicate (chosen.length - bs.length) (⟨fmt, []⟩ : Block α)) = [] := by
      apply List.flatMap_eq_nil_iff.mpr
      intro b hb
      rw [List.eq_of_mem_replicate hb]
    rw [blockRows_append, hfill, List.append_nil, ← hflat, ← flatten_map_blockRows, ← hbs,
      blockRows, List.flatMap_def]
  · have hlens : bs.map (fun b => b.rows.length) =
        (chosen.filter (fun g => 0 < g.length)).map (fun g => (blockRows g).length) := by
      have h := congrArg (List.map List.length) hbs
      rw [List.map_map, List.map_map] at h
      exact h
    have hzero : (chosen.filter (fun g => !decide (0 < g.length))).map (fun g => (blockRows g).length) =
        List.replicate (chosen.length - bs.length) 0 := by
      rw [← hlen, List.eq_replicate_iff]
      refine ⟨by rw [List.length_map], fun n hn => ?_⟩
      obtain ⟨g, hg, rfl⟩ := List.mem_map.mp hn
      rw [hempty g hg]
      rfl
    rw [List.map_append, List.map_replicate, hlens]
    have h := hperm.map (fun g => (blockRows g).length)
    rw [List.map_append, hzero] at h
    exact h

/-- The splits that are reduced: all rows in order, in the sizes of the parts, each in one
format. -/
theorem chosen_spec (sizeBytes : Block α → ℕ) (hk : 0 < k)
    (hfull : ∀ b ∈ refs, FullBlocks b) (hformats : PartsOfOneFormat refs k) :
    ∃ splits metas, splitAtIndices sizeBytes (blocksWithMetadata refs)
        (repartitionIndices (rowsOf Block.rows refs).length k) none = .ok (splits, metas) ∧
      splits.length ≤ metas.length ∧ k ≤ splits.length ∧
      blockRows (splits.take k).flatten = rowsOf Block.rows refs ∧
      (splits.take k).map (fun g => (blockRows g).length) =
        (List.range k).map (partSize (rowsOf Block.rows refs).length k) ∧
      ∀ g ∈ splits.take k, ∃ fmt, ∀ b ∈ g, b.rows ≠ [] → b.format = fmt := by
  have hall := allRows_blocksWithMetadata hfull
  obtain ⟨gs, hsplit, hlen, hsizes, hrows, hgroups⟩ :=
    split_spec sizeBytes (counted_blocksWithMetadata hfull) hk (congrArg List.length hall.symm)
  have hcontent : ((gs.map (fun g => g.map Prod.fst)).take k).map blockRows =
    (gs.take k).map allRows := by
    rw [← List.map_take, List.map_map]
    exact List.map_congr_left (fun g _ => blockRows_map_fst g)
  refine ⟨_, _, hsplit, by simp, by simpa using hlen, ?_, ?_, ?_⟩
  · rw [← flatten_map_blockRows, hcontent, allRows_flatten, hrows, hall]
  · have h := congrArg (List.map List.length) hcontent
    rw [List.map_map, List.map_map] at h
    rw [← hsizes]
    exact h.trans (List.map_congr_left (fun g _ => length_allRows g))
  · intro g hg
    rw [← List.map_take, List.mem_map] at hg
    obtain ⟨g', hg', rfl⟩ := hg
    obtain ⟨i, hi, rfl⟩ := List.mem_iff_getElem.mp hg'
    rw [List.length_take] at hi
    have hik : i < k := by omega
    have hlt : i < gs.length := by omega
    obtain ⟨fmt, hfmt⟩ := hformats i hik
    rw [← hgroups i hlt hik] at hfmt
    rw [List.getElem_take]
    exact ⟨fmt, format_of_formatsOf hfmt⟩

end SplitRepartitionTaskScheduler

end RayTfm.Data
