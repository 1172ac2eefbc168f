import RayTfm.Py
import RayTfm.Lib.Cuts

/-! # Splitting blocks at row indices

The model of `data/_internal/split.py`.  A dataset is a list of blocks with metadata; object
references are modelled by the blocks they refer to, and a remote call by its result.
`splitAtIndices` works in the three phases of the source:

* `generatePerBlockSplitIndices` turns the global indices (cut off at the total number of rows)
  into one list of local indices per block, by a two-pointer loop over indices and blocks;
* `splitAllBlocks` drops the local indices that would create empty pieces and slices each block;
* `generateGlobalSplitResults` reads the pieces from an iterator and starts a new split each
  time the counted rows reach the size of the current one.

Every function returns in `Except`, with the errors the source can reach: a block index or an
iterator running out, a failing `assert`, a slice with a bad bound. -/

namespace RayTfm.Data

/-- The two in-memory table formats of a block. -/
inductive BlockFormat where
  | arrow
  | pandas
deriving DecidableEq, Repr

/-- A block: a table, of which only the rows matter here. -/
structure Block (α : Type) where
  format : BlockFormat
  rows : List α
deriving DecidableEq, Repr

/-- Block metadata; the execution statistics are timing data and are left out. -/
structure BlockMetadata where
  numRows : Option ℕ
  sizeBytes : Option ℕ
  inputFiles : List String
deriving DecidableEq, Repr

/-- Blocks with their metadata. -/
abbrev BlockPartition (α : Type) := List (Block α × BlockMetadata)

variable {α : Type}

/-- A Python slice bound on a sequence of length `n`: negative bounds count from the end. -/
def sliceBound (n : ℕ) (i : ℤ) : ℕ :=
  if i < 0 then (i + n).toNat else min i.toNat n

/-- `BlockAccessor.slice`.  Arrow computes `end - start` and rejects negative arguments; pandas
takes an ordinary Python slice, which allows a missing end. -/
def Block.slice (b : Block α) (start : ℤ) (stop : Option ℤ) : Except PyError (Block α) :=
  match b.format, stop with
  | .arrow, none => .error .typeError
  | .arrow, some e =>
    if start < 0 then .error .indexError
    else if e - start < 0 then .error (.valueError "Length must be non-negative")
    else .ok { b with rows := (b.rows.drop start.toNat).take (e - start).toNat }
  | .pandas, none => .ok { b with rows := b.rows.drop (sliceBound b.rows.length start) }
  | .pandas, some e =>
    .ok { b with rows := segment b.rows (sliceBound b.rows.length start) (sliceBound b.rows.length e) }

/-- `_calculate_blocks_rows`: the recorded row counts, fetched from the block where missing. -/
def calculateBlocksRows (blocks : BlockPartition α) : List ℕ :=
  blocks.map (fun p => p.2.numRows.getD p.1.rows.length)

/-- `_generate_valid_indices`. -/
def generateValidIndices (numRowsPerBlock : List ℕ) (splitIndices : List ℤ) : List ℤ :=
  splitIndices.map (fun index => min index numRowsPerBlock.sum)

/-- The closing loop of `_generate_per_block_split_indices`: the current list goes to the
current block, every later block gets an empty list. -/
def fillRemaining : ℕ → List ℤ → List (List ℤ)
  | 0, _ => []
  | n + 1, current => current :: fillRemaining n []

/-- The main loop of `_generate_per_block_split_indices` on the indices and the blocks not yet
passed, with the global offset of the current block and the indices collected for it. -/
def perBlockLoop : List ℤ → List ℕ → ℤ → List ℤ → Except PyError (List (List ℤ))
  | [], blocks, _, current => .ok (fillRemaining blocks.length current)
  | _ :: _, [], _, _ => .error .indexError
  | index :: indices, n :: blocks, offset, current =>
    if index - offset ≤ n then
      perBlockLoop indices (n :: blocks) offset (current ++ [index - offset])
    else do
      let rest ← perBlockLoop (index :: indices) blocks (offset + n) []
      .ok (current :: rest)
termination_by indices blocks => indices.length + blocks.length

/-- `_generate_per_block_split_indices`. -/
def generatePerBlockSplitIndices (numRowsPerBlock : List ℕ) (splitIndices : List ℤ) :
    Except PyError (List (List ℤ)) :=
  perBlockLoop splitIndices numRowsPerBlock 0 []

/-- The loop of `_drop_empty_block_split`, with the index kept last. -/
def dropEmptyLoop (numRows : Option ℕ) : ℤ → List ℤ → List ℤ
  | _, [] => []
  | prev, index :: indices =>
    if index = 0 ∨ (numRows.map Nat.cast) = some index then dropEmptyLoop numRows prev indices
    else if index = prev then dropEmptyLoop numRows prev indices
    else index :: dropEmptyLoop numRows index indices

/-- `_drop_empty_block_split`. -/
def dropEmptyBlockSplit (blockSplitIndices : List ℤ) (numRows : Option ℕ) : List ℤ :=
  dropEmptyLoop numRows (-1) blockSplitIndices

section
variable (sizeBytes : Block α → ℕ)

/-- Metadata of a freshly cut piece. -/
def sliceMeta (m : BlockMetadata) (piece : Block α) : BlockMetadata :=
  ⟨some piece.rows.length, some (sizeBytes piece), m.inputFiles⟩

/-- The loop of `_split_single_block` over the split indices, from the previous index on. -/
def splitSingleLoop (block : Block α) (m : BlockMetadata) :
    ℤ → List (Option ℤ) → Except PyError (List BlockMetadata × List (Block α))
  | _, [] => .ok ([], [])
  | prev, index :: indices => do
      let piece ← block.slice prev index
      let (metas, pieces) ← splitSingleLoop block m (index.getD 0) indices
      .ok (sliceMeta sizeBytes m piece :: metas, piece :: pieces)

/-- `_split_single_block`: one more entry is appended at the end, the row count on record. -/
def splitSingleBlock (block : Block α) (m : BlockMetadata) (splitIndices : List ℤ) :
    Except PyError (List BlockMetadata × List (Block α)) :=
  splitSingleLoop sizeBytes block m 0 (splitIndices.map some ++ [m.numRows.map Nat.cast])

/-- The body of the loop of `_split_all_blocks`: a block without proper split index passes
through as it is, any other goes to the remote split function. -/
def splitBlock (block : Block α) (m : BlockMetadata) (indices : List ℤ) :
    Except PyError (BlockPartition α) :=
  let blockSplitIndices := dropEmptyBlockSplit indices m.numRows
  if blockSplitIndices.length = 0 then .ok [(block, m)]
  else do
    let (metas, refs) ← splitSingleBlock sizeBytes block m blockSplitIndices
    pyAssert (metas.length == refs.length)
    .ok (refs.zip metas)

/-- `_split_all_blocks`, over the blocks and their lists of local indices side by side. -/
def splitAllBlocks : BlockPartition α → List (List ℤ) → Except PyError (BlockPartition α)
  | [], [] => .ok []
  | [], _ :: _ => .error .indexError
  | _ :: _, [] => .error .typeError
  | (block, m) :: blocks, indices :: perBlock => do
      let pieces ← splitBlock sizeBytes block m indices
      let rest ← splitAllBlocks blocks perBlock
      .ok (pieces ++ rest)

end

/-- `_generate_global_split_results` on the pieces left in the iterator and the split sizes
left, with the blocks, the metadata and the number of rows collected for the current split. -/
def globalSplitLoop : BlockPartition α → List ℤ → List (Block α) → List BlockMetadata → ℤ →
    Except PyError (List (List (Block α)) × List (List BlockMetadata))
  | _, [], _, _, _ => .ok ([], [])
  | pieces, size :: sizes, blocks, metas, current =>
    if size ≤ current then do
      pyAssert (current == size)
      let (bs, ms) ← globalSplitLoop pieces sizes [] [] 0
      .ok (blocks :: bs, metas :: ms)
    else
      match pieces with
      | [] => .error .stopIteration
      | (block, m) :: pieces =>
        match m.numRows with
        | none => .error .typeError
        | some n =>
          globalSplitLoop pieces (size :: sizes) (blocks ++ [block]) (metas ++ [m]) (current + n)
termination_by pieces sizes => pieces.length + sizes.length

/-- `_generate_global_split_results`. -/
def generateGlobalSplitResults (pieces : BlockPartition α) (globalSplitSizes : List ℤ) :
    Except PyError (List (List (Block α)) × List (List BlockMetadata)) :=
  globalSplitLoop pieces globalSplitSizes [] [] 0

/-- Differences of neighbours, the sizes of the splits between consecutive indices. -/
def neighbourDiffs (helper : List ℤ) : List ℤ := List.zipWith (· - ·) helper.tail helper

/-- `_split_at_indices`; `blockRows` are the row counts, if the caller has them already. -/
def splitAtIndices (sizeBytes : Block α → ℕ) (blocks : BlockPartition α) (indices : List ℤ)
    (blockRows : Option (List ℕ)) :
    Except PyError (List (List (Block α)) × List (List BlockMetadata)) :=
  if blocks.length = 0 then
    .ok (List.replicate (indices.length + 1) [], List.replicate (indices.length + 1) [])
  else do
    let blockRows := blockRows.getD (calculateBlocksRows blocks)
    let validIndices := generateValidIndices blockRows indices
    let perBlockSplitIndices ← generatePerBlockSplitIndices blockRows validIndices
    let pieces ← splitAllBlocks sizeBytes blocks perBlockSplitIndices
    let splitSizes := neighbourDiffs ([0] ++ validIndices ++ [(blockRows.sum : ℤ)])
    generateGlobalSplitResults pieces splitSizes

/-! ### The local indices of each block -/

/-- `v` is one of the local indices, counted from the first row of the first block. -/
def Covered : List ℕ → List (List ℤ) → ℤ → Prop
  | n :: blocks, ps :: perBlock, v => v ∈ ps ∨ Covered blocks perBlock (v - n)
  | _, _, _ => False

/-- Local indices of a block with `n` rows: in order and inside the block. -/
def Placed (n : ℕ) (ps : List ℤ) : Prop := ps.Pairwise (· ≤ ·) ∧ ∀ p ∈ ps, 0 ≤ p ∧ p ≤ n

theorem Covered.nonneg : ∀ {blocks : List ℕ} {perBlock : List (List ℤ)} {v : ℤ},
    List.Forall₂ Placed blocks perBlock → Covered blocks perBlock v → 0 ≤ v
  | n :: blocks, ps :: perBlock, v, hp, hc => by
    obtain ⟨hp1, hp2⟩ := List.forall₂_cons.mp hp
    obtain h | h := hc
    · exact (hp1.2 v h).1
    · have := Covered.nonneg hp2 h
      omega

theorem fillRemaining_succ (n : ℕ) (current : List ℤ) :
    fillRemaining (n + 1) current = current :: List.replicate n [] := by
  have h : ∀ m, fillRemaining m [] = List.replicate m [] := by
    intro m
    induction m with
    | zero => rfl
    | succ m ih => rw [fillRemaining, ih, List.replicate_succ]
  rw [fillRemaining, h]

theorem forall₂_placed_replicate (blocks : List ℕ) :
    List.Forall₂ Placed blocks (List.replicate blocks.length []) := by
  induction blocks with
  | nil => exact .nil
  | cons n blocks ih => exact .cons ⟨List.Pairwise.nil, by simp⟩ ih

/-- The loop never runs past the last block, and files every index under its block. -/
theorem perBlockLoop_spec : ∀ (indices : List ℤ) (n : ℕ) (blocks : List ℕ) (offset : ℤ)
    (current : List ℤ),
    indices.Pairwise (· ≤ ·) → (∀ v ∈ indices, offset ≤ v ∧ v ≤ offset + (n + blocks.sum : ℕ)) →
    Placed n current → (∀ p ∈ current, ∀ v ∈ indices, offset + p ≤ v) →
    ∃ ps perBlock, perBlockLoop indices (n :: blocks) offset current = .ok (ps :: perBlock) ∧
      List.Forall₂ Placed (n :: blocks) (ps :: perBlock) ∧ current ⊆ ps ∧
      ∀ v ∈ indices, Covered (n :: blocks) (ps :: perBlock) (v - offset)
  | [], n, blocks, offset, current, _, _, hc, _ => by
    refine ⟨current, List.replicate blocks.length [], ?_, .cons hc (forall₂_placed_replicate blocks),
      List.Subset.refl _, by simp⟩
    rw [perBlockLoop, List.length_cons, fillRemaining_succ]
  | index :: indices, n, blocks, offset, current, hs, hb, hc, hle => by
    obtain ⟨hs1, hs2⟩ := List.pairwise_cons.mp hs
    have hbi := hb index (by simp)
    rw [perBlockLoop]
    by_cases hin : index - offset ≤ n
    · -- the index lies in the current block, its right border included
      rw [if_pos hin]
      have hc' : Placed n (current ++ [index - offset]) := by
        refine ⟨List.pairwise_append.mpr ⟨hc.1, List.pairwise_singleton _ _, ?_⟩, ?_⟩
        · intro p hp q hq
          have := hle p hp index (by simp)
          rw [List.mem_singleton] at hq
          omega
        · intro p hp
          obtain hp | hp := List.mem_append.mp hp
          · exact hc.2 p hp
          · rw [List.mem_singleton] at hp
            omega
      obtain ⟨ps, perBlock, he, hf, hsub, hcov⟩ := perBlockLoop_spec indices n blocks offset
        (current ++ [index - offset]) hs2 (fun v hv => hb v (.tail _ hv)) hc'
        (by
          intro p hp v hv
          obtain hp | hp := List.mem_append.mp hp
          · exact hle p hp v (.tail _ hv)
          · rw [List.mem_singleton] at hp
            have := hs1 v hv
            omega)
      refine ⟨ps, perBlock, he, hf, fun p hp => hsub (by simp [hp]), ?_⟩
      intro v hv
      obtain rfl | hv := List.mem_cons.mp hv
      · exact Or.inl (hsub (by simp))
      · exact hcov v hv
    · rw [if_neg hin]
      cases blocks with
      | nil => simp at hbi; omega
      | cons n' blocks =>
        simp only [List.sum_cons] at hb hbi
        obtain ⟨ps, perBlock, he, hf, -, hcov⟩ := perBlockLoop_spec (index :: indices) n' blocks
          (offset + n) [] hs
          (by
            intro v hv
            have h1 := hb v hv
            have h2 : index ≤ v := by
              obtain rfl | hv := List.mem_cons.mp hv
              · exact le_rfl
              · exact hs1 v hv
            omega)
          ⟨List.Pairwise.nil, by simp⟩ (by simp)
        refine ⟨current, ps :: perBlock, ?_, .cons hc hf, List.Subset.refl _, ?_⟩
        · rw [he]; rfl
        · intro v hv
          have := hcov v hv
          rw [← sub_sub] at this
          exact Or.inr this
termination_by indices _ blocks => indices.length + blocks.length

/-! ### Dropping the indices of empty pieces -/

/-- What is kept is strictly increasing and inside the block; what is dropped was a border of
the block or a repetition. -/
theorem dropEmptyLoop_spec (n : ℕ) : ∀ (ps : List ℤ) (prev : ℤ), (prev :: ps).Pairwise (· ≤ ·) →
    (prev :: dropEmptyLoop (some n) prev ps).Pairwise (· < ·) ∧
    (∀ q ∈ dropEmptyLoop (some n) prev ps, q ∈ ps ∧ q ≠ 0 ∧ q ≠ n) ∧
    ∀ p ∈ ps, p = 0 ∨ p = n ∨ p = prev ∨ p ∈ dropEmptyLoop (some n) prev ps
  | [], prev, _ => by simp [dropEmptyLoop]
  | p :: ps, prev, h => by
    have hskip : (prev :: ps).Pairwise (· ≤ ·) := by
      rw [List.pairwise_cons] at h ⊢
      exact ⟨fun x hx => h.1 x (.tail _ hx), (List.pairwise_cons.mp h.2).2⟩
    have hpp : prev ≤ p := (List.pairwise_cons.mp h).1 p (by simp)
    rw [dropEmptyLoop]
    split_ifs with hborder hrep
    · obtain ⟨h1, h2, h3⟩ := dropEmptyLoop_spec n ps prev hskip
      refine ⟨h1, fun q hq => ⟨.tail _ (h2 q hq).1, (h2 q hq).2⟩, ?_⟩
      intro x hx
      obtain rfl | hx := List.mem_cons.mp hx
      · rcases hborder with rfl | he
        · exact Or.inl rfl
        · exact Or.inr (Or.inl (by simpa using he.symm))
      · exact h3 x hx
    · obtain ⟨h1, h2, h3⟩ := dropEmptyLoop_spec n ps prev hskip
      refine ⟨h1, fun q hq => ⟨.tail _ (h2 q hq).1, (h2 q hq).2⟩, ?_⟩
      intro x hx
      obtain rfl | hx := List.mem_cons.mp hx
      · exact Or.inr (Or.inr (Or.inl hrep))
      · exact h3 x hx
    · obtain ⟨h1, h2, h3⟩ := dropEmptyLoop_spec n ps p (List.pairwise_cons.mp h).2
      have hborder := not_or.mp hborder
      have hne : p ≠ n := fun e => hborder.2 (by simp [e])
      refine ⟨?_, ?_, ?_⟩
      · rw [List.pairwise_cons]
        refine ⟨?_, h1⟩
        intro q hq
        obtain rfl | hq := List.mem_cons.mp hq
        · exact lt_of_le_of_ne hpp (Ne.symm hrep)
        · exact lt_of_le_of_lt hpp ((List.pairwise_cons.mp h1).1 q hq)
      · intro q hq
        obtain rfl | hq := List.mem_cons.mp hq
        · exact ⟨by simp, hborder.1, hne⟩
        · exact ⟨.tail _ (h2 q hq).1, (h2 q hq).2⟩
      · intro x hx
        obtain rfl | hx := List.mem_cons.mp hx
        · exact Or.inr (Or.inr (Or.inr (by simp)))
        · rcases h3 x hx with h | h | h | h
          · exact Or.inl h
          · exact Or.inr (Or.inl h)
          · exact Or.inr (Or.inr (Or.inr (by simp [h])))
          · exact Or.inr (Or.inr (Or.inr (.tail _ h)))
/-! ### Slicing -/

theorem slice_eq (b : Block α) {i j : ℕ} (hij : i ≤ j) (hj : j ≤ b.rows.length) :
    b.slice i (some (j : ℤ)) = .ok { b with rows := segment b.rows i j } := by
  unfold Block.slice
  cases b.format with
  | arrow =>
    have h1 : ¬ ((i : ℤ) < 0) := by omega
    have h2 : ¬ ((j : ℤ) - i < 0) := by omega
    have e : ((j : ℤ) - i).toNat = j - i := by omega
    simp only [h1, h2, if_false, e, Int.toNat_natCast, segment, List.drop_take]
  | pandas =>
    have hb : ∀ k : ℕ, k ≤ b.rows.length → sliceBound b.rows.length (k : ℤ) = k := by
      intro k hk
      have h1 : ¬ ((k : ℤ) < 0) := by omega
      simp [sliceBound, h1, hk]
    simp only [hb i (hij.trans hj), hb j hj]

/-- Number of rows of a piece. -/
def pieceRows (p : Block α × BlockMetadata) : ℕ := p.1.rows.length

/-- All rows of a list of pieces, in order. -/
def allRows (ps : BlockPartition α) : List α := (ps.map (fun p => p.1.rows)).flatten
@[simp] theorem allRows_nil : allRows ([] : BlockPartition α) = [] := rfl

@[simp] theorem allRows_cons (p : Block α × BlockMetadata) (ps : BlockPartition α) :
    allRows (p :: ps) = p.1.rows ++ allRows ps := by simp [allRows]

@[simp] theorem allRows_append (ps qs : BlockPartition α) :
    allRows (ps ++ qs) = allRows ps ++ allRows qs := by simp [allRows]

theorem length_allRows (ps : BlockPartition α) : (allRows ps).length = total pieceRows ps := by
  induction ps with
  | nil => rfl
  | cons p ps ih => simp [ih, pieceRows]

/-- The metadata on record counts the rows. -/
def Counted (p : Block α × BlockMetadata) : Prop := p.2.numRows = some p.1.rows.length

/-- The slicing loop from `prev` on: consecutive pieces that end at the given indices. -/
theorem splitSingleLoop_spec (sizeBytes : Block α → ℕ) (block : Block α) (m : BlockMetadata) :
    ∀ (js : List ℕ) (prev last : ℕ), (prev :: js).Pairwise (· ≤ ·) →
      (∀ j ∈ js, j ≤ last) → prev ≤ last → last ≤ block.rows.length →
      ∃ pieces, splitSingleLoop sizeBytes block m prev
          (js.map (fun j : ℕ => some (j : ℤ)) ++ [some (last : ℤ)]) =
            .ok (pieces.map (sliceMeta sizeBytes m), pieces) ∧
        (pieces.map Block.rows).flatten = segment block.rows prev last ∧
        ∀ j ∈ js, IsCut (fun b : Block α => b.rows.length) pieces (j - prev)
  | [], prev, last, _, _, hl, hb => by
    refine ⟨[{ block with rows := segment block.rows prev last }], ?_, by simp, by simp⟩
    simp only [List.map_nil, List.nil_append, splitSingleLoop, slice_eq block hl hb]
    rfl
  | j :: js, prev, last, hs, hj, hl, hb => by
    have hpj : prev ≤ j := (List.pairwise_cons.mp hs).1 j (by simp)
    have hjl : j ≤ last := hj j (by simp)
    obtain ⟨pieces, he, hr, hcut⟩ := splitSingleLoop_spec sizeBytes block m js j last
      (List.pairwise_cons.mp hs).2 (fun x hx => hj x (.tail _ hx)) hjl hb
    refine ⟨{ block with rows := segment block.rows prev j } :: pieces, ?_, ?_, ?_⟩
    · rw [List.map_cons, List.cons_append, splitSingleLoop, slice_eq block hpj (hjl.trans hb)]
      simp only [Option.getD_some, he, ok_bind]
      rfl
    · rw [List.map_cons, List.flatten_cons, hr, segment_append_segment _ hpj hjl]
    · intro x hx
      have hlen := length_segment block.rows hpj (hjl.trans hb)
      obtain rfl | hx := List.mem_cons.mp hx
      · exact ⟨[_], pieces, rfl, by simp [hlen]⟩
      · obtain ⟨pre, suf, e, ht⟩ := hcut x hx
        have hjx : j ≤ x := (List.pairwise_cons.mp (List.pairwise_cons.mp hs).2).1 x hx
        refine ⟨_ :: pre, suf, by rw [e]; rfl, ?_⟩
        rw [total_cons, ht, hlen]
        omega
theorem total_zip_pieces (pieces : List (Block α)) (f : Block α → BlockMetadata) :
    total pieceRows (pieces.zip (pieces.map f)) = total (fun b : Block α => b.rows.length) pieces := by
  induction pieces with
  | nil => rfl
  | cons b pieces ih => simp [ih, pieceRows]

theorem isCut_zip_pieces {pieces : List (Block α)} (f : Block α → BlockMetadata) {n : ℕ}
    (h : IsCut (fun b : Block α => b.rows.length) pieces n) :
    IsCut pieceRows (pieces.zip (pieces.map f)) n := by
  obtain ⟨pre, suf, rfl, rfl⟩ := h
  refine ⟨pre.zip (pre.map f), suf.zip (suf.map f), ?_, total_zip_pieces pre f⟩
  rw [List.map_append, List.zip_append (by simp)]

theorem allRows_zip_pieces (pieces : List (Block α)) (f : Block α → BlockMetadata) :
    allRows (pieces.zip (pieces.map f)) = (pieces.map Block.rows).flatten := by
  have h : (pieces.zip (pieces.map f)).map Prod.fst = pieces := List.map_fst_zip (by simp)
  have hmap := congrArg (List.map Block.rows) h
  rw [List.map_map] at hmap
  exact congrArg List.flatten hmap

theorem counted_zip_sliceMeta (sizeBytes : Block α → ℕ) (m : BlockMetadata)
    (pieces : List (Block α)) :
    ∀ p ∈ pieces.zip (pieces.map (sliceMeta sizeBytes m)), Counted p := by
  intro p hp
  rw [List.zip_map_right, List.mem_map] at hp
  obtain ⟨⟨b, b'⟩, hb, rfl⟩ := hp
  obtain ⟨i, hi, hbi⟩ := List.mem_iff_getElem.mp hb
  rw [List.getElem_zip] at hbi
  obtain ⟨rfl, rfl⟩ := Prod.mk.inj hbi
  rfl

/-- One block: the pieces make up the block, carry their row counts, and end at every one of
its local indices. -/
theorem splitBlock_spec (sizeBytes : Block α → ℕ) (block : Block α) (m : BlockMetadata)
    (hm : Counted (block, m)) {ps : List ℤ} (hps : Placed block.rows.length ps) :
    ∃ pieces, splitBlock sizeBytes block m ps = .ok pieces ∧ (∀ p ∈ pieces, Counted p) ∧
    allRows pieces = block.rows ∧
      ∀ p ∈ ps, IsCut pieceRows pieces p.toNat := by
  have hm' : m.numRows = some block.rows.length := hm
  have hpw : ((-1 : ℤ) :: ps).Pairwise (· ≤ ·) :=
    List.pairwise_cons.mpr ⟨fun p hp => by have := hps.2 p hp; omega, hps.1⟩
  obtain ⟨hlt, hin, hall⟩ := dropEmptyLoop_spec block.rows.length ps (-1) hpw
  rw [splitBlock, hm', dropEmptyBlockSplit]
  generalize hqs : dropEmptyLoop (some block.rows.length) (-1) ps = qs at hlt hin hall
  have hcover : ∀ p ∈ ps, p.toNat = 0 ∨ p.toNat = block.rows.length ∨ p ∈ qs := by
    intro p hp
    obtain h | h | h | h := hall p hp
    · exact Or.inl (by omega)
    · exact Or.inr (Or.inl (by omega))
    · omega
    · exact Or.inr (Or.inr h)
  by_cases hnil : qs.length = 0
  · rw [if_pos hnil]
    refine ⟨[(block, m)], rfl, by simpa using hm, by simp, ?_⟩
    intro p hp
    obtain h | h | h := hcover p hp
    · rw [h]; exact isCut_zero _
    · rw [h]; exact ⟨[(block, m)], [], by simp, by simp [pieceRows]⟩
    · rw [List.length_eq_zero_iff.mp hnil] at h; simp at h
  · rw [if_neg hnil]
    -- the kept indices are natural numbers strictly inside the block
    have hbd : ∀ q ∈ qs, 0 ≤ q ∧ q ≤ block.rows.length := fun q hq => hps.2 q (hin q hq).1
    have hcast : qs.map some = (qs.map Int.toNat).map (fun j : ℕ => some (j : ℤ)) := by
      rw [List.map_map]
      apply List.map_congr_left
      intro q hq
      simp [(hbd q hq).1]
    have hsorted : (0 :: qs.map Int.toNat).Pairwise (· ≤ ·) := by
      refine List.pairwise_cons.mpr ⟨by simp, List.pairwise_map.mpr ?_⟩
      exact (List.pairwise_cons.mp hlt).2.imp (fun h => Int.toNat_le_toNat h.le)
    obtain ⟨pieces, he, hr, hcut⟩ := splitSingleLoop_spec sizeBytes block m (qs.map Int.toNat) 0
      block.rows.length hsorted
      (by
        intro j hj
        obtain ⟨q, hq, rfl⟩ := List.mem_map.mp hj
        have := hbd q hq
        omega)
      (Nat.zero_le _) le_rfl
    have hsb : splitSingleBlock sizeBytes block m qs =
        .ok (pieces.map (sliceMeta sizeBytes m), pieces) := by
      rw [splitSingleBlock, hm', hcast]
      exact he
    have hrows : allRows (pieces.zip (pieces.map (sliceMeta sizeBytes m))) = block.rows := by
      rw [allRows_zip_pieces, hr, segment_zero, List.take_length]
    refine ⟨pieces.zip (pieces.map (sliceMeta sizeBytes m)), ?_, ?_, hrows, ?_⟩
    · rw [hsb]
      simp
    · exact counted_zip_sliceMeta sizeBytes m pieces
    · intro p hp
      obtain h | h | h := hcover p hp
      · rw [h]; exact isCut_zero _
      · have hc : IsCut pieceRows (pieces.zip (pieces.map (sliceMeta sizeBytes m)))
            (total pieceRows (pieces.zip (pieces.map (sliceMeta sizeBytes m)))) := isCut_total _
        rwa [← length_allRows, hrows, ← h] at hc
      · apply isCut_zip_pieces
        simpa using hcut p.toNat (List.mem_map_of_mem h)

/-- All blocks: the pieces make up the rows in order, and end at every covered index. -/
theorem splitAllBlocks_spec (sizeBytes : Block α → ℕ) :
    ∀ (blocks : BlockPartition α) (perBlock : List (List ℤ)), (∀ p ∈ blocks, Counted p) →
      List.Forall₂ Placed (blocks.map pieceRows) perBlock →
      ∃ pieces, splitAllBlocks sizeBytes blocks perBlock = .ok pieces ∧ (∀ p ∈ pieces, Counted p) ∧
        allRows pieces = allRows blocks ∧
        ∀ v, Covered (blocks.map pieceRows) perBlock v → IsCut pieceRows pieces v.toNat
  | [], [], _, _ => ⟨[], rfl, by simp, rfl, fun _ h => h.elim⟩
  | [], _ :: _, _, h => by cases h
  | _ :: _, [], _, h => by cases h
  | (block, m) :: blocks, ps :: perBlock, hm, hp => by
    obtain ⟨hp1, hp2⟩ := List.forall₂_cons.mp hp
    obtain ⟨pieces, he, hc, hr, hcut⟩ :=
      splitBlock_spec sizeBytes block m (hm _ (by simp)) hp1
    obtain ⟨rest, he', hc', hr', hcut'⟩ := splitAllBlocks_spec sizeBytes blocks perBlock
      (fun p h => hm p (.tail _ h)) hp2
    refine ⟨pieces ++ rest, ?_, ?_, by simp [hr, hr'], ?_⟩
    · rw [splitAllBlocks]
      simp only [he, he', ok_bind]
    · intro p h
      obtain h | h := List.mem_append.mp h
      · exact hc p h
      · exact hc' p h
    · intro v hcov
      obtain h | h := hcov
      · exact (hcut v h).append_right rest
      · -- an index of a later block lies behind all rows of this one
        have hv := h.nonneg hp2
        have e : v.toNat = total pieceRows pieces + (v - pieceRows (block, m)).toNat := by
          rw [← length_allRows, hr]
          have hn : pieceRows (block, m) = block.rows.length := rfl
          omega
        rw [e]
        exact (hcut' _ h).append_left pieces

/-! ### Regrouping the pieces -/

theorem globalSplitLoop_close (pieces : BlockPartition α) (sizes : List ℤ)
    (blocks : List (Block α)) (metas : List BlockMetadata) (n : ℤ) :
    globalSplitLoop pieces (n :: sizes) blocks metas n = (do
      let r ← globalSplitLoop pieces sizes [] [] 0
      .ok (blocks :: r.1, metas :: r.2)) := by
  rw [globalSplitLoop.eq_def]
  simp

theorem globalSplitLoop_next {b : Block α} {m : BlockMetadata} (hm : Counted (b, m))
    (pieces : BlockPartition α) (sizes : List ℤ) (blocks : List (Block α))
    (metas : List BlockMetadata) {size current : ℤ} (h : current < size) :
    globalSplitLoop ((b, m) :: pieces) (size :: sizes) blocks metas current =
      globalSplitLoop pieces (size :: sizes) (blocks ++ [b]) (metas ++ [m])
        (current + b.rows.length) := by
  have hb : m.numRows = some b.rows.length := hm
  have hn : ¬ size ≤ current := by omega
  rw [globalSplitLoop.eq_def]
  simp only [hn, if_false, hb]

/-- The reader takes pieces until the size is reached.  It hits the size exactly when some run
of the remaining pieces does; trailing empty pieces of that run stay in the iterator. -/
theorem globalSplitLoop_take (sizes : List ℤ) (n : ℕ) :
    ∀ (pre suf : BlockPartition α) (blocks : List (Block α)) (metas : List BlockMetadata) (c : ℕ),
      (∀ p ∈ pre, Counted p) → c + total pieceRows pre = n →
      ∃ pre' z, pre = pre' ++ z ∧ total pieceRows z = 0 ∧
        globalSplitLoop (pre ++ suf) ((n : ℤ) :: sizes) blocks metas c = (do
          let r ← globalSplitLoop (z ++ suf) sizes [] [] 0
          .ok ((blocks ++ pre'.map Prod.fst) :: r.1, (metas ++ pre'.map Prod.snd) :: r.2))
  | [], suf, blocks, metas, c, _, hc => by
    refine ⟨[], [], rfl, rfl, ?_⟩
    have hcn : c = n := by simpa using hc
    subst hcn
    rw [List.nil_append, globalSplitLoop_close]
    simp
  | (b, m) :: pre, suf, blocks, metas, c, hm, hc => by
    rw [total_cons] at hc
    by_cases hle : (n : ℤ) ≤ c
    · -- enough rows already: the rest of the run is empty
      have hcn : c = n := by omega
      refine ⟨[], (b, m) :: pre, rfl, by rw [total_cons]; omega, ?_⟩
      subst hcn
      rw [globalSplitLoop_close]
      simp
    · obtain ⟨pre', z, rfl, hz, he⟩ := globalSplitLoop_take sizes n pre suf (blocks ++ [b])
        (metas ++ [m]) (c + b.rows.length) (fun p h => hm p (.tail _ h))
        (by rw [← hc]; simp only [pieceRows]; omega)
      refine ⟨(b, m) :: pre', z, rfl, hz, ?_⟩
      push_cast at he
      rw [List.cons_append, globalSplitLoop_next (hm _ (by simp)) _ _ _ _ (by omega), he]
      simp [List.append_assoc]

/-- Pieces that fit the sizes are regrouped into runs of exactly these sizes; what stays in the
iterator is not looked at. -/
theorem globalSplitLoop_spec : ∀ (ns : List ℕ) (pieces rest : BlockPartition α),
    (∀ p ∈ pieces, Counted p) → RayTfm.Fits pieceRows pieces ns →
    ∃ gs : List (BlockPartition α),
      globalSplitLoop (pieces ++ rest) (ns.map Nat.cast) [] [] 0 =
        .ok (gs.map (fun g => g.map Prod.fst), gs.map (fun g => g.map Prod.snd)) ∧
      gs.flatten <+: pieces ∧ gs.map (total pieceRows) = ns
  | [], pieces, rest, _, _ => ⟨[], by simp [globalSplitLoop], by simp, rfl⟩
  | n :: ns, pieces, rest, hm, hf => by
    obtain ⟨pre, suf, rfl, hn, hfit⟩ := hf
    obtain ⟨pre', z, rfl, hz, he⟩ := globalSplitLoop_take (ns.map Nat.cast) n pre (suf ++ rest)
      [] [] 0 (fun p h => hm p (List.mem_append_left _ h)) (by omega)
    obtain ⟨gs, hg, hp, hs⟩ := globalSplitLoop_spec ns (z ++ suf) rest
      (fun p h => hm p (by simp only [List.mem_append] at h ⊢; tauto)) (hfit.zero_append hz)
    refine ⟨pre' :: gs, ?_, ?_, ?_⟩
    · rw [List.append_assoc] at hg
      rw [List.append_assoc, List.map_cons]
      push_cast at he
      rw [he, hg]
      simp
    · rw [List.flatten_cons, List.append_assoc]
      exact (List.prefix_append_right_inj pre').mpr hp
    · rw [List.map_cons, hs]
      rw [total_append] at hn
      congr 1
      omega

/-! ### The splits -/

/-- The indices cut off at the total number of rows, and the total: where the splits end. -/
def endPoints (indices : List ℤ) (rows : ℕ) : List ℕ :=
  indices.map (fun i : ℤ => (min i (rows : ℤ)).toNat) ++ [rows]

/-- The end points, with `0` in front. -/
def cutPoints (indices : List ℤ) (rows : ℕ) : List ℕ := 0 :: endPoints indices rows

theorem neighbourDiffs_cons (a : ℤ) (l : List ℤ) (b : ℤ) :
    neighbourDiffs (a :: b :: l) = (b - a) :: neighbourDiffs (b :: l) := rfl

theorem neighbourDiffs_cast : ∀ (a : ℕ) (l : List ℕ), (a :: l).Pairwise (· ≤ ·) →
    neighbourDiffs ((a :: l).map Nat.cast) = (diffs a l).map Nat.cast
  | _, [], _ => rfl
  | a, b :: l, h => by
    have hab : a ≤ b := (List.pairwise_cons.mp h).1 b (by simp)
    have ih := neighbourDiffs_cast b l (List.pairwise_cons.mp h).2
    rw [List.map_cons] at ih
    rw [List.map_cons, List.map_cons, neighbourDiffs_cons, ih, diffs, List.map_cons]
    congr 1
    omega

variable {indices : List ℤ}

theorem cutPoints_sorted {rows : ℕ} (hs : indices.Pairwise (· ≤ ·)) :
    (cutPoints indices rows).Pairwise (· ≤ ·) := by
  refine List.pairwise_cons.mpr ⟨by simp, List.pairwise_append.mpr ⟨?_, by simp, ?_⟩⟩
  · exact List.pairwise_map.mpr (hs.imp (fun h => by omega))
  · intro a ha b hb
    obtain ⟨i, _, rfl⟩ := List.mem_map.mp ha
    rw [List.mem_singleton] at hb
    omega

theorem validIndices_cast {blockRows : List ℕ} (h0 : ∀ i ∈ indices, 0 ≤ i) :
    [0] ++ generateValidIndices blockRows indices ++ [(blockRows.sum : ℤ)] =
      (cutPoints indices blockRows.sum).map Nat.cast := by
  have e : generateValidIndices blockRows indices =
      (indices.map (fun i : ℤ => (min i (blockRows.sum : ℤ)).toNat)).map Nat.cast := by
    rw [generateValidIndices, List.map_map]
    apply List.map_congr_left
    intro i hi
    have := h0 i hi
    simp only [Function.comp]
    omega
  rw [e]
  simp [cutPoints, endPoints]

theorem sum_calculateBlocksRows (blocks : BlockPartition α) (hm : ∀ p ∈ blocks, Counted p) :
    calculateBlocksRows blocks = blocks.map pieceRows := by
  apply List.map_congr_left
  intro p hp
  rw [show p.2.numRows = some p.1.rows.length from hm p hp]
  rfl

theorem allRows_flatten (gs : List (BlockPartition α)) :
    (gs.map allRows).flatten = allRows gs.flatten := by
  induction gs with
  | nil => rfl
  | cons g gs ih => rw [List.map_cons, List.flatten_cons, ih, List.flatten_cons, allRows_append]

theorem diffs_endPoints_zero (indices : List ℤ) :
    diffs 0 (endPoints indices 0) = List.replicate (indices.length + 1) 0 := by
  induction indices with
  | nil => rfl
  | cons i indices ih =>
    have hz : (min i ((0 : ℕ) : ℤ)).toNat = 0 := by omega
    unfold endPoints at ih ⊢
    rw [List.map_cons, List.cons_append, diffs, hz, ih]
    rfl

variable {pieces : BlockPartition α}

/-- Pieces that end at every valid index fit the sizes between the cut points. -/
theorem fits_endPoints (hs : indices.Pairwise (· ≤ ·))
    (hcut : ∀ i ∈ indices, IsCut pieceRows pieces (min i (total pieceRows pieces : ℤ)).toNat) :
    RayTfm.Fits pieceRows pieces (diffs 0 (endPoints indices (total pieceRows pieces))) := by
  refine fits_of_cuts [] pieces _ (cutPoints_sorted hs) ?_
  intro n hn
  simp only [endPoints, List.mem_append, List.mem_map, List.mem_singleton] at hn
  obtain ⟨i, hi, rfl⟩ | rfl := hn
  · exact hcut i hi
  · exact isCut_total _

variable {blocks : BlockPartition α} {blockRows : Option (List ℕ)}

/-- The phases of `splitAtIndices` with the right row counts: every index is filed under a block,
and the sizes are those between the cut points. -/
theorem splitAtIndices_phases (sizeBytes : Block α → ℕ) {b : Block α × BlockMetadata}
    (hr : blockRows.getD (calculateBlocksRows (b :: blocks)) = (b :: blocks).map pieceRows)
    (h0 : ∀ i ∈ indices, 0 ≤ i) (hs : indices.Pairwise (· ≤ ·)) :
    ∃ perBlock : List (List ℤ),
      perBlockLoop (generateValidIndices ((b :: blocks).map pieceRows) indices)
        ((b :: blocks).map pieceRows) 0 [] = .ok perBlock ∧
      List.Forall₂ Placed ((b :: blocks).map pieceRows) perBlock ∧
      (∀ i ∈ indices, Covered ((b :: blocks).map pieceRows) perBlock
        (min i ((allRows (b :: blocks)).length : ℤ))) ∧
      splitAtIndices sizeBytes (b :: blocks) indices blockRows = (do
        let pieces ← splitAllBlocks sizeBytes (b :: blocks) perBlock
        globalSplitLoop pieces
          ((diffs 0 (endPoints indices (allRows (b :: blocks)).length)).map Nat.cast) [] [] 0) := by
  have hsum : ((b :: blocks).map pieceRows).sum = (allRows (b :: blocks)).length := by
    rw [length_allRows]; rfl
  have hvs : (generateValidIndices ((b :: blocks).map pieceRows) indices).Pairwise (· ≤ ·) :=
    List.pairwise_map.mpr (hs.imp (fun h => min_le_min_right _ h))
  obtain ⟨ps, perBlock, hper, hplaced, -, hcov⟩ := perBlockLoop_spec
    (generateValidIndices ((b :: blocks).map pieceRows) indices) (pieceRows b)
    (blocks.map pieceRows) 0 [] hvs
    (by
      intro v hv
      obtain ⟨i, hi, rfl⟩ := List.mem_map.mp hv
      have := h0 i hi
      rw [List.map_cons, List.sum_cons]
      omega)
    ⟨List.Pairwise.nil, by simp⟩ (by simp)
  refine ⟨ps :: perBlock, hper, hplaced, fun i hi => ?_, ?_⟩
  · have hv := hcov (min i ((allRows (b :: blocks)).length : ℤ))
      (List.mem_map.mpr ⟨i, hi, by rw [hsum]⟩)
    rwa [sub_zero] at hv
  · have hne : ¬ (b :: blocks).length = 0 := by simp
    unfold splitAtIndices
    rw [if_neg hne]
    simp only [hr]
    rw [validIndices_cast h0, hsum, cutPoints, neighbourDiffs_cast _ _ (cutPoints_sorted hs)]
    unfold generatePerBlockSplitIndices generateGlobalSplitResults
    rw [List.map_cons] at hper ⊢
    rw [hper, ok_bind]

/-- The pieces behind the groups that `splitAtIndices` returns on correct metadata. -/
theorem splitAtIndices_pieces (sizeBytes : Block α → ℕ) (blocks : BlockPartition α)
    (indices : List ℤ) (blockRows : Option (List ℕ)) (hm : ∀ p ∈ blocks, Counted p)
    (hr : blockRows = none ∨ blockRows = some (blocks.map pieceRows))
    (h0 : ∀ i ∈ indices, 0 ≤ i) (hs : indices.Pairwise (· ≤ ·)) :
    ∃ (perBlock : List (List ℤ)) (pieces : BlockPartition α) (gs : List (BlockPartition α)),
      List.Forall₂ Placed (blocks.map pieceRows) perBlock ∧
      splitAllBlocks sizeBytes blocks perBlock = .ok pieces ∧
      splitAtIndices sizeBytes blocks indices blockRows =
        .ok (gs.map (fun g => g.map Prod.fst), gs.map (fun g => g.map Prod.snd)) ∧
      gs.flatten <+: pieces ∧ (∀ p ∈ pieces, Counted p) ∧ allRows pieces = allRows blocks ∧
      gs.map (total pieceRows) = diffs 0 (endPoints indices (allRows blocks).length) := by
  cases blocks with
  | nil =>
    refine ⟨[], [], List.replicate (indices.length + 1) [], .nil, rfl, by simp [splitAtIndices],
      by simp, by simp, rfl, ?_⟩
    rw [List.map_replicate]
    exact (diffs_endPoints_zero indices).symm
  | cons b blocks =>
    have hbr : blockRows.getD (calculateBlocksRows (b :: blocks)) = (b :: blocks).map pieceRows := by
      obtain rfl | rfl := hr
      · exact sum_calculateBlocksRows _ hm
      · rfl
    obtain ⟨perBlock, -, hplaced, hcov, hphases⟩ := splitAtIndices_phases sizeBytes hbr h0 hs
    obtain ⟨pieces, hall, hc, hrows, hcut⟩ := splitAllBlocks_spec sizeBytes (b :: blocks)
      perBlock hm hplaced
    have htot : total pieceRows pieces = (allRows (b :: blocks)).length := by
      rw [← length_allRows, hrows]
    have hfit : RayTfm.Fits pieceRows pieces
      (diffs 0 (endPoints indices (allRows (b :: blocks)).length)) := by
      rw [← htot] at hcov ⊢
      exact fits_endPoints hs (fun i hi => hcut _ (hcov i hi))
    obtain ⟨gs, hg, hp, hsz⟩ := globalSplitLoop_spec _ pieces [] hc hfit
    rw [List.append_nil] at hg
    exact ⟨perBlock, pieces, gs, hplaced, hall, by rw [hphases, hall, ok_bind, hg], hp, hc, hrows, hsz⟩

/-- The whole of `splitAtIndices` on correct metadata: the groups of pieces it returns are
consecutive, start at the first row, and have the sizes between the cut points. -/
theorem splitAtIndices_groups (sizeBytes : Block α → ℕ) (blocks : BlockPartition α)
    (indices : List ℤ) (blockRows : Option (List ℕ)) (hm : ∀ p ∈ blocks, Counted p)
    (hr : blockRows = none ∨ blockRows = some (blocks.map pieceRows))
    (h0 : ∀ i ∈ indices, 0 ≤ i) (hs : indices.Pairwise (· ≤ ·)) :
    ∃ gs : List (BlockPartition α),
      splitAtIndices sizeBytes blocks indices blockRows =
        .ok (gs.map (fun g => g.map Prod.fst), gs.map (fun g => g.map Prod.snd)) ∧
      (gs.map allRows).flatten <+: allRows blocks ∧ (∀ g ∈ gs, ∀ p ∈ g, Counted p) ∧
      gs.map (total pieceRows) = diffs 0 (endPoints indices (allRows blocks).length) := by
  obtain ⟨-, pieces, gs, -, -, hg, hp, hc, hrows, hsz⟩ :=
    splitAtIndices_pieces sizeBytes blocks indices blockRows hm hr h0 hs
  refine ⟨gs, hg, ?_, ?_, hsz⟩
  · obtain ⟨t, rfl⟩ := hp
    rw [← hrows, allRows_append, allRows_flatten]
    exact List.prefix_append _ _
  · intro g hg' p hp'
    exact hc p (hp.subset (List.mem_flatten.mpr ⟨g, hg', hp'⟩))

/-- Whatever has one entry a row: a group holds the segment between its cut points. -/
theorem group_eq_segment {β : Type} {content : BlockPartition α → List β}
    (hcontent : ∀ g, (content g).length = total pieceRows g) {gs : List (BlockPartition α)}
    {l : List β} {rows : ℕ} (hs : indices.Pairwise (· ≤ ·)) (hp : (gs.map content).flatten <+: l)
    (hsz : gs.map (total pieceRows) = diffs 0 (endPoints indices rows)) {i : ℕ} (hi : i < gs.length) :
    content gs[i] = segment l ((cutPoints indices rows).getD i 0)
      ((cutPoints indices rows).getD (i + 1) 0) := by
  have hlen : gs.length = (endPoints indices rows).length := by
    have := congrArg List.length hsz
    simpa using this
  have hlens : ∀ k, ((gs.map content).take k).flatten.length =
      ((diffs 0 (endPoints indices rows)).take k).sum := by
    intro k
    have e : gs.map (List.length ∘ content) = gs.map (total pieceRows) :=
      List.map_congr_left (fun g _ => hcontent g)
    rw [← hsz, List.length_flatten, List.map_take, List.map_map, e]
  have hk : ∀ k, k < gs.length + 1 → ((gs.map content).take k).flatten.length =
      (cutPoints indices rows).getD k 0 := by
    intro k hk
    have hlt : k < (cutPoints indices rows).length := by
      rw [cutPoints, List.length_cons, ← hlen]
      exact hk
    rw [hlens, List.getD_eq_getElem _ _ hlt, ← Nat.zero_add (List.sum _)]
    exact sum_take_diffs (cutPoints_sorted hs) hlt
  have hseg := segments_of_prefix hp i (by simpa using hi)
  rw [hk i (by omega), hk (i + 1) (by omega), List.getElem_map] at hseg
  exact hseg

/-- Cut at the partial sums of given sizes, all pieces are kept and the groups have these sizes. -/
theorem splitAtIndices_partialSums (sizeBytes : Block α → ℕ) (blocks : BlockPartition α)
    (ns : List ℕ) (blockRows : Option (List ℕ)) (hm : ∀ p ∈ blocks, Counted p)
    (hr : blockRows = none ∨ blockRows = some (blocks.map pieceRows))
    (hsum : ns.sum ≤ (allRows blocks).length) :
    ∃ gs : List (BlockPartition α),
      splitAtIndices sizeBytes blocks ((partialSums 0 ns).map Nat.cast) blockRows =
        .ok (gs.map (fun g => g.map Prod.fst), gs.map (fun g => g.map Prod.snd)) ∧
      allRows gs.flatten = allRows blocks ∧ (∀ g ∈ gs, ∀ p ∈ g, Counted p) ∧
      gs.map (total pieceRows) = ns ++ [(allRows blocks).length - ns.sum] := by
  have h0 : ∀ i ∈ (partialSums 0 ns).map (Nat.cast : ℕ → ℤ), 0 ≤ i := by
    intro i hi
    obtain ⟨n, -, rfl⟩ := List.mem_map.mp hi
    exact Int.natCast_nonneg n
  have hs : ((partialSums 0 ns).map (Nat.cast : ℕ → ℤ)).Pairwise (· ≤ ·) :=
    List.pairwise_map.mpr ((pairwise_partialSums 0 ns).imp (fun h => Int.ofNat_le.mpr h))
  have hend : endPoints ((partialSums 0 ns).map Nat.cast) (allRows blocks).length =
      partialSums 0 ns ++ [(allRows blocks).length] := by
    unfold endPoints
    rw [List.map_map]
    congr 1
    conv_rhs => rw [← List.map_id (partialSums 0 ns)]
    apply List.map_congr_left
    intro x hx
    have := (mem_partialSums hx).2
    simp only [Function.comp, id]
    omega
  obtain ⟨gs, he, hp, hc, hsz⟩ :=
    splitAtIndices_groups sizeBytes blocks _ blockRows hm hr h0 hs
  rw [hend, diffs_partialSums, Nat.zero_add] at hsz
  refine ⟨gs, he, ?_, hc, hsz⟩
  rw [allRows_flatten] at hp
  refine hp.eq_of_length ?_
  rw [length_allRows, total_flatten, hsz, List.sum_append, diffs, diffs, List.sum_singleton]
  omega

/-! ### What slicing keeps -/

section keeps
variable {sizeBytes : Block α → ℕ} {P : Block α × BlockMetadata → Prop}

/-- Every slice of a block with the property has it too. -/
def KeptBySlice (sizeBytes : Block α → ℕ) (P : Block α × BlockMetadata → Prop) : Prop :=
  ∀ block m prev index piece, P (block, m) → block.slice prev index = .ok piece →
    P (piece, sliceMeta sizeBytes m piece)

theorem splitSingleLoop_keeps (hP : KeptBySlice sizeBytes P) {block : Block α} {m : BlockMetadata}
    (hb : P (block, m)) {indices : List (Option ℤ)} {prev : ℤ} {r : List BlockMetadata × List (Block α)}
    (h : splitSingleLoop sizeBytes block m prev indices = .ok r) : ∀ p ∈ r.2.zip r.1, P p := by
  induction indices generalizing prev r with
  | nil =>
    cases h
    simp
  | cons index indices ih =>
    rw [splitSingleLoop] at h
    obtain ⟨piece, hpiece, h⟩ := bind_eq_ok.mp h
    obtain ⟨rest, hrest, h⟩ := bind_eq_ok.mp h
    cases h
    intro p hp
    obtain rfl | hp := List.mem_cons.mp hp
    · exact hP block m prev index piece hb hpiece
    · exact ih hrest p hp

theorem splitBlock_keeps (hP : KeptBySlice sizeBytes P) {block : Block α} {m : BlockMetadata}
    (hb : P (block, m)) {indices : List ℤ} {pieces : BlockPartition α}
    (h : splitBlock sizeBytes block m indices = .ok pieces) : ∀ p ∈ pieces, P p := by
  unfold splitBlock at h
  simp only at h
  split_ifs at h
  · cases h
    intro p hp
    rw [List.mem_singleton] at hp
    rwa [hp]
  · obtain ⟨r, hr, h⟩ := bind_eq_ok.mp h
    obtain ⟨-, -, h⟩ := bind_eq_ok.mp h
    cases h
    exact splitSingleLoop_keeps hP hb hr

theorem splitAllBlocks_keeps (hP : KeptBySlice sizeBytes P) :
    ∀ {blocks : BlockPartition α} {perBlock : List (List ℤ)} {pieces : BlockPartition α},
      (∀ p ∈ blocks, P p) → splitAllBlocks sizeBytes blocks perBlock = .ok pieces → ∀ p ∈ pieces, P p
  | [], [], pieces, _, h => by
    cases h
    simp
  | [], _ :: _, pieces, _, h => by cases h
  | _ :: _, [], pieces, _, h => by cases h
  | (block, m) :: blocks, indices :: perBlock, pieces, hb, h => by
    rw [splitAllBlocks] at h
    obtain ⟨ps, hps, h⟩ := bind_eq_ok.mp h
    obtain ⟨rest, hrest, h⟩ := bind_eq_ok.mp h
    cases h
    intro p hp
    obtain hp | hp := List.mem_append.mp hp
    · exact splitBlock_keeps hP (hb _ (.head _)) hps p hp
    · exact splitAllBlocks_keeps hP (fun q hq => hb q (.tail _ hq)) hrest p hp

end keeps

variable {r : List (List (Block α)) × List (List BlockMetadata)}

theorem globalSplitLoop_mem {sizes : List ℤ}
    {blocks : List (Block α)} {metas : List BlockMetadata} {current : ℤ}
    (h : globalSplitLoop pieces sizes blocks metas current = .ok r) :
    (∀ bs ∈ r.1, ∀ b ∈ bs, b ∈ blocks ∨ b ∈ pieces.map Prod.fst) ∧
      ∀ ms ∈ r.2, ∀ m ∈ ms, m ∈ metas ∨ m ∈ pieces.map Prod.snd := by
  induction pieces, sizes, blocks, metas, current using globalSplitLoop.induct generalizing r with
  | case1 =>
    rw [globalSplitLoop] at h
    cases h
    simp
  | case2 pieces size sizes blocks metas current hle ih =>
    rw [globalSplitLoop.eq_def] at h
    simp only [hle, if_true] at h
    obtain ⟨-, -, h⟩ := bind_eq_ok.mp h
    obtain ⟨rest, hrest, h⟩ := bind_eq_ok.mp h
    cases h
    obtain ⟨ihb, ihm⟩ := ih hrest
    constructor
    · intro bs hbs b hb
      obtain rfl | hbs := List.mem_cons.mp hbs
      · exact .inl hb
      · exact .inr ((ihb bs hbs b hb).resolve_left List.not_mem_nil)
    · intro ms hms m hm
      obtain rfl | hms := List.mem_cons.mp hms
      · exact .inl hm
      · exact .inr ((ihm ms hms m hm).resolve_left List.not_mem_nil)
  | case3 size sizes blocks metas current hlt =>
    rw [globalSplitLoop.eq_def] at h
    simp only [hlt, if_false] at h
    cases h
  | case4 size sizes blocks metas current hlt block m pieces hnone =>
    rw [globalSplitLoop.eq_def] at h
    simp only [hlt, if_false, hnone] at h
    cases h
  | case5 size sizes blocks metas current hlt block m pieces n hn ih =>
    rw [globalSplitLoop.eq_def] at h
    simp only [hlt, if_false, hn] at h
    obtain ⟨ihb, ihm⟩ := ih h
    constructor
    · intro bs hbs b hb
      obtain hb | hb := ihb bs hbs b hb
      · obtain hb | hb := List.mem_append.mp hb
        · exact .inl hb
        · exact .inr (by simp [List.mem_singleton.mp hb])
      · exact .inr (.tail _ hb)
    · intro ms hms m' hm'
      obtain hm' | hm' := ihm ms hms m' hm'
      · obtain hm' | hm' := List.mem_append.mp hm'
        · exact .inl hm'
        · exact .inr (by simp [List.mem_singleton.mp hm'])
      · exact .inr (.tail _ hm')

variable {sizeBytes : Block α → ℕ}

theorem splitAtIndices_keeps {P : Block α × BlockMetadata → Prop} (hP : KeptBySlice sizeBytes P)
    (hb : ∀ p ∈ blocks, P p) (h : splitAtIndices sizeBytes blocks indices blockRows = .ok r) :
    (∀ bs ∈ r.1, ∀ b ∈ bs, ∃ m, P (b, m)) ∧ ∀ ms ∈ r.2, ∀ m ∈ ms, ∃ b, P (b, m) := by
  unfold splitAtIndices at h
  split_ifs at h
  · cases h
    refine ⟨fun bs hbs b hmem => ?_, fun ms hms m hmem => ?_⟩
    · rw [List.eq_of_mem_replicate hbs] at hmem
      cases hmem
    · rw [List.eq_of_mem_replicate hms] at hmem
      cases hmem
  · obtain ⟨perBlock, -, h⟩ := bind_eq_ok.mp h
    obtain ⟨pieces, hpieces, h⟩ := bind_eq_ok.mp h
    obtain ⟨hblocks, hmetas⟩ := globalSplitLoop_mem h
    have hall := splitAllBlocks_keeps hP hb hpieces
    refine ⟨fun bs hbs b hmem => ?_, fun ms hms m hmem => ?_⟩
    · have hpiece := (hblocks bs hbs b hmem).resolve_left List.not_mem_nil
      obtain ⟨p, hp, rfl⟩ := List.mem_map.mp hpiece
      exact ⟨p.2, hall p hp⟩
    · have hpiece := (hmetas ms hms m hmem).resolve_left List.not_mem_nil
      obtain ⟨p, hp, rfl⟩ := List.mem_map.mp hpiece
      exact ⟨p.1, hall p hp⟩

/-- The format every row comes in. -/
def formatsOf (ps : BlockPartition α) : List BlockFormat :=
  ps.flatMap (fun p => List.replicate (pieceRows p) p.1.format)

@[simp] theorem formatsOf_cons (p : Block α × BlockMetadata) (ps : BlockPartition α) :
    formatsOf (p :: ps) = List.replicate (pieceRows p) p.1.format ++ formatsOf ps := List.flatMap_cons

@[simp] theorem formatsOf_append (ps qs : BlockPartition α) :
    formatsOf (ps ++ qs) = formatsOf ps ++ formatsOf qs := List.flatMap_append

theorem length_formatsOf (ps : BlockPartition α) : (formatsOf ps).length = total pieceRows ps := by
  induction ps with
  | nil => rfl
  | cons p ps ih => simp [ih]

theorem formatsOf_flatten (gs : List (BlockPartition α)) :
    (gs.map formatsOf).flatten = formatsOf gs.flatten := by
  induction gs with
  | nil => rfl
  | cons g gs ih => rw [List.map_cons, List.flatten_cons, ih, List.flatten_cons, formatsOf_append]

theorem formatsOf_of_format {ps : BlockPartition α} {fmt : BlockFormat}
    (h : ∀ p ∈ ps, p.1.format = fmt) : formatsOf ps = List.replicate (total pieceRows ps) fmt := by
  induction ps with
  | nil => rfl
  | cons p ps ih =>
    rw [formatsOf_cons, h p List.mem_cons_self, ih (fun q hq => h q (.tail _ hq)), total_cons,
      List.replicate_add]

/-- A slice has the format of the block, and no rows if the block has none. -/
theorem slice_format {block piece : Block α} {prev : ℤ} {index : Option ℤ}
    (h : block.slice prev index = .ok piece) :
    piece.format = block.format ∧ (block.rows = [] → piece.rows = []) := by
  unfold Block.slice at h
  split at h
  · cases h
  · split_ifs at h
    cases h
    exact ⟨rfl, fun hnil => by simp [hnil]⟩
  · cases h
    exact ⟨rfl, fun hnil => by simp [hnil]⟩
  · cases h
    exact ⟨rfl, fun hnil => by simp [hnil, segment]⟩

theorem splitAllBlocks_formatsOf :
    ∀ {blocks : BlockPartition α} {perBlock : List (List ℤ)} {pieces : BlockPartition α},
      (∀ p ∈ blocks, Counted p) → List.Forall₂ Placed (blocks.map pieceRows) perBlock →
      splitAllBlocks sizeBytes blocks perBlock = .ok pieces → formatsOf pieces = formatsOf blocks
  | [], [], pieces, _, _, h => by
    cases h
    rfl
  | [], _ :: _, _, _, hp, _ => by cases hp
  | _ :: _, [], _, _, hp, _ => by cases hp
  | (block, m) :: blocks, ps :: perBlock, pieces, hm, hp, h => by
    obtain ⟨hp1, hp2⟩ := List.forall₂_cons.mp hp
    obtain ⟨own, hown, -, hrows, -⟩ := splitBlock_spec sizeBytes block m (hm _ (.head _)) hp1
    rw [splitAllBlocks, hown, ok_bind] at h
    obtain ⟨rest, hrest, h⟩ := bind_eq_ok.mp h
    cases h
    have hfmt : ∀ p ∈ own, p.1.format = block.format := by
      apply splitBlock_keeps (P := fun p => p.1.format = block.format) ?_ rfl hown
      intro b m prev index piece hb hpiece
      exact (slice_format hpiece).1.trans hb
    have hlen : total pieceRows own = pieceRows (block, m) := by
      rw [← length_allRows, hrows]
      rfl
    rw [formatsOf_append, formatsOf_cons, formatsOf_of_format hfmt, hlen,
      splitAllBlocks_formatsOf (fun p hp' => hm p (.tail _ hp')) hp2 hrest]

theorem splitAtIndices_sizes (hm : ∀ p ∈ blocks, p.2.sizeBytes.isSome = true)
    (h : splitAtIndices sizeBytes blocks indices blockRows = .ok r) :
    ∀ ms ∈ r.2, ∀ m ∈ ms, m.sizeBytes.isSome = true := by
  intro ms hms m hmem
  obtain ⟨b, hb⟩ := (splitAtIndices_keeps (P := fun p => p.2.sizeBytes.isSome = true)
    (fun _ _ _ _ _ _ _ => rfl) hm h).2 ms hms m hmem
  exact hb

theorem splitAtIndices_formats {fmt : BlockFormat}
    (hb : ∀ p ∈ blocks, p.1.rows ≠ [] → p.1.format = fmt)
    (h : splitAtIndices sizeBytes blocks indices blockRows = .ok r) :
    ∀ bs ∈ r.1, ∀ b ∈ bs, b.rows ≠ [] → b.format = fmt := by
  intro bs hbs b hmem
  obtain ⟨m, hP⟩ := (splitAtIndices_keeps (P := fun p => p.1.rows ≠ [] → p.1.format = fmt)
    (fun block m prev index piece hblock hpiece hne => by
      obtain ⟨hfmt, hnil⟩ := slice_format hpiece
      rw [hfmt]
      exact hblock (fun h => hne (hnil h))) hb h).1 bs hbs b hmem
  exact hP

/-- **The splits of `_split_at_indices`.**  On correct metadata and nondecreasing nonnegative
indices the call succeeds with one split more than there are indices; split `i` holds the rows
between cut points `i` and `i + 1`, and each metadata entry counts the rows of its block. -/
theorem splitAtIndices_rows (sizeBytes : Block α → ℕ) (blocks : BlockPartition α)
    (indices : List ℤ) (blockRows : Option (List ℕ))
    (hm : ∀ p ∈ blocks, p.2.numRows = some p.1.rows.length)
    (hr : blockRows = none ∨ blockRows = some (blocks.map (fun p => p.1.rows.length)))
    (h0 : ∀ i ∈ indices, 0 ≤ i) (hs : indices.Pairwise (· ≤ ·)) :
    ∃ splits metas, splitAtIndices sizeBytes blocks indices blockRows = .ok (splits, metas) ∧
      splits.length = indices.length + 1 ∧
      metas.map (List.map BlockMetadata.numRows) =
        splits.map (List.map (fun b => some b.rows.length)) ∧
      ∀ i (h : i < splits.length), (splits[i].map Block.rows).flatten =
        segment (allRows blocks) ((cutPoints indices (allRows blocks).length).getD i 0)
          ((cutPoints indices (allRows blocks).length).getD (i + 1) 0) := by
  obtain ⟨gs, he, hp, hc, hsz⟩ := splitAtIndices_groups sizeBytes blocks indices blockRows hm hr h0 hs
  have hlen : gs.length = indices.length + 1 := by
    have := congrArg List.length hsz
    simpa [endPoints] using this
  refine ⟨_, _, he, by simpa using hlen, ?_, ?_⟩
  · rw [List.map_map, List.map_map]
    apply List.map_congr_left
    intro g hg
    simp only [Function.comp, List.map_map]
    apply List.map_congr_left
    intro p hp'
    exact hc g hg p hp'
  · intro i hi
    rw [List.length_map] at hi
    rw [← group_eq_segment length_allRows hs hp hsz hi, List.getElem_map, List.map_map]
    rfl

/-- Duplicated, border and out-of-range indices over an empty block. -/
theorem splitAtIndices_rows_borders :
    ∃ splits metas, splitAtIndices (fun _ => 0) [(⟨.arrow, [1, 2]⟩, ⟨some 2, none, []⟩),
        (⟨.pandas, []⟩, ⟨some 0, none, []⟩), (⟨.arrow, [3, 4, 5]⟩, ⟨some 3, none, []⟩)]
        [0, 2, 2, 4, 9] none = .ok (splits, metas) ∧ splits.length = 6 ∧
      ∀ i (h : i < splits.length), (splits[i].map Block.rows).flatten =
        segment [1, 2, 3, 4, 5] ([0, 0, 2, 2, 4, 5, 5].getD i 0)
          ([0, 0, 2, 2, 4, 5, 5].getD (i + 1) 0) := by
  obtain ⟨s, m, h, hl, -, hseg⟩ := splitAtIndices_rows (fun _ => 0)
    [(⟨.arrow, [1, 2]⟩, ⟨some 2, none, []⟩), (⟨.pandas, []⟩, ⟨some 0, none, []⟩),
      (⟨.arrow, [3, 4, 5]⟩, ⟨some 3, none, []⟩)] [0, 2, 2, 4, 9] none
    (by decide) (Or.inl rfl) (by decide) (by decide)
  exact ⟨s, m, h, hl, hseg⟩

end RayTfm.Data
