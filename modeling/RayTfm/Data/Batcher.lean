import RayTfm.Lib.Runs
import RayTfm.Data.Split

/-! # Batches

The model of `data/_internal/batcher.py`, with the block builder it uses
(`delegating_block_builder.py`).  `Batcher` cuts the rows of the added blocks into batches;
`ShufflingBatcher` takes them in random order out of a buffer that it compacts from time to time.

A run is any list of operations; an operation that is not legal at its time (`next_batch` without a
batch, `add` after `done_adding`) is left out.  Copies that change no row and the memory warning are
not modelled. -/

namespace RayTfm.Data

variable {α : Type}

/-- The rows of a list of blocks, in order. -/
def blockRows (blocks : List (Block α)) : List α := blocks.flatMap Block.rows

@[simp] theorem blockRows_nil : blockRows ([] : List (Block α)) = [] := rfl

@[simp] theorem blockRows_cons (b : Block α) (l : List (Block α)) :
    blockRows (b :: l) = b.rows ++ blockRows l := List.flatMap_cons

@[simp] theorem blockRows_append (l l' : List (Block α)) :
    blockRows (l ++ l') = blockRows l ++ blockRows l' := List.flatMap_append

/-- The format every row of a list of blocks comes in. -/
def blockFormats (blocks : List (Block α)) : List BlockFormat :=
  blocks.flatMap (fun b => List.replicate b.rows.length b.format)

@[simp] theorem blockFormats_nil : blockFormats ([] : List (Block α)) = [] := rfl

@[simp] theorem blockFormats_cons (b : Block α) (l : List (Block α)) :
    blockFormats (b :: l) = List.replicate b.rows.length b.format ++ blockFormats l :=
  List.flatMap_cons

@[simp] theorem blockFormats_append (l l' : List (Block α)) :
    blockFormats (l ++ l') = blockFormats l ++ blockFormats l' := List.flatMap_append

theorem length_blockFormats (l : List (Block α)) :
    (blockFormats l).length = (blockRows l).length := by
  induction l with
  | nil => rfl
  | cons b l ih => simp [ih]

/-! ### The builder -/

/-- `DelegatingBlockBuilder`: the table built so far, and the format of an empty block that was
added; it is used if nothing else comes. -/
structure DelegatingBlockBuilder (α : Type) where
  builder : Option (Block α)
  emptyBlock : Option BlockFormat
deriving DecidableEq, Repr

namespace DelegatingBlockBuilder

def init : DelegatingBlockBuilder α := ⟨none, none⟩

def addBlock (t : DelegatingBlockBuilder α) (block : Block α) :
    Except PyError (DelegatingBlockBuilder α) :=
  if block.rows.length = 0 then .ok { t with emptyBlock := some block.format }
  else
    match t.builder with
    | none => .ok { t with builder := some block }
    | some b => do
        pyAssert (block.format = b.format)
        .ok { t with builder := some { b with rows := b.rows ++ block.rows } }

def build (t : DelegatingBlockBuilder α) : Block α :=
  match t.builder, t.emptyBlock with
  | some b, _ => b
  | none, some fmt => ⟨fmt, []⟩
  | none, none => ⟨.arrow, []⟩

def numRows (t : DelegatingBlockBuilder α) : ℕ :=
  match t.builder with
  | some b => b.rows.length
  | none => 0

/-- The rows added so far. -/
def rows (t : DelegatingBlockBuilder α) : List α := t.build.rows

@[simp] theorem rows_init : (init : DelegatingBlockBuilder α).rows = [] := rfl

theorem numRows_eq (t : DelegatingBlockBuilder α) : t.numRows = t.rows.length := by
  obtain ⟨b | b, fmt | fmt⟩ := t <;> rfl

variable {t : DelegatingBlockBuilder α}
variable {t' : DelegatingBlockBuilder α} {block : Block α}

theorem rows_addBlock (h : t.addBlock block = .ok t') : t'.rows = t.rows ++ block.rows := by
  unfold addBlock at h
  split_ifs at h with hempty
  · cases h
    rw [List.length_eq_zero_iff.mp hempty, List.append_nil]
    obtain ⟨b | b, fmt | fmt⟩ := t <;> rfl
  · obtain ⟨b | b, fmt⟩ := t
    · cases h
      cases fmt <;> rfl
    · obtain ⟨-, -, h⟩ := bind_eq_ok.mp h
      cases h
      rfl

/-- The table built so far has the given format. -/
def HasFormat (fmt : BlockFormat) (t : DelegatingBlockBuilder α) : Prop :=
  ∀ b ∈ t.builder, b.format = fmt

theorem hasFormat_init (fmt : BlockFormat) : (init : DelegatingBlockBuilder α).HasFormat fmt := nofun

variable {fmt : BlockFormat}

theorem exists_hasFormat (t : DelegatingBlockBuilder α) : ∃ fmt, t.HasFormat fmt := by
  obtain ⟨b | b, empty⟩ := t
  · exact ⟨.arrow, nofun⟩
  · refine ⟨b.format, fun b' hb' => ?_⟩
    cases hb'
    rfl

/-- Blocks of one format can be added; a block without rows may have any format. -/
theorem addBlock_eq_ok (ht : t.HasFormat fmt) (hblock : block.rows ≠ [] → block.format = fmt) :
    ∃ t', t.addBlock block = .ok t' ∧ t'.HasFormat fmt := by
  unfold addBlock
  split_ifs with hempty
  · exact ⟨_, rfl, ht⟩
  · have hb := hblock (fun hnil => hempty (by rw [hnil]; rfl))
    obtain ⟨b | b, empty⟩ := t
    · refine ⟨_, rfl, fun b' hb' => ?_⟩
      cases hb'
      exact hb
    · have hfmt : b.format = fmt := ht b rfl
      refine ⟨⟨some { b with rows := b.rows ++ block.rows }, empty⟩, ?_, fun b' hb' => ?_⟩
      · simp only [hb, hfmt, decide_true, pyAssert_true, ok_bind]
      · cases hb'
        exact hfmt

theorem addBlock_format (h : t.addBlock block = .ok t') (ht' : t'.HasFormat fmt) :
    t.HasFormat fmt ∧ (block.rows ≠ [] → block.format = fmt) := by
  unfold addBlock at h
  split_ifs at h with hempty
  · cases h
    exact ⟨ht', fun hne => absurd (List.length_eq_zero_iff.mp hempty) hne⟩
  · obtain ⟨b | b, empty⟩ := t
    · cases h
      exact ⟨nofun, fun _ => ht' block rfl⟩
    · obtain ⟨_, hsame, h⟩ := bind_eq_ok.mp h
      cases h
      have hfmt : b.format = fmt := ht' { b with rows := b.rows ++ block.rows } rfl
      refine ⟨fun b' hb' => ?_, fun _ => ?_⟩
      · cases hb'
        exact hfmt
      · rw [← hfmt]
        exact of_decide_eq_true (pyAssert_eq_ok.mp hsame)

/-- Blocks of one format, as far as they have rows, are collected with their rows in order. -/
theorem foldlM_addBlock {blocks : List (Block α)} (h : ∀ b ∈ blocks, b.rows ≠ [] → b.format = fmt) :
    ∃ t, blocks.foldlM addBlock .init = .ok t ∧ t.HasFormat fmt ∧ t.rows = blockRows blocks :=
  foldlM_ok (P := fun done (t : DelegatingBlockBuilder α) => t.HasFormat fmt ∧ t.rows = blockRows done)
    ⟨hasFormat_init fmt, rfl⟩ (by
      rintro done b t hb ⟨hfmt, hrows⟩
      obtain ⟨t', ht', hfmt'⟩ := addBlock_eq_ok hfmt (h b hb)
      refine ⟨t', ht', hfmt', ?_⟩
      rw [rows_addBlock ht', hrows, blockRows_append, blockRows_cons, blockRows_nil, List.append_nil])

theorem build_format (ht : t.HasFormat fmt) (h : t.rows ≠ []) : t.build.format = fmt := by
  obtain ⟨b | b, empty⟩ := t
  · exact absurd (by cases empty <;> rfl) h
  · exact ht b rfl

end DelegatingBlockBuilder

/-! ### Runs of a batcher -/

/-- What a consumer does with a batcher. -/
inductive BatcherOp (α : Type) where
  | add (block : Block α)
  | nextBatch
  | doneAdding
deriving DecidableEq, Repr

/-- `done_adding` was called. -/
def isDone : List (BatcherOp α) → Bool
  | [] => false
  | .doneAdding :: _ => true
  | _ :: ops => isDone ops

/-- The blocks added before `done_adding`. -/
def addedBlocks : List (BatcherOp α) → List (Block α)
  | [] => []
  | .add block :: ops => block :: addedBlocks ops
  | .nextBatch :: ops => addedBlocks ops
  | .doneAdding :: _ => []

theorem isDone_append (ops ops' : List (BatcherOp α)) :
    isDone (ops ++ ops') = (isDone ops || isDone ops') := by
  induction ops with
  | nil => rfl
  | cons o ops ih => cases o <;> simp [isDone, ih]

theorem addedBlocks_append (ops ops' : List (BatcherOp α)) :
    addedBlocks (ops ++ ops') = addedBlocks ops ++ if isDone ops then [] else addedBlocks ops' := by
  induction ops with
  | nil => rfl
  | cons o ops ih => cases o <;> cases hd : isDone ops <;> simp [hd, isDone, addedBlocks, ih]

section snoc
variable (ops : List (BatcherOp α))

@[simp] theorem isDone_snoc_add (block : Block α) : isDone (ops ++ [.add block]) = isDone ops := by
  simp [isDone_append, isDone]

@[simp] theorem isDone_snoc_nextBatch : isDone (ops ++ [.nextBatch]) = isDone ops := by
  simp [isDone_append, isDone]

@[simp] theorem isDone_snoc_doneAdding : isDone (ops ++ [.doneAdding]) = true := by
  simp [isDone_append, isDone]

@[simp] theorem addedBlocks_snoc_nextBatch : addedBlocks (ops ++ [.nextBatch]) = addedBlocks ops := by
  simp [addedBlocks_append, addedBlocks]

@[simp] theorem addedBlocks_doneAdding (ops' : List (BatcherOp α)) :
    addedBlocks (ops ++ .doneAdding :: ops') = addedBlocks ops := by
  simp [addedBlocks_append, addedBlocks]

variable {ops}

theorem addedBlocks_snoc_add (h : isDone ops = false) (block : Block α) :
    addedBlocks (ops ++ [.add block]) = addedBlocks ops ++ [block] := by
  rw [addedBlocks_append, h]
  rfl

theorem addedBlocks_of_isDone (h : isDone ops = true) (ops' : List (BatcherOp α)) :
    addedBlocks (ops ++ ops') = addedBlocks ops := by
  simp [addedBlocks_append, h]

end snoc

/-! ### `Batcher` -/

/-- Chunks blocks into batches; without batch size the whole block is the batch. -/
structure Batcher (α : Type) where
  batchSize : Option ℕ
  buffer : List (Block α)
  bufferSize : ℤ
  doneAdding : Bool
deriving DecidableEq, Repr

namespace Batcher

def init (batchSize : Option ℕ) : Batcher α := ⟨batchSize, [], 0, false⟩

def add (t : Batcher α) (block : Block α) : Batcher α :=
  if 0 < block.rows.length then
    { t with buffer := t.buffer ++ [block], bufferSize := t.bufferSize + block.rows.length }
  else t

def hasAny (t : Batcher α) : Bool := 0 < t.bufferSize

def hasBatch (t : Batcher α) : Bool :=
  t.hasAny &&
    match t.batchSize with
    | none => true
    | some n => (n : ℤ) ≤ t.bufferSize

/-- The loop of `next_batch` over the buffer: what goes into the batch, and the leftover. -/
def batchLoop : List (Block α) → ℕ → DelegatingBlockBuilder α →
    Except PyError (DelegatingBlockBuilder α × List (Block α))
  | [], _, output => .ok (output, [])
  | block :: buffer, needed, output =>
    if needed ≤ 0 then do
      let r ← batchLoop buffer needed output
      .ok (r.1, block :: r.2)
    else if block.rows.length ≤ needed then do
      let output ← output.addBlock block
      batchLoop buffer (needed - block.rows.length) output
    else do
      let head ← block.slice 0 (some (needed : ℤ))
      let output ← output.addBlock head
      let tail ← block.slice needed (some (block.rows.length : ℤ))
      let r ← batchLoop buffer 0 output
      .ok (r.1, tail :: r.2)

def nextBatch (t : Batcher α) : Except PyError (Block α × Batcher α) := do
  pyAssert (t.hasBatch || (t.doneAdding && t.hasAny))
  match t.batchSize with
  | none =>
    match t.buffer with
    | [block] => .ok (block, { t with buffer := [], bufferSize := 0 })
    | _ => .error .assertionError
  | some n => do
      let r ← batchLoop t.buffer n .init
      .ok (r.1.build, { t with buffer := r.2, bufferSize := t.bufferSize - n })

/-- One operation of a legal run. -/
def step (t : Batcher α) : BatcherOp α → Except PyError (Batcher α × List (Block α))
  | .add block => if t.doneAdding then .ok (t, []) else .ok (t.add block, [])
  | .doneAdding => .ok ({ t with doneAdding := true }, [])
  | .nextBatch =>
    if t.hasBatch || (t.doneAdding && t.hasAny) then do
      let r ← t.nextBatch
      .ok (r.2, [r.1])
    else .ok (t, [])

/-! ### One batch -/

theorem batchLoop_rows : ∀ {buffer : List (Block α)} {needed : ℕ}
    {output : DelegatingBlockBuilder α} {r : DelegatingBlockBuilder α × List (Block α)},
    batchLoop buffer needed output = .ok r →
      r.1.rows = output.rows ++ (blockRows buffer).take needed ∧
        blockRows r.2 = (blockRows buffer).drop needed ∧
        blockFormats r.2 = (blockFormats buffer).drop needed
  | [], needed, output, r, h => by
    cases h
    simp
  | block :: buffer, needed, output, r, h => by
    rw [batchLoop] at h
    rw [blockRows_cons, blockFormats_cons, List.take_append, List.drop_append, List.drop_append,
      List.drop_replicate, List.length_replicate]
    split_ifs at h with hzero hfit
    · obtain ⟨q, hq, h⟩ := bind_eq_ok.mp h
      cases h
      obtain ⟨hout, hleft, hformats⟩ := batchLoop_rows hq
      have hz : needed = 0 := by omega
      subst hz
      simp [hout, hleft, hformats]
    · obtain ⟨output', hadd, h⟩ := bind_eq_ok.mp h
      obtain ⟨hout, hleft, hformats⟩ := batchLoop_rows h
      have htake : block.rows.take needed = block.rows := List.take_of_length_le hfit
      have hdrop : block.rows.drop needed = [] := List.drop_of_length_le hfit
      refine ⟨?_, ?_, ?_⟩
      · rw [hout, DelegatingBlockBuilder.rows_addBlock hadd, htake, List.append_assoc]
      · rw [hleft, hdrop, List.nil_append]
      · rw [hformats, Nat.sub_eq_zero_of_le hfit, List.replicate_zero, List.nil_append]
    · have hlt : needed ≤ block.rows.length := by omega
      have hhead := slice_eq block (Nat.zero_le needed) hlt
      rw [Nat.cast_zero] at hhead
      rw [hhead, ok_bind] at h
      obtain ⟨output', hadd, h⟩ := bind_eq_ok.mp h
      rw [slice_eq block hlt le_rfl, ok_bind] at h
      obtain ⟨q, hq, h⟩ := bind_eq_ok.mp h
      cases h
      obtain ⟨hout, hleft, hformats⟩ := batchLoop_rows hq
      have hsub : needed - block.rows.length = 0 := by omega
      rw [hsub]
      refine ⟨?_, ?_, ?_⟩
      · rw [hout, DelegatingBlockBuilder.rows_addBlock hadd, segment_zero]
        simp
      · rw [blockRows_cons, hleft, segment, List.take_length]
      · rw [blockFormats_cons, hformats, length_segment _ hlt le_rfl]

variable {fmt : BlockFormat}

/-- Rows of one format are put together. -/
theorem batchLoop_eq_ok : ∀ {buffer : List (Block α)} {needed : ℕ}
    {output : DelegatingBlockBuilder α}, (∀ f ∈ (blockFormats buffer).take needed, f = fmt) →
      output.HasFormat fmt → ∃ r, batchLoop buffer needed output = .ok r
  | [], needed, output, _, _ => ⟨_, rfl⟩
  | block :: buffer, needed, output, hb, ho => by
    rw [blockFormats_cons, List.take_append, List.take_replicate, List.length_replicate] at hb
    have hrest : ∀ f ∈ (blockFormats buffer).take (needed - block.rows.length), f = fmt :=
      fun f hf => hb f (List.mem_append_right _ hf)
    have hblock : 0 < needed → 0 < block.rows.length → block.format = fmt := fun hn hlen =>
      hb _ (List.mem_append_left _ (List.mem_replicate.mpr ⟨by omega, rfl⟩))
    rw [batchLoop]
    split_ifs with hzero hfit
    · have hz : needed = 0 := by omega
      subst hz
      rw [Nat.zero_sub] at hrest
      obtain ⟨r, hr⟩ := batchLoop_eq_ok hrest ho
      exact ⟨(r.1, block :: r.2), by rw [hr]; rfl⟩
    · obtain ⟨output', hadd, ho'⟩ := DelegatingBlockBuilder.addBlock_eq_ok ho
        (fun hne => hblock (by omega) (List.length_pos_of_ne_nil hne))
      rw [hadd, ok_bind]
      exact batchLoop_eq_ok hrest ho'
    · have hlt : needed ≤ block.rows.length := by omega
      have hhead := slice_eq block (Nat.zero_le needed) hlt
      rw [Nat.cast_zero] at hhead
      obtain ⟨output', hadd, ho'⟩ := DelegatingBlockBuilder.addBlock_eq_ok ho
        (fun _ : ({ block with rows := segment block.rows 0 needed } : Block α).rows ≠ [] =>
          hblock (by omega) (by omega))
      rw [Nat.sub_eq_zero_of_le hlt] at hrest
      obtain ⟨r, hr⟩ := batchLoop_eq_ok hrest ho'
      rw [hhead, ok_bind, hadd, ok_bind, slice_eq block hlt le_rfl, ok_bind, hr]
      exact ⟨_, rfl⟩

/-- Only rows of one format are put together. -/
theorem batchLoop_format : ∀ {buffer : List (Block α)} {needed : ℕ}
    {output : DelegatingBlockBuilder α} {r : DelegatingBlockBuilder α × List (Block α)},
    batchLoop buffer needed output = .ok r → r.1.HasFormat fmt →
      output.HasFormat fmt ∧ ∀ f ∈ (blockFormats buffer).take needed, f = fmt
  | [], needed, output, r, h, hr => by
    cases h
    exact ⟨hr, by simp⟩
  | block :: buffer, needed, output, r, h, hr => by
    rw [blockFormats_cons, List.take_append, List.take_replicate, List.length_replicate]
    have hboth : ∀ {k : ℕ} {l : List BlockFormat}, (0 < k → block.format = fmt) →
        (∀ f ∈ l, f = fmt) → ∀ f ∈ List.replicate k block.format ++ l, f = fmt := by
      intro k l hk hl f hf
      obtain hf | hf := List.mem_append.mp hf
      · obtain ⟨hpos, rfl⟩ := List.mem_replicate.mp hf
        exact hk (Nat.pos_of_ne_zero hpos)
      · exact hl f hf
    rw [batchLoop] at h
    split_ifs at h with hzero hfit
    · obtain ⟨q, hq, h⟩ := bind_eq_ok.mp h
      cases h
      obtain ⟨ho, hrest⟩ := batchLoop_format hq hr
      have hz : needed = 0 := by omega
      subst hz
      exact ⟨ho, hboth (fun hpos => by omega) (by simp)⟩
    · obtain ⟨output', hadd, h⟩ := bind_eq_ok.mp h
      obtain ⟨ho, hrest⟩ := batchLoop_format h hr
      obtain ⟨ho, hblock⟩ := DelegatingBlockBuilder.addBlock_format hadd ho
      exact ⟨ho, hboth (fun hpos => hblock (List.ne_nil_of_length_pos (by omega))) hrest⟩
    · have hlt : needed ≤ block.rows.length := by omega
      have hhead := slice_eq block (Nat.zero_le needed) hlt
      rw [Nat.cast_zero] at hhead
      rw [hhead, ok_bind] at h
      obtain ⟨output', hadd, h⟩ := bind_eq_ok.mp h
      rw [slice_eq block hlt le_rfl, ok_bind] at h
      obtain ⟨q, hq, h⟩ := bind_eq_ok.mp h
      cases h
      obtain ⟨ho, hrest⟩ := batchLoop_format hq hr
      obtain ⟨ho, hblock⟩ := DelegatingBlockBuilder.addBlock_format hadd ho
      have hhead : (segment block.rows 0 needed).length = needed :=
        length_segment _ (Nat.zero_le _) hlt
      refine ⟨ho, hboth (fun hpos => hblock (List.ne_nil_of_length_pos ?_)) ?_⟩
      · rw [hhead]
        omega
      · rwa [Nat.sub_eq_zero_of_le hlt]

theorem nextBatch_rows {t t' : Batcher α} {n : ℕ} {b : Block α} (hn : t.batchSize = some n)
    (h : t.nextBatch = .ok (b, t')) :
    b.rows = (blockRows t.buffer).take n ∧ blockRows t'.buffer = (blockRows t.buffer).drop n ∧
      blockFormats t'.buffer = (blockFormats t.buffer).drop n ∧ t'.bufferSize = t.bufferSize - n ∧
      t'.batchSize = some n ∧ t'.doneAdding = t.doneAdding := by
  obtain ⟨-, -, h⟩ := bind_eq_ok.mp h
  simp only [hn] at h
  obtain ⟨r, hr, h⟩ := bind_eq_ok.mp h
  cases h
  obtain ⟨hrows, hleft, hformats⟩ := batchLoop_rows hr
  rw [DelegatingBlockBuilder.rows_init, List.nil_append] at hrows
  exact ⟨hrows, hleft, hformats, rfl, rfl, rfl⟩

/-- A batch is built if its rows have one format. -/
theorem nextBatch_eq_ok_iff {t : Batcher α} {n : ℕ} (hn : t.batchSize = some n)
    (hguard : (t.hasBatch || (t.doneAdding && t.hasAny)) = true) :
    (∃ r, t.nextBatch = .ok r) ↔ ∃ fmt, ∀ f ∈ (blockFormats t.buffer).take n, f = fmt := by
  unfold nextBatch
  rw [hguard, pyAssert_true, ok_bind]
  simp only [hn]
  constructor
  · rintro ⟨b, h⟩
    obtain ⟨r, hr, -⟩ := bind_eq_ok.mp h
    obtain ⟨fmt, hfmt⟩ := r.1.exists_hasFormat
    exact ⟨fmt, (batchLoop_format hr hfmt).2⟩
  · rintro ⟨fmt, hfmt⟩
    obtain ⟨r, hr⟩ := batchLoop_eq_ok hfmt (DelegatingBlockBuilder.hasFormat_init fmt)
    rw [hr]
    exact ⟨_, rfl⟩

/-! ### Whole runs -/

/-- The returned batches and the buffer make up the added rows.  As long as all batches are full the
counter counts the buffered rows; after a smaller batch the buffer is empty. -/
structure Inv (n : ℕ) (ops : List (BatcherOp α)) (t : Batcher α) (out : List (Block α)) : Prop where
  size : t.batchSize = some n
  done : t.doneAdding = isDone ops
  rows : blockRows out ++ blockRows t.buffer = blockRows (addedBlocks ops)
  formats : blockFormats t.buffer = (blockFormats (addedBlocks ops)).drop (out.length * n)
  phase : ((∀ b ∈ out, b.rows.length = n) ∧ t.bufferSize = (blockRows t.buffer).length) ∨
    (blockRows t.buffer = [] ∧ t.bufferSize < 0 ∧ t.doneAdding = true ∧ ∃ full last,
      out = full ++ [last] ∧ (∀ b ∈ full, b.rows.length = n) ∧ 1 ≤ last.rows.length ∧
        last.rows.length < n)

theorem inv_init (n : ℕ) : Inv n [] (init (some n) : Batcher α) [] :=
  ⟨rfl, rfl, rfl, by simp [init, addedBlocks], .inl ⟨by simp, rfl⟩⟩

variable {n : ℕ} {ops : List (BatcherOp α)} {t t' : Batcher α} {out o : List (Block α)}

theorem length_blockRows_of_full (h : ∀ b ∈ out, b.rows.length = n) :
    (blockRows out).length = out.length * n := by
  induction out with
  | nil => simp
  | cons b out ih =>
    rw [blockRows_cons, List.length_append, h b List.mem_cons_self,
      ih (fun b' hb' => h b' (.tail _ hb')), List.length_cons, Nat.succ_mul, Nat.add_comm]

theorem Inv.add (h : Inv n ops t out) (hd : t.doneAdding = false) (block : Block α) :
    Inv n (ops ++ [.add block]) (t.add block) out := by
  have hops : isDone ops = false := h.done.symm.trans hd
  have hbuffer : blockRows (t.add block).buffer = blockRows t.buffer ++ block.rows := by
    unfold Batcher.add
    split_ifs with hpos
    · simp
    · have hnil : block.rows = [] := List.length_eq_zero_iff.mp (by omega)
      rw [hnil, List.append_nil]
  have hsize : (t.add block).bufferSize = t.bufferSize + block.rows.length := by
    unfold Batcher.add
    split_ifs with hpos
    · rfl
    · omega
  have hsame : (t.add block).batchSize = t.batchSize ∧ (t.add block).doneAdding = t.doneAdding := by
    unfold Batcher.add
    split_ifs <;> exact ⟨rfl, rfl⟩
  have hformats : blockFormats (t.add block).buffer =
      blockFormats t.buffer ++ List.replicate block.rows.length block.format := by
    unfold Batcher.add
    split_ifs with hpos
    · simp
    · rw [show block.rows.length = 0 by omega, List.replicate_zero, List.append_nil]
  refine ⟨hsame.1.trans h.size, by rw [hsame.2, isDone_snoc_add, h.done], ?_, ?_, ?_⟩
  · rw [addedBlocks_snoc_add hops, hbuffer, ← List.append_assoc, h.rows, blockRows_append,
      blockRows_cons, blockRows_nil, List.append_nil]
  · obtain ⟨hfull, -⟩ | ⟨-, -, hdone', -⟩ := h.phase
    · have hlen := congrArg List.length h.rows
      rw [List.length_append, length_blockRows_of_full hfull] at hlen
      rw [addedBlocks_snoc_add hops, hformats, h.formats, blockFormats_append, blockFormats_cons,
        blockFormats_nil, List.append_nil, List.drop_append_of_le_length]
      rw [length_blockFormats]
      omega
    · rw [hd] at hdone'
      cases hdone'
  · obtain ⟨hfull, hcount⟩ | ⟨-, -, hdone', -⟩ := h.phase
    · refine .inl ⟨hfull, ?_⟩
      rw [hsize, hbuffer, List.length_append, hcount]
      rfl
    · rw [hd] at hdone'
      cases hdone'

theorem Inv.nextBatch (h : Inv n ops t out) {b : Block α}
    (hguard : (t.hasBatch || (t.doneAdding && t.hasAny)) = true)
    (hb : t.nextBatch = .ok (b, t')) : Inv n (ops ++ [.nextBatch]) t' (out ++ [b]) := by
  obtain ⟨hrows, hleft, hformats, hsize, hbatch, hdone⟩ := nextBatch_rows h.size hb
  have hany : 0 < t.bufferSize := by
    have : t.hasAny = true := by
      rw [Bool.or_eq_true, Bool.and_eq_true, hasBatch, Bool.and_eq_true] at hguard
      obtain ⟨hany, -⟩ | ⟨-, hany⟩ := hguard
      · exact hany
      · exact hany
    simpa [hasAny] using this
  refine ⟨hbatch, by rw [hdone, isDone_snoc_nextBatch, h.done], ?_, ?_, ?_⟩
  · rw [addedBlocks_snoc_nextBatch, ← h.rows, blockRows_append, blockRows_cons, blockRows_nil,
      List.append_nil, hrows, hleft, List.append_assoc, List.take_append_drop]
  · rw [addedBlocks_snoc_nextBatch, hformats, h.formats, List.drop_drop, List.length_append,
      List.length_singleton, Nat.succ_mul]
  · obtain ⟨hfull, hcount⟩ | ⟨-, hneg, -⟩ := h.phase
    · have hlen : b.rows.length = min n (blockRows t.buffer).length := by
        rw [hrows, List.length_take]
      have hlen' : (blockRows t'.buffer).length = (blockRows t.buffer).length - n := by
        rw [hleft, List.length_drop]
      by_cases hle : n ≤ (blockRows t.buffer).length
      · refine .inl ⟨?_, by omega⟩
        intro b' hb'
        obtain hb' | hb' := List.mem_append.mp hb'
        · exact hfull b' hb'
        · rw [List.mem_singleton.mp hb']
          omega
      · -- too few rows for a batch: the guard holds because nothing more is added
        have hdone' : t.doneAdding = true := by
          by_contra hnot
          rw [Bool.or_eq_true, Bool.and_eq_true, hasBatch, h.size] at hguard
          obtain hbatch | ⟨hd, -⟩ := hguard
          · rw [Bool.and_eq_true] at hbatch
            have := of_decide_eq_true hbatch.2
            omega
          · exact hnot hd
        refine .inr ⟨List.length_eq_zero_iff.mp (by omega), by omega, hdone.trans hdone', out, b, rfl,
          hfull, by omega, by omega⟩
    · omega

theorem inv_step {op : BatcherOp α} (h : Inv n ops t out)
    (hstep : t.step op = .ok (t', o)) : Inv n (ops ++ [op]) t' (out ++ o) := by
  have hskip : ∀ {op : BatcherOp α}, isDone (ops ++ [op]) = isDone ops →
      addedBlocks (ops ++ [op]) = addedBlocks ops → Inv n (ops ++ [op]) t (out ++ []) := by
    intro op hd ha
    rw [List.append_nil]
    exact ⟨h.size, hd.symm ▸ h.done, ha.symm ▸ h.rows, ha.symm ▸ h.formats, h.phase⟩
  cases op with
  | add block =>
    rw [step] at hstep
    split_ifs at hstep with hd
    · cases hstep
      have hops : isDone ops = true := h.done.symm.trans hd
      exact hskip (isDone_snoc_add ops block) (addedBlocks_of_isDone hops _)
    · cases hstep
      rw [List.append_nil]
      exact h.add (Bool.eq_false_iff.mpr hd) block
  | nextBatch =>
    rw [step] at hstep
    split_ifs at hstep with hguard
    · obtain ⟨r, hr, hstep⟩ := bind_eq_ok.mp hstep
      cases hstep
      exact h.nextBatch hguard hr
    · cases hstep
      exact hskip (isDone_snoc_nextBatch ops) (addedBlocks_snoc_nextBatch ops)
  | doneAdding =>
    cases hstep
    rw [List.append_nil]
    refine ⟨h.size, (isDone_snoc_doneAdding ops).symm, ?_, ?_, ?_⟩
    · rw [addedBlocks_doneAdding]
      exact h.rows
    · rw [addedBlocks_doneAdding]
      exact h.formats
    · obtain hfull | ⟨hnil, hneg, -, hlast⟩ := h.phase
      · exact .inl hfull
      · exact .inr ⟨hnil, hneg, rfl, hlast⟩

/-- After `done_adding` a call of `next_batch` makes the counter smaller. -/
theorem step_drains (hn : 1 ≤ n) (hQ : t.doneAdding = true ∧ t.batchSize = some n)
    (hstep : t.step .nextBatch = .ok (t', o)) :
    (t'.doneAdding = true ∧ t'.batchSize = some n) ∧
      t'.bufferSize.toNat ≤ t.bufferSize.toNat - 1 := by
  obtain ⟨hdone, hsize⟩ := hQ
  rw [step] at hstep
  split_ifs at hstep with hguard
  · obtain ⟨⟨b, t₁⟩, hr, hstep⟩ := bind_eq_ok.mp hstep
    cases hstep
    obtain ⟨-, -, -, hcount, hbatch, hd⟩ := nextBatch_rows hsize hr
    refine ⟨⟨hd.trans hdone, hbatch⟩, ?_⟩
    show t₁.bufferSize.toNat ≤ _
    omega
  · cases hstep
    refine ⟨⟨hdone, hsize⟩, ?_⟩
    have hle : ¬ 0 < t.bufferSize := by
      intro hpos
      apply hguard
      simp [hdone, hasAny, hpos]
    omega

/-- The next `n` rows, as they were added. -/
theorem Inv.take_formats (h : Inv n ops t out) : (blockFormats t.buffer).take n =
    segment (blockFormats (addedBlocks ops)) (out.length * n) ((out.length + 1) * n) := by
  rw [h.formats, segment, List.drop_take, Nat.succ_mul, Nat.add_sub_cancel_left]

/-- An operation fails if it is a legal call of `next_batch` for rows of two formats. -/
theorem Inv.step_eq_ok_iff (h : Inv n ops t out) (op : BatcherOp α) :
    (∃ r, t.step op = .ok r) ↔
      (op = .nextBatch → (t.hasBatch || (t.doneAdding && t.hasAny)) = true →
        ∃ fmt, ∀ f ∈ segment (blockFormats (addedBlocks ops)) (out.length * n)
          ((out.length + 1) * n), f = fmt) := by
  cases op with
  | add block =>
    refine ⟨nofun, fun _ => ?_⟩
    rw [step]
    split_ifs <;> exact ⟨_, rfl⟩
  | nextBatch =>
    rw [step]
    split_ifs with hguard
    · rw [← h.take_formats, ← nextBatch_eq_ok_iff h.size hguard]
      constructor
      · rintro ⟨r, hr⟩ - -
        obtain ⟨q, hq, -⟩ := bind_eq_ok.mp hr
        exact ⟨q, hq⟩
      · intro hok
        obtain ⟨q, hq⟩ := hok rfl hguard
        rw [hq]
        exact ⟨_, rfl⟩
    · exact ⟨fun _ _ hguard' => absurd hguard' hguard, fun _ => ⟨_, rfl⟩⟩
  | doneAdding => exact ⟨nofun, fun _ => ⟨_, rfl⟩⟩

/-- Where the rows of each batch have one format, no operation fails. -/
theorem run_eq_ok (hfmt : ∀ i, ∃ fmt,
      ∀ f ∈ segment (blockFormats (addedBlocks ops)) (i * n) ((i + 1) * n), f = fmt) :
    ∃ t out, runSteps step (init (some n)) ops = .ok (t, out) := by
  have hrun : ∃ t out, runSteps step (init (some n)) ops = .ok (t, out) ∧ Inv n ops t out := by
    apply runSteps_ok (P := Inv n)
    · exact inv_init n
    · rintro done op rest t out rfl hinv
      obtain ⟨more, hmore⟩ : addedBlocks done <+: addedBlocks (done ++ op :: rest) := by
        rw [addedBlocks_append]
        exact List.prefix_append _ _
      have hok : ∃ r, t.step op = .ok r := by
        refine (hinv.step_eq_ok_iff op).mpr (fun _ _ => ?_)
        obtain ⟨fmt, hall⟩ := hfmt out.length
        refine ⟨fmt, fun f hf => hall f ?_⟩
        rw [← hmore, blockFormats_append, segment, List.take_append, List.drop_append]
        exact List.mem_append_left _ hf
      obtain ⟨⟨t', o⟩, hstep⟩ := hok
      exact ⟨t', o, hstep, inv_step hinv hstep⟩
  obtain ⟨t, out, hrun, -⟩ := hrun
  exact ⟨t, out, hrun⟩

/-- Draining: after `done_adding`, as many calls of `next_batch` as there are rows leave nothing. -/
theorem hasAny_drained (hn : 1 ≤ n) (h : Inv n ops t out) {k : ℕ} (hk : (blockRows t.buffer).length ≤ k)
    (hrun : runSteps step t (.doneAdding :: List.replicate k .nextBatch) = .ok (t', o)) :
    t'.hasAny = false := by
  obtain ⟨t₁, o₁, o₂, hdone, hdrain, -⟩ := runSteps_cons_eq_ok.mp hrun
  have hinv := inv_step h hdone
  cases hdone
  have hsize : t.bufferSize.toNat ≤ (blockRows t.buffer).length := by
    obtain ⟨-, hcount⟩ | ⟨-, hneg, -⟩ := h.phase <;> omega
  have hzero := runSteps_replicate (m := fun t : Batcher α => t.bufferSize.toNat)
    (fun _ _ _ => step_drains hn) ⟨rfl, hinv.size⟩ hdrain
  change t'.bufferSize.toNat ≤ t.bufferSize.toNat - k at hzero
  simp only [hasAny, decide_eq_false_iff_not]
  omega

end Batcher

/-- The rows at the given positions. -/
def rowsAt (rows : List α) (indices : List ℕ) : List α := indices.filterMap (fun i => rows[i]?)

/-- `BlockAccessor.take`; a position outside the block raises. -/
def Block.take (b : Block α) (indices : List ℕ) : Except PyError (Block α) :=
  if ∀ i ∈ indices, i < b.rows.length then .ok { b with rows := rowsAt b.rows indices }
  else .error .indexError

/-- A random generator: the permutation that each draw gives for a number of rows. -/
structure Rng where
  permutation : ℕ → ℕ → List ℕ
  perm : ∀ draw n, (permutation draw n).Perm (List.range n)

/-- Chunks blocks into shuffled batches: a compacted buffer with a permutation of its rows, of which
the first `batchHead` are taken, and a builder for the rows added since. -/
structure ShufflingBatcher (α : Type) where
  batchSize : ℕ
  rng : Rng
  draws : ℕ
  minRowsToYieldBatch : ℕ
  minRowsToTriggerCompaction : ℕ
  builder : DelegatingBlockBuilder α
  shuffleBuffer : Option (Block α)
  shuffledIndices : Option (List ℕ)
  batchHead : ℕ
  doneAdding : Bool

namespace ShufflingBatcher

/-- The thresholds are a half and three halves of the minimal size, rounded down. -/
def init (batchSize : ℕ) (shuffleBufferMinSize : ℤ) (rng : Rng) : ShufflingBatcher α :=
  let minSize : ℤ := if shuffleBufferMinSize < batchSize then batchSize else shuffleBufferMinSize
  { batchSize, rng, draws := 0
    minRowsToYieldBatch := max 1 (minSize / 2).toNat
    minRowsToTriggerCompaction := (minSize * 3 / 2).toNat
    builder := .init, shuffleBuffer := none, shuffledIndices := none, batchHead := 0
    doneAdding := false }

def add (t : ShufflingBatcher α) (block : Block α) : Except PyError (ShufflingBatcher α) :=
  if 0 < block.rows.length then do
    let builder ← t.builder.addBlock block
    .ok { t with builder }
  else .ok t

def numCompactedRows (t : ShufflingBatcher α) : ℕ :=
  match t.shuffleBuffer, t.shuffledIndices with
  | some _, some indices => indices.length - t.batchHead
  | _, _ => 0

def numUncompactedRows (t : ShufflingBatcher α) : ℕ := t.builder.numRows

def numRows (t : ShufflingBatcher α) : ℕ := t.numCompactedRows + t.numUncompactedRows

def hasAny (t : ShufflingBatcher α) : Bool := 0 < t.numRows

def hasBatch (t : ShufflingBatcher α) : Bool :=
  if t.doneAdding then t.batchSize ≤ t.numRows
  else t.batchSize ≤ t.numRows && (t.minRowsToYieldBatch ≤ t.numCompactedRows ||
    (t.minRowsToTriggerCompaction : ℤ) ≤ (t.numRows : ℤ) - t.batchSize)

/-- What is left of the old buffer goes through the builder. -/
def addRemaining (t : ShufflingBatcher α) : Except PyError (DelegatingBlockBuilder α) :=
  match t.shuffleBuffer, t.shuffledIndices with
  | some buffer, some indices =>
    if t.batchHead < indices.length then do
      let remainingBlock ← buffer.take (indices.drop t.batchHead)
      t.builder.addBlock remainingBlock
    else .ok t.builder
  | _, _ => .ok t.builder

/-- The compaction in `next_batch`. -/
def compact (t : ShufflingBatcher α) : Except PyError (ShufflingBatcher α) := do
  let builder ← t.addRemaining
  let buffer := builder.build
  .ok { t with
    builder := .init, shuffleBuffer := some buffer, batchHead := 0
    shuffledIndices := some (t.rng.permutation t.draws buffer.rows.length), draws := t.draws + 1 }

def compactIfNeeded (t : ShufflingBatcher α) : Except PyError (ShufflingBatcher α) :=
  if 0 < t.numUncompactedRows &&
      (t.doneAdding || t.numCompactedRows ≤ t.minRowsToYieldBatch) then t.compact
  else .ok t

/-- The end of `next_batch`: the next rows of the permutation. -/
def takeBatch (t : ShufflingBatcher α) : Except PyError (Block α × ShufflingBatcher α) :=
  match t.shuffleBuffer, t.shuffledIndices with
  | some buffer, some indices => do
      let batchSize := min t.batchSize (indices.length - t.batchHead)
      let batch ← buffer.take ((indices.drop t.batchHead).take batchSize)
      .ok (batch, { t with batchHead := t.batchHead + batchSize })
  | _, _ => .error .assertionError

def nextBatch (t : ShufflingBatcher α) : Except PyError (Block α × ShufflingBatcher α) := do
  pyAssert (t.hasBatch || (t.doneAdding && t.hasAny))
  let t ← t.compactIfNeeded
  t.takeBatch

/-- One operation of a legal run. -/
def step (t : ShufflingBatcher α) :
    BatcherOp α → Except PyError (ShufflingBatcher α × List (Block α))
  | .add block =>
    if t.doneAdding then .ok (t, [])
    else do
      let t ← t.add block
      .ok (t, [])
  | .doneAdding => .ok ({ t with doneAdding := true }, [])
  | .nextBatch =>
    if t.hasBatch || (t.doneAdding && t.hasAny) then do
      let r ← t.nextBatch
      .ok (r.2, [r.1])
    else .ok (t, [])

/-! ### Compaction -/

theorem length_rowsAt {rows : List α} {indices : List ℕ} (h : ∀ i ∈ indices, i < rows.length) :
    (rowsAt rows indices).length = indices.length := by
  induction indices with
  | nil => rfl
  | cons i indices ih =>
    have hi := h i (.head _)
    rw [rowsAt, List.filterMap_cons, List.getElem?_eq_getElem hi, List.length_cons,
      List.length_cons, ← ih (fun j hj => h j (.tail _ hj)), rowsAt]

theorem rowsAt_range (rows : List α) : rowsAt rows (List.range rows.length) = rows := by
  induction rows with
  | nil => rfl
  | cons a rows ih =>
    rw [rowsAt, List.length_cons, List.range_succ_eq_map, List.filterMap_cons, List.filterMap_map]
    exact congrArg (a :: ·) ih

variable {b : Block α}

theorem take_eq {indices : List ℕ} (h : ∀ i ∈ indices, i < b.rows.length) :
    b.take indices = .ok { b with rows := rowsAt b.rows indices } := if_pos h

/-- The rows of the compacted buffer that are not taken yet. -/
def pending (t : ShufflingBatcher α) : List α :=
  match t.shuffleBuffer, t.shuffledIndices with
  | some buffer, some indices => rowsAt buffer.rows (indices.drop t.batchHead)
  | _, _ => []

/-- The buffer and its permutation are set together, and the permutation stays inside. -/
def Valid (t : ShufflingBatcher α) : Prop :=
  1 ≤ t.minRowsToYieldBatch ∧
    (t.shuffleBuffer = none ∨ ∃ buffer indices, t.shuffleBuffer = some buffer ∧
      t.shuffledIndices = some indices ∧ ∀ i ∈ indices, i < buffer.rows.length)

variable {t : ShufflingBatcher α}

theorem numCompactedRows_eq (h : t.Valid) :
    t.numCompactedRows = t.pending.length := by
  unfold numCompactedRows pending
  obtain ⟨-, hnone | ⟨buffer, indices, hb, hi, hlt⟩⟩ := h
  · rw [hnone]
    rfl
  · rw [hb, hi]
    rw [length_rowsAt (fun i hi => hlt i (List.mem_of_mem_drop hi)), List.length_drop]

theorem numRows_eq (h : t.Valid) :
    t.numRows = (t.pending ++ t.builder.rows).length := by
  rw [numRows, numCompactedRows_eq h, numUncompactedRows, DelegatingBlockBuilder.numRows_eq,
    List.length_append]

theorem addRemaining_rows {builder : DelegatingBlockBuilder α}
    (ht : t.Valid) (h : t.addRemaining = .ok builder) :
    builder.rows.Perm (t.pending ++ t.builder.rows) := by
  unfold pending
  unfold addRemaining at h
  obtain ⟨-, hnone | ⟨buffer, indices, hb, hi, hlt⟩⟩ := ht
  · rw [hnone] at h ⊢
    cases h
    rfl
  · rw [hb, hi] at h ⊢
    simp only at h ⊢
    split_ifs at h with hhead
    · rw [take_eq (fun i hi => hlt i (List.mem_of_mem_drop hi)), ok_bind] at h
      rw [DelegatingBlockBuilder.rows_addBlock h]
      exact List.perm_append_comm
    · cases h
      rw [List.drop_of_length_le (by omega)]
      rfl

variable {t' : ShufflingBatcher α}

theorem compact_spec (ht : t.Valid) (h : t.compact = .ok t') :
    t'.Valid ∧ t'.builder.rows = [] ∧ t'.pending.Perm (t.pending ++ t.builder.rows) ∧
      t'.batchSize = t.batchSize ∧ t'.doneAdding = t.doneAdding := by
  obtain ⟨builder, hbuild, h⟩ := bind_eq_ok.mp h
  cases h
  have hperm := t.rng.perm t.draws builder.build.rows.length
  refine ⟨⟨ht.1, .inr ⟨_, _, rfl, rfl, ?_⟩⟩, rfl, ?_, rfl, rfl⟩
  · intro i hi
    exact List.mem_range.mp (hperm.mem_iff.mp hi)
  · have hpick := hperm.filterMap (fun i => builder.build.rows[i]?)
    apply hpick.trans
    apply (List.Perm.of_eq (rowsAt_range builder.build.rows)).trans
    exact addRemaining_rows ht hbuild

theorem compactIfNeeded_spec (ht : t.Valid) (h : t.compactIfNeeded = .ok t') :
    t'.Valid ∧ (t'.pending ++ t'.builder.rows).Perm (t.pending ++ t.builder.rows) ∧
      t'.batchSize = t.batchSize ∧ t'.doneAdding = t.doneAdding := by
  unfold compactIfNeeded at h
  split_ifs at h with hcompact
  · obtain ⟨hv, hb, hp, hrest⟩ := compact_spec ht h
    refine ⟨hv, ?_, hrest⟩
    rwa [hb, List.append_nil]
  · cases h
    exact ⟨ht, .rfl, rfl, rfl⟩

/-- A batch is the next part of the permutation. -/
theorem takeBatch_spec (ht : t.Valid) (hb : t.shuffleBuffer ≠ none) :
    ∃ b t', t.takeBatch = .ok (b, t') ∧ t'.Valid ∧ b.rows ++ t'.pending = t.pending ∧
      b.rows.length = min t.batchSize t.pending.length ∧ t'.builder = t.builder ∧
      t'.batchSize = t.batchSize ∧ t'.doneAdding = t.doneAdding ∧
      t'.shuffleBuffer = t.shuffleBuffer := by
  obtain ⟨hmin, hnone | ⟨buffer, indices, hbuf, hi, hlt⟩⟩ := ht
  · exact absurd hnone hb
  · obtain ⟨size, rng, draws, yield, trigger, builder, shuffleBuffer, shuffledIndices, head, done⟩ := t
    cases hbuf
    cases hi
    have hlt' : ∀ i ∈ indices.drop head, i < buffer.rows.length :=
      fun i hi => hlt i (List.mem_of_mem_drop hi)
    have hlt'' : ∀ i ∈ (indices.drop head).take (min size (indices.length - head)),
        i < buffer.rows.length := fun i hi => hlt' i (List.mem_of_mem_take hi)
    simp only [takeBatch, take_eq hlt'', ok_bind]
    refine ⟨_, _, rfl, ⟨hmin, .inr ⟨buffer, indices, rfl, rfl, hlt⟩⟩, ?_, ?_, rfl, rfl, rfl, rfl⟩
    · show rowsAt buffer.rows _ ++ rowsAt buffer.rows _ = rowsAt buffer.rows _
      rw [rowsAt, rowsAt, ← List.filterMap_append, ← List.drop_drop, List.take_append_drop, rowsAt]
    · show (rowsAt buffer.rows _).length = min size (rowsAt buffer.rows (indices.drop head)).length
      rw [length_rowsAt hlt'', length_rowsAt hlt', List.length_take, List.length_drop]
      omega

/-- If there are rows at all, then there are some in the buffer after the compaction. -/
theorem pending_ne_nil (ht : t.Valid) (hany : t.hasAny = true)
    (h : t.compactIfNeeded = .ok t') : t'.pending ≠ [] := by
  have hpos : 0 < t.numRows := of_decide_eq_true hany
  unfold compactIfNeeded at h
  split_ifs at h with hcompact
  · obtain ⟨-, -, hperm, -⟩ := compact_spec ht h
    apply List.ne_nil_of_length_pos
    rwa [hperm.length_eq, ← numRows_eq ht]
  · cases h
    simp only [Bool.and_eq_true, Bool.or_eq_true, decide_eq_true_eq] at hcompact
    rw [numRows] at hpos
    apply List.ne_nil_of_length_pos
    rw [← numCompactedRows_eq ht]
    omega

theorem shuffleBuffer_ne_none (h : t.pending ≠ []) :
    t.shuffleBuffer ≠ none := by
  intro hnone
  apply h
  rw [pending, hnone]

/-- A batch is not empty, and together with what is left it is what there was. -/
theorem nextBatch_spec (ht : t.Valid) (hany : t.hasAny = true) (h : t.nextBatch = .ok (b, t')) :
    t'.Valid ∧ (b.rows ++ (t'.pending ++ t'.builder.rows)).Perm (t.pending ++ t.builder.rows) ∧
      min t.batchSize 1 ≤ b.rows.length ∧
      t'.batchSize = t.batchSize ∧ t'.doneAdding = t.doneAdding := by
  obtain ⟨-, -, h⟩ := bind_eq_ok.mp h
  obtain ⟨t₁, hcompact, h⟩ := bind_eq_ok.mp h
  obtain ⟨hv, hperm, hsize, hdone⟩ := compactIfNeeded_spec ht hcompact
  have hne := pending_ne_nil ht hany hcompact
  obtain ⟨b', t'', htake, hv', hsplit, hlen, hbuilder, hsize', hdone', -⟩ :=
    takeBatch_spec hv (shuffleBuffer_ne_none hne)
  rw [htake] at h
  cases h
  refine ⟨hv', ?_, ?_, hsize'.trans hsize, hdone'.trans hdone⟩
  · rwa [← List.append_assoc, hsplit, hbuilder]
  · have hpos := List.length_pos_iff.mpr hne
    omega

/-! ### Whole runs -/

variable {n : ℕ} {ops : List (BatcherOp α)} {t t' : ShufflingBatcher α} {out o : List (Block α)}

theorem hasAny_of_guard (hn : 1 ≤ n) (hsize : t.batchSize = n)
    (hguard : (t.hasBatch || (t.doneAdding && t.hasAny)) = true) : t.hasAny = true := by
  rw [Bool.or_eq_true, Bool.and_eq_true] at hguard
  obtain hbatch | ⟨-, hany⟩ := hguard
  · have hle : t.batchSize ≤ t.numRows := by
      rw [hasBatch] at hbatch
      split_ifs at hbatch
      · exact of_decide_eq_true hbatch
      · rw [Bool.and_eq_true] at hbatch
        exact of_decide_eq_true hbatch.1
    rw [hasAny, decide_eq_true_eq]
    omega
  · exact hany

/-- The returned batches, the buffer and the builder hold every added row once. -/
structure Inv (n : ℕ) (ops : List (BatcherOp α)) (t : ShufflingBatcher α) (out : List (Block α)) :
    Prop where
  valid : t.Valid
  size : t.batchSize = n
  done : t.doneAdding = isDone ops
  rows : (blockRows out ++ (t.pending ++ t.builder.rows)).Perm (blockRows (addedBlocks ops))

theorem inv_init (n : ℕ) (minSize : ℤ) (rng : Rng) :
    Inv n [] (init n minSize rng : ShufflingBatcher α) [] :=
  ⟨⟨le_max_left _ _, .inl rfl⟩, rfl, rfl, .rfl⟩

theorem Inv.add (h : Inv n ops t out) (hd : t.doneAdding = false) {block : Block α}
    (hadd : t.add block = .ok t') : Inv n (ops ++ [.add block]) t' out := by
  have hops : isDone ops = false := h.done.symm.trans hd
  have hspec : t'.Valid ∧ t'.batchSize = t.batchSize ∧ t'.doneAdding = t.doneAdding ∧
      t'.pending = t.pending ∧ t'.builder.rows = t.builder.rows ++ block.rows := by
    unfold ShufflingBatcher.add at hadd
    split_ifs at hadd with hpos
    · obtain ⟨builder, hbuilder, hadd⟩ := bind_eq_ok.mp hadd
      cases hadd
      exact ⟨h.valid, rfl, rfl, rfl, DelegatingBlockBuilder.rows_addBlock hbuilder⟩
    · cases hadd
      have hnil : block.rows = [] := List.length_eq_zero_iff.mp (by omega)
      exact ⟨h.valid, rfl, rfl, rfl, by rw [hnil, List.append_nil]⟩
  obtain ⟨hv, hsize, hdone', hpending, hbuilder⟩ := hspec
  refine ⟨hv, hsize.trans h.size, by rw [hdone', isDone_snoc_add, h.done], ?_⟩
  rw [addedBlocks_snoc_add hops, hpending, hbuilder, blockRows_append, blockRows_cons,
    blockRows_nil, List.append_nil, ← List.append_assoc, ← List.append_assoc,
    List.append_assoc (blockRows out)]
  exact h.rows.append_right block.rows

theorem Inv.nextBatch (hn : 1 ≤ n) (h : Inv n ops t out)
    (hguard : (t.hasBatch || (t.doneAdding && t.hasAny)) = true)
    (hb : t.nextBatch = .ok (b, t')) : Inv n (ops ++ [.nextBatch]) t' (out ++ [b]) := by
  obtain ⟨hv, hperm, -, hsize, hdone⟩ :=
    nextBatch_spec h.valid (hasAny_of_guard hn h.size hguard) hb
  refine ⟨hv, hsize.trans h.size, by rw [hdone, isDone_snoc_nextBatch, h.done], ?_⟩
  rw [addedBlocks_snoc_nextBatch, blockRows_append, blockRows_cons, blockRows_nil, List.append_nil,
    List.append_assoc]
  exact (hperm.append_left _).trans h.rows

theorem inv_step (hn : 1 ≤ n) {op : BatcherOp α} (h : Inv n ops t out)
    (hstep : t.step op = .ok (t', o)) : Inv n (ops ++ [op]) t' (out ++ o) := by
  have hskip : ∀ {op : BatcherOp α}, isDone (ops ++ [op]) = isDone ops →
      addedBlocks (ops ++ [op]) = addedBlocks ops → Inv n (ops ++ [op]) t (out ++ []) := by
    intro op hd ha
    rw [List.append_nil]
    exact ⟨h.valid, h.size, hd.symm ▸ h.done, ha.symm ▸ h.rows⟩
  cases op with
  | add block =>
    rw [step] at hstep
    split_ifs at hstep with hd
    · cases hstep
      have hops : isDone ops = true := h.done.symm.trans hd
      exact hskip (isDone_snoc_add ops block) (addedBlocks_of_isDone hops _)
    · obtain ⟨t₁, hadd, hstep⟩ := bind_eq_ok.mp hstep
      cases hstep
      rw [List.append_nil]
      exact h.add (Bool.eq_false_iff.mpr hd) hadd
  | nextBatch =>
    rw [step] at hstep
    split_ifs at hstep with hguard
    · obtain ⟨r, hr, hstep⟩ := bind_eq_ok.mp hstep
      cases hstep
      exact h.nextBatch hn hguard hr
    · cases hstep
      exact hskip (isDone_snoc_nextBatch ops) (addedBlocks_snoc_nextBatch ops)
  | doneAdding =>
    cases hstep
    rw [List.append_nil]
    refine ⟨h.valid, h.size, (isDone_snoc_doneAdding ops).symm, ?_⟩
    rw [addedBlocks_doneAdding]
    exact h.rows

/-- After `done_adding` a call of `next_batch` leaves fewer rows. -/
theorem step_drains (hn : 1 ≤ n) (hQ : t.Valid ∧ t.doneAdding = true ∧ t.batchSize = n)
    (hstep : t.step .nextBatch = .ok (t', o)) :
    (t'.Valid ∧ t'.doneAdding = true ∧ t'.batchSize = n) ∧ t'.numRows ≤ t.numRows - 1 := by
  obtain ⟨hv, hdone, hsize⟩ := hQ
  rw [step] at hstep
  split_ifs at hstep with hguard
  · obtain ⟨⟨b, t₁⟩, hr, hstep⟩ := bind_eq_ok.mp hstep
    cases hstep
    obtain ⟨hv', hperm, hlen, hsize', hdone'⟩ :=
      nextBatch_spec hv (hasAny_of_guard hn hsize hguard) hr
    refine ⟨⟨hv', hdone'.trans hdone, hsize'.trans hsize⟩, ?_⟩
    have hcount := hperm.length_eq
    rw [List.length_append, ← numRows_eq hv, ← numRows_eq hv'] at hcount
    show t₁.numRows ≤ _
    omega
  · cases hstep
    refine ⟨⟨hv, hdone, hsize⟩, ?_⟩
    have hle : ¬ 0 < t.numRows := by
      intro hpos
      apply hguard
      simp [hdone, hasAny, hpos]
    omega

/-- All blocks inside have the given format. -/
def HasFormat (fmt : BlockFormat) (t : ShufflingBatcher α) : Prop :=
  t.builder.HasFormat fmt ∧ ∀ b ∈ t.shuffleBuffer, b.format = fmt

variable {fmt : BlockFormat}

theorem compactIfNeeded_eq_ok (ht : t.Valid) (hf : t.HasFormat fmt) :
    ∃ t', t.compactIfNeeded = .ok t' ∧ t'.HasFormat fmt := by
  unfold compactIfNeeded
  split_ifs with hcompact
  · have hadd : ∃ builder, t.addRemaining = .ok builder ∧ builder.HasFormat fmt := by
      unfold addRemaining
      obtain ⟨-, hnone | ⟨buffer, indices, hb, hi, hlt⟩⟩ := ht
      · rw [hnone]
        exact ⟨_, rfl, hf.1⟩
      · rw [hb, hi]
        simp only
        split_ifs
        · rw [take_eq (fun i hi => hlt i (List.mem_of_mem_drop hi)), ok_bind]
          apply DelegatingBlockBuilder.addBlock_eq_ok hf.1
          exact fun _ => hf.2 buffer hb
        · exact ⟨_, rfl, hf.1⟩
    obtain ⟨builder, hadd, hbf⟩ := hadd
    have hne : builder.rows ≠ [] := by
      simp only [Bool.and_eq_true, decide_eq_true_eq, numUncompactedRows,
        DelegatingBlockBuilder.numRows_eq] at hcompact
      apply List.ne_nil_of_length_pos
      rw [(addRemaining_rows ht hadd).length_eq, List.length_append]
      omega
    rw [compact, hadd, ok_bind]
    refine ⟨_, rfl, DelegatingBlockBuilder.hasFormat_init fmt, ?_⟩
    intro b hb
    cases hb
    exact DelegatingBlockBuilder.build_format hbf hne
  · exact ⟨t, rfl, hf⟩

theorem step_eq_ok (hn : 1 ≤ n) (hv : t.Valid) (hsize : t.batchSize = n)
    (hf : t.HasFormat fmt) {op : BatcherOp α}
    (hop : t.doneAdding = false → ∀ block, op = .add block → block.format = fmt) :
    ∃ t' o, t.step op = .ok (t', o) ∧ t'.HasFormat fmt := by
  cases op with
  | add block =>
    rw [step]
    split_ifs with hd
    · exact ⟨t, [], rfl, hf⟩
    · have hblock := hop (Bool.eq_false_iff.mpr hd) block rfl
      unfold ShufflingBatcher.add
      split_ifs
      · obtain ⟨builder, hadd, hbf⟩ := DelegatingBlockBuilder.addBlock_eq_ok hf.1 (fun _ => hblock)
        rw [hadd]
        exact ⟨{ t with builder }, [], rfl, hbf, hf.2⟩
      · exact ⟨t, [], rfl, hf⟩
  | nextBatch =>
    rw [step]
    split_ifs with hguard
    · obtain ⟨t₁, hcompact, hf₁⟩ := compactIfNeeded_eq_ok hv hf
      have hne := pending_ne_nil hv (hasAny_of_guard hn hsize hguard) hcompact
      obtain ⟨b, t', htake, -, -, -, hbuilder, -, -, hbuffer⟩ :=
        takeBatch_spec (compactIfNeeded_spec hv hcompact).1 (shuffleBuffer_ne_none hne)
      refine ⟨t', [b], ?_, by rw [hbuilder]; exact hf₁.1, by rw [hbuffer]; exact hf₁.2⟩
      rw [nextBatch, hguard, pyAssert_true, ok_bind, hcompact, ok_bind, htake, ok_bind]
    · exact ⟨t, [], rfl, hf⟩
  | doneAdding => exact ⟨_, [], rfl, hf⟩

theorem run_eq_ok (minSize : ℤ) (rng : Rng) (hn : 1 ≤ n)
    (hfmt : ∀ b ∈ addedBlocks ops, b.format = fmt) :
    ∃ t out, runSteps step (init n minSize rng) ops = .ok (t, out) := by
  have hrun : ∃ t out, runSteps step (init n minSize rng) ops = .ok (t, out) ∧ Inv n ops t out ∧
      t.HasFormat fmt := by
    apply runSteps_ok (P := fun done t out => Inv n done t out ∧ t.HasFormat fmt)
    · exact ⟨inv_init n minSize rng, DelegatingBlockBuilder.hasFormat_init fmt, nofun⟩
    · rintro done op rest t out rfl ⟨hinv, hf⟩
      have hop : t.doneAdding = false → ∀ block, op = .add block → block.format = fmt := by
        rintro hd block rfl
        apply hfmt
        rw [addedBlocks_append, ← hinv.done, hd]
        simp [addedBlocks]
      obtain ⟨t', o, hstep, hf'⟩ := step_eq_ok hn hinv.valid hinv.size hf hop
      exact ⟨t', o, hstep, inv_step hn hinv hstep, hf'⟩
  obtain ⟨t, out, hrun, -⟩ := hrun
  exact ⟨t, out, hrun⟩

end ShufflingBatcher

/-- Every run of `ShufflingBatcher`: at every moment each added row is in a returned batch or still
inside, once; after the drain all are returned.  Blocks of one format can all be added and drained,
and no assert fails. -/
theorem shufflingBatcher_run {n : ℕ} (hn : 1 ≤ n) (minSize : ℤ) (rng : Rng)
    (ops : List (BatcherOp α)) :
    (∀ t out, runSteps ShufflingBatcher.step (.init n minSize rng) ops = .ok (t, out) →
      (blockRows out ++ (t.pending ++ t.builder.rows)).Perm (blockRows (addedBlocks ops)) ∧
        (t.hasAny = false → (blockRows out).Perm (blockRows (addedBlocks ops)))) ∧
    ∀ fmt, (∀ b ∈ addedBlocks ops, b.format = fmt) → ∀ k, (blockRows (addedBlocks ops)).length ≤ k →
      ∃ t out, runSteps ShufflingBatcher.step (.init n minSize rng)
        (ops ++ .doneAdding :: List.replicate k .nextBatch) = .ok (t, out) ∧ t.hasAny = false := by
  refine ⟨fun t out hrun => ?_, fun fmt hfmt k hk => ?_⟩
  · have hinv := runSteps_inv (ShufflingBatcher.inv_init n minSize rng)
      (fun _ _ _ _ _ _ => ShufflingBatcher.inv_step hn) hrun
    refine ⟨hinv.rows, fun hany => ?_⟩
    have hnil : t.pending ++ t.builder.rows = [] := by
      have hzero : ¬ 0 < t.numRows := of_decide_eq_false hany
      rw [ShufflingBatcher.numRows_eq hinv.valid] at hzero
      exact List.length_eq_zero_iff.mp (by omega)
    have hrows := hinv.rows
    rwa [hnil, List.append_nil] at hrows
  · rw [← addedBlocks_doneAdding ops (List.replicate k .nextBatch)] at hfmt
    obtain ⟨t, out, hrun⟩ := ShufflingBatcher.run_eq_ok minSize rng hn hfmt
    refine ⟨t, out, hrun, ?_⟩
    obtain ⟨t₁, o, o', hops, hdrain, -⟩ := runSteps_append_eq_ok.mp hrun
    have hinv := runSteps_inv (ShufflingBatcher.inv_init n minSize rng)
      (fun _ _ _ _ _ _ => ShufflingBatcher.inv_step hn) hops
    obtain ⟨t₂, o₁, o₂, hdone, hdrain, -⟩ := runSteps_cons_eq_ok.mp hdrain
    have hinv' := ShufflingBatcher.inv_step hn hinv hdone
    have hzero := runSteps_replicate (m := ShufflingBatcher.numRows)
      (fun _ _ _ => ShufflingBatcher.step_drains hn)
      ⟨hinv'.valid, hinv'.done.trans (isDone_snoc_doneAdding ops), hinv'.size⟩ hdrain
    have hlen := hinv'.rows.length_eq
    rw [List.length_append, ← ShufflingBatcher.numRows_eq hinv'.valid, addedBlocks_doneAdding] at hlen
    simp only [ShufflingBatcher.hasAny, decide_eq_false_iff_not]
    omega

theorem shufflingBatcher_run_reverse :
    ∃ t out, runSteps ShufflingBatcher.step
      (.init 2 1 ⟨fun _ n => (List.range n).reverse, fun _ _ => List.reverse_perm _⟩)
      ([.add ⟨.pandas, [1, 2, 3]⟩, .nextBatch, .add ⟨.pandas, [4, 5, 6]⟩, .nextBatch] ++
        .doneAdding :: List.replicate 6 .nextBatch) = .ok (t, out) ∧
      t.hasAny = false ∧ (blockRows out).Perm [1, 2, 3, 4, 5, 6] := by
  have hops := (shufflingBatcher_run (n := 2) (by decide) 1
    ⟨fun _ n => (List.range n).reverse, fun _ _ => List.reverse_perm _⟩
    ([.add ⟨.pandas, [1, 2, 3]⟩, .nextBatch, .add ⟨.pandas, [4, 5, 6]⟩, .nextBatch] :
      List (BatcherOp ℕ))).2
  obtain ⟨t, out, hrun, hany⟩ := hops .pandas (by decide) 6 (by decide)
  exact ⟨t, out, hrun, hany, ((shufflingBatcher_run (n := 2) (by decide) 1 _ _).1 t out hrun).2 hany⟩

end RayTfm.Data
