import RayTfm.Data.OutputBuffer

/-! # Streaming repartition

The iterator of `map_transformer.py` that shapes the output of a task, the task of a streaming
repartition, and the whole stream: `RebundleQueue` with `ExactMultipleSize` in front, one task per
ready bundle.  Two splitters have to agree so that no short block comes out in the middle of the
stream. -/

namespace RayTfm.Data

variable {ρ α : Type}

/-! ### The shaping iterator -/

/-- `_BlockShapingIterator` over blocks; `results` are the blocks not yet fetched. -/
structure BlockShapingIterator (α : Type) where
  results : List (Block α)
  buffer : BlockOutputBuffer α
  finalized : Bool

namespace BlockShapingIterator

def init (option : Option OutputBlockSizeOption) (results : List (Block α)) :
    BlockShapingIterator α :=
  ⟨results, .init option, false⟩

section rounds
variable (sizeBytes : Block α → ℕ)

/-- One round of the loop in `__next__`: the blocks it returns, or `none` for the end. -/
def round (it : BlockShapingIterator α) :
    Except PyError (Option (List (Block α) × BlockShapingIterator α)) :=
  if it.buffer.hasNext then do
    let r ← it.buffer.next sizeBytes
    .ok (some ([r.1], { it with buffer := r.2 }))
  else if it.finalized then .ok none
  else
    match it.results with
    | result :: results => do
        let buffer ← it.buffer.addBlock sizeBytes result
        .ok (some ([], { it with results, buffer }))
    | [] => do
        let buffer ← it.buffer.finalize
        .ok (some ([], { it with buffer, finalized := true }))

/-- All blocks of the iterator; `none` if it takes more rounds. -/
def collect : ℕ → BlockShapingIterator α → Except PyError (Option (List (Block α)))
  | 0, _ => .ok none
  | rounds + 1, it => do
      let r ← it.round sizeBytes
      match r with
      | none => .ok (some [])
      | some (out, it) => do
          let rest ← collect rounds it
          .ok (rest.map (out ++ ·))

end rounds

/-- The rows come out in blocks of exactly `t`, then one more block with at most `t`; that one is
empty only if it is the only one. -/
def Shaped (t : ℕ) (rows : List α) (out : List (Block α)) : Prop :=
  ∃ full last, out = full ++ [last] ∧ (∀ b ∈ full, b.rows.length = t) ∧ last.rows.length ≤ t ∧
    (last.rows = [] → full = []) ∧ blockRows out = rows

variable {t : ℕ} {rows : List α} {out : List (Block α)}

theorem Shaped.blockRows_eq (h : Shaped t rows out) :
    blockRows out = rows := by
  obtain ⟨full, last, -, -, -, -, hrows⟩ := h
  exact hrows

theorem length_blockRows {blocks : List (Block α)} (h : ∀ b ∈ blocks, b.rows.length = t) :
    (blockRows blocks).length = blocks.length * t := by
  induction blocks with
  | nil => simp
  | cons b blocks ih =>
    rw [blockRows_cons, List.length_append, h b List.mem_cons_self,
      ih (fun b' hb' => h b' (.tail _ hb')), List.length_cons]
    ring

theorem Shaped.of_dvd (h : Shaped t rows out)
    (hpos : 0 < rows.length) (hdvd : t ∣ rows.length) : ∀ b ∈ out, b.rows.length = t := by
  obtain ⟨full, last, rfl, hfull, hle, hempty, hrows⟩ := h
  have hlen := congrArg List.length hrows
  rw [blockRows_append, List.length_append, length_blockRows hfull, blockRows_cons, blockRows_nil,
    List.append_nil] at hlen
  have hlast : 0 < last.rows.length := by
    by_contra hnot
    have hnil : last.rows = [] := List.length_eq_zero_iff.mp (by omega)
    rw [hempty hnil, hnil] at hlen
    simp only [List.length_nil, Nat.zero_mul] at hlen
    omega
  have hdvd' : t ∣ last.rows.length := by
    rw [← hlen] at hdvd
    exact (Nat.dvd_add_right (Dvd.intro_left _ rfl)).mp hdvd
  have heq : last.rows.length = t := le_antisymm hle (Nat.le_of_dvd hlast hdvd')
  intro b hb
  obtain hb | hb := List.mem_append.mp hb
  · exact hfull b hb
  · rw [List.mem_singleton.mp hb]
    exact heq

/-- At most `t` rows make one block. -/
theorem Shaped.of_le (h : Shaped t rows out)
    (hle : rows.length ≤ t) : ∃ b, out = [b] ∧ b.rows = rows := by
  obtain ⟨full, last, rfl, hfull, -, hempty, hrows⟩ := h
  have hnil : full = [] := by
    by_contra hne
    have hlast : last.rows ≠ [] := fun hnil => hne (hempty hnil)
    have hlen := congrArg List.length hrows
    rw [blockRows_append, List.length_append, length_blockRows hfull, blockRows_cons, blockRows_nil,
      List.append_nil] at hlen
    have hpos := List.length_pos_iff.mpr hlast
    have hmul : t ≤ full.length * t := Nat.le_mul_of_pos_left t (List.length_pos_iff.mpr hne)
    omega
  subst hnil
  exact ⟨last, rfl, by simpa using hrows⟩

/-- While rows are still to come all blocks have exactly `t` rows, and the buffer is not empty after
the first one; the last block takes what is left. -/
structure Inv (t : ℕ) (fmt : BlockFormat) (all : List α) (it : BlockShapingIterator α)
    (out : List (Block α)) : Prop where
  option : it.buffer.outputBlockSizeOption = some (.ofRows t)
  finalized : it.buffer.finalized = it.finalized
  format : it.buffer.buffer.HasFormat fmt
  formats : ∀ b ∈ it.results, b.rows ≠ [] → b.format = fmt
  results : it.finalized = true → it.results = []
  rows : blockRows out ++ it.buffer.buffer.rows ++ blockRows it.results = all
  yielded : it.buffer.hasYieldedBlocks = true ↔ out ≠ []
  shape : ((∀ b ∈ out, b.rows.length = t) ∧ (out ≠ [] → it.buffer.buffer.rows ≠ [])) ∨
    (Shaped t all out ∧ it.finalized = true ∧ it.buffer.buffer.rows = [])

variable {results : List (Block α)}

theorem inv_init {fmt : BlockFormat} (hfmt : ∀ b ∈ results, b.rows ≠ [] → b.format = fmt) :
    Inv t fmt (blockRows results) (init (some (.ofRows t)) results) [] where
  option := rfl
  finalized := rfl
  format := DelegatingBlockBuilder.hasFormat_init fmt
  formats := hfmt
  results := nofun
  rows := rfl
  yielded := by simp [init, BlockOutputBuffer.init]
  shape := .inl ⟨by simp, by simp⟩

/-- The rounds that are left, or more. -/
def remaining (it : BlockShapingIterator α) : ℕ :=
  it.buffer.remaining + (blockRows it.results).length + it.results.length +
    if it.finalized then 0 else 1

variable {sizeBytes : Block α → ℕ} {t : ℕ} {fmt : BlockFormat} {all : List α}
  {it : BlockShapingIterator α} {out : List (Block α)}

variable (sizeBytes) in
theorem Inv.round_next (ht : 1 ≤ t) (h : Inv t fmt all it out) (hnext : it.buffer.hasNext = true) :
    ∃ o it', it.round sizeBytes = .ok (some (o, it')) ∧ Inv t fmt all it' (out ++ o) ∧
      it'.remaining < it.remaining := by
  obtain ⟨b, buffer, hq, hsplit, hyield, hfin, hopt, hformat, hfull, hall⟩ :=
    BlockOutputBuffer.next_ofRows sizeBytes ht h.option hnext
  have hdrain := BlockOutputBuffer.next_drains
    (by rw [h.option]; exact BlockOutputBuffer.usable_ofRows ht) hnext hq
  have hpos := BlockOutputBuffer.remaining_pos hnext
  have hrows : blockRows (out ++ [b]) ++ buffer.buffer.rows ++ blockRows it.results = all := by
    rw [blockRows_append, blockRows_cons, blockRows_nil, List.append_nil,
      List.append_assoc _ b.rows, hsplit, h.rows]
  -- a buffer that has a next block is not one that gave its last
  have hfront : (∀ b ∈ out, b.rows.length = t) ∧ (out ≠ [] → it.buffer.buffer.rows ≠ []) := by
    obtain hfront | ⟨⟨full, last, rfl, -⟩, hdone, hnil⟩ := h.shape
    · exact hfront
    · rw [BlockOutputBuffer.hasNext_of_rows_nil hnil, h.yielded.mpr (by simp)] at hnext
      simp at hnext
  refine ⟨[b], { it with buffer }, ?_, ⟨hopt, hfin.trans h.finalized, hformat fmt h.format, h.formats,
    h.results, hrows, by simp [hyield], ?_⟩, ?_⟩
  · rw [round, if_pos hnext, hq]
    rfl
  · have hlen := congrArg List.length hsplit
    rw [List.length_append] at hlen
    by_cases hlt : t < it.buffer.buffer.rows.length
    · have hb := hfull hlt
      refine .inl ⟨fun b' hb' => ?_, fun _ => ?_⟩
      · obtain hb' | hb' := List.mem_append.mp hb'
        · exact hfront.1 b' hb'
        · rw [List.mem_singleton.mp hb', hb]
      · exact List.ne_nil_of_length_pos (by show 0 < buffer.buffer.rows.length; omega)
    · have hnil := hall (by omega)
      have hdone : it.finalized = true := by
        rw [BlockOutputBuffer.hasNext_ofRows h.option, h.finalized] at hnext
        by_contra hnot
        rw [if_neg hnot] at hnext
        exact hlt (of_decide_eq_true hnext)
      rw [hnil, h.results hdone, blockRows_nil, List.append_nil, List.append_nil] at hrows
      rw [hnil, List.append_nil] at hsplit
      refine .inr ⟨⟨out, b, rfl, hfront.1, ?_, fun hb => ?_, hrows⟩, hdone, hnil⟩
      · rw [hsplit]
        omega
      · by_contra hne
        exact hfront.2 hne (hsplit ▸ hb)
  · show buffer.remaining + (blockRows it.results).length + it.results.length +
      (if it.finalized then 0 else 1) < it.remaining
    unfold remaining
    omega

variable (sizeBytes) in
theorem Inv.round (ht : 1 ≤ t) (h : Inv t fmt all it out) :
    (it.round sizeBytes = .ok none ∧ Shaped t all out) ∨
      ∃ o it', it.round sizeBytes = .ok (some (o, it')) ∧ Inv t fmt all it' (out ++ o) ∧
        it'.remaining < it.remaining := by
  by_cases hnext : it.buffer.hasNext = true
  · exact .inr (h.round_next sizeBytes ht hnext)
  · rw [BlockShapingIterator.round, if_neg hnext]
    by_cases hdone : it.finalized = true
    · refine .inl ⟨by rw [if_pos hdone], ?_⟩
      rw [BlockOutputBuffer.hasNext_ofRows h.option, h.finalized, if_pos hdone, Bool.not_eq_true,
        Bool.or_eq_false_iff, Bool.not_eq_false'] at hnext
      have hnil : it.buffer.buffer.rows = [] :=
        List.length_eq_zero_iff.mp (Nat.eq_zero_of_not_pos (of_decide_eq_false hnext.2))
      obtain ⟨-, hne⟩ | ⟨hshaped, -⟩ := h.shape
      · exact absurd hnil (hne (h.yielded.mp hnext.1))
      · exact hshaped
    · right
      rw [if_neg hdone]
      have hopen : it.buffer.finalized = false := h.finalized.trans (Bool.eq_false_iff.mpr hdone)
      have hfront : (∀ b ∈ out, b.rows.length = t) ∧ (out ≠ [] → it.buffer.buffer.rows ≠ []) := by
        obtain hfront | ⟨-, hdone', -⟩ := h.shape
        · exact hfront
        · exact absurd hdone' hdone
      cases hr : it.results with
      | cons result results =>
        have hformats := h.formats
        have hrows := h.rows
        rw [hr] at hformats hrows
        obtain ⟨buffer, hadd, hformat, hbuffer, hfin, hyield, hopt⟩ :=
          BlockOutputBuffer.addBlock_spec sizeBytes hopen h.format (hformats result (.head _))
        refine ⟨[], { it with results, buffer }, by simp only [hadd, ok_bind],
          ⟨hopt.trans h.option, by rw [hfin, ← hopen, h.finalized], hformat,
            fun b hb => hformats b (.tail _ hb), fun hd => absurd hd hdone, ?_,
            by rw [hyield, List.append_nil]; exact h.yielded, ?_⟩, ?_⟩
        · rw [List.append_nil, hbuffer, ← hrows, blockRows_cons]
          simp only [List.append_assoc]
        · rw [List.append_nil, hbuffer]
          exact .inl ⟨hfront.1, fun hne => List.append_ne_nil_of_left_ne_nil (hfront.2 hne) _⟩
        · unfold remaining BlockOutputBuffer.remaining
          simp only [hr, hyield, hbuffer, blockRows_cons, List.length_append, List.length_cons]
          omega
      | nil =>
        have hrows := h.rows
        rw [hr] at hrows
        rw [BlockOutputBuffer.finalize_eq hopen]
        refine ⟨[], _, rfl, ⟨h.option, rfl, h.format, by simp, fun _ => rfl, ?_, ?_, ?_⟩, ?_⟩
        · rw [List.append_nil]
          exact hrows
        · rw [List.append_nil]
          exact h.yielded
        · rw [List.append_nil]
          exact .inl hfront
        · unfold remaining BlockOutputBuffer.remaining
          simp only [hr, if_neg hdone, if_true]
          omega

variable (sizeBytes) in
theorem Inv.collect (ht : 1 ≤ t) {rounds : ℕ} : ∀ {it : BlockShapingIterator α} {out : List (Block α)},
    Inv t fmt all it out → it.remaining < rounds →
      ∃ o, it.collect sizeBytes rounds = .ok (some o) ∧ Shaped t all (out ++ o) := by
  induction rounds with
  | zero =>
    intro it out h hlt
    omega
  | succ rounds ih =>
    intro it out h hlt
    rw [BlockShapingIterator.collect]
    obtain ⟨hend, hshaped⟩ | ⟨o, it', hround, hinv, hless⟩ := h.round sizeBytes ht
    · rw [hend]
      exact ⟨[], rfl, by rwa [List.append_nil]⟩
    · obtain ⟨o', hcollect, hshaped⟩ := ih hinv (by omega)
      rw [hround, ok_bind]
      simp only [hcollect, ok_bind]
      exact ⟨o ++ o', rfl, by rwa [List.append_assoc] at hshaped⟩

theorem collect_mono {rounds : ℕ} : ∀ {it : BlockShapingIterator α} {o : List (Block α)},
    it.collect sizeBytes rounds = .ok (some o) → it.collect sizeBytes (rounds + 1) = .ok (some o) := by
  induction rounds with
  | zero =>
    intro it o h
    cases h
  | succ rounds ih =>
    intro it o h
    rw [BlockShapingIterator.collect] at h ⊢
    obtain ⟨r, hr, h⟩ := bind_eq_ok.mp h
    rw [hr, ok_bind]
    cases r with
    | none => exact h
    | some r =>
      obtain ⟨rest, hrest, h⟩ := bind_eq_ok.mp h
      cases rest with
      | none => cases h
      | some rest =>
        simp only [ih hrest, ok_bind]
        exact h

/-- All blocks of the iterator over blocks of one format. -/
theorem collect_spec (sizeBytes : Block α → ℕ) (ht : 1 ≤ t)
    (hfmt : ∀ b ∈ results, b.rows ≠ [] → b.format = fmt) :
    ∃ o N, Shaped t (blockRows results) o ∧ ∀ rounds, N ≤ rounds →
      (init (some (.ofRows t)) results).collect sizeBytes rounds = .ok (some o) := by
  have hinv := inv_init (t := t) hfmt
  obtain ⟨o, hcollect, hshaped⟩ := hinv.collect sizeBytes ht (Nat.lt_succ_self _)
  refine ⟨o, (init (some (.ofRows t)) results).remaining + 1, hshaped, fun rounds hle => ?_⟩
  induction rounds, hle using Nat.le_induction with
  | base => exact hcollect
  | succ rounds _ ih => exact collect_mono ih

end BlockShapingIterator

/-! ### The tasks -/

section tasks
variable (sizeBytes : Block α → ℕ) (fetch : ρ → Block α)

/-- One block of `_iter_sliced_blocks`; `none` is the full block. -/
def slicedBlock (e : SlicedEntry ρ) : Except PyError (Block α) :=
  match e.2 with
  | none => .ok (fetch e.1.ref)
  | some s => do
      pyAssert (s.startOffset ≤ s.endOffset)
      pyAssert (s.endOffset ≤ (fetch e.1.ref).rows.length)
      (fetch e.1.ref).slice s.startOffset (some (s.endOffset : ℤ))

def iterSlicedBlocks (bundle : RefBundle ρ) : Except PyError (List (Block α)) :=
  bundle.blocks.mapM (slicedBlock fetch)

/-- `_map_task` for a streaming repartition: the blocks as they are, shaped by their number of
rows. -/
def repartitionTask (t rounds : ℕ) (bundle : RefBundle ρ) :
    Except PyError (Option (List (Block α))) := do
  let blocks ← iterSlicedBlocks fetch bundle
  (BlockShapingIterator.init (some (.ofRows t)) blocks).collect sizeBytes rounds

/-- The whole stream: the run of the queue, `finalize`, and a task for every ready bundle. -/
def streamingRepartition (t rounds : ℕ) (ops : List (BundleOp ρ)) :
    Except PyError (Option (List (Block α))) := do
  let r ← runSteps RebundleQueue.step (.init (.exactMultipleSize t)) ops
  let q ← r.1.finalize
  let outs ← (r.2 ++ q.readyBundles).mapM (repartitionTask sizeBytes fetch t rounds)
  .ok ((outs.mapM id).map List.flatten)

/-- The rows behind a reference. -/
def fetchRows (r : ρ) : List α := (fetch r).rows

/-- The format behind a reference, once for each row. -/
def fetchFormats (r : ρ) : List BlockFormat := (fetch r).rows.map (fun _ => (fetch r).format)

end tasks

section stream
variable {sizeBytes : Block α → ℕ} {fetch : ρ → Block α} {t : ℕ} {fmt : BlockFormat}
variable {e : SlicedEntry ρ}

theorem RefBundle.EntryCounted.formats (h : EntryCounted (fetchRows fetch) e) :
    EntryCounted (fetchFormats fetch) e where
  known := h.known
  count := by
    intro n hn
    rw [h.count n hn, fetchFormats, List.length_map, fetchRows]
  inside := by
    intro s hs
    rw [fetchFormats, List.length_map]
    exact h.inside s hs

theorem eq_format_of_mem {x : BlockFormat}
    (hx : x ∈ RefBundle.entryContent (fetchFormats fetch) e) :
    x = (fetch e.1.ref).format ∧ (fetch e.1.ref).rows ≠ [] := by
  have hmem : x ∈ fetchFormats fetch e.1.ref := by
    unfold RefBundle.entryContent at hx
    cases hs : e.2 with
    | none => rwa [hs] at hx
    | some s =>
      rw [hs] at hx
      exact List.mem_of_mem_take (List.mem_of_mem_drop hx)
  obtain ⟨a, ha, rfl⟩ := List.mem_map.mp hmem
  exact ⟨rfl, List.ne_nil_of_mem ha⟩

/-- A block of a task has the rows of its entry, and if it has any, its format stands in the
bundle. -/
theorem slicedBlock_spec (h : RefBundle.EntryCounted (fetchRows fetch) e)
    (hfmt : ∀ x ∈ RefBundle.entryContent (fetchFormats fetch) e, x = fmt) :
    ∃ block, slicedBlock fetch e = .ok block ∧
      block.rows = RefBundle.entryContent (fetchRows fetch) e ∧
      (block.rows ≠ [] → block.format = fmt) := by
  have hformat : RefBundle.entryContent (fetchRows fetch) e ≠ [] → (fetch e.1.ref).format = fmt := by
    intro hne
    have hlen := h.entryRows_eq.symm.trans h.formats.entryRows_eq
    have hpos := List.length_pos_iff.mpr hne
    rw [Option.some.inj hlen] at hpos
    obtain ⟨x, hx⟩ := List.exists_mem_of_length_pos hpos
    rw [← (eq_format_of_mem hx).1]
    exact hfmt x hx
  obtain ⟨entry, s | s⟩ := e
  · exact ⟨fetch entry.ref, rfl, rfl, hformat⟩
  · obtain ⟨hle, hin⟩ := h.inside s rfl
    have hend : s.endOffset ≤ (fetch entry.ref).rows.length := hin
    have hslice := slice_eq (fetch entry.ref) hle hend
    refine ⟨{ fetch entry.ref with rows := segment (fetch entry.ref).rows s.startOffset s.endOffset }, ?_,
      rfl, hformat⟩
    simp only [slicedBlock, decide_eq_true hle, decide_eq_true hend, pyAssert_true, ok_bind, hslice]

theorem iterSlicedBlocks_spec {l : List (SlicedEntry ρ)}
    (h : ∀ e ∈ l, RefBundle.EntryCounted (fetchRows fetch) e)
    (hfmt : ∀ x ∈ RefBundle.content (fetchFormats fetch) l, x = fmt) :
    ∃ blocks, l.mapM (slicedBlock fetch) = .ok blocks ∧
      blockRows blocks = RefBundle.content (fetchRows fetch) l ∧
      ∀ b ∈ blocks, b.rows ≠ [] → b.format = fmt := by
  induction l with
  | nil => exact ⟨[], rfl, rfl, by simp⟩
  | cons e l ih =>
    rw [RefBundle.content_cons] at hfmt
    obtain ⟨block, hblock, hrows, hformat⟩ := slicedBlock_spec (h e (.head _))
      (fun x hx => hfmt x (List.mem_append_left _ hx))
    obtain ⟨blocks, hblocks, hrows', hformat'⟩ := ih (fun e' he' => h e' (.tail _ he'))
      (fun x hx => hfmt x (List.mem_append_right _ hx))
    refine ⟨block :: blocks, ?_, ?_, ?_⟩
    · rw [List.mapM_cons, hblock, ok_bind, hblocks]
      rfl
    · rw [blockRows_cons, hrows, hrows', RefBundle.content_cons]
    · intro b hb
      obtain rfl | hb := List.mem_cons.mp hb
      · exact hformat
      · exact hformat' b hb

variable (sizeBytes) in
theorem repartitionTask_spec (ht : 1 ≤ t) {bundle : RefBundle ρ} (h : bundle.Counted (fetchRows fetch))
    (hfmt : ∀ x ∈ bundle.rows (fetchFormats fetch), x = fmt) :
    ∃ o N, BlockShapingIterator.Shaped t (bundle.rows (fetchRows fetch)) o ∧ ∀ rounds, N ≤ rounds →
      repartitionTask sizeBytes fetch t rounds bundle = .ok (some o) := by
  obtain ⟨blocks, hblocks, hrows, hformat⟩ := iterSlicedBlocks_spec h hfmt
  obtain ⟨o, N, hshaped, hcollect⟩ := BlockShapingIterator.collect_spec sizeBytes ht hformat
  rw [hrows] at hshaped
  refine ⟨o, N, hshaped, fun rounds hle => ?_⟩
  rw [repartitionTask, iterSlicedBlocks, hblocks, ok_bind, hcollect rounds hle]

variable {bundles : List (RefBundle ρ)}

variable (sizeBytes) in
theorem repartitionTasks_spec (ht : 1 ≤ t) (h : ∀ b ∈ bundles, b.Counted (fetchRows fetch))
    (hfmt : ∀ b ∈ bundles, ∃ fmt, ∀ x ∈ b.rows (fetchFormats fetch), x = fmt) :
    ∃ outs N, List.Forall₂ (fun b o => BlockShapingIterator.Shaped t (b.rows (fetchRows fetch)) o)
      bundles outs ∧ ∀ rounds, N ≤ rounds →
        bundles.mapM (repartitionTask sizeBytes fetch t rounds) = .ok (outs.map some) := by
  induction bundles with
  | nil => exact ⟨[], 0, .nil, fun _ _ => rfl⟩
  | cons b bundles ih =>
    obtain ⟨fmt, hb⟩ := hfmt b (.head _)
    obtain ⟨o, N, hshaped, htask⟩ :=
      repartitionTask_spec sizeBytes ht (h b (.head _)) hb
    obtain ⟨outs, N', hall, htasks⟩ := ih (fun b' hb' => h b' (.tail _ hb'))
      (fun b' hb' => hfmt b' (.tail _ hb'))
    refine ⟨o :: outs, max N N', .cons hshaped hall, fun rounds hle => ?_⟩
    rw [List.mapM_cons, htask rounds (by omega), ok_bind, htasks rounds (by omega)]
    rfl

variable {outs : List (List (Block α))}

theorem flatten_full
    (h : List.Forall₂ (fun b o => BlockShapingIterator.Shaped t (b.rows (fetchRows fetch)) o)
      bundles outs)
    (hmultiple : ∀ b ∈ bundles, 0 < (b.rows (fetchRows fetch)).length ∧
      t ∣ (b.rows (fetchRows fetch)).length) : ∀ b ∈ outs.flatten, b.rows.length = t := by
  induction h with
  | nil => simp
  | cons hshaped _ ih =>
    obtain ⟨hpos, hdvd⟩ := hmultiple _ (.head _)
    rw [List.flatten_cons, List.forall_mem_append]
    exact ⟨hshaped.of_dvd hpos hdvd, ih (fun b hb => hmultiple b (.tail _ hb))⟩

theorem blockRows_flatten
    (h : List.Forall₂ (fun b o => BlockShapingIterator.Shaped t (b.rows (fetchRows fetch)) o)
      bundles outs) : blockRows outs.flatten = rowsOf (fetchRows fetch) bundles := by
  induction h with
  | nil => rfl
  | cons hshaped _ ih =>
    rw [List.flatten_cons, blockRows_append, hshaped.blockRows_eq, ih, ← rowsOf_singleton,
      ← rowsOf_append, List.singleton_append]

/-- At most one bundle, with at most the target rows, gives at most one block. -/
theorem flatten_rest
    (h : List.Forall₂ (fun b o => BlockShapingIterator.Shaped t (b.rows (fetchRows fetch)) o)
      bundles outs)
    (hone : bundles.length ≤ 1) (hle : (rowsOf (fetchRows fetch) bundles).length ≤ t) :
    outs.flatten.length = bundles.length ∧
      ∀ b ∈ outs.flatten, b.rows = rowsOf (fetchRows fetch) bundles := by
  cases h with
  | nil => simp
  | cons hshaped hrest =>
    cases hrest with
    | nil =>
      rw [rowsOf_singleton] at hle ⊢
      obtain ⟨b, rfl, hrows⟩ := hshaped.of_le hle
      simpa using hrows
    | cons _ _ =>
      simp only [List.length_cons] at hone
      omega

end stream

/-- The rows of every task have one format: those that become ready with a bundle, and those that
are left over. -/
def OneFormatTasks (fetch : ρ → Block α) (t : ℕ) (added : List (RefBundle ρ)) : Prop :=
  (∀ k < added.length, ∃ fmt, ∀ f ∈ segment (rowsOf (fetchFormats fetch) added)
    (RebundleQueue.readyEnd (fetchFormats fetch) t added k)
    (RebundleQueue.readyEnd (fetchFormats fetch) t added (k + 1)), f = fmt) ∧
  ∃ fmt, ∀ f ∈ (rowsOf (fetchFormats fetch) added).drop
    (RebundleQueue.readyEnd (fetchFormats fetch) t added added.length), f = fmt

end RayTfm.Data
