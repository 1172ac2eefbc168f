import RayTfm.Scripts.TokenizeSplits
import RayTfm.Tfm.VocabularySize

/-! # What the training data hold

The files of a tokenized split, read back: they hold every raw transaction of the split exactly
once, with the ids that it has by itself, beside transactions of its key in the order of time.  This
is so after every history of runs in which a run skips only what was written completely for its own
input (`tokenized_complete`). -/

namespace RayTfm.Scripts
open RayTfm.Tfm

variable {cudf : Cudf} {log : ℚ → ℚ}

/-- The row that a raw transaction is tokenized to. -/
def tokenizedRow (cudf : Cudf) (log : ℚ → ℚ) (r : RawTransaction) : TokenizedRow :=
  GPUTokenizer.rowOf log defaultHashSize (derived cudf r)

theorem call_perm {batches : List (List RawTransaction)} {batch : List RawTransaction}
    {r : List TokenizedRow × GPUTokenizer}
    (h : ((GPUTokenizer.init log defaultHashSize).afterBatches cudf log batches).call cudf log
      batch = .ok r) :
    r.1.Perm (batch.map (tokenizedRow cudf log)) := by
  obtain ⟨proc, hp, hrows⟩ := GPUTokenizer.call_afterBatches (by decide) h
  rw [hrows, map_preprocess hp (fun _ => rfl)]
  exact (gatheredRows_perm cudf batch).map _

theorem flatMap_fst_perm {input : Input} {parts : List (List TokenizedRow × GPUTokenizer)}
    (h : List.Forall₂ (fun batch r =>
      ((GPUTokenizer.init log defaultHashSize).afterBatches cudf log []).call cudf log batch =
        .ok r) input parts) :
    (parts.flatMap Prod.fst).Perm (input.flatten.map (tokenizedRow cudf log)) := by
  induction h with
  | nil => exact .refl _
  | cons hcall _ ih =>
    rw [List.flatMap_cons, List.flatten_cons, List.map_append]
    exact (call_perm hcall).append ih

/-- A row has twelve ids, none of them special. -/
theorem tokenIds_tokenizedRow (cudf : Cudf) (log : ℚ → ℚ) (r : RawTransaction) :
    (tokenizedRow cudf log r).tokenIds.length = 12 ∧
    ∀ i ∈ (tokenizedRow cudf log r).tokenIds, 5 ≤ i := by
  refine ⟨List.length_map _, fun i hi => ?_⟩
  change i ∈ fieldIds log defaultHashSize _ at hi
  rw [GPUTokenizer.fieldIds_eq] at hi
  obtain ⟨e, he, rfl⟩ := List.mem_map.mp hi
  exact (GPUTokenizer.isTokenId_cell (by decide) (derived cudf r) he).2.1

/-! ### Training data -/

/-- The sequence of a chunk of rows. -/
def sequenceOf (ch : List TokenizedRow) : Sequence :=
  padTo seqLength (chunkIds (ch.map TokenizedRow.tokenIds))

/-- Rows of one key in the order of time, which are read back from their sequence. -/
structure ReadBack (ch : List TokenizedRow) : Prop where
  parse : parseSequence (sequenceOf ch) = some (ch.map TokenizedRow.tokenIds)
  key : ∀ x ∈ ch, ∀ y ∈ ch, x.ucKey = y.ucKey
  ts : ch.Pairwise (fun x y => x.ts ≤ y.ts)

/-- A chunk of tokenized rows fits and is read back. -/
theorem parseSequence_sequenceOf {ch : List TokenizedRow} (hne : ch ≠ [])
    (hlen : ch.length ≤ seqChunkSize)
    (h : ∀ x ∈ ch, ∃ r, tokenizedRow cudf log r = x) :
    parseSequence (sequenceOf ch) = some (ch.map TokenizedRow.tokenIds) := by
  have hne' : ch.map TokenizedRow.tokenIds ≠ [] := mt List.map_eq_nil_iff.mp hne
  have hrow : ∀ x ∈ ch, x.tokenIds.length = 12 ∧ ∀ i ∈ x.tokenIds, 5 ≤ i := by
    intro x hx
    obtain ⟨r, rfl⟩ := h x hx
    exact tokenIds_tokenizedRow cudf log r
  refine parseSequence_padTo hne' ?_ (List.forall_mem_map.mpr (fun x hx i hi => ?_))
  · rw [length_chunkIds hne' (List.forall_mem_map.mpr (fun x hx => (hrow x hx).1)), List.length_map]
    unfold seqLength seqChunkSize at *
    omega
  · have h5 := (hrow x hx).2 i hi
    unfold eosTokenId sepTokenId
    omega

/-- The sequences of a split are those of chunks that hold every transaction once. -/
theorem exists_chunks {input : Input} {seqs : List Sequence}
    (h : splitSequences cudf log input = .ok seqs) :
    ∃ chunked : List (List TokenizedRow), seqs = chunked.map sequenceOf ∧
      chunked.flatten.Perm (input.flatten.map (tokenizedRow cudf log)) ∧
      ∀ ch ∈ chunked, ReadBack ch := by
  obtain ⟨parts, hparts, hseqs⟩ := bind_eq_ok.mp h
  obtain ⟨_, hgroups, hseqs⟩ := bind_eq_ok.mp hseqs
  have hc : 0 < seqChunkSize := by decide
  rw [mapM_eq_ok (fun g _ => buildSequences_eq g seqLength hc)] at hgroups
  cases hgroups
  cases hseqs
  have hrows := flatMap_fst_perm (mapM_eq_ok_iff.mp hparts)
  let rows := parts.flatMap Prod.fst
  have hsort := fun g : List TokenizedRow => isStableSort_sortBy TokenizedRow.ts g
  refine ⟨(groups TokenizedRow.ucKey rows).flatMap
    (fun g => chunks seqChunkSize (sortBy TokenizedRow.ts g)), ?_,
    .trans ?_ hrows, fun ch hch => ?_⟩
  · simp only [chunks_map, List.map_map, List.map_flatMap]
    rfl
  · rw [List.flatten_eq_flatMap, List.flatMap_assoc]
    simp only [← List.flatten_eq_flatMap, flatten_chunks hc]
    refine .trans (.flatMap_left _ (fun g _ => (hsort g).perm)) ?_
    unfold groups
    rw [List.flatMap_map]
    exact flatMap_filter_perm (nodup_distinct _) (fun x hx => mem_distinct.mpr (List.mem_map_of_mem hx))
  · obtain ⟨g, hg, hch⟩ := List.mem_flatMap.mp hch
    obtain ⟨hne, hlen, hsub⟩ := mem_chunks hc hch
    have hmem : ∀ x ∈ ch, x ∈ g := fun x hx => (hsort g).perm.mem_iff.mp (hsub x hx)
    have hrow : ∀ x ∈ ch, ∃ r, tokenizedRow cudf log r = x := by
      intro x hx
      obtain ⟨r, -, hr⟩ :=
        List.mem_map.mp (hrows.mem_iff.mp ((sublist_of_mem_groups hg).subset (hmem x hx)))
      exact ⟨r, hr⟩
    refine ⟨parseSequence_sequenceOf hne hlen hrow, fun x hx y hy =>
      (mem_groups hg x (hmem x hx) y (hmem y hy)).2.2, ?_⟩
    have hsorted := (hsort g).sorted
    rw [← flatten_chunks hc (sortBy TokenizedRow.ts g)] at hsorted
    exact (List.pairwise_flatten.mp hsorted).1 ch hch

/-- In every history of runs, killed wherever it may be: what a call that returns has left, if it
finds nothing that a killed run or a run on another input has left, is read back to every raw
transaction of its input exactly once. -/
theorem tokenized_complete (cudf : Cudf) (log : ℚ → ℚ) (runs : List RunArgs) :
    ∀ c ∈ history cudf log runs, c.SkipOk → ∀ n, c.outcome = .returned n →
      ∃ files, ∃ chunked : List (List TokenizedRow), c.after.out c.split = some files ∧
        files.flatMap (fun f => f.rows.getD []) = chunked.map sequenceOf ∧
        (∀ ch ∈ chunked, ReadBack ch) ∧
        chunked.flatten.Perm ((c.args.input c.split).flatten.map (tokenizedRow cudf log)) := by
  intro c hc hok n hn
  obtain ⟨files, hout, seqs, hseqs, -, hperm⟩ :=
    historyFrom_spec (fun _ _ he => by cases he) c hc hok n hn
  obtain ⟨chunked, rfl, hrows, hread⟩ := exists_chunks hseqs
  obtain ⟨chunked', hchunked, hfiles⟩ := exists_perm_of_perm_map hperm
  exact ⟨files, chunked', hout, hfiles, fun ch hch => hread ch (hchunked.mem_iff.mp hch),
    hchunked.flatten.trans hrows⟩

/-- The second of two runs on two cards, which skips. -/
theorem tokenized_complete_second_run :
    ∃ c ∈ history exampleCudf id [plainRun twoCards none, plainRun twoCards none],
      ∃ files, ∃ chunked : List (List TokenizedRow), c.after.out c.split = some files ∧
      files.flatMap (fun f => f.rows.getD []) = chunked.map sequenceOf ∧
        chunked.flatten.Perm ((c.args.input c.split).flatten.map (tokenizedRow exampleCudf id)) := by
  obtain ⟨a, b, seqs, hseqs⟩ := exists_splitSequences_twoCards
  obtain ⟨-, hok, n, hn⟩ := second_run hseqs (List.cons_ne_nil a _)
  have hmem := mem_history_second exampleCudf id (plainRun twoCards none) (plainRun twoCards none)
  obtain ⟨files, chunked, hout, hfiles, -, hperm⟩ := tokenized_complete exampleCudf id _ _ hmem hok n hn
  exact ⟨_, hmem, files, chunked, hout, hfiles, hperm⟩

end RayTfm.Scripts
