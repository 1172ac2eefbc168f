import RayTfm.Tfm.DistinctTokens
import RayTfm.Tfm.GpuTokenizer

/-! # The range of the ids

The blocks of a vocabulary lie between its first offset and its size, if the keys of every table
lie below the table's size.  Those of the month step reach one further, into the block of the card
step that follows it, so the ids of all fields still lie below the size of the vocabulary
(`mem_blockEntries_financial`).  Every id that `GPUTokenizer` emits is the id of a field token and
fits the embedding table of the model (`call_tokenIds`). -/

namespace RayTfm.Tfm

namespace TokenizerPipeline

theorem endOffset_append (n : ℕ) (l₁ l₂ : Tables) :
    endOffset n (l₁ ++ l₂) = endOffset (endOffset n l₁) l₂ := by
  induction l₁ generalizing n with
  | nil => rfl
  | cons e l₁ ih => exact ih _

theorem endOffset_eq (n : ℕ) (tables : Tables) :
    endOffset n tables = n + (tables.map (fun e => e.2.size)).sum := by
  induction tables generalizing n with
  | nil => rfl
  | cons e tables ih =>
    rw [endOffset, ih, List.map_cons, List.sum_cons]
    omega

/-- The keys of a table are natural numbers below its size plus `δ`. -/
def KeysBelow (δ : ℕ) (d : Dict ℤ String) : Prop :=
  ∀ e ∈ d.entries, 0 ≤ e.1 ∧ e.1 < d.size + δ

/-- Ids lie between the first offset and the last one plus `δ`. -/
theorem mem_blockEntries_bounds {δ : ℕ} (n : ℕ) (tables : Tables) (h : ∀ t ∈ tables, KeysBelow δ t.2) :
    ∀ e ∈ blockEntries n tables, (n : ℤ) ≤ e.2 ∧ e.2 < endOffset n tables + δ := by
  induction tables generalizing n with
  | nil => exact fun _ he => (List.not_mem_nil he).elim
  | cons t tables ih =>
    intro e he
    have hend := endOffset_eq (n + t.2.size) tables
    rw [endOffset]
    obtain he | he := List.mem_append.mp he
    · obtain ⟨x, hx, rfl⟩ := List.mem_map.mp he
      have hkey := h t (.head _) x hx
      omega
    · have hrest := ih (n + t.2.size) (fun t ht => h t (.tail _ ht)) e he
      omega

end TokenizerPipeline

open TokenizerPipeline (KeysBelow)

/-! ### The tables of the steps -/

theorem size_ofList {l : List (ℤ × String)} (hl : (l.map Prod.fst).Nodup) :
    (Dict.ofList l).size = l.length := by
  rw [Dict.size, Dict.entries_ofList hl]

theorem map_fst_graph (l : List ℤ) (f : ℤ → String) :
    (l.map (fun i => (i, f i))).map Prod.fst = l := by
  rw [List.map_map]
  exact List.map_id l

theorem size_graph {l : List ℤ} (hl : l.Nodup) (f : ℤ → String) :
    (Dict.ofList (l.map (fun i => (i, f i)))).size = l.length := by
  rw [size_ofList (by rwa [map_fst_graph]), List.length_map]

theorem keysBelow_graph {l : List ℤ} (hl : l.Nodup) (f : ℤ → String) {δ : ℕ}
    (h : ∀ i ∈ l, 0 ≤ i ∧ i < l.length + δ) :
    KeysBelow δ (Dict.ofList (l.map (fun i => (i, f i)))) := by
  intro e he
  have hmem := List.mem_map_of_mem (f := Prod.fst) (Dict.mem_of_mem_entries_ofList he)
  rw [map_fst_graph] at hmem
  rw [size_graph hl]
  exact h e.1 hmem

theorem table_fixedStep (prefixStr : String) (minVal maxVal : ℤ) (padWidth : ℕ) :
    (fixedStep prefixStr minVal maxVal padWidth).table =
      Dict.ofList ((intRange minVal (maxVal + 1)).map
        (fun i => (i, prefixStr ++ "_" ++ formatInt padWidth i))) := rfl

theorem size_fixedStep (prefixStr : String) (minVal maxVal : ℤ) (padWidth : ℕ) :
    (fixedStep prefixStr minVal maxVal padWidth).table.size = (maxVal + 1 - minVal).toNat := by
  rw [table_fixedStep, size_graph (intRange_nodup _ _), length_intRange]

theorem keysBelow_fixedStep (prefixStr : String) {minVal : ℤ} (maxVal : ℤ) (padWidth : ℕ) {δ : ℕ}
    (h0 : 0 ≤ minVal) (h1 : minVal ≤ δ) :
    KeysBelow δ (fixedStep prefixStr minVal maxVal padWidth).table := by
  rw [table_fixedStep]
  refine keysBelow_graph (intRange_nodup _ _) _ (fun i hi => ?_)
  rw [mem_intRange] at hi
  rw [length_intRange]
  omega

theorem table_hashStep (vocabLimit : ℤ) (specialToken : String) :
    (Tokenizer.categoricalHash (.init vocabLimit specialToken none)).table =
      Dict.ofList ((intRange 0 vocabLimit).map (fun i => (i, specialToken ++ "_" ++ toString i))) :=
  rfl

theorem size_hashStep (vocabLimit : ℤ) (specialToken : String) :
    (Tokenizer.categoricalHash (.init vocabLimit specialToken none)).table.size =
      vocabLimit.toNat := by
  rw [table_hashStep, size_graph (intRange_nodup _ _), length_intRange, sub_zero]

theorem keysBelow_hashStep (vocabLimit : ℤ) (specialToken : String) (δ : ℕ) :
    KeysBelow δ (Tokenizer.categoricalHash (.init vocabLimit specialToken none)).table := by
  rw [table_hashStep]
  refine keysBelow_graph (intRange_nodup _ _) _ (fun i hi => ?_)
  rw [mem_intRange] at hi
  rw [length_intRange]
  omega

theorem size_labelTable (t : MappingTokenizer) (labels : List String) :
    (Dict.ofList (t.labelTable labels)).size = labels.length := by
  rw [size_ofList (t.nodup_fst_labelTable labels), MappingTokenizer.labelTable, List.length_map,
    List.length_zipIdx]

theorem keysBelow_labelTable (t : MappingTokenizer) (labels : List String) (δ : ℕ) :
    KeysBelow δ (Dict.ofList (t.labelTable labels)) := by
  intro e he
  have hmem := List.mem_map_of_mem (f := Prod.fst) (Dict.mem_of_mem_entries_ofList he)
  rw [MappingTokenizer.map_fst_labelTable] at hmem
  obtain ⟨k, hk, hke⟩ := List.mem_map.mp hmem
  rw [List.mem_range] at hk
  rw [size_labelTable, ← hke]
  omega

theorem keysBelow_mapping (t : MappingTokenizer) (δ : ℕ) :
    KeysBelow δ (Tokenizer.mapping t).table := by
  have hdefault : t.labelTable [t.default] = [(0, t.prefixStr ++ "_" ++ t.default)] := rfl
  rw [Tokenizer.table_mapping]
  unfold MappingTokenizer.configTable
  split_ifs
  · exact keysBelow_labelTable t _ δ
  · exact keysBelow_labelTable t _ δ
  · rw [← hdefault]
    exact keysBelow_labelTable t _ δ

theorem keysBelow_financialSteps (log : ℚ → ℚ) (h : ℤ) :
    ∀ e ∈ financialSteps log h false 32, KeysBelow 1 e.2.table := by
  intro e he
  simp only [financialSteps, Bool.false_eq_true, if_false, List.append_nil, List.mem_cons,
    List.not_mem_nil, or_false] at he
  obtain rfl | rfl | rfl | rfl | rfl | rfl | rfl | rfl | rfl | rfl | rfl | rfl := he
  · exact keysBelow_fixedStep _ _ _ (by decide) (by decide)
  · exact keysBelow_hashStep _ _ _
  · exact keysBelow_mapping _ _
  · exact keysBelow_mapping _ _
  · exact keysBelow_fixedStep _ _ _ (by decide) (by decide)
  · exact keysBelow_fixedStep _ _ _ (by decide) (by decide)
  · exact keysBelow_fixedStep _ _ _ (by decide) (by decide)
  · exact keysBelow_fixedStep _ _ _ (by decide) (by decide)
  · exact keysBelow_mapping _ _
  · exact keysBelow_fixedStep _ _ _ (by decide) (by decide)
  · exact keysBelow_mapping _ _
  · exact keysBelow_fixedStep _ _ _ (by decide) (by decide)

theorem keysBelow_from_card (log : ℚ → ℚ) (h : ℤ) :
    ∀ e ∈ (financialSteps log h false 32).drop 7, KeysBelow 0 e.2.table := by
  intro e he
  change e ∈ [("card", fixedStep "CARD" 0 9 0),
    ("chip_upper", .mapping (.init "CHIP" (some chipMapping) none none "UNK" none)),
    ("zip3", fixedStep "ZIP3" 0 999 3),
    ("state_clean", .mapping (.init "STATE" none (some (allStates.map .str)) none "XX" none)),
    ("cust", fixedStep "CUST" 0 2999 0)] at he
  simp only [List.mem_cons, List.not_mem_nil, or_false] at he
  obtain rfl | rfl | rfl | rfl | rfl := he
  · exact keysBelow_fixedStep _ _ _ (by decide) (by decide)
  · exact keysBelow_mapping _ _
  · exact keysBelow_fixedStep _ _ _ (by decide) (by decide)
  · exact keysBelow_mapping _ _
  · exact keysBelow_fixedStep _ _ _ (by decide) (by decide)

theorem forall_tables {P : Dict ℤ String → Prop} {l : List (String × Tokenizer)}
    (h : ∀ e ∈ l, P e.2.table) : ∀ t ∈ l.map (fun e => (e.1, e.2.table)), P t.2 := by
  intro t ht
  obtain ⟨e, he, rfl⟩ := List.mem_map.mp ht
  exact h e he

/-- The ids of all field tokens lie above the special ids and below the size of the vocabulary. -/
theorem mem_blockEntries_financial {log : ℚ → ℚ} {h : ℤ} {n : ℕ} {e : String × ℤ}
    (he : e ∈ TokenizerPipeline.blockEntries n (financialTables log h false 32)) :
    (n : ℤ) ≤ e.2 ∧ e.2 < TokenizerPipeline.endOffset n (financialTables log h false 32) := by
  let first := ((financialSteps log h false 32).take 7).map (fun e => (e.1, e.2.table))
  let rest := ((financialSteps log h false 32).drop 7).map (fun e => (e.1, e.2.table))
  have hsplit : financialTables log h false 32 = first ++ rest := by
    rw [financialTables, ← List.map_append, List.take_append_drop]
  have hfirst := TokenizerPipeline.mem_blockEntries_bounds n first
    (forall_tables (fun e he => keysBelow_financialSteps log h e (List.mem_of_mem_take he)))
  have hrest := TokenizerPipeline.mem_blockEntries_bounds (TokenizerPipeline.endOffset n first)
    rest (forall_tables (keysBelow_from_card log h))
  have hn := TokenizerPipeline.endOffset_eq n first
  -- the card's block follows the month's
  have hcard : TokenizerPipeline.endOffset n first + 10 ≤
      TokenizerPipeline.endOffset (TokenizerPipeline.endOffset n first) rest := by
    have hblock : rest = ("card", (fixedStep "CARD" 0 9 0).table) :: rest.tail := rfl
    have hsize : (fixedStep "CARD" 0 9 0).table.size = 10 := size_fixedStep ..
    rw [hblock, TokenizerPipeline.endOffset, TokenizerPipeline.endOffset_eq _ rest.tail, hsize]
    omega
  rw [hsplit, TokenizerPipeline.blockEntries_append, List.mem_append] at he
  rw [hsplit, TokenizerPipeline.endOffset_append]
  obtain he | he := he
  · have := hfirst e he
    omega
  · have := hrest e he
    omega

/-! ### The size of the vocabulary -/

/-- `MODEL_CONFIG["vocab_size"]`, the number of rows of the embedding table. -/
def modelVocabSize : ℕ := 6251

theorem size_mapping (t : MappingTokenizer) :
    (Tokenizer.mapping t).table.size =
      if t.mode = .range then t.rangeLabels.length
      else if t.hasDirectMap then t.directLabels.length else 1 := by
  rw [Tokenizer.table_mapping]
  unfold MappingTokenizer.configTable
  split_ifs
  · exact size_labelTable _ _
  · exact size_labelTable _ _
  · rfl

variable {values : List Value} {stream : Option Stream}

/-- The labels of a list of values with distinct texts, the default among them, are these texts. -/
theorem length_directLabels_values {prefixStr default : String}
    (h : (values.map Value.text).Nodup) (hdefault : default ∈ values.map Value.text) :
    (MappingTokenizer.init prefixStr none (some values) none default stream).directLabels.length =
      values.length := by
  have hentries : ((values.map (fun v => (v, v.text))).map Prod.fst).Nodup := by
    rw [List.map_map]
    exact (List.map_id values).symm ▸ h.of_map
  have hvalues : (Dict.ofList (values.map (fun v => (v, v.text)))).values = values.map Value.text := by
    rw [Dict.values, Dict.entries_ofList hentries, List.map_map]
    rfl
  have hnodup := (MappingTokenizer.init prefixStr none
    (some values) none default stream).nodup_directLabels
  have hperm := (List.perm_ext_iff_of_nodup hnodup h).mpr (fun l => by
    rw [MappingTokenizer.directLabels, Dict.mem_fromkeys, List.mem_append, List.mem_singleton,
      sortedStr, List.mem_insertionSort, List.mem_dedup]
    show l ∈ (Dict.ofList (values.map (fun v => (v, v.text)))).values ∨ l = default ↔ _
    rw [hvalues]
    exact ⟨fun hl => hl.elim id (fun hl => hl ▸ hdefault), .inl⟩)
  rw [hperm.length_eq, List.length_map]

theorem size_values {prefixStr default : String}
    (h : (values.map Value.text).Nodup) (hdefault : default ∈ values.map Value.text) :
    (Tokenizer.mapping (.init prefixStr none (some values) none default stream)).table.size =
      values.length := by
  have hne : values ≠ [] := List.ne_nil_of_length_pos (by
    rw [← List.length_map]
    exact List.length_pos_of_mem hdefault)
  have hmap : (MappingTokenizer.init prefixStr none (some values) none default stream).hasDirectMap :=
    hasDirectMap_init_values hne
  rw [size_mapping, if_neg (by simp [MappingTokenizer.init]), if_pos hmap,
    length_directLabels_values h hdefault]

theorem size_mcc : (Tokenizer.mapping (.init "MCC" none
    (some (knownMccs.map (fun m => .str (toString m)))) none "-1" none)).table.size = 110 := by
  have htext : (knownMccs.map (fun m => Value.str (toString m))).map Value.text =
    knownMccs.map toString := by
    rw [List.map_map]
    rfl
  have hmem : "-1" ∈ knownMccs.map toString := List.mem_map.mpr ⟨-1, .head _, by decide⟩
  have hnodup : (knownMccs.map toString).Nodup :=
    List.Nodup.map toString_int_injective (by decide +kernel)
  rw [size_values (by rwa [htext]) (by rwa [htext])]
  rfl

theorem size_state : (Tokenizer.mapping (.init "STATE" none (some (allStates.map .str)) none "XX"
    none)).table.size = 58 := by
  have htext : (allStates.map Value.str).map Value.text = allStates := by
    rw [List.map_map]
    exact List.map_id allStates
  have hmem : "XX" ∈ allStates := by decide +kernel
  have hnodup : allStates.Nodup := by decide +kernel
  rw [size_values (by rwa [htext]) (by rwa [htext])]
  rfl

theorem map_size_financialSteps (log : ℚ → ℚ) (h : ℤ) :
    (financialSteps log h false 32).map (fun e => e.2.table.size) =
      [7, h.toNat, 14, 110, 24, 7, 12, 10, 4, 1000, 58, 3000] := by
  have hcat : (Tokenizer.mapping (.init "CAT" none none (some industryRanges) "GENERAL"
      none)).table.size = 14 := by
    rw [size_mapping]
    decide +kernel
  have hchip : (Tokenizer.mapping (.init "CHIP" (some chipMapping) none none "UNK"
      none)).table.size = 4 := by
    rw [size_mapping]
    decide +kernel
  have hfixed : ∀ (w : String) (lo hi : ℤ) (pad n : ℕ), (hi + 1 - lo).toNat = n →
      (fixedStep w lo hi pad).table.size = n := by
    rintro w lo hi pad n rfl
    exact size_fixedStep ..
  simp only [financialSteps, Bool.false_eq_true, if_false, List.append_nil, List.map_cons,
    List.map_nil, size_hashStep, size_mcc, size_state, hcat, hchip]
  rw [hfixed "AMT" 0 6 0 7 rfl, hfixed "HOUR" 0 23 2 24 rfl, hfixed "DOW" 0 6 0 7 rfl,
    hfixed "MONTH" 1 12 2 12 rfl, hfixed "CARD" 0 9 0 10 rfl, hfixed "ZIP3" 0 999 3 1000 rfl,
    hfixed "CUST" 0 2999 0 3000 rfl]

theorem endOffset_financial (log : ℚ → ℚ) (h : ℤ) :
    TokenizerPipeline.endOffset 5 (financialTables log h false 32) = 4251 + h.toNat := by
  have hsum := congrArg List.sum (map_size_financialSteps log h)
  rw [TokenizerPipeline.endOffset_eq, financialTables, List.map_map]
  refine (congrArg (5 + ·) hsum).trans ?_
  simp only [List.sum_cons, List.sum_nil]
  omega

/-! ### The ids that are emitted -/

namespace GPUTokenizer

/-- The special ids. -/
def specialTokenIds : List ℤ := [padTokenId, bosTokenId, eosTokenId, sepTokenId, unkTokenId]

variable {cudf : Cudf} {log : ℚ → ℚ} {h : ℤ} {a : GPUTokenizer}

/-- The vocabulary of a fitted actor is that of the configuration. -/
def HasVocabulary (log : ℚ → ℚ) (h : ℤ) (a : GPUTokenizer) : Prop :=
  a.fitted = true ∧ a.pipeline.vocabulary = TokenizerPipeline.vocabularyOf
    TokenizerPipeline.defaultSpecialTokens (financialTables log h false 32)

theorem hasVocabulary_ensureFitted (ha : a = init log h ∨ a.HasVocabulary log h)
    {rows : List Transaction} {a' : GPUTokenizer} (he : a.ensureFitted (toFrame rows) = .ok a') :
    a'.HasVocabulary log h := by
  obtain rfl | ha := ha
  · let cfg : FinancialConfig := { merchantHashSize := h, useStreams := false }
    obtain ⟨p, hp, hv⟩ := fit_vocabulary log cfg (hasStepColumns_toFrame false rows)
    have hfit : (init log h).ensureFitted (toFrame rows) = .ok ⟨p, true⟩ := by
      show (do let p ← (financialPipeline log cfg).fit (toFrame rows); Except.ok _) = _
      rw [hp]
      rfl
    obtain rfl := Except.ok.inj (he.symm.trans hfit)
    refine ⟨rfl, hv.trans ?_⟩
    rfl
  · rw [ensureFitted, if_pos ha.1] at he
    cases he
    exact ha

theorem hasVocabulary_call (ha : a = init log h ∨ a.HasVocabulary log h)
    {batch : List RawTransaction} {r : List TokenizedRow × GPUTokenizer}
    (hc : a.call cudf log batch = .ok r) : r.2.HasVocabulary log h := by
  obtain ⟨proc, -, hc⟩ := bind_eq_ok.mp hc
  obtain ⟨a', hfit, hc⟩ := bind_eq_ok.mp hc
  obtain ⟨tokenDf, -, hc⟩ := bind_eq_ok.mp hc
  cases hc
  exact hasVocabulary_ensureFitted ha hfit

theorem hasVocabulary_afterBatches (ha : a = init log h ∨ a.HasVocabulary log h)
    (batches : List (List RawTransaction)) :
    a.afterBatches cudf log batches = init log h ∨
      (a.afterBatches cudf log batches).HasVocabulary log h := by
  induction batches generalizing a with
  | nil => exact ha
  | cons batch batches ih =>
    unfold afterBatches at ih ⊢
    rw [List.foldl_cons]
    apply ih
    split
    · rename_i r hc
      exact .inr (hasVocabulary_call ha hc)
    · exact ha

/-- The id is that of a token of the step. -/
def IsTokenId (vocab : Dict String ℤ) (t : Tokenizer) (i : ℤ) : Prop :=
  ∃ tok ∈ t.table.values, vocab.get? tok = some i

variable {e : String × Tokenizer}

/-- The tokens of a step are in the vocabulary, above the special ids and below its size. -/
theorem exists_id (he : e ∈ financialSteps log h false 32) {tok : String}
    (htok : tok ∈ e.2.table.values) :
    ∃ i, (defaultVocab log h).get? tok = some i ∧ 5 ≤ i ∧
      i < TokenizerPipeline.endOffset 5 (financialTables log h false 32) := by
  have hmem : tok ∈ (TokenizerPipeline.blockEntries 5 (financialTables log h false 32)).map
      Prod.fst := by
    rw [map_fst_blockEntries, financialTables, List.flatMap_map]
    exact List.mem_flatMap.mpr ⟨e, he, htok⟩
  obtain ⟨p, hp, rfl⟩ := List.mem_map.mp hmem
  have hvocab : defaultVocab log h = Dict.ofList (vocabEntries log h false 32) :=
    (vocabularyOf_dicts _ _).1
  have hentry : (p.1, p.2) ∈ vocabEntries log h false 32 := List.mem_append_right _ hp
  refine ⟨p.2, ?_, mem_blockEntries_financial hp⟩
  rw [hvocab]
  exact get?_vocab_of_mem hentry

theorem isTokenId_cell (hh : 1 ≤ h) (t : Transaction) (he : e ∈ financialSteps log h false 32) :
    let i := tokenId (defaultVocab log h) (e.2.tokenOf log (t.cell e.1))
    IsTokenId (defaultVocab log h) e.2 i ∧ 5 ≤ i ∧
      i < TokenizerPipeline.endOffset 5 (financialTables log h false 32) := by
  obtain ⟨tok, hmem, htok⟩ := (hasToken_cell log hh 32 t e he).tokenOf
  obtain ⟨i, hi, hbounds⟩ := exists_id he hmem
  have hid : tokenId (defaultVocab log h) (e.2.tokenOf log (t.cell e.1)) = i := by
    rw [tokenId, htok, Option.bind_some, hi, Option.getD_some]
  rw [hid]
  exact ⟨⟨tok, hmem, hi⟩, hbounds⟩

theorem fieldIds_eq (log : ℚ → ℚ) (h : ℤ) (t : Transaction) :
    fieldIds log h t = (financialSteps log h false 32).map
      (fun e => tokenId (defaultVocab log h) (e.2.tokenOf log (t.cell e.1))) := by
  rw [fieldIds, fieldTokens, List.map_map]
  rfl

end GPUTokenizer

/-- Whatever batches the actor has seen, every row it emits has the id of a token of each step,
none of them a special id and all below the size of the vocabulary; with the default number of
hash buckets this is the size of the embedding table. -/
theorem call_tokenIds (cudf : Cudf) (log : ℚ → ℚ) {h : ℤ} (hh : 1 ≤ h)
    {batches : List (List RawTransaction)} {batch : List RawTransaction}
    {r : List TokenizedRow × GPUTokenizer}
    (hc : ((GPUTokenizer.init log h).afterBatches cudf log batches).call cudf log batch = .ok r) :
    (∀ row ∈ r.1,
      List.Forall₂ (fun e i => GPUTokenizer.IsTokenId r.2.pipeline.vocab e.2 i)
        (financialSteps log h false 32) row.tokenIds ∧
      ∀ i ∈ row.tokenIds, 5 ≤ i ∧ i < r.2.pipeline.globalVocabSize ∧
        i ∉ GPUTokenizer.specialTokenIds) ∧
    (h = defaultHashSize → r.2.pipeline.globalVocabSize = modelVocabSize) := by
  obtain ⟨-, hvocab⟩ := GPUTokenizer.hasVocabulary_call
    (GPUTokenizer.hasVocabulary_afterBatches (.inl rfl) batches) hc
  have hv : r.2.pipeline.vocab = defaultVocab log h :=
    congrArg TokenizerPipeline.Vocabulary.vocab hvocab
  have hsize : r.2.pipeline.globalVocabSize =
      TokenizerPipeline.endOffset 5 (financialTables log h false 32) :=
    congrArg TokenizerPipeline.Vocabulary.globalVocabSize hvocab
  obtain ⟨proc, -, hrows⟩ := GPUTokenizer.call_afterBatches hh hc
  constructor
  · intro row hrow
    rw [hrows] at hrow
    obtain ⟨t, -, rfl⟩ := List.mem_map.mp hrow
    rw [hv, hsize]
    show List.Forall₂ _ _ (fieldIds log h t) ∧ ∀ i ∈ fieldIds log h t, _
    rw [GPUTokenizer.fieldIds_eq]
    constructor
    · rw [List.forall₂_map_right_iff, List.forall₂_same]
      exact fun e he => (GPUTokenizer.isTokenId_cell hh t he).1
    · intro i hi
      obtain ⟨e, he, rfl⟩ := List.mem_map.mp hi
      obtain ⟨-, h5, hlt⟩ := GPUTokenizer.isTokenId_cell hh t he
      refine ⟨h5, hlt, fun hspecial => ?_⟩
      have hsmall : ∀ i ∈ GPUTokenizer.specialTokenIds, i < 5 := by decide
      exact absurd (hsmall _ hspecial) (not_lt.mpr h5)
  · rintro rfl
    rw [hsize, endOffset_financial]
    rfl

/-- Cards far outside the range, on an actor that has seen another batch. -/
theorem call_tokenIds_example :
    ∃ r, ((GPUTokenizer.init id 2000).afterBatches exampleCudf id
        [[(1, 2)].map (fun p => exampleTransaction p.1 p.2)]).call exampleCudf id
        ([(0, 3), (7, 4000)].map (fun p => exampleTransaction p.1 p.2)) = .ok r ∧
      (∀ row ∈ r.1, ∀ i ∈ row.tokenIds, 5 ≤ i ∧ i < r.2.pipeline.globalVocabSize ∧
        i ∉ GPUTokenizer.specialTokenIds) ∧
      r.2.pipeline.globalVocabSize = modelVocabSize := by
  obtain ⟨r, hr⟩ := exists_call_example [[(1, 2)].map (fun p => exampleTransaction p.1 p.2)]
    [(0, 3), (7, 4000)]
  have hids := call_tokenIds exampleCudf id (by decide) hr
  exact ⟨r, hr, fun row hrow => (hids.1 row hrow).2, hids.2 rfl⟩

end RayTfm.Tfm
