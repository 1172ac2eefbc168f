import RayTfm.Tfm.Financial

/-! # Distinct tokens

Every token is a label behind a prefix, so a table without repeated labels has no token twice
(`nodup_values_ofList`).  The financial steps have different prefixes and no label twice in one
step, so no token is written twice into the vocabulary, although two tokens share an id: a token
is found again under the id it was written with (`get?_vocab_of_mem`), whichever token is the last
one written to that id. -/

namespace RayTfm.Tfm

/-! ### Labels -/

theorem formatInt_injective (w : ℕ) : Function.Injective (formatInt w) := by
  have hminus : ∀ v n m, "-" ++ String.ofList (zpad v n) ≠ String.ofList (zpad w m) := by
    intro v n m h
    have hlist := congrArg String.toList h
    simp only [String.toList_append, String.toList_ofList] at hlist
    have hmem : '-' ∈ zpad w m := hlist ▸ (.head _)
    exact absurd (isDigit_of_mem_zpad hmem) (by decide)
  intro i j h
  unfold formatInt at h
  split_ifs at h with hi hj hj
  · have := zpad_injective w (String.ofList_injective h)
    omega
  · exact absurd h.symm (hminus _ _ _)
  · exact absurd h (hminus _ _ _)
  · have := zpad_injective (w - 1) (String.ofList_injective ((String.append_right_inj "-").mp h))
    omega

theorem toString_int_injective : Function.Injective (toString : ℤ → String) :=
  fun _ _ h => Int.repr_injective h

theorem toString_nat_injective : Function.Injective (toString : ℕ → String) :=
  fun _ _ h => Nat.repr_injective h

theorem prefixed_injective (w : String) : Function.Injective (fun x => w ++ "_" ++ x) :=
  fun _ _ h => (String.append_right_inj (w ++ "_")).mp h

theorem nodup_values_ofList {l : List (ℤ × String)} (hk : (l.map Prod.fst).Nodup)
    (hv : (l.map Prod.snd).Nodup) : (Dict.ofList l).values.Nodup := by
  rw [Dict.values, Dict.entries_ofList hk]
  exact hv

theorem nodup_values_map {l : List ℤ} {f : ℤ → String} (hl : l.Nodup) (hf : Function.Injective f) :
    (Dict.ofList (l.map (fun i => (i, f i)))).values.Nodup := by
  apply nodup_values_ofList
  · rw [List.map_map]
    simpa [Function.comp_def] using hl
  · rw [List.map_map]
    exact hl.map hf

theorem get?_invert {d : Dict ℤ String} (hd : d.values.Nodup) (s : String) (i : ℤ) :
    (invert d).get? s = some i ↔ d.get? i = some s := by
  have hn : ((d.entries.map Prod.swap).map Prod.fst).Nodup := by
    rw [List.map_map]
    exact hd
  rw [Dict.get?_eq_some_iff, Dict.get?_eq_some_iff, invert, Dict.entries_ofList hn]
  constructor
  · intro h
    obtain ⟨e, he, heq⟩ := List.mem_map.mp h
    obtain ⟨rfl, rfl⟩ := Prod.mk.inj heq
    exact he
  · intro h
    exact List.mem_map.mpr ⟨(i, s), h, rfl⟩

/-! ### Steps -/

namespace MappingTokenizer

theorem map_fst_labelTable (t : MappingTokenizer) (labels : List String) :
    (t.labelTable labels).map Prod.fst = (List.range labels.length).map (fun k : ℕ => (k : ℤ)) := by
  rw [labelTable, List.map_map, List.range_eq_range', ← List.zipIdx_map_snd, List.map_map]
  rfl

theorem map_snd_labelTable (t : MappingTokenizer) (labels : List String) :
    (t.labelTable labels).map Prod.snd = labels.map (fun l => t.prefixStr ++ "_" ++ l) := by
  have h := congrArg (List.map (fun l => t.prefixStr ++ "_" ++ l)) (List.zipIdx_map_fst 0 labels)
  rw [List.map_map] at h
  rw [labelTable, List.map_map, ← h]
  rfl

theorem nodup_fst_labelTable (t : MappingTokenizer) (labels : List String) :
    ((t.labelTable labels).map Prod.fst).Nodup := by
  rw [map_fst_labelTable]
  exact List.nodup_range.map Nat.cast_injective

variable {t : MappingTokenizer}

/-- A table of labels has distinct tokens exactly if no label is repeated. -/
theorem nodup_values_labelTable {labels : List String} :
    (Dict.ofList (t.labelTable labels)).values.Nodup ↔ labels.Nodup := by
  rw [Dict.values, Dict.entries_ofList (t.nodup_fst_labelTable labels), map_snd_labelTable,
    List.nodup_map_iff (prefixed_injective t.prefixStr)]

theorem nodup_directLabels (t : MappingTokenizer) : t.directLabels.Nodup := Dict.keys_nodup _

theorem nodup_dataLabels (t : MappingTokenizer) (column : Column) : (t.dataLabels column).Nodup :=
  Dict.keys_nodup _

/-- In range mode a label is repeated exactly if the default is the label of a range. -/
theorem nodup_rangeLabels :
    t.rangeLabels.Nodup ↔ t.default ∉ (t.rangeLookup.getD []).map (fun r => r.2.2) := by
  have hsort : (sortedStr ((t.rangeLookup.getD []).map (fun r => r.2.2)).dedup).Nodup :=
    (List.perm_insertionSort (· ≤ ·) _).nodup_iff.mpr (List.nodup_dedup _)
  have hmem : ∀ l, l ∈ sortedStr ((t.rangeLookup.getD []).map (fun r => r.2.2)).dedup ↔
      l ∈ (t.rangeLookup.getD []).map (fun r => r.2.2) := by
    intro l
    rw [sortedStr, List.mem_insertionSort, List.mem_dedup]
  rw [rangeLabels, List.nodup_append]
  constructor
  · rintro ⟨-, -, h⟩ hd
    exact h _ ((hmem _).mpr hd) _ (List.mem_singleton_self _) rfl
  · intro h
    refine ⟨hsort, List.nodup_singleton _, fun l hl d hd heq => ?_⟩
    obtain rfl := List.mem_singleton.mp hd
    exact h ((hmem _).mp (heq ▸ hl))

end MappingTokenizer

/-- No token is twice in the step's table. -/
def Tokenizer.DistinctTokens (t : Tokenizer) : Prop := t.table.values.Nodup

theorem distinctTokens_fixedVocab (prefixStr : String) (minVal maxVal : ℤ) (padWidth : ℕ) :
    (fixedStep prefixStr minVal maxVal padWidth).DistinctTokens :=
  nodup_values_map (intRange_nodup _ _) ((prefixed_injective prefixStr).comp (formatInt_injective _))

theorem distinctTokens_categoricalHash (vocabLimit : ℤ) (specialToken : String) :
    (Tokenizer.categoricalHash (.init vocabLimit specialToken none)).DistinctTokens :=
  nodup_values_map (intRange_nodup _ _)
    ((prefixed_injective specialToken).comp toString_int_injective)

theorem distinctTokens_timeDelta (log : ℚ → ℚ) (numBins : ℕ) (specialToken : String) (y : ℚ) :
    (Tokenizer.timeDelta (.init log numBins specialToken y none)).DistinctTokens := by
  have hinj := (prefixed_injective specialToken).comp toString_nat_injective
  refine nodup_values_ofList ?_ ?_
  · rw [List.map_map]
    exact List.nodup_range.map Nat.cast_injective
  · rw [List.map_map]
    exact List.nodup_range.map hinj

theorem distinctTokens_mapping {t : MappingTokenizer}
    (h : t.mode = .range → t.default ∉ (t.rangeLookup.getD []).map (fun r => r.2.2)) :
    (Tokenizer.mapping t).DistinctTokens := by
  rw [Tokenizer.DistinctTokens, Tokenizer.table_mapping]
  unfold MappingTokenizer.configTable
  split_ifs with hm
  · exact MappingTokenizer.nodup_values_labelTable.mpr (MappingTokenizer.nodup_rangeLabels.mpr (h hm))
  · exact MappingTokenizer.nodup_values_labelTable.mpr t.nodup_directLabels
  · exact List.nodup_singleton _

variable {log : ℚ → ℚ} {h : ℤ} {incl : Bool} {bins : ℕ}

theorem distinctTokens_financialSteps :
    ∀ e ∈ financialSteps log h incl bins, e.2.DistinctTokens := by
  intro e he
  rw [financialSteps, List.mem_append] at he
  obtain he | he := he
  · simp only [List.mem_cons, List.not_mem_nil, or_false] at he
    obtain rfl | rfl | rfl | rfl | rfl | rfl | rfl | rfl | rfl | rfl | rfl | rfl := he
    · exact distinctTokens_fixedVocab _ _ _ _
    · exact distinctTokens_categoricalHash _ _
    · exact distinctTokens_mapping (fun _ => by decide)
    · exact distinctTokens_mapping (fun hm => by cases hm)
    · exact distinctTokens_fixedVocab _ _ _ _
    · exact distinctTokens_fixedVocab _ _ _ _
    · exact distinctTokens_fixedVocab _ _ _ _
    · exact distinctTokens_fixedVocab _ _ _ _
    · exact distinctTokens_mapping (fun hm => by cases hm)
    · exact distinctTokens_fixedVocab _ _ _ _
    · exact distinctTokens_mapping (fun hm => by cases hm)
    · exact distinctTokens_fixedVocab _ _ _ _
  · split_ifs at he
    · obtain rfl := List.mem_singleton.mp he
      exact distinctTokens_timeDelta _ _ _ _
    · simp at he

/-! ### The whole vocabulary -/

theorem prefixStr_financialSteps (log : ℚ → ℚ) (h : ℤ) (incl : Bool) (bins : ℕ) :
    (financialSteps log h incl bins).map (fun e => e.2.prefixStr) =
      ["AMT", "MERCH", "CAT", "MCC", "HOUR", "DOW", "MONTH", "CARD", "CHIP", "ZIP3", "STATE",
        "CUST"] ++ if incl then ["TDIF"] else [] := by
  cases incl <;> rfl

theorem underscore_notMem_prefixStr :
    ∀ e ∈ financialSteps log h incl bins, '_' ∉ e.2.prefixStr.toList := by
  intro e he
  have hmem := List.mem_map_of_mem (f := fun e : String × Tokenizer => e.2.prefixStr) he
  rw [prefixStr_financialSteps] at hmem
  have hno : ∀ w ∈ ["AMT", "MERCH", "CAT", "MCC", "HOUR", "DOW", "MONTH", "CARD", "CHIP", "ZIP3",
      "STATE", "CUST"] ++ (if incl then ["TDIF"] else []), '_' ∉ w.toList := by
    cases incl <;> decide
  exact hno _ hmem

variable {tok : String}

theorem field_of_mem_table {e : String × Tokenizer} (he : e ∈ financialSteps log h incl bins)
    (htok : tok ∈ e.2.table.values) : field tok = e.2.prefixStr := by
  obtain ⟨p, hp, rfl⟩ := List.mem_map.mp htok
  obtain ⟨x, hx⟩ := Tokenizer.eq_append_of_mem_table hp
  rw [hx, field_append (underscore_notMem_prefixStr e he)]

theorem map_fst_blockEntries (n : ℕ) (tables : TokenizerPipeline.Tables) :
    (TokenizerPipeline.blockEntries n tables).map Prod.fst =
      tables.flatMap (fun e => e.2.values) := by
  induction tables generalizing n with
  | nil => rfl
  | cons e tables ih =>
    rw [TokenizerPipeline.blockEntries, List.map_append, ih, List.flatMap_cons, GlobalVocab.shifted,
      List.map_map]
    rfl

/-- Everything that is written into the vocabulary: the special tokens, then the steps' tokens. -/
def vocabEntries (log : ℚ → ℚ) (h : ℤ) (incl : Bool) (bins : ℕ) : List (String × ℤ) :=
  (TokenizerPipeline.specialIds TokenizerPipeline.defaultSpecialTokens).entries ++
    TokenizerPipeline.blockEntries TokenizerPipeline.defaultSpecialTokens.size
      (financialTables log h incl bins)

theorem vocabularyOf_dicts (specialTokens : Dict String String) (tables : TokenizerPipeline.Tables) :
    (TokenizerPipeline.vocabularyOf specialTokens tables).vocab =
        Dict.ofList ((TokenizerPipeline.specialIds specialTokens).entries ++
          TokenizerPipeline.blockEntries specialTokens.size tables) ∧
      (TokenizerPipeline.vocabularyOf specialTokens tables).idToToken =
        Dict.ofList (((TokenizerPipeline.specialIds specialTokens).entries ++
          TokenizerPipeline.blockEntries specialTokens.size tables).map Prod.swap) := ⟨rfl, rfl⟩

theorem vocabularyOf_eq (log : ℚ → ℚ) (h : ℤ) (incl : Bool) (bins : ℕ) :
    (TokenizerPipeline.vocabularyOf TokenizerPipeline.defaultSpecialTokens
        (financialTables log h incl bins)).vocab = Dict.ofList (vocabEntries log h incl bins) ∧
      (TokenizerPipeline.vocabularyOf TokenizerPipeline.defaultSpecialTokens
        (financialTables log h incl bins)).idToToken =
        Dict.ofList ((vocabEntries log h incl bins).map Prod.swap) := by
  exact vocabularyOf_dicts _ _

theorem specialEntries_eq :
    (TokenizerPipeline.specialIds TokenizerPipeline.defaultSpecialTokens).entries =
      [("<pad>", 0), ("<bos>", 1), ("<eos>", 2), ("<sep>", 3), ("<unk>", 4)] := by
  decide

theorem nodup_vocabEntries (log : ℚ → ℚ) (h : ℤ) (incl : Bool) (bins : ℕ) :
    ((vocabEntries log h incl bins).map Prod.fst).Nodup := by
  have hprefix : ((financialSteps log h incl bins).map (fun e => e.2.prefixStr)).Nodup := by
    rw [prefixStr_financialSteps]
    cases incl <;> decide
  rw [vocabEntries, List.map_append, map_fst_blockEntries, financialTables, List.flatMap_map,
    List.nodup_append, List.nodup_flatMap]
  refine ⟨Dict.keys_nodup _, ⟨distinctTokens_financialSteps, ?_⟩, ?_⟩
  · refine (List.pairwise_map.mp hprefix).imp_of_mem (fun {e e'} he he' hne => ?_)
    intro tok htok htok'
    exact hne ((field_of_mem_table he htok).symm.trans (field_of_mem_table he' htok'))
  · rintro tok htok _ hmem rfl
    obtain ⟨e, he, htok'⟩ := List.mem_flatMap.mp hmem
    obtain ⟨p, hp, rfl⟩ := List.mem_map.mp htok'
    obtain ⟨x, hx⟩ := Tokenizer.eq_append_of_mem_table hp
    have hno : ∀ w ∈ ["<pad>", "<bos>", "<eos>", "<sep>", "<unk>"], '_' ∉ w.toList := by decide
    rw [specialEntries_eq] at htok
    refine hno _ htok ?_
    rw [hx]
    simp

theorem get?_vocab_of_mem {i : ℤ} (he : (tok, i) ∈ vocabEntries log h incl bins) :
    (Dict.ofList (vocabEntries log h incl bins)).get? tok = some i :=
  Dict.get?_setAll_of_mem _ (nodup_vocabEntries log h incl bins) he

/-- The token an id stands for is mapped back to it, also where two tokens share the id. -/
theorem get?_vocab_of_idToToken
    {i : ℤ} (hi : (Dict.ofList ((vocabEntries log h incl bins).map Prod.swap)).get? i = some tok) :
    (tok, i) ∈ vocabEntries log h incl bins := by
  have hmem := Dict.mem_of_mem_entries_ofList (Dict.get?_eq_some_iff.mp hi)
  obtain ⟨e, he, heq⟩ := List.mem_map.mp hmem
  obtain ⟨rfl, rfl⟩ := Prod.mk.inj heq
  exact he

end RayTfm.Tfm
