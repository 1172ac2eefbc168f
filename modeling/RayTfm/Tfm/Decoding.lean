import RayTfm.Tfm.Corpus
import RayTfm.Tfm.DistinctTokens

/-! # Decoding and encoding again

`decode` of `tokenizer/financial_tokenizer.py` joins the tokens of a list of ids with spaces and
`encode` splits the text again.  Ids and tokens are not one-to-one, since the last month and the
first card share an id, but an id is decoded to the token written to it last and that token is
mapped back to the id.  Since every token is one word, a list of ids without padding comes back as
it was (`encode_decode`). -/

namespace RayTfm.Tfm

/-! ### Every token is a word -/

theorem wordTokens_timeDelta (log : ℚ → ℚ) (numBins : ℕ) {specialToken : String} (y : ℚ)
    (hp : NoSpace specialToken) :
    (Tokenizer.timeDelta (.init log numBins specialToken y none)).WordTokens := by
  refine Tokenizer.wordTokens_of_table rfl hp (fun e he => ?_)
  obtain ⟨i, -, rfl⟩ := List.mem_map.mp he
  exact ⟨_, noSpace_toString (Int.natCast_nonneg i), rfl⟩

/-- No token of a step has white space in it, that of the time differences included. -/
theorem wordTokens_of_mem {log : ℚ → ℚ} {h : ℤ} {incl : Bool} {bins : ℕ} :
    ∀ e ∈ financialSteps log h incl bins, e.2.WordTokens := by
  intro e he
  cases incl with
  | false => exact wordTokens_financialSteps log h bins e he
  | true =>
    have hsplit : financialSteps log h true bins = financialSteps log h false bins ++
        [("time_delta_s", .timeDelta (.init log bins "TDIF" 10 none))] := rfl
    rw [hsplit, List.mem_append, List.mem_singleton] at he
    obtain he | rfl := he
    · exact wordTokens_financialSteps log h bins e he
    · exact wordTokens_timeDelta log bins 10 (by decide)

theorem isWord_of_mem_vocabEntries {log : ℚ → ℚ} {h : ℤ} {incl : Bool} {bins : ℕ}
    {e : String × ℤ} (he : e ∈ vocabEntries log h incl bins) : IsWord e.1 := by
  have hspecial : ∀ e ∈ [("<pad>", (0 : ℤ)), ("<bos>", 1), ("<eos>", 2), ("<sep>", 3),
      ("<unk>", 4)], e.1 ≠ "" ∧ NoSpace e.1 := by
    decide
  rw [vocabEntries, List.mem_append, specialEntries_eq] at he
  obtain he | he := he
  · exact hspecial e he
  · obtain ⟨t, ht, i, hi⟩ := TokenizerPipeline.exists_of_mem_blockEntries he
    obtain ⟨step, hstep, rfl⟩ := List.mem_map.mp ht
    exact wordTokens_of_mem step hstep _ (List.mem_map_of_mem (f := Prod.snd) hi)

/-! ### The tokenizer of a configuration -/

namespace FinancialTabularTokenizer

/-- A tokenizer with the vocabulary of the configured steps. -/
structure Configured (log : ℚ → ℚ) (h : ℤ) (incl : Bool) (t : FinancialTabularTokenizer) :
    Prop where
  vocab : t.vocab = Dict.ofList (vocabEntries log h incl 32)
  idToToken : t.idToToken = Dict.ofList ((vocabEntries log h incl 32).map Prod.swap)
  padTokenId : t.padTokenId = 0

theorem padTokenId_of_init {log : ℚ → ℚ} {h : ℤ} {incl : Bool} {t : FinancialTabularTokenizer}
    (ht : init log h incl = .ok t) : t.padTokenId = (t.vocab.get? "<pad>").getD 0 := by
  obtain ⟨p, -, hinit⟩ := bind_eq_ok.mp ht
  cases hinit
  rfl

theorem get?_pad (log : ℚ → ℚ) (h : ℤ) (incl : Bool) (bins : ℕ) :
    (Dict.ofList (vocabEntries log h incl bins)).get? "<pad>" = some 0 := by
  apply get?_vocab_of_mem
  rw [vocabEntries, List.mem_append, specialEntries_eq]
  exact .inl (.head _)

theorem exists_configured (log : ℚ → ℚ) (h : ℤ) (incl : Bool) :
    ∃ t, init log h incl = .ok t ∧ t.Configured log h incl := by
  obtain ⟨t, ht, hvocab, hinv, hv⟩ := init_vocabulary log h incl
  have hv1 : t.vocab = Dict.ofList (vocabEntries log h incl 32) := by
    rw [hvocab, ← (vocabularyOf_eq log h incl 32).1, ← hv]
    rfl
  have hv2 : t.idToToken = Dict.ofList ((vocabEntries log h incl 32).map Prod.swap) := by
    rw [hinv, ← (vocabularyOf_eq log h incl 32).2, ← hv]
    rfl
  refine ⟨t, ht, hv1, hv2, ?_⟩
  rw [padTokenId_of_init ht, hv1, get?_pad, Option.getD_some]

variable {log : ℚ → ℚ} {h : ℤ} {incl : Bool} {t : FinancialTabularTokenizer}

theorem Configured.exists_token (ht : t.Configured log h incl) {i : ℤ} (hi : i ∈ t.idToToken.keys)
    (hpad : i ≠ t.padTokenId) :
    ∃ tok, t.idToToken.get? i = some tok ∧ t.vocab.get? tok = some i ∧ IsWord tok ∧
      tok ≠ "<pad>" := by
  obtain ⟨tok, htok⟩ := Option.isSome_iff_exists.mp (Dict.get?_isSome_iff.mpr hi)
  have hmem := htok
  rw [ht.idToToken] at hmem
  have hmem := get?_vocab_of_idToToken hmem
  refine ⟨tok, htok, by rw [ht.vocab]; exact get?_vocab_of_mem hmem,
    isWord_of_mem_vocabEntries hmem, ?_⟩
  rintro rfl
  have heq := (get?_vocab_of_mem hmem).symm.trans (get?_pad log h incl 32)
  rw [ht.padTokenId] at hpad
  exact hpad (Option.some.inj heq)

/-- The token an id stands for. -/
def tokenOf (t : FinancialTabularTokenizer) (i : ℤ) : String := (t.idToToken.get? i).getD ""

theorem Configured.decode_eq (ht : t.Configured log h incl) {ids : List ℤ}
    (hids : ∀ i ∈ ids, i ∈ t.idToToken.keys ∧ i ≠ t.padTokenId) :
    t.decode ids = String.intercalate " " (ids.map t.tokenOf) := by
  unfold decode
  rw [← List.filterMap_eq_map]
  congr 1
  refine List.filterMap_congr (fun i hi => ?_)
  obtain ⟨tok, htok, -, hword, hne⟩ := ht.exists_token (hids i hi).1 (hids i hi).2
  simp only [htok, tokenOf, Function.comp_apply, Option.getD_some]
  rw [if_pos ⟨hword.1, hne⟩]

theorem Configured.words_decode (ht : t.Configured log h incl) {ids : List ℤ}
    (hids : ∀ i ∈ ids, i ∈ t.idToToken.keys ∧ i ≠ t.padTokenId) :
    (words (t.decode ids)).map (fun tok => (t.vocab.get? tok).getD t.unkTokenId) = ids := by
  have htoken : ∀ i ∈ ids, IsWord (t.tokenOf i) ∧ t.vocab.get? (t.tokenOf i) = some i := by
    intro i hi
    obtain ⟨tok, htok, hvocab, hword, -⟩ := ht.exists_token (hids i hi).1 (hids i hi).2
    rw [tokenOf, htok, Option.getD_some]
    exact ⟨hword, hvocab⟩
  have hwords : ∀ w ∈ ids.map t.tokenOf, IsWord w := by
    intro w hw
    obtain ⟨i, hi, rfl⟩ := List.mem_map.mp hw
    exact (htoken i hi).1
  rw [ht.decode_eq hids, words_intercalate_of_isWord hwords, List.map_map]
  refine (List.map_congr_left (fun i hi => ?_)).trans (List.map_id ids)
  rw [Function.comp_apply, (htoken i hi).2, Option.getD_some, id]

end FinancialTabularTokenizer

/-- Ids that stand for tokens other than padding are encoded again as they were, filled up with
padding to the length asked for; for every number of hash buckets, with and without the step of
time differences. -/
theorem encode_decode (log : ℚ → ℚ) (h : ℤ) (incl : Bool) :
    ∃ t, FinancialTabularTokenizer.init log h incl = .ok t ∧
      ∀ (ids : List ℤ) (maxLength : Option ℕ),
        (∀ i ∈ ids, i ∈ t.idToToken.keys ∧ i ≠ t.padTokenId) →
        (∀ n, maxLength = some n → ids.length ≤ n) →
        t.encode (t.decode ids) maxLength =
          ids ++ List.replicate (maxLength.getD ids.length - ids.length) t.padTokenId := by
  obtain ⟨t, ht, hconf⟩ := FinancialTabularTokenizer.exists_configured log h incl
  refine ⟨t, ht, fun ids maxLength hids hlen => ?_⟩
  have hback := hconf.words_decode hids
  have hwords : (words (t.decode ids)).length = ids.length := by
    rw [← List.length_map, hback]
  have hpad : (t.vocab.get? "<pad>").getD t.unkTokenId = t.padTokenId := by
    rw [hconf.vocab, FinancialTabularTokenizer.get?_pad, Option.getD_some, hconf.padTokenId]
  unfold FinancialTabularTokenizer.encode FinancialTabularTokenizer.tokenize
  match maxLength with
  | none => simpa using hback
  | some 0 =>
    have hnil : ids = [] := List.length_eq_zero_iff.mp (by simpa using hlen 0 rfl)
    subst hnil
    simpa using hback
  | some (n + 1) =>
    have hle := hlen (n + 1) rfl
    simp only [List.take_of_length_le (hwords.le.trans hle)]
    rw [List.map_append, hback, List.map_replicate, hpad, hwords]
    rfl

/-- The begin id, the first amount and the begin id again, with the default number of buckets. -/
theorem encode_decode_default :
    ∃ t, FinancialTabularTokenizer.init id 2000 false = .ok t ∧
      (∀ i ∈ [1, 5, 1], i ∈ t.idToToken.keys ∧ i ≠ t.padTokenId) ∧
      t.encode (t.decode [1, 5, 1]) (some 5) = [1, 5, 1] ++ List.replicate 2 t.padTokenId := by
  obtain ⟨t, ht, hencode⟩ := encode_decode id 2000 false
  obtain ⟨t', ht', hconf⟩ := FinancialTabularTokenizer.exists_configured id 2000 false
  obtain rfl := Except.ok.inj (ht.symm.trans ht')
  have hbos : ("<bos>", (1 : ℤ)) ∈ vocabEntries id 2000 false 32 := by
    rw [vocabEntries, List.mem_append, specialEntries_eq]
    exact .inl (by decide)
  have hamt : ("AMT_0", (5 : ℤ)) ∈ vocabEntries id 2000 false 32 := by
    rw [vocabEntries, List.mem_append]
    exact .inr (List.mem_append_left _ (List.mem_map.mpr ⟨(0, "AMT_0"), by decide, rfl⟩))
  have hkey : ∀ e ∈ vocabEntries id 2000 false 32, e.2 ∈ t.idToToken.keys := by
    intro e he
    rw [hconf.idToToken, Dict.mem_keys_ofList, List.map_map]
    exact List.mem_map.mpr ⟨e, he, rfl⟩
  have hids : ∀ i ∈ [1, 5, 1], i ∈ t.idToToken.keys ∧ i ≠ t.padTokenId := by
    rw [hconf.padTokenId]
    intro i hi
    simp only [List.mem_cons, List.not_mem_nil, or_false] at hi
    obtain rfl | rfl | rfl := hi
    · exact ⟨hkey _ hbos, by decide⟩
    · exact ⟨hkey _ hamt, by decide⟩
    · exact ⟨hkey _ hbos, by decide⟩
  exact ⟨t, ht, hids, hencode [1, 5, 1] (some 5) hids (fun n hn => by cases hn; decide)⟩

end RayTfm.Tfm
