import RayTfm.Lib.Words
import RayTfm.Tfm.Pipeline

/-! # The financial pipeline

`tokenizer/financial_pipeline.py` configures twelve steps, and a thirteenth for time differences
if asked to; `tokenizer/financial_tokenizer.py` wraps such a pipeline, builds its vocabulary
without data by a third copy of the numbering loop, and encodes text.  The amount strategy is
`fixed` throughout.

No step learns from data, so every fit gives the vocabulary of `financialTables`
(`fit_vocabulary`), the one the wrapper builds as well.  That vocabulary is not one-to-one: the
indices of the month step start at 1 while its offset advances by its size, and the last month
gets the id of the first card (`fit_not_bijective`). -/

namespace RayTfm.Tfm

/-! ### Static definitions -/

/-- `KNOWN_MCCS`. -/
def knownMccs : List ℤ := [
    -1, 1711, 3000, 3001, 3005, 3006, 3007, 3008, 3009, 3058, 3066,
    3075, 3132, 3144, 3174, 3256, 3260, 3359, 3387, 3389, 3390, 3393,
    3395, 3405, 3504, 3509, 3596, 3640, 3684, 3722, 3730, 3771, 3775,
    3780, 4111, 4112, 4121, 4131, 4214, 4411, 4511, 4722, 4784, 4814,
    4829, 4899, 4900, 5045, 5094, 5192, 5193, 5211, 5251, 5261, 5300,
    5310, 5311, 5411, 5499, 5533, 5541, 5621, 5651, 5655, 5661, 5712,
    5719, 5722, 5732, 5733, 5812, 5813, 5814, 5815, 5816, 5912, 5921,
    5932, 5941, 5942, 5947, 5970, 5977, 6300, 7011, 7210, 7230, 7276,
    7349, 7393, 7531, 7538, 7542, 7549, 7801, 7802, 7832, 7922, 7995,
    7996, 8011, 8021, 8041, 8043, 8049, 8062, 8099, 8111, 8931, 9402]

/-- `INDUSTRY_RANGES`. -/
def industryRanges : List (ℤ × ℤ × String) := [
    (0, 1499, "AGRICULTURAL"),
    (1500, 2999, "CONTRACTED"),
    (3000, 3299, "AIRLINES"),
    (3300, 3499, "CAR_RENTAL"),
    (3500, 3999, "LODGING"),
    (4000, 4799, "TRANSPORTATION"),
    (4800, 4999, "UTILITIES"),
    (5000, 5599, "RETAIL"),
    (5600, 5699, "CLOTHING"),
    (5700, 7299, "MISC_STORES"),
    (7300, 7999, "BUSINESS"),
    (8000, 8999, "PROFESSIONAL"),
    (9000, 9999, "GOVERNMENT")]

/-- `CHIP_MAPPING`. -/
def chipMapping : Dict Value String := Dict.ofList [
    (.str "SWIPE TRANSACTION", "SWIPE"),
    (.str "CHIP TRANSACTION", "CHIP"),
    (.str "ONLINE TRANSACTION", "ONLINE")]

/-- `ALL_STATES`. -/
def allStates : List String := [
    "AL", "AK", "AZ", "AR", "CA", "CO", "CT", "DE", "FL", "GA",
    "HI", "ID", "IL", "IN", "IA", "KS", "KY", "LA", "ME", "MD",
    "MA", "MI", "MN", "MS", "MO", "MT", "NE", "NV", "NH", "NJ",
    "NM", "NY", "NC", "ND", "OH", "OK", "OR", "PA", "RI", "SC",
    "SD", "TN", "TX", "UT", "VT", "VA", "WA", "WV", "WI", "WY",
    "DC", "PR", "VI", "GU", "AS", "MP", "XX", "ONLINE"]

/-! ### Configuration -/

/-- A fixed-vocabulary step. -/
def fixedStep (prefixStr : String) (minVal maxVal : ℤ) (padWidth : ℕ) : Tokenizer :=
  .fixedVocab (.init prefixStr minVal maxVal padWidth none)

/-- The steps added by `_configure_steps`, in order. -/
def financialSteps (log : ℚ → ℚ) (merchantHashSize : ℤ) (includeTimeDelta : Bool)
    (timeDeltaBins : ℕ) : List (String × Tokenizer) :=
  [("amt_val", fixedStep "AMT" 0 6 0),
   ("merch_hash", .categoricalHash (.init merchantHashSize "MERCH" none)),
   ("mcc_int", .mapping (.init "CAT" none none (some industryRanges) "GENERAL" none)),
   ("mcc_str", .mapping (.init "MCC" none (some (knownMccs.map (fun m => .str (toString m)))) none
      "-1" none)),
   ("hour", fixedStep "HOUR" 0 23 2),
   ("dow", fixedStep "DOW" 0 6 0),
   ("month", fixedStep "MONTH" 1 12 2),
   ("card", fixedStep "CARD" 0 9 0),
   ("chip_upper", .mapping (.init "CHIP" (some chipMapping) none none "UNK" none)),
   ("zip3", fixedStep "ZIP3" 0 999 3),
   ("state_clean", .mapping (.init "STATE" none (some (allStates.map .str)) none "XX" none)),
   ("cust", fixedStep "CUST" 0 2999 0)] ++
  if includeTimeDelta then
    [("time_delta_s", .timeDelta (.init log timeDeltaBins "TDIF" 10 none))]
  else []

/-- Add several steps. -/
def TokenizerPipeline.addSteps (p : TokenizerPipeline) (l : List (String × Tokenizer)) :
    TokenizerPipeline :=
  l.foldl (fun p e => p.addStep e.1 e.2) p

/-- The keyword arguments of `FinancialTokenizerPipeline`. -/
structure FinancialConfig where
  merchantHashSize : ℤ := 2000
  includeTimeDelta : Bool := false
  timeDeltaBins : ℕ := 32
  specialTokens : Option (Dict String String) := none
  useStreams : Bool := true
  streamThreshold : ℤ := 5

/-- `FinancialTokenizerPipeline.__init__`. -/
def financialPipeline (log : ℚ → ℚ) (cfg : FinancialConfig) : TokenizerPipeline :=
  (TokenizerPipeline.init cfg.specialTokens cfg.useStreams cfg.streamThreshold).addSteps
    (financialSteps log cfg.merchantHashSize cfg.includeTimeDelta cfg.timeDeltaBins)

/-- The tables the steps build. -/
def financialTables (log : ℚ → ℚ) (merchantHashSize : ℤ) (includeTimeDelta : Bool)
    (timeDeltaBins : ℕ) : TokenizerPipeline.Tables :=
  (financialSteps log merchantHashSize includeTimeDelta timeDeltaBins).map
    (fun e => (e.1, e.2.table))

namespace TokenizerPipeline

theorem addSteps_eq (p : TokenizerPipeline) (l : List (String × Tokenizer)) :
    p.addSteps l =
      { p with
        steps := p.steps.setAll l
        columnSpecs := p.columnSpecs.setAll (l.map (fun e => (e.1, e.1)))
        tokenizerOrder := p.tokenizerOrder ++ l.map Prod.fst } := by
  induction l generalizing p with
  | nil => simp [addSteps]
  | cons e l ih =>
    have h := ih (p.addStep e.1 e.2)
    rw [addSteps] at h ⊢
    rw [List.foldl_cons, h]
    simp [addStep]

variable {l : List (String × Tokenizer)}

/-- Distinct steps that learn nothing are added to an empty pipeline with their tables. -/
theorem hasSteps_addSteps (specialTokens : Option (Dict String String)) (useStreams : Bool)
    (streamThreshold : ℤ) (hn : (l.map Prod.fst).Nodup) (hl : ∀ e ∈ l, ¬ e.2.WillLearn) :
    ((init specialTokens useStreams streamThreshold).addSteps l).HasSteps
      (l.map (fun e => (e.1, e.2.table))) := by
  have hfst : (l.map (fun e => (e.1, e.2.table))).map Prod.fst = l.map Prod.fst := by
    rw [List.map_map]
    rfl
  rw [addSteps_eq]
  refine ⟨by rw [hfst]; rfl, ?_, ?_, ?_⟩
  · intro k hk
    rw [hfst, List.mem_map] at hk
    obtain ⟨e, he, rfl⟩ := hk
    exact Dict.get?_setAll_of_mem _ (by rw [List.map_map]; exact hn)
      (List.mem_map_of_mem (f := fun e : String × Tokenizer => (e.1, e.1)) he)
  · rw [hfst]
    exact hn
  · intro e he
    obtain ⟨e, hmem, rfl⟩ := List.mem_map.mp he
    exact ⟨e.2, Dict.get?_setAll_of_mem _ hn hmem, Tokenizer.builds_table (hl e hmem)⟩

theorem fittedSteps_addSteps {specialTokens : Option (Dict String String)} {useStreams : Bool}
    {streamThreshold : ℤ} {p' : TokenizerPipeline}
    (hn : (l.map Prod.fst).Nodup) (hl : ∀ e ∈ l, ¬ e.2.WillLearn)
    (h : ((init specialTokens useStreams streamThreshold).addSteps l).FittedAs p'
      (l.map (fun e => (e.1, e.2.table)))) : p'.FittedSteps l := by
  obtain ⟨horder, hspecs, -⟩ := hasSteps_addSteps specialTokens useStreams streamThreshold hn hl
  have hfst : (l.map (fun e => (e.1, e.2.table))).map Prod.fst = l.map Prod.fst := by
    rw [List.map_map]
    rfl
  refine ⟨h.isFitted, by rw [h.order, horder, hfst], fun e he => ?_, fun e he => ?_⟩
  · rw [h.specs]
    exact hspecs e.1 (by rw [hfst]; exact List.mem_map_of_mem he)
  · obtain ⟨t, t', ht, ht', hb⟩ := h.steps.built (e.1, e.2.table)
      (List.mem_map.mpr ⟨e, he, rfl⟩)
    have hte : ((init specialTokens useStreams streamThreshold).addSteps l).steps.get? e.1 =
        some e.2 := by
      rw [addSteps_eq]
      exact Dict.get?_setAll_of_mem _ hn he
    obtain rfl : t = e.2 := Option.some.inj (ht.symm.trans hte)
    rw [ht', hb.eq_buildVocab (hl e he)]

end TokenizerPipeline

/-- The names of the steps, which are the columns they read. -/
def stepColumns (includeTimeDelta : Bool) : List String :=
  ["amt_val", "merch_hash", "mcc_int", "mcc_str", "hour", "dow", "month", "card", "chip_upper",
    "zip3", "state_clean", "cust"] ++ if includeTimeDelta then ["time_delta_s"] else []

theorem stepColumns_nodup (includeTimeDelta : Bool) : (stepColumns includeTimeDelta).Nodup := by
  cases includeTimeDelta <;> decide

theorem map_fst_financialSteps (log : ℚ → ℚ) (h : ℤ) (incl : Bool) (bins : ℕ) :
    (financialSteps log h incl bins).map Prod.fst = stepColumns incl := by
  cases incl <;> rfl

theorem hasDirectMap_init_values {prefixStr default : String} {values : List Value}
    {stream : Option Stream} (h : values ≠ []) :
    (MappingTokenizer.init prefixStr none (some values) none default stream).hasDirectMap := by
  simp [MappingTokenizer.init, MappingTokenizer.hasDirectMap, Dict.ofList_entries_eq_nil_iff, h]

variable {log : ℚ → ℚ} {incl : Bool}
variable {bins : ℕ}

theorem not_willLearn_financialSteps {h : ℤ} :
    ∀ e ∈ financialSteps log h incl bins, ¬ e.2.WillLearn := by
  have hmapping : ∀ t : MappingTokenizer, t.mode = .range ∨ t.hasDirectMap = true →
      ¬ (Tokenizer.mapping t).WillLearn := by
    rintro t (hm | hd) hw
    · exact absurd (hm.symm.trans hw.1) (by decide)
    · exact absurd (hd.symm.trans hw.2) (by decide)
  intro e he
  rw [financialSteps, List.mem_append] at he
  obtain he | he := he
  · simp only [List.mem_cons, List.not_mem_nil, or_false] at he
    obtain rfl | rfl | rfl | rfl | rfl | rfl | rfl | rfl | rfl | rfl | rfl | rfl := he
    · exact id
    · exact id
    · exact hmapping _ (.inl rfl)
    · exact hmapping _ (.inr (hasDirectMap_init_values (by simp [knownMccs])))
    · exact id
    · exact id
    · exact id
    · exact id
    · exact hmapping _ (.inr (by decide))
    · exact id
    · exact hmapping _ (.inr (hasDirectMap_init_values (by simp [allStates])))
    · exact id
  · split_ifs at he
    · obtain rfl := List.mem_singleton.mp he
      exact id
    · simp at he

theorem hasSteps_financialPipeline (log : ℚ → ℚ) (cfg : FinancialConfig) :
    (financialPipeline log cfg).HasSteps
      (financialTables log cfg.merchantHashSize cfg.includeTimeDelta cfg.timeDeltaBins) :=
  TokenizerPipeline.hasSteps_addSteps _ _ _
    (by rw [map_fst_financialSteps]; exact stepColumns_nodup _) not_willLearn_financialSteps

theorem fresh_financialPipeline (log : ℚ → ℚ) (cfg : FinancialConfig) :
    (financialPipeline log cfg).Fresh := by
  rw [financialPipeline, TokenizerPipeline.addSteps_eq]
  exact ⟨rfl, rfl, rfl, rfl⟩

theorem tokenizerOrder_financialPipeline (log : ℚ → ℚ) (cfg : FinancialConfig) :
    (financialPipeline log cfg).tokenizerOrder = stepColumns cfg.includeTimeDelta := by
  rw [financialPipeline, TokenizerPipeline.addSteps_eq, ← map_fst_financialSteps]
  rfl

theorem specialTokens_financialPipeline (log : ℚ → ℚ) (cfg : FinancialConfig) :
    (financialPipeline log cfg).specialTokens =
      TokenizerPipeline.chooseSpecialTokens cfg.specialTokens := by
  rw [financialPipeline, TokenizerPipeline.addSteps_eq]
  rfl

/-- The frame has the columns that the steps read. -/
def HasStepColumns (includeTimeDelta : Bool) (df : DataFrame) : Prop :=
  ∀ k ∈ stepColumns includeTimeDelta, k ∈ df.columns.keys

theorem fit_vocabulary (log : ℚ → ℚ) (cfg : FinancialConfig) {df : DataFrame}
    (hc : HasStepColumns cfg.includeTimeDelta df) :
    ∃ p, (financialPipeline log cfg).fit df = .ok p ∧
      p.vocabulary = TokenizerPipeline.vocabularyOf
        (TokenizerPipeline.chooseSpecialTokens cfg.specialTokens)
        (financialTables log cfg.merchantHashSize cfg.includeTimeDelta cfg.timeDeltaBins) := by
  have hcols : (financialPipeline log cfg).HasColumns df := by
    rw [TokenizerPipeline.HasColumns, tokenizerOrder_financialPipeline]
    exact hc
  obtain ⟨p, hp, hfit⟩ := TokenizerPipeline.fit_eq (hasSteps_financialPipeline log cfg) hcols
  refine ⟨p, hp, ?_⟩
  rw [hfit.vocabulary_eq (fresh_financialPipeline log cfg), specialTokens_financialPipeline]

/-! ### The last month and the first card -/

theorem financialSteps_split (log : ℚ → ℚ) (h : ℤ) (incl : Bool) (bins : ℕ) :
    financialSteps log h incl bins = (financialSteps log h incl bins).take 6 ++
      ("month", fixedStep "MONTH" 1 12 2) :: ("card", fixedStep "CARD" 0 9 0) ::
        (financialSteps log h incl bins).drop 8 := by
  cases incl <;> rfl

theorem prefixStr_after_card {h : ℤ} :
    ∀ e ∈ (financialSteps log h incl bins).drop 8,
      e.2.prefixStr ∈ ["CHIP", "ZIP3", "STATE", "CUST", "TDIF"] := by
  intro e he
  have hmem : e.2.prefixStr ∈
      ((financialSteps log h incl bins).drop 8).map (fun e => e.2.prefixStr) := List.mem_map_of_mem he
  cases incl with
  | false => exact List.mem_append_left ["TDIF"] hmem
  | true => exact hmem

theorem table_month : (fixedStep "MONTH" 1 12 2).table.entries =
    [(1, "MONTH_01"), (2, "MONTH_02"), (3, "MONTH_03"), (4, "MONTH_04"), (5, "MONTH_05"),
      (6, "MONTH_06"), (7, "MONTH_07"), (8, "MONTH_08"), (9, "MONTH_09"), (10, "MONTH_10"),
      (11, "MONTH_11"), (12, "MONTH_12")] := by
  decide

theorem table_card : (fixedStep "CARD" 0 9 0).table.entries =
    [(0, "CARD_0"), (1, "CARD_1"), (2, "CARD_2"), (3, "CARD_3"), (4, "CARD_4"), (5, "CARD_5"),
      (6, "CARD_6"), (7, "CARD_7"), (8, "CARD_8"), (9, "CARD_9")] := by
  decide

/-- The part of a token before its first underscore. -/
def field (s : String) : String := String.ofList (s.toList.takeWhile (· ≠ '_'))

theorem field_append {w : String} (hw : '_' ∉ w.toList) (x : String) :
    field (w ++ "_" ++ x) = w := by
  have hlist : ∀ l : List Char, '_' ∉ l → ∀ l', (l ++ '_' :: l').takeWhile (· ≠ '_') = l := by
    intro l hl l'
    have hpos : ∀ c ∈ l, (decide (c ≠ '_')) = true := by
      intro c hc
      exact decide_eq_true (fun e => hl (e ▸ hc))
    rw [List.takeWhile_append_of_pos hpos]
    simp
  unfold field
  rw [String.toList_append, String.toList_append, List.append_assoc]
  exact (congrArg String.ofList (hlist w.toList hw x.toList)).trans (by simp)

theorem notMem_after_card {h : ℤ} {n : ℕ} {s : String}
    (hs : field s ∉ ["CHIP", "ZIP3", "STATE", "CUST", "TDIF"]) :
    s ∉ (TokenizerPipeline.blockEntries n
      (((financialSteps log h incl bins).drop 8).map (fun e => (e.1, e.2.table)))).map Prod.fst := by
  intro hmem
  obtain ⟨e, he, rfl⟩ := List.mem_map.mp hmem
  obtain ⟨t, ht, i, hi⟩ := TokenizerPipeline.exists_of_mem_blockEntries he
  obtain ⟨step, hstep, rfl⟩ := List.mem_map.mp ht
  obtain ⟨x, hx⟩ := Tokenizer.eq_append_of_mem_table hi
  have hp := prefixStr_after_card step hstep
  have hno : ∀ w ∈ ["CHIP", "ZIP3", "STATE", "CUST", "TDIF"], '_' ∉ w.toList := by decide
  rw [show e.1 = step.2.prefixStr ++ "_" ++ x from hx, field_append (hno _ hp)] at hs
  exact hs hp

theorem month_eq_card (specialTokens : Dict String String) (log : ℚ → ℚ) (h : ℤ) (incl : Bool)
    (bins : ℕ) :
    ∃ i, (TokenizerPipeline.vocabularyOf specialTokens
        (financialTables log h incl bins)).vocab.get? "MONTH_12" = some i ∧
      (TokenizerPipeline.vocabularyOf specialTokens
        (financialTables log h incl bins)).vocab.get? "CARD_0" = some i := by
  have hsize : (fixedStep "MONTH" 1 12 2).table.size = 12 := by
    rw [Dict.size, table_month]
    rfl
  -- the writes before the month, and the writes after the card
  obtain ⟨l, m, after, hafter, hwrites⟩ : ∃ l m after,
      (∀ s, field s ∉ ["CHIP", "ZIP3", "STATE", "CUST", "TDIF"] → s ∉ after.map Prod.fst) ∧
      (TokenizerPipeline.specialIds specialTokens).entries ++
          TokenizerPipeline.blockEntries specialTokens.size (financialTables log h incl bins) =
        l ++ (GlobalVocab.shifted m (fixedStep "MONTH" 1 12 2).table ++
          (GlobalVocab.shifted (m + 12) (fixedStep "CARD" 0 9 0).table ++ after)) := by
    rw [financialTables, financialSteps_split, List.map_append,
      TokenizerPipeline.blockEntries_append, List.map_cons, List.map_cons,
      TokenizerPipeline.blockEntries, TokenizerPipeline.blockEntries, hsize, ← List.append_assoc]
    exact ⟨_, _, _, fun s hs => notMem_after_card hs, rfl⟩
  have hmonth : GlobalVocab.shifted m (fixedStep "MONTH" 1 12 2).table =
      (GlobalVocab.shifted m (fixedStep "MONTH" 1 12 2).table).take 11 ++
        [("MONTH_12", (m : ℤ) + 12)] := by
    rw [GlobalVocab.shifted, table_month]
    simp [add_comm]
  have hcard : GlobalVocab.shifted (m + 12) (fixedStep "CARD" 0 9 0).table =
      ("CARD_0", (m : ℤ) + 12) ::
        (GlobalVocab.shifted (m + 12) (fixedStep "CARD" 0 9 0).table).drop 1 := by
    rw [GlobalVocab.shifted, table_card]
    simp
  unfold TokenizerPipeline.vocabularyOf
  refine ⟨(m : ℤ) + 12, ?_, ?_⟩
  · simp only [hwrites]
    rw [hmonth, List.append_assoc, ← List.append_assoc, List.singleton_append]
    refine Dict.get?_setAll_append _ ?_
    rw [List.map_append, List.mem_append, not_or]
    refine ⟨?_, hafter _ (by decide)⟩
    simp [GlobalVocab.shifted, table_card]
  · simp only [hwrites]
    rw [hcard, ← List.append_assoc, List.cons_append]
    refine Dict.get?_setAll_append _ ?_
    rw [List.map_append, List.mem_append, not_or]
    refine ⟨?_, hafter _ (by decide)⟩
    simp [GlobalVocab.shifted, table_card]

/-- No fit gives a one-to-one vocabulary. -/
theorem fit_not_bijective (log : ℚ → ℚ) (cfg : FinancialConfig) {df : DataFrame}
    (hc : HasStepColumns cfg.includeTimeDelta df) :
    ∃ p, (financialPipeline log cfg).fit df = .ok p ∧ ¬ p.VocabBijective := by
  obtain ⟨p, hp, hv⟩ := fit_vocabulary log cfg hc
  refine ⟨p, hp, fun hb => ?_⟩
  obtain ⟨i, hmonth, hcard⟩ := month_eq_card
    (TokenizerPipeline.chooseSpecialTokens cfg.specialTokens) log cfg.merchantHashSize
    cfg.includeTimeDelta cfg.timeDeltaBins
  rw [← hv] at hmonth hcard
  exact absurd (hb.1 _ _ i hmonth hcard) (by decide)

/-- A frame without rows that has the given columns. -/
def emptyFrame (names : List String) : DataFrame where
  columns := Dict.ofList (names.map (fun k => (k, [])))
  numRows := 0
  length_eq := by
    intro c hc
    obtain ⟨e, he, rfl⟩ := List.mem_map.mp hc
    obtain ⟨k, -, rfl⟩ := List.mem_map.mp (Dict.mem_of_mem_entries_ofList he)
    rfl

theorem hasStepColumns_emptyFrame (includeTimeDelta : Bool) :
    HasStepColumns includeTimeDelta (emptyFrame (stepColumns includeTimeDelta)) := by
  intro k hk
  rw [emptyFrame, Dict.mem_keys_ofList, List.map_map]
  exact List.mem_map.mpr ⟨k, hk, rfl⟩

theorem fit_not_bijective_default :
    HasStepColumns false (emptyFrame (stepColumns false)) ∧
      ∃ p, (financialPipeline id {}).fit (emptyFrame (stepColumns false)) = .ok p ∧
        ¬ p.VocabBijective :=
  ⟨hasStepColumns_emptyFrame false, fit_not_bijective id {} (hasStepColumns_emptyFrame false)⟩

/-- With the default arguments, fitted on a frame without rows, the last month and the first card
have one id. -/
theorem fit_month_eq_card :
    ∃ p, (financialPipeline id {}).fit (emptyFrame (stepColumns false)) = .ok p ∧
      (∃ i, p.vocab.get? "MONTH_12" = some i ∧ p.vocab.get? "CARD_0" = some i) ∧
      ¬ p.VocabBijective := by
  obtain ⟨p, hp, hv⟩ := fit_vocabulary id {} (hasStepColumns_emptyFrame false)
  obtain ⟨i, hmonth, hcard⟩ := month_eq_card TokenizerPipeline.defaultSpecialTokens id 2000 false 32
  have hvocab : p.vocab = (TokenizerPipeline.vocabularyOf TokenizerPipeline.defaultSpecialTokens
      (financialTables id 2000 false 32)).vocab := congrArg TokenizerPipeline.Vocabulary.vocab hv
  rw [← hvocab] at hmonth hcard
  exact ⟨p, hp, ⟨i, hmonth, hcard⟩, fun hb => absurd (hb.1 _ _ i hmonth hcard) (by decide)⟩

/-! ### The tokenizer interface -/

/-- `_build_vocab_from_pipeline`: the numbering loop with steps built without data. -/
def buildVocabFromPipeline (p : TokenizerPipeline) : Except PyError TokenizerPipeline := do
  let s ← TokenizerPipeline.buildLoop (fun _ _ => .ok none) p.tokenizerOrder p p.numSpecialTokens
  TokenizerPipeline.buildGlobalVocab { s.1 with globalVocabSize := s.2, isFitted := true }

/-- The wrapper used for training: a copy of the vocabulary and the special ids. -/
structure FinancialTabularTokenizer where
  pipeline : TokenizerPipeline
  vocab : Dict String ℤ
  idToToken : Dict ℤ String
  padTokenId : ℤ
  bosTokenId : ℤ
  eosTokenId : ℤ
  sepTokenId : ℤ
  unkTokenId : ℤ

namespace FinancialTabularTokenizer

def init (log : ℚ → ℚ) (merchantHashSize : ℤ) (includeTimeDelta : Bool) :
    Except PyError FinancialTabularTokenizer := do
  let p ← buildVocabFromPipeline (financialPipeline log
    { merchantHashSize := merchantHashSize, includeTimeDelta := includeTimeDelta })
  .ok {
    pipeline := p
    vocab := p.vocab
    idToToken := p.idToToken
    padTokenId := (p.vocab.get? "<pad>").getD 0
    bosTokenId := (p.vocab.get? "<bos>").getD 1
    eosTokenId := (p.vocab.get? "<eos>").getD 2
    sepTokenId := (p.vocab.get? "<sep>").getD 3
    unkTokenId := (p.vocab.get? "<unk>").getD 4 }

/-- The property `vocab_size`. -/
def vocabSize (t : FinancialTabularTokenizer) : ℕ := t.vocab.size

/-- `tokenize`: split at white space. -/
def tokenize (text : String) : List String := words text

/-- `encode`: with a positive length the tokens are cut and padded to it. -/
def encode (t : FinancialTabularTokenizer) (text : String) (maxLength : Option ℕ) : List ℤ :=
  let tokens := tokenize text
  let tokens := match maxLength with
    | none => tokens
    | some 0 => tokens
    | some n =>
      let tokens := tokens.take n
      tokens ++ List.replicate (n - tokens.length) "<pad>"
  tokens.map (fun tok => (t.vocab.get? tok).getD t.unkTokenId)

/-- `decode`: unknown ids and padding are skipped. -/
def decode (t : FinancialTabularTokenizer) (tokenIds : List ℤ) : String :=
  String.intercalate " " (tokenIds.filterMap (fun tid =>
    match t.idToToken.get? tid with
    | some tok => if tok ≠ "" ∧ tok ≠ "<pad>" then some tok else none
    | none => none))

end FinancialTabularTokenizer

theorem buildVocabFromPipeline_eq {p : TokenizerPipeline} {tables : TokenizerPipeline.Tables}
    (h : p.HasSteps tables) :
    ∃ p', buildVocabFromPipeline p = .ok p' ∧ p.FittedAs p' tables := by
  obtain ⟨steps', hb, hloop⟩ := TokenizerPipeline.buildLoop_eq (fun _ _ => .ok none)
    p.numSpecialTokens h.flat (fun _ _ _ _ => ⟨none, rfl⟩)
  have hvocab := TokenizerPipeline.buildGlobalVocab_eq
    (p := { p.numbered steps' tables with isFitted := true }) h.order (hb.hasTables h.flat)
    (fun e he => Dict.get?_setAll_of_mem _
      (by rw [TokenizerPipeline.map_fst_offsets]; exact h.flat.nodup) he)
  have he : buildVocabFromPipeline p =
      TokenizerPipeline.buildGlobalVocab { p.numbered steps' tables with isFitted := true } := by
    unfold buildVocabFromPipeline
    rw [h.order, hloop]
    rfl
  rw [hvocab] at he
  exact ⟨_, he, hb, rfl, rfl, rfl, rfl, rfl, rfl, rfl, rfl, rfl⟩

theorem init_vocabulary (log : ℚ → ℚ) (merchantHashSize : ℤ) (includeTimeDelta : Bool) :
    ∃ t, FinancialTabularTokenizer.init log merchantHashSize includeTimeDelta = .ok t ∧
      t.vocab = t.pipeline.vocab ∧ t.idToToken = t.pipeline.idToToken ∧
      t.pipeline.vocabulary = TokenizerPipeline.vocabularyOf TokenizerPipeline.defaultSpecialTokens
        (financialTables log merchantHashSize includeTimeDelta 32) := by
  obtain ⟨p, hp, hfit⟩ := buildVocabFromPipeline_eq (hasSteps_financialPipeline log
    { merchantHashSize := merchantHashSize, includeTimeDelta := includeTimeDelta })
  refine ⟨_, by rw [FinancialTabularTokenizer.init, hp]; rfl, rfl, rfl, ?_⟩
  rw [hfit.vocabulary_eq (fresh_financialPipeline log _), specialTokens_financialPipeline]
  rfl

end RayTfm.Tfm
