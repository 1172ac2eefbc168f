import RayTfm.Tfm.GpuTokenizer

/-! # Corpus lines

`to_corpus_lines` of `pipeline.py` writes the training data as text: the tokens of a transaction
joined with spaces, the transactions of a chunk joined with `<sep>`, and the line encoded again by
`FinancialTabularTokenizer`.  The Ray edition works on ids instead (`groupSequences`).

A line encodes to the row that `build_sequences` makes of the same transactions (`encode_line`),
and inside a group the rows are already in the order of time, so the two ways give the same rows
as long as they group alike.  One groups by the pair of user and card, the other by
`user * 100 + card` on 64-bit integers (`corpusAgrees_iff`). -/

namespace RayTfm.Tfm

/-! ### Tokens are words of the vocabulary -/

theorem wordTokens_values {prefixStr default : String} {values : List Value}
    (hp : NoSpace prefixStr) (hd : NoSpace default) (hv : ∀ v ∈ values, NoSpace v.text) :
    (Tokenizer.mapping (.init prefixStr none (some values) none default none)).WordTokens := by
  refine wordTokens_mapping hp hd (by simp [MappingTokenizer.init]) (fun l hl => ?_)
  obtain ⟨e, he, rfl⟩ := List.mem_map.mp hl
  obtain ⟨v, hmem, rfl⟩ := List.mem_map.mp (Dict.mem_of_mem_entries_ofList he)
  exact hv v hmem

theorem noSpace_knownMccs : ∀ m ∈ knownMccs, NoSpace (toString m) := by
  decide +kernel

theorem wordTokens_financialSteps (log : ℚ → ℚ) (h : ℤ) (bins : ℕ) :
    ∀ e ∈ financialSteps log h false bins, e.2.WordTokens := by
  intro e he
  simp only [financialSteps, Bool.false_eq_true, if_false, List.append_nil, List.mem_cons,
    List.not_mem_nil, or_false] at he
  obtain rfl | rfl | rfl | rfl | rfl | rfl | rfl | rfl | rfl | rfl | rfl | rfl := he
  · exact wordTokens_fixedVocab (by decide) (by decide)
  · exact wordTokens_categoricalHash (by decide)
  · exact wordTokens_mapping (by decide) (by decide) (by decide) (by decide)
  · refine wordTokens_values (by decide) (by decide) (fun v hv => ?_)
    obtain ⟨m, hm, rfl⟩ := List.mem_map.mp hv
    exact noSpace_knownMccs m hm
  · exact wordTokens_fixedVocab (by decide) (by decide)
  · exact wordTokens_fixedVocab (by decide) (by decide)
  · exact wordTokens_fixedVocab (by decide) (by decide)
  · exact wordTokens_fixedVocab (by decide) (by decide)
  · exact wordTokens_mapping (by decide) (by decide) (by decide) (by decide)
  · exact wordTokens_fixedVocab (by decide) (by decide)
  · refine wordTokens_values (by decide) (by decide) (fun v hv => ?_)
    obtain ⟨s, hs, rfl⟩ := List.mem_map.mp hv
    revert s
    decide
  · exact wordTokens_fixedVocab (by decide) (by decide)

theorem exists_fieldWords (log : ℚ → ℚ) {h : ℤ} (hh : 1 ≤ h) (t : Transaction) :
    ∃ toks : List String, fieldTokens log h t = toks.map some ∧ ∀ tok ∈ toks, IsWord tok := by
  have hsteps : ∀ l : List (String × Tokenizer),
      (∀ e ∈ l, e.2.HasToken log (t.cell e.1) ∧ e.2.WordTokens) →
      ∃ toks : List String, l.map (fun e => e.2.tokenOf log (t.cell e.1)) = toks.map some ∧
        ∀ tok ∈ toks, IsWord tok := by
    intro l
    induction l with
    | nil => exact fun _ => ⟨[], rfl, by simp⟩
    | cons e l ih =>
      intro hl
      obtain ⟨he, hw⟩ := hl e (.head _)
      obtain ⟨tok, hmem, htok⟩ := he.tokenOf
      obtain ⟨toks, htoks, hwords⟩ := ih (fun e' he' => hl e' (.tail _ he'))
      refine ⟨tok :: toks, ?_, ?_⟩
      · rw [List.map_cons, htok, htoks, List.map_cons]
      · intro w hw'
        obtain rfl | hw' := List.mem_cons.mp hw'
        · exact hw w hmem
        · exact hwords w hw'
  exact hsteps _ (fun e he => ⟨hasToken_cell log hh 32 t e he, wordTokens_financialSteps log h 32 e he⟩)

/-- The special tokens keep their ids: no step has a token without an underscore. -/
theorem get?_special (log : ℚ → ℚ) (h : ℤ) :
    ∀ e ∈ [("<pad>", padTokenId), ("<bos>", bosTokenId), ("<eos>", eosTokenId),
      ("<sep>", sepTokenId), ("<unk>", unkTokenId)], (defaultVocab log h).get? e.1 = some e.2 := by
  have hspecial : (TokenizerPipeline.specialIds TokenizerPipeline.defaultSpecialTokens).entries =
      [("<pad>", padTokenId), ("<bos>", bosTokenId), ("<eos>", eosTokenId), ("<sep>", sepTokenId),
        ("<unk>", unkTokenId)] := by
    decide
  intro e he
  have hno : '_' ∉ e.1.toList := by
    revert e
    decide
  have hn : ((TokenizerPipeline.specialIds TokenizerPipeline.defaultSpecialTokens).entries.map
      Prod.fst).Nodup := Dict.keys_nodup _
  rw [← hspecial] at he
  obtain ⟨l₁, l₂, hl⟩ := List.append_of_mem he
  rw [hl, List.map_append, List.map_cons, List.nodup_append] at hn
  unfold defaultVocab TokenizerPipeline.vocabularyOf
  simp only [hl]
  rw [List.append_assoc, List.cons_append]
  refine Dict.get?_setAll_append _ ?_
  rw [List.map_append, List.mem_append, not_or]
  refine ⟨(List.nodup_cons.mp hn.2.1).1, fun hmem => hno ?_⟩
  obtain ⟨b, hb, hbe⟩ := List.mem_map.mp hmem
  obtain ⟨t, ht, i, hi⟩ := TokenizerPipeline.exists_of_mem_blockEntries hb
  obtain ⟨step, -, rfl⟩ := List.mem_map.mp ht
  obtain ⟨x, hx⟩ := Tokenizer.eq_append_of_mem_table hi
  rw [← hbe, show b.1 = step.2.prefixStr ++ "_" ++ x from hx]
  simp

/-! ### Lines -/

/-- `str.cat(others, sep=" ")` on one row: null if one of the texts is. -/
def strCat (cells : List (Option String)) : Option String :=
  (cells.mapM id).map (String.intercalate " ")

/-- `_fmt`: `join` rejects what is not a string. -/
def formatLine (txns : List (Option String)) : Except PyError String :=
  match txns.mapM id with
  | some texts => .ok ("<bos> " ++ String.intercalate " <sep> " texts ++ " <eos>")
  | none => .error .typeError

/-- The texts of `n` transactions, from the token columns. -/
def txnTexts (n : ℕ) (columns : List TokenColumn) : List (Option String) :=
  (List.range n).map (fun i => strCat (columns.map (fun col => (col[i]?).join)))

/-- `to_corpus_lines` for a positive chunk size; `keys` are the rows of the group columns. -/
def toCorpusLines {K : Type} [DecidableEq K] (tokenDf : TokenizerPipeline.TokenFrame) (keys : List K)
    (chunkSize : ℕ) : Except PyError (List String) :=
  if tokenDf.values = [] then .error .indexError
  else
    let work := keys.zip (txnTexts keys.length tokenDf.values)
    (numberedGroups Prod.fst chunkSize work).mapM (fun g => formatLine (g.map Prod.snd))

/-- `groupby("uc_key").map_groups(build_sequences)`. -/
def groupSequences (rows : List TokenizedRow) (seqLength chunkSize : ℕ) :
    Except PyError (List (List ℤ)) := do
  let parts ← (groups TokenizedRow.ucKey rows).mapM (fun g => buildSequences g seqLength chunkSize)
  .ok parts.flatten

theorem mapM_id_map {α β : Type} {f : α → Option β} {g : α → β} {l : List α}
    (h : ∀ a ∈ l, f a = some (g a)) : (l.map f).mapM id = some (l.map g) := by
  rw [List.map_congr_left h, ← mapM_map_of_leftInverse (f := some) (g := id) (fun _ _ => rfl),
    List.map_map]
  rfl

/-- The text of a processed row. -/
def txnText (log : ℚ → ℚ) (h : ℤ) (t : Transaction) : String :=
  String.intercalate " " ((fieldTokens log h t).filterMap id)

variable {log : ℚ → ℚ} {h : ℤ}

theorem strCat_fieldTokens (hh : 1 ≤ h) (t : Transaction) :
    strCat (fieldTokens log h t) = some (txnText log h t) := by
  obtain ⟨toks, htoks, -⟩ := exists_fieldWords log hh t
  rw [strCat, txnText, htoks, mapM_map_of_leftInverse (f := some) (g := id) (fun _ _ => rfl)]
  simp

theorem words_txnText (hh : 1 ≤ h) (t : Transaction) :
    (words (txnText log h t)).map (fun tok => tokenId (defaultVocab log h) (some tok)) =
      fieldIds log h t := by
  obtain ⟨toks, htoks, hwords⟩ := exists_fieldWords log hh t
  rw [txnText, fieldIds, htoks, List.filterMap_map, List.map_map]
  simp only [CompTriple.comp_eq, List.filterMap_some]
  rw [words_intercalate_of_isWord hwords]
  rfl

/-- The line of a chunk. -/
def lineOf (log : ℚ → ℚ) (h : ℤ) (chunk : List Transaction) : String :=
  "<bos> " ++ String.intercalate " <sep> " (chunk.map (txnText log h)) ++ " <eos>"

theorem words_lineOf (log : ℚ → ℚ) (h : ℤ) (chunk : List Transaction) :
    words (lineOf log h chunk) =
      "<bos>" :: (["<sep>"].intercalate (chunk.map (fun t => words (txnText log h t))) ++
        ["<eos>"]) := by
  have hassoc : lineOf log h chunk = "<bos>" ++ " " ++
      (String.intercalate (" " ++ "<sep>" ++ " ") (chunk.map (txnText log h)) ++ " " ++
        "<eos>") := by
    rw [lineOf, show "<bos> " = "<bos>" ++ " " by decide, show " <eos>" = " " ++ "<eos>" by decide,
      show " <sep> " = " " ++ "<sep>" ++ " " by decide]
    simp only [String.append_assoc]
  rw [hassoc, words_append_space, words_append_space, words_intercalate_sep (by decide),
    List.map_map]
  rfl

variable {t : FinancialTabularTokenizer}

theorem encode_line (hh : 1 ≤ h)
    (hvocab : t.vocab = defaultVocab log h) (hunk : t.unkTokenId = unkTokenId) {L : ℕ} (hL : 1 ≤ L)
    (chunk : List Transaction) :
    t.encode (lineOf log h chunk) (some L) =
      padTo L (chunkIds (chunk.map (fieldIds log h))) := by
  have hspecial := get?_special log h
  simp only [List.mem_cons, List.not_mem_nil, or_false, forall_eq_or_imp, forall_eq] at hspecial
  obtain ⟨hpad, hbos, heos, hsep, -⟩ := hspecial
  let ids : String → ℤ := fun tok => tokenId (defaultVocab log h) (some tok)
  have hids : (words (lineOf log h chunk)).map ids = chunkIds (chunk.map (fieldIds log h)) := by
    have hrows : (chunk.map (fun t => words (txnText log h t))).map (List.map ids) =
        chunk.map (fieldIds log h) := by
      rw [List.map_map]
      exact List.map_congr_left (fun t _ => words_txnText hh t)
    have hbos' : ids "<bos>" = bosTokenId := by simp only [ids, tokenId, Option.bind_some, hbos]; rfl
    have heos' : ids "<eos>" = eosTokenId := by simp only [ids, tokenId, Option.bind_some, heos]; rfl
    have hsep' : ids "<sep>" = sepTokenId := by simp only [ids, tokenId, Option.bind_some, hsep]; rfl
    rw [words_lineOf, chunkIds_eq, List.map_cons, List.map_append, map_intercalate, hrows,
      List.map_cons, List.map_nil, hbos', heos', hsep']
  have hpad' : ids "<pad>" = padTokenId := by simp only [ids, tokenId, Option.bind_some, hpad]; rfl
  obtain ⟨n, rfl⟩ : ∃ n, L = n + 1 := ⟨L - 1, by omega⟩
  have hencode : t.encode (lineOf log h chunk) (some (n + 1)) =
      ((words (lineOf log h chunk)).take (n + 1) ++ List.replicate
        (n + 1 - ((words (lineOf log h chunk)).take (n + 1)).length) "<pad>").map ids := by
    unfold FinancialTabularTokenizer.encode
    rw [hvocab, hunk]
    rfl
  rw [hencode, List.map_append, List.map_take, List.map_replicate, hpad', hids, padTo, ← hids,
    ← List.map_take, List.length_map]

theorem txnTexts_map {α : Type} (rows : List α) (fs : List (α → Option String)) :
    txnTexts rows.length (fs.map (fun f => rows.map f)) =
      rows.map (fun t => strCat (fs.map (fun f => f t))) := by
  refine List.ext_getElem (by simp [txnTexts]) (fun i hi hi' => ?_)
  simp only [txnTexts, List.getElem_map, List.getElem_range, List.map_map]
  congr 1
  refine List.map_congr_left (fun f _ => ?_)
  rw [List.length_map] at hi'
  simp [hi']

theorem txnTexts_tokenFrame (hh : 1 ≤ h) (rows : List Transaction) :
    txnTexts rows.length (tokenFrame log h rows).values =
      rows.map (fun t => some (txnText log h t)) := by
  have htexts := txnTexts_map rows ((financialSteps log h false 32).map
    (fun e (t : Transaction) => e.2.tokenOf log (t.cell e.1)))
  rw [List.map_map] at htexts
  rw [values_tokenFrame]
  refine htexts.trans (List.map_congr_left (fun t _ => ?_))
  rw [List.map_map]
  exact strCat_fieldTokens hh t

theorem toCorpusLines_eq (hh : 1 ≤ h) (proc : List Transaction) (c : ℕ) :
    toCorpusLines (tokenFrame log h proc) (proc.map (fun t => (t.user, t.card))) c =
      .ok ((numberedGroups (fun t : Transaction => (t.user, t.card)) c proc).map
        (lineOf log h)) := by
  have hne : (tokenFrame log h proc).values ≠ [] := by
    rw [values_tokenFrame]
    simp [financialSteps]
  have hwork : (proc.map (fun t => (t.user, t.card))).zip
      (proc.map (fun t => some (txnText log h t))) =
      proc.map (fun t => ((t.user, t.card), some (txnText log h t))) := by
    exact List.zip_map' ..
  have htexts : txnTexts proc.length (tokenFrame log h proc).values = _ :=
    txnTexts_tokenFrame hh proc
  unfold toCorpusLines
  rw [if_neg hne, List.length_map, htexts, hwork]
  simp only [numberedGroups_map, List.mapM_map]
  refine mapM_eq_ok (fun g _ => ?_)
  rw [Function.comp_apply, List.map_map, formatLine]
  simp only [Function.comp_def]
  rw [mapM_id_map (fun _ _ => rfl)]
  rfl

theorem groupSequences_eq (log : ℚ → ℚ) (h : ℤ) (proc : List Transaction) (L : ℕ) {c : ℕ}
    (hc : 0 < c) :
    groupSequences (proc.map (GPUTokenizer.rowOf log h)) L c =
      .ok ((groups GPUTokenizer.ucKey proc).flatMap (fun g =>
        (chunks c ((sortBy (fun t : Transaction => t.timeFull.fdiv 1000000000) g).map
          (fieldIds log h))).map (fun chunk => padTo L (chunkIds chunk)))) := by
  have hgroup : ∀ g : List Transaction,
      buildSequences (g.map (GPUTokenizer.rowOf log h)) L c =
        .ok ((chunks c ((sortBy (fun t : Transaction => t.timeFull.fdiv 1000000000) g).map
          (fieldIds log h))).map (fun chunk => padTo L (chunkIds chunk))) := by
    intro g
    rw [buildSequences_eq _ _ hc, sortBy_map, List.map_map]
    rfl
  unfold groupSequences
  rw [groups_map, List.mapM_map]
  simp only [Function.comp_def]
  rw [mapM_eq_ok (fun g _ => hgroup g), ok_bind]
  rfl

variable {raw : List RawTransaction} {proc : List Transaction}

/-- Inside a group of one user and card the rows are in the order of time. -/
theorem sortBy_group {cudf : Cudf} (hp : preprocess cudf raw = .ok proc) {g : List Transaction}
    (hg : g ∈ groups (fun t : Transaction => (t.user, t.card)) proc) :
    sortBy (fun t : Transaction => t.timeFull.fdiv 1000000000) g = g := by
  have hsorted := List.pairwise_map.mp (preprocess_sorted hp)
  refine sortBy_eq_self _ (List.Pairwise.imp_of_mem (fun {a b} ha hb hle => ?_)
    (hsorted.sublist (sublist_of_mem_groups hg)))
  have hkey : (a.user, a.card) = (b.user, b.card) := (mem_groups hg a ha b hb).2.2
  have hab := Prod.mk.inj hkey
  have htime : a.timeFull ≤ b.timeFull := by
    obtain hlt | ⟨-, hlt | ⟨-, hle⟩⟩ := hle
    · exact absurd hab.1 hlt.ne
    · exact absurd hab.2 hlt.ne
    · exact hle
  have hpos : (0 : ℤ) ≤ 1000000000 := by decide
  rw [Int.fdiv_eq_ediv_of_nonneg _ hpos, Int.fdiv_eq_ediv_of_nonneg _ hpos]
  exact Int.ediv_le_ediv (by decide) htime

/-! ### The two ways agree -/

/-- For every chunk size and length, the rows of the groups are the encoded corpus lines, up to
order. -/
def CorpusAgrees (t : FinancialTabularTokenizer) (rows : List TokenizedRow)
    (tokenDf : TokenizerPipeline.TokenFrame) (keys : List (ℤ × ℤ)) : Prop :=
  ∀ c L : ℕ, 1 ≤ c → 1 ≤ L → ∃ seqs lines,
    groupSequences rows L c = .ok seqs ∧ toCorpusLines tokenDf keys c = .ok lines ∧
    seqs.Perm (lines.map (fun line => t.encode line (some L)))

/-- Different pairs of user and card in the table have different keys. -/
def KeysApart (proc : List Transaction) : Prop :=
  ∀ x ∈ proc, ∀ y ∈ proc, x.user * 100 + x.card ≡ y.user * 100 + y.card [ZMOD 2 ^ 64] →
    x.user = y.user ∧ x.card = y.card

theorem ucKey_eq_iff (x y : Transaction) : GPUTokenizer.ucKey x = GPUTokenizer.ucKey y ↔
    x.user * 100 + x.card ≡ y.user * 100 + y.card [ZMOD 2 ^ 64] := by
  have hcast : ((2 ^ 64 : ℕ) : ℤ) = 2 ^ 64 := by norm_num
  unfold GPUTokenizer.ucKey Int.ModEq
  rw [← hcast]
  constructor
  · intro hkey
    have hmod := congrArg (· % ((2 ^ 64 : ℕ) : ℤ)) hkey
    simpa only [Int.bmod_emod] using hmod
  · intro hmod
    rw [← Int.emod_bmod, hmod, Int.emod_bmod]

/-- Where the two ways agree the keys are apart: one chunk for every group, so a key shared by two
pairs leaves fewer rows than lines. -/
theorem keysApart_of_agrees (hh : 1 ≤ h)
    (hagree : CorpusAgrees t (proc.map (GPUTokenizer.rowOf log h)) (tokenFrame log h proc)
      (proc.map (fun t => (t.user, t.card)))) : KeysApart proc := by
  intro x hx y hy hxy
  by_contra hne
  have hc : 1 ≤ proc.length := List.length_pos_of_mem hx
  obtain ⟨seqs, lines, hseqs, hlines, hperm⟩ := hagree proc.length 1 hc le_rfl
  have hone : ∀ {K : Type} [DecidableEq K] (key : Transaction → K), ∀ g ∈ groups key proc,
      chunks proc.length g = [g] := by
    intro K _ key g hg
    exact chunks_of_length_le (ne_nil_of_mem_groups hg) (sublist_of_mem_groups hg).length_le
  have hlen := hperm.length_eq
  rw [groupSequences_eq log h proc 1 hc] at hseqs
  rw [toCorpusLines_eq hh] at hlines
  cases hseqs
  cases hlines
  have hrows : ∀ g ∈ groups GPUTokenizer.ucKey proc, ((chunks proc.length
      ((sortBy (fun t : Transaction => t.timeFull.fdiv 1000000000) g).map (fieldIds log h))).map
        (fun chunk => padTo 1 (chunkIds chunk))).length = 1 := by
    intro g hg
    have hsort := (isStableSort_sortBy
      (fun t : Transaction => t.timeFull.fdiv 1000000000) g).perm.length_eq
    rw [List.length_map, length_chunks, List.length_map, hsort, ← length_chunks, hone _ g hg,
      List.length_singleton]
  rw [List.length_flatMap, List.map_congr_left hrows, List.length_map, List.length_map,
    (numberedGroups_perm _ hc proc).length_eq, List.length_flatMap,
    List.map_congr_left (fun g hg => congrArg List.length (hone _ g hg))] at hlen
  simp only [List.map_const', List.sum_replicate, List.length_singleton, smul_eq_mul,
    mul_one] at hlen
  have hlt := length_groups_lt (fun t : Transaction => (t.user, t.card))
    (fun p => (p.1 * 100 + p.2).bmod (2 ^ 64)) hx hy (fun he => hne (Prod.mk.inj he))
    ((ucKey_eq_iff x y).mpr hxy)
  exact hlt.ne hlen

/-- Where the keys are apart the two ways group alike, and every chunk gives one row. -/
theorem agrees_of_keysApart (hh : 1 ≤ h) {cudf : Cudf} (hp : preprocess cudf raw = .ok proc)
    (hvocab : t.vocab = defaultVocab log h) (hunk : t.unkTokenId = unkTokenId)
    (hkeys : KeysApart proc) :
    CorpusAgrees t (proc.map (GPUTokenizer.rowOf log h)) (tokenFrame log h proc)
      (proc.map (fun t => (t.user, t.card))) := by
  intro c L hc hL
  have hgroups : groups GPUTokenizer.ucKey proc =
      groups (fun t : Transaction => (t.user, t.card)) proc := by
    refine groups_congr proc (fun x hx y hy => ⟨fun he => ?_, fun he => ?_⟩)
    · exact Prod.mk.injEq .. ▸ hkeys x hx y hy ((ucKey_eq_iff x y).mp he)
    · obtain ⟨hu, hcard⟩ := Prod.mk.inj he
      rw [GPUTokenizer.ucKey, GPUTokenizer.ucKey, hu, hcard]
  refine ⟨_, _, groupSequences_eq log h proc L hc, toCorpusLines_eq hh proc c, ?_⟩
  have hrows : ∀ g ∈ groups (fun t : Transaction => (t.user, t.card)) proc,
      (chunks c ((sortBy (fun t : Transaction => t.timeFull.fdiv 1000000000) g).map
        (fieldIds log h))).map (fun chunk => padTo L (chunkIds chunk)) =
      (chunks c g).map (fun chunk => t.encode (lineOf log h chunk) (some L)) := by
    intro g hg
    rw [sortBy_group hp hg, chunks_map, List.map_map]
    exact List.map_congr_left (fun chunk _ => (encode_line hh hvocab hunk hL chunk).symm)
  rw [hgroups, List.flatMap_congr hrows, List.map_map, ← List.map_flatMap]
  exact ((numberedGroups_perm _ hc proc).map _).symm

/-- What the actor emits, the tokenizer that reads the lines, and the token table. -/
theorem exists_corpus (cudf : Cudf) (log : ℚ → ℚ) {h : ℤ} (hh : 1 ≤ h)
    (batches : List (List RawTransaction)) (hp : preprocess cudf raw = .ok proc) :
    ∃ a t, ((GPUTokenizer.init log h).afterBatches cudf log batches).call cudf log raw =
        .ok (proc.map (GPUTokenizer.rowOf log h), a) ∧
      FinancialTabularTokenizer.init log h false = .ok t ∧
      a.pipeline.transform log (toFrame proc) = .ok (tokenFrame log h proc) ∧
      t.vocab = defaultVocab log h ∧ t.unkTokenId = unkTokenId := by
  obtain ⟨a, hcall, ha⟩ := GPUTokenizer.call_eq hh
    (GPUTokenizer.inv_afterBatches hh (.inl rfl) batches) hp
  obtain ⟨t, ht, hvocab, -, hv⟩ := init_vocabulary log h false
  have hvocab' : t.vocab = defaultVocab log h :=
    hvocab.trans (congrArg TokenizerPipeline.Vocabulary.vocab hv)
  refine ⟨a, t, hcall, ht, GPUTokenizer.transform_toFrame hh ha.steps proc, hvocab', ?_⟩
  obtain ⟨p, -, hinit⟩ := bind_eq_ok.mp ht
  cases hinit
  rw [show p.vocab = defaultVocab log h from hvocab',
    get?_special log h ("<unk>", unkTokenId) (by simp)]
  rfl

/-- The two ways to build training sequences agree on a preprocessed table, for every chunk size
and length, exactly if no two pairs of user and card share a 64-bit key. -/
theorem corpusAgrees_iff (cudf : Cudf) (log : ℚ → ℚ) {h : ℤ} (hh : 1 ≤ h)
    (batches : List (List RawTransaction)) {raw : List RawTransaction} {proc : List Transaction}
    (hp : preprocess cudf raw = .ok proc) :
    ∃ rows a t tokenDf,
      ((GPUTokenizer.init log h).afterBatches cudf log batches).call cudf log raw = .ok (rows, a) ∧
      FinancialTabularTokenizer.init log h false = .ok t ∧
      a.pipeline.transform log (toFrame proc) = .ok tokenDf ∧
      (CorpusAgrees t rows tokenDf (proc.map (fun t => (t.user, t.card))) ↔ KeysApart proc) := by
  obtain ⟨a, t, hcall, ht, htransform, hvocab, hunk⟩ := exists_corpus cudf log hh batches hp
  exact ⟨_, a, t, _, hcall, ht, htransform, keysApart_of_agrees hh,
    agrees_of_keysApart hh hp hvocab hunk⟩

theorem mem_preprocess_example {l : List (ℤ × ℤ)}
    (hp : preprocess exampleCudf (l.map (fun p => exampleTransaction p.1 p.2)) = .ok proc)
    (p : ℤ × ℤ) : p ∈ proc.map (fun t => (t.user, t.card)) ↔
      p ∈ l.map (fun p => (p.1, clip 0 9 p.2)) := by
  have hrows : (gatheredRows exampleCudf (l.map (fun p => exampleTransaction p.1 p.2))).map
      (fun r => ((derived exampleCudf r).user, (derived exampleCudf r).card)) =
      (gatheredRows exampleCudf (l.map (fun p => exampleTransaction p.1 p.2))).map
        (fun r => (r.user, clip 0 9 r.card)) := by
    refine List.map_congr_left (fun r hr => ?_)
    obtain ⟨hu, hc⟩ := derived_user_card hp r ((gatheredRows_perm _ _).mem_iff.mp hr)
    rw [hu, hc]
  rw [map_preprocess hp (fun _ => rfl), hrows, ((gatheredRows_perm _ _).map _).mem_iff,
    List.map_map]
  rfl

/-- Two cards of user 0 and one of user 7. -/
theorem corpusAgrees_example :
    ∃ proc rows a t tokenDf,
      preprocess exampleCudf ([(0, 3), (7, 3), (0, 4)].map
        (fun p => exampleTransaction p.1 p.2)) = .ok proc ∧
      ((GPUTokenizer.init id 2000).afterBatches exampleCudf id []).call exampleCudf id
        ([(0, 3), (7, 3), (0, 4)].map (fun p => exampleTransaction p.1 p.2)) = .ok (rows, a) ∧
      FinancialTabularTokenizer.init id 2000 false = .ok t ∧
      a.pipeline.transform id (toFrame proc) = .ok tokenDf ∧
      CorpusAgrees t rows tokenDf (proc.map (fun t => (t.user, t.card))) := by
  obtain ⟨proc, hp⟩ := preprocess_example [(0, 3), (7, 3), (0, 4)]
  obtain ⟨rows, a, t, tokenDf, hcall, ht, htransform, hiff⟩ :=
    corpusAgrees_iff exampleCudf id (h := 2000) (by decide) [] hp
  refine ⟨proc, rows, a, t, tokenDf, hp, hcall, ht, htransform, hiff.mpr ?_⟩
  intro x hx y hy hxy
  have hx' := (mem_preprocess_example hp (x.user, x.card)).mp (List.mem_map.mpr ⟨x, hx, rfl⟩)
  have hy' := (mem_preprocess_example hp (y.user, y.card)).mp (List.mem_map.mpr ⟨y, hy, rfl⟩)
  have hsmall : ∀ p ∈ [(0, 3), (7, 3), (0, 4)].map (fun p : ℤ × ℤ => (p.1, clip 0 9 p.2)),
      ∀ q ∈ [(0, 3), (7, 3), (0, 4)].map (fun p : ℤ × ℤ => (p.1, clip 0 9 p.2)),
        (p.1 * 100 + p.2) % 2 ^ 64 = (q.1 * 100 + q.2) % 2 ^ 64 → p.1 = q.1 ∧ p.2 = q.2 := by
    decide
  exact hsmall _ hx' _ hy' hxy

/-- Users 0 and `2 ^ 62` share a key: `100 * 2 ^ 62` is a multiple of `2 ^ 64`. -/
theorem corpus_differs_overflow :
    ∃ proc rows a t tokenDf,
      preprocess exampleCudf ([(0, 3), (2 ^ 62, 3)].map
        (fun p => exampleTransaction p.1 p.2)) = .ok proc ∧
      ((GPUTokenizer.init id 2000).afterBatches exampleCudf id []).call exampleCudf id
        ([(0, 3), (2 ^ 62, 3)].map (fun p => exampleTransaction p.1 p.2)) = .ok (rows, a) ∧
      FinancialTabularTokenizer.init id 2000 false = .ok t ∧
      a.pipeline.transform id (toFrame proc) = .ok tokenDf ∧
      ¬ CorpusAgrees t rows tokenDf (proc.map (fun t => (t.user, t.card))) := by
  obtain ⟨proc, hp⟩ := preprocess_example [(0, 3), (2 ^ 62, 3)]
  have hh : (1 : ℤ) ≤ 2000 := by decide
  obtain ⟨a, t, hcall, ht, htransform, -⟩ := exists_corpus exampleCudf id hh [] hp
  refine ⟨proc, _, a, t, _, hp, hcall, ht, htransform, fun hagree => ?_⟩
  have hkeys := keysApart_of_agrees hh hagree
  obtain ⟨x, hx, hxe⟩ := List.mem_map.mp ((mem_preprocess_example hp (0, 3)).mpr (by decide))
  obtain ⟨y, hy, hye⟩ := List.mem_map.mp ((mem_preprocess_example hp (2 ^ 62, 3)).mpr (by decide))
  obtain ⟨hxu, hxc⟩ := Prod.mk.inj hxe
  obtain ⟨hyu, hyc⟩ := Prod.mk.inj hye
  have huser := (hkeys x hx y hy (by rw [hxu, hxc, hyu, hyc]; decide)).1
  rw [hxu, hyu] at huser
  exact absurd huser (by decide)

end RayTfm.Tfm
