import RayTfm.Tfm.Preprocess
import RayTfm.Tfm.Sequences

/-! # The tokenizer actor

`GPUTokenizer` of `ray_tokenize.py`: a stateful actor that preprocesses every batch, fits its
pipeline on the first one, and emits for each transaction the field ids, the group key
`user * 100 + card`, the time in seconds and the fraud label.

The pipeline's vocabulary does not depend on the batch it is fitted on, so the ids of a
transaction are a function of the transaction (`fieldIds`), whatever the actor has seen before
(`call_eq`, `data_independence`).  The group key does not separate all cards: `preprocess` clips
the card to `0..9` before the key is computed (`ucKey_separates_iff`). -/

namespace RayTfm.Tfm

/-! ### Tokens of a processed row -/

theorem hasToken_cell (log : ℚ → ℚ) {h : ℤ} (hh : 1 ≤ h) (bins : ℕ) (t : Transaction) :
    ∀ e ∈ financialSteps log h false bins, e.2.HasToken log (t.cell e.1) := by
  intro e he
  simp only [financialSteps, Bool.false_eq_true, if_false, List.append_nil, List.mem_cons,
    List.not_mem_nil, or_false] at he
  obtain rfl | rfl | rfl | rfl | rfl | rfl | rfl | rfl | rfl | rfl | rfl | rfl := he
  · exact hasToken_fixedVocab log _ _ (by decide) _
  · exact hasToken_categoricalHash log _ hh _
  · exact hasToken_range log _ _ _ _
  · exact hasToken_direct log (by decide) (hasDirectMap_init_values (by simp [knownMccs])) _
  · exact hasToken_fixedVocab log _ _ (by decide) _
  · exact hasToken_fixedVocab log _ _ (by decide) _
  · exact hasToken_fixedVocab log _ _ (by decide) _
  · exact hasToken_fixedVocab log _ _ (by decide) _
  · exact hasToken_direct log (by decide) (by decide) _
  · exact hasToken_fixedVocab log _ _ (by decide) _
  · exact hasToken_direct log (by decide) (hasDirectMap_init_values (by simp [allStates])) _
  · exact hasToken_fixedVocab log _ _ (by decide) _

/-- The tokens of a processed row, one for each step. -/
def fieldTokens (log : ℚ → ℚ) (h : ℤ) (t : Transaction) : List (Option String) :=
  (financialSteps log h false 32).map (fun e => e.2.tokenOf log (t.cell e.1))

/-- The token table of processed rows, one column for each step. -/
def tokenFrame (log : ℚ → ℚ) (h : ℤ) (rows : List Transaction) : TokenizerPipeline.TokenFrame :=
  Dict.ofList ((financialSteps log h false 32).map
    (fun e => (e.1, rows.map (fun t => e.2.tokenOf log (t.cell e.1)))))

theorem values_tokenFrame (log : ℚ → ℚ) (h : ℤ) (rows : List Transaction) :
    (tokenFrame log h rows).values = (financialSteps log h false 32).map
      (fun e => rows.map (fun t => e.2.tokenOf log (t.cell e.1))) := by
  have hn : (((financialSteps log h false 32).map (fun e =>
      (e.1, rows.map (fun t => e.2.tokenOf log (t.cell e.1))))).map Prod.fst).Nodup := by
    rw [List.map_map]
    have hcols := stepColumns_nodup false
    rwa [← map_fst_financialSteps log h false 32] at hcols
  rw [tokenFrame, Dict.values, Dict.entries_ofList hn, List.map_map]
  rfl

/-- The vocabulary of the default configuration. -/
def defaultVocab (log : ℚ → ℚ) (h : ℤ) : Dict String ℤ :=
  (TokenizerPipeline.vocabularyOf TokenizerPipeline.defaultSpecialTokens
    (financialTables log h false 32)).vocab

/-- A token's id; unknown and missing tokens get the unknown id. -/
def tokenId (vocab : Dict String ℤ) (tok : Option String) : ℤ :=
  (tok.bind vocab.get?).getD unkTokenId

/-- The field ids of a processed row. -/
def fieldIds (log : ℚ → ℚ) (h : ℤ) (t : Transaction) : List ℤ :=
  (fieldTokens log h t).map (tokenId (defaultVocab log h))

/-! ### The actor -/

/-- The actor's state. -/
structure GPUTokenizer where
  pipeline : TokenizerPipeline
  fitted : Bool

namespace GPUTokenizer

def init (log : ℚ → ℚ) (merchantHashSize : ℤ) : GPUTokenizer :=
  ⟨financialPipeline log { merchantHashSize := merchantHashSize, useStreams := false }, false⟩

/-- `_fraud_label` on one row. -/
def fraudLabel (s : String) : ℤ := if s = "Yes" ∨ s = "1" then 1 else 0

/-- `user * 100 + card` on 64-bit integers. -/
def ucKey (t : Transaction) : ℤ := (t.user * 100 + t.card).bmod (2 ^ 64)

/-- The pipeline is fitted on the first batch only. -/
def ensureFitted (a : GPUTokenizer) (df : DataFrame) : Except PyError GPUTokenizer :=
  if a.fitted then .ok a
  else do
    let p ← a.pipeline.fit df
    .ok ⟨p, true⟩

/-- `np.stack(cols, axis=1)` for columns of length `n`. -/
def stack (n : ℕ) (cols : List (List ℤ)) : List (List ℤ) :=
  (List.range n).map (fun i => cols.map (fun col => col.getD i 0))

/-- `__call__`: the tokenized rows, and the actor afterwards. -/
def call (cudf : Cudf) (log : ℚ → ℚ) (a : GPUTokenizer) (batch : List RawTransaction) :
    Except PyError (List TokenizedRow × GPUTokenizer) := do
  let proc ← preprocess cudf batch
  let a ← a.ensureFitted (toFrame proc)
  let tokenDf ← a.pipeline.transform log (toFrame proc)
  let idCols := tokenDf.values.map (fun col => col.map (tokenId a.pipeline.vocab))
  .ok (List.zipWith
    (fun t ids => ⟨ucKey t, t.timeFull.fdiv 1000000000, ids, fraudLabel t.isFraud⟩)
    proc (stack proc.length idCols), a)

/-- The actor after some batches; one that raises changes nothing. -/
def afterBatches (cudf : Cudf) (log : ℚ → ℚ) (a : GPUTokenizer)
    (batches : List (List RawTransaction)) : GPUTokenizer :=
  batches.foldl (fun a batch =>
    match a.call cudf log batch with
    | .ok r => r.2
    | .error _ => a) a

/-! ### What the actor emits -/

/-- The emitted row of a processed one. -/
def rowOf (log : ℚ → ℚ) (h : ℤ) (t : Transaction) : TokenizedRow :=
  ⟨ucKey t, t.timeFull.fdiv 1000000000, fieldIds log h t, fraudLabel t.isFraud⟩

/-- A fitted actor: every step as built without data, and the default vocabulary. -/
structure Fitted (log : ℚ → ℚ) (h : ℤ) (a : GPUTokenizer) : Prop where
  fitted : a.fitted = true
  steps : a.pipeline.FittedSteps (financialSteps log h false 32)
  vocab : a.pipeline.vocab = defaultVocab log h

/-- The states of an actor: new, or fitted. -/
def Inv (log : ℚ → ℚ) (h : ℤ) (a : GPUTokenizer) : Prop := a = init log h ∨ a.Fitted log h

variable {cudf : Cudf} {log : ℚ → ℚ} {h : ℤ} {a : GPUTokenizer}

theorem ensureFitted_eq (ha : a.Inv log h) (rows : List Transaction) :
    ∃ a', a.ensureFitted (toFrame rows) = .ok a' ∧ a'.Fitted log h := by
  obtain rfl | ha := ha
  · let cfg : FinancialConfig := { merchantHashSize := h, useStreams := false }
    have hcols : (financialPipeline log cfg).HasColumns (toFrame rows) := by
      rw [TokenizerPipeline.HasColumns, tokenizerOrder_financialPipeline]
      exact hasStepColumns_toFrame false rows
    obtain ⟨p, hp, hfit⟩ := TokenizerPipeline.fit_eq (hasSteps_financialPipeline log cfg) hcols
    have hvocab := hfit.vocabulary_eq (fresh_financialPipeline log cfg)
    rw [specialTokens_financialPipeline] at hvocab
    refine ⟨⟨p, true⟩, ?_, rfl, ?_, congrArg TokenizerPipeline.Vocabulary.vocab hvocab⟩
    · show (do let p ← (financialPipeline log cfg).fit (toFrame rows); Except.ok _) = _
      rw [hp]
      rfl
    · exact TokenizerPipeline.fittedSteps_addSteps
        (by rw [map_fst_financialSteps]; exact stepColumns_nodup _) not_willLearn_financialSteps hfit
  · exact ⟨a, by rw [ensureFitted, if_pos ha.fitted], ha⟩

theorem transform_toFrame (hh : 1 ≤ h) {p : TokenizerPipeline}
    (hp : p.FittedSteps (financialSteps log h false 32)) (rows : List Transaction) :
    p.transform log (toFrame rows) = .ok (tokenFrame log h rows) := by
  refine TokenizerPipeline.transform_eq hp (by simp [financialSteps]) (fun e he => ?_)
  have hname : e.1 ∈ transactionColumns.map Prod.fst := by
    refine stepColumns_subset false e.1 ?_
    rw [← map_fst_financialSteps log h false 32]
    exact List.mem_map_of_mem he
  refine ⟨_, get?_toFrame_cell rows hname, ?_⟩
  rw [Tokenizer.tokenize_of_hasToken, List.map_map]
  · rfl
  · intro cell hcell
    obtain ⟨t, -, rfl⟩ := List.mem_map.mp hcell
    exact hasToken_cell log hh 32 t e he

theorem stack_map {α : Type} (rows : List α) (fs : List (α → ℤ)) :
    stack rows.length (fs.map (fun f => rows.map f)) = rows.map (fun t => fs.map (fun f => f t)) := by
  refine List.ext_getElem (by simp [stack]) (fun i hi hi' => ?_)
  simp only [stack, List.getElem_map, List.getElem_range, List.map_map]
  refine List.map_congr_left (fun f _ => ?_)
  rw [List.length_map] at hi'
  simp [hi']

theorem stack_fieldIds (log : ℚ → ℚ) (h : ℤ) (rows : List Transaction) :
    stack rows.length ((tokenFrame log h rows).values.map
      (fun col => col.map (tokenId (defaultVocab log h)))) = rows.map (fieldIds log h) := by
  have hstack := stack_map rows ((financialSteps log h false 32).map (fun e t =>
    tokenId (defaultVocab log h) (e.2.tokenOf log (t.cell e.1))))
  rw [values_tokenFrame, List.map_map]
  rw [List.map_map] at hstack
  refine Eq.trans ?_ (hstack.trans ?_)
  · congr 1
    refine List.map_congr_left (fun e _ => ?_)
    exact List.map_map ..
  · refine List.map_congr_left (fun t _ => ?_)
    rw [fieldIds, fieldTokens, List.map_map, List.map_map]
    rfl

variable {batch : List RawTransaction}

/-- On every batch that can be preprocessed, an actor in any of its states emits the same rows. -/
theorem call_eq (hh : 1 ≤ h) (ha : a.Inv log h)
    {proc : List Transaction} (hp : preprocess cudf batch = .ok proc) :
    ∃ a', a.call cudf log batch = .ok (proc.map (rowOf log h), a') ∧ a'.Fitted log h := by
  obtain ⟨a', hfit, ha'⟩ := ensureFitted_eq ha proc
  refine ⟨a', ?_, ha'⟩
  unfold call
  rw [hp, ok_bind, hfit, ok_bind, transform_toFrame hh ha'.steps, ok_bind, ha'.vocab]
  simp only [stack_fieldIds]
  rw [List.zipWith_map_right, List.zipWith_self]
  rfl

variable {r : List TokenizedRow × GPUTokenizer}

/-- A batch that cannot be preprocessed is rejected before anything else happens. -/
theorem preprocess_of_call
    (hc : a.call cudf log batch = .ok r) : ∃ proc, preprocess cudf batch = .ok proc := by
  obtain ⟨proc, hp, -⟩ := bind_eq_ok.mp hc
  exact ⟨proc, hp⟩

theorem inv_call (hh : 1 ≤ h) (ha : a.Inv log h) (hc : a.call cudf log batch = .ok r) :
    r.2.Inv log h := by
  obtain ⟨proc, hp⟩ := preprocess_of_call hc
  obtain ⟨a', hcall, ha'⟩ := call_eq hh ha hp
  obtain rfl := Except.ok.inj (hc.symm.trans hcall)
  exact .inr ha'

theorem inv_afterBatches (hh : 1 ≤ h) (ha : a.Inv log h) (batches : List (List RawTransaction)) :
    (a.afterBatches cudf log batches).Inv log h := by
  induction batches generalizing a with
  | nil => exact ha
  | cons batch batches ih =>
    unfold afterBatches at ih ⊢
    rw [List.foldl_cons]
    apply ih
    split
    · rename_i r hc
      exact inv_call hh ha hc
    · exact ha

theorem call_afterBatches (hh : 1 ≤ h) {batches : List (List RawTransaction)}
    (hc : ((init log h).afterBatches cudf log batches).call cudf log batch = .ok r) :
    ∃ proc, preprocess cudf batch = .ok proc ∧ r.1 = proc.map (rowOf log h) := by
  obtain ⟨proc, hp⟩ := preprocess_of_call hc
  obtain ⟨a', hcall, -⟩ := call_eq hh (inv_afterBatches hh (.inl rfl) batches) hp
  exact ⟨proc, hp, by rw [Except.ok.inj (hc.symm.trans hcall)]⟩

end GPUTokenizer

theorem eq_of_mem_zip {α β γ : Type} (f : α → γ) (g : β → γ) {l : List α} {l' : List β}
    (h : l.map f = l'.map g) : ∀ p ∈ l.zip l', f p.1 = g p.2 := by
  induction l generalizing l' with
  | nil => simp
  | cons x l ih =>
    cases l' with
    | nil => simp
    | cons y l' =>
      simp only [List.map_cons, List.cons.injEq] at h
      intro p hp
      rw [List.zip_cons_cons] at hp
      obtain rfl | hp := List.mem_cons.mp hp
      · exact h.1
      · exact ih h.2 p hp

theorem fieldIds_base (log : ℚ → ℚ) (h : ℤ) (t : Transaction) :
    fieldIds log h t.base = fieldIds log h t := rfl

/-! ### The vocabulary does not depend on the data -/

/-- Whatever frame the pipeline is fitted on, and by whichever loop, the vocabulary is the one the
training tokenizer builds without data; and two actors that have seen different batches give the
same ids to the same transaction. -/
theorem data_independence (cudf : Cudf) (log : ℚ → ℚ) {h : ℤ} (hh : 1 ≤ h) :
    (∀ (includeTimeDelta useStreams useStreams' : Bool) (streamThreshold streamThreshold' : ℤ)
      (df df' : DataFrame), HasStepColumns includeTimeDelta df →
      HasStepColumns includeTimeDelta df' →
      ∃ p p' t,
        (financialPipeline log ⟨h, includeTimeDelta, 32, none, useStreams, streamThreshold⟩).fit df =
          .ok p ∧
        (financialPipeline log ⟨h, includeTimeDelta, 32, none, useStreams', streamThreshold'⟩).fit
          df' = .ok p' ∧
        FinancialTabularTokenizer.init log h includeTimeDelta = .ok t ∧
        p.vocabulary = p'.vocabulary ∧ p.vocabulary = t.pipeline.vocabulary ∧
        p.vocab = t.vocab ∧ p.idToToken = t.idToToken) ∧
    (∀ (batches batches' : List (List RawTransaction)) (batch batch' : List RawTransaction)
      (r r' : List TokenizedRow × GPUTokenizer),
      ((GPUTokenizer.init log h).afterBatches cudf log batches).call cudf log batch = .ok r →
      ((GPUTokenizer.init log h).afterBatches cudf log batches').call cudf log batch' = .ok r' →
      ∀ x ∈ (gatheredRows cudf batch).zip r.1, ∀ y ∈ (gatheredRows cudf batch').zip r'.1,
        x.1 = y.1 → x.2.tokenIds = y.2.tokenIds) := by
  constructor
  · intro incl us us' thr thr' df df' hc hc'
    obtain ⟨p, hp, hv⟩ := fit_vocabulary log ⟨h, incl, 32, none, us, thr⟩ hc
    obtain ⟨p', hp', hv'⟩ := fit_vocabulary log ⟨h, incl, 32, none, us', thr'⟩ hc'
    obtain ⟨t, ht, hvocab, hinv, hvt⟩ := init_vocabulary log h incl
    have hpt : p.vocabulary = t.pipeline.vocabulary := hv.trans hvt.symm
    refine ⟨p, p', t, hp, hp', ht, hv.trans hv'.symm, hpt, ?_, ?_⟩
    · rw [hvocab]
      exact congrArg TokenizerPipeline.Vocabulary.vocab hpt
    · rw [hinv]
      exact congrArg TokenizerPipeline.Vocabulary.idToToken hpt
  · intro bs bs' batch batch' r r' hr hr' x hx y hy hxy
    have hids : ∀ {bs batch} {r : List TokenizedRow × GPUTokenizer},
        ((GPUTokenizer.init log h).afterBatches cudf log bs).call cudf log batch = .ok r →
        ∀ x ∈ (gatheredRows cudf batch).zip r.1,
          fieldIds log h (derived cudf x.1) = x.2.tokenIds := by
      intro bs batch r hr
      obtain ⟨proc, hp, hrows⟩ := GPUTokenizer.call_afterBatches hh hr
      refine eq_of_mem_zip (fun r => fieldIds log h (derived cudf r)) TokenizedRow.tokenIds ?_
      rw [hrows, ← map_preprocess hp (fieldIds_base log h), List.map_map]
      rfl
    rw [← hids hr x hx, ← hids hr' y hy, hxy]

/-- An actor emits rows for the example transactions, whatever it has seen before. -/
theorem exists_call_example (batches : List (List RawTransaction)) (l : List (ℤ × ℤ)) :
    ∃ r, ((GPUTokenizer.init id 2000).afterBatches exampleCudf id batches).call exampleCudf id
      (l.map (fun p => exampleTransaction p.1 p.2)) = .ok r := by
  obtain ⟨proc, hp⟩ := preprocess_example l
  have hh : (1 : ℤ) ≤ 2000 := by decide
  obtain ⟨a', hc, -⟩ := GPUTokenizer.call_eq hh (GPUTokenizer.inv_afterBatches hh (.inl rfl) batches) hp
  exact ⟨_, hc⟩

/-- A new actor and one that was fitted on another card, on two batches with card 3 of user 0. -/
theorem data_independence_example :
    (∃ p p' t, (financialPipeline id ⟨2000, true, 32, none, true, 0⟩).fit
        (emptyFrame (stepColumns true)) = .ok p ∧
      (financialPipeline id ⟨2000, true, 32, none, false, 0⟩).fit (toFrame [default]) = .ok p' ∧
      FinancialTabularTokenizer.init id 2000 true = .ok t ∧
      p.vocabulary = p'.vocabulary ∧ p.vocabulary = t.pipeline.vocabulary) ∧
    ∃ r r', ((GPUTokenizer.init id 2000).afterBatches exampleCudf id []).call exampleCudf id
        ([(0, 3)].map (fun p => exampleTransaction p.1 p.2)) = .ok r ∧
      ((GPUTokenizer.init id 2000).afterBatches exampleCudf id
        [[exampleTransaction 7 1]]).call exampleCudf id
        ([(0, 3), (0, 4)].map (fun p => exampleTransaction p.1 p.2)) = .ok r' ∧
      ∀ x ∈ (gatheredRows exampleCudf
          ([(0, 3)].map (fun p => exampleTransaction p.1 p.2))).zip r.1,
        ∀ y ∈ (gatheredRows exampleCudf
          ([(0, 3), (0, 4)].map (fun p => exampleTransaction p.1 p.2))).zip r'.1,
        x.1 = y.1 → x.2.tokenIds = y.2.tokenIds := by
  have h := data_independence exampleCudf id (h := 2000) (by decide)
  constructor
  · obtain ⟨p, p', t, hp, hp', ht, hv, hvt, -⟩ := h.1 true true false 0 0 _ _
      (hasStepColumns_emptyFrame true) (hasStepColumns_toFrame true [default])
    exact ⟨p, p', t, hp, hp', ht, hv, hvt⟩
  · obtain ⟨r, hr⟩ := exists_call_example [] [(0, 3)]
    obtain ⟨r', hr'⟩ := exists_call_example [[exampleTransaction 7 1]] [(0, 3), (0, 4)]
    exact ⟨r, r', hr, hr', h.2 _ _ _ _ r r' hr hr'⟩

/-! ### The group key -/

/-- The group key of a raw transaction: the card is clipped before the key is formed. -/
def rawKey (r : RawTransaction) : ℤ := (r.user * 100 + clip 0 9 r.card).bmod (2 ^ 64)

theorem zipWith_left {α β γ : Type} (f : α → γ) {l : List α} {l' : List β}
    (h : l.length ≤ l'.length) : List.zipWith (fun a _ => f a) l l' = l.map f := by
  induction l generalizing l' with
  | nil => rfl
  | cons a l ih =>
    cases l' with
    | nil => simp at h
    | cons b l' => rw [List.zipWith_cons_cons, ih (by simpa using h), List.map_cons]

variable {cudf : Cudf} {log : ℚ → ℚ} {a : GPUTokenizer} {r : List TokenizedRow × GPUTokenizer}
variable {batch : List RawTransaction}

/-- The keys of a batch are those of the raw transactions in the order of the rows. -/
theorem ucKey_call (hc : a.call cudf log batch = .ok r) :
    (gatheredRows cudf batch).map rawKey = r.1.map TokenizedRow.ucKey := by
  obtain ⟨proc, hp, hc⟩ := bind_eq_ok.mp hc
  obtain ⟨a', -, hc⟩ := bind_eq_ok.mp hc
  obtain ⟨tokenDf, -, hc⟩ := bind_eq_ok.mp hc
  cases hc
  have hkeys : proc.map GPUTokenizer.ucKey = (gatheredRows cudf batch).map rawKey := by
    rw [map_preprocess hp (fun _ => rfl)]
    refine List.map_congr_left (fun x hx => ?_)
    have hx' := derived_user_card hp x ((gatheredRows_perm cudf batch).mem_iff.mp hx)
    rw [GPUTokenizer.ucKey, hx'.1, hx'.2, rawKey]
  rw [← hkeys]
  simp only [List.map_zipWith]
  rw [zipWith_left GPUTokenizer.ucKey (by simp [GPUTokenizer.stack])]

theorem length_call (hc : a.call cudf log batch = .ok r) :
    (gatheredRows cudf batch).length = r.1.length := by
  simpa using congrArg List.length (ucKey_call hc)

/-- Without overflow, equal keys mean equal users and equal clipped cards. -/
theorem rawKey_eq_iff {r r' : RawTransaction} (hr : 0 ≤ r.user ∧ r.user * 100 < 2 ^ 63)
    (hr' : 0 ≤ r'.user ∧ r'.user * 100 < 2 ^ 63) :
    rawKey r = rawKey r' ↔ r.user = r'.user ∧ clip 0 9 r.card = clip 0 9 r'.card := by
  have hclip : ∀ x : ℤ, 0 ≤ clip 0 9 x ∧ clip 0 9 x ≤ 9 := by
    intro x
    rw [clip]
    omega
  have h := hclip r.card
  have h' := hclip r'.card
  constructor
  · intro hkey
    have hmod := congrArg (· % (2 ^ 64 : ℤ)) hkey
    have hcast : ((2 ^ 64 : ℕ) : ℤ) = 2 ^ 64 := by norm_num
    simp only [rawKey, ← hcast, Int.bmod_emod] at hmod
    rw [hcast, Int.emod_eq_of_lt (by omega) (by omega), Int.emod_eq_of_lt (by omega) (by omega)]
      at hmod
    omega
  · rintro ⟨hu, hc⟩
    rw [rawKey, rawKey, hu, hc]

/-- Rows get one key if and only if they have one user and one card, and no group mixes cards. -/
def SeparatesCards (rows : List (RawTransaction × TokenizedRow)) : Prop :=
  (∀ x ∈ rows, ∀ y ∈ rows,
    x.2.ucKey = y.2.ucKey ↔ (x.1.user, x.1.card) = (y.1.user, y.1.card)) ∧
  (∀ g ∈ groups (fun x => x.2.ucKey) rows, ∀ x ∈ g, ∀ y ∈ g,
    (x.1.user, x.1.card) = (y.1.user, y.1.card))

/-- Where the key separates the cards, no user has two cards that are clipped to the same number. -/
theorem card_eq_of_separates {raw : List RawTransaction}
    (hc : a.call cudf log raw = .ok r) (hsep : SeparatesCards ((gatheredRows cudf raw).zip r.1)) :
    ∀ x ∈ raw, ∀ y ∈ raw, x.user = y.user → 9 ≤ x.card → 9 ≤ y.card → x.card = y.card := by
  intro x hx y hy hu hxc hyc
  have hrow : ∀ x ∈ raw, ∃ p ∈ (gatheredRows cudf raw).zip r.1, p.1 = x := by
    intro x hx
    have hx' := (gatheredRows_perm cudf raw).mem_iff.mpr hx
    rw [← List.map_fst_zip (length_call hc).le] at hx'
    obtain ⟨p, hp, rfl⟩ := List.mem_map.mp hx'
    exact ⟨p, hp, rfl⟩
  obtain ⟨p, hp, rfl⟩ := hrow x hx
  obtain ⟨q, hq, rfl⟩ := hrow y hy
  have hkey := eq_of_mem_zip rawKey TokenizedRow.ucKey (ucKey_call hc)
  have hclip : clip 0 9 p.1.card = clip 0 9 q.1.card := by
    rw [clip, clip]
    omega
  have heq : p.2.ucKey = q.2.ucKey := by
    rw [← hkey p hp, ← hkey q hq, rawKey, rawKey, hu, hclip]
  exact congrArg Prod.snd ((hsep.1 p hp q hq).mp heq)

/-- The key separates the cards of a table exactly if no user has two cards that are clipped to
the same number. -/
theorem ucKey_separates_iff {cudf : Cudf} {log : ℚ → ℚ} {a : GPUTokenizer}
    {raw : List RawTransaction} {r : List TokenizedRow × GPUTokenizer}
    (hc : a.call cudf log raw = .ok r)
    (hraw : ∀ x ∈ raw, 0 ≤ x.user ∧ x.user * 100 < 2 ^ 63 ∧ 0 ≤ x.card) :
    SeparatesCards ((gatheredRows cudf raw).zip r.1) ↔
      ∀ x ∈ raw, ∀ y ∈ raw, x.user = y.user → 9 ≤ x.card → 9 ≤ y.card → x.card = y.card := by
  refine ⟨card_eq_of_separates hc, fun hcond => ?_⟩
  have hmem : ∀ p ∈ (gatheredRows cudf raw).zip r.1, p.1 ∈ raw := fun p hp =>
    (gatheredRows_perm cudf raw).mem_iff.mp (List.of_mem_zip hp).1
  have hkey := eq_of_mem_zip rawKey TokenizedRow.ucKey (ucKey_call hc)
  have hsep : ∀ x ∈ (gatheredRows cudf raw).zip r.1, ∀ y ∈ (gatheredRows cudf raw).zip r.1,
      x.2.ucKey = y.2.ucKey ↔ (x.1.user, x.1.card) = (y.1.user, y.1.card) := by
    intro x hx y hy
    have hxr := hraw _ (hmem x hx)
    have hyr := hraw _ (hmem y hy)
    rw [← hkey x hx, ← hkey y hy, rawKey_eq_iff ⟨hxr.1, hxr.2.1⟩ ⟨hyr.1, hyr.2.1⟩, Prod.mk.injEq]
    refine and_congr_right (fun hu => ?_)
    have h9 := hcond _ (hmem x hx) _ (hmem y hy) hu
    simp only [clip]
    omega
  refine ⟨hsep, fun g hg x hx y hy => ?_⟩
  obtain ⟨hx', hy', hxy⟩ := mem_groups hg x hx y hy
  exact (hsep x hx' y hy').mp hxy

/-- Two cards of one user below the clip. -/
theorem ucKey_separates_three_nine :
    ∃ r, (GPUTokenizer.init id 2000).call exampleCudf id
      ([(0, 3), (0, 9)].map (fun p => exampleTransaction p.1 p.2)) = .ok r ∧
      SeparatesCards ((gatheredRows exampleCudf
        ([(0, 3), (0, 9)].map (fun p => exampleTransaction p.1 p.2))).zip r.1) := by
  obtain ⟨r, hr⟩ := exists_call_example [] [(0, 3), (0, 9)]
  exact ⟨r, hr, (ucKey_separates_iff hr (by decide)).mpr (by decide)⟩

/-- Cards 9 and 10 of one user get one key. -/
theorem ucKey_nine_ten :
    ∃ r, (GPUTokenizer.init id 2000).call exampleCudf id
      ([(0, 9), (0, 10)].map (fun p => exampleTransaction p.1 p.2)) = .ok r ∧
      ¬ SeparatesCards ((gatheredRows exampleCudf
        ([(0, 9), (0, 10)].map (fun p => exampleTransaction p.1 p.2))).zip r.1) := by
  obtain ⟨r, hr⟩ := exists_call_example [] [(0, 9), (0, 10)]
  refine ⟨r, hr, fun hsep => ?_⟩
  have h := card_eq_of_separates hr hsep (exampleTransaction 0 9) (by simp)
    (exampleTransaction 0 10) (by simp) rfl (by decide) (by decide)
  exact absurd h (by decide)

end RayTfm.Tfm
