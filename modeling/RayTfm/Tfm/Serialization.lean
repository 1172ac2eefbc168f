import RayTfm.Tfm.Steps

/-! # Saving and restoring a tokenizer step

`getState` splits a step into constructor arguments, the index-to-token table and the fitted
state; `fromState` constructs a fresh step from the arguments and puts the other two parts back.
A mapping step without configured values learns its direct map from the first column it is built
on, and that map belongs to none of the three parts.  `fromState_getState_iff` says that this is
the only way to lose something: the restored step behaves like the saved one unless the step
learns from data and has seen a column. -/

namespace RayTfm.Tfm

/-- The keyword arguments of the constructors, as `_get_init_params` returns them. -/
inductive InitParams where
  | fixedVocab (prefixStr : String) (minVal maxVal : ℤ) (padWidth : ℕ) (stream : Option Stream)
  | mapping (prefixStr : String) (mappingCfg : Option (Dict Value String))
      (valuesCfg : Option (List Value)) (rangesCfg : Option (List (ℤ × ℤ × String)))
      (default : String) (stream : Option Stream)
  | categoricalHash (specialToken : String) (vocabLimit : ℤ) (stream : Option Stream)
  | timeDelta (numBins : ℕ) (specialToken : String) (maxYears : ℚ) (stream : Option Stream)
deriving DecidableEq, Repr

/-- What `_get_fitted_state` returns. -/
inductive FittedState where
  | built (vocabBuilt : Bool)
  | timeDelta (boundaries : List ℚ) (maxHorizon : ℤ) (vocabBuilt : Bool)
deriving DecidableEq, Repr

/-- The dictionary returned by `get_state`. -/
structure TokenizerState where
  cls : String
  initParams : InitParams
  vocabState : Option IdxToToken
  fittedState : FittedState
deriving DecidableEq, Repr

/-- Call the constructor. -/
def InitParams.construct (log : ℚ → ℚ) : InitParams → Tokenizer
  | fixedVocab prefixStr minVal maxVal padWidth stream =>
    .fixedVocab (.init prefixStr minVal maxVal padWidth stream)
  | mapping prefixStr mappingCfg valuesCfg rangesCfg default stream =>
    .mapping (.init prefixStr mappingCfg valuesCfg rangesCfg default stream)
  | categoricalHash specialToken vocabLimit stream =>
    .categoricalHash (.init vocabLimit specialToken stream)
  | timeDelta numBins specialToken maxYears stream =>
    .timeDelta (.init log numBins specialToken maxYears stream)

namespace Tokenizer

/-- `_get_init_params`: the stream is not saved. -/
def getInitParams : Tokenizer → InitParams
  | fixedVocab t => .fixedVocab t.prefixStr t.minVal t.maxVal t.padWidth none
  | mapping t => .mapping t.prefixStr t.mappingCfg t.valuesCfg t.rangesCfg t.default none
  | categoricalHash t => .categoricalHash t.specialToken t.vocabLimit none
  | timeDelta t => .timeDelta t.numBins t.specialToken t.maxYears none

/-- `_get_fitted_state`. -/
def getFittedState : Tokenizer → FittedState
  | fixedVocab t => .built t.vocabBuilt
  | mapping t => .built t.vocabBuilt
  | categoricalHash t => .built t.vocabBuilt
  | timeDelta t => .timeDelta t.boundaries t.maxHorizon t.vocabBuilt

/-- The qualified class name. -/
def className : Tokenizer → String
  | fixedVocab _ => "src.tokenizer.fixed_vocab.FixedVocabTokenizer"
  | mapping _ => "src.tokenizer.mapping.MappingTokenizer"
  | categoricalHash _ => "src.tokenizer.categorical_hash.CategoricalHashTokenizer"
  | timeDelta _ => "src.tokenizer.timedelta.TimeDeltaTokenizer"

/-- `get_state`. -/
def getState (t : Tokenizer) : TokenizerState :=
  ⟨t.className, t.getInitParams, t.idxToToken, t.getFittedState⟩

/-- `_set_vocab_state`. -/
def setVocabState (d : Option IdxToToken) : Tokenizer → Tokenizer
  | fixedVocab t => fixedVocab { t with base := { t.base with idxToToken := d } }
  | mapping t => mapping { t with base := { t.base with idxToToken := d } }
  | categoricalHash t => categoricalHash { t with base := { t.base with idxToToken := d } }
  | timeDelta t => timeDelta { t with base := { t.base with idxToToken := d } }

/-- `_set_fitted_state`; only the time-delta step saves more than the flag. -/
def setFittedState : FittedState → Tokenizer → Tokenizer
  | .built b, fixedVocab t => fixedVocab { t with vocabBuilt := b }
  | .built b, mapping t => mapping { t with vocabBuilt := b }
  | .built b, categoricalHash t => categoricalHash { t with vocabBuilt := b }
  | .timeDelta boundaries maxHorizon b, timeDelta t =>
    timeDelta { t with boundaries := boundaries, maxHorizon := maxHorizon, vocabBuilt := b }
  | _, t => t

/-- `from_state`. -/
def fromState (log : ℚ → ℚ) (s : TokenizerState) : Tokenizer :=
  ((s.initParams.construct log).setVocabState s.vocabState).setFittedState s.fittedState

/-- Two steps with the same vocabulary and the same answers. -/
def BehavesAs (log : ℚ → ℚ) (u t : Tokenizer) : Prop :=
  u.vocab = t.vocab ∧ u.vocabSize = t.vocabSize ∧
    ∀ column, u.tokenize log column = t.tokenize log column

/-- The step after the constructor and a sequence of `build_vocab` calls. -/
def afterCalls (log : ℚ → ℚ) (p : InitParams) (calls : List (Option Column)) : Tokenizer :=
  calls.foldl (fun t columnData => t.buildVocab columnData) (p.construct log)

end Tokenizer

/-- A mapping step that is configured with no values, no mapping and no ranges. -/
def InitParams.LearnsFromData : InitParams → Prop
  | mapping _ none none none _ _ => True
  | mapping _ none (some []) none _ _ => True
  | _ => False

/-! ### What the calls leave alone -/

namespace Tokenizer

/-- The step without its stream, its table and its flag: what the answers depend on, apart from
the table. -/
def core : Tokenizer → Tokenizer
  | fixedVocab t => fixedVocab
      { t with stream := none, base := { t.base with idxToToken := none }, vocabBuilt := false }
  | mapping t => mapping
      { t with stream := none, base := { t.base with idxToToken := none }, vocabBuilt := false }
  | categoricalHash t => categoricalHash
      { t with stream := none, base := { t.base with idxToToken := none }, vocabBuilt := false }
  | timeDelta t => timeDelta
      { t with stream := none, base := { t.base with idxToToken := none }, vocabBuilt := false }

theorem cachedVocab_core (t : Tokenizer) : t.core.base.cachedVocab = t.base.cachedVocab := by
  cases t <;> rfl

theorem getInitParams_core (t : Tokenizer) : t.core.getInitParams = t.getInitParams := by
  cases t <;> rfl

variable {t : Tokenizer}

theorem base_eq_of_core {u : Tokenizer} (hc : u.core = t.core) (hd : u.idxToToken = t.idxToToken) :
    u.base = t.base := by
  have h := congrArg (fun x => x.base.cachedVocab) hc
  simp only [cachedVocab_core] at h
  exact BaseTokenizer.mk.injEq .. ▸ ⟨h, hd⟩

theorem behavesAs_of_core {log : ℚ → ℚ} {u : Tokenizer} (hc : u.core = t.core)
    (hd : u.idxToToken = t.idxToToken) : BehavesAs log u t := by
  have hb := base_eq_of_core hc hd
  refine ⟨by rw [vocab, vocab, hb], by rw [vocabSize, vocabSize, hb], fun column => ?_⟩
  cases u with
  | fixedVocab u =>
    cases t <;> simp only [core, reduceCtorEq, fixedVocab.injEq, FixedVocabTokenizer.mk.injEq] at hc
    rename_i t
    obtain ⟨-, -, h1, h2, -⟩ := hc
    simp only [base] at hb
    have hvalue : u.tokenizeValue = t.tokenizeValue := by
      funext v
      simp only [FixedVocabTokenizer.tokenizeValue, hb, h1, h2]
    simp only [tokenize, FixedVocabTokenizer.tokenize, hvalue]
  | mapping u =>
    cases t <;> simp only [core, reduceCtorEq, mapping.injEq, MappingTokenizer.mk.injEq] at hc
    rename_i t
    obtain ⟨-, h1, h2, -, -, -, -, -, h3, h4, h5⟩ := hc
    cases u; cases t
    subst h1 h2 h3 h4 h5
    rfl
  | categoricalHash u =>
    cases t <;>
      simp only [core, reduceCtorEq, categoricalHash.injEq, CategoricalHashTokenizer.mk.injEq] at hc
    rename_i t
    have hbucket : u.bucket = t.bucket := by
      funext v
      cases v <;> simp only [CategoricalHashTokenizer.bucket, hc.2.1]
    simp only [base] at hb
    have hvalue : u.tokenizeValue = t.tokenizeValue := by
      funext v
      simp only [CategoricalHashTokenizer.tokenizeValue, hb, hbucket]
    simp only [tokenize, CategoricalHashTokenizer.tokenize, hvalue]
  | timeDelta u =>
    cases t <;> simp only [core, reduceCtorEq, timeDelta.injEq, TimeDeltaTokenizer.mk.injEq] at hc
    rename_i t
    obtain ⟨-, h1, -, -, -, h2, h3, -⟩ := hc
    have hclamp : u.clamp = t.clamp := by
      funext v
      cases v <;> simp only [TimeDeltaTokenizer.clamp, h2]
    simp only [base] at hb
    have hvalue : u.tokenizeValue log = t.tokenizeValue log := by
      funext v
      simp only [TimeDeltaTokenizer.tokenizeValue, hb, h1, h3, hclamp]
    simp only [tokenize, TimeDeltaTokenizer.tokenize, hvalue]

theorem core_buildVocab {c : Option Column} (h : t.WillLearn → c = none) :
    (t.buildVocab c).core = t.core := by
  cases t with
  | fixedVocab t => rfl
  | categoricalHash t => rfl
  | timeDelta t => rfl
  | mapping t =>
    rw [buildVocab, MappingTokenizer.buildVocab_of_not_learn h]
    rfl

theorem willLearn_iff_core (t : Tokenizer) : t.core.WillLearn ↔ t.WillLearn := by
  cases t <;> exact Iff.rfl

theorem core_foldl_buildVocab {calls : List (Option Column)}
    (h : t.WillLearn → ∀ c ∈ calls, c = none) :
    (calls.foldl (fun t c => t.buildVocab c) t).core = t.core := by
  induction calls generalizing t with
  | nil => rfl
  | cons c calls ih =>
    have hc : (t.buildVocab c).core = t.core := core_buildVocab (fun hw => h hw c (by simp))
    rw [List.foldl_cons, ih, hc]
    intro hw c' hc'
    rw [← willLearn_iff_core, hc, willLearn_iff_core] at hw
    exact h hw c' (.tail _ hc')

end Tokenizer

/-! ### A learned map is lost -/

namespace MappingTokenizer

/-- The direct map has been learned: it sends each of a list of labels to itself, the default
among them. -/
def Learned (t : MappingTokenizer) : Prop :=
  t.mode = .passthrough ∧ ∃ labels : List String, t.default ∈ labels ∧
    t.directMap = some (Dict.ofList (labels.map (fun l => (Value.str l, l))))

variable {t : MappingTokenizer}

theorem Learned.hasDirectMap (h : t.Learned) : t.hasDirectMap = true := by
  obtain ⟨-, labels, hd, he⟩ := h
  have hne : labels ≠ [] := List.ne_nil_of_mem hd
  simp [MappingTokenizer.hasDirectMap, he, Dict.ofList_entries_eq_nil_iff, hne]

theorem Learned.buildVocab (h : t.Learned) (c : Option Column) :
    (t.buildVocab c).Learned := by
  rw [buildVocab_of_not_learn (fun hw => absurd hw.2 (by rw [h.hasDirectMap]; decide))]
  exact h

theorem learned_of_learn (h : t.WillLearn) (column : Column) :
    (t.buildVocab (some column)).Learned := by
  rw [buildVocab_of_learn h]
  exact ⟨h.1, t.dataLabels column, by simp [dataLabels], rfl⟩

theorem Learned.tokenizeDirect (h : t.Learned) :
    ∃ labels : List String, ∀ s, s ∉ labels →
      t.tokenizeDirect [some (.str s)] = [some (t.prefixStr ++ "_" ++ t.default)] := by
  have hd := h.hasDirectMap
  obtain ⟨-, labels, -, he⟩ := h
  refine ⟨labels, fun s hs => ?_⟩
  have hnone : (Dict.ofList (labels.map (fun l => (Value.str l, l)))).get? (.str s) = none := by
    rw [Dict.get?_eq_none_iff, Dict.mem_keys_ofList, List.map_map, List.mem_map]
    rintro ⟨l, hl, e⟩
    simp only [Function.comp, Value.str.injEq] at e
    exact hs (e ▸ hl)
  simp [MappingTokenizer.tokenizeDirect, MappingTokenizer.directLabel, hd, he, Value.text, hnone]

end MappingTokenizer

namespace MappingTokenizer

/-- One call on a step that would learn, or has learned: a column makes it a learned step, and a
learned step stays one. -/
theorem buildVocab_learned {t : MappingTokenizer} (h : t.WillLearn ∨ t.Learned)
    (c : Option Column) :
    ((t.buildVocab c).WillLearn ∨ (t.buildVocab c).Learned) ∧
      (t.Learned ∨ c.isSome → (t.buildVocab c).Learned) := by
  obtain hw | hl := h
  · cases c with
    | none =>
      rw [buildVocab_of_not_learn (fun _ => rfl)]
      exact ⟨.inl hw, fun h => h.elim id (by simp)⟩
    | some column =>
      have hl := learned_of_learn hw column
      exact ⟨.inr hl, fun _ => hl⟩
  · exact ⟨.inr (hl.buildVocab c), fun _ => hl.buildVocab c⟩

end MappingTokenizer

namespace Tokenizer

theorem getInitParams_buildVocab (t : Tokenizer) (c : Option Column) :
    (t.buildVocab c).getInitParams = t.getInitParams := by
  cases t with
  | fixedVocab t => rfl
  | categoricalHash t => rfl
  | timeDelta t => rfl
  | mapping t =>
    by_cases hw : t.WillLearn ∧ c ≠ none
    · obtain ⟨column, rfl⟩ := Option.ne_none_iff_exists'.mp hw.2
      rw [buildVocab, MappingTokenizer.buildVocab_of_learn hw.1]
      rfl
    · rw [buildVocab,
        MappingTokenizer.buildVocab_of_not_learn (fun h => by_contra fun hc => hw ⟨h, hc⟩)]
      rfl

theorem getInitParams_foldl_buildVocab (t : Tokenizer) (calls : List (Option Column)) :
    (calls.foldl (fun t c => t.buildVocab c) t).getInitParams = t.getInitParams := by
  induction calls generalizing t with
  | nil => rfl
  | cons c calls ih => rw [List.foldl_cons, ih, getInitParams_buildVocab]

variable {t : MappingTokenizer}

/-- Over a whole run: once a column is given, a step that would learn has learned. -/
theorem learned_foldl (calls : List (Option Column)) (h : t.WillLearn ∨ t.Learned) :
    ∃ t' : MappingTokenizer, calls.foldl (fun t c => buildVocab c t) (mapping t) = mapping t' ∧
      (t.Learned ∨ (∃ c ∈ calls, c.isSome) → t'.Learned) := by
  induction calls generalizing t with
  | nil => exact ⟨t, rfl, fun h => by simpa using h⟩
  | cons c calls ih =>
    obtain ⟨hnext, hlearned⟩ := MappingTokenizer.buildVocab_learned h c
    obtain ⟨t', he, hl⟩ := ih hnext
    refine ⟨t', he, fun hsome => hl ?_⟩
    obtain hL | ⟨c', hc', hs⟩ := hsome
    · exact .inl (hlearned (.inl hL))
    obtain rfl | hc' := List.mem_cons.mp hc'
    · exact .inl (hlearned (.inr hs))
    · exact .inr ⟨c', hc', hs⟩

/-! ### The round trip -/

/-- The restored step has the table of the saved one, and the core the constructor gives. -/
theorem idxToToken_fromState_getState (log : ℚ → ℚ) (t : Tokenizer) :
    (fromState log t.getState).idxToToken = t.idxToToken := by
  cases t <;> rfl

theorem core_construct_getInitParams (log : ℚ → ℚ) (p : InitParams) :
    ((p.construct log).getInitParams.construct log).core = (p.construct log).core := by
  cases p with
  | fixedVocab => rfl
  | categoricalHash => rfl
  | timeDelta => rfl
  | mapping a b c d e f =>
    cases d <;> cases b <;> cases c <;> rfl

theorem core_fromState_getState {log : ℚ → ℚ} {p : InitParams} {t : Tokenizer}
    (h : t.core = (p.construct log).core) : (fromState log t.getState).core = t.core := by
  have hinit : t.getInitParams = (p.construct log).getInitParams := by
    rw [← getInitParams_core, h, getInitParams_core]
  have hcore := core_construct_getInitParams log p
  rw [← hinit, ← h] at hcore
  cases t with
  | fixedVocab t => exact hcore
  | categoricalHash t => exact hcore
  | mapping t => 
    rw [← hcore]
    cases ha : t.rangesCfg <;> cases hb : t.mappingCfg <;> cases hc : t.valuesCfg <;>
      simp [fromState, getState, getInitParams, ha, hb, hc, InitParams.construct,
        MappingTokenizer.init, setVocabState, setFittedState, getFittedState, core]
  | timeDelta t =>
    -- the saved boundaries and horizon overwrite equal ones
    simp only [getInitParams, InitParams.construct, core, TimeDeltaTokenizer.init, timeDelta.injEq,
      TimeDeltaTokenizer.mk.injEq] at hcore
    simp only [fromState, getState, getInitParams, InitParams.construct, setVocabState,
      getFittedState, setFittedState, core, TimeDeltaTokenizer.init, timeDelta.injEq,
      TimeDeltaTokenizer.mk.injEq]
    exact ⟨hcore.1, trivial, trivial, trivial, trivial, trivial, trivial, trivial⟩

theorem willLearn_construct_iff (log : ℚ → ℚ) (p : InitParams) :
    (p.construct log).WillLearn ↔ p.LearnsFromData := by
  cases p with
  | fixedVocab => exact Iff.rfl
  | categoricalHash => exact Iff.rfl
  | timeDelta => exact Iff.rfl
  | mapping prefixStr mappingCfg valuesCfg rangesCfg default stream =>
    show (MappingTokenizer.init prefixStr mappingCfg valuesCfg rangesCfg default stream).WillLearn ↔ _
    unfold MappingTokenizer.init MappingTokenizer.WillLearn MappingTokenizer.hasDirectMap
      InitParams.LearnsFromData
    cases rangesCfg with
    | some ranges => simp
    | none =>
      cases mappingCfg with
      | some m => simp
      | none =>
        cases valuesCfg with
        | none => simp
        | some values => cases values <;> simp [Dict.ofList_entries_eq_nil_iff]

theorem learnsFromData_getInitParams {p : InitParams} (h : p.LearnsFromData) (log : ℚ → ℚ) :
    ∃ t : MappingTokenizer, p.construct log = mapping t ∧ (mapping t).getInitParams.LearnsFromData := by
  unfold InitParams.LearnsFromData at h
  split at h
  · exact ⟨_, rfl, trivial⟩
  · exact ⟨_, rfl, trivial⟩
  · exact h.elim

/-- The restored step has an empty direct map, and every string is its own label. -/
theorem tokenize_fromState_of_learns
    (h : (mapping t).getInitParams.LearnsFromData) (log : ℚ → ℚ) (s : String) :
    (fromState log (mapping t).getState).tokenize log [some (.str s)] =
      .ok [some (t.prefixStr ++ "_" ++ s)] := by
  simp only [getInitParams, InitParams.LearnsFromData] at h
  simp only [fromState, getState, getInitParams]
  split at h
  · rename_i h₁
    simp only [InitParams.mapping.injEq] at h₁
    obtain ⟨-, h1, h2, h3, -⟩ := h₁
    rw [h1, h2, h3]
    rfl
  · rename_i h₁
    simp only [InitParams.mapping.injEq] at h₁
    obtain ⟨-, h1, h2, h3, -⟩ := h₁
    rw [h1, h2, h3]
    rfl
  · exact h.elim

/-- The only state that is not restored is a learned direct map: after any calls the restored
step has the vocabulary, the size and the answers of the saved one, unless the step was configured
to learn from data and one of the calls had a column. -/
theorem fromState_getState_iff (log : ℚ → ℚ) (p : InitParams) (calls : List (Option Column)) :
    BehavesAs log (fromState log (afterCalls log p calls).getState) (afterCalls log p calls) ↔
      ¬ (p.LearnsFromData ∧ ∃ c ∈ calls, c.isSome) := by
  constructor
  · rintro ⟨-, -, hans⟩ ⟨hp, hsome⟩
    have hw := (willLearn_construct_iff log p).mpr hp
    have hinit := getInitParams_foldl_buildVocab (p.construct log) calls
    obtain ⟨t₀, e₀, hp₀⟩ := learnsFromData_getInitParams hp log
    rw [e₀] at hw hinit
    obtain ⟨t, e, hl⟩ := learned_foldl calls (.inl hw)
    rw [e] at hinit
    have ht : t.Learned := hl (.inr hsome)
    obtain ⟨labels, hlabels⟩ := ht.tokenizeDirect
    -- a string that is neither a learned label nor the default tells the two steps apart
    obtain ⟨s, hs⟩ := Infinite.exists_notMem_finset (t.default :: labels).toFinset
    simp only [List.mem_toFinset, List.mem_cons, not_or] at hs
    have h := hans [some (.str s)]
    rw [afterCalls, e₀, e, tokenize_fromState_of_learns (hinit ▸ hp₀)] at h
    simp only [tokenize, MappingTokenizer.tokenize, ht.1, reduceCtorEq, if_false, hlabels s hs.2,
      Except.ok.injEq, List.cons.injEq, Option.some.injEq, and_true] at h
    exact hs.1 (by simpa [← String.toList_inj] using h)
  · intro h
    have hcore : (afterCalls log p calls).core = (p.construct log).core := by
      refine core_foldl_buildVocab (fun hw c hc => ?_)
      by_contra hne
      exact h ⟨(willLearn_construct_iff log p).mp hw, c, hc, Option.ne_none_iff_isSome.mp hne⟩
    exact behavesAs_of_core (core_fromState_getState hcore) (idxToToken_fromState_getState log _)

/-- A merchant-category step without configured values, built on a column with one code: the saved
step sends another code to the default, the restored one makes a token of it. -/
theorem fromState_getState_mcc :
    let p : InitParams := .mapping "MCC" none none none "UNK" none
    let t := afterCalls id p [some [some (.str "5411")]]
    t.tokenize id [some (.str "5812")] = .ok [some "MCC_UNK"] ∧
      (fromState id t.getState).tokenize id [some (.str "5812")] = .ok [some "MCC_5812"] ∧
      ¬ BehavesAs id (fromState id t.getState) t := by
  intro p t
  have h : t.tokenize id [some (.str "5812")] = .ok [some "MCC_UNK"] := by decide
  have h' : (fromState id t.getState).tokenize id [some (.str "5812")] = .ok [some "MCC_5812"] := by
    decide
  refine ⟨h, h', fun hb => ?_⟩
  have := hb.2.2 [some (.str "5812")]
  rw [h, h'] at this
  exact absurd this (by decide)

end Tokenizer
end RayTfm.Tfm
