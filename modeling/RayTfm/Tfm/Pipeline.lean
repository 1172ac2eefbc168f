import RayTfm.Tfm.Steps

/-! # The tokenizer pipeline

`tokenizer/pipeline.py`: an ordered list of steps with one global vocabulary.  `fit` builds every
step and gives it an offset, the running sum of the vocabulary sizes before it; the global id of
a token is its index in the step's table plus the step's offset (`buildGlobalVocab`).  There are
two copies of the fitting loop, one that builds and numbers step by step (`fitSequential`) and one
that builds all steps on streams of their own and numbers them afterwards (`fitParallel`).

When no step learns from the data and every table is plain, both loops give the vocabulary that
`blockEntries` describes in closed form (`fit_eq`). -/

namespace RayTfm.Tfm

/-- A data frame: named columns of one length. -/
structure DataFrame where
  columns : Dict String Column
  numRows : ℕ
  length_eq : ∀ c ∈ columns.values, c.length = numRows

/-- The two global dictionaries, written together. -/
structure GlobalVocab where
  vocab : Dict String ℤ
  idToToken : Dict ℤ String
deriving DecidableEq, Repr

namespace GlobalVocab

def empty : GlobalVocab := ⟨Dict.empty, Dict.empty⟩

/-- `vocab[tok] = gid; id_to_token[gid] = tok`. -/
def add (g : GlobalVocab) (e : String × ℤ) : GlobalVocab :=
  ⟨g.vocab.set e.1 e.2, g.idToToken.set e.2 e.1⟩

/-- The entries of a table, moved by an offset. -/
def shifted (offset : ℕ) (d : Dict ℤ String) : List (String × ℤ) :=
  d.entries.map (fun e => (e.2, e.1 + offset))

theorem foldl_add (g : GlobalVocab) (l : List (String × ℤ)) :
    l.foldl add g = ⟨g.vocab.setAll l, g.idToToken.setAll (l.map Prod.swap)⟩ := by
  induction l generalizing g with
  | nil => rfl
  | cons e l ih => rw [List.foldl_cons, ih]; rfl

end GlobalVocab

/-- An ordered sequence of steps with global vocabulary offsets. -/
structure TokenizerPipeline where
  steps : Dict String Tokenizer
  vocabSizes : Dict String ℕ
  vocabOffset : Dict String ℕ
  columnSpecs : Dict String String
  tokenizerOrder : List String
  streamThreshold : ℤ
  specialTokens : Dict String String
  specialTokenIds : Dict String ℤ
  numSpecialTokens : ℕ
  globalVocabSize : ℕ
  useStreams : Bool
  isFitted : Bool
  globalVocab : Option GlobalVocab
deriving DecidableEq, Repr

namespace TokenizerPipeline

/-- `SPECIAL_TOKENS`. -/
def defaultSpecialTokens : Dict String String :=
  Dict.ofList [("PAD", "<pad>"), ("BOS", "<bos>"), ("EOS", "<eos>"), ("SEP", "<sep>"),
    ("UNK", "<unk>")]

/-- `special_tokens or dict(self.SPECIAL_TOKENS)`. -/
def chooseSpecialTokens (specialTokens : Option (Dict String String)) : Dict String String :=
  match specialTokens with
  | some d => if d.entries ≠ [] then d else defaultSpecialTokens
  | none => defaultSpecialTokens

/-- The numbering of the special tokens. -/
def specialIds (specialTokens : Dict String String) : Dict String ℤ :=
  Dict.ofList (specialTokens.values.zipIdx.map (fun p => (p.1, (p.2 : ℤ))))

def init (specialTokens : Option (Dict String String)) (useStreams : Bool) (streamThreshold : ℤ) :
    TokenizerPipeline :=
  let specialTokens := chooseSpecialTokens specialTokens
  { steps := Dict.empty
    vocabSizes := Dict.empty
    vocabOffset := Dict.empty
    columnSpecs := Dict.empty
    tokenizerOrder := []
    streamThreshold := streamThreshold
    specialTokens := specialTokens
    specialTokenIds := specialIds specialTokens
    numSpecialTokens := specialTokens.size
    globalVocabSize := specialTokens.size
    useStreams := useStreams
    isFitted := false
    globalVocab := none }

/-- `add_step` with a single column, whose name is also the step's id. -/
def addStep (p : TokenizerPipeline) (columnName : String) (t : Tokenizer) : TokenizerPipeline :=
  { p with
    steps := p.steps.set columnName t
    columnSpecs := p.columnSpecs.set columnName columnName
    tokenizerOrder := p.tokenizerOrder ++ [columnName] }

/-- `self.steps[tok_id]`. -/
def stepOf (p : TokenizerPipeline) (tokId : String) : Except PyError Tokenizer :=
  match p.steps.get? tokId with
  | some t => .ok t
  | none => .error .keyError

/-- The column of a step, after the check that the frame has it. -/
def columnData (p : TokenizerPipeline) (df : DataFrame) (tokId : String) : Except PyError Column :=
  match p.columnSpecs.get? tokId with
  | none => .error .keyError
  | some column =>
    match df.columns.get? column with
    | some c => .ok c
    | none => .error (.valueError ("Columns \x7b'" ++ column ++ "'\x7d not found in DataFrame"))

/-- The step objects are mutable: what a method does to one is seen in `steps`. -/
def putStep (p : TokenizerPipeline) (tokId : String) (t : Tokenizer) : TokenizerPipeline :=
  { p with steps := p.steps.set tokId t }

/-! ### Fitting -/

/-- The body shared by the numbering loops: record the size of a step and give it the current
offset, or one offset for each of its sub-tables. -/
def recordSize (p : TokenizerPipeline) (tokId : String) (t : Tokenizer) (currentOffset : ℕ) :
    TokenizerPipeline × ℕ :=
  let vs := t.vocabSize
  let p := { p with vocabSizes := p.vocabSizes.set tokId vs }
  let plain := ({ p with vocabOffset := p.vocabOffset.set tokId currentOffset }, currentOffset + vs)
  match t.idxToToken with
  | some (.nested d) =>
    if d.entries ≠ [] then
      d.entries.foldl (fun s e =>
        ({ s.1 with vocabOffset := s.1.vocabOffset.set (tokId ++ "." ++ e.1) s.2 },
          s.2 + e.2.size)) (p, currentOffset)
    else plain
  | _ => plain

/-- The loop that builds and numbers step by step; `colOf` says what a step is built on. -/
def buildLoop (colOf : TokenizerPipeline → String → Except PyError (Option Column)) :
    List String → TokenizerPipeline → ℕ → Except PyError (TokenizerPipeline × ℕ)
  | [], p, currentOffset => .ok (p, currentOffset)
  | tokId :: order, p, currentOffset => do
      let colData ← colOf p tokId
      let t ← p.stepOf tokId
      let t := t.buildVocab colData
      let s := (p.putStep tokId t).recordSize tokId t currentOffset
      buildLoop colOf order s.1 s.2

def fitSequential (p : TokenizerPipeline) (df : DataFrame) : Except PyError TokenizerPipeline := do
  let s ← buildLoop (fun p tokId => (p.columnData df tokId).map some) p.tokenizerOrder p
    p.numSpecialTokens
  .ok { s.1 with globalVocabSize := s.2 }

/-- The building loop of `_fit_parallel`: every step is built on a stream of its own, which it
gives back. -/
def fitParallelBuild (df : DataFrame) :
    List (Stream × String) → TokenizerPipeline → Except PyError TokenizerPipeline
  | [], p => .ok p
  | (stream, tokId) :: l, p => do
      let colData ← p.columnData df tokId
      let t ← p.stepOf tokId
      let original := t.stream
      let t := (t.setStream (some stream)).buildVocab (some colData)
      fitParallelBuild df l (p.putStep tokId (t.setStream original))

/-- The numbering loop of `_fit_parallel`. -/
def fitParallelNumber :
    List String → TokenizerPipeline → ℕ → Except PyError (TokenizerPipeline × ℕ)
  | [], p, currentOffset => .ok (p, currentOffset)
  | tokId :: order, p, currentOffset => do
      let t ← p.stepOf tokId
      let s := p.recordSize tokId t currentOffset
      fitParallelNumber order s.1 s.2

def fitParallel (p : TokenizerPipeline) (df : DataFrame) : Except PyError TokenizerPipeline := do
  let streams := List.range p.tokenizerOrder.length
  let p ← fitParallelBuild df (streams.zip p.tokenizerOrder) p
  let s ← fitParallelNumber p.tokenizerOrder p p.numSpecialTokens
  .ok { s.1 with globalVocabSize := s.2 }

/-- The global entries of one step. -/
def stepEntries (p : TokenizerPipeline) (tokId : String) (t : Tokenizer) : List (String × ℤ) :=
  match t.idxToToken with
  | none => []
  | some (.nested d) =>
    d.entries.flatMap (fun e =>
      GlobalVocab.shifted ((p.vocabOffset.get? (tokId ++ "." ++ e.1)).getD 0) e.2)
  | some (.flat d) => GlobalVocab.shifted ((p.vocabOffset.get? tokId).getD 0) d

def globalVocabLoop (p : TokenizerPipeline) :
    List String → GlobalVocab → Except PyError GlobalVocab
  | [], g => .ok g
  | tokId :: order, g => do
      let t ← p.stepOf tokId
      globalVocabLoop p order ((p.stepEntries tokId t).foldl GlobalVocab.add g)

/-- `_build_global_vocab`: the special tokens first, then the steps in order. -/
def buildGlobalVocab (p : TokenizerPipeline) : Except PyError TokenizerPipeline := do
  let g := p.specialTokenIds.entries.foldl GlobalVocab.add GlobalVocab.empty
  let g ← globalVocabLoop p p.tokenizerOrder g
  .ok { p with globalVocab := some g }

/-- The choice of the fitting loop. -/
def fitSteps (p : TokenizerPipeline) (df : DataFrame) : Except PyError TokenizerPipeline :=
  if p.useStreams ∧ p.streamThreshold ≤ p.steps.size then p.fitParallel df else p.fitSequential df

def fit (p : TokenizerPipeline) (df : DataFrame) : Except PyError TokenizerPipeline := do
  let p ← p.fitSteps df
  let p ← p.buildGlobalVocab
  .ok { p with isFitted := true }

/-- The property `vocab`. -/
def vocab (p : TokenizerPipeline) : Dict String ℤ :=
  match p.globalVocab with
  | some g => g.vocab
  | none => Dict.empty

/-- The property `id_to_token`. -/
def idToToken (p : TokenizerPipeline) : Dict ℤ String :=
  match p.globalVocab with
  | some g => g.idToToken
  | none => Dict.empty

/-! ### The closed form of a fit -/

/-- The named tables of a pipeline's steps. -/
abbrev Tables := List (String × Dict ℤ String)

/-- The offsets of consecutive blocks. -/
def offsets : ℕ → Tables → List (String × ℕ)
  | _, [] => []
  | n, (k, d) :: tables => (k, n) :: offsets (n + d.size) tables

/-- The sizes of the blocks. -/
def sizes (tables : Tables) : List (String × ℕ) := tables.map (fun e => (e.1, e.2.size))

/-- The offset after the last block. -/
def endOffset : ℕ → Tables → ℕ
  | n, [] => n
  | n, (_, d) :: tables => endOffset (n + d.size) tables

/-- The tokens of all blocks with their global ids. -/
def blockEntries : ℕ → Tables → List (String × ℤ)
  | _, [] => []
  | n, (_, d) :: tables => GlobalVocab.shifted n d ++ blockEntries (n + d.size) tables

variable {p : TokenizerPipeline}

theorem recordSize_of_flat {k : String} {t : Tokenizer} {n : ℕ}
    {d : Dict ℤ String} (h : t.idxToToken = some (.flat d)) :
    p.recordSize k t n =
      ({ p with vocabSizes := p.vocabSizes.set k d.size, vocabOffset := p.vocabOffset.set k n },
        n + d.size) := by
  unfold recordSize
  rw [h, Tokenizer.vocabSize_of_flat h]

/-- The steps of a pipeline are distinct, present, and build the given tables. -/
structure FlatSteps (steps : Dict String Tokenizer) (tables : Tables) : Prop where
  nodup : (tables.map Prod.fst).Nodup
  step : ∀ e ∈ tables, ∃ t, steps.get? e.1 = some t ∧ t.Builds e.2

/-- The steps `steps'` are the steps `steps`, each one of the tables built once. -/
structure BuiltSteps (steps steps' : Dict String Tokenizer) (tables : Tables) : Prop where
  built : ∀ e ∈ tables, ∃ t t', steps.get? e.1 = some t ∧ steps'.get? e.1 = some t' ∧
    t.BuiltFrom t'
  other : ∀ k, k ∉ tables.map Prod.fst → steps'.get? k = steps.get? k

/-- The frame has the column of every step. -/
def HasColumns (p : TokenizerPipeline) (df : DataFrame) : Prop :=
  ∀ k ∈ p.tokenizerOrder, k ∈ df.columns.keys

variable {df : DataFrame}

theorem columnData_eq {k : String} (hs : p.columnSpecs.get? k = some k) (hk : k ∈ df.columns.keys) :
    ∃ c, p.columnData df k = .ok c := by
  obtain ⟨c, hc⟩ := Option.isSome_iff_exists.mp (Dict.get?_isSome_iff.mpr hk)
  exact ⟨c, by simp only [columnData, hs, hc]⟩

variable {steps : Dict String Tokenizer} {tables : Tables}
variable {e : String × Dict ℤ String}

theorem FlatSteps.putStep (h : FlatSteps steps (e :: tables)) (t' : Tokenizer) :
    FlatSteps (steps.set e.1 t') tables := by
  have hn := List.nodup_cons.mp h.nodup
  refine ⟨hn.2, fun e' he' => ?_⟩
  obtain ⟨t, ht, hb⟩ := h.step e' (.tail _ he')
  have hne : e'.1 ≠ e.1 := fun heq => hn.1 (heq ▸ List.mem_map_of_mem he')
  exact ⟨t, by rw [Dict.get?_set_ne _ _ hne, ht], hb⟩

variable {steps' : Dict String Tokenizer}

theorem BuiltSteps.cons {t t' : Tokenizer} (hn : (e.1 :: tables.map Prod.fst).Nodup)
    (ht : steps.get? e.1 = some t) (hb : t.BuiltFrom t')
    (h : BuiltSteps (steps.set e.1 t') steps' tables) : BuiltSteps steps steps' (e :: tables) := by
  have hn := List.nodup_cons.mp hn
  constructor
  · intro e' he'
    obtain rfl | he' := List.mem_cons.mp he'
    · exact ⟨t, t', ht, by rw [h.other _ hn.1, Dict.get?_set_self], hb⟩
    · obtain ⟨u, u', hu, hu', hbu⟩ := h.built e' he'
      have hne : e'.1 ≠ e.1 := fun heq => hn.1 (heq ▸ List.mem_map_of_mem he')
      exact ⟨u, u', by rw [← hu, Dict.get?_set_ne _ _ hne], hu', hbu⟩
  · intro k hk
    simp only [List.map_cons, List.mem_cons, not_or] at hk
    rw [h.other k hk.2, Dict.get?_set_ne _ _ hk.1]

/-- The pipeline with built steps and the sizes and offsets of consecutive blocks. -/
def withOffsets (p : TokenizerPipeline) (steps' : Dict String Tokenizer) (n : ℕ) (tables : Tables) :
    TokenizerPipeline :=
  { p with
    steps := steps'
    vocabSizes := p.vocabSizes.setAll (sizes tables)
    vocabOffset := p.vocabOffset.setAll (offsets n tables) }

theorem buildLoop_eq (colOf : TokenizerPipeline → String → Except PyError (Option Column))
    (n : ℕ) (hp : FlatSteps p.steps tables)
    (hc : ∀ q, q.columnSpecs = p.columnSpecs → ∀ k ∈ tables.map Prod.fst, ∃ c, colOf q k = .ok c) :
    ∃ steps', BuiltSteps p.steps steps' tables ∧
      buildLoop colOf (tables.map Prod.fst) p n =
        .ok (p.withOffsets steps' n tables, endOffset n tables) := by
  induction tables generalizing p n with
  | nil => exact ⟨p.steps, ⟨by simp, fun _ _ => rfl⟩, rfl⟩
  | cons e tables ih =>
    obtain ⟨t, ht, hbuilds⟩ := hp.step e (by simp)
    obtain ⟨c, hcol⟩ := hc p rfl e.1 (by simp)
    have hb := t.builtFrom_buildVocab c
    have hflat := hbuilds.idxToToken hb
    obtain ⟨steps', hsteps, hloop⟩ := ih (p := ((p.putStep e.1 (t.buildVocab c)).recordSize
      e.1 (t.buildVocab c) n).1) (n + e.2.size)
      (by rw [recordSize_of_flat hflat]; exact hp.putStep _)
      (by rw [recordSize_of_flat hflat]; exact fun q hq k hk => hc q hq k (by simp [hk]))
    rw [recordSize_of_flat hflat] at hsteps hloop
    refine ⟨steps', .cons hp.nodup ht hb hsteps, ?_⟩
    simp only [List.map_cons, buildLoop, hcol, stepOf, ht, ok_bind, recordSize_of_flat hflat]
    exact hloop

theorem fitParallelBuild_eq {l : List (Stream × String)} (hl : l.map Prod.snd = tables.map Prod.fst)
    (hp : FlatSteps p.steps tables) (hs : ∀ k ∈ tables.map Prod.fst, p.columnSpecs.get? k = some k)
    (hc : ∀ k ∈ tables.map Prod.fst, k ∈ df.columns.keys) :
    ∃ steps', BuiltSteps p.steps steps' tables ∧
      fitParallelBuild df l p = .ok { p with steps := steps' } := by
  induction tables generalizing p l with
  | nil =>
    obtain rfl : l = [] := by simpa using hl
    exact ⟨p.steps, ⟨by simp, fun _ _ => rfl⟩, rfl⟩
  | cons e tables ih =>
    obtain ⟨⟨stream, k⟩, l, rfl⟩ := List.exists_cons_of_ne_nil (l := l) (by rintro rfl; simp at hl)
    simp only [List.map_cons, List.cons.injEq] at hl
    obtain ⟨rfl, hl⟩ := hl
    obtain ⟨t, ht, hbuilds⟩ := hp.step e (by simp)
    obtain ⟨c, hcol⟩ := columnData_eq (hs e.1 (by simp)) (hc e.1 (by simp))
    obtain ⟨steps', hsteps, hloop⟩ := ih (p := p.putStep e.1
      (((t.setStream (some stream)).buildVocab (some c)).setStream t.stream)) hl
      (hp.putStep _) (fun k hk => hs k (by simp [hk])) (fun k hk => hc k (by simp [hk]))
    refine ⟨steps', .cons hp.nodup ht ⟨some stream, some c, rfl⟩ hsteps, ?_⟩
    simp only [fitParallelBuild, hcol, stepOf, ht, ok_bind]
    exact hloop

/-- Every step has its table. -/
def HasTables (steps : Dict String Tokenizer) (tables : Tables) : Prop :=
  ∀ e ∈ tables, ∃ t, steps.get? e.1 = some t ∧ t.idxToToken = some (.flat e.2)

theorem BuiltSteps.hasTables (h : BuiltSteps steps steps' tables) (hp : FlatSteps steps tables) :
    HasTables steps' tables := by
  intro e he
  obtain ⟨t, t', ht, ht', hb⟩ := h.built e he
  obtain ⟨u, hu, hbuilds⟩ := hp.step e he
  obtain rfl : t = u := Option.some.inj (ht.symm.trans hu)
  exact ⟨t', ht', hbuilds.idxToToken hb⟩

theorem fitParallelNumber_eq (n : ℕ) (hp : HasTables p.steps tables) :
    fitParallelNumber (tables.map Prod.fst) p n =
      .ok (p.withOffsets p.steps n tables, endOffset n tables) := by
  induction tables generalizing p n with
  | nil => rfl
  | cons e tables ih =>
    obtain ⟨t, ht, hflat⟩ := hp e (by simp)
    have hloop := ih (p := (p.recordSize e.1 t n).1) (n + e.2.size)
      (by rw [recordSize_of_flat hflat]; exact fun e' he' => hp e' (.tail _ he'))
    rw [recordSize_of_flat hflat] at hloop
    simp only [List.map_cons, fitParallelNumber, stepOf, ht, ok_bind, recordSize_of_flat hflat]
    exact hloop

theorem globalVocabLoop_eq (n : ℕ) (g : GlobalVocab) (hp : HasTables p.steps tables)
    (ho : ∀ e ∈ offsets n tables, p.vocabOffset.get? e.1 = some e.2) :
    globalVocabLoop p (tables.map Prod.fst) g =
      .ok ((blockEntries n tables).foldl GlobalVocab.add g) := by
  induction tables generalizing n g with
  | nil => rfl
  | cons e tables ih =>
    obtain ⟨t, ht, hflat⟩ := hp e (by simp)
    have hoff : p.vocabOffset.get? e.1 = some n := ho (e.1, n) (by simp [offsets])
    simp only [List.map_cons, globalVocabLoop, stepOf, ht, ok_bind, stepEntries, hflat, hoff,
      Option.getD_some]
    rw [ih (n + e.2.size) _ (fun e' he' => hp e' (.tail _ he'))
      (fun e' he' => ho e' (by simp [offsets, he']))]
    rw [blockEntries, List.foldl_append]

theorem buildGlobalVocab_eq {n : ℕ}
    (ho : p.tokenizerOrder = tables.map Prod.fst) (hp : HasTables p.steps tables)
    (hoff : ∀ e ∈ offsets n tables, p.vocabOffset.get? e.1 = some e.2) :
    p.buildGlobalVocab = .ok { p with globalVocab := some ⟨
      Dict.ofList (p.specialTokenIds.entries ++ blockEntries n tables),
      Dict.ofList ((p.specialTokenIds.entries ++ blockEntries n tables).map Prod.swap)⟩ } := by
  simp only [buildGlobalVocab, ho, globalVocabLoop_eq n _ hp hoff, GlobalVocab.foldl_add, ok_bind,
    List.map_append, Dict.ofList, Dict.setAll_append]
  rfl

@[simp] theorem map_fst_offsets (n : ℕ) (tables : Tables) :
    (offsets n tables).map Prod.fst = tables.map Prod.fst := by
  induction tables generalizing n with
  | nil => rfl
  | cons e tables ih => simp [offsets, ih]

/-- What a fit leaves behind: the tables of the steps, withOffsets block after block. -/
structure FittedAs (p p' : TokenizerPipeline) (tables : Tables) : Prop where
  steps : BuiltSteps p.steps p'.steps tables
  order : p'.tokenizerOrder = p.tokenizerOrder
  specs : p'.columnSpecs = p.columnSpecs
  useStreams : p'.useStreams = p.useStreams
  isFitted : p'.isFitted = true
  vocabSizes : p'.vocabSizes = p.vocabSizes.setAll (sizes tables)
  vocabOffset : p'.vocabOffset = p.vocabOffset.setAll (offsets p.numSpecialTokens tables)
  globalVocabSize : p'.globalVocabSize = endOffset p.numSpecialTokens tables
  vocab : p'.vocab =
    Dict.ofList (p.specialTokenIds.entries ++ blockEntries p.numSpecialTokens tables)
  idToToken : p'.idToToken = Dict.ofList
    ((p.specialTokenIds.entries ++ blockEntries p.numSpecialTokens tables).map Prod.swap)

/-- The pipeline's steps build `tables`, in this order, each from the column of its name. -/
structure HasSteps (p : TokenizerPipeline) (tables : Tables) : Prop where
  order : p.tokenizerOrder = tables.map Prod.fst
  specs : ∀ k ∈ tables.map Prod.fst, p.columnSpecs.get? k = some k
  flat : FlatSteps p.steps tables

/-- The pipeline after either fitting loop. -/
def numbered (p : TokenizerPipeline) (steps' : Dict String Tokenizer) (tables : Tables) :
    TokenizerPipeline :=
  { p.withOffsets steps' p.numSpecialTokens tables with
    globalVocabSize := endOffset p.numSpecialTokens tables }

section fitting
variable {p : TokenizerPipeline} {tables : Tables} {df : DataFrame}

theorem HasColumns.of_hasSteps (hc : p.HasColumns df) (h : p.HasSteps tables) :
    ∀ k ∈ tables.map Prod.fst, k ∈ df.columns.keys := by
  intro k hk
  exact hc k (by rwa [h.order])

theorem fitSequential_eq (h : p.HasSteps tables) (hc : p.HasColumns df) :
    ∃ steps', BuiltSteps p.steps steps' tables ∧
      p.fitSequential df = .ok (p.numbered steps' tables) := by
  obtain ⟨steps', hb, hloop⟩ := buildLoop_eq (fun p k => (p.columnData df k).map some)
    p.numSpecialTokens h.flat (fun q hq k hk => by
      obtain ⟨c, hcol⟩ := columnData_eq (p := q) (by rw [hq]; exact h.specs k hk)
        (hc.of_hasSteps h k hk)
      exact ⟨some c, by rw [hcol]; rfl⟩)
  refine ⟨steps', hb, ?_⟩
  unfold fitSequential
  rw [h.order, hloop]
  rfl

theorem fitParallel_eq (h : p.HasSteps tables) (hc : p.HasColumns df) :
    ∃ steps', BuiltSteps p.steps steps' tables ∧
      p.fitParallel df = .ok (p.numbered steps' tables) := by
  have hl : ((List.range p.tokenizerOrder.length).zip p.tokenizerOrder).map Prod.snd =
      tables.map Prod.fst := by
    rw [List.map_snd_zip (by simp), h.order]
  obtain ⟨steps', hb, hbuild⟩ := fitParallelBuild_eq hl h.flat h.specs (hc.of_hasSteps h)
  have hnumber := fitParallelNumber_eq (p := { p with steps := steps' }) p.numSpecialTokens
    (hb.hasTables h.flat)
  rw [← h.order] at hnumber
  refine ⟨steps', hb, ?_⟩
  unfold fitParallel
  simp only [hbuild, ok_bind, hnumber]
  rfl

theorem fittedAs_of_numbered {steps' : Dict String Tokenizer} (h : p.HasSteps tables)
    (hb : BuiltSteps p.steps steps' tables) :
    ∃ q, (p.numbered steps' tables).buildGlobalVocab = .ok q ∧
      p.FittedAs { q with isFitted := true } tables := by
  have hvocab := buildGlobalVocab_eq (p := p.numbered steps' tables) h.order (hb.hasTables h.flat)
    (fun e he => Dict.get?_setAll_of_mem _ (by rw [map_fst_offsets]; exact h.flat.nodup) he)
  exact ⟨_, hvocab, hb, rfl, rfl, rfl, rfl, rfl, rfl, rfl, rfl, rfl⟩

/-- Fitting succeeds on every frame with the step columns, by either loop, with the same result up
to the columns and streams the steps were built on. -/
theorem fit_eq (h : p.HasSteps tables) (hc : p.HasColumns df) :
    ∃ p', p.fit df = .ok p' ∧ p.FittedAs p' tables := by
  have hloop : ∃ steps', BuiltSteps p.steps steps' tables ∧
      p.fitSteps df = .ok (p.numbered steps' tables) := by
    unfold fitSteps
    split_ifs
    · exact fitParallel_eq h hc
    · exact fitSequential_eq h hc
  obtain ⟨steps', hb, hfit⟩ := hloop
  obtain ⟨q, hq, hfitted⟩ := fittedAs_of_numbered h hb
  refine ⟨_, ?_, hfitted⟩
  unfold fit
  rw [hfit, ok_bind, hq, ok_bind]

end fitting

/-- Everything `fit` computes about the vocabulary. -/
structure Vocabulary where
  vocab : Dict String ℤ
  idToToken : Dict ℤ String
  vocabOffset : Dict String ℕ
  vocabSizes : Dict String ℕ
  globalVocabSize : ℕ
deriving DecidableEq, Repr

def vocabulary (p : TokenizerPipeline) : Vocabulary :=
  ⟨p.vocab, p.idToToken, p.vocabOffset, p.vocabSizes, p.globalVocabSize⟩

/-- The vocabulary of consecutive blocks after the special tokens. -/
def vocabularyOf (specialTokens : Dict String String) (tables : Tables) : Vocabulary :=
  let entries := (specialIds specialTokens).entries ++ blockEntries specialTokens.size tables
  ⟨Dict.ofList entries, Dict.ofList (entries.map Prod.swap),
    Dict.ofList (offsets specialTokens.size tables), Dict.ofList (sizes tables),
    endOffset specialTokens.size tables⟩

/-- A pipeline whose dictionaries are as the constructor leaves them. -/
structure Fresh (p : TokenizerPipeline) : Prop where
  vocabSizes : p.vocabSizes = Dict.empty
  vocabOffset : p.vocabOffset = Dict.empty
  specialTokenIds : p.specialTokenIds = specialIds p.specialTokens
  numSpecialTokens : p.numSpecialTokens = p.specialTokens.size

theorem FittedAs.vocabulary_eq {p' : TokenizerPipeline} (h : p.FittedAs p' tables) (hp : p.Fresh) :
    p'.vocabulary = vocabularyOf p.specialTokens tables := by
  unfold vocabulary vocabularyOf
  rw [h.vocab, h.idToToken, h.vocabOffset, h.vocabSizes, h.globalVocabSize, hp.vocabSizes,
    hp.vocabOffset, hp.specialTokenIds, hp.numSpecialTokens]
  rfl

theorem blockEntries_append (n : ℕ) (l₁ l₂ : Tables) :
    blockEntries n (l₁ ++ l₂) = blockEntries n l₁ ++ blockEntries (endOffset n l₁) l₂ := by
  induction l₁ generalizing n with
  | nil => rfl
  | cons e l₁ ih => simp [blockEntries, endOffset, ih]

theorem exists_of_mem_blockEntries {n : ℕ} {e : String × ℤ}
    (h : e ∈ blockEntries n tables) : ∃ t ∈ tables, ∃ i, (i, e.1) ∈ t.2.entries := by
  induction tables generalizing n with
  | nil => cases h
  | cons t tables ih =>
    obtain h | h := List.mem_append.mp h
    · obtain ⟨x, hx, rfl⟩ := List.mem_map.mp h
      exact ⟨t, .head _, x.1, hx⟩
    · obtain ⟨t', ht', hi⟩ := ih h
      exact ⟨t', .tail _ ht', hi⟩

/-- Two distinct tokens have distinct ids, ids and tokens are inverse to each other, and every id
lies below the vocabulary size. -/
def VocabBijective (p : TokenizerPipeline) : Prop :=
  (∀ s s' i, p.vocab.get? s = some i → p.vocab.get? s' = some i → s = s') ∧
  (∀ s i, p.vocab.get? s = some i ↔ p.idToToken.get? i = some s) ∧
  (∀ s i, p.vocab.get? s = some i → 0 ≤ i ∧ i < p.globalVocabSize)

/-! ### Transforming -/

/-- The results of the steps by id. -/
abbrev TokenFrame := Dict String TokenColumn

/-- One step of `transform`; a stream is lent to the step and taken back. -/
def transformStep (log : ℚ → ℚ) (p : TokenizerPipeline) (df : DataFrame) (stream : Option Stream)
    (tokId : String) : Except PyError (String × TokenColumn) := do
  let column ← match p.columnSpecs.get? tokId with
    | some c => .ok c
    | none => .error .keyError
  let colData ← match df.columns.get? column with
    | some c => .ok c
    | none => .error .keyError
  let t ← p.stepOf tokId
  let t := match stream with
    | some s => t.setStream (some s)
    | none => t
  let result ← t.tokenize log colData
  .ok (tokId, result)

def transform (log : ℚ → ℚ) (p : TokenizerPipeline) (df : DataFrame) :
    Except PyError TokenFrame := do
  if !p.isFitted then
    .error (.valueError "Must call fit() before transform()")
  else
    let streams : List (Option Stream) :=
      if p.useStreams ∧ p.streamThreshold ≤ p.steps.size then
        (List.range p.tokenizerOrder.length).map some
      else List.replicate p.tokenizerOrder.length none
    let parts ← (streams.zip p.tokenizerOrder).mapM (fun s => p.transformStep log df s.1 s.2)
    if parts = [] then .error (.valueError "No objects to concatenate")
    else .ok (Dict.ofList parts)

/-- A fitted pipeline with the given steps, each in the state a build without data leaves. -/
structure FittedSteps (p : TokenizerPipeline) (l : List (String × Tokenizer)) : Prop where
  isFitted : p.isFitted = true
  order : p.tokenizerOrder = l.map Prod.fst
  specs : ∀ e ∈ l, p.columnSpecs.get? e.1 = some e.1
  steps : ∀ e ∈ l, p.steps.get? e.1 = some (e.2.buildVocab none)

variable {l : List (String × Tokenizer)}

theorem transformStep_eq {log : ℚ → ℚ}
    (h : p.FittedSteps l) (stream : Option Stream) {e : String × Tokenizer}
    (he : e ∈ l) {c : Column} {toks : TokenColumn} (hc : df.columns.get? e.1 = some c)
    (ht : (e.2.buildVocab none).tokenize log c = .ok toks) :
    p.transformStep log df stream e.1 = .ok (e.1, toks) := by
  have hstream : ∀ s, ((e.2.buildVocab none).setStream s).tokenize log c = .ok toks := by
    intro s
    rw [Tokenizer.tokenize_setStream, ht]
  unfold transformStep
  simp only [h.specs e he, hc, stepOf, h.steps e he, ok_bind]
  cases stream with
  | none => simp only [ht, ok_bind]
  | some s => simp only [hstream, ok_bind]

theorem transform_eq {log : ℚ → ℚ}
    (h : p.FittedSteps l) (hl : l ≠ []) {res : String × Tokenizer → TokenColumn}
    (hres : ∀ e ∈ l, ∃ c, df.columns.get? e.1 = some c ∧
      (e.2.buildVocab none).tokenize log c = .ok (res e)) :
    p.transform log df = .ok (Dict.ofList (l.map (fun e => (e.1, res e)))) := by
  have hloop : ∀ (streams : List (Option Stream)) (l' : List (String × Tokenizer)),
      streams.length = l'.length → (∀ e ∈ l', e ∈ l) →
      (streams.zip (l'.map Prod.fst)).mapM (fun s => p.transformStep log df s.1 s.2) =
        .ok (l'.map (fun e => (e.1, res e))) := by
    intro streams l'
    induction l' generalizing streams with
    | nil => exact fun _ _ => by rw [List.map_nil, List.zip_nil_right]; rfl
    | cons e l' ih =>
      intro hlen hsub
      obtain ⟨s, streams, rfl⟩ := List.exists_cons_of_ne_nil (l := streams)
        (by rintro rfl; simp at hlen)
      obtain ⟨c, hc, ht⟩ := hres e (hsub e (.head _))
      rw [List.map_cons, List.zip_cons_cons, List.mapM_cons,
        transformStep_eq h s (hsub e (.head _)) hc ht, ok_bind,
        ih streams (by simpa using hlen) (fun e' he' => hsub e' (.tail _ he'))]
      rfl
  unfold transform
  rw [h.isFitted, h.order]
  simp only [Bool.not_true, Bool.false_eq_true, if_false]
  rw [hloop _ l (by split_ifs <;> simp) (fun _ he => he), ok_bind, if_neg (by simpa using hl)]

end TokenizerPipeline
end RayTfm.Tfm
