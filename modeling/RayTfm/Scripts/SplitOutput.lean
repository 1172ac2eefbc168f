import RayTfm.Scripts.TemporalSplits

/-! # The output directory of the temporal splits

`main` of `create_temporal_splits.py` on a file tree: it refuses or clears an output directory
whose three splits all hold data, creates the missing directories, and writes one file to every
split that gets rows.

The test is for all three splits, but a run writes only the splits that get rows.  So after a run
without val rows the directory is neither refused nor cleared, and what an earlier run left in a
split that gets no rows this time stays there (`main_meets_iff`). -/

namespace RayTfm.Scripts

/-! ### The file tree -/

/-- What is at a path. -/
inductive PathEntry (α β : Type) where
  | absent
  | file (content : α)
  | dir (content : β)
deriving DecidableEq, Repr

def PathEntry.isDir {α β : Type} : PathEntry α β → Bool
  | .dir _ => true
  | _ => false

def PathEntry.isFile {α β : Type} : PathEntry α β → Bool
  | .file _ => true
  | _ => false

/-- The contents of `_split_metadata.json`, without the path of the raw file and the time taken. -/
structure Metadata where
  rows : ℕ
  trainCut : String
  testCut : String
  splits : Split → SplitStats

/-- The output directory: the paths of the splits, of the metadata, and the other names in it. -/
structure OutputDir (ρ : Type) where
  splits : Split → PathEntry Unit (SplitDir ρ)
  metadata : PathEntry (Option Metadata) Unit
  others : List String

/-- The path given by `--output-dir`. -/
abbrev OutputPath (ρ : Type) := PathEntry Unit (OutputDir ρ)

variable {ρ : Type}

namespace OutputDir

/-- A directory without entries. -/
def empty : OutputDir ρ := ⟨fun _ => .absent, .absent, []⟩

/-- The entries of a split; none if it is not a directory. -/
def content (d : OutputDir ρ) (s : Split) : SplitDir ρ :=
  match d.splits s with
  | .dir c => c
  | _ => Dict.empty

/-- `is_dir() and any(iterdir())`. -/
def holdsData (d : OutputDir ρ) (s : Split) : Bool := (d.content s).entries.length ≠ 0

/-- `mkdir(exist_ok=True)` for a split. -/
def mkdirSplit (outputDir : String) (d : OutputDir ρ) (s : Split) : Except PyError (OutputDir ρ) :=
  match d.splits s with
  | .absent => .ok { d with splits := Function.update d.splits s (.dir Dict.empty) }
  | .dir _ => .ok d
  | .file _ => .error (.fileExistsError
      ("[Errno 17] File exists: '" ++ outputDir ++ "/" ++ s.name ++ "'"))

end OutputDir

/-- `split_dirs_ready`. -/
def splitDirsReady (p : OutputPath ρ) : Bool :=
  match p with
  | .dir d => splits.all d.holdsData
  | _ => false

/-- `prepare_output_dir`: the prepared directory, or the path and the exception. -/
def prepareOutputDir (outputDir : String) (overwrite : Bool) (p : OutputPath ρ) :
    Except (OutputPath ρ × PyError) (OutputDir ρ) :=
  if splitDirsReady p ∧ overwrite = false then
    .error (p, .fileExistsError
      ("Split output already exists; pass --overwrite to replace: " ++ outputDir))
  else
    -- `rmtree` of a directory that is ready, then `mkdir`
    let made := match if splitDirsReady p then .absent else p with
      | .file _ => none
      | .absent => some .empty
      | .dir d => some d
    match made with
    | none => .error (p, .fileExistsError ("[Errno 17] File exists: '" ++ outputDir ++ "'"))
    | some d =>
      match runAll (OutputDir.mkdirSplit outputDir) splits d with
      | (d, none) => .ok d
      | (d, some e) => .error (.dir d, e)

/-! ### The script -/

/-- The arguments: the raw file if there is one at the path, the ratios and the options. -/
structure Args (ρ : Type) where
  rawParquet : String
  raw : Option (ParquetFile ρ)
  outputDir : String
  trainRatio : ℚ
  testRatio : ℚ
  batchSize : ℕ
  overwrite : Bool

/-- `validate_args`. -/
def validateArgs (args : Args ρ) : Except PyError (ParquetFile ρ) :=
  match args.raw with
  | none => .error (.fileNotFoundError ("Raw parquet file does not exist: " ++ args.rawParquet))
  | some raw =>
    if 0 < args.trainRatio ∧ args.trainRatio < args.testRatio ∧ args.testRatio < 1 then .ok raw
    else .error (.valueError
      "--train-ratio and --test-ratio must satisfy 0 < train < test < 1")

/-- A split directory after its writer is closed. -/
def closeWriter (run : ℕ) (d : OutputDir ρ) (st : WriteState ρ) (s : Split) : SplitDir ρ :=
  match st.writers s with
  | some rows => (d.content s).set partName (.file ⟨run, some rows⟩)
  | none => d.content s

/-- `write_splits` and `write_metadata` in a prepared directory. -/
def writeOutput (upper : String → String) (run : ℕ) (raw : ParquetFile ρ) (batchSize : ℕ)
    (total : ℕ) (trainCut testCut : String) (d : OutputDir ρ) :
    OutputPath ρ × Except PyError (Split → SplitStats) :=
  let out := writeSplits upper raw d.content trainCut testCut batchSize
  let d := { d with splits := fun s => .dir (closeWriter run d out.1 s) }
  match out.2 with
  | some e => (.dir d, .error e)
  | none =>
    match d.metadata with
    | .dir _ => (.dir d, .error (.isADirectoryError "_split_metadata.json"))
    | _ => (.dir { d with metadata := .file (some ⟨total, trainCut, testCut, out.1.stats⟩) },
        .ok out.1.stats)

/-- `main`, as the run with the given number: the path afterwards and the outcome. -/
def main (upper : String → String) (run : ℕ) (args : Args ρ) (p : OutputPath ρ) :
    OutputPath ρ × Except PyError (Split → SplitStats) :=
  match validateArgs args with
  | .error e => (p, .error e)
  | .ok raw =>
    let counts := computeDailyCounts raw args.batchSize
    match cutoffsFromCounts counts.1 counts.2 args.trainRatio args.testRatio with
    | .error e => (p, .error e)
    | .ok (trainCut, testCut) =>
      match prepareOutputDir args.outputDir args.overwrite p with
      | .error (p, e) => (p, .error e)
      | .ok d => writeOutput upper run raw args.batchSize counts.2 trainCut testCut d

/-! ### What a run should leave -/

/-- The files of an entry. -/
def Entry.files : Entry ρ → List (SplitFile ρ)
  | .file f => [f]
  | .dir files => files

/-- The files below a split directory. -/
def SplitDir.files (c : SplitDir ρ) : List (SplitFile ρ) := c.entries.flatMap (fun e => e.2.files)

/-- The files below the three splits. -/
def splitFiles (p : OutputPath ρ) : List (SplitFile ρ) :=
  match p with
  | .dir d => splits.flatMap (fun s => SplitDir.files (d.content s))
  | _ => []

/-- The splits hold exactly the rows of the raw file, in files of this run. -/
structure CleanOutput (run : ℕ) (raw : ParquetFile ρ) (p : OutputPath ρ) : Prop where
  rows : ((splitFiles p).flatMap (fun f => f.rows.getD [])).Perm (raw.rows.map normalizeRow)
  run_eq : ∀ f ∈ splitFiles p, f.run = run

/-- A split directory holds data. -/
def HoldsData (p : OutputPath ρ) (s : Split) : Prop := ∃ d, p = .dir d ∧ d.holdsData s = true

/-- What a run should do: when it returns, the output is clean; and without `--overwrite` it
refuses a directory that holds data. -/
def Meets (upper : String → String) (run : ℕ) (args : Args ρ) (p : OutputPath ρ) : Prop :=
  (∀ raw stats, args.raw = some raw → (main upper run args p).2 = .ok stats →
    CleanOutput run raw (main upper run args p).1) ∧
  (args.overwrite = false → (∃ s, HoldsData p s) →
    (∃ msg, (main upper run args p).2 = .error (.fileExistsError msg)) ∧
      (main upper run args p).1 = p)

/-! ### When it does -/

/-- The arguments are accepted and there is a row. -/
def Args.Valid (args : Args ρ) (raw : ParquetFile ρ) : Prop :=
  args.raw = some raw ∧ 0 < args.trainRatio ∧ args.trainRatio < args.testRatio ∧
    args.testRatio < 1 ∧ raw.rows ≠ []

/-- A split gets rows. -/
def Receives (args : Args ρ) (raw : ParquetFile ρ) (s : Split) : Prop :=
  ∃ r ∈ raw.rows, splitOf raw.rows args.trainRatio args.testRatio r = s

/-- All files below the splits are replaced: they are part files of splits that get rows. -/
def AllReplaced (args : Args ρ) (raw : ParquetFile ρ) (d : OutputDir ρ) : Prop :=
  ∀ s, ∀ e ∈ (d.content s).entries, e.2.files ≠ [] → e.1 = partName ∧ Receives args raw s

/-- Something in the directory is in the way: a file at the path of a split, or a directory at the
path of a file that is written. -/
def InTheWay (args : Args ρ) (raw : ParquetFile ρ) (d : OutputDir ρ) : Prop :=
  (∃ s, (d.splits s).isFile = true) ∨ (∃ s, Receives args raw s ∧ (d.content s).PartIsDir) ∨
    d.metadata.isDir = true

/-- The first split that is not a directory is a file, so nothing is created before `mkdir`
raises. -/
def RefusedAtOnce (d : OutputDir ρ) : Prop :=
  ∃ s, splits.find? (fun s => !(d.splits s).isDir) = some s ∧ (d.splits s).isFile = true

/-- The runs that do what they should. -/
def MeetsWhen (args : Args ρ) (p : OutputPath ρ) : Prop :=
  if args.overwrite then
    ∀ raw d, args.Valid raw → p = .dir d → splitDirsReady p ∨ InTheWay args raw d ∨
      AllReplaced args raw d
  else
    (∀ s, ¬ HoldsData p s) ∨
      ((∃ raw, args.Valid raw) ∧ (splitDirsReady p ∨ ∃ d, p = .dir d ∧ RefusedAtOnce d))

/-! ### Preparing the directory -/

/-- The directory after `mkdir` of some splits. -/
def OutputDir.make (d : OutputDir ρ) (done : List Split) : OutputDir ρ :=
  { d with splits := fun s => if s ∈ done then .dir (d.content s) else d.splits s }

variable {d : OutputDir ρ} {s : Split}

theorem OutputDir.content_of_dir {c : SplitDir ρ} (h : d.splits s = .dir c) : d.content s = c := by
  rw [content, h]

theorem OutputDir.content_make (d : OutputDir ρ) (done : List Split) :
    (d.make done).content = d.content := by
  funext s
  by_cases hs : s ∈ done
  · exact content_of_dir (if_pos hs)
  · rw [content, content, show (d.make done).splits s = d.splits s from if_neg hs]

/-- A split that is a directory already needs no `mkdir`. -/
theorem OutputDir.make_eq_self {done : List Split}
    (h : ∀ s ∈ done, (d.splits s).isDir = true) : d.make done = d := by
  have hsplits : (d.make done).splits = d.splits := by
    funext s
    by_cases hs : s ∈ done
    · rw [show (d.make done).splits s = .dir (d.content s) from if_pos hs]
      cases hd : d.splits s with
      | absent => have := h s hs; rw [hd] at this; cases this
      | file c => have := h s hs; rw [hd] at this; cases this
      | dir c => rw [content_of_dir hd]
    · exact if_neg hs
  exact congrArg (fun f => (⟨f, d.metadata, d.others⟩ : OutputDir ρ)) hsplits

theorem OutputDir.mkdirSplit_make {outputDir : String} {d' : OutputDir ρ} {done : List Split}
    (h : (d.make done).mkdirSplit outputDir s = .ok d') :
    d' = d.make (done ++ [s]) ∧ (s ∉ done → (d.splits s).isFile = false) := by
  have hset : ∀ s', (d.make (done ++ [s])).splits s' =
      Function.update (d.make done).splits s (.dir (d.content s)) s' := by
    intro s'
    by_cases hs : s' = s
    · subst hs
      rw [Function.update_self]
      exact if_pos (by simp)
    · rw [Function.update_of_ne hs]
      simp [make, hs]
  unfold mkdirSplit at h
  cases hd : (d.make done).splits s with
  | absent =>
    rw [hd] at h
    cases h
    have hnot : s ∉ done := fun hs => by
      rw [show (d.make done).splits s = .dir (d.content s) from if_pos hs] at hd
      cases hd
    have hsame : d.splits s = .absent := by
      rw [← hd]
      exact (if_neg hnot).symm
    refine ⟨?_, fun _ => by rw [hsame]; rfl⟩
    have hcontent : d.content s = Dict.empty := by rw [content, hsame]
    have hsplits := funext hset
    rw [hcontent] at hsplits
    exact congrArg (fun f => (⟨f, d.metadata, d.others⟩ : OutputDir ρ)) hsplits.symm
  | file c =>
    rw [hd] at h
    cases h
  | dir c =>
    rw [hd] at h
    cases h
    have hc : d.content s = c := by
      rw [← d.content_make done]
      exact content_of_dir hd
    have hsplits := funext hset
    rw [hc, ← hd, Function.update_eq_self] at hsplits
    refine ⟨congrArg (fun f => (⟨f, d.metadata, d.others⟩ : OutputDir ρ)) hsplits.symm,
      fun hnot => ?_⟩
    have hsame : d.splits s = .dir c := by
      rw [← hd]
      exact (if_neg hnot).symm
    rw [hsame]
    rfl

/-- `mkdir` of the three splits succeeds, or stops at the first one that is a file. -/
theorem runAll_mkdirSplit (outputDir : String) (d : OutputDir ρ) :
    (runAll (OutputDir.mkdirSplit outputDir) splits d = (d.make splits, none) ∧
        ∀ s, (d.splits s).isFile = false) ∨
      ∃ done s rest msg, splits = done ++ s :: rest ∧
        runAll (OutputDir.mkdirSplit outputDir) splits d =
          (d.make done, some (.fileExistsError msg)) ∧
        (∀ s' ∈ done, (d.splits s').isFile = false) ∧ (d.splits s).isFile = true := by
  have hstep : ∀ (done : List Split) (d' : OutputDir ρ) s d'',
      (d' = d.make done ∧ ∀ s' ∈ done, (d.splits s').isFile = false) →
      d'.mkdirSplit outputDir s = .ok d'' →
      (d'' = d.make (done ++ [s]) ∧ ∀ s' ∈ done ++ [s], (d.splits s').isFile = false) := by
    rintro done d' s d'' ⟨rfl, hdone⟩ hmk
    obtain ⟨hd'', hs⟩ := OutputDir.mkdirSplit_make hmk
    refine ⟨hd'', fun s' hs' => ?_⟩
    by_cases hmem : s' ∈ done
    · exact hdone s' hmem
    · obtain hs' | hs' := List.mem_append.mp hs'
      · exact absurd hs' hmem
      · obtain rfl := List.mem_singleton.mp hs'
        exact hs hmem
  have h0 : d = d.make [] ∧ ∀ s' ∈ ([] : List Split), (d.splits s').isFile = false :=
    ⟨(OutputDir.make_eq_self (by simp)).symm, by simp⟩
  obtain ⟨hnone, hd', hfiles⟩ | ⟨done, s, rest, e, hsplits, he, ⟨hd', hfiles⟩, herr⟩ :=
    runAll_spec (l := splits) hstep h0
  · exact .inl ⟨Prod.ext hd' hnone, fun s => hfiles s (by cases s <;> simp [splits])⟩
  · have hnot : s ∉ done := by
      have hnodup : (done ++ s :: rest).Nodup := hsplits ▸ (by decide : splits.Nodup)
      rw [List.nodup_append] at hnodup
      exact fun hs => hnodup.2.2 s hs s (.head _) rfl
    rw [hd'] at herr
    unfold OutputDir.mkdirSplit at herr
    rw [show (d.make done).splits s = d.splits s from if_neg hnot] at herr
    cases hs : d.splits s with
    | absent => rw [hs] at herr; cases herr
    | dir c => rw [hs] at herr; cases herr
    | file c =>
      rw [hs] at herr
      cases herr
      exact .inr ⟨done, s, rest, _, hsplits, Prod.ext hd' he, hfiles, by rw [hs]; rfl⟩

theorem runAll_mkdirSplit_empty (outputDir : String) :
    runAll (OutputDir.mkdirSplit outputDir) splits (OutputDir.empty : OutputDir ρ) =
      (OutputDir.empty.make splits, none) := by
  obtain ⟨h, -⟩ | ⟨_, s, _, _, _, _, _, hfile⟩ :=
    runAll_mkdirSplit outputDir (OutputDir.empty : OutputDir ρ)
  · exact h
  · cases hfile

theorem prepareOutputDir_of_ready (outputDir : String) {p : OutputPath ρ}
    (hp : splitDirsReady p = true) :
    (∃ msg, prepareOutputDir outputDir false p = .error (p, .fileExistsError msg)) ∧
      prepareOutputDir outputDir true p = .ok (OutputDir.empty.make splits) := by
  constructor
  · exact ⟨_, if_pos ⟨hp, rfl⟩⟩
  · unfold prepareOutputDir
    rw [if_neg (by simp), hp]
    simp only [if_true, runAll_mkdirSplit_empty]

theorem prepareOutputDir_absent (outputDir : String) (overwrite : Bool) :
    prepareOutputDir outputDir overwrite (.absent : OutputPath ρ) =
      .ok (OutputDir.empty.make splits) := by
  unfold prepareOutputDir
  rw [if_neg (fun h => absurd h.1 (by simp [splitDirsReady]))]
  simp only [splitDirsReady, Bool.false_eq_true, if_false, runAll_mkdirSplit_empty]

theorem prepareOutputDir_file (outputDir : String) (overwrite : Bool) :
    ∃ msg, prepareOutputDir outputDir overwrite (.file () : OutputPath ρ) =
      .error (.file (), .fileExistsError msg) := by
  unfold prepareOutputDir
  rw [if_neg (fun h => absurd h.1 (by simp [splitDirsReady]))]
  exact ⟨_, rfl⟩

theorem prepareOutputDir_of_not_ready (outputDir : String) (overwrite : Bool)
    (hp : splitDirsReady (.dir d) = false) :
    (prepareOutputDir outputDir overwrite (.dir d) = .ok (d.make splits) ∧
        ∀ s, (d.splits s).isFile = false) ∨
      ∃ done s rest msg, splits = done ++ s :: rest ∧
        prepareOutputDir outputDir overwrite (.dir d) =
          .error (.dir (d.make done), .fileExistsError msg) ∧
        (∀ s' ∈ done, (d.splits s').isFile = false) ∧ (d.splits s).isFile = true := by
  have hprep : prepareOutputDir outputDir overwrite (.dir d) =
      match runAll (OutputDir.mkdirSplit outputDir) splits d with
      | (d, none) => .ok d
      | (d, some e) => .error (.dir d, e) := by
    unfold prepareOutputDir
    rw [if_neg (fun h => absurd h.1 (by simp [hp])), hp]
    simp only [Bool.false_eq_true, if_false]
  obtain ⟨h, hfiles⟩ | ⟨done, s, rest, msg, hsplits, h, hfiles⟩ := runAll_mkdirSplit outputDir d
  · exact .inl ⟨by rw [hprep, h], hfiles⟩
  · exact .inr ⟨done, s, rest, msg, hsplits, by rw [hprep, h], hfiles⟩

/-! ### Writing into the directory -/

/-- A split in which everything is replaced holds only the file of this run. -/
theorem files_closeWriter {run : ℕ} {st : WriteState ρ}
    (h : ∀ e ∈ (d.content s).entries, e.2.files ≠ [] → e.1 = partName ∧ st.writers s ≠ none) :
    SplitDir.files (closeWriter run d st s) =
      match st.writers s with
      | some rows => [⟨run, some rows⟩]
      | none => [] := by
  unfold closeWriter SplitDir.files
  cases hw : st.writers s with
  | none =>
    rw [List.flatMap_eq_nil_iff]
    intro e he
    by_contra hne
    exact (h e he hne).2 hw
  | some rows =>
    refine Dict.flatMap_entries_set _ _ _ (fun e he hk => ?_)
    by_contra hne
    exact hk (h e he hne).1

theorem mem_files_closeWriter {run : ℕ} {st : WriteState ρ}
    {e : String × Entry ρ} (he : e ∈ (d.content s).entries) {f : SplitFile ρ} (hf : f ∈ e.2.files)
    (h : e.1 ≠ partName ∨ st.writers s = none) :
    f ∈ SplitDir.files (closeWriter run d st s) := by
  unfold closeWriter SplitDir.files
  cases hw : st.writers s with
  | none => exact List.mem_flatMap.mpr ⟨e, he, hf⟩
  | some rows =>
    have hne : e.1 ≠ partName := h.resolve_right (by rw [hw]; exact nofun)
    exact List.mem_flatMap.mpr ⟨e, Dict.mem_entries_set.mpr (.inr ⟨hne, he⟩), hf⟩

theorem flatMap_splits_perm (f : RawRow ρ → Split) (rows : List (RawRow ρ)) :
    (splits.flatMap (fun s => (rows.filter (fun r => f r = s)).map normalizeRow)).Perm
      (rows.map normalizeRow) := by
  rw [← List.map_flatMap]
  exact (flatMap_filter_perm (by decide) (fun r _ => by cases f r <;> decide)).map _

section writing

variable {upper : String → String} {run : ℕ} {args : Args ρ} {raw : ParquetFile ρ} {d : OutputDir ρ}
  {st : WriteState ρ}

/-- After all rows are written, the output is clean exactly if everything was replaced. -/
theorem cleanOutput_iff
    (hrows : ∀ s, st.rowsOf s = (raw.rows.filter
      (fun r => splitOf raw.rows args.trainRatio args.testRatio r = s)).map normalizeRow)
    (hopen : ∀ s, st.writers s = none ↔ st.rowsOf s = [])
    (hfresh : ∀ f ∈ splitFiles (.dir d), f.run ≠ run) {p : OutputPath ρ}
    (hp : splitFiles p = splits.flatMap (fun s => SplitDir.files (closeWriter run d st s))) :
    CleanOutput run raw p ↔ AllReplaced args raw d := by
  have hreceives : ∀ s, st.writers s ≠ none ↔ Receives args raw s := by
    intro s
    rw [Ne, hopen s, hrows s, List.map_eq_nil_iff, List.filter_eq_nil_iff]
    simp [Receives]
  constructor
  · intro hclean s e he hne
    by_contra hnot
    obtain ⟨f, hf⟩ := List.exists_mem_of_ne_nil _ hne
    have hsurvives : e.1 ≠ partName ∨ st.writers s = none := by
      by_contra h
      rw [not_or, not_not] at h
      exact hnot ⟨h.1, (hreceives s).mp h.2⟩
    have hmem : ∀ s : Split, s ∈ splits := fun s => by cases s <;> simp [splits]
    have hold : f ∈ splitFiles (.dir d) :=
      List.mem_flatMap.mpr ⟨s, hmem s, List.mem_flatMap.mpr ⟨e, he, hf⟩⟩
    refine hfresh f hold (hclean.run_eq f ?_)
    rw [hp]
    exact List.mem_flatMap.mpr ⟨s, hmem s, mem_files_closeWriter he hf hsurvives⟩
  · intro hall
    have hfiles : ∀ s, SplitDir.files (closeWriter run d st s) =
        match st.writers s with
        | some rows => [⟨run, some rows⟩]
        | none => [] := fun s =>
      files_closeWriter (fun e he hne => by
        obtain ⟨hpart, hs⟩ := hall s e he hne
        exact ⟨hpart, (hreceives s).mpr hs⟩)
    have hsplit : ∀ s, (SplitDir.files (closeWriter run d st s)).flatMap (fun f => f.rows.getD []) =
        st.rowsOf s := by
      intro s
      rw [hfiles s, WriteState.rowsOf]
      cases st.writers s <;> simp
    refine ⟨?_, fun f hf => ?_⟩
    · rw [hp, List.flatMap_assoc]
      simp only [hsplit, hrows]
      exact flatMap_splits_perm _ _
    · rw [hp] at hf
      obtain ⟨s, -, hf⟩ := List.mem_flatMap.mp hf
      rw [hfiles s] at hf
      cases hw : st.writers s with
      | none =>
        rw [hw] at hf
        cases hf
      | some rows =>
        rw [hw] at hf
        rw [List.mem_singleton.mp hf]

variable (upper run) in
/-- Writing into a prepared directory: it succeeds unless a directory is in the way. -/
theorem writeOutput_spec (hvalid : args.Valid raw) {batchSize : ℕ} (hb : 1 ≤ batchSize) (total : ℕ)
    {trainCut testCut : String}
    (htrain : IsCutoff raw.rows (raw.rows.length * args.trainRatio) trainCut)
    (htest : IsCutoff raw.rows (raw.rows.length * args.testRatio) testCut)
    (hfresh : ∀ f ∈ splitFiles (.dir d), f.run ≠ run) :
    let r := writeOutput upper run raw batchSize total trainCut testCut d
    let blocked := (∃ s, Receives args raw s ∧ (d.content s).PartIsDir) ∨ d.metadata.isDir = true
    (¬ blocked ∧ (∃ stats, r.2 = .ok stats) ∧ (CleanOutput run raw r.1 ↔ AllReplaced args raw d)) ∨
      (blocked ∧ ∃ msg, r.2 = .error (.isADirectoryError msg)) := by
  intro r blocked
  have hmask : ∀ x s, inSplit trainCut testCut (dateText x) s = true ↔
      splitOf raw.rows args.trainRatio args.testRatio x = s := fun x s =>
    inSplit_iff hvalid.2.2.1.le htrain htest x s
  let out := writeSplits upper raw d.content trainCut testCut batchSize
  have hr : r = match out.2 with
      | some e => (.dir { d with splits := fun s => .dir (closeWriter run d out.1 s) }, .error e)
      | none => match d.metadata with
        | .dir _ => (.dir { d with splits := fun s => .dir (closeWriter run d out.1 s) },
            .error (.isADirectoryError "_split_metadata.json"))
        | _ => (.dir ⟨fun s => .dir (closeWriter run d out.1 s),
            .file (some ⟨total, trainCut, testCut, out.1.stats⟩), d.others⟩, .ok out.1.stats) := rfl
  obtain ⟨hnone, hrows, hopen, -, hwritable⟩ | ⟨herr, s, hdir, x, hx, hxs⟩ :=
    writeSplits_spec upper raw d.content trainCut testCut hb
  · have hrows' : ∀ s, out.1.rowsOf s = (raw.rows.filter
        (fun r => splitOf raw.rows args.trainRatio args.testRatio r = s)).map normalizeRow := by
      intro s
      rw [hrows s]
      congr 1
      refine List.filter_congr (fun x _ => ?_)
      rw [Bool.eq_iff_iff, decide_eq_true_iff]
      exact hmask x s
    have hparts : ¬ ∃ s, Receives args raw s ∧ (d.content s).PartIsDir := by
      rintro ⟨s, ⟨x, hx, hxs⟩, hdir⟩
      refine hwritable s (fun hw => ?_) hdir
      have hnil := (hopen s).mp hw
      rw [show (writeSplits upper raw d.content trainCut testCut batchSize).1.rowsOf s = _ from
        hrows' s, List.map_eq_nil_iff, List.filter_eq_nil_iff] at hnil
      exact hnil x hx (decide_eq_true hxs)
    rw [show out.2 = none from hnone] at hr
    cases hm : d.metadata with
    | dir _ =>
      rw [hm] at hr
      refine .inr ⟨.inr (by rw [hm]; rfl), "_split_metadata.json", ?_⟩
      rw [hr]
    | absent =>
      rw [hm] at hr
      refine .inl ⟨?_, ⟨_, by rw [hr]⟩, cleanOutput_iff hrows' hopen hfresh (by rw [hr]; rfl)⟩
      rintro (h | h)
      · exact hparts h
      · rw [hm] at h
        cases h
    | file c =>
      rw [hm] at hr
      refine .inl ⟨?_, ⟨_, by rw [hr]⟩, cleanOutput_iff hrows' hopen hfresh (by rw [hr]; rfl)⟩
      rintro (h | h)
      · exact hparts h
      · rw [hm] at h
        cases h
  · refine .inr ⟨.inl ⟨s, ⟨x, hx, (hmask x s).mp hxs⟩, hdir⟩, partName, ?_⟩
    rw [hr, show out.2 = _ from herr]

end writing

/-! ### Whole runs -/

section runs

variable {upper : String → String} {run : ℕ} {args : Args ρ} {raw : ParquetFile ρ} {p : OutputPath ρ}

variable (upper run p) in
/-- A run with arguments that are not accepted, or without rows, touches nothing. -/
theorem main_of_not_valid (hb : 1 ≤ args.batchSize) (h : ∀ raw, ¬ args.Valid raw) :
    ∃ e, main upper run args p = (p, .error e) ∧ ∀ msg, e ≠ .fileExistsError msg := by
  unfold main validateArgs
  cases hraw : args.raw with
  | none => exact ⟨_, rfl, fun msg => by simp⟩
  | some raw =>
    split_ifs with hratio
    · have hnil : raw.rows = [] := by
        by_contra hne
        exact h raw ⟨hraw, hratio.1, hratio.2.1, hratio.2.2, hne⟩
      obtain ⟨hcounts, -⟩ := computeDailyCounts_spec raw hb
      have hitems : sortedItems (computeDailyCounts raw args.batchSize).1 = [] := by
        rw [List.eq_nil_iff_forall_not_mem]
        intro e he
        have hmem := ((mem_sortedItems hcounts).mp he).1
        rw [hnil] at hmem
        cases hmem
      simp only [cutoffsFromCounts, hitems, cutoffLoop]
      exact ⟨_, rfl, fun msg => by simp⟩
    · exact ⟨_, rfl, fun msg => by simp⟩

variable (upper run p) in
theorem main_of_valid (hb : 1 ≤ args.batchSize) (hvalid : args.Valid raw) :
    ∃ total trainCut testCut,
      IsCutoff raw.rows (raw.rows.length * args.trainRatio) trainCut ∧
      IsCutoff raw.rows (raw.rows.length * args.testRatio) testCut ∧
      main upper run args p = match prepareOutputDir args.outputDir args.overwrite p with
        | .error (p, e) => (p, .error e)
        | .ok d => writeOutput upper run raw args.batchSize total trainCut testCut d := by
  obtain ⟨hraw, ha, hab, hb1, hne⟩ := hvalid
  obtain ⟨hcounts, htotal⟩ := computeDailyCounts_spec raw hb
  obtain ⟨trainCut, testCut, hcut, htrain, htest⟩ := cutoffsFromCounts_spec hcounts hne ha hab hb1
  refine ⟨(computeDailyCounts raw args.batchSize).2, trainCut, testCut, htrain, htest, ?_⟩
  unfold main validateArgs
  rw [hraw]
  simp only
  rw [if_pos ⟨ha, hab, hb1⟩]
  simp only
  rw [htotal, hcut]

theorem splitFiles_make (d : OutputDir ρ) (done : List Split) :
    splitFiles (.dir (d.make done)) = splitFiles (.dir d) := by
  simp only [splitFiles, d.content_make]

theorem allReplaced_make (d : OutputDir ρ) (done : List Split) :
    AllReplaced args raw (d.make done) ↔ AllReplaced args raw d := by
  simp only [AllReplaced, d.content_make]

variable {d : OutputDir ρ}

theorem allReplaced_of_empty (h : ∀ s, d.holdsData s = false) :
    AllReplaced args raw d := by
  intro s e he
  have hnil : (d.content s).entries = [] := by
    have := h s
    simpa [OutputDir.holdsData] using this
  rw [hnil] at he
  cases he

/-- When `mkdir` stops at a file, nothing has changed exactly if no split before it was missing. -/
theorem make_eq_self_iff {done rest : List Split} {s : Split}
    (hsplits : splits = done ++ s :: rest) (hdone : ∀ s' ∈ done, (d.splits s').isFile = false)
    (hs : (d.splits s).isFile = true) : d.make done = d ↔ RefusedAtOnce d := by
  have hnotdir : (d.splits s).isDir = false := by
    cases h : d.splits s <;> rw [h] at hs <;> first | rfl | cases hs
  have hfind : splits.find? (fun s => !(d.splits s).isDir) =
      (done.find? (fun s => !(d.splits s).isDir)).or (some s) := by
    rw [hsplits, List.find?_append, List.find?_cons_of_pos (by simp [hnotdir])]
  constructor
  · intro hself
    have hdirs : done.find? (fun s => !(d.splits s).isDir) = none := by
      rw [List.find?_eq_none]
      intro s' hs'
      have hmade : d.splits s' = .dir (d.content s') := by
        rw [← congrArg (fun d => d.splits s') hself]
        exact if_pos hs'
      simp [hmade, PathEntry.isDir]
    refine ⟨s, ?_, hs⟩
    rw [hfind, hdirs]
    rfl
  · rintro ⟨s', hs', hfile⟩
    refine OutputDir.make_eq_self (fun t ht => ?_)
    cases hnone : done.find? (fun s => !(d.splits s).isDir) with
    | none =>
      have := List.find?_eq_none.mp hnone t ht
      simpa using this
    | some t' =>
      rw [hfind, hnone] at hs'
      cases hs'
      rw [hdone _ (List.mem_of_find?_eq_some hnone)] at hfile
      cases hfile

theorem meets_of_error {p' : OutputPath ρ} {e : PyError}
    (hm : main upper run args p = (p', .error e)) :
    Meets upper run args p ↔ (args.overwrite = false → (∃ s, HoldsData p s) →
      (∃ msg, e = .fileExistsError msg) ∧ p' = p) := by
  unfold Meets
  rw [hm]
  simp only [reduceCtorEq, false_implies, implies_true, true_and, Except.error.injEq]

theorem meets_of_prepared (hb : 1 ≤ args.batchSize) (hvalid : args.Valid raw)
    (hprep : prepareOutputDir args.outputDir args.overwrite p = .ok d)
    (hfresh : ∀ f ∈ splitFiles (.dir d), f.run ≠ run) :
    Meets upper run args p ↔
      ((∃ s, Receives args raw s ∧ (d.content s).PartIsDir) ∨ d.metadata.isDir = true ∨
        AllReplaced args raw d) ∧ ¬ (args.overwrite = false ∧ ∃ s, HoldsData p s) := by
  obtain ⟨total, trainCut, testCut, htrain, htest, hmain⟩ := main_of_valid upper run p hb hvalid
  rw [hprep] at hmain
  have hraw : ∀ raw', args.raw = some raw' ↔ raw' = raw := by
    intro raw'
    rw [hvalid.1]
    exact ⟨fun h => (Option.some.inj h).symm, fun h => by rw [h]⟩
  unfold Meets
  rw [hmain]
  obtain ⟨hfree, ⟨stats, hok⟩, hiff⟩ | ⟨hblocked, msg, herr⟩ :=
    writeOutput_spec upper run hvalid hb total htrain htest hfresh
  · rw [not_or] at hfree
    rw [hok]
    constructor
    · rintro ⟨h1, h2⟩
      refine ⟨.inr (.inr (hiff.mp (h1 raw stats hvalid.1 rfl))), fun ⟨ho, hs⟩ => ?_⟩
      obtain ⟨⟨_, h⟩, -⟩ := h2 ho hs
      cases h
    · rintro ⟨h1, h2⟩
      refine ⟨fun raw' _ hr _ => ?_, fun ho hs => absurd ⟨ho, hs⟩ h2⟩
      obtain rfl := (hraw raw').mp hr
      obtain h | h | h := h1
      · exact absurd h hfree.1
      · exact absurd h hfree.2
      · exact hiff.mpr h
  · rw [herr]
    constructor
    · rintro ⟨-, h2⟩
      refine ⟨hblocked.imp_right .inl, fun ⟨ho, hs⟩ => ?_⟩
      obtain ⟨⟨_, h⟩, -⟩ := h2 ho hs
      cases h
    · rintro ⟨-, h2⟩
      exact ⟨nofun, fun ho hs => absurd ⟨ho, hs⟩ h2⟩

theorem holdsData_empty (s : Split) :
    ((OutputDir.empty : OutputDir ρ).make splits).holdsData s = false := by
  rw [OutputDir.holdsData, OutputDir.content_make]
  rfl

theorem splitFiles_empty :
    splitFiles (.dir ((OutputDir.empty : OutputDir ρ).make splits)) = [] := by
  rw [splitFiles_make]
  rfl

theorem meets_of_not_ready (hb : 1 ≤ args.batchSize) (hvalid : args.Valid raw)
    (hprep : prepareOutputDir args.outputDir args.overwrite (.dir d) = .ok (d.make splits))
    (hfresh : ∀ f ∈ splitFiles (.dir d), f.run ≠ run) :
    Meets upper run args (.dir d) ↔
      ((∃ s, Receives args raw s ∧ (d.content s).PartIsDir) ∨ d.metadata.isDir = true ∨
        AllReplaced args raw d) ∧ ¬ (args.overwrite = false ∧ ∃ s, HoldsData (.dir d) s) := by
  rw [meets_of_prepared hb hvalid hprep (by rw [splitFiles_make]; exact hfresh), allReplaced_make,
    d.content_make]
  rfl

theorem meets_iff_of_not_ready (hb : 1 ≤ args.batchSize) (hvalid : args.Valid raw)
    (hready : splitDirsReady (.dir d) = false) (hfresh : ∀ f ∈ splitFiles (.dir d), f.run ≠ run) :
    Meets upper run args (.dir d) ↔ MeetsWhen args (.dir d) := by
  have hready' : ¬ splitDirsReady (.dir d) = true := by
    rw [hready]
    decide
  have hraw : ∀ raw', args.Valid raw' → raw' = raw := fun raw' h =>
    Option.some.inj (h.1.symm.trans hvalid.1)
  have hreplaced : (∀ s, ¬ HoldsData (.dir d) s) → AllReplaced args raw d := fun h =>
    allReplaced_of_empty (fun s => Bool.eq_false_iff.mpr (fun hs => h s ⟨d, rfl, hs⟩))
  unfold MeetsWhen
  obtain ⟨hprep, hfiles⟩ | ⟨done, s, rest, msg, hsplits, hprep, hdone, hs⟩ :=
    prepareOutputDir_of_not_ready args.outputDir args.overwrite hready
  · rw [meets_of_not_ready hb hvalid hprep hfresh]
    have hrefused : ¬ RefusedAtOnce d := by
      rintro ⟨s, -, hs⟩
      rw [hfiles s] at hs
      cases hs
    cases ho : args.overwrite with
    | true =>
      rw [if_pos rfl]
      constructor
      · rintro ⟨h, -⟩ raw' d' hv hd
        obtain rfl := hraw raw' hv
        cases hd
        obtain h | h | h := h
        · exact .inr (.inl (.inr (.inl h)))
        · exact .inr (.inl (.inr (.inr h)))
        · exact .inr (.inr h)
      · intro h
        refine ⟨?_, nofun⟩
        obtain h | (⟨s, hs⟩ | h | h) | h := h raw d hvalid rfl
        · exact absurd h hready'
        · rw [hfiles s] at hs
          cases hs
        · exact .inl h
        · exact .inr (.inl h)
        · exact .inr (.inr h)
    | false =>
      rw [if_neg (by decide)]
      constructor
      · rintro ⟨-, h⟩
        exact .inl (fun s hs => h ⟨rfl, s, hs⟩)
      · rintro (h | ⟨-, h | ⟨d', hd, h⟩⟩)
        · exact ⟨.inr (.inr (hreplaced h)), fun ⟨_, s, hs⟩ => h s hs⟩
        · exact absurd h hready'
        · cases hd
          exact absurd h hrefused
  · obtain ⟨_, _, _, -, -, hmain⟩ := main_of_valid upper run (.dir d) hb hvalid
    rw [hprep] at hmain
    rw [meets_of_error hmain]
    have hself := make_eq_self_iff hsplits hdone hs
    cases ho : args.overwrite with
    | true =>
      rw [if_pos rfl]
      refine iff_of_true nofun (fun raw' d' _ hd => ?_)
      cases hd
      exact .inr (.inl (.inl ⟨s, hs⟩))
    | false =>
      rw [if_neg (by decide)]
      constructor
      · intro h
        by_cases hnone : ∀ s, ¬ HoldsData (.dir d) s
        · exact .inl hnone
        · rw [not_forall_not] at hnone
          obtain ⟨-, hd⟩ := h rfl hnone
          exact .inr ⟨⟨raw, hvalid⟩, .inr ⟨d, rfl, hself.mp (PathEntry.dir.inj hd)⟩⟩
      · rintro (h | ⟨-, h | ⟨d', hd, h⟩⟩) _ ⟨s, hs⟩
        · exact absurd hs (h s)
        · exact absurd h hready'
        · cases hd
          exact ⟨⟨msg, rfl⟩, congrArg _ (hself.mpr h)⟩

/-- Exactly these runs do what they should, for every content of the output path before. -/
theorem main_meets_iff (upper : String → String) (run : ℕ) (args : Args ρ)
    (hb : 1 ≤ args.batchSize) (p : OutputPath ρ) (hfresh : ∀ f ∈ splitFiles p, f.run ≠ run) :
    Meets upper run args p ↔ MeetsWhen args p := by
  unfold MeetsWhen
  by_cases hex : ∃ raw, args.Valid raw
  · obtain ⟨raw, hvalid⟩ := hex
    have hraw : ∀ raw', args.Valid raw' → raw' = raw := fun raw' h =>
      Option.some.inj (h.1.symm.trans hvalid.1)
    -- a new or cleared directory
    have hempty : prepareOutputDir args.outputDir args.overwrite p =
        .ok (OutputDir.empty.make splits) → (args.overwrite = false → ∀ s, ¬ HoldsData p s) →
        Meets upper run args p := by
      intro hprep hnone
      rw [meets_of_prepared hb hvalid hprep (by rw [splitFiles_empty]; simp)]
      refine ⟨.inr (.inr (allReplaced_of_empty holdsData_empty)), ?_⟩
      rintro ⟨ho, s, hs⟩
      exact hnone ho s hs
    cases p with
    | absent =>
      have hnone : ∀ s, ¬ HoldsData (.absent : OutputPath ρ) s := by
        rintro s ⟨d, h, -⟩
        cases h
      refine iff_of_true (hempty (prepareOutputDir_absent _ _) (fun _ => hnone)) ?_
      split_ifs
      · exact fun raw' d _ h => by cases h
      · exact .inl hnone
    | file c =>
      have hnone : ∀ s, ¬ HoldsData (.file c : OutputPath ρ) s := by
        rintro s ⟨d, h, -⟩
        cases h
      obtain ⟨msg, hprep⟩ := prepareOutputDir_file (ρ := ρ) args.outputDir args.overwrite
      obtain ⟨_, _, _, -, -, hmain⟩ := main_of_valid upper run (.file c) hb hvalid
      rw [show (.file c : OutputPath ρ) = .file () from rfl, hprep] at hmain
      refine iff_of_true ((meets_of_error hmain).mpr (fun _ ⟨s, hs⟩ => absurd hs (hnone s))) ?_
      split_ifs
      · exact fun raw' d _ h => by cases h
      · exact .inl hnone
    | dir d =>
      obtain hready | hready := (splitDirsReady (.dir d)).eq_false_or_eq_true
      · obtain ⟨⟨msg, hrefuse⟩, hclear⟩ := prepareOutputDir_of_ready args.outputDir hready
        cases ho : args.overwrite with
        | true =>
          rw [if_pos rfl]
          refine iff_of_true (hempty (by rw [ho]; exact hclear) (by rw [ho]; exact nofun)) ?_
          exact fun _ _ _ _ => .inl hready
        | false =>
          rw [if_neg (by decide)]
          obtain ⟨_, _, _, -, -, hmain⟩ := main_of_valid upper run (.dir d) hb hvalid
          rw [ho, hrefuse] at hmain
          refine iff_of_true ((meets_of_error hmain).mpr (fun _ _ => ⟨⟨msg, rfl⟩, rfl⟩)) ?_
          exact .inr ⟨⟨raw, hvalid⟩, .inl hready⟩
      · exact meets_iff_of_not_ready hb hvalid hready hfresh
  · have hno : ∀ raw, ¬ args.Valid raw := fun raw h => hex ⟨raw, h⟩
    obtain ⟨e, hmain, he⟩ := main_of_not_valid upper run p hb hno
    rw [meets_of_error hmain]
    cases ho : args.overwrite with
    | true =>
      rw [if_pos rfl]
      exact iff_of_true nofun (fun raw d h => absurd h (hno raw))
    | false =>
      rw [if_neg (by decide)]
      constructor
      · intro h
        refine .inl (fun s hs => ?_)
        obtain ⟨⟨msg, hmsg⟩, -⟩ := h rfl ⟨s, hs⟩
        exact he msg hmsg
      · rintro (h | ⟨h, -⟩) _ ⟨s, hs⟩
        · exact absurd hs (h s)
        · exact absurd h hex

end runs

/-! ### A row that goes to test, over the output of an earlier run -/

/-- A run with `--overwrite` on a table of one row. -/
def exampleArgs : Args Unit where
  rawParquet := "v2.parquet"
  raw := some (.ofRows [dayRow 2020 1 1])
  outputDir := "temporal_split"
  trainRatio := 8 / 10
  testRatio := 9 / 10
  batchSize := 1000000
  overwrite := true

theorem valid_exampleArgs : exampleArgs.Valid (.ofRows [dayRow 2020 1 1]) :=
  ⟨rfl, by norm_num [exampleArgs], by norm_num [exampleArgs], by norm_num [exampleArgs],
    by simp [ParquetFile.ofRows]⟩

theorem receives_exampleArgs (s : Split) :
    Receives exampleArgs (.ofRows [dayRow 2020 1 1]) s ↔ s = .test := by
  have hsplit : splitOf [dayRow 2020 1 1] (8 / 10) (9 / 10) (dayRow 2020 1 1) = .test := by
    simp only [splitOf, rowsUpTo, List.countP_cons, List.countP_nil, le_refl, decide_true, if_true]
    norm_num
  simp [Receives, ParquetFile.ofRows, exampleArgs, hsplit, eq_comm]

/-- The part file of an earlier run. -/
def oldPart : SplitDir Unit := Dict.ofList [(partName, .file ⟨0, some [dayRow 2019 9 30]⟩)]

/-- What a run leaves that wrote the given splits: their part files, and empty directories. -/
def leftBy (written : List Split) : OutputDir Unit where
  splits s := .dir (if s ∈ written then oldPart else Dict.empty)
  metadata := .file none
  others := []

theorem fresh_leftBy (written : List Split) : ∀ f ∈ splitFiles (.dir (leftBy written)), f.run ≠ 1 := by
  intro f hf
  obtain ⟨s, -, hf⟩ := List.mem_flatMap.mp hf
  have hrun : f.run = 0 := by
    by_cases hs : s ∈ written
    · have hc : (leftBy written).content s = oldPart := OutputDir.content_of_dir (by simp [leftBy, hs])
      rw [hc] at hf
      rw [List.mem_singleton.mp hf]
    · have hc : (leftBy written).content s = Dict.empty :=
        OutputDir.content_of_dir (by simp [leftBy, hs])
      rw [hc] at hf
      cases hf
  omega

/-- The file of an earlier run in test is replaced. -/
theorem main_meets_replaced : Meets id 1 exampleArgs (.dir (leftBy [.test])) := by
  refine (main_meets_iff id 1 exampleArgs (by decide) _ (fresh_leftBy _)).mpr ?_
  rw [MeetsWhen, if_pos (show exampleArgs.overwrite = true from rfl)]
  intro raw d hvalid hd
  cases hd
  obtain rfl : raw = .ofRows [dayRow 2020 1 1] :=
    Option.some.inj (hvalid.1.symm.trans valid_exampleArgs.1)
  refine .inr (.inr (fun s e he _ => ?_))
  rw [receives_exampleArgs]
  cases s with
  | train => cases he
  | val => cases he
  | test => exact ⟨by rw [List.mem_singleton.mp he], rfl⟩

/-- An earlier run wrote train and test.  The new run does not clear the directory although
`--overwrite` is given, and the old train rows stay. -/
theorem main_keeps_old_train : ¬ Meets id 1 exampleArgs (.dir (leftBy [.train, .test])) := by
  intro hmeets
  have hwhen := (meets_iff_of_not_ready (by decide) valid_exampleArgs (by decide)
    (fresh_leftBy _)).mp hmeets
  rw [MeetsWhen, if_pos (show exampleArgs.overwrite = true from rfl)] at hwhen
  have hpart : ∀ s, ¬ ((leftBy [.train, .test]).content s).PartIsDir := by
    rintro s ⟨files, h⟩
    cases s <;> cases h
  obtain h | (⟨s, hs⟩ | ⟨s, -, hs⟩ | h) | h := hwhen _ _ valid_exampleArgs rfl
  · cases h
  · cases hs
  · exact hpart s hs
  · cases h
  · have htrain := (h .train (partName, .file ⟨0, some [dayRow 2019 9 30]⟩)
      (List.mem_singleton.mpr rfl) (by simp [Entry.files])).2
    rw [receives_exampleArgs] at htrain
    cases htrain

end RayTfm.Scripts
