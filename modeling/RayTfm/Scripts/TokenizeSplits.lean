import RayTfm.Tfm.Corpus
import RayTfm.Scripts.TemporalSplits

/-! # Tokenized splits over many runs

`tokenize_splits.py` tokenizes the three splits one after the other.  Without `--overwrite` a split
whose output directory is not empty is taken to be tokenized already.  Ray's `write_parquet`
creates the directory, appends one file after the other, and gives the files of every run names of
their own; so a run that is killed leaves some of its files, and the next run skips the split.

A world is what the output directories hold after some runs, together with a record of the runs
that have written all their files (`complete`; the code keeps no such record).  In every history,
a call of `tokenize_split` that returns leaves exactly the sequences of its input, if what it would
skip was written completely and for the same input (`holds_of_skipOk`). -/

namespace RayTfm.Scripts

open RayTfm.Tfm

abbrev Sequence := List ℤ

/-- An input split, in the batches in which the actors read it. -/
abbrev Input := List (List RawTransaction)

/-- A file of an output directory: the run that wrote it, and its sequences; none in a file that was
not finished. -/
structure OutputFile where
  run : ℕ
  rows : Option (List Sequence)
deriving DecidableEq, Repr

/-- The output path of a split: no directory yet, or its files. -/
abbrev OutputSplit := Option (List OutputFile)

/-- `nonempty_dir`. -/
def nonemptyDir (out : OutputSplit) : Bool :=
  match out with
  | some files => files.length ≠ 0
  | none => false

/-- The number of rows of a parquet file. -/
def OutputFile.count (f : OutputFile) : Except PyError ℕ :=
  match f.rows with
  | some rows => .ok rows.length
  | none => .error (.valueError "Parquet magic bytes not found in footer")

/-- `read_parquet(out).count()`. -/
def readCount (out : OutputSplit) : Except PyError ℕ :=
  match out with
  | some files => do
      let counts ← files.mapM OutputFile.count
      .ok counts.sum
  | none => .error (.fileNotFoundError "Path does not exist")

/-- The sequences of an input split: every batch tokenized by an actor, the rows grouped by their
key, and `build_sequences` with the shipped constants. -/
def splitSequences (cudf : Cudf) (log : ℚ → ℚ) (input : Input) : Except PyError (List Sequence) := do
  let parts ← input.mapM (fun batch => (GPUTokenizer.init log defaultHashSize).call cudf log batch)
  groupSequences (parts.flatMap Prod.fst) seqLength seqChunkSize

/-- Where a run is killed: after some files of a split, perhaps in the middle of the next one. -/
structure KillPoint where
  files : ℕ
  truncated : Bool
deriving DecidableEq, Repr

/-- One run of the script: its option and input, how Ray cuts the sequences into blocks, and where
the run is killed. -/
structure RunArgs where
  overwrite : Bool
  input : Split → Input
  blocks : List Sequence → List (List Sequence)
  blocks_perm : ∀ seqs, (blocks seqs).flatten.Perm seqs
  kill : Option (Split × KillPoint)

/-- The kill point of a split. -/
def RunArgs.killAt (args : RunArgs) (s : Split) : Option KillPoint :=
  match args.kill with
  | some k => if k.1 = s then some k.2 else none
  | none => none

/-- What a call of `tokenize_split` comes to. -/
inductive Outcome where
  | returned (n : ℕ)
  | raised (e : PyError)
  | killed
deriving DecidableEq, Repr

/-- The files of a run, one for every block with rows. -/
def filesOf (run : ℕ) (blocks : List (List Sequence)) : List OutputFile :=
  (blocks.filter (fun block => block.length ≠ 0)).map (fun block => ⟨run, some block⟩)

/-- `write_parquet` without a kill: a directory that it created and that stays empty is deleted. -/
def writeParquet (files : List OutputFile) (out : OutputSplit) : OutputSplit :=
  if out = none ∧ files.length = 0 then none else some (out.getD [] ++ files)

/-- The directory when `write_parquet` is killed. -/
def writeKilled (run : ℕ) (files : List OutputFile) (k : KillPoint) (out : OutputSplit) :
    OutputSplit :=
  some (out.getD [] ++ files.take k.files ++
    if k.truncated ∧ k.files < files.length then [⟨run, none⟩] else [])

/-- The outcome of `read_parquet(out).count()` at the end of a call. -/
def countOutcome (out : OutputSplit) : Outcome :=
  match readCount out with
  | .ok n => .returned n
  | .error e => .raised e

/-- `tokenize_split`: the output path afterwards, and the outcome. -/
def tokenizeSplit (cudf : Cudf) (log : ℚ → ℚ) (run : ℕ) (args : RunArgs) (s : Split)
    (out : OutputSplit) : OutputSplit × Outcome :=
  if nonemptyDir out ∧ args.overwrite = false then (out, countOutcome out)
  else
    -- `rmtree`
    let out := if args.overwrite then none else out
    match splitSequences cudf log (args.input s) with
    -- the directory is created before the pipeline runs
    | .error e => (some (out.getD []), .raised e)
    | .ok seqs =>
      let files := filesOf run (args.blocks seqs)
      match args.killAt s with
      | some k => (writeKilled run files k out, .killed)
      | none =>
        let out := writeParquet files out
        (out, countOutcome out)

/-- The call writes all files of its split. -/
def writesAll (cudf : Cudf) (log : ℚ → ℚ) (run : ℕ) (args : RunArgs) (s : Split)
    (out : OutputSplit) : Bool :=
  if nonemptyDir out ∧ args.overwrite = false then false
  else
    match splitSequences cudf log (args.input s) with
    | .error _ => false
    | .ok seqs =>
      match args.killAt s with
      | some k => (filesOf run (args.blocks seqs)).length ≤ k.files
      | none => true

/-! ### Histories -/

/-- The output directories, and the runs that have written all files of a split, with the input. -/
structure World where
  out : Split → OutputSplit
  complete : Split → List (ℕ × Input)

/-- No output yet. -/
def World.init : World := ⟨fun _ => none, fun _ => []⟩

/-- One call of `tokenize_split`. -/
structure Call where
  run : ℕ
  args : RunArgs
  split : Split
  before : World
  after : World
  outcome : Outcome

def tokenizeStep (cudf : Cudf) (log : ℚ → ℚ) (run : ℕ) (args : RunArgs) (s : Split) (w : World) :
    Call :=
  let r := tokenizeSplit cudf log run args s (w.out s)
  let complete :=
    if writesAll cudf log run args s (w.out s) then
      Function.update w.complete s ((run, args.input s) :: w.complete s)
    else w.complete
  ⟨run, args, s, w, ⟨Function.update w.out s r.1, complete⟩, r.2⟩

/-- The loop of `main`: it ends when a call raises or the run is killed. -/
def runSplits (cudf : Cudf) (log : ℚ → ℚ) (run : ℕ) (args : RunArgs) :
    List Split → World → List Call × World
  | [], w => ([], w)
  | s :: l, w =>
    let call := tokenizeStep cudf log run args s w
    match call.outcome with
    | .returned _ =>
      let rest := runSplits cudf log run args l call.after
      (call :: rest.1, rest.2)
    | _ => ([call], call.after)

/-- The calls of a list of runs, numbered from `n`. -/
def historyFrom (cudf : Cudf) (log : ℚ → ℚ) : ℕ → World → List RunArgs → List Call
  | _, _, [] => []
  | n, w, args :: runs =>
    let r := runSplits cudf log n args splits w
    r.1 ++ historyFrom cudf log (n + 1) r.2 runs

/-- The calls of a history that starts without output. -/
def history (cudf : Cudf) (log : ℚ → ℚ) (runs : List RunArgs) : List Call :=
  historyFrom cudf log 0 .init runs

/-! ### What a call should leave -/

/-- The files hold exactly one copy of every sequence of the input. -/
def CompleteFiles (cudf : Cudf) (log : ℚ → ℚ) (input : Input) (files : List OutputFile) : Prop :=
  ∃ seqs, splitSequences cudf log input = .ok seqs ∧ (∀ f ∈ files, f.rows ≠ none) ∧
    (files.flatMap (fun f => f.rows.getD [])).Perm seqs

/-- When the call returns, the output of its split is that of its input. -/
def Call.Holds (cudf : Cudf) (log : ℚ → ℚ) (c : Call) : Prop :=
  ∀ n, c.outcome = .returned n → ∃ files, c.after.out c.split = some files ∧
    CompleteFiles cudf log (c.args.input c.split) files

/-- What a run without `--overwrite` may find in a directory that is not empty: a file that cannot
be read, or the files of one run that has written all of them for the same input. -/
def Call.SkipOk (c : Call) : Prop :=
  c.args.overwrite = true ∨ ∀ files, c.before.out c.split = some files → files ≠ [] →
    (∃ f ∈ files, f.rows = none) ∨
      ∃ run, (run, c.args.input c.split) ∈ c.before.complete c.split ∧ ∀ f ∈ files, f.run = run

/-! ### One call -/

section calls

variable {cudf : Cudf} {log : ℚ → ℚ} {run : ℕ} {args : RunArgs} {s : Split} {out : OutputSplit}

theorem returned_of_countOutcome {n : ℕ} (h : countOutcome out = .returned n) :
    ∃ files, out = some files ∧ ∀ f ∈ files, f.rows ≠ none := by
  unfold countOutcome readCount at h
  cases out with
  | none => cases h
  | some files =>
    refine ⟨files, rfl, fun f hf hnone => ?_⟩
    simp only at h
    cases hcounts : files.mapM OutputFile.count with
    | error e =>
      rw [hcounts] at h
      cases h
    | ok counts =>
      obtain ⟨k, hk⟩ := exists_of_mapM_eq_ok hcounts f hf
      rw [OutputFile.count, hnone] at hk
      cases hk

theorem run_eq_of_mem_filesOf {blocks : List (List Sequence)} {f : OutputFile}
    (h : f ∈ filesOf run blocks) : f.run = run ∧ f.rows ≠ none := by
  obtain ⟨block, -, rfl⟩ := List.mem_map.mp h
  exact ⟨rfl, nofun⟩

theorem flatMap_filesOf (run : ℕ) (blocks : List (List Sequence)) :
    (filesOf run blocks).flatMap (fun f => f.rows.getD []) = blocks.flatten := by
  induction blocks with
  | nil => rfl
  | cons block blocks ih =>
    unfold filesOf at ih ⊢
    rw [List.flatten_cons, ← ih, List.filter_cons]
    cases block <;> simp

theorem completeFiles_filesOf {input : Input} {seqs : List Sequence}
    (h : splitSequences cudf log input = .ok seqs) (run : ℕ) (args : RunArgs) :
    CompleteFiles cudf log input (filesOf run (args.blocks seqs)) := by
  refine ⟨seqs, h, fun f hf => (run_eq_of_mem_filesOf hf).2, ?_⟩
  rw [flatMap_filesOf]
  exact args.blocks_perm seqs

theorem getD_of_not_skip (h : ¬ (nonemptyDir out ∧ args.overwrite = false)) :
    (if args.overwrite then none else out).getD [] = ([] : List OutputFile) := by
  cases ho : args.overwrite with
  | true => rfl
  | false =>
    cases out with
    | none => rfl
    | some files =>
      have hempty : ¬ nonemptyDir (some files) = true := fun hn => h ⟨hn, ho⟩
      simpa [nonemptyDir] using hempty

theorem getD_writeParquet (files : List OutputFile) (h : out.getD [] = []) :
    (writeParquet files out).getD [] = files := by
  unfold writeParquet
  split_ifs with hnone
  · rw [List.length_eq_zero_iff.mp hnone.2]
    rfl
  · rw [Option.getD_some, h, List.nil_append]

variable (cudf log run s) in
/-- A call that writes: all files in the directory are its own; they are all of its files if it
writes all, and it returns only then. -/
theorem tokenizeSplit_of_not_skip (h : ¬ (nonemptyDir out ∧ args.overwrite = false)) :
    let r := tokenizeSplit cudf log run args s out
    (∀ f ∈ r.1.getD [], f.run = run) ∧
      (writesAll cudf log run args s out = true → ∃ seqs,
        splitSequences cudf log (args.input s) = .ok seqs ∧
          r.1.getD [] = filesOf run (args.blocks seqs)) ∧
      (∀ n, r.2 = .returned n → writesAll cudf log run args s out = true ∧ ∃ files,
        r.1 = some files) := by
  intro r
  have hstart := getD_of_not_skip h
  have hr : r = tokenizeSplit cudf log run args s out := rfl
  unfold tokenizeSplit at hr
  rw [if_neg h] at hr
  unfold writesAll
  rw [if_neg h]
  cases hseqs : splitSequences cudf log (args.input s) with
  | error e =>
    simp only [hseqs, hstart] at hr
    rw [hr]
    exact ⟨by simp, nofun, nofun⟩
  | ok seqs =>
    simp only [hseqs] at hr ⊢
    cases hk : args.killAt s with
    | some k =>
      simp only [hk, writeKilled, hstart, List.nil_append] at hr
      rw [hr]
      refine ⟨fun f hf => ?_, fun hall => ⟨seqs, rfl, ?_⟩, nofun⟩
      · simp only [Option.getD_some, List.mem_append] at hf
        obtain hf | hf := hf
        · exact (run_eq_of_mem_filesOf (List.mem_of_mem_take hf)).1
        · split_ifs at hf
          · rw [List.mem_singleton.mp hf]
          · cases hf
      · have hlen := of_decide_eq_true hall
        rw [Option.getD_some, List.take_of_length_le hlen, if_neg (fun hc => by omega),
          List.append_nil]
    | none =>
      simp only [hk] at hr
      have hout := getD_writeParquet (filesOf run (args.blocks seqs)) hstart
      rw [hr]
      refine ⟨fun f hf => ?_, fun _ => ⟨seqs, rfl, hout⟩, fun n hn => ⟨rfl, ?_⟩⟩
      · rw [hout] at hf
        exact (run_eq_of_mem_filesOf hf).1
      · obtain ⟨files, hfiles, -⟩ := returned_of_countOutcome hn
        exact ⟨files, hfiles⟩

/-! ### The record of complete runs -/

/-- The files of a split's output directory. -/
def World.files (w : World) (s : Split) : List OutputFile := (w.out s).getD []

/-- The files of a run on the record are gone, or they are all there. -/
def Tracked (cudf : Cudf) (log : ℚ → ℚ) (bound : ℕ) (w : World) (s : Split) : Prop :=
  ∀ e ∈ w.complete s, e.1 < bound ∧
    ((w.files s).filter (fun f => f.run = e.1) = [] ∨
      CompleteFiles cudf log e.2 ((w.files s).filter (fun f => f.run = e.1)))

variable {w : World}

theorem Tracked.mono {bound bound' : ℕ} (h : Tracked cudf log bound w s)
    (hle : bound ≤ bound') : Tracked cudf log bound' w s := by
  intro e he
  obtain ⟨hlt, hfiles⟩ := h e he
  exact ⟨by omega, hfiles⟩

theorem tokenizeStep_out (cudf : Cudf) (log : ℚ → ℚ) (run : ℕ) (args : RunArgs) (s : Split)
    (w : World) : (tokenizeStep cudf log run args s w).after.out s =
      (tokenizeSplit cudf log run args s (w.out s)).1 :=
  Function.update_self ..

theorem tokenizeStep_of_ne (cudf : Cudf) (log : ℚ → ℚ) (run : ℕ) (args : RunArgs) (w : World)
    {s' : Split} (hs : s' ≠ s) :
    (tokenizeStep cudf log run args s w).after.out s' = w.out s' ∧
      (tokenizeStep cudf log run args s w).after.complete s' = w.complete s' := by
  refine ⟨Function.update_of_ne hs _ _, ?_⟩
  simp only [tokenizeStep]
  split_ifs
  · exact Function.update_of_ne hs _ _
  · rfl

theorem tracked_step_of_ne {bound : ℕ} {s' : Split} (hs : s' ≠ s)
    (h : Tracked cudf log bound w s') :
    Tracked cudf log bound (tokenizeStep cudf log run args s w).after s' := by
  obtain ⟨hout, hcomplete⟩ := tokenizeStep_of_ne cudf log run args w hs
  intro e he
  rw [hcomplete] at he
  rw [World.files, hout]
  exact h e he

theorem tracked_step (h : Tracked cudf log run w s) :
    Tracked cudf log (run + 1) (tokenizeStep cudf log run args s w).after s := by
  have hout := tokenizeStep_out cudf log run args s w
  by_cases hskip : nonemptyDir (w.out s) ∧ args.overwrite = false
  · have hall : writesAll cudf log run args s (w.out s) = false := if_pos hskip
    have hsame : (tokenizeStep cudf log run args s w).after.out s = w.out s := by
      rw [hout, tokenizeSplit, if_pos hskip]
    have hcomplete : (tokenizeStep cudf log run args s w).after.complete s = w.complete s := by
      simp only [tokenizeStep, hall, Bool.false_eq_true, if_false]
    intro e he
    rw [hcomplete] at he
    rw [World.files, hsame]
    exact (h.mono (by omega)) e he
  · obtain ⟨hrun, hwrites, -⟩ := tokenizeSplit_of_not_skip cudf log run s hskip
    have hold : ∀ e ∈ w.complete s, e.1 < run + 1 ∧
        ((tokenizeStep cudf log run args s w).after.files s).filter (fun f => f.run = e.1) = [] := by
      intro e he
      have hlt := (h e he).1
      refine ⟨by omega, List.filter_eq_nil_iff.mpr (fun f hf => ?_)⟩
      rw [World.files, hout] at hf
      have := hrun f hf
      simp only [decide_eq_true_eq]
      omega
    intro e he
    by_cases hall : writesAll cudf log run args s (w.out s) = true
    · have hcomplete : (tokenizeStep cudf log run args s w).after.complete s =
          (run, args.input s) :: w.complete s := by
        simp only [tokenizeStep, hall, if_true]
        exact Function.update_self ..
      rw [hcomplete] at he
      obtain rfl | he := List.mem_cons.mp he
      · obtain ⟨seqs, hseqs, hfiles⟩ := hwrites hall
        refine ⟨by omega, .inr ?_⟩
        rw [World.files, hout, List.filter_eq_self.mpr (fun f hf => by simpa using hrun f hf), hfiles]
        exact completeFiles_filesOf hseqs run args
      · exact ⟨(hold e he).1, .inl (hold e he).2⟩
    · have hcomplete : (tokenizeStep cudf log run args s w).after.complete s = w.complete s := by
        simp only [tokenizeStep, hall, Bool.false_eq_true, if_false]
      rw [hcomplete] at he
      exact ⟨(hold e he).1, .inl (hold e he).2⟩

theorem holds_step (h : Tracked cudf log run w s)
    (hok : (tokenizeStep cudf log run args s w).SkipOk) :
    (tokenizeStep cudf log run args s w).Holds cudf log := by
  intro n hn
  have hout := tokenizeStep_out cudf log run args s w
  have hn' : (tokenizeSplit cudf log run args s (w.out s)).2 = .returned n := hn
  by_cases hskip : nonemptyDir (w.out s) ∧ args.overwrite = false
  · have hsame : tokenizeSplit cudf log run args s (w.out s) = (w.out s, countOutcome (w.out s)) :=
      if_pos hskip
    rw [hsame] at hn' hout
    obtain ⟨files, hfiles, hread⟩ := returned_of_countOutcome hn'
    have hne : files ≠ [] := by
      have := hskip.1
      rw [hfiles] at this
      simpa [nonemptyDir] using this
    refine ⟨files, hout.trans hfiles, ?_⟩
    obtain ho | hok := hok
    · exact absurd (hskip.2.symm.trans ho) (by decide)
    · obtain ⟨f, hf, hnone⟩ | ⟨j, hj, hrun⟩ := hok files hfiles hne
      · exact absurd hnone (hread f hf)
      · have hfilter : (w.files s).filter (fun f => f.run = j) = files := by
          rw [World.files, hfiles, Option.getD_some]
          exact List.filter_eq_self.mpr (fun f hf => by simpa using hrun f hf)
        obtain ⟨-, hnil | hcomplete⟩ := h (j, args.input s) hj
        · exact absurd (hfilter.symm.trans hnil) hne
        · rwa [hfilter] at hcomplete
  · obtain ⟨-, hwrites, hreturned⟩ := tokenizeSplit_of_not_skip cudf log run s hskip
    obtain ⟨hall, files, hfiles⟩ := hreturned n hn'
    obtain ⟨seqs, hseqs, heq⟩ := hwrites hall
    refine ⟨files, hout.trans hfiles, ?_⟩
    rw [hfiles, Option.getD_some] at heq
    rw [heq]
    exact completeFiles_filesOf hseqs run args

/-! ### Whole histories -/

variable (args) in
/-- One run: its calls that may skip hold what they should, and the record is kept. -/
theorem runSplits_spec {l : List Split} (hl : l.Nodup)
    (hfresh : ∀ s ∈ l, Tracked cudf log run w s) (hw : ∀ s, Tracked cudf log (run + 1) w s) :
    (∀ c ∈ (runSplits cudf log run args l w).1, c.SkipOk → c.Holds cudf log) ∧
      ∀ s, Tracked cudf log (run + 1) (runSplits cudf log run args l w).2 s := by
  induction l generalizing w with
  | nil => exact ⟨by simp [runSplits], hw⟩
  | cons s l ih =>
    have hs := hfresh s (.head _)
    have hafter : ∀ s', Tracked cudf log (run + 1) (tokenizeStep cudf log run args s w).after s' := by
      intro s'
      by_cases hs' : s' = s
      · subst hs'
        exact tracked_step hs
      · exact tracked_step_of_ne hs' (hw s')
    have hrest : ∀ s' ∈ l, Tracked cudf log run (tokenizeStep cudf log run args s w).after s' := by
      intro s' hs'
      have hne : s' ≠ s := fun he => (List.nodup_cons.mp hl).1 (he ▸ hs')
      exact tracked_step_of_ne hne (hfresh s' (.tail _ hs'))
    obtain ⟨hcalls, hend⟩ := ih (List.nodup_cons.mp hl).2 hrest hafter
    unfold runSplits
    simp only
    split
    · refine ⟨fun c hc => ?_, hend⟩
      obtain rfl | hc := List.mem_cons.mp hc
      · exact holds_step hs
      · exact hcalls c hc
    · refine ⟨fun c hc => ?_, hafter⟩
      obtain rfl := List.mem_singleton.mp hc
      exact holds_step hs

theorem historyFrom_spec {runs : List RunArgs} {n : ℕ} (hw : ∀ s, Tracked cudf log n w s) :
    ∀ c ∈ historyFrom cudf log n w runs, c.SkipOk → c.Holds cudf log := by
  induction runs generalizing n w with
  | nil => simp [historyFrom]
  | cons args runs ih =>
    obtain ⟨hcalls, hend⟩ := runSplits_spec args (by decide : splits.Nodup)
      (fun s _ => hw s) (fun s => (hw s).mono (by omega))
    intro c hc
    obtain hc | hc := List.mem_append.mp hc
    · exact hcalls c hc
    · exact ih hend c hc

end calls

/-- In every history of runs, killed wherever it may be, a call that returns has left exactly the
sequences of its input, if it finds nothing that a killed run or a run on another input has left. -/
theorem holds_of_skipOk (cudf : Cudf) (log : ℚ → ℚ) (runs : List RunArgs) :
    ∀ c ∈ history cudf log runs, c.SkipOk → c.Holds cudf log :=
  historyFrom_spec (fun _ _ he => by cases he)

/-! ### Two cards of one user, tokenized twice -/

theorem exists_groupSequences (rows : List TokenizedRow) (L : ℕ) {c : ℕ} (hc : 0 < c) :
    ∃ seqs, groupSequences rows L c = .ok seqs ∧
      (rows.map TokenizedRow.ucKey).toFinset.card ≤ seqs.length := by
  refine ⟨(groups TokenizedRow.ucKey rows).flatMap (fun g =>
    (chunks c ((sortBy TokenizedRow.ts g).map TokenizedRow.tokenIds)).map
      (fun chunk => padTo L (chunkIds chunk))), ?_, ?_⟩
  · unfold groupSequences
    rw [mapM_eq_ok (fun g _ => buildSequences_eq g L hc), ok_bind]
    rfl
  · rw [← length_groups, List.length_flatMap]
    have hpos : ∀ n ∈ (groups TokenizedRow.ucKey rows).map (fun g =>
        ((chunks c ((sortBy TokenizedRow.ts g).map TokenizedRow.tokenIds)).map
          (fun chunk => padTo L (chunkIds chunk))).length), 1 ≤ n := by
      intro n hn
      obtain ⟨g, hg, rfl⟩ := List.mem_map.mp hn
      have hlen : 0 < g.length := List.length_pos_of_ne_nil (ne_nil_of_mem_groups hg)
      rw [List.length_map, length_chunks, List.length_map,
        (isStableSort_sortBy TokenizedRow.ts g).perm.length_eq]
      exact Nat.div_pos (by omega) hc
    have hsum := List.length_le_sum_of_one_le _ hpos
    rwa [List.length_map] at hsum

variable {cudf : Cudf} {log : ℚ → ℚ}

theorem splitSequences_singleton {batch : List RawTransaction}
    {r : List TokenizedRow × GPUTokenizer}
    (h : (GPUTokenizer.init log defaultHashSize).call cudf log batch = .ok r) :
    splitSequences cudf log [batch] = groupSequences r.1 seqLength seqChunkSize := by
  have hparts : [batch].mapM (fun batch =>
      (GPUTokenizer.init log defaultHashSize).call cudf log batch) = .ok [r] :=
    mapM_eq_ok (g := fun _ => r) (fun b hb => by rw [List.mem_singleton.mp hb, h])
  rw [splitSequences, hparts, ok_bind, List.flatMap_cons, List.flatMap_nil, List.append_nil]

/-- The input of the examples: two cards of user 0, in one batch. -/
def twoCards : Input := [[(0, 3), (0, 4)].map (fun p => exampleTransaction p.1 p.2)]

theorem exists_splitSequences_twoCards :
    ∃ a b seqs, splitSequences exampleCudf id twoCards = .ok (a :: b :: seqs) := by
  obtain ⟨r, hr⟩ := exists_call_example [] [(0, 3), (0, 4)]
  have hkeys : (r.1.map TokenizedRow.ucKey).toFinset.card = 2 := by
    rw [← ucKey_call hr, List.toFinset_eq_of_perm _ _ ((gatheredRows_perm _ _).map rawKey)]
    decide
  obtain ⟨seqs, hseqs, hlen⟩ := exists_groupSequences r.1 seqLength (by decide : 0 < seqChunkSize)
  have hsplit : splitSequences exampleCudf id twoCards = .ok seqs :=
    (splitSequences_singleton hr).trans hseqs
  rw [hkeys] at hlen
  have htwo : ∀ l : List Sequence, 2 ≤ l.length → ∃ a b l', l = a :: b :: l'
    | a :: b :: l, _ => ⟨a, b, l, rfl⟩
  obtain ⟨a, b, seqs', rfl⟩ := htwo seqs hlen
  exact ⟨a, b, seqs', hsplit⟩

/-- A run without `--overwrite`, with the same input for all splits and one sequence in a block. -/
def plainRun (input : Input) (kill : Option (Split × KillPoint)) : RunArgs where
  overwrite := false
  input _ := input
  blocks seqs := seqs.map (fun q => [q])
  blocks_perm seqs := by
    rw [show (seqs.map (fun q => [q])).flatten = seqs by
      induction seqs with
      | nil => rfl
      | cons q seqs ih => rw [List.map_cons, List.flatten_cons, ih]; rfl]
  kill := kill

theorem filesOf_plainRun (run : ℕ) (input : Input) (kill : Option (Split × KillPoint))
    (seqs : List Sequence) :
    filesOf run ((plainRun input kill).blocks seqs) = seqs.map (fun q => ⟨run, some [q]⟩) := by
  unfold filesOf plainRun
  induction seqs with
  | nil => rfl
  | cons q seqs ih => simpa using ih

theorem mem_runSplits {run : ℕ} {args : RunArgs} {s : Split} {l : List Split} {w : World} :
    tokenizeStep cudf log run args s w ∈ (runSplits cudf log run args (s :: l) w).1 := by
  unfold runSplits
  simp only
  split
  · exact .head _
  · exact .head _

theorem runSplits_of_notMem {run : ℕ} {args : RunArgs} {s : Split}
    {l : List Split} {w : World} (hs : s ∉ l) :
    (runSplits cudf log run args l w).2.out s = w.out s ∧
      (runSplits cudf log run args l w).2.complete s = w.complete s := by
  induction l generalizing w with
  | nil => exact ⟨rfl, rfl⟩
  | cons s' l ih =>
    rw [List.mem_cons, not_or] at hs
    have hstep := tokenizeStep_of_ne cudf log run args w hs.1
    unfold runSplits
    simp only
    split
    · obtain ⟨hout, hcomplete⟩ := ih (w := (tokenizeStep cudf log run args s' w).after) hs.2
      exact ⟨hout.trans hstep.1, hcomplete.trans hstep.2⟩
    · exact hstep

theorem countOutcome_singles (run : ℕ) (seqs : List Sequence) :
    countOutcome (some (seqs.map (fun q => ⟨run, some [q]⟩))) =
      .returned (seqs.map (fun _ => 1)).sum := by
  have hcounts : (seqs.map (fun q => (⟨run, some [q]⟩ : OutputFile))).mapM OutputFile.count =
      .ok (seqs.map (fun _ => 1)) := by
    rw [List.mapM_map]
    exact mapM_eq_ok (fun _ _ => rfl)
  unfold countOutcome readCount
  simp only [hcounts, ok_bind]

section twice

variable {cudf : Cudf} {log : ℚ → ℚ} {input : Input} {seqs : List Sequence}

theorem not_skip_none (args : RunArgs) : ¬ (nonemptyDir none = true ∧ args.overwrite = false) :=
  fun h => by cases h.1

theorem tokenizeSplit_plainRun (hseqs : splitSequences cudf log input = .ok seqs) (hne : seqs ≠ []) :
    tokenizeSplit cudf log 0 (plainRun input none) .train none =
      (some (seqs.map (fun q => ⟨0, some [q]⟩)), .returned (seqs.map (fun _ => 1)).sum) := by
  have hwrite : writeParquet (seqs.map (fun q => (⟨0, some [q]⟩ : OutputFile))) none =
      some (seqs.map (fun q => ⟨0, some [q]⟩)) := by
    unfold writeParquet
    rw [if_neg (by simpa using hne)]
    rfl
  unfold tokenizeSplit
  rw [if_neg (not_skip_none _), show (plainRun input none).input .train = input from rfl, hseqs]
  simp only [filesOf_plainRun, show (plainRun input none).overwrite = false from rfl,
    show (plainRun input none).killAt .train = none from rfl, Bool.false_eq_true, if_false, hwrite,
    countOutcome_singles]

variable {q : Sequence}

theorem tokenizeSplit_killed (hseqs : splitSequences cudf log input = .ok (q :: seqs)) :
    tokenizeSplit cudf log 0 (plainRun input (some (.train, ⟨1, false⟩))) .train none =
      (some [⟨0, some [q]⟩], .killed) := by
  unfold tokenizeSplit
  rw [if_neg (not_skip_none _),
    show (plainRun input (some (.train, ⟨1, false⟩))).input .train = input from rfl, hseqs]
  simp only [filesOf_plainRun,
    show (plainRun input (some (.train, ⟨1, false⟩))).killAt .train = some ⟨1, false⟩ from rfl]
  rfl

/-- The output of train when the first run has returned there, whatever comes after. -/
theorem after_first_run (hseqs : splitSequences cudf log input = .ok seqs) (hne : seqs ≠ []) :
    let w := (runSplits cudf log 0 (plainRun input none) splits .init).2
    w.out .train = some (seqs.map (fun q => ⟨0, some [q]⟩)) ∧ w.complete .train = [(0, input)] := by
  intro w
  have hcall := tokenizeSplit_plainRun hseqs hne
  let c := tokenizeStep cudf log 0 (plainRun input none) .train .init
  have hw : w = (runSplits cudf log 0 (plainRun input none) [.val, .test] c.after).2 := by
    have hreturned : c.outcome = _ := congrArg Prod.snd hcall
    show (runSplits cudf log 0 (plainRun input none) [.train, .val, .test] .init).2 = _
    rw [runSplits]
    simp only [show (tokenizeStep cudf log 0 (plainRun input none) .train .init).outcome = _ from
      hreturned]
    rfl
  have hall : writesAll cudf log 0 (plainRun input none) .train none = true := by
    unfold writesAll
    rw [if_neg (not_skip_none _), show (plainRun input none).input .train = input from rfl, hseqs]
    rfl
  obtain ⟨hout, hcomplete⟩ : w.out .train = c.after.out .train ∧
      w.complete .train = c.after.complete .train := by
    rw [hw]
    exact runSplits_of_notMem (by decide)
  have hfirst : c.after.out .train = (tokenizeSplit cudf log 0 (plainRun input none) .train none).1 :=
    tokenizeStep_out ..
  refine ⟨hout.trans ?_, hcomplete.trans ?_⟩
  · rw [hfirst, hcall]
  · show (if writesAll cudf log 0 (plainRun input none) .train none then
      Function.update (fun _ => []) Split.train [(0, input)] else fun _ => []) Split.train = _
    rw [if_pos hall]
    rfl

variable (cudf log) in
theorem mem_history_second (first second : RunArgs) :
    tokenizeStep cudf log 1 second .train (runSplits cudf log 0 first splits .init).2 ∈
      history cudf log [first, second] := by
  exact List.mem_append_right _ (List.mem_append_left _ mem_runSplits)

theorem second_run (hseqs : splitSequences cudf log input = .ok seqs) (hne : seqs ≠ []) :
    let w := (runSplits cudf log 0 (plainRun input none) splits .init).2
    let c := tokenizeStep cudf log 1 (plainRun input none) .train w
    nonemptyDir (c.before.out c.split) = true ∧ c.SkipOk ∧ ∃ n, c.outcome = .returned n := by
  intro w c
  obtain ⟨hout, hcomplete⟩ := after_first_run hseqs hne
  have hbefore : c.before.out c.split = some (seqs.map (fun q => ⟨0, some [q]⟩)) := hout
  have hnonempty : nonemptyDir (c.before.out c.split) = true := by
    rw [hbefore]
    simpa [nonemptyDir] using hne
  refine ⟨hnonempty, .inr (fun files hfiles _ => .inr ⟨0, ?_, fun f hf => ?_⟩), ?_⟩
  · show (0, input) ∈ w.complete .train
    rw [hcomplete]
    exact List.mem_singleton.mpr rfl
  · rw [hbefore] at hfiles
    cases hfiles
    obtain ⟨q, -, rfl⟩ := List.mem_map.mp hf
    rfl
  · have hskip : c.outcome = countOutcome (c.before.out c.split) := by
      show (tokenizeSplit cudf log 1 (plainRun input none) .train (c.before.out c.split)).2 = _
      rw [tokenizeSplit, if_pos ⟨hnonempty, rfl⟩]
    exact ⟨_, by rw [hskip, hbefore, countOutcome_singles]⟩

theorem after_killed_run (hseqs : splitSequences cudf log input = .ok (q :: seqs)) :
    (runSplits cudf log 0 (plainRun input (some (.train, ⟨1, false⟩))) splits .init).2.out .train =
      some [⟨0, some [q]⟩] := by
  let args := plainRun input (some (.train, ⟨1, false⟩))
  have hcall : tokenizeSplit cudf log 0 args .train none = _ := tokenizeSplit_killed hseqs
  have hkilled : (tokenizeStep cudf log 0 args .train .init).outcome = .killed :=
    congrArg Prod.snd hcall
  have hafter : (runSplits cudf log 0 args [.train, .val, .test] .init).2 =
      (tokenizeStep cudf log 0 args .train .init).after := by
    rw [runSplits]
    simp only [hkilled]
  have hout : (tokenizeStep cudf log 0 args .train .init).after.out .train =
      (tokenizeSplit cudf log 0 args .train none).1 := tokenizeStep_out ..
  show (runSplits cudf log 0 args [.train, .val, .test] .init).2.out .train = _
  rw [hafter, hout, hcall]

/-- A second run after the killed one returns, and its split lacks all sequences but one. -/
theorem second_run_after_kill {q' : Sequence}
    (hseqs : splitSequences cudf log input = .ok (q :: q' :: seqs)) :
    let w := (runSplits cudf log 0 (plainRun input (some (.train, ⟨1, false⟩))) splits .init).2
    let c := tokenizeStep cudf log 1 (plainRun input none) .train w
    (∃ n, c.outcome = .returned n) ∧ ¬ c.Holds cudf log := by
  intro w c
  have hw : w.out .train = some [⟨0, some [q]⟩] := after_killed_run hseqs
  have hsplit : tokenizeSplit cudf log 1 (plainRun input none) .train (w.out .train) =
      (some [⟨0, some [q]⟩], .returned 1) := by
    rw [hw, tokenizeSplit, if_pos ⟨rfl, rfl⟩]
    rfl
  have hreturned : c.outcome = .returned 1 := congrArg Prod.snd hsplit
  refine ⟨⟨1, hreturned⟩, fun hholds => ?_⟩
  obtain ⟨files, hfiles, seqs', hseqs', -, hperm⟩ := hholds 1 hreturned
  have hout : c.after.out .train =
      (tokenizeSplit cudf log 1 (plainRun input none) .train (w.out .train)).1 :=
    tokenizeStep_out ..
  rw [hsplit] at hout
  obtain rfl := Option.some.inj (hfiles.symm.trans hout)
  obtain rfl := Except.ok.inj (hseqs'.symm.trans hseqs)
  have hlen := hperm.length_eq
  simp at hlen

end twice

/-- The second run finds the complete output of the first one and skips. -/
theorem holds_second_run :
    ∃ c ∈ history exampleCudf id [plainRun twoCards none, plainRun twoCards none],
      nonemptyDir (c.before.out c.split) = true ∧ c.SkipOk ∧ (∃ n, c.outcome = .returned n) ∧
        c.Holds exampleCudf id := by
  obtain ⟨a, b, seqs, hseqs⟩ := exists_splitSequences_twoCards
  obtain ⟨hnonempty, hok, hreturned⟩ := second_run hseqs (List.cons_ne_nil a _)
  have hmem := mem_history_second exampleCudf id (plainRun twoCards none) (plainRun twoCards none)
  exact ⟨_, hmem, hnonempty, hok, hreturned, holds_of_skipOk exampleCudf id _ _ hmem hok⟩

/-- A first run is killed after one of two files.  The second run returns and leaves the split
incomplete. -/
theorem skip_after_kill :
    ∃ c ∈ history exampleCudf id
        [plainRun twoCards (some (.train, ⟨1, false⟩)), plainRun twoCards none],
      (∃ n, c.outcome = .returned n) ∧ ¬ c.Holds exampleCudf id := by
  obtain ⟨a, b, seqs, hseqs⟩ := exists_splitSequences_twoCards
  obtain ⟨hreturned, hholds⟩ := second_run_after_kill hseqs
  exact ⟨_, mem_history_second exampleCudf id _ _, hreturned, hholds⟩

end RayTfm.Scripts
