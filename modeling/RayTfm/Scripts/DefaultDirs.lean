import Mathlib

/-! # Default output directories

`create_temporal_splits.py` and `tokenize_splits.py` look for the version in the name of their
input, as a whole word.  In the stem `card_transaction.v1` the version follows a dot, and the
splits go to `temporal_split_v1`; there the version follows an underscore, which is a letter of
words, and the second script takes the whole name as its label (`defaultOutputDirs_eq`). -/

namespace RayTfm.Scripts

/-- The classes `\d` and `\w`: in ASCII digits, and letters, digits and the underscore. -/
structure CharClasses where
  isDigit : Char → Bool
  isWord : Char → Bool
  isDigit_ascii : ∀ c, c.toNat < 128 → isDigit c = c.isDigit
  isWord_ascii : ∀ c, c.toNat < 128 → (isWord c = true ↔ c.isAlphanum = true ∨ c = '_')
  isWord_of_isDigit : ∀ c, isDigit c = true → isWord c = true

/-- The classes on ASCII. -/
def CharClasses.ascii : CharClasses where
  isDigit := Char.isDigit
  isWord c := c.isAlphanum ∨ c = '_'
  isDigit_ascii _ _ := rfl
  isWord_ascii _ _ := decide_eq_true_iff
  isWord_of_isDigit c hc := by simp [Char.isAlphanum, hc]

variable (classes : CharClasses)

/-! ### Labels -/

/-- `\b`: exactly one of the neighbours is a letter of words. -/
def wordBoundary (before after : Option Char) : Bool :=
  before.any classes.isWord != after.any classes.isWord

/-- The group of `re.search(r"\b(v\d+)\b", _)`; all digits are taken, since there is no boundary
between two of them. -/
def searchVersion (before : Option Char) : List Char → Option (List Char)
  | [] => none
  | c :: cs =>
    let digits := cs.takeWhile classes.isDigit
    if wordBoundary classes before (some c) ∧ c = 'v' ∧ digits ≠ [] ∧
        wordBoundary classes digits.getLast? (cs.dropWhile classes.isDigit).head? then
      some (c :: digits)
    else searchVersion (some c) cs

/-- `re.sub(r"[^A-Za-z0-9]+", "_", _)`; `inRun` tells whether the last character was replaced. -/
def replaceRuns (inRun : Bool) : List Char → List Char
  | [] => []
  | c :: cs =>
    if c.isAlphanum then c :: replaceRuns false cs
    else if inRun then replaceRuns true cs
    else '_' :: replaceRuns true cs

/-- `strip("_")`. -/
def stripUnderscores (s : List Char) : List Char :=
  ((s.dropWhile (· = '_')).reverse.dropWhile (· = '_')).reverse

/-- `version_label`, of a stem or of the name of a directory. -/
def versionLabel (name : String) : String :=
  match searchVersion classes none name.toList with
  | some label => String.ofList label
  | none =>
    let label := stripUnderscores (replaceRuns false name.toList)
    if label = [] then "run" else String.ofList label

/-! ### Paths -/

/-- The parts of an absolute path, from the root on. -/
abbrev Path := List String

namespace Path

def name (p : Path) : String := p.getLast?.getD ""

/-- `stem`: the name up to its last dot, unless that is its first or last character. -/
def stem (p : Path) : String :=
  let i := (p.name.toList.reverse.dropWhile (· ≠ '.')).length
  if 1 < i ∧ i < p.name.length then String.ofList (p.name.toList.take (i - 1)) else p.name

def parent (p : Path) : Path := p.dropLast

end Path

/-- `create_temporal_splits.default_data_root`; `tfmRoot` is the directory of the repository. -/
def defaultDataRoot (tfmRoot : Path) (resolve : Path → Path) (rawParquet : Path) : Path :=
  let raw := resolve rawParquet
  if 3 ≤ raw.length ∧ (raw.drop (raw.length - 3)).take 2 = ["raw", "parquet"] then
    raw.parent.parent.parent
  else tfmRoot ++ ["data"]

/-- `create_temporal_splits.default_output_dir`. -/
def defaultSplitDir (tfmRoot : Path) (resolve : Path → Path) (rawParquet : Path) : Path :=
  defaultDataRoot tfmRoot resolve rawParquet ++
    ["temporal_split_" ++ versionLabel classes rawParquet.stem]

/-- `tokenize_splits.default_output_dir`. -/
def defaultTokenizedDir (splitDir : Path) : Path :=
  splitDir.parent ++ ["tokenized_" ++ versionLabel classes splitDir.name]

/-! ### Where the version is found -/

variable {classes} {before : Option Char} {s k : List Char}

/-- A text without `v` is passed over. -/
theorem searchVersion_append (h : ∀ c ∈ s, c ≠ 'v') (t : List Char) :
    searchVersion classes before (s ++ t) = searchVersion classes (s.getLast?.or before) t := by
  induction s generalizing before with
  | nil => rfl
  | cons c s ih =>
    have hc : c ≠ 'v' := h c (.head _)
    rw [List.cons_append, searchVersion, if_neg (fun hv => hc hv.2.1),
      ih (fun d hd => h d (List.mem_cons_of_mem c hd))]
    cases s with
    | nil => rfl
    | cons d s => rw [List.getLast?_cons_cons, List.getLast?_eq_some_getLast
        (List.cons_ne_nil d s)]; rfl

theorem searchVersion_eq_none (h : ∀ c ∈ s, c ≠ 'v') : searchVersion classes before s = none := by
  rw [← List.append_nil s, searchVersion_append h]
  rfl

theorem searchVersion_version (hne : k ≠ []) (hk : ∀ c ∈ k, classes.isDigit c = true) (b : Char) :
    searchVersion classes (some b) ('v' :: k) =
      if classes.isWord b = true then none else some ('v' :: k) := by
  have hv : classes.isWord 'v' = true := (classes.isWord_ascii 'v' (by decide)).mpr (by decide)
  have htake : k.takeWhile classes.isDigit = k := List.takeWhile_eq_self_iff.mpr hk
  have hdrop : k.dropWhile classes.isDigit = [] := List.dropWhile_eq_nil_iff.mpr hk
  have hlast : classes.isWord (k.getLast hne) = true :=
    classes.isWord_of_isDigit _ (hk _ (List.getLast_mem hne))
  have hnov : ∀ c ∈ k, c ≠ 'v' := by
    rintro c hc rfl
    have hdigit := hk _ hc
    rw [classes.isDigit_ascii 'v' (by decide)] at hdigit
    cases hdigit
  rw [searchVersion]
  simp only [htake, hdrop, wordBoundary, Option.any_some, hv, List.head?_nil, Option.any_none,
    List.getLast?_eq_some_getLast hne, hlast, true_and, searchVersion_eq_none hnov]
  by_cases hb : classes.isWord b = true
  · simp [hb]
  · simp [hb, hne]

/-! ### The names of the data files -/

theorem Path.stem_append (p : Path) {base ext : List Char} (hbase : base ≠ []) (hext : ext ≠ [])
    (hdot : ∀ c ∈ ext, c ≠ '.') :
    Path.stem (p ++ [String.ofList (base ++ '.' :: ext)]) = String.ofList base := by
  have hname : Path.name (p ++ [String.ofList (base ++ '.' :: ext)]) =
      String.ofList (base ++ '.' :: ext) := by
    rw [Path.name, List.getLast?_append_cons, List.getLast?_singleton, Option.getD_some]
  have hdrop : ((base ++ '.' :: ext).reverse.dropWhile (· ≠ '.')) = '.' :: base.reverse := by
    rw [List.reverse_append, List.reverse_cons, List.append_assoc, List.dropWhile_append_of_pos]
    · rfl
    · intro c hc
      simpa using hdot c (List.mem_reverse.mp hc)
  have hpos := List.length_pos_of_ne_nil hbase
  have hpos' := List.length_pos_of_ne_nil hext
  rw [Path.stem, hname]
  simp only [String.toList_ofList, hdrop, String.length_ofList, List.length_cons,
    List.length_reverse, List.length_append, Nat.add_sub_cancel, List.take_left]
  rw [if_pos (by omega)]

/-- `D/raw/parquet/card_transaction.v{k}.parquet`. -/
def rawParquet (D : Path) (k : List Char) : Path :=
  D ++ ["raw", "parquet", String.ofList ("card_transaction.v".toList ++ k ++ ".parquet".toList)]

/-- `D/{base}v{k}`. -/
def versionDir (D : Path) (base : String) (k : List Char) : Path :=
  D ++ [String.ofList (base.toList ++ 'v' :: k)]

variable {D : Path}

theorem versionLabel_stem (hne : k ≠ []) (hk : ∀ c ∈ k, classes.isDigit c = true) :
    versionLabel classes (rawParquet D k).stem = String.ofList ('v' :: k) := by
  have hstem : (rawParquet D k).stem = String.ofList ("card_transaction.v".toList ++ k) := by
    have hbase : "card_transaction.v".toList ++ k ≠ [] := by simp
    have hext : "parquet".toList ≠ [] := by simp
    have h := Path.stem_append (D ++ ["raw", "parquet"]) hbase hext (by simp)
    rw [← h, rawParquet, List.append_assoc]
    simp
  have hdot : ¬ classes.isWord '.' = true := by
    rw [classes.isWord_ascii '.' (by decide)]
    decide
  have hsearch : searchVersion classes none ("card_transaction.v".toList ++ k) = some ('v' :: k) := by
    rw [show "card_transaction.v".toList ++ k = "card_transaction.".toList ++ 'v' :: k by simp,
      searchVersion_append (by simp)]
    rw [show ("card_transaction.".toList.getLast?.or none) = some '.' by simp,
      searchVersion_version hne hk, if_neg hdot]
  rw [hstem, versionLabel, String.toList_ofList, hsearch]

theorem stripUnderscores_append (s : List Char) :
    ∃ rest, stripUnderscores ("temporal_split_v".toList ++ s) = "temporal_split_v".toList ++ rest := by
  have hstart : ("temporal_split_v".toList ++ s).dropWhile (· = '_') =
      "temporal_split_v".toList ++ s := by simp
  have hend : "temporal_split_v".toList.reverse.dropWhile (· = '_') =
      "temporal_split_v".toList.reverse := by simp
  rw [stripUnderscores, hstart, List.reverse_append, List.dropWhile_append]
  split_ifs
  · exact ⟨[], by rw [hend, List.reverse_reverse, List.append_nil]⟩
  · exact ⟨_, by rw [List.reverse_append, List.reverse_reverse]⟩

/-- The label of a split directory is its name, with what is not a letter or digit replaced. -/
theorem versionLabel_splitDir (hne : k ≠ []) (hk : ∀ c ∈ k, classes.isDigit c = true) :
    versionLabel classes (versionDir D "temporal_split_" k).name =
      String.ofList (stripUnderscores ("temporal_split_v".toList ++ replaceRuns false k)) := by
  have hname : (versionDir D "temporal_split_" k).name =
      String.ofList ("temporal_split_".toList ++ 'v' :: k) := by
    rw [versionDir, Path.name, List.getLast?_append_cons, List.getLast?_singleton, Option.getD_some]
  have hword : classes.isWord '_' = true := (classes.isWord_ascii '_' (by decide)).mpr (.inr rfl)
  have hsearch : searchVersion classes none ("temporal_split_".toList ++ 'v' :: k) = none := by
    rw [searchVersion_append (by simp),
      show ("temporal_split_".toList.getLast?.or none) = some '_' by simp,
      searchVersion_version hne hk, if_pos hword]
  have hreplace : replaceRuns false ("temporal_split_".toList ++ 'v' :: k) =
      "temporal_split_v".toList ++ replaceRuns false k := by
    simp [replaceRuns]
  have hlabel : stripUnderscores ("temporal_split_v".toList ++ replaceRuns false k) ≠ [] := by
    obtain ⟨rest, hrest⟩ := stripUnderscores_append (replaceRuns false k)
    rw [hrest]
    simp
  rw [hname, versionLabel, String.toList_ofList, hsearch]
  simp only [hreplace, if_neg hlabel]

theorem replaceRuns_alphanum {inRun : Bool} (h : ∀ c ∈ s, c.isAlphanum = true) :
    replaceRuns inRun s = s := by
  induction s generalizing inRun with
  | nil => rfl
  | cons c s ih =>
    rw [replaceRuns, if_pos (h c List.mem_cons_self), ih (fun d hd => h d (List.mem_cons_of_mem c hd))]

theorem stripUnderscores_digits (hne : k ≠ []) (hk : ∀ c ∈ k, c.isDigit = true) :
    stripUnderscores ("temporal_split_v".toList ++ replaceRuns false k) =
      "temporal_split_v".toList ++ k := by
  have halnum : ∀ c ∈ k, c.isAlphanum = true := fun c hc => by simp [Char.isAlphanum, hk c hc]
  have hlast : k.getLast hne ≠ '_' := by
    intro heq
    have hdigit := hk _ (List.getLast_mem hne)
    rw [heq] at hdigit
    cases hdigit
  have hrev : ("temporal_split_v".toList ++ k).reverse =
      k.getLast hne :: (k.dropLast.reverse ++ "temporal_split_v".toList.reverse) := by
    conv_lhs => rw [← List.dropLast_append_getLast hne]
    simp
  have hstart : ("temporal_split_v".toList ++ k).dropWhile (· = '_') =
      "temporal_split_v".toList ++ k := by simp
  rw [replaceRuns_alphanum halnum, stripUnderscores, hstart, hrev,
    List.dropWhile_cons_of_neg (by simpa using hlast), ← hrev, List.reverse_reverse]

theorem append_ofList (base : String) (l : List Char) :
    base ++ String.ofList l = String.ofList (base.toList ++ l) := by
  rw [String.ofList_append, String.ofList_toList]

/-- For every directory and every version: the splits go to the documented directory, and their
tokens never do, but to a directory with the whole name of the split directory. -/
theorem defaultOutputDirs_eq (tfmRoot : Path) (resolve : Path → Path) (hne : k ≠ [])
    (hk : ∀ c ∈ k, classes.isDigit c = true)
    (hresolve : resolve (rawParquet D k) = rawParquet D k) :
    defaultSplitDir classes tfmRoot resolve (rawParquet D k) = versionDir D "temporal_split_" k ∧
      defaultTokenizedDir classes (versionDir D "temporal_split_" k) ≠ versionDir D "tokenized_" k ∧
      ((∀ c ∈ k, c.isDigit = true) →
        defaultTokenizedDir classes (versionDir D "temporal_split_" k) =
          versionDir D "tokenized_temporal_split_" k) := by
  have hroot : defaultDataRoot tfmRoot resolve (rawParquet D k) = D := by
    have hparts : ((rawParquet D k).drop ((rawParquet D k).length - 3)).take 2 =
      ["raw", "parquet"] := by
      rw [rawParquet, List.length_append, List.length_cons, List.length_cons, List.length_singleton,
        Nat.add_sub_cancel, List.drop_left]
      rfl
    rw [defaultDataRoot, hresolve, if_pos ⟨by rw [rawParquet, List.length_append]; simp, hparts⟩]
    simp [rawParquet, Path.parent]
  have htokenized : defaultTokenizedDir classes (versionDir D "temporal_split_" k) =
      D ++ ["tokenized_" ++ String.ofList
        (stripUnderscores ("temporal_split_v".toList ++ replaceRuns false k))] := by
    rw [defaultTokenizedDir, versionLabel_splitDir hne hk, versionDir, Path.parent,
      List.dropLast_concat]
  refine ⟨?_, ?_, fun hdigits => ?_⟩
  · rw [defaultSplitDir, hroot, versionLabel_stem hne hk, append_ofList, versionDir]
  · obtain ⟨rest, hrest⟩ := stripUnderscores_append (replaceRuns false k)
    rw [htokenized, hrest, versionDir]
    intro heq
    have hname := congrArg String.toList (List.singleton_inj.mp (List.append_cancel_left heq))
    simp at hname
  · rw [htokenized, stripUnderscores_digits hne hdigits, append_ofList, versionDir]
    simp

/-- The documented directories of the first version: the tokens go elsewhere. -/
theorem defaultTokenizedDir_ne :
    defaultSplitDir .ascii ["/", "tfm_repo"] id
        ["/", "tfm_repo", "data", "raw", "parquet", "card_transaction.v1.parquet"] =
      ["/", "tfm_repo", "data", "temporal_split_v1"] ∧
    defaultTokenizedDir .ascii ["/", "tfm_repo", "data", "temporal_split_v1"] =
      ["/", "tfm_repo", "data", "tokenized_temporal_split_v1"] ∧
    ["/", "tfm_repo", "data", "tokenized_temporal_split_v1"] ≠
      ["/", "tfm_repo", "data", "tokenized_v1"] := by
  decide +kernel

theorem defaultOutputDirs_eq_example :
    defaultSplitDir .ascii ["/", "tfm_repo"] id (rawParquet ["/", "tfm_repo", "data"] ['1']) =
        versionDir ["/", "tfm_repo", "data"] "temporal_split_" ['1'] ∧
      defaultTokenizedDir .ascii (versionDir ["/", "tfm_repo", "data"] "temporal_split_" ['1']) =
        versionDir ["/", "tfm_repo", "data"] "tokenized_temporal_split_" ['1'] := by
  have hdigits : ∀ c ∈ ['1'], CharClasses.ascii.isDigit c = true := by
    intro c hc
    rw [List.mem_singleton.mp hc]
    rfl
  obtain ⟨hsplit, -, htokenized⟩ := defaultOutputDirs_eq (D := ["/", "tfm_repo", "data"])
    ["/", "tfm_repo"] id (List.cons_ne_nil _ _) hdigits rfl
  exact ⟨hsplit, htokenized hdigits⟩

end RayTfm.Scripts
