import RayTfm.Py
import RayTfm.Lib.Dict
import RayTfm.Lib.Decimal

/-! # Tokenizer steps

The model of `tokenizer/base.py` and its subclasses `FixedVocabTokenizer`, `MappingTokenizer`,
`CategoricalHashTokenizer` and `TimeDeltaTokenizer`: configuration at construction, an
index-to-token table written by `buildVocab`, and `tokenize`, which maps a column of values to
token strings.

A column is a list of cells, `none` for null.  Of a value the tokenizers only see its text and
its casts to integers, so a value is an integer, a string, or a number of another type together
with the text `str` prints for it.  Floating-point arithmetic is exact here, and the logarithm
of the time-delta step is a parameter. -/

namespace RayTfm.Tfm

/-! ### Columns -/

/-- A non-null cell. -/
inductive Value where
  | int (i : ℤ)
  | str (s : String)
  | float (q : ℚ) (text : String)
deriving DecidableEq, Repr

/-- The text `str` prints for a value. -/
def Value.text : Value → String
  | .int i => toString i
  | .str s => s
  | .float _ t => t

/-- A column; `none` is a null cell. -/
abbrev Column := List (Option Value)

/-- A tokenized column. -/
abbrev TokenColumn := List (Option String)

/-- The integer written by a string of digits with an optional sign. -/
def parseInt (s : List Char) : Option ℤ :=
  let digits (cs : List Char) : Option ℤ :=
    if cs ≠ [] ∧ cs.all Char.isDigit then some (Nat.ofDigitChars 10 cs 0) else none
  match s with
  | '-' :: cs => (digits cs).map (fun i => -i)
  | '+' :: cs => digits cs
  | cs => digits cs

/-- A cast to an integer type: a number is truncated towards zero, a string must be a numeral. -/
def Value.toInt : Value → Except PyError ℤ
  | .int i => .ok i
  | .str s =>
    match parseInt s.toList with
    | some i => .ok i
    | none => .error (.valueError
        "Could not convert strings to integer type due to presence of non-integer values.")
  | .float q _ => .ok (q.num.tdiv q.den)

/-- `astype("int32")`: the low 32 bits, with sign. -/
def Value.toInt32 (v : Value) : Except PyError ℤ := do
  let i ← v.toInt
  .ok (i.bmod (2 ^ 32))

/-- `clip(lo, hi)`. -/
def clip (lo hi x : ℤ) : ℤ := max lo (min x hi)

/-- `range(a, b)`. -/
def intRange (a b : ℤ) : List ℤ := (List.range (b - a).toNat).map (fun k : ℕ => a + (k : ℤ))

theorem mem_intRange {a b i : ℤ} : i ∈ intRange a b ↔ a ≤ i ∧ i < b := by
  simp only [intRange, List.mem_map, List.mem_range]
  constructor
  · rintro ⟨k, hk, rfl⟩
    omega
  · intro h
    exact ⟨(i - a).toNat, by omega, by omega⟩

theorem intRange_nodup (a b : ℤ) : (intRange a b).Nodup :=
  List.Nodup.map (fun _ _ h => by simpa using h) List.nodup_range

@[simp] theorem length_intRange (a b : ℤ) : (intRange a b).length = (b - a).toNat := by
  simp [intRange]

/-- The format `{i:0{w}d}`: zero-padded to width `w`, a sign counts. -/
def formatInt (w : ℕ) (i : ℤ) : String :=
  if 0 ≤ i then String.ofList (zpad w i.toNat) else "-" ++ String.ofList (zpad (w - 1) (-i).toNat)

/-- A function of values on a cell; null stays null. -/
def onCell (f : Value → Except PyError (Option String)) :
    Option Value → Except PyError (Option String)
  | none => .ok none
  | some v => f v

/-- Apply a function of values to every cell of a column. -/
def mapCells (f : Value → Except PyError (Option String)) (column : Column) :
    Except PyError TokenColumn :=
  column.mapM (onCell f)

/-! ### The base class -/

/-- The index-to-token table `_idx_to_token`: plain, or one table per sub-key. -/
inductive IdxToToken where
  | flat (d : Dict ℤ String)
  | nested (d : Dict String (Dict ℤ String))
deriving DecidableEq, Repr

/-- The token-to-index dictionary handed out by `vocab`. -/
inductive LocalVocab where
  | flat (d : Dict String ℤ)
  | nested (d : Dict String (Dict String ℤ))
deriving DecidableEq, Repr

/-- Swap keys and values; a later entry overwrites an earlier one with the same value. -/
def invert (d : Dict ℤ String) : Dict String ℤ := Dict.ofList (d.entries.map Prod.swap)

/-- State shared by all steps: the cached `_vocab` and the table `_idx_to_token`. -/
structure BaseTokenizer where
  cachedVocab : Option LocalVocab
  idxToToken : Option IdxToToken
deriving DecidableEq, Repr

namespace BaseTokenizer

/-- `BaseTokenizer.__init__`. -/
def init : BaseTokenizer := ⟨none, none⟩

/-- The inverse of a table; `next(iter(...))` raises on an empty one. -/
def vocabOf : IdxToToken → Except PyError LocalVocab
  | .flat d => if d.entries = [] then .error .stopIteration else .ok (.flat (invert d))
  | .nested d =>
    if d.entries = [] then .error .stopIteration
    else .ok (.nested (Dict.ofList (d.entries.map (fun p => (p.1, invert p.2)))))

/-- The property `vocab`: built from the table on first access, then cached. -/
def vocab (t : BaseTokenizer) : Except PyError (LocalVocab × BaseTokenizer) :=
  match t.cachedVocab, t.idxToToken with
  | some v, _ => .ok (v, t)
  | none, none => .ok (.flat Dict.empty, t)
  | none, some d => do
      let v ← vocabOf d
      .ok (v, { t with cachedVocab := some v })

/-- The property `vocab_size`. -/
def vocabSize (t : BaseTokenizer) : ℕ :=
  match t.idxToToken with
  | none => 0
  | some (.flat d) => d.size
  | some (.nested d) => (d.values.map Dict.size).sum

/-- Write a plain table. -/
def setTable (t : BaseTokenizer) (entries : List (ℤ × String)) : BaseTokenizer :=
  { t with idxToToken := some (.flat (Dict.ofList entries)) }

/-- `Series.map(self._idx_to_token)` on one cell; a plain table is the only one ever applied. -/
def lookup (t : BaseTokenizer) (i : ℤ) : Except PyError (Option String) :=
  match t.idxToToken with
  | some (.flat d) => .ok (d.get? i)
  | _ => .error .typeError

end BaseTokenizer

/-- A CUDA stream, by number. -/
abbrev Stream := ℕ

/-! ### `FixedVocabTokenizer` -/

/-- Tokens `PREFIX_value` for every integer in a range. -/
structure FixedVocabTokenizer where
  base : BaseTokenizer
  prefixStr : String
  minVal : ℤ
  maxVal : ℤ
  padWidth : ℕ
  stream : Option Stream
  vocabBuilt : Bool
deriving DecidableEq, Repr

namespace FixedVocabTokenizer

def init (prefixStr : String) (minVal maxVal : ℤ) (padWidth : ℕ) (stream : Option Stream) :
    FixedVocabTokenizer :=
  ⟨.init, prefixStr, minVal, maxVal, padWidth, stream, false⟩

/-- The entry of value `i`. -/
def entry (t : FixedVocabTokenizer) (i : ℤ) : ℤ × String :=
  (i, t.prefixStr ++ "_" ++ formatInt t.padWidth i)

def buildVocab (t : FixedVocabTokenizer) (_ : Option Column) : FixedVocabTokenizer :=
  { t with
    base := t.base.setTable ((intRange t.minVal (t.maxVal + 1)).map t.entry)
    vocabBuilt := true }

/-- The token of a value: cast, clipped to the range, looked up. -/
def tokenizeValue (t : FixedVocabTokenizer) (v : Value) : Except PyError (Option String) := do
  let i ← v.toInt32
  t.base.lookup (clip t.minVal t.maxVal i)

def tokenize (t : FixedVocabTokenizer) (column : Column) : Except PyError TokenColumn :=
  mapCells t.tokenizeValue column

end FixedVocabTokenizer

/-! ### `MappingTokenizer` -/

/-- The three modes of a mapping step. -/
inductive Mode where
  | direct
  | passthrough
  | range
deriving DecidableEq, Repr

/-- Tokens `PREFIX_label`, the label looked up in a map or in integer ranges. -/
structure MappingTokenizer where
  base : BaseTokenizer
  prefixStr : String
  default : String
  stream : Option Stream
  vocabBuilt : Bool
  mappingCfg : Option (Dict Value String)
  valuesCfg : Option (List Value)
  rangesCfg : Option (List (ℤ × ℤ × String))
  mode : Mode
  directMap : Option (Dict Value String)
  rangeLookup : Option (List (ℤ × ℤ × String))
deriving DecidableEq, Repr

/-- `sorted` on strings. -/
def sortedStr (l : List String) : List String := l.insertionSort (· ≤ ·)

namespace MappingTokenizer

def init (prefixStr : String) (mapping : Option (Dict Value String)) (values : Option (List Value))
    (ranges : Option (List (ℤ × ℤ × String))) (default : String) (stream : Option Stream) :
    MappingTokenizer :=
  let t (mode : Mode) (directMap : Option (Dict Value String))
      (rangeLookup : Option (List (ℤ × ℤ × String))) : MappingTokenizer :=
    ⟨.init, prefixStr, default, stream, false, mapping, values, ranges, mode, directMap, rangeLookup⟩
  match ranges, mapping, values with
  | some ranges, _, _ => t .range none (some ranges)
  | none, some mapping, _ => t .direct (some mapping) none
  | none, none, some values =>
    t .passthrough (some (Dict.ofList (values.map (fun v => (v, v.text))))) none
  | none, none, none => t .passthrough (some Dict.empty) none

/-- The direct map is present and not empty (the truth value of `self._direct_map`). -/
def hasDirectMap (t : MappingTokenizer) : Bool :=
  match t.directMap with
  | some d => d.entries ≠ []
  | none => false

/-- The table that numbers the given labels. -/
def labelTable (t : MappingTokenizer) (labels : List String) : List (ℤ × String) :=
  labels.zipIdx.map (fun p => ((p.2 : ℤ), t.prefixStr ++ "_" ++ p.1))

/-- The labels of a non-empty direct map: its values in order, then the default if it is new. -/
def directLabels (t : MappingTokenizer) : List String :=
  Dict.fromkeys (sortedStr (((t.directMap.getD Dict.empty).values).dedup) ++ [t.default])

/-- The labels of range mode; the default is appended even if a range has the same label. -/
def rangeLabels (t : MappingTokenizer) : List String :=
  sortedStr (((t.rangeLookup.getD []).map (fun r => r.2.2)).dedup) ++ [t.default]

/-- The labels learned from a column: the texts of its distinct values, sorted by text, then the
default, without repetitions. -/
def dataLabels (t : MappingTokenizer) (column : Column) : List String :=
  let uniqueVals := (column.filterMap id).dedup.insertionSort (fun a b => a.text ≤ b.text)
  Dict.fromkeys (uniqueVals.map Value.text ++ [t.default])

def buildVocab (t : MappingTokenizer) (columnData : Option Column) : MappingTokenizer :=
  if t.mode = .range then
    { t with base := t.base.setTable (t.labelTable t.rangeLabels), vocabBuilt := true }
  else if t.hasDirectMap then
    { t with base := t.base.setTable (t.labelTable t.directLabels), vocabBuilt := true }
  else
    match t.mode, columnData with
    | .passthrough, some column =>
      let labels := t.dataLabels column
      { t with
        directMap := some (Dict.ofList (labels.map (fun l => (Value.str l, l))))
        base := t.base.setTable (t.labelTable labels)
        vocabBuilt := true }
    | _, _ =>
      { t with base := t.base.setTable [(0, t.prefixStr ++ "_" ++ t.default)], vocabBuilt := true }

/-- The next column the step is built on would be learned: passthrough mode, nothing configured. -/
def WillLearn (t : MappingTokenizer) : Prop := t.mode = .passthrough ∧ t.hasDirectMap = false

/-- The table of a mapping step that learns nothing. -/
def configTable (t : MappingTokenizer) : List (ℤ × String) :=
  if t.mode = .range then t.labelTable t.rangeLabels
  else if t.hasDirectMap then t.labelTable t.directLabels
  else [(0, t.prefixStr ++ "_" ++ t.default)]

variable {t : MappingTokenizer}

theorem buildVocab_of_not_learn {c : Option Column} (h : t.WillLearn → c = none) :
    t.buildVocab c = { t with base := t.base.setTable t.configTable, vocabBuilt := true } := by
  unfold buildVocab configTable
  split_ifs with h1 h2
  · rfl
  · rfl
  · split
    · rename_i column hm
      exact absurd (h ⟨hm, by simpa using h2⟩) (by simp)
    · rfl

theorem buildVocab_of_learn (h : t.WillLearn) (column : Column) :
    t.buildVocab (some column) =
      { t with
        directMap := some (Dict.ofList ((t.dataLabels column).map (fun l => (Value.str l, l))))
        base := t.base.setTable (t.labelTable (t.dataLabels column))
        vocabBuilt := true } := by
  simp only [buildVocab, h.2, h.1, reduceCtorEq, if_false, Bool.false_eq_true]

/-- The label of a cell: nulls and unknown values get the default; with an empty map every
non-null value is its own label. -/
def directLabel (t : MappingTokenizer) (cell : Option Value) : String :=
  if t.hasDirectMap then
    (cell.bind (fun v => (t.directMap.getD Dict.empty).get? (.str v.text))).getD t.default
  else (cell.map Value.text).getD t.default

/-- `_tokenize_direct`. -/
def tokenizeDirect (t : MappingTokenizer) (column : Column) : TokenColumn :=
  column.map (fun cell => some (t.prefixStr ++ "_" ++ t.directLabel cell))

/-- The label of an integer in range mode: the last range that contains it wins. -/
def rangeLabel (t : MappingTokenizer) (i : ℤ) : String :=
  (t.rangeLookup.getD []).foldl
    (fun label r => if r.1 ≤ i ∧ i ≤ r.2.1 then r.2.2 else label) t.default

/-- The token of a cell in range mode; the cast to an integer array rejects nulls. -/
def tokenizeRangeCell (t : MappingTokenizer) : Option Value → Except PyError (Option String)
  | none => .error (.valueError "Column must have no nulls.")
  | some v => do
      let i ← v.toInt
      .ok (some (t.prefixStr ++ "_" ++ t.rangeLabel i))

/-- `_tokenize_range`. -/
def tokenizeRange (t : MappingTokenizer) (column : Column) : Except PyError TokenColumn :=
  column.mapM t.tokenizeRangeCell

def tokenize (t : MappingTokenizer) (column : Column) : Except PyError TokenColumn :=
  if t.mode = .range then t.tokenizeRange column else .ok (t.tokenizeDirect column)

end MappingTokenizer

/-! ### `CategoricalHashTokenizer` -/

/-- Tokens `MERCH_bucket`, the bucket of an integer hash modulo the vocabulary limit. -/
structure CategoricalHashTokenizer where
  base : BaseTokenizer
  vocabLimit : ℤ
  specialToken : String
  stream : Option Stream
  vocabBuilt : Bool
deriving DecidableEq, Repr

namespace CategoricalHashTokenizer

def init (vocabLimit : ℤ) (specialToken : String) (stream : Option Stream) :
    CategoricalHashTokenizer :=
  ⟨.init, vocabLimit, specialToken, stream, false⟩

/-- With a stream the table is zipped together from two series, without one it is a
comprehension over the range. -/
def buildVocab (t : CategoricalHashTokenizer) (_ : Option Column) : CategoricalHashTokenizer :=
  let table :=
    match t.stream with
    | some _ =>
      let idx := intRange 0 t.vocabLimit
      let tokens := List.zipWith (fun s i => s ++ toString i)
        (List.replicate t.vocabLimit.toNat (t.specialToken ++ "_")) idx
      idx.zip tokens
    | none => (intRange 0 t.vocabLimit).map (fun i => (i, t.specialToken ++ "_" ++ toString i))
  { t with base := t.base.setTable table, vocabBuilt := true }

/-- The bucket of a value: its remainder with the sign of the limit; nothing for a remainder by
zero or one that is not an integer. -/
def bucket (t : CategoricalHashTokenizer) : Value → Except PyError (Option ℤ)
  | .int i => .ok (if t.vocabLimit = 0 then none else some (i.fmod t.vocabLimit))
  | .str _ => .error .typeError
  | .float q _ =>
    let r := q - t.vocabLimit * ⌊q / t.vocabLimit⌋
    .ok (if t.vocabLimit = 0 ∨ r.den ≠ 1 then none else some r.num)

/-- The token of a value: that of its bucket. -/
def tokenizeValue (t : CategoricalHashTokenizer) (v : Value) : Except PyError (Option String) := do
  match ← t.bucket v with
  | none => .ok none
  | some i => t.base.lookup i

def tokenize (t : CategoricalHashTokenizer) (column : Column) : Except PyError TokenColumn :=
  mapCells t.tokenizeValue column

end CategoricalHashTokenizer

/-! ### `TimeDeltaTokenizer` -/

/-- Logarithmic bins for time differences in seconds. -/
structure TimeDeltaTokenizer where
  base : BaseTokenizer
  numBins : ℕ
  specialToken : String
  maxYears : ℚ
  stream : Option Stream
  maxHorizon : ℤ
  boundaries : List ℚ
  vocabBuilt : Bool
deriving DecidableEq, Repr

namespace TimeDeltaTokenizer

/-- `_SECONDS_PER_JULIAN_YEAR`. -/
def secondsPerJulianYear : ℚ := 31556951999999996 / 1000000000

/-- `linspace(0, stop, n + 1)`. -/
def linspace (stop : ℚ) (n : ℕ) : List ℚ := (List.range (n + 1)).map (fun (i : ℕ) => stop * i / n)

def init (log : ℚ → ℚ) (numBins : ℕ) (specialToken : String) (maxYears : ℚ)
    (stream : Option Stream) : TimeDeltaTokenizer :=
  let maxHorizon := (maxYears * secondsPerJulianYear).num.tdiv (maxYears * secondsPerJulianYear).den
  ⟨.init, numBins, specialToken, maxYears, stream, maxHorizon,
    linspace (log (maxHorizon + 1)) numBins, false⟩

/-- Both branches on `stream` write the same table. -/
def buildVocab (t : TimeDeltaTokenizer) (_ : Option Column) : TimeDeltaTokenizer :=
  { t with
    base := t.base.setTable
      ((List.range t.numBins).map (fun (i : ℕ) => ((i : ℤ), t.specialToken ++ "_" ++ toString i)))
    vocabBuilt := true }

/-- `digitize`: the number of boundaries that are at most `x`. -/
def digitize (x : ℚ) (boundaries : List ℚ) : ℕ := boundaries.countP (· ≤ x)

/-- The clamped value of a cell. -/
def clamp (t : TimeDeltaTokenizer) : Value → Except PyError ℚ
  | .int i => .ok (max 0 (min (i : ℚ) t.maxHorizon))
  | .str _ => .error .typeError
  | .float q _ => .ok (max 0 (min q t.maxHorizon))

/-- The token of a value: that of the bin of its logarithm. -/
def tokenizeValue (log : ℚ → ℚ) (t : TimeDeltaTokenizer) (v : Value) :
    Except PyError (Option String) := do
  let clamped ← t.clamp v
  t.base.lookup (clip 0 (t.numBins - 1) (digitize (log (clamped + 1)) t.boundaries))

def tokenize (log : ℚ → ℚ) (t : TimeDeltaTokenizer) (column : Column) :
    Except PyError TokenColumn :=
  mapCells (t.tokenizeValue log) column

end TimeDeltaTokenizer

/-! ### Any step -/

/-- A step of the pipeline. -/
inductive Tokenizer where
  | fixedVocab (t : FixedVocabTokenizer)
  | mapping (t : MappingTokenizer)
  | categoricalHash (t : CategoricalHashTokenizer)
  | timeDelta (t : TimeDeltaTokenizer)
deriving DecidableEq, Repr

namespace Tokenizer

def base : Tokenizer → BaseTokenizer
  | fixedVocab t => t.base
  | mapping t => t.base
  | categoricalHash t => t.base
  | timeDelta t => t.base

def stream : Tokenizer → Option Stream
  | fixedVocab t => t.stream
  | mapping t => t.stream
  | categoricalHash t => t.stream
  | timeDelta t => t.stream

/-- `tokenizer.stream = s`. -/
def setStream (s : Option Stream) : Tokenizer → Tokenizer
  | fixedVocab t => fixedVocab { t with stream := s }
  | mapping t => mapping { t with stream := s }
  | categoricalHash t => categoricalHash { t with stream := s }
  | timeDelta t => timeDelta { t with stream := s }

def buildVocab (columnData : Option Column) : Tokenizer → Tokenizer
  | fixedVocab t => fixedVocab (t.buildVocab columnData)
  | mapping t => mapping (t.buildVocab columnData)
  | categoricalHash t => categoricalHash (t.buildVocab columnData)
  | timeDelta t => timeDelta (t.buildVocab columnData)

def tokenize (log : ℚ → ℚ) : Tokenizer → Column → Except PyError TokenColumn
  | fixedVocab t => t.tokenize
  | mapping t => t.tokenize
  | categoricalHash t => t.tokenize
  | timeDelta t => t.tokenize log

/-- The token of one cell. -/
def tokenizeCell (log : ℚ → ℚ) : Tokenizer → Option Value → Except PyError (Option String)
  | fixedVocab t => onCell t.tokenizeValue
  | mapping t =>
    if t.mode = .range then t.tokenizeRangeCell
    else fun cell => .ok (some (t.prefixStr ++ "_" ++ t.directLabel cell))
  | categoricalHash t => onCell t.tokenizeValue
  | timeDelta t => onCell (t.tokenizeValue log)

theorem tokenize_eq_mapM (log : ℚ → ℚ) (t : Tokenizer) (column : Column) :
    t.tokenize log column = column.mapM (t.tokenizeCell log) := by
  cases t with
  | fixedVocab t => rfl
  | categoricalHash t => rfl
  | timeDelta t => rfl
  | mapping t =>
    simp only [tokenize, MappingTokenizer.tokenize, tokenizeCell]
    split_ifs
    · rfl
    · exact (mapM_eq_ok (fun _ _ => rfl)).symm

theorem tokenize_setStream (log : ℚ → ℚ) (t : Tokenizer) (s : Option Stream) (column : Column) :
    (t.setStream s).tokenize log column = t.tokenize log column := by
  cases t <;> rfl

def idxToToken (t : Tokenizer) : Option IdxToToken := t.base.idxToToken

/-- The property `vocab`, without the cache update. -/
def vocab (t : Tokenizer) : Except PyError LocalVocab := t.base.vocab.map Prod.fst

def vocabSize (t : Tokenizer) : ℕ := t.base.vocabSize

/-- The next column the step is built on would be learned. -/
def WillLearn : Tokenizer → Prop
  | mapping t => t.WillLearn
  | _ => False

/-! ### The table of a step -/

/-- Built on any column and any stream, the step gets the plain table `d`. -/
def Builds (t : Tokenizer) (d : Dict ℤ String) : Prop :=
  ∀ s c, ((t.setStream s).buildVocab c).idxToToken = some (.flat d)

/-- The step `t'` is `t` after a build on some column and some stream. -/
def BuiltFrom (t t' : Tokenizer) : Prop :=
  ∃ s c, t' = ((t.setStream s).buildVocab c).setStream t.stream

@[simp] theorem setStream_stream (t : Tokenizer) : t.setStream t.stream = t := by cases t <;> rfl

@[simp] theorem idxToToken_setStream (t : Tokenizer) (s : Option Stream) :
    (t.setStream s).idxToToken = t.idxToToken := by cases t <;> rfl

theorem stream_buildVocab (t : Tokenizer) (c : Option Column) :
    (t.buildVocab c).stream = t.stream := by
  cases t with
  | fixedVocab t => rfl
  | categoricalHash t => rfl
  | timeDelta t => rfl
  | mapping t =>
    show (t.buildVocab c).stream = t.stream
    unfold MappingTokenizer.buildVocab
    split_ifs
    · rfl
    · rfl
    · split <;> rfl

theorem builtFrom_buildVocab (t : Tokenizer) (c : Option Column) : t.BuiltFrom (t.buildVocab c) :=
  ⟨t.stream, c, by rw [setStream_stream, ← stream_buildVocab t c, setStream_stream]⟩

theorem Builds.idxToToken {t t' : Tokenizer} {d : Dict ℤ String} (h : t.Builds d)
    (hb : t.BuiltFrom t') : t'.idxToToken = some (.flat d) := by
  obtain ⟨s, c, rfl⟩ := hb
  rw [idxToToken_setStream, h s]

theorem vocabSize_of_flat {t : Tokenizer} {d : Dict ℤ String} (h : t.idxToToken = some (.flat d)) :
    t.vocabSize = d.size := by
  have hb : t.base.idxToToken = some (.flat d) := h
  simp only [vocabSize, BaseTokenizer.vocabSize, hb]

/-- The table of a step built without data. -/
def table (t : Tokenizer) : Dict ℤ String :=
  match (t.buildVocab none).idxToToken with
  | some (.flat d) => d
  | _ => Dict.empty

end Tokenizer

theorem zip_zipWith_replicate {α β γ : Type} (f : α → β → γ) (a : α) (l : List β) :
    l.zip (List.zipWith f (List.replicate l.length a) l) = l.map (fun i => (i, f a i)) := by
  induction l with
  | nil => rfl
  | cons b l ih => simp [List.replicate_succ, ih]

theorem CategoricalHashTokenizer.base_buildVocab (t : CategoricalHashTokenizer)
    (c : Option Column) :
    (t.buildVocab c).base = t.base.setTable
      ((intRange 0 t.vocabLimit).map (fun i => (i, t.specialToken ++ "_" ++ toString i))) := by
  unfold buildVocab
  cases t.stream with
  | none => rfl
  | some s =>
    have h := zip_zipWith_replicate (fun (s : String) (i : ℤ) => s ++ toString i)
      (t.specialToken ++ "_") (intRange 0 t.vocabLimit)
    rw [length_intRange, Int.sub_zero] at h
    simp only [h]

namespace Tokenizer

variable {t : Tokenizer}

/-- A step that will not learn is the same after every build. -/
theorem BuiltFrom.eq_buildVocab {t' : Tokenizer} (h : ¬ t.WillLearn) (hb : t.BuiltFrom t') :
    t' = t.buildVocab none := by
  obtain ⟨s, c, rfl⟩ := hb
  cases t with
  | fixedVocab t => rfl
  | timeDelta t => rfl
  | categoricalHash t =>
    have h1 := { t with stream := s }.base_buildVocab c
    have h2 := t.base_buildVocab none
    simp only [setStream, buildVocab, stream, CategoricalHashTokenizer.buildVocab] at h1 h2 ⊢
    rw [h1, h2]
  | mapping t =>
    have hs : ¬ { t with stream := s }.WillLearn := h
    simp only [setStream, buildVocab, stream,
      MappingTokenizer.buildVocab_of_not_learn (fun hw => absurd hw hs),
      MappingTokenizer.buildVocab_of_not_learn (fun hw => absurd hw h)]
    rfl

theorem idxToToken_buildVocab_none (t : Tokenizer) :
    (t.buildVocab none).idxToToken = some (.flat t.table) := by
  cases t with
  | fixedVocab t => rfl
  | timeDelta t => rfl
  | categoricalHash t => rfl
  | mapping t =>
    simp only [table, idxToToken, buildVocab, base,
      MappingTokenizer.buildVocab_of_not_learn (fun _ => rfl)]
    rfl

/-- A step that will not learn builds its table from the configuration alone. -/
theorem builds_table (h : ¬ t.WillLearn) : t.Builds t.table := by
  intro s c
  have hb : t.BuiltFrom (((t.setStream s).buildVocab c).setStream t.stream) := ⟨s, c, rfl⟩
  rw [← idxToToken_setStream _ t.stream, hb.eq_buildVocab h, idxToToken_buildVocab_none]

/-- The word before the first underscore of the step's tokens. -/
def prefixStr : Tokenizer → String
  | fixedVocab t => t.prefixStr
  | mapping t => t.prefixStr
  | categoricalHash t => t.specialToken
  | timeDelta t => t.specialToken

theorem table_mapping (t : MappingTokenizer) : (mapping t).table = Dict.ofList t.configTable := by
  simp only [table, idxToToken, buildVocab, base,
    MappingTokenizer.buildVocab_of_not_learn (fun _ => rfl)]
  rfl

theorem mem_configTable {t : MappingTokenizer} {e : ℤ × String} (he : e ∈ t.configTable) :
    ∃ x, e.2 = t.prefixStr ++ "_" ++ x := by
  have hlabel : ∀ labels, e ∈ t.labelTable labels → ∃ x, e.2 = t.prefixStr ++ "_" ++ x := by
    intro labels he
    obtain ⟨p, -, rfl⟩ := List.mem_map.mp he
    exact ⟨p.1, rfl⟩
  unfold MappingTokenizer.configTable at he
  split_ifs at he
  · exact hlabel _ he
  · exact hlabel _ he
  · obtain rfl := List.mem_singleton.mp he
    exact ⟨_, rfl⟩

theorem eq_append_of_mem_table {e : ℤ × String} (he : e ∈ t.table.entries) :
    ∃ x, e.2 = t.prefixStr ++ "_" ++ x := by
  cases t with
  | fixedVocab t =>
    obtain ⟨i, -, rfl⟩ := List.mem_map.mp (Dict.mem_of_mem_entries_ofList he)
    exact ⟨_, rfl⟩
  | timeDelta t =>
    obtain ⟨i, -, rfl⟩ := List.mem_map.mp (Dict.mem_of_mem_entries_ofList he)
    exact ⟨_, rfl⟩
  | categoricalHash t =>
    simp only [table, idxToToken, buildVocab, base, CategoricalHashTokenizer.base_buildVocab] at he
    obtain ⟨i, -, rfl⟩ := List.mem_map.mp (Dict.mem_of_mem_entries_ofList he)
    exact ⟨_, rfl⟩
  | mapping t =>
    rw [table_mapping] at he
    exact mem_configTable (Dict.mem_of_mem_entries_ofList he)

end Tokenizer
end RayTfm.Tfm
