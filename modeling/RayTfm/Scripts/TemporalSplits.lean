import RayTfm.Py
import RayTfm.Lib.Decimal
import RayTfm.Lib.Histogram

/-! # Temporal splits

`create_temporal_splits.py` cuts a raw table into train, val and test by date: one pass over the
batches counts the rows of every day, the cutoffs are the days at which the running total reaches
the two ratios, and a second pass writes every row to its split.

In the terms of the table (`splitOf`): a row goes to train while the rows up to its day are fewer
than the train ratio, to val while they are fewer than the test ratio, and to test from then on.
The days are compared as strings, which for four-digit years is the order of the calendar
(`dateText_lt_iff`). -/

namespace RayTfm.Scripts

/-! ### Rows -/

/-- The splits. -/
inductive Split where
  | train
  | val
  | test
deriving DecidableEq, Repr

/-- The name of a split and of its directory. -/
def Split.name : Split → String
  | .train => "train"
  | .val => "val"
  | .test => "test"

/-- `SPLITS`. -/
def splits : List Split := [.train, .val, .test]

/-- A cell of the column `Time`: text, or a time of day as hour and minute. -/
inductive TimeCell where
  | text (s : Option String)
  | clock (t : Option (ℕ × ℕ))
deriving DecidableEq, Repr

/-- A cell of the column `Is Fraud?`: a boolean, or anything else as its text. -/
inductive FraudCell where
  | bool (b : Option Bool)
  | text (s : Option String)
deriving DecidableEq, Repr

/-- A row of the raw table; `ρ` holds the columns that are only passed on. -/
structure RawRow (ρ : Type) where
  year : ℤ
  month : ℤ
  day : ℤ
  time : TimeCell
  isFraud : FraudCell
  rest : ρ
deriving DecidableEq, Repr

/-- A parquet file: reading it in batches of any size gives its rows in order. -/
structure ParquetFile (ρ : Type) where
  rows : List (RawRow ρ)
  iterBatches : (batchSize : ℕ) → (columns : Option (List String)) → List (List (RawRow ρ))
  flatten_iterBatches : ∀ n columns, 1 ≤ n → (iterBatches n columns).flatten = rows

variable {ρ : Type}

/-- `utf8_lpad(_, w, "0")`. -/
def lpad (w : ℕ) (s : String) : String := String.ofList (s.toList.leftpad w '0')

/-- The date of a row as text. -/
def dateText (r : RawRow ρ) : String :=
  toString r.year ++ "-" ++ lpad 2 (toString r.month) ++ "-" ++ lpad 2 (toString r.day)

/-- `date_array`. -/
def dateArray (table : List (RawRow ρ)) : List String := table.map dateText

/-- `fraud_bool_array` on one row; `upper` is `utf8_upper`. -/
def fraudBool (upper : String → String) (r : RawRow ρ) : Option Bool :=
  match r.isFraud with
  | .bool b => b
  | .text s => s.map (fun s => upper s = "YES" ∨ upper s = "1")

/-- `normalize_output_table` on one row: times as `HH:MM`, booleans as `Yes` and `No`. -/
def normalizeRow (r : RawRow ρ) : RawRow ρ :=
  { r with
    time := match r.time with
      | .clock t => .text (t.map (fun t => String.ofList (zpad 2 t.1 ++ ':' :: zpad 2 t.2)))
      | .text s => .text s
    isFraud := match r.isFraud with
      | .bool b => .text (b.map (fun b => if b then "Yes" else "No"))
      | .text s => .text s }

/-! ### Cutoffs -/

/-- `compute_daily_counts`. -/
def computeDailyCounts (raw : ParquetFile ρ) (batchSize : ℕ) : Dict String ℕ × ℕ :=
  (raw.iterBatches batchSize (some ["Year", "Month", "Day"])).foldl (fun st batch =>
    (valueCounts (dateArray batch)).foldl (fun st e => (addCount st.1 e.1 e.2, st.2 + e.2)) st)
    (Dict.empty, 0)

/-- The loop of `cutoffs_from_counts`; it stops when the test cutoff is found.  The ratios and their
products with the total are floats in the source and exact rationals here. -/
def cutoffLoop (total : ℕ) (trainRatio testRatio : ℚ) :
    ℕ → Option String → List (String × ℕ) → Option String × Option String
  | _, trainCut, [] => (trainCut, none)
  | cumulative, trainCut, (date, count) :: l =>
    let cumulative := cumulative + count
    let trainCut := if trainCut = none ∧ total * trainRatio ≤ cumulative then some date else trainCut
    if total * testRatio ≤ cumulative then (trainCut, some date)
    else cutoffLoop total trainRatio testRatio cumulative trainCut l

/-- `cutoffs_from_counts`. -/
def cutoffsFromCounts (counts : Dict String ℕ) (total : ℕ) (trainRatio testRatio : ℚ) :
    Except PyError (String × String) :=
  match cutoffLoop total trainRatio testRatio 0 none (sortedItems counts) with
  | (some trainCut, some testCut) => .ok (trainCut, testCut)
  | _ => .error (.runtimeError "Could not compute temporal cutoffs from daily counts")

/-! ### Writing -/

/-- The masks of `write_splits` on one date. -/
def inSplit (trainCut testCut : String) (date : String) : Split → Bool
  | .train => date < trainCut
  | .val => trainCut ≤ date ∧ date < testCut
  | .test => testCut ≤ date

/-- A file below a split directory: the run that wrote it, and its rows if it is a parquet file. -/
structure SplitFile (ρ : Type) where
  run : ℕ
  rows : Option (List (RawRow ρ))
deriving DecidableEq, Repr

/-- An entry of a split directory: a file, or a directory with the files below it. -/
inductive Entry (ρ : Type) where
  | file (f : SplitFile ρ)
  | dir (files : List (SplitFile ρ))
deriving DecidableEq, Repr

/-- The entries of a split directory, by name. -/
abbrev SplitDir (ρ : Type) := Dict String (Entry ρ)

/-- The one file a run writes to a split. -/
def partName : String := "part-00000.parquet"

/-- A file cannot be opened where there is a directory. -/
def SplitDir.PartIsDir (d : SplitDir ρ) : Prop := ∃ files, d.get? partName = some (.dir files)

instance (d : SplitDir ρ) : Decidable d.PartIsDir :=
  match h : d.get? partName with
  | some (.dir files) => .isTrue ⟨files, h⟩
  | some (.file f) => .isFalse (by rintro ⟨files, hf⟩; rw [h] at hf; cases hf)
  | none => .isFalse (by rintro ⟨files, hf⟩; rw [h] at hf; cases hf)

/-- Numbers of rows and of fraud rows. -/
structure SplitStats where
  rows : ℕ
  fraud : ℕ
deriving DecidableEq, Repr

/-- What `write_splits` keeps: the rows given to every open writer, and the statistics. -/
structure WriteState (ρ : Type) where
  writers : Split → Option (List (RawRow ρ))
  stats : Split → SplitStats

namespace WriteState

def init : WriteState ρ := ⟨fun _ => none, fun _ => ⟨0, 0⟩⟩

/-- The rows of a split. -/
def rowsOf (st : WriteState ρ) (s : Split) : List (RawRow ρ) := (st.writers s).getD []

end WriteState

/-- `write_table`: a split's file is opened when it gets its first row. -/
def writeTable (dirs : Split → SplitDir ρ) (writers : Split → Option (List (RawRow ρ))) (s : Split)
    (table : List (RawRow ρ)) : Except PyError ((Split → Option (List (RawRow ρ))) × ℕ) :=
  if table.length = 0 then .ok (writers, 0)
  else
    let table := table.map normalizeRow
    match writers s with
    | some rows => .ok (Function.update writers s (some (rows ++ table)), table.length)
    | none =>
      if (dirs s).PartIsDir then .error (.isADirectoryError partName)
      else .ok (Function.update writers s (some table), table.length)

/-- The body of the loops of `write_splits`, for one batch and one split. -/
def writeSplit (upper : String → String) (dirs : Split → SplitDir ρ) (trainCut testCut : String)
    (st : WriteState ρ) (task : List (RawRow ρ) × Split) : Except PyError (WriteState ρ) := do
  let mask := fun r => inSplit trainCut testCut (dateText r) task.2
  let (writers, rows) ← writeTable dirs st.writers task.2 (task.1.filter mask)
  let fraud := task.1.countP (fun r => mask r ∧ fraudBool upper r = some true)
  .ok ⟨writers, Function.update st.stats task.2
    ⟨(st.stats task.2).rows + rows, (st.stats task.2).fraud + fraud⟩⟩

/-- `write_splits`: the state of the writers at the end or at the first exception. -/
def writeSplits (upper : String → String) (raw : ParquetFile ρ) (dirs : Split → SplitDir ρ)
    (trainCut testCut : String) (batchSize : ℕ) : WriteState ρ × Option PyError :=
  runAll (writeSplit upper dirs trainCut testCut)
    ((raw.iterBatches batchSize none).flatMap (fun batch => splits.map (fun s => (batch, s)))) .init

/-! ### Dates compare as in the calendar -/

/-- A four-digit year; month and day of at most two digits. -/
structure RawRow.ValidDate (r : RawRow ρ) : Prop where
  year : 1000 ≤ r.year ∧ r.year ≤ 9999
  month : 0 ≤ r.month ∧ r.month ≤ 99
  day : 0 ≤ r.day ∧ r.day ≤ 99

/-- The date, in the order of the calendar. -/
def RawRow.date (r : RawRow ρ) : ℤ ×ₗ ℤ ×ₗ ℤ := toLex (r.year, toLex (r.month, r.day))

theorem toList_toString {i : ℤ} (h : 0 ≤ i) : (toString i).toList = Nat.toDigits 10 i.toNat := by
  obtain ⟨n, rfl⟩ := Int.eq_ofNat_of_zero_le h
  show (Nat.repr n).toList = _
  rw [Nat.repr_eq_ofList_toDigits, String.toList_ofList, Int.toNat_natCast]

theorem toList_lpad {i : ℤ} (h : 0 ≤ i) : (lpad 2 (toString i)).toList = zpad 2 i.toNat := by
  rw [lpad, String.toList_ofList, toList_toString h]
  rfl

theorem toList_year {i : ℤ} (h : 1000 ≤ i) : (toString i).toList = zpad 4 i.toNat := by
  have hlen : ¬ (Nat.toDigits 10 i.toNat).length ≤ 3 := by
    rw [Nat.length_toDigits_le_iff (by decide) (by decide)]
    omega
  have hpad : 4 - (Nat.toDigits 10 i.toNat).length = 0 := by omega
  rw [toList_toString (by omega), zpad_eq, hpad]
  rfl

theorem toList_dateText {r : RawRow ρ} (h : r.ValidDate) :
    (dateText r).toList = zpad 4 r.year.toNat ++ ('-' :: (zpad 2 r.month.toNat ++
      ('-' :: zpad 2 r.day.toNat))) := by
  simp only [dateText, String.toList_append, toList_year h.year.1, toList_lpad h.month.1,
    toList_lpad h.day.1, List.append_assoc]
  rfl

theorem dateText_lt_iff {r r' : RawRow ρ} (h : r.ValidDate) (h' : r'.ValidDate) :
    dateText r < dateText r' ↔ r.date < r'.date := by
  obtain ⟨hy, hm, hd⟩ := h
  obtain ⟨hy', hm', hd'⟩ := h'
  have hyear : zpad 4 r.year.toNat < zpad 4 r'.year.toNat ↔ r.year < r'.year := by
    rw [zpad_lt_iff (by decide) (by omega) (by omega)]
    omega
  have hmonth : zpad 2 r.month.toNat < zpad 2 r'.month.toNat ↔ r.month < r'.month := by
    rw [zpad_lt_iff (by decide) (by omega) (by omega)]
    omega
  have hday : zpad 2 r.day.toNat < zpad 2 r'.day.toNat ↔ r.day < r'.day := by
    rw [zpad_lt_iff (by decide) (by omega) (by omega)]
    omega
  have hyear' : zpad 4 r.year.toNat = zpad 4 r'.year.toNat ↔ r.year = r'.year := by
    rw [(zpad_injective 4).eq_iff]
    omega
  have hmonth' : zpad 2 r.month.toNat = zpad 2 r'.month.toNat ↔ r.month = r'.month := by
    rw [(zpad_injective 2).eq_iff]
    omega
  rw [String.lt_iff_toList_lt, toList_dateText ⟨hy, hm, hd⟩, toList_dateText ⟨hy', hm', hd'⟩,
    append_lt_append_iff _ _ (by
      rw [length_zpad (by decide) (by omega), length_zpad (by decide) (by omega)]),
    List.cons_lt_cons_iff, append_lt_append_iff _ _ (by
      rw [length_zpad (by decide) (by omega), length_zpad (by decide) (by omega)]),
    List.cons_lt_cons_iff, hyear, hyear', hmonth, hmonth', hday]
  simp only [RawRow.date, Prod.Lex.toLex_lt_toLex, lt_irrefl, false_or, true_and]

/-! ### The cutoffs -/

theorem foldl_counts (l : List (String × ℕ)) (st : Dict String ℕ × ℕ) :
    l.foldl (fun st e => (addCount st.1 e.1 e.2, st.2 + e.2)) st =
      (l.foldl (fun c e => addCount c e.1 e.2) st.1, st.2 + (l.map Prod.snd).sum) := by
  induction l generalizing st with
  | nil => rfl
  | cons e l ih =>
    rw [List.foldl_cons, ih, List.foldl_cons, List.map_cons, List.sum_cons]
    simp only [Nat.add_assoc]

/-- The daily counts are the histogram of the dates, whatever the batches. -/
theorem computeDailyCounts_spec (raw : ParquetFile ρ) {batchSize : ℕ} (hb : 1 ≤ batchSize) :
    IsHistogram (computeDailyCounts raw batchSize).1 (dateArray raw.rows) ∧
      (computeDailyCounts raw batchSize).2 = raw.rows.length := by
  have hloop : ∀ (batches : List (List (RawRow ρ))) (st : Dict String ℕ × ℕ)
      (seen : List (RawRow ρ)), IsHistogram st.1 (dateArray seen) → st.2 = seen.length →
      let st' := batches.foldl (fun st batch => (valueCounts (dateArray batch)).foldl
        (fun st e => (addCount st.1 e.1 e.2, st.2 + e.2)) st) st
      IsHistogram st'.1 (dateArray (seen ++ batches.flatten)) ∧
        st'.2 = (seen ++ batches.flatten).length := by
    intro batches
    induction batches with
    | nil =>
      intro st seen hst hlen
      rw [List.flatten_nil, List.append_nil]
      exact ⟨hst, hlen⟩
    | cons batch batches ih =>
      intro st seen hst hlen
      rw [List.foldl_cons, List.flatten_cons, ← List.append_assoc]
      apply ih
      · rw [foldl_counts,
          show dateArray (seen ++ batch) = dateArray seen ++ dateArray batch from List.map_append]
        exact isHistogram_add hst _
      · rw [foldl_counts, sum_valueCounts, dateArray, List.length_map, List.length_append]
        omega
  have h := hloop (raw.iterBatches batchSize (some ["Year", "Month", "Day"])) (Dict.empty, 0) []
    isHistogram_empty rfl
  rw [raw.flatten_iterBatches _ _ hb, List.nil_append] at h
  exact h

theorem cutoffLoop_some (total : ℕ) (a b : ℚ) (date : String) (cumulative : ℕ)
    (l : List (String × ℕ)) :
    cutoffLoop total a b cumulative (some date) l =
      (some date, firstReaching (total * b) cumulative l) := by
  induction l generalizing cumulative with
  | nil => rfl
  | cons e l ih =>
    rw [cutoffLoop, firstReaching]
    simp only [reduceCtorEq, false_and, if_false, ih]
    split_ifs <;> rfl

variable {a b : ℚ}

theorem cutoffLoop_none {total : ℕ} (hab : a ≤ b) (cumulative : ℕ) (l : List (String × ℕ)) :
    cutoffLoop total a b cumulative none l =
      (firstReaching (total * a) cumulative l, firstReaching (total * b) cumulative l) := by
  have hthreshold : (total : ℚ) * a ≤ total * b := by gcongr
  induction l generalizing cumulative with
  | nil => rfl
  | cons e l ih =>
    rw [cutoffLoop, firstReaching, firstReaching]
    simp only [true_and]
    by_cases ha : (total : ℚ) * a ≤ ((cumulative + e.2 : ℕ) : ℚ)
    · simp only [if_pos ha, cutoffLoop_some]
      split_ifs <;> rfl
    · have hb : ¬ (total : ℚ) * b ≤ ((cumulative + e.2 : ℕ) : ℚ) := fun hb =>
        ha (hthreshold.trans hb)
      simp only [if_neg ha, if_neg hb, ih]

/-- The number of rows before and up to a date. -/
def rowsBefore (rows : List (RawRow ρ)) (date : String) : ℕ := rows.countP (fun r => dateText r < date)

def rowsUpTo (rows : List (RawRow ρ)) (date : String) : ℕ := rows.countP (fun r => dateText r ≤ date)

/-- A day at which the threshold is passed. -/
def IsCutoff (rows : List (RawRow ρ)) (t : ℚ) (date : String) : Prop :=
  (rowsBefore rows date : ℚ) < t ∧ t ≤ rowsUpTo rows date

variable {rows : List (RawRow ρ)}

theorem cutoffsFromCounts_spec {counts : Dict String ℕ}
    (h : IsHistogram counts (dateArray rows)) (hne : rows ≠ []) (ha : 0 < a) (hab : a < b)
    (hb : b < 1) :
    ∃ trainCut testCut, cutoffsFromCounts counts rows.length a b = .ok (trainCut, testCut) ∧
      IsCutoff rows (rows.length * a) trainCut ∧ IsCutoff rows (rows.length * b) testCut := by
  have hpos : (0 : ℚ) < rows.length := by
    exact_mod_cast List.length_pos_of_ne_nil hne
  have hcut : ∀ r : ℚ, 0 < r → r < 1 → ∃ date,
      firstReaching (rows.length * r) 0 (sortedItems counts) = some date ∧
        IsCutoff rows (rows.length * r) date := by
    intro r hr hr1
    have hlow : ((0 : ℕ) : ℚ) < rows.length * r := by
      rw [Nat.cast_zero]
      exact mul_pos hpos hr
    have hhigh : (rows.length : ℚ) * r ≤ (dateArray rows).length := by
      rw [dateArray, List.length_map]
      nlinarith
    obtain ⟨date, -, hfirst, hspec⟩ :=
      (countedBelow_sortedItems h).firstReaching_spec hlow hhigh
    rw [dateArray, List.countP_map, List.countP_map] at hspec
    exact ⟨date, hfirst, hspec⟩
  obtain ⟨trainCut, htrain, htrainCut⟩ := hcut a ha (hab.trans hb)
  obtain ⟨testCut, htest, htestCut⟩ := hcut b (ha.trans hab) hb
  refine ⟨trainCut, testCut, ?_, htrainCut, htestCut⟩
  rw [cutoffsFromCounts, cutoffLoop_none hab.le, htrain, htest]

/-! ### The split of a row -/

/-- The split of a row, by the number of rows up to its date. -/
def splitOf (rows : List (RawRow ρ)) (trainRatio testRatio : ℚ) (r : RawRow ρ) : Split :=
  if (rowsUpTo rows (dateText r) : ℚ) < rows.length * trainRatio then .train
  else if (rowsUpTo rows (dateText r) : ℚ) < rows.length * testRatio then .val
  else .test

/-- The rows before a cutoff are those whose running total has not reached the threshold. -/
theorem IsCutoff.lt_iff {t : ℚ} {date : String} (h : IsCutoff rows t date)
    (d : String) : (rowsUpTo rows d : ℚ) < t ↔ d < date := by
  constructor
  · intro hlt
    by_contra hle
    have hmono : rowsUpTo rows date ≤ rowsUpTo rows d := by
      refine List.countP_mono_left (fun r _ hr => ?_)
      simp only [decide_eq_true_eq] at hr ⊢
      exact hr.trans (not_lt.mp hle)
    have hcast : (rowsUpTo rows date : ℚ) ≤ rowsUpTo rows d := by exact_mod_cast hmono
    exact absurd (h.2.trans hcast) hlt.not_ge
  · intro hlt
    have hmono : rowsUpTo rows d ≤ rowsBefore rows date := by
      refine List.countP_mono_left (fun r _ hr => ?_)
      simp only [decide_eq_true_eq] at hr ⊢
      exact hr.trans_lt hlt
    have hcast : (rowsUpTo rows d : ℚ) ≤ rowsBefore rows date := by exact_mod_cast hmono
    exact hcast.trans_lt h.1

theorem IsCutoff.mono {t t' : ℚ} {date date' : String}
    (h : IsCutoff rows t date) (h' : IsCutoff rows t' date') (ht : t ≤ t') : date ≤ date' := by
  by_contra hlt
  have hlow := (h.lt_iff date').mpr (not_le.mp hlt)
  exact absurd (ht.trans h'.2) hlow.not_ge

theorem inSplit_iff (hab : a ≤ b) {trainCut testCut : String}
    (htrain : IsCutoff rows (rows.length * a) trainCut)
    (htest : IsCutoff rows (rows.length * b) testCut) (r : RawRow ρ) (s : Split) :
    inSplit trainCut testCut (dateText r) s = true ↔ splitOf rows a b r = s := by
  have hcut : trainCut ≤ testCut := htrain.mono htest (by gcongr)
  simp only [splitOf, htrain.lt_iff, htest.lt_iff]
  by_cases h1 : dateText r < trainCut
  · have h2 : dateText r < testCut := h1.trans_le hcut
    cases s <;> simp [inSplit, h1, h2, h1.not_ge, h2.not_ge]
  · by_cases h2 : dateText r < testCut
    · cases s <;> simp [inSplit, h1, h2, not_lt.mp h1, h2.not_ge]
    · cases s <;> simp [inSplit, h1, h2, not_lt.mp h2]

/-! ### Writing all rows -/

/-- The rows that some tasks give to a split. -/
def rowsOfTasks (mask : RawRow ρ → Split → Bool) (tasks : List (List (RawRow ρ) × Split))
    (s : Split) : List (RawRow ρ) :=
  (tasks.filter (fun t => t.2 = s)).flatMap
    (fun t => (t.1.filter (fun r => mask r t.2)).map normalizeRow)

theorem rowsOfTasks_append (mask : RawRow ρ → Split → Bool)
    (tasks : List (List (RawRow ρ) × Split)) (task : List (RawRow ρ) × Split) (s : Split) :
    rowsOfTasks mask (tasks ++ [task]) s = rowsOfTasks mask tasks s ++
      if task.2 = s then (task.1.filter (fun r => mask r task.2)).map normalizeRow else [] := by
  unfold rowsOfTasks
  rw [List.filter_append, List.flatMap_append]
  split_ifs with h <;> simp [h]

/-- The state after some tasks: every split has its rows, and a file if it has any. -/
structure Written (dirs : Split → SplitDir ρ) (mask : RawRow ρ → Split → Bool)
    (tasks : List (List (RawRow ρ) × Split)) (st : WriteState ρ) : Prop where
  rows : ∀ s, st.rowsOf s = rowsOfTasks mask tasks s
  opened : ∀ s, st.writers s = none ↔ st.rowsOf s = []
  stats : ∀ s, (st.stats s).rows = (st.rowsOf s).length
  writable : ∀ s, st.writers s ≠ none → ¬ (dirs s).PartIsDir

theorem written_init (dirs : Split → SplitDir ρ) (mask : RawRow ρ → Split → Bool) :
    Written dirs mask [] .init :=
  ⟨fun _ => rfl, fun _ => ⟨fun _ => rfl, fun _ => rfl⟩, fun _ => rfl, fun _ h => absurd rfl h⟩

section tasks

variable {upper : String → String} {dirs : Split → SplitDir ρ} {trainCut testCut : String}
variable {writers : Split → Option (List (RawRow ρ))} {table : List (RawRow ρ)}

theorem writeTable_eq_ok {writers' : Split → Option (List (RawRow ρ))} {s : Split}
    {n : ℕ} (h : writeTable dirs writers s table = .ok (writers', n)) :
    n = table.length ∧
      ((table = [] ∧ writers' = writers) ∨
        (table ≠ [] ∧ (writers s = none → ¬ (dirs s).PartIsDir) ∧
          writers' = Function.update writers s
            (some ((writers s).getD [] ++ table.map normalizeRow)))) := by
  unfold writeTable at h
  by_cases h0 : table.length = 0
  · rw [if_pos h0] at h
    cases h
    exact ⟨h0.symm, .inl ⟨List.length_eq_zero_iff.mp h0, rfl⟩⟩
  · have hne : table ≠ [] := fun he => h0 (by rw [he]; rfl)
    rw [if_neg h0] at h
    cases hw : writers s with
    | some rows =>
      simp only [hw] at h
      cases h
      exact ⟨List.length_map .., .inr ⟨hne, nofun, rfl⟩⟩
    | none =>
      simp only [hw] at h
      split_ifs at h with hdir
      cases h
      exact ⟨List.length_map .., .inr ⟨hne, fun _ => hdir, rfl⟩⟩

theorem writeTable_eq_error {s : Split}
    {e : PyError} (h : writeTable dirs writers s table = .error e) :
    e = .isADirectoryError partName ∧ (dirs s).PartIsDir ∧ table ≠ [] := by
  unfold writeTable at h
  by_cases h0 : table.length = 0
  · rw [if_pos h0] at h
    cases h
  rw [if_neg h0] at h
  have hne : table ≠ [] := fun he => h0 (by rw [he]; rfl)
  cases hw : writers s with
  | some rows =>
    simp only [hw] at h
    cases h
  | none =>
    simp only [hw] at h
    split_ifs at h with hdir
    cases h
    exact ⟨rfl, hdir, hne⟩

variable {task : List (RawRow ρ) × Split}

theorem writeSplit_eq_error {st : WriteState ρ} {e : PyError}
    (h : writeSplit upper dirs trainCut testCut st task = .error e) :
    e = .isADirectoryError partName ∧ (dirs task.2).PartIsDir ∧
      ∃ r ∈ task.1, inSplit trainCut testCut (dateText r) task.2 = true := by
  obtain ht | ⟨_, -, hok⟩ := bind_eq_error.mp h
  · obtain ⟨he, hdir, hne⟩ := writeTable_eq_error ht
    obtain ⟨r, hr⟩ := List.exists_mem_of_ne_nil _ hne
    obtain ⟨hr, hmask⟩ := List.mem_filter.mp hr
    exact ⟨he, hdir, r, hr, hmask⟩
  · cases hok

theorem Written.step {done : List (List (RawRow ρ) × Split)} {st st' : WriteState ρ}
    (h : Written dirs (fun r => inSplit trainCut testCut (dateText r)) done st)
    (hw : writeSplit upper dirs trainCut testCut st task = .ok st') :
    Written dirs (fun r => inSplit trainCut testCut (dateText r)) (done ++ [task]) st' := by
  obtain ⟨batch, s⟩ := task
  obtain ⟨⟨writers, n⟩, htable, hst⟩ := bind_eq_ok.mp hw
  cases hst
  obtain ⟨rfl, hcases⟩ := writeTable_eq_ok htable
  let new := (batch.filter (fun r => inSplit trainCut testCut (dateText r) s)).map normalizeRow
  have hrows : ∀ s', (writers s').getD [] =
      (st.writers s').getD [] ++ if s = s' then new else [] := by
    intro s'
    obtain ⟨hnil, rfl⟩ | ⟨-, -, rfl⟩ := hcases
    · simp only [new, hnil, List.map_nil, ite_self, List.append_nil]
    · by_cases hs : s = s'
      · subst hs
        simp [new]
      · rw [Function.update_of_ne (Ne.symm hs)]
        simp [hs]
  have hopen : ∀ s', writers s' = none ↔ (writers s').getD [] = [] := by
    intro s'
    obtain ⟨-, rfl⟩ | ⟨hne, -, rfl⟩ := hcases
    · exact h.opened s'
    · by_cases hs : s = s'
      · subst hs
        simp [hne]
      · rw [Function.update_of_ne (Ne.symm hs)]
        exact h.opened s'
  refine ⟨fun s' => ?_, hopen, fun s' => ?_, fun s' hs' => ?_⟩
  · rw [rowsOfTasks_append, ← h.rows s']
    exact hrows s'
  · have hlen := congrArg List.length (hrows s')
    have hold : (st.stats s').rows = ((st.writers s').getD []).length := h.stats s'
    show (Function.update st.stats s _ s').rows = ((writers s').getD []).length
    rw [hlen, List.length_append, ← hold]
    by_cases hs : s = s'
    · subst hs
      simp [new]
    · rw [Function.update_of_ne (Ne.symm hs)]
      simp [hs]
  · obtain ⟨-, rfl⟩ | ⟨-, hdir, rfl⟩ := hcases
    · exact h.writable s' hs'
    · by_cases hs : s = s'
      · subst hs
        by_cases hnone : st.writers s = none
        · exact hdir hnone
        · exact h.writable s hnone
      · simp only [Function.update_of_ne (Ne.symm hs)] at hs'
        exact h.writable s' hs'

end tasks

/-- The tasks of all batches give a split the rows that its mask selects, in order. -/
theorem rowsOfTasks_batches (mask : RawRow ρ → Split → Bool) (batches : List (List (RawRow ρ)))
    (s : Split) :
    rowsOfTasks mask (batches.flatMap (fun batch => splits.map (fun s => (batch, s)))) s =
      (batches.flatten.filter (fun r => mask r s)).map normalizeRow := by
  induction batches with
  | nil => rfl
  | cons batch batches ih =>
    unfold rowsOfTasks at ih ⊢
    rw [List.flatMap_cons, List.filter_append, List.flatMap_append, ih, List.flatten_cons,
      List.filter_append, List.map_append]
    congr 1
    cases s <;> simp [splits]

/-- The parts of a table that is split by time. -/
structure IsTemporalSplit (rows : List (RawRow ρ)) (trainRatio testRatio : ℚ)
    (trainCut testCut : String) (parts : Split → List (RawRow ρ)) : Prop where
  /-- Every row is in exactly one part, in the order of the table. -/
  parts_eq : ∀ s, parts s =
    (rows.filter (fun r => splitOf rows trainRatio testRatio r = s)).map normalizeRow
  total : (splits.map (fun s => (parts s).length)).sum = rows.length
  train_val : ∀ x ∈ parts .train, ∀ y ∈ parts .val, x.date < y.date
  val_test : ∀ x ∈ parts .val, ∀ y ∈ parts .test, x.date < y.date
  train_test : ∀ x ∈ parts .train, ∀ y ∈ parts .test, x.date < y.date
  train_lt : ((parts .train).length : ℚ) < trainRatio * rows.length
  le_train : trainRatio * rows.length ≤
    (parts .train).length + rows.countP (fun r => dateText r = trainCut)
  val_lt : ((parts .train).length + (parts .val).length : ℚ) < testRatio * rows.length
  le_val : testRatio * rows.length ≤ (parts .train).length + (parts .val).length +
    rows.countP (fun r => dateText r = testCut)

theorem rowsUpTo_eq (rows : List (RawRow ρ)) (date : String) :
    rowsUpTo rows date = rowsBefore rows date + rows.countP (fun r => dateText r = date) := by
  have h := countP_le_eq (dateArray rows) date
  rw [dateArray, List.countP_map, List.countP_map, List.count, List.countP_map] at h
  refine h.trans (congrArg _ (List.countP_congr (fun r _ => ?_)))
  simp

theorem sum_length_splits (f : RawRow ρ → Split) (rows : List (RawRow ρ)) :
    (splits.map (fun s => ((rows.filter (fun r => f r = s)).map normalizeRow).length)).sum =
      rows.length := by
  induction rows with
  | nil => rfl
  | cons r rows ih =>
    simp only [splits, List.map_cons, List.map_nil, List.sum_cons, List.sum_nil, List.length_map,
      List.filter_cons, List.length_cons] at ih ⊢
    cases h : f r <;> simp <;> omega

theorem isTemporalSplit_of_cutoffs (hab : a ≤ b)
    {trainCut testCut : String} (htrain : IsCutoff rows (rows.length * a) trainCut)
    (htest : IsCutoff rows (rows.length * b) testCut) (hdates : ∀ r ∈ rows, r.ValidDate)
    {parts : Split → List (RawRow ρ)} (hparts : ∀ s, parts s =
      (rows.filter (fun r => inSplit trainCut testCut (dateText r) s)).map normalizeRow) :
    IsTemporalSplit rows a b trainCut testCut parts := by
  have hcut : trainCut ≤ testCut := htrain.mono htest (by gcongr)
  have hsplit : ∀ s, parts s =
      (rows.filter (fun r => splitOf rows a b r = s)).map normalizeRow := by
    intro s
    rw [hparts s]
    congr 1
    refine List.filter_congr (fun r _ => ?_)
    rw [Bool.eq_iff_iff, decide_eq_true_iff]
    exact inSplit_iff hab htrain htest r s
  -- the cutoffs separate the dates of the parts
  have hmem : ∀ s, ∀ x ∈ parts s, ∃ r ∈ rows, x.date = r.date ∧
      inSplit trainCut testCut (dateText r) s = true := by
    intro s x hx
    rw [hparts s] at hx
    obtain ⟨r, hr, rfl⟩ := List.mem_map.mp hx
    obtain ⟨hr, hmask⟩ := List.mem_filter.mp hr
    exact ⟨r, hr, rfl, hmask⟩
  have hbefore : ∀ s s', (∀ d d', inSplit trainCut testCut d s = true →
      inSplit trainCut testCut d' s' = true → d < d') →
      ∀ x ∈ parts s, ∀ y ∈ parts s', x.date < y.date := by
    intro s s' hlt x hx y hy
    obtain ⟨r, hr, hxr, hmask⟩ := hmem s x hx
    obtain ⟨r', hr', hyr, hmask'⟩ := hmem s' y hy
    rw [hxr, hyr, ← dateText_lt_iff (hdates r hr) (hdates r' hr')]
    exact hlt _ _ hmask hmask'
  -- the sizes of the parts are the numbers of rows before the cutoffs
  have hlen : (parts .train).length = rowsBefore rows trainCut := by
    rw [hparts, List.length_map, ← List.countP_eq_length_filter]
    rfl
  have hlen' : (parts .train).length + (parts .val).length = rowsBefore rows testCut := by
    rw [hparts, hparts, List.length_map, List.length_map, ← List.countP_eq_length_filter,
      ← List.countP_eq_length_filter, rowsBefore]
    clear hmem hbefore hlen hsplit hparts hdates htrain htest
    induction rows with
    | nil => rfl
    | cons r rows ih =>
      simp only [List.countP_cons, inSplit, decide_eq_true_eq] at ih ⊢
      by_cases h1 : dateText r < trainCut
      · have h2 := h1.trans_le hcut
        simp only [h1, h2, h1.not_ge, if_true, if_false, false_and]
        omega
      · by_cases h2 : dateText r < testCut
        · simp only [h1, h2, not_lt.mp h1, if_true, if_false, and_self]
          omega
        · simp only [h1, h2, if_false, and_false]
          omega
  refine ⟨hsplit, ?_, ?_, ?_, ?_, ?_, ?_, ?_, ?_⟩
  · simp only [hsplit]
    exact sum_length_splits _ rows
  · refine hbefore _ _ (fun d d' hd hd' => ?_)
    simp only [inSplit, decide_eq_true_eq] at hd hd'
    exact hd.trans_le hd'.1
  · refine hbefore _ _ (fun d d' hd hd' => ?_)
    simp only [inSplit, decide_eq_true_eq] at hd hd'
    exact hd.2.trans_le hd'
  · refine hbefore _ _ (fun d d' hd hd' => ?_)
    simp only [inSplit, decide_eq_true_eq] at hd hd'
    exact hd.trans_le (hcut.trans hd')
  · rw [hlen, mul_comm]
    exact htrain.1
  · have h := htrain.2
    rw [rowsUpTo_eq, Nat.cast_add, ← hlen] at h
    rwa [mul_comm]
  · have h := htest.1
    rw [← hlen', Nat.cast_add] at h
    rwa [mul_comm]
  · have h := htest.2
    rw [rowsUpTo_eq, Nat.cast_add, ← hlen', Nat.cast_add] at h
    rwa [mul_comm]

/-- `write_splits` writes all rows, or stops at a split that gets rows and whose file cannot be
opened. -/
theorem writeSplits_spec (upper : String → String) (raw : ParquetFile ρ) (dirs : Split → SplitDir ρ)
    (trainCut testCut : String) {batchSize : ℕ} (hb : 1 ≤ batchSize) :
    let mask := fun (r : RawRow ρ) => inSplit trainCut testCut (dateText r)
    let out := writeSplits upper raw dirs trainCut testCut batchSize
    (out.2 = none ∧ (∀ s, out.1.rowsOf s = (raw.rows.filter (fun r => mask r s)).map normalizeRow) ∧
        (∀ s, out.1.writers s = none ↔ out.1.rowsOf s = []) ∧
        (∀ s, (out.1.stats s).rows = (out.1.rowsOf s).length) ∧
        (∀ s, out.1.writers s ≠ none → ¬ (dirs s).PartIsDir)) ∨
      (out.2 = some (.isADirectoryError partName) ∧
        ∃ s, (dirs s).PartIsDir ∧ ∃ r ∈ raw.rows, mask r s = true) := by
  intro mask out
  obtain ⟨hnone, hw⟩ | ⟨done, ⟨batch, s⟩, rest, e, htasks, he, hw, herr⟩ :=
    runAll_spec (l := (raw.iterBatches batchSize none).flatMap
      (fun batch => splits.map (fun s => (batch, s)))) (fun done st b st' h hb => Written.step h hb)
      (written_init dirs mask)
  · refine .inl ⟨hnone, fun s => ?_, hw.opened, hw.stats, hw.writable⟩
    rw [← raw.flatten_iterBatches batchSize none hb, ← rowsOfTasks_batches]
    exact hw.rows s
  · obtain ⟨rfl, hdir, r, hr, hmask⟩ := writeSplit_eq_error herr
    refine .inr ⟨he, s, hdir, r, ?_, hmask⟩
    have hbatch : (batch, s) ∈ (raw.iterBatches batchSize none).flatMap
        (fun batch => splits.map (fun s => (batch, s))) := by
      rw [htasks]
      simp
    obtain ⟨batch', hb', hmem⟩ := List.mem_flatMap.mp hbatch
    obtain ⟨s', -, hpair⟩ := List.mem_map.mp hmem
    cases hpair
    rw [← raw.flatten_iterBatches batchSize none hb]
    exact List.mem_flatten.mpr ⟨batch, hb', hr⟩

/-- For every table with at least one row, every batch size and all ratios, the cutoffs exist, and
wherever the three files can be opened, the splits written with them are the parts of the table by
time. -/
theorem writeSplits_isTemporalSplit (upper : String → String) (raw : ParquetFile ρ)
    {batchSize : ℕ} (hb : 1 ≤ batchSize) (hdates : ∀ r ∈ raw.rows, r.ValidDate)
    (hne : raw.rows ≠ []) {a b : ℚ} (ha : 0 < a) (hab : a < b) (hb1 : b < 1) :
    ∃ trainCut testCut,
      (computeDailyCounts raw batchSize).2 = raw.rows.length ∧
      cutoffsFromCounts (computeDailyCounts raw batchSize).1 (computeDailyCounts raw batchSize).2
        a b = .ok (trainCut, testCut) ∧
      trainCut ≤ testCut ∧
      ∀ dirs : Split → SplitDir ρ, (∀ s, ¬ (dirs s).PartIsDir) →
        ∃ st, writeSplits upper raw dirs trainCut testCut batchSize = (st, none) ∧
          (∀ s, (st.stats s).rows = (st.rowsOf s).length) ∧
          IsTemporalSplit raw.rows a b trainCut testCut st.rowsOf := by
  obtain ⟨hcounts, htotal⟩ := computeDailyCounts_spec raw hb
  obtain ⟨trainCut, testCut, hcut, htrain, htest⟩ :=
    cutoffsFromCounts_spec hcounts hne ha hab hb1
  refine ⟨trainCut, testCut, htotal, htotal ▸ hcut, htrain.mono htest (by gcongr),
    fun dirs hdirs => ?_⟩
  obtain ⟨hnone, hrows, -, hstats, -⟩ | ⟨-, s, hdir, -⟩ :=
    writeSplits_spec upper raw dirs trainCut testCut hb
  · exact ⟨_, Prod.ext rfl hnone, hstats,
      isTemporalSplit_of_cutoffs hab.le htrain htest hdates hrows⟩
  · exact absurd hdir (hdirs s)

/-- A table in memory, read in chunks. -/
def ParquetFile.ofRows (rows : List (RawRow ρ)) : ParquetFile ρ where
  rows := rows
  iterBatches n _ := chunks n rows
  flatten_iterBatches _ _ hn := flatten_chunks hn rows

/-- A row with a date and nothing else of interest. -/
def dayRow (year month day : ℤ) : RawRow Unit :=
  ⟨year, month, day, .text (some "10:15"), .bool (some false), ()⟩

/-- Three rows on two days in batches of two, with the default ratios. -/
theorem writeSplits_isTemporalSplit_example :
    ∃ trainCut testCut st,
      cutoffsFromCounts
        (computeDailyCounts (.ofRows [dayRow 2019 10 1, dayRow 2019 9 30, dayRow 2019 9 30]) 2).1
        (computeDailyCounts (.ofRows [dayRow 2019 10 1, dayRow 2019 9 30, dayRow 2019 9 30]) 2).2
        (8 / 10) (9 / 10) = .ok (trainCut, testCut) ∧
      writeSplits id (.ofRows [dayRow 2019 10 1, dayRow 2019 9 30, dayRow 2019 9 30])
        (fun _ => Dict.empty) trainCut testCut 2 = (st, none) ∧
      IsTemporalSplit [dayRow 2019 10 1, dayRow 2019 9 30, dayRow 2019 9 30] (8 / 10) (9 / 10)
        trainCut testCut st.rowsOf := by
  have hdates : ∀ r ∈ [dayRow 2019 10 1, dayRow 2019 9 30, dayRow 2019 9 30], r.ValidDate := by
    simp only [List.mem_cons, List.not_mem_nil, or_false, forall_eq_or_imp, forall_eq, dayRow]
    refine ⟨⟨?_, ?_, ?_⟩, ⟨?_, ?_, ?_⟩, ⟨?_, ?_, ?_⟩⟩ <;> decide
  have hdirs : ∀ _ : Split, ¬ SplitDir.PartIsDir (Dict.empty : SplitDir Unit) := by
    rintro s ⟨files, h⟩
    cases h
  obtain ⟨trainCut, testCut, -, hcut, -, hwrites⟩ :=
    writeSplits_isTemporalSplit id
      (.ofRows [dayRow 2019 10 1, dayRow 2019 9 30, dayRow 2019 9 30]) (by decide : 1 ≤ 2)
      hdates (by simp [ParquetFile.ofRows]) (a := 8 / 10) (b := 9 / 10) (by norm_num) (by norm_num)
      (by norm_num)
  obtain ⟨st, hwrite, -, hsplit⟩ := hwrites _ hdirs
  exact ⟨trainCut, testCut, st, hcut, hwrite, hsplit⟩

end RayTfm.Scripts
