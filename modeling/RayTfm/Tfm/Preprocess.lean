import RayTfm.Lib.Sorting
import RayTfm.Tfm.Financial
import RayTfm.Tfm.Tokens

/-! # Preprocessing

`FinancialTokenizerPipeline.preprocess` turns raw transactions into the columns the steps read,
and sorts them by user, card and time.  What it takes from cuDF is a parameter: parsing floats and
dates, upper-casing, hashing, and the order `sort_values` puts the rows in, of which only
`sortOrder_perm` and `sortOrder_sorted` are known (it need not be stable).

Two columns are overwritten in place: `month` by the month of the parsed date, and `card` by the
card clipped to `0..9`.  `gatheredRows` names the raw transaction every processed row comes from
(`preprocess_eq`). -/

namespace RayTfm.Tfm

/-- A raw transaction, in the columns of the table that `preprocess` reads; nulls where it
provides for them. -/
structure RawTransaction where
  user : ℤ
  card : ℤ
  year : ℤ
  month : ℤ
  day : ℤ
  time : Option String
  amount : String
  useChip : Option String
  merchantName : String
  merchantState : Option String
  zip : Option String
  mcc : Option ℤ
  isFraud : String
deriving DecidableEq, Repr

/-- A time, in nanoseconds since the epoch. -/
abbrev Timestamp := ℤ

/-- The lexicographic order of user, card and time. -/
def RowLE (a b : ℤ × ℤ × Timestamp) : Prop :=
  a.1 < b.1 ∨ (a.1 = b.1 ∧ (a.2.1 < b.2.1 ∨ (a.2.1 = b.2.1 ∧ a.2.2 ≤ b.2.2)))

instance : DecidableRel RowLE := fun _ _ => inferInstanceAs (Decidable (_ ∨ _))

/-- What `preprocess` uses of cuDF. -/
structure Cudf where
  /-- `astype(float)` on a string. -/
  toFloat : String → Except PyError ℚ
  /-- `str.upper()`. -/
  upper : String → String
  /-- `hash_values()`. -/
  hashValues : String → ℤ
  /-- `to_datetime(_, format="%Y-%m-%d %H:%M")`. -/
  toDatetime : String → Except PyError Timestamp
  /-- `dt.hour`. -/
  hour : Timestamp → ℤ
  /-- `dt.dayofweek`. -/
  dayofweek : Timestamp → ℤ
  /-- `dt.month`. -/
  month : Timestamp → ℤ
  /-- The positions of the rows in the order of `sort_values(["user", "card", "time_full"])`. -/
  sortOrder : List (ℤ × ℤ × Timestamp) → List ℕ
  sortOrder_perm : ∀ l, (sortOrder l).Perm (List.range l.length)
  sortOrder_sorted : ∀ l, (gather l (sortOrder l)).Pairwise RowLE

/-- A row of the processed table. -/
structure Transaction where
  user : ℤ
  card : ℤ
  timeFull : Timestamp
  amtVal : ℤ
  merchHash : ℤ
  mccInt : ℤ
  mccStr : String
  hour : ℤ
  dow : ℤ
  month : ℤ
  chipUpper : Option String
  zip3 : ℤ
  stateClean : String
  cust : ℤ
  timeDeltaS : ℚ
  isFraud : String
deriving DecidableEq, Repr

/-! ### Columns -/

/-- `str.zfill(w)`: zeros after the sign, up to the given width. -/
def zfill (w : ℕ) (s : List Char) : List Char :=
  match s with
  | '-' :: cs => '-' :: (List.replicate (w - s.length) '0' ++ cs)
  | '+' :: cs => '+' :: (List.replicate (w - s.length) '0' ++ cs)
  | cs => List.replicate (w - s.length) '0' ++ cs

/-- `str.strip()`. -/
def strip (s : String) : String :=
  String.ofList ((s.toList.dropWhile isSpace).reverse.dropWhile isSpace).reverse

/-- `str.replace(".0", "")`. -/
def removeDotZero : List Char → List Char
  | '.' :: '0' :: cs => removeDotZero cs
  | c :: cs => c :: removeDotZero cs
  | [] => []

/-- The number of thresholds the amount reaches. -/
def amountBucket (amt : ℚ) : ℤ :=
  ([10, 50, 100, 500, 1000, 5000].map (fun b : ℚ => if b ≤ amt then (1 : ℤ) else 0)).sum

/-- The upper-cased merchant name without the characters outside `[A-Z0-9\s\-]`. -/
def merchantClean (cudf : Cudf) (s : String) : String :=
  String.ofList ((cudf.upper s).toList.filter (fun c =>
    ('A' ≤ c ∧ c ≤ 'Z') ∨ ('0' ≤ c ∧ c ≤ '9') ∨ isSpace c ∨ c = '-'))

/-- The text of the transaction's date and time. -/
def dateStr (r : RawTransaction) : String :=
  toString r.year ++ "-" ++ String.ofList (zfill 2 (toString r.month).toList) ++ "-" ++
    String.ofList (zfill 2 (toString r.day).toList) ++ " " ++ r.time.getD "00:00"

/-- The first three digits of the zip code. -/
def zip3 (r : RawTransaction) : Except PyError ℤ :=
  match parseInt (zfill 3 ((removeDotZero (r.zip.getD "00000").toList).take 3)) with
  | some i => .ok i
  | none => .error (.valueError
      "Could not convert strings to integer type due to presence of non-integer values.")

/-- The state, upper-cased and stripped; `XX` for none. -/
def stateClean (cudf : Cudf) (r : RawTransaction) : String :=
  let state := strip (cudf.upper (r.merchantState.getD "XX"))
  if state ≠ "" then state else "XX"

/-- The derived columns of one row, before the time differences. -/
def deriveRow (cudf : Cudf) (r : RawTransaction) : Except PyError Transaction := do
  let amt ← cudf.toFloat (String.ofList (r.amount.toList.filter (· ≠ '$')))
  let mcc := r.mcc.getD (-1)
  let dt ← cudf.toDatetime (dateStr r)
  let zip3 ← zip3 r
  .ok {
    user := r.user
    card := clip 0 9 r.card
    timeFull := dt
    amtVal := amountBucket amt
    merchHash := cudf.hashValues (merchantClean cudf r.merchantName)
    mccInt := mcc
    mccStr := toString mcc
    hour := cudf.hour dt
    dow := cudf.dayofweek dt
    month := cudf.month dt
    chipUpper := r.useChip.map cudf.upper
    zip3 := zip3
    stateClean := stateClean cudf r
    cust := clip 0 2999 r.user
    timeDeltaS := 0
    isFraud := r.isFraud }

/-- The sort key of a processed row. -/
def Transaction.sortKey (t : Transaction) : ℤ × ℤ × Timestamp := (t.user, t.card, t.timeFull)

/-- `groupby(["user", "card"])["time_full"].diff()` in seconds, zero at the first row of a group
and never negative; `last` is the time of the previous row of each group. -/
def addTimeDeltas (last : ℤ × ℤ → Option Timestamp) : List Transaction → List Transaction
  | [] => []
  | t :: l =>
    let delta : ℚ := match last (t.user, t.card) with
      | some prev => max 0 (((t.timeFull - prev : ℤ) : ℚ) / 1000000000)
      | none => 0
    { t with timeDeltaS := delta } ::
      addTimeDeltas (Function.update last (t.user, t.card) (some t.timeFull)) l

/-- `preprocess`. -/
def preprocess (cudf : Cudf) (raw : List RawTransaction) : Except PyError (List Transaction) := do
  let rows ← raw.mapM (deriveRow cudf)
  let order := cudf.sortOrder (rows.map Transaction.sortKey)
  .ok (addTimeDeltas (fun _ => none) (gather rows order))

/-! ### Where the rows come from -/

instance : Inhabited Transaction :=
  ⟨⟨0, 0, 0, 0, 0, 0, "", 0, 0, 0, none, 0, "", 0, 0, ""⟩⟩

/-- The derived row, for a transaction that has one. -/
def derived (cudf : Cudf) (r : RawTransaction) : Transaction :=
  match deriveRow cudf r with
  | .ok t => t
  | .error _ => default

/-- The raw transactions in the order of the processed rows. -/
def gatheredRows (cudf : Cudf) (raw : List RawTransaction) : List RawTransaction :=
  gather raw (cudf.sortOrder (raw.map (fun r => (derived cudf r).sortKey)))

/-- A row without its time difference. -/
def Transaction.base (t : Transaction) : Transaction := { t with timeDeltaS := 0 }

theorem map_base_addTimeDeltas (last : ℤ × ℤ → Option Timestamp) (l : List Transaction) :
    (addTimeDeltas last l).map Transaction.base = l.map Transaction.base := by
  induction l generalizing last with
  | nil => rfl
  | cons t l ih =>
    rw [addTimeDeltas, List.map_cons, List.map_cons, ih]
    rfl

theorem gatheredRows_perm (cudf : Cudf) (raw : List RawTransaction) :
    (gatheredRows cudf raw).Perm raw := by
  apply gather_perm
  have h := cudf.sortOrder_perm (raw.map (fun r => (derived cudf r).sortKey))
  rwa [List.length_map] at h

variable {cudf : Cudf} {raw : List RawTransaction} {proc : List Transaction}

/-- Up to the time differences, the processed rows are the derived rows of the gathered ones. -/
theorem preprocess_eq (h : preprocess cudf raw = .ok proc) :
    proc.map Transaction.base =
      (gatheredRows cudf raw).map (fun r => (derived cudf r).base) := by
  obtain ⟨rows, hrows, hproc⟩ := bind_eq_ok.mp h
  cases hproc
  have hderived : rows = raw.map (derived cudf) :=
    eq_map_of_mapM_eq_ok (fun r t ht => by rw [derived, ht]) hrows
  rw [map_base_addTimeDeltas, hderived, List.map_map, gather_map, List.map_map]
  rfl

theorem map_preprocess {β : Type} (h : preprocess cudf raw = .ok proc) {f : Transaction → β}
    (hf : ∀ t, f t.base = f t) :
    proc.map f = (gatheredRows cudf raw).map (fun r => f (derived cudf r)) := by
  have hmap := congrArg (List.map f) (preprocess_eq h)
  rw [List.map_map, List.map_map] at hmap
  simpa [Function.comp_def, hf] using hmap

theorem preprocess_sorted (h : preprocess cudf raw = .ok proc) :
    (proc.map Transaction.sortKey).Pairwise RowLE := by
  rw [map_preprocess h (fun _ => rfl), gatheredRows]
  have hs := cudf.sortOrder_sorted (raw.map (fun r => (derived cudf r).sortKey))
  rwa [gather_map] at hs

/-- The columns `user` and `card` of a processed row. -/
theorem derived_user_card (h : preprocess cudf raw = .ok proc) :
    ∀ r ∈ raw, (derived cudf r).user = r.user ∧ (derived cudf r).card = clip 0 9 r.card := by
  obtain ⟨rows, hrows, -⟩ := bind_eq_ok.mp h
  intro r hr
  obtain ⟨t, ht⟩ := exists_of_mapM_eq_ok hrows r hr
  rw [derived, ht]
  obtain ⟨amt, -, ht⟩ := bind_eq_ok.mp ht
  obtain ⟨dt, -, ht⟩ := bind_eq_ok.mp ht
  obtain ⟨zip, -, ht⟩ := bind_eq_ok.mp ht
  cases ht
  exact ⟨rfl, rfl⟩

/-! ### The frame of the processed rows -/

/-- The columns of the processed table, by name. -/
def transactionColumns : List (String × (Transaction → Option Value)) :=
  [("user", fun t => some (.int t.user)),
   ("time_full", fun t => some (.int t.timeFull)),
   ("amt_val", fun t => some (.int t.amtVal)),
   ("merch_hash", fun t => some (.int t.merchHash)),
   ("mcc_int", fun t => some (.int t.mccInt)),
   ("mcc_str", fun t => some (.str t.mccStr)),
   ("hour", fun t => some (.int t.hour)),
   ("dow", fun t => some (.int t.dow)),
   ("month", fun t => some (.int t.month)),
   ("card", fun t => some (.int t.card)),
   ("chip_upper", fun t => t.chipUpper.map .str),
   ("zip3", fun t => some (.int t.zip3)),
   ("state_clean", fun t => some (.str t.stateClean)),
   ("cust", fun t => some (.int t.cust)),
   ("time_delta_s", fun t => some (.float t.timeDeltaS (toString t.timeDeltaS)))]

/-- The cell of a row in a column. -/
def Transaction.cell (t : Transaction) (name : String) : Option Value :=
  (transactionColumns.lookup name).bind (fun f => f t)

/-- The frame that the pipeline is fitted on and transforms. -/
def toFrame (rows : List Transaction) : DataFrame where
  columns := Dict.ofList (transactionColumns.map (fun e => (e.1, rows.map e.2)))
  numRows := rows.length
  length_eq := by
    intro c hc
    obtain ⟨e, he, rfl⟩ := List.mem_map.mp hc
    obtain ⟨col, -, rfl⟩ := List.mem_map.mp (Dict.mem_of_mem_entries_ofList he)
    exact List.length_map ..

theorem transactionColumns_nodup : (transactionColumns.map Prod.fst).Nodup := by
  show ["user", "time_full", "amt_val", "merch_hash", "mcc_int", "mcc_str", "hour", "dow", "month",
    "card", "chip_upper", "zip3", "state_clean", "cust", "time_delta_s"].Nodup
  decide

theorem get?_toFrame (rows : List Transaction) {e : String × (Transaction → Option Value)}
    (he : e ∈ transactionColumns) : (toFrame rows).columns.get? e.1 = some (rows.map e.2) := by
  have hn : ((transactionColumns.map (fun e => (e.1, rows.map e.2))).map Prod.fst).Nodup := by
    rw [List.map_map]
    exact transactionColumns_nodup
  have hmem : (e.1, rows.map e.2) ∈ transactionColumns.map (fun e => (e.1, rows.map e.2)) :=
    List.mem_map.mpr ⟨e, he, rfl⟩
  have hcolumns : (toFrame rows).columns =
      Dict.empty.setAll (transactionColumns.map (fun e => (e.1, rows.map e.2))) := by
    unfold toFrame Dict.ofList
    simp only
  rw [hcolumns]
  exact Dict.get?_setAll_of_mem Dict.empty hn hmem

theorem get?_toFrame_cell (rows : List Transaction) {name : String}
    (h : name ∈ transactionColumns.map Prod.fst) :
    (toFrame rows).columns.get? name = some (rows.map (fun t => t.cell name)) := by
  obtain ⟨e, he, rfl⟩ := List.mem_map.mp h
  have hlookup : transactionColumns.lookup e.1 = some e.2 :=
    (Dict.get?_eq_some_iff (d := ⟨transactionColumns, transactionColumns_nodup⟩)).mpr he
  rw [get?_toFrame rows he]
  congr 1
  refine List.map_congr_left (fun t _ => ?_)
  rw [Transaction.cell, hlookup]
  rfl

theorem stepColumns_subset (includeTimeDelta : Bool) :
    ∀ k ∈ stepColumns includeTimeDelta, k ∈ transactionColumns.map Prod.fst := by
  cases includeTimeDelta <;> decide

theorem hasStepColumns_toFrame (includeTimeDelta : Bool) (rows : List Transaction) :
    HasStepColumns includeTimeDelta (toFrame rows) := by
  intro k hk
  rw [← Dict.get?_isSome_iff, get?_toFrame_cell rows (stepColumns_subset includeTimeDelta k hk)]
  rfl

/-! ### One transaction, worked out -/

/-- The library functions on the values of `exampleTransaction`; elsewhere a date is rejected, an
amount is zero and a hash is zero. -/
def exampleCudf : Cudf where
  toFloat s := .ok (if s = "134.09" then 13409 / 100 else 0)
  upper s := String.ofList (s.toList.map Char.toUpper)
  hashValues s := if s = "3527213246127876953" then 1297092898 else 0
  toDatetime s :=
    if s = "2019-05-04 10:15" then .ok 1556964900000000000
    else .error (.valueError "Error: Unable to convert string to datetime")
  hour ts := ts / 3600000000000 % 24
  dayofweek ts := (ts / 86400000000000 + 3) % 7
  month _ := 5
  sortOrder l := argsort (l.map (fun k => toLex (k.1, toLex k.2)))
  sortOrder_perm l := by
    have h := argsort_perm (l.map (fun k => toLex (k.1, toLex k.2)))
    rwa [List.length_map] at h
  sortOrder_sorted l := by
    rw [gather_argsort]
    refine (isStableSort_sortBy _ l).sorted.imp (fun {a b} h => ?_)
    simpa only [RowLE, Prod.Lex.le_iff, ofLex_toLex] using h

/-- A transaction of the given user and card. -/
def exampleTransaction (user card : ℤ) : RawTransaction where
  user := user
  card := card
  year := 2019
  month := 5
  day := 4
  time := some "10:15"
  amount := "$134.09"
  useChip := some "Swipe Transaction"
  merchantName := "3527213246127876953"
  merchantState := some "CA"
  zip := some "91750.0"
  mcc := some 5300
  isFraud := "No"

theorem dateStr_example (user card : ℤ) :
    dateStr (exampleTransaction user card) = "2019-05-04 10:15" := by
  show toString (2019 : ℤ) ++ "-" ++ String.ofList (zfill 2 (toString (5 : ℤ)).toList) ++ "-" ++
    String.ofList (zfill 2 (toString (4 : ℤ)).toList) ++ " " ++ "10:15" = _
  decide +kernel

theorem zip3_example (user card : ℤ) : zip3 (exampleTransaction user card) = .ok 917 := by
  have h : parseInt (zfill 3 ((removeDotZero
      ((exampleTransaction user card).zip.getD "00000").toList).take 3)) = some 917 := by
    show parseInt (zfill 3 ((removeDotZero "91750.0".toList).take 3)) = some 917
    decide +kernel
  rw [zip3, h]

theorem deriveRow_example (user card : ℤ) :
    ∃ t, deriveRow exampleCudf (exampleTransaction user card) = .ok t := by
  have hdate : exampleCudf.toDatetime (dateStr (exampleTransaction user card)) =
      .ok 1556964900000000000 := by
    rw [dateStr_example]
    rfl
  have hamt : ∀ s, exampleCudf.toFloat s = .ok (if s = "134.09" then 13409 / 100 else 0) :=
    fun _ => rfl
  rw [deriveRow, hamt, ok_bind, hdate, ok_bind, zip3_example, ok_bind]
  exact ⟨_, rfl⟩

theorem preprocess_example (l : List (ℤ × ℤ)) :
    ∃ proc, preprocess exampleCudf (l.map (fun p => exampleTransaction p.1 p.2)) = .ok proc := by
  have hrows : (l.map (fun p => exampleTransaction p.1 p.2)).mapM (deriveRow exampleCudf) =
      .ok ((l.map (fun p => exampleTransaction p.1 p.2)).map (derived exampleCudf)) := by
    refine mapM_eq_ok (fun r hr => ?_)
    obtain ⟨p, -, rfl⟩ := List.mem_map.mp hr
    obtain ⟨t, ht⟩ := deriveRow_example p.1 p.2
    rw [derived, ht]
  exact ⟨_, by rw [preprocess, hrows, ok_bind]⟩

end RayTfm.Tfm
