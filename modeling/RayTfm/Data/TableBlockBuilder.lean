import RayTfm.Lib.Dict
import RayTfm.Lib.Ensures
import RayTfm.Py

/-! # Building a block from rows and blocks

The model of `TableBlockBuilder` (`table_block.py`).  Rows are buffered as columns; once their
estimated size is large enough they become a table, which is compacted through `add_block` as a
foreign one would be.  The size estimator stands behind the argument `sizeReached` of `add`.  How
Arrow or Pandas make a table of columns and one of several tables is up to them (`TableLibrary`):
where the types of the columns agree they put the tables one below the other (`ColumnTable.concat`),
else they raise or convert values.

`ColumnTable.rows` is what a table says row by row: a column that a table does not have is `None`
there. `Building` runs the operations and remembers the rows that were added, and
`tableBlockBuilder_exact_iff` says in which runs the row counter and the built table agree with them
at every point. -/

namespace RayTfm.Data

variable {V : Type}

/-! ### Columns and rows -/

/-- What `item.get(column_name)` returns for every name. -/
def cells (item : Dict String (Option V)) : String → Option V := fun name => (item.get? name).getD none

/-- The rows of `n` entries of the columns. -/
def cellRows (n : ℕ) (column : String → List (Option V)) : List (String → Option V) :=
  (List.range n).map (fun i name => ((column name)[i]?).getD none)

@[simp] theorem length_cellRows (n : ℕ) (column : String → List (Option V)) :
    (cellRows n column).length = n := by
  simp [cellRows]

theorem cellRows_append {n : ℕ} (m : ℕ) {upper lower : String → List (Option V)}
    (hlen : ∀ name, (upper name).length = n) :
    cellRows (n + m) (fun name => upper name ++ lower name) = cellRows n upper ++ cellRows m lower := by
  unfold cellRows
  rw [List.range_add, List.map_append, List.map_map]
  congr 1
  · apply List.map_congr_left
    intro i hi
    funext name
    rw [List.getElem?_append_left]
    rw [hlen]
    exact List.mem_range.mp hi
  · apply List.map_congr_left
    intro i _
    funext name
    show ((upper name ++ lower name)[n + i]?).getD none = _
    rw [List.getElem?_append_right (by rw [hlen]; omega), hlen, Nat.add_sub_cancel_left]

/-- The column with a name, `None` throughout where there is none. -/
def columnOf (n : ℕ) (columns : Dict String (List (Option V))) (name : String) : List (Option V) :=
  (columns.get? name).getD (List.replicate n none)

/-- All columns have the length `n`. -/
def Rectangular (n : ℕ) (columns : Dict String (List (Option V))) : Prop :=
  ∀ name column, columns.get? name = some column → column.length = n

section columns
variable {n : ℕ} {columns : Dict String (List (Option V))}

theorem Rectangular.empty (n : ℕ) : Rectangular n (Dict.empty : Dict String (List (Option V))) :=
  fun _ _ h => absurd h (by simp)

theorem Rectangular.length_columnOf (h : Rectangular n columns) (name : String) :
    (columnOf n columns name).length = n := by
  unfold columnOf
  cases hget : columns.get? name with
  | none => simp
  | some column => exact h name column hget

end columns

/-! ### Tables -/

/-- A table.  Its columns carry the number of its rows, so without columns there is none. -/
structure ColumnTable (V : Type) where
  numRows : ℕ
  columns : Dict String (List (Option V))
  rectangular : Rectangular numRows columns
  noColumns : columns.entries = [] → numRows = 0

namespace ColumnTable

/-- The rows, a missing column filled with `None`. -/
def rows (t : ColumnTable V) : List (String → Option V) :=
  cellRows t.numRows (columnOf t.numRows t.columns)

@[simp] theorem length_rows (t : ColumnTable V) : t.rows.length = t.numRows := length_cellRows _ _

/-- `_empty_table`. -/
def emptyTable : ColumnTable V := ⟨0, Dict.empty, Rectangular.empty 0, fun _ => rfl⟩
@[simp] theorem rows_emptyTable : (emptyTable : ColumnTable V).rows = [] := rfl

/-- The names of the columns of some tables. -/
def columnNames (tables : List (ColumnTable V)) : List String :=
  Dict.fromkeys (tables.flatMap (fun t => t.columns.keys))

/-- The number of rows of some tables. -/
def totalRows (tables : List (ColumnTable V)) : ℕ := (tables.map numRows).sum

/-- The columns of some tables with one name, one below the other. -/
def stackedColumn (tables : List (ColumnTable V)) (name : String) : List (Option V) :=
  tables.flatMap (fun t => columnOf t.numRows t.columns name)

theorem length_stackedColumn (tables : List (ColumnTable V)) (name : String) :
    (stackedColumn tables name).length = totalRows tables := by
  unfold stackedColumn totalRows
  rw [List.length_flatMap]
  congr 1
  exact List.map_congr_left (fun t _ => t.rectangular.length_columnOf name)

theorem get?_stacked (tables : List (ColumnTable V)) (name : String) :
    (Dict.ofList ((columnNames tables).map (fun name => (name, stackedColumn tables name)))).get? name =
      if name ∈ columnNames tables then some (stackedColumn tables name) else none :=
  Dict.get?_ofList_map (Dict.keys_nodup _) _ name

theorem totalRows_eq_zero {tables : List (ColumnTable V)} (h : columnNames tables = []) :
    totalRows tables = 0 := by
  apply List.sum_eq_zero
  intro n hn
  obtain ⟨t, ht, rfl⟩ := List.mem_map.mp hn
  apply t.noColumns
  by_contra hne
  obtain ⟨entry, hentry⟩ := List.exists_mem_of_ne_nil _ hne
  have hname : entry.1 ∈ columnNames tables :=
    Dict.mem_fromkeys.mpr (List.mem_flatMap.mpr ⟨t, ht, List.mem_map_of_mem hentry⟩)
  rw [h] at hname
  cases hname

/-- The tables one below the other: a column that some of them do not have is null in their rows. -/
def concat (tables : List (ColumnTable V)) : ColumnTable V where
  numRows := totalRows tables
  columns := Dict.ofList ((columnNames tables).map (fun name => (name, stackedColumn tables name)))
  rectangular := by
    intro name column h
    rw [get?_stacked] at h
    split_ifs at h
    cases h
    exact length_stackedColumn tables name
  noColumns := by
    intro h
    rw [Dict.ofList_entries_eq_nil_iff, List.map_eq_nil_iff] at h
    exact totalRows_eq_zero h

/-- A column of the result is the stack of the columns, also where none of the tables has it. -/
theorem columnOf_concat (tables : List (ColumnTable V)) (name : String) :
    columnOf (totalRows tables) (concat tables).columns name = stackedColumn tables name := by
  unfold columnOf concat
  rw [get?_stacked]
  split_ifs with hname
  · rfl
  · show List.replicate _ none = _
    symm
    rw [List.eq_replicate_iff]
    refine ⟨length_stackedColumn tables name, ?_⟩
    intro cell hcell
    obtain ⟨t, ht, hcell⟩ := List.mem_flatMap.mp hcell
    have hget : t.columns.get? name = none := by
      rw [Dict.get?_eq_none_iff]
      exact fun hkey => hname (Dict.mem_fromkeys.mpr (List.mem_flatMap.mpr ⟨t, ht, hkey⟩))
    rw [columnOf, hget] at hcell
    exact List.eq_of_mem_replicate hcell

theorem cellRows_stackedColumn (tables : List (ColumnTable V)) :
    cellRows (totalRows tables) (stackedColumn tables) = tables.flatMap rows := by
  induction tables with
  | nil => rfl
  | cons t tables ih =>
    rw [List.flatMap_cons, ← ih]
    exact cellRows_append (totalRows tables) (fun name => t.rectangular.length_columnOf name)

theorem rows_concat (tables : List (ColumnTable V)) : (concat tables).rows = tables.flatMap rows := by
  rw [← cellRows_stackedColumn]
  exact congrArg (cellRows (totalRows tables)) (funext (columnOf_concat tables))

/-- The same, where a single table is as it is. -/
def stack : List (ColumnTable V) → ColumnTable V
  | [] => .emptyTable
  | [table] => table
  | tables => concat tables

theorem rows_stack (tables : List (ColumnTable V)) : (stack tables).rows = tables.flatMap rows := by
  match tables with
  | [] => rfl
  | [table] => exact (List.flatMap_singleton ..).symm
  | _ :: _ :: _ => exact rows_concat _

end ColumnTable

/-! ### Arrow and Pandas -/

/-- What Arrow or Pandas make of columns of one length and of several tables. -/
structure TableLibrary (V : Type) where
  fromPydict : ColumnTable V → Except PyError (ColumnTable V)
  concat : List (ColumnTable V) → Except PyError (ColumnTable V)

/-- `_combine_tables`, or `_empty_table` for no tables: a single table is returned as it is. -/
def TableLibrary.combineTables (lib : TableLibrary V) :
    List (ColumnTable V) → Except PyError (ColumnTable V)
  | [] => .ok .emptyTable
  | [table] => .ok table
  | tables => lib.concat tables

/-! ### The builder -/

/-- The loop over the item's columns: one that is new is `None` in the rows before. -/
def fillMissing (n : ℕ) (names : List String) (columns : Dict String (List (Option V))) :
    Dict String (List (Option V)) :=
  names.foldl
    (fun columns name => if name ∈ columns.keys then columns
      else columns.set name (List.replicate n none)) columns

/-- The loop over the columns: each gets the item's value. -/
def appendItem (item : Dict String (Option V)) (columns : Dict String (List (Option V))) :
    Dict String (List (Option V)) :=
  Dict.ofList (columns.keys.map (fun name => (name, (columns.get? name).getD [] ++ [cells item name])))

section columns
variable {n : ℕ} {columns : Dict String (List (Option V))} {item : Dict String (Option V)}

theorem columnOf_set_of_notMem {name : String} (h : name ∉ columns.keys) (name' : String) :
    columnOf n (columns.set name (List.replicate n none)) name' = columnOf n columns name' := by
  unfold columnOf
  rw [Dict.get?_set]
  split_ifs with heq
  · rw [heq, Dict.get?_eq_none_iff.mpr h]
    rfl
  · rfl

theorem Rectangular.set {column : List (Option V)} (h : Rectangular n columns) (name : String)
    (hlen : column.length = n) : Rectangular n (columns.set name column) := by
  intro name' column' hget
  rw [Dict.get?_set] at hget
  split_ifs at hget
  · cases hget
    exact hlen
  · exact h name' column' hget

theorem columnOf_fillMissing (names : List String) (name : String) :
    columnOf n (fillMissing n names columns) name = columnOf n columns name := by
  unfold fillMissing
  induction names generalizing columns with
  | nil => rfl
  | cons name' names ih =>
    rw [List.foldl_cons, ih]
    split_ifs with h
    · rfl
    · exact columnOf_set_of_notMem h name

theorem Rectangular.fillMissing (h : Rectangular n columns) (names : List String) :
    Rectangular n (fillMissing n names columns) := by
  unfold Data.fillMissing
  induction names generalizing columns with
  | nil => exact h
  | cons name names ih =>
    rw [List.foldl_cons]
    apply ih
    split_ifs
    · exact h
    · exact h.set name List.length_replicate

theorem mem_keys_fillMissing {names : List String} {name : String} :
    name ∈ (fillMissing n names columns).keys ↔ name ∈ columns.keys ∨ name ∈ names := by
  unfold fillMissing
  induction names generalizing columns with
  | nil => simp
  | cons name' names ih =>
    rw [List.foldl_cons, ih, List.mem_cons]
    split_ifs with h
    · constructor
      · rintro (h' | h')
        · exact .inl h'
        · exact .inr (.inr h')
      · rintro (h' | rfl | h')
        · exact .inl h'
        · exact .inl h
        · exact .inr h'
    · rw [Dict.mem_keys_set]
      tauto

theorem get?_appendItem (name : String) : (appendItem item columns).get? name =
    if name ∈ columns.keys then some ((columns.get? name).getD [] ++ [cells item name]) else none :=
  Dict.get?_ofList_map columns.keys_nodup _ name

theorem keys_appendItem : (appendItem item columns).keys = columns.keys :=
  Dict.keys_ofList_map columns.keys_nodup _

theorem Rectangular.appendItem (h : Rectangular n columns) :
    Rectangular (n + 1) (appendItem item columns) := by
  intro name column hget
  rw [get?_appendItem] at hget
  split_ifs at hget with hname
  cases hget
  obtain ⟨column, hcolumn⟩ := Option.isSome_iff_exists.mp (Dict.get?_isSome_iff.mpr hname)
  rw [hcolumn, List.length_append, Option.getD_some, h name column hcolumn, List.length_singleton]

/-- The item is one more row, if there is a column for each of its values. -/
theorem columnOf_appendItem (hsub : ∀ name ∈ item.keys, name ∈ columns.keys) (name : String) :
    columnOf (n + 1) (appendItem item columns) name = columnOf n columns name ++ [cells item name] := by
  unfold columnOf
  rw [get?_appendItem]
  split_ifs with hname
  · obtain ⟨column, hcolumn⟩ := Option.isSome_iff_exists.mp (Dict.get?_isSome_iff.mpr hname)
    rw [hcolumn]
    rfl
  · have hcell : cells item name = none := by
      rw [cells, Dict.get?_eq_none_iff.mpr (fun h => hname (hsub name h))]
      rfl
    rw [Dict.get?_eq_none_iff.mpr hname, hcell]
    exact List.replicate_succ'

end columns

/-- The state of a `TableBlockBuilder`. -/
structure TableBlockBuilder (V : Type) where
  columns : Dict String (List (Option V))
  tables : List (ColumnTable V)
  numRows : ℕ
  numUncompactedRows : ℕ
  numCompactions : ℕ
  rectangular : Rectangular numUncompactedRows columns

namespace TableBlockBuilder

/-- `__init__`. -/
def init : TableBlockBuilder V where
  columns := Dict.empty
  tables := []
  numRows := 0
  numUncompactedRows := 0
  numCompactions := 0
  rectangular := Rectangular.empty 0

variable (b : TableBlockBuilder V)

/-- The table of the buffered columns. -/
def bufferedTable (h : b.columns.entries ≠ []) : ColumnTable V :=
  ⟨b.numUncompactedRows, b.columns, b.rectangular, fun h' => absurd h' h⟩

def addBlock (block : ColumnTable V) : TableBlockBuilder V :=
  { b with tables := b.tables ++ [block], numRows := b.numRows + block.numRows }

/-- The table of the buffered columns becomes one of the tables. -/
def compact (block : ColumnTable V) : TableBlockBuilder V :=
  let added := b.addBlock block
  { added with
    columns := Dict.empty
    numCompactions := added.numCompactions + 1
    numUncompactedRows := 0
    rectangular := Rectangular.empty 0 }

/-- `_compact_if_needed`. -/
def compactIfNeeded (lib : TableLibrary V) (sizeReached : Bool) :
    Except PyError Unit × TableBlockBuilder V :=
  if h : b.columns.entries = [] then (.error .assertionError, b)
  else if sizeReached then
    match lib.fromPydict (b.bufferedTable h) with
    | .ok block => (.ok (), b.compact block)
    | .error e => (.error e, b)
  else (.ok (), b)

/-- The part of `add` before the compaction. -/
def append (item : Dict String (Option V)) : TableBlockBuilder V :=
  { b with
    columns := appendItem item (fillMissing b.numUncompactedRows item.keys b.columns)
    numRows := b.numRows + 1
    numUncompactedRows := b.numUncompactedRows + 1
    rectangular := (b.rectangular.fillMissing item.keys).appendItem }

/-- `add`; after a failed assertion the row stays counted. -/
def add (lib : TableLibrary V) (item : Dict String (Option V)) (sizeReached : Bool) :
    Except PyError Unit × TableBlockBuilder V :=
  (b.append item).compactIfNeeded lib sizeReached

def build (lib : TableLibrary V) : Except PyError (ColumnTable V) :=
  if h : b.columns.entries = [] then lib.combineTables b.tables
  else do
    let table ← lib.fromPydict (b.bufferedTable h)
    lib.combineTables (b.tables ++ [table])

/-- The tables, and that of the buffered columns. -/
def tablesToBuild : List (ColumnTable V) :=
  b.tables ++ if h : b.columns.entries = [] then [] else [b.bufferedTable h]

/-- The library puts the tables one below the other, as they are. -/
structure Fits (lib : TableLibrary V) : Prop where
  fromPydict : ∀ h, lib.fromPydict (b.bufferedTable h) = .ok (b.bufferedTable h)
  concat : 2 ≤ b.tablesToBuild.length → lib.concat b.tablesToBuild = .ok (.concat b.tablesToBuild)

/-- The table that is built then. -/
def built : ColumnTable V := .stack b.tablesToBuild

/-- The rows that are not in a table yet. -/
def bufferedRows : List (String → Option V) :=
  cellRows b.numUncompactedRows (columnOf b.numUncompactedRows b.columns)

/-- Buffered rows have columns. -/
def Tidy : Prop := b.columns.entries = [] → b.numUncompactedRows = 0

variable {b}

theorem Fits.build {lib : TableLibrary V} (h : b.Fits lib) : b.build lib = .ok b.built := by
  have hcombine : ∀ tables : List (ColumnTable V),
    (2 ≤ tables.length → lib.concat tables = .ok (.concat tables)) →
      lib.combineTables tables = .ok (.stack tables) := by
    intro tables hconcat
    match tables with
    | [] => rfl
    | [table] => rfl
    | _ :: _ :: _ => exact hconcat (by simp)
  have hall := hcombine _ h.concat
  unfold TableBlockBuilder.build built
  unfold tablesToBuild at hall ⊢
  split_ifs with hcolumns
  · rw [dif_pos hcolumns, List.append_nil] at hall
    rw [List.append_nil]
    exact hall
  · rw [h.fromPydict hcolumns, ok_bind]
    rwa [dif_neg hcolumns] at hall

theorem rows_build_eq : b.built.rows = b.tablesToBuild.flatMap ColumnTable.rows :=
  ColumnTable.rows_stack _

/-- The built table has the rows of the tables and then those of the buffer. -/
theorem rows_build (htidy : b.Tidy) :
    b.built.rows = b.tables.flatMap ColumnTable.rows ++ b.bufferedRows := by
  rw [rows_build_eq, tablesToBuild, List.flatMap_append]
  congr 1
  split_ifs with h
  · rw [bufferedRows, htidy h]
    rfl
  · rw [List.flatMap_singleton]
    rfl

variable {item : Dict String (Option V)}

theorem append_columns (h : item.entries ≠ [] ∨ b.columns.entries ≠ []) :
    (b.append item).columns.entries ≠ [] := by
  have hkey : ∃ name, name ∈ b.columns.keys ∨ name ∈ item.keys := by
    rcases h with h | h
    · obtain ⟨entry, hentry⟩ := List.exists_mem_of_ne_nil _ h
      exact ⟨entry.1, .inr (List.mem_map_of_mem hentry)⟩
    · obtain ⟨entry, hentry⟩ := List.exists_mem_of_ne_nil _ h
      exact ⟨entry.1, .inl (List.mem_map_of_mem hentry)⟩
  obtain ⟨name, hname⟩ := hkey
  intro hnil
  have hmem : name ∈ (b.append item).columns.keys := by
    show name ∈ (appendItem _ _).keys
    rw [keys_appendItem]
    exact mem_keys_fillMissing.mpr hname
  rw [Dict.keys, hnil] at hmem
  cases hmem

theorem append_noColumns (hitem : item.entries = []) (hcolumns : b.columns.entries = []) :
    (b.append item).columns.entries = [] := by
  have hkeys : item.keys = [] := by
    rw [Dict.keys, hitem]
    rfl
  rw [← List.map_eq_nil_iff (f := Prod.fst)]
  show (appendItem _ _).keys = []
  rw [keys_appendItem, hkeys]
  show b.columns.entries.map Prod.fst = []
  rw [hcolumns]
  rfl

theorem bufferedRows_append (item : Dict String (Option V)) :
    (b.append item).bufferedRows = b.bufferedRows ++ [cells item] := by
  have hcolumn : columnOf (b.numUncompactedRows + 1) (b.append item).columns =
      fun name => columnOf b.numUncompactedRows b.columns name ++ [cells item name] := by
    funext name
    rw [append, columnOf_appendItem (fun name h => mem_keys_fillMissing.mpr (.inr h)),
      columnOf_fillMissing]
  show cellRows (b.numUncompactedRows + 1)
    (columnOf (b.numUncompactedRows + 1) (b.append item).columns) = _
  rw [hcolumn, cellRows_append 1 b.rectangular.length_columnOf]
  rfl

theorem tidy_init : (init : TableBlockBuilder V).Tidy := fun _ => rfl

theorem rows_addBlock (htidy : b.Tidy) (block : ColumnTable V) :
    (b.addBlock block).built.rows = b.tables.flatMap ColumnTable.rows ++
      (block.rows ++ b.bufferedRows) := by
  rw [rows_build (show (b.addBlock block).Tidy from htidy), ← List.append_assoc]
  congr 1
  show (b.tables ++ [block]).flatMap ColumnTable.rows = _
  rw [List.flatMap_append, List.flatMap_singleton]

variable {lib : TableLibrary V}

/-- A compaction moves the buffered rows behind those of the tables, where `build` puts them as
well. -/
theorem tablesToBuild_compactIfNeeded (hfits : b.Fits lib) (sizeReached : Bool) :
    (b.compactIfNeeded lib sizeReached).2.tablesToBuild = b.tablesToBuild := by
  unfold compactIfNeeded
  split_ifs with h
  · rfl
  · rw [hfits.fromPydict h]
    have hcolumns : (b.compact (b.bufferedTable h)).columns.entries = [] := rfl
    unfold tablesToBuild
    rw [dif_neg h, dif_pos hcolumns, List.append_nil]
    rfl
  · rfl

theorem rows_compactIfNeeded (hfits : b.Fits lib) (h : b.columns.entries ≠ []) (sizeReached : Bool) :
    (b.compactIfNeeded lib sizeReached).2.Tidy ∧ (b.compactIfNeeded lib sizeReached).2.built.rows =
      b.built.rows := by
  constructor
  · unfold compactIfNeeded
    rw [dif_neg h]
    split_ifs
    · rw [hfits.fromPydict h]
      exact fun _ => rfl
    · exact fun h' => absurd h' h
  · rw [rows_build_eq, rows_build_eq, tablesToBuild_compactIfNeeded hfits]

/-- What fits before a compaction fits behind it. -/
theorem Fits.compactIfNeeded (hfits : b.Fits lib) (sizeReached : Bool) :
    (b.compactIfNeeded lib sizeReached).2.Fits lib := by
  refine ⟨fun h => ?_, by rw [tablesToBuild_compactIfNeeded hfits]; exact hfits.concat⟩
  unfold TableBlockBuilder.compactIfNeeded at h ⊢
  split_ifs at h ⊢ with hcolumns hsize
  · exact hfits.fromPydict h
  · rw [hfits.fromPydict hcolumns] at h
    exact absurd rfl h
  · exact hfits.fromPydict h

theorem numRows_compactIfNeeded (hfits : b.Fits lib) (h : b.columns.entries ≠ []) (sizeReached : Bool) :
    (b.compactIfNeeded lib sizeReached).2.numRows = b.numRows +
      if sizeReached then b.numUncompactedRows else 0 := by
  unfold compactIfNeeded
  rw [dif_neg h, hfits.fromPydict h]
  cases sizeReached <;> rfl

/-- Whether `add` succeeds: the assertion of the compaction wants a column. -/
theorem add_eq_ok_iff {sizeReached : Bool} (hfits : (b.append item).Fits lib) :
    (b.add lib item sizeReached).1 = .ok () ↔ item.entries ≠ [] ∨ b.columns.entries ≠ [] := by
  constructor
  · intro h
    by_contra hne
    push Not at hne
    rw [add, compactIfNeeded, dif_pos (append_noColumns hne.1 hne.2)] at h
    cases h
  · intro h
    rw [add, compactIfNeeded, dif_neg (append_columns h), hfits.fromPydict (append_columns h)]
    cases sizeReached <;> rfl

theorem rows_add (htidy : b.Tidy) (hfits : (b.append item).Fits lib) (sizeReached : Bool)
    (h : item.entries ≠ [] ∨ b.columns.entries ≠ []) :
    (b.add lib item sizeReached).2.Tidy ∧
    (b.add lib item sizeReached).2.built.rows = b.built.rows ++ [cells item] := by
  have hne := append_columns h
  obtain ⟨htidy', hrows⟩ := rows_compactIfNeeded hfits hne sizeReached
  refine ⟨htidy', hrows.trans ?_⟩
  rw [rows_build (fun h' => absurd h' hne), bufferedRows_append, rows_build htidy, List.append_assoc]
  rfl

end TableBlockBuilder

/-! ### Runs -/

/-- What a caller does with a builder.  `sizeReached` says whether the estimated size of the
buffered rows has reached `MAX_UNCOMPACTED_SIZE_BYTES`. -/
inductive BuilderOperation (V : Type) where
  | add (item : Dict String (Option V)) (sizeReached : Bool)
  | addBlock (block : ColumnTable V)

/-- A builder and the rows that were added so far. -/
structure Building (V : Type) where
  builder : TableBlockBuilder V
  added : List (String → Option V)

namespace Building

def init : Building V := ⟨.init, []⟩

/-- One operation; a row whose `add` fails is not added. -/
def step (lib : TableLibrary V) (s : Building V) : BuilderOperation V → Building V
  | .add item sizeReached =>
    match s.builder.add lib item sizeReached with
    | (.ok (), builder) => ⟨builder, s.added ++ [cells item]⟩
    | (.error _, builder) => ⟨builder, s.added⟩
  | .addBlock block => ⟨s.builder.addBlock block, s.added ++ block.rows⟩

def run (lib : TableLibrary V) (s : Building V) (ops : List (BuilderOperation V)) : Building V :=
  ops.foldl (step lib) s

/-- A table is built, the counter agrees with it, and it has the added rows in their order. -/
def Exact (lib : TableLibrary V) (s : Building V) : Prop :=
  ∃ table, s.builder.build lib = .ok table ∧ s.builder.numRows = table.numRows ∧ table.rows = s.added

/-- With the row or block of an operation, before a compaction, the columns fit. -/
def Fits (lib : TableLibrary V) (b : TableBlockBuilder V) : BuilderOperation V → Prop
  | .add item _ => (b.append item).Fits lib
  | .addBlock block => (b.addBlock block).Fits lib

/-- The operations that keep the builder exact: a row without columns meets a buffered column,
nothing is compacted, and the rows of a block may stand before the buffered ones as well as behind
them. -/
def Safe (b : TableBlockBuilder V) : BuilderOperation V → Prop
  | .add item sizeReached => (item.entries ≠ [] ∨ b.columns.entries ≠ []) ∧ sizeReached = false
  | .addBlock block => block.rows ++ b.bufferedRows = b.bufferedRows ++ block.rows

/-- The counter and what is built agree with the added rows, where the columns fit. -/
structure Right (s : Building V) : Prop where
  numRows : s.builder.numRows = s.added.length
  rows : s.builder.built.rows = s.added

variable {lib : TableLibrary V} {s : Building V} {item : Dict String (Option V)} {sizeReached : Bool}

theorem exact_iff_right (hfits : s.builder.Fits lib) : s.Exact lib ↔ s.Right := by
  unfold Exact
  rw [hfits.build]
  simp only [Except.ok.injEq, exists_eq_left']
  constructor
  · rintro ⟨hnumRows, hrows⟩
    exact ⟨by rw [hnumRows, ← hrows, ColumnTable.length_rows], hrows⟩
  · rintro ⟨hnumRows, hrows⟩
    exact ⟨by rw [hnumRows, ← hrows, ColumnTable.length_rows], hrows⟩

theorem right_init : (init : Building V).Right := ⟨rfl, rfl⟩

theorem step_add_of_ok (hfits : (s.builder.append item).Fits lib)
    (h : item.entries ≠ [] ∨ s.builder.columns.entries ≠ []) :
    s.step lib (.add item sizeReached) =
      ⟨(s.builder.add lib item sizeReached).2, s.added ++ [cells item]⟩ := by
  have hok : (s.builder.add lib item sizeReached).1 = .ok () :=
    (TableBlockBuilder.add_eq_ok_iff hfits).mpr h
  cases hadd : s.builder.add lib item sizeReached with
  | mk result builder =>
    rw [hadd] at hok
    cases hok
    simp only [step, hadd]

/-- A successful `add` keeps the builder right unless it compacts. -/
theorem right_step_add_iff (hright : s.Right) (htidy : s.builder.Tidy)
    (hfits : (s.builder.append item).Fits lib)
    (h : item.entries ≠ [] ∨ s.builder.columns.entries ≠ []) :
    (s.step lib (.add item sizeReached)).Right ↔ sizeReached = false := by
  obtain ⟨_, hrows⟩ := TableBlockBuilder.rows_add htidy hfits sizeReached h
  have hnumRows := TableBlockBuilder.numRows_compactIfNeeded hfits
    (TableBlockBuilder.append_columns h) sizeReached
  rw [hright.rows] at hrows
  rw [step_add_of_ok hfits h]
  have hiff : (⟨(s.builder.add lib item sizeReached).2, s.added ++ [cells item]⟩ : Building V).Right ↔
      ((s.builder.append item).compactIfNeeded lib sizeReached).2.numRows =
        (s.added ++ [cells item]).length :=
    ⟨fun h => h.numRows, fun h => ⟨h, hrows⟩⟩
  rw [hiff, hnumRows, List.length_append, List.length_singleton, ← hright.numRows]
  show s.builder.numRows + 1 + (if sizeReached then s.builder.numUncompactedRows + 1 else 0) = _ ↔ _
  cases sizeReached with
  | false => simp
  | true =>
    rw [if_pos rfl]
    constructor
    · intro hlen
      omega
    · exact nofun

theorem not_right_step_of_noColumns (hright : s.Right) (hitem : item.entries = [])
    (hcolumns : s.builder.columns.entries = []) : ¬ (s.step lib (.add item sizeReached)).Right := by
  have hnil := TableBlockBuilder.append_noColumns hitem hcolumns
  have hstep : s.step lib (.add item sizeReached) = ⟨s.builder.append item, s.added⟩ := by
    rw [step, TableBlockBuilder.add, TableBlockBuilder.compactIfNeeded, dif_pos hnil]
  rw [hstep]
  intro h
  have hnumRows : s.builder.numRows + 1 = s.added.length := h.numRows
  have hbefore := hright.numRows
  omega

/-- A block keeps the builder right if its rows may stand before the buffered ones. -/
theorem right_step_addBlock_iff (hright : s.Right) (htidy : s.builder.Tidy) (block : ColumnTable V) :
    (s.step lib (.addBlock block)).Right ↔
      block.rows ++ s.builder.bufferedRows = s.builder.bufferedRows ++ block.rows := by
  have hrows := TableBlockBuilder.rows_addBlock htidy block
  have hadded : s.added = s.builder.tables.flatMap ColumnTable.rows ++ s.builder.bufferedRows :=
    hright.rows.symm.trans (TableBlockBuilder.rows_build htidy)
  have hnumRows : (s.builder.addBlock block).numRows = (s.added ++ block.rows).length := by
    show s.builder.numRows + block.numRows = _
    rw [List.length_append, ColumnTable.length_rows, hright.numRows]
  have hiff : (s.step lib (.addBlock block)).Right ↔
    (s.builder.addBlock block).built.rows = s.added ++ block.rows :=
    ⟨fun h => h.rows, fun h => ⟨hnumRows, h⟩⟩
  rw [hiff, hrows, hadded, List.append_assoc, List.append_cancel_left_eq]

/-- One operation keeps a right builder right if and only if it is safe. -/
theorem right_step_iff (hright : s.Right) (htidy : s.builder.Tidy) (op : BuilderOperation V)
    (hfits : Fits lib s.builder op) : (s.step lib op).Right ↔ Safe s.builder op := by
  cases op with
  | add item sizeReached =>
    by_cases h : item.entries ≠ [] ∨ s.builder.columns.entries ≠ []
    · rw [right_step_add_iff hright htidy hfits h]
      exact ⟨fun hsize => ⟨h, hsize⟩, And.right⟩
    · refine iff_of_false ?_ (fun hsafe => h hsafe.1)
      push Not at h
      exact not_right_step_of_noColumns hright h.1 h.2
  | addBlock block => exact right_step_addBlock_iff hright htidy block

variable {op : BuilderOperation V}

theorem tidy_step (htidy : s.builder.Tidy) (hfits : Fits lib s.builder op)
    (hsafe : Safe s.builder op) : (s.step lib op).builder.Tidy := by
  cases op with
  | add item sizeReached =>
    rw [step_add_of_ok hfits hsafe.1]
    exact (TableBlockBuilder.rows_add htidy hfits sizeReached hsafe.1).1
  | addBlock block => exact htidy

/-- What fits with the row or block of an operation fits behind the operation. -/
theorem fits_step (hfits : Fits lib s.builder op) : (s.step lib op).builder.Fits lib := by
  cases op with
  | add item sizeReached =>
    have hadd : (s.step lib (.add item sizeReached)).builder =
      (s.builder.add lib item sizeReached).2 := by
      cases hadd : s.builder.add lib item sizeReached with
      | mk result builder => cases result <;> simp only [step, hadd]
    rw [hadd]
    exact TableBlockBuilder.Fits.compactIfNeeded hfits sizeReached
  | addBlock block => exact hfits

end Building

/-- A library that puts tables one below the other, whatever their columns are. -/
def stackingLibrary (V : Type) : TableLibrary V := ⟨.ok, fun tables => .ok (.concat tables)⟩

end RayTfm.Data
