import RayTfm.Lib.Dict
import RayTfm.Lib.Merging
import RayTfm.Py
import RayTfm.Data.NullKeys

/-! # Aggregation of sorted blocks

The model of `TableBlockAccessor._aggregate` and `_combine_aggregated_blocks` (`table_block.py`),
with the group boundaries that are found in numpy (`block.py`).

A row of an input block is a value of any type whose cells `Columns` gives; an aggregated row is a
dictionary.  All values, of keys and of accumulators, are Python values.  An aggregation is given
the list of key values, also where the code gives it the only one.  What a block gives back of the
rows that it is built of is up to Arrow or Pandas (`BlockRows`). -/

namespace RayTfm.Data

variable {R V F : Type}

/-- What the blocks give of their columns: the cells, whether the dtype of a column is a number, and
the floats that numbers become in a column with `None`. -/
structure Columns (R V F : Type) where
  cell : R → String → PyValue V
  isNumber : List R → String → Bool
  asFloat : V → F
  isFinite : F → Bool

/-- An aggregation. -/
structure AggregateFn (R V : Type) where
  name : String
  init : List (PyValue V) → PyValue V
  accumulateBlock : PyValue V → List R → PyValue V
  merge : PyValue V → PyValue V → PyValue V
  finalize : PyValue V → PyValue V

/-- A row of an aggregated block. -/
abbrev AggregatedRow (V : Type) := Dict String (PyValue V)

/-- What blocks give back of aggregated rows: a block that is built of the rows, and blocks that are
converted to one format (`normalize_block_types`).  Pandas has NaN for `None` in a column with
numbers or NaN. -/
structure BlockRows (V : Type) where
  build : List (AggregatedRow V) → List (AggregatedRow V)
  normalize : List (List (AggregatedRow V)) → List (List (AggregatedRow V))

/-- Arrow tells `None` from NaN, and blocks of one format are not converted. -/
def BlockRows.arrow : BlockRows V := ⟨id, id⟩

/-! ### Group boundaries -/

/-- An element of a numpy array. -/
inductive NumpyValue (V F : Type) where
  | none
  | nan
  | value (v : V)
  | float (f : F)
deriving DecidableEq

namespace Columns
variable (C : Columns R V F)

/-- The key of a row. -/
def key (cols : List String) (row : R) : List (PyValue V) := cols.map (C.cell row)

/-- An element of a column in `to_numpy`: a null of a number column becomes NaN and its numbers
become floats. -/
def toNumpy (block : List R) (col : String) (row : R) : NumpyValue V F :=
  if C.isNumber block col then
    match C.cell row col with
    | .val v => if block.any (fun row => C.cell row col matches .none) then .float (C.asFloat v)
        else .value v
    | _ => .nan
  else
    match C.cell row col with
    | .none => .none
    | .nan => .nan
    | .val v => .value v

/-- `np.isfinite`. -/
def isfinite : NumpyValue V F → Bool
  | .value v => C.isFinite (C.asFloat v)
  | .float f => C.isFinite f
  | _ => false

end Columns

section boundaries
variable [DecidableEq V] [DecidableEq F] (C : Columns R V F)

/-- The operator `!=` of numpy elements. -/
def NumpyValue.ne (a b : NumpyValue V F) : Bool := a matches .nan || b matches .nan || decide (a ≠ b)

/-- Do two neighbours of a column belong to different groups?  Columns whose last element is NaN or
`None` have a comparison of their own. -/
def Columns.differ (block : List R) (col : String) (row row' : R) : Bool :=
  let a := C.toNumpy block col row
  let b := C.toNumpy block col row'
  let last := (block.getLast?).map (C.toNumpy block col)
  if C.isNumber block col && last matches some .nan then a.ne b && (C.isfinite a || C.isfinite b)
  else if !C.isNumber block col && last matches some .none then
    a.ne b && !(a matches .none && b matches .none)
  else a.ne b

/-- `_get_group_boundaries_sorted`. -/
def Columns.groupBoundaries (cols : List String) (block : List R) : List ℕ :=
  if block.isEmpty then []
  else 0 :: ((nonzero (neighbours
    (fun row row' => cols.any (fun col => C.differ block col row row')) block)).map
    (· + 1) ++ [block.length])

/-- `iter_groups`: the groups, each with the key of its first row. -/
def Columns.iterGroups (cols : List String) (block : List R) : List (List (PyValue V) × List R) :=
  if cols = [] then [([], block)]
  else (slicesAt block (C.groupBoundaries cols block)).map
    (fun group => ((group.head?.map (C.key cols)).getD [], group))

end boundaries

/-! ### Aggregated rows -/

/-- `_munge_conflict`. -/
def mungeConflict (name : String) (count : ℕ) : String := s!"{name}_{count + 1}"

/-- The names under which the aggregations are put into a row. -/
def resolveNames (count : String → ℕ) : List String → List String
  | [] => []
  | name :: names =>
    let name := if 0 < count name then mungeConflict name (count name) else name
    name :: resolveNames (Function.update count name (count name + 1)) names

/-- The names of the columns of aggregated rows for the aggregations. -/
def resolvedNames (names : List String) : List String := resolveNames (fun _ => 0) names

/-- A row: the key columns are set first. -/
def buildRow (cols names : List String) (keys accumulators : List (PyValue V)) : AggregatedRow V :=
  Dict.ofList (cols.zip keys ++ names.zip accumulators)

/-- A cell of an aggregated row; all rows have all columns. -/
def AggregatedRow.cell (row : AggregatedRow V) (col : String) : PyValue V :=
  (Dict.get? row col).getD .none

/-- The key of an aggregated row. -/
def AggregatedRow.key (cols : List String) (row : AggregatedRow V) : List (PyValue V) :=
  cols.map row.cell

/-! ### Aggregating and combining -/

/-- The accumulator of a group; a group without rows is skipped. -/
def AggregateFn.accumulated (agg : AggregateFn R V) (keys : List (PyValue V)) (group : List R) :
    PyValue V :=
  if group.isEmpty then agg.init keys else agg.accumulateBlock (agg.init keys) group

/-- The merged accumulator of a group of aggregated rows. -/
def AggregateFn.mergeAll (agg : AggregateFn R V) : List (PyValue V) → PyValue V
  | [] => .none
  | first :: rest => rest.foldl agg.merge first

variable [DecidableEq V] [LinearOrder V] [DecidableEq F]

/-- `_aggregate`. -/
def aggregateBlock (B : BlockRows V) (C : Columns R V F) (cols : List String)
    (aggs : List (AggregateFn R V))
    (block : List R) : List (AggregatedRow V) :=
  B.build ((C.iterGroups cols block).map (fun g =>
    buildRow cols (resolvedNames (aggs.map (·.name))) g.1
      (aggs.map (fun agg => agg.accumulated g.1 g.2))))

/-- The groups of `_combine_aggregated_blocks`: the rows in the order of `heapq.merge`, cut where
the key changes. -/
def combineGroups (cols : List String) (blocks : List (List (AggregatedRow V))) :
    List (List (AggregatedRow V)) :=
  (mergeAll (fun row => safeKey (AggregatedRow.key cols row)) blocks).splitBy
    (fun row row' => keysEqual (AggregatedRow.key cols row') (AggregatedRow.key cols row))

/-- The row of a group. -/
def combineGroup (cols : List String) (aggs : List (AggregateFn R V)) (finalize : Bool)
    (group : List (AggregatedRow V)) : AggregatedRow V :=
  let names := resolvedNames (aggs.map (·.name))
  buildRow cols names ((group.head?.map (AggregatedRow.key cols)).getD [])
    ((aggs.zip names).map (fun agg =>
      let accumulator := agg.1.mergeAll (group.map (fun row => AggregatedRow.cell row agg.2))
      if finalize then agg.1.finalize accumulator else accumulator))

/-- `_combine_aggregated_blocks`. -/
def combineAggregatedBlocks (B : BlockRows V) (cols : List String) (aggs : List (AggregateFn R V))
    (blocks : List (List (AggregatedRow V))) (finalize : Bool) :
    Except PyError (List (AggregatedRow V)) :=
  if blocks.isEmpty then .error .indexError
  else .ok (B.build ((combineGroups cols (B.normalize blocks)).map (combineGroup cols aggs finalize)))

end RayTfm.Data
