import RayTfm.Lib.NestedCuts
import RayTfm.Lib.Sorting
import RayTfm.Data.GroupBy
import RayTfm.Data.Split

/-! # Distributed sort

The model of `SortKey` and `SortTaskSpec.sample_boundaries` (`sort_task_spec.py`), of
`find_partition_index` (`util.py`), `_find_partitions_sorted` (`table_block.py`),
`sort_and_partition` (`arrow_block.py`, `pandas_block.py`) and of `generate_sort_fn`
(`planner/sort.py`).

How a block is sorted is up to Arrow or Pandas, which the functions get as `sort`.  `quantiles`
gives the positions `int(q * (len(samples_list) - 1))` for the floats `q` of `np.linspace`.  The
order in which a sort leaves samples whose keys are `NULL_SENTINEL` is not determined, as the
sentinel is less than itself: `nullOrder` gives it. -/

namespace RayTfm.Data

variable {R V F : Type}

/-! ### Sort keys and columns -/

/-- The columns of the blocks: a column of numbers or of other values, the same in all blocks.  Only
numbers can be NaN. -/
structure SortColumns (R V F : Type) where
  cell : R → String → PyValue V
  isNumber : String → Bool
  asFloat : V → F
  isNumber_of_nan : ∀ row col, cell row col = .nan → isNumber col = true

/-- An element of a column in `to_numpy`. -/
def SortColumns.toNumpy (C : SortColumns R V F) (block : List R) (col : String) (row : R) :
    NumpyValue V F :=
  Columns.toNumpy ⟨C.cell, fun _ => C.isNumber, C.asFloat, fun _ => true⟩ block col row

/-- `SortKey`, with the boundaries of the user, if any. -/
structure SortKey (V : Type) [LinearOrder V] where
  columns : List String
  descending : List Bool
  boundaries : List V
  length_descending : descending.length = columns.length
  boundaries_lt : boundaries.Pairwise (· < ·)

/-- The columns with their directions. -/
abbrev SortKey.directed [LinearOrder V] (key : SortKey V) : List (String × Bool) :=
  key.columns.zip key.descending

/-! ### The position of a boundary in a block -/

namespace NumpyValue

/-- `pd.isna`. -/
def isNa : NumpyValue V F → Bool
  | none => true
  | nan => true
  | _ => false

end NumpyValue

section partition
variable [LinearOrder V] [LinearOrder F] (C : SortColumns R V F)

/-- The order of numpy: values of one dtype as they are, others as floats, NaN last. -/
def SortColumns.lt : NumpyValue V F → NumpyValue V F → Bool
  | .value v, .value w => v < w
  | .value v, .float g => C.asFloat v < g
  | .float f, .value w => f < C.asFloat w
  | .float f, .float g => f < g
  | .value _, .nan => true
  | .float _, .nan => true
  | _, _ => false

/-- `np.searchsorted` in an array in ascending order. -/
def SortColumns.searchsorted (right : Bool) (colVals : List (NumpyValue V F)) (v : NumpyValue V F) :
    ℕ :=
  if right then (colVals.takeWhile (fun a => !C.lt v a)).length
  else (colVals.takeWhile (fun a => C.lt a v)).length

/-- The values of a column in a range of rows, without nulls. -/
def SortColumns.colVals (block : List R) (col : String) (left right : ℕ) : List (NumpyValue V F) :=
  let colVals := segment (block.map (C.toNumpy block col)) left right
  if block.any (fun row => C.cell row col matches .none) then colVals.filter (fun a => !a.isNa)
  else if C.isNumber col && colVals.any (· matches .nan) then colVals.filter
    (fun a => !(a matches .nan))
  else colVals

/-- The loop of `find_partition_index`: the range of the rows in which the boundary can be
inserted. -/
def SortColumns.narrow (block : List R) : List ((String × Bool) × NumpyValue V F) → ℕ → ℕ → ℕ × ℕ
  | [], left, right => (left, right)
  | ((col, desc), desired) :: rest, left, right =>
    if left = right then (right, right)
    else
      let colVals := C.colVals block col left right
      match desired with
      | .none => (left + colVals.length, left + colVals.length)
      | desired =>
        if desc then
          SortColumns.narrow block rest
            (left + (colVals.length - C.searchsorted true colVals.reverse desired))
            (left + (colVals.length - C.searchsorted false colVals.reverse desired))
        else
          SortColumns.narrow block rest (left + C.searchsorted false colVals desired)
            (left + C.searchsorted true colVals desired)

/-- `find_partition_index`. -/
def findPartitionIndex (block : List R) (key : SortKey V) (desired : List (NumpyValue V F)) : ℕ :=
  let range := C.narrow block (key.directed.zip desired) 0 block.length
  if key.descending.head? = some true then range.2 else range.1

/-- The positions of the boundaries; `len(None)` raises. -/
def partitionIndices (block : List R) (boundaries : List (Option (List (NumpyValue V F))))
    (key : SortKey V) :
    Except PyError (List ℕ) :=
  boundaries.mapM (fun boundary =>
    match boundary with
    | some desired => .ok (findPartitionIndex C block key desired)
    | none => .error .typeError)

/-- `_find_partitions_sorted`. -/
def findPartitionsSorted (block : List R) (boundaries : List (Option (List (NumpyValue V F))))
    (key : SortKey V) :
    Except PyError (List (List R)) := do
  let bounds ← partitionIndices C block boundaries key
  return slicesAt block (0 :: (bounds ++ [block.length]))

/-- `sort_and_partition`, of a block that is sorted. -/
def partitionSorted (table : List R) (boundaries : List (Option (List (NumpyValue V F))))
    (key : SortKey V) :
    Except PyError (List (List R)) :=
  if table.length = 0 then .ok (List.replicate (boundaries.length + 1) [])
  else if boundaries.length = 0 then .ok [table]
  else findPartitionsSorted C table boundaries key

/-! ### Sampling boundaries -/

/-- The number of rows to sample from each block. -/
def nSamples (numReducers : ℕ) (blocks : List (List R)) : ℕ := numReducers * 10 / blocks.length

/-- An outcome of `sample`: as many rows of the block as asked for, if it has them. -/
structure IsSample (n : ℕ) (block sample : List R) : Prop where
  subperm : sample.Subperm block
  length_eq : sample.length = min n block.length

/-- The samples, each a tuple of its values; a column that is named twice is one array. -/
def samplesList (key : SortKey V) (samples : List R) : List (List (NumpyValue V F)) :=
  samples.map (fun row => key.columns.reverse.dedup.reverse.map (fun col => C.toNumpy samples col row))

/-- The key of a value in a sort, with `NULL_SENTINEL` for the nulls. -/
def NumpyValue.safe : NumpyValue V F → WithTop (V ⊕ₗ F)
  | .value v => (Sum.inlₗ v : V ⊕ₗ F)
  | .float f => (Sum.inrₗ f : V ⊕ₗ F)
  | _ => ⊤

/-- The value of a tuple at a position. -/
def itemAt (i : ℕ) (sample : List (NumpyValue V F)) : NumpyValue V F := (sample[i]?).getD .none

/-- One pass of sorting the samples. -/
def sortPass (nullOrder : ℕ → List (List (NumpyValue V F)) → List (List (NumpyValue V F)))
    (desc : Bool) (i : ℕ)
    (samples : List (List (NumpyValue V F))) : Except PyError (List (List (NumpyValue V F))) :=
  if samples.any (fun sample => decide (sample.length ≤ i)) then .error .indexError
  else
    let values := samples.filter (fun sample => !(itemAt i sample).isNa)
    if desc then .ok (nullOrder i samples ++ sortBy
      (fun sample => OrderDual.toDual (itemAt i sample).safe) values)
    else .ok (sortBy (fun sample => (itemAt i sample).safe) values ++ nullOrder i samples)

/-- The samples sorted by all columns, the last one first. -/
def sortSamples (nullOrder : ℕ → List (List (NumpyValue V F)) → List (List (NumpyValue V F)))
    (key : SortKey V)
    (samples : List (List (NumpyValue V F))) : Except PyError (List (List (NumpyValue V F))) :=
  key.descending.zipIdx.reverse.foldlM
    (fun samples pass => sortPass nullOrder pass.1 pass.2 samples) samples

/-- The formats of the blocks that have rows. -/
def formatsWithRows (formats : List BlockFormat) (blocks : List (List R)) : List BlockFormat :=
  ((formats.zip blocks).filter (fun b => decide (b.2.length ≠ 0))).map Prod.fst

/-- `sample_boundaries`, for what was sampled from each block.  Arrow has no `take` of no rows, and
the builder of the samples asserts that they are of one format. -/
def sampleBoundaries (nullOrder : ℕ → List (List (NumpyValue V F)) → List (List (NumpyValue V F)))
    (quantiles : ℕ → ℕ → List ℕ) (key : SortKey V) (numReducers : ℕ) (formats : List BlockFormat)
    (blocks samples : List (List R)) : Except PyError (List (Option (List (NumpyValue V F)))) :=
  if blocks.length = 0 then .error .zeroDivisionError
  else if nSamples numReducers blocks = 0 ∧ .arrow ∈ formatsWithRows formats blocks then
    .error .notImplementedError
  else if samples.flatten.length = 0 then .ok (List.replicate (numReducers - 1) none)
  else do
    pyAssert (decide ((formatsWithRows formats samples).Pairwise (· = ·)))
    let sorted ← sortSamples nullOrder key (samplesList C key samples.flatten)
    (quantiles sorted.length numReducers).tail.dropLast.mapM (fun i =>
      match sorted[i]? with
      | some sample => .ok (some sample)
      | none => .error .indexError)

/-- The boundaries of the user, for the first column. -/
def userBoundaries (key : SortKey V) : List (Option (List (NumpyValue V F))) :=
  (if key.descending.head? = some true then key.boundaries.reverse else key.boundaries).map
    (fun b => some [.value b])

/-- The boundaries in `generate_sort_fn`: those of the user, or else sampled ones. -/
def sortBoundaries (nullOrder : ℕ → List (List (NumpyValue V F)) → List (List (NumpyValue V F)))
    (quantiles : ℕ → ℕ → List ℕ) (key : SortKey V) (numReducers : ℕ) (formats : List BlockFormat)
    (blocks samples : List (List R)) : Except PyError (List (Option (List (NumpyValue V F)))) :=
  if key.boundaries = [] then
    sampleBoundaries C nullOrder quantiles key numReducers formats blocks samples
  else .ok (userBoundaries key)

/-- `generate_sort_fn`: partition the sorted blocks, and merge what they have of each partition. -/
def sortBlocks (sort : List R → List R)
    (nullOrder : ℕ → List (List (NumpyValue V F)) → List (List (NumpyValue V F)))
    (quantiles : ℕ → ℕ → List ℕ) (key : SortKey V) (numReducers : ℕ) (formats : List BlockFormat)
    (blocks samples : List (List R)) : Except PyError (List (List R)) := do
  let boundaries ← sortBoundaries C nullOrder quantiles key numReducers formats blocks samples
  let parts ← blocks.mapM (fun block => partitionSorted C (sort block) boundaries key)
  return (List.range (boundaries.length + 1)).map
    (fun j => sort (parts.flatMap (fun part => (part[j]?).getD [])))

end partition
end RayTfm.Data
