import RayTfm.Logical.Expressions

/-! # Logical plans

The model of the logical operators (`logical/operators/`) and of `LogicalOperator._apply_transform`.
A plan is the tree of its operators, each over its inputs.  `S` is the type of datasources.  Of an
operator the model keeps what the optimizer rules read or change; names of functions stand for the
functions, and the operators that exchange rows between all blocks are one case with their
arguments.

A plan is given its meaning on ordered lists of rows (`Plan.rows`).  What functions, projections and
exchanges do is a parameter (`Meaning`).  `Plan.rowsUnder` is the same with the blocks in view: an
operator with a per-block limit drops rows of each task, so its result depends on the layout of the
tasks and blocks.

A `Project` expands its star when it is built over a known schema.  The rules modelled here never
change the schema below a `Project`, so the expressions of a plan are taken as they are after
that. -/

namespace RayTfm.Logical

/-! ### Operators -/

/-- The operators that become a `MapOperator`, other than the reads. -/
inductive MapOp (V : Type) where
  | project (exprs : List (Expr V))
  | mapBatches (fn : String) (canModifyNumRows : Bool) (minRowsPerBundledInput : Option ℕ)
  | mapRows (fn : String)
  | filter (predicateExpr : Expr V)
  | filterFn (fn : String)
  | flatMap (fn : String)
  | streamingRepartition (targetNumRowsPerBlock : ℕ) (strict : Bool)
deriving DecidableEq

/-- `AggregateFn`: an `AggregateFnV2` says which column it reads. -/
inductive AggregateFn where
  | generic (name : String)
  | v2 (name : String) (targetColumn : Option String)
deriving DecidableEq, Repr

/-- The operators that become an `AllToAllOperator`. -/
inductive AllToAll where
  | repartition (numOutputs : Option ℕ) (shuffle : Bool) (keys : Option (List String)) (sort : Bool)
  | randomShuffle (seed : Option ℕ)
  | randomizeBlocks (seed : Option ℕ)
  | sort (columns : List String) (descending : List Bool)
  | aggregate (key : List String) (aggs : List AggregateFn)
deriving DecidableEq, Repr

/-- `JoinType`. -/
inductive JoinType where
  | inner | leftOuter | rightOuter | fullOuter | leftSemi | rightSemi | leftAnti | rightAnti
deriving DecidableEq, Repr

/-- The arguments of a `Join`. -/
structure JoinSpec where
  joinType : JoinType
  leftKeyColumns : List String
  rightKeyColumns : List String
  leftColumnsSuffix : Option String
  rightColumnsSuffix : Option String
deriving DecidableEq, Repr

/-- A logical plan. -/
inductive Plan (V S : Type) where
  | read (datasource : S) (perBlockLimit : Option ℕ)
  | map (op : MapOp V) (perBlockLimit : Option ℕ) (input : Plan V S)
  | limit (n : ℕ) (input : Plan V S)
  | download (uriColumnNames outputBytesColumnNames : List String) (input : Plan V S)
  | allToAll (op : AllToAll) (input : Plan V S)
  | union (inputs : List (Plan V S))
  | join (spec : JoinSpec) (left right : Plan V S)

variable {V S R : Type}

/-- `Project.is_idempotent`. -/
def isIdempotentProjection (exprs : List (Expr V)) : Bool := exprs.all Expr.isIdempotent

/-- `can_modify_num_rows`. -/
def MapOp.canModifyNumRows : MapOp V → Bool
  | .project _ => false
  | .mapBatches _ canModifyNumRows _ => canModifyNumRows
  | .mapRows _ => false
  | .filter _ => true
  | .filterFn _ => true
  | .flatMap _ => true
  | .streamingRepartition _ _ => false

/-- `min_rows_per_bundled_input`. -/
def MapOp.minRowsPerBundledInput : MapOp V → Option ℕ
  | .mapBatches _ _ minRows => minRows
  | _ => none

namespace Plan

@[induction_eliminator]
theorem inductionOn {P : Plan V S → Prop}
    (read : ∀ datasource perBlockLimit, P (.read datasource perBlockLimit))
    (map : ∀ op perBlockLimit input, P input → P (.map op perBlockLimit input))
    (limit : ∀ n input, P input → P (.limit n input))
    (download : ∀ uris outputs input, P input → P (.download uris outputs input))
    (allToAll : ∀ op input, P input → P (.allToAll op input))
    (union : ∀ inputs, (∀ input ∈ inputs, P input) → P (.union inputs))
    (join : ∀ spec left right, P left → P right → P (.join spec left right)) (p : Plan V S) : P p :=
  @Plan.rec V S P (fun inputs => ∀ input ∈ inputs, P input)
    read map limit download allToAll union join
    (by simp)
    (fun _ _ hhead htail => List.forall_mem_cons.mpr ⟨hhead, htail⟩) p

mutual

/-- `_apply_transform`: the transformation goes to every operator, the inputs first. -/
def applyTransform (transform : Plan V S → Plan V S) : Plan V S → Plan V S
  | .read datasource perBlockLimit => transform (.read datasource perBlockLimit)
  | .map op perBlockLimit input => transform (.map op perBlockLimit (input.applyTransform transform))
  | .limit n input => transform (.limit n (input.applyTransform transform))
  | .download uris outputs input => transform (.download uris outputs (input.applyTransform transform))
  | .allToAll op input => transform (.allToAll op (input.applyTransform transform))
  | .union inputs => transform (.union (applyTransformAll transform inputs))
  | .join spec left right =>
    transform (.join spec (left.applyTransform transform) (right.applyTransform transform))

def applyTransformAll (transform : Plan V S → Plan V S) : List (Plan V S) → List (Plan V S)
  | [] => []
  | p :: ps => p.applyTransform transform :: applyTransformAll transform ps

end

theorem applyTransformAll_eq (f : Plan V S → Plan V S) (ps : List (Plan V S)) :
    applyTransformAll f ps = ps.map (applyTransform f) := by
  induction ps with
  | nil => rfl
  | cons p ps ih => rw [applyTransformAll, ih, List.map_cons]

end Plan

/-! ### Rows -/

/-- What the operators do with rows.  A projection or a filter whose expressions are not idempotent
sees all rows: its values depend on their positions. -/
structure Meaning (V S R : Type) where
  source : S → List R
  projectRow : List (Expr V) → R → R
  projectRows : List (Expr V) → List R → List R
  keeps : Expr V → R → Bool
  filterRows : Expr V → List R → List R
  mapRow : String → R → R
  mapBatches : String → List R → List R
  keepsFn : String → R → Bool
  flatMapRow : String → R → List R
  downloadRow : List String → List String → R → R
  allToAll : AllToAll → List R → List R
  join : JoinSpec → List R → List R → List R

/-- The rows of a map operator. -/
def MapOp.rows (M : Meaning V S R) : MapOp V → List R → List R
  | .project exprs, rows =>
    if isIdempotentProjection exprs then rows.map (M.projectRow exprs) else M.projectRows exprs rows
  | .mapBatches fn canModifyNumRows _, rows =>
    if canModifyNumRows then M.mapBatches fn rows else rows.map (M.mapRow fn)
  | .mapRows fn, rows => rows.map (M.mapRow fn)
  | .filter predicateExpr, rows =>
    if predicateExpr.isIdempotent then rows.filter (M.keeps predicateExpr)
    else M.filterRows predicateExpr rows
  | .filterFn fn, rows => rows.filter (M.keepsFn fn)
  | .flatMap fn, rows => rows.flatMap (M.flatMapRow fn)
  | .streamingRepartition _ _, rows => rows

namespace Plan

mutual

/-- The rows of a plan, without per-block limits. -/
def rows (M : Meaning V S R) : Plan V S → List R
  | .read datasource _ => M.source datasource
  | .map op _ input => op.rows M (input.rows M)
  | .limit n input => (input.rows M).take n
  | .download uris outputs input => (input.rows M).map (M.downloadRow uris outputs)
  | .allToAll op input => M.allToAll op (input.rows M)
  | .union inputs => rowsAll M inputs
  | .join spec left right => M.join spec (left.rows M) (right.rows M)

def rowsAll (M : Meaning V S R) : List (Plan V S) → List R
  | [] => []
  | p :: ps => p.rows M ++ rowsAll M ps

end

theorem rowsAll_eq (M : Meaning V S R) (ps : List (Plan V S)) : rowsAll M ps = ps.flatMap (rows M) := by
  induction ps with
  | nil => rfl
  | cons p ps ih => rw [rowsAll, ih, List.flatMap_cons]

/-- A transformation that keeps the rows of each operator keeps those of the plan. -/
theorem rows_applyTransform {M : Meaning V S R} {f : Plan V S → Plan V S}
    (hf : ∀ p, (f p).rows M = p.rows M) (p : Plan V S) : (p.applyTransform f).rows M = p.rows M := by
  induction p with
  | read datasource perBlockLimit => rw [applyTransform, hf]
  | map op perBlockLimit input ih => rw [applyTransform, hf, rows, rows, ih]
  | limit n input ih => rw [applyTransform, hf, rows, rows, ih]
  | download uris outputs input ih => rw [applyTransform, hf, rows, rows, ih]
  | allToAll op input ih => rw [applyTransform, hf, rows, rows, ih]
  | union inputs ih =>
    rw [applyTransform, hf, rows, rows, applyTransformAll_eq, rowsAll_eq, rowsAll_eq, List.flatMap_map]
    exact List.flatMap_congr ih
  | join spec left right ihl ihr => rw [applyTransform, hf, rows, rows, ihl, ihr]

end Plan

/-! ### Rows in tasks and blocks -/

/-- The loop of `_per_block_limit_fn` and of `_iter_sliced_blocks`: the blocks of one task, cut
after the first rows. -/
def perBlockLimitFn (perBlockLimit : ℕ) : ℕ → List (List R) → List (List R)
  | _, [] => []
  | processedRows, block :: blocks =>
    if processedRows ≥ perBlockLimit then []
    else if processedRows + block.length ≤ perBlockLimit then
      block :: perBlockLimitFn perBlockLimit (processedRows + block.length) blocks
    else
      let remainingRows := perBlockLimit - processedRows
      block.take remainingRows :: perBlockLimitFn perBlockLimit (processedRows + remainingRows) blocks

/-- How the rows that an operator puts out are distributed: the tasks in order, each with its
blocks. It may depend on the whole plan up to the operator and on the rows. -/
structure Layout (V S R : Type) where
  tasks : Plan V S → List R → List (List (List R))
  flatten_tasks : ∀ p rows, (tasks p rows).flatten.flatten = rows

/-- The rows that the tasks of an operator put out under its per-block limit. -/
def Layout.limitTasks (L : Layout V S R) (p : Plan V S) (perBlockLimit : Option ℕ) (rows : List R) :
    List R :=
  match perBlockLimit with
  | none => rows
  | some limit => ((L.tasks p rows).map (perBlockLimitFn limit 0)).flatten.flatten

/-- The map operators that are planned with their per-block limit, see `plan_udf_map_op`; the
planning of projections, filters and repartitions leaves it out. -/
def MapOp.plannedLimit : MapOp V → Option ℕ → Option ℕ
  | .mapBatches _ _ _, perBlockLimit => perBlockLimit
  | .mapRows _, perBlockLimit => perBlockLimit
  | .flatMap _, perBlockLimit => perBlockLimit
  | _, _ => none

namespace Plan

mutual

/-- The rows of a plan that runs under a layout. -/
def rowsUnder (M : Meaning V S R) (L : Layout V S R) : Plan V S → List R
  | .read datasource perBlockLimit =>
    L.limitTasks (.read datasource perBlockLimit) perBlockLimit (M.source datasource)
  | .map op perBlockLimit input =>
    L.limitTasks (.map op perBlockLimit input) (op.plannedLimit perBlockLimit)
      (op.rows M (input.rowsUnder M L))
  | .limit n input => (input.rowsUnder M L).take n
  | .download uris outputs input => (input.rowsUnder M L).map (M.downloadRow uris outputs)
  | .allToAll op input => M.allToAll op (input.rowsUnder M L)
  | .union inputs => rowsUnderAll M L inputs
  | .join spec left right => M.join spec (left.rowsUnder M L) (right.rowsUnder M L)

def rowsUnderAll (M : Meaning V S R) (L : Layout V S R) : List (Plan V S) → List R
  | [] => []
  | p :: ps => p.rowsUnder M L ++ rowsUnderAll M L ps

end

theorem rowsUnderAll_eq (M : Meaning V S R) (L : Layout V S R) (ps : List (Plan V S)) :
    rowsUnderAll M L ps = ps.flatMap (rowsUnder M L) := by
  induction ps with
  | nil => rfl
  | cons p ps ih => rw [rowsUnderAll, ih, List.flatMap_cons]

end Plan

theorem flatten_perBlockLimitFn {limit processedRows : ℕ} {blocks : List (List R)} :
    (perBlockLimitFn limit processedRows blocks).flatten = blocks.flatten.take
      (limit - processedRows) := by
  induction blocks generalizing processedRows with
  | nil => simp [perBlockLimitFn]
  | cons block blocks ih =>
    rw [perBlockLimitFn]
    split_ifs with hdone hfits
    · rw [show limit - processedRows = 0 by omega, List.take_zero, List.flatten_nil]
    · rw [List.flatten_cons, ih, List.flatten_cons, List.take_append,
        List.take_of_length_le (by omega : block.length ≤ limit - processedRows)]
      congr 2
      omega
    · rw [List.flatten_cons, ih, List.flatten_cons, List.take_append]
      congr 2
      omega

/-- Dropping rows beyond a bound in each of several lists keeps the first rows of all. -/
theorem take_flatten_map_take {n m : ℕ} (hnm : n ≤ m) (l : List (List R)) :
    (l.map (List.take m)).flatten.take n = l.flatten.take n := by
  induction l generalizing n with
  | nil => rfl
  | cons a l ih =>
    rw [List.map_cons, List.flatten_cons, List.flatten_cons, List.take_append, List.take_append,
      List.take_take, min_eq_left hnm, List.length_take]
    by_cases ham : a.length ≤ m
    · rw [min_eq_right ham, ih (by omega)]
    · rw [min_eq_left (by omega), show n - m = 0 by omega, show n - a.length = 0 by omega,
        List.take_zero, List.take_zero]

theorem Layout.take_limitTasks (L : Layout V S R) {p : Plan V S} {perBlockLimit : Option ℕ} {n : ℕ}
    (h : ∀ m ∈ perBlockLimit, n ≤ m) (rows : List R) :
    (L.limitTasks p perBlockLimit rows).take n = rows.take n := by
  cases perBlockLimit with
  | none => rfl
  | some m =>
    have htask : List.flatten ∘ perBlockLimitFn m 0 = List.take m ∘
      (List.flatten : List (List R) → List R) := by
      funext task
      simp only [Function.comp_apply, flatten_perBlockLimitFn, Nat.sub_zero]
    rw [limitTasks, List.flatten_flatten, List.map_map, htask, ← List.map_map,
      take_flatten_map_take (h m rfl), ← List.flatten_flatten, L.flatten_tasks]

end RayTfm.Logical
