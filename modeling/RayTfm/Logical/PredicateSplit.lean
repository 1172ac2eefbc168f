import RayTfm.Logical.Expressions

/-! # Filters pushed into reads

The model of the first case of `_try_push_down_predicate` in `logical/rules/predicate_pushdown.py`,
of `ReadFiles.apply_predicate` and of `_split_predicate_by_columns`.  A predicate is split twice
along its top-level `AND` chain: what the scanner cannot evaluate stays in a filter above the read,
and of the rest the conjuncts over data columns go to the scan, those over partition columns to the
pruning of files, and those over both to one more filter.

Both splits keep the conjuncts (`splitByConvertibility_spec`, `splitPredicateByColumns_spec`), so
every row passes all parts or fails with the predicate.  This carries over to the plans so long as
the values of the predicate depend on the row alone.  An increasing id or a random number depends on
the rows that the filter sees, and a filter left above the read no longer sees all of them:
`pushIntoRead_keeps_rows_iff`. -/

namespace RayTfm.Logical

variable {V C : Type}

/-! ### The two splits -/

/-- The keys of `_ARROW_EXPR_OPS_MAP`. -/
def arrowExprOps : List Operation :=
  [.add, .sub, .mul, .div, .mod, .floordiv, .gt, .lt, .ge, .le, .eq, .ne, .and, .or, .not, .isNull,
    .isNotNull, .isIn, .notIn]

namespace Expr

def isLiteral : Expr V → Bool
  | .literal _ => true
  | _ => false

mutual

/-- `_PyArrowConvertibilityVisitor`; the UDFs that are pyarrow compute functions are given. -/
def isPyarrowConvertible (pyarrowUdf : String → Bool) : Expr V → Bool
  | .column _ | .literal _ => true
  | .aliased expr _ _ => expr.isPyarrowConvertible pyarrowUdf
  | .binary op left right =>
    if op = .isIn ∨ op = .notIn then right.isLiteral && left.isPyarrowConvertible pyarrowUdf
    else decide (op ∈ arrowExprOps) && left.isPyarrowConvertible pyarrowUdf &&
      right.isPyarrowConvertible pyarrowUdf
  | .unary op operand => decide (op ∈ arrowExprOps) && operand.isPyarrowConvertible pyarrowUdf
  | .udf fn args => pyarrowUdf fn && isPyarrowConvertibleAll pyarrowUdf args
  | .download _ | .star | .synthetic _ => false

def isPyarrowConvertibleAll (pyarrowUdf : String → Bool) : List (Expr V) → Bool
  | [] => true
  | e :: es => e.isPyarrowConvertible pyarrowUdf && isPyarrowConvertibleAll pyarrowUdf es

end

/-- The conjuncts of the top-level `AND` chain. -/
def conjuncts : Expr V → List (Expr V)
  | .binary .and left right => left.conjuncts ++ right.conjuncts
  | e => [e]

end Expr

/-- `_ConvertibilitySplit`. -/
structure ConvertibilitySplit (V : Type) where
  convertible : Option (Expr V)
  residual : Option (Expr V)

/-- `_combine_with_and`. -/
def combineWithAnd : Option (Expr V) → Option (Expr V) → Option (Expr V)
  | some left, some right => some (.binary .and left right)
  | some left, none => some left
  | none, right => right

/-- `_split_by_convertibility`. -/
def splitByConvertibility (pyarrowUdf : String → Bool) : Expr V → ConvertibilitySplit V
  | .binary .and l r =>
    let left := splitByConvertibility pyarrowUdf l
    let right := splitByConvertibility pyarrowUdf r
    ⟨combineWithAnd left.convertible right.convertible, combineWithAnd left.residual right.residual⟩
  | predicate =>
    if predicate.isPyarrowConvertible pyarrowUdf then ⟨some predicate, none⟩ else ⟨none, some predicate⟩

/-- `_SplitPredicateResult`. -/
structure SplitPredicateResult (V : Type) where
  dataPredicate : Option (Expr V)
  partitionPredicate : Option (Expr V)
  residualPredicate : Option (Expr V)

/-- `combine_predicates`; an expression is never false as a Python condition. -/
def combinePredicates (left right : Option (Expr V)) : Option (Expr V) :=
  match left, right with
  | some left, some right => some (.binary .and left right)
  | _, _ => left.or right

/-- `_split_predicate_by_columns`. -/
def splitPredicateByColumns (partitionColumns : List String) (predicate : Expr V) :
    SplitPredicateResult V :=
  let referencedCols := predicate.columnRefs
  let dataCols := referencedCols.filter (· ∉ partitionColumns)
  let partitionColsInPredicate := referencedCols.filter (· ∈ partitionColumns)
  if partitionColsInPredicate.isEmpty then ⟨some predicate, none, none⟩
  else if dataCols.isEmpty then ⟨none, some predicate, none⟩
  else
    match predicate with
    | .binary .and l r =>
      let leftResult := splitPredicateByColumns partitionColumns l
      let rightResult := splitPredicateByColumns partitionColumns r
      ⟨combinePredicates leftResult.dataPredicate rightResult.dataPredicate,
        combinePredicates leftResult.partitionPredicate rightResult.partitionPredicate,
        combinePredicates leftResult.residualPredicate rightResult.residualPredicate⟩
    | predicate => ⟨none, none, some predicate⟩

/-! ### The rule -/

/-- `Partitioning`, of which the rule reads the names of the columns. -/
structure Partitioning where
  fieldNames : Option (List String)
deriving DecidableEq, Repr

/-- `ArrowFileScanner`, as far as filters are concerned. -/
structure ArrowFileScanner (V : Type) where
  predicate : Option (Expr V)
  partitionPredicate : Option (Expr V)
  partitioning : Option Partitioning

namespace ArrowFileScanner

/-- `partition_columns`. -/
def partitionColumns (s : ArrowFileScanner V) : List String :=
  match s.partitioning with
  | none => []
  | some partitioning => partitioning.fieldNames.getD []

/-- `push_filters`: the new scanner and the residual. -/
def pushFilters (s : ArrowFileScanner V) (predicate : Expr V) : ArrowFileScanner V × Option (Expr V) :=
  let combined :=
    match s.predicate with
    | some current => .binary .and current predicate
    | none => predicate
  ({ s with predicate := some combined }, none)

/-- `prune_partitions`. -/
def prunePartitions (s : ArrowFileScanner V) (predicate : Expr V) : ArrowFileScanner V :=
  let combined :=
    match s.partitionPredicate with
    | some current => .binary .and current predicate
    | none => predicate
  { s with partitionPredicate := some combined }

end ArrowFileScanner

/-- A read with filters above it. -/
inductive ReadPlan (V : Type) where
  | readFiles (scanner : ArrowFileScanner V)
  | filter (predicateExpr : Expr V) (input : ReadPlan V)

/-- `ReadFiles.apply_predicate`; `none` is the operator itself, unchanged. -/
def applyPredicate (scanner : ArrowFileScanner V) (predicateExpr : Expr V) : Option (ReadPlan V) :=
  let partitionCols := scanner.partitionColumns
  if partitionCols.isEmpty then some (.readFiles (scanner.pushFilters predicateExpr).1)
  else
    let split := splitPredicateByColumns partitionCols predicateExpr
    if split.dataPredicate.isNone ∧ split.partitionPredicate.isNone then none
    else
      let newScanner :=
        match split.partitionPredicate with
        | some partitionPredicate => scanner.prunePartitions partitionPredicate
        | none => scanner
      let newScanner :=
        match split.dataPredicate with
        | some dataPredicate => (newScanner.pushFilters dataPredicate).1
        | none => newScanner
      match split.residualPredicate with
      | none => some (.readFiles newScanner)
      | some residualPredicate => some (.filter residualPredicate (.readFiles newScanner))

/-- `_try_push_down_predicate` on a filter over a read. -/
def pushIntoRead (pyarrowUdf : String → Bool) (predicateExpr : Expr V) (scanner : ArrowFileScanner V) :
    ReadPlan V :=
  let filterOp : ReadPlan V := .filter predicateExpr (.readFiles scanner)
  let split := splitByConvertibility pyarrowUdf predicateExpr
  match split.convertible with
  | none => filterOp
  | some convertible =>
    match applyPredicate scanner convertible with
    | none => filterOp
    | some resultOp =>
      match split.residual with
      | none => resultOp
      | some residual => .filter residual resultOp

/-! ### Rows -/

/-- `and_kleene`, on truth values with `none` for null. -/
def kleeneAnd : Option Bool → Option Bool → Option Bool
  | some false, _ => some false
  | _, some false => some false
  | some true, some true => some true
  | _, _ => none

/-- The operations on the cells of a row.  `truth` is the truth value of a boolean cell.  An
increasing id, a random number or a uuid depends on the position of the row among those that the
operator sees. -/
structure SqlKernels (V C : Type) extends Kernels V C where
  truth : C → Option (Option Bool)
  syntheticAt : ℕ → Synthetic → Except PyError C
  and_kleene : ∀ a b s t, truth a = some s → truth b = some t →
    ∃ c, binary .and a b = .ok c ∧ truth c = some (kleeneAnd s t)
  and_boolean : ∀ a b c, binary .and a b = .ok c → (truth a).isSome ∧ (truth b).isSome

namespace SqlKernels

/-- The operations at a position of the rows that a filter sees. -/
def atPosition (K : SqlKernels V C) (position : ℕ) : Kernels V C :=
  { K.toKernels with synthetic := K.syntheticAt position }

/-- The operations of the scanner: what has no pyarrow expression raises. -/
def scanner (K : SqlKernels V C) (pyarrowUdf : String → Bool) : Kernels V C :=
  { K.toKernels with
    udf := fun fn args => if pyarrowUdf fn then K.udf fn args else .error .typeError
    synthetic := fun _ => .error .typeError }

theorem atPosition_binary (K : SqlKernels V C) (position : ℕ) :
    (K.atPosition position).binary = K.binary := rfl

theorem scanner_binary (K : SqlKernels V C) (pyarrowUdf : String → Bool) :
    (K.scanner pyarrowUdf).binary = K.binary := rfl

end SqlKernels

section rows
variable (K : SqlKernels V C)

/-- The truth value of a predicate on a row, if it has one; the operations may be those of a
position or those of the scanner. -/
def truthOf (kernels : Kernels V C) (row : Dict String C) (predicate : Expr V) : Option (Option Bool) :=
  (evalExpr kernels row.get? predicate).toOption.bind K.truth

/-- A row passes a predicate that is true: neither false nor null. -/
def passes (kernels : Kernels V C) (row : Dict String C) (predicate : Expr V) : Bool :=
  decide (truthOf K kernels row predicate = some (some true))

/-- The mask of a filter at one row; a cell that is not boolean is no mask. -/
def maskAt (kernels : Kernels V C) (row : Dict String C) (predicate : Expr V) :
    Except PyError Bool := do
  let cell ← evalExpr kernels row.get? predicate
  match K.truth cell with
  | none => .error .typeError
  | some t => .ok (decide (t = some true))

/-- The rows whose mask is true, from a position on. -/
def filterAt (mask : ℕ → Dict String C → Except PyError Bool) :
    ℕ → List (Dict String C) → Except PyError (List (Dict String C))
  | _, [] => .ok []
  | position, row :: rows => do
      let keep ← mask position row
      let rest ← filterAt mask (position + 1) rows
      .ok (if keep then row :: rest else rest)

/-- A predicate that is pushed to the scanner, applied to the rows. -/
def scanWith (pyarrowUdf : String → Bool) (predicate : Option (Expr V)) (rows : List (Dict String C)) :
    Except PyError (List (Dict String C)) :=
  match predicate with
  | none => .ok rows
  | some predicate => filterAt (fun _ row => maskAt K (K.scanner pyarrowUdf) row predicate) 0 rows

/-- The rows of a plan over the rows of the files; the scanner applies what was pushed to it. -/
def ReadPlan.rows (pyarrowUdf : String → Bool) (table : List (Dict String C)) :
    ReadPlan V → Except PyError (List (Dict String C))
  | .readFiles scanner => do
      let rows ← scanWith K pyarrowUdf scanner.partitionPredicate table
      scanWith K pyarrowUdf scanner.predicate rows
  | .filter predicateExpr input => do
      let rows ← input.rows pyarrowUdf table
      filterAt (fun position row => maskAt K (K.atPosition position) row predicateExpr) 0 rows

end rows

/-! ### Conjunctions -/

theorem kleeneAnd_eq_true {s t : Option Bool} :
    kleeneAnd s t = some true ↔ s = some true ∧ t = some true := by
  cases s with
  | none => cases t with
    | none => simp [kleeneAnd]
    | some b => cases b <;> simp [kleeneAnd]
  | some a => cases t with
    | none => cases a <;> simp [kleeneAnd]
    | some b => cases a <;> cases b <;> simp [kleeneAnd]

section conjunctions
variable {K : SqlKernels V C} {kernels : Kernels V C} {row : Dict String C}

theorem truthOf_and (hbinary : kernels.binary = K.binary) (left right : Expr V) :
    truthOf K kernels row (.binary .and left right) =
      (truthOf K kernels row left).bind (fun s => (truthOf K kernels row right).map (kleeneAnd s)) := by
  unfold truthOf
  rw [evalExpr]
  cases hleft : evalExpr kernels row.get? left with
  | error e => rfl
  | ok a =>
    cases hright : evalExpr kernels row.get? right with
    | error e =>
      show none = (K.truth a).bind (fun s => none)
      cases K.truth a <;> rfl
    | ok b =>
      show (kernels.binary .and a b).toOption.bind K.truth =
        (K.truth a).bind (fun s => (K.truth b).map (kleeneAnd s))
      rw [hbinary]
      cases hand : K.binary .and a b with
      | ok c =>
        obtain ⟨ha, hb⟩ := K.and_boolean a b c hand
        obtain ⟨s, hs⟩ := Option.isSome_iff_exists.mp ha
        obtain ⟨t, ht⟩ := Option.isSome_iff_exists.mp hb
        obtain ⟨c', hc', htruth⟩ := K.and_kleene a b s t hs ht
        rw [hand] at hc'
        cases hc'
        rw [hs, ht]
        exact htruth
      | error e =>
        -- the sides are not both boolean
        cases hs : K.truth a with
        | none => rfl
        | some s =>
          cases ht : K.truth b with
          | none => rfl
          | some t =>
            obtain ⟨c', hc', -⟩ := K.and_kleene a b s t hs ht
            rw [hand] at hc'
            cases hc'

theorem passes_and (hbinary : kernels.binary = K.binary) (left right : Expr V) :
    passes K kernels row (.binary .and left right) =
      (passes K kernels row left && passes K kernels row right) := by
  unfold passes
  rw [truthOf_and hbinary, ← Bool.decide_and, decide_eq_decide]
  cases truthOf K kernels row left with
  | none => simp
  | some s =>
    cases truthOf K kernels row right with
    | none => simp
    | some t => simp [kleeneAnd_eq_true]

theorem isSome_truthOf_and (hbinary : kernels.binary = K.binary) (left right : Expr V) :
    (truthOf K kernels row (.binary .and left right)).isSome =
      ((truthOf K kernels row left).isSome && (truthOf K kernels row right).isSome) := by
  rw [truthOf_and hbinary]
  cases truthOf K kernels row left with
  | none => rfl
  | some s => simp

end conjunctions

theorem evalArgs_congr_kernels {K K' : Kernels V C} {columns columns' : String → Option C}
    {es : List (Expr V)} (h : ∀ e ∈ es, evalExpr K columns e = evalExpr K' columns' e) :
    evalArgs K columns es = evalArgs K' columns' es := by
  induction es with
  | nil => rfl
  | cons e es ih =>
    rw [evalArgs, evalArgs, h e List.mem_cons_self, ih (fun e he => h e (.tail _ he))]

namespace Expr

theorem isPyarrowConvertibleAll_eq (pyarrowUdf : String → Bool) (es : List (Expr V)) :
    isPyarrowConvertibleAll pyarrowUdf es = es.all (isPyarrowConvertible pyarrowUdf) := by
  induction es with
  | nil => rfl
  | cons e es ih => rw [isPyarrowConvertibleAll, ih, List.all_cons]

/-- Not a conjunction. -/
def IsConjunct (e : Expr V) : Prop := ∀ left right, e ≠ .binary .and left right

/-- Induction along the top-level `AND` chain. -/
theorem conjunctsInduction {P : Expr V → Prop}
    (and : ∀ left right, P left → P right → P (.binary .and left right))
    (conjunct : ∀ e, IsConjunct e → P e) (e : Expr V) : P e := by
  induction e with
  | binary op left right ihl ihr =>
    by_cases hop : op = .and
    · rw [hop]
      exact and left right ihl ihr
    · refine conjunct _ (fun l r heq => hop ?_)
      cases heq
      rfl
  | _ => exact conjunct _ nofun

theorem IsConjunct.conjuncts_eq {e : Expr V} (h : IsConjunct e) : e.conjuncts = [e] := by
  unfold conjuncts
  split
  · exact absurd rfl (h _ _)
  · rfl

/-- What the conjunction takes from its sides is so for the conjuncts together. -/
theorem eq_all_conjuncts {f : Expr V → Bool}
    (hand : ∀ left right, f (.binary .and left right) = (f left && f right)) (e : Expr V) :
    f e = e.conjuncts.all f := by
  induction e using conjunctsInduction with
  | and left right ihl ihr => rw [conjuncts, hand, List.all_append, ihl, ihr]
  | conjunct e he => rw [he.conjuncts_eq, List.all_cons, List.all_nil, Bool.and_true]

theorem conjuncts_ne_nil (e : Expr V) : e.conjuncts ≠ [] := by
  induction e using conjunctsInduction with
  | and left right ihl _ =>
    rw [conjuncts]
    exact List.append_ne_nil_of_left_ne_nil ihl _
  | conjunct e he =>
    rw [he.conjuncts_eq]
    exact List.cons_ne_nil _ _

theorem columnRefs_conjuncts (e : Expr V) : e.columnRefs = e.conjuncts.flatMap columnRefs := by
  induction e using conjunctsInduction with
  | and left right ihl ihr => rw [conjuncts, columnRefs, List.flatMap_append, ← ihl, ← ihr]
  | conjunct e he => rw [he.conjuncts_eq, List.flatMap_singleton]

theorem isPyarrowConvertible_and (pyarrowUdf : String → Bool) (left right : Expr V) :
    (Expr.binary .and left right).isPyarrowConvertible pyarrowUdf =
      (left.isPyarrowConvertible pyarrowUdf && right.isPyarrowConvertible pyarrowUdf) := by
  rw [isPyarrowConvertible, if_neg (by simp)]
  rfl

end Expr

/-- The conjuncts of a part of a split. -/
def partConjuncts (part : Option (Expr V)) : List (Expr V) := part.elim [] Expr.conjuncts

@[simp] theorem partConjuncts_none : partConjuncts (none : Option (Expr V)) = [] := rfl

@[simp] theorem partConjuncts_some (e : Expr V) : partConjuncts (some e) = e.conjuncts := rfl

theorem partConjuncts_eq_nil {part : Option (Expr V)} : partConjuncts part = [] ↔ part = none := by
  cases part with
  | none => simp
  | some e => simp [e.conjuncts_ne_nil]

theorem partConjuncts_combineWithAnd (left right : Option (Expr V)) :
    partConjuncts (combineWithAnd left right) = partConjuncts left ++ partConjuncts right := by
  cases left with
  | none => rfl
  | some l =>
    cases right with
    | none => exact (List.append_nil _).symm
    | some r => rfl

theorem combinePredicates_eq (left right : Option (Expr V)) :
    combinePredicates left right = combineWithAnd left right := by
  cases left <;> cases right <;> rfl

/-! ### What the splits keep -/

/-- The convertible conjuncts on one side and the others on the other, in order. -/
theorem splitByConvertibility_spec (pyarrowUdf : String → Bool) (predicate : Expr V) :
    partConjuncts (splitByConvertibility pyarrowUdf predicate).convertible =
        predicate.conjuncts.filter (Expr.isPyarrowConvertible pyarrowUdf) ∧
      partConjuncts (splitByConvertibility pyarrowUdf predicate).residual =
        predicate.conjuncts.filter (fun q => !q.isPyarrowConvertible pyarrowUdf) := by
  induction predicate using Expr.conjunctsInduction with
  | and left right ihl ihr =>
    rw [splitByConvertibility, Expr.conjuncts, List.filter_append, List.filter_append, ← ihl.1,
      ← ihl.2, ← ihr.1, ← ihr.2, ← partConjuncts_combineWithAnd, ← partConjuncts_combineWithAnd]
    exact ⟨rfl, rfl⟩
  | conjunct e he =>
    have hsplit : splitByConvertibility pyarrowUdf e =
        if e.isPyarrowConvertible pyarrowUdf then ⟨some e, none⟩ else ⟨none, some e⟩ := by
      unfold splitByConvertibility
      split
      · exact absurd rfl (he _ _)
      · rfl
    rw [hsplit, he.conjuncts_eq]
    by_cases hconv : e.isPyarrowConvertible pyarrowUdf = true
    · simp [hconv, he.conjuncts_eq]
    · simp [hconv, he.conjuncts_eq]

/-- A conjunct over partition columns and data columns. -/
def IsMixed (partitionColumns : List String) (e : Expr V) : Prop :=
  (∃ c ∈ e.columnRefs, c ∈ partitionColumns) ∧ ∃ c ∈ e.columnRefs, c ∉ partitionColumns

/-- What the split by columns guarantees: it keeps the conjuncts, the data part has no partition
column, the partition part nothing else, and every conjunct of the residual has both. -/
structure ColumnSplit (partitionColumns : List String) (predicate : Expr V)
    (split : SplitPredicateResult V) : Prop where
  perm : (partConjuncts split.dataPredicate ++ partConjuncts split.partitionPredicate ++
    partConjuncts split.residualPredicate).Perm predicate.conjuncts
  data : ∀ e ∈ split.dataPredicate, ∀ c ∈ e.columnRefs, c ∉ partitionColumns
  partition : ∀ e ∈ split.partitionPredicate,
    (∃ c, c ∈ e.columnRefs) ∧ ∀ c ∈ e.columnRefs, c ∈ partitionColumns
  residual : ∀ q ∈ partConjuncts split.residualPredicate, IsMixed partitionColumns q

theorem perm_append_three {β : Type} (a a' b b' c c' : List β) :
    ((a ++ a') ++ (b ++ b') ++ (c ++ c')).Perm ((a ++ b ++ c) ++ (a' ++ b' ++ c')) := by
  rw [← Multiset.coe_eq_coe]
  simp only [← Multiset.coe_add]
  abel

theorem forall_mem_combineWithAnd {P : Expr V → Prop} {left right : Option (Expr V)}
    (hand : ∀ l r, P l → P r → P (.binary .and l r)) (hleft : ∀ e ∈ left, P e)
    (hright : ∀ e ∈ right, P e) : ∀ e ∈ combineWithAnd left right, P e := by
  intro e he
  cases left with
  | none => exact hright e he
  | some l =>
    cases right with
    | none => exact hleft e he
    | some r =>
      obtain rfl := Option.mem_some_iff.mp he
      exact hand l r (hleft l rfl) (hright r rfl)

theorem splitPredicateByColumns_spec (partitionColumns : List String) (predicate : Expr V) :
    ColumnSplit partitionColumns predicate (splitPredicateByColumns partitionColumns predicate) := by
  induction predicate using Expr.conjunctsInduction with
  | and left right ihl ihr =>
    rw [splitPredicateByColumns]
    simp only [List.isEmpty_iff, List.filter_eq_nil_iff, decide_eq_true_eq, not_not]
    split_ifs with hdata hpartition
    · exact ⟨by simp, fun e he => by cases he; exact hdata, nofun, nofun⟩
    · push Not at hdata
      obtain ⟨c, hc, -⟩ := hdata
      exact ⟨by simp, nofun, fun e he => by cases he; exact ⟨⟨c, hc⟩, hpartition⟩, nofun⟩
    · simp only [combinePredicates_eq]
      refine ⟨?_, ?_, ?_, ?_⟩
      · rw [partConjuncts_combineWithAnd, partConjuncts_combineWithAnd,
          partConjuncts_combineWithAnd, Expr.conjuncts]
        exact (perm_append_three ..).trans (ihl.perm.append ihr.perm)
      · exact forall_mem_combineWithAnd
          (fun l r hl hr => List.forall_mem_append.mpr ⟨hl, hr⟩) ihl.data ihr.data
      · refine forall_mem_combineWithAnd (fun l r hl hr => ⟨?_, ?_⟩) ihl.partition ihr.partition
        · obtain ⟨⟨c, hc⟩, -⟩ := hl
          exact ⟨c, List.mem_append_left _ hc⟩
        · exact List.forall_mem_append.mpr ⟨hl.2, hr.2⟩
      · rw [partConjuncts_combineWithAnd]
        exact List.forall_mem_append.mpr ⟨ihl.residual, ihr.residual⟩
  | conjunct e he =>
    unfold splitPredicateByColumns
    simp only [List.isEmpty_iff, List.filter_eq_nil_iff, decide_eq_true_eq, not_not]
    split_ifs with hdata hpartition
    · exact ⟨by simp, fun e he => by cases he; exact hdata, nofun, nofun⟩
    · push Not at hdata
      obtain ⟨c, hc, -⟩ := hdata
      exact ⟨by simp, nofun, fun e he => by cases he; exact ⟨⟨c, hc⟩, hpartition⟩, nofun⟩
    · split
      · exact absurd rfl (he _ _)
      · push Not at hdata hpartition
        refine ⟨by simp, nofun, nofun, fun q hq => ?_⟩
        rw [partConjuncts_some, he.conjuncts_eq] at hq
        rw [List.mem_singleton.mp hq]
        exact ⟨hdata, hpartition⟩

/-- What a conjunction takes from its sides a predicate takes from the parts of a split that keeps
the conjuncts. -/
theorem eq_true_iff_parts {f : Expr V → Bool} (hand : ∀ l r, f (.binary .and l r) = (f l && f r))
    {predicate : Expr V} {parts : List (Option (Expr V))}
    (hperm : (parts.flatMap partConjuncts).Perm predicate.conjuncts) :
    f predicate = true ↔ ∀ part ∈ parts.reduceOption, f part = true := by
  rw [Expr.eq_all_conjuncts hand, List.all_eq_true]
  simp only [List.reduceOption_mem_iff, ← hperm.mem_iff, List.mem_flatMap]
  constructor
  · intro h e he
    rw [Expr.eq_all_conjuncts hand, List.all_eq_true]
    exact fun q hq => h q ⟨some e, he, hq⟩
  · rintro h q ⟨part, hmem, hq⟩
    cases part with
    | none => cases hq
    | some e =>
      have he := h e hmem
      rw [Expr.eq_all_conjuncts hand, List.all_eq_true] at he
      exact he q hq

theorem splitByConvertibility_perm (pyarrowUdf : String → Bool) (predicate : Expr V) :
    ([(splitByConvertibility pyarrowUdf predicate).convertible,
      (splitByConvertibility pyarrowUdf predicate).residual].flatMap partConjuncts).Perm
        predicate.conjuncts := by
  obtain ⟨hconv, hres⟩ := splitByConvertibility_spec pyarrowUdf predicate
  rw [List.flatMap_cons, List.flatMap_singleton, hconv, hres]
  exact List.filter_append_perm _ _

/-! ### Rows of filters and scans -/

/-- The elements that are kept at their position. -/
def keepAt {β : Type} (keep : ℕ → β → Bool) : ℕ → List β → List β
  | _, [] => []
  | position, b :: l =>
    if keep position b then b :: keepAt keep (position + 1) l else keepAt keep (position + 1) l

section keepAt
variable {β : Type}

theorem keepAt_congr {f g : ℕ → β → Bool} {l : List β}
    (h : ∀ position, ∀ b ∈ l, f position b = g position b)
    (position : ℕ) : keepAt f position l = keepAt g position l := by
  induction l generalizing position with
  | nil => rfl
  | cons b l ih =>
    rw [keepAt, keepAt, h position b List.mem_cons_self,
      ih (fun position b hb => h position b (.tail _ hb))]

theorem keepAt_const (f : β → Bool) (position : ℕ) (l : List β) :
    keepAt (fun _ => f) position l = l.filter f := by
  induction l generalizing position with
  | nil => rfl
  | cons b l ih => rw [keepAt, ih, List.filter_cons]

theorem keepAt_and_of_shared {f : β → Bool} {g : ℕ → β → Bool} {l : List β} {b : Bool}
    (h : ∀ a ∈ l, f a = b) (position : ℕ) :
    keepAt (fun position a => f a && g position a) position l = keepAt g position (l.filter f) := by
  cases b with
  | true =>
    rw [List.filter_eq_self.mpr h]
    exact keepAt_congr (fun _ a ha => by rw [h a ha, Bool.true_and]) position
  | false =>
    have hnone : l.filter f = [] := List.filter_eq_nil_iff.mpr (fun a ha => by rw [h a ha]; decide)
    rw [hnone,
      keepAt_congr (g := fun _ _ => false) (fun _ a ha => by rw [h a ha, Bool.false_and]) position,
      keepAt_const, List.filter_false]
    rfl

/-- Where the second condition does not depend on the position, the first can be checked first. -/
theorem keepAt_and_of_const (f g : β → Bool) (position : ℕ) (l : List β) :
    keepAt (fun _ a => f a && g a) position l = keepAt (fun _ => g) position (l.filter f) := by
  rw [keepAt_const, keepAt_const, List.filter_filter]
  exact List.filter_congr (fun _ _ => Bool.and_comm _ _)

end keepAt

section rows
variable {K : SqlKernels V C} {kernels : Kernels V C} {row : Dict String C} {pyarrowUdf : String → Bool}

theorem maskAt_eq {predicate : Expr V} (h : (truthOf K kernels row predicate).isSome) :
    maskAt K kernels row predicate = .ok (passes K kernels row predicate) := by
  obtain ⟨t, ht⟩ := Option.isSome_iff_exists.mp h
  unfold passes
  unfold truthOf at ht ⊢
  unfold maskAt
  cases hcell : evalExpr kernels row.get? predicate with
  | error e =>
    rw [hcell] at ht
    cases ht
  | ok cell =>
    rw [hcell] at ht
    have htruth : K.truth cell = some t := ht
    show (match K.truth cell with
      | none => .error .typeError
      | some t => .ok (decide (t = some true)) : Except PyError Bool) =
        .ok (decide (K.truth cell = some (some true)))
    rw [htruth]
    simp

variable {rows : List (Dict String C)}

theorem filterAt_eq (kernels : ℕ → Kernels V C) {predicate : Expr V}
    (h : ∀ row ∈ rows, ∀ position, (truthOf K (kernels position) row predicate).isSome) (position : ℕ) :
    filterAt (fun position row => maskAt K (kernels position) row predicate) position rows =
      .ok (keepAt (fun position row => passes K (kernels position) row predicate) position rows) := by
  induction rows generalizing position with
  | nil => rfl
  | cons row rows ih =>
    rw [filterAt, maskAt_eq (h row List.mem_cons_self position), ok_bind,
      ih (fun row hrow => h row (.tail _ hrow)), ok_bind, keepAt]

theorem scanWith_eq {predicate : Option (Expr V)}
    (h : ∀ row ∈ rows, ∀ e ∈ predicate, (truthOf K (K.scanner pyarrowUdf) row e).isSome) :
    scanWith K pyarrowUdf predicate rows =
      .ok (rows.filter (fun row => predicate.all (passes K (K.scanner pyarrowUdf) row))) := by
  cases predicate with
  | none => simp [scanWith]
  | some e =>
    rw [scanWith, filterAt_eq (fun _ => K.scanner pyarrowUdf) (fun row hrow _ => h row hrow e rfl),
      keepAt_const]
    rfl

variable (K pyarrowUdf) in
/-- Every predicate of the scanner has a truth value on the row. -/
def ScannerTruth (scanner : ArrowFileScanner V) (row : Dict String C) : Prop :=
  (∀ e ∈ scanner.partitionPredicate, (truthOf K (K.scanner pyarrowUdf) row e).isSome) ∧
    ∀ e ∈ scanner.predicate, (truthOf K (K.scanner pyarrowUdf) row e).isSome

variable (K pyarrowUdf) in
/-- The row passes what was pushed to the scanner. -/
def scannerPasses (scanner : ArrowFileScanner V) (row : Dict String C) : Bool :=
  scanner.partitionPredicate.all (passes K (K.scanner pyarrowUdf) row) &&
    scanner.predicate.all (passes K (K.scanner pyarrowUdf) row)

variable {scanner : ArrowFileScanner V}
variable {table : List (Dict String C)}

theorem rows_readFiles (h : ∀ row ∈ table, ScannerTruth K pyarrowUdf scanner row) :
    (ReadPlan.readFiles scanner).rows K pyarrowUdf table =
      .ok (table.filter (scannerPasses K pyarrowUdf scanner)) := by
  rw [ReadPlan.rows, scanWith_eq (fun row hrow => (h row hrow).1), ok_bind,
    scanWith_eq (fun row hrow => (h row (List.mem_of_mem_filter hrow)).2), List.filter_filter]
  refine congrArg Except.ok (List.filter_congr (fun row _ => ?_))
  exact Bool.and_comm _ _

theorem all_combineWithAnd {f : Expr V → Bool} (hand : ∀ l r, f (.binary .and l r) = (f l && f r))
    (left right : Option (Expr V)) : (combineWithAnd left right).all f =
      (left.all f && right.all f) := by
  cases left with
  | none => exact (Bool.true_and _).symm
  | some l =>
    cases right with
    | none => exact (Bool.and_true _).symm
    | some r => exact hand l r

theorem pushFilters_eq (scanner : ArrowFileScanner V) (e : Expr V) :
    scanner.pushFilters e =
      ({ scanner with predicate := combineWithAnd scanner.predicate (some e) }, none) := by
  unfold ArrowFileScanner.pushFilters
  cases scanner.predicate <;> rfl

theorem prunePartitions_eq (scanner : ArrowFileScanner V) (e : Expr V) :
    scanner.prunePartitions e =
      { scanner with partitionPredicate := combineWithAnd scanner.partitionPredicate (some e) } := by
  unfold ArrowFileScanner.prunePartitions
  cases scanner.partitionPredicate <;> rfl

variable {e : Expr V}

theorem scanner_pushFilters
    (h : ScannerTruth K pyarrowUdf scanner row) (he : (truthOf K (K.scanner pyarrowUdf) row e).isSome) :
    ScannerTruth K pyarrowUdf (scanner.pushFilters e).1 row ∧
      scannerPasses K pyarrowUdf (scanner.pushFilters e).1 row =
        (scannerPasses K pyarrowUdf scanner row && passes K (K.scanner pyarrowUdf) row e) := by
  rw [pushFilters_eq]
  refine ⟨⟨h.1, forall_mem_combineWithAnd (fun l r hl hr => ?_) h.2 (fun e' he' => ?_)⟩, ?_⟩
  · rw [isSome_truthOf_and (K.scanner_binary pyarrowUdf), hl, hr]
    rfl
  · cases he'
    exact he
  · unfold scannerPasses
    rw [all_combineWithAnd (passes_and (K.scanner_binary pyarrowUdf)), Bool.and_assoc]
    rfl

theorem scanner_prunePartitions
    (h : ScannerTruth K pyarrowUdf scanner row) (he : (truthOf K (K.scanner pyarrowUdf) row e).isSome) :
    ScannerTruth K pyarrowUdf (scanner.prunePartitions e) row ∧
      scannerPasses K pyarrowUdf (scanner.prunePartitions e) row =
        (scannerPasses K pyarrowUdf scanner row && passes K (K.scanner pyarrowUdf) row e) := by
  rw [prunePartitions_eq]
  refine ⟨⟨forall_mem_combineWithAnd (fun l r hl hr => ?_) h.1 (fun e' he' => ?_), h.2⟩, ?_⟩
  · rw [isSome_truthOf_and (K.scanner_binary pyarrowUdf), hl, hr]
    rfl
  · cases he'
    exact he
  · unfold scannerPasses
    rw [all_combineWithAnd (passes_and (K.scanner_binary pyarrowUdf)), Bool.and_assoc, Bool.and_assoc]
    congr 1
    exact Bool.and_comm _ _

/-- The scanner computes what can be lowered to pyarrow like a filter at any position. -/
theorem evalExpr_scanner (h : e.isPyarrowConvertible pyarrowUdf = true) (position : ℕ)
    (columns : String → Option C) :
    evalExpr (K.scanner pyarrowUdf) columns e = evalExpr (K.atPosition position) columns e := by
  induction e with
  | column name => rfl
  | literal value => rfl
  | binary op left right ihl ihr =>
    rw [Expr.isPyarrowConvertible] at h
    split_ifs at h with hin
    · rw [Bool.and_eq_true] at h
      have hright : evalExpr (K.scanner pyarrowUdf) columns right =
          evalExpr (K.atPosition position) columns right := by
        cases right with
        | literal value => rfl
        | _ => cases h.1
      rw [evalExpr, evalExpr, ihl h.2, hright]
      rfl
    · rw [Bool.and_eq_true, Bool.and_eq_true] at h
      rw [evalExpr, evalExpr, ihl h.1.2, ihr h.2]
      rfl
  | unary op operand ih =>
    rw [Expr.isPyarrowConvertible, Bool.and_eq_true] at h
    rw [evalExpr, evalExpr, ih h.2]
    rfl
  | udf fn args ih =>
    rw [Expr.isPyarrowConvertible, Bool.and_eq_true] at h
    obtain ⟨hfn, hall⟩ := h
    rw [Expr.isPyarrowConvertibleAll_eq, List.all_eq_true] at hall
    have hargs : evalArgs (K.scanner pyarrowUdf) columns args =
        evalArgs (K.atPosition position) columns args :=
      evalArgs_congr_kernels (fun arg harg => ih arg harg (hall arg harg))
    have hudf : (K.scanner pyarrowUdf).udf fn = (K.atPosition position).udf fn := by
      funext cs
      exact if_pos hfn
    rw [evalExpr, evalExpr, hargs, hudf]
  | aliased expr name isRename ih => exact ih h
  | download uriColumnName => cases h
  | star => cases h
  | synthetic kind => cases h

theorem truthOf_scanner (h : e.isPyarrowConvertible pyarrowUdf = true) (position : ℕ) :
    truthOf K (K.scanner pyarrowUdf) row e = truthOf K (K.atPosition position) row e := by
  rw [truthOf, truthOf, evalExpr_scanner h position]

theorem passes_scanner (h : e.isPyarrowConvertible pyarrowUdf = true) (position : ℕ) :
    passes K (K.scanner pyarrowUdf) row e = passes K (K.atPosition position) row e := by
  rw [passes, passes, truthOf_scanner h position]

/-! ### What the rule keeps -/

/-- The rule leaves the read alone if every conjunct mixes the two kinds of columns. -/
theorem applyPredicate_eq_none :
    applyPredicate scanner e = none ↔
      ∀ q ∈ e.conjuncts, IsMixed scanner.partitionColumns q := by
  unfold applyPredicate
  by_cases hcols : scanner.partitionColumns = []
  · -- without partition columns nothing is mixed
    rw [hcols]
    refine ⟨nofun, fun h => ?_⟩
    obtain ⟨q, hq⟩ := List.exists_mem_of_ne_nil _ e.conjuncts_ne_nil
    obtain ⟨⟨c, -, hc⟩, -⟩ := h q hq
    cases hc
  · have hspec := splitPredicateByColumns_spec scanner.partitionColumns e
    rw [if_neg (by rwa [List.isEmpty_iff])]
    simp only [Option.isNone_iff_eq_none]
    constructor
    · intro h q hq
      split_ifs at h with hnone
      · rw [← hspec.perm.mem_iff, hnone.1, hnone.2] at hq
        exact hspec.residual q hq
      · cases hr : (splitPredicateByColumns scanner.partitionColumns e).residualPredicate <;>
          rw [hr] at h <;> cases h
    · intro h
      refine if_pos ⟨?_, ?_⟩
      · by_contra hne
        obtain ⟨d, hd⟩ := Option.ne_none_iff_exists'.mp hne
        obtain ⟨q, hq⟩ := List.exists_mem_of_ne_nil _ d.conjuncts_ne_nil
        have hmem : q ∈ e.conjuncts := hspec.perm.mem_iff.mp (by simp [hd, hq])
        obtain ⟨⟨c, hc, hcols⟩, -⟩ := h q hmem
        refine hspec.data d hd c ?_ hcols
        rw [d.columnRefs_conjuncts]
        exact List.mem_flatMap.mpr ⟨q, hq, hc⟩
      · by_contra hne
        obtain ⟨d, hd⟩ := Option.ne_none_iff_exists'.mp hne
        obtain ⟨q, hq⟩ := List.exists_mem_of_ne_nil _ d.conjuncts_ne_nil
        have hmem : q ∈ e.conjuncts := hspec.perm.mem_iff.mp (by simp [hd, hq])
        obtain ⟨-, c, hc, hcols⟩ := h q hmem
        refine hcols ((hspec.partition d hd).2 c ?_)
        rw [d.columnRefs_conjuncts]
        exact List.mem_flatMap.mpr ⟨q, hq, hc⟩

theorem ColumnSplit.perm_parts {partitionColumns : List String}
    {split : SplitPredicateResult V} (h : ColumnSplit partitionColumns e split) :
    ([split.dataPredicate, split.partitionPredicate, split.residualPredicate].flatMap
      partConjuncts).Perm e.conjuncts := by
  rw [List.flatMap_cons, List.flatMap_cons, List.flatMap_singleton, ← List.append_assoc]
  exact h.perm

/-- What `apply_predicate` returns has the rows that the predicate lets through. -/
theorem rows_applyPredicate {plan : ReadPlan V} (hconv : e.isPyarrowConvertible pyarrowUdf = true)
    (hscanner : ∀ row ∈ table, ScannerTruth K pyarrowUdf scanner row)
    (htruth : ∀ row ∈ table, (truthOf K (K.scanner pyarrowUdf) row e).isSome)
    (h : applyPredicate scanner e = some plan) :
    plan.rows K pyarrowUdf table = .ok ((table.filter (scannerPasses K pyarrowUdf scanner)).filter
      (fun row => passes K (K.scanner pyarrowUdf) row e)) := by
  have hbinary := K.scanner_binary pyarrowUdf
  unfold applyPredicate at h
  by_cases hcols : scanner.partitionColumns = []
  · rw [hcols] at h
    cases h
    rw [rows_readFiles (fun row hrow => (scanner_pushFilters (hscanner row hrow) (htruth row hrow)).1),
      List.filter_filter]
    refine congrArg Except.ok (List.filter_congr (fun row hrow => ?_))
    rw [(scanner_pushFilters (hscanner row hrow) (htruth row hrow)).2, Bool.and_comm]
  · have hperm := (splitPredicateByColumns_spec scanner.partitionColumns e).perm_parts
    rw [if_neg (by rwa [List.isEmpty_iff])] at h
    simp only [Option.isNone_iff_eq_none] at h
    split_ifs at h with hnone
    generalize splitPredicateByColumns scanner.partitionColumns e = split at h hperm hnone
    obtain ⟨d, p, r⟩ := split
    have htruths : ∀ row ∈ table, ∀ part, some part ∈ [d, p, r] →
        (truthOf K (K.scanner pyarrowUdf) row part).isSome = true := fun row hrow part hpart =>
      (eq_true_iff_parts (f := fun e => (truthOf K (K.scanner pyarrowUdf) row e).isSome)
        (isSome_truthOf_and hbinary) hperm).mp (htruth row hrow) part
          (List.reduceOption_mem_iff.mpr hpart)
    -- the files first, then the data
    have hpartition : ∀ row ∈ table,
        ScannerTruth K pyarrowUdf (p.elim scanner scanner.prunePartitions) row ∧
          scannerPasses K pyarrowUdf (p.elim scanner scanner.prunePartitions) row =
            (scannerPasses K pyarrowUdf scanner row && p.all
              (passes K (K.scanner pyarrowUdf) row)) := by
      intro row hrow
      cases p with
      | none => exact ⟨hscanner row hrow, (Bool.and_true _).symm⟩
      | some p => exact scanner_prunePartitions (hscanner row hrow) (htruths row hrow p (by simp))
    generalize hnew : p.elim scanner scanner.prunePartitions = newScanner at hpartition
    have hdata : ∀ row ∈ table,
        ScannerTruth K pyarrowUdf (d.elim newScanner (fun d => (newScanner.pushFilters d).1)) row ∧
          scannerPasses K pyarrowUdf (d.elim newScanner (fun d => (newScanner.pushFilters d).1)) row =
            (scannerPasses K pyarrowUdf newScanner row && d.all
              (passes K (K.scanner pyarrowUdf) row)) := by
      intro row hrow
      cases d with
      | none => exact ⟨(hpartition row hrow).1, (Bool.and_true _).symm⟩
      | some d => exact scanner_pushFilters (hpartition row hrow).1 (htruths row hrow d (by simp))
    generalize hlast : d.elim newScanner (fun d => (newScanner.pushFilters d).1) = lastScanner at hdata
    have hread := rows_readFiles (fun row hrow => (hdata row hrow).1)
    -- a row passes the predicate if it passes what was pushed and the residual
    have hpasses : ∀ row ∈ table, (scannerPasses K pyarrowUdf lastScanner row &&
        r.all (passes K (K.scanner pyarrowUdf) row)) =
          (scannerPasses K pyarrowUdf scanner row && passes K (K.scanner pyarrowUdf) row e) := by
      intro row hrow
      have hparts : passes K (K.scanner pyarrowUdf) row e =
          (d.all (passes K (K.scanner pyarrowUdf) row) && p.all (passes K (K.scanner pyarrowUdf) row) &&
            r.all (passes K (K.scanner pyarrowUdf) row)) := by
        rw [Bool.eq_iff_iff, eq_true_iff_parts (passes_and hbinary) hperm]
        cases d <;> cases p <;> cases r <;> simp [List.reduceOption, and_assoc]
      rw [(hdata row hrow).2, (hpartition row hrow).2, hparts]
      simp only [Bool.and_assoc, Bool.and_left_comm]
    have hplan : plan = r.elim (.readFiles lastScanner)
      (fun r => .filter r (.readFiles lastScanner)) := by
      rw [← hlast, ← hnew]
      cases d <;> cases p <;> cases r <;> exact (Option.some.inj h).symm
    rw [hplan]
    cases r with
    | none =>
      rw [Option.elim_none, hread, List.filter_filter]
      refine congrArg Except.ok (List.filter_congr (fun row hrow => ?_))
      rw [Bool.and_comm (passes _ _ _ _), ← hpasses row hrow]
      exact (Bool.and_true _).symm
    | some r =>
      have hrconv : r.isPyarrowConvertible pyarrowUdf = true :=
        (eq_true_iff_parts (Expr.isPyarrowConvertible_and pyarrowUdf) hperm).mp hconv r
          (List.reduceOption_mem_iff.mpr (by simp))
      rw [Option.elim_some, ReadPlan.rows, hread, ok_bind, filterAt_eq K.atPosition, keepAt_congr
        (g := fun _ row => passes K (K.scanner pyarrowUdf) row r)
        (fun position row _ => (passes_scanner hrconv position).symm), keepAt_const, List.filter_filter,
        List.filter_filter]
      · refine congrArg Except.ok (List.filter_congr (fun row hrow => ?_))
        rw [Bool.and_comm (passes _ _ _ e), ← hpasses row hrow]
        exact Bool.and_comm _ _
      · intro row hrow position
        rw [← truthOf_scanner hrconv position]
        exact htruths row (List.mem_of_mem_filter hrow) r (by simp)

end rows

/-! ### The property and its condition -/

mutual

/-- Neither a star nor a download: the evaluator raises on these. -/
def Expr.isEvaluable : Expr V → Bool
  | .column _ | .literal _ | .synthetic _ => true
  | .binary _ left right => left.isEvaluable && right.isEvaluable
  | .unary _ operand => operand.isEvaluable
  | .udf _ args => Expr.isEvaluableAll args
  | .aliased expr _ _ => expr.isEvaluable
  | .download _ | .star => false

def Expr.isEvaluableAll : List (Expr V) → Bool
  | [] => true
  | e :: es => e.isEvaluable && Expr.isEvaluableAll es

end

/-- Every predicate has a truth value, true, false or null, on the row: that of the filter wherever
the row stands, those of the scanner as it is. -/
def HasTruth (K : SqlKernels V C) (pyarrowUdf : String → Bool) (predicateExpr : Expr V)
    (scanner : ArrowFileScanner V) (row : Dict String C) : Prop :=
  (∀ position, (truthOf K (K.atPosition position) row predicateExpr).isSome) ∧
    ScannerTruth K pyarrowUdf scanner row

/-- Pushing a filter into a read with the given partitioning is right: it keeps the rows of all
tables. -/
def ReadPushKeepsRows (pyarrowUdf : String → Bool) (predicateExpr : Expr V)
    (partitioning : Option Partitioning) : Prop :=
  ∀ (C : Type) (K : SqlKernels V C) (scanner : ArrowFileScanner V) (table : List (Dict String C)),
    scanner.partitioning = partitioning →
    (∀ row ∈ table, HasTruth K pyarrowUdf predicateExpr scanner row) →
    (pushIntoRead pyarrowUdf predicateExpr scanner).rows K pyarrowUdf table =
      (ReadPlan.filter predicateExpr (.readFiles scanner)).rows K pyarrowUdf table

/-- The names of the partition columns. -/
def Partitioning.columns (partitioning : Option Partitioning) : List String :=
  ((partitioning.bind Partitioning.fieldNames).getD [])

/-- The predicate cannot be evaluated at all, or its value depends on the row alone, or no conjunct
that could be pushed tells rows apart, or each of them mixes partition and data columns. -/
def PushSafe (pyarrowUdf : String → Bool) (predicateExpr : Expr V)
    (partitioning : Option Partitioning) :
    Prop :=
  predicateExpr.isEvaluable = false ∨ predicateExpr.isIdempotent = true ∨
    (∀ q ∈ predicateExpr.conjuncts, q.isPyarrowConvertible pyarrowUdf = true → q.columnRefs = []) ∨
    ∀ q ∈ predicateExpr.conjuncts, q.isPyarrowConvertible pyarrowUdf = true →
      IsMixed (Partitioning.columns partitioning) q

theorem partitionColumns_eq (scanner : ArrowFileScanner V) :
    scanner.partitionColumns = Partitioning.columns scanner.partitioning := by
  unfold ArrowFileScanner.partitionColumns Partitioning.columns
  cases scanner.partitioning <;> rfl

section evaluation
variable {K : SqlKernels V C} {pyarrowUdf : String → Bool} {row : Dict String C}
variable {e : Expr V}
variable {kernels : Kernels V C}

theorem isEvaluable_of_evalExpr_eq_ok {columns : String → Option C}
    {c : C} (h : evalExpr kernels columns e = .ok c) : e.isEvaluable = true := by
  induction e generalizing c with
  | column name => rfl
  | literal value => rfl
  | binary op left right ihl ihr =>
    obtain ⟨a, ha, h⟩ := bind_eq_ok.mp h
    obtain ⟨b, hb, -⟩ := bind_eq_ok.mp h
    rw [Expr.isEvaluable, ihl ha, ihr hb]
    rfl
  | unary op operand ih =>
    obtain ⟨a, ha, -⟩ := bind_eq_ok.mp h
    exact ih ha
  | udf fn args ih =>
    obtain ⟨cs, hcs, -⟩ := bind_eq_ok.mp h
    rw [Expr.isEvaluable]
    clear h
    induction args generalizing cs with
    | nil => rfl
    | cons arg args iha =>
      obtain ⟨b, hb, hcs⟩ := bind_eq_ok.mp hcs
      obtain ⟨bs, hbs, -⟩ := bind_eq_ok.mp hcs
      rw [Expr.isEvaluableAll, ih arg List.mem_cons_self hb,
        iha (fun a ha => ih a (.tail _ ha)) bs hbs]
      rfl
  | aliased expr name isRename ih => exact ih h
  | download uriColumnName => cases h
  | star => cases h
  | synthetic kind => rfl

theorem isEvaluable_of_truthOf (h : (truthOf K kernels row e).isSome) : e.isEvaluable = true := by
  unfold truthOf at h
  cases hcell : evalExpr kernels row.get? e with
  | error err =>
    rw [hcell] at h
    cases h
  | ok c => exact isEvaluable_of_evalExpr_eq_ok hcell

theorem evalExpr_atPosition (h : e.isIdempotent = true) (i j : ℕ) (columns : String → Option C) :
    evalExpr (K.atPosition i) columns e = evalExpr (K.atPosition j) columns e := by
  induction e with
  | column name => rfl
  | literal value => rfl
  | binary op left right ihl ihr =>
    rw [Expr.isIdempotent, Bool.and_eq_true] at h
    rw [evalExpr, evalExpr, ihl h.1, ihr h.2]
    rfl
  | unary op operand ih =>
    rw [evalExpr, evalExpr, ih h]
    rfl
  | udf fn args ih =>
    rw [Expr.isIdempotent, Expr.isIdempotentAll_eq, List.all_eq_true] at h
    have hargs : evalArgs (K.atPosition i) columns args = evalArgs (K.atPosition j) columns args := by
      exact evalArgs_congr_kernels (fun arg harg => ih arg harg (h arg harg))
    rw [evalExpr, evalExpr, hargs]
    rfl
  | aliased expr name isRename ih => exact ih h
  | download uriColumnName => rfl
  | star => rfl
  | synthetic kind => cases h

theorem isIdempotent_of_isPyarrowConvertible (h : e.isPyarrowConvertible pyarrowUdf = true) :
    e.isIdempotent = true := by
  induction e with
  | column name => rfl
  | literal value => rfl
  | binary op left right ihl ihr =>
    rw [Expr.isPyarrowConvertible] at h
    rw [Expr.isIdempotent, Bool.and_eq_true]
    split_ifs at h with hin
    · rw [Bool.and_eq_true] at h
      refine ⟨ihl h.2, ?_⟩
      cases right with
      | literal value => rfl
      | _ => cases h.1
    · rw [Bool.and_eq_true, Bool.and_eq_true] at h
      exact ⟨ihl h.1.2, ihr h.2⟩
  | unary op operand ih =>
    rw [Expr.isPyarrowConvertible, Bool.and_eq_true] at h
    exact ih h.2
  | udf fn args ih =>
    rw [Expr.isPyarrowConvertible, Bool.and_eq_true] at h
    rw [Expr.isPyarrowConvertibleAll_eq, List.all_eq_true] at h
    rw [Expr.isIdempotent, Expr.isIdempotentAll_eq, List.all_eq_true]
    exact fun arg harg => ih arg harg (h.2 arg harg)
  | aliased expr name isRename ih => exact ih h
  | download uriColumnName => cases h
  | star => cases h
  | synthetic kind => cases h

end evaluation

/-! ### Where the rule is right -/

section push
variable {pyarrowUdf : String → Bool} {predicateExpr : Expr V}

/-- The part that is pushed has the convertible conjuncts. -/
theorem convertible_spec {e : Expr V}
    (h : (splitByConvertibility pyarrowUdf predicateExpr).convertible = some e) :
    e.isPyarrowConvertible pyarrowUdf = true ∧ ∀ q, q ∈ e.conjuncts ↔
      q ∈ predicateExpr.conjuncts ∧ q.isPyarrowConvertible pyarrowUdf = true := by
  have hconj := (splitByConvertibility_spec pyarrowUdf predicateExpr).1
  rw [h, partConjuncts_some] at hconj
  constructor
  · rw [Expr.eq_all_conjuncts (Expr.isPyarrowConvertible_and pyarrowUdf), hconj, List.all_eq_true]
    exact fun q hq => List.of_mem_filter hq
  · intro q
    rw [hconj, List.mem_filter]

/-- The rule changes nothing, or it pushes the convertible part and keeps a filter with the
residual. -/
theorem pushIntoRead_eq {scanner : ArrowFileScanner V} :
    pushIntoRead pyarrowUdf predicateExpr scanner =
      match (splitByConvertibility pyarrowUdf predicateExpr).convertible.bind
        (applyPredicate scanner) with
      | none => .filter predicateExpr (.readFiles scanner)
      | some plan => (splitByConvertibility pyarrowUdf predicateExpr).residual.elim plan
          (fun residual => .filter residual plan) := by
  unfold pushIntoRead
  cases hconv : (splitByConvertibility pyarrowUdf predicateExpr).convertible with
  | none => simp only [hconv, Option.bind_none]
  | some e =>
    cases happly : applyPredicate scanner e with
    | none => simp only [hconv, happly, Option.bind_some]
    | some plan =>
      simp only [hconv, happly, Option.bind_some]
      cases (splitByConvertibility pyarrowUdf predicateExpr).residual <;> rfl

section rows
variable {K : SqlKernels V C} {scanner : ArrowFileScanner V} {table : List (Dict String C)}

theorem rows_filter_readFiles
    (htruth : ∀ row ∈ table, HasTruth K pyarrowUdf predicateExpr scanner row) :
    (ReadPlan.filter predicateExpr (.readFiles scanner)).rows K pyarrowUdf table =
      .ok (keepAt (fun position row => passes K (K.atPosition position) row predicateExpr) 0
        (table.filter (scannerPasses K pyarrowUdf scanner))) := by
  rw [ReadPlan.rows, rows_readFiles (fun row hrow => (htruth row hrow).2), ok_bind,
    filterAt_eq K.atPosition]
  exact fun row hrow => (htruth row (List.mem_of_mem_filter hrow)).1

theorem isSome_truthOf_part (htruth : ∀ row ∈ table, HasTruth K pyarrowUdf predicateExpr scanner row)
    {part : Expr V} (hpart : some part ∈ [(splitByConvertibility pyarrowUdf predicateExpr).convertible,
      (splitByConvertibility pyarrowUdf predicateExpr).residual]) :
    ∀ row ∈ table, ∀ position, (truthOf K (K.atPosition position) row part).isSome = true := by
  intro row hrow position
  exact (eq_true_iff_parts (f := fun e => (truthOf K (K.atPosition position) row e).isSome)
    (isSome_truthOf_and (K.atPosition_binary position))
    (splitByConvertibility_perm pyarrowUdf predicateExpr)).mp ((htruth row hrow).1 position) part
    (List.reduceOption_mem_iff.mpr hpart)

variable {e : Expr V}

theorem rows_pushed (htruth : ∀ row ∈ table, HasTruth K pyarrowUdf predicateExpr scanner row)
    {plan : ReadPlan V}
    (hconv : (splitByConvertibility pyarrowUdf predicateExpr).convertible = some e)
    (happly : applyPredicate scanner e = some plan) :
    plan.rows K pyarrowUdf table = .ok ((table.filter (scannerPasses K pyarrowUdf scanner)).filter
      (fun row => passes K (K.scanner pyarrowUdf) row e)) := by
  refine rows_applyPredicate (convertible_spec hconv).1 (fun row hrow => (htruth row hrow).2)
    (fun row hrow => ?_) happly
  rw [truthOf_scanner (convertible_spec hconv).1 0]
  exact isSome_truthOf_part htruth (by rw [hconv]; exact List.mem_cons_self) row hrow 0

/-- The filter with the residual sees the rows that the read lets through. -/
theorem rows_residual (htruth : ∀ row ∈ table, HasTruth K pyarrowUdf predicateExpr scanner row)
    {residual : Expr V} {plan : ReadPlan V}
    (hconv : (splitByConvertibility pyarrowUdf predicateExpr).convertible = some e)
    (hres : (splitByConvertibility pyarrowUdf predicateExpr).residual = some residual)
    (happly : applyPredicate scanner e = some plan) :
    (ReadPlan.filter residual plan).rows K pyarrowUdf table =
      .ok (keepAt (fun position row => passes K (K.atPosition position) row residual) 0
        ((table.filter (scannerPasses K pyarrowUdf scanner)).filter
          (fun row => passes K (K.scanner pyarrowUdf) row e))) := by
  rw [ReadPlan.rows, rows_pushed htruth hconv happly, ok_bind, filterAt_eq K.atPosition]
  exact fun row hrow => isSome_truthOf_part htruth
    (by rw [hres]; exact .tail _ List.mem_cons_self) row
    (List.mem_of_mem_filter (List.mem_of_mem_filter hrow))

theorem passes_eq_parts
    (hconv : (splitByConvertibility pyarrowUdf predicateExpr).convertible = some e) (position : ℕ)
    (row : Dict String C) :
    passes K (K.atPosition position) row predicateExpr =
      (passes K (K.scanner pyarrowUdf) row e &&
        (splitByConvertibility pyarrowUdf predicateExpr).residual.all
          (passes K (K.atPosition position) row)) := by
  rw [Bool.eq_iff_iff, eq_true_iff_parts (passes_and (K.atPosition_binary position))
    (splitByConvertibility_perm pyarrowUdf predicateExpr), hconv,
    passes_scanner (convertible_spec hconv).1 position]
  cases (splitByConvertibility pyarrowUdf predicateExpr).residual <;> simp [List.reduceOption]

end rows

theorem readPushKeepsRows_of_pushSafe {partitioning : Option Partitioning}
    (hsafe : PushSafe pyarrowUdf predicateExpr partitioning) :
    ReadPushKeepsRows pyarrowUdf predicateExpr partitioning := by
  intro C K scanner table hpartitioning htruth
  rw [pushIntoRead_eq]
  cases hconv : (splitByConvertibility pyarrowUdf predicateExpr).convertible with
  | none => rfl
  | some e =>
    rw [Option.bind_some]
    cases happly : applyPredicate scanner e with
    | none => rfl
    | some plan =>
      have hconj := (convertible_spec hconv).2
      have hsplit := fun position row => passes_eq_parts (K := K) hconv position row
      rw [rows_filter_readFiles htruth]
      simp only [hsplit]
      cases hres : (splitByConvertibility pyarrowUdf predicateExpr).residual with
      | none =>
        simp only [Option.all_none, Bool.and_true]
        rw [keepAt_const]
        exact rows_pushed htruth hconv happly
      | some residual =>
        refine (rows_residual htruth hconv hres happly).trans (congrArg Except.ok (Eq.symm ?_))
        simp only [Option.all_some]
        obtain hsafe | hsafe | hsafe | hsafe := hsafe
        · -- no row has a truth value
          have hempty : table = [] := by
            by_contra hne
            obtain ⟨row, hrow⟩ := List.exists_mem_of_ne_nil _ hne
            rw [isEvaluable_of_truthOf ((htruth row hrow).1 0)] at hsafe
            cases hsafe
          rw [hempty]
          rfl
        · have hidem : residual.isIdempotent = true :=
            (eq_true_iff_parts (f := Expr.isIdempotent) (fun _ _ => rfl)
              (splitByConvertibility_perm pyarrowUdf predicateExpr)).mp hsafe residual
              (List.reduceOption_mem_iff.mpr (by rw [hres]; exact .tail _ List.mem_cons_self))
          have hpos : ∀ position row, passes K (K.atPosition position) row residual =
              passes K (K.atPosition 0) row residual := by
            intro position row
            rw [passes, passes, truthOf, truthOf, evalExpr_atPosition hidem position 0]
          simp only [hpos]
          exact keepAt_and_of_const _ _ 0 _
        · have hrefs : e.columnRefs = [] := by
            rw [e.columnRefs_conjuncts, List.flatMap_eq_nil_iff]
            exact fun q hq => hsafe q ((hconj q).mp hq).1 ((hconj q).mp hq).2
          have hshared : ∀ row, passes K (K.scanner pyarrowUdf) row e =
              passes K (K.scanner pyarrowUdf) .empty e := by
            intro row
            have heval : evalExpr (K.scanner pyarrowUdf) row.get? e =
                evalExpr (K.scanner pyarrowUdf) Dict.empty.get? e := by
              apply evalExpr_congr
              rw [hrefs]
              exact nofun
            rw [passes, passes, truthOf, truthOf, heval]
          exact keepAt_and_of_shared (fun row _ => hshared row) 0
        · have hnone : applyPredicate scanner e = none := by
            rw [applyPredicate_eq_none, partitionColumns_eq, hpartitioning]
            exact fun q hq => hsafe q ((hconj q).mp hq).1 ((hconj q).mp hq).2
          rw [hnone] at happly
          cases happly

end push

/-! ### Where it is not -/

/-- Operations that are true only of true arguments, with synthetic values that are true at the
first position only. -/
def firstRowKernels (V : Type) : SqlKernels V Bool where
  literal := fun _ => true
  binary := fun _ a b => .ok (a && b)
  unary := fun _ a => .ok a
  udf := fun _ args => .ok (args.all id)
  synthetic := fun _ => .ok true
  truth := fun a => some (some a)
  syntheticAt := fun position _ => .ok (decide (position = 0))
  and_kleene := by
    intro a b s t hs ht
    cases hs
    cases ht
    refine ⟨a && b, rfl, ?_⟩
    cases a <;> cases b <;> rfl
  and_boolean := fun _ _ _ _ => ⟨rfl, rfl⟩

/-- An expression is true under them unless it reads a column that is false or a synthetic value
behind the first position. -/
theorem evalExpr_firstRowKernels {columns : String → Option Bool} {b : Bool} (position : ℕ) {e : Expr V}
    (heval : e.isEvaluable = true) (hcolumns : ∀ name ∈ e.columnRefs, columns name = some b) :
    evalExpr ((firstRowKernels V).atPosition position) columns e =
      .ok ((b || e.columnRefs.isEmpty) && (e.isIdempotent || decide (position = 0))) := by
  have isEmpty_append : ∀ l l' : List String, (l ++ l').isEmpty = (l.isEmpty && l'.isEmpty) := by
    intro l l'
    cases l <;> rfl
  -- both halves of the value distribute over the operands
  have hjoin : ∀ b l r li ri z : Bool, ((b || l) && (li || z) && ((b || r) && (ri || z))) =
      ((b || (l && r)) && ((li && ri) || z)) := by decide
  induction e with
  | column name =>
    rw [evalExpr, hcolumns name (by simp [Expr.columnRefs])]
    simp [Expr.columnRefs, Expr.isIdempotent]
  | literal value => simp [evalExpr, firstRowKernels, SqlKernels.atPosition, Expr.columnRefs,
      Expr.isIdempotent]
  | binary op left right ihl ihr =>
    rw [Expr.isEvaluable, Bool.and_eq_true] at heval
    rw [Expr.columnRefs, List.forall_mem_append] at hcolumns
    rw [evalExpr, ihl heval.1 hcolumns.1, ok_bind, ihr heval.2 hcolumns.2, ok_bind, Expr.columnRefs,
      isEmpty_append, Expr.isIdempotent]
    exact congrArg Except.ok (hjoin ..)
  | unary op operand ih =>
    rw [evalExpr, ih heval hcolumns]
    rfl
  | udf fn args ih =>
    have hargs : ∃ cs, evalArgs ((firstRowKernels V).atPosition position) columns args = .ok cs ∧
        cs.all id = ((b || (Expr.columnRefsAll args).isEmpty) &&
          (Expr.isIdempotentAll args || decide (position = 0))) := by
      rw [Expr.isEvaluable] at heval
      rw [Expr.columnRefs] at hcolumns
      induction args with
      | nil => exact ⟨[], rfl, by simp [Expr.columnRefsAll, Expr.isIdempotentAll]⟩
      | cons arg args iha =>
        rw [Expr.isEvaluableAll, Bool.and_eq_true] at heval
        rw [Expr.columnRefsAll, List.forall_mem_append] at hcolumns
        obtain ⟨cs, hcs, hall⟩ := iha (fun a ha => ih a (.tail _ ha)) heval.2 hcolumns.2
        refine ⟨((b || arg.columnRefs.isEmpty) && (arg.isIdempotent || decide (position = 0))) :: cs,
          ?_, ?_⟩
        · rw [evalArgs, ih arg List.mem_cons_self heval.1 hcolumns.1, ok_bind, hcs, ok_bind]
          rfl
        · rw [List.all_cons, hall, Expr.columnRefsAll, isEmpty_append, Expr.isIdempotentAll]
          exact hjoin ..
    obtain ⟨cs, hcs, hall⟩ := hargs
    rw [evalExpr, hcs, ok_bind, Expr.columnRefs, Expr.isIdempotent, ← hall]
    rfl
  | aliased expr name isRename ih => exact ih heval hcolumns
  | download uriColumnName => cases heval
  | star => cases heval
  | synthetic kind => simp [evalExpr, firstRowKernels, SqlKernels.atPosition, Expr.columnRefs,
      Expr.isIdempotent]

/-- The same value in every column. -/
def constantRow (names : List String) (b : Bool) : Dict String Bool :=
  .ofList (names.map (fun n => (n, b)))

variable {names : List String}

theorem get?_constantRow {name : String} (b : Bool) (h : name ∈ names) :
    (constantRow names b).get? name = some b := by
  rw [constantRow, Dict.get?_ofList, ← List.map_reverse]
  have hmem : name ∈ names.reverse := List.mem_reverse.mpr h
  generalize names.reverse = l at hmem
  induction l with
  | nil => cases hmem
  | cons n l ih =>
    rw [List.map_cons, List.lookup_cons]
    by_cases hn : name = n
    · rw [hn, beq_self_eq_true]
    · rw [beq_eq_false_iff_ne.mpr hn]
      exact ih ((List.mem_cons.mp hmem).resolve_left hn)

theorem truthOf_constantRow {e : Expr V} (heval : e.isEvaluable = true)
    (hnames : ∀ name ∈ e.columnRefs, name ∈ names) (position : ℕ) (b : Bool) :
    truthOf (firstRowKernels V) ((firstRowKernels V).atPosition position) (constantRow names b) e =
      some (some ((b || e.columnRefs.isEmpty) && (e.isIdempotent || decide (position = 0)))) := by
  rw [truthOf, evalExpr_firstRowKernels position heval
    (fun name hname => get?_constantRow b (hnames name hname))]
  rfl

theorem not_readPushKeepsRows {pyarrowUdf : String → Bool} {predicateExpr : Expr V}
    {partitioning : Option Partitioning} (hnot : ¬ PushSafe pyarrowUdf predicateExpr partitioning) :
    ¬ ReadPushKeepsRows pyarrowUdf predicateExpr partitioning := by
  unfold PushSafe at hnot
  push Not at hnot
  obtain ⟨heval, hidem, ⟨q, hq, hqconv, hqrefs⟩, q', hq', hqconv', hmixed⟩ := hnot
  rw [Bool.ne_false_iff] at heval
  intro hkeeps
  have hperm := splitByConvertibility_perm pyarrowUdf predicateExpr
  -- the convertible part reads a column, and it is pushed
  obtain ⟨e, hconv⟩ : ∃ e, (splitByConvertibility pyarrowUdf predicateExpr).convertible = some e := by
    rw [← Option.ne_none_iff_exists', Ne, ← partConjuncts_eq_nil,
      (splitByConvertibility_spec pyarrowUdf predicateExpr).1]
    exact List.ne_nil_of_mem (List.mem_filter.mpr ⟨hq, hqconv⟩)
  obtain ⟨he, hconj⟩ := convertible_spec hconv
  set scanner : ArrowFileScanner V := ⟨none, none, partitioning⟩ with hscanner
  obtain ⟨plan, happly⟩ : ∃ plan, applyPredicate scanner e = some plan := by
    rw [← Option.ne_none_iff_exists', Ne, applyPredicate_eq_none, partitionColumns_eq]
    exact fun hall => hmixed (hall q' ((hconj q').mpr ⟨hq', hqconv'⟩))
  -- what is not idempotent stays above the read
  obtain ⟨residual, hres⟩ : ∃ e, (splitByConvertibility pyarrowUdf predicateExpr).residual =
    some e := by
    rw [← Option.ne_none_iff_exists']
    intro hnone
    refine hidem ((eq_true_iff_parts (f := Expr.isIdempotent) (fun _ _ => rfl) hperm).mpr ?_)
    intro part hpart
    rw [hconv, hnone] at hpart
    obtain rfl : part = e := by simpa [List.reduceOption] using hpart
    exact isIdempotent_of_isPyarrowConvertible he
  have hrefs : ∀ part, some part ∈ [(splitByConvertibility pyarrowUdf predicateExpr).convertible,
      (splitByConvertibility pyarrowUdf predicateExpr).residual] →
      part.isEvaluable = true ∧ ∀ name ∈ part.columnRefs, name ∈ predicateExpr.columnRefs := by
    intro part hpart
    refine ⟨(eq_true_iff_parts (f := Expr.isEvaluable) (fun _ _ => rfl) hperm).mp heval part
      (List.reduceOption_mem_iff.mpr hpart), fun name hname => ?_⟩
    rw [part.columnRefs_conjuncts] at hname
    obtain ⟨c, hc, hname⟩ := List.mem_flatMap.mp hname
    rw [predicateExpr.columnRefs_conjuncts]
    exact List.mem_flatMap.mpr ⟨c, hperm.mem_iff.mp (List.mem_flatMap.mpr ⟨_, hpart, hc⟩), hname⟩
  obtain ⟨heconv, henames⟩ := hrefs e (by rw [hconv]; exact List.mem_cons_self)
  obtain ⟨hresval, hresnames⟩ := hrefs residual (by rw [hres]; exact .tail _ List.mem_cons_self)
  have hecols : e.columnRefs.isEmpty = false := by
    rw [List.isEmpty_eq_false_iff]
    intro hnil
    rw [e.columnRefs_conjuncts, List.flatMap_eq_nil_iff] at hnil
    exact hqrefs (hnil q ((hconj q).mpr ⟨hq, hqconv⟩))
  -- of two rows, the second passes only at the first position
  set K := firstRowKernels V
  set names := predicateExpr.columnRefs with hnames
  set table := [constantRow names false, constantRow names true] with htable
  have htruth : ∀ row ∈ table, HasTruth K pyarrowUdf predicateExpr scanner row := by
    intro row hrow
    refine ⟨fun position => ?_, nofun, nofun⟩
    obtain ⟨b, rfl⟩ : ∃ b, row = constantRow names b := by
      rw [htable, List.mem_cons, List.mem_singleton] at hrow
      exact hrow.elim (fun h => ⟨false, h⟩) (fun h => ⟨true, h⟩)
    rw [truthOf_constantRow heval (fun _ h => h)]
    rfl
  have hkept := hkeeps Bool K scanner table rfl htruth
  have hscan : table.filter (scannerPasses K pyarrowUdf scanner) = table := by
    rw [List.filter_eq_self]
    exact fun _ _ => rfl
  have hpush : pushIntoRead pyarrowUdf predicateExpr scanner = .filter residual plan := by
    rw [pushIntoRead_eq, hconv, Option.bind_some, happly, hres]
    rfl
  rw [hpush, rows_residual htruth hconv hres happly, rows_filter_readFiles htruth, hscan] at hkept
  have hpasses : ∀ b, passes K (K.scanner pyarrowUdf) (constantRow names b) e = b := by
    intro b
    rw [passes_scanner he 0, passes, truthOf_constantRow heconv henames, hecols,
      isIdempotent_of_isPyarrowConvertible he]
    cases b <;> rfl
  have hresidual : passes K (K.atPosition 0) (constantRow names true) residual = true := by
    rw [passes, truthOf_constantRow hresval hresnames]
    simp
  have hfirst : passes K (K.atPosition 0) (constantRow names false) predicateExpr = false := by
    rw [passes_eq_parts hconv, hpasses]
    rfl
  have hsecond : passes K (K.atPosition 1) (constantRow names true) predicateExpr = false := by
    rw [passes, truthOf_constantRow heval (fun _ h => h), Bool.eq_false_iff.mpr hidem]
    simp
  have hfilter : table.filter (fun row => passes K (K.scanner pyarrowUdf) row e) =
    [constantRow names true] := by
    simp [htable, hpasses]
  rw [hfilter, htable] at hkept
  simp [keepAt, hresidual, hfirst, hsecond] at hkept

/-! ### Main result -/

/-- Both splits lose nothing, and each part holds what it is meant to hold. -/
structure SplitsKeepRows (pyarrowUdf : String → Bool) (partitionColumns : List String)
    (predicateExpr : Expr V) : Prop where
  convertibility : ∀ (C : Type) (K : SqlKernels V C) (position : ℕ) (row : Dict String C),
    passes K (K.atPosition position) row predicateExpr = true ↔
      ∀ part ∈ [(splitByConvertibility pyarrowUdf predicateExpr).convertible,
        (splitByConvertibility pyarrowUdf predicateExpr).residual].reduceOption,
        passes K (K.atPosition position) row part = true
  columns : ∀ (C : Type) (K : SqlKernels V C) (position : ℕ) (row : Dict String C),
    passes K (K.atPosition position) row predicateExpr = true ↔
      ∀ part ∈ [(splitPredicateByColumns partitionColumns predicateExpr).dataPredicate,
        (splitPredicateByColumns partitionColumns predicateExpr).partitionPredicate,
        (splitPredicateByColumns partitionColumns predicateExpr).residualPredicate].reduceOption,
        passes K (K.atPosition position) row part = true
  convertible : ∀ e ∈ (splitByConvertibility pyarrowUdf predicateExpr).convertible,
    ∀ q ∈ e.conjuncts, q.isPyarrowConvertible pyarrowUdf = true
  data : ∀ e ∈ (splitPredicateByColumns partitionColumns predicateExpr).dataPredicate,
    ∀ c ∈ e.columnRefs, c ∉ partitionColumns
  partition : ∀ e ∈ (splitPredicateByColumns partitionColumns predicateExpr).partitionPredicate,
    ∀ c ∈ e.columnRefs, c ∈ partitionColumns

/-- Both splits are always right.  The plan that the rule makes of them keeps the rows of every
table unless a filter with an increasing id, a random number or a uuid stays above a read that now
drops rows. -/
theorem pushIntoRead_keeps_rows_iff (pyarrowUdf : String → Bool) (partitionColumns : List String)
    (predicateExpr : Expr V) (partitioning : Option Partitioning) :
    SplitsKeepRows pyarrowUdf partitionColumns predicateExpr ∧
      (ReadPushKeepsRows pyarrowUdf predicateExpr partitioning ↔
        PushSafe pyarrowUdf predicateExpr partitioning) := by
  have hspec := splitPredicateByColumns_spec partitionColumns predicateExpr
  refine ⟨⟨fun C K position row => ?_, fun C K position row => ?_, fun e he q hq => ?_, hspec.data,
    fun e he => (hspec.partition e he).2⟩, fun h => ?_, readPushKeepsRows_of_pushSafe⟩
  · exact eq_true_iff_parts (passes_and (K.atPosition_binary position))
      (splitByConvertibility_perm pyarrowUdf predicateExpr)
  · exact eq_true_iff_parts (passes_and (K.atPosition_binary position)) hspec.perm_parts
  · exact (((convertible_spec he).2 q).mp hq).2
  · by_contra hnot
    exact not_readPushKeepsRows hnot h

/-- A cell of an Arrow table. -/
inductive SqlCell where
  | int (n : ℤ)
  | bool (b : Bool)
  | null
deriving DecidableEq, Repr

namespace SqlCell

def truth : SqlCell → Option (Option Bool)
  | .int _ => none
  | .bool b => some (some b)
  | .null => some none

def ofTruth : Option Bool → SqlCell
  | some b => .bool b
  | none => .null

/-- Comparisons of integers, and conjunction. -/
def binary : Operation → SqlCell → SqlCell → Except PyError SqlCell
  | .and, a, b =>
    match a.truth, b.truth with
    | some s, some t => .ok (ofTruth (kleeneAnd s t))
    | _, _ => .error .typeError
  | .gt, .int m, .int n => .ok (.bool (decide (n < m)))
  | .lt, .int m, .int n => .ok (.bool (decide (m < n)))
  | .gt, .null, _ | .gt, _, .null | .lt, .null, _ | .lt, _, .null => .ok .null
  | _, _, _ => .error .typeError

/-- Integer literals, and increasing ids that count from zero. -/
def kernels : SqlKernels ℤ SqlCell where
  literal := .int
  binary := binary
  unary := fun _ _ => .error .typeError
  udf := fun _ _ => .error .typeError
  synthetic := fun _ => .error .typeError
  truth := truth
  syntheticAt := fun position kind =>
    match kind with
    | .monotonicallyIncreasingId _ => .ok (.int position)
    | _ => .error .typeError
  and_kleene := by
    intro a b s t hs ht
    refine ⟨ofTruth (kleeneAnd s t), ?_, ?_⟩
    · simp only [binary, hs, ht]
    · cases kleeneAnd s t <;> rfl
  and_boolean := by
    intro a b c h
    cases ha : a.truth with
    | none =>
      simp only [binary, ha] at h
      cases h
    | some s =>
      cases hb : b.truth with
      | none =>
        simp only [binary, ha, hb] at h
        cases h
      | some t => exact ⟨rfl, rfl⟩

end SqlCell

/-- On the rows 1, 2 and 3 no row behind the first has an id below one, so `a > 1 AND id() < 1`
keeps none.  The read drops the first row, and the filter that stays counts anew. -/
theorem pushIntoRead_fails_increasingId :
    let predicateExpr : Expr ℤ := .binary .and (.binary .gt (.column "a") (.literal 1))
      (.binary .lt (.synthetic (.monotonicallyIncreasingId 0)) (.literal 1))
    let scanner : ArrowFileScanner ℤ := ⟨none, none, none⟩
    let table : List (Dict String SqlCell) := [.ofList [("a", .int 1)], .ofList [("a", .int 2)],
      .ofList [("a", .int 3)]]
    (ReadPlan.filter predicateExpr (.readFiles scanner)).rows SqlCell.kernels (fun _ => false) table =
        .ok [] ∧
      (pushIntoRead (fun _ => false) predicateExpr scanner).rows SqlCell.kernels
        (fun _ => false) table =
        .ok [.ofList [("a", .int 2)]] ∧
      ¬ ReadPushKeepsRows (fun _ => false) predicateExpr none := by
  intro predicateExpr scanner table
  have hfilter : (ReadPlan.filter predicateExpr (.readFiles scanner)).rows SqlCell.kernels
    (fun _ => false)
      table = .ok [] := by decide +kernel
  have hpush : (pushIntoRead (fun _ => false) predicateExpr scanner).rows SqlCell.kernels
    (fun _ => false)
      table = .ok [.ofList [("a", .int 2)]] := by decide +kernel
  refine ⟨hfilter, hpush, fun h => ?_⟩
  have hrows := h SqlCell SqlCell.kernels scanner table rfl (by
    intro row hrow
    refine ⟨fun position => ?_, nofun, nofun⟩
    obtain ⟨n, rfl⟩ : ∃ n, row = .ofList [("a", .int n)] := by
      simp only [table, List.mem_cons, List.not_mem_nil, or_false] at hrow
      obtain rfl | rfl | rfl := hrow
      · exact ⟨1, rfl⟩
      · exact ⟨2, rfl⟩
      · exact ⟨3, rfl⟩
    show (SqlCell.ofTruth
      (kleeneAnd (some (decide (1 < n))) (some (decide ((position : ℤ) < 1))))).truth.isSome
    cases kleeneAnd (some (decide (1 < n))) (some (decide ((position : ℤ) < 1))) <;> rfl)
  rw [hfilter, hpush] at hrows
  cases hrows

end RayTfm.Logical
