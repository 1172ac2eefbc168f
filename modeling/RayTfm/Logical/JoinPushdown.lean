import RayTfm.Lib.Joins
import RayTfm.Logical.FilterProject

/-! # Filters below joins

The model of `Join.which_side_to_push_predicate` (`logical/operators/join_operator.py`) and of
`join_tables` (`execution/operators/join.py`).  The join of two tables itself is pyarrow's
`Table.join` and a parameter (`TableJoin`): up to the order of the rows it is the join by nested
loops, where a null key has no partner, an inner and a left outer join drop the right keys, a right
outer join drops the left keys, a semi and an anti join put out one side, and a column that both
sides put out gets the suffix of its side.  Nothing is assumed of a full outer join, below which no
filter is put.

The operator sends each row to a partition by a hash of its keys and joins the partitions one by
one. Columns of types that Arrow does not join are carried beside their row and are columns like any
other here.

The rule compares the columns of a predicate with those of the inputs, not with those of the join,
where a suffix may have given the name to a column of the other side:
`pushThroughJoin_keeps_rows_iff`. -/

namespace RayTfm.Logical

variable {V C : Type}

/-! ### The rule -/

/-- `JoinSide`. -/
inductive JoinSide where
  | left | right
deriving DecidableEq, Repr

/-- What belongs to a side, of what the left and the right have. -/
def JoinSide.pick {A : Type} : JoinSide → A → A → A
  | .left, l, _ => l
  | .right, _, r => r

/-- `_get_pushdown_rules`: whether a predicate may go to the left and to the right. -/
def JoinType.pushdownRules : JoinType → Bool × Bool
  | .inner => (true, true)
  | .leftOuter => (true, false)
  | .rightOuter => (false, true)
  | .leftSemi => (true, false)
  | .rightSemi => (false, true)
  | .leftAnti => (true, false)
  | .rightAnti => (false, true)
  | .fullOuter => (false, false)

/-- `which_side_to_push_predicate`, with the names of the schemas that are known. -/
def whichSideToPushPredicate (spec : JoinSpec) (leftSchema rightSchema : Option (List String))
    (predicateExpr : Expr V) : Option JoinSide :=
  match leftSchema, rightSchema with
  | some leftColumns, some rightColumns =>
    if leftColumns.isEmpty || rightColumns.isEmpty then none
    else
      let predicateColumns := predicateExpr.columnRefs
      let canEvaluateOnLeft :=
        predicateColumns.all (· ∈ leftColumns) || predicateColumns.all (· ∈ spec.leftKeyColumns)
      let canEvaluateOnRight :=
        predicateColumns.all (· ∈ rightColumns) || predicateColumns.all (· ∈ spec.rightKeyColumns)
      if canEvaluateOnLeft && spec.joinType.pushdownRules.1 then some .left
      else if canEvaluateOnRight && spec.joinType.pushdownRules.2 then some .right
      else none
  | _, _ => none

/-! ### Tables and their join -/

/-- A table: the names of its columns and its rows. -/
structure Table (C : Type) where
  names : List String
  rows : List (Dict String C)
  keys_eq : ∀ row ∈ rows, row.keys = names

/-- The rows of a table that are kept. -/
def Table.filter (table : Table C) (keep : Dict String C → Bool) : Table C where
  names := table.names
  rows := table.rows.filter keep
  keys_eq row hrow := table.keys_eq row (List.mem_of_mem_filter hrow)

/-- A row of a join, whose names may repeat. -/
abbrev JoinedRow (C : Type) := List (String × C)

/-- A column by its name, which must be unique. -/
def uniqueColumn (row : JoinedRow C) (name : String) : Option C :=
  match row.filter (fun p => p.1 = name) with
  | [p] => some p.2
  | _ => none

/-- A column of a join: its name, and the input column that it shows. -/
structure OutputColumn where
  name : String
  side : JoinSide
  source : String
deriving DecidableEq, Repr

/-- The columns of the two inputs that a join puts out. -/
def exposedColumns (spec : JoinSpec) (leftNames rightNames : List String) : List String × List String :=
  match spec.joinType with
  | .inner | .leftOuter | .fullOuter => (leftNames, rightNames.filter (· ∉ spec.rightKeyColumns))
  | .rightOuter => (leftNames.filter (· ∉ spec.leftKeyColumns), rightNames)
  | .leftSemi | .leftAnti => (leftNames, [])
  | .rightSemi | .rightAnti => ([], rightNames)

/-- The name of a column beside the columns of the other side. -/
def suffixed (suffix : Option String) (others : List String) (name : String) : String :=
  if name ∈ others then name ++ suffix.getD "" else name

/-- The columns of a join. -/
def outputColumns (spec : JoinSpec) (leftNames rightNames : List String) : List OutputColumn :=
  let exposed := exposedColumns spec leftNames rightNames
  exposed.1.map (fun c => ⟨suffixed spec.leftColumnsSuffix exposed.2 c, .left, c⟩) ++
    exposed.2.map (fun c => ⟨suffixed spec.rightColumnsSuffix exposed.1 c, .right, c⟩)

section join
variable [DecidableEq C] (null : C)

/-- Two rows agree on the keys, none of which is null. -/
def keysMatch (spec : JoinSpec) (left right : Dict String C) : Bool :=
  (spec.leftKeyColumns.zip spec.rightKeyColumns).all
    (fun k => (left.get? k.1).any (fun c => c ≠ null && right.get? k.2 = some c))

/-- The pairs of rows that a join puts together, by nested loops. -/
def joinedPairs (spec : JoinSpec) (left right : List (Dict String C)) :
    List (Option (Dict String C) × Option (Dict String C)) :=
  let r := keysMatch null spec
  let l := fun b a => keysMatch null spec a b
  match spec.joinType with
  | .inner => (Joins.inner r left right).map (fun p => (some p.1, some p.2))
  | .leftOuter => (Joins.outer r left right).map (fun p => (some p.1, p.2))
  | .rightOuter => (Joins.outer l right left).map (fun p => (p.2, some p.1))
  | .fullOuter =>
    (Joins.outer r left right).map (fun p => (some p.1, p.2)) ++
      (Joins.anti l right left).map (fun b => (none, some b))
  | .leftSemi => (Joins.semi r left right).map (fun a => (some a, none))
  | .rightSemi => (Joins.semi l right left).map (fun b => (none, some b))
  | .leftAnti => (Joins.anti r left right).map (fun a => (some a, none))
  | .rightAnti => (Joins.anti l right left).map (fun b => (none, some b))

/-- The value of an input column in a pair of rows. -/
def pairValue (pair : Option (Dict String C) × Option (Dict String C)) (side : JoinSide)
    (source : String) :
    Option C :=
  (side.pick pair.1 pair.2).bind (fun row => row.get? source)

/-- The output row of a pair: null where there is no row. -/
def joinedRow (outputs : List OutputColumn)
    (pair : Option (Dict String C) × Option (Dict String C)) : JoinedRow C :=
  outputs.map (fun o => (o.name, (pairValue pair o.side o.source).getD null))

/-- `pyarrow.Table.join`. -/
structure TableJoin where
  join : JoinSpec → Table C → Table C → List (JoinedRow C)
  join_perm : ∀ spec left right, spec.joinType ≠ .fullOuter →
    (join spec left right).Perm
      ((joinedPairs null spec left.rows right.rows).map
        (joinedRow null (outputColumns spec left.names right.names)))

/-- The join by nested loops. -/
def nestedLoopJoin : TableJoin null where
  join spec left right :=
    (joinedPairs null spec left.rows right.rows).map
      (joinedRow null (outputColumns spec left.names right.names))
  join_perm _ _ _ _ := .refl _

end join

/-- What is checked before the tables are joined, in `JoiningAggregation` and `join_tables`.  A key
that is not there raises when the rows are partitioned. -/
def joinChecks (spec : JoinSpec) (leftNames rightNames : List String) : Except PyError Unit := do
  pyAssert (0 < spec.leftKeyColumns.length)
  pyAssert (spec.rightKeyColumns.length = spec.leftKeyColumns.length)
  if spec.leftKeyColumns.all (· ∈ leftNames) && spec.rightKeyColumns.all (· ∈ rightNames) then
    match spec.joinType with
    | .leftSemi | .leftAnti | .rightSemi | .rightAnti => .ok ()
    | _ =>
      let rightOutputCols := rightNames.filter (· ∉ spec.rightKeyColumns)
      let collisions := leftNames.filter (· ∈ rightOutputCols)
      if spec.leftColumnsSuffix.isNone && spec.rightColumnsSuffix.isNone && !collisions.isEmpty then
        let sorted := collisions.mergeSort (fun a b => a ≤ b)
        .error (.valueError ("Left and right columns suffixes cannot be both None (overlapping columns: [" ++
          ", ".intercalate (sorted.map (fun c => "'" ++ c ++ "'")) ++ "])"))
      else .ok ()
  else .error .keyError

section operator
variable [DecidableEq C] {null : C} (J : TableJoin null) (spec : JoinSpec)

/-- `join_tables`. -/
def joinTables (left right : Table C) : Except PyError (List (JoinedRow C)) := do
  joinChecks spec left.names right.names
  return J.join spec left right

/-- The rows of a table that belong to a partition. -/
def Table.partition (table : Table C) (hash : List (Option C) → ℕ) (numPartitions : ℕ)
    (keyColumns : List String)
    (i : ℕ) : Table C :=
  table.filter (fun row => hash (keyColumns.map row.get?) % numPartitions = i)

/-- `JoinOperator`: the joins of the partitions. -/
def joinOperator (hash : List (Option C) → ℕ) (numPartitions : ℕ) (left right : Table C) :
    Except PyError (List (JoinedRow C)) := do
  let parts ← (List.range numPartitions).mapM (fun i =>
    joinTables J spec (left.partition hash numPartitions spec.leftKeyColumns i)
      (right.partition hash numPartitions spec.rightKeyColumns i))
  return parts.flatten

end operator

/-! ### Filters above and below -/

section filters
variable (K : CellKernels V C) (predicateExpr : Expr V)

/-- The mask of a filter at one row of a join. -/
def keepsJoinedRow (row : JoinedRow C) : Except PyError Bool := do
  let mask ← evalExpr K.toKernels (uniqueColumn row) predicateExpr
  return K.keeps mask

/-- A filter on the rows of a join. -/
def filterJoinedRows (rows : List (JoinedRow C)) : Except PyError (List (JoinedRow C)) := do
  let mask ← rows.mapM (keepsJoinedRow K predicateExpr)
  return ((rows.zip mask).filter Prod.snd).map Prod.fst

/-- A filter on a table. -/
def filterTable (table : Table C) : Except PyError (Table C) := do
  let mask ← table.rows.mapM (keepsRow K predicateExpr)
  return ⟨table.names, ((table.rows.zip mask).filter Prod.snd).map Prod.fst, by
    intro row hrow
    obtain ⟨p, hp, rfl⟩ := List.mem_map.mp hrow
    exact table.keys_eq _ (List.of_mem_zip (List.mem_of_mem_filter hp)).1⟩

/-- The plan with the filter above the join. -/
def filterAboveJoin [DecidableEq C] (J : TableJoin K.nulls) (spec : JoinSpec)
    (hash : List (Option C) → ℕ)
    (numPartitions : ℕ) (left right : Table C) : Except PyError (List (JoinedRow C)) := do
  let joined ← joinOperator J spec hash numPartitions left right
  filterJoinedRows K predicateExpr joined

/-- `_push_filter_through_conditionally`: the plan with the filter on one side. -/
def filterBelowJoin [DecidableEq C] (J : TableJoin K.nulls) (spec : JoinSpec) (side : JoinSide)
    (hash : List (Option C) → ℕ) (numPartitions : ℕ) (left right : Table C) :
    Except PyError (List (JoinedRow C)) :=
  match side with
  | .left => do
      let filtered ← filterTable K predicateExpr left
      joinOperator J spec hash numPartitions filtered right
  | .right => do
      let filtered ← filterTable K predicateExpr right
      joinOperator J spec hash numPartitions left filtered

end filters

/-! ### The property and its condition -/

/-- The predicate has a value on every row of a table. -/
def HasValues (K : CellKernels V C) (predicateExpr : Expr V) (table : Table C) : Prop :=
  ∀ row ∈ table.rows, ∃ b, keepsRow K predicateExpr row = .ok b

/-- If the original plan has a result, the one with the filter on a side has the same rows. -/
def SameRows [DecidableEq C] (K : CellKernels V C) (predicateExpr : Expr V) (J : TableJoin K.nulls)
    (spec : JoinSpec) (side : JoinSide) (hash : List (Option C) → ℕ) (numPartitions : ℕ)
    (left right : Table C) : Prop :=
  ∀ out, filterAboveJoin K predicateExpr J spec hash numPartitions left right = .ok out →
    ∃ out', filterBelowJoin K predicateExpr J spec side hash numPartitions left right = .ok out' ∧
      out'.Perm out

/-- Pushing a filter to a side of a join is right on the tables with the given columns, if the
predicate has a value on every row of the side, also on those without a partner. -/
def PushKeepsJoin (spec : JoinSpec) (predicateExpr : Expr V) (side : JoinSide)
    (leftNames rightNames : List String) :
    Prop :=
  ∀ (C : Type) [DecidableEq C] (K : CellKernels V C) (J : TableJoin K.nulls)
    (hash : List (Option C) → ℕ)
    (numPartitions : ℕ) (left right : Table C), left.names = leftNames → right.names = rightNames →
    HasValues K predicateExpr (side.pick left right) →
    SameRows K predicateExpr J spec side hash numPartitions left right

/-- A left and a right key that are compared. -/
def KeyPair (spec : JoinSpec) (a b : JoinSide × String) : Prop :=
  ∃ k ∈ spec.leftKeyColumns.zip spec.rightKeyColumns, a = (.left, k.1) ∧ b = (.right, k.2)

/-- Two input columns that have the same value in every row of the join: a column and itself, and in
an inner join the keys that are compared. -/
def SameColumn (spec : JoinSpec) (a b : JoinSide × String) : Prop :=
  a = b ∨ (spec.joinType = .inner ∧ Relation.EqvGen (KeyPair spec) a b)

/-- The columns of the join that the predicate reads are those that it reads on the pushed side. -/
def ReadsPushedSide (spec : JoinSpec) (predicateExpr : Expr V) (side : JoinSide)
    (leftNames rightNames : List String) :
    Prop :=
  ∀ name ∈ predicateExpr.columnRefs, ∀ o ∈ outputColumns spec leftNames rightNames, o.name = name →
    SameColumn spec (o.side, o.source) (side, name)

/-- The predicate has a value on some row with the columns of the join. -/
def JoinEvaluable (spec : JoinSpec) (predicateExpr : Expr V) (leftNames rightNames : List String) :
    Prop :=
  ∃ (C : Type) (K : Kernels V C) (row : JoinedRow C) (v : C),
    row.map Prod.fst = (outputColumns spec leftNames rightNames).map OutputColumn.name ∧
      evalExpr K (uniqueColumn row) predicateExpr = .ok v

/-- The columns of the join that the predicate reads show what it reads on the pushed side; or the
join raises, or the predicate has no value on any row of the join. -/
def NamesPushedSide (spec : JoinSpec) (predicateExpr : Expr V) (side : JoinSide)
    (leftNames rightNames : List String) : Prop :=
  ReadsPushedSide spec predicateExpr side leftNames rightNames ∨
    joinChecks spec leftNames rightNames ≠ .ok () ∨
    ¬ JoinEvaluable spec predicateExpr leftNames rightNames

/-! ### Pairs of rows -/

section pairs
variable [DecidableEq C] {null : C} {spec : JoinSpec} {left right : List (Dict String C)}
  {pair : Option (Dict String C) × Option (Dict String C)}

theorem joinedPairs_filter_left (h : spec.joinType.pushdownRules.1 = true)
    (keep : Dict String C → Bool) :
    joinedPairs null spec (left.filter keep) right =
      (joinedPairs null spec left right).filter (fun pair => pair.1.any keep) := by
  unfold joinedPairs
  cases htype : spec.joinType with
  | inner =>
    simp only [List.filter_map]
    rw [← Joins.filter_inner_left]
    rfl
  | leftOuter =>
    simp only [List.filter_map]
    rw [← Joins.filter_outer]
    rfl
  | leftSemi =>
    simp only [List.filter_map]
    rw [← Joins.filter_semi]
    rfl
  | leftAnti =>
    simp only [List.filter_map]
    rw [← Joins.filter_anti]
    rfl
  | _ =>
    rw [htype] at h
    cases h

theorem joinedPairs_filter_right (h : spec.joinType.pushdownRules.2 = true)
    (keep : Dict String C → Bool) :
    joinedPairs null spec left (right.filter keep) =
      (joinedPairs null spec left right).filter (fun pair => pair.2.any keep) := by
  unfold joinedPairs
  cases htype : spec.joinType with
  | inner =>
    simp only [List.filter_map]
    rw [← Joins.filter_inner_right]
    rfl
  | rightOuter =>
    simp only [List.filter_map]
    rw [← Joins.filter_outer]
    rfl
  | rightSemi =>
    simp only [List.filter_map]
    rw [← Joins.filter_semi]
    rfl
  | rightAnti =>
    simp only [List.filter_map]
    rw [← Joins.filter_anti]
    rfl
  | _ =>
    rw [htype] at h
    cases h

theorem exists_mem_left_of_mem_joinedPairs (h : spec.joinType.pushdownRules.1 = true)
    (hpair : pair ∈ joinedPairs null spec left right) : ∃ row ∈ left, pair.1 = some row := by
  unfold joinedPairs at hpair
  cases htype : spec.joinType with
  | inner =>
    rw [htype] at hpair
    obtain ⟨p, hp, rfl⟩ := List.mem_map.mp hpair
    exact ⟨p.1, (Joins.mem_inner.mp hp).1, rfl⟩
  | leftOuter =>
    rw [htype] at hpair
    obtain ⟨p, hp, rfl⟩ := List.mem_map.mp hpair
    exact ⟨p.1, Joins.fst_mem_of_mem_outer hp, rfl⟩
  | leftSemi =>
    rw [htype] at hpair
    obtain ⟨a, ha, rfl⟩ := List.mem_map.mp hpair
    exact ⟨a, Joins.mem_of_mem_semi ha, rfl⟩
  | leftAnti =>
    rw [htype] at hpair
    obtain ⟨a, ha, rfl⟩ := List.mem_map.mp hpair
    exact ⟨a, Joins.mem_of_mem_anti ha, rfl⟩
  | _ =>
    rw [htype] at h
    cases h

theorem exists_mem_right_of_mem_joinedPairs (h : spec.joinType.pushdownRules.2 = true)
    (hpair : pair ∈ joinedPairs null spec left right) : ∃ row ∈ right, pair.2 = some row := by
  unfold joinedPairs at hpair
  cases htype : spec.joinType with
  | inner =>
    rw [htype] at hpair
    obtain ⟨p, hp, rfl⟩ := List.mem_map.mp hpair
    exact ⟨p.2, (Joins.mem_inner.mp hp).2.1, rfl⟩
  | rightOuter =>
    rw [htype] at hpair
    obtain ⟨p, hp, rfl⟩ := List.mem_map.mp hpair
    exact ⟨p.1, Joins.fst_mem_of_mem_outer hp, rfl⟩
  | rightSemi =>
    rw [htype] at hpair
    obtain ⟨a, ha, rfl⟩ := List.mem_map.mp hpair
    exact ⟨a, Joins.mem_of_mem_semi ha, rfl⟩
  | rightAnti =>
    rw [htype] at hpair
    obtain ⟨a, ha, rfl⟩ := List.mem_map.mp hpair
    exact ⟨a, Joins.mem_of_mem_anti ha, rfl⟩
  | _ =>
    rw [htype] at h
    cases h

theorem keysMatch_iff {l r : Dict String C} :
    keysMatch null spec l r = true ↔ ∀ k ∈ spec.leftKeyColumns.zip spec.rightKeyColumns,
      ∃ c, l.get? k.1 = some c ∧ r.get? k.2 = some c ∧ c ≠ null := by
  unfold keysMatch
  rw [List.all_eq_true]
  refine forall₂_congr (fun k _ => ?_)
  rw [Option.any_eq_true]
  refine exists_congr (fun c => and_congr_right (fun _ => ?_))
  rw [Bool.and_eq_true, decide_eq_true_eq, decide_eq_true_eq, and_comm]

theorem pairValue_eq_of_sameColumn {a b : JoinSide × String}
    (hpair : pair ∈ joinedPairs null spec left right)
    (h : SameColumn spec a b) : pairValue pair a.1 a.2 = pairValue pair b.1 b.2 := by
  obtain rfl | ⟨hinner, hkeys⟩ := h
  · rfl
  unfold joinedPairs at hpair
  rw [hinner] at hpair
  obtain ⟨p, hp, rfl⟩ := List.mem_map.mp hpair
  have hmatch := keysMatch_iff.mp (Joins.mem_inner.mp hp).2.2
  induction hkeys with
  | rel a b hab =>
    obtain ⟨k, hk, rfl, rfl⟩ := hab
    obtain ⟨c, hleft, hright, -⟩ := hmatch k hk
    exact hleft.trans hright.symm
  | refl a => rfl
  | symm a b _ ih => exact ih.symm
  | trans a b c _ _ ihab ihbc => exact ihab.trans ihbc

omit [DecidableEq C] in
theorem uniqueColumn_joinedRow {outputs : List OutputColumn} {name : String} {v : C} :
    uniqueColumn (joinedRow null outputs pair) name = some v ↔
      ∃ o, outputs.filter (fun o => o.name = name) = [o] ∧
      (pairValue pair o.side o.source).getD null = v := by
  unfold uniqueColumn joinedRow
  have hname : (fun p : String × C => decide (p.1 = name)) ∘
      (fun o : OutputColumn => (o.name, (pairValue pair o.side o.source).getD null)) = fun o =>
        decide (o.name = name) := rfl
  rw [List.filter_map, hname]
  cases outputs.filter (fun o => o.name = name) with
  | nil => simp
  | cons o rest =>
    cases rest with
    | nil => simp
    | cons o' rest => simp

omit [DecidableEq C] in
theorem map_fst_joinedRow (outputs : List OutputColumn) :
    (joinedRow null outputs pair).map Prod.fst = outputs.map OutputColumn.name := by
  unfold joinedRow
  rw [List.map_map]
  rfl

end pairs

/-! ### The condition is enough -/

section enough
variable {spec : JoinSpec} {predicateExpr : Expr V} {side : JoinSide}
    {leftNames rightNames : List String}

/-- The rule's answer: the side may take a filter, and what the predicate reads is on it. -/
theorem of_whichSideToPushPredicate
    (h : whichSideToPushPredicate spec (some leftNames) (some rightNames) predicateExpr = some side) :
    side.pick spec.joinType.pushdownRules.1 spec.joinType.pushdownRules.2 = true ∧
      ((∀ name ∈ predicateExpr.columnRefs, name ∈ side.pick leftNames rightNames) ∨
        ∀ name ∈ predicateExpr.columnRefs,
        name ∈ side.pick spec.leftKeyColumns spec.rightKeyColumns) := by
  unfold whichSideToPushPredicate at h
  simp only at h
  split_ifs at h with hempty hleft hright
  · cases h
    rw [Bool.and_eq_true, Bool.or_eq_true, List.all_eq_true, List.all_eq_true] at hleft
    exact ⟨hleft.2, hleft.1.imp (fun h c hc => of_decide_eq_true (h c hc))
      (fun h c hc => of_decide_eq_true (h c hc))⟩
  · cases h
    rw [Bool.and_eq_true, Bool.or_eq_true, List.all_eq_true, List.all_eq_true] at hright
    exact ⟨hright.2, hright.1.imp (fun h c hc => of_decide_eq_true (h c hc))
      (fun h c hc => of_decide_eq_true (h c hc))⟩

theorem keys_mem_of_joinChecks (h : joinChecks spec leftNames rightNames = .ok ()) :
    (∀ k ∈ spec.leftKeyColumns, k ∈ leftNames) ∧ ∀ k ∈ spec.rightKeyColumns, k ∈ rightNames := by
  obtain ⟨_, -, h⟩ := bind_eq_ok.mp h
  obtain ⟨_, -, h⟩ := bind_eq_ok.mp h
  split_ifs at h with hkeys
  rw [Bool.and_eq_true, List.all_eq_true, List.all_eq_true] at hkeys
  exact ⟨fun k hk => of_decide_eq_true (hkeys.1 k hk), fun k hk => of_decide_eq_true (hkeys.2 k hk)⟩

theorem mem_pick_of_joinChecks (hside : whichSideToPushPredicate spec (some leftNames)
    (some rightNames) predicateExpr = some side)
    (hchecks : joinChecks spec leftNames rightNames = .ok ()) :
    ∀ name ∈ predicateExpr.columnRefs, name ∈ side.pick leftNames rightNames := by
  obtain ⟨-, hnames | hkeys⟩ := of_whichSideToPushPredicate hside
  · exact hnames
  · intro name hname
    have hkey := hkeys name hname
    cases side with
    | left => exact (keys_mem_of_joinChecks hchecks).1 name hkey
    | right => exact (keys_mem_of_joinChecks hchecks).2 name hkey

variable [DecidableEq C] {K : CellKernels V C} {left right : Table C}
variable {pair : Option (Dict String C) × Option (Dict String C)}

/-- Where the predicate reads the pushed side, it says of a row of the join what it says of the row
of that side. -/
theorem keepsRow_of_keepsJoinedRow {row : Dict String C}
    {b : Bool} (hreads : JoinEvaluable spec predicateExpr left.names right.names →
      ReadsPushedSide spec predicateExpr side left.names right.names)
    (hnames : ∀ name ∈ predicateExpr.columnRefs, name ∈ row.keys)
    (hpair : pair ∈ joinedPairs K.nulls spec left.rows right.rows)
    (hrow : side.pick pair.1 pair.2 = some row)
    (h : keepsJoinedRow K predicateExpr
      (joinedRow K.nulls (outputColumns spec left.names right.names) pair) = .ok b) :
    keepsRow K predicateExpr row = .ok b := by
  obtain ⟨c, hc, hb⟩ := bind_eq_ok.mp h
  have hreads := hreads ⟨C, K.toKernels, _, c, map_fst_joinedRow _, hc⟩
  refine keepsRow_eq_ok.mpr ⟨c, ?_, Except.ok.inj hb⟩
  rw [← hc]
  apply evalExpr_congr
  intro name hname
  obtain ⟨v, hv⟩ := Option.isSome_iff_exists.mp (isSome_of_evalExpr_eq_ok hc name hname)
  obtain ⟨o, ho, hvalue⟩ := uniqueColumn_joinedRow.mp hv
  have hmem : o ∈ (outputColumns spec left.names right.names).filter
    (fun o => o.name = name) := by rw [ho]; simp
  rw [List.mem_filter, decide_eq_true_eq] at hmem
  have hsame := pairValue_eq_of_sameColumn hpair (hreads name hname o hmem.1 hmem.2)
  obtain ⟨w, hw⟩ := Option.isSome_iff_exists.mp (Dict.get?_isSome_iff.mpr (hnames name hname))
  have hpushed : pairValue pair side name = some w := by rw [pairValue, hrow]; exact hw
  rw [hv, hw, ← hvalue, hsame, hpushed, Option.getD_some]

omit [DecidableEq C] in
theorem filterTable_eq_ok {table : Table C} (h : HasValues K predicateExpr table) :
    filterTable K predicateExpr table = .ok (table.filter (accepts (keepsRow K predicateExpr))) := by
  obtain ⟨mask, hmask⟩ := exists_mapM_eq_ok h
  have hrows := mask_eq_ok_iff.mpr ⟨h, rfl⟩
  rw [hmask] at hrows
  unfold filterTable Table.filter
  rw [hmask]
  simp only [ok_bind]
  congr 2
  exact Except.ok.inj hrows

omit [DecidableEq C] in
theorem hasValues_of_filterTable {table filtered : Table C}
    (h : filterTable K predicateExpr table = .ok filtered) : HasValues K predicateExpr table := by
  obtain ⟨mask, hmask, -⟩ := bind_eq_ok.mp h
  intro row hrow
  obtain ⟨i, hi, rfl⟩ := List.mem_iff_getElem.mp hrow
  have hall := mapM_eq_ok_iff.mp hmask
  exact ⟨mask.get ⟨i, hall.length_eq ▸ hi⟩, hall.get hi (hall.length_eq ▸ hi)⟩

/-- The pairs of a filtered side are the pairs whose row of that side is kept. -/
theorem joinedPairs_filter
    (hside : side.pick spec.joinType.pushdownRules.1 spec.joinType.pushdownRules.2 = true)
    (keep : Dict String C → Bool) :
    joinedPairs K.nulls spec (side.pick (left.filter keep) left).rows
      (side.pick right (right.filter keep)).rows =
      (joinedPairs K.nulls spec left.rows right.rows).filter
        (fun pair => (side.pick pair.1 pair.2).any keep) := by
  cases side with
  | left => exact joinedPairs_filter_left hside keep
  | right => exact joinedPairs_filter_right hside keep

theorem exists_row_of_mem_joinedPairs
    (hside : side.pick spec.joinType.pushdownRules.1 spec.joinType.pushdownRules.2 = true)
    (hpair : pair ∈ joinedPairs K.nulls spec left.rows right.rows) :
    ∃ row ∈ (side.pick left right).rows, side.pick pair.1 pair.2 = some row := by
  cases side with
  | left => exact exists_mem_left_of_mem_joinedPairs hside hpair
  | right => exact exists_mem_right_of_mem_joinedPairs hside hpair

variable {J : TableJoin K.nulls}

theorem join_filter_perm
    (hside : side.pick spec.joinType.pushdownRules.1 spec.joinType.pushdownRules.2 = true)
    (hreads : JoinEvaluable spec predicateExpr left.names right.names →
      ReadsPushedSide spec predicateExpr side left.names right.names)
    (hnames : ∀ name ∈ predicateExpr.columnRefs, name ∈ side.pick left.names right.names)
    (hvalue : ∀ row ∈ J.join spec left right, ∃ b, keepsJoinedRow K predicateExpr row = .ok b) :
    (J.join spec (side.pick (left.filter (accepts (keepsRow K predicateExpr))) left)
      (side.pick right (right.filter (accepts (keepsRow K predicateExpr))))).Perm
      ((J.join spec left right).filter (accepts (keepsJoinedRow K predicateExpr))) := by
  have hfull : spec.joinType ≠ .fullOuter := by
    intro htype
    rw [htype] at hside
    cases side <;> cases hside
  have hrows := J.join_perm spec left right hfull
  have hpushed := J.join_perm spec (side.pick (left.filter (accepts (keepsRow K predicateExpr))) left)
    (side.pick right (right.filter (accepts (keepsRow K predicateExpr)))) hfull
  have hl : (side.pick (left.filter (accepts (keepsRow K predicateExpr))) left).names =
    left.names := by cases side <;> rfl
  have hr : (side.pick right (right.filter (accepts (keepsRow K predicateExpr)))).names =
    right.names := by cases side <;> rfl
  rw [hl, hr, joinedPairs_filter hside] at hpushed
  refine hpushed.trans (.trans (.of_eq ?_) (hrows.filter _).symm)
  rw [List.filter_map]
  congr 1
  apply List.filter_congr
  intro pair hpair
  obtain ⟨row, hrow, hpick⟩ : ∃ row ∈ (side.pick left right).rows, side.pick pair.1 pair.2 = some row :=
    exists_row_of_mem_joinedPairs hside hpair
  have hkeys : row.keys = side.pick left.names right.names := by
    cases side with
    | left => exact left.keys_eq row hrow
    | right => exact right.keys_eq row hrow
  obtain ⟨b, hb⟩ := hvalue _ (hrows.mem_iff.mpr (List.mem_map_of_mem hpair))
  have hb' := keepsRow_of_keepsJoinedRow hreads (hkeys ▸ hnames) hpair hpick hb
  rw [hpick, Option.any_some, accepts_of_eq_ok hb', Function.comp_apply, accepts_of_eq_ok hb]

omit [DecidableEq C] in
theorem Table.filter_comm (table : Table C) (keep keep' : Dict String C → Bool) :
    (table.filter keep).filter keep' = (table.filter keep').filter keep := by
  unfold Table.filter
  simp only [Table.mk.injEq, true_and]
  rw [List.filter_filter, List.filter_filter]
  exact List.filter_congr (fun row _ => Bool.and_comm _ _)

variable {hash : List (Option C) → ℕ}

theorem filterBelowJoin_eq {numPartitions : ℕ}
    (h : HasValues K predicateExpr (side.pick left right)) :
    filterBelowJoin K predicateExpr J spec side hash numPartitions left right =
      joinOperator J spec hash numPartitions
        (side.pick (left.filter (accepts (keepsRow K predicateExpr))) left)
        (side.pick right (right.filter (accepts (keepsRow K predicateExpr)))) := by
  cases side with
  | left =>
    have hfilter : filterTable K predicateExpr left = _ := filterTable_eq_ok h
    unfold filterBelowJoin
    rw [hfilter]
    rfl
  | right =>
    have hfilter : filterTable K predicateExpr right = _ := filterTable_eq_ok h
    unfold filterBelowJoin
    rw [hfilter]
    rfl

/-- The plan with the filter below fails if the predicate has no value on a row of the side. -/
theorem hasValues_of_filterBelowJoin {numPartitions : ℕ} {out : List (JoinedRow C)}
    (h : filterBelowJoin K predicateExpr J spec side hash numPartitions left right = .ok out) :
    HasValues K predicateExpr (side.pick left right) := by
  cases side with
  | left =>
    obtain ⟨filtered, hfiltered, -⟩ := bind_eq_ok.mp h
    exact hasValues_of_filterTable hfiltered
  | right =>
    obtain ⟨filtered, hfiltered, -⟩ := bind_eq_ok.mp h
    exact hasValues_of_filterTable hfiltered

theorem joinTables_filter_perm {part : List (JoinedRow C)}
    (hside : whichSideToPushPredicate spec (some left.names)
      (some right.names) predicateExpr = some side)
    (hreads : joinChecks spec left.names right.names = .ok () →
      JoinEvaluable spec predicateExpr left.names right.names →
      ReadsPushedSide spec predicateExpr side left.names right.names)
    (hpart : joinTables J spec left right = .ok part)
    (hvalue : ∀ row ∈ part, ∃ b, keepsJoinedRow K predicateExpr row = .ok b) :
    ∃ part', joinTables J spec (side.pick (left.filter (accepts (keepsRow K predicateExpr))) left)
        (side.pick right (right.filter (accepts (keepsRow K predicateExpr)))) = .ok part' ∧
      part'.Perm (part.filter (accepts (keepsJoinedRow K predicateExpr))) := by
  obtain ⟨_, hchecks, hjoin⟩ := bind_eq_ok.mp hpart
  cases hjoin
  refine ⟨_, ?_, join_filter_perm (of_whichSideToPushPredicate hside).1 (hreads hchecks)
    (mem_pick_of_joinChecks hside hchecks) hvalue⟩
  cases side with
  | left => exact bind_eq_ok.mpr ⟨_, hchecks, rfl⟩
  | right => exact bind_eq_ok.mpr ⟨_, hchecks, rfl⟩

theorem pushKeepsJoin_of_reads
    (hside : whichSideToPushPredicate spec (some leftNames) (some rightNames) predicateExpr = some side)
    (hreads : joinChecks spec leftNames rightNames = .ok () →
      JoinEvaluable spec predicateExpr leftNames rightNames →
      ReadsPushedSide spec predicateExpr side leftNames rightNames) :
    PushKeepsJoin spec predicateExpr side leftNames rightNames := by
  intro C _ K J hash numPartitions left right hleft hright hrows out hout
  subst hleft hright
  obtain ⟨joined, hjoined, hfilter⟩ := bind_eq_ok.mp hout
  obtain ⟨hvalue, rfl⟩ := mask_eq_ok_iff.mp hfilter
  obtain ⟨parts, hparts, hflatten⟩ := bind_eq_ok.mp hjoined
  cases hflatten
  rw [filterBelowJoin_eq hrows]
  -- the filter goes through the partitioning
  have hpartition : ∀ i,
    (∀ part, joinTables J spec (left.partition hash numPartitions spec.leftKeyColumns i)
        (right.partition hash numPartitions spec.rightKeyColumns i) = .ok part →
      (∀ row ∈ part, ∃ b, keepsJoinedRow K predicateExpr row = .ok b) →
      ∃ part', joinTables J spec
          ((side.pick (left.filter (accepts (keepsRow K predicateExpr))) left).partition hash
            numPartitions
            spec.leftKeyColumns i)
          ((side.pick right (right.filter (accepts (keepsRow K predicateExpr)))).partition hash
            numPartitions
            spec.rightKeyColumns i) = .ok part' ∧
        part'.Perm (part.filter (accepts (keepsJoinedRow K predicateExpr)))) := by
    intro i part hpart hvalue
    obtain ⟨part', hpart', hperm⟩ :=
      joinTables_filter_perm (by exact hside) (by exact hreads) hpart hvalue
    refine ⟨part', ?_, hperm⟩
    rw [← hpart']
    cases side with
    | left => exact congrArg (joinTables J spec · _) (Table.filter_comm left _ _)
    | right => exact congrArg (joinTables J spec _ ·) (Table.filter_comm right _ _)
  have hforall := mapM_eq_ok_iff.mp hparts
  clear hparts hjoined hfilter hout
  suffices hnew : ∃ parts', List.Forall₂ (fun i part' => joinTables J spec
        ((side.pick (left.filter (accepts (keepsRow K predicateExpr))) left).partition hash
          numPartitions
          spec.leftKeyColumns i)
        ((side.pick right (right.filter (accepts (keepsRow K predicateExpr)))).partition hash
          numPartitions
          spec.rightKeyColumns i) = .ok part') (List.range numPartitions) parts' ∧
      parts'.flatten.Perm (parts.flatten.filter (accepts (keepsJoinedRow K predicateExpr))) by
    obtain ⟨parts', hparts', hperm⟩ := hnew
    exact ⟨parts'.flatten, bind_eq_ok.mpr ⟨parts', mapM_eq_ok_iff.mpr hparts', rfl⟩, hperm⟩
  generalize List.range numPartitions = partitions at hforall ⊢
  induction hforall with
  | nil => exact ⟨[], .nil, .refl _⟩
  | @cons i part partitions parts hpart _ ih =>
    rw [List.flatten_cons, List.forall_mem_append] at hvalue
    obtain ⟨part', hpart', hperm⟩ := hpartition i part hpart hvalue.1
    obtain ⟨parts', hparts', hperms⟩ := ih hvalue.2
    refine ⟨part' :: parts', .cons hpart' hparts', ?_⟩
    rw [List.flatten_cons, List.flatten_cons, List.filter_append]
    exact hperm.append hperms

end enough

/-! ### The condition is needed -/

/-- Cells that are the expressions they were computed by; null is none of the literals. -/
def freeKernels (keeps : Expr Bool → Bool) : CellKernels V (Expr Bool) where
  literal _ := .star
  binary op a b := .ok (.binary op a b)
  unary op a := .ok (.unary op a)
  udf fn args := .ok (.udf fn args)
  synthetic kind := .ok (.synthetic kind)
  nulls := .download ""
  keeps := keeps

theorem freeKernels_total (keeps : Expr Bool → Bool) :
    (freeKernels keeps : CellKernels V (Expr Bool)).toKernels.Total :=
  ⟨fun _ _ _ => ⟨_, rfl⟩, fun _ _ => ⟨_, rfl⟩, fun _ _ => ⟨_, rfl⟩, fun _ => ⟨_, rfl⟩⟩

/-- With them an expression remembers the columns that it was evaluated on. -/
theorem eq_of_evalExpr_freeKernels {keeps : Expr Bool → Bool}
    {columns columns' : String → Option (Expr Bool)}
    {e : Expr V} {v : Expr Bool} (h : evalExpr (freeKernels keeps).toKernels columns e = .ok v)
    (h' : evalExpr (freeKernels keeps).toKernels columns' e = .ok v) :
    ∀ name ∈ e.columnRefs, columns name = columns' name := by
  induction e generalizing v with
  | column name =>
    intro n hn
    obtain rfl := List.mem_singleton.mp hn
    rw [evalExpr] at h h'
    cases hn : columns n with
    | none =>
      rw [hn] at h
      cases h
    | some w =>
      cases hn' : columns' n with
      | none =>
        rw [hn'] at h'
        cases h'
      | some w' =>
        rw [hn] at h
        rw [hn'] at h'
        exact congrArg some ((Except.ok.inj h).trans (Except.ok.inj h').symm)
  | binary op left right ihl ihr =>
    obtain ⟨a, ha, h⟩ := bind_eq_ok.mp h
    obtain ⟨b, hb, h⟩ := bind_eq_ok.mp h
    obtain ⟨a', ha', h'⟩ := bind_eq_ok.mp h'
    obtain ⟨b', hb', h'⟩ := bind_eq_ok.mp h'
    obtain ⟨-, rfl, rfl⟩ := Expr.binary.inj (Except.ok.inj (h.trans h'.symm))
    rw [Expr.columnRefs, List.forall_mem_append]
    exact ⟨ihl ha ha', ihr hb hb'⟩
  | unary op operand ih =>
    obtain ⟨a, ha, h⟩ := bind_eq_ok.mp h
    obtain ⟨a', ha', h'⟩ := bind_eq_ok.mp h'
    obtain ⟨-, rfl⟩ := Expr.unary.inj (Except.ok.inj (h.trans h'.symm))
    exact ih ha ha'
  | udf fn args ih =>
    obtain ⟨cs, hcs, hv⟩ := bind_eq_ok.mp h
    obtain ⟨cs', hcs', hv'⟩ := bind_eq_ok.mp h'
    obtain ⟨-, rfl⟩ := Expr.udf.inj (Except.ok.inj (hv.trans hv'.symm))
    have hargs : ∀ arg ∈ args, ∀ name ∈ arg.columnRefs, columns name = columns' name := by
      clear h h' hv hv'
      induction args generalizing cs with
      | nil => simp
      | cons a args iha =>
        obtain ⟨b, hb, hcs⟩ := bind_eq_ok.mp hcs
        obtain ⟨bs, hbs, hcs⟩ := bind_eq_ok.mp hcs
        obtain ⟨b', hb', hcs'⟩ := bind_eq_ok.mp hcs'
        obtain ⟨bs', hbs', hcs'⟩ := bind_eq_ok.mp hcs'
        obtain ⟨rfl, rfl⟩ := List.cons.inj (Except.ok.inj (hcs.trans hcs'.symm))
        rw [List.forall_mem_cons]
        exact ⟨ih a (.head _) hb hb',
          iha (fun arg harg => ih arg (.tail _ harg)) bs hbs hbs'⟩
    intro name hname
    obtain ⟨arg, harg, hname⟩ := Expr.mem_columnRefs_udf.mp hname
    exact hargs arg harg name hname
  | aliased expr name isRename ih => exact ih h h'
  | literal value => simp [Expr.columnRefs]
  | download uriColumnName => simp [Expr.columnRefs]
  | star => simp [Expr.columnRefs]
  | synthetic kind => simp [Expr.columnRefs]

theorem isSome_uniqueColumn_iff {row : JoinedRow C} {name : String} :
    (uniqueColumn row name).isSome ↔ ((row.map Prod.fst).filter (fun n => n = name)).length = 1 := by
  have hlength : ((row.map Prod.fst).filter (fun n => n = name)).length =
    (row.filter (fun p => p.1 = name)).length := by
    rw [List.filter_map, List.length_map]
    rfl
  rw [hlength]
  unfold uniqueColumn
  cases row.filter (fun p => p.1 = name) with
  | nil => simp
  | cons p rest =>
    cases rest with
    | nil => simp
    | cons p' rest => simp

section one
variable [DecidableEq C] {null : C} {spec : JoinSpec}

omit [DecidableEq C] in
theorem Table.filter_eq_self {table : Table C} {keep : Dict String C → Bool}
    (h : ∀ row ∈ table.rows, keep row = true) :
    table.filter keep = table := by
  obtain ⟨names, rows, hkeys⟩ := table
  unfold Table.filter
  simp only [Table.mk.injEq, true_and]
  exact List.filter_eq_self.mpr h

theorem joinOperator_one (J : TableJoin null) (left right : Table C) :
    joinOperator J spec (fun _ => 0) 1 left right = joinTables J spec left right := by
  have hpartition : ∀ (table : Table C) keys, table.partition (fun _ => 0) 1 keys 0 = table :=
    fun table keys => Table.filter_eq_self (fun _ _ => rfl)
  unfold joinOperator
  rw [List.range_one, List.mapM_cons, List.mapM_nil, hpartition, hpartition]
  cases joinTables J spec left right with
  | error e => rfl
  | ok part =>
    show Except.ok [part].flatten = Except.ok part
    rw [List.flatten_singleton]

theorem joinTables_nestedLoopJoin {left right : Table C}
    {pair : Option (Dict String C) × Option (Dict String C)}
    (hchecks : joinChecks spec left.names right.names = .ok ())
    (hpairs : joinedPairs null spec left.rows right.rows = [pair]) :
    joinTables (nestedLoopJoin null) spec left right =
      .ok [joinedRow null (outputColumns spec left.names right.names) pair] := by
  unfold joinTables
  rw [hchecks, ok_bind]
  show Except.ok ((joinedPairs null spec left.rows right.rows).map _) = _
  rw [hpairs, List.map_singleton]

end one

section needed
variable {spec : JoinSpec} {predicateExpr : Expr V} {side : JoinSide}
    {leftNames rightNames : List String}

/-- Tables whose join has one row, on which the predicate reads something else than on the one row
of the pushed side. -/
theorem not_pushKeepsJoin {left right : Table (Expr Bool)} {row : Dict String (Expr Bool)}
    {pair : Option (Dict String (Expr Bool)) × Option (Dict String (Expr Bool))}
    (hchecks : joinChecks spec left.names right.names = .ok ())
    (hpairs : joinedPairs (.download "") spec left.rows right.rows = [pair])
    (hrows : (side.pick left right).rows = [row])
    (hrefs : ∀ name ∈ predicateExpr.columnRefs, (row.get? name).isSome)
    (heval : JoinEvaluable spec predicateExpr left.names right.names)
    (hdiff : ∃ name ∈ predicateExpr.columnRefs,
      uniqueColumn (joinedRow (.download "") (outputColumns spec left.names right.names) pair)
        name ≠ row.get? name) :
    ¬ PushKeepsJoin spec predicateExpr side left.names right.names := by
  intro h
  obtain ⟨C, K₀, row₀, v₀, hrow₀, hv₀⟩ := heval
  obtain ⟨v, hv⟩ := evalExpr_of_total (freeKernels_total (fun _ => true)) hrefs ⟨v₀, hv₀⟩
  set joined := joinedRow (.download "") (outputColumns spec left.names right.names) pair with hjoined
  obtain ⟨w, hw⟩ : ∃ w, evalExpr (freeKernels (fun _ => true)).toKernels
    (uniqueColumn joined) predicateExpr = .ok w := by
    refine evalExpr_of_total (freeKernels_total _) (fun name hname => ?_) ⟨v₀, hv₀⟩
    have hsome := isSome_of_evalExpr_eq_ok hv₀ name hname
    rwa [isSome_uniqueColumn_iff, hrow₀, ← map_fst_joinedRow _, ← isSome_uniqueColumn_iff] at hsome
  have hne : w ≠ v := by
    rintro rfl
    obtain ⟨name, hname, hdiff⟩ := hdiff
    exact hdiff (eq_of_evalExpr_freeKernels hw hv name hname)
  set K : CellKernels V (Expr Bool) := freeKernels (fun t => t = v) with hK
  have hkeeps : keepsRow K predicateExpr row = .ok true :=
    keepsRow_eq_ok.mpr ⟨v, hv, decide_eq_true rfl⟩
  have hdrops : keepsJoinedRow K predicateExpr joined = .ok false :=
    bind_eq_ok.mpr ⟨w, hw, congrArg Except.ok (decide_eq_false hne)⟩
  have htotal : ∀ r ∈ (side.pick left right).rows, ∃ b, keepsRow K predicateExpr r = .ok b := by
    rw [hrows]
    exact List.forall_mem_singleton.mpr ⟨true, hkeeps⟩
  have habove : filterAboveJoin K predicateExpr (nestedLoopJoin _) spec (fun _ => 0) 1 left right =
    .ok [] := by
    refine bind_eq_ok.mpr
      ⟨[joined], ?_, mask_eq_ok_iff.mpr ⟨List.forall_mem_singleton.mpr ⟨false, hdrops⟩, ?_⟩⟩
    · rw [joinOperator_one]
      exact joinTables_nestedLoopJoin hchecks hpairs
    · rw [List.filter_singleton, accepts_of_eq_ok hdrops]
      rfl
  obtain ⟨out, hbelow, hperm⟩ :=
    h _ K (nestedLoopJoin _) (fun _ => 0) 1 left right rfl rfl htotal [] habove
  have hkept : (side.pick left right).filter (accepts (keepsRow K predicateExpr)) =
    side.pick left right := by
    apply Table.filter_eq_self
    rw [hrows]
    exact List.forall_mem_singleton.mpr (accepts_of_eq_ok hkeeps)
  have hleft : side.pick (left.filter (accepts (keepsRow K predicateExpr))) left = left := by
    cases side with
    | left => exact hkept
    | right => rfl
  have hright : side.pick right (right.filter (accepts (keepsRow K predicateExpr))) = right := by
    cases side with
    | left => rfl
    | right => exact hkept
  have hjoin : joinTables (nestedLoopJoin K.nulls) spec left right = .ok [joined] :=
    joinTables_nestedLoopJoin hchecks hpairs
  rw [filterBelowJoin_eq htotal, hleft, hright, joinOperator_one, hjoin] at hbelow
  cases hbelow
  exact List.cons_ne_nil _ _ (List.perm_nil.mp hperm)

theorem eq_of_mem_outputColumns_of_nil {o : OutputColumn} {name : String}
    (h : side.pick (exposedColumns spec leftNames rightNames).2
      (exposedColumns spec leftNames rightNames).1 = [])
    (ho : o ∈ outputColumns spec leftNames rightNames) (hname : o.name = name) :
    (o.side, o.source) = (side, name) := by
  unfold outputColumns suffixed at ho
  dsimp only at ho
  subst hname
  cases side with
  | left =>
    have h : (exposedColumns spec leftNames rightNames).2 = [] := h
    rw [h, List.map_nil, List.append_nil] at ho
    obtain ⟨c, -, rfl⟩ := List.mem_map.mp ho
    simp
  | right =>
    have h : (exposedColumns spec leftNames rightNames).1 = [] := h
    rw [h, List.map_nil, List.nil_append] at ho
    obtain ⟨c, -, rfl⟩ := List.mem_map.mp ho
    simp

theorem sameColumn_iff (hinner : spec.joinType = .inner) {a b : JoinSide × String} :
    SameColumn spec a b ↔ Relation.EqvGen (KeyPair spec) a b := by
  constructor
  · rintro (rfl | ⟨-, h⟩)
    · exact .refl _
    · exact h
  · exact fun h => .inr ⟨hinner, h⟩

theorem reads_of_pushKeepsJoin (hleftNames : leftNames.Nodup) (hrightNames : rightNames.Nodup)
    (hside : whichSideToPushPredicate spec (some leftNames) (some rightNames) predicateExpr = some side)
    (hchecks : joinChecks spec leftNames rightNames = .ok ())
    (heval : JoinEvaluable spec predicateExpr leftNames rightNames)
    (h : PushKeepsJoin spec predicateExpr side leftNames rightNames) :
    ReadsPushedSide spec predicateExpr side leftNames rightNames := by
  classical
  by_contra hreads
  unfold ReadsPushedSide at hreads
  push Not at hreads
  obtain ⟨name, hname, o, ho, honame, hother⟩ := hreads
  have hpushable := (of_whichSideToPushPredicate hside).1
  have hmem := mem_pick_of_joinChecks hside hchecks
  -- the cells of the column that the predicate reads on the side are true, all others are false
  set val : JoinSide × String → Expr Bool :=
    fun a => .literal (decide (SameColumn spec a (side, name))) with hval
  have hself : val (side, name) = .literal true := congrArg Expr.literal (decide_eq_true (.inl rfl))
  have hoval : val (o.side, o.source) = .literal false := congrArg Expr.literal (decide_eq_false hother)
  set l : Dict String (Expr Bool) := Dict.ofList (leftNames.map (fun c => (c, val (.left, c))))
  set r : Dict String (Expr Bool) := Dict.ofList (rightNames.map (fun c => (c, val (.right, c))))
  have hl : ∀ c, l.get? c = if c ∈ leftNames then some (val (.left, c)) else none :=
    Dict.get?_ofList_map hleftNames _
  have hr : ∀ c, r.get? c = if c ∈ rightNames then some (val (.right, c)) else none :=
    Dict.get?_ofList_map hrightNames _
  have hlkeys : l.keys = leftNames := Dict.keys_ofList_map hleftNames _
  have hrkeys : r.keys = rightNames := Dict.keys_ofList_map hrightNames _
  have hget : ∀ c, (side.pick l r).get? c = if c ∈ side.pick leftNames
    rightNames then some (val (side, c)) else none := by
    intro c
    cases side with
    | left => exact hl c
    | right => exact hr c
  have hmatch : spec.joinType = .inner → keysMatch (.download "") spec l r = true := by
    intro hinner
    rw [keysMatch_iff]
    intro k hk
    have hkeys := List.of_mem_zip hk
    have hkl := (keys_mem_of_joinChecks hchecks).1 k.1 hkeys.1
    have hkr := (keys_mem_of_joinChecks hchecks).2 k.2 hkeys.2
    have hpair : Relation.EqvGen (KeyPair spec) (.left, k.1) (.right, k.2) := .rel _ _ ⟨k, hk, rfl, rfl⟩
    have hsame : val (.left, k.1) = val (.right, k.2) := by
      refine congrArg Expr.literal (decide_eq_decide.mpr ?_)
      rw [sameColumn_iff hinner, sameColumn_iff hinner]
      exact ⟨fun h => .trans _ _ _ (.symm _ _ hpair) h, fun h => .trans _ _ _ hpair h⟩
    refine ⟨val (.left, k.1), by rw [hl, if_pos hkl], by rw [hr, if_pos hkr, hsame], ?_⟩
    rw [hval]
    simp
  have hvalue : ∀ pair : Option (Dict String (Expr Bool)) × Option (Dict String (Expr Bool)),
      (pair.1 = some l ∨ pair.1 = none) → (pair.2 = some r ∨ pair.2 = none) →
      (pairValue pair o.side o.source).getD (.download "") ≠ .literal true := by
    intro pair hleft hright
    have hcell : ∀ (row : Dict String (Expr Bool)) (names : List String),
        (∀ c, row.get? c = if c ∈ names then some (val (o.side, c)) else none) →
        (row.get? o.source).getD (.download "") ≠ .literal true := by
      intro row names hrow
      rw [hrow, hoval]
      split_ifs <;> simp
    unfold pairValue
    cases hoside : o.side with
    | left =>
      rw [hoside] at hcell
      obtain hleft | hleft := hleft
      · simp only [JoinSide.pick, hleft, Option.bind_some]
        exact hcell l leftNames hl
      · simp only [JoinSide.pick, hleft, Option.bind_none, Option.getD_none]
        simp
    | right =>
      rw [hoside] at hcell
      obtain hright | hright := hright
      · simp only [JoinSide.pick, hright, Option.bind_some]
        exact hcell r rightNames hr
      · simp only [JoinSide.pick, hright, Option.bind_none, Option.getD_none]
        simp
  have hcontra : ∀ (left right : Table (Expr Bool)) pair, left.names = leftNames →
    right.names = rightNames →
      joinedPairs (.download "") spec left.rows right.rows = [pair] →
      (side.pick left right).rows = [side.pick l r] →
      (pair.1 = some l ∨ pair.1 = none) → (pair.2 = some r ∨ pair.2 = none) → False := by
    intro left right pair hln hrn hpairs hrows hleft hright
    refine not_pushKeepsJoin (by rwa [hln, hrn]) hpairs hrows (fun n hn => ?_) (by rwa [hln, hrn])
      ⟨name, hname, fun heq => ?_⟩ (by rwa [hln, hrn])
    · rw [hget, if_pos (hmem n hn)]
      rfl
    · rw [hget, if_pos (hmem name hname), hself, hln, hrn] at heq
      obtain ⟨o', ho', hvalue'⟩ := uniqueColumn_joinedRow.mp heq
      have hoo : o ∈ [o'] := ho' ▸ List.mem_filter.mpr ⟨ho, decide_eq_true honame⟩
      obtain rfl := List.mem_singleton.mp hoo
      exact hvalue pair hleft hright hvalue'
  have hside' : side.pick (exposedColumns spec leftNames rightNames).2
    (exposedColumns spec leftNames rightNames).1 ≠ [] :=
    fun hnil => hother (.inl (eq_of_mem_outputColumns_of_nil hnil ho honame))
  set leftTable : Table (Expr Bool) := ⟨leftNames, [l], by simpa using hlkeys⟩
  set rightTable : Table (Expr Bool) := ⟨rightNames, [r], by simpa using hrkeys⟩
  cases htype : spec.joinType with
  | inner =>
    refine hcontra leftTable rightTable (some l, some r) rfl rfl ?_ ?_ (.inl rfl) (.inl rfl)
    · have hm := hmatch htype
      simp [joinedPairs, htype, Joins.inner, leftTable, rightTable, hm]
    · cases side <;> rfl
  | leftOuter =>
    cases side with
    | right =>
      rw [htype] at hpushable
      cases hpushable
    | left =>
      refine hcontra leftTable ⟨rightNames, [], by simp⟩ (some l, none) rfl rfl ?_ rfl
        (.inl rfl) (.inr rfl)
      simp [joinedPairs, htype, Joins.outer, Joins.padded, leftTable]
  | rightOuter =>
    cases side with
    | left =>
      rw [htype] at hpushable
      cases hpushable
    | right =>
      refine hcontra ⟨leftNames, [], by simp⟩ rightTable (none, some r) rfl rfl ?_ rfl
        (.inr rfl) (.inl rfl)
      simp [joinedPairs, htype, Joins.outer, Joins.padded, rightTable]
  | fullOuter =>
    rw [htype] at hpushable
    cases side <;> cases hpushable
  | _ =>
    apply hside'
    unfold exposedColumns
    rw [htype] at hpushable ⊢
    cases side with
    | left =>
      first
        | rfl
        | cases hpushable
    | right =>
      first
        | rfl
        | cases hpushable

end needed

/-- A filter that is put on one side of a join gives the same rows, on all tables with the given
columns on whose pushed side the predicate has a value, if and only if the columns of the join that
it reads show what it reads on that side (or the join raises, or the predicate has no value on any
row of the join). For any two tables with such columns it gives the same rows if and only if the
predicate has a value on every row of the pushed side, or the original plan raises. -/
theorem pushThroughJoin_keeps_rows_iff (spec : JoinSpec) (predicateExpr : Expr V) (side : JoinSide)
    (leftNames rightNames : List String) (hleftNames : leftNames.Nodup) (hrightNames : rightNames.Nodup)
    (hside : whichSideToPushPredicate spec (some leftNames) (some rightNames) predicateExpr =
      some side) :
    (PushKeepsJoin spec predicateExpr side leftNames rightNames ↔
      NamesPushedSide spec predicateExpr side leftNames rightNames) ∧
    (NamesPushedSide spec predicateExpr side leftNames rightNames →
      ∀ (C : Type) [DecidableEq C] (K : CellKernels V C) (J : TableJoin K.nulls)
        (hash : List (Option C) → ℕ) (numPartitions : ℕ) (left right : Table C),
        left.names = leftNames → right.names = rightNames →
        (SameRows K predicateExpr J spec side hash numPartitions left right ↔
          (∀ out, filterAboveJoin K predicateExpr J spec hash numPartitions left right ≠ .ok out) ∨
            HasValues K predicateExpr (side.pick left right))) := by
  have henough : NamesPushedSide spec predicateExpr side leftNames rightNames →
      PushKeepsJoin spec predicateExpr side leftNames rightNames := by
    rintro (hreads | hchecks | heval)
    · exact pushKeepsJoin_of_reads hside (fun _ _ => hreads)
    · exact pushKeepsJoin_of_reads hside (fun h _ => absurd h hchecks)
    · exact pushKeepsJoin_of_reads hside (fun _ h => absurd h heval)
  refine ⟨⟨fun h => ?_, henough⟩, fun hnames C _ K J hash numPartitions left right hleft hright => ?_⟩
  · by_cases hchecks : joinChecks spec leftNames rightNames = .ok ()
    · by_cases heval : JoinEvaluable spec predicateExpr leftNames rightNames
      · exact .inl (reads_of_pushKeepsJoin hleftNames hrightNames hside hchecks heval h)
      · exact .inr (.inr heval)
    · exact .inr (.inl hchecks)
  · constructor
    · intro h
      by_cases habove : ∃ out, filterAboveJoin K predicateExpr J spec hash numPartitions left right =
          .ok out
      · obtain ⟨out, hout⟩ := habove
        obtain ⟨out', hbelow, -⟩ := h out hout
        exact .inr (hasValues_of_filterBelowJoin hbelow)
      · exact .inl (not_exists.mp habove)
    · rintro (hnone | hvalues) out hout
      · exact absurd hout (hnone out)
      · exact henough hnames C K J hash numPartitions left right hleft hright hvalues out hout

/-- `join(on="id")` of tables with the columns `id`, `a` and `id`, `b`. -/
def joinOnId : JoinSpec := ⟨.inner, ["id"], ["id"], none, none⟩

/-- `col("id") > col("b")` goes to the right, whose key is the one that the join shows. -/
theorem pushThroughJoin_keeps_rows_joinOnId :
    PushKeepsJoin joinOnId (.binary .gt (.column "id") (.column "b") : Expr ℤ) .right ["id", "a"]
      ["id", "b"] := by
  refine (pushThroughJoin_keeps_rows_iff joinOnId _ .right ["id", "a"] ["id", "b"] (by decide)
    (by decide) (by decide)).1.mpr (.inl ?_)
  intro name hname o ho honame
  simp only [Expr.columnRefs, List.mem_append, List.mem_singleton] at hname
  obtain rfl | rfl := hname
  · have hcolumn : o = ⟨"id", .left, "id"⟩ := by
      revert o
      decide
    rw [hcolumn]
    exact .inr ⟨rfl, .rel _ _ ⟨("id", "id"), by decide, rfl, rfl⟩⟩
  · have hcolumn : o = ⟨"b", .right, "b"⟩ := by
      revert o
      decide
    rw [hcolumn]
    exact .inl rfl

/-- `join(on="id", left_suffix="_l")` of two tables that both have a column `b`: the column `b` of
the join is the right one, and the filter on it is put on the left. -/
theorem pushThroughJoin_fails_suffix :
    whichSideToPushPredicate ⟨.inner, ["id"], ["id"], some "_l", none⟩ (some ["id", "b"])
      (some ["id", "b"]) bPositive =
      some .left ∧
    (filterAboveJoin intCells bPositive (nestedLoopJoin _) ⟨.inner, ["id"], ["id"], some "_l", none⟩
      (fun _ => 0) 1
      ⟨["id", "b"], [Dict.ofList [("id", 1), ("b", 1)]], by decide⟩
      ⟨["id", "b"], [Dict.ofList [("id", 1), ("b", -1)]], by decide⟩).toOption = some [] ∧
    (filterBelowJoin intCells bPositive (nestedLoopJoin _) ⟨.inner, ["id"], ["id"], some "_l", none⟩
      .left (fun _ => 0) 1
      ⟨["id", "b"], [Dict.ofList [("id", 1), ("b", 1)]], by decide⟩
      ⟨["id", "b"], [Dict.ofList [("id", 1), ("b", -1)]], by decide⟩).toOption =
        some [[("id", 1), ("b_l", 1), ("b", -1)]] := by
  decide

end RayTfm.Logical
