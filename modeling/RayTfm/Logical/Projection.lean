import RayTfm.Data.Split
import RayTfm.Logical.Expressions

/-! # Projections

The model of `eval_projection` (`plan_expression/expression_evaluator.py`) and of
`expand_star_exprs` and `exprlist_to_fields` (`expressions.py`).

A block is given by its columns in order and the number of its rows (`Frame`).  An expression may
evaluate to a scalar, of which only writing it to a block makes a column (`fill`).  A projection
evaluates its list against the block and writes the results one after the other into a new block, so
of two expressions with one name the later gives the value and the earlier the place.  A leading
star stands for the columns of the block, each replaced by its rename if the list has one.

`runtimeExprs` is the star expansion of the evaluator and `expandStarExprs` that of the planner;
`star_expansions_agree` compares them, and the planned fields with the columns put out. -/

namespace RayTfm.Logical

open RayTfm.Data (BlockFormat)

variable {V C T : Type}

/-! ### Evaluation -/

/-- A block: a table counts its rows apart from its columns. -/
structure Frame (C : Type) where
  format : BlockFormat
  numRows : ℕ
  columns : Dict String C
deriving DecidableEq

namespace Frame

def columnNames (block : Frame C) : List String := block.columns.keys

/-- `num_rows` of the accessor: an Arrow table without columns is said to have no rows. -/
def accessorNumRows (block : Frame C) : ℕ :=
  if block.format = .arrow ∧ block.columnNames = [] then 0 else block.numRows

/-- The check for an empty block of which no schema is known. -/
def isSchemaless (block : Frame C) : Bool := block.accessorNumRows = 0 && block.columnNames = []

/-- `upsert_column`: in place if there is a column of this name. -/
def upsertColumn (block : Frame C) (name : String) (column : C) : Frame C :=
  { block with columns := block.columns.set name column }

/-- `drop`. -/
def drop (block : Frame C) (names : List String) : Except PyError (Frame C) :=
  if names.all (· ∈ block.columnNames) then .ok { block with columns := block.columns.eraseAll names }
  else .error .keyError

end Frame

/-- The operations on columns, with the column that `None` fills, and what a value is once it is
written to a block: a scalar is repeated, a column stays. -/
structure BlockKernels (V C : Type) extends Kernels V C where
  nulls : C
  fill : C → Except PyError C

/-- `fill_column`. -/
def Frame.fillColumn (K : BlockKernels V C) (block : Frame C) (name : String) (value : C) :
    Except PyError (Frame C) := do
  let column ← K.fill value
  return block.upsertColumn name column

/-- `_BATCH_SIZE_PRESERVING_STUB_COL_NAME`: the hidden column of a block that has no other. -/
def batchSizePreservingStubColName : String := "__bsp_stub"

/-- The column that the evaluator starts the new block with. -/
def stubColName : String := "__stub__"

/-- `_extract_input_columns_renaming_mapping`: the new name of each renamed column. -/
def inputColumnsRenamingMapping (exprs : List (Expr V)) : Dict String String :=
  Dict.ofList (exprs.filterMap Expr.renaming?)

/-- `rename_exprs_by_source`: the rename of each renamed column, the last one if there are
several. -/
def renameExprsBySource (exprs : List (Expr V)) : Dict String (Expr V) :=
  Dict.ofList (exprs.filterMap (fun e => e.renaming?.map (fun r => (r.1, e))))

/-- The star expansion of `_eval_projection_without_cse`: each input column or its rename, then the
renames whose source is missing, then the other expressions. -/
def runtimeExprs (inputColumnNames : List String) : List (Expr V) → List (Expr V)
  | .star :: exprs =>
    let renames := renameExprsBySource exprs
    let ordered := inputColumnNames.map (fun c => (renames.get? c).getD (.column c))
    let leftOver := (renames.eraseAll inputColumnNames).values
    let extra := exprs.filter (fun e => !e.isRenameExpr)
    ordered ++ (leftOver ++ extra)
  | exprs => exprs

/-- One output of a projection.  `Project` refuses an expression without a name, the evaluator a
star. -/
def namedOutput (K : Kernels V C) (columns : String → Option C) (e : Expr V) :
    Except PyError (String × C) :=
  match e.name with
  | none => .error .typeError
  | some name => do
      let column ← evalExpr K columns e
      return (name, column)

/-- The end of `_eval_projection_without_cse`: the outputs go into a block that starts with a stub
column in place of the input's columns. -/
def fillOutputs (K : BlockKernels V C) (block : Frame C) (outputs : List (String × C)) :
    Except PyError (Frame C) := do
  let stubbed := block.upsertColumn stubColName K.nulls
  let cleared ← stubbed.drop block.columnNames
  let filled ← outputs.foldlM (fun newBlock p => newBlock.fillColumn K p.1 p.2) cleared
  filled.drop [stubColName]

/-- `_eval_projection_without_cse`.  Without any output the unpacking of the names raises. -/
def evalProjectionWithoutCse (K : BlockKernels V C) (exprs : List (Expr V)) (block : Frame C) :
    Except PyError (Frame C) :=
  if block.isSchemaless then .ok block
  else if exprs.isEmpty then
    .ok ⟨block.format, block.numRows, Dict.empty.set batchSizePreservingStubColName K.nulls⟩
  else do
    let outputs ← (runtimeExprs block.columnNames exprs).mapM
      (namedOutput K.toKernels block.columns.get?)
    if outputs.isEmpty then .error (.valueError "not enough values to unpack (expected 2, got 0)")
    else fillOutputs K block outputs

/-- The common sub-expressions, each written to the block that the next one is evaluated on. -/
def fillCommonSubExprs (K : BlockKernels V C) : List (Expr V) → Frame C → Except PyError (Frame C)
  | [], workingBlock => .ok workingBlock
  | e :: commonSubExprs, workingBlock => do
      let p ← namedOutput K.toKernels workingBlock.columns.get? e
      let filled ← workingBlock.fillColumn K p.1 p.2
      fillCommonSubExprs K commonSubExprs filled

/-- `_drop_cse_temp_columns`. -/
def dropCseTempColumns (block : Frame C) (tempColumns : List String) : Frame C :=
  { block with columns := block.columns.eraseAll tempColumns }

/-- `eval_projection`. -/
def evalProjection (K : BlockKernels V C) (exprs : List (Expr V)) (block : Frame C)
    (commonSubExprs : List (Expr V)) : Except PyError (Frame C) :=
  if commonSubExprs.isEmpty then evalProjectionWithoutCse K exprs block
  else do
    let workingBlock ← fillCommonSubExprs K commonSubExprs block
    let outputBlock ← evalProjectionWithoutCse K exprs workingBlock
    return dropCseTempColumns outputBlock (commonSubExprs.filterMap Expr.name)

/-! ### Star expansion and fields of the planner -/

/-- `expand_star_exprs`. -/
def expandStarExprs (exprs : List (Expr V)) (inputNames : List String) : List (Expr V) :=
  if exprs.any Expr.isStar then
    let renameBySource : Dict String (Expr V) := Dict.ofList
      ((exprs.filterMap (fun e => e.renaming?.map (fun r => (r.1, e)))).filter
        (fun p => p.1 ∈ inputNames))
    exprs.flatMap (fun e =>
      if e.isStar then inputNames.map (fun name => (renameBySource.get? name).getD (.column name))
      else
        match e.renaming? with
        | some (source, _) => if source ∈ inputNames then [] else [e]
        | none => [e])
  else exprs

/-- What the planner knows of the types: those of literals, of the operations on types, and those
that UDFs and the leaves declare. -/
structure TypeKernels (V T : Type) where
  bool : T
  literal : V → Option T
  evalKernelType : Operation → List T → Option T
  udf : String → Option T
  download : Option T
  synthetic : Synthetic → Option T

/-- `get_type`. -/
def getType (K : TypeKernels V T) (inputSchema : Dict String T) : Expr V → Option T
  | .column name => inputSchema.get? name
  | .literal value => K.literal value
  | .binary op left right =>
    if op = .isIn ∨ op = .notIn then some K.bool
    else do
      let leftType ← getType K inputSchema left
      let rightType ← getType K inputSchema right
      K.evalKernelType op [leftType, rightType]
  | .unary op operand =>
    if op = .isNull ∨ op = .isNotNull then some K.bool
    else do
      let operandType ← getType K inputSchema operand
      K.evalKernelType op [operandType]
  | .udf fn _ => K.udf fn
  | .aliased expr _ _ => getType K inputSchema expr
  | .download _ => K.download
  | .star => none
  | .synthetic kind => K.synthetic kind

/-- `to_field`: the name and the type; an alias keeps the type of what is under it. -/
def toField (K : TypeKernels V T) (inputSchema : Dict String T) : Expr V → Option (String × T)
  | .column name => (inputSchema.get? name).map (Prod.mk name)
  | .aliased expr name _ =>
    match toField K inputSchema expr with
    | some inner => some (name, inner.2)
    | none => (getType K inputSchema expr).map (Prod.mk name)
  | _ => none

/-- `exprlist_to_fields`: a later field of the same name replaces the earlier one in its place. -/
def exprlistToFields (K : TypeKernels V T) (exprs : List (Expr V)) (inputSchema : Dict String T) :
    Option (Dict String T) := do
  let fields ← (expandStarExprs exprs inputSchema.keys).mapM (toField K inputSchema)
  return Dict.ofList fields

/-! ### What a projection puts out -/

theorem Frame.columns_eq_empty {block : Frame C} (h : block.isSchemaless = true) :
    block.columns = Dict.empty := by
  rw [Frame.isSchemaless, Bool.and_eq_true, decide_eq_true_eq, decide_eq_true_eq] at h
  exact Dict.ext (List.map_eq_nil_iff.mp h.2)

/-- One output of a projection as it stands in the new block. -/
def storedOutput (K : BlockKernels V C) (columns : String → Option C) (e : Expr V) :
    Except PyError (String × C) := do
  let p ← namedOutput K.toKernels columns e
  let column ← K.fill p.2
  return (p.1, column)

section outputs
variable {K : BlockKernels V C} {block : Frame C} {exprs : List (Expr V)}
variable {columns : String → Option C}

theorem namedOutput_eq_ok {K : Kernels V C} {e : Expr V} {p : String × C} :
    namedOutput K columns e = .ok p ↔ e.name = some p.1 ∧ evalExpr K columns e = .ok p.2 := by
  unfold namedOutput
  cases he : e.name with
  | none => exact ⟨nofun, nofun⟩
  | some name =>
    rw [bind_eq_ok]
    constructor
    · rintro ⟨c, hc, hp⟩
      cases hp
      exact ⟨rfl, hc⟩
    · rintro ⟨hname, hc⟩
      cases hname
      exact ⟨p.2, hc, rfl⟩

theorem storedOutput_eq_ok {e : Expr V} {p : String × C} :
    storedOutput K columns e = .ok p ↔
      ∃ value, namedOutput K.toKernels columns e = .ok (p.1, value) ∧ K.fill value = .ok p.2 := by
  unfold storedOutput
  rw [bind_eq_ok]
  constructor
  · rintro ⟨q, hq, hp⟩
    obtain ⟨column, hcolumn, hp⟩ := bind_eq_ok.mp hp
    cases hp
    exact ⟨q.2, hq, hcolumn⟩
  · rintro ⟨value, hvalue, hfill⟩
    refine ⟨(p.1, value), hvalue, ?_⟩
    rw [hfill]
    rfl

variable {outputs : List (String × C)}

theorem map_fst_outputs (h : exprs.mapM (storedOutput K columns) = .ok outputs) :
    outputs.map (fun p => some p.1) = exprs.map Expr.name := by
  rw [mapM_eq_ok_iff] at h
  induction h with
  | nil => rfl
  | cons hp _ ih =>
    obtain ⟨value, hvalue, -⟩ := storedOutput_eq_ok.mp hp
    rw [List.map_cons, List.map_cons, ih, (namedOutput_eq_ok.mp hvalue).1]

variable {out : Frame C}

/-- To write the outputs one after the other is to make a column of each and to put all of them
in. -/
theorem foldlM_fillColumn {b : Frame C} :
    outputs.foldlM (fun newBlock p => newBlock.fillColumn K p.1 p.2) b = .ok out ↔
      ∃ stored, List.Forall₂ (fun p q => p.1 = q.1 ∧ K.fill p.2 = .ok q.2) outputs stored ∧
        out = ⟨b.format, b.numRows, b.columns.setAll stored⟩ := by
  induction outputs generalizing b with
  | nil =>
    constructor
    · intro h
      cases h
      exact ⟨[], .nil, rfl⟩
    · rintro ⟨stored, hstored, rfl⟩
      cases hstored
      rfl
  | cons p outputs ih =>
    rw [List.foldlM_cons, bind_eq_ok]
    constructor
    · rintro ⟨b', hb', hout⟩
      obtain ⟨column, hcolumn, hb'⟩ := bind_eq_ok.mp hb'
      cases hb'
      obtain ⟨stored, hstored, rfl⟩ := ih.mp hout
      exact ⟨(p.1, column) :: stored, .cons ⟨rfl, hcolumn⟩ hstored, rfl⟩
    · rintro ⟨stored, hstored, rfl⟩
      cases hstored with
      | @cons _ q _ stored hq hstored =>
        refine ⟨b.upsertColumn q.1 q.2, ?_, ih.mpr ⟨stored, hstored, rfl⟩⟩
        rw [Frame.fillColumn, hq.2, ← hq.1]
        rfl

/-- The outputs as they stand in the new block are the outputs with a column made of each. -/
theorem mapM_storedOutput {stored : List (String × C)} :
    exprs.mapM (storedOutput K columns) = .ok stored ↔
      ∃ outputs, exprs.mapM (namedOutput K.toKernels columns) = .ok outputs ∧
        List.Forall₂ (fun p q => p.1 = q.1 ∧ K.fill p.2 = .ok q.2) outputs stored := by
  simp only [mapM_eq_ok_iff]
  constructor
  · intro h
    induction h with
    | nil => exact ⟨[], .nil, .nil⟩
    | cons hq _ ih =>
      obtain ⟨value, hvalue, hfill⟩ := storedOutput_eq_ok.mp hq
      obtain ⟨outputs, houtputs, hstored⟩ := ih
      exact ⟨_ :: outputs, .cons hvalue houtputs, .cons ⟨rfl, hfill⟩ hstored⟩
  · rintro ⟨outputs, houtputs, hstored⟩
    induction houtputs generalizing stored with
    | nil =>
      cases hstored
      exact .nil
    | cons hp _ ih =>
      cases hstored with
      | cons hq hstored => exact .cons (storedOutput_eq_ok.mpr ⟨_, hq.1 ▸ hp, hq.2⟩) (ih hstored)

variable {names : List String}

theorem Frame.drop_of_subset (h : ∀ name ∈ names, name ∈ block.columnNames) :
    block.drop names = .ok ⟨block.format, block.numRows, block.columns.eraseAll names⟩ := by
  rw [Frame.drop, if_pos (List.all_eq_true.mpr (fun name hname => decide_eq_true (h name hname)))]

theorem Frame.drop_of_notMem {name : String} (hname : name ∈ names)
    (h : name ∉ block.columnNames) : block.drop names = .error .keyError := by
  rw [Frame.drop, if_neg (fun hall => h (of_decide_eq_true (List.all_eq_true.mp hall name hname)))]

theorem map_fst_fields {K : TypeKernels V T} {schema : Dict String T} {fields : List (String × T)}
    (h : exprs.mapM (toField K schema) = some fields) :
    fields.map (fun p => some p.1) = exprs.map Expr.name := by
  induction exprs generalizing fields with
  | nil =>
    cases h
    rfl
  | cons e exprs ih =>
    rw [List.mapM_cons, Option.bind_eq_bind, Option.bind_eq_some_iff] at h
    obtain ⟨field, hfield, h⟩ := h
    rw [Option.bind_eq_bind, Option.bind_eq_some_iff] at h
    obtain ⟨rest, hrest, h⟩ := h
    cases h
    have hname : some field.1 = e.name := by
      unfold toField at hfield
      split at hfield
      · obtain ⟨t, -, rfl⟩ := Option.map_eq_some_iff.mp hfield
        rfl
      · split at hfield
        · cases hfield
          rfl
        · obtain ⟨t, -, rfl⟩ := Option.map_eq_some_iff.mp hfield
          rfl
      · cases hfield
    rw [List.map_cons, List.map_cons, ih hrest, hname]

/-- The new block has the outputs as its columns, but for one that is called as the stub column; an
input column of that name that is not put out makes the evaluator drop the stub column twice. -/
theorem fillOutputs_eq_ok :
    fillOutputs K block outputs = .ok out ↔
      ∃ stored, List.Forall₂ (fun p q => p.1 = q.1 ∧ K.fill p.2 = .ok q.2) outputs stored ∧
        (stubColName ∈ block.columnNames → stubColName ∈ stored.map Prod.fst) ∧
        out = ⟨block.format, block.numRows,
          Dict.ofList (stored.filter (fun p => p.1 ≠ stubColName))⟩ := by
  have hpresent : ∀ name ∈ block.columnNames,
    name ∈ (block.upsertColumn stubColName K.nulls).columnNames :=
    fun _ h => Dict.mem_keys_set.mpr (.inr h)
  set cleared : Dict String C :=
    (block.columns.set stubColName K.nulls).eraseAll block.columns.keys with hcleared
  have hkeys : stubColName ∈ cleared.keys ↔ stubColName ∉ block.columnNames := by
    rw [hcleared, Dict.keys_eraseAll, List.mem_filter, Dict.mem_keys_set]
    simp [Frame.columnNames]
  have hempty : cleared.eraseAll [stubColName] = Dict.empty := by
    rw [hcleared, Dict.eraseAll_set, Dict.eraseAll_keys]
    split_ifs
    · rfl
    · rw [Dict.eraseAll_set]
      simp [Dict.eraseAll, Dict.empty]
  have hmem : ∀ stored : List (String × C), stubColName ∈ (cleared.setAll stored).keys ↔
      (stubColName ∈ block.columnNames → stubColName ∈ stored.map Prod.fst) := by
    intro stored
    rw [Dict.mem_keys_setAll, hkeys]
    tauto
  have hdrop : ∀ stored : List (String × C),
    (stubColName ∈ block.columnNames → stubColName ∈ stored.map Prod.fst) →
      Frame.drop ⟨block.format, block.numRows, cleared.setAll stored⟩ [stubColName] =
        .ok ⟨block.format, block.numRows,
          Dict.ofList (stored.filter (fun p => p.1 ≠ stubColName))⟩ := by
    intro stored hstub
    rw [Frame.drop_of_subset
      (fun name hname => by rw [List.mem_singleton.mp hname]; exact (hmem stored).mpr hstub),
      Dict.eraseAll_setAll, hempty]
    simp [Dict.ofList]
  unfold fillOutputs
  simp only [Frame.drop_of_subset hpresent, ok_bind, bind_eq_ok, foldlM_fillColumn]
  constructor
  · rintro ⟨filled, ⟨stored, hstored, rfl⟩, hout⟩
    by_cases hstub : stubColName ∈ block.columnNames → stubColName ∈ stored.map Prod.fst
    · exact ⟨stored, hstored, hstub, Except.ok.inj (hout.symm.trans (hdrop stored hstub))⟩
    · have herror : Frame.drop ⟨block.format, block.numRows, cleared.setAll stored⟩ [stubColName] =
        .error .keyError :=
        Frame.drop_of_notMem (.head _) (fun hk => hstub ((hmem stored).mp hk))
      cases herror.symm.trans hout
  · rintro ⟨stored, hstored, hstub, rfl⟩
    exact ⟨_, ⟨stored, hstored, rfl⟩, hdrop stored hstub⟩

/-- A projection that is neither empty nor skipped succeeds if and only if its expressions do. -/
theorem evalProjectionWithoutCse_eq_ok (hblock : block.isSchemaless = false) (hexprs : exprs ≠ []) :
    evalProjectionWithoutCse K exprs block = .ok out ↔
      ∃ outputs, (runtimeExprs block.columnNames exprs).mapM (storedOutput K block.columns.get?) =
        .ok outputs ∧
        outputs ≠ [] ∧ (stubColName ∈ block.columnNames → stubColName ∈ outputs.map Prod.fst) ∧
        out = ⟨block.format, block.numRows,
          Dict.ofList (outputs.filter (fun p => p.1 ≠ stubColName))⟩ := by
  have hne : exprs.isEmpty = false := List.isEmpty_eq_false_iff.mpr hexprs
  unfold evalProjectionWithoutCse
  rw [hblock, hne, if_neg (by simp), if_neg (by simp), bind_eq_ok]
  constructor
  · rintro ⟨outputs, houtputs, hout⟩
    split_ifs at hout with hnil
    obtain ⟨stored, hstored, hstub, rfl⟩ := fillOutputs_eq_ok.mp hout
    refine ⟨stored, mapM_storedOutput.mpr ⟨outputs, houtputs, hstored⟩, ?_, hstub, rfl⟩
    rintro rfl
    cases hstored
    exact hnil rfl
  · rintro ⟨stored, hmap, hstored, hstub, rfl⟩
    obtain ⟨outputs, houtputs, hfilled⟩ := mapM_storedOutput.mp hmap
    refine ⟨outputs, houtputs, ?_⟩
    rw [if_neg, fillOutputs_eq_ok]
    · exact ⟨stored, hfilled, hstub, rfl⟩
    · rintro hnil
      obtain rfl := List.isEmpty_iff.mp hnil
      cases hfilled
      exact hstored rfl

end outputs

/-! ### The two star expansions -/

section star
variable {exprs : List (Expr V)} {names : List String}
variable {e : Expr V}

theorem Expr.isStar_iff : e.isStar = true ↔ e = .star := by
  cases e <;> simp [Expr.isStar]

theorem runtimeExprs_cons (h : e ≠ .star) : runtimeExprs names (e :: exprs) = e :: exprs := by
  cases e with
  | star => exact absurd rfl h
  | _ => rfl

theorem runtimeExprs_of_no_star (h : ∀ e ∈ exprs, e.isStar = false) :
    runtimeExprs names exprs = exprs := by
  cases exprs with
  | nil => rfl
  | cons e exprs =>
    apply runtimeExprs_cons
    rintro rfl
    cases h .star (.head _)

theorem expandStarExprs_of_no_star (h : ∀ e ∈ exprs, e.isStar = false) :
    expandStarExprs exprs names = exprs := by
  rw [expandStarExprs, if_neg]
  rw [List.any_eq_true]
  rintro ⟨e, he, hstar⟩
  rw [h e he] at hstar
  cases hstar

variable {c : String}

theorem renameExprsBySource_eq_some (h : (renameExprsBySource exprs).get? c = some e) :
    e ∈ exprs ∧ ∃ name, e = .aliased (.column c) name true := by
  have hmem := Dict.mem_of_mem_entries_ofList (Dict.get?_eq_some_iff.mp h)
  obtain ⟨e', he', hr⟩ := List.mem_filterMap.mp hmem
  cases hren : e'.renaming? with
  | none => rw [hren] at hr; cases hr
  | some r =>
    rw [hren] at hr
    obtain ⟨rfl, rfl⟩ := Prod.mk.inj (Option.some.inj hr)
    exact ⟨he', r.2, Expr.renaming?_eq_some.mp hren⟩

theorem mem_keys_renameExprsBySource :
    c ∈ (renameExprsBySource exprs).keys ↔ ∃ name, Expr.aliased (.column c) name true ∈ exprs := by
  rw [← Dict.get?_isSome_iff]
  constructor
  · intro h
    obtain ⟨e, he⟩ := Option.isSome_iff_exists.mp h
    obtain ⟨hmem, name, rfl⟩ := renameExprsBySource_eq_some he
    exact ⟨name, hmem⟩
  · rintro ⟨name, hmem⟩
    rw [Dict.get?_isSome_iff, renameExprsBySource, Dict.mem_keys_ofList, List.mem_map]
    exact ⟨(c, .aliased (.column c) name true), List.mem_filterMap.mpr ⟨_, hmem, rfl⟩, rfl⟩

/-- The expressions other than the star stay in their places, unless the star took them. -/
theorem flatMap_of_no_star (ofStar : List (Expr V)) (h : ∀ e ∈ exprs, e.isStar = false) :
    exprs.flatMap (fun e =>
      if e.isStar then ofStar
      else
        match e.renaming? with
        | some (source, _) => if source ∈ names then [] else [e]
        | none => [e]) = exprs.filter (fun e => e.renaming?.all (fun r => r.1 ∉ names)) := by
  induction exprs with
  | nil => rfl
  | cons e exprs ih =>
    rw [List.flatMap_cons, ih (fun e he => h e (.tail _ he)), h e List.mem_cons_self]
    cases hr : e.renaming? with
    | none => simp [hr]
    | some r => by_cases hmem : r.1 ∈ names <;> simp [hr, hmem]

theorem expandStarExprs_star (h : ∀ e ∈ exprs, e.isStar = false) :
    expandStarExprs (.star :: exprs) names =
      names.map (fun c => ((renameExprsBySource exprs).get? c).getD (.column c)) ++
        exprs.filter (fun e => e.renaming?.all (fun r => r.1 ∉ names)) := by
  have hrenames : (Expr.star :: exprs).filterMap (fun e => e.renaming?.map (fun r => (r.1, e))) =
      exprs.filterMap (fun e => e.renaming?.map (fun r => (r.1, e))) := rfl
  rw [expandStarExprs, if_pos (by simp [Expr.isStar]), List.flatMap_cons,
    if_pos (Expr.isStar_iff.mpr rfl), hrenames]
  congr 1
  · apply List.map_congr_left
    intro c hc
    rw [Dict.get?_ofList_filter _ (fun name => decide (name ∈ names)), if_pos (decide_eq_true hc)]
    rfl
  · exact flatMap_of_no_star _ h

/-- Where no source of a rename is missing, both expansions give one list. -/
theorem expandStarExprs_eq_runtimeExprs (h : ∀ e ∈ exprs.tail, e.isStar = false)
    (hsource : exprs.head? = some .star → ∀ c name, Expr.aliased (.column c) name true ∈ exprs →
      c ∈ names) :
    expandStarExprs exprs names = runtimeExprs names exprs := by
  cases exprs with
  | nil => rfl
  | cons e exprs =>
    by_cases he : e = .star
    · subst he
      rw [List.tail_cons] at h
      rw [expandStarExprs_star h, runtimeExprs]
      have hnone : (renameExprsBySource exprs).eraseAll names = Dict.empty := by
        apply Dict.ext
        apply List.filter_eq_nil_iff.mpr
        intro p hp
        obtain ⟨name, hmem⟩ := mem_keys_renameExprsBySource.mp (List.mem_map_of_mem hp)
        simpa using hsource rfl p.1 name (.tail _ hmem)
      rw [hnone]
      congr 1
      apply List.filter_congr
      intro e he
      rw [Expr.isRenameExpr]
      cases hr : e.renaming? with
      | none => rfl
      | some r =>
        have hmem := Expr.renaming?_eq_some.mp hr
        have hin := hsource rfl r.1 r.2 (hmem ▸ .tail _ he)
        simp [hin]
    · have hstar : ∀ e' ∈ e :: exprs, e'.isStar = false := by
        rw [List.forall_mem_cons]
        exact ⟨by rw [← Bool.not_eq_true, Expr.isStar_iff]; exact he, h⟩
      rw [expandStarExprs_of_no_star hstar, runtimeExprs_of_no_star hstar]

theorem star_mem_runtimeExprs (h : .star ∈ exprs.tail) : .star ∈ runtimeExprs names exprs := by
  cases exprs with
  | nil => cases h
  | cons e exprs =>
    rw [List.tail_cons] at h
    by_cases hstar : e = .star
    · subst hstar
      rw [runtimeExprs, List.mem_append, List.mem_append, List.mem_filter]
      exact .inr (.inr ⟨h, rfl⟩)
    · rw [runtimeExprs_cons hstar]
      exact .tail _ h

theorem mem_runtimeExprs_of_mem (he : e ∈ exprs) (hstar : e ≠ .star)
    (hrename : e.isRenameExpr = false) : e ∈ runtimeExprs names exprs := by
  cases exprs with
  | nil => cases he
  | cons e' exprs =>
    by_cases hhead : e' = .star
    · subst hhead
      have he : e ∈ exprs := (List.mem_cons.mp he).resolve_left hstar
      rw [runtimeExprs, List.mem_append, List.mem_append, List.mem_filter]
      exact .inr (.inr ⟨he, by rw [hrename]; rfl⟩)
    · rwa [runtimeExprs_cons hhead]

/-- A renamed column is renamed in the evaluator's list, if only by its last rename. -/
theorem rename_mem_runtimeExprs {name : String} (h : Expr.aliased (.column c) name true ∈ exprs) :
    ∃ name', Expr.aliased (.column c) name' true ∈ runtimeExprs names exprs := by
  cases exprs with
  | nil => cases h
  | cons e exprs =>
    by_cases hstar : e = .star
    · subst hstar
      have h : Expr.aliased (.column c) name true ∈ exprs := by simpa using h
      obtain ⟨e, he⟩ := Option.isSome_iff_exists.mp
        (Dict.get?_isSome_iff.mpr (mem_keys_renameExprsBySource.mpr ⟨name, h⟩))
      obtain ⟨-, name', rfl⟩ := renameExprsBySource_eq_some he
      refine ⟨name', ?_⟩
      rw [runtimeExprs, List.mem_append, List.mem_append]
      by_cases hc : c ∈ names
      · exact .inl (List.mem_map.mpr ⟨c, hc, by rw [he]; rfl⟩)
      · refine .inr (.inl (Dict.mem_values_of_get? (k := c) ?_))
        rw [Dict.get?_eraseAll, if_neg hc]
        exact he
    · exact ⟨name, by rwa [runtimeExprs_cons hstar]⟩

/-- Every expression of the evaluator's list is one of the projection list or a column of the
block. -/
theorem mem_of_mem_runtimeExprs (he : e ∈ runtimeExprs names exprs) :
    e ∈ exprs ∨ ∃ c ∈ names, e = .column c := by
  cases exprs with
  | nil => cases he
  | cons e' exprs =>
    by_cases hstar : e' = .star
    · subst hstar
      rw [runtimeExprs, List.mem_append, List.mem_append] at he
      obtain he | he | he := he
      · obtain ⟨c, hc, rfl⟩ := List.mem_map.mp he
        cases hget : (renameExprsBySource exprs).get? c with
        | none => exact .inr ⟨c, hc, rfl⟩
        | some e => exact .inl (.tail _ (renameExprsBySource_eq_some hget).1)
      · obtain ⟨p, hp, rfl⟩ := List.mem_map.mp he
        exact .inl (List.mem_cons_of_mem _
          (renameExprsBySource_eq_some (Dict.get?_eq_some_iff.mpr (List.mem_filter.mp hp).1)).1)
      · exact .inl (.tail _ (List.mem_filter.mp he).1)
    · rw [runtimeExprs_cons hstar] at he
      exact .inl he

theorem isStar_getD_rename (exprs : List (Expr V)) (c : String) :
    (((renameExprsBySource exprs).get? c).getD (.column c)).isStar = false := by
  cases hget : (renameExprsBySource exprs).get? c with
  | none => rfl
  | some e =>
    obtain ⟨-, name, rfl⟩ := renameExprsBySource_eq_some hget
    rfl

theorem isStar_of_mem_expandStarExprs (h : ∀ e ∈ exprs, e.isStar = false)
    (he : e ∈ expandStarExprs (.star :: exprs) names) : e.isStar = false := by
  rw [expandStarExprs_star h, List.mem_append] at he
  obtain he | he := he
  · obtain ⟨c, -, rfl⟩ := List.mem_map.mp he
    exact isStar_getD_rename exprs c
  · exact h e (List.mem_filter.mp he).1

/-- Neither expansion leaves a star, where it stands in the first place only. -/
theorem isStar_of_mem_runtimeExprs (h : ∀ e ∈ exprs.tail, e.isStar = false)
    (he : e ∈ runtimeExprs names exprs) : e.isStar = false := by
  cases exprs with
  | nil => cases he
  | cons e' exprs =>
    by_cases hstar : e' = .star
    · subst hstar
      rw [runtimeExprs, List.mem_append, List.mem_append] at he
      obtain he | he | he := he
      · obtain ⟨c, -, rfl⟩ := List.mem_map.mp he
        exact isStar_getD_rename exprs c
      · obtain ⟨p, hp, rfl⟩ := List.mem_map.mp he
        obtain ⟨-, name, hname⟩ := renameExprsBySource_eq_some
          (Dict.get?_eq_some_iff.mpr (List.mem_filter.mp hp).1)
        rw [hname]
        rfl
      · exact h e (List.mem_filter.mp he).1
    · rw [runtimeExprs_cons hstar] at he
      obtain rfl | he := List.mem_cons.mp he
      · rw [← Bool.not_eq_true, Expr.isStar_iff]
        exact hstar
      · exact h e he

end star

section evaluation
variable {K : BlockKernels V C} {block : Frame C} {exprs : List (Expr V)}

theorem evalProjectionWithoutCse_eq_none {e : Expr V} (hblock : block.isSchemaless = false)
    (he : e ∈ runtimeExprs block.columnNames exprs)
    (hfail : ∀ p, namedOutput K.toKernels block.columns.get? e ≠ .ok p) :
    (evalProjectionWithoutCse K exprs block).toOption = none := by
  apply toOption_eq_none
  intro out hout
  have hexprs : exprs ≠ [] := by
    rintro rfl
    cases he
  obtain ⟨outputs, houtputs, -⟩ := (evalProjectionWithoutCse_eq_ok hblock hexprs).mp hout
  obtain ⟨p, hp⟩ := exists_of_mapM_eq_ok houtputs e he
  obtain ⟨value, hvalue, -⟩ := storedOutput_eq_ok.mp hp
  exact hfail _ hvalue

theorem namedOutput_column_missing {K : Kernels V C} {columns : String → Option C} {c name : String}
    {isRename : Bool}
    (h : columns c = none) (p : String × C) :
    namedOutput K columns (.aliased (.column c) name isRename) ≠ .ok p := by
  intro hp
  have heval := (namedOutput_eq_ok.mp hp).2
  rw [evalExpr, evalExpr, h] at heval
  cases heval

/-- Where a projection with a leading star succeeds, its renames find their columns. -/
theorem sources_of_evalProjectionWithoutCse {out : Frame C} (hblock : block.isSchemaless = false)
    (hout : evalProjectionWithoutCse K exprs block = .ok out) {c name : String}
    (hmem : Expr.aliased (.column c) name true ∈ exprs) : c ∈ block.columnNames := by
  by_contra hc
  obtain ⟨name', hmem'⟩ : ∃ name', Expr.aliased (.column c) name' true ∈
    runtimeExprs block.columnNames exprs :=
    rename_mem_runtimeExprs hmem
  have hnone := evalProjectionWithoutCse_eq_none (K := K) hblock hmem'
    (namedOutput_column_missing (Dict.get?_eq_none_iff.mpr hc))
  rw [hout] at hnone
  cases hnone

/-- Only `[star]` expands to nothing, on a block without columns. -/
theorem expandStarExprs_ne_nil {names : List String} (hexprs : exprs ≠ [])
    (h : ∀ e ∈ exprs.tail, e.isStar = false)
    (hstar : exprs = [.star] → names ≠ []) : expandStarExprs exprs names ≠ [] := by
  cases exprs with
  | nil => exact absurd rfl hexprs
  | cons e exprs =>
    by_cases he : e = .star
    · subst he
      rw [List.tail_cons] at h
      rw [expandStarExprs_star h]
      cases exprs with
      | nil =>
        obtain ⟨c, names, rfl⟩ := List.exists_cons_of_ne_nil (hstar rfl)
        simp
      | cons e exprs =>
        by_cases hnames : names = []
        · subst hnames
          cases e.renaming? <;> simp
        · obtain ⟨c, names, rfl⟩ := List.exists_cons_of_ne_nil hnames
          simp
    · rw [expandStarExprs_of_no_star]
      · simp
      · rw [List.forall_mem_cons]
        exact ⟨by rw [← Bool.not_eq_true, Expr.isStar_iff]; exact he, h⟩

/-- The evaluator makes of the planner's list what it makes of the list with the star. -/
theorem evalProjectionWithoutCse_expandStarExprs (hblock : block.isSchemaless = false)
    (h : ∀ e ∈ exprs.tail, e.isStar = false) (hstar : exprs = [.star] → block.columnNames ≠ []) :
    (evalProjectionWithoutCse K (expandStarExprs exprs block.columnNames) block).toOption =
      (evalProjectionWithoutCse K exprs block).toOption := by
  by_cases hexprs : exprs = []
  · subst hexprs
    rfl
  have hne := expandStarExprs_ne_nil hexprs h hstar
  by_cases hsource : exprs.head? = some .star →
      ∀ c name, Expr.aliased (.column c) name true ∈ exprs → c ∈ block.columnNames
  · have hsame := expandStarExprs_eq_runtimeExprs h hsource
    have hfix : runtimeExprs block.columnNames (expandStarExprs exprs block.columnNames) =
        runtimeExprs block.columnNames exprs := by
      rw [hsame]
      exact runtimeExprs_of_no_star (fun e he => isStar_of_mem_runtimeExprs h he)
    apply toOption_congr
    intro out
    rw [evalProjectionWithoutCse_eq_ok hblock hne, evalProjectionWithoutCse_eq_ok hblock hexprs, hfix]
  · -- a rename of a missing column stays in both lists
    push Not at hsource
    obtain ⟨hhead, c, name, hmem, hc⟩ := hsource
    have hruntime : (evalProjectionWithoutCse K exprs block).toOption = none :=
      toOption_eq_none (fun out hout => hc (sources_of_evalProjectionWithoutCse hblock hout hmem))
    rw [hruntime]
    cases exprs with
    | nil => exact absurd rfl hexprs
    | cons e exprs =>
      cases hhead
      rw [List.tail_cons] at h
      have hleft : Expr.aliased (.column c) name true ∈ expandStarExprs
        (.star :: exprs) block.columnNames := by
        rw [expandStarExprs_star h, List.mem_append, List.mem_filter]
        refine .inr ⟨by simpa using hmem, ?_⟩
        simpa [Expr.renaming?] using hc
      apply evalProjectionWithoutCse_eq_none hblock
        _ (namedOutput_column_missing (Dict.get?_eq_none_iff.mpr hc))
      · exact name
      · exact true
      · rwa [runtimeExprs_of_no_star (fun e he => isStar_of_mem_expandStarExprs h he)]

/-- The fields of the planner carry the names of the columns that are put out. -/
theorem columnNames_eq_keys_exprlistToFields {K' : TypeKernels V T} {schema fields : Dict String T}
    {out : Frame C}
    (hschema : block.columnNames = schema.keys) (hblock : block.isSchemaless = false)
    (hexprs : exprs ≠ [])
    (h : ∀ e ∈ exprs.tail, e.isStar = false) (hout : evalProjectionWithoutCse K exprs block = .ok out)
    (hfields : exprlistToFields K' exprs schema = some fields) (hstub : stubColName ∉ fields.keys) :
    out.columnNames = fields.keys := by
  have hsame := expandStarExprs_eq_runtimeExprs h
    (fun _ c name hmem => sources_of_evalProjectionWithoutCse hblock hout hmem)
  obtain ⟨outputs, houtputs, -, -, rfl⟩ := (evalProjectionWithoutCse_eq_ok hblock hexprs).mp hout
  unfold exprlistToFields at hfields
  rw [← hschema, hsame, Option.bind_eq_bind, Option.bind_eq_some_iff] at hfields
  obtain ⟨fieldList, hlist, hfields⟩ := hfields
  cases hfields
  have hnames : outputs.map Prod.fst = fieldList.map Prod.fst := by
    apply List.map_injective_iff.mpr (Option.some_injective _)
    rw [List.map_map, List.map_map]
    exact (map_fst_outputs houtputs).trans (map_fst_fields hlist).symm
  have hfilter : outputs.filter (fun p => p.1 ≠ stubColName) = outputs := by
    apply List.filter_eq_self.mpr
    intro p hp
    rw [decide_eq_true_eq]
    rintro hpstub
    apply hstub
    rw [Dict.mem_keys_ofList, ← hnames, ← hpstub]
    exact List.mem_map_of_mem hp
  rw [hfilter]
  exact Dict.keys_ofList_congr hnames

end evaluation

/-- The cells of a table with one row of integers. -/
def cellKernels : BlockKernels ℤ ℤ where
  literal := id
  binary
    | .add, a, b => .ok (a + b)
    | .gt, a, b => .ok (if a > b then 1 else 0)
    | _, _, _ => .error .typeError
  unary _ _ := .error .typeError
  udf _ _ := .error .typeError
  synthetic _ := .error .typeError
  nulls := 0
  fill := .ok

/-- Every expression over integers is one of integers. -/
def intTypes : TypeKernels ℤ Unit where
  bool := ()
  literal _ := some ()
  evalKernelType _ _ := some ()
  udf _ := none
  download := none
  synthetic _ := some ()

/-- `[star(), col("a")._rename("x"), (col("a") + 1).alias("b")]`. -/
def renameAndOverride : List (Expr ℤ) :=
  [.star, .aliased (.column "a") "x" true, .aliased (.binary .add (.column "a") (.literal 1)) "b" false]

end RayTfm.Logical
