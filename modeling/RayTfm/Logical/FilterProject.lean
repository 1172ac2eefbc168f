import RayTfm.Logical.Plan
import RayTfm.Logical.Projection

/-! # Filters below projections

The model of `_can_push_filter_through_projection` and `_substitute_predicate_columns` of
`logical/rules/predicate_pushdown.py`.  The operations of the expression language work row by row,
so a table is evaluated by its rows, each a block with one row; a filter keeps the rows whose cell
of the mask is true.

A filter above a projection is put below it with the columns of its predicate renamed back, by the
inverse of the projection's rename map.  This is right so long as the last output of each name is
the one that the rename map has: `pushThroughProjection_keeps_rows_iff`.  A rename onto a column
that stays behind it is not. -/

namespace RayTfm.Logical

variable {V C : Type}

/-! ### Rows -/

/-- The operations on the cells of a row, and which cells of a mask keep their row. -/
structure CellKernels (V C : Type) extends Kernels V C where
  nulls : C
  keeps : C → Bool

/-- At one row a scalar and the column that it fills are one cell. -/
def CellKernels.toBlockKernels (K : CellKernels V C) : BlockKernels V C :=
  { K.toKernels with nulls := K.nulls, fill := .ok }

theorem storedOutput_cell (K : CellKernels V C) (columns : String → Option C) :
    storedOutput K.toBlockKernels columns = namedOutput K.toKernels columns := by
  funext e
  show (namedOutput K.toKernels columns e >>= fun p => Except.ok p) = _
  cases namedOutput K.toKernels columns e <;> rfl

/-- A projection of one row. -/
def projectRow (K : CellKernels V C) (exprs : List (Expr V)) (row : Dict String C) :
    Except PyError (Dict String C) := do
  let block ← evalProjection K.toBlockKernels exprs ⟨.pandas, 1, row⟩ []
  return block.columns

/-- The mask of a filter at one row. -/
def keepsRow (K : CellKernels V C) (predicateExpr : Expr V) (row : Dict String C) :
    Except PyError Bool := do
  let mask ← evalExpr K.toKernels row.get? predicateExpr
  return K.keeps mask

/-- A `Project` on the rows of a table. -/
def projectRows (K : CellKernels V C) (exprs : List (Expr V)) (rows : List (Dict String C)) :
    Except PyError (List (Dict String C)) :=
  rows.mapM (projectRow K exprs)

/-- A `Filter` on the rows of a table. -/
def filterRows (K : CellKernels V C) (predicateExpr : Expr V) (rows : List (Dict String C)) :
    Except PyError (List (Dict String C)) := do
  let mask ← rows.mapM (keepsRow K predicateExpr)
  return ((rows.zip mask).filter Prod.snd).map Prod.fst

/-! ### The rule -/

/-- `_can_push_filter_through_projection`. -/
def canPushFilterThroughProjection (predicateExpr : Expr V) (exprs : List (Expr V)) : Bool :=
  let predicateColumns := predicateExpr.columnRefs
  let outputColumns := exprs.filterMap Expr.name
  let newNames := (exprs.filter Expr.isAlias).filterMap Expr.name
  let originalColumnsBeingRenamed := (exprs.filterMap Expr.renaming?).map Prod.fst
  isIdempotentProjection exprs &&
    !exprs.any (fun e => e.isAlias && e.name.any (· ∈ predicateColumns) && !e.isRenameExpr) &&
    (exprs.any Expr.isStar || predicateColumns.all (· ∈ outputColumns)) &&
    originalColumnsBeingRenamed.all (fun c => !decide (c ∈ predicateColumns) || decide (c ∈ newNames))

/-- The inverse of the rename map of a projection: the source of each new name. -/
def columnMapping (exprs : List (Expr V)) : Dict String String :=
  Dict.ofList ((inputColumnsRenamingMapping exprs).entries.map Prod.swap)

/-- `_substitute_predicate_columns`. -/
def substitutePredicateColumns (predicateExpr : Expr V) (exprs : List (Expr V)) : Expr V :=
  predicateExpr.substitute (fun name => ((columnMapping exprs).get? name).map Expr.column)

/-- The predicate of the filter below a projection, if the filter above it may be put there. -/
def pushThroughProjection (predicateExpr : Expr V) (exprs : List (Expr V)) : Option (Expr V) :=
  if predicateExpr.isIdempotent && canPushFilterThroughProjection predicateExpr exprs then
    if (inputColumnsRenamingMapping exprs).entries.isEmpty then some predicateExpr
    else some (substitutePredicateColumns predicateExpr exprs)
  else none

/-- The column that the predicate reads below the projection for a column that it read above. -/
def sourceColumn (exprs : List (Expr V)) (name : String) : String :=
  ((columnMapping exprs).get? name).getD name

/-! ### The property and its condition -/

/-- Pushing a filter through a projection is right on the tables with the given columns: wherever
the original plan has a result, the new one has the same, and what the predicate reads is the
same. -/
def PushKeepsRows (C : Type) (exprs : List (Expr V)) (predicateExpr pushed : Expr V)
    (names : List String) : Prop :=
  ∀ (K : CellKernels V C) (rows : List (Dict String C)), (∀ row ∈ rows, row.keys = names) →
    (∀ out, projectRows K exprs rows >>= filterRows K predicateExpr = .ok out →
      filterRows K pushed rows >>= projectRows K exprs = .ok out) ∧
    ∀ row ∈ rows, ∀ row', projectRow K exprs row = .ok row' →
      ∀ name ∈ predicateExpr.columnRefs, row'.get? name = row.get? (sourceColumn exprs name)

/-- The last output of a projection with the given name. -/
def lastOutput (names : List String) (exprs : List (Expr V)) (name : String) : Option (Expr V) :=
  ((runtimeExprs names exprs).filter (fun e => e.name ≠ some stubColName)).reverse.find?
    (fun e => e.name = some name)

/-- The last output for each column of the predicate is the rename that the rename map has for it,
or the column itself where it has none. -/
def RenamesUnshadowed (names : List String) (exprs : List (Expr V)) (predicateExpr : Expr V) : Prop :=
  ∀ name ∈ predicateExpr.columnRefs,
    match lastOutput names exprs name with
    | some e => e.unalias = .column (sourceColumn exprs name)
    | none => sourceColumn exprs name ∉ names

/-- There is a row with the given columns on which the projection can be evaluated. -/
def Evaluable (C : Type) (names : List String) (exprs : List (Expr V)) : Prop :=
  ∃ (K : CellKernels V C) (row row' : Dict String C), row.keys = names ∧
  projectRow K exprs row = .ok row'

/-! ### Rows through projections and filters -/

section rows
variable {K : CellKernels V C} {exprs : List (Expr V)} {row row' : Dict String C}

theorem projectRow_eq_ok (hexprs : exprs ≠ []) :
    projectRow K exprs row = .ok row' ↔
      ∃ outputs, (runtimeExprs row.keys exprs).mapM (namedOutput K.toKernels row.get?) = .ok outputs ∧
        outputs ≠ [] ∧ (stubColName ∈ row.keys → stubColName ∈ outputs.map Prod.fst) ∧
        row' = Dict.ofList (outputs.filter (fun p => p.1 ≠ stubColName)) := by
  have hblock : Frame.isSchemaless (⟨.pandas, 1, row⟩ : Frame C) = false := rfl
  unfold projectRow
  rw [bind_eq_ok, ← storedOutput_cell]
  constructor
  · rintro ⟨block, heval, hrow⟩
    obtain ⟨outputs, houtputs, hne, hstub, rfl⟩ :=
      (evalProjectionWithoutCse_eq_ok hblock hexprs).mp heval
    exact ⟨outputs, houtputs, hne, hstub, (Except.ok.inj hrow).symm⟩
  · rintro ⟨outputs, houtputs, hne, hstub, rfl⟩
    exact ⟨_, (evalProjectionWithoutCse_eq_ok hblock hexprs).mpr
      ⟨outputs, houtputs, hne, hstub, rfl⟩, rfl⟩

/-- The value of an output is the one of the last expression with its name. -/
theorem lookup_outputs {K : Kernels V C} {columns : String → Option C} {es : List (Expr V)}
    {outputs : List (String × C)}
    (h : List.Forall₂ (fun e p => namedOutput K columns e = .ok p) es outputs) (name : String) :
    (outputs.filter (fun p => p.1 ≠ stubColName)).lookup name =
      ((es.filter (fun e => e.name ≠ some stubColName)).find? (fun e => e.name = some name)).bind
        (fun e => (evalExpr K columns e).toOption) := by
  induction h with
  | nil => rfl
  | @cons e p es outputs hp _ ih =>
    obtain ⟨hname, hvalue⟩ := namedOutput_eq_ok.mp hp
    obtain ⟨pname, c⟩ := p
    by_cases hstub : pname = stubColName
    · rw [List.filter_cons_of_neg (by simpa using hstub),
        List.filter_cons_of_neg (by simpa [hname] using hstub), ih]
    · rw [List.filter_cons_of_pos (by simpa using hstub),
        List.filter_cons_of_pos (by simpa [hname] using hstub)]
      by_cases heq : pname = name
      · subst heq
        rw [List.lookup_cons_self, List.find?_cons_of_pos (by simpa using hname), Option.bind_some,
          hvalue]
        rfl
      · have hne : (name == pname) = false := by simpa using fun h => heq h.symm
        rw [List.lookup_cons, hne, List.find?_cons_of_neg (by simpa [hname] using heq), ih]

theorem get?_projectRow (hexprs : exprs ≠ []) (h : projectRow K exprs row = .ok row') (name : String) :
    row'.get? name = (lastOutput row.keys exprs name).bind
      (fun e => (evalExpr K.toKernels row.get? e).toOption) := by
  obtain ⟨outputs, houtputs, -, -, rfl⟩ := (projectRow_eq_ok hexprs).mp h
  have hreverse := List.forall₂_reverse_iff.mpr (mapM_eq_ok_iff.mp houtputs)
  rw [Dict.get?_ofList, ← List.filter_reverse, lookup_outputs hreverse, List.filter_reverse, lastOutput]

variable {predicateExpr : Expr V}

theorem keepsRow_eq_ok {b : Bool} :
    keepsRow K predicateExpr row = .ok b ↔
      ∃ c, evalExpr K.toKernels row.get? predicateExpr = .ok c ∧ K.keeps c = b := by
  unfold keepsRow
  rw [bind_eq_ok]
  refine exists_congr (fun c => and_congr_right (fun _ => ?_))
  exact ⟨Except.ok.inj, fun h => h ▸ rfl⟩

variable {rows out : List (Dict String C)}

theorem filterRows_cons_eq_ok :
    filterRows K predicateExpr (row :: rows) = .ok out ↔
      ∃ b rest, keepsRow K predicateExpr row = .ok b ∧ filterRows K predicateExpr rows = .ok rest ∧
        out = if b then row :: rest else rest := by
  unfold filterRows
  rw [List.mapM_cons, bind_eq_ok]
  constructor
  · rintro ⟨mask, hmask, hout⟩
    obtain ⟨b, hb, hmask⟩ := bind_eq_ok.mp hmask
    obtain ⟨bs, hbs, hmask⟩ := bind_eq_ok.mp hmask
    cases hmask
    cases hout
    refine ⟨b, _, hb, by rw [hbs]; rfl, ?_⟩
    cases b <;> rfl
  · rintro ⟨b, rest, hb, hrest, rfl⟩
    obtain ⟨bs, hbs, hrest⟩ := bind_eq_ok.mp hrest
    cases hrest
    refine ⟨b :: bs, by rw [hb, hbs]; rfl, ?_⟩
    cases b <;> rfl

/-- Rows that the predicate and the pushed predicate treat alike are filtered alike on both sides of
the projection. -/
theorem filter_project_comm {pushed : Expr V}
    (hsame : ∀ row ∈ rows, ∀ row', projectRow K exprs row = .ok row' →
      keepsRow K pushed row = keepsRow K predicateExpr row')
    (h : projectRows K exprs rows >>= filterRows K predicateExpr = .ok out) :
    filterRows K pushed rows >>= projectRows K exprs = .ok out := by
  obtain ⟨rows', hrows, hfilter⟩ := bind_eq_ok.mp h
  have hforall := mapM_eq_ok_iff.mp hrows
  clear h hrows
  suffices hkept : ∃ kept, filterRows K pushed rows = .ok kept ∧ projectRows K exprs kept = .ok out by
    obtain ⟨kept, hkept, hproject⟩ := hkept
    rw [hkept]
    exact hproject
  induction hforall generalizing out with
  | nil =>
    cases hfilter
    exact ⟨[], rfl, rfl⟩
  | @cons row row' rows rows' hrow _ ih =>
    obtain ⟨b, rest, hb, hrest, rfl⟩ := filterRows_cons_eq_ok.mp hfilter
    obtain ⟨kept, hkept, hproject⟩ := ih (fun r hr => hsame r (.tail _ hr)) hrest
    have hb' : keepsRow K pushed row = .ok b := (hsame row (.head _) row' hrow).trans hb
    refine ⟨if b then row :: kept else kept, filterRows_cons_eq_ok.mpr ⟨b, kept, hb', hkept, rfl⟩, ?_⟩
    cases b with
    | false => exact hproject
    | true =>
      show (row :: kept).mapM (projectRow K exprs) = .ok (row' :: rest)
      rw [List.mapM_cons, hrow, ok_bind, show kept.mapM (projectRow K exprs) = .ok rest from hproject]
      rfl

end rows

/-! ### The condition is enough -/

section push
variable {exprs : List (Expr V)} {predicateExpr pushed : Expr V} {names : List String}

theorem canPush_of_pushThroughProjection (h : pushThroughProjection predicateExpr exprs = some pushed) :
    canPushFilterThroughProjection predicateExpr exprs = true := by
  unfold pushThroughProjection at h
  split_ifs at h with hcan
  · exact (Bool.and_eq_true_iff.mp hcan).2
  · exact (Bool.and_eq_true_iff.mp hcan).2

theorem columnRefs_nil_of_push (h : pushThroughProjection predicateExpr [] = some pushed) :
    predicateExpr.columnRefs = [] := by
  have hcan := canPush_of_pushThroughProjection h
  simp only [canPushFilterThroughProjection, Bool.and_eq_true] at hcan
  have hall := hcan.1.2
  simp only [List.any_nil, Bool.false_or, List.all_eq_true, List.filterMap_nil, List.not_mem_nil,
    decide_false] at hall
  rw [List.eq_nil_iff_forall_not_mem]
  intro name hname
  cases hall name hname

/-- The pushed predicate reads the source of each column that the original reads. -/
theorem evalExpr_pushed {K : Kernels V C} {columns columns' : String → Option C}
    (h : pushThroughProjection predicateExpr exprs = some pushed)
    (hcolumns : ∀ name ∈ predicateExpr.columnRefs, columns' name = columns (sourceColumn exprs name)) :
    evalExpr K columns pushed = evalExpr K columns' predicateExpr := by
  unfold pushThroughProjection at h
  split_ifs at h with _ hempty
  · cases h
    apply evalExpr_congr
    intro name hname
    have hnil : columnMapping exprs = Dict.empty := by
      rw [columnMapping, List.isEmpty_iff.mp hempty]
      rfl
    rw [hcolumns name hname, sourceColumn, hnil]
    rfl
  · cases h
    apply evalExpr_substitute
    intro name hname
    have hsource : (((columnMapping exprs).get? name).map Expr.column).getD (.column name) =
        Expr.column (V := V) (sourceColumn exprs name) := by
      rw [sourceColumn]
      cases (columnMapping exprs).get? name <;> rfl
    rw [hsource, evalExpr, evalExpr, hcolumns name hname]

theorem get?_projectRow_of_unshadowed {K : CellKernels V C} {row row' : Dict String C}
    (hexprs : exprs ≠ [])
    (h : RenamesUnshadowed row.keys exprs predicateExpr) (hrow : projectRow K exprs row = .ok row')
    {name : String}
    (hname : name ∈ predicateExpr.columnRefs) :
    row'.get? name = row.get? (sourceColumn exprs name) := by
  rw [get?_projectRow hexprs hrow]
  have hlast := h name hname
  cases he : lastOutput row.keys exprs name with
  | none =>
    rw [he] at hlast
    exact (Dict.get?_eq_none_iff.mpr hlast).symm
  | some e =>
    rw [he] at hlast
    rw [Option.bind_some, ← evalExpr_unalias, hlast, evalExpr]
    cases row.get? (sourceColumn exprs name) <;> rfl

theorem pushKeepsRows_of_unshadowed (hpush : pushThroughProjection predicateExpr exprs = some pushed)
    (h : RenamesUnshadowed names exprs predicateExpr) :
    PushKeepsRows C exprs predicateExpr pushed names := by
  intro K rows hrows
  have hcolumns : ∀ row ∈ rows, ∀ row', projectRow K exprs row = .ok row' →
      ∀ name ∈ predicateExpr.columnRefs, row'.get? name = row.get? (sourceColumn exprs name) := by
    intro row hrow row' hproject name hname
    by_cases hexprs : exprs = []
    · subst hexprs
      rw [columnRefs_nil_of_push hpush] at hname
      cases hname
    · exact get?_projectRow_of_unshadowed hexprs (by rwa [hrows row hrow]) hproject hname
  refine ⟨fun out hout => filter_project_comm (fun row hrow row' hproject => ?_) hout, hcolumns⟩
  unfold keepsRow
  rw [evalExpr_pushed hpush (hcolumns row hrow row' hproject)]

end push

/-! ### The condition is needed -/

/-- Kernels without failures. -/
def constKernels (c : C) : CellKernels V C where
  literal _ := c
  binary _ _ _ := .ok c
  unary _ _ := .ok c
  udf _ _ := .ok c
  synthetic _ := .ok c
  nulls := c
  keeps _ := true

section constKernels
variable (c : C)

theorem constKernels_total : (constKernels c : CellKernels V C).toKernels.Total :=
  ⟨fun _ _ _ => ⟨c, rfl⟩, fun _ _ => ⟨c, rfl⟩, fun _ _ => ⟨c, rfl⟩, fun _ => ⟨c, rfl⟩⟩

theorem projectRow_constKernels {K : CellKernels V C} {exprs : List (Expr V)}
    {row row' row₁ : Dict String C}
    (hkeys : row₁.keys = row.keys) (h : projectRow K exprs row = .ok row') :
    ∃ row₁', projectRow (constKernels c) exprs row₁ = .ok row₁' := by
  by_cases hexprs : exprs = []
  · subst hexprs
    exact ⟨_, rfl⟩
  obtain ⟨outputs, houtputs, hne, hstub, -⟩ := (projectRow_eq_ok hexprs).mp h
  have hsome : ∀ name, (row.get? name).isSome → (row₁.get? name).isSome := by
    intro name hname
    rwa [Dict.get?_isSome_iff, hkeys, ← Dict.get?_isSome_iff]
  obtain ⟨outputs₁, houtputs₁⟩ := exists_mapM_eq_ok (l := runtimeExprs row.keys exprs)
    (f := namedOutput (constKernels c).toKernels row₁.get?) (fun e he => by
      obtain ⟨p, hp⟩ := exists_of_mapM_eq_ok houtputs e he
      obtain ⟨hname, hvalue⟩ := namedOutput_eq_ok.mp hp
      obtain ⟨v, hv⟩ := evalExpr_of_total (constKernels_total c)
        (fun name h => hsome name (isSome_of_evalExpr_eq_ok hvalue name h)) ⟨p.2, hvalue⟩
      exact ⟨(p.1, v), namedOutput_eq_ok.mpr ⟨hname, hv⟩⟩)
  have hnames : outputs₁.map Prod.fst = outputs.map Prod.fst := by
    apply List.map_injective_iff.mpr (Option.some_injective _)
    rw [← storedOutput_cell] at houtputs houtputs₁
    rw [List.map_map, List.map_map]
    exact (map_fst_outputs houtputs₁).trans (map_fst_outputs houtputs).symm
  refine ⟨_, (projectRow_eq_ok hexprs).mpr ⟨outputs₁, by rw [hkeys]; exact houtputs₁, ?_, ?_, rfl⟩⟩
  · rintro rfl
    exact hne (List.map_eq_nil_iff.mp hnames.symm)
  · rw [hkeys, hnames]
    exact hstub

end constKernels

section needed
variable {exprs : List (Expr V)} {predicateExpr pushed : Expr V} {names : List String}

theorem mem_of_lastOutput {e : Expr V} {name : String} (h : lastOutput names exprs name = some e) :
    e ∈ runtimeExprs names exprs ∧ e.name = some name := by
  have hmem := List.mem_of_find?_eq_some h
  rw [List.mem_reverse, List.mem_filter] at hmem
  exact ⟨hmem.1, by simpa using List.find?_some h⟩

/-- An output that the predicate reads is a column or a rename, or the filter is not pushed. -/
theorem unalias_lastOutput (hpush : pushThroughProjection predicateExpr exprs = some pushed)
    {e : Expr V} {name : String}
    (hname : name ∈ predicateExpr.columnRefs) (h : lastOutput names exprs name = some e) :
    ∃ c, e.unalias = .column c := by
  obtain ⟨hmem, hename⟩ := mem_of_lastOutput h
  obtain hmem | ⟨c, -, rfl⟩ := mem_of_mem_runtimeExprs hmem
  · cases e with
    | column c => exact ⟨c, rfl⟩
    | aliased x aliasName isRename =>
      cases hename
      have hcan := canPush_of_pushThroughProjection hpush
      simp only [canPushFilterThroughProjection, Bool.and_eq_true, Bool.not_eq_true',
        List.any_eq_false] at hcan
      have hrename := hcan.1.1.2 _ hmem
      simp only [Expr.isAlias, Expr.name, Option.any_some, hname, decide_true, true_and,
        Bool.not_eq_false] at hrename
      obtain ⟨r, hr⟩ := Option.isSome_iff_exists.mp hrename
      have hr := Expr.renaming?_eq_some.mp hr
      exact ⟨r.1, by rw [hr]; rfl⟩
    | _ => cases hename
  · exact ⟨c, rfl⟩

theorem unshadowed_of_pushKeepsRows [Nontrivial C]
    (hpush : pushThroughProjection predicateExpr exprs = some pushed)
    (hevaluable : Evaluable C names exprs) (h : PushKeepsRows C exprs predicateExpr pushed names) :
    RenamesUnshadowed names exprs predicateExpr := by
  intro name hname
  have hexprs : exprs ≠ [] := by
    rintro rfl
    rw [columnRefs_nil_of_push hpush] at hname
    cases hname
  obtain ⟨K, row, row', rfl, hrow⟩ := hevaluable
  cases hlast : lastOutput row.keys exprs name with
  | none =>
    have hvalue := (h K [row] (by simp)).2 row (by simp) row' hrow name hname
    rw [get?_projectRow hexprs hrow, hlast] at hvalue
    exact Dict.get?_eq_none_iff.mp hvalue.symm
  | some e =>
    obtain ⟨c, hc⟩ := unalias_lastOutput hpush hname hlast
    show e.unalias = .column (sourceColumn exprs name)
    rw [hc]
    congr 1
    by_contra hne
    -- a table where the two columns differ
    obtain ⟨c₀, c₁, hcells⟩ := exists_pair_ne C
    set row₁ : Dict String C := Dict.ofList (row.keys.map (fun k => (k, if k = c then c₁ else c₀)))
    have hkeys : row₁.keys = row.keys := Dict.keys_ofList_map row.keys_nodup _
    have hget : ∀ k, row₁.get? k = if k ∈ row.keys then some (if k = c then c₁ else c₀) else none :=
      Dict.get?_ofList_map row.keys_nodup _
    obtain ⟨row₁', hrow₁⟩ := projectRow_constKernels c₀ hkeys hrow
    have hvalue := (h (constKernels c₀) [row₁] (by simpa using hkeys)).2 row₁
      (by simp) row₁' hrow₁ name hname
    have hin : c ∈ row.keys := by
      obtain ⟨outputs, houtputs, -⟩ := (projectRow_eq_ok hexprs).mp hrow
      obtain ⟨p, hp⟩ := exists_of_mapM_eq_ok houtputs e (mem_of_lastOutput hlast).1
      have heval := (namedOutput_eq_ok.mp hp).2
      rw [← evalExpr_unalias, hc, evalExpr] at heval
      by_contra hout
      rw [Dict.get?_eq_none_iff.mpr hout] at heval
      cases heval
    rw [get?_projectRow hexprs hrow₁, hkeys, hlast, Option.bind_some, ← evalExpr_unalias, hc,
      evalExpr, hget, hget, if_pos hin, if_pos rfl, if_neg (Ne.symm hne)] at hvalue
    split_ifs at hvalue
    · exact hcells (Option.some.inj hvalue).symm
    · cases hvalue

end needed

/-- A filter that is put below a projection gives the same rows, on all tables with the given
columns, if and only if the last output for each column of its predicate is the one that the rename
map has, or the projection cannot be evaluated on such a table. -/
theorem pushThroughProjection_keeps_rows_iff [Nontrivial C] (exprs : List (Expr V))
    (predicateExpr pushed : Expr V)
    (names : List String) (hpush : pushThroughProjection predicateExpr exprs = some pushed) :
    PushKeepsRows C exprs predicateExpr pushed names ↔
      RenamesUnshadowed names exprs predicateExpr ∨ ¬ Evaluable C names exprs := by
  constructor
  · intro h
    by_cases hevaluable : Evaluable C names exprs
    · exact .inl (unshadowed_of_pushKeepsRows hpush hevaluable h)
    · exact .inr hevaluable
  · rintro (h | h)
    · exact pushKeepsRows_of_unshadowed hpush h
    · intro K rows hrows
      have hfails : ∀ row ∈ rows, ∀ row', projectRow K exprs row ≠ .ok row' :=
        fun row hrow row' hproject => h ⟨K, row, row', hrows row hrow, hproject⟩
      refine ⟨fun out hout => ?_, fun row hrow row' hproject => absurd hproject (hfails row hrow row')⟩
      obtain ⟨rows', hrows', -⟩ := bind_eq_ok.mp hout
      cases rows with
      | nil =>
        cases hrows'
        exact hout
      | cons row rows =>
        obtain ⟨row', hproject⟩ := exists_of_mapM_eq_ok hrows' row List.mem_cons_self
        exact absurd hproject (hfails row List.mem_cons_self row')

/-- Integer cells; a mask keeps the rows where it is not zero. -/
def intCells : CellKernels ℤ ℤ := { cellKernels.toKernels with nulls := 0, keeps := fun c => c ≠ 0 }

/-- `col("b") > 0`. -/
def bPositive : Expr ℤ := .binary .gt (.column "b") (.literal 0)

/-- `rename_columns({"a": "b", "b": "a"})`. -/
def swapColumns : List (Expr ℤ) :=
  [.star, .aliased (.column "a") "b" true, .aliased (.column "b") "a" true]

theorem pushThroughProjection_keeps_rows_swapColumns :
    PushKeepsRows ℤ swapColumns bPositive (.binary .gt (.column "a") (.literal 0)) ["a", "b"] := by
  refine (pushThroughProjection_keeps_rows_iff swapColumns bPositive _ ["a", "b"]
    (by decide)).mpr (.inl ?_)
  intro name hname
  obtain rfl := List.mem_singleton.mp hname
  show Expr.column "a" = _
  decide

/-- `rename_columns({"a": "b"})` on a table that has a column `b` after `a`: the `b` that stays wins
over the rename, and the filter on it is put on `a`. -/
theorem pushThroughProjection_fails_shadowed :
    pushThroughProjection bPositive [.star, .aliased (.column "a") "b" true] =
      some (.binary .gt (.column "a") (.literal 0)) ∧
    (projectRows intCells [.star, .aliased (.column "a") "b" true]
      [Dict.ofList [("a", 1), ("b", 0)]] >>=
      filterRows intCells bPositive).toOption = some [] ∧
    (filterRows intCells (.binary .gt (.column "a") (.literal 0)) [Dict.ofList [("a", 1), ("b", 0)]] >>=
      projectRows intCells [.star, .aliased (.column "a") "b" true]).toOption =
        some [Dict.ofList [("b", 0)]] := by
  decide

end RayTfm.Logical
