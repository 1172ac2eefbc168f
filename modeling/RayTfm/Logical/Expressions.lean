import RayTfm.Py
import RayTfm.Lib.Dict

/-! # Column expressions

The model of `expressions.py` and of the visitors in `plan_expression/expression_visitors.py`: the
expression tree, the column references, the idempotency test and the substitution of columns by
expressions, and of `NativeExpressionEvaluator`, which evaluates an expression on a block.

`V` is the type of literals and `C` the type of what a column holds: the cells of a block, or one
cell where a single row is meant.  What the operations do with columns is a parameter (`Kernels`),
since the source leaves it to pyarrow and pandas; a literal is broadcast to a column.  The keyword
arguments of a UDF count as further arguments.

`eval_substitute` says what a substitution means: it moves to the columns. -/

namespace RayTfm.Logical

/-- `Operation`. -/
inductive Operation where
  | add | sub | mul | div | mod | floordiv
  | gt | lt | ge | le | eq | ne
  | and | or | not
  | isNull | isNotNull | isIn | notIn
deriving DecidableEq, Repr

/-- The expressions whose value depends on more than the columns of the row. -/
inductive Synthetic where
  | monotonicallyIncreasingId (instanceId : ℕ)
  | random (seed : Option ℕ) (reseedAfterExecution : Bool)
  | uuid
deriving DecidableEq, Repr

/-- `structurally_equals` of these: two increasing ids are never the same. -/
def Synthetic.structurallyEquals : Synthetic → Synthetic → Bool
  | .random seed reseed, .random seed' reseed' => decide (seed = seed') && decide (reseed = reseed')
  | .uuid, .uuid => true
  | _, _ => false

/-- `Expr`. -/
inductive Expr (V : Type) where
  | column (name : String)
  | literal (value : V)
  | binary (op : Operation) (left right : Expr V)
  | unary (op : Operation) (operand : Expr V)
  | udf (fn : String) (args : List (Expr V))
  | aliased (expr : Expr V) (name : String) (isRename : Bool)
  | download (uriColumnName : String)
  | star
  | synthetic (kind : Synthetic)
deriving Repr

namespace Expr

variable {V C : Type}

/-- Induction on an expression, with a hypothesis for each argument of a UDF. -/
@[induction_eliminator]
theorem inductionOn {P : Expr V → Prop} (column : ∀ name, P (.column name))
    (literal : ∀ value, P (.literal value))
    (binary : ∀ op left right, P left → P right → P (.binary op left right))
    (unary : ∀ op operand, P operand → P (.unary op operand))
    (udf : ∀ fn args, (∀ arg ∈ args, P arg) → P (.udf fn args))
    (aliased : ∀ expr name isRename, P expr → P (.aliased expr name isRename))
    (download : ∀ uriColumnName, P (.download uriColumnName)) (star : P .star)
    (synthetic : ∀ kind, P (.synthetic kind)) (e : Expr V) : P e :=
  @Expr.rec V P (fun args => ∀ arg ∈ args, P arg)
    column literal binary unary udf aliased download star synthetic
    (fun _ h => absurd h (List.not_mem_nil))
    (fun _ _ hhead htail => List.forall_mem_cons.mpr ⟨hhead, htail⟩) e

/-- `expr.name`. -/
def name : Expr V → Option String
  | .column name => some name
  | .aliased _ name _ => some name
  | _ => none

/-- `_unalias`. -/
def unalias : Expr V → Expr V
  | .aliased expr _ _ => expr
  | e => e

/-- `expr.alias(name)`: an alias of an alias is an alias of what is under it. -/
def aliasTo : Expr V → String → Expr V
  | .aliased expr _ isRename, name => .aliased expr name isRename
  | e, name => .aliased e name false

def isStar : Expr V → Bool
  | .star => true
  | _ => false

def isColumn : Expr V → Bool
  | .column _ => true
  | _ => false

def isAlias : Expr V → Bool
  | .aliased _ _ _ => true
  | _ => false

/-- `_is_col_expr`. -/
def isColExpr : Expr V → Bool
  | .column _ => true
  | .aliased (.column _) _ _ => true
  | _ => false

/-- `is_rename_expr` and `_get_renaming_mapping`: the source and the new name of a rename. -/
def renaming? : Expr V → Option (String × String)
  | .aliased (.column source) name true => some (source, name)
  | _ => none

/-- `is_rename_expr`. -/
def isRenameExpr (e : Expr V) : Bool := e.renaming?.isSome

mutual

/-- `_ColumnReferenceCollector`: the column names in order of appearance, as often as they occur. -/
def columnRefs : Expr V → List String
  | .column name => [name]
  | .binary _ left right => left.columnRefs ++ right.columnRefs
  | .unary _ operand => operand.columnRefs
  | .udf _ args => columnRefsAll args
  | .aliased expr _ _ => expr.columnRefs
  | .literal _ | .download _ | .star | .synthetic _ => []

def columnRefsAll : List (Expr V) → List String
  | [] => []
  | e :: es => e.columnRefs ++ columnRefsAll es

end

mutual

/-- The values of the literals, in order of appearance. -/
def literals : Expr V → List V
  | .literal value => [value]
  | .binary _ left right => left.literals ++ right.literals
  | .unary _ operand => operand.literals
  | .udf _ args => literalsAll args
  | .aliased expr _ _ => expr.literals
  | .column _ | .download _ | .star | .synthetic _ => []

def literalsAll : List (Expr V) → List V
  | [] => []
  | e :: es => e.literals ++ literalsAll es

end

mutual

/-- `is_idempotent`. -/
def isIdempotent : Expr V → Bool
  | .column _ | .literal _ | .star | .download _ => true
  | .synthetic _ => false
  | .binary _ left right => left.isIdempotent && right.isIdempotent
  | .unary _ operand => operand.isIdempotent
  | .udf _ args => isIdempotentAll args
  | .aliased expr _ _ => expr.isIdempotent

def isIdempotentAll : List (Expr V) → Bool
  | [] => true
  | e :: es => e.isIdempotent && isIdempotentAll es

end

mutual

/-- The trees are equal, with literals compared by `lit` and the leaves of kind `synthetic` by
`syn`. -/
def equalsUpTo (lit : V → V → Bool) (syn : Synthetic → Synthetic → Bool) : Expr V → Expr V → Bool
  | .column m, .column n => m = n
  | .literal v, .literal w => lit v w
  | .binary op l r, .binary op' l' r' => op = op' && l.equalsUpTo lit syn l' && r.equalsUpTo lit syn r'
  | .unary op e, .unary op' e' => op = op' && e.equalsUpTo lit syn e'
  | .udf f args, .udf g args' => f = g && equalsUpToAll lit syn args args'
  | .aliased e n b, .aliased e' n' b' => e.equalsUpTo lit syn e' && n = n' && b = b'
  | .download u, .download u' => u = u'
  | .star, .star => true
  | .synthetic k, .synthetic k' => syn k k'
  | _, _ => false

def equalsUpToAll (lit : V → V → Bool) (syn : Synthetic → Synthetic → Bool) :
    List (Expr V) → List (Expr V) → Bool
  | [], [] => true
  | e :: es, e' :: es' => e.equalsUpTo lit syn e' && equalsUpToAll lit syn es es'
  | _, _ => false

end

/-- `structurally_equals`.  `sameLiteral` is Python's `==` on two values of one type, which need not
be the same value: `0.0 == -0.0`. -/
def structurallyEquals (sameLiteral : V → V → Bool) (e e' : Expr V) : Bool :=
  e.equalsUpTo sameLiteral Synthetic.structurallyEquals e'

mutual

/-- `_ColumnSubstitutionVisitor`.  An alias stays a rename so long as it is one of a column. -/
def substitute (substitutions : String → Option (Expr V)) : Expr V → Expr V
  | .column name => (substitutions name).getD (.column name)
  | .binary op left right => .binary op (left.substitute substitutions) (right.substitute substitutions)
  | .unary op operand => .unary op (operand.substitute substitutions)
  | .udf fn args => .udf fn (substituteAll substitutions args)
  | .aliased expr name isRename =>
    let visited := (expr.substitute substitutions).unalias
    .aliased visited name (isRename && visited.isColExpr)
  | .literal value => .literal value
  | .download uriColumnName => .download uriColumnName
  | .star => .star
  | .synthetic kind => .synthetic kind

def substituteAll (substitutions : String → Option (Expr V)) : List (Expr V) → List (Expr V)
  | [] => []
  | e :: es => e.substitute substitutions :: substituteAll substitutions es

end

mutual

/-- `_StructuralFingerprintOccurrenceCollector`: every node with its depth, the operands of a node
before the node. -/
def occurrences (depth : ℕ) : Expr V → List (Expr V × ℕ)
  | .binary op left right =>
    left.occurrences (depth + 1) ++ right.occurrences (depth + 1) ++ [(.binary op left right, depth)]
  | .unary op operand => operand.occurrences (depth + 1) ++ [(.unary op operand, depth)]
  | .udf fn args => occurrencesAll (depth + 1) args ++ [(.udf fn args, depth)]
  | .aliased expr name isRename => expr.occurrences (depth + 1) ++
      [(.aliased expr name isRename, depth)]
  | .column name => [(.column name, depth)]
  | .literal value => [(.literal value, depth)]
  | .download uriColumnName => [(.download uriColumnName, depth)]
  | .star => [(.star, depth)]
  | .synthetic kind => [(.synthetic kind, depth)]

def occurrencesAll (depth : ℕ) : List (Expr V) → List (Expr V × ℕ)
  | [] => []
  | e :: es => e.occurrences depth ++ occurrencesAll depth es

end

section occurrences
variable {P : Expr V → Prop} {depth : ℕ}

theorem forall_occurrences_binary {op : Operation} {left right : Expr V} :
    (∀ o ∈ (Expr.binary op left right).occurrences depth, P o.1) ↔
      (∀ o ∈ left.occurrences (depth + 1), P o.1) ∧ (∀ o ∈ right.occurrences (depth + 1), P o.1) ∧
        P (.binary op left right) := by
  simp only [occurrences, List.forall_mem_append, List.forall_mem_singleton, and_assoc]

theorem forall_occurrences_unary {op : Operation} {operand : Expr V} :
    (∀ o ∈ (Expr.unary op operand).occurrences depth, P o.1) ↔
      (∀ o ∈ operand.occurrences (depth + 1), P o.1) ∧ P (.unary op operand) := by
  simp only [occurrences, List.forall_mem_append, List.forall_mem_singleton]

theorem forall_occurrences_aliased {expr : Expr V} {name : String} {isRename : Bool} :
    (∀ o ∈ (Expr.aliased expr name isRename).occurrences depth, P o.1) ↔
      (∀ o ∈ expr.occurrences (depth + 1), P o.1) ∧ P (.aliased expr name isRename) := by
  simp only [occurrences, List.forall_mem_append, List.forall_mem_singleton]

end occurrences

theorem columnRefsAll_eq (es : List (Expr V)) : columnRefsAll es = es.flatMap columnRefs := by
  induction es with
  | nil => rfl
  | cons e es ih => rw [columnRefsAll, ih, List.flatMap_cons]

theorem isIdempotentAll_eq (es : List (Expr V)) : isIdempotentAll es = es.all isIdempotent := by
  induction es with
  | nil => rfl
  | cons e es ih => rw [isIdempotentAll, ih, List.all_cons]

theorem substituteAll_eq (σ : String → Option (Expr V)) (es : List (Expr V)) :
    substituteAll σ es = es.map (substitute σ) := by
  induction es with
  | nil => rfl
  | cons e es ih => rw [substituteAll, ih, List.map_cons]

theorem literalsAll_eq (es : List (Expr V)) : literalsAll es = es.flatMap literals := by
  induction es with
  | nil => rfl
  | cons e es ih => rw [literalsAll, ih, List.flatMap_cons]

variable {args : List (Expr V)}

theorem mem_literals_udf {fn : String} {value : V} :
    value ∈ (Expr.udf fn args).literals ↔ ∃ arg ∈ args, value ∈ arg.literals := by
  rw [literals, literalsAll_eq, List.mem_flatMap]

theorem mem_columnRefs_udf {fn : String} {name : String} :
    name ∈ (Expr.udf fn args).columnRefs ↔ ∃ arg ∈ args, name ∈ arg.columnRefs := by
  rw [columnRefs, columnRefsAll_eq, List.mem_flatMap]

theorem renaming?_eq_some {e : Expr V} {source name : String} :
    e.renaming? = some (source, name) ↔ e = .aliased (.column source) name true := by
  constructor
  · intro h
    unfold renaming? at h
    split at h
    · obtain ⟨rfl, rfl⟩ := Prod.mk.inj (Option.some.inj h)
      rfl
    · cases h
  · rintro rfl
    rfl

section equalsUpTo
variable {lit : V → V → Bool} {syn : Synthetic → Synthetic → Bool}

/-- A relation that equal operands hand on to their nodes holds of all equal trees. -/
theorem of_equalsUpTo {R : Expr V → Expr V → Prop} (column : ∀ name, R (.column name) (.column name))
    (literal : ∀ v w, lit v w = true → R (.literal v) (.literal w))
    (binary : ∀ op l l' r r', R l l' → R r r' → R (.binary op l r) (.binary op l' r'))
    (unary : ∀ op e e', R e e' → R (.unary op e) (.unary op e'))
    (udf : ∀ fn args args', List.Forall₂ R args args' → R (.udf fn args) (.udf fn args'))
    (aliased : ∀ e e' name isRename, R e e' → R (.aliased e name isRename) (.aliased e' name isRename))
    (download : ∀ uri, R (.download uri) (.download uri)) (star : R .star .star)
    (synthetic : ∀ k k', syn k k' = true → R (.synthetic k) (.synthetic k')) {e e' : Expr V}
    (h : e.equalsUpTo lit syn e' = true) : R e e' := by
  induction e generalizing e' with
  | udf fn args ih =>
    have hargs : ∀ args', equalsUpToAll lit syn args args' = true → List.Forall₂ R args args' := by
      clear h
      induction args with
      | nil => intro args'; cases args' <;> simp [equalsUpToAll]
      | cons a args iha =>
        intro args'
        have ha : ∀ a', a.equalsUpTo lit syn a' = true → R a a' := fun _ => ih a (.head _)
        have hrest := iha (fun arg h => ih arg (.tail _ h))
        cases args' with
        | nil => simp [equalsUpToAll]
        | cons a' args' =>
          rw [equalsUpToAll, Bool.and_eq_true]
          exact fun h => .cons (ha a' h.1) (hrest args' h.2)
    cases e' with
    | udf fn' args' =>
      simp only [equalsUpTo, Bool.and_eq_true, decide_eq_true_eq] at h
      obtain ⟨rfl, h⟩ := h
      exact udf fn args args' (hargs args' h)
    | _ => simp [equalsUpTo] at h
  | column name =>
    cases e' with
    | column name' =>
      obtain rfl : name = name' := by simpa [equalsUpTo] using h
      exact column name
    | _ => simp [equalsUpTo] at h
  | literal value =>
    cases e' with
    | literal value' => exact literal value value' (by simpa [equalsUpTo] using h)
    | _ => simp [equalsUpTo] at h
  | binary op left right ihl ihr =>
    cases e' with
    | binary op' left' right' =>
      simp only [equalsUpTo, Bool.and_eq_true, decide_eq_true_eq] at h
      obtain ⟨⟨rfl, hl⟩, hr⟩ := h
      exact binary op _ _ _ _ (ihl hl) (ihr hr)
    | _ => simp [equalsUpTo] at h
  | unary op operand ih =>
    cases e' with
    | unary op' operand' =>
      simp only [equalsUpTo, Bool.and_eq_true, decide_eq_true_eq] at h
      obtain ⟨rfl, h⟩ := h
      exact unary op _ _ (ih h)
    | _ => simp [equalsUpTo] at h
  | aliased expr name isRename ih =>
    cases e' with
    | aliased expr' name' isRename' =>
      simp only [equalsUpTo, Bool.and_eq_true, decide_eq_true_eq] at h
      obtain ⟨⟨h, rfl⟩, rfl⟩ := h
      exact aliased _ _ name isRename (ih h)
    | _ => simp [equalsUpTo] at h
  | download uri =>
    cases e' with
    | download uri' =>
      obtain rfl : uri = uri' := by simpa [equalsUpTo] using h
      exact download uri
    | _ => simp [equalsUpTo] at h
  | star =>
    cases e' with
    | star => exact star
    | _ => simp [equalsUpTo] at h
  | synthetic kind =>
    cases e' with
    | synthetic kind' => exact synthetic kind kind' (by simpa [equalsUpTo] using h)
    | _ => simp [equalsUpTo] at h

theorem equalsUpTo_self (hlit : ∀ v, lit v v = true) (hsyn : ∀ k, syn k k = true) (e : Expr V) :
    e.equalsUpTo lit syn e = true := by
  induction e with
  | udf fn args ih =>
    have hargs : equalsUpToAll lit syn args args = true := by
      induction args with
      | nil => rfl
      | cons a args iha =>
        rw [equalsUpToAll, ih a List.mem_cons_self, iha (fun arg h => ih arg (.tail _ h))]
        rfl
    simp [equalsUpTo, hargs]
  | column name => simp [equalsUpTo]
  | literal value => exact hlit value
  | binary op left right ihl ihr => simp [equalsUpTo, ihl, ihr]
  | unary op operand ih => simp [equalsUpTo, ih]
  | aliased expr name isRename ih => simp [equalsUpTo, ih]
  | download uriColumnName => simp [equalsUpTo]
  | star => rfl
  | synthetic kind => exact hsyn kind

/-- Compared by identity, equal trees are one tree. -/
theorem eq_of_equalsUpTo (hlit : ∀ v w, lit v w = true → v = w)
    (hsyn : ∀ k k', syn k k' = true → k = k')
    {e e' : Expr V} (h : e.equalsUpTo lit syn e' = true) : e = e' := by
  refine of_equalsUpTo (fun _ => rfl) (fun v w h => ?_) (fun _ _ _ _ _ hl hr => ?_) (fun _ _ _ h => ?_)
    (fun _ _ _ h => ?_) (fun _ _ _ _ h => ?_) (fun _ => rfl) rfl (fun k k' h => ?_) h
  · rw [hlit v w h]
  · rw [hl, hr]
  · rw [h]
  · rw [List.forall₂_eq_eq_eq] at h
    rw [h]
  · rw [h]
  · rw [hsyn k k' h]

instance [DecidableEq V] : DecidableEq (Expr V) := fun e e' =>
  decidable_of_iff (e.equalsUpTo (fun v w => decide (v = w)) (fun k k' => decide (k = k')) e' = true)
    ⟨eq_of_equalsUpTo (fun _ _ h => of_decide_eq_true h) (fun _ _ h => of_decide_eq_true h), fun h => by
      subst h
      exact equalsUpTo_self (by simp) (by simp) e⟩

end equalsUpTo

end Expr

/-! ### Evaluation -/

/-- What literals and operations are on columns, as the block's library computes them.  `synthetic`
is the value that such an expression has in this evaluation. -/
structure Kernels (V C : Type) where
  literal : V → C
  binary : Operation → C → C → Except PyError C
  unary : Operation → C → Except PyError C
  udf : String → List C → Except PyError C
  synthetic : Synthetic → Except PyError C

variable {V C : Type}

mutual

/-- `eval_expr`, with the columns given by name.  Neither a star nor a download is evaluated
here. -/
def evalExpr (K : Kernels V C) (columns : String → Option C) : Expr V → Except PyError C
  | .column name => (columns name).elim (.error .keyError) .ok
  | .literal value => .ok (K.literal value)
  | .binary op left right => do
      let l ← evalExpr K columns left
      let r ← evalExpr K columns right
      K.binary op l r
  | .unary op operand => do
      let c ← evalExpr K columns operand
      K.unary op c
  | .udf fn args => do
      let cs ← evalArgs K columns args
      K.udf fn cs
  | .aliased expr _ _ => evalExpr K columns expr
  | .download _ => .error .typeError
  | .star => .error .typeError
  | .synthetic kind => K.synthetic kind

def evalArgs (K : Kernels V C) (columns : String → Option C) :
    List (Expr V) → Except PyError (List C)
  | [] => .ok []
  | e :: es => do
      let c ← evalExpr K columns e
      let cs ← evalArgs K columns es
      return c :: cs

end

variable {K : Kernels V C} {columns columns' : String → Option C}

theorem evalExpr_unalias (e : Expr V) : evalExpr K columns e.unalias = evalExpr K columns e := by
  cases e <;> rfl

theorem evalArgs_congr {es es' : List (Expr V)}
    (h : List.Forall₂ (fun e e' => evalExpr K columns e = evalExpr K columns' e') es es') :
    evalArgs K columns es = evalArgs K columns' es' := by
  induction h with
  | nil => rfl
  | cons he _ ih => rw [evalArgs, evalArgs, he, ih]

/-- Structurally equal expressions evaluate to the same, so long as their equal literals are the
same to the operations. -/
theorem evalExpr_of_structurallyEquals {sameLiteral : V → V → Bool} {e e' : Expr V}
    (h : e.structurallyEquals sameLiteral e' = true)
    (hliterals : ∀ v ∈ e.literals, ∀ w ∈ e'.literals, sameLiteral v w = true →
      K.literal v = K.literal w) :
    evalExpr K columns e = evalExpr K columns e' := by
  revert hliterals
  let R (e e' : Expr V) : Prop :=
    (∀ v ∈ e.literals, ∀ w ∈ e'.literals, sameLiteral v w = true → K.literal v = K.literal w) →
      evalExpr K columns e = evalExpr K columns e'
  refine Expr.of_equalsUpTo (R := R) (fun _ _ => rfl) (fun v w h hliterals => ?_)
    (fun op l l' r r' hl hr hliterals => ?_)
    (fun op e e' he hliterals => ?_) (fun fn args args' hargs hliterals => ?_) (fun e e' _ _ he => he)
    (fun _ _ => rfl) (fun _ => rfl) (fun k k' hk _ => ?_) h
  · rw [evalExpr, evalExpr, hliterals v List.mem_cons_self w List.mem_cons_self h]
  · have hleft := hl (fun v hv w hw => hliterals v (List.mem_append_left _ hv) w
      (List.mem_append_left _ hw))
    have hright := hr (fun v hv w hw => hliterals v (List.mem_append_right _ hv) w
      (List.mem_append_right _ hw))
    rw [evalExpr, evalExpr, hleft, hright]
  · rw [evalExpr, evalExpr, he hliterals]
  · have hsame : List.Forall₂ (fun e e' => evalExpr K columns e = evalExpr K columns e')
      args args' := by
      obtain ⟨hlength, hargs⟩ := List.forall₂_iff_get.mp hargs
      refine List.forall₂_iff_get.mpr ⟨hlength, fun i hi hi' => hargs i hi hi' (fun v hv w hw => ?_)⟩
      exact hliterals v (Expr.mem_literals_udf.mpr ⟨_, List.get_mem _ _, hv⟩) w
        (Expr.mem_literals_udf.mpr ⟨_, List.get_mem _ _, hw⟩)
    rw [evalExpr, evalExpr, evalArgs_congr hsame]
  · unfold Synthetic.structurallyEquals at hk
    split at hk
    · rw [Bool.and_eq_true, decide_eq_true_eq, decide_eq_true_eq] at hk
      rw [hk.1, hk.2]
    · rfl
    · cases hk

variable {e : Expr V}

theorem evalExpr_congr (h : ∀ name ∈ e.columnRefs, columns name = columns' name) :
    evalExpr K columns e = evalExpr K columns' e := by
  induction e with
  | column name => rw [evalExpr, evalExpr, h name (by simp [Expr.columnRefs])]
  | binary op left right ihl ihr =>
    rw [Expr.columnRefs] at h
    rw [evalExpr, evalExpr, ihl (fun n hn => h n (List.mem_append_left _ hn)),
      ihr (fun n hn => h n (List.mem_append_right _ hn))]
  | unary op operand ih => rw [evalExpr, evalExpr, ih h]
  | udf fn args ih =>
    have hargs : evalArgs K columns args = evalArgs K columns' args := by
      apply evalArgs_congr
      rw [List.forall₂_same]
      exact fun arg harg => ih arg harg
        (fun n hn => h n (Expr.mem_columnRefs_udf.mpr ⟨arg, harg, hn⟩))
    rw [evalExpr, evalExpr, hargs]
  | aliased expr name isRename ih => exact ih h
  | literal value => rfl
  | download uriColumnName => rfl
  | star => rfl
  | synthetic kind => rfl

theorem isSome_of_evalExpr_eq_ok {v : C} (h : evalExpr K columns e = .ok v) :
    ∀ name ∈ e.columnRefs, (columns name).isSome := by
  induction e generalizing v with
  | column name =>
    intro n hn
    obtain rfl := List.mem_singleton.mp hn
    rw [evalExpr] at h
    cases hname : columns n with
    | none =>
      rw [hname] at h
      cases h
    | some w => rfl
  | binary op left right ihl ihr =>
    obtain ⟨a, ha, h⟩ := bind_eq_ok.mp h
    obtain ⟨b, hb, -⟩ := bind_eq_ok.mp h
    rw [Expr.columnRefs, List.forall_mem_append]
    exact ⟨ihl ha, ihr hb⟩
  | unary op operand ih =>
    obtain ⟨a, ha, -⟩ := bind_eq_ok.mp h
    exact ih ha
  | udf fn args ih =>
    obtain ⟨cs, hcs, -⟩ := bind_eq_ok.mp h
    have hargs : ∀ arg ∈ args, ∃ w, evalExpr K columns arg = .ok w := by
      clear h ih
      induction args generalizing cs with
      | nil => simp
      | cons a args iha =>
        obtain ⟨b, hb, hcs⟩ := bind_eq_ok.mp hcs
        obtain ⟨bs, hbs, -⟩ := bind_eq_ok.mp hcs
        exact List.forall_mem_cons.mpr ⟨⟨b, hb⟩, iha bs hbs⟩
    intro name hname
    obtain ⟨arg, harg, hname⟩ := Expr.mem_columnRefs_udf.mp hname
    obtain ⟨w, hw⟩ := hargs arg harg
    exact ih arg harg hw name hname
  | aliased expr name isRename ih => exact ih h
  | literal value => simp [Expr.columnRefs]
  | download uriColumnName => simp [Expr.columnRefs]
  | star => simp [Expr.columnRefs]
  | synthetic kind => simp [Expr.columnRefs]

/-- The operations never fail. -/
structure Kernels.Total (K : Kernels V C) : Prop where
  binary : ∀ op a b, ∃ c, K.binary op a b = .ok c
  unary : ∀ op a, ∃ c, K.unary op a = .ok c
  udf : ∀ fn args, ∃ c, K.udf fn args = .ok c
  synthetic : ∀ kind, ∃ c, K.synthetic kind = .ok c

/-- What can be evaluated at all can be evaluated where no operation fails and the columns are
there. -/
theorem evalExpr_of_total {C' : Type} {K' : Kernels V C'} {columns' : String → Option C'}
    (htotal : K'.Total)
    (hcolumns : ∀ name ∈ e.columnRefs, (columns' name).isSome) (h : ∃ v, evalExpr K columns e = .ok v) :
    ∃ v, evalExpr K' columns' e = .ok v := by
  induction e with
  | column name =>
    obtain ⟨w, hw⟩ := Option.isSome_iff_exists.mp (hcolumns name (by simp [Expr.columnRefs]))
    exact ⟨w, by rw [evalExpr, hw]; rfl⟩
  | literal value => exact ⟨_, rfl⟩
  | binary op left right ihl ihr =>
    rw [Expr.columnRefs, List.forall_mem_append] at hcolumns
    obtain ⟨v, hv⟩ := h
    obtain ⟨a, ha, hv⟩ := bind_eq_ok.mp hv
    obtain ⟨b, hb, -⟩ := bind_eq_ok.mp hv
    obtain ⟨a', ha'⟩ := ihl hcolumns.1 ⟨a, ha⟩
    obtain ⟨b', hb'⟩ := ihr hcolumns.2 ⟨b, hb⟩
    obtain ⟨c, hc⟩ := htotal.binary op a' b'
    exact ⟨c, by rw [evalExpr, ha', ok_bind, hb', ok_bind, hc]⟩
  | unary op operand ih =>
    obtain ⟨v, hv⟩ := h
    obtain ⟨a, ha, -⟩ := bind_eq_ok.mp hv
    obtain ⟨a', ha'⟩ := ih hcolumns ⟨a, ha⟩
    obtain ⟨c, hc⟩ := htotal.unary op a'
    exact ⟨c, by rw [evalExpr, ha', ok_bind, hc]⟩
  | udf fn args ih =>
    obtain ⟨v, hv⟩ := h
    obtain ⟨cs, hcs, -⟩ := bind_eq_ok.mp hv
    have hargs : ∃ cs', evalArgs K' columns' args = .ok cs' := by
      clear hv
      induction args generalizing cs with
      | nil => exact ⟨[], rfl⟩
      | cons a args iha =>
        obtain ⟨b, hb, hcs⟩ := bind_eq_ok.mp hcs
        obtain ⟨bs, hbs, -⟩ := bind_eq_ok.mp hcs
        have hrefs : ∀ arg ∈ a :: args, ∀ name ∈ arg.columnRefs, (columns' name).isSome :=
          fun arg harg name hname => hcolumns name (Expr.mem_columnRefs_udf.mpr ⟨arg, harg, hname⟩)
        rw [List.forall_mem_cons] at hrefs
        obtain ⟨b', hb'⟩ := ih a (.head _) hrefs.1 ⟨b, hb⟩
        obtain ⟨bs', hbs'⟩ := iha (fun arg harg => ih arg (.tail _ harg))
          (fun name hname => by
            obtain ⟨arg, harg, hname⟩ := Expr.mem_columnRefs_udf.mp hname
            exact hrefs.2 arg harg name hname) bs hbs
        exact ⟨b' :: bs', by rw [evalArgs, hb', hbs']; rfl⟩
    obtain ⟨cs', hcs'⟩ := hargs
    obtain ⟨c, hc⟩ := htotal.udf fn cs'
    exact ⟨c, by rw [evalExpr, hcs', ok_bind, hc]⟩
  | aliased expr name isRename ih => exact ih hcolumns h
  | download uriColumnName =>
    obtain ⟨v, hv⟩ := h
    cases hv
  | star =>
    obtain ⟨v, hv⟩ := h
    cases hv
  | synthetic kind => exact htotal.synthetic kind

/-- A substitution moves to the columns: where the substituted columns are what the expressions put
for them evaluate to, the expressions before and after it evaluate to the same. -/
theorem evalExpr_substitute {σ : String → Option (Expr V)}
    (h : ∀ name ∈ e.columnRefs, evalExpr K columns ((σ name).getD (.column name)) =
      evalExpr K columns' (.column name)) :
    evalExpr K columns (e.substitute σ) = evalExpr K columns' e := by
  induction e with
  | column name => exact h name (by simp [Expr.columnRefs])
  | binary op left right ihl ihr =>
    rw [Expr.columnRefs] at h
    rw [Expr.substitute, evalExpr, evalExpr, ihl (fun n hn => h n (List.mem_append_left _ hn)),
      ihr (fun n hn => h n (List.mem_append_right _ hn))]
  | unary op operand ih => rw [Expr.substitute, evalExpr, evalExpr, ih h]
  | udf fn args ih =>
    have hargs : evalArgs K columns (args.map (Expr.substitute σ)) = evalArgs K columns' args := by
      apply evalArgs_congr
      rw [List.forall₂_map_left_iff, List.forall₂_same]
      exact fun arg harg => ih arg harg
        (fun n hn => h n (Expr.mem_columnRefs_udf.mpr ⟨arg, harg, hn⟩))
    rw [Expr.substitute, Expr.substituteAll_eq, evalExpr, evalExpr, hargs]
  | aliased expr name isRename ih =>
    rw [Expr.substitute, evalExpr, evalExpr, evalExpr_unalias]
    exact ih h
  | literal value => rfl
  | download uriColumnName => rfl
  | star => rfl
  | synthetic kind => rfl

end RayTfm.Logical
