import RayTfm.Logical.Expressions

/-! # Arithmetic on Arrow and on pandas blocks

The model of the two operator tables of `plan_expression/expression_evaluator.py`,
`_ARROW_EXPR_OPS_MAP` and `_PANDAS_EXPR_OPS_MAP`, on the integer fragment: integer columns and
literals, arithmetic, comparisons and boolean connectives.  Both tables work cell by cell, so an
expression is evaluated on the cells of one row.  Integers do not overflow and floats are exact.

`pc.divide` truncates where both operands are integers, and `FLOORDIV` and `MOD` take the floor only
after that.  `pc.floor` gives floats or keeps integers, depending on the version of pyarrow
(`floorsToFloat`).  The pandas table works with Python's operators; on a literal they are those of
Python's numbers, where `~` of a `bool` is an integer.

`exactKernels` is ordinary rational arithmetic.  Where an expression has an exact value, pandas
computes it unless `NOT` meets a constant condition, and `formats_agree_iff` says when Arrow
does. -/

namespace RayTfm.Logical

/-! ### Cells -/

/-- A cell of a column, or a scalar. -/
inductive Cell where
  | int (n : ℤ)
  | float (q : ℚ)
  | bool (b : Bool)
deriving DecidableEq

/-- What a cell stands for. -/
inductive Value where
  | num (q : ℚ)
  | bool (b : Bool)
deriving DecidableEq

namespace Cell

def value : Cell → Value
  | .int n => .num n
  | .float q => .num q
  | .bool b => .bool b

def isInt : Cell → Bool
  | .int _ => true
  | _ => false

/-- Arithmetic that stays with integers, and else works with floats. -/
def arith (f : ℤ → ℤ → ℤ) (g : ℚ → ℚ → ℚ) : Cell → Cell → Except PyError Cell
  | .int m, .int n => .ok (.int (f m n))
  | .int m, .float q => .ok (.float (g m q))
  | .float p, .int n => .ok (.float (g p n))
  | .float p, .float q => .ok (.float (g p q))
  | _, _ => .error .typeError

/-- Arithmetic whose result depends only on the numbers. -/
def divide (f : ℤ → ℤ → Cell) (g : ℚ → ℚ → Cell) : Cell → Cell → Except PyError Cell
  | .int m, .int n => if n = 0 then .error .zeroDivisionError else .ok (f m n)
  | .int m, .float q => if q = 0 then .error .zeroDivisionError else .ok (g m q)
  | .float p, .int n => if n = 0 then .error .zeroDivisionError else .ok (g p n)
  | .float p, .float q => if q = 0 then .error .zeroDivisionError else .ok (g p q)
  | _, _ => .error .typeError

end Cell

/-- The six comparisons. -/
def comparison? {α : Type} [LinearOrder α] (op : Operation) (a b : α) : Option Bool :=
  match op with
  | .gt => some (b < a)
  | .lt => some (a < b)
  | .ge => some (b ≤ a)
  | .le => some (a ≤ b)
  | .eq => some (a = b)
  | .ne => some (a ≠ b)
  | _ => none

/-- A comparison of two numbers or of two booleans. -/
def Value.compare (op : Operation) : Value → Value → Except PyError Bool
  | .num p, .num q => (comparison? op p q).elim (.error .typeError) .ok
  | .bool a, .bool b => (comparison? op a b).elim (.error .typeError) .ok
  | _, _ => .error .typeError

/-! ### The Arrow table -/

/-- `pc.divide`. -/
def arrowDivide : Cell → Cell → Except PyError Cell :=
  Cell.divide (fun m n => .int (m.tdiv n)) (fun p q => .float (p / q))

/-- `pc.floor`. -/
def arrowFloor (floorsToFloat : Bool) : Cell → Except PyError Cell
  | .int n => .ok (if floorsToFloat then .float n else .int n)
  | .float q => .ok (.float ⌊q⌋)
  | .bool _ => .error .typeError

/-- `_ARROW_EXPR_OPS_MAP` on the operations with two operands. -/
def arrowBinary (floorsToFloat : Bool) : Operation → Cell → Cell → Except PyError Cell
  | .add, l, r => Cell.arith (· + ·) (· + ·) l r
  | .sub, l, r => Cell.arith (· - ·) (· - ·) l r
  | .mul, l, r => Cell.arith (· * ·) (· * ·) l r
  | .div, l, r => arrowDivide l r
  | .mod, l, r => do
      let quotient ← arrowDivide l r
      let floored ← arrowFloor floorsToFloat quotient
      let product ← Cell.arith (· * ·) (· * ·) floored r
      Cell.arith (· - ·) (· - ·) l product
  | .floordiv, l, r => do
      let quotient ← arrowDivide l r
      arrowFloor floorsToFloat quotient
  | .and, .bool a, .bool b => .ok (.bool (a && b))
  | .or, .bool a, .bool b => .ok (.bool (a || b))
  | op, l, r => do
      let b ← Value.compare op l.value r.value
      return .bool b

def arrowUnary : Operation → Cell → Except PyError Cell
  | .not, .bool b => .ok (.bool !b)
  | _, _ => .error .typeError

/-- The Arrow table. -/
def arrowKernels (floorsToFloat : Bool) : Kernels ℤ Cell where
  literal n := .int n
  binary := arrowBinary floorsToFloat
  unary := arrowUnary
  udf _ _ := .error .typeError
  synthetic _ := .error .typeError

/-! ### The pandas table -/

/-- A cell of a series, or a Python scalar. -/
structure PandasCell where
  isScalar : Bool
  cell : Cell
deriving DecidableEq

/-- The bitwise operators of Python: of booleans a boolean, else of integers. -/
def bitwise (f : Bool → Bool → Bool) (g : ℤ → ℤ → ℤ) : Cell → Cell → Except PyError Cell
  | .bool a, .bool b => .ok (.bool (f a b))
  | .bool a, .int n => .ok (.int (g a.toInt n))
  | .int m, .bool b => .ok (.int (g m b.toInt))
  | .int m, .int n => .ok (.int (g m n))
  | _, _ => .error .typeError

/-- `_PANDAS_EXPR_OPS_MAP` on the operations with two operands. -/
def pandasBinary : Operation → Cell → Cell → Except PyError Cell
  | .add, l, r => Cell.arith (· + ·) (· + ·) l r
  | .sub, l, r => Cell.arith (· - ·) (· - ·) l r
  | .mul, l, r => Cell.arith (· * ·) (· * ·) l r
  | .div, l, r => Cell.divide (fun m n => .float (m / n)) (fun p q => .float (p / q)) l r
  | .mod, l, r => Cell.divide (fun m n => .int (m.fmod n)) (fun p q => .float (p - ⌊p / q⌋ * q)) l r
  | .floordiv, l, r => Cell.divide (fun m n => .int (m.fdiv n)) (fun p q => .float ⌊p / q⌋) l r
  | .and, l, r => bitwise (· && ·) Int.land l r
  | .or, l, r => bitwise (· || ·) Int.lor l r
  | op, l, r => do
      let b ← Value.compare op l.value r.value
      return .bool b

/-- `operator.invert`: on a series of booleans the negation, on Python's booleans that of
integers. -/
def pandasInvert : PandasCell → Except PyError PandasCell
  | ⟨isScalar, .int n⟩ => .ok ⟨isScalar, .int (-n - 1)⟩
  | ⟨false, .bool b⟩ => .ok ⟨false, .bool !b⟩
  | ⟨true, .bool b⟩ => .ok ⟨true, .int (-b.toInt - 1)⟩
  | ⟨_, .float _⟩ => .error .typeError

/-- The pandas table. -/
def pandasKernels : Kernels ℤ PandasCell where
  literal n := ⟨true, .int n⟩
  binary op l r := do
    let c ← pandasBinary op l.cell r.cell
    return ⟨l.isScalar && r.isScalar, c⟩
  unary op c :=
    match op with
    | .not => pandasInvert c
    | _ => .error .typeError
  udf _ _ := .error .typeError
  synthetic _ := .error .typeError

/-! ### Exact arithmetic -/

/-- The operations on exact values. -/
def exactBinary : Operation → Value → Value → Except PyError Value
  | .add, .num p, .num q => .ok (.num (p + q))
  | .sub, .num p, .num q => .ok (.num (p - q))
  | .mul, .num p, .num q => .ok (.num (p * q))
  | .div, .num p, .num q => if q = 0 then .error .zeroDivisionError else .ok (.num (p / q))
  | .mod, .num p, .num q => if q = 0 then .error .zeroDivisionError else .ok (.num (p - ⌊p / q⌋ * q))
  | .floordiv, .num p, .num q => if q = 0 then .error .zeroDivisionError else .ok (.num ⌊p / q⌋)
  | .and, .bool a, .bool b => .ok (.bool (a && b))
  | .or, .bool a, .bool b => .ok (.bool (a || b))
  | op, l, r => do
      let b ← Value.compare op l r
      return .bool b

/-- Ordinary arithmetic and logic.  It is not defined where the kinds of the operands do not fit,
and on a division by zero. -/
def exactKernels : Kernels ℤ Value where
  literal n := .num n
  binary := exactBinary
  unary op v :=
    match op, v with
    | .not, .bool b => .ok (.bool !b)
    | _, _ => .error .typeError
  udf _ _ := .error .typeError
  synthetic _ := .error .typeError

/-- A row of integers. -/
abbrev IntRow := String → Option ℤ

def evalArrow (floorsToFloat : Bool) (row : IntRow) (e : Expr ℤ) : Except PyError Cell :=
  evalExpr (arrowKernels floorsToFloat) (fun name => (row name).map Cell.int) e

def evalPandas (row : IntRow) (e : Expr ℤ) : Except PyError PandasCell :=
  evalExpr pandasKernels (fun name => (row name).map (fun n => ⟨false, .int n⟩)) e

def evalExact (row : IntRow) (e : Expr ℤ) : Except PyError Value :=
  evalExpr exactKernels (fun name => (row name).map (fun n : ℤ => Value.num n)) e

/-- The two formats give equal values. -/
def SameValue (floorsToFloat : Bool) (row : IntRow) (e : Expr ℤ) : Prop :=
  ∃ a p, evalArrow floorsToFloat row e = .ok a ∧ evalPandas row e = .ok p ∧ a.value = p.cell.value

/-! ### When the formats agree -/

/-- Whether Arrow gives the result of an operation an integer type, from the types of the
operands. -/
def arrowIntResult (floorsToFloat : Bool) (op : Operation) (l r : Bool) : Bool :=
  match op with
  | .add | .sub | .mul | .div => l && r
  | .mod | .floordiv => !floorsToFloat && (l && r)
  | _ => false

/-- Whether Arrow gives the expression an integer type. -/
def arrowIntTyped (floorsToFloat : Bool) : Expr ℤ → Bool
  | .column _ => true
  | .literal _ => true
  | .binary op l r =>
    arrowIntResult floorsToFloat op (arrowIntTyped floorsToFloat l) (arrowIntTyped floorsToFloat r)
  | .aliased e _ _ => arrowIntTyped floorsToFloat e
  | _ => false

/-- A truncated quotient does for the operation. -/
def truncationFits (op : Operation) : Value → Value → Bool
  | .num p, .num q =>
    match op with
    | .div => (p / q).den = 1
    | .mod | .floordiv => (p / q).den = 1 ∨ 0 ≤ p / q
    | _ => true
  | _, _ => true

/-- The condition at one node, with the exact values of the operands. -/
def nodeFits (floorsToFloat : Bool) (row : IntRow) : Expr ℤ → Bool
  | .binary op l r =>
    match evalExact row l, evalExact row r with
    | .ok v, .ok w =>
      !(arrowIntTyped floorsToFloat l && arrowIntTyped floorsToFloat r) || truncationFits op v w
    | _, _ => true
  | .unary .not e => !e.columnRefs.isEmpty
  | _ => true

/-! ### Truncated and floored quotients -/

/-- The integer part, towards zero. -/
def truncated (x : ℚ) : ℤ := if 0 ≤ x then ⌊x⌋ else ⌈x⌉

variable {m n : ℤ}

theorem ediv_eq_floor (hn : 0 < n) : m / n = ⌊(m / n : ℚ)⌋ := by
  obtain ⟨k, rfl⟩ := Int.eq_ofNat_of_zero_le hn.le
  exact (Rat.floor_intCast_div_natCast m k).symm

/-- Quotients do not change when both signs do, so the divisor may be taken positive. -/
theorem quotient_of_pos {P : ℤ → ℤ → Prop} (hpos : ∀ m n, 0 < n → P m n)
    (hneg : ∀ m n, P (-m) (-n) → P m n) (hn : n ≠ 0) : P m n := by
  rcases lt_or_gt_of_ne hn with hlt | hgt
  · exact hneg m n (hpos (-m) (-n) (by omega))
  · exact hpos m n hgt

theorem fdiv_eq_floor (hn : n ≠ 0) : m.fdiv n = ⌊(m / n : ℚ)⌋ := by
  refine quotient_of_pos (P := fun m n => m.fdiv n = ⌊(m / n : ℚ)⌋) ?_ ?_ hn
  · intro m n hn
    rw [Int.fdiv_eq_ediv_of_nonneg m hn.le, ediv_eq_floor hn]
  · intro m n h
    rwa [Int.neg_fdiv_neg, Int.cast_neg, Int.cast_neg, neg_div_neg_eq] at h

theorem tdiv_eq_truncated (hn : n ≠ 0) : m.tdiv n = truncated (m / n) := by
  refine quotient_of_pos (P := fun m n => m.tdiv n = truncated (m / n)) ?_ ?_ hn
  · intro m n hn
    have hn' : (0 : ℚ) < n := Int.cast_pos.mpr hn
    unfold truncated
    split_ifs with hsign
    · have hm : 0 ≤ m := by
        by_contra hm
        have : (m / n : ℚ) < 0 := div_neg_of_neg_of_pos (Int.cast_lt_zero.mpr (not_le.mp hm)) hn'
        linarith
      rw [Int.tdiv_eq_ediv_of_nonneg hm, ediv_eq_floor hn]
    · have hm : 0 ≤ -m := by
        by_contra hm
        exact hsign (div_nonneg (by exact_mod_cast (by omega : 0 ≤ m)) hn'.le)
      have hneg : (-m).tdiv n = ⌊(-(m / n) : ℚ)⌋ := by
        rw [Int.tdiv_eq_ediv_of_nonneg hm, ediv_eq_floor hn, Int.cast_neg, neg_div]
      rw [Int.neg_tdiv, Int.floor_neg] at hneg
      omega
  · intro m n h
    rwa [Int.neg_tdiv_neg, Int.cast_neg, Int.cast_neg, neg_div_neg_eq] at h

theorem den_eq_one_iff_exists {x : ℚ} : x.den = 1 ↔ ∃ k : ℤ, (k : ℚ) = x := by
  rw [Rat.den_eq_one_iff]
  constructor
  · exact fun h => ⟨x.num, h⟩
  · rintro ⟨k, rfl⟩
    rw [Rat.num_intCast]

theorem truncated_eq_self {x : ℚ} : (truncated x : ℚ) = x ↔ x.den = 1 := by
  rw [den_eq_one_iff_exists]
  constructor
  · exact fun h => ⟨_, h⟩
  · rintro ⟨k, rfl⟩
    unfold truncated
    split_ifs
    · rw [Int.floor_intCast]
    · rw [Int.ceil_intCast]

theorem truncated_eq_floor {x : ℚ} : truncated x = ⌊x⌋ ↔ x.den = 1 ∨ 0 ≤ x := by
  unfold truncated
  split_ifs with hsign
  · exact ⟨fun _ => .inr hsign, fun _ => rfl⟩
  · rw [den_eq_one_iff_exists]
    constructor
    · intro h
      refine .inl ⟨⌊x⌋, le_antisymm (Int.floor_le x) ?_⟩
      rw [← h]
      exact Int.le_ceil x
    · rintro (⟨k, rfl⟩ | h)
      · rw [Int.floor_intCast, Int.ceil_intCast]
      · exact absurd h hsign

/-! ### The tables on cells -/

section cells
variable {l r : Cell} {p q : ℚ}
variable {c : Cell}

theorem Cell.value_eq_num (h : c.value = .num p) :
    (∃ n : ℤ, c = .int n ∧ p = n) ∨ c = .float p := by
  cases c with
  | int n => exact .inl ⟨n, rfl, (Value.num.inj h).symm⟩
  | float x => exact .inr (congrArg Cell.float (Value.num.inj h))
  | bool b => cases h

theorem Cell.value_eq_bool {b : Bool} (h : c.value = .bool b) : c = .bool b := by
  cases c with
  | int n => cases h
  | float x => cases h
  | bool a => exact congrArg Cell.bool (Value.bool.inj h)

theorem Cell.arith_value {f : ℤ → ℤ → ℤ} {g : ℚ → ℚ → ℚ} (hfg : ∀ m n, (f m n : ℚ) = g m n)
    (hl : l.value = .num p) (hr : r.value = .num q) :
    ∃ c, Cell.arith f g l r = .ok c ∧ c.value = .num (g p q) ∧ c.isInt = (l.isInt && r.isInt) := by
  obtain ⟨m, rfl, rfl⟩ | rfl := Cell.value_eq_num hl <;>
    obtain ⟨n, rfl, rfl⟩ | rfl := Cell.value_eq_num hr
  · exact ⟨_, rfl, congrArg Value.num (hfg m n), rfl⟩
  · exact ⟨_, rfl, rfl, rfl⟩
  · exact ⟨_, rfl, rfl, rfl⟩
  · exact ⟨_, rfl, rfl, rfl⟩

/-- A division by its value: `f` computes `F` on integers, `g` computes `G` on other numbers. -/
theorem Cell.divide_value {f : ℤ → ℤ → Cell} {g : ℚ → ℚ → Cell} {F G : ℚ → ℚ → ℚ}
    (hf : ∀ m n : ℤ, n ≠ 0 → (f m n).value = .num (F m n)) (hg : ∀ p q, (g p q).value = .num (G p q))
    (hl : l.value = .num p) (hr : r.value = .num q) (hq : q ≠ 0) :
    ∃ c, Cell.divide f g l r = .ok c ∧ c.value = .num (if l.isInt && r.isInt then F p q else G p q) ∧
      ((∀ m n, (f m n).isInt = true) → (∀ p q, (g p q).isInt = false) →
        c.isInt = (l.isInt && r.isInt)) := by
  obtain ⟨m, rfl, rfl⟩ | rfl := Cell.value_eq_num hl <;>
    obtain ⟨n, rfl, rfl⟩ | rfl := Cell.value_eq_num hr
  · have hn : n ≠ 0 := Int.cast_ne_zero.mp hq
    exact ⟨f m n, if_neg hn, hf m n hn, fun hint _ => hint m n⟩
  · exact ⟨g m q, if_neg hq, hg _ _, fun _ hfloat => hfloat _ _⟩
  · have hn : n ≠ 0 := Int.cast_ne_zero.mp hq
    exact ⟨g p n, if_neg hn, hg _ _, fun _ hfloat => hfloat _ _⟩
  · exact ⟨g p q, if_neg hq, hg _ _, fun _ hfloat => hfloat _ _⟩

theorem arrowDivide_value (hl : l.value = .num p) (hr : r.value = .num q) (hq : q ≠ 0) :
    ∃ c, arrowDivide l r = .ok c ∧
      c.value = .num (if l.isInt && r.isInt then (truncated (p / q) : ℚ) else p / q) ∧
      c.isInt = (l.isInt && r.isInt) := by
  obtain ⟨c, hc, hvalue, hint⟩ := Cell.divide_value
    (f := fun m n => .int (m.tdiv n)) (g := fun p q => .float (p / q))
    (F := fun p q => (truncated (p / q) : ℚ)) (G := fun p q => p / q)
    (fun m n hn => by rw [tdiv_eq_truncated hn]; rfl) (fun _ _ => rfl) hl hr hq
  exact ⟨c, hc, hvalue, hint (fun _ _ => rfl) (fun _ _ => rfl)⟩

theorem arrowFloor_value (floorsToFloat : Bool) (h : c.value = .num p) :
    ∃ c', arrowFloor floorsToFloat c = .ok c' ∧ c'.value = .num ⌊p⌋ ∧
      c'.isInt = (!floorsToFloat && c.isInt) := by
  obtain ⟨n, rfl, rfl⟩ | rfl := Cell.value_eq_num h
  · refine ⟨_, rfl, ?_, ?_⟩
    · rw [Int.floor_intCast]
      cases floorsToFloat <;> rfl
    · cases floorsToFloat <;> rfl
  · exact ⟨_, rfl, rfl, (Bool.and_false _).symm⟩

variable {op : Operation} {v : Value}

/-- An operation that is neither a comparison nor a connective has an exact value on numbers
only. -/
theorem exactBinary_num {w u : Value} (h : exactBinary op v w = .ok u)
    (hop : op = .add ∨ op = .sub ∨ op = .mul ∨ op = .div ∨ op = .mod ∨ op = .floordiv) :
    ∃ p q, v = .num p ∧ w = .num q := by
  cases v with
  | num p =>
    cases w with
    | num q => exact ⟨p, q, rfl, rfl⟩
    | bool b => rcases hop with rfl | rfl | rfl | rfl | rfl | rfl <;> cases h
  | bool a =>
    cases w with
    | num q => rcases hop with rfl | rfl | rfl | rfl | rfl | rfl <;> cases h
    | bool b => rcases hop with rfl | rfl | rfl | rfl | rfl | rfl <;> cases h

theorem exactBinary_bool {w u : Value} (h : exactBinary op v w = .ok u)
    (hop : op = .and ∨ op = .or) : ∃ a b, v = .bool a ∧ w = .bool b := by
  cases v with
  | num p => cases w <;> rcases hop with rfl | rfl <;> cases h
  | bool a =>
    cases w with
    | num q => rcases hop with rfl | rfl <;> cases h
    | bool b => exact ⟨a, b, rfl, rfl⟩

/-- A floored quotient in Arrow is right unless it was truncated upwards before. -/
theorem arrowFloorDivide_value (floorsToFloat : Bool) (hl : l.value = .num p) (hr : r.value = .num q)
    (hq : q ≠ 0) :
    ∃ (c : Cell) (z : ℤ), (arrowDivide l r >>= arrowFloor floorsToFloat) = .ok c ∧ c.value = .num z ∧
      c.isInt = (!floorsToFloat && (l.isInt && r.isInt)) ∧
      (z = ⌊p / q⌋ ↔ ((l.isInt && r.isInt) = true → (p / q).den = 1 ∨ 0 ≤ p / q)) := by
  obtain ⟨quotient, hquotient, hvalue, hint⟩ := arrowDivide_value hl hr hq
  obtain ⟨c, hc, hfloor, hcint⟩ := arrowFloor_value floorsToFloat hvalue
  refine ⟨c, _, bind_eq_ok.mpr ⟨quotient, hquotient, hc⟩, hfloor, by rw [hcint, hint], ?_⟩
  cases hboth : l.isInt && r.isInt with
  | false => exact ⟨fun _ h => (nomatch h), fun _ => rfl⟩
  | true =>
    rw [if_pos rfl, Int.floor_intCast, truncated_eq_floor]
    exact ⟨fun h _ => h, fun h => h rfl⟩

/-- The cell that Arrow computes has the type that it infers, and the exact value unless a truncated
quotient does not do. -/
def ArrowGives (floorsToFloat : Bool) (op : Operation) (l r : Cell) (v : Value) : Prop :=
  ∃ a, arrowBinary floorsToFloat op l r = .ok a ∧
    a.isInt = arrowIntResult floorsToFloat op l.isInt r.isInt ∧
    (a.value = v ↔ ((l.isInt && r.isInt) = true → truncationFits op l.value r.value = true))

section arrow
variable {floorsToFloat : Bool} {op : Operation} {v : Value}

theorem arrowGives_arith {f : ℤ → ℤ → ℤ} {g : ℚ → ℚ → ℚ}
    (harrow : arrowBinary floorsToFloat op l r = Cell.arith f g l r)
    (hint : arrowIntResult floorsToFloat op l.isInt r.isInt = (l.isInt && r.isInt))
    (hfits : truncationFits op (.num p) (.num q) = true) (hfg : ∀ m n, (f m n : ℚ) = g m n)
    (hl : l.value = .num p) (hr : r.value = .num q) (hv : v = .num (g p q)) :
    ArrowGives floorsToFloat op l r v := by
  obtain ⟨c, hc, hvalue, hcint⟩ := Cell.arith_value hfg hl hr
  refine ⟨c, by rw [harrow, hc], by rw [hint, hcint], ?_⟩
  rw [hvalue, hv, hl, hr]
  exact ⟨fun _ _ => hfits, fun _ => rfl⟩

theorem arrowGives_compare
    (harrow : arrowBinary floorsToFloat op l r =
      (Value.compare op l.value r.value >>= fun b => pure (.bool b)))
    (hexact : exactBinary op l.value r.value =
      (Value.compare op l.value r.value >>= fun b => pure (.bool b)))
    (hint : arrowIntResult floorsToFloat op l.isInt r.isInt = false)
    (hfits : ∀ v w, truncationFits op v w = true) (h : exactBinary op l.value r.value = .ok v) :
    ArrowGives floorsToFloat op l r v := by
  rw [hexact] at h
  obtain ⟨b, hb, hv⟩ := bind_eq_ok.mp h
  refine ⟨.bool b, by rw [harrow, hb]; rfl, by rw [hint]; rfl, ?_⟩
  exact ⟨fun _ _ => hfits _ _, fun _ => Except.ok.inj hv⟩

theorem arrowGives_div (hl : l.value = .num p) (hr : r.value = .num q) (hq : q ≠ 0) :
    ArrowGives floorsToFloat .div l r (.num (p / q)) := by
  obtain ⟨c, hc, hvalue, hint⟩ := arrowDivide_value hl hr hq
  refine ⟨c, hc, hint, ?_⟩
  rw [hvalue, hl, hr, Value.num.injEq]
  cases l.isInt && r.isInt with
  | false => exact ⟨fun _ h => (nomatch h), fun _ => rfl⟩
  | true =>
    rw [if_pos rfl, truncated_eq_self, truncationFits, decide_eq_true_iff]
    exact ⟨fun h _ => h, fun h => h rfl⟩

theorem arrowGives_floordiv (hl : l.value = .num p) (hr : r.value = .num q) (hq : q ≠ 0) :
    ArrowGives floorsToFloat .floordiv l r (.num ⌊p / q⌋) := by
  obtain ⟨c, z, hc, hvalue, hint, hz⟩ := arrowFloorDivide_value floorsToFloat hl hr hq
  refine ⟨c, hc, hint, ?_⟩
  rw [hvalue, hl, hr, Value.num.injEq, Int.cast_inj, hz, truncationFits, decide_eq_true_iff]

theorem arrowGives_mod (hl : l.value = .num p) (hr : r.value = .num q) (hq : q ≠ 0) :
    ArrowGives floorsToFloat .mod l r (.num (p - ⌊p / q⌋ * q)) := by
  obtain ⟨c, z, hc, hvalue, hint, hz⟩ := arrowFloorDivide_value floorsToFloat hl hr hq
  obtain ⟨quotient, hquotient, hfloor⟩ := bind_eq_ok.mp hc
  obtain ⟨product, hproduct, hpvalue, hpint⟩ :=
    Cell.arith_value (f := (· * ·)) (g := (· * ·)) (fun m n => by push_cast; rfl) hvalue hr
  obtain ⟨a, ha, havalue, haint⟩ :=
    Cell.arith_value (f := (· - ·)) (g := (· - ·)) (fun m n => by push_cast; rfl) hl hpvalue
  have heval : arrowBinary floorsToFloat .mod l r = .ok a := by
    exact bind_eq_ok.mpr
      ⟨quotient, hquotient, bind_eq_ok.mpr ⟨c, hfloor, bind_eq_ok.mpr ⟨product, hproduct, ha⟩⟩⟩
  refine ⟨a, heval, ?_, ?_⟩
  · rw [haint, hpint, hint, arrowIntResult]
    cases l.isInt <;> cases r.isInt <;> cases floorsToFloat <;> rfl
  · rw [havalue, hl, hr, Value.num.injEq, truncationFits, decide_eq_true_iff, ← hz, sub_right_inj,
      mul_left_inj' hq, Int.cast_inj]

theorem exactBinary_zero {u : Value} (h : exactBinary op (.num p) (.num q) = .ok u)
    (hop : op = .div ∨ op = .mod ∨ op = .floordiv) : q ≠ 0 := by
  rintro rfl
  rcases hop with rfl | rfl | rfl <;> simp [exactBinary] at h

/-- The Arrow table next to exact arithmetic. -/
theorem arrowBinary_spec (floorsToFloat : Bool) (h : exactBinary op l.value r.value = .ok v) :
    ArrowGives floorsToFloat op l r v := by
  cases op with
  | add =>
    obtain ⟨p, q, hl, hr⟩ := exactBinary_num h (by simp)
    rw [hl, hr] at h
    exact arrowGives_arith rfl rfl rfl (fun m n => by push_cast; rfl) hl hr (Except.ok.inj h).symm
  | sub =>
    obtain ⟨p, q, hl, hr⟩ := exactBinary_num h (by simp)
    rw [hl, hr] at h
    exact arrowGives_arith rfl rfl rfl (fun m n => by push_cast; rfl) hl hr (Except.ok.inj h).symm
  | mul =>
    obtain ⟨p, q, hl, hr⟩ := exactBinary_num h (by simp)
    rw [hl, hr] at h
    exact arrowGives_arith rfl rfl rfl (fun m n => by push_cast; rfl) hl hr (Except.ok.inj h).symm
  | div =>
    obtain ⟨p, q, hl, hr⟩ := exactBinary_num h (by simp)
    rw [hl, hr] at h
    have hq := exactBinary_zero h (by simp)
    rw [exactBinary, if_neg hq] at h
    rw [← Except.ok.inj h]
    exact arrowGives_div hl hr hq
  | mod =>
    obtain ⟨p, q, hl, hr⟩ := exactBinary_num h (by simp)
    rw [hl, hr] at h
    have hq := exactBinary_zero h (by simp)
    rw [exactBinary, if_neg hq] at h
    rw [← Except.ok.inj h]
    exact arrowGives_mod hl hr hq
  | floordiv =>
    obtain ⟨p, q, hl, hr⟩ := exactBinary_num h (by simp)
    rw [hl, hr] at h
    have hq := exactBinary_zero h (by simp)
    rw [exactBinary, if_neg hq] at h
    rw [← Except.ok.inj h]
    exact arrowGives_floordiv hl hr hq
  | and =>
    obtain ⟨a, b, hl, hr⟩ := exactBinary_bool h (by simp)
    rw [hl, hr] at h
    rw [Cell.value_eq_bool hl, Cell.value_eq_bool hr]
    exact ⟨.bool (a && b), rfl, rfl, fun _ _ => rfl, fun _ => Except.ok.inj h⟩
  | or =>
    obtain ⟨a, b, hl, hr⟩ := exactBinary_bool h (by simp)
    rw [hl, hr] at h
    rw [Cell.value_eq_bool hl, Cell.value_eq_bool hr]
    exact ⟨.bool (a || b), rfl, rfl, fun _ _ => rfl, fun _ => Except.ok.inj h⟩
  | _ => exact arrowGives_compare rfl rfl rfl (fun v w => by cases v <;> cases w <;> rfl) h

end arrow

/-- A division of the pandas table: integers and other numbers are divided to the same value. -/
theorem pandasDivide_value {f : ℤ → ℤ → Cell} {g : ℚ → ℚ → Cell} {G : ℚ → ℚ → ℚ}
    (hf : ∀ m n : ℤ, n ≠ 0 → (f m n).value = .num (G m n)) (hg : ∀ p q, (g p q).value = .num (G p q))
    (hl : l.value = .num p) (hr : r.value = .num q) (hq : q ≠ 0) :
    ∃ c, Cell.divide f g l r = .ok c ∧ c.value = .num (G p q) := by
  obtain ⟨c, hc, hvalue, -⟩ := Cell.divide_value hf hg hl hr hq
  rw [ite_self] at hvalue
  exact ⟨c, hc, hvalue⟩

theorem pandasArith_value {f : ℤ → ℤ → ℤ} {g : ℚ → ℚ → ℚ} (hfg : ∀ m n, (f m n : ℚ) = g m n)
    (hl : l.value = .num p) (hr : r.value = .num q) (hv : v = .num (g p q)) :
    ∃ c, Cell.arith f g l r = .ok c ∧ c.value = v := by
  obtain ⟨c, hc, hvalue, -⟩ := Cell.arith_value hfg hl hr
  exact ⟨c, hc, hvalue.trans hv.symm⟩

theorem pandasCompare_value
    (hpandas : pandasBinary op l r = (Value.compare op l.value r.value >>= fun b => pure (.bool b)))
    (hexact : exactBinary op l.value r.value =
      (Value.compare op l.value r.value >>= fun b => pure (.bool b)))
    (h : exactBinary op l.value r.value = .ok v) : ∃ c, pandasBinary op l r = .ok c ∧ c.value = v := by
  rw [hexact] at h
  obtain ⟨b, hb, hv⟩ := bind_eq_ok.mp h
  exact ⟨.bool b, by rw [hpandas, hb]; rfl, Except.ok.inj hv⟩

/-- The pandas table computes the exact values. -/
theorem pandasBinary_spec (h : exactBinary op l.value r.value = .ok v) :
    ∃ c, pandasBinary op l r = .ok c ∧ c.value = v := by
  cases op with
  | add =>
    obtain ⟨p, q, hl, hr⟩ := exactBinary_num h (by simp)
    rw [hl, hr] at h
    exact pandasArith_value (fun m n => by push_cast; rfl) hl hr (Except.ok.inj h).symm
  | sub =>
    obtain ⟨p, q, hl, hr⟩ := exactBinary_num h (by simp)
    rw [hl, hr] at h
    exact pandasArith_value (fun m n => by push_cast; rfl) hl hr (Except.ok.inj h).symm
  | mul =>
    obtain ⟨p, q, hl, hr⟩ := exactBinary_num h (by simp)
    rw [hl, hr] at h
    exact pandasArith_value (fun m n => by push_cast; rfl) hl hr (Except.ok.inj h).symm
  | div =>
    obtain ⟨p, q, hl, hr⟩ := exactBinary_num h (by simp)
    rw [hl, hr] at h
    have hq := exactBinary_zero h (by simp)
    rw [exactBinary, if_neg hq] at h
    rw [← Except.ok.inj h]
    exact pandasDivide_value (g := fun p q => .float (p / q)) (G := fun p q => p / q)
      (fun _ _ _ => rfl) (fun _ _ => rfl) hl hr hq
  | mod =>
    obtain ⟨p, q, hl, hr⟩ := exactBinary_num h (by simp)
    rw [hl, hr] at h
    have hq := exactBinary_zero h (by simp)
    rw [exactBinary, if_neg hq] at h
    rw [← Except.ok.inj h]
    have hint : ∀ m n : ℤ, n ≠ 0 → Cell.value (.int (m.fmod n)) = .num (m - ⌊(m / n : ℚ)⌋ * n) := by
      intro m n hn
      rw [← fdiv_eq_floor hn, Int.fmod_def, Cell.value]
      push_cast
      rw [mul_comm]
    exact pandasDivide_value (g := fun p q => .float (p - ⌊p / q⌋ * q))
      (G := fun p q => p - ⌊p / q⌋ * q) hint (fun _ _ => rfl) hl hr hq
  | floordiv =>
    obtain ⟨p, q, hl, hr⟩ := exactBinary_num h (by simp)
    rw [hl, hr] at h
    have hq := exactBinary_zero h (by simp)
    rw [exactBinary, if_neg hq] at h
    rw [← Except.ok.inj h]
    have hint : ∀ m n : ℤ, n ≠ 0 → Cell.value (.int (m.fdiv n)) = .num ⌊(m / n : ℚ)⌋ := by
      intro m n hn
      rw [← fdiv_eq_floor hn, Cell.value]
    exact pandasDivide_value (g := fun p q => .float ⌊p / q⌋) (G := fun p q => (⌊p / q⌋ : ℚ)) hint
      (fun _ _ => rfl) hl hr hq
  | and =>
    obtain ⟨a, b, hl, hr⟩ := exactBinary_bool h (by simp)
    rw [hl, hr] at h
    rw [Cell.value_eq_bool hl, Cell.value_eq_bool hr]
    exact ⟨.bool (a && b), rfl, Except.ok.inj h⟩
  | or =>
    obtain ⟨a, b, hl, hr⟩ := exactBinary_bool h (by simp)
    rw [hl, hr] at h
    rw [Cell.value_eq_bool hl, Cell.value_eq_bool hr]
    exact ⟨.bool (a || b), rfl, Except.ok.inj h⟩
  | _ => exact pandasCompare_value rfl rfl h

end cells

/-! ### The tables on expressions -/

/-- What the two formats compute for an expression with the exact value `v`, in the good case. -/
structure Computes (floorsToFloat : Bool) (row : IntRow) (e : Expr ℤ) (v : Value) (a : Cell)
    (c : PandasCell) :
    Prop where
  arrow : evalArrow floorsToFloat row e = .ok a
  arrow_value : a.value = v
  arrow_isInt : a.isInt = arrowIntTyped floorsToFloat e
  pandas : evalPandas row e = .ok c
  pandas_value : c.cell.value = v
  pandas_isScalar : c.isScalar = e.columnRefs.isEmpty

section formats
variable {floorsToFloat : Bool} {row : IntRow}
variable {v : Value}

theorem computes_column {name : String} (h : evalExact row (.column name) = .ok v) :
    ∃ a c, Computes floorsToFloat row (.column name) v a c := by
  cases hrow : row name with
  | none => simp [evalExact, evalExpr, hrow] at h
  | some n =>
    simp only [evalExact, evalExpr, hrow, Option.map_some, Option.elim_some, Except.ok.injEq] at h
    refine ⟨.int n, ⟨false, .int n⟩, ?_, h, rfl, ?_, h, rfl⟩
    · simp [evalArrow, evalExpr, hrow]
    · simp [evalPandas, evalExpr, hrow]

/-- Over operands that are computed right, the pandas table is right, and the formats give equal
values if and only if a truncated quotient does where Arrow takes one. -/
theorem computes_binary {op : Operation} {l r : Expr ℤ} {w u : Value} {a b : Cell} {c d : PandasCell}
    (hl : evalExact row l = .ok v) (hr : evalExact row r = .ok w) (hu : exactBinary op v w = .ok u)
    (hcl : Computes floorsToFloat row l v a c) (hcr : Computes floorsToFloat row r w b d) :
    (SameValue floorsToFloat row (.binary op l r) ↔ nodeFits floorsToFloat row
      (.binary op l r) = true) ∧
    (nodeFits floorsToFloat row (.binary op l r) = true →
      ∃ a c, Computes floorsToFloat row (.binary op l r) u a c) := by
  rw [← hcl.arrow_value, ← hcr.arrow_value] at hu
  obtain ⟨a', ha', hint, hvalue⟩ := arrowBinary_spec floorsToFloat hu
  have harrow : evalArrow floorsToFloat row (.binary op l r) = .ok a' :=
    bind_eq_ok.mpr ⟨a, hcl.arrow, bind_eq_ok.mpr ⟨b, hcr.arrow, ha'⟩⟩
  rw [hcl.arrow_value, hcr.arrow_value, ← hcl.pandas_value, ← hcr.pandas_value] at hu
  obtain ⟨cell, hcell, hpvalue⟩ := pandasBinary_spec hu
  have hpandas : evalPandas row (.binary op l r) = .ok ⟨c.isScalar && d.isScalar, cell⟩ :=
    bind_eq_ok.mpr ⟨c, hcl.pandas, bind_eq_ok.mpr ⟨d, hcr.pandas, bind_eq_ok.mpr ⟨cell, hcell, rfl⟩⟩⟩
  have hfits : nodeFits floorsToFloat row (.binary op l r) = true ↔ a'.value = u := by
    rw [hvalue, nodeFits, hl, hr, hcl.arrow_isInt, hcr.arrow_isInt, hcl.arrow_value, hcr.arrow_value]
    cases arrowIntTyped floorsToFloat l && arrowIntTyped floorsToFloat r <;> simp
  constructor
  · rw [hfits]
    constructor
    · rintro ⟨a₁, c₁, ha₁, hc₁, hsame⟩
      rw [harrow] at ha₁
      rw [hpandas] at hc₁
      cases ha₁
      cases hc₁
      exact hsame.trans hpvalue
    · exact fun h => ⟨a', _, harrow, hpandas, h.trans hpvalue.symm⟩
  · intro h
    refine ⟨a', _, harrow, hfits.mp h, ?_, hpandas, hpvalue, ?_⟩
    · rw [hint, hcl.arrow_isInt, hcr.arrow_isInt, arrowIntTyped]
    · rw [hcl.pandas_isScalar, hcr.pandas_isScalar, Expr.columnRefs]
      cases l.columnRefs <;> rfl

variable {e : Expr ℤ}

theorem computes_not {b : Bool} {a : Cell} {c : PandasCell}
    (hc : Computes floorsToFloat row e (.bool b) a c) :
    (SameValue floorsToFloat row (.unary .not e) ↔ nodeFits floorsToFloat row (.unary .not e) = true) ∧
    (nodeFits floorsToFloat row (.unary .not e) = true →
      ∃ a c, Computes floorsToFloat row (.unary .not e) (.bool !b) a c) := by
  obtain rfl := Cell.value_eq_bool hc.arrow_value
  have harrow : evalArrow floorsToFloat row (.unary .not e) = .ok (.bool !b) :=
    bind_eq_ok.mpr ⟨_, hc.arrow, rfl⟩
  obtain ⟨isScalar, cell⟩ := c
  have hcell := Cell.value_eq_bool hc.pandas_value
  have hscalar := hc.pandas_isScalar
  subst hcell
  have hpandas : evalPandas row (.unary .not e) = pandasInvert ⟨isScalar, .bool b⟩ := by
    rw [evalPandas, evalExpr]
    rw [show evalExpr pandasKernels _ e = .ok ⟨isScalar, .bool b⟩ from hc.pandas]
    rfl
  rw [nodeFits, ← hscalar]
  cases isScalar with
  | false =>
    refine ⟨⟨fun _ => rfl, fun _ => ⟨_, _, harrow, hpandas, rfl⟩⟩, fun _ => ?_⟩
    exact ⟨_, _, harrow, rfl, rfl, hpandas, rfl, hscalar⟩
  | true =>
    refine ⟨⟨?_, fun h => absurd h Bool.false_ne_true⟩, fun h => absurd h Bool.false_ne_true⟩
    rintro ⟨a₁, c₁, ha₁, hc₁, hsame⟩
    rw [harrow] at ha₁
    rw [hpandas] at hc₁
    cases ha₁
    cases hc₁
    cases hsame

theorem computes_leaf {depth : ℕ} (hleaf : e.occurrences depth = [(e, depth)])
    (hfits : nodeFits floorsToFloat row e = true) (h : ∃ a c, Computes floorsToFloat row e v a c) :
    ((∀ o ∈ e.occurrences depth, SameValue floorsToFloat row o.1) ↔
      ∀ o ∈ e.occurrences depth, nodeFits floorsToFloat row o.1 = true) ∧
    ((∀ o ∈ e.occurrences depth, nodeFits floorsToFloat row o.1 = true) →
      ∃ a c, Computes floorsToFloat row e v a c) := by
  obtain ⟨a, c, hc⟩ := h
  rw [hleaf, List.forall_mem_singleton, List.forall_mem_singleton]
  refine ⟨⟨fun _ => hfits, fun _ => ?_⟩, fun _ => ⟨a, c, hc⟩⟩
  exact ⟨a, c, hc.arrow, hc.pandas, hc.arrow_value.trans hc.pandas_value.symm⟩

/-- The formats agree at every node if and only if the condition holds at every node, and then both
compute the exact value. -/
theorem computes_iff_fits {depth : ℕ} (h : evalExact row e = .ok v) :
    ((∀ o ∈ e.occurrences depth, SameValue floorsToFloat row o.1) ↔
      ∀ o ∈ e.occurrences depth, nodeFits floorsToFloat row o.1 = true) ∧
    ((∀ o ∈ e.occurrences depth, nodeFits floorsToFloat row o.1 = true) →
      ∃ a c, Computes floorsToFloat row e v a c) := by
  induction e generalizing v depth with
  | column name => exact computes_leaf rfl rfl (computes_column h)
  | literal value =>
    apply computes_leaf rfl rfl
    exact ⟨.int value, ⟨true, .int value⟩, rfl, Except.ok.inj h, rfl, rfl, Except.ok.inj h, rfl⟩
  | binary op l r ihl ihr =>
    obtain ⟨x, hl, hrest⟩ := bind_eq_ok.mp h
    obtain ⟨y, hr, hu⟩ := bind_eq_ok.mp hrest
    obtain ⟨hiffl, hcl⟩ := @ihl x (depth + 1) hl
    obtain ⟨hiffr, hcr⟩ := @ihr y (depth + 1) hr
    rw [Expr.forall_occurrences_binary (P := SameValue floorsToFloat row),
      Expr.forall_occurrences_binary (P := fun e => nodeFits floorsToFloat row e = true), hiffl, hiffr]
    constructor
    · refine and_congr_right (fun hfl => and_congr_right (fun hfr => ?_))
      obtain ⟨a, c, hac⟩ := hcl hfl
      obtain ⟨b, d, hbd⟩ := hcr hfr
      exact (computes_binary hl hr hu hac hbd).1
    · rintro ⟨hfl, hfr, hnode⟩
      obtain ⟨a, c, hac⟩ := hcl hfl
      obtain ⟨b, d, hbd⟩ := hcr hfr
      exact (computes_binary hl hr hu hac hbd).2 hnode
  | unary op operand ih =>
    obtain ⟨x, hx, hu⟩ := bind_eq_ok.mp h
    -- of the operations with one operand only a negation of a boolean has a value here
    obtain ⟨b, rfl, rfl, rfl⟩ : ∃ b, op = .not ∧ x = .bool b ∧ v = .bool !b := by
      cases op with
      | not =>
        cases x with
        | num q => cases hu
        | bool b => exact ⟨b, rfl, rfl, (Except.ok.inj hu).symm⟩
      | _ => cases hu
    obtain ⟨hiff, hc⟩ := @ih _ (depth + 1) hx
    rw [Expr.forall_occurrences_unary (P := SameValue floorsToFloat row),
      Expr.forall_occurrences_unary (P := fun e => nodeFits floorsToFloat row e = true), hiff]
    constructor
    · refine and_congr_right (fun hf => ?_)
      obtain ⟨a, c, hac⟩ := hc hf
      exact (computes_not hac).1
    · rintro ⟨hf, hnode⟩
      obtain ⟨a, c, hac⟩ := hc hf
      exact (computes_not hac).2 hnode
  | aliased expr name isRename ih =>
    obtain ⟨hiff, hc⟩ := @ih v (depth + 1) h
    rw [Expr.forall_occurrences_aliased (P := SameValue floorsToFloat row),
      Expr.forall_occurrences_aliased (P := fun e => nodeFits floorsToFloat row e = true), hiff]
    constructor
    · refine and_congr_right (fun hf => ⟨fun _ => rfl, fun _ => ?_⟩)
      obtain ⟨a, c, hac⟩ := hc hf
      exact ⟨a, c, hac.arrow, hac.pandas, hac.arrow_value.trans hac.pandas_value.symm⟩
    · rintro ⟨hf, -⟩
      obtain ⟨a, c, hac⟩ := hc hf
      exact ⟨a, c, hac.arrow, hac.arrow_value, hac.arrow_isInt, hac.pandas, hac.pandas_value,
        hac.pandas_isScalar⟩
  | udf fn args _ =>
    obtain ⟨cs, -, hu⟩ := bind_eq_ok.mp h
    cases hu
  | download uriColumnName => cases h
  | star => cases h
  | synthetic kind => cases h

end formats

/-- On every table where an expression and its parts have an exact value, the two block formats
agree on it and its parts in every row if and only if in every row each quotient of two operands
that Arrow takes for integers is integral, or at `FLOORDIV` and `MOD` not negative, and no `NOT` is
applied to a condition without columns. -/
theorem formats_agree_iff (floorsToFloat : Bool) (table : List IntRow) (e : Expr ℤ)
    (hexact : ∀ row ∈ table, ∃ v, evalExact row e = .ok v) :
    (∀ row ∈ table, ∀ o ∈ e.occurrences 0, SameValue floorsToFloat row o.1) ↔
      ∀ row ∈ table, ∀ o ∈ e.occurrences 0, nodeFits floorsToFloat row o.1 = true := by
  refine forall_congr' (fun row => forall_congr' (fun hrow => ?_))
  obtain ⟨v, hv⟩ := hexact row hrow
  exact (computes_iff_fits hv).1

/-- A row with the columns `a` and `b`. -/
def rowOf (a b : ℤ) : IntRow
  | "a" => some a
  | "b" => some b
  | _ => none

/-- `(col("a") // col("b")) / 3 > 0`. -/
def quotientTest : Expr ℤ :=
  .binary .gt (.binary .div (.binary .floordiv (.column "a") (.column "b")) (.literal 3)) (.literal 0)

theorem formats_agree_quotientTest :
    (∀ row ∈ [rowOf 7 2, rowOf (-6) 2], ∀ o ∈ quotientTest.occurrences 0,
      nodeFits true row o.1 = true) ∧
      ∀ row ∈ [rowOf 7 2, rowOf (-6) 2], ∀ o ∈ quotientTest.occurrences 0, SameValue true row o.1 := by
  have hexact : ∀ row ∈ [rowOf 7 2, rowOf (-6) 2], ∃ v, evalExact row quotientTest = .ok v := by
    simp only [List.forall_mem_cons, List.not_mem_nil, IsEmpty.forall_iff, implies_true, and_true]
    exact ⟨⟨.bool true, by decide +kernel⟩, ⟨.bool false, by decide +kernel⟩⟩
  have hfits : ∀ row ∈ [rowOf 7 2, rowOf (-6) 2], ∀ o ∈ quotientTest.occurrences 0,
      nodeFits true row o.1 = true := by
    simp only [List.forall_mem_cons, List.not_mem_nil, IsEmpty.forall_iff, implies_true, and_true]
    exact ⟨by decide +kernel, by decide +kernel⟩
  exact ⟨hfits, (formats_agree_iff true _ _ hexact).mpr hfits⟩

/-- `-7 // 2`: Arrow truncates the quotient to `-3` before it takes the floor. -/
theorem formats_disagree_floordiv :
    evalExact (rowOf (-7) 2) (.binary .floordiv (.column "a") (.column "b")) = .ok (.num (-4)) ∧
    ∀ floorsToFloat, ¬ SameValue floorsToFloat (rowOf (-7) 2)
      (.binary .floordiv (.column "a") (.column "b")) := by
  refine ⟨by decide +kernel, ?_⟩
  rintro floorsToFloat ⟨a, c, ha, hc, hsame⟩
  have harrow : ∀ b, (evalArrow b (rowOf (-7) 2)
    (.binary .floordiv (.column "a") (.column "b"))).toOption.map
      Cell.value = some (.num (-3)) := by
    decide +kernel
  have hpandas : (evalPandas (rowOf (-7) 2)
    (.binary .floordiv (.column "a") (.column "b"))).toOption.map
      (fun c => c.cell.value) = some (.num (-4)) := by
    decide +kernel
  have h := harrow floorsToFloat
  rw [ha, Except.toOption, Option.map_some, hsame] at h
  rw [hc, Except.toOption, Option.map_some, h] at hpandas
  exact absurd hpandas (by decide +kernel)

end RayTfm.Logical
