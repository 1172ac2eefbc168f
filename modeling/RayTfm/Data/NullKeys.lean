import Mathlib

/-! # Keys with nulls

The values of key columns, among them `None` and NaN, their equality `keys_equal` and their order
with `NULL_SENTINEL` (`util.py`).  The other values are of a type with a linear order. -/

namespace RayTfm.Data

/-- A value of a column. -/
inductive PyValue (V : Type) where
  | none
  | nan
  | val (v : V)
deriving DecidableEq, Repr

namespace PyValue
variable {V : Type}

/-- `is_nan`. -/
def isNan : PyValue V → Bool
  | nan => true
  | _ => false

/-- `is_null`. -/
def isNull : PyValue V → Bool
  | val _ => false
  | _ => true

/-- The operator `==`: NaN is not equal to itself. -/
def pyEq [DecidableEq V] : PyValue V → PyValue V → Bool
  | none, none => true
  | val v, val w => decide (v = w)
  | _, _ => false

/-- A value with `NULL_SENTINEL` for the nulls, which is greater than all others.  In a tuple the
sentinel is equal to itself: tuples compare the identity of their items first. -/
def safe : PyValue V → WithTop V
  | val v => v
  | _ => ⊤

end PyValue

variable {V : Type}

/-- `keys_equal`. -/
def keysEqual [DecidableEq V] (keys1 keys2 : List (PyValue V)) : Bool :=
  keys1.length == keys2.length && (keys1.zip keys2).all
    (fun k => (k.1.isNan && k.2.isNan) || k.1.pyEq k.2)

/-- `safe_key_fn`, of a key. -/
def safeKey (keys : List (PyValue V)) : List (WithTop V) := keys.map PyValue.safe

theorem PyValue.isNan_or_pyEq_iff [DecidableEq V] {k k' : PyValue V} :
    ((k.isNan && k'.isNan) || k.pyEq k') = true ↔ k = k' := by
  cases k with
  | none => cases k' <;> simp [isNan, pyEq]
  | nan => cases k' <;> simp [isNan, pyEq]
  | val v => cases k' <;> simp [isNan, pyEq]

/-- `keys_equal` is equality, with NaN equal to itself. -/
theorem keysEqual_iff [DecidableEq V] {keys1 keys2 : List (PyValue V)} :
    keysEqual keys1 keys2 = true ↔ keys1 = keys2 := by
  unfold keysEqual
  induction keys1 generalizing keys2 with
  | nil =>
    cases keys2 with
    | nil => simp
    | cons k' keys2 => simp
  | cons k keys1 ih =>
    cases keys2 with
    | nil => simp
    | cons k' keys2 =>
      rw [List.cons.injEq, ← ih, ← PyValue.isNan_or_pyEq_iff]
      simp only [List.length_cons, List.zip_cons_cons, List.all_cons, Bool.and_eq_true, beq_iff_eq,
        Nat.add_right_cancel_iff]
      tauto

end RayTfm.Data
