import RayTfm.Py

/-! # Checks of the raylet

`RAY_CHECK` ends the process when its condition does not hold; a function that contains one returns
in `Except RayError`, with the text that the check prints after the condition. -/

namespace RayTfm.Raylet

/-- A failed `RAY_CHECK`. -/
inductive RayError where
  | checkFailed (msg : String)
deriving DecidableEq, Repr

/-- `RAY_CHECK`. -/
def rayCheck (condition : Bool) (msg : String) : Except RayError Unit :=
  if condition then .ok () else .error (.checkFailed msg)

@[simp] theorem rayCheck_true (msg : String) : rayCheck true msg = .ok () := rfl

theorem rayCheck_eq_ok {condition : Bool} {msg : String} {u : Unit} :
    rayCheck condition msg = .ok u ↔ condition = true := by
  cases condition
  · exact ⟨nofun, nofun⟩
  · exact ⟨fun _ => rfl, fun _ => rfl⟩

/-- What a `find` that is checked to have found something gives. -/
def rayFind {A : Type} (found : Option A) (msg : String) : Except RayError A :=
  found.elim (.error (.checkFailed msg)) .ok

@[simp] theorem rayFind_some {A : Type} (a : A) (msg : String) : rayFind (some a) msg = .ok a := rfl

end RayTfm.Raylet
