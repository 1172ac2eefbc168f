import RayTfm.Logical.Plan

/-! # Pushing limits down

The model of `LimitPushdownRule` (`rules/limit_pushdown.py`).  A limit over a limit becomes one
limit, a limit over a union is copied into the branches, and any other limit sinks below the
operators that keep the number of rows; the operator where it stops gets a per-block limit.

The rule keeps the rows of a plan without per-block limits (`rows_limitPushdownRule`).  A per-block
limit that the rule sets goes unnoticed, since a `Limit` that is not larger stays right above it:
that is the invariant `Covered`, and under it the rows do not depend on the layout of the blocks
(`rowsUnder_eq_rows`).  Plans as they are built have no per-block limits at all (`BuiltPlan`), so
the rule may be applied to them any number of times (`limitPushdownRule_keeps_rows`). -/

namespace RayTfm.Logical

variable {V S R : Type}

/-! ### The rule -/

/-- An operator that the limit has crossed, without its input. -/
inductive CrossedOp (V : Type) where
  | map (op : MapOp V) (perBlockLimit : Option ℕ)
  | download (uriColumnNames outputBytesColumnNames : List String)

/-- Whether `_push_limit_down` goes past a map operator. -/
def MapOp.crossedByLimit (op : MapOp V) (limit : ℕ) : Bool :=
  !op.canModifyNumRows &&
    (match op with
      | .project exprs => isIdempotentProjection exprs
      | _ => true) &&
    (match op.minRowsPerBundledInput with
      | some minRows => minRows ≤ limit
      | none => true)

/-- The loop of `_push_limit_down`: the operators crossed, and the one where the limit stops. -/
def numRowsPreservingOps (limit : ℕ) : Plan V S → List (CrossedOp V) × Plan V S
  | .map op perBlockLimit input =>
    if op.crossedByLimit limit then
      let crossed := numRowsPreservingOps limit input
      (.map op perBlockLimit :: crossed.1, crossed.2)
    else ([], .map op perBlockLimit input)
  | .download uris outputs input =>
    let crossed := numRowsPreservingOps limit input
    (.download uris outputs :: crossed.1, crossed.2)
  | p => ([], p)

/-- `_apply_per_block_limit_if_supported`. -/
def applyPerBlockLimitIfSupported (limit : ℕ) : Plan V S → Plan V S
  | .read datasource _ => .read datasource (some limit)
  | .map op _ input => .map op (some limit) input
  | p => p

/-- `_recreate_operator_with_new_input`. -/
def recreateOperatorWithNewInput : CrossedOp V → Plan V S → Plan V S
  | .map op perBlockLimit, newInput => .map op perBlockLimit newInput
  | .download uris outputs, newInput => .download uris outputs newInput

/-- `_push_limit_down`, on a limit and its input. -/
def pushLimitDown (limit : ℕ) (p : Plan V S) : Plan V S :=
  let crossed := numRowsPreservingOps limit p
  if crossed.1.isEmpty then .limit limit p
  else
    crossed.1.foldr recreateOperatorWithNewInput
      (.limit limit (applyPerBlockLimitIfSupported limit crossed.2))

/-- `_branch_has_limit`. -/
def branchHasLimit (limit : ℕ) : Plan V S → Bool
  | .map op _ input => !op.canModifyNumRows && branchHasLimit limit input
  | .download _ _ input => branchHasLimit limit input
  | .limit n _ => n = limit
  | _ => false

mutual

/-- A limit on a branch of a union: `_push_limit_into_union` over a union, else
`_push_limit_down`. -/
def pushLimitOnBranch (limit : ℕ) : Plan V S → Plan V S
  | .union inputs => .limit limit (.union (pushLimitOnBranches limit inputs))
  | p => pushLimitDown limit p

/-- The loop of `_push_limit_into_union`. -/
def pushLimitOnBranches (limit : ℕ) : List (Plan V S) → List (Plan V S)
  | [] => []
  | child :: children =>
    (if branchHasLimit limit child then child else pushLimitOnBranch limit child) ::
      pushLimitOnBranches limit children

end

/-- The transformation of one operator. -/
def limitTransform : Plan V S → Plan V S
  | .limit n (.limit m input) => .limit (min n m) input
  | .limit n (.union inputs) => .limit n (.union (pushLimitOnBranches n inputs))
  | .limit n p => pushLimitDown n p
  | p => p

/-- `LimitPushdownRule.apply`. -/
def limitPushdownRule (p : Plan V S) : Plan V S := p.applyTransform limitTransform

/-! ### The rows without per-block limits -/

section rows
variable {M : Meaning V S R}
variable {n : ℕ}

theorem MapOp.rows_take {op : MapOp V} (h : op.crossedByLimit n = true) (l : List R) :
    (op.rows M l).take n = op.rows M (l.take n) := by
  cases op with
  | project exprs =>
    have hidem : isIdempotentProjection exprs = true := by
      simpa [crossedByLimit, canModifyNumRows, minRowsPerBundledInput] using h
    rw [MapOp.rows, MapOp.rows, if_pos hidem, if_pos hidem, List.map_take]
  | mapBatches fn canModifyNumRows minRows =>
    have hkeeps : canModifyNumRows = false := by
      simp only [crossedByLimit, MapOp.canModifyNumRows, Bool.and_eq_true, Bool.not_eq_true'] at h
      exact h.1.1
    rw [MapOp.rows, MapOp.rows, hkeeps, if_neg Bool.false_ne_true, if_neg Bool.false_ne_true,
      List.map_take]
  | mapRows fn => rw [MapOp.rows, MapOp.rows, List.map_take]
  | streamingRepartition target strict => rfl
  | filter predicateExpr => exact absurd h (by simp [crossedByLimit, canModifyNumRows])
  | filterFn fn => exact absurd h (by simp [crossedByLimit, canModifyNumRows])
  | flatMap fn => exact absurd h (by simp [crossedByLimit, canModifyNumRows])

theorem rows_applyPerBlockLimit (p : Plan V S) :
    (applyPerBlockLimitIfSupported n p).rows M = p.rows M := by
  cases p <;> rfl

theorem rows_foldr_recreate (p : Plan V S) :
    ((numRowsPreservingOps n p).1.foldr recreateOperatorWithNewInput
      (.limit n (applyPerBlockLimitIfSupported n (numRowsPreservingOps n p).2))).rows M =
      (p.rows M).take n := by
  induction p with
  | map op perBlockLimit input ih =>
    rw [numRowsPreservingOps]
    split_ifs with hcross
    · rw [List.foldr_cons, recreateOperatorWithNewInput, Plan.rows, ih, Plan.rows, op.rows_take hcross]
    · exact congrArg (List.take n) (rows_applyPerBlockLimit _)
  | download uris outputs input ih =>
    rw [numRowsPreservingOps, List.foldr_cons, recreateOperatorWithNewInput, Plan.rows, ih,
      Plan.rows, List.map_take]
  | read datasource perBlockLimit => rfl
  | limit m input _ => rfl
  | allToAll op input _ => rfl
  | union inputs _ => rfl
  | join spec left right _ _ => rfl

theorem rows_pushLimitDown (p : Plan V S) : (pushLimitDown n p).rows M = (p.rows M).take n := by
  simp only [pushLimitDown]
  split_ifs with hempty
  · rfl
  · exact rows_foldr_recreate p

/-- The first rows of two lists that are put together are found in the first rows of each. -/
theorem take_append_congr {a a' b b' : List R} (ha : a' = a ∨ a' = a.take n)
    (hb : b'.take n = b.take n) : (a' ++ b').take n = (a ++ b).take n := by
  have hrest : b'.take (n - a.length) = b.take (n - a.length) := by
    rw [← min_eq_left (Nat.sub_le n a.length), ← List.take_take, hb, List.take_take]
  obtain rfl | rfl := ha
  · rw [List.take_append, List.take_append, hrest]
  · rw [List.take_append, List.take_append, List.take_take, min_self, List.length_take, ← hrest]
    congr 2
    omega

theorem rowsAll_pushLimitOnBranches_of {ps : List (Plan V S)}
    (h : ∀ p ∈ ps, (pushLimitOnBranch n p).rows M = (p.rows M).take n) :
    (Plan.rowsAll M (pushLimitOnBranches n ps)).take n = (Plan.rowsAll M ps).take n := by
  induction ps with
  | nil => rfl
  | cons p ps ih =>
    rw [List.forall_mem_cons] at h
    rw [pushLimitOnBranches, Plan.rowsAll, Plan.rowsAll]
    apply take_append_congr _ (ih h.2)
    split_ifs with hlimit
    · exact .inl rfl
    · exact .inr h.1

theorem rows_pushLimitOnBranch (p : Plan V S) :
    (pushLimitOnBranch n p).rows M = (p.rows M).take n := by
  induction p with
  | union inputs ih => exact rowsAll_pushLimitOnBranches_of ih
  | read datasource perBlockLimit => simp only [pushLimitOnBranch, rows_pushLimitDown]
  | map op perBlockLimit input _ => simp only [pushLimitOnBranch, rows_pushLimitDown]
  | limit m input _ => simp only [pushLimitOnBranch, rows_pushLimitDown]
  | download uris outputs input _ => simp only [pushLimitOnBranch, rows_pushLimitDown]
  | allToAll op input _ => simp only [pushLimitOnBranch, rows_pushLimitDown]
  | join spec left right _ _ => simp only [pushLimitOnBranch, rows_pushLimitDown]

theorem rows_limitTransform (p : Plan V S) : (limitTransform p).rows M = p.rows M := by
  unfold limitTransform
  split
  · exact (List.take_take).symm
  · exact rowsAll_pushLimitOnBranches_of (fun p _ => rows_pushLimitOnBranch p)
  · exact rows_pushLimitDown _
  · rfl

/-- The rule keeps the rows of any plan, as long as per-block limits are left out. -/
theorem rows_limitPushdownRule (p : Plan V S) : (limitPushdownRule p).rows M = p.rows M :=
  Plan.rows_applyTransform rows_limitTransform p

end rows

/-! ### Per-block limits under a limit -/

namespace Plan

mutual

/-- Every per-block limit is right under a `Limit` that is not larger, at an operator where that
limit stops.  `bound` is the limit right above the plan, if there is one. -/
def Covered (bound : Option ℕ) : Plan V S → Prop
  | .read _ perBlockLimit => ∀ m ∈ perBlockLimit, ∃ n ∈ bound, n ≤ m
  | .map op perBlockLimit input =>
    (∀ m ∈ perBlockLimit, ∃ n ∈ bound, n ≤ m ∧ op.crossedByLimit n = false) ∧ input.Covered none
  | .limit n input => input.Covered (some n)
  | .download _ _ input => input.Covered none
  | .allToAll _ input => input.Covered none
  | .union inputs => CoveredAll inputs
  | .join _ left right => left.Covered none ∧ right.Covered none

def CoveredAll : List (Plan V S) → Prop
  | [] => True
  | p :: ps => p.Covered none ∧ CoveredAll ps

end

theorem coveredAll_iff {ps : List (Plan V S)} : CoveredAll ps ↔ ∀ p ∈ ps, p.Covered none := by
  induction ps with
  | nil => simp [CoveredAll]
  | cons p ps ih => rw [CoveredAll, ih, List.forall_mem_cons]

end Plan

variable {n : ℕ}

theorem MapOp.crossedByLimit_mono {op : MapOp V} {k : ℕ} (hkn : k ≤ n)
    (h : op.crossedByLimit n = false) : op.crossedByLimit k = false := by
  rw [← Bool.not_eq_true] at h ⊢
  intro hk
  apply h
  simp only [crossedByLimit, Bool.and_eq_true] at hk ⊢
  obtain ⟨hkeeps, hk⟩ := hk
  refine ⟨hkeeps, ?_⟩
  cases hmin : op.minRowsPerBundledInput with
  | none => rfl
  | some minRows =>
    rw [hmin] at hk
    simp only [decide_eq_true_eq] at hk ⊢
    omega

variable {bound : Option ℕ} {p : Plan V S}

/-- A plan stays covered under a limit that is put on top of it, or that gets smaller. -/
theorem Plan.Covered.mono (h : p.Covered bound)
    (hbound : ∀ m ∈ bound, n ≤ m) : p.Covered (some n) := by
  cases p with
  | read datasource perBlockLimit =>
    rw [Covered] at h ⊢
    intro m hm
    obtain ⟨k, hk, hkm⟩ := h m hm
    exact ⟨n, rfl, (hbound k hk).trans hkm⟩
  | map op perBlockLimit input =>
    rw [Covered] at h ⊢
    refine ⟨fun m hm => ?_, h.2⟩
    obtain ⟨k, hk, hkm, hstop⟩ := h.1 m hm
    exact ⟨n, rfl, (hbound k hk).trans hkm, op.crossedByLimit_mono (hbound k hk) hstop⟩
  | limit m input => exact h
  | download uris outputs input => exact h
  | allToAll op input => exact h
  | union inputs => exact h
  | join spec left right => exact h

theorem Plan.Covered.under (h : p.Covered none) : p.Covered (some n) :=
  h.mono (fun _ hm => by cases hm)

/-- Equal rows, or equal first rows under a limit. -/
def AgreeUnder : Option ℕ → List R → List R → Prop
  | none, l, l' => l = l'
  | some n, l, l' => l.take n = l'.take n

theorem AgreeUnder.of_eq {l l' : List R} (h : l = l') : AgreeUnder bound l l' := by
  subst h
  cases bound <;> rfl

variable {perBlockLimit : Option ℕ}

theorem Layout.agreeUnder_limitTasks (L : Layout V S R)
    (h : ∀ m ∈ perBlockLimit, ∃ n ∈ bound, n ≤ m) (l : List R) :
    AgreeUnder bound (L.limitTasks p perBlockLimit l) l := by
  cases bound with
  | none =>
    cases perBlockLimit with
    | none => rfl
    | some m =>
      obtain ⟨n, hn, -⟩ := h m rfl
      cases hn
  | some n =>
    apply L.take_limitTasks
    intro m hm
    obtain ⟨k, hk, hkm⟩ := h m hm
    cases hk
    exact hkm

theorem MapOp.plannedLimit_mem {op : MapOp V} {m : ℕ}
    (h : m ∈ op.plannedLimit perBlockLimit) : m ∈ perBlockLimit := by
  cases op <;> first | exact h | cases h

/-- Where the per-block limits are covered, no row is lost to them that the limit above lets
through. -/
theorem Plan.rowsUnder_agreeUnder {M : Meaning V S R} (L : Layout V S R)
    (h : p.Covered bound) : AgreeUnder bound (p.rowsUnder M L) (p.rows M) := by
  induction p generalizing bound with
  | read datasource perBlockLimit =>
    rw [Covered] at h
    rw [rowsUnder, rows]
    exact L.agreeUnder_limitTasks h _
  | map op perBlockLimit input ih =>
    rw [Covered] at h
    have hinput : input.rowsUnder M L = input.rows M := ih h.2
    rw [rowsUnder, rows, hinput]
    apply L.agreeUnder_limitTasks
    intro m hm
    obtain ⟨n, hn, hnm, -⟩ := h.1 m (MapOp.plannedLimit_mem hm)
    exact ⟨n, hn, hnm⟩
  | limit n input ih =>
    rw [Covered] at h
    have hinput : (input.rowsUnder M L).take n = (input.rows M).take n := ih h
    exact .of_eq hinput
  | download uris outputs input ih =>
    rw [Covered] at h
    have hinput : input.rowsUnder M L = input.rows M := ih h
    exact .of_eq (congrArg (List.map (M.downloadRow uris outputs)) hinput)
  | allToAll op input ih =>
    rw [Covered] at h
    have hinput : input.rowsUnder M L = input.rows M := ih h
    exact .of_eq (congrArg (M.allToAll op) hinput)
  | union inputs ih =>
    rw [Covered, coveredAll_iff] at h
    apply AgreeUnder.of_eq
    rw [rowsUnder, rows, rowsUnderAll_eq, rowsAll_eq]
    apply List.flatMap_congr
    intro input hinput
    have heq : input.rowsUnder M L = input.rows M := ih input hinput (h input hinput)
    exact heq
  | join spec left right ihl ihr =>
    rw [Covered] at h
    have hleft : left.rowsUnder M L = left.rows M := ihl h.1
    have hright : right.rowsUnder M L = right.rows M := ihr h.2
    apply AgreeUnder.of_eq
    rw [rowsUnder, rows, hleft, hright]

theorem Plan.rowsUnder_eq_rows {M : Meaning V S R} (L : Layout V S R) (h : p.Covered none) :
    p.rowsUnder M L = p.rows M :=
  p.rowsUnder_agreeUnder L h

/-! ### The rule covers its per-block limits -/

theorem covered_applyPerBlockLimit (h : p.Covered (some n))
    (hstop : (numRowsPreservingOps n p).1 = []) : (applyPerBlockLimitIfSupported n p).Covered
      (some n) := by
  cases p with
  | read datasource perBlockLimit =>
    rw [applyPerBlockLimitIfSupported, Plan.Covered]
    intro m hm
    cases hm
    exact ⟨n, rfl, le_refl n⟩
  | map op perBlockLimit input =>
    rw [Plan.Covered] at h
    rw [applyPerBlockLimitIfSupported, Plan.Covered]
    refine ⟨fun m hm => ?_, h.2⟩
    cases hm
    refine ⟨n, rfl, le_refl n, ?_⟩
    by_contra hcross
    rw [Bool.not_eq_false] at hcross
    rw [numRowsPreservingOps, if_pos hcross] at hstop
    cases hstop
  | limit m input => exact h
  | download uris outputs input => exact h
  | allToAll op input => exact h
  | union inputs => exact h
  | join spec left right => exact h

theorem covered_foldr_recreate (h : p.Covered (some n)) :
    ((numRowsPreservingOps n p).1.foldr recreateOperatorWithNewInput
      (.limit n (applyPerBlockLimitIfSupported n (numRowsPreservingOps n p).2))).Covered bound := by
  induction p generalizing bound with
  | map op perBlockLimit input ih =>
    by_cases hcross : op.crossedByLimit n = true
    · rw [Plan.Covered] at h
      rw [numRowsPreservingOps, if_pos hcross, List.foldr_cons, recreateOperatorWithNewInput,
        Plan.Covered]
      refine ⟨fun m hm => ?_, ih h.2.under⟩
      -- an operator that the limit crosses has no per-block limit yet
      obtain ⟨k, hk, -, hstop⟩ := h.1 m hm
      cases hk
      rw [hcross] at hstop
      cases hstop
    · have hstop : numRowsPreservingOps n (.map op perBlockLimit input) =
        ([], .map op perBlockLimit input) := by
        rw [numRowsPreservingOps, if_neg hcross]
      have hcov := covered_applyPerBlockLimit h (congrArg Prod.fst hstop)
      rw [hstop]
      exact hcov
  | download uris outputs input ih =>
    rw [Plan.Covered] at h
    rw [numRowsPreservingOps, List.foldr_cons, recreateOperatorWithNewInput, Plan.Covered]
    exact ih h.under
  | read datasource perBlockLimit => exact covered_applyPerBlockLimit h rfl
  | limit m input _ => exact covered_applyPerBlockLimit h rfl
  | allToAll op input _ => exact covered_applyPerBlockLimit h rfl
  | union inputs _ => exact covered_applyPerBlockLimit h rfl
  | join spec left right _ _ => exact covered_applyPerBlockLimit h rfl

theorem covered_pushLimitDown (h : p.Covered (some n)) :
    (pushLimitDown n p).Covered bound := by
  simp only [pushLimitDown]
  split_ifs with hempty
  · exact h
  · exact covered_foldr_recreate h

theorem coveredAll_pushLimitOnBranches_of {ps : List (Plan V S)} (hps : Plan.CoveredAll ps)
    (h : ∀ p ∈ ps, p.Covered none → (pushLimitOnBranch n p).Covered none) :
    Plan.CoveredAll (pushLimitOnBranches n ps) := by
  induction ps with
  | nil => trivial
  | cons p ps ih =>
    rw [List.forall_mem_cons] at h
    rw [pushLimitOnBranches, Plan.CoveredAll]
    refine ⟨?_, ih hps.2 h.2⟩
    split_ifs with hlimit
    · exact hps.1
    · exact h.1 hps.1

theorem covered_pushLimitOnBranch (h : p.Covered none) :
    (pushLimitOnBranch n p).Covered none := by
  induction p with
  | union inputs ih => exact coveredAll_pushLimitOnBranches_of h (fun input hinput hcov => ih input hinput hcov)
  | read datasource perBlockLimit => simp only [pushLimitOnBranch, covered_pushLimitDown h.under]
  | map op perBlockLimit input _ => simp only [pushLimitOnBranch, covered_pushLimitDown h.under]
  | limit m input _ => simp only [pushLimitOnBranch, covered_pushLimitDown h.under]
  | download uris outputs input _ => simp only [pushLimitOnBranch, covered_pushLimitDown h.under]
  | allToAll op input _ => simp only [pushLimitOnBranch, covered_pushLimitDown h.under]
  | join spec left right _ _ => simp only [pushLimitOnBranch, covered_pushLimitDown h.under]

theorem covered_limitTransform (h : p.Covered bound) :
    (limitTransform p).Covered bound := by
  unfold limitTransform
  split
  · rw [Plan.Covered, Plan.Covered] at h
    rw [Plan.Covered]
    exact h.mono (fun m hm => by cases hm; exact min_le_right _ _)
  · exact coveredAll_pushLimitOnBranches_of h (fun p _ hcov => covered_pushLimitOnBranch hcov)
  · exact covered_pushLimitDown h
  · exact h

theorem covered_limitPushdownRule (h : p.Covered bound) :
    (limitPushdownRule p).Covered bound := by
  unfold limitPushdownRule
  induction p generalizing bound with
  | read datasource perBlockLimit => exact covered_limitTransform h
  | map op perBlockLimit input ih => exact covered_limitTransform ⟨h.1, ih h.2⟩
  | limit n input ih => exact covered_limitTransform (ih h)
  | download uris outputs input ih => exact covered_limitTransform (ih h)
  | allToAll op input ih => exact covered_limitTransform (ih h)
  | union inputs ih =>
    rw [Plan.Covered, Plan.coveredAll_iff] at h
    apply covered_limitTransform
    rw [Plan.Covered, Plan.coveredAll_iff, Plan.applyTransformAll_eq]
    intro q hq
    obtain ⟨input, hinput, rfl⟩ := List.mem_map.mp hq
    exact ih input hinput (h input hinput)
  | join spec left right ihl ihr => exact covered_limitTransform ⟨ihl h.1, ihr h.2⟩

/-! ### Built plans -/

namespace Plan

mutual

/-- The plan sets no per-block limit. -/
def noPerBlockLimit : Plan V S → Bool
  | .read _ perBlockLimit => perBlockLimit.isNone
  | .map _ perBlockLimit input => perBlockLimit.isNone && input.noPerBlockLimit
  | .limit _ input => input.noPerBlockLimit
  | .download _ _ input => input.noPerBlockLimit
  | .allToAll _ input => input.noPerBlockLimit
  | .union inputs => noPerBlockLimits inputs
  | .join _ left right => left.noPerBlockLimit && right.noPerBlockLimit

def noPerBlockLimits : List (Plan V S) → Bool
  | [] => true
  | p :: ps => p.noPerBlockLimit && noPerBlockLimits ps

end

end Plan

/-- A plan as the operations on a `Dataset` build it: only the optimizer sets per-block limits. -/
structure BuiltPlan (V S : Type) where
  plan : Plan V S
  noPerBlockLimit : plan.noPerBlockLimit = true

theorem Plan.covered_of_noPerBlockLimit (h : p.noPerBlockLimit = true) :
    p.Covered bound := by
  induction p generalizing bound with
  | read datasource perBlockLimit =>
    rw [noPerBlockLimit, Option.isNone_iff_eq_none] at h
    rw [Covered, h]
    exact nofun
  | map op perBlockLimit input ih =>
    rw [noPerBlockLimit, Bool.and_eq_true, Option.isNone_iff_eq_none] at h
    rw [Covered, h.1]
    exact ⟨nofun, ih h.2⟩
  | limit n input ih => exact ih h
  | download uris outputs input ih => exact ih h
  | allToAll op input ih => exact ih h
  | union inputs ih =>
    rw [Covered]
    rw [noPerBlockLimit] at h
    induction inputs with
    | nil => trivial
    | cons p ps ihps =>
      rw [List.forall_mem_cons] at ih
      rw [noPerBlockLimits, Bool.and_eq_true] at h
      exact ⟨ih.1 h.1, ihps ih.2 h.2⟩
  | join spec left right ihl ihr =>
    rw [noPerBlockLimit, Bool.and_eq_true] at h
    exact ⟨ihl h.1, ihr h.2⟩

theorem covered_iterate_limitPushdownRule (p : BuiltPlan V S) (rounds : ℕ) :
    (limitPushdownRule^[rounds] p.plan).Covered none := by
  induction rounds with
  | zero => exact Plan.covered_of_noPerBlockLimit p.noPerBlockLimit
  | succ rounds ih =>
    rw [Function.iterate_succ_apply']
    exact covered_limitPushdownRule ih

theorem rows_iterate_limitPushdownRule (M : Meaning V S R) (p : Plan V S) (rounds : ℕ) :
    (limitPushdownRule^[rounds] p).rows M = p.rows M := by
  induction rounds with
  | zero => rfl
  | succ rounds ih => rw [Function.iterate_succ_apply', rows_limitPushdownRule, ih]

/-- The rule keeps the rows of every plan, for every data and every layout of the blocks, also when
it is applied again to its own result. -/
theorem limitPushdownRule_keeps_rows (M : Meaning V S R) (L L' : Layout V S R) (p : BuiltPlan V S)
    (rounds : ℕ) :
    (limitPushdownRule^[rounds] p.plan).rowsUnder M L' = p.plan.rowsUnder M L := by
  have hbefore : p.plan.Covered none := covered_iterate_limitPushdownRule p 0
  rw [Plan.rowsUnder_eq_rows L' (covered_iterate_limitPushdownRule p rounds),
    rows_iterate_limitPushdownRule, Plan.rowsUnder_eq_rows L hbefore]

example (source : S) :
    limitPushdownRule (.limit 3
      (.union [.map (.mapRows "f") none (.map (.flatMap "g") none (.read source none)),
      .limit 3 (.read source none)]) : Plan V S) =
    .limit 3 (.union [.map (.mapRows "f") none
      (.limit 3 (.map (.flatMap "g") (some 3) (.read source none))),
      .limit 3 (.read source none)]) := rfl

end RayTfm.Logical
