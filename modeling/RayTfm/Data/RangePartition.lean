import RayTfm.Data.SortPartition

/-! # Where boundaries cut sorted blocks

A sorted block is ordered by `rowKey`: the columns in their directions, NaN and then `None` last.
The position of a boundary in a sorted block counts the rows that are `before` the boundary, and
which rows these are does not depend on the block (`findPartitionIndex_eq_countP`).  The samples are
ordered by `sampleKey`: nulls are last in ascending columns and first in descending ones, and what
follows a null does not matter (`exists_sortSamples`).  A later sample cuts behind an earlier one,
unless the earlier one is `None` in a descending column that is not of numbers (`before_mono`). -/

namespace RayTfm.Data

variable {R V F : Type} [LinearOrder V]

theorem cons_le_cons_iff {α : Type} [LinearOrder α] {a b : α} {l m : List α} :
    a :: l ≤ b :: m ↔ a < b ∨ a = b ∧ l ≤ m := by
  rw [le_iff_lt_or_eq, List.cons_lt_cons_iff, le_iff_lt_or_eq, List.cons.injEq]
  tauto

/-! ### Orders of rows and of samples -/

/-- A value in the direction of its column. -/
def directed (desc : Bool) (v : V) : V ⊕ₗ Vᵒᵈ :=
  if desc then Sum.inrₗ (OrderDual.toDual v) else Sum.inlₗ v

variable {desc : Bool}

theorem directed_lt {v w : V} : directed desc v < directed desc w ↔ if desc then w < v else v < w := by
  cases desc with
  | false => exact Sum.Lex.inl_lt_inl_iff
  | true => exact Sum.Lex.inr_lt_inr_iff.trans OrderDual.toDual_lt_toDual

omit [LinearOrder V] in
theorem directed_injective (desc : Bool) : Function.Injective (directed (V := V) desc) := by
  intro v w h
  cases desc with
  | false => exact Sum.inl_injective (toLex.injective h)
  | true => exact OrderDual.toDual.injective (Sum.inr_injective (toLex.injective h))

/-- A cell in a sorted block: nulls are last, whatever the direction. -/
def sortCell (desc : Bool) : PyValue V → WithTop (WithTop (V ⊕ₗ Vᵒᵈ))
  | .val v => ((directed desc v : WithTop (V ⊕ₗ Vᵒᵈ)) : WithTop (WithTop (V ⊕ₗ Vᵒᵈ)))
  | .nan => ((⊤ : WithTop (V ⊕ₗ Vᵒᵈ)) : WithTop (WithTop (V ⊕ₗ Vᵒᵈ)))
  | .none => ⊤

theorem sortCell_val_lt {v w : V} :
    sortCell desc (.val v) < sortCell desc (.val w) ↔ directed desc v < directed desc w := by
  unfold sortCell
  rw [WithTop.coe_lt_coe, WithTop.coe_lt_coe]

omit [LinearOrder V] in
theorem sortCell_injective (desc : Bool) : Function.Injective (sortCell (V := V) desc) := by
  intro a b h
  cases a <;> cases b <;>
    simp only [sortCell, WithTop.coe_inj, WithTop.top_ne_coe, WithTop.coe_ne_top] at h
  all_goals first | rfl | exact h.elim | rw [directed_injective desc h]

theorem sortCell_val_le_of_null {a : PyValue V} (v : V) (ha : a.isNull = true) :
    sortCell desc (.val v) < sortCell desc a := by
  cases a with
  | none => exact WithTop.coe_lt_top _
  | nan => exact WithTop.coe_lt_coe.mpr (WithTop.coe_lt_top _)
  | val w => cases ha

namespace SortColumns
variable (C : SortColumns R V F)

/-- The key of a row in a sorted block. -/
def rowKey (cols : List (String × Bool)) (row : R) : List (WithTop (WithTop (V ⊕ₗ Vᵒᵈ))) :=
  cols.map (fun c => sortCell c.2 (C.cell row c.1))

/-- The block is sorted, with the nulls last. -/
def Sorted (cols : List (String × Bool)) (block : List R) : Prop :=
  block.Pairwise (fun r r' => C.rowKey cols r ≤ C.rowKey cols r')

/-- The key of a sample, up to its first null. -/
def sampleKey : List (String × Bool) → R → List (WithBot (WithTop (V ⊕ₗ Vᵒᵈ)))
  | [], _ => []
  | (col, desc) :: cols, row =>
    match C.cell row col with
    | .val v => ((directed desc v : WithTop (V ⊕ₗ Vᵒᵈ)) : WithBot (WithTop (V ⊕ₗ Vᵒᵈ))) ::
        SortColumns.sampleKey cols row
    | _ => [if desc then ⊥ else ⊤]

/-- The cells of a row that make a boundary. -/
def cells (cols : List (String × Bool)) (row : R) : List (PyValue V) :=
  cols.map (fun c => C.cell row c.1)

/-- Is a row before a boundary?  If it is equal to the boundary in the columns of the boundary, as
`last` says.  Before a null are the values of the column, but no rows at all before NaN in a
descending one. -/
def before (last : Bool) : List (String × Bool) → List (PyValue V) → R → Bool
  | (col, desc) :: cols, .val v :: desired, row =>
    match C.cell row col with
    | .val w => if w = v then SortColumns.before last cols desired row
        else decide (directed desc w < directed desc v)
    | _ => false
  | (col, desc) :: _, _ :: _, row =>
    match C.cell row col with
    | .val _ => !(desc && C.isNumber col)
    | _ => false
  | _, _, _ => last

variable {C}
variable {last : Bool} {cols : List (String × Bool)} {desired : List (PyValue V)}

theorem before_of_le {r r' : R}
    (hle : C.rowKey cols r ≤ C.rowKey cols r') (h : C.before last cols desired r' = true) :
    C.before last cols desired r = true := by
  induction cols generalizing desired with
  | nil =>
    exact h
  | cons c cols ih =>
    obtain ⟨col, desc⟩ := c
    cases desired with
    | nil =>
      exact h
    | cons b desired =>
      have hle : sortCell desc (C.cell r col) < sortCell desc (C.cell r' col) ∨
          sortCell desc (C.cell r col) = sortCell desc (C.cell r' col) ∧
          C.rowKey cols r ≤ C.rowKey cols r' :=
        cons_le_cons_iff.mp hle
      -- The later row has a value in the column, so the earlier one has.
      have hval : ∃ w', C.cell r' col = .val w' := by
        cases hr' : C.cell r' col with
        | val w' => exact ⟨w', rfl⟩
        | none => cases b <;> simp [before, hr'] at h
        | nan => cases b <;> simp [before, hr'] at h
      obtain ⟨w', hr'⟩ := hval
      have hval : ∃ w, C.cell r col = .val w := by
        cases hr : C.cell r col with
        | val w => exact ⟨w, rfl⟩
        | none =>
          have hlt : sortCell desc (.val w') < sortCell desc .none := sortCell_val_le_of_null w' rfl
          rw [hr, hr'] at hle
          obtain hlt' | ⟨heq, -⟩ := hle
          · exact absurd hlt' hlt.not_gt
          · exact absurd heq hlt.ne'
        | nan =>
          have hlt : sortCell desc (.val w') < sortCell desc .nan := sortCell_val_le_of_null w' rfl
          rw [hr, hr'] at hle
          obtain hlt' | ⟨heq, -⟩ := hle
          · exact absurd hlt' hlt.not_gt
          · exact absurd heq hlt.ne'
      obtain ⟨w, hr⟩ := hval
      rw [hr, hr', sortCell_val_lt] at hle
      cases b with
      | none =>
        simp only [before, hr, hr'] at h ⊢
        exact h
      | nan =>
        simp only [before, hr, hr'] at h ⊢
        exact h
      | val v =>
        simp only [before, hr, hr'] at h ⊢
        obtain hlt | ⟨heq, hle⟩ := hle
        · by_cases hw' : w' = v
          · subst hw'
            have hne : w ≠ w' := fun hw => hlt.ne (congrArg _ hw)
            rw [if_neg hne]
            exact decide_eq_true hlt
          · rw [if_neg hw', decide_eq_true_eq] at h
            have hlt := hlt.trans h
            have hne : w ≠ v := fun hw => hlt.ne (congrArg _ hw)
            rw [if_neg hne]
            exact decide_eq_true hlt
        · obtain rfl : w = w' := PyValue.val.inj (sortCell_injective desc heq)
          by_cases hw : w = v
          · rw [if_pos hw] at h ⊢
            exact ih hle h
          · rw [if_neg hw] at h ⊢
            exact h

theorem front_before {block : List R} (h : C.Sorted cols block)
    (desired : List (PyValue V)) : Front (C.before last cols desired) block :=
  h.imp (fun hle hr' => before_of_le hle hr')

/-! ### Boundaries in the order of the samples -/

/-- The rows agree on the first columns, and then in a descending column that is not of numbers the
sample `x` is `None`, which is first there, and `y` and `r` are not, where `r` is not before `y`. -/
def NoneClash (C : SortColumns R V F) (last : Bool) : List (String × Bool) → R → R → R → Prop
  | [], _, _, _ => False
  | (col, desc) :: cols, x, y, r =>
    (desc = true ∧ C.isNumber col = false ∧ C.cell x col = .none ∧ (∃ v, C.cell y col = .val v) ∧
      (∃ w, C.cell r col = .val w) ∧
      C.before last ((col, desc) :: cols) (C.cells ((col, desc) :: cols) y) r = false) ∨
    ((∃ v, C.cell x col = .val v ∧ C.cell y col = .val v ∧ C.cell r col = .val v) ∧
      SortColumns.NoneClash C last cols x y r)

variable {row : R} {col : String}

omit [LinearOrder V] in
theorem isNumber_eq_false_of_none (h : (C.cell row col).isNull = true)
    (hnumber : C.isNumber col = false) : C.cell row col = .none := by
  cases hcell : C.cell row col with
  | none => rfl
  | nan =>
    rw [C.isNumber_of_nan row col hcell] at hnumber
    cases hnumber
  | val v =>
    rw [hcell] at h
    cases h

variable {desc : Bool}

omit [LinearOrder V] in
theorem sampleKey_val {v : V}
    (h : C.cell row col = .val v) : C.sampleKey ((col, desc) :: cols) row =
      ((directed desc v : WithTop (V ⊕ₗ Vᵒᵈ)) : WithBot (WithTop (V ⊕ₗ Vᵒᵈ))) ::
        C.sampleKey cols row := by
  simp only [sampleKey, h]

omit [LinearOrder V] in
theorem sampleKey_null
    (h : (C.cell row col).isNull = true) : C.sampleKey ((col, desc) :: cols) row = [if desc then ⊥
      else ⊤] := by
  cases hcell : C.cell row col with
  | none => simp only [sampleKey, hcell]
  | nan => simp only [sampleKey, hcell]
  | val v =>
    rw [hcell] at h
    cases h

theorem before_val
    {v w : V} (h : C.cell row col = .val w) : C.before last ((col, desc) :: cols)
    (.val v :: desired) row =
      if w = v then C.before last cols desired row else decide (directed desc w < directed desc v) := by
  simp only [before, h]

theorem before_of_row_null {b : PyValue V} (h : (C.cell row col).isNull = true) :
    C.before last ((col, desc) :: cols) (b :: desired) row = false := by
  cases hcell : C.cell row col with
  | none => cases b <;> simp only [before, hcell]
  | nan => cases b <;> simp only [before, hcell]
  | val v =>
    rw [hcell] at h
    cases h

theorem before_null {b : PyValue V} {w : V} (hb : b.isNull = true) (h : C.cell row col = .val w) :
    C.before last ((col, desc) :: cols) (b :: desired) row = !(desc && C.isNumber col) := by
  cases b with
  | none => simp only [before, h]
  | nan => simp only [before, h]
  | val v => cases hb

omit [LinearOrder V] in
theorem isNull_cases (c : PyValue V) : c.isNull = true ∨ ∃ v, c = .val v := by
  cases c with
  | none => exact .inl rfl
  | nan => exact .inl rfl
  | val v => exact .inr ⟨v, rfl⟩

/-- A later sample cuts behind an earlier one, unless the earlier one has a `None` that clashes. -/
theorem before_mono {x y r : R}
    (hle : C.sampleKey cols x ≤ C.sampleKey cols y) (hx : C.before last cols (C.cells cols x) r = true)
    (hy : C.before last cols (C.cells cols y) r = false) : C.NoneClash last cols x y r := by
  induction cols with
  | nil =>
    rw [cells, List.map_nil] at hx hy
    rw [hx] at hy
    cases hy
  | cons c cols ih =>
    obtain ⟨col, desc⟩ := c
    change C.before last ((col, desc) :: cols) (C.cell x col :: C.cells cols x) r = true at hx
    have hy' : C.before last ((col, desc) :: cols) (C.cell y col :: C.cells cols y) r = false := hy
    -- A row before the first boundary has a value.
    obtain hr | ⟨w, hr⟩ := isNull_cases (C.cell r col)
    · rw [before_of_row_null hr] at hx
      cases hx
    obtain hxnull | ⟨v, hxval⟩ := isNull_cases (C.cell x col)
    · obtain hynull | ⟨u, hyval⟩ := isNull_cases (C.cell y col)
      · rw [before_null hxnull hr] at hx
        rw [before_null hynull hr, hx] at hy'
        cases hy'
      · rw [sampleKey_null hxnull, sampleKey_val hyval, cons_le_cons_iff] at hle
        rw [before_null hxnull hr] at hx
        cases desc with
        | false =>
          rw [if_neg Bool.false_ne_true] at hle
          obtain hlt | ⟨heq, -⟩ := hle
          · exact absurd hlt not_top_lt
          · cases heq
        | true =>
          rw [Bool.true_and, Bool.not_eq_true'] at hx
          exact .inl ⟨rfl, hx, isNumber_eq_false_of_none hxnull hx, ⟨u, hyval⟩, ⟨w, hr⟩, hy⟩
    · obtain hynull | ⟨u, hyval⟩ := isNull_cases (C.cell y col)
      · rw [sampleKey_null hynull, sampleKey_val hxval, cons_le_cons_iff] at hle
        rw [before_null hynull hr, Bool.not_eq_false'] at hy'
        rw [(Bool.and_eq_true_iff.mp hy').1, if_pos rfl] at hle
        obtain hlt | ⟨heq, -⟩ := hle
        · exact absurd hlt not_lt_bot
        · cases heq
      · rw [sampleKey_val hxval, sampleKey_val hyval, cons_le_cons_iff, WithBot.coe_lt_coe,
          WithTop.coe_lt_coe, WithBot.coe_inj, WithTop.coe_inj] at hle
        rw [hxval, before_val hr] at hx
        rw [hyval, before_val hr] at hy'
        obtain hlt | ⟨heq, hle⟩ := hle
        · -- The first boundary is smaller in this column.
          have hwu : directed desc w < directed desc u := by
            by_cases hwv : w = v
            · rw [hwv]
              exact hlt
            · rw [if_neg hwv, decide_eq_true_eq] at hx
              exact hx.trans hlt
          have hne : w ≠ u := fun heq => hwu.ne (congrArg _ heq)
          rw [if_neg hne, decide_eq_false_iff_not] at hy'
          exact absurd hwu hy'
        · obtain rfl := directed_injective desc heq
          by_cases hwv : w = v
          · rw [if_pos hwv] at hx hy'
            exact .inr ⟨⟨v, hxval, hyval, hwv ▸ hr⟩, ih hle hx hy'⟩
          · rw [if_neg hwv] at hx hy'
            rw [hx] at hy'
            cases hy'

theorem NoneClash.cuts {x y r : R} (h : C.NoneClash last cols x y r) :
    C.sampleKey cols x < C.sampleKey cols y ∧ C.before last cols (C.cells cols x) r = true ∧
      C.before last cols (C.cells cols y) r = false := by
  induction cols with
  | nil => exact h.elim
  | cons c cols ih =>
    obtain ⟨col, desc⟩ := c
    obtain ⟨rfl, hnumber, hx, ⟨v, hy⟩, ⟨w, hr⟩, hbefore⟩ | ⟨⟨v, hx, hy, hr⟩, h⟩ := h
    · have hnull : (C.cell x col).isNull = true := by
        rw [hx]
        rfl
      refine ⟨?_, ?_, hbefore⟩
      · rw [sampleKey_null hnull, sampleKey_val hy, List.cons_lt_cons_iff]
        exact .inl (WithBot.bot_lt_coe _)
      · show C.before last ((col, true) :: cols) (C.cell x col :: C.cells cols x) r = true
        rw [before_null hnull hr, hnumber]
        rfl
    · obtain ⟨hlt, hxr, hyr⟩ := ih h
      refine ⟨?_, ?_, ?_⟩
      · rw [sampleKey_val hx, sampleKey_val hy, List.cons_lt_cons_iff]
        exact .inr ⟨rfl, hlt⟩
      · show C.before last ((col, desc) :: cols) (C.cell x col :: C.cells cols x) r = true
        rw [hx, before_val hr, if_pos rfl, hxr]
      · show C.before last ((col, desc) :: cols) (C.cell y col :: C.cells cols y) r = false
        rw [hy, before_val hr, if_pos rfl, hyr]

end SortColumns
end RayTfm.Data
