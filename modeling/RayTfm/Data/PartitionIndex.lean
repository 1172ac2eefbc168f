import RayTfm.Data.RangePartition

/-! # The position of a boundary

`find_partition_index` narrows a range of rows column by column.  In a sorted block the range is
that of the rows that agree with the boundary so far, and the position it ends with is the number of
rows before the boundary (`findPartitionIndex_eq_countP`). -/

namespace RayTfm.Data

variable {R V F : Type} [LinearOrder V] [LinearOrder F]

/-! ### Boundaries and the cells they stand for -/

namespace SortColumns
variable (C : SortColumns R V F)

/-- The integers of a number column with `None`, which become floats, are told apart as floats. -/
def ExactFloats (cols : List (String × Bool)) (rows : List R) : Prop :=
  ∀ c ∈ cols, C.isNumber c.1 = true → (∃ r ∈ rows, C.cell r c.1 = .none) →
  ∀ r ∈ rows, ∀ r' ∈ rows, ∀ v w,
    C.cell r c.1 = .val v → C.cell r' c.1 = .val w → v < w → C.asFloat v < C.asFloat w

/-- An element of a boundary stands for a cell: it compares as the cell does with the values of the
column, in any block of the rows. -/
def Matches (rows : List R) (col : String) (d : NumpyValue V F) : PyValue V → Prop
  | .val v => d.isNa = false ∧ ∀ block : List R, block ⊆ rows →
      ∀ r ∈ block, ∀ w, C.cell r col = .val w →
      C.lt (C.toNumpy block col r) d = decide (w < v) ∧ C.lt d (C.toNumpy block col r) = decide (v < w)
  | _ => d = if C.isNumber col then .nan else .none

variable {C} {cols : List (String × Bool)} {rows block : List R} {col : String} {r : R}

omit [LinearOrder V] [LinearOrder F] in
theorem toNumpy_null (h : (C.cell r col).isNull = true) :
    C.toNumpy block col r = if C.isNumber col then .nan else .none := by
  obtain hnumber | hnumber := Bool.eq_false_or_eq_true (C.isNumber col)
  · cases hcell : C.cell r col with
    | none => simp only [SortColumns.toNumpy, Columns.toNumpy, hcell, hnumber]
    | nan => simp only [SortColumns.toNumpy, Columns.toNumpy, hcell, hnumber, if_true]
    | val v =>
      rw [hcell] at h
      cases h
  · have hcell := isNumber_eq_false_of_none h hnumber
    simp only [SortColumns.toNumpy, Columns.toNumpy, hcell, hnumber]

omit [LinearOrder V] [LinearOrder F] in
theorem any_isNone_iff :
    (block.any (fun row => C.cell row col matches .none)) = true ↔
    ∃ row ∈ block, C.cell row col = .none := by
  rw [List.any_eq_true]
  refine exists_congr (fun row => and_congr_right (fun _ => ?_))
  cases C.cell row col <;> simp

variable {v : V}

omit [LinearOrder F] in
/-- A value is as it is, or the float it becomes in a number column with `None`. -/
theorem toNumpy_val (h : C.cell r col = .val v) :
    C.toNumpy block col r =
      if C.isNumber col ∧ ∃ row ∈ block, C.cell row col = .none then .float (C.asFloat v)
      else .value v := by
  simp only [SortColumns.toNumpy, Columns.toNumpy, h]
  by_cases hnumber : C.isNumber col = true
  · rw [if_pos hnumber]
    refine if_congr (any_isNone_iff.trans ?_) rfl rfl
    rw [eq_true hnumber, true_and]
  · rw [if_neg hnumber, if_neg (fun hboth => hnumber hboth.1)]

omit [LinearOrder F] in
theorem isNa_toNumpy : (C.toNumpy block col r).isNa = (C.cell r col).isNull := by
  obtain h | ⟨v, h⟩ := isNull_cases (C.cell r col)
  · rw [toNumpy_null h, h]
    split_ifs <;> rfl
  · rw [toNumpy_val h, h]
    split_ifs <;> rfl

variable {desc : Bool}

theorem matches_toNumpy (hexact : C.ExactFloats cols rows) (hcol : (col, desc) ∈ cols) {table : List R}
    (htable : table ⊆ rows) {s : R} (hs : s ∈ table) : C.Matches rows col (C.toNumpy table col s)
    (C.cell s col) := by
  obtain h | ⟨v, h⟩ := isNull_cases (C.cell s col)
  · have heq : C.toNumpy table col s = if C.isNumber col then .nan else .none := toNumpy_null h
    cases hcell : C.cell s col with
    | none => exact heq
    | nan => exact heq
    | val v =>
      rw [hcell] at h
      cases h
  · rw [h]
    refine ⟨by rw [isNa_toNumpy, h]; rfl, fun block hblock r hr w hw => ?_⟩
    rw [toNumpy_val h, toNumpy_val hw]
    -- If one of the two is a float, they are compared as floats.
    have hfloat : C.isNumber col = true → (∃ row ∈ rows, C.cell row col = .none) →
        decide (C.asFloat w < C.asFloat v) = decide (w < v) ∧
        decide (C.asFloat v < C.asFloat w) = decide (v < w) := by
      intro hnumber hnone
      have hmono : ∀ a b : R, a ∈ rows → b ∈ rows → ∀ v w, C.cell a col = .val v →
        C.cell b col = .val w → v < w →
          C.asFloat v < C.asFloat w :=
        fun a b ha hb v w hv hw hlt => hexact (col, desc) hcol hnumber hnone a ha b hb v w hv hw hlt
      have hvw := hmono s r (htable hs) (hblock hr) v w h hw
      have hwv := hmono r s (hblock hr) (htable hs) w v hw h
      obtain hlt | rfl | hgt := lt_trichotomy v w
      · simp [hlt, hlt.not_gt, hvw hlt, (hvw hlt).not_gt]
      · simp
      · simp [hgt, hgt.not_gt, hwv hgt, (hwv hgt).not_gt]
    by_cases htable' : C.isNumber col ∧ ∃ row ∈ table, C.cell row col = .none
    · rw [if_pos htable']
      obtain ⟨hnumber, row, hrow, hnone⟩ := htable'
      have hfloat := hfloat hnumber ⟨row, htable hrow, hnone⟩
      split_ifs
      · exact hfloat
      · exact hfloat
    · rw [if_neg htable']
      split_ifs with hblock'
      · obtain ⟨hnumber, row, hrow, hnone⟩ := hblock'
        exact hfloat hnumber ⟨row, hblock hrow, hnone⟩
      · exact ⟨rfl, rfl⟩

theorem matches_value (hnone : ∀ r ∈ rows, C.cell r col ≠ .none) (b : V) :
    C.Matches rows col (.value b) (.val b) := by
  refine ⟨rfl, fun block hblock r hr w hw => ?_⟩
  rw [toNumpy_val hw, if_neg]
  · exact ⟨rfl, rfl⟩
  · rintro ⟨-, row, hrow, heq⟩
    exact hnone row (hblock hrow) heq

/-! ### One column -/

omit [LinearOrder F] in
theorem colVals_eq (left right : ℕ) :
    C.colVals block col left right =
      ((segment block left right).filter (fun r => !(C.cell r col).isNull)).map
        (C.toNumpy block col) := by
  have hmap : segment (block.map (C.toNumpy block col)) left right =
      (segment block left right).map (C.toNumpy block col) := by
    unfold segment
    rw [← List.map_take, ← List.map_drop]
  have hfilter : ((segment block left right).filter (fun r => !(C.cell r col).isNull)).map
    (C.toNumpy block col) =
      ((segment block left right).map (C.toNumpy block col)).filter (fun a => !a.isNa) := by
    rw [List.filter_map]
    congr 1
    refine List.filter_congr (fun r _ => ?_)
    rw [Function.comp_apply, isNa_toNumpy]
  unfold colVals
  rw [hmap, hfilter]
  dsimp only
  split_ifs with hnone hnan
  · rfl
  · -- A column without `None` has no nulls but NaN.
    refine List.filter_congr (fun a ha => ?_)
    obtain ⟨r, -, rfl⟩ := List.mem_map.mp ha
    obtain h | ⟨v, h⟩ := isNull_cases (C.cell r col)
    · rw [toNumpy_null h, if_pos (Bool.and_eq_true_iff.mp hnan).1]
      rfl
    · rw [toNumpy_val h]
      split_ifs <;> rfl
  · refine (List.filter_eq_self.mpr (fun a ha => ?_)).symm
    obtain ⟨r, hr, rfl⟩ := List.mem_map.mp ha
    rw [isNa_toNumpy]
    cases hcell : C.cell r col with
    | none =>
      refine absurd (List.any_eq_true.mpr ⟨r, ?_, by rw [hcell]⟩) hnone
      exact List.mem_of_mem_take (List.mem_of_mem_drop hr)
    | nan =>
      have hnumber := C.isNumber_of_nan r col hcell
      refine absurd (Bool.and_eq_true_iff.mpr ⟨hnumber, List.any_eq_true.mpr ⟨_, ha, ?_⟩⟩) hnan
      rw [toNumpy_null (by rw [hcell]; rfl), if_pos hnumber]
    | val v => rfl

variable {c : String × Bool} {seg : List R}

omit [LinearOrder F] in
theorem Sorted.head (h : C.Sorted (c :: cols) seg) : C.Sorted [c] seg := by
  refine h.imp (fun {r r'} hle => ?_)
  obtain hlt | ⟨heq, -⟩ := cons_le_cons_iff.mp hle
  · exact cons_le_cons_iff.mpr (.inl hlt)
  · exact cons_le_cons_iff.mpr (.inr ⟨heq, le_rfl⟩)

variable {last : Bool}

omit [LinearOrder F] in
theorem before_single {w : V} (h : C.cell r col = .val w) :
    C.before last [(col, desc)] [.val v] r =
      if last then !decide (if desc then w < v else v < w)
      else decide (if desc then v < w else w < v) := by
  have hnil : C.before last [] [] r = last := by
    rfl
  rw [before_val h, hnil]
  simp only [directed_lt]
  obtain hlt | rfl | hgt := lt_trichotomy w v
  · rw [if_neg hlt.ne]
    cases desc <;> cases last <;> simp [hlt, hlt.not_gt]
  · cases desc <;> cases last <;> simp
  · rw [if_neg hgt.ne']
    cases desc <;> cases last <;> simp [hgt, hgt.not_gt]

variable {d : NumpyValue V F}

theorem searchsorted_eq (hseg : seg ⊆ block) (hblock : block ⊆ rows)
    (hsorted : C.Sorted [(col, desc)] seg) (hd : C.Matches rows col d (.val v)) (last : Bool) :
    (let colVals := (seg.filter (fun r => !(C.cell r col).isNull)).map (C.toNumpy block col)
      if desc then colVals.length - C.searchsorted (!last) colVals.reverse d
      else C.searchsorted last colVals d) =
      seg.countP (C.before last [(col, desc)] [.val v]) := by
  have hfront : Front (C.before last [(col, desc)] [.val v])
    (seg.filter (fun r => !(C.cell r col).isNull)) :=
    List.Pairwise.sublist List.filter_sublist (front_before hsorted _)
  have hcount : (seg.filter (fun r => !(C.cell r col).isNull)).countP
    (C.before last [(col, desc)] [.val v]) =
      seg.countP (C.before last [(col, desc)] [.val v]) := by
    rw [List.countP_filter]
    refine List.countP_congr (fun r _ => ?_)
    rw [Bool.and_eq_true_iff, and_iff_left_iff_imp]
    intro hbefore
    by_contra hnull
    rw [Bool.not_eq_true, Bool.not_eq_false'] at hnull
    rw [before_of_row_null hnull] at hbefore
    cases hbefore
  have hcompare : ∀ r ∈ seg.filter (fun r => !(C.cell r col).isNull), ∃ w, C.cell r col = .val w ∧
      C.lt (C.toNumpy block col r) d = decide (w < v) ∧
      C.lt d (C.toNumpy block col r) = decide (v < w) := by
    intro r hr
    rw [List.mem_filter] at hr
    obtain hnull | ⟨w, hw⟩ := isNull_cases (C.cell r col)
    · rw [hnull] at hr
      cases hr.2
    · exact ⟨w, hw, hd.2 block hblock r (hseg hr.1) w hw⟩
  rw [← hcount]
  generalize seg.filter (fun r => !(C.cell r col).isNull) = l at hfront hcompare
  cases desc with
  | false =>
    rw [if_neg Bool.false_ne_true]
    cases last with
    | false =>
      refine length_takeWhile_map hfront (fun r hr => ?_)
      obtain ⟨w, hw, hlt, -⟩ := hcompare r hr
      rw [hlt, before_single hw]
      rfl
    | true =>
      refine length_takeWhile_map hfront (fun r hr => ?_)
      obtain ⟨w, hw, -, hgt⟩ := hcompare r hr
      rw [hgt, before_single hw]
      rfl
  | true =>
    rw [if_pos rfl]
    cases last with
    | false =>
      refine length_takeWhile_map_reverse hfront (fun r hr => ?_)
      obtain ⟨w, hw, -, hgt⟩ := hcompare r hr
      rw [hgt, before_single hw]
      rfl
    | true =>
      refine length_takeWhile_map_reverse hfront (fun r hr => ?_)
      obtain ⟨w, hw, hlt, -⟩ := hcompare r hr
      rw [hlt, before_single hw]
      exact (Bool.not_not _).symm

/-- Nulls sort after all values, and NaN is found after them: at the end, or at the start when
descending. -/
theorem searchsorted_nan {colVals : List (NumpyValue V F)} (h : ∀ a ∈ colVals, a.isNa = false)
    (right : Bool) :
    C.searchsorted right colVals .nan = colVals.length := by
  have hall : ∀ p : NumpyValue V F → Bool, (∀ a ∈ colVals, p a = true) →
    (colVals.takeWhile p).length = colVals.length :=
    fun p hp => by rw [List.takeWhile_eq_self_iff.mpr hp]
  cases right with
  | false =>
    refine hall _ (fun a ha => ?_)
    have hna := h a ha
    cases a with
    | none => cases hna
    | nan => cases hna
    | value v => rfl
    | float f => rfl
  | true =>
    refine hall _ (fun a ha => ?_)
    cases a <;> rfl

theorem narrow_self (l : List ((String × Bool) × NumpyValue V F)) (n : ℕ) :
    C.narrow block l n n = (n, n) := by
  cases l with
  | nil => rfl
  | cons c l =>
    obtain ⟨⟨col, desc⟩, d⟩ := c
    unfold narrow
    rw [if_pos rfl]

variable {desired : List (PyValue V)}

omit [LinearOrder F] in
/-- The rows before a boundary are those before it in the first column, and of those that agree with
it there the ones before the rest of it. -/
theorem countP_before (seg : List R) :
    seg.countP (C.before last (c :: cols) (.val v :: desired)) = seg.countP
      (C.before false [c] [.val v]) +
      (seg.filter (fun r => !C.before false [c] [.val v] r && C.before true [c] [.val v] r)).countP
        (C.before last cols desired) := by
  obtain ⟨col, desc⟩ := c
  have hnil : ∀ (last : Bool) (r : R), C.before last [] [] r = last := by
    intro last r
    rfl
  induction seg with
  | nil => rfl
  | cons r seg ih =>
    rw [List.countP_cons, List.countP_cons, ih, List.filter_cons]
    obtain hnull | ⟨w, hw⟩ := isNull_cases (C.cell r col)
    · rw [before_of_row_null hnull, before_of_row_null hnull, before_of_row_null hnull]
      simp
    · rw [before_val hw, before_val hw, before_val hw, hnil, hnil]
      by_cases hwv : w = v
      · rw [if_pos hwv, if_pos hwv, if_pos hwv]
        simp only [Bool.not_false, Bool.true_and, if_true, List.countP_cons, Bool.false_eq_true,
          if_false]
        omega
      · rw [if_neg hwv, if_neg hwv, if_neg hwv, Bool.not_and_self, if_neg Bool.false_ne_true]
        omega

omit [LinearOrder F] in
/-- The rows that agree with a boundary in the first column are sorted by the others. -/
theorem Sorted.tail (h : C.Sorted (c :: cols) seg) :
    C.Sorted cols (seg.filter
      (fun r => !C.before false [c] [.val v] r && C.before true [c] [.val v] r)) := by
  obtain ⟨col, desc⟩ := c
  have hagree : ∀ r : R,
    (!C.before false [(col, desc)] [.val v] r && C.before true [(col, desc)] [.val v] r) = true →
      C.cell r col = .val v := by
    intro r hr
    rw [Bool.and_eq_true, Bool.not_eq_true'] at hr
    obtain hnull | ⟨w, hw⟩ := isNull_cases (C.cell r col)
    · have hlast := hr.2
      rw [before_of_row_null hnull] at hlast
      cases hlast
    · rw [before_val hw, before_val hw] at hr
      by_cases hwv : w = v
      · rw [hw, hwv]
      · rw [if_neg hwv, if_neg hwv] at hr
        rw [hr.1] at hr
        cases hr.2
  refine (List.Pairwise.sublist List.filter_sublist h).imp_of_mem (fun {r r'} hr hr' hle => ?_)
  have hle : sortCell desc (C.cell r col) < sortCell desc (C.cell r' col) ∨
      sortCell desc (C.cell r col) = sortCell desc (C.cell r' col) ∧
      C.rowKey cols r ≤ C.rowKey cols r' :=
    cons_le_cons_iff.mp hle
  rw [hagree r (List.mem_filter.mp hr).2, hagree r' (List.mem_filter.mp hr').2] at hle
  obtain hlt | ⟨-, hle⟩ := hle
  · exact absurd hlt (lt_irrefl _)
  · exact hle

/-! ### All columns -/

variable {left right : ℕ}

theorem segment_segment (l : List R) {i j : ℕ} (hj : left + j ≤ right) :
    segment (segment l left right) i j = segment l (left + i) (left + j) := by
  unfold segment
  rw [List.take_drop, List.take_take, Nat.min_eq_left hj, List.drop_drop]

theorem narrow_cons (hne : left ≠ right) (hd : d ≠ .none)
    (l : List ((String × Bool) × NumpyValue V F)) :
    C.narrow block (((col, desc), d) :: l) left right =
      (let colVals := C.colVals block col left right
        let position := fun last =>
          if desc then colVals.length - C.searchsorted (!last) colVals.reverse d
          else C.searchsorted last colVals d
        C.narrow block l (left + position false) (left + position true)) := by
  conv_lhs => unfold narrow
  rw [if_neg hne]
  cases desc <;> cases d <;> first | rfl | exact absurd rfl hd

omit [LinearOrder F] in
theorem countP_before_null {b : PyValue V} (hb : b.isNull = true)
    (seg : List R) : seg.countP (C.before last ((col, desc) :: cols) (b :: desired)) =
      if desc && C.isNumber col then 0 else (seg.filter (fun r => !(C.cell r col).isNull)).length := by
  have hbefore : ∀ r, C.before last ((col, desc) :: cols) (b :: desired) r =
      (!(desc && C.isNumber col) && !(C.cell r col).isNull) := by
    intro r
    obtain hnull | ⟨w, hw⟩ := isNull_cases (C.cell r col)
    · rw [before_of_row_null hnull, hnull, Bool.not_true, Bool.and_false]
    · rw [before_null hb hw, hw]
      exact (Bool.and_true _).symm
  rw [funext hbefore]
  split_ifs with hnan
  · rw [hnan]
    exact List.countP_false ▸ rfl
  · rw [Bool.not_eq_true] at hnan
    rw [hnan, ← List.countP_eq_length_filter]
    rfl

theorem narrow_null (hempty : left ≠ right) {b : PyValue V}
    (hb : b.isNull = true) (hd : C.Matches rows col d b) (l : List ((String × Bool) × NumpyValue V F))
    (desired : List (PyValue V)) :
    C.narrow block (((col, desc), d) :: l) left right =
      (left + (segment block left right).countP (C.before false ((col, desc) :: cols) (b :: desired)),
        left + (segment block left right).countP
          (C.before true ((col, desc) :: cols) (b :: desired))) := by
  have hcol : C.colVals block col left right = _ := colVals_eq left right
  have hlen : ((segment block left right).filter (fun r => !(C.cell r col).isNull)).length =
      (C.colVals block col left right).length := by
    rw [hcol, List.length_map]
  have hd : d = if C.isNumber col then .nan else .none := by
    cases b with
    | none => exact hd
    | nan => exact hd
    | val v => cases hb
  rw [countP_before_null hb, countP_before_null hb, hlen]
  by_cases hnumber : C.isNumber col = true
  · rw [if_pos hnumber] at hd
    have hna : ∀ a ∈ C.colVals block col left right, a.isNa = false := by
      rw [hcol, List.forall_mem_map]
      intro r hr
      rw [isNa_toNumpy]
      exact (Bool.not_eq_true' _).mp (List.mem_filter.mp hr).2
    have hna' : ∀ a ∈ (C.colVals block col left right).reverse, a.isNa = false :=
      fun a ha => hna a (List.mem_reverse.mp ha)
    rw [hd, narrow_cons hempty (by simp), hnumber]
    simp only [searchsorted_nan hna, searchsorted_nan hna', List.length_reverse, Nat.sub_self,
      narrow_self, Bool.and_true]
  · rw [if_neg hnumber] at hd
    rw [Bool.not_eq_true] at hnumber
    rw [hd, hnumber, Bool.and_false, if_neg Bool.false_ne_true]
    unfold narrow
    rw [if_neg hempty]

omit [LinearOrder F] in
theorem countP_before_le (seg : List R) :
    seg.countP (C.before false [c] [.val v]) ≤ seg.countP (C.before true [c] [.val v]) := by
  obtain ⟨col, desc⟩ := c
  refine List.countP_mono_left (fun r _ hr => ?_)
  obtain hnull | ⟨w, hw⟩ := isNull_cases (C.cell r col)
  · rw [before_of_row_null hnull] at hr
    cases hr
  · rw [before_val hw] at hr ⊢
    by_cases hwv : w = v
    · rw [if_pos hwv]
      rfl
    · rw [if_neg hwv] at hr ⊢
      exact hr

omit [LinearOrder F] in
theorem before_of_nil {cols : List (String × Bool)} (hnil : cols = [] ∨ desired = [])
    (last : Bool) : C.before last cols desired = fun _ => last := by
  funext r
  obtain rfl | rfl := hnil
  · unfold before
    rfl
  · cases cols <;> rfl

variable {ds : List (NumpyValue V F)}

theorem narrow_eq (hblock : block ⊆ rows)
    (hmatches : List.Forall₂ (fun c b => C.Matches rows c.1.1 c.2 b) (cols.zip ds) desired)
    (hle : left ≤ right) (hlength : right ≤ block.length)
    (hsorted : C.Sorted cols (segment block left right)) :
    C.narrow block (cols.zip ds) left right =
      (left + (segment block left right).countP (C.before false cols desired),
        left + (segment block left right).countP (C.before true cols desired)) := by
  have hend : ∀ (left right : ℕ) (cols : List (String × Bool)) (desired : List (PyValue V)),
    left ≤ right →
      right ≤ block.length → (cols = [] ∨ desired = []) →
      (left, right) = (left + (segment block left right).countP (C.before false cols desired),
        left + (segment block left right).countP (C.before true cols desired)) := by
    intro left right cols desired hle hlength hnil
    rw [before_of_nil hnil, before_of_nil hnil, List.countP_false, List.countP_true,
      length_segment block hle hlength, Nat.add_sub_cancel' hle]
    rfl
  induction cols generalizing ds desired left right with
  | nil => exact hend left right _ _ hle hlength (.inl rfl)
  | cons c cols ih =>
    obtain ⟨col, desc⟩ := c
    cases ds with
    | nil =>
      obtain rfl := List.forall₂_nil_left_iff.mp hmatches
      exact hend left right _ _ hle hlength (.inr rfl)
    | cons d ds =>
      obtain ⟨b, desired, hd, hmatches', rfl⟩ := List.forall₂_cons_left_iff.mp hmatches
      rw [List.zip_cons_cons]
      by_cases hempty : left = right
      · subst hempty
        have hnil : segment block left left = [] :=
          List.length_eq_zero_iff.mp (by rw [length_segment block le_rfl hlength, Nat.sub_self])
        rw [narrow_self, hnil]
        rfl
      · obtain hb | ⟨v, rfl⟩ := isNull_cases b
        · exact narrow_null hempty hb hd _ desired
        · -- The range becomes that of the rows with this value.
          have hsub : segment block left right ⊆ block :=
            fun r hr => List.mem_of_mem_take (List.mem_of_mem_drop hr)
          have hne : d ≠ .none := by
            rintro rfl
            cases hd.1
          have hposition := searchsorted_eq hsub hblock hsorted.head hd
          have hcol : C.colVals block col left right = _ := colVals_eq left right
          rw [narrow_cons hempty hne]
          dsimp only at hposition ⊢
          have hcount : ∀ last, (segment block left right).countP
              (C.before last ((col, desc) :: cols) (.val v :: desired)) = _ := fun _ => countP_before _
          rw [hcol, hposition false, hposition true, hcount false, hcount true]
          have hlower : (segment block left right).countP (C.before false [(col, desc)] [.val v]) ≤
              (segment block left right).countP (C.before true [(col, desc)] [.val v]) :=
                countP_before_le _
          have hupper : (segment block left right).countP (C.before true [(col, desc)] [.val v]) ≤ _ :=
            List.countP_le_length
          have hfront : ∀ last, Front (C.before last [(col, desc)] [.val v])
            (segment block left right) :=
            fun _ => front_before hsorted.head _
          have hfronts := (hfront false).segment (hfront true)
          have hrest := hsorted.tail (v := v)
          rw [length_segment block hle hlength] at hupper
          rw [← hfronts] at hrest ⊢
          generalize (segment block left right).countP (C.before false [(col, desc)] [.val v]) =
            i at hlower hrest
          generalize (segment block left right).countP (C.before true [(col, desc)] [.val v]) =
            j at hlower hupper hrest
          rw [segment_segment block (by omega)] at hrest ⊢
          rw [ih hmatches' (by omega) (by omega) hrest, Nat.add_assoc, Nat.add_assoc]

/-- The position of a boundary in a sorted block is the number of rows before it. -/
theorem findPartitionIndex_eq_countP {key : SortKey V} (hblock : block ⊆ rows)
    (hmatches : List.Forall₂ (fun c b => C.Matches rows c.1.1 c.2 b)
      (key.directed.zip ds) desired)
    (hsorted : C.Sorted key.directed block) :
    findPartitionIndex C block key ds =
      block.countP (C.before (key.descending.head? == some true) key.directed
        desired) := by
  have hall : segment block 0 block.length = block := by rw [segment_zero, List.take_length]
  have hnarrow := narrow_eq hblock hmatches (Nat.zero_le _) le_rfl (by rw [hall]; exact hsorted)
  unfold findPartitionIndex
  rw [hnarrow, hall]
  rw [Nat.zero_add, Nat.zero_add]
  split_ifs with hdesc
  · rw [hdesc]
    rfl
  · rw [beq_eq_false_iff_ne.mpr hdesc]

end SortColumns

end RayTfm.Data
