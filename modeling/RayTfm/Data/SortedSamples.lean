import RayTfm.Data.PartitionIndex

/-! # Sorted samples

Sorting the samples by each column, the last one first, orders them by `sampleKey`
(`exists_sortSamples`), in whatever order a sort leaves nulls: the order of a null does not depend
on the later columns.  The boundaries are the samples at the quantiles, without the first and the
last one (`exists_sampleBoundaries`). -/

namespace RayTfm.Data

variable {R V F : Type} [LinearOrder V] [LinearOrder F]

/-- A sort leaves the samples with nulls in some order. -/
def NullOrder (nullOrder : ℕ → List (List (NumpyValue V F)) → List (List (NumpyValue V F))) : Prop :=
  ∀ i samples, (nullOrder i samples).Perm (samples.filter (fun sample => (itemAt i sample).isNa))

/-- The quantiles of a list are in order, at positions of the list. -/
structure IsQuantiles (quantiles : ℕ → ℕ → List ℕ) : Prop where
  sorted : ∀ length numReducers, (quantiles length numReducers).Pairwise (· ≤ ·)
  lt : ∀ length numReducers, 0 < length → ∀ i ∈ quantiles length numReducers, i < length

/-- Also without the first and the last. -/
theorem IsQuantiles.inner {quantiles : ℕ → ℕ → List ℕ} (h : IsQuantiles quantiles)
    (length numReducers : ℕ) :
    (quantiles length numReducers).tail.dropLast.Pairwise (· ≤ ·) :=
  (h.sorted length numReducers).sublist ((List.dropLast_sublist _).trans (List.tail_sublist _))

namespace SortColumns
variable (C : SortColumns R V F)

/-- The tuple of a sample. -/
def tuple (table : List R) (cols : List String) (row : R) : List (NumpyValue V F) :=
  cols.map (fun col => C.toNumpy table col row)

variable {C} {cols : List (String × Bool)} {rows table : List R} {col : String}
  {nullOrder : ℕ → List (List (NumpyValue V F)) → List (List (NumpyValue V F))}
  {quantiles : ℕ → ℕ → List ℕ}

/-! ### One pass -/

variable {desc : Bool}

theorem safe_lt_iff (hexact : C.ExactFloats cols rows) (hcol : (col, desc) ∈ cols)
    (htable : table ⊆ rows)
    {s s' : R} (hs : s ∈ table) (hs' : s' ∈ table) {v w : V} (hv : C.cell s col = .val v)
    (hw : C.cell s' col = .val w) :
    (C.toNumpy table col s).safe < (C.toNumpy table col s').safe ↔ v < w := by
  rw [toNumpy_val hv, toNumpy_val hw]
  split_ifs with hfloat
  · obtain ⟨hnumber, row, hrow, hnone⟩ := hfloat
    have hmono := hexact (col, desc) hcol hnumber ⟨row, htable hrow, hnone⟩
    have hiff : C.asFloat v < C.asFloat w ↔ v < w := by
      obtain hlt | rfl | hgt := lt_trichotomy v w
      · exact iff_of_true (hmono s (htable hs) s' (htable hs') v w hv hw hlt) hlt
      · rw [lt_self_iff_false, lt_self_iff_false]
      · exact iff_of_false (hmono s' (htable hs') s (htable hs) w v hw hv hgt).not_gt hgt.not_gt
    exact (WithTop.coe_lt_coe.trans Sum.Lex.inr_lt_inr_iff).trans hiff
  · exact WithTop.coe_lt_coe.trans Sum.Lex.inl_lt_inl_iff

omit [LinearOrder V] [LinearOrder F] in
theorem itemAt_tuple (pre : List String) (rest : List String) (s : R) :
    itemAt pre.length (C.tuple table (pre ++ col :: rest) s) = C.toNumpy table col s := by
  unfold itemAt tuple
  simp

variable {rest : List (String × Bool)}

omit [LinearOrder F] in
/-- A stable sort of the values by a key that orders them as the column does. -/
theorem pairwise_sortBy {K : Type} [LinearOrder K] {key : R → K}
    {values : List R} (hvalues : ∀ s ∈ values, ∃ v, C.cell s col = .val v)
    (hkey : ∀ s ∈ values, ∀ s' ∈ values, ∀ v w, C.cell s col = .val v → C.cell s' col = .val w →
      (key s < key s' ↔ directed desc v < directed desc w))
    (hsorted : values.Pairwise (fun s s' => C.sampleKey rest s ≤ C.sampleKey rest s')) :
    (sortBy key values).Pairwise
      (fun s s' => C.sampleKey ((col, desc) :: rest) s ≤ C.sampleKey ((col, desc) :: rest) s') := by
  have hstable := isStableSort_sortBy key values
  refine (IsStableSort.pairwise_lex key hstable hsorted).imp_of_mem (fun {s s'} hs hs' hle => ?_)
  rw [hstable.perm.mem_iff] at hs hs'
  obtain ⟨v, hv⟩ := hvalues s hs
  obtain ⟨w, hw⟩ := hvalues s' hs'
  have hlt := hkey s hs s' hs' v w hv hw
  have hgt := hkey s' hs' s hs w v hw hv
  rw [sampleKey_val hv, sampleKey_val hw, cons_le_cons_iff, WithBot.coe_lt_coe, WithTop.coe_lt_coe,
    WithBot.coe_inj, WithTop.coe_inj]
  obtain hless | ⟨heq, hrest⟩ := hle
  · exact .inl (hlt.mp hless)
  · refine .inr ⟨le_antisymm ?_ ?_, hrest⟩
    · exact not_lt.mp (fun h => heq.not_gt (hgt.mpr h))
    · exact not_lt.mp (fun h => heq.not_lt (hlt.mpr h))

theorem exists_sortPass (hnull : NullOrder nullOrder) (hexact : C.ExactFloats cols rows)
    (hcol : (col, desc) ∈ cols) (htable : table ⊆ rows) (pre : List String)
    {samples : List R} (hsamples : samples ⊆ table)
    (hsorted : samples.Pairwise (fun s s' => C.sampleKey rest s ≤ C.sampleKey rest s')) :
    ∃ samples' : List R, samples'.Perm samples ∧
      sortPass nullOrder desc pre.length
        (samples.map (C.tuple table (pre ++ col :: rest.map Prod.fst))) =
        .ok (samples'.map (C.tuple table (pre ++ col :: rest.map Prod.fst))) ∧
      samples'.Pairwise (fun s s' => C.sampleKey ((col, desc) :: rest) s ≤ C.sampleKey
        ((col, desc) :: rest) s') := by
  have hlong : (samples.map (C.tuple table (pre ++ col :: rest.map Prod.fst))).any
      (fun sample => decide (sample.length ≤ pre.length)) = false := by
    rw [List.any_eq_false, List.forall_mem_map]
    intro s _
    simp [tuple]
  have hvalues : (samples.map (C.tuple table (pre ++ col :: rest.map Prod.fst))).filter
      (fun sample => !(itemAt pre.length sample).isNa) =
      (samples.filter (fun s => !(C.cell s col).isNull)).map
        (C.tuple table (pre ++ col :: rest.map Prod.fst)) := by
    rw [List.filter_map]
    congr 1
    refine List.filter_congr (fun s _ => ?_)
    rw [Function.comp_apply, itemAt_tuple, isNa_toNumpy]
  obtain ⟨nulls, hnulls, heq⟩ : ∃ nulls : List R,
    nulls.Perm (samples.filter (fun s => (C.cell s col).isNull)) ∧
      nullOrder pre.length (samples.map (C.tuple table (pre ++ col :: rest.map Prod.fst))) =
        nulls.map (C.tuple table (pre ++ col :: rest.map Prod.fst)) := by
    refine exists_perm_of_perm_map ((hnull _ _).trans (List.Perm.of_eq ?_))
    rw [List.filter_map]
    congr 1
    refine List.filter_congr (fun s _ => ?_)
    rw [Function.comp_apply, itemAt_tuple, isNa_toNumpy]
  have hperm : (samples.filter (fun s => (C.cell s col).isNull) ++ samples.filter
    (fun s => !(C.cell s col).isNull)).Perm
      samples := List.filter_append_perm _ samples
  have hvals : ∀ s ∈ samples.filter (fun s => !(C.cell s col).isNull), s ∈ table ∧
    ∃ v, C.cell s col = .val v := by
    intro s hs
    rw [List.mem_filter] at hs
    refine ⟨hsamples hs.1, ?_⟩
    obtain hnull | hval := isNull_cases (C.cell s col)
    · rw [hnull] at hs
      cases hs.2
    · exact hval
  have hnullKey : ∀ s ∈ nulls, C.sampleKey ((col, desc) :: rest) s = [if desc then ⊥ else ⊤] :=
    fun s hs => sampleKey_null (List.mem_filter.mp (hnulls.mem_iff.mp hs)).2
  have hnullPairs : nulls.Pairwise
    (fun s s' => C.sampleKey ((col, desc) :: rest) s ≤ C.sampleKey ((col, desc) :: rest) s') :=
    List.pairwise_of_forall_mem_list (fun s hs s' hs' => by rw [hnullKey s hs, hnullKey s' hs'])
  have hrest := hsorted.sublist (List.filter_sublist (p := fun s => !(C.cell s col).isNull))
  unfold sortPass
  rw [if_neg (by rw [hlong]; exact Bool.false_ne_true)]
  rw [hvalues, heq]
  cases desc with
  | false =>
    have hstable := isStableSort_sortBy (fun s => (C.toNumpy table col s).safe)
      (samples.filter (fun s => !(C.cell s col).isNull))
    refine ⟨sortBy (fun s => (C.toNumpy table col s).safe)
      (samples.filter (fun s => !(C.cell s col).isNull)) ++ nulls,
      ?_, ?_, ?_⟩
    · exact ((hstable.perm.append hnulls).trans List.perm_append_comm).trans hperm
    · rw [if_neg Bool.false_ne_true, List.map_append, sortBy_map]
      simp only [itemAt_tuple]
    · refine List.pairwise_append.mpr ⟨pairwise_sortBy (fun s hs => (hvals s hs).2) ?_ hrest,
        hnullPairs, ?_⟩
      · intro s hs s' hs' v w hv hw
        rw [safe_lt_iff hexact hcol htable (hvals s hs).1 (hvals s' hs').1 hv hw, directed_lt]
        rfl
      · intro s hs s' hs'
        obtain ⟨v, hv⟩ := (hvals s (hstable.perm.mem_iff.mp hs)).2
        rw [hnullKey s' hs', sampleKey_val hv, if_neg Bool.false_ne_true, cons_le_cons_iff]
        exact .inl (WithBot.coe_lt_coe.mpr (WithTop.coe_lt_top _))
  | true =>
    have hstable := isStableSort_sortBy (fun s => OrderDual.toDual (C.toNumpy table col s).safe)
      (samples.filter (fun s => !(C.cell s col).isNull))
    refine ⟨nulls ++ sortBy (fun s => OrderDual.toDual (C.toNumpy table col s).safe)
      (samples.filter (fun s => !(C.cell s col).isNull)), ?_, ?_, ?_⟩
    · exact (hnulls.append hstable.perm).trans hperm
    · rw [if_pos rfl, List.map_append, sortBy_map]
      simp only [itemAt_tuple]
    · refine List.pairwise_append.mpr
        ⟨hnullPairs, pairwise_sortBy (fun s hs => (hvals s hs).2) ?_ hrest, ?_⟩
      · intro s hs s' hs' v w hv hw
        rw [OrderDual.toDual_lt_toDual,
          safe_lt_iff hexact hcol htable (hvals s' hs').1 (hvals s hs).1 hw hv, directed_lt]
        rfl
      · intro s hs s' hs'
        obtain ⟨v, hv⟩ := (hvals s' (hstable.perm.mem_iff.mp hs')).2
        rw [hnullKey s hs, sampleKey_val hv, if_pos rfl, cons_le_cons_iff]
        exact .inl (WithBot.bot_lt_coe _)

/-! ### All passes -/

theorem exists_sortPasses (hnull : NullOrder nullOrder) (hexact : C.ExactFloats cols rows)
    (htable : table ⊆ rows)
    (hrest : rest ⊆ cols) (pre : List String) :
    ∃ samples : List R, samples.Perm table ∧
      ((rest.map Prod.snd).zipIdx pre.length).foldrM
        (fun pass samples => sortPass nullOrder pass.1 pass.2 samples)
        (table.map (C.tuple table (pre ++ rest.map Prod.fst))) =
        .ok (samples.map (C.tuple table (pre ++ rest.map Prod.fst))) ∧
      samples.Pairwise (fun s s' => C.sampleKey rest s ≤ C.sampleKey rest s') := by
  induction rest generalizing pre with
  | nil => exact ⟨table, List.Perm.refl _, rfl, List.pairwise_of_forall (fun _ _ => le_rfl)⟩
  | cons c rest ih =>
    obtain ⟨col, desc⟩ := c
    rw [List.cons_subset] at hrest
    obtain ⟨samples, hperm, hrun, hsorted⟩ := ih hrest.2 (pre ++ [col])
    rw [List.append_assoc, List.singleton_append, List.length_append, List.length_singleton] at hrun
    obtain ⟨samples', hperm', hpass, hsorted'⟩ := exists_sortPass hnull hexact hrest.1 htable pre
      hperm.subset hsorted
    refine ⟨samples', hperm'.trans hperm, ?_, hsorted'⟩
    rw [List.map_cons, List.map_cons, List.zipIdx_cons, List.foldrM_cons, hrun, ok_bind]
    exact hpass

theorem exists_sortSamples {key : SortKey V} (hnull : NullOrder nullOrder) (hnodup : key.columns.Nodup)
    (hexact : C.ExactFloats key.directed rows) (htable : table ⊆ rows) :
    ∃ samples : List R, samples.Perm table ∧
      sortSamples nullOrder key (samplesList C key table) =
        .ok (samples.map (C.tuple table key.columns)) ∧
      samples.Pairwise (fun s s' => C.sampleKey key.directed s ≤
        C.sampleKey key.directed s') := by
  obtain ⟨samples, hperm, hrun, hsorted⟩ :=
    exists_sortPasses hnull hexact htable (List.Subset.refl _) []
  rw [List.map_fst_zip key.length_descending.ge, List.map_snd_zip key.length_descending.le,
    List.nil_append] at hrun
  refine ⟨samples, hperm, ?_, hsorted⟩
  unfold sortSamples samplesList
  rw [List.foldlM_reverse, List.Nodup.dedup (List.nodup_reverse.mpr hnodup), List.reverse_reverse]
  exact hrun

/-! ### Quantiles -/

theorem mem_of_mem_tail_dropLast {l : List ℕ} {i : ℕ} (h : i ∈ l.tail.dropLast) : i ∈ l :=
  List.mem_of_mem_tail (List.mem_of_mem_dropLast h)

theorem pairwise_gather {α : Type} {r : α → α → Prop} (hrefl : ∀ a, r a a) {l : List α}
    (hl : l.Pairwise r)
    {order : List ℕ} (horder : order.Pairwise (· ≤ ·)) : (gather l order).Pairwise r := by
  refine List.pairwise_filterMap.mpr (horder.imp (fun {i j} hle a ha b hb => ?_))
  obtain rfl | hlt := hle.eq_or_lt
  · rw [ha] at hb
    cases hb
    exact hrefl a
  · obtain ⟨hi, rfl⟩ := List.getElem?_eq_some_iff.mp ha
    obtain ⟨hj, rfl⟩ := List.getElem?_eq_some_iff.mp hb
    exact List.pairwise_iff_getElem.mp hl i j hi hj hlt

/-- The boundaries of sampled rows: rows of the sorted samples, at the quantiles. -/
theorem exists_sampleBoundaries {key : SortKey V} (hnull : NullOrder nullOrder)
    (hquantiles : IsQuantiles quantiles)
    (hnodup : key.columns.Nodup) (hexact : C.ExactFloats key.directed rows)
    {formats : List BlockFormat} {blocks samples : List (List R)} (numReducers : ℕ)
    (hblocks : blocks ≠ [])
    (hzero : nSamples numReducers blocks ≠ 0)
    (hformats : (formatsWithRows formats samples).Pairwise (· = ·))
    (hsamples : samples.flatten ⊆ rows) (hne : samples.flatten ≠ []) :
    ∃ sorted : List R, sorted.Perm samples.flatten ∧
      sorted.Pairwise (fun s s' => C.sampleKey key.directed s ≤
        C.sampleKey key.directed s') ∧
      sampleBoundaries C nullOrder quantiles key numReducers formats blocks samples =
        .ok ((gather sorted (quantiles sorted.length numReducers).tail.dropLast).map
          (fun s => some (C.tuple samples.flatten key.columns s))) := by
  obtain ⟨sorted, hperm, hrun, hsorted⟩ := exists_sortSamples hnull hnodup hexact hsamples
  refine ⟨sorted, hperm, hsorted, ?_⟩
  have hlength : 0 < sorted.length := by
    rw [hperm.length_eq]
    exact List.length_pos_iff.mpr hne
  unfold sampleBoundaries
  rw [if_neg (List.length_eq_zero_iff.not.mpr hblocks), if_neg (fun h => hzero h.1),
    if_neg (List.length_eq_zero_iff.not.mpr hne), decide_eq_true hformats, pyAssert_true, ok_bind,
    hrun, ok_bind, List.length_map]
  have hindices : ∀ i ∈ (quantiles sorted.length numReducers).tail.dropLast, i < sorted.length :=
    fun i hi => hquantiles.lt _ _ hlength i (mem_of_mem_tail_dropLast hi)
  generalize (quantiles sorted.length numReducers).tail.dropLast = indices at hindices
  induction indices with
  | nil => rfl
  | cons i indices ih =>
    rw [List.forall_mem_cons] at hindices
    rw [List.mapM_cons, List.getElem?_map, List.getElem?_eq_getElem hindices.1]
    show (do let boundary ← Except.ok (some _); let boundaries ← _; pure (boundary :: boundaries)) = _
    rw [ok_bind, ih hindices.2]
    unfold gather
    rw [List.filterMap_cons_some (List.getElem?_eq_getElem hindices.1)]
    rfl

end SortColumns
end RayTfm.Data
