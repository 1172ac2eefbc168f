import RayTfm.Data.DistributedSort

/-! # Distributed sort of keys with nulls

Arrow sorts nulls last, the samples have them first in a descending column.  For NaN, which is what
a null of a number column becomes, `find_partition_index` makes up for that: it puts the boundary
before all values.  For `None` it puts the boundary behind them, behind the boundaries that follow.
So the positions do not decrease, and blocks keep their rows, if and only if no such boundaries are
sampled (`NoClash`, `keepsRows_iff`). -/

namespace RayTfm.Data

variable {R V F : Type} [LinearOrder V] [LinearOrder F]

/-! ### What is asked for -/

/-- The partitions of sorted blocks at given boundaries: no position is less than the one before it,
every row is in one partition, and rows with equal keys are in the same one, also of different
blocks. -/
structure PartitionsRight (C : SortColumns R V F) (key : SortKey V) (blocks : List (List R))
    (boundaries : List (Option (List (NumpyValue V F)))) : Prop where
  nondecreasing : ∀ block ∈ blocks, block ≠ [] →
    ∃ indices, partitionIndices C block boundaries key = .ok indices ∧ indices.Pairwise (· ≤ ·)
  all_rows : ∀ block ∈ blocks, ∃ parts, partitionSorted C block boundaries key = .ok parts ∧
    parts.flatten.Perm block
  together : ∀ block ∈ blocks, ∀ block' ∈ blocks, ∀ parts parts',
    partitionSorted C block boundaries key = .ok parts →
    partitionSorted C block' boundaries key = .ok parts' → ∀ (j j' : ℕ) (part part' : List R),
    parts[j]? = some part →
    parts'[j']? = some part' → ∀ row ∈ part, ∀ row' ∈ part',
    C.rowKey key.directed row = C.rowKey key.directed row' → j = j'

/-- There are boundaries for what was sampled from Arrow blocks, and the partitions are right. -/
def KeepsRows (C : SortColumns R V F)
    (nullOrder : ℕ → List (List (NumpyValue V F)) → List (List (NumpyValue V F)))
    (quantiles : ℕ → ℕ → List ℕ) (key : SortKey V) (numReducers : ℕ)
    (blocks samples : List (List R)) : Prop :=
  ∃ boundaries, sampleBoundaries C nullOrder quantiles key numReducers
    (blocks.map (fun _ => .arrow)) blocks samples =
    .ok boundaries ∧ PartitionsRight C key blocks boundaries

/-- In the order of the samples, `x` can be at one of the positions. -/
def IsAtOne (C : SortColumns R V F) (key : SortKey V) (samples : List R) (positions : List ℕ)
    (x : R) : Prop :=
  ∃ i ∈ positions,
    samples.countP (fun z => decide (C.sampleKey key.directed z <
      C.sampleKey key.directed x)) ≤ i ∧
    i < samples.countP (fun z => decide (C.sampleKey key.directed z ≤
      C.sampleKey key.directed x))

/-- No samples `x` and `y` that are boundaries clash: `x` with `None` in a descending column that is
not of numbers, and a row between them in the blocks. -/
def NoClash (C : SortColumns R V F) (quantiles : ℕ → ℕ → List ℕ) (key : SortKey V) (numReducers : ℕ)
    (blocks samples : List (List R)) : Prop :=
  ∀ x ∈ samples.flatten, ∀ y ∈ samples.flatten,
    IsAtOne C key samples.flatten (quantiles samples.flatten.length numReducers).tail.dropLast x →
    IsAtOne C key samples.flatten (quantiles samples.flatten.length numReducers).tail.dropLast y →
    ∀ r ∈ blocks.flatten, ¬ C.NoneClash (key.descending.head? == some true)
      key.directed x y r

variable {C : SortColumns R V F} {key : SortKey V} {numReducers : ℕ} {blocks samples : List (List R)}
  {nullOrder : ℕ → List (List (NumpyValue V F)) → List (List (NumpyValue V F))}
  {quantiles : ℕ → ℕ → List ℕ}

/-! ### Nested boundaries are right -/

theorem partitionsRight_of_nested {boundaries : List (Option (List (NumpyValue V F)))}
    {desireds : List (List (PyValue V))} (hsorted : ∀ block ∈ blocks,
    C.Sorted key.directed block)
    (hstand : C.Stand key blocks.flatten boundaries desireds)
    (hnested : Nested (desireds.map (C.cut key)) blocks.flatten) :
    PartitionsRight C key blocks boundaries := by
  have hsub : ∀ block ∈ blocks, block ⊆ blocks.flatten :=
    fun block hblock r hr => List.mem_flatten.mpr ⟨block, hblock, hr⟩
  have hnested' : ∀ block ∈ blocks, Nested (desireds.map (C.cut key)) block :=
    fun block hblock => hnested.imp (fun h a ha => h a (hsub block hblock ha))
  have hparts : ∀ block ∈ blocks, partitionSorted C block boundaries key =
    .ok (ranges (desireds.map (C.cut key)) block) :=
    fun block hblock => SortColumns.partitionSorted_eq hstand (hsub block hblock) (hsorted block hblock)
  refine ⟨fun block hblock _ => ⟨_, SortColumns.partitionIndices_eq hstand (hsub block hblock)
    (hsorted block hblock), ?_⟩,
    fun block hblock => ⟨_, hparts block hblock, ranges_perm (hnested' block hblock)⟩, ?_⟩
  · rw [List.pairwise_map]
    exact (hnested' block hblock).imp (fun h => List.countP_mono_left h)
  · intro block hblock block' hblock' parts parts' hrun hrun' j j' part part' hj hj' row hrow
      row' hrow' hkey
    rw [hparts block hblock] at hrun
    rw [hparts block' hblock'] at hrun'
    cases hrun
    cases hrun'
    rw [index_eq_countP (hnested' block hblock) hj hrow,
    index_eq_countP (hnested' block' hblock') hj' hrow']
    refine List.countP_congr (fun p hp => ?_)
    obtain ⟨desired, -, rfl⟩ := List.mem_map.mp hp
    have hsame : C.cut key desired row = C.cut key desired row' := by
      rw [Bool.eq_iff_iff]
      exact ⟨SortColumns.before_of_le hkey.ge, SortColumns.before_of_le hkey.le⟩
    rw [hsame]

variable {sorted : List R}

/-- An element of a sorted list is behind the smaller ones, and before the greater ones. -/
theorem countP_of_getElem? {K : Type} [LinearOrder K] {f : R → K}
    (hpairs : sorted.Pairwise (fun s s' => f s ≤ f s')) {i : ℕ} {x : R} (hx : sorted[i]? = some x) :
    sorted.countP (fun z => decide (f z < f x)) ≤ i ∧
    i < sorted.countP (fun z => decide (f z ≤ f x)) := by
  obtain ⟨hi, rfl⟩ := List.getElem?_eq_some_iff.mp hx
  have htake : ∀ z ∈ sorted.take i, f z ≤ f sorted[i] := by
    intro z hz
    obtain ⟨j, hj, rfl⟩ := List.mem_take_iff_getElem.mp hz
    exact List.pairwise_iff_getElem.mp hpairs j i (by omega) hi (by omega)
  have hdrop : ∀ z ∈ sorted.drop i, f sorted[i] ≤ f z := by
    rw [List.drop_eq_getElem_cons hi, List.forall_mem_cons]
    have hpairs' := hpairs.sublist (List.drop_sublist i sorted)
    rw [List.drop_eq_getElem_cons hi, List.pairwise_cons] at hpairs'
    exact ⟨le_rfl, hpairs'.1⟩
  have hsplit : ∀ p : R →
    Bool, sorted.countP p = (sorted.take i).countP p + (sorted.drop i).countP p := by
    intro p
    rw [← List.countP_append, List.take_append_drop]
  have hlength : (sorted.take i).length = i := List.length_take_of_le hi.le
  constructor
  · rw [hsplit, List.countP_eq_zero (l := sorted.drop i) |>.mpr
      (fun z hz => by rw [decide_eq_true_eq]; exact (hdrop z hz).not_gt)]
    exact List.countP_le_length.trans hlength.le
  · rw [hsplit, List.countP_eq_length.mpr (fun z hz => decide_eq_true (htake z hz)), hlength,
      List.drop_eq_getElem_cons hi,
      List.countP_cons_of_pos (p := fun z => decide (f z ≤ f sorted[i])) (decide_eq_true le_rfl)]
    omega

/-- What can be at a position of a sorted list has the key of what is there. -/
theorem eq_of_countP {K : Type} [LinearOrder K] {f : R → K}
    (hpairs : sorted.Pairwise (fun s s' => f s ≤ f s')) {i : ℕ} {x : R}
    (hle : sorted.countP (fun z => decide (f z < f x)) ≤ i)
    (hlt : i < sorted.countP (fun z => decide (f z ≤ f x))) :
    ∃ x', sorted[i]? = some x' ∧ f x' = f x := by
  have hi : i < sorted.length := hlt.trans_le List.countP_le_length
  have hat := countP_of_getElem? hpairs (List.getElem?_eq_getElem hi)
  refine ⟨sorted[i], List.getElem?_eq_getElem hi, le_antisymm ?_ ?_⟩
  · by_contra hgt
    rw [not_le] at hgt
    have hmono : sorted.countP (fun z => decide (f z ≤ f x)) ≤ sorted.countP
      (fun z => decide (f z < f sorted[i])) :=
      List.countP_mono_left (fun z _ hz => decide_eq_true ((of_decide_eq_true hz).trans_lt hgt))
    omega
  · by_contra hgt
    rw [not_le] at hgt
    have hmono : sorted.countP (fun z => decide (f z ≤ f sorted[i])) ≤ sorted.countP
      (fun z => decide (f z < f x)) :=
      List.countP_mono_left (fun z _ hz => decide_eq_true ((of_decide_eq_true hz).trans_lt hgt))
    omega

omit [LinearOrder F] in
/-- Boundaries in the order of the samples are nested, if nothing clashes. -/
theorem nested_of_noClash (hquantiles : IsQuantiles quantiles)
    (hclash : NoClash C quantiles key numReducers blocks samples) (hperm : sorted.Perm samples.flatten)
    (hpairs : sorted.Pairwise (fun s s' => C.sampleKey key.directed s ≤
      C.sampleKey key.directed s')) :
    Nested (((gather sorted (quantiles sorted.length numReducers).tail.dropLast).map
      (C.cells key.directed)).map (C.cut key)) blocks.flatten := by
  have hbounds : (gather sorted (quantiles sorted.length numReducers).tail.dropLast).Pairwise
    (fun s s' =>
      C.sampleKey key.directed s ≤ C.sampleKey key.directed s') :=
    SortColumns.pairwise_gather (r := fun s s' => C.sampleKey key.directed s ≤
      C.sampleKey key.directed s') (fun _ => le_rfl) hpairs (hquantiles.inner _ _)
  have hat : ∀ x ∈ gather sorted (quantiles sorted.length numReducers).tail.dropLast,
    x ∈ samples.flatten ∧
      IsAtOne C key samples.flatten (quantiles samples.flatten.length numReducers).tail.dropLast x := by
    intro x hx
    obtain ⟨i, hi, hxi⟩ := List.mem_filterMap.mp hx
    refine ⟨hperm.subset (List.mem_of_getElem? hxi), i, by rwa [← hperm.length_eq], ?_⟩
    rw [← hperm.countP_eq, ← hperm.countP_eq]
    exact countP_of_getElem? hpairs hxi
  unfold Nested
  rw [List.map_map, List.pairwise_map]
  refine hbounds.imp_of_mem (fun {x y} hx hy hle r hr hbefore => ?_)
  by_contra hnot
  rw [Bool.not_eq_true] at hnot
  exact hclash x (hat x hx).1 y (hat y hy).1 (hat x hx).2 (hat y hy).2 r hr
    (SortColumns.before_mono hle hbefore hnot)

theorem partitionsRight_of_no_rows (hrows : blocks.flatten = [])
    (boundaries : List (Option (List (NumpyValue V F)))) :
    PartitionsRight C key blocks boundaries := by
  have hnil : ∀ block ∈ blocks, block = [] := List.flatten_eq_nil_iff.mp hrows
  refine ⟨fun block hblock hne => absurd (hnil block hblock) hne, fun block hblock => ?_, ?_⟩
  · rw [hnil block hblock]
    refine ⟨List.replicate (boundaries.length + 1) [], rfl, ?_⟩
    rw [List.flatten_replicate_nil]
  · intro block hblock block' hblock' parts parts' hrun hrun' j j' part part' hj hj' row hrow
    rw [hnil block hblock] at hrun
    cases hrun
    obtain ⟨-, rfl⟩ := List.mem_replicate.mp (List.mem_of_getElem? hj)
    cases hrow

/-- Enough: sampling works, and nothing clashes. -/
theorem keepsRows_of_noClash
    (hsorted : ∀ block ∈ blocks, C.Sorted key.directed block)
    (hexact : C.ExactFloats key.directed blocks.flatten)
    (hnull : NullOrder nullOrder)
    (hquantiles : IsQuantiles quantiles)
    (hsamples : List.Forall₂ (IsSample (nSamples numReducers blocks)) blocks samples)
    (hworks : SamplingWorks key numReducers (blocks.map (fun _ => .arrow)) blocks)
    (hclash : NoClash C quantiles key numReducers blocks samples) :
    KeepsRows C nullOrder quantiles key numReducers blocks samples := by
  obtain ⟨n, hrun, -, hrows | rfl⟩ | ⟨sorted, hperm, hpairs, hrun⟩ :=
    boundaries_of_samplingWorks hnull hquantiles hexact hsamples hworks
  · exact ⟨_, hrun, partitionsRight_of_no_rows hrows _⟩
  · have hstand : C.Stand key blocks.flatten [] [] := List.Forall₂.nil
    exact ⟨_, hrun, partitionsRight_of_nested hsorted hstand List.Pairwise.nil⟩
  · have hbounds : gather sorted (quantiles sorted.length numReducers).tail.dropLast ⊆
      samples.flatten := by
      intro s hs
      obtain ⟨i, -, hi⟩ := List.mem_filterMap.mp hs
      exact hperm.subset (List.mem_of_getElem? hi)
    exact ⟨_, hrun, partitionsRight_of_nested hsorted
      (SortColumns.stand_samples hexact (samples_subperm hsamples).subset hbounds)
      (nested_of_noClash hquantiles hclash hperm hpairs)⟩

/-! ### Samples that clash -/

omit [LinearOrder F] in
theorem before_congr {last : Bool} {cols : List (String × Bool)} {x y : R}
    (h : C.sampleKey cols x = C.sampleKey cols y)
    (r : R) : C.before last cols (C.cells cols x) r = C.before last cols (C.cells cols y) r := by
  have hle : ∀ x y : R, C.sampleKey cols x = C.sampleKey cols y →
    C.before last cols (C.cells cols x) r = true →
      C.before last cols (C.cells cols y) r = true := by
    intro x y hxy hx
    by_contra hy
    rw [Bool.not_eq_true] at hy
    have hlt := (SortColumns.before_mono hxy.le hx hy).cuts.1
    rw [hxy] at hlt
    exact lt_irrefl _ hlt
  rw [Bool.eq_iff_iff]
  exact ⟨hle x y h, hle y x h.symm⟩

/-- In an ordered list, the elements at two positions are related as the positions are. -/
theorem pairwise_of_mem {p : ℕ → ℕ → Prop} {order : List ℕ} (horder : order.Pairwise (· ≤ ·))
    (hp : order.Pairwise p)
    {i j : ℕ} (hi : i ∈ order) (hj : j ∈ order) (hij : i < j) : p i j := by
  obtain ⟨a, ha, rfl⟩ := List.mem_iff_getElem.mp hi
  obtain ⟨b, hb, rfl⟩ := List.mem_iff_getElem.mp hj
  obtain hab | rfl | hba := lt_trichotomy a b
  · exact List.pairwise_iff_getElem.mp hp a b ha hb hab
  · exact absurd hij (lt_irrefl _)
  · have hle := List.pairwise_iff_getElem.mp horder b a hb ha hba
    omega

theorem samplingWorks_of_keepsRows
    (hsamples : List.Forall₂ (IsSample (nSamples numReducers blocks)) blocks samples)
    (h : KeepsRows C nullOrder quantiles key numReducers blocks samples) :
    SamplingWorks key numReducers (blocks.map (fun _ => .arrow)) blocks := by
  obtain ⟨boundaries, hrun, hright⟩ := h
  refine samplingWorks_of_eq_ok hsamples hrun (fun block hblock hne => ?_)
  obtain ⟨parts, hparts, -⟩ := hright.all_rows block hblock
  exact ⟨block, parts, hne, hparts⟩

/-- Needed: of two boundaries that clash the later one cuts before the earlier one. -/
theorem noClash_of_keepsRows (hsorted : ∀ block ∈ blocks,
    C.Sorted key.directed block)
    (hexact : C.ExactFloats key.directed blocks.flatten)
    (hnull : NullOrder nullOrder)
    (hquantiles : IsQuantiles quantiles)
    (hsamples : List.Forall₂ (IsSample (nSamples numReducers blocks)) blocks samples)
    (h : KeepsRows C nullOrder quantiles key numReducers blocks samples) :
    NoClash C quantiles key numReducers blocks samples := by
  rintro x hx y hy ⟨i, hi, hxi⟩ ⟨j, hj, hyj⟩ r hr hclash
  have hworks := samplingWorks_of_keepsRows hsamples h
  obtain ⟨boundaries, hrun, hright⟩ := h
  obtain ⟨n, -, hnil, -⟩ | ⟨sorted, hperm, hpairs, hrun'⟩ :=
    boundaries_of_samplingWorks hnull hquantiles hexact hsamples hworks
  · rw [hnil] at hx
    cases hx
  rw [hrun] at hrun'
  cases hrun'
  have hbounds : gather sorted (quantiles sorted.length numReducers).tail.dropLast ⊆
    samples.flatten := by
    intro s hs
    obtain ⟨i, -, hi⟩ := List.mem_filterMap.mp hs
    exact hperm.subset (List.mem_of_getElem? hi)
  -- The boundaries at the two positions.
  rw [← hperm.countP_eq, ← hperm.countP_eq] at hxi hyj
  rw [← hperm.length_eq] at hi hj
  obtain ⟨x', hxi, hxx'⟩ := eq_of_countP hpairs hxi.1 hxi.2
  obtain ⟨y', hyj, hyy'⟩ := eq_of_countP hpairs hyj.1 hyj.2
  obtain ⟨hlt, hbefore, hnot⟩ := hclash.cuts
  rw [← hxx', ← hyy'] at hlt
  rw [before_congr hxx'.symm] at hbefore
  rw [before_congr hyy'.symm] at hnot
  have hij : i < j := by
    obtain ⟨hil, rfl⟩ := List.getElem?_eq_some_iff.mp hxi
    obtain ⟨hjl, rfl⟩ := List.getElem?_eq_some_iff.mp hyj
    obtain hij | rfl | hji := lt_trichotomy i j
    · exact hij
    · exact absurd hlt (lt_irrefl _)
    · exact absurd (List.pairwise_iff_getElem.mp hpairs j i hjl hil hji) hlt.not_ge
  obtain ⟨block, hblock, hr⟩ := List.mem_flatten.mp hr
  obtain ⟨indices, hindices, hle⟩ := hright.nondecreasing block hblock (List.ne_nil_of_mem hr)
  rw [SortColumns.partitionIndices_eq
    (SortColumns.stand_samples hexact (samples_subperm hsamples).subset hbounds)
    (fun r hr => List.mem_flatten.mpr ⟨block, hblock, hr⟩) (hsorted block hblock)] at hindices
  cases hindices
  rw [List.pairwise_map, List.pairwise_map, List.pairwise_map] at hle
  have hcounts := pairwise_of_mem (hquantiles.inner _ _) (List.pairwise_filterMap.mp hle) hi hj hij
    x' hxi y' hyj
  have hafter := Front.of_countP_le (SortColumns.front_before (hsorted block hblock) _)
    (SortColumns.front_before (hsorted block hblock) _) hcounts r hr hbefore
  rw [hnot] at hafter
  cases hafter

/-! ### When partitions are right -/

/-- Sorted blocks keep their rows if and only if sampling works and no boundaries clash. -/
theorem keepsRows_iff (hsorted : ∀ block ∈ blocks, C.Sorted key.directed block)
    (hexact : C.ExactFloats key.directed blocks.flatten)
    (hnull : NullOrder nullOrder)
    (hquantiles : IsQuantiles quantiles)
    (hsamples : List.Forall₂ (IsSample (nSamples numReducers blocks)) blocks samples) :
    KeepsRows C nullOrder quantiles key numReducers blocks samples ↔
      SamplingWorks key numReducers (blocks.map (fun _ => .arrow)) blocks ∧
        NoClash C quantiles key numReducers blocks samples := by
  constructor
  · intro h
    exact ⟨samplingWorks_of_keepsRows hsamples h,
      noClash_of_keepsRows hsorted hexact hnull hquantiles hsamples h⟩
  · rintro ⟨hworks, hclash⟩
    exact keepsRows_of_noClash hsorted hexact hnull hquantiles hsamples hworks hclash

/-- A column of numbers with nulls. -/
def nullableNumbers : SortColumns (PyValue ℤ) ℤ ℤ where
  cell row _ := row
  isNumber _ := true
  asFloat v := v
  isNumber_of_nan _ _ _ := rfl

/-- Numbers with nulls in descending order. -/
theorem keepsRows_numbers :
    KeepsRows nullableNumbers
      (fun i samples => samples.filter (fun sample => (itemAt i sample).isNa)) exactQuantiles
      (numberKey true) 2 [[.val 2, .nan, .none], [.val 1, .none]]
      [[.none, .val 2, .nan], [.val 1, .none]] := by
  have hsorted : ∀ block ∈ [[PyValue.val (2 : ℤ), .nan, .none], [.val 1, .none]],
      nullableNumbers.Sorted ((numberKey true).columns.zip (numberKey true).descending) block := by
    intro block hblock
    simp only [List.mem_cons, List.not_mem_nil, or_false] at hblock
    unfold SortColumns.Sorted
    obtain rfl | rfl := hblock
    · decide
    · decide
  have hexact : nullableNumbers.ExactFloats ((numberKey true).columns.zip (numberKey true).descending)
      [[PyValue.val (2 : ℤ), .nan, .none], [.val 1, .none]].flatten :=
    fun _ _ _ _ _ _ _ _ _ _ _ _ hlt => hlt
  have hclash : NoClash nullableNumbers exactQuantiles (numberKey true) 2
      [[PyValue.val (2 : ℤ), .nan, .none], [.val 1, .none]]
      [[.none, .val 2, .nan], [.val 1, .none]] := by
    rintro x hx y hy - - r hr (⟨-, hnumber, -⟩ | ⟨-, h⟩)
    · cases hnumber
    · exact h.elim
  refine (keepsRows_iff hsorted hexact nullOrder_filter isQuantiles_exactQuantiles ?_).mpr
    ⟨⟨by decide, .inr (.inr ⟨by decide, by decide, by decide⟩)⟩, hclash⟩
  have hperm : [PyValue.none, PyValue.val (2 : ℤ), PyValue.nan].Perm [.val 2, .nan, .none] := by decide
  exact List.Forall₂.cons ⟨hperm.subperm, rfl⟩
    (List.Forall₂.cons ⟨List.Subperm.refl _, rfl⟩ List.Forall₂.nil)

/-- A column of strings with `None`. -/
def nullableStrings : SortColumns (Option String) String ℤ where
  cell row _ := match row with
    | some s => .val s
    | none => .none
  isNumber _ := false
  asFloat _ := 0
  isNumber_of_nan row _ h := by cases row <;> cases h

/-- The sort key of that column, in descending order. -/
def stringKey : SortKey String where
  columns := ["k"]
  descending := [true]
  boundaries := []
  length_descending := rfl
  boundaries_lt := List.Pairwise.nil

/-- `None` first in the order of the samples, but found behind the values. -/
theorem not_keepsRows_none :
    (∀ block ∈ [[some "b", some "a", none]],
        nullableStrings.Sorted (stringKey.columns.zip stringKey.descending) block) ∧
      List.Forall₂ (IsSample (nSamples 3 [[some "b", some "a", none]])) [[some "b", some "a", none]]
        [[some "b", some "a", none]] ∧
      ¬ KeepsRows nullableStrings
        (fun i samples => samples.filter (fun sample => (itemAt i sample).isNa))
        exactQuantiles stringKey 3 [[some "b", some "a", none]] [[some "b", some "a", none]] := by
  have hsorted : nullableStrings.Sorted (stringKey.columns.zip stringKey.descending)
    [some "b", some "a", none] := by
    unfold SortColumns.Sorted
    decide +kernel
  refine ⟨List.forall_mem_singleton.mpr hsorted,
    List.Forall₂.cons ⟨List.Subperm.refl _, rfl⟩ List.Forall₂.nil, ?_⟩
  rintro ⟨boundaries, hrun, hright⟩
  have hbounds : sampleBoundaries nullableStrings
    (fun i samples => samples.filter (fun sample => (itemAt i sample).isNa))
      exactQuantiles stringKey 3 [.arrow] [[some "b", some "a", none]]
        [[some "b", some "a", none]] = .ok [some [.none], some [.value "b"]] := by
    decide +kernel
  rw [List.map_singleton, hbounds] at hrun
  obtain rfl := Except.ok.inj hrun
  obtain ⟨indices, hindices, hle⟩ := hright.nondecreasing _ List.mem_cons_self (by decide)
  have hpositions : partitionIndices nullableStrings [some "b", some "a", none]
    [some [.none], some [.value "b"]]
      stringKey = .ok [2, 1] := by
    decide +kernel
  rw [hpositions] at hindices
  obtain rfl := Except.ok.inj hindices
  revert hle
  decide

end RayTfm.Data
