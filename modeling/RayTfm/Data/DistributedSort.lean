import RayTfm.Data.SortedSamples

/-! # Distributed sort of rows without nulls

Sorted blocks that are cut at the same boundaries, with what they have of each partition merged,
give the rows in order (`sortedOutputs_of_cuts`).  Boundaries of the user always do, sampled ones if
sampling gets them (`SamplingWorks`): where `sample_boundaries` asks for no rows of a block, Arrow
raises, and without samples it gives `None` for each boundary, on which `find_partition_index`
raises (`sortBlocks_iff`). -/

namespace RayTfm.Data

variable {R V F : Type} [LinearOrder V] [LinearOrder F]

/-! ### What is asked for -/

/-- No key of a row is null. -/
def NullFree (C : SortColumns R V F) (key : SortKey V) (blocks : List (List R)) : Prop :=
  ∀ row ∈ blocks.flatten, ∀ col ∈ key.columns, ∃ v, C.cell row col = .val v

/-- Arrow and Pandas sort a block, with the nulls last. -/
structure Sorts (C : SortColumns R V F) (key : SortKey V) (sort : List R → List R) : Prop where
  perm : ∀ block, (sort block).Perm block
  sorted : ∀ block, C.Sorted key.directed (sort block)

/-- The outputs, one after the other, are the sorted rows. -/
structure SortedOutputs (C : SortColumns R V F) (key : SortKey V) (blocks outputs : List (List R)) :
    Prop where
  sorted : C.Sorted key.directed outputs.flatten
  perm : outputs.flatten.Perm blocks.flatten

/-- Sampling gives boundaries: there are no rows; or no boundaries are needed, and Arrow is not
asked for no rows; or rows are sampled, all of one format. -/
def SamplingWorks (key : SortKey V) (numReducers : ℕ) (formats : List BlockFormat)
    (blocks : List (List R)) : Prop :=
  blocks ≠ [] ∧ (blocks.flatten = [] ∨
    (numReducers * 10 < blocks.length ∧ numReducers ≤ 1 ∧ .arrow ∉ formatsWithRows formats blocks) ∨
    (blocks.length ≤ numReducers * 10 ∧ key.columns.Nodup ∧
      (formatsWithRows formats blocks).Pairwise (· = ·)))

namespace SortColumns
variable {C : SortColumns R V F} {key : SortKey V} {rows : List R}

/-! ### Cutting at boundaries -/

/-- Boundaries and the cells that they stand for. -/
def Stand (C : SortColumns R V F) (key : SortKey V) (rows : List R) :
    List (Option (List (NumpyValue V F))) → List (List (PyValue V)) → Prop :=
  List.Forall₂ (fun boundary desired => ∃ ds, boundary = some ds ∧
    List.Forall₂ (fun c b => C.Matches rows c.1.1 c.2 b)
      (key.directed.zip ds) desired)

/-- The rows before a boundary. -/
def cut (C : SortColumns R V F) (key : SortKey V) (desired : List (PyValue V)) : R → Bool :=
  C.before (key.descending.head? == some true) key.directed desired

variable {boundaries : List (Option (List (NumpyValue V F)))} {desireds : List (List (PyValue V))}
  {table : List R}

theorem partitionIndices_eq (hstand : C.Stand key rows boundaries desireds) (htable : table ⊆ rows)
    (hsorted : C.Sorted key.directed table) :
    partitionIndices C table boundaries key =
      .ok ((desireds.map (C.cut key)).map (fun p => table.countP p)) := by
  unfold partitionIndices
  induction hstand with
  | nil => rfl
  | cons h _ ih =>
    obtain ⟨ds, rfl, hmatches⟩ := h
    rw [List.mapM_cons, ih]
    exact congrArg (fun i => Except.ok (i :: _)) (findPartitionIndex_eq_countP htable hmatches hsorted)

theorem ranges_nil (ps : List (R → Bool)) : ranges ps [] = List.replicate (ps.length + 1) [] := by
  refine List.eq_replicate_iff.mpr ⟨length_ranges ps [], fun part hpart => ?_⟩
  exact List.eq_nil_iff_forall_not_mem.mpr (fun a ha => (nomatch (mem_rangesFrom hpart ha)))

/-- The partitions of a sorted block are its rows between the boundaries. -/
theorem partitionSorted_eq (hstand : C.Stand key rows boundaries desireds) (htable : table ⊆ rows)
    (hsorted : C.Sorted key.directed table) :
    partitionSorted C table boundaries key = .ok (ranges (desireds.map (C.cut key)) table) := by
  have hlength : boundaries.length = desireds.length := hstand.length_eq
  unfold partitionSorted
  split_ifs with hnil hnone
  · rw [List.length_eq_zero_iff.mp hnil, ranges_nil, List.length_map, hlength]
  · rw [hnone, eq_comm, List.length_eq_zero_iff] at hlength
    rw [hlength]
    exact congrArg (fun part => Except.ok [part]) (List.filter_eq_self.mpr (fun _ _ => rfl)).symm
  · have hfronts : ∀ p ∈ desireds.map (C.cut key), Front p table := by
      rw [List.forall_mem_map]
      exact fun desired _ => front_before hsorted desired
    unfold findPartitionsSorted
    rw [partitionIndices_eq hstand htable hsorted, ok_bind, slicesAt_fronts hfronts]
    rfl

variable {blocks : List (List R)} {sort : List R → List R}

theorem mapM_partitionSorted (hstand : C.Stand key blocks.flatten boundaries desireds)
    (hsort : Sorts C key sort) :
    blocks.mapM (fun block => partitionSorted C (sort block) boundaries key) =
      .ok (blocks.map (fun block => ranges (desireds.map (C.cut key)) (sort block))) := by
  refine mapM_eq_ok (fun block hblock => partitionSorted_eq hstand (fun r hr => ?_)
    (hsort.sorted block))
  exact List.mem_flatten.mpr ⟨block, hblock, (hsort.perm block).mem_iff.mp hr⟩

omit [LinearOrder F] in
/-- Cutting all blocks at boundaries that cut one behind the other sorts the rows. -/
theorem sortedOutputs_of_cuts (hlength : boundaries.length = desireds.length)
    (hsort : Sorts C key sort) (hnested : Nested (desireds.map (C.cut key)) blocks.flatten) :
    SortedOutputs C key blocks ((List.range (boundaries.length + 1)).map (fun j =>
      sort ((blocks.map (fun block => ranges (desireds.map (C.cut key)) (sort block))).flatMap
        (fun part => (part[j]?).getD [])))) := by
  have hperm : (blocks.map sort).flatten.Perm blocks.flatten := by
    induction blocks with
    | nil => exact List.Perm.refl []
    | cons block blocks ih =>
      have hnested' : Nested (desireds.map (C.cut key)) blocks.flatten :=
        hnested.imp (fun h a ha => h a (List.mem_append_right _ ha))
      exact (hsort.perm block).append (ih hnested')
  have hnested' : Nested (desireds.map (C.cut key)) (blocks.map sort).flatten :=
    hnested.imp (fun h a ha => h a (hperm.mem_iff.mp ha))
  have hout : (List.range (boundaries.length + 1)).map (fun j =>
      sort ((blocks.map (fun block => ranges (desireds.map (C.cut key)) (sort block))).flatMap
        (fun part => (part[j]?).getD []))) =
      (ranges (desireds.map (C.cut key)) (blocks.map sort).flatten).map sort := by
    refine List.ext_getElem? (fun j => ?_)
    rw [List.getElem?_map, List.getElem?_map]
    by_cases hj : j < boundaries.length + 1
    · rw [List.getElem?_range hj,
        getElem?_ranges_flatten _ _ (by rw [List.length_map, ← hlength]; omega), Option.map_some,
        Option.map_some, List.flatMap_map, List.flatMap_map]
    · rw [List.getElem?_eq_none (by rw [List.length_range]; omega),
        List.getElem?_eq_none (by rw [length_ranges, List.length_map]; omega)]
      rfl
  rw [hout]
  constructor
  · refine pairwise_flatten_ranges (fun a b => le_total _ _) hsort.perm hsort.sorted hnested' ?_
    rw [List.forall_mem_map]
    exact fun desired _ a _ b _ hle => before_of_le hle
  · have hmerged : ((ranges (desireds.map (C.cut key)) (blocks.map sort).flatten).map sort).flatten.Perm
        (ranges (desireds.map (C.cut key)) (blocks.map sort).flatten).flatten := by
      generalize ranges (desireds.map (C.cut key)) (blocks.map sort).flatten = parts
      induction parts with
      | nil => exact List.Perm.refl []
      | cons part parts ih => exact (hsort.perm part).append ih
    exact (hmerged.trans (ranges_perm hnested')).trans hperm

/-! ### Boundaries of the user -/

theorem exists_first_column (hcols : key.columns ≠ []) :
    ∃ col desc rest, key.directed = (col, desc) :: rest ∧ key.descending.head? = some desc ∧
      col ∈ key.columns := by
  obtain ⟨col, cols, hcol⟩ := List.exists_cons_of_ne_nil hcols
  have hlength := key.length_descending
  cases hdesc : key.descending with
  | nil =>
    rw [hdesc, hcol] at hlength
    cases hlength
  | cons desc descs =>
    refine ⟨col, desc, cols.zip descs, ?_, rfl, ?_⟩
    · rw [SortKey.directed, hcol, hdesc]
      rfl
    · rw [hcol]
      exact .head _

theorem stand_userBoundaries (hfree : ∀ row ∈ rows, ∀ col ∈ key.columns, ∃ v, C.cell row col = .val v)
    (hcols : key.columns ≠ []) :
    C.Stand key rows (userBoundaries key)
      ((if key.descending.head? = some true then key.boundaries.reverse else key.boundaries).map
        (fun b => [.val b])) := by
  obtain ⟨col, desc, rest, hzip, -, hmem⟩ := exists_first_column hcols
  unfold userBoundaries Stand
  rw [List.forall₂_map_left_iff, List.forall₂_map_right_iff, List.forall₂_same]
  intro b _
  refine ⟨[.value b], rfl, ?_⟩
  rw [hzip, List.zip_cons_cons, List.zip_nil_right, List.forall₂_cons]
  refine ⟨matches_value (fun r hr hnone => ?_) b, List.Forall₂.nil⟩
  obtain ⟨v, hv⟩ := hfree r hr col hmem
  rw [hnone] at hv
  cases hv

omit [LinearOrder F] in
/-- In the direction of the first column a boundary of the user cuts behind the ones before it. -/
theorem nested_userBoundaries (hcols : key.columns ≠ []) (rows : List R) :
    Nested (((if key.descending.head? = some true then key.boundaries.reverse else key.boundaries).map
      (fun b => [PyValue.val b])).map (C.cut key)) rows := by
  obtain ⟨col, desc, rest, hzip, hhead, -⟩ := exists_first_column hcols
  unfold Nested cut
  rw [List.map_map, List.pairwise_map, hzip, hhead]
  have hdirected : (if some desc = some true then key.boundaries.reverse else key.boundaries).Pairwise
      (fun b b' => directed desc b < directed desc b') := by
    simp only [directed_lt]
    cases desc with
    | false => exact key.boundaries_lt
    | true => exact List.pairwise_reverse.mpr key.boundaries_lt
  refine hdirected.imp (fun {b b'} hlt r _ hb => ?_)
  rw [Function.comp_apply] at hb ⊢
  obtain hnull | ⟨w, hw⟩ := isNull_cases (C.cell r col)
  · rw [before_of_row_null hnull] at hb
    cases hb
  · rw [before_val hw] at hb ⊢
    have hwb : directed desc w < directed desc b' := by
      by_cases heq : w = b
      · rw [heq]
        exact hlt
      · rw [if_neg heq, decide_eq_true_eq] at hb
        exact hb.trans hlt
    have hne : w ≠ b' := fun heq => hwb.ne (congrArg _ heq)
    rw [if_neg hne]
    exact decide_eq_true hwb

/-! ### Sampled boundaries -/

theorem stand_samples (hexact : C.ExactFloats key.directed rows)
    (htable : table ⊆ rows) {bounds : List R} (hbounds : bounds ⊆ table) :
    C.Stand key rows (bounds.map (fun s => some (C.tuple table key.columns s)))
      (bounds.map (C.cells key.directed)) := by
  unfold Stand
  rw [List.forall₂_map_left_iff, List.forall₂_map_right_iff, List.forall₂_same]
  intro s hs
  refine ⟨_, rfl, ?_⟩
  have htuple : ∀ (cols : List String) (descs : List Bool), descs.length = cols.length →
      cols.zip descs ⊆ key.directed →
      List.Forall₂ (fun c b => C.Matches rows c.1.1 c.2 b) ((cols.zip descs).zip (C.tuple table cols s))
        (C.cells (cols.zip descs) s) := by
    intro cols
    induction cols with
    | nil => exact fun _ _ _ => List.Forall₂.nil
    | cons col cols ih =>
      intro descs hlength hsub
      cases descs with
      | nil => cases hlength
      | cons desc descs =>
        rw [List.zip_cons_cons, List.cons_subset] at hsub
        exact List.Forall₂.cons (matches_toNumpy hexact hsub.1 htable (hbounds hs))
          (ih descs (Nat.succ.inj hlength) hsub.2)
  exact htuple _ _ key.length_descending (List.Subset.refl _)

omit [LinearOrder F] in
/-- Without nulls a boundary cuts behind the samples that are before it in the order. -/
theorem nested_samples (hfree : ∀ row ∈ rows, ∀ col ∈ key.columns, ∃ v, C.cell row col = .val v)
    {bounds : List R}
    (hbounds : bounds ⊆ rows) (hsorted : bounds.Pairwise (fun s s' =>
      C.sampleKey key.directed s ≤ C.sampleKey key.directed s')) :
    Nested ((bounds.map (C.cells key.directed)).map (C.cut key)) rows := by
  unfold Nested
  rw [List.map_map, List.pairwise_map]
  refine hsorted.imp_of_mem (fun {s s'} hs _ hle r _ hbefore => ?_)
  by_contra hnot
  rw [Bool.not_eq_true] at hnot
  have hclash := before_mono hle hbefore hnot
  have hnone : ∀ cols : List (String × Bool),
    C.NoneClash (key.descending.head? == some true) cols s s' r →
      ∃ c ∈ cols, C.cell s c.1 = .none := by
    intro cols
    induction cols with
    | nil => exact fun h => h.elim
    | cons c cols ih =>
      rintro (⟨-, -, hnone, -⟩ | ⟨-, h⟩)
      · exact ⟨c, .head _, hnone⟩
      · obtain ⟨c', hc', hnone⟩ := ih h
        exact ⟨c', .tail _ hc', hnone⟩
  obtain ⟨c, hc, hnone⟩ := hnone _ hclash
  obtain ⟨v, hv⟩ := hfree s (hbounds hs) c.1 (List.of_mem_zip hc).1
  rw [hnone] at hv
  cases hv

end SortColumns

/-! ### Outcomes of sampling -/

section sampling
variable {C : SortColumns R V F} {key : SortKey V} {numReducers : ℕ} {formats : List BlockFormat}
  {blocks samples : List (List R)}
  {nullOrder : ℕ → List (List (NumpyValue V F)) → List (List (NumpyValue V F))}
  {quantiles : ℕ → ℕ → List ℕ}

variable {n : ℕ}

theorem samples_subperm (h : List.Forall₂ (IsSample n) blocks samples) :
    samples.flatten.Subperm blocks.flatten := by
  induction h with
  | nil => exact List.nil_subperm
  | cons h _ ih => exact h.subperm.append ih

theorem IsSample.eq_nil_iff {block sample : List R} (h : IsSample n block sample) :
    sample = [] ↔ n = 0 ∨ block = [] := by
  rw [← List.length_eq_zero_iff, h.length_eq, ← List.length_eq_zero_iff (l := block)]
  omega

theorem samples_eq_nil_iff (h : List.Forall₂ (IsSample n) blocks samples) :
    samples.flatten = [] ↔ n = 0 ∨ blocks.flatten = [] := by
  induction h with
  | nil => simp
  | cons h _ ih =>
    rw [List.flatten_cons, List.flatten_cons, List.append_eq_nil_iff, List.append_eq_nil_iff, ih,
      h.eq_nil_iff]
    tauto

/-- Samples have the formats of the blocks with rows. -/
theorem formatsWithRows_samples (h : List.Forall₂ (IsSample n) blocks samples) (hn : n ≠ 0)
    (formats : List BlockFormat) : formatsWithRows formats samples =
      formatsWithRows formats blocks := by
  induction h generalizing formats with
  | nil => rfl
  | cons h _ ih =>
    rename_i block sample blocks samples _
    cases formats with
    | nil => rfl
    | cons f formats =>
      have hsample : sample.length ≠ 0 ↔ block.length ≠ 0 := by
        rw [ne_eq, ne_eq, List.length_eq_zero_iff, List.length_eq_zero_iff, h.eq_nil_iff]
        tauto
      have hrest := ih formats
      unfold formatsWithRows at hrest ⊢
      simp only [List.zip_cons_cons, List.filter_cons, hsample]
      split_ifs
      · rw [List.map_cons, List.map_cons, hrest]
      · exact hrest

theorem formatsWithRows_eq_nil (hrows : blocks.flatten = []) : formatsWithRows formats blocks = [] := by
  unfold formatsWithRows
  rw [List.map_eq_nil_iff, List.filter_eq_nil_iff]
  rintro ⟨f, block⟩ hb
  simp [List.flatten_eq_nil_iff.mp hrows block (List.of_mem_zip hb).2]

theorem nSamples_eq_zero_iff (hblocks : blocks ≠ []) :
    nSamples numReducers blocks = 0 ↔ numReducers * 10 < blocks.length := by
  unfold nSamples
  rw [Nat.div_eq_zero_iff]
  have hlength := List.length_pos_iff.mpr hblocks
  omega

theorem sampleBoundaries_of_no_samples (hblocks : blocks ≠ [])
    (harrow : nSamples numReducers blocks = 0 → .arrow ∉ formatsWithRows formats blocks)
    (hnil : samples.flatten = []) :
    sampleBoundaries C nullOrder quantiles key numReducers formats blocks samples =
      .ok (List.replicate (numReducers - 1) none) := by
  unfold sampleBoundaries
  rw [if_neg (List.length_eq_zero_iff.not.mpr hblocks), if_neg (fun h => harrow h.1 h.2),
    if_pos (List.length_eq_zero_iff.mpr hnil)]

/-- A column that is named twice is one array, so the tuples are too short. -/
theorem sortSamples_of_not_nodup (hnodup : ¬ key.columns.Nodup) (hne : samples.flatten ≠ []) :
    sortSamples nullOrder key (samplesList C key samples.flatten) = .error .indexError := by
  have hshort : key.columns.reverse.dedup.reverse.length < key.columns.length := by
    have hreverse : key.columns.reverse.length = key.columns.length := List.length_reverse
    rw [List.length_reverse, ← hreverse]
    refine lt_of_le_of_ne (List.dedup_sublist _).length_le (fun heq => hnodup ?_)
    have hdedup := (List.dedup_sublist key.columns.reverse).eq_of_length heq
    rw [← List.nodup_reverse, ← hdedup]
    exact List.nodup_dedup _
  -- The first pass is over the last column.
  have hlength := key.length_descending
  obtain hdesc | ⟨descs, desc, hdesc⟩ := List.eq_nil_or_concat' key.descending
  · rw [hdesc, List.length_nil] at hlength
    omega
  · rw [hdesc, List.length_append, List.length_singleton] at hlength
    have hpass : sortPass nullOrder desc descs.length (samplesList C key samples.flatten) =
      .error .indexError := by
      unfold sortPass samplesList
      obtain ⟨row, hrow⟩ := List.exists_mem_of_ne_nil _ hne
      rw [if_pos]
      refine List.any_eq_true.mpr ⟨_, List.mem_map_of_mem hrow, decide_eq_true ?_⟩
      rw [List.length_map]
      omega
    unfold sortSamples
    rw [hdesc, List.zipIdx_append, List.reverse_append]
    show (do let passed ← sortPass nullOrder desc (0 + descs.length) _; _) = _
    rw [Nat.zero_add, hpass]
    rfl

/-- What it takes for samples with rows to give boundaries. -/
theorem of_sampleBoundaries_eq_ok {boundaries : List (Option (List (NumpyValue V F)))}
    (hne : samples.flatten ≠ [])
    (h : sampleBoundaries C nullOrder quantiles key numReducers formats blocks samples =
      .ok boundaries) :
    key.columns.Nodup ∧ (formatsWithRows formats samples).Pairwise (· = ·) := by
  unfold sampleBoundaries at h
  rw [if_neg (List.length_eq_zero_iff.not.mpr hne)] at h
  split_ifs at h
  obtain ⟨_, hformats, h⟩ := bind_eq_ok.mp h
  refine ⟨?_, of_decide_eq_true (pyAssert_eq_ok.mp hformats)⟩
  by_contra hnodup
  rw [sortSamples_of_not_nodup hnodup hne] at h
  cases h

theorem partitionSorted_of_none {table : List R} (htable : table ≠ []) (hn : n ≠ 0) :
    partitionSorted C table (List.replicate n none) key = .error .typeError := by
  obtain ⟨n, rfl⟩ := Nat.exists_eq_succ_of_ne_zero hn
  unfold partitionSorted
  rw [if_neg (List.length_eq_zero_iff.not.mpr htable), if_neg (by rw [List.length_replicate]; omega)]
  rfl

/-- Where sampling works it gives rows of the samples, or `None`s, which do not matter then. -/
theorem boundaries_of_samplingWorks (hnull : NullOrder nullOrder) (hquantiles : IsQuantiles quantiles)
    (hexact : C.ExactFloats key.directed blocks.flatten)
    (hsamples : List.Forall₂ (IsSample (nSamples numReducers blocks)) blocks samples)
    (hworks : SamplingWorks key numReducers formats blocks) :
    (∃ n, sampleBoundaries C nullOrder quantiles key numReducers formats blocks samples =
      .ok (List.replicate n none) ∧ samples.flatten = [] ∧ (blocks.flatten = [] ∨ n = 0)) ∨
    ∃ sorted : List R, sorted.Perm samples.flatten ∧
      sorted.Pairwise (fun s s' => C.sampleKey key.directed s ≤
        C.sampleKey key.directed s') ∧
      sampleBoundaries C nullOrder quantiles key numReducers formats blocks samples =
        .ok ((gather sorted (quantiles sorted.length numReducers).tail.dropLast).map
          (fun s => some (C.tuple samples.flatten key.columns s))) := by
  obtain ⟨hblocks, hrows | ⟨hlt, hone, harrow⟩ | ⟨hle, hnodup, hformats⟩⟩ := hworks
  · have hnil := (samples_eq_nil_iff hsamples).mpr (.inr hrows)
    refine .inl ⟨_, sampleBoundaries_of_no_samples hblocks (fun _ => ?_) hnil, hnil, .inl hrows⟩
    rw [formatsWithRows_eq_nil hrows]
    exact List.not_mem_nil
  · have hnil := (samples_eq_nil_iff hsamples).mpr (.inl ((nSamples_eq_zero_iff hblocks).mpr hlt))
    exact .inl ⟨_, sampleBoundaries_of_no_samples hblocks (fun _ => harrow) hnil, hnil, .inr (by omega)⟩
  · have hzero : nSamples numReducers blocks ≠ 0 := by
      rw [ne_eq, nSamples_eq_zero_iff hblocks]
      omega
    by_cases hnil : samples.flatten = []
    · refine .inl ⟨_, sampleBoundaries_of_no_samples hblocks (fun h => absurd h hzero) hnil,
        hnil, .inl ?_⟩
      exact ((samples_eq_nil_iff hsamples).mp hnil).resolve_left hzero
    · rw [← formatsWithRows_samples hsamples hzero] at hformats
      exact .inr (SortColumns.exists_sampleBoundaries hnull hquantiles hnodup hexact numReducers
        hblocks hzero
        hformats (samples_subperm hsamples).subset hnil)

end sampling

/-! ### When the rows are sorted -/

section main
variable {C : SortColumns R V F} {key : SortKey V} {numReducers : ℕ} {formats : List BlockFormat}
  {blocks samples : List (List R)}
  {nullOrder : ℕ → List (List (NumpyValue V F)) → List (List (NumpyValue V F))}
  {quantiles : ℕ → ℕ → List ℕ} {sort : List R → List R}
  {boundaries : List (Option (List (NumpyValue V F)))}

theorem exists_sortedOutputs (hsort : Sorts C key sort)
    {desireds : List (List (PyValue V))} (hstand : C.Stand key blocks.flatten boundaries desireds)
    (hnested : Nested (desireds.map (C.cut key)) blocks.flatten)
    (hboundaries : sortBoundaries C nullOrder quantiles key numReducers formats blocks samples =
      .ok boundaries) :
    ∃ outputs, sortBlocks C sort nullOrder quantiles key numReducers formats blocks samples =
      .ok outputs ∧
      SortedOutputs C key blocks outputs := by
  refine ⟨_, ?_, SortColumns.sortedOutputs_of_cuts hstand.length_eq hsort hnested⟩
  unfold sortBlocks
  rw [hboundaries, ok_bind, SortColumns.mapM_partitionSorted hstand hsort]
  rfl

theorem exists_sortedOutputs_of_no_rows (hsort : Sorts C key sort) (hrows : blocks.flatten = [])
    (hboundaries : sortBoundaries C nullOrder quantiles key numReducers formats blocks samples =
      .ok boundaries) :
    ∃ outputs, sortBlocks C sort nullOrder quantiles key numReducers formats blocks samples =
      .ok outputs ∧
      SortedOutputs C key blocks outputs := by
  have hnil : ∀ block ∈ blocks, sort block = [] := by
    intro block hblock
    have hempty := List.flatten_eq_nil_iff.mp hrows block hblock
    have hperm := hsort.perm block
    rw [hempty] at hperm ⊢
    exact hperm.eq_nil
  have hparts : blocks.mapM (fun block => partitionSorted C (sort block) boundaries key) =
      .ok (blocks.map (fun _ => List.replicate (boundaries.length + 1) [])) := by
    refine mapM_eq_ok (fun block hblock => ?_)
    rw [hnil block hblock]
    rfl
  have hout : ((List.range (boundaries.length + 1)).map (fun j => sort ((blocks.map
      (fun _ => List.replicate (boundaries.length + 1) ([] : List R))).flatMap
        (fun part => (part[j]?).getD [])))).flatten = [] := by
    rw [List.flatten_eq_nil_iff, List.forall_mem_map]
    intro j _
    have hmerged : (blocks.map (fun _ => List.replicate (boundaries.length + 1) ([] : List R))).flatMap
        (fun part => (part[j]?).getD []) = [] := by
      rw [List.flatMap_eq_nil_iff, List.forall_mem_map]
      intro block _
      rw [List.getElem?_replicate]
      split_ifs <;> rfl
    rw [hmerged]
    exact (hsort.perm []).eq_nil
  obtain ⟨outputs, hrun, hout⟩ : ∃ outputs, sortBlocks C sort nullOrder quantiles key numReducers
    formats blocks samples = .ok outputs ∧
      outputs.flatten = [] := by
    refine ⟨_, ?_, hout⟩
    unfold sortBlocks
    rw [hboundaries, ok_bind, hparts]
    rfl
  refine ⟨outputs, hrun, ?_, ?_⟩
  · unfold SortColumns.Sorted
    rw [hout]
    exact List.Pairwise.nil
  · rw [hout, hrows]

theorem exists_sortedOutputs_of_samplingWorks (hsort : Sorts C key sort) (hnull : NullOrder nullOrder)
    (hquantiles : IsQuantiles quantiles) (hfree : NullFree C key blocks)
    (hsamples : List.Forall₂ (IsSample (nSamples numReducers blocks)) blocks samples)
    (hboundaries : key.boundaries = []) (hworks : SamplingWorks key numReducers formats blocks) :
    ∃ outputs, sortBlocks C sort nullOrder quantiles key numReducers formats blocks samples =
      .ok outputs ∧
      SortedOutputs C key blocks outputs := by
  have hexact : C.ExactFloats key.directed blocks.flatten := by
    rintro c hc - ⟨r, hr, hnone⟩
    obtain ⟨v, hv⟩ := hfree r hr c.1 (List.of_mem_zip hc).1
    rw [hnone] at hv
    cases hv
  have hsampled : ∀ {boundaries}, sampleBoundaries C nullOrder quantiles key numReducers formats
    blocks samples =
      .ok boundaries → sortBoundaries C nullOrder quantiles key numReducers formats blocks samples =
        .ok boundaries := by
    intro boundaries h
    unfold sortBoundaries
    rw [if_pos hboundaries]
    exact h
  obtain ⟨n, hrun, -, hrows | rfl⟩ | ⟨sorted, hperm, hsorted, hrun⟩ :=
    boundaries_of_samplingWorks hnull hquantiles hexact hsamples hworks
  · exact exists_sortedOutputs_of_no_rows hsort hrows (hsampled hrun)
  · have hstand : C.Stand key blocks.flatten [] [] := List.Forall₂.nil
    exact exists_sortedOutputs hsort hstand List.Pairwise.nil (hsampled hrun)
  · have hsub : samples.flatten ⊆ blocks.flatten := (samples_subperm hsamples).subset
    have hbounds : gather sorted (quantiles sorted.length numReducers).tail.dropLast ⊆
      samples.flatten := by
      intro s hs
      obtain ⟨i, -, hi⟩ := List.mem_filterMap.mp hs
      exact hperm.subset (List.mem_of_getElem? hi)
    have hpairs : (gather sorted (quantiles sorted.length numReducers).tail.dropLast).Pairwise
      (fun s s' =>
        C.sampleKey key.directed s ≤ C.sampleKey key.directed s') :=
      SortColumns.pairwise_gather (r := fun s s' => C.sampleKey key.directed s ≤
        C.sampleKey key.directed s') (fun _ => le_rfl) hsorted
          (hquantiles.inner _ _)
    exact exists_sortedOutputs hsort (SortColumns.stand_samples hexact hsub hbounds)
      (SortColumns.nested_samples hfree (fun s hs => hsub (hbounds hs)) hpairs) (hsampled hrun)

/-- If there are boundaries, and blocks with rows can be cut at them, sampling works. -/
theorem samplingWorks_of_eq_ok
    (hsamples : List.Forall₂ (IsSample (nSamples numReducers blocks)) blocks samples)
    (hbounds : sampleBoundaries C nullOrder quantiles key numReducers formats blocks samples =
    .ok boundaries)
    (hparts : ∀ block ∈ blocks, block ≠ [] → ∃ table parts, table ≠ [] ∧
      partitionSorted C table boundaries key = .ok parts) : SamplingWorks key numReducers formats
      blocks := by
  have hblocks : blocks ≠ [] := by
    rintro rfl
    cases hbounds
  refine ⟨hblocks, ?_⟩
  by_cases hrows : blocks.flatten = []
  · exact .inl hrows
  · refine .inr ?_
    by_cases hzero : nSamples numReducers blocks = 0
    · have harrow : .arrow ∉ formatsWithRows formats blocks := by
        intro harrow
        unfold sampleBoundaries at hbounds
        rw [if_neg (List.length_eq_zero_iff.not.mpr hblocks), if_pos ⟨hzero, harrow⟩] at hbounds
        cases hbounds
      refine .inl ⟨(nSamples_eq_zero_iff hblocks).mp hzero, ?_, harrow⟩
      -- Without samples a boundary is `None`, so there must not be one.
      by_contra hone
      rw [sampleBoundaries_of_no_samples hblocks (fun _ => harrow)
        ((samples_eq_nil_iff hsamples).mpr (.inl hzero))] at hbounds
      cases hbounds
      obtain ⟨row, hrow⟩ := List.exists_mem_of_ne_nil _ hrows
      obtain ⟨block, hblock, hrow⟩ := List.mem_flatten.mp hrow
      obtain ⟨table, parts, htable, hpart⟩ := hparts block hblock (List.ne_nil_of_mem hrow)
      rw [partitionSorted_of_none htable (by omega)] at hpart
      cases hpart
    · have hne : samples.flatten ≠ [] := by
        rw [ne_eq, samples_eq_nil_iff hsamples]
        tauto
      have hok := of_sampleBoundaries_eq_ok hne hbounds
      rw [formatsWithRows_samples hsamples hzero] at hok
      rw [nSamples_eq_zero_iff hblocks, not_lt] at hzero
      exact .inr ⟨hzero, hok⟩

/-- Rows that are one number, in a column of numbers. -/
def numberColumn : SortColumns ℤ ℤ ℤ where
  cell row _ := .val row
  isNumber _ := true
  asFloat v := v
  isNumber_of_nan := nofun

/-- The sort key of that column. -/
def numberKey (descending : Bool) : SortKey ℤ where
  columns := ["k"]
  descending := [descending]
  boundaries := []
  length_descending := rfl
  boundaries_lt := List.Pairwise.nil

/-- A stable sort, as Arrow has it. -/
def stableSort (C : SortColumns R V F) (key : SortKey V) (block : List R) : List R :=
  sortBy (C.rowKey key.directed) block

omit [LinearOrder F] in
theorem sorts_stableSort (C : SortColumns R V F) (key : SortKey V) :
    Sorts C key (stableSort C key) where
  perm block := (isStableSort_sortBy _ block).perm
  sorted block := (isStableSort_sortBy _ block).sorted

omit [LinearOrder V] [LinearOrder F] in
theorem nullOrder_filter :
    NullOrder (fun i (samples : List (List (NumpyValue V F))) => samples.filter
      (fun sample => (itemAt i sample).isNa)) :=
  fun _ _ => List.Perm.refl _

/-- The positions of the quantiles, exactly. -/
def exactQuantiles (length numReducers : ℕ) : List ℕ :=
  (List.range (numReducers + 1)).map (fun q => q * (length - 1) / numReducers)

theorem isQuantiles_exactQuantiles : IsQuantiles exactQuantiles where
  sorted length numReducers := by
    refine List.pairwise_map.mpr (List.pairwise_le_range.imp (fun hle => ?_))
    exact Nat.div_le_div_right (Nat.mul_le_mul_right _ hle)
  lt length numReducers hlength i hi := by
    obtain ⟨q, hq, rfl⟩ := List.mem_map.mp hi
    have hle : q * (length - 1) / numReducers ≤ length - 1 :=
      Nat.div_le_of_le_mul (Nat.mul_le_mul_right _ (Nat.lt_succ_iff.mp (List.mem_range.mp hq)))
    omega

theorem nullFree_numberColumn (descending : Bool) (blocks : List (List ℤ)) :
    NullFree numberColumn (numberKey descending) blocks := fun row _ _ _ => ⟨row, rfl⟩

end main
end RayTfm.Data
