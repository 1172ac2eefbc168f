import RayTfm.Data.GroupByBlocks

/-! # Separable blocks

The converse of `GroupByBlocks`: blocks that are grouped right for all aggregations with given names
are separable.  Aggregations with constant accumulators read the names back, one that detects a key
in the rows of a group shows groups of several keys, and the keys of the output show those that come
back.  Arrow blocks give back all rows, so that nothing else can go wrong. -/

namespace RayTfm.Data

variable {R V F : Type} {C : Columns R V F} {cols names : List String} {blocks : List (List R)}

/-! ### Aggregations that show keys -/

/-- An aggregation whose accumulators are constant. -/
def constAgg (name : String) (v : PyValue V) : AggregateFn R V :=
  ⟨name, fun _ => v, fun _ _ => v, fun _ _ => v, id⟩

theorem constAgg_accumulated (name : String) (v : PyValue V) (k : List (PyValue V)) (g : List R) :
    (constAgg name v : AggregateFn R V).accumulated k g = v := by
  unfold AggregateFn.accumulated
  split_ifs
  · rfl
  · rfl

theorem constAgg_lawful (name : String) (v : PyValue V) :
    (constAgg name v : AggregateFn R V).Lawful where
  assoc _ _ _ := rfl
  comm _ _ := rfl
  compatible k xs ys _ := by
    rw [constAgg_accumulated, constAgg_accumulated, constAgg_accumulated]
    rfl

/-- Aggregations with constant accumulators, one for each name. -/
def constAggs (R : Type) (names : List String) (v : ℕ → PyValue V) : List (AggregateFn R V) :=
  names.mapIdx (fun n name => constAgg name (v n))

theorem map_name_constAggs (names : List String) (v : ℕ → PyValue V) :
    (constAggs R names v).map (·.name) = names := by
  refine List.ext_getElem? (fun i => ?_)
  unfold constAggs
  rw [List.getElem?_map, List.getElem?_mapIdx, Option.map_map]
  exact Option.map_id'

/-- An aggregation that is NaN if one of its rows has the key. -/
def detectAgg [DecidableEq V] (C : Columns R V F) (cols : List String) (d : List (PyValue V))
    (name : String) : AggregateFn R V :=
  ⟨name, fun _ => .none, fun a rows => if a = .nan ∨ ∃ r ∈ rows, C.key cols r = d then .nan else .none,
    fun a b => if a = .nan ∨ b = .nan then .nan else .none, id⟩

section detect
variable [DecidableEq V] (d : List (PyValue V)) (name : String)

theorem detectAgg_accumulated (k : List (PyValue V)) (g : List R) :
    (detectAgg C cols d name).accumulated k g = if ∃ r ∈ g, C.key cols r = d then .nan else .none := by
  unfold AggregateFn.accumulated detectAgg
  cases g with
  | nil => simp
  | cons r g => simp

theorem detectAgg_lawful : (detectAgg C cols d name).Lawful where
  assoc a b c := by
    unfold detectAgg
    by_cases ha : a = .nan <;> by_cases hb : b = .nan <;> by_cases hc : c = .nan <;> simp [ha, hb, hc]
  comm a b := by
    exact if_congr or_comm rfl rfl
  compatible k xs ys _ := by
    have happend : (∃ r ∈ xs ++ ys, C.key cols r = d) ↔
        (∃ r ∈ xs, C.key cols r = d) ∨ ∃ r ∈ ys, C.key cols r = d := by
      simp only [List.mem_append, or_and_right, exists_or]
    rw [detectAgg_accumulated, detectAgg_accumulated, detectAgg_accumulated, if_congr happend rfl rfl]
    unfold detectAgg
    by_cases hxs : ∃ r ∈ xs, C.key cols r = d <;> by_cases hys : ∃ r ∈ ys, C.key cols r = d <;>
      simp [hxs, hys]

theorem detectAgg_mergeAll {l : List (PyValue V)} (hl : .nan ∈ l) :
    (detectAgg C cols d name).mergeAll l = .nan := by
  have hfold : ∀ (rest : List (PyValue V)) (a : PyValue V), (a = .nan ∨ .nan ∈ rest) →
      rest.foldl (detectAgg C cols d name).merge a = .nan := by
    intro rest
    induction rest with
    | nil =>
      intro a ha
      obtain rfl | ha := ha
      · rfl
      · cases ha
    | cons b rest ih =>
      intro a ha
      refine ih _ ?_
      rw [List.mem_cons] at ha
      by_cases hab : a = .nan ∨ b = .nan
      · exact .inl (if_pos hab)
      · exact .inr (by tauto)
  obtain ⟨a, rest, rfl⟩ := List.exists_cons_of_ne_nil (List.ne_nil_of_mem hl)
  refine hfold rest a ?_
  obtain heq | hl := List.mem_cons.mp hl
  · exact .inl heq.symm
  · exact .inr hl

end detect

theorem map_key_flatMap_snd {ts : List (Tagged R V)} (hvalid : ∀ t ∈ ts, ValidTag C cols t) :
    (ts.flatMap Prod.snd).map (C.key cols) =
      (ts.map (fun t => (t.1, t.2.length))).flatMap (fun k => List.replicate k.2 k.1) := by
  induction ts with
  | nil => rfl
  | cons t ts ih =>
    rw [List.forall_mem_cons] at hvalid
    rw [List.flatMap_cons, List.map_append, ih hvalid.2, List.map_cons, List.flatMap_cons]
    congr 1
    refine List.eq_replicate_iff.mpr ⟨List.length_map _, ?_⟩
    rw [List.forall_mem_map]
    exact hvalid.1.key_eq

variable [DecidableEq V] [LinearOrder V]

/-! ### Blocks without rows -/

variable {B : BlockRows V} {aggs : List (AggregateFn R V)}

theorem combineAggregatedBlocks_nils {rows : List R}
    (hback : GivesBack B C cols aggs rows) {parts : List (List (AggregatedRow V))}
    (hparts : parts ≠ []) (hnil : ∀ part ∈ parts, part = []) (finalize : Bool) :
    combineAggregatedBlocks B cols aggs parts finalize = .ok [] := by
  have hmerge : mergeAll (fun row => safeKey (AggregatedRow.key cols row)) parts = [] := by
    have hperm := mergeAll_perm
      (fun row : AggregatedRow V => safeKey (AggregatedRow.key cols row)) parts
    rw [List.flatten_eq_nil_iff.mpr hnil] at hperm
    exact hperm.eq_nil
  have hnormalize : B.normalize parts = parts := by
    have hparts : (parts.map (fun _ => ([] : List (Tagged R V)))).map
      (List.map (realize cols aggs)) = parts := by
      rw [List.map_map]
      exact (List.map_congr_left (g := id) (fun part hpart => (hnil part hpart).symm)).trans
        (List.map_id parts)
    rw [← hparts]
    exact hback.normalize _ (by simp)
  unfold combineAggregatedBlocks combineGroups
  rw [if_neg (by simpa using hparts), hnormalize, hmerge]
  exact congrArg Except.ok (hback.build [] nofun)

variable [DecidableEq F]

theorem groupsRight_of_no_rows
    (hback : GivesBack B C cols aggs blocks.flatten) (hcols : cols ≠ []) (hblocks : blocks ≠ [])
    (hrows : blocks.flatten = []) : GroupsRight B C cols aggs blocks := by
  intro rows parts hperm hcombined
  have hparts : parts ≠ [] ∧ ∀ part ∈ parts, part = [] := by
    induction hcombined with
    | start =>
      refine ⟨fun hnil => hblocks (List.map_eq_nil_iff.mp hnil), ?_⟩
      rw [List.forall_mem_map]
      intro block hblock
      unfold aggregateBlock
      rw [List.flatten_eq_nil_iff.mp hrows block hblock, iterGroups_of_ne_nil C cols hcols]
      exact hback.build [] nofun
    | combine _ hblock ih =>
      rename_i pre group post block _
      refine ⟨by simp, fun part hpart => ?_⟩
      have hmem : ∀ part ∈ group, part = [] :=
        fun part hpart => ih.2 part (List.mem_append_left _ (List.mem_append_right _ hpart))
      have hgroup : group ≠ [] := by
        rintro rfl
        cases hblock
      rw [combineAggregatedBlocks_nils hback hgroup hmem] at hblock
      cases hblock
      simp only [List.mem_append, List.mem_singleton] at hpart
      obtain (hpart | rfl) | hpart := hpart
      · exact ih.2 part (List.mem_append_left _ (List.mem_append_left _ hpart))
      · rfl
      · exact ih.2 part (List.mem_append_right _ hpart)
  refine ⟨[], combineAggregatedBlocks_nils hback hparts.1 hparts.2 true, ?_, fun row hrow =>
    absurd hrow List.not_mem_nil⟩
  rw [hrows] at hperm
  rw [hperm.eq_nil]
  unfold Columns.groupKeys
  rw [if_neg hcols]
  exact List.Perm.refl []

theorem groupsRight_of_separable (hsorted : KeySorted C cols blocks)
    (h : Separable C cols (aggs.map (·.name)) blocks) (hlawful : ∀ agg ∈ aggs, agg.Lawful)
    (hback : GivesBack B C cols aggs blocks.flatten) : GroupsRight B C cols aggs blocks := by
  by_cases hkeys : C.groupKeys cols blocks.flatten = []
  · have hcols : cols ≠ [] := by
      rintro rfl
      unfold Columns.groupKeys at hkeys
      rw [if_pos rfl] at hkeys
      cases hkeys
    have hrows : blocks.flatten = [] := by
      unfold Columns.groupKeys at hkeys
      rw [if_neg hcols, List.dedup_eq_nil, List.map_eq_nil_iff] at hkeys
      exact hkeys
    exact groupsRight_of_no_rows hback hcols h.ne_nil hrows
  · intro rows parts hperm hcombined
    have hnames := h.names hkeys
    have hinv := tagInv_start h.ne_nil hsorted h.boundaries
    have hstart : blocks.map (aggregateBlock B C cols aggs) =
        (blocks.map (C.iterGroups cols)).map (List.map (realize cols aggs)) := by
      rw [List.map_map]
      refine List.map_congr_left (fun block hblock => ?_)
      exact hback.build _ (fun t ht => hinv.valid_subset _ (List.mem_map_of_mem hblock) t ht)
    rw [hstart] at hcombined
    obtain ⟨tags, rfl, hinv⟩ := exists_tagInv_of_combined hback hnames hlawful hinv hcombined
    exact ⟨_, combineAggregatedBlocks_final hback hnames hlawful hinv.ne_nil hinv.valid_subset,
      rightRows_final hnames hlawful hinv h.noNullReturn hperm⟩

/-! ### Needed -/

section needed
variable (h : ∀ aggs : List (AggregateFn R V), aggs.map (·.name) = names → (∀ agg ∈ aggs, agg.Lawful) →
  GroupsRight .arrow C cols aggs blocks)
include h

variable {aggs : List (AggregateFn R V)}

theorem exists_rightRows (haggs : aggs.map (·.name) = names) (hlawful : ∀ agg ∈ aggs, agg.Lawful) :
    ∃ out, combineAggregatedBlocks .arrow cols aggs (blocks.map (aggregateBlock .arrow C cols aggs))
      true = .ok out ∧
      RightRows C cols aggs blocks.flatten out :=
  h aggs haggs hlawful _ _ (List.Perm.refl _) .start

/-- The rows for aggregations with constant accumulators, one for each name. -/
theorem exists_constRows (v : ℕ → PyValue V) :
    ∃ out, combineAggregatedBlocks .arrow cols (constAggs R names v)
        (blocks.map (aggregateBlock .arrow C cols (constAggs R names v))) true = .ok out ∧
      (out.map (AggregatedRow.key cols)).Perm (C.groupKeys cols blocks.flatten) ∧
      ∀ row ∈ out, ∀ (i : ℕ) (name : String), (resolvedNames names)[i]? = some name →
        Dict.get? row name = some (v i) := by
  obtain ⟨out, hout, hright⟩ := exists_rightRows h (map_name_constAggs names v) (by
    intro agg hagg
    obtain ⟨n, hn, rfl⟩ := List.mem_mapIdx.mp hagg
    exact constAgg_lawful _ _)
  refine ⟨out, hout, hright.keys, fun row hrow i name hname => ?_⟩
  have hi : i < names.length := by
    have hlt := (List.getElem?_eq_some_iff.mp hname).1
    rwa [length_resolvedNames] at hlt
  have hmem : ((constAgg names[i] (v i) : AggregateFn R V), name) ∈
      (constAggs R names v).zip (resolvedNames ((constAggs R names v).map (·.name))) := by
    rw [map_name_constAggs]
    unfold constAggs
    refine List.mem_iff_getElem?.mpr ⟨i, ?_⟩
    rw [List.getElem?_zip_eq_some, List.getElem?_mapIdx, List.getElem?_eq_getElem hi]
    exact ⟨rfl, hname⟩
  rw [hright.values row hrow _ hmem, constAgg_accumulated]
  rfl

theorem blocks_ne_nil : blocks ≠ [] := by
  rintro rfl
  obtain ⟨out, hout, -⟩ := exists_constRows h (fun _ => .none)
  cases hout

theorem namesDistinct_of_groupsRight (hkeys : C.groupKeys cols blocks.flatten ≠ []) :
    NamesDistinct cols names := by
  constructor
  · -- Two aggregations with one name would have to have the same accumulator.
    rw [List.nodup_iff_getElem?_ne_getElem?]
    intro i j hij hj heq
    obtain ⟨out, -, hperm, hvalues⟩ := exists_constRows h (fun n => if n = i then .nan else .none)
    have hout : out ≠ [] := by
      rintro rfl
      exact hkeys hperm.symm.eq_nil
    obtain ⟨row, hrow⟩ := List.exists_mem_of_ne_nil _ hout
    have hname : (resolvedNames names)[j]? = some (resolvedNames names)[j] :=
      List.getElem?_eq_getElem hj
    have hj' := hvalues row hrow j _ hname
    have hi' := hvalues row hrow i _ (heq.trans hname)
    rw [hj', if_pos rfl, if_neg (by omega)] at hi'
    cases hi'
  · -- An accumulator in a key column would be the key.
    intro name hname hcol
    obtain ⟨k, hk⟩ := List.exists_mem_of_ne_nil _ hkeys
    obtain ⟨i, hi⟩ := List.mem_iff_getElem?.mp hname
    have hcells : ∀ v : PyValue V, ∃ row : AggregatedRow V, AggregatedRow.key cols row = k ∧
      row.cell name = v := by
      intro v
      obtain ⟨out, -, hperm, hvalues⟩ := exists_constRows h (fun _ => v)
      obtain ⟨row, hrow, hkey⟩ := List.mem_map.mp (hperm.mem_iff.mpr hk)
      refine ⟨row, hkey, ?_⟩
      unfold AggregatedRow.cell
      rw [hvalues row hrow i name hi]
      rfl
    obtain ⟨row, hkey, hcell⟩ := hcells .none
    obtain ⟨row', hkey', hcell'⟩ := hcells .nan
    have hsame := List.map_inj_left.mp (hkey.trans hkey'.symm) name hcol
    rw [hcell, hcell'] at hsame
    cases hsame

theorem exists_tagRows (hmap : aggs.map (·.name) = names)
    (hlawful : ∀ agg ∈ aggs, agg.Lawful) (hdistinct : NamesDistinct cols names) :
    RightRows C cols aggs blocks.flatten ((tagGroups (blocks.map (C.iterGroups cols))).map (fun g =>
      combineGroup cols aggs true (g.map (realize cols aggs)))) := by
  obtain ⟨out, hout, hright⟩ := exists_rightRows h hmap hlawful
  have hkeys : ∀ part ∈ blocks.map (C.iterGroups cols), ∀ t ∈ part, IsKey cols t.1 := by
    rw [List.forall_mem_map]
    exact fun block _ t ht => isKey_of_mem_iterGroups C cols ht
  have hstart : blocks.map (aggregateBlock .arrow C cols aggs) =
      (blocks.map (C.iterGroups cols)).map (List.map (realize cols aggs)) := by
    rw [List.map_map]
    rfl
  have hblocks : blocks.map (C.iterGroups cols) ≠ [] :=
    fun hnil => blocks_ne_nil h (List.map_eq_nil_iff.mp hnil)
  rw [← hmap] at hdistinct
  unfold combineAggregatedBlocks at hout
  rw [hstart, if_neg (by simpa using hblocks)] at hout
  change Except.ok ((combineGroups cols
    ((blocks.map (C.iterGroups cols)).map (List.map (realize cols aggs)))).map _) =
    Except.ok out at hout
  rw [combineGroups_realize hdistinct hkeys, List.map_map] at hout
  cases hout
  exact hright

/-- What the accumulators of combined groups come to, where one of the groups is of a block. -/
theorem mergeAll_of_mem_iterGroups (hmap : aggs.map (·.name) = names)
    (hlawful : ∀ agg ∈ aggs, agg.Lawful) (hdistinct : NamesDistinct cols names) {block : List R}
    (hblock : block ∈ blocks) {t : Tagged R V} (ht : t ∈ C.iterGroups cols block)
    {agg : AggregateFn R V}
    (hagg : agg ∈ aggs) :
    ∃ g : List (Tagged R V), t ∈ g ∧
    agg.finalize (agg.mergeAll (g.map (fun t => agg.accumulated t.1 t.2))) =
      agg.finalize (agg.accumulated t.1 (blocks.flatten.filter (fun r => C.key cols r = t.1))) := by
  have hright := exists_tagRows h hmap hlawful hdistinct
  have hkeys : ∀ part ∈ blocks.map (C.iterGroups cols), ∀ t ∈ part, IsKey cols t.1 := by
    rw [List.forall_mem_map]
    exact fun block _ t ht => isKey_of_mem_iterGroups C cols ht
  rw [← hmap] at hdistinct
  have hmem : t ∈ mergeAll (fun t => safeKey t.1) (blocks.map (C.iterGroups cols)) :=
    (mem_mergeAll _).mpr ⟨_, List.mem_map_of_mem hblock, ht⟩
  rw [← flatten_runs Prod.fst
    (mergeAll (fun t : Tagged R V => safeKey t.1) (blocks.map (C.iterGroups cols)))] at hmem
  obtain ⟨g, hg, htg⟩ := List.mem_flatten.mp hmem
  have hkey : firstKey g = t.1 := (fst_eq_firstKey hg htg).symm
  obtain ⟨name, hzip⟩ : ∃ name, (agg, name) ∈ aggs.zip (resolvedNames (aggs.map (·.name))) := by
    have hfst := hagg
    rw [← map_fst_zip_names aggs, List.mem_map] at hfst
    obtain ⟨⟨agg, name⟩, hzip, rfl⟩ := hfst
    exact ⟨name, hzip⟩
  have hrow := combineGroup_realize hdistinct hkeys hg true
  rw [hkey] at hrow
  have hvalue := hright.values _ (List.mem_map_of_mem hg) (agg, name) hzip
  rw [hrow, key_buildRow (isKey_of_mem_iterGroups C cols ht) hdistinct.2,
    get?_buildRow_accumulator _ (length_names aggs) hdistinct.1 hdistinct.2 hzip] at hvalue
  exact ⟨g, htg, Option.some.inj hvalue⟩

theorem boundariesTell_of_groupsRight (hnames : names ≠ []) : BoundariesTell C cols blocks := by
  intro block hblock pre r r' post hsplit hne
  by_contra hnone
  push Not at hnone
  have hcols : cols ≠ [] := by
    rintro rfl
    exact hne rfl
  -- The two rows are in one group, and one of them does not have its key.
  have hsame : (!cols.any (fun col => C.differ block col r r')) = true := by
    simp only [Bool.not_eq_true', List.any_eq_false]
    exact fun col hcol => hnone col hcol
  obtain ⟨group, hgroup, hr, hr'⟩ := exists_mem_splitBy_of_same
    (r := fun r r' => !cols.any (fun col => C.differ block col r r')) hsame pre post
  rw [← hsplit] at hgroup
  obtain ⟨k, ht⟩ : ∃ k, (k, group) ∈ C.iterGroups cols block := by
    rw [iterGroups_of_ne_nil C cols hcols]
    exact ⟨_, List.mem_map_of_mem hgroup⟩
  obtain ⟨d, hd, hdk⟩ : ∃ d, (∃ r ∈ group, C.key cols r = d) ∧ d ≠ k := by
    by_cases hrk : C.key cols r = k
    · exact ⟨C.key cols r', ⟨r', hr', rfl⟩, fun heq => hne (hrk.trans heq.symm)⟩
    · exact ⟨C.key cols r, ⟨r, hr, rfl⟩, hrk⟩
  have hrow : r ∈ blocks.flatten := List.mem_flatten.mpr ⟨block, hblock, by rw [hsplit]; simp⟩
  have hdistinct := namesDistinct_of_groupsRight h (by
    unfold Columns.groupKeys
    rw [if_neg hcols, ne_eq, List.dedup_eq_nil, List.map_eq_nil_iff]
    exact List.ne_nil_of_mem hrow)
  have hmap : (names.map (detectAgg C cols d)).map (·.name) = names := by
    rw [List.map_map]
    exact List.map_id' names
  obtain ⟨name, hname⟩ := List.exists_mem_of_ne_nil _ hnames
  obtain ⟨g, htg, hvalue⟩ := mergeAll_of_mem_iterGroups h hmap
    (List.forall_mem_map.mpr (fun name _ => detectAgg_lawful d name)) hdistinct hblock ht
      (List.mem_map_of_mem hname)
  -- The accumulator of the group is NaN, that of the rows with its key is not.
  rw [detectAgg_mergeAll d name (List.mem_map.mpr ⟨_, htg, by rw [detectAgg_accumulated, if_pos hd]⟩),
    detectAgg_accumulated, if_neg] at hvalue
  · cases hvalue
  · rintro ⟨r, hr, hrd⟩
    rw [List.mem_filter, decide_eq_true_eq] at hr
    exact hdk (hrd.symm.trans hr.2)

theorem noNullReturn_of_groupsRight (hnames : names ≠ []) (hsorted : KeySorted C cols blocks) :
    NoNullReturn C cols blocks := by
  have htell := boundariesTell_of_groupsRight h hnames
  have hinv := tagInv_start (blocks_ne_nil h) hsorted htell
  intro a b hab hsafe
  by_contra hne
  have hcols : cols ≠ [] := by
    rintro rfl
    obtain ⟨r, hr, rfl⟩ := List.mem_map.mp (hab.subset (List.mem_cons_self (a := a)))
    obtain ⟨r', hr', rfl⟩ := List.mem_map.mp (hab.subset (.tail _ (List.mem_cons_self (a := b))))
    exact hne rfl
  have hdistinct := namesDistinct_of_groupsRight h (by
    unfold Columns.groupKeys
    rw [if_neg hcols, ne_eq, List.dedup_eq_nil]
    exact List.ne_nil_of_mem (hab.subset (List.mem_cons_self (a := a))))
  -- The keys of the output are those of the runs.
  have hconst : (constAggs R names (fun _ => (.none : PyValue V))).map (·.name) = names := map_name_constAggs names _
  have hright := exists_tagRows h hconst (by
    intro agg hagg
    obtain ⟨n, hn, rfl⟩ := List.mem_mapIdx.mp hagg
    exact constAgg_lawful _ _) hdistinct
  have hnodup : (C.groupKeys cols blocks.flatten).Nodup := by
    unfold Columns.groupKeys
    rw [if_neg hcols]
    exact List.nodup_dedup _
  have hoff := hright.keys.nodup_iff.mpr hnodup
  rw [← hconst] at hdistinct
  have hkeys : ∀ part ∈ blocks.map (C.iterGroups cols), ∀ t ∈ part, IsKey cols t.1 :=
    fun part hpart t ht => (hinv.valid part hpart t ht).isKey
  have hmap : ((tagGroups (blocks.map (C.iterGroups cols))).map (fun g =>
        combineGroup cols (constAggs R names (fun _ => .none)) true
          (g.map (realize cols (constAggs R names (fun _ => .none)))))).map (AggregatedRow.key cols) =
      (combineTagged (blocks.map (C.iterGroups cols))).map Prod.fst := by
    unfold combineTagged
    rw [List.map_map, List.map_map]
    refine List.map_congr_left (fun g hg => ?_)
    obtain ⟨t, g', rfl⟩ := List.exists_cons_of_ne_nil (ne_nil_of_mem_tagGroups hg)
    obtain ⟨part, hpart, ht⟩ := mem_of_mem_tagGroups hg List.mem_cons_self
    rw [Function.comp_apply, combineGroup_realize hdistinct hkeys hg]
    exact key_buildRow (hkeys part hpart t ht) hdistinct.2
  rw [hmap, map_fst_combineTagged, nodup_runKeys_iff] at hoff
  -- In one class of keys the merged groups are in the order of the rows.
  refine hne (hoff a b ?_)
  have hclass : [a, b, a].Sublist ((blocks.flatten.filter (fun r => safeKey (C.key cols r) = safeKey a)).map
      (C.key cols)) := by
    have hfilter := hab.filter (fun k => decide (safeKey k = safeKey a))
    rw [List.filter_map, List.filter_eq_self.mpr (by simp [hsafe])] at hfilter
    exact hfilter
  rw [← hinv.order, map_key_flatMap_snd (fun t ht => mem_of_mem_flatten hinv.valid t (List.mem_filter.mp ht).1)] at hclass
  have hchain : [a, b, a].IsChain (· ≠ ·) := by
    rw [List.isChain_cons_cons, List.isChain_cons_cons]
    exact ⟨hne, Ne.symm hne, List.isChain_singleton _⟩
  have htags := sublist_of_sublist_replicates hchain hclass
  rw [List.map_map] at htags
  have hmerged : (mergeAll (fun t : Tagged R V => safeKey t.1) (blocks.map (C.iterGroups cols))).filter
      (fun t => safeKey t.1 = safeKey a) = _ := filter_mergeAll hinv.sorted (fun t => decide_eq_true_iff)
  rw [← hmerged] at htags
  exact htags.trans (List.filter_sublist.map _)

theorem separable_of_groupsRight (hnames : names ≠ []) (hsorted : KeySorted C cols blocks) :
    Separable C cols names blocks where
  ne_nil := blocks_ne_nil h
  names := namesDistinct_of_groupsRight h
  boundaries := boundariesTell_of_groupsRight h hnames
  noNullReturn := noNullReturn_of_groupsRight h hnames hsorted

end needed

/-- Blocks whose rows have one float column. -/
def floatColumn : Columns (PyValue ℤ) ℤ ℤ where
  cell row _ := row
  isNumber _ _ := true
  asFloat v := v
  isFinite _ := true

def addCounts : PyValue ℤ → PyValue ℤ → PyValue ℤ
  | .val a, .val b => .val (a + b)
  | _, _ => .none

/-- `Count`, of all rows of a group. -/
def countAgg (R : Type) : AggregateFn R ℤ :=
  ⟨"count()", fun _ => .val 0, fun a rows => addCounts a (.val rows.length), addCounts, id⟩

theorem countAgg_accumulated (k : List (PyValue ℤ)) (g : List R) :
    (countAgg R).accumulated k g = .val g.length := by
  cases g with
  | nil => rfl
  | cons r g => exact congrArg PyValue.val (zero_add _)

theorem countAgg_lawful : (countAgg R).Lawful where
  assoc a b c := by
    cases a <;> cases b <;> cases c <;> try rfl
    exact congrArg PyValue.val (add_assoc _ _ _)
  comm a b := by
    cases a <;> cases b <;> try rfl
    exact congrArg PyValue.val (add_comm _ _)
  compatible k xs ys _ := by
    rw [countAgg_accumulated, countAgg_accumulated, countAgg_accumulated, List.length_append,
      Nat.cast_add]
    rfl

end RayTfm.Data
