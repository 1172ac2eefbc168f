import RayTfm.Data.GroupBy

/-! # Group-by over blocks

When aggregating blocks and combining the results gives one row for each key, with the aggregate of
exactly its rows (`GroupsRight`).  That is so, for blocks that give back their rows, if and only if
the blocks are separable (`Separable`): the names of the columns of a row are distinct, the group
boundaries of a block tell different keys apart, and no key comes back after another one that has
`None` where it has NaN.

A tagged group is a key with the rows that went into its accumulators.  Combining aggregated rows is
combining tagged groups (`combineAggregatedBlocks_realize`), which keeps the rows of a key
together. -/

namespace RayTfm.Data

variable {R V F : Type}

/-! ### What is asked for -/

/-- The merge is associative and commutative, and merging accumulators is accumulating the rows of
both. -/
structure AggregateFn.Lawful (agg : AggregateFn R V) : Prop where
  assoc : ∀ a b c, agg.merge (agg.merge a b) c = agg.merge a (agg.merge b c)
  comm : ∀ a b, agg.merge a b = agg.merge b a
  compatible : ∀ keys xs ys, (keys ≠ [] → xs ≠ [] ∧ ys ≠ []) →
    agg.merge (agg.accumulated keys xs) (agg.accumulated keys ys) = agg.accumulated keys (xs ++ ys)

section spec
variable [DecidableEq V] [LinearOrder V] [DecidableEq F]

/-- Blocks that are reached by combining neighbours, without finalizing. -/
inductive Combined (B : BlockRows V) (cols : List String) (aggs : List (AggregateFn R V))
    (blocks : List (List (AggregatedRow V))) : List (List (AggregatedRow V)) → Prop
  | start : Combined B cols aggs blocks blocks
  | combine {pre group post : List (List (AggregatedRow V))} {block : List (AggregatedRow V)}
      (h : Combined B cols aggs blocks (pre ++ group ++ post))
      (hblock : combineAggregatedBlocks B cols aggs group false = .ok block) :
      Combined B cols aggs blocks (pre ++ [block] ++ post)

variable (B : BlockRows V) (C : Columns R V F) (cols : List String)

/-- The distinct keys; without key columns all rows are one group. -/
def Columns.groupKeys (rows : List R) : List (List (PyValue V)) :=
  if cols = [] then [[]] else (rows.map (C.key cols)).dedup

/-- One row for each key, with the finalized aggregates of the rows with the key. -/
structure RightRows (aggs : List (AggregateFn R V)) (rows : List R) (out : List (AggregatedRow V)) :
    Prop where
  keys : (out.map (AggregatedRow.key cols)).Perm (C.groupKeys cols rows)
  values : ∀ row ∈ out, ∀ agg ∈ aggs.zip (resolvedNames (aggs.map (·.name))),
    Dict.get? row agg.2 = some (agg.1.finalize (agg.1.accumulated (AggregatedRow.key cols row)
      (rows.filter (fun r => C.key cols r = AggregatedRow.key cols row))))

/-- With any combining on the way, the rows are right. -/
def GroupsRight (aggs : List (AggregateFn R V)) (blocks : List (List R)) : Prop :=
  ∀ (rows : List R) (parts : List (List (AggregatedRow V))), rows.Perm blocks.flatten →
    Combined B cols aggs (blocks.map (aggregateBlock B C cols aggs)) parts →
    ∃ out, combineAggregatedBlocks B cols aggs parts true = .ok out ∧ RightRows C cols aggs rows out

/-- The blocks are sorted by key, with the nulls last. -/
def KeySorted (blocks : List (List R)) : Prop :=
  ∀ block ∈ blocks, block.Pairwise (fun r r' => safeKey (C.key cols r) ≤ safeKey (C.key cols r'))

/-- Neighbours of a block with different keys are told apart by some column. -/
def BoundariesTell (blocks : List (List R)) : Prop :=
  ∀ block ∈ blocks, ∀ pre r r' post, block = pre ++ r :: r' :: post → C.key cols r ≠ C.key cols r' →
    ∃ col ∈ cols, C.differ block col r r' = true

/-- No key comes back after one that differs from it in `None` against NaN only. -/
def NoNullReturn (blocks : List (List R)) : Prop :=
  ∀ a b, [a, b, a].Sublist (blocks.flatten.map (C.key cols)) → safeKey a = safeKey b → a = b

/-- The columns of a row have different names. -/
def NamesDistinct (names : List String) : Prop :=
  (resolvedNames names).Nodup ∧ ∀ name ∈ resolvedNames names, name ∉ cols

/-- When grouping is right. -/
structure Separable (names : List String) (blocks : List (List R)) : Prop where
  ne_nil : blocks ≠ []
  names : C.groupKeys cols blocks.flatten ≠ [] → NamesDistinct cols names
  boundaries : BoundariesTell C cols blocks
  noNullReturn : NoNullReturn C cols blocks

end spec

/-! ### Reading a row back -/

section rows
variable {cols names : List String}

theorem length_resolveNames (count : String → ℕ) (names : List String) :
    (resolveNames count names).length = names.length := by
  induction names generalizing count with
  | nil => rfl
  | cons name names ih => exact congrArg (· + 1) (ih _)

@[simp] theorem length_resolvedNames (names : List String) :
    (resolvedNames names).length = names.length :=
  length_resolveNames _ names

theorem lookup_eq_some {l : List (String × PyValue V)} {k : String} {v : PyValue V} (hmem : (k, v) ∈ l)
    (hall : ∀ w, (k, w) ∈ l → w = v) : l.lookup k = some v := by
  induction l with
  | nil => cases hmem
  | cons e l ih =>
    rw [List.lookup_cons]
    by_cases hk : k = e.1
    · subst hk
      rw [beq_self_eq_true]
      exact congrArg some (hall e.2 (.head _))
    · rw [beq_eq_false_iff_ne.mpr hk]
      refine ih ?_ (fun w hw => hall w (.tail _ hw))
      obtain rfl | hmem := List.mem_cons.mp hmem
      · exact absurd rfl hk
      · exact hmem

variable {keys : List (PyValue V)}
variable {accumulators : List (PyValue V)}

theorem get?_buildRow {k : String} {v : PyValue V}
    (hmem : (k, v) ∈ cols.zip keys ++ names.zip accumulators)
    (hall : ∀ w, (k, w) ∈ cols.zip keys ++ names.zip accumulators → w = v) :
    (buildRow cols names keys accumulators).get? k = some v := by
  unfold buildRow
  rw [Dict.get?_ofList]
  exact lookup_eq_some (List.mem_reverse.mpr hmem) (fun w hw => hall w (List.mem_reverse.mp hw))

/-- A key that the cells of a row can make. -/
def IsKey (cols : List String) (keys : List (PyValue V)) : Prop :=
  ∃ f : String → PyValue V, keys = cols.map f

theorem key_buildRow (hkey : IsKey cols keys) (hnames : ∀ name ∈ names, name ∉ cols) :
    AggregatedRow.key cols (buildRow cols names keys accumulators) = keys := by
  obtain ⟨f, rfl⟩ := hkey
  unfold AggregatedRow.key AggregatedRow.cell
  refine List.map_congr_left (fun col hcol => ?_)
  have hzip : ∀ w, (col, w) ∈ cols.zip (cols.map f) ↔ w = f col := by
    intro w
    rw [← List.map_prod_left_eq_zip, List.mem_map]
    constructor
    · rintro ⟨c, -, heq⟩
      obtain ⟨rfl, rfl⟩ := Prod.mk.inj heq
      rfl
    · rintro rfl
      exact ⟨col, hcol, rfl⟩
  rw [get?_buildRow (List.mem_append_left _ ((hzip (f col)).mpr rfl))]
  · rfl
  · intro w hw
    obtain hw | hw := List.mem_append.mp hw
    · exact (hzip w).mp hw
    · exact absurd hcol (hnames col (List.of_mem_zip hw).1)

theorem get?_buildRow_accumulator {A : Type} {aggs : List A} (g : A × String → PyValue V)
    (hlength : names.length = aggs.length) (hnodup : names.Nodup) (hnames : ∀ name ∈ names, name ∉ cols)
    {agg : A × String} (hagg : agg ∈ aggs.zip names) :
    (buildRow cols names keys ((aggs.zip names).map g)).get? agg.2 = some (g agg) := by
  have hsnd : (aggs.zip names).map Prod.snd = names := List.map_snd_zip hlength.le
  have hnodup' : ((aggs.zip names).map Prod.snd).Nodup := by rwa [hsnd]
  have hzip : names.zip ((aggs.zip names).map g) = (aggs.zip names).map (fun p => (p.2, g p)) :=
    calc names.zip ((aggs.zip names).map g)
        = ((aggs.zip names).map Prod.snd).zip ((aggs.zip names).map g) := by rw [hsnd]
      _ = (aggs.zip names).map (fun p => (p.2, g p)) := List.zip_map'
  have hmem : agg.2 ∈ names := (List.of_mem_zip hagg).2
  refine get?_buildRow (List.mem_append_right _ ?_) (fun w hw => ?_)
  · rw [hzip, List.mem_map]
    exact ⟨agg, hagg, rfl⟩
  · obtain hw | hw := List.mem_append.mp hw
    · exact absurd (List.of_mem_zip hw).1 (hnames _ hmem)
    · rw [hzip, List.mem_map] at hw
      obtain ⟨agg', hagg', heq⟩ := hw
      obtain ⟨hname, rfl⟩ := Prod.mk.inj heq
      rw [List.inj_on_of_nodup_map hnodup' hagg' hagg hname]

end rows

/-! ### Tagged groups -/

/-- A key, and the rows of the group. -/
abbrev Tagged (R V : Type) := List (PyValue V) × List R

section tagged
variable {cols : List String} {aggs : List (AggregateFn R V)}

/-- The aggregated row of a tagged group. -/
def realize (cols : List String) (aggs : List (AggregateFn R V)) (t : Tagged R V) : AggregatedRow V :=
  buildRow cols (resolvedNames (aggs.map (·.name))) t.1 (aggs.map (fun agg => agg.accumulated t.1 t.2))

theorem length_names (aggs : List (AggregateFn R V)) :
    (resolvedNames (aggs.map (·.name))).length = aggs.length := by
  rw [length_resolvedNames, List.length_map]

theorem map_fst_zip_names (aggs : List (AggregateFn R V)) :
    (aggs.zip (resolvedNames (aggs.map (·.name)))).map Prod.fst = aggs :=
      List.map_fst_zip (length_names aggs).ge

variable {t : Tagged R V}

theorem key_realize (hnames : NamesDistinct cols (aggs.map (·.name))) (ht : IsKey cols t.1) :
    AggregatedRow.key cols (realize cols aggs t) = t.1 := key_buildRow ht hnames.2

theorem get?_realize (hnames : NamesDistinct cols (aggs.map (·.name))) (t : Tagged R V)
    {agg : AggregateFn R V × String} (hagg : agg ∈ aggs.zip (resolvedNames (aggs.map (·.name)))) :
    (realize cols aggs t).get? agg.2 = some (agg.1.accumulated t.1 t.2) := by
  have hmap : aggs.map (fun agg => agg.accumulated t.1 t.2) =
      (aggs.zip (resolvedNames (aggs.map (·.name)))).map (fun p => p.1.accumulated t.1 t.2) := by
    conv_lhs => rw [← map_fst_zip_names aggs]
    rw [List.map_map]
    rfl
  unfold realize
  rw [hmap]
  exact get?_buildRow_accumulator (fun p => p.1.accumulated t.1 t.2) (length_names aggs) hnames.1
    hnames.2 hagg

/-! ### Valid tagged groups -/

/-- All rows of a tagged group have its key. -/
structure ValidTag (C : Columns R V F) (cols : List String) (t : Tagged R V) : Prop where
  isKey : IsKey cols t.1
  key_eq : ∀ r ∈ t.2, C.key cols r = t.1
  ne_nil : cols ≠ [] → t.2 ≠ []

theorem IsKey.ne_nil {keys : List (PyValue V)} (h : IsKey cols keys) (hkeys : keys ≠ []) :
    cols ≠ [] := by
  obtain ⟨f, rfl⟩ := h
  rintro rfl
  exact hkeys rfl

variable {C : Columns R V F}

/-- Merging the accumulators of groups with one key is accumulating all their rows. -/
theorem mergeAll_accumulated {agg : AggregateFn R V} (hagg : agg.Lawful) {k : List (PyValue V)}
    {g : List (Tagged R V)} (hg : g ≠ []) (hvalid : ∀ t ∈ g, ValidTag C cols t)
    (hk : ∀ t ∈ g, t.1 = k) :
    agg.mergeAll (g.map (fun t => agg.accumulated t.1 t.2)) = agg.accumulated k
      (g.flatMap Prod.snd) := by
  have hfold : ∀ (rest : List (Tagged R V)) (xs : List R), (k ≠ [] → xs ≠ []) →
    (∀ t ∈ rest, ValidTag C cols t) →
      (∀ t ∈ rest, t.1 = k) →
      (rest.map (fun t => agg.accumulated t.1 t.2)).foldl agg.merge (agg.accumulated k xs) =
        agg.accumulated k (xs ++ rest.flatMap Prod.snd) := by
    intro rest
    induction rest with
    | nil =>
      intro xs _ _ _
      rw [List.flatMap_nil, List.append_nil]
      rfl
    | cons t rest ih =>
      intro xs hxs hrest hkeys
      rw [List.forall_mem_cons] at hrest hkeys
      obtain ⟨hkey, hkeys⟩ := hkeys
      have hne : k ≠ [] → t.2 ≠ [] := fun hk => hrest.1.ne_nil (hrest.1.isKey.ne_nil (hkey ▸ hk))
      rw [List.map_cons, List.foldl_cons, hkey,
        hagg.compatible k xs t.2 (fun hk => ⟨hxs hk, hne hk⟩),
        ih (xs ++ t.2) (fun hk => List.append_ne_nil_of_left_ne_nil (hxs hk) _) hrest.2 hkeys,
        List.flatMap_cons, List.append_assoc]
  obtain ⟨t, g, rfl⟩ := List.exists_cons_of_ne_nil hg
  rw [List.forall_mem_cons] at hvalid hk
  obtain ⟨rfl, hk⟩ := hk
  exact hfold g t.2 (fun hk => hvalid.1.ne_nil (hvalid.1.isKey.ne_nil hk)) hvalid.2 hk

variable {parts : List (List (Tagged R V))}

theorem mem_of_mem_flatten {P : Tagged R V → Prop}
    (h : ∀ part ∈ parts, ∀ t ∈ part, P t) : ∀ t ∈ parts.flatten, P t := by
  intro t ht
  obtain ⟨part, hpart, ht⟩ := List.mem_flatten.mp ht
  exact h part hpart t ht

theorem filter_flatMap_snd {ts : List (Tagged R V)} (hvalid : ∀ t ∈ ts, ValidTag C cols t)
    (p : List (PyValue V) → Bool) :
    (ts.flatMap Prod.snd).filter (fun r => p (C.key cols r)) = (ts.filter (fun t => p t.1)).flatMap
      Prod.snd := by
  induction ts with
  | nil => rfl
  | cons t ts ih =>
    rw [List.forall_mem_cons] at hvalid
    rw [List.flatMap_cons, List.filter_append, ih hvalid.2, List.filter_cons]
    split_ifs with hp
    · rw [List.flatMap_cons]
      congr 1
      rw [List.filter_eq_self]
      intro r hr
      rw [hvalid.1.key_eq r hr]
      exact hp
    · have hnone : t.2.filter (fun r => p (C.key cols r)) = [] := by
        rw [List.filter_eq_nil_iff]
        intro r hr
        rw [hvalid.1.key_eq r hr]
        exact hp
      rw [hnone, List.nil_append]

/-- The finalized row of a tagged group. -/
def finalRow (cols : List String) (aggs : List (AggregateFn R V)) (t : Tagged R V) : AggregatedRow V :=
  buildRow cols (resolvedNames (aggs.map (·.name))) t.1
    ((aggs.zip (resolvedNames (aggs.map (·.name)))).map
      (fun agg => agg.1.finalize (agg.1.accumulated t.1 t.2)))

/-- Blocks give back the rows of valid tagged groups of the rows, also finalized, and also when
converted. -/
structure GivesBack (B : BlockRows V) (C : Columns R V F) (cols : List String)
    (aggs : List (AggregateFn R V))
    (rows : List R) : Prop where
  build : ∀ ts : List (Tagged R V), (∀ t ∈ ts, ValidTag C cols t ∧ t.2 ⊆ rows) →
    B.build (ts.map (realize cols aggs)) = ts.map (realize cols aggs)
  finalized : ∀ ts : List (Tagged R V), (∀ t ∈ ts, ValidTag C cols t ∧ t.2 ⊆ rows) →
    B.build (ts.map (finalRow cols aggs)) = ts.map (finalRow cols aggs)
  normalize : ∀ parts : List (List (Tagged R V)),
    (∀ part ∈ parts, ∀ t ∈ part, ValidTag C cols t ∧ t.2 ⊆ rows) →
    B.normalize (parts.map (List.map (realize cols aggs))) = parts.map (List.map (realize cols aggs))

theorem givesBack_arrow (C : Columns R V F) (cols : List String) (aggs : List (AggregateFn R V))
    (rows : List R) :
    GivesBack .arrow C cols aggs rows := ⟨fun _ _ => rfl, fun _ _ => rfl, fun _ _ => rfl⟩

/-! ### Combining tagged groups -/

variable [DecidableEq V] [LinearOrder V]

/-- The groups of tagged groups that are combined to one. -/
def tagGroups (parts : List (List (Tagged R V))) : List (List (Tagged R V)) :=
  runs Prod.fst (mergeAll (fun t => safeKey t.1) parts)

variable {parts : List (List (Tagged R V))}

/-- The rows in the order of the merge are those of the tagged groups in that order. -/
theorem combineGroups_realize (hnames : NamesDistinct cols (aggs.map (·.name)))
    (hkeys : ∀ part ∈ parts, ∀ t ∈ part, IsKey cols t.1) :
    combineGroups cols (parts.map (List.map (realize cols aggs))) =
      (tagGroups parts).map (List.map (realize cols aggs)) := by
  have hkey : ∀ part ∈ parts, ∀ t ∈ part, AggregatedRow.key cols (realize cols aggs t) = t.1 :=
    fun part hpart t ht => key_realize hnames (hkeys part hpart t ht)
  unfold combineGroups tagGroups runs
  rw [mergeAll_map (realize cols aggs) (fun part hpart t ht => by rw [hkey part hpart t ht])]
  refine splitBy_map (realize cols aggs) (fun t ht t' ht' => ?_)
  obtain ⟨part, hpart, ht⟩ := (mem_mergeAll _).mp ht
  obtain ⟨part', hpart', ht'⟩ := (mem_mergeAll _).mp ht'
  rw [hkey part hpart t ht, hkey part' hpart' t' ht', Bool.eq_iff_iff, keysEqual_iff, decide_eq_true_eq]
  exact eq_comm

variable {g : List (Tagged R V)}

theorem ne_nil_of_mem_tagGroups (hg : g ∈ tagGroups parts) :
    g ≠ [] := ne_nil_of_mem_runs hg

theorem mem_of_mem_tagGroups (hg : g ∈ tagGroups parts)
    (ht : t ∈ g) : ∃ part ∈ parts, t ∈ part := (mem_mergeAll _).mp (mem_of_mem_run hg ht)

/-- The key of the first of some tagged groups. -/
def firstKey (g : List (Tagged R V)) : List (PyValue V) := (g.head?.map Prod.fst).getD []

theorem fst_eq_firstKey (hg : g ∈ tagGroups parts) (ht : t ∈ g) : t.1 = firstKey g := by
  have hkey : g.head?.map Prod.fst = some t.1 := runKey?_eq_some_of_mem hg ht
  unfold firstKey
  rw [hkey]
  rfl

/-- The row of a group of aggregated rows, by what the accumulators come to. -/
theorem combineGroup_realize (hnames : NamesDistinct cols (aggs.map (·.name)))
    (hkeys : ∀ part ∈ parts, ∀ t ∈ part, IsKey cols t.1) (hg : g ∈ tagGroups parts)
    (finalize : Bool) :
    combineGroup cols aggs finalize (g.map (realize cols aggs)) =
      buildRow cols (resolvedNames (aggs.map (·.name))) (firstKey g)
        ((aggs.zip (resolvedNames (aggs.map (·.name)))).map (fun agg =>
          let accumulator := agg.1.mergeAll (g.map (fun t => agg.1.accumulated t.1 t.2))
          if finalize then agg.1.finalize accumulator else accumulator)) := by
  obtain ⟨t, g', rfl⟩ := List.exists_cons_of_ne_nil (ne_nil_of_mem_tagGroups hg)
  unfold combineGroup
  dsimp only
  congr 1
  · obtain ⟨part, hpart, ht⟩ := mem_of_mem_tagGroups hg (.head _)
    exact key_realize hnames (hkeys part hpart t ht)
  · refine List.map_congr_left (fun agg hagg => ?_)
    have hcells : ((t :: g').map (realize cols aggs)).map (fun row => AggregatedRow.cell row agg.2) =
        (t :: g').map (fun t => agg.1.accumulated t.1 t.2) := by
      rw [List.map_map]
      refine List.map_congr_left (fun t _ => ?_)
      show (Dict.get? (realize cols aggs t) agg.2).getD .none = _
      rw [get?_realize hnames t hagg]
      rfl
    rw [hcells]

/-- Tagged groups are combined: their rows are put together. -/
def combineTagged (parts : List (List (Tagged R V))) : List (Tagged R V) :=
  (tagGroups parts).map (fun g => (firstKey g, g.flatMap Prod.snd))

theorem validTag_combineTagged
    (hvalid : ∀ part ∈ parts, ∀ t ∈ part, ValidTag C cols t) : ∀ t ∈ combineTagged parts,
    ValidTag C cols t := by
  intro t ht
  obtain ⟨g, hg, rfl⟩ := List.mem_map.mp ht
  have hmem : ∀ t ∈ g, ValidTag C cols t := by
    intro t ht
    obtain ⟨part, hpart, ht⟩ := mem_of_mem_tagGroups hg ht
    exact hvalid part hpart t ht
  obtain ⟨t, g', rfl⟩ := List.exists_cons_of_ne_nil (ne_nil_of_mem_tagGroups hg)
  refine ⟨(hmem t (.head _)).isKey, fun r hr => ?_, fun hcols => ?_⟩
  · obtain ⟨t', ht', hr⟩ := List.mem_flatMap.mp hr
    rw [(hmem t' ht').key_eq r hr]
    exact fst_eq_firstKey hg ht'
  · rw [List.flatMap_cons]
    exact List.append_ne_nil_of_left_ne_nil ((hmem t (.head _)).ne_nil hcols) _

theorem valid_combineTagged {rows : List R}
    (h : ∀ part ∈ parts, ∀ t ∈ part, ValidTag C cols t ∧ t.2 ⊆ rows) :
    ∀ t ∈ combineTagged parts, ValidTag C cols t ∧ t.2 ⊆ rows := by
  intro t ht
  refine ⟨validTag_combineTagged (fun part hpart t ht => (h part hpart t ht).1) t ht, fun r hr => ?_⟩
  obtain ⟨g, hg, rfl⟩ := List.mem_map.mp ht
  obtain ⟨t', ht', hr⟩ := List.mem_flatMap.mp hr
  obtain ⟨part, hpart, ht'⟩ := mem_of_mem_tagGroups hg ht'
  exact (h part hpart t' ht').2 hr

section combine
variable {B : BlockRows V} {C : Columns R V F} {rows : List R} (hback : GivesBack B C cols aggs rows)
  (hnames : NamesDistinct cols (aggs.map (·.name))) (hlawful : ∀ agg ∈ aggs, agg.Lawful)
  {parts : List (List (Tagged R V))} (hparts : parts ≠ [])
  (hvalid : ∀ part ∈ parts, ∀ t ∈ part, ValidTag C cols t ∧ t.2 ⊆ rows)
include hback hnames hlawful hparts hvalid

theorem combineAggregatedBlocks_eq (finalize : Bool) :
    combineAggregatedBlocks B cols aggs (parts.map (List.map (realize cols aggs))) finalize =
      .ok (B.build ((combineTagged parts).map (fun t =>
        buildRow cols (resolvedNames (aggs.map (·.name))) t.1
          ((aggs.zip (resolvedNames (aggs.map (·.name)))).map (fun agg =>
            if finalize then agg.1.finalize (agg.1.accumulated t.1 t.2)
            else agg.1.accumulated t.1 t.2))))) := by
  have hkeys : ∀ part ∈ parts, ∀ t ∈ part, IsKey cols t.1 :=
    fun part hpart t ht => (hvalid part hpart t ht).1.isKey
  unfold combineAggregatedBlocks combineTagged
  rw [if_neg (by simpa using hparts), hback.normalize parts hvalid,
    combineGroups_realize hnames hkeys, List.map_map, List.map_map]
  congr 2
  refine List.map_congr_left (fun g hg => ?_)
  rw [Function.comp_apply, combineGroup_realize hnames hkeys hg]
  congr 1
  refine List.map_congr_left (fun agg hagg => ?_)
  have hmem : ∀ t ∈ g, ValidTag C cols t := by
    intro t ht
    obtain ⟨part, hpart, ht⟩ := mem_of_mem_tagGroups hg ht
    exact (hvalid part hpart t ht).1
  have hmerge := mergeAll_accumulated (hlawful agg.1 (List.of_mem_zip hagg).1)
    (ne_nil_of_mem_tagGroups hg) hmem
    (fun t ht => fst_eq_firstKey hg ht)
  rw [hmerge]

theorem combineAggregatedBlocks_realize :
    combineAggregatedBlocks B cols aggs (parts.map (List.map (realize cols aggs))) false =
      .ok ((combineTagged parts).map (realize cols aggs)) := by
  rw [combineAggregatedBlocks_eq hback hnames hlawful hparts hvalid,
    ← hback.build (combineTagged parts) (valid_combineTagged hvalid)]
  congr 2
  refine List.map_congr_left (fun t _ => ?_)
  congr 1
  conv_rhs => rw [← map_fst_zip_names aggs]
  rw [List.map_map]
  rfl

theorem combineAggregatedBlocks_final :
    combineAggregatedBlocks B cols aggs (parts.map (List.map (realize cols aggs))) true =
      .ok ((combineTagged parts).map (finalRow cols aggs)) := by
  rw [combineAggregatedBlocks_eq hback hnames hlawful hparts hvalid,
    ← hback.finalized (combineTagged parts) (valid_combineTagged hvalid)]
  rfl

end combine

/-! ### The rows of a key stay together -/

section keep
variable {C : Columns R V F}

/-- A selection of the combined tagged groups by key has the rows of the same selection before. -/
theorem filter_combineTagged (parts : List (List (Tagged R V))) (p : List (PyValue V) → Bool) :
    ((combineTagged parts).filter (fun t => p t.1)).flatMap Prod.snd =
      ((mergeAll (fun t => safeKey t.1) parts).filter (fun t => p t.1)).flatMap Prod.snd := by
  conv_rhs => rw [← flatten_runs Prod.fst (mergeAll (fun t : Tagged R V => safeKey t.1) parts)]
  unfold combineTagged
  have hkey : ∀ g ∈ tagGroups parts, ∀ t ∈ g, t.1 = firstKey g := fun g hg t ht => fst_eq_firstKey hg ht
  change _ = ((tagGroups parts).flatten.filter _).flatMap _
  generalize tagGroups parts = gs at hkey
  induction gs with
  | nil => rfl
  | cons g gs ih =>
    rw [List.forall_mem_cons] at hkey
    rw [List.map_cons, List.filter_cons, List.flatten_cons, List.filter_append, List.flatMap_append,
      ← ih hkey.2]
    split_ifs with hp
    · have hall : g.filter (fun t => p t.1) = g := by
        rw [List.filter_eq_self]
        intro t ht
        rw [hkey.1 t ht]
        exact hp
      rw [List.flatMap_cons, hall]
    · have hnone : g.filter (fun t => p t.1) = [] := by
        rw [List.filter_eq_nil_iff]
        intro t ht
        rw [hkey.1 t ht]
        exact hp
      rw [hnone]
      rfl

/-- What combining keeps: the tagged groups are valid, sorted, and have the rows of each class of
keys in the order of the blocks. -/
structure TagInv (C : Columns R V F) (cols : List String) (rows : List R)
    (parts : List (List (Tagged R V))) : Prop where
  ne_nil : parts ≠ []
  valid : ∀ part ∈ parts, ∀ t ∈ part, ValidTag C cols t
  sorted : ∀ part ∈ parts, part.Pairwise (fun t t' => safeKey t.1 ≤ safeKey t'.1)
  order : ∀ c, (parts.flatten.filter (fun t => safeKey t.1 = c)).flatMap Prod.snd =
    rows.filter (fun r => safeKey (C.key cols r) = c)
  exists_tag : cols = [] → parts.flatten ≠ []

variable {rows : List R} {parts : List (List (Tagged R V))}

theorem TagInv.valid_subset (h : TagInv C cols rows parts) :
    ∀ part ∈ parts, ∀ t ∈ part, ValidTag C cols t ∧ t.2 ⊆ rows := by
  intro part hpart t ht
  refine ⟨h.valid part hpart t ht, fun r hr => ?_⟩
  have hmem : r ∈ (parts.flatten.filter (fun t' => safeKey t'.1 = safeKey t.1)).flatMap Prod.snd :=
    List.mem_flatMap.mpr
      ⟨t, List.mem_filter.mpr ⟨List.mem_flatten.mpr ⟨part, hpart, ht⟩, decide_eq_true rfl⟩, hr⟩
  rw [h.order] at hmem
  exact (List.mem_filter.mp hmem).1

theorem map_fst_combineTagged (parts : List (List (Tagged R V))) :
    (combineTagged parts).map Prod.fst = runKeys Prod.fst (mergeAll (fun t => safeKey t.1) parts) := by
  unfold combineTagged runKeys
  rw [List.map_map]
  have hsome : ∀ g ∈ tagGroups parts, runKey? Prod.fst g = some (firstKey g) := by
    intro g hg
    obtain ⟨t, g', rfl⟩ := List.exists_cons_of_ne_nil (ne_nil_of_mem_tagGroups hg)
    rfl
  change _ = (tagGroups parts).filterMap _
  rw [List.filterMap_congr hsome, List.filterMap_eq_map']
  rfl

theorem sorted_combineTagged
    (h : ∀ part ∈ parts, part.Pairwise (fun t t' => safeKey t.1 ≤ safeKey t'.1)) :
    (combineTagged parts).Pairwise (fun t t' => safeKey t.1 ≤ safeKey t'.1) := by
  have hsorted : ((mergeAll (fun t => safeKey t.1) parts).map Prod.fst).Pairwise
    (fun k k' => safeKey k ≤ safeKey k') :=
    List.pairwise_map.mpr (sorted_mergeAll h)
  have hpair := hsorted.sublist (runKeys_sublist (mergeAll (fun t : Tagged R V => safeKey t.1) parts))
  rw [← map_fst_combineTagged, List.pairwise_map] at hpair
  exact hpair

theorem TagInv.combine {pre group post : List (List (Tagged R V))}
    (h : TagInv C cols rows (pre ++ group ++ post)) :
    TagInv C cols rows (pre ++ [combineTagged group] ++ post) := by
  have hmem : ∀ part ∈ group, part ∈ pre ++ group ++ post := fun part hpart =>
    List.mem_append_left _ (List.mem_append_right _ hpart)
  have hvalid : ∀ part ∈ group, ∀ t ∈ part, ValidTag C cols t :=
    fun part hpart => h.valid part (hmem part hpart)
  have hsorted : ∀ part ∈ group, part.Pairwise (fun t t' => safeKey t.1 ≤ safeKey t'.1) :=
    fun part hpart => h.sorted part (hmem part hpart)
  have hparts : ∀ part ∈ pre ++ [combineTagged group] ++ post,
      part ∈ pre ++ group ++ post ∨ part = combineTagged group := by
    intro part hpart
    simp only [List.mem_append, List.mem_singleton] at hpart ⊢
    tauto
  refine ⟨by simp, fun part hpart => ?_, fun part hpart => ?_, fun c => ?_, fun hcols => ?_⟩
  · obtain hpart | rfl := hparts part hpart
    · exact h.valid part hpart
    · exact validTag_combineTagged hvalid
  · obtain hpart | rfl := hparts part hpart
    · exact h.sorted part hpart
    · exact sorted_combineTagged hsorted
  · rw [← h.order c]
    simp only [List.flatten_append, List.filter_append, List.flatMap_append, List.flatten_singleton]
    rw [filter_combineTagged group (fun k => decide (safeKey k = c)),
      filter_mergeAll hsorted (fun t => decide_eq_true_iff)]
  · have hne := h.exists_tag hcols
    intro hnil
    rw [List.flatten_append, List.flatten_append, List.flatten_singleton, List.append_eq_nil_iff,
      List.append_eq_nil_iff] at hnil
    have hgroup : group.flatten = [] := by
      have hruns : tagGroups group = [] := List.map_eq_nil_iff.mp hnil.1.2
      have hmerge : mergeAll (fun t => safeKey t.1) group = [] := List.splitBy_eq_nil.mp hruns
      have hperm := mergeAll_perm (fun t : Tagged R V => safeKey t.1) group
      rw [hmerge] at hperm
      exact hperm.symm.eq_nil
    rw [List.flatten_append, List.flatten_append, hnil.1.1, hgroup, hnil.2] at hne
    exact hne rfl

end keep

end tagged

/-! ### The groups of a block -/

section block
variable [DecidableEq V] [DecidableEq F] (C : Columns R V F) (cols : List String)

theorem iterGroups_of_ne_nil (hcols : cols ≠ []) (block : List R) :
    C.iterGroups cols block =
      (block.splitBy (fun r r' => !cols.any (fun col => C.differ block col r r'))).map
      (fun group => ((group.head?.map (C.key cols)).getD [], group)) := by
  unfold Columns.iterGroups Columns.groupBoundaries
  rw [if_neg hcols]
  cases block with
  | nil => rfl
  | cons r block =>
    rw [if_neg (by simp), slicesAt_boundaries _ (List.cons_ne_nil r block)]

theorem flatMap_snd_iterGroups (block : List R) :
    (C.iterGroups cols block).flatMap Prod.snd = block := by
  by_cases hcols : cols = []
  · unfold Columns.iterGroups
    rw [if_pos hcols]
    exact List.append_nil block
  · rw [iterGroups_of_ne_nil C cols hcols, List.flatMap_map]
    exact List.flatMap_id'.trans (List.flatten_splitBy _ block)

variable {block : List R} {t : Tagged R V}

theorem exists_of_mem_iterGroups (hcols : cols ≠ []) (ht : t ∈ C.iterGroups cols block) :
    ∃ r rs, t = (C.key cols r, r :: rs) ∧
      (r :: rs).IsChain (fun r r' => cols.any (fun col => C.differ block col r r') = false) := by
  rw [iterGroups_of_ne_nil C cols hcols, List.mem_map] at ht
  obtain ⟨group, hgroup, rfl⟩ := ht
  obtain ⟨r, rs, rfl⟩ := List.exists_cons_of_ne_nil (List.ne_nil_of_mem_splitBy hgroup)
  refine ⟨r, rs, rfl, (List.isChain_of_mem_splitBy hgroup).imp (fun r r' h => ?_)⟩
  simpa using h

theorem isKey_of_mem_iterGroups (ht : t ∈ C.iterGroups cols block) :
    IsKey cols t.1 := by
  by_cases hcols : cols = []
  · unfold Columns.iterGroups at ht
    rw [if_pos hcols, List.mem_singleton] at ht
    subst ht hcols
    exact ⟨fun _ => .none, rfl⟩
  · obtain ⟨r, rs, rfl, -⟩ := exists_of_mem_iterGroups C cols hcols ht
    exact ⟨C.cell r, rfl⟩

theorem map_fst_iterGroups_sublist (hcols : cols ≠ []) (block : List R) :
    ((C.iterGroups cols block).map Prod.fst).Sublist (block.map (C.key cols)) := by
  have hflat := flatMap_snd_iterGroups C cols block
  have hmem : ∀ t ∈ C.iterGroups cols block, ∃ r rs, t = (C.key cols r, r :: rs) := by
    intro t ht
    obtain ⟨r, rs, heq, -⟩ := exists_of_mem_iterGroups C cols hcols ht
    exact ⟨r, rs, heq⟩
  conv_rhs => rw [← hflat]
  generalize C.iterGroups cols block = ts at hmem
  induction ts with
  | nil => exact List.Sublist.slnil
  | cons t ts ih =>
    rw [List.forall_mem_cons] at hmem
    obtain ⟨⟨r, rs, rfl⟩, hmem⟩ := hmem
    rw [List.flatMap_cons, List.map_append]
    exact ((ih hmem).trans (List.sublist_append_right _ _)).cons_cons _

variable {C cols} {blocks : List (List R)}

theorem validTag_of_mem_iterGroups (htell : BoundariesTell C cols blocks) (hblock : block ∈ blocks)
    (ht : t ∈ C.iterGroups cols block) : ValidTag C cols t := by
  refine ⟨isKey_of_mem_iterGroups C cols ht, fun r hr => ?_, fun hcols => ?_⟩
  · by_cases hcols : cols = []
    · obtain ⟨f, hf⟩ := isKey_of_mem_iterGroups C cols ht
      rw [hf, hcols]
      rfl
    · -- Two neighbours of a group are neighbours in the block that no column tells apart.
      have hflat := flatMap_snd_iterGroups C cols block
      obtain ⟨r₀, rs, rfl, hchain⟩ := exists_of_mem_iterGroups C cols hcols ht
      obtain ⟨pre, post, hsplit⟩ := List.append_of_mem ht
      have hblock' : block = pre.flatMap Prod.snd ++ ((r₀ :: rs) ++ post.flatMap Prod.snd) := by
        rw [← hflat, hsplit, List.flatMap_append, List.flatMap_cons]
      have hkeys : ((r₀ :: rs).map (C.key cols)).IsChain (· = ·) := by
        rw [List.isChain_map, List.isChain_iff_forall_rel_of_append_cons_cons]
        intro r r' l₁ l₂ hrs
        by_contra hne
        obtain ⟨col, hcol, hdiffer⟩ := htell block hblock (pre.flatMap Prod.snd ++ l₁) r r'
          (l₂ ++ post.flatMap Prod.snd) (by rw [hblock', hrs]; simp) hne
        have hfalse := List.isChain_iff_forall_rel_of_append_cons_cons.mp hchain hrs
        rw [List.any_eq_false] at hfalse
        exact hfalse col hcol hdiffer
      exact List.Pairwise.forall_of_forall (fun _ _ => rfl) (List.isChain_iff_pairwise.mp hkeys)
        (List.mem_map_of_mem hr) (List.mem_map_of_mem (.head _))
  · obtain ⟨r, rs, rfl, -⟩ := exists_of_mem_iterGroups C cols hcols ht
    exact List.cons_ne_nil r rs

variable [LinearOrder V]

theorem tagInv_start (hne : blocks ≠ []) (hsorted : KeySorted C cols blocks)
    (htell : BoundariesTell C cols blocks) :
    TagInv C cols blocks.flatten (blocks.map (C.iterGroups cols)) where
  ne_nil h := hne (List.map_eq_nil_iff.mp h)
  valid := by
    rw [List.forall_mem_map]
    exact fun block hblock t ht => validTag_of_mem_iterGroups htell hblock ht
  sorted := by
    rw [List.forall_mem_map]
    intro block hblock
    by_cases hcols : cols = []
    · unfold Columns.iterGroups
      rw [if_pos hcols]
      exact List.pairwise_singleton _ _
    · have hkeys : (block.map (C.key cols)).Pairwise (fun k k' => safeKey k ≤ safeKey k') :=
        List.pairwise_map.mpr (hsorted block hblock)
      have hpair := hkeys.sublist (map_fst_iterGroups_sublist C cols hcols block)
      rw [List.pairwise_map] at hpair
      exact hpair
  order c := by
    have hvalid : ∀ t ∈ (blocks.map (C.iterGroups cols)).flatten, ValidTag C cols t := by
      refine mem_of_mem_flatten ?_
      rw [List.forall_mem_map]
      exact fun block hblock t ht => validTag_of_mem_iterGroups htell hblock ht
    have hflat : (blocks.map (C.iterGroups cols)).flatten.flatMap Prod.snd = blocks.flatten := by
      rw [← List.flatMap_def, List.flatMap_assoc]
      simp only [flatMap_snd_iterGroups]
      exact List.flatMap_id'
    rw [← filter_flatMap_snd hvalid (fun k => decide (safeKey k = c)), hflat]
  exists_tag hcols := by
    obtain ⟨block, blocks, rfl⟩ := List.exists_cons_of_ne_nil hne
    rw [List.map_cons, List.flatten_cons]
    unfold Columns.iterGroups
    rw [if_pos hcols]
    exact List.cons_ne_nil _ _

end block

/-! ### Separable blocks are grouped right -/

section enough
variable {C : Columns R V F} {cols : List String}

theorem AggregateFn.Lawful.accumulated_perm {agg : AggregateFn R V} (hagg : agg.Lawful)
    (k : List (PyValue V))
    {xs ys : List R} (h : xs.Perm ys) : agg.accumulated k xs = agg.accumulated k ys := by
  have hcons : ∀ (r : R) (rs : List R), rs ≠ [] →
      agg.accumulated k (r :: rs) = agg.merge (agg.accumulated k [r]) (agg.accumulated k rs) := by
    intro r rs hrs
    exact (hagg.compatible k [r] rs (fun _ => ⟨List.cons_ne_nil r [], hrs⟩)).symm
  induction h with
  | nil => rfl
  | cons r hperm ih =>
    rename_i rs rs'
    by_cases hrs : rs = []
    · subst hrs
      rw [hperm.symm.eq_nil]
    · rw [hcons r rs hrs, hcons r rs' (fun hnil => hrs (by rw [hnil] at hperm; exact hperm.eq_nil)), ih]
  | swap r r' rs =>
    by_cases hrs : rs = []
    · subst hrs
      rw [hcons r' [r] (List.cons_ne_nil r []), hcons r [r'] (List.cons_ne_nil r' []), hagg.comm]
    · rw [hcons r' (r :: rs) (List.cons_ne_nil r rs), hcons r rs hrs,
        hcons r (r' :: rs) (List.cons_ne_nil r' rs), hcons r' rs hrs, ← hagg.assoc,
        hagg.comm (agg.accumulated k [r']), hagg.assoc]
  | trans _ _ ih ih' => exact ih.trans ih'

theorem map_fst_sublist_map_key {ts : List (Tagged R V)} (hvalid : ∀ t ∈ ts, ValidTag C cols t)
    (hcols : cols ≠ []) :
    (ts.map Prod.fst).Sublist ((ts.flatMap Prod.snd).map (C.key cols)) := by
  induction ts with
  | nil => exact List.Sublist.slnil
  | cons t ts ih =>
    rw [List.forall_mem_cons] at hvalid
    obtain ⟨r, rs, hrs⟩ := List.exists_cons_of_ne_nil (hvalid.1.ne_nil hcols)
    have hkey : C.key cols r = t.1 := hvalid.1.key_eq r (by rw [hrs]; exact List.mem_cons_self)
    rw [List.map_cons, List.flatMap_cons, hrs, List.map_append, List.map_cons, hkey]
    exact ((ih hvalid.2).trans (List.sublist_append_right _ _)).cons_cons _

variable {k : List (PyValue V)}

theorem eq_of_isKey_of_nil (hcols : cols = []) {k' : List (PyValue V)} (hk : IsKey cols k)
    (hk' : IsKey cols k') :
    k = k' := by
  subst hcols
  obtain ⟨f, rfl⟩ := hk
  obtain ⟨f', rfl⟩ := hk'
  rfl

variable [DecidableEq V] [LinearOrder V] {rows : List R} {parts : List (List (Tagged R V))}

theorem noReturn_merged (h : TagInv C cols rows parts)
    (hreturn : ∀ a b, [a, b, a].Sublist (rows.map (C.key cols)) → safeKey a = safeKey b → a = b) :
    NoReturn ((mergeAll (fun t => safeKey t.1) parts).map Prod.fst) := by
  intro a b hab
  have hvalid := mem_of_mem_flatten h.valid
  have hmem : ∀ k ∈ [a, b, a], IsKey cols k := by
    intro k hk
    obtain ⟨t, ht, rfl⟩ := List.mem_map.mp (hab.subset hk)
    exact (hvalid t ((mergeAll_perm _ parts).mem_iff.mp ht)).isKey
  by_cases hcols : cols = []
  · exact eq_of_isKey_of_nil hcols (hmem a (by simp)) (hmem b (by simp))
  · have hsorted : ((mergeAll (fun t => safeKey t.1) parts).map Prod.fst).Pairwise
      (fun k k' => safeKey k ≤ safeKey k') :=
      List.pairwise_map.mpr (sorted_mergeAll h.sorted)
    have hsafe : safeKey a = safeKey b := by
      have hpair := hsorted.sublist hab
      simp only [List.pairwise_cons, List.mem_cons, List.not_mem_nil, or_false, forall_eq_or_imp,
        forall_eq] at hpair
      exact le_antisymm hpair.1.1 hpair.2.1
    -- The three lie in one class of keys, in which the merge keeps the order of the rows.
    have hclass : [a, b, a].Sublist (((mergeAll (fun t : Tagged R V => safeKey t.1) parts).filter
        (fun t => safeKey t.1 = safeKey a)).map Prod.fst) := by
      have hfilter := hab.filter (fun k => decide (safeKey k = safeKey a))
      rw [List.filter_map, List.filter_eq_self.mpr] at hfilter
      · exact hfilter
      · simp [hsafe]
    rw [filter_mergeAll h.sorted (fun t => decide_eq_true_iff)] at hclass
    have hrows := hclass.trans
      (map_fst_sublist_map_key (fun t ht => hvalid t (List.mem_filter.mp ht).1) hcols)
    rw [h.order] at hrows
    exact hreturn a b (hrows.trans (List.filter_sublist.map _)) hsafe

theorem snd_eq_filter (h : TagInv C cols rows parts)
    (hreturn : NoReturn ((mergeAll (fun t => safeKey t.1) parts).map Prod.fst)) {t : Tagged R V}
    (ht : t ∈ combineTagged parts) : t.2 = rows.filter (fun r => C.key cols r = t.1) := by
  obtain ⟨g, hg, rfl⟩ := List.mem_map.mp ht
  obtain ⟨t, g', rfl⟩ := List.exists_cons_of_ne_nil (ne_nil_of_mem_tagGroups hg)
  have hgroup := mem_runs_eq_filter hreturn hg rfl
  have hvalid := mem_of_mem_flatten h.valid
  show (t :: g').flatMap Prod.snd = rows.filter (fun r => C.key cols r = t.1)
  have hclass : ∀ ts : List (Tagged R V), ts.filter (fun t' => t'.1 = t.1) =
      (ts.filter (fun t' => safeKey t'.1 = safeKey t.1)).filter (fun t' => t'.1 = t.1) := by
    intro ts
    rw [List.filter_filter]
    refine List.filter_congr (fun t' _ => ?_)
    by_cases heq : t'.1 = t.1
    · simp [heq]
    · simp [heq]
  rw [hgroup, hclass, filter_mergeAll h.sorted (fun t => decide_eq_true_iff),
    ← filter_flatMap_snd (fun t ht => hvalid t (List.mem_filter.mp ht).1)
      (fun k => decide (k = t.1)), h.order,
    List.filter_filter]
  refine List.filter_congr (fun r _ => ?_)
  by_cases heq : C.key cols r = t.1
  · simp [heq]
  · simp [heq]

theorem mem_fst_combineTagged :
    k ∈ (combineTagged parts).map Prod.fst ↔ ∃ t ∈ parts.flatten, t.1 = k := by
  unfold combineTagged
  rw [List.map_map, List.mem_map]
  constructor
  · rintro ⟨g, hg, rfl⟩
    obtain ⟨t, g', rfl⟩ := List.exists_cons_of_ne_nil (ne_nil_of_mem_tagGroups hg)
    obtain ⟨part, hpart, ht⟩ := mem_of_mem_tagGroups hg (.head _)
    exact ⟨t, List.mem_flatten.mpr ⟨part, hpart, ht⟩, rfl⟩
  · rintro ⟨t, ht, rfl⟩
    rw [← (mergeAll_perm (fun t => safeKey t.1) parts).mem_iff,
      ← flatten_runs Prod.fst (mergeAll (fun t : Tagged R V => safeKey t.1) parts)] at ht
    obtain ⟨g, hg, ht⟩ := List.mem_flatten.mp ht
    exact ⟨g, hg, (fst_eq_firstKey hg ht).symm⟩

theorem keys_combineTagged_perm (h : TagInv C cols rows parts)
    (hreturn : NoReturn ((mergeAll (fun t => safeKey t.1) parts).map Prod.fst)) :
    ((combineTagged parts).map Prod.fst).Perm (C.groupKeys cols rows) := by
  have hnodup : ((combineTagged parts).map Prod.fst).Nodup := by
    rw [map_fst_combineTagged]
    exact (nodup_runKeys_iff _).mpr hreturn
  have hvalid := mem_of_mem_flatten h.valid
  unfold Columns.groupKeys
  by_cases hcols : cols = []
  · rw [if_pos hcols]
    have hnil : ∀ t ∈ parts.flatten, t.1 = [] := by
      intro t ht
      obtain ⟨f, hf⟩ := (hvalid t ht).isKey
      rw [hf, hcols]
      rfl
    refine (List.perm_ext_iff_of_nodup hnodup (List.nodup_singleton _)).mpr (fun k => ?_)
    rw [mem_fst_combineTagged, List.mem_singleton]
    constructor
    · rintro ⟨t, ht, rfl⟩
      exact hnil t ht
    · rintro rfl
      obtain ⟨t, ht⟩ := List.exists_mem_of_ne_nil _ (h.exists_tag hcols)
      exact ⟨t, ht, hnil t ht⟩
  · rw [if_neg hcols]
    refine (List.perm_ext_iff_of_nodup hnodup (List.nodup_dedup _)).mpr (fun k => ?_)
    rw [mem_fst_combineTagged, List.mem_dedup, List.mem_map]
    have hrows : ∀ r, r ∈ rows ↔ ∃ t ∈ parts.flatten, r ∈ t.2 := by
      intro r
      have horder := h.order (safeKey (C.key cols r))
      have hmem : r ∈ rows ↔
        r ∈ rows.filter (fun r' => safeKey (C.key cols r') = safeKey (C.key cols r)) := by
        simp [List.mem_filter]
      rw [hmem, ← horder, List.mem_flatMap]
      constructor
      · rintro ⟨t, ht, hr⟩
        exact ⟨t, (List.mem_filter.mp ht).1, hr⟩
      · rintro ⟨t, ht, hr⟩
        refine ⟨t, List.mem_filter.mpr ⟨ht, ?_⟩, hr⟩
        rw [(hvalid t ht).key_eq r hr]
        exact decide_eq_true rfl
    constructor
    · rintro ⟨t, ht, rfl⟩
      obtain ⟨r, rs, hrs⟩ := List.exists_cons_of_ne_nil ((hvalid t ht).ne_nil hcols)
      have hr : r ∈ t.2 := by
        rw [hrs]
        exact .head _
      exact ⟨r, (hrows r).mpr ⟨t, ht, hr⟩, (hvalid t ht).key_eq r hr⟩
    · rintro ⟨r, hr, rfl⟩
      obtain ⟨t, ht, hr⟩ := (hrows r).mp hr
      exact ⟨t, ht, ((hvalid t ht).key_eq r hr).symm⟩

variable {aggs : List (AggregateFn R V)}

theorem exists_tagInv_of_combined {B : BlockRows V} {start : List (List (Tagged R V))}
    (hback : GivesBack B C cols aggs rows) (hnames : NamesDistinct cols (aggs.map (·.name)))
    (hlawful : ∀ agg ∈ aggs, agg.Lawful) (h : TagInv C cols rows start)
    {blocks : List (List (AggregatedRow V))}
    (hcombined : Combined B cols aggs (start.map (List.map (realize cols aggs))) blocks) :
    ∃ parts, blocks = parts.map (List.map (realize cols aggs)) ∧ TagInv C cols rows parts := by
  induction hcombined with
  | start => exact ⟨start, rfl, h⟩
  | combine _ hblock ih =>
    obtain ⟨parts, heq, hinv⟩ := ih
    obtain ⟨pre', post, rfl, hpre, rfl⟩ := List.map_eq_append_iff.mp heq.symm
    obtain ⟨pre, group, rfl, rfl, rfl⟩ := List.map_eq_append_iff.mp hpre
    have hgroup : group ≠ [] := by
      rintro rfl
      cases hblock
    rw [combineAggregatedBlocks_realize hback hnames hlawful hgroup
      (fun part hpart => hinv.valid_subset part
        (List.mem_append_left _ (List.mem_append_right _ hpart)))] at hblock
    cases hblock
    exact ⟨pre ++ [combineTagged group] ++ post, by simp, hinv.combine⟩

theorem rightRows_final (hnames : NamesDistinct cols (aggs.map (·.name)))
    (hlawful : ∀ agg ∈ aggs, agg.Lawful) (h : TagInv C cols rows parts)
    (hreturn : ∀ a b, [a, b, a].Sublist (rows.map (C.key cols)) → safeKey a = safeKey b → a = b)
    {rows' : List R}
    (hrows : rows'.Perm rows) :
    RightRows C cols aggs rows' ((combineTagged parts).map (finalRow cols aggs)) := by
  have hmerged := noReturn_merged h hreturn
  have hvalid := validTag_combineTagged h.valid
  have hkey : ∀ t ∈ combineTagged parts, AggregatedRow.key cols (finalRow cols aggs t) = t.1 :=
    fun t ht => key_buildRow (hvalid t ht).isKey hnames.2
  refine ⟨?_, ?_⟩
  · have hmap : ((combineTagged parts).map (finalRow cols aggs)).map (AggregatedRow.key cols) =
        (combineTagged parts).map Prod.fst := by
      rw [List.map_map]
      exact List.map_congr_left hkey
    have hgroups : (C.groupKeys cols rows').Perm (C.groupKeys cols rows) := by
      unfold Columns.groupKeys
      split_ifs
      · exact List.Perm.refl _
      · exact (hrows.map _).dedup
    rw [hmap]
    exact (keys_combineTagged_perm h hmerged).trans hgroups.symm
  · rw [List.forall_mem_map]
    intro t ht agg hagg
    rw [hkey t ht]
    have hread : (finalRow cols aggs t).get? agg.2 =
      some (agg.1.finalize (agg.1.accumulated t.1 t.2)) :=
      get?_buildRow_accumulator
        (fun p : AggregateFn R V × String => p.1.finalize (p.1.accumulated t.1 t.2))
        (length_names aggs) hnames.1 hnames.2 hagg
    rw [hread, (hlawful agg.1 (List.of_mem_zip hagg).1).accumulated_perm t.1 (hrows.filter _),
      ← snd_eq_filter h hmerged ht]

end enough
end RayTfm.Data
