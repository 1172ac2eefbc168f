import RayTfm.Data.RefBundle

/-! # Equal splits

The model of `data/_internal/equalize.py`.  Every split keeps the blocks that fit into the common
size, in order; the other blocks of all splits are pooled and cut at the numbers of rows that the
splits still need.  Slices are not looked at: the callers pass full blocks.

`equalize_spec`: for every list of splits, none of the checks fails, all splits come out with the
same number of rows, and fewer rows are dropped than there are splits. -/

namespace RayTfm.Data

variable {α : Type}

/-- The blocks of a bundle in the form that splitting works on. -/
def RefBundle.blocksWithMetadata (b : RefBundle (Block α)) : BlockPartition α :=
  b.blocks.map (fun e => (e.1.ref, e.1.metadata))

/-- `BlockEntry` for every block. -/
def toEntries (split : BlockPartition α) : List (SlicedEntry (Block α)) :=
  split.map (fun p => (⟨p.1, p.2⟩, none))

/-- `sum([meta.num_rows for _, meta in split])`. -/
def sumNumRows : BlockPartition α → Except PyError ℤ
  | [] => .ok 0
  | (_, m) :: split =>
    match m.numRows with
    | none => .error .typeError
    | some n => do
        let rest ← sumNumRows split
        .ok (n + rest)

/-- The loop of `_shave_one_split`: what is shaved, what is left over, and the shaved rows. -/
def shaveLoop (targetSize : ℤ) : BlockPartition α → List ℕ → ℤ →
    BlockPartition α × BlockPartition α × ℤ
  | p :: split, n :: numRowsPerBlock, shavedRows =>
    if n + shavedRows ≤ targetSize then
      let r := shaveLoop targetSize split numRowsPerBlock (shavedRows + n)
      (p :: r.1, r.2)
    else
      let r := shaveLoop targetSize split numRowsPerBlock shavedRows
      (r.1, p :: r.2.1, r.2.2)
  | _, _, shavedRows => ([], [], shavedRows)

/-- `_shave_one_split`. -/
def shaveOneSplit (split : BlockPartition α) (numRowsPerBlock : List ℕ) (targetSize : ℤ) :
    BlockPartition α × ℤ × BlockPartition α :=
  let r := shaveLoop targetSize split numRowsPerBlock 0
  (r.1, targetSize - r.2.2, r.2.1)

/-- `_shave_all_splits`. -/
def shaveAllSplits (targetSize : ℤ) : List (BlockPartition α) → List (List ℕ) →
    List (BlockPartition α) × List ℤ × BlockPartition α
  | split :: inputSplits, numRowsPerBlock :: perSplitNumRows =>
    let r := shaveOneSplit split numRowsPerBlock targetSize
    let rest := shaveAllSplits targetSize inputSplits perSplitNumRows
    (r.1 :: rest.1, r.2.1 :: rest.2.1, r.2.2 ++ rest.2.2)
  | _, _ => ([], [], [])

/-- The running sums of the needed rows, from `prev` on. -/
def splitIndicesFrom (prev : ℤ) : List ℤ → List ℤ
  | [] => []
  | needed :: l => (prev + needed) :: splitIndicesFrom (prev + needed) l

/-- `_split_leftovers`. -/
def splitLeftovers (sizeBytes : Block α → ℕ) (leftovers : RefBundle (Block α))
    (perSplitNeededRows : List ℤ) : Except PyError (List (BlockPartition α)) := do
  let r ← splitAtIndices sizeBytes leftovers.blocksWithMetadata
    (splitIndicesFrom 0 perSplitNeededRows) none
  .ok ((List.zipWith List.zip r.1 r.2).take perSplitNeededRows.length)

/-- The checks after shaving. -/
def checkShaved (targetSize : ℤ) : List (BlockPartition α) → List ℤ → Except PyError Unit
  | split :: shavedSplits, needed :: perSplitNeededRows => do
      let numShavedRows ← sumNumRows split
      pyAssert (numShavedRows ≤ targetSize)
      pyAssert (numShavedRows + needed = targetSize)
      checkShaved targetSize shavedSplits perSplitNeededRows
  | _, _ => .ok ()

/-- The loop that adds the leftover splits to the shaved ones. -/
def mergeLeftovers (targetSize : ℤ) : List (BlockPartition α) → List (BlockPartition α) →
    Except PyError (List (BlockPartition α))
  | shavedSplits, [] => .ok shavedSplits
  | [], _ :: _ => .error .indexError
  | split :: shavedSplits, leftoverSplit :: leftoverSplits => do
      let numShavedRows ← sumNumRows (split ++ leftoverSplit)
      pyAssert (numShavedRows = targetSize)
      let rest ← mergeLeftovers targetSize shavedSplits leftoverSplits
      .ok ((split ++ leftoverSplit) :: rest)

/-- `_equalize`. -/
def equalize (sizeBytes : Block α → ℕ) (perSplitBundles : List (RefBundle (Block α)))
    (ownedByConsumer : Bool) : Except PyError (List (RefBundle (Block α))) :=
  if perSplitBundles.length = 0 then .ok perSplitBundles
  else do
    let perSplitBlocks := perSplitBundles.map RefBundle.blocksWithMetadata
    let perSplitNumRows := perSplitBlocks.map calculateBlocksRows
    let totalRows := (perSplitNumRows.map List.sum).sum
    let targetSplitSize : ℤ := (totalRows / perSplitBlocks.length : ℕ)
    let r := shaveAllSplits targetSplitSize perSplitBlocks perSplitNumRows
    checkShaved targetSplitSize r.1 r.2.1
    let schema := takeFirstNonEmptySchema (perSplitBundles.map RefBundle.schema)
    let leftoverBundle ← RefBundle.make (toEntries r.2.2) schema ownedByConsumer
    let leftoverSplits ← splitLeftovers sizeBytes leftoverBundle r.2.1
    let splits ← mergeLeftovers targetSplitSize r.1 leftoverSplits
    splits.mapM (fun split => RefBundle.make (toEntries split) schema ownedByConsumer)

/-! ### Shaving -/

/-- What stays and what is left over make up the split, and what stays fits. -/
theorem shaveLoop_spec (target : ℕ) : ∀ (split : BlockPartition α) (shaved : ℕ), shaved ≤ target →
    ((shaveLoop target split (split.map pieceRows) shaved).1 ++
        (shaveLoop target split (split.map pieceRows) shaved).2.1).Perm split ∧
      (shaveLoop target split (split.map pieceRows) shaved).2.2 =
        (shaved + total pieceRows (shaveLoop target split (split.map pieceRows) shaved).1 : ℕ) ∧
      shaved + total pieceRows (shaveLoop target split (split.map pieceRows) shaved).1 ≤ target
  | [], shaved, h => ⟨.nil, rfl, h⟩
  | p :: split, shaved, h => by
    rw [List.map_cons, shaveLoop]
    split_ifs with hfit
    · obtain ⟨hperm, hrows, hle⟩ := shaveLoop_spec target split (shaved + pieceRows p) (by omega)
      push_cast at hperm hrows hle ⊢
      refine ⟨hperm.cons p, ?_, ?_⟩
      · rw [total_cons, hrows]
        push_cast
        ring
      · rw [total_cons]
        omega
    · obtain ⟨hperm, hrows, hle⟩ := shaveLoop_spec target split shaved h
      exact ⟨List.perm_middle.trans (hperm.cons p), hrows, hle⟩

theorem shaveAllSplits_spec (target : ℕ) (splits : List (BlockPartition α)) :
    let r := shaveAllSplits target splits (splits.map (fun s => s.map pieceRows))
    ∃ needed : List ℕ, r.2.1 = needed.map Nat.cast ∧
      List.Forall₂ (fun s n => total pieceRows s + n = target) r.1 needed ∧
      (r.1.flatten ++ r.2.2).Perm splits.flatten ∧ r.1.length = splits.length := by
  induction splits with
  | nil => exact ⟨[], rfl, .nil, .nil, rfl⟩
  | cons split splits ih =>
    obtain ⟨needed, hneeded, hfit, hperm, hlen⟩ := ih
    obtain ⟨hperm', hrows, hle⟩ := shaveLoop_spec target split 0 (Nat.zero_le _)
    rw [Nat.zero_add] at hrows hle
    simp only [List.map_cons, shaveAllSplits, shaveOneSplit]
    generalize shaveAllSplits (target : ℤ) splits (splits.map (fun s => s.map pieceRows)) = r
      at hneeded hfit hperm hlen ⊢
    rw [Nat.cast_zero] at hperm' hrows hle
    generalize shaveLoop (target : ℤ) split (split.map pieceRows) 0 = q at hperm' hrows hle ⊢
    refine ⟨(target - total pieceRows q.1) :: needed, ?_, .cons (by omega) hfit, ?_, ?_⟩
    · rw [hrows, hneeded, List.map_cons, Nat.cast_sub hle]
    · rw [List.flatten_cons, List.flatten_cons]
      calc (q.1 ++ r.1.flatten ++ (q.2.1 ++ r.2.2)).Perm (q.1 ++ q.2.1 ++ (r.1.flatten ++ r.2.2)) := by
            simp only [List.append_assoc]
            exact (List.perm_append_comm_assoc _ _ _).append_left _
        _ |>.Perm (split ++ splits.flatten) := hperm'.append hperm
    · rw [List.length_cons, List.length_cons, hlen]

variable {split : BlockPartition α}

theorem sumNumRows_eq (h : ∀ p ∈ split, Counted p) :
    sumNumRows split = .ok (total pieceRows split : ℤ) := by
  induction split with
  | nil => rfl
  | cons p split ih =>
    obtain ⟨b, m⟩ := p
    have hm : m.numRows = some b.rows.length := h (b, m) (.head _)
    rw [sumNumRows, hm]
    simp only [ih (fun q hq => h q (.tail _ hq)), ok_bind, total_cons, pieceRows]
    rfl

variable {target : ℕ} {shaved : List (BlockPartition α)}

theorem checkShaved_eq {needed : List ℕ}
    (hfit : List.Forall₂ (fun s n => total pieceRows s + n = target) shaved needed)
    (hc : ∀ s ∈ shaved, ∀ p ∈ s, Counted p) :
    checkShaved target shaved (needed.map Nat.cast) = .ok () := by
  induction hfit with
  | nil => rfl
  | @cons s n shaved needed hs _ ih =>
    have hle : ((total pieceRows s : ℤ) ≤ target) = True := by
      rw [eq_iff_iff, iff_true]
      omega
    have heq : ((total pieceRows s : ℤ) + n = target) = True := by
      rw [eq_iff_iff, iff_true]
      omega
    rw [List.map_cons, checkShaved, sumNumRows_eq (hc s List.mem_cons_self), ok_bind]
    simp only [hle, heq, decide_true, pyAssert_true, ok_bind]
    exact ih (fun s' hs' => hc s' (.tail _ hs'))

/-! ### Cutting the leftovers -/

theorem splitIndicesFrom_cast (a : ℕ) (ns : List ℕ) :
    splitIndicesFrom a (ns.map Nat.cast) = (partialSums a ns).map Nat.cast := by
  induction ns generalizing a with
  | nil => rfl
  | cons n ns ih =>
    rw [List.map_cons, splitIndicesFrom, partialSums, List.map_cons, ← Nat.cast_add, ih]

variable {b : RefBundle (Block α)}

theorem blocksWithMetadata_toEntries
    (h : b.blocks = toEntries split) : b.blocksWithMetadata = split := by
  rw [RefBundle.blocksWithMetadata, h, toEntries, List.map_map]
  exact List.map_id split

theorem splitLeftovers_spec (sizeBytes : Block α → ℕ)
    {leftovers : BlockPartition α} (hb : b.blocks = toEntries leftovers)
    (hc : ∀ p ∈ leftovers, Counted p) {ns : List ℕ} (hsum : ns.sum ≤ (allRows leftovers).length) :
    ∃ gs dropped, splitLeftovers sizeBytes b (ns.map Nat.cast) = .ok gs ∧
      gs.map (total pieceRows) = ns ∧
      (∀ g ∈ gs, ∀ p ∈ g, Counted p ∧ p.2.sizeBytes.isSome = true) ∧
      allRows gs.flatten ++ dropped = allRows leftovers ∧
      dropped.length = (allRows leftovers).length - ns.sum := by
  obtain ⟨gs, he, hrows, hcounted, hsz⟩ :=
    splitAtIndices_partialSums sizeBytes leftovers ns none hc (.inl rfl) hsum
  have hsizes : ∀ g ∈ gs, ∀ p ∈ g, p.2.sizeBytes.isSome = true := by
    intro g hg p hp
    have hknown : ∀ p ∈ leftovers, p.2.sizeBytes.isSome = true := by
      intro q hq
      refine b.sizes_known (⟨q.1, q.2⟩, none) ?_
      rw [hb]
      exact List.mem_map.mpr ⟨q, hq, rfl⟩
    exact splitAtIndices_sizes hknown he _ (List.mem_map.mpr ⟨g, hg, rfl⟩) _
      (List.mem_map.mpr ⟨p, hp, rfl⟩)
  have hzip : List.zipWith List.zip (gs.map (fun g => g.map Prod.fst))
      (gs.map (fun g => g.map Prod.snd)) = gs := by
    rw [List.zipWith_map, List.zipWith_self]
    conv_rhs => rw [← List.map_id gs]
    apply List.map_congr_left
    intro g _
    exact (List.zip_of_prod rfl rfl).symm
  have htake : (gs.take ns.length).map (total pieceRows) = ns := by
    rw [List.map_take, hsz, List.take_left]
  have hsplit : allRows (gs.take ns.length).flatten ++ allRows (gs.drop ns.length).flatten =
      allRows leftovers := by
    rw [← allRows_append, ← List.flatten_append, List.take_append_drop, hrows]
  refine ⟨gs.take ns.length, allRows (gs.drop ns.length).flatten, ?_, htake, ?_, hsplit, ?_⟩
  · rw [splitLeftovers, blocksWithMetadata_toEntries hb, ← Nat.cast_zero, splitIndicesFrom_cast, he]
    simp only [ok_bind, hzip, List.length_map]
  · intro g hg p hp
    have hg' := List.mem_of_mem_take hg
    exact ⟨hcounted g hg' p hp, hsizes g hg' p hp⟩
  · have hlen := congrArg List.length hsplit
    have htotal : (allRows (gs.take ns.length).flatten).length = ns.sum := by
      rw [length_allRows, total_flatten, htake]
    rw [List.length_append, htotal] at hlen
    omega

variable {gs : List (BlockPartition α)}

theorem mergeLeftovers_eq (hfit : List.Forall₂ (fun s n => total pieceRows s + n = target) shaved
      (gs.map (total pieceRows)))
    (hs : ∀ s ∈ shaved, ∀ p ∈ s, Counted p) (hg : ∀ g ∈ gs, ∀ p ∈ g, Counted p) :
    mergeLeftovers target shaved gs = .ok (List.zipWith (· ++ ·) shaved gs) := by
  induction gs generalizing shaved with
  | nil =>
    cases hfit
    rfl
  | cons g gs ih =>
    obtain ⟨s, shaved', hsn, hfit', rfl⟩ := List.forall₂_cons_right_iff.mp hfit
    have hc : ∀ p ∈ s ++ g, Counted p := by
      intro p hp
      obtain hp | hp := List.mem_append.mp hp
      · exact hs s (.head _) p hp
      · exact hg g (.head _) p hp
    rw [mergeLeftovers, sumNumRows_eq hc, ok_bind, total_append, hsn, decide_eq_true rfl,
      pyAssert_true, ok_bind,
      ih hfit' (fun s' h => hs s' (.tail _ h)) (fun g' h => hg g' (.tail _ h))]
    rfl

/-! ### The whole of `_equalize` -/

theorem sum_of_forall₂ {needed : List ℕ}
    (hfit : List.Forall₂ (fun s n => total pieceRows s + n = target) shaved needed) :
    total pieceRows shaved.flatten + needed.sum = shaved.length * target := by
  induction hfit with
  | nil => simp
  | cons hs _ ih =>
    rw [List.flatten_cons, total_append, List.sum_cons, List.length_cons, Nat.succ_mul]
    omega

theorem total_of_mem_zipWith (hfit : List.Forall₂ (fun s n => total pieceRows s + n = target) shaved
      (gs.map (total pieceRows))) :
    ∀ s ∈ List.zipWith (· ++ ·) shaved gs, total pieceRows s = target := by
  induction gs generalizing shaved with
  | nil =>
    cases hfit
    simp
  | cons g gs ih =>
    obtain ⟨s, shaved', hsn, hfit', rfl⟩ := List.forall₂_cons_right_iff.mp hfit
    intro s' hs'
    obtain rfl | hs' := List.mem_cons.mp hs'
    · rw [total_append, hsn]
    · exact ih hfit' s' hs'

theorem flatten_zipWith_append {β : Type} : ∀ {l m : List (List β)}, l.length = m.length →
    (List.zipWith (· ++ ·) l m).flatten.Perm (l.flatten ++ m.flatten)
  | [], [], _ => .nil
  | a :: l, b :: m, h => by
    have ih := flatten_zipWith_append (Nat.succ.inj h)
    rw [List.zipWith_cons_cons, List.flatten_cons, List.flatten_cons, List.flatten_cons]
    calc (a ++ b ++ (List.zipWith (· ++ ·) l m).flatten).Perm (a ++ b ++ (l.flatten ++ m.flatten)) :=
          ih.append_left _
      _ |>.Perm (a ++ l.flatten ++ (b ++ m.flatten)) := by
          simp only [List.append_assoc]
          exact (List.perm_append_comm_assoc _ _ _).append_left _

theorem allRows_perm {ps qs : BlockPartition α} (h : ps.Perm qs) : (allRows ps).Perm (allRows qs) :=
  (h.map _).flatten

theorem rows_toEntries (h : b.blocks = toEntries split) : b.rows Block.rows = allRows split := by
  rw [RefBundle.rows, h, toEntries, RefBundle.content, List.flatMap_map, allRows, List.flatMap_def]
  rfl

theorem make_toEntries (h : ∀ p ∈ split, p.2.sizeBytes.isSome = true)
    (schema : Option Schema) (owned : Bool) :
    ∃ b, RefBundle.make (toEntries split) schema owned = .ok b ∧ b.blocks = toEntries split := by
  refine RefBundle.make_eq_ok (fun e he => ?_) (fun e he => ?_) schema owned
  · obtain ⟨p, -, rfl⟩ := List.mem_map.mp he
    exact nofun
  · obtain ⟨p, hp, rfl⟩ := List.mem_map.mp he
    exact h p hp

theorem mapM_make {splits : List (BlockPartition α)}
    (hc : ∀ s ∈ splits, ∀ p ∈ s, Counted p ∧ p.2.sizeBytes.isSome = true) (schema : Option Schema)
    (owned : Bool) :
    ∃ out, splits.mapM (fun split => RefBundle.make (toEntries split) schema owned) = .ok out ∧
      out.map (RefBundle.rows Block.rows) = splits.map allRows ∧
      ∀ b ∈ out, b.Counted Block.rows := by
  induction splits with
  | nil => exact ⟨[], rfl, rfl, by simp⟩
  | cons split splits ih =>
    obtain ⟨out, hout, hrows, hcounted⟩ := ih (fun s hs => hc s (.tail _ hs))
    have hsplit := hc split (.head _)
    obtain ⟨b, hb, hblocks⟩ := make_toEntries (fun p hp => (hsplit p hp).2) schema owned
    refine ⟨b :: out, ?_, ?_, ?_⟩
    · rw [List.mapM_cons, hb, ok_bind, hout]
      rfl
    · rw [List.map_cons, List.map_cons, hrows, rows_toEntries hblocks]
    · intro b' hb'
      obtain rfl | hb' := List.mem_cons.mp hb'
      · intro e he
        rw [hblocks] at he
        obtain ⟨p, hp, rfl⟩ := List.mem_map.mp he
        have hcount : p.2.numRows = some p.1.rows.length := (hsplit p hp).1
        refine ⟨fun _ => ?_, fun n hn => ?_, nofun⟩
        · show p.2.numRows.isSome = true
          rw [hcount]
          rfl
        · have hn' : p.2.numRows = some n := hn
          exact (Option.some.inj (hcount.symm.trans hn')).symm
      · exact hcounted b' hb'

/-- The rows of the blocks of all splits. -/
def inputRows (bundles : List (RefBundle (Block α))) : List α :=
  allRows (bundles.flatMap RefBundle.blocksWithMetadata)

section equalize

variable {bundles : List (RefBundle (Block α))}

/-- The metadata of all splits count their rows. -/
def AllCounted (bundles : List (RefBundle (Block α))) : Prop :=
  ∀ b ∈ bundles, ∀ p ∈ b.blocksWithMetadata, p.2.numRows = some p.1.rows.length

theorem calculateBlocksRows_bundles (hc : AllCounted bundles) :
    (bundles.map RefBundle.blocksWithMetadata).map calculateBlocksRows =
      (bundles.map RefBundle.blocksWithMetadata).map (fun s => s.map pieceRows) := by
  apply List.map_congr_left
  intro s hs
  obtain ⟨b, hb, rfl⟩ := List.mem_map.mp hs
  exact sum_calculateBlocksRows _ (hc b hb)

theorem sum_pieceRows_bundles (bundles : List (RefBundle (Block α))) :
    (((bundles.map RefBundle.blocksWithMetadata).map (fun s => s.map pieceRows)).map
      List.sum).sum = (inputRows bundles).length := by
  rw [inputRows, List.flatMap_def, length_allRows, total_flatten, List.map_map]
  rfl

theorem counted_of_mem_flatten (hc : AllCounted bundles) {p : Block α × BlockMetadata}
    (hp : p ∈ (bundles.map RefBundle.blocksWithMetadata).flatten) :
    Counted p ∧ p.2.sizeBytes.isSome = true := by
  rw [← List.flatMap_def] at hp
  obtain ⟨b, hb, hpb⟩ := List.mem_flatMap.mp hp
  refine ⟨hc b hb p hpb, ?_⟩
  obtain ⟨e, he, rfl⟩ := List.mem_map.mp hpb
  exact b.sizes_known e he

/-- The three phases: shaved blocks and cut leftovers together have the target size, and what is
dropped is the remainder of the division. -/
theorem equalize_eq (sizeBytes : Block α → ℕ) (owned : Bool) (hn : bundles ≠ [])
    (hc : AllCounted bundles) :
    ∃ (merged : List (BlockPartition α)) (dropped : List α), equalize sizeBytes bundles owned =
        merged.mapM (fun split => RefBundle.make (toEntries split)
          (takeFirstNonEmptySchema (bundles.map RefBundle.schema)) owned) ∧
      merged.length = bundles.length ∧
      (∀ s ∈ merged, total pieceRows s = (inputRows bundles).length / bundles.length) ∧
      (∀ s ∈ merged, ∀ p ∈ s, Counted p ∧ p.2.sizeBytes.isSome = true) ∧
      (allRows merged.flatten ++ dropped).Perm (inputRows bundles) ∧
      dropped.length = (inputRows bundles).length % bundles.length := by
  let splits := bundles.map RefBundle.blocksWithMetadata
  let target := (inputRows bundles).length / bundles.length
  have hin : inputRows bundles = allRows splits.flatten := by
    rw [inputRows, List.flatMap_def]
  obtain ⟨needed, hneeded, hfit, hperm, hlen⟩ := shaveAllSplits_spec target splits
  generalize hr : shaveAllSplits (target : ℤ) splits (splits.map (fun s => s.map pieceRows)) = r
    at hneeded hfit hperm hlen
  have hmem : ∀ p ∈ r.1.flatten ++ r.2.2, Counted p ∧ p.2.sizeBytes.isSome = true :=
    fun p hp => counted_of_mem_flatten hc (hperm.subset hp)
  have hshaved : ∀ s ∈ r.1, ∀ p ∈ s, Counted p := fun s hs p hp =>
    (hmem p (List.mem_append_left _ (List.mem_flatten.mpr ⟨s, hs, hp⟩))).1
  -- the leftovers suffice: the target is at most the average
  have hall := (allRows_perm hperm).length_eq
  rw [allRows_append, List.length_append, length_allRows r.1.flatten, ← hin] at hall
  have hneed := sum_of_forall₂ hfit
  rw [hlen, List.length_map] at hneed
  have hdiv := Nat.div_add_mod (inputRows bundles).length bundles.length
  rw [show (inputRows bundles).length / bundles.length = target from rfl] at hdiv
  have hsum : needed.sum ≤ (allRows r.2.2).length := by omega
  obtain ⟨lb, hlb, hblocks⟩ := make_toEntries
    (fun p hp => (hmem p (List.mem_append_right _ hp)).2)
    (takeFirstNonEmptySchema (bundles.map RefBundle.schema)) owned
  obtain ⟨gs, dropped, hgs, hgsz, hgc, hgrows, hdropped⟩ := splitLeftovers_spec sizeBytes hblocks
    (fun p hp => (hmem p (List.mem_append_right _ hp)).1) hsum
  have hchecked := checkShaved_eq hfit hshaved
  rw [← hgsz] at hfit
  have hmerge := mergeLeftovers_eq hfit hshaved (fun g hg p hp => (hgc g hg p hp).1)
  have hlen' : r.1.length = gs.length := by
    simpa using hfit.length_eq
  have hmerged := flatten_zipWith_append hlen'
  refine ⟨List.zipWith (· ++ ·) r.1 gs, dropped, ?_, ?_, total_of_mem_zipWith hfit, ?_, ?_, ?_⟩
  · unfold equalize
    rw [if_neg (by simpa using hn)]
    simp only [calculateBlocksRows_bundles hc, sum_pieceRows_bundles, List.length_map]
    simp only [show (inputRows bundles).length / bundles.length = target from rfl,
      show bundles.map RefBundle.blocksWithMetadata = splits from rfl, hr, hneeded]
    rw [hchecked, ok_bind, hlb, ok_bind, hgs, ok_bind, hmerge, ok_bind]
  · rw [List.length_zipWith, ← hlen', Nat.min_self, hlen, List.length_map]
  · intro s hs p hp
    obtain hp | hp := List.mem_append.mp (hmerged.subset (List.mem_flatten.mpr ⟨s, hs, hp⟩))
    · exact hmem p (List.mem_append_left _ hp)
    · obtain ⟨g, hg, hpg⟩ := List.mem_flatten.mp hp
      exact hgc g hg p hpg
  · calc (allRows (List.zipWith (· ++ ·) r.1 gs).flatten ++ dropped).Perm
          (allRows (r.1.flatten ++ gs.flatten) ++ dropped) := (allRows_perm hmerged).append_right _
      _ |>.Perm (allRows (r.1.flatten ++ r.2.2)) := by
          rw [allRows_append, allRows_append, List.append_assoc, hgrows]
      _ |>.Perm (inputRows bundles) := by
          rw [hin]
          exact allRows_perm hperm
  · omega

end equalize

/-- For splits with known row counts, all checks succeed; every split comes out with the same
number of rows, known in its metadata; the rows put out and fewer dropped rows than there are
splits make up the input. -/
theorem equalize_spec (sizeBytes : Block α → ℕ) (bundles : List (RefBundle (Block α)))
    (owned : Bool) (hn : 1 ≤ bundles.length)
    (hc : ∀ b ∈ bundles, ∀ p ∈ b.blocksWithMetadata, p.2.numRows = some p.1.rows.length) :
    ∃ out dropped, equalize sizeBytes bundles owned = .ok out ∧ out.length = bundles.length ∧
      (∀ b ∈ out, b.numRows = some ((inputRows bundles).length / bundles.length) ∧
        (b.rows Block.rows).length = (inputRows bundles).length / bundles.length) ∧
      (out.flatMap (RefBundle.rows Block.rows) ++ dropped).Perm (inputRows bundles) ∧
      dropped.length ≤ bundles.length - 1 := by
  have hne : bundles ≠ [] := List.ne_nil_of_length_pos hn
  obtain ⟨merged, dropped, heq, hlen, htotal, hcounted, hperm, hdropped⟩ :=
    equalize_eq sizeBytes owned hne hc
  obtain ⟨out, hout, hrows, houtc⟩ :=
    mapM_make hcounted (takeFirstNonEmptySchema (bundles.map RefBundle.schema)) owned
  refine ⟨out, dropped, heq.trans hout, ?_, ?_, ?_, ?_⟩
  · have hl := congrArg List.length hrows
    rw [List.length_map, List.length_map, hlen] at hl
    exact hl
  · intro b hb
    have hin : b.rows Block.rows ∈ merged.map allRows := by
      rw [← hrows]
      exact List.mem_map.mpr ⟨b, hb, rfl⟩
    obtain ⟨s, hs, hsrows⟩ := List.mem_map.mp hin
    have hblen : (b.rows Block.rows).length = (inputRows bundles).length / bundles.length := by
      rw [← hsrows, length_allRows, htotal s hs]
    exact ⟨by rw [(houtc b hb).numRows_eq, hblen], hblen⟩
  · rwa [List.flatMap_def, hrows, allRows_flatten]
  · have hlt := Nat.mod_lt (inputRows bundles).length hn
    omega

/-- Three splits of two, five and no rows, with an empty block: two rows each, one is dropped. -/
theorem equalize_spec_uneven :
    ∃ out dropped, equalize (fun _ => 0) [.ofBlocks [⟨.arrow, [1, 2]⟩],
        .ofBlocks [⟨.arrow, []⟩, ⟨.arrow, [3, 4, 5, 6, 7]⟩], .ofBlocks []] true = .ok out ∧
      out.length = 3 ∧ (∀ b ∈ out, b.numRows = some 2 ∧ (b.rows Block.rows).length = 2) ∧
      (out.flatMap (RefBundle.rows Block.rows) ++ dropped).Perm [1, 2, 3, 4, 5, 6, 7] ∧
      dropped.length ≤ 2 := by
  refine equalize_spec (fun _ => 0) [.ofBlocks [⟨.arrow, [1, 2]⟩],
    .ofBlocks [⟨.arrow, []⟩, ⟨.arrow, [3, 4, 5, 6, 7]⟩], .ofBlocks []] true (by decide) ?_
  intro b hb p hp
  simp only [List.mem_cons, List.not_mem_nil, or_false] at hb
  obtain rfl | rfl | rfl := hb
  all_goals
    simp only [RefBundle.blocksWithMetadata, RefBundle.ofBlocks, List.map_map, List.mem_map] at hp
    obtain ⟨b, -, rfl⟩ := hp
    rfl

end RayTfm.Data
