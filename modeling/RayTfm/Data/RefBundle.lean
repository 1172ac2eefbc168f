import RayTfm.Data.Split

/-! # Bundles of block references

The model of `execution/interfaces/ref_bundle.py`.  A bundle is a list of block references with
metadata, each with an optional slice; `ρ` is the type of references, and `fetch` says which rows
a reference stands for.  The source keeps blocks and slices in two tuples of the same length, here
they are one list.

`slice_spec` is the main fact: `slice` cuts a bundle with known row counts at any row inside it,
also inside a block or an earlier slice, and none of its assertions fails. -/

namespace RayTfm.Data

/-- A slice of a block: the rows from `startOffset` to before `endOffset`. -/
structure BlockSlice where
  startOffset : ℕ
  endOffset : ℕ
deriving DecidableEq, Repr

def BlockSlice.numRows (s : BlockSlice) : ℕ := s.endOffset - s.startOffset

/-- One block delivery. -/
structure BlockEntry (ρ : Type) where
  ref : ρ
  metadata : BlockMetadata
deriving DecidableEq, Repr

/-- A block of a bundle with its slice; `none` is the full block. -/
abbrev SlicedEntry (ρ : Type) := BlockEntry ρ × Option BlockSlice

/-- A schema object: bundles compare schemas by identity. -/
structure Schema where
  id : ℕ
  names : List String
deriving DecidableEq, Repr

/-- `_take_first_non_empty_schema`. -/
def takeFirstNonEmptySchema (schemas : List (Option Schema)) : Option Schema :=
  (schemas.filterMap id).find? (fun s => s.names.length ≠ 0)

variable {ρ α : Type}

/-- The range check of `__post_init__` on a slice. -/
def SliceValid (e : SlicedEntry ρ) : Prop :=
  ∀ s ∈ e.2, s.startOffset ≤ s.endOffset ∧ ∀ n ∈ e.1.metadata.numRows, s.endOffset ≤ n

instance (e : SlicedEntry ρ) : Decidable (SliceValid e) :=
  match e with
  | (_, none) => .isTrue nofun
  | (entry, some s) =>
    match h : entry.metadata.numRows with
    | none =>
      decidable_of_iff (s.startOffset ≤ s.endOffset) (by simp [SliceValid, h])
    | some n =>
      decidable_of_iff (s.startOffset ≤ s.endOffset ∧ s.endOffset ≤ n) (by simp [SliceValid, h])

/-- A bundle; what `__post_init__` checks holds of every bundle. -/
structure RefBundle (ρ : Type) where
  blocks : List (SlicedEntry ρ)
  schema : Option Schema
  ownsBlocks : Bool
  outputSplitIdx : Option ℕ
  slices_valid : ∀ e ∈ blocks, SliceValid e
  sizes_known : ∀ e ∈ blocks, e.1.metadata.sizeBytes.isSome = true
deriving DecidableEq

namespace RefBundle

/-- The constructor with the checks of `__post_init__`. -/
def make (blocks : List (SlicedEntry ρ)) (schema : Option Schema) (ownsBlocks : Bool) :
    Except PyError (RefBundle ρ) :=
  if hs : ∀ e ∈ blocks, SliceValid e then
    if hb : ∀ e ∈ blocks, e.1.metadata.sizeBytes.isSome = true then
      .ok ⟨blocks, schema, ownsBlocks, none, hs, hb⟩
    else .error (.valueError "The size in bytes of the block must be known")
  else .error .assertionError

/-- The row count of one entry, if known. -/
def entryRows (e : SlicedEntry ρ) : Option ℕ :=
  match e.2 with
  | none => e.1.metadata.numRows
  | some s => some s.numRows

/-- The loop of `num_rows`. -/
def rowCount : List (SlicedEntry ρ) → Option ℕ
  | [] => some 0
  | e :: l => do
      let n ← entryRows e
      let total ← rowCount l
      some (n + total)

def numRows (b : RefBundle ρ) : Option ℕ := rowCount b.blocks

/-- `round`: ties go to the even neighbour. -/
def roundHalfEven (q : ℚ) : ℤ :=
  if q - ⌊q⌋ < 1 / 2 ∨ (q - ⌊q⌋ = 1 / 2 ∧ ⌊q⌋ % 2 = 0) then ⌊q⌋ else ⌊q⌋ + 1

/-- The size of one entry: a proper part of a block is estimated by its rows. -/
def entryBytes (e : SlicedEntry ρ) : ℤ :=
  let bytes : ℕ := e.1.metadata.sizeBytes.getD 0
  match e.2, e.1.metadata.numRows with
  | none, _ => bytes
  | some _, none => bytes
  | some s, some n =>
    if n = 0 then bytes
    else if n ≠ s.numRows then max 1 (roundHalfEven ((bytes : ℚ) / n * s.numRows))
    else bytes

/-- `size_bytes`. -/
def sizeBytes (b : RefBundle ρ) : ℤ := (b.blocks.map entryBytes).sum

/-- An entry with an explicit slice; a full block must have a known row count. -/
def explicitSlice (e : SlicedEntry ρ) : Except PyError (BlockEntry ρ × BlockSlice) :=
  match e.2, e.1.metadata.numRows with
  | some s, _ => .ok (e.1, s)
  | none, some n => .ok (e.1, ⟨0, n⟩)
  | none, none => .error .assertionError

/-- The loop of `slice`: the consumed and the remaining entries. -/
def sliceLoop : ℕ → List (BlockEntry ρ × BlockSlice) → List (SlicedEntry ρ) × List (SlicedEntry ρ)
  | _, [] => ([], [])
  | rowsToTake, (entry, s) :: rest =>
    if s.numRows ≤ rowsToTake then
      let r := sliceLoop (rowsToTake - s.numRows) rest
      ((entry, some s) :: r.1, r.2)
    else if rowsToTake = 0 then
      let r := sliceLoop 0 rest
      (r.1, (entry, some s) :: r.2)
    else
      let consumeSlice : BlockSlice := ⟨s.startOffset, s.startOffset + rowsToTake⟩
      let leftoverRows := s.numRows - rowsToTake
      let r := sliceLoop 0 rest
      ((entry, some consumeSlice) :: r.1,
        if 0 < leftoverRows then (entry, some ⟨consumeSlice.endOffset, s.endOffset⟩) :: r.2
        else r.2)

/-- `slice`: the first `neededRows` rows, and the rest. -/
def slice (b : RefBundle ρ) (neededRows : ℕ) : Except PyError (RefBundle ρ × RefBundle ρ) := do
  pyAssert (0 < neededRows)
  let some n := b.numRows | .error .assertionError
  pyAssert (neededRows < n)
  let blockSlices ← b.blocks.mapM explicitSlice
  let r := sliceLoop neededRows blockSlices
  let sliced ← make r.1 b.schema false
  let remaining ← make r.2 b.schema false
  .ok (sliced, remaining)

/-- `merge_ref_bundles`. -/
def mergeRefBundles (bundles : List (RefBundle ρ)) : Except PyError (RefBundle ρ) :=
  if bundles.length = 0 then make [] none true
  else
    make (bundles.flatMap RefBundle.blocks) (takeFirstNonEmptySchema (bundles.map RefBundle.schema))
      (bundles.all RefBundle.ownsBlocks)

/-- A bundle of full blocks, with their row counts on record. -/
def ofBlocks (blocks : List (Block α)) : RefBundle (Block α) where
  blocks := blocks.map (fun b => (⟨b, ⟨some b.rows.length, some 0, []⟩⟩, none))
  schema := none
  ownsBlocks := true
  outputSplitIdx := none
  slices_valid := by
    intro e he
    obtain ⟨b, -, rfl⟩ := List.mem_map.mp he
    exact nofun
  sizes_known := by
    intro e he
    obtain ⟨b, -, rfl⟩ := List.mem_map.mp he
    rfl

/-! ### The rows of a bundle -/

section rows

variable (fetch : ρ → List α)

/-- The rows of one entry. -/
def entryContent (e : SlicedEntry ρ) : List α :=
  match e.2 with
  | none => fetch e.1.ref
  | some s => segment (fetch e.1.ref) s.startOffset s.endOffset

/-- The rows of a list of entries, in order. -/
def content (l : List (SlicedEntry ρ)) : List α := l.flatMap (entryContent fetch)

/-- The rows of a bundle, as `_iter_sliced_blocks` reads them. -/
def rows (b : RefBundle ρ) : List α := content fetch b.blocks

/-- The row count of an entry is known, the metadata counts the rows of the block, and the slice
lies inside it. -/
structure EntryCounted (e : SlicedEntry ρ) : Prop where
  known : e.2 = none → e.1.metadata.numRows.isSome = true
  count : ∀ n ∈ e.1.metadata.numRows, n = (fetch e.1.ref).length
  inside : ∀ s ∈ e.2, s.startOffset ≤ s.endOffset ∧ s.endOffset ≤ (fetch e.1.ref).length

/-- A bundle with known and correct row counts. -/
def Counted (b : RefBundle ρ) : Prop := ∀ e ∈ b.blocks, EntryCounted fetch e

/-- What the metadata says of the blocks is right, as far as it says anything. -/
def Sound (b : RefBundle ρ) : Prop := ∀ e ∈ b.blocks,
  (∀ n ∈ e.1.metadata.numRows, n = (fetch e.1.ref).length) ∧
    ∀ s ∈ e.2, s.startOffset ≤ s.endOffset ∧ s.endOffset ≤ (fetch e.1.ref).length

variable {fetch}
variable {b : RefBundle ρ}

theorem Counted.sound (h : b.Counted fetch) : b.Sound fetch :=
  fun e he => ⟨(h e he).count, (h e he).inside⟩

@[simp] theorem content_nil : content fetch ([] : List (SlicedEntry ρ)) = [] := rfl

@[simp] theorem content_cons (e : SlicedEntry ρ) (l : List (SlicedEntry ρ)) :
    content fetch (e :: l) = entryContent fetch e ++ content fetch l := List.flatMap_cons

@[simp] theorem content_append (l l' : List (SlicedEntry ρ)) :
    content fetch (l ++ l') = content fetch l ++ content fetch l' := List.flatMap_append

variable {e : SlicedEntry ρ}

theorem EntryCounted.entryRows_eq (h : EntryCounted fetch e) :
    entryRows e = some (entryContent fetch e).length := by
  obtain ⟨entry, s | s⟩ := e
  · obtain ⟨n, hn⟩ := Option.isSome_iff_exists.mp (h.known rfl)
    have hlen := h.count n hn
    show entry.metadata.numRows = some (fetch entry.ref).length
    rw [hn, hlen]
  · obtain ⟨hle, hin⟩ := h.inside s rfl
    show some s.numRows = some (segment (fetch entry.ref) s.startOffset s.endOffset).length
    rw [length_segment _ hle hin, BlockSlice.numRows]

variable {l : List (SlicedEntry ρ)}

theorem rowCount_eq (h : ∀ e ∈ l, EntryCounted fetch e) :
    rowCount l = some (content fetch l).length := by
  induction l with
  | nil => rfl
  | cons e l ih =>
    rw [rowCount, (h e List.mem_cons_self).entryRows_eq, ih (fun e' he' => h e' (.tail _ he')),
      content_cons, List.length_append]
    rfl

theorem Counted.numRows_eq (h : b.Counted fetch) :
    b.numRows = some (b.rows fetch).length :=
  rowCount_eq h

/-- A bundle whose row count is known. -/
theorem Sound.counted (h : b.Sound fetch) {n : ℕ} (hn : b.numRows = some n) :
    b.Counted fetch := by
  have hloop : ∀ {l : List (SlicedEntry ρ)} {n : ℕ}, rowCount l = some n →
      ∀ e ∈ l, e.2 = none → e.1.metadata.numRows.isSome = true := by
    intro l
    induction l with
    | nil => simp
    | cons e l ih =>
      intro n hcount
      rw [rowCount, Option.bind_eq_bind, Option.bind_eq_some_iff] at hcount
      obtain ⟨m, hm, hcount⟩ := hcount
      rw [Option.bind_eq_some_iff] at hcount
      obtain ⟨total, htotal, -⟩ := hcount
      intro e' he' hnone
      obtain rfl | he' := List.mem_cons.mp he'
      · rw [entryRows, hnone] at hm
        exact Option.isSome_of_mem hm
      · exact ih htotal e' he' hnone
  exact fun e he => ⟨hloop hn e he, (h e he).1, (h e he).2⟩

theorem EntryCounted.sliceValid (h : EntryCounted fetch e) : SliceValid e := by
  intro s hs
  obtain ⟨hle, hin⟩ := h.inside s hs
  refine ⟨hle, fun n hn => ?_⟩
  rw [h.count n hn]
  exact hin

/-! ### Slicing and merging -/

theorem make_eq_ok (hs : ∀ e ∈ l, SliceValid e)
    (hb : ∀ e ∈ l, e.1.metadata.sizeBytes.isSome = true) (schema : Option Schema) (owns : Bool) :
    ∃ b, make l schema owns = .ok b ∧ b.blocks = l := by
  refine ⟨⟨l, schema, owns, none, hs, hb⟩, ?_, rfl⟩
  rw [make, dif_pos hs, dif_pos hb]

theorem EntryCounted.cut {entry : BlockEntry ρ} {s : BlockSlice}
    (h : EntryCounted fetch (entry, some s)) {a b : ℕ} (hab : a ≤ b) (hb : b ≤ s.endOffset) :
    EntryCounted fetch (entry, some ⟨a, b⟩) := by
  obtain ⟨hle, hin⟩ := h.inside s rfl
  refine ⟨nofun, h.count, fun t ht => ?_⟩
  cases ht
  exact ⟨hab, hb.trans hin⟩

theorem EntryCounted.explicitSlice_eq (h : EntryCounted fetch e) :
    ∃ s, explicitSlice e = .ok (e.1, s) ∧ EntryCounted fetch (e.1, some s) ∧
      entryContent fetch (e.1, some s) = entryContent fetch e := by
  obtain ⟨entry, s | s⟩ := e
  · obtain ⟨n, hn⟩ := Option.isSome_iff_exists.mp (h.known rfl)
    have hlen : n = (fetch entry.ref).length := h.count n hn
    refine ⟨⟨0, n⟩, ?_, ⟨nofun, h.count, ?_⟩, ?_⟩
    · have hn' : entry.metadata.numRows = some n := hn
      simp only [explicitSlice, hn']
    · intro t ht
      cases ht
      exact ⟨Nat.zero_le _, hlen.le⟩
    · show segment (fetch entry.ref) 0 n = fetch entry.ref
      rw [segment_zero, hlen, List.take_length]
  · exact ⟨s, rfl, h, rfl⟩

/-- Explicit slices as entries of a bundle. -/
def withSlices (l : List (BlockEntry ρ × BlockSlice)) : List (SlicedEntry ρ) :=
  l.map (fun p => (p.1, some p.2))

@[simp] theorem withSlices_cons (entry : BlockEntry ρ) (s : BlockSlice)
    (l : List (BlockEntry ρ × BlockSlice)) :
    withSlices ((entry, s) :: l) = (entry, some s) :: withSlices l := rfl

theorem mapM_explicitSlice (h : ∀ e ∈ l, EntryCounted fetch e) :
    ∃ l', l.mapM explicitSlice = .ok l' ∧ l'.map Prod.fst = l.map Prod.fst ∧
      (∀ e ∈ withSlices l', EntryCounted fetch e) ∧
      content fetch (withSlices l') = content fetch l := by
  induction l with
  | nil => exact ⟨[], rfl, rfl, by simp [withSlices], rfl⟩
  | cons e l ih =>
    obtain ⟨s, hs, hcounted, hcontent⟩ := (h e (.head _)).explicitSlice_eq
    obtain ⟨l', hl', hfst, hcounted', hcontent'⟩ :=
      ih (fun e' he' => h e' (.tail _ he'))
    refine ⟨(e.1, s) :: l', ?_, ?_, ?_, ?_⟩
    · rw [List.mapM_cons, hs, hl']
      rfl
    · rw [List.map_cons, List.map_cons, hfst]
    · intro e' he'
      obtain rfl | he' := List.mem_cons.mp he'
      · exact hcounted
      · exact hcounted' e' he'
    · rw [withSlices_cons, content_cons, content_cons, hcontent, hcontent']

/-- The loop of `slice`: the consumed entries hold the first rows, the remaining ones the rest.
Empty blocks behind the cut count as consumed. -/
theorem sliceLoop_spec : ∀ (l : List (BlockEntry ρ × BlockSlice)) (k : ℕ),
    (∀ e ∈ withSlices l, EntryCounted fetch e) → k ≤ (content fetch (withSlices l)).length →
    (∀ e ∈ (sliceLoop k l).1 ++ (sliceLoop k l).2, EntryCounted fetch e ∧ e.1 ∈ l.map Prod.fst) ∧
      content fetch (sliceLoop k l).1 = (content fetch (withSlices l)).take k ∧
      content fetch (sliceLoop k l).2 = (content fetch (withSlices l)).drop k
  | [], k, _, _ => by simp [sliceLoop, withSlices]
  | (entry, s) :: l, k, hl, hk => by
    have hs : EntryCounted fetch (entry, some s) := hl _ (.head _)
    obtain ⟨hle, hin⟩ := hs.inside s rfl
    have hlen : (entryContent fetch (entry, some s)).length = s.numRows :=
      (Option.some.inj hs.entryRows_eq).symm
    have hrest : ∀ e ∈ withSlices l, EntryCounted fetch e :=
      fun e he => hl e (.tail _ he)
    rw [withSlices_cons, content_cons, List.length_append, hlen] at hk
    rw [withSlices_cons, content_cons, List.take_append, List.drop_append, hlen]
    -- the entries of the rest come from the rest of the list
    have hlift : ∀ {m : ℕ}, (∀ e ∈ (sliceLoop m l).1 ++ (sliceLoop m l).2,
        EntryCounted fetch e ∧ e.1 ∈ l.map Prod.fst) →
        ∀ e ∈ (sliceLoop m l).1 ++ (sliceLoop m l).2,
          EntryCounted fetch e ∧ e.1 ∈ ((entry, s) :: l).map Prod.fst := by
      intro m h e he
      exact ⟨(h e he).1, .tail _ (h e he).2⟩
    rw [sliceLoop]
    split_ifs with hfull hzero
    · -- the whole slice is consumed
      obtain ⟨hmem, htake, hdrop⟩ := sliceLoop_spec l (k - s.numRows) hrest (by omega)
      refine ⟨?_, ?_, ?_⟩
      · intro e he
        obtain rfl | he := List.mem_cons.mp he
        · exact ⟨hs, .head _⟩
        · exact hlift hmem e he
      · have hall : (entryContent fetch (entry, some s)).take k = entryContent fetch (entry, some s) :=
          List.take_of_length_le (by omega)
        rw [content_cons, htake, hall]
      · have hnone : (entryContent fetch (entry, some s)).drop k = [] :=
          List.drop_of_length_le (by omega)
        rw [hdrop, hnone, List.nil_append]
    · -- the rows are complete, the slice remains
      obtain ⟨hmem, htake, hdrop⟩ := sliceLoop_spec l 0 hrest (Nat.zero_le _)
      subst hzero
      refine ⟨?_, ?_, ?_⟩
      · intro e he
        obtain he | he := List.mem_append.mp he
        · exact hlift hmem e (List.mem_append_left _ he)
        · obtain rfl | he := List.mem_cons.mp he
          · exact ⟨hs, .head _⟩
          · exact hlift hmem e (List.mem_append_right _ he)
      · rw [htake]
        simp
      · rw [content_cons, hdrop]
        simp
    · -- the cut is inside the slice
      obtain ⟨hmem, htake, hdrop⟩ := sliceLoop_spec l 0 hrest (Nat.zero_le _)
      have hlt : k < s.numRows := by omega
      have hrows : s.numRows = s.endOffset - s.startOffset := rfl
      have hleft : 0 < s.numRows - k := by omega
      have hcut : entryContent fetch (entry, some ⟨s.startOffset, s.startOffset + k⟩) =
          (entryContent fetch (entry, some s)).take k := by
        show segment _ _ _ = (segment _ _ _).take k
        unfold segment
        rw [List.take_drop, List.take_take, Nat.min_eq_left (by omega)]
      have hcut' : entryContent fetch (entry, some ⟨s.startOffset + k, s.endOffset⟩) =
          (entryContent fetch (entry, some s)).drop k := by
        show segment _ _ _ = (segment _ _ _).drop k
        unfold segment
        rw [List.drop_drop]
      simp only [hleft, if_true]
      refine ⟨?_, ?_, ?_⟩
      · intro e he
        obtain he | he := List.mem_append.mp he
        · obtain rfl | he := List.mem_cons.mp he
          · exact ⟨hs.cut (by omega) (by omega), .head _⟩
          · exact hlift hmem e (List.mem_append_left _ he)
        · obtain rfl | he := List.mem_cons.mp he
          · exact ⟨hs.cut (by omega) le_rfl, .head _⟩
          · exact hlift hmem e (List.mem_append_right _ he)
      · rw [content_cons, htake, hcut, List.take_zero, Nat.sub_eq_zero_of_le hlt.le, List.take_zero]
      · rw [content_cons, hdrop, hcut', Nat.sub_eq_zero_of_le hlt.le]

/-- Both parts of a cut exist, and hold the first rows and the rest. -/
theorem slice_spec (hb : b.Counted fetch) {k : ℕ} (hk : 0 < k) (hlt : k < (b.rows fetch).length) :
    ∃ l r, b.slice k = .ok (l, r) ∧ l.Counted fetch ∧ r.Counted fetch ∧
      l.rows fetch = (b.rows fetch).take k ∧ r.rows fetch = (b.rows fetch).drop k := by
  obtain ⟨bs, hbs, hfst, hcounted, hcontent⟩ := mapM_explicitSlice hb
  obtain ⟨hmem, htake, hdrop⟩ := sliceLoop_spec bs k hcounted (by rw [hcontent]; exact hlt.le)
  have hsize : ∀ e ∈ (sliceLoop k bs).1 ++ (sliceLoop k bs).2,
      e.1.metadata.sizeBytes.isSome = true := by
    intro e he
    have hin := (hmem e he).2
    rw [hfst] at hin
    obtain ⟨e', he', heq⟩ := List.mem_map.mp hin
    rw [← heq]
    exact b.sizes_known e' he'
  obtain ⟨left, hl, hleft⟩ := make_eq_ok
    (fun e he => (hmem e (List.mem_append_left _ he)).1.sliceValid)
    (fun e he => hsize e (List.mem_append_left _ he)) b.schema false
  obtain ⟨right, hr, hright⟩ := make_eq_ok
    (fun e he => (hmem e (List.mem_append_right _ he)).1.sliceValid)
    (fun e he => hsize e (List.mem_append_right _ he)) b.schema false
  refine ⟨left, right, ?_, fun e he => ?_, fun e he => ?_, ?_, ?_⟩
  · unfold slice
    simp only [hb.numRows_eq, decide_eq_true hk, decide_eq_true hlt, pyAssert_true, ok_bind, hbs,
      hl, hr]
  · exact (hmem e (List.mem_append_left _ (hleft ▸ he))).1
  · exact (hmem e (List.mem_append_right _ (hright ▸ he))).1
  · rw [rows, hleft, htake, hcontent, rows]
  · rw [rows, hright, hdrop, hcontent, rows]

variable {bundles : List (RefBundle ρ)}

theorem mergeRefBundles_eq (hne : bundles ≠ []) :
    ∃ b, mergeRefBundles bundles = .ok b ∧ b.blocks = bundles.flatMap RefBundle.blocks := by
  have hvalid : ∀ e ∈ bundles.flatMap RefBundle.blocks, SliceValid e := by
    intro e he
    obtain ⟨b, -, heb⟩ := List.mem_flatMap.mp he
    exact b.slices_valid e heb
  have hsize : ∀ e ∈ bundles.flatMap RefBundle.blocks, e.1.metadata.sizeBytes.isSome = true := by
    intro e he
    obtain ⟨b, -, heb⟩ := List.mem_flatMap.mp he
    exact b.sizes_known e heb
  rw [mergeRefBundles, if_neg (by simpa using hne)]
  exact make_eq_ok hvalid hsize _ _

theorem rows_of_blocks (h : b.blocks = bundles.flatMap RefBundle.blocks) :
    b.rows fetch = bundles.flatMap (RefBundle.rows fetch) := by
  rw [rows, h, content, List.flatMap_assoc]
  rfl

theorem Counted.of_blocks
    (h : b.blocks = bundles.flatMap RefBundle.blocks) (hall : ∀ b' ∈ bundles, b'.Counted fetch) :
    b.Counted fetch := by
  intro e he
  rw [h] at he
  obtain ⟨b', hb', he'⟩ := List.mem_flatMap.mp he
  exact hall b' hb' e he'

theorem counted_ofBlocks (blocks : List (Block α)) : (ofBlocks blocks).Counted Block.rows := by
  intro e he
  obtain ⟨b, -, rfl⟩ := List.mem_map.mp he
  refine ⟨fun _ => rfl, fun n hn => ?_, nofun⟩
  cases hn
  rfl

end rows
end RefBundle
end RayTfm.Data
