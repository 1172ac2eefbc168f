import RayTfm.Data.Split

/-! # Splitting blocks whose row counts are not known

`_calculate_blocks_rows` fetches the missing row counts, but what it records is lost: the later
phases read the metadata again.  A block without a count is fit for them in two cases only
(`Tolerated`): it has no rows and none come after it, so that no split needs it; or it is a pandas
block with a split index inside it or at its end, so that it is cut into pieces that are counted.
In all other cases the call fails (`splitAtIndices_sound`). -/

namespace RayTfm.Data

variable {α : Type}

/-- The recorded count is missing or right. -/
def SoundCount (p : Block α × BlockMetadata) : Prop := p.2.numRows = none ∨ Counted p

/-- Every block without a count is empty and has no rows after it, or it is a pandas block that
some index cuts or ends at. -/
def Tolerated (indices : List ℤ) : ℤ → BlockPartition α → Prop
  | _, [] => True
  | offset, (block, m) :: blocks =>
    (m.numRows = none → allRows ((block, m) :: blocks) = [] ∨ (block.format = .pandas ∧
      ∃ v ∈ indices, offset < v ∧ v ≤ offset + block.rows.length)) ∧
    Tolerated indices (offset + block.rows.length) blocks

variable {indices : List ℤ}
variable {blocks : BlockPartition α}

theorem tolerated_of_allRows_eq_nil {offset : ℤ}
    (h : allRows blocks = []) : Tolerated indices offset blocks := by
  induction blocks generalizing offset with
  | nil => trivial
  | cons b blocks ih =>
    refine ⟨fun _ => .inl h, ih ?_⟩
    rw [allRows_cons] at h
    exact (List.append_eq_nil_iff.mp h).2

/-! ### Where the indices are filed -/

/-- Every block gets the indices that fall on its rows. -/
def Filed (indices : List ℤ) : ℤ → List ℕ → List (List ℤ) → Prop
  | offset, n :: blocks, ps :: perBlock =>
    (∀ p, 0 < p → (p ∈ ps ↔ p ≤ n ∧ offset + p ∈ indices)) ∧
      Filed indices (offset + n) blocks perBlock
  | _, [], [] => True
  | _, _, _ => False

theorem Filed.cons {index : ℤ} : ∀ {offset : ℤ} {blocks : List ℕ}
    {perBlock : List (List ℤ)}, index ≤ offset → Filed indices offset blocks perBlock →
    Filed (index :: indices) offset blocks perBlock
  | _, [], [], _, _ => trivial
  | _, [], _ :: _, _, h => h.elim
  | _, _ :: _, [], _, h => h.elim
  | offset, n :: blocks, ps :: perBlock, hle, h => by
    refine ⟨fun p hp => ?_, h.2.cons (by omega)⟩
    rw [h.1 p hp, List.mem_cons]
    have hne : offset + p ≠ index := by omega
    simp only [hne, false_or]

theorem filed_replicate {offset : ℤ} (blocks : List ℕ) (h : ∀ v ∈ indices, v ≤ offset) :
    Filed indices offset blocks (List.replicate blocks.length []) := by
  induction blocks generalizing offset with
  | nil => trivial
  | cons n blocks ih =>
    refine ⟨fun p hp => ?_, ih (fun v hv => (h v hv).trans (by omega))⟩
    refine ⟨fun hmem => absurd hmem List.not_mem_nil, fun ⟨_, hmem⟩ => ?_⟩
    have hle := h _ hmem
    omega

theorem perBlockLoop_filed : ∀ {indices : List ℤ} {n : ℕ} {blocks : List ℕ} {offset : ℤ}
    {current : List ℤ} {r : List (List ℤ)}, indices.Pairwise (· ≤ ·) →
    perBlockLoop indices (n :: blocks) offset current = .ok r →
    ∃ ps perBlock, r = ps :: perBlock ∧
      (∀ p, 0 < p → (p ∈ ps ↔ p ∈ current ∨ (p ≤ n ∧ offset + p ∈ indices))) ∧
      Filed indices (offset + n) blocks perBlock
  | [], n, blocks, offset, current, r, _, h => by
    rw [perBlockLoop, List.length_cons, fillRemaining_succ] at h
    cases h
    exact ⟨_, _, rfl, fun p _ => by simp, filed_replicate blocks (by simp)⟩
  | index :: indices, n, blocks, offset, current, r, hs, h => by
    obtain ⟨hle, hs'⟩ := List.pairwise_cons.mp hs
    rw [perBlockLoop] at h
    by_cases hin : index - offset ≤ n
    · rw [if_pos hin] at h
      obtain ⟨ps, perBlock, rfl, hfirst, hrest⟩ := perBlockLoop_filed hs' h
      refine ⟨ps, perBlock, rfl, fun p hp => ?_, hrest.cons (by omega)⟩
      rw [hfirst p hp, List.mem_append, List.mem_singleton, List.mem_cons]
      constructor
      · rintro ((hmem | rfl) | ⟨hpn, hmem⟩)
        · exact .inl hmem
        · exact .inr ⟨hin, .inl (by omega)⟩
        · exact .inr ⟨hpn, .inr hmem⟩
      · rintro (hmem | ⟨hpn, heq | hmem⟩)
        · exact .inl (.inl hmem)
        · exact .inl (.inr (by omega))
        · exact .inr ⟨hpn, hmem⟩
    · -- all indices left lie behind this block
      rw [if_neg hin] at h
      have hbehind : ∀ v ∈ index :: indices, offset + n < v := by
        intro v hv
        obtain rfl | hv := List.mem_cons.mp hv
        · omega
        · have hv := hle v hv
          omega
      obtain ⟨rest, hrest, h⟩ := bind_eq_ok.mp h
      cases h
      refine ⟨current, rest, rfl, fun p hp => ?_, ?_⟩
      · refine ⟨.inl, fun hor => hor.elim id (fun hboth => ?_)⟩
        have hv := hbehind _ hboth.2
        omega
      · cases blocks with
        | nil =>
          rw [perBlockLoop] at hrest
          cases hrest
        | cons n' blocks =>
          obtain ⟨ps', perBlock, rfl, hfirst, hfiled⟩ := perBlockLoop_filed hs hrest
          refine ⟨fun p hp => ?_, hfiled⟩
          rw [hfirst p hp]
          simp
termination_by indices _ blocks => indices.length + blocks.length

/-! ### One block without a count -/

theorem dropEmptyLoop_none : ∀ (ps : List ℤ) (prev : ℤ), (prev :: ps).Pairwise (· ≤ ·) →
    (prev :: dropEmptyLoop none prev ps).Pairwise (· < ·) ∧
    (∀ q ∈ dropEmptyLoop none prev ps, q ∈ ps) ∧
    ∀ p ∈ ps, p = 0 ∨ p = prev ∨ p ∈ dropEmptyLoop none prev ps
  | [], prev, _ => by simp [dropEmptyLoop]
  | p :: ps, prev, h => by
    obtain ⟨hle, hps⟩ := List.pairwise_cons.mp h
    have hpp : prev ≤ p := hle p (.head _)
    have hskip : (prev :: ps).Pairwise (· ≤ ·) := List.pairwise_cons.mpr
      ⟨fun x hx => hle x (.tail _ hx), (List.pairwise_cons.mp hps).2⟩
    obtain ⟨hs1, hs2, hs3⟩ := dropEmptyLoop_none ps prev hskip
    obtain ⟨ht1, ht2, ht3⟩ := dropEmptyLoop_none ps p hps
    have hdrop : (p = 0 ∨ p = prev) → ∀ x ∈ p :: ps, x = 0 ∨ x = prev ∨
        x ∈ dropEmptyLoop none prev ps := by
      intro hp x hx
      obtain rfl | hx := List.mem_cons.mp hx
      · exact hp.imp_right .inl
      · exact hs3 x hx
    rw [dropEmptyLoop]
    split_ifs with hborder hrep
    · have hzero : p = 0 := hborder.resolve_right (by simp)
      exact ⟨hs1, fun q hq => .tail _ (hs2 q hq), hdrop (.inl hzero)⟩
    · exact ⟨hs1, fun q hq => .tail _ (hs2 q hq), hdrop (.inr hrep)⟩
    · refine ⟨List.pairwise_cons.mpr ⟨fun q hq => ?_, ht1⟩, fun q hq => ?_, fun x hx => ?_⟩
      · have hlt : prev < p := lt_of_le_of_ne hpp (Ne.symm hrep)
        obtain rfl | hq := List.mem_cons.mp hq
        · exact hlt
        · exact hlt.trans ((List.pairwise_cons.mp ht1).1 q hq)
      · exact List.mem_cons.mpr ((List.mem_cons.mp hq).imp_right (ht2 q))
      · obtain rfl | hx := List.mem_cons.mp hx
        · exact .inr (.inr (.head _))
        · obtain h0 | rfl | hmem := ht3 x hx
          · exact .inl h0
          · exact .inr (.inr (.head _))
          · exact .inr (.inr (.tail _ hmem))

theorem slice_none {b : Block α} (hb : b.format = .pandas) {i : ℕ} (hi : i ≤ b.rows.length) :
    b.slice i none = b.slice i (some (b.rows.length : ℤ)) := by
  have hneg : ¬ ((i : ℤ) < 0) := by omega
  rw [slice_eq b hi le_rfl]
  unfold Block.slice
  simp only [hb, sliceBound, hneg, if_false, Int.toNat_natCast, Nat.min_eq_left hi, segment,
    List.take_length]

section
variable (sizeBytes : Block α → ℕ) (block : Block α) (m : BlockMetadata)

theorem splitSingleLoop_none_pandas (hb : block.format = .pandas) : ∀ (js : List ℕ) (prev : ℕ),
    prev ≤ block.rows.length → (∀ j ∈ js, j ≤ block.rows.length) →
    splitSingleLoop sizeBytes block m prev (js.map (fun j : ℕ => some (j : ℤ)) ++ [none]) =
      splitSingleLoop sizeBytes block m prev
        (js.map (fun j : ℕ => some (j : ℤ)) ++ [some (block.rows.length : ℤ)])
  | [], prev, hprev, _ => by
    rw [List.map_nil, List.nil_append, List.nil_append, splitSingleLoop, splitSingleLoop,
      slice_none hb hprev]
    rfl
  | j :: js, prev, _, hj => by
    have ih := splitSingleLoop_none_pandas hb js j (hj j (.head _))
      (fun x hx => hj x (.tail _ hx))
    rw [List.map_cons, List.cons_append, List.cons_append, splitSingleLoop, splitSingleLoop,
      Option.getD_some, ih]

theorem splitSingleLoop_none_arrow (hb : block.format = .arrow) : ∀ (js : List ℕ) (prev : ℕ),
    (prev :: js).Pairwise (· ≤ ·) → (∀ j ∈ js, j ≤ block.rows.length) →
    splitSingleLoop sizeBytes block m prev (js.map (fun j : ℕ => some (j : ℤ)) ++ [none]) =
      .error .typeError
  | [], prev, _, _ => by
    have hslice : block.slice prev none = .error .typeError := by
      unfold Block.slice
      simp only [hb]
    rw [List.map_nil, List.nil_append, splitSingleLoop, hslice]
    rfl
  | j :: js, prev, hs, hj => by
    obtain ⟨hle, hs'⟩ := List.pairwise_cons.mp hs
    have ih := splitSingleLoop_none_arrow hb js j hs' (fun x hx => hj x (.tail _ hx))
    rw [List.map_cons, List.cons_append, splitSingleLoop,
      slice_eq block (hle j (.head _)) (hj j (.head _)), ok_bind, Option.getD_some, ih]
    rfl

theorem splitBlock_pass {ps : List ℤ} (h : ∀ p ∈ ps, p = 0) :
    splitBlock sizeBytes block m ps = .ok [(block, m)] := by
  have hnil : dropEmptyBlockSplit ps m.numRows = [] := by
    rw [dropEmptyBlockSplit]
    induction ps with
    | nil => rfl
    | cons p ps ih =>
      rw [dropEmptyLoop, if_pos (.inl (h p List.mem_cons_self))]
      exact ih (fun q hq => h q (.tail _ hq))
  rw [splitBlock, hnil]
  rfl

/-- A block without a count but with a proper index is cut if it is a pandas block, and fails
otherwise. -/
theorem splitBlock_cut (hm : m.numRows = none) {ps : List ℤ} (hps : Placed block.rows.length ps)
    (h : ∃ p ∈ ps, p ≠ 0) :
    (block.format = .arrow ∧ splitBlock sizeBytes block m ps = .error .typeError) ∨
      (block.format = .pandas ∧ ∃ pieces, splitBlock sizeBytes block m ps = .ok pieces ∧
        (∀ p ∈ pieces, Counted p) ∧ allRows pieces = block.rows ∧
        ∀ p ∈ ps, IsCut pieceRows pieces p.toNat) := by
  have hpw : ((-1 : ℤ) :: ps).Pairwise (· ≤ ·) :=
    List.pairwise_cons.mpr ⟨fun p hp => by have := hps.2 p hp; omega, hps.1⟩
  obtain ⟨hlt, hin, hall⟩ := dropEmptyLoop_none ps (-1) hpw
  rw [splitBlock, hm, dropEmptyBlockSplit]
  generalize hqs : dropEmptyLoop none (-1) ps = qs at hlt hin hall
  have hcover : ∀ p ∈ ps, p = 0 ∨ p ∈ qs := by
    intro p hp
    have hb := hps.2 p hp
    obtain h | h | h := hall p hp
    · exact .inl h
    · omega
    · exact .inr h
  have hne : ¬ qs.length = 0 := by
    obtain ⟨p, hp, hp0⟩ := h
    rw [List.length_eq_zero_iff]
    rintro rfl
    exact List.not_mem_nil ((hcover p hp).resolve_left hp0)
  have hbd : ∀ q ∈ qs, 0 ≤ q ∧ q ≤ block.rows.length := fun q hq => hps.2 q (hin q hq)
  have hcast : qs.map some = (qs.map Int.toNat).map (fun j : ℕ => some (j : ℤ)) := by
    rw [List.map_map]
    apply List.map_congr_left
    intro q hq
    simp [(hbd q hq).1]
  have hsorted : (0 :: qs.map Int.toNat).Pairwise (· ≤ ·) := by
    refine List.pairwise_cons.mpr ⟨by simp, List.pairwise_map.mpr ?_⟩
    exact (List.pairwise_cons.mp hlt).2.imp (fun h => Int.toNat_le_toNat h.le)
  have hlast : ∀ j ∈ qs.map Int.toNat, j ≤ block.rows.length := by
    intro j hj
    obtain ⟨q, hq, rfl⟩ := List.mem_map.mp hj
    have hq := hbd q hq
    omega
  rw [if_neg hne, splitSingleBlock, hm, hcast]
  cases hfmt : block.format with
  | arrow =>
    refine .inl ⟨rfl, ?_⟩
    have herr := splitSingleLoop_none_arrow sizeBytes block m hfmt (qs.map Int.toNat) 0 hsorted hlast
    rw [Nat.cast_zero] at herr
    rw [Option.map_none, herr]
    rfl
  | pandas =>
    obtain ⟨pieces, he, hr, hcut⟩ := splitSingleLoop_spec sizeBytes block m (qs.map Int.toNat) 0
      block.rows.length hsorted hlast (Nat.zero_le _) le_rfl
    have hnone := splitSingleLoop_none_pandas sizeBytes block m hfmt (qs.map Int.toNat) 0
      (Nat.zero_le _) hlast
    rw [Nat.cast_zero] at he hnone
    refine .inr ⟨rfl, pieces.zip (pieces.map (sliceMeta sizeBytes m)), ?_,
      counted_zip_sliceMeta sizeBytes m pieces, ?_, fun p hp => ?_⟩
    · rw [Option.map_none, hnone, he]
      simp
    · rw [allRows_zip_pieces, hr, segment_zero, List.take_length]
    · obtain rfl | hq := hcover p hp
      · exact isCut_zero _
      · apply isCut_zip_pieces
        simpa using hcut p.toNat (List.mem_map_of_mem hq)

end

/-! ### Reading the pieces -/

/-- Only pieces behind all rows have no count. -/
def Readable (pieces : BlockPartition α) : Prop :=
  ∃ counted rest, pieces = counted ++ rest ∧ (∀ p ∈ counted, Counted p) ∧ total pieceRows rest = 0

variable {pieces : BlockPartition α}

theorem readable_of_total_eq_zero (h : total pieceRows pieces = 0) :
    Readable pieces := ⟨[], pieces, rfl, nofun, h⟩

variable {rest : BlockPartition α}

theorem readable_append (h : ∀ p ∈ pieces, Counted p) :
    Readable (pieces ++ rest) ↔ Readable rest := by
  constructor
  · rintro ⟨counted, behind, heq, hcounted, hzero⟩
    obtain ⟨more, rfl, rfl⟩ | ⟨more, rfl, rfl⟩ := List.append_eq_append_iff.mp heq
    · exact ⟨more, behind, rfl, fun p hp => hcounted p (List.mem_append_right _ hp), hzero⟩
    · apply readable_of_total_eq_zero
      rw [total_append] at hzero
      omega
  · rintro ⟨counted, behind, rfl, hcounted, hzero⟩
    refine ⟨pieces ++ counted, behind, (List.append_assoc ..).symm, fun p hp => ?_, hzero⟩
    exact (List.mem_append.mp hp).elim (h p) (hcounted p)

variable {m : BlockMetadata}

theorem readable_cons_none {block : Block α} (hm : m.numRows = none)
    :
    Readable ((block, m) :: rest) ↔ total pieceRows ((block, m) :: rest) = 0 := by
  refine ⟨?_, readable_of_total_eq_zero⟩
  rintro ⟨counted, behind, heq, hcounted, hzero⟩
  cases counted with
  | nil =>
    rw [heq]
    exact hzero
  | cons p counted =>
    obtain ⟨rfl, -⟩ := List.cons.inj heq
    have hcount : m.numRows = some block.rows.length := hcounted _ (.head _)
    rw [hm] at hcount
    cases hcount

theorem exists_uncounted : ∀ {pieces : BlockPartition α}, (∀ p ∈ pieces, SoundCount p) →
    ¬ Readable pieces → ∃ counted block m rest, pieces = counted ++ (block, m) :: rest ∧
      (∀ p ∈ counted, Counted p) ∧ m.numRows = none ∧ 0 < total pieceRows ((block, m) :: rest)
  | [], _, hr => absurd (readable_of_total_eq_zero rfl) hr
  | (block, m) :: pieces, hs, hr => by
    obtain hnone | hcount := hs (block, m) (.head _)
    · refine ⟨[], block, m, pieces, rfl, nofun, hnone, Nat.pos_of_ne_zero (fun h0 => hr ?_)⟩
      exact readable_of_total_eq_zero h0
    · have hhead : ∀ p ∈ [(block, m)], Counted p := by simpa using hcount
      obtain ⟨counted, block', m', rest, rfl, hcounted, hnone, hpos⟩ :=
        exists_uncounted (fun p hp => hs p (.tail _ hp))
          (fun h => hr ((readable_append hhead).mpr h))
      exact ⟨(block, m) :: counted, block', m', rest, rfl,
        List.forall_mem_cons.mpr ⟨hcount, hcounted⟩, hnone, hpos⟩

/-- A split that needs more rows than there are before a piece without a count fails there. -/
theorem globalSplitLoop_stuck (block : Block α) (hm : m.numRows = none)
    (rest : BlockPartition α) (sizes : List ℤ) (n : ℕ) : ∀ (pieces : BlockPartition α)
    (blocks : List (Block α)) (metas : List BlockMetadata) (c : ℕ), (∀ p ∈ pieces, Counted p) →
    c + total pieceRows pieces < n →
    globalSplitLoop (pieces ++ (block, m) :: rest) ((n : ℤ) :: sizes) blocks metas c =
      .error .typeError
  | [], blocks, metas, c, _, hlt => by
    have hn : ¬ (n : ℤ) ≤ c := by
      rw [total_nil] at hlt
      omega
    rw [List.nil_append, globalSplitLoop.eq_def]
    simp only [hn, if_false, hm]
  | (b, m') :: pieces, blocks, metas, c, hp, hlt => by
    have hb : pieceRows (b, m') = b.rows.length := rfl
    rw [total_cons, hb] at hlt
    have ih := globalSplitLoop_stuck block hm rest sizes n pieces (blocks ++ [b]) (metas ++ [m'])
      (c + b.rows.length) (fun p h => hp p (.tail _ h)) (by omega)
    push_cast at ih
    rw [List.cons_append, globalSplitLoop_next (hp _ List.mem_cons_self) _ _ _ _ (by omega), ih]

/-- If the splits need rows from a piece without a count on, reading fails. -/
theorem globalSplitLoop_uncounted (block : Block α) (hm : m.numRows = none)
    (rest : BlockPartition α) : ∀ (ns : List ℕ) (pieces : BlockPartition α),
    (∀ p ∈ pieces, Counted p) → RayTfm.Fits pieceRows (pieces ++ (block, m) :: rest) ns →
    total pieceRows pieces < ns.sum →
    globalSplitLoop (pieces ++ (block, m) :: rest) (ns.map Nat.cast) [] [] 0 = .error .typeError
  | [], pieces, _, _, hlt => absurd hlt (by simp)
  | n :: ns, pieces, hp, hf, hlt => by
    rw [List.sum_cons] at hlt
    obtain ⟨pre, suf, heq, hn, hfit⟩ := hf
    by_cases hstuck : total pieceRows pieces < n
    · have h := globalSplitLoop_stuck block hm rest (ns.map Nat.cast) n pieces [] [] 0 hp (by omega)
      rw [Nat.cast_zero] at h
      rw [List.map_cons, h]
    · -- the first split ends before the piece
      obtain ⟨front, back, rfl, hfront, hfit'⟩ : ∃ front back, pieces = front ++ back ∧
          total pieceRows front = n ∧ RayTfm.Fits pieceRows (back ++ (block, m) :: rest) ns := by
        obtain ⟨more, rfl, hsuf⟩ | ⟨more, rfl, hsuf⟩ := List.append_eq_append_iff.mp heq
        · rw [total_append] at hn
          refine ⟨pieces, [], (List.append_nil _).symm, by omega, ?_⟩
          rw [List.nil_append, hsuf]
          exact hfit.zero_append (by omega)
        · exact ⟨pre, more, rfl, hn, hsuf ▸ hfit⟩
      obtain ⟨front', z, rfl, hz, he⟩ := globalSplitLoop_take (ns.map Nat.cast) n front
        (back ++ (block, m) :: rest) [] [] 0 (fun p h => hp p (List.mem_append_left _ h)) (by omega)
      have hcounted : ∀ p ∈ z ++ back, Counted p := fun p h =>
        hp p (by simp only [List.mem_append] at h ⊢; tauto)
      have hfits : RayTfm.Fits pieceRows (z ++ back ++ (block, m) :: rest) ns := by
        rw [List.append_assoc]
        exact hfit'.zero_append hz
      have ih := globalSplitLoop_uncounted block hm rest ns (z ++ back) hcounted hfits (by
        simp only [total_append] at hlt hfront ⊢
        omega)
      rw [List.append_assoc] at ih
      rw [List.append_assoc, List.map_cons]
      push_cast at he
      rw [he, ih]
      rfl

/-! ### All blocks -/

theorem Placed.eq_zero {ps : List ℤ} (h : Placed 0 ps) : ∀ p ∈ ps, p = 0 := by
  intro p hp
  have hb := h.2 p hp
  omega

section
variable {sizeBytes : Block α → ℕ} {block : Block α} {m : BlockMetadata} {ps : List ℤ}
  {blocks : BlockPartition α} {perBlock : List (List ℤ)} {pieces rest : BlockPartition α}

theorem splitAllBlocks_cons (h : splitBlock sizeBytes block m ps = .ok pieces)
    (h' : splitAllBlocks sizeBytes blocks perBlock = .ok rest) :
    splitAllBlocks sizeBytes ((block, m) :: blocks) (ps :: perBlock) = .ok (pieces ++ rest) := by
  rw [splitAllBlocks, h, ok_bind, h', ok_bind]

theorem isCut_covered (hrows : allRows pieces = block.rows)
    (hp : List.Forall₂ Placed (blocks.map pieceRows) perBlock)
    (hcut : ∀ p ∈ ps, IsCut pieceRows pieces p.toNat)
    (hcut' : ∀ v, Covered (blocks.map pieceRows) perBlock v → IsCut pieceRows rest v.toNat) (v : ℤ)
    (hv : Covered (pieceRows (block, m) :: blocks.map pieceRows) (ps :: perBlock) v) :
    IsCut pieceRows (pieces ++ rest) v.toNat := by
  obtain h | h := hv
  · exact (hcut v h).append_right rest
  · have hnonneg := h.nonneg hp
    have heq : v.toNat = total pieceRows pieces + (v - pieceRows (block, m)).toNat := by
      rw [← length_allRows, hrows]
      have hn : pieceRows (block, m) = block.rows.length := rfl
      omega
    rw [heq]
    exact (hcut' _ h).append_left pieces

/-- One block: it fails as an Arrow block without a count, it is cut into counted pieces, or it is
passed on without a count. -/
theorem splitBlock_sound {indices : List ℤ} {offset : ℤ} (hs : SoundCount (block, m))
    (hp : Placed block.rows.length ps)
    (hf : ∀ p, 0 < p → (p ∈ ps ↔ p ≤ (block.rows.length : ℤ) ∧ offset + p ∈ indices)) :
    (splitBlock sizeBytes block m ps = .error .typeError ∧ m.numRows = none ∧
        block.format = .arrow ∧ block.rows ≠ []) ∨
      (∃ pieces, splitBlock sizeBytes block m ps = .ok pieces ∧ (∀ p ∈ pieces, Counted p) ∧
        allRows pieces = block.rows ∧ (∀ p ∈ ps, IsCut pieceRows pieces p.toNat) ∧
        (m.numRows = none → block.format = .pandas ∧
          ∃ v ∈ indices, offset < v ∧ v ≤ offset + block.rows.length)) ∨
      (splitBlock sizeBytes block m ps = .ok [(block, m)] ∧ m.numRows = none ∧
        (∀ p ∈ ps, p = 0) ∧ ¬ ∃ v ∈ indices, offset < v ∧ v ≤ offset + block.rows.length) := by
  have hindex : (∃ p ∈ ps, p ≠ 0) ↔
      ∃ v ∈ indices, offset < v ∧ v ≤ offset + block.rows.length := by
    constructor
    · rintro ⟨p, hmem, hne⟩
      have hpos : 0 < p := by
        have hb := hp.2 p hmem
        omega
      obtain ⟨hle, hv⟩ := (hf p hpos).mp hmem
      exact ⟨offset + p, hv, by omega, by omega⟩
    · rintro ⟨v, hv, hlt, hle⟩
      refine ⟨v - offset, (hf _ (by omega)).mpr ⟨by omega, ?_⟩, by omega⟩
      rwa [add_sub_cancel]
  obtain hnone | hcount := hs
  · by_cases h : ∃ p ∈ ps, p ≠ 0
    · obtain ⟨harrow, herr⟩ | ⟨hpandas, pieces, hok, hcounted, hrows, hcut⟩ :=
        splitBlock_cut sizeBytes block m hnone hp h
      · refine .inl ⟨herr, hnone, harrow, fun hnil => ?_⟩
        obtain ⟨p, hmem, hne⟩ := h
        rw [hnil] at hp
        exact hne (hp.eq_zero p hmem)
      · exact .inr (.inl ⟨pieces, hok, hcounted, hrows, hcut, fun _ => ⟨hpandas, hindex.mp h⟩⟩)
    · have hzero : ∀ p ∈ ps, p = 0 := fun p hmem => by_contra fun hne => h ⟨p, hmem, hne⟩
      exact .inr (.inr ⟨splitBlock_pass sizeBytes block m hzero, hnone, hzero, hindex.not.mp h⟩)
  · obtain ⟨pieces, hok, hcounted, hrows, hcut⟩ := splitBlock_spec sizeBytes block m hcount hp
    refine .inr (.inl ⟨pieces, hok, hcounted, hrows, hcut, fun hnone => ?_⟩)
    have hcount : m.numRows = some block.rows.length := hcount
    rw [hnone] at hcount
    cases hcount

end

/-- All blocks are cut, unless an Arrow block without a count has a proper index; the pieces are
readable exactly if the blocks are tolerated. -/
theorem splitAllBlocks_sound (sizeBytes : Block α → ℕ) :
    ∀ (blocks : BlockPartition α) (perBlock : List (List ℤ)) (offset : ℤ),
      (∀ p ∈ blocks, SoundCount p) → List.Forall₂ Placed (blocks.map pieceRows) perBlock →
      Filed indices offset (blocks.map pieceRows) perBlock →
      (splitAllBlocks sizeBytes blocks perBlock = .error .typeError ∧
          ¬ Tolerated indices offset blocks) ∨
        ∃ pieces, splitAllBlocks sizeBytes blocks perBlock = .ok pieces ∧
          (∀ p ∈ pieces, SoundCount p) ∧ allRows pieces = allRows blocks ∧
          (∀ v, Covered (blocks.map pieceRows) perBlock v → IsCut pieceRows pieces v.toNat) ∧
          (Readable pieces ↔ Tolerated indices offset blocks)
  | [], [], _, _, _, _ => .inr ⟨[], rfl, nofun, rfl, fun _ h => h.elim,
      iff_of_true (readable_of_total_eq_zero rfl) trivial⟩
  | [], _ :: _, _, _, h, _ => by cases h
  | _ :: _, [], _, _, h, _ => by cases h
  | (block, m) :: blocks, ps :: perBlock, offset, hs, hp, hf => by
    obtain ⟨hp1, hp2⟩ := List.forall₂_cons.mp hp
    obtain ⟨hfirst, hf2⟩ := hf
    have hrest := splitAllBlocks_sound sizeBytes blocks perBlock (offset + block.rows.length)
      (fun p h => hs p (.tail _ h)) hp2 hf2
    obtain ⟨herr, hnone, harrow, hne⟩ | ⟨pieces, hok, hcounted, hrows, hcut, hhead⟩ |
        ⟨hok, hnone, hzero, hno⟩ := splitBlock_sound (hs _ (.head _)) hp1 hfirst
    · refine .inl ⟨by rw [splitAllBlocks, herr]; rfl, fun ht => ?_⟩
      obtain hnil | ⟨hpandas, -⟩ := ht.1 hnone
      · rw [allRows_cons] at hnil
        exact hne (List.append_eq_nil_iff.mp hnil).1
      · rw [harrow] at hpandas
        cases hpandas
    · obtain ⟨herr, hnot⟩ | ⟨rest, hok', hsound, hrows', hcut', hread⟩ := hrest
      · exact .inl ⟨by rw [splitAllBlocks, hok, ok_bind, herr]; rfl, fun ht => hnot ht.2⟩
      · refine .inr ⟨pieces ++ rest, splitAllBlocks_cons hok hok', fun p h => ?_,
          by rw [allRows_append, allRows_cons, hrows, hrows'],
          isCut_covered hrows hp2 hcut hcut', ?_⟩
        · exact (List.mem_append.mp h).elim (fun h => .inr (hcounted p h)) (hsound p)
        · rw [readable_append hcounted, hread]
          exact ⟨fun h => ⟨fun hnone => .inr (hhead hnone), h⟩, And.right⟩
    · obtain ⟨herr, hnot⟩ | ⟨rest, hok', hsound, hrows', hcut', hread⟩ := hrest
      · exact .inl ⟨by rw [splitAllBlocks, hok, ok_bind, herr]; rfl, fun ht => hnot ht.2⟩
      · have hrows : allRows [(block, m)] = block.rows := by simp
        have hcut : ∀ p ∈ ps, IsCut pieceRows [(block, m)] p.toNat := fun p h => by
          rw [hzero p h]
          exact isCut_zero _
        refine .inr ⟨(block, m) :: rest, splitAllBlocks_cons hok hok', fun p h => ?_,
          by rw [allRows_cons, allRows_cons, hrows'],
          isCut_covered hrows hp2 hcut hcut', ?_⟩
        · obtain rfl | h := List.mem_cons.mp h
          · exact .inl hnone
          · exact hsound p h
        · have hnil : total pieceRows ((block, m) :: rest) = 0 ↔
              allRows ((block, m) :: blocks) = [] := by
            rw [← length_allRows, List.length_eq_zero_iff, allRows_cons, allRows_cons, hrows']
          rw [readable_cons_none hnone, hnil]
          refine ⟨tolerated_of_allRows_eq_nil, fun ht => ?_⟩
          exact (ht.1 hnone).resolve_right (fun h => hno h.2)

/-! ### The call -/

/-- The blocks are tolerated at the given indices, which are cut off at the number of rows. -/
def ToleratedAt (indices : List ℤ) (blocks : BlockPartition α) : Prop :=
  Tolerated (indices.map (fun i => min i ((allRows blocks).length : ℤ))) 0 blocks

theorem calculateBlocksRows_sound (h : ∀ p ∈ blocks, SoundCount p) :
    calculateBlocksRows blocks = blocks.map pieceRows := by
  refine List.map_congr_left (fun p hp => ?_)
  obtain hnone | hcount := h p hp
  · rw [hnone]
    rfl
  · rw [show p.2.numRows = some p.1.rows.length from hcount]
    rfl

theorem sum_diffs_endPoints (hs : indices.Pairwise (· ≤ ·)) (n : ℕ) :
    (diffs 0 (endPoints indices n)).sum = n := by
  have hlen : (endPoints indices n).length < (cutPoints indices n).length := by simp [cutPoints]
  have h := sum_take_diffs (cutPoints_sorted hs) hlen
  rw [List.take_of_length_le (length_diffs 0 _).le, Nat.zero_add] at h
  rw [h]
  simp [endPoints]

theorem isCut_of_total_eq_zero {n : ℕ}
    (h : IsCut pieceRows (pieces ++ rest) n) (hz : total pieceRows rest = 0) :
    IsCut pieceRows pieces n := by
  obtain ⟨pre, suf, heq, rfl⟩ := h
  obtain ⟨more, rfl, rfl⟩ | ⟨more, rfl, rfl⟩ := List.append_eq_append_iff.mp heq
  · rw [total_append] at hz ⊢
    rw [show total pieceRows more = 0 by omega]
    exact isCut_total _
  · exact ⟨pre, more, rfl, rfl⟩

/-- On metadata whose counts are missing or right, the call returns the groups between the cut
points if the blocks are tolerated, and fails otherwise. -/
theorem splitAtIndices_sound (sizeBytes : Block α → ℕ) (blocks : BlockPartition α)
    (hm : ∀ p ∈ blocks, SoundCount p) (h0 : ∀ i ∈ indices, 0 ≤ i) (hs : indices.Pairwise (· ≤ ·)) :
    (ToleratedAt indices blocks → ∃ gs : List (BlockPartition α),
      splitAtIndices sizeBytes blocks indices none =
        .ok (gs.map (fun g => g.map Prod.fst), gs.map (fun g => g.map Prod.snd)) ∧
      (gs.map allRows).flatten <+: allRows blocks ∧
      gs.map (total pieceRows) = diffs 0 (endPoints indices (allRows blocks).length)) ∧
    (¬ ToleratedAt indices blocks →
      splitAtIndices sizeBytes blocks indices none = .error .typeError) := by
  cases blocks with
  | nil =>
    refine ⟨fun _ => ?_, fun h => absurd trivial h⟩
    obtain ⟨gs, hok, hprefix, -, hsizes⟩ :=
      splitAtIndices_groups sizeBytes [] indices none nofun (.inl rfl) h0 hs
    exact ⟨gs, hok, hprefix, hsizes⟩
  | cons b blocks =>
    have hrows : (none : Option (List ℕ)).getD (calculateBlocksRows (b :: blocks)) =
        (b :: blocks).map pieceRows := calculateBlocksRows_sound hm
    obtain ⟨perBlock, hper, hplaced, hcov, hphases⟩ := splitAtIndices_phases sizeBytes hrows h0 hs
    have hvalid : generateValidIndices ((b :: blocks).map pieceRows) indices =
        indices.map (fun i => min i ((allRows (b :: blocks)).length : ℤ)) := by
      rw [length_allRows]
      rfl
    have hfiled : Filed (indices.map (fun i => min i ((allRows (b :: blocks)).length : ℤ))) 0
        ((b :: blocks).map pieceRows) perBlock := by
      rw [hvalid] at hper
      have hvs : (indices.map (fun i => min i ((allRows (b :: blocks)).length : ℤ))).Pairwise
          (· ≤ ·) := List.pairwise_map.mpr (hs.imp (fun h => min_le_min_right _ h))
      obtain ⟨ps, perBlock, rfl, hfirst, hrest⟩ := perBlockLoop_filed hvs hper
      exact ⟨fun p hp => by rw [hfirst p hp]; simp, hrest⟩
    obtain ⟨herr, hnot⟩ | ⟨pieces, hok, hsound, hrows, hcut, hread⟩ :=
      splitAllBlocks_sound sizeBytes (b :: blocks) perBlock 0 hm hplaced hfiled
    · exact ⟨fun h => absurd h hnot, fun _ => by rw [hphases, herr]; rfl⟩
    have htot : total pieceRows pieces = (allRows (b :: blocks)).length := by
      rw [← length_allRows, hrows]
    rw [hphases, hok, ok_bind, ToleratedAt, ← hread, ← htot]
    rw [← htot] at hcov
    constructor
    · rintro ⟨counted, rest, rfl, hcounted, hzero⟩
      have hsame : total pieceRows (counted ++ rest) = total pieceRows counted := by
        rw [total_append, hzero, Nat.add_zero]
      rw [hsame] at hcov ⊢
      have hfit : RayTfm.Fits pieceRows counted
        (diffs 0 (endPoints indices (total pieceRows counted))) :=
        fits_endPoints hs (fun i hi => isCut_of_total_eq_zero (hcut _ (hcov i hi)) hzero)
      obtain ⟨gs, hg, hp, hsz⟩ := globalSplitLoop_spec _ counted rest hcounted hfit
      refine ⟨gs, hg, ?_, hsz⟩
      rw [allRows_flatten, ← hrows, allRows_append]
      obtain ⟨t, rfl⟩ := hp
      rw [allRows_append, List.append_assoc]
      exact List.prefix_append _ _
    · intro hnot
      obtain ⟨counted, block, m, rest, rfl, hcounted, hnone, hpos⟩ := exists_uncounted hsound hnot
      have hfit := fits_endPoints hs (fun i hi => hcut _ (hcov i hi))
      refine globalSplitLoop_uncounted block hnone rest _ counted hcounted hfit ?_
      rw [sum_diffs_endPoints hs, total_append]
      omega

/-- Lists of the same lengths that make up prefixes of one list are the same. -/
theorem eq_of_flatten_prefix {gs gs' : List (List α)} {l : List α}
    (hlen : gs.map List.length = gs'.map List.length) (h : gs.flatten <+: l)
    (h' : gs'.flatten <+: l) : gs = gs' := by
  have hflat : gs.flatten = gs'.flatten := by
    have hlength : gs.flatten.length = gs'.flatten.length := by
      rw [List.length_flatten, List.length_flatten, hlen]
    obtain hp | hp := List.prefix_or_prefix_of_prefix h h'
    · exact hp.eq_of_length hlength
    · exact (hp.eq_of_length hlength.symm).symm
  exact List.eq_iff_flatten_eq.mpr ⟨hflat, hlen⟩

/-- The rows of each split. -/
def splitRows (splits : List (List (Block α))) : List (List α) :=
  splits.map (fun s => (s.map Block.rows).flatten)

/-- Two calls on the same blocks, whose metadata leave out some row counts, both succeed and return
the same rows in the same splits exactly if all blocks without a count are tolerated. -/
theorem splitAtIndices_same_iff (sizeBytes : Block α → ℕ) {blocks blocks' : BlockPartition α}
    (hsame : blocks.map Prod.fst = blocks'.map Prod.fst) {indices : List ℤ}
    (hm : ∀ p ∈ blocks, SoundCount p) (hm' : ∀ p ∈ blocks', SoundCount p)
    (h0 : ∀ i ∈ indices, 0 ≤ i) (hs : indices.Pairwise (· ≤ ·)) :
    (∃ r r', splitAtIndices sizeBytes blocks indices none = .ok r ∧
        splitAtIndices sizeBytes blocks' indices none = .ok r' ∧ splitRows r.1 = splitRows r'.1) ↔
      ToleratedAt indices blocks ∧ ToleratedAt indices blocks' := by
  obtain ⟨hok, herr⟩ := splitAtIndices_sound sizeBytes blocks hm h0 hs
  obtain ⟨hok', herr'⟩ := splitAtIndices_sound sizeBytes blocks' hm' h0 hs
  constructor
  · rintro ⟨r, r', hr, hr', -⟩
    refine ⟨by_contra fun hnot => ?_, by_contra fun hnot => ?_⟩
    · rw [herr hnot] at hr
      cases hr
    · rw [herr' hnot] at hr'
      cases hr'
  · rintro ⟨ht, ht'⟩
    obtain ⟨gs, hgs, hprefix, hsizes⟩ := hok ht
    obtain ⟨gs', hgs', hprefix', hsizes'⟩ := hok' ht'
    refine ⟨_, _, hgs, hgs', ?_⟩
    have hall : allRows blocks' = allRows blocks := by
      have hmap := congrArg (fun bs => (bs.map Block.rows).flatten) hsame.symm
      simp only [List.map_map] at hmap
      exact hmap
    have hrows : ∀ gs : List (BlockPartition α),
        splitRows (gs.map (fun g => g.map Prod.fst)) = gs.map allRows := by
      intro gs
      rw [splitRows, List.map_map]
      refine List.map_congr_left (fun g _ => ?_)
      rw [Function.comp_apply, List.map_map]
      rfl
    rw [hall] at hprefix' hsizes'
    rw [hrows, hrows]
    refine eq_of_flatten_prefix ?_ hprefix hprefix'
    simp only [List.map_map, Function.comp_def, length_allRows]
    exact hsizes.trans hsizes'.symm

/-- One block with one row and no index: with the count there is one split, and without it the call
fails. -/
theorem splitAtIndices_uncounted_error :
    splitAtIndices (fun _ => 8) [((⟨.arrow, [7]⟩ : Block ℕ), ⟨some 1, some 8, []⟩)] [] none =
        .ok ([[⟨.arrow, [7]⟩]], [[⟨some 1, some 8, []⟩]]) ∧
      splitAtIndices (fun _ => 8) [((⟨.arrow, [7]⟩ : Block ℕ), ⟨none, some 8, []⟩)] [] none =
        .error .typeError := by
  decide +kernel

/-- A pandas block without a count that is cut, and an Arrow block with a count. -/
theorem splitAtIndices_same_iff_example :
    ∃ r r', splitAtIndices (fun _ => 8) [((⟨.pandas, [1, 2]⟩ : Block ℕ), ⟨none, none, []⟩),
          (⟨.arrow, [3]⟩, ⟨some 1, none, []⟩)] [2] none = .ok r ∧
      splitAtIndices (fun _ => 8) [((⟨.pandas, [1, 2]⟩ : Block ℕ), ⟨some 2, none, []⟩),
          (⟨.arrow, [3]⟩, ⟨some 1, none, []⟩)] [2] none = .ok r' ∧ splitRows r.1 = splitRows r'.1 := by
  have h0 : ∀ i ∈ ([2] : List ℤ), 0 ≤ i := by simp
  have hs : ([2] : List ℤ).Pairwise (· ≤ ·) := by simp
  refine (splitAtIndices_same_iff (fun _ => 8) ?_ ?_ ?_ h0 hs).mpr ⟨?_, ?_⟩
  · rfl
  · simp [SoundCount, Counted]
  · simp [SoundCount, Counted]
  · simp [ToleratedAt, Tolerated]
  · simp [ToleratedAt, Tolerated]

end RayTfm.Data
