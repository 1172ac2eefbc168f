import RayTfm.Lib.Cuts

/-! # Merging sorted lists, and runs of equal keys

`mergeAll` merges lists by a key, as a heap of their heads does: the least head comes next, and of
several the one of the first list.  For sorted lists the result is sorted, and rows with one key
come in the order of the lists (`filter_mergeAll`).

`runs` cuts a list where the key changes.  Its keys are distinct if and only if no key comes back
after another one (`nodup_runKeys_iff`), and then a run holds all rows with its key
(`mem_runs_eq_filter`).

`slicesAt` cuts a list at given positions; at those before which neighbours differ that is
`List.splitBy` (`slicesAt_boundaries`). -/

namespace RayTfm

/-! ### Merging -/

section merge
variable {α κ : Type} [LinearOrder κ] (key : α → κ)

/-- The merge of two lists, with ties to the first. -/
def mergeTwo (l m : List α) : List α := l.merge m (fun a b => decide (key a ≤ key b))

/-- The merge of several lists, with ties to the earlier one. -/
def mergeAll (ls : List (List α)) : List α := ls.foldr (mergeTwo key) []

theorem mergeTwo_perm (l m : List α) : (mergeTwo key l m).Perm (l ++ m) := List.merge_perm_append _

theorem mergeAll_perm (ls : List (List α)) : (mergeAll key ls).Perm ls.flatten := by
  induction ls with
  | nil => exact List.Perm.nil
  | cons l ls ih => exact (mergeTwo_perm key l _).trans (ih.append_left l)

variable {ls : List (List α)}

theorem mem_mergeAll {a : α} : a ∈ mergeAll key ls ↔ ∃ l ∈ ls, a ∈ l := by
  rw [(mergeAll_perm key ls).mem_iff, List.mem_flatten]

variable {key}

theorem sorted_mergeTwo {l m : List α} (hl : l.Pairwise (fun a b => key a ≤ key b))
    (hm : m.Pairwise (fun a b => key a ≤ key b)) :
    (mergeTwo key l m).Pairwise (fun a b => key a ≤ key b) := by
  have hmerge : (mergeTwo key l m).Pairwise (fun a b => decide (key a ≤ key b)) := List.pairwise_merge
    (fun a b c hab hbc => by
      rw [decide_eq_true_eq] at hab hbc ⊢
      exact hab.trans hbc)
    (fun a b => by
      rw [Bool.or_eq_true, decide_eq_true_eq, decide_eq_true_eq]
      exact le_total _ _) l m (hl.imp (fun h => decide_eq_true h)) (hm.imp (fun h => decide_eq_true h))
  exact hmerge.imp (fun h => of_decide_eq_true h)

theorem sorted_mergeAll (h : ∀ l ∈ ls, l.Pairwise (fun a b => key a ≤ key b)) :
    (mergeAll key ls).Pairwise (fun a b => key a ≤ key b) := by
  induction ls with
  | nil => exact List.Pairwise.nil
  | cons l ls ih =>
    rw [List.forall_mem_cons] at h
    exact sorted_mergeTwo h.1 (ih h.2)

/-- Rows with one key: first those of the first list. -/
theorem filter_mergeTwo {l m : List α} (hl : l.Pairwise (fun a b => key a ≤ key b))
    (hm : m.Pairwise (fun a b => key a ≤ key b)) {p : α → Bool} {k : κ}
    (hp : ∀ a, p a = true ↔ key a = k) :
    (mergeTwo key l m).filter p = l.filter p ++ m.filter p := by
  unfold mergeTwo
  induction l generalizing m with
  | nil => rw [List.nil_merge, List.filter_nil, List.nil_append]
  | cons a l ihl =>
    induction m with
    | nil => rw [List.merge_right, List.filter_nil, List.append_nil]
    | cons b m ihm =>
      by_cases hab : key a ≤ key b
      · rw [List.cons_merge_cons_pos _ _ _ (decide_eq_true hab), List.filter_cons,
          ihl (List.pairwise_cons.mp hl).2 hm]
        conv_rhs => rw [List.filter_cons]
        split_ifs
        · rfl
        · rfl
      · rw [List.cons_merge_cons_neg _ _ _ (by simpa using hab), List.filter_cons,
          ihm (List.pairwise_cons.mp hm).2]
        split_ifs with hb
        · -- A row that goes before the first list has a smaller key than all of it.
          have hnone : (a :: l).filter p = [] := by
            rw [List.filter_eq_nil_iff]
            intro c hc hpc
            have heq : key c = key b := ((hp c).mp hpc).trans ((hp b).mp hb).symm
            obtain rfl | hc := List.mem_cons.mp hc
            · exact hab heq.le
            · exact hab (((List.pairwise_cons.mp hl).1 c hc).trans heq.le)
          rw [hnone, List.filter_cons_of_pos hb]
          rfl
        · rw [List.filter_cons_of_neg hb]

theorem filter_mergeAll (h : ∀ l ∈ ls, l.Pairwise (fun a b => key a ≤ key b))
    {p : α → Bool} {k : κ} (hp : ∀ a, p a = true ↔ key a = k) :
    (mergeAll key ls).filter p = ls.flatten.filter p := by
  induction ls with
  | nil => rfl
  | cons l ls ih =>
    rw [List.forall_mem_cons] at h
    rw [List.flatten_cons, List.filter_append, ← ih h.2]
    exact filter_mergeTwo h.1 (sorted_mergeAll h.2) hp

/-- A map that keeps the keys goes through a merge. -/
theorem mergeAll_map {β : Type} {key' : β → κ} (f : α → β)
    (h : ∀ l ∈ ls, ∀ a ∈ l, key' (f a) = key a) :
    mergeAll key' (ls.map (List.map f)) = (mergeAll key ls).map f := by
  induction ls with
  | nil => rfl
  | cons l ls ih =>
    rw [List.forall_mem_cons] at h
    show mergeTwo key' (l.map f) (mergeAll key' (ls.map (List.map f))) =
      (mergeTwo key l (mergeAll key ls)).map f
    rw [ih h.2]
    unfold mergeTwo
    rw [List.map_merge (r := fun a b => decide (key a ≤ key b))
      (s := fun a b => decide (key' a ≤ key' b))]
    intro a ha b hb
    obtain ⟨l', hl', hb⟩ := (mem_mergeAll key).mp hb
    rw [h.1 a ha, h.2 l' hl' b hb]

end merge

/-! ### Keys that come back -/

section noReturn
variable {K : Type}

/-- No value comes back after another one. -/
def NoReturn (l : List K) : Prop := ∀ a b, [a, b, a].Sublist l → a = b

theorem NoReturn.of_sublist {l l' : List K} (h : NoReturn l) (hsub : l'.Sublist l) : NoReturn l' :=
  fun a b hab => h a b (hab.trans hsub)

theorem noReturn_of_nodup {l : List K} (h : l.Nodup) : NoReturn l := by
  intro a b hab
  have hnodup := h.sublist hab
  simp at hnodup

/-- A list without equal neighbours that is a part of repeated values is a part of the values. -/
theorem sublist_of_sublist_replicates {x : List K} (hx : x.IsChain (· ≠ ·)) {ks : List (K × ℕ)}
    (h : x.Sublist (ks.flatMap (fun k => List.replicate k.2 k.1))) : x.Sublist (ks.map Prod.fst) := by
  induction ks generalizing x with
  | nil => exact h
  | cons k ks ih =>
    rw [List.flatMap_cons, List.sublist_append_iff] at h
    obtain ⟨x₁, x₂, rfl, h₁, h₂⟩ := h
    obtain ⟨hchain₁, hchain₂, -⟩ := List.isChain_append.mp hx
    have hrest := ih hchain₂ h₂
    obtain ⟨n, hn, rfl⟩ := List.sublist_replicate_iff.mp h₁
    have hone : n ≤ 1 := by
      by_contra hmore
      obtain ⟨n, rfl⟩ : ∃ n', n = n' + 2 := ⟨n - 2, by omega⟩
      rw [List.replicate_succ, List.replicate_succ, List.isChain_cons_cons] at hchain₁
      exact hchain₁.1 rfl
    rw [List.map_cons]
    obtain rfl | rfl : n = 0 ∨ n = 1 := by omega
    · exact hrest.cons _
    · exact hrest.cons_cons _

/-- Values do not come back if they do not when each is taken once. -/
theorem noReturn_replicates {ks : List (K × ℕ)} (h : NoReturn (ks.map Prod.fst)) :
    NoReturn (ks.flatMap (fun k => List.replicate k.2 k.1)) := by
  intro a b hab
  by_contra hne
  refine hne (h a b (sublist_of_sublist_replicates ?_ hab))
  rw [List.isChain_cons_cons, List.isChain_cons_cons]
  exact ⟨hne, Ne.symm hne, List.isChain_singleton _⟩

end noReturn

/-! ### Runs -/

section runs
variable {α K : Type} [DecidableEq K] (key : α → K)

/-- The runs of rows with equal keys. -/
def runs (l : List α) : List (List α) := l.splitBy (fun a b => decide (key a = key b))

variable {key}

theorem flatten_runs (key : α → K) (l : List α) : (runs key l).flatten = l := List.flatten_splitBy _ _

variable {l g : List α}

theorem mem_of_mem_run (hg : g ∈ runs key l) {a : α} (ha : a ∈ g) : a ∈ l := by
  rw [← flatten_runs key l]
  exact List.mem_flatten.mpr ⟨g, hg, ha⟩

/-- A map that keeps which neighbours belong together goes through the cutting. -/
theorem splitBy_map {β : Type} {r : α → α → Bool} {r' : β → β → Bool} (f : α → β)
    (h : ∀ a ∈ l, ∀ b ∈ l, r' (f a) (f b) = r a b) : (l.map f).splitBy r' = (l.splitBy r).map
      (List.map f) := by
  have hmem : ∀ g ∈ l.splitBy r, ∀ a ∈ g, a ∈ l := by
    intro g hg a ha
    rw [← List.flatten_splitBy r l]
    exact List.mem_flatten.mpr ⟨g, hg, ha⟩
  refine List.splitBy_eq_iff.mpr ⟨?_, ?_, ?_, ?_⟩
  · rw [← List.map_flatten, List.flatten_splitBy]
  · rw [List.mem_map]
    rintro ⟨g, hg, hnil⟩
    exact List.ne_nil_of_mem_splitBy hg (List.map_eq_nil_iff.mp hnil)
  · rw [List.forall_mem_map]
    intro g hg
    rw [List.isChain_map]
    exact (List.isChain_of_mem_splitBy hg).imp_of_mem_imp (fun a b ha hb hab => by
      rw [h a (hmem g hg a ha) b (hmem g hg b hb)]
      exact hab)
  · rw [List.isChain_map]
    exact (List.isChain_getLast_head_splitBy r l).imp_of_mem_imp (fun g g' hg hg' hne => by
      obtain ⟨hlast, hhead, hne⟩ := hne
      refine ⟨List.map_eq_nil_iff.not.mpr hlast, List.map_eq_nil_iff.not.mpr hhead, ?_⟩
      rw [List.getLast_map, List.head_map,
        h _ (hmem g hg _ (List.getLast_mem _)) _ (hmem g' hg' _ (List.head_mem _))]
      exact hne)

theorem ne_nil_of_mem_runs (hg : g ∈ runs key l) : g ≠ [] := List.ne_nil_of_mem_splitBy hg

/-- All rows of a run have the key of its first one. -/
theorem key_eq_of_mem_run (hg : g ∈ runs key l) {a b : α} (ha : a ∈ g) (hb : b ∈ g) :
    key a = key b := by
  have hchain : (g.map key).IsChain (· = ·) := by
    rw [List.isChain_map]
    exact (List.isChain_of_mem_splitBy hg).imp (fun _ _ h => of_decide_eq_true h)
  exact List.Pairwise.forall_of_forall (fun _ _ => rfl) (List.isChain_iff_pairwise.mp hchain)
    (List.mem_map_of_mem ha) (List.mem_map_of_mem hb)

/-- The key of a run. -/
def runKey? (key : α → K) (g : List α) : Option K := g.head?.map key

theorem runKey?_eq_some_of_mem (hg : g ∈ runs key l) {a : α} (ha : a ∈ g) :
    runKey? key g = some (key a) := by
  cases g with
  | nil => cases ha
  | cons b g =>
    show some (key b) = some (key a)
    rw [key_eq_of_mem_run hg List.mem_cons_self ha]

/-- The keys of the runs. -/
def runKeys (key : α → K) (l : List α) : List K := (runs key l).filterMap (runKey? key)

theorem runKeys_ne (key : α → K) (l : List α) : (runKeys key l).IsChain (· ≠ ·) := by
  have hchain := List.isChain_getLast_head_splitBy (fun a b => decide (key a = key b)) l
  have hmem : ∀ g ∈ runs key l, g ∈ runs key l := fun g hg => hg
  unfold runKeys
  change (runs key l).IsChain _ at hchain
  generalize hgs : runs key l = gs at hchain
  rw [hgs] at hmem
  have hruns : ∀ g ∈ gs, g ≠ [] ∧ ∀ a ∈ g, ∀ b ∈ g, key a = key b := by
    intro g hg
    rw [← hgs] at hg
    exact ⟨ne_nil_of_mem_runs hg, fun a ha b hb => key_eq_of_mem_run hg ha hb⟩
  clear hmem hgs
  induction gs with
  | nil => exact List.isChain_nil
  | cons g gs ih =>
    rw [List.forall_mem_cons] at hruns
    obtain ⟨⟨hg, hconst⟩, hgs⟩ := hruns
    rw [List.isChain_cons] at hchain
    obtain ⟨a, g, rfl⟩ := List.exists_cons_of_ne_nil hg
    rw [List.filterMap_cons_some (show runKey? key (a :: g) = some (key a) from rfl), List.isChain_cons]
    refine ⟨fun k hk => ?_, ih hchain.2 hgs⟩
    cases gs with
    | nil => cases hk
    | cons g' gs =>
      obtain ⟨hlast, hhead, hne⟩ := hchain.1 g' rfl
      obtain ⟨b, g', rfl⟩ := List.exists_cons_of_ne_nil hhead
      obtain rfl : key b = k := by simpa [runKey?] using hk
      have hfirst : key a = key ((a :: g).getLast hlast) :=
        hconst a List.mem_cons_self _ (List.getLast_mem _)
      rw [hfirst]
      exact of_decide_eq_false hne

theorem map_key_eq_replicates (l : List α) :
    l.map key = ((runs key l).filterMap (fun g => (runKey? key g).map (fun k => (k, g.length)))).flatMap
      (fun k => List.replicate k.2 k.1) := by
  have hflatten := flatten_runs key l
  have hruns : ∀ g ∈ runs key l, g ≠ [] ∧ ∀ a ∈ g, ∀ b ∈ g, key a = key b :=
    fun g hg => ⟨ne_nil_of_mem_runs hg, fun a ha b hb => key_eq_of_mem_run hg ha hb⟩
  conv_lhs => rw [← hflatten]
  generalize runs key l = gs at hruns
  induction gs with
  | nil => rfl
  | cons g gs ih =>
    rw [List.forall_mem_cons] at hruns
    obtain ⟨⟨hg, hconst⟩, hgs⟩ := hruns
    obtain ⟨a, g, rfl⟩ := List.exists_cons_of_ne_nil hg
    rw [List.flatten_cons, List.map_append, ih hgs,
      List.filterMap_cons_some (f := fun g => (runKey? key g).map (fun k => (k, g.length)))
        (show _ = some (key a, (a :: g).length) from rfl), List.flatMap_cons]
    congr 1
    refine List.eq_replicate_iff.mpr ⟨List.length_map _, ?_⟩
    intro k hk
    obtain ⟨b, hb, rfl⟩ := List.mem_map.mp hk
    exact hconst b hb a (.head _)

theorem map_fst_runs (l : List α) :
    ((runs key l).filterMap (fun g => (runKey? key g).map (fun k => (k, g.length)))).map Prod.fst =
      runKeys key l := by
  rw [List.map_filterMap]
  congr 1
  funext g
  cases runKey? key g with
  | none => rfl
  | some k => rfl

theorem runKeys_sublist (l : List α) : (runKeys key l).Sublist (l.map key) := by
  have hflatten := flatten_runs key l
  conv_rhs => rw [← hflatten]
  unfold runKeys
  induction runs key l with
  | nil => exact List.Sublist.slnil
  | cons g gs ih =>
    rw [List.flatten_cons, List.map_append]
    cases g with
    | nil => exact ih
    | cons a g =>
      rw [List.filterMap_cons_some (show runKey? key (a :: g) = some (key a) from rfl)]
      exact (ih.trans (List.sublist_append_right _ _)).cons_cons _

/-- The keys of the runs are distinct if and only if no key comes back. -/
theorem nodup_runKeys_iff (l : List α) : (runKeys key l).Nodup ↔ NoReturn (l.map key) := by
  constructor
  · intro h
    rw [map_key_eq_replicates]
    refine noReturn_replicates (noReturn_of_nodup ?_)
    rwa [map_fst_runs]
  · intro h
    have hkeys := h.of_sublist (runKeys_sublist l)
    have hchain := runKeys_ne key l
    generalize runKeys key l = ks at hkeys hchain
    induction ks with
    | nil => exact List.nodup_nil
    | cons k ks ih =>
      rw [List.nodup_cons]
      refine ⟨fun hk => ?_, ih (hkeys.of_sublist (List.sublist_cons_self _ _))
        (List.isChain_cons.mp hchain).2⟩
      cases ks with
      | nil => cases hk
      | cons k' ks =>
        rw [List.isChain_cons_cons] at hchain
        obtain rfl | hk := List.mem_cons.mp hk
        · exact hchain.1 rfl
        · exact hchain.1 (hkeys k k'
            (((List.singleton_sublist.mpr hk).cons_cons k').cons_cons k))

/-- A run holds all rows with its key, if no key comes back. -/
theorem mem_runs_eq_filter (h : NoReturn (l.map key)) (hg : g ∈ runs key l) {k : K}
    (hk : runKey? key g = some k) : g = l.filter (fun a => key a = k) := by
  have hnodup := (nodup_runKeys_iff l).mpr h
  have hruns : ∀ g ∈ runs key l, g ≠ [] ∧ ∀ a ∈ g, ∀ b ∈ g, key a = key b :=
    fun g hg => ⟨ne_nil_of_mem_runs hg, fun a ha b hb => key_eq_of_mem_run hg ha hb⟩
  conv_rhs => rw [← flatten_runs key l]
  unfold runKeys at hnodup
  generalize runs key l = gs at hnodup hruns hg
  have hconst : ∀ g' ∈ gs, ∀ k', runKey? key g' = some k' →
      g'.filter (fun a => key a = k) = if k' = k then g' else [] := by
    intro g' hg' k' hk'
    obtain ⟨a, g'', rfl⟩ := List.exists_cons_of_ne_nil (hruns g' hg').1
    obtain rfl : key a = k' := Option.some.inj hk'
    have hall : ∀ b ∈ a :: g'', key b = key a := fun b hb => (hruns _ hg').2 b hb a (.head _)
    split_ifs with heq
    · rw [List.filter_eq_self]
      intro b hb
      rw [decide_eq_true_eq, hall b hb, heq]
    · rw [List.filter_eq_nil_iff]
      intro b hb hbk
      rw [decide_eq_true_eq, hall b hb] at hbk
      exact heq hbk
  induction gs with
  | nil => cases hg
  | cons g₀ gs ih =>
    rw [List.flatten_cons, List.filter_append]
    rw [List.forall_mem_cons] at hruns hconst
    obtain ⟨a, g₁, rfl⟩ := List.exists_cons_of_ne_nil hruns.1.1
    rw [List.filterMap_cons_some (show runKey? key (a :: g₁) = some (key a) from rfl),
      List.nodup_cons] at hnodup
    rw [hconst.1 (key a) rfl]
    obtain rfl | hg := List.mem_cons.mp hg
    · -- The other runs have other keys.
      obtain rfl : key a = k := Option.some.inj hk
      rw [if_pos rfl]
      have hrest : gs.flatten.filter (fun b => key b = key a) = [] := by
        rw [List.filter_eq_nil_iff]
        intro b hb heq
        rw [decide_eq_true_eq] at heq
        obtain ⟨g', hg', hb⟩ := List.mem_flatten.mp hb
        refine hnodup.1 (List.mem_filterMap.mpr ⟨g', hg', ?_⟩)
        obtain ⟨c, g'', rfl⟩ := List.exists_cons_of_ne_nil (hruns.2 g' hg').1
        show some (key c) = some (key a)
        rw [(hruns.2 _ hg').2 c List.mem_cons_self b hb, heq]
      rw [hrest, List.append_nil]
    · have hne : key a ≠ k := by
        rintro rfl
        exact hnodup.1 (List.mem_filterMap.mpr ⟨g, hg, hk⟩)
      rw [if_neg hne, List.nil_append]
      exact ih hnodup.2 hruns.2 hg hconst.2

end runs

/-! ### Slices at boundaries -/

section slices
variable {α : Type}

/-- The slices between each position and the next. -/
def slicesAt (l : List α) (boundaries : List ℕ) : List (List α) :=
  (boundaries.zip boundaries.tail).map (fun p => segment l p.1 p.2)

theorem slicesAt_cons_cons (l : List α) (i j : ℕ) (bs : List ℕ) :
    slicesAt l (i :: j :: bs) = segment l i j :: slicesAt l (j :: bs) := rfl

theorem slicesAt_shift (a : α) (l : List α) (bs : List ℕ) :
    slicesAt (a :: l) (bs.map (· + 1)) = slicesAt l bs := by
  unfold slicesAt
  rw [← List.map_tail, List.zip_map, List.map_map]
  rfl

/-- The positions of the true values. -/
def nonzero (l : List Bool) : List ℕ := (l.zipIdx.filter (·.1)).map (·.2)

theorem nonzero_cons (b : Bool) (l : List Bool) :
    nonzero (b :: l) = (if b then [0] else []) ++ (nonzero l).map (· + 1) := by
  unfold nonzero
  rw [List.zipIdx_cons, List.zipIdx_succ, List.filter_cons, List.filter_map, List.map_map]
  cases b
  · simp only [Bool.false_eq_true, if_false, List.nil_append, List.map_map]
    rfl
  · simp only [if_true, List.map_cons, List.singleton_append, List.map_map]
    rfl

/-- For each two neighbours whether they differ. -/
def neighbours (differ : α → α → Bool) (l : List α) : List Bool :=
  (l.zip l.tail).map (fun p => differ p.1 p.2)

theorem splitBy_cons_of_same {r : α → α → Bool} {a b : α} {l g : List α} {gs : List (List α)}
    (hab : r a b = true)
    (h : (b :: l).splitBy r = g :: gs) : (a :: b :: l).splitBy r = (a :: g) :: gs := by
  obtain ⟨hflatten, hnil, hchain, hne⟩ := List.splitBy_eq_iff.mp h
  rw [List.mem_cons, not_or] at hnil
  rw [List.forall_mem_cons] at hchain
  obtain ⟨c, g, rfl⟩ := List.exists_cons_of_ne_nil (Ne.symm hnil.1)
  obtain ⟨rfl, hl⟩ := List.cons.inj hflatten
  refine List.splitBy_eq_iff.mpr ⟨?_, ?_, ?_, ?_⟩
  · rw [hl]
    rfl
  · rw [List.mem_cons, not_or]
    exact ⟨nofun, hnil.2⟩
  · rw [List.forall_mem_cons, List.isChain_cons_cons]
    exact ⟨⟨hab, hchain.1⟩, hchain.2⟩
  · rw [List.isChain_cons] at hne ⊢
    refine ⟨fun m hm => ?_, hne.2⟩
    obtain ⟨ha, hb, hlast⟩ := hne.1 m hm
    exact ⟨List.cons_ne_nil _ _, hb, by rwa [List.getLast_cons ha]⟩

/-- Neighbours that belong together are in one piece. -/
theorem exists_mem_splitBy_of_same {r : α → α → Bool} {a b : α} (hab : r a b = true)
    (pre post : List α) :
    ∃ g ∈ (pre ++ a :: b :: post).splitBy r, a ∈ g ∧ b ∈ g := by
  induction pre with
  | nil =>
    obtain ⟨g, gs, hgs⟩ := List.exists_cons_of_ne_nil
      ((List.splitBy_ne_nil (r := r)).mpr (List.cons_ne_nil b post))
    have hflatten := List.flatten_splitBy r (b :: post)
    have hne : g ≠ [] := List.ne_nil_of_mem_splitBy (r := r) (l := b :: post)
      (by rw [hgs]; exact List.mem_cons_self)
    obtain ⟨c, g, rfl⟩ := List.exists_cons_of_ne_nil hne
    rw [hgs] at hflatten
    obtain ⟨rfl, -⟩ := List.cons.inj hflatten
    rw [List.nil_append, splitBy_cons_of_same hab hgs]
    exact ⟨_, .head _, .head _, .tail _ (.head _)⟩
  | cons c pre ih =>
    obtain ⟨g, hg, ha, hb⟩ := ih
    obtain ⟨d, l, hl⟩ := List.exists_cons_of_ne_nil
      (List.append_ne_nil_of_right_ne_nil pre (List.cons_ne_nil a (b :: post)))
    rw [List.cons_append]
    rw [hl] at hg ⊢
    cases hcd : r c d with
    | true =>
      obtain ⟨g₀, gs, hgs⟩ :=
        List.exists_cons_of_ne_nil ((List.splitBy_ne_nil (r := r)).mpr (List.cons_ne_nil d l))
      rw [splitBy_cons_of_same hcd hgs]
      rw [hgs] at hg
      obtain rfl | hg := List.mem_cons.mp hg
      · exact ⟨_, .head _, .tail _ ha, .tail _ hb⟩
      · exact ⟨g, .tail _ hg, ha, hb⟩
    | false =>
      have hcut := List.splitBy_append_cons (r := r) (l := [c]) (a := d) l (by
        rintro x ⟨rfl⟩
        exact hcd)
      rw [List.singleton_append] at hcut
      rw [hcut]
      exact ⟨g, List.mem_append_right _ hg, ha, hb⟩

theorem slicesAt_boundaries (differ : α → α → Bool) {l : List α} (hl : l ≠ []) :
    slicesAt l (0 :: ((nonzero (neighbours differ l)).map (· + 1) ++ [l.length])) =
      l.splitBy (fun a b => !differ a b) := by
  induction l with
  | nil => exact absurd rfl hl
  | cons a l ih =>
    cases l with
    | nil => rfl
    | cons b l =>
      have ih := ih (List.cons_ne_nil b l)
      have hcuts : (nonzero (neighbours differ (a :: b :: l))).map (· + 1) ++ [(a :: b :: l).length] =
          (if differ a b then [1] else []) ++
            ((nonzero (neighbours differ (b :: l))).map (· + 1) ++ [(b :: l).length]).map (· + 1) := by
        show (nonzero (differ a b :: neighbours differ (b :: l))).map (· + 1) ++
          [(b :: l).length + 1] = _
        rw [nonzero_cons, List.map_append, List.map_append, List.append_assoc]
        congr 1
        split_ifs
        · rfl
        · rfl
      rw [hcuts]
      obtain ⟨j, bs, hbs⟩ := List.exists_cons_of_ne_nil
        (List.append_ne_nil_of_right_ne_nil ((nonzero (neighbours differ (b :: l))).map (· + 1))
          (List.cons_ne_nil (b :: l).length []))
      rw [hbs] at ih ⊢
      cases hdiffer : differ a b with
      | true =>
        show segment (a :: b :: l) 0 1 :: slicesAt (a :: b :: l) ((0 :: j :: bs).map (· + 1)) = _
        rw [slicesAt_shift, ih]
        have hcut := List.splitBy_append_cons (r := fun a b => !differ a b) (l := [a]) (a := b) l (by
          rintro x ⟨rfl⟩
          simp [hdiffer])
        rw [List.singleton_append] at hcut
        rw [hcut]
        rfl
      | false =>
        rw [slicesAt_cons_cons] at ih
        rw [splitBy_cons_of_same (by simp [hdiffer]) ih.symm]
        show segment (a :: b :: l) 0 (j + 1) :: slicesAt (a :: b :: l) ((j :: bs).map (· + 1)) = _
        rw [slicesAt_shift, segment_zero, segment_zero]
        rfl

end slices
end RayTfm
