import Mathlib

/-! # Gathering rows in an order, and stable sorting

`gather l order` reads the entries of `l` at the positions of `order`; a permutation of the
positions gives a permutation of `l`.  `argsort` is the stable order of a list of keys, and
gathering by it is a stable sort (`isStableSort_gather_argsort`). -/

namespace RayTfm

variable {α β : Type}

/-- The entries of `l` at the given positions. -/
def gather (l : List α) (order : List ℕ) : List α := order.filterMap (fun i => l[i]?)

theorem gather_map (f : α → β) (l : List α) (order : List ℕ) :
    gather (l.map f) order = (gather l order).map f := by
  unfold gather
  rw [List.map_filterMap]
  congr 1
  funext i
  simp

theorem gather_range (l : List α) : gather l (List.range l.length) = l := by
  induction l with
  | nil => rfl
  | cons a l ih =>
    unfold gather at ih ⊢
    rw [List.length_cons, List.range_succ_eq_map, List.filterMap_cons, List.filterMap_map]
    simpa [Function.comp_def] using ih

theorem gather_perm {l : List α} {order : List ℕ} (h : order.Perm (List.range l.length)) :
    (gather l order).Perm l := by
  have hp : (gather l order).Perm (gather l (List.range l.length)) := h.filterMap _
  rwa [gather_range] at hp

/-- A permutation of a mapped list is the map of a permutation. -/
theorem exists_perm_of_perm_map {f : α → β} {l : List β} {m : List α} (h : l.Perm (m.map f)) :
    ∃ m' : List α, m'.Perm m ∧ l = m'.map f := by
  induction l generalizing m with
  | nil =>
    obtain rfl := List.map_eq_nil_iff.mp h.symm.eq_nil
    exact ⟨[], List.Perm.refl [], rfl⟩
  | cons b l ih =>
    obtain ⟨a, ha, rfl⟩ := List.mem_map.mp (h.subset (.head _))
    obtain ⟨pre, post, rfl⟩ := List.append_of_mem ha
    have hrest : l.Perm ((pre ++ post).map f) := by
      rw [List.map_append, List.map_cons] at h
      rw [List.map_append]
      exact (h.trans List.perm_middle).cons_inv
    obtain ⟨m', hm', rfl⟩ := ih hrest
    exact ⟨a :: m', (hm'.cons a).trans List.perm_middle.symm, rfl⟩

section stable
variable {K : Type} [LinearOrder K] (key : α → K)

/-- The list `l'` is `l` sorted by `key`, entries with equal keys in the order they have in `l`. -/
structure IsStableSort (l l' : List α) : Prop where
  perm : l'.Perm l
  sorted : l'.Pairwise (fun a b => key a ≤ key b)
  stable : ∀ k, l'.filter (fun a => key a = k) = l.filter (fun a => key a = k)

/-- Stable sort by a key. -/
def sortBy (l : List α) : List α := l.insertionSort (fun a b => key a ≤ key b)

theorem filter_orderedInsert (k : K) (a : α) (l : List α) :
    (l.orderedInsert (fun a b => key a ≤ key b) a).filter (fun a => key a = k) =
      (a :: l).filter (fun a => key a = k) := by
  induction l with
  | nil => rfl
  | cons b l ih =>
    by_cases hab : key a ≤ key b
    · rw [List.orderedInsert_cons, if_pos hab]
    · rw [List.orderedInsert_cons, if_neg hab, List.filter_cons, ih]
      by_cases hb : key b = k
      · -- the entry passed has a smaller key, so `a` is not in the same class
        have ha : key a ≠ k := fun h => hab (by rw [h, hb])
        simp [hb, ha]
      · simp [List.filter_cons, hb]

theorem isStableSort_sortBy (l : List α) : IsStableSort key l (sortBy key l) := by
  refine ⟨List.perm_insertionSort _ l, List.pairwise_insertionSort _ l, fun k => ?_⟩
  induction l with
  | nil => rfl
  | cons a l ih =>
    rw [sortBy, List.insertionSort_cons, filter_orderedInsert, List.filter_cons, List.filter_cons]
    unfold sortBy at ih
    rw [ih]

/-- A stable sort keeps the order of a sort before it, among equal keys. -/
theorem IsStableSort.pairwise_lex {l l' : List α} (h : IsStableSort key l l') {r : α → α → Prop}
    (hr : l.Pairwise r) :
    l'.Pairwise (fun a b => key a < key b ∨ key a = key b ∧ r a b) := by
  rw [List.pairwise_iff_forall_sublist]
  intro a b hab
  have hle := List.pairwise_iff_forall_sublist.mp h.sorted hab
  obtain hlt | heq := hle.lt_or_eq
  · exact .inl hlt
  · refine .inr ⟨heq, List.pairwise_iff_forall_sublist.mp hr ?_⟩
    have hclass := hab.filter (fun c => key c = key a)
    rw [h.stable, List.filter_eq_self.mpr (by simp [heq])] at hclass
    exact hclass.trans List.filter_sublist

theorem sortBy_eq_self {l : List α} (h : l.Pairwise (fun a b => key a ≤ key b)) :
    sortBy key l = l :=
  List.Pairwise.insertionSort_eq h

theorem sortBy_map (f : β → α) (l : List β) :
    sortBy key (l.map f) = (sortBy (fun b => key (f b)) l).map f :=
  (List.map_insertionSort _ _ f l (fun _ _ _ _ => Iff.rfl)).symm

/-- The positions of the keys in stable sorted order. -/
def argsort (keys : List K) : List ℕ := (sortBy Prod.fst keys.zipIdx).map Prod.snd

theorem gather_argsort (l : List α) : gather l (argsort (l.map key)) = sortBy key l := by
  have hsort : argsort (l.map key) = (sortBy (fun p => key p.1) l.zipIdx).map Prod.snd := by
    rw [argsort, List.zipIdx_map, sortBy_map, List.map_map]
    rfl
  have hmem : ∀ p ∈ sortBy (fun p : α × ℕ => key p.1) l.zipIdx, l[p.2]? = some p.1 := by
    intro p hp
    have hp' := (isStableSort_sortBy (fun p : α × ℕ => key p.1) l.zipIdx).perm.mem_iff.mp hp
    exact List.mem_zipIdx_iff_getElem?.mp hp'
  rw [hsort, gather, List.filterMap_map]
  have hfst : ∀ s : List (α × ℕ), (∀ p ∈ s, l[p.2]? = some p.1) →
      s.filterMap ((fun i => l[i]?) ∘ Prod.snd) = s.map Prod.fst := by
    intro s hs
    induction s with
    | nil => rfl
    | cons p s ih =>
      rw [List.filterMap_cons, Function.comp_apply, hs p (by simp),
        ih (fun q hq => hs q (.tail _ hq))]
      rfl
  rw [hfst _ hmem, ← sortBy_map]
  simp

theorem argsort_perm (keys : List K) : (argsort keys).Perm (List.range keys.length) := by
  have h := (isStableSort_sortBy Prod.fst keys.zipIdx).perm.map Prod.snd
  rwa [List.zipIdx_map_snd, ← List.range_eq_range'] at h

end stable
end RayTfm
