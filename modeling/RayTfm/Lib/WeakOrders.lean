import Mathlib

/-! # Sorting by a comparator

A sorting routine that takes a comparator promises something only for a strict weak order: `StdSort`
is such a routine with its promise, whatever it does with elements that the comparator does not tell
apart.  Comparators often look for the first key, in a fixed order of the keys, at which two
elements differ (`firstDifference`); such a comparator is a strict weak order, as the elements it
does not tell apart are those that agree at every key (`isStrictWeakOrder_of_firstDifference`).

What is computed in sorted order is put back under the sorted indices (`scatter`). -/

namespace RayTfm

/-- A comparator as a relation. -/
def Comparator.Before {A : Type} (lt : A → A → Bool) (a b : A) : Prop := lt a b = true

/-- A sorting routine for comparators: for a strict weak order it permutes its input so that no
element comes after one that it is before. -/
structure StdSort (A : Type) where
  sort : (A → A → Bool) → List A → List A
  perm : ∀ lt, IsStrictWeakOrder A (Comparator.Before lt) → ∀ l, (sort lt l).Perm l
  sorted : ∀ lt, IsStrictWeakOrder A (Comparator.Before lt) →
    ∀ l, (sort lt l).Pairwise (fun a b => lt b a = false)

namespace Comparator

variable {A ι V : Type} {lt : A → A → Bool}

theorem not_before_trans (h : IsStrictWeakOrder A (Before lt)) {a b c : A} (hab : lt b a = false)
    (hbc : lt c b = false) :
    lt c a = false := by
  by_contra hca
  rw [Bool.not_eq_false] at hca
  by_cases hba : Before lt a b
  · exact Bool.false_ne_true (hbc.symm.trans (h.trans c a b hca hba))
  · by_cases hcb : Before lt b c
    · exact Bool.false_ne_true (hab.symm.trans (h.trans b c a hcb hca))
    · have hab : ¬ Before lt b a := by rw [Before, hab]; exact Bool.false_ne_true
      have hbc : ¬ Before lt c b := by rw [Before, hbc]; exact Bool.false_ne_true
      exact (h.incomp_trans a b c ⟨hba, hab⟩ ⟨hcb, hbc⟩).2 hca

theorem not_before_total (h : IsStrictWeakOrder A (Before lt)) (a b : A) :
    lt b a = false ∨ lt a b = false := by
  by_contra hboth
  push Not at hboth
  rw [Bool.ne_false_iff, Bool.ne_false_iff] at hboth
  exact h.irrefl a (h.trans a b a hboth.2 hboth.1)

open Classical in
/-- Insertion sort. -/
def insertionSort : StdSort A where
  sort lt l := l.insertionSort (fun a b => lt b a = false)
  perm _ _ l := List.perm_insertionSort _ l
  sorted lt h l := by
    have _ : IsTrans A (fun a b => lt b a = false) := ⟨fun _ _ _ => not_before_trans h⟩
    have _ : Std.Total (fun a b => lt b a = false) := ⟨not_before_total h⟩
    exact List.pairwise_insertionSort _ l

/-! ### The first difference -/

variable [DecidableEq V] [LT V] [DecidableLT V]

/-- Which of two elements has the smaller value at the first of the keys where they differ, if they
do. -/
def firstDifference (x y : ι → V) : List ι → Option Bool
  | [] => none
  | i :: l => if x i ≠ y i then some (decide (x i < y i)) else firstDifference x y l

theorem firstDifference_append (x y : ι → V) (l l' : List ι) :
    firstDifference x y (l ++ l') = (firstDifference x y l).or (firstDifference x y l') := by
  induction l with
  | nil => rfl
  | cons i l ih =>
    rw [List.cons_append, firstDifference, firstDifference]
    split_ifs
    · rfl
    · exact ih

end Comparator

namespace Comparator

variable {A ι V : Type} [LinearOrder ι] [LinearOrder V]
variable {x y : ι → V}

/-- A key before which there is no difference decides the lexicographic order. -/
theorem lex_of_first {i : ι} (hfirst : ∀ j, x j ≠ y j → i ≤ j) (hlt : x i < y i) : toLex x < toLex y :=
  ⟨i, fun j hj => not_not.mp fun h => absurd hj (not_lt.mpr (hfirst j h)), hlt⟩

variable {l : List ι}

omit [LinearOrder V] in
theorem le_of_pairwise_cons {i : ι} (hl : (i :: l).Pairwise (· < ·))
    (hall : ∀ j, x j ≠ y j → j ∈ i :: l) : ∀ j, x j ≠ y j → i ≤ j := by
  intro j hj
  obtain rfl | hmem := List.mem_cons.mp (hall j hj)
  · exact le_refl _
  · exact le_of_lt ((List.pairwise_cons.mp hl).1 j hmem)

omit [LinearOrder ι] [LinearOrder V] in
theorem mem_of_mem_cons {i : ι} (hi : x i = y i) (hall : ∀ j, x j ≠ y j → j ∈ i :: l) :
    ∀ j, x j ≠ y j → j ∈ l := by
  intro j hj
  obtain rfl | hmem := List.mem_cons.mp (hall j hj)
  · exact absurd hi hj
  · exact hmem

/-- On keys in increasing order that include all differences, the first difference decides the
lexicographic order. -/
theorem firstDifference_iff (hl : l.Pairwise (· < ·)) (hall : ∀ i, x i ≠ y i → i ∈ l) :
    (firstDifference x y l).getD false = true ↔ toLex x < toLex y := by
  induction l with
  | nil =>
    have hxy : x = y := funext fun i => not_not.mp fun h => by simpa using hall i h
    rw [hxy, firstDifference, Option.getD_none]
    exact ⟨nofun, fun h => absurd h (lt_irrefl _)⟩
  | cons i l ih =>
    rw [firstDifference]
    by_cases hi : x i = y i
    · rw [if_neg (not_not.mpr hi)]
      exact ih (List.pairwise_cons.mp hl).2 (mem_of_mem_cons hi hall)
    · rw [if_pos hi, Option.getD_some, decide_eq_true_iff]
      refine ⟨lex_of_first (le_of_pairwise_cons hl hall), ?_⟩
      rintro ⟨k, hk, hlt⟩
      obtain rfl | hik := (le_of_pairwise_cons hl hall k (ne_of_lt hlt)).eq_or_lt
      · exact hlt
      · exact absurd (hk i hik) hi

/-- Values with finitely many differences are comparable. -/
theorem lex_trichotomy (hl : l.Pairwise (· < ·)) (hall : ∀ i, x i ≠ y i → i ∈ l) :
    toLex x < toLex y ∨ x = y ∨ toLex y < toLex x := by
  induction l with
  | nil => exact .inr (.inl (funext fun i => not_not.mp fun h => by simpa using hall i h))
  | cons i l ih =>
    by_cases hi : x i = y i
    · exact ih (List.pairwise_cons.mp hl).2 (mem_of_mem_cons hi hall)
    · have hfirst := le_of_pairwise_cons hl hall
      obtain hlt | hlt := lt_or_gt_of_ne hi
      · exact .inl (lex_of_first hfirst hlt)
      · exact .inr (.inr (lex_of_first (fun j hj => hfirst j hj.symm) hlt))

/-- A comparator that looks for the first difference is a strict weak order. -/
theorem isStrictWeakOrder_of_firstDifference {lt : A → A → Bool} {value : A → ι → V} {keys : A → A → List ι}
    (hlt : ∀ a b, lt a b = (firstDifference (value a) (value b) (keys a b)).getD false)
    (hsorted : ∀ a b, (keys a b).Pairwise (· < ·)) (hall : ∀ a b i, value a i ≠ value b i → i ∈ keys a b) :
    IsStrictWeakOrder A (Before lt) := by
  have hbefore : ∀ a b, Before lt a b ↔ toLex (value a) < toLex (value b) := by
    intro a b
    rw [Before, hlt]
    exact firstDifference_iff (hsorted a b) (hall a b)
  have hincomp : ∀ a b, ¬ Before lt a b ∧ ¬ Before lt b a ↔ value a = value b := by
    intro a b
    rw [hbefore, hbefore]
    constructor
    · rintro ⟨hab, hba⟩
      obtain h | h | h := lex_trichotomy (hsorted a b) (hall a b)
      · exact absurd h hab
      · exact h
      · exact absurd h hba
    · intro h
      rw [h]
      exact ⟨lt_irrefl _, lt_irrefl _⟩
  have _ : Std.Irrefl (Before lt) := ⟨fun a h => lt_irrefl _ ((hbefore a a).mp h)⟩
  have _ : IsTrans A (Before lt) :=
    ⟨fun a b c hab hbc => (hbefore a c).mpr (lt_trans ((hbefore a b).mp hab) ((hbefore b c).mp hbc))⟩
  exact { incomp_trans := fun a b c hab hbc => (hincomp a c).mpr (((hincomp a b).mp hab).trans ((hincomp b c).mp hbc)) }

end Comparator

/-! ### Undoing a sort -/

section scatter
variable {A : Type}

/-- Write values under their indices. -/
def scatter (entries : List (ℕ × A)) (init : List A) : List A :=
  entries.foldl (fun l e => l.set e.1 e.2) init

theorem length_scatter (entries : List (ℕ × A)) (init : List A) :
    (scatter entries init).length = init.length := by
  induction entries generalizing init with
  | nil => rfl
  | cons e entries ih =>
    show (scatter entries (init.set e.1 e.2)).length = init.length
    rw [ih, List.length_set]

variable {entries : List (ℕ × A)}

theorem getElem?_scatter_of_notMem {init : List A} {j : ℕ}
    (h : j ∉ entries.map Prod.fst) : (scatter entries init)[j]? = init[j]? := by
  induction entries generalizing init with
  | nil => rfl
  | cons e entries ih =>
    rw [List.map_cons, List.mem_cons, not_or] at h
    show (scatter entries (init.set e.1 e.2))[j]? = init[j]?
    rw [ih h.2, List.getElem?_set_ne (Ne.symm h.1)]

/-- Under an index that is written once stands the value written. -/
theorem getElem?_scatter {init : List A} {j : ℕ} {a : A}
    (hnodup : (entries.map Prod.fst).Nodup) (h : (j, a) ∈ entries) (hj : j < init.length) :
    (scatter entries init)[j]? = some a := by
  induction entries generalizing init with
  | nil => cases h
  | cons e entries ih =>
    rw [List.map_cons, List.nodup_cons] at hnodup
    show (scatter entries (init.set e.1 e.2))[j]? = some a
    obtain rfl | h := List.mem_cons.mp h
    · rw [getElem?_scatter_of_notMem hnodup.1, List.getElem?_set_self hj]
    · exact ih hnodup.2 h (by rwa [List.length_set])

/-- Values put back under the indices they were computed for, read in the order of these indices. -/
theorem eq_map_scatter (init : List A) {index : List ℕ} {values : List A}
    (hindex : index.Perm (List.range init.length))
    (hlength : values.length = index.length) :
    values.map some = index.map (fun j => (scatter (index.zip values) init)[j]?) := by
  have hfst : (index.zip values).map Prod.fst = index := List.map_fst_zip (le_of_eq hlength.symm)
  have hsnd : (index.zip values).map Prod.snd = values := List.map_snd_zip (le_of_eq hlength)
  have hnodup : ((index.zip values).map Prod.fst).Nodup := by
    rw [hfst]
    exact hindex.nodup_iff.mpr List.nodup_range
  have heq : (index.zip values).map (fun e => some e.2) =
      (index.zip values).map (fun e => (scatter (index.zip values) init)[e.1]?) := by
    apply List.map_congr_left
    intro e he
    refine (getElem?_scatter hnodup he ?_).symm
    have hmem : e.1 ∈ index := hfst ▸ List.mem_map_of_mem he
    exact List.mem_range.mp (hindex.mem_iff.mp hmem)
  calc values.map some = ((index.zip values).map Prod.snd).map some := by rw [hsnd]
    _ = (index.zip values).map (fun e => some e.2) := List.map_map
    _ = (index.zip values).map (fun e => (scatter (index.zip values) init)[e.1]?) := heq
    _ = ((index.zip values).map Prod.fst).map (fun j => (scatter (index.zip values) init)[j]?) :=
        List.map_map.symm
    _ = index.map (fun j => (scatter (index.zip values) init)[j]?) := by rw [hfst]

end scatter

end RayTfm
