import Mathlib

/-! # Dealing

A list is dealt round-robin to `n` players: `dealt n idx l j` is what player `j` gets of the list
`l` whose first element has the index `idx`.  The `k`-th thing that player `j` gets is the one with
the index `j + n * k` (`getElem?_dealt`). -/

namespace RayTfm

variable {α : Type} {n : ℕ}

/-- What player `j` gets of a list whose first element has the index `idx`. -/
def dealt (n : ℕ) : ℕ → List α → ℕ → List α
  | _, [], _ => []
  | idx, x :: l, j => if idx % n = j then x :: dealt n (idx + 1) l j else dealt n (idx + 1) l j

theorem dealt_append_singleton (idx : ℕ) (l : List α) (x : α) (j : ℕ) :
    dealt n idx (l ++ [x]) j = dealt n idx l j ++ if (idx + l.length) % n = j then [x] else [] := by
  induction l generalizing idx with
  | nil =>
    rw [List.nil_append, dealt, dealt, dealt, List.length_nil, Nat.add_zero, List.nil_append]
  | cons y l ih =>
    have hidx : idx + 1 + l.length = idx + (y :: l).length := by
      rw [List.length_cons]
      omega
    rw [List.cons_append, dealt, dealt, ih, hidx]
    by_cases h : idx % n = j
    · rw [if_pos h, if_pos h, List.cons_append]
    · rw [if_neg h, if_neg h]

theorem mem_dealt_iff (hn : 0 < n) {idx : ℕ} {l : List α} {x : α} :
    x ∈ l ↔ ∃ j < n, x ∈ dealt n idx l j := by
  induction l generalizing idx with
  | nil => simp [dealt]
  | cons y l ih =>
    rw [List.mem_cons, @ih (idx + 1)]
    constructor
    · rintro (rfl | ⟨j, hj, hx⟩)
      · refine ⟨idx % n, Nat.mod_lt idx hn, ?_⟩
        rw [dealt, if_pos rfl]
        exact .head _
      · refine ⟨j, hj, ?_⟩
        rw [dealt]
        split_ifs
        · exact List.mem_cons_of_mem y hx
        · exact hx
    · rintro ⟨j, hj, hx⟩
      rw [dealt] at hx
      split_ifs at hx
      · obtain rfl | hx := List.mem_cons.mp hx
        · exact .inl rfl
        · exact .inr ⟨j, hj, hx⟩
      · exact .inr ⟨j, hj, hx⟩

/-- The things of player `j` are those with the indices `j`, `j + n`, `j + 2 * n` and so on. -/
theorem getElem?_dealt {j : ℕ} (hj : j < n) (l : List α) (k : ℕ) :
    (dealt n 0 l j)[k]? = l[j + n * k]? := by
  induction l using List.reverseRecOn generalizing k with
  | nil => simp [dealt]
  | append_singleton l x ih =>
    have hlength : ∀ k, k < (dealt n 0 l j).length ↔ j + n * k < l.length := by
      intro k
      simpa only [isSome_getElem?] using Iff.of_eq (congrArg (fun o => o.isSome = true) (ih k))
    rw [dealt_append_singleton, Nat.zero_add, List.getElem?_append, List.getElem?_append, ih]
    simp only [hlength]
    split_ifs with hlt hturn
    · rfl
    · -- it is the turn of `j`, who has got `l.length / n` things
      have hq : l.length = j + n * (l.length / n) := by
        have := Nat.mod_add_div l.length n
        omega
      have hlen : (dealt n 0 l j).length = l.length / n := by
        apply Nat.le_antisymm
        · apply Nat.le_of_not_lt
          rw [hlength, ← hq]
          exact Nat.lt_irrefl _
        · apply Nat.le_of_not_lt
          intro hlt'
          have h := Nat.mul_lt_mul_of_pos_left hlt' (show 0 < n by omega)
          have := (hlength _).mpr (show j + n * (dealt n 0 l j).length < l.length by omega)
          omega
      rw [hlen]
      have hle : l.length / n ≤ k := by
        rw [← hlen, ← Nat.not_lt, hlength]
        exact hlt
      obtain ⟨d, rfl⟩ := Nat.exists_eq_add_of_le hle
      rw [Nat.add_sub_cancel_left,
        show j + n * (l.length / n + d) - l.length = n * d by rw [Nat.mul_add]; omega]
      cases d with
      | zero => rfl
      | succ d =>
        rw [List.getElem?_eq_none (by simp), List.getElem?_eq_none]
        rw [List.length_singleton]
        exact Nat.mul_pos (show 0 < n by omega) (Nat.succ_pos d)
    · rw [List.getElem?_nil, List.getElem?_eq_none]
      rw [List.length_singleton]
      by_contra hpos
      apply hturn
      rw [show l.length = j + n * k by omega, Nat.add_mul_mod_self_left, Nat.mod_eq_of_lt hj]

/-- The first `m` elements from a place on. -/
theorem filterMap_range_getElem? (l : List α) (a m : ℕ) :
    (List.range m).filterMap (fun j => l[a + j]?) = (l.drop a).take m := by
  induction m with
  | zero => rfl
  | succ m ih =>
    rw [List.range_succ, List.filterMap_append, ih, List.take_add_one, List.getElem?_drop]
    cases h : l[a + m]? with
    | none => simp [h]
    | some x => simp [h]

end RayTfm
