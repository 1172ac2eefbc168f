import Mathlib

/-! # Cutting a list of sized pieces

A list of pieces, each with a size, can be cut at `n` when some prefix of it has total size
`n` (`IsCut`).  `Fits size l ns` says that `l` can be cut into consecutive runs of total sizes
`ns`, with anything left over after the last run.  A nondecreasing sequence of cut points gives
a fit for their differences (`fits_of_cuts`), and pieces of size zero in front never matter
(`Fits.zero_append`), so a greedy reader that stops as soon as it has enough finds a fit
whenever there is one.

`slice_of_prefix` reads the runs back as slices: consecutive segments of a list are determined
by their lengths. -/

namespace RayTfm

section pieces
variable {β : Type} (size : β → ℕ)

/-- Total size of a list of pieces. -/
def total (l : List β) : ℕ := (l.map size).sum

@[simp] theorem total_nil : total size [] = 0 := rfl

@[simp] theorem total_cons (b : β) (l : List β) : total size (b :: l) = size b + total size l := by
  simp [total]

@[simp] theorem total_append (l l' : List β) :
    total size (l ++ l') = total size l + total size l' := by
  simp [total]

theorem total_flatten (ls : List (List β)) :
    total size ls.flatten = (ls.map (total size)).sum := by
  rw [total, List.map_flatten, List.sum_flatten, List.map_map]
  rfl

/-- Some prefix of `l` has total size `n`. -/
def IsCut (l : List β) (n : ℕ) : Prop := ∃ pre suf, l = pre ++ suf ∧ total size pre = n

variable {size}

theorem isCut_zero (l : List β) : IsCut size l 0 := ⟨[], l, rfl, rfl⟩

theorem isCut_total (l : List β) : IsCut size l (total size l) := ⟨l, [], by simp, rfl⟩

variable {l : List β}

theorem IsCut.append_right {n : ℕ} (h : IsCut size l n) (l' : List β) :
    IsCut size (l ++ l') n := by
  obtain ⟨pre, suf, rfl, rfl⟩ := h
  exact ⟨pre, suf ++ l', by simp, rfl⟩

theorem IsCut.append_left {n : ℕ} (h : IsCut size l n) (l' : List β) :
    IsCut size (l' ++ l) (total size l' + n) := by
  obtain ⟨pre, suf, rfl, rfl⟩ := h
  exact ⟨l' ++ pre, suf, by simp, by simp⟩

/-- A cut beyond a prefix is a cut of the rest. -/
theorem IsCut.of_append {pre suf : List β} {n : ℕ} (h : IsCut size (pre ++ suf) n)
    (hn : total size pre ≤ n) : IsCut size suf (n - total size pre) := by
  obtain ⟨p, s, e, rfl⟩ := h
  rcases List.append_eq_append_iff.mp e with ⟨q, rfl, rfl⟩ | ⟨q, rfl, rfl⟩
  · exact ⟨q, s, rfl, by simp⟩
  · -- the cut lies inside `pre`, so the pieces between it and the end of `pre` are empty
    refine ⟨[], suf, rfl, ?_⟩
    simp only [total_append] at hn ⊢
    simp only [total_nil]
    omega

variable (size)

/-- `l` splits into consecutive runs of total sizes `ns`, and a remainder. -/
def Fits : List β → List ℕ → Prop
  | _, [] => True
  | l, n :: ns => ∃ pre suf, l = pre ++ suf ∧ total size pre = n ∧ Fits suf ns

variable {size}

/-- Pieces of size zero in front can be absorbed by the first run. -/
theorem Fits.zero_append {z : List β} {ns : List ℕ} (h : Fits size l ns)
    (hz : total size z = 0) : Fits size (z ++ l) ns := by
  cases ns with
  | nil => trivial
  | cons n ns =>
    obtain ⟨pre, suf, rfl, rfl, hs⟩ := h
    exact ⟨z ++ pre, suf, by simp, by simp [hz], hs⟩

/-- Differences of consecutive elements, starting from `a`. -/
def diffs (a : ℕ) : List ℕ → List ℕ
  | [] => []
  | b :: l => (b - a) :: diffs b l

@[simp] theorem length_diffs (a : ℕ) (l : List ℕ) : (diffs a l).length = l.length := by
  induction l generalizing a with
  | nil => rfl
  | cons b l ih => simp [diffs, ih]

theorem sum_take_diffs {a : ℕ} {l : List ℕ} (h : (a :: l).Pairwise (· ≤ ·)) {i : ℕ}
    (hi : i < (a :: l).length) : a + ((diffs a l).take i).sum = (a :: l)[i] := by
  induction l generalizing a i with
  | nil =>
    have : i = 0 := by simpa using hi
    subst this
    simp
  | cons b l ih =>
    cases i with
    | zero => simp
    | succ i =>
      have hab : a ≤ b := (List.pairwise_cons.mp h).1 b (by simp)
      have := ih (List.pairwise_cons.mp h).2 (by simpa using hi : i < (b :: l).length)
      simp only [diffs, List.take_succ_cons, List.sum_cons, List.getElem_cons_succ]
      omega

/-- Partial sums, starting from `a`. -/
def partialSums (a : ℕ) : List ℕ → List ℕ
  | [] => []
  | n :: l => (a + n) :: partialSums (a + n) l

theorem diffs_partialSums (a : ℕ) (l m : List ℕ) :
    diffs a (partialSums a l ++ m) = l ++ diffs (a + l.sum) m := by
  induction l generalizing a with
  | nil => simp [partialSums]
  | cons n l ih =>
    rw [partialSums, List.cons_append, diffs, ih, List.sum_cons, Nat.add_sub_cancel_left,
      Nat.add_assoc, List.cons_append]

theorem mem_partialSums {a x : ℕ} {l : List ℕ} (h : x ∈ partialSums a l) :
    a ≤ x ∧ x ≤ a + l.sum := by
  induction l generalizing a with
  | nil => cases h
  | cons n l ih =>
    rw [List.sum_cons]
    obtain rfl | h := List.mem_cons.mp h
    · omega
    · have := ih h
      omega

theorem pairwise_partialSums (a : ℕ) (l : List ℕ) : (partialSums a l).Pairwise (· ≤ ·) := by
  induction l generalizing a with
  | nil => exact .nil
  | cons n l ih => exact .cons (fun x hx => (mem_partialSums hx).1) (ih _)

/-- Nondecreasing cut points of `pre ++ suf` beyond `pre` make their differences fit `suf`. -/
theorem fits_of_cuts : ∀ (pre suf : List β) (ns : List ℕ),
    (total size pre :: ns).Pairwise (· ≤ ·) → (∀ n ∈ ns, IsCut size (pre ++ suf) n) →
      Fits size suf (diffs (total size pre) ns)
  | _, _, [], _, _ => trivial
  | pre, suf, n :: ns, hp, hc => by
    have hn : total size pre ≤ n := (List.pairwise_cons.mp hp).1 n (by simp)
    obtain ⟨q, s, rfl, hq⟩ := (hc n (by simp)).of_append hn
    have e : total size (pre ++ q) = n := by rw [total_append, hq]; omega
    refine ⟨q, s, rfl, hq, ?_⟩
    have := fits_of_cuts (pre ++ q) s ns
      (by rw [e]; exact (List.pairwise_cons.mp hp).2)
      (fun m hm => by rw [List.append_assoc]; exact hc m (.tail _ hm))
    rwa [e] at this

end pieces

/-! ### Consecutive segments of a list -/

section segments
variable {α : Type}

/-- The segment `l[a:b]`. -/
def segment (l : List α) (a b : ℕ) : List α := (l.take b).drop a

theorem segment_zero (l : List α) (b : ℕ) : segment l 0 b = l.take b := by simp [segment]

theorem segment_append_right {l m : List α} {a b : ℕ} (h : l.length ≤ a) :
    segment (l ++ m) a b = segment m (a - l.length) (b - l.length) := by
  unfold segment
  rw [List.take_append, List.drop_append]
  have e : List.drop a (List.take b l) = [] := by
    apply List.drop_eq_nil_of_le
    rw [List.length_take]; omega
  rw [e, List.nil_append, List.length_take]
  rcases Nat.lt_or_ge b l.length with hb | hb
  · have hz : b - l.length = 0 := by omega
    simp [hz]
  · rw [Nat.min_eq_right hb]

theorem segment_append_segment (l : List α) {i j k : ℕ} (hij : i ≤ j) (hjk : j ≤ k) :
    segment l i j ++ segment l j k = segment l i k := by
  unfold segment
  rw [List.drop_take, List.drop_take, List.drop_take]
  have e : List.drop j l = List.drop (j - i) (List.drop i l) := by
    rw [List.drop_drop]; congr 1; omega
  rw [e, ← List.take_add]
  congr 1
  omega

theorem length_segment (l : List α) {i j : ℕ} (hij : i ≤ j) (hj : j ≤ l.length) :
    (segment l i j).length = j - i := by
  rw [segment, List.length_drop, List.length_take]
  omega

/-- Consecutive lists that make up a prefix of `l` are the segments of `l` between the partial
sums of their lengths. -/
theorem segments_of_prefix {gs : List (List α)} {l : List α} (h : gs.flatten <+: l) (i : ℕ)
    (hi : i < gs.length) :
    gs[i] = segment l ((gs.take i).flatten.length) ((gs.take (i + 1)).flatten.length) := by
  obtain ⟨t, rfl⟩ := h
  have hsplit : gs = gs.take i ++ gs[i] :: gs.drop (i + 1) := by simp
  have e : gs.flatten ++ t = (gs.take i).flatten ++ (gs[i] ++ ((gs.drop (i + 1)).flatten ++ t)) := by
    have := congrArg (fun g => List.flatten g ++ t) hsplit
    simpa only [List.flatten_append, List.flatten_cons, List.append_assoc] using this
  have e2 : (gs.take (i + 1)).flatten = (gs.take i).flatten ++ gs[i] := by
    rw [← List.take_concat_get' gs i hi, List.flatten_append]
    simp
  rw [e, segment_append_right le_rfl, e2, List.length_append, Nat.sub_self, Nat.add_sub_cancel_left,
    segment_zero, List.take_left]

end segments
end RayTfm
