import RayTfm.Lib.Dict
import RayTfm.Lib.Grouping
import RayTfm.Lib.Sorting

/-! # Histograms

A dictionary that counts the entries of a list, filled in several passes (`isHistogram_add`), its
items in the order of the keys (`sortedItems`), and the first key at which the running total
reaches a threshold.

The running total before a key counts the entries below it, so the first key `k` at which a
threshold `t` is reached satisfies `#(entries < k) < t ≤ #(entries ≤ k)` (`firstReaching_spec`). -/

namespace RayTfm

variable {K : Type}

section counting

variable [DecidableEq K]

/-- `counts[k] += n`. -/
def addCount (counts : Dict K ℕ) (k : K) (n : ℕ) : Dict K ℕ :=
  counts.set k ((counts.get? k).getD 0 + n)

/-- The distinct entries with their numbers of occurrences. -/
def valueCounts (l : List K) : List (K × ℕ) := (distinct l).map (fun k => (k, l.count k))

/-- The dictionary counts the list. -/
def IsHistogram (counts : Dict K ℕ) (l : List K) : Prop :=
  ∀ k, counts.get? k = if k ∈ l then some (l.count k) else none

theorem isHistogram_empty : IsHistogram (Dict.empty : Dict K ℕ) [] := fun _ => rfl

theorem get?_foldl_addCount (counts : Dict K ℕ) {l : List (K × ℕ)}
    (hl : (l.map Prod.fst).Nodup) (k : K) :
    (l.foldl (fun c e => addCount c e.1 e.2) counts).get? k =
      match l.lookup k with
      | some n => some ((counts.get? k).getD 0 + n)
      | none => counts.get? k := by
  induction l generalizing counts with
  | nil => rfl
  | cons e l ih =>
    obtain ⟨j, n⟩ := e
    rw [List.map_cons, List.nodup_cons] at hl
    rw [List.foldl_cons, ih _ hl.2, List.lookup_cons, addCount, Dict.get?_set]
    by_cases hk : k = j
    · subst hk
      have hnone : l.lookup k = none := by
        rw [List.lookup_eq_none_iff]
        intro p hp
        have hne : p.1 ≠ k := fun he => hl.1 (List.mem_map.mpr ⟨p, hp, he⟩)
        simpa using hne.symm
      simp [hnone]
    · have hbeq : (k == j) = false := by simpa using hk
      simp [hk, hbeq]

theorem lookup_valueCounts (l : List K) (k : K) :
    (valueCounts l).lookup k = if k ∈ l then some (l.count k) else none := by
  have hlookup : ∀ ks : List K, (ks.map (fun k => (k, l.count k))).lookup k =
      if k ∈ ks then some (l.count k) else none := by
    intro ks
    induction ks with
    | nil => rfl
    | cons j ks ih =>
      rw [List.map_cons, List.lookup_cons, ih]
      by_cases hk : k = j
      · simp [hk]
      · have hbeq : (k == j) = false := by simpa using hk
        simp [hk, hbeq]
  rw [valueCounts, hlookup]
  simp only [mem_distinct]

/-- Counting one more piece of the list. -/
theorem isHistogram_add {counts : Dict K ℕ} {l : List K} (h : IsHistogram counts l)
    (l' : List K) :
    IsHistogram ((valueCounts l').foldl (fun c e => addCount c e.1 e.2) counts) (l ++ l') := by
  intro k
  have hnodup : ((valueCounts l').map Prod.fst).Nodup := by
    rw [valueCounts, List.map_map]
    simpa [Function.comp_def] using nodup_distinct l'
  rw [get?_foldl_addCount counts hnodup, lookup_valueCounts, h k, List.count_append]
  by_cases hk : k ∈ l <;> by_cases hk' : k ∈ l' <;>
    simp [hk, hk', List.count_eq_zero_of_not_mem]

theorem sum_valueCounts (l : List K) : ((valueCounts l).map Prod.snd).sum = l.length := by
  have hperm : (distinct l).Perm l.dedup := by
    rw [List.perm_ext_iff_of_nodup (nodup_distinct l) l.nodup_dedup]
    intro k
    rw [mem_distinct, List.mem_dedup]
  rw [valueCounts, List.map_map, ← List.sum_map_count_dedup_eq_length l]
  exact (hperm.map _).sum_eq

end counting

section thresholds

variable [LinearOrder K]

/-- `sorted(counts.items())`. -/
def sortedItems (counts : Dict K ℕ) : List (K × ℕ) := sortBy (fun e => toLex e) counts.entries

/-- The keys of the sorted items increase. -/
theorem pairwise_sortedItems (counts : Dict K ℕ) :
    (sortedItems counts).Pairwise (fun e e' => e.1 < e'.1) := by
  have hsort := isStableSort_sortBy (fun e : K × ℕ => toLex e) counts.entries
  have hnodup : ((sortedItems counts).map Prod.fst).Nodup :=
    ((hsort.perm.map Prod.fst).nodup_iff).mpr counts.nodup
  refine (hsort.sorted.and (List.pairwise_map.mp hnodup)).imp (fun {e e'} he => ?_)
  obtain hlt | ⟨heq, -⟩ := Prod.Lex.le_iff.mp he.1
  · exact hlt
  · exact absurd heq he.2

variable {e : K × ℕ}

/-- The items of a histogram are the counts of the entries. -/
theorem mem_sortedItems {counts : Dict K ℕ} {l : List K} (h : IsHistogram counts l)
    : e ∈ sortedItems counts ↔ e.1 ∈ l ∧ e.2 = l.count e.1 := by
  have hperm := (isStableSort_sortBy (fun e : K × ℕ => toLex e) counts.entries).perm
  rw [sortedItems, hperm.mem_iff, ← Dict.get?_eq_some_iff, h e.1]
  by_cases he : e.1 ∈ l
  · simp [he, eq_comm]
  · simp [he]

/-- The first key at which the running total, from `cumulative` on, reaches the threshold. -/
def firstReaching (t : ℚ) (cumulative : ℕ) : List (K × ℕ) → Option K
  | [] => none
  | e :: l =>
    if t ≤ ((cumulative + e.2 : ℕ) : ℚ) then some e.1 else firstReaching t (cumulative + e.2) l

/-- The entries below the remaining keys have been counted. -/
structure CountedBelow (ds : List K) (l : List (K × ℕ)) (cumulative : ℕ) : Prop where
  sorted : l.Pairwise (fun e e' => e.1 < e'.1)
  count : ∀ e ∈ l, e.2 = ds.count e.1
  cover : ∀ d ∈ ds, d ∈ l.map Prod.fst ∨ ∀ e ∈ l, d < e.1
  cumulative_eq : cumulative = ds.countP (fun d => ∀ e ∈ l, d < e.1)

theorem countP_le_eq (ds : List K) (k : K) :
    ds.countP (fun d => d ≤ k) = ds.countP (fun d => d < k) + ds.count k := by
  induction ds with
  | nil => rfl
  | cons d ds ih =>
    rw [List.countP_cons, List.countP_cons, List.count_cons, ih]
    rcases lt_trichotomy d k with h | h | h
    · simp [h, h.le, h.ne]
      omega
    · simp [h]
      omega
    · simp [h.not_gt, h.not_ge, h.ne']

variable {ds : List K} {l : List (K × ℕ)} {cumulative : ℕ}

/-- The running total before the first remaining key counts the entries below it. -/
theorem CountedBelow.eq_countP_lt
    (h : CountedBelow ds (e :: l) cumulative) : cumulative = ds.countP (fun d => d < e.1) := by
  rw [h.cumulative_eq]
  refine List.countP_congr (fun d _ => ?_)
  simp only [List.mem_cons, forall_eq_or_imp, decide_eq_true_eq]
  refine ⟨fun hd => hd.1, fun hd => ⟨hd, fun e' he' => ?_⟩⟩
  exact hd.trans (List.rel_of_pairwise_cons h.sorted he')

/-- Adding the count of the first remaining key. -/
theorem CountedBelow.tail
    (h : CountedBelow ds (e :: l) cumulative) : CountedBelow ds l (cumulative + e.2) := by
  have hlt : ∀ e' ∈ l, e.1 < e'.1 := fun e' he' => List.rel_of_pairwise_cons h.sorted he'
  have hiff : ∀ d ∈ ds, d ≤ e.1 ↔ ∀ e' ∈ l, d < e'.1 := by
    intro d hd
    refine ⟨fun hle e' he' => hle.trans_lt (hlt e' he'), fun hall => ?_⟩
    obtain hmem | hbelow := h.cover d hd
    · obtain hd' | hd' := List.mem_cons.mp hmem
      · exact hd'.le
      · obtain ⟨e', he', rfl⟩ := List.mem_map.mp hd'
        exact absurd (hall e' he') (lt_irrefl _)
    · exact (hbelow e (.head _)).le
  refine ⟨h.sorted.of_cons, fun e' he' => h.count e' (.tail _ he'), ?_, ?_⟩
  · intro d hd
    obtain hmem | hbelow := h.cover d hd
    · obtain hd' | hd' := List.mem_cons.mp hmem
      · exact .inr ((hiff d hd).mp hd'.le)
      · exact .inl hd'
    · exact .inr (fun e' he' => hbelow e' (.tail _ he'))
  · rw [h.eq_countP_lt, h.count e List.mem_cons_self, ← countP_le_eq]
    exact List.countP_congr (fun d hd => by simpa using hiff d hd)

/-- A threshold that has not been reached and is at most the number of entries is reached, at an
entry with fewer entries below it. -/
theorem CountedBelow.firstReaching_spec {t : ℚ}
    (h : CountedBelow ds l cumulative) (hlow : (cumulative : ℚ) < t) (hhigh : t ≤ ds.length) :
    ∃ k ∈ l.map Prod.fst, firstReaching t cumulative l = some k ∧
      (ds.countP (fun d => d < k) : ℚ) < t ∧ t ≤ (ds.countP (fun d => d ≤ k) : ℕ) := by
  induction l generalizing cumulative with
  | nil =>
    have hall : cumulative = ds.length := by
      rw [h.cumulative_eq, List.countP_eq_length]
      simp
    rw [hall] at hlow
    exact absurd hhigh hlow.not_ge
  | cons e l ih =>
    have hcum : cumulative + e.2 = ds.countP (fun d => d ≤ e.1) := by
      rw [h.eq_countP_lt, h.count e List.mem_cons_self, countP_le_eq]
    rw [firstReaching]
    split_ifs with ht
    · refine ⟨e.1, by simp, rfl, ?_, ?_⟩
      · rwa [← h.eq_countP_lt]
      · rwa [← hcum]
    · obtain ⟨k, hk, hfirst, hspec⟩ := ih h.tail (not_le.mp ht)
      exact ⟨k, .tail _ hk, hfirst, hspec⟩

/-- The sorted items of a histogram, before any of them is counted. -/
theorem countedBelow_sortedItems {counts : Dict K ℕ} (h : IsHistogram counts ds) :
    CountedBelow ds (sortedItems counts) 0 := by
  have hmem : ∀ d ∈ ds, d ∈ (sortedItems counts).map Prod.fst := by
    intro d hd
    exact List.mem_map.mpr ⟨(d, ds.count d), (mem_sortedItems h).mpr ⟨hd, rfl⟩, rfl⟩
  refine ⟨pairwise_sortedItems counts, fun e he => ((mem_sortedItems h).mp he).2,
    fun d hd => .inl (hmem d hd), ?_⟩
  refine (List.countP_eq_zero.mpr (fun d hd => ?_)).symm
  obtain ⟨e, he, rfl⟩ := List.mem_map.mp (hmem d hd)
  simp only [decide_eq_true_eq]
  exact fun hall => lt_irrefl _ (hall e he)

end thresholds
end RayTfm
