import Mathlib

/-! # Mixing sequences

Several sequences are mixed into one: again and again the best source that still has something gives
its next element, where what is best depends on how much each source gave so far.

`firstBest` is the choice: the first index with the greatest key among those that qualify.  `mix` is
the whole mixture.  The main fact is `IsFirstBest.mono`: who is best among many, and qualifies among
fewer, is best there too; so a mixer that does not know yet which sources are exhausted can still
choose as one that does.

`strictMix` is the mixture that asks all sources, also those that have nothing left, and ends when
the best one has nothing or when it is told to stop. -/

namespace RayTfm

section choice
variable {κ : Type} [LinearOrder κ] (key : ℕ → κ) (p : ℕ → Bool)

/-- The first index below `n` with the greatest key. -/
def firstBest : ℕ → Option ℕ
  | 0 => none
  | n + 1 =>
    match firstBest n with
    | none => if p n then some n else none
    | some i => if p n = true ∧ key i < key n then some n else some i

/-- What it means to be the first with the greatest key. -/
structure IsFirstBest (n i : ℕ) : Prop where
  lt : i < n
  qualifies : p i = true
  greatest : ∀ j < n, p j = true → key j ≤ key i
  first : ∀ j < i, p j = true → key j < key i

variable {key p}

variable (key p) in
theorem firstBest_spec (n : ℕ) :
    (firstBest key p n = none ∧ ∀ j < n, p j = false) ∨
      ∃ i, firstBest key p n = some i ∧ IsFirstBest key p n i := by
  induction n with
  | zero => exact .inl ⟨rfl, fun j hj => absurd hj (Nat.not_lt_zero j)⟩
  | succ n ih =>
    obtain ⟨hnone, hno⟩ | ⟨i, hsome, hi⟩ := ih
    · rw [firstBest, hnone]
      split_ifs with hp
      · refine .inr ⟨n, rfl, Nat.lt_succ_self n, hp, fun j hj hpj => ?_, fun j hj hpj => ?_⟩
        · obtain rfl | hlt := Nat.eq_or_lt_of_le (Nat.le_of_lt_succ hj)
          · exact le_rfl
          · rw [hno j hlt] at hpj
            cases hpj
        · rw [hno j hj] at hpj
          cases hpj
      · refine .inl ⟨rfl, fun j hj => ?_⟩
        obtain rfl | hlt := Nat.eq_or_lt_of_le (Nat.le_of_lt_succ hj)
        · exact Bool.eq_false_iff.mpr hp
        · exact hno j hlt
    · rw [firstBest, hsome]
      simp only
      split_ifs with hp
      · obtain ⟨hpn, hkey⟩ := hp
        refine .inr ⟨n, rfl, Nat.lt_succ_self n, hpn, fun j hj hpj => ?_, fun j hj hpj => ?_⟩
        · obtain rfl | hlt := Nat.eq_or_lt_of_le (Nat.le_of_lt_succ hj)
          · exact le_rfl
          · exact (hi.greatest j hlt hpj).trans hkey.le
        · exact (hi.greatest j hj hpj).trans_lt hkey
      · refine .inr ⟨i, rfl, hi.lt.trans (Nat.lt_succ_self n), hi.qualifies, fun j hj hpj =>
          ?_, hi.first⟩
        obtain rfl | hlt := Nat.eq_or_lt_of_le (Nat.le_of_lt_succ hj)
        · exact le_of_not_gt (fun hkey => hp ⟨hpj, hkey⟩)
        · exact hi.greatest j hlt hpj

variable {n : ℕ}

theorem IsFirstBest.unique {i j : ℕ} (hi : IsFirstBest key p n i) (hj : IsFirstBest key p n j) :
    i = j := by
  obtain hlt | heq | hgt := lt_trichotomy i j
  · exact absurd (hi.greatest j hj.lt hj.qualifies) (not_le.mpr (hj.first i hlt hi.qualifies))
  · exact heq
  · exact absurd (hj.greatest i hi.lt hi.qualifies) (not_le.mpr (hi.first j hgt hj.qualifies))

theorem firstBest_eq_some {i : ℕ} : firstBest key p n = some i ↔ IsFirstBest key p n i := by
  obtain ⟨hnone, hno⟩ | ⟨j, hsome, hj⟩ := firstBest_spec key p n
  · rw [hnone]
    refine ⟨nofun, fun h => ?_⟩
    have := h.qualifies
    rw [hno i h.lt] at this
    cases this
  · rw [hsome]
    constructor
    · intro h
      cases h
      exact hj
    · intro h
      rw [hj.unique h]

theorem firstBest_congr {q : ℕ → Bool} (h : ∀ i < n, p i = q i) :
    firstBest key p n = firstBest key q n := by
  induction n with
  | zero => rfl
  | succ n ih =>
    rw [firstBest, firstBest, ih (fun i hi => h i (by omega)), h n (by omega)]

/-- Best among many and still there among fewer: best among the fewer. -/
theorem IsFirstBest.mono {q : ℕ → Bool} {i : ℕ} (h : IsFirstBest key p n i)
    (hsub : ∀ j < n, q j = true → p j = true) (hi : q i = true) : IsFirstBest key q n i where
  lt := h.lt
  qualifies := hi
  greatest := fun j hj hq => h.greatest j hj (hsub j hj hq)
  first := fun j hj hq => h.first j hj (hsub j (hj.trans h.lt) hq)

end choice

section mixture
variable {β κ : Type} [LinearOrder κ] (n : ℕ) (key : (ℕ → ℕ) → ℕ → κ) (rows : β → ℕ)

/-- The elements that are left. -/
def leftOver (rest : ℕ → List β) : ℕ := ∑ i ∈ Finset.range n, (rest i).length

/-- The next `k` elements of the mixture, each with its source. -/
def mixFor : ℕ → (ℕ → ℕ) → (ℕ → List β) → List (ℕ × β)
  | 0, _, _ => []
  | k + 1, seen, rest =>
    match firstBest (key seen) (fun i => !(rest i).isEmpty) n with
    | none => []
    | some i =>
      match rest i with
      | [] => []
      | b :: l => (i, b) :: mixFor k (Function.update seen i (seen i + rows b))
          (Function.update rest i l)

/-- The whole mixture. -/
def mix (seen : ℕ → ℕ) (rest : ℕ → List β) : List (ℕ × β) :=
  mixFor n key rows (leftOver n rest) seen rest

variable {n key rows} {seen : ℕ → ℕ} {rest : ℕ → List β}

theorem leftOver_update {i : ℕ} {b : β} {l : List β} (hi : i < n) (hrest : rest i = b :: l) :
    leftOver n rest = leftOver n (Function.update rest i l) + 1 := by
  have hmem : i ∈ Finset.range n := Finset.mem_range.mpr hi
  have hsame : ∀ j ∈ (Finset.range n).erase i,
      (rest j).length = (Function.update rest i l j).length := by
    intro j hj
    rw [Function.update_of_ne (Finset.ne_of_mem_erase hj)]
  unfold leftOver
  rw [← Finset.add_sum_erase _ _ hmem, ← Finset.add_sum_erase (Finset.range n) _ hmem,
    Finset.sum_congr rfl hsame, Function.update_self, hrest, List.length_cons]
  omega

/-- The best source that has something gives its next element. -/
theorem mix_cons {i : ℕ} {b : β} {l : List β}
    (hbest : IsFirstBest (key seen) (fun i => !(rest i).isEmpty) n i) (hrest : rest i = b :: l) :
    mix n key rows seen rest =
      (i, b) :: mix n key rows (Function.update seen i (seen i + rows b))
      (Function.update rest i l) := by
  rw [mix, leftOver_update hbest.lt hrest, mixFor, firstBest_eq_some.mpr hbest]
  simp only [hrest]
  rfl

theorem mix_nil (h : ∀ i < n, rest i = []) : mix n key rows seen rest = [] := by
  have hzero : leftOver n rest = 0 := by
    apply Finset.sum_eq_zero
    intro i hi
    rw [h i (Finset.mem_range.mp hi), List.length_nil]
  rw [mix, hzero, mixFor]

variable (key seen) in
/-- If something is left, someone is best. -/
theorem exists_best (h : ∃ i < n, rest i ≠ []) :
    ∃ i b l, IsFirstBest (key seen) (fun i => !(rest i).isEmpty) n i ∧ rest i = b :: l := by
  obtain ⟨i, hi, hne⟩ := h
  obtain ⟨-, hno⟩ | ⟨j, -, hj⟩ := firstBest_spec (key seen) (fun i => !(rest i).isEmpty) n
  · have := hno i hi
    rw [Bool.not_eq_false', List.isEmpty_iff] at this
    exact absurd this hne
  · have hq := hj.qualifies
    rw [Bool.not_eq_true', List.isEmpty_eq_false_iff] at hq
    obtain ⟨b, l, hbl⟩ := List.exists_cons_of_ne_nil hq
    exact ⟨j, b, l, hj, hbl⟩

variable (n key rows seen rest) in
/-- A mixture is an interleaving: it takes every sequence whole and in order, and nothing else. -/
theorem mix_interleaves :
    (∀ t ∈ mix n key rows seen rest, t.1 < n) ∧
      ∀ i < n, ((mix n key rows seen rest).filter (fun t => t.1 = i)).map Prod.snd = rest i := by
  induction hk : leftOver n rest generalizing seen rest with
  | zero =>
    have hnil : ∀ i < n, rest i = [] := by
      intro i hi
      have := (Finset.sum_eq_zero_iff.mp hk) i (Finset.mem_range.mpr hi)
      exact List.length_eq_zero_iff.mp this
    rw [mix_nil hnil]
    refine ⟨by simp, fun i hi => ?_⟩
    rw [hnil i hi]
    rfl
  | succ k ih =>
    have hne : ∃ i < n, rest i ≠ [] := by
      by_contra hno
      push Not at hno
      have hzero : leftOver n rest = 0 := Finset.sum_eq_zero (fun i hi => by
        rw [hno i (Finset.mem_range.mp hi), List.length_nil])
      omega
    obtain ⟨i, b, l, hbest, hrest⟩ := exists_best key seen hne
    have hless : leftOver n (Function.update rest i l) = k := by
      have := leftOver_update hbest.lt hrest
      omega
    rw [mix_cons hbest hrest]
    constructor
    · intro t ht
      obtain rfl | ht := List.mem_cons.mp ht
      · exact hbest.lt
      · exact (ih _ _ hless).1 t ht
    · intro j hj
      by_cases hij : i = j
      · subst hij
        rw [List.filter_cons_of_pos (by simp), List.map_cons, (ih _ _ hless).2 i hj,
          Function.update_self, hrest]
      · rw [List.filter_cons_of_neg (by simpa using hij), (ih _ _ hless).2 j hj,
          Function.update_of_ne (Ne.symm hij)]

end mixture

section strictMixture
variable {β κ : Type} [LinearOrder κ] (n : ℕ) (key : (ℕ → ℕ) → ℕ → κ) (rows : β → ℕ)
  (stop : (ℕ → List β) → Bool)

/-- The next `k` elements of the strict mixture. -/
def strictFor : ℕ → (ℕ → ℕ) → (ℕ → List β) → List (ℕ × β)
  | 0, _, _ => []
  | k + 1, seen, rest =>
    if stop rest then []
    else
      match firstBest (key seen) (fun _ => true) n with
      | none => []
      | some i =>
        match rest i with
        | [] => []
        | b :: l => (i, b) :: strictFor k (Function.update seen i (seen i + rows b))
            (Function.update rest i l)

/-- The mixture that asks every source, whether it has something or not: it ends when the best
source has nothing, or earlier if `stop` says so. -/
def strictMix (seen : ℕ → ℕ) (rest : ℕ → List β) : List (ℕ × β) :=
  strictFor n key rows stop (leftOver n rest) seen rest

/-- Some source is drained. -/
def anyDrained (rest : ℕ → List β) : Bool := (List.range n).any (fun i => (rest i).isEmpty)

/-- What a labelled list took from one source. -/
def takenFrom (i : ℕ) (l : List (ℕ × β)) : List β := (l.filter (fun t => t.1 = i)).map Prod.snd

variable {n key rows stop} {seen : ℕ → ℕ} {rest : ℕ → List β}

theorem anyDrained_iff : anyDrained n rest = true ↔ ∃ i < n, rest i = [] := by
  simp [anyDrained]

theorem takenFrom_cons (i j : ℕ) (b : β) (l : List (ℕ × β)) :
    takenFrom i ((j, b) :: l) = if j = i then b :: takenFrom i l else takenFrom i l := by
  unfold takenFrom
  split_ifs with h
  · rw [List.filter_cons_of_pos (by simpa using h), List.map_cons]
  · rw [List.filter_cons_of_neg (by simpa using h)]

theorem strictMix_cons {i : ℕ} {b : β} {l : List β} (hstop : stop rest = false)
    (hbest : IsFirstBest (key seen) (fun _ => true) n i) (hrest : rest i = b :: l) :
    strictMix n key rows stop seen rest =
      (i, b) :: strictMix n key rows stop (Function.update seen i (seen i + rows b))
        (Function.update rest i l) := by
  rw [strictMix, leftOver_update hbest.lt hrest, strictFor, hstop, firstBest_eq_some.mpr hbest]
  simp only [hrest]
  rfl

theorem strictMix_stop (hstop : stop rest = true) : strictMix n key rows stop seen rest = [] := by
  unfold strictMix
  cases leftOver n rest with
  | zero => rfl
  | succ k => rw [strictFor, if_pos hstop]

theorem strictMix_stuck {i : ℕ} (hbest : IsFirstBest (key seen) (fun _ => true) n i)
    (hrest : rest i = []) :
    strictMix n key rows stop seen rest = [] := by
  unfold strictMix
  cases leftOver n rest with
  | zero => rfl
  | succ k =>
    rw [strictFor, firstBest_eq_some.mpr hbest]
    simp only [hrest, ite_self]

variable (key seen) in
theorem exists_best_of_pos (hn : 0 < n) : ∃ i, IsFirstBest (key seen) (fun _ => true) n i := by
  obtain ⟨-, hno⟩ | ⟨i, -, hi⟩ := firstBest_spec (key seen) (fun _ => true) n
  · exact absurd (hno 0 hn) (by simp)
  · exact ⟨i, hi⟩

variable (key rows stop seen rest) in
/-- Induction along the strict mixture: it stops, it is stuck, or the best source gives an
element. -/
theorem strictMix_induction (hn : 0 < n) {P : (ℕ → ℕ) → (ℕ → List β) → Prop}
    (hstop : ∀ seen rest, stop rest = true → P seen rest)
    (hstuck : ∀ seen rest i, IsFirstBest (key seen) (fun _ => true) n i → rest i = [] → P seen rest)
    (hcons : ∀ seen rest i b l, stop rest = false → IsFirstBest (key seen) (fun _ => true) n i →
      rest i = b :: l → P (Function.update seen i (seen i + rows b)) (Function.update rest i l) →
      P seen rest) : P seen rest := by
  induction hk : leftOver n rest generalizing seen rest with
  | zero =>
    obtain ⟨i, hi⟩ := exists_best_of_pos key seen hn
    have hnil := Finset.sum_eq_zero_iff.mp hk i (Finset.mem_range.mpr hi.lt)
    exact hstuck seen rest i hi (List.length_eq_zero_iff.mp hnil)
  | succ k ih =>
    obtain ⟨i, hi⟩ := exists_best_of_pos key seen hn
    cases hs : stop rest with
    | true => exact hstop seen rest hs
    | false =>
      cases hrest : rest i with
      | nil => exact hstuck seen rest i hi hrest
      | cons b l =>
        have hless := leftOver_update hi.lt hrest
        exact hcons seen rest i b l hs hi hrest (ih _ _ (by omega))

/-- Stopping earlier gives an initial part. -/
theorem strictMix_isPrefix (hn : 0 < n) :
    strictMix n key rows stop seen rest <+: strictMix n key rows (fun _ => false) seen rest := by
  induction seen, rest using strictMix_induction key rows stop _ _ hn with
  | hstop seen rest h => rw [strictMix_stop h]; exact List.nil_prefix
  | hstuck seen rest i hi h => rw [strictMix_stuck hi h]; exact List.nil_prefix
  | hcons seen rest i b l hs hi h ih =>
    rw [strictMix_cons hs hi h, strictMix_cons rfl hi h]
    exact List.cons_prefix_cons.mpr ⟨rfl, ih⟩

theorem update_takenFrom (i : ℕ) (b : β) (l : List (ℕ × β)) :
    Function.update (fun j => takenFrom j ((i, b) :: l)) i (takenFrom i l) = fun j =>
      takenFrom j l := by
  funext j
  by_cases hij : j = i
  · subst hij
    rw [Function.update_self]
  · rw [Function.update_of_ne hij, takenFrom_cons, if_neg (Ne.symm hij)]

/-- What the strict mixture takes, it takes from the front of each source. -/
theorem takenFrom_strictMix (hn : 0 < n) :
    ∃ left : ℕ → List β, rest = fun j => takenFrom j (strictMix n key rows stop seen rest) ++
      left j := by
  induction seen, rest using strictMix_induction key rows stop _ _ hn with
  | hstop seen rest h => exact ⟨rest, by rw [strictMix_stop h]; rfl⟩
  | hstuck seen rest i hi h => exact ⟨rest, by rw [strictMix_stuck hi h]; rfl⟩
  | hcons seen rest i b l hs hi h ih =>
    obtain ⟨left, hleft⟩ := ih
    refine ⟨left, ?_⟩
    funext j
    rw [strictMix_cons hs hi h, takenFrom_cons]
    have hj := congrFun hleft j
    by_cases hij : j = i
    · subst hij
      rw [Function.update_self] at hj
      rw [if_pos rfl, List.cons_append, ← hj, h]
    · rw [Function.update_of_ne hij] at hj
      rw [if_neg (Ne.symm hij)]
      exact hj

/-- Mixing only what the strict mixture takes gives the same. -/
theorem strictMix_takenFrom (hn : 0 < n) :
    strictMix n key rows (fun _ => false) seen
      (fun j => takenFrom j (strictMix n key rows stop seen rest)) =
        strictMix n key rows stop seen rest := by
  induction seen, rest using strictMix_induction key rows stop _ _ hn with
  | hstop seen rest h =>
    obtain ⟨i, hi⟩ := exists_best_of_pos key seen hn
    rw [strictMix_stop h]
    exact strictMix_stuck hi rfl
  | hstuck seen rest i hi h =>
    rw [strictMix_stuck hi h]
    exact strictMix_stuck hi rfl
  | hcons seen rest i b l hs hi h ih =>
    rw [strictMix_cons hs hi h]
    rw [strictMix_cons rfl hi (by rw [takenFrom_cons, if_pos rfl]), update_takenFrom, ih]

/-- The mixture that stops when a source is drained drains one. -/
theorem exists_takenFrom_eq (hn : 0 < n) :
    ∃ i < n, takenFrom i (strictMix n key rows (anyDrained n) seen rest) = rest i := by
  induction seen, rest using strictMix_induction key rows (anyDrained n) _ _ hn with
  | hstop seen rest h =>
    obtain ⟨i, hi, hnil⟩ := anyDrained_iff.mp h
    rw [strictMix_stop h]
    exact ⟨i, hi, hnil.symm⟩
  | hstuck seen rest i hi h =>
    rw [strictMix_stuck hi h]
    exact ⟨i, hi.lt, h.symm⟩
  | hcons seen rest i b l hs hi h ih =>
    obtain ⟨j, hj, hdrained⟩ := ih
    refine ⟨j, hj, ?_⟩
    rw [strictMix_cons hs hi h, takenFrom_cons, hdrained]
    by_cases hij : j = i
    · subst hij
      rw [if_pos rfl, Function.update_self, h]
    · rw [if_neg (Ne.symm hij), Function.update_of_ne hij]

variable {t : ℕ × β}

theorem lt_of_mem_strictMix (hn : 0 < n) (h : t ∈ strictMix n key rows stop seen rest) : t.1 < n := by
  induction seen, rest using strictMix_induction key rows stop _ _ hn with
  | hstop seen rest hs =>
    rw [strictMix_stop hs] at h
    cases h
  | hstuck seen rest i hi hr =>
    rw [strictMix_stuck hi hr] at h
    cases h
  | hcons seen rest i b l hs hi hr ih =>
    rw [strictMix_cons hs hi hr] at h
    obtain rfl | h := List.mem_cons.mp h
    · exact hi.lt
    · exact ih h

theorem mem_takenFrom {l : List (ℕ × β)} (h : t ∈ l) : t.2 ∈ takenFrom t.1 l :=
  List.mem_map_of_mem (List.mem_filter.mpr ⟨h, by simp⟩)

theorem takenFrom_append (i : ℕ) (l l' : List (ℕ × β)) :
    takenFrom i (l ++ l') = takenFrom i l ++ takenFrom i l' := by
  rw [takenFrom, List.filter_append, List.map_append]
  rfl

/-- All elements of the sources, one source after the other. -/
def labelAll (n : ℕ) (rest : ℕ → List β) : List (ℕ × β) :=
  (List.range n).flatMap (fun i => (rest i).map (fun b => (i, b)))

theorem takenFrom_labelAll {n i : ℕ} (hi : i < n) (rest : ℕ → List β) :
    takenFrom i (labelAll n rest) = rest i := by
  have hone : ∀ j, takenFrom i ((rest j).map (fun b => (j, b))) = if j = i then rest j else [] := by
    intro j
    unfold takenFrom
    split_ifs with hij
    · subst hij
      rw [List.filter_eq_self.mpr (by simp), List.map_map]
      exact List.map_id _
    · rw [List.filter_eq_nil_iff.mpr (by simp [hij]), List.map_nil]
  have hrange : ∀ k, takenFrom i (labelAll k rest) = if i < k then rest i else [] := by
    intro k
    induction k with
    | zero => rfl
    | succ k ih =>
      rw [labelAll, List.range_succ, List.flatMap_append, List.flatMap_singleton, takenFrom_append,
        hone]
      rw [labelAll] at ih
      rw [ih]
      by_cases hik : i < k
      · rw [if_pos hik, if_neg (by omega), if_pos (by omega), List.append_nil]
      · by_cases hki : k = i
        · rw [if_neg hik, if_pos hki, if_pos (by omega), hki, List.nil_append]
        · rw [if_neg hik, if_neg hki, if_neg (by omega), List.nil_append]
  rw [hrange, if_pos hi]

theorem mem_labelAll {n : ℕ} {rest : ℕ → List β} (h : t ∈ labelAll n rest) :
    t.1 < n ∧ t.2 ∈ rest t.1 := by
  obtain ⟨i, hi, ht⟩ := List.mem_flatMap.mp h
  obtain ⟨b, hb, rfl⟩ := List.mem_map.mp ht
  exact ⟨List.mem_range.mp hi, hb⟩

end strictMixture
end RayTfm
