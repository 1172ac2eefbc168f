import Mathlib

/-! # Chunks and groups of rows

`chunks c l` cuts a list into consecutive pieces of `c` entries, the last one possibly shorter.
`groups key l` collects the entries with equal keys, in the order of the keys' first occurrences.
`cumcount keys` numbers the entries of every group from zero; grouping by the key and by that
number divided by `c` gives the chunks of the groups (`groups_cumcount_perm`).

A finer key has at least as many groups, and strictly more when two of its classes are merged by
the coarser one (`length_groups_lt`). -/

namespace RayTfm

variable {α K J : Type}

/-! ### Chunks -/

/-- `range(0, n, c)` for a positive step. -/
def rangeStep (n c : ℕ) : List ℕ := (List.range ((n + c - 1) / c)).map (· * c)

/-- Consecutive pieces of `c` entries. -/
def chunks (c : ℕ) (l : List α) : List (List α) :=
  (rangeStep l.length c).map (fun start => (l.drop start).take c)

variable {c : ℕ}

theorem chunks_nil (hc : 0 < c) : chunks c ([] : List α) = [] := by
  unfold chunks rangeStep
  rw [List.length_nil, Nat.div_eq_of_lt (by omega)]
  rfl

theorem length_chunks (c : ℕ) (l : List α) : (chunks c l).length = (l.length + c - 1) / c := by
  simp [chunks, rangeStep]

theorem rangeStep_of_pos {n : ℕ} (hn : 0 < n) (hc : 0 < c) :
    rangeStep n c = 0 :: (rangeStep (n - c) c).map (· + c) := by
  have hdiv : (n + c - 1) / c = (n - c + c - 1) / c + 1 := by
    rcases Nat.lt_or_ge n c with h | h
    · rw [Nat.div_eq_of_lt_le (k := 1) (by omega) (by omega)]
      rw [Nat.div_eq_of_lt (by omega)]
    · rw [show n + c - 1 = (n - c + c - 1) + c by omega, Nat.add_div_right _ hc]
  unfold rangeStep
  rw [hdiv, List.range_succ_eq_map, List.map_cons, List.map_map, List.map_map, Nat.zero_mul]
  congr 1
  refine List.map_congr_left (fun i _ => ?_)
  show (i + 1) * c = i * c + c
  rw [Nat.add_mul, Nat.one_mul]

variable {l : List α}

/-- The first chunk and the chunks of the rest. -/
theorem chunks_of_ne_nil (hc : 0 < c) (hl : l ≠ []) :
    chunks c l = l.take c :: chunks c (l.drop c) := by
  have hpos : 0 < l.length := List.length_pos_of_ne_nil hl
  unfold chunks
  rw [rangeStep_of_pos hpos hc, List.map_cons, List.drop_zero, List.length_drop, List.map_map]
  congr 1
  refine List.map_congr_left (fun i _ => ?_)
  simp [List.drop_drop, Nat.add_comm]

/-- Induction over the chunks of a list. -/
theorem chunks_induction (hc : 0 < c) {P : List α → Prop} (nil : P [])
    (step : ∀ l, l ≠ [] → P (l.drop c) → P l) (l : List α) : P l := by
  by_cases hl : l = []
  · rw [hl]
    exact nil
  · have hpos : 0 < l.length := List.length_pos_of_ne_nil hl
    exact step l hl (chunks_induction hc nil step (l.drop c))
termination_by l.length
decreasing_by
  rw [List.length_drop]
  omega

theorem flatten_chunks (hc : 0 < c) (l : List α) : (chunks c l).flatten = l := by
  refine chunks_induction hc (P := fun l => (chunks c l).flatten = l)
    (by rw [chunks_nil hc]; rfl) (fun l hl ih => ?_) l
  rw [chunks_of_ne_nil hc hl, List.flatten_cons, ih, List.take_append_drop]

theorem mem_chunks (hc : 0 < c) {ch : List α} (h : ch ∈ chunks c l) :
    ch ≠ [] ∧ ch.length ≤ c ∧ ∀ a ∈ ch, a ∈ l := by
  revert h
  refine chunks_induction hc
    (P := fun l => ch ∈ chunks c l → ch ≠ [] ∧ ch.length ≤ c ∧ ∀ a ∈ ch, a ∈ l)
    (by rw [chunks_nil hc]; exact nofun) (fun l hl ih h => ?_) l
  rw [chunks_of_ne_nil hc hl] at h
  obtain rfl | h := List.mem_cons.mp h
  · refine ⟨?_, List.length_take_le _ _, fun a ha => List.mem_of_mem_take ha⟩
    simp only [ne_eq, List.take_eq_nil_iff, not_or]
    exact ⟨by omega, hl⟩
  · obtain ⟨h1, h2, h3⟩ := ih h
    exact ⟨h1, h2, fun a ha => List.mem_of_mem_drop (h3 a ha)⟩

theorem chunks_map {β : Type} (f : α → β) (c : ℕ) (l : List α) :
    chunks c (l.map f) = (chunks c l).map (List.map f) := by
  unfold chunks
  rw [List.length_map, List.map_map]
  refine List.map_congr_left (fun i _ => ?_)
  simp

theorem chunks_of_length_le (hl : l ≠ []) (hc : l.length ≤ c) :
    chunks c l = [l] := by
  have hpos : 0 < l.length := List.length_pos_of_ne_nil hl
  rw [chunks_of_ne_nil (by omega) hl, List.take_of_length_le hc, List.drop_of_length_le hc,
    chunks_nil (by omega)]

/-- The entries with positions in `[a, b)`. -/
theorem filter_zipIdx (a b n : ℕ) (l : List α) :
    ((l.zipIdx n).filter (fun p => a ≤ p.2 ∧ p.2 < b)).map Prod.fst =
      (l.take (b - n)).drop (a - n) := by
  induction l generalizing n with
  | nil => simp
  | cons x l ih =>
    rw [List.zipIdx_cons, List.filter_cons]
    by_cases hb : n < b
    · obtain ⟨m, hm⟩ : ∃ m, b - n = m + 1 := ⟨b - n - 1, by omega⟩
      rw [hm, List.take_succ_cons]
      by_cases ha : a ≤ n
      · rw [if_pos (by simp [ha, hb]), List.map_cons, ih, show a - n = 0 by omega,
          show a - (n + 1) = 0 by omega, show b - (n + 1) = m by omega]
        rfl
      · obtain ⟨k, hk⟩ : ∃ k, a - n = k + 1 := ⟨a - n - 1, by omega⟩
        rw [if_neg (by simp [ha]), ih, hk, List.drop_succ_cons, show a - (n + 1) = k by omega,
          show b - (n + 1) = m by omega]
    · rw [if_neg (by simp [hb]), ih, show b - (n + 1) = 0 by omega, show b - n = 0 by omega,
        List.take_zero, List.take_zero, List.drop_nil, List.drop_nil]

theorem filter_zipIdx_div (hc : 0 < c) (j : ℕ) (l : List α) :
    (l.zipIdx.filter (fun p => p.2 / c = j)).map Prod.fst = (l.drop (j * c)).take c := by
  have hdiv : ∀ i, i / c = j ↔ j * c ≤ i ∧ i < j * c + c := by
    intro i
    rw [Nat.div_eq_iff hc]
    omega
  simp only [hdiv]
  rw [filter_zipIdx, Nat.sub_zero, Nat.sub_zero, List.drop_take, Nat.add_sub_cancel_left]

/-! ### Groups -/

section groups
variable [DecidableEq K] [DecidableEq J]

/-- The distinct entries in the order of first occurrence. -/
def distinct (l : List K) : List K := l.eraseDups

@[simp] theorem mem_distinct {l : List K} {k : K} : k ∈ distinct l ↔ k ∈ l := List.mem_eraseDups

theorem distinct_cons (a : K) (l : List K) :
    distinct (a :: l) = a :: distinct (l.filter (fun b => b ≠ a)) := by
  unfold distinct
  rw [List.eraseDups_cons]
  congr 2
  refine List.filter_congr (fun b _ => ?_)
  by_cases h : b = a <;> simp [h]

theorem nodup_distinct (l : List K) : (distinct l).Nodup := by
  match l with
  | [] => exact List.nodup_nil
  | a :: l =>
    rw [distinct_cons, List.nodup_cons]
    refine ⟨?_, nodup_distinct _⟩
    rw [mem_distinct, List.mem_filter]
    simp
termination_by l.length
decreasing_by
  exact Nat.lt_succ_of_le (List.length_filter_le _ _)

/-- The entries with equal keys, in the order of the keys' first occurrences. -/
def groups (key : α → K) (l : List α) : List (List α) :=
  (distinct (l.map key)).map (fun k => l.filter (fun a => key a = k))

theorem groups_cons (key : α → K) (a : α) (l : List α) :
    groups key (a :: l) =
      (a :: l.filter (fun b => key b = key a)) :: groups key (l.filter (fun b => key b ≠ key a)) := by
  unfold groups
  have hmap : (l.map key).filter (fun k => k ≠ key a) =
      (l.filter (fun b => key b ≠ key a)).map key := by
    rw [List.filter_map]
    rfl
  rw [List.map_cons, distinct_cons, List.map_cons, hmap]
  congr 1
  · simp
  · refine List.map_congr_left (fun k hk => ?_)
    rw [mem_distinct, List.mem_map] at hk
    obtain ⟨b, hb, rfl⟩ := hk
    have hne : key b ≠ key a := by simpa using (List.mem_filter.mp hb).2
    rw [List.filter_cons, if_neg (by simpa using hne.symm), List.filter_filter]
    refine List.filter_congr (fun x _ => ?_)
    by_cases hx : key x = key b
    · simp [hx, hne]
    · simp [hx]

/-- The number of earlier entries with the same key; `seen` counts those before the list. -/
def cumcountFrom (seen : K → ℕ) : List K → List ℕ
  | [] => []
  | k :: l => seen k :: cumcountFrom (Function.update seen k (seen k + 1)) l

/-- The entries of every group numbered from zero. -/
def cumcount (keys : List K) : List ℕ := cumcountFrom (fun _ => 0) keys

/-- Inside a group the numbers are the positions. -/
theorem filter_zip_cumcountFrom (key : α → K) (seen : K → ℕ) (l : List α) (k : K) :
    (l.zip (cumcountFrom seen (l.map key))).filter (fun p => key p.1 = k) =
      (l.filter (fun a => key a = k)).zipIdx (seen k) := by
  induction l generalizing seen with
  | nil => rfl
  | cons a l ih =>
    rw [List.map_cons, cumcountFrom, List.zip_cons_cons, List.filter_cons, List.filter_cons, ih]
    by_cases h : key a = k
    · subst h
      simp [List.zipIdx_cons]
    · simp [h, Function.update_of_ne (Ne.symm h)]

theorem filter_zip_cumcount (key : α → K) (l : List α) (k : K) :
    (l.zip (cumcount (l.map key))).filter (fun p => key p.1 = k) =
      (l.filter (fun a => key a = k)).zipIdx :=
  filter_zip_cumcountFrom key _ l k

variable {key : α → K}

/-- A key that separates the same entries gives the same groups. -/
theorem groups_congr {key' : α → J} (l : List α)
    (h : ∀ a ∈ l, ∀ b ∈ l, key a = key b ↔ key' a = key' b) : groups key l = groups key' l := by
  match l with
  | [] => rfl
  | a :: l =>
    have heq : ∀ b ∈ l, key b = key a ↔ key' b = key' a := fun b hb =>
      h b (.tail _ hb) a (.head _)
    have hsame : l.filter (fun b => key b = key a) = l.filter (fun b => key' b = key' a) :=
      List.filter_congr (fun b hb => by simp [heq b hb])
    have hother : l.filter (fun b => key b ≠ key a) = l.filter (fun b => key' b ≠ key' a) :=
      List.filter_congr (fun b hb => by simp [heq b hb])
    rw [groups_cons, groups_cons, hsame, hother, groups_congr]
    intro b hb c hc
    exact h b (.tail _ (List.mem_of_mem_filter hb)) c
      (.tail _ (List.mem_of_mem_filter hc))
termination_by l.length
decreasing_by
  exact Nat.lt_succ_of_le (List.length_filter_le _ _)

variable {l : List α}
variable {g : List α}

theorem mem_groups (hg : g ∈ groups key l) :
    ∀ a ∈ g, ∀ b ∈ g, a ∈ l ∧ b ∈ l ∧ key a = key b := by
  obtain ⟨k, -, rfl⟩ := List.mem_map.mp hg
  intro a ha b hb
  simp only [List.mem_filter, decide_eq_true_eq] at ha hb
  exact ⟨ha.1, hb.1, ha.2.trans hb.2.symm⟩

theorem ne_nil_of_mem_groups (hg : g ∈ groups key l) : g ≠ [] := by
  obtain ⟨k, hk, rfl⟩ := List.mem_map.mp hg
  obtain ⟨a, ha, rfl⟩ := List.mem_map.mp (mem_distinct.mp hk)
  exact List.ne_nil_of_mem (List.mem_filter.mpr ⟨ha, by simp⟩)

theorem sublist_of_mem_groups (hg : g ∈ groups key l) :
    g.Sublist l := by
  obtain ⟨k, -, rfl⟩ := List.mem_map.mp hg
  exact List.filter_sublist

theorem groups_map {β : Type} (key : β → K) (f : α → β) (l : List α) :
    groups key (l.map f) = (groups (fun a => key (f a)) l).map (List.map f) := by
  unfold groups
  rw [List.map_map, List.map_map]
  refine List.map_congr_left (fun k _ => ?_)
  exact List.filter_map

theorem length_groups (key : α → K) (l : List α) :
    (groups key l).length = (l.map key).toFinset.card := by
  rw [groups, List.length_map, ← List.toFinset_card_of_nodup (nodup_distinct _)]
  congr 1
  ext k
  simp

/-- Merging two classes of a key leaves fewer groups. -/
theorem length_groups_lt (key : α → K) (f : K → J) {a b : α} (ha : a ∈ l) (hb : b ∈ l)
    (hne : key a ≠ key b) (heq : f (key a) = f (key b)) :
    (groups (fun x => f (key x)) l).length < (groups key l).length := by
  rw [length_groups, length_groups]
  have himage : (l.map (fun x => f (key x))).toFinset = (l.map key).toFinset.image f := by
    ext j
    simp
  rw [himage]
  refine lt_of_le_of_ne Finset.card_image_le (fun hcard => hne ?_)
  have hinj := Finset.card_image_iff.mp hcard
  exact hinj (by simp; exact ⟨a, ha, rfl⟩) (by simp; exact ⟨b, hb, rfl⟩) heq

/-- The entries of a group numbered and cut: group by the key and the number divided by `c`. -/
def numberedGroups (key : α → K) (c : ℕ) (l : List α) : List (List α) :=
  (groups (fun p : α × ℕ => (key p.1, p.2 / c)) (l.zip (cumcount (l.map key)))).map
    (fun g => g.map Prod.fst)

theorem numberedGroups_map {β : Type} (key : β → K) (f : α → β) (c : ℕ) (l : List α) :
    numberedGroups key c (l.map f) =
      (numberedGroups (fun a => key (f a)) c l).map (List.map f) := by
  unfold numberedGroups
  rw [List.map_map, List.zip_map_left, groups_map, List.map_map, List.map_map]
  refine List.map_congr_left (fun g _ => ?_)
  simp [List.map_map]

theorem chunks_eq_map (c : ℕ) (l : List α) :
    chunks c l = (List.range ((l.length + c - 1) / c)).map (fun j => (l.drop (j * c)).take c) := by
  unfold chunks rangeStep
  rw [List.map_map]
  rfl

theorem filter_zip_cumcount_div (key : α → K) {c : ℕ} (hc : 0 < c) (l : List α) (k : K) (j : ℕ) :
    ((l.zip (cumcount (l.map key))).filter (fun p => (key p.1, p.2 / c) = (k, j))).map Prod.fst =
      ((l.filter (fun a => key a = k)).drop (j * c)).take c := by
  rw [← filter_zipIdx_div hc, ← filter_zip_cumcount, List.filter_filter]
  congr 1
  refine List.filter_congr (fun p _ => ?_)
  by_cases hk : key p.1 = k <;> by_cases hj : p.2 / c = j <;> simp [hk, hj]

theorem mem_numbered_keys (key : α → K) {c : ℕ} (hc : 0 < c) (l : List α) (k : K) (j : ℕ) :
    (k, j) ∈ (l.zip (cumcount (l.map key))).map (fun p => (key p.1, p.2 / c)) ↔
      j < ((l.filter (fun a => key a = k)).length + c - 1) / c := by
  have hstep : (k, j) ∈ (l.zip (cumcount (l.map key))).map (fun p => (key p.1, p.2 / c)) ↔
      ∃ p ∈ (l.zip (cumcount (l.map key))).filter (fun p => key p.1 = k), p.2 / c = j := by
    simp only [List.mem_map, List.mem_filter, Prod.mk.injEq, decide_eq_true_eq]
    constructor
    · rintro ⟨p, hp, hk, hj⟩
      exact ⟨p, ⟨hp, hk⟩, hj⟩
    · rintro ⟨p, ⟨hp, hk⟩, hj⟩
      exact ⟨p, hp, hk, hj⟩
  rw [hstep, filter_zip_cumcount, Nat.lt_div_iff_mul_lt hc]
  constructor
  · rintro ⟨p, hp, hj⟩
    have hlt := (List.mem_zipIdx hp).2.1
    have := Nat.div_mul_le_self p.2 c
    rw [hj] at this
    omega
  · intro hlt
    have hj : j * c < (l.filter (fun a => key a = k)).length := by omega
    exact ⟨((l.filter (fun a => key a = k))[j * c], j * c),
      List.mem_zipIdx_iff_getElem?.mpr (List.getElem?_eq_getElem hj), Nat.mul_div_cancel _ hc⟩

/-- Numbering inside the groups and grouping again cuts the groups into chunks. -/
theorem numberedGroups_perm (key : α → K) {c : ℕ} (hc : 0 < c) (l : List α) :
    (numberedGroups key c l).Perm ((groups key l).flatMap (chunks c)) := by
  let chunk : K × ℕ → List α := fun p =>
    ((l.filter (fun a => key a = p.1)).drop (p.2 * c)).take c
  let keys : List (K × ℕ) := (distinct (l.map key)).flatMap (fun k =>
    (List.range (((l.filter (fun a => key a = k)).length + c - 1) / c)).map (fun j => (k, j)))
  have hleft : numberedGroups key c l =
      (distinct ((l.zip (cumcount (l.map key))).map (fun p => (key p.1, p.2 / c)))).map chunk := by
    unfold numberedGroups groups
    rw [List.map_map]
    exact List.map_congr_left (fun (p : K × ℕ) _ => filter_zip_cumcount_div key hc l p.1 p.2)
  have hright : (groups key l).flatMap (chunks c) = keys.map chunk := by
    unfold groups
    simp only [keys, List.flatMap_map, List.map_flatMap, chunks_eq_map, List.map_map]
    rfl
  have hkeys : keys.Nodup := by
    refine List.nodup_flatMap.mpr ⟨fun k _ => ?_, ?_⟩
    · exact List.nodup_range.map (fun i j h => by simpa using h)
    · refine (nodup_distinct _).imp (fun hne p hp hp' => hne ?_)
      obtain ⟨i, -, rfl⟩ := List.mem_map.mp hp
      obtain ⟨j, -, h⟩ := List.mem_map.mp hp'
      simpa using (congrArg Prod.fst h).symm
  rw [hleft, hright]
  refine List.Perm.map _ ((List.perm_ext_iff_of_nodup (nodup_distinct _) hkeys).mpr ?_)
  rintro ⟨k, j⟩
  rw [mem_distinct, mem_numbered_keys key hc]
  simp only [keys, List.mem_flatMap, mem_distinct, List.mem_map, List.mem_range, Prod.mk.injEq]
  constructor
  · intro hlt
    have hpos : (l.filter (fun a => key a = k)) ≠ [] := by
      intro h
      rw [h, List.length_nil, Nat.div_eq_of_lt (by omega)] at hlt
      omega
    obtain ⟨a, ha⟩ := List.exists_mem_of_ne_nil _ hpos
    have hka := (List.mem_filter.mp ha)
    exact ⟨k, ⟨a, hka.1, by simpa using hka.2⟩, j, hlt, rfl, rfl⟩
  · rintro ⟨k, -, j, hlt, rfl, rfl⟩
    exact hlt

/-- The entries by their keys are the entries. -/
theorem flatMap_filter_perm {ks : List K} (hks : ks.Nodup)
    (h : ∀ a ∈ l, key a ∈ ks) : (ks.flatMap (fun k => l.filter (fun a => key a = k))).Perm l := by
  induction ks generalizing l with
  | nil => rw [List.eq_nil_iff_forall_not_mem.mpr (fun a ha => List.not_mem_nil (h a ha)),
      List.flatMap_nil]
  | cons k ks ih =>
    obtain ⟨hk, hks⟩ := List.nodup_cons.mp hks
    have hrest := ih hks (l := l.filter (fun a => !decide (key a = k))) (fun a ha => by
      obtain ⟨hmem, hne⟩ := List.mem_filter.mp ha
      exact (List.mem_cons.mp (h a hmem)).resolve_left (by simpa using hne))
    rw [List.flatMap_cons]
    refine .trans (.append_left _ (.trans (.of_eq (List.flatMap_congr (fun k' hk' => ?_))) hrest))
      (List.filter_append_perm _ l)
    rw [List.filter_filter]
    refine List.filter_congr (fun a _ => ?_)
    by_cases ha : key a = k'
    · simp [ha, ne_of_mem_of_not_mem hk' hk]
    · simp [ha]

end groups
end RayTfm
