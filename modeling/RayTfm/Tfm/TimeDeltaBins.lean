import RayTfm.Tfm.DistinctTokens

/-! # The bins of the time differences

`digitize` counts the boundaries that are not above a value, so the bin `i`, between the boundaries
`i` and `i + 1`, gives `i + 1` (`lt_digitize_iff`).  The tokens are numbered from 0, and the count
is only clipped from above: a value gets the token of its bin exactly in the last bin, and the token
of the first bin is never used unless it is the only one. -/

namespace RayTfm.Tfm.TimeDeltaTokenizer

variable {t : TimeDeltaTokenizer} {column : Option Column} {v : ℚ} {i : ℕ}

/-- The last step of `_tokenize_internal`, from the logarithm on. -/
def binToken (t : TimeDeltaTokenizer) (v : ℚ) : Except PyError (Option String) :=
  t.base.lookup (clip 0 (t.numBins - 1) (digitize v t.boundaries))

theorem tokenizeValue_eq (log : ℚ → ℚ) (t : TimeDeltaTokenizer) (x : Value) :
    t.tokenizeValue log x = (t.clamp x).bind (fun clamped => t.binToken (log (clamped + 1))) := rfl

/-- There is a bin, and the boundaries of the bins increase. -/
structure Configured (t : TimeDeltaTokenizer) : Prop where
  pos : 0 < t.numBins
  length : t.boundaries.length = t.numBins + 1
  sorted : t.boundaries.Pairwise (· < ·)

/-- The value lies between the first and the last boundary. -/
def InRange (t : TimeDeltaTokenizer) (v : ℚ) : Prop :=
  (∃ lo, t.boundaries[0]? = some lo ∧ lo ≤ v) ∧ ∃ hi, t.boundaries[t.numBins]? = some hi ∧ v ≤ hi

/-- The value lies in the bin; the last bin is closed on the right. -/
def InBin (t : TimeDeltaTokenizer) (i : ℕ) (v : ℚ) : Prop :=
  (∃ lo, t.boundaries[i]? = some lo ∧ lo ≤ v) ∧
    ∃ hi, t.boundaries[i + 1]? = some hi ∧ (v < hi ∨ (i + 1 = t.numBins ∧ v ≤ hi))

/-- The token of a bin. -/
def token (t : TimeDeltaTokenizer) (i : ℕ) : String := t.specialToken ++ "_" ++ toString i

theorem token_injective (t : TimeDeltaTokenizer) : Function.Injective t.token :=
  (prefixed_injective t.specialToken).comp toString_nat_injective

theorem lt_digitize_iff {l : List ℚ} (hl : l.Pairwise (· < ·)) :
    i < digitize v l ↔ ∃ b, l[i]? = some b ∧ b ≤ v := by
  unfold digitize
  induction l generalizing i with
  | nil => simp
  | cons b l ih =>
    rw [List.pairwise_cons] at hl
    by_cases hb : b ≤ v
    · rw [List.countP_cons_of_pos (by simpa using hb)]
      cases i with
      | zero => simpa using hb
      | succ i => simpa using ih hl.2
    · -- no later boundary is counted
      have hnone : l.countP (· ≤ v) = 0 := by
        rw [List.countP_eq_zero]
        intro b' hb'
        simpa using (not_le.mp hb).trans (hl.1 b' hb')
      rw [List.countP_cons_of_neg (by simpa using hb), hnone]
      refine ⟨fun h => absurd h (Nat.not_lt_zero _), ?_⟩
      rintro ⟨b', hb', hle⟩
      obtain rfl | hmem := List.mem_cons.mp (List.mem_of_getElem? hb')
      · exact absurd hle hb
      · exact absurd ((hl.1 b' hmem).le.trans hle) hb

/-- The value of the bin `i` is counted as `i + 1`, except that the right end counts once more. -/
theorem Configured.digitize_of_inBin (h : t.Configured) (hv : t.InBin i v) :
    i < digitize v t.boundaries ∧
      (i + 1 < t.numBins → digitize v t.boundaries = i + 1) := by
  obtain ⟨⟨lo, hlo, hle⟩, hi, hhi, hright⟩ := hv
  have hlt : i < digitize v t.boundaries := (lt_digitize_iff h.sorted).mpr ⟨lo, hlo, hle⟩
  refine ⟨hlt, fun hinner => ?_⟩
  obtain hright | ⟨hlast, _⟩ := hright
  · have hnot : ¬ i + 1 < digitize v t.boundaries := by
      intro hmore
      obtain ⟨b, hb, hble⟩ := (lt_digitize_iff h.sorted).mp hmore
      rw [hhi, Option.some.injEq] at hb
      exact absurd hright (not_lt.mpr (hb ▸ hble))
    omega
  · omega

theorem Configured.exists_inBin (h : t.Configured) (hv : t.InRange v) :
    ∃ i < t.numBins, t.InBin i v := by
  have hlen := h.length
  have hpos := h.pos
  obtain ⟨hfirst, top, htop, hvtop⟩ := hv
  have hcount : 0 < digitize v t.boundaries := (lt_digitize_iff h.sorted).mpr hfirst
  -- the last bin takes the right end
  by_cases hlast : t.numBins ≤ digitize v t.boundaries
  · refine ⟨t.numBins - 1, by omega, (lt_digitize_iff h.sorted).mp (by omega), top, ?_, .inr ?_⟩
    · rw [Nat.sub_add_cancel hpos]
      exact htop
    · exact ⟨Nat.sub_add_cancel hpos, hvtop⟩
  · obtain ⟨b, hb⟩ : ∃ b, t.boundaries[digitize v t.boundaries]? = some b :=
      List.getElem?_eq_some_iff.mpr ⟨by omega, rfl⟩ |> fun h => ⟨_, h⟩
    refine ⟨digitize v t.boundaries - 1, by omega, (lt_digitize_iff h.sorted).mp (by omega), b, ?_,
      .inl ?_⟩
    · rw [Nat.sub_add_cancel hcount]
      exact hb
    · by_contra hnot
      have hmore := (lt_digitize_iff h.sorted).mpr ⟨b, hb, not_lt.mp hnot⟩
      exact Nat.lt_irrefl _ hmore

theorem lookup_buildVocab (h : i < t.numBins) :
    (t.buildVocab column).base.lookup i = .ok (some (t.token i)) := by
  have hnodup : (((List.range t.numBins).map (fun (i : ℕ) =>
      ((i : ℤ), t.specialToken ++ "_" ++ toString i))).map Prod.fst).Nodup := by
    rw [List.map_map]
    exact List.nodup_range.map Nat.cast_injective
  have hget : (Dict.ofList ((List.range t.numBins).map (fun (i : ℕ) =>
      ((i : ℤ), t.specialToken ++ "_" ++ toString i)))).get? (i : ℤ) = some (t.token i) := by
    rw [Dict.get?_eq_some_iff, Dict.entries_ofList hnodup]
    exact List.mem_map.mpr ⟨i, List.mem_range.mpr h, rfl⟩
  rw [buildVocab, BaseTokenizer.setTable, BaseTokenizer.lookup]
  simp only [hget]

/-- The token of a value: that of the bin after its own, but of no bin after the last. -/
theorem Configured.binToken_eq (h : t.Configured) (hv : t.InBin i v) (hi : i < t.numBins) :
    (t.buildVocab column).binToken v = .ok (some (t.token (min (i + 1) (t.numBins - 1)))) := by
  obtain ⟨hlt, heq⟩ := h.digitize_of_inBin hv
  have hclip : clip 0 (((t.buildVocab column).numBins : ℤ) - 1)
      (digitize v (t.buildVocab column).boundaries) =
      ((min (i + 1) (t.numBins - 1) : ℕ) : ℤ) := by
    show clip 0 ((t.numBins : ℤ) - 1) (digitize v t.boundaries) = _
    unfold clip
    by_cases hinner : i + 1 < t.numBins
    · rw [heq hinner]
      omega
    · omega
  rw [binToken, hclip]
  exact lookup_buildVocab (by omega)

/-- A value gets the token of its bin exactly in the last bin, and all tokens are used exactly if
there is one bin only. -/
theorem tokenizeValue_inBin_iff (h : t.Configured) (column : Option Column) :
    (∀ {log : ℚ → ℚ} {x : Value} {c : ℚ}, t.clamp x = .ok c → t.InRange (log (c + 1)) →
      ((∃ i < t.numBins, (t.buildVocab column).tokenizeValue log x = .ok (some (t.token i)) ∧
          t.InBin i (log (c + 1))) ↔ t.InBin (t.numBins - 1) (log (c + 1)))) ∧
    ((∀ i < t.numBins, ∃ v, t.InRange v ∧
        (t.buildVocab column).binToken v = .ok (some (t.token i))) ↔ t.numBins = 1) := by
  have hpos := h.pos
  constructor
  · intro log x c hx hrange
    have htoken : (t.buildVocab column).tokenizeValue log x =
        (t.buildVocab column).binToken (log (c + 1)) := by
      rw [tokenizeValue_eq, show (t.buildVocab column).clamp x = .ok c from hx]
      rfl
    rw [htoken]
    constructor
    · rintro ⟨i, hi, heq, hbin⟩
      rw [h.binToken_eq hbin hi, Except.ok.injEq, Option.some.injEq] at heq
      have hsame := t.token_injective heq
      obtain rfl : i = t.numBins - 1 := by omega
      exact hbin
    · intro hbin
      refine ⟨t.numBins - 1, by omega, ?_, hbin⟩
      rw [h.binToken_eq hbin (by omega), Nat.min_eq_right (by omega)]
  · constructor
    · intro hall
      obtain ⟨v, hv, heq⟩ := hall 0 hpos
      obtain ⟨i, hi, hbin⟩ := h.exists_inBin hv
      rw [h.binToken_eq hbin hi, Except.ok.injEq, Option.some.injEq] at heq
      have hzero := t.token_injective heq
      omega
    · intro hone i hi
      have hlen := h.length
      obtain ⟨lo, hlo⟩ : ∃ lo, t.boundaries[0]? = some lo :=
        ⟨_, List.getElem?_eq_getElem (by omega)⟩
      obtain ⟨hi', hhi⟩ : ∃ hi', t.boundaries[t.numBins]? = some hi' :=
        ⟨_, List.getElem?_eq_getElem (by omega)⟩
      have hle : lo ≤ hi' := by
        obtain ⟨h₀, rfl⟩ := List.getElem?_eq_some_iff.mp hlo
        obtain ⟨h₁, rfl⟩ := List.getElem?_eq_some_iff.mp hhi
        exact (List.pairwise_iff_getElem.mp h.sorted 0 t.numBins h₀ h₁ hpos).le
      have hrange : t.InRange lo := ⟨⟨lo, hlo, le_rfl⟩, hi', hhi, hle⟩
      obtain ⟨j, hj, hbin⟩ := h.exists_inBin hrange
      refine ⟨lo, hrange, ?_⟩
      rw [h.binToken_eq hbin hj, show min (j + 1) (t.numBins - 1) = i by omega]

/-- Two bins, between 0 and 1 and between 1 and 2. -/
def twoBins : TimeDeltaTokenizer := ⟨.init, 2, "TDIF", 10, none, 2, [0, 1, 2], false⟩

theorem twoBins_configured : twoBins.Configured where
  pos := by decide
  length := rfl
  sorted := by norm_num [twoBins]

/-- A half lies in the bin 0 and gets the token 1. -/
theorem tokenizeValue_half_not_inBin :
    twoBins.Configured ∧ twoBins.InRange (1 / 2) ∧ twoBins.InBin 0 (1 / 2) ∧
      (twoBins.buildVocab none).tokenizeValue (fun x => x - 1) (.float (1 / 2) "0.5") =
        .ok (some "TDIF_1") ∧ twoBins.token 0 = "TDIF_0" := by
  have hbin : twoBins.InBin 0 (1 / 2) :=
    ⟨⟨0, rfl, by norm_num⟩, 1, rfl, .inl (by norm_num)⟩
  refine ⟨twoBins_configured, ⟨⟨0, rfl, by norm_num⟩, 2, rfl, by norm_num⟩, hbin, ?_, rfl⟩
  decide +kernel

/-- One and a half lies in the last bin and gets its token; not both tokens are used. -/
theorem tokenizeValue_inBin_iff_example :
    (∃ i < 2, (twoBins.buildVocab none).tokenizeValue (fun x => x - 1) (.float (3 / 2) "1.5") =
        .ok (some (twoBins.token i)) ∧ twoBins.InBin i (3 / 2 + 1 - 1)) ∧
      ¬ ∀ i < 2, ∃ v, twoBins.InRange v ∧
        (twoBins.buildVocab none).binToken v = .ok (some (twoBins.token i)) := by
  have hmain := tokenizeValue_inBin_iff twoBins_configured none
  constructor
  · refine (hmain.1 (x := .float (3 / 2) "1.5") (c := 3 / 2)
      (by decide +kernel) ⟨⟨0, rfl, by norm_num⟩, 2, rfl, by norm_num⟩).mpr ?_
    exact ⟨⟨1, rfl, by norm_num⟩, 2, rfl, .inl (by norm_num)⟩
  · intro hall
    exact absurd (hmain.2.mp hall) (by decide)

end RayTfm.Tfm.TimeDeltaTokenizer
