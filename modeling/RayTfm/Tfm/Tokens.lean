import RayTfm.Lib.Words
import RayTfm.Tfm.Steps

/-! # Tokens of a built step

A step built from its configuration sends every cell it accepts to a token of its table: integers
to the clipped entry or the bucket, other values to a configured label or the default
(`HasToken`).  Here the tables are as `buildVocab none` leaves them. -/

namespace RayTfm.Tfm

/-- The built step sends the cell to a token of its table. -/
def Tokenizer.HasToken (log : ℚ → ℚ) (t : Tokenizer) (cell : Option Value) : Prop :=
  ∃ tok, (t.buildVocab none).tokenizeCell log cell = .ok (some tok) ∧ tok ∈ t.table.values

/-- The token the built step gives a cell; none if it fails. -/
def Tokenizer.tokenOf (log : ℚ → ℚ) (t : Tokenizer) (cell : Option Value) : Option String :=
  match (t.buildVocab none).tokenizeCell log cell with
  | .ok tok => tok
  | .error _ => none

variable {t : Tokenizer}

theorem Tokenizer.HasToken.tokenOf {log : ℚ → ℚ} {cell : Option Value}
    (h : t.HasToken log cell) : ∃ tok ∈ t.table.values, t.tokenOf log cell = some tok := by
  obtain ⟨tok, htok, hmem⟩ := h
  exact ⟨tok, hmem, by rw [Tokenizer.tokenOf, htok]⟩

theorem Tokenizer.tokenize_of_hasToken {log : ℚ → ℚ} {column : Column}
    (h : ∀ cell ∈ column, t.HasToken log cell) :
    (t.buildVocab none).tokenize log column = .ok (column.map (t.tokenOf log)) := by
  rw [tokenize_eq_mapM]
  refine mapM_eq_ok (fun cell hcell => ?_)
  obtain ⟨tok, htok, -⟩ := h cell hcell
  rw [Tokenizer.tokenOf, htok]

theorem get?_ofList_map {f : ℤ → String} {l : List ℤ} (hl : l.Nodup) {i : ℤ} (hi : i ∈ l) :
    (Dict.ofList (l.map (fun i => (i, f i)))).get? i = some (f i) := by
  refine Dict.get?_setAll_of_mem _ ?_ (List.mem_map.mpr ⟨i, hi, rfl⟩)
  rw [List.map_map]
  simpa [Function.comp_def] using hl

/-- A fixed-vocabulary step sends every integer to the entry of the clipped integer. -/
theorem hasToken_fixedVocab (log : ℚ → ℚ) (prefixStr : String) {minVal maxVal : ℤ} (padWidth : ℕ)
    (h : minVal ≤ maxVal) (i : ℤ) :
    (Tokenizer.fixedVocab (.init prefixStr minVal maxVal padWidth none)).HasToken log
      (some (.int i)) := by
  have hmem : clip minVal maxVal (i.bmod (2 ^ 32)) ∈ intRange minVal (maxVal + 1) := by
    rw [mem_intRange, clip]
    omega
  have hget := get?_ofList_map (f := fun i => prefixStr ++ "_" ++ formatInt padWidth i)
    (intRange_nodup minVal (maxVal + 1)) hmem
  exact ⟨_, congrArg Except.ok hget, Dict.mem_values_of_get? hget⟩

theorem CategoricalHashTokenizer.tokenizeValue_int {t : CategoricalHashTokenizer}
    (h : t.vocabLimit ≠ 0) (i : ℤ) :
    t.tokenizeValue (.int i) = t.base.lookup (i.fmod t.vocabLimit) := by
  have hbucket : t.bucket (.int i) = .ok (some (i.fmod t.vocabLimit)) := by
    simp only [bucket, if_neg h]
  unfold tokenizeValue
  rw [hbucket]
  rfl

/-- A hash step with a positive limit sends every integer to the entry of its bucket. -/
theorem hasToken_categoricalHash (log : ℚ → ℚ) {vocabLimit : ℤ} (specialToken : String)
    (h : 1 ≤ vocabLimit) (i : ℤ) :
    (Tokenizer.categoricalHash (.init vocabLimit specialToken none)).HasToken log
      (some (.int i)) := by
  have hmem : i.fmod vocabLimit ∈ intRange 0 vocabLimit := by
    rw [mem_intRange]
    exact ⟨Int.fmod_nonneg_of_pos _ (by omega), Int.fmod_lt_of_pos _ (by omega)⟩
  have hget := get?_ofList_map (f := fun i => specialToken ++ "_" ++ toString i)
    (intRange_nodup 0 vocabLimit) hmem
  refine ⟨_, ?_, Dict.mem_values_of_get? hget⟩
  refine (CategoricalHashTokenizer.tokenizeValue_int ?_ i).trans (congrArg Except.ok hget)
  show vocabLimit ≠ 0
  omega

/-! ### Mapping steps -/

namespace MappingTokenizer

theorem mem_labelTable (t : MappingTokenizer) {labels : List String} {label : String}
    (h : label ∈ labels) :
    t.prefixStr ++ "_" ++ label ∈ (Dict.ofList (t.labelTable labels)).values := by
  have hnodup : ((t.labelTable labels).map Prod.fst).Nodup := by
    rw [labelTable, List.map_map]
    have hidx := List.nodup_range (n := labels.length)
    rw [List.range_eq_range', ← List.zipIdx_map_snd] at hidx
    have hcast := List.Nodup.map (f := fun k : ℕ => (k : ℤ)) Nat.cast_injective hidx
    rwa [List.map_map] at hcast
  obtain ⟨i, hi, rfl⟩ := List.getElem_of_mem h
  rw [Dict.values, Dict.entries_ofList hnodup]
  refine List.mem_map.mpr ⟨((i : ℤ), t.prefixStr ++ "_" ++ labels[i]), ?_, rfl⟩
  exact List.mem_map.mpr ⟨(labels[i], i), List.mem_zipIdx_iff_getElem?.mpr (by simp), rfl⟩

theorem rangeLabel_mem (t : MappingTokenizer) (i : ℤ) : t.rangeLabel i ∈ t.rangeLabels := by
  have hfold : ∀ (l : List (ℤ × ℤ × String)) (label : String),
      l.foldl (fun label r => if r.1 ≤ i ∧ i ≤ r.2.1 then r.2.2 else label) label = label ∨
        l.foldl (fun label r => if r.1 ≤ i ∧ i ≤ r.2.1 then r.2.2 else label) label ∈
          l.map (fun r => r.2.2) := by
    intro l
    induction l with
    | nil => exact fun _ => .inl rfl
    | cons r l ih =>
      intro label
      rw [List.foldl_cons, List.map_cons, List.mem_cons]
      obtain h | h := ih (if r.1 ≤ i ∧ i ≤ r.2.1 then r.2.2 else label)
      · rw [h]
        split_ifs
        · exact .inr (.inl rfl)
        · exact .inl rfl
      · exact .inr (.inr h)
  unfold rangeLabel rangeLabels sortedStr
  rw [List.mem_append, List.mem_singleton, List.mem_insertionSort, List.mem_dedup]
  exact (hfold _ _).symm

theorem directLabel_mem {t : MappingTokenizer} (h : t.hasDirectMap) (cell : Option Value) :
    t.directLabel cell ∈ t.directLabels := by
  unfold directLabel directLabels sortedStr
  rw [if_pos h, Dict.mem_fromkeys, List.mem_append, List.mem_singleton, List.mem_insertionSort,
    List.mem_dedup]
  cases hget : cell.bind (fun v => (t.directMap.getD Dict.empty).get? (.str v.text)) with
  | none => exact .inr rfl
  | some label =>
    obtain ⟨v, -, hv⟩ := Option.bind_eq_some_iff.mp hget
    exact .inl (Dict.mem_values_of_get? hv)

end MappingTokenizer

theorem hasToken_range (log : ℚ → ℚ) (prefixStr default : String) (ranges : List (ℤ × ℤ × String))
    (i : ℤ) :
    (Tokenizer.mapping (.init prefixStr none none (some ranges) default none)).HasToken log
      (some (.int i)) :=
  ⟨_, rfl, MappingTokenizer.mem_labelTable _ (MappingTokenizer.rangeLabel_mem _ i)⟩

/-- A mapping step with a non-empty direct map has a token for every cell, nulls included. -/
theorem hasToken_direct (log : ℚ → ℚ) {t : MappingTokenizer} (hm : t.mode ≠ .range)
    (hd : t.hasDirectMap) (cell : Option Value) : (Tokenizer.mapping t).HasToken log cell := by
  have hw : t.WillLearn → (none : Option Column) = none := fun _ => rfl
  have hbuild : t.buildVocab none =
      { t with base := t.base.setTable (t.labelTable t.directLabels), vocabBuilt := true } := by
    rw [MappingTokenizer.buildVocab_of_not_learn hw, MappingTokenizer.configTable, if_neg hm,
      if_pos hd]
  refine ⟨t.prefixStr ++ "_" ++ t.directLabel cell, ?_, ?_⟩
  · simp only [Tokenizer.buildVocab, hbuild, Tokenizer.tokenizeCell, if_neg hm]
    rfl
  · simp only [Tokenizer.table, Tokenizer.buildVocab, hbuild, Tokenizer.idxToToken, Tokenizer.base]
    exact t.mem_labelTable (MappingTokenizer.directLabel_mem hd cell)

/-! ### Tokens are words -/

/-- Every token of the step is one word. -/
def Tokenizer.WordTokens (t : Tokenizer) : Prop := ∀ tok ∈ t.table.values, IsWord tok

theorem isWord_token {w x : String} (hw : NoSpace w) (hx : NoSpace x) :
    IsWord (w ++ "_" ++ x) := by
  refine ⟨fun h => ?_, (hw.append (by decide)).append hx⟩
  have hlen := congrArg String.length h
  simp at hlen

theorem Tokenizer.wordTokens_of_table {l : List (ℤ × String)}
    (ht : t.table = Dict.ofList l) (hp : NoSpace t.prefixStr)
    (hl : ∀ e ∈ l, ∃ x, NoSpace x ∧ e.2 = t.prefixStr ++ "_" ++ x) : t.WordTokens := by
  intro tok htok
  rw [ht] at htok
  obtain ⟨e, he, rfl⟩ := List.mem_map.mp htok
  obtain ⟨x, hx, hex⟩ := hl e (Dict.mem_of_mem_entries_ofList he)
  rw [hex]
  exact isWord_token hp hx

theorem noSpace_formatInt (w : ℕ) {i : ℤ} (hi : 0 ≤ i) : NoSpace (formatInt w i) := by
  rw [formatInt, if_pos hi]
  exact noSpace_of_digits (fun c hc => isDigit_of_mem_zpad hc)

theorem noSpace_toString {i : ℤ} (hi : 0 ≤ i) : NoSpace (toString i) := by
  obtain ⟨n, rfl⟩ := Int.eq_ofNat_of_zero_le hi
  show NoSpace (Nat.repr n)
  rw [Nat.repr_eq_ofList_toDigits]
  exact noSpace_of_digits (fun c hc => Nat.isDigit_of_mem_toDigits (by decide) (by decide) hc)

theorem wordTokens_fixedVocab {prefixStr : String} {minVal maxVal : ℤ} {padWidth : ℕ}
    (hp : NoSpace prefixStr) (h : 0 ≤ minVal) :
    (Tokenizer.fixedVocab (.init prefixStr minVal maxVal padWidth none)).WordTokens := by
  refine Tokenizer.wordTokens_of_table rfl hp (fun e he => ?_)
  obtain ⟨i, hi, rfl⟩ := List.mem_map.mp he
  have hi0 : 0 ≤ i := le_trans h (mem_intRange.mp hi).1
  exact ⟨_, noSpace_formatInt padWidth hi0, rfl⟩

theorem wordTokens_categoricalHash {vocabLimit : ℤ} {specialToken : String}
    (hp : NoSpace specialToken) :
    (Tokenizer.categoricalHash (.init vocabLimit specialToken none)).WordTokens := by
  refine Tokenizer.wordTokens_of_table rfl hp (fun e he => ?_)
  obtain ⟨i, hi, rfl⟩ := List.mem_map.mp he
  exact ⟨_, noSpace_toString (mem_intRange.mp hi).1, rfl⟩

theorem wordTokens_mapping {t : MappingTokenizer} (hp : NoSpace t.prefixStr)
    (hd : NoSpace t.default) (hr : ∀ r ∈ t.rangeLookup.getD [], NoSpace r.2.2)
    (hm : ∀ l ∈ (t.directMap.getD Dict.empty).values, NoSpace l) :
    (Tokenizer.mapping t).WordTokens := by
  have hlabel : ∀ labels : List String, (∀ l ∈ labels, NoSpace l) → ∀ e ∈ t.labelTable labels,
      ∃ x, NoSpace x ∧ e.2 = t.prefixStr ++ "_" ++ x := by
    intro labels hlabels e he
    obtain ⟨p, hp, rfl⟩ := List.mem_map.mp he
    exact ⟨p.1, hlabels p.1 (List.fst_mem_of_mem_zipIdx hp), rfl⟩
  refine Tokenizer.wordTokens_of_table (Tokenizer.table_mapping t) hp (fun e he => ?_)
  unfold MappingTokenizer.configTable at he
  split_ifs at he
  · refine hlabel _ (fun l hl => ?_) e he
    simp only [MappingTokenizer.rangeLabels, sortedStr, List.mem_append, List.mem_insertionSort,
      List.mem_dedup, List.mem_map, List.mem_singleton] at hl
    obtain ⟨r, hmem, rfl⟩ | rfl := hl
    · exact hr r hmem
    · exact hd
  · refine hlabel _ (fun l hl => ?_) e he
    simp only [MappingTokenizer.directLabels, sortedStr, Dict.mem_fromkeys, List.mem_append,
      List.mem_insertionSort, List.mem_dedup, List.mem_singleton] at hl
    obtain hmem | rfl := hl
    · exact hm l hmem
    · exact hd
  · obtain rfl := List.mem_singleton.mp he
    exact ⟨t.default, hd, rfl⟩

end RayTfm.Tfm
