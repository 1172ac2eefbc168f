import RayTfm.Tfm.Preprocess

/-! # Three digits of the zip code

`preprocess` takes the first three characters of the zip code as it is stored.  The padded numeral
of five digits gives the digits that it should, and the text of the float gives the first three
digits of the number: they agree exactly for the numbers of five digits and for 0
(`preprocess_zip3_eq_iff`). -/

namespace RayTfm.Tfm

/-- The zip code as a string of five digits. -/
def paddedZip (n : ℕ) : String := String.ofList (zpad 5 n)

/-- The zip code as the text of a float. -/
def floatZip (n : ℕ) : String := String.ofList (Nat.toDigits 10 n ++ ['.', '0'])

/-- The transaction with the given zip code. -/
def RawTransaction.withZip (r : RawTransaction) (zip : String) : RawTransaction :=
  { r with zip := some zip }

/-- The first three digits of a number of at most five. -/
def leadingDigits (n : ℕ) : ℕ := if n < 1000 then n else if n < 10000 then n / 10 else n / 100

variable {n : ℕ}

theorem leadingDigits_eq_iff (hn : n < 100000) :
    leadingDigits n = n / 100 ↔ n = 0 ∨ 10000 ≤ n := by
  unfold leadingDigits
  split_ifs <;> omega

/-! ### Digits -/

/-- Digits have no `.0` among them. -/
theorem removeDotZero_append {cs : List Char} (h : ∀ c ∈ cs, c.isDigit) (ds : List Char) :
    removeDotZero (cs ++ ds) = cs ++ removeDotZero ds := by
  induction cs with
  | nil => rfl
  | cons c cs ih =>
    have hc : c ≠ '.' := by
      rintro rfl
      exact absurd (h '.' (.head _)) (by decide)
    have ih := ih (fun d hd => h d (List.mem_cons_of_mem c hd))
    simp [removeDotZero, hc, ih]

/-- The numeral of a number of `w` digits needs no padding. -/
theorem toDigits_eq_zpad {w : ℕ} (hw : 0 < w) (hn : 10 ^ w ≤ n) :
    Nat.toDigits 10 n = zpad (w + 1) n := by
  have hlen : ¬ (Nat.toDigits 10 n).length ≤ w := by
    rw [Nat.length_toDigits_le_iff (by decide) hw]
    omega
  rw [zpad_eq, show w + 1 - (Nat.toDigits 10 n).length = 0 by omega]
  rfl

theorem take_three_zpad {w : ℕ} (hn : n < 10 ^ (3 + w)) :
    (zpad (3 + w) n).take 3 = zpad 3 (n / 10 ^ w) := by
  induction w generalizing n with
  | zero =>
    rw [pow_zero, Nat.div_one, List.take_of_length_le]
    exact (length_zpad (by decide) hn).le
  | succ w ih =>
    have hdiv : n / 10 < 10 ^ (3 + w) := by
      rw [Nat.div_lt_iff_lt_mul (by decide)]
      exact hn.trans_eq (pow_succ 10 (3 + w))
    have hlen : 3 ≤ (zpad (3 + w) (n / 10)).length := by
      rw [length_zpad (by omega) hdiv]
      omega
    rw [show 3 + (w + 1) = (3 + w) + 1 from rfl] at hn ⊢
    rw [zpad_succ (by omega) hn, List.take_append_of_le_length hlen, ih hdiv,
      Nat.div_div_eq_div_mul, ← pow_succ']

theorem zfill_digits {cs : List Char} (h : ∀ c ∈ cs, c.isDigit) (w : ℕ) :
    zfill w cs = cs.leftpad w '0' := by
  unfold zfill
  split
  · exact absurd (h '-' (.head _)) (by decide)
  · exact absurd (h '+' (.head _)) (by decide)
  · rfl

/-- The first three characters of the numeral, padded, are the numeral of its leading digits. -/
theorem zfill_take_toDigits (hn : n < 100000) :
    zfill 3 ((Nat.toDigits 10 n).take 3) = zpad 3 (leadingDigits n) := by
  have hdigits : ∀ c ∈ (Nat.toDigits 10 n).take 3, c.isDigit := fun c hc =>
    Nat.isDigit_of_mem_toDigits (by decide) (by decide) (List.mem_of_mem_take hc)
  have hfull : ∀ m < 1000, (zpad 3 m).leftpad 3 '0' = zpad 3 m := by
    intro m hm
    rw [List.leftpad, length_zpad (by decide) hm]
    rfl
  rw [zfill_digits hdigits, leadingDigits]
  by_cases h3 : n < 1000
  · have hlen : (Nat.toDigits 10 n).length ≤ 3 :=
      (Nat.length_toDigits_le_iff (by decide) (by decide)).mpr h3
    rw [if_pos h3, List.take_of_length_le hlen]
    rfl
  · rw [if_neg h3]
    by_cases h4 : n < 10000
    · have htake : (zpad 4 n).take 3 = zpad 3 (n / 10) := take_three_zpad (w := 1) h4
      rw [if_pos h4, toDigits_eq_zpad (w := 3) (by decide) (by omega), htake, hfull _ (by omega)]
    · have htake : (zpad 5 n).take 3 = zpad 3 (n / 100) := take_three_zpad (w := 2) hn
      rw [if_neg h4, toDigits_eq_zpad (w := 4) (by decide) (by omega), htake, hfull _ (by omega)]

theorem parseInt_zpad {w : ℕ} (hw : 0 < w) : parseInt (zpad w n) = some (n : ℤ) := by
  have hdigits : ∀ c ∈ zpad w n, c.isDigit := fun c hc => isDigit_of_mem_zpad hc
  have hne : zpad w n ≠ [] := by
    intro hnil
    have hlen : w ≤ (zpad w n).length := by
      rw [zpad_eq, List.length_append, List.length_replicate]
      omega
    rw [hnil, List.length_nil] at hlen
    omega
  have hparse : (if zpad w n ≠ [] ∧ (zpad w n).all Char.isDigit then
      some ((Nat.ofDigitChars 10 (zpad w n) 0 : ℕ) : ℤ) else none) = some (n : ℤ) := by
    rw [if_pos ⟨hne, List.all_eq_true.mpr hdigits⟩, ofDigitChars_zpad]
  unfold parseInt
  split
  · rename_i cs heq
    exact absurd (hdigits '-' (heq ▸ (.head _))) (by decide)
  · rename_i cs heq
    exact absurd (hdigits '+' (heq ▸ (.head _))) (by decide)
  · exact hparse

/-! ### One row -/

variable (r : RawTransaction) {n : ℕ}

theorem zip3_paddedZip (hn : n < 100000) :
    zip3 (r.withZip (paddedZip n)) = .ok ((n / 100 : ℕ) : ℤ) := by
  have hremove : removeDotZero (zpad 5 n) = zpad 5 n := by
    have hdigits : ∀ c ∈ zpad 5 n, c.isDigit := fun c hc => isDigit_of_mem_zpad hc
    have h := removeDotZero_append hdigits []
    rwa [removeDotZero, List.append_nil] at h
  have htake : (zpad 5 n).take 3 = zpad 3 (n / 100) := take_three_zpad (w := 2) hn
  have hzfill : zfill 3 (zpad 3 (n / 100)) = zpad 3 (n / 100) := by
    rw [zfill_digits (fun c hc => isDigit_of_mem_zpad hc), List.leftpad,
      length_zpad (by decide) (by omega)]
    rfl
  rw [zip3, RawTransaction.withZip, Option.getD_some, paddedZip, String.toList_ofList, hremove,
    htake, hzfill, parseInt_zpad (by decide)]

theorem zip3_floatZip (hn : n < 100000) :
    zip3 (r.withZip (floatZip n)) = .ok (leadingDigits n : ℤ) := by
  have hremove : removeDotZero (Nat.toDigits 10 n ++ ['.', '0']) = Nat.toDigits 10 n := by
    have hdigits : ∀ c ∈ Nat.toDigits 10 n, c.isDigit := fun c hc =>
      Nat.isDigit_of_mem_toDigits (by decide) (by decide) hc
    rw [removeDotZero_append hdigits, removeDotZero, removeDotZero, List.append_nil]
  rw [zip3, RawTransaction.withZip, Option.getD_some, floatZip, String.toList_ofList, hremove,
    zfill_take_toDigits hn, parseInt_zpad (by decide)]

/-! ### The table -/

variable {cudf : Cudf}

/-- Of a transaction that is derived with one storage of its zip code, only `zip3` depends on it. -/
theorem deriveRow_withZip {zip zip' : String} {t : Transaction} {z' : ℤ}
    (h : deriveRow cudf (r.withZip zip) = .ok t) (hz : zip3 (r.withZip zip') = .ok z') :
    deriveRow cudf (r.withZip zip') = .ok { t with zip3 := z' } := by
  obtain ⟨amt, hamt, h⟩ := bind_eq_ok.mp h
  obtain ⟨dt, hdt, h⟩ := bind_eq_ok.mp h
  obtain ⟨z, -, h⟩ := bind_eq_ok.mp h
  cases h
  rw [deriveRow, show cudf.toFloat (String.ofList ((r.withZip zip').amount.toList.filter (· ≠ '$'))) =
      .ok amt from hamt, ok_bind, show cudf.toDatetime (dateStr (r.withZip zip')) = .ok dt from hdt,
    ok_bind, hz, ok_bind]
  rfl

/-- The transactions with their zip codes as padded numerals, and as floats. -/
def paddedRows (batch : List (RawTransaction × ℕ)) : List RawTransaction :=
  batch.map (fun e => e.1.withZip (paddedZip e.2))

def floatRows (batch : List (RawTransaction × ℕ)) : List RawTransaction :=
  batch.map (fun e => e.1.withZip (floatZip e.2))

/-- A transaction is derived with both storages of its zip code, or with none. -/
theorem derived_eq {e : RawTransaction × ℕ} (hn : e.2 < 100000) {t : Transaction}
    (h : deriveRow cudf (e.1.withZip (paddedZip e.2)) = .ok t) :
    derived cudf (e.1.withZip (paddedZip e.2)) = { t with zip3 := ((e.2 / 100 : ℕ) : ℤ) } ∧
      derived cudf (e.1.withZip (floatZip e.2)) = { t with zip3 := (leadingDigits e.2 : ℤ) } := by
  have hsame := deriveRow_withZip e.1 h (zip3_paddedZip e.1 hn)
  have hfloat := deriveRow_withZip e.1 h (zip3_floatZip e.1 hn)
  rw [derived, derived, hsame, hfloat]
  exact ⟨rfl, rfl⟩

/-- The column `zip3` of a table with either storage of the zip codes. -/
theorem preprocess_zip3 {batch : List (RawTransaction × ℕ)}
    (hzip : ∀ e ∈ batch, e.2 < 100000) {padded : List Transaction}
    (h : preprocess cudf (paddedRows batch) = .ok padded) :
    ∃ (floats : List Transaction) (sorted : List (RawTransaction × ℕ)),
      preprocess cudf (floatRows batch) = .ok floats ∧ sorted.Perm batch ∧
      padded.map Transaction.zip3 = sorted.map (fun e => ((e.2 / 100 : ℕ) : ℤ)) ∧
      floats.map Transaction.zip3 = sorted.map (fun e => (leadingDigits e.2 : ℤ)) := by
  obtain ⟨rows, hrows, -⟩ := bind_eq_ok.mp h
  have hderive : ∀ e ∈ batch, ∃ t, deriveRow cudf (e.1.withZip (paddedZip e.2)) = .ok t := fun e he =>
    exists_of_mapM_eq_ok hrows _ (List.mem_map.mpr ⟨e, he, rfl⟩)
  obtain ⟨frows, hfrows⟩ : ∃ frows, (floatRows batch).mapM (deriveRow cudf) = .ok frows := by
    refine exists_mapM_eq_ok (fun r hr => ?_)
    obtain ⟨e, he, rfl⟩ := List.mem_map.mp hr
    obtain ⟨t, ht⟩ := hderive e he
    exact ⟨_, deriveRow_withZip e.1 ht (zip3_floatZip e.1 (hzip e he))⟩
  obtain ⟨floats, hfloats⟩ : ∃ floats, preprocess cudf (floatRows batch) = .ok floats :=
    ⟨_, by rw [preprocess, hfrows, ok_bind]⟩
  -- both tables have the same sort keys
  let order := cudf.sortOrder ((paddedRows batch).map (fun r => (derived cudf r).sortKey))
  have hkeys : (floatRows batch).map (fun r => (derived cudf r).sortKey) =
      (paddedRows batch).map (fun r => (derived cudf r).sortKey) := by
    rw [paddedRows, floatRows, List.map_map, List.map_map]
    refine List.map_congr_left (fun e he => ?_)
    obtain ⟨t, ht⟩ := hderive e he
    obtain ⟨hp, hf⟩ := derived_eq (hzip e he) ht
    simp only [Function.comp_apply, hp, hf]
    rfl
  have hperm : (gather batch order).Perm batch := by
    apply gather_perm
    have hp := cudf.sortOrder_perm ((paddedRows batch).map (fun r => (derived cudf r).sortKey))
    rwa [List.length_map, paddedRows, List.length_map] at hp
  have hpadded : padded.map Transaction.zip3 =
      (gather batch order).map (fun e => ((e.2 / 100 : ℕ) : ℤ)) := by
    rw [map_preprocess h (fun _ => rfl), gatheredRows, paddedRows, gather_map, List.map_map]
    refine List.map_congr_left (fun e he => ?_)
    obtain ⟨t, ht⟩ := hderive e (hperm.mem_iff.mp he)
    rw [Function.comp_apply, (derived_eq (hzip e (hperm.mem_iff.mp he)) ht).1]
  have hfloat : floats.map Transaction.zip3 =
      (gather batch order).map (fun e => (leadingDigits e.2 : ℤ)) := by
    rw [map_preprocess hfloats (fun _ => rfl), gatheredRows, hkeys, floatRows, gather_map,
      List.map_map]
    refine List.map_congr_left (fun e he => ?_)
    obtain ⟨t, ht⟩ := hderive e (hperm.mem_iff.mp he)
    rw [Function.comp_apply, (derived_eq (hzip e (hperm.mem_iff.mp he)) ht).2]
  exact ⟨floats, gather batch order, hfloats, hperm, hpadded, hfloat⟩

/-- For all transactions with zip codes of at most five digits: the padded numerals give the first
three digits, and the floats give the same exactly if every zip code is 0 or has no leading zero. -/
theorem preprocess_zip3_eq_iff {batch : List (RawTransaction × ℕ)}
    (hzip : ∀ e ∈ batch, e.2 < 100000) {padded : List Transaction}
    (h : preprocess cudf (paddedRows batch) = .ok padded) :
    ∃ (floats : List Transaction) (sorted : List (RawTransaction × ℕ)),
      preprocess cudf (floatRows batch) = .ok floats ∧ sorted.Perm batch ∧
      padded.map Transaction.zip3 = sorted.map (fun e => ((e.2 / 100 : ℕ) : ℤ)) ∧
      floats.map Transaction.zip3 = sorted.map (fun e => (leadingDigits e.2 : ℤ)) ∧
      (floats.map Transaction.zip3 = padded.map Transaction.zip3 ↔
        ∀ e ∈ batch, e.2 = 0 ∨ 10000 ≤ e.2) := by
  obtain ⟨floats, sorted, hfloats, hperm, hpadded, hfloat⟩ := preprocess_zip3 hzip h
  refine ⟨floats, sorted, hfloats, hperm, hpadded, hfloat, ?_⟩
  rw [hpadded, hfloat, List.map_inj_left]
  refine ⟨fun hall e he => ?_, fun hall e he => ?_⟩
  · have heq := hall e (hperm.mem_iff.mpr he)
    exact (leadingDigits_eq_iff (hzip e he)).mp (by exact_mod_cast heq)
  · have hmem := hperm.mem_iff.mp he
    rw [(leadingDigits_eq_iff (hzip e hmem)).mpr (hall e hmem)]

theorem preprocess_paddedRows_example (n : ℕ) (hn : n < 100000) :
    ∃ padded, preprocess exampleCudf (paddedRows [(exampleTransaction 1 2, n)]) = .ok padded := by
  obtain ⟨t, ht⟩ := deriveRow_example 1 2
  have ht : deriveRow exampleCudf ((exampleTransaction 1 2).withZip "91750.0") = .ok t := ht
  have hrow := deriveRow_withZip (exampleTransaction 1 2) ht (zip3_paddedZip _ hn)
  have hrows : (paddedRows [(exampleTransaction 1 2, n)]).mapM (deriveRow exampleCudf) =
      .ok [{ t with zip3 := ((n / 100 : ℕ) : ℤ) }] := by
    rw [paddedRows, List.map_singleton, List.mapM_cons, hrow, ok_bind, List.mapM_nil]
    rfl
  exact ⟨_, by rw [preprocess, hrows, ok_bind]⟩

/-- The zip code 00501 gives the region 5, and the float 501.0 gives the region 501. -/
theorem preprocess_zip3_ne :
    ∃ padded floats, preprocess exampleCudf (paddedRows [(exampleTransaction 1 2, 501)]) = .ok padded ∧
      preprocess exampleCudf (floatRows [(exampleTransaction 1 2, 501)]) = .ok floats ∧
      paddedZip 501 = "00501" ∧ floatZip 501 = "501.0" ∧
      padded.map Transaction.zip3 = [5] ∧ floats.map Transaction.zip3 = [501] := by
  obtain ⟨padded, h⟩ := preprocess_paddedRows_example 501 (by decide)
  have hzip : ∀ e ∈ [(exampleTransaction 1 2, 501)], e.2 < 100000 := by
    rintro e he
    rw [List.mem_singleton.mp he]
    decide
  obtain ⟨floats, sorted, hfloats, hperm, hpadded, hfloat⟩ := preprocess_zip3 hzip h
  rw [List.perm_singleton.mp hperm] at hpadded hfloat
  exact ⟨padded, floats, h, hfloats, by decide +kernel, by decide +kernel, hpadded, hfloat⟩

/-- The zip code 95113 gives the same region with both storages. -/
theorem preprocess_zip3_eq_iff_example :
    ∃ padded floats, preprocess exampleCudf (paddedRows [(exampleTransaction 1 2, 95113)]) =
      .ok padded ∧
      preprocess exampleCudf (floatRows [(exampleTransaction 1 2, 95113)]) = .ok floats ∧
      floats.map Transaction.zip3 = padded.map Transaction.zip3 := by
  obtain ⟨padded, h⟩ := preprocess_paddedRows_example 95113 (by decide)
  have hzip : ∀ e ∈ [(exampleTransaction 1 2, 95113)], e.2 < 100000 := by
    rintro e he
    rw [List.mem_singleton.mp he]
    decide
  obtain ⟨floats, sorted, hfloats, -, -, -, hiff⟩ := preprocess_zip3_eq_iff hzip h
  refine ⟨padded, floats, h, hfloats, hiff.mpr (fun e he => ?_)⟩
  rw [List.mem_singleton.mp he]
  decide

end RayTfm.Tfm
