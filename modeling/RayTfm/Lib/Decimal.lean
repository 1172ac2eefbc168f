import Mathlib

/-! # Zero-padded decimals

`zpad w n` is the decimal numeral of `n`, filled with zeros on the left up to width `w`.
Padding loses nothing (`zpad_injective`).  Numerals of one width compare as strings the way
the numbers compare (`zpad_lt_iff`), and a comparison of concatenations whose first parts have
equal length is decided part by part (`append_lt_append_iff`); together they turn the
lexicographic order on fixed-format strings into the lexicographic order on their fields. -/

namespace RayTfm

/-- Lexicographic comparison of concatenations with first parts of equal length. -/
theorem append_lt_append_iff {α : Type} [LinearOrder α] :
    ∀ {a b : List α} (c d : List α), a.length = b.length →
      (a ++ c < b ++ d ↔ a < b ∨ a = b ∧ c < d)
  | [], [], c, d, _ => by simp
  | x :: a, y :: b, c, d, h => by
    have ih := append_lt_append_iff c d (by simpa using h : a.length = b.length)
    rw [List.cons_append, List.cons_append, List.cons_lt_cons_iff, List.cons_lt_cons_iff, ih,
      List.cons.injEq]
    tauto

/-- The numeral of `n`, left-padded with zeros to width `w`. -/
def zpad (w n : ℕ) : List Char := (Nat.toDigits 10 n).leftpad w '0'

theorem zpad_eq (w n : ℕ) :
    zpad w n = List.replicate (w - (Nat.toDigits 10 n).length) '0' ++ Nat.toDigits 10 n := rfl

variable {w n : ℕ}

theorem isDigit_of_mem_zpad {c : Char} (h : c ∈ zpad w n) : c.isDigit := by
  rw [zpad_eq, List.mem_append] at h
  rcases h with h | h
  · rw [List.eq_of_mem_replicate h]; decide
  · exact Nat.isDigit_of_mem_toDigits (by decide) (by decide) h

/-- Reading a padded numeral back. -/
theorem ofDigitChars_zpad (w n : ℕ) : Nat.ofDigitChars 10 (zpad w n) 0 = n := by
  rw [zpad_eq, Nat.ofDigitChars_append, Nat.ofDigitChars_replicate_zero, Nat.mul_zero,
    Nat.ofDigitChars_toDigits (by decide) (by decide)]

theorem zpad_injective (w : ℕ) : Function.Injective (zpad w) := by
  intro m n h
  rw [← ofDigitChars_zpad w m, h, ofDigitChars_zpad]

/-- A numeral that fits is padded to exactly the width. -/
theorem length_zpad (hw : 0 < w) (hn : n < 10 ^ w) : (zpad w n).length = w := by
  have h := (Nat.length_toDigits_le_iff (by decide) hw).mpr hn
  rw [zpad_eq, List.length_append, List.length_replicate]
  omega

theorem zpad_of_lt_ten (hn : n < 10) :
    zpad (w + 1) n = List.replicate w '0' ++ [n.digitChar] := by
  rw [zpad_eq, Nat.toDigits_of_lt_base hn]
  simp

/-- A padded numeral is the shorter padded numeral of the leading digits and the last digit. -/
theorem zpad_succ (hw : 0 < w) (hn : n < 10 ^ (w + 1)) :
    zpad (w + 1) n = zpad w (n / 10) ++ [(n % 10).digitChar] := by
  obtain ⟨v, rfl⟩ : ∃ v, w = v + 1 := ⟨w - 1, by omega⟩
  rcases Nat.lt_or_ge n 10 with h | h
  · rw [zpad_of_lt_ten h, Nat.div_eq_of_lt h, zpad_of_lt_ten (by decide), Nat.mod_eq_of_lt h]
    rw [List.replicate_succ', show Nat.digitChar 0 = '0' from rfl]
  · have hlt : n / 10 < 10 ^ (v + 1) := by
      rw [Nat.div_lt_iff_lt_mul (by decide)]
      rwa [pow_succ] at hn
    rw [zpad_eq, zpad_eq, Nat.toDigits_of_base_le (by decide) h, List.length_append,
      List.length_singleton, ← List.append_assoc]
    congr 3
    omega

theorem digitChar_lt_iff {m : ℕ} (hm : m < 10) (hn : n < 10) :
    m.digitChar < n.digitChar ↔ m < n := by
  have key : ∀ a b : Fin 10, (a : ℕ).digitChar < (b : ℕ).digitChar ↔ (a : ℕ) < b := by decide
  exact key ⟨m, hm⟩ ⟨n, hn⟩

/-- Numerals of one width compare as strings the way the numbers compare. -/
theorem zpad_lt_iff (hw : 0 < w) {m : ℕ} (hm : m < 10 ^ w) (hn : n < 10 ^ w) :
    zpad w m < zpad w n ↔ m < n := by
  induction w, hw using Nat.le_induction generalizing m n with
  | base =>
    rw [pow_one] at hm hn
    rw [zpad_of_lt_ten hm, zpad_of_lt_ten hn, List.replicate_zero, List.nil_append, List.nil_append,
      List.cons_lt_cons_iff, digitChar_lt_iff hm hn]
    simp
  | succ w hw ih =>
    have hdiv : ∀ {k : ℕ}, k < 10 ^ (w + 1) → k / 10 < 10 ^ w := by
      intro k hk
      rw [Nat.div_lt_iff_lt_mul (by decide)]
      rwa [pow_succ] at hk
    rw [zpad_succ hw hm, zpad_succ hw hn,
      append_lt_append_iff _ _ (by rw [length_zpad hw (hdiv hm), length_zpad hw (hdiv hn)]),
      ih (hdiv hm) (hdiv hn), (zpad_injective w).eq_iff, List.cons_lt_cons_iff,
      digitChar_lt_iff (Nat.mod_lt _ (by decide)) (Nat.mod_lt _ (by decide))]
    simp only [List.lt_irrefl, and_false, or_false]
    omega

end RayTfm
