import Mathlib

/-! # Sums of doubles

The numbers with a significand of 53 bits, without the limits of the exponent, and their sum: the
exact sum, rounded to the nearest such number, a tie to the even significand. -/

namespace RayTfm

/-- The nearest integer, a tie to the even one. -/
def roundEven (x : ℚ) : ℤ :=
  if x - ⌊x⌋ < 1 / 2 then ⌊x⌋
  else if 1 / 2 < x - ⌊x⌋ then ⌊x⌋ + 1
  else ⌊x⌋ + ⌊x⌋ % 2

@[simp] theorem roundEven_intCast (n : ℤ) : roundEven n = n := by simp [roundEven]

theorem roundEven_bounds (x : ℚ) : ⌊x⌋ ≤ roundEven x ∧ roundEven x ≤ ⌊x⌋ + 1 := by
  unfold roundEven
  split_ifs <;> omega

/-- The nearest number with a significand of 53 bits. -/
def roundBinary64 (x : ℚ) : ℚ :=
  roundEven (x / 2 ^ (Int.log 2 |x| - 52)) * 2 ^ (Int.log 2 |x| - 52)

/-- A number with a significand of 53 bits is not rounded. -/
theorem roundBinary64_of_le {n : ℤ} (hn : |n| ≤ 2 ^ 53) (k : ℤ) :
    roundBinary64 (n * 2 ^ k) = n * 2 ^ k := by
  have hpow : ∀ j : ℤ, (0 : ℚ) < 2 ^ j := fun j => zpow_pos (by norm_num) j
  obtain rfl | hne := eq_or_ne n 0
  · simp [roundBinary64, roundEven]
  obtain ⟨x, hx⟩ : ∃ x : ℚ, x = n * 2 ^ k := ⟨_, rfl⟩
  rw [← hx]
  have habs : |x| = |n| * 2 ^ k := by rw [hx, abs_mul, abs_of_pos (hpow k), Int.cast_abs]
  have hpos : 0 < |x| := abs_pos.mpr (hx ▸ mul_ne_zero (Int.cast_ne_zero.mpr hne) (hpow k).ne')
  have hlog : (2 : ℚ) ^ Int.log 2 |x| ≤ |x| := by
    simpa using Int.zpow_log_le_self (b := 2) (by norm_num) hpos
  -- the quotient by the unit in the last place is an integer
  obtain ⟨m, hm⟩ : ∃ m : ℤ, x / 2 ^ (Int.log 2 |x| - 52) = m := by
    by_cases hle : Int.log 2 |x| - 52 ≤ k
    · refine ⟨n * 2 ^ (k - (Int.log 2 |x| - 52)).toNat, ?_⟩
      have hexp : (k - (Int.log 2 |x| - 52)).toNat + (Int.log 2 |x| - 52) = k := by omega
      rw [div_eq_iff (hpow _).ne', Int.cast_mul, Int.cast_pow, mul_assoc, ← zpow_natCast,
        Int.cast_ofNat, ← zpow_add₀ (by norm_num), hexp]
      exact hx
    · have hle' : (2 : ℚ) ^ (k + 53) ≤ 2 ^ Int.log 2 |x| :=
        zpow_le_zpow_right₀ (by norm_num) (by omega)
      have hn' : ((|n| : ℤ) : ℚ) ≤ 2 ^ 53 := by exact_mod_cast hn
      have hupper : |x| ≤ 2 ^ (k + 53) := by
        rw [habs, zpow_add₀ (by norm_num), mul_comm]
        exact mul_le_mul_of_nonneg_left hn' (hpow k).le
      have heq : |x| = 2 ^ (k + 53) := le_antisymm hupper (hle'.trans hlog)
      have hexp : Int.log 2 |x| = k + 53 := by rw [heq]; exact Int.log_zpow (by norm_num) _
      have hsize : |n| = 2 ^ 53 := by
        rw [habs, zpow_add₀ (by norm_num), mul_comm] at heq
        exact_mod_cast mul_left_cancel₀ (hpow k).ne' heq
      obtain h | h := (abs_eq (by norm_num)).mp hsize
      · refine ⟨2 ^ 52, ?_⟩
        rw [hexp, div_eq_iff (hpow _).ne', hx, h, show k + 53 - 52 = k + 1 by ring,
          zpow_add₀ (by norm_num)]
        push_cast
        ring
      · refine ⟨-2 ^ 52, ?_⟩
        rw [hexp, div_eq_iff (hpow _).ne', hx, h, show k + 53 - 52 = k + 1 by ring,
          zpow_add₀ (by norm_num)]
        push_cast
        ring
  rw [roundBinary64, hm, roundEven_intCast, ← hm, div_mul_cancel₀ _ (hpow _).ne']

theorem roundBinary64_roundBinary64 (x : ℚ) : roundBinary64 (roundBinary64 x) = roundBinary64 x := by
  refine roundBinary64_of_le ?_ _
  have hpow : (0 : ℚ) < 2 ^ (Int.log 2 |x| - 52) := zpow_pos (by norm_num) _
  have hlt : |x / 2 ^ (Int.log 2 |x| - 52)| < 2 ^ 53 := by
    rw [abs_div, abs_of_pos hpow, div_lt_iff₀ hpow, ← zpow_natCast, ← zpow_add₀ (by norm_num)]
    have hlog := Int.lt_zpow_succ_log_self (b := 2) (by norm_num) |x|
    rw [show ((53 : ℕ) : ℤ) + (Int.log 2 |x| - 52) = Int.log 2 |x| + 1 by push_cast; ring]
    simpa using hlog
  obtain ⟨hlower, hupper⟩ := roundEven_bounds (x / 2 ^ (Int.log 2 |x| - 52))
  rw [abs_lt] at hlt
  have hfloor : ⌊x / 2 ^ (Int.log 2 |x| - 52)⌋ < 2 ^ 53 :=
    Int.floor_lt.mpr (by push_cast; exact hlt.2)
  have hfloor' : -2 ^ 53 ≤ ⌊x / 2 ^ (Int.log 2 |x| - 52)⌋ :=
    Int.le_floor.mpr (by push_cast; exact hlt.1.le)
  rw [abs_le]
  omega

/-- A double, as the number that it stands for. -/
structure Binary64 where
  toRat : ℚ
  rounded : roundBinary64 toRat = toRat
deriving DecidableEq

namespace Binary64

@[ext] theorem ext {a b : Binary64} (h : a.toRat = b.toRat) : a = b := by
  obtain ⟨_, _⟩ := a
  obtain ⟨_, _⟩ := b
  cases h
  rfl

/-- The double next to a number, as a literal is read. -/
def ofRat (x : ℚ) : Binary64 := ⟨roundBinary64 x, roundBinary64_roundBinary64 x⟩

instance : LinearOrder Binary64 := LinearOrder.lift' toRat (fun _ _ => ext)

instance : Zero Binary64 := ⟨⟨0, by decide +kernel⟩⟩

instance : Add Binary64 := ⟨fun a b => ofRat (a.toRat + b.toRat)⟩

instance : AddZeroClass Binary64 where
  zero_add a := ext (by
    show roundBinary64 (0 + a.toRat) = a.toRat
    rw [zero_add, a.rounded])
  add_zero a := ext (by
    show roundBinary64 (a.toRat + 0) = a.toRat
    rw [add_zero, a.rounded])

end Binary64
end RayTfm
