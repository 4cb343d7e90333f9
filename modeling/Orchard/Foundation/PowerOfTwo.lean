import Mathlib.Data.List.Basic
import Mathlib.Data.Nat.Bitwise

set_option autoImplicit false

/-!
# Power-of-two sizes

The two idioms C code uses for a power-of-two size: the test
`x & (x - 1) == 0`, and the mask `a & ~(x - 1)` that rounds an address down.
-/

namespace Orchard.Foundation

/-- `x != 0 && (x & (x - 1)) == 0`. -/
def PowerOfTwoTest (x : UInt64) : Prop := x ≠ 0 ∧ x &&& (x - 1) = 0

instance (x : UInt64) : Decidable (PowerOfTwoTest x) :=
  inferInstanceAs (Decidable (_ ∧ _))

/-- The bit test accepts exactly powers of two. -/
theorem exists_pow_of_powerOfTwoTest {x : UInt64} (h : PowerOfTwoTest x) :
    ∃ k, k < 64 ∧ x.toNat = 2 ^ k := by
  obtain ⟨hne, hand⟩ := h
  have hpos : x.toNat ≠ 0 := fun h0 => hne (UInt64.toNat_inj.mp (by simpa using h0))
  have hle : (1 : UInt64) ≤ x := by
    rw [UInt64.le_iff_toNat_le]
    exact Nat.pos_of_ne_zero hpos
  have hnat : x.toNat &&& (x.toNat - 1) = 0 := by
    have := congrArg UInt64.toNat hand
    simpa [UInt64.toNat_and, UInt64.toNat_sub_of_le _ _ hle] using this
  obtain ⟨k, hk⟩ := (Nat.and_sub_one_eq_zero_iff_isPowerOfTwo hpos).mp hnat
  refine ⟨k, ?_, hk⟩
  have hlt : x.toNat < 2 ^ 64 := x.toNat_lt
  rw [hk] at hlt
  exact (Nat.pow_lt_pow_iff_right (by omega)).mp hlt

/-- Rounding down with the mask drops the remainder. -/
theorem toNat_mask_of_powerOfTwoTest {x : UInt64} (h : PowerOfTwoTest x) (a : UInt64) :
    (a &&& ~~~(x - 1)).toNat = a.toNat - a.toNat % x.toNat := by
  obtain ⟨k, hk, hx⟩ := exists_pow_of_powerOfTwoTest h
  have hle : (1 : UInt64) ≤ x := by
    rw [UInt64.le_iff_toNat_le, hx]
    exact Nat.one_le_two_pow
  have hsub : (x - 1).toNat = 2 ^ k - 1 := by
    rw [UInt64.toNat_sub_of_le _ _ hle, hx]; rfl
  have hround : a.toNat - a.toNat % x.toNat = a.toNat / 2 ^ k * 2 ^ k := by
    have hdiv := Nat.div_add_mod' a.toNat (2 ^ k)
    rw [hx]
    omega
  have hnot : (~~~(x - 1)).toNat = 2 ^ 64 - ((2 ^ k - 1) + 1) := by
    have hsize : UInt64.size = 2 ^ 64 := rfl
    rw [UInt64.toNat_not, hsub, hsize, Nat.sub_sub, Nat.add_comm 1]
  have hfit : 2 ^ k - 1 < 2 ^ 64 := by
    have hpow : 2 ^ k < 2 ^ 64 := (Nat.pow_lt_pow_iff_right (by omega)).mpr hk
    omega
  rw [hround]
  apply Nat.eq_of_testBit_eq
  intro i
  rw [UInt64.toNat_and, Nat.testBit_and, hnot, Nat.testBit_two_pow_sub_succ hfit,
    Nat.testBit_two_pow_sub_one, Nat.testBit_mul_two_pow, Nat.testBit_div_two_pow]
  by_cases hi : i < k
  · have hnk : ¬ k ≤ i := by omega
    simp [hi, hnk]
  · have hki : k ≤ i := by omega
    rw [Nat.sub_add_cancel hki]
    by_cases hbit : i < 64
    · simp [hi, hki, hbit]
    · have hzero : a.toNat.testBit i = false := by
        apply Nat.testBit_lt_two_pow
        exact Nat.lt_of_lt_of_le a.toNat_lt (Nat.pow_le_pow_right (by omega) (by omega))
      simp [hzero]

/-- Rounding down with the mask gives a multiple of the size. -/
theorem dvd_mask_of_powerOfTwoTest {x : UInt64} (h : PowerOfTwoTest x) (a : UInt64) :
    x.toNat ∣ (a &&& ~~~(x - 1)).toNat := by
  rw [toNat_mask_of_powerOfTwoTest h]
  exact Nat.dvd_sub_mod a.toNat

/-- A smaller power of two divides a larger one. -/
theorem dvd_of_powerOfTwoTest_of_le {x : UInt64} (h : PowerOfTwoTest x) {k : Nat}
    (hle : 2 ^ k ≤ x.toNat) : 2 ^ k ∣ x.toNat := by
  obtain ⟨j, _, hx⟩ := exists_pow_of_powerOfTwoTest h
  rw [hx] at hle ⊢
  exact Nat.pow_dvd_pow 2 ((Nat.pow_le_pow_iff_right (by omega)).mp hle)

/-- Between two multiples of a size there is room for it. -/
theorem add_le_of_dvd_of_lt {d a b : Nat} (ha : d ∣ a) (hb : d ∣ b) (h : a < b) : a + d ≤ b := by
  obtain ⟨x, rfl⟩ := ha
  obtain ⟨y, rfl⟩ := hb
  have hxy : x < y := Nat.lt_of_mul_lt_mul_left h
  calc d * x + d = d * (x + 1) := by rw [Nat.mul_add, Nat.mul_one]
    _ ≤ d * y := Nat.mul_le_mul_left d hxy

end Orchard.Foundation
