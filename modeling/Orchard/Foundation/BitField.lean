import Mathlib.Data.BitVec

set_option autoImplicit false

/-!
# Bit fields

C code takes a field out of a machine word by shifting and masking, or, for a
signed field, by shifting left and back arithmetically.  Both agree with the
field as a bit vector of its own, which is how an architecture manual writes an
encoding; a mask comparison agrees with fixing the bits under the mask.
-/

namespace Orchard.Foundation

variable {w : Nat}

/-- An unsigned field of `len` bits at `start`, by shift and mask. -/
def extract (x : BitVec w) (start len : Nat) : BitVec w :=
  (x >>> start) &&& (BitVec.allOnes w >>> (w - len))

/-- A signed field of `len` bits at `start`, by two shifts. -/
def sextract (x : BitVec w) (start len : Nat) : BitVec w :=
  (x <<< (w - len - start)).sshiftRight (w - len)

/-- A field of `len` bits at `start` replaced, by masking. -/
def deposit (x : BitVec w) (start len : Nat) (field : BitVec w) : BitVec w :=
  let mask := (BitVec.allOnes w >>> (w - len)) <<< start
  (x &&& ~~~mask) ||| ((field <<< start) &&& mask)

theorem getLsbD_deposit (x field : BitVec w) {start len i : Nat} (hlen : len ≤ w) (hi : i < w) :
    (deposit x start len field).getLsbD i =
      if start ≤ i ∧ i < start + len then field.getLsbD (i - start) else x.getLsbD i := by
  have hmask : ((BitVec.allOnes w >>> (w - len)) <<< start).getLsbD i =
      decide (start ≤ i ∧ i < start + len) := by
    rw [BitVec.getLsbD_shiftLeft, BitVec.getLsbD_ushiftRight, BitVec.getLsbD_allOnes]
    by_cases hstart : i < start
    · have hout : ¬(start ≤ i ∧ i < start + len) := by omega
      simp [hstart, hout]
    · have hbound : w - len + (i - start) < w ↔ i < start + len := by omega
      simp [hi, hstart, hbound, Nat.not_lt.1 hstart]
  unfold deposit
  simp only [BitVec.getLsbD_or, BitVec.getLsbD_and, BitVec.getLsbD_not, BitVec.getLsbD_shiftLeft,
    hmask]
  by_cases hin : start ≤ i ∧ i < start + len
  · simp [hin, hi, Nat.not_lt.2 hin.1]
  · simp [hin, hi]

theorem extract_eq_setWidth (x : BitVec w) {start len : Nat} (hlen : len ≤ w) :
    extract x start len = (x.extractLsb' start len).setWidth w := by
  apply BitVec.eq_of_getLsbD_eq
  intro i hi
  unfold extract
  simp only [BitVec.getLsbD_and, BitVec.getLsbD_ushiftRight, BitVec.getLsbD_allOnes,
    BitVec.getLsbD_setWidth, BitVec.getLsbD_extractLsb']
  by_cases hin : i < len
  · have hout : w - len + i < w := by omega
    simp [hin, hi, hout]
  · have hout : ¬ w - len + i < w := by omega
    simp [hin, hout]

theorem toNat_extract (x : BitVec w) {start len : Nat} (hlen : len ≤ w) :
    (extract x start len).toNat = (x.extractLsb' start len).toNat := by
  rw [extract_eq_setWidth x hlen, BitVec.toNat_setWidth]
  apply Nat.mod_eq_of_lt
  exact Nat.lt_of_lt_of_le (BitVec.isLt _) (Nat.pow_le_pow_right (by omega) hlen)

theorem sextract_eq_signExtend (x : BitVec w) {start len : Nat} (hpos : 0 < len)
    (hfit : start + len ≤ w) :
    sextract x start len = (x.extractLsb' start len).signExtend w := by
  apply BitVec.eq_of_getLsbD_eq
  intro i hi
  unfold sextract
  rw [BitVec.getLsbD_sshiftRight, BitVec.getLsbD_signExtend, BitVec.msb_shiftLeft,
    BitVec.getLsbD_shiftLeft, BitVec.getLsbD_extractLsb', BitVec.msb_extractLsb']
  have hwi : ¬ w ≤ i := by omega
  by_cases hin : i < len
  · have h1 : w - len + i < w := by omega
    have h2 : ¬ w - len + i < w - len - start := by omega
    have h3 : w - len + i - (w - len - start) = start + i := by omega
    simp [hwi, hi, hin, h1, h2, h3]
  · have h1 : ¬ w - len + i < w := by omega
    have h2 : w - len - start = w - (start + len) := by omega
    simp [hwi, hi, hin, h1, h2, hpos, hfit]

/-- Extending twice is extending once. -/
theorem signExtend_signExtend_of_le {n m k : Nat} (x : BitVec n) (hpos : 0 < n)
    (hle : n ≤ m) : (x.signExtend m).signExtend k = x.signExtend k := by
  have hmsb : (x.signExtend m).msb = x.msb := by
    rw [BitVec.msb_signExtend]
    by_cases heq : n = m
    · subst heq
      simp [BitVec.msb, hpos]
    · have hm : 0 < m := by omega
      have hnm : ¬ n ≥ m := by omega
      simp [hm, hnm]
  apply BitVec.eq_of_getLsbD_eq
  intro i hi
  rw [BitVec.getLsbD_signExtend, BitVec.getLsbD_signExtend, BitVec.getLsbD_signExtend, hmsb]
  by_cases him : i < m
  · simp [hi, him]
  · have hin : ¬ i < n := by omega
    simp [hi, him, hin]

/-- Truncating an extension is the shorter extension. -/
theorem setWidth_signExtend {n m k : Nat} (x : BitVec n) (hle : k ≤ m) :
    (x.signExtend m).setWidth k = x.signExtend k := by
  apply BitVec.eq_of_getLsbD_eq
  intro i hi
  rw [BitVec.getLsbD_setWidth, BitVec.getLsbD_signExtend, BitVec.getLsbD_signExtend]
  have him : i < m := by omega
  simp [hi, him]

/-- A mask comparison fixes the fields under the mask, however the mask is cut
into fields. -/
theorem and_eq_iff_fields {x mask v : BitVec w} (fields : List (Nat × Nat))
    (hv : v &&& mask = v) (hfit : ∀ f ∈ fields, f.1 + f.2 ≤ w)
    (hmask : ∀ i < w, mask.getLsbD i = fields.any fun f => f.1 ≤ i && i < f.1 + f.2) :
    x &&& mask = v ↔
      ∀ f ∈ fields, x.extractLsb' f.1 f.2 = v.extractLsb' f.1 f.2 := by
  constructor
  · rintro rfl f hf
    apply BitVec.eq_of_getLsbD_eq
    intro i hi
    have hfit' := hfit f hf
    have hset : mask.getLsbD (f.1 + i) = true := by
      rw [hmask _ (by omega), List.any_eq_true]
      exact ⟨f, hf, by simp [hi]⟩
    simp [hi, hset]
  · intro h
    apply BitVec.eq_of_getLsbD_eq
    intro i hi
    rw [BitVec.getLsbD_and]
    cases hset : mask.getLsbD i with
    | false =>
      rw [← hv, BitVec.getLsbD_and, hset]
      simp
    | true =>
      rw [hmask i hi, List.any_eq_true] at hset
      obtain ⟨f, hf, hin⟩ := hset
      simp only [Bool.and_eq_true, decide_eq_true_eq] at hin
      -- bit `i` is bit `i - f.1` of the field
      have hbit := congrArg (fun b => b.getLsbD (i - f.1)) (h f hf)
      have hlen : i - f.1 < f.2 := by omega
      have hpos : f.1 + (i - f.1) = i := by omega
      simpa [hlen, hpos] using hbit

/-- A field of a field. -/
theorem extractLsb'_extractLsb' (x : BitVec w) {start len start' len' : Nat}
    (h : start' + len' ≤ len) :
    (x.extractLsb' start len).extractLsb' start' len' = x.extractLsb' (start + start') len' := by
  apply BitVec.eq_of_getLsbD_eq
  intro i hi
  have hin : start' + i < len := by omega
  simp [hi, hin, Nat.add_assoc]

/-- A word is put together from two fields exactly if they are its upper and lower bits. -/
theorem eq_append_iff {n m : Nat} (x : BitVec (n + m)) (y : BitVec n) (z : BitVec m) :
    x = y ++ z ↔ x.extractLsb' m n = y ∧ x.extractLsb' 0 m = z := by
  constructor
  · rintro rfl
    exact ⟨BitVec.extractLsb'_append_eq_left, BitVec.extractLsb'_append_eq_right⟩
  · rintro ⟨rfl, rfl⟩
    rw [BitVec.extractLsb'_append_extractLsb'_eq_extractLsb' (Nat.zero_add m).symm,
      BitVec.extractLsb'_eq_self]

/-- High bits shifted into place behind a mask are the ones in front of the low word. -/
theorem or_shiftLeft_and_eq_append {n m : Nat} (x y : BitVec n) {mask : BitVec m} {k len : Nat}
    (hmask : ∀ i < m, mask.getLsbD i = decide (n ≤ i ∧ i < n + len)) (hk : k ≤ n) :
    y.setWidth m ||| ((x.setWidth m <<< k) &&& mask) =
      (x.extractLsb' (n - k) len ++ y).setWidth m := by
  apply BitVec.eq_of_getLsbD_eq
  intro i hi
  rw [BitVec.getLsbD_or, BitVec.getLsbD_and, hmask i hi, BitVec.getLsbD_setWidth,
    BitVec.getLsbD_shiftLeft, BitVec.getLsbD_setWidth, BitVec.getLsbD_setWidth,
    BitVec.getLsbD_append, BitVec.getLsbD_extractLsb']
  by_cases hlow : i < n
  · have hhigh : ¬ n ≤ i := by omega
    simp [hi, hlow, hhigh]
  · have hbehind : ¬ i < k := by omega
    have hshift : n - k + (i - n) = i - k := by omega
    have hbits : i - n < len ↔ i < n + len := by omega
    have hin : i - k < m := by omega
    simp [hi, hlow, hbehind, hshift, hbits, hin, Nat.le_of_not_lt hlow, Bool.and_comm]

/-- An address lies `off` behind another. -/
theorem toNat_sub_eq_iff {w : Nat} (a base : BitVec w) {off : Nat} (hoff : off < 2 ^ w) :
    (a - base).toNat = off ↔ a = base + BitVec.ofNat w off := by
  constructor
  · rintro rfl
    rw [BitVec.ofNat_toNat, BitVec.setWidth_eq, BitVec.add_comm, BitVec.sub_add_cancel]
  · rintro rfl
    rw [BitVec.add_comm, BitVec.add_sub_cancel, BitVec.toNat_ofNat, Nat.mod_eq_of_lt hoff]

/-- An address behind another that does not pass the end of the address space. -/
theorem toNat_add_ofNat {w : Nat} {base : BitVec w} {off : Nat} (h : base.toNat + off < 2 ^ w) :
    (base + BitVec.ofNat w off).toNat = base.toNat + off := by
  rw [BitVec.toNat_add, BitVec.toNat_ofNat, Nat.add_mod_mod, Nat.mod_eq_of_lt h]

end Orchard.Foundation
