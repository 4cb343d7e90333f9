/-
  Vgic/AllOrNothing.lean --- when an emulated vGIC access is whole.

  A 64-bit access is two register accesses.  If the kernel serves the first and refuses
  the second, the first stays: the function declines all the same, and its caller
  performs the whole access a second time on QEMU's memory.
-/
import Orchard.Vgic.Access

set_option autoImplicit false

namespace Orchard.Vgic

open Orchard.Foundation

/-! ## Words of a value -/

theorem getLsbD_wordOf (val : BitVec 64) (i : Nat) {b : Nat} (hb : b < 32) :
    (wordOf val i).getLsbD b = val.getLsbD (32 * i + b) := by
  rw [wordOf, BitVec.getLsbD_setWidth, BitVec.getLsbD_ushiftRight]
  simp [hb]

theorem getLsbD_depositWord (val : BitVec 64) (word : BitVec 32) {i b : Nat} (hb : b < 64) :
    (deposit val (32 * i) 32 (word.setWidth 64)).getLsbD b =
      if 32 * i ≤ b ∧ b < 32 * i + 32 then word.getLsbD (b - 32 * i) else val.getLsbD b := by
  rw [getLsbD_deposit val _ (by omega) hb]
  split
  · rw [BitVec.getLsbD_setWidth]
    simp [show b - 32 * i < 64 by omega]
  · rfl

/-- A word that was deposited is there. -/
theorem wordOf_deposit_self (val : BitVec 64) (word : BitVec 32) {i : Nat} (hi : i < 2) :
    wordOf (deposit val (32 * i) 32 (word.setWidth 64)) i = word := by
  apply BitVec.eq_of_getLsbD_eq
  intro b hb
  rw [getLsbD_wordOf _ _ hb, getLsbD_depositWord val word (by omega), if_pos (by omega),
    Nat.add_sub_cancel_left]

/-- The other word stays. -/
theorem wordOf_deposit_other (val : BitVec 64) (word : BitVec 32) {i j : Nat} (hj : j < 2)
    (hne : j ≠ i) : wordOf (deposit val (32 * i) 32 (word.setWidth 64)) j = wordOf val j := by
  apply BitVec.eq_of_getLsbD_eq
  intro b hb
  rw [getLsbD_wordOf _ _ hb, getLsbD_wordOf _ _ hb, getLsbD_depositWord val word (by omega),
    if_neg (by omega)]

/-- A deposit changes nothing exactly if the word was there already. -/
theorem deposit_eq_self_iff (val : BitVec 64) (word : BitVec 32) :
    deposit val 0 32 (word.setWidth 64) = val ↔ word = wordOf val 0 := by
  constructor
  · intro h
    have hword := wordOf_deposit_self val word (i := 0) (by omega)
    rw [Nat.mul_zero, h] at hword
    exact hword.symm
  · rintro rfl
    apply BitVec.eq_of_getLsbD_eq
    intro b hb
    have hdep := getLsbD_depositWord val (wordOf val 0) (i := 0) hb
    rw [Nat.mul_zero] at hdep
    rw [hdep]
    split
    · rw [getLsbD_wordOf _ _ (by omega)]
      congr 1
      omega
    · rfl

/-! ## Register accesses -/

/-- One of the tries is answered 0, and all before it with -EBUSY. -/
def Served (answer : Nat → IoctlResult) : Prop :=
  ∃ t < uaccessTries, answer t = .ok ∧ ∀ u < t, answer u = .busy

theorem regAccessFrom_iff (answer : Nat → IoctlResult) (left first : Nat) :
    regAccessFrom answer left first = true ↔
      ∃ t, first ≤ t ∧ t < first + left ∧ answer t = .ok ∧
        ∀ u, first ≤ u → u < t → answer u = .busy := by
  induction left generalizing first with
  | zero =>
    refine iff_of_false (by simp [regAccessFrom]) ?_
    rintro ⟨t, h1, h2, -⟩
    omega
  | succ left ih =>
    rw [regAccessFrom]
    cases hanswer : answer first with
    | ok =>
      refine iff_of_true rfl ⟨first, Nat.le_refl _, by omega, hanswer, fun u h1 h2 => by omega⟩
    | failed =>
      refine iff_of_false Bool.false_ne_true ?_
      rintro ⟨t, h1, -, hok, hbusy⟩
      rcases Nat.eq_or_lt_of_le h1 with rfl | hlt
      · rw [hanswer] at hok
        cases hok
      · have := hbusy first (Nat.le_refl _) hlt
        rw [hanswer] at this
        cases this
    | busy =>
      dsimp only
      rw [ih]
      constructor
      · rintro ⟨t, h1, h2, hok, hbusy⟩
        refine ⟨t, by omega, by omega, hok, fun u hu1 hu2 => ?_⟩
        rcases Nat.eq_or_lt_of_le hu1 with rfl | hlt
        · exact hanswer
        · exact hbusy u hlt hu2
      · rintro ⟨t, h1, h2, hok, hbusy⟩
        have hne : first ≠ t := by
          rintro rfl
          rw [hanswer] at hok
          cases hok
        exact ⟨t, by omega, by omega, hok, fun u hu1 hu2 => hbusy u (by omega) hu2⟩

/-- A register access succeeds exactly if one of its tries is served. -/
theorem regAccess_iff (answer : Nat → IoctlResult) : regAccess answer = true ↔ Served answer := by
  rw [regAccess, regAccessFrom_iff]
  simp [Served]

/-! ## The access -/

/-- The access is one of whole register words, and its address lies in the GIC. -/
def Routed (gic : Option Gic) (pa : BitVec 64) (target : Target) (offset : Nat) : Prop :=
  ∃ s ∈ gic, pa &&& 3#64 = 0 ∧ find s pa = some (target, offset)

/-- What an access promises. -/
structure AllOrNothing (gic : Option Gic) (k : Kernel) (pa val : BitVec 64) (size : Nat)
    (isWrite : Bool) : Prop where
  /-- accepted: every word went to the register at its own offset -/
  accepted : (kvmArmGicv3Mmio gic k pa val size isWrite).ok = true →
    ∃ target offset, Routed gic pa target offset ∧
      (kvmArmGicv3Mmio gic k pa val size isWrite).applied =
        (List.range (size / 4)).map (fun i =>
          ⟨target, offset + 4 * i, if isWrite then wordOf val i else k.read i⟩) ∧
      (isWrite = false → ∀ i < size / 4,
        wordOf (kvmArmGicv3Mmio gic k pa val size isWrite).val i = k.read i)
  /-- declined: nothing was written, and `*val` is as it was -/
  declined : (kvmArmGicv3Mmio gic k pa val size isWrite).ok = false →
    written isWrite (kvmArmGicv3Mmio gic k pa val size isWrite) = [] ∧
      (kvmArmGicv3Mmio gic k pa val size isWrite).val = val
  /-- no access reaches both the vGIC and QEMU's memory -/
  once : ∀ rw, ¬(written isWrite (kvmArmLdstAccess gic k rw pa val size isWrite).mmio ≠ [] ∧
    (kvmArmLdstAccess gic k rw pa val size isWrite).memory.isSome)

/-- A 64-bit access of the GIC whose first word is served and whose second is not, unless
it is a read that finds in the register what `*val` held. -/
def Torn (gic : Option Gic) (k : Kernel) (pa val : BitVec 64) (size : Nat) (isWrite : Bool) :
    Prop :=
  (∃ s ∈ gic, pa &&& 3#64 = 0 ∧ InGic s pa) ∧ size = 8 ∧
    Served (k.ioctl 0) ∧ ¬Served (k.ioctl 1) ∧ (isWrite = true ∨ k.read 0 ≠ wordOf val 0)

theorem exists_routed_iff {gic : Option Gic} {pa : BitVec 64} :
    (∃ target offset, Routed gic pa target offset) ↔ ∃ s ∈ gic, pa &&& 3#64 = 0 ∧ InGic s pa := by
  simp only [Routed, ← exists_find_iff]
  constructor
  · rintro ⟨target, offset, s, hs, hpa, hfind⟩
    exact ⟨s, hs, hpa, target, offset, hfind⟩
  · rintro ⟨s, hs, hpa, target, offset, hfind⟩
    exact ⟨target, offset, s, hs, hpa, hfind⟩

section Access

variable {gic : Option Gic} {k : Kernel} {pa val : BitVec 64} {size : Nat} {isWrite : Bool}

/-- An access that no frame takes, or that is not one of whole words, is declined at
once. -/
theorem kvmArmGicv3Mmio_cases (gic : Option Gic) (k : Kernel) (pa val : BitVec 64) (size : Nat)
    (isWrite : Bool) :
    (((size ≠ 4 ∧ size ≠ 8) ∨ ∀ target offset, ¬Routed gic pa target offset) ∧
      kvmArmGicv3Mmio gic k pa val size isWrite =
        { ok := false, val := val, touched := [], applied := [] }) ∨
    (∃ target offset, (size = 4 ∨ size = 8) ∧ Routed gic pa target offset ∧
      kvmArmGicv3Mmio gic k pa val size isWrite =
        mmioWords k isWrite target offset (size / 4) 0 val) := by
  unfold kvmArmGicv3Mmio
  cases gic with
  | none => exact .inl ⟨.inr fun target offset h => by simp [Routed] at h, rfl⟩
  | some s =>
    dsimp only
    by_cases hbad : (size ≠ 4 ∧ size ≠ 8) ∨ pa &&& 3#64 ≠ 0
    · rw [if_pos hbad]
      refine .inl ⟨hbad.imp id fun hpa target offset h => ?_, rfl⟩
      obtain ⟨-, -, h0, -⟩ := h
      exact hpa h0
    · rw [if_neg hbad]
      rw [not_or, not_not] at hbad
      cases hfind : find s pa with
      | none =>
        refine .inl ⟨.inr fun target offset h => ?_, rfl⟩
        obtain ⟨s', hs, -, hsome⟩ := h
        obtain rfl : s = s' := by simpa using hs
        rw [hfind] at hsome
        cases hsome
      | some found =>
        exact .inr ⟨found.1, found.2, by omega, ⟨s, rfl, hbad.2, hfind⟩, rfl⟩

/-- Declining without having transferred a word keeps every promise. -/
theorem allOrNothing_of_declined (hok : (kvmArmGicv3Mmio gic k pa val size isWrite).ok = false)
    (hval : (kvmArmGicv3Mmio gic k pa val size isWrite).val = val)
    (happlied : (kvmArmGicv3Mmio gic k pa val size isWrite).applied = []) :
    AllOrNothing gic k pa val size isWrite where
  accepted h := by
    rw [hok] at h
    cases h
  declined _ := ⟨by simp [written, happlied], hval⟩
  once rw h := by
    refine h.1 ?_
    unfold kvmArmLdstAccess
    simp [hok, written, happlied]

/-- So does accepting with every word transferred. -/
theorem allOrNothing_of_accepted {target : Target} {offset : Nat}
    (hok : (kvmArmGicv3Mmio gic k pa val size isWrite).ok = true)
    (hrouted : Routed gic pa target offset)
    (happlied : (kvmArmGicv3Mmio gic k pa val size isWrite).applied =
      (List.range (size / 4)).map fun i =>
        ⟨target, offset + 4 * i, if isWrite then wordOf val i else k.read i⟩)
    (hval : isWrite = false → ∀ i < size / 4,
      wordOf (kvmArmGicv3Mmio gic k pa val size isWrite).val i = k.read i) :
    AllOrNothing gic k pa val size isWrite where
  accepted _ := ⟨target, offset, hrouted, happlied, hval⟩
  declined h := by
    rw [hok] at h
    cases h
  once rw h := by
    unfold kvmArmLdstAccess at h
    simp [hok] at h

/-- One word: it is transferred, or nothing happens. -/
theorem allOrNothing_word {target : Target} {offset : Nat} (hrouted : Routed gic pa target offset)
    (hmmio : kvmArmGicv3Mmio gic k pa val 4 isWrite = mmioWords k isWrite target offset 1 0 val) :
    AllOrNothing gic k pa val 4 isWrite := by
  cases hfirst : regAccess (k.ioctl 0) with
  | false =>
    refine allOrNothing_of_declined ?_ ?_ ?_ <;> simp [hmmio, mmioWords, hfirst]
  | true =>
    refine allOrNothing_of_accepted ?_ hrouted ?_ ?_ <;>
      simp only [hmmio, mmioWords, hfirst, if_true]
    · cases isWrite <;> rfl
    · rintro rfl i hi
      obtain rfl : i = 0 := by omega
      exact wordOf_deposit_self val (k.read 0) (by omega)

/-- Two words, both transferred. -/
theorem allOrNothing_of_both {target : Target} {offset : Nat}
    (hrouted : Routed gic pa target offset)
    (hmmio : kvmArmGicv3Mmio gic k pa val 8 isWrite = mmioWords k isWrite target offset 2 0 val)
    (hfirst : regAccess (k.ioctl 0) = true) (hsecond : regAccess (k.ioctl 1) = true) :
    AllOrNothing gic k pa val 8 isWrite := by
  refine allOrNothing_of_accepted ?_ hrouted ?_ ?_ <;>
    simp only [hmmio, mmioWords, hfirst, hsecond, if_true]
  · cases isWrite <;> rfl
  · rintro rfl i hi
    have hcases : i = 0 ∨ i = 1 := by omega
    rcases hcases with rfl | rfl
    · exact (wordOf_deposit_other _ (k.read 1) (by omega) (by omega)).trans
        (wordOf_deposit_self val (k.read 0) (by omega))
    · exact wordOf_deposit_self _ (k.read 1) (by omega)

/-- A first word alone: the access is declined, yet the word stays where it went. -/
theorem mmioWords_torn (k : Kernel) (isWrite : Bool) (target : Target) (offset : Nat)
    (val : BitVec 64) (hfirst : regAccess (k.ioctl 0) = true)
    (hsecond : regAccess (k.ioctl 1) = false) :
    (mmioWords k isWrite target offset 2 0 val).ok = false ∧
      (mmioWords k isWrite target offset 2 0 val).applied =
        [⟨target, offset, if isWrite then wordOf val 0 else k.read 0⟩] ∧
      (isWrite = false →
        (mmioWords k isWrite target offset 2 0 val).val =
          deposit val 0 32 ((k.read 0).setWidth 64)) := by
  simp only [mmioWords, hfirst, hsecond, if_true]
  cases isWrite <;> simp

/-- Then the promises hold only for a read that found what `*val` held. -/
theorem allOrNothing_of_first {target : Target} {offset : Nat}
    (hmmio : kvmArmGicv3Mmio gic k pa val 8 isWrite = mmioWords k isWrite target offset 2 0 val)
    (hfirst : regAccess (k.ioctl 0) = true) (hsecond : regAccess (k.ioctl 1) = false) :
    AllOrNothing gic k pa val 8 isWrite ↔ isWrite = false ∧ k.read 0 = wordOf val 0 := by
  obtain ⟨hok, happlied, hread⟩ := mmioWords_torn k isWrite target offset val hfirst hsecond
  rw [← hmmio] at hok happlied hread
  cases isWrite with
  | true =>
    refine iff_of_false (fun h => ?_) (fun h => Bool.noConfusion h.1)
    have hnone := (h.declined hok).1
    simp [written, happlied] at hnone
  | false =>
    constructor
    · intro h
      refine ⟨rfl, (deposit_eq_self_iff val _).1 ?_⟩
      rw [← hread rfl, (h.declined hok).2]
    · rintro ⟨-, hsame⟩
      exact
        { accepted := fun h => by
            rw [hok] at h
            cases h
          declined := fun _ => ⟨rfl, (hread rfl).trans ((deposit_eq_self_iff val _).2 hsame)⟩
          once := fun rw h => h.1 rfl }

end Access

/-- **An access is applied to one target, all or nothing, exactly when it is not torn.** -/
theorem allOrNothing_iff (gic : Option Gic) (k : Kernel) (pa val : BitVec 64) (size : Nat)
    (isWrite : Bool) :
    AllOrNothing gic k pa val size isWrite ↔ ¬Torn gic k pa val size isWrite := by
  rcases kvmArmGicv3Mmio_cases gic k pa val size isWrite with
    ⟨hout, hmmio⟩ | ⟨target, offset, rfl | rfl, hrouted, hmmio⟩
  · refine iff_of_true ?_ ?_
    · refine allOrNothing_of_declined ?_ ?_ ?_ <;> rw [hmmio]
    · rintro ⟨hgic, hsize, -⟩
      obtain ⟨target, offset, hrouted⟩ := exists_routed_iff.2 hgic
      rcases hout with hbad | hnone
      · exact hbad.2 hsize
      · exact hnone target offset hrouted
  · refine iff_of_true (allOrNothing_word hrouted hmmio) ?_
    rintro ⟨-, hsize, -⟩
    cases hsize
  · have hserved (i : Nat) : regAccess (k.ioctl i) = true ↔ Served (k.ioctl i) := regAccess_iff _
    cases hfirst : regAccess (k.ioctl 0) with
    | false =>
      refine iff_of_true ?_ ?_
      · refine allOrNothing_of_declined ?_ ?_ ?_ <;> simp [hmmio, mmioWords, hfirst]
      · rintro ⟨-, -, hwas, -⟩
        rw [← hserved, hfirst] at hwas
        cases hwas
    | true =>
      cases hsecond : regAccess (k.ioctl 1) with
      | true =>
        refine iff_of_true (allOrNothing_of_both hrouted hmmio hfirst hsecond) ?_
        rintro ⟨-, -, -, hnot, -⟩
        exact hnot ((hserved 1).1 hsecond)
      | false =>
        rw [allOrNothing_of_first hmmio hfirst hsecond]
        have hgic := exists_routed_iff.1 ⟨target, offset, hrouted⟩
        rw [Torn, and_iff_right hgic, and_iff_right rfl, ← hserved, ← hserved, hfirst, hsecond]
        cases isWrite <;> simp

/-- A 64-bit store to an interrupt routing register, of which the kernel takes the first
half and refuses the second. -/
theorem torn_store_repeated :
    ∃ (gic : Gic) (k : Kernel), ∀ rw,
      (kvmArmLdstAccess (some gic) k rw 0x10006100#64 0x180000001#64 8 true).mmio.applied =
        [⟨.dist, 0x6100, 0x80000001#32⟩] ∧
      (kvmArmLdstAccess (some gic) k rw 0x10006100#64 0x180000001#64 8 true).mmio.ok = false ∧
      (kvmArmLdstAccess (some gic) k rw 0x10006100#64 0x180000001#64 8 true).memory =
        some ⟨0x10006100#64, 0x180000001#64, 8, true⟩ ∧
      ¬AllOrNothing (some gic) k 0x10006100#64 0x180000001#64 8 true := by
  refine ⟨⟨some 0x10000000#64, [⟨0, 1, some 0x10010000#64⟩], 1, false⟩,
    ⟨fun word _ => if word = 0 then .ok else .failed, fun _ => 0⟩, fun rw => ⟨?_, ?_, ?_, ?_⟩⟩
  · rfl
  · rfl
  · rfl
  · intro h
    have hnone := (h.declined rfl).1
    cases hnone

end Orchard.Vgic
