/-
  Ldst/Decode.lean --- the decoders read the encodings of the architecture.

  `decode` tests masks and shifts fields out of the word; `instruction` reads the
  encoding by its fields.  They accept the same words and agree on what each one
  means (`decode_eq_instruction`).
-/
import Orchard.Ldst.Architecture

set_option autoImplicit false

namespace Orchard.Ldst

open Orchard.Foundation

/-- The operation record an instruction decodes to. -/
def Inst.op (i : Inst) : LdstOp :=
  { load := i.kind.isLoad
    sign := i.kind.signed
    dst64 := i.kind.regWidth == 64
    size := i.kind.bytes
    nregs := i.regs.length
    rt := i.rt
    rt2 := i.rt2
    rn := i.rn
    offset := i.offset
    mode := i.index }

/-! ## Fields -/

theorem regField_eq (insn : BitVec 32) (start : Nat) :
    regField insn start = insn.extractLsb' start 5 := by
  apply BitVec.eq_of_toNat_eq
  unfold regField
  rw [BitVec.toNat_setWidth, toNat_extract insn (by omega)]
  exact Nat.mod_eq_of_lt (BitVec.isLt _)

theorem addrModes_eq (insn : BitVec 32) (start : Nat) :
    addrModes (extract insn start 2).toNat = indexForm (insn.extractLsb' start 2) := by
  rw [toNat_extract insn (by omega)]
  generalize insn.extractLsb' start 2 = idx
  revert idx
  decide

theorem sextract_signExtend (insn : BitVec 32) {start len : Nat} (hpos : 0 < len)
    (hfit : start + len ≤ 32) :
    (sextract insn start len).signExtend 64 = (insn.extractLsb' start len).signExtend 64 := by
  rw [sextract_eq_signExtend insn hpos hfit]
  exact signExtend_signExtend_of_le _ hpos (by omega)

/-- `single_width` is the operation table of the one-register class. -/
theorem singleWidth_eq : ∀ size < 4, ∀ opc < 4,
    singleWidth opc size =
      (singleKind size opc).map fun k => (k.isLoad, k.signed, k.regWidth == 64) := by
  decide

theorem bytes_of_singleKind : ∀ size < 4, ∀ opc < 4, ∀ k ∈ singleKind size opc,
    k.bytes = 1 <<< size := by
  decide

/-- The opc switch of `decode_pair` is the operation table of the pair class. -/
theorem pairWidth_eq : ∀ opc < 4, ∀ l < 2,
    pairWidth opc (l != 0) =
      (pairKind opc l).map fun k => (k.bytes, k.signed, k.regWidth == 64) := by
  decide

theorem isLoad_of_pairKind : ∀ opc < 4, ∀ l < 2, ∀ k ∈ pairKind opc l,
    k.isLoad = (l != 0) := by
  decide

/-! ## The two classes -/

theorem decodeSingle_eq (insn : BitVec 32) :
    decodeSingle insn = (single insn).map Inst.op := by
  have hmask : insn &&& 0x3f200000#32 = 0x38000000#32 ↔
      insn.extractLsb' 24 6 = 0b111000#6 ∧ insn.extractLsb' 21 1 = 0#1 := by
    rw [and_eq_iff_fields [(24, 6), (21, 1)] (by decide) (by decide) (by decide)]
    simp
  have hsize : (insn.extractLsb' 30 2).toNat < 4 := BitVec.isLt _
  have hopc : (insn.extractLsb' 22 2).toNat < 4 := BitVec.isLt _
  unfold decodeSingle single
  simp only [hmask, toNat_extract insn (show 2 ≤ 32 by omega)]
  split
  · rw [singleWidth_eq _ hsize _ hopc]
    cases hkind : singleKind (insn.extractLsb' 30 2).toNat (insn.extractLsb' 22 2).toNat with
    | none => rfl
    | some kind =>
      have hbytes := bytes_of_singleKind _ hsize _ hopc kind hkind
      simp only [Option.map_some, Option.some.injEq]
      unfold Inst.op Inst.regs
      simp only [regField_eq, sextract_signExtend insn (show 0 < 9 by omega)
        (show 12 + 9 ≤ 32 by omega), ← addrModes_eq, hbytes,
        toNat_extract insn (show 2 ≤ 32 by omega)]
      rfl
  · rfl

theorem decodePair_eq (insn : BitVec 32) :
    decodePair insn = (pair insn).map Inst.op := by
  have hmask : insn &&& 0x3e000000#32 = 0x28000000#32 ↔
      insn.extractLsb' 25 5 = 0b10100#5 := by
    rw [and_eq_iff_fields [(25, 5)] (by decide) (by decide) (by decide)]
    simp
  have hopc : (insn.extractLsb' 30 2).toNat < 4 := BitVec.isLt _
  have hl : (insn.extractLsb' 22 1).toNat < 2 := BitVec.isLt _
  unfold decodePair pair
  simp only [hmask, toNat_extract insn (show 2 ≤ 32 by omega),
    toNat_extract insn (show 1 ≤ 32 by omega)]
  split
  · rw [pairWidth_eq _ hopc _ hl]
    cases hkind : pairKind (insn.extractLsb' 30 2).toNat (insn.extractLsb' 22 1).toNat with
    | none => rfl
    | some kind =>
      have hload := isLoad_of_pairKind _ hopc _ hl kind hkind
      simp only [Option.map_some, Option.some.injEq]
      unfold Inst.op Inst.regs
      simp only [regField_eq, sextract_signExtend insn (show 0 < 7 by omega)
        (show 15 + 7 ≤ 32 by omega), ← addrModes_eq, hload,
        toNat_extract insn (show 2 ≤ 32 by omega)]
      rfl
  · rfl

/-- The decoders accept the words of the two classes and no others, and read each
as its instruction. -/
theorem decode_eq_instruction (insn : BitVec 32) :
    decode insn = (instruction insn).map Inst.op := by
  unfold decode instruction
  rw [decodeSingle_eq, decodePair_eq]
  cases single insn with
  | none => simp
  | some i => simp

end Orchard.Ldst
