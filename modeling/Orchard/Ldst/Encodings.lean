/-
  Ldst/Encodings.lean --- which words the decoders accept.

  The allocated encodings of the two classes as an assembler would write them: a table of
  the operations with their opcode fields, the four addressing forms of each class, and the
  word put together from the fields.  A decoder accepts exactly its class if it accepts what
  is encoded here and nothing else, and reads each word as the operation it encodes.

  One encoding is missing from the pair class.  There is no LDPSW without allocation hint:
  with opc 01 the no-allocate form is unallocated, and `decode_pair`, which looks at opc and
  L but not at the form, accepts it.
-/
import Orchard.Ldst.Decode

set_option autoImplicit false

namespace Orchard.Ldst

open Orchard.Foundation

/-! ## One register -/

/-- The `size` and `opc` fields of a one-register operation. -/
def Kind.sizeOpc : Kind → Option (BitVec 2 × BitVec 2)
  | .strb => some (0b00, 0b00)
  | .ldrb => some (0b00, 0b01)
  | .ldrsbX => some (0b00, 0b10)
  | .ldrsbW => some (0b00, 0b11)
  | .strh => some (0b01, 0b00)
  | .ldrh => some (0b01, 0b01)
  | .ldrshX => some (0b01, 0b10)
  | .ldrshW => some (0b01, 0b11)
  | .strW => some (0b10, 0b00)
  | .ldrW => some (0b10, 0b01)
  | .ldrsw => some (0b10, 0b10)
  | .strX => some (0b11, 0b00)
  | .ldrX => some (0b11, 0b01)
  | _ => none

/-- The forms with a 9-bit offset. -/
inductive SingleForm where
  | unscaled
  | post
  | unprivileged
  | pre
  deriving DecidableEq, Repr

def SingleForm.idx : SingleForm → BitVec 2
  | .unscaled => 0b00
  | .post => 0b01
  | .unprivileged => 0b10
  | .pre => 0b11

/-- Only the indexed forms write the base back. -/
def SingleForm.mode : SingleForm → AddrMode
  | .post => .post
  | .pre => .pre
  | _ => .offset

/-- A load or store of one register with a 9-bit offset. -/
structure SingleInsn where
  kind : Kind
  size : BitVec 2
  opc : BitVec 2
  allocated : kind.sizeOpc = some (size, opc)
  form : SingleForm
  imm9 : BitVec 9
  rn : BitVec 5
  rt : BitVec 5

namespace SingleInsn

/-- `size 111 0 00 opc 0 imm9 idx Rn Rt`. -/
def encode (i : SingleInsn) : BitVec 32 :=
  i.size ++ 0b111000#6 ++ i.opc ++ 0b0#1 ++ i.imm9 ++ i.form.idx ++ i.rn ++ i.rt

def inst (i : SingleInsn) : Inst :=
  { kind := i.kind
    rt := i.rt
    rt2 := none
    rn := i.rn
    offset := i.imm9.signExtend 64
    index := i.form.mode }

theorem encode_eq_iff (i : SingleInsn) (insn : BitVec 32) :
    i.encode = insn ↔
      insn.extractLsb' 30 2 = i.size ∧ insn.extractLsb' 24 6 = 0b111000#6 ∧
        insn.extractLsb' 22 2 = i.opc ∧ insn.extractLsb' 21 1 = 0b0#1 ∧
        insn.extractLsb' 12 9 = i.imm9 ∧ insn.extractLsb' 10 2 = i.form.idx ∧
        insn.extractLsb' 5 5 = i.rn ∧ insn.extractLsb' 0 5 = i.rt := by
  rw [eq_comm, encode, eq_append_iff (n := 27) (m := 5) insn, eq_append_iff (n := 22) (m := 5),
    eq_append_iff (n := 20) (m := 2), eq_append_iff (n := 11) (m := 9),
    eq_append_iff (n := 10) (m := 1), eq_append_iff (n := 8) (m := 2),
    eq_append_iff (n := 2) (m := 6)]
  simp (disch := omega) only [extractLsb'_extractLsb', and_assoc, Nat.reduceAdd]

end SingleInsn

theorem singleKind_eq_some_iff (size opc : BitVec 2) (k : Kind) :
    singleKind size.toNat opc.toNat = some k ↔ k.sizeOpc = some (size, opc) := by
  revert size opc
  cases k <;> decide

/-- The form of an index field. -/
def SingleForm.ofIdx (idx : BitVec 2) : SingleForm :=
  if idx = 0b00 then .unscaled else if idx = 0b01 then .post
  else if idx = 0b10 then .unprivileged else .pre

theorem SingleForm.idx_ofIdx : ∀ idx, (SingleForm.ofIdx idx).idx = idx := by
  decide

theorem SingleForm.mode_eq (form : SingleForm) : form.mode = indexForm form.idx := by
  cases form <;> rfl

/-- The words of the one-register class are the encodings. -/
theorem single_eq_some_iff (insn : BitVec 32) (inst : Inst) :
    single insn = some inst ↔ ∃ i : SingleInsn, i.encode = insn ∧ i.inst = inst := by
  unfold single
  constructor
  · intro h
    split at h
    · rename_i hclass
      obtain ⟨kind, hkind, rfl⟩ := Option.map_eq_some_iff.mp h
      rw [singleKind_eq_some_iff] at hkind
      refine ⟨⟨kind, _, _, hkind, .ofIdx (insn.extractLsb' 10 2), insn.extractLsb' 12 9,
        insn.extractLsb' 5 5, insn.extractLsb' 0 5⟩, ?_, ?_⟩
      · rw [SingleInsn.encode_eq_iff]
        exact ⟨rfl, hclass.1, rfl, hclass.2, rfl, (SingleForm.idx_ofIdx _).symm, rfl, rfl⟩
      · rw [SingleInsn.inst, SingleForm.mode_eq, SingleForm.idx_ofIdx]
    · cases h
  · rintro ⟨i, hencode, rfl⟩
    obtain ⟨hsize, hclass, hopc, hbit, himm, hidx, hrn, hrt⟩ := (i.encode_eq_iff insn).mp hencode
    rw [if_pos ⟨hclass, hbit⟩, hsize, hopc, himm, hidx, hrn, hrt,
      (singleKind_eq_some_iff _ _ _).mpr i.allocated, SingleInsn.inst, SingleForm.mode_eq]
    rfl

/-! ## Pairs -/

/-- The `opc` and `L` fields of a pair operation. -/
def Kind.opcL : Kind → Option (BitVec 2 × BitVec 1)
  | .stpW => some (0b00, 0b0)
  | .ldpW => some (0b00, 0b1)
  | .ldpsw => some (0b01, 0b1)
  | .stpX => some (0b10, 0b0)
  | .ldpX => some (0b10, 0b1)
  | _ => none

/-- The forms of a pair; with the first LDP and STP are LDNP and STNP. -/
inductive PairForm where
  | noAllocate
  | post
  | offset
  | pre
  deriving DecidableEq, Repr

def PairForm.idx : PairForm → BitVec 2
  | .noAllocate => 0b00
  | .post => 0b01
  | .offset => 0b10
  | .pre => 0b11

def PairForm.mode : PairForm → AddrMode
  | .post => .post
  | .pre => .pre
  | _ => .offset

/-- The fields of a pair encoding with a known operation. -/
structure PairFields where
  kind : Kind
  opc : BitVec 2
  l : BitVec 1
  operation : kind.opcL = some (opc, l)
  form : PairForm
  imm7 : BitVec 7
  rt2 : BitVec 5
  rn : BitVec 5
  rt : BitVec 5

namespace PairFields

/-- `opc 101 0 0 idx L imm7 Rt2 Rn Rt`. -/
def encode (i : PairFields) : BitVec 32 :=
  i.opc ++ 0b10100#5 ++ i.form.idx ++ i.l ++ i.imm7 ++ i.rt2 ++ i.rn ++ i.rt

/-- The encoding is one of LDP, STP, LDPSW, LDNP and STNP: LDPSW has no no-allocate form. -/
def Allocated (i : PairFields) : Prop := ¬ (i.kind = .ldpsw ∧ i.form = .noAllocate)

def inst (i : PairFields) : Inst :=
  { kind := i.kind
    rt := i.rt
    rt2 := some i.rt2
    rn := i.rn
    offset := i.imm7.signExtend 64 * BitVec.ofNat 64 i.kind.bytes
    index := i.form.mode }

theorem encode_eq_iff (i : PairFields) (insn : BitVec 32) :
    i.encode = insn ↔
      insn.extractLsb' 30 2 = i.opc ∧ insn.extractLsb' 25 5 = 0b10100#5 ∧
        insn.extractLsb' 23 2 = i.form.idx ∧ insn.extractLsb' 22 1 = i.l ∧
        insn.extractLsb' 15 7 = i.imm7 ∧ insn.extractLsb' 10 5 = i.rt2 ∧
        insn.extractLsb' 5 5 = i.rn ∧ insn.extractLsb' 0 5 = i.rt := by
  rw [eq_comm, encode, eq_append_iff (n := 27) (m := 5) insn, eq_append_iff (n := 22) (m := 5),
    eq_append_iff (n := 17) (m := 5), eq_append_iff (n := 10) (m := 7),
    eq_append_iff (n := 9) (m := 1), eq_append_iff (n := 7) (m := 2),
    eq_append_iff (n := 2) (m := 5)]
  simp (disch := omega) only [extractLsb'_extractLsb', and_assoc, Nat.reduceAdd]

end PairFields

theorem pairKind_eq_some_iff (opc : BitVec 2) (l : BitVec 1) (k : Kind) :
    pairKind opc.toNat l.toNat = some k ↔ k.opcL = some (opc, l) := by
  revert opc l
  cases k <;> decide

/-- The form of an index field. -/
def PairForm.ofIdx (idx : BitVec 2) : PairForm :=
  if idx = 0b00 then .noAllocate else if idx = 0b01 then .post
  else if idx = 0b10 then .offset else .pre

theorem PairForm.idx_ofIdx : ∀ idx, (PairForm.ofIdx idx).idx = idx := by
  decide

theorem PairForm.mode_eq (form : PairForm) : form.mode = indexForm form.idx := by
  cases form <;> rfl

/-- The words of the pair class are the encodings, allocated or not. -/
theorem pair_eq_some_iff (insn : BitVec 32) (inst : Inst) :
    pair insn = some inst ↔ ∃ i : PairFields, i.encode = insn ∧ i.inst = inst := by
  unfold pair
  constructor
  · intro h
    split at h
    · rename_i hclass
      obtain ⟨kind, hkind, rfl⟩ := Option.map_eq_some_iff.mp h
      rw [pairKind_eq_some_iff] at hkind
      refine ⟨⟨kind, _, _, hkind, .ofIdx (insn.extractLsb' 23 2), insn.extractLsb' 15 7,
        insn.extractLsb' 10 5, insn.extractLsb' 5 5, insn.extractLsb' 0 5⟩, ?_, ?_⟩
      · rw [PairFields.encode_eq_iff]
        exact ⟨rfl, hclass, (PairForm.idx_ofIdx _).symm, rfl, rfl, rfl, rfl, rfl⟩
      · rw [PairFields.inst, PairForm.mode_eq, PairForm.idx_ofIdx]
    · cases h
  · rintro ⟨i, hencode, rfl⟩
    obtain ⟨hopc, hclass, hidx, hl, himm, hrt2, hrn, hrt⟩ := (i.encode_eq_iff insn).mp hencode
    rw [if_pos hclass, hopc, hl, himm, hidx, hrt2, hrn, hrt,
      (pairKind_eq_some_iff _ _ _).mpr i.operation, PairFields.inst, PairForm.mode_eq]
    rfl

/-! ## The decoders -/

/-- What is read as the instructions of some encodings is decoded as their operations. -/
theorem map_op_eq_some_iff {ι : Type} {read : Option Inst} {Encodes : ι → Prop} {inst : ι → Inst}
    (h : ∀ v, read = some v ↔ ∃ i, Encodes i ∧ inst i = v) (op : LdstOp) :
    read.map Inst.op = some op ↔ ∃ i, Encodes i ∧ (inst i).op = op := by
  rw [Option.map_eq_some_iff]
  constructor
  · rintro ⟨v, hv, rfl⟩
    obtain ⟨i, hi, rfl⟩ := (h v).mp hv
    exact ⟨i, hi, rfl⟩
  · rintro ⟨i, hi, rfl⟩
    exact ⟨inst i, (h _).mpr ⟨i, hi, rfl⟩, rfl⟩

theorem decodeSingle_eq_some_iff (insn : BitVec 32) (op : LdstOp) :
    decodeSingle insn = some op ↔ ∃ i : SingleInsn, i.encode = insn ∧ i.inst.op = op := by
  rw [decodeSingle_eq]
  exact map_op_eq_some_iff (single_eq_some_iff insn) op

theorem decodePair_eq_some_iff (insn : BitVec 32) (op : LdstOp) :
    decodePair insn = some op ↔ ∃ i : PairFields, i.encode = insn ∧ i.inst.op = op := by
  rw [decodePair_eq]
  exact map_op_eq_some_iff (pair_eq_some_iff insn) op

/-- The two classes differ in bit 28. -/
theorem not_both_decoded (insn : BitVec 32) (single pair : LdstOp)
    (hsingle : decodeSingle insn = some single) : decodePair insn ≠ some pair := by
  intro hpair
  obtain ⟨i, hi, -⟩ := (decodeSingle_eq_some_iff insn single).mp hsingle
  obtain ⟨j, hj, -⟩ := (decodePair_eq_some_iff insn pair).mp hpair
  obtain ⟨-, hone, -⟩ := (i.encode_eq_iff insn).mp hi
  obtain ⟨-, htwo, -⟩ := (j.encode_eq_iff insn).mp hj
  have hbit₁ := congrArg (fun b => b.getLsbD 4) hone
  have hbit₂ := congrArg (fun b => b.getLsbD 3) htwo
  simp at hbit₁ hbit₂
  rw [hbit₁] at hbit₂
  cases hbit₂

/-- The decoders take a word for what it encodes. -/
structure DecodesExactly (insn : BitVec 32) : Prop where
  single : ∀ op, decodeSingle insn = some op ↔
    ∃ i : SingleInsn, i.encode = insn ∧ i.inst.op = op
  pair : ∀ op, decodePair insn = some op ↔
    ∃ i : PairFields, i.Allocated ∧ i.encode = insn ∧ i.inst.op = op
  apart : ∀ op₁ op₂, ¬ (decodeSingle insn = some op₁ ∧ decodePair insn = some op₂)

/-- A pair load of sign-extended words without allocation hint. -/
def NoAllocateLdpsw (insn : BitVec 32) : Prop :=
  insn.extractLsb' 30 2 = 0b01#2 ∧ insn.extractLsb' 25 5 = 0b10100#5 ∧
    insn.extractLsb' 23 2 = 0b00#2 ∧ insn.extractLsb' 22 1 = 0b1#1

instance (insn : BitVec 32) : Decidable (NoAllocateLdpsw insn) :=
  inferInstanceAs (Decidable (_ ∧ _))

theorem PairForm.idx_eq_zero_iff (form : PairForm) : form.idx = 0b00#2 ↔ form = .noAllocate := by
  cases form <;> decide

/-- The no-allocate LDPSW words are those of the fields that are not allocated. -/
theorem noAllocateLdpsw_encode_iff (i : PairFields) :
    NoAllocateLdpsw i.encode ↔ ¬ i.Allocated := by
  obtain ⟨hopc, hclass, hidx, hl, -⟩ := (i.encode_eq_iff i.encode).mp rfl
  unfold NoAllocateLdpsw PairFields.Allocated
  rw [hopc, hclass, hidx, hl, not_not, PairForm.idx_eq_zero_iff]
  constructor
  · rintro ⟨hopc, -, hform, hl⟩
    have hoperation := i.operation
    rw [hopc, hl, ← pairKind_eq_some_iff] at hoperation
    exact ⟨(Option.some.inj hoperation).symm, hform⟩
  · rintro ⟨hkind, hform⟩
    have hoperation := i.operation
    rw [hkind] at hoperation
    obtain ⟨hopc, hl⟩ := Prod.mk.inj (Option.some.inj hoperation)
    exact ⟨hopc.symm, rfl, hform, hl.symm⟩

/-- Such a word is accepted. -/
theorem decodePair_of_noAllocateLdpsw {insn : BitVec 32} (h : NoAllocateLdpsw insn) :
    ∃ op, decodePair insn = some op := by
  obtain ⟨hopc, hclass, hidx, hl⟩ := h
  let i : PairFields :=
    ⟨.ldpsw, 0b01, 0b1, rfl, .noAllocate, insn.extractLsb' 15 7, insn.extractLsb' 10 5,
      insn.extractLsb' 5 5, insn.extractLsb' 0 5⟩
  have hencode : i.encode = insn :=
    (i.encode_eq_iff insn).mpr ⟨hopc, hclass, hidx, hl, rfl, rfl, rfl, rfl⟩
  exact ⟨i.inst.op, (decodePair_eq_some_iff insn _).mpr ⟨i, hencode, rfl⟩⟩

/-- **Decoding.**  The decoders take every word for what it encodes, except LDPSW in the
no-allocate form, which encodes nothing. -/
theorem decodesExactly_iff (insn : BitVec 32) :
    DecodesExactly insn ↔ ¬ NoAllocateLdpsw insn := by
  constructor
  · intro h hbad
    obtain ⟨op, hop⟩ := decodePair_of_noAllocateLdpsw hbad
    obtain ⟨i, hallocated, rfl, -⟩ := (h.pair op).mp hop
    exact (noAllocateLdpsw_encode_iff i).mp hbad hallocated
  · intro hgood
    refine ⟨decodeSingle_eq_some_iff insn, fun op => ?_, fun op₁ op₂ h => ?_⟩
    · rw [decodePair_eq_some_iff]
      constructor
      · rintro ⟨i, rfl, hop⟩
        have hallocated : i.Allocated :=
          not_not.mp fun hnot => hgood ((noAllocateLdpsw_encode_iff i).mpr hnot)
        exact ⟨i, hallocated, rfl, hop⟩
      · rintro ⟨i, -, hencode, hop⟩
        exact ⟨i, hencode, hop⟩
    · exact not_both_decoded insn op₁ op₂ h.1 h.2

/-- The word `0x68400820` would be LDPSW of X0 and X2 at X1 in the no-allocate form: it is
decoded as a load of two sign-extended words, and encodes no allocated pair. -/
theorem no_allocate_ldpsw_accepted :
    decodePair 0x68400820#32 =
        some { load := true, sign := true, dst64 := true, size := 4, nregs := 2, rt := 0,
               rt2 := some 2, rn := 1, offset := 0, mode := .offset } ∧
      (∀ i : PairFields, i.Allocated → i.encode ≠ 0x68400820#32) ∧
      ¬ DecodesExactly 0x68400820#32 := by
  have hencodes (i : PairFields) (hallocated : i.Allocated) : i.encode ≠ 0x68400820#32 := by
    intro hencode
    refine (noAllocateLdpsw_encode_iff i).mp ?_ hallocated
    rw [hencode]
    decide
  refine ⟨by decide, hencodes, fun h => ?_⟩
  obtain ⟨op, hop⟩ := decodePair_of_noAllocateLdpsw (by decide : NoAllocateLdpsw 0x68400820#32)
  obtain ⟨i, hallocated, hencode, -⟩ := (h.pair op).mp hop
  exact hencodes i hallocated hencode

end Orchard.Ldst
