/-
  Ldst/Architecture.lean --- the instructions themselves.

  What the A64 general-register loads and stores of the two emulated classes are:
  the encoding by fields, one named operation for each allocated combination of
  size and opc, and the effect on registers and memory.  Nothing here is taken from
  the emulation; `Ldst/Refinement.lean` compares the two.

  The encodings, most significant bit first:

      size(2) 111 0 00 opc(2) 0 imm9 idx(2) Rn(5) Rt(5)        one register
      opc(2)  101 0 0 idx(2) L imm7 Rt2(5) Rn(5) Rt(5)         a pair
-/
import Orchard.Ldst.Emulate

set_option autoImplicit false

namespace Orchard.Ldst

open Orchard.Foundation

/-! ## Operations -/

/-- The allocated operations; `X` and `W` name the destination width. -/
inductive Kind where
  | strb | ldrb | ldrsbX | ldrsbW
  | strh | ldrh | ldrshX | ldrshW
  | strW | ldrW | ldrsw
  | strX | ldrX
  | stpW | ldpW | ldpsw
  | stpX | ldpX
  deriving DecidableEq, Repr

namespace Kind

/-- Bytes of one element in memory. -/
def bytes : Kind → Nat
  | strb | ldrb | ldrsbX | ldrsbW => 1
  | strh | ldrh | ldrshX | ldrshW => 2
  | strW | ldrW | ldrsw | stpW | ldpW | ldpsw => 4
  | strX | ldrX | stpX | ldpX => 8

def isLoad : Kind → Bool
  | strb | strh | strW | strX | stpW | stpX => false
  | _ => true

/-- The loaded data is sign-extended. -/
def signed : Kind → Bool
  | ldrsbX | ldrsbW | ldrshX | ldrshW | ldrsw | ldpsw => true
  | _ => false

/-- Width in bits of the data register. -/
def regWidth : Kind → Nat
  | ldrsbX | ldrshX | ldrsw | strX | ldrX | ldpsw | stpX | ldpX => 64
  | _ => 32

/-- The value of a destination register after loading `data`: the data extended
to the register, and a W register zero-extended to the X register it names. -/
def loaded (k : Kind) (data : BitVec (k.bytes * 8)) : BitVec 64 :=
  (if k.signed then data.signExtend k.regWidth else data.setWidth k.regWidth).setWidth 64

end Kind

/-- One instruction. -/
structure Inst where
  kind : Kind
  rt : BitVec 5
  /-- the second register of a pair -/
  rt2 : Option (BitVec 5)
  rn : BitVec 5
  offset : BitVec 64
  index : AddrMode
  deriving DecidableEq, Repr

/-! ## Encodings -/

/-- The operation of a one-register encoding. -/
def singleKind (size opc : Nat) : Option Kind :=
  match size, opc with
  | 0, 0 => some .strb
  | 0, 1 => some .ldrb
  | 0, 2 => some .ldrsbX
  | 0, 3 => some .ldrsbW
  | 1, 0 => some .strh
  | 1, 1 => some .ldrh
  | 1, 2 => some .ldrshX
  | 1, 3 => some .ldrshW
  | 2, 0 => some .strW
  | 2, 1 => some .ldrW
  | 2, 2 => some .ldrsw
  | 3, 0 => some .strX
  | 3, 1 => some .ldrX
  | _, _ => none

/-- The operation of a pair encoding. -/
def pairKind (opc l : Nat) : Option Kind :=
  match opc, l with
  | 0, 0 => some .stpW
  | 0, 1 => some .ldpW
  | 1, 1 => some .ldpsw
  | 2, 0 => some .stpX
  | 2, 1 => some .ldpX
  | _, _ => none

/-- The addressing form of an index field. -/
def indexForm (idx : BitVec 2) : AddrMode :=
  if idx = 0b01#2 then .post else if idx = 0b11#2 then .pre else .offset

/-- A one-register load or store with a 9-bit offset: unscaled, post-indexed,
unprivileged or pre-indexed. -/
def single (insn : BitVec 32) : Option Inst :=
  if insn.extractLsb' 24 6 = 0b111000#6 ∧ insn.extractLsb' 21 1 = 0#1 then
    (singleKind (insn.extractLsb' 30 2).toNat (insn.extractLsb' 22 2).toNat).map fun kind =>
      { kind := kind
        rt := insn.extractLsb' 0 5
        rt2 := none
        rn := insn.extractLsb' 5 5
        offset := (insn.extractLsb' 12 9).signExtend 64
        index := indexForm (insn.extractLsb' 10 2) }
  else none

/-- A pair: no-allocate, post-indexed, with an offset or pre-indexed.  The
immediate counts elements.  The no-allocate form of `ldpsw`, which is not allocated, is read
like the others; `Ldst/Encodings.lean` sets it apart. -/
def pair (insn : BitVec 32) : Option Inst :=
  if insn.extractLsb' 25 5 = 0b10100#5 then
    (pairKind (insn.extractLsb' 30 2).toNat (insn.extractLsb' 22 1).toNat).map fun kind =>
      { kind := kind
        rt := insn.extractLsb' 0 5
        rt2 := some (insn.extractLsb' 10 5)
        rn := insn.extractLsb' 5 5
        offset := (insn.extractLsb' 15 7).signExtend 64 * BitVec.ofNat 64 kind.bytes
        index := indexForm (insn.extractLsb' 23 2) }
  else none

/-- The instruction a word encodes, if it is one of the two classes. -/
def instruction (insn : BitVec 32) : Option Inst := (single insn).or (pair insn)

/-! ## Effect -/

/-- An address translation: a map of 4 KiB pages, so linear inside each. -/
structure Translation where
  frame : BitVec 52 → BitVec 52

/-- The physical address of a virtual one. -/
def Translation.apply (T : Translation) (va : BitVec 64) : BitVec 64 :=
  T.frame (va.extractLsb' 12 52) ++ va.extractLsb' 0 12

namespace Inst

/-- The data registers, in element order. -/
def regs (i : Inst) : List (BitVec 5) := i.rt :: i.rt2.toList

/-- The address of element 0. -/
def address (i : Inst) (env : Env) : BitVec 64 :=
  match i.index with
  | .post => env.xregs i.rn
  | _ => env.xregs i.rn + i.offset

/-- The virtual address of element `n`. -/
def elementAddress (i : Inst) (env : Env) (n : Nat) : BitVec 64 :=
  i.address env + BitVec.ofNat 64 (n * i.kind.bytes)

/-- The value an element of a store carries: register 31 is the zero register. -/
def stored (i : Inst) (env : Env) (r : BitVec 5) : BitVec 64 :=
  if i.kind.isLoad then 0 else if r = 31#5 then 0 else env.xregs r

/-- The accesses the instruction makes: one for each element, in order. -/
def accesses (i : Inst) (T : Translation) (env : Env) : List Access :=
  i.regs.mapIdx fun n r =>
    { pa := T.apply (i.elementAddress env n)
      val := i.stored env r
      size := i.kind.bytes
      isWrite := !i.kind.isLoad }

/-- The registers afterwards, given the data that was loaded. -/
def after (i : Inst) (env : Env) (data : List (BitVec (i.kind.bytes * 8))) : Env :=
  { pc := env.pc + 4
    xregs := fun r =>
      if i.index ≠ .offset ∧ r = i.rn then env.xregs i.rn + i.offset
      else if i.kind.isLoad ∧ r ≠ 31#5 then
        (((i.regs.zip data).lookup r).map i.kind.loaded).getD (env.xregs r)
      else env.xregs r }

/-- The forms the architecture leaves constrained unpredictable are excluded:
writeback into a base that is also a data register, and a pair loaded into one
register. -/
def Predictable (i : Inst) : Prop :=
  (i.index ≠ .offset → i.rn ≠ 31#5 → i.rn ∉ i.regs) ∧
    (i.kind.isLoad = true → i.rt2 ≠ some i.rt)

instance (i : Inst) : Decidable i.Predictable := inferInstanceAs (Decidable (_ ∧ _))

end Inst

end Orchard.Ldst
