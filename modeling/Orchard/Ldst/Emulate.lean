/-
  Ldst/Emulate.lean --- `target/arm/emulate-ldst.c`.

  A data abort on a load or store with writeback, or on a register pair, reports
  the address but not the register, size or direction.  `arm_emulate_ldst`
  decodes the instruction word itself and performs the access through a callback.
  This file is the C code: the two decoders, the search for the physical address
  of element 0, the access loop and the writeback.
-/
import Orchard.Foundation.BitField

set_option autoImplicit false

namespace Orchard.Ldst

open Orchard.Foundation

/-! ## Decoded operations -/

/-- `ADDR_OFFSET`, `ADDR_PRE`, `ADDR_POST`. -/
inductive AddrMode where
  | offset
  | pre
  | post
  deriving DecidableEq, Repr, Inhabited

/-- `addr_modes`: the mode by the 2-bit field both classes share. -/
def addrModes (field : Nat) : AddrMode :=
  match field with
  | 1 => .post
  | 3 => .pre
  | _ => .offset

/-- `LdstOp`. -/
structure LdstOp where
  load : Bool
  /-- sign-extend loaded data -/
  sign : Bool
  /-- X (not W) destination -/
  dst64 : Bool
  /-- bytes per element -/
  size : Nat
  /-- 1, or 2 for a pair -/
  nregs : Nat
  rt : BitVec 5
  /-- -1 for a single register is `none` -/
  rt2 : Option (BitVec 5)
  rn : BitVec 5
  offset : BitVec 64
  mode : AddrMode
  deriving DecidableEq, Repr

/-- A 5-bit register field. -/
def regField (insn : BitVec 32) (start : Nat) : BitVec 5 :=
  (extract insn start 5).setWidth 5

/-- `single_width`: direction and extension by the opc field, as the `load`,
`sign` and `dst64` it sets. -/
def singleWidth (opc sizeLog2 : Nat) : Option (Bool × Bool × Bool) :=
  match opc with
  | 0 => some (false, false, sizeLog2 == 3)
  | 1 => some (true, false, sizeLog2 == 3)
  | 2 => if sizeLog2 = 3 then none else some (true, true, true)
  | _ => if 2 ≤ sizeLog2 then none else some (true, true, false)

/-- `decode_single`. -/
def decodeSingle (insn : BitVec 32) : Option LdstOp :=
  let sizeLog2 := (extract insn 30 2).toNat
  if insn &&& 0x3f200000#32 = 0x38000000#32 then
    (singleWidth (extract insn 22 2).toNat sizeLog2).map fun width =>
      { load := width.1
        sign := width.2.1
        dst64 := width.2.2
        size := 1 <<< sizeLog2
        nregs := 1
        rt := regField insn 0
        rt2 := none
        rn := regField insn 5
        offset := (sextract insn 12 9).signExtend 64
        mode := addrModes (extract insn 10 2).toNat }
  else none

/-- The opc switch of `decode_pair`, as the `size`, `sign` and `dst64` it sets. -/
def pairWidth (opc : Nat) (load : Bool) : Option (Nat × Bool × Bool) :=
  match opc with
  | 0 => some (4, false, false)
  | 1 => if load = false then none else some (4, true, true)
  | 2 => some (8, false, true)
  | _ => none

/-- `decode_pair`. -/
def decodePair (insn : BitVec 32) : Option LdstOp :=
  let load : Bool := (extract insn 22 1).toNat != 0
  if insn &&& 0x3e000000#32 = 0x28000000#32 then
    (pairWidth (extract insn 30 2).toNat load).map fun width =>
      { load := load
        sign := width.2.1
        dst64 := width.2.2
        size := width.1
        nregs := 2
        rt := regField insn 0
        rt2 := some (regField insn 10)
        rn := regField insn 5
        offset := (sextract insn 15 7).signExtend 64 * BitVec.ofNat 64 width.1
        mode := addrModes (extract insn 23 2).toNat }
  else none

/-- The decoders in the order `arm_emulate_ldst` tries them. -/
def decode (insn : BitVec 32) : Option LdstOp :=
  (decodeSingle insn).or (decodePair insn)

/-! ## Registers -/

/-- The part of `CPUARMState` the emulation touches; `xregs[31]` holds the
current SP. -/
structure Env where
  xregs : BitVec 5 → BitVec 64
  pc : BitVec 64

/-- `env->xregs[r] = val`. -/
def Env.setReg (env : Env) (r : BitVec 5) (val : BitVec 64) : Env :=
  { env with xregs := fun i => if i = r then val else env.xregs i }

/-- `data_reg`: register 31 reads as zero. -/
def dataReg (env : Env) (r : BitVec 5) : BitVec 64 :=
  if r = 31#5 then 0 else env.xregs r

/-- `set_data_reg`: register 31 discards. -/
def setDataReg (env : Env) (r : BitVec 5) (val : BitVec 64) : Env :=
  if r ≠ 31#5 then env.setReg r val else env

/-- `extend`. -/
def extend (op : LdstOp) (val : BitVec 64) : BitVec 64 :=
  let val := if op.sign then sextract val 0 (op.size * 8) else val
  if op.dst64 then val else (val.setWidth 32).setWidth 64

/-! ## Accesses -/

/-- The arguments of one call of the access callback; a load hands in 0. -/
structure Access where
  pa : BitVec 64
  val : BitVec 64
  size : Nat
  isWrite : Bool
  deriving DecidableEq, Repr

/-- `ARMLdstAccessFn`.  What it answers may depend on the calls made before: it
refuses, or accepts and leaves a value behind. -/
def AccessFn := List Access → Access → Option (BitVec 64)

/-- `va + i * op->size`. -/
def LdstOp.element (op : LdstOp) (addr : BitVec 64) (i : Nat) : BitVec 64 :=
  addr + BitVec.ofNat 64 (i * op.size)

/-- `first_element_pa`, from element `i` on. -/
def firstElementPaFrom (op : LdstOp) (va faultPa : BitVec 64) :
    Nat → Nat → Option (BitVec 64)
  | _, 0 => none
  | i, left + 1 =>
    if (op.element va i ^^^ faultPa) &&& 0xfff#64 ≠ 0#64 then
      firstElementPaFrom op va faultPa (i + 1) left
    else some (faultPa - BitVec.ofNat 64 (i * op.size))

/-- `first_element_pa`. -/
def firstElementPa (op : LdstOp) (va faultPa : BitVec 64) : Option (BitVec 64) :=
  firstElementPaFrom op va faultPa 0 op.nregs

/-- The first `nregs` entries of `regs`. -/
def LdstOp.regs (op : LdstOp) : List (BitVec 5) :=
  (op.rt :: op.rt2.toList).take op.nregs

/-- The loop of `do_access`: the calls made, and the values unless one was
refused. -/
def accessLoop (access : AccessFn) (env : Env) (op : LdstOp) (pa : BitVec 64) :
    List (BitVec 5) → Nat → List Access → List Access × Option (List (BitVec 64))
  | [], _, done => (done, some [])
  | r :: rest, i, done =>
    let call : Access :=
      { pa := op.element pa i
        val := if op.load then 0 else dataReg env r
        size := op.size
        isWrite := !op.load }
    match access done call with
    | none => (done ++ [call], none)
    | some val =>
      let tail := accessLoop access env op pa rest (i + 1) (done ++ [call])
      (tail.1, tail.2.map (val :: ·))

/-- What a call of the emulation leaves behind. -/
structure Outcome where
  done : Bool
  env : Env
  trace : List Access

/-- The registers a load sets, in order. -/
def setLoaded (op : LdstOp) (env : Env) (loaded : List (BitVec 5 × BitVec 64)) : Env :=
  loaded.foldl (fun env entry => setDataReg env entry.1 (extend op entry.2)) env

/-- `do_access`. -/
def doAccess (env : Env) (op : LdstOp) (pa : BitVec 64) (access : AccessFn) : Outcome :=
  match accessLoop access env op pa op.regs 0 [] with
  | (trace, none) => { done := false, env := env, trace := trace }
  | (trace, some vals) =>
    { done := true
      env := if op.load then setLoaded op env (op.regs.zip vals) else env
      trace := trace }

/-- The virtual address of element 0. -/
def LdstOp.va (op : LdstOp) (env : Env) : BitVec 64 :=
  if op.mode = .post then env.xregs op.rn else env.xregs op.rn + op.offset

/-- `arm_emulate_ldst`. -/
def armEmulateLdst (env : Env) (insn : BitVec 32) (faultPa : BitVec 64)
    (access : AccessFn) : Outcome :=
  match decode insn with
  | none => { done := false, env := env, trace := [] }
  | some op =>
    let base := env.xregs op.rn
    match firstElementPa op (op.va env) faultPa with
    | none => { done := false, env := env, trace := [] }
    | some pa =>
      let out := doAccess env op pa access
      if out.done = false then out
      else
        let written :=
          if op.mode ≠ .offset then out.env.setReg op.rn (base + op.offset) else out.env
        { out with env := { written with pc := written.pc + 4 } }

end Orchard.Ldst
