/-
  Hvc/Service.lean --- `hw/vmapple/hvc.c`, the Apple CPU service calls.

  The guest kernel asks its hypervisor for pointer-authentication keys.  The boot
  core's SET_INITIAL_STATE records the keys firmware left in it, any other core's
  installs them; every other call of the service succeeds and changes nothing but
  x0, except that GET_DEFAULT_KEYS hands out the two process ids drawn at reset.
  The recorded keys and the ids are global: all cores and all boots share them.
-/
import Orchard.Foundation.BitField
import Orchard.Foundation.Bytes

set_option autoImplicit false

namespace Orchard.Hvc

open Orchard.Foundation

/-! ## State -/

/-- `ARMPACKey`. -/
structure PacKey where
  lo : BitVec 64
  hi : BitVec 64
  deriving DecidableEq, Repr

/-- The five pointer-authentication keys of a core. -/
structure Keys where
  apia : PacKey
  apib : PacKey
  apda : PacKey
  apdb : PacKey
  apga : PacKey
  deriving DecidableEq, Repr

/-- The part of `CPUARMState` the calls read and write. -/
structure Env where
  /-- `is_a64` -/
  a64 : Bool
  xregs : BitVec 5 → BitVec 64
  regs : Fin 16 → BitVec 32
  keys : Keys

/-- `boot_keys`. -/
structure BootKeys where
  valid : Bool
  keys : Keys

/-- A machine whose cores are named by `ι`. -/
structure Machine (ι : Type) where
  cores : ι → Env
  bootKeys : BootKeys
  defaultPids : BitVec 64 × BitVec 64
  ram : List Byte
  /-- `guest_counter_hz` -/
  counterHz : BitVec 64

/-! ## The device-tree timebase -/

def appleTimebaseHz : Nat := 24000000
def adtNameLen : Nat := 32
def dtScanBytes : Nat := 2 * 1024 * 1024 * 1024

/-- `timebase-frequency`, padded with NULs to the length of a property name. -/
def timebaseName : List Byte :=
  [0x74, 0x69, 0x6d, 0x65, 0x62, 0x61, 0x73, 0x65, 0x2d, 0x66, 0x72, 0x65, 0x71, 0x75, 0x65,
    0x6e, 0x63, 0x79, 0, 0, 0, 0, 0, 0, 0, 0, 0, 0, 0, 0, 0, 0]

/-- `memmem`: where the needle first occurs. -/
def memmem (needle : List Byte) : List Byte → Option Nat
  | [] => if needle.isPrefixOf [] then some 0 else none
  | b :: rest =>
    if needle.isPrefixOf (b :: rest) then some 0
    else (memmem needle rest).map (· + 1)

/-- `patch_timebase_record` for the record at an offset. -/
def patchTimebaseRecord (ram : List Byte) (rec : Nat) (hz : BitVec 64) : List Byte × Bool :=
  let len := leNat ((ram.drop (rec + adtNameLen)).take 4)
  let val := leNat ((ram.drop (rec + adtNameLen + 4)).take 8)
  if len % 2 ^ 31 ≠ 8 ∨ val ≠ appleTimebaseHz then (ram, false)
  else (patch ram (rec + adtNameLen + 4) (toLe 8 hz.toNat), true)

/-- The loop of `fix_dt_timebase` from an offset on, with the number of records
patched.  Every round moves the offset, so `limit + 1` rounds suffice. -/
def patchFrom (hz : BitVec 64) (limit : Nat) : Nat → Nat → List Byte → List Byte × Nat
  | 0, _, ram => (ram, 0)
  | rounds + 1, start, ram =>
    match memmem timebaseName ((ram.take limit).drop start) with
    | none => (ram, 0)
    | some skip =>
      let patched := patchTimebaseRecord ram (start + skip) hz
      let rest := patchFrom hz limit rounds (start + skip + 1) patched.1
      (rest.1, rest.2 + patched.2.toNat)

/-- `fix_dt_timebase`.  The board's RAM is larger than a record, so the end of the
window does not lie before its start. -/
def fixDtTimebase (ram : List Byte) (hz : BitVec 64) : List Byte :=
  let limit := min ram.length dtScanBytes - (adtNameLen + 4 + 8)
  if hz.toNat = appleTimebaseHz then ram else (patchFrom hz limit (limit + 1) 0 ram).1

/-! ## The calls -/

section Calls

variable {ι : Type} [DecidableEq ι]

/-- The machine with one core changed. -/
def setCore (m : Machine ι) (c : ι) (env : Env) : Machine ι :=
  { m with cores := Function.update m.cores c env }

/-- `keys_save`. -/
def keysSave (m : Machine ι) (c : ι) : Machine ι :=
  { m with bootKeys := { valid := true, keys := (m.cores c).keys } }

/-- `keys_install`. -/
def keysInstall (m : Machine ι) (c : ι) : Machine ι :=
  setCore m c { m.cores c with keys := m.bootKeys.keys }

/-- `set_initial_state`; `first` is `first_cpu`. -/
def setInitialState (first : ι) (m : Machine ι) (c : ι) : Machine ι :=
  if c = first then keysSave { m with ram := fixDtTimebase m.ram m.counterHz } c
  else if m.bootKeys.valid then keysInstall m c
  else m

def vmappleCpuServiceBase : BitVec 32 := 0xc1000000#32
def vmappleCpuServiceCount : BitVec 32 := 0x10000#32
def vmapplePacSetInitialState : BitVec 32 := 0x00#32
def vmapplePacGetDefaultKeys : BitVec 32 := 0x01#32

/-- The function id of a core's call: the low half of x0. -/
def functionId (m : Machine ι) (c : ι) : BitVec 32 := ((m.cores c).xregs 0).setWidth 32

/-- The machine with a register of a core written. -/
def setReg (m : Machine ι) (c : ι) (r : BitVec 5) (value : BitVec 64) : Machine ι :=
  setCore m c { m.cores c with xregs := Function.update (m.cores c).xregs r value }

/-- `vmapple_hvc`: whether the call is one of the service, and the machine after it. -/
def vmappleHvc (first : ι) (m : Machine ι) (c : ι) : Bool × Machine ι :=
  let fid := functionId m c
  if vmappleCpuServiceCount ≤ fid - vmappleCpuServiceBase then (false, m)
  else
    let served :=
      if fid &&& 0xffff#32 = vmapplePacSetInitialState then setInitialState first m c
      else if fid &&& 0xffff#32 = vmapplePacGetDefaultKeys then
        setReg (setReg m c 2 m.defaultPids.1) c 3 m.defaultPids.2
      else m
    (true, setReg served c 0 0)

/-- `arm_smccc_dispatch` with the handler `arm_smccc_set_handler` left. -/
def armSmcccDispatch (handler : Option (Machine ι → ι → Bool × Machine ι)) (m : Machine ι)
    (c : ι) : Bool × Machine ι :=
  match handler with
  | none => (false, m)
  | some fn => fn m c

/-- The parameters of a PSCI call. -/
def psciParam (env : Env) (i : Fin 4) : BitVec 64 :=
  if env.a64 then env.xregs (BitVec.ofNat 5 i)
  else (env.regs (i.castLE (by decide))).setWidth 64

/-- `arm_handle_psci_call`, where `psci` is its switch over the PSCI functions. -/
def armHandlePsciCall (handler : Option (Machine ι → ι → Bool × Machine ι))
    (psci : Machine ι → ι → (Fin 4 → BitVec 64) → Machine ι) (m : Machine ι) (c : ι) :
    Machine ι :=
  let param := psciParam (m.cores c)
  if (m.cores c).a64 = true ∧ (armSmcccDispatch handler m c).1 = true then
    (armSmcccDispatch handler m c).2
  else psci m c param

/-- Both ids are nonzero. -/
def pidsAccepted (pids : BitVec 64 × BitVec 64) : Bool := pids.1 != 0 && pids.2 != 0

/-- `vmapple_hvc_reset` with the random pairs it draws; `none` when it is still drawing
after all of them. -/
def vmappleHvcReset (m : Machine ι) (draws : List (BitVec 64 × BitVec 64)) :
    Option (Machine ι) :=
  (draws.find? pidsAccepted).map fun pids =>
    { m with bootKeys := { m.bootKeys with valid := false }, defaultPids := pids }

end Calls

end Orchard.Hvc
