import Orchard.Foundation.Bytes

set_option autoImplicit false

/-!
# Guest memory and transfers that can fail

Guest-physical memory as a device sees it, with byte ranges that wrap at the end
of the address space.  A transfer either takes full effect or fails; a failed read
leaves whatever it leaves in the buffer, and a failed write may have landed in
part.
-/

namespace Orchard.Foundation

/-- Guest-physical memory. -/
abbrev GuestMemory := BitVec 64 → Byte

/-- The `n` bytes from `addr` on. -/
def readBytes (mem : GuestMemory) (addr : BitVec 64) (n : Nat) : List Byte :=
  (List.range n).map fun i => mem (addr + BitVec.ofNat 64 i)

/-- The memory after storing bytes from `addr` on. -/
def writeBytes (mem : GuestMemory) (addr : BitVec 64) (bytes : List Byte) : GuestMemory :=
  fun a => (bytes[(a - addr).toNat]?).getD (mem a)

@[simp] theorem readBytes_length (mem : GuestMemory) (addr : BitVec 64) (n : Nat) :
    (readBytes mem addr n).length = n := by
  simp [readBytes]

/-- A store changes no byte outside its range. -/
theorem writeBytes_of_outside (mem : GuestMemory) {addr a : BitVec 64} {bytes : List Byte}
    (h : bytes.length ≤ (a - addr).toNat) : writeBytes mem addr bytes a = mem a := by
  unfold writeBytes
  rw [List.getElem?_eq_none h]
  rfl

/-- A store is found inside its range. -/
theorem writeBytes_of_inside (mem : GuestMemory) (addr : BitVec 64) {bytes : List Byte} {i : Nat}
    (hlen : bytes.length ≤ 2 ^ 64) (hi : i < bytes.length) :
    some (writeBytes mem addr bytes (addr + BitVec.ofNat 64 i)) = bytes[i]? := by
  have hoff : (addr + BitVec.ofNat 64 i - addr).toNat = i := by
    rw [BitVec.add_comm, BitVec.add_sub_cancel, BitVec.toNat_ofNat]
    exact Nat.mod_eq_of_lt (by omega)
  rw [writeBytes, hoff, List.getElem?_eq_getElem hi, Option.getD_some]

/-- What becomes of a read. -/
inductive ReadOutcome where
  | ok
  /-- the bytes a failed read leaves in the buffer -/
  | failed (left : List Byte)

/-- What becomes of a write. -/
inductive WriteOutcome where
  | ok
  /-- which bytes a failed write stored -/
  | failed (landed : Nat → Bool)

/-- The transfer went through. -/
def ReadOutcome.isOk : ReadOutcome → Bool
  | .ok => true
  | .failed _ => false

@[inherit_doc ReadOutcome.isOk]
def WriteOutcome.isOk : WriteOutcome → Bool
  | .ok => true
  | .failed _ => false

/-- A read of `n` bytes: success, and the buffer. -/
def dmaRead (mem : GuestMemory) (addr : BitVec 64) (n : Nat) :
    ReadOutcome → Bool × List Byte
  | .ok => (true, readBytes mem addr n)
  | .failed left => (false, left)

/-- A write: success, and the memory. -/
def dmaWrite (mem : GuestMemory) (addr : BitVec 64) (bytes : List Byte) :
    WriteOutcome → Bool × GuestMemory
  | .ok => (true, writeBytes mem addr bytes)
  | .failed landed =>
    (false, fun a => if landed (a - addr).toNat then writeBytes mem addr bytes a else mem a)

@[simp] theorem dmaRead_fst (mem : GuestMemory) (addr : BitVec 64) (n : Nat)
    (out : ReadOutcome) : (dmaRead mem addr n out).1 = out.isOk := by
  cases out <;> rfl

@[simp] theorem dmaWrite_fst (mem : GuestMemory) (addr : BitVec 64) (bytes : List Byte)
    (out : WriteOutcome) : (dmaWrite mem addr bytes out).1 = out.isOk := by
  cases out <;> rfl

theorem dmaRead_of_isOk (mem : GuestMemory) (addr : BitVec 64) (n : Nat) {out : ReadOutcome}
    (h : out.isOk = true) : (dmaRead mem addr n out).2 = readBytes mem addr n := by
  cases out with
  | ok => rfl
  | failed left => cases h

theorem dmaWrite_of_isOk (mem : GuestMemory) (addr : BitVec 64) (bytes : List Byte)
    {out : WriteOutcome} (h : out.isOk = true) :
    (dmaWrite mem addr bytes out).2 = writeBytes mem addr bytes := by
  cases out with
  | ok => rfl
  | failed landed => cases h

/-- A write changes no byte outside its range, whatever becomes of it. -/
theorem dmaWrite_of_outside (mem : GuestMemory) {addr a : BitVec 64} {bytes : List Byte}
    (out : WriteOutcome) (h : bytes.length ≤ (a - addr).toNat) :
    (dmaWrite mem addr bytes out).2 a = mem a := by
  cases out with
  | ok => exact writeBytes_of_outside mem h
  | failed landed =>
    simp only [dmaWrite]
    rw [writeBytes_of_outside mem h, ite_self]

/-- Byte `i` of the write reaches the memory. -/
def WriteOutcome.lands : WriteOutcome → Nat → Bool
  | .ok, _ => true
  | .failed landed, i => landed i

/-- A write, byte by byte. -/
theorem dmaWrite_apply (mem : GuestMemory) (addr : BitVec 64) (bytes : List Byte)
    (out : WriteOutcome) (a : BitVec 64) :
    (dmaWrite mem addr bytes out).2 a =
      if out.lands (a - addr).toNat then writeBytes mem addr bytes a else mem a := by
  cases out with
  | ok => rfl
  | failed landed => rfl

/-- A write of one byte. -/
theorem dmaWrite_byte (mem : GuestMemory) (addr : BitVec 64) (b : Byte) (out : WriteOutcome)
    (a : BitVec 64) :
    (dmaWrite mem addr [b] out).2 a = if a = addr ∧ out.lands 0 = true then b else mem a := by
  rw [dmaWrite_apply]
  by_cases ha : a = addr
  · subst ha
    simp [writeBytes]
  · have hoff : [b].length ≤ (a - addr).toNat := by
      refine Nat.one_le_iff_ne_zero.2 fun hzero => ha ?_
      have hsub : a - addr = 0#64 := BitVec.eq_of_toNat_eq hzero
      rw [← BitVec.sub_add_cancel a addr, hsub, BitVec.zero_add]
    rw [writeBytes_of_outside mem hoff, ite_self, if_neg fun h => ha h.1]

end Orchard.Foundation
