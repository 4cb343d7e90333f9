/-
  Bdif/CommandFrame.lean --- which bytes of guest memory a block command can change.

  A command stores its status byte where the descriptor says, and a read stores its
  data.  All exits of `vblk_cmd` share the store of the status byte, also the one taken
  when the descriptor could not be fetched: the address is then whatever the failed
  transfer left on the stack.
-/
import Orchard.Bdif.BlockStore
import Orchard.Foundation.BitField

set_option autoImplicit false

namespace Orchard.Bdif

open Orchard.Foundation

/-- The command gets its data from the backend. -/
structure ReadAtBackend (mem : GuestMemory) (image : List Byte) (gpAddr : BitVec 64)
    (out : Outcomes) : Prop where
  sectorLen : (reqAt mem gpAddr).sector.len = 16
  sector : out.sector.isOk = true
  dataLen : (reqAt mem gpAddr).data.len ≤ vblkMaxLen
  flags : (reqAt mem gpAddr).data.flags = vblkDataFlagsRead
  backend : out.backend = true
  inside : offsetAt mem (reqAt mem gpAddr) + (reqAt mem gpAddr).data.len ≤ image.length

/-- What a command may change: the status byte its descriptor names, and the data buffer of
a read.  Without a descriptor, nothing. -/
structure Confined (mem : GuestMemory) (image : List Byte) (gpAddr : BitVec 64)
    (out : Outcomes) : Prop where
  fetched : out.descriptor.isOk = true → ∀ a,
    (vblkCmd mem image gpAddr out).2 a ≠ mem a →
      a = (reqAt mem gpAddr).retval.addr ∨
      (ReadAtBackend mem image gpAddr out ∧ (reqAt mem gpAddr).data.addr.toNat ≤ a.toNat ∧
        a.toNat < (reqAt mem gpAddr).data.addr.toNat + (reqAt mem gpAddr).data.len)
  unfetched : out.descriptor.isOk = false → (vblkCmd mem image gpAddr out).2 = mem

/-- The descriptor could not be fetched, and the status byte goes to the address in what
the transfer left. -/
def StrayStatus (mem : GuestMemory) (out : Outcomes) : Prop :=
  ∃ left, out.descriptor = .failed left ∧ out.status.lands 0 = true ∧
    mem (parseReq left).retval.addr ≠ vblkRetFailed

/-- A data buffer that runs past the end of the address space: a byte of it lands at the
start. -/
def WrapsAround (mem : GuestMemory) (image : List Byte) (gpAddr : BitVec 64) (out : Outcomes) :
    Prop :=
  let req := reqAt mem gpAddr
  out.descriptor.isOk = true ∧ ReadAtBackend mem image gpAddr out ∧
    ∃ i < req.data.len, 2 ^ 64 ≤ req.data.addr.toNat + i ∧ out.dataWrite.lands i = true ∧
      image[offsetAt mem req + i]? ≠ some (mem (req.data.addr + BitVec.ofNat 64 i)) ∧
      req.data.addr + BitVec.ofNat 64 i ≠ req.retval.addr

section Command

variable {mem : GuestMemory} {image : List Byte} {gpAddr : BitVec 64} {out : Outcomes}

/-! ## Guest memory before the status byte -/

/-- The guest memory after the data of a read. -/
def memAfterData (mem : GuestMemory) (image : List Byte) (req : VblkReq) (off : Nat)
    (out : Outcomes) : GuestMemory :=
  (dmaWrite mem req.data.addr ((image.drop off).take req.data.len) out.dataWrite).2

theorem vblkTransfer_mem (mem : GuestMemory) (image : List Byte) (req : VblkReq) (off : Nat)
    (out : Outcomes) :
    (vblkTransfer mem image req off out).retAddr = req.retval.addr ∧
      (vblkTransfer mem image req off out).mem =
        if req.data.flags = vblkDataFlagsRead ∧ out.backend = true ∧
          off + req.data.len ≤ image.length then memAfterData mem image req off out else mem := by
  unfold vblkTransfer
  by_cases hread : req.data.flags = vblkDataFlagsRead
  · simp only [hread, if_true, true_and, blkPread]
    by_cases hinside : out.backend = true ∧ off + req.data.len ≤ image.length
    · rw [if_pos hinside, if_pos hinside]
      exact ⟨rfl, rfl⟩
    · rw [if_neg hinside, if_neg hinside]
      exact ⟨rfl, rfl⟩
  · simp only [hread, if_false, false_and]
    -- a write to the disk, or unknown flags
    split
    · split
      · exact ⟨rfl, rfl⟩
      · split <;> exact ⟨rfl, rfl⟩
    · exact ⟨rfl, rfl⟩

theorem vblkRun_unfetched {left : List Byte} (h : out.descriptor = .failed left) :
    vblkRun mem image gpAddr out = vblkFailed mem image (parseReq left) := by
  simp [vblkRun, h, dmaRead]

/-- With the descriptor fetched, the status byte goes where it says, and the memory has
changed only by the data of a read. -/
theorem vblkRun_fetched (mem : GuestMemory) (image : List Byte) (gpAddr : BitVec 64)
    (h : out.descriptor.isOk = true) :
    (vblkRun mem image gpAddr out).retAddr = (reqAt mem gpAddr).retval.addr ∧
      ((ReadAtBackend mem image gpAddr out ∧
          (vblkRun mem image gpAddr out).mem =
            memAfterData mem image (reqAt mem gpAddr) (offsetAt mem (reqAt mem gpAddr)) out) ∨
        (¬ReadAtBackend mem image gpAddr out ∧ (vblkRun mem image gpAddr out).mem = mem)) := by
  have hrun := progress_vblkRun mem image gpAddr out
  generalize vblkRun mem image gpAddr out = result at hrun ⊢
  cases hrun with
  | unfetched descriptor =>
    rw [descriptor] at h
    cases h
  | refused descriptor why =>
    refine ⟨rfl, .inr ⟨fun hread => ?_, rfl⟩⟩
    rcases why with hlen | hsector | hmax
    · exact hlen hread.sectorLen
    · exact Bool.noConfusion (hread.sector.symm.trans hsector)
    · exact Nat.not_le_of_lt hmax hread.dataLen
  | transfer descriptor sector sectorLen dataLen =>
    obtain ⟨haddr, hmem⟩ := vblkTransfer_mem mem image (reqAt mem gpAddr)
      (offsetAt mem (reqAt mem gpAddr)) out
    refine ⟨haddr, ?_⟩
    split at hmem
    · rename_i hread
      exact .inl ⟨⟨sectorLen, sector, dataLen, hread.1, hread.2.1, hread.2.2⟩, hmem⟩
    · rename_i hread
      exact .inr ⟨fun hr => hread ⟨hr.flags, hr.backend, hr.inside⟩, hmem⟩

/-- The bytes the data of a read changes. -/
theorem memAfterData_ne_iff {req : VblkReq} {off : Nat}
    (hinside : off + req.data.len ≤ image.length) (a : BitVec 64) :
    memAfterData mem image req off out a ≠ mem a ↔
      (a - req.data.addr).toNat < req.data.len ∧
        out.dataWrite.lands (a - req.data.addr).toNat = true ∧
        image[off + (a - req.data.addr).toNat]? ≠ some (mem a) := by
  rw [memAfterData, dmaWrite_apply, writeBytes, List.getElem?_take, List.getElem?_drop]
  generalize (a - req.data.addr).toNat = i
  by_cases hlt : i < req.data.len
  · rw [if_pos hlt, List.getElem?_eq_getElem (show off + i < image.length by omega),
      Option.getD_some]
    by_cases hlands : out.dataWrite.lands i = true
    · simp [hlt, hlands]
    · simp [hlands]
  · simp [hlt]

/-- The memory after a command. -/
theorem vblkCmd_mem (a : BitVec 64) :
    (vblkCmd mem image gpAddr out).2 a =
      if a = (vblkRun mem image gpAddr out).retAddr ∧ out.status.lands 0 = true then
        (vblkRun mem image gpAddr out).ret
      else (vblkRun mem image gpAddr out).mem a :=
  dmaWrite_byte _ _ _ _ _

/-! ## The two ways out -/

theorem confined_unfetched {left : List Byte} (h : out.descriptor = .failed left) :
    Confined mem image gpAddr out ↔ ¬StrayStatus mem out := by
  have hmem (a : BitVec 64) : (vblkCmd mem image gpAddr out).2 a =
      if a = (parseReq left).retval.addr ∧ out.status.lands 0 = true then vblkRetFailed
      else mem a := by
    rw [vblkCmd_mem, vblkRun_unfetched h]
    rfl
  constructor
  · rintro hconf ⟨left', hleft, hlands, hne⟩
    obtain rfl : left = left' := ReadOutcome.failed.inj (h.symm.trans hleft)
    have hsame := congrFun (hconf.unfetched (by rw [h]; rfl)) (parseReq left).retval.addr
    rw [hmem, if_pos ⟨rfl, hlands⟩] at hsame
    exact hne hsame.symm
  · intro hstray
    have hnot : out.descriptor.isOk = false := by rw [h]; rfl
    refine ⟨fun hok => Bool.noConfusion (hnot.symm.trans hok), fun _ => funext fun a => ?_⟩
    rw [hmem]
    split
    · rename_i hat
      obtain ⟨rfl, hlands⟩ := hat
      by_contra hne
      exact hstray ⟨left, h, hlands, fun heq => hne heq.symm⟩
    · rfl

/-- With the descriptor fetched, only the bytes behind the status byte's address count. -/
theorem confined_iff_of_fetched (h : out.descriptor.isOk = true) :
    Confined mem image gpAddr out ↔ ∀ a, a ≠ (reqAt mem gpAddr).retval.addr →
      (vblkRun mem image gpAddr out).mem a ≠ mem a →
        ReadAtBackend mem image gpAddr out ∧ (reqAt mem gpAddr).data.addr.toNat ≤ a.toNat ∧
          a.toNat < (reqAt mem gpAddr).data.addr.toNat + (reqAt mem gpAddr).data.len := by
  have hmem {a : BitVec 64} (hne : a ≠ (reqAt mem gpAddr).retval.addr) :
      (vblkCmd mem image gpAddr out).2 a = (vblkRun mem image gpAddr out).mem a := by
    rw [vblkCmd_mem, (vblkRun_fetched mem image gpAddr h).1, if_neg fun hat => hne hat.1]
  constructor
  · intro hconf a hne hchanged
    rw [← hmem hne] at hchanged
    exact (hconf.fetched h a hchanged).resolve_left hne
  · intro hconf
    refine ⟨fun _ a hchanged => ?_, fun hnot => Bool.noConfusion (h.symm.trans hnot)⟩
    by_cases hne : a = (reqAt mem gpAddr).retval.addr
    · exact .inl hne
    · rw [hmem hne] at hchanged
      exact .inr (hconf a hne hchanged)

theorem confined_fetched (h : out.descriptor.isOk = true) :
    Confined mem image gpAddr out ↔ ¬WrapsAround mem image gpAddr out := by
  rw [confined_iff_of_fetched h]
  rcases (vblkRun_fetched mem image gpAddr h).2 with ⟨hread, hmem⟩ | ⟨hread, hmem⟩
  · have hlen : (reqAt mem gpAddr).data.len ≤ vblkMaxLen := hread.dataLen
    have hmax : vblkMaxLen < 2 ^ 64 := by decide
    have hbase := (reqAt mem gpAddr).data.addr.isLt
    simp only [hmem, memAfterData_ne_iff hread.inside, hread, true_and]
    constructor
    · rintro hconf ⟨-, -, i, hi, hwrap, hlands, hne, haddr⟩
      -- the byte lies below the buffer
      have hoff := (toNat_sub_eq_iff _ _ (show i < 2 ^ 64 by omega)).2
        (rfl : (reqAt mem gpAddr).data.addr + BitVec.ofNat 64 i = _)
      have hrange := hconf _ haddr ⟨by rw [hoff]; exact hi, by rw [hoff]; exact hlands,
        by rw [hoff]; exact hne⟩
      rw [BitVec.toNat_add, BitVec.toNat_ofNat] at hrange
      omega
    · rintro hwrap a haddr ⟨hi, hlands, hne⟩
      have ha := (toNat_sub_eq_iff a (reqAt mem gpAddr).data.addr (by omega)).1 rfl
      generalize (a - (reqAt mem gpAddr).data.addr).toNat = i at hi hlands hne ha
      have hfits : (reqAt mem gpAddr).data.addr.toNat + i < 2 ^ 64 := by
        by_contra hge
        rw [ha] at haddr hne
        exact hwrap ⟨h, hread, i, hi, Nat.le_of_not_lt hge, hlands, hne, haddr⟩
      rw [ha, toNat_add_ofNat hfits]
      omega
  · refine iff_of_true (fun a _ hchanged => absurd (congrFun hmem a) hchanged) ?_
    rintro ⟨-, hread', -⟩
    exact hread hread'

end Command

/-- **A command changes only what its descriptor allows exactly when its status byte does
not stray and its data does not wrap around.** -/
theorem confined_iff (mem : GuestMemory) (image : List Byte) (gpAddr : BitVec 64)
    (out : Outcomes) :
    Confined mem image gpAddr out ↔
      ¬StrayStatus mem out ∧ ¬WrapsAround mem image gpAddr out := by
  cases hdesc : out.descriptor with
  | ok =>
    have hok : out.descriptor.isOk = true := by rw [hdesc]; rfl
    rw [confined_fetched hok, iff_and_self]
    rintro - ⟨left, hleft, -⟩
    rw [hdesc] at hleft
    cases hleft
  | failed left =>
    rw [confined_unfetched hdesc, iff_self_and]
    rintro - ⟨hok, -⟩
    rw [hdesc] at hok
    cases hok

/-- One gigabyte of RAM from 0x70000000 on, with a pointer to 0x70001000 at its end. -/
def ramEndingInPointer : GuestMemory :=
  writeBytes (fun _ => 0) 0xAFFFFFF8#64 [0x00, 0x10, 0x00, 0x70, 0, 0, 0, 0]

/-- A descriptor of which only the first 40 bytes lie in the RAM: the fetch fails, and the
buffer holds them and zeros. -/
def straddlingFetch : Outcomes where
  descriptor := .failed (readBytes ramEndingInPointer 0xAFFFFFD8#64 40 ++ List.replicate 8 0)

/-- A command whose descriptor runs past the end of RAM overwrites a byte of the guest. -/
theorem failed_fetch_stores_status :
    (vblkCmd ramEndingInPointer [] 0xAFFFFFD8#64 straddlingFetch).2 0x70001000#64 = 1 ∧
      ramEndingInPointer 0x70001000#64 = 0 ∧
      ¬Confined ramEndingInPointer [] 0xAFFFFFD8#64 straddlingFetch := by
  have hafter :
      (vblkCmd ramEndingInPointer [] 0xAFFFFFD8#64 straddlingFetch).2 0x70001000#64 = 1 := by
    decide
  have hbefore : ramEndingInPointer 0x70001000#64 = 0 := by decide
  refine ⟨hafter, hbefore, fun h => ?_⟩
  rw [h.unfetched rfl, hbefore] at hafter
  cases hafter

end Orchard.Bdif
