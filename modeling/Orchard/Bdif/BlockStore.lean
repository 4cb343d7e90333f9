/-
  Bdif/BlockStore.lean --- the ROOT and AUX block devices as persistent stores.

  A store is its initial image with a list of writes applied.  The writes are read
  off the guest memory a command finds; whether one counts is decided by the status
  of its command.  The main theorem is about every run of the device: block
  commands, USB traffic, memory changes and resets in any order, every transfer with
  any outcome.

  A step is looked at through the register writes it makes.  They are the guest's own,
  and those of a received frame that is delivered to the device's registers.
-/
import Orchard.Bdif.ReceiveQueue

set_option autoImplicit false

namespace Orchard.Bdif

open Orchard.Foundation

/-! ## The abstract store -/

/-- Bytes to be stored at an offset of an image. -/
structure Write where
  off : Nat
  bytes : List Byte
  deriving DecidableEq, Repr

/-- An image after a list of writes. -/
def applyWrites (image : List Byte) (writes : List Write) : List Byte :=
  writes.foldl (fun before w => patch before w.off w.bytes) image

theorem applyWrites_append (image : List Byte) (front back : List Write) :
    applyWrites image (front ++ back) = applyWrites (applyWrites image front) back :=
  List.foldl_append

theorem applyWrites_singleton (image : List Byte) (w : Write) :
    applyWrites image [w] = patch image w.off w.bytes := rfl

/-! ## Commands -/

/-- The two block devices. -/
inductive Disk where
  | root
  | aux
  deriving DecidableEq, Repr

def BdifState.image (s : BdifState) : Disk → List Byte
  | .root => s.root
  | .aux => s.aux

/-- A write to `REG_CMD` of a block device. -/
structure Command where
  disk : Disk
  gpAddr : BitVec 64
  out : Outcomes

/-- A write to a register, with the state it is made in. -/
structure RegisterWrite where
  before : BdifState
  offset : BitVec 64
  value : BitVec 64
  out : Outcomes

/-- The device behind the write. -/
def RegisterWrite.after (w : RegisterWrite) : BdifState :=
  (bdifWrite w.before w.offset w.value w.out).1

/-- The block command a write is, if any. -/
def RegisterWrite.command (w : RegisterWrite) : Option Command :=
  if regOf w.offset = regCmd then
    if devidOf w.offset = devidRoot then some ⟨.root, w.value, w.out⟩
    else if devidOf w.offset = devidAux then some ⟨.aux, w.value, w.out⟩
    else none
  else none

/-- The write to a register that an access of a transfer is, if any. -/
def Dispatch.registerWrite (inner : Nat → Outcomes) (d : Dispatch) (x : Access) :
    Option RegisterWrite :=
  x.register.map fun offset =>
    ⟨d.state, offset, BitVec.ofNat 64 (leNat (d.bytes x)), inner x.pos⟩

/-- The register writes of a step, in order: the guest's, or those a received frame is
delivered with. -/
def registerWrites (s : BdifState) : Act → List RegisterWrite
  | .write offset value out => [⟨s, offset, value, out⟩]
  | .receive chunk out inner =>
    if Reenters s (.receive chunk out inner) then
      let addr := s.usb.rx.addr
      let t := s.append chunk
      observe (fun d x => (dispatch out inner addr d x, (d.registerWrite inner x).toList))
        { state := t, array := t.usb.input, events := [] }
        (accesses addr (headLen t.usb.input))
    else []
  | _ => []

/-- The request in guest memory. -/
def reqAt (mem : GuestMemory) (gpAddr : BitVec 64) : VblkReq := parseReq (readBytes mem gpAddr 48)

/-- The byte offset a request names. -/
def offsetAt (mem : GuestMemory) (req : VblkReq) : Nat :=
  512 * parseSector (readBytes mem req.sector.addr 16)

/-- The status of a command, the byte it hands to the status transfer. -/
def status (s : BdifState) (c : Command) : Byte :=
  (vblkRun s.mem (s.image c.disk) c.gpAddr c.out).ret

/-- The write a command asks for, if its flags say so. -/
def requestedWrite (s : BdifState) (c : Command) : Option Write :=
  let req := reqAt s.mem c.gpAddr
  if req.data.flags = vblkDataFlagsWrite then
    some ⟨offsetAt s.mem req, readBytes s.mem req.data.addr req.data.len⟩
  else none

/-- The writes to a disk that a register write makes, if it counts. -/
def diskWrites (counts : BdifState → Command → Bool) (d : Disk) (w : RegisterWrite) :
    List Write :=
  match w.command with
  | some c =>
    if c.disk = d ∧ counts w.before c = true then (requestedWrite w.before c).toList else []
  | none => []

/-- The writes of one step that count for a disk. -/
def stepWrites (counts : BdifState → Command → Bool) (d : Disk) (s : BdifState) (a : Act) :
    List Write :=
  (registerWrites s a).flatMap (diskWrites counts d)

/-- The writes of a run that count for a disk, in order. -/
def writes (counts : BdifState → Command → Bool) (d : Disk) (s : BdifState)
    (actions : List Act) : List Write :=
  observe (fun t a => ((step t a).1, stepWrites counts d t a)) s actions

/-- The command's status is success. -/
def succeeds (s : BdifState) (c : Command) : Bool := status s c == vblkRetSuccess

/-- A request the device has to refuse, or a failed transfer of it. -/
def Refused (s : BdifState) (c : Command) : Prop :=
  let req := reqAt s.mem c.gpAddr
  c.out.descriptor.isOk = false ∨
    req.sector.len ≠ 16 ∨
    c.out.sector.isOk = false ∨
    vblkMaxLen < req.data.len ∨
    (req.data.flags ≠ vblkDataFlagsRead ∧ req.data.flags ≠ vblkDataFlagsWrite) ∨
    (req.data.flags = vblkDataFlagsRead ∧ c.out.dataWrite.isOk = false) ∨
    (req.data.flags = vblkDataFlagsWrite ∧ c.out.dataRead.isOk = false)

/-! ## One command -/

/-- What a successful transfer did. -/
def Transferred (mem : GuestMemory) (image : List Byte) (req : VblkReq) (off : Nat)
    (out : Outcomes) (r : VblkResult) : Prop :=
  off + req.data.len ≤ image.length ∧ r.retAddr = req.retval.addr ∧
    ((req.data.flags = vblkDataFlagsRead ∧ out.dataWrite.isOk = true ∧ r.image = image ∧
        r.mem = writeBytes mem req.data.addr ((image.drop off).take req.data.len)) ∨
      (req.data.flags = vblkDataFlagsWrite ∧ out.dataRead.isOk = true ∧
        r.image = patch image off (readBytes mem req.data.addr req.data.len)))

/-- The outcome of a command on an image: failure with the image as it was, or success
with what `done` says. -/
def Settled (image : List Byte) (r : VblkResult) (done : Prop) : Prop :=
  (r.ret = vblkRetFailed ∧ r.image = image) ∨ (r.ret = vblkRetSuccess ∧ done)

theorem settled_vblkTransfer (mem : GuestMemory) (image : List Byte) (req : VblkReq) (off : Nat)
    (out : Outcomes) :
    Settled image (vblkTransfer mem image req off out)
      (Transferred mem image req off out (vblkTransfer mem image req off out)) := by
  unfold vblkTransfer
  split
  · rename_i hread
    unfold blkPread
    split
    · exact .inl ⟨rfl, rfl⟩
    · rename_i bytes hbytes
      split at hbytes
      · rename_i hinside
        obtain rfl := Option.some.inj hbytes
        cases hok : out.dataWrite.isOk with
        | false =>
          refine .inl ⟨?_, rfl⟩
          simp [hok]
        | true =>
          refine .inr ⟨?_, hinside.2, rfl, .inl ⟨hread, hok, rfl, ?_⟩⟩
          · simp [hok]
          · exact dmaWrite_of_isOk _ _ _ hok
      · cases hbytes
  · split
    · rename_i hwrite
      simp only [dmaRead_fst]
      split
      · exact .inl ⟨rfl, rfl⟩
      · rename_i hdata
        have hok : out.dataRead.isOk = true := by simpa using hdata
        rw [dmaRead_of_isOk _ _ _ hok]
        unfold blkPwrite
        split
        · exact .inl ⟨rfl, rfl⟩
        · rename_i image' himage
          split at himage
          · rename_i hinside
            obtain rfl := Option.some.inj himage
            rw [readBytes_length] at hinside
            exact .inr ⟨rfl, hinside.2, rfl, .inr ⟨hwrite, hok, rfl⟩⟩
          · cases himage
    · exact .inl ⟨rfl, rfl⟩

/-- What a successful command did. -/
structure Performed (mem : GuestMemory) (image : List Byte) (gpAddr : BitVec 64)
    (out : Outcomes) (r : VblkResult) : Prop where
  descriptor : out.descriptor.isOk = true
  sector : out.sector.isOk = true
  sectorLen : (reqAt mem gpAddr).sector.len = 16
  dataLen : (reqAt mem gpAddr).data.len ≤ vblkMaxLen
  transferred :
    Transferred mem image (reqAt mem gpAddr) (offsetAt mem (reqAt mem gpAddr)) out r

/-- How far `vblk_cmd` gets before the label `out`. -/
inductive Progress (mem : GuestMemory) (image : List Byte) (gpAddr : BitVec 64)
    (out : Outcomes) : VblkResult → Prop
  | unfetched {left : List Byte} (descriptor : out.descriptor = .failed left) :
      Progress mem image gpAddr out (vblkFailed mem image (parseReq left))
  | refused (descriptor : out.descriptor.isOk = true)
      (why : (reqAt mem gpAddr).sector.len ≠ 16 ∨ out.sector.isOk = false ∨
        vblkMaxLen < (reqAt mem gpAddr).data.len) :
      Progress mem image gpAddr out (vblkFailed mem image (reqAt mem gpAddr))
  | transfer (descriptor : out.descriptor.isOk = true) (sector : out.sector.isOk = true)
      (sectorLen : (reqAt mem gpAddr).sector.len = 16)
      (dataLen : (reqAt mem gpAddr).data.len ≤ vblkMaxLen) :
      Progress mem image gpAddr out
        (vblkTransfer mem image (reqAt mem gpAddr) (offsetAt mem (reqAt mem gpAddr)) out)

theorem progress_vblkRun (mem : GuestMemory) (image : List Byte) (gpAddr : BitVec 64)
    (out : Outcomes) : Progress mem image gpAddr out (vblkRun mem image gpAddr out) := by
  unfold vblkRun
  simp only [dmaRead_fst]
  cases hdesc : out.descriptor with
  | failed left => exact .unfetched hdesc
  | ok =>
    have hok : out.descriptor.isOk = true := by rw [hdesc]; rfl
    rw [if_neg (by simp [ReadOutcome.isOk])]
    change Progress mem image gpAddr out (if (reqAt mem gpAddr).sector.len ≠ 16 then _ else _)
    split
    · rename_i hlen
      exact .refused hok (.inl hlen)
    · rename_i hlen
      split
      · rename_i hsector
        exact .refused hok (.inr (.inl hsector))
      · rename_i hsector
        have hsector' : out.sector.isOk = true := by simpa using hsector
        split
        · rename_i hmax
          exact .refused hok (.inr (.inr hmax))
        · rename_i hmax
          rw [dmaRead_of_isOk _ _ _ hsector', Nat.mul_comm]
          exact .transfer hok hsector' (not_not.mp hlen) (Nat.le_of_not_lt hmax)

theorem settled_vblkRun (mem : GuestMemory) (image : List Byte) (gpAddr : BitVec 64)
    (out : Outcomes) :
    Settled image (vblkRun mem image gpAddr out)
      (Performed mem image gpAddr out (vblkRun mem image gpAddr out)) := by
  have hrun := progress_vblkRun mem image gpAddr out
  generalize vblkRun mem image gpAddr out = result at hrun ⊢
  cases hrun with
  | unfetched descriptor => exact .inl ⟨rfl, rfl⟩
  | refused descriptor why => exact .inl ⟨rfl, rfl⟩
  | transfer descriptor sector sectorLen dataLen =>
    rcases settled_vblkTransfer mem image (reqAt mem gpAddr)
      (offsetAt mem (reqAt mem gpAddr)) out with hfailed | ⟨hret, hdone⟩
    · exact .inl hfailed
    · exact .inr ⟨hret, descriptor, sector, sectorLen, dataLen, hdone⟩

/-! ## One register write -/

/-- The two states hold the same images. -/
def SameImages (s t : BdifState) : Prop := t.root = s.root ∧ t.aux = s.aux

theorem image_of_sameImages {s t : BdifState} (h : SameImages s t) (d : Disk) :
    t.image d = s.image d := by
  cases d with
  | root => exact h.1
  | aux => exact h.2

/-- A branch leaves the images when both sides do. -/
theorem SameImages.guard {c : Prop} [Decidable c] {s : BdifState}
    {yes no : BdifState × List UsbEvent} (hyes : SameImages s yes.1) (hno : SameImages s no.1) :
    SameImages s (if c then yes else no).1 := by
  split
  · exact hyes
  · exact hno

/-- A delivery leaves the images as its transfer does. -/
theorem sameImages_vusbTryDeliver {write : PayloadWrite} {s t : BdifState}
    (hidle : ¬Waiting t.usb → SameImages s t)
    (hwrite : Waiting t.usb → SameImages s (transfer write t).state) :
    SameImages s (vusbTryDeliver write t).1 := by
  have hresult := delivery_vusbTryDeliver write t
  generalize vusbTryDeliver write t = result at hresult ⊢
  cases hresult with
  | wait flowing => exact hidle (not_waiting_iff.2 flowing)
  | drop invalid =>
    exact hidle fun hwaiting => Nat.not_le_of_lt invalid.2 hwaiting.2.2.1.2.1
  | deliver waiting ok => exact hwrite waiting
  | lose loses => exact hwrite loses.1

/-- In a register access a delivery leaves the images. -/
theorem sameImages_guarded (s : BdifState) (u : Usb) (out : Outcomes) :
    SameImages s (vusbTryDeliver (guardedWrite out) { s with usb := u }).1 := by
  refine sameImages_vusbTryDeliver (fun _ => ⟨rfl, rfl⟩) fun _ => ?_
  unfold transfer guardedWrite
  repeat' split
  all_goals exact ⟨rfl, rfl⟩

theorem sameImages_vusbPost (s : BdifState) (desc : RxBuffer) (out : Outcomes) :
    SameImages s (vusbPost s desc out).1 :=
  .guard (.guard ⟨rfl, rfl⟩ ⟨rfl, rfl⟩) (.guard ⟨rfl, rfl⟩ (sameImages_guarded s _ out))

theorem sameImages_vusbTransmit (s : BdifState) (desc : RxBuffer) (out : Outcomes) :
    SameImages s (vusbTransmit s desc out) := by
  unfold vusbTransmit
  dsimp only
  repeat' split
  all_goals exact ⟨rfl, rfl⟩

theorem sameImages_vusbCmd (s : BdifState) (gpAddr : BitVec 64) (out : Outcomes) :
    SameImages s (vusbCmd s gpAddr out).1 :=
  .guard ⟨rfl, rfl⟩ (.guard (sameImages_vusbPost s _ out)
    (.guard (sameImages_vusbTransmit s _ out) ⟨rfl, rfl⟩))

/-- A write that is no block command leaves both images. -/
theorem sameImages_after {w : RegisterWrite} (h : w.command = none) :
    SameImages w.before w.after := by
  rw [RegisterWrite.command] at h
  unfold RegisterWrite.after bdifWrite
  dsimp only
  split
  · repeat' split
    all_goals exact ⟨rfl, rfl⟩
  · split
    · rename_i hcmd
      rw [if_pos hcmd] at h
      split
      · rename_i hroot
        rw [if_pos hroot] at h
        cases h
      · rename_i hroot
        rw [if_neg hroot] at h
        split
        · rename_i haux
          rw [if_pos haux] at h
          cases h
        · split
          · split
            · exact sameImages_vusbCmd w.before w.value w.out
            · exact ⟨rfl, rfl⟩
          · exact ⟨rfl, rfl⟩
    · exact ⟨rfl, rfl⟩

/-- A block command acts on its own image and on memory as `vblk_cmd` does. -/
theorem after_command {w : RegisterWrite} {c : Command} (h : w.command = some c) :
    w.after.image c.disk = (vblkCmd w.before.mem (w.before.image c.disk) c.gpAddr c.out).1 ∧
      w.after.mem = (vblkCmd w.before.mem (w.before.image c.disk) c.gpAddr c.out).2 ∧
      ∀ d, d ≠ c.disk → w.after.image d = w.before.image d := by
  have hqueue : ¬ regCmd = regQueue := by decide
  rw [RegisterWrite.command] at h
  unfold RegisterWrite.after bdifWrite
  dsimp only
  split at h
  · rename_i hcmd
    rw [hcmd, if_neg hqueue, if_pos rfl]
    split at h
    · rename_i hroot
      obtain rfl := Option.some.inj h
      rw [if_pos hroot]
      refine ⟨rfl, rfl, ?_⟩
      intro d hd
      cases d with
      | root => exact absurd rfl hd
      | aux => rfl
    · rename_i hroot
      rw [if_neg hroot]
      split at h
      · rename_i haux
        obtain rfl := Option.some.inj h
        rw [if_pos haux]
        refine ⟨rfl, rfl, ?_⟩
        intro d hd
        cases d with
        | root => rfl
        | aux => exact absurd rfl hd
      · cases h
  · cases h

/-- The disk writes of a register write are what it does to an image. -/
theorem image_after (w : RegisterWrite) (d : Disk) :
    w.after.image d = applyWrites (w.before.image d) (diskWrites succeeds d w) := by
  unfold diskWrites
  cases hcmd : w.command with
  | none => exact image_of_sameImages (sameImages_after hcmd) d
  | some c =>
    obtain ⟨himage, -, hother⟩ := after_command hcmd
    dsimp only
    split
    · rename_i hcounts
      obtain ⟨rfl, hstatus⟩ := hcounts
      rw [himage]
      have hret : status w.before c = vblkRetSuccess := by simpa [succeeds] using hstatus
      rcases settled_vblkRun w.before.mem (w.before.image c.disk) c.gpAddr c.out with
        ⟨hfailed, -⟩ | ⟨-, hdone⟩
      · rw [status, hfailed] at hret
        exact absurd hret (by decide)
      · unfold requestedWrite
        rcases hdone.transferred.2.2 with ⟨hread, -, hsame, -⟩ | ⟨hwrite, -, hstored⟩
        · have hnot : ¬ vblkDataFlagsRead = vblkDataFlagsWrite := by decide
          dsimp only
          rw [hread, if_neg hnot]
          exact hsame
        · dsimp only
          rw [if_pos hwrite, Option.toList_some, applyWrites_singleton]
          exact hstored
    · rename_i hcounts
      by_cases hd : d = c.disk
      · subst hd
        have hret : ¬ status w.before c = vblkRetSuccess := by simpa [succeeds] using hcounts
        rw [himage]
        rcases settled_vblkRun w.before.mem (w.before.image c.disk) c.gpAddr c.out with
          ⟨-, hsame⟩ | ⟨hsuccess, -⟩
        · exact hsame
        · exact absurd hsuccess hret
      · exact hother d hd

/-- A successful read leaves the bytes of the image in the buffer, apart from the
status byte. -/
theorem readBack_after {w : RegisterWrite} {c : Command} {i : Nat}
    (hcmd : w.command = some c) (hstatus : status w.before c = vblkRetSuccess)
    (hflags : (reqAt w.before.mem c.gpAddr).data.flags = vblkDataFlagsRead)
    (hi : i < (reqAt w.before.mem c.gpAddr).data.len)
    (hret : (reqAt w.before.mem c.gpAddr).data.addr + BitVec.ofNat 64 i ≠
      (reqAt w.before.mem c.gpAddr).retval.addr) :
    some (w.after.mem ((reqAt w.before.mem c.gpAddr).data.addr + BitVec.ofNat 64 i)) =
      (w.before.image c.disk)[offsetAt w.before.mem (reqAt w.before.mem c.gpAddr) + i]? := by
  rcases settled_vblkRun w.before.mem (w.before.image c.disk) c.gpAddr c.out with
    ⟨hfailed, -⟩ | ⟨-, hdone⟩
  · rw [status, hfailed] at hstatus
    exact absurd hstatus (by decide)
  · obtain ⟨hinside, hretAddr, heffect⟩ := hdone.transferred
    have hmax : vblkMaxLen < 2 ^ 64 := by decide
    have hlen := hdone.dataLen
    obtain ⟨-, hmem, -⟩ := after_command hcmd
    rcases heffect with ⟨-, -, -, hstored⟩ | ⟨hwrite, -⟩
    · have hapart : [(vblkRun w.before.mem (w.before.image c.disk) c.gpAddr c.out).ret].length ≤
          ((reqAt w.before.mem c.gpAddr).data.addr + BitVec.ofNat 64 i -
            (vblkRun w.before.mem (w.before.image c.disk) c.gpAddr c.out).retAddr).toNat := by
        rw [hretAddr, List.length_singleton]
        refine Nat.one_le_iff_ne_zero.mpr fun hzero => hret ?_
        exact sub_eq_zero.mp (BitVec.eq_of_toNat_eq hzero)
      rw [hmem, vblkCmd, dmaWrite_of_outside _ _ hapart, hstored,
        writeBytes_of_inside _ _ (by rw [List.length_take]; omega)
          (by rw [List.length_take, List.length_drop]; omega),
        List.getElem?_take_of_lt hi, List.getElem?_drop]
    · rw [hflags] at hwrite
      exact absurd hwrite (by decide)

/-- A request that has to be refused fails. -/
theorem status_of_refused {s : BdifState} {c : Command} (h : Refused s c) :
    status s c = vblkRetFailed := by
  rcases settled_vblkRun s.mem (s.image c.disk) c.gpAddr c.out with ⟨hfailed, -⟩ | ⟨-, hdone⟩
  · exact hfailed
  · have hread := hdone.descriptor
    have hsector := hdone.sector
    have hlen := hdone.dataLen
    rcases h with h | h | h | h | ⟨hr, hw⟩ | ⟨hr, h⟩ | ⟨hw, h⟩
    · rw [h] at hread
      cases hread
    · exact absurd hdone.sectorLen h
    · rw [h] at hsector
      cases hsector
    · omega
    · rcases hdone.transferred.2.2 with ⟨hflags, -⟩ | ⟨hflags, -⟩
      · exact absurd hflags hr
      · exact absurd hflags hw
    · rcases hdone.transferred.2.2 with ⟨-, hok, -⟩ | ⟨hflags, -⟩
      · rw [h] at hok
        cases hok
      · rw [hr] at hflags
        exact absurd hflags (by decide)
    · rcases hdone.transferred.2.2 with ⟨hflags, -⟩ | ⟨-, hok, -⟩
      · rw [hw] at hflags
        exact absurd hflags (by decide)
      · rw [h] at hok
        cases hok

/-! ## One step -/

/-- One access of a transfer. -/
theorem image_dispatch (out : Outcomes) (inner : Nat → Outcomes) (addr : BitVec 64)
    (t : Dispatch) (x : Access) (d : Disk) :
    (dispatch out inner addr t x).state.image d =
      applyWrites (t.state.image d)
        ((t.registerWrite inner x).toList.flatMap (diskWrites succeeds d)) := by
  unfold dispatch Dispatch.registerWrite
  cases x.register with
  | none =>
    dsimp only
    split
    · exact image_of_sameImages ⟨rfl, rfl⟩ d
    · rfl
  | some offset =>
    rw [Option.map_some, Option.toList_some, List.flatMap_singleton]
    exact image_after ⟨t.state, offset, BitVec.ofNat 64 (leNat (t.bytes x)), inner x.pos⟩ d

/-- A transfer to the device's registers does to an image what its register writes do. -/
theorem image_dispatched (out : Outcomes) (inner : Nat → Outcomes) (addr : BitVec 64)
    (t : Dispatch) (xs : List Access) (d : Disk) :
    (run (dispatch out inner addr) t xs).state.image d =
      applyWrites (t.state.image d)
        ((observe (fun t x => (dispatch out inner addr t x, (t.registerWrite inner x).toList))
          t xs).flatMap (diskWrites succeeds d)) := by
  induction xs generalizing t with
  | nil => rfl
  | cons x xs ih =>
    rw [run_cons, ih, observe_cons, List.flatMap_append, applyWrites_append, image_dispatch]

/-- The transfer of the head frame, as `vusb_receive` makes it. -/
theorem image_transfer_openWrite {t : BdifState} (out : Outcomes) (inner : Nat → Outcomes)
    (hwaiting : Waiting t.usb) (d : Disk) :
    (transfer (openWrite out inner) t).state.image d =
      if reachesWindow t.usb.rx.addr (headLen t.usb.input) then
        (dispatched out inner t t.usb.rx.addr (headLen t.usb.input)).state.image d
      else t.image d := by
  unfold transfer openWrite
  rw [length_headPayload hwaiting.2.2.1]
  split
  · rename_i hzero
    rw [hzero]
    rfl
  · split
    · rfl
    · exact image_of_sameImages ⟨rfl, rfl⟩ d

/-- What `vusb_receive` does to an image it does through the device's registers. -/
theorem image_vusbReceive (s : BdifState) (chunk : List Byte) (out : Outcomes)
    (inner : Nat → Outcomes) (d : Disk) :
    (vusbReceive s chunk out inner).1.image d =
      if Reenters s (.receive chunk out inner) then
        (dispatched out inner (s.append chunk) s.usb.rx.addr
          (headLen (s.usb.input ++ chunk))).state.image d
      else s.image d := by
  have happend : (s.append chunk).image d = s.image d := image_of_sameImages ⟨rfl, rfl⟩ d
  rw [vusbReceive_eq]
  split
  · rename_i htaken
    by_cases hwaiting : Waiting (s.append chunk).usb
    · have hsame : SameImages (transfer (openWrite out inner) (s.append chunk)).state
          (vusbTryDeliver (openWrite out inner) (s.append chunk)).1 :=
        sameImages_vusbTryDeliver (absurd hwaiting) fun _ => ⟨rfl, rfl⟩
      rw [image_of_sameImages hsame, image_transfer_openWrite out inner hwaiting, happend]
      exact if_congr ⟨fun hreach => ⟨htaken, hwaiting, hreach⟩, fun h => h.2.2⟩ rfl rfl
    · have hsame : SameImages (s.append chunk)
          (vusbTryDeliver (openWrite out inner) (s.append chunk)).1 :=
        sameImages_vusbTryDeliver (fun _ => ⟨rfl, rfl⟩) fun h => absurd h hwaiting
      rw [if_neg fun h => hwaiting h.2.1, image_of_sameImages hsame, happend]
  · rename_i hrefused
    rw [if_neg fun h => hrefused h.1]

theorem sameImages_bdifRead (s : BdifState) (offset : BitVec 64) (out : Outcomes) :
    SameImages s (bdifRead s offset out).2.1 := by
  have hconsume : SameImages s (vusbConsume s out).1 :=
    .guard (sameImages_guarded s _ out) ⟨rfl, rfl⟩
  rw [bdifRead_snd]
  unfold usbBusy
  repeat' split
  all_goals first | exact hconsume | exact ⟨rfl, rfl⟩

/-- The disk writes of a step are what it does to an image. -/
theorem image_step (s : BdifState) (a : Act) (d : Disk) :
    (step s a).1.image d = applyWrites (s.image d) (stepWrites succeeds d s a) := by
  cases a with
  | receive chunk out inner =>
    rw [step, image_vusbReceive, stepWrites, registerWrites]
    split
    · rw [dispatched, image_dispatched]
      exact congrArg (applyWrites · _) (image_of_sameImages ⟨rfl, rfl⟩ d)
    · rfl
  | write offset value out =>
    rw [stepWrites, registerWrites, List.flatMap_singleton]
    exact image_after ⟨s, offset, value, out⟩ d
  | read offset out => exact image_of_sameImages (sameImages_bdifRead s offset out) d
  | store mem => exact image_of_sameImages ⟨rfl, rfl⟩ d
  | event => exact image_of_sameImages ⟨rfl, rfl⟩ d
  | reset => exact image_of_sameImages ⟨rfl, rfl⟩ d

/-! ## Runs -/

/-- What a run does to the block devices; `counts` says which commands reported
success. -/
structure PersistentStore (counts : BdifState → Command → Bool) (s : BdifState)
    (actions : List Act) : Prop where
  /-- each image is the initial one with the counted writes applied in order -/
  content : ∀ d,
    (final step s actions).image d = applyWrites (s.image d) (writes counts d s actions)
  /-- a counted read leaves the bytes of its image in the buffer -/
  readBack : ∀ front a back, actions = front ++ a :: back →
    ∀ w ∈ registerWrites (final step s front) a, ∀ c, w.command = some c →
    counts w.before c = true →
    let req := reqAt w.before.mem c.gpAddr
    req.data.flags = vblkDataFlagsRead → ∀ i < req.data.len,
      req.data.addr + BitVec.ofNat 64 i ≠ req.retval.addr →
      some (w.after.mem (req.data.addr + BitVec.ofNat 64 i)) =
        (w.before.image c.disk)[offsetAt w.before.mem req + i]?
  /-- a command that is not counted changes neither image -/
  unchanged : ∀ front a back, actions = front ++ a :: back →
    ∀ w ∈ registerWrites (final step s front) a, ∀ c, w.command = some c →
    counts w.before c = false → ∀ d, w.after.image d = w.before.image d
  /-- a request that has to be refused is not counted -/
  refused : ∀ front a back, actions = front ++ a :: back →
    ∀ w ∈ registerWrites (final step s front) a, ∀ c, w.command = some c →
    Refused w.before c → counts w.before c = false
  /-- no command changes the other image -/
  separate : ∀ front a back, actions = front ++ a :: back →
    ∀ w ∈ registerWrites (final step s front) a, ∀ c, w.command = some c →
    ∀ d, d ≠ c.disk → w.after.image d = w.before.image d

/-- **The block devices are persistent stores**: in every run, the writes whose
command ended with status 0 are in the images, and nothing else is. -/
theorem images_hold_successful_writes (s : BdifState) (actions : List Act) :
    PersistentStore succeeds s actions := by
  refine ⟨?_, ?_, ?_, ?_, ?_⟩
  · intro d
    have hstep : ∀ (t : BdifState) (past : List Act) (log : List Write) (a : Act),
        True → t.image d = applyWrites (s.image d) log →
        (step t a).1.image d = applyWrites (s.image d) (log ++ stepWrites succeeds d t a) := by
      intro t _ log a _ hbefore
      rw [applyWrites_append, ← hbefore]
      exact image_step t a d
    exact @observe_invariant BdifState Act Write
      (fun t a => ((step t a).1, stepWrites succeeds d t a)) (fun _ _ => True)
      (fun t _ log => t.image d = applyWrites (s.image d) log) hstep s actions
      (guarded_true _ _ _) [] [] rfl
  · intro front a back _ w _ c hcmd hcounts req hflags i hi hret
    exact readBack_after hcmd (by simpa [succeeds] using hcounts) hflags hi hret
  · intro front a back _ w _ c hcmd hcounts d
    have hnone : diskWrites succeeds d w = [] := by simp [diskWrites, hcmd, hcounts]
    rw [image_after, hnone]
    rfl
  · intro front a back _ w _ c _ hrefused
    rw [succeeds, status_of_refused hrefused]
    rfl
  · intro front a back _ w _ c hcmd d hd
    exact (after_command hcmd).2.2 d hd

/-- A command whose status transfer goes through with success. -/
def reportsSuccess (s : BdifState) (c : Command) : Bool :=
  succeeds s c && c.out.status.isOk

/-- A guest with a request at `0x70000000` that writes the byte at `0x70003000` to sector 0
of the AUX device and expects the status at `0x70004000`. -/
def writingGuest : BdifState where
  usb := idleUsb
  root := []
  aux := [0]
  mem := writeBytes (fun a => if a = 0x70003000 then 0xab else if a = 0x70004000 then 0xff else 0)
    0x70000000#64
    -- sector.addr 0x70002000 and sector.len 16
    [0, 0x20, 0, 0x70, 0, 0, 0, 0, 16, 0, 0, 0, 0, 0, 0, 0,
      -- data.addr 0x70003000, data.len 1, data.flags 0x00010001
      0, 0x30, 0, 0x70, 0, 0, 0, 0, 1, 0, 0, 0, 1, 0, 1, 0,
      -- retval.addr 0x70004000
      0, 0x40, 0, 0x70, 0, 0, 0, 0, 1, 0, 0, 0, 0, 0, 0, 0]
  connected := false
  sent := []

/-- A write is applied although its status never reaches the guest: the transfer of
the status byte fails after the image was written. -/
theorem unreported_write_is_applied :
    let command := Act.write (devidAux + regCmd) 0x70000000 { status := .failed fun _ => false }
    (step writingGuest command).1.mem 0x70004000 = 0xff ∧
      (step writingGuest command).1.aux = [0xab] ∧
      ¬ PersistentStore reportsSuccess writingGuest [command] := by
  refine ⟨by decide +kernel, by decide +kernel, fun hstore => ?_⟩
  have hcontent := hstore.content .aux
  revert hcontent
  decide +kernel

end Orchard.Bdif
