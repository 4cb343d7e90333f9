/-
  Bdif/Device.lean --- `hw/vmapple/bdif.c`, the backdoor interface.

  One MMIO window holds three devices, told apart by the upper half of the
  register offset: the ROOT and AUX block devices and a virtual USB function whose
  other end is a character device.  A block command is a descriptor in guest memory
  that the device fetches, performs and answers with one status byte.  The USB
  function has a receive queue driven from both sides: the host appends bytes of
  framed packets, the guest posts buffers and polls a ready bit.

  Every DMA transfer and backend operation takes its outcome from the step that
  performs it (`Outcomes`).  A handler also returns the events of the receive queue
  in the order they happen.

  The guest may name the device's own registers as a receive buffer.  While a register
  access is handled, QEMU refuses to re-enter the device and the transfer fails; a
  transfer `vusb_receive` starts on its own is not refused, and its payload is written
  to the registers.
-/
import Orchard.Foundation.Execution
import Orchard.Foundation.GuestMemory

set_option autoImplicit false

namespace Orchard.Bdif

open Orchard.Foundation

/-! ## State -/

/-- A receive buffer of the guest. -/
structure RxBuffer where
  addr : BitVec 64
  len : Nat
  deriving DecidableEq, Repr

/-- The `usb_*` fields of `VMAppleBdifState`.  `usb_input` exists from `bdif_init`
to `bdif_finalize`, so it is never NULL here. -/
structure Usb where
  input : List Byte
  queue : Nat
  rxReady : Bool
  rxPosted : Bool
  rx : RxBuffer
  rxPending : Bool
  pending : RxBuffer
  deriving DecidableEq, Repr

/-- The device, its backends, the guest memory it reaches by DMA, and the other end
of the character device. -/
structure BdifState where
  usb : Usb
  root : List Byte
  aux : List Byte
  mem : GuestMemory
  /-- a character device is attached, `qemu_chr_fe_backend_connected` -/
  connected : Bool
  /-- bytes written to the character device -/
  sent : List Byte

/-- A receive queue nothing has happened to. -/
def idleUsb : Usb where
  input := []
  queue := 0
  rxReady := false
  rxPosted := false
  rx := { addr := 0, len := 0 }
  rxPending := false
  pending := { addr := 0, len := 0 }

/-- `vusb_reset_state`. -/
def vusbResetState (s : BdifState) : BdifState := { s with usb := idleUsb }

/-- The outcomes of the transfers one handler may make. -/
structure Outcomes where
  /-- fetch of a descriptor -/
  descriptor : ReadOutcome := .ok
  /-- fetch of the sector record -/
  sector : ReadOutcome := .ok
  /-- transfer of the data out of guest memory -/
  dataRead : ReadOutcome := .ok
  /-- transfer of the data into guest memory -/
  dataWrite : WriteOutcome := .ok
  /-- `blk_pread` or `blk_pwrite` -/
  backend : Bool := true
  /-- transfer of the status byte -/
  status : WriteOutcome := .ok
  /-- bytes of the header and of the payload the character device takes, if not all -/
  sentHeader : Option Nat := none
  sentPayload : Option Nat := none

/-! ## The receive queue -/

/-- What happens on the receive queue. -/
inductive UsbEvent where
  /-- the guest read `REG_BUSY` with this queue selected and got this value -/
  | busy (queue : Nat) (value : BitVec 64)
  | post (buffer : RxBuffer)
  | stash (buffer : RxBuffer)
  | promote (buffer : RxBuffer)
  /-- a completion was raised for a frame, its payload written to the buffer -/
  | deliver (buffer : RxBuffer) (payload : List Byte)
  /-- a frame was lost to a failed transfer -/
  | dmaFail (buffer : RxBuffer) (payload : List Byte)
  /-- the input was dropped for an invalid length word -/
  | dropBadlen
  deriving DecidableEq, Repr

/-- `VUSB_MAX_PACKET`. -/
def vusbMaxPacket : Nat := 128 * 1024

/-- `VUSB_MAX_TX`. -/
def vusbMaxTx : Nat := 4096

/-- `VUSB_MAX_RX`. -/
def vusbMaxRx : Nat := 2 * (vusbMaxPacket + 4)

/-! ### Payload transfers -/

/-- Where the board maps `VMAPPLE_BDOOR`. -/
def windowBase : BitVec 64 := 0x30000000#64

/-- `VMAPPLE_BDIF_SIZE`. -/
def vmappleBdifSize : Nat := 0x00200000

/-- The address is one of the device's own registers. -/
def inWindow (a : BitVec 64) : Bool := decide ((a - windowBase).toNat < vmappleBdifSize)

/-- Some of the `n` bytes at `addr` are registers of the device. -/
def reachesWindow (addr : BitVec 64) (n : Nat) : Bool :=
  (List.range n).any fun i => inWindow (addr + BitVec.ofNat 64 i)

/-- What a payload transfer leaves behind: success, the device, and what happened on the
receive queue meanwhile. -/
structure Written where
  ok : Bool
  state : BdifState
  events : List UsbEvent

/-- `dma_memory_write` of a payload that touches memory only. -/
def plainWrite (outcome : WriteOutcome) (s : BdifState) (addr : BitVec 64) (bytes : List Byte) :
    Written :=
  let written := dmaWrite s.mem addr bytes outcome
  { ok := written.1, state := { s with mem := written.2 }, events := [] }

/-- `dma_memory_write` of a payload while a register access is handled: the device is
engaged, so the bytes for its own registers go nowhere and the transfer fails. -/
def guardedWrite (out : Outcomes) (s : BdifState) (addr : BitVec 64) (bytes : List Byte) :
    Written :=
  if reachesWindow addr bytes.length then
    let outside := fun i => !inWindow (addr + BitVec.ofNat 64 i)
    plainWrite (.failed fun i => out.dataWrite.lands i && outside i) s addr bytes
  else plainWrite out.dataWrite s addr bytes

/-- `g_byte_array_remove_range` from the start, which refuses a range past the end. -/
def removeRange (input : List Byte) (n : Nat) : List Byte :=
  if n ≤ input.length then input.drop n else input

/-- `vusb_try_deliver`, for the way payloads are written where it is called. -/
def vusbTryDeliver (write : BdifState → BitVec 64 → List Byte → Written) (s : BdifState) :
    BdifState × List UsbEvent :=
  let u := s.usb
  if u.rxPosted = false ∨ u.rxReady = true ∨ u.input.length < 4 then (s, [])
  else
    let len := leNat (u.input.take 4)
    if vusbMaxPacket < len then
      ({ s with usb := { u with input := [] } }, [.dropBadlen])
    else if u.input.length < 4 + len then (s, [])
    else if u.rx.len < len then
      -- an oversize frame is retained for a larger reposted buffer
      (s, [])
    else
      let payload := (u.input.drop 4).take len
      let written :=
        if len = 0 then { ok := true, state := s, events := [] } else write s u.rx.addr payload
      -- what follows reads the fields again, as the transfer has left them
      let t := written.state
      let rest := removeRange t.usb.input (4 + len)
      if written.ok then
        ({ t with usb := { t.usb with rxReady := true, input := rest } },
          written.events ++ [.deliver u.rx payload])
      else
        ({ t with usb := { t.usb with input := rest } },
          written.events ++ [.dmaFail u.rx payload])

/-- `vusb_can_receive`. -/
def vusbCanReceive (s : BdifState) : Nat :=
  if vusbMaxRx ≤ s.usb.input.length then 0 else vusbMaxRx - s.usb.input.length

/-- `vusb_event` for `CHR_EVENT_CLOSED` and `CHR_EVENT_BREAK`; it ignores others. -/
def vusbEvent (s : BdifState) : BdifState :=
  { s with usb :=
      { s.usb with
        rxReady := false
        rxPosted := false
        rxPending := false
        pending := { addr := 0, len := 0 }
        input := [] } }

/-- The address and length of the `VUsbDesc` at the front of the fetched words. -/
def usbDesc (words : List Byte) : RxBuffer :=
  { addr := BitVec.ofNat 64 (leNat (words.take 8))
    len := leNat ((words.drop 8).take 4) }

/-- What the character device takes of the bytes it is given. -/
def charWrite (bytes : List Byte) (taken : Option Nat) : List Byte :=
  bytes.take (taken.getD bytes.length)

/-- The transmit half of `vusb_cmd`. -/
def vusbTransmit (s : BdifState) (desc : RxBuffer) (out : Outcomes) : BdifState :=
  if desc.len = 0 ∨ vusbMaxTx < desc.len then s
  else
    let data := dmaRead s.mem desc.addr desc.len out.dataRead
    if data.1 = false then s
    else if s.connected then
      let header := charWrite (toLe 4 desc.len) out.sentHeader
      if header.length ≠ 4 then { s with sent := s.sent ++ header }
      else { s with sent := s.sent ++ header ++ charWrite data.2 out.sentPayload }
    else s

/-- The receive half of `vusb_cmd`. -/
def vusbPost (s : BdifState) (desc : RxBuffer) (out : Outcomes) : BdifState × List UsbEvent :=
  if s.usb.rxReady then
    if desc.len = 0 ∨ vusbMaxPacket < desc.len then (s, [])
    else
      -- a completion is unread: the buffer waits, in place of one that waited already
      ({ s with usb := { s.usb with pending := desc, rxPending := true } }, [.stash desc])
  else if desc.len = 0 ∨ vusbMaxPacket < desc.len then (s, [])
  else
    let posted := { s with usb := { s.usb with rx := desc, rxPosted := true } }
    let delivered := vusbTryDeliver (guardedWrite out) posted
    (delivered.1, .post desc :: delivered.2)

/-- `vusb_cmd`. -/
def vusbCmd (s : BdifState) (gpAddr : BitVec 64) (out : Outcomes) :
    BdifState × List UsbEvent :=
  let words := dmaRead s.mem gpAddr 128 out.descriptor
  if words.1 = false then (s, [])
  else
    let desc := usbDesc words.2
    if s.usb.queue = 0 then vusbPost s desc out
    else if s.usb.queue = 1 then (vusbTransmit s desc out, [])
    else (s, [])

/-! ## Registers -/

/-- `REG_DEVID_MASK` and the device ids behind it. -/
def devidOf (offset : BitVec 64) : BitVec 64 := offset &&& 0xffff0000#64

/-- `offset & ~REG_DEVID_MASK`. -/
def regOf (offset : BitVec 64) : BitVec 64 := offset &&& 0x0000ffff#64

def devidRoot : BitVec 64 := 0x00000000#64
def devidAux : BitVec 64 := 0x00010000#64
def devidUsb : BitVec 64 := 0x00100000#64

def regStatus : BitVec 64 := 0x0#64
def regCfg : BitVec 64 := 0x4#64
def regUnk1 : BitVec 64 := 0x8#64
def regBusy : BitVec 64 := 0x10#64
def regUnk2 : BitVec 64 := 0x400#64
def regCmd : BitVec 64 := 0x408#64
def regQueue : BitVec 64 := 0x410#64
def regNextDevice : BitVec 64 := 0x420#64
def regUnk3 : BitVec 64 := 0x434#64

/-- `REG_BUSY_READY`. -/
def regBusyReady : BitVec 64 := 1#64

/-- The consuming half of a `REG_BUSY` read: the completion is taken, and a buffer
that was stashed meanwhile is promoted. -/
def vusbConsume (s : BdifState) (out : Outcomes) : BdifState × List UsbEvent :=
  let u := { s.usb with rxPosted := false, rxReady := false }
  if u.rxPending then
    let promoted :=
      { s with usb :=
          { u with
            rxPending := false
            rx := u.pending
            pending := { addr := 0, len := 0 }
            rxPosted := true } }
    let delivered := vusbTryDeliver (guardedWrite out) promoted
    (delivered.1, .promote u.pending :: delivered.2)
  else ({ s with usb := u }, [])

/-- The `REG_BUSY` case of `bdif_read` for the USB function. -/
def usbBusy (s : BdifState) (out : Outcomes) : BitVec 64 × BdifState × List UsbEvent :=
  if s.connected = true ∧ s.usb.queue = 0 then
    if s.usb.rxReady then
      let consumed := vusbConsume s out
      (regBusyReady, consumed.1, .busy 0 regBusyReady :: consumed.2)
    else (0, s, [.busy 0 0])
  else (regBusyReady, s, [.busy s.usb.queue regBusyReady])

/-- `bdif_read`: the value, the device and the receive events. -/
def bdifRead (s : BdifState) (offset : BitVec 64) (out : Outcomes) :
    BitVec 64 × BdifState × List UsbEvent :=
  let devid := devidOf offset
  let reg := regOf offset
  if reg = regStatus then (1, s, [])
  else if reg = regCfg then
    (if devid = devidUsb ∧ s.connected = true then 0x1a01 else 2, s, [])
  else if reg = regUnk1 then (0x420, s, [])
  else if reg = regBusy then
    if devid = devidUsb then usbBusy s out else (regBusyReady, s, [])
  else if reg = regUnk2 then (1, s, [])
  else if reg = regQueue then
    (if devid = devidUsb ∧ s.connected = true then BitVec.ofNat 64 s.usb.queue else -1, s, [])
  else if reg = regUnk3 then (0, s, [])
  else if reg = regNextDevice then
    (if devid = devidRoot then 0x8000000 else if devid = devidAux then 0x10000 else -1, s, [])
  else (-1, s, [])

/-- Only a `REG_BUSY` read of the USB function has an effect. -/
theorem bdifRead_snd (s : BdifState) (offset : BitVec 64) (out : Outcomes) :
    (bdifRead s offset out).2 =
      if regOf offset = regBusy ∧ devidOf offset = devidUsb then (usbBusy s out).2
      else (s, []) := by
  by_cases hreg : regOf offset = regBusy
  · rw [bdifRead, hreg]
    simp only [true_and]
    exact apply_ite Prod.snd (devidOf offset = devidUsb) (usbBusy s out) (regBusyReady, s, [])
  · simp only [bdifRead, hreg, false_and, if_false, apply_ite Prod.snd, ite_self]

/-! ## Block commands -/

/-- `VblkReqCmd`, after `le2cpu_reqcmd`. -/
structure VblkReqCmd where
  addr : BitVec 64
  len : Nat
  flags : Nat
  deriving DecidableEq, Repr

/-- `VblkReq`. -/
structure VblkReq where
  sector : VblkReqCmd
  data : VblkReqCmd
  retval : VblkReqCmd
  deriving DecidableEq, Repr

/-- The 16 bytes of a `VblkReqCmd`. -/
def parseReqCmd (bytes : List Byte) : VblkReqCmd :=
  { addr := BitVec.ofNat 64 (leNat (bytes.take 8))
    len := leNat ((bytes.drop 8).take 4)
    flags := leNat ((bytes.drop 12).take 4) }

/-- The 48 bytes of a `VblkReq`. -/
def parseReq (bytes : List Byte) : VblkReq :=
  { sector := parseReqCmd (bytes.take 16)
    data := parseReqCmd ((bytes.drop 16).take 16)
    retval := parseReqCmd ((bytes.drop 32).take 16) }

/-- The `sector` word of a `VblkSector`. -/
def parseSector (bytes : List Byte) : Nat := leNat ((bytes.drop 8).take 4)

def vblkDataFlagsRead : Nat := 0x00030001
def vblkDataFlagsWrite : Nat := 0x00010001

/-- `VBLK_RET_SUCCESS`, `VBLK_RET_FAILED`. -/
def vblkRetSuccess : Byte := 0
def vblkRetFailed : Byte := 1

/-- The largest `data.len` a command may name. -/
def vblkMaxLen : Nat := 128 * 1024 * 1024

/-- `blk_pread`: a range inside the image, or a failure. -/
def blkPread (image : List Byte) (off len : Nat) (ok : Bool) : Option (List Byte) :=
  if ok = true ∧ off + len ≤ image.length then some ((image.drop off).take len) else none

/-- `blk_pwrite`: a range inside the image, or a failure. -/
def blkPwrite (image : List Byte) (off : Nat) (bytes : List Byte) (ok : Bool) :
    Option (List Byte) :=
  if ok = true ∧ off + bytes.length ≤ image.length then some (patch image off bytes) else none

/-- What a block command leaves behind before its status byte: the status, where it
goes, the image and the guest memory. -/
structure VblkResult where
  ret : Byte
  retAddr : BitVec 64
  image : List Byte
  mem : GuestMemory

/-- A command that failed so far. -/
def vblkFailed (mem : GuestMemory) (image : List Byte) (req : VblkReq) : VblkResult :=
  { ret := vblkRetFailed, retAddr := req.retval.addr, image := image, mem := mem }

/-- The switch of `vblk_cmd` over `data.flags`. -/
def vblkTransfer (mem : GuestMemory) (image : List Byte) (req : VblkReq) (off : Nat)
    (out : Outcomes) : VblkResult :=
  if req.data.flags = vblkDataFlagsRead then
    match blkPread image off req.data.len out.backend with
    | none => vblkFailed mem image req
    | some bytes =>
      let written := dmaWrite mem req.data.addr bytes out.dataWrite
      { vblkFailed mem image req with
        ret := if written.1 then vblkRetSuccess else vblkRetFailed
        mem := written.2 }
  else if req.data.flags = vblkDataFlagsWrite then
    let data := dmaRead mem req.data.addr req.data.len out.dataRead
    if data.1 = false then vblkFailed mem image req
    else
      match blkPwrite image off data.2 out.backend with
      | none => vblkFailed mem image req
      | some image' => { vblkFailed mem image req with ret := vblkRetSuccess, image := image' }
  else vblkFailed mem image req

/-- `vblk_cmd` up to the label `out`.  A failed fetch leaves the descriptor as the
transfer left it. -/
def vblkRun (mem : GuestMemory) (image : List Byte) (gpAddr : BitVec 64) (out : Outcomes) :
    VblkResult :=
  let fetched := dmaRead mem gpAddr 48 out.descriptor
  let req := parseReq fetched.2
  if fetched.1 = false then vblkFailed mem image req
  else if req.sector.len ≠ 16 then vblkFailed mem image req
  else
    let sector := dmaRead mem req.sector.addr 16 out.sector
    if sector.1 = false then vblkFailed mem image req
    else if vblkMaxLen < req.data.len then vblkFailed mem image req
    else vblkTransfer mem image req (parseSector sector.2 * 512) out

/-- `vblk_cmd`: the image and the memory after the status byte. -/
def vblkCmd (mem : GuestMemory) (image : List Byte) (gpAddr : BitVec 64) (out : Outcomes) :
    List Byte × GuestMemory :=
  let result := vblkRun mem image gpAddr out
  (result.image, (dmaWrite result.mem result.retAddr [result.ret] out.status).2)

/-- `bdif_write`. -/
def bdifWrite (s : BdifState) (offset value : BitVec 64) (out : Outcomes) :
    BdifState × List UsbEvent :=
  let devid := devidOf offset
  let reg := regOf offset
  if reg = regQueue then
    if devid = devidUsb ∧ s.connected = true then
      if 1 < value.toNat then (s, [])
      else ({ s with usb := { s.usb with queue := value.toNat } }, [])
    else (s, [])
  else if reg = regCmd then
    if devid = devidRoot then
      let done := vblkCmd s.mem s.root value out
      ({ s with root := done.1, mem := done.2 }, [])
    else if devid = devidAux then
      let done := vblkCmd s.mem s.aux value out
      ({ s with aux := done.1, mem := done.2 }, [])
    else if devid = devidUsb then
      if s.connected then vusbCmd s value out else (s, [])
    else (s, [])
  else (s, [])

/-- Writes to the block devices leave the receive queue alone. -/
theorem bdifWrite_of_not_usb (s : BdifState) {offset : BitVec 64} (value : BitVec 64)
    (out : Outcomes) (h : devidOf offset ≠ devidUsb) :
    (bdifWrite s offset value out).1.usb = s.usb ∧
      (bdifWrite s offset value out).1.connected = s.connected ∧
      (bdifWrite s offset value out).2 = [] := by
  unfold bdifWrite
  simp only [h, false_and, if_false]
  split
  · exact ⟨rfl, rfl, rfl⟩
  · split
    · split
      · exact ⟨rfl, rfl, rfl⟩
      · split
        · exact ⟨rfl, rfl, rfl⟩
        · exact ⟨rfl, rfl, rfl⟩
    · exact ⟨rfl, rfl, rfl⟩

/-! ## Receiving -/

/-- One access of a transfer: `size` bytes from byte `pos` on, to a register of the device
or to memory. -/
structure Access where
  pos : Nat
  size : Nat
  register : Option (BitVec 64)

/-- `memory_access_size`: the largest aligned access to a register that the rest of the
transfer fills. -/
def accessSize (offset : BitVec 64) (left : Nat) : Nat :=
  if 8 ≤ left ∧ offset.toNat % 8 = 0 then 8
  else if 4 ≤ left ∧ offset.toNat % 4 = 0 then 4
  else if 2 ≤ left ∧ offset.toNat % 2 = 0 then 2
  else 1

/-- The accesses to the last `left` bytes of a transfer; memory is taken byte by byte. -/
def accessesFrom (addr : BitVec 64) : Nat → Nat → Nat → List Access
  | 0, _, _ => []
  | fuel + 1, pos, left =>
    let a := addr + BitVec.ofNat 64 pos
    if left = 0 then []
    else if inWindow a then
      let size := accessSize (a - windowBase) left
      ⟨pos, size, some (a - windowBase)⟩ :: accessesFrom addr fuel (pos + size) (left - size)
    else ⟨pos, 1, none⟩ :: accessesFrom addr fuel (pos + 1) (left - 1)

/-- The accesses a transfer of `len` bytes is made of. -/
def accesses (addr : BitVec 64) (len : Nat) : List Access := accessesFrom addr len 0 len

/-- A transfer under way. -/
structure Dispatch where
  state : BdifState
  /-- the array of `usb_input`, with what a shortened input leaves behind its end -/
  array : List Byte
  events : List UsbEvent

/-- The bytes of an access.  `dma_memory_write` was given a pointer into `usb_input` and
takes them from there as it goes. -/
def Dispatch.bytes (d : Dispatch) (x : Access) : List Byte :=
  (d.array.drop (4 + x.pos)).take x.size

/-- One access of a payload transfer that starts outside of any register access.
`inner` has the outcomes of the handlers it enters. -/
def dispatch (out : Outcomes) (inner : Nat → Outcomes) (addr : BitVec 64) (d : Dispatch)
    (x : Access) : Dispatch :=
  match x.register with
  | none =>
    if out.dataWrite.lands x.pos then
      let mem := writeBytes d.state.mem (addr + BitVec.ofNat 64 x.pos) (d.bytes x)
      { d with state := { d.state with mem := mem } }
    else d
  | some offset =>
    let done := bdifWrite d.state offset (BitVec.ofNat 64 (leNat (d.bytes x))) (inner x.pos)
    -- removing a frame moves the rest of the input down in the same array
    { state := done.1
      array := done.1.usb.input ++ d.array.drop done.1.usb.input.length
      events := d.events ++ done.2 }

/-- The transfer of `len` bytes of the head frame, access by access. -/
def dispatched (out : Outcomes) (inner : Nat → Outcomes) (s : BdifState) (addr : BitVec 64)
    (len : Nat) : Dispatch :=
  run (dispatch out inner addr) { state := s, array := s.usb.input, events := [] }
    (accesses addr len)

/-- `dma_memory_write` of a payload in `vusb_receive`.  The device is not engaged, so a
payload for its own registers is written to them; only the rest of it can fail. -/
def openWrite (out : Outcomes) (inner : Nat → Outcomes) (s : BdifState) (addr : BitVec 64)
    (bytes : List Byte) : Written :=
  if reachesWindow addr bytes.length then
    let done := dispatched out inner s addr bytes.length
    { ok := out.dataWrite.isOk, state := done.state, events := done.events }
  else plainWrite out.dataWrite s addr bytes

/-- The device with a chunk at the end of its input. -/
def BdifState.append (s : BdifState) (chunk : List Byte) : BdifState :=
  { s with usb := { s.usb with input := s.usb.input ++ chunk } }

/-- `vusb_receive`. -/
def vusbReceive (s : BdifState) (buf : List Byte) (out : Outcomes) (inner : Nat → Outcomes) :
    BdifState × List UsbEvent :=
  if buf.length = 0 then (s, [])
  else if vusbMaxRx ≤ s.usb.input.length then (s, [])
  else if vusbMaxRx < s.usb.input.length + buf.length then (s, [])
  else vusbTryDeliver (openWrite out inner) (s.append buf)

/-! ## The system -/

/-- What can happen to the device. -/
inductive Act where
  /-- the host sends bytes; `inner` has the outcomes of the register accesses their
  delivery makes, by position in the payload -/
  | receive (chunk : List Byte) (out : Outcomes) (inner : Nat → Outcomes)
  | write (offset value : BitVec 64) (out : Outcomes)
  | read (offset : BitVec 64) (out : Outcomes)
  /-- the guest changes its memory -/
  | store (mem : GuestMemory)
  /-- the channel is closed or breaks -/
  | event
  | reset

/-- One step, with the receive events it causes. -/
def step (s : BdifState) : Act → BdifState × List UsbEvent
  | .receive chunk out inner => vusbReceive s chunk out inner
  | .write offset value out => bdifWrite s offset value out
  | .read offset out => (bdifRead s offset out).2
  | .store mem => ({ s with mem := mem }, [])
  | .event => (vusbEvent s, [])
  | .reset => (vusbResetState s, [])

end Orchard.Bdif
