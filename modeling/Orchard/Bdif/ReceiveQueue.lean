/-
  Bdif/ReceiveQueue.lean --- the receive queue of the virtual USB function at rest.

  Between two handlers the flags, the buffers and the input of the queue fit together,
  whatever the host and the guest do.  Delivery is tried once for every event, not until
  it has nothing left to do: a frame lost to a failed transfer leaves the one behind it
  waiting for an event that may never come.

  A delivery is described for any way of writing payloads.  The two there are, in a
  register access and in `vusb_receive`, keep the flags in order: the second may enter
  the device again, through the handler the first part of the module is about.
-/
import Orchard.Bdif.Device

set_option autoImplicit false

namespace Orchard.Bdif

open Orchard.Foundation

/-! ## The queue between two handlers -/

/-- The length word at the head of the input. -/
def headLen (input : List Byte) : Nat := leNat (input.take 4)

/-- The bytes behind the length word that belong to the head frame. -/
def headPayload (input : List Byte) : List Byte := (input.drop 4).take (headLen input)

/-- The input starts with a whole frame. -/
def HeadComplete (input : List Byte) : Prop :=
  4 ≤ input.length ∧ headLen input ≤ vusbMaxPacket ∧ 4 + headLen input ≤ input.length

/-- The input starts with a length no frame has. -/
def HeadInvalid (input : List Byte) : Prop :=
  4 ≤ input.length ∧ vusbMaxPacket < headLen input

/-- The input starts with a whole frame that fits the buffer. -/
def HeadFits (input : List Byte) (buffer : RxBuffer) : Prop :=
  HeadComplete input ∧ headLen input ≤ buffer.len

instance (input : List Byte) (buffer : RxBuffer) : Decidable (HeadFits input buffer) :=
  inferInstanceAs (Decidable ((_ ∧ _ ∧ _) ∧ _))

theorem length_headPayload {input : List Byte} (h : HeadComplete input) :
    (headPayload input).length = headLen input := by
  have := h.2.2
  rw [headPayload, List.length_take, List.length_drop]
  omega

/-- A length `vusb_cmd` accepts. -/
def ValidLen (buffer : RxBuffer) : Prop := 1 ≤ buffer.len ∧ buffer.len ≤ vusbMaxPacket

instance (buffer : RxBuffer) : Decidable (ValidLen buffer) :=
  inferInstanceAs (Decidable (_ ∧ _))

theorem validLen_iff {buffer : RxBuffer} :
    ValidLen buffer ↔ ¬(buffer.len = 0 ∨ vusbMaxPacket < buffer.len) := by
  unfold ValidLen
  omega

/-- How the flags, buffers and input of the queue belong together. -/
structure Orderly (u : Usb) : Prop where
  ready_posted : u.rxReady = true → u.rxPosted = true
  pending_ready : u.rxPending = true → u.rxReady = true
  posted_len : u.rxPosted = true → ValidLen u.rx
  pending_len : u.rxPending = true → ValidLen u.pending
  bounded : u.input.length ≤ vusbMaxRx

/-- A posted buffer without a completion is not what the head frame waits for. -/
def Flowing (u : Usb) : Prop :=
  u.rxPosted = true → u.rxReady = false → ¬HeadFits u.input u.rx

/-- The queue between two handlers. -/
structure Consistent (s : BdifState) : Prop extends Orderly s.usb where
  /-- the host is held off only by something the guest can take, or that will be dropped -/
  full : vusbCanReceive s = 0 → HeadComplete s.usb.input ∨ HeadInvalid s.usb.input
  flowing : Flowing s.usb

theorem full_of_canReceive {s : BdifState} (h : vusbCanReceive s = 0) :
    HeadComplete s.usb.input ∨ HeadInvalid s.usb.input := by
  have hfull : vusbMaxRx ≤ s.usb.input.length := by
    unfold vusbCanReceive at h
    split at h
    · assumption
    · omega
  simp only [vusbMaxRx, vusbMaxPacket] at hfull
  rcases Nat.lt_or_ge vusbMaxPacket (headLen s.usb.input) with hbad | hgood
  · exact .inr ⟨by omega, hbad⟩
  · refine .inl ⟨by omega, hgood, ?_⟩
    simp only [vusbMaxPacket] at hgood
    omega

/-! ## One delivery -/

/-- The way payloads are written where `vusb_try_deliver` is called. -/
abbrev PayloadWrite := BdifState → BitVec 64 → List Byte → Written

/-- The transfer of the head frame; an empty one needs none. -/
def transfer (write : PayloadWrite) (t : BdifState) : Written :=
  if headLen t.usb.input = 0 then { ok := true, state := t, events := [] }
  else write t t.usb.rx.addr (headPayload t.usb.input)

/-- The input behind the transfer of the head frame. -/
def remaining (write : PayloadWrite) (t : BdifState) : List Byte :=
  removeRange (transfer write t).state.usb.input (4 + headLen t.usb.input)

/-- A posted buffer without a completion faces a whole frame that fits it. -/
def Waiting (u : Usb) : Prop :=
  u.rxPosted = true ∧ u.rxReady = false ∧ HeadFits u.input u.rx

instance (u : Usb) : Decidable (Waiting u) := inferInstanceAs (Decidable (_ ∧ _ ∧ _))

theorem not_waiting_iff {u : Usb} : ¬Waiting u ↔ Flowing u := by
  simp only [Waiting, Flowing, not_and]

/-- A frame that fits is given up because its transfer fails. -/
def LosesFrame (write : PayloadWrite) (t : BdifState) : Prop :=
  Waiting t.usb ∧ (transfer write t).ok = false

/-- The outcomes of `vusb_try_deliver`, guards included. -/
inductive Delivery (write : PayloadWrite) (t : BdifState) : BdifState × List UsbEvent → Prop
  | wait (flowing : Flowing t.usb) : Delivery write t (t, [])
  | drop (invalid : HeadInvalid t.usb.input) :
      Delivery write t ({ t with usb := { t.usb with input := [] } }, [.dropBadlen])
  | deliver (waiting : Waiting t.usb) (ok : (transfer write t).ok = true) :
      Delivery write t
        ({ (transfer write t).state with
            usb := { (transfer write t).state.usb with
              rxReady := true, input := remaining write t } },
          (transfer write t).events ++ [.deliver t.usb.rx (headPayload t.usb.input)])
  | lose (loses : LosesFrame write t) :
      Delivery write t
        ({ (transfer write t).state with
            usb := { (transfer write t).state.usb with input := remaining write t } },
          (transfer write t).events ++ [.dmaFail t.usb.rx (headPayload t.usb.input)])

theorem delivery_vusbTryDeliver (write : PayloadWrite) (t : BdifState) :
    Delivery write t (vusbTryDeliver write t) := by
  unfold vusbTryDeliver
  dsimp only
  split
  · rename_i hidle
    refine .wait fun hposted hready hfits => ?_
    rcases hidle with h | h | h
    · rw [hposted] at h
      cases h
    · rw [hready] at h
      cases h
    · exact Nat.not_le_of_lt h hfits.1.1
  rename_i hactive
  rw [not_or, not_or, Bool.not_eq_false, Bool.not_eq_true, Nat.not_lt] at hactive
  obtain ⟨hposted, hready, hword⟩ := hactive
  split
  · rename_i hbad
    exact .drop ⟨hword, hbad⟩
  rename_i hlen
  split
  · rename_i hshort
    exact .wait fun _ _ hfits => Nat.not_le_of_lt hshort hfits.1.2.2
  rename_i hwhole
  split
  · rename_i hbig
    exact .wait fun _ _ hfits => Nat.not_le_of_lt hbig hfits.2
  rename_i hsmall
  have hwaiting : Waiting t.usb := ⟨hposted, hready,
    ⟨hword, Nat.le_of_not_lt hlen, Nat.le_of_not_lt hwhole⟩, Nat.le_of_not_lt hsmall⟩
  change Delivery write t (if (transfer write t).ok then _ else _)
  split
  · rename_i hok
    exact .deliver hwaiting hok
  · rename_i hfailed
    exact .lose ⟨hwaiting, by simpa using hfailed⟩

/-- A way of writing payloads leaves the queue in order, and a posted buffer posted. -/
def KeepsQueue (write : PayloadWrite) : Prop :=
  ∀ t addr bytes, Orderly t.usb ∧ t.usb.rxPosted = true →
    Orderly (write t addr bytes).state.usb ∧ (write t addr bytes).state.usb.rxPosted = true

theorem keepsQueue_guardedWrite (out : Outcomes) : KeepsQueue (guardedWrite out) := by
  intro t addr bytes h
  unfold guardedWrite
  split
  · exact h
  · exact h

section Delivery

variable {write : PayloadWrite} {t : BdifState} {r : BdifState × List UsbEvent}

theorem KeepsQueue.transfer (hkeeps : KeepsQueue write) (h : Orderly t.usb)
    (hwaiting : Waiting t.usb) :
    Orderly (transfer write t).state.usb ∧ (transfer write t).state.usb.rxPosted = true := by
  unfold Bdif.transfer
  split
  · exact ⟨h, hwaiting.1⟩
  · exact hkeeps t _ _ ⟨h, hwaiting.1⟩

theorem length_removeRange_le (input : List Byte) (n : Nat) :
    (removeRange input n).length ≤ input.length := by
  unfold removeRange
  split
  · rw [List.length_drop]
    omega
  · exact Nat.le_refl _

theorem Orderly.delivery (h : Orderly t.usb) (hkeeps : KeepsQueue write)
    (hr : Delivery write t r) : Orderly r.1.usb := by
  have hrest (hbounded : (transfer write t).state.usb.input.length ≤ vusbMaxRx) :
      (remaining write t).length ≤ vusbMaxRx :=
    (length_removeRange_le _ _).trans hbounded
  cases hr with
  | wait flowing => exact h
  | drop invalid => exact { h with bounded := Nat.zero_le _ }
  | deliver waiting ok =>
    obtain ⟨hafter, hposted⟩ := hkeeps.transfer h waiting
    exact { hafter with
      ready_posted := fun _ => hposted
      pending_ready := fun _ => rfl
      bounded := hrest hafter.bounded }
  | lose loses =>
    obtain ⟨hafter, -⟩ := hkeeps.transfer h loses.1
    exact { hafter with bounded := hrest hafter.bounded }

/-- A posted buffer stays posted. -/
theorem posted_delivery (h : Orderly t.usb) (hposted : t.usb.rxPosted = true)
    (hkeeps : KeepsQueue write) (hr : Delivery write t r) : r.1.usb.rxPosted = true := by
  cases hr with
  | wait flowing => exact hposted
  | drop invalid => exact hposted
  | deliver waiting ok => exact (hkeeps.transfer h waiting).2
  | lose loses => exact (hkeeps.transfer h loses.1).2

/-- A frame is lost to its transfer, which has raised no completion on the way, and the
frame then at the head fits the buffer then posted. -/
def StallsAt (write : PayloadWrite) (t : BdifState) : Prop :=
  LosesFrame write t ∧ (transfer write t).state.usb.rxReady = false ∧
    HeadFits (remaining write t) (transfer write t).state.usb.rx

/-- Where the payload goes to memory, this is a condition on the state before the delivery
and the outcome of the transfer. -/
theorem stallsAt_iff_of_plain {outcome : WriteOutcome}
    (hwrite : write t t.usb.rx.addr (headPayload t.usb.input) =
      plainWrite outcome t t.usb.rx.addr (headPayload t.usb.input)) :
    StallsAt write t ↔
      Waiting t.usb ∧ headLen t.usb.input ≠ 0 ∧ outcome.isOk = false ∧
        HeadFits (t.usb.input.drop (4 + headLen t.usb.input)) t.usb.rx := by
  unfold StallsAt LosesFrame remaining transfer
  by_cases hzero : headLen t.usb.input = 0
  · rw [if_pos hzero]
    exact iff_of_false (fun h => Bool.noConfusion h.1.2) fun h => h.2.1 hzero
  · rw [if_neg hzero, hwrite, plainWrite]
    dsimp only
    rw [dmaWrite_fst]
    constructor
    · rintro ⟨⟨hwaiting, hfailed⟩, -, hnext⟩
      rw [removeRange, if_pos hwaiting.2.2.1.2.2] at hnext
      exact ⟨hwaiting, hzero, hfailed, hnext⟩
    · rintro ⟨hwaiting, -, hfailed, hnext⟩
      refine ⟨⟨hwaiting, hfailed⟩, hwaiting.2.1, ?_⟩
      rw [removeRange, if_pos hwaiting.2.2.1.2.2]
      exact hnext

/-- After a delivery the queue flows, unless a frame was lost in front of one that fits. -/
theorem flowing_delivery (h : Orderly t.usb) (hkeeps : KeepsQueue write)
    (hr : Delivery write t r) : Flowing r.1.usb ↔ ¬StallsAt write t := by
  cases hr with
  | wait flowing =>
    exact iff_of_true flowing fun hstalls => not_waiting_iff.2 flowing hstalls.1.1
  | drop invalid =>
    refine iff_of_true (fun _ _ hfits => Nat.not_succ_le_zero _ hfits.1.1) fun hstalls => ?_
    obtain ⟨⟨⟨-, -, hfits⟩, -⟩, -⟩ := hstalls
    exact Nat.not_le_of_lt invalid.2 hfits.1.2.1
  | deliver waiting ok =>
    refine iff_of_true (fun _ hready => Bool.noConfusion hready) fun hstalls => ?_
    exact Bool.noConfusion (ok.symm.trans hstalls.1.2)
  | lose loses =>
    obtain ⟨-, hposted⟩ := hkeeps.transfer h loses.1
    rw [StallsAt, and_iff_right loses, not_and]
    exact ⟨fun hflow => hflow hposted, fun hnot _ => hnot⟩

end Delivery

/-! ## Handlers -/

/-- What a register write that tries no delivery does to the queue. -/
inductive Kept (u : Usb) : Usb → Prop
  | select (queue : Nat) : Kept u { u with queue := queue }
  | stash {desc : RxBuffer} (ready : u.rxReady = true) (len : ValidLen desc) :
      Kept u { u with pending := desc, rxPending := true }

/-- What a step that tries no delivery does to the queue. -/
inductive Quiet (u : Usb) : Usb → Prop
  | kept {v : Usb} (kept : Kept u v) : Quiet u v
  | consume (pending : u.rxPending = false) :
      Quiet u { u with rxPosted := false, rxReady := false }
  | clear {v : Usb} (input : v.input = []) (ready : v.rxReady = false)
      (posted : v.rxPosted = false) (pending : v.rxPending = false) : Quiet u v

theorem Kept.refl (u : Usb) : Kept u u := .select u.queue

theorem Kept.posted {u v : Usb} (h : Kept u v) : v.rxPosted = u.rxPosted := by
  cases h with
  | select queue => rfl
  | stash ready len => rfl

theorem Orderly.quiet {u v : Usb} (h : Orderly u) (hq : Quiet u v) : Orderly v := by
  cases hq with
  | kept kept =>
    cases kept with
    | select queue => exact { h with }
    | stash ready len =>
      exact { h with
        pending_ready := fun _ => ready
        pending_len := fun _ => len }
  | consume pending =>
    exact { h with
      ready_posted := nofun
      posted_len := nofun
      pending_ready := fun hp => by rw [pending] at hp; cases hp }
  | clear input ready posted pending =>
    refine ⟨?_, ?_, ?_, ?_, ?_⟩
    · simp [ready]
    · simp [pending]
    · simp [posted]
    · simp [pending]
    · simp [input]

theorem Flowing.quiet {u v : Usb} (h : Flowing u) (hq : Quiet u v) : Flowing v := by
  cases hq with
  | kept kept =>
    cases kept with
    | select queue => exact h
    | stash ready len => exact fun _ hready => Bool.noConfusion (ready.symm.trans hready)
  | consume pending => exact nofun
  | clear input ready posted pending =>
    exact fun hposted => Bool.noConfusion (posted.symm.trans hposted)

/-- A handler that tries a delivery from `t` on a condition, and otherwise does to the
queue what `idle` says. -/
def Handles (idle : Usb → Usb → Prop) (s : BdifState) (tries : Prop) (t : BdifState)
    (write : PayloadWrite) (r : BdifState) : Prop :=
  (tries ∧ r = (vusbTryDeliver write t).1) ∨ (¬tries ∧ idle s.usb r.usb)

section Handlers

variable {s t r : BdifState} {out : Outcomes} {write : PayloadWrite} {idle : Usb → Usb → Prop}

/-- A condition in front of a handler. -/
theorem Handles.guard {P tries : Prop} (h : P → Handles idle s tries t write r)
    (hnot : ¬P → idle s.usb r.usb) : Handles idle s (P ∧ tries) t write r := by
  by_cases hP : P
  · rcases h hP with ⟨htries, hr⟩ | ⟨htries, hq⟩
    · exact .inl ⟨⟨hP, htries⟩, hr⟩
    · exact .inr ⟨fun hboth => htries hboth.2, hq⟩
  · exact .inr ⟨fun hboth => hP hboth.1, hnot hP⟩

/-- `vusb_receive` drops a chunk that is empty or has no room, and tries a delivery
otherwise. -/
theorem vusbReceive_eq (s : BdifState) (chunk : List Byte) (out : Outcomes)
    (inner : Nat → Outcomes) :
    vusbReceive s chunk out inner =
      if chunk.length ≠ 0 ∧ s.usb.input.length + chunk.length ≤ vusbMaxRx then
        vusbTryDeliver (openWrite out inner) (s.append chunk)
      else (s, []) := by
  unfold vusbReceive
  split
  · rename_i hempty
    rw [if_neg fun h => h.1 hempty]
  · split
    · rw [if_neg fun h => by omega]
    · split
      · rw [if_neg fun h => by omega]
      · rename_i hsome _ hroom
        rw [if_pos ⟨hsome, Nat.le_of_not_lt hroom⟩]

theorem handles_vusbReceive (chunk : List Byte) (inner : Nat → Outcomes) :
    Handles Quiet s (chunk.length ≠ 0 ∧ s.usb.input.length + chunk.length ≤ vusbMaxRx)
      (s.append chunk) (openWrite out inner) (vusbReceive s chunk out inner).1 := by
  rw [vusbReceive_eq]
  split
  · exact .inl ⟨‹_›, rfl⟩
  · exact .inr ⟨‹_›, .kept (.refl s.usb)⟩

theorem handles_vusbPost (desc : RxBuffer) :
    Handles Kept s (s.usb.rxReady = false ∧ ValidLen desc)
      { s with usb := { s.usb with rx := desc, rxPosted := true } } (guardedWrite out)
      (vusbPost s desc out).1 := by
  have hkept : Kept s.usb s.usb := .refl s.usb
  unfold vusbPost
  cases hready : s.usb.rxReady with
  | true =>
    rw [if_pos rfl]
    refine .inr ⟨fun h => Bool.noConfusion h.1, ?_⟩
    split
    · exact hkept
    · rename_i hlen
      exact .stash hready (validLen_iff.2 hlen)
  | false =>
    rw [if_neg Bool.false_ne_true]
    split
    · rename_i hlen
      exact .inr ⟨fun h => validLen_iff.1 h.2 hlen, hkept⟩
    · rename_i hlen
      exact .inl ⟨⟨rfl, validLen_iff.2 hlen⟩, rfl⟩

/-- Transmitting leaves the receive queue alone. -/
theorem vusbTransmit_usb (desc : RxBuffer) : (vusbTransmit s desc out).usb = s.usb := by
  unfold vusbTransmit
  dsimp only
  split
  · rfl
  · split
    · rfl
    · split
      · split <;> rfl
      · rfl

theorem handles_vusbCmd (gpAddr : BitVec 64) :
    Handles Kept s (out.descriptor.isOk = true ∧ s.usb.queue = 0 ∧ s.usb.rxReady = false ∧
        ValidLen (usbDesc (readBytes s.mem gpAddr 128)))
      { s with usb :=
          { s.usb with rx := usbDesc (readBytes s.mem gpAddr 128), rxPosted := true } }
      (guardedWrite out)
      (vusbCmd s gpAddr out).1 := by
  have hkept : Kept s.usb s.usb := .refl s.usb
  unfold vusbCmd
  dsimp only
  rw [dmaRead_fst]
  refine .guard (fun hok => ?_) fun hnot => ?_
  · rw [if_neg (by simp [hok]), dmaRead_of_isOk _ _ _ hok]
    refine .guard (fun hqueue => ?_) fun hqueue => ?_
    · rw [if_pos hqueue]
      exact handles_vusbPost _
    · rw [if_neg hqueue]
      split
      · rw [vusbTransmit_usb]
        exact hkept
      · exact hkept
  · rw [if_pos (by simpa using hnot)]
    exact hkept

theorem handles_bdifWrite (offset value : BitVec 64) :
    Handles Kept s (regOf offset = regCmd ∧ devidOf offset = devidUsb ∧ s.connected = true ∧
        out.descriptor.isOk = true ∧ s.usb.queue = 0 ∧ s.usb.rxReady = false ∧
        ValidLen (usbDesc (readBytes s.mem value 128)))
      { s with usb :=
          { s.usb with rx := usbDesc (readBytes s.mem value 128), rxPosted := true } }
      (guardedWrite out)
      (bdifWrite s offset value out).1 := by
  have hkept : Kept s.usb s.usb := .refl s.usb
  refine .guard (fun hreg => ?_) fun hreg => ?_
  · refine .guard (fun hdev => ?_) fun hdev => ?_
    · have hwrite : bdifWrite s offset value out =
          if s.connected then vusbCmd s value out else (s, []) := by
        unfold bdifWrite
        simp only [hreg, hdev]
        rfl
      rw [hwrite]
      refine .guard (fun hconn => ?_) fun hconn => ?_
      · rw [if_pos hconn]
        exact handles_vusbCmd value
      · rw [if_neg hconn]
        exact hkept
    · rw [(bdifWrite_of_not_usb s value out hdev).1]
      exact hkept
  · unfold bdifWrite
    dsimp only
    rw [if_neg hreg]
    split
    · split
      · split
        · exact hkept
        · exact .select _
      · exact hkept
    · exact hkept

theorem handles_vusbConsume :
    Handles Quiet s (s.usb.rxPending = true)
      { s with usb :=
          { s.usb with
            rxPosted := true, rxReady := false, rxPending := false, rx := s.usb.pending
            pending := { addr := 0, len := 0 } } } (guardedWrite out)
      (vusbConsume s out).1 := by
  unfold vusbConsume
  dsimp only
  split
  · exact .inl ⟨‹_›, rfl⟩
  · rename_i hpending
    exact .inr ⟨hpending, .consume (by simpa using hpending)⟩

theorem handles_bdifRead (offset : BitVec 64) :
    Handles Quiet s ((regOf offset = regBusy ∧ devidOf offset = devidUsb) ∧
        (s.connected = true ∧ s.usb.queue = 0) ∧ s.usb.rxReady = true ∧ s.usb.rxPending = true)
      { s with usb :=
          { s.usb with
            rxPosted := true, rxReady := false, rxPending := false, rx := s.usb.pending
            pending := { addr := 0, len := 0 } } } (guardedWrite out)
      (bdifRead s offset out).2.1 := by
  have hquiet : Quiet s.usb s.usb := .kept (.refl s.usb)
  rw [bdifRead_snd]
  refine .guard (fun hreg => ?_) fun hreg => ?_
  · rw [if_pos hreg, usbBusy]
    refine .guard (fun hours => ?_) fun hours => ?_
    · rw [if_pos hours]
      refine .guard (fun hready => ?_) fun hready => ?_
      · rw [if_pos hready]
        exact handles_vusbConsume
      · rw [if_neg hready]
        exact hquiet
    · rw [if_neg hours]
      exact hquiet
  · rw [if_neg hreg]
    exact hquiet

end Handlers

/-! ## Steps -/

/-- The state in which a step calls `vusb_try_deliver`, if it does, and how payloads are
written there. -/
def attempt (s : BdifState) : Act → Option (BdifState × PayloadWrite)
  | .receive chunk out inner =>
    if chunk.length ≠ 0 ∧ s.usb.input.length + chunk.length ≤ vusbMaxRx then
      some (s.append chunk, openWrite out inner)
    else none
  | .write offset value out =>
    let desc := usbDesc (readBytes s.mem value 128)
    if regOf offset = regCmd ∧ devidOf offset = devidUsb ∧ s.connected = true ∧
        out.descriptor.isOk = true ∧ s.usb.queue = 0 ∧ s.usb.rxReady = false ∧
        ValidLen desc then
      some ({ s with usb := { s.usb with rx := desc, rxPosted := true } }, guardedWrite out)
    else none
  | .read offset out =>
    if (regOf offset = regBusy ∧ devidOf offset = devidUsb) ∧
        (s.connected = true ∧ s.usb.queue = 0) ∧ s.usb.rxReady = true ∧
        s.usb.rxPending = true then
      some ({ s with usb :=
        { s.usb with
          rxPosted := true, rxReady := false, rxPending := false, rx := s.usb.pending
          pending := { addr := 0, len := 0 } } }, guardedWrite out)
    else none
  | _ => none

/-- The step is a `vusb_receive` that delivers a frame to registers of the device itself. -/
def Reenters (s : BdifState) : Act → Prop
  | .receive chunk _ _ =>
    (chunk.length ≠ 0 ∧ s.usb.input.length + chunk.length ≤ vusbMaxRx) ∧
      Waiting (s.append chunk).usb ∧
      reachesWindow s.usb.rx.addr (headLen (s.usb.input ++ chunk)) = true
  | _ => False

instance (s : BdifState) : ∀ a, Decidable (Reenters s a)
  | .receive _ _ _ => inferInstanceAs (Decidable ((_ ∧ _) ∧ _ ∧ _))
  | .write _ _ _ => inferInstanceAs (Decidable False)
  | .read _ _ => inferInstanceAs (Decidable False)
  | .store _ => inferInstanceAs (Decidable False)
  | .event => inferInstanceAs (Decidable False)
  | .reset => inferInstanceAs (Decidable False)

/-- A step loses a frame to a failed transfer, and the next frame is complete and fits the
posted buffer. -/
def Stalls (s : BdifState) (a : Act) : Prop :=
  ∃ t write, attempt s a = some (t, write) ∧ StallsAt write t

/-- What a handler's condition says about the step. -/
theorem Handles.cases {idle : Usb → Usb → Prop} {s t r : BdifState} {tries : Prop}
    [Decidable tries] {write : PayloadWrite} (h : Handles idle s tries t write r) :
    (∃ t' write', (if tries then some (t, write) else none) = some (t', write') ∧
        r = (vusbTryDeliver write' t').1) ∨
      ((if tries then some (t, write) else none) = none ∧ idle s.usb r.usb) := by
  rcases h with ⟨htries, hr⟩ | ⟨htries, hq⟩
  · exact .inl ⟨t, write, if_pos htries, hr⟩
  · exact .inr ⟨if_neg htries, hq⟩

/-- A register write tries one delivery, or keeps the posted buffer and the input. -/
theorem write_cases (s : BdifState) (offset value : BitVec 64) (out : Outcomes) :
    (∃ t write, attempt s (.write offset value out) = some (t, write) ∧
        (bdifWrite s offset value out).1 = (vusbTryDeliver write t).1) ∨
      (attempt s (.write offset value out) = none ∧
        Kept s.usb (bdifWrite s offset value out).1.usb) :=
  (handles_bdifWrite offset value).cases

/-- A step tries one delivery, or is quiet. -/
theorem step_cases (s : BdifState) (a : Act) :
    (∃ t write, attempt s a = some (t, write) ∧ (step s a).1 = (vusbTryDeliver write t).1) ∨
      (attempt s a = none ∧ Quiet s.usb (step s a).1.usb) := by
  cases a with
  | receive chunk out inner => exact (handles_vusbReceive chunk inner).cases
  | write offset value out =>
    rcases write_cases s offset value out with htries | ⟨hnone, hkept⟩
    · exact .inl htries
    · exact .inr ⟨hnone, .kept hkept⟩
  | read offset out => exact (handles_bdifRead offset).cases
  | store mem => exact .inr ⟨rfl, .kept (.refl s.usb)⟩
  | event => exact .inr ⟨rfl, .clear rfl rfl rfl rfl⟩
  | reset => exact .inr ⟨rfl, .clear rfl rfl rfl rfl⟩

/-- The state a delivery is tried in is orderly. -/
theorem Orderly.attempt {s t : BdifState} {a : Act} {write : PayloadWrite} (h : Orderly s.usb)
    (hattempt : attempt s a = some (t, write)) : Orderly t.usb := by
  unfold Bdif.attempt at hattempt
  cases a with
  | receive chunk out inner =>
    dsimp only at hattempt
    split at hattempt
    · rename_i hroom
      cases hattempt
      exact { h with bounded := by simpa [BdifState.append] using hroom.2 }
    · cases hattempt
  | write offset value out =>
    dsimp only at hattempt
    split at hattempt
    · rename_i hpost
      cases hattempt
      exact { h with
        ready_posted := fun _ => rfl
        posted_len := fun _ => hpost.2.2.2.2.2.2 }
    · cases hattempt
  | read offset out =>
    dsimp only at hattempt
    split at hattempt
    · rename_i hpromote
      cases hattempt
      exact { h with
        ready_posted := nofun
        pending_ready := nofun
        posted_len := fun _ => h.pending_len hpromote.2.2.2
        pending_len := nofun }
    · cases hattempt
  | store mem => cases hattempt
  | event => cases hattempt
  | reset => cases hattempt

/-- A register write keeps the queue in order and a posted buffer posted. -/
theorem orderly_bdifWrite {s : BdifState} (offset value : BitVec 64) (out : Outcomes)
    (h : Orderly s.usb ∧ s.usb.rxPosted = true) :
    Orderly (bdifWrite s offset value out).1.usb ∧
      (bdifWrite s offset value out).1.usb.rxPosted = true := by
  rcases write_cases s offset value out with ⟨t, write, hattempt, hwrite⟩ | ⟨-, hkept⟩
  · have horderly : Orderly t.usb := h.1.attempt hattempt
    unfold attempt at hattempt
    dsimp only at hattempt
    split at hattempt
    · cases hattempt
      rw [hwrite]
      exact ⟨horderly.delivery (keepsQueue_guardedWrite out) (delivery_vusbTryDeliver _ _),
        posted_delivery horderly rfl (keepsQueue_guardedWrite out) (delivery_vusbTryDeliver _ _)⟩
    · cases hattempt
  · exact ⟨h.1.quiet (.kept hkept), hkept.posted.trans h.2⟩

/-- So does a transfer that enters the device again, access by access. -/
theorem keepsQueue_openWrite (out : Outcomes) (inner : Nat → Outcomes) :
    KeepsQueue (openWrite out inner) := by
  intro t addr bytes h
  unfold openWrite
  split
  · refine run_invariant_all
      (P := fun d : Dispatch => Orderly d.state.usb ∧ d.state.usb.rxPosted = true)
      (fun d x hd => ?_) _ h
    unfold dispatch
    split
    · split
      · exact hd
      · exact hd
    · exact orderly_bdifWrite _ _ _ hd
  · exact h

/-- However a step writes payloads, the queue stays in order. -/
theorem keepsQueue_attempt {s t : BdifState} {a : Act} {write : PayloadWrite}
    (hattempt : attempt s a = some (t, write)) : KeepsQueue write := by
  unfold attempt at hattempt
  cases a with
  | receive chunk out inner =>
    dsimp only at hattempt
    split at hattempt
    · cases hattempt
      exact keepsQueue_openWrite out inner
    · cases hattempt
  | write offset value out =>
    dsimp only at hattempt
    split at hattempt
    · cases hattempt
      exact keepsQueue_guardedWrite out
    · cases hattempt
  | read offset out =>
    dsimp only at hattempt
    split at hattempt
    · cases hattempt
      exact keepsQueue_guardedWrite out
    · cases hattempt
  | store mem => cases hattempt
  | event => cases hattempt
  | reset => cases hattempt

theorem orderly_step {s : BdifState} (a : Act) (h : Orderly s.usb) :
    Orderly (step s a).1.usb := by
  rcases step_cases s a with ⟨t, write, hattempt, hstep⟩ | ⟨-, hquiet⟩
  · rw [hstep]
    exact (h.attempt hattempt).delivery (keepsQueue_attempt hattempt)
      (delivery_vusbTryDeliver write t)
  · exact h.quiet hquiet

/-- A step keeps the queue flowing exactly if it does not stall it. -/
theorem flowing_step {s : BdifState} (a : Act) (horderly : Orderly s.usb)
    (h : Flowing s.usb) : Flowing (step s a).1.usb ↔ ¬Stalls s a := by
  rcases step_cases s a with ⟨t, write, hattempt, hstep⟩ | ⟨hnone, hquiet⟩
  · rw [hstep, flowing_delivery (horderly.attempt hattempt) (keepsQueue_attempt hattempt)
      (delivery_vusbTryDeliver write t)]
    refine not_congr ⟨fun hstalls => ⟨t, write, hattempt, hstalls⟩, ?_⟩
    rintro ⟨t', write', hattempt', hstalls⟩
    rw [hattempt] at hattempt'
    cases hattempt'
    exact hstalls
  · refine iff_of_true (h.quiet hquiet) ?_
    rintro ⟨t, write, hattempt, -⟩
    rw [hnone] at hattempt
    cases hattempt

theorem consistent_iff {s : BdifState} (h : Orderly s.usb) : Consistent s ↔ Flowing s.usb :=
  ⟨fun hc => hc.flowing, fun hf => { h with full := full_of_canReceive, flowing := hf }⟩

theorem orderly_reset (s : BdifState) : Orderly (vusbResetState s).usb where
  ready_posted := nofun
  pending_ready := nofun
  posted_len := nofun
  pending_len := nofun
  bounded := Nat.zero_le _

/-- **After every handler of a run the queue is consistent, exactly if no step of the run
stalls it.** -/
theorem consistent_always_iff (s : BdifState) (actions : List Act) :
    (∀ front, front <+: actions → Consistent (final step (vusbResetState s) front)) ↔
      Guarded (fun t a => (step t a).1) (fun t a => ¬Stalls t a) (vusbResetState s) actions := by
  have hinit : Orderly (vusbResetState s).usb := orderly_reset s
  refine always_iff_guarded (P := Consistent) (Q := fun t => Orderly t.usb)
    (fun t a => orderly_step a) (fun t a horderly hcons => ?_)
    actions hinit ((consistent_iff hinit).2 nofun)
  rw [consistent_iff (orderly_step a horderly)]
  exact flowing_step a horderly hcons.flowing

/-- A guest whose descriptor at 0x70000000 names a buffer of 64 bytes at the last byte of
its RAM, 0xAFFFFFFF. -/
def guestAtRamEnd : BdifState where
  usb := idleUsb
  root := []
  aux := []
  mem := writeBytes (fun _ => 0) 0x70000000#64
    [0xff, 0xff, 0xff, 0xaf, 0, 0, 0, 0, 64, 0, 0, 0]
  connected := true
  sent := []

/-- The host sends a frame of two bytes and one of one byte, then the guest posts the
buffer: the second byte of the first frame has nowhere to go. -/
def twoFramesThenPost : List Act :=
  [.receive [2, 0, 0, 0, 0xaa, 0xbb, 1, 0, 0, 0, 0xcc] {} (fun _ => {}),
    .write (devidUsb + regCmd) 0x70000000#64 { dataWrite := .failed fun i => i == 0 }]

/-- The second frame fits the posted buffer, and the guest polls for it in vain. -/
theorem lost_frame_stalls_next :
    let s := final step (vusbResetState guestAtRamEnd) twoFramesThenPost
    s.usb.rxPosted = true ∧ s.usb.rxReady = false ∧ s.usb.input = [1, 0, 0, 0, 0xcc] ∧
      s.usb.rx.len = 64 ∧
      (∀ out, (bdifRead s (devidUsb + regBusy) out).1 = 0) ∧ ¬Consistent s := by
  intro s
  have hposted : s.usb.rxPosted = true := by decide
  have hready : s.usb.rxReady = false := by decide
  have hinput : s.usb.input = [1, 0, 0, 0, 0xcc] := by decide
  have hlen : s.usb.rx.len = 64 := by decide
  refine ⟨hposted, hready, hinput, hlen, fun out => rfl, fun h => ?_⟩
  refine h.flowing hposted hready ?_
  rw [HeadFits, HeadComplete, hinput, hlen]
  decide

end Orchard.Bdif
