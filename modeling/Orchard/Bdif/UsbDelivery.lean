/-
  Bdif/UsbDelivery.lean --- what the guest receives is what the host sent.

  The host appends bytes of a framed stream in chunks of its own choosing; the guest
  posts, reposts and polls at any moment.  The log of receive events is read by three
  folds that know nothing of the device: the payloads delivered so far, whether a
  completion is still unread, and the buffer posted or promoted last.  One invariant
  (`Tracks`) ties the device's flags and its input to them; every handler is a short
  sequence of moves that keep it.

  The exception is a frame `vusb_receive` writes to the device's own registers: the
  handler it enters takes the frame off the input, and the outer delivery then raises a
  second completion for it and removes the bytes of the next one.
-/
import Orchard.Bdif.ReceiveQueue

set_option autoImplicit false

namespace Orchard.Bdif

open Orchard.Foundation

/-! ## Reading the log -/

/-- The payloads delivered. -/
def delivered (log : List UsbEvent) : List (List Byte) :=
  log.filterMap fun
    | .deliver _ payload => some payload
    | _ => none

/-- The guest found the queue ready: a read of `REG_BUSY` with queue 0 selected. -/
def UsbEvent.readsReady : UsbEvent → Bool
  | .busy queue value => decide (queue = 0 ∧ value = regBusyReady)
  | _ => false

/-- The last delivery has not been read off yet. -/
def unread (log : List UsbEvent) : Bool :=
  log.foldl (fun before e =>
    match e with
    | .deliver _ _ => true
    | e => before && !e.readsReady) false

/-- The buffer posted or promoted last. -/
def current (log : List UsbEvent) : Option RxBuffer :=
  log.foldl (fun before e =>
    match e with
    | .post buffer => some buffer
    | .promote buffer => some buffer
    | _ => before) none

/-- What is required of an event after the events before it. -/
def Lawful (log : List UsbEvent) : UsbEvent → Prop
  | .deliver buffer payload =>
    unread log = false ∧ current log = some buffer ∧ payload.length ≤ buffer.len
  | e => e.readsReady = true → unread log = true

/-- The bytes the host has sent. -/
def received (actions : List Act) : List Byte :=
  actions.flatMap fun
    | .receive chunk _ _ => chunk
    | _ => []

/-- Memory after the deliveries of a log. -/
def storeDelivered (mem : GuestMemory) (log : List UsbEvent) : GuestMemory :=
  log.foldl (fun m e =>
    match e with
    | .deliver buffer payload => writeBytes m buffer.addr payload
    | _ => m) mem

/-- The event is the loss of a frame. -/
def UsbEvent.isDmaFail : UsbEvent → Bool
  | .dmaFail _ _ => true
  | _ => false

/-- No transfer of a payload failed. -/
def Lossless (log : List UsbEvent) : Prop := ∀ e ∈ log, e.isDmaFail = false

instance (log : List UsbEvent) : Decidable (Lossless log) :=
  inferInstanceAs (Decidable (∀ e ∈ log, _))

@[simp] theorem delivered_concat (log : List UsbEvent) (e : UsbEvent) :
    delivered (log ++ [e]) = delivered log ++ delivered [e] :=
  List.filterMap_append

@[simp] theorem unread_concat_deliver (log : List UsbEvent) (b : RxBuffer) (p : List Byte) :
    unread (log ++ [.deliver b p]) = true := by
  simp [unread]

theorem unread_concat_quiet (log : List UsbEvent) {e : UsbEvent} (he : delivered [e] = []) :
    unread (log ++ [e]) = (unread log && !e.readsReady) := by
  cases e with
  | deliver b p => cases he
  | _ => simp [unread]

/-! ## The invariant -/

/-- How the receive queue, the bytes that have arrived and the log belong together. -/
structure Tracks (u : Usb) (arrived : List Byte) (log : List UsbEvent) : Prop where
  /-- every byte was delivered in a frame or is still in the input -/
  conserved : encodeFrames (delivered log) ++ u.input = arrived
  small : ∀ f ∈ delivered log, f.length ≤ vusbMaxPacket
  ready : u.rxReady = unread log
  posted : u.rxPosted = true → current log = some u.rx
  lawful : Everywhere Lawful log

/-- An event that delivers nothing and reads nothing off, with a queue that has the
same input and ready bit. -/
theorem Tracks.quiet {u v : Usb} {arrived : List Byte} {log : List UsbEvent} {e : UsbEvent}
    (h : Tracks u arrived log) (he : delivered [e] = []) (hread : e.readsReady = false)
    (hinput : v.input = u.input) (hready : v.rxReady = u.rxReady)
    (hposted : v.rxPosted = true → current (log ++ [e]) = some v.rx) :
    Tracks v arrived (log ++ [e]) where
  conserved := by rw [delivered_concat, he, List.append_nil, hinput, h.conserved]
  small := by simpa [he] using h.small
  ready := by rw [hready, h.ready, unread_concat_quiet log he, hread]; simp
  posted := hposted
  lawful := by
    refine everywhere_concat h.lawful ?_
    cases e with
    | deliver b p => cases he
    | _ => simp [Lawful, hread]

/-- A queue that differs only in what the invariant does not read. -/
theorem Tracks.congr {u v : Usb} {arrived : List Byte} {log : List UsbEvent}
    (h : Tracks u arrived log) (hinput : v.input = u.input) (hready : v.rxReady = u.rxReady)
    (hposted : v.rxPosted = u.rxPosted) (hrx : v.rx = u.rx) : Tracks v arrived log where
  conserved := by rw [hinput, h.conserved]
  small := h.small
  ready := by rw [hready, h.ready]
  posted := by rw [hposted, hrx]; exact h.posted
  lawful := h.lawful

/-- Bytes arrive. -/
theorem Tracks.arrive {u : Usb} {arrived : List Byte} {log : List UsbEvent}
    (h : Tracks u arrived log) (chunk : List Byte) :
    Tracks { u with input := u.input ++ chunk } (arrived ++ chunk) log where
  conserved := by rw [← h.conserved, List.append_assoc]
  small := h.small
  ready := h.ready
  posted := h.posted
  lawful := h.lawful

/-- The guest reads a completion off. -/
theorem Tracks.consume {u : Usb} {arrived : List Byte} {log : List UsbEvent}
    (h : Tracks u arrived log) (hready : u.rxReady = true) :
    Tracks { u with rxPosted := false, rxReady := false } arrived
      (log ++ [.busy 0 regBusyReady]) where
  conserved := by simpa [delivered] using h.conserved
  small := by simpa [delivered] using h.small
  ready := by simp [unread, UsbEvent.readsReady]
  posted := by simp
  lawful := everywhere_concat h.lawful (fun _ => by rw [← h.ready, hready])

/-- A frame at the front of the input is delivered. -/
theorem Tracks.deliver {u : Usb} {arrived : List Byte} {log : List UsbEvent} {f rest : List Byte}
    (h : Tracks u arrived log) (hposted : u.rxPosted = true) (hready : u.rxReady = false)
    (hfits : f.length ≤ u.rx.len) (hsmall : f.length ≤ vusbMaxPacket)
    (hinput : u.input = encodeFrame f ++ rest) :
    Tracks { u with rxReady := true, input := rest } arrived (log ++ [.deliver u.rx f]) where
  conserved := by
    rw [← h.conserved, hinput]
    simp [delivered, encodeFrames_append]
  small := by
    intro g hg
    rw [delivered_concat, List.mem_append] at hg
    rcases hg with hg | hg
    · exact h.small g hg
    · obtain rfl : g = f := by simpa [delivered] using hg
      exact hsmall
  ready := by simp
  posted := by
    intro _
    have hcurrent := h.posted hposted
    simpa [current] using hcurrent
  lawful := everywhere_concat h.lawful ⟨by rw [← h.ready, hready], h.posted hposted, hfits⟩

/-! ## The handlers -/

/-- The frames a host may send. -/
def Sendable (frames : List (List Byte)) : Prop := ∀ f ∈ frames, f.length ≤ vusbMaxPacket

theorem framable_of_sendable {frames : List (List Byte)} (h : Sendable frames) :
    Framable frames := by
  intro f hf
  have hlen := h f hf
  simp only [vusbMaxPacket] at hlen
  omega

/-- A transfer that goes through stores the head frame in the posted buffer and does
nothing else. -/
def Stores (write : PayloadWrite) (t : BdifState) : Prop :=
  (transfer write t).ok = true → transfer write t =
    { ok := true
      state := { t with mem := writeBytes t.mem t.usb.rx.addr (headPayload t.usb.input) }
      events := [] }

/-- An empty frame needs no transfer, and one would change nothing. -/
theorem stores_of_write {write : PayloadWrite} {t : BdifState}
    (h : headLen t.usb.input ≠ 0 →
      ∃ outcome, write t t.usb.rx.addr (headPayload t.usb.input) =
        plainWrite outcome t t.usb.rx.addr (headPayload t.usb.input)) : Stores write t := by
  intro hok
  unfold transfer at hok ⊢
  split at hok
  · rename_i hzero
    have hempty : headPayload t.usb.input = [] := by rw [headPayload, hzero, List.take_zero]
    have hmem : writeBytes t.mem t.usb.rx.addr [] = t.mem :=
      funext fun a => writeBytes_of_outside t.mem (Nat.zero_le _)
    rw [if_pos hzero, hempty, hmem]
  · rename_i hsome
    obtain ⟨outcome, hwrite⟩ := h hsome
    rw [hwrite] at hok
    have hisOk : outcome.isOk = true := (dmaWrite_fst _ _ _ outcome).symm.trans hok
    rw [if_neg hsome, hwrite, plainWrite, dmaWrite_fst, hisOk, dmaWrite_of_isOk _ _ _ hisOk]

theorem stores_guardedWrite (out : Outcomes) (t : BdifState) : Stores (guardedWrite out) t := by
  refine stores_of_write fun _ => ?_
  unfold guardedWrite
  split
  · exact ⟨_, rfl⟩
  · exact ⟨_, rfl⟩

/-- `vusb_receive` only stores a frame whose buffer is outside of the device's registers. -/
theorem stores_openWrite (out : Outcomes) (inner : Nat → Outcomes) {t : BdifState}
    (hcomplete : HeadComplete t.usb.input)
    (hown : reachesWindow t.usb.rx.addr (headLen t.usb.input) = false) :
    Stores (openWrite out inner) t := by
  refine stores_of_write fun _ => ⟨out.dataWrite, ?_⟩
  rw [openWrite, length_headPayload hcomplete, hown, if_neg Bool.false_ne_true]

/-- What `vusb_try_deliver` does when the input begins a stream of frames and the
transfer goes through: nothing, or the first frame goes to the posted buffer. -/
theorem vusbTryDeliver_cases {write : PayloadWrite} {s : BdifState} {frames : List (List Byte)}
    (hstores : Waiting s.usb → Stores write s) (hframes : Sendable frames)
    (hinput : s.usb.input <+: encodeFrames frames)
    (hok : Lossless (vusbTryDeliver write s).2) :
    vusbTryDeliver write s = (s, []) ∨
      ∃ f rest, s.usb.rxPosted = true ∧ s.usb.rxReady = false ∧ f.length ≤ s.usb.rx.len ∧
        f.length ≤ vusbMaxPacket ∧ s.usb.input = encodeFrame f ++ rest ∧
        vusbTryDeliver write s =
          ({ s with
              mem := writeBytes s.mem s.usb.rx.addr f
              usb := { s.usb with rxReady := true, input := rest } },
            [.deliver s.usb.rx f]) := by
  -- what stands at the head of the input is the first frame
  have hhead (hword : 4 ≤ s.usb.input.length) : ∃ f others, frames = f :: others ∧
      headLen s.usb.input = f.length ∧
        (4 + f.length ≤ s.usb.input.length → headPayload s.usb.input = f ∧
          s.usb.input = encodeFrame f ++ s.usb.input.drop (4 + f.length)) := by
    cases frames with
    | nil =>
      have hlen := hinput.length_le
      simp at hlen
      simp [hlen] at hword
    | cons f others =>
      obtain ⟨hlen, hbody⟩ :=
        head_of_encodeFrame (framable_of_sendable hframes f List.mem_cons_self) hinput hword
      have hlen' : headLen s.usb.input = f.length := hlen
      refine ⟨f, others, rfl, hlen', fun hwhole => ?_⟩
      obtain ⟨hpayload, hcut, -⟩ := hbody hwhole
      exact ⟨by rw [headPayload, hlen', hpayload], hcut⟩
  have hresult := delivery_vusbTryDeliver write s
  generalize vusbTryDeliver write s = result at hresult hok ⊢
  cases hresult with
  | wait flowing => exact .inl rfl
  | drop invalid =>
    obtain ⟨f, others, rfl, hlen, -⟩ := hhead invalid.1
    have hsmall := hframes f List.mem_cons_self
    rw [← hlen] at hsmall
    exact absurd hsmall (Nat.not_le_of_lt invalid.2)
  | deliver waiting ok =>
    obtain ⟨posted, ready, ⟨hword, hsmall, hwhole⟩, hfits⟩ := id waiting
    obtain ⟨f, others, rfl, hlen, hbody⟩ := hhead hword
    rw [hlen] at hsmall hwhole hfits
    obtain ⟨hpayload, hcut⟩ := hbody hwhole
    refine .inr ⟨f, s.usb.input.drop (4 + f.length), posted, ready, hfits, hsmall, hcut, ?_⟩
    rw [remaining, hstores waiting ok, hpayload, hlen, removeRange, if_pos hwhole]
    rfl
  | lose loses =>
    have hlost := hok _ (List.mem_append_right _ List.mem_cons_self)
    cases hlost

/-- A handler that started in `s` kept the invariant and stored what it delivered. -/
structure Handled (s : BdifState) (arrived : List Byte) (log : List UsbEvent)
    (r : BdifState × List UsbEvent) : Prop where
  tracks : Tracks r.1.usb arrived (log ++ r.2)
  connected : r.1.connected = s.connected
  mem : r.1.mem = storeDelivered s.mem r.2

/-- A handler does so unless one of its transfers fails. -/
def Delivers (s : BdifState) (arrived : List Byte) (log : List UsbEvent)
    (r : BdifState × List UsbEvent) : Prop :=
  Lossless r.2 → Handled s arrived log r

/-- A step without receive events that leaves the queue's input, flags and buffer. -/
theorem delivers_idle {s t : BdifState} {arrived : List Byte} {log : List UsbEvent}
    (h : Tracks s.usb arrived log) (hinput : t.usb.input = s.usb.input)
    (hready : t.usb.rxReady = s.usb.rxReady) (hposted : t.usb.rxPosted = s.usb.rxPosted)
    (hrx : t.usb.rx = s.usb.rx) (hconn : t.connected = s.connected) (hmem : t.mem = s.mem) :
    Delivers s arrived log (t, []) := by
  refine fun _ => ⟨?_, hconn, hmem⟩
  rw [List.append_nil]
  exact h.congr hinput hready hposted hrx

/-- An event that delivers nothing comes before the rest of a handler. -/
theorem Delivers.after {s t : BdifState} {arrived : List Byte} {log : List UsbEvent}
    {e : UsbEvent} {r : BdifState × List UsbEvent} (h : Delivers t arrived (log ++ [e]) r)
    (he : delivered [e] = []) (hconn : t.connected = s.connected) (hmem : t.mem = s.mem) :
    Delivers s arrived log (r.1, e :: r.2) := by
  intro hok
  have hrest := h fun x hx => hok x (List.mem_cons_of_mem e hx)
  refine ⟨by simpa using hrest.tracks, hrest.connected.trans hconn, ?_⟩
  rw [hrest.mem, hmem]
  cases e with
  | deliver b p => cases he
  | _ => rfl

section Stream

variable {frames : List (List Byte)} {arrived : List Byte} {log : List UsbEvent}
  {s : BdifState} {out : Outcomes}

theorem delivers_vusbTryDeliver {write : PayloadWrite}
    (hstores : Waiting s.usb → Stores write s) (hframes : Sendable frames)
    (harrived : arrived <+: encodeFrames frames) (h : Tracks s.usb arrived log) :
    Delivers s arrived log (vusbTryDeliver write s) := by
  intro hok
  obtain ⟨rest, hrest, hinput⟩ :=
    frames_of_prefix (framable_of_sendable h.small) (framable_of_sendable hframes)
      (h.conserved ▸ harrived)
  have hsend : Sendable rest := fun f hf => hframes f (hrest ▸ List.mem_append_right _ hf)
  rcases vusbTryDeliver_cases hstores hsend hinput hok with
    hnone | ⟨f, tail, hposted, hready, hfits, hsmall, hcut, heq⟩
  · rw [hnone] at hok ⊢
    exact delivers_idle h rfl rfl rfl rfl rfl rfl hok
  · rw [heq]
    exact ⟨h.deliver hposted hready hfits hsmall hcut, rfl, rfl⟩

/-- In a register access the transfer stores the frame, or fails. -/
theorem delivers_guarded (hframes : Sendable frames) (harrived : arrived <+: encodeFrames frames)
    (h : Tracks s.usb arrived log) :
    Delivers s arrived log (vusbTryDeliver (guardedWrite out) s) :=
  delivers_vusbTryDeliver (fun _ => stores_guardedWrite out s) hframes harrived h

/-- `vusb_receive` never drops a chunk that respects `vusb_can_receive`. -/
theorem delivers_vusbReceive {chunk : List Byte} {inner : Nat → Outcomes}
    (hframes : Sendable frames) (harrived : arrived ++ chunk <+: encodeFrames frames)
    (hroom : chunk.length ≤ vusbCanReceive s) (hown : ¬Reenters s (.receive chunk out inner))
    (h : Tracks s.usb arrived log) :
    Delivers s (arrived ++ chunk) log (vusbReceive s chunk out inner) := by
  rw [vusbReceive_eq]
  split
  · rename_i htaken
    have hstores (hwaiting : Waiting (s.append chunk).usb) :
        Stores (openWrite out inner) (s.append chunk) :=
      stores_openWrite out inner hwaiting.2.2.1
        (Bool.eq_false_iff.2 fun hreach => hown ⟨htaken, hwaiting, hreach⟩)
    have hdone := delivers_vusbTryDeliver hstores hframes harrived (h.arrive chunk)
    exact fun hok => ⟨(hdone hok).tracks, (hdone hok).connected, (hdone hok).mem⟩
  · rename_i hrefused
    have hempty : chunk = [] := by
      unfold vusbCanReceive at hroom
      split at hroom
      · exact List.length_eq_zero_iff.mp (by omega)
      · exact List.length_eq_zero_iff.mp (not_not.mp fun hsome => hrefused ⟨hsome, by omega⟩)
    rw [hempty, List.append_nil]
    exact delivers_idle h rfl rfl rfl rfl rfl rfl

theorem delivers_vusbPost (desc : RxBuffer) (hframes : Sendable frames)
    (harrived : arrived <+: encodeFrames frames) (h : Tracks s.usb arrived log) :
    Delivers s arrived log (vusbPost s desc out) := by
  have hnone : Delivers s arrived log (s, []) := delivers_idle h rfl rfl rfl rfl rfl rfl
  unfold vusbPost
  split
  · split
    · exact hnone
    · have hstash : Tracks s.usb arrived (log ++ [.stash desc]) :=
        h.quiet rfl rfl rfl rfl (fun hp => by simpa [current] using h.posted hp)
      exact fun _ => ⟨hstash.congr rfl rfl rfl rfl, rfl, rfl⟩
  · split
    · exact hnone
    · have hpost : Tracks { s.usb with rx := desc, rxPosted := true } arrived
          (log ++ [.post desc]) :=
        h.quiet rfl rfl rfl rfl (fun _ => by simp [current])
      exact Delivers.after (s := s) (delivers_guarded
        (s := { s with usb := { s.usb with rx := desc, rxPosted := true } })
        hframes harrived hpost) rfl rfl rfl

/-- Transmission touches neither the receive queue nor memory. -/
theorem delivers_vusbTransmit (desc : RxBuffer) (h : Tracks s.usb arrived log) :
    Delivers s arrived log (vusbTransmit s desc out, []) := by
  have hsent (bytes : List Byte) : Delivers s arrived log ({ s with sent := bytes }, []) :=
    delivers_idle h rfl rfl rfl rfl rfl rfl
  unfold vusbTransmit
  dsimp only
  split
  · exact hsent s.sent
  · split
    · exact hsent s.sent
    · split
      · split
        · exact hsent _
        · exact hsent _
      · exact hsent s.sent

theorem delivers_vusbCmd (gpAddr : BitVec 64) (hframes : Sendable frames)
    (harrived : arrived <+: encodeFrames frames) (h : Tracks s.usb arrived log) :
    Delivers s arrived log (vusbCmd s gpAddr out) := by
  have hnone : Delivers s arrived log (s, []) := delivers_idle h rfl rfl rfl rfl rfl rfl
  unfold vusbCmd
  dsimp only
  split
  · exact hnone
  · split
    · exact delivers_vusbPost _ hframes harrived h
    · split
      · exact delivers_vusbTransmit _ h
      · exact hnone

/-- A read that finds a completion takes it off and promotes the stashed buffer. -/
theorem delivers_vusbConsume (hframes : Sendable frames)
    (harrived : arrived <+: encodeFrames frames)
    (h : Tracks { s.usb with rxPosted := false, rxReady := false } arrived log) :
    Delivers s arrived log (vusbConsume s out) := by
  unfold vusbConsume
  dsimp only
  split
  · have hpromote : Tracks
        { s.usb with
          rxPosted := true, rxReady := false, rxPending := false, rx := s.usb.pending,
          pending := { addr := 0, len := 0 } } arrived (log ++ [.promote s.usb.pending]) :=
      h.quiet rfl rfl rfl rfl (fun _ => by simp [current])
    exact Delivers.after (s := s) (delivers_guarded
      (s := { s with usb :=
        { s.usb with
          rxPosted := true, rxReady := false, rxPending := false, rx := s.usb.pending,
          pending := { addr := 0, len := 0 } } })
      hframes harrived hpromote) rfl rfl rfl
  · exact fun _ => ⟨by simpa using h, rfl, rfl⟩

theorem delivers_usbBusy (hframes : Sendable frames)
    (harrived : arrived <+: encodeFrames frames) (hconn : s.connected = true)
    (h : Tracks s.usb arrived log) :
    Delivers s arrived log (usbBusy s out).2 := by
  have hpolled {queue : Nat} {value : BitVec 64}
      (hread : (UsbEvent.busy queue value).readsReady = false) :
      Delivers s arrived log (s, [.busy queue value]) :=
    fun _ => ⟨h.quiet rfl hread rfl rfl (fun hp => by simpa [current] using h.posted hp), rfl, rfl⟩
  unfold usbBusy
  split
  · split
    · rename_i hready
      exact (delivers_vusbConsume hframes harrived (h.consume hready)).after rfl rfl rfl
    · exact hpolled (by decide)
  · rename_i hother
    exact hpolled (by simpa [UsbEvent.readsReady, hconn] using hother)

theorem delivers_bdifRead (offset : BitVec 64) (hframes : Sendable frames)
    (harrived : arrived <+: encodeFrames frames) (hconn : s.connected = true)
    (h : Tracks s.usb arrived log) :
    Delivers s arrived log (bdifRead s offset out).2 := by
  rw [bdifRead_snd]
  split
  · exact delivers_usbBusy hframes harrived hconn h
  · exact delivers_idle h rfl rfl rfl rfl rfl rfl

/-- Writes to the registers of the USB function. -/
theorem delivers_bdifWrite {offset : BitVec 64} (value : BitVec 64)
    (hdev : devidOf offset = devidUsb) (hframes : Sendable frames)
    (harrived : arrived <+: encodeFrames frames) (h : Tracks s.usb arrived log) :
    Delivers s arrived log (bdifWrite s offset value out) := by
  have hqueue (queue : Nat) :
      Delivers s arrived log ({ s with usb := { s.usb with queue := queue } }, []) :=
    delivers_idle h rfl rfl rfl rfl rfl rfl
  have hroot : ¬ devidUsb = devidRoot := by decide
  have haux : ¬ devidUsb = devidAux := by decide
  unfold bdifWrite
  simp only [hdev, true_and, if_neg hroot, if_neg haux, if_true]
  split
  · split
    · split
      · exact hqueue s.usb.queue
      · exact hqueue _
    · exact hqueue s.usb.queue
  · split
    · split
      · exact delivers_vusbCmd value hframes harrived h
      · exact hqueue s.usb.queue
    · exact hqueue s.usb.queue

/-! ## Steps and runs -/

/-- The action is one of the host, or an access to the USB function. -/
def Act.onUsb : Act → Prop
  | .receive _ _ _ => True
  | .write offset _ _ => devidOf offset = devidUsb
  | .read _ _ => True
  | _ => False

/-- What may happen in an undisturbed run: the host keeps to `vusb_can_receive`, and the
channel is neither closed nor reset. -/
def Allowed (s : BdifState) : Act → Prop
  | .receive chunk _ _ => chunk.length ≤ vusbCanReceive s
  | .write _ _ _ => True
  | .read _ _ => True
  | .store _ => True
  | .event => False
  | .reset => False

instance (s : BdifState) : ∀ a, Decidable (Allowed s a)
  | .receive chunk _ _ => inferInstanceAs (Decidable (chunk.length ≤ vusbCanReceive s))
  | .write _ _ _ => inferInstanceAs (Decidable True)
  | .read _ _ => inferInstanceAs (Decidable True)
  | .store _ => inferInstanceAs (Decidable True)
  | .event => inferInstanceAs (Decidable False)
  | .reset => inferInstanceAs (Decidable False)

/-- A step of an undisturbed run, in which no transfer of a payload fails either. -/
def Undisturbed (s : BdifState) (a : Act) : Prop := Allowed s a ∧ Lossless (step s a).2

instance (s : BdifState) (a : Act) : Decidable (Undisturbed s a) :=
  inferInstanceAs (Decidable (_ ∧ _))

theorem received_concat (past : List Act) (a : Act) :
    received (past ++ [a]) = received past ++ received [a] :=
  List.flatMap_append

/-- Every undisturbed step keeps the invariant, and what it changes in memory is what
it delivers. -/
theorem step_tracks {a : Act} (hframes : Sendable frames)
    (harrived : arrived ++ received [a] <+: encodeFrames frames) (hok : Undisturbed s a)
    (hown : ¬Reenters s a) (hconn : s.connected = true) (h : Tracks s.usb arrived log) :
    Tracks (step s a).1.usb (arrived ++ received [a]) (log ++ (step s a).2) ∧
      (step s a).1.connected = true ∧
      (a.onUsb → (step s a).1.mem = storeDelivered s.mem (step s a).2) := by
  obtain ⟨hallowed, hlossless⟩ := hok
  have hgather {r : BdifState × List UsbEvent} {bytes : List Byte}
      (hr : Handled s bytes log r) : Tracks r.1.usb bytes (log ++ r.2) ∧
        r.1.connected = true ∧ (a.onUsb → r.1.mem = storeDelivered s.mem r.2) :=
    ⟨hr.tracks, hr.connected.trans hconn, fun _ => hr.mem⟩
  cases a with
  | receive chunk out inner =>
    have hchunk : received [.receive chunk out inner] = chunk := by simp [received]
    rw [hchunk] at harrived ⊢
    exact hgather (delivers_vusbReceive hframes harrived hallowed hown h hlossless)
  | write offset value out =>
    have hsame : arrived ++ received [.write offset value out] = arrived := by simp [received]
    rw [hsame] at harrived ⊢
    by_cases hdev : devidOf offset = devidUsb
    · exact hgather (delivers_bdifWrite value hdev hframes harrived h hlossless)
    · obtain ⟨husb, hconn', hlog⟩ := bdifWrite_of_not_usb s value out hdev
      refine ⟨?_, hconn'.trans hconn, fun honUsb => absurd honUsb hdev⟩
      rw [step, husb, hlog, List.append_nil]
      exact h
  | read offset out =>
    have hsame : arrived ++ received [.read offset out] = arrived := by simp [received]
    rw [hsame] at harrived ⊢
    exact hgather (delivers_bdifRead offset hframes harrived hconn h hlossless)
  | store mem =>
    have hsame : arrived ++ received [.store mem] = arrived := by simp [received]
    rw [hsame]
    refine ⟨?_, hconn, fun honUsb => absurd honUsb (fun f => f)⟩
    rw [step, List.append_nil]
    exact h
  | event => exact absurd hallowed (fun f => f)
  | reset => exact absurd hallowed (fun f => f)

end Stream

theorem tracks_reset (s : BdifState) : Tracks (vusbResetState s).usb [] [] where
  conserved := rfl
  small := fun _ hf => absurd hf List.not_mem_nil
  ready := rfl
  posted := fun h => by cases h
  lawful := everywhere_nil _

/-- The invariant at the end of every undisturbed run from reset that does not enter the
device again. -/
theorem run_tracks {frames : List (List Byte)} {s : BdifState} {actions : List Act}
    (hframes : Sendable frames) (hconn : s.connected = true)
    (hrun : Guarded (fun t a => (step t a).1) (fun t a => Undisturbed t a ∧ ¬Reenters t a)
      (vusbResetState s) actions)
    (hsent : received actions <+: encodeFrames frames) :
    Tracks (final step (vusbResetState s) actions).usb (received actions)
        (observe step (vusbResetState s) actions) ∧
      (final step (vusbResetState s) actions).connected = true := by
  -- the stream condition on the whole run gives it for the part already run
  have hkept := observe_invariant
    (P := fun t past log => received past <+: encodeFrames frames →
      Tracks t.usb (received past) log ∧ t.connected = true)
    (fun t past log a hok hkept hsent => by
      rw [received_concat] at hsent ⊢
      obtain ⟨htracks, htconn⟩ := hkept ((List.prefix_append _ _).trans hsent)
      obtain ⟨hnext, hnextConn, _⟩ := step_tracks hframes hsent hok.1 hok.2 htconn htracks
      exact ⟨hnext, hnextConn⟩)
    hrun [] [] (fun _ => ⟨tracks_reset s, hconn⟩)
  exact hkept hsent

/-- Without a delivery in between, a completion is read off once or is still unread. -/
theorem readsReady_of_quiet {front middle : List UsbEvent}
    (h : Everywhere Lawful (front ++ middle)) (hquiet : delivered middle = []) :
    (unread (front ++ middle)).toNat + middle.countP UsbEvent.readsReady =
      (unread front).toNat := by
  induction middle using List.reverseRecOn with
  | nil => simp
  | append_singleton middle e ih =>
    rw [delivered_concat, List.append_eq_nil_iff] at hquiet
    rw [← List.append_assoc] at h ⊢
    have hbefore := ih (everywhere_of_append h) hquiet.1
    have hlaw : e.readsReady = true → unread (front ++ middle) = true := by
      have hlawful := h _ e [] rfl
      cases e with
      | deliver b p => cases hquiet.2
      | _ => exact hlawful
    rw [unread_concat_quiet _ hquiet.2, List.countP_append, List.countP_singleton]
    cases hread : e.readsReady with
    | false => simpa using hbefore
    | true =>
      rw [hlaw hread] at hbefore
      simp at hbefore ⊢
      omega

/-- What an undisturbed run delivers, for the frames of the stream the host sends. -/
structure ExactlyOnce (frames : List (List Byte)) (s : BdifState) (actions : List Act) :
    Prop where
  /-- whole frames, in order, none twice -/
  inOrder : delivered (observe step s actions) <+: frames
  /-- every byte sent was delivered in its frame or waits in the input -/
  noLoss : encodeFrames (delivered (observe step s actions)) ++ (final step s actions).usb.input =
    received actions
  /-- into the buffer posted or promoted last, which is long enough -/
  buffer : ∀ before b p after, observe step s actions = before ++ .deliver b p :: after →
    current before = some b ∧ p.length ≤ b.len
  /-- between two deliveries the guest reads the first one off, once -/
  readOff : ∀ before b p middle b' p' after,
    observe step s actions = before ++ .deliver b p :: middle ++ .deliver b' p' :: after →
    delivered middle = [] → middle.countP UsbEvent.readsReady = 1
  /-- the guest polls the completion of the last delivery -/
  completion : (final step s actions).usb.rxReady = unread (observe step s actions)
  /-- a delivery stores the payload, and nothing else is stored for the USB function -/
  memory : ∀ front a back, actions = front ++ a :: back → a.onUsb →
    (step (final step s front) a).1.mem =
      storeDelivered (final step s front).mem (step (final step s front) a).2

/-- A guest with descriptors at the start of its RAM: of 64 bytes of RAM at `0x70001000`,
and, 0x80 bytes on, of the 8 bytes of the device's own USB `REG_CMD`. -/
def polledDevice : BdifState where
  usb := idleUsb
  root := []
  aux := []
  mem := writeBytes
    (writeBytes (fun _ => 0) 0x70000000#64 [0, 0x10, 0, 0x70, 0, 0, 0, 0, 64, 0, 0, 0])
    0x70000080#64 [0x08, 0x04, 0x10, 0x30, 0, 0, 0, 0, 8, 0, 0, 0]
  connected := true
  sent := []

/-- A frame cut inside its length word, an empty frame behind it, and a buffer reposted
before the first completion is read off. -/
def reposted : List Act :=
  [.receive [2, 0, 0] {} (fun _ => {}),
    .write (devidUsb + regCmd) 0x70000000 {},
    .receive [0, 0xaa, 0xbb, 0, 0, 0, 0] {} (fun _ => {}),
    .write (devidUsb + regCmd) 0x70000000 {},
    .read (devidUsb + regBusy) {}]

/-- The frame `[0, 0, 0, 0x70, 0, 0, 0, 0]`, which read as a number is the address of the
first descriptor, and one of the same length. -/
def addressThenData : List (List Byte) :=
  [[0, 0, 0, 0x70, 0, 0, 0, 0], [1, 2, 3, 4, 5, 6, 7, 8]]

/-- The guest posts its own `REG_CMD` as the buffer, then the host sends both frames. -/
def postedOwnRegister : List Act :=
  [.write (devidUsb + regCmd) 0x70000080 {},
    .receive (encodeFrames addressThenData) {} (fun _ => {})]

end Orchard.Bdif
