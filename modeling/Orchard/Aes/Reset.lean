/-
  Aes/Reset.lean --- what a reset of the AES engine forgets.

  `aes_reset` sets five registers.  The FIFO with its fill level, the keys, the IVs, the
  direction, the mode, the flag info and the interrupt line stay as the history left
  them.  Two runs cannot be told apart after a reset when their histories agree on this
  residue, and a partial command or a loaded IV is enough to tell them apart.

  The relation carried through the later accesses is equality on what the device can
  still read: FIFO words below the fill level, and key bytes below the key length.
-/
import Orchard.Aes.Device

set_option autoImplicit false

namespace Orchard.Aes

open Orchard.Foundation

/-! ## What a reset leaves -/

/-- Keys of one length with the same bytes up to it. -/
structure SameKey (k l : Key) : Prop where
  keyLen : k.keyLen = l.keyLen
  bytes : k.key.take k.keyLen = l.key.take l.keyLen

/-- Two states agree on what `aes_reset` does not set. -/
structure SameResidue (s t : AesState) : Prop where
  irq : s.irq = t.irq
  flagInfo : s.flagInfo = t.flagInfo
  fifoIdx : s.fifoIdx = t.fifoIdx
  fifo : ∀ i < s.fifoIdx, s.fifo i = t.fifo i
  key : ∀ c, SameKey (s.key c) (t.key c)
  iv : ∀ c, s.iv c = t.iv c
  isEncrypt : s.isEncrypt = t.isEncrypt
  blockMode : s.blockMode = t.blockMode

/-- Two states agree on everything the device can still read. -/
structure Agree (s t : AesState) : Prop extends SameResidue s t where
  mem : s.mem = t.mem
  status : s.status = t.status
  qStatus : s.qStatus = t.qStatus
  irqStatus : s.irqStatus = t.irqStatus
  irqEnable : s.irqEnable = t.irqEnable
  watermark : s.watermark = t.watermark

/-- A reset and a common memory turn agreement on the residue into agreement. -/
theorem SameResidue.reset {s t : AesState} (h : SameResidue s t) (hmem : s.mem = t.mem) :
    Agree (aesReset s) (aesReset t) :=
  { h with
    mem := hmem
    status := rfl
    qStatus := rfl
    irqStatus := rfl
    irqEnable := rfl
    watermark := rfl }

/-! ## The commands -/

/-- Handlers that did the same. -/
structure Handled.Agree (h k : Handled) : Prop where
  state : Aes.Agree h.state k.state
  success : h.success = k.success
  events : h.events = k.events

section Commands

variable {s t : AesState}

theorem Agree.hasPayload_iff (h : Agree s t) (n : Nat) : hasPayload s n ↔ hasPayload t n := by
  unfold hasPayload
  rw [h.fifoIdx]

/-- A payload that is there is the same. -/
theorem Agree.payload_eq (h : Agree s t) {n : Nat} (hn : hasPayload s n) :
    payload s n = payload t n := by
  unfold payload
  apply List.map_congr_left
  intro i hi
  have hlt : i < n := List.mem_range.mp hi
  have hfill : n + 1 ≤ s.fifoIdx := hn
  exact h.fifo (i + 1) (by omega)

/-- What lies behind the length of a key is no part of it. -/
theorem sameKey_of_front {bytes rest rest' : List Byte} {n : Nat} (h : bytes.length = n) :
    SameKey ⟨n, bytes ++ rest⟩ ⟨n, bytes ++ rest'⟩ := by
  refine ⟨rfl, ?_⟩
  dsimp only
  rw [List.take_left' h, List.take_left' h]

theorem sameKey_update {key key' : Nat → Key} (h : ∀ c, SameKey (key c) (key' c)) {k l : Key}
    (hkl : SameKey k l) (ctxt c : Nat) :
    SameKey (Function.update key ctxt k c) (Function.update key' ctxt l c) := by
  rcases eq_or_ne c ctxt with rfl | hne
  · rw [Function.update_self, Function.update_self]
    exact hkl
  · rw [Function.update_of_ne hne, Function.update_of_ne hne]
    exact h c

@[simp] theorem wordBytes_length (words : List (BitVec 32)) :
    (wordBytes words).length = 4 * words.length := by
  induction words with
  | nil => rfl
  | cons w rest ih =>
    have hcons : wordBytes (w :: rest) = toLe 4 w.toNat ++ wordBytes rest := rfl
    rw [hcons, List.length_append, toLe_length, ih, List.length_cons]
    omega

theorem keyLens_eq_four_mul (i : Nat) : 4 * (keyLens i / 4) = keyLens i := by
  unfold keyLens
  split <;> rfl

theorem agree_loadKey (h : Agree s t) (hpos : 0 < s.fifoIdx) :
    (loadKey s).Agree (loadKey t) := by
  have hcmd : s.fifo 0 = t.fifo 0 := h.fifo 0 hpos
  unfold loadKey loadKeyFrom
  dsimp only
  rw [← hcmd]
  split
  · exact ⟨{ h with key := sameKey_update h.key ⟨rfl, rfl⟩ _ }, rfl, rfl⟩
  · split
    · exact ⟨h, rfl, rfl⟩
    · rw [← if_congr (h.hasPayload_iff _) rfl rfl]
      split
      · rename_i hthere
        have hlen : (wordBytes (payload s (keyLens (keyLenIndex (s.fifo 0)) / 4))).length =
            keyLens (keyLenIndex (s.fifo 0)) := by
          rw [wordBytes_length, payload, List.length_map, List.length_range,
            keyLens_eq_four_mul]
        rw [← h.payload_eq hthere]
        exact ⟨{ h with key := sameKey_update h.key (sameKey_of_front hlen) _ }, rfl, rfl⟩
      · exact ⟨h, rfl, rfl⟩

theorem agree_cmdKey (h : Agree s t) (hpos : 0 < s.fifoIdx) : (cmdKey s).Agree (cmdKey t) := by
  unfold cmdKey cmdKeyFrom
  rw [← h.fifo 0 hpos]
  split
  · exact agree_loadKey { h with blockMode := rfl, isEncrypt := rfl } hpos
  · exact agree_loadKey { h with blockMode := rfl, isEncrypt := rfl } hpos
  · exact ⟨h, rfl, rfl⟩

theorem agree_cmdIv (h : Agree s t) (hpos : 0 < s.fifoIdx) : (cmdIv s).Agree (cmdIv t) := by
  unfold cmdIv
  rw [← h.fifo 0 hpos, ← if_congr (h.hasPayload_iff 4) rfl rfl]
  split
  · rename_i hthere
    have hiv : s.iv = t.iv := funext h.iv
    rw [← h.payload_eq hthere, ← hiv]
    exact ⟨{ h with iv := fun _ => rfl }, rfl, rfl⟩
  · exact ⟨h, rfl, rfl⟩

section Cipher

variable {κ : Type} (q : Qcrypto κ)

/-- The cipher gets the same key, IV, mode and direction. -/
theorem Agree.transform_eq (h : Agree s t) (ctxtKey ctxtIv : Nat) (src : List Byte) :
    transform q s ctxtKey ctxtIv src = transform q t ctxtKey ctxtIv src := by
  unfold transform
  dsimp only
  rw [(h.key ctxtKey).bytes, (h.key ctxtKey).keyLen, h.blockMode, h.iv, h.isEncrypt]

theorem agree_cmdData (h : Agree s t) (hpos : 0 < s.fifoIdx) (out : Outcomes) :
    (cmdData q s out).Agree (cmdData q t out) := by
  unfold cmdData
  dsimp only
  rw [← h.fifo 0 hpos, ← if_congr (not_congr (h.hasPayload_iff 3)) rfl rfl]
  split
  · exact ⟨h, rfl, rfl⟩
  · rename_i hthere
    have hfill : 3 + 1 ≤ s.fifoIdx := not_not.mp hthere
    have hsrc : srcAddr s = srcAddr t := by
      rw [srcAddr, srcAddr, h.fifo 1 (by omega), h.fifo 2 (by omega)]
    have hdst : dstAddr s = dstAddr t := by
      rw [dstAddr, dstAddr, h.fifo 1 (by omega), h.fifo 3 (by omega)]
    rw [← hsrc, ← hdst, ← h.mem]
    split
    · exact ⟨h, rfl, rfl⟩
    · split
      · exact ⟨h, rfl, rfl⟩
      · rw [← h.transform_eq q]
        split
        · exact ⟨h, rfl, rfl⟩
        · exact ⟨{ h with mem := rfl }, rfl, rfl⟩

end Cipher

theorem agree_cmdStoreIv (h : Agree s t) (hpos : 0 < s.fifoIdx) (out : Outcomes) :
    (cmdStoreIv s out).Agree (cmdStoreIv t out) := by
  unfold cmdStoreIv
  dsimp only
  rw [← h.fifo 0 hpos, ← if_congr (not_congr (h.hasPayload_iff 1)) rfl rfl]
  split
  · exact ⟨h, rfl, rfl⟩
  · rename_i hthere
    have hfill : 1 + 1 ≤ s.fifoIdx := not_not.mp hthere
    have haddr : storeIvAddr s = storeIvAddr t := by
      rw [storeIvAddr, storeIvAddr, h.fifo 0 hpos, h.fifo 1 (by omega)]
    rw [← haddr, ← h.mem, ← h.iv]
    split
    · exact ⟨h, rfl, rfl⟩
    · exact ⟨{ h with mem := rfl }, rfl, rfl⟩

theorem agree_cmdFlag (h : Agree s t) (hpos : 0 < s.fifoIdx) :
    (cmdFlag s).Agree (cmdFlag t) := by
  unfold cmdFlag
  dsimp only
  rw [← h.fifo 0 hpos, ← h.irqStatus]
  exact ⟨{ h with irqStatus := rfl, flagInfo := rfl }, rfl, rfl⟩

end Commands

/-! ## One access -/

section Steps

variable {κ : Type} (q : Qcrypto κ) {s t : AesState}

theorem agree_handle (h : Agree s t) (hpos : 0 < s.fifoIdx) (out : Outcomes) :
    (handle q s out).Agree (handle q t out) := by
  unfold handle
  rw [← h.fifo 0 hpos]
  split
  · exact agree_cmdKey h hpos
  · exact agree_cmdIv h hpos
  · exact agree_cmdData q h hpos out
  · exact agree_cmdStoreIv h hpos out
  · exact agree_cmdFlag h hpos
  · exact ⟨{ h with irqStatus := by rw [h.irqStatus] }, rfl, rfl⟩

theorem Agree.fifoAppend (h : Agree s t) (val : BitVec 64) :
    Agree (fifoAppend s val) (fifoAppend t val) := by
  unfold Aes.fifoAppend
  rw [← h.fifoIdx]
  split
  · exact h
  · refine { h with fifoIdx := rfl, fifo := fun i hi => ?_ }
    dsimp only at hi ⊢
    rcases eq_or_ne i s.fifoIdx with rfl | hne
    · rw [Function.update_self, Function.update_self]
    · rw [Function.update_of_ne hne, Function.update_of_ne hne]
      exact h.fifo i (by omega)

theorem agree_fifoProcess (h : Agree s t) (out : Outcomes) :
    (fifoProcess q s out).2 = (fifoProcess q t out).2 ∧
      Agree (fifoProcess q s out).1 (fifoProcess q t out).1 := by
  unfold fifoProcess
  rw [← h.fifoIdx]
  split
  · exact ⟨rfl, h⟩
  · rename_i hne
    obtain ⟨hstate, hsuccess, hevents⟩ := agree_handle q h (Nat.pos_of_ne_zero hne) out
    refine ⟨hevents, ?_⟩
    dsimp only
    rw [← hsuccess]
    split
    · -- a finished command empties the FIFO: no word of it is read again
      exact { hstate with fifoIdx := rfl, fifo := fun i hi => absurd hi (Nat.not_lt_zero i) }
    · exact hstate

theorem Agree.aesUpdateIrq (h : Agree s t) : Agree (aesUpdateIrq s) (aesUpdateIrq t) := by
  unfold Aes.aesUpdateIrq
  exact { h with irq := by rw [h.irqStatus, h.irqEnable] }

theorem Agree.aes1Read_eq (h : Agree s t) (offset : BitVec 64) :
    aes1Read s offset = aes1Read t offset := by
  unfold aes1Read
  rw [h.status, h.irqStatus, h.irqEnable, h.watermark, h.qStatus, h.flagInfo]

theorem agree_aes1Write (h : Agree s t) (offset val : BitVec 64) (out : Outcomes) :
    (aes1Write q s offset val out).2 = (aes1Write q t offset val out).2 ∧
      Agree (aes1Write q s offset val out).1 (aes1Write q t offset val out).1 := by
  unfold aes1Write
  split
  · have hcleared : Agree { s with irqStatus := s.irqStatus &&& ~~~ val.setWidth 32 }
        { t with irqStatus := t.irqStatus &&& ~~~ val.setWidth 32 } :=
      { h with irqStatus := by rw [h.irqStatus] }
    exact ⟨rfl, hcleared.aesUpdateIrq⟩
  · split
    · have henabled : Agree { s with irqEnable := val.setWidth 32 }
          { t with irqEnable := val.setWidth 32 } := { h with irqEnable := rfl }
      exact ⟨rfl, henabled.aesUpdateIrq⟩
    · split
      · obtain ⟨hevents, hstate⟩ := agree_fifoProcess q (h.fifoAppend val) out
        exact ⟨hevents, hstate.aesUpdateIrq⟩
      · exact ⟨rfl, h⟩

theorem agree_act (h : Agree s t) (a : Act) :
    (act q s a).2 = (act q t a).2 ∧ Agree (act q s a).1 (act q t a).1 := by
  cases a with
  | read1 offset =>
    refine ⟨?_, h⟩
    rw [act, act, h.aes1Read_eq]
  | write1 offset val out => exact agree_aes1Write q h offset val out
  | read2 offset => exact ⟨rfl, h⟩
  | write2 offset val => exact ⟨rfl, h⟩
  | reset => exact ⟨rfl, h.toSameResidue.reset h.mem⟩
  | store addr bytes =>
    refine ⟨rfl, ?_⟩
    rw [act, act, h.mem]
    exact { h with mem := rfl }

/-- One access shows the same from states that agree, and leaves states that agree. -/
theorem agree_step (h : Agree s t) (a : Act) :
    (step q s a).2 = (step q t a).2 ∧ Agree (step q s a).1 (step q t a).1 := by
  obtain ⟨hevents, hstate⟩ := agree_act q h a
  refine ⟨?_, hstate⟩
  rw [step, step, hevents, hstate.irq]

end Steps

/-! ## Two histories and a reset -/

section Histories

variable {κ : Type} (q : Qcrypto κ)

/-- The device after a history that starts at its creation over a guest memory. -/
def afterHistory (mem : GuestMemory) (history : List Act) : AesState :=
  final (step q) (aesReset (aesInit mem)) history

/-- What a reset in state `s` and the accesses after it show, the guest memory at the
reset being `mem`. -/
def afterReset (s : AesState) (mem : GuestMemory) (later : List Act) : List Event :=
  observe (step q) { s with mem := mem } (.reset :: later)

/-- **Reset.**  After a reset two runs show the same register reads, DMA transfers and
interrupt levels, whatever is accessed, if their histories left the same residue. -/
theorem reset_forgets_past (mem₁ mem₂ mem : GuestMemory) (history₁ history₂ later : List Act)
    (hresidue : SameResidue (afterHistory q mem₁ history₁) (afterHistory q mem₂ history₂)) :
    afterReset q (afterHistory q mem₁ history₁) mem later =
      afterReset q (afterHistory q mem₂ history₂) mem later := by
  generalize afterHistory q mem₁ history₁ = s at *
  generalize afterHistory q mem₂ history₂ = t at *
  have hresidue' : SameResidue { s with mem := mem } { t with mem := mem } := { hresidue with }
  have hreset : Agree (step q { s with mem := mem } .reset).1
      (step q { t with mem := mem } .reset).1 := hresidue'.reset rfl
  have hlevel : (step q { s with mem := mem } .reset).2 =
      (step q { t with mem := mem } .reset).2 := by
    rw [step, step]
    exact congrArg (fun level => [Event.irq level]) hresidue.irq
  rw [afterReset, afterReset, observe_cons, observe_cons, hlevel]
  have hlater := observe_eq_of_bisimulation (R := Agree) (fun _ _ a h => agree_step q h a)
    hreset later
  rw [hlater]

end Histories

/-! ## Instances -/

/-- A cipher that returns what it is given. -/
def copying : Qcrypto Unit where
  new _ _ _ := some ()
  setiv _ _ := some ()
  encrypt _ src := some src
  decrypt _ src := some src

/-- A word written to `REG_FIFO`. -/
def push (word : BitVec 64) : Act := .write1 0x200 word {}

def zeroMemory : GuestMemory := fun _ => 0

/-- Set the flag info to 1 and read it back. -/
def flagAndRead : List Act := [push 0x80000001, .read1 0x30]

/-- Store the IV of context 0 at address `0x1000`. -/
def storeIv : List Act := [push 0x60000000, push 0x1000]

/-- An IV command without its payload. -/
def partialIv : List Act := [push 0x20000000]

/-- An IV command with its payload. -/
def loadedIv : List Act := [push 0x20000000, push 1, push 2, push 3, push 4]

/-- After a partial IV command the FLAG command that follows the reset is taken for its
payload, and an IV loaded before the reset is stored to memory after it. -/
theorem reset_keeps_fifo_and_iv :
    afterReset copying (afterHistory copying zeroMemory partialIv) zeroMemory flagAndRead ≠
        afterReset copying (afterHistory copying zeroMemory []) zeroMemory flagAndRead ∧
      afterReset copying (afterHistory copying zeroMemory loadedIv) zeroMemory storeIv ≠
        afterReset copying (afterHistory copying zeroMemory []) zeroMemory storeIv := by
  decide +kernel

/-- A flag interrupt that is raised and acknowledged. -/
def acknowledgedFlag : List Act :=
  [.write1 0x1c 0x20 {}, push 0x88000000, .write1 0x18 0x20 {}]

/-- An acknowledged flag leaves registers and a stale FIFO word, and a reset forgets
them. -/
theorem reset_forgets_acknowledgedFlag :
    SameResidue (afterHistory copying zeroMemory acknowledgedFlag)
        (afterHistory copying zeroMemory []) ∧
      afterReset copying (afterHistory copying zeroMemory acknowledgedFlag) zeroMemory
          flagAndRead =
        afterReset copying (afterHistory copying zeroMemory []) zeroMemory flagAndRead := by
  have hresidue : SameResidue (afterHistory copying zeroMemory acknowledgedFlag)
      (afterHistory copying zeroMemory []) :=
    { irq := by decide +kernel
      flagInfo := by decide +kernel
      fifoIdx := by decide +kernel
      fifo := by
        have hempty : (afterHistory copying zeroMemory acknowledgedFlag).fifoIdx = 0 := by
          decide +kernel
        intro i hi
        rw [hempty] at hi
        exact absurd hi (Nat.not_lt_zero i)
      key := fun _ => ⟨rfl, rfl⟩
      iv := fun _ => rfl
      isEncrypt := by decide +kernel
      blockMode := by decide +kernel }
  exact ⟨hresidue, reset_forgets_past copying zeroMemory zeroMemory zeroMemory
    acknowledgedFlag [] flagAndRead hresidue⟩

end Orchard.Aes
