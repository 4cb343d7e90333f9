/-
  Aes/Bounds.lean --- the arrays of the AES engine.

  `AESState` holds the FIFO, two keys and four IVs in arrays, and copies keys out of a table
  of eight.  Most indices are fields of a command word that the handlers do not compare with
  anything; `cmd_iv` takes its context from a mask that reaches into the opcode.

  `accesses` lists the elements a write to `REG_FIFO` touches, in the order of the source.
  The model's arrays have no end, so the list is tied to it by what the handlers depend on:
  with other elements around the listed ones the write does the same, and leaves those as
  they are (`aes1Write_over`, `cmdKeyFrom_of_agree`).  In every state a guest can reach,
  every element of the list exists.
-/
import Orchard.Aes.Framing

set_option autoImplicit false

namespace Orchard.Aes

open Orchard.Foundation

/-! ## Accesses -/

/-- An access to an element of an array. -/
inductive Access where
  | fifo (i : Nat)
  /-- of the FIFO, by the copy of a key or an IV -/
  | payload (i : Nat)
  | key (i : Nat)
  | iv (i : Nat)
  | keyLens (i : Nat)
  | builtinKeys (i : Nat)
  deriving DecidableEq, Repr

/-- The element exists. -/
def Access.InBounds : Access → Prop
  | .fifo i => i < maxFifoSize
  | .payload i => i < maxFifoSize
  | .key i => i ≤ 1
  | .iv i => i ≤ 3
  | .keyLens i => i ≤ 3
  | .builtinKeys i => i ≤ 7

/-- The payload copied by `memcpy` from `&s->fifo[1]`. -/
def copyAccesses (words : Nat) : List Access := (List.range words).map fun i => .payload (i + 1)

def keyAccesses (s : AesState) : List Access :=
  let cmd := s.fifo 0
  let words := keyLens (keyLenIndex cmd) / 4
  if 2 ≤ blockModeField cmd then []
  else
    .keyLens (keyLenIndex cmd) ::
      if keySelect cmd ≠ 0 then [.builtinKeys (keySelect cmd), .key (keyContext cmd)]
      else if 32 < keyLens (keyLenIndex cmd) ∨ ¬ hasPayload s words then []
      else copyAccesses words ++ [.key (keyContext cmd)]

def ivAccesses (s : AesState) : List Access :=
  if hasPayload s 4 then copyAccesses 4 ++ [.iv (ivContext (s.fifo 0))] else []

def dataAccesses (s : AesState) : List Access :=
  [.fifo 1, .fifo 2, .fifo 3] ++
    if hasPayload s 3 ∧ dataKeyContext (s.fifo 0) < 2 then
      -- the IV in CBC mode only
      [.key (dataKeyContext (s.fifo 0)), .iv 0]
    else []

def storeIvAccesses (s : AesState) : List Access :=
  .fifo 1 ::
    if hasPayload s 1 ∧ ivContext (s.fifo 0) < 4 then [.iv (ivContext (s.fifo 0))] else []

/-- What `fifo_process` and the handler it calls touch. -/
def handleAccesses (s : AesState) : List Access :=
  .fifo 0 ::
    match opcode (s.fifo 0) with
    | 0x1 => keyAccesses s
    | 0x2 => ivAccesses s
    | 0x5 => dataAccesses s
    | 0x6 => storeIvAccesses s
    | _ => []

/-- What a write to `REG_FIFO` touches. -/
def accesses (s : AesState) (val : BitVec 64) : List Access :=
  (if s.fifoIdx = maxFifoSize then [] else [.fifo s.fifoIdx]) ++ handleAccesses (fifoAppend s val)

/-! ## The list is complete -/

/-- Arrays to put in place of the device's. -/
structure Arrays where
  fifo : Nat → BitVec 32
  key : Nat → Key
  iv : Nat → IV

/-- The device with other elements in its arrays, but for the listed ones. -/
def AesState.over (s : AesState) (arrays : Arrays) (list : List Access) : AesState :=
  { s with
    fifo := fun i => if .fifo i ∈ list ∨ .payload i ∈ list then s.fifo i else arrays.fifo i
    key := fun i => if .key i ∈ list then s.key i else arrays.key i
    iv := fun i => if .iv i ∈ list then s.iv i else arrays.iv i }

def Handled.over (h : Handled) (arrays : Arrays) (list : List Access) : Handled :=
  { h with state := h.state.over arrays list }

section Footprint

variable {κ : Type} (q : Qcrypto κ) {s : AesState} {arrays : Arrays} {list : List Access}

theorem fifo_over {i : Nat} (h : .fifo i ∈ list) : (s.over arrays list).fifo i = s.fifo i :=
  if_pos (Or.inl h)

theorem key_over {i : Nat} (h : .key i ∈ list) : (s.over arrays list).key i = s.key i :=
  if_pos h

theorem iv_over {i : Nat} (h : .iv i ∈ list) : (s.over arrays list).iv i = s.iv i :=
  if_pos h

theorem payload_over {count : Nat} (h : ∀ a ∈ copyAccesses count, a ∈ list) :
    payload (s.over arrays list) count = payload s count := by
  apply List.map_congr_left
  intro i hi
  exact if_pos (Or.inr (h _ (List.mem_map_of_mem hi)))

/-- A write to a listed element is the same write in both arrays. -/
theorem ite_update {β : Type} (listed : Nat → Prop) [DecidablePred listed] {c : Nat}
    (h : listed c) (f g : Nat → β) (x : β) :
    (fun i => if listed i then Function.update f c x i else g i) =
      Function.update (fun i => if listed i then f i else g i) c x := by
  funext i
  by_cases hi : i = c
  · subst hi
    rw [if_pos h, Function.update_self, Function.update_self]
  · rw [Function.update_of_ne hi, Function.update_of_ne hi]

theorem over_update_key {c : Nat} (h : .key c ∈ list) (k : Key) :
    { s with key := Function.update s.key c k }.over arrays list =
      { s.over arrays list with key := Function.update (s.over arrays list).key c k } := by
  have hkeys := ite_update (fun i => .key i ∈ list) h s.key arrays.key k
  unfold AesState.over
  dsimp only at hkeys ⊢
  rw [hkeys]

theorem over_update_iv {c : Nat} (h : .iv c ∈ list) (v : IV) :
    { s with iv := Function.update s.iv c v }.over arrays list =
      { s.over arrays list with iv := Function.update (s.over arrays list).iv c v } := by
  have hivs := ite_update (fun i => .iv i ∈ list) h s.iv arrays.iv v
  unfold AesState.over
  dsimp only at hivs ⊢
  rw [hivs]

theorem fifoAppend_over (val : BitVec 64) (h : s.fifoIdx ≠ maxFifoSize → .fifo s.fifoIdx ∈ list) :
    fifoAppend (s.over arrays list) val = (fifoAppend s val).over arrays list := by
  have hidx : (s.over arrays list).fifoIdx = s.fifoIdx := rfl
  unfold fifoAppend
  rw [hidx]
  split
  · rfl
  · rename_i hroom
    have hwords := ite_update (fun i => .fifo i ∈ list ∨ .payload i ∈ list) (.inl (h hroom))
      s.fifo arrays.fifo (val.setWidth 32)
    unfold AesState.over
    dsimp only at hwords ⊢
    rw [hwords]

theorem loadKey_over (hcmd : .fifo 0 ∈ list) (hmode : blockModeField (s.fifo 0) < 2)
    (h : ∀ a ∈ keyAccesses s, a ∈ list) :
    loadKey (s.over arrays list) = (loadKey s).over arrays list := by
  have hidx (n : Nat) : hasPayload (s.over arrays list) n ↔ hasPayload s n := Iff.rfl
  rw [keyAccesses, if_neg (Nat.not_le.mpr hmode)] at h
  unfold loadKey loadKeyFrom
  rw [fifo_over hcmd]
  dsimp only
  by_cases hselect : keySelect (s.fifo 0) ≠ 0
  · rw [if_pos hselect, if_pos hselect]
    rw [if_pos hselect] at h
    rw [Handled.over, over_update_key (h _ (by simp))]
  · rw [if_neg hselect] at h
    rw [if_neg hselect, if_neg hselect]
    by_cases hlen : 32 < keyLens (keyLenIndex (s.fifo 0))
    · rw [if_pos hlen, if_pos hlen]
      rfl
    · rw [if_neg hlen, if_neg hlen, if_congr (hidx _) rfl rfl]
      by_cases hpay : hasPayload s (keyLens (keyLenIndex (s.fifo 0)) / 4)
      · rw [if_neg (by tauto)] at h
        rw [if_pos hpay, if_pos hpay, Handled.over, over_update_key (h _ (by simp)),
          payload_over fun a ha => h a (by simp [ha]), key_over (h _ (by simp))]
      · rw [if_neg hpay, if_neg hpay]
        rfl

theorem cmdKey_over (hcmd : .fifo 0 ∈ list) (h : ∀ a ∈ keyAccesses s, a ∈ list) :
    cmdKey (s.over arrays list) = (cmdKey s).over arrays list := by
  unfold cmdKey cmdKeyFrom
  rw [fifo_over hcmd]
  split
  · rename_i hmode
    exact loadKey_over (s := { s with blockMode := .ecb, isEncrypt := encryptBit (s.fifo 0) })
      hcmd (by rw [hmode]; decide) h
  · rename_i hmode
    exact loadKey_over (s := { s with blockMode := .cbc, isEncrypt := encryptBit (s.fifo 0) })
      hcmd (by rw [hmode]; decide) h
  · rfl

theorem cmdIv_over (hcmd : .fifo 0 ∈ list) (h : ∀ a ∈ ivAccesses s, a ∈ list) :
    cmdIv (s.over arrays list) = (cmdIv s).over arrays list := by
  have hidx : hasPayload (s.over arrays list) 4 ↔ hasPayload s 4 := Iff.rfl
  unfold cmdIv
  rw [if_congr hidx rfl rfl]
  by_cases hpay : hasPayload s 4
  · rw [ivAccesses, if_pos hpay] at h
    rw [if_pos hpay, if_pos hpay, Handled.over, over_update_iv (h _ (by simp)), fifo_over hcmd,
      payload_over fun a ha => h a (by simp [ha])]
  · rw [if_neg hpay, if_neg hpay]
    rfl

theorem transform_over {c : Nat} (hkey : .key c ∈ list) (hiv : .iv 0 ∈ list) (src : List Byte) :
    transform q (s.over arrays list) c 0 src = transform q s c 0 src := by
  unfold transform
  rw [key_over hkey, iv_over hiv]
  rfl

theorem cmdData_over (out : Outcomes) (hcmd : .fifo 0 ∈ list) (h : ∀ a ∈ dataAccesses s, a ∈ list) :
    cmdData q (s.over arrays list) out = (cmdData q s out).over arrays list := by
  have hsrc : srcAddr (s.over arrays list) = srcAddr s := by
    rw [srcAddr, fifo_over (h _ (by simp [dataAccesses])), fifo_over (h _ (by simp [dataAccesses]))]
    rfl
  have hdst : dstAddr (s.over arrays list) = dstAddr s := by
    rw [dstAddr, fifo_over (h _ (by simp [dataAccesses])), fifo_over (h _ (by simp [dataAccesses]))]
    rfl
  have hidx : ¬ hasPayload (s.over arrays list) 3 ↔ ¬ hasPayload s 3 := Iff.rfl
  have hmem : (s.over arrays list).mem = s.mem := rfl
  have hctxt := dataKeyContext_lt (s.fifo 0)
  have hvalid : ¬ (2 ≤ dataKeyContext (s.fifo 0) ∨ 4 ≤ 0) := by omega
  unfold cmdData
  rw [fifo_over hcmd, hsrc, hdst]
  dsimp only
  rw [if_congr hidx rfl rfl, hmem]
  by_cases hpay : hasPayload s 3
  · rw [dataAccesses, if_pos ⟨hpay, hctxt⟩] at h
    rw [if_neg (not_not.mpr hpay), if_neg (not_not.mpr hpay), if_neg hvalid, if_neg hvalid,
      transform_over q (h _ (by simp)) (h _ (by simp))]
    split
    · rfl
    · split <;> rfl
  · rw [if_pos hpay, if_pos hpay]
    rfl

theorem cmdStoreIv_over (out : Outcomes) (hop : opcode (s.fifo 0) = 0x6) (hcmd : .fifo 0 ∈ list)
    (h : ∀ a ∈ storeIvAccesses s, a ∈ list) :
    cmdStoreIv (s.over arrays list) out = (cmdStoreIv s out).over arrays list := by
  have haddr : storeIvAddr (s.over arrays list) = storeIvAddr s := by
    rw [storeIvAddr, fifo_over hcmd, fifo_over (h _ (by simp [storeIvAccesses]))]
    rfl
  have hidx : ¬ hasPayload (s.over arrays list) 1 ↔ ¬ hasPayload s 1 := Iff.rfl
  have hctxt := ivContext_lt (s.fifo 0) (by rw [hop])
  unfold cmdStoreIv
  rw [fifo_over hcmd, haddr]
  dsimp only
  rw [if_congr hidx rfl rfl]
  by_cases hpay : hasPayload s 1
  · rw [storeIvAccesses, if_pos ⟨hpay, hctxt⟩] at h
    rw [if_neg (not_not.mpr hpay), if_neg (not_not.mpr hpay), if_neg (Nat.not_le.mpr hctxt),
      if_neg (Nat.not_le.mpr hctxt), iv_over (h _ (by simp))]
    rfl
  · rw [if_pos hpay, if_pos hpay]
    rfl

/-- A handler reads and writes the listed elements and no others. -/
theorem handle_over (out : Outcomes) (h : ∀ a ∈ handleAccesses s, a ∈ list) :
    handle q (s.over arrays list) out = (handle q s out).over arrays list := by
  have hcmd : .fifo 0 ∈ list := h _ List.mem_cons_self
  unfold handle
  rw [fifo_over hcmd]
  split
  · rename_i hop
    exact cmdKey_over hcmd fun a ha => h a (by simp [handleAccesses, hop, ha])
  · rename_i hop
    exact cmdIv_over hcmd fun a ha => h a (by simp [handleAccesses, hop, ha])
  · rename_i hop
    exact cmdData_over q out hcmd fun a ha => h a (by simp [handleAccesses, hop, ha])
  · rename_i hop
    exact cmdStoreIv_over out hop hcmd fun a ha => h a (by simp [handleAccesses, hop, ha])
  · unfold cmdFlag
    rw [fifo_over hcmd]
    rfl
  · rfl

/-- **Footprint.**  A write to `REG_FIFO` reads and writes the listed elements and no others:
with other elements around them it does the same and leaves those as they are. -/
theorem aes1Write_over (s : AesState) (val : BitVec 64) (arrays : Arrays) (out : Outcomes) :
    aes1Write q (s.over arrays (accesses s val)) 0x200 val out =
      ((aes1Write q s 0x200 val out).1.over arrays (accesses s val),
        (aes1Write q s 0x200 val out).2) := by
  have happend : fifoAppend (s.over arrays (accesses s val)) val =
      (fifoAppend s val).over arrays (accesses s val) := by
    refine fifoAppend_over val fun hroom => ?_
    rw [accesses, if_neg hroom]
    exact List.mem_append_left _ List.mem_cons_self
  have hhandle : handle q ((fifoAppend s val).over arrays (accesses s val)) out =
      (handle q (fifoAppend s val) out).over arrays (accesses s val) :=
    handle_over q out fun a ha => List.mem_append_right _ ha
  have hidx : ((fifoAppend s val).over arrays (accesses s val)).fifoIdx =
      (fifoAppend s val).fifoIdx := rfl
  have hprocess : fifoProcess q ((fifoAppend s val).over arrays (accesses s val)) out =
      ((fifoProcess q (fifoAppend s val) out).1.over arrays (accesses s val),
        (fifoProcess q (fifoAppend s val) out).2) := by
    unfold fifoProcess
    rw [hidx, hhandle]
    split
    · rfl
    · dsimp only [Handled.over]
      split <;> rfl
  have hfifo (t : AesState) : aes1Write q t 0x200 val out =
      (aesUpdateIrq (fifoProcess q (fifoAppend t val) out).1,
        (fifoProcess q (fifoAppend t val) out).2) := rfl
  rw [hfifo, hfifo, happend, hprocess]
  rfl

/-- `cmd_key` looks up the listed lengths and built-in keys and no others: with tables that
agree on them it does the same. -/
theorem cmdKeyFrom_of_agree {lens : Nat → Nat} {builtin : Nat → Key}
    (hlens : ∀ i, .keyLens i ∈ keyAccesses s → lens i = keyLens i)
    (hbuiltin : ∀ i, .builtinKeys i ∈ keyAccesses s → builtin i = builtinKeys i) :
    cmdKeyFrom lens builtin s = cmdKey s := by
  by_cases hmode : 2 ≤ blockModeField (s.fifo 0)
  · unfold cmdKey cmdKeyFrom
    split
    · omega
    · omega
    · rfl
  · rw [keyAccesses, if_neg hmode] at hlens hbuiltin
    have hlen := hlens _ List.mem_cons_self
    have hload (mode : BlockMode) (encrypt : Bool) :
        loadKeyFrom lens builtin { s with blockMode := mode, isEncrypt := encrypt } =
          loadKeyFrom keyLens builtinKeys { s with blockMode := mode, isEncrypt := encrypt } := by
      unfold loadKeyFrom
      dsimp only
      rw [hlen]
      split
      · rename_i hselect
        rw [if_pos hselect] at hbuiltin
        rw [hbuiltin _ (List.mem_cons_of_mem _ List.mem_cons_self)]
      · rfl
    unfold cmdKey cmdKeyFrom
    rw [hload, hload]

end Footprint

/-! ## Bounds -/

section Bounds

variable {s : AesState}

theorem keyContext_le (cmd : BitVec 32) : keyContext cmd ≤ 1 :=
  Nat.le_of_lt_succ (field_lt cmd (by decide : _ < 2 ^ 1))

theorem keySelect_le (cmd : BitVec 32) : keySelect cmd ≤ 7 :=
  Nat.le_of_lt_succ (field_lt cmd (by decide : _ < 2 ^ 3))

theorem keyLenIndex_le (cmd : BitVec 32) : keyLenIndex cmd ≤ 3 :=
  Nat.le_of_lt_succ (field_lt cmd (by decide : _ < 2 ^ 2))

theorem inBounds_copyAccesses {words : Nat} (h : words < maxFifoSize) {a : Access}
    (ha : a ∈ copyAccesses words) : a.InBounds := by
  obtain ⟨i, hi, rfl⟩ := List.mem_map.mp ha
  rw [List.mem_range] at hi
  exact Nat.lt_of_le_of_lt hi h

theorem inBounds_keyAccesses {a : Access} (ha : a ∈ keyAccesses s) : a.InBounds := by
  unfold keyAccesses at ha
  dsimp only at ha
  split at ha
  · cases ha
  · rcases List.mem_cons.mp ha with rfl | ha
    · exact keyLenIndex_le _
    · split at ha
      · rcases List.mem_pair.mp ha with rfl | rfl
        · exact keySelect_le _
        · exact keyContext_le _
      · split at ha
        · cases ha
        · rename_i hcopy
          rcases List.mem_append.mp ha with ha | ha
          · refine inBounds_copyAccesses ?_ ha
            unfold maxFifoSize
            omega
          · obtain rfl := List.mem_singleton.mp ha
            exact keyContext_le _

theorem inBounds_handleAccesses {a : Access} (ha : a ∈ handleAccesses s) : a.InBounds := by
  unfold handleAccesses at ha
  rcases List.mem_cons.mp ha with rfl | ha
  · exact (by decide : 0 < maxFifoSize)
  · split at ha
    · exact inBounds_keyAccesses ha
    · rename_i hop
      unfold ivAccesses at ha
      split at ha
      · rcases List.mem_append.mp ha with ha | ha
        · exact inBounds_copyAccesses (by decide) ha
        · obtain rfl := List.mem_singleton.mp ha
          -- `cmd_iv` makes no check: the opcode keeps bit 28 clear
          exact Nat.le_of_lt_succ (ivContext_lt _ (by rw [hop]))
      · cases ha
    · unfold dataAccesses at ha
      have hwords : ∀ a ∈ [Access.fifo 1, .fifo 2, .fifo 3], a.InBounds := by
        simp [Access.InBounds, maxFifoSize]
      rcases List.mem_append.mp ha with ha | ha
      · exact hwords a ha
      · split at ha
        · rename_i hctxt
          rcases List.mem_pair.mp ha with rfl | rfl
          · exact Nat.le_of_lt_succ hctxt.2
          · exact Nat.zero_le 3
        · cases ha
    · unfold storeIvAccesses at ha
      rcases List.mem_cons.mp ha with rfl | ha
      · exact (by decide : 1 < maxFifoSize)
      · split at ha
        · rename_i hctxt
          obtain rfl := List.mem_singleton.mp ha
          exact Nat.le_of_lt_succ hctxt.2
        · cases ha
    · cases ha

theorem mem_copyAccesses {words i : Nat} (h : .payload i ∈ copyAccesses words) :
    1 ≤ i ∧ i ≤ words := by
  obtain ⟨k, hk, hi⟩ := List.mem_map.mp h
  rw [List.mem_range] at hk
  cases hi
  omega

/-- A payload is copied from words that are there. -/
theorem payload_lt_fifoIdx {i : Nat} (h : .payload i ∈ handleAccesses s) :
    1 ≤ i ∧ i < s.fifoIdx := by
  have hcopy (words : Nat) (hpay : hasPayload s words) (hi : .payload i ∈ copyAccesses words) :
      1 ≤ i ∧ i < s.fifoIdx := by
    obtain ⟨hpos, hle⟩ := mem_copyAccesses hi
    exact ⟨hpos, Nat.lt_of_lt_of_le (Nat.lt_succ_of_le hle) hpay⟩
  unfold handleAccesses at h
  rcases List.mem_cons.mp h with h | h
  · cases h
  · split at h
    · unfold keyAccesses at h
      dsimp only at h
      split at h
      · cases h
      · rcases List.mem_cons.mp h with h | h
        · cases h
        · split at h
          · simp at h
          · split at h
            · cases h
            · rename_i hcond
              rw [not_or, not_not] at hcond
              exact hcopy _ hcond.2 (by simpa using h)
    · unfold ivAccesses at h
      split at h
      · exact hcopy 4 ‹_› (by simpa using h)
      · cases h
    · unfold dataAccesses at h
      split at h <;> simp at h
    · unfold storeIvAccesses at h
      split at h <;> simp at h
    · cases h

end Bounds

/-! ## Runs -/

/-- The slot and the word that an access puts into the FIFO. -/
def Act.filled (s : AesState) : Act → List (Nat × BitVec 32)
  | .write1 offset val _ =>
    if offset = 0x200 ∧ s.fifoIdx ≠ maxFifoSize then [(s.fifoIdx, val.setWidth 32)] else []
  | _ => []

/-- The words that came into the FIFO behind the last command word. -/
def behindCommand (log : List (Nat × BitVec 32)) : List (Nat × BitVec 32) :=
  log.reverse.takeWhile fun e => e.1 != 0

/-- The lengths a stored key can have. -/
def KeyLenValid (k : Key) : Prop := k.keyLen = 0 ∨ k.keyLen = 16 ∨ k.keyLen = 24 ∨ k.keyLen = 32

/-- What holds of the arrays at all times, given the words that came into the FIFO. -/
structure Sound (log : List (Nat × BitVec 32)) (s : AesState) : Prop where
  fifoIdx : s.fifoIdx ≤ maxFifoSize
  keyLen : ∀ c, KeyLenValid (s.key c)
  /-- the payload is what came in behind the command word -/
  written : ∀ i, 1 ≤ i → i < s.fifoIdx → (i, s.fifo i) ∈ behindCommand log

section Steps

variable {κ : Type} (q : Qcrypto κ) {s : AesState} {log : List (Nat × BitVec 32)}

theorem behindCommand_concat_of_pos {i : Nat} (w : BitVec 32) (h : i ≠ 0) :
    behindCommand (log ++ [(i, w)]) = (i, w) :: behindCommand log := by
  simp [behindCommand, h]

theorem Sound.fifoAppend (h : Sound log s) (val : BitVec 64) :
    Sound (log ++ if s.fifoIdx ≠ maxFifoSize then [(s.fifoIdx, val.setWidth 32)] else [])
      (fifoAppend s val) := by
  unfold Aes.fifoAppend
  by_cases hfull : s.fifoIdx = maxFifoSize
  · rw [if_pos hfull, if_neg (not_not.mpr hfull), List.append_nil]
    exact h
  · rw [if_neg hfull, if_pos hfull]
    refine ⟨?_, h.keyLen, ?_⟩
    · exact Nat.lt_of_le_of_ne h.fifoIdx hfull
    · intro i hpos hi
      have hslot : s.fifoIdx ≠ 0 := by
        dsimp only at hi
        omega
      rw [behindCommand_concat_of_pos _ hslot]
      dsimp only at hi ⊢
      by_cases hnew : i = s.fifoIdx
      · subst hnew
        rw [Function.update_self]
        exact List.mem_cons_self
      · rw [Function.update_of_ne hnew]
        exact List.mem_cons_of_mem _ (h.written i hpos (by omega))

/-- What a handler leaves of the FIFO and the keys. -/
structure Kept (s t : AesState) : Prop where
  fifo : t.fifo = s.fifo
  fifoIdx : t.fifoIdx = s.fifoIdx
  key : ∀ c, t.key c = s.key c ∨ KeyLenValid (t.key c)

theorem keyLenValid_builtinKeys (select : Nat) : KeyLenValid (builtinKeys select) := by
  unfold builtinKeys KeyLenValid
  split <;> simp

theorem keyLenValid_of_keyLens {index : Nat} (h : ¬ 32 < keyLens index) (bytes : List Byte) :
    KeyLenValid { keyLen := keyLens index, key := bytes } := by
  unfold keyLens at h
  unfold KeyLenValid keyLens
  split at h <;> simp_all

theorem kept_update_key {t : AesState} {c : Nat} {k : Key} (hfifo : t.fifo = s.fifo)
    (hidx : t.fifoIdx = s.fifoIdx) (hkey : t.key = Function.update s.key c k)
    (hk : KeyLenValid k) : Kept s t where
  fifo := hfifo
  fifoIdx := hidx
  key := by
    intro d
    rw [hkey]
    by_cases hd : d = c
    · subst hd
      rw [Function.update_self]
      exact .inr hk
    · rw [Function.update_of_ne hd]
      exact .inl rfl

theorem kept_loadKey : Kept s (loadKey s).state := by
  unfold loadKey loadKeyFrom
  dsimp only
  split
  · exact kept_update_key rfl rfl rfl (keyLenValid_builtinKeys _)
  · split
    · exact ⟨rfl, rfl, fun _ => .inl rfl⟩
    · split
      · exact kept_update_key rfl rfl rfl (keyLenValid_of_keyLens ‹_› _)
      · exact ⟨rfl, rfl, fun _ => .inl rfl⟩

theorem kept_handle (out : Outcomes) : Kept s (handle q s out).state := by
  have hsame {t : AesState} (hfifo : t.fifo = s.fifo) (hidx : t.fifoIdx = s.fifoIdx)
      (hkey : t.key = s.key) : Kept s t := ⟨hfifo, hidx, fun c => .inl (by rw [hkey])⟩
  unfold handle
  split
  · unfold cmdKey cmdKeyFrom
    split
    · have h := kept_loadKey (s := { s with blockMode := .ecb, isEncrypt := encryptBit (s.fifo 0) })
      exact ⟨h.fifo, h.fifoIdx, h.key⟩
    · have h := kept_loadKey (s := { s with blockMode := .cbc, isEncrypt := encryptBit (s.fifo 0) })
      exact ⟨h.fifo, h.fifoIdx, h.key⟩
    · exact hsame rfl rfl rfl
  · unfold cmdIv
    split <;> exact hsame rfl rfl rfl
  · unfold cmdData
    dsimp only
    split
    · exact hsame rfl rfl rfl
    · split
      · exact hsame rfl rfl rfl
      · split
        · exact hsame rfl rfl rfl
        · split <;> exact hsame rfl rfl rfl
  · unfold cmdStoreIv
    dsimp only
    split
    · exact hsame rfl rfl rfl
    · split <;> exact hsame rfl rfl rfl
  · exact hsame rfl rfl rfl
  · exact hsame rfl rfl rfl

theorem Sound.kept {t : AesState} (h : Sound log s) (hkept : Kept s t) : Sound log t where
  fifoIdx := hkept.fifoIdx ▸ h.fifoIdx
  keyLen := by
    intro c
    rcases hkept.key c with hsame | hvalid
    · rw [hsame]
      exact h.keyLen c
    · exact hvalid
  written := by
    rw [hkept.fifo, hkept.fifoIdx]
    exact h.written

theorem Sound.fifoProcess (h : Sound log s) (out : Outcomes) :
    Sound log (fifoProcess q s out).1 := by
  have hhandled := h.kept (kept_handle q out)
  unfold Aes.fifoProcess
  split
  · exact h
  · dsimp only
    split
    · exact ⟨Nat.zero_le _, hhandled.keyLen, fun i _ hi => absurd hi (Nat.not_lt_zero i)⟩
    · exact hhandled

theorem Sound.step (h : Sound log s) (a : Act) :
    Sound (log ++ a.filled s) (Aes.step q s a).1 := by
  have hquiet (hnone : a.filled s = []) (hkept : Kept s (Aes.step q s a).1) :
      Sound (log ++ a.filled s) (Aes.step q s a).1 := by
    rw [hnone, List.append_nil]
    exact h.kept hkept
  cases a with
  | write1 offset val out =>
    by_cases hfifo : offset = 0x200
    · subst hfifo
      have hprocessed := (h.fifoAppend val).fifoProcess q out
      have hfilled : (Act.write1 0x200 val out).filled s =
          if s.fifoIdx ≠ maxFifoSize then [(s.fifoIdx, val.setWidth 32)] else [] := by
        simp [Act.filled]
      rw [hfilled]
      exact hprocessed.kept ⟨rfl, rfl, fun _ => .inl rfl⟩
    · refine hquiet (if_neg fun hfill => hfifo hfill.1) ?_
      unfold Aes.step act aes1Write
      dsimp only
      rw [if_neg hfifo]
      split
      · exact ⟨rfl, rfl, fun _ => .inl rfl⟩
      · split <;> exact ⟨rfl, rfl, fun _ => .inl rfl⟩
  | _ => exact hquiet rfl ⟨rfl, rfl, fun _ => .inl rfl⟩

/-- A step that shows what came into the FIFO. -/
def fifoStep (s : AesState) (a : Act) : AesState × List (Nat × BitVec 32) :=
  ((Aes.step q s a).1, a.filled s)

/-- The words that came into the FIFO in a history. -/
def fifoLog (mem : GuestMemory) (history : List Act) : List (Nat × BitVec 32) :=
  observe (fifoStep q) (aesReset (aesInit mem)) history

theorem sound_afterHistory (mem : GuestMemory) (history : List Act) :
    Sound (fifoLog q mem history) (afterHistory q mem history) := by
  have hinit : Sound [] (aesReset (aesInit mem)) :=
    ⟨Nat.zero_le _, fun _ => .inl rfl, fun i _ hi => absurd hi (Nat.not_lt_zero i)⟩
  have hstep (s : AesState) (_ : List Act) (log : List (Nat × BitVec 32)) (a : Act) (_ : True)
      (h : Sound log s) : Sound (log ++ (fifoStep q s a).2) (fifoStep q s a).1 := h.step q a
  exact observe_invariant (P := fun s _ log => Sound log s) hstep (guarded_true _ _ history)
    [] [] hinit

end Steps

/-- The arrays in a state, with the words that came into the FIFO before it, and in the next
write to `REG_FIFO`. -/
structure ArraysInBounds {κ : Type} (q : Qcrypto κ) (log : List (Nat × BitVec 32))
    (s : AesState) : Prop where
  fifoIdx : s.fifoIdx ≤ 9
  keyLen : ∀ c, KeyLenValid (s.key c)
  /-- the write touches the listed elements of the arrays and no others -/
  footprint : ∀ val arrays out,
    aes1Write q (s.over arrays (accesses s val)) 0x200 val out =
      ((aes1Write q s 0x200 val out).1.over arrays (accesses s val),
        (aes1Write q s 0x200 val out).2)
  /-- nor does the one handler that uses the tables look up any others -/
  tables : ∀ val lens builtin, opcode ((fifoAppend s val).fifo 0) = 0x1 →
    (∀ i, .keyLens i ∈ accesses s val → lens i = keyLens i) →
    (∀ i, .builtinKeys i ∈ accesses s val → builtin i = builtinKeys i) →
    cmdKeyFrom lens builtin (fifoAppend s val) = cmdKey (fifoAppend s val)
  /-- every element the write touches exists -/
  access : ∀ val, ∀ a ∈ accesses s val, a.InBounds
  /-- a key or an IV is copied from words that came in behind the command word -/
  copied : ∀ val i, .payload i ∈ accesses s val →
    (i, (fifoAppend s val).fifo i) ∈
      behindCommand (log ++ (Act.write1 0x200 val {}).filled s)

/-- **Bounds.**  Whatever the guest writes, in every state it reaches the next write stays
inside the arrays. -/
theorem arrays_in_bounds {κ : Type} (q : Qcrypto κ) (mem : GuestMemory) (history : List Act) :
    ArraysInBounds q (fifoLog q mem history) (afterHistory q mem history) := by
  have hsound := sound_afterHistory q mem history
  generalize afterHistory q mem history = s at hsound ⊢
  refine ⟨hsound.fifoIdx, hsound.keyLen, aes1Write_over q s, ?_, ?_, ?_⟩
  · intro val lens builtin hop hlens hbuiltin
    have hlisted (a : Access) (ha : a ∈ keyAccesses (fifoAppend s val)) : a ∈ accesses s val :=
      List.mem_append_right _ (by simp [handleAccesses, hop, ha])
    exact cmdKeyFrom_of_agree (fun i hi => hlens i (hlisted _ hi))
      fun i hi => hbuiltin i (hlisted _ hi)
  · intro val a ha
    rcases List.mem_append.mp ha with ha | ha
    · split at ha
      · cases ha
      · rename_i hroom
        obtain rfl := List.mem_singleton.mp ha
        exact Nat.lt_of_le_of_ne hsound.fifoIdx hroom
    · exact inBounds_handleAccesses ha
  · intro val i hi
    have hhandler : .payload i ∈ handleAccesses (fifoAppend s val) := by
      rcases List.mem_append.mp hi with hi | hi
      · split at hi <;> simp at hi
      · exact hi
    obtain ⟨hpos, hlt⟩ := payload_lt_fifoIdx hhandler
    have hwritten := (hsound.fifoAppend val).written i hpos hlt
    simpa [Act.filled] using hwritten

end Orchard.Aes
