/-
  Aes/Framing.lean --- the commands behind the FIFO.

  After every word that arrives `fifo_process` runs the handler of the word at the front,
  and it empties the FIFO when the handler returns true.  A handler that misses part of its
  payload returns false and is run again with the next word.

  Over this the device is meant to be a machine that executes commands: a command word with
  its payload, all at once (`Command.exec`).  Written word by word from an empty FIFO, a
  command does what it does with its last word and nothing before it, and a sequence of
  commands is executed one after the other.
-/
import Orchard.Aes.Reset
import Orchard.Foundation.BitField

set_option autoImplicit false

namespace Orchard.Aes

open Orchard.Foundation

/-! ## Fields of a command word -/

/-- A masked field is the bit field under the mask. -/
theorem field_eq_toNat_extractLsb' (cmd mask : BitVec 32) {shift len : Nat}
    (hmask : (mask >>> shift).toNat < 2 ^ len) :
    field cmd mask shift =
      (cmd.extractLsb' shift len &&& mask.extractLsb' shift len).toNat := by
  have hlt : ((cmd &&& mask) >>> shift).toNat < 2 ^ len := by
    rw [BitVec.ushiftRight_and_distrib, BitVec.toNat_and]
    exact Nat.lt_of_le_of_lt Nat.and_le_right hmask
  rw [field, ← Nat.mod_eq_of_lt hlt, BitVec.ushiftRight_and_distrib, BitVec.toNat_and,
    BitVec.toNat_and, BitVec.extractLsb'_toNat, BitVec.extractLsb'_toNat, Nat.and_mod_two_pow,
    BitVec.toNat_ushiftRight, BitVec.toNat_ushiftRight]

theorem field_lt (cmd : BitVec 32) {mask : BitVec 32} {shift len : Nat}
    (hmask : (mask >>> shift).toNat < 2 ^ len) : field cmd mask shift < 2 ^ len := by
  rw [field_eq_toNat_extractLsb' cmd mask hmask]
  exact BitVec.isLt _

theorem dataKeyContext_lt (cmd : BitVec 32) : dataKeyContext cmd < 2 :=
  field_lt cmd (by decide : _ < 2 ^ 1)

/-- The context field of IV and STORE_IV commands, bits 27 and 26. -/
def contextField (cmd : BitVec 32) : Nat := (cmd.extractLsb' 26 2).toNat

/-- The IV handlers read bits 28 and 27 in its place, one position too high.  With an even
opcode bit 28 is clear, so the lower bit of the context is lost and nothing else. -/
theorem ivContext_eq (cmd : BitVec 32) (hop : opcode cmd % 2 = 0) :
    ivContext cmd = contextField cmd / 2 * 2 := by
  have hbit : cmd.getLsbD 28 = false := by
    rw [opcode, BitVec.toNat_ushiftRight] at hop
    rw [BitVec.getLsbD, Nat.testBit, Nat.and_comm, Nat.and_one_is_mod, hop]
    rfl
  have hlow : cmd.extractLsb' 26 2 = (cmd.extractLsb' 26 3).setWidth 2 := by
    apply BitVec.eq_of_getLsbD_eq
    intro i hi
    simp [hi]
    omega
  have hhigh : (cmd.extractLsb' 26 3).msb = false := by
    rw [BitVec.msb_eq_getLsbD_last, BitVec.getLsbD_extractLsb', hbit, Bool.and_false]
  rw [ivContext, field_eq_toNat_extractLsb' cmd _ (by decide : _ < 2 ^ 3), contextField, hlow]
  clear hlow
  generalize cmd.extractLsb' 26 3 = bits at hhigh ⊢
  revert bits
  decide

theorem ivContext_lt (cmd : BitVec 32) (hop : opcode cmd % 2 = 0) : ivContext cmd < 4 := by
  have hfield : contextField cmd < 2 ^ 2 := BitVec.isLt _
  rw [ivContext_eq cmd hop]
  omega

/-! ## Commands -/

/-- How many payload words follow a command word, if it begins a well-formed command. -/
def payloadLen (cmd : BitVec 32) : Option Nat :=
  match opcode cmd with
  | 0x1 =>
    if 2 ≤ blockModeField cmd then none
    else if keySelect cmd ≠ 0 then some 0
    else if keyLens (keyLenIndex cmd) ≤ 32 then some (keyLens (keyLenIndex cmd) / 4)
    else none
  | 0x2 => some 4
  | 0x5 => some 3
  | 0x6 => some 1
  | 0x8 => some 0
  | _ => none

/-- A command word with its whole payload. -/
structure Command where
  word : BitVec 32
  args : List (BitVec 32)
  wellFormed : payloadLen word = some args.length

namespace Command

/-- The words in the order the guest writes them. -/
def words (c : Command) : List (BitVec 32) := c.word :: c.args

/-- Payload word `i`. -/
def arg (c : Command) (i : Nat) : BitVec 32 := c.args.getD i 0

/-- The block mode of a KEY command. -/
def mode (c : Command) : BlockMode := if blockModeField c.word = 0 then .ecb else .cbc

/-- The key of a KEY command: a built-in one, or four bytes for each payload word in front
of what the context holds behind them. -/
def key (c : Command) (held : Key) : Key :=
  if keySelect c.word ≠ 0 then builtinKeys (keySelect c.word)
  else
    { keyLen := 4 * c.args.length
      key := wordBytes c.args ++ held.key.drop (4 * c.args.length) }

/-- The 48-bit source address of a DATA command. -/
def source (c : Command) : BitVec 64 := ((c.arg 0).extractLsb' 16 16 ++ c.arg 1).setWidth 64

/-- The 48-bit destination address of a DATA command. -/
def destination (c : Command) : BitVec 64 := ((c.arg 0).extractLsb' 0 16 ++ c.arg 2).setWidth 64

/-- The 40-bit address of a STORE_IV command. -/
def ivAddress (c : Command) : BitVec 64 := (c.word.extractLsb' 0 8 ++ c.arg 0).setWidth 64

section Execution

variable {κ : Type} (q : Qcrypto κ)

/-- The bytes a DATA command stores, if its cipher operation succeeds. -/
def result (s : AesState) (c : Command) : Option (List Byte) :=
  transform q s (dataKeyContext c.word) 0 (readBytes s.mem c.source (dataLen c.word))

/-- The cipher operation of the command, if it has one, succeeds. -/
def Succeeds (s : AesState) (c : Command) : Prop :=
  opcode c.word = 0x5 → (c.result q s).isSome = true

instance (s : AesState) (c : Command) : Decidable (c.Succeeds q s) :=
  inferInstanceAs (Decidable (_ → _))

/-- What a command does to the device and on the bus. -/
def effect (s : AesState) (c : Command) : AesState × List Event :=
  match opcode c.word with
  | 0x1 =>
    ({ s with
        blockMode := c.mode
        isEncrypt := encryptBit c.word
        key := Function.update s.key (keyContext c.word) (c.key (s.key (keyContext c.word))) },
      [])
  | 0x2 => ({ s with iv := Function.update s.iv (ivContext c.word) ⟨c.args⟩ }, [])
  | 0x5 =>
    let bytes := (c.result q s).getD []
    ({ s with mem := writeBytes s.mem c.destination bytes },
      [.dmaRead c.source (dataLen c.word), .dmaWrite c.destination bytes])
  | 0x6 =>
    let bytes := wordBytes (s.iv (ivContext c.word)).iv
    ({ s with mem := writeBytes s.mem c.ivAddress bytes }, [.dmaWrite c.ivAddress bytes])
  | _ =>
    ({ s with
        irqStatus :=
          if c.word &&& (1#32 <<< 27) != 0 then s.irqStatus ||| irqStatusFlag else s.irqStatus
        flagInfo := c.word &&& 0xff#32 },
      [])

/-- One command executed: its effect, and the interrupt line that follows from it. -/
def exec (s : AesState) (c : Command) : AesState × List Event :=
  (aesUpdateIrq (c.effect q s).1, (c.effect q s).2)

end Execution

end Command

/-- The well-formed commands by opcode, with the number of their payload words. -/
inductive Format (cmd : BitVec 32) : Nat → Prop
  | builtinKey : opcode cmd = 0x1 → blockModeField cmd < 2 → keySelect cmd ≠ 0 → Format cmd 0
  | explicitKey : opcode cmd = 0x1 → blockModeField cmd < 2 → keySelect cmd = 0 →
      keyLens (keyLenIndex cmd) ≤ 32 → Format cmd (keyLens (keyLenIndex cmd) / 4)
  | iv : opcode cmd = 0x2 → Format cmd 4
  | data : opcode cmd = 0x5 → Format cmd 3
  | storeIv : opcode cmd = 0x6 → Format cmd 1
  | flag : opcode cmd = 0x8 → Format cmd 0

theorem format_of_payloadLen {cmd : BitVec 32} {n : Nat} (h : payloadLen cmd = some n) :
    Format cmd n := by
  unfold payloadLen at h
  split at h
  · rename_i hop
    split at h
    · cases h
    · rename_i hmode
      split at h
      · rename_i hselect
        cases h
        exact .builtinKey hop (by omega) hselect
      · rename_i hselect
        split at h
        · rename_i hlen
          cases h
          exact .explicitKey hop (by omega) (not_not.mp hselect) hlen
        · cases h
  · cases h
    exact .iv ‹_›
  · cases h
    exact .data ‹_›
  · cases h
    exact .storeIv ‹_›
  · cases h
    exact .flag ‹_›
  · cases h

/-- A payload leaves room for its command word. -/
theorem Format.lt_maxFifoSize {cmd : BitVec 32} {n : Nat} (h : Format cmd n) :
    n < maxFifoSize := by
  cases h with
  | explicitKey _ _ _ hlen =>
    unfold maxFifoSize
    omega
  | _ => decide

/-! ## Commands in the FIFO -/

section Held

variable {κ : Type} (q : Qcrypto κ) {s : AesState}

/-- The first slots of the FIFO overwritten. -/
def AesState.stale (s : AesState) (words : List (BitVec 32)) : AesState :=
  { s with fifo := fun i => words.getD i (s.fifo i) }

/-- A device whose FIFO holds the words. -/
def AesState.hold (s : AesState) (words : List (BitVec 32)) : AesState :=
  { s.stale words with fifoIdx := words.length }

/-- What a command word sets before its payload is there: mode and direction, if it is a
KEY command. -/
def announce (s : AesState) (cmd : BitVec 32) : AesState :=
  if opcode cmd = 0x1 then
    { s with
      blockMode := if blockModeField cmd = 0 then .ecb else .cbc
      isEncrypt := encryptBit cmd }
  else s

theorem hold_nil (h : s.fifoIdx = 0) : s.hold [] = s := by
  cases s
  cases h
  rfl

theorem fifoAppend_hold {words : List (BitVec 32)} (w : BitVec 32)
    (hroom : words.length < maxFifoSize) :
    fifoAppend (s.hold words) (w.setWidth 64) = s.hold (words ++ [w]) := by
  have hword : (w.setWidth 64).setWidth 32 = w := by simp
  have hfifo : Function.update (fun i => words.getD i (s.fifo i)) words.length w =
      fun i => (words ++ [w]).getD i (s.fifo i) := by
    funext i
    by_cases hi : i = words.length
    · subst hi
      simp
    · rw [Function.update_of_ne hi]
      rcases Nat.lt_or_gt_of_ne hi with hlt | hgt
      · simp [List.getD_eq_getElem?_getD, List.getElem?_append_left hlt]
      · have hout : (words ++ [w]).length ≤ i := by
          rw [List.length_append, List.length_singleton]
          omega
        simp [List.getD_eq_getElem?_getD, List.getElem?_eq_none hout,
          List.getElem?_eq_none (Nat.le_of_lt hgt)]
  have hfull : (s.hold words).fifoIdx ≠ maxFifoSize := Nat.ne_of_lt hroom
  rw [fifoAppend, if_neg hfull, hword]
  unfold AesState.hold AesState.stale
  dsimp only
  rw [hfifo, List.length_append, List.length_singleton]

theorem payload_hold (cmd : BitVec 32) (args : List (BitVec 32)) :
    payload (s.hold (cmd :: args)) args.length = args := by
  unfold payload
  apply List.ext_getElem
  · simp
  · intro i _ hi
    simp [AesState.hold, AesState.stale, hi]

/-! ### The three addresses -/

theorem fifo_hold_arg (c : Command) {i : Nat} (hi : i < c.args.length) :
    (s.hold c.words).fifo (i + 1) = c.arg i := by
  simp [AesState.hold, AesState.stale, Command.words, Command.arg, hi]

theorem srcAddr_hold (c : Command) (h : c.args.length = 3) :
    srcAddr (s.hold c.words) = c.source := by
  rw [srcAddr, fifo_hold_arg c (by omega : 0 < _), fifo_hold_arg c (by omega : 1 < _)]
  exact or_shiftLeft_and_eq_append _ _ (by decide) (by omega)

theorem dstAddr_hold (c : Command) (h : c.args.length = 3) :
    dstAddr (s.hold c.words) = c.destination := by
  rw [dstAddr, fifo_hold_arg c (by omega : 0 < _), fifo_hold_arg c (by omega : 2 < _)]
  exact or_shiftLeft_and_eq_append _ _ (by decide) (by omega)

theorem storeIvAddr_hold (c : Command) (h : c.args.length = 1) :
    storeIvAddr (s.hold c.words) = c.ivAddress := by
  rw [storeIvAddr, fifo_hold_arg c (by omega : 0 < _)]
  exact or_shiftLeft_and_eq_append _ _ (by decide) (by omega)

/-! ### Handlers -/

/-- `cmd_key` with a mode it knows. -/
theorem cmdKey_eq_loadKey (hop : opcode (s.fifo 0) = 0x1) (hmode : blockModeField (s.fifo 0) < 2) :
    cmdKey s = loadKey (announce s (s.fifo 0)) := by
  rw [announce, if_pos hop]
  unfold cmdKey cmdKeyFrom
  rcases Nat.lt_succ_iff_lt_or_eq.mp hmode with hzero | hone
  · rw [Nat.lt_one_iff.mp hzero]
    rfl
  · rw [hone]
    rfl

/-- A handler that misses part of the payload only sets mode and direction. -/
theorem handle_of_short {n : Nat} (out : Outcomes) (hcmd : Format (s.fifo 0) n)
    (hshort : s.fifoIdx ≤ n) (hcmd0 : s.fifoIdx ≠ 0) :
    handle q s out = { state := announce s (s.fifo 0), success := false } := by
  have hmiss : ∀ elems, n ≤ elems → ¬ hasPayload s elems := fun elems hle hpay => by
    unfold hasPayload at hpay
    omega
  cases hcmd with
  | builtinKey => omega
  | explicitKey hop hmode hselect hlen =>
    simp only [handle, hop]
    rw [cmdKey_eq_loadKey hop hmode, announce, if_pos hop, loadKey, loadKeyFrom]
    dsimp only
    rw [if_neg (not_not.mpr hselect), if_neg (by omega), if_neg]
    exact hmiss _ (Nat.le_refl _)
  | iv hop =>
    simp only [handle, hop]
    rw [announce, if_neg (by rw [hop]; decide), cmdIv, if_neg (hmiss 4 (Nat.le_refl _))]
  | data hop =>
    simp only [handle, hop]
    rw [announce, if_neg (by rw [hop]; decide), cmdData]
    dsimp only
    rw [if_pos (hmiss 3 (Nat.le_refl _))]
  | storeIv hop =>
    simp only [handle, hop]
    rw [announce, if_neg (by rw [hop]; decide), cmdStoreIv]
    dsimp only
    rw [if_pos (hmiss 1 (Nat.le_refl _))]
  | flag => omega

/-- `cmd_key` loads the key of a complete command. -/
theorem loadKey_of_complete (c : Command) (hop : opcode c.word = 0x1) (hword : s.fifo 0 = c.word)
    (hhas : hasPayload s c.args.length) (hpayload : payload s c.args.length = c.args) :
    loadKey s =
      { state :=
          { s with
            key := Function.update s.key (keyContext c.word) (c.key (s.key (keyContext c.word))) }
        success := true } := by
  have hformat := format_of_payloadLen c.wellFormed
  rw [loadKey, loadKeyFrom, hword, Command.key]
  generalize hlen : c.args.length = n at hformat hhas hpayload ⊢
  cases hformat with
  | builtinKey _ _ hselect => simp only [if_pos hselect]
  | explicitKey _ _ hselect hle =>
    have hbytes : 4 * (keyLens (keyLenIndex c.word) / 4) = keyLens (keyLenIndex c.word) := by
      unfold keyLens
      split <;> rfl
    dsimp only
    rw [if_neg (not_not.mpr hselect), if_neg (Nat.not_lt.mpr hle), if_pos hhas, hpayload,
      if_neg (not_not.mpr hselect), hbytes]
  | _ h => exact absurd (hop.symm.trans h) (by decide)

/-- A handler that finds the whole payload has the effect of the command. -/
theorem handle_of_complete (c : Command) (hok : c.Succeeds q (s.hold c.words)) :
    handle q (s.hold c.words) {} =
      { state := (c.effect q (s.hold c.words)).1
        success := true
        events := (c.effect q (s.hold c.words)).2 } := by
  have hword : (s.hold c.words).fifo 0 = c.word := rfl
  have hpayload : payload (s.hold c.words) c.args.length = c.args := payload_hold c.word c.args
  have hhas : hasPayload (s.hold c.words) c.args.length := Nat.le_refl _
  have hkey (hop : opcode c.word = 0x1) (hmode : blockModeField c.word < 2) :
      cmdKey (s.hold c.words) = { state := (c.effect q (s.hold c.words)).1, success := true } := by
    rw [cmdKey_eq_loadKey (hword ▸ hop) (hword ▸ hmode), hword, announce, if_pos hop,
      loadKey_of_complete c hop]
    · simp only [Command.effect, hop]
      rfl
    · exact hword
    · exact hhas
    · exact hpayload
  have hformat := format_of_payloadLen c.wellFormed
  generalize hlen : c.args.length = n at hformat hpayload hhas
  cases hformat with
  | builtinKey hop hmode =>
    simp only [handle, hword, hop, hkey hop hmode]
    simp only [Command.effect, hop]
  | explicitKey hop hmode =>
    simp only [handle, hword, hop, hkey hop hmode]
    simp only [Command.effect, hop]
  | iv hop =>
    simp only [handle, Command.effect, hword, hop]
    rw [cmdIv, if_pos hhas, hpayload, hword]
  | data hop =>
    have hctxt : ¬ (2 ≤ dataKeyContext c.word ∨ 4 ≤ 0) := by
      have hlt := dataKeyContext_lt c.word
      omega
    obtain ⟨bytes, hbytes⟩ := Option.isSome_iff_exists.mp (hok hop)
    simp only [handle, Command.effect, hword, hop, hbytes]
    rw [Command.result] at hbytes
    rw [cmdData]
    dsimp only
    rw [if_neg (not_not.mpr hhas), hword, if_neg hctxt, srcAddr_hold c hlen,
      dstAddr_hold c hlen]
    simp only [dmaRead, dmaWrite, hbytes]
    rfl
  | storeIv hop =>
    have hctxt : ¬ 4 ≤ ivContext c.word := by
      have hlt := ivContext_lt c.word (by rw [hop])
      omega
    simp only [handle, Command.effect, hword, hop]
    rw [cmdStoreIv]
    dsimp only
    rw [if_neg (not_not.mpr hhas), hword, if_neg hctxt, storeIvAddr_hold c hlen]
    rfl
  | flag hop =>
    simp only [handle, Command.effect, hword, hop]
    rw [cmdFlag]
    rfl

end Held

/-! ## One word -/

section Words

variable {κ : Type} (q : Qcrypto κ) {s : AesState}

/-- A word written to `REG_FIFO`, with transfers that go through. -/
def fifoWrite (w : BitVec 32) : Act := .write1 0x200 (w.setWidth 64) {}

/-- The device once the command word is known: mode and direction, and the interrupt line
brought up to date. -/
def settle (s : AesState) (cmd : BitVec 32) : AesState := aesUpdateIrq (announce s cmd)

theorem announce_hold (words : List (BitVec 32)) (cmd : BitVec 32) :
    announce (s.hold words) cmd = (announce s cmd).hold words := by
  unfold announce
  split <;> rfl

theorem settle_settle (cmd : BitVec 32) : settle (settle s cmd) cmd = settle s cmd := by
  unfold settle announce
  split <;> rfl

theorem fifo_zero_of_head {words : List (BitVec 32)} {cmd : BitVec 32}
    (h : words.head? = some cmd) : (s.hold words).fifo 0 = cmd := by
  cases words with
  | nil => cases h
  | cons first rest =>
    cases h
    rfl

/-- A word that leaves the payload incomplete is kept, and shows nothing but the level of
the interrupt line. -/
theorem step_of_short {cmd w : BitVec 32} {n : Nat} {words : List (BitVec 32)}
    (hcmd : Format cmd n) (hfront : (words ++ [w]).head? = some cmd)
    (hshort : (words ++ [w]).length ≤ n) :
    step q (s.hold words) (fifoWrite w) =
      ((settle s cmd).hold (words ++ [w]), [.irq (settle s cmd).irq]) := by
  have hlt := hcmd.lt_maxFifoSize
  have hpos : (s.hold (words ++ [w])).fifoIdx ≠ 0 := by simp [AesState.hold]
  have hroom : words.length < maxFifoSize := by
    rw [List.length_append] at hshort
    omega
  have hzero := fifo_zero_of_head (s := s) hfront
  have hhandle : handle q (s.hold (words ++ [w])) {} =
      { state := announce (s.hold (words ++ [w])) cmd, success := false } := by
    have h := handle_of_short q (s := s.hold (words ++ [w])) {} (hzero.symm ▸ hcmd) hshort hpos
    rw [hzero] at h
    exact h
  have hprocess : fifoProcess q (s.hold (words ++ [w])) {} =
      ((announce s cmd).hold (words ++ [w]), []) := by
    rw [fifoProcess, if_neg hpos, hhandle, announce_hold]
    rfl
  unfold step fifoWrite act aes1Write
  simp only [fifoAppend_hold w hroom, hprocess]
  rfl

theorem Command.effect_hold (c : Command) (words : List (BitVec 32)) :
    c.effect q (s.hold words) = ((c.effect q s).1.hold words, (c.effect q s).2) := by
  unfold Command.effect
  split <;> rfl

/-- A word that completes the payload executes the command and leaves the FIFO empty. -/
theorem step_of_complete (c : Command) {w : BitVec 32} {words : List (BitVec 32)}
    (hwords : c.words = words ++ [w]) (hok : c.Succeeds q s) :
    step q (s.hold words) (fifoWrite w) =
      ({ (c.exec q s).1.stale c.words with fifoIdx := 0 },
        (c.exec q s).2 ++ [.irq (c.exec q s).1.irq]) := by
  have hroom : words.length < maxFifoSize := by
    have hlt := (format_of_payloadLen c.wellFormed).lt_maxFifoSize
    have hlen := congrArg List.length hwords
    rw [Command.words, List.length_cons, List.length_append, List.length_singleton] at hlen
    omega
  have hprocess : fifoProcess q (s.hold c.words) {} =
      ({ (c.effect q s).1.stale c.words with fifoIdx := 0 }, (c.effect q s).2) := by
    have hpos : (s.hold c.words).fifoIdx ≠ 0 := Nat.succ_ne_zero _
    rw [fifoProcess, if_neg hpos, handle_of_complete q c hok, Command.effect_hold]
    rfl
  unfold step fifoWrite act aes1Write
  simp only [fifoAppend_hold w hroom, ← hwords, hprocess]
  rfl

/-- What the command word sets early the command sets itself. -/
theorem Command.exec_settle (c : Command) : c.exec q (settle s c.word) = c.exec q s := by
  unfold settle announce
  by_cases hop : opcode c.word = 0x1
  · simp only [Command.exec, Command.effect, hop]
    rfl
  · rw [if_neg hop]
    unfold Command.exec Command.effect
    split <;> rfl

theorem Command.succeeds_settle (c : Command) (hok : c.Succeeds q s) :
    c.Succeeds q (settle s c.word) := by
  intro hop
  have hother : opcode c.word ≠ 0x1 := by
    rw [hop]
    decide
  rw [settle, announce, if_neg hother]
  exact hok hop

end Words

/-! ## One command -/

section Commands

variable {κ : Type} (q : Qcrypto κ) {s : AesState}

/-- The accesses that write a command. -/
def Command.writes (c : Command) : List Act := c.words.map fifoWrite

/-- Words behind the command word that leave the payload incomplete. -/
theorem run_of_short {cmd : BitVec 32} {n : Nat} (hcmd : Format cmd n) (hset : settle s cmd = s)
    {words rest : List (BitVec 32)} (hfront : words.head? = some cmd)
    (hshort : (words ++ rest).length ≤ n) :
    final (step q) (s.hold words) (rest.map fifoWrite) = s.hold (words ++ rest) ∧
      observe (step q) (s.hold words) (rest.map fifoWrite) = rest.map fun _ => .irq s.irq := by
  induction rest generalizing words with
  | nil => simp
  | cons w rest ih =>
    have hsplit : words ++ w :: rest = words ++ [w] ++ rest := by simp
    have hhead : (words ++ [w]).head? = some cmd := by
      rw [List.head?_append, hfront]
      rfl
    have hlen : (words ++ [w]).length ≤ n := by
      rw [hsplit, List.length_append] at hshort
      omega
    have hstep := step_of_short q (s := s) hcmd hhead hlen
    rw [hset] at hstep
    obtain ⟨hstate, hevents⟩ := ih hhead (hsplit ▸ hshort)
    rw [List.map_cons, final_cons, observe_cons, hstep, hstate, hevents, hsplit]
    exact ⟨rfl, rfl⟩

/-- A command of which the last word is still to come. -/
theorem Command.run_front (c : Command) (hidle : s.fifoIdx = 0) {front : List (BitVec 32)}
    (hfront : c.word :: front <+: c.words) (hshort : c.word :: front ≠ c.words) :
    final (step q) s ((c.word :: front).map fifoWrite) =
        (settle s c.word).hold (c.word :: front) ∧
      observe (step q) s ((c.word :: front).map fifoWrite) =
        (c.word :: front).map fun _ => .irq (settle s c.word).irq := by
  have hformat := format_of_payloadLen c.wellFormed
  have hlen : (c.word :: front).length ≤ c.args.length := by
    have hlt := hfront.length_le.lt_of_ne fun heq => hshort (hfront.eq_of_length heq)
    exact Nat.le_of_lt_succ hlt
  have hone : ([] ++ [c.word]).length ≤ c.args.length :=
    Nat.le_trans (Nat.succ_le_succ (Nat.zero_le _)) hlen
  have hfirst := step_of_short q (s := s) hformat (show ([] ++ [c.word]).head? = _ from rfl) hone
  rw [hold_nil hidle] at hfirst
  obtain ⟨hstate, hevents⟩ := run_of_short q hformat (settle_settle (s := s) c.word)
    (show [c.word].head? = _ from rfl) hlen
  rw [List.map_cons, final_cons, observe_cons, hfirst]
  dsimp only [List.nil_append]
  rw [hstate, hevents]
  exact ⟨rfl, rfl⟩

/-- The last word of a command executes it. -/
theorem Command.step_last (c : Command) (hidle : s.fifoIdx = 0) (hok : c.Succeeds q s)
    {front : List (BitVec 32)} {w : BitVec 32} (hwords : c.words = front ++ [w]) :
    step q (final (step q) s (front.map fifoWrite)) (fifoWrite w) =
      ({ (c.exec q s).1.stale c.words with fifoIdx := 0 },
        (c.exec q s).2 ++ [.irq (c.exec q s).1.irq]) := by
  cases front with
  | nil =>
    have hlast := step_of_complete q c hwords hok
    rw [hold_nil hidle] at hlast
    exact hlast
  | cons cmd front =>
    obtain rfl : c.word = cmd := (List.cons.inj hwords).1
    have hfront : c.word :: front <+: c.words := ⟨[w], hwords.symm⟩
    have hshort : c.word :: front ≠ c.words := by simp [hwords]
    obtain ⟨hstate, -⟩ := c.run_front q hidle hfront hshort
    rw [hstate, step_of_complete q c hwords (c.succeeds_settle q hok), Command.exec_settle]

/-- A device in the middle of a command. -/
structure Waiting (s t : AesState) (events : List Event) : Prop where
  mem : t.mem = s.mem
  key : t.key = s.key
  iv : t.iv = s.iv
  flagInfo : t.flagInfo = s.flagInfo
  irqStatus : t.irqStatus = s.irqStatus
  /-- the interrupt line is not raised -/
  irq : t.irq = true → s.irq = true
  /-- and nothing happens on the bus -/
  events : ∀ e ∈ events, ∃ level, e = .irq level ∧ (level = true → s.irq = true)

/-- The device executed a command: its registers and the memory are what the command makes
of them, the FIFO is empty and its words are stale. -/
structure Executed (c : Command) (s t : AesState) (events : List Event) : Prop where
  empty : t.fifoIdx = 0
  state : { t with fifo := s.fifo } = (c.exec q s).1
  events : events = (c.exec q s).2 ++ [.irq (c.exec q s).1.irq]

/-- A command written word by word takes effect at its last word and not before. -/
structure Framed (c : Command) (s : AesState) : Prop where
  before : ∀ front, front <+: c.words → front ≠ c.words →
    Waiting s (final (step q) s (front.map fifoWrite))
      (observe (step q) s (front.map fifoWrite))
  last : ∀ front w, c.words = front ++ [w] →
    Executed q c s (step q (final (step q) s (front.map fifoWrite)) (fifoWrite w)).1
      (step q (final (step q) s (front.map fifoWrite)) (fifoWrite w)).2

/-- The interrupt line is up while an enabled interrupt is pending. -/
def LineUp (s : AesState) : Prop := (s.irqStatus &&& s.irqEnable != 0) = true → s.irq = true

theorem irq_settle (cmd : BitVec 32) :
    (settle s cmd).irq = (s.irqStatus &&& s.irqEnable != 0) := by
  unfold settle announce
  split <;> rfl

theorem waiting_settle (cmd : BitVec 32) (words : List (BitVec 32)) (hline : LineUp s) :
    Waiting s ((settle s cmd).hold words) (words.map fun _ => .irq (settle s cmd).irq) := by
  have hraise : (settle s cmd).irq = true → s.irq = true := fun h =>
    hline ((irq_settle cmd).symm.trans h)
  have hevents : ∀ e ∈ words.map (fun _ => Event.irq (settle s cmd).irq),
      ∃ level, e = .irq level ∧ (level = true → s.irq = true) := by
    intro e he
    obtain ⟨-, -, rfl⟩ := List.mem_map.mp he
    exact ⟨_, rfl, hraise⟩
  refine ⟨?_, ?_, ?_, ?_, ?_, hraise, hevents⟩
  all_goals
    unfold settle announce
    split <;> rfl

theorem Command.exec_fifo (c : Command) : (c.exec q s).1.fifo = s.fifo := by
  unfold Command.exec Command.effect
  split <;> rfl

theorem Command.exec_fifoIdx (c : Command) : (c.exec q s).1.fifoIdx = s.fifoIdx := by
  unfold Command.exec Command.effect
  split <;> rfl

theorem executed (c : Command) (hidle : s.fifoIdx = 0) :
    Executed q c s { (c.exec q s).1.stale c.words with fifoIdx := 0 }
      ((c.exec q s).2 ++ [.irq (c.exec q s).1.irq]) where
  empty := rfl
  state := by
    rw [← hidle, ← c.exec_fifo q (s := s), ← c.exec_fifoIdx q (s := s)]
    rfl
  events := rfl

theorem framed (c : Command) (hidle : s.fifoIdx = 0) (hline : LineUp s) (hok : c.Succeeds q s) :
    Framed q c s where
  before := by
    intro front hfront hshort
    cases front with
    | nil => exact ⟨rfl, rfl, rfl, rfl, rfl, id, by simp⟩
    | cons cmd front =>
      obtain rfl : cmd = c.word := (List.cons_prefix_cons.mp hfront).1
      obtain ⟨hstate, hevents⟩ := c.run_front q hidle hfront hshort
      rw [hstate, hevents]
      exact waiting_settle _ _ hline
  last := by
    intro front w hwords
    rw [c.step_last q hidle hok hwords]
    exact executed q c hidle

end Commands

/-! ## Sequences of commands -/

section Sequences

variable {κ : Type} (q : Qcrypto κ) {s : AesState}

/-- The event is a transfer. -/
def Event.isDma : Event → Bool
  | .dmaRead _ _ => true
  | .dmaWrite _ _ => true
  | _ => false

/-- The device after a whole command. -/
def deliver (s : AesState) (c : Command) : AesState := final (step q) s c.writes

theorem run_deliver (cmds : List Command) :
    run (deliver q) s cmds = final (step q) s (cmds.flatMap Command.writes) := by
  induction cmds generalizing s with
  | nil => rfl
  | cons c rest ih => rw [run_cons, ih, List.flatMap_cons, final_append, deliver]

theorem lineUp_aesUpdateIrq : LineUp (aesUpdateIrq s) := id

theorem lineUp_step (hline : LineUp s) (a : Act) : LineUp (step q s a).1 := by
  cases a with
  | write1 offset val out =>
    unfold step act aes1Write
    dsimp only
    split
    · exact lineUp_aesUpdateIrq
    · split
      · exact lineUp_aesUpdateIrq
      · split
        · exact lineUp_aesUpdateIrq
        · exact hline
  | reset =>
    intro hpending
    simp [step, act, aesReset] at hpending
  | _ => exact hline

theorem lineUp_afterHistory (mem : GuestMemory) (history : List Act) :
    LineUp (afterHistory q mem history) := by
  refine run_invariant_all (P := LineUp) (fun _ a h => lineUp_step q h a) history ?_
  intro hpending
  simp [aesReset] at hpending

theorem Command.isDma_of_mem_exec (c : Command) {e : Event} (he : e ∈ (c.exec q s).2) :
    e.isDma = true := by
  unfold Command.exec Command.effect at he
  split at he
  · cases he
  · cases he
  · rcases List.mem_pair.mp he with rfl | rfl <;> rfl
  · rcases List.mem_singleton.mp he with rfl
    rfl
  · cases he

/-- What one command leaves for the next, and the transfers it made. -/
theorem deliver_executed (c : Command) (hidle : s.fifoIdx = 0) (hline : LineUp s)
    (hok : c.Succeeds q s) :
    (deliver q s c).fifoIdx = 0 ∧ LineUp (deliver q s c) ∧
      { deliver q s c with fifo := s.fifo } = (c.exec q s).1 ∧
      (observe (step q) s c.writes).filter Event.isDma = (c.exec q s).2 := by
  obtain ⟨front, w, hwords⟩ : ∃ front w, c.words = front ++ [w] :=
    ⟨_, _, (List.dropLast_append_getLast (List.cons_ne_nil c.word c.args)).symm⟩
  have hframed := framed q c hidle hline hok
  have hstep := c.step_last q hidle hok hwords
  have hbefore : (observe (step q) s (front.map fifoWrite)).filter Event.isDma = [] := by
    rw [List.filter_eq_nil_iff]
    intro e he
    have hwaiting := hframed.before front ⟨[w], hwords.symm⟩ (by simp [hwords])
    obtain ⟨level, rfl, -⟩ := hwaiting.events e he
    nofun
  have hlast : ((c.exec q s).2 ++ [Event.irq (c.exec q s).1.irq]).filter Event.isDma =
      (c.exec q s).2 := by
    rw [List.filter_append, List.filter_eq_self.mpr fun e he => c.isDma_of_mem_exec q he]
    exact List.append_nil _
  unfold deliver
  rw [Command.writes, hwords, List.map_append, final_append, observe_append, List.filter_append,
    hbefore, List.map_singleton, final_cons, final_nil, observe_cons, observe_nil,
    List.append_nil, hstep]
  exact ⟨rfl, lineUp_aesUpdateIrq, (executed q c hidle).state, hlast⟩

/-- Execution does not look at stale words. -/
theorem Command.exec_stale (c : Command) (fifo : Nat → BitVec 32) :
    c.exec q { s with fifo := fifo } =
      ({ (c.exec q s).1 with fifo := fifo }, (c.exec q s).2) := by
  unfold Command.exec Command.effect
  split <;> rfl

theorem exec_all_stale (cmds : List Command) (fifo : Nat → BitVec 32) :
    final (Command.exec q) { s with fifo := fifo } cmds =
        { final (Command.exec q) s cmds with fifo := fifo } ∧
      observe (Command.exec q) { s with fifo := fifo } cmds = observe (Command.exec q) s cmds := by
  induction cmds generalizing s with
  | nil => exact ⟨rfl, rfl⟩
  | cons c rest ih =>
    obtain ⟨hstate, hevents⟩ := ih (s := (c.exec q s).1)
    rw [final_cons, final_cons, observe_cons, observe_cons, Command.exec_stale, hstate, hevents]
    exact ⟨rfl, rfl⟩

/-- The device executes commands one after the other. -/
structure InOrder (s : AesState) (cmds : List Command) : Prop where
  /-- each takes effect at its last word and not before -/
  framed : ∀ front c back, cmds = front ++ c :: back →
    Framed q c (final (step q) s (front.flatMap Command.writes))
  /-- the FIFO is empty behind each -/
  empty : ∀ front, front <+: cmds →
    (final (step q) s (front.flatMap Command.writes)).fifoIdx = 0
  /-- registers and memory are those of the commands executed one by one -/
  state : { final (step q) s (cmds.flatMap Command.writes) with fifo := s.fifo } =
    final (Command.exec q) s cmds
  /-- and so are the transfers -/
  bus : (observe (step q) s (cmds.flatMap Command.writes)).filter Event.isDma =
    observe (Command.exec q) s cmds

/-- An idle device that finds every cipher operation succeed stays idle between the
commands and follows the machine that executes them. -/
theorem deliver_all {cmds : List Command} (hidle : s.fifoIdx = 0) (hline : LineUp s)
    (hok : Guarded (deliver q) (Command.Succeeds q) s cmds) :
    (final (step q) s (cmds.flatMap Command.writes)).fifoIdx = 0 ∧
      LineUp (final (step q) s (cmds.flatMap Command.writes)) ∧
      { final (step q) s (cmds.flatMap Command.writes) with fifo := s.fifo } =
        final (Command.exec q) s cmds ∧
      (observe (step q) s (cmds.flatMap Command.writes)).filter Event.isDma =
        observe (Command.exec q) s cmds := by
  induction cmds generalizing s with
  | nil => exact ⟨hidle, hline, rfl, rfl⟩
  | cons c rest ih =>
    obtain ⟨hsucceeds, hrest⟩ := hok
    obtain ⟨hidle', hline', hstate, hbus⟩ := deliver_executed q c hidle hline hsucceeds
    obtain ⟨hempty, hup, hfinal, hevents⟩ := ih hidle' hline' hrest
    obtain ⟨hexec, hshown⟩ := exec_all_stale q (s := deliver q s c) rest s.fifo
    rw [List.flatMap_cons, final_append, observe_append, List.filter_append, hbus]
    refine ⟨hempty, hup, ?_, ?_⟩
    · rw [final_cons, ← hstate, hexec, ← hfinal]
      rfl
    · rw [observe_cons, ← hstate, hshown, ← hevents]
      rfl

/-- **Command framing.**  From any history that leaves the FIFO empty, well-formed commands
written word by word are executed in order, each exactly at its last word. -/
theorem commands_execute_in_order (mem : GuestMemory) (history : List Act) (cmds : List Command)
    (hempty : (afterHistory q mem history).fifoIdx = 0)
    (hok : Guarded (deliver q) (Command.Succeeds q) (afterHistory q mem history) cmds) :
    InOrder q (afterHistory q mem history) cmds := by
  have hline := lineUp_afterHistory q mem history
  obtain ⟨-, -, hstate, hbus⟩ := deliver_all q hempty hline hok
  refine ⟨?_, ?_, hstate, hbus⟩
  · rintro front c back rfl
    obtain ⟨hfront, hback⟩ := (guarded_append _ _ _ front (c :: back)).mp hok
    obtain ⟨hidle, hup, -⟩ := deliver_all q hempty hline hfront
    rw [run_deliver] at hback
    exact framed q c hidle hup hback.1
  · rintro front ⟨back, rfl⟩
    obtain ⟨hfront, -⟩ := (guarded_append _ _ _ front back).mp hok
    exact (deliver_all q hempty hline hfront).1

end Sequences

/-- A built-in key, CBC mode. -/
def useCbc : Command := ⟨0x11110000#32, [], by decide⟩

def loadIv0 : Command := ⟨0x20000000#32, [1#32, 2#32, 3#32, 4#32], by decide⟩

/-- A built-in key for CBC encryption, an IV, 16 bytes encrypted, the IV stored and a flag
raised. -/
def fiveCommands : List Command :=
  [useCbc,
    loadIv0,
    ⟨0x50000010#32, [0#32, 0x1000#32, 0x2000#32], by decide⟩,
    ⟨0x60000000#32, [0x3000#32], by decide⟩,
    ⟨0x88000001#32, [], by decide⟩]

/-- The five commands are executed in order by a device with its interrupts enabled. -/
theorem fiveCommands_execute_in_order :
    (afterHistory copying zeroMemory [.write1 0x1c 0x20 {}]).fifoIdx = 0 ∧
      Guarded (deliver copying) (Command.Succeeds copying)
        (afterHistory copying zeroMemory [.write1 0x1c 0x20 {}]) fiveCommands ∧
      InOrder copying (afterHistory copying zeroMemory [.write1 0x1c 0x20 {}]) fiveCommands := by
  have hempty : (afterHistory copying zeroMemory [.write1 0x1c 0x20 {}]).fifoIdx = 0 := by
    decide +kernel
  have hok : Guarded (deliver copying) (Command.Succeeds copying)
      (afterHistory copying zeroMemory [.write1 0x1c 0x20 {}]) fiveCommands := by
    decide +kernel
  exact ⟨hempty, hok, commands_execute_in_order copying zeroMemory _ _ hempty hok⟩

end Orchard.Aes
