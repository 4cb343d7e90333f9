/-
  Aes/Device.lean --- `hw/vmapple/aes.c`, the Apple AES engine.

  The guest feeds command words one at a time into a FIFO of nine entries.  After
  every word the device runs the handler of the command at the front; a handler that
  returns false leaves the FIFO as it is, be it that words are missing or that the
  command was refused.  Commands load keys and IVs, transform guest memory by DMA,
  store an IV, and raise a flag.

  The cipher library is a parameter (`Qcrypto`), and each access takes the outcomes of
  its DMA transfers from the step that makes it.  Arrays are functions on all indices:
  that the device stays inside them is a result about the model, not a part of it.
  Log and trace output is left out.
-/
import Orchard.Foundation.GuestMemory
import Orchard.Foundation.Execution
import Mathlib.Logic.Function.Basic

set_option autoImplicit false

namespace Orchard.Aes

open Orchard.Foundation

/-! ## State -/

/-- `QCryptoCipherMode`, as far as `cmd_key` selects it. -/
inductive BlockMode where
  | ecb
  | cbc
  deriving DecidableEq, Repr

/-- `QCryptoCipherAlgo`, as far as `cmd_data` selects it. -/
inductive CipherAlgo where
  | aes128
  | aes192
  | aes256
  deriving DecidableEq, Repr

/-- `Key`: the 32 bytes of the array, of which the first `keyLen` are the key. -/
structure Key where
  keyLen : Nat
  key : List Byte
  deriving DecidableEq, Repr

/-- `IV`: four words. -/
structure IV where
  iv : List (BitVec 32)
  deriving DecidableEq, Repr

/-- `AESState`, with the level it last drove on its interrupt line and the guest memory
it reaches by DMA. -/
structure AesState where
  irq : Bool
  mem : GuestMemory
  status : BitVec 32
  qStatus : BitVec 32
  irqStatus : BitVec 32
  irqEnable : BitVec 32
  watermark : BitVec 32
  flagInfo : BitVec 32
  fifo : Nat → BitVec 32
  fifoIdx : Nat
  key : Nat → Key
  iv : Nat → IV
  isEncrypt : Bool
  blockMode : BlockMode

/-- What the device does that can be seen from outside. -/
inductive Event where
  /-- a register read returned this value -/
  | value (v : BitVec 64)
  | dmaRead (addr : BitVec 64) (len : Nat)
  | dmaWrite (addr : BitVec 64) (bytes : List Byte)
  /-- the level of the interrupt line after an access -/
  | irq (level : Bool)
  deriving DecidableEq, Repr

/-- The cipher objects of `crypto/cipher.h`, as functions. -/
structure Qcrypto (κ : Type) where
  /-- `qcrypto_cipher_new` -/
  new : CipherAlgo → BlockMode → List Byte → Option κ
  /-- `qcrypto_cipher_setiv` -/
  setiv : κ → List Byte → Option κ
  /-- `qcrypto_cipher_encrypt`, as many bytes as it is given -/
  encrypt : κ → List Byte → Option (List Byte)
  /-- `qcrypto_cipher_decrypt`, as many bytes as it is given -/
  decrypt : κ → List Byte → Option (List Byte)

/-- The outcomes of the transfers one access may make. -/
structure Outcomes where
  read : ReadOutcome := .ok
  write : WriteOutcome := .ok

/-! ## Fields of a command word -/

/-- `MAX_FIFO_SIZE`. -/
def maxFifoSize : Nat := 9

/-- `(cmd & mask) >> shift`. -/
def field (cmd mask : BitVec 32) (shift : Nat) : Nat := ((cmd &&& mask) >>> shift).toNat

/-- `CMD_SHIFT`. -/
def opcode (cmd : BitVec 32) : Nat := (cmd >>> 28).toNat

/-- `CMD_KEY_CONTEXT`. -/
def keyContext (cmd : BitVec 32) : Nat := field cmd (1#32 <<< 27) 27

/-- `CMD_KEY_SELECT`. -/
def keySelect (cmd : BitVec 32) : Nat := field cmd (7#32 <<< 24) 24

/-- `CMD_KEY_KEY_LEN`. -/
def keyLenIndex (cmd : BitVec 32) : Nat := field cmd (3#32 <<< 22) 22

/-- `CMD_KEY_ENCRYPT_MASK`. -/
def encryptBit (cmd : BitVec 32) : Bool := cmd &&& (1#32 <<< 20) != 0

/-- `CMD_KEY_BLOCK_MODE`. -/
def blockModeField (cmd : BitVec 32) : Nat := field cmd (3#32 <<< 16) 16

/-- `CMD_IV_CONTEXT`: the mask is built with the shift of the key context, the field is
taken with its own. -/
def ivContext (cmd : BitVec 32) : Nat := field cmd (3#32 <<< 27) 26

/-- `CMD_DATA_KEY_CTX`. -/
def dataKeyContext (cmd : BitVec 32) : Nat := field cmd (1#32 <<< 27) 27

/-- `CMD_DATA_LEN_MASK`. -/
def dataLen (cmd : BitVec 32) : Nat := (cmd &&& 0xffffff#32).toNat

/-- `key_lens`. -/
def keyLens : Nat → Nat
  | 0 => 16
  | 1 => 24
  | 2 => 32
  | _ => 64

/-- `builtin_keys`: entries without an initialiser are zero. -/
def builtinKeys (select : Nat) : Key :=
  if select = 1 ∨ select = 2 ∨ select = 3 then
    { keyLen := 32, key := BitVec.ofNat 8 select :: List.replicate 31 0 }
  else { keyLen := 0, key := List.replicate 32 0 }

/-- Words as they lie in memory. -/
def wordBytes (words : List (BitVec 32)) : List Byte := words.flatMap fun w => toLe 4 w.toNat

/-! ## The FIFO and its commands -/

/-- `aes_update_irq`. -/
def aesUpdateIrq (s : AesState) : AesState :=
  { s with irq := s.irqStatus &&& s.irqEnable != 0 }

/-- `fifo_append`. -/
def fifoAppend (s : AesState) (val : BitVec 64) : AesState :=
  if s.fifoIdx = maxFifoSize then s
  else
    { s with
      fifo := Function.update s.fifo s.fifoIdx (val.setWidth 32)
      fifoIdx := s.fifoIdx + 1 }

/-- `has_payload`. -/
def hasPayload (s : AesState) (elems : Nat) : Prop := elems + 1 ≤ s.fifoIdx

instance (s : AesState) (elems : Nat) : Decidable (hasPayload s elems) :=
  inferInstanceAs (Decidable (elems + 1 ≤ s.fifoIdx))

/-- The `count` words behind the command word. -/
def payload (s : AesState) (count : Nat) : List (BitVec 32) :=
  (List.range count).map fun i => s.fifo (i + 1)

/-- What a handler leaves: the state, its return value and what it did on the bus. -/
structure Handled where
  state : AesState
  success : Bool
  events : List Event := []

/-- The part of `cmd_key` that loads the key, for given tables of lengths and of built-in
keys. -/
def loadKeyFrom (lens : Nat → Nat) (builtin : Nat → Key) (s : AesState) : Handled :=
  let cmd := s.fifo 0
  let ctxt := keyContext cmd
  let keyLen := lens (keyLenIndex cmd)
  if keySelect cmd ≠ 0 then
    { state := { s with key := Function.update s.key ctxt (builtin (keySelect cmd)) }
      success := true }
  else if 32 < keyLen then { state := s, success := false }
  else if hasPayload s (keyLen / 4) then
    -- memcpy over the front of the array, the bytes behind it stay
    let loaded : Key :=
      { keyLen := keyLen
        key := wordBytes (payload s (keyLen / 4)) ++ (s.key ctxt).key.drop keyLen }
    { state := { s with key := Function.update s.key ctxt loaded }, success := true }
  else { state := s, success := false }

/-- `cmd_key` for given tables.  Mode and direction are set before the payload is known to
be there. -/
def cmdKeyFrom (lens : Nat → Nat) (builtin : Nat → Key) (s : AesState) : Handled :=
  match blockModeField (s.fifo 0) with
  | 0 => loadKeyFrom lens builtin { s with blockMode := .ecb, isEncrypt := encryptBit (s.fifo 0) }
  | 1 => loadKeyFrom lens builtin { s with blockMode := .cbc, isEncrypt := encryptBit (s.fifo 0) }
  | _ => { state := s, success := false }

/-- The same with the source's own tables. -/
def loadKey (s : AesState) : Handled := loadKeyFrom keyLens builtinKeys s

/-- `cmd_key`. -/
def cmdKey (s : AesState) : Handled := cmdKeyFrom keyLens builtinKeys s

/-- `cmd_iv`. -/
def cmdIv (s : AesState) : Handled :=
  if hasPayload s 4 then
    { state := { s with iv := Function.update s.iv (ivContext (s.fifo 0)) ⟨payload s 4⟩ }
      success := true }
  else { state := s, success := false }

/-- The switch over `key_len` in `cmd_data`. -/
def cipherAlgo : Nat → Option CipherAlgo
  | 16 => some .aes128
  | 24 => some .aes192
  | 32 => some .aes256
  | _ => none

section Cipher

variable {κ : Type} (q : Qcrypto κ)

/-- The part of `cmd_data` between its two transfers. -/
def transform (s : AesState) (ctxtKey ctxtIv : Nat) (src : List Byte) : Option (List Byte) := do
  let k := s.key ctxtKey
  let alg ← cipherAlgo k.keyLen
  let cipher ← q.new alg s.blockMode (k.key.take k.keyLen)
  let cipher ←
    if s.blockMode = .ecb then some cipher else q.setiv cipher (wordBytes (s.iv ctxtIv).iv)
  if s.isEncrypt then q.encrypt cipher src else q.decrypt cipher src

/-- The source address of a DATA command. -/
def srcAddr (s : AesState) : BitVec 64 :=
  (s.fifo 2).setWidth 64 ||| (((s.fifo 1).setWidth 64 <<< 16) &&& 0xffff00000000#64)

/-- The destination address of a DATA command. -/
def dstAddr (s : AesState) : BitVec 64 :=
  (s.fifo 3).setWidth 64 ||| (((s.fifo 1).setWidth 64 <<< 32) &&& 0xffff00000000#64)

/-- `cmd_data`.  The IV context is 0 whatever the command says. -/
def cmdData (s : AesState) (out : Outcomes) : Handled :=
  let ctxtIv := 0
  let ctxtKey := dataKeyContext (s.fifo 0)
  let len := dataLen (s.fifo 0)
  if ¬ hasPayload s 3 then { state := s, success := false }
  else if 2 ≤ ctxtKey ∨ 4 ≤ ctxtIv then { state := s, success := false }
  else
    let fetched := dmaRead s.mem (srcAddr s) len out.read
    let events := [.dmaRead (srcAddr s) len]
    if fetched.1 = false then { state := s, success := false, events := events }
    else
      match transform q s ctxtKey ctxtIv fetched.2 with
      | none => { state := s, success := false, events := events }
      | some dst =>
        let stored := dmaWrite s.mem (dstAddr s) dst out.write
        { state := { s with mem := stored.2 }
          success := stored.1
          events := events ++ [.dmaWrite (dstAddr s) dst] }

/-- The address of a STORE_IV command. -/
def storeIvAddr (s : AesState) : BitVec 64 :=
  (s.fifo 1).setWidth 64 ||| (((s.fifo 0).setWidth 64 <<< 32) &&& 0xff00000000#64)

/-- `cmd_store_iv`. -/
def cmdStoreIv (s : AesState) (out : Outcomes) : Handled :=
  let ctxt := ivContext (s.fifo 0)
  if ¬ hasPayload s 1 then { state := s, success := false }
  else if 4 ≤ ctxt then { state := s, success := false }
  else
    let bytes := wordBytes (s.iv ctxt).iv
    let stored := dmaWrite s.mem (storeIvAddr s) bytes out.write
    { state := { s with mem := stored.2 }
      success := stored.1
      events := [.dmaWrite (storeIvAddr s) bytes] }

/-- `REG_IRQ_STATUS_INVALID_CMD`. -/
def irqStatusInvalidCmd : BitVec 32 := 1#32 <<< 2

/-- `REG_IRQ_STATUS_FLAG`. -/
def irqStatusFlag : BitVec 32 := 1#32 <<< 5

/-- `cmd_flag`. -/
def cmdFlag (s : AesState) : Handled :=
  let cmd := s.fifo 0
  { state :=
      { s with
        irqStatus :=
          if cmd &&& (1#32 <<< 27) != 0 then s.irqStatus ||| irqStatusFlag else s.irqStatus
        flagInfo := cmd &&& 0xff#32 }
    success := true }

/-- The switch of `fifo_process`. -/
def handle (s : AesState) (out : Outcomes) : Handled :=
  match opcode (s.fifo 0) with
  | 0x1 => cmdKey s
  | 0x2 => cmdIv s
  | 0x5 => cmdData q s out
  | 0x6 => cmdStoreIv s out
  | 0x8 => cmdFlag s
  | _ =>
    { state := { s with irqStatus := s.irqStatus ||| irqStatusInvalidCmd }, success := false }

/-- `fifo_process`. -/
def fifoProcess (s : AesState) (out : Outcomes) : AesState × List Event :=
  if s.fifoIdx = 0 then (s, [])
  else
    let h := handle q s out
    (if h.success then { h.state with fifoIdx := 0 } else h.state, h.events)

/-! ## Registers -/

/-- `aes1_read`. -/
def aes1Read (s : AesState) (offset : BitVec 64) : BitVec 64 :=
  if offset = 0xc then s.status.setWidth 64
  else if offset = 0x18 then s.irqStatus.setWidth 64
  else if offset = 0x1c then s.irqEnable.setWidth 64
  else if offset = 0x20 then s.watermark.setWidth 64
  else if offset = 0x24 then s.qStatus.setWidth 64
  else if offset = 0x30 then s.flagInfo.setWidth 64
  else 0

/-- `aes1_write`. -/
def aes1Write (s : AesState) (offset val : BitVec 64) (out : Outcomes) : AesState × List Event :=
  if offset = 0x18 then
    (aesUpdateIrq { s with irqStatus := s.irqStatus &&& ~~~ val.setWidth 32 }, [])
  else if offset = 0x1c then (aesUpdateIrq { s with irqEnable := val.setWidth 32 }, [])
  else if offset = 0x200 then
    let processed := fifoProcess q (fifoAppend s val) out
    (aesUpdateIrq processed.1, processed.2)
  else (s, [])

/-- `aes2_read`. -/
def aes2Read (_offset : BitVec 64) : BitVec 64 := 0

/-- `aes2_write`. -/
def aes2Write (s : AesState) (_offset _val : BitVec 64) : AesState := s

/-- `aes_reset`. -/
def aesReset (s : AesState) : AesState :=
  { s with
    status := 0x3f80
    qStatus := 2
    irqStatus := 0
    irqEnable := 0
    watermark := 0 }

/-- The device as it is created: the instance is zeroed memory. -/
def aesInit (mem : GuestMemory) : AesState where
  irq := false
  mem := mem
  status := 0
  qStatus := 0
  irqStatus := 0
  irqEnable := 0
  watermark := 0
  flagInfo := 0
  fifo := fun _ => 0
  fifoIdx := 0
  key := fun _ => { keyLen := 0, key := List.replicate 32 0 }
  iv := fun _ => { iv := List.replicate 4 0 }
  isEncrypt := false
  blockMode := .ecb

/-! ## Runs -/

/-- One access to the device, a reset, or a store of the guest to its own memory. -/
inductive Act where
  | read1 (offset : BitVec 64)
  | write1 (offset val : BitVec 64) (out : Outcomes)
  | read2 (offset : BitVec 64)
  | write2 (offset val : BitVec 64)
  | reset
  | store (addr : BitVec 64) (bytes : List Byte)

/-- What an action does to the device, and what it shows but for the interrupt line. -/
def act (s : AesState) : Act → AesState × List Event
  | .read1 offset => (s, [.value (aes1Read s offset)])
  | .write1 offset val out => aes1Write q s offset val out
  | .read2 offset => (s, [.value (aes2Read offset)])
  | .write2 offset val => (aes2Write s offset val, [])
  | .reset => (aesReset s, [])
  | .store addr bytes => ({ s with mem := writeBytes s.mem addr bytes }, [])

/-- One step, with the interrupt level it leaves. -/
def step (s : AesState) (a : Act) : AesState × List Event :=
  ((act q s a).1, (act q s a).2 ++ [.irq (act q s a).1.irq])

end Cipher

end Orchard.Aes
