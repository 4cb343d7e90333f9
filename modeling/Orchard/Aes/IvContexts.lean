/-
  Aes/IvContexts.lean --- the IV contexts of the AES engine.

  A context field of two bits selects one of four IVs in IV, STORE_IV and DATA commands.
  The IV handlers build their mask with the shift of the key context and drop the lower bit
  of the field, and `cmd_data` uses IV 0 whatever its field says.  So the four contexts are
  two registers, contexts 0 and 1 on the one and 2 and 3 on the other (`register_final`), and
  only the first of them reaches the cipher.

  Each command then behaves as if there were four registers exactly under a condition on the
  commands before it (`respects_iff_harmless`).
-/
import Orchard.Aes.Framing

set_option autoImplicit false

namespace Orchard.Aes

open Orchard.Foundation

/-! ## The law of four registers -/

/-- The IV context field of a DATA command, bits 26 and 25. -/
def dataContextField (cmd : BitVec 32) : Nat := (cmd.extractLsb' 25 2).toNat

/-- The IV loaded last by an IV command whose context is selected. -/
def lastLoaded (select : Nat → Bool) (cmds : List Command) : Option (List (BitVec 32)) :=
  (cmds.filter fun c => opcode c.word == 0x2 && select (contextField c.word)).getLast?.map
    Command.args

/-- The DATA command gets the same from any cipher as if every register held `iv`. -/
def Uses (t : AesState) (c : Command) (iv : List (BitVec 32)) : Prop :=
  ∀ (κ : Type) (q : Qcrypto κ), c.result q t = c.result q { t with iv := fun _ => ⟨iv⟩ }

section Law

variable {κ : Type} (q : Qcrypto κ)

/-- The law for a command given to the device in state `t`, behind the commands `front`. -/
structure Respects (front : List Command) (t : AesState) (c : Command) : Prop where
  /-- STORE_IV stores the IV loaded last into its context -/
  store : opcode c.word = 0x6 → ∀ iv, lastLoaded (· == contextField c.word) front = some iv →
    (observe (step q) t c.writes).filter Event.isDma = [.dmaWrite c.ivAddress (wordBytes iv)]
  /-- IV changes the IV of no other context, that is, none a STORE_IV would find there -/
  load : opcode c.word = 0x2 → ∀ cmd, opcode cmd = 0x6 → contextField cmd ≠ contextField c.word →
    (deliver q t c).iv (ivContext cmd) = t.iv (ivContext cmd)
  /-- DATA in CBC mode uses the IV loaded last into its context -/
  use : opcode c.word = 0x5 → t.blockMode = .cbc →
    ∀ iv, lastLoaded (· == dataContextField c.word) front = some iv → Uses t c iv

/-- What makes the command keep the law. -/
structure Harmless (front : List Command) (t : AesState) (c : Command) : Prop where
  /-- STORE_IV: the IV loaded last into its pair of contexts is the one loaded last into its
  own -/
  store : opcode c.word = 0x6 → ∀ iv, lastLoaded (· == contextField c.word) front = some iv →
    lastLoaded (· / 2 == contextField c.word / 2) front = some iv
  /-- IV: the register holds its words already -/
  load : opcode c.word = 0x2 → t.iv (contextField c.word / 2 * 2) = ⟨c.args⟩
  /-- DATA in CBC mode: register 0 holds the IV loaded last into its context -/
  use : opcode c.word = 0x5 → t.blockMode = .cbc →
    ∀ iv, lastLoaded (· == dataContextField c.word) front = some iv → t.iv 0 = ⟨iv⟩

end Law

/-! ## Two registers -/

theorem lastLoaded_concat (select : Nat → Bool) (cmds : List Command) (c : Command) :
    lastLoaded select (cmds ++ [c]) =
      if opcode c.word == 0x2 && select (contextField c.word) then some c.args
      else lastLoaded select cmds := by
  unfold lastLoaded
  rw [List.filter_append, List.filter_cons, List.filter_nil]
  split
  · rw [List.getLast?_concat, Option.map_some]
  · rw [List.append_nil]

/-- A context that was loaded was loaded into its pair. -/
theorem lastLoaded_pair {d : Nat} {cmds : List Command} {iv : List (BitVec 32)}
    (h : lastLoaded (· == d) cmds = some iv) :
    ∃ last, lastLoaded (· / 2 == d / 2) cmds = some last := by
  induction cmds using List.reverseRecOn with
  | nil => cases h
  | append_singleton cmds c ih =>
    rw [lastLoaded_concat] at h ⊢
    split
    · exact ⟨_, rfl⟩
    · rename_i hother
      split at h
      · rename_i hload
        refine absurd ?_ hother
        rw [Bool.and_eq_true, beq_iff_eq, beq_iff_eq] at hload
        rw [Bool.and_eq_true, beq_iff_eq, beq_iff_eq, hload.2]
        exact ⟨hload.1, rfl⟩
      · exact ih h

section Registers

variable {κ : Type} (q : Qcrypto κ) {s : AesState}

theorem Command.exec_iv (c : Command) :
    (c.exec q s).1.iv =
      if opcode c.word = 0x2 then Function.update s.iv (contextField c.word / 2 * 2) ⟨c.args⟩
      else s.iv := by
  by_cases hop : opcode c.word = 0x2
  · rw [if_pos hop, ← ivContext_eq c.word (by rw [hop])]
    simp only [Command.exec, Command.effect, hop]
    rfl
  · rw [if_neg hop]
    unfold Command.exec Command.effect
    split
    · rfl
    · exact absurd ‹_› hop
    all_goals rfl

/-- Register `2 * p` holds what was loaded last into either context of pair `p`. -/
theorem register_final (p : Nat) (cmds : List Command) :
    (final (Command.exec q) s cmds).iv (p * 2) =
      ((lastLoaded (· / 2 == p) cmds).map IV.mk).getD (s.iv (p * 2)) := by
  induction cmds using List.reverseRecOn with
  | nil => rfl
  | append_singleton cmds c ih =>
    rw [final_append, final_cons, final_nil, Command.exec_iv, lastLoaded_concat]
    by_cases hop : opcode c.word = 0x2
    · by_cases hp : contextField c.word / 2 = p
      · subst hp
        simp [hop]
      · have hreg : p * 2 ≠ contextField c.word / 2 * 2 := by omega
        simp [hop, hp, Function.update_of_ne hreg, ih]
    · simp [hop, ih]

end Registers

/-! ## The law, command by command -/

theorem wordBytes_injective : Function.Injective wordBytes := by
  intro xs
  induction xs with
  | nil =>
    intro ys h
    cases ys with
    | nil => rfl
    | cons y ys => simp [wordBytes, toLe] at h
  | cons x xs ih =>
    intro ys h
    cases ys with
    | nil => simp [wordBytes, toLe] at h
    | cons y ys =>
      have hsplit : toLe 4 x.toNat ++ wordBytes xs = toLe 4 y.toNat ++ wordBytes ys := h
      obtain ⟨hhead, htail⟩ := List.append_inj hsplit (by simp)
      have hword := congrArg leNat hhead
      rw [leNat_toLe (by omega), leNat_toLe (by omega)] at hword
      rw [BitVec.eq_of_toNat_eq hword, ih htail]

/-- A cipher that returns the IV it was given. -/
def revealing : Qcrypto (List Byte) where
  new _ _ _ := some []
  setiv _ iv := some iv
  encrypt iv _ := some iv
  decrypt iv _ := some iv

/-- A STORE_IV command word with the other context of the pair. -/
def siblingWord (d : Nat) : BitVec 32 := 0x60000000#32 ||| (BitVec.ofNat 32 (d ^^^ 1) <<< 26)

theorem siblingWord_spec : ∀ d < 4, opcode (siblingWord d) = 0x6 ∧
    contextField (siblingWord d) ≠ d ∧ contextField (siblingWord d) / 2 = d / 2 := by
  decide

section Clauses

variable {κ : Type} (q : Qcrypto κ) {t : AesState}

theorem result_revealing (c : Command) (hcbc : t.blockMode = .cbc)
    (hkey : (cipherAlgo (t.key (dataKeyContext c.word)).keyLen).isSome = true) :
    c.result revealing t = some (wordBytes (t.iv 0).iv) := by
  obtain ⟨alg, halg⟩ := Option.isSome_iff_exists.mp hkey
  unfold Command.result transform
  simp [halg, hcbc, revealing]

/-- A cipher operation that succeeds has a key of a known length. -/
theorem isSome_cipherAlgo_of_result (c : Command) (h : (c.result q t).isSome = true) :
    (cipherAlgo (t.key (dataKeyContext c.word)).keyLen).isSome = true := by
  unfold Command.result transform at h
  dsimp only at h
  cases halg : cipherAlgo (t.key (dataKeyContext c.word)).keyLen with
  | none =>
    rw [halg] at h
    cases h
  | some alg => rfl

/-- In CBC mode the IV that is used is the one in register 0. -/
theorem uses_iff (c : Command) (hcbc : t.blockMode = .cbc) (h : (c.result q t).isSome = true)
    (iv : List (BitVec 32)) : Uses t c iv ↔ t.iv 0 = ⟨iv⟩ := by
  have hkey := isSome_cipherAlgo_of_result q c h
  constructor
  · intro huses
    have hheld := result_revealing c hcbc hkey
    have hgiven := result_revealing (t := { t with iv := fun _ => ⟨iv⟩ }) c hcbc hkey
    rw [huses _ revealing, hgiven, Option.some.injEq] at hheld
    exact congrArg IV.mk (wordBytes_injective hheld.symm)
  · intro hiv κ' q'
    unfold Command.result transform
    simp only [hiv]

/-- STORE_IV stores the IV of its register. -/
theorem store_iff (c : Command) (hop : opcode c.word = 0x6) {held iv : List (BitVec 32)}
    (hheld : t.iv (contextField c.word / 2 * 2) = ⟨held⟩) :
    (c.exec q t).2 = [.dmaWrite c.ivAddress (wordBytes iv)] ↔ held = iv := by
  have hshown : (c.exec q t).2 = [.dmaWrite c.ivAddress (wordBytes held)] := by
    simp only [Command.exec, Command.effect, hop]
    rw [ivContext_eq c.word (by rw [hop]), hheld]
  rw [hshown]
  constructor
  · intro h
    exact wordBytes_injective (Event.dmaWrite.inj (List.singleton_inj.mp h)).2
  · rintro rfl
    rfl

/-- An IV command leaves the other contexts alone exactly if it changes nothing. -/
theorem load_iff (c : Command) (hop : opcode c.word = 0x2) :
    (∀ cmd, opcode cmd = 0x6 → contextField cmd ≠ contextField c.word →
        (c.exec q t).1.iv (ivContext cmd) = t.iv (ivContext cmd)) ↔
      t.iv (contextField c.word / 2 * 2) = ⟨c.args⟩ := by
  rw [Command.exec_iv, if_pos hop]
  constructor
  · intro hleaves
    have hlt : contextField c.word < 2 ^ 2 := BitVec.isLt _
    obtain ⟨hstore, hother, hpair⟩ := siblingWord_spec _ hlt
    have hsame := hleaves _ hstore hother
    rw [ivContext_eq _ (by rw [hstore]), hpair, Function.update_self] at hsame
    exact hsame.symm
  · intro hheld cmd _ _
    rw [← hheld, Function.update_eq_self]

end Clauses

/-- **IV contexts.**  In any sequence of commands that are carried out, a command keeps the
law of four registers exactly if it is harmless. -/
theorem respects_iff_harmless {κ : Type} (q : Qcrypto κ) (mem : GuestMemory)
    (history : List Act) (cmds : List Command)
    (hempty : (afterHistory q mem history).fifoIdx = 0)
    (hok : Guarded (deliver q) (Command.Succeeds q) (afterHistory q mem history) cmds)
    (front back : List Command) (c : Command) (hcmds : cmds = front ++ c :: back) :
    Respects q front (run (deliver q) (afterHistory q mem history) front) c ↔
      Harmless front (run (deliver q) (afterHistory q mem history) front) c := by
  subst hcmds
  obtain ⟨hfront, hsucceeds, -⟩ := (guarded_append _ _ _ front (c :: back)).mp hok
  have hline := lineUp_afterHistory q mem history
  obtain ⟨hidle, hup, hstate, -⟩ := deliver_all q hempty hline hfront
  rw [← run_deliver] at hidle hup hstate
  have hregister (p : Nat) := register_final q (s := afterHistory q mem history) p front
  rw [← hstate] at hregister
  generalize run (deliver q) (afterHistory q mem history) front = t at *
  obtain ⟨-, -, hexec, hbus⟩ := deliver_executed q c hidle hup hsucceeds
  have hiv : (deliver q t c).iv = (c.exec q t).1.iv := by rw [← hexec]
  have hstore (hop : opcode c.word = 0x6) (iv : List (BitVec 32))
      (hiv : lastLoaded (· == contextField c.word) front = some iv) :
      (observe (step q) t c.writes).filter Event.isDma =
          [.dmaWrite c.ivAddress (wordBytes iv)] ↔
        lastLoaded (· / 2 == contextField c.word / 2) front = some iv := by
    obtain ⟨last, hlast⟩ := lastLoaded_pair hiv
    have hheld := hregister (contextField c.word / 2)
    rw [hlast] at hheld
    rw [hbus, hlast, Option.some.injEq]
    exact store_iff q c hop hheld
  have huse (hop : opcode c.word = 0x5) (hcbc : t.blockMode = .cbc) (iv : List (BitVec 32)) :
      Uses t c iv ↔ t.iv 0 = ⟨iv⟩ := uses_iff q c hcbc (hsucceeds hop) iv
  constructor
  · intro h
    refine ⟨fun hop iv hload => (hstore hop iv hload).mp (h.store hop iv hload), fun hop => ?_,
      fun hop hcbc iv hload => (huse hop hcbc iv).mp (h.use hop hcbc iv hload)⟩
    exact (load_iff q c hop).mp (hiv ▸ h.load hop)
  · intro h
    refine ⟨fun hop iv hload => (hstore hop iv hload).mpr (h.store hop iv hload), fun hop => ?_,
      fun hop hcbc iv hload => (huse hop hcbc iv).mpr (h.use hop hcbc iv hload)⟩
    rw [hiv]
    exact (load_iff q c hop).mpr (h.load hop)

/-! ## Two sequences -/

def loadIv1 : Command := ⟨0x24000000#32, [5#32, 6#32, 7#32, 8#32], by decide⟩

def loadIv2 : Command := ⟨0x28000000#32, [9#32, 10#32, 11#32, 12#32], by decide⟩

def storeIv0 : Command := ⟨0x60000000#32, [0x1000#32], by decide⟩

def storeIv2 : Command := ⟨0x68000000#32, [0x1000#32], by decide⟩

/-- 16 bytes with IV context 0. -/
def data0 : Command := ⟨0x50000010#32, [0#32, 0x2000#32, 0x3000#32], by decide⟩

/-- 16 bytes with IV context 2. -/
def data2 : Command := ⟨0x54000010#32, [0#32, 0x2000#32, 0x3000#32], by decide⟩

/-- The new device, with the cipher that reveals its IV. -/
def revealed : AesState := afterHistory revealing zeroMemory []

/-- The law for a command that the new device gets behind others. -/
def KeptBehind (front : List Command) (c : Command) : Prop :=
  Respects revealing front (run (deliver revealing) revealed front) c

/-- What was loaded into context 1 is stored for context 0 and used for context 2: no
command of the three kinds keeps the law. -/
theorem contexts_share_registers :
    (observe (step revealing) revealed
        ([useCbc, loadIv0, loadIv1, storeIv0, loadIv2, data2].flatMap Command.writes)).filter
          Event.isDma =
      [.dmaWrite 0x1000 (wordBytes [5, 6, 7, 8]), .dmaRead 0x2000 16,
        .dmaWrite 0x3000 (wordBytes [5, 6, 7, 8])] ∧
    ¬ KeptBehind [useCbc, loadIv0] loadIv1 ∧
    ¬ KeptBehind [useCbc, loadIv0, loadIv1] storeIv0 ∧
    ¬ KeptBehind [useCbc, loadIv0, loadIv1, storeIv0, loadIv2] data2 := by
  refine ⟨by decide +kernel, fun h => ?_, fun h => ?_, fun h => ?_⟩
  · have hleft := h.load (by decide) 0x60000000#32 (by decide) (by decide)
    revert hleft
    decide +kernel
  · have hstored := h.store (by decide) [1#32, 2#32, 3#32, 4#32] (by decide)
    revert hstored
    decide +kernel
  · have hused := h.use (by decide) (by decide +kernel) [9#32, 10#32, 11#32, 12#32] (by decide)
    have hrevealed := hused _ revealing
    revert hrevealed
    decide +kernel

/-- With one context of each pair, and context 0 for the data, the law is kept. -/
theorem one_context_of_each_pair_kept :
    Guarded (deliver revealing) (Command.Succeeds revealing) revealed
        [useCbc, loadIv0, loadIv2, storeIv2, data0] ∧
      KeptBehind [useCbc, loadIv0, loadIv2] storeIv2 ∧
      KeptBehind [useCbc, loadIv0, loadIv2, storeIv2] data0 := by
  have hempty : revealed.fifoIdx = 0 := by decide +kernel
  have hok : Guarded (deliver revealing) (Command.Succeeds revealing) revealed
      [useCbc, loadIv0, loadIv2, storeIv2, data0] := by
    decide +kernel
  refine ⟨hok, ?_, ?_⟩
  · refine (respects_iff_harmless revealing zeroMemory [] _ hempty hok _ [data0] storeIv2 rfl).mpr
      ⟨fun _ iv hiv => ?_, fun hop => absurd hop (by decide), fun hop => absurd hop (by decide)⟩
    exact hiv
  · refine (respects_iff_harmless revealing zeroMemory [] _ hempty hok _ [] data0 rfl).mpr
      ⟨fun hop => absurd hop (by decide), fun hop => absurd hop (by decide), fun _ _ iv hiv => ?_⟩
    obtain rfl : [1#32, 2#32, 3#32, 4#32] = iv := Option.some.inj hiv
    decide +kernel

end Orchard.Aes
