/-
  Hvc/KeyHandOut.lean --- which keys a core holds after its calls.

  A run is any sequence of hypercalls, resets and changes the cores and the guest
  make on their own.  Its notes say what a reader at the hypercall boundary sees: the
  keys the boot core held when it made SET_INITIAL_STATE, the keys a secondary held
  before and after its own, the ids it was handed, and the resets.  `Lawful` is the
  contract over notes; that every run keeps it follows from one invariant between
  the global state and the notes of the current boot.
-/
import Orchard.Hvc.Service
import Orchard.Foundation.Execution

set_option autoImplicit false

namespace Orchard.Hvc

open Orchard.Foundation

/-! ## The contract -/

/-- The number of the CPU service a call asks for, from the low 32 bits of x0. -/
def serviceOf (x0 : BitVec 64) : Option Nat :=
  let fid := x0.toNat % 2 ^ 32
  if 0xc1000000 ≤ fid ∧ fid ≤ 0xc100ffff then some (fid - 0xc1000000) else none

/-- SET_INITIAL_STATE and GET_DEFAULT_KEYS. -/
def serviceInitialState : Nat := 0
def serviceDefaultKeys : Nat := 1

/-- What is seen at the hypercall boundary. -/
inductive Note (ι : Type) where
  /-- the boot core made SET_INITIAL_STATE with these keys -/
  | recorded (keys : Keys)
  /-- another core made SET_INITIAL_STATE: its keys before and after -/
  | initialised (core : ι) (before after : Keys)
  /-- GET_DEFAULT_KEYS answered with these ids -/
  | handedOut (pids : BitVec 64 × BitVec 64)
  | reset

section Contract

variable {ι : Type}

/-- The keys of the boot core's latest SET_INITIAL_STATE in this boot. -/
def lastRecorded (log : List (Note ι)) : Option Keys :=
  log.foldl (fun before note =>
    match note with
    | .recorded keys => some keys
    | .reset => none
    | _ => before) none

/-- The ids handed out last in this boot. -/
def lastHandedOut (log : List (Note ι)) : Option (BitVec 64 × BitVec 64) :=
  log.foldl (fun before note =>
    match note with
    | .handedOut pids => some pids
    | .reset => none
    | _ => before) none

/-- What is required of a note after the notes before it. -/
def Lawful (log : List (Note ι)) : Note ι → Prop
  | .initialised _ before after => after = (lastRecorded log).getD before
  | .handedOut pids =>
    pids.1 ≠ 0 ∧ pids.2 ≠ 0 ∧ ∀ earlier, lastHandedOut log = some earlier → pids = earlier
  | _ => True

/-! ## The invariant -/

/-- The global state belongs to the notes of the current boot. -/
structure Consistent (m : Machine ι) (log : List (Note ι)) : Prop where
  recorded : lastRecorded log = if m.bootKeys.valid then some m.bootKeys.keys else none
  accepted : pidsAccepted m.defaultPids = true
  handedOut : ∀ pids, lastHandedOut log = some pids → pids = m.defaultPids
  lawful : Everywhere Lawful log

/-- What happens without notes and leaves the global state. -/
theorem Consistent.congr {m m' : Machine ι} {log : List (Note ι)} (h : Consistent m log)
    (hkeys : m'.bootKeys = m.bootKeys) (hpids : m'.defaultPids = m.defaultPids) :
    Consistent m' log where
  recorded := by rw [hkeys, h.recorded]
  accepted := by rw [hpids, h.accepted]
  handedOut := by rw [hpids]; exact h.handedOut
  lawful := h.lawful

/-- GET_DEFAULT_KEYS hands out the ids of this boot. -/
theorem consistent_defaultKeys {m m' : Machine ι} {log : List (Note ι)}
    (h : Consistent m log) (hboot : m'.bootKeys = m.bootKeys)
    (hpids : m'.defaultPids = m.defaultPids) :
    Consistent m' (log ++ [.handedOut m.defaultPids]) := by
  have haccepted := h.accepted
  simp only [pidsAccepted, Bool.and_eq_true, bne_iff_ne] at haccepted
  refine ⟨?_, by rw [hpids, h.accepted], ?_,
    everywhere_concat h.lawful ⟨haccepted.1, haccepted.2, fun earlier hearlier =>
      (h.handedOut earlier hearlier).symm⟩⟩
  · rw [hboot, ← h.recorded]
    simp [lastRecorded]
  · rw [hpids]
    simp [lastHandedOut]

end Contract

/-! ## Runs -/

section Runs

variable {ι : Type} [DecidableEq ι]

/-- What can happen to the machine. -/
inductive Event (ι : Type) where
  | call (core : ι)
  /-- a core runs, is reset or is started: its registers and keys may become anything -/
  | load (core : ι) (env : Env)
  /-- the guest changes its memory -/
  | store (ram : List Byte)
  /-- a machine reset, with the random pairs drawn in it -/
  | reset (cores : ι → Env) (draws : List (BitVec 64 × BitVec 64))

/-- The machine after an event. -/
def next (first : ι) (m : Machine ι) : Event ι → Machine ι
  | .call c => (armSmcccDispatch (some (vmappleHvc first)) m c).2
  | .load c env => setCore m c env
  | .store ram => { m with ram := ram }
  | .reset cores draws =>
    ((vmappleHvcReset m draws).map fun m' => { m' with cores := cores }).getD m

/-- The notes of a call that turned `m` into `m'`. -/
def callNotes (first : ι) (m m' : Machine ι) (c : ι) : List (Note ι) :=
  match serviceOf ((m.cores c).xregs 0) with
  | none => []
  | some n =>
    if n = serviceInitialState then
      if c = first then [.recorded (m.cores c).keys]
      else [.initialised c (m.cores c).keys (m'.cores c).keys]
    else if n = serviceDefaultKeys then
      [.handedOut ((m'.cores c).xregs 2, (m'.cores c).xregs 3)]
    else []

/-- One event and its notes. -/
def step (first : ι) (m : Machine ι) (e : Event ι) : Machine ι × List (Note ι) :=
  (next first m e,
    match e with
    | .call c => callNotes first m (next first m e) c
    | .reset _ _ => [.reset]
    | _ => [])

/-- The random source ends the loop of every reset. -/
def Completes (_ : Machine ι) : Event ι → Prop
  | .reset _ draws => draws.any pidsAccepted = true
  | _ => True

instance (m : Machine ι) : ∀ e, Decidable (Completes m e)
  | .call _ => inferInstanceAs (Decidable True)
  | .load _ _ => inferInstanceAs (Decidable True)
  | .store _ => inferInstanceAs (Decidable True)
  | .reset _ draws => inferInstanceAs (Decidable (draws.any pidsAccepted = true))

/-! ## One call -/

@[simp] theorem setReg_keys (m : Machine ι) (c d : ι) (r : BitVec 5) (value : BitVec 64) :
    ((setReg m c r value).cores d).keys = (m.cores d).keys := by
  unfold setReg setCore
  by_cases hd : d = c
  · subst hd
    simp
  · simp [hd]

@[simp] theorem setReg_bootKeys (m : Machine ι) (c : ι) (r : BitVec 5) (value : BitVec 64) :
    (setReg m c r value).bootKeys = m.bootKeys := rfl

@[simp] theorem setReg_defaultPids (m : Machine ι) (c : ι) (r : BitVec 5) (value : BitVec 64) :
    (setReg m c r value).defaultPids = m.defaultPids := rfl

theorem setReg_xregs_self (m : Machine ι) (c : ι) (r q : BitVec 5) (value : BitVec 64) :
    ((setReg m c r value).cores c).xregs q = if q = r then value else (m.cores c).xregs q := by
  simp [setReg, setCore, Function.update_apply]

theorem setReg_cores_of_ne (m : Machine ι) {c d : ι} (r : BitVec 5) (value : BitVec 64)
    (hd : d ≠ c) : (setReg m c r value).cores d = m.cores d := by
  simp [setReg, setCore, hd]

/-- What the service does before it answers. -/
def served (first : ι) (m : Machine ι) (c : ι) (n : Nat) : Machine ι :=
  if n = serviceInitialState then setInitialState first m c
  else if n = serviceDefaultKeys then
    setReg (setReg m c 2 m.defaultPids.1) c 3 m.defaultPids.2
  else m

/-- `vmapple_hvc` read by service number. -/
theorem vmappleHvc_eq (first : ι) (m : Machine ι) (c : ι) :
    vmappleHvc first m c =
      match serviceOf ((m.cores c).xregs 0) with
      | none => (false, m)
      | some n => (true, setReg (served first m c n) c 0 0) := by
  have hfid : (functionId m c).toNat = ((m.cores c).xregs 0).toNat % 2 ^ 32 := by
    simp [functionId]
  unfold vmappleHvc serviceOf
  rw [← hfid]
  generalize functionId m c = fid
  have hrange : vmappleCpuServiceCount ≤ fid - vmappleCpuServiceBase ↔
      ¬ (0xc1000000 ≤ fid.toNat ∧ fid.toNat ≤ 0xc100ffff) := by
    simp only [vmappleCpuServiceCount, vmappleCpuServiceBase]
    bv_omega
  by_cases hin : 0xc1000000 ≤ fid.toNat ∧ fid.toNat ≤ 0xc100ffff
  · have hlow : (fid &&& 0xffff#32).toNat = fid.toNat - 0xc1000000 := by
      have hmask : (fid &&& 0xffff#32).toNat = fid.toNat % 2 ^ 16 := by
        rw [BitVec.toNat_and]
        exact Nat.and_two_pow_sub_one_eq_mod _ 16
      omega
    have hnum (k : BitVec 32) : fid &&& 0xffff#32 = k ↔ fid.toNat - 0xc1000000 = k.toNat := by
      rw [← hlow]
      exact BitVec.toNat_inj.symm
    simp only [if_neg (fun h => (hrange.mp h) hin), if_pos hin, hnum, served]
    rfl
  · simp only [if_pos (hrange.mpr hin), if_neg hin]

/-- SET_INITIAL_STATE leaves the keys of the boot core and of all cores but the
caller, and every register. -/
theorem setInitialState_cores (first : ι) (m : Machine ι) (c d : ι) :
    ((setInitialState first m c).cores d).xregs = (m.cores d).xregs ∧
      (d = first ∨ d ≠ c → (setInitialState first m c).cores d = m.cores d) := by
  unfold setInitialState
  split
  · exact ⟨rfl, fun _ => rfl⟩
  · rename_i hfirst
    split
    · unfold keysInstall setCore
      by_cases hd : d = c
      · subst hd
        refine ⟨by simp, fun h => ?_⟩
        rcases h with h | h
        · exact absurd h hfirst
        · exact absurd rfl h
      · simp [hd]
    · exact ⟨rfl, fun _ => rfl⟩

/-- A service call changes the keys of no core but a secondary that makes it. -/
theorem served_keys (first : ι) (m : Machine ι) (c : ι) (n : Nat) {d : ι}
    (hd : d = first ∨ d ≠ c) : ((served first m c n).cores d).keys = (m.cores d).keys := by
  unfold served
  split
  · rw [(setInitialState_cores first m c d).2 hd]
  · split
    · simp
    · rfl

/-- A service call changes no register, except x2 and x3 on GET_DEFAULT_KEYS. -/
theorem served_xregs (first : ι) (m : Machine ι) (c : ι) (n : Nat) {r : BitVec 5}
    (hr : ¬ (n = serviceDefaultKeys ∧ (r = 2 ∨ r = 3))) :
    ((served first m c n).cores c).xregs r = (m.cores c).xregs r := by
  unfold served
  split
  · rw [(setInitialState_cores first m c c).1]
  · split
    · rename_i hkeys
      have hother : r ≠ 2 ∧ r ≠ 3 := by
        refine ⟨fun h => hr ⟨hkeys, .inl h⟩, fun h => hr ⟨hkeys, .inr h⟩⟩
      rw [setReg_xregs_self, setReg_xregs_self, if_neg hother.2, if_neg hother.1]
    · rfl

/-- The other cores do not notice a service call. -/
theorem served_cores_of_ne (first : ι) (m : Machine ι) {c d : ι} (n : Nat) (hd : d ≠ c) :
    (served first m c n).cores d = m.cores d := by
  unfold served
  split
  · exact (setInitialState_cores first m c d).2 (.inr hd)
  · split
    · rw [setReg_cores_of_ne _ _ _ hd, setReg_cores_of_ne _ _ _ hd]
    · rfl

/-! ## Every event keeps the invariant -/

/-- SET_INITIAL_STATE: the boot core's keys are recorded, or the recorded keys of this
boot are installed. -/
theorem consistent_setInitialState {first : ι} {m m' : Machine ι} {c : ι}
    {log : List (Note ι)} (h : Consistent m log)
    (hboot : m'.bootKeys = (setInitialState first m c).bootKeys)
    (hpids : m'.defaultPids = m.defaultPids)
    (hkeys : (m'.cores c).keys = ((setInitialState first m c).cores c).keys) :
    Consistent m' (log ++ if c = first then [.recorded (m.cores c).keys]
      else [.initialised c (m.cores c).keys (m'.cores c).keys]) := by
  unfold setInitialState at hboot hkeys
  split
  · rename_i hfirst
    rw [if_pos hfirst] at hboot
    refine ⟨?_, by rw [hpids, h.accepted], ?_, everywhere_concat h.lawful trivial⟩
    · simp [lastRecorded, hboot, keysSave]
    · rw [hpids]
      simpa [lastHandedOut] using h.handedOut
  · rename_i hfirst
    rw [if_neg hfirst] at hboot hkeys
    have hsame : m'.bootKeys = m.bootKeys := by
      rw [hboot]
      split <;> rfl
    refine ⟨?_, by rw [hpids, h.accepted], ?_, everywhere_concat h.lawful ?_⟩
    · rw [hsame, ← h.recorded]
      simp [lastRecorded]
    · rw [hpids]
      simpa [lastHandedOut] using h.handedOut
    · rw [Lawful, hkeys, h.recorded]
      split
      · simp [keysInstall, setCore]
      · rfl

theorem consistent_call {first : ι} {m : Machine ι} {log : List (Note ι)} (c : ι)
    (h : Consistent m log) :
    Consistent (next first m (.call c)) (log ++ (step first m (.call c)).2) := by
  have hnext : next first m (.call c) = (vmappleHvc first m c).2 := rfl
  simp only [step, callNotes]
  rw [hnext, vmappleHvc_eq]
  cases serviceOf ((m.cores c).xregs 0) with
  | none =>
    rw [List.append_nil]
    exact h
  | some n =>
    dsimp only
    unfold served
    split
    · have hpids : (setInitialState first m c).defaultPids = m.defaultPids := by
        unfold setInitialState
        repeat' split
        all_goals rfl
      exact consistent_setInitialState h rfl hpids (by simp)
    · split
      · have hanswer : Consistent
            (setReg (setReg (setReg m c 2 m.defaultPids.1) c 3 m.defaultPids.2) c 0 0) _ :=
          consistent_defaultKeys h rfl rfl
        simpa [setReg_xregs_self] using hanswer
      · rw [List.append_nil]
        exact h.congr rfl rfl

/-- A reset starts a boot without recorded keys and with fresh nonzero ids, whatever
was there before. -/
theorem consistent_reset (first : ι) {m : Machine ι} {log : List (Note ι)}
    (cores : ι → Env) {draws : List (BitVec 64 × BitVec 64)}
    (hdraws : draws.any pidsAccepted = true) (h : Everywhere Lawful log) :
    Consistent (next first m (.reset cores draws)) (log ++ [.reset]) := by
  have hfound : (draws.find? pidsAccepted).isSome = true := by
    rw [List.find?_isSome]
    simpa using hdraws
  obtain ⟨pids, hpids⟩ := Option.isSome_iff_exists.mp hfound
  have hnext : next first m (.reset cores draws) =
      { m with
        bootKeys := { m.bootKeys with valid := false }
        defaultPids := pids
        cores := cores } := by
    simp [next, vmappleHvcReset, hpids]
  rw [hnext]
  refine ⟨?_, List.find?_some hpids, ?_, everywhere_concat h trivial⟩
  · simp [lastRecorded]
  · simp [lastHandedOut]

theorem consistent_step {first : ι} {m : Machine ι} {log : List (Note ι)} {e : Event ι}
    (hok : Completes m e) (h : Consistent m log) :
    Consistent (step first m e).1 (log ++ (step first m e).2) := by
  cases e with
  | call c => exact consistent_call c h
  | load c env =>
    simp only [step, List.append_nil]
    exact h.congr rfl rfl
  | store ram =>
    simp only [step, List.append_nil]
    exact h.congr rfl rfl
  | reset cores draws => exact consistent_reset first cores hok h.lawful

/-! ## The hand-out -/

/-- The key hand-out of a run that a reset begins, and what a single call may touch. -/
structure HandsOutKeys (first : ι) (m : Machine ι) (events : List (Event ι)) : Prop where
  /-- a secondary gets the keys of the boot core's latest call in this boot -/
  sameBoot : ∀ before c held after later keys,
    observe (step first) m events = before ++ .initialised c held after :: later →
    lastRecorded before = some keys → after = keys
  /-- before that call it keeps its own: nothing recorded in an earlier boot returns -/
  nothingStale : ∀ before c held after later,
    observe (step first) m events = before ++ .initialised c held after :: later →
    lastRecorded before = none → after = held
  /-- the ids are nonzero and the same for the whole boot -/
  pids : ∀ before pids later,
    observe (step first) m events = before ++ .handedOut pids :: later →
    pids.1 ≠ 0 ∧ pids.2 ≠ 0 ∧ ∀ earlier, lastHandedOut before = some earlier → pids = earlier
  /-- no call changes the keys of the boot core or of a core that did not make it -/
  untouched : ∀ (t : Machine ι) (c d : ι), d = first ∨ d ≠ c →
    ((next first t (.call c)).cores d).keys = (t.cores d).keys
  /-- a service call is handled, returns 0 and changes x2 and x3 at most -/
  handled : ∀ (t : Machine ι) (c : ι) (n : Nat), serviceOf ((t.cores c).xregs 0) = some n →
    (armSmcccDispatch (some (vmappleHvc first)) t c).1 = true ∧
      ((next first t (.call c)).cores c).xregs 0 = 0 ∧
      (∀ r, r ≠ 0 → ¬ (n = serviceDefaultKeys ∧ (r = 2 ∨ r = 3)) →
        ((next first t (.call c)).cores c).xregs r = (t.cores c).xregs r) ∧
      ∀ d, d ≠ c → (next first t (.call c)).cores d = t.cores d
  /-- any other call is left to PSCI as it came -/
  unhandled : ∀ (t : Machine ι) (c : ι), serviceOf ((t.cores c).xregs 0) = none →
    armSmcccDispatch (some (vmappleHvc first)) t c = (false, t) ∧
      ∀ psci, armHandlePsciCall (some (vmappleHvc first)) psci t c =
        psci t c (psciParam (t.cores c))

end Runs

/-- A core that is about to make a call, with all its keys equal. -/
def caller (x0 key : BitVec 64) : Env where
  a64 := true
  xregs := fun r => if r = 0 then x0 else 0
  regs := fun _ => 0
  keys := ⟨⟨key, key⟩, ⟨key, key⟩, ⟨key, key⟩, ⟨key, key⟩, ⟨key, key⟩⟩

/-- A machine with two cores, before its first reset. -/
def twoCores : Machine (Fin 2) where
  cores := fun _ => caller 0 0
  bootKeys := { valid := false, keys := (caller 0 0).keys }
  defaultPids := (0, 0)
  ram := []
  counterHz := 24000000

/-- A boot with a rejected draw, in which both cores make SET_INITIAL_STATE. -/
def bootOfTwo : List (Event (Fin 2)) :=
  [.reset (fun _ => caller 0 0) [(0, 5), (7, 9)],
    .load 0 (caller 0xc1000000 3),
    .call 0,
    .load 1 (caller 0xc1000000 0),
    .call 1]

end Orchard.Hvc
