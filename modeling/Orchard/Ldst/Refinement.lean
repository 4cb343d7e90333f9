/-
  Ldst/Refinement.lean --- when the emulation is the instruction.

  `arm_emulate_ldst` is handed the physical address one element faulted at, finds
  which element that was by its page offset, and computes every other element's
  address by adding to it.  Inside one page that is the translation; across a page
  boundary it is the translation only if the two frames are adjacent.  The
  emulation refines the architectural instruction exactly then
  (`armEmulateLdst_refines_iff`).
-/
import Orchard.Foundation.Table
import Orchard.Ldst.Decode

set_option autoImplicit false

namespace Orchard.Ldst

open Orchard.Foundation

/-! ## The property -/

/-- The values a callback leaves behind for a list of accesses, unless it refuses
one. -/
def answers (access : AccessFn) : List Access → List Access → Option (List (BitVec 64))
  | _, [] => some []
  | done, call :: rest =>
    (access done call).bind fun val =>
      (answers access (done ++ [call]) rest).map (val :: ·)

/-- A load leaves a value that fits the access. -/
def AccessFn.Fits (access : AccessFn) : Prop :=
  ∀ done call val, access done call = some val → call.isWrite = false →
    val.toNat < 2 ^ (call.size * 8)

/-- The outcome of an emulation is the instruction's: on success the accesses are
the instruction's, one for each element, and the registers are its registers after
the data that was loaded; on failure nothing changed. -/
def Refines (i : Inst) (T : Translation) (env : Env) (access : AccessFn) (out : Outcome) :
    Prop :=
  (out.done = true → out.trace = i.accesses T env ∧
    ∃ vals, answers access [] (i.accesses T env) = some vals ∧
      out.env = i.after env (vals.map (·.setWidth (i.kind.bytes * 8)))) ∧
  (out.done = false → out.env = env)

/-- Consecutive elements translate to consecutive addresses. -/
def Contiguous (i : Inst) (T : Translation) (env : Env) : Prop :=
  ∀ n < i.regs.length, T.apply (i.elementAddress env n) =
    T.apply (i.address env) + BitVec.ofNat 64 (n * i.kind.bytes)

instance (i : Inst) (T : Translation) (env : Env) : Decidable (Contiguous i T env) :=
  inferInstanceAs (Decidable (∀ n < _, _))

/-! ## The access loop -/

/-- The calls of the access loop from element `n` on, if none is refused. -/
def calls (env : Env) (op : LdstOp) (pa : BitVec 64) : List (BitVec 5) → Nat → List Access
  | [], _ => []
  | r :: rest, n =>
    { pa := op.element pa n
      val := if op.load then 0 else dataReg env r
      size := op.size
      isWrite := !op.load } :: calls env op pa rest (n + 1)

theorem calls_length (env : Env) (op : LdstOp) (pa : BitVec 64) :
    ∀ (regs : List (BitVec 5)) (n : Nat), (calls env op pa regs n).length = regs.length := by
  intro regs
  induction regs with
  | nil => intro n; rfl
  | cons r rest ih => intro n; simp [calls, ih]

theorem calls_shape (env : Env) (op : LdstOp) (pa : BitVec 64) :
    ∀ (regs : List (BitVec 5)) (n : Nat), ∀ c ∈ calls env op pa regs n,
      c.isWrite = !op.load ∧ c.size = op.size := by
  intro regs
  induction regs with
  | nil => intro n c hc; exact absurd hc (by simp [calls])
  | cons r rest ih =>
    intro n c hc
    rcases List.mem_cons.mp hc with rfl | hc
    · exact ⟨rfl, rfl⟩
    · exact ih _ c hc

/-- The loop makes its calls in order and collects the answers. -/
theorem accessLoop_of_answers (access : AccessFn) (env : Env) (op : LdstOp)
    (pa : BitVec 64) :
    ∀ (regs : List (BitVec 5)) (n : Nat) (done : List Access) {vals : List (BitVec 64)},
      answers access done (calls env op pa regs n) = some vals →
      accessLoop access env op pa regs n done =
        (done ++ calls env op pa regs n, some vals) := by
  intro regs
  induction regs with
  | nil =>
    intro n done vals h
    have hvals : vals = [] := (Option.some.inj h).symm
    simp [accessLoop, calls, hvals]
  | cons r rest ih =>
    intro n done vals h
    rw [calls, answers, Option.bind_eq_some_iff] at h
    obtain ⟨val, hval, hrest⟩ := h
    rw [Option.map_eq_some_iff] at hrest
    obtain ⟨tail, htail, rfl⟩ := hrest
    rw [accessLoop]
    simp only [hval, ih _ _ htail, calls]
    simp

/-- The loop fails exactly when some call is refused. -/
theorem accessLoop_of_refused (access : AccessFn) (env : Env) (op : LdstOp)
    (pa : BitVec 64) :
    ∀ (regs : List (BitVec 5)) (n : Nat) (done : List Access),
      answers access done (calls env op pa regs n) = none →
      (accessLoop access env op pa regs n done).2 = none := by
  intro regs
  induction regs with
  | nil => intro n done h; exact absurd h (by simp [calls, answers])
  | cons r rest ih =>
    intro n done h
    rw [accessLoop]
    rw [calls, answers, Option.bind_eq_none_iff] at h
    split
    · rfl
    · rename_i val hval
      have hrest := h val hval
      rw [Option.map_eq_none_iff] at hrest
      simp only [ih _ _ hrest, Option.map_none]

theorem answers_length (access : AccessFn) :
    ∀ (cs done : List Access) {vals : List (BitVec 64)},
      answers access done cs = some vals → vals.length = cs.length := by
  intro cs
  induction cs with
  | nil =>
    intro done vals h
    rw [← Option.some.inj h]
    rfl
  | cons c rest ih =>
    intro done vals h
    rw [answers, Option.bind_eq_some_iff] at h
    obtain ⟨val, _, hrest⟩ := h
    rw [Option.map_eq_some_iff] at hrest
    obtain ⟨tail, htail, rfl⟩ := hrest
    simp [ih _ htail]

/-- Every answer to a load fits. -/
theorem answers_fit {access : AccessFn} (hfits : access.Fits) {size : Nat} :
    ∀ (cs done : List Access) {vals : List (BitVec 64)},
      (∀ c ∈ cs, c.isWrite = false ∧ c.size = size) →
      answers access done cs = some vals → ∀ v ∈ vals, v.toNat < 2 ^ (size * 8) := by
  intro cs
  induction cs with
  | nil =>
    intro done vals _ h v hv
    rw [← Option.some.inj h] at hv
    exact absurd hv (by simp)
  | cons c rest ih =>
    intro done vals hcs h v hv
    rw [answers, Option.bind_eq_some_iff] at h
    obtain ⟨val, hval, hrest⟩ := h
    rw [Option.map_eq_some_iff] at hrest
    obtain ⟨tail, htail, rfl⟩ := hrest
    obtain ⟨hread, hsize⟩ := hcs c List.mem_cons_self
    rcases List.mem_cons.mp hv with rfl | hv
    · rw [← hsize]
      exact hfits _ _ _ hval hread
    · exact ih _ (fun c hc => hcs c (List.mem_cons_of_mem _ hc)) htail v hv

theorem answers_of_accepting :
    ∀ cs done : List Access, ∃ vals, answers (fun _ _ => some 0#64) done cs = some vals := by
  intro cs
  induction cs with
  | nil => intro done; exact ⟨[], rfl⟩
  | cons c rest ih =>
    intro done
    obtain ⟨tail, htail⟩ := ih (done ++ [c])
    exact ⟨0#64 :: tail, by simp [answers, htail]⟩

/-! ## The address of element 0 -/

theorem Kind.bytes_cases (k : Kind) : k.bytes = 1 ∨ k.bytes = 2 ∨ k.bytes = 4 ∨ k.bytes = 8 := by
  cases k <;> decide

theorem sameOffset_iff (a b : BitVec 64) :
    (a ^^^ b) &&& 0xfff#64 = 0#64 ↔ a.extractLsb' 0 12 = b.extractLsb' 0 12 := by
  rw [and_eq_iff_fields [(0, 12)] (by decide) (by decide) (by decide)]
  simp only [List.mem_singleton, forall_eq, BitVec.extractLsb'_xor]
  exact BitVec.xor_eq_zero_iff

/-- Translation keeps the page offset. -/
theorem Translation.apply_offset (T : Translation) (va : BitVec 64) :
    (T.apply va).extractLsb' 0 12 = va.extractLsb' 0 12 :=
  BitVec.extractLsb'_append_eq_right

/-- Neighbouring elements have different page offsets. -/
theorem offset_ne_next (va : BitVec 64) (k : Kind) :
    va.extractLsb' 0 12 ≠ (va + BitVec.ofNat 64 k.bytes).extractLsb' 0 12 := by
  intro h
  have hnat := congrArg BitVec.toNat h
  simp only [BitVec.extractLsb'_toNat, Nat.shiftRight_zero, BitVec.toNat_add,
    BitVec.toNat_ofNat] at hnat
  rcases k.bytes_cases with hb | hb | hb | hb <;> rw [hb] at hnat <;> omega

theorem Inst.va_op (i : Inst) (env : Env) : i.op.va env = i.address env := by
  unfold LdstOp.va Inst.address Inst.op
  cases i.index with
  | offset => rfl
  | pre => rfl
  | post => rfl

theorem Inst.element_op (i : Inst) (addr : BitVec 64) (n : Nat) :
    i.op.element addr n = addr + BitVec.ofNat 64 (n * i.kind.bytes) := rfl

/-- The search finds the element that faulted. -/
theorem firstElementPa_of_fault (i : Inst) (T : Translation) (env : Env) {k : Nat}
    (hk : k < i.regs.length) :
    firstElementPa i.op (i.op.va env) (T.apply (i.elementAddress env k)) =
      some (T.apply (i.elementAddress env k) - BitVec.ofNat 64 (k * i.kind.bytes)) := by
  have hsize : i.op.size = i.kind.bytes := rfl
  -- the faulting element itself always matches
  have hmatch : (i.op.element (i.address env) k ^^^ T.apply (i.elementAddress env k)) &&&
      0xfff#64 = 0#64 := by
    rw [sameOffset_iff, T.apply_offset]
    rfl
  rw [i.va_op]
  unfold firstElementPa
  rw [show i.op.nregs = i.regs.length from rfl]
  match hlen : i.regs.length, k, hk with
  | 0, _, hk => omega
  | left + 1, 0, _ =>
    rw [firstElementPaFrom, if_neg (not_not.mpr hmatch), hsize]
  | left + 2, 1, _ =>
    have hmiss : ¬ (i.op.element (i.address env) 0 ^^^
        T.apply (i.elementAddress env 1)) &&& 0xfff#64 = 0#64 := by
      rw [sameOffset_iff, T.apply_offset]
      have hne := offset_ne_next (i.address env) i.kind
      simpa [Inst.element_op, Inst.elementAddress] using hne
    rw [firstElementPaFrom, if_pos hmiss, firstElementPaFrom,
      if_neg (not_not.mpr hmatch), hsize]
  | left + 3, k + 2, _ =>
    exfalso
    unfold Inst.regs at hlen
    cases hrt2 : i.rt2 with
    | none => rw [hrt2] at hlen; simp at hlen
    | some r => rw [hrt2] at hlen; simp at hlen

/-! ## The accesses -/

theorem Inst.regs_op (i : Inst) : i.op.regs = i.regs :=
  List.take_length

/-- The calls of the loop are the accesses of the instruction exactly when every
element's address is its translation. -/
theorem calls_eq_accesses_iff (i : Inst) (T : Translation) (env : Env) (pa : BitVec 64) :
    calls env i.op pa i.regs 0 = i.accesses T env ↔
      ∀ n < i.regs.length, i.op.element pa n = T.apply (i.elementAddress env n) := by
  unfold Inst.accesses Inst.regs
  cases i.rt2 with
  | none =>
    simp only [Option.toList_none, calls, List.mapIdx_cons, List.mapIdx_nil,
      List.cons.injEq, and_true, Access.mk.injEq, List.length_cons, List.length_nil]
    constructor
    · rintro ⟨hpa, _⟩ n hn
      obtain rfl : n = 0 := by omega
      exact hpa
    · intro h
      exact ⟨h 0 (by omega), rfl, rfl, rfl⟩
  | some r =>
    simp only [Option.toList_some, calls, List.mapIdx_cons, List.mapIdx_nil,
      List.cons.injEq, and_true, Access.mk.injEq, List.length_cons, List.length_nil]
    constructor
    · rintro ⟨⟨hpa₀, _⟩, hpa₁, _⟩ n hn
      obtain rfl | rfl : n = 0 ∨ n = 1 := by omega
      · exact hpa₀
      · exact hpa₁
    · intro h
      exact ⟨⟨h 0 (by omega), rfl, rfl, rfl⟩, h 1 (by omega), rfl, rfl, rfl⟩

/-- What the emulation computes from any element's fault address is right for all
of them exactly when the elements translate contiguously. -/
theorem elements_iff_contiguous (i : Inst) (T : Translation) (env : Env) {k : Nat}
    (hk : k < i.regs.length) :
    (∀ n < i.regs.length, i.op.element
      (T.apply (i.elementAddress env k) - BitVec.ofNat 64 (k * i.kind.bytes)) n =
        T.apply (i.elementAddress env n)) ↔ Contiguous i T env := by
  have hzero : i.elementAddress env 0 = i.address env := by
    simp [Inst.elementAddress]
  simp only [Inst.element_op]
  constructor
  · intro h n hn
    have h0 := h 0 (by omega)
    rw [hzero] at h0
    rw [← h n hn, ← h0]
    simp
  · intro h n hn
    rw [h k hk, h n hn, BitVec.add_sub_cancel]

/-! ## The registers -/

theorem Kind.regWidth_cases (k : Kind) :
    (k.regWidth = 64 ∧ k.bytes * 8 ≤ 64) ∨ (k.regWidth = 32 ∧ k.bytes * 8 ≤ 32) := by
  cases k <;> decide

/-- `extend` is the architecture's extension, for a value that fits the access. -/
theorem extend_eq_loaded (i : Inst) {val : BitVec 64}
    (hfits : val.toNat < 2 ^ (i.kind.bytes * 8)) :
    extend i.op val = i.kind.loaded (val.setWidth (i.kind.bytes * 8)) := by
  have hbytes : 0 < i.kind.bytes * 8 ∧ i.kind.bytes * 8 ≤ 64 := by
    rcases i.kind.bytes_cases with hb | hb | hb | hb <;> rw [hb] <;> decide
  have hself : (val.setWidth (i.kind.bytes * 8)).setWidth 64 = val := by
    apply BitVec.eq_of_toNat_eq
    rw [BitVec.toNat_setWidth, BitVec.toNat_setWidth, Nat.mod_eq_of_lt hfits]
    exact Nat.mod_eq_of_lt val.isLt
  have hsext : sextract val 0 (i.kind.bytes * 8) =
      (val.setWidth (i.kind.bytes * 8)).signExtend 64 := by
    rw [sextract_eq_signExtend val hbytes.1 (by omega),
      BitVec.setWidth_eq_extractLsb' hbytes.2]
  unfold extend Kind.loaded Inst.op
  simp only [hsext]
  rcases i.kind.regWidth_cases with ⟨hw, hle⟩ | ⟨hw, hle⟩
  · rw [hw]
    cases i.kind.signed with
    | true => simp
    | false => simp [hself]
  · rw [hw]
    cases i.kind.signed with
    | true => simp [setWidth_signExtend]
    | false =>
      have hlow : val.setWidth 32 = (val.setWidth (i.kind.bytes * 8)).setWidth 32 := by
        apply BitVec.eq_of_toNat_eq
        rw [BitVec.toNat_setWidth, BitVec.toNat_setWidth, BitVec.toNat_setWidth,
          Nat.mod_eq_of_lt hfits]
      simp [hlow]

theorem setLoaded_pc (op : LdstOp) :
    ∀ (loaded : List (BitVec 5 × BitVec 64)) (env : Env),
      (setLoaded op env loaded).pc = env.pc := by
  intro loaded
  induction loaded with
  | nil => intro env; rfl
  | cons entry rest ih =>
    intro env
    have hrest := ih (setDataReg env entry.1 (extend op entry.2))
    have hpc : (setDataReg env entry.1 (extend op entry.2)).pc = env.pc := by
      unfold setDataReg
      split <;> rfl
    exact hrest.trans hpc

/-- The registers after a load into distinct registers. -/
theorem setLoaded_xregs (op : LdstOp) (r : BitVec 5) :
    ∀ (loaded : List (BitVec 5 × BitVec 64)) (env : Env), (loaded.map Prod.fst).Nodup →
      (setLoaded op env loaded).xregs r =
        if r ≠ 31#5 then ((loaded.lookup r).map (extend op)).getD (env.xregs r)
        else env.xregs r := by
  intro loaded
  induction loaded with
  | nil => intro env _; simp [setLoaded]
  | cons entry rest ih =>
    intro env hnodup
    rcases entry with ⟨q, val⟩
    rw [List.map_cons, List.nodup_cons] at hnodup
    obtain ⟨hfresh, hnodup⟩ := hnodup
    have hrest := ih (setDataReg env q (extend op val)) hnodup
    have hunfold : setLoaded op env ((q, val) :: rest) =
        setLoaded op (setDataReg env q (extend op val)) rest := rfl
    rw [hunfold, hrest]
    by_cases hzero : r = 31#5
    · subst hzero
      unfold setDataReg
      by_cases hq : q = 31#5
      · simp [hq]
      · simp [hq, Env.setReg, Ne.symm hq]
    · rw [List.lookup_cons]
      by_cases hrq : r = q
      · subst hrq
        -- no later entry sets the same register
        have hnone : rest.lookup r = none := by
          rw [List.lookup_eq_none_iff]
          intro e he
          rw [bne_iff_ne]
          intro heq
          apply hfresh
          rw [show (r, val).1 = e.1 from heq]
          exact List.mem_map_of_mem he
        simp [hzero, hnone, setDataReg, Env.setReg]
      · have hbeq : (r == q) = false := beq_eq_false_iff_ne.mpr hrq
        have hsame : (setDataReg env q (extend op val)).xregs r = env.xregs r := by
          unfold setDataReg Env.setReg
          split
          · simp [hrq]
          · rfl
        simp only [hbeq, hsame]

theorem Inst.regs_nodup {i : Inst} (hpredictable : i.Predictable)
    (hload : i.kind.isLoad = true) : i.regs.Nodup := by
  have hne := hpredictable.2 hload
  unfold Inst.regs
  cases hrt2 : i.rt2 with
  | none => simp
  | some r =>
    rw [hrt2] at hne
    have hdiff : i.rt ≠ r := fun h => hne (by rw [h])
    simp [hdiff]

/-- The registers a load leaves before the writeback. -/
theorem loaded_xregs (i : Inst) (env : Env) (hpredictable : i.Predictable)
    {vals : List (BitVec 64)} (hlength : vals.length = i.regs.length)
    (hfits : i.kind.isLoad = true → ∀ v ∈ vals, v.toNat < 2 ^ (i.kind.bytes * 8)) (r : BitVec 5) :
    (if i.op.load then setLoaded i.op env (i.regs.zip vals) else env).xregs r =
      if i.kind.isLoad = true ∧ r ≠ 31#5 then
        (((i.regs.zip (vals.map (·.setWidth (i.kind.bytes * 8)))).lookup r).map
          i.kind.loaded).getD (env.xregs r)
      else env.xregs r := by
  rw [show i.op.load = i.kind.isLoad from rfl]
  cases hload : i.kind.isLoad with
  | false => simp
  | true =>
    have hkeys : ((i.regs.zip vals).map Prod.fst).Nodup := by
      rw [List.map_fst_zip (by omega)]
      exact i.regs_nodup hpredictable hload
    have hzip : i.regs.zip (vals.map (·.setWidth (i.kind.bytes * 8))) =
        mapValues (·.setWidth (i.kind.bytes * 8)) (i.regs.zip vals) := by
      rw [List.zip_map_right]
      rfl
    rw [if_pos rfl, setLoaded_xregs i.op r _ env hkeys, hzip, lookup_mapValues]
    by_cases hzero : r = 31#5
    · simp [hzero]
    · cases hval : (i.regs.zip vals).lookup r with
      | none => simp [hzero]
      | some v =>
        have hmem : v ∈ vals := (List.of_mem_zip (mem_of_lookup hval)).2
        simp [hzero, extend_eq_loaded i (hfits hload v hmem)]

/-- The registers at the end of a successful emulation are the instruction's. -/
theorem finish_eq_after (i : Inst) (env : Env) (hpredictable : i.Predictable)
    {vals : List (BitVec 64)} (hlength : vals.length = i.regs.length)
    (hfits : i.kind.isLoad = true → ∀ v ∈ vals, v.toNat < 2 ^ (i.kind.bytes * 8)) :
    (let loaded := if i.op.load then setLoaded i.op env (i.op.regs.zip vals) else env
     let written := if i.op.mode ≠ .offset then
       loaded.setReg i.op.rn (env.xregs i.op.rn + i.op.offset) else loaded
     ({ written with pc := written.pc + 4 } : Env)) =
      i.after env (vals.map (·.setWidth (i.kind.bytes * 8))) := by
  rw [i.regs_op]
  have hloaded := loaded_xregs i env hpredictable hlength hfits
  have hpc : (if i.op.load then setLoaded i.op env (i.regs.zip vals) else env).pc = env.pc := by
    split
    · exact setLoaded_pc _ _ _
    · rfl
  generalize (if i.op.load then setLoaded i.op env (i.regs.zip vals) else env) = loaded
    at hloaded hpc ⊢
  unfold Inst.after
  simp only [show i.op.mode = i.index from rfl, show i.op.rn = i.rn from rfl,
    show i.op.offset = i.offset from rfl]
  rw [Env.mk.injEq]
  refine ⟨?_, ?_⟩
  · funext r
    by_cases hmode : i.index = .offset
    · have hkeep : ¬ (i.index ≠ .offset ∧ r = i.rn) := fun h => h.1 hmode
      rw [if_neg (not_not.mpr hmode), hloaded r, if_neg hkeep]
    · rw [if_pos hmode]
      by_cases hrn : r = i.rn
      · rw [if_pos ⟨hmode, hrn⟩, hrn]
        simp [Env.setReg]
      · have hkeep : ¬ (i.index ≠ .offset ∧ r = i.rn) := fun h => hrn h.2
        rw [if_neg hkeep, ← hloaded r]
        simp [Env.setReg, hrn]
  · split
    · exact congrArg (· + 4) hpc
    · rw [hpc]

/-! ## The emulation -/

section Emulation

variable {insn : BitVec 32} {i : Inst} (hinst : instruction insn = some i)
  (T : Translation) (env : Env) {k : Nat} (hk : k < i.regs.length) (access : AccessFn)

/-- The physical address the emulation takes for element 0. -/
def Inst.foundPa (i : Inst) (T : Translation) (env : Env) (k : Nat) : BitVec 64 :=
  T.apply (i.elementAddress env k) - BitVec.ofNat 64 (k * i.kind.bytes)

include hinst hk

theorem armEmulateLdst_of_refused
    (h : answers access [] (calls env i.op (i.foundPa T env k) i.regs 0) = none) :
    (armEmulateLdst env insn (T.apply (i.elementAddress env k)) access).done = false ∧
      (armEmulateLdst env insn (T.apply (i.elementAddress env k)) access).env = env := by
  have hloop := accessLoop_of_refused access env i.op (i.foundPa T env k) i.regs 0 [] h
  have hdecode : decode insn = some i.op := by
    rw [decode_eq_instruction, hinst]
    rfl
  have hfound : firstElementPa i.op (i.op.va env) (T.apply (i.elementAddress env k)) =
      some (i.foundPa T env k) := firstElementPa_of_fault i T env hk
  unfold armEmulateLdst
  simp only [hdecode, hfound]
  have haccess : (doAccess env i.op (i.foundPa T env k) access).done = false ∧
      (doAccess env i.op (i.foundPa T env k) access).env = env := by
    unfold doAccess
    rw [i.regs_op]
    rcases hpair : accessLoop access env i.op (i.foundPa T env k) i.regs 0 [] with
      ⟨trace, vals⟩
    rw [hpair] at hloop
    subst hloop
    exact ⟨rfl, rfl⟩
  rw [if_pos haccess.1]
  exact haccess

theorem armEmulateLdst_of_answers (hpredictable : i.Predictable) (hfits : access.Fits)
    {vals : List (BitVec 64)}
    (h : answers access [] (calls env i.op (i.foundPa T env k) i.regs 0) = some vals) :
    armEmulateLdst env insn (T.apply (i.elementAddress env k)) access =
      { done := true
        env := i.after env (vals.map (·.setWidth (i.kind.bytes * 8)))
        trace := calls env i.op (i.foundPa T env k) i.regs 0 } := by
  have hloop := accessLoop_of_answers access env i.op (i.foundPa T env k) i.regs 0 [] h
  have hdecode : decode insn = some i.op := by
    rw [decode_eq_instruction, hinst]
    rfl
  have hfound : firstElementPa i.op (i.op.va env) (T.apply (i.elementAddress env k)) =
      some (i.foundPa T env k) := firstElementPa_of_fault i T env hk
  have hlength : vals.length = i.regs.length := by
    rw [answers_length access _ _ h, calls_length]
  have hvals : i.kind.isLoad = true → ∀ v ∈ vals, v.toNat < 2 ^ (i.kind.bytes * 8) := by
    intro hload
    refine answers_fit hfits _ _ ?_ h
    intro c hc
    obtain ⟨hwrite, hsize⟩ := calls_shape env i.op _ _ _ c hc
    exact ⟨by rw [hwrite, show i.op.load = true from hload]; rfl, hsize⟩
  have haccess : doAccess env i.op (i.foundPa T env k) access =
      { done := true
        env := if i.op.load then setLoaded i.op env (i.op.regs.zip vals) else env
        trace := calls env i.op (i.foundPa T env k) i.regs 0 } := by
    unfold doAccess
    rw [i.regs_op, hloop]
    rfl
  unfold armEmulateLdst
  simp only [hdecode, hfound, haccess]
  rw [if_neg (by simp), Outcome.mk.injEq]
  exact ⟨rfl, finish_eq_after i env hpredictable hlength hvals, rfl⟩

end Emulation

theorem refines_iff_of_instruction {insn : BitVec 32} {i : Inst}
    (hinst : instruction insn = some i) (hpredictable : i.Predictable) (T : Translation)
    (env : Env) {k : Nat} (hk : k < i.regs.length) :
    (∀ access : AccessFn, access.Fits → Refines i T env access
      (armEmulateLdst env insn (T.apply (i.elementAddress env k)) access)) ↔
      Contiguous i T env := by
  have hiff := (calls_eq_accesses_iff i T env (i.foundPa T env k)).trans
    (elements_iff_contiguous i T env hk)
  rw [← hiff]
  constructor
  · intro h
    -- a callback that accepts everything makes the calls visible
    have hfits : AccessFn.Fits fun _ _ => some 0#64 := by
      intro done call val hval _
      rw [← Option.some.inj hval]
      exact Nat.two_pow_pos _
    obtain ⟨vals, hvals⟩ := answers_of_accepting (calls env i.op (i.foundPa T env k) i.regs 0) []
    have hout := armEmulateLdst_of_answers hinst T env hk _ hpredictable hfits hvals
    have htrace := ((h _ hfits).1 (by rw [hout])).1
    rw [hout] at htrace
    exact htrace
  · intro hcalls access hfits
    cases hanswers : answers access [] (calls env i.op (i.foundPa T env k) i.regs 0) with
    | none =>
      obtain ⟨hdone, henv⟩ := armEmulateLdst_of_refused hinst T env hk access hanswers
      exact ⟨fun hsuccess => absurd (hdone.symm.trans hsuccess) (by simp), fun _ => henv⟩
    | some vals =>
      rw [armEmulateLdst_of_answers hinst T env hk access hpredictable hfits hanswers]
      rw [hcalls] at hanswers ⊢
      exact ⟨fun _ => ⟨rfl, vals, hanswers, rfl⟩, fun hfail => absurd hfail (by simp)⟩

/-- **Refinement.**  Every word the emulation decodes is an instruction, and outside
the constrained unpredictable forms, for every register file, translation and
faulting element: the emulation behaves as the instruction with every callback
exactly when the elements translate to consecutive addresses. -/
theorem armEmulateLdst_refines_iff (insn : BitVec 32) (op : LdstOp)
    (hop : decode insn = some op) :
    ∃ i, instruction insn = some i ∧ (i.Predictable →
      ∀ (T : Translation) (env : Env) (k : Nat), k < op.nregs →
        ((∀ access : AccessFn, access.Fits → Refines i T env access
          (armEmulateLdst env insn (T.apply (op.element (op.va env) k)) access)) ↔
          Contiguous i T env)) := by
  rw [decode_eq_instruction, Option.map_eq_some_iff] at hop
  obtain ⟨i, hinst, rfl⟩ := hop
  refine ⟨i, hinst, ?_⟩
  intro hpredictable T env k hk
  rw [i.va_op]
  exact refines_iff_of_instruction hinst hpredictable T env hk

/-! ## Instances -/

/-- `ldp x0, x1, [x2]`. -/
def ldpInsn : BitVec 32 := 0xa9400440#32

def ldpInst : Inst :=
  { kind := .ldpX, rt := 0, rt2 := some 1, rn := 2, offset := 0, index := .offset }

/-- The first element ends at a page boundary. -/
def boundaryEnv : Env := { xregs := fun _ => 0xff8#64, pc := 0x40000000#64 }

/-- A callback that accepts everything and loads 0. -/
def accepting : AccessFn := fun _ _ => some 0#64

theorem accepting_fits : accepting.Fits := by
  intro done call val hval _
  rw [← Option.some.inj hval]
  exact Nat.two_pow_pos _

/-- Adjacent pages mapped to adjacent frames. -/
def adjacentFrames : Translation := { frame := fun page => page + 0x10#52 }

theorem ldp_adjacent_refines :
    decode ldpInsn = some ldpInst.op ∧ ldpInst.Predictable ∧ accepting.Fits ∧
      Refines ldpInst adjacentFrames boundaryEnv accepting
        (armEmulateLdst boundaryEnv ldpInsn
          (adjacentFrames.apply (ldpInst.op.element (ldpInst.op.va boundaryEnv) 1))
          accepting) := by
  obtain ⟨i, hinst, hiff⟩ := armEmulateLdst_refines_iff ldpInsn ldpInst.op (by decide)
  have hi : i = ldpInst := Option.some.inj (hinst.symm.trans (by decide))
  subst hi
  have hrefines := (hiff (by decide) adjacentFrames boundaryEnv 1 (by decide)).mpr (by decide)
  exact ⟨by decide, by decide, accepting_fits, hrefines accepting accepting_fits⟩

/-- Adjacent pages mapped to frames apart. -/
def splitFrames : Translation :=
  { frame := fun page => if page = 0#52 then 0x10#52 else 0x50#52 }

/-- The emulation is not the instruction there: the second element faulted at
`0x50000`, and the emulation loads the first from `0x4fff8` instead of
`0x10ff8`. -/
theorem ldp_split_not_refined :
    decode ldpInsn = some ldpInst.op ∧ instruction ldpInsn = some ldpInst ∧
      ldpInst.Predictable ∧ accepting.Fits ∧
      ¬ Refines ldpInst splitFrames boundaryEnv accepting
        (armEmulateLdst boundaryEnv ldpInsn
          (splitFrames.apply (ldpInst.op.element (ldpInst.op.va boundaryEnv) 1))
          accepting) := by
  refine ⟨by decide, by decide, by decide, accepting_fits, ?_⟩
  intro hrefines
  obtain ⟨htrace, _⟩ := hrefines.1 (by decide)
  exact absurd htrace (by decide)

end Orchard.Ldst
