/-
  Vgic/Access.lean --- accesses to the in-kernel GIC that KVM hands back.

  A load or store KVM could not decode may have hit the interrupt controller, whose
  registers live in the kernel.  `kvm_arm_gicv3_mmio` finds the frame the address lies
  in and goes through the device-attribute interface, a 32-bit register at a time;
  where it declines, `kvm_arm_ldst_access` performs the access on QEMU's own memory.

  How the kernel answers each ioctl is up to the kernel (`Kernel`).  Kicking the other
  vCPUs between the tries, which is what makes the kernel answer at all, changes no
  state that is modelled.
-/
import Orchard.Foundation.BitField

set_option autoImplicit false

namespace Orchard.Vgic

open Orchard.Foundation

/-! ## The device -/

/-- Whose registers: `cpu` is -1 for the distributor. -/
inductive Target where
  | dist
  | redist (cpu : Nat)
  deriving DecidableEq, Repr

/-- `GICv3RedistRegion`: the CPUs it covers, and where it is mapped, if it is. -/
structure RedistRegion where
  cpuidx : Nat
  count : Nat
  addr : Option (BitVec 64)
  deriving DecidableEq, Repr

/-- `GICv3State`, as far as an address is routed by it. -/
structure Gic where
  distAddr : Option (BitVec 64)
  regions : List RedistRegion
  numCpu : Nat
  /-- `GICR_TYPER.VLPIS` of the first CPU -/
  vlpis : Bool

/-- The size of `gicv3_dist`. -/
def distSize : Nat := 0x10000

/-- `gicv3_redist_size`. -/
def redistSize (gic : Gic) : Nat := if gic.vlpis then 0x40000 else 0x20000

/-- The size `gicv3_init_irqs_and_mmio` gives a region: a product of 32-bit numbers. -/
def regionSize (gic : Gic) (r : RedistRegion) : Nat := r.count * redistSize gic % 2 ^ 32

/-- The regions `gicv3_init_irqs_and_mmio` makes of `redist_region_count`, with the
addresses the board maps them at. -/
def initRegions : Nat → List (Nat × Option (BitVec 64)) → List RedistRegion
  | _, [] => []
  | cpuidx, (count, addr) :: rest =>
    { cpuidx := cpuidx, count := count, addr := addr } :: initRegions (cpuidx + count) rest

/-- The offset into a mapped region: `pa - mr->addr < memory_region_size(mr)`. -/
def offsetIn (addr : Option (BitVec 64)) (size : Nat) (pa : BitVec 64) : Option Nat :=
  match addr with
  | none => none
  | some addr => if (pa - addr).toNat < size then some (pa - addr).toNat else none

/-- The loop of `kvm_gicv3_find` over the redistributor regions. -/
def findRedist (gic : Gic) (pa : BitVec 64) : List RedistRegion → Option (Target × Nat)
  | [] => none
  | r :: rest =>
    match offsetIn r.addr (regionSize gic r) pa with
    | none => findRedist gic pa rest
    | some off =>
      let cpu := r.cpuidx + off / redistSize gic
      if cpu < gic.numCpu then some (.redist cpu, off % redistSize gic) else none

/-- `kvm_gicv3_find`. -/
def find (gic : Gic) (pa : BitVec 64) : Option (Target × Nat) :=
  match offsetIn gic.distAddr distSize pa with
  | some off => some (.dist, off)
  | none => findRedist gic pa gic.regions

/-- The address lies `off` bytes into the mapping. -/
def Inside (addr : Option (BitVec 64)) (size : Nat) (pa : BitVec 64) (off : Nat) : Prop :=
  ∃ a, addr = some a ∧ (pa - a).toNat = off ∧ off < size

/-- `r` is the first region the address lies in, `off` bytes into it. -/
def FirstInside (gic : Gic) (pa : BitVec 64) (regions : List RedistRegion) (r : RedistRegion)
    (off : Nat) : Prop :=
  ∃ before after, regions = before ++ r :: after ∧
    (∀ q ∈ before, ∀ o, ¬Inside q.addr (regionSize gic q) pa o) ∧
    Inside r.addr (regionSize gic r) pa off

/-- The address lies in the distributor, or in a redistributor of a CPU there is. -/
def InGic (gic : Gic) (pa : BitVec 64) : Prop :=
  (∃ off, Inside gic.distAddr distSize pa off) ∨
    ∃ r off, FirstInside gic pa gic.regions r off ∧ r.cpuidx + off / redistSize gic < gic.numCpu

theorem offsetIn_eq_some_iff {addr : Option (BitVec 64)} {size : Nat} {pa : BitVec 64}
    {off : Nat} : offsetIn addr size pa = some off ↔ Inside addr size pa off := by
  cases addr with
  | none => simp [offsetIn, Inside]
  | some a =>
    simp only [offsetIn, Inside, Option.some.injEq, exists_eq_left']
    split
    · constructor
      · rintro ⟨⟩
        exact ⟨rfl, by assumption⟩
      · rintro ⟨rfl, -⟩
        rfl
    · refine iff_of_false nofun ?_
      rintro ⟨rfl, hlt⟩
      contradiction

theorem offsetIn_eq_none_iff {addr : Option (BitVec 64)} {size : Nat} {pa : BitVec 64} :
    offsetIn addr size pa = none ↔ ∀ off, ¬Inside addr size pa off := by
  rw [Option.eq_none_iff_forall_ne_some]
  exact forall_congr' fun off => not_congr offsetIn_eq_some_iff

/-- Two offsets into one mapping are one. -/
theorem Inside.unique {addr : Option (BitVec 64)} {size : Nat} {pa : BitVec 64} {o o' : Nat}
    (h : Inside addr size pa o) (h' : Inside addr size pa o') : o = o' := by
  obtain ⟨a, rfl, rfl, -⟩ := h
  obtain ⟨a', ha, rfl, -⟩ := h'
  rw [Option.some.inj ha]

theorem firstInside_cons {gic : Gic} {pa : BitVec 64} {q : RedistRegion}
    {rest : List RedistRegion} {r : RedistRegion} {off : Nat} :
    FirstInside gic pa (q :: rest) r off ↔
      (q = r ∧ Inside r.addr (regionSize gic r) pa off) ∨
        ((∀ o, ¬Inside q.addr (regionSize gic q) pa o) ∧ FirstInside gic pa rest r off) := by
  constructor
  · rintro ⟨before, after, heq, hnot, hin⟩
    cases before with
    | nil =>
      obtain ⟨rfl, -⟩ := List.cons.inj heq
      exact .inl ⟨rfl, hin⟩
    | cons b before =>
      obtain ⟨rfl, hrest⟩ := List.cons.inj heq
      exact .inr ⟨hnot q List.mem_cons_self,
        before, after, hrest, fun p hp => hnot p (List.mem_cons_of_mem _ hp), hin⟩
  · rintro (⟨rfl, hin⟩ | ⟨hnot, before, after, rfl, hbefore, hin⟩)
    · exact ⟨[], rest, rfl, by simp, hin⟩
    · exact ⟨q :: before, after, rfl, List.forall_mem_cons.2 ⟨hnot, hbefore⟩, hin⟩

/-- The loop over the regions stops at the first one the address lies in. -/
theorem findRedist_eq_some_iff {gic : Gic} {pa : BitVec 64} {target : Target} {offset : Nat}
    (regions : List RedistRegion) :
    findRedist gic pa regions = some (target, offset) ↔
      ∃ r off, FirstInside gic pa regions r off ∧
        r.cpuidx + off / redistSize gic < gic.numCpu ∧
        target = .redist (r.cpuidx + off / redistSize gic) ∧ offset = off % redistSize gic := by
  induction regions with
  | nil =>
    refine iff_of_false nofun ?_
    rintro ⟨r, off, ⟨before, after, heq, -⟩, -⟩
    simp at heq
  | cons q rest ih =>
    rw [findRedist]
    cases hoff : offsetIn q.addr (regionSize gic q) pa with
    | none =>
      have hnot := offsetIn_eq_none_iff.1 hoff
      simp only [ih, firstInside_cons]
      refine exists_congr fun r => exists_congr fun off => and_congr_left fun _ => ?_
      refine ⟨fun h => .inr ⟨hnot, h⟩, ?_⟩
      rintro (⟨rfl, hin⟩ | ⟨-, h⟩)
      · exact absurd hin (hnot off)
      · exact h
    | some o =>
      have hin := offsetIn_eq_some_iff.1 hoff
      dsimp only
      constructor
      · intro h
        split at h
        · next hcpu =>
          cases h
          exact ⟨q, o, firstInside_cons.2 (.inl ⟨rfl, hin⟩), hcpu, rfl, rfl⟩
        · cases h
      · rintro ⟨r, off, hfirst, hcpu, rfl, rfl⟩
        rcases firstInside_cons.1 hfirst with ⟨rfl, hr⟩ | ⟨hnot, -⟩
        · obtain rfl := hin.unique hr
          rw [if_pos hcpu]
        · exact absurd hin (hnot o)

/-- What `kvm_gicv3_find` answers. -/
theorem find_eq_some_iff {gic : Gic} {pa : BitVec 64} {target : Target} {offset : Nat} :
    find gic pa = some (target, offset) ↔
      (Inside gic.distAddr distSize pa offset ∧ target = .dist) ∨
      ((∀ o, ¬Inside gic.distAddr distSize pa o) ∧
        ∃ r off, FirstInside gic pa gic.regions r off ∧
          r.cpuidx + off / redistSize gic < gic.numCpu ∧
          target = .redist (r.cpuidx + off / redistSize gic) ∧
          offset = off % redistSize gic) := by
  rw [find]
  cases hoff : offsetIn gic.distAddr distSize pa with
  | none =>
    have hnot := offsetIn_eq_none_iff.1 hoff
    dsimp only
    rw [findRedist_eq_some_iff]
    refine ⟨fun h => .inr ⟨hnot, h⟩, ?_⟩
    rintro (⟨hin, -⟩ | ⟨-, h⟩)
    · exact absurd hin (hnot offset)
    · exact h
  | some o =>
    have hin := offsetIn_eq_some_iff.1 hoff
    dsimp only
    constructor
    · rintro ⟨⟩
      exact .inl ⟨hin, rfl⟩
    · rintro (⟨hin', rfl⟩ | ⟨hnot, -⟩)
      · rw [hin.unique hin']
      · exact absurd hin (hnot o)

/-- It finds a frame for the addresses of the GIC. -/
theorem exists_find_iff {gic : Gic} {pa : BitVec 64} :
    (∃ target offset, find gic pa = some (target, offset)) ↔ InGic gic pa := by
  simp only [find_eq_some_iff, InGic]
  constructor
  · rintro ⟨target, offset, ⟨hin, -⟩ | ⟨-, r, off, hfirst, hcpu, -⟩⟩
    · exact .inl ⟨offset, hin⟩
    · exact .inr ⟨r, off, hfirst, hcpu⟩
  · intro h
    by_cases hdist : ∃ off, Inside gic.distAddr distSize pa off
    · obtain ⟨off, hin⟩ := hdist
      exact ⟨.dist, off, .inl ⟨hin, rfl⟩⟩
    · obtain ⟨r, off, hfirst, hcpu⟩ := h.resolve_left hdist
      exact ⟨_, _, .inr ⟨not_exists.1 hdist, r, off, hfirst, hcpu, rfl, rfl⟩⟩

/-! ## Register accesses -/

/-- What `kvm_device_ioctl` answers: 0, -EBUSY, or another error. -/
inductive IoctlResult where
  | ok
  | busy
  | failed
  deriving DecidableEq, Repr

/-- The kernel's side of one access. -/
structure Kernel where
  /-- the answer to a try for a word -/
  ioctl : Nat → Nat → IoctlResult
  /-- what a successful read of a word returns -/
  read : Nat → BitVec 32

/-- `VGIC_UACCESS_TRIES`. -/
def uaccessTries : Nat := 2000

/-- The loop of `kvm_gicv3_reg_access`, with the tries left. -/
def regAccessFrom (answer : Nat → IoctlResult) : Nat → Nat → Bool
  | 0, _ => false
  | left + 1, try_ =>
    match answer try_ with
    | .ok => true
    | .failed => false
    | .busy => regAccessFrom answer left (try_ + 1)

/-- `kvm_gicv3_reg_access`: whether the word was transferred. -/
def regAccess (answer : Nat → IoctlResult) : Bool := regAccessFrom answer uaccessTries 0

/-- A register word: the frame, the offset, and what was transferred. -/
structure RegWord where
  target : Target
  offset : Nat
  word : BitVec 32
  deriving DecidableEq, Repr

/-- What an access leaves behind. -/
structure MmioOutcome where
  ok : Bool
  val : BitVec 64
  /-- the registers an ioctl was issued for -/
  touched : List (Target × Nat)
  /-- the words that were transferred -/
  applied : List RegWord
  deriving DecidableEq, Repr

/-- `*val >> (32 * i)`, as a 32-bit word. -/
def wordOf (val : BitVec 64) (i : Nat) : BitVec 32 := (val >>> (32 * i)).setWidth 32

/-- The loop of `kvm_arm_gicv3_mmio` from word `i` on. -/
def mmioWords (k : Kernel) (isWrite : Bool) (target : Target) (offset : Nat) :
    Nat → Nat → BitVec 64 → MmioOutcome
  | 0, _, val => { ok := true, val := val, touched := [], applied := [] }
  | left + 1, i, val =>
    if regAccess (k.ioctl i) then
      let word := if isWrite then wordOf val i else k.read i
      let val' := if isWrite then val else deposit val (32 * i) 32 (word.setWidth 64)
      let rest := mmioWords k isWrite target offset left (i + 1) val'
      { rest with
        touched := (target, offset + 4 * i) :: rest.touched
        applied := ⟨target, offset + 4 * i, word⟩ :: rest.applied }
    else { ok := false, val := val, touched := [(target, offset + 4 * i)], applied := [] }

/-- `kvm_arm_gicv3_mmio`; there may be no GIC. -/
def kvmArmGicv3Mmio (gic : Option Gic) (k : Kernel) (pa val : BitVec 64) (size : Nat)
    (isWrite : Bool) : MmioOutcome :=
  let declined : MmioOutcome := { ok := false, val := val, touched := [], applied := [] }
  match gic with
  | none => declined
  | some s =>
    if (size ≠ 4 ∧ size ≠ 8) ∨ pa &&& 3#64 ≠ 0 then declined
    else
      match find s pa with
      | none => declined
      | some (target, offset) => mmioWords k isWrite target offset (size / 4) 0 val

/-- The vGIC registers an access has written. -/
def written (isWrite : Bool) (out : MmioOutcome) : List RegWord :=
  if isWrite then out.applied else []

/-- The arguments of `address_space_rw`. -/
structure MemoryAccess where
  pa : BitVec 64
  val : BitVec 64
  size : Nat
  isWrite : Bool
  deriving DecidableEq, Repr

/-- What `kvm_arm_ldst_access` did: the vGIC's part, the access to QEMU's memory if one
was made, and its answer. -/
structure LdstOutcome where
  ok : Bool
  mmio : MmioOutcome
  memory : Option MemoryAccess

/-- `kvm_arm_ldst_access`; `rw` says whether `address_space_rw` answers `MEMTX_OK`. -/
def kvmArmLdstAccess (gic : Option Gic) (k : Kernel) (rw : MemoryAccess → Bool)
    (pa val : BitVec 64) (size : Nat) (isWrite : Bool) : LdstOutcome :=
  let mmio := kvmArmGicv3Mmio gic k pa val size isWrite
  if mmio.ok then { ok := true, mmio := mmio, memory := none }
  else
    let access : MemoryAccess := { pa := pa, val := mmio.val, size := size, isWrite := isWrite }
    { ok := rw access, mmio := mmio, memory := some access }

end Orchard.Vgic
