import Orchard.Memory.FlatView

set_option autoImplicit false

/-!
# Guest RAM in the address space of the process

A guest page is reached in two hops: the flat view sends a guest physical address
to a place in a memory region, and a RAM region has its bytes at a host address.
Behind the host address is a RAM block, which the process maps from anonymous memory
or from a shared file.  What a host address stands for is a `Store`; two addresses
alias when they stand for the same one.
-/

namespace Orchard.Memory

/-! ## Translation -/

/-- What `address_space_translate` returns: the region, the offset in it, and the
length left of the one asked for. -/
structure Translation where
  mr : MemoryRegion
  xlat : Nat
  plen : Nat

/-- `address_space_translate`: the length is clamped to the range that holds the
address.  Where no range does, the region is the unassigned one, which is not RAM. -/
def translate (view : FlatView) (gpa plen : Nat) : Option Translation :=
  (view.ranges.find? fun r => decide (r.Contains gpa)).map fun r =>
    { mr := r.mr
      xlat := gpa - r.start + r.offsetInRegion
      plen := min plen (r.start + r.len - gpa) }

/-- The region and host address of `size` bytes of RAM, where one translation covers
them: the check both shims make. -/
def ramHva (view : FlatView) (gpa size : Nat) : Option (MemoryRegion × Nat) :=
  (translate view gpa size).bind fun t =>
    if t.mr.ram = true ∧ size ≤ t.plen then some (t.mr, t.mr.ramPtr + t.xlat) else none

/-- The host address of a byte of guest RAM. -/
def hostOf (view : FlatView) (gpa : Nat) : Option Nat :=
  (view.ranges.find? fun r => decide (r.Contains gpa)).bind fun r =>
    if r.mr.ram = true then some (r.mr.ramPtr + r.offsetInRegion + (gpa - r.start)) else none

/-- The range that holds an address is the one that is found. -/
theorem find_of_contains (view : FlatView) {r : FlatRange} {gpa : Nat} (hr : r ∈ view.ranges)
    (hgpa : r.Contains gpa) :
    (view.ranges.find? fun r => decide (r.Contains gpa)) = some r := by
  cases hfind : view.ranges.find? fun r => decide (r.Contains gpa) with
  | none =>
    have hnone := List.find?_eq_none.mp hfind r hr
    exact absurd (decide_eq_true hgpa) hnone
  | some q =>
    have hq := List.find?_some hfind
    rw [view.range_unique (List.mem_of_find?_eq_some hfind) hr (of_decide_eq_true hq) hgpa]

/-- `size` bytes from `gpa` on lie in the RAM range `r`, at host address `hva`. -/
structure InRange (view : FlatView) (gpa size : Nat) (r : FlatRange) (hva : Nat) : Prop where
  mem : r ∈ view.ranges
  ram : r.mr.ram = true
  start : r.start ≤ gpa
  fits : gpa + size ≤ r.start + r.len
  hva : hva = r.mr.ramPtr + r.offsetInRegion + (gpa - r.start)

theorem ramHva_eq_some_iff {view : FlatView} {gpa size : Nat} (hsize : 0 < size)
    {mr : MemoryRegion} {hva : Nat} :
    ramHva view gpa size = some (mr, hva) ↔ ∃ r, InRange view gpa size r hva ∧ r.mr = mr := by
  constructor
  · intro h
    unfold ramHva translate at h
    cases hfind : view.ranges.find? fun r => decide (r.Contains gpa) with
    | none =>
      rw [hfind] at h
      cases h
    | some r =>
      rw [hfind] at h
      have hcontains : r.Contains gpa := by simpa using List.find?_some hfind
      obtain ⟨hstart, hend⟩ := hcontains
      simp only [Option.map_some, Option.bind_some] at h
      split at h
      · rename_i hcheck
        have hpair := Prod.mk.inj (Option.some.inj h)
        refine ⟨r, ⟨List.mem_of_find?_eq_some hfind, hcheck.1, hstart, by omega, ?_⟩, hpair.1⟩
        omega
      · cases h
  · rintro ⟨r, hin, rfl⟩
    have hcontains : r.Contains gpa := ⟨hin.start, by have := hin.fits; omega⟩
    unfold ramHva translate
    rw [find_of_contains view hin.mem hcontains]
    have hfits := hin.fits
    have hstart := hin.start
    simp only [Option.map_some, Option.bind_some]
    rw [if_pos ⟨hin.ram, by omega⟩, hin.hva]
    congr 2
    omega

theorem InRange.hostOf {view : FlatView} {gpa size hva j : Nat} {r : FlatRange}
    (h : InRange view gpa size r hva) (hj : j < size) :
    hostOf view (gpa + j) = some (hva + j) := by
  have hstart := h.start
  have hfits := h.fits
  have hcontains : r.Contains (gpa + j) := ⟨by omega, by omega⟩
  unfold Memory.hostOf
  rw [find_of_contains view h.mem hcontains, Option.bind_some, if_pos h.ram, h.hva]
  congr 1
  omega

/-- Part of a run that one translation covers is covered by its own. -/
theorem InRange.sub {view : FlatView} {gpa size hva off len : Nat} {r : FlatRange}
    (h : InRange view gpa size r hva) (hlen : off + len ≤ size) :
    InRange view (gpa + off) len r (hva + off) := by
  have hstart := h.start
  have hfits := h.fits
  refine ⟨h.mem, h.ram, by omega, by omega, ?_⟩
  rw [h.hva]
  omega

/-! ## RAM blocks -/

/-- What a host address stands for. -/
inductive Store where
  | unmapped
  /-- reserved without access -/
  | reserved
  /-- anonymous memory, named by where it was mapped first -/
  | memory (addr : Nat)
  | file (fd off : Nat)
  deriving DecidableEq, Repr

/-- A `RAMBlock`. -/
structure RamBlock where
  host : Nat
  len : Nat
  /-- `qemu_ram_get_fd`, where it is not negative -/
  fd : Option Nat
  fdOffset : Nat
  /-- `qemu_ram_is_shared` -/
  shared : Bool
  deriving DecidableEq, Repr

/-- The block holds the host address. -/
def RamBlock.Holds (b : RamBlock) (hva : Nat) : Prop := b.host ≤ hva ∧ hva < b.host + b.len

instance (b : RamBlock) (hva : Nat) : Decidable (b.Holds hva) :=
  inferInstanceAs (Decidable (_ ∧ _))

/-- What the byte at an offset of the block is. -/
def RamBlock.store (b : RamBlock) (off : Nat) : Store :=
  match b.fd with
  | some fd => if b.shared then .file fd (b.fdOffset + off) else .memory (b.host + off)
  | none => .memory (b.host + off)

/-- Guest RAM and where the process has it.  Blocks do not overlap, every RAM range of
the view lies in one of them, and the process maps them. -/
structure HostLayout where
  view : FlatView
  blocks : List RamBlock
  space : Nat → Store
  apart : blocks.Pairwise fun a b => a.host + a.len ≤ b.host ∨ b.host + b.len ≤ a.host
  backed : ∀ r ∈ view.ranges, r.mr.ram = true → ∃ b ∈ blocks,
    b.host ≤ r.mr.ramPtr + r.offsetInRegion ∧
      r.mr.ramPtr + r.offsetInRegion + r.len ≤ b.host + b.len
  mapped : ∀ b ∈ blocks, ∀ off < b.len, space (b.host + off) = b.store off

/-- The host bytes lie in one block. -/
def HostLayout.InBlock (layout : HostLayout) (hva size : Nat) : Prop :=
  ∃ b ∈ layout.blocks, b.host ≤ hva ∧ hva + size ≤ b.host + b.len

theorem HostLayout.inBlock_of_inRange (layout : HostLayout) {gpa size hva : Nat}
    {r : FlatRange} (h : InRange layout.view gpa size r hva) : layout.InBlock hva size := by
  obtain ⟨b, hb, hlow, hhigh⟩ := layout.backed r h.mem h.ram
  have hstart := h.start
  have hfits := h.fits
  have hhva := h.hva
  exact ⟨b, hb, by omega, by omega⟩

/-- Two blocks that hold the same address are the same block. -/
theorem HostLayout.block_unique (layout : HostLayout) {a b : RamBlock} {hva : Nat}
    (ha : a ∈ layout.blocks) (hb : b ∈ layout.blocks) (hain : a.Holds hva)
    (hbin : b.Holds hva) : a = b := by
  have hall := List.Pairwise.forall_of_forall_of_flip
    (R := fun a b : RamBlock => a ≠ b → a.host + a.len ≤ b.host ∨ b.host + b.len ≤ a.host)
    (fun _ _ h => absurd rfl h) (layout.apart.imp fun {a b} h (_ : a ≠ b) => h)
    (layout.apart.imp fun {a b} h (_ : b ≠ a) => h.symm)
  obtain ⟨ha1, ha2⟩ := hain
  obtain ⟨hb1, hb2⟩ := hbin
  by_contra hne
  have hsep := hall ha hb hne
  omega

end Orchard.Memory
