import Mathlib.Algebra.GroupWithZero.Nat
import Mathlib.Data.List.Basic
import Mathlib.Order.Basic

set_option autoImplicit false

/-!
# The flat view of the system address space

What the devices of this development read of QEMU's memory core: a
`MemoryRegion` is its identity, whether it is RAM, and where its RAM lives in the
two address spaces a device meets (`ram_addr_t` and host virtual addresses); a
flat view is the rendered, sorted and disjoint list of ranges of the 64-bit guest
physical space.  A `FlatView` carries its own well-formedness, so a view with
overlapping or empty ranges cannot be built.
-/

namespace Orchard.Memory

/-- A `MemoryRegion`, as far as a device asks about it. -/
structure MemoryRegion where
  /-- Identity: the source compares region pointers. -/
  id : Nat
  /-- `mr->ram`. -/
  ram : Bool
  /-- `memory_region_get_ram_addr`. -/
  ramAddr : Nat
  /-- `memory_region_get_ram_ptr`, as an address. -/
  ramPtr : Nat
  deriving DecidableEq, Repr, Inhabited

/-- One range of a flat view (`FlatRange`). -/
structure FlatRange where
  start : Nat
  len : Nat
  mr : MemoryRegion
  offsetInRegion : Nat
  /-- Rendered read-only: the region is, or an alias or container it is seen through. -/
  readonly : Bool
  deriving DecidableEq, Repr, Inhabited

namespace FlatRange

/-- The range holds the guest physical address. -/
def Contains (r : FlatRange) (gpa : Nat) : Prop :=
  r.start ≤ gpa ∧ gpa < r.start + r.len

instance (r : FlatRange) (gpa : Nat) : Decidable (r.Contains gpa) :=
  inferInstanceAs (Decidable (_ ∧ _))

/-- The `ram_addr_t` of the range's first byte. -/
def ramAddr (r : FlatRange) : Nat := r.mr.ramAddr + r.offsetInRegion

end FlatRange

/-- A flat view: nonempty ranges of the 64-bit space, ascending and disjoint. -/
structure FlatView where
  ranges : List FlatRange
  nonempty : ∀ r ∈ ranges, 0 < r.len
  ascending : ranges.Pairwise fun a b => a.start + a.len ≤ b.start
  bounded : ∀ r ∈ ranges, r.start + r.len ≤ 2 ^ 64

namespace FlatView

/-- Distinct ranges of one view are apart, in one order or the other. -/
theorem ranges_apart (view : FlatView) {a b : FlatRange} (ha : a ∈ view.ranges)
    (hb : b ∈ view.ranges) (hne : a ≠ b) :
    a.start + a.len ≤ b.start ∨ b.start + b.len ≤ a.start := by
  have hall := List.Pairwise.forall_of_forall_of_flip
    (R := fun x y => x ≠ y → x.start + x.len ≤ y.start ∨ y.start + y.len ≤ x.start)
    (fun _ _ h => absurd rfl h)
    (view.ascending.imp fun h _ => Or.inl h)
    (view.ascending.imp fun h _ => Or.inr h)
  exact hall ha hb hne

/-- Two ranges of one view that hold the same address are the same range. -/
theorem range_unique (view : FlatView) {a b : FlatRange} {gpa : Nat}
    (ha : a ∈ view.ranges) (hb : b ∈ view.ranges)
    (hagpa : a.Contains gpa) (hbgpa : b.Contains gpa) : a = b := by
  obtain ⟨ha1, ha2⟩ := hagpa
  obtain ⟨hb1, hb2⟩ := hbgpa
  by_contra hne
  have hsep := view.ranges_apart ha hb hne
  omega

end FlatView

end Orchard.Memory
