/-
  Dirty/Clear.lean --- what the clear pass works with.

  The clear pass sorts the written records, merges adjacent ones into runs and resets
  each run with one call.  Here are the order of the records, the slice table they
  are looked up in, and the run the merge loop keeps open, a nonempty piece of one
  slice.  What the pass resets is in `Dirty/ClearExact.lean`.
-/
import Orchard.Dirty.Harvest

set_option autoImplicit false

namespace Orchard.Dirty

open Orchard.Foundation
open Orchard.Memory

/-! ## Sorting -/

instance : Std.Total WrittenLE where
  total x y := by
    unfold WrittenLE
    omega

instance : IsTrans Written WrittenLE where
  trans x y z hxy hyz := by
    unfold WrittenLE at *
    omega

theorem gpa_le_of_writtenLE {x y : Written} (h : WrittenLE x y) : x.gpa ≤ y.gpa := by
  unfold WrittenLE at h
  omega

/-! ## Runs -/

/-- No two slices of the table hold the same address. -/
def Disjoint (slices : List Slice) : Prop :=
  ∀ a ∈ slices, ∀ b ∈ slices, ∀ gpa, a.holds gpa = true → b.holds gpa = true → a = b

/-- The record lies whole in the slice that holds its first byte, and its end
does not wrap. -/
def Whole (slices : List Slice) (w : Written) : Prop :=
  0 < w.pageSize ∧ w.gpa + w.pageSize < 2 ^ 64 ∧
    ∃ sl, sliceOf slices w.gpa = some sl ∧ w.gpa + w.pageSize ≤ sl.gpa + sl.len

/-- What the merge loop keeps true of its open run: a nonempty piece of one
slice. -/
structure OpenRun.Inside (slices : List Slice) (r : OpenRun) (sl : Slice) : Prop where
  slice : r.slice = some sl
  mem : sl ∈ slices
  start : sl.gpa ≤ r.first
  nonempty : r.first < r.stop
  stop : r.stop ≤ sl.gpa + sl.len
  bound : r.stop < 2 ^ 64

theorem add64_of_lt {a b : Nat} (h : a + b < 2 ^ 64) : add64 a b = a + b :=
  Nat.mod_eq_of_lt h

theorem sub64_of_le {a b : Nat} (hle : b ≤ a) (hlt : a < 2 ^ 64) : sub64 a b = a - b := by
  unfold sub64
  rw [show a + 2 ^ 64 - b = a - b + 2 ^ 64 by omega, Nat.add_mod_right]
  exact Nat.mod_eq_of_lt (by omega)

theorem OpenRun.start_inside {slices : List Slice} {w : Written} (h : Whole slices w) :
    ∃ sl, sliceOf slices w.gpa = some sl ∧ (OpenRun.start slices w).Inside slices sl := by
  obtain ⟨hpos, hlt, sl, hsl, hend⟩ := h
  obtain ⟨hmem, hlo, _⟩ := sliceOf_spec hsl
  refine ⟨sl, hsl, hsl, hmem, hlo, ?_, ?_, ?_⟩
  · show w.gpa < add64 w.gpa w.pageSize
    rw [add64_of_lt hlt]
    omega
  · show add64 w.gpa w.pageSize ≤ _
    rw [add64_of_lt hlt]
    exact hend
  · show add64 w.gpa w.pageSize < _
    rw [add64_of_lt hlt]
    exact hlt

/-- A record of the same slice that ends behind the run extends it. -/
theorem OpenRun.Inside.extend {slices : List Slice} {r : OpenRun} {sl : Slice} {w : Written}
    (hrun : r.Inside slices sl) (hw : Whole slices w) (hgrows : r.stop < w.gpa + w.pageSize)
    (hslice : sliceOf slices w.gpa = r.slice) :
    OpenRun.Inside slices { r with stop := w.gpa + w.pageSize } sl := by
  obtain ⟨_, hbound, sl', hsl', hend⟩ := hw
  obtain rfl : sl' = sl := by
    rw [hsl', hrun.slice] at hslice
    exact Option.some.inj hslice
  exact { hrun with nonempty := Nat.lt_trans hrun.nonempty hgrows, stop := hend, bound := hbound }

/-! ## Bits -/

/-- The clear pass only removes bits. -/
theorem clearPass_le (m : Machine) (slices : List Slice) (written : List Written)
    (bitmap : Bitmap) {page : Nat} (h : clearPass m slices written bitmap page = true) :
    bitmap page = true := by
  unfold clearPass applyClears at h
  exact (Bool.and_eq_true _ _ ▸ h).1

/-! ## The slice table of a machine -/

/-- The slices of a flat view are as disjoint as its ranges. -/
theorem viewSlices_disjoint (view : FlatView) (logged : List MemoryRegion) :
    Disjoint (viewSlices view logged) := by
  intro a ha b hb gpa hagpa hbgpa
  obtain ⟨a', ha', rfl⟩ := List.mem_map.mp ha
  obtain ⟨b', hb', rfl⟩ := List.mem_map.mp hb
  obtain ⟨ra, hra, hraSlice⟩ := List.mem_filterMap.mp ha'
  obtain ⟨rb, hrb, hrbSlice⟩ := List.mem_filterMap.mp hb'
  obtain ⟨halo, hahi⟩ := (Slice.holds_iff _ _).mp hagpa
  obtain ⟨hblo, hbhi⟩ := (Slice.holds_iff _ _).mp hbgpa
  have hshape : ∀ {r : FlatRange} {sl : Slice}, ramRange r = some sl →
      sl.gpa = r.start ∧ sl.len = r.len := by
    intro r sl h
    unfold ramRange at h
    split at h
    · simp at h
    · have := Option.some.inj h
      subst this
      exact ⟨rfl, rfl⟩
  obtain ⟨hag, hal⟩ := hshape hraSlice
  obtain ⟨hbg, hbl⟩ := hshape hrbSlice
  have hina : ra.Contains gpa := ⟨by simp only at halo; omega, by simp only at hahi; omega⟩
  have hinb : rb.Contains gpa := ⟨by simp only at hblo; omega, by simp only at hbhi; omega⟩
  have heq : ra = rb := view.range_unique hra hrb hina hinb
  subst heq
  have hsl : a' = b' := Option.some.inj (hraSlice.symm.trans hrbSlice)
  rw [hsl]

theorem syncSlices_disjoint (m : Machine) (logged : List MemoryRegion) :
    Disjoint (syncSlices m logged) :=
  viewSlices_disjoint m.view logged

theorem ramAddr_eq_of_mem {m : Machine} {sl : Slice} (h : sl ∈ ramSlices m) :
    sl.ramAddr = sl.mr.ramAddr + sl.offset := by
  obtain ⟨r, _, _, hmr, _, _, haddr, hoff⟩ := mem_ramSlices h
  rw [haddr, hmr, hoff]
  rfl

end Orchard.Dirty
