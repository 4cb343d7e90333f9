/-
  Dirty/Harvest.lean --- `reims_vgpu_dirty_harvest`, phase by phase.

  The source folds the hypervisor's dirty bitmap into every tracked set in four
  phases, and the order of the phases is what its callers depend on:

      sync     the RAM slices of the flat view, with the regions already logged
      fold     under `d->lock`: read every page, bump generations, stamp pages
      clear    after the unlock: sort and merge the written pages, reset them
      enable   start logging the regions a page resolved into

  Each phase is a function here, and `harvest` composes them after the early
  return.  `Dirty/Phases.lean` runs the same four functions with other threads
  between them.
-/
import Orchard.Dirty.Tracker

set_option autoImplicit false

namespace Orchard.Dirty

open Orchard.Foundation
open Orchard.Memory

/-- `DIRTY_MEMORY_VGA`: one bit for each target page of `ram_addr_t` space. -/
abbrev Bitmap := Nat → Bool

/-! ## Slices -/

/-- `ReimsVgpuDirtySlice`: one guest-RAM range of the system address space. -/
structure Slice where
  mr : MemoryRegion
  gpa : Nat
  len : Nat
  ramAddr : Nat
  offset : Nat
  /-- This device was already recording writes to the range at the sync. -/
  logged : Bool
  /-- A tracked page asked to start recording. -/
  needsLog : Bool
  deriving DecidableEq, Repr, Inhabited

/-- The test of `reims_vgpu_dirty_slice_of`. -/
def Slice.holds (sl : Slice) (gpa : Nat) : Bool :=
  decide (sl.gpa ≤ gpa) && decide (gpa - sl.gpa < sl.len)

theorem Slice.holds_iff (sl : Slice) (gpa : Nat) :
    sl.holds gpa = true ↔ sl.gpa ≤ gpa ∧ gpa < sl.gpa + sl.len := by
  unfold Slice.holds
  simp only [Bool.and_eq_true, decide_eq_true_eq]
  omega

/-- `reims_vgpu_dirty_ram_range`: the slice of one flat range, if it is RAM. -/
def ramRange (r : FlatRange) : Option Slice :=
  if r.mr.ram = false ∨ r.len = 0 then none
  else some
    { mr := r.mr
      gpa := r.start
      len := r.len
      ramAddr := r.mr.ramAddr + r.offsetInRegion
      offset := r.offsetInRegion
      logged := false
      needsLog := false }

/-- `reims_vgpu_dirty_ram_slices`. -/
def ramSlices (m : Machine) : List Slice := m.view.ranges.filterMap ramRange

/-- The slice table of a flat view after the loop that answers, per range, whether its
region is already logged. -/
def viewSlices (view : FlatView) (logged : List MemoryRegion) : List Slice :=
  (view.ranges.filterMap ramRange).map fun sl => { sl with logged := decide (sl.mr ∈ logged) }

/-- The same of the machine's own view. -/
def syncSlices (m : Machine) (logged : List MemoryRegion) : List Slice :=
  viewSlices m.view logged

/-- `reims_vgpu_dirty_slice_of`.  The source returns an index; the first slice
that holds an address determines its index and is determined by it, so the slice
itself is returned. -/
def sliceOf (slices : List Slice) (gpa : Nat) : Option Slice :=
  slices.find? (·.holds gpa)

/-! ## The fold -/

/-- `physical_memory_get_dirty_flag`. -/
def dirtyFlag (m : Machine) (bitmap : Bitmap) (ramAddr : Nat) : Bool :=
  bitmap (ramAddr / m.targetPage)

/-- `reims_vgpu_dirty_page_written`: was any target page of the guest page
written?  A tracked page size is a multiple of the target page, so the loop over
`off` makes `pageSize / targetPage` turns. -/
def pageWritten (m : Machine) (bitmap : Bitmap) (sl : Slice) (gpa pageSize : Nat) :
    Bool :=
  (List.range (pageSize / m.targetPage)).any fun k =>
    dirtyFlag m bitmap (sl.ramAddr + (gpa - sl.gpa) + k * m.targetPage)

/-- What the page loop of the fold finds out about one page. -/
inductive Verdict where
  /-- no guest RAM this device can read a bitmap for -/
  | noSlice
  /-- RAM whose writes were not being recorded when the sync ran -/
  | unlogged
  /-- some target page of it is dirty -/
  | written
  | clean
  deriving DecidableEq, Repr, Inhabited

/-- The page loop's branches for one page. -/
def verdict (m : Machine) (slices : List Slice) (bitmap : Bitmap)
    (pageSize gpa : Nat) : Verdict :=
  match sliceOf slices gpa with
  | none => .noSlice
  | some sl =>
    if sl.logged = false then .unlogged
    else if pageWritten m bitmap sl gpa pageSize then .written
    else .clean

/-- The generation of a set after a harvest: unreadable inside the startup
window, 1 when it leaves it, one more when some page read as written. -/
def nextGen (harvests armAt gen : Nat) (any : Bool) : Nat :=
  if harvests < armAt then 0
  else if gen = 0 then 1
  else if any then gen + 1
  else gen

/-- The body of the fold for one set, with `harvests` already counting this one. -/
def foldSet (m : Machine) (slices : List Slice) (bitmap : Bitmap) (harvests : Nat)
    (s : PageSet) : PageSet :=
  let v := fun p : TrackedPage => verdict m slices bitmap s.pageSize p.gpa
  let any := s.pages.any fun p => decide (v p ≠ .clean)
  let unlogged := s.pages.any fun p => decide (v p = .unlogged)
  let armAt := if s.gen = 0 ∧ unlogged = true then harvests + 1 else s.armAt
  let gen := nextGen harvests armAt s.gen any
  { s with
    armAt := armAt
    gen := gen
    pages :=
      if gen = 0 then s.pages
      else s.pages.map fun p => if v p = .clean then p else { p with stamp := gen } }

/-- `ReimsVgpuDirtyWritten`. -/
structure Written where
  gpa : Nat
  pageSize : Nat
  deriving DecidableEq, Repr, Inhabited

/-- The records one set appends for the clear pass. -/
def writtenOf (m : Machine) (slices : List Slice) (bitmap : Bitmap) (s : PageSet) :
    List Written :=
  s.pages.filterMap fun p =>
    if verdict m slices bitmap s.pageSize p.gpa = .written then
      some { gpa := p.gpa, pageSize := s.pageSize }
    else none

/-- The records of the whole fold. -/
def writtenAll (m : Machine) (slices : List Slice) (bitmap : Bitmap) (d : Tracker) :
    List Written :=
  d.sets.flatMap fun entry => writtenOf m slices bitmap entry.2

/-- The slice table after the fold: a slice some page resolved into while its
region was not logged now needs logging. -/
def markNeeded (slices : List Slice) (d : Tracker) : List Slice :=
  slices.map fun sl =>
    { sl with
      needsLog := !sl.logged && d.sets.any fun entry =>
        entry.2.pages.any fun p => decide (sliceOf slices p.gpa = some sl) }

/-- The fold over all sets. -/
def foldSets (m : Machine) (slices : List Slice) (bitmap : Bitmap) (d : Tracker) :
    Tracker :=
  { d with
    harvests := d.harvests + 1
    readsSinceHarvest := 0
    sets := mapValues (foldSet m slices bitmap (d.harvests + 1)) d.sets }

/-! ## The clear pass -/

/-- `reims_vgpu_dirty_cmp_written`, as the order it sorts by: ascending address,
the larger page first. -/
def WrittenLE (x y : Written) : Prop :=
  x.gpa < y.gpa ∨ (x.gpa = y.gpa ∧ y.pageSize ≤ x.pageSize)

instance : DecidableRel WrittenLE := fun _ _ =>
  inferInstanceAs (Decidable (_ ∨ _))

/-- A `uint64_t` sum. -/
def add64 (a b : Nat) : Nat := (a + b) % 2 ^ 64

/-- A `uint64_t` difference. -/
def sub64 (a b : Nat) : Nat := (a + 2 ^ 64 - b) % 2 ^ 64

/-- The arguments of one `memory_region_reset_dirty` call. -/
structure ClearCall where
  mr : MemoryRegion
  addr : Nat
  size : Nat
  deriving DecidableEq, Repr, Inhabited

/-- The locals of the merge loop: the run that is open. -/
structure OpenRun where
  first : Nat
  slice : Option Slice
  stop : Nat
  deriving DecidableEq, Repr, Inhabited

/-- A run opened at a record. -/
def OpenRun.start (slices : List Slice) (w : Written) : OpenRun :=
  { first := w.gpa, slice := sliceOf slices w.gpa, stop := add64 w.gpa w.pageSize }

/-- The call that closes a run; a run outside the table makes none. -/
def OpenRun.close (r : OpenRun) : List ClearCall :=
  match r.slice with
  | none => []
  | some sl =>
    [{ mr := sl.mr
       addr := sl.offset + (r.first - sl.gpa)
       size := sub64 r.stop r.first }]

/-- The two nested loops of the clear pass over the sorted records, as one pass
that carries the open run. -/
def mergeRuns (slices : List Slice) (r : OpenRun) : List Written → List ClearCall
  | [] => r.close
  | next :: rest =>
    -- the same page again, or a smaller page already inside the run
    if add64 next.gpa next.pageSize ≤ r.stop then mergeRuns slices r rest
    else if next.gpa ≠ r.stop ∨ sliceOf slices next.gpa ≠ r.slice then
      r.close ++ mergeRuns slices (OpenRun.start slices next) rest
    else mergeRuns slices { r with stop := add64 next.gpa next.pageSize } rest

/-- The calls the clear pass makes. -/
def clearCalls (slices : List Slice) (written : List Written) : List ClearCall :=
  match written.insertionSort WrittenLE with
  | [] => []
  | first :: rest => mergeRuns slices (OpenRun.start slices first) rest

/-- The target pages `memory_region_reset_dirty` resets, through
`physical_memory_test_and_clear_dirty`. -/
def ClearCall.Covers (m : Machine) (c : ClearCall) (page : Nat) : Prop :=
  c.size ≠ 0 ∧ (c.mr.ramAddr + c.addr) / m.targetPage ≤ page ∧
    page < (c.mr.ramAddr + c.addr + c.size + m.targetPage - 1) / m.targetPage

instance (m : Machine) (c : ClearCall) (page : Nat) : Decidable (c.Covers m page) :=
  inferInstanceAs (Decidable (_ ∧ _ ∧ _))

/-- The bitmap after the listed calls. -/
def applyClears (m : Machine) (calls : List ClearCall) (bitmap : Bitmap) : Bitmap :=
  fun page => bitmap page && !calls.any fun c => decide (c.Covers m page)

/-- The clear pass. -/
def clearPass (m : Machine) (slices : List Slice) (written : List Written)
    (bitmap : Bitmap) : Bitmap :=
  applyClears m (clearCalls slices written) bitmap

/-! ## Enabling -/

/-- The last loop: log the region of every slice that needs it, once. -/
def enableLogging (slices : List Slice) (logged : List MemoryRegion) :
    List MemoryRegion :=
  slices.foldl
    (fun acc sl => if sl.needsLog = true ∧ sl.mr ∉ acc then acc ++ [sl.mr] else acc)
    logged

/-! ## The harvest -/

/-- The early return of `reims_vgpu_dirty_harvest`. -/
def Skipped (d : Tracker) : Prop := d.sets = [] ∨ d.readsSinceHarvest = 0

instance (d : Tracker) : Decidable (Skipped d) :=
  inferInstanceAs (Decidable (_ ∨ _))

/-- The tracker together with the dirty bitmap it reads. -/
structure Sys where
  tracker : Tracker
  bitmap : Bitmap

/-- `reims_vgpu_dirty_harvest`, taken as one atomic step. -/
def harvest (m : Machine) (s : Sys) : Sys :=
  if Skipped s.tracker then s
  else
    let slices := syncSlices m s.tracker.logged
    let folded := foldSets m slices s.bitmap s.tracker
    { tracker :=
        { folded with
          logged := enableLogging (markNeeded slices s.tracker) s.tracker.logged }
      bitmap := clearPass m slices (writtenAll m slices s.bitmap s.tracker) s.bitmap }

/-- A guest CPU store: it marks its target page once the region is logged, and
an address outside RAM marks nothing. -/
def store (m : Machine) (s : Sys) (gpa : Nat) : Sys :=
  match sliceOf (ramSlices m) gpa with
  | none => s
  | some sl =>
    if sl.mr ∈ s.tracker.logged then
      { s with bitmap := fun page =>
          s.bitmap page || decide (page = (sl.ramAddr + (gpa - sl.gpa)) / m.targetPage) }
    else s

/-! ## Reading a page through the slice table -/

/-- The logging flag does not move a slice: the synced table resolves an address
to the slice the plain table does. -/
theorem sliceOf_syncSlices (m : Machine) (logged : List MemoryRegion) (gpa : Nat) :
    sliceOf (syncSlices m logged) gpa =
      (sliceOf (ramSlices m) gpa).map
        fun sl => { sl with logged := decide (sl.mr ∈ logged) } := by
  unfold sliceOf syncSlices viewSlices
  rw [List.find?_map]
  rfl

/-- The verdict on a page, in terms of the plain table. -/
theorem verdict_syncSlices (m : Machine) (logged : List MemoryRegion) (bitmap : Bitmap)
    (pageSize gpa : Nat) :
    verdict m (syncSlices m logged) bitmap pageSize gpa =
      match sliceOf (ramSlices m) gpa with
      | none => .noSlice
      | some sl =>
        if sl.mr ∉ logged then .unlogged
        else if pageWritten m bitmap sl gpa pageSize then .written
        else .clean := by
  unfold verdict
  rw [sliceOf_syncSlices]
  cases sliceOf (ramSlices m) gpa with
  | none => rfl
  | some sl => simp [pageWritten]

/-- A page reads clean exactly when its region is logged and no bit of it is
set. -/
theorem verdict_eq_clean_iff (m : Machine) (logged : List MemoryRegion)
    (bitmap : Bitmap) (pageSize gpa : Nat) :
    verdict m (syncSlices m logged) bitmap pageSize gpa = .clean ↔
      ∃ sl, sliceOf (ramSlices m) gpa = some sl ∧ sl.mr ∈ logged ∧
        pageWritten m bitmap sl gpa pageSize = false := by
  rw [verdict_syncSlices]
  cases hsl : sliceOf (ramSlices m) gpa with
  | none => simp
  | some sl =>
    by_cases hlogged : sl.mr ∈ logged
    · cases hw : pageWritten m bitmap sl gpa pageSize with
      | true => simp [hlogged, hw]
      | false => simp [hlogged, hw]
    · simp [hlogged]

/-- More dirty bits never make a written page unwritten. -/
theorem pageWritten_mono (m : Machine) {bitmap bitmap' : Bitmap} {sl : Slice}
    {gpa pageSize : Nat} (hmono : ∀ page, bitmap page = true → bitmap' page = true)
    (h : pageWritten m bitmap sl gpa pageSize = true) :
    pageWritten m bitmap' sl gpa pageSize = true := by
  unfold pageWritten at h ⊢
  obtain ⟨k, hk, hbit⟩ := List.any_eq_true.mp h
  exact List.any_eq_true.mpr ⟨k, hk, hmono _ hbit⟩

/-- A slice of the table is a RAM range of the view. -/
theorem mem_ramSlices {m : Machine} {sl : Slice} (h : sl ∈ ramSlices m) :
    ∃ r ∈ m.view.ranges, r.mr.ram = true ∧ sl.mr = r.mr ∧ sl.gpa = r.start ∧
      sl.len = r.len ∧ sl.ramAddr = r.ramAddr ∧ sl.offset = r.offsetInRegion := by
  obtain ⟨r, hr, hslice⟩ := List.mem_filterMap.mp h
  unfold ramRange at hslice
  split at hslice
  · simp at hslice
  · rename_i hram
    have hsl := Option.some.inj hslice
    subst hsl
    refine ⟨r, hr, ?_, rfl, rfl, rfl, rfl, rfl⟩
    simpa using (not_or.mp hram).1

theorem sliceOf_spec {slices : List Slice} {gpa : Nat} {sl : Slice}
    (h : sliceOf slices gpa = some sl) :
    sl ∈ slices ∧ sl.gpa ≤ gpa ∧ gpa < sl.gpa + sl.len := by
  have hholds := List.find?_some (p := fun sl : Slice => sl.holds gpa) h
  exact ⟨List.mem_of_find?_eq_some h, (sl.holds_iff gpa).mp hholds⟩

/-- RAM lies on target-page boundaries. -/
theorem ramSlices_aligned {m : Machine} {sl : Slice} (h : sl ∈ ramSlices m) :
    m.targetPage ∣ sl.gpa ∧ m.targetPage ∣ sl.len ∧ m.targetPage ∣ sl.ramAddr := by
  obtain ⟨r, hr, hram, _, hgpa, hlen, haddr, _⟩ := mem_ramSlices h
  rw [hgpa, hlen, haddr]
  exact m.aligned r hr hram

/-- The `ram_addr_t` of an address of a slice. -/
def Slice.ramOf (sl : Slice) (gpa : Nat) : Nat := sl.ramAddr + (gpa - sl.gpa)

/-- Which bits `pageWritten` reads: those of the page's own target pages. -/
theorem pageWritten_iff (m : Machine) (bitmap : Bitmap) {sl : Slice} {gpa pageSize : Nat}
    (hbase : m.targetPage ∣ sl.ramOf gpa) (hsize : m.targetPage ∣ pageSize) :
    pageWritten m bitmap sl gpa pageSize = true ↔
      ∃ page, sl.ramOf gpa / m.targetPage ≤ page ∧
        page < (sl.ramOf gpa + pageSize) / m.targetPage ∧ bitmap page = true := by
  have hpos := m.targetPage_pos
  obtain ⟨b, hb⟩ := hbase
  obtain ⟨n, hn⟩ := hsize
  have hbdiv : sl.ramOf gpa / m.targetPage = b := by
    rw [hb, Nat.mul_div_cancel_left _ hpos]
  have hndiv : pageSize / m.targetPage = n := by
    rw [hn, Nat.mul_div_cancel_left _ hpos]
  have hsum : (sl.ramOf gpa + pageSize) / m.targetPage = b + n := by
    rw [hb, hn, ← Nat.mul_add, Nat.mul_div_cancel_left _ hpos]
  have hbit : ∀ k, (sl.ramAddr + (gpa - sl.gpa) + k * m.targetPage) / m.targetPage =
      b + k := by
    intro k
    have hramOf : sl.ramAddr + (gpa - sl.gpa) = m.targetPage * b := hb
    rw [hramOf, Nat.mul_comm k, ← Nat.mul_add, Nat.mul_div_cancel_left _ hpos]
  unfold pageWritten dirtyFlag
  rw [hbdiv, hsum, hndiv, List.any_eq_true]
  constructor
  · rintro ⟨k, hk, hdirty⟩
    rw [hbit k] at hdirty
    have hlt := List.mem_range.mp hk
    exact ⟨b + k, by omega, by omega, hdirty⟩
  · rintro ⟨page, hlo, hhi, hdirty⟩
    refine ⟨page - b, List.mem_range.mpr (by omega), ?_⟩
    rw [hbit, show b + (page - b) = page by omega]
    exact hdirty

/-- The RAM image of an aligned page starts on a target page. -/
theorem targetPage_dvd_ramOf {m : Machine} {sl : Slice} (hsl : sl ∈ ramSlices m)
    {gpa : Nat} (hgpa : m.targetPage ∣ gpa) : m.targetPage ∣ sl.ramOf gpa := by
  obtain ⟨hstart, _, haddr⟩ := ramSlices_aligned hsl
  exact Nat.dvd_add haddr (Nat.dvd_sub hgpa hstart)

/-! ## What the fold does to one set -/

section FoldSet

variable (m : Machine) (slices : List Slice) (bitmap : Bitmap) (harvests : Nat)

@[simp] theorem foldSet_pageSize (s : PageSet) :
    (foldSet m slices bitmap harvests s).pageSize = s.pageSize := rfl

/-- An armed set never re-enters its startup window: its arming point stays. -/
theorem foldSet_armAt_of_armed {s : PageSet} (hgen : s.gen ≠ 0) :
    (foldSet m slices bitmap harvests s).armAt = s.armAt := by
  unfold foldSet
  simp [hgen]

/-- The generation of an armed set moves by one exactly when some page of it
does not read clean. -/
theorem foldSet_gen_of_armed {s : PageSet} (hgen : s.gen ≠ 0)
    (harm : s.armAt ≤ harvests) :
    (foldSet m slices bitmap harvests s).gen =
      if ∃ p ∈ s.pages, verdict m slices bitmap s.pageSize p.gpa ≠ .clean
      then s.gen + 1 else s.gen := by
  unfold foldSet nextGen
  have hnot : ¬ harvests < s.armAt := Nat.not_lt.mpr harm
  simp only [hgen, false_and, if_false, hnot, List.any_eq_true, decide_eq_true_eq]

/-- Once the generation is readable, exactly the pages that do not read clean
take the new generation as their stamp. -/
theorem foldSet_pages_of_gen {s : PageSet}
    (hgen : (foldSet m slices bitmap harvests s).gen ≠ 0) :
    (foldSet m slices bitmap harvests s).pages =
      s.pages.map fun p =>
        if verdict m slices bitmap s.pageSize p.gpa = .clean then p
        else { p with stamp := (foldSet m slices bitmap harvests s).gen } := by
  unfold foldSet at hgen ⊢
  dsimp only at hgen ⊢
  rw [if_neg hgen]

/-- Inside the startup window no page is stamped. -/
theorem foldSet_pages_of_gen_zero {s : PageSet}
    (hgen : (foldSet m slices bitmap harvests s).gen = 0) :
    (foldSet m slices bitmap harvests s).pages = s.pages := by
  unfold foldSet at hgen ⊢
  dsimp only at hgen ⊢
  rw [if_pos hgen]

@[simp] theorem foldSet_gpas (s : PageSet) :
    (foldSet m slices bitmap harvests s).gpas = s.gpas := by
  unfold PageSet.gpas
  by_cases hgen : (foldSet m slices bitmap harvests s).gen = 0
  · rw [foldSet_pages_of_gen_zero m slices bitmap harvests hgen]
  · rw [foldSet_pages_of_gen m slices bitmap harvests hgen, List.map_map]
    apply List.map_congr_left
    intro p _
    simp only [Function.comp_apply]
    split <;> rfl

/-- A set leaves its startup window only at a harvest that read no page of it in
an unlogged region. -/
theorem foldSet_gen_eq_zero_of_unlogged {s : PageSet} (hgen : s.gen = 0)
    {p : TrackedPage} (hp : p ∈ s.pages)
    (hunlogged : verdict m slices bitmap s.pageSize p.gpa = .unlogged) :
    (foldSet m slices bitmap harvests s).gen = 0 := by
  have hany : (s.pages.any fun q =>
      decide (verdict m slices bitmap s.pageSize q.gpa = .unlogged)) = true :=
    List.any_eq_true.mpr ⟨p, hp, decide_eq_true hunlogged⟩
  unfold foldSet nextGen
  simp [hgen, hany]

/-- The arming point of a readable set is in the past. -/
theorem foldSet_armAt_le_of_gen {s : PageSet}
    (hgen : (foldSet m slices bitmap harvests s).gen ≠ 0) :
    (foldSet m slices bitmap harvests s).armAt ≤ harvests := by
  unfold foldSet nextGen at hgen ⊢
  dsimp only at hgen ⊢
  by_contra hlt
  rw [if_pos (by omega)] at hgen
  exact hgen rfl

end FoldSet

end Orchard.Dirty
