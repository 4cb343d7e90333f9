/-
  Dirty/Tracker.lean --- the tracked page sets of `reims-vgpu-dirty.c`.

  A device-side reader registers a page set once per mapping incarnation and
  then reads a generation.  This file embeds the four calls that touch only the
  tracker itself, all of them under `d->lock`: `reims_vgpu_dirty_track`,
  `_untrack`, `_gen` and `_written_since`.  `Dirty/Harvest.lean` embeds the fifth.

  Two conventions hold for the whole tracker.  The counters (`next_token`,
  `harvests`, `reads_since_harvest`, `gen`, `arm_at`) grow by one per call and are `Nat`;
  `counters_le_calls` has the bound under which their `uint64_t` does not wrap.
  Guest addresses come in as `UInt64` and are `Nat` inside; where the source adds
  to one in `uint64_t`, the sum is taken modulo `2 ^ 64`.
-/
import Mathlib.Data.List.Sort
import Orchard.Foundation.PowerOfTwo
import Orchard.Foundation.Table
import Orchard.Memory.FlatView

set_option autoImplicit false

namespace Orchard.Dirty

open Orchard.Foundation
open Orchard.Memory

/-! ## The machine under the tracker -/

/-- The part of the machine that does not change while the tracker runs: the
target page size that indexes the dirty bitmap, and the flat view.  RAM is
created, placed and logged in whole target pages, and two regions never share
`ram_addr_t` space. -/
structure Machine where
  /-- `TARGET_PAGE_BITS`. -/
  targetBits : Nat
  view : FlatView
  aligned : ∀ r ∈ view.ranges, r.mr.ram = true →
    2 ^ targetBits ∣ r.start ∧ 2 ^ targetBits ∣ r.len ∧ 2 ^ targetBits ∣ r.ramAddr
  blocks : ∀ a ∈ view.ranges, ∀ b ∈ view.ranges, a.mr.ram = true → b.mr.ram = true →
    a.mr ≠ b.mr → a.ramAddr + a.len ≤ b.ramAddr ∨ b.ramAddr + b.len ≤ a.ramAddr

/-- `qemu_target_page_size`. -/
def Machine.targetPage (m : Machine) : Nat := 2 ^ m.targetBits

theorem Machine.targetPage_pos (m : Machine) : 0 < m.targetPage :=
  Nat.two_pow_pos _

/-! ## Page sets -/

/-- One entry of the parallel arrays `pages` and `page_gen`. -/
structure TrackedPage where
  gpa : Nat
  /-- `page_gen`: the generation of the harvest that last saw the page written,
  0 for a page never seen written. -/
  stamp : Nat
  deriving DecidableEq, Repr, Inhabited

/-- `ReimsVgpuDirtySet`: one mapping incarnation's guest storage. -/
structure PageSet where
  pages : List TrackedPage
  pageSize : Nat
  /-- 0 until armed. -/
  gen : Nat
  /-- The harvest count at which `gen` may leave 0. -/
  armAt : Nat
  deriving DecidableEq, Repr, Inhabited

/-- The addresses of a set's pages, in order. -/
def PageSet.gpas (s : PageSet) : List Nat := s.pages.map (·.gpa)

/-- `ReimsVgpuDirty`, without the slice table, which every harvest rebuilds. -/
structure Tracker where
  sets : List (Nat × PageSet)
  nextToken : Nat
  /-- Regions this device turned `DIRTY_MEMORY_VGA` logging on for. -/
  logged : List MemoryRegion
  harvests : Nat
  readsSinceHarvest : Nat
  deriving DecidableEq, Repr, Inhabited

/-- `reims_vgpu_dirty_new`. -/
def Tracker.new : Tracker :=
  { sets := [], nextToken := 0, logged := [], harvests := 0, readsSinceHarvest := 0 }

/-- `g_hash_table_lookup(d->sets, &token)`. -/
def Tracker.lookup (d : Tracker) (token : Nat) : Option PageSet :=
  d.sets.lookup token

/-! ## Registering and releasing a set -/

/-- The compaction loop of `reims_vgpu_dirty_track` after its first entry: keep
an address only when it differs from the last one kept. -/
def dedupFrom (last : Nat) : List Nat → List Nat
  | [] => []
  | page :: rest =>
    if last ≠ page then page :: dedupFrom page rest else dedupFrom last rest

/-- The compaction loop over the whole sorted array. -/
def dedupPages : List Nat → List Nat
  | [] => []
  | page :: rest => page :: dedupFrom page rest

/-- The page array of a new set: mask every address down to its page, sort,
drop duplicates. -/
def sortedPages (gpas : List UInt64) (pageSize : UInt64) : List Nat :=
  dedupPages
    ((gpas.map fun gpa => (gpa &&& ~~~(pageSize - 1)).toNat).insertionSort (· ≤ ·))

/-- The argument checks of `reims_vgpu_dirty_track`. -/
def Trackable (m : Machine) (gpas : List UInt64) (pageSize : UInt64) : Prop :=
  gpas ≠ [] ∧ PowerOfTwoTest pageSize ∧ m.targetPage ≤ pageSize.toNat

instance (m : Machine) (gpas : List UInt64) (pageSize : UInt64) :
    Decidable (Trackable m gpas pageSize) :=
  inferInstanceAs (Decidable (_ ∧ _ ∧ _))

/-- `reims_vgpu_dirty_track`: the token (0 when the set cannot be tracked) and
the tracker after the call. -/
def track (m : Machine) (d : Tracker) (gpas : List UInt64) (pageSize : UInt64) :
    Nat × Tracker :=
  if Trackable m gpas pageSize then
    let s : PageSet :=
      { pages := (sortedPages gpas pageSize).map fun gpa => { gpa := gpa, stamp := 0 }
        pageSize := pageSize.toNat
        gen := 0
        armAt := d.harvests + 1 }
    let token := d.nextToken + 1
    (token, { d with sets := d.sets ++ [(token, s)], nextToken := token })
  else (0, d)

/-- `reims_vgpu_dirty_untrack`. -/
def untrack (d : Tracker) (token : Nat) : Tracker :=
  if token = 0 then d else { d with sets := eraseKey d.sets token }

/-! ## Reading a set -/

/-- `reims_vgpu_dirty_gen`. -/
def gen (d : Tracker) (token : Nat) : Nat × Tracker :=
  if token = 0 then (0, d)
  else
    (((d.lookup token).map (·.gen)).getD 0,
      { d with readsSinceHarvest := d.readsSinceHarvest + 1 })

/-- The collecting loop of `reims_vgpu_dirty_written_since`; `none` is the
refusal to truncate. -/
def collectSince (since max : Nat) : List TrackedPage → List Nat → Option (List Nat)
  | [], out => some out
  | page :: rest, out =>
    if page.stamp ≤ since then collectSince since max rest out
    else if out.length = max then none
    else collectSince since max rest (out ++ [page.gpa])

/-- `reims_vgpu_dirty_written_since`: `none` is the return value -1, and only a
complete answer counts as a read. -/
def writtenSince (d : Tracker) (token since max : Nat) : Option (List Nat) × Tracker :=
  if token = 0 then (none, d)
  else
    match d.lookup token with
    | none => (none, d)
    | some s =>
      if s.gen = 0 ∨ since = 0 then (none, d)
      else
        match collectSince since max s.pages [] with
        | none => (none, d)
        | some out =>
          (some out, { d with readsSinceHarvest := d.readsSinceHarvest + 1 })

/-! ## What a complete answer lists -/

/-- The loop lists what it was given and then every page stamped after `since`. -/
theorem collectSince_eq_some {since max : Nat} :
    ∀ {pages : List TrackedPage} {out result : List Nat},
      collectSince since max pages out = some result →
      result = out ++ (pages.filter fun p => since < p.stamp).map (·.gpa) := by
  intro pages
  induction pages with
  | nil =>
    intro out result h
    simpa [collectSince] using h.symm
  | cons page rest ih =>
    intro out result h
    rw [collectSince] at h
    split at h
    · rename_i hle
      rw [ih h, List.filter_cons, if_neg (by simpa using hle)]
    · rename_i hlt
      split at h
      · simp at h
      · rw [ih h, List.filter_cons, if_pos (by simpa using hlt)]
        simp

/-- With room for every page the loop does not refuse. -/
theorem collectSince_of_room {since max : Nat} :
    ∀ {pages : List TrackedPage} {out : List Nat}, out.length + pages.length ≤ max →
      collectSince since max pages out =
        some (out ++ (pages.filter fun p => since < p.stamp).map (·.gpa)) := by
  intro pages
  induction pages with
  | nil => intro out _; simp [collectSince]
  | cons page rest ih =>
    intro out hroom
    rw [List.length_cons] at hroom
    rw [collectSince]
    split
    · rename_i hle
      rw [ih (by omega), List.filter_cons, if_neg (by simpa using hle)]
    · rename_i hlt
      rw [if_neg (by omega), ih (by simp; omega), List.filter_cons,
        if_pos (by simpa using hlt)]
      simp

/-- A page stamped after `since` is in every complete answer. -/
theorem mem_of_writtenSince {d : Tracker} {token since max : Nat} {s : PageSet}
    {out : List Nat} {page : TrackedPage} (hset : d.lookup token = some s)
    (hpage : page ∈ s.pages) (hstamp : since < page.stamp)
    (hout : (writtenSince d token since max).1 = some out) : page.gpa ∈ out := by
  unfold writtenSince at hout
  split at hout
  · simp at hout
  · simp only [hset] at hout
    split at hout
    · simp at hout
    · split at hout
      · simp at hout
      · rename_i out' hcollect
        have hout' : out' = out := by simpa using hout
        subst hout'
        rw [collectSince_eq_some hcollect]
        simp only [List.nil_append, List.mem_map, List.mem_filter,
          decide_eq_true_eq]
        exact ⟨page, ⟨hpage, hstamp⟩, rfl⟩

/-! ## The page array of a set -/

theorem mem_dedupFrom {last p : Nat} :
    ∀ {pages : List Nat}, p ∈ dedupFrom last pages → p ∈ pages := by
  intro pages
  induction pages generalizing last with
  | nil => intro h; simp [dedupFrom] at h
  | cons page rest ih =>
    intro h
    rw [dedupFrom] at h
    split at h
    · rcases List.mem_cons.mp h with rfl | h
      · exact List.mem_cons_self
      · exact List.mem_cons_of_mem _ (ih h)
    · exact List.mem_cons_of_mem _ (ih h)

theorem mem_dedupPages {p : Nat} {pages : List Nat} (h : p ∈ dedupPages pages) :
    p ∈ pages := by
  cases pages with
  | nil => simp [dedupPages] at h
  | cons page rest =>
    rcases List.mem_cons.mp h with rfl | h
    · exact List.mem_cons_self
    · exact List.mem_cons_of_mem _ (mem_dedupFrom h)

/-- The compaction drops an address only when it is the last one kept. -/
theorem mem_dedupFrom_of_ne {last p : Nat} :
    ∀ {pages : List Nat}, p ∈ pages → p ≠ last → p ∈ dedupFrom last pages := by
  intro pages
  induction pages generalizing last with
  | nil => intro h _; simp at h
  | cons page rest ih =>
    intro h hne
    rw [dedupFrom]
    split
    · by_cases hpage : p = page
      · subst hpage
        exact List.mem_cons_self
      · have hrest := (List.mem_cons.mp h).resolve_left hpage
        exact List.mem_cons_of_mem _ (ih hrest hpage)
    · rename_i hsame
      have hpage : p ≠ page := by
        rw [← not_not.mp hsame]
        exact hne
      exact ih ((List.mem_cons.mp h).resolve_left hpage) hne

theorem mem_dedupPages_iff {p : Nat} {pages : List Nat} :
    p ∈ dedupPages pages ↔ p ∈ pages := by
  refine ⟨mem_dedupPages, ?_⟩
  cases pages with
  | nil => exact id
  | cons page rest =>
    intro h
    rw [dedupPages]
    by_cases hpage : p = page
    · subst hpage
      exact List.mem_cons_self
    · exact List.mem_cons_of_mem _
        (mem_dedupFrom_of_ne ((List.mem_cons.mp h).resolve_left hpage) hpage)

/-- On a sorted array the compaction leaves a strictly ascending one. -/
theorem dedupFrom_ascending {last : Nat} :
    ∀ {pages : List Nat}, (last :: pages).Pairwise (· ≤ ·) →
      (last :: dedupFrom last pages).Pairwise (· < ·) := by
  intro pages
  induction pages generalizing last with
  | nil => intro _; simp [dedupFrom]
  | cons page rest ih =>
    intro h
    obtain ⟨hlast, hrest⟩ := List.pairwise_cons.mp h
    rw [dedupFrom]
    split
    · rename_i hne
      have htail := ih hrest
      have hlt : last < page := Nat.lt_of_le_of_ne (hlast page List.mem_cons_self) hne
      refine List.pairwise_cons.mpr ⟨?_, htail⟩
      intro p hp
      rcases List.mem_cons.mp hp with rfl | hp
      · exact hlt
      · exact Nat.lt_trans hlt ((List.pairwise_cons.mp htail).1 p hp)
    · rename_i hsame
      obtain rfl := not_not.mp hsame
      exact ih hrest

theorem dedupPages_ascending {pages : List Nat} (h : pages.Pairwise (· ≤ ·)) :
    (dedupPages pages).Pairwise (· < ·) := by
  cases pages with
  | nil => exact .nil
  | cons page rest => exact dedupFrom_ascending h

theorem sortedPages_ascending (gpas : List UInt64) (pageSize : UInt64) :
    (sortedPages gpas pageSize).Pairwise (· < ·) :=
  dedupPages_ascending (List.pairwise_insertionSort _ _)

/-- The pages of a new set are the input addresses rounded down. -/
theorem mem_sortedPages_iff {p : Nat} {gpas : List UInt64} {pageSize : UInt64}
    (hsize : PowerOfTwoTest pageSize) :
    p ∈ sortedPages gpas pageSize ↔
      ∃ gpa ∈ gpas, p = gpa.toNat - gpa.toNat % pageSize.toNat := by
  rw [sortedPages, mem_dedupPages_iff, List.mem_insertionSort, List.mem_map]
  constructor
  · rintro ⟨gpa, hgpa, rfl⟩
    exact ⟨gpa, hgpa, toNat_mask_of_powerOfTwoTest hsize gpa⟩
  · rintro ⟨gpa, hgpa, rfl⟩
    exact ⟨gpa, hgpa, toNat_mask_of_powerOfTwoTest hsize gpa⟩

/-- Every page of a new set is an input address masked down. -/
theorem mem_sortedPages {p : Nat} {gpas : List UInt64} {pageSize : UInt64}
    (h : p ∈ sortedPages gpas pageSize) :
    ∃ gpa ∈ gpas, p = (gpa &&& ~~~(pageSize - 1)).toNat := by
  have hmem := mem_dedupPages h
  rw [List.mem_insertionSort, List.mem_map] at hmem
  obtain ⟨gpa, hgpa, rfl⟩ := hmem
  exact ⟨gpa, hgpa, rfl⟩

/-- Pages of a new set are aligned to the page size. -/
theorem dvd_of_mem_sortedPages {p : Nat} {gpas : List UInt64} {pageSize : UInt64}
    (hsize : PowerOfTwoTest pageSize) (h : p ∈ sortedPages gpas pageSize) :
    pageSize.toNat ∣ p := by
  obtain ⟨gpa, _, rfl⟩ := mem_sortedPages h
  exact dvd_mask_of_powerOfTwoTest hsize gpa

end Orchard.Dirty
