/-
  Dirty/Run.lean --- runs of the tracker, a harvest being one atomic step.

  The operations of a run are the tracker's calls, guest CPU stores and register
  writes of the guest, in any order.  To the tracker an operation is a list of its
  calls (`step_tracker`), so what holds of every call holds of every operation; what an
  operation leaves alone besides is stated here once.
-/
import Orchard.Dirty.Calls

set_option autoImplicit false

namespace Orchard.Dirty

open Orchard.Foundation
open Orchard.Memory

/-! ## Operations and runs -/

/-- What can happen to the tracker, a harvest being one atomic step. -/
inductive Op where
  | track (gpas : List UInt64) (pageSize : UInt64)
  | untrack (token : Nat)
  | gen (token : Nat)
  | writtenSince (token since max : Nat)
  /-- a guest CPU store to a guest physical address -/
  | store (gpa : Nat)
  /-- a register write of the guest, hence a call of the harvest -/
  | harvest
  deriving DecidableEq, Repr

/-- One operation. -/
def step (m : Machine) (s : Sys) : Op → Sys
  | .track gpas pageSize => { s with tracker := (track m s.tracker gpas pageSize).2 }
  | .untrack token => { s with tracker := untrack s.tracker token }
  | .gen token => { s with tracker := (gen s.tracker token).2 }
  | .writtenSince token since max =>
    { s with tracker := (writtenSince s.tracker token since max).2 }
  | .store gpa => store m s gpa
  | .harvest => harvest m s

/-- A fresh tracker over any initial bitmap. -/
def Sys.init (bitmap : Bitmap) : Sys := { tracker := Tracker.new, bitmap := bitmap }

/-! ## Step facts, one per operation -/

@[simp] theorem store_tracker (m : Machine) (s : Sys) (gpa : Nat) :
    (store m s gpa).tracker = s.tracker := by
  unfold store
  split
  · rfl
  · split <;> rfl

/-- A store only adds bits. -/
theorem store_bitmap_mono (m : Machine) (s : Sys) (gpa page : Nat)
    (h : s.bitmap page = true) : (store m s gpa).bitmap page = true := by
  unfold store
  split
  · exact h
  · split
    · simp [h]
    · exact h

theorem harvest_of_skipped (m : Machine) {s : Sys} (h : Skipped s.tracker) :
    harvest m s = s := by
  unfold harvest
  rw [if_pos h]

theorem harvest_tracker (m : Machine) {s : Sys} (h : ¬ Skipped s.tracker) :
    (harvest m s).tracker =
      { foldSets m (syncSlices m s.tracker.logged) s.bitmap s.tracker with
        logged := enableLogging
          (markNeeded (syncSlices m s.tracker.logged) s.tracker) s.tracker.logged } := by
  unfold harvest
  rw [if_neg h]

theorem harvest_bitmap (m : Machine) {s : Sys} (h : ¬ Skipped s.tracker) :
    (harvest m s).bitmap =
      clearPass m (syncSlices m s.tracker.logged)
        (writtenAll m (syncSlices m s.tracker.logged) s.bitmap s.tracker) s.bitmap := by
  unfold harvest
  rw [if_neg h]

/-- An executed harvest folds every set. -/
theorem harvest_lookup (m : Machine) {s : Sys} (h : ¬ Skipped s.tracker) (token : Nat) :
    (harvest m s).tracker.lookup token =
      (s.tracker.lookup token).map
        (foldSet m (syncSlices m s.tracker.logged) s.bitmap (s.tracker.harvests + 1)) := by
  rw [harvest_tracker m h]
  exact lookup_mapValues _ _ _

/-! ## Operations that execute no harvest -/

section Quiet

variable (m : Machine) {s : Sys} {op : Op}

/-- Logging changes only in an executed harvest. -/
theorem step_logged_of_quiet (hquiet : op = .harvest → Skipped s.tracker) :
    (step m s op).tracker.logged = s.tracker.logged := by
  cases op with
  | track gpas pageSize =>
    simp only [step, track]
    split <;> rfl
  | untrack token =>
    simp only [step, untrack]
    split <;> rfl
  | gen token => exact (gen_sets s.tracker token).2.2.1
  | writtenSince token since max => exact (writtenSince_sets s.tracker token since max).2.2.1
  | store gpa => exact congrArg Tracker.logged (store_tracker m s gpa)
  | harvest =>
    simp only [step]
    rw [harvest_of_skipped m (hquiet rfl)]

/-- Dirty bits go only in an executed harvest. -/
theorem step_bitmap_of_quiet (hquiet : op = .harvest → Skipped s.tracker) {b : Nat}
    (hb : s.bitmap b = true) : (step m s op).bitmap b = true := by
  cases op with
  | track gpas pageSize => exact hb
  | untrack token => exact hb
  | gen token => exact hb
  | writtenSince token since max => exact hb
  | store gpa => exact store_bitmap_mono m s gpa b hb
  | harvest =>
    simp only [step]
    rw [harvest_of_skipped m (hquiet rfl)]
    exact hb

/-- Sets arm only in an executed harvest. -/
theorem mem_sets_of_quiet (hquiet : op = .harvest → Skipped s.tracker)
    {entry : Nat × PageSet} (hentry : entry ∈ (step m s op).tracker.sets)
    (harmed : entry.2.gen ≠ 0) : entry ∈ s.tracker.sets := by
  cases op with
  | track gpas pageSize =>
    simp only [step, track] at hentry
    split at hentry
    · rcases List.mem_append.mp hentry with hold | hnew
      · exact hold
      · simp only [List.mem_singleton] at hnew
        subst hnew
        exact absurd rfl harmed
    · exact hentry
  | untrack token =>
    simp only [step, untrack] at hentry
    split at hentry
    · exact hentry
    · exact (List.mem_filter.mp hentry).1
  | gen token => rwa [step, (gen_sets s.tracker token).1] at hentry
  | writtenSince token since max =>
    rwa [step, (writtenSince_sets s.tracker token since max).1] at hentry
  | store gpa => rwa [step, store_tracker] at hentry
  | harvest => rwa [step, harvest_of_skipped m (hquiet rfl)] at hentry

end Quiet

/-! ## An operation as calls of the tracker -/

/-- The harvest of a machine is the one over its own view. -/
theorem harvest_eq_harvestTracker (m : Machine) (s : Sys) :
    (harvest m s).tracker = harvestTracker m m.view s.bitmap s.tracker := by
  unfold harvest harvestTracker
  split <;> rfl

/-- The calls of the tracker in an operation. -/
def Op.calls (m : Machine) (s : Sys) : Op → List Call
  | .track gpas pageSize => [.track gpas pageSize]
  | .untrack token => [.untrack token]
  | .gen token => [.gen token]
  | .writtenSince token since max => [.writtenSince token since max]
  | .store _ => []
  | .harvest => [.harvest m.view s.bitmap]

theorem step_tracker (m : Machine) (s : Sys) (op : Op) :
    (step m s op).tracker = run (callStep m) s.tracker (op.calls m s) := by
  cases op with
  | store gpa => exact store_tracker m s gpa
  | harvest => exact harvest_eq_harvestTracker m s
  | _ => rfl

theorem consistent_step (m : Machine) {s : Sys} (h : Consistent s.tracker) (op : Op) :
    Consistent (step m s op).tracker := by
  rw [step_tracker]
  exact consistent_calls m h _

theorem consistent_run (m : Machine) {s : Sys} (h : Consistent s.tracker)
    (ops : List Op) : Consistent (run (step m) s ops).tracker :=
  run_invariant_all (P := fun t : Sys => Consistent t.tracker)
    (fun _ op ht => consistent_step m ht op) ops h

/-! ## How the set behind a token changes -/

theorem continues_step (m : Machine) {s : Sys} (h : Consistent s.tracker) (op : Op) :
    s.tracker.Continues (step m s op).tracker := by
  rw [step_tracker]
  exact continues_run m h _

/-- A token that was handed out before an operation and is tracked after it was
tracked before it, and its set evolved. -/
theorem step_lookup_back (m : Machine) {s : Sys} (h : Consistent s.tracker)
    {token : Nat} (htoken : token ≤ s.tracker.nextToken) {op : Op} {t : PageSet}
    (hlookup : (step m s op).tracker.lookup token = some t) :
    ∃ old, s.tracker.lookup token = some old ∧ old.Evolves t :=
  (continues_step m h op).sets token htoken t hlookup

theorem step_nextToken_le (m : Machine) (s : Sys) (op : Op) :
    s.tracker.nextToken ≤ (step m s op).tracker.nextToken := by
  rw [step_tracker]
  exact nextToken_le_calls m s.tracker _

/-- The run form of `step_lookup_back`. -/
theorem run_lookup_back (m : Machine) {token : Nat} (ops : List Op) {s : Sys} {t : PageSet}
    (h : Consistent s.tracker) (htoken : token ≤ s.tracker.nextToken)
    (hlookup : (run (step m) s ops).tracker.lookup token = some t) :
    ∃ old, s.tracker.lookup token = some old ∧ old.Evolves t := by
  have hrun : s.tracker.Continues (run (step m) s ops).tracker :=
    run_relates (P := fun u : Sys => Consistent u.tracker)
      (R := fun u v : Sys => u.tracker.Continues v.tracker) (fun u => .refl u.tracker)
      Tracker.Continues.trans (fun u op hu => ⟨consistent_step m hu op, continues_step m hu op⟩)
      h ops
  exact hrun.sets token htoken t hlookup

/-! ## The shape of a set is fixed when it is tracked -/

theorem shapeInv_step (m : Machine) {P : Nat → List Nat → Prop} {s : Sys} {op : Op}
    (htrack : ∀ gpas pageSize, op = .track gpas pageSize → Trackable m gpas pageSize →
      P pageSize.toNat (sortedPages gpas pageSize))
    (h : ShapeInv P s.tracker) : ShapeInv P (step m s op).tracker := by
  rw [step_tracker]
  refine shapeInv_calls m (fun gpas pageSize hmem => htrack gpas pageSize ?_) h
  cases op with
  | track gpas' pageSize' =>
    cases List.mem_singleton.mp hmem
    rfl
  | _ => simp [Op.calls] at hmem

/-- Pages are aligned to their size, and the size is whole target pages. -/
def AlignedShape (m : Machine) (pageSize : Nat) (gpas : List Nat) : Prop :=
  0 < pageSize ∧ m.targetPage ∣ pageSize ∧ ∀ gpa ∈ gpas, pageSize ∣ gpa

theorem alignedShape_of_trackable {m : Machine} {gpas : List UInt64} {pageSize : UInt64}
    (h : Trackable m gpas pageSize) :
    AlignedShape m pageSize.toNat (sortedPages gpas pageSize) := by
  obtain ⟨_, hsize, hle⟩ := h
  refine ⟨Nat.lt_of_lt_of_le m.targetPage_pos hle,
    dvd_of_powerOfTwoTest_of_le hsize hle, ?_⟩
  intro gpa hgpa
  exact dvd_of_mem_sortedPages hsize hgpa

theorem alignedShape_step (m : Machine) (s : Sys) (op : Op)
    (h : ShapeInv (AlignedShape m) s.tracker) :
    ShapeInv (AlignedShape m) (step m s op).tracker :=
  shapeInv_step m (fun _ _ _ hok => alignedShape_of_trackable hok) h

theorem alignedShape_run (m : Machine) {s : Sys}
    (h : ShapeInv (AlignedShape m) s.tracker) (ops : List Op) :
    ShapeInv (AlignedShape m) (run (step m) s ops).tracker :=
  run_invariant_all (P := fun t : Sys => ShapeInv (AlignedShape m) t.tracker)
    (fun t op ht => alignedShape_step m t op ht) ops h

/-! ## Logging precedes arming -/

/-- Logging is only ever turned on. -/
theorem mem_enableLogging (slices : List Slice) {logged : List MemoryRegion}
    {mr : MemoryRegion} (h : mr ∈ logged) : mr ∈ enableLogging slices logged := by
  unfold enableLogging
  induction slices generalizing logged with
  | nil => exact h
  | cons sl rest ih =>
    rw [List.foldl_cons]
    apply ih
    split
    · exact List.mem_append_left _ h
    · exact h

/-- A set that a fold leaves armed has its RAM pages in logged regions: it had
them before, or it armed at a fold that read no unlogged page. -/
theorem mr_mem_logged_of_foldSet (m : Machine) {logged : List MemoryRegion}
    (bitmap : Bitmap) {harvests : Nat} {s : PageSet} {page : Nat} {sl : Slice}
    (hbefore : s.gen ≠ 0 → sl.mr ∈ logged) (hpage : page ∈ s.gpas)
    (hsl : sliceOf (ramSlices m) page = some sl)
    (harmed : (foldSet m (syncSlices m logged) bitmap harvests s).gen ≠ 0) :
    sl.mr ∈ logged := by
  by_cases hgen : s.gen = 0
  · by_contra hnot
    obtain ⟨p, hp, hgpa⟩ := List.mem_map.mp hpage
    apply harmed
    apply foldSet_gen_eq_zero_of_unlogged m _ bitmap _ hgen hp
    rw [hgpa, verdict_syncSlices, hsl]
    simp [hnot]
  · exact hbefore hgen

theorem token_le_of_lookup {d : Tracker} (h : Consistent d) {token : Nat} {t : PageSet}
    (hlookup : d.lookup token = some t) : token ≠ 0 ∧ token ≤ d.nextToken :=
  h.tokens _ (mem_of_lookup hlookup)

theorem gen_fst_of_lookup {d : Tracker} {token : Nat} {t : PageSet} (htoken : token ≠ 0)
    (h : d.lookup token = some t) : (gen d token).1 = t.gen := by
  unfold gen
  simp [htoken, h]

theorem lookup_of_gen_ne_zero {d : Tracker} {token : Nat} (h : (gen d token).1 ≠ 0) :
    token ≠ 0 ∧ ∃ t, d.lookup token = some t ∧ t.gen = (gen d token).1 := by
  unfold gen at h ⊢
  by_cases htoken : token = 0
  · simp [htoken] at h
  · cases hlookup : d.lookup token with
    | none => simp [htoken, hlookup] at h
    | some t => exact ⟨htoken, t, rfl, by simp [htoken]⟩

/-! ## A machine small enough to evaluate -/

/-- 4 KiB target pages and 64 KiB of RAM at address 0. -/
def smallMachine : Machine where
  targetBits := 12
  view :=
    { ranges := [{ start := 0, len := 0x10000, offsetInRegion := 0, readonly := false
                   mr := { id := 0, ram := true, ramAddr := 0, ramPtr := 0x7f0000000000 } }]
      nonempty := by decide
      ascending := by simp
      bounded := by decide }
  aligned := by decide
  blocks := by decide

end Orchard.Dirty
