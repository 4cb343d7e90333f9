/-
  Dirty/ClearExact.lean --- the clear pass resets what was recorded and nothing else.

  A record the pass left set would be reported again by the next harvest, and one it
  reset too far would hide a store.  The calls are read as guest-physical ranges and
  compared with the recorded pages from both sides, for any flat view and any list of
  page records.  Pages of power-of-two
  sizes, each aligned to its own size, are nested or apart; with the larger page
  first at each address, the merge loop meets a record either inside the open run or
  past its end.

  Two kinds of records break the pass.  A page that is larger than what is left of
  its RAM range is reset past the end of the range.  A page that ends at `2 ^ 64`
  has the end 0 in `uint64_t`: behind another record it is taken for covered, and in
  front of one it does not cover it.
-/
import Orchard.Dirty.Clear
import Orchard.Dirty.Run

set_option autoImplicit false

namespace Orchard.Dirty

open Orchard.Foundation
open Orchard.Memory

/-! ## Records -/

/-- A page a harvest can record: its size is one `reims_vgpu_dirty_track` accepts, and it
is aligned to it. -/
structure GuestPage (m : Machine) where
  gpa : UInt64
  pageSize : UInt64
  powerOfTwo : PowerOfTwoTest pageSize
  target : m.targetPage ≤ pageSize.toNat
  aligned : pageSize.toNat ∣ gpa.toNat

/-- Its record. -/
def GuestPage.record {m : Machine} (page : GuestPage m) : Written where
  gpa := page.gpa.toNat
  pageSize := page.pageSize.toNat

/-- The record covers the guest-physical address. -/
def Written.Holds (w : Written) (gpa : Nat) : Prop := w.gpa ≤ gpa ∧ gpa < w.gpa + w.pageSize

/-- The end of the recorded page, before it is cut to 64 bits. -/
def Written.stop (w : Written) : Nat := w.gpa + w.pageSize

/-- What the merge loop uses of a record. -/
structure PageRecord (w : Written) : Prop where
  size : ∃ k, k < 64 ∧ w.pageSize = 2 ^ k
  aligned : w.pageSize ∣ w.gpa
  bound : w.gpa < 2 ^ 64

theorem GuestPage.pageRecord {m : Machine} (page : GuestPage m) : PageRecord page.record where
  size := exists_pow_of_powerOfTwoTest page.powerOfTwo
  aligned := page.aligned
  bound := page.gpa.toNat_lt

theorem PageRecord.pos {w : Written} (h : PageRecord w) : 0 < w.pageSize := by
  obtain ⟨k, _, hk⟩ := h.size
  rw [hk]
  exact Nat.two_pow_pos k

theorem PageRecord.stop_le {w : Written} (h : PageRecord w) : w.stop ≤ 2 ^ 64 := by
  obtain ⟨k, hlt, hk⟩ := h.size
  have hdvd : w.pageSize ∣ 2 ^ 64 := by
    rw [hk]
    exact Nat.pow_dvd_pow 2 (by omega)
  exact add_le_of_dvd_of_lt h.aligned hdvd h.bound

/-- A page that ends at `2 ^ 64` does not start at 0. -/
theorem PageRecord.gpa_pos {w : Written} (h : PageRecord w) (htop : w.stop = 2 ^ 64) :
    0 < w.gpa := by
  obtain ⟨k, hlt, hk⟩ := h.size
  have hsize : 2 ^ k < 2 ^ 64 := (Nat.pow_lt_pow_iff_right (by omega)).mpr hlt
  unfold Written.stop at htop
  omega

/-- Of two sizes one divides the other. -/
theorem PageRecord.dvd_of_le {x y : Written} (hx : PageRecord x) (hy : PageRecord y)
    (h : x.pageSize ≤ y.pageSize) : x.pageSize ∣ y.pageSize := by
  obtain ⟨j, _, hj⟩ := hx.size
  obtain ⟨k, _, hk⟩ := hy.size
  rw [hj, hk] at h ⊢
  exact Nat.pow_dvd_pow 2 ((Nat.pow_le_pow_iff_right (by omega)).mp h)

/-- **Nested or apart.**  A later record lies inside an earlier one or past its end. -/
theorem PageRecord.nested_or_past {x y : Written} (hx : PageRecord x) (hy : PageRecord y)
    (h : WrittenLE x y) : y.stop ≤ x.stop ∨ x.stop ≤ y.gpa := by
  unfold Written.stop
  rcases Nat.le_total y.pageSize x.pageSize with hle | hle
  · -- the end of the larger page is a multiple of the smaller size
    have hend : y.pageSize ∣ x.gpa + x.pageSize :=
      Nat.dvd_add ((hy.dvd_of_le hx hle).trans hx.aligned) (hy.dvd_of_le hx hle)
    rcases Nat.lt_or_ge y.gpa (x.gpa + x.pageSize) with hin | hpast
    · exact .inl (add_le_of_dvd_of_lt hy.aligned hend hin)
    · exact .inr hpast
  · rcases h with hlt | ⟨heq, hsize⟩
    · have hstart : x.pageSize ∣ y.gpa := (hx.dvd_of_le hy hle).trans hy.aligned
      exact .inr (add_le_of_dvd_of_lt hx.aligned hstart hlt)
    · exact .inl (by omega)

theorem add64_of_stop_lt {w : Written} (h : w.stop < 2 ^ 64) :
    add64 w.gpa w.pageSize = w.stop :=
  add64_of_lt h

theorem add64_of_top {w : Written} (h : w.stop = 2 ^ 64) : add64 w.gpa w.pageSize = 0 := by
  have hsum : w.gpa + w.pageSize = 2 ^ 64 := h
  rw [add64, hsum, Nat.mod_self]

/-! ## The runs of the merge loop -/

/-- The runs the merge loop closes, in order. -/
def mergedRuns (slices : List Slice) (r : OpenRun) : List Written → List OpenRun
  | [] => [r]
  | next :: rest =>
    if add64 next.gpa next.pageSize ≤ r.stop then mergedRuns slices r rest
    else if next.gpa ≠ r.stop ∨ sliceOf slices next.gpa ≠ r.slice then
      r :: mergedRuns slices (OpenRun.start slices next) rest
    else mergedRuns slices { r with stop := add64 next.gpa next.pageSize } rest

/-- The runs of the clear pass. -/
def clearRuns (slices : List Slice) (written : List Written) : List OpenRun :=
  match written.insertionSort WrittenLE with
  | [] => []
  | first :: rest => mergedRuns slices (OpenRun.start slices first) rest

/-- One reset, as a range of guest-physical addresses in a slice. -/
structure ClearedRange where
  slice : Slice
  first : Nat
  size : Nat
  deriving DecidableEq, Repr

/-- The call that makes it. -/
def ClearedRange.call (c : ClearedRange) : ClearCall where
  mr := c.slice.mr
  addr := c.slice.offset + (c.first - c.slice.gpa)
  size := c.size

/-- The reset covers the guest-physical address. -/
def ClearedRange.Holds (c : ClearedRange) (gpa : Nat) : Prop :=
  c.first ≤ gpa ∧ gpa < c.first + c.size

/-- What closing a run resets. -/
def OpenRun.cleared (r : OpenRun) : Option ClearedRange :=
  r.slice.map fun sl => { slice := sl, first := r.first, size := sub64 r.stop r.first }

/-- The resets of the clear pass. -/
def clearedRanges (slices : List Slice) (written : List Written) : List ClearedRange :=
  (clearRuns slices written).filterMap OpenRun.cleared

theorem OpenRun.close_eq (r : OpenRun) : r.close = (r.cleared.toList).map ClearedRange.call := by
  unfold OpenRun.close OpenRun.cleared
  cases r.slice with
  | none => rfl
  | some sl => rfl

theorem mergeRuns_eq (slices : List Slice) (rest : List Written) (r : OpenRun) :
    mergeRuns slices r rest =
      ((mergedRuns slices r rest).filterMap OpenRun.cleared).map ClearedRange.call := by
  have hcons : ∀ (b : OpenRun) (more : List OpenRun),
      ((b :: more).filterMap OpenRun.cleared).map ClearedRange.call =
        b.close ++ (more.filterMap OpenRun.cleared).map ClearedRange.call := by
    intro b more
    rw [b.close_eq, List.filterMap_cons]
    cases b.cleared with
    | none => rfl
    | some c => rfl
  induction rest generalizing r with
  | nil =>
    rw [mergeRuns, mergedRuns, hcons]
    exact (List.append_nil _).symm
  | cons next rest ih =>
    rw [mergeRuns, mergedRuns]
    split
    · exact ih r
    · split
      · rw [hcons, ih]
      · exact ih _

/-- The calls of the clear pass are its resets. -/
theorem clearCalls_eq (slices : List Slice) (written : List Written) :
    clearCalls slices written = (clearedRanges slices written).map ClearedRange.call := by
  unfold clearCalls clearedRanges clearRuns
  cases written.insertionSort WrittenLE with
  | nil => rfl
  | cons first rest => exact mergeRuns_eq slices rest _

/-! ## What the loop keeps true of its runs -/

section Runs

variable {slices : List Slice}

/-- A run that is not empty and whose end is not cut. -/
structure OpenRun.Proper (slices : List Slice) (r : OpenRun) : Prop where
  slice : r.slice = sliceOf slices r.first
  nonempty : r.first < r.stop
  bound : r.stop < 2 ^ 64

theorem OpenRun.start_proper {w : Written} (h : PageRecord w) (hlt : w.stop < 2 ^ 64) :
    (OpenRun.start slices w).Proper slices := by
  have hpos := h.pos
  have hstop : (OpenRun.start slices w).stop = w.stop := add64_of_stop_lt hlt
  refine ⟨rfl, ?_, ?_⟩
  · rw [hstop, Written.stop]
    show w.gpa < _
    omega
  · rw [hstop]
    exact hlt

/-- A record the loop does not take for covered does not end at `2 ^ 64`. -/
theorem PageRecord.stop_lt_of_not_covered {w : Written} (h : PageRecord w) {stop : Nat}
    (hnot : ¬ add64 w.gpa w.pageSize ≤ stop) : w.stop < 2 ^ 64 := by
  rcases Nat.lt_or_ge w.stop (2 ^ 64) with hlt | hge
  · exact hlt
  · rw [add64_of_top (Nat.le_antisymm h.stop_le hge)] at hnot
    omega

/-- **Rule of the merge loop.**  What holds of the open run, of every run a record opens,
and of a run a record extends, holds of all runs the loop closes. -/
theorem mergedRuns_forall {P : OpenRun → Prop} {rest : List Written}
    (hstart : ∀ w ∈ rest, 0 < add64 w.gpa w.pageSize → P (OpenRun.start slices w))
    (hgrow : ∀ w ∈ rest, ∀ r : OpenRun, P r → r.stop < add64 w.gpa w.pageSize →
      w.gpa = r.stop → sliceOf slices w.gpa = r.slice →
        P { r with stop := add64 w.gpa w.pageSize })
    {r : OpenRun} (hr : P r) : ∀ b ∈ mergedRuns slices r rest, P b := by
  induction rest generalizing r with
  | nil =>
    intro b hb
    rw [mergedRuns, List.mem_singleton] at hb
    rw [hb]
    exact hr
  | cons next rest ih =>
    have hstart' := fun w hw => hstart w (List.mem_cons_of_mem next hw)
    have hgrow' := fun w hw => hgrow w (List.mem_cons_of_mem next hw)
    rw [mergedRuns]
    split
    · exact ih hstart' hgrow' hr
    · rename_i hnot
      have hlt := Nat.lt_of_not_le hnot
      split
      · intro b hb
        rcases List.mem_cons.mp hb with rfl | hb
        · exact hr
        · have hopen := hstart next List.mem_cons_self (Nat.zero_lt_of_lt hlt)
          exact ih hstart' hgrow' hopen b hb
      · rename_i hextend
        rw [not_or, not_not, not_not] at hextend
        exact ih hstart' hgrow'
          (hgrow next List.mem_cons_self r hr hlt hextend.1 hextend.2)

/-- From a proper run on, all runs are proper: the loop never opens or extends one with
a page that ends at `2 ^ 64`. -/
theorem mergedRuns_proper (rest : List Written) (hpages : ∀ w ∈ rest, PageRecord w)
    {r : OpenRun} (hr : r.Proper slices) : ∀ b ∈ mergedRuns slices r rest, b.Proper slices := by
  refine mergedRuns_forall ?_ ?_ hr
  · intro w hw hpos
    exact OpenRun.start_proper (hpages w hw)
      ((hpages w hw).stop_lt_of_not_covered (Nat.not_le_of_lt hpos))
  · intro w hw q hq hlt _ _
    have hstop := (hpages w hw).stop_lt_of_not_covered (Nat.not_le_of_lt hlt)
    rw [add64_of_stop_lt hstop] at hlt ⊢
    exact { slice := hq.slice, nonempty := Nat.lt_trans hq.nonempty hlt, bound := hstop }

/-- No run starts before all records. -/
theorem mergedRuns_first_ge {lo : Nat} (rest : List Written) (hrest : ∀ w ∈ rest, lo ≤ w.gpa)
    {r : OpenRun} (hr : lo ≤ r.first) : ∀ b ∈ mergedRuns slices r rest, lo ≤ b.first :=
  mergedRuns_forall (P := fun b => lo ≤ b.first) (fun w hw _ => hrest w hw)
    (fun _ _ _ hq _ _ _ => hq) hr

/-- The run that is open is closed with at least what it has. -/
theorem mergedRuns_open (slices : List Slice) (rest : List Written) (r : OpenRun) :
    ∃ b ∈ mergedRuns slices r rest, b.first = r.first ∧ b.slice = r.slice ∧ r.stop ≤ b.stop := by
  induction rest generalizing r with
  | nil => exact ⟨r, by simp [mergedRuns], rfl, rfl, Nat.le_refl _⟩
  | cons next rest ih =>
    rw [mergedRuns]
    split
    · exact ih r
    · rename_i hnot
      split
      · exact ⟨r, List.mem_cons_self, rfl, rfl, Nat.le_refl _⟩
      · obtain ⟨b, hb, hfirst, hslice, hstop⟩ :=
          ih { r with stop := add64 next.gpa next.pageSize }
        dsimp only at hfirst hslice hstop
        exact ⟨b, hb, hfirst, hslice, by omega⟩

/-- The records to come start in or behind the run, and lie inside it or past it. -/
def Ahead (r : OpenRun) (rest : List Written) : Prop :=
  ∀ w ∈ rest, r.first ≤ w.gpa ∧ (w.stop ≤ r.stop ∨ r.stop ≤ w.gpa)

/-- What the runs of the loop have to do with the open run and the records to come. -/
structure Merged (r : OpenRun) (rest : List Written) (runs : List OpenRun) : Prop where
  apart : runs.Pairwise fun a b => a.stop ≤ b.first
  sound : ∀ b ∈ runs, ∀ gpa, b.first ≤ gpa → gpa < b.stop →
    (r.first ≤ gpa ∧ gpa < r.stop) ∨ ∃ w ∈ rest, w.Holds gpa
  covers : ∀ w ∈ rest, ∃ b ∈ runs, b.first ≤ w.gpa ∧ w.stop ≤ b.stop

/-- A record inside the open run is covered when the run is closed. -/
theorem mergedRuns_covers_open {r : OpenRun} {w : Written} (hfirst : r.first ≤ w.gpa)
    (hstop : w.stop ≤ r.stop) (rest : List Written) :
    ∃ b ∈ mergedRuns slices r rest, b.first ≤ w.gpa ∧ w.stop ≤ b.stop := by
  obtain ⟨b, hb, hbfirst, _, hbstop⟩ := mergedRuns_open slices rest r
  exact ⟨b, hb, by omega, Nat.le_trans hstop hbstop⟩

section Merged

variable {r : OpenRun} {next : Written} {rest : List Written} {runs : List OpenRun}

/-- A record inside the open run changes nothing. -/
theorem Merged.skip (h : Merged r rest runs)
    (hcover : ∃ b ∈ runs, b.first ≤ next.gpa ∧ next.stop ≤ b.stop) :
    Merged r (next :: rest) runs := by
  refine ⟨h.apart, fun b hb gpa hlo hhi => ?_, List.forall_mem_cons.mpr ⟨hcover, h.covers⟩⟩
  rcases h.sound b hb gpa hlo hhi with hrun | ⟨w, hw, hholds⟩
  · exact .inl hrun
  · exact .inr ⟨w, List.mem_cons_of_mem _ hw, hholds⟩

/-- A record next to the open run makes it longer. -/
theorem Merged.extend (h : Merged { r with stop := next.stop } rest runs)
    (hadjacent : next.gpa = r.stop)
    (hcover : ∃ b ∈ runs, b.first ≤ next.gpa ∧ next.stop ≤ b.stop) :
    Merged r (next :: rest) runs := by
  refine ⟨h.apart, fun b hb gpa hlo hhi => ?_, List.forall_mem_cons.mpr ⟨hcover, h.covers⟩⟩
  rcases h.sound b hb gpa hlo hhi with ⟨hstart, hend⟩ | ⟨w, hw, hholds⟩
  · rcases Nat.lt_or_ge gpa r.stop with hold | hnew
    · exact .inl ⟨hstart, hold⟩
    · exact .inr ⟨next, List.mem_cons_self, by omega, hend⟩
  · exact .inr ⟨w, List.mem_cons_of_mem _ hw, hholds⟩

/-- A record past the open run closes it, and opens the one that follows. -/
theorem Merged.close {opened : OpenRun} (h : Merged opened rest runs)
    (hfirst : opened.first = next.gpa) (hstop : opened.stop = next.stop)
    (hpast : ∀ b ∈ runs, r.stop ≤ b.first)
    (hcover : ∃ b ∈ runs, b.first ≤ next.gpa ∧ next.stop ≤ b.stop) :
    Merged r (next :: rest) (r :: runs) := by
  refine ⟨List.pairwise_cons.mpr ⟨hpast, h.apart⟩, ?_, ?_⟩
  · intro b hb gpa hlo hhi
    rcases List.mem_cons.mp hb with rfl | hb
    · exact .inl ⟨hlo, hhi⟩
    · rcases h.sound b hb gpa hlo hhi with ⟨hstart, hend⟩ | ⟨w, hw, hholds⟩
      · rw [hfirst] at hstart
        rw [hstop] at hend
        exact .inr ⟨next, List.mem_cons_self, hstart, hend⟩
      · exact .inr ⟨w, List.mem_cons_of_mem _ hw, hholds⟩
  · have hcovers : ∀ w ∈ next :: rest, ∃ b ∈ runs, b.first ≤ w.gpa ∧ w.stop ≤ b.stop :=
      List.forall_mem_cons.mpr ⟨hcover, h.covers⟩
    intro w hw
    obtain ⟨b, hb, hin⟩ := hcovers w hw
    exact ⟨b, List.mem_cons_of_mem _ hb, hin⟩

end Merged

theorem merged_mergedRuns (rest : List Written) (hpages : ∀ w ∈ rest, PageRecord w)
    (hends : ∀ w ∈ rest, w.stop < 2 ^ 64) (hsorted : rest.Pairwise WrittenLE) {r : OpenRun}
    (hahead : Ahead r rest) : Merged r rest (mergedRuns slices r rest) := by
  induction rest generalizing r with
  | nil =>
    refine ⟨by simp [mergedRuns], ?_, by simp⟩
    intro b hb gpa hlo hhi
    rw [mergedRuns, List.mem_singleton] at hb
    subst hb
    exact .inl ⟨hlo, hhi⟩
  | cons next rest ih =>
    obtain ⟨hafter, hsorted⟩ := List.pairwise_cons.mp hsorted
    obtain ⟨hnext, hpages⟩ := List.forall_mem_cons.mp hpages
    obtain ⟨hlt, hends⟩ := List.forall_mem_cons.mp hends
    obtain ⟨⟨hfirst, hplace⟩, hahead⟩ := List.forall_mem_cons.mp hahead
    have hnested : ∀ w ∈ rest, w.stop ≤ next.stop ∨ next.stop ≤ w.gpa := fun w hw =>
      hnext.nested_or_past (hpages w hw) (hafter w hw)
    rw [mergedRuns, add64_of_stop_lt hlt]
    split
    · rename_i hinside
      exact (ih hpages hends hsorted hahead).skip (mergedRuns_covers_open hfirst hinside rest)
    · rename_i hnot
      have hpast : r.stop ≤ next.gpa := hplace.resolve_left hnot
      split
      · have hstop : (OpenRun.start slices next).stop = next.stop := add64_of_stop_lt hlt
        have hopened : Ahead (OpenRun.start slices next) rest := by
          intro w hw
          rw [hstop]
          exact ⟨gpa_le_of_writtenLE (hafter w hw), hnested w hw⟩
        refine (ih hpages hends hsorted hopened).close rfl hstop (fun b hb => ?_)
          (mergedRuns_covers_open (Nat.le_refl _) (Nat.le_of_eq hstop.symm) rest)
        exact Nat.le_trans hpast (mergedRuns_first_ge rest
          (fun w hw => gpa_le_of_writtenLE (hafter w hw)) (Nat.le_refl next.gpa) b hb)
      · rename_i hextend
        rw [not_or, not_not, not_not] at hextend
        have hgrown : Ahead { r with stop := next.stop } rest := fun w hw =>
          ⟨(hahead w hw).1, hnested w hw⟩
        exact (ih hpages hends hsorted hgrown).extend hextend.1
          (mergedRuns_covers_open (r := { r with stop := next.stop }) hfirst (Nat.le_refl _) rest)

/-- Records that lie in their slices are merged into runs that do. -/
theorem mergedRuns_inside (rest : List Written) (hwhole : ∀ w ∈ rest, Whole slices w)
    {r : OpenRun} (hr : ∃ sl, r.Inside slices sl) :
    ∀ b ∈ mergedRuns slices r rest, ∃ sl, b.Inside slices sl := by
  refine mergedRuns_forall ?_ ?_ hr
  · intro w hw _
    obtain ⟨sl, _, hstart⟩ := OpenRun.start_inside (hwhole w hw)
    exact ⟨sl, hstart⟩
  · rintro w hw q ⟨sl, hq⟩ hlt _ hslice
    rw [add64_of_lt (hwhole w hw).2.1] at hlt ⊢
    exact ⟨sl, hq.extend (hwhole w hw) hlt hslice⟩

/-- A run whose end is cut takes up every further page that ends at `2 ^ 64`. -/
theorem mergedRuns_of_top (rest : List Written) (htop : ∀ w ∈ rest, w.stop = 2 ^ 64)
    (r : OpenRun) : mergedRuns slices r rest = [r] := by
  induction rest with
  | nil => rfl
  | cons next rest ih =>
    rw [mergedRuns, add64_of_top (htop next List.mem_cons_self), if_pos (Nat.zero_le _)]
    exact ih fun w hw => htop w (List.mem_cons_of_mem _ hw)

/-- It does not take up a page that ends below: the run is closed there. -/
theorem mergedRuns_of_top_mixed (rest : List Written) (hpages : ∀ w ∈ rest, PageRecord w)
    (hgpas : ∀ w ∈ rest, 0 < w.gpa) {r : OpenRun} (hr : r.stop = 0)
    (hmixed : ∃ v ∈ rest, v.stop ≠ 2 ^ 64) :
    ∃ v ∈ rest, v.stop < 2 ^ 64 ∧ ∃ later, (∀ w ∈ later, w ∈ rest) ∧
      mergedRuns slices r rest = r :: mergedRuns slices (OpenRun.start slices v) later := by
  induction rest with
  | nil => simp at hmixed
  | cons next rest ih =>
    have hnext := hpages next List.mem_cons_self
    rcases Nat.lt_or_eq_of_le hnext.stop_le with hlt | htop
    · refine ⟨next, List.mem_cons_self, hlt, rest, fun w hw => List.mem_cons_of_mem _ hw, ?_⟩
      have hpos := hnext.pos
      have hstop : next.stop = next.gpa + next.pageSize := rfl
      have hgpa := hgpas next List.mem_cons_self
      rw [mergedRuns, add64_of_stop_lt hlt, hr, if_neg (by omega), if_pos (.inl (by omega))]
    · have hmixed' : ∃ v ∈ rest, v.stop ≠ 2 ^ 64 := by
        obtain ⟨v, hv, hne⟩ := hmixed
        rcases List.mem_cons.mp hv with rfl | hv
        · exact absurd htop hne
        · exact ⟨v, hv, hne⟩
      obtain ⟨v, hv, hlt, later, hlater, heq⟩ :=
        ih (fun w hw => hpages w (List.mem_cons_of_mem _ hw))
          (fun w hw => hgpas w (List.mem_cons_of_mem _ hw)) hmixed'
      refine ⟨v, List.mem_cons_of_mem _ hv, hlt, later,
        fun w hw => List.mem_cons_of_mem _ (hlater w hw), ?_⟩
      rw [mergedRuns, add64_of_top htop, if_pos (Nat.zero_le _), heq]

end Runs

/-! ## The pass as a whole -/

/-- The clear pass resets the recorded pages and nothing else, each range inside the one
slice that holds its first byte. -/
structure ClearsExactly (slices : List Slice) (written : List Written) : Prop where
  disjoint : (clearedRanges slices written).Pairwise fun a b => ∀ gpa, a.Holds gpa → ¬ b.Holds gpa
  exact : ∀ gpa, (∃ c ∈ clearedRanges slices written, c.Holds gpa) ↔ ∃ w ∈ written, w.Holds gpa
  inside : ∀ c ∈ clearedRanges slices written, sliceOf slices c.first = some c.slice ∧
    c.first + c.size ≤ c.slice.gpa + c.slice.len

/-- The page lies whole in the slice of its first byte. -/
def InSlice (slices : List Slice) (w : Written) : Prop :=
  ∃ sl, sliceOf slices w.gpa = some sl ∧ w.stop ≤ sl.gpa + sl.len

section Pass

variable {slices : List Slice} {written : List Written}

theorem PageRecord.holds_gpa {w : Written} (h : PageRecord w) : w.Holds w.gpa :=
  ⟨Nat.le_refl _, by have := h.pos; omega⟩

theorem OpenRun.Proper.cleared {b : OpenRun} (hb : b.Proper slices) {c : ClearedRange}
    (hc : b.cleared = some c) :
    c.first = b.first ∧ c.first + c.size = b.stop ∧ sliceOf slices c.first = some c.slice := by
  rw [OpenRun.cleared, Option.map_eq_some_iff] at hc
  obtain ⟨sl, hsl, rfl⟩ := hc
  have hnonempty := hb.nonempty
  have hsize := sub64_of_le (Nat.le_of_lt hnonempty) hb.bound
  refine ⟨rfl, ?_, ?_⟩
  · dsimp only
    omega
  · rw [← hb.slice, hsl]

/-- The sorted records, first one apart. -/
theorem exists_sorted (hne : written ≠ []) :
    ∃ first rest, written.insertionSort WrittenLE = first :: rest ∧
      (first :: rest).Pairwise WrittenLE ∧ ∀ w, w ∈ written ↔ w ∈ first :: rest := by
  have hmem : ∀ w, w ∈ written ↔ w ∈ written.insertionSort WrittenLE := fun w =>
    (List.mem_insertionSort WrittenLE).symm
  have hsorted := List.pairwise_insertionSort WrittenLE written
  cases hlist : written.insertionSort WrittenLE with
  | nil =>
    obtain ⟨w, hw⟩ := List.exists_mem_of_ne_nil written hne
    rw [hmem, hlist] at hw
    simp at hw
  | cons first rest =>
    rw [hlist] at hsorted hmem
    exact ⟨first, rest, rfl, hsorted, hmem⟩

/-- What the runs of the pass are when no page ends at `2 ^ 64`. -/
structure RunsOf (slices : List Slice) (written : List Written) : Prop where
  proper : ∀ b ∈ clearRuns slices written, b.Proper slices
  apart : (clearRuns slices written).Pairwise fun a b => a.stop ≤ b.first
  sound : ∀ b ∈ clearRuns slices written, ∀ gpa, b.first ≤ gpa → gpa < b.stop →
    ∃ w ∈ written, w.Holds gpa
  covers : ∀ w ∈ written, ∃ b ∈ clearRuns slices written, b.first ≤ w.gpa ∧ w.stop ≤ b.stop

theorem runsOf_clearRuns (hpages : ∀ w ∈ written, PageRecord w)
    (hends : ∀ w ∈ written, w.stop < 2 ^ 64) : RunsOf slices written := by
  rcases eq_or_ne written [] with rfl | hne
  · have hnil : clearRuns slices [] = [] := rfl
    refine ⟨?_, ?_, ?_, ?_⟩ <;> simp [hnil]
  · obtain ⟨first, rest, hlist, hsorted, hmem⟩ := exists_sorted hne
    obtain ⟨hafter, hsorted⟩ := List.pairwise_cons.mp hsorted
    have hfirst : first ∈ written := (hmem first).mpr List.mem_cons_self
    have hrest : ∀ w ∈ rest, w ∈ written := fun w hw => (hmem w).mpr (List.mem_cons_of_mem _ hw)
    have hruns : clearRuns slices written =
        mergedRuns slices (OpenRun.start slices first) rest := by
      rw [clearRuns, hlist]
    have hstop : (OpenRun.start slices first).stop = first.stop :=
      add64_of_stop_lt (hends first hfirst)
    have hahead : Ahead (OpenRun.start slices first) rest := by
      intro w hw
      rw [hstop]
      exact ⟨gpa_le_of_writtenLE (hafter w hw), (hpages first hfirst).nested_or_past
        (hpages w (hrest w hw)) (hafter w hw)⟩
    have hmerged : Merged _ rest (mergedRuns slices (OpenRun.start slices first) rest) :=
      merged_mergedRuns rest (fun w hw => hpages w (hrest w hw))
        (fun w hw => hends w (hrest w hw)) hsorted hahead
    refine ⟨?_, ?_, ?_, ?_⟩
    · rw [hruns]
      exact mergedRuns_proper rest (fun w hw => hpages w (hrest w hw))
        (OpenRun.start_proper (hpages first hfirst) (hends first hfirst))
    · rw [hruns]
      exact hmerged.apart
    · intro b hb gpa hlo hhi
      rw [hruns] at hb
      rcases hmerged.sound b hb gpa hlo hhi with ⟨hstart, hend⟩ | ⟨w, hw, hholds⟩
      · rw [hstop] at hend
        exact ⟨first, hfirst, hstart, hend⟩
      · exact ⟨w, hrest w hw, hholds⟩
    · intro w hw
      rw [hruns]
      rcases List.mem_cons.mp ((hmem w).mp hw) with rfl | hw
      · exact mergedRuns_covers_open (Nat.le_refl _) (Nat.le_of_eq hstop.symm) rest
      · exact hmerged.covers w hw

/-- Two runs of the pass that hold one address are one run. -/
theorem RunsOf.unique (h : RunsOf slices written) {a b : OpenRun}
    (ha : a ∈ clearRuns slices written) (hb : b ∈ clearRuns slices written) {gpa : Nat}
    (halo : a.first ≤ gpa) (hahi : gpa < a.stop) (hblo : b.first ≤ gpa) (hbhi : gpa < b.stop) :
    a = b := by
  by_contra hne
  have hall := List.Pairwise.forall_of_forall_of_flip
    (R := fun x y : OpenRun => x ≠ y → x.stop ≤ y.first ∨ y.stop ≤ x.first)
    (fun _ _ h => absurd rfl h) (h.apart.imp fun h _ => Or.inl h)
    (h.apart.imp fun h _ => Or.inr h)
  have hsep := hall ha hb hne
  omega

theorem mem_clearedRanges {c : ClearedRange} :
    c ∈ clearedRanges slices written ↔ ∃ b ∈ clearRuns slices written, b.cleared = some c :=
  List.mem_filterMap

/-- In a disjoint table the slice that holds an address is the one that is found. -/
theorem sliceOf_eq_of_mem (hdisjoint : Disjoint slices) {sl : Slice} (hsl : sl ∈ slices)
    {gpa : Nat} (hlo : sl.gpa ≤ gpa) (hhi : gpa < sl.gpa + sl.len) :
    sliceOf slices gpa = some sl := by
  have hholds : sl.holds gpa = true := (sl.holds_iff gpa).mpr ⟨hlo, hhi⟩
  cases hfound : sliceOf slices gpa with
  | none => exact absurd hholds (List.find?_eq_none.mp hfound sl hsl)
  | some other =>
    obtain ⟨hmem, hlo', hhi'⟩ := sliceOf_spec hfound
    have hsame := hdisjoint other hmem sl hsl gpa ((other.holds_iff gpa).mpr ⟨hlo', hhi'⟩) hholds
    rw [hsame]

/-- A range inside its slice has the slice of every page in it. -/
theorem inSlice_of_range (hdisjoint : Disjoint slices) {c : ClearedRange} {w : Written}
    (hslice : sliceOf slices c.first = some c.slice)
    (hinside : c.first + c.size ≤ c.slice.gpa + c.slice.len) (hw : PageRecord w)
    (hlo : c.first ≤ w.gpa) (hhi : w.stop ≤ c.first + c.size) : InSlice slices w := by
  obtain ⟨hmem, hstart, _⟩ := sliceOf_spec hslice
  have hpos := hw.pos
  unfold Written.stop at hhi
  refine ⟨c.slice, sliceOf_eq_of_mem hdisjoint hmem (by omega) (by omega), ?_⟩
  unfold Written.stop
  omega

/-- Where every page lies in its slice, so does every run. -/
theorem clearRuns_inside (hwhole : ∀ w ∈ written, Whole slices w) :
    ∀ b ∈ clearRuns slices written, ∃ sl, b.Inside slices sl := by
  rcases eq_or_ne written [] with rfl | hne
  · have hnil : clearRuns slices [] = [] := rfl
    simp [hnil]
  · obtain ⟨first, rest, hlist, _, hmem⟩ := exists_sorted hne
    obtain ⟨sl, _, hstart⟩ := OpenRun.start_inside
      (hwhole first ((hmem first).mpr List.mem_cons_self))
    rw [clearRuns, hlist]
    exact mergedRuns_inside rest
      (fun w hw => hwhole w ((hmem w).mpr (List.mem_cons_of_mem _ hw))) ⟨sl, hstart⟩

/-- What a run inside a slice resets is the run, in that slice. -/
theorem OpenRun.Inside.cleared {b : OpenRun} {sl : Slice} (h : b.Inside slices sl) :
    ∃ c, b.cleared = some c ∧ c.slice = sl := by
  refine ⟨_, by rw [OpenRun.cleared, h.slice]; rfl, rfl⟩

/-- An exact pass has every page in its slice. -/
theorem RunsOf.inSlice (hruns : RunsOf slices written) (hdisjoint : Disjoint slices)
    (hpages : ∀ w ∈ written, PageRecord w) (h : ClearsExactly slices written) :
    ∀ w ∈ written, InSlice slices w := by
  intro w hw
  obtain ⟨b, hb, hblo, hbhi⟩ := hruns.covers w hw
  have hpos := (hpages w hw).pos
  have hstop : w.stop = w.gpa + w.pageSize := rfl
  obtain ⟨c, hc, hclo, hchi⟩ := (h.exact w.gpa).mpr ⟨w, hw, (hpages w hw).holds_gpa⟩
  obtain ⟨b', hb', hcleared⟩ := mem_clearedRanges.mp hc
  obtain ⟨hfirst, hend, hslice⟩ := (hruns.proper b' hb').cleared hcleared
  -- the range that resets the page's first byte comes from the run that holds the page
  have hsame : b = b' := hruns.unique hb hb' hblo (by omega) (by omega) (by omega)
  subst hsame
  exact inSlice_of_range hdisjoint hslice (h.inside c hc).2 (hpages w hw) hclo (by omega)

/-- Runs that lie in slices are reset exactly. -/
theorem RunsOf.clearsExactly (hruns : RunsOf slices written)
    (hinside : ∀ b ∈ clearRuns slices written, ∃ sl, b.Inside slices sl) :
    ClearsExactly slices written := by
  refine ⟨?_, fun gpa => ⟨?_, ?_⟩, ?_⟩
  · rw [clearedRanges, List.pairwise_filterMap]
    refine hruns.apart.imp_of_mem ?_
    intro a b ha hb hapart c hc c' hc' gpa hholds hholds'
    obtain ⟨hfirst, hend, _⟩ := (hruns.proper a ha).cleared hc
    obtain ⟨hfirst', hend', _⟩ := (hruns.proper b hb).cleared hc'
    obtain ⟨_, hlt⟩ := hholds
    obtain ⟨hge, _⟩ := hholds'
    omega
  · rintro ⟨c, hc, hlo, hhi⟩
    obtain ⟨b, hb, hbc⟩ := mem_clearedRanges.mp hc
    obtain ⟨hfirst, hend, _⟩ := (hruns.proper b hb).cleared hbc
    exact hruns.sound b hb gpa (by omega) (by omega)
  · rintro ⟨w, hw, hlo, hhi⟩
    obtain ⟨b, hb, hblo, hbhi⟩ := hruns.covers w hw
    obtain ⟨sl, hsl⟩ := hinside b hb
    obtain ⟨c, hc, -⟩ := hsl.cleared
    obtain ⟨hfirst, hend, _⟩ := (hruns.proper b hb).cleared hc
    unfold Written.stop at hbhi
    exact ⟨c, mem_clearedRanges.mpr ⟨b, hb, hc⟩, by omega, by omega⟩
  · intro c hc
    obtain ⟨b, hb, hbc⟩ := mem_clearedRanges.mp hc
    obtain ⟨hfirst, hend, hslice⟩ := (hruns.proper b hb).cleared hbc
    obtain ⟨sl, hsl⟩ := hinside b hb
    obtain ⟨c', hc', hslice'⟩ := hsl.cleared
    obtain rfl : c = c' := Option.some.inj (hbc.symm.trans hc')
    have hstop := hsl.stop
    refine ⟨hslice, ?_⟩
    rw [hslice']
    omega

/-- Below the top of the address space the pass is exact when every page lies in its
slice. -/
theorem clearsExactly_iff_of_below (hdisjoint : Disjoint slices)
    (hpages : ∀ w ∈ written, PageRecord w) (hends : ∀ w ∈ written, w.stop < 2 ^ 64) :
    ClearsExactly slices written ↔ ∀ w ∈ written, InSlice slices w := by
  have hruns : RunsOf slices written := runsOf_clearRuns hpages hends
  constructor
  · exact hruns.inSlice hdisjoint hpages
  · intro h
    exact hruns.clearsExactly (clearRuns_inside fun w hw =>
      ⟨(hpages w hw).pos, hends w hw, h w hw⟩)

/-- What a run opened by a page that ends at `2 ^ 64` resets while its end is 0. -/
theorem cleared_start_of_top {w : Written} (h : PageRecord w) (htop : w.stop = 2 ^ 64)
    {c : ClearedRange} (hc : (OpenRun.start slices w).cleared = some c) :
    c.first = w.gpa ∧ c.first + c.size = 2 ^ 64 ∧ sliceOf slices c.first = some c.slice := by
  rw [OpenRun.cleared, Option.map_eq_some_iff] at hc
  obtain ⟨sl, hsl, rfl⟩ := hc
  have hgpa := h.gpa_pos htop
  have hbound := h.bound
  refine ⟨rfl, ?_, hsl⟩
  show w.gpa + sub64 (add64 w.gpa w.pageSize) w.gpa = 2 ^ 64
  rw [add64_of_top htop, sub64, Nat.zero_add, Nat.mod_eq_of_lt (by omega)]
  omega

/-- When every page ends at `2 ^ 64`, one range resets them all. -/
theorem clearsExactly_iff_of_top (hdisjoint : Disjoint slices)
    (hpages : ∀ w ∈ written, PageRecord w) (htop : ∀ w ∈ written, w.stop = 2 ^ 64)
    (hne : written ≠ []) : ClearsExactly slices written ↔ ∀ w ∈ written, InSlice slices w := by
  obtain ⟨first, rest, hlist, hsorted, hmem⟩ := exists_sorted hne
  have hfirst : first ∈ written := (hmem first).mpr List.mem_cons_self
  have hafter : ∀ w ∈ written, first.gpa ≤ w.gpa := by
    intro w hw
    rcases List.mem_cons.mp ((hmem w).mp hw) with rfl | hw
    · exact Nat.le_refl _
    · exact gpa_le_of_writtenLE ((List.pairwise_cons.mp hsorted).1 w hw)
  have hranges : clearedRanges slices written =
      (OpenRun.start slices first).cleared.toList := by
    rw [clearedRanges, clearRuns, hlist]
    dsimp only
    rw [mergedRuns_of_top rest fun w hw => htop w ((hmem w).mpr (List.mem_cons_of_mem _ hw))]
    cases hcleared : (OpenRun.start slices first).cleared with
    | none => simp [hcleared]
    | some c => simp [hcleared]
  have hrange : ∀ c, c ∈ clearedRanges slices written ↔
      (OpenRun.start slices first).cleared = some c := by
    intro c
    rw [hranges, Option.mem_toList]
  constructor
  · intro h w hw
    obtain ⟨c, hc, _⟩ := (h.exact first.gpa).mpr ⟨first, hfirst, (hpages first hfirst).holds_gpa⟩
    obtain ⟨hcfirst, hend, hslice⟩ :=
      cleared_start_of_top (hpages first hfirst) (htop first hfirst) ((hrange c).mp hc)
    refine inSlice_of_range hdisjoint hslice (h.inside c hc).2 (hpages w hw) ?_ ?_
    · rw [hcfirst]
      exact hafter w hw
    · rw [hend]
      exact Nat.le_of_eq (htop w hw)
  · intro h
    obtain ⟨sl, hsl, hinside⟩ := h first hfirst
    have hcleared : ∃ c, (OpenRun.start slices first).cleared = some c ∧ c.slice = sl :=
      ⟨_, congrArg (Option.map _) hsl, rfl⟩
    obtain ⟨c, hc, hcslice⟩ := hcleared
    obtain ⟨hcfirst, hend, hslice⟩ :=
      cleared_start_of_top (hpages first hfirst) (htop first hfirst) hc
    refine ⟨?_, ?_, ?_⟩
    · rw [hranges, hc]
      exact List.pairwise_singleton _ _
    · intro gpa
      constructor
      · rintro ⟨c', hc', hlo, hhi⟩
        rw [hrange, hc] at hc'
        cases hc'
        refine ⟨first, hfirst, by omega, ?_⟩
        have hstop : first.gpa + first.pageSize = 2 ^ 64 := htop first hfirst
        omega
      · rintro ⟨w, hw, hlo, hhi⟩
        have hstop : w.gpa + w.pageSize = 2 ^ 64 := htop w hw
        have hge := hafter w hw
        exact ⟨c, (hrange c).mpr hc, by omega, by omega⟩
    · intro c' hc'
      rw [hrange, hc] at hc'
      cases hc'
      refine ⟨hslice, ?_⟩
      rw [hend, hcslice, ← htop first hfirst]
      exact hinside

/-- Some range resets the last byte of the address space; its run does not end in it. -/
theorem ClearsExactly.improper_run (h : ClearsExactly slices written)
    (hpages : ∀ w ∈ written, PageRecord w) {top : Written} (htop : top ∈ written)
    (hstop : top.stop = 2 ^ 64) :
    ∃ b ∈ clearRuns slices written, ∃ c ∈ clearedRanges slices written,
      b.cleared = some c ∧ ¬ b.Proper slices := by
  have htopHolds : top.Holds (2 ^ 64 - 1) := by
    have hpos := (hpages top htop).pos
    have hsum : top.gpa + top.pageSize = 2 ^ 64 := hstop
    exact ⟨by omega, by omega⟩
  obtain ⟨c, hc, _, hlast⟩ := (h.exact (2 ^ 64 - 1)).mpr ⟨top, htop, htopHolds⟩
  obtain ⟨b, hb, hbc⟩ := mem_clearedRanges.mp hc
  refine ⟨b, hb, c, hc, hbc, fun hproper => ?_⟩
  obtain ⟨_, hend, _⟩ := hproper.cleared hbc
  have hbound := hproper.bound
  omega

/-- A page that ends at `2 ^ 64` next to one that does not is never reset exactly. -/
theorem not_clearsExactly_of_mixed (hdisjoint : Disjoint slices)
    (hpages : ∀ w ∈ written, PageRecord w) {top : Written} (htop : top ∈ written)
    (hstop : top.stop = 2 ^ 64) (hmixed : ∃ v ∈ written, v.stop ≠ 2 ^ 64) :
    ¬ ClearsExactly slices written := by
  intro h
  obtain ⟨first, rest, hlist, hsorted, hmem⟩ := exists_sorted (List.ne_nil_of_mem htop)
  obtain ⟨hafter, _⟩ := List.pairwise_cons.mp hsorted
  have hfirst := hpages first ((hmem first).mpr List.mem_cons_self)
  have hrest : ∀ w ∈ rest, PageRecord w := fun w hw =>
    hpages w ((hmem w).mpr (List.mem_cons_of_mem _ hw))
  have hruns : clearRuns slices written =
      mergedRuns slices (OpenRun.start slices first) rest := by
    rw [clearRuns, hlist]
  obtain ⟨b, hb, c, hc, hbc, hnotProper⟩ := h.improper_run hpages htop hstop
  rw [hruns] at hb
  rcases Nat.lt_or_eq_of_le hfirst.stop_le with hlt | hfirstTop
  · exact hnotProper (mergedRuns_proper rest hrest (OpenRun.start_proper hfirst hlt) b hb)
  · -- the first run is that range, and a second one starts inside it
    have hgpas : ∀ w ∈ rest, 0 < w.gpa := fun w hw =>
      Nat.lt_of_lt_of_le (hfirst.gpa_pos hfirstTop) (gpa_le_of_writtenLE (hafter w hw))
    have hmixed' : ∃ v ∈ rest, v.stop ≠ 2 ^ 64 := by
      obtain ⟨v, hv, hne⟩ := hmixed
      rcases List.mem_cons.mp ((hmem v).mp hv) with rfl | hv
      · exact absurd hfirstTop hne
      · exact ⟨v, hv, hne⟩
    have hopen : (OpenRun.start slices first).stop = 0 := add64_of_top hfirstTop
    obtain ⟨v, hv, hvlt, later, hlater, heq⟩ :=
      mergedRuns_of_top_mixed rest hrest hgpas hopen hmixed'
    have hproper : ∀ b ∈ mergedRuns slices (OpenRun.start slices v) later, b.Proper slices :=
      mergedRuns_proper later (fun w hw => hrest w (hlater w hw))
        (OpenRun.start_proper (hrest v hv) hvlt)
    rw [heq] at hb
    rcases List.mem_cons.mp hb with rfl | hb
    · obtain ⟨hcfirst, hend, hslice⟩ := cleared_start_of_top hfirst hfirstTop hbc
      obtain ⟨b', hb', hb'first, hb'slice, _⟩ :=
        mergedRuns_open slices later (OpenRun.start slices v)
      -- the slice of the first range holds the second run's first byte
      obtain ⟨sl, hsl, _⟩ : InSlice slices v :=
        inSlice_of_range hdisjoint hslice (h.inside c hc).2 (hrest v hv)
          (by rw [hcfirst]; exact gpa_le_of_writtenLE (hafter v hv)) (by omega)
      have hb'cleared : b'.cleared = some ⟨sl, b'.first, sub64 b'.stop b'.first⟩ := by
        rw [OpenRun.cleared, hb'slice]
        exact congrArg (Option.map _) hsl
      obtain ⟨_, hb'end, _⟩ := (hproper b' hb').cleared hb'cleared
      have hb'nonempty := (hproper b' hb').nonempty
      have hdisjointRanges := h.disjoint
      rw [clearedRanges, hruns, heq, List.filterMap_cons_some hbc, List.pairwise_cons]
        at hdisjointRanges
      have hge : first.gpa ≤ v.gpa := gpa_le_of_writtenLE (hafter v hv)
      have hfirst' : b'.first = v.gpa := hb'first
      have hbound := (hrest v hv).bound
      exact hdisjointRanges.1 _ (List.mem_filterMap.mpr ⟨b', hb', hb'cleared⟩) v.gpa
        ⟨by omega, by omega⟩ ⟨by dsimp only; omega, by dsimp only at hb'end ⊢; omega⟩
    · exact hnotProper (hproper b hb)

/-- Pages in their slices, none of which or all of which end at `2 ^ 64`, are reset
exactly. -/
theorem clearsExactly_of_inSlice (hdisjoint : Disjoint slices)
    (hpages : ∀ w ∈ written, PageRecord w) (hinside : ∀ w ∈ written, InSlice slices w)
    (hends : (∀ w ∈ written, w.stop ≠ 2 ^ 64) ∨ ∀ w ∈ written, w.stop = 2 ^ 64) :
    ClearsExactly slices written := by
  have hbelow (hnone : ∀ w ∈ written, w.stop ≠ 2 ^ 64) : ClearsExactly slices written :=
    (clearsExactly_iff_of_below hdisjoint hpages fun w hw =>
      Nat.lt_of_le_of_ne (hpages w hw).stop_le (hnone w hw)).2 hinside
  rcases hends with hnone | hall
  · exact hbelow hnone
  · rcases eq_or_ne written [] with rfl | hne
    · exact hbelow fun w hw => absurd hw List.not_mem_nil
    · exact (clearsExactly_iff_of_top hdisjoint hpages hall hne).2 hinside

/-- An exact pass leaves no target page of a record set. -/
theorem ClearsExactly.clearPass_eq_false {m : Machine} (h : ClearsExactly slices written)
    (hdisjoint : Disjoint slices) {w : Written} (hw : w ∈ written) {sl : Slice}
    (hsl : sliceOf slices w.gpa = some sl) (hend : w.stop ≤ sl.gpa + sl.len)
    (haddr : sl.ramAddr = sl.mr.ramAddr + sl.offset) (hbase : m.targetPage ∣ sl.ramOf w.gpa)
    (bitmap : Bitmap) {page : Nat} (hlo : sl.ramOf w.gpa / m.targetPage ≤ page)
    (hhi : page < (sl.ramOf w.gpa + w.pageSize) / m.targetPage) :
    clearPass m slices written bitmap page = false := by
  have hpos := m.targetPage_pos
  have hfirst : sl.ramOf w.gpa ≤ page * m.targetPage := by
    rw [← Nat.div_mul_cancel hbase]
    exact Nat.mul_le_mul_right _ hlo
  have hlast : page * m.targetPage < sl.ramOf w.gpa + w.pageSize := by
    have hle := Nat.mul_le_mul_right m.targetPage (Nat.succ_le_of_lt hhi)
    have hcut := Nat.div_mul_le_self (sl.ramOf w.gpa + w.pageSize) m.targetPage
    rw [Nat.succ_mul] at hle
    omega
  obtain ⟨hslMem, hslLo, -⟩ := sliceOf_spec hsl
  unfold Slice.ramOf at hfirst hlast
  unfold Written.stop at hend
  -- the guest-physical address of the target page is in the record, hence in a reset range
  obtain ⟨gpa, hgpa⟩ : ∃ gpa, gpa = w.gpa + (page * m.targetPage - sl.ramOf w.gpa) := ⟨_, rfl⟩
  unfold Slice.ramOf at hgpa
  obtain ⟨c, hc, hclo, hchi⟩ := (h.exact gpa).mpr ⟨w, hw, by omega, by omega⟩
  obtain ⟨hslice, hinside⟩ := h.inside c hc
  obtain ⟨hcMem, hcLo, -⟩ := sliceOf_spec hslice
  have hcAt : sliceOf slices gpa = some c.slice :=
    sliceOf_eq_of_mem hdisjoint hcMem (by omega) (by omega)
  have hslAt : sliceOf slices gpa = some sl :=
    sliceOf_eq_of_mem hdisjoint hslMem (by omega) (by omega)
  have hsame : c.slice = sl := Option.some.inj (hcAt.symm.trans hslAt)
  rw [hsame] at hcLo hinside
  have hcovers : c.call.Covers m page := by
    unfold ClearedRange.call ClearCall.Covers
    dsimp only
    rw [hsame]
    refine ⟨by omega, ?_, ?_⟩
    · rw [← Nat.mul_div_cancel page hpos]
      exact Nat.div_le_div_right (by omega)
    · rw [Nat.lt_iff_add_one_le, Nat.le_div_iff_mul_le hpos, Nat.succ_mul]
      omega
  have hmem : c.call ∈ clearCalls slices written := by
    rw [clearCalls_eq]
    exact List.mem_map_of_mem hc
  have hany : (clearCalls slices written).any (fun c => decide (c.Covers m page)) = true :=
    List.any_eq_true.mpr ⟨_, hmem, decide_eq_true hcovers⟩
  unfold clearPass applyClears
  rw [hany, Bool.not_true, Bool.and_false]

end Pass

/-- **The clear pass.**  For every flat view and every list of page records: the calls
reset exactly the recorded pages, in disjoint ranges inside single flat ranges, if and
only if every page lies in the RAM range of its first byte and either no page or every
page ends at `2 ^ 64`. -/
theorem clear_pass_exact_iff (m : Machine) (view : FlatView) (logged : List MemoryRegion)
    (pages : List (GuestPage m)) :
    (clearCalls (viewSlices view logged) (pages.map GuestPage.record) =
        (clearedRanges (viewSlices view logged) (pages.map GuestPage.record)).map
          ClearedRange.call ∧
      ClearsExactly (viewSlices view logged) (pages.map GuestPage.record)) ↔
    (∀ page ∈ pages, InSlice (viewSlices view logged) page.record) ∧
      ((∀ page ∈ pages, page.record.stop ≠ 2 ^ 64) ∨
        ∀ page ∈ pages, page.record.stop = 2 ^ 64) := by
  have hdisjoint := viewSlices_disjoint view logged
  have hpages : ∀ w ∈ pages.map GuestPage.record, PageRecord w := by
    intro w hw
    obtain ⟨page, _, rfl⟩ := List.mem_map.mp hw
    exact page.pageRecord
  rw [and_iff_right (clearCalls_eq _ _)]
  by_cases hsome : ∃ page ∈ pages, page.record.stop = 2 ^ 64
  · obtain ⟨top, htop, hstop⟩ := hsome
    have htopMem : top.record ∈ pages.map GuestPage.record := List.mem_map_of_mem htop
    by_cases hall : ∀ page ∈ pages, page.record.stop = 2 ^ 64
    · rw [clearsExactly_iff_of_top hdisjoint hpages (by simpa using hall)
        (List.ne_nil_of_mem htopMem), List.forall_mem_map]
      exact ⟨fun h => ⟨h, .inr hall⟩, fun h => h.1⟩
    · constructor
      · intro h
        refine absurd h (not_clearsExactly_of_mixed hdisjoint hpages htopMem hstop ?_)
        simpa using hall
      · rintro ⟨-, hnone | hall'⟩
        · exact absurd hstop (hnone top htop)
        · exact absurd hall' hall
  · have hnone : ∀ page ∈ pages, page.record.stop ≠ 2 ^ 64 := by simpa using hsome
    have hends : ∀ w ∈ pages.map GuestPage.record, w.stop < 2 ^ 64 := by
      intro w hw
      obtain ⟨page, hpage, rfl⟩ := List.mem_map.mp hw
      exact Nat.lt_of_le_of_ne page.pageRecord.stop_le (hnone page hpage)
    rw [clearsExactly_iff_of_below hdisjoint hpages hends, List.forall_mem_map]
    exact ⟨fun h => ⟨h, .inl hnone⟩, fun h => h.1⟩

/-! ## The two kinds of pages that break the pass -/

/-- 24 KiB of RAM at address 0. -/
def tailRam : MemoryRegion := { id := 0, ram := true, ramAddr := 0, ramPtr := 0 }

def tailView : FlatView where
  ranges := [⟨0, 0x6000, tailRam, 0, false⟩]
  nonempty := by decide
  ascending := by simp
  bounded := by decide

/-- A 16 KiB page that starts 8 KiB before the end of that RAM. -/
def tailPage : GuestPage smallMachine where
  gpa := 0x4000
  pageSize := 0x4000
  powerOfTwo := by decide
  target := by decide
  aligned := by decide

/-- The last 16 KiB of the address space. -/
def topView : FlatView where
  ranges := [⟨2 ^ 64 - 0x4000, 0x4000, tailRam, 0, false⟩]
  nonempty := by decide
  ascending := by simp
  bounded := by decide

/-- A 4 KiB page in the middle of them. -/
def middlePage : GuestPage smallMachine where
  gpa := 0xffffffffffffd000
  pageSize := 0x1000
  powerOfTwo := by decide
  target := by decide
  aligned := by decide

/-- The last 4 KiB of the address space. -/
def topPage : GuestPage smallMachine where
  gpa := 0xfffffffffffff000
  pageSize := 0x1000
  powerOfTwo := by decide
  target := by decide
  aligned := by decide

/-- The reset of the one page runs 8 KiB past its RAM, and the topmost page stays set
behind another one. -/
theorem clear_pass_overruns_and_misses :
    ¬ ClearsExactly (viewSlices tailView [tailRam]) ([tailPage].map GuestPage.record) ∧
      ¬ ClearsExactly (viewSlices topView [tailRam])
        ([middlePage, topPage].map GuestPage.record) := by
  constructor
  · intro h
    have hranges : clearedRanges (viewSlices tailView [tailRam]) [tailPage.record] =
        [{ slice := ⟨tailRam, 0, 0x6000, 0, 0, true, false⟩, first := 0x4000
           size := 0x4000 }] := by
      decide
    have hinside := h.inside
    rw [List.map_singleton, hranges] at hinside
    exact absurd (hinside _ List.mem_cons_self).2 (by decide)
  · have htop : topPage.record ∈ [middlePage, topPage].map GuestPage.record := by simp
    refine not_clearsExactly_of_mixed (viewSlices_disjoint _ _) ?_ htop (by decide)
      ⟨middlePage.record, by simp, by decide⟩
    intro w hw
    obtain ⟨page, _, rfl⟩ := List.mem_map.mp hw
    exact page.pageRecord

end Orchard.Dirty
