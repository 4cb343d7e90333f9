/-
  GuestRam/Regions.lean --- `guest_ram_regions` of the display shim.

  `reims_vgpu_shim_guest_ram_regions` tells the device where guest RAM lives in this
  process.  It walks the flat view with one open span, joins a range onto it when the
  range continues it in both address spaces, and counts every span, also those the
  caller's array has no room for.  Other ranges interrupt a run.

  The walk is given the region of a range and not the flag the range was rendered with, so
  it takes a read-only alias of writable RAM for writable RAM.
-/
import Orchard.Foundation.Coalesce
import Orchard.Memory.FlatView

set_option autoImplicit false

namespace Orchard.GuestRam

open Orchard.Foundation Orchard.Memory

/-! ## Regions -/

/-- The flags of a `MemoryRegion` the walk asks about, besides `mr->ram`. -/
structure RegionFlags where
  readonly : Bool
  romDevice : Bool
  romdMode : Bool
  ramDevice : Bool
  deriving DecidableEq, Repr

/-- `memory_region_is_romd`. -/
def RegionFlags.isRomd (flags : RegionFlags) : Bool :=
  flags.romDevice && flags.romdMode

/-- `ReimsVgpuGuestRamRegion`: one span of guest RAM. -/
structure GuestRamRegion where
  gpaBase : Nat
  hostVa : Nat
  len : Nat
  deriving DecidableEq, Repr

/-- `REIMS_VGPU_GUEST_RAM_ERR_ARGS`. -/
def errArgs : Int := -1

/-- `REIMS_VGPU_GUEST_RAM_ERR_NO_RAM`. -/
def errNoRam : Int := -2

/-! ## The walk -/

/-- `ReimsVgpuRamScan`.  `out` is the caller's array, by index. -/
structure RamScan where
  out : Nat → GuestRamRegion
  max : Nat
  found : Nat
  pending : Bool
  gpa : Nat
  hva : Nat
  len : Nat

/-- `reims_vgpu_ram_scan_flush`. -/
def ramScanFlush (scan : RamScan) : RamScan :=
  if scan.pending then
    { scan with
      out := if scan.found < scan.max then
          Function.update scan.out scan.found ⟨scan.gpa, scan.hva, scan.len⟩
        else scan.out
      found := scan.found + 1
      pending := false }
  else scan

/-- `reims_vgpu_ram_scan_range`.  It answers `false` on every path, so the walk never
stops early. -/
def ramScanRange (flags : MemoryRegion → RegionFlags) (scan : RamScan) (r : FlatRange) :
    RamScan :=
  let mr := r.mr
  if !mr.ram || (flags mr).readonly || (flags mr).isRomd || (flags mr).ramDevice then
    ramScanFlush scan
  -- the high halves of the two `Int128`
  else if r.start / 2 ^ 64 ≠ 0 ∨ r.len / 2 ^ 64 ≠ 0 then ramScanFlush scan
  else
    let gpa := r.start % 2 ^ 64
    let bytes := r.len % 2 ^ 64
    if bytes = 0 then scan
    else if mr.ramPtr = 0 then ramScanFlush scan
    else
      let hva := (mr.ramPtr + r.offsetInRegion) % 2 ^ 64
      if scan.pending ∧ (scan.gpa + scan.len) % 2 ^ 64 = gpa ∧
          (scan.hva + scan.len) % 2 ^ 64 = hva ∧ scan.len ≤ 2 ^ 64 - 1 - bytes then
        { scan with len := (scan.len + bytes) % 2 ^ 64 }
      else
        { ramScanFlush scan with pending := true, gpa := gpa, hva := hva, len := bytes }

/-- `reims_vgpu_shim_guest_ram_regions`: what it returns and what it leaves in the array.
The array is `none` when the caller passes no pointer. -/
def guestRamRegions (flags : MemoryRegion → RegionFlags) (view : FlatView)
    (out : Option (Nat → GuestRamRegion)) (max : Nat) : Int × Option (Nat → GuestRamRegion) :=
  match out with
  | none => (errArgs, none)
  | some out =>
    if max = 0 then (errArgs, some out)
    else
      let scan := ramScanFlush (view.ranges.foldl (ramScanRange flags)
        { out := out, max := max, found := 0, pending := false, gpa := 0, hva := 0, len := 0 })
      let ret :=
        if scan.found = 0 then errNoRam
        else if 2 ^ 31 - 1 < scan.found then errArgs
        else (scan.found : Int)
      (ret, some scan.out)

/-! ## The host's side

RAM is mapped into this process: a range of a RAM region has a host pointer, and its
bytes lie in the 64-bit host address space.
-/

/-- A flat view whose RAM is mapped, with the flags of its regions.  Rendering passes a
region's own `readonly` on to its ranges. -/
structure HostView where
  view : FlatView
  flags : MemoryRegion → RegionFlags
  rendered : ∀ r ∈ view.ranges, (flags r.mr).readonly = true → r.readonly = true
  mapped : ∀ r ∈ view.ranges, r.mr.ram = true →
    0 < r.mr.ramPtr ∧ r.mr.ramPtr + r.offsetInRegion + r.len ≤ 2 ^ 64
  few : view.ranges.length < 2 ^ 31

/-- The range is RAM the guest may store into. -/
def Writable (flags : MemoryRegion → RegionFlags) (r : FlatRange) : Prop :=
  r.mr.ram = true ∧ r.readonly = false ∧ (flags r.mr).isRomd = false ∧
    (flags r.mr).ramDevice = false

instance (flags : MemoryRegion → RegionFlags) (r : FlatRange) : Decidable (Writable flags r) :=
  inferInstanceAs (Decidable (_ ∧ _ ∧ _ ∧ _))

/-- The range is in a region the walk reports. -/
def Accepted (flags : MemoryRegion → RegionFlags) (r : FlatRange) : Prop :=
  r.mr.ram = true ∧ (flags r.mr).readonly = false ∧ (flags r.mr).isRomd = false ∧
    (flags r.mr).ramDevice = false

instance (flags : MemoryRegion → RegionFlags) (r : FlatRange) : Decidable (Accepted flags r) :=
  inferInstanceAs (Decidable (_ ∧ _ ∧ _ ∧ _))

/-- The writable ranges are the accepted ones that are not rendered read-only. -/
theorem HostView.writable_iff (host : HostView) {r : FlatRange} (hr : r ∈ host.view.ranges) :
    Writable host.flags r ↔ Accepted host.flags r ∧ r.readonly = false := by
  constructor
  · rintro ⟨hram, hro, hromd, hdev⟩
    refine ⟨⟨hram, ?_, hromd, hdev⟩, hro⟩
    by_contra hregion
    rw [host.rendered r hr (Bool.not_eq_false _ ▸ hregion)] at hro
    cases hro
  · rintro ⟨⟨hram, -, hromd, hdev⟩, hro⟩
    exact ⟨hram, hro, hromd, hdev⟩

/-- The host address of the range's first byte. -/
def hostVa (r : FlatRange) : Nat := r.mr.ramPtr + r.offsetInRegion

/-- The range as a span of its own. -/
def spanOf (r : FlatRange) : GuestRamRegion := ⟨r.start, hostVa r, r.len⟩

namespace GuestRamRegion

/-- The span holds the guest physical address. -/
def Contains (s : GuestRamRegion) (gpa : Nat) : Prop :=
  s.gpaBase ≤ gpa ∧ gpa < s.gpaBase + s.len

/-- The host address the span gives a guest physical address. -/
def hostAddr (s : GuestRamRegion) (gpa : Nat) : Nat := s.hostVa + (gpa - s.gpaBase)

/-- `t` continues `s` in both address spaces. -/
def Continues (s t : GuestRamRegion) : Prop :=
  s.gpaBase + s.len = t.gpaBase ∧ s.hostVa + s.len = t.hostVa

instance (s t : GuestRamRegion) : Decidable (s.Continues t) :=
  inferInstanceAs (Decidable (_ ∧ _))

/-- The span with a continuing one appended. -/
def join (s t : GuestRamRegion) : Option GuestRamRegion :=
  if s.Continues t then some { s with len := s.len + t.len } else none

theorem join_eq_some {s t joined : GuestRamRegion} :
    s.join t = some joined ↔ s.Continues t ∧ { s with len := s.len + t.len } = joined := by
  simp [join]

theorem join_eq_none {s t : GuestRamRegion} : s.join t = none ↔ ¬s.Continues t := by
  simp [join]

/-- A joined span holds what its two parts hold. -/
theorem contains_of_join {s t joined : GuestRamRegion} (h : s.join t = some joined)
    (gpa : Nat) : joined.Contains gpa ↔ s.Contains gpa ∨ t.Contains gpa := by
  obtain ⟨⟨hgpa, -⟩, rfl⟩ := join_eq_some.1 h
  unfold Contains
  dsimp only
  omega

/-- A joined span gives an address of either part the host address the part gives it. -/
theorem hostAddr_of_join {s t joined : GuestRamRegion} (h : s.join t = some joined)
    {gpa : Nat} (ht : t.Contains gpa) : joined.hostAddr gpa = t.hostAddr gpa := by
  obtain ⟨⟨hgpa, hhva⟩, rfl⟩ := join_eq_some.1 h
  unfold Contains at ht
  unfold hostAddr
  dsimp only
  omega

end GuestRamRegion

/-- The span a range opens; other ranges interrupt a run. -/
def freshSpan (flags : MemoryRegion → RegionFlags) (r : FlatRange) : Option GuestRamRegion :=
  if Accepted flags r then some (spanOf r) else none

theorem freshSpan_eq_some {flags : MemoryRegion → RegionFlags} {r : FlatRange}
    {s : GuestRamRegion} :
    freshSpan flags r = some s ↔ Accepted flags r ∧ spanOf r = s := by
  simp [freshSpan]

/-- The spans of the accepted ranges of a view. -/
def ramSpans (host : HostView) : List GuestRamRegion :=
  coalesce (freshSpan host.flags) GuestRamRegion.join none host.view.ranges

/-! ## Ranges in order -/

/-- What the memory core says of a range: it is not empty, it ends in the 64-bit space,
and RAM is mapped. -/
structure RangeFits (r : FlatRange) : Prop where
  nonempty : 0 < r.len
  bounded : r.start + r.len ≤ 2 ^ 64
  mapped : r.mr.ram = true → 0 < r.mr.ramPtr ∧ hostVa r + r.len ≤ 2 ^ 64

theorem HostView.rangeFits (host : HostView) {r : FlatRange} (hr : r ∈ host.view.ranges) :
    RangeFits r :=
  ⟨host.view.nonempty r hr, host.view.bounded r hr, host.mapped r hr⟩

/-- A mapped span that ends where the range starts, or before. -/
structure Behind (s : GuestRamRegion) (r : FlatRange) : Prop where
  mapped : 0 < s.hostVa
  bounded : s.hostVa + s.len ≤ 2 ^ 64
  gpa : s.gpaBase + s.len ≤ r.start

theorem behind_of_join (s t joined : GuestRamRegion) (r : FlatRange) (hs : Behind s r)
    (ht : Behind t r) (h : s.join t = some joined) : Behind joined r := by
  obtain ⟨⟨hgpa, hhva⟩, rfl⟩ := GuestRamRegion.join_eq_some.1 h
  have hend := ht.bounded
  have hnext := ht.gpa
  refine ⟨hs.mapped, ?_, ?_⟩ <;> dsimp only <;> omega

/-- The span of a range lies behind every later range. -/
theorem HostView.fresh_behind (host : HostView) :
    host.view.ranges.Pairwise fun i j =>
      ∀ t, freshSpan host.flags i = some t → Behind t j := by
  refine host.view.ascending.imp_of_mem fun {i j} hi _ hij t ht => ?_
  obtain ⟨hw, rfl⟩ := freshSpan_eq_some.1 ht
  obtain ⟨hptr, hend⟩ := host.mapped i hi hw.1
  exact ⟨Nat.lt_of_lt_of_le hptr (Nat.le_add_right _ _), hend, hij⟩

/-! ## The walk follows the spans -/

/-- The span the walk has open. -/
def RamScan.openSpan (scan : RamScan) : Option GuestRamRegion :=
  if scan.pending then some ⟨scan.gpa, scan.hva, scan.len⟩ else none

/-- The walk has counted the `closed` spans, written those that fit into the array that
held `before`, and has `pending` open. -/
structure Scanning (before : Nat → GuestRamRegion) (max : Nat) (scan : RamScan)
    (closed : List GuestRamRegion) (pending : Option GuestRamRegion) : Prop where
  max_eq : scan.max = max
  found : scan.found = closed.length
  out : ∀ i, scan.out i = (closed.take max).getD i (before i)
  pending : scan.openSpan = pending

/-- Flushing closes the open span. -/
theorem scanning_flush {before : Nat → GuestRamRegion} {max : Nat} {scan : RamScan}
    {closed : List GuestRamRegion} {pending : Option GuestRamRegion}
    (h : Scanning before max scan closed pending) :
    Scanning before max (ramScanFlush scan) (closed ++ pending.toList) none := by
  obtain ⟨hmax, hfound, hout, hpending⟩ := h
  unfold RamScan.openSpan at hpending
  unfold ramScanFlush
  by_cases hopen : scan.pending = true
  · rw [if_pos hopen] at hpending ⊢
    subst hpending
    refine ⟨hmax, by simp [hfound], fun i => ?_, by simp [RamScan.openSpan]⟩
    have hi := hout i
    simp only [List.getD_eq_getElem?_getD, List.getElem?_take] at hi ⊢
    rw [Option.toList_some, List.getElem?_append, hfound, hmax]
    -- only the entry at the old count changes, and only if there is room for it
    rcases Nat.lt_trichotomy i closed.length with hlt | heq | hgt
    · rw [if_pos hlt, ← hi]
      split
      · exact Function.update_of_ne (Nat.ne_of_lt hlt) _ _
      · rfl
    · subst heq
      by_cases hroom : closed.length < max
      · simp [hroom]
      · simpa [hroom] using hi
    · have hnone : closed[i]? = none := List.getElem?_eq_none (Nat.le_of_lt hgt)
      have hpast : [(⟨scan.gpa, scan.hva, scan.len⟩ : GuestRamRegion)][i - closed.length]? =
          none := List.getElem?_eq_none (by simp only [List.length_singleton]; omega)
      rw [if_neg (Nat.not_lt_of_gt hgt), hpast]
      rw [hnone] at hi
      rw [← hi]
      split
      · exact Function.update_of_ne (Nat.ne_of_gt hgt) _ _
      · rfl
  · rw [if_neg hopen] at hpending ⊢
    subst hpending
    exact ⟨hmax, by simpa using hfound, by simpa using hout, by simp [RamScan.openSpan, hopen]⟩

/-- A range that is not accepted only flushes. -/
theorem ramScanRange_of_not_accepted {flags : MemoryRegion → RegionFlags} {r : FlatRange}
    (h : ¬Accepted flags r) (scan : RamScan) :
    ramScanRange flags scan r = ramScanFlush scan := by
  unfold ramScanRange
  refine if_pos ?_
  unfold Accepted at h
  cases hram : r.mr.ram <;> cases hro : (flags r.mr).readonly <;>
    cases hromd : (flags r.mr).isRomd <;> cases hdev : (flags r.mr).ramDevice <;>
    simp_all

/-- For a span behind the range, the walk's test on wrapped sums is `Continues`. -/
theorem merge_test_iff {s : GuestRamRegion} {r : FlatRange} (hs : Behind s r)
    (hr : RangeFits r) (hram : r.mr.ram = true) :
    ((s.gpaBase + s.len) % 2 ^ 64 = r.start ∧ (s.hostVa + s.len) % 2 ^ 64 = hostVa r ∧
      s.len ≤ 2 ^ 64 - 1 - r.len) ↔ s.Continues (spanOf r) := by
  obtain ⟨hptr, hhost⟩ := hr.mapped hram
  have hva : 0 < hostVa r := Nat.lt_of_lt_of_le hptr (Nat.le_add_right _ _)
  obtain ⟨hmapped, hbounded, hgpa⟩ := hs
  obtain ⟨hlen, hend, -⟩ := hr
  unfold GuestRamRegion.Continues spanOf
  dsimp only
  constructor
  · rintro ⟨h1, h2, -⟩
    omega
  · rintro ⟨h1, h2⟩
    omega

/-- An accepted range is joined onto the open span it continues, or opens its own. -/
theorem ramScanRange_of_accepted {flags : MemoryRegion → RegionFlags} {r : FlatRange}
    (hw : Accepted flags r) (hr : RangeFits r) {scan : RamScan}
    (hpending : ∀ s ∈ scan.openSpan, Behind s r) :
    ramScanRange flags scan r =
      match scan.openSpan.bind (·.join (spanOf r)) with
      | some joined => { scan with len := joined.len }
      | none => { ramScanFlush scan with
          pending := true, gpa := r.start, hva := hostVa r, len := r.len } := by
  obtain ⟨hram, hro, hromd, hdev⟩ := hw
  obtain ⟨hptr, hhost⟩ := hr.mapped hram
  have hva : (r.mr.ramPtr + r.offsetInRegion) % 2 ^ 64 = hostVa r :=
    Nat.mod_eq_of_lt (Nat.lt_of_lt_of_le (Nat.lt_add_of_pos_right hr.nonempty) hhost)
  have hlen : r.len < 2 ^ 64 := by
    have : 0 < hostVa r := Nat.lt_of_lt_of_le hptr (Nat.le_add_right _ _)
    omega
  have hstart : r.start < 2 ^ 64 :=
    Nat.lt_of_lt_of_le (Nat.lt_add_of_pos_right hr.nonempty) hr.bounded
  have hhigh : ¬(r.start / 2 ^ 64 ≠ 0 ∨ r.len / 2 ^ 64 ≠ 0) := by
    rw [Nat.div_eq_of_lt hstart, Nat.div_eq_of_lt hlen]
    simp
  unfold ramScanRange
  simp only [hram, hro, hromd, hdev, Bool.not_true, Bool.or_self, Bool.false_eq_true, if_false,
    if_neg hhigh, Nat.mod_eq_of_lt hlen, Nat.mod_eq_of_lt hstart, hva,
    if_neg (Nat.ne_of_gt hr.nonempty), if_neg (Nat.ne_of_gt hptr)]
  unfold RamScan.openSpan at hpending ⊢
  by_cases hopen : scan.pending = true
  · rw [if_pos hopen] at hpending ⊢
    have hbehind := hpending _ rfl
    have htest := merge_test_iff hbehind hr hram
    dsimp only at htest
    simp only [hopen, true_and, htest, Option.bind_some, GuestRamRegion.join]
    by_cases hcont : GuestRamRegion.Continues ⟨scan.gpa, scan.hva, scan.len⟩ (spanOf r)
    · have hsum : scan.len + r.len < 2 ^ 64 := by
        have := (htest.2 hcont).2.2
        omega
      simp only [if_pos hcont, Nat.mod_eq_of_lt hsum]
      rfl
    · simp [hcont]
  · rw [if_neg hopen]
    simp [hopen]

/-- One range of the walk is one step of the coalescing. -/
theorem scanning_range {before : Nat → GuestRamRegion} {max : Nat} {scan : RamScan}
    {closed : List GuestRamRegion} {pending : Option GuestRamRegion}
    {flags : MemoryRegion → RegionFlags} {r : FlatRange} (hr : RangeFits r)
    (hpending : ∀ s ∈ pending, Behind s r) (h : Scanning before max scan closed pending) :
    Scanning before max (ramScanRange flags scan r)
      (closed ++ (coalesceStep (freshSpan flags) GuestRamRegion.join pending r).1)
      (coalesceStep (freshSpan flags) GuestRamRegion.join pending r).2 := by
  by_cases hw : Accepted flags r
  · have hopen := h.pending
    subst hopen
    have hfresh : freshSpan flags r = some (spanOf r) := if_pos hw
    rw [ramScanRange_of_accepted hw hr hpending, coalesceStep, hfresh]
    dsimp only
    cases hjoin : scan.openSpan.bind (·.join (spanOf r)) with
    | some joined =>
      obtain ⟨s, hs, hj⟩ := Option.bind_eq_some_iff.1 hjoin
      obtain ⟨-, rfl⟩ := GuestRamRegion.join_eq_some.1 hj
      unfold RamScan.openSpan at hs
      obtain ⟨hscan, hspan⟩ := Option.ite_none_right_eq_some.1 hs
      obtain rfl := Option.some.inj hspan
      refine ⟨h.max_eq, by simpa using h.found, by simpa using h.out, ?_⟩
      simp [RamScan.openSpan, hscan]
    | none =>
      have hflush := scanning_flush h
      exact ⟨hflush.max_eq, hflush.found, hflush.out, by simp [RamScan.openSpan, spanOf]⟩
  · have hfresh : freshSpan flags r = none := if_neg hw
    rw [ramScanRange_of_not_accepted hw, coalesceStep, hfresh]
    exact scanning_flush h

/-- The whole walk, with its last flush, counts and writes the spans. -/
theorem scanning_walk {before : Nat → GuestRamRegion} {max : Nat}
    {flags : MemoryRegion → RegionFlags} (ranges : List FlatRange)
    (hfits : ∀ r ∈ ranges, RangeFits r)
    (hitems : ranges.Pairwise fun i j => ∀ t, freshSpan flags i = some t → Behind t j)
    {scan : RamScan} {closed : List GuestRamRegion} {pending : Option GuestRamRegion}
    (hpending : ∀ s ∈ pending, ∀ r ∈ ranges, Behind s r)
    (h : Scanning before max scan closed pending) :
    Scanning before max (ramScanFlush (ranges.foldl (ramScanRange flags) scan))
      (closed ++ coalesce (freshSpan flags) GuestRamRegion.join pending ranges) none := by
  induction ranges generalizing scan closed pending with
  | nil => exact scanning_flush h
  | cons r rest ih =>
    rw [List.pairwise_cons] at hitems
    have hstep : Scanning before max (ramScanRange flags scan r) _ _ :=
      scanning_range (hfits r (by simp)) (fun s hs => hpending s hs r (by simp)) h
    have hnext := coalesceStep_past behind_of_join hitems.1 hpending
    have hrest := ih (fun i hi => hfits i (List.mem_cons_of_mem r hi)) hitems.2 hnext hstep
    rw [List.foldl_cons, coalesce, ← List.append_assoc]
    exact hrest

/-! ## The spans are a maximal coalescing -/

/-- The spans describe the ranges that meet `P`: exactly their addresses, each with the host
address its range gives it, ascending, and joined wherever both address spaces allow. -/
structure MaximalCoalescing (view : FlatView) (P : FlatRange → Prop)
    (spans : List GuestRamRegion) : Prop where
  covers : ∀ gpa, (∃ s ∈ spans, s.Contains gpa) ↔
    ∃ r ∈ view.ranges, P r ∧ r.Contains gpa
  host_eq : ∀ s ∈ spans, ∀ r ∈ view.ranges, P r →
    ∀ gpa, s.Contains gpa → r.Contains gpa → s.hostAddr gpa = hostVa r + (gpa - r.start)
  ascending : spans.Pairwise fun s t => s.gpaBase + s.len ≤ t.gpaBase
  maximal : spans.IsChain fun s t => ¬s.Continues t

/-- Every address of the span is one of an accepted range that gives it the same host
address. -/
def Faithful (host : HostView) (s : GuestRamRegion) : Prop :=
  ∀ gpa, s.Contains gpa → ∃ r ∈ host.view.ranges, Accepted host.flags r ∧ r.Contains gpa ∧
    s.hostAddr gpa = hostVa r + (gpa - r.start)

theorem faithful_of_join {host : HostView} (s t joined : GuestRamRegion)
    (hs : Faithful host s) (ht : Faithful host t) (h : s.join t = some joined) :
    Faithful host joined := by
  intro gpa hgpa
  rcases (GuestRamRegion.contains_of_join h gpa).1 hgpa with hin | hin
  · have hsame : joined.hostAddr gpa = s.hostAddr gpa := by
      obtain ⟨-, rfl⟩ := GuestRamRegion.join_eq_some.1 h
      rfl
    rw [hsame]
    exact hs gpa hin
  · rw [GuestRamRegion.hostAddr_of_join h hin]
    exact ht gpa hin

theorem ramSpans_faithful (host : HostView) : ∀ s ∈ ramSpans host, Faithful host s := by
  refine coalesce_forall faithful_of_join host.view.ranges ?_ none (by simp)
  intro r hr t ht gpa hgpa
  obtain ⟨hw, rfl⟩ := freshSpan_eq_some.1 ht
  exact ⟨r, hr, hw, hgpa, rfl⟩

theorem ramSpans_nonempty (host : HostView) : ∀ s ∈ ramSpans host, 0 < s.len := by
  refine coalesce_forall (fun s t joined hs _ h => ?_) host.view.ranges ?_ none (by simp)
  · obtain ⟨-, rfl⟩ := GuestRamRegion.join_eq_some.1 h
    exact Nat.add_pos_left hs _
  · intro r hr t ht
    obtain ⟨-, rfl⟩ := freshSpan_eq_some.1 ht
    exact host.view.nonempty r hr

/-- Every address of an accepted range lies in a span. -/
theorem exists_ramSpan_of_accepted (host : HostView) {r : FlatRange} {gpa : Nat}
    (hr : r ∈ host.view.ranges) (hw : Accepted host.flags r) (hgpa : r.Contains gpa) :
    ∃ s ∈ ramSpans host, s.Contains gpa := by
  refine coalesce_exists (P := fun s => s.Contains gpa)
    (fun s t joined h => (GuestRamRegion.contains_of_join h gpa).2) host.view.ranges none ?_
  exact .inr ⟨r, hr, spanOf r, freshSpan_eq_some.2 ⟨hw, rfl⟩, hgpa⟩

/-- Growing the later span does not move where it starts. -/
theorem not_continues_of_join (s t t' joined : GuestRamRegion) (hst : ¬s.Continues t)
    (h : t.join t' = some joined) : ¬s.Continues joined := by
  obtain ⟨-, rfl⟩ := GuestRamRegion.join_eq_some.1 h
  exact hst

theorem ramSpans_maximalCoalescing (host : HostView) :
    MaximalCoalescing host.view (Accepted host.flags) (ramSpans host) where
  covers gpa := by
    constructor
    · rintro ⟨s, hs, hgpa⟩
      obtain ⟨r, hr, hw, hin, -⟩ := ramSpans_faithful host s hs gpa hgpa
      exact ⟨r, hr, hw, hin⟩
    · rintro ⟨r, hr, hw, hgpa⟩
      exact exists_ramSpan_of_accepted host hr hw hgpa
  host_eq s hs r hr _ gpa hsgpa hrgpa := by
    obtain ⟨r', hr', -, hin, heq⟩ := ramSpans_faithful host s hs gpa hsgpa
    obtain rfl := host.view.range_unique hr hr' hrgpa hin
    exact heq
  ascending := by
    refine coalesce_pairwise behind_of_join (fun s t t' joined hst h => ?_)
      (fun s r t hs ht => ?_) host.view.ranges host.fresh_behind none (by simp)
    · obtain ⟨-, rfl⟩ := GuestRamRegion.join_eq_some.1 h
      exact hst
    · obtain ⟨-, rfl⟩ := freshSpan_eq_some.1 ht
      exact hs.gpa
  maximal := by
    refine coalesce_isChain behind_of_join not_continues_of_join
      (fun s t h => GuestRamRegion.join_eq_none.1 h) host.view.ranges host.fresh_behind ?_
      none (by simp)
    -- the interrupting range is not empty, so there is a gap in the guest's space
    refine host.view.ascending.imp_of_mem fun {i j} hi _ hij _ s t hs ht hcont => ?_
    obtain ⟨-, rfl⟩ := freshSpan_eq_some.1 ht
    have hgap := host.view.nonempty i hi
    have hbehind := hs.gpa
    have hgpa : s.gpaBase + s.len = j.start := hcont.1
    omega

theorem ramSpans_eq_nil_iff (host : HostView) :
    ramSpans host = [] ↔ ∀ r ∈ host.view.ranges, ¬Accepted host.flags r := by
  constructor
  · intro hnil r hr hw
    have hstart : r.Contains r.start :=
      ⟨Nat.le_refl _, Nat.lt_add_of_pos_right (host.view.nonempty r hr)⟩
    obtain ⟨s, hs, -⟩ := exists_ramSpan_of_accepted host hr hw hstart
    simp [hnil] at hs
  · intro hnone
    refine List.eq_nil_iff_forall_not_mem.2 fun s hs => ?_
    have hstart : s.Contains s.gpaBase :=
      ⟨Nat.le_refl _, Nat.lt_add_of_pos_right (ramSpans_nonempty host s hs)⟩
    obtain ⟨r, hr, hw, -⟩ := ramSpans_faithful host s hs s.gpaBase hstart
    exact hnone r hr hw

/-- What a call with room for `max` spans returns and leaves in the array. -/
theorem guestRamRegions_spec (host : HostView) (out : Nat → GuestRamRegion) {max : Nat}
    (hmax : 1 ≤ max) :
    (guestRamRegions host.flags host.view (some out) max).1 =
      (if ramSpans host = [] then errNoRam else ((ramSpans host).length : Int)) ∧
    (guestRamRegions host.flags host.view (some out) max).2 =
      some fun i => ((ramSpans host).take max).getD i (out i) := by
  let scan : RamScan :=
    { out := out, max := max, found := 0, pending := false, gpa := 0, hva := 0, len := 0 }
  have hstart : Scanning out max scan [] none := ⟨rfl, rfl, by simp [scan], rfl⟩
  have hwalk := scanning_walk host.view.ranges (fun r hr => host.rangeFits hr)
    host.fresh_behind (by simp) hstart
  have hfound : (ramScanFlush (host.view.ranges.foldl (ramScanRange host.flags) scan)).found =
      (ramSpans host).length := hwalk.found
  have hfew : (ramSpans host).length < 2 ^ 31 :=
    Nat.lt_of_le_of_lt (by simpa [ramSpans] using length_coalesce_le host.view.ranges none) host.few
  constructor
  · rw [guestRamRegions, if_neg (Nat.ne_of_gt hmax)]
    dsimp only
    rw [hfound]
    by_cases hnil : ramSpans host = []
    · rw [if_pos (List.length_eq_zero_iff.2 hnil), if_pos hnil]
    · rw [if_neg fun h => hnil (List.length_eq_zero_iff.1 h), if_neg (by omega), if_neg hnil]
  · rw [guestRamRegions, if_neg (Nat.ne_of_gt hmax)]
    exact congrArg some (funext hwalk.out)

/-! ## What is reported -/

/-- What the ABI says of the call: there is one list of spans, the maximal coalescing of the
writable RAM, and whatever room the caller has, the call counts all of them (an error if
there is no writable RAM) and writes as many as fit. -/
def Answers (host : HostView) : Prop :=
  ∃ spans, MaximalCoalescing host.view (Writable host.flags) spans ∧
    ∀ (out : Nat → GuestRamRegion) (max : Nat), 1 ≤ max →
      (guestRamRegions host.flags host.view (some out) max).1 =
        (if ∃ r ∈ host.view.ranges, Writable host.flags r then (spans.length : Int)
         else errNoRam) ∧
      (guestRamRegions host.flags host.view (some out) max).2 =
        some fun i => (spans.take max).getD i (out i)

/-- Calls with enough room tell the spans. -/
theorem eq_of_getD_eq {spans other : List GuestRamRegion} (hlen : spans.length = other.length)
    (h : ∀ (out : Nat → GuestRamRegion) (max : Nat), 1 ≤ max → ∀ i,
      (spans.take max).getD i (out i) = (other.take max).getD i (out i)) : spans = other := by
  refine List.ext_getElem hlen fun i hi hi' => ?_
  have hget := h (fun _ => ⟨0, 0, 0⟩) (i + 1) (Nat.le_add_left 1 i) i
  simp only [List.getD_eq_getElem?_getD, List.getElem?_take_of_lt (Nat.lt_succ_self i),
    List.getElem?_eq_getElem hi, List.getElem?_eq_getElem hi', Option.getD_some] at hget
  exact hget

/-- A read-only rendering of a region that is not read-only itself is reported. -/
theorem not_answers_of_readonly {host : HostView} {r : FlatRange} (hr : r ∈ host.view.ranges)
    (haccepted : Accepted host.flags r) (hreadonly : r.readonly = true) : ¬Answers host := by
  rintro ⟨spans, hspans, hcalls⟩
  have hne : ramSpans host ≠ [] := fun hnil =>
    (ramSpans_eq_nil_iff host).1 hnil r hr haccepted
  by_cases hwritable : ∃ q ∈ host.view.ranges, Writable host.flags q
  · -- the call's list is the one of the accepted ranges, and the range is in it
    have hlen : spans.length = (ramSpans host).length := by
      have hcall := (hcalls (fun _ => ⟨0, 0, 0⟩) 1 (Nat.le_refl 1)).1
      rw [if_pos hwritable, (guestRamRegions_spec host _ (Nat.le_refl 1)).1, if_neg hne] at hcall
      exact Int.ofNat.inj hcall.symm
    obtain rfl : spans = ramSpans host := eq_of_getD_eq hlen fun out max hmax i => by
      have hcall := (hcalls out max hmax).2
      rw [(guestRamRegions_spec host out hmax).2] at hcall
      exact (congrFun (Option.some.inj hcall) i).symm
    have hstart : r.Contains r.start :=
      ⟨Nat.le_refl _, Nat.lt_add_of_pos_right (host.view.nonempty r hr)⟩
    obtain ⟨q, hq, hw, hin⟩ :=
      (hspans.covers r.start).1 (exists_ramSpan_of_accepted host hr haccepted hstart)
    obtain rfl := host.view.range_unique hr hq hstart hin
    rw [hw.2.1] at hreadonly
    cases hreadonly
  · have hcall := (hcalls (fun _ => ⟨0, 0, 0⟩) 1 (Nat.le_refl 1)).1
    rw [if_neg hwritable, (guestRamRegions_spec host _ (Nat.le_refl 1)).1, if_neg hne] at hcall
    have hnonneg := Int.natCast_nonneg (ramSpans host).length
    rw [hcall] at hnonneg
    exact absurd hnonneg (by decide)

/-- **Guest RAM is reported as the ABI says** exactly when no range that is rendered
read-only belongs to a RAM region that is not itself read-only, ROMD or a RAM device. -/
theorem guestRamRegions_answers_iff (host : HostView) :
    Answers host ↔ ∀ r ∈ host.view.ranges, r.readonly = true → r.mr.ram = true →
      (host.flags r.mr).readonly = true ∨ (host.flags r.mr).isRomd = true ∨
        (host.flags r.mr).ramDevice = true := by
  constructor
  · intro hanswers r hr hreadonly hram
    by_contra hkinds
    push Not at hkinds
    simp only [Bool.not_eq_true] at hkinds
    exact not_answers_of_readonly hr ⟨hram, hkinds.1, hkinds.2.1, hkinds.2.2⟩ hreadonly hanswers
  · intro hkinds
    -- under the condition the region's kind is the range's
    have hsame : ∀ r ∈ host.view.ranges, (Writable host.flags r ↔ Accepted host.flags r) := by
      intro r hr
      rw [host.writable_iff hr]
      refine and_iff_left_of_imp fun haccepted => ?_
      by_contra hreadonly
      rw [Bool.not_eq_false] at hreadonly
      obtain ⟨hram, hro, hromd, hdev⟩ := haccepted
      rcases hkinds r hr hreadonly hram with h | h | h
      · rw [hro] at h; cases h
      · rw [hromd] at h; cases h
      · rw [hdev] at h; cases h
    have hmax := ramSpans_maximalCoalescing host
    refine ⟨ramSpans host, ⟨fun gpa => ?_, fun s hs r hr hw => ?_, hmax.ascending,
      hmax.maximal⟩, fun out max hroom => ?_⟩
    · rw [hmax.covers]
      refine exists_congr fun r => and_congr_right fun hr => ?_
      rw [hsame r hr]
    · exact hmax.host_eq s hs r hr ((hsame r hr).1 hw)
    · obtain ⟨hret, harray⟩ := guestRamRegions_spec host out hroom
      refine ⟨?_, harray⟩
      have hexists : (∃ r ∈ host.view.ranges, Writable host.flags r) ↔ ramSpans host ≠ [] := by
        rw [Ne, ramSpans_eq_nil_iff]
        push Not
        exact exists_congr fun r => and_congr_right fun hr => hsame r hr
      rw [hret]
      by_cases hnil : ramSpans host = []
      · rw [if_pos hnil, if_neg (by rw [hexists]; exact fun h => h hnil)]
      · rw [if_neg hnil, if_pos (hexists.2 hnil)]

/-- A board with firmware ROM, one block of RAM behind two flat ranges, and a second
block that abuts it in the guest's space only. -/
def splitBoard : HostView where
  view := {
    ranges := [
      ⟨0x100000, 0x1000, ⟨0, true, 0, 0x10000⟩, 0, true⟩,
      ⟨0x70000000, 0x4000, ⟨1, true, 0x1000, 0x20000⟩, 0, false⟩,
      ⟨0x70004000, 0x4000, ⟨1, true, 0x1000, 0x20000⟩, 0x4000, false⟩,
      ⟨0x70008000, 0x4000, ⟨2, true, 0x9000, 0x40000⟩, 0, false⟩]
    nonempty := by decide
    ascending := by decide
    bounded := by decide }
  flags mr := ⟨mr.id == 0, false, false, false⟩
  rendered := by decide
  mapped := by decide
  few := by decide

-- the array has room for one of the two spans; both are counted
example :
    (guestRamRegions splitBoard.flags splitBoard.view (some fun _ => ⟨0, 0, 0⟩) 1).1 = 2 ∧
      ramSpans splitBoard = [⟨0x70000000, 0x20000, 0x8000⟩, ⟨0x70008000, 0x40000, 0x4000⟩] := by
  decide

/-- The low memory of a PC after its firmware has shadowed the option ROMs: the block
from `0xc0000` up to 1 MiB is the `pam-rom` alias of main memory. -/
def shadowedBoard : HostView where
  view := {
    ranges := [
      ⟨0, 0xa0000, ⟨1, true, 0, 0x10000000⟩, 0, false⟩,
      ⟨0xc0000, 0x40000, ⟨1, true, 0, 0x10000000⟩, 0xc0000, true⟩,
      ⟨0x100000, 0x100000, ⟨1, true, 0, 0x10000000⟩, 0x100000, false⟩]
    nonempty := by decide
    ascending := by decide
    bounded := by decide }
  flags _ := ⟨false, false, false, false⟩
  rendered := by decide
  mapped := by decide
  few := by decide

/-- The second span reported starts in the alias, where the guest cannot store. -/
theorem shadowed_rom_is_reported :
    ¬Answers shadowedBoard ∧
      (guestRamRegions shadowedBoard.flags shadowedBoard.view (some fun _ => ⟨0, 0, 0⟩) 2).1 =
        2 ∧
      ((guestRamRegions shadowedBoard.flags shadowedBoard.view (some fun _ => ⟨0, 0, 0⟩) 2).2.map
        fun out => out 1) = some ⟨0xc0000, 0x100c0000, 0x140000⟩ := by
  refine ⟨not_answers_of_readonly
    (r := ⟨0xc0000, 0x40000, ⟨1, true, 0, 0x10000000⟩, 0xc0000, true⟩) ?_ ?_ rfl, ?_, ?_⟩
  · decide
  · decide
  · decide
  · decide

end Orchard.GuestRam
