/-
  MapPages/Ledger.lean --- the ledger of packed views of the PCI shim.

  `map_pages` enters every packed view it returns in `page_views`; a pointer into guest RAM
  has no entry.  `unmap_pages` looks for an entry with the pointer and the length it is given,
  unmaps it and closes the gap with the last entry.  Four counters are kept by hand beside the
  table.

  What the table should hold is told by the calls alone: the views `map_pages` returned and
  `unmap_pages` was not yet called for.  A run carries that list as a ghost (`Tracked.live`),
  and the ranges of guest RAM that were handed out (`Tracked.borrowed`).  All the ledger
  depends on is that the mappings of the process do not overlap (`Apart`).
-/
import Orchard.Foundation.Execution
import Orchard.Foundation.Table
import Orchard.MapPages.Contract
import Mathlib.Algebra.Order.BigOperators.Group.List
import Mathlib.Algebra.Order.Ring.Nat
import Mathlib.Data.List.Nodup
import Mathlib.Order.Interval.Finset.Nat

set_option autoImplicit false

namespace Orchard.MapPages

open Orchard.Foundation Orchard.Memory

/-! ## The calls -/

/-- `reims_vgpu_pci_unmap_pages`, with the calls of `munmap` it makes. -/
def pciUnmapPages (ledger : Ledger) (ctx : Bool) (ptr len : Nat) : Ledger × List PageView :=
  if ctx = false ∨ ptr = 0 ∨ len = 0 then (ledger, [])
  else
    match ledger.pageViews.zipIdx.find? fun e => e.1.ptr == ptr && e.1.len == len with
    | none => (ledger, [])
    | some (view, i) =>
      ({ pageViews := removeIndexFast ledger.pageViews i
         liveBytes := ledger.liveBytes - view.len
         livePages := ledger.livePages - view.len >>> 12
         created := ledger.created
         destroyed := ledger.destroyed + 1 },
        [view])

/-- `ReimsVgpuPageAliasCensus`. -/
structure Census where
  live : Nat
  liveBytes : Nat
  livePages : Nat
  created : Nat
  destroyed : Nat
  deriving DecidableEq, Repr

/-- `reims_vgpu_pci_page_alias_census`: what it writes to `*out`, unless it returns -1. -/
def pciPageAliasCensus (ledger : Ledger) (ctx out : Bool) : Option Census :=
  if ctx = false ∨ out = false then none
  else
    some
      { live := ledger.pageViews.length
        liveBytes := ledger.liveBytes
        livePages := ledger.livePages
        created := ledger.created
        destroyed := ledger.destroyed }

/-- The reservation of a call of `reims_vgpu_pci_map_pages` that gets as far as the packed
view. -/
def pciReservation (layout : HostLayout) (os : Os) (req : Request) : Option PageView :=
  (acceptedGpas pageSizeX86 req).bind fun gpas =>
    if (contiguousRunHva pageSizeX86 layout.view gpas).isSome ∨
        (pciPackedRun pageSizeX86 layout.view gpas).isSome ∨ os.kind = .windows then none
    else os.reserve.map fun base => ⟨base, gpas.length * pageSizeX86⟩

/-- What a call hands out or unmaps. -/
inductive Effect where
  /-- a pointer into guest RAM is returned, for that many bytes -/
  | direct (range : PageView)
  /-- a packed view is returned -/
  | packed (view : PageView)
  /-- `map_pages` unmaps a reservation it could not fill -/
  | discard (view : PageView)
  /-- `unmap_pages` unmaps a view -/
  | munmap (view : PageView)
  deriving DecidableEq, Repr

/-- The range the effect unmaps. -/
def Effect.unmapped : Effect → Option PageView
  | .discard view => some view
  | .munmap view => some view
  | _ => none

/-- The bytes of the pages a request asks for. -/
def Request.total (req : Request) : Nat := (req.gpas.getD []).length * pageSizeX86

/-- What a call of `map_pages` with this result did. -/
def mapEffects (total : Nat) (reservation : Option PageView) (r : Result) : List Effect :=
  match reservation with
  | none => if r.ret = 0 then r.outPtr.toList.map fun ptr => .direct ⟨ptr, total⟩ else []
  | some view =>
    if r.ret = 0 then r.outPtr.toList.map fun ptr => .packed ⟨ptr, view.len⟩
    else [.discard view]

/-! ## Runs -/

/-- One call of the shim. -/
inductive Call where
  | map (layout : HostLayout) (os : Os) (req : Request)
  | unmap (ctx : Bool) (ptr len : Nat)

/-- The ledger in a run, with the views that were returned and not released, and the ranges
of guest RAM that were handed out. -/
structure Tracked where
  ledger : Ledger
  live : List PageView
  borrowed : List PageView

/-- What an effect of `map_pages` adds to the two lists. -/
def Tracked.note (s : Tracked) : Effect → Tracked
  | .direct range => { s with borrowed := s.borrowed ++ [range] }
  | .packed view => { s with live := s.live ++ [view] }
  | _ => s

def callStep (s : Tracked) : Call → Tracked × List Effect
  | .map layout os req =>
    let r := pciMapPages layout os s.ledger req
    let effects := mapEffects req.total (pciReservation layout os req) r
    (effects.foldl Tracked.note { s with ledger := r.ledger }, effects)
  | .unmap ctx ptr len =>
    let r := pciUnmapPages s.ledger ctx ptr len
    -- a view is released by the call, whatever the table says
    ({ s with ledger := r.1, live := if ctx then s.live.erase ⟨ptr, len⟩ else s.live },
      r.2.map .munmap)

/-- A device whose `page_views` is new. -/
def noViews : Tracked := { ledger := emptyLedger, live := [], borrowed := [] }

/-- The view holds the host address. -/
def PageView.Holds (v : PageView) (hva : Nat) : Prop := v.ptr ≤ hva ∧ hva < v.ptr + v.len

/-- The two ranges have no address in common. -/
def PageView.Apart (v w : PageView) : Prop := ∀ a, v.Holds a → ¬ w.Holds a

/-- The mappings of the process do not overlap; `total` is the length of the reservation. -/
structure Apart (s : Tracked) (layout : HostLayout) (os : Os) (total : Nat) : Prop where
  /-- where the system chooses the address, it is not 0 -/
  nonnull : os.reserve ≠ some 0
  /-- a reservation overlaps no live view -/
  views : ∀ base, os.reserve = some base → ∀ v ∈ s.live, v.Apart ⟨base, total⟩
  /-- nor guest RAM that was handed out, which stays mapped -/
  handedOut : ∀ base, os.reserve = some base → ∀ r ∈ s.borrowed, r.Apart ⟨base, total⟩
  /-- guest RAM is not mapped over a live view -/
  ram : ∀ v ∈ s.live, ∀ b ∈ layout.blocks, ∀ a, v.Holds a → ¬ b.Holds a

/-- The condition on a call: none on `unmap_pages`. -/
def Allowed (s : Tracked) : Call → Prop
  | .map layout os req => Apart s layout os req.total
  | .unmap _ _ _ => True

/-! ## What a call can do -/

/-- A view entered in the ledger. -/
def Ledger.enter (ledger : Ledger) (base count : Nat) : Ledger :=
  { ledger with
    pageViews := ledger.pageViews ++ [⟨base, count * pageSizeX86⟩]
    liveBytes := ledger.liveBytes + count * pageSizeX86
    livePages := ledger.livePages + count
    created := ledger.created + 1 }

/-- The ways a call of `map_pages` for `total` bytes ends. -/
inductive MapEnds (s : Tracked) (layout : HostLayout) (os : Os) (total : Nat) :
    Tracked × List Effect → Prop
  | refused : MapEnds s layout os total (s, [])
  | lent {range : PageView} (held : ∀ a, range.Holds a → ∃ b ∈ layout.blocks, b.Holds a) :
      MapEnds s layout os total
        ({ s with borrowed := s.borrowed ++ [range] }, [.direct range])
  | discarded {base : Nat} (reserved : os.reserve = some base) :
      MapEnds s layout os total (s, [.discard ⟨base, total⟩])
  | entered {base count : Nat} (reserved : os.reserve = some base) (nonempty : 0 < count)
      (all : total = count * pageSizeX86) :
      MapEnds s layout os total
        ({ s with
            ledger := s.ledger.enter base count
            live := s.live ++ [⟨base, count * pageSizeX86⟩] },
          [.packed ⟨base, count * pageSizeX86⟩])

section Cases

variable {layout : HostLayout} {gpas : List (BitVec 64)}

/-- Every byte of a direct route is in a block. -/
theorem held_of_inRange {base : Nat}
    (h : ∀ i gpa, gpas[i]? = some gpa →
      ∃ r, InRange layout.view gpa.toNat pageSizeX86 r (base + i * pageSizeX86)) :
    ∀ a, (⟨base, gpas.length * pageSizeX86⟩ : PageView).Holds a →
      ∃ b ∈ layout.blocks, b.Holds a := by
  rintro a ⟨hlow, hhigh⟩
  dsimp only at hlow hhigh
  have hpage : pageSizeX86 = 4096 := rfl
  rw [hpage] at h hhigh
  -- the page of the run that the byte is in
  have hi : (a - base) / 4096 < gpas.length := by omega
  obtain ⟨r, hin⟩ := h _ _ (List.getElem?_eq_getElem hi)
  obtain ⟨b, hb, hblow, hbhigh⟩ := layout.inBlock_of_inRange hin
  exact ⟨b, hb, by omega, by omega⟩

theorem mapEnds_callStep (s : Tracked) (layout : HostLayout) (os : Os) (req : Request) :
    MapEnds s layout os req.total (callStep s (.map layout os req)) := by
  have hpage : 0 < pageSizeX86 := by decide
  unfold callStep pciReservation pciMapPages
  dsimp only
  cases haccepted : acceptedGpas pageSizeX86 req with
  | none => exact .refused
  | some gpas =>
    obtain ⟨hgpas, hne⟩ := gpas_of_acceptedGpas haccepted
    have htotal : req.total = gpas.length * pageSizeX86 := by rw [Request.total, hgpas]; rfl
    rw [htotal]
    dsimp only [Option.bind_some]
    cases hrun : contiguousRunHva pageSizeX86 layout.view gpas with
    | some hva =>
      obtain ⟨-, mr, hpages⟩ := packedInRegion_of_contiguousRunHva hpage hrun
      refine MapEnds.lent (held_of_inRange fun i gpa hgpa => ?_)
      obtain ⟨r, hin, -⟩ := hpages i gpa hgpa
      exact ⟨r, hin⟩
    | none =>
      dsimp only
      cases hpacked : pciPackedRun pageSizeX86 layout.view gpas with
      | some base => exact MapEnds.lent (held_of_inRange (inRange_of_pciPackedRun hpage hpacked))
      | none =>
        dsimp only
        by_cases hwindows : os.kind = .windows
        · rw [if_pos hwindows, if_pos (.inr (.inr hwindows))]
          exact .refused
        · rw [if_neg hwindows, if_neg (by simp [hwindows])]
          cases hreserve : os.reserve with
          | none => exact .refused
          | some base =>
            dsimp only [Option.map_some]
            split
            · exact .discarded hreserve
            · exact .entered hreserve (List.length_pos_iff.mpr hne) rfl

end Cases

/-- The ways a call of `unmap_pages` ends: the view is found, and the table is the rest of
what it was; or it is ignored. -/
theorem pciUnmapPages_cases (ledger : Ledger) (ctx : Bool) (ptr len : Nat) :
    (∃ rest, ctx = true ∧ ledger.pageViews.Perm (⟨ptr, len⟩ :: rest) ∧
      pciUnmapPages ledger ctx ptr len =
        ({ pageViews := rest
           liveBytes := ledger.liveBytes - len
           livePages := ledger.livePages - len / pageSizeX86
           created := ledger.created
           destroyed := ledger.destroyed + 1 },
          [⟨ptr, len⟩])) ∨
      ((ctx = true → ptr ≠ 0 → len ≠ 0 → (⟨ptr, len⟩ : PageView) ∉ ledger.pageViews) ∧
        pciUnmapPages ledger ctx ptr len = (ledger, [])) := by
  unfold pciUnmapPages
  split
  · rename_i hignored
    refine .inr ⟨fun hctx hptr hlen => ?_, rfl⟩
    rcases hignored with h | h | h
    · rw [hctx] at h
      cases h
    · exact absurd h hptr
    · exact absurd h hlen
  · rename_i hargs
    split
    · rename_i hnone
      refine .inr ⟨fun _ _ _ hmem => ?_, rfl⟩
      obtain ⟨i, hi⟩ := List.mem_iff_getElem?.mp hmem
      have := List.find?_eq_none.mp hnone _ (List.mk_mem_zipIdx_iff_getElem?.mpr hi)
      simp at this
    · rename_i view i hfind
      have hmatch := List.find?_some hfind
      simp only [Bool.and_eq_true, beq_iff_eq] at hmatch
      obtain ⟨rfl, rfl⟩ := hmatch
      have hi := List.mk_mem_zipIdx_iff_getElem?.mp (List.mem_of_find?_eq_some hfind)
      refine .inl ⟨_, ?_, perm_removeIndexFast hi, ?_⟩
      · simpa using fun h => hargs (.inl h)
      · rw [Nat.shiftRight_eq_div_pow]
        rfl

/-! ## The invariant -/

/-- An effect unmaps no byte that was handed out as guest RAM. -/
def SparesRam (before : List Effect) (e : Effect) : Prop :=
  ∀ v, e.unmapped = some v → ∀ r, Effect.direct r ∈ before → r.Apart v

/-- The books balance. -/
structure Balanced (s : Tracked) (log : List Effect) : Prop where
  /-- the table holds exactly the views that were returned and not released -/
  table : s.ledger.pageViews.Perm s.live
  liveBytes : s.ledger.liveBytes = (s.ledger.pageViews.map (·.len)).sum
  livePages : s.ledger.livePages = (s.ledger.pageViews.map (·.len / pageSizeX86)).sum
  created : s.ledger.created = s.ledger.destroyed + s.ledger.pageViews.length
  /-- no two live views overlap -/
  distinct : s.live.Pairwise PageView.Apart
  /-- a view is some whole pages, not at address 0 -/
  whole : ∀ v ∈ s.live, v.ptr ≠ 0 ∧ ∃ count, 0 < count ∧ v.len = count * pageSizeX86
  /-- every view that was returned is live, or was unmapped by `unmap_pages` once -/
  matched : ∀ v, log.count (.munmap v) + s.live.count v = log.count (.packed v)
  /-- guest RAM that is handed out is noted, and no live view overlaps it -/
  noted : ∀ r, .direct r ∈ log → r ∈ s.borrowed
  lent : ∀ r ∈ s.borrowed, ∀ v ∈ s.live, r.Apart v
  /-- what was handed out as guest RAM is never unmapped -/
  spared : Everywhere SparesRam log

theorem balanced_noViews : Balanced noViews [] where
  table := List.Perm.refl _
  liveBytes := rfl
  livePages := rfl
  created := rfl
  distinct := .nil
  whole := nofun
  matched := fun _ => rfl
  noted := nofun
  lent := nofun
  spared := everywhere_nil _

section Steps

variable {s : Tracked} {log : List Effect}

/-- A view with room for its pages holds its first address. -/
theorem PageView.holds_ptr {v : PageView}
    (h : ∃ count, 0 < count ∧ v.len = count * pageSizeX86) : v.Holds v.ptr := by
  obtain ⟨count, hcount, hlen⟩ := h
  have hpos : 0 < v.len := by
    rw [hlen]
    exact Nat.mul_pos hcount (by decide)
  exact ⟨Nat.le_refl _, by omega⟩

/-- A release finds its view whenever there is one. -/
theorem Balanced.mem_live_iff (h : Balanced s log) {ptr len : Nat} :
    (⟨ptr, len⟩ : PageView) ∈ s.live ↔
      ptr ≠ 0 ∧ len ≠ 0 ∧ (⟨ptr, len⟩ : PageView) ∈ s.ledger.pageViews := by
  rw [h.table.mem_iff]
  constructor
  · intro hmem
    obtain ⟨hptr, count, hcount, hlen⟩ := h.whole _ hmem
    refine ⟨hptr, ?_, hmem⟩
    have hpos : 0 < count * pageSizeX86 := Nat.mul_pos hcount (by decide)
    dsimp only at hlen
    omega
  · exact fun hmem => hmem.2.2

theorem Balanced.lend (h : Balanced s log) {layout : HostLayout} {os : Os} {total : Nat}
    {range : PageView} (hapart : Apart s layout os total)
    (held : ∀ a, range.Holds a → ∃ b ∈ layout.blocks, b.Holds a) :
    Balanced { s with borrowed := s.borrowed ++ [range] } (log ++ [.direct range]) := by
  refine { h with matched := ?_, noted := ?_, lent := ?_, spared := ?_ }
  · intro v
    simpa using h.matched v
  · intro r hr
    rcases List.mem_append.mp hr with hold | hnew
    · exact List.mem_append_left _ (h.noted r hold)
    · simp only [List.mem_singleton, Effect.direct.injEq] at hnew
      simp [hnew]
  · intro r hr v hv a hra hva
    rcases List.mem_append.mp hr with hold | hnew
    · exact h.lent r hold v hv a hra hva
    · obtain rfl := List.mem_singleton.mp hnew
      obtain ⟨b, hb, hholds⟩ := held a hra
      exact hapart.ram v hv b hb a hva hholds
  · exact everywhere_concat h.spared nofun

theorem Balanced.discard (h : Balanced s log) {layout : HostLayout} {os : Os} {base total : Nat}
    (hapart : Apart s layout os total) (reserved : os.reserve = some base) :
    Balanced s (log ++ [.discard ⟨base, total⟩]) := by
  refine { h with matched := ?_, noted := ?_, spared := ?_ }
  · intro v
    simpa using h.matched v
  · intro r hr
    exact h.noted r (by simpa using hr)
  · refine everywhere_concat h.spared fun v hv r hdirect => ?_
    obtain rfl := Option.some.inj hv
    exact hapart.handedOut base reserved r (h.noted r hdirect)

theorem Balanced.enter (h : Balanced s log) {layout : HostLayout} {os : Os} {base count : Nat}
    (hapart : Apart s layout os (count * pageSizeX86)) (reserved : os.reserve = some base)
    (hcount : 0 < count) :
    Balanced
      { s with
        ledger := s.ledger.enter base count
        live := s.live ++ [⟨base, count * pageSizeX86⟩] }
      (log ++ [.packed ⟨base, count * pageSizeX86⟩]) where
  table := h.table.append_right _
  liveBytes := by
    have := h.liveBytes
    simp only [Ledger.enter, List.map_append, List.sum_append, List.map_cons, List.map_nil,
      List.sum_singleton]
    omega
  livePages := by
    have := h.livePages
    have hpages : count * pageSizeX86 / pageSizeX86 = count :=
      Nat.mul_div_cancel _ (by decide)
    simp only [Ledger.enter, List.map_append, List.sum_append, List.map_cons, List.map_nil,
      List.sum_singleton, hpages]
    omega
  created := by
    have := h.created
    simp only [Ledger.enter, List.length_append, List.length_singleton]
    omega
  distinct := by
    refine List.pairwise_append.mpr ⟨h.distinct, List.pairwise_singleton _ _, fun v hv w hw => ?_⟩
    obtain rfl := List.mem_singleton.mp hw
    exact hapart.views base reserved v hv
  whole := by
    intro v hv
    rcases List.mem_append.mp hv with hold | hnew
    · exact h.whole v hold
    · obtain rfl := List.mem_singleton.mp hnew
      exact ⟨fun hzero => hapart.nonnull (hzero ▸ reserved), count, hcount, rfl⟩
  matched := by
    intro v
    have := h.matched v
    simp only [List.count_append, List.count_singleton, beq_iff_eq, Effect.packed.injEq,
      reduceCtorEq, if_false]
    omega
  noted := fun r hr => h.noted r (by simpa using hr)
  lent := by
    intro r hr v hv
    rcases List.mem_append.mp hv with hold | hnew
    · exact h.lent r hr v hold
    · obtain rfl := List.mem_singleton.mp hnew
      exact hapart.handedOut base reserved r hr
  spared := everywhere_concat h.spared nofun

/-- A call of `unmap_pages` with a live view and its length unmaps it; any other call does
nothing. -/
theorem Balanced.unmap_cases (h : Balanced s log) (ctx : Bool) (ptr len : Nat) :
    (ctx = true ∧ (⟨ptr, len⟩ : PageView) ∈ s.live ∧
      ∃ rest, s.ledger.pageViews.Perm (⟨ptr, len⟩ :: rest) ∧
        callStep s (.unmap ctx ptr len) =
          ({ s with
              ledger :=
                { pageViews := rest
                  liveBytes := s.ledger.liveBytes - len
                  livePages := s.ledger.livePages - len / pageSizeX86
                  created := s.ledger.created
                  destroyed := s.ledger.destroyed + 1 }
              live := s.live.erase ⟨ptr, len⟩ },
            [.munmap ⟨ptr, len⟩])) ∨
      (¬ (ctx = true ∧ (⟨ptr, len⟩ : PageView) ∈ s.live) ∧
        callStep s (.unmap ctx ptr len) = (s, [])) := by
  rcases pciUnmapPages_cases s.ledger ctx ptr len with
    ⟨rest, rfl, hperm, hcall⟩ | ⟨hmissing, hcall⟩
  · refine .inl ⟨rfl, ?_, rest, hperm, ?_⟩
    · exact h.table.mem_iff.mp (hperm.mem_iff.mpr List.mem_cons_self)
    · simp only [callStep, hcall, if_true, List.map_singleton]
  · have hnone : ¬ (ctx = true ∧ (⟨ptr, len⟩ : PageView) ∈ s.live) := by
      rintro ⟨hctx, hmem⟩
      obtain ⟨hptr, hlen, hview⟩ := h.mem_live_iff.mp hmem
      exact hmissing hctx hptr hlen hview
    refine .inr ⟨hnone, ?_⟩
    simp only [callStep, hcall, List.map_nil]
    split
    · rename_i hctx
      rw [List.erase_of_not_mem fun hmem => hnone ⟨hctx, hmem⟩]
    · rfl

theorem Balanced.unmap (h : Balanced s log) (ctx : Bool) (ptr len : Nat) :
    Balanced (callStep s (.unmap ctx ptr len)).1
      (log ++ (callStep s (.unmap ctx ptr len)).2) := by
  rcases h.unmap_cases ctx ptr len with ⟨-, hlive, rest, hperm, hstep⟩ | ⟨-, hstep⟩
  · rw [hstep]
    have hsub : (s.live.erase ⟨ptr, len⟩).Sublist s.live := List.erase_sublist
    refine
      { table := ?_, liveBytes := ?_, livePages := ?_, created := ?_
        distinct := h.distinct.sublist hsub
        whole := fun v hv => h.whole v (hsub.subset hv)
        matched := ?_
        noted := fun p hp => h.noted p (by simpa using hp)
        lent := fun p hp v hv => h.lent p hp v (hsub.subset hv)
        spared := ?_ }
    · have herase := (h.table.symm.trans hperm).erase ⟨ptr, len⟩
      rw [List.erase_cons_head] at herase
      exact herase.symm
    · have hsum := (hperm.map (·.len)).sum_nat
      rw [← h.liveBytes, List.map_cons, List.sum_cons] at hsum
      dsimp only at hsum ⊢
      omega
    · have hsum := (hperm.map (·.len / pageSizeX86)).sum_nat
      rw [← h.livePages, List.map_cons, List.sum_cons] at hsum
      dsimp only at hsum ⊢
      omega
    · have hlength := hperm.length_eq
      have := h.created
      rw [List.length_cons] at hlength
      dsimp only
      omega
    · intro v
      have hmatched := h.matched v
      have hpos : 0 < s.live.count ⟨ptr, len⟩ := List.count_pos_iff.mpr hlive
      simp only [List.count_append, List.count_singleton, beq_iff_eq, Effect.munmap.injEq,
        reduceCtorEq, if_false, List.count_erase]
      split
      · rename_i hv
        subst hv
        omega
      · omega
    · refine everywhere_concat h.spared fun v hv r hdirect => ?_
      obtain rfl := Option.some.inj hv
      exact h.lent r (h.noted r hdirect) _ hlive
  · rw [hstep, List.append_nil]
    exact h

theorem Balanced.step (h : Balanced s log) {call : Call} (hallowed : Allowed s call) :
    Balanced (callStep s call).1 (log ++ (callStep s call).2) := by
  cases call with
  | unmap ctx ptr len => exact h.unmap ctx ptr len
  | map layout os req =>
    have hends := mapEnds_callStep s layout os req
    generalize callStep s (.map layout os req) = after at hends ⊢
    cases hends with
    | refused => simpa using h
    | lent held => exact h.lend hallowed held
    | discarded reserved => exact h.discard hallowed reserved
    | entered reserved nonempty all =>
      have hapart : Apart s layout os req.total := hallowed
      rw [all] at hapart
      exact h.enter hapart reserved nonempty

end Steps

/-! ## The ledger over whole runs -/

/-- The ledger is exact: the books balance, and the next call unmaps what it should. -/
structure Exact (s : Tracked) (log : List Effect) : Prop extends Balanced s log where
  /-- a view is live at most once, so by `matched` it is unmapped at most once -/
  once : ∀ v, s.live.count v ≤ 1
  /-- `unmap_pages` unmaps a view exactly when it is called with its pointer and length -/
  released : ∀ ctx ptr len, (callStep s (.unmap ctx ptr len)).2 =
    if ctx = true ∧ (⟨ptr, len⟩ : PageView) ∈ s.live then [.munmap ⟨ptr, len⟩] else []
  /-- what `map_pages` unmaps overlaps no live view -/
  untouched : ∀ layout os req, Apart s layout os req.total →
    ∀ e ∈ (callStep s (.map layout os req)).2, ∀ v, e.unmapped = some v →
      ∀ w ∈ s.live, w.Apart v
  /-- the census counts the live views -/
  census : pciPageAliasCensus s.ledger true true =
    some
      { live := s.live.length
        liveBytes := (s.live.map (·.len)).sum
        livePages := (s.live.map (·.len / pageSizeX86)).sum
        created := s.ledger.destroyed + s.live.length
        destroyed := s.ledger.destroyed }

theorem untouched_of_apart {s : Tracked} {layout : HostLayout} {os : Os} {req : Request}
    (hapart : Apart s layout os req.total) {e : Effect}
    (he : e ∈ (callStep s (.map layout os req)).2) {v : PageView} (hv : e.unmapped = some v) :
    ∀ w ∈ s.live, w.Apart v := by
  have hends := mapEnds_callStep s layout os req
  generalize callStep s (.map layout os req) = after at hends he
  cases hends with
  | refused => cases he
  | lent held =>
    rw [List.mem_singleton.mp he] at hv
    cases hv
  | discarded reserved =>
    rw [List.mem_singleton.mp he] at hv
    obtain rfl := Option.some.inj hv
    exact hapart.views _ reserved
  | entered reserved nonempty all =>
    rw [List.mem_singleton.mp he] at hv
    cases hv

/-- Live views that do not overlap are different ones. -/
theorem Balanced.nodup {s : Tracked} {log : List Effect} (h : Balanced s log) :
    s.live.Nodup := by
  refine h.distinct.imp_of_mem fun {v w} hv _ hapart heq => ?_
  have hholds := PageView.holds_ptr (h.whole v hv).2
  exact hapart v.ptr hholds (heq ▸ hholds)

theorem Balanced.exact {s : Tracked} {log : List Effect} (h : Balanced s log) : Exact s log where
  toBalanced := h
  once := fun v => List.nodup_iff_count_le_one.mp h.nodup v
  released := by
    intro ctx ptr len
    rcases h.unmap_cases ctx ptr len with ⟨hctx, hlive, _, -, hstep⟩ | ⟨hnone, hstep⟩
    · rw [hstep, if_pos ⟨hctx, hlive⟩]
    · rw [hstep, if_neg hnone]
  untouched := fun _ _ _ hapart _ he _ hv => untouched_of_apart hapart he hv
  census := by
    have hbytes := (h.table.map (·.len)).sum_nat
    have hpages := (h.table.map (·.len / pageSizeX86)).sum_nat
    simp only [pciPageAliasCensus, h.liveBytes, h.livePages, h.created, hbytes, hpages,
      h.table.length_eq, Bool.true_eq_false, or_self, if_false]

/-- **The ledger is exact after every run** of calls whose mappings do not overlap. -/
theorem ledger_exact (calls : List Call)
    (hcalls : Guarded (fun s call => (callStep s call).1) Allowed noViews calls) :
    Exact (final callStep noViews calls) (observe callStep noViews calls) := by
  have hstep (s : Tracked) (past : List Call) (log : List Effect) (call : Call)
      (hallowed : Allowed s call) (h : Balanced s log) :
      Balanced (callStep s call).1 (log ++ (callStep s call).2) :=
    h.step hallowed
  have hrun := observe_invariant (P := fun s _ log => Balanced s log) hstep hcalls [] []
    balanced_noViews
  rw [List.nil_append] at hrun
  exact hrun.exact

/-! ## The counters -/

/-- The addresses in some views. -/
def addresses (views : List PageView) : Finset Nat :=
  views.foldr (fun v rest => Finset.Ico v.ptr (v.ptr + v.len) ∪ rest) ∅

theorem addresses_cons (v : PageView) (views : List PageView) :
    addresses (v :: views) = Finset.Ico v.ptr (v.ptr + v.len) ∪ addresses views := rfl

theorem mem_addresses {views : List PageView} {a : Nat} :
    a ∈ addresses views ↔ ∃ v ∈ views, v.Holds a := by
  induction views with
  | nil => simp [addresses]
  | cons v views ih =>
    rw [addresses_cons, Finset.mem_union, ih, Finset.mem_Ico, List.exists_mem_cons_iff]
    rfl

/-- Views that do not overlap have as many addresses as bytes. -/
theorem card_addresses {views : List PageView} (happart : views.Pairwise PageView.Apart) :
    (addresses views).card = (views.map (·.len)).sum := by
  induction views with
  | nil => rfl
  | cons v views ih =>
    rw [List.pairwise_cons] at happart
    have hdisjoint : Disjoint (Finset.Ico v.ptr (v.ptr + v.len)) (addresses views) := by
      rw [Finset.disjoint_left]
      intro a ha hrest
      obtain ⟨w, hw, hwa⟩ := mem_addresses.mp hrest
      exact happart.1 w hw a (Finset.mem_Ico.mp ha) hwa
    rw [addresses_cons, Finset.card_union_of_disjoint hdisjoint, ih happart.2, Nat.card_Ico,
      Nat.add_sub_cancel_left, List.map_cons, List.sum_cons]

/-- So they have no more bytes than the range they lie in. -/
theorem sum_len_le {views : List PageView} (happart : views.Pairwise PageView.Apart)
    {lo hi : Nat} (hin : ∀ v ∈ views, lo ≤ v.ptr ∧ v.ptr + v.len ≤ hi) :
    (views.map (·.len)).sum ≤ hi - lo := by
  rw [← card_addresses happart, ← Nat.card_Ico]
  refine Finset.card_le_card fun a ha => ?_
  obtain ⟨v, hv, hlow, hhigh⟩ := mem_addresses.mp ha
  have hbounds := hin v hv
  exact Finset.mem_Ico.mpr ⟨by omega, by omega⟩

/-- A reservation ends inside the address space. -/
def InAddressSpace : Call → Prop
  | .map _ os req => ∀ base, os.reserve = some base → base + req.total ≤ 2 ^ 64
  | .unmap _ _ _ => True

/-- After `n` calls: each call moves at most one of the two event counters, and the live
views end inside the address space. -/
structure Counted (n : Nat) (s : Tracked) : Prop where
  events : s.ledger.created + s.ledger.destroyed ≤ n
  ends : ∀ v ∈ s.live, v.ptr + v.len ≤ 2 ^ 64

theorem Counted.step {n : Nat} {s : Tracked} (h : Counted n s) {call : Call}
    (hcall : InAddressSpace call) : Counted (n + 1) (callStep s call).1 := by
  have hevents := h.events
  cases call with
  | map layout os req =>
    have hends := mapEnds_callStep s layout os req
    generalize callStep s (.map layout os req) = after at hends ⊢
    cases hends with
    | refused => exact ⟨Nat.le_succ_of_le hevents, h.ends⟩
    | lent held => exact ⟨Nat.le_succ_of_le hevents, h.ends⟩
    | discarded reserved => exact ⟨Nat.le_succ_of_le hevents, h.ends⟩
    | @entered base count reserved nonempty all =>
      refine ⟨?_, fun v hv => ?_⟩
      · show s.ledger.created + 1 + s.ledger.destroyed ≤ n + 1
        omega
      · rcases List.mem_append.mp hv with hold | hnew
        · exact h.ends v hold
        · obtain rfl := List.mem_singleton.mp hnew
          have hfits := hcall base reserved
          rw [all] at hfits
          exact hfits
  | unmap ctx ptr len =>
    refine ⟨?_, fun v hv => ?_⟩
    · rcases pciUnmapPages_cases s.ledger ctx ptr len with ⟨rest, -, -, heq⟩ | ⟨-, heq⟩
      · simp only [callStep, heq]
        omega
      · simp only [callStep, heq]
        omega
    · refine h.ends v ?_
      simp only [callStep] at hv
      split at hv
      · exact List.mem_of_mem_erase hv
      · exact hv

/-- In a run of fewer than `2 ^ 64` calls no counter leaves its `uint64_t`: the events are
at most the calls, and the live views lie apart in the address space, above address 0. -/
theorem counters_fit {calls : List Call} (hshort : calls.length < 2 ^ 64)
    (hcalls : Guarded (fun s call => (callStep s call).1)
      (fun s call => Allowed s call ∧ InAddressSpace call) noViews calls) :
    let ledger := (final callStep noViews calls).ledger
    ledger.created < 2 ^ 64 ∧ ledger.destroyed < 2 ^ 64 ∧ ledger.liveBytes < 2 ^ 64 ∧
      ledger.livePages < 2 ^ 64 := by
  obtain ⟨hcount, hbalanced⟩ := observe_invariant
    (P := fun s past log => Counted past.length s ∧ Balanced s log)
    (fun s past log call hok h => by
      rw [List.length_append]
      exact ⟨h.1.step hok.2, h.2.step hok.1⟩)
    hcalls [] [] ⟨⟨Nat.le_refl _, nofun⟩, balanced_noViews⟩
  rw [List.nil_append] at hcount
  have hevents := hcount.events
  have hbytes : (final callStep noViews calls).ledger.liveBytes ≤ 2 ^ 64 - 1 := by
    rw [hbalanced.liveBytes, (hbalanced.table.map (·.len)).sum_nat]
    exact sum_len_le hbalanced.distinct fun v hv =>
      ⟨Nat.one_le_iff_ne_zero.mpr (hbalanced.whole v hv).1, hcount.ends v hv⟩
  have hpages : (final callStep noViews calls).ledger.livePages ≤
      (final callStep noViews calls).ledger.liveBytes := by
    rw [hbalanced.livePages, hbalanced.liveBytes]
    exact List.sum_le_sum fun v _ => Nat.div_le_self _ _
  dsimp only
  omega

/-- One page, which guest RAM has in one piece. -/
def firstPage : Request where
  ctx := true
  gpas := some [0x0]
  outPtr := some 0
  failure := true

/-- A pointer into guest RAM and a packed view, each given back more than once. -/
def givenBackTwice : List Call :=
  [.map sharedRam (willingOs .linux) firstPage,
    .map sharedRam (willingOs .linux) swappedPages,
    .unmap true 0x100000 0x1000,
    .unmap true 0x900000 0x1000,
    .unmap true 0x900000 0x2000,
    .unmap true 0x900000 0x2000,
    .unmap true 0x100000 0x1000]

theorem givenBackTwice_exact :
    observe callStep noViews givenBackTwice =
        [.direct ⟨0x100000, 0x1000⟩, .packed ⟨0x900000, 0x2000⟩, .munmap ⟨0x900000, 0x2000⟩] ∧
      Exact (final callStep noViews givenBackTwice) (observe callStep noViews givenBackTwice) := by
  refine ⟨by decide +kernel, ledger_exact givenBackTwice ?_⟩
  -- no view is live when the two are mapped, and the reservation is not where RAM is
  refine ⟨?_, ?_, trivial, trivial, trivial, trivial, trivial, trivial⟩
  · exact ⟨by decide, fun _ _ => nofun, fun _ _ => nofun, nofun⟩
  · have hlive : (callStep noViews (.map sharedRam (willingOs .linux) firstPage)).1.live = [] := by
      decide +kernel
    have hlent : (callStep noViews (.map sharedRam (willingOs .linux) firstPage)).1.borrowed =
        [⟨0x100000, 0x1000⟩] := by
      decide +kernel
    refine ⟨by decide, fun _ _ v hv => ?_, fun base hbase r hr => ?_, fun v hv => ?_⟩
    · rw [hlive] at hv
      cases hv
    · rw [hlent] at hr
      obtain rfl := List.mem_singleton.mp hr
      obtain rfl : 0x900000 = base := Option.some.inj hbase
      rintro a ⟨-, hhigh⟩ ⟨hlow, -⟩
      dsimp only at hlow hhigh
      omega
    · rw [hlive] at hv
      cases hv

end Orchard.MapPages
