/-
  MapPages/Shims.lean --- `map_pages` of the two display shims.

  `reims_vgpu_mmio_map_pages` (16 KiB pages) and `reims_vgpu_pci_map_pages` (4 KiB
  pages) turn a list of guest pages into one host view.  Both try one translation
  for the whole run, then a translation per page, and last a packed view: a
  reservation whose pages are mapped over the memory behind the guest pages one by
  one.  They differ in what makes the per-page route a success, in what the packed
  route starts from, and in the hosts it exists on.

  The operating system decides whether a reservation or a mapping succeeds (`Os`).
-/
import Orchard.Memory.HostMap

set_option autoImplicit false

namespace Orchard.MapPages

open Orchard.Memory

/-! ## The call -/

/-- The operating systems the shims are built for. -/
inductive HostOs where
  | linux
  | darwin
  | windows
  deriving DecidableEq, Repr

/-- What the operating system answers in one call. -/
structure Os where
  kind : HostOs
  /-- where the reservation is, unless it fails -/
  reserve : Option Nat
  reserveErrno : Nat
  /-- the error of mapping page `i` into it, if it fails -/
  mapErrno : Nat → Option Nat

/-- `REIMS_VGPU_MAP_PAGES_FAILURE_*`. -/
inductive Stage where
  | none
  | reservation
  | alias
  | invalidGuestPage
  deriving DecidableEq, Repr

/-- `ReimsVgpuMapPagesFailure`. -/
structure Failure where
  stage : Stage
  hostErrno : Nat
  pageIndex : Nat
  deriving DecidableEq, Repr

/-- The failure a call starts from. -/
def noFailure : Failure := { stage := .none, hostErrno := 0, pageIndex := 0 }

/-- An entry of `page_views`. -/
structure PageView where
  ptr : Nat
  len : Nat
  deriving DecidableEq, Repr

/-- The ledger of packed views.  The counters are the PCI shim's. -/
structure Ledger where
  pageViews : List PageView
  liveBytes : Nat
  livePages : Nat
  created : Nat
  destroyed : Nat
  deriving DecidableEq, Repr

/-- The arguments: which pointers are given, the pages, and what `*out_ptr` held. -/
structure Request where
  ctx : Bool
  gpas : Option (List (BitVec 64))
  outPtr : Option Nat
  failure : Bool

/-- What a call leaves. -/
structure Result where
  ret : Int
  outPtr : Option Nat
  failure : Option Failure
  ledger : Ledger
  space : Nat → Store

/-- `REIMS_VGPU_GUEST_PAGE_SIZE_ARM64E`. -/
def pageSizeArm64e : Nat := 16384

/-- `1 << REIMS_VGPU_GUEST_PAGE_SHIFT_X86_64`. -/
def pageSizeX86 : Nat := 4096

/-- `UINT64_MAX`, which is also `SIZE_MAX` and `RAM_ADDR_MAX`. -/
def uint64Max : Nat := 2 ^ 64 - 1

/-- The pages of a request whose arguments are accepted. -/
def acceptedGpas (page : Nat) (req : Request) : Option (List (BitVec 64)) :=
  req.gpas.filter fun gpas =>
    req.ctx && !gpas.isEmpty && req.outPtr.isSome && req.failure &&
      decide (gpas.length ≤ uint64Max / page)

/-- The result of a call whose arguments are not. -/
def rejectArguments (layout : HostLayout) (ledger : Ledger) (req : Request) : Result :=
  { ret := -1
    outPtr := req.outPtr
    failure :=
      if req.failure then
        some { noFailure with stage := .invalidGuestPage, pageIndex := uint64Max }
      else none
    ledger := ledger
    space := layout.space }

/-- A call that refuses a view. -/
def refuse (layout : HostLayout) (ledger : Ledger) (req : Request) (failure : Failure) : Result :=
  { ret := -1, outPtr := req.outPtr, failure := some failure, ledger := ledger,
    space := layout.space }

/-- A call that returns a pointer into guest RAM. -/
def borrow (layout : HostLayout) (ledger : Ledger) (hva : Nat) : Result :=
  { ret := 0, outPtr := some hva, failure := some noFailure, ledger := ledger,
    space := layout.space }

/-! ## The direct routes -/

/-- Page `i` of the list is `i` pages behind its first one. -/
def sequential (page : Nat) (gpas : List (BitVec 64)) : Bool :=
  match gpas with
  | [] => true
  | first :: _ => gpas.zipIdx.all fun g => g.1 == first + BitVec.ofNat 64 (g.2 * page)

/-- `reims_vgpu_contiguous_run_hva`, and the same test in the PCI shim: the whole run in
one translation.  No RAM is at address 0, so NULL is `none`. -/
def contiguousRunHva (page : Nat) (view : FlatView) (gpas : List (BitVec 64)) : Option Nat :=
  match gpas with
  | [] => none
  | first :: _ =>
    let count := gpas.length
    if uint64Max / page < count ∨ uint64Max - (count - 1) * page < first.toNat then none
    else if sequential page gpas = false then none
    else
      match ramHva view first.toNat (count * page) with
      | none => none
      | some (_, hva) => if hva % page ≠ 0 then none else some hva

/-- `reims_vgpu_resolve_guest_hvas` from page `i` on: the host addresses, or the first
page that has none. -/
def resolveGuestHvas (page : Nat) (view : FlatView) :
    Nat → List (BitVec 64) → Except Nat (List Nat)
  | _, [] => .ok []
  | i, gpa :: rest =>
    match ramHva view gpa.toNat page with
    | none => .error i
    | some (_, hva) =>
      if hva % page ≠ 0 then .error i
      else (resolveGuestHvas page view (i + 1) rest).map (hva :: ·)

/-- Host address `i` of the list is `i` pages behind its first one. -/
def hostContiguous (page : Nat) (hvas : List Nat) : Bool :=
  match hvas with
  | [] => true
  | first :: _ => hvas.zipIdx.all fun h => h.1 == first + h.2 * page

/-- The page loop of the PCI shim: all pages in one region, one behind the other, from an
aligned one on. -/
def pciPackedRun (page : Nat) (view : FlatView) (gpas : List (BitVec 64)) : Option Nat :=
  match gpas with
  | [] => none
  | first :: _ =>
    match ramHva view first.toNat page with
    | none => none
    | some (mr, base) =>
      if base % page ≠ 0 then none
      else if gpas.zipIdx.all fun g =>
        decide (ramHva view g.1.toNat page = some (mr, base + g.2 * page)) then some base
      else none

/-! ## The packed view -/

/-- A page of the process mapped over something else. -/
def mapPage (space : Nat → Store) (dst page : Nat) (store : Nat → Store) : Nat → Store :=
  fun a => if dst ≤ a ∧ a < dst + page then store (a - dst) else space a

/-- The file page behind a host address: `qemu_ram_block_from_host` and the checks on its
block. -/
def filePage (layout : HostLayout) (page hva : Nat) : Option (Nat × Nat) :=
  (layout.blocks.find? fun b => decide (b.Holds hva)).bind fun b =>
    if b.shared = false then none
    else
      b.fd.bind fun fd =>
        let rbOffset := hva - b.host
        if uint64Max - b.fdOffset < rbOffset then none
        else if (b.fdOffset + rbOffset) % page ≠ 0 then none
        else some (fd, b.fdOffset + rbOffset)

/-- The loop that maps the file pages of `items` into the reservation at `base`, from page
`i` on.  An item is a guest page still to be translated, or a host address. -/
def aliasFilePages {α : Type} (layout : HostLayout) (os : Os) (page base : Nat)
    (hvaOf : α → Option Nat) : Nat → List α → (Nat → Store) → Except Failure (Nat → Store)
  | _, [], space => .ok space
  | i, item :: rest, space =>
    match hvaOf item with
    | none => .error { noFailure with stage := .invalidGuestPage, pageIndex := i }
    | some hva =>
      match filePage layout page hva with
      | none => .error { noFailure with stage := .alias, pageIndex := i }
      | some (fd, off) =>
        match os.mapErrno i with
        | some errno =>
          .error { stage := .alias, hostErrno := errno, pageIndex := i }
        | none =>
          aliasFilePages layout os page base hvaOf (i + 1) rest
            (mapPage space (base + i * page) page fun j => .file fd (off + j))

/-- The loop of `mach_vm_remap`: each page of the reservation over what the host page
stands for. -/
def aliasHostPages (os : Os) (page base : Nat) :
    Nat → List Nat → (Nat → Store) → Except Failure (Nat → Store)
  | _, [], space => .ok space
  | i, hva :: rest, space =>
    match os.mapErrno i with
    | some _ => .error { noFailure with stage := .alias, pageIndex := i }
    | none =>
      aliasHostPages os page base (i + 1) rest
        (mapPage space (base + i * page) page fun j => space (hva + j))

/-- The reservation of a view. -/
def reserveRange (space : Nat → Store) (base total : Nat) : Nat → Store :=
  mapPage space base total fun _ => .reserved

/-- `reims_vgpu_pack_fragmented_view`. -/
def packFragmentedView (layout : HostLayout) (os : Os) (ledger : Ledger) (req : Request)
    (hvas : List Nat) : Result :=
  let page := pageSizeArm64e
  let total := hvas.length * page
  let finish (base : Nat) : Except Failure (Nat → Store) → Result
    | .error failure => refuse layout ledger req failure
    | .ok space =>
      { ret := 0
        outPtr := some base
        failure := some noFailure
        ledger := { ledger with pageViews := ledger.pageViews ++ [⟨base, total⟩] }
        space := space }
  match os.kind with
  | .darwin =>
    match os.reserve with
    | none => refuse layout ledger req { noFailure with stage := .reservation }
    | some base =>
      finish base (aliasHostPages os page base 0 hvas (reserveRange layout.space base total))
  | .linux =>
    match os.reserve with
    | none =>
      refuse layout ledger req
        { noFailure with stage := .reservation, hostErrno := os.reserveErrno }
    | some base =>
      finish base (aliasFilePages layout os page base some 0 hvas
        (reserveRange layout.space base total))
  | .windows => refuse layout ledger req { noFailure with stage := .reservation }

/-- `reims_vgpu_mmio_map_pages`. -/
def mmioMapPages (layout : HostLayout) (os : Os) (ledger : Ledger) (req : Request) : Result :=
  match acceptedGpas pageSizeArm64e req with
  | none => rejectArguments layout ledger req
  | some gpas =>
    match contiguousRunHva pageSizeArm64e layout.view gpas with
    | some hva => borrow layout ledger hva
    | none =>
      match resolveGuestHvas pageSizeArm64e layout.view 0 gpas with
      | .error i =>
        refuse layout ledger req { noFailure with stage := .invalidGuestPage, pageIndex := i }
      | .ok hvas =>
        if hostContiguous pageSizeArm64e hvas then borrow layout ledger (hvas.headD 0)
        else packFragmentedView layout os ledger req hvas

/-- `reims_vgpu_pci_map_pages`. -/
def pciMapPages (layout : HostLayout) (os : Os) (ledger : Ledger) (req : Request) : Result :=
  let page := pageSizeX86
  match acceptedGpas page req with
  | none => rejectArguments layout ledger req
  | some gpas =>
    match contiguousRunHva page layout.view gpas with
    | some hva => borrow layout ledger hva
    | none =>
      match pciPackedRun page layout.view gpas with
      | some base => borrow layout ledger base
      | none =>
        if os.kind = .windows then refuse layout ledger req noFailure
        else
          let total := gpas.length * page
          match os.reserve with
          | none =>
            refuse layout ledger req
              { noFailure with stage := .reservation, hostErrno := os.reserveErrno }
          | some base =>
            match aliasFilePages layout os page base
              (fun gpa => (ramHva layout.view gpa.toNat page).map (·.2)) 0 gpas
              (reserveRange layout.space base total) with
            | .error failure => refuse layout ledger req failure
            | .ok space =>
              { ret := 0
                outPtr := some base
                failure := some noFailure
                ledger :=
                  { ledger with
                    pageViews := ledger.pageViews ++ [⟨base, total⟩]
                    liveBytes := ledger.liveBytes + total
                    livePages := ledger.livePages + gpas.length
                    created := ledger.created + 1 }
                space := space }

end Orchard.MapPages
