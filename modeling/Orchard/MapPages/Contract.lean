/-
  MapPages/Contract.lean --- what `map_pages` promises, and where it does not hold.

  A view aliases its pages when every byte of page `i` of the view stands for the same
  store as the byte of guest RAM it is a view of, and the call left that byte where it
  was.  Each route establishes this in its own way: the direct ones return the host
  addresses themselves, the packed one maps what is behind them.
-/
import Orchard.MapPages.Shims
import Mathlib.Data.List.Forall2

set_option autoImplicit false

namespace Orchard.MapPages

open Orchard.Memory

/-! ## The contract -/

/-- The two shims. -/
inductive Shim where
  | mmio
  | pci
  deriving DecidableEq, Repr

/-- The size of a guest page. -/
def Shim.page : Shim → Nat
  | .mmio => pageSizeArm64e
  | .pci => pageSizeX86

/-- `map_pages` of a shim. -/
def Shim.mapPages : Shim → HostLayout → Os → Ledger → Request → Result
  | .mmio => mmioMapPages
  | .pci => pciMapPages

/-- Every page of the view at `out` is a view of its guest page. -/
def Aliases (layout : HostLayout) (page : Nat) (gpas : List (BitVec 64)) (out : Nat)
    (space : Nat → Store) : Prop :=
  ∀ i gpa, gpas[i]? = some gpa → ∀ j < page, ∃ h,
    hostOf layout.view (gpa.toNat + j) = some h ∧
      space (out + i * page + j) = layout.space h ∧ space h = layout.space h

/-- What the result of a call has to satisfy. -/
structure Kept (layout : HostLayout) (page : Nat) (ledger : Ledger) (req : Request)
    (r : Result) : Prop where
  /-- success: the view aliases the pages -/
  success : r.ret = 0 → ∃ gpas out, req.gpas = some gpas ∧ r.outPtr = some out ∧
    Aliases layout page gpas out r.space
  /-- refusal: a stage is named, and nothing else has changed -/
  failure : r.ret ≠ 0 → r.ret = -1 ∧ (∀ f, r.failure = some f → f.stage ≠ .none) ∧
    r.outPtr = req.outPtr ∧ r.ledger = ledger

/-- The contract of a call. -/
structure Contract (shim : Shim) (layout : HostLayout) (os : Os) (ledger : Ledger)
    (req : Request) : Prop extends
    Kept layout shim.page ledger req (shim.mapPages layout os ledger req) where
  /-- the fast path succeeds only where each page resolves to its place in the run -/
  fastPath : ∀ gpas hva, acceptedGpas shim.page req = some gpas →
    contiguousRunHva shim.page layout.view gpas = some hva →
    ∃ mr, ∀ i gpa, gpas[i]? = some gpa →
      ramHva layout.view gpa.toNat shim.page = some (mr, hva + i * shim.page) ∧
        (hva + i * shim.page) % shim.page = 0

/-- The pages lie one behind the other in one RAM region, from an aligned host address
on. -/
def PackedInRegion (view : FlatView) (page : Nat) (gpas : List (BitVec 64)) : Prop :=
  ∃ mr base, base % page = 0 ∧ ∀ i gpa, gpas[i]? = some gpa →
    ∃ r, InRange view gpa.toNat page r (base + i * page) ∧ r.mr = mr

/-- A reservation is of addresses nothing is mapped at. -/
def Fresh (layout : HostLayout) (os : Os) (total : Nat) : Prop :=
  ∀ base, os.reserve = some base → ∀ a, base ≤ a → a < base + total →
    layout.space a = .unmapped

/-! ## Positions in a list -/

/-- A test of every element with its position. -/
theorem zipIdx_all_iff {α : Type} (xs : List α) (p : α × Nat → Bool) :
    xs.zipIdx.all p = true ↔ ∀ i x, xs[i]? = some x → p (x, i) = true := by
  rw [List.all_eq_true]
  constructor
  · intro h i x hx
    exact h (x, i) (List.mk_mem_zipIdx_iff_getElem?.mpr hx)
  · rintro h ⟨x, i⟩ hx
    exact h i x (List.mk_mem_zipIdx_iff_getElem?.mp hx)

/-! ## The direct routes -/

section Direct

variable {layout : HostLayout} {page : Nat} {gpas : List (BitVec 64)}

/-- Where every page is at its place in the run, the run is the view. -/
theorem aliases_of_inRange {base : Nat}
    (h : ∀ i gpa, gpas[i]? = some gpa →
      ∃ r, InRange layout.view gpa.toNat page r (base + i * page)) :
    Aliases layout page gpas base layout.space := by
  intro i gpa hgpa j hj
  obtain ⟨r, hin⟩ := h i gpa hgpa
  exact ⟨base + i * page + j, hin.hostOf hj, rfl, rfl⟩

/-- A sequential list that does not wrap counts up from its first page. -/
theorem toNat_of_sequential {first gpa : BitVec 64} {rest : List (BitVec 64)} {i : Nat}
    (hpage : 0 < page) (hseq : sequential page (first :: rest) = true)
    (hcount : (first :: rest).length ≤ uint64Max / page)
    (hlast : first.toNat ≤ uint64Max - ((first :: rest).length - 1) * page)
    (hgpa : (first :: rest)[i]? = some gpa) : gpa.toNat = first.toNat + i * page := by
  have hi : i < (first :: rest).length := (List.getElem?_eq_some_iff.mp hgpa).1
  have hback : i * page ≤ ((first :: rest).length - 1) * page :=
    Nat.mul_le_mul_right _ (by omega)
  have htotal : ((first :: rest).length - 1) * page ≤ (first :: rest).length * page :=
    Nat.mul_le_mul_right _ (by omega)
  have hmax := (Nat.le_div_iff_mul_le hpage).mp hcount
  have hplace : gpa = first + BitVec.ofNat 64 (i * page) := by
    rw [sequential, zipIdx_all_iff] at hseq
    simpa using hseq i gpa hgpa
  have hsum : first.toNat + i * page < 2 ^ 64 := by
    unfold uint64Max at hlast hmax
    omega
  rw [hplace, BitVec.toNat_add, BitVec.toNat_ofNat,
    Nat.mod_eq_of_lt (by omega : i * page < 2 ^ 64), Nat.mod_eq_of_lt hsum]

/-- The whole run in one translation puts every page at its place. -/
theorem packedInRegion_of_contiguousRunHva {view : FlatView} {hva : Nat} (hpage : 0 < page)
    (h : contiguousRunHva page view gpas = some hva) :
    hva % page = 0 ∧ ∃ mr, ∀ i gpa, gpas[i]? = some gpa →
      ∃ r, InRange view gpa.toNat page r (hva + i * page) ∧ r.mr = mr := by
  unfold contiguousRunHva at h
  cases gpas with
  | nil => cases h
  | cons first rest =>
    dsimp only at h
    split at h
    · cases h
    · rename_i hwrap
      rw [not_or, Nat.not_lt, Nat.not_lt] at hwrap
      split at h
      · cases h
      · rename_i hseq
        split at h
        · cases h
        · rename_i mr base hrun
          split at h
          · cases h
          · rename_i halign
            obtain rfl := Option.some.inj h
            obtain ⟨r, hin, hmr⟩ := (ramHva_eq_some_iff (by
              rw [List.length_cons]
              exact Nat.mul_pos (Nat.succ_pos _) hpage)).mp hrun
            refine ⟨by simpa using halign, mr, fun i gpa hgpa => ⟨r, ?_, hmr⟩⟩
            have hi : i < (first :: rest).length := (List.getElem?_eq_some_iff.mp hgpa).1
            have hstep : (i + 1) * page ≤ (first :: rest).length * page :=
              Nat.mul_le_mul_right _ hi
            rw [toNat_of_sequential hpage (by simpa using hseq) hwrap.1 hwrap.2 hgpa]
            exact hin.sub (by rw [Nat.add_mul] at hstep; omega)

/-- The page loop of the PCI shim succeeds exactly on packed runs. -/
theorem pciPackedRun_isSome_iff {view : FlatView} (hpage : 0 < page) (hne : gpas ≠ []) :
    (∃ base, pciPackedRun page view gpas = some base) ↔ PackedInRegion view page gpas := by
  obtain ⟨first, rest, rfl⟩ := List.exists_cons_of_ne_nil hne
  have hfirst : (first :: rest)[0]? = some first := rfl
  constructor
  · rintro ⟨base, h⟩
    unfold pciPackedRun at h
    dsimp only at h
    split at h
    · cases h
    · rename_i mr start hstart
      split at h
      · cases h
      · rename_i halign
        split at h
        · rename_i hall
          refine ⟨mr, start, by simpa using halign, fun i gpa hgpa => ?_⟩
          rw [zipIdx_all_iff] at hall
          exact (ramHva_eq_some_iff hpage).mp (of_decide_eq_true (hall i gpa hgpa))
        · cases h
  · rintro ⟨mr, base, halign, hpages⟩
    have hat (i : Nat) (gpa : BitVec 64) (hgpa : (first :: rest)[i]? = some gpa) :
        ramHva view gpa.toNat page = some (mr, base + i * page) :=
      (ramHva_eq_some_iff hpage).mpr (hpages i gpa hgpa)
    have hstart := hat 0 first hfirst
    rw [Nat.zero_mul, Nat.add_zero] at hstart
    refine ⟨base, ?_⟩
    unfold pciPackedRun
    dsimp only
    rw [hstart]
    dsimp only
    rw [if_neg (by simpa using halign), if_pos]
    rw [zipIdx_all_iff]
    intro i gpa hgpa
    exact decide_eq_true (hat i gpa hgpa)

/-- What the PCI page loop returns is where the pages are. -/
theorem inRange_of_pciPackedRun {view : FlatView} {base : Nat} (hpage : 0 < page)
    (h : pciPackedRun page view gpas = some base) :
    ∀ i gpa, gpas[i]? = some gpa → ∃ r, InRange view gpa.toNat page r (base + i * page) := by
  unfold pciPackedRun at h
  split at h
  · cases h
  · split at h
    · cases h
    · split at h
      · cases h
      · split at h
        · rename_i hall
          obtain rfl := Option.some.inj h
          intro i gpa hgpa
          rw [zipIdx_all_iff] at hall
          obtain ⟨r, hin, -⟩ :=
            (ramHva_eq_some_iff hpage).mp (of_decide_eq_true (hall i gpa hgpa))
          exact ⟨r, hin⟩
        · cases h

/-- The MMIO shim's host addresses are where the pages are. -/
theorem forall₂_of_resolveGuestHvas {view : FlatView} {hvas : List Nat} (hpage : 0 < page)
    {i : Nat} (h : resolveGuestHvas page view i gpas = .ok hvas) :
    List.Forall₂ (fun gpa hva => ∃ r, InRange view (BitVec.toNat gpa) page r hva) gpas hvas := by
  induction gpas generalizing i hvas with
  | nil =>
    rw [resolveGuestHvas] at h
    cases h
    exact .nil
  | cons gpa rest ih =>
    rw [resolveGuestHvas] at h
    split at h
    · cases h
    · rename_i mr hva hram
      split at h
      · cases h
      · cases hrest : resolveGuestHvas page view (i + 1) rest with
        | error e =>
          rw [hrest] at h
          cases h
        | ok others =>
          rw [hrest] at h
          cases h
          obtain ⟨r, hin, -⟩ := (ramHva_eq_some_iff hpage).mp hram
          exact .cons ⟨r, hin⟩ (ih hrest)

/-- Host-contiguous pages are the view. -/
theorem aliases_of_hostContiguous {hvas : List Nat} (hne : gpas ≠ [])
    (hpages : List.Forall₂ (fun gpa hva => ∃ r, InRange layout.view (BitVec.toNat gpa) page r hva)
      gpas hvas) (h : hostContiguous page hvas = true) :
    Aliases layout page gpas (hvas.headD 0) layout.space := by
  apply aliases_of_inRange
  intro i gpa hgpa
  cases hpages with
  | nil => exact absurd rfl hne
  | @cons g hva gs hs hhead htail =>
    rw [hostContiguous, zipIdx_all_iff] at h
    have hpages : List.Forall₂
        (fun gpa hva => ∃ r, InRange layout.view (BitVec.toNat gpa) page r hva)
        (g :: gs) (hva :: hs) := .cons hhead htail
    have hi : i < (hva :: hs).length := by
      rw [← hpages.length_eq]
      exact (List.getElem?_eq_some_iff.mp hgpa).1
    have hat := hpages.get (List.getElem?_eq_some_iff.mp hgpa).1 hi
    obtain ⟨hlt, hgpa⟩ := List.getElem?_eq_some_iff.mp hgpa
    have hplace : (hva :: hs)[i] = hva + i * page :=
      beq_iff_eq.mp (h i (hva :: hs)[i] (List.getElem?_eq_getElem hi))
    simp only [List.get_eq_getElem, hgpa, hplace] at hat
    exact hat

end Direct

/-! ## The packed view -/

section Packed

variable {layout : HostLayout} {os : Os} {page base : Nat}

/-- Pages mapped one behind the other into a view, from page `i` on. -/
def mapAll (base page : Nat) : Nat → List (Nat → Store) → (Nat → Store) → Nat → Store
  | _, [], space => space
  | i, store :: rest, space =>
    mapAll base page (i + 1) rest (mapPage space (base + i * page) page store)

theorem mapAll_outside {stores : List (Nat → Store)} {space : Nat → Store} {i a : Nat}
    (h : a < base + i * page ∨ base + (i + stores.length) * page ≤ a) :
    mapAll base page i stores space a = space a := by
  induction stores generalizing i space with
  | nil => rfl
  | cons store rest ih =>
    have hlen : i + (store :: rest).length = i + 1 + rest.length := by
      rw [List.length_cons]
      omega
    rw [hlen] at h
    have hnext : base + (i + 1) * page = base + i * page + page := by
      rw [Nat.add_mul]
      omega
    have hmono : (i + 1) * page ≤ (i + 1 + rest.length) * page :=
      Nat.mul_le_mul_right _ (by omega)
    rw [mapAll, ih (by omega), mapPage, if_neg (by omega)]

theorem mapAll_inside {stores : List (Nat → Store)} {space : Nat → Store} {store : Nat → Store}
    {i k j : Nat} (hstore : stores[k]? = some store) (hj : j < page) :
    mapAll base page i stores space (base + (i + k) * page + j) = store j := by
  induction stores generalizing i k space with
  | nil => simp at hstore
  | cons first rest ih =>
    rw [mapAll]
    cases k with
    | zero =>
      rw [List.getElem?_cons_zero, Option.some.injEq] at hstore
      subst hstore
      have hnext : base + (i + 1) * page = base + i * page + page := by
        rw [Nat.add_mul]
        omega
      simp only [Nat.add_zero]
      rw [mapAll_outside (by omega), mapPage, if_pos (by omega), Nat.add_sub_cancel_left]
    | succ k =>
      rw [List.getElem?_cons_succ] at hstore
      have hshift : i + (k + 1) = i + 1 + k := by omega
      rw [hshift]
      exact ih hstore

/-- A store for each guest page that stands for what the page's host bytes do. -/
def Standing (layout : HostLayout) (page : Nat) (gpa : BitVec 64) (store : Nat → Store) : Prop :=
  ∃ r hva, InRange layout.view gpa.toNat page r hva ∧
    ∀ j < page, store j = layout.space (hva + j)

/-- Guest RAM is mapped, so a fresh reservation is apart from it. -/
theorem space_ne_unmapped {hva size j : Nat} (h : layout.InBlock hva size) (hj : j < size) :
    layout.space (hva + j) ≠ .unmapped := by
  obtain ⟨b, hb, hlow, hhigh⟩ := h
  have hmapped := layout.mapped b hb (hva + j - b.host) (by omega)
  rw [Nat.add_sub_cancel' (by omega)] at hmapped
  rw [hmapped, RamBlock.store]
  split
  · split <;> nofun
  · nofun

/-- A view packed from such stores aliases the pages. -/
theorem aliases_of_mapAll {gpas : List (BitVec 64)} {stores : List (Nat → Store)}
    (hfresh : ∀ a, base ≤ a → a < base + gpas.length * page → layout.space a = .unmapped)
    (hstores : List.Forall₂ (Standing layout page) gpas stores) :
    Aliases layout page gpas base
      (mapAll base page 0 stores (reserveRange layout.space base (gpas.length * page))) := by
  intro i gpa hgpa j hj
  obtain ⟨hi, hget⟩ := List.getElem?_eq_some_iff.mp hgpa
  have hi' : i < stores.length := by rw [← hstores.length_eq]; exact hi
  obtain ⟨r, hva, hin, hstand⟩ := hstores.get hi hi'
  rw [List.get_eq_getElem, hget] at hin
  refine ⟨hva + j, hin.hostOf hj, ?_, ?_⟩
  · have hinside :
        mapAll base page 0 stores (reserveRange layout.space base (gpas.length * page))
          (base + (0 + i) * page + j) = _ :=
      mapAll_inside (List.getElem?_eq_getElem hi') hj
    rw [Nat.zero_add] at hinside
    rw [hinside]
    exact hstand j hj
  · have hnot : ¬ (base ≤ hva + j ∧ hva + j < base + gpas.length * page) := fun hview =>
      space_ne_unmapped (layout.inBlock_of_inRange hin) hj (hfresh _ hview.1 hview.2)
    have hlen := hstores.length_eq
    rw [mapAll_outside, reserveRange, mapPage, if_neg hnot]
    rw [Nat.zero_mul, Nat.zero_add, ← hlen]
    omega

/-- The file page behind a host page is what the host page stands for. -/
theorem space_of_filePage {hva fd off : Nat} (h : filePage layout page hva = some (fd, off))
    (hblock : layout.InBlock hva page) :
    ∀ j < page, layout.space (hva + j) = .file fd (off + j) := by
  intro j hj
  obtain ⟨b, hb, hlow, hhigh⟩ := hblock
  have hholds : b.Holds hva := ⟨hlow, by omega⟩
  unfold filePage at h
  cases hfind : layout.blocks.find? fun b => decide (b.Holds hva) with
  | none =>
    rw [hfind] at h
    cases h
  | some q =>
    have hq : q.Holds hva := by simpa using List.find?_some hfind
    obtain rfl := layout.block_unique (List.mem_of_find?_eq_some hfind) hb hq hholds
    rw [hfind, Option.bind_some] at h
    split at h
    · cases h
    · rename_i hshared
      cases hfd : q.fd with
      | none =>
        rw [hfd] at h
        cases h
      | some fd' =>
        rw [hfd, Option.bind_some] at h
        dsimp only at h
        split at h
        · cases h
        · split at h
          · cases h
          · have hpair := Prod.mk.inj (Option.some.inj h)
            have hmapped := layout.mapped q hb (hva + j - q.host) (by omega)
            rw [Nat.add_sub_cancel' (by omega), RamBlock.store, hfd] at hmapped
            rw [hmapped]
            dsimp only
            rw [if_pos (by simpa using hshared), hpair.1, ← hpair.2]
            congr 1
            omega

/-- The file loop that goes through mapped the file page of every item. -/
theorem mapAll_of_aliasFilePages {α : Type} {hvaOf : α → Option Nat} {items : List α} {i : Nat}
    {space space' : Nat → Store}
    (h : aliasFilePages layout os page base hvaOf i items space = .ok space') :
    ∃ stores, space' = mapAll base page i stores space ∧
      List.Forall₂ (fun item store => ∃ hva fd off, hvaOf item = some hva ∧
        filePage layout page hva = some (fd, off) ∧ ∀ j, store j = Store.file fd (off + j))
        items stores := by
  induction items generalizing i space with
  | nil =>
    rw [aliasFilePages] at h
    cases h
    exact ⟨[], rfl, .nil⟩
  | cons item rest ih =>
    rw [aliasFilePages] at h
    split at h
    · cases h
    · rename_i hva hhva
      split at h
      · cases h
      · rename_i fd off hfile
        split at h
        · cases h
        · obtain ⟨stores, hspace, hstores⟩ := ih h
          exact ⟨_ :: stores, hspace, .cons ⟨hva, fd, off, hhva, hfile, fun _ => rfl⟩ hstores⟩

/-- A file loop that stops names a stage. -/
theorem stage_of_aliasFilePages {α : Type} {hvaOf : α → Option Nat} {items : List α} {i : Nat}
    {space : Nat → Store} {failure : Failure}
    (h : aliasFilePages layout os page base hvaOf i items space = .error failure) :
    failure.stage ≠ .none := by
  induction items generalizing i space with
  | nil =>
    rw [aliasFilePages] at h
    cases h
  | cons item rest ih =>
    rw [aliasFilePages] at h
    split at h
    · cases h
      nofun
    · split at h
      · cases h
        nofun
      · split at h
        · cases h
          nofun
        · exact ih h

/-- The remap loop that goes through mapped what every host page stands for; the view
does not reach the host pages, so they stand for what they did. -/
theorem mapAll_of_aliasHostPages {hvas : List Nat} {i limit : Nat} {space space' : Nat → Store}
    (hlimit : i + hvas.length ≤ limit)
    (hsame : ∀ a, ¬ (base ≤ a ∧ a < base + limit * page) → space a = layout.space a)
    (happart : ∀ hva ∈ hvas, ∀ j < page, ¬ (base ≤ hva + j ∧ hva + j < base + limit * page))
    (h : aliasHostPages os page base i hvas space = .ok space') :
    ∃ stores, space' = mapAll base page i stores space ∧
      List.Forall₂ (fun hva store => ∀ j < page, store j = layout.space (hva + j))
        hvas stores := by
  induction hvas generalizing i space with
  | nil =>
    rw [aliasHostPages] at h
    cases h
    exact ⟨[], rfl, .nil⟩
  | cons hva rest ih =>
    rw [aliasHostPages] at h
    rw [List.length_cons] at hlimit
    split at h
    · cases h
    · have hnext : ∀ a, ¬ (base ≤ a ∧ a < base + limit * page) →
          mapPage space (base + i * page) page (fun j => space (hva + j)) a =
            layout.space a := by
        intro a ha
        have hend : (i + 1) * page ≤ limit * page := Nat.mul_le_mul_right _ (by omega)
        rw [Nat.add_mul] at hend
        rw [mapPage, if_neg (by omega)]
        exact hsame a ha
      obtain ⟨stores, hspace, hstores⟩ := ih (by omega) hnext
        (fun x hx => happart x (List.mem_cons_of_mem _ hx)) h
      exact ⟨_ :: stores, hspace, .cons
        (fun j hj => hsame _ (happart hva List.mem_cons_self j hj)) hstores⟩

/-- A remap loop that stops names a stage. -/
theorem stage_of_aliasHostPages {hvas : List Nat} {i : Nat} {space : Nat → Store}
    {failure : Failure} (h : aliasHostPages os page base i hvas space = .error failure) :
    failure.stage ≠ .none := by
  induction hvas generalizing i space with
  | nil =>
    rw [aliasHostPages] at h
    cases h
  | cons hva rest ih =>
    rw [aliasHostPages] at h
    split at h
    · cases h
      nofun
    · exact ih h

end Packed

/-! ## The shims -/

section Routes

variable {layout : HostLayout} {os : Os} {ledger : Ledger} {req : Request} {page : Nat}
  {gpas : List (BitVec 64)}

theorem kept_rejectArguments : Kept layout page ledger req (rejectArguments layout ledger req) := by
  refine ⟨nofun, fun _ => ⟨rfl, fun f hf => ?_, rfl, rfl⟩⟩
  unfold rejectArguments at hf
  dsimp only at hf
  split at hf
  · cases hf
    nofun
  · cases hf

theorem kept_refuse {failure : Failure} (h : failure.stage ≠ .none) :
    Kept layout page ledger req (refuse layout ledger req failure) :=
  ⟨nofun, fun _ => ⟨rfl, fun f hf => by cases hf; exact h, rfl, rfl⟩⟩

theorem kept_borrow {hva : Nat} (hgpas : req.gpas = some gpas)
    (h : Aliases layout page gpas hva layout.space) :
    Kept layout page ledger req (borrow layout ledger hva) :=
  ⟨fun _ => ⟨gpas, hva, hgpas, rfl, h⟩, fun hret => absurd rfl hret⟩

theorem gpas_of_acceptedGpas (h : acceptedGpas page req = some gpas) :
    req.gpas = some gpas ∧ gpas ≠ [] := by
  rw [acceptedGpas, Option.filter_eq_some_iff] at h
  refine ⟨h.1, ?_⟩
  rintro rfl
  simp at h

/-- Stores for the host pages are stores for the guest pages. -/
theorem standing_of_hvas {hvas : List Nat} {stores : List (Nat → Store)}
    (hpages : List.Forall₂
      (fun gpa hva => ∃ r, InRange layout.view (BitVec.toNat gpa) page r hva) gpas hvas)
    (hstores : List.Forall₂ (fun hva store => layout.InBlock hva page →
      ∀ j < page, store j = layout.space (hva + j)) hvas stores) :
    List.Forall₂ (Standing layout page) gpas stores := by
  induction hpages generalizing stores with
  | nil =>
    cases hstores
    exact .nil
  | cons hpage _ ih =>
    cases hstores with
    | cons hstore hrest =>
      obtain ⟨r, hin⟩ := hpage
      exact .cons ⟨r, _, hin, hstore (layout.inBlock_of_inRange hin)⟩ (ih hrest)

/-- A fresh reservation is apart from the host pages. -/
theorem apart_of_fresh {hvas : List Nat} {base total : Nat}
    (hfresh : ∀ a, base ≤ a → a < base + total → layout.space a = .unmapped)
    (hpages : List.Forall₂
      (fun gpa hva => ∃ r, InRange layout.view (BitVec.toNat gpa) page r hva) gpas hvas) :
    ∀ hva ∈ hvas, ∀ j < page, ¬ (base ≤ hva + j ∧ hva + j < base + total) := by
  induction hpages with
  | nil =>
    intro hva hmem
    cases hmem
  | cons hpage _ ih =>
    intro hva hmem j hj hview
    rcases List.mem_cons.mp hmem with rfl | hmem
    · obtain ⟨r, hin⟩ := hpage
      exact space_ne_unmapped (layout.inBlock_of_inRange hin) hj (hfresh _ hview.1 hview.2)
    · exact ih hva hmem j hj hview

/-- A packed view that went through. -/
theorem kept_packed {base : Nat} {space : Nat → Store} {ledger' : Ledger}
    (hgpas : req.gpas = some gpas) (h : Aliases layout page gpas base space) :
    Kept layout page ledger req
      { ret := 0, outPtr := some base, failure := some noFailure, ledger := ledger',
        space := space } :=
  ⟨fun _ => ⟨gpas, base, hgpas, rfl, h⟩, fun hret => absurd rfl hret⟩

theorem kept_packFragmentedView {hvas : List Nat} (hgpas : req.gpas = some gpas)
    (hfresh : Fresh layout os (gpas.length * pageSizeArm64e))
    (hpages : List.Forall₂
      (fun gpa hva => ∃ r, InRange layout.view (BitVec.toNat gpa) pageSizeArm64e r hva) gpas hvas) :
    Kept layout pageSizeArm64e ledger req (packFragmentedView layout os ledger req hvas) := by
  have hlen := hpages.length_eq
  unfold packFragmentedView
  dsimp only
  rw [← hlen]
  split
  · split
    · exact kept_refuse nofun
    · rename_i base hbase
      split
      · rename_i failure hloop
        exact kept_refuse (stage_of_aliasHostPages hloop)
      · rename_i space hloop
        have hsame : ∀ a, ¬ (base ≤ a ∧ a < base + gpas.length * pageSizeArm64e) →
            reserveRange layout.space base (gpas.length * pageSizeArm64e) a = layout.space a :=
          fun a ha => if_neg ha
        obtain ⟨stores, rfl, hstores⟩ := mapAll_of_aliasHostPages (by omega) hsame
          (apart_of_fresh (hfresh base hbase) hpages) hloop
        refine kept_packed hgpas (aliases_of_mapAll (hfresh base hbase)
          (standing_of_hvas hpages (hstores.imp ?_)))
        intro hva store hstore _
        exact hstore
  · split
    · exact kept_refuse nofun
    · rename_i base hbase
      split
      · rename_i failure hloop
        exact kept_refuse (stage_of_aliasFilePages hloop)
      · rename_i space hloop
        obtain ⟨stores, rfl, hstores⟩ := mapAll_of_aliasFilePages hloop
        refine kept_packed hgpas (aliases_of_mapAll (hfresh base hbase)
          (standing_of_hvas hpages (hstores.imp ?_)))
        rintro hva store ⟨hva', fd, off, hsome, hfile, hstore⟩ hblock j hj
        obtain rfl := Option.some.inj hsome
        rw [hstore, space_of_filePage hfile hblock j hj]
  · exact kept_refuse nofun

/-- The MMIO shim keeps the contract on every host. -/
theorem kept_mmioMapPages
    (hfresh : ∀ gpas, acceptedGpas pageSizeArm64e req = some gpas →
      Fresh layout os (gpas.length * pageSizeArm64e)) :
    Kept layout pageSizeArm64e ledger req (mmioMapPages layout os ledger req) := by
  have hpage : 0 < pageSizeArm64e := by decide
  unfold mmioMapPages
  split
  · exact kept_rejectArguments
  · rename_i gpas haccepted
    obtain ⟨hgpas, hne⟩ := gpas_of_acceptedGpas haccepted
    split
    · rename_i hva hrun
      obtain ⟨-, mr, hpages⟩ := packedInRegion_of_contiguousRunHva hpage hrun
      refine kept_borrow hgpas (aliases_of_inRange fun i gpa hgpa => ?_)
      obtain ⟨r, hin, -⟩ := hpages i gpa hgpa
      exact ⟨r, hin⟩
    · split
      · exact kept_refuse nofun
      · rename_i hvas hresolve
        have hpages := forall₂_of_resolveGuestHvas hpage hresolve
        split
        · rename_i hcontig
          exact kept_borrow hgpas (aliases_of_hostContiguous hne hpages hcontig)
        · exact kept_packFragmentedView hgpas (hfresh gpas haccepted) hpages

/-- The packed route of the PCI shim, on the hosts that have it. -/
theorem kept_pciMapPages
    (hfresh : ∀ gpas, acceptedGpas pageSizeX86 req = some gpas →
      Fresh layout os (gpas.length * pageSizeX86))
    (hroute : os.kind = .windows → ∀ gpas, acceptedGpas pageSizeX86 req = some gpas →
      PackedInRegion layout.view pageSizeX86 gpas) :
    Kept layout pageSizeX86 ledger req (pciMapPages layout os ledger req) := by
  have hpage : 0 < pageSizeX86 := by decide
  unfold pciMapPages
  dsimp only
  split
  · exact kept_rejectArguments
  · rename_i gpas haccepted
    obtain ⟨hgpas, hne⟩ := gpas_of_acceptedGpas haccepted
    split
    · rename_i hva hrun
      obtain ⟨-, mr, hpages⟩ := packedInRegion_of_contiguousRunHva hpage hrun
      refine kept_borrow hgpas (aliases_of_inRange fun i gpa hgpa => ?_)
      obtain ⟨r, hin, -⟩ := hpages i gpa hgpa
      exact ⟨r, hin⟩
    · split
      · rename_i base hpacked
        exact kept_borrow hgpas (aliases_of_inRange (inRange_of_pciPackedRun hpage hpacked))
      · rename_i hloop
        split
        · rename_i hwindows
          obtain ⟨base, hbase⟩ :=
            (pciPackedRun_isSome_iff hpage hne).mpr (hroute hwindows gpas haccepted)
          rw [hloop] at hbase
          cases hbase
        · split
          · exact kept_refuse nofun
          · rename_i base hbase
            split
            · rename_i failure hfiles
              exact kept_refuse (stage_of_aliasFilePages hfiles)
            · rename_i space hfiles
              obtain ⟨stores, rfl, hstores⟩ := mapAll_of_aliasFilePages hfiles
              refine kept_packed hgpas (aliases_of_mapAll (hfresh gpas haccepted base hbase)
                (hstores.imp ?_))
              rintro gpa store ⟨hva, fd, off, hhva, hfile, hstore⟩
              obtain ⟨⟨mr, hva'⟩, hram, rfl⟩ := Option.map_eq_some_iff.mp hhva
              obtain ⟨r, hin, -⟩ := (ramHva_eq_some_iff hpage).mp hram
              refine ⟨r, hva', hin, fun j hj => ?_⟩
              rw [hstore, space_of_filePage hfile (layout.inBlock_of_inRange hin) j hj]

end Routes

/-- **`map_pages` keeps its contract, except on Windows in the PCI shim** where the pages
are not packed in one region: the call then refuses without naming a stage. -/
theorem contract_iff (shim : Shim) (layout : HostLayout) (os : Os) (ledger : Ledger)
    (req : Request)
    (hfresh : ∀ gpas, acceptedGpas shim.page req = some gpas →
      Fresh layout os (gpas.length * shim.page)) :
    Contract shim layout os ledger req ↔
      ¬ (shim = .pci ∧ os.kind = .windows ∧ ∃ gpas, acceptedGpas shim.page req = some gpas ∧
        ¬ PackedInRegion layout.view shim.page gpas) := by
  have hfast (gpas : List (BitVec 64)) (hva : Nat)
      (hrun : contiguousRunHva shim.page layout.view gpas = some hva) :
      ∃ mr, ∀ i gpa, gpas[i]? = some gpa →
        ramHva layout.view gpa.toNat shim.page = some (mr, hva + i * shim.page) ∧
          (hva + i * shim.page) % shim.page = 0 := by
    have hpage : 0 < shim.page := by cases shim <;> decide
    obtain ⟨halign, mr, hpages⟩ := packedInRegion_of_contiguousRunHva hpage hrun
    refine ⟨mr, fun i gpa hgpa => ⟨(ramHva_eq_some_iff hpage).mpr (hpages i gpa hgpa), ?_⟩⟩
    rw [Nat.add_mul_mod_self_right, halign]
  cases shim with
  | mmio =>
    refine ⟨fun _ h => absurd h.1 (by decide), fun _ => ?_⟩
    have hkept : Kept layout pageSizeArm64e ledger req _ := kept_mmioMapPages hfresh
    exact ⟨hkept, fun gpas hva _ => hfast gpas hva⟩
  | pci =>
    constructor
    · rintro hcontract ⟨-, hwindows, gpas, haccepted, hscattered⟩
      have hpage : 0 < pageSizeX86 := by decide
      obtain ⟨-, hne⟩ := gpas_of_acceptedGpas haccepted
      have hslow : pciPackedRun pageSizeX86 layout.view gpas = none := by
        rw [Option.eq_none_iff_forall_ne_some]
        intro base hbase
        exact hscattered ((pciPackedRun_isSome_iff hpage hne).mp ⟨base, hbase⟩)
      have hrun : contiguousRunHva pageSizeX86 layout.view gpas = none := by
        rw [Option.eq_none_iff_forall_ne_some]
        intro hva hhva
        obtain ⟨halign, mr, hpages⟩ := packedInRegion_of_contiguousRunHva hpage hhva
        exact hscattered ⟨mr, hva, halign, hpages⟩
      have hresult : pciMapPages layout os ledger req = refuse layout ledger req noFailure := by
        have haccepted' : acceptedGpas pageSizeX86 req = some gpas := haccepted
        unfold pciMapPages
        simp only [haccepted', hrun, hslow, hwindows, if_true]
      have hret : (Shim.pci.mapPages layout os ledger req).ret ≠ 0 := by
        rw [Shim.mapPages, hresult]
        nofun
      obtain ⟨-, hstage, -⟩ := hcontract.failure hret
      refine hstage noFailure ?_ rfl
      rw [Shim.mapPages, hresult]
      rfl
    · intro hroute
      have hkept : Kept layout pageSizeX86 ledger req _ :=
        kept_pciMapPages hfresh fun hwindows gpas haccepted => by
          by_contra hscattered
          exact hroute ⟨rfl, hwindows, gpas, haccepted, hscattered⟩
      exact ⟨hkept, fun gpas hva _ => hfast gpas hva⟩

/-! ## Four pages of shared RAM -/

/-- Guest RAM of 16 KiB at guest address 0, mapped from a file at `0x100000`. -/
def sharedRam : HostLayout where
  view :=
    { ranges := [⟨0, 0x4000, ⟨1, true, 0, 0x100000⟩, 0, false⟩]
      nonempty := by decide
      ascending := by decide
      bounded := by decide }
  blocks := [⟨0x100000, 0x4000, some 5, 0, true⟩]
  space := fun a => if 0x100000 ≤ a ∧ a < 0x104000 then .file 5 (a - 0x100000) else .unmapped
  apart := by decide
  backed := by decide
  mapped := by
    intro b hb off hoff
    rw [List.mem_singleton] at hb
    subst hb
    dsimp only at hoff ⊢
    rw [if_pos ⟨by omega, by omega⟩, Nat.add_sub_cancel_left]
    simp [RamBlock.store]

/-- Two pages in the other order. -/
def swappedPages : Request where
  ctx := true
  gpas := some [0x1000, 0x0]
  outPtr := some 0
  failure := true

def emptyLedger : Ledger :=
  { pageViews := [], liveBytes := 0, livePages := 0, created := 0, destroyed := 0 }

/-- A host that reserves at `0x900000` and maps every page. -/
def willingOs (kind : HostOs) : Os where
  kind := kind
  reserve := some 0x900000
  reserveErrno := 0
  mapErrno := fun _ => none

/-- On Windows the PCI shim refuses the swapped pages with the stage still NONE. -/
theorem windows_refusal_names_no_stage :
    (pciMapPages sharedRam (willingOs .windows) emptyLedger swappedPages).ret = -1 ∧
      (pciMapPages sharedRam (willingOs .windows) emptyLedger swappedPages).failure =
        some noFailure ∧
      ¬ Contract .pci sharedRam (willingOs .windows) emptyLedger swappedPages := by
  refine ⟨by decide +kernel, by decide +kernel, fun hcontract => ?_⟩
  obtain ⟨-, hstage, -⟩ := hcontract.failure (by decide +kernel)
  exact hstage noFailure (by decide +kernel) rfl

/-- On Linux the same request gets a packed view that aliases the pages. -/
theorem linux_packs_swapped_pages :
    (pciMapPages sharedRam (willingOs .linux) emptyLedger swappedPages).ret = 0 ∧
      Contract .pci sharedRam (willingOs .linux) emptyLedger swappedPages := by
  refine ⟨by decide +kernel, (contract_iff .pci _ _ _ _ ?_).mpr (fun h => nomatch h.2.1)⟩
  intro gpas hgpas base hbase a hlow hhigh
  obtain rfl := Option.some.inj hbase
  exact if_neg (by omega)

end Orchard.MapPages
