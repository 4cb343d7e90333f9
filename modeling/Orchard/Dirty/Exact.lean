/-
  Dirty/Exact.lean --- executed harvests report exactly what was stored.

  The tracker's contract has two halves.  `Dirty/Handoff.lean` is the half a
  reader needs for safety: nothing that was stored is hidden.  This file is the
  other half as well: a harvest of an armed set moves the generation exactly when
  there is something to report, and stamps exactly the pages it is about.

  What makes it true is one invariant over whole runs, `Tracks`: a page of an
  armed set has a dirty bit exactly when a store reached it since the last
  harvest.  The clear pass is what keeps it, and only for pages it clears: behind
  another record the merge loop takes the topmost page of the 64-bit address space
  for one it has already covered and leaves it set (`topmost_page_reported_again`).
-/
import Orchard.Dirty.ClearExact

set_option autoImplicit false

namespace Orchard.Dirty

open Orchard.Foundation
open Orchard.Memory

/-! ## What should be reported -/

/-- The addresses stored to since the last harvest, noted operation by
operation. -/
def noteStore (since : List Nat) : Op → List Nat
  | .store gpa => since ++ [gpa]
  | .harvest => []
  | _ => since

/-- The addresses stored to since the last harvest of a run. -/
def storesSince (ops : List Op) : List Nat := run noteStore [] ops

/-- The store at `gpa` hits the memory of the page, at the page's own address or
through another mapping of the same RAM. -/
def hitsPage (m : Machine) (pageSize page gpa : Nat) : Bool :=
  match sliceOf (ramSlices m) page, sliceOf (ramSlices m) gpa with
  | some sl, some sa =>
    decide (sl.ramOf page ≤ sa.ramOf gpa ∧ sa.ramOf gpa < sl.ramOf page + pageSize)
  | _, _ => false

/-- The page has no RAM range, or was stored into. -/
def stale (m : Machine) (since : List Nat) (pageSize page : Nat) : Bool :=
  (sliceOf (ramSlices m) page).isNone || since.any (hitsPage m pageSize page)

/-- The page lies in a region that is not logged. -/
def unloggedPage (m : Machine) (logged : List MemoryRegion) (page : Nat) : Bool :=
  (sliceOf (ramSlices m) page).any fun sl => decide (sl.mr ∉ logged)

/-- What a harvest owes an armed set, given the pages to report: one generation
more if there is any, and the new generation on exactly those pages. -/
def report (due : Nat → Bool) (t : PageSet) : PageSet :=
  let gen := if t.pages.any fun p => due p.gpa then t.gen + 1 else t.gen
  { t with
    gen := gen
    pages := t.pages.map fun p => if due p.gpa then { p with stamp := gen } else p }

/-- An armed set followed on its own: it sees the stores and the harvests of a
run and no other set. -/
def replayStep (m : Machine) (st : List Nat × PageSet) (op : Op) : List Nat × PageSet :=
  match op with
  | .harvest => ([], report (stale m st.1 st.2.pageSize) st.2)
  | op => (noteStore st.1 op, st.2)

/-- The set a run leaves, seen from the set alone. -/
def replay (m : Machine) (since : List Nat) (t : PageSet) (ops : List Op) : PageSet :=
  (run (replayStep m) (since, t) ops).2

/-! ## The runs in question -/

/-- The RAM range that holds the page's first byte holds all of it. -/
def WholeInRange (m : Machine) (pageSize page : Nat) : Prop :=
  ∀ sl, sliceOf (ramSlices m) page = some sl → page + pageSize ≤ sl.gpa + sl.len

instance (m : Machine) (pageSize page : Nat) : Decidable (WholeInRange m pageSize page) :=
  decidable_of_iff (∀ sl ∈ (sliceOf (ramSlices m) page).toList,
    page + pageSize ≤ sl.gpa + sl.len) (by simp [WholeInRange])

/-- The steps of a run the law is about: no harvest is skipped, and every page
that gets tracked lies whole in its RAM range. -/
def Regular (m : Machine) (s : Sys) (op : Op) : Prop :=
  match op with
  | .harvest => ¬ Skipped s.tracker
  | .track gpas pageSize => Trackable m gpas pageSize →
      ∀ page ∈ sortedPages gpas pageSize, WholeInRange m pageSize.toNat page
  | _ => True

/-- The pages a harvest records for its clear pass. -/
def recorded (m : Machine) (s : Sys) : List Written :=
  writtenAll m (syncSlices m s.tracker.logged) s.bitmap s.tracker

/-- A harvest records no page that ends at the top of the address space, or only such
pages. -/
def SplitsNoTop (m : Machine) (s : Sys) (op : Op) : Prop :=
  match op with
  | .harvest => (∀ w ∈ recorded m s, w.stop ≠ 2 ^ 64) ∨ ∀ w ∈ recorded m s, w.stop = 2 ^ 64
  | _ => True

/-- A regular step whose clear pass, if it is a harvest, clears all it was given. -/
def Admitted (m : Machine) (s : Sys) (op : Op) : Prop := Regular m s op ∧ SplitsNoTop m s op

instance (m : Machine) (s : Sys) : ∀ op, Decidable (Regular m s op)
  | .harvest => inferInstanceAs (Decidable (¬ Skipped s.tracker))
  | .track gpas pageSize => inferInstanceAs (Decidable (Trackable m gpas pageSize →
      ∀ page ∈ sortedPages gpas pageSize, WholeInRange m pageSize.toNat page))
  | .untrack _ => inferInstanceAs (Decidable True)
  | .gen _ => inferInstanceAs (Decidable True)
  | .writtenSince _ _ _ => inferInstanceAs (Decidable True)
  | .store _ => inferInstanceAs (Decidable True)

instance (m : Machine) (s : Sys) : ∀ op, Decidable (SplitsNoTop m s op)
  | .harvest => inferInstanceAs (Decidable
      ((∀ w ∈ recorded m s, w.stop ≠ 2 ^ 64) ∨ ∀ w ∈ recorded m s, w.stop = 2 ^ 64))
  | .track _ _ => inferInstanceAs (Decidable True)
  | .untrack _ => inferInstanceAs (Decidable True)
  | .gen _ => inferInstanceAs (Decidable True)
  | .writtenSince _ _ _ => inferInstanceAs (Decidable True)
  | .store _ => inferInstanceAs (Decidable True)

instance (m : Machine) (s : Sys) (op : Op) : Decidable (Admitted m s op) :=
  inferInstanceAs (Decidable (_ ∧ _))

/-- The shape of every set of a regular run. -/
def ExactShape (m : Machine) (pageSize : Nat) (gpas : List Nat) : Prop :=
  AlignedShape m pageSize gpas ∧
    ∀ page ∈ gpas, WholeInRange m pageSize page ∧ PageRecord { gpa := page, pageSize := pageSize }

theorem exactShape_step (m : Machine) (s : Sys) (op : Op) (hok : Regular m s op)
    (h : ShapeInv (ExactShape m) s.tracker) :
    ShapeInv (ExactShape m) (step m s op).tracker := by
  refine shapeInv_step m ?_ h
  rintro gpas pageSize rfl htrackable
  refine ⟨alignedShape_of_trackable htrackable, fun page hpage => ?_⟩
  refine ⟨hok htrackable page hpage, ?_⟩
  exact
    { size := exists_pow_of_powerOfTwoTest htrackable.2.1
      aligned := dvd_of_mem_sortedPages htrackable.2.1 hpage
      bound := by
        obtain ⟨gpa, -, rfl⟩ := mem_sortedPages hpage
        exact UInt64.toNat_lt _ }

/-! ## The invariant -/

/-- A page of an armed set is logged, and has a dirty bit exactly when it was
stored into since the last harvest. -/
def Tracks (m : Machine) (s : Sys) (since : List Nat) : Prop :=
  ∀ entry ∈ s.tracker.sets, entry.2.gen ≠ 0 → ∀ page ∈ entry.2.gpas, ∀ sl,
    sliceOf (ramSlices m) page = some sl →
      sl.mr ∈ s.tracker.logged ∧
        (pageWritten m s.bitmap sl page entry.2.pageSize = true ↔
          ∃ gpa ∈ since, hitsPage m entry.2.pageSize page gpa = true)

/-- Only sets, logging table and bitmap matter to the invariant. -/
theorem Tracks.of_eq {m : Machine} {s s' : Sys} {since : List Nat} (h : Tracks m s since)
    (hsets : s'.tracker.sets = s.tracker.sets)
    (hlogged : s'.tracker.logged = s.tracker.logged) (hbitmap : s'.bitmap = s.bitmap) :
    Tracks m s' since := by
  unfold Tracks
  rw [hsets, hlogged, hbitmap]
  exact h

/-- A store that hits a page goes to the region of the page: different regions
share no RAM. -/
theorem mr_eq_of_hitsPage {m : Machine} {pageSize page gpa : Nat} {sl sa : Slice}
    (hsl : sliceOf (ramSlices m) page = some sl)
    (hsa : sliceOf (ramSlices m) gpa = some sa) (hwhole : WholeInRange m pageSize page)
    (hhit : hitsPage m pageSize page gpa = true) : sa.mr = sl.mr := by
  unfold hitsPage at hhit
  simp only [hsl, hsa, decide_eq_true_eq] at hhit
  obtain ⟨hlo, hhi⟩ := hhit
  have hend := hwhole sl hsl
  obtain ⟨hslMem, hslLo, hslHi⟩ := sliceOf_spec hsl
  obtain ⟨hsaMem, hsaLo, hsaHi⟩ := sliceOf_spec hsa
  obtain ⟨r, hr, hrRam, hrMr, hrStart, hrLen, hrAddr, _⟩ := mem_ramSlices hslMem
  obtain ⟨a, ha, haRam, haMr, haStart, haLen, haAddr, _⟩ := mem_ramSlices hsaMem
  by_contra hne
  have hblocks := m.blocks a ha r hr haRam hrRam (by rw [← haMr, ← hrMr]; exact hne)
  unfold Slice.ramOf at hlo hhi
  omega

/-- What a store does to the bits of one page. -/
theorem pageWritten_store (m : Machine) {s : Sys} {pageSize page gpa : Nat} {sl : Slice}
    (hsl : sliceOf (ramSlices m) page = some sl) (hlogged : sl.mr ∈ s.tracker.logged)
    (hsize : m.targetPage ∣ pageSize) (hpage : m.targetPage ∣ page)
    (hwhole : WholeInRange m pageSize page) :
    pageWritten m (store m s gpa).bitmap sl page pageSize = true ↔
      pageWritten m s.bitmap sl page pageSize = true ∨
        hitsPage m pageSize page gpa = true := by
  have hpos := m.targetPage_pos
  have hdvd := targetPage_dvd_ramOf (sliceOf_spec hsl).1 hpage
  have hdvdEnd := Nat.dvd_add hdvd hsize
  cases hsa : sliceOf (ramSlices m) gpa with
  | none =>
    have hmiss : hitsPage m pageSize page gpa = false := by
      unfold hitsPage
      simp [hsl, hsa]
    unfold store
    simp [hsa, hmiss]
  | some sa =>
    -- the page of `sa.ramOf gpa` is one of the page's exactly when it hits
    have hhit : hitsPage m pageSize page gpa = true ↔
        sl.ramOf page / m.targetPage ≤ sa.ramOf gpa / m.targetPage ∧
          sa.ramOf gpa / m.targetPage < (sl.ramOf page + pageSize) / m.targetPage := by
      unfold hitsPage
      simp only [hsl, hsa, decide_eq_true_eq]
      rw [Nat.div_lt_iff_lt_mul hpos, Nat.div_mul_cancel hdvdEnd,
        Nat.le_div_iff_mul_le hpos, Nat.div_mul_cancel hdvd]
    by_cases hmem : sa.mr ∈ s.tracker.logged
    · have hbits : ∀ b, (store m s gpa).bitmap b =
          (s.bitmap b || decide (b = sa.ramOf gpa / m.targetPage)) := by
        intro b
        unfold store
        simp only [hsa, if_pos hmem]
        rfl
      rw [pageWritten_iff m _ hdvd hsize, pageWritten_iff m _ hdvd hsize, hhit]
      simp only [hbits, Bool.or_eq_true, decide_eq_true_eq]
      constructor
      · rintro ⟨b, hlo, hhi, hold | rfl⟩
        · exact Or.inl ⟨b, hlo, hhi, hold⟩
        · exact Or.inr ⟨hlo, hhi⟩
      · rintro (⟨b, hlo, hhi, hold⟩ | ⟨hlo, hhi⟩)
        · exact ⟨b, hlo, hhi, Or.inl hold⟩
        · exact ⟨_, hlo, hhi, Or.inr rfl⟩
    · have hmiss : hitsPage m pageSize page gpa = false := by
        cases hh : hitsPage m pageSize page gpa with
        | false => rfl
        | true => exact absurd (mr_eq_of_hitsPage hsl hsa hwhole hh ▸ hlogged) hmem
      unfold store
      simp [hsa, hmem, hmiss]

theorem tracks_store (m : Machine) {s : Sys} {since : List Nat} (gpa : Nat)
    (hshape : ShapeInv (ExactShape m) s.tracker) (h : Tracks m s since) :
    Tracks m (store m s gpa) (since ++ [gpa]) := by
  intro entry hentry harmed page hpage sl hsl
  rw [store_tracker] at hentry
  obtain ⟨hlogged, hbits⟩ := h entry hentry harmed page hpage sl hsl
  obtain ⟨⟨_, hsize, haligned⟩, hwhole⟩ := hshape entry hentry
  refine ⟨by rw [store_tracker]; exact hlogged, ?_⟩
  rw [pageWritten_store m hsl hlogged hsize (Nat.dvd_trans hsize (haligned page hpage))
    (hwhole page hpage).1, hbits]
  simp only [List.mem_append, List.mem_singleton, or_and_right, exists_or, exists_eq_left]

/-! ## The harvest keeps it -/

theorem mem_writtenAll {m : Machine} {slices : List Slice} {bitmap : Bitmap} {d : Tracker}
    {w : Written} : w ∈ writtenAll m slices bitmap d ↔
      ∃ entry ∈ d.sets, w.gpa ∈ entry.2.gpas ∧ w.pageSize = entry.2.pageSize ∧
        verdict m slices bitmap entry.2.pageSize w.gpa = .written := by
  unfold writtenAll writtenOf PageSet.gpas
  simp only [List.mem_flatMap, List.mem_filterMap, Option.ite_none_right_eq_some,
    List.mem_map]
  constructor
  · rintro ⟨entry, hentry, p, hp, hverdict, hw⟩
    have hw' := Option.some.inj hw
    subst hw'
    exact ⟨entry, hentry, ⟨p, hp, rfl⟩, rfl, hverdict⟩
  · rintro ⟨entry, hentry, ⟨p, hp, hgpa⟩, hsize, hverdict⟩
    refine ⟨entry, hentry, p, hp, by rw [hgpa]; exact hverdict, ?_⟩
    rw [hgpa, ← hsize]

/-- Every record of a regular run is a page that lies whole in its slice. -/
theorem inSlice_of_mem_recorded {m : Machine} {s : Sys}
    (hshape : ShapeInv (ExactShape m) s.tracker) {w : Written} (hw : w ∈ recorded m s) :
    PageRecord w ∧ InSlice (syncSlices m s.tracker.logged) w := by
  obtain ⟨entry, hentry, hgpa, hsize, hverdict⟩ := mem_writtenAll.mp hw
  obtain ⟨hwhole, hrecord⟩ := (hshape entry hentry).2 w.gpa hgpa
  rw [← hsize] at hwhole hrecord
  refine ⟨hrecord, ?_⟩
  cases hsl : sliceOf (ramSlices m) w.gpa with
  | none =>
    rw [verdict_syncSlices, hsl] at hverdict
    exact absurd hverdict (by simp)
  | some sl =>
    refine ⟨{ sl with logged := decide (sl.mr ∈ s.tracker.logged) }, ?_, hwhole sl hsl⟩
    rw [sliceOf_syncSlices, hsl]
    rfl

/-- After an executed harvest that clears all it was given, no page of a logged region
that some set tracks has a dirty bit. -/
theorem pageWritten_harvest (m : Machine) {s : Sys} (hexec : ¬ Skipped s.tracker)
    (htop : SplitsNoTop m s .harvest) (hshape : ShapeInv (ExactShape m) s.tracker)
    {entry : Nat × PageSet} (hentry : entry ∈ s.tracker.sets) {page : Nat}
    (hpage : page ∈ entry.2.gpas) {sl : Slice} (hsl : sliceOf (ramSlices m) page = some sl)
    (hlogged : sl.mr ∈ s.tracker.logged) :
    pageWritten m (harvest m s).bitmap sl page entry.2.pageSize = false := by
  rw [harvest_bitmap m hexec]
  obtain ⟨⟨-, hsize, haligned⟩, hpages⟩ := hshape entry hentry
  obtain ⟨hmem, _, _⟩ := sliceOf_spec hsl
  have hdvd := targetPage_dvd_ramOf hmem (Nat.dvd_trans hsize (haligned page hpage))
  rw [Bool.eq_false_iff]
  intro hdirty
  -- the clear pass adds no bit, so the page was dirty and is one of the records
  have hwas : pageWritten m s.bitmap sl page entry.2.pageSize = true :=
    pageWritten_mono m (fun _ hb => clearPass_le m _ _ _ hb) hdirty
  have hverdict : verdict m (syncSlices m s.tracker.logged) s.bitmap entry.2.pageSize page =
      .written := by
    rw [verdict_syncSlices, hsl]
    simp [hlogged, hwas]
  have hrecord : ({ gpa := page, pageSize := entry.2.pageSize } : Written) ∈ recorded m s :=
    mem_writtenAll.mpr ⟨entry, hentry, hpage, rfl, hverdict⟩
  have hdisjoint := syncSlices_disjoint m s.tracker.logged
  have hexact : ClearsExactly (syncSlices m s.tracker.logged) (recorded m s) :=
    clearsExactly_of_inSlice hdisjoint (fun w hw => (inSlice_of_mem_recorded hshape hw).1)
      (fun w hw => (inSlice_of_mem_recorded hshape hw).2) htop
  have hsync : sliceOf (syncSlices m s.tracker.logged) page =
      some { sl with logged := decide (sl.mr ∈ s.tracker.logged) } := by
    rw [sliceOf_syncSlices, hsl]
    rfl
  have haddr : sl.ramAddr = sl.mr.ramAddr + sl.offset := ramAddr_eq_of_mem hmem
  obtain ⟨b, hlo, hhi, hbit⟩ := (pageWritten_iff m _ hdvd hsize).mp hdirty
  have hclear := hexact.clearPass_eq_false hdisjoint hrecord hsync
    ((hpages page hpage).1 sl hsl) haddr hdvd s.bitmap hlo hhi
  exact Bool.noConfusion (hbit.symm.trans hclear)

theorem tracks_harvest (m : Machine) {s : Sys} {since : List Nat}
    (hexec : ¬ Skipped s.tracker) (htop : SplitsNoTop m s .harvest)
    (hshape : ShapeInv (ExactShape m) s.tracker) (h : Tracks m s since) :
    Tracks m (harvest m s) [] := by
  intro entry hentry harmed page hpage sl hsl
  have htracker := harvest_tracker m hexec
  rw [htracker] at hentry
  obtain ⟨old, hold, rfl⟩ := List.mem_map.mp hentry
  have hpageOld : page ∈ old.2.gpas := by
    rw [← foldSet_gpas m (syncSlices m s.tracker.logged) s.bitmap (s.tracker.harvests + 1)]
    exact hpage
  have hlogged : sl.mr ∈ s.tracker.logged :=
    mr_mem_logged_of_foldSet m s.bitmap
      (fun hgen => (h old hold hgen page hpageOld sl hsl).1) hpageOld hsl harmed
  have hclean := pageWritten_harvest m hexec htop hshape hold hpageOld hsl hlogged
  refine ⟨?_, ?_⟩
  · rw [htracker]
    exact mem_enableLogging _ hlogged
  · show pageWritten m (harvest m s).bitmap sl page old.2.pageSize = true ↔ _
    rw [hclean]
    simp

theorem tracks_step (m : Machine) (s : Sys) (since : List Nat) (op : Op)
    (hok : Admitted m s op) (hshape : ShapeInv (ExactShape m) s.tracker)
    (h : Tracks m s since) : Tracks m (step m s op) (noteStore since op) := by
  cases op with
  | track gpas pageSize =>
    show Tracks m { s with tracker := (track m s.tracker gpas pageSize).2 } since
    unfold track
    split
    · intro entry hentry harmed
      rcases List.mem_append.mp hentry with hold | hnew
      · exact h entry hold harmed
      · simp only [List.mem_singleton] at hnew
        subst hnew
        exact absurd rfl harmed
    · exact h
  | untrack token =>
    show Tracks m { s with tracker := untrack s.tracker token } since
    unfold untrack
    split
    · exact h
    · exact fun entry hentry => h entry (List.mem_filter.mp hentry).1
  | gen token =>
    obtain ⟨hsets, _, hlogged, _⟩ := gen_sets s.tracker token
    exact h.of_eq hsets hlogged rfl
  | writtenSince token since' max =>
    obtain ⟨hsets, _, hlogged, _⟩ := writtenSince_sets s.tracker token since' max
    exact h.of_eq hsets hlogged rfl
  | store gpa => exact tracks_store m gpa hshape h
  | harvest => exact tracks_harvest m hok.1 hok.2 hshape h

/-- What holds in every state an admitted run reaches. -/
structure Exact (m : Machine) (s : Sys) (since : List Nat) : Prop where
  consistent : Consistent s.tracker
  shape : ShapeInv (ExactShape m) s.tracker
  tracks : Tracks m s since

theorem exact_init (m : Machine) (bitmap : Bitmap) : Exact m (Sys.init bitmap) [] where
  consistent := consistent_new
  shape := by intro entry hentry; exact absurd hentry (by simp [Sys.init, Tracker.new])
  tracks := by intro entry hentry; exact absurd hentry (by simp [Sys.init, Tracker.new])

theorem exact_step (m : Machine) (s : Sys) (since : List Nat) (op : Op)
    (hok : Admitted m s op) (h : Exact m s since) :
    Exact m (step m s op) (noteStore since op) where
  consistent := consistent_step m h.consistent op
  shape := exactShape_step m s op hok.1 h.shape
  tracks := tracks_step m s since op hok h.shape h.tracks

theorem exact_run (m : Machine) {s : Sys} {since : List Nat} {ops : List Op}
    (hrun : Guarded (step m) (Admitted m) s ops) (h : Exact m s since) :
    Exact m (run (step m) s ops) (run noteStore since ops) :=
  run_invariant_history (fun t since' op hok ht => exact_step m t since' op hok ht) hrun h

/-! ## The report of one harvest -/

/-- A page of an armed set does not read clean exactly when it is due. -/
theorem verdict_ne_clean_iff (m : Machine) {s : Sys} {since : List Nat}
    (h : Exact m s since) {entry : Nat × PageSet} (hentry : entry ∈ s.tracker.sets)
    (harmed : entry.2.gen ≠ 0) {page : Nat} (hpage : page ∈ entry.2.gpas) :
    verdict m (syncSlices m s.tracker.logged) s.bitmap entry.2.pageSize page ≠ .clean ↔
      (stale m since entry.2.pageSize page || unloggedPage m s.tracker.logged page) =
        true := by
  unfold stale unloggedPage
  rw [verdict_syncSlices]
  cases hsl : sliceOf (ramSlices m) page with
  | none => simp
  | some sl =>
    obtain ⟨hlogged, hbits⟩ := h.tracks entry hentry harmed page hpage sl hsl
    cases hwritten : pageWritten m s.bitmap sl page entry.2.pageSize with
    | true =>
      have hany : since.any (hitsPage m entry.2.pageSize page) = true :=
        List.any_eq_true.mpr (hbits.mp hwritten)
      simp [hlogged, hwritten, hany]
    | false =>
      have hany : since.any (hitsPage m entry.2.pageSize page) = false := by
        rw [Bool.eq_false_iff]
        intro hhit
        rw [hbits.mpr (List.any_eq_true.mp hhit)] at hwritten
        exact absurd hwritten (by simp)
      simp [hlogged, hwritten, hany]

/-- The fold of an armed set is its report, for any way of telling the pages that
do not read clean. -/
theorem foldSet_eq_report (m : Machine) (slices : List Slice) (bitmap : Bitmap)
    {harvests : Nat} {t : PageSet} {due : Nat → Bool} (harmed : t.gen ≠ 0)
    (harm : t.armAt ≤ harvests)
    (hdue : ∀ page ∈ t.gpas,
      (verdict m slices bitmap t.pageSize page ≠ .clean ↔ due page = true)) :
    foldSet m slices bitmap harvests t = report due t := by
  have hduePage : ∀ p ∈ t.pages,
      (verdict m slices bitmap t.pageSize p.gpa ≠ .clean ↔ due p.gpa = true) :=
    fun p hp => hdue p.gpa (List.mem_map_of_mem hp)
  have hany : (∃ p ∈ t.pages, verdict m slices bitmap t.pageSize p.gpa ≠ .clean) ↔
      (t.pages.any fun p => due p.gpa) = true := by
    rw [List.any_eq_true]
    exact exists_congr fun p => and_congr_right fun hp => hduePage p hp
  have hgen : (foldSet m slices bitmap harvests t).gen = (report due t).gen := by
    rw [foldSet_gen_of_armed m slices bitmap harvests harmed harm]
    unfold report
    simp only [hany]
  have hne : (foldSet m slices bitmap harvests t).gen ≠ 0 := by
    rw [foldSet_gen_of_armed m slices bitmap harvests harmed harm]
    split <;> omega
  have hpages : (foldSet m slices bitmap harvests t).pages = (report due t).pages := by
    rw [foldSet_pages_of_gen m slices bitmap harvests hne, hgen]
    apply List.map_congr_left
    intro p hp
    by_cases hclean : verdict m slices bitmap t.pageSize p.gpa = .clean
    · rw [if_pos hclean, if_neg (fun hd => (hduePage p hp).mpr hd hclean)]
    · rw [if_neg hclean, if_pos ((hduePage p hp).mp hclean)]
      rfl
  rw [PageSet.mk.injEq]
  exact ⟨hpages, rfl, hgen, foldSet_armAt_of_armed m slices bitmap harvests harmed⟩

/-- An executed harvest leaves an armed set with its report. -/
theorem harvest_lookup_report (m : Machine) {s : Sys} {since : List Nat}
    (h : Exact m s since) (hexec : ¬ Skipped s.tracker) {token : Nat} {t : PageSet}
    (ht : s.tracker.lookup token = some t) (harmed : t.gen ≠ 0) :
    (harvest m s).tracker.lookup token =
      some (report (fun page => stale m since t.pageSize page ||
        unloggedPage m s.tracker.logged page) t) := by
  have hmem := mem_of_lookup ht
  have harm : t.armAt ≤ s.tracker.harvests + 1 :=
    Nat.le_succ_of_le (h.consistent.armed _ hmem harmed)
  rw [harvest_lookup m hexec, ht, Option.map_some,
    foldSet_eq_report m _ s.bitmap harmed harm
      (fun page hpage => verdict_ne_clean_iff m h hmem harmed hpage)]

/-! ## Replaying one set -/

theorem report_congr {due due' : Nat → Bool} {t : PageSet}
    (h : ∀ page ∈ t.gpas, due page = due' page) : report due t = report due' t := by
  have hpage : ∀ p ∈ t.pages, due p.gpa = due' p.gpa :=
    fun p hp => h p.gpa (List.mem_map_of_mem hp)
  have hany : (t.pages.any fun p => due p.gpa) = t.pages.any fun p => due' p.gpa := by
    rw [Bool.eq_iff_iff, List.any_eq_true, List.any_eq_true]
    exact exists_congr fun p => and_congr_right fun hp => by rw [hpage p hp]
  unfold report
  rw [hany]
  dsimp only
  congr 1
  apply List.map_congr_left
  intro p hp
  rw [hpage p hp]

/-- One operation changes an armed set as its replay says. -/
theorem step_replay (m : Machine) {s : Sys} {since : List Nat} {op : Op}
    (h : Exact m s since) (hok : Admitted m s op) {token : Nat} {t t' : PageSet}
    (ht : s.tracker.lookup token = some t) (harmed : t.gen ≠ 0)
    (ht' : (step m s op).tracker.lookup token = some t') :
    replayStep m (since, t) op = (noteStore since op, t') := by
  have hle := (token_le_of_lookup h.consistent ht).2
  have hmem := mem_of_lookup ht
  cases op with
  | track gpas pageSize =>
    rw [step, track_lookup_of_le m hle, ht] at ht'
    exact congrArg _ (Option.some.inj ht')
  | untrack other =>
    have hold := untrack_lookup_back ht'
    rw [ht] at hold
    exact congrArg _ (Option.some.inj hold)
  | gen other =>
    have hsame : (gen s.tracker other).2.lookup token = some t' := ht'
    unfold Tracker.lookup at hsame ht
    rw [(gen_sets s.tracker other).1, ht] at hsame
    exact congrArg _ (Option.some.inj hsame)
  | writtenSince other since' max =>
    have hsame : (writtenSince s.tracker other since' max).2.lookup token = some t' := ht'
    unfold Tracker.lookup at hsame ht
    rw [(writtenSince_sets s.tracker other since' max).1, ht] at hsame
    exact congrArg _ (Option.some.inj hsame)
  | store gpa =>
    have hsame : (store m s gpa).tracker.lookup token = some t' := ht'
    rw [store_tracker, ht] at hsame
    exact congrArg _ (Option.some.inj hsame)
  | harvest =>
    have hsame : (harvest m s).tracker.lookup token = some t' := ht'
    rw [harvest_lookup_report m h hok.1 ht harmed] at hsame
    have hreport := Option.some.inj hsame
    show (_, report _ _) = (_, t')
    rw [← hreport]
    congr 1
    apply report_congr
    intro page hpage
    -- an armed set has no page left in an unlogged region
    have hnone : unloggedPage m s.tracker.logged page = false := by
      unfold unloggedPage
      cases hsl : sliceOf (ramSlices m) page with
      | none => rfl
      | some sl =>
        have hlogged := (h.tracks _ hmem harmed page hpage sl hsl).1
        simp [hlogged]
    rw [hnone, Bool.or_false]

/-- The run form of `step_replay`. -/
theorem run_replay (m : Machine) {token : Nat} :
    ∀ (ops : List Op) {s : Sys} {since : List Nat} {t t' : PageSet}, Exact m s since →
      Guarded (step m) (Admitted m) s ops → s.tracker.lookup token = some t →
      t.gen ≠ 0 → (run (step m) s ops).tracker.lookup token = some t' →
      t' = replay m since t ops := by
  intro ops
  induction ops with
  | nil =>
    intro s since t t' _ _ ht _ ht'
    exact (Option.some.inj (ht.symm.trans ht')).symm
  | cons op rest ih =>
    intro s since t t' h hrun ht harmed ht'
    obtain ⟨hok, hrest⟩ := hrun
    have hle := (token_le_of_lookup h.consistent ht).2
    obtain ⟨mid, hmid, _⟩ := run_lookup_back m rest (consistent_step m h.consistent op)
      (Nat.le_trans hle (step_nextToken_le m s op)) ht'
    obtain ⟨old, hold, hevolves⟩ := step_lookup_back m h.consistent hle hmid
    have hsame : old = t := Option.some.inj (hold.symm.trans ht)
    subst hsame
    have harmedMid : mid.gen ≠ 0 := by
      have := hevolves.gen
      omega
    have hstep := step_replay m h hok ht harmed hmid
    have hfinal := ih (exact_step m s since op hok h) hrest hmid harmedMid ht'
    unfold replay at hfinal ⊢
    rw [run_cons, hstep]
    exact hfinal

/-! ## The law -/

/-- What exactness says of a token in the state a run of `ops` reaches, where its
set is `t`; `ok` is what every step of the runs in question meets. -/
structure ExactReports (m : Machine) (ok : Sys → Op → Prop) (ops : List Op) (s : Sys)
    (token : Nat) (t : PageSet) : Prop where
  /-- The generation never returns to 0, and the set is the one its replay gives,
  whatever other sets the run tracks. -/
  later : ∀ rest, Guarded (step m) ok s rest → ∀ t',
    (run (step m) s rest).tracker.lookup token = some t' →
      t'.gen ≠ 0 ∧ t' = replay m (storesSince ops) t rest
  /-- A harvest made now reports exactly the pages that were stored into since the
  last one, have no RAM range or are not logged. -/
  next : ¬ Skipped s.tracker → ∃ t', (harvest m s).tracker.lookup token = some t' ∧
    (t'.gen = t.gen + 1 ↔ ∃ p ∈ t.pages, stale m (storesSince ops) t.pageSize p.gpa = true ∨
      unloggedPage m s.tracker.logged p.gpa = true) ∧
    (t'.gen = t.gen + 1 ∨ t'.gen = t.gen) ∧
    t'.pages = t.pages.map fun p =>
      if stale m (storesSince ops) t.pageSize p.gpa = true ∨
        unloggedPage m s.tracker.logged p.gpa = true
      then { p with stamp := t'.gen } else p

/-- **Exactness of executed harvests.**  In every run that skips no harvest, and in which no
harvest records the page at the very top of the address space beside another one, every
armed set is reported exactly, on its own, and for good. -/
theorem executed_harvests_are_exact (m : Machine) (bitmap : Bitmap) (ops : List Op)
    (hrun : Guarded (step m) (Admitted m) (Sys.init bitmap) ops) (token : Nat)
    (t : PageSet) (ht : (run (step m) (Sys.init bitmap) ops).tracker.lookup token = some t)
    (harmed : t.gen ≠ 0) :
    ExactReports m (Admitted m) ops (run (step m) (Sys.init bitmap) ops) token t := by
  have hexact : Exact m (run (step m) (Sys.init bitmap) ops) (storesSince ops) :=
    exact_run m hrun (exact_init m bitmap)
  refine ⟨?_, ?_⟩
  · intro rest hrest t' ht'
    have hle := (token_le_of_lookup hexact.consistent ht).2
    obtain ⟨old, hold, hevolves⟩ := run_lookup_back m rest hexact.consistent hle ht'
    have hsame : old = t := Option.some.inj (hold.symm.trans ht)
    subst hsame
    have hgen := hevolves.gen
    exact ⟨by omega, run_replay m rest hexact hrest ht harmed ht'⟩
  · intro hexec
    refine ⟨_, harvest_lookup_report m hexact hexec ht harmed, ?_, ?_, ?_⟩
    · unfold report
      simp only [List.any_eq_true, Bool.or_eq_true]
      split
      · rename_i hany
        exact ⟨fun _ => hany, fun _ => rfl⟩
      · rename_i hany
        exact ⟨fun h => absurd h (by omega), fun h => absurd h hany⟩
    · unfold report
      dsimp only
      split
      · exact Or.inl rfl
      · exact Or.inr rfl
    · unfold report
      simp only [Bool.or_eq_true]

/-! ## Instances -/

/-- Two overlapping sets of different page sizes, and a store into the larger
page beside the smaller one. -/
def sharedRun : List Op :=
  [.track [0x4000] 0x4000, .track [0x5000] 0x1000, .gen 1, .harvest, .gen 1, .harvest,
    .gen 2, .store 0x6010]

theorem sharedRun_exact :
    ExactReports smallMachine (Admitted smallMachine) sharedRun
      (run (step smallMachine) (Sys.init fun _ => true) sharedRun) 2
      { pages := [{ gpa := 0x5000, stamp := 1 }], pageSize := 0x1000, gen := 1
        armAt := 2 } :=
  executed_harvests_are_exact smallMachine (fun _ => true) sharedRun (by decide) 2 _
    (by decide) (by decide)

/-- 32 KiB of RAM that ends at the top of the 64-bit address space. -/
def topMachine : Machine where
  targetBits := 12
  view :=
    { ranges := [{ start := 2 ^ 64 - 0x8000, len := 0x8000, offsetInRegion := 0, readonly := false
                   mr := { id := 0, ram := true, ramAddr := 0, ramPtr := 0x7f0000000000 } }]
      nonempty := by decide
      ascending := by simp
      bounded := by decide }
  aligned := by decide
  blocks := by decide

/-- Track both 16 KiB pages of it and let two harvests pass. -/
def topRun : List Op :=
  [.track [0xffffffffffff8000, 0xffffffffffffc000] 0x4000, .gen 1, .harvest, .gen 1,
    .harvest, .gen 1]

/-- The law does not hold of the code without the bound: the second harvest of
`topRun` finds both pages dirty and clears only the lower one, so a third harvest
reports the upper one again though nothing was stored. -/
theorem topmost_page_reported_again :
    Guarded (step topMachine) (Regular topMachine) (Sys.init fun _ => true) topRun ∧
    ∃ t, (run (step topMachine) (Sys.init fun _ => true) topRun).tracker.lookup 1 = some t ∧
      t.gen ≠ 0 ∧
      ¬ ExactReports topMachine (Regular topMachine) topRun
        (run (step topMachine) (Sys.init fun _ => true) topRun) 1 t := by
  refine ⟨by decide, _, rfl, by decide, ?_⟩
  intro hexact
  obtain ⟨t', ht', hgen, _, _⟩ := hexact.next (by decide)
  have hmoved : t'.gen = 2 := by
    have hset := Option.some.inj ht'
    rw [← hset]
    decide
  exact absurd (hgen.mp (by rw [hmoved]; decide)) (by decide)

end Orchard.Dirty
