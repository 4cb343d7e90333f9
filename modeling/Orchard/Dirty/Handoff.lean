/-
  Dirty/Handoff.lean --- when a guest store is visible to a reader.

  The shims call `reims_vgpu_dirty_harvest` at every gfx and iosfc register
  write, "so that every guest store ordered before that handoff is observed
  before the work runs".  A `Handoff` is one instance of that law: a reader
  records a generation, the guest stores into a page of the set, and a register
  write follows.

  The law fails for a harvest that returns early.  The early return counts reads
  since the last executed harvest over all readers, while staleness is about one
  reader and the generation it recorded: after a read, an executed harvest and a
  store, the next register write skips its harvest and the store stays unreported
  (`skipped_harvest_hides_store`).  A page that straddles the end of its RAM range
  is a second way to miss a store: only the range of its first byte is read.
  What holds in every run is `executed_harvest_makes_store_visible`.
-/
import Orchard.Dirty.Run

set_option autoImplicit false

namespace Orchard.Dirty

open Orchard.Foundation
open Orchard.Memory

/-! ## Owed and settled reports

After a store into a page, the tracker owes the reader a report until a harvest
executes, and has settled it from then on. -/

/-- The page would not read clean at a harvest made now. -/
def Owed (m : Machine) (token page since : Nat) (s : Sys) : Prop :=
  ∀ t, s.tracker.lookup token = some t →
    since ≤ t.gen ∧ page ∈ t.gpas ∧
      verdict m (syncSlices m s.tracker.logged) s.bitmap t.pageSize page ≠ .clean

/-- Generation and page stamp are both newer than `since`. -/
def Settled (token page since : Nat) (s : Sys) : Prop :=
  ∀ t, s.tracker.lookup token = some t →
    since < t.gen ∧ ∃ p ∈ t.pages, p.gpa = page ∧ since < p.stamp

section Step

variable (m : Machine) {token page since : Nat} {s : Sys}

/-- A settled report stays settled. -/
theorem settled_step (h : Consistent s.tracker)
    (htoken : token ≤ s.tracker.nextToken) (hsettled : Settled token page since s)
    (op : Op) : Settled token page since (step m s op) := by
  intro t ht
  obtain ⟨old, hold, hevolves⟩ := step_lookup_back m h htoken ht
  obtain ⟨hgen, hstamp⟩ := hsettled old hold
  exact ⟨Nat.lt_of_lt_of_le hgen hevolves.gen, hevolves.stamps page since hstamp⟩

/-- An executed harvest settles what is owed to an armed set. -/
theorem settled_of_harvest (h : Consistent s.tracker) (hsince : since ≠ 0)
    (howed : Owed m token page since s) (hexec : ¬ Skipped s.tracker) :
    Settled token page since (harvest m s) := by
  intro t ht
  rw [harvest_lookup m hexec, Option.map_eq_some_iff] at ht
  obtain ⟨old, hold, rfl⟩ := ht
  obtain ⟨hgen, hpage, hverdict⟩ := howed old hold
  obtain ⟨p, hp, hgpa⟩ := List.mem_map.mp hpage
  subst hgpa
  have hne : old.gen ≠ 0 := by omega
  have harm : old.armAt ≤ s.tracker.harvests + 1 :=
    Nat.le_succ_of_le (h.armed _ (mem_of_lookup hold) hne)
  -- the page is one that does not read clean, so the generation moves
  have hgen' : (foldSet m (syncSlices m s.tracker.logged) s.bitmap
      (s.tracker.harvests + 1) old).gen = old.gen + 1 := by
    rw [foldSet_gen_of_armed m _ _ _ hne harm, if_pos ⟨p, hp, hverdict⟩]
  refine ⟨by omega, ?_⟩
  rw [foldSet_pages_of_gen m _ _ _ (by omega)]
  refine ⟨_, List.mem_map_of_mem hp, ?_, ?_⟩
  · rw [if_neg hverdict]
  · rw [if_neg hverdict]
    show since < (foldSet m (syncSlices m s.tracker.logged) s.bitmap
      (s.tracker.harvests + 1) old).gen
    omega

/-- Bits that stay set and a logging table that stays the same keep a report
owed. -/
theorem owed_of_mono {s' : Sys} (howed : Owed m token page since s)
    (hback : ∀ t, s'.tracker.lookup token = some t →
      ∃ old, s.tracker.lookup token = some old ∧ old.Evolves t)
    (hlogged : s'.tracker.logged = s.tracker.logged)
    (hbits : ∀ b, s.bitmap b = true → s'.bitmap b = true) :
    Owed m token page since s' := by
  intro t ht
  obtain ⟨old, hold, hevolves⟩ := hback t ht
  obtain ⟨hgen, hpage, hverdict⟩ := howed old hold
  refine ⟨Nat.le_trans hgen hevolves.gen, by rw [hevolves.gpas]; exact hpage, ?_⟩
  intro hclean
  apply hverdict
  rw [hlogged, hevolves.pageSize] at hclean
  obtain ⟨sl, hsl, hmem, hunwritten⟩ := (verdict_eq_clean_iff m _ _ _ _).mp hclean
  refine (verdict_eq_clean_iff m _ _ _ _).mpr ⟨sl, hsl, hmem, ?_⟩
  cases hw : pageWritten m s.bitmap sl page old.pageSize with
  | false => rfl
  | true => rw [pageWritten_mono m hbits hw] at hunwritten; exact hunwritten

/-- Every operation but an executed harvest keeps a report owed. -/
theorem owed_step (h : Consistent s.tracker) (htoken : token ≤ s.tracker.nextToken)
    (howed : Owed m token page since s) {op : Op}
    (hquiet : op = .harvest → Skipped s.tracker) :
    Owed m token page since (step m s op) := by
  apply owed_of_mono m howed (fun t ht => step_lookup_back m h htoken ht)
  · exact step_logged_of_quiet m hquiet
  · exact fun b hb => step_bitmap_of_quiet m hquiet hb

/-- One step of a run in which a report is owed or settled. -/
theorem owed_or_settled_step (h : Consistent s.tracker)
    (htoken : token ≤ s.tracker.nextToken) (hsince : since ≠ 0)
    (hstate : Owed m token page since s ∨ Settled token page since s) (op : Op) :
    Owed m token page since (step m s op) ∨ Settled token page since (step m s op) := by
  rcases hstate with howed | hsettled
  · by_cases hexec : op = .harvest ∧ ¬ Skipped s.tracker
    · obtain ⟨rfl, hexec⟩ := hexec
      exact Or.inr (settled_of_harvest m h hsince howed hexec)
    · refine Or.inl (owed_step m h htoken howed ?_)
      intro hop
      by_contra hskip
      exact hexec ⟨hop, hskip⟩
  · exact Or.inr (settled_step m h htoken hsettled op)

end Step

/-- The invariant of a run after the store. -/
structure AfterStore (m : Machine) (token page since : Nat) (s : Sys) : Prop where
  consistent : Consistent s.tracker
  token_le : token ≤ s.tracker.nextToken
  report : Owed m token page since s ∨ Settled token page since s

theorem afterStore_run (m : Machine) {token page since : Nat} (hsince : since ≠ 0)
    {s : Sys} (h : AfterStore m token page since s) (ops : List Op) :
    AfterStore m token page since (run (step m) s ops) := by
  refine run_invariant_all (P := AfterStore m token page since) ?_ ops h
  intro t op ht
  exact
    { consistent := consistent_step m ht.consistent op
      token_le := Nat.le_trans ht.token_le (step_nextToken_le m t op)
      report := owed_or_settled_step m ht.consistent ht.token_le hsince ht.report op }

theorem settled_run (m : Machine) {token page since : Nat} {s : Sys}
    (hconsistent : Consistent s.tracker) (htoken : token ≤ s.tracker.nextToken)
    (hsettled : Settled token page since s) (ops : List Op) :
    Settled token page since (run (step m) s ops) := by
  refine (run_invariant_all (P := fun t : Sys => Consistent t.tracker ∧
    token ≤ t.tracker.nextToken ∧ Settled token page since t) ?_ ops
    ⟨hconsistent, htoken, hsettled⟩).2.2
  rintro t op ⟨hcons, hle, hset⟩
  exact ⟨consistent_step m hcons op, Nat.le_trans hle (step_nextToken_le m t op),
    settled_step m hcons hle hset op⟩

/-! ## The store itself -/

/-- A store into a page that its own RAM range holds leaves the page not clean,
whatever the bitmap was. -/
theorem store_not_clean (m : Machine) (s : Sys) {page pageSize gpa : Nat}
    (hsize : m.targetPage ∣ pageSize) (hpage : m.targetPage ∣ page)
    (hlo : page ≤ gpa) (hhi : gpa < page + pageSize)
    (hrange : ∀ sl, sliceOf (ramSlices m) page = some sl →
      sliceOf (ramSlices m) gpa = some sl) :
    verdict m (syncSlices m (store m s gpa).tracker.logged) (store m s gpa).bitmap
      pageSize page ≠ .clean := by
  intro hclean
  obtain ⟨sl, hsl, hlogged, hunwritten⟩ := (verdict_eq_clean_iff m _ _ _ _).mp hclean
  rw [store_tracker] at hlogged
  obtain ⟨hmem, hstart, _⟩ := sliceOf_spec hsl
  have hdvd := targetPage_dvd_ramOf hmem hpage
  have hpos := m.targetPage_pos
  have hram : sl.ramOf gpa = sl.ramOf page + (gpa - page) := by
    unfold Slice.ramOf
    omega
  have hbit : (store m s gpa).bitmap (sl.ramOf gpa / m.targetPage) = true := by
    unfold store
    simp only [hrange sl hsl, if_pos hlogged]
    simp [Slice.ramOf]
  have hwritten : pageWritten m (store m s gpa).bitmap sl page pageSize = true := by
    rw [pageWritten_iff m _ hdvd hsize]
    refine ⟨sl.ramOf gpa / m.targetPage, Nat.div_le_div_right (by omega), ?_, hbit⟩
    rw [Nat.div_lt_iff_lt_mul hpos,
      Nat.div_mul_cancel (Nat.dvd_add hdvd hsize)]
    omega
  rw [hwritten] at hunwritten
  exact absurd hunwritten (by simp)

/-! ## The law -/

/-- One instance of the handoff law: the operations around a recorded read, a
store and a register write. -/
structure Handoff where
  bitmap : Bitmap
  /-- operations up to the read that is recorded -/
  before : List Op
  token : Nat
  /-- operations between the read and the store -/
  between : List Op
  /-- the stored address -/
  gpa : Nat
  /-- the page of the set it falls in -/
  page : Nat
  /-- operations between the store and the register write -/
  after : List Op
  /-- operations after the register write -/
  later : List Op

namespace Handoff

variable (m : Machine) (h : Handoff)

/-- The state at the recorded read. -/
def atRead : Sys := run (step m) (Sys.init h.bitmap) h.before

/-- The generation the reader records. -/
def recorded : Nat := (Dirty.gen (h.atRead m).tracker h.token).1

/-- The state at the store. -/
def atStore : Sys := run (step m) (step m (h.atRead m) (.gen h.token)) h.between

/-- The state a run of further operations after the store reaches. -/
def afterStore (ops : List Op) : Sys :=
  run (step m) (step m (h.atStore m) (.store h.gpa)) ops

/-- The state at the end, after the register write and the operations behind it. -/
def atEnd : Sys := h.afterStore m (h.after ++ .harvest :: h.later)

/-- The premises of the law: the recorded generation is readable, the store goes
into a page of the token's set, and the token is still tracked at the end. -/
def Applies : Prop :=
  h.recorded m ≠ 0 ∧
  (∃ t, (h.atStore m).tracker.lookup h.token = some t ∧ h.page ∈ t.gpas ∧
    h.page ≤ h.gpa ∧ h.gpa < h.page + t.pageSize) ∧
  ∃ t, (h.atEnd m).tracker.lookup h.token = some t

/-- The conclusion of the law: the generation is newer than the recorded one, and
every complete per-page answer names the page. -/
def Visible : Prop :=
  h.recorded m < (Dirty.gen (h.atEnd m).tracker h.token).1 ∧
  ∀ max out, (writtenSince (h.atEnd m).tracker h.token (h.recorded m) max).1 = some out →
    h.page ∈ out

/-- When the store is observed: some register write after it finds a read
counted since the last executed harvest, and the RAM range of the page's first
byte, if there is one, is the range the store goes to. -/
def Observed : Prop :=
  (∃ front back, h.after ++ .harvest :: h.later = front ++ .harvest :: back ∧
    (h.afterStore m front).tracker.readsSinceHarvest ≠ 0) ∧
  ∀ sl, sliceOf (ramSlices m) h.page = some sl → sliceOf (ramSlices m) h.gpa = some sl

end Handoff

/-- The invariant of `AfterStore` holds right after the store of a handoff. -/
theorem Handoff.afterStore_nil (m : Machine) (h : Handoff) (happlies : h.Applies m)
    (hobserved : h.Observed m) :
    AfterStore m h.token h.page (h.recorded m) (h.afterStore m []) := by
  obtain ⟨hread, ⟨t, ht, hpage, hlo, hhi⟩, _⟩ := happlies
  obtain ⟨_, hrange⟩ := hobserved
  have hinit : Consistent (Sys.init h.bitmap).tracker := consistent_new
  have hconsRead : Consistent (h.atRead m).tracker := consistent_run m hinit h.before
  have hconsRead' : Consistent (step m (h.atRead m) (.gen h.token)).tracker :=
    consistent_step m hconsRead _
  have hconsStore : Consistent (h.atStore m).tracker :=
    consistent_run m hconsRead' h.between
  have haligned : ShapeInv (AlignedShape m) (h.atStore m).tracker := by
    refine alignedShape_run m (alignedShape_step m _ _ (alignedShape_run m ?_ _)) _
    intro entry hentry
    exact absurd hentry (by simp [Sys.init, Tracker.new])
  obtain ⟨htoken, old, hold, hgen⟩ := lookup_of_gen_ne_zero hread
  have hle := (token_le_of_lookup hconsRead hold).2
  have hle' : h.token ≤ (step m (h.atRead m) (.gen h.token)).tracker.nextToken :=
    Nat.le_trans hle (step_nextToken_le m _ _)
  have hleStore : h.token ≤ (h.atStore m).tracker.nextToken :=
    (token_le_of_lookup hconsStore ht).2
  -- the set at the store evolved from the one that was read
  obtain ⟨mid, hmid, hevolves⟩ := run_lookup_back m h.between hconsRead' hle' ht
  have hmidEq : mid = old := by
    have hsets : (Dirty.gen (h.atRead m).tracker h.token).2.lookup h.token =
        (h.atRead m).tracker.lookup h.token := by
      unfold Tracker.lookup
      rw [(gen_sets _ _).1]
    exact Option.some.inj (hmid.symm.trans (hsets.trans hold))
  subst hmidEq
  have hrecorded : h.recorded m ≤ t.gen := by
    have : h.recorded m = mid.gen := hgen.symm
    rw [this]
    exact hevolves.gen
  obtain ⟨_, hsize, hdvd⟩ := haligned _ (mem_of_lookup ht)
  refine
    { consistent := consistent_step m hconsStore (.store h.gpa)
      token_le := Nat.le_trans hleStore (step_nextToken_le m (h.atStore m) (.store h.gpa))
      report := Or.inl ?_ }
  intro t' ht'
  have htracker : (step m (h.atStore m) (.store h.gpa)).tracker = (h.atStore m).tracker :=
    store_tracker m _ _
  have hteq : t = t' := by
    have hlookup : (step m (h.atStore m) (.store h.gpa)).tracker.lookup h.token = some t' :=
      ht'
    rw [htracker, ht] at hlookup
    exact Option.some.inj hlookup
  subst hteq
  exact ⟨hrecorded, hpage, store_not_clean m _ hsize
    (Nat.dvd_trans hsize (hdvd _ hpage)) hlo hhi hrange⟩

/-- **Handoff visibility.**  In every run, a store that some executed harvest
follows is visible to a reader that recorded its generation before the store:
every later generation is newer, and every later complete per-page answer names
the page. -/
theorem executed_harvest_makes_store_visible (m : Machine) (h : Handoff)
    (happlies : h.Applies m) (hobserved : h.Observed m) : h.Visible m := by
  have hafter := h.afterStore_nil m happlies hobserved
  obtain ⟨hread, _, tEnd, htEnd⟩ := happlies
  obtain ⟨⟨front, back, hsplit, hreads⟩, _⟩ := hobserved
  have hfront : AfterStore m h.token h.page (h.recorded m) (h.afterStore m front) :=
    afterStore_run m hread hafter front
  have hend : h.atEnd m = run (step m) (step m (h.afterStore m front) .harvest) back := by
    unfold Handoff.atEnd Handoff.afterStore
    rw [hsplit, run_append, run_cons]
  have hconsHarvest := consistent_step m hfront.consistent .harvest
  have hleHarvest := Nat.le_trans hfront.token_le (step_nextToken_le m _ .harvest)
  -- the token is still tracked at the harvest, so the table is not empty there
  have hexec : ¬ Skipped (h.afterStore m front).tracker := by
    rintro (hempty | hzero)
    · rw [hend] at htEnd
      obtain ⟨mid, hmid, _⟩ := run_lookup_back m back hconsHarvest hleHarvest htEnd
      obtain ⟨old, hold, _⟩ := step_lookup_back m hfront.consistent hfront.token_le hmid
      unfold Tracker.lookup at hold
      rw [hempty] at hold
      exact absurd hold (by simp)
    · exact hreads hzero
  have hsettled : Settled h.token h.page (h.recorded m)
      (step m (h.afterStore m front) .harvest) := by
    rcases hfront.report with howed | hsettled
    · exact settled_of_harvest m hfront.consistent hread howed hexec
    · exact settled_step m hfront.consistent hfront.token_le hsettled .harvest
  have hfinal := settled_run m hconsHarvest hleHarvest hsettled back
  rw [← hend] at hfinal
  obtain ⟨hgen, p, hp, hgpa, hstamp⟩ := hfinal tEnd htEnd
  have htoken := (lookup_of_gen_ne_zero hread).1
  refine ⟨?_, ?_⟩
  · rw [gen_fst_of_lookup htoken htEnd]
    exact hgen
  · intro max out hout
    rw [← hgpa]
    exact mem_of_writtenSince htEnd hp hstamp hout

/-! ## Instances -/

/-- Track one page, and let two harvests pass so that its generation is 1. -/
def armPage : List Op :=
  [.track [0x1000] 0x1000, .gen 1, .harvest, .gen 1, .harvest]

/-- A store and a register write right after the recorded read. -/
def observedHandoff : Handoff where
  bitmap := fun _ => false
  before := armPage
  token := 1
  between := []
  gpa := 0x1010
  page := 0x1000
  after := []
  later := []

theorem observedHandoff_visible :
    observedHandoff.Applies smallMachine ∧ observedHandoff.Observed smallMachine ∧
      observedHandoff.Visible smallMachine := by
  have happlies : observedHandoff.Applies smallMachine := by
    refine ⟨by decide, ⟨_, rfl, by decide, by decide, by decide⟩, _, rfl⟩
  have hobserved : observedHandoff.Observed smallMachine := by
    refine ⟨⟨[], [], rfl, by decide⟩, ?_⟩
    intro sl hsl
    exact hsl
  exact ⟨happlies, hobserved,
    executed_harvest_makes_store_visible smallMachine observedHandoff happlies hobserved⟩

/-- The same, with a register write between the read and the store: it consumes
the read, so the write behind the store skips its harvest. -/
def skippedHandoff : Handoff :=
  { observedHandoff with between := [.harvest] }

/-- The law does not hold of the code: the reader of `skippedHandoff` recorded
generation 1 and reads generation 1 again after the store and the register write
behind it. -/
theorem skipped_harvest_hides_store :
    skippedHandoff.Applies smallMachine ∧ ¬ skippedHandoff.Visible smallMachine := by
  refine ⟨⟨by decide, ⟨_, rfl, by decide, by decide, by decide⟩, _, rfl⟩, ?_⟩
  rintro ⟨hgen, _⟩
  exact absurd hgen (by decide)

/-- 4 KiB of RAM at address 0 and another region behind it. -/
def splitMachine : Machine where
  targetBits := 12
  view :=
    { ranges := [{ start := 0, len := 0x1000, offsetInRegion := 0, readonly := false
                   mr := { id := 0, ram := true, ramAddr := 0, ramPtr := 0x7f0000000000 } },
                 { start := 0x1000, len := 0xf000, offsetInRegion := 0, readonly := false
                   mr := { id := 1, ram := true, ramAddr := 0x100000
                           ramPtr := 0x7f0000100000 } }]
      nonempty := by decide
      ascending := by simp
      bounded := by decide }
  aligned := by decide
  blocks := by decide

/-- A 16 KiB page that starts in the first range, stored into in the second. -/
def straddlingHandoff : Handoff :=
  { observedHandoff with
    before := [.track [0] 0x4000, .gen 1, .harvest, .gen 1, .harvest]
    gpa := 0x2000
    page := 0 }

/-- Why the condition speaks of ranges: no harvest was skipped here, and the store
went to memory that the page's own range does not hold. -/
theorem straddling_page_hides_store :
    straddlingHandoff.Applies splitMachine ∧ ¬ straddlingHandoff.Visible splitMachine := by
  refine ⟨⟨by decide, ⟨_, rfl, by decide, by decide, by decide⟩, _, rfl⟩, ?_⟩
  rintro ⟨hgen, _⟩
  exact absurd hgen (by decide)

end Orchard.Dirty
