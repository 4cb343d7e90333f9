/-
  Dirty/Phases.lean --- the phases of a harvest, with other threads between them.

  A harvest runs on the thread of the register write, under the big lock, so two
  harvests never overlap.  Guest vCPUs and the readers on the worker thread do not
  wait for it: they run between any two of its steps

      call      the early return, under `d->lock`
      sync      slice table, logging flags, dirty-log sync
      fold      generations and stamps, under `d->lock`
      clear     reset of the recorded pages, after the unlock
      enable    logging of the regions that need it

  The generation is published by the fold, and the clear resets whole recorded
  pages afterwards.  A store that falls between the two is reset with them, and a
  reader that took the new generation before it never learns of it
  (`store_before_clear_is_lost`).  Everywhere else no store is lost
  (`store_outside_clear_window_is_reported`).
-/
import Orchard.Dirty.Run

set_option autoImplicit false

namespace Orchard.Dirty

open Orchard.Foundation
open Orchard.Memory

/-! ## The interleaved system -/

/-- Where the harvest is, with the locals it carries. -/
inductive Phase where
  | idle
  | called
  | synced (slices : List Slice)
  /-- `needed` is the table after the fold set its `needs_log` flags; the clear
  reads none of them, so the table of the sync serves it -/
  | folded (slices needed : List Slice) (written : List Written)
  | cleared (needed : List Slice)
  deriving DecidableEq, Repr

/-- The tracker and the bitmap, and the harvest in progress. -/
structure Threads where
  sys : Sys
  phase : Phase

/-- A step of some thread. -/
inductive Act where
  /-- a tracker call of another thread, or a guest store -/
  | thread (op : Op) (quiet : op ≠ .harvest)
  /-- a reader copies a page out of guest memory -/
  | copy (page : Nat)
  | call
  | sync
  | fold
  | clear
  | enable

/-- One step.  A step of the harvest that is not the next one does nothing. -/
def phaseStep (m : Machine) (st : Threads) : Act → Threads
  | .thread op _ => { st with sys := step m st.sys op }
  | .copy _ => st
  | .call =>
    match st.phase with
    | .idle => if Skipped st.sys.tracker then st else { st with phase := .called }
    | _ => st
  | .sync =>
    match st.phase with
    | .called => { st with phase := .synced (syncSlices m st.sys.tracker.logged) }
    | _ => st
  | .fold =>
    match st.phase with
    | .synced slices =>
      { sys :=
          { st.sys with
            tracker := foldSets m slices st.sys.bitmap st.sys.tracker }
        phase := .folded slices (markNeeded slices st.sys.tracker)
          (writtenAll m slices st.sys.bitmap st.sys.tracker) }
    | _ => st
  | .clear =>
    match st.phase with
    | .folded slices needed written =>
      { sys := { st.sys with bitmap := clearPass m slices written st.sys.bitmap }
        phase := .cleared needed }
    | _ => st
  | .enable =>
    match st.phase with
    | .cleared needed =>
      { sys :=
          { st.sys with
            tracker :=
              { st.sys.tracker with
                logged := enableLogging needed st.sys.tracker.logged } }
        phase := .idle }
    | _ => st

/-- The phases of one harvest in order. -/
def harvestActs : List Act := [.call, .sync, .fold, .clear, .enable]

/-- With nothing between them the phases are the atomic harvest. -/
theorem run_harvestActs (m : Machine) (s : Sys) :
    run (phaseStep m) { sys := s, phase := .idle } harvestActs =
      { sys := harvest m s, phase := .idle } := by
  unfold harvest
  by_cases hskip : Skipped s.tracker
  · simp [harvestActs, phaseStep, hskip]
  · simp [harvestActs, phaseStep, hskip, foldSets]

/-! ## What a step can do -/

/-- The transitions of the interleaved system, guards included. -/
inductive Moves (m : Machine) (st : Threads) : Act → Threads → Prop where
  | thread (op : Op) (quiet : op ≠ .harvest) :
      Moves m st (.thread op quiet) { st with sys := step m st.sys op }
  | stay (act : Act) : Moves m st act st
  | call (hphase : st.phase = .idle) (hexec : ¬ Skipped st.sys.tracker) :
      Moves m st .call { st with phase := .called }
  | sync (hphase : st.phase = .called) :
      Moves m st .sync
        { st with phase := .synced (syncSlices m st.sys.tracker.logged) }
  | fold (slices : List Slice) (hphase : st.phase = .synced slices) :
      Moves m st .fold
        { sys := { st.sys with tracker := foldSets m slices st.sys.bitmap st.sys.tracker }
          phase := .folded slices (markNeeded slices st.sys.tracker)
            (writtenAll m slices st.sys.bitmap st.sys.tracker) }
  | clear (slices needed : List Slice) (written : List Written)
      (hphase : st.phase = .folded slices needed written) :
      Moves m st .clear
        { sys := { st.sys with bitmap := clearPass m slices written st.sys.bitmap }
          phase := .cleared needed }
  | enable (needed : List Slice) (hphase : st.phase = .cleared needed) :
      Moves m st .enable
        { sys :=
            { st.sys with
              tracker :=
                { st.sys.tracker with
                  logged := enableLogging needed st.sys.tracker.logged } }
          phase := .idle }

theorem phaseStep_moves (m : Machine) (st : Threads) (act : Act) :
    Moves m st act (phaseStep m st act) := by
  cases act with
  | thread op quiet => exact .thread op quiet
  | copy page => exact .stay _
  | call =>
    rw [phaseStep]
    split
    · rename_i hphase
      split
      · exact .stay _
      · rename_i hexec
        exact .call hphase hexec
    · exact .stay _
  | sync =>
    rw [phaseStep]
    split
    · rename_i hphase
      exact .sync hphase
    · exact .stay _
  | fold =>
    rw [phaseStep]
    split
    · rename_i slices hphase
      exact .fold slices hphase
    · exact .stay _
  | clear =>
    rw [phaseStep]
    split
    · rename_i slices needed written hphase
      exact .clear slices needed written hphase
    · exact .stay _
  | enable =>
    rw [phaseStep]
    split
    · rename_i needed hphase
      exact .enable needed hphase
    · exact .stay _

/-! ## What every step preserves -/

/-- The invariant of the interleaved system: the tracker is consistent, armed sets
lie in logged regions, and the table of the sync is the current one until the
fold, because only the harvest itself turns logging on. -/
structure Sound (m : Machine) (st : Threads) : Prop where
  consistent : Consistent st.sys.tracker
  aligned : ShapeInv (AlignedShape m) st.sys.tracker
  logged : ∀ entry ∈ st.sys.tracker.sets, entry.2.gen ≠ 0 → ∀ page ∈ entry.2.gpas, ∀ sl,
    sliceOf (ramSlices m) page = some sl → sl.mr ∈ st.sys.tracker.logged
  table : ∀ slices, st.phase = .synced slices →
    slices = syncSlices m st.sys.tracker.logged

theorem sound_init (m : Machine) (bitmap : Bitmap) :
    Sound m { sys := Sys.init bitmap, phase := .idle } where
  consistent := consistent_new
  aligned := by intro entry hentry; exact absurd hentry (by simp [Sys.init, Tracker.new])
  logged := by intro entry hentry; exact absurd hentry (by simp [Sys.init, Tracker.new])
  table := by intro slices hphase; exact absurd hphase (by simp)

theorem sound_moves (m : Machine) {st st' : Threads} {act : Act} (h : Sound m st)
    (hmove : Moves m st act st') : Sound m st' := by
  cases hmove with
  | thread op quiet =>
    have hquiet : op = .harvest → Skipped st.sys.tracker := fun hop => absurd hop quiet
    have hlogged := step_logged_of_quiet m hquiet
    refine ⟨consistent_step m h.consistent op, alignedShape_step m _ op h.aligned, ?_, ?_⟩
    · intro entry hentry harmed page hpage sl hsl
      have hold := mem_sets_of_quiet m hquiet hentry harmed
      rw [hlogged]
      exact h.logged entry hold harmed page hpage sl hsl
    · intro slices hphase
      rw [hlogged]
      exact h.table slices hphase
  | stay => exact h
  | call hphase hexec =>
    refine ⟨h.consistent, h.aligned, h.logged, ?_⟩
    intro slices hslices
    exact absurd hslices (by simp)
  | sync hphase =>
    refine ⟨h.consistent, h.aligned, h.logged, ?_⟩
    intro slices hslices
    exact (Phase.synced.inj hslices).symm
  | fold slices hphase =>
    have htable := h.table slices hphase
    subst htable
    refine ⟨consistent_foldSets m _ _ h.consistent,
      shapeInv_callStep m (c := .fold _ _) nofun h.aligned, ?_, ?_⟩
    · intro entry hentry harmed page hpage sl hsl
      obtain ⟨old, hold, rfl⟩ := List.mem_map.mp hentry
      have hpageOld : page ∈ old.2.gpas := by simpa using hpage
      exact mr_mem_logged_of_foldSet m st.sys.bitmap
        (fun hgen => h.logged old hold hgen page hpageOld sl hsl) hpageOld hsl harmed
    · intro slices hslices
      exact absurd hslices (by simp)
  | clear slices needed written hphase =>
    refine ⟨h.consistent, h.aligned, h.logged, ?_⟩
    intro slices hslices
    exact absurd hslices (by simp)
  | enable needed hphase =>
    refine ⟨h.consistent.of_eq rfl rfl rfl, h.aligned, ?_, ?_⟩
    · intro entry hentry harmed page hpage sl hsl
      exact mem_enableLogging _ (h.logged entry hentry harmed page hpage sl hsl)
    · intro slices hslices
      exact absurd hslices (by simp)

theorem sound_run (m : Machine) {st : Threads} (h : Sound m st) (acts : List Act) :
    Sound m (run (phaseStep m) st acts) :=
  run_invariant_all (P := Sound m)
    (fun t act ht => sound_moves m ht (phaseStep_moves m t act)) acts h

/-- To the tracker a step is a call or nothing, apart from the regions it logs. -/
theorem moves_continues (m : Machine) {st st' : Threads} {act : Act} (h : Sound m st)
    (hmove : Moves m st act st') : st.sys.tracker.Continues st'.sys.tracker := by
  cases hmove with
  | thread op quiet => exact continues_step m h.consistent op
  | stay => exact .refl _
  | call hphase hexec => exact .refl _
  | sync hphase => exact .refl _
  | fold slices hphase => exact continues_callStep m h.consistent (.fold slices st.sys.bitmap)
  | clear slices needed written hphase => exact .refl _
  | enable needed hphase => exact ⟨Nat.le_refl _, (Tracker.Continues.refl st.sys.tracker).sets⟩

/-! ## A stored bit until it is reported -/

/-- The clear that the harvest in progress still has to make covers the bit. -/
def PendingClear (m : Machine) (phase : Phase) (bit : Nat) : Prop :=
  match phase with
  | .folded slices _ written => ∃ c ∈ clearCalls slices written, c.Covers m bit
  | _ => False

/-- If the page is RAM, the bit is one of the page's, is set, and no pending
clear takes it. -/
structure Marked (m : Machine) (pageSize page bit : Nat) (st : Threads) : Prop where
  bits : ∀ sl, sliceOf (ramSlices m) page = some sl →
    sl.ramOf page / m.targetPage ≤ bit ∧ bit < (sl.ramOf page + pageSize) / m.targetPage ∧
      st.sys.bitmap bit = true
  safe : ∀ sl, sliceOf (ramSlices m) page = some sl → ¬ PendingClear m st.phase bit

/-- The token's generation is newer than `since`. -/
def Newer (token since : Nat) (st : Threads) : Prop :=
  ∀ t, st.sys.tracker.lookup token = some t → since < t.gen

/-- The generation is newer than `since`, or the next fold will make it so. -/
def Due (m : Machine) (token page since bit : Nat) (st : Threads) : Prop :=
  ∀ t, st.sys.tracker.lookup token = some t →
    page ∈ t.gpas ∧ (since < t.gen ∨ (since ≤ t.gen ∧ Marked m t.pageSize page bit st))

/-- A marked page does not read clean. -/
theorem verdict_of_marked (m : Machine) {st : Threads} {pageSize page bit : Nat}
    (hsize : m.targetPage ∣ pageSize) (hpage : m.targetPage ∣ page)
    (h : Marked m pageSize page bit st) :
    verdict m (syncSlices m st.sys.tracker.logged) st.sys.bitmap pageSize page ≠ .clean := by
  intro hclean
  obtain ⟨sl, hsl, _, hunwritten⟩ := (verdict_eq_clean_iff m _ _ _ _).mp hclean
  obtain ⟨hlo, hhi, hbit⟩ := h.bits sl hsl
  have hdvd := targetPage_dvd_ramOf (sliceOf_spec hsl).1 hpage
  have hwritten := (pageWritten_iff m st.sys.bitmap hdvd hsize).mpr ⟨bit, hlo, hhi, hbit⟩
  rw [hwritten] at hunwritten
  exact absurd hunwritten (by simp)

/-- A bit no call covers survives the clear. -/
theorem clearPass_of_not_covered (m : Machine) {slices : List Slice}
    {written : List Written} {bitmap : Bitmap} {bit : Nat} (hbit : bitmap bit = true)
    (hsafe : ¬ ∃ c ∈ clearCalls slices written, c.Covers m bit) :
    clearPass m slices written bitmap bit = true := by
  have hnone : ((clearCalls slices written).any fun c => decide (c.Covers m bit)) = false := by
    rw [Bool.eq_false_iff]
    intro hany
    obtain ⟨c, hc, hcovers⟩ := List.any_eq_true.mp hany
    exact hsafe ⟨c, hc, of_decide_eq_true hcovers⟩
  unfold clearPass applyClears
  rw [hbit, hnone]
  rfl

section Report

variable (m : Machine) {token page since bit : Nat} {st st' : Threads} {act : Act}

theorem newer_moves (h : Sound m st) (htoken : token ≤ st.sys.tracker.nextToken)
    (hnewer : Newer token since st) (hmove : Moves m st act st') :
    Newer token since st' := by
  intro t ht
  obtain ⟨old, hold, hevolves⟩ := (moves_continues m h hmove).sets token htoken t ht
  exact Nat.lt_of_lt_of_le (hnewer old hold) hevolves.gen

/-- The fold reports what is due. -/
theorem newer_of_fold (h : Sound m st) (hsince : since ≠ 0)
    (hdue : Due m token page since bit st) {slices : List Slice}
    (hphase : st.phase = .synced slices) :
    ∀ t, (foldSets m slices st.sys.bitmap st.sys.tracker).lookup token = some t →
      page ∈ t.gpas ∧ since < t.gen := by
  intro t ht
  have htable := h.table slices hphase
  subst htable
  have hmap : (st.sys.tracker.lookup token).map (foldSet m
      (syncSlices m st.sys.tracker.logged) st.sys.bitmap (st.sys.tracker.harvests + 1)) =
      some t := (lookup_mapValues _ _ _).symm.trans ht
  rw [Option.map_eq_some_iff] at hmap
  obtain ⟨old, hold, rfl⟩ := hmap
  have hmem := mem_of_lookup hold
  obtain ⟨hpage, hreport⟩ := hdue old hold
  have hne : old.gen ≠ 0 := by
    rcases hreport with hlt | ⟨hle, _⟩ <;> omega
  have harm := Nat.le_succ_of_le (h.consistent.armed _ hmem hne)
  refine ⟨by simpa using hpage, ?_⟩
  rw [foldSet_gen_of_armed m _ _ _ hne harm]
  rcases hreport with hlt | ⟨hle, hmarked⟩
  · split <;> omega
  · obtain ⟨_, hsize, haligned⟩ := h.aligned _ hmem
    obtain ⟨p, hp, hgpa⟩ := List.mem_map.mp hpage
    have hverdict := verdict_of_marked m hsize
      (Nat.dvd_trans hsize (haligned page hpage)) hmarked
    rw [if_pos ⟨p, hp, by rw [hgpa]; exact hverdict⟩]
    omega

theorem due_moves (h : Sound m st) (htoken : token ≤ st.sys.tracker.nextToken)
    (hsince : since ≠ 0) (hdue : Due m token page since bit st)
    (hmove : Moves m st act st') : Due m token page since bit st' := by
  have hback := (moves_continues m h hmove).sets token htoken
  cases hmove with
  | thread op quiet =>
    intro t ht
    obtain ⟨old, hold, hevolves⟩ := hback t ht
    obtain ⟨hpage, hreport⟩ := hdue old hold
    refine ⟨by rw [hevolves.gpas]; exact hpage, ?_⟩
    rcases hreport with hlt | ⟨hle, hmarked⟩
    · exact Or.inl (Nat.lt_of_lt_of_le hlt hevolves.gen)
    · refine Or.inr ⟨Nat.le_trans hle hevolves.gen, ?_, hmarked.safe⟩
      intro sl hsl
      obtain ⟨hlo, hhi, hbit⟩ := hmarked.bits sl hsl
      rw [hevolves.pageSize]
      exact ⟨hlo, hhi, step_bitmap_of_quiet m (fun hop => absurd hop quiet) hbit⟩
  | stay => exact hdue
  | call hphase hexec =>
    intro t ht
    obtain ⟨hpage, hreport⟩ := hdue t ht
    refine ⟨hpage, hreport.imp_right ?_⟩
    rintro ⟨hle, hmarked⟩
    exact ⟨hle, hmarked.bits, fun _ _ hpending => hpending⟩
  | sync hphase =>
    intro t ht
    obtain ⟨hpage, hreport⟩ := hdue t ht
    refine ⟨hpage, hreport.imp_right ?_⟩
    rintro ⟨hle, hmarked⟩
    exact ⟨hle, hmarked.bits, fun _ _ hpending => hpending⟩
  | fold slices hphase =>
    intro t ht
    obtain ⟨hpage, hlt⟩ := newer_of_fold m h hsince hdue hphase t ht
    exact ⟨hpage, Or.inl hlt⟩
  | clear slices needed written hphase =>
    intro t ht
    obtain ⟨hpage, hreport⟩ := hdue t ht
    refine ⟨hpage, hreport.imp_right ?_⟩
    rintro ⟨hle, hmarked⟩
    refine ⟨hle, ?_, fun _ _ hpending => hpending⟩
    intro sl hsl
    obtain ⟨hlo, hhi, hbit⟩ := hmarked.bits sl hsl
    have hsafe := hmarked.safe sl hsl
    rw [hphase] at hsafe
    exact ⟨hlo, hhi, clearPass_of_not_covered m hbit hsafe⟩
  | enable needed hphase =>
    intro t ht
    obtain ⟨hpage, hreport⟩ := hdue t ht
    refine ⟨hpage, hreport.imp_right ?_⟩
    rintro ⟨hle, hmarked⟩
    exact ⟨hle, hmarked.bits, fun _ _ hpending => hpending⟩

/-- A harvest before its fold, with a report due, or a generation newer than
`since`: the harvest cannot end without the second. -/
def Closing (m : Machine) (token page since bit : Nat) (st : Threads) : Prop :=
  Due m token page since bit st ∧
    (st.phase = .called ∨ ∃ slices, st.phase = .synced slices) ∨
  Newer token since st

theorem closing_moves (h : Sound m st) (htoken : token ≤ st.sys.tracker.nextToken)
    (hsince : since ≠ 0) (hclosing : Closing m token page since bit st)
    (hmove : Moves m st act st') : Closing m token page since bit st' := by
  rcases hclosing with ⟨hdue, hphases⟩ | hnewer
  · have hdue' := due_moves m h htoken hsince hdue hmove
    cases hmove with
    | thread op quiet => exact Or.inl ⟨hdue', hphases⟩
    | stay => exact Or.inl ⟨hdue', hphases⟩
    | call hphase hexec => exact Or.inl ⟨hdue', Or.inl rfl⟩
    | sync hphase => exact Or.inl ⟨hdue', Or.inr ⟨_, rfl⟩⟩
    | fold slices hphase =>
      exact Or.inr fun t ht => (newer_of_fold m h hsince hdue hphase t ht).2
    | clear slices needed written hphase =>
      rw [hphase] at hphases
      exact absurd hphases (by simp)
    | enable needed hphase =>
      rw [hphase] at hphases
      exact absurd hphases (by simp)
  · exact Or.inr (newer_moves m h htoken hnewer hmove)

end Report

/-! ## Runs -/

/-- What holds along a run after the store, for a way `R` of owing the report
that every step keeps. -/
structure Along (m : Machine) (token : Nat) (R : Threads → Prop) (st : Threads) : Prop where
  sound : Sound m st
  token_le : token ≤ st.sys.tracker.nextToken
  report : R st

theorem along_run (m : Machine) {token : Nat} {R : Threads → Prop}
    (hmoves : ∀ {st st' : Threads} {act : Act}, Sound m st →
      token ≤ st.sys.tracker.nextToken → R st → Moves m st act st' → R st')
    {st : Threads} (h : Along m token R st) (acts : List Act) :
    Along m token R (run (phaseStep m) st acts) := by
  refine run_invariant_all (P := Along m token R) ?_ acts h
  intro t act ht
  have hmove := phaseStep_moves m t act
  exact
    { sound := sound_moves m ht.sound hmove
      token_le := Nat.le_trans ht.token_le (moves_continues m ht.sound hmove).nextToken
      report := hmoves ht.sound ht.token_le ht.report hmove }

/-- The run form of `moves_continues`. -/
theorem phases_continue (m : Machine) {st : Threads} (h : Sound m st) (acts : List Act) :
    st.sys.tracker.Continues (run (phaseStep m) st acts).sys.tracker :=
  run_relates (P := Sound m) (R := fun t u : Threads => t.sys.tracker.Continues u.sys.tracker)
    (fun t => .refl t.sys.tracker) Tracker.Continues.trans
    (fun t act ht => ⟨sound_moves m ht (phaseStep_moves m t act),
      moves_continues m ht (phaseStep_moves m t act)⟩) h acts

/-! ## The law -/

/-- A call of another thread that reads a generation. -/
def Act.read (token : Nat) : Act := .thread (.gen token) (by simp)

/-- A guest store. -/
def Act.guestStore (gpa : Nat) : Act := .thread (.store gpa) (by simp)

/-- One instance of the law: a reader takes a generation and copies a page, the
guest stores into it, and a harvest is called and ends. -/
structure Interleaving where
  bitmap : Bitmap
  /-- steps up to the recorded read -/
  before : List Act
  token : Nat
  /-- steps between the read and the copy -/
  toCopy : List Act
  /-- the page copied -/
  page : Nat
  /-- steps between the copy and the store -/
  toStore : List Act
  /-- the address stored to -/
  gpa : Nat
  /-- steps between the store and the call of the harvest -/
  toCall : List Act
  /-- steps after the call, to the end of the harvest -/
  rest : List Act

namespace Interleaving

variable (m : Machine) (i : Interleaving)

def atRead : Threads := run (phaseStep m) { sys := Sys.init i.bitmap, phase := .idle } i.before

/-- The generation the reader records. -/
def recorded : Nat := (Dirty.gen (i.atRead m).sys.tracker i.token).1

def atStore : Threads :=
  run (phaseStep m) (i.atRead m) (.read i.token :: i.toCopy ++ .copy i.page :: i.toStore)

def atCall : Threads := run (phaseStep m) (i.atStore m) (.guestStore i.gpa :: i.toCall)

def atEnd : Threads := run (phaseStep m) (i.atCall m) (.call :: i.rest)

/-- The premises: the recorded generation is readable, the store goes into the
copied page of the token's set, the harvest called is not skipped and has ended,
and the token is still tracked then. -/
def Applies : Prop :=
  i.recorded m ≠ 0 ∧
  (∃ t, (i.atStore m).sys.tracker.lookup i.token = some t ∧ i.page ∈ t.gpas ∧
    i.page ≤ i.gpa ∧ i.gpa < i.page + t.pageSize) ∧
  (i.atCall m).phase = .idle ∧ ¬ Skipped (i.atCall m).sys.tracker ∧
  (i.atEnd m).phase = .idle ∧ ∃ t, (i.atEnd m).sys.tracker.lookup i.token = some t

/-- The conclusion: the generation after the harvest is newer than the recorded
one. -/
def Reported : Prop := i.recorded m < (Dirty.gen (i.atEnd m).sys.tracker i.token).1

/-- When the store keeps its bit: the RAM range of the page's first byte, if there
is one, is the range the store goes to, and the store is not made between the fold
and the clear of a harvest whose clear covers its target page, unless that fold
already moved the generation past the recorded one. -/
def OutsideClearWindow : Prop :=
  (∀ sl, sliceOf (ramSlices m) i.page = some sl → sliceOf (ramSlices m) i.gpa = some sl) ∧
  ((∃ t, (i.atStore m).sys.tracker.lookup i.token = some t ∧ i.recorded m < t.gen) ∨
    ∀ sl, sliceOf (ramSlices m) i.gpa = some sl →
      ¬ PendingClear m (i.atStore m).phase (sl.ramOf i.gpa / m.targetPage))

end Interleaving

/-- A store into a page of an armed set marks the page, if no pending clear
covers its target page. -/
theorem marked_of_store (m : Machine) {st : Threads} (h : Sound m st) {token : Nat}
    {t : PageSet} (ht : st.sys.tracker.lookup token = some t) (harmed : t.gen ≠ 0)
    {page gpa : Nat} (hpage : page ∈ t.gpas) (hlo : page ≤ gpa) (hhi : gpa < page + t.pageSize)
    (hrange : ∀ sl, sliceOf (ramSlices m) page = some sl →
      sliceOf (ramSlices m) gpa = some sl)
    (hsafe : ∀ sl, sliceOf (ramSlices m) gpa = some sl →
      ¬ PendingClear m st.phase (sl.ramOf gpa / m.targetPage)) :
    ∃ bit, Marked m t.pageSize page bit (phaseStep m st (.guestStore gpa)) := by
  cases hsl : sliceOf (ramSlices m) page with
  | none =>
    -- not RAM: every fold reports the page
    refine ⟨0, ?_, ?_⟩
    · intro sl hsl'
      rw [hsl] at hsl'
      exact absurd hsl' (by simp)
    · intro sl hsl'
      rw [hsl] at hsl'
      exact absurd hsl' (by simp)
  | some sl =>
    have hgpa := hrange sl hsl
    have hmem := mem_of_lookup ht
    have hlogged := h.logged _ hmem harmed page hpage sl hsl
    obtain ⟨_, hsize, haligned⟩ : AlignedShape m t.pageSize t.gpas := h.aligned _ hmem
    obtain ⟨hslMem, hstart, _⟩ := sliceOf_spec hsl
    have hdvd := targetPage_dvd_ramOf hslMem (Nat.dvd_trans hsize (haligned page hpage))
    have hpos := m.targetPage_pos
    have hram : sl.ramOf gpa = sl.ramOf page + (gpa - page) := by
      unfold Slice.ramOf
      omega
    refine ⟨sl.ramOf gpa / m.targetPage, ?_, ?_⟩
    · intro sl' hsl'
      have heq : sl = sl' := Option.some.inj (hsl.symm.trans hsl')
      subst heq
      refine ⟨Nat.div_le_div_right (by omega), ?_, ?_⟩
      · rw [Nat.div_lt_iff_lt_mul hpos, Nat.div_mul_cancel (Nat.dvd_add hdvd hsize)]
        omega
      · show (store m st.sys gpa).bitmap _ = true
        unfold store
        simp [hgpa, hlogged, Slice.ramOf]
    · intro _ _
      exact hsafe sl hgpa

/-- The reader's set at the store, and what a generation newer than the recorded
one comes from. -/
theorem Interleaving.recorded_le (m : Machine) (i : Interleaving)
    (hread : i.recorded m ≠ 0) {t : PageSet}
    (ht : (i.atStore m).sys.tracker.lookup i.token = some t) : i.recorded m ≤ t.gen := by
  have hsound : Sound m (i.atRead m) := sound_run m (sound_init m i.bitmap) i.before
  obtain ⟨htoken, old, hold, hgen⟩ := lookup_of_gen_ne_zero hread
  have hle := (token_le_of_lookup hsound.consistent hold).2
  obtain ⟨first, hfirst, hevolves⟩ := (phases_continue m hsound _).sets i.token hle t ht
  have hsame : first = old := Option.some.inj (hfirst.symm.trans hold)
  subst hsame
  have hrecorded : i.recorded m = first.gen := hgen.symm
  rw [hrecorded]
  exact hevolves.gen

/-- After the store a report is due. -/
theorem Interleaving.due_after_store (m : Machine) (i : Interleaving)
    (happlies : i.Applies m) (houtside : i.OutsideClearWindow m) :
    ∃ bit, Due m i.token i.page (i.recorded m) bit
      (phaseStep m (i.atStore m) (.guestStore i.gpa)) := by
  obtain ⟨hread, ⟨t, ht, hpage, hlo, hhi⟩, _⟩ := happlies
  obtain ⟨hrange, hwindow⟩ := houtside
  have hle := i.recorded_le m hread ht
  have hsound : Sound m (i.atStore m) :=
    sound_run m (sound_run m (sound_init m i.bitmap) i.before) _
  have htracker : (phaseStep m (i.atStore m) (.guestStore i.gpa)).sys.tracker =
      (i.atStore m).sys.tracker := store_tracker m _ _
  have hsame : ∀ t', (phaseStep m (i.atStore m) (.guestStore i.gpa)).sys.tracker.lookup
      i.token = some t' → t = t' := by
    intro t' ht'
    rw [htracker, ht] at ht'
    exact Option.some.inj ht'
  rcases hwindow with ⟨t₀, ht₀, hlt⟩ | hsafe
  · refine ⟨0, ?_⟩
    intro t' ht'
    obtain rfl := hsame t' ht'
    have heq : t₀ = t := Option.some.inj (ht₀.symm.trans ht)
    subst heq
    exact ⟨hpage, Or.inl hlt⟩
  · obtain ⟨bit, hmarked⟩ := marked_of_store m hsound ht (by omega) hpage hlo hhi hrange hsafe
    refine ⟨bit, ?_⟩
    intro t' ht'
    obtain rfl := hsame t' ht'
    exact ⟨hpage, Or.inr ⟨hle, hmarked⟩⟩

/-- **No store is lost outside the clear window.**  In every interleaving, a store
that no pending clear covers is reported to a reader that took its generation
before it, by the next harvest that is called after it and runs. -/
theorem store_outside_clear_window_is_reported (m : Machine) (i : Interleaving)
    (happlies : i.Applies m) (houtside : i.OutsideClearWindow m) : i.Reported m := by
  obtain ⟨bit, hdue⟩ := i.due_after_store m happlies houtside
  obtain ⟨hread, ⟨t, ht, _⟩, hidle, hexec, hend, tEnd, htEnd⟩ := happlies
  have hsoundStore : Sound m (i.atStore m) :=
    sound_run m (sound_run m (sound_init m i.bitmap) i.before) _
  have hleStore := (token_le_of_lookup hsoundStore.consistent ht).2
  have hmove := phaseStep_moves m (i.atStore m) (.guestStore i.gpa)
  -- the report stays due up to the call
  have hcall : Along m i.token (Due m i.token i.page (i.recorded m) bit) (i.atCall m) :=
    along_run m (fun h htoken hd hm => due_moves m h htoken hread hd hm)
      { sound := sound_moves m hsoundStore hmove
        token_le := Nat.le_trans hleStore (moves_continues m hsoundStore hmove).nextToken
        report := hdue } i.toCall
  have hcalled : phaseStep m (i.atCall m) .call = { i.atCall m with phase := .called } := by
    rw [phaseStep, hidle]
    exact if_neg hexec
  have hmoveCall := phaseStep_moves m (i.atCall m) .call
  -- from the call on the harvest cannot end without its fold
  have hclosing : Along m i.token (Closing m i.token i.page (i.recorded m) bit)
      (phaseStep m (i.atCall m) .call) :=
    { sound := sound_moves m hcall.sound hmoveCall
      token_le := Nat.le_trans hcall.token_le (moves_continues m hcall.sound hmoveCall).nextToken
      report := Or.inl
        ⟨due_moves m hcall.sound hcall.token_le hread hcall.report hmoveCall,
          Or.inl (by rw [hcalled])⟩ }
  have hfinal := along_run m
    (fun h htoken hc hm => closing_moves m h htoken hread hc hm) hclosing i.rest
  have hreport : Closing m i.token i.page (i.recorded m) bit (i.atEnd m) := hfinal.report
  have htoken := (lookup_of_gen_ne_zero hread).1
  unfold Interleaving.Reported
  rw [gen_fst_of_lookup htoken htEnd]
  rcases hreport with ⟨_, hphases⟩ | hnewer
  · rw [hend] at hphases
    exact absurd hphases (by simp)
  · exact hnewer tEnd htEnd

/-! ## Instances -/

/-- Track a page, let two harvests pass so that its generation is 1, store into it
and run a third harvest up to its fold: the generation is 2 and the clear is
pending. -/
def upToClear : List Act :=
  .thread (.track [0x1000] 0x1000) (by simp) :: .read 1 :: harvestActs ++
    .read 1 :: harvestActs ++ .guestStore 0x1000 :: .read 1 :: [.call, .sync, .fold]

/-- A reader takes generation 2 before the clear and copies the page after it;
the guest stores, and a harvest runs. -/
def lateCopy : Interleaving where
  bitmap := fun _ => false
  before := upToClear
  token := 1
  toCopy := [.clear, .enable]
  page := 0x1000
  toStore := []
  gpa := 0x1000
  toCall := []
  rest := [.sync, .fold, .clear, .enable]

theorem lateCopy_reported :
    lateCopy.Applies smallMachine ∧ lateCopy.OutsideClearWindow smallMachine ∧
      lateCopy.Reported smallMachine := by
  have happlies : lateCopy.Applies smallMachine :=
    ⟨by decide, ⟨_, rfl, by decide, by decide, by decide⟩, by decide, by decide, by decide,
      _, rfl⟩
  have houtside : lateCopy.OutsideClearWindow smallMachine := by
    refine ⟨fun sl hsl => hsl, Or.inr ?_⟩
    intro sl _ hpending
    exact hpending
  exact ⟨happlies, houtside,
    store_outside_clear_window_is_reported smallMachine lateCopy happlies houtside⟩

/-- The same with copy and store before the clear. -/
def earlyCopy : Interleaving :=
  { lateCopy with toCopy := [], toCall := [.clear, .enable] }

/-- The law does not hold of the code: the clear of `earlyCopy` resets the bit of
a store made after the copy, and the next harvest leaves the generation at 2. -/
theorem store_before_clear_is_lost :
    earlyCopy.Applies smallMachine ∧ ¬ earlyCopy.Reported smallMachine := by
  refine ⟨⟨by decide, ⟨_, rfl, by decide, by decide, by decide⟩, by decide, by decide,
    by decide, _, rfl⟩, ?_⟩
  intro hreported
  exact absurd hreported (by unfold Interleaving.Reported; decide)

end Orchard.Dirty
