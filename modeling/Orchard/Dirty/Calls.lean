/-
  Dirty/Calls.lean --- what one call can do to the tracker.

  The calls of the tracker, each over whatever flat view and bitmap it finds.  What
  later files need about a call is stated here once: where the sets after it come from,
  that it keeps the tracker consistent, and how the set behind a token can change.
-/
import Orchard.Foundation.Execution
import Orchard.Dirty.Harvest

set_option autoImplicit false

namespace Orchard.Dirty

open Orchard.Foundation
open Orchard.Memory

/-! ## Calls -/

/-- What `reims_vgpu_dirty_harvest` does to the tracker, over the flat view and the
bitmap it finds. -/
def harvestTracker (m : Machine) (view : FlatView) (bitmap : Bitmap) (d : Tracker) : Tracker :=
  if Skipped d then d
  else
    { foldSets m (viewSlices view d.logged) bitmap d with
      logged := enableLogging (markNeeded (viewSlices view d.logged) d) d.logged }

/-- A call of the tracker. -/
inductive Call where
  | track (gpas : List UInt64) (pageSize : UInt64)
  | untrack (token : Nat)
  | gen (token : Nat)
  | writtenSince (token since max : Nat)
  | harvest (view : FlatView) (bitmap : Bitmap)
  /-- the fold of a harvest whose early return was decided before the calls between -/
  | fold (slices : List Slice) (bitmap : Bitmap)

/-- One call. -/
def callStep (m : Machine) (d : Tracker) : Call → Tracker
  | .track gpas pageSize => (track m d gpas pageSize).2
  | .untrack token => untrack d token
  | .gen token => (gen d token).2
  | .writtenSince token since max => (writtenSince d token since max).2
  | .harvest view bitmap => harvestTracker m view bitmap d
  | .fold slices bitmap => foldSets m slices bitmap d

theorem writtenSince_sets (d : Tracker) (token since max : Nat) :
    (writtenSince d token since max).2.sets = d.sets ∧
      (writtenSince d token since max).2.nextToken = d.nextToken ∧
      (writtenSince d token since max).2.logged = d.logged ∧
      (writtenSince d token since max).2.harvests = d.harvests := by
  unfold writtenSince
  split
  · simp
  · split
    · simp
    · split
      · simp
      · split <;> simp

theorem gen_sets (d : Tracker) (token : Nat) :
    (gen d token).2.sets = d.sets ∧ (gen d token).2.nextToken = d.nextToken ∧
      (gen d token).2.logged = d.logged ∧ (gen d token).2.harvests = d.harvests := by
  unfold gen
  split <;> simp

/-- The set `reims_vgpu_dirty_track` creates. -/
def newSet (d : Tracker) (gpas : List UInt64) (pageSize : UInt64) : PageSet where
  pages := (sortedPages gpas pageSize).map fun gpa => { gpa := gpa, stamp := 0 }
  pageSize := pageSize.toNat
  gen := 0
  armAt := d.harvests + 1

theorem newSet_gpas (d : Tracker) (gpas : List UInt64) (pageSize : UInt64) :
    (newSet d gpas pageSize).gpas = sortedPages gpas pageSize := by
  simp [newSet, PageSet.gpas, Function.comp_def]

/-! ## The sets after a call -/

/-- Where an entry after a call comes from: it was there, it is new, or it is the fold
of one that was there. -/
inductive EntryFrom (m : Machine) (d : Tracker) (c : Call) (entry : Nat × PageSet) : Prop where
  | kept (h : entry ∈ d.sets)
  | created (gpas : List UInt64) (pageSize : UInt64) (hcall : c = .track gpas pageSize)
      (hok : Trackable m gpas pageSize)
      (hentry : entry = (d.nextToken + 1, newSet d gpas pageSize))
  | folded (slices : List Slice) (bitmap : Bitmap) (old : Nat × PageSet) (hold : old ∈ d.sets)
      (hentry : entry = (old.1, foldSet m slices bitmap (d.harvests + 1) old.2))

theorem entryFrom_foldSets {m : Machine} {d : Tracker} {c : Call} {entry : Nat × PageSet}
    {slices : List Slice} {bitmap : Bitmap} (h : entry ∈ (foldSets m slices bitmap d).sets) :
    EntryFrom m d c entry := by
  obtain ⟨old, hold, rfl⟩ := List.mem_map.mp h
  exact .folded slices bitmap old hold rfl

theorem entryFrom_callStep {m : Machine} {d : Tracker} {c : Call} {entry : Nat × PageSet}
    (h : entry ∈ (callStep m d c).sets) : EntryFrom m d c entry := by
  cases c with
  | track gpas pageSize =>
    simp only [callStep, track] at h
    split at h
    · rename_i hok
      rcases List.mem_append.mp h with hold | hnew
      · exact .kept hold
      · exact .created gpas pageSize rfl hok (List.mem_singleton.mp hnew)
    · exact .kept h
  | untrack token =>
    simp only [callStep, untrack] at h
    split at h
    · exact .kept h
    · exact .kept (List.mem_filter.mp h).1
  | gen token =>
    rw [callStep, (gen_sets d token).1] at h
    exact .kept h
  | writtenSince token since max =>
    rw [callStep, (writtenSince_sets d token since max).1] at h
    exact .kept h
  | harvest view bitmap =>
    by_cases hskip : Skipped d
    · rw [callStep, harvestTracker, if_pos hskip] at h
      exact .kept h
    · rw [callStep, harvestTracker, if_neg hskip] at h
      exact entryFrom_foldSets h
  | fold slices bitmap => exact entryFrom_foldSets h

/-! ## The tracker's own invariant -/

/-- What holds of the tracker in every reachable state: tokens are handed out in
order, an armed set's arming point is past, and no stamp exceeds the generation. -/
structure Consistent (d : Tracker) : Prop where
  tokens : ∀ entry ∈ d.sets, entry.1 ≠ 0 ∧ entry.1 ≤ d.nextToken
  armed : ∀ entry ∈ d.sets, entry.2.gen ≠ 0 → entry.2.armAt ≤ d.harvests
  stamps : ∀ entry ∈ d.sets, ∀ p ∈ entry.2.pages, p.stamp ≤ entry.2.gen

theorem Consistent.of_eq {d e : Tracker} (h : Consistent d) (hsets : e.sets = d.sets)
    (htoken : e.nextToken = d.nextToken) (hharvests : e.harvests = d.harvests) :
    Consistent e where
  tokens := by rw [hsets, htoken]; exact h.tokens
  armed := by rw [hsets, hharvests]; exact h.armed
  stamps := by rw [hsets]; exact h.stamps

theorem consistent_new : Consistent Tracker.new where
  tokens := by simp [Tracker.new]
  armed := by simp [Tracker.new]
  stamps := by simp [Tracker.new]

theorem consistent_track (m : Machine) {d : Tracker} (h : Consistent d)
    (gpas : List UInt64) (pageSize : UInt64) :
    Consistent (track m d gpas pageSize).2 := by
  unfold track
  split
  · refine ⟨?_, ?_, ?_⟩
    · intro entry hentry
      rcases List.mem_append.mp hentry with hold | hnew
      · have := h.tokens entry hold
        exact ⟨this.1, Nat.le_succ_of_le this.2⟩
      · simp only [List.mem_singleton] at hnew
        subst hnew
        exact ⟨Nat.succ_ne_zero _, Nat.le_refl _⟩
    · intro entry hentry hgen
      rcases List.mem_append.mp hentry with hold | hnew
      · exact h.armed entry hold hgen
      · simp only [List.mem_singleton] at hnew
        subst hnew
        exact absurd rfl hgen
    · intro entry hentry p hp
      rcases List.mem_append.mp hentry with hold | hnew
      · exact h.stamps entry hold p hp
      · simp only [List.mem_singleton] at hnew
        subst hnew
        simp only [List.mem_map] at hp
        obtain ⟨gpa, _, rfl⟩ := hp
        exact Nat.le_refl _
  · exact h

theorem consistent_untrack {d : Tracker} (h : Consistent d) (token : Nat) :
    Consistent (untrack d token) := by
  unfold untrack
  split
  · exact h
  · have hmem : ∀ entry ∈ eraseKey d.sets token, entry ∈ d.sets :=
      fun entry hentry => (List.mem_filter.mp hentry).1
    exact
      { tokens := fun entry hentry => h.tokens entry (hmem entry hentry)
        armed := fun entry hentry => h.armed entry (hmem entry hentry)
        stamps := fun entry hentry => h.stamps entry (hmem entry hentry) }

/-- The generation never moves back: an armed set stays armed. -/
theorem gen_le_foldSet_gen (m : Machine) (slices : List Slice) (bitmap : Bitmap)
    {harvests : Nat} {s : PageSet} (harm : s.gen ≠ 0 → s.armAt ≤ harvests) :
    s.gen ≤ (foldSet m slices bitmap harvests s).gen := by
  by_cases hgen : s.gen = 0
  · omega
  · rw [foldSet_gen_of_armed m slices bitmap harvests hgen (harm hgen)]
    split <;> omega

theorem foldSet_stamps_le (m : Machine) (slices : List Slice) (bitmap : Bitmap)
    {harvests : Nat} {s : PageSet} (harm : s.gen ≠ 0 → s.armAt ≤ harvests)
    (hstamps : ∀ p ∈ s.pages, p.stamp ≤ s.gen) :
    ∀ p ∈ (foldSet m slices bitmap harvests s).pages,
      p.stamp ≤ (foldSet m slices bitmap harvests s).gen := by
  intro p hp
  have hmono := gen_le_foldSet_gen m slices bitmap harm
  by_cases hgen : (foldSet m slices bitmap harvests s).gen = 0
  · rw [foldSet_pages_of_gen_zero m slices bitmap harvests hgen] at hp
    exact Nat.le_trans (hstamps p hp) hmono
  · rw [foldSet_pages_of_gen m slices bitmap harvests hgen] at hp
    obtain ⟨q, hq, rfl⟩ := List.mem_map.mp hp
    split
    · exact Nat.le_trans (hstamps q hq) hmono
    · exact Nat.le_refl _

theorem consistent_foldSets (m : Machine) (slices : List Slice) (bitmap : Bitmap)
    {d : Tracker} (h : Consistent d) : Consistent (foldSets m slices bitmap d) := by
  have hentry : ∀ entry ∈ (foldSets m slices bitmap d).sets, ∃ old ∈ d.sets,
      entry = (old.1, foldSet m slices bitmap (d.harvests + 1) old.2) := by
    intro entry hentry
    obtain ⟨old, hold, rfl⟩ := List.mem_map.mp hentry
    exact ⟨old, hold, rfl⟩
  refine ⟨?_, ?_, ?_⟩
  · intro entry hmem
    obtain ⟨old, hold, rfl⟩ := hentry entry hmem
    exact h.tokens old hold
  · intro entry hmem hgen
    obtain ⟨old, hold, rfl⟩ := hentry entry hmem
    exact foldSet_armAt_le_of_gen m slices bitmap _ hgen
  · intro entry hmem
    obtain ⟨old, hold, rfl⟩ := hentry entry hmem
    exact foldSet_stamps_le m slices bitmap
      (fun hgen => Nat.le_succ_of_le (h.armed old hold hgen)) (h.stamps old hold)

theorem consistent_callStep (m : Machine) {d : Tracker} (h : Consistent d) (c : Call) :
    Consistent (callStep m d c) := by
  cases c with
  | track gpas pageSize => exact consistent_track m h gpas pageSize
  | untrack token => exact consistent_untrack h token
  | gen token =>
    obtain ⟨hsets, htoken, _, hharvests⟩ := gen_sets d token
    exact h.of_eq hsets htoken hharvests
  | writtenSince token since max =>
    obtain ⟨hsets, htoken, _, hharvests⟩ := writtenSince_sets d token since max
    exact h.of_eq hsets htoken hharvests
  | harvest view bitmap =>
    rw [callStep, harvestTracker]
    split
    · exact h
    · exact (consistent_foldSets m _ bitmap h).of_eq rfl rfl rfl
  | fold slices bitmap => exact consistent_foldSets m slices bitmap h

theorem consistent_calls (m : Machine) {d : Tracker} (h : Consistent d) (calls : List Call) :
    Consistent (run (callStep m) d calls) :=
  run_invariant_all (P := Consistent) (fun _ c h => consistent_callStep m h c) calls h

/-! ## The counters -/

/-- After `n` calls: each call moves at most one of the tracker's counters, and what a set
counts lies behind the harvests. -/
structure Counted (n : Nat) (d : Tracker) : Prop where
  total : d.nextToken + d.harvests + d.readsSinceHarvest ≤ n
  gen : ∀ entry ∈ d.sets, entry.2.gen ≤ d.harvests
  armAt : ∀ entry ∈ d.sets, entry.2.armAt ≤ d.harvests + 1

theorem counted_foldSets (m : Machine) (slices : List Slice) (bitmap : Bitmap) {n : Nat}
    {d : Tracker} (h : Counted n d) : Counted (n + 1) (foldSets m slices bitmap d) := by
  have htotal := h.total
  refine ⟨?_, ?_, ?_⟩
  · show d.nextToken + (d.harvests + 1) + 0 ≤ n + 1
    omega
  · intro entry hentry
    obtain ⟨old, hold, rfl⟩ := List.mem_map.mp hentry
    have hgen := h.gen old hold
    show nextGen _ _ _ _ ≤ d.harvests + 1
    unfold nextGen
    repeat' split
    all_goals omega
  · intro entry hentry
    obtain ⟨old, hold, rfl⟩ := List.mem_map.mp hentry
    have harm := h.armAt old hold
    dsimp only [foldSets, foldSet]
    split
    · exact Nat.le_refl _
    · exact harm.trans (Nat.le_succ _)

/-- A read counts, and leaves the sets. -/
theorem Counted.read {n : Nat} {d e : Tracker} (h : Counted n d) (hsets : e.sets = d.sets)
    (htoken : e.nextToken = d.nextToken) (hharvests : e.harvests = d.harvests)
    (hreads : e.readsSinceHarvest ≤ d.readsSinceHarvest + 1) : Counted (n + 1) e where
  total := by
    have htotal := h.total
    omega
  gen := by
    rw [hsets, hharvests]
    exact h.gen
  armAt := by
    rw [hsets, hharvests]
    exact h.armAt

theorem Counted.track (m : Machine) {n : Nat} {d : Tracker} (h : Counted n d) (gpas : List UInt64)
    (pageSize : UInt64) : Counted (n + 1) (track m d gpas pageSize).2 := by
  have htotal := h.total
  rw [Dirty.track]
  split
  · refine ⟨?_, fun entry hentry => ?_, fun entry hentry => ?_⟩
    · show d.nextToken + 1 + d.harvests + d.readsSinceHarvest ≤ n + 1
      omega
    · rcases List.mem_append.mp hentry with hold | hnew
      · exact h.gen entry hold
      · cases List.mem_singleton.mp hnew
        exact Nat.zero_le _
    · rcases List.mem_append.mp hentry with hold | hnew
      · exact h.armAt entry hold
      · cases List.mem_singleton.mp hnew
        exact Nat.le_refl _
  · exact { h with total := Nat.le_succ_of_le h.total }

theorem counted_callStep (m : Machine) {n : Nat} {d : Tracker} (h : Counted n d) (c : Call) :
    Counted (n + 1) (callStep m d c) := by
  have hsame : Counted (n + 1) d := { h with total := Nat.le_succ_of_le h.total }
  cases c with
  | track gpas pageSize => exact h.track m gpas pageSize
  | untrack token =>
    rw [callStep, untrack]
    split
    · exact hsame
    · exact { hsame with
        gen := fun entry hentry => h.gen entry (List.mem_filter.mp hentry).1
        armAt := fun entry hentry => h.armAt entry (List.mem_filter.mp hentry).1 }
  | gen token =>
    obtain ⟨hsets, htoken, _, hharvests⟩ := gen_sets d token
    refine h.read hsets htoken hharvests ?_
    rw [callStep, gen]
    split
    · exact Nat.le_succ _
    · exact Nat.le_refl _
  | writtenSince token since max =>
    obtain ⟨hsets, htoken, _, hharvests⟩ := writtenSince_sets d token since max
    refine h.read hsets htoken hharvests ?_
    rw [callStep, writtenSince]
    repeat' split
    all_goals first | exact Nat.le_succ _ | exact Nat.le_refl _
  | harvest view bitmap =>
    rw [callStep, harvestTracker]
    split
    · exact hsame
    · have hfold := counted_foldSets m (viewSlices view d.logged) bitmap h
      exact ⟨hfold.total, hfold.gen, hfold.armAt⟩
  | fold slices bitmap => exact counted_foldSets m slices bitmap h

theorem counted_calls (m : Machine) {n : Nat} {d : Tracker} (h : Counted n d)
    (calls : List Call) : Counted (n + calls.length) (run (callStep m) d calls) := by
  induction calls generalizing n d with
  | nil => exact h
  | cons c rest ih =>
    have hrest := ih (counted_callStep m h c)
    rw [run_cons, List.length_cons, Nat.add_comm rest.length, ← Nat.add_assoc]
    exact hrest

/-- After `n` calls of a new tracker no counter is past `n`, so none wraps in a run of
fewer than `2 ^ 64` calls. -/
theorem counters_le_calls (m : Machine) (calls : List Call) :
    let d := run (callStep m) Tracker.new calls
    d.nextToken ≤ calls.length ∧ d.harvests ≤ calls.length ∧
      d.readsSinceHarvest ≤ calls.length ∧
      ∀ entry ∈ d.sets, entry.2.gen ≤ calls.length ∧ entry.2.armAt ≤ calls.length ∧
        ∀ p ∈ entry.2.pages, p.stamp ≤ calls.length := by
  intro d
  have hcons : Consistent d := consistent_calls m consistent_new calls
  have hcount : Counted calls.length d := by
    have hnew : Counted 0 Tracker.new :=
      ⟨Nat.le_refl _, by simp [Tracker.new], by simp [Tracker.new]⟩
    simpa using counted_calls m hnew calls
  have htotal := hcount.total
  refine ⟨by omega, by omega, by omega, fun entry hentry => ?_⟩
  have hgen := hcount.gen entry hentry
  have harm := hcount.armAt entry hentry
  -- a set was tracked by a call of its own
  have htoken := hcons.tokens entry hentry
  refine ⟨by omega, by omega, fun p hp => ?_⟩
  have hstamp := hcons.stamps entry hentry p hp
  omega

/-! ## How the set behind a token changes -/

/-- The set behind a token later on: same pages, generation and stamps no
smaller. -/
structure PageSet.Evolves (s t : PageSet) : Prop where
  pageSize : t.pageSize = s.pageSize
  gpas : t.gpas = s.gpas
  gen : s.gen ≤ t.gen
  stamps : ∀ gpa since, (∃ p ∈ s.pages, p.gpa = gpa ∧ since < p.stamp) →
    ∃ p ∈ t.pages, p.gpa = gpa ∧ since < p.stamp

theorem PageSet.Evolves.refl (s : PageSet) : s.Evolves s where
  pageSize := rfl
  gpas := rfl
  gen := Nat.le_refl _
  stamps := fun _ _ h => h

theorem PageSet.Evolves.trans {s t u : PageSet} (h₁ : s.Evolves t) (h₂ : t.Evolves u) :
    s.Evolves u where
  pageSize := h₂.pageSize.trans h₁.pageSize
  gpas := h₂.gpas.trans h₁.gpas
  gen := Nat.le_trans h₁.gen h₂.gen
  stamps := fun gpa since h => h₂.stamps gpa since (h₁.stamps gpa since h)

theorem foldSet_evolves (m : Machine) (slices : List Slice) (bitmap : Bitmap)
    {harvests : Nat} {s : PageSet} (harm : s.gen ≠ 0 → s.armAt ≤ harvests)
    (hstamps : ∀ p ∈ s.pages, p.stamp ≤ s.gen) :
    s.Evolves (foldSet m slices bitmap harvests s) where
  pageSize := rfl
  gpas := foldSet_gpas m slices bitmap harvests s
  gen := gen_le_foldSet_gen m slices bitmap harm
  stamps := by
    rintro gpa since ⟨p, hp, hgpa, hlt⟩
    have hmono := gen_le_foldSet_gen m slices bitmap harm
    have hp' := hstamps p hp
    by_cases hgen : (foldSet m slices bitmap harvests s).gen = 0
    · rw [foldSet_pages_of_gen_zero m slices bitmap harvests hgen]
      exact ⟨p, hp, hgpa, hlt⟩
    · rw [foldSet_pages_of_gen m slices bitmap harvests hgen]
      refine ⟨_, List.mem_map_of_mem hp, ?_, ?_⟩
      · split <;> exact hgpa
      · split
        · exact hlt
        · -- the new stamp is the new generation, which no older stamp exceeds
          show since < (foldSet m slices bitmap harvests s).gen
          omega

/-- Appending a fresh token hides no older one. -/
theorem track_lookup_of_le (m : Machine) {d : Tracker} {token : Nat}
    (htoken : token ≤ d.nextToken) (gpas : List UInt64) (pageSize : UInt64) :
    (track m d gpas pageSize).2.lookup token = d.lookup token := by
  unfold track
  split
  · exact lookup_append_of_ne (by omega)
  · rfl

theorem untrack_lookup_back {d : Tracker} {token other : Nat} {t : PageSet}
    (h : (untrack d other).lookup token = some t) : d.lookup token = some t := by
  unfold untrack at h
  split at h
  · exact h
  · by_cases heq : token = other
    · subst heq
      have hnone : (eraseKey d.sets token).lookup token = none :=
        lookup_eraseKey_self d.sets token
      have hsome : (eraseKey d.sets token).lookup token = some t := h
      rw [hnone] at hsome
      exact absurd hsome (by simp)
    · have hsame : (eraseKey d.sets other).lookup token = d.sets.lookup token :=
        lookup_eraseKey_of_ne heq
      exact hsame.symm.trans h

/-- The fold takes every set to one it evolves to. -/
theorem foldSets_lookup_back (m : Machine) (slices : List Slice) (bitmap : Bitmap)
    {d : Tracker} (h : Consistent d) {token : Nat} {t : PageSet}
    (hlookup : (foldSets m slices bitmap d).lookup token = some t) :
    ∃ old, d.lookup token = some old ∧ old.Evolves t := by
  have hmap : (d.lookup token).map (foldSet m slices bitmap (d.harvests + 1)) = some t :=
    (lookup_mapValues _ _ _).symm.trans hlookup
  rw [Option.map_eq_some_iff] at hmap
  obtain ⟨old, hold, rfl⟩ := hmap
  have hmem := mem_of_lookup hold
  exact ⟨old, hold, foldSet_evolves m slices bitmap
    (fun hgen => Nat.le_succ_of_le (h.armed _ hmem hgen)) (h.stamps _ hmem)⟩

/-- A token that is tracked after a call was tracked before it, with a set that evolved,
or the call handed it out. -/
theorem callStep_lookup (m : Machine) {d : Tracker} (h : Consistent d) {c : Call}
    {token : Nat} {t : PageSet} (hlookup : (callStep m d c).lookup token = some t) :
    (∃ old, d.lookup token = some old ∧ old.Evolves t) ∨
      ∃ gpas pageSize, c = .track gpas pageSize ∧ Trackable m gpas pageSize ∧
        token = d.nextToken + 1 ∧ t = newSet d gpas pageSize := by
  cases c with
  | track gpas pageSize =>
    rcases Nat.lt_or_ge d.nextToken token with hnew | hold
    · -- an entry with a token past the last one is the one just appended
      rcases entryFrom_callStep (mem_of_lookup hlookup) with hmem |
        ⟨gpas', size', hcall, hok, hentry⟩ | ⟨_, _, old, hmem, hentry⟩
      · have htoken := (h.tokens _ hmem).2
        dsimp only at htoken
        omega
      · cases hcall
        obtain ⟨htoken, hset⟩ := Prod.mk.inj hentry
        exact .inr ⟨gpas, pageSize, rfl, hok, htoken, hset⟩
      · have htoken := (h.tokens old hmem).2
        rw [← (Prod.mk.inj hentry).1] at htoken
        omega
    · rw [callStep, track_lookup_of_le m hold] at hlookup
      exact .inl ⟨t, hlookup, .refl t⟩
  | untrack other => exact .inl ⟨t, untrack_lookup_back hlookup, .refl t⟩
  | gen other =>
    rw [callStep, Tracker.lookup, (gen_sets d other).1] at hlookup
    exact .inl ⟨t, hlookup, .refl t⟩
  | writtenSince other since max =>
    rw [callStep, Tracker.lookup, (writtenSince_sets d other since max).1] at hlookup
    exact .inl ⟨t, hlookup, .refl t⟩
  | harvest view bitmap =>
    rw [callStep, harvestTracker] at hlookup
    split at hlookup
    · exact .inl ⟨t, hlookup, .refl t⟩
    · exact .inl (foldSets_lookup_back m _ bitmap h hlookup)
  | fold slices bitmap => exact .inl (foldSets_lookup_back m slices bitmap h hlookup)

theorem callStep_nextToken_le (m : Machine) (d : Tracker) (c : Call) :
    d.nextToken ≤ (callStep m d c).nextToken := by
  cases c with
  | track gpas pageSize =>
    rw [callStep, track]
    split
    · exact Nat.le_succ _
    · exact Nat.le_refl _
  | untrack token =>
    rw [callStep, untrack]
    split <;> exact Nat.le_refl _
  | gen token => exact Nat.le_of_eq (gen_sets d token).2.1.symm
  | writtenSince token since max =>
    exact Nat.le_of_eq (writtenSince_sets d token since max).2.1.symm
  | harvest view bitmap =>
    rw [callStep, harvestTracker]
    split <;> exact Nat.le_refl _
  | fold slices bitmap => exact Nat.le_refl _

theorem nextToken_le_calls (m : Machine) (d : Tracker) (calls : List Call) :
    d.nextToken ≤ (run (callStep m) d calls).nextToken :=
  run_relates (P := fun _ => True) (R := fun d e : Tracker => d.nextToken ≤ e.nextToken)
    (fun _ => Nat.le_refl _) Nat.le_trans
    (fun d c _ => ⟨trivial, callStep_nextToken_le m d c⟩) trivial calls

/-- Later on, no token was handed out twice, and the sets that remain evolved. -/
structure Tracker.Continues (d e : Tracker) : Prop where
  nextToken : d.nextToken ≤ e.nextToken
  sets : ∀ token, token ≤ d.nextToken → ∀ t, e.lookup token = some t →
    ∃ old, d.lookup token = some old ∧ old.Evolves t

theorem Tracker.Continues.refl (d : Tracker) : d.Continues d where
  nextToken := Nat.le_refl _
  sets := fun _ _ t h => ⟨t, h, .refl t⟩

theorem Tracker.Continues.trans {d e f : Tracker} (hde : d.Continues e) (hef : e.Continues f) :
    d.Continues f where
  nextToken := Nat.le_trans hde.nextToken hef.nextToken
  sets := by
    intro token htoken t ht
    obtain ⟨mid, hmid, hlater⟩ := hef.sets token (Nat.le_trans htoken hde.nextToken) t ht
    obtain ⟨old, hold, hearlier⟩ := hde.sets token htoken mid hmid
    exact ⟨old, hold, hearlier.trans hlater⟩

theorem continues_callStep (m : Machine) {d : Tracker} (h : Consistent d) (c : Call) :
    d.Continues (callStep m d c) where
  nextToken := callStep_nextToken_le m d c
  sets := by
    intro token htoken t ht
    rcases callStep_lookup m h ht with hold | ⟨_, _, _, _, hnew, _⟩
    · exact hold
    · omega

theorem continues_run (m : Machine) {d : Tracker} (h : Consistent d) (calls : List Call) :
    d.Continues (run (callStep m) d calls) :=
  run_relates Tracker.Continues.refl Tracker.Continues.trans
    (fun _ c h => ⟨consistent_callStep m h c, continues_callStep m h c⟩) h calls

/-! ## The shape of a set is fixed when it is tracked -/

/-- A property of the page size and page array of every set. -/
def ShapeInv (P : Nat → List Nat → Prop) (d : Tracker) : Prop :=
  ∀ entry ∈ d.sets, P entry.2.pageSize entry.2.gpas

/-- Only `track` can break a property of shapes, and only with its own pages. -/
theorem shapeInv_callStep (m : Machine) {P : Nat → List Nat → Prop} {d : Tracker} {c : Call}
    (htrack : ∀ gpas pageSize, c = .track gpas pageSize → Trackable m gpas pageSize →
      P pageSize.toNat (sortedPages gpas pageSize))
    (h : ShapeInv P d) : ShapeInv P (callStep m d c) := by
  intro entry hentry
  rcases entryFrom_callStep hentry with hold | ⟨gpas, pageSize, hcall, hok, rfl⟩ |
    ⟨slices, bitmap, old, hold, rfl⟩
  · exact h entry hold
  · rw [newSet_gpas]
    exact htrack gpas pageSize hcall hok
  · simpa using h old hold

theorem shapeInv_calls (m : Machine) {P : Nat → List Nat → Prop} {d : Tracker}
    {calls : List Call} (htrack : ∀ gpas pageSize, .track gpas pageSize ∈ calls →
      Trackable m gpas pageSize → P pageSize.toNat (sortedPages gpas pageSize))
    (h : ShapeInv P d) : ShapeInv P (run (callStep m) d calls) := by
  induction calls generalizing d with
  | nil => exact h
  | cons c rest ih =>
    rw [run_cons]
    refine ih (fun gpas pageSize hmem => htrack gpas pageSize (List.mem_cons_of_mem c hmem)) ?_
    refine shapeInv_callStep m (fun gpas pageSize hcall => htrack gpas pageSize ?_) h
    rw [hcall]
    exact List.mem_cons_self

end Orchard.Dirty
