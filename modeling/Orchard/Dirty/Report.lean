/-
  Dirty/Report.lean --- the generation and the per-page report agree.

  A reader has two questions: has the set moved since the generation I recorded
  (`reims_vgpu_dirty_gen`), and which of its pages have
  (`reims_vgpu_dirty_written_since`).  The answers come from different fields, so
  their agreement is an invariant of the tracker: a generation past the first
  stands on some page.

  Runs here are as general as the tracker's own callers make them.  The flat view
  and the bitmap may be others at every harvest, and the fold of a harvest may
  find a tracker that was called since the harvest's early return was decided.
-/
import Mathlib.Data.List.Induction
import Orchard.Dirty.Run

set_option autoImplicit false

namespace Orchard.Dirty

open Orchard.Foundation
open Orchard.Memory

/-! ## Runs over changing views -/

/-- The tracker after a list of calls. -/
def trackerAfter (m : Machine) (calls : List Call) : Tracker :=
  run (callStep m) Tracker.new calls

theorem consistent_trackerAfter (m : Machine) (calls : List Call) :
    Consistent (trackerAfter m calls) :=
  consistent_calls m consistent_new calls

/-! ## The set behind a token -/

/-- A token that was handed out and released stays unknown. -/
theorem released_run (m : Machine) {d : Tracker} (h : Consistent d) {token : Nat}
    (htoken : token ≠ 0) (hle : token ≤ d.nextToken) (calls : List Call) :
    (run (callStep m) d (.untrack token :: calls)).lookup token = none := by
  have hgone : (untrack d token).lookup token = none := by
    rw [untrack, if_neg htoken]
    exact lookup_eraseKey_self d.sets token
  have hle' : token ≤ (untrack d token).nextToken :=
    Nat.le_trans hle (callStep_nextToken_le m d (.untrack token))
  rw [Option.eq_none_iff_forall_ne_some]
  intro t ht
  obtain ⟨old, hold, _⟩ :=
    (continues_run m (consistent_untrack h token) calls).sets token hle' t ht
  rw [hgone] at hold
  cases hold

/-- Every tracked set goes back to the call that handed out its token. -/
theorem origin_of_lookup (m : Machine) (calls : List Call) {token : Nat} {s : PageSet}
    (h : (trackerAfter m calls).lookup token = some s) :
    ∃ front gpas pageSize back, calls = front ++ .track gpas pageSize :: back ∧
      Trackable m gpas pageSize ∧ token = (trackerAfter m front).nextToken + 1 ∧
      s.pageSize = pageSize.toNat ∧ s.gpas = sortedPages gpas pageSize := by
  induction calls using List.reverseRecOn generalizing s with
  | nil => simp [trackerAfter, Tracker.new, Tracker.lookup] at h
  | append_singleton calls c ih =>
    rw [trackerAfter, run_append] at h
    rcases callStep_lookup m (consistent_trackerAfter m calls) h with
      ⟨old, hold, hevolves⟩ | ⟨gpas, pageSize, rfl, hok, htoken, rfl⟩
    · obtain ⟨front, gpas, pageSize, back, rfl, hok, htoken, hsize, hgpas⟩ := ih hold
      refine ⟨front, gpas, pageSize, back ++ [c], ?_, hok, htoken, ?_, ?_⟩
      · rw [List.append_assoc, List.cons_append]
      · rw [hevolves.pageSize, hsize]
      · rw [hevolves.gpas, hgpas]
    · exact ⟨calls, gpas, pageSize, [], rfl, hok, htoken, rfl, newSet_gpas _ _ _⟩

/-! ## A generation past the first stands on some page -/

/-- Some page carries the generation, unless the set has only just armed. -/
def Stamped (s : PageSet) : Prop := 1 < s.gen → ∃ p ∈ s.pages, p.stamp = s.gen

/-- A set that was not armed has just armed, or is not armed yet. -/
theorem nextGen_zero_le (harvests armAt : Nat) (any : Bool) :
    nextGen harvests armAt 0 any ≤ 1 := by
  unfold nextGen
  split
  · exact Nat.zero_le 1
  · exact Nat.le_refl 1

theorem stamped_foldSet (m : Machine) (slices : List Slice) (bitmap : Bitmap) {harvests : Nat}
    {s : PageSet} (harm : s.gen ≠ 0 → s.armAt ≤ harvests) (h : Stamped s) :
    Stamped (foldSet m slices bitmap harvests s) := by
  intro hgen
  have hpages := foldSet_pages_of_gen m slices bitmap harvests (s := s) (by omega)
  by_cases hzero : s.gen = 0
  · have hfirst : (foldSet m slices bitmap harvests s).gen ≤ 1 := by
      unfold foldSet
      dsimp only
      rw [hzero]
      exact nextGen_zero_le _ _ _
    omega
  · rw [foldSet_gen_of_armed m slices bitmap harvests hzero (harm hzero)] at hgen ⊢
    rw [hpages, foldSet_gen_of_armed m slices bitmap harvests hzero (harm hzero)]
    split at hgen
    · rename_i hany
      rw [if_pos hany]
      obtain ⟨p, hp, hverdict⟩ := hany
      refine ⟨_, List.mem_map_of_mem hp, ?_⟩
      rw [if_neg hverdict]
    · rename_i hnone
      rw [if_neg hnone]
      obtain ⟨p, hp, hstamp⟩ := h hgen
      refine ⟨_, List.mem_map_of_mem hp, ?_⟩
      split
      · exact hstamp
      · rfl

theorem stamped_callStep (m : Machine) {d : Tracker} (hd : Consistent d)
    (h : ∀ entry ∈ d.sets, Stamped entry.2) (c : Call) :
    ∀ entry ∈ (callStep m d c).sets, Stamped entry.2 := by
  intro entry hentry
  rcases entryFrom_callStep hentry with hmem | ⟨gpas, pageSize, _, _, rfl⟩ |
    ⟨slices, bitmap, old, hmem, rfl⟩
  · exact h entry hmem
  · intro hgen
    exact absurd hgen (Nat.not_lt_zero 1)
  · exact stamped_foldSet m slices bitmap
      (fun hgen => Nat.le_succ_of_le (hd.armed old hmem hgen)) (h old hmem)

theorem stamped_trackerAfter (m : Machine) (calls : List Call) :
    ∀ entry ∈ (trackerAfter m calls).sets, Stamped entry.2 := by
  have hboth : Consistent (trackerAfter m calls) ∧
      ∀ entry ∈ (trackerAfter m calls).sets, Stamped entry.2 :=
    run_invariant_all (P := fun d => Consistent d ∧ ∀ entry ∈ d.sets, Stamped entry.2)
      (fun d c h => ⟨consistent_callStep m h.1 c, stamped_callStep m h.1 h.2 c⟩) calls
      ⟨consistent_new, by simp [Tracker.new]⟩
  exact hboth.2

/-! ## The per-page report -/

/-- The complete report: the pages stamped after `since`, in the order of the array. -/
def PageSet.since (s : PageSet) (since : Nat) : List Nat :=
  (s.pages.filter fun p => since < p.stamp).map (·.gpa)

section Report

variable {d : Tracker} {token : Nat} {s : PageSet}

/-- With room for the whole set the answer is the complete report. -/
theorem writtenSince_of_room (htoken : token ≠ 0) (hset : d.lookup token = some s)
    (harmed : s.gen ≠ 0) {since max : Nat} (hsince : 1 ≤ since)
    (hroom : s.pages.length ≤ max) :
    (writtenSince d token since max).1 = some (s.since since) := by
  have hnot : ¬ (s.gen = 0 ∨ since = 0) := by omega
  have hcollect : collectSince since max s.pages [] = some ([] ++ s.since since) :=
    collectSince_of_room (by simpa using hroom)
  unfold writtenSince
  simp only [if_neg htoken, hset, if_neg hnot, hcollect]
  rfl

/-- An answer is the complete report of a tracked set, whatever room there was. -/
theorem since_of_writtenSince {since max : Nat} {out : List Nat}
    (h : (writtenSince d token since max).1 = some out) :
    ∃ t, token ≠ 0 ∧ d.lookup token = some t ∧ t.gen ≠ 0 ∧ 1 ≤ since ∧
      out = t.since since := by
  unfold writtenSince at h
  split at h
  · simp at h
  · rename_i htoken
    split at h
    · simp at h
    · rename_i t hset
      split at h
      · simp at h
      · rename_i hreadable
        rw [not_or] at hreadable
        split at h
        · simp at h
        · rename_i out' hcollect
          obtain rfl : out' = out := by simpa using h
          exact ⟨t, htoken, hset, hreadable.1, Nat.pos_of_ne_zero hreadable.2,
            collectSince_eq_some hcollect⟩

theorem since_ascending (h : s.gpas.Pairwise (· < ·)) (since : Nat) :
    (s.since since).Pairwise (· < ·) :=
  h.sublist (List.filter_sublist.map _)

/-- The later the recorded generation, the fewer the pages. -/
theorem since_sublist {g g' : Nat} (h : g ≤ g') : (s.since g').Sublist (s.since g) := by
  apply List.Sublist.map
  apply List.monotone_filter_right
  intro p hp
  simp only [decide_eq_true_eq] at hp ⊢
  omega

/-- Nothing to report exactly when the generation has not moved. -/
theorem since_eq_nil_iff (hstamps : ∀ p ∈ s.pages, p.stamp ≤ s.gen) (hstamped : Stamped s)
    {g : Nat} (hg : 1 ≤ g) : s.since g = [] ↔ s.gen ≤ g := by
  rw [PageSet.since, List.map_eq_nil_iff, List.filter_eq_nil_iff]
  constructor
  · intro hnone
    by_contra hlt
    obtain ⟨p, hp, hstamp⟩ := hstamped (by omega)
    have hle := hnone p hp
    simp only [decide_eq_true_eq] at hle
    omega
  · intro hle p hp
    have hstamp := hstamps p hp
    simp only [decide_eq_true_eq]
    omega

end Report

/-! ## The two answers agree -/

/-- What the tracker promises its readers after a list of calls. -/
structure AnswersAgree (m : Machine) (calls : List Call) : Prop where
  /-- the pages of a set are the rounded addresses of the call that created it -/
  pages : ∀ token s, (trackerAfter m calls).lookup token = some s →
    ∃ front gpas pageSize back, calls = front ++ .track gpas pageSize :: back ∧
      (track m (trackerAfter m front) gpas pageSize).1 = token ∧
      s.pageSize = pageSize.toNat ∧ (∀ p ∈ s.gpas, s.pageSize ∣ p) ∧
      s.gpas.Pairwise (· < ·) ∧
      ∀ p, p ∈ s.gpas ↔ ∃ gpa ∈ gpas, p = gpa.toNat - gpa.toNat % s.pageSize
  unarmed : ∀ token s, (trackerAfter m calls).lookup token = some s → s.gen = 0 →
    ∀ p ∈ s.pages, p.stamp = 0
  stamps : ∀ token s, (trackerAfter m calls).lookup token = some s →
    ∀ p ∈ s.pages, p.stamp ≤ s.gen
  stamped : ∀ token s, (trackerAfter m calls).lookup token = some s → 1 < s.gen →
    ∃ p ∈ s.pages, p.stamp = s.gen
  /-- an empty report and an unmoved generation are the same answer -/
  empty_iff : ∀ token s g max, (trackerAfter m calls).lookup token = some s → s.gen ≠ 0 →
    1 ≤ g → s.pages.length ≤ max →
    ((writtenSince (trackerAfter m calls) token g max).1 = some [] ↔
      (gen (trackerAfter m calls) token).1 ≤ g)
  antitone : ∀ token s g g' max, (trackerAfter m calls).lookup token = some s → s.gen ≠ 0 →
    1 ≤ g → g ≤ g' → s.pages.length ≤ max →
    ∃ out out', (writtenSince (trackerAfter m calls) token g max).1 = some out ∧
      (writtenSince (trackerAfter m calls) token g' max).1 = some out' ∧ out'.Sublist out
  ascending : ∀ token g max out,
    (writtenSince (trackerAfter m calls) token g max).1 = some out → out.Pairwise (· < ·)
  /-- with less room the answer is complete or refused -/
  complete : ∀ token s g max room, (trackerAfter m calls).lookup token = some s →
    s.pages.length ≤ max →
    (writtenSince (trackerAfter m calls) token g room).1 =
        (writtenSince (trackerAfter m calls) token g max).1 ∨
      (writtenSince (trackerAfter m calls) token g room).1 = none
  monotone : ∀ front back token s t, calls = front ++ back →
    (trackerAfter m front).lookup token = some s →
    (trackerAfter m calls).lookup token = some t → s.gen ≤ t.gen
  /-- a released token is unknown from then on -/
  released : ∀ front back token s, calls = front ++ .untrack token :: back →
    (trackerAfter m front).lookup token = some s →
    (trackerAfter m calls).lookup token = none ∧
      (gen (trackerAfter m calls) token).1 = 0 ∧
      ∀ g max, (writtenSince (trackerAfter m calls) token g max).1 = none

section Agree

variable (m : Machine) {token : Nat} {s : PageSet}

/-- The pages of a set are those its call asked for. -/
theorem pages_of_lookup {calls : List Call} (hset : (trackerAfter m calls).lookup token = some s) :
    ∃ front gpas pageSize back, calls = front ++ .track gpas pageSize :: back ∧
      (track m (trackerAfter m front) gpas pageSize).1 = token ∧
      s.pageSize = pageSize.toNat ∧ (∀ p ∈ s.gpas, s.pageSize ∣ p) ∧
      s.gpas.Pairwise (· < ·) ∧
      ∀ p, p ∈ s.gpas ↔ ∃ gpa ∈ gpas, p = gpa.toNat - gpa.toNat % s.pageSize := by
  obtain ⟨front, gpas, pageSize, back, hcalls, hok, htoken, hsize, hgpas⟩ :=
    origin_of_lookup m calls hset
  rw [hsize, hgpas]
  refine ⟨front, gpas, pageSize, back, hcalls, ?_, rfl, ?_, ?_, ?_⟩
  · rw [htoken, track, if_pos hok]
  · exact fun p hp => dvd_of_mem_sortedPages hok.2.1 hp
  · exact sortedPages_ascending gpas pageSize
  · exact fun p => mem_sortedPages_iff hok.2.1

/-- The generation of a set only grows. -/
theorem gen_le_of_lookup {front back : List Call} {t : PageSet}
    (hbefore : (trackerAfter m front).lookup token = some s)
    (hafter : (trackerAfter m (front ++ back)).lookup token = some t) : s.gen ≤ t.gen := by
  have hfront := consistent_trackerAfter m front
  rw [trackerAfter, run_append] at hafter
  obtain ⟨old, hold, hevolves⟩ := (continues_run m hfront back).sets token
    (token_le_of_lookup hfront hbefore).2 t hafter
  rw [hbefore] at hold
  cases hold
  exact hevolves.gen

/-- A token that was given back is not found again. -/
theorem lookup_of_released {front : List Call}
    (hbefore : (trackerAfter m front).lookup token = some s) (back : List Call) :
    (trackerAfter m (front ++ .untrack token :: back)).lookup token = none := by
  have hfront := consistent_trackerAfter m front
  obtain ⟨htoken, hle⟩ := token_le_of_lookup hfront hbefore
  rw [trackerAfter, run_append]
  exact released_run m hfront htoken hle back

end Agree

/-- **Generation and report.**  In every run of the tracker, over any flat views and
bitmaps. -/
theorem answers_agree (m : Machine) (calls : List Call) : AnswersAgree m calls where
  pages := fun _ _ hset => pages_of_lookup m hset
  unarmed := by
    intro token s hset hgen p hp
    have hle := (consistent_trackerAfter m calls).stamps _ (mem_of_lookup hset) p hp
    dsimp only at hle
    omega
  stamps := fun _ _ hset => (consistent_trackerAfter m calls).stamps _ (mem_of_lookup hset)
  stamped := fun _ _ hset => stamped_trackerAfter m calls _ (mem_of_lookup hset)
  empty_iff := by
    intro token s g max hset harmed hg hroom
    have hd := consistent_trackerAfter m calls
    have htoken := (token_le_of_lookup hd hset).1
    rw [writtenSince_of_room htoken hset harmed hg hroom, gen_fst_of_lookup htoken hset,
      Option.some.injEq]
    exact since_eq_nil_iff (hd.stamps _ (mem_of_lookup hset))
      (stamped_trackerAfter m calls _ (mem_of_lookup hset)) hg
  antitone := by
    intro token s g g' max hset harmed hg hle hroom
    have htoken := (token_le_of_lookup (consistent_trackerAfter m calls) hset).1
    exact ⟨_, _, writtenSince_of_room htoken hset harmed hg hroom,
      writtenSince_of_room htoken hset harmed (Nat.le_trans hg hle) hroom, since_sublist hle⟩
  ascending := by
    intro token g max out hout
    obtain ⟨t, _, hset, _, _, rfl⟩ := since_of_writtenSince hout
    obtain ⟨_, _, _, _, _, _, _, _, hascending, _⟩ := pages_of_lookup m hset
    exact since_ascending hascending g
  complete := by
    intro token s g max room hset hroom
    cases hanswer : (writtenSince (trackerAfter m calls) token g room).1 with
    | none => exact .inr rfl
    | some out =>
      obtain ⟨t, htoken, ht, harmed, hg, rfl⟩ := since_of_writtenSince hanswer
      rw [hset] at ht
      cases ht
      exact .inl (writtenSince_of_room htoken hset harmed hg hroom).symm
  monotone := by
    rintro front back token s t rfl hbefore hafter
    exact gen_le_of_lookup m hbefore hafter
  released := by
    rintro front back token s rfl hbefore
    have htoken := (token_le_of_lookup (consistent_trackerAfter m front) hbefore).1
    have hafter := lookup_of_released m hbefore back
    refine ⟨hafter, ?_, fun g max => ?_⟩
    · rw [gen, if_neg htoken, hafter]
      rfl
    · rw [writtenSince, if_neg htoken, hafter]

end Orchard.Dirty
