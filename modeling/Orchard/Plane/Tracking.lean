/-
  Plane/Tracking.lean --- what the scheduler's indexes hold.

  The scheduler keeps a count of hazards, lists of stamps and pipelines and an index for
  each of the three, and every event touches only what its index names.  `Tracks` says what
  the indexes have to hold for that to be enough.  A transaction that joins and one that
  completes keep it, index by index.
-/
import Orchard.Foundation.Execution
import Orchard.Foundation.Reordering
import Orchard.Plane.Ready

set_option autoImplicit false

namespace Orchard.Plane

open Orchard.Foundation Std

/-! ## The indexes -/

section Indexes

variable {K : Type} [DecidableEq K] {index : K → TreeSet IngressOrdinal} {keys : List K}
  {ordinal : IngressOrdinal}

theorem mem_fileUnder {key : K} {o : IngressOrdinal} :
    o ∈ fileUnder index keys ordinal key ↔ o ∈ index key ∨ (o = ordinal ∧ key ∈ keys) := by
  unfold fileUnder
  induction keys generalizing index with
  | nil => simp
  | cons k rest ih =>
    rw [List.foldl_cons, ih]
    by_cases hk : key = k
    · subst hk
      simp only [Function.update_self, TreeSet.mem_insert, Nat.compare_eq_eq,
        List.mem_cons, true_or, and_true]
      constructor
      · rintro ((rfl | h) | ⟨rfl, -⟩)
        · exact Or.inr rfl
        · exact Or.inl h
        · exact Or.inr rfl
      · rintro (h | rfl)
        · exact Or.inl (Or.inr h)
        · exact Or.inl (Or.inl rfl)
    · simp [hk]

theorem mem_unfile {key : K} {o : IngressOrdinal} :
    o ∈ unfile index keys ordinal key ↔ o ∈ index key ∧ ¬(o = ordinal ∧ key ∈ keys) := by
  unfold unfile
  induction keys generalizing index with
  | nil => simp
  | cons k rest ih =>
    rw [List.foldl_cons, ih]
    by_cases hk : key = k
    · subst hk
      simp only [Function.update_self, TreeSet.mem_erase, ne_eq, Nat.compare_eq_eq,
        List.mem_cons, true_or, and_true]
      constructor
      · rintro ⟨⟨hne, h⟩, -⟩
        exact ⟨h, fun heq => hne heq.symm⟩
      · rintro ⟨h, hne⟩
        exact ⟨⟨fun heq => hne heq.symm, h⟩, fun heq => hne heq.1⟩
    · simp [hk]

end Indexes

theorem count_hold {dependents : IngressOrdinal → List IngressOrdinal}
    {live : List IngressOrdinal} {ordinal d o : IngressOrdinal} :
    (hold dependents live ordinal d).count o =
      (dependents d).count o + if o = ordinal then live.count d else 0 := by
  unfold hold
  induction live generalizing dependents with
  | nil => simp
  | cons k rest ih =>
    rw [List.foldl_cons, ih]
    by_cases hk : d = k
    · subst hk
      by_cases ho : o = ordinal
      · subst ho
        simp
        omega
      · have ho' : ¬ordinal = o := fun h => ho h.symm
        simp [ho, ho', List.count_append]
    · have hk' : ¬k = d := fun h => hk h.symm
      simp [Function.update_of_ne hk, hk']

namespace Scheduler

/-! ## The loops that release transactions -/

/-- What the releasing loops leave alone. -/
structure SameIndexes (s t : Scheduler) : Prop where
  published : t.published = s.published
  bySlot : t.waitersBySlot = s.waitersBySlot
  byPipeline : t.waitersByPipeline = s.waitersByPipeline
  dependents : t.dependents = s.dependents

theorem SameIndexes.refl (s : Scheduler) : SameIndexes s s := ⟨rfl, rfl, rfl, rfl⟩

theorem SameIndexes.trans {s t u : Scheduler} (h₁ : SameIndexes s t) (h₂ : SameIndexes t u) :
    SameIndexes s u :=
  ⟨h₂.published.trans h₁.published, h₂.bySlot.trans h₁.bySlot,
    h₂.byPipeline.trans h₁.byPipeline, h₂.dependents.trans h₁.dependents⟩

theorem pending_touch (f : Pending → Pending) (s : Scheduler) (w o : IngressOrdinal) :
    (s.touch f w).pending[o]? = if o = w then (s.pending[o]?).map f else s.pending[o]? := by
  unfold touch
  cases hw : s.pending[w]? with
  | none =>
    by_cases ho : o = w
    · subst ho
      simp [hw]
    · simp [ho]
  | some p =>
    by_cases ho : o = w
    · subst ho
      simp [hw]
    · have hwo : ¬w = o := fun h => ho h.symm
      simp [ho, TreeMap.getElem?_insert, hwo]

theorem mem_ready_touch {f : Pending → Pending} {s : Scheduler} {w o : IngressOrdinal} :
    o ∈ (s.touch f w).ready ↔
      o ∈ s.ready ∨ (o = w ∧ ∃ p, s.pending[o]? = some p ∧ (f p).isReady = true) := by
  unfold touch
  cases hw : s.pending[w]? with
  | none =>
    simp only [iff_self_or]
    rintro ⟨rfl, p, hp, -⟩
    rw [hw] at hp
    cases hp
  | some p =>
    dsimp only
    split
    · rename_i hready
      simp only [TreeSet.mem_insert, Nat.compare_eq_eq]
      constructor
      · rintro (rfl | h)
        · exact Or.inr ⟨rfl, p, hw, hready⟩
        · exact Or.inl h
      · rintro (h | ⟨rfl, -⟩)
        · exact Or.inr h
        · exact Or.inl rfl
    · rename_i hready
      simp only [iff_self_or]
      rintro ⟨rfl, q, hq, hr⟩
      rw [hw] at hq
      cases hq
      exact absurd hr hready

theorem sameIndexes_touch (f : Pending → Pending) (s : Scheduler) (w : IngressOrdinal) :
    SameIndexes s (s.touch f w) := by
  unfold touch
  split <;> exact ⟨rfl, rfl, rfl, rfl⟩

/-- A whole loop: every pending transaction is touched as often as the list names it. -/
theorem touch_all_spec (f : Pending → Pending) (ws : List IngressOrdinal) (s : Scheduler) :
    (∀ o, (ws.foldl (touch f) s).pending[o]? = (s.pending[o]?).map f^[ws.count o]) ∧
      (∀ o, o ∈ (ws.foldl (touch f) s).ready ↔ o ∈ s.ready ∨
        ∃ p, s.pending[o]? = some p ∧ ∃ k, 0 < k ∧ k ≤ ws.count o ∧ (f^[k] p).isReady = true) ∧
      SameIndexes s (ws.foldl (touch f) s) := by
  induction ws generalizing s with
  | nil =>
    refine ⟨fun o => by simp, fun o => ?_, .refl s⟩
    simp only [List.foldl_nil, List.count_nil, iff_self_or]
    rintro ⟨p, -, k, hpos, hle, -⟩
    omega
  | cons w rest ih =>
    obtain ⟨hpending, hready, hsame⟩ := ih (s.touch f w)
    refine ⟨fun o => ?_, fun o => ?_, (sameIndexes_touch f s w).trans hsame⟩
    · rw [List.foldl_cons, hpending, pending_touch]
      by_cases ho : o = w
      · subst ho
        cases s.pending[o]? <;> simp
      · have hwo : ¬w = o := fun h => ho h.symm
        simp [ho, hwo]
    · rw [List.foldl_cons, hready, mem_ready_touch, pending_touch]
      by_cases ho : o = w
      · subst ho
        simp only [true_and, if_true, List.count_cons_self]
        cases hp : s.pending[o]? with
        | none => simp
        | some p =>
          simp only [Option.some.injEq, exists_eq_left', Option.map_some, or_assoc]
          refine or_congr_right ?_
          constructor
          · rintro (h | ⟨k, hpos, hle, h⟩)
            · exact ⟨1, by omega, by omega, h⟩
            · exact ⟨k + 1, by omega, by omega, h⟩
          · rintro ⟨k, hpos, hle, h⟩
            obtain ⟨m, rfl⟩ : ∃ m, k = m + 1 := ⟨k - 1, by omega⟩
            by_cases hm : m = 0
            · subst hm
              exact Or.inl h
            · exact Or.inr ⟨m, by omega, by omega, h⟩
      · have hwo : ¬w = o := fun h => ho h.symm
        simp [ho, hwo]

end Scheduler

/-! ## The board follows the scheduler -/

theorem Job.isReady_iff {j : Job} :
    j.isReady = true ↔ j.hazards = [] ∧ j.stamps = [] ∧ j.pipelines = [] := by
  simp [Job.isReady, and_assoc]

theorem Job.waitsFor_iff {q : ResourceId} {j : Job} :
    Job.waitsFor q j = true ↔ q ∈ j.pipelines ∧ q ∉ j.refused := by
  simp [Job.waitsFor]

/-- A pending entry with its prerequisites counted and listed. -/
structure Agrees (p : Pending) (j : Job) : Prop where
  hazards : p.remainingHazards = j.hazards.length
  stamps : p.stampWaits = j.stamps
  pipelines : p.pipelineWaits = j.pipelines
  completion : p.completion = j.completion
  registered : ∀ w ∈ p.stampWaits, w.slot ∈ p.registeredSlots

theorem Agrees.isReady {p : Pending} {j : Job} (h : Agrees p j) : p.isReady = j.isReady := by
  unfold Pending.isReady Job.isReady
  rw [h.hazards, h.stamps, h.pipelines]
  cases j.hazards <;> simp

/-- The indexes of the scheduler say what the board says; all ordinals are below `bound`. -/
structure Tracks (s : Scheduler) (b : Board) (bound : IngressOrdinal) : Prop where
  ordered : b.pendingOrdinals.Pairwise (· < ·)
  below : ∀ o ∈ b.pendingOrdinals, o < bound
  pending : ∀ o j, (o, j) ∈ b.jobs → ∃ p, s.pending[o]? = some p ∧ Agrees p j
  only : ∀ o p, s.pending[o]? = some p → ∃ j, (o, j) ∈ b.jobs
  published : s.published = b.published
  past : ∀ d, ∀ o ∈ s.dependents d, o < bound
  hazards : ∀ o j, (o, j) ∈ b.jobs → ∀ d, (s.dependents d).count o = j.hazards.count d
  bySlot : ∀ k o, o ∈ s.waitersBySlot k ↔
    ∃ p, s.pending[o]? = some p ∧ p.stampWaits ≠ [] ∧ k ∈ p.registeredSlots
  byPipeline : ∀ q o, o ∈ s.waitersByPipeline q ↔
    ∃ j, (o, j) ∈ b.jobs ∧ Job.waitsFor q j = true
  ready : ∀ o, o ∈ s.ready ↔
    ∃ j, (o, j) ∈ b.jobs ∧ j.isReady = true ∧ j.taken = false
  taken : ∀ o j, (o, j) ∈ b.jobs → j.taken = true → j.isReady = true

namespace Board

theorem mem_pendingOrdinals {b : Board} {o : IngressOrdinal} :
    o ∈ b.pendingOrdinals ↔ ∃ j, (o, j) ∈ b.jobs := by
  simp [pendingOrdinals]

theorem mem_mapJobs {b : Board} {f : Job → Job} {o : IngressOrdinal} {j : Job} :
    (o, j) ∈ (b.mapJobs f).jobs ↔ ∃ i, (o, i) ∈ b.jobs ∧ f i = j := by
  simp [mapJobs]

theorem pendingOrdinals_mapJobs (b : Board) (f : Job → Job) :
    (b.mapJobs f).pendingOrdinals = b.pendingOrdinals := by
  simp [pendingOrdinals, mapJobs]

theorem mem_select {b : Board} {p : Job → Bool} {o : IngressOrdinal} :
    o ∈ b.select p ↔ ∃ j, (o, j) ∈ b.jobs ∧ p j = true := by
  simp [select]

theorem select_ascending {b : Board} (h : b.pendingOrdinals.Pairwise (· < ·)) (p : Job → Bool) :
    (b.select p).Pairwise (· < ·) :=
  h.sublist (List.filter_sublist.map Prod.fst)

theorem pendingOrdinals_nodup {b : Board} (h : b.pendingOrdinals.Pairwise (· < ·)) :
    (b.jobs.map Prod.fst).Nodup :=
  h.imp Nat.ne_of_lt

/-- No two jobs have one ordinal. -/
theorem job_unique {b : Board} (h : b.pendingOrdinals.Pairwise (· < ·)) {o : IngressOrdinal}
    {i j : Job} (hi : (o, i) ∈ b.jobs) (hj : (o, j) ∈ b.jobs) : i = j :=
  congrArg Prod.snd (List.inj_on_of_nodup_map (pendingOrdinals_nodup h) hi hj rfl)

end Board

theorem toList_ascending (t : TreeSet IngressOrdinal) : t.toList.Pairwise (· < ·) :=
  t.ordered_toList.imp Nat.compare_eq_lt.mp

theorem nodup_toList (t : TreeSet IngressOrdinal) : t.toList.Nodup :=
  (toList_ascending t).imp Nat.ne_of_lt

namespace Tracks

theorem new : Tracks .new .new 0 where
  ordered := .nil
  below o h := by cases h
  pending o j h := by cases h
  only o p h := by simp [Scheduler.new] at h
  published := rfl
  past d o h := by cases h
  hazards o j h := by cases h
  bySlot k o := by simp [Scheduler.new]
  byPipeline q o := by simp [Scheduler.new, Board.new]
  ready o := by simp [Scheduler.new, Board.new]
  taken o j h := by cases h

variable {s : Scheduler} {b : Board} {bound : IngressOrdinal}

theorem agrees (h : Tracks s b bound) {o : IngressOrdinal} {p : Pending} {j : Job}
    (hp : s.pending[o]? = some p) (hj : (o, j) ∈ b.jobs) : Agrees p j := by
  obtain ⟨q, hq, hagrees⟩ := h.pending o j hj
  rw [hp] at hq
  cases hq
  exact hagrees

theorem contains_iff (h : Tracks s b bound) {o : IngressOrdinal} :
    s.pending.contains o = true ↔ o ∈ b.pendingOrdinals := by
  rw [TreeMap.contains_eq_isSome_getElem?, Option.isSome_iff_exists, Board.mem_pendingOrdinals]
  constructor
  · rintro ⟨p, hp⟩
    exact h.only o p hp
  · rintro ⟨j, hj⟩
    obtain ⟨p, hp, -⟩ := h.pending o j hj
    exact ⟨p, hp⟩

theorem pending_eq_none (h : Tracks s b bound) {o : IngressOrdinal} (ho : o ∉ b.pendingOrdinals) :
    s.pending[o]? = none := by
  cases hp : s.pending[o]? with
  | none => rfl
  | some p => exact absurd (Board.mem_pendingOrdinals.mpr (h.only o p hp)) ho

theorem not_mem_of_le (h : Tracks s b bound) {o : IngressOrdinal} (ho : bound ≤ o) :
    o ∉ b.pendingOrdinals :=
  fun hin => absurd (h.below o hin) (Nat.not_lt.mpr ho)

theorem ne_of_mem (h : Tracks s b bound) {o q : IngressOrdinal} (ho : bound ≤ o) {i : Job}
    (hi : (q, i) ∈ b.jobs) : q ≠ o := by
  rintro rfl
  exact h.not_mem_of_le ho (Board.mem_pendingOrdinals.mpr ⟨i, hi⟩)

end Tracks

/-! ## A transaction joins -/

/-- The scheduler with one more transaction in its tables. -/
def Scheduler.join (s : Scheduler) (o : IngressOrdinal) (p : Pending) (j : Job) : Scheduler :=
  { s with
    pending := s.pending.insert o p
    waitersBySlot := fileUnder s.waitersBySlot (p.stampWaits.map StampWait.slot) o
    waitersByPipeline := fileUnder s.waitersByPipeline p.pipelineWaits o
    dependents := hold s.dependents j.hazards o
    ready := if j.isReady then s.ready.insert o else s.ready }

def Board.join (b : Board) (o : IngressOrdinal) (j : Job) : Board :=
  { b with jobs := b.jobs ++ [(o, j)] }

theorem Scheduler.pending_join (s : Scheduler) (o : IngressOrdinal) (p : Pending) (j : Job)
    (q : IngressOrdinal) :
    (s.join o p j).pending[q]? = if q = o then some p else s.pending[q]? := by
  simp only [join, TreeMap.getElem?_insert, Nat.compare_eq_eq, @eq_comm _ o q]

theorem Board.mem_join {b : Board} {o q : IngressOrdinal} {i j : Job} :
    (q, i) ∈ (b.join o j).jobs ↔ (q, i) ∈ b.jobs ∨ (q = o ∧ i = j) := by
  simp [join]

namespace Tracks

section Joins

variable {s : Scheduler} {b : Board} {bound o : IngressOrdinal} {p : Pending} {j : Job}

theorem join_pending (h : Tracks s b bound) (ho : bound ≤ o) (hagrees : Agrees p j)
    (q : IngressOrdinal) (i : Job) (hi : (q, i) ∈ (b.join o j).jobs) :
    ∃ r, (s.join o p j).pending[q]? = some r ∧ Agrees r i := by
  rw [Scheduler.pending_join]
  rcases Board.mem_join.mp hi with hi | ⟨rfl, rfl⟩
  · rw [if_neg (h.ne_of_mem ho hi)]
    exact h.pending q i hi
  · exact ⟨p, if_pos rfl, hagrees⟩

theorem join_only (h : Tracks s b bound) (q : IngressOrdinal) (r : Pending)
    (hq : (s.join o p j).pending[q]? = some r) : ∃ i, (q, i) ∈ (b.join o j).jobs := by
  rw [Scheduler.pending_join] at hq
  split at hq
  · rename_i heq
    exact ⟨j, Board.mem_join.mpr (Or.inr ⟨heq, rfl⟩)⟩
  · obtain ⟨i, hi⟩ := h.only q r hq
    exact ⟨i, Board.mem_join.mpr (Or.inl hi)⟩

theorem join_past (h : Tracks s b bound) (ho : bound ≤ o) (d q : IngressOrdinal)
    (hq : q ∈ (s.join o p j).dependents d) : q < o + 1 := by
  have hpos := List.count_pos_iff.mpr hq
  rw [Scheduler.join, count_hold] at hpos
  by_cases hqo : q = o
  · rw [hqo]
    exact Nat.lt_succ_self o
  · rw [if_neg hqo, Nat.add_zero] at hpos
    exact Nat.lt_succ_of_lt (Nat.lt_of_lt_of_le (h.past d q (List.count_pos_iff.mp hpos)) ho)

theorem join_hazards (h : Tracks s b bound) (ho : bound ≤ o) (q : IngressOrdinal) (i : Job)
    (hi : (q, i) ∈ (b.join o j).jobs) (d : IngressOrdinal) :
    ((s.join o p j).dependents d).count q = i.hazards.count d := by
  rw [Scheduler.join, count_hold]
  rcases Board.mem_join.mp hi with hi | ⟨rfl, rfl⟩
  · rw [if_neg (h.ne_of_mem ho hi), Nat.add_zero]
    exact h.hazards q i hi d
  · have hzero : (s.dependents d).count q = 0 := List.count_eq_zero.mpr fun hq =>
      absurd (h.past d q hq) (Nat.not_lt.mpr ho)
    rw [hzero, if_pos rfl, Nat.zero_add]

theorem join_bySlot (h : Tracks s b bound) (ho : bound ≤ o)
    (hslots : ∀ k, k ∈ p.registeredSlots ↔ ∃ w ∈ p.stampWaits, w.slot = k)
    (k : StampSlot) (q : IngressOrdinal) :
    q ∈ (s.join o p j).waitersBySlot k ↔
      ∃ r, (s.join o p j).pending[q]? = some r ∧ r.stampWaits ≠ [] ∧ k ∈ r.registeredSlots := by
  rw [Scheduler.pending_join, Scheduler.join, mem_fileUnder, h.bySlot]
  by_cases hqo : q = o
  · subst hqo
    simp only [h.pending_eq_none (h.not_mem_of_le ho), reduceCtorEq, false_and, exists_false,
      false_or, true_and, if_true, Option.some.injEq, exists_eq_left', List.mem_map, hslots]
    exact ⟨fun hw => ⟨fun hnil => by simp [hnil] at hw, hw⟩, fun hw => hw.2⟩
  · simp [hqo]

theorem join_byPipeline (h : Tracks s b bound) (hagrees : Agrees p j) (hnew : j.refused = [])
    (r : ResourceId) (q : IngressOrdinal) :
    q ∈ (s.join o p j).waitersByPipeline r ↔
      ∃ i, (q, i) ∈ (b.join o j).jobs ∧ Job.waitsFor r i = true := by
  rw [Scheduler.join, mem_fileUnder, h.byPipeline]
  simp only [Board.mem_join]
  constructor
  · rintro (⟨i, hi, hwaits⟩ | ⟨rfl, hq⟩)
    · exact ⟨i, Or.inl hi, hwaits⟩
    · refine ⟨j, Or.inr ⟨rfl, rfl⟩, Job.waitsFor_iff.mpr ⟨hagrees.pipelines ▸ hq, ?_⟩⟩
      rw [hnew]
      exact List.not_mem_nil
  · rintro ⟨i, hi | ⟨rfl, rfl⟩, hwaits⟩
    · exact Or.inl ⟨i, hi, hwaits⟩
    · exact Or.inr ⟨rfl, hagrees.pipelines ▸ (Job.waitsFor_iff.mp hwaits).1⟩

theorem join_ready (h : Tracks s b bound) (hnew : j.taken = false)
    (q : IngressOrdinal) :
    q ∈ (s.join o p j).ready ↔
      ∃ i, (q, i) ∈ (b.join o j).jobs ∧ i.isReady = true ∧ i.taken = false := by
  have hmem : q ∈ (s.join o p j).ready ↔ q ∈ s.ready ∨ (q = o ∧ j.isReady = true) := by
    rw [Scheduler.join]
    split
    · rename_i hready
      simp [TreeSet.mem_insert, hready, or_comm, @eq_comm _ o q]
    · rename_i hready
      simp [hready]
  rw [hmem, h.ready]
  simp only [Board.mem_join]
  constructor
  · rintro (⟨i, hi, hr⟩ | ⟨heq, hr⟩)
    · exact ⟨i, Or.inl hi, hr⟩
    · exact ⟨j, Or.inr ⟨heq, rfl⟩, hr, hnew⟩
  · rintro ⟨i, hi | ⟨heq, rfl⟩, hr⟩
    · exact Or.inl ⟨i, hi, hr⟩
    · exact Or.inr ⟨heq, hr.1⟩

/-- A transaction with a fresh ordinal joins. -/
theorem join (h : Tracks s b bound) (ho : bound ≤ o) (hagrees : Agrees p j)
    (htaken : j.taken = false) (hrefused : j.refused = [])
    (hslots : ∀ k, k ∈ p.registeredSlots ↔ ∃ w ∈ p.stampWaits, w.slot = k) :
    Tracks (s.join o p j) (b.join o j) (o + 1) where
  ordered := by
    have hold := h.ordered
    have hbelow := h.below
    simp only [Board.join, Board.pendingOrdinals, List.map_append, List.map_cons, List.map_nil]
      at hold hbelow ⊢
    refine List.pairwise_append.mpr ⟨hold, List.pairwise_singleton _ _, fun q hq r hr => ?_⟩
    rw [List.mem_singleton.mp hr]
    exact Nat.lt_of_lt_of_le (hbelow q hq) ho
  below q hq := by
    obtain ⟨i, hi⟩ := Board.mem_pendingOrdinals.mp hq
    rcases Board.mem_join.mp hi with hi | ⟨rfl, -⟩
    · have hlt := h.below q (Board.mem_pendingOrdinals.mpr ⟨i, hi⟩)
      exact Nat.lt_succ_of_lt (Nat.lt_of_lt_of_le hlt ho)
    · exact Nat.lt_succ_self q
  pending := h.join_pending ho hagrees
  only := h.join_only
  published := h.published
  past := h.join_past ho
  hazards := h.join_hazards ho
  bySlot := h.join_bySlot ho hslots
  byPipeline := h.join_byPipeline hagrees hrefused
  ready := h.join_ready htaken
  taken q i hi ht := by
    rcases Board.mem_join.mp hi with hi | ⟨-, rfl⟩
    · exact h.taken q i hi ht
    · rw [htaken] at ht
      cases ht

theorem admitted (h : Tracks s b bound) (ho : bound ≤ o)
    (hazardWaits : List IngressOrdinal) (stampWaits : List StampWait)
    (pipelineWaits : List ResourceId) (completion : Option CompletionStamp) :
    (s.admitTransaction o hazardWaits stampWaits pipelineWaits completion).2 =
        (b.admitTransaction o hazardWaits stampWaits pipelineWaits completion).2 ∧
      Tracks (s.admitTransaction o hazardWaits stampWaits pipelineWaits completion).1
        (b.admitTransaction o hazardWaits stampWaits pipelineWaits completion).1 (o + 1) := by
  have hlive : hazardWaits.filter s.pending.contains =
      hazardWaits.filter fun d => d ∈ b.pendingOrdinals :=
    List.filter_congr fun d _ => by
      rw [Bool.eq_iff_iff, h.contains_iff]
      simp
  have hunmet : stampWaits.filter (fun w => !s.isPublished w) =
      stampWaits.filter fun w => !b.isPublished w := by
    unfold Scheduler.isPublished Board.isPublished
    rw [h.published]
  refine ⟨?_, ?_⟩
  · simp only [Scheduler.admitTransaction, Board.admitTransaction, Job.isReady, hlive, hunmet]
  · simp only [Scheduler.admitTransaction, Board.admitTransaction, hlive, hunmet]
    refine h.join ho (p := ⟨_, _, _, _, _⟩) (j := ⟨_, _, _, [], _, false⟩)
      ⟨rfl, rfl, rfl, rfl, fun w hw => ?_⟩ rfl rfl fun k => ?_
    · exact List.mem_dedup.mpr (List.mem_mergeSort.mpr (List.mem_map_of_mem hw))
    · simp

end Joins

end Tracks

/-! ## A transaction completes -/

/-- A hazard that completes is counted down as often as it was counted. -/
theorem iterate_countDown (p : Pending) (k : Nat) :
    Scheduler.countDown^[k] p = { p with remainingHazards := p.remainingHazards - k } := by
  induction k with
  | zero => rfl
  | succ k ih =>
    rw [Function.iterate_succ_apply', ih]
    simp [Scheduler.countDown, Nat.sub_sub]

theorem length_filter_ne (l : List IngressOrdinal) (d : IngressOrdinal) :
    (l.filter (· ≠ d)).length = l.length - l.count d := by
  have hsplit := List.length_eq_countP_add_countP (l := l) (· == d)
  have hcount : l.countP (fun a => decide ¬(a == d) = true) = (l.filter (· ≠ d)).length := by
    rw [List.countP_eq_length_filter]
    simp
  rw [List.count]
  omega

theorem Job.isReady_release {j : Job} {d : IngressOrdinal} :
    (j.release d).isReady = true ↔ j.hazards.length - j.hazards.count d = 0 ∧
      j.stamps = [] ∧ j.pipelines = [] := by
  rw [← length_filter_ne, List.length_eq_zero_iff, Job.isReady_iff]
  rfl

theorem Job.isReady_release_of_isReady {j : Job} (h : j.isReady = true) (d : IngressOrdinal) :
    (j.release d).isReady = true := by
  obtain ⟨hhazards, hrest⟩ := Job.isReady_iff.mp h
  exact Job.isReady_release.mpr ⟨by rw [hhazards]; rfl, hrest⟩

theorem Job.release_of_not_mem {j : Job} {d : IngressOrdinal} (h : d ∉ j.hazards) :
    j.release d = j := by
  have hfilter : j.hazards.filter (· ≠ d) = j.hazards := List.filter_eq_self.mpr fun e he => by
    have hne : e ≠ d := fun heq => h (heq ▸ he)
    simpa using hne
  rw [Job.release, hfilter]

namespace Agrees

variable {p : Pending} {j : Job}

theorem release (h : Agrees p j) (d : IngressOrdinal) :
    Agrees (Scheduler.countDown^[j.hazards.count d] p) (j.release d) := by
  rw [iterate_countDown]
  exact
    { hazards := by rw [Job.release, length_filter_ne, h.hazards]
      stamps := h.stamps
      pipelines := h.pipelines
      completion := h.completion
      registered := h.registered }

/-- Counting down makes a transaction ready exactly when the last hazard is the one that
completed. -/
theorem isReady_countDown (h : Agrees p j) (d : IngressOrdinal) :
    (∃ k, 0 < k ∧ k ≤ j.hazards.count d ∧ (Scheduler.countDown^[k] p).isReady = true) ↔
      d ∈ j.hazards ∧ (j.release d).isReady = true := by
  have hle : j.hazards.count d ≤ j.hazards.length := List.count_le_length
  have hready : ∀ k, (Scheduler.countDown^[k] p).isReady = true ↔
      j.hazards.length - k = 0 ∧ j.stamps = [] ∧ j.pipelines = [] := fun k => by
    rw [iterate_countDown]
    simp [Pending.isReady, h.hazards, h.stamps, h.pipelines, and_assoc]
  rw [Job.isReady_release, ← List.count_pos_iff]
  constructor
  · rintro ⟨k, hpos, hk, hr⟩
    obtain ⟨hzero, hrest⟩ := (hready k).mp hr
    exact ⟨by omega, by omega, hrest⟩
  · rintro ⟨hpos, hr⟩
    exact ⟨j.hazards.count d, hpos, Nat.le_refl _, (hready _).mpr hr⟩

end Agrees

namespace Board

theorem mem_remove {b : Board} {o q : IngressOrdinal} {i : Job} :
    (q, i) ∈ (b.remove o).jobs ↔ ∃ j, (q, j) ∈ b.jobs ∧ q ≠ o ∧ j.release o = i := by
  rw [remove, mem_mapJobs]
  simp [and_assoc]

theorem pendingOrdinals_remove (b : Board) (o : IngressOrdinal) :
    (b.remove o).pendingOrdinals = b.pendingOrdinals.filter (· ≠ o) := by
  rw [remove, pendingOrdinals_mapJobs, pendingOrdinals, pendingOrdinals, List.filter_map]
  rfl

/-- The job a completion takes off the board. -/
theorem find_job {b : Board} (h : b.pendingOrdinals.Pairwise (· < ·)) {o : IngressOrdinal}
    {job : Job} (hjob : (o, job) ∈ b.jobs) :
    (b.jobs.find? fun e => e.1 = o) = some (o, job) :=
  find?_eq_some_of_nodup Prod.fst (pendingOrdinals_nodup h) hjob rfl

end Board

namespace Scheduler

/-- What a completion leaves of the scheduler. -/
def remove (s : Scheduler) (o : IngressOrdinal) (p : Pending) : Scheduler :=
  (s.dependents o).foldl (touch countDown) (s.leave o p)

theorem pending_leave (s : Scheduler) (o : IngressOrdinal) (p : Pending) (q : IngressOrdinal) :
    (s.leave o p).pending[q]? = if q = o then none else s.pending[q]? := by
  simp only [leave, unregisterSlots, TreeMap.getElem?_erase, Nat.compare_eq_eq, @eq_comm _ o q]

theorem mem_ready_leave {s : Scheduler} {o q : IngressOrdinal} {p : Pending} :
    q ∈ (s.leave o p).ready ↔ q ∈ s.ready ∧ q ≠ o := by
  simp [leave, unregisterSlots, TreeSet.mem_erase, and_comm, @eq_comm _ o q]

theorem dependents_leave (s : Scheduler) (o : IngressOrdinal) (p : Pending) (d : IngressOrdinal) :
    (s.leave o p).dependents d = if d = o then [] else s.dependents d := by
  simp only [leave, unregisterSlots, Function.update_apply]

theorem pending_remove (s : Scheduler) (o : IngressOrdinal) (p : Pending) (q : IngressOrdinal) :
    (s.remove o p).pending[q]? = if q = o then none else
      (s.pending[q]?).map countDown^[(s.dependents o).count q] := by
  rw [remove, (touch_all_spec countDown (s.dependents o) (s.leave o p)).1, pending_leave]
  split <;> rfl

theorem mem_ready_remove {s : Scheduler} {o q : IngressOrdinal} {p : Pending} :
    q ∈ (s.remove o p).ready ↔ q ≠ o ∧ (q ∈ s.ready ∨ ∃ r, s.pending[q]? = some r ∧
      ∃ k, 0 < k ∧ k ≤ (s.dependents o).count q ∧ (countDown^[k] r).isReady = true) := by
  rw [remove, (touch_all_spec countDown (s.dependents o) (s.leave o p)).2.1, pending_leave,
    mem_ready_leave]
  by_cases hqo : q = o <;> simp [hqo]

theorem sameIndexes_remove (s : Scheduler) (o : IngressOrdinal) (p : Pending) :
    SameIndexes (s.leave o p) (s.remove o p) :=
  (touch_all_spec countDown (s.dependents o) (s.leave o p)).2.2

end Scheduler

namespace Tracks

section Completions

variable {s : Scheduler} {b : Board} {bound o : IngressOrdinal} {p : Pending}

/-- When the loop of a completion comes to a transaction, that one still counts the completed
one among its hazards: the count does not underflow. -/
theorem countDown_pos (h : Tracks s b bound) {before after : List IngressOrdinal}
    {q : IngressOrdinal} {r : Pending} (hdependents : s.dependents o = before ++ q :: after)
    (hr : (before.foldl (Scheduler.touch Scheduler.countDown) (s.leave o p)).pending[q]? = some r) :
    0 < r.remainingHazards := by
  rw [(Scheduler.touch_all_spec _ _ _).1, Scheduler.pending_leave] at hr
  split at hr
  · cases hr
  · obtain ⟨r', hr', rfl⟩ := Option.map_eq_some_iff.mp hr
    obtain ⟨j, hj⟩ := h.only q r' hr'
    have hcount := h.hazards q j hj o
    rw [hdependents, List.count_append, List.count_cons_self] at hcount
    have hle : j.hazards.count o ≤ j.hazards.length := List.count_le_length
    rw [iterate_countDown, (h.agrees hr' hj).hazards]
    dsimp only
    omega

theorem remove_pending (h : Tracks s b bound) (q : IngressOrdinal) (i : Job)
    (hi : (q, i) ∈ (b.remove o).jobs) :
    ∃ r, (s.remove o p).pending[q]? = some r ∧ Agrees r i := by
  obtain ⟨j, hj, hne, rfl⟩ := Board.mem_remove.mp hi
  obtain ⟨r, hr, hag⟩ := h.pending q j hj
  rw [Scheduler.pending_remove, if_neg hne, hr, h.hazards q j hj o]
  exact ⟨_, rfl, hag.release o⟩

theorem remove_only (h : Tracks s b bound) (q : IngressOrdinal) (r : Pending)
    (hr : (s.remove o p).pending[q]? = some r) : ∃ i, (q, i) ∈ (b.remove o).jobs := by
  rw [Scheduler.pending_remove] at hr
  split at hr
  · cases hr
  · rename_i hne
    obtain ⟨r', hr', -⟩ := Option.map_eq_some_iff.mp hr
    obtain ⟨j, hj⟩ := h.only q r' hr'
    exact ⟨_, Board.mem_remove.mpr ⟨j, hj, hne, rfl⟩⟩

theorem remove_past (h : Tracks s b bound) (d q : IngressOrdinal)
    (hq : q ∈ (s.remove o p).dependents d) : q < bound := by
  rw [(s.sameIndexes_remove o p).dependents, Scheduler.dependents_leave] at hq
  split at hq
  · cases hq
  · exact h.past d q hq

theorem remove_hazards (h : Tracks s b bound) (q : IngressOrdinal) (i : Job)
    (hi : (q, i) ∈ (b.remove o).jobs) (d : IngressOrdinal) :
    ((s.remove o p).dependents d).count q = i.hazards.count d := by
  obtain ⟨j, hj, -, rfl⟩ := Board.mem_remove.mp hi
  rw [(s.sameIndexes_remove o p).dependents, Scheduler.dependents_leave, Job.release]
  split
  · rename_i hd
    have hgone : (j.hazards.filter (· ≠ o)).count d = 0 := List.count_eq_zero.mpr (by simp [hd])
    rw [hgone, List.count_nil]
  · rename_i hd
    rw [h.hazards q j hj d, List.count_filter (by simpa using hd)]

theorem remove_bySlot (h : Tracks s b bound) (hp : s.pending[o]? = some p) (k : StampSlot)
    (q : IngressOrdinal) :
    q ∈ (s.remove o p).waitersBySlot k ↔
      ∃ r, (s.remove o p).pending[q]? = some r ∧ r.stampWaits ≠ [] ∧ k ∈ r.registeredSlots := by
  rw [(s.sameIndexes_remove o p).bySlot, Scheduler.pending_remove, Scheduler.leave,
    Scheduler.unregisterSlots, mem_unfile, h.bySlot]
  by_cases hqo : q = o
  · subst hqo
    simp only [hp, Option.some.injEq, exists_eq_left', true_and, if_true, reduceCtorEq,
      false_and, exists_false, iff_false]
    exact fun hk => hk.2 hk.1.2
  · simp [hqo, iterate_countDown]

theorem remove_byPipeline (h : Tracks s b bound) (hp : s.pending[o]? = some p) (r : ResourceId)
    (q : IngressOrdinal) :
    q ∈ (s.remove o p).waitersByPipeline r ↔
      ∃ i, (q, i) ∈ (b.remove o).jobs ∧ Job.waitsFor r i = true := by
  rw [(s.sameIndexes_remove o p).byPipeline, Scheduler.leave, Scheduler.unregisterSlots,
    mem_unfile, h.byPipeline]
  simp only [Board.mem_remove]
  constructor
  · rintro ⟨⟨j, hj, hwaits⟩, hnot⟩
    refine ⟨_, ⟨j, hj, ?_, rfl⟩, hwaits⟩
    rintro rfl
    exact hnot ⟨rfl, (h.agrees hp hj).pipelines ▸ (Job.waitsFor_iff.mp hwaits).1⟩
  · rintro ⟨i, ⟨j, hj, hne, rfl⟩, hwaits⟩
    exact ⟨⟨j, hj, hwaits⟩, fun hr => hne hr.1⟩

/-- A transaction that a completion makes ready had waited for it, so nobody has taken it. -/
theorem not_taken_of_mem_hazards (h : Tracks s b bound) {q : IngressOrdinal} {j : Job}
    (hj : (q, j) ∈ b.jobs) (hin : o ∈ j.hazards) : j.taken = false := by
  refine Bool.eq_false_iff.mpr fun ht => ?_
  rw [(Job.isReady_iff.mp (h.taken q j hj ht)).1] at hin
  cases hin

theorem remove_ready (h : Tracks s b bound) (q : IngressOrdinal) :
    q ∈ (s.remove o p).ready ↔
      ∃ i, (q, i) ∈ (b.remove o).jobs ∧ i.isReady = true ∧ i.taken = false := by
  rw [Scheduler.mem_ready_remove, h.ready]
  simp only [Board.mem_remove]
  constructor
  · rintro ⟨hne, ⟨j, hj, hr, ht⟩ | ⟨r, hr, hk⟩⟩
    · exact ⟨_, ⟨j, hj, hne, rfl⟩, Job.isReady_release_of_isReady hr o, ht⟩
    · obtain ⟨j, hj⟩ := h.only q r hr
      rw [h.hazards q j hj o] at hk
      obtain ⟨hin, hrel⟩ := ((h.agrees hr hj).isReady_countDown o).mp hk
      have ht := h.not_taken_of_mem_hazards hj hin
      exact ⟨_, ⟨j, hj, hne, rfl⟩, hrel, ht⟩
  · rintro ⟨i, ⟨j, hj, hne, rfl⟩, hrel, ht⟩
    refine ⟨hne, ?_⟩
    by_cases hin : o ∈ j.hazards
    · obtain ⟨r, hr, hag⟩ := h.pending q j hj
      refine Or.inr ⟨r, hr, ?_⟩
      rw [h.hazards q j hj o]
      exact (hag.isReady_countDown o).mpr ⟨hin, hrel⟩
    · rw [Job.release_of_not_mem hin] at hrel
      exact Or.inl ⟨j, hj, hrel, ht⟩

theorem remove (h : Tracks s b bound) (hp : s.pending[o]? = some p) :
    Tracks (s.remove o p) (b.remove o) bound where
  ordered := by
    rw [Board.pendingOrdinals_remove]
    exact h.ordered.filter _
  below q hq := by
    rw [Board.pendingOrdinals_remove] at hq
    exact h.below q (List.mem_filter.mp hq).1
  pending := h.remove_pending
  only := h.remove_only
  published := (s.sameIndexes_remove o p).published.trans h.published
  past := h.remove_past
  hazards := h.remove_hazards
  bySlot := h.remove_bySlot hp
  byPipeline := h.remove_byPipeline hp
  ready := h.remove_ready
  taken q i hi ht := by
    obtain ⟨j, hj, -, rfl⟩ := Board.mem_remove.mp hi
    exact Job.isReady_release_of_isReady (h.taken q j hj ht) o

theorem complete_of_pending (h : Tracks s b bound) {job : Job} (hjob : (o, job) ∈ b.jobs) :
    ∃ s' b', s.complete o = some (s', job.completion) ∧
      b.complete o = some (b', job.completion) ∧ Tracks s' b' bound := by
  obtain ⟨p, hp, hagrees⟩ := h.pending o job hjob
  refine ⟨s.remove o p, b.remove o, ?_, ?_, h.remove hp⟩
  · rw [Scheduler.complete, hp, ← hagrees.completion]
    rfl
  · rw [Board.complete, Board.find_job h.ordered hjob]

theorem complete_of_not_pending (h : Tracks s b bound) (ho : o ∉ b.pendingOrdinals) :
    s.complete o = none ∧ b.complete o = none := by
  have hfind : (b.jobs.find? fun e => e.1 = o) = none := by
    refine List.find?_eq_none.mpr fun e he heq => ho ?_
    rw [← of_decide_eq_true heq]
    exact List.mem_map_of_mem he
  simp [Scheduler.complete, Board.complete, h.pending_eq_none ho, hfind]

end Completions

end Tracks

end Orchard.Plane
