/-
  Plane/Wakeups.lean --- the scheduler answers like the board.

  A publication and a pipeline that becomes usable discharge prerequisites, a refusal and
  a hand-out change neither; each touches only what its index names and keeps `Tracks`.
  So every call, whatever was called before it, answers what the board answers.
-/
import Mathlib.Data.List.Forall2
import Orchard.Plane.Tracking

set_option autoImplicit false

namespace Orchard.Plane

open Orchard.Foundation Std

/-! ## Discharging prerequisites -/

/-- A loop over a set of transactions. -/
theorem Scheduler.touch_set_spec (f : Pending → Pending) (ws : TreeSet IngressOrdinal)
    (s : Scheduler) :
    (∀ o : IngressOrdinal, (ws.toList.foldl (touch f) s).pending[o]? =
        if o ∈ ws then (s.pending[o]?).map f else s.pending[o]?) ∧
      (∀ o, o ∈ (ws.toList.foldl (touch f) s).ready ↔ o ∈ s.ready ∨
        (o ∈ ws ∧ ∃ p, s.pending[o]? = some p ∧ (f p).isReady = true)) ∧
      SameIndexes s (ws.toList.foldl (touch f) s) := by
  obtain ⟨hpending, hready, hsame⟩ := touch_all_spec f ws.toList s
  have hcount : ∀ o, ws.toList.count o = if o ∈ ws then 1 else 0 := fun o => by
    rw [(nodup_toList ws).count]
    simp only [TreeSet.mem_toList]
  refine ⟨fun o => ?_, fun o => ?_, hsame⟩
  · rw [hpending, hcount]
    split
    · rfl
    · cases s.pending[o]? <;> rfl
  · rw [hready, hcount]
    refine or_congr_right ?_
    constructor
    · rintro ⟨p, hp, k, hpos, hle, hr⟩
      split at hle
      · obtain rfl : k = 1 := by omega
        exact ⟨‹_›, p, hp, hr⟩
      · omega
    · rintro ⟨hin, p, hp, hr⟩
      exact ⟨p, hp, 1, Nat.one_pos, by rw [if_pos hin], hr⟩

/-- An event that turns every job `j` of the board into `f j` and only discharges: what the
scheduler after it has to show. -/
structure Discharges (s t : Scheduler) (b : Board) (f : Job → Job) : Prop where
  pending : ∀ (o : IngressOrdinal) p j, s.pending[o]? = some p → (o, j) ∈ b.jobs →
    ∃ q, t.pending[o]? = some q ∧ Agrees q (f j)
  only : ∀ (o : IngressOrdinal) q, t.pending[o]? = some q → ∃ p, s.pending[o]? = some p
  dependents : t.dependents = s.dependents
  bySlot : ∀ k o, o ∈ t.waitersBySlot k ↔
    ∃ p, t.pending[o]? = some p ∧ p.stampWaits ≠ [] ∧ k ∈ p.registeredSlots
  byPipeline : ∀ q o, o ∈ t.waitersByPipeline q ↔
    ∃ j, (o, j) ∈ b.jobs ∧ Job.waitsFor q (f j) = true
  ready : ∀ o, o ∈ t.ready ↔ o ∈ s.ready ∨
    ∃ j, (o, j) ∈ b.jobs ∧ j.isReady = false ∧ (f j).isReady = true

/-- A change of a job that leaves it its hazards and whatever readiness it had. -/
structure Job.Relieves (f : Job → Job) : Prop where
  hazards : ∀ j, (f j).hazards = j.hazards
  taken : ∀ j, (f j).taken = j.taken
  ready : ∀ j, j.isReady = true → (f j).isReady = true

namespace Tracks

variable {s t : Scheduler} {b c : Board} {bound : IngressOrdinal} {f : Job → Job}

theorem ready_of_discharges (h : Tracks s b bound) (hd : Discharges s t b f)
    (hf : Job.Relieves f) (o : IngressOrdinal) :
    o ∈ t.ready ↔ ∃ j, (o, j) ∈ b.jobs ∧ (f j).isReady = true ∧ (f j).taken = false := by
  rw [hd.ready, h.ready]
  constructor
  · rintro (⟨j, hj, hr, ht⟩ | ⟨j, hj, hold, hr⟩)
    · exact ⟨j, hj, hf.ready j hr, (hf.taken j).trans ht⟩
    · refine ⟨j, hj, hr, (hf.taken j).trans (Bool.eq_false_iff.mpr fun ht => ?_)⟩
      rw [h.taken o j hj ht] at hold
      cases hold
  · rintro ⟨j, hj, hr, ht⟩
    rw [hf.taken] at ht
    cases hold : j.isReady with
    | true => exact Or.inl ⟨j, hj, hold, ht⟩
    | false => exact Or.inr ⟨j, hj, hold, hr⟩

theorem discharged (h : Tracks s b bound) (hd : Discharges s t b f) (hf : Job.Relieves f)
    (hjobs : c.jobs = (b.mapJobs f).jobs) (hpublished : t.published = c.published) :
    Tracks t c bound := by
  have hmem : ∀ q i, (q, i) ∈ c.jobs ↔ ∃ j, (q, j) ∈ b.jobs ∧ f j = i := by
    intro q i
    rw [hjobs, Board.mem_mapJobs]
  have hordinals : c.pendingOrdinals = b.pendingOrdinals := by
    rw [Board.pendingOrdinals, hjobs]
    exact b.pendingOrdinals_mapJobs f
  exact
    { ordered := hordinals ▸ h.ordered
      below := hordinals ▸ h.below
      pending := fun o i hi => by
        obtain ⟨j, hj, rfl⟩ := (hmem o i).mp hi
        obtain ⟨p, hp, -⟩ := h.pending o j hj
        exact hd.pending o p j hp hj
      only := fun o q hq => by
        obtain ⟨p, hp⟩ := hd.only o q hq
        obtain ⟨j, hj⟩ := h.only o p hp
        exact ⟨f j, (hmem o _).mpr ⟨j, hj, rfl⟩⟩
      published := hpublished
      past := hd.dependents ▸ h.past
      hazards := fun o i hi d => by
        obtain ⟨j, hj, rfl⟩ := (hmem o i).mp hi
        rw [hd.dependents, hf.hazards]
        exact h.hazards o j hj d
      bySlot := hd.bySlot
      byPipeline := fun q o => by
        rw [hd.byPipeline]
        simp [hmem]
      ready := fun o => by
        rw [h.ready_of_discharges hd hf]
        simp [hmem]
      taken := fun o i hi ht => by
        obtain ⟨j, hj, rfl⟩ := (hmem o i).mp hi
        exact hf.ready j (h.taken o j hj ((hf.taken j).symm.trans ht)) }

end Tracks

/-! ## Publication -/

namespace Scheduler

/-- Publishing leaves the transaction no wait; it is filed under these slots. -/
def LastWaitGone (slot : StampSlot) (value : StampValue) (s : Scheduler)
    (e : IngressOrdinal × List StampSlot) : Prop :=
  ∃ p, s.pending[e.1]? = some p ∧ (discharge slot value p).stampWaits = [] ∧
    p.registeredSlots = e.2

theorem publishTo_step (slot : StampSlot) (value : StampValue) (s : Scheduler)
    (out : List (IngressOrdinal × List StampSlot)) (w : IngressOrdinal) :
    ∃ out', publishTo slot value (s, out) w = (s.touch (discharge slot value) w, out') ∧
      ∀ e, e ∈ out' ↔ e ∈ out ∨ (e.1 = w ∧ LastWaitGone slot value s e) := by
  unfold publishTo
  dsimp only
  rw [pending_touch, if_pos rfl]
  cases hp : s.pending[w]? with
  | none =>
    refine ⟨out, rfl, fun e => ?_⟩
    simp only [iff_self_or]
    rintro ⟨rfl, p, hp', -⟩
    rw [hp] at hp'
    cases hp'
  | some p =>
    have hgone : ∀ e : IngressOrdinal × List StampSlot, e.1 = w →
        (LastWaitGone slot value s e ↔
          (discharge slot value p).stampWaits = [] ∧ p.registeredSlots = e.2) := by
      rintro e rfl
      simp [LastWaitGone, hp]
    simp only [Option.map_some]
    split
    · rename_i hempty
      refine ⟨_, rfl, fun e => ?_⟩
      rw [List.mem_append, List.mem_singleton]
      refine or_congr_right ⟨?_, fun ⟨heq, he⟩ => ?_⟩
      · rintro rfl
        exact ⟨rfl, (hgone _ rfl).mpr ⟨List.isEmpty_iff.mp hempty, rfl⟩⟩
      · exact Prod.ext heq ((hgone e heq).mp he).2.symm
    · rename_i hempty
      refine ⟨out, rfl, fun e => ?_⟩
      simp only [iff_self_or]
      exact fun ⟨heq, he⟩ => absurd (List.isEmpty_iff.mpr ((hgone e heq).mp he).1) hempty

/-- The loop of `publish` releases like the others, and remembers the transactions whose
last wait it discharged. -/
theorem publishTo_spec {slot : StampSlot} {value : StampValue} {ws : List IngressOrdinal}
    (hnodup : ws.Nodup) (s : Scheduler) (out : List (IngressOrdinal × List StampSlot)) :
    (ws.foldl (publishTo slot value) (s, out)).1 = ws.foldl (touch (discharge slot value)) s ∧
      ∀ e, e ∈ (ws.foldl (publishTo slot value) (s, out)).2 ↔ e ∈ out ∨
        (e.1 ∈ ws ∧ LastWaitGone slot value s e) := by
  induction ws generalizing s out with
  | nil => exact ⟨rfl, fun e => by simp⟩
  | cons w rest ih =>
    obtain ⟨hw, hrest⟩ := List.nodup_cons.mp hnodup
    obtain ⟨out', hout', hmem⟩ := publishTo_step slot value s out w
    obtain ⟨hfst, hsnd⟩ := ih hrest (s.touch (discharge slot value) w) out'
    rw [List.foldl_cons, List.foldl_cons, hout']
    refine ⟨hfst, fun e => ?_⟩
    rw [hsnd, hmem, or_assoc]
    refine or_congr_right ?_
    -- the later waiters are other transactions, and still as they were
    by_cases he : e.1 = w
    · simp [he, hw]
    · simp [he, LastWaitGone, pending_touch]

/-- Taking several transactions out of the slot index. -/
theorem unregister_all_spec (out : List (IngressOrdinal × List StampSlot)) (s : Scheduler) :
    ∃ index, out.foldl (fun s w => s.unregisterSlots w.1 w.2) s =
        { s with waitersBySlot := index } ∧
      ∀ k o, o ∈ index k ↔ o ∈ s.waitersBySlot k ∧ ∀ slots, (o, slots) ∈ out → k ∉ slots := by
  induction out generalizing s with
  | nil => exact ⟨s.waitersBySlot, rfl, fun k o => by simp⟩
  | cons e rest ih =>
    obtain ⟨index, hfold, hmem⟩ := ih (s.unregisterSlots e.1 e.2)
    refine ⟨index, hfold, fun k o => ?_⟩
    rw [hmem]
    simp only [unregisterSlots, mem_unfile, List.mem_cons, and_assoc]
    refine and_congr_right fun _ => ?_
    constructor
    · rintro ⟨hnot, hall⟩ slots (heq | hin)
      · exact fun hk => hnot ⟨congrArg Prod.fst heq, by rw [← congrArg Prod.snd heq]; exact hk⟩
      · exact hall slots hin
    · intro hall
      exact ⟨fun hk => hall e.2 (Or.inl (Prod.ext hk.1 rfl)) hk.2,
        fun slots hin => hall slots (Or.inr hin)⟩

/-- What publishing a value in a slot does: the waiters of the slot have their waits there
discharged, and those left with none leave the index under every slot. -/
structure Published (slot : StampSlot) (value : StampValue) (s t : Scheduler) : Prop where
  published : t.published = Function.update s.published slot (some value)
  pending : ∀ o : IngressOrdinal, t.pending[o]? = if o ∈ s.waitersBySlot slot then
    (s.pending[o]?).map (discharge slot value) else s.pending[o]?
  ready : ∀ o, o ∈ t.ready ↔ o ∈ s.ready ∨ (o ∈ s.waitersBySlot slot ∧
    ∃ p, s.pending[o]? = some p ∧ (discharge slot value p).isReady = true)
  bySlot : ∀ k o, o ∈ t.waitersBySlot k ↔ o ∈ s.waitersBySlot k ∧
    ∀ slots, o ∈ s.waitersBySlot slot → LastWaitGone slot value s (o, slots) → k ∉ slots
  byPipeline : t.waitersByPipeline = s.waitersByPipeline
  dependents : t.dependents = s.dependents

theorem publish_spec (s : Scheduler) (stamp : CompletionStamp) :
    Published stamp.slot
      (StampValue.later ((s.published stamp.slot).getD stamp.value) stamp.value) s
      (s.publish stamp) := by
  unfold publish
  dsimp only
  generalize StampValue.later ((s.published stamp.slot).getD stamp.value) stamp.value = value
  obtain ⟨hpending, hready, hsame⟩ := touch_set_spec (discharge stamp.slot value)
    (s.waitersBySlot stamp.slot)
    { s with published := Function.update s.published stamp.slot (some value) }
  obtain ⟨hloop, hremembered⟩ := @publishTo_spec stamp.slot value _
    (nodup_toList (s.waitersBySlot stamp.slot))
    { s with published := Function.update s.published stamp.slot (some value) } []
  rw [← hloop] at hpending hready hsame
  generalize (s.waitersBySlot stamp.slot).toList.foldl (publishTo stamp.slot value) _ = out
    at hremembered hpending hready hsame
  obtain ⟨index, hindex, hmem⟩ := unregister_all_spec out.2 out.1
  rw [hindex]
  exact
    { published := hsame.published
      pending := hpending
      ready := hready
      bySlot := fun k o => by
        rw [hmem, hsame.bySlot]
        simp only [hremembered, List.not_mem_nil, false_or, TreeSet.mem_toList, and_imp]
        rfl
      byPipeline := hsame.byPipeline
      dependents := hsame.dependents }

end Scheduler

namespace Tracks

variable {s t : Scheduler} {b : Board} {bound : IngressOrdinal} {slot : StampSlot}
  {value : StampValue}

theorem agrees_discharge {p : Pending} {j : Job} (h : Agrees p j) (slot : StampSlot)
    (value : StampValue) : Agrees (Scheduler.discharge slot value p) (j.discharge slot value) where
  hazards := h.hazards
  stamps := by rw [Scheduler.discharge, Job.discharge, h.stamps]
  pipelines := h.pipelines
  completion := h.completion
  registered w hw := h.registered w (List.mem_filter.mp hw).1

theorem relieves_discharge (slot : StampSlot) (value : StampValue) :
    Job.Relieves (Job.discharge slot value) where
  hazards _ := rfl
  taken _ := rfl
  ready j h := by
    obtain ⟨hhazards, hstamps, hpipelines⟩ := Job.isReady_iff.mp h
    exact Job.isReady_iff.mpr ⟨hhazards, by rw [Job.discharge, hstamps]; rfl, hpipelines⟩

/-- A pending transaction with a wait in a slot is among the slot's waiters. -/
theorem mem_waitersBySlot (h : Tracks s b bound) {o : IngressOrdinal} {p : Pending}
    (hp : s.pending[o]? = some p) {w : StampWait} (hw : w ∈ p.stampWaits) :
    o ∈ s.waitersBySlot w.slot := by
  obtain ⟨j, hj⟩ := h.only o p hp
  exact (h.bySlot _ o).mpr
    ⟨p, hp, List.ne_nil_of_mem hw, (h.agrees hp hj).registered w hw⟩

theorem discharge_of_not_waiter (h : Tracks s b bound) {o : IngressOrdinal} {p : Pending}
    (hp : s.pending[o]? = some p) (hout : o ∉ s.waitersBySlot slot) :
    Scheduler.discharge slot value p = p := by
  have hslot : ∀ w ∈ p.stampWaits, w.slot ≠ slot := fun w hw heq =>
    hout (heq ▸ h.mem_waitersBySlot hp hw)
  have hfilter : p.stampWaits.filter (fun w => w.slot ≠ slot ∨ !w.satisfiedBy value) =
      p.stampWaits := List.filter_eq_self.mpr fun w hw => by simp [hslot w hw]
  rw [Scheduler.discharge, hfilter]

theorem pending_of_published (h : Tracks s b bound) (hp : Scheduler.Published slot value s t)
    (o : IngressOrdinal) :
    t.pending[o]? = (s.pending[o]?).map (Scheduler.discharge slot value) := by
  rw [hp.pending]
  split
  · rfl
  · rename_i hout
    cases hs : s.pending[o]? with
    | none => rfl
    | some p => exact congrArg some (h.discharge_of_not_waiter hs hout).symm

/-- A transaction whose last wait is gone was one of the slot's waiters. -/
theorem mem_waiters_of_discharged (h : Tracks s b bound) {o : IngressOrdinal} {p : Pending}
    (hp : s.pending[o]? = some p) (hne : p.stampWaits ≠ [])
    (hnil : (Scheduler.discharge slot value p).stampWaits = []) : o ∈ s.waitersBySlot slot := by
  by_contra hout
  rw [h.discharge_of_not_waiter hp hout] at hnil
  exact hne hnil

theorem bySlot_of_published (h : Tracks s b bound) (hp : Scheduler.Published slot value s t)
    (k : StampSlot) (o : IngressOrdinal) :
    o ∈ t.waitersBySlot k ↔
      ∃ p, t.pending[o]? = some p ∧ p.stampWaits ≠ [] ∧ k ∈ p.registeredSlots := by
  rw [hp.bySlot, h.bySlot, h.pending_of_published hp]
  constructor
  · rintro ⟨⟨p, hs, hne, hk⟩, hkept⟩
    refine ⟨Scheduler.discharge slot value p, by rw [hs]; rfl, fun hnil => ?_, hk⟩
    exact hkept p.registeredSlots (h.mem_waiters_of_discharged hs hne hnil) ⟨p, hs, hnil, rfl⟩ hk
  · rintro ⟨q, hq, hne, hk⟩
    obtain ⟨p, hs, rfl⟩ := Option.map_eq_some_iff.mp hq
    refine ⟨⟨p, hs, fun hnil => hne ?_, hk⟩, ?_⟩
    · simp [Scheduler.discharge, hnil]
    · rintro slots - ⟨p', hs', hnil, -⟩
      rw [hs] at hs'
      cases hs'
      exact absurd hnil hne

theorem ready_of_published (h : Tracks s b bound) (hp : Scheduler.Published slot value s t)
    (o : IngressOrdinal) :
    o ∈ t.ready ↔ o ∈ s.ready ∨ ∃ j, (o, j) ∈ b.jobs ∧ j.isReady = false ∧
      (j.discharge slot value).isReady = true := by
  rw [hp.ready]
  refine or_congr_right ⟨?_, ?_⟩
  · rintro ⟨hin, p, hs, hr⟩
    obtain ⟨j, hj⟩ := h.only o p hs
    have hag := h.agrees hs hj
    obtain ⟨q, hq, hne, -⟩ := (h.bySlot _ o).mp hin
    rw [hs] at hq
    cases hq
    refine ⟨j, hj, Bool.eq_false_iff.mpr fun hready => hne ?_, ?_⟩
    · exact hag.stamps.trans (Job.isReady_iff.mp hready).2.1
    · exact (agrees_discharge hag _ _).isReady.symm.trans hr
  · rintro ⟨j, hj, hold, hr⟩
    obtain ⟨p, hs, hag⟩ := h.pending o j hj
    have hr' := (agrees_discharge hag slot value).isReady.trans hr
    refine ⟨?_, p, hs, hr'⟩
    by_contra hout
    rw [h.discharge_of_not_waiter hs hout, hag.isReady, hold] at hr'
    cases hr'

theorem publish (h : Tracks s b bound) (stamp : CompletionStamp) :
    Tracks (s.publish stamp) (b.publish stamp) bound := by
  have hp := s.publish_spec stamp
  unfold Board.publish
  rw [← h.published]
  dsimp only
  generalize StampValue.later ((s.published stamp.slot).getD stamp.value) stamp.value = value
    at hp ⊢
  refine h.discharged ?_ (relieves_discharge stamp.slot value) rfl hp.published
  exact
    { pending := fun o p j hs hj =>
        ⟨_, by rw [h.pending_of_published hp, hs]; rfl, agrees_discharge (h.agrees hs hj) _ _⟩
      only := fun o q hq => by
        rw [h.pending_of_published hp] at hq
        obtain ⟨p, hs, -⟩ := Option.map_eq_some_iff.mp hq
        exact ⟨p, hs⟩
      dependents := hp.dependents
      bySlot := h.bySlot_of_published hp
      byPipeline := hp.byPipeline ▸ h.byPipeline
      ready := h.ready_of_published hp }

/-! ## Pipelines -/

theorem waitsFor_dropPipeline {j : Job} {pipeline q : ResourceId} :
    Job.waitsFor q (j.dropPipeline pipeline) = true ↔
      q ≠ pipeline ∧ Job.waitsFor q j = true := by
  unfold Job.dropPipeline
  split
  · rename_i hrefused
    rw [Job.waitsFor_iff]
    exact ⟨fun h => ⟨fun heq => h.2 (heq ▸ hrefused), h⟩, fun h => h.2⟩
  · simp only [Job.waitsFor_iff, List.mem_filter, decide_eq_true_eq]
    tauto

/-- A job that waits for a pipeline without hope, or does not wait for it, is unchanged when
it becomes usable. -/
theorem dropPipeline_of_not_waitsFor {j : Job} {pipeline : ResourceId}
    (h : ¬Job.waitsFor pipeline j = true) : j.dropPipeline pipeline = j := by
  unfold Job.dropPipeline
  split
  · rfl
  · rename_i hrefused
    have hout : pipeline ∉ j.pipelines := fun hin => h (Job.waitsFor_iff.mpr ⟨hin, hrefused⟩)
    have hfilter : j.pipelines.filter (· ≠ pipeline) = j.pipelines :=
      List.filter_eq_self.mpr fun q hq => by
        have hne : q ≠ pipeline := fun heq => hout (heq ▸ hq)
        simpa using hne
    rw [hfilter]

theorem agrees_dropPipeline {p : Pending} {j : Job} {pipeline : ResourceId} (h : Agrees p j)
    (hwaits : Job.waitsFor pipeline j = true) :
    Agrees (Scheduler.dropPipeline pipeline p) (j.dropPipeline pipeline) := by
  rw [Job.dropPipeline, if_neg (Job.waitsFor_iff.mp hwaits).2]
  exact
    { hazards := h.hazards
      stamps := h.stamps
      pipelines := by rw [Scheduler.dropPipeline, h.pipelines]
      completion := h.completion
      registered := h.registered }

theorem relieves_dropPipeline (pipeline : ResourceId) :
    Job.Relieves (Job.dropPipeline pipeline) where
  hazards j := by
    unfold Job.dropPipeline
    split <;> rfl
  taken j := by
    unfold Job.dropPipeline
    split <;> rfl
  ready j h := by
    have hnot : ¬Job.waitsFor pipeline j = true := fun hwaits => by
      have hin := (Job.waitsFor_iff.mp hwaits).1
      rw [(Job.isReady_iff.mp h).2.2] at hin
      cases hin
    rw [dropPipeline_of_not_waitsFor hnot]
    exact h

theorem mem_waitersByPipeline (h : Tracks s b bound) {pipeline : ResourceId}
    {o : IngressOrdinal} {j : Job} (hj : (o, j) ∈ b.jobs) :
    o ∈ s.waitersByPipeline pipeline ↔ Job.waitsFor pipeline j = true := by
  rw [h.byPipeline]
  constructor
  · rintro ⟨i, hi, hwaits⟩
    exact Board.job_unique h.ordered hi hj ▸ hwaits
  · exact fun hwaits => ⟨j, hj, hwaits⟩

/-- The jobs that become ready when a pipeline does are waiters of it. -/
theorem ready_of_dropped (h : Tracks s b bound) (pipeline : ResourceId) (o : IngressOrdinal) :
    (o ∈ s.waitersByPipeline pipeline ∧ ∃ p, s.pending[o]? = some p ∧
        (Scheduler.dropPipeline pipeline p).isReady = true) ↔
      ∃ j, (o, j) ∈ b.jobs ∧ j.isReady = false ∧ (j.dropPipeline pipeline).isReady = true := by
  constructor
  · rintro ⟨hin, p, hp, hr⟩
    obtain ⟨j, hj⟩ := h.only o p hp
    have hwaits := (h.mem_waitersByPipeline hj).mp hin
    refine ⟨j, hj, Bool.eq_false_iff.mpr fun hready => ?_, ?_⟩
    · have hmem := (Job.waitsFor_iff.mp hwaits).1
      rw [(Job.isReady_iff.mp hready).2.2] at hmem
      cases hmem
    · exact (agrees_dropPipeline (h.agrees hp hj) hwaits).isReady.symm.trans hr
  · rintro ⟨j, hj, hold, hr⟩
    obtain ⟨p, hp, hag⟩ := h.pending o j hj
    have hwaits : Job.waitsFor pipeline j = true := by
      by_contra hno
      rw [dropPipeline_of_not_waitsFor hno, hold] at hr
      cases hr
    exact ⟨(h.mem_waitersByPipeline hj).mpr hwaits, p, hp,
      (agrees_dropPipeline hag hwaits).isReady.trans hr⟩

theorem pipelineReady (h : Tracks s b bound) (pipeline : ResourceId) :
    Tracks (s.pipelineReady pipeline) (b.pipelineReady pipeline) bound := by
  unfold Scheduler.pipelineReady
  dsimp only
  obtain ⟨hpending, hready, hsame⟩ := Scheduler.touch_set_spec (Scheduler.dropPipeline pipeline)
    (s.waitersByPipeline pipeline)
    { s with waitersByPipeline := Function.update s.waitersByPipeline pipeline ∅ }
  refine h.discharged (f := Job.dropPipeline pipeline) ?_ (relieves_dropPipeline pipeline) rfl
    (hsame.published.trans h.published)
  exact
    { pending := fun o p j hp hj => by
        rw [hpending]
        split
        · rename_i hin
          have hwaits := (h.mem_waitersByPipeline hj).mp hin
          exact ⟨_, by rw [hp]; rfl, agrees_dropPipeline (h.agrees hp hj) hwaits⟩
        · rename_i hout
          rw [dropPipeline_of_not_waitsFor fun hwaits =>
            hout ((h.mem_waitersByPipeline hj).mpr hwaits)]
          exact ⟨p, hp, h.agrees hp hj⟩
      only := fun o q hq => by
        rw [hpending] at hq
        split at hq
        · obtain ⟨p, hp, -⟩ := Option.map_eq_some_iff.mp hq
          exact ⟨p, hp⟩
        · exact ⟨q, hq⟩
      dependents := hsame.dependents
      bySlot := fun k o => by
        rw [hsame.bySlot, hpending, h.bySlot]
        split
        · cases s.pending[o]? <;> simp [Scheduler.dropPipeline]
        · rfl
      byPipeline := fun q o => by
        rw [hsame.byPipeline]
        simp only [waitsFor_dropPipeline]
        by_cases hq : q = pipeline
        · subst hq
          simp
        · simp [hq, h.byPipeline]
      ready := fun o => by
        rw [hready]
        exact or_congr_right (h.ready_of_dropped pipeline o) }

theorem waitsFor_refuse {j : Job} {pipeline q : ResourceId} :
    Job.waitsFor q (j.refuse pipeline) = true ↔ q ≠ pipeline ∧ Job.waitsFor q j = true := by
  unfold Job.refuse
  by_cases hq : q = pipeline
  · subst hq
    split
    · simp [Job.waitsFor]
    · simp_all
  · split
    · simp [Job.waitsFor, hq]
    · simp [hq]

/-- A refusal leaves a job every prerequisite it had. -/
theorem refuse_eq (pipeline : ResourceId) (j : Job) :
    ∃ refused, j.refuse pipeline = { j with refused := refused } := by
  unfold Job.refuse
  split
  · exact ⟨_, rfl⟩
  · exact ⟨j.refused, rfl⟩

theorem isReady_refuse (pipeline : ResourceId) (j : Job) :
    (j.refuse pipeline).isReady = j.isReady := by
  obtain ⟨refused, heq⟩ := refuse_eq pipeline j
  rw [heq]
  rfl

theorem relieves_refuse (pipeline : ResourceId) : Job.Relieves (Job.refuse pipeline) where
  hazards j := by
    obtain ⟨refused, heq⟩ := refuse_eq pipeline j
    rw [heq]
  taken j := by
    obtain ⟨refused, heq⟩ := refuse_eq pipeline j
    rw [heq]
  ready j h := (isReady_refuse pipeline j).trans h

theorem pipelineRefused (h : Tracks s b bound) (pipeline : ResourceId) :
    (s.pipelineRefused pipeline).2 = (b.pipelineRefused pipeline).2 ∧
      Tracks (s.pipelineRefused pipeline).1 (b.pipelineRefused pipeline).1 bound := by
  constructor
  · unfold Scheduler.pipelineRefused Board.pipelineRefused
    dsimp only
    refine ((toList_ascending _).filter _).eq_of_mem_iff
      (Board.select_ascending h.ordered _) fun o => ?_
    rw [List.mem_filter, TreeSet.mem_toList, h.byPipeline, h.contains_iff, Board.mem_select]
    exact ⟨fun ho => ho.1, fun ⟨j, hj, hwaits⟩ =>
      ⟨⟨j, hj, hwaits⟩, Board.mem_pendingOrdinals.mpr ⟨j, hj⟩⟩⟩
  · refine h.discharged (f := Job.refuse pipeline) ?_ (relieves_refuse pipeline) rfl h.published
    exact
      { pending := fun o p j hp hj => by
          have hag := h.agrees hp hj
          obtain ⟨refused, heq⟩ := refuse_eq pipeline j
          rw [heq]
          exact ⟨p, hp, hag.hazards, hag.stamps, hag.pipelines, hag.completion, hag.registered⟩
        only := fun o q hq => ⟨q, hq⟩
        dependents := rfl
        bySlot := h.bySlot
        byPipeline := fun q o => by
          simp only [waitsFor_refuse]
          by_cases hq : q = pipeline
          · subst hq
            simp [Scheduler.pipelineRefused]
          · simp [Scheduler.pipelineRefused, hq, h.byPipeline]
        ready := fun o => by
          refine (or_iff_left ?_).symm
          rintro ⟨j, -, hold, hr⟩
          rw [isReady_refuse, hold] at hr
          cases hr }

/-! ## Handing out -/

theorem take_eq (j : Job) : j.take = { j with taken := j.isReady || j.taken } := by
  unfold Job.take
  split
  · rename_i hr
    rw [hr, Bool.true_or]
  · rename_i hr
    rw [Bool.eq_false_iff.mpr hr, Bool.false_or]

theorem takeReady (h : Tracks s b bound) :
    s.takeReady.2 = b.takeReady.2 ∧ Tracks s.takeReady.1 b.takeReady.1 bound := by
  constructor
  · unfold Scheduler.takeReady Board.takeReady
    dsimp only
    refine (toList_ascending _).eq_of_mem_iff (Board.select_ascending h.ordered _) fun o => ?_
    rw [TreeSet.mem_toList, h.ready, Board.mem_select]
    simp
  · have hmem : ∀ o i, (o, i) ∈ b.takeReady.1.jobs ↔
        ∃ j, (o, j) ∈ b.jobs ∧ { j with taken := j.isReady || j.taken } = i := fun o i => by
      simp only [← take_eq]
      exact Board.mem_mapJobs
    have hordinals := b.pendingOrdinals_mapJobs Job.take
    exact
      { ordered := hordinals ▸ h.ordered
        below := hordinals ▸ h.below
        pending := fun o i hi => by
          obtain ⟨j, hj, rfl⟩ := (hmem o i).mp hi
          obtain ⟨p, hp, hag⟩ := h.pending o j hj
          exact ⟨p, hp, hag.hazards, hag.stamps, hag.pipelines, hag.completion, hag.registered⟩
        only := fun o p hp => by
          obtain ⟨j, hj⟩ := h.only o p hp
          exact ⟨_, (hmem o _).mpr ⟨j, hj, rfl⟩⟩
        published := h.published
        past := h.past
        hazards := fun o i hi d => by
          obtain ⟨j, hj, rfl⟩ := (hmem o i).mp hi
          exact h.hazards o j hj d
        bySlot := h.bySlot
        byPipeline := fun q o => by
          simp only [hmem]
          refine (h.byPipeline q o).trans ⟨?_, ?_⟩
          · rintro ⟨j, hj, hw⟩
            exact ⟨_, ⟨j, hj, rfl⟩, hw⟩
          · rintro ⟨i, ⟨j, hj, rfl⟩, hw⟩
            exact ⟨j, hj, hw⟩
        ready := fun o => by
          simp only [hmem]
          refine iff_of_false (by simp [Scheduler.takeReady]) ?_
          rintro ⟨i, ⟨j, -, rfl⟩, hr, ht⟩
          rw [Bool.or_eq_false_iff] at ht
          exact Bool.false_ne_true (ht.1.symm.trans hr)
        taken := fun o i hi ht => by
          obtain ⟨j, hj, rfl⟩ := (hmem o i).mp hi
          rcases Bool.or_eq_true_iff.mp ht with hr | ht
          · exact hr
          · exact h.taken o j hj ht }

/-! ## The calls that only read -/

/-- Entry by entry, the pending transactions are the jobs of the board. -/
theorem toList_agrees (h : Tracks s b bound) :
    List.Forall₂ (fun e f => e.1 = f.1 ∧ Agrees e.2 f.2) s.pending.toList b.jobs := by
  have hkeys : s.pending.toList.map Prod.fst = b.pendingOrdinals := by
    refine List.Pairwise.eq_of_mem_iff ?_ h.ordered fun o => ?_
    · exact List.pairwise_map.mpr
        (TreeMap.ordered_keys_toList.imp fun hlt => Nat.compare_eq_lt.mp hlt)
    · rw [← h.contains_iff, TreeMap.map_fst_toList_eq_keys, TreeMap.mem_keys,
        TreeMap.contains_iff_mem]
  have hpairs : List.Forall₂ (fun e f => e.1 = f.1) s.pending.toList b.jobs := by
    rw [← List.forall₂_eq_eq_eq] at hkeys
    exact List.forall₂_map_left_iff.mp (List.forall₂_map_right_iff.mp hkeys)
  refine List.forall₂_iff_zip.mpr ⟨hpairs.length_eq, fun {e f} hin => ?_⟩
  obtain ⟨he, hf⟩ := List.of_mem_zip hin
  have hkey : e.1 = f.1 := List.forall₂_zip hpairs hin
  refine ⟨hkey, h.agrees (TreeMap.mem_toList_iff_getElem?_eq_some.mp he) ?_⟩
  rw [hkey]
  exact hf

/-- A condition on the entries that is one on the jobs names the same transactions. -/
theorem filter_toList (h : Tracks s b bound) {P : Pending → Bool} {Q : Job → Bool}
    (hPQ : ∀ p j, Agrees p j → P p = Q j) :
    (s.pending.toList.filter fun e => P e.2).map Prod.fst = b.select Q := by
  have hfilter := List.rel_filter (p := fun e : IngressOrdinal × Pending => P e.2)
    (q := fun e : IngressOrdinal × Job => Q e.2)
    (fun e f hag => iff_of_eq (congrArg (· = true) (hPQ _ _ hag.2))) h.toList_agrees
  rw [Board.select, ← List.forall₂_eq_eq_eq]
  exact List.rel_map (fun e f hag => hag.1) hfilter

theorem pendingCount (h : Tracks s b bound) : s.pendingCount = b.jobs.length := by
  rw [Scheduler.pendingCount, ← TreeMap.length_toList]
  exact h.toList_agrees.length_eq

theorem waitingOnPipelines (h : Tracks s b bound) :
    s.waitingOnPipelines = b.waitingOnPipelines := by
  rw [Scheduler.waitingOnPipelines, Board.waitingOnPipelines, List.countP_eq_length_filter,
    ← h.filter_toList (P := fun p => !p.pipelineWaits.isEmpty), List.length_map]
  intro p j hag
  rw [hag.pipelines]

/-- The loop of `stalled` finds the latest value owed to each slot. -/
theorem foldl_noteOwed (ps : List Pending) (publishable : StampSlot → Option StampValue)
    (slot : StampSlot) :
    ps.foldl Scheduler.noteOwed publishable slot =
      StampValue.latest ((publishable slot).toList ++
        ps.filterMap fun p => (p.completion.filter fun c => c.slot = slot).map
          CompletionStamp.value) := by
  induction ps generalizing publishable with
  | nil =>
    rw [List.foldl_nil, List.filterMap_nil, List.append_nil]
    cases publishable slot <;> rfl
  | cons p rest ih =>
    rw [List.foldl_cons, ih]
    cases hc : p.completion with
    | none => simp [Scheduler.noteOwed, hc]
    | some c =>
      by_cases hslot : c.slot = slot
      · subst hslot
        cases hs : publishable c.slot <;> simp [Scheduler.noteOwed, hc, hs, StampValue.latest]
      · have hslot' : ¬slot = c.slot := fun heq => hslot heq.symm
        simp [Scheduler.noteOwed, hc, hslot, hslot']

theorem owed (h : Tracks s b bound) (slot : StampSlot) :
    ((s.pending.toList.map Prod.snd).foldl Scheduler.noteOwed fun _ => none) slot =
      StampValue.latest (b.owed slot) := by
  have hcompletions : (s.pending.toList.map fun e => e.2.completion) =
      b.jobs.map fun e => e.2.completion := by
    rw [← List.forall₂_eq_eq_eq]
    exact List.rel_map (fun e f hag => hag.2.completion) h.toList_agrees
  have howed := congrArg (List.filterMap fun c : Option CompletionStamp =>
    (c.filter fun c => c.slot = slot).map CompletionStamp.value) hcompletions
  rw [foldl_noteOwed, Board.owed]
  simpa [List.filterMap_map, Function.comp_def] using congrArg StampValue.latest howed

theorem stalled (h : Tracks s b bound) : s.stalled = b.stalled := by
  unfold Scheduler.stalled Board.stalled
  simp only [h.owed]
  refine h.filter_toList (P := fun p => p.stampWaits.any fun w =>
    !(StampValue.latest (b.owed w.slot)).any fun highest => StampValue.reached highest w.value)
    fun p j hag => ?_
  rw [hag.stamps]

end Tracks

/-! ## Whole runs -/

/-- The calls of the scheduler. -/
inductive ReadyOp where
  | admission (ordinal : IngressOrdinal) (hazardWaits : List IngressOrdinal)
      (stampWaits : List StampWait) (pipelineWaits : List ResourceId)
      (completion : Option CompletionStamp)
  | complete (ordinal : IngressOrdinal)
  | publish (stamp : CompletionStamp)
  | pipelineReady (pipeline : ResourceId)
  | pipelineRefused (pipeline : ResourceId)
  | takeReady
  | isPublished (wait : StampWait)
  | publishedValue (slot : StampSlot)
  | waitingOnPipelines
  | pending
  | stalled

/-- The ordinal an operation admits. -/
def ReadyOp.admits : ReadyOp → Option IngressOrdinal
  | .admission o .. => some o
  | _ => none

/-- What a call answers. -/
inductive ReadyAnswer where
  | admitted (ready : Bool)
  | completed (owed : Option CompletionStamp)
  | refused (waiters : List IngressOrdinal)
  | taken (ready : List IngressOrdinal)
  | published (standing : Bool)
  | value (standing : Option StampValue)
  | count (transactions : Nat)
  | stalled (waiters : List IngressOrdinal)
  | panicked
deriving DecidableEq

def schedulerStep (s : Scheduler) : ReadyOp → Scheduler × List ReadyAnswer
  | .admission o hazards stamps pipelines completion =>
    let out := s.admitTransaction o hazards stamps pipelines completion
    (out.1, [.admitted out.2])
  | .complete o =>
    match s.complete o with
    | some out => (out.1, [.completed out.2])
    | none => (s, [.panicked])
  | .publish stamp => (s.publish stamp, [])
  | .pipelineReady pipeline => (s.pipelineReady pipeline, [])
  | .pipelineRefused pipeline =>
    let out := s.pipelineRefused pipeline
    (out.1, [.refused out.2])
  | .takeReady => (s.takeReady.1, [.taken s.takeReady.2])
  | .isPublished wait => (s, [.published (s.isPublished wait)])
  | .publishedValue slot => (s, [.value (s.publishedValue slot)])
  | .waitingOnPipelines => (s, [.count s.waitingOnPipelines])
  | .pending => (s, [.count s.pendingCount])
  | .stalled => (s, [.stalled s.stalled])

def boardStep (b : Board) : ReadyOp → Board × List ReadyAnswer
  | .admission o hazards stamps pipelines completion =>
    let out := b.admitTransaction o hazards stamps pipelines completion
    (out.1, [.admitted out.2])
  | .complete o =>
    match b.complete o with
    | some out => (out.1, [.completed out.2])
    | none => (b, [.panicked])
  | .publish stamp => (b.publish stamp, [])
  | .pipelineReady pipeline => (b.pipelineReady pipeline, [])
  | .pipelineRefused pipeline =>
    let out := b.pipelineRefused pipeline
    (out.1, [.refused out.2])
  | .takeReady => (b.takeReady.1, [.taken b.takeReady.2])
  | .isPublished wait => (b, [.published (b.isPublished wait)])
  | .publishedValue slot => (b, [.value (b.published slot)])
  | .waitingOnPipelines => (b, [.count b.waitingOnPipelines])
  | .pending => (b, [.count b.jobs.length])
  | .stalled => (b, [.stalled b.stalled])

/-- A call takes no count of hazards below zero: whenever the loop of a completion comes to
a pending transaction, there is one to count down. -/
def CountsDown (s : Scheduler) : ReadyOp → Prop
  | .complete o => ∀ (p r : Pending) (before after : List IngressOrdinal) (q : IngressOrdinal),
    s.pending[o]? = some p → s.dependents o = before ++ q :: after →
      (before.foldl (Scheduler.touch Scheduler.countDown) (s.leave o p)).pending[q]? = some r →
        0 < r.remainingHazards
  | _ => True

theorem schedulerStep_spec {s : Scheduler} {b : Board} {bound : IngressOrdinal}
    (h : Tracks s b bound) (op : ReadyOp) (hfresh : ∀ o ∈ op.admits, bound ≤ o) :
    (schedulerStep s op).2 = (boardStep b op).2 ∧
      Tracks (schedulerStep s op).1 (boardStep b op).1
        ((op.admits.map (· + 1)).getD bound) := by
  cases op with
  | admission o hazards stamps pipelines completion =>
    obtain ⟨hanswer, htracks⟩ := h.admitted (hfresh o rfl) hazards stamps pipelines completion
    exact ⟨by simp only [schedulerStep, boardStep, hanswer], htracks⟩
  | complete o =>
    by_cases ho : o ∈ b.pendingOrdinals
    · obtain ⟨job, hjob⟩ := Board.mem_pendingOrdinals.mp ho
      obtain ⟨s', b', hs, hb, htracks⟩ := h.complete_of_pending hjob
      simp only [schedulerStep, boardStep, hs, hb]
      exact ⟨trivial, htracks⟩
    · obtain ⟨hs, hb⟩ := h.complete_of_not_pending ho
      simp only [schedulerStep, boardStep, hs, hb]
      exact ⟨trivial, h⟩
  | publish stamp => exact ⟨rfl, h.publish stamp⟩
  | pipelineReady pipeline => exact ⟨rfl, h.pipelineReady pipeline⟩
  | pipelineRefused pipeline =>
    obtain ⟨hanswer, htracks⟩ := h.pipelineRefused pipeline
    exact ⟨by simp only [schedulerStep, boardStep, hanswer], htracks⟩
  | takeReady =>
    obtain ⟨hanswer, htracks⟩ := h.takeReady
    exact ⟨by simp only [schedulerStep, boardStep, hanswer], htracks⟩
  | isPublished wait =>
    refine ⟨?_, h⟩
    simp only [schedulerStep, boardStep, Scheduler.isPublished, Board.isPublished, h.published]
  | publishedValue slot =>
    refine ⟨?_, h⟩
    simp only [schedulerStep, boardStep, Scheduler.publishedValue, h.published]
  | waitingOnPipelines => exact ⟨by simp only [schedulerStep, boardStep, h.waitingOnPipelines], h⟩
  | pending => exact ⟨by simp only [schedulerStep, boardStep, h.pendingCount], h⟩
  | stalled => exact ⟨by simp only [schedulerStep, boardStep, h.stalled], h⟩

theorem countsDown_of_tracks {s : Scheduler} {b : Board} {bound : IngressOrdinal}
    (h : Tracks s b bound) (op : ReadyOp) : CountsDown s op := by
  cases op with
  | complete o => exact fun p r before after q _ hdependents hr => h.countDown_pos hdependents hr
  | _ => trivial

theorem schedulerStep_run {ops : List ReadyOp} :
    ∀ {s : Scheduler} {b : Board} {bound : IngressOrdinal}, Tracks s b bound →
      (ops.filterMap ReadyOp.admits).Pairwise (· < ·) →
      (∀ o ∈ ops.filterMap ReadyOp.admits, bound ≤ o) →
      observe schedulerStep s ops = observe boardStep b ops ∧
        Guarded (fun s op => (schedulerStep s op).1) CountsDown s ops := by
  induction ops with
  | nil => exact fun _ _ _ => ⟨rfl, trivial⟩
  | cons op rest ih =>
    intro s b bound h hsorted hbound
    have hmem : ∀ o ∈ op.admits, o ∈ (op :: rest).filterMap ReadyOp.admits := fun o ho =>
      List.mem_filterMap.mpr ⟨op, List.mem_cons_self, ho⟩
    obtain ⟨hanswer, htracks⟩ := schedulerStep_spec h op fun o ho => hbound o (hmem o ho)
    have hlater : ∀ o ∈ rest.filterMap ReadyOp.admits, (op.admits.map (· + 1)).getD bound ≤ o := by
      intro o ho
      cases hop : op.admits with
      | none =>
        rw [List.filterMap_cons_none hop] at hbound
        exact hbound o ho
      | some p =>
        rw [List.filterMap_cons_some hop] at hsorted
        exact (List.pairwise_cons.mp hsorted).1 o ho
    obtain ⟨hobserve, hguarded⟩ := ih htracks
      (hsorted.sublist (List.Sublist.filterMap _ (List.sublist_cons_self op rest))) hlater
    rw [observe_cons, observe_cons, hanswer, hobserve]
    exact ⟨rfl, countsDown_of_tracks h op, hguarded⟩

/-- **The count of hazards never underflows.**  In no run does a completion meet a pending
transaction whose count of hazards is already zero. -/
theorem countDown_never_underflows (ops : List ReadyOp)
    (h : (ops.filterMap ReadyOp.admits).Pairwise (· < ·)) :
    Guarded (fun s op => (schedulerStep s op).1) CountsDown .new ops :=
  (schedulerStep_run .new h fun _ _ => Nat.zero_le _).2

/-- **No wake-up is lost and none is early.**  Whatever is admitted, completed, published,
built, refused and asked in whatever order, the counters and indexes of the scheduler answer
like a board that writes out every transaction's unmet prerequisites: a transaction is handed
out once, and exactly when its hazards have completed, its stamps been published and its
pipelines become usable. -/
theorem scheduler_is_board (ops : List ReadyOp)
    (h : (ops.filterMap ReadyOp.admits).Pairwise (· < ·)) :
    observe schedulerStep .new ops = observe boardStep .new ops :=
  (schedulerStep_run .new h fun _ _ => Nat.zero_le _).1

/-- Two transactions behind a first one, one of them waiting for a stamp and a pipeline.
Nobody owes it the stamp between the completion of the first and the publication. -/
def threeInARow : List ReadyOp :=
  [.admission 1 [] [] [] (some ⟨0, 7⟩), .admission 2 [1] [] [] none,
    .admission 5 [1, 2] [⟨0, 7⟩] [⟨4, 0⟩] none, .stalled, .takeReady, .complete 1, .stalled,
    .publish ⟨0, 8⟩, .takeReady, .complete 2, .takeReady, .waitingOnPipelines,
    .pipelineReady ⟨4, 0⟩, .takeReady]

theorem scheduler_is_board_threeInARow :
    observe schedulerStep .new threeInARow = observe boardStep .new threeInARow :=
  scheduler_is_board threeInARow (by decide)

example : observe boardStep .new threeInARow =
    [.admitted true, .admitted false, .admitted false, .stalled [], .taken [1],
      .completed (some ⟨0, 7⟩), .stalled [5], .taken [2], .completed none, .taken [], .count 1,
      .taken [5]] := by
  decide

end Orchard.Plane
