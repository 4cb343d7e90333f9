/-
  Plane/AnyOrder.lean --- the parallel run of an eligible batch.

  At every moment the board of the readiness service is a function of what has completed, of
  the stamps that stand and of what has been handed out.  The least transaction that has not
  completed waits for nothing, so that the run does not stop before all have; and whatever is
  picked was due.
-/
import Orchard.Plane.Agreement
import Orchard.Plane.InOrder
import Orchard.Plane.Wakeups

set_option autoImplicit false

namespace Orchard.Plane

open Orchard.Content Orchard.Foundation

/-! ## The board of a batch -/

/-- What a transaction of a batch must not overtake: its hazards and the producers of the events
it waits for. -/
def prerequisitesAt (batch : List DeviceTransaction) (tx : DeviceTransaction) :
    List IngressOrdinal :=
  (hazardsAt batch tx ++ explicitWaits (.of batch) tx.ingress).mergeSort.dedup

/-- What a transaction still waits for. -/
def jobOf (batch done : List DeviceTransaction) (published : StampSlot → Option StampValue)
    (pool : List IngressOrdinal) (tx : DeviceTransaction) : Job where
  hazards := (prerequisitesAt batch tx).filter fun o => o ∉ done.map DeviceTransaction.ingress
  stamps := tx.stampWaits.filter fun w => !(published w.slot).any w.satisfiedBy
  pipelines := []
  refused := []
  completion := tx.completion
  taken := tx.ingress ∈ pool

/-- The admitted transactions of a batch that have not completed. -/
def pendingOf (joined done : List DeviceTransaction) : List DeviceTransaction :=
  joined.filter fun tx => tx.ingress ∉ done.map DeviceTransaction.ingress

/-- The board of a batch. -/
def boardOf (batch joined done : List DeviceTransaction)
    (published : StampSlot → Option StampValue) (pool : List IngressOrdinal) : Board where
  jobs := (pendingOf joined done).map fun tx => (tx.ingress, jobOf batch done published pool tx)
  published := published

section Board

variable {batch joined done : List DeviceTransaction}
  {published : StampSlot → Option StampValue} {pool : List IngressOrdinal}
  {tx : DeviceTransaction}

theorem mem_prerequisitesAt {o : IngressOrdinal} :
    o ∈ prerequisitesAt batch tx ↔
      o ∈ hazardsAt batch tx ∨ o ∈ explicitWaits (.of batch) tx.ingress := by
  simp [prerequisitesAt]

theorem Orderly.prerequisites_back (h : Orderly batch) {o : IngressOrdinal}
    (ho : o ∈ prerequisitesAt batch tx) : ∃ u ∈ batch, u.ingress = o ∧ o < tx.ingress := by
  rcases mem_prerequisitesAt.mp ho with ho | ho
  · exact mem_hazardsAt ho
  · exact h.explicitWaits_back ho

theorem mem_pendingOf :
    tx ∈ pendingOf joined done ↔
      tx ∈ joined ∧ tx.ingress ∉ done.map DeviceTransaction.ingress := by
  simp [pendingOf]

theorem pendingOrdinals_boardOf :
    (boardOf batch joined done published pool).pendingOrdinals =
      (pendingOf joined done).map DeviceTransaction.ingress := by
  simp [Board.pendingOrdinals, boardOf]

theorem mem_jobs_boardOf {o : IngressOrdinal} {j : Job} :
    (o, j) ∈ (boardOf batch joined done published pool).jobs ↔
      ∃ tx ∈ pendingOf joined done, tx.ingress = o ∧ jobOf batch done published pool tx = j := by
  simp [boardOf]

/-- A transaction is ready when its prerequisites have completed and its stamps stand. -/
theorem isReady_jobOf :
    (jobOf batch done published pool tx).isReady = true ↔
      (∀ o ∈ prerequisitesAt batch tx, o ∈ done.map DeviceTransaction.ingress) ∧
        ∀ w ∈ tx.stampWaits, (published w.slot).any w.satisfiedBy = true := by
  simp only [jobOf, Job.isReady, List.isEmpty_iff, Bool.and_eq_true, List.filter_eq_nil_iff,
    decide_eq_true_eq, not_not, Bool.not_eq_true', and_true]
  simp

/-- Admission in ingress order puts the next transaction on the board. -/
theorem boardOf_admitted (horderly : Orderly batch) {front rest : List DeviceTransaction}
    (hbatch : batch = front ++ tx :: rest) :
    ((boardOf batch front [] (fun _ => none) []).admitTransaction tx.ingress
      (prerequisitesAt batch tx) tx.stampWaits [] tx.completion).1 =
        boardOf batch (front ++ [tx]) [] (fun _ => none) [] := by
  have hascending := horderly.ascending
  have hhazards : (prerequisitesAt batch tx).filter (fun o =>
      o ∈ (boardOf batch front [] (fun _ => none) []).pendingOrdinals) =
        (prerequisitesAt batch tx).filter fun o =>
          o ∉ ([] : List DeviceTransaction).map DeviceTransaction.ingress := by
    refine List.filter_congr fun o ho => ?_
    obtain ⟨u, hu, rfl, hlt⟩ := horderly.prerequisites_back ho
    rw [hbatch] at hascending hu
    have hfront := mem_front_of_lt DeviceTransaction.ingress hascending hu hlt
    have hin : u.ingress ∈ (boardOf batch front [] (fun _ => none) []).pendingOrdinals := by
      rw [pendingOrdinals_boardOf]
      exact List.mem_map_of_mem (mem_pendingOf.mpr ⟨hfront, List.not_mem_nil⟩)
    simp [hin]
  unfold Board.admitTransaction
  dsimp only
  rw [hhazards]
  simp [Board.isPublished, boardOf, pendingOf, jobOf]

theorem mem_takeReady_boardOf {o : IngressOrdinal} :
    o ∈ (boardOf batch joined done published pool).takeReady.2 ↔
      ∃ tx ∈ pendingOf joined done, tx.ingress = o ∧
        (jobOf batch done published pool tx).isReady = true ∧ o ∉ pool := by
  have htaken : ∀ u, (jobOf batch done published pool u).taken = decide (u.ingress ∈ pool) :=
    fun _ => rfl
  unfold Board.takeReady
  dsimp only
  rw [Board.mem_select]
  constructor
  · rintro ⟨j, hj, hready⟩
    obtain ⟨u, hu, rfl, rfl⟩ := mem_jobs_boardOf.mp hj
    exact ⟨u, hu, rfl, by simpa [htaken] using hready⟩
  · rintro ⟨u, hu, rfl, hready, hpool⟩
    exact ⟨_, mem_jobs_boardOf.mpr ⟨u, hu, rfl, rfl⟩, by simp [hready, htaken, hpool]⟩

/-- What is ready is handed out. -/
theorem boardOf_takeReady (hascending : joined.Pairwise fun a b => a.ingress < b.ingress) :
    (boardOf batch joined done published pool).takeReady.1 =
      boardOf batch joined done published
        (pool ++ (boardOf batch joined done published pool).takeReady.2).mergeSort := by
  have hjob : ∀ tx ∈ pendingOf joined done, (jobOf batch done published pool tx).take =
      jobOf batch done published
        (pool ++ (boardOf batch joined done published pool).takeReady.2).mergeSort tx := by
    intro tx htx
    unfold Job.take
    split
    · rename_i hready
      by_cases hpool : tx.ingress ∈ pool
      · simp [jobOf, hpool]
      · have hin := mem_takeReady_boardOf.mpr ⟨tx, htx, rfl, hready, hpool⟩
        simp [jobOf, hin]
    · rename_i hnot
      have hout : tx.ingress ∉ (boardOf batch joined done published pool).takeReady.2 := by
        intro hin
        obtain ⟨u, hu, heq, hready, -⟩ := mem_takeReady_boardOf.mp hin
        obtain rfl := eq_of_ingress hascending (mem_pendingOf.mp hu).1 (mem_pendingOf.mp htx).1 heq
        exact hnot hready
      simp [jobOf, hout]
  unfold boardOf Board.takeReady Board.mapJobs
  dsimp only
  rw [List.map_map]
  congr 1
  exact List.map_congr_left fun tx htx => congrArg (tx.ingress, ·) (hjob tx htx)

theorem mem_ordinals_concat {o : IngressOrdinal} :
    o ∈ (done ++ [tx]).map DeviceTransaction.ingress ↔
      o ∈ done.map DeviceTransaction.ingress ∨ o = tx.ingress := by
  rw [List.map_append, List.mem_append, List.map_singleton, List.mem_singleton]

/-- A completed transaction leaves the board. -/
theorem boardOf_complete (hascending : joined.Pairwise fun a b => a.ingress < b.ingress)
    (htx : tx ∈ pendingOf joined done) {rest : List IngressOrdinal}
    (hrest : ∀ o, o ≠ tx.ingress → (o ∈ rest ↔ o ∈ pool)) :
    (boardOf batch joined done published pool).complete tx.ingress =
      some (boardOf batch joined (done ++ [tx]) published rest, tx.completion) := by
  have hkeys : ((boardOf batch joined done published pool).jobs.map Prod.fst).Nodup := by
    have hordinals := @pendingOrdinals_boardOf batch joined done published pool
    rw [Board.pendingOrdinals] at hordinals
    rw [hordinals]
    exact (nodup_map_of_sorted DeviceTransaction.ingress hascending).sublist
      (List.filter_sublist.map DeviceTransaction.ingress)
  have hfind := find?_eq_some_of_nodup Prod.fst hkeys
    (mem_jobs_boardOf.mpr ⟨tx, htx, rfl, rfl⟩) rfl
  have hpending : pendingOf joined (done ++ [tx]) =
      (pendingOf joined done).filter fun u => u.ingress ≠ tx.ingress := by
    unfold pendingOf
    rw [List.filter_filter]
    refine List.filter_congr fun u _ => ?_
    rw [Bool.eq_iff_iff]
    simp only [Bool.and_eq_true, decide_eq_true_eq, mem_ordinals_concat, not_or, and_comm]
  have hjob : ∀ u ∈ pendingOf joined (done ++ [tx]),
      (jobOf batch done published pool u).release tx.ingress =
        jobOf batch (done ++ [tx]) published rest u := by
    intro u hu
    have hne : u.ingress ≠ tx.ingress := by
      rw [hpending] at hu
      exact of_decide_eq_true (List.mem_filter.mp hu).2
    unfold Job.release jobOf
    rw [List.filter_filter]
    congr 1
    · refine List.filter_congr fun o _ => ?_
      rw [Bool.eq_iff_iff]
      simp only [Bool.and_eq_true, decide_eq_true_eq, mem_ordinals_concat, not_or, and_comm]
    · exact decide_eq_decide.mpr (hrest u.ingress hne).symm
  unfold Board.complete
  rw [hfind]
  dsimp only
  refine congrArg some (Prod.ext ?_ rfl)
  dsimp only [Board.remove, Board.mapJobs, boardOf]
  rw [List.filter_map, List.map_map]
  congr 1
  refine (List.map_congr_left fun u hu => ?_).trans (congrArg _ hpending.symm)
  refine congrArg (u.ingress, ·) (hjob u ?_)
  rw [hpending]
  exact hu

/-- A stamp is published. -/
theorem boardOf_publish {base : StampSlot → StampValue} {paid : List CompletionStamp}
    (h : Standing base paid published) {c : CompletionStamp}
    (hc : StampValue.rank (base c.slot) c.value < 2 ^ 31)
    (hwaits : ∀ tx ∈ joined, ∀ w ∈ tx.stampWaits,
      StampValue.rank (base w.slot) w.value < 2 ^ 31) :
    (boardOf batch joined done published pool).publish c =
      boardOf batch joined done (Function.update published c.slot
        (some (StampValue.later ((published c.slot).getD c.value) c.value))) pool := by
  have hjob : ∀ tx ∈ joined, (jobOf batch done published pool tx).discharge c.slot
      (StampValue.later ((published c.slot).getD c.value) c.value) =
        jobOf batch done (Function.update published c.slot
          (some (StampValue.later ((published c.slot).getD c.value) c.value))) pool tx := by
    intro tx htx
    unfold Job.discharge jobOf
    rw [List.filter_filter]
    congr 1
    refine List.filter_congr fun w hw => ?_
    by_cases hslot : w.slot = c.slot
    · -- a wait that was met stays met, since the slot only moves on
      have hmet : ∀ v, published c.slot = some v → w.satisfiedBy v = true → w.satisfiedBy
          (StampValue.later ((published c.slot).getD c.value) c.value) = true := by
        intro v hv hreached
        obtain ⟨v', hv', hreached'⟩ := (h.pay hc).reached_of_paid
          (List.mem_append_left _ (h.fromPaid c.slot v hv)) (hslot ▸ hwaits tx htx w hw) hreached
        rw [Function.update_self] at hv'
        cases hv'
        exact hreached'
      rw [hslot, Function.update_self]
      cases hv : published c.slot with
      | none => simp
      | some v =>
        have hkeep := hmet v hv
        rw [hv, Option.getD_some] at hkeep
        cases hsat : w.satisfiedBy v with
        | false => simp [hsat]
        | true => simp [hsat, hkeep hsat]
    · simp [hslot]
  unfold boardOf Board.publish Board.mapJobs
  dsimp only
  rw [List.map_map]
  congr 1
  refine List.map_congr_left fun tx htx => congrArg (tx.ingress, ·) (hjob tx ?_)
  exact (mem_pendingOf.mp htx).1

end Board

/-! ## One completion -/

/-- The order of completion respects what a batch prescribes, and the pool offers transactions
that have not completed. -/
structure Course (batch done : List DeviceTransaction) (pool : List IngressOrdinal) : Prop where
  inside : ∀ u ∈ done, u ∈ batch
  closed : ∀ t ∈ done, ∀ o ∈ prerequisitesAt batch t, o ∈ done.map DeviceTransaction.ingress
  order : done.Pairwise fun a b => ¬precedes batch b a = true
  nodup : done.Nodup
  distinct : pool.Nodup
  offered : ∀ o ∈ pool, ∃ tx ∈ pendingOf batch done, tx.ingress = o

/-- A parallel run between two completions. -/
structure Running (batch : List DeviceTransaction) (base : StampSlot → StampValue)
    (done : List DeviceTransaction) (releases : List (ChannelId × Release)) (f : Floor) :
    Prop where
  graph : ∃ live, DependencyGraph.Indexed f.graph live
  board : ∃ bound, Tracks f.scheduler
    (boardOf batch batch done f.scheduler.published f.pool) bound
  standing : Standing base (releases.filterMap fun e => e.2.stamp) f.scheduler.published
  kept : Kept batch base done releases f.bench
  released : Released batch done releases f.bench.publisher
  course : Course batch done f.pool

section Run

variable {batch done : List DeviceTransaction} {base : StampSlot → StampValue}
  {releases : List (ChannelId × Release)} {f : Floor} {tx : DeviceTransaction}

theorem Course.mem_of_ingress (horderly : Orderly batch) {pool : List IngressOrdinal}
    (h : Course batch done pool) (htx : tx ∈ batch)
    (hin : tx.ingress ∈ done.map DeviceTransaction.ingress) : tx ∈ done := by
  obtain ⟨u, hu, heq⟩ := List.mem_map.mp hin
  exact eq_of_ingress horderly.ascending (h.inside u hu) htx heq ▸ hu

theorem mem_eraseIdx_of_nodup {pool : List IngressOrdinal} (hnodup : pool.Nodup) {choice : Nat}
    (hchoice : choice < pool.length) {o : IngressOrdinal} :
    o ∈ pool.eraseIdx choice ↔ o ≠ pool[choice] ∧ o ∈ pool := by
  rw [← hnodup.erase_getElem choice hchoice, hnodup.mem_erase_iff]

/-- A transaction of the pool completes. -/
theorem Course.next {pool : List IngressOrdinal} (h : Course batch done pool)
    (htx : tx ∈ pendingOf batch done) {choice : Nat} (hchoice : choice < pool.length)
    (hordinal : tx.ingress = pool[choice])
    (hmet : ∀ o ∈ prerequisitesAt batch tx, o ∈ done.map DeviceTransaction.ingress)
    (hafter : ∀ u ∈ done, ¬precedes batch tx u = true) :
    Course batch (done ++ [tx]) (pool.eraseIdx choice) where
  inside u hu := by
    rcases List.mem_append.mp hu with hu | hu
    · exact h.inside u hu
    · exact List.mem_singleton.mp hu ▸ (mem_pendingOf.mp htx).1
  closed t ht o ho := by
    rw [mem_ordinals_concat]
    rcases List.mem_append.mp ht with ht | ht
    · exact Or.inl (h.closed t ht o ho)
    · rw [List.mem_singleton.mp ht] at ho
      exact Or.inl (hmet o ho)
  order := by
    rw [List.pairwise_append]
    refine ⟨h.order, List.pairwise_singleton _ _, fun u hu v hv => ?_⟩
    rw [List.mem_singleton.mp hv]
    exact hafter u hu
  nodup := by
    rw [List.nodup_append]
    refine ⟨h.nodup, List.nodup_singleton tx, fun u hu v hv heq => ?_⟩
    rw [List.mem_singleton.mp hv] at heq
    exact (mem_pendingOf.mp htx).2 (List.mem_map_of_mem (heq ▸ hu))
  distinct := h.distinct.sublist (List.eraseIdx_sublist pool choice)
  offered o ho := by
    obtain ⟨hne, hin⟩ := (mem_eraseIdx_of_nodup h.distinct hchoice).mp ho
    obtain ⟨u, hu, rfl⟩ := h.offered o hin
    obtain ⟨hu, hout⟩ := mem_pendingOf.mp hu
    refine ⟨u, mem_pendingOf.mpr ⟨hu, fun hin' => ?_⟩, rfl⟩
    rcases mem_ordinals_concat.mp hin' with hin' | heq
    · exact hout hin'
    · exact hne (heq.trans hordinal)

/-- What is due of a transaction that waits for nothing. -/
theorem Running.due (horderly : Orderly batch) (h : Running batch base done releases f)
    (htx : tx ∈ pendingOf batch done)
    (hready : (jobOf batch done f.scheduler.published f.pool tx).isReady = true) :
    Due batch (fun u t => precedes batch u t = true) done
      (releases.filterMap fun e => e.2.stamp) tx := by
  obtain ⟨hin, hpending⟩ := mem_pendingOf.mp htx
  obtain ⟨hhazards, hstamps⟩ := isReady_jobOf.mp hready
  have hclosed : ∀ t ∈ batch, t.ingress ∈ done.map DeviceTransaction.ingress →
      ∀ m ∈ hazardsAt batch t, m ∈ done.map DeviceTransaction.ingress := fun t ht hdone m hm =>
    h.course.closed t (h.course.mem_of_ingress horderly ht hdone) m
      (mem_prerequisitesAt.mpr (Or.inl hm))
  refine ⟨hin, fun hdone => hpending (List.mem_map_of_mem hdone), fun u hu hprecedes => ?_,
    fun u hu hprecedes => ?_, fun w hw => ?_, fun event value hp => ?_⟩
  · refine h.course.mem_of_ingress horderly hu ?_
    exact precedes_closed (s := { o | o ∈ done.map DeviceTransaction.ingress }) horderly.ascending
      hclosed (fun m hm => hhazards m (mem_prerequisitesAt.mpr (Or.inl hm))) hin hprecedes
  · refine hpending ?_
    exact precedes_closed (s := { o | o ∈ done.map DeviceTransaction.ingress }) horderly.ascending
      hclosed (hclosed u (h.course.inside u hu) (List.mem_map_of_mem hu)) (h.course.inside u hu)
      hprecedes
  · have hmet := hstamps w hw
    cases hv : f.scheduler.published w.slot with
    | none => simp [hv] at hmet
    | some v =>
      refine ⟨⟨w.slot, v⟩, h.standing.fromPaid w.slot v hv, rfl, ?_⟩
      simpa [hv, StampWait.satisfiedBy] using hmet
  · obtain ⟨u, hu, -, hwaits, hsignal⟩ := horderly.event_signalled hin hp
    refine ⟨u, h.course.mem_of_ingress horderly hu ?_, hsignal⟩
    exact hhazards _ (mem_prerequisitesAt.mpr (Or.inr hwaits))

/-- A stamp reaches the board. -/
theorem publish_spec (hcomparable : Comparable batch base) {s : Scheduler}
    {pool : List IngressOrdinal} {paid : List CompletionStamp} {bound : IngressOrdinal}
    {c : CompletionStamp} (hc : StampValue.rank (base c.slot) c.value < 2 ^ 31)
    (hstanding : Standing base paid s.published)
    (htracks : Tracks s (boardOf batch batch done s.published pool) bound) :
    Standing base (paid ++ [c]) (s.publish c).published ∧
      Tracks (s.publish c) (boardOf batch batch done (s.publish c).published pool) bound := by
  have hnext := htracks.publish c
  rw [boardOf_publish hstanding hc hcomparable.waits] at hnext
  have hpublished : (s.publish c).published = Function.update s.published c.slot
      (some (StampValue.later ((s.published c.slot).getD c.value) c.value)) := hnext.published
  rw [hpublished]
  exact ⟨hstanding.pay hc, hnext⟩

theorem publish_all_spec (hcomparable : Comparable batch base) {pool : List IngressOrdinal}
    {stamps : List CompletionStamp} :
    ∀ {s : Scheduler} {paid : List CompletionStamp} {bound : IngressOrdinal},
      (∀ c ∈ stamps, StampValue.rank (base c.slot) c.value < 2 ^ 31) →
      Standing base paid s.published →
      Tracks s (boardOf batch batch done s.published pool) bound →
      Standing base (paid ++ stamps) (stamps.foldl Scheduler.publish s).published ∧
        Tracks (stamps.foldl Scheduler.publish s)
          (boardOf batch batch done (stamps.foldl Scheduler.publish s).published pool) bound := by
  induction stamps with
  | nil =>
    intro s paid bound _ hstanding htracks
    rw [List.append_nil]
    exact ⟨hstanding, htracks⟩
  | cons c rest ih =>
    intro s paid bound hwindow hstanding htracks
    obtain ⟨hstanding', htracks'⟩ :=
      publish_spec hcomparable (hwindow c List.mem_cons_self) hstanding htracks
    have hrest := ih (fun d hd => hwindow d (List.mem_cons_of_mem c hd)) hstanding' htracks'
    rw [List.append_assoc] at hrest
    exact hrest

/-- **One round.**  Whatever is picked from the pool is accepted, and the run goes on with one
transaction more completed. -/
theorem Running.completeOne (horderly : Orderly batch) (hcomparable : Comparable batch base)
    (h : Running batch base done releases f) {choice : Nat} (hchoice : choice < f.pool.length) :
    ∃ f' tx releases', f.completeOne batch choice = some f' ∧ tx ∈ pendingOf batch done ∧
      Running batch base (done ++ [tx]) releases' f' := by
  have hposed := horderly.posed hcomparable
  obtain ⟨tx, htx, hordinal⟩ := h.course.offered _ (List.getElem_mem hchoice)
  obtain ⟨hin, hpending⟩ := mem_pendingOf.mp htx
  obtain ⟨bound, htracks⟩ := h.board
  have hpick : f.pool[choice]? = some tx.ingress := by
    rw [List.getElem?_eq_getElem hchoice, hordinal]
  have hfind : batch.reverse.find? (fun u => u.ingress = tx.ingress) = some tx := by
    refine find?_eq_some_of_nodup DeviceTransaction.ingress ?_ (List.mem_reverse.mpr hin) rfl
    rw [List.map_reverse, List.nodup_reverse]
    exact nodup_map_of_sorted DeviceTransaction.ingress horderly.ascending
  have hjob : (tx.ingress, jobOf batch done f.scheduler.published f.pool tx) ∈
      (boardOf batch batch done f.scheduler.published f.pool).jobs :=
    mem_jobs_boardOf.mpr ⟨tx, htx, rfl, rfl⟩
  have hready := htracks.taken _ _ hjob
    (decide_eq_true (hordinal ▸ List.getElem_mem hchoice : tx.ingress ∈ f.pool))
  have hdue := h.due horderly htx hready
  have hcourse := h.course.next htx hchoice hordinal (isReady_jobOf.mp hready).1 hdue.after
  -- what the services answer
  have hrest : ∀ o, o ≠ tx.ingress → (o ∈ f.pool.eraseIdx choice ↔ o ∈ f.pool) := fun o ho => by
    rw [mem_eraseIdx_of_nodup h.course.distinct hchoice, ← hordinal, and_iff_right ho]
  have hboard := @boardOf_complete batch batch done f.scheduler.published f.pool tx
    horderly.ascending htx _ hrest
  obtain ⟨s', b', hscheduler, hboard', htracks'⟩ := htracks.complete_of_pending hjob
  rw [hboard] at hboard'
  cases hboard'
  obtain ⟨live, hindexed⟩ := h.graph
  have hretire := DependencyGraph.retire_spec hindexed tx.ingress
  obtain ⟨p', released, hcomplete, hreleased, hsettled⟩ := h.released.complete hin
    (fun u hu heq => hposed.eq_of_ingress hu hin heq)
    (fun u hu hdomain hsequence => hposed.eq_of_position hu hin hdomain hsequence) hpending
  have howes : ∀ r ∈ released, Owes (done ++ [tx]) tx.domain r := fun r hr =>
    owes_of_settled (fun u hu => hu) hcourse.inside
      (fun u hu v hv heq => hposed.eq_of_ingress hu hv heq) (hsettled r hr)
  obtain ⟨b, hfinish, hpublisher, hkept⟩ :=
    h.kept.finish hposed h.course.inside hdue (fun _ => tx.completion) rfl hcomplete howes
  -- the stamps of what was released reach the board
  have hwindow : ∀ c ∈ released.filterMap Release.stamp,
      StampValue.rank (base c.slot) c.value < 2 ^ 31 := fun c hc => by
    obtain ⟨r, hr, hstamp⟩ := List.mem_filterMap.mp hc
    obtain ⟨u, hu, -, -, hcompletion⟩ := howes r hr
    exact hcomparable.stamps u (hcourse.inside u hu) c (hcompletion ▸ hstamp)
  have hpublished : s'.published = f.scheduler.published := htracks'.published
  rw [← hpublished] at htracks'
  have hstanding := h.standing
  rw [← hpublished] at hstanding
  obtain ⟨hstanding', htracks''⟩ := publish_all_spec hcomparable hwindow hstanding htracks'
  refine ⟨⟨f.graph.retired tx.ingress, s'.publishAll released, b, f.pool.eraseIdx choice⟩, tx,
    releases ++ released.map fun r => (tx.domain, r), ?_, htx,
    ⟨⟨_, hindexed.retired tx.ingress⟩, ⟨bound, htracks''⟩, ?_, hkept, hpublisher ▸ hreleased,
      hcourse⟩⟩
  · have howed : (jobOf batch done f.scheduler.published f.pool tx).completion = tx.completion :=
      rfl
    rw [howed] at hscheduler
    simp [Floor.completeOne, hpick, hfind, hscheduler, hretire, hfinish]
  · rw [List.filterMap_append, List.filterMap_map]
    exact hstanding'

/-- Handing out what is ready. -/
theorem Running.takeReady (horderly : Orderly batch) (h : Running batch base done releases f) :
    Running batch base done releases
      { f with
        scheduler := f.scheduler.takeReady.1
        pool := (f.pool ++ f.scheduler.takeReady.2).mergeSort } := by
  obtain ⟨bound, htracks⟩ := h.board
  obtain ⟨hanswer, hnext⟩ := htracks.takeReady
  rw [boardOf_takeReady horderly.ascending, ← hanswer] at hnext
  have hpool : (f.pool ++ f.scheduler.takeReady.2).mergeSort.Perm
      (f.pool ++ f.scheduler.takeReady.2) := List.mergeSort_perm _ _
  have hnew : ∀ o ∈ f.scheduler.takeReady.2, o ∉ f.pool ∧
      ∃ tx ∈ pendingOf batch done, tx.ingress = o := fun o ho => by
    rw [hanswer] at ho
    obtain ⟨tx, htx, rfl, -, hout⟩ := mem_takeReady_boardOf.mp ho
    exact ⟨hout, tx, htx, rfl⟩
  have hdistinct : f.scheduler.takeReady.2.Nodup := by
    rw [hanswer, Board.takeReady]
    dsimp only
    exact (Board.select_ascending htracks.ordered _).imp Nat.ne_of_lt
  refine ⟨h.graph, ⟨bound, hnext⟩, h.standing, h.kept, h.released, ?_⟩
  refine ⟨h.course.inside, h.course.closed, h.course.order, h.course.nodup, ?_, fun o ho => ?_⟩
  · rw [hpool.nodup_iff, List.nodup_append]
    exact ⟨h.course.distinct, hdistinct, fun a ha b hb heq => (hnew b hb).1 (heq ▸ ha)⟩
  · rcases List.mem_append.mp (hpool.mem_iff.mp ho) with ho | ho
    · exact h.course.offered o ho
    · exact (hnew o ho).2

/-- The least transaction that has not completed waits for nothing. -/
theorem Running.least_ready (horderly : Orderly batch) (hcomparable : Comparable batch base)
    (h : Running batch base done releases f) (htx : tx ∈ pendingOf batch done)
    (hleast : ∀ u ∈ pendingOf batch done, tx.ingress ≤ u.ingress) :
    (jobOf batch done f.scheduler.published f.pool tx).isReady = true := by
  have hin := (mem_pendingOf.mp htx).1
  have hearlier : ∀ u ∈ batch, u.ingress < tx.ingress →
      u.ingress ∈ done.map DeviceTransaction.ingress := fun u hu hlt => by
    by_contra hout
    exact Nat.not_le.mpr hlt (hleast u (mem_pendingOf.mpr ⟨hu, hout⟩))
  refine isReady_jobOf.mpr ⟨fun o ho => ?_, fun w hw => ?_⟩
  · obtain ⟨u, hu, rfl, hlt⟩ := horderly.prerequisites_back ho
    exact hearlier u hu hlt
  · obtain ⟨u, hu, hlt, c, hc, hslot, hreached⟩ := horderly.stamp_owed hin hw
    -- everything before `u` in its channel came in earlier, so `u` has been released
    have hbefore : ∀ v ∈ batch, v.domain = u.domain → v.sequence ≤ u.sequence →
        v.ingress ∈ done.map DeviceTransaction.ingress := fun v hv hdomain hle => by
      refine hearlier v hv (Nat.lt_of_le_of_lt (Nat.not_lt.mp fun hgt => ?_) hlt)
      have hlater := rel_of_pairwise_of_lt DeviceTransaction.ingress horderly.ascending
        hcomparable.channels hu hv hgt hdomain.symm
      exact Nat.not_lt.mpr hle hlater
    have hsettled := mem_settled_of_done hcomparable.channels hu hbefore
    have hpaid := h.released.mem_paid hsettled hc
    obtain ⟨v, hv, hreached'⟩ := h.standing.reached_of_paid hpaid
      (hslot ▸ hcomparable.waits tx hin w hw) hreached
    rw [← hslot, hv]
    exact hreached'

/-! ## The whole run -/

/-- While something is pending, something is offered. -/
theorem Running.perm_of_idle (horderly : Orderly batch) (hcomparable : Comparable batch base)
    (h : Running batch base done releases f)
    (hidle : (f.pool ++ f.scheduler.takeReady.2).mergeSort = []) : done.Perm batch := by
  have hnone : pendingOf batch done = [] := by
    cases hpending : pendingOf batch done with
    | nil => rfl
    | cons tx rest =>
      have hsorted : (tx :: rest).Pairwise fun a b => a.ingress < b.ingress := by
        rw [← hpending]
        exact horderly.ascending.sublist List.filter_sublist
      have htx : tx ∈ pendingOf batch done := by
        rw [hpending]
        exact List.mem_cons_self
      have hready := h.least_ready horderly hcomparable htx fun u hu => by
        rw [hpending] at hu
        rcases List.mem_cons.mp hu with rfl | hu
        · exact Nat.le_refl _
        · exact Nat.le_of_lt ((List.pairwise_cons.mp hsorted).1 u hu)
      have hoffered : tx.ingress ∈ (f.pool ++ f.scheduler.takeReady.2).mergeSort := by
        obtain ⟨bound, htracks⟩ := h.board
        rw [List.mem_mergeSort, List.mem_append, htracks.takeReady.1, mem_takeReady_boardOf]
        by_cases hpool : tx.ingress ∈ f.pool
        · exact Or.inl hpool
        · exact Or.inr ⟨tx, htx, rfl, hready, hpool⟩
      rw [hidle] at hoffered
      cases hoffered
  have hnodup : batch.Nodup :=
    (nodup_map_of_sorted DeviceTransaction.ingress horderly.ascending).of_map
  refine (List.perm_ext_iff_of_nodup h.course.nodup hnodup).mpr fun tx => ?_
  refine ⟨h.course.inside tx, fun htx => h.course.mem_of_ingress horderly htx ?_⟩
  by_contra hout
  have hin := mem_pendingOf.mpr ⟨htx, hout⟩
  rw [hnone] at hin
  cases hin

theorem Course.length_le {pool : List IngressOrdinal} (h : Course batch done pool) :
    done.length ≤ batch.length :=
  (List.subperm_of_subset h.nodup h.inside).length_le

/-- The run completes everything: as many rounds as there are transactions left are enough. -/
theorem parallelLoop_spec (horderly : Orderly batch) (hcomparable : Comparable batch base)
    {pick : Nat → List IngressOrdinal → Nat}
    (hpick : ∀ round pool, pool ≠ [] → pick round pool < pool.length) {fuel : Nat} :
    ∀ {round : Nat} {done : List DeviceTransaction} {releases : List (ChannelId × Release)}
      {f : Floor}, Running batch base done releases f → batch.length < done.length + fuel →
      ∃ f' done' releases', parallelLoop batch pick fuel round f = some f' ∧
        Running batch base done' releases' f' ∧ done'.Perm batch := by
  induction fuel with
  | zero =>
    intro round done releases f h hfuel
    exact absurd h.course.length_le (Nat.not_le.mpr hfuel)
  | succ fuel ih =>
    intro round done releases f h hfuel
    have hready := h.takeReady horderly
    rw [parallelLoop]
    split
    · rename_i hempty
      exact ⟨_, done, releases, rfl, hready,
        h.perm_of_idle horderly hcomparable (List.isEmpty_iff.mp hempty)⟩
    · rename_i hsome
      have hchoice := hpick round _ (mt List.isEmpty_iff.mpr hsome)
      obtain ⟨f', tx, releases', hstep, htx, h'⟩ :=
        hready.completeOne horderly hcomparable hchoice
      obtain ⟨f'', done', releases'', hloop, h'', hperm⟩ := @ih (round + 1) _ _ _ h' (by
        rw [List.length_append, List.length_singleton]
        omega)
      refine ⟨f'', done', releases'', ?_, h'', hperm⟩
      rw [hstep]
      exact hloop

/-- The services of a parallel run once the front of its batch has been admitted. -/
structure Opening (batch front : List DeviceTransaction) (s : Services) : Prop where
  graph : Admits front s.graph
  board : ∃ bound, Tracks s.scheduler (boardOf batch front [] (fun _ => none) []) bound ∧
    ∀ n, (∀ u ∈ front, u.ingress < n) → bound ≤ n
  released : Released front [] [] s.publisher

theorem admitOne_spec (horderly : Orderly batch) (hcomparable : Comparable batch base)
    {front rest : List DeviceTransaction} (hbatch : batch = front ++ tx :: rest) {s : Services}
    (h : Opening batch front s) :
    ∃ s', admitOne (.of batch) s tx = some s' ∧ Opening batch (front ++ [tx]) s' := by
  have hascending := horderly.ascending
  have hchannels := hcomparable.channels
  obtain ⟨g', hgraph, hadmits⟩ := h.graph.next hbatch hascending
  rw [hbatch] at hascending hchannels
  obtain ⟨p', hposition, hreleased⟩ := h.released.admitted
    (fun u hu => (List.pairwise_append.mp hchannels).2.2 u hu tx List.mem_cons_self)
    List.not_mem_nil
  obtain ⟨bound, htracks, hbound⟩ := h.board
  obtain ⟨-, htracks'⟩ := htracks.admitted
    (hbound tx.ingress fun u hu =>
      (List.pairwise_append.mp hascending).2.2 u hu tx List.mem_cons_self)
    (prerequisitesAt batch tx) tx.stampWaits [] tx.completion
  rw [boardOf_admitted horderly hbatch] at htracks'
  refine ⟨⟨g', _, p'⟩, ?_, hadmits, ⟨_, htracks', fun n hn => hn tx (by simp)⟩, hreleased⟩
  simp only [admitOne, hposition, hgraph, Option.bind_eq_bind, Option.bind_some]
  rfl

theorem admitOne_all (horderly : Orderly batch) (hcomparable : Comparable batch base)
    {rest : List DeviceTransaction} :
    ∀ {front : List DeviceTransaction} {s : Services}, batch = front ++ rest →
      Opening batch front s →
      ∃ s', rest.foldlM (admitOne (.of batch)) s = some s' ∧ Opening batch batch s' := by
  induction rest with
  | nil =>
    intro front s hbatch h
    exact ⟨s, rfl, by simpa [hbatch] using h⟩
  | cons tx rest ih =>
    intro front s hbatch h
    obtain ⟨s', hstep, h'⟩ := admitOne_spec horderly hcomparable hbatch h
    obtain ⟨s'', hrest, h''⟩ := ih (by simpa using hbatch) h'
    refine ⟨s'', ?_, h''⟩
    rw [List.foldlM_cons, hstep]
    exact hrest

/-- Nothing that has completed can stall. -/
theorem Running.stalled_eq_nil (h : Running batch base done releases f) (hperm : done.Perm batch) :
    f.scheduler.stalled = [] := by
  obtain ⟨bound, htracks⟩ := h.board
  have hpending : f.scheduler.pending.toList = [] := by
    refine List.eq_nil_iff_forall_not_mem.mpr fun e he => ?_
    obtain ⟨j, hj⟩ := htracks.only e.1 e.2 (Std.TreeMap.mem_toList_iff_getElem?_eq_some.mp he)
    obtain ⟨tx, htx, -⟩ := mem_jobs_boardOf.mp hj
    obtain ⟨hin, hout⟩ := mem_pendingOf.mp htx
    exact hout (List.mem_map_of_mem (hperm.mem_iff.mpr hin))
  rw [Scheduler.stalled, hpending]
  rfl

/-- A parallel run completes its batch and leaves nothing stalled. -/
theorem parallelWith_spec (horderly : Orderly batch) (hcomparable : Comparable batch base)
    {pick : Nat → List IngressOrdinal → Nat}
    (hpick : ∀ round pool, pool ≠ [] → pick round pool < pool.length) :
    ∃ f done releases, parallelWith batch pick = some { f.bench.run with
        trace := f.bench.interpreter.trace
        stalled := [] } ∧
      Running batch base done releases f ∧ done.Perm batch := by
  have hopening : Opening batch [] ⟨.new, .new, .new⟩ :=
    ⟨admits_new, ⟨0, .new, fun n _ => Nat.zero_le n⟩, released_new⟩
  obtain ⟨s, hadmitted, hopen⟩ := admitOne_all horderly hcomparable rfl hopening
  obtain ⟨bound, htracks, -⟩ := hopen.board
  have hpublished : s.scheduler.published = fun _ => none := htracks.published
  have hrunning : Running batch base [] []
      ⟨s.graph, s.scheduler, ⟨.new, s.publisher, .empty⟩, []⟩ := by
    refine ⟨⟨_, hopen.graph.indexed⟩, ⟨bound, ?_⟩, ?_, ⟨reflects_new batch base, chronicles_empty⟩,
      hopen.released, ?_⟩
    · dsimp only
      rw [hpublished]
      exact htracks
    · dsimp only
      rw [hpublished]
      exact standing_none base
    · exact ⟨fun u hu => (List.not_mem_nil hu).elim, fun t ht => (List.not_mem_nil ht).elim, .nil,
        .nil, .nil, fun o ho => (List.not_mem_nil ho).elim⟩
  obtain ⟨f, done, releases, hloop, hdone, hperm⟩ :=
    @parallelLoop_spec batch base horderly hcomparable pick hpick (batch.length + 1) 0 [] [] _
      hrunning (by simp)
  refine ⟨f, done, releases, ?_, hdone, hperm⟩
  simp only [parallelWith, hadmitted, hloop, Option.bind_eq_bind, Option.bind_some,
    hdone.stalled_eq_nil hperm]
  rfl

end Run

/-- **Every schedule means what ingress order means.**  An eligible batch runs to its end in
ingress order, and in every order in which a caller may pick from what the readiness service
offers: no run stalls, and whatever is picked, the two runs are equivalent. -/
theorem schedules_agree {batch : List DeviceTransaction} {base : StampSlot → StampValue}
    (heligible : eligible batch = some (.ok ())) (hcomparable : Comparable batch base) :
    ∃ s, serial batch = some s ∧
      (∀ pick : Nat → List IngressOrdinal → Nat,
        (∀ round pool, pool ≠ [] → pick round pool < pool.length) →
        ∃ p, parallelWith batch pick = some p ∧ equivalent s p = .ok () ∧ p.stalled = []) ∧
      ∀ seed, ∃ p, parallel batch seed = some p ∧ equivalent s p = .ok () ∧ p.stalled = [] := by
  have horderly := orderly_of_eligible heligible
  obtain ⟨b, left, hserial, hran⟩ := serial_spec horderly hcomparable
  have hany : ∀ pick : Nat → List IngressOrdinal → Nat,
      (∀ round pool, pool ≠ [] → pick round pool < pool.length) →
      ∃ p, parallelWith batch pick = some p ∧
        equivalent { b.run with trace := b.interpreter.trace } p = .ok () ∧ p.stalled = [] := by
    intro pick hpick
    obtain ⟨f, done, right, hparallel, hdone, hperm⟩ :=
      parallelWith_spec horderly hcomparable hpick
    refine ⟨_, hparallel, ?_, rfl⟩
    refine equivalent_of_kept (horderly.posed hcomparable) hran.kept hdone.kept hperm
      hdone.course.order (fun c => ?_) []
    have hbook : bookOf batch done c = bookOf batch batch c := by
      refine List.map_congr_left fun tx _ => ?_
      simp only [fateOf, (hperm.map DeviceTransaction.ingress).mem_iff]
    rw [hran.released.releases c, hdone.released.releases c, hbook]
  refine ⟨_, hserial, hany, fun seed => hany _ fun round pool hpool => ?_⟩
  exact Nat.mod_lt _ (List.length_pos_iff.mpr hpool)

/-- A surface that is drawn, shown, drawn over by an older version and shown again, and a
transaction of another channel that waits for the first one's event. -/
def shownTwice : List DeviceTransaction :=
  let surface : ResourceKey := ⟨7, none⟩
  let draw (bytes : ByteRange) (version : ContentVersion) : AccessIntent :=
    ⟨1, .range surface bytes, .write, some version⟩
  let frame : PresentPayload :=
    { mapping := 3
      accesses := [⟨1, .range surface ⟨0, 16⟩, .read, none⟩]
      named := by decide
      reads := by decide }
  [⟨⟨.first, 1, 1, 1⟩, [], some ⟨0, 1⟩,
      .exec ⟨[[.event ⟨.signal, ⟨1, 1⟩, 3⟩]], [draw ⟨0, 16⟩ 5], [], []⟩⟩,
    ⟨⟨.first, 2, 1, 2⟩, [], none, .present frame⟩,
    ⟨⟨.first, 1, 2, 4⟩, [⟨0, 1⟩], some ⟨0, 2⟩, .exec ⟨[], [draw ⟨8, 16⟩ 4], [], []⟩⟩,
    ⟨⟨.first, 2, 2, 5⟩, [], some ⟨1, 9⟩, .present frame⟩,
    ⟨⟨.first, 3, 1, 6⟩, [⟨1, 9⟩], none, .exec ⟨[], [], [], [.event ⟨1, 1⟩ 2]⟩⟩]

theorem shownTwice_eligible : eligible shownTwice = some (.ok ()) := by
  have hsorted : (WaitGraph.of shownTwice).mergeSort (fun a b => a.ordinal ≤ b.ordinal) =
      WaitGraph.of shownTwice := List.mergeSort_of_pairwise (by decide)
  have hanswered : unansweredWait (.of shownTwice) = none := by
    rw [unansweredWait, WaitGraph.unproduced, hsorted]
    decide +kernel
  rw [eligible, hanswered]
  decide +kernel

theorem shownTwice_comparable : Comparable shownTwice fun _ => 0 where
  session := by decide
  channels := by decide
  stamps := by decide
  waits := by decide
  named := by decide
  frames := by decide +kernel

theorem schedules_agree_shownTwice :
    ∃ s, serial shownTwice = some s ∧
      (∀ pick : Nat → List IngressOrdinal → Nat,
        (∀ round pool, pool ≠ [] → pick round pool < pool.length) →
        ∃ p, parallelWith shownTwice pick = some p ∧ equivalent s p = .ok () ∧ p.stalled = []) ∧
      ∀ seed, ∃ p, parallel shownTwice seed = some p ∧ equivalent s p = .ok () ∧
        p.stalled = [] :=
  schedules_agree shownTwice_eligible shownTwice_comparable

end Orchard.Plane
