/-
  Plane/Chronicle.lean --- what a run writes down.

  Beside the trace a run keeps the span of each transaction's observations, what each channel
  released and where its stamps landed.  A run that completes transactions and pays releases
  writes these down so that no span is interrupted and no stamp precedes its span.
-/
import Orchard.Plane.Script

set_option autoImplicit false

namespace Orchard.Plane

/-- The record of a run in which some transactions have completed and some positions have been
released. -/
structure Chronicles (done : List DeviceTransaction) (releases : List (ChannelId × Release))
    (log : List Observation) (run : Run) : Prop where
  order : run.order = done.map DeviceTransaction.ingress
  releases : run.releases = releases
  apart : run.spans.Pairwise fun a b => a.2.2 ≤ b.2.1
  within : ∀ s ∈ run.spans, s.2.1 ≤ s.2.2 ∧ s.2.2 ≤ log.length
  quiet : ∀ s ∈ run.spans, ∀ k, s.2.1 ≤ k → k < s.2.2 → ∀ o ∈ log[k]?, o.stamp = none
  stamped : ∀ e ∈ run.stampAt, (∃ o ∈ log[e.2]?, o.stamp.isSome = true) ∧
    ∃ s ∈ run.spans, s.1 = e.1 ∧ s.2.2 ≤ e.2

theorem chronicles_empty : Chronicles [] [] [] .empty where
  order := rfl
  releases := rfl
  apart := .nil
  within _ h := by cases h
  quiet _ h := by cases h
  stamped _ h := by cases h

variable {done : List DeviceTransaction} {releases : List (ChannelId × Release)}
  {log new : List Observation} {run : Run}

/-- What is behind in a trace stays as it is. -/
theorem getElem?_append_of_mem {k : Nat} {o : Observation} (h : o ∈ log[k]?) :
    o ∈ (log ++ new)[k]? := by
  rw [Option.mem_def] at h ⊢
  rw [List.getElem?_append_left (List.getElem?_eq_some_iff.mp h).1]
  exact h

theorem mem_of_getElem?_append {k : Nat} (hk : k < log.length) {o : Observation}
    (h : o ∈ (log ++ new)[k]?) : o ∈ log[k]? := by
  rw [List.getElem?_append_left hk] at h
  exact h

/-- A trace may grow without a span. -/
theorem Chronicles.grow (h : Chronicles done releases log run) (new : List Observation) :
    Chronicles done releases (log ++ new) run where
  order := h.order
  releases := h.releases
  apart := h.apart
  within s hs := by
    obtain ⟨h1, h2⟩ := h.within s hs
    rw [List.length_append]
    exact ⟨h1, Nat.le_trans h2 (Nat.le_add_right _ _)⟩
  quiet s hs k hlo hhi o ho :=
    h.quiet s hs k hlo hhi o
      (mem_of_getElem?_append (Nat.lt_of_lt_of_le hhi (h.within s hs).2) ho)
  stamped e he := by
    obtain ⟨⟨o, ho, hstamp⟩, hspan⟩ := h.stamped e he
    exact ⟨⟨o, getElem?_append_of_mem ho, hstamp⟩, hspan⟩

/-- A completed transaction's observations are one span. -/
theorem Chronicles.complete (h : Chronicles done releases log run)
    (hquiet : ∀ o ∈ new, o.stamp = none) (tx : DeviceTransaction) :
    Chronicles (done ++ [tx]) releases (log ++ new)
      { run with spans := run.spans ++ [(tx.ingress, log.length, (log ++ new).length)] } where
  order := by
    have horder := h.order
    simp only [Run.order] at horder
    simp [Run.order, horder]
  releases := h.releases
  apart := by
    rw [List.pairwise_append]
    refine ⟨h.apart, List.pairwise_singleton _ _, fun a ha b hb => ?_⟩
    rw [List.mem_singleton.mp hb]
    exact (h.within a ha).2
  within s hs := by
    rcases List.mem_append.mp hs with hs | hs
    · exact (h.grow new).within s hs
    · rw [List.mem_singleton.mp hs]
      exact ⟨by simp, Nat.le_refl _⟩
  quiet s hs k hlo hhi o ho := by
    rcases List.mem_append.mp hs with hs | hs
    · exact (h.grow new).quiet s hs k hlo hhi o ho
    · rw [List.mem_singleton.mp hs] at hlo
      rw [Option.mem_def, List.getElem?_append_right hlo] at ho
      exact hquiet o (List.mem_of_getElem? ho)
  stamped e he := by
    obtain ⟨hstamp, s, hs, hspan⟩ := (h.grow new).stamped e he
    exact ⟨hstamp, s, List.mem_append_left _ hs, hspan⟩

/-- A release is written down. -/
theorem Chronicles.release (h : Chronicles done releases log run) (domain : ChannelId)
    (r : Release) :
    Chronicles done (releases ++ [(domain, r)]) log
      { run with releases := run.releases ++ [(domain, r)] } :=
  ⟨h.order, by rw [h.releases], h.apart, h.within, h.quiet, h.stamped⟩

/-- A stamp lands behind the span of its transaction. -/
theorem Chronicles.stamp (h : Chronicles done releases log run) {u : DeviceTransaction}
    (hu : u ∈ done) {o : Observation} (ho : o.stamp.isSome = true) :
    Chronicles done releases (log ++ [o])
      { run with stampAt := run.stampAt ++ [(u.ingress, log.length)] } where
  order := h.order
  releases := h.releases
  apart := h.apart
  within := (h.grow [o]).within
  quiet := (h.grow [o]).quiet
  stamped e he := by
    rcases List.mem_append.mp he with he | he
    · exact (h.grow [o]).stamped e he
    · rw [List.mem_singleton.mp he]
      refine ⟨⟨o, by simp, ho⟩, ?_⟩
      have hin : u.ingress ∈ run.order := by
        rw [h.order]
        exact List.mem_map_of_mem hu
      obtain ⟨s, hs, hfst⟩ := List.mem_map.mp hin
      exact ⟨s, hs, hfst, (h.within s hs).2⟩

/-! ## Paying -/

section Batch

variable {batch : List DeviceTransaction} {base : StampSlot → StampValue}
  {Before : DeviceTransaction → DeviceTransaction → Prop} {paid : List CompletionStamp}
  {i : Interpreter}

theorem Posed.eq_of_position (h : Posed batch base Before) {a b : DeviceTransaction}
    (ha : a ∈ batch) (hb : b ∈ batch) (hdomain : a.domain = b.domain)
    (hsequence : a.sequence = b.sequence) : a = b := by
  have hnodup : (batch.map fun tx => (tx.domain, tx.sequence)).Nodup := by
    refine List.pairwise_map.mpr (h.channels.imp fun hlt heq => ?_)
    exact Nat.ne_of_lt (hlt (congrArg Prod.fst heq)) (congrArg Prod.snd heq)
  exact List.inj_on_of_nodup_map hnodup ha hb (Prod.ext hdomain hsequence)

theorem Posed.positionOf_eq (h : Posed batch base Before) {u : DeviceTransaction}
    (hu : u ∈ batch) : positionOf batch u.domain u.sequence = some u.ingress := by
  unfold positionOf
  cases hfind : batch.reverse.find? fun tx => tx.domain = u.domain && tx.sequence = u.sequence with
  | none =>
    have := List.find?_eq_none.mp hfind u (List.mem_reverse.mpr hu)
    simp at this
  | some v =>
    have hv := List.mem_reverse.mp (List.mem_of_find?_eq_some hfind)
    have hmatch := List.find?_some hfind
    simp only [Bool.and_eq_true, decide_eq_true_eq] at hmatch
    rw [h.eq_of_position hv hu hmatch.1 hmatch.2]
    rfl

/-- A release is the position of a completed transaction, with the stamp it owes. -/
def Owes (done : List DeviceTransaction) (domain : ChannelId) (r : Release) : Prop :=
  ∃ u ∈ done, u.domain = domain ∧ u.sequence = r.sequence ∧ u.completion = r.stamp

theorem payOne_spec (hposed : Posed batch base Before) (hdone : ∀ u ∈ done, u ∈ batch)
    (h : Reflects batch base done paid i) (hrun : Chronicles done releases i.trace run)
    {domain : ChannelId} {r : Release} (hr : Owes done domain r) :
    ∃ i' run', payOne batch domain (i, run) r = some (i', run') ∧
      Reflects batch base done (paid ++ r.stamp.toList) i' ∧
      Chronicles done (releases ++ [(domain, r)]) i'.trace run' := by
  obtain ⟨u, hu, rfl, hsequence, hstamp⟩ := hr
  unfold payOne
  dsimp only
  cases hc : r.stamp with
  | none =>
    refine ⟨i, _, rfl, ?_, hrun.release u.domain r⟩
    simpa using h
  | some c =>
    have hwindow := hposed.stamps u (hdone u hu) c (by rw [hstamp, hc]; rfl)
    have hpublish := h.publish hwindow
    dsimp only
    obtain ⟨new, hgrows, rfl | rfl⟩ := grows_publish i c
    · have hsame : (i.publish c).trace = i.trace := hgrows.trace.trans (List.append_nil _)
      rw [if_neg (by rw [hsame]; exact Nat.lt_irrefl _)]
      refine ⟨_, _, rfl, hpublish, ?_⟩
      rw [hsame]
      exact hrun.release u.domain r
    · rw [if_pos (by rw [hgrows.trace, List.length_append]; exact Nat.lt_succ_self _),
        ← hsequence, hposed.positionOf_eq (hdone u hu)]
      refine ⟨_, _, rfl, hpublish, ?_⟩
      rw [hgrows.trace]
      exact (hrun.stamp hu rfl).release u.domain r

/-- Paying what a channel has released. -/
theorem pay_spec (hposed : Posed batch base Before) (hdone : ∀ u ∈ done, u ∈ batch)
    {domain : ChannelId} {released : List Release} :
    ∀ {paid : List CompletionStamp} {i : Interpreter} {releases : List (ChannelId × Release)}
      {run : Run}, Reflects batch base done paid i → Chronicles done releases i.trace run →
      (∀ r ∈ released, Owes done domain r) →
      ∃ i' run', pay batch domain released (i, run) = some (i', run') ∧
        Reflects batch base done (paid ++ released.filterMap Release.stamp) i' ∧
        Chronicles done (releases ++ released.map fun r => (domain, r)) i'.trace run' := by
  induction released with
  | nil =>
    intro paid i releases run h hrun _
    exact ⟨i, run, rfl, by simpa using h, by simpa using hrun⟩
  | cons r rest ih =>
    intro paid i releases run h hrun howes
    obtain ⟨i₁, run₁, hpay, h₁, hrun₁⟩ :=
      payOne_spec hposed hdone h hrun (howes r List.mem_cons_self)
    obtain ⟨i₂, run₂, hrest, h₂, hrun₂⟩ :=
      ih h₁ hrun₁ fun q hq => howes q (List.mem_cons_of_mem r hq)
    refine ⟨i₂, run₂, ?_, ?_, ?_⟩
    · rw [pay, List.foldlM_cons, hpay]
      exact hrest
    · rw [List.append_assoc] at h₂
      cases hstamp : r.stamp <;> simpa [hstamp] using h₂
    · rw [List.append_assoc] at hrun₂
      exact hrun₂

/-- A run that has completed and released, as its bench keeps it. -/
structure Kept (batch : List DeviceTransaction) (base : StampSlot → StampValue)
    (done : List DeviceTransaction) (releases : List (ChannelId × Release)) (b : Bench) : Prop where
  interpreter : Reflects batch base done (releases.filterMap fun e => e.2.stamp) b.interpreter
  run : Chronicles done releases b.interpreter.trace b.run

/-- A transaction may complete next. -/
structure Due (batch : List DeviceTransaction)
    (Before : DeviceTransaction → DeviceTransaction → Prop) (done : List DeviceTransaction)
    (paid : List CompletionStamp) (tx : DeviceTransaction) : Prop where
  mem : tx ∈ batch
  fresh : tx ∉ done
  before : ∀ u ∈ batch, Before u tx → u ∈ done
  after : ∀ u ∈ done, ¬Before tx u
  stamps : ∀ w ∈ tx.stampWaits, ∃ c ∈ paid, c.slot = w.slot ∧
    StampValue.reached c.value w.value = true
  events : ∀ event value, .event event value ∈ tx.payload.prerequisites →
    ∃ u ∈ done, ∃ v ∈ signalsAt event u.payload.records, value ≤ v

/-- Completing a transaction that is due: it is accepted, and what its channel releases is
paid. -/
theorem Kept.finish (hposed : Posed batch base Before) (hdone : ∀ u ∈ done, u ∈ batch) {b : Bench}
    (h : Kept batch base done releases b) {tx : DeviceTransaction}
    (hdue : Due batch Before done (releases.filterMap fun e => e.2.stamp) tx)
    (stampOf : Option CompletionStamp → Option CompletionStamp)
    (hstamp : stampOf tx.completion = tx.completion) {publisher : Publisher}
    {released : List Release}
    (hpublisher : b.publisher.complete tx.domain tx.sequence tx.completion =
      some (publisher, released))
    (howes : ∀ r ∈ released, Owes (done ++ [tx]) tx.domain r) :
    ∃ b', b.finish batch tx stampOf = some (b', released) ∧ b'.publisher = publisher ∧
      Kept batch base (done ++ [tx]) (releases ++ released.map fun r => (tx.domain, r)) b' := by
  have hwaits : ∀ w ∈ tx.stampWaits, b.interpreter.meets w = true := fun w hw => by
    obtain ⟨c, hc, hslot, hreached⟩ := hdue.stamps w hw
    exact h.interpreter.meets (hposed.waits tx hdue.mem w hw) hc hslot hreached
  have hprerequisites : ∀ p ∈ tx.payload.prerequisites, b.interpreter.satisfies p = true := by
    intro p hp
    cases p with
    | event event value =>
      obtain ⟨u, hu, v, hv, hle⟩ := hdue.events event value hp
      exact h.interpreter.satisfies hu hv hle
    | fence fence => exact absurd hp (hposed.unfenced tx hdue.mem fence)
  have hcomplete :=
    h.interpreter.complete (hposed.session tx hdue.mem) hwaits hprerequisites
  obtain ⟨new, htrace, hquiet, hreflects⟩ :=
    h.interpreter.worked hposed hdone hdue.mem hdue.fresh hdue.before hdue.after
  have hrun := h.run.complete hquiet tx
  rw [← htrace] at hrun
  have hdone' : ∀ u ∈ done ++ [tx], u ∈ batch := by
    intro u hu
    rcases List.mem_append.mp hu with hu | hu
    · exact hdone u hu
    · rw [List.mem_singleton.mp hu]
      exact hdue.mem
  obtain ⟨i', run', hpay, hreflects', hrun'⟩ := pay_spec hposed hdone' hreflects hrun howes
  refine ⟨⟨i', publisher, run'⟩, ?_, rfl, ?_, hrun'⟩
  · simp only [Bench.finish, hcomplete, hstamp, hpublisher, Option.bind_eq_bind, Option.bind_some,
      hpay]
    rfl
  · rw [List.filterMap_append, List.filterMap_map]
    exact hreflects'

end Batch

end Orchard.Plane
