/-
  Plane/Script.lean --- what a run of a batch means, whatever its order.

  A run completes transactions one after another and pays the stamps their channels release.
  As long as every transaction is completed after those that have to come before it, and when
  what it waits for has been published, the interpreter accepts it and it shows what it shows
  when the batch runs in ingress order.
-/
import Mathlib.Order.Bounds.Basic
import Orchard.Foundation.Reordering
import Orchard.Plane.Visible

set_option autoImplicit false

namespace Orchard.Plane

open Orchard.Content Orchard.Foundation

/-! ## The highest of some versions -/

/-- The option is the highest of some versions, and `none` if there are none. -/
def Newest (versions : Set ContentVersion) : Option ContentVersion → Prop
  | none => versions = ∅
  | some v => IsGreatest versions v

theorem Newest.unique {versions : Set ContentVersion} {a b : Option ContentVersion}
    (ha : Newest versions a) (hb : Newest versions b) : a = b := by
  cases a with
  | none =>
    cases b with
    | none => rfl
    | some w => exact absurd (ha ▸ hb.1) (Set.notMem_empty w)
  | some v =>
    cases b with
    | none => exact absurd (hb ▸ ha.1) (Set.notMem_empty v)
    | some w => exact congrArg some (IsGreatest.unique ha hb)

theorem Newest.insert {versions : Set ContentVersion} {a : Option ContentVersion}
    (ha : Newest versions a) (v : ContentVersion) :
    Newest (insert v versions) (a.merge max (some v)) := by
  cases a with
  | none =>
    rw [show versions = ∅ from ha]
    exact ⟨Set.mem_insert v _, by simp [upperBounds]⟩
  | some w =>
    rw [Set.insert_eq, Set.union_comm]
    exact ha.union isGreatest_singleton

/-! ## Batches -/

/-- The versions that some transactions claim at a byte. -/
def targetsAt (done : List DeviceTransaction) (backing : BackingId) (x : Nat) :
    Set ContentVersion :=
  { v | ∃ tx ∈ done, ∃ p ∈ tx.written, p.Covers backing x ∧ p.target = v }

/-- The content once some transactions have completed. -/
def contentOf (done : List DeviceTransaction) : ContentLedger :=
  (done.flatMap DeviceTransaction.written).foldl land .new

/-- What a transaction shows once everything before it in ingress order has completed. -/
def visible (batch : List DeviceTransaction) (tx : DeviceTransaction) : List Observation :=
  shownBy (contentOf (batch.filter fun u => u.ingress < tx.ingress)) tx

/-- A batch with an order `Before` that covers its conflicts, and a window for each stamp
slot. -/
structure Posed (batch : List DeviceTransaction) (base : StampSlot → StampValue)
    (Before : DeviceTransaction → DeviceTransaction → Prop) : Prop where
  ascending : batch.Pairwise fun a b => a.ingress < b.ingress
  channels : batch.Pairwise fun a b => a.domain = b.domain → a.sequence < b.sequence
  session : ∀ tx ∈ batch, tx.identity.session = .first
  unfenced : ∀ tx ∈ batch, ∀ fence, .fence fence ∉ tx.payload.prerequisites
  stamps : ∀ tx ∈ batch, ∀ c ∈ tx.completion, StampValue.rank (base c.slot) c.value < 2 ^ 31
  waits : ∀ tx ∈ batch, ∀ w ∈ tx.stampWaits, StampValue.rank (base w.slot) w.value < 2 ^ 31
  claims : ∀ a ∈ batch, ∀ b ∈ batch, a.ingress < b.ingress → ∀ p ∈ a.written,
    ∀ q ∈ b.written, p.region.mayAlias q.region = true → Before a b
  named : ∀ tx ∈ batch, ∀ p ∈ tx.written, p.region.mayAlias p.region = true
  frames : ∀ a ∈ batch, ∀ b ∈ batch, a.ingress < b.ingress → a.domain = b.domain →
    (∃ p, a.payload = .present p) → (∃ p, b.payload = .present p) → Before a b

section Batch

variable {batch : List DeviceTransaction} {base : StampSlot → StampValue}
  {Before : DeviceTransaction → DeviceTransaction → Prop}

theorem eq_of_ingress {txs : List DeviceTransaction}
    (h : txs.Pairwise fun a b => a.ingress < b.ingress) {a b : DeviceTransaction} (ha : a ∈ txs)
    (hb : b ∈ txs) (heq : a.ingress = b.ingress) : a = b :=
  List.inj_on_of_nodup_map (nodup_map_of_sorted DeviceTransaction.ingress h) ha hb heq

theorem Posed.eq_of_ingress (h : Posed batch base Before) {a b : DeviceTransaction}
    (ha : a ∈ batch) (hb : b ∈ batch) (heq : a.ingress = b.ingress) : a = b :=
  Orchard.Plane.eq_of_ingress h.ascending ha hb heq

theorem mem_publishedVersions {accesses : List AccessIntent} {p : VersionPublication}
    (h : p ∈ publishedVersions accesses) :
    p.region.resource.map ResourceKey.backing = some p.backing := by
  obtain ⟨access, -, hclaim⟩ := List.mem_filterMap.mp h
  unfold AccessIntent.publication at hclaim
  split at hclaim
  · rename_i r _ hresource
    cases hclaim
    simp [hresource]
  · cases hclaim

theorem mem_written {tx : DeviceTransaction} {p : VersionPublication} (h : p ∈ tx.written) :
    p ∈ publishedVersions tx.accesses := by
  unfold DeviceTransaction.written at h
  split at h
  · cases h
  · exact h
  · exact h
  · exact h

theorem region_of_covers {tx : DeviceTransaction} {p : VersionPublication} (hp : p ∈ tx.written)
    {backing : BackingId} {x : Nat} (hx : p.Covers backing x) :
    ∃ r bytes, p.region = .range r bytes ∧ bytes.Named ∧ bytes.Has x ∧ r.backing = backing := by
  obtain ⟨hbacking, bytes, hbytes, hhas⟩ := hx
  have hresource := mem_publishedVersions (mem_written hp)
  unfold bytesOf at hbytes
  split at hbytes
  · rename_i r range hregion
    split at hbytes
    · rename_i hnamed
      cases hbytes
      rw [hregion] at hresource
      exact ⟨r, range, hregion, hnamed, hhas, (Option.some.inj hresource).trans hbacking⟩
    · cases hbytes
  · cases hbytes

/-- Two claims that cover one byte may alias. -/
theorem mayAlias_of_covers {a b : DeviceTransaction} {p q : VersionPublication}
    (hp : p ∈ a.written) (hq : q ∈ b.written) {backing : BackingId} {x : Nat}
    (hpx : p.Covers backing x) (hqx : q.Covers backing x) :
    p.region.mayAlias q.region = true := by
  obtain ⟨r, range, hr, hnamed, hhas, hbacking⟩ := region_of_covers hp hpx
  obtain ⟨r', range', hr', hnamed', hhas', hbacking'⟩ := region_of_covers hq hqx
  have hoverlap : range.overlaps range' = true :=
    (ByteRange.overlaps_iff hnamed hnamed').mpr ⟨x, hhas, hhas'⟩
  rw [hr, hr']
  simp [AccessKey.mayAlias, AccessKey.resource, hbacking, hbacking', hoverlap]

theorem undeclared_foldl {content : ContentLedger} (h : Undeclared content)
    (claims : List VersionPublication) : Undeclared (claims.foldl land content) := by
  induction claims generalizing content with
  | nil => exact h
  | cons p rest ih => exact ih (undeclared_land h p)

theorem newest_foldl_land (claims : List VersionPublication) {backing : BackingId} {x : Nat} :
    ∀ {content : ContentLedger} {versions : Set ContentVersion},
      Newest versions (heldAt content backing x) →
      Newest (versions ∪ { v | ∃ p ∈ claims, p.Covers backing x ∧ p.target = v })
        (heldAt (claims.foldl land content) backing x) := by
  induction claims with
  | nil =>
    intro content versions h
    simpa using h
  | cons p rest ih =>
    intro content versions h
    rw [List.foldl_cons]
    by_cases hp : p.Covers backing x
    · have hnext := @ih (land content p) (insert p.target versions) (by
        rw [heldAt_land_of_covers hp]
        exact h.insert p.target)
      refine Eq.subst (motive := fun s => Newest s _) (Set.ext fun v => ?_) hnext
      simp only [Set.mem_union, Set.mem_insert_iff, Set.mem_ofPred_eq, List.mem_cons,
        exists_eq_or_imp, hp, true_and]
      grind
    · have hnext := @ih (land content p) versions (by
        rw [heldAt_land_of_not_covers hp]
        exact h)
      refine Eq.subst (motive := fun s => Newest s _) (Set.ext fun v => ?_) hnext
      simp [hp]

/-- The content after some transactions holds the highest version claimed at each byte. -/
theorem newest_contentOf (done : List DeviceTransaction) (backing : BackingId) (x : Nat) :
    Newest (targetsAt done backing x) (heldAt (contentOf done) backing x) := by
  have hinit : Newest ∅ (heldAt .new backing x) := rfl
  refine Eq.subst (motive := fun s => Newest s _) (Set.ext fun v => ?_)
    (newest_foldl_land (done.flatMap DeviceTransaction.written) hinit)
  simp only [targetsAt, Set.empty_union, Set.mem_ofPred_eq, List.mem_flatMap]
  constructor
  · rintro ⟨p, ⟨tx, htx, hp⟩, hx⟩
    exact ⟨tx, htx, p, hp, hx⟩
  · rintro ⟨tx, htx, p, hp, hx⟩
    exact ⟨p, ⟨tx, htx, hp⟩, hx⟩

/-! ## Stamp slots -/

/-- Each slot stands at the furthest of the stamps that have been paid into it. -/
structure Standing (base : StampSlot → StampValue) (paid : List CompletionStamp)
    (points : StampSlot → Option StampValue) : Prop where
  windowed : ∀ c ∈ paid, StampValue.rank (base c.slot) c.value < 2 ^ 31
  reaches : ∀ c ∈ paid, ∃ v, points c.slot = some v ∧
    StampValue.rank (base c.slot) c.value ≤ StampValue.rank (base c.slot) v
  fromPaid : ∀ slot v, points slot = some v → ⟨slot, v⟩ ∈ paid

section Slots

variable {paid : List CompletionStamp} {points : StampSlot → Option StampValue}
  {c : CompletionStamp}

theorem standing_none (base : StampSlot → StampValue) : Standing base [] fun _ => none where
  windowed _ h := by cases h
  reaches _ h := by cases h
  fromPaid _ _ h := by cases h

theorem Standing.window (h : Standing base paid points) {slot : StampSlot} {v : StampValue}
    (hv : points slot = some v) : StampValue.rank (base slot) v < 2 ^ 31 :=
  h.windowed _ (h.fromPaid slot v hv)

/-- A stamp that does not advance its slot changes nothing. -/
theorem Standing.later_eq (h : Standing base paid points)
    (hc : StampValue.rank (base c.slot) c.value < 2 ^ 31) {v : StampValue}
    (hv : points c.slot = some v) (hnot : ¬StampValue.follows c.value v = true) :
    StampValue.later v c.value = v := by
  rw [StampValue.follows_iff hc (h.window hv)] at hnot
  rcases Nat.lt_or_eq_of_le (Nat.not_lt.mp hnot) with hlt | heq
  · rw [StampValue.later, if_pos ((StampValue.follows_iff (h.window hv) hc).mpr hlt)]
  · rw [StampValue.rank_injective (base c.slot) heq, StampValue.later_self]

/-- The point a stamp leaves in its slot is one of the two, and not below either. -/
theorem Standing.later_spec (h : Standing base paid points)
    (hc : StampValue.rank (base c.slot) c.value < 2 ^ 31) :
    (StampValue.later ((points c.slot).getD c.value) c.value = c.value ∨
        points c.slot = some (StampValue.later ((points c.slot).getD c.value) c.value)) ∧
      StampValue.rank (base c.slot) c.value ≤ StampValue.rank (base c.slot)
        (StampValue.later ((points c.slot).getD c.value) c.value) ∧
      ∀ v, points c.slot = some v → StampValue.rank (base c.slot) v ≤
        StampValue.rank (base c.slot)
          (StampValue.later ((points c.slot).getD c.value) c.value) := by
  cases hv : points c.slot with
  | none =>
    rw [Option.getD_none, StampValue.later_self]
    exact ⟨Or.inl rfl, Nat.le_refl _, fun v hv => by cases hv⟩
  | some v =>
    rw [Option.getD_some]
    by_cases hfollows : StampValue.follows c.value v = true
    · rw [StampValue.later_eq_of_follows hfollows]
      rw [StampValue.follows_iff hc (h.window hv)] at hfollows
      refine ⟨Or.inl rfl, Nat.le_refl _, fun w hw => ?_⟩
      cases hw
      exact Nat.le_of_lt hfollows
    · rw [h.later_eq hc hv hfollows]
      rw [StampValue.follows_iff hc (h.window hv)] at hfollows
      refine ⟨Or.inr rfl, Nat.not_lt.mp hfollows, fun w hw => ?_⟩
      cases hw
      exact Nat.le_refl _

/-- Paying a stamp moves its slot to the later of the two points. -/
theorem Standing.pay (h : Standing base paid points)
    (hc : StampValue.rank (base c.slot) c.value < 2 ^ 31) :
    Standing base (paid ++ [c]) (Function.update points c.slot
      (some (StampValue.later ((points c.slot).getD c.value) c.value))) := by
  obtain ⟨hone, hpaid, hstood⟩ := h.later_spec hc
  constructor
  · intro d hd
    rcases List.mem_append.mp hd with hd | hd
    · exact h.windowed d hd
    · rw [List.mem_singleton.mp hd]
      exact hc
  · intro d hd
    by_cases hslot : d.slot = c.slot
    · rw [hslot, Function.update_self]
      refine ⟨_, rfl, ?_⟩
      rcases List.mem_append.mp hd with hd | hd
      · obtain ⟨v, hv, hle⟩ := h.reaches d hd
        rw [hslot] at hv hle
        exact Nat.le_trans hle (hstood v hv)
      · rw [List.mem_singleton.mp hd]
        exact hpaid
    · rw [Function.update_of_ne hslot]
      rcases List.mem_append.mp hd with hd | hd
      · exact h.reaches d hd
      · exact absurd (congrArg CompletionStamp.slot (List.mem_singleton.mp hd)) hslot
  · intro slot v hv
    by_cases hslot : slot = c.slot
    · subst hslot
      rw [Function.update_self] at hv
      cases hv
      rcases hone with heq | hold
      · exact List.mem_append_right _ (by rw [heq]; exact List.mem_cons_self)
      · exact List.mem_append_left _ (h.fromPaid _ _ hold)
    · rw [Function.update_of_ne hslot] at hv
      exact List.mem_append_left _ (h.fromPaid slot v hv)

/-- A paid stamp lets the slot it went into reach what it reaches. -/
theorem Standing.reached_of_paid (h : Standing base paid points) (hc : c ∈ paid)
    {value : StampValue} (hvalue : StampValue.rank (base c.slot) value < 2 ^ 31)
    (hreached : StampValue.reached c.value value = true) :
    ∃ v, points c.slot = some v ∧ StampValue.reached v value = true := by
  obtain ⟨v, hv, hle⟩ := h.reaches c hc
  rw [StampValue.reached_iff (h.windowed c hc) hvalue] at hreached
  exact ⟨v, hv, (StampValue.reached_iff (h.window hv) hvalue).mpr (Nat.le_trans hreached hle)⟩

end Slots

/-! ## The interpreter -/

/-- What the interpreter knows once some transactions have completed and some stamps have been
paid. -/
structure Reflects (batch : List DeviceTransaction) (base : StampSlot → StampValue)
    (done : List DeviceTransaction) (paid : List CompletionStamp) (i : Interpreter) : Prop where
  generation : i.generation = .first
  answers : i.answers = none
  undeclared : Undeclared i.content
  advances : i.trace.foldlM advance (fun _ => none, fun _ => none) = some (i.stamps, i.events)
  events : ∀ event, i.eventGeneration event =
    restingEvent (done.flatMap fun tx => signalsAt event tx.payload.records)
  standing : Standing base paid i.stamps
  held : ∀ backing x, Newest (targetsAt done backing x) (heldAt i.content backing x)
  timeless : i.trace.filter Observation.timeless = done.flatMap (visible batch)

theorem reflects_new (batch : List DeviceTransaction) (base : StampSlot → StampValue) :
    Reflects batch base [] [] .new where
  generation := rfl
  answers := rfl
  undeclared := undeclared_new
  advances := rfl
  events _ := rfl
  standing := standing_none base
  held backing x := newest_contentOf [] backing x
  timeless := rfl

variable {done : List DeviceTransaction} {paid : List CompletionStamp} {i : Interpreter}

/-- A paid stamp meets the waits it reaches. -/
theorem Reflects.meets (h : Reflects batch base done paid i) {w : StampWait}
    (hw : StampValue.rank (base w.slot) w.value < 2 ^ 31) {c : CompletionStamp} (hc : c ∈ paid)
    (hslot : c.slot = w.slot) (hreached : StampValue.reached c.value w.value = true) :
    i.meets w = true := by
  rw [← hslot] at hw
  obtain ⟨v, hv, hreach⟩ := h.standing.reached_of_paid hc hw hreached
  have hvwindow := h.standing.window hv
  have hnot : ¬StampValue.follows w.value v = true := by
    rw [StampValue.reached_iff hvwindow hw] at hreach
    rw [StampValue.follows_iff hw hvwindow]
    exact Nat.not_lt.mpr hreach
  rw [hslot] at hv
  simpa [Interpreter.meets, hv] using hnot

theorem le_restingEvent {values : List Nat} {v : Nat} (h : v ∈ values) :
    v ≤ restingEvent values := by
  induction values using List.reverseRecOn with
  | nil => cases h
  | append_singleton front w ih =>
    rw [restingEvent_concat]
    rcases List.mem_append.mp h with h | h
    · exact Nat.le_trans (ih h) (Nat.le_max_left _ _)
    · rw [List.mem_singleton.mp h]
      exact Nat.le_max_right _ _

/-- A signal that has happened satisfies the waits it reaches. -/
theorem Reflects.satisfies (h : Reflects batch base done paid i) {event : ResourceId}
    {value : Nat} {u : DeviceTransaction} (hu : u ∈ done) {v : Nat}
    (hv : v ∈ signalsAt event u.payload.records) (hle : value ≤ v) :
    i.satisfies (.event event value) = true := by
  have hin : v ∈ done.flatMap fun tx => signalsAt event tx.payload.records :=
    List.mem_flatMap.mpr ⟨u, hu, hv⟩
  have hgeneration : v ≤ i.eventGeneration event := by
    rw [h.events]
    exact le_restingEvent hin
  exact decide_eq_true (Nat.le_trans hle hgeneration)

theorem Reflects.complete (h : Reflects batch base done paid i) {tx : DeviceTransaction}
    (hsession : tx.identity.session = .first) (hwaits : ∀ w ∈ tx.stampWaits, i.meets w = true)
    (hprerequisites : ∀ p ∈ tx.payload.prerequisites, i.satisfies p = true) :
    i.complete tx = (i.work tx, .ok tx.completion) := by
  have hunmet : i.unmetPrerequisite tx = none := by
    have h1 : tx.stampWaits.all i.meets = true := List.all_eq_true.mpr hwaits
    have h2 : tx.payload.prerequisites.all i.satisfies = true :=
      List.all_eq_true.mpr hprerequisites
    simp [Interpreter.unmetPrerequisite, h1, h2]
  rw [Interpreter.complete, if_neg (by simp [hsession, h.generation]), hunmet]

/-- At the bytes a transaction writes, what has completed so far holds what everything before it
in ingress order would. -/
theorem Posed.targetsAt_eq (hposed : Posed batch base Before) (hdone : ∀ u ∈ done, u ∈ batch)
    {tx : DeviceTransaction} (htx : tx ∈ batch) (hfresh : tx ∉ done)
    (hbefore : ∀ u ∈ batch, Before u tx → u ∈ done) (hafter : ∀ u ∈ done, ¬Before tx u)
    {p : VersionPublication} (hp : p ∈ tx.written) {backing : BackingId} {x : Nat}
    (hx : p.Covers backing x) :
    targetsAt done backing x =
      targetsAt (batch.filter fun u => u.ingress < tx.ingress) backing x := by
  ext v
  simp only [targetsAt, Set.mem_ofPred_eq, List.mem_filter, decide_eq_true_eq]
  constructor
  · rintro ⟨u, hu, q, hq, hqx, rfl⟩
    refine ⟨u, ⟨hdone u hu, ?_⟩, q, hq, hqx, rfl⟩
    by_contra hlt
    rcases Nat.lt_or_eq_of_le (Nat.not_lt.mp hlt) with hgt | heq
    · exact hafter u hu (hposed.claims tx htx u (hdone u hu) hgt p hp q hq
        (mayAlias_of_covers hp hq hx hqx))
    · exact hfresh (hposed.eq_of_ingress htx (hdone u hu) heq ▸ hu)
  · rintro ⟨u, ⟨hu, hlt⟩, q, hq, hqx, rfl⟩
    refine ⟨u, hbefore u hu ?_, q, hq, hqx, rfl⟩
    exact hposed.claims u hu tx htx hlt q hq p hp (mayAlias_of_covers hq hp hqx hx)

/-- A transaction shows what it shows in ingress order. -/
theorem Reflects.shownBy_eq (h : Reflects batch base done paid i) (hposed : Posed batch base Before)
    (hdone : ∀ u ∈ done, u ∈ batch) {tx : DeviceTransaction} (htx : tx ∈ batch)
    (hfresh : tx ∉ done) (hbefore : ∀ u ∈ batch, Before u tx → u ∈ done)
    (hafter : ∀ u ∈ done, ¬Before tx u) : shownBy i.content tx = visible batch tx := by
  have hall : shownAll i.content tx.written =
      shownAll (contentOf (batch.filter fun u => u.ingress < tx.ingress)) tx.written := by
    refine shownAll_congr fun p hp backing x hx => ?_
    have hheld := h.held backing x
    rw [hposed.targetsAt_eq hdone htx hfresh hbefore hafter hp hx] at hheld
    exact hheld.unique (newest_contentOf _ backing x)
  rw [visible, shownBy, shownBy, hall]

/-- Completing a transaction in an order that respects `Before`. -/
theorem Reflects.worked (h : Reflects batch base done paid i) (hposed : Posed batch base Before)
    (hdone : ∀ u ∈ done, u ∈ batch) {tx : DeviceTransaction} (htx : tx ∈ batch)
    (hfresh : tx ∉ done) (hbefore : ∀ u ∈ batch, Before u tx → u ∈ done)
    (hafter : ∀ u ∈ done, ¬Before tx u) :
    ∃ new, (i.work tx).trace = i.trace ++ new ∧ (∀ o ∈ new, o.stamp = none) ∧
      Reflects batch base (done ++ [tx]) paid (i.work tx) := by
  obtain ⟨new, hworked⟩ := Orchard.Plane.worked h.answers h.undeclared tx
  refine ⟨new, hworked.grows.trace, hworked.quiet, ?_⟩
  constructor
  · exact hworked.grows.generation.trans h.generation
  · exact hworked.grows.answers.trans h.answers
  · rw [hworked.content]
    exact undeclared_foldl h.undeclared tx.written
  · rw [hworked.grows.trace, List.foldlM_append, h.advances]
    exact hworked.grows.advances
  · intro event
    rw [hworked.events, h.events, List.flatMap_append, restingEvent, restingEvent,
      List.foldl_append]
    simp
  · rw [hworked.stamps]
    exact h.standing
  · intro backing x
    rw [hworked.content]
    refine Eq.subst (motive := fun s => Newest s _) (Set.ext fun v => ?_)
      (newest_foldl_land tx.written (h.held backing x))
    simp only [targetsAt, Set.mem_union, Set.mem_ofPred_eq, List.mem_append, List.mem_singleton]
    grind
  · rw [hworked.grows.trace, List.filter_append, h.timeless, hworked.timeless,
      h.shownBy_eq hposed hdone htx hfresh hbefore hafter, List.flatMap_append]
    simp

/-- The interpreter moves a slot to the later of the two points, like every reader of stamps. -/
theorem Reflects.stamps_publish (h : Reflects batch base done paid i) {c : CompletionStamp}
    (hc : StampValue.rank (base c.slot) c.value < 2 ^ 31) :
    (i.publish c).stamps = Function.update i.stamps c.slot
      (some (StampValue.later ((i.stamps c.slot).getD c.value) c.value)) := by
  unfold Interpreter.publish
  cases hv : i.stamps c.slot with
  | none =>
    rw [Option.getD_none, StampValue.later_self]
    rfl
  | some v =>
    rw [Option.getD_some]
    split
    · rename_i hfollows
      rw [StampValue.later_eq_of_follows hfollows]
      rfl
    · rename_i hnot
      rw [h.standing.later_eq hc hv hnot, ← hv, Function.update_eq_self]

/-- Paying a stamp. -/
theorem Reflects.publish (h : Reflects batch base done paid i) {c : CompletionStamp}
    (hc : StampValue.rank (base c.slot) c.value < 2 ^ 31) :
    Reflects batch base done (paid ++ [c]) (i.publish c) := by
  have hstanding := h.standing.pay hc
  rw [← h.stamps_publish hc] at hstanding
  unfold Interpreter.publish at hstanding ⊢
  split at hstanding
  · rename_i hall
    rw [if_pos hall]
    refine ⟨h.generation, h.answers, h.undeclared, ?_, h.events, hstanding, h.held, ?_⟩
    · simp only [Interpreter.observe]
      rw [List.foldlM_append, h.advances]
      simp [advance, hall]
    · simp only [Interpreter.observe]
      rw [List.filter_append, h.timeless]
      exact List.append_nil _
  · rename_i hnot
    rw [if_neg hnot]
    exact ⟨h.generation, h.answers, h.undeclared, h.advances, h.events, hstanding, h.held,
      h.timeless⟩

end Batch

end Orchard.Plane
