/-
  Content/Storage.lean --- the ledger against the bytes the replicas hold.

  What the ledger is for: a replica it calls fresh for a byte holds the version of that
  byte that is current.  The replicas are modelled by the version whose bytes they hold at
  each address, and every operation of the ledger by what it records and what the work it
  records has done to the storage.  A completed write leaves its bytes in its replica also
  where newer content has beaten it.  Copies are made outside the ledger: a copy is planned,
  reads its source replica at some later moment, and its bytes are in the destination when
  it is recorded.
-/
import Orchard.Foundation.Execution
import Orchard.Content.Ledger

set_option autoImplicit false

namespace Orchard.Content

open Orchard.Foundation

/-! ## The system -/

/-- A copy under way: the transfer it was planned as and, once it has read its source, the
versions of the bytes it has read. -/
structure Copy where
  transfer : Transfer
  carried : Option (Nat → Option ContentVersion)

/-- The ledger, the version of the bytes each replica holds at each address, and the
copies that are under way. -/
structure World where
  ledger : ContentLedger
  storage : BackingId → Replica → Nat → Option ContentVersion
  inFlight : List Copy

/-- A session that has just started. -/
def World.init : World := ⟨.new, fun _ _ _ => none, []⟩

/-- The operations of the ledger, and the moment a copy reads its source. -/
inductive Action where
  | reserve (backing : BackingId)
  /-- A planned write completes. -/
  | materialize (backing : BackingId) (bytes : NamedRange) (version : ContentVersion)
      (replica : Replica)
  /-- A write that is planned and completed at once. -/
  | write (backing : BackingId) (bytes : NamedRange) (replica : Replica)
  | declare (backing : BackingId) (extent : NamedRange) (authority : Replica)
  /-- A read asks for the transfer it needs. -/
  | plan (backing : BackingId) (bytes : NamedRange) (replica : Replica)
  /-- The `i`-th copy under way reads its source. -/
  | fetch (i : Nat)
  /-- The `i`-th copy under way is done. -/
  | record (i : Nat)
  | offerDiscard (backing : BackingId) (bytes : NamedRange)
  | forget (backing : BackingId)

/-- The storage after `bytes` of one replica have been overwritten. -/
def overwrite (storage : BackingId → Replica → Nat → Option ContentVersion)
    (backing : BackingId) (replica : Replica) (bytes : ByteRange) (version : ContentVersion) :
    BackingId → Replica → Nat → Option ContentVersion :=
  fun b r x => if b = backing ∧ r = replica ∧ bytes.Has x then some version else storage b r x

/-- The storage after a copy has arrived: every byte it moves holds what it has read. -/
def deliver (storage : BackingId → Replica → Nat → Option ContentVersion) (c : Copy) :
    BackingId → Replica → Nat → Option ContentVersion :=
  fun b r x =>
    match c.carried with
    | none => storage b r x
    | some content =>
      if b = c.transfer.backing ∧ r = c.transfer.dest ∧ Holds c.transfer.bytes.ranges x then
        content x
      else storage b r x

def World.step (w : World) : Action → World
  | .reserve b => { w with ledger := (w.ledger.reserve b).1 }
  | .materialize b bytes version r =>
    { w with
      ledger := (w.ledger.materialize b bytes version r).1
      storage := overwrite w.storage b r bytes.1 version }
  | .write b bytes r =>
    { w with
      ledger := w.ledger.write b bytes r
      storage := overwrite w.storage b r bytes.1 w.ledger.nextVersion }
  | .declare b extent r =>
    { w with
      ledger := w.ledger.declare b extent r
      storage := overwrite w.storage b r extent.1 w.ledger.nextVersion }
  | .plan b bytes r =>
    let out := w.ledger.transferForRead b bytes r
    { w with ledger := out.1, inFlight := w.inFlight ++ out.2.toList.map fun t => ⟨t, none⟩ }
  | .fetch i =>
    match w.inFlight[i]? with
    | none => w
    | some c =>
      { w with
        inFlight := w.inFlight.set i
          { c with carried := some (w.storage c.transfer.backing c.transfer.source) } }
  | .record i =>
    match w.inFlight[i]? with
    | none => w
    | some c =>
      { ledger := w.ledger.recordTransfer c.transfer
        storage := deliver w.storage c
        inFlight := w.inFlight.eraseIdx i }
  | .offerDiscard b bytes => { w with ledger := (w.ledger.offerDiscard b bytes).1 }
  | .forget b => { w with ledger := w.ledger.forget b }

/-- What the ledger leaves to its callers.  The version counter does not wrap.  A completed
write is not older than what its own replica is fresh for: writes to the same memory in one
replica are ordered by their hazard.  A copy reads its source before it is recorded, and
while the source is still fresh for whatever the plan still gets right.  A backing is not
forgotten under a copy. -/
def Ordered (w : World) : Action → Prop
  | .materialize b bytes version r =>
    version < u64Max ∧
      (((w.ledger.entryOr b).canonical.applied bytes.1 version).refused.intersection
        ((w.ledger.entryOr b).freshSet r)).isEmpty = true
  | .reserve _ | .write .. | .declare .. => w.ledger.nextVersion < u64Max
  | .fetch i => ∀ c ∈ w.inFlight[i]?,
    ((ContentLedger.landed (w.ledger.entryOr c.transfer.backing) c.transfer).subtract
      ((w.ledger.entryOr c.transfer.backing).freshSet c.transfer.source)).isEmpty = true
  | .record i => ∀ c ∈ w.inFlight[i]?, c.carried.isSome = true
  | .forget b => ∀ c ∈ w.inFlight, c.transfer.backing ≠ b
  | .plan .. | .offerDiscard .. => True

instance (w : World) (a : Action) : Decidable (Ordered w a) := by
  cases a <;> unfold Ordered <;> infer_instance

/-- A copy that will not be taken for something it is not: it moves what it planned, the
planned versions have been current, and where one still is the copy, once it has read its
source, carries that version. -/
structure Copy.Faithful (c : Copy) (e : Entry) : Prop where
  moved : ∀ p ∈ c.transfer.planned, ∀ x, p.range.Has x → x ∈ c.transfer.bytes.bytes
  reached : ∀ p ∈ c.transfer.planned, ∀ x, p.range.Has x →
    ∃ v, e.canonical.versionAt x = some v ∧ p.version ≤ v
  carries : ∀ content, c.carried = some content → ∀ p ∈ c.transfer.planned, ∀ x,
    p.range.Has x → e.canonical.versionAt x = some p.version → content x = some p.version

/-- Versions that only grow never return to one that was planned and overtaken. -/
theorem Copy.Faithful.later {c : Copy} {e e' : Entry} (h : c.Faithful e)
    (hgrow : ∀ x v, e.canonical.versionAt x = some v →
      ∃ u, e'.canonical.versionAt x = some u ∧ v ≤ u) : c.Faithful e' where
  moved := h.moved
  reached p hp x hx := by
    obtain ⟨v, hv, hle⟩ := h.reached p hp x hx
    obtain ⟨u, hu, hvu⟩ := hgrow x v hv
    exact ⟨u, hu, Nat.le_trans hle hvu⟩
  carries content hc p hp x hx hnow := by
    obtain ⟨v, hv, hle⟩ := h.reached p hp x hx
    obtain ⟨u, hu, hvu⟩ := hgrow x v hv
    rw [hnow] at hu
    cases hu
    exact h.carries content hc p hp x hx (by rw [hv, Nat.le_antisymm hvu hle])

theorem Copy.Faithful.same {c : Copy} {e e' : Entry} (h : c.Faithful e)
    (hcanonical : e'.canonical = e.canonical) : c.Faithful e' :=
  h.later fun _ v hv => ⟨v, by rw [hcanonical, hv], Nat.le_refl v⟩

/-- A write moves no version back. -/
theorem Wrote.grows {old new : Entry} {bytes : NamedRange} {version : ContentVersion}
    {replica : Replica} (h : Wrote old new bytes version replica) (x : Nat) (v : ContentVersion)
    (hv : old.canonical.versionAt x = some v) :
    ∃ u, new.canonical.versionAt x = some u ∧ v ≤ u := by
  rw [h.canonical]
  by_cases htaken : x ∈ (old.canonical.applied bytes.1 version).taken.bytes
  · exact ⟨version, VersionCoverage.versionAt_apply_of_taken htaken,
      Nat.le_of_lt ((VersionCoverage.mem_applied_taken.mp htaken).2 v hv)⟩
  · exact ⟨v, (VersionCoverage.versionAt_apply_of_not_taken htaken).trans hv, Nat.le_refl v⟩

/-- The ledger is right about the storage. -/
structure Sound (w : World) : Prop where
  below : ∀ b x v, (w.ledger.entryOr b).canonical.versionAt x = some v →
    v < w.ledger.nextVersion
  current : ∀ b r x, x ∈ ((w.ledger.entryOr b).freshSet r).bytes →
    ∃ v, (w.ledger.entryOr b).canonical.versionAt x = some v ∧ w.storage b r x = some v
  faithful : ∀ c ∈ w.inFlight, c.Faithful (w.ledger.entryOr c.transfer.backing)

theorem Sound.init : Sound .init where
  below b x v h := by cases h
  current b r x h := by
    simp only [World.init, ContentLedger.entryOr, ContentLedger.new, Option.getD_none,
      Entry.freshSet_empty, RangeSet.bytes_new] at h
    cases h
  faithful c hc := by cases hc

/-- An operation that changes the entry of one backing, and storage of that backing only,
is right if it is right about that entry and the copies of that backing. -/
theorem Sound.update {w w' : World} (h : Sound w) {b : BackingId}
    (hothers : ∀ c, c ≠ b → w'.ledger.entryOr c = w.ledger.entryOr c)
    (hnext : w.ledger.nextVersion ≤ w'.ledger.nextVersion)
    (hstorage : ∀ c, c ≠ b → w'.storage c = w.storage c)
    (hflight : ∀ c ∈ w'.inFlight, c ∈ w.inFlight)
    (hbelow : ∀ x v, (w'.ledger.entryOr b).canonical.versionAt x = some v →
      v < w'.ledger.nextVersion)
    (hcurrent : ∀ r x, x ∈ ((w'.ledger.entryOr b).freshSet r).bytes →
      ∃ v, (w'.ledger.entryOr b).canonical.versionAt x = some v ∧
        w'.storage b r x = some v)
    (hcopies : ∀ c ∈ w.inFlight, c.transfer.backing = b → c.Faithful (w.ledger.entryOr b) →
      c.Faithful (w'.ledger.entryOr b)) : Sound w' where
  below c x v hv := by
    by_cases hc : c = b
    · subst hc
      exact hbelow x v hv
    · rw [hothers c hc] at hv
      exact Nat.lt_of_lt_of_le (h.below c x v hv) hnext
  current c r x hx := by
    by_cases hc : c = b
    · subst hc
      exact hcurrent r x hx
    · rw [hothers c hc] at hx ⊢
      rw [hstorage c hc]
      exact h.current c r x hx
  faithful c hc := by
    have hold := h.faithful c (hflight c hc)
    by_cases hb : c.transfer.backing = b
    · rw [hb] at hold ⊢
      exact hcopies c (hflight c hc) hb hold
    · rw [hothers _ hb]
      exact hold

theorem overwrite_of_ne {storage : BackingId → Replica → Nat → Option ContentVersion}
    {b c : BackingId} (h : c ≠ b) (r : Replica) (bytes : ByteRange) (v : ContentVersion) :
    overwrite storage b r bytes v c = storage c := by
  funext q x
  simp [overwrite, h]

theorem deliver_of_ne {storage : BackingId → Replica → Nat → Option ContentVersion} {c : Copy}
    {b : BackingId} {r : Replica} {x : Nat}
    (h : b = c.transfer.backing → r = c.transfer.dest → x ∉ c.transfer.bytes.bytes) :
    deliver storage c b r x = storage b r x := by
  unfold deliver
  split
  · rfl
  · exact if_neg fun hin => h hin.1 hin.2.1 hin.2.2

theorem deliver_of_mem {storage : BackingId → Replica → Nat → Option ContentVersion} {c : Copy}
    {content : Nat → Option ContentVersion} (hc : c.carried = some content) {x : Nat}
    (h : x ∈ c.transfer.bytes.bytes) :
    deliver storage c c.transfer.backing c.transfer.dest x = content x := by
  unfold deliver
  rw [hc]
  exact if_pos ⟨rfl, rfl, h⟩

/-- A completed write that is not older than what its replica is fresh for. -/
theorem Sound.wrote {w : World} (h : Sound w) {b : BackingId} {bytes : NamedRange}
    {version : ContentVersion} {replica : Replica} {l : ContentLedger}
    (hwrote : Wrote (w.ledger.entryOr b) (l.entryOr b) bytes version replica)
    (hothers : ∀ c, c ≠ b → l.entryOr c = w.ledger.entryOr c)
    (hnext : w.ledger.nextVersion ≤ l.nextVersion) (hversion : version < l.nextVersion)
    (hordered : ∀ x, x ∈ ((w.ledger.entryOr b).freshSet replica).bytes →
      x ∉ ((w.ledger.entryOr b).canonical.applied bytes.1 version).refused.bytes) :
    Sound { w with ledger := l, storage := overwrite w.storage b replica bytes.1 version } := by
  refine h.update hothers hnext (fun c hc => overwrite_of_ne hc ..) (fun c hc => hc)
    (fun x v hv => ?_) (fun r x hx => ?_) fun c _ _ hold => hold.later hwrote.grows
  · rw [hwrote.canonical] at hv
    by_cases htaken : x ∈ ((w.ledger.entryOr b).canonical.applied bytes.1 version).taken.bytes
    · rw [VersionCoverage.versionAt_apply_of_taken htaken] at hv
      cases hv
      exact hversion
    · rw [VersionCoverage.versionAt_apply_of_not_taken htaken] at hv
      exact Nat.lt_of_lt_of_le (h.below b x v hv) hnext
  · rw [hwrote.canonical]
    rw [hwrote.fresh] at hx
    by_cases htaken : x ∈ ((w.ledger.entryOr b).canonical.applied bytes.1 version).taken.bytes
    · -- what was taken is fresh in the replica that wrote it only
      have hr : r = replica := by
        rcases hx with hx | hx
        · exact hx.1
        · exact hx.2.resolve_right fun hn => hn htaken
      have hin := (VersionCoverage.mem_applied_taken.mp htaken).1
      refine ⟨version, VersionCoverage.versionAt_apply_of_taken htaken, ?_⟩
      simp [overwrite, hr, hin]
    · have hfresh : x ∈ ((w.ledger.entryOr b).freshSet r).bytes := by
        rcases hx with hx | hx
        · exact absurd hx.2 htaken
        · exact hx.1
      obtain ⟨v, hv, hs⟩ := h.current b r x hfresh
      refine ⟨v, (VersionCoverage.versionAt_apply_of_not_taken htaken).trans hv, ?_⟩
      -- the write has not overwritten these bytes: it is not older than what is fresh
      have hout : ¬(r = replica ∧ bytes.1.Has x) := by
        rintro ⟨rfl, hin⟩
        refine hordered x hfresh (VersionCoverage.mem_applied_refused.mpr ⟨hin, v, hv, ?_⟩)
        by_contra hlt
        exact htaken (VersionCoverage.mem_applied_taken.mpr
          ⟨hin, fun u hu => by rw [hv] at hu; cases hu; exact Nat.not_le.mp hlt⟩)
      simp only [overwrite, true_and, if_neg hout]
      exact hs

/-- Nothing current is as new as a version that has just been reserved. -/
theorem Sound.refused_next {w : World} (h : Sound w) (b : BackingId) (bytes : NamedRange)
    (x : Nat) :
    x ∉ ((w.ledger.entryOr b).canonical.applied bytes.1 w.ledger.nextVersion).refused.bytes := by
  intro hx
  obtain ⟨-, v, hv, hle⟩ := VersionCoverage.mem_applied_refused.mp hx
  exact Nat.not_le.mpr (h.below b x v hv) hle

/-- A copy that reads a source which is fresh for what is still current of the plan. -/
theorem Sound.fetch {w : World} (h : Sound w) {i : Nat} (hok : Ordered w (.fetch i)) :
    Sound (w.step (.fetch i)) := by
  simp only [World.step]
  split
  · exact h
  · rename_i c hi
    have hold := h.faithful c (List.mem_of_getElem? hi)
    refine ⟨h.below, h.current, fun d hd => ?_⟩
    rcases List.mem_or_eq_of_mem_set hd with hd | rfl
    · exact h.faithful d hd
    · refine ⟨hold.moved, hold.reached, fun content hc p hp x hx hnow => ?_⟩
      cases hc
      have hfresh : x ∈ ((w.ledger.entryOr c.transfer.backing).freshSet
          c.transfer.source).bytes := by
        by_contra hout
        have hmem := RangeSet.mem_subtract.mpr
          ⟨ContentLedger.mem_landed.mpr ⟨p, hp, hx, hnow⟩, hout⟩
        rw [RangeSet.isEmpty_iff.mp (hok c hi)] at hmem
        exact hmem
      obtain ⟨v, hv, hs⟩ := h.current _ _ x hfresh
      simp only at hnow
      rw [hnow] at hv
      cases hv
      exact hs

theorem Sound.record {w : World} (h : Sound w) {i : Nat} (hok : Ordered w (.record i)) :
    Sound (w.step (.record i)) := by
  simp only [World.step]
  split
  · exact h
  · rename_i c hi
    obtain ⟨content, hcontent⟩ := Option.isSome_iff_exists.mp (hok c hi)
    have hfaithful := h.faithful c (List.mem_of_getElem? hi)
    obtain ⟨hcanonical, hfresh⟩ := w.ledger.recordTransfer_spec c.transfer
    have hnext := w.ledger.nextVersion_recordTransfer c.transfer
    refine h.update (fun d hd => w.ledger.entryOr_recordTransfer_of_ne hd) hnext.ge
      (fun d hd => ?_) (fun d hd => List.mem_of_mem_eraseIdx hd) (fun x v hv => ?_)
      (fun r x hx => ?_) fun d _ _ hold => hold.same hcanonical
    · funext r x
      exact deliver_of_ne fun hb => absurd hb hd
    · rw [hcanonical] at hv
      exact Nat.lt_of_lt_of_eq (h.below c.transfer.backing x v hv) hnext.symm
    · rw [hcanonical]
      rw [hfresh] at hx
      by_cases hr : r = c.transfer.dest
      · subst hr
        rw [if_pos rfl] at hx
        by_cases hlanded : x ∈ (ContentLedger.landed (w.ledger.entryOr c.transfer.backing)
            c.transfer).bytes
        · obtain ⟨p, hp, hpx, hv⟩ := ContentLedger.mem_landed.mp hlanded
          refine ⟨p.version, hv, ?_⟩
          simp only
          rw [deliver_of_mem hcontent (hfaithful.moved p hp x hpx)]
          exact hfaithful.carries content hcontent p hp x hpx hv
        · -- a byte that was fresh before and that the copy has not touched
          obtain ⟨v, hv, hs⟩ := h.current _ _ x (hx.1.resolve_right hlanded)
          have hout : x ∉ c.transfer.bytes.bytes := fun hin =>
            hx.2 (RangeSet.mem_subtract.mpr ⟨hin, hlanded⟩)
          exact ⟨v, hv, (deliver_of_ne fun _ _ => hout).trans hs⟩
      · rw [if_neg hr] at hx
        obtain ⟨v, hv, hs⟩ := h.current c.transfer.backing r x hx
        exact ⟨v, hv, (deliver_of_ne fun _ hd => absurd hd hr).trans hs⟩

/-- A transfer that has just been planned is faithful to the plan: every version in it is
current. -/
theorem faithful_of_needed {e : Entry} {b : BackingId} {bytes : NamedRange} {replica : Replica}
    {t : Transfer} (h : ContentLedger.Needed e b bytes replica t) :
    Copy.Faithful ⟨t, none⟩ e := by
  have hspans : ∀ p ∈ t.planned, ∀ x, p.range.Has x →
      x ∈ t.bytes.bytes ∧ e.canonical.versionAt x = some p.version := by
    intro p hp x hx
    rw [h.planned] at hp
    obtain ⟨s, hs, hover⟩ := List.mem_flatMap.mp hp
    obtain ⟨hsx, hv⟩ := VersionCoverage.mem_spansOver hover hx
    exact ⟨⟨s, hs, hsx⟩, hv⟩
  refine ⟨fun p hp x hx => (hspans p hp x hx).1, fun p hp x hx => ?_, fun _ hc => by cases hc⟩
  exact ⟨p.version, (hspans p hp x hx).2, Nat.le_refl _⟩

theorem Sound.plan {w : World} (h : Sound w) (b : BackingId) (bytes : NamedRange)
    (replica : Replica) : Sound (w.step (.plan b bytes replica)) where
  below c x v hv := by
    have hnext := (w.ledger.transferForRead_unchanged b bytes replica).2
    simp only [World.step, ContentLedger.entryOr_transferForRead, hnext] at hv ⊢
    exact h.below c x v hv
  current c r x hx := by
    simp only [World.step, ContentLedger.entryOr_transferForRead] at hx ⊢
    exact h.current c r x hx
  faithful c hc := by
    simp only [World.step, ContentLedger.entryOr_transferForRead]
    rcases List.mem_append.mp hc with hold | hnew
    · exact h.faithful c hold
    · obtain ⟨t, ht, rfl⟩ := List.mem_map.mp hnew
      have hneeded := ContentLedger.needed_of_transferForRead (Option.mem_toList.mp ht)
      simp only [hneeded.backing]
      exact faithful_of_needed hneeded

theorem Sound.offerDiscard {w : World} (h : Sound w) (b : BackingId) (bytes : NamedRange) :
    Sound (w.step (.offerDiscard b bytes)) := by
  obtain ⟨hcanonical, hsub, -⟩ := w.ledger.offerDiscard_spec b bytes
  have hnext := w.ledger.nextVersion_offerDiscard b bytes
  refine h.update (fun c hc => w.ledger.entryOr_offerDiscard_of_ne hc bytes) hnext.ge
    (fun _ _ => rfl) (fun c hc => hc) (fun x v hv => ?_) (fun r x hx => ?_)
    fun c _ _ hold => hold.same hcanonical
  · simp only [World.step, hcanonical] at hv
    exact Nat.lt_of_lt_of_eq (h.below b x v hv) hnext.symm
  · simp only [World.step, hcanonical]
    exact h.current b r x (hsub r x hx)

theorem Sound.reserve {w : World} (h : Sound w) {b : BackingId}
    (hok : Ordered w (.reserve b)) : Sound (w.step (.reserve b)) := by
  have hnext : nextOf w.ledger.nextVersion = w.ledger.nextVersion + 1 := nextOf_eq hok
  have hle : w.ledger.nextVersion ≤ nextOf w.ledger.nextVersion :=
    (Nat.le_succ _).trans_eq hnext.symm
  have hsame := w.ledger.entryOr_reserve b b
  refine h.update (b := b) (fun c _ => w.ledger.entryOr_reserve b c) hle (fun _ _ => rfl)
    (fun c hc => hc) (fun x v hv => ?_) (fun r x hx => ?_)
    fun c _ _ hold => hold.same (congrArg Entry.canonical hsame)
  · simp only [World.step, hsame] at hv
    exact Nat.lt_of_lt_of_le (h.below b x v hv) hle
  · simp only [World.step, hsame] at hx ⊢
    exact h.current b r x hx

theorem Sound.materialize {w : World} (h : Sound w) {b : BackingId} {bytes : NamedRange}
    {version : ContentVersion} {replica : Replica}
    (hok : Ordered w (.materialize b bytes version replica)) :
    Sound (w.step (.materialize b bytes version replica)) := by
  obtain ⟨hversion, hordered⟩ := hok
  have hnext : nextOf version = version + 1 := nextOf_eq hversion
  refine h.wrote (w.ledger.wrote_materialize b bytes version replica)
    (fun c hc => w.ledger.entryOr_materialize_of_ne hc bytes version replica) ?_ ?_
    fun x hx hrefused => ?_
  · simp only [ContentLedger.materialize, hnext]
    split
    · exact Nat.le_succ_of_le ‹_›
    · exact le_refl _
  · simp only [ContentLedger.materialize, hnext]
    split
    · exact Nat.lt_succ_self _
    · exact Nat.not_le.mp ‹_›
  · have hmem := RangeSet.mem_intersection.mpr ⟨hrefused, hx⟩
    rw [RangeSet.isEmpty_iff.mp hordered] at hmem
    exact hmem

theorem Sound.forget {w : World} (h : Sound w) {b : BackingId} (hok : Ordered w (.forget b)) :
    Sound (w.step (.forget b)) := by
  have hself := w.ledger.entryOr_forget_self b
  refine h.update (fun c hc => w.ledger.entryOr_forget_of_ne hc) (le_refl _) (fun _ _ => rfl)
    (fun c hc => hc) (fun x v hv => ?_) (fun r x hx => ?_)
    fun c hc hb => absurd hb (hok c hc)
  · simp only [World.step, hself] at hv
    cases hv
  · simp only [World.step, hself] at hx
    simp at hx

theorem Sound.step {w : World} (h : Sound w) {a : Action} (hok : Ordered w a) :
    Sound (w.step a) := by
  cases a with
  | reserve b => exact h.reserve hok
  | materialize b bytes version replica => exact h.materialize hok
  | write b bytes replica =>
    have hnext := ContentLedger.nextVersion_write hok b bytes replica
    exact h.wrote (w.ledger.wrote_write b bytes replica)
      (fun c hc => w.ledger.entryOr_write_of_ne hc bytes replica)
      ((Nat.le_succ _).trans_eq hnext.symm) (Nat.lt_of_lt_of_eq (Nat.lt_succ_self _) hnext.symm)
      fun x _ => h.refused_next b bytes x
  | declare b extent authority =>
    have hnext := ContentLedger.nextVersion_declare hok b extent authority
    exact h.wrote (w.ledger.wrote_declare b extent authority)
      (fun c hc => w.ledger.entryOr_declare_of_ne hc extent authority)
      ((Nat.le_succ _).trans_eq hnext.symm) (Nat.lt_of_lt_of_eq (Nat.lt_succ_self _) hnext.symm)
      fun x _ => h.refused_next b extent x
  | plan b bytes replica => exact h.plan b bytes replica
  | fetch i => exact h.fetch hok
  | record i => exact h.record hok
  | offerDiscard b bytes => exact h.offerDiscard b bytes
  | forget b => exact h.forget hok

theorem Sound.run {actions : List Action}
    (h : Guarded World.step Ordered .init actions) :
    Sound (run World.step .init actions) :=
  run_invariant (P := Sound) (fun _ _ hok hs => hs.step hok) h .init

/-- **A fresh replica holds the current bytes.**  However reads, writes, copies, discards
and completions are interleaved, wherever the ledger calls a replica fresh its storage
holds the version the ledger calls current. -/
theorem fresh_is_current (actions : List Action)
    (h : Guarded World.step Ordered .init actions) (b : BackingId) (bytes : NamedRange)
    (r : Replica)
    (hfresh : (run World.step .init actions).ledger.isFresh b bytes.1 r = true) :
    ∀ x, bytes.1.Has x →
      ∃ v, ((run World.step .init actions).ledger.entryOr b).canonical.versionAt x = some v ∧
        (run World.step .init actions).storage b r x = some v :=
  fun x hx => (Sound.run h).current b r x (ContentLedger.mem_of_isFresh hfresh hx)

/-- The first bytes of a backing. -/
def firstBytes (n : Nat) : NamedRange := ⟨⟨0, n⟩, fun _ => (by decide : 0 < u64Max)⟩

/-- The guest declares a buffer, the device writes its middle, and the guest's copy of that
is planned, made and recorded; then the device reads the rest. -/
def copyBack : List Action :=
  [.declare 0 (firstBytes 16) .guestPages,
    .write 0 ⟨⟨4, 8⟩, fun _ => by decide⟩ .deviceOwned,
    .plan 0 (firstBytes 16) .guestPages, .fetch 0, .record 0,
    .plan 0 (firstBytes 16) .deviceOwned]

theorem fresh_is_current_copyBack :
    ∃ v, ((run World.step .init copyBack).ledger.entryOr 0).canonical.versionAt 5 = some v ∧
      (run World.step .init copyBack).storage 0 .guestPages 5 = some v :=
  fresh_is_current copyBack (by decide +kernel) 0 (firstBytes 16) .guestPages
    (by decide +kernel) 5 (by decide)

/-! ## What has been written stays somewhere -/

/-- A copy is recorded before a write has overtaken it. -/
def Punctual (w : World) : Action → Prop
  | .record i => ∀ c ∈ w.inFlight[i]?,
    (ContentLedger.clobbered (w.ledger.entryOr c.transfer.backing) c.transfer).isEmpty = true
  | _ => True

instance (w : World) (a : Action) : Decidable (Punctual w a) := by
  cases a <;> unfold Punctual <;> infer_instance

theorem Punctual.not_mem_clobbered {w : World} {i : Nat} (h : Punctual w (.record i))
    {c : Copy} (hc : w.inFlight[i]? = some c) (x : Nat) :
    x ∉ (ContentLedger.clobbered (w.ledger.entryOr c.transfer.backing) c.transfer).bytes := by
  rw [RangeSet.isEmpty_iff.mp (h c hc)]
  exact Set.notMem_empty x

/-- Every byte that has a version is fresh in some replica. -/
def Kept (w : World) : Prop :=
  ∀ b x v, (w.ledger.entryOr b).canonical.versionAt x = some v →
    ∃ r, x ∈ ((w.ledger.entryOr b).freshSet r).bytes

theorem Kept.init : Kept .init := fun b x v hv => by cases hv

theorem Kept.update {w w' : World} (h : Kept w) {b : BackingId}
    (hothers : ∀ c, c ≠ b → w'.ledger.entryOr c = w.ledger.entryOr c)
    (hkept : ∀ x v, (w'.ledger.entryOr b).canonical.versionAt x = some v →
      ∃ r, x ∈ ((w'.ledger.entryOr b).freshSet r).bytes) : Kept w' := by
  intro c x v hv
  by_cases hc : c = b
  · subst hc
    exact hkept x v hv
  · rw [hothers c hc] at hv ⊢
    exact h c x v hv

/-- What a write takes its own replica is fresh for, and what it leaves it takes from
none. -/
theorem Kept.wrote {w : World} (h : Kept w) {b : BackingId} {bytes : NamedRange}
    {version : ContentVersion} {replica : Replica} {w' : World}
    (hwrote : Wrote (w.ledger.entryOr b) (w'.ledger.entryOr b) bytes version replica)
    (hothers : ∀ c, c ≠ b → w'.ledger.entryOr c = w.ledger.entryOr c) : Kept w' := by
  refine h.update hothers fun x v hv => ?_
  by_cases htaken : x ∈ ((w.ledger.entryOr b).canonical.applied bytes.1 version).taken.bytes
  · exact ⟨replica, (hwrote.fresh replica x).mpr (Or.inl ⟨rfl, htaken⟩)⟩
  · rw [hwrote.canonical, VersionCoverage.versionAt_apply_of_not_taken htaken] at hv
    obtain ⟨r, hr⟩ := h b x v hv
    exact ⟨r, (hwrote.fresh r x).mpr (Or.inr ⟨hr, Or.inr htaken⟩)⟩

theorem Kept.step {w : World} (h : Kept w) {a : Action} (hpunctual : Punctual w a) :
    Kept (w.step a) := by
  cases a with
  | reserve b =>
    intro c x v hv
    simp only [World.step, w.ledger.entryOr_reserve b c] at hv ⊢
    exact h c x v hv
  | materialize b bytes version replica =>
    exact h.wrote (w.ledger.wrote_materialize b bytes version replica)
      fun c hc => w.ledger.entryOr_materialize_of_ne hc bytes version replica
  | write b bytes replica =>
    exact h.wrote (w.ledger.wrote_write b bytes replica)
      fun c hc => w.ledger.entryOr_write_of_ne hc bytes replica
  | declare b extent authority =>
    exact h.wrote (w.ledger.wrote_declare b extent authority)
      fun c hc => w.ledger.entryOr_declare_of_ne hc extent authority
  | plan b bytes replica =>
    intro c x v hv
    simp only [World.step, w.ledger.entryOr_transferForRead b bytes replica c] at hv ⊢
    exact h c x v hv
  | fetch i =>
    simp only [World.step]
    split
    · exact h
    · exact h
  | record i =>
    simp only [World.step]
    split
    · exact h
    · rename_i c hi
      refine h.update (fun d hd => w.ledger.entryOr_recordTransfer_of_ne hd) fun x v hv => ?_
      simp only [(w.ledger.recordTransfer_spec c.transfer).1] at hv
      obtain ⟨r, hr⟩ := h c.transfer.backing x v hv
      exact ⟨r, ContentLedger.fresh_recordTransfer
        (fun _ => hpunctual.not_mem_clobbered hi x) hr⟩
  | offerDiscard b bytes =>
    obtain ⟨hcanonical, -, hkept⟩ := w.ledger.offerDiscard_spec b bytes
    refine h.update (fun c hc => w.ledger.entryOr_offerDiscard_of_ne hc bytes) fun x v hv => ?_
    simp only [World.step, hcanonical] at hv
    obtain ⟨r, hr⟩ := h b x v hv
    rcases hkept r x hr with hr | hr
    · exact ⟨r, hr⟩
    · exact ⟨.guestPages, hr.2⟩
  | forget b =>
    refine h.update (fun c hc => w.ledger.entryOr_forget_of_ne hc) fun x v hv => ?_
    simp only [World.step, w.ledger.entryOr_forget_self b] at hv
    cases hv

/-- What reads rely on. -/
def Careful (w : World) (a : Action) : Prop := Ordered w a ∧ Punctual w a

instance (w : World) (a : Action) : Decidable (Careful w a) :=
  inferInstanceAs (Decidable (_ ∧ _))

theorem sound_kept_run {actions : List Action}
    (h : Guarded World.step Careful .init actions) :
    Sound (run World.step .init actions) ∧ Kept (run World.step .init actions) :=
  run_invariant (P := fun w => Sound w ∧ Kept w)
    (fun _ _ hok hs => ⟨hs.1.step hok.1, hs.2.step hok.2⟩) h ⟨.init, .init⟩

/-! ## Reads -/

/-- A read from `replica`: the transfer it needs is planned, made and recorded. -/
def World.read (w : World) (b : BackingId) (bytes : NamedRange) (replica : Replica) : World :=
  let planned := w.step (.plan b bytes replica)
  match (w.ledger.transferForRead b bytes replica).2 with
  | none => planned
  | some _ => (planned.step (.fetch w.inFlight.length)).step (.record w.inFlight.length)

/-- Everything that has been written in `bytes` is fresh in `replica`. -/
def Settled (w : World) (b : BackingId) (bytes : NamedRange) (replica : Replica) : Prop :=
  ∀ x v, bytes.1.Has x → (w.ledger.entryOr b).canonical.versionAt x = some v →
    x ∈ ((w.ledger.entryOr b).freshSet replica).bytes

theorem World.read_of_none {w : World} {b : BackingId} {bytes : NamedRange} {r : Replica}
    (h : (w.ledger.transferForRead b bytes r).2 = none) :
    w.read b bytes r = w.step (.plan b bytes r) := by
  simp [World.read, h]

theorem World.read_of_some {w : World} {b : BackingId} {bytes : NamedRange} {r : Replica}
    {t : Transfer} (h : (w.ledger.transferForRead b bytes r).2 = some t) :
    (w.read b bytes r).ledger = (w.ledger.transferForRead b bytes r).1.recordTransfer t := by
  simp [World.read, h, World.step]

theorem Sound.read {w : World} (h : Sound w) (b : BackingId) (bytes : NamedRange)
    (r : Replica) : Sound (w.read b bytes r) := by
  have hplan := h.plan b bytes r
  cases ht : (w.ledger.transferForRead b bytes r).2 with
  | none =>
    rw [World.read_of_none ht]
    exact hplan
  | some t =>
    have hneeded := ContentLedger.needed_of_transferForRead ht
    have hlast : (w.step (.plan b bytes r)).inFlight[w.inFlight.length]? = some ⟨t, none⟩ := by
      simp [World.step, ht]
    have hfetch : Ordered (w.step (.plan b bytes r)) (.fetch w.inFlight.length) := by
      intro c hc
      obtain rfl := Option.some.inj (hlast.symm.trans hc)
      simp only [World.step, ContentLedger.entryOr_transferForRead]
      refine RangeSet.isEmpty_iff.mpr (Set.eq_empty_iff_forall_notMem.mpr fun x hx => ?_)
      obtain ⟨hlanded, hout⟩ := RangeSet.mem_subtract.mp hx
      obtain ⟨p, hp, hpx, -⟩ := ContentLedger.mem_landed.mp hlanded
      -- what a plan moves is fresh in its source
      have hmoved := (hneeded.moves x).mp ((faithful_of_needed hneeded).moved p hp x hpx)
      rw [hneeded.backing, hneeded.source] at hout
      exact hout hmoved.2.2
    have hread : w.read b bytes r = ((w.step (.plan b bytes r)).step
        (.fetch w.inFlight.length)).step (.record w.inFlight.length) := by
      simp [World.read, ht]
    rw [hread]
    refine (hplan.fetch hfetch).record fun c hc => ?_
    simp only [World.step, ht, Option.toList_some, List.map_cons, List.map_nil,
      List.getElem?_concat_length] at hc
    simp at hc
    rw [← hc]
    rfl

/-- A read changes no content. -/
theorem World.canonical_read (w : World) (b : BackingId) (bytes : NamedRange) (r : Replica) :
    ((w.read b bytes r).ledger.entryOr b).canonical = (w.ledger.entryOr b).canonical := by
  have hsame := w.ledger.entryOr_transferForRead b bytes r b
  cases ht : (w.ledger.transferForRead b bytes r).2 with
  | none =>
    rw [World.read_of_none ht]
    simp only [World.step, hsame]
  | some t =>
    obtain rfl := (ContentLedger.needed_of_transferForRead ht).backing
    rw [World.read_of_some ht, (ContentLedger.recordTransfer_spec _ t).1, hsame]

/-- A read brings the replica up to date with everything written in its bytes. -/
theorem settled_read {w : World} (h : Sound w) (hk : Kept w) (b : BackingId)
    (bytes : NamedRange) (r : Replica) : Settled (w.read b bytes r) b bytes r := by
  intro x v hx hv
  rw [w.canonical_read] at hv
  have hsame := w.ledger.entryOr_transferForRead b bytes r b
  obtain ⟨q, hq⟩ := hk b x v hv
  cases ht : (w.ledger.transferForRead b bytes r).2 with
  | none =>
    have hspec := ContentLedger.transferForRead_eq_none_iff.mp ht x hx
    rw [World.read_of_none ht]
    simp only [World.step, hsame]
    rcases r.eq_or_other q with rfl | rfl
    · exact hq
    · exact hspec hq
  | some t =>
    have hneeded := ContentLedger.needed_of_transferForRead ht
    obtain rfl := hneeded.backing
    obtain rfl := hneeded.dest
    -- everything the copy moves is still current when it is recorded at once
    have hlanded : ∀ y ∈ t.bytes.bytes,
        y ∈ (ContentLedger.landed (w.ledger.entryOr t.backing) t).bytes := by
      intro y hy
      obtain ⟨u, hu, -⟩ := h.current t.backing t.dest.other y ((hneeded.moves y).mp hy).2.2
      obtain ⟨s, hs, hsy⟩ := hy
      obtain ⟨p, hp, hpy, hpv⟩ := VersionCoverage.exists_mem_spansOver hsy hu
      refine ContentLedger.mem_landed.mpr ⟨p, ?_, hpy, by rw [hu, hpv]⟩
      rw [hneeded.planned]
      exact List.mem_flatMap.mpr ⟨s, hs, hp⟩
    rw [World.read_of_some ht, (ContentLedger.recordTransfer_spec _ t).2, if_pos rfl, hsame]
    refine ⟨?_, fun hc => ?_⟩
    · by_cases hfresh : x ∈ ((w.ledger.entryOr t.backing).freshSet t.dest).bytes
      · exact Or.inl hfresh
      · rcases t.dest.eq_or_other q with rfl | rfl
        · exact absurd hq hfresh
        · exact Or.inr (hlanded x ((hneeded.moves x).mpr ⟨hx, hfresh, hq⟩))
    · obtain ⟨hin, hout⟩ := RangeSet.mem_subtract.mp hc
      exact hout (hlanded x hin)

/-- **A read sees the newest write.**  After any interleaving of the ledger's operations in
which no copy is overtaken, a read from either replica, once the transfer it needs is done,
finds in every byte that has been written the version that is current there. -/
theorem read_sees_newest (actions : List Action)
    (h : Guarded World.step Careful .init actions) (b : BackingId) (bytes : NamedRange)
    (r : Replica) :
    ∀ x v, bytes.1.Has x →
      ((run World.step .init actions).ledger.entryOr b).canonical.versionAt x = some v →
      ((run World.step .init actions).read b bytes r).storage b r x = some v := by
  intro x v hx hv
  obtain ⟨hsound, hkept⟩ := sound_kept_run h
  rw [← World.canonical_read _ b bytes r] at hv
  obtain ⟨u, hu, hs⟩ := (hsound.read b bytes r).current b r x
    (settled_read hsound hkept b bytes r x v hx hv)
  rw [hv] at hu
  cases hu
  exact hs

theorem read_sees_newest_copyBack :
    ((run World.step .init copyBack).read 0 (firstBytes 16) .deviceOwned).storage 0
      .deviceOwned 2 = some 0 :=
  read_sees_newest copyBack (by decide +kernel) 0 (firstBytes 16) .deviceOwned 2 0 (by decide)
    (by decide +kernel)

/-- Nothing happens to the backing that could cost `replica` a byte: no write in the other
replica, no discard of its own copy, no copy into it that has been overtaken. -/
def Quiet (b : BackingId) (replica : Replica) (w : World) : Action → Prop
  | .materialize c _ _ q | .write c _ q | .declare c _ q => c ≠ b ∨ q = replica
  | .record i => ∀ d ∈ w.inFlight[i]?, d.transfer.backing = b → d.transfer.dest = replica →
    (ContentLedger.clobbered (w.ledger.entryOr b) d.transfer).isEmpty = true
  | .offerDiscard c _ => c ≠ b ∨ replica = .guestPages
  | .forget c => c ≠ b
  | .reserve _ | .plan .. | .fetch _ => True

instance (b : BackingId) (r : Replica) (w : World) (a : Action) : Decidable (Quiet b r w a) := by
  cases a <;> unfold Quiet <;> infer_instance

/-- A replica's own writes cost it nothing. -/
theorem Settled.wrote {w w' : World} {b : BackingId} {bytes : NamedRange} {r : Replica}
    (h : Settled w b bytes r) {c : BackingId} {range : NamedRange} {version : ContentVersion}
    {q : Replica} (hwrote : Wrote (w.ledger.entryOr c) (w'.ledger.entryOr c) range version q)
    (hothers : ∀ d, d ≠ c → w'.ledger.entryOr d = w.ledger.entryOr d)
    (hquiet : c ≠ b ∨ q = r) : Settled w' b bytes r := by
  intro x v hx hv
  by_cases hc : c = b
  · subst hc
    obtain rfl := hquiet.resolve_left fun hn => hn rfl
    rw [hwrote.fresh]
    by_cases htaken : x ∈ ((w.ledger.entryOr c).canonical.applied range.1 version).taken.bytes
    · exact Or.inl ⟨rfl, htaken⟩
    · rw [hwrote.canonical, VersionCoverage.versionAt_apply_of_not_taken htaken] at hv
      exact Or.inr ⟨h x v hx hv, Or.inl rfl⟩
  · rw [hothers b (Ne.symm hc)] at hv ⊢
    exact h x v hx hv

theorem Settled.step {w : World} {b : BackingId} {bytes : NamedRange} {r : Replica}
    (h : Settled w b bytes r) {a : Action} (hquiet : Quiet b r w a) :
    Settled (w.step a) b bytes r := by
  cases a with
  | reserve c =>
    intro x v hx hv
    simp only [World.step, w.ledger.entryOr_reserve c b] at hv ⊢
    exact h x v hx hv
  | materialize c range version q =>
    exact h.wrote (w.ledger.wrote_materialize c range version q)
      (fun d hd => w.ledger.entryOr_materialize_of_ne hd range version q) hquiet
  | write c range q =>
    exact h.wrote (w.ledger.wrote_write c range q)
      (fun d hd => w.ledger.entryOr_write_of_ne hd range q) hquiet
  | declare c extent q =>
    exact h.wrote (w.ledger.wrote_declare c extent q)
      (fun d hd => w.ledger.entryOr_declare_of_ne hd extent q) hquiet
  | plan c range q =>
    intro x v hx hv
    simp only [World.step, w.ledger.entryOr_transferForRead c range q b] at hv ⊢
    exact h x v hx hv
  | fetch i =>
    simp only [World.step]
    split
    · exact h
    · exact h
  | record i =>
    simp only [World.step]
    split
    · exact h
    · rename_i d hi
      intro x v hx hv
      by_cases hb : b = d.transfer.backing
      · subst hb
        simp only [(w.ledger.recordTransfer_spec d.transfer).1] at hv
        refine ContentLedger.fresh_recordTransfer (fun hr hin => ?_) (h x v hx hv)
        rw [RangeSet.isEmpty_iff.mp (hquiet d hi rfl hr.symm)] at hin
        exact hin
      · simp only [w.ledger.entryOr_recordTransfer_of_ne hb] at hv ⊢
        exact h x v hx hv
  | offerDiscard c range =>
    intro x v hx hv
    by_cases hc : c = b
    · subst hc
      obtain ⟨hcanonical, -, hkept⟩ := w.ledger.offerDiscard_spec c range
      obtain rfl := hquiet.resolve_left fun hn => hn rfl
      simp only [World.step, hcanonical] at hv
      exact (hkept _ x (h x v hx hv)).resolve_right fun hd => by cases hd.1
    · simp only [World.step, w.ledger.entryOr_offerDiscard_of_ne (Ne.symm hc) range] at hv ⊢
      exact h x v hx hv
  | forget c =>
    intro x v hx hv
    simp only [World.step, w.ledger.entryOr_forget_of_ne (Ne.symm hquiet)] at hv ⊢
    exact h x v hx hv

/-- A replica is fresh only for bytes that have a version. -/
def Versioned (w : World) : Prop :=
  ∀ b r x, x ∈ ((w.ledger.entryOr b).freshSet r).bytes →
    ∃ v, (w.ledger.entryOr b).canonical.versionAt x = some v

theorem Versioned.init : Versioned .init := fun b r x hx => by
  obtain ⟨v, hv, -⟩ := Sound.init.current b r x hx
  exact ⟨v, hv⟩

theorem Versioned.update {w w' : World} (h : Versioned w) {b : BackingId}
    (hothers : ∀ c, c ≠ b → w'.ledger.entryOr c = w.ledger.entryOr c)
    (hversioned : ∀ r x, x ∈ ((w'.ledger.entryOr b).freshSet r).bytes →
      ∃ v, (w'.ledger.entryOr b).canonical.versionAt x = some v) : Versioned w' := by
  intro c r x hx
  by_cases hc : c = b
  · subst hc
    exact hversioned r x hx
  · rw [hothers c hc] at hx ⊢
    exact h c r x hx

theorem Versioned.wrote {w w' : World} (h : Versioned w) {b : BackingId} {bytes : NamedRange}
    {version : ContentVersion} {replica : Replica}
    (hwrote : Wrote (w.ledger.entryOr b) (w'.ledger.entryOr b) bytes version replica)
    (hothers : ∀ c, c ≠ b → w'.ledger.entryOr c = w.ledger.entryOr c) : Versioned w' := by
  refine h.update hothers fun r x hx => ?_
  rcases (hwrote.fresh r x).mp hx with hnew | hold
  · rw [hwrote.canonical]
    exact ⟨version, VersionCoverage.versionAt_apply_of_taken hnew.2⟩
  · obtain ⟨v, hv⟩ := h b r x hold.1
    obtain ⟨u, hu, -⟩ := hwrote.grows x v hv
    exact ⟨u, hu⟩

/-- No step needs to be ordered for that. -/
theorem Versioned.step {w : World} (h : Versioned w) (a : Action) : Versioned (w.step a) := by
  cases a with
  | reserve b =>
    intro c r x hx
    simp only [World.step, w.ledger.entryOr_reserve b c] at hx ⊢
    exact h c r x hx
  | materialize b bytes version replica =>
    exact h.wrote (w.ledger.wrote_materialize b bytes version replica)
      fun c hc => w.ledger.entryOr_materialize_of_ne hc bytes version replica
  | write b bytes replica =>
    exact h.wrote (w.ledger.wrote_write b bytes replica)
      fun c hc => w.ledger.entryOr_write_of_ne hc bytes replica
  | declare b extent authority =>
    exact h.wrote (w.ledger.wrote_declare b extent authority)
      fun c hc => w.ledger.entryOr_declare_of_ne hc extent authority
  | plan b bytes replica =>
    intro c r x hx
    simp only [World.step, w.ledger.entryOr_transferForRead b bytes replica c] at hx ⊢
    exact h c r x hx
  | fetch i =>
    simp only [World.step]
    split
    · exact h
    · exact h
  | record i =>
    simp only [World.step]
    split
    · exact h
    · rename_i c hi
      obtain ⟨hcanonical, hfresh⟩ := w.ledger.recordTransfer_spec c.transfer
      refine h.update (fun d hd => w.ledger.entryOr_recordTransfer_of_ne hd) fun r x hx => ?_
      rw [hcanonical]
      rw [hfresh] at hx
      split at hx
      · rcases hx.1 with hold | hlanded
        · exact h c.transfer.backing r x hold
        · obtain ⟨p, -, -, hv⟩ := ContentLedger.mem_landed.mp hlanded
          exact ⟨p.version, hv⟩
      · exact h c.transfer.backing r x hx
  | offerDiscard b bytes =>
    obtain ⟨hcanonical, hsub, -⟩ := w.ledger.offerDiscard_spec b bytes
    refine h.update (fun c hc => w.ledger.entryOr_offerDiscard_of_ne hc bytes) fun r x hx => ?_
    simp only [World.step, hcanonical]
    exact h b r x (hsub r x hx)
  | forget b =>
    refine h.update (fun c hc => w.ledger.entryOr_forget_of_ne hc) fun r x hx => ?_
    simp only [World.step, w.ledger.entryOr_forget_self b] at hx
    simp at hx

theorem Versioned.read {w : World} (h : Versioned w) (b : BackingId) (bytes : NamedRange)
    (r : Replica) : Versioned (w.read b bytes r) := by
  unfold World.read
  dsimp only
  split
  · exact h.step _
  · exact ((h.step _).step _).step _

/-- **No copy is made twice.**  Once a read has left its replica fresh for everything
written in its bytes, the same read needs no further transfer until the other replica writes
the backing or the reader's copy is dropped; the reader's own writes, reads from the other
side and all work on other backings in between cost it nothing. -/
theorem read_not_repeated (actions later : List Action) (b : BackingId) (bytes : NamedRange)
    (r : Replica)
    (hserved : Settled ((run World.step .init actions).read b bytes r) b bytes r)
    (hlater : Guarded World.step (Quiet b r) ((run World.step .init actions).read b bytes r)
      later) :
    ((run World.step ((run World.step .init actions).read b bytes r) later).ledger.transferForRead
      b bytes r).2 = none := by
  have hstart : Versioned (run World.step .init actions) :=
    run_invariant_all (P := Versioned) (fun _ a hs => hs.step a) actions .init
  obtain ⟨hversioned, hsettled⟩ :=
    run_invariant (P := fun w => Versioned w ∧ Settled w b bytes r)
      (fun _ a hok hs => ⟨hs.1.step a, hs.2.step hok⟩) hlater
      ⟨hstart.read b bytes r, hserved⟩
  refine ContentLedger.transferForRead_eq_none_iff.mpr fun x hx hother => ?_
  obtain ⟨v, hv⟩ := hversioned b r.other x hother
  exact hsettled x v hx hv

theorem read_not_repeated_copyBack :
    ((run World.step ((run World.step .init copyBack).read 0 (firstBytes 16) .deviceOwned)
      [.write 0 (firstBytes 8) .deviceOwned, .plan 0 (firstBytes 16) .guestPages, .fetch 1,
        .record 1]).ledger.transferForRead 0 (firstBytes 16) .deviceOwned).2 = none := by
  have hrun : Guarded World.step Careful .init copyBack := by decide +kernel
  obtain ⟨hsound, hkept⟩ := sound_kept_run hrun
  exact read_not_repeated copyBack
    [.write 0 (firstBytes 8) .deviceOwned, .plan 0 (firstBytes 16) .guestPages, .fetch 1,
      .record 1] 0 (firstBytes 16) .deviceOwned (settled_read hsound hkept _ _ _)
    (by decide +kernel)

end Orchard.Content
