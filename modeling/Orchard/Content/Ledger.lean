/-
  Content/Ledger.lean --- where a backing's current bytes are.

  `content.rs` of `reims-vgpu-core`: for each backing the version that is current in each
  part of it, and for each of the two replicas the bytes it holds at that version.  A
  write is reserved when it is planned and materialized when it completes; a read that
  finds its replica behind plans a transfer, which is recorded when the copy is done.
-/
import Mathlib.Logic.Function.Basic
import Orchard.Content.Coverage

set_option autoImplicit false

namespace Orchard.Content

open Orchard.Foundation

/-- The canonical identity of a piece of backing memory. -/
abbrev BackingId := Nat

/-- Where a copy of a backing's content lives. -/
inductive Replica where
  | guestPages
  | deviceOwned
deriving DecidableEq, Repr

def Replica.other : Replica → Replica
  | .guestPages => .deviceOwned
  | .deviceOwned => .guestPages

theorem Replica.eq_or_other (r q : Replica) : q = r ∨ q = r.other := by
  cases r <;> cases q <;> decide

/-- A copy that is owed before a read can be served.  `planned` (`at` in the source) are
the versions current in each part of `bytes` when the copy was planned. -/
structure Transfer where
  backing : BackingId
  source : Replica
  dest : Replica
  bytes : RangeSet
  planned : List Span

/-- What has happened to one backing's content. -/
structure Entry where
  canonical : VersionCoverage
  extent : Option NamedRange
  fresh : Replica → Option RangeSet

/-- What the ledger has been asked for. -/
structure Census where
  writes : Nat := 0
  transfersPlanned : Nat := 0
  transferBytes : Nat := 0
  readsAlreadyFresh : Nat := 0
  readsWithNoSource : Nat := 0
  transfersOvertaken : Nat := 0

/-- The content authority for one session. -/
structure ContentLedger where
  backings : BackingId → Option Entry
  nextVersion : ContentVersion
  census : Census

/-- `ContentVersion::next`, with its wrapping addition. -/
def nextOf (v : Nat) : Nat := (v + 1) % 2 ^ 64

theorem nextOf_eq {v : Nat} (h : v < u64Max) : nextOf v = v + 1 := by
  unfold u64Max at h
  unfold nextOf
  omega

namespace Entry

/-- The default entry: nothing written, nothing held. -/
def empty : Entry := ⟨.new, none, fun _ => none⟩

/-- The bytes a replica is fresh for; a replica without a set is fresh for nothing. -/
def freshSet (e : Entry) (r : Replica) : RangeSet := (e.fresh r).getD .new

/-- The freshness after `taken` has become current in `replica`: it gains each of the
ranges, and the other replica loses them. -/
def settle (e : Entry) (replica : Replica) (taken : RangeSet) : Replica → Option RangeSet :=
  fun r =>
    if taken.isEmpty then e.fresh r
    else some (if r = replica then (e.freshSet r).insertAll taken
      else (e.freshSet r).removeAll taken)

/-- The effect of a completed write of `version`. -/
def materialize (e : Entry) (bytes : NamedRange) (version : ContentVersion)
    (replica : Replica) : Entry :=
  let out := e.canonical.apply bytes.1 version
  { e with canonical := out.1, fresh := e.settle replica out.2.taken }

end Entry

namespace ContentLedger

def new : ContentLedger := ⟨fun _ => none, 0, {}⟩

/-- `backings.entry(backing).or_default()`. -/
def entryOr (l : ContentLedger) (backing : BackingId) : Entry :=
  (l.backings backing).getD .empty

def setEntry (l : ContentLedger) (backing : BackingId) (e : Entry) : ContentLedger :=
  { l with backings := Function.update l.backings backing (some e) }

/-- The highest version current over `range`. -/
def versionOf (l : ContentLedger) (backing : BackingId) (range : ByteRange) :
    Option ContentVersion :=
  (l.backings backing).bind fun e => e.canonical.newestOver range

/-- The highest version current anywhere in the backing. -/
def newestVersion (l : ContentLedger) (backing : BackingId) : Option ContentVersion :=
  l.versionOf backing ⟨0, u64Max⟩

/-- The bytes a record naming the whole backing is naming. -/
def extent (l : ContentLedger) (backing : BackingId) : Option NamedRange :=
  (l.backings backing).bind Entry.extent

/-- Take the next version a write of this backing may produce. -/
def reserve (l : ContentLedger) (backing : BackingId) : ContentLedger × ContentVersion :=
  ({ l.setEntry backing (l.entryOr backing) with nextVersion := nextOf l.nextVersion },
    l.nextVersion)

/-- Record that a write of `bytes` at `version` has completed in `replica`. -/
def materialize (l : ContentLedger) (backing : BackingId) (bytes : NamedRange)
    (version : ContentVersion) (replica : Replica) : ContentLedger × Applied :=
  ({ l.setEntry backing ((l.entryOr backing).materialize bytes version replica) with
      nextVersion := if l.nextVersion ≤ version then nextOf version else l.nextVersion },
    ((l.entryOr backing).canonical.apply bytes.1 version).2)

/-- Record a write of `bytes` performed in `replica`. -/
def write (l : ContentLedger) (backing : BackingId) (bytes : NamedRange)
    (replica : Replica) : ContentLedger :=
  let l := { l with census.writes := l.census.writes + 1 }
  let reserved := l.reserve backing
  (reserved.1.materialize backing bytes reserved.2 replica).1

/-- The extent that covers both. -/
def joinExtent (old extent : ByteRange) : ByteRange :=
  let stop := max old.endOf extent.endOf
  let offset := min old.offset extent.offset
  ⟨offset, stop - offset⟩

theorem joinExtent_named (old extent : ByteRange) : (joinExtent old extent).Named := by
  have h1 := old.endOf_le
  have h2 := extent.endOf_le
  intro hpos
  simp only [joinExtent] at hpos ⊢
  omega

/-- Declare that a backing's content originates in one replica.  A known backing is
joined: its extent grows and the named range is a write. -/
def declare (l : ContentLedger) (backing : BackingId) (extent : NamedRange)
    (authority : Replica) : ContentLedger :=
  match l.backings backing with
  | some known =>
    let joined : NamedRange := match known.extent with
      | some old => ⟨joinExtent old.1 extent.1, joinExtent_named old.1 extent.1⟩
      | none => extent
    (l.setEntry backing { known with extent := some joined }).write backing extent authority
  | none =>
    let reserved := l.reserve backing
    reserved.1.setEntry backing
      { canonical := (VersionCoverage.new.apply extent.1 reserved.2).1
        extent := some extent
        fresh := fun r => if r = authority then some (.fromRange extent) else none }

/-- The transfer a read of `bytes` from `replica` needs, if any. -/
def transferForRead (l : ContentLedger) (backing : BackingId) (bytes : NamedRange)
    (replica : Replica) : ContentLedger × Option Transfer :=
  match l.backings backing with
  | none => ({ l with census.readsWithNoSource := l.census.readsWithNoSource + 1 }, none)
  | some e =>
    if (e.freshSet replica).covers bytes.1 then
      ({ l with census.readsAlreadyFresh := l.census.readsAlreadyFresh + 1 }, none)
    else
      let owed := (e.freshSet replica).missingFrom bytes
      let movable := owed.intersection (e.freshSet replica.other)
      if movable.isEmpty then
        ({ l with census.readsWithNoSource := l.census.readsWithNoSource + 1 }, none)
      else
        ({ l with
            census.transfersPlanned := l.census.transfersPlanned + 1
            census.transferBytes := l.census.transferBytes + movable.len },
          some ⟨backing, replica.other, replica, movable,
            movable.ranges.flatMap e.canonical.spansOver⟩)

/-- The part of one planned span that is still what the plan said. -/
def stillCurrent (e : Entry) (planned : Span) : List ByteRange :=
  (e.canonical.spansOver planned.range).filterMap fun now =>
    if now.version = planned.version then some now.range else none

theorem named_of_stillCurrent {e : Entry} {planned : List Span} :
    ∀ r ∈ planned.flatMap (stillCurrent e), r.Named := by
  intro r hr
  obtain ⟨p, -, hin⟩ := List.mem_flatMap.mp hr
  obtain ⟨now, hnow, hkeep⟩ := List.mem_filterMap.mp hin
  split at hkeep
  · cases hkeep
    exact (VersionCoverage.member_of_mem_spansOver hnow).named
  · cases hkeep

/-- The bytes of a completed copy that are still what the plan said. -/
def landed (e : Entry) (transfer : Transfer) : RangeSet :=
  .ofRanges (transfer.planned.flatMap (stillCurrent e)) named_of_stillCurrent

/-- The bytes a completed copy has overwritten with something older. -/
def clobbered (e : Entry) (transfer : Transfer) : RangeSet :=
  transfer.bytes.subtract (landed e transfer)

/-- Record that a planned transfer has completed. -/
def recordTransfer (l : ContentLedger) (transfer : Transfer) : ContentLedger :=
  match l.backings transfer.backing with
  | none => l
  | some e =>
    let set := ((e.freshSet transfer.dest).unionWith (landed e transfer)).subtract
      (clobbered e transfer)
    let l := l.setEntry transfer.backing
      { e with fresh := Function.update e.fresh transfer.dest (some set) }
    if (clobbered e transfer).isEmpty then l
    else { l with census.transfersOvertaken := l.census.transfersOvertaken + 1 }

/-- Discard a replica's copy of some bytes without changing the content. -/
def discard (l : ContentLedger) (backing : BackingId) (bytes : NamedRange)
    (replica : Replica) : ContentLedger :=
  match l.backings backing with
  | none => l
  | some e =>
    match e.fresh replica with
    | none => l
    | some set => l.setEntry backing
        { e with fresh := Function.update e.fresh replica (some (set.remove bytes)) }

/-- The bytes of `range` that only `replica` holds. -/
def soleAuthority (l : ContentLedger) (backing : BackingId) (range : NamedRange)
    (replica : Replica) : RangeSet :=
  match l.backings backing with
  | none => .new
  | some e =>
    match e.fresh replica with
    | none => .new
    | some here =>
      let out := here.intersection (.fromRange range)
      match e.fresh replica.other with
      | none => out
      | some elsewhere => out.subtract elsewhere

/-- Forget a backing entirely. -/
def forget (l : ContentLedger) (backing : BackingId) : ContentLedger :=
  { l with backings := Function.update l.backings backing none }

/-- Whether a replica is fresh for every byte of a range. -/
def isFresh (l : ContentLedger) (backing : BackingId) (bytes : ByteRange)
    (replica : Replica) : Bool :=
  match (l.backings backing).bind fun e => e.fresh replica with
  | none => false
  | some set => set.covers bytes

/-- `Lifecycle::complete` on a deferred discard: the device's copy of the bytes is dropped
if it is not the only one; the answer is the number of bytes that would have been lost. -/
def offerDiscard (l : ContentLedger) (backing : BackingId) (bytes : NamedRange) :
    ContentLedger × Option Nat :=
  let sole := l.soleAuthority backing bytes .deviceOwned
  if sole.isEmpty then (l.discard backing bytes .deviceOwned, none) else (l, some sole.len)

end ContentLedger

/-! ## Entries after an operation -/

namespace ContentLedger

theorem entryOr_of_some {l : ContentLedger} {b : BackingId} {e : Entry}
    (h : l.backings b = some e) : l.entryOr b = e := by
  simp [entryOr, h]

theorem entryOr_of_none {l : ContentLedger} {b : BackingId} (h : l.backings b = none) :
    l.entryOr b = .empty := by
  simp [entryOr, h]

@[simp] theorem entryOr_setEntry_self (l : ContentLedger) (b : BackingId) (e : Entry) :
    (l.setEntry b e).entryOr b = e := by
  simp [entryOr, setEntry]

theorem entryOr_setEntry_of_ne (l : ContentLedger) {b c : BackingId} (h : c ≠ b) (e : Entry) :
    (l.setEntry b e).entryOr c = l.entryOr c := by
  simp [entryOr, setEntry, h]

theorem entryOr_forget_self (l : ContentLedger) (b : BackingId) :
    (l.forget b).entryOr b = .empty := by
  simp [entryOr, forget]

theorem entryOr_forget_of_ne (l : ContentLedger) {b c : BackingId} (h : c ≠ b) :
    (l.forget b).entryOr c = l.entryOr c := by
  simp [entryOr, forget, h]

theorem entryOr_reserve (l : ContentLedger) (b c : BackingId) :
    (l.reserve b).1.entryOr c = l.entryOr c := by
  by_cases h : c = b
  · subst h
    exact l.entryOr_setEntry_self c (l.entryOr c)
  · exact l.entryOr_setEntry_of_ne h (l.entryOr b)

end ContentLedger

namespace ContentLedger

/-- What `version_of` answers: the greatest version current at a byte of the range. -/
theorem versionOf_eq_some_iff {l : ContentLedger} {b : BackingId} {range : ByteRange}
    {v : ContentVersion} :
    l.versionOf b range = some v ↔
      IsGreatest {u | ∃ x, range.Has x ∧ (l.entryOr b).canonical.versionAt x = some u} v := by
  unfold versionOf
  cases hb : l.backings b with
  | some e => rw [entryOr_of_some hb, Option.bind_some, VersionCoverage.newestOver_eq_some_iff]
  | none =>
    rw [entryOr_of_none hb]
    refine iff_of_false (by simp) ?_
    rintro ⟨⟨x, -, hv⟩, -⟩
    cases hv

theorem newestVersion_eq_some_iff {l : ContentLedger} {b : BackingId} {v : ContentVersion} :
    l.newestVersion b = some v ↔
      IsGreatest {u | ∃ x, (l.entryOr b).canonical.versionAt x = some u} v := by
  have hall : ∀ u, (∃ x, ByteRange.Has ⟨0, u64Max⟩ x ∧
      (l.entryOr b).canonical.versionAt x = some u) ↔
        ∃ x, (l.entryOr b).canonical.versionAt x = some u := by
    intro u
    constructor
    · rintro ⟨x, -, hx⟩
      exact ⟨x, hx⟩
    · rintro ⟨x, hx⟩
      have hlt := VersionCoverage.lt_of_versionAt hx
      exact ⟨x, ⟨Nat.zero_le x, by simpa [ByteRange.endOf] using hlt⟩, hx⟩
  simp only [newestVersion, versionOf_eq_some_iff, hall]

end ContentLedger

namespace Entry

@[simp] theorem freshSet_empty (r : Replica) : Entry.empty.freshSet r = .new := rfl

@[simp] theorem canonical_materialize (e : Entry) (bytes : NamedRange) (version : ContentVersion)
    (replica : Replica) :
    (e.materialize bytes version replica).canonical = (e.canonical.apply bytes.1 version).1 := rfl

/-- The replica a write lands in becomes fresh for what it took, the other one loses it. -/
theorem mem_freshSet_materialize {e : Entry} {bytes : NamedRange} {version : ContentVersion}
    {replica r : Replica} {x : Nat} :
    x ∈ ((e.materialize bytes version replica).freshSet r).bytes ↔
      (r = replica ∧ x ∈ (e.canonical.applied bytes.1 version).taken.bytes) ∨
        (x ∈ (e.freshSet r).bytes ∧
          (r = replica ∨ x ∉ (e.canonical.applied bytes.1 version).taken.bytes)) := by
  have htaken : (e.canonical.apply bytes.1 version).2.taken =
      (e.canonical.applied bytes.1 version).taken := rfl
  simp only [materialize, freshSet, settle, htaken]
  split
  · rename_i hempty
    rw [RangeSet.isEmpty_iff.mp hempty]
    simp
  · by_cases hr : r = replica
    · simp [hr]
    · simp [hr]

end Entry

/-! ## What the operations do to an entry -/

/-- What a write of `version` that completes in `replica` makes of an entry. -/
structure Wrote (old new : Entry) (bytes : NamedRange) (version : ContentVersion)
    (replica : Replica) : Prop where
  canonical : new.canonical = (old.canonical.apply bytes.1 version).1
  fresh : ∀ r x, x ∈ (new.freshSet r).bytes ↔
    (r = replica ∧ x ∈ (old.canonical.applied bytes.1 version).taken.bytes) ∨
      (x ∈ (old.freshSet r).bytes ∧
        (r = replica ∨ x ∉ (old.canonical.applied bytes.1 version).taken.bytes))

namespace ContentLedger

theorem wrote_materialize (l : ContentLedger) (b : BackingId) (bytes : NamedRange)
    (version : ContentVersion) (replica : Replica) :
    Wrote (l.entryOr b) ((l.materialize b bytes version replica).1.entryOr b) bytes version
      replica := by
  have hentry : (l.materialize b bytes version replica).1.entryOr b =
      (l.entryOr b).materialize bytes version replica := l.entryOr_setEntry_self b _
  rw [hentry]
  exact ⟨rfl, fun r x => Entry.mem_freshSet_materialize⟩

theorem entryOr_materialize_of_ne (l : ContentLedger) {b c : BackingId} (h : c ≠ b)
    (bytes : NamedRange) (version : ContentVersion) (replica : Replica) :
    (l.materialize b bytes version replica).1.entryOr c = l.entryOr c :=
  l.entryOr_setEntry_of_ne h _

theorem nextVersion_write {l : ContentLedger} (h : l.nextVersion < u64Max) (b : BackingId)
    (bytes : NamedRange) (replica : Replica) :
    (l.write b bytes replica).nextVersion = l.nextVersion + 1 := by
  have hnext : nextOf l.nextVersion = l.nextVersion + 1 := nextOf_eq h
  simp only [write, materialize, reserve, hnext]
  exact if_neg (Nat.not_le.mpr (Nat.lt_succ_self _))

/-- A write takes effect at the version the ledger hands out next. -/
theorem wrote_write (l : ContentLedger) (b : BackingId) (bytes : NamedRange)
    (replica : Replica) :
    Wrote (l.entryOr b) ((l.write b bytes replica).entryOr b) bytes l.nextVersion replica := by
  have hwrote := wrote_materialize
    ({ l with census.writes := l.census.writes + 1 }.reserve b).1 b bytes l.nextVersion replica
  rwa [entryOr_reserve] at hwrote

theorem entryOr_write_of_ne (l : ContentLedger) {b c : BackingId} (h : c ≠ b)
    (bytes : NamedRange) (replica : Replica) :
    (l.write b bytes replica).entryOr c = l.entryOr c := by
  unfold write
  dsimp only
  rw [entryOr_materialize_of_ne _ h, entryOr_reserve]
  rfl

theorem nextVersion_declare {l : ContentLedger} (h : l.nextVersion < u64Max) (b : BackingId)
    (extent : NamedRange) (authority : Replica) :
    (l.declare b extent authority).nextVersion = l.nextVersion + 1 := by
  unfold declare
  split
  · exact nextVersion_write h b extent authority
  · exact nextOf_eq h

theorem entryOr_declare_of_ne (l : ContentLedger) {b c : BackingId} (h : c ≠ b)
    (extent : NamedRange) (authority : Replica) :
    (l.declare b extent authority).entryOr c = l.entryOr c := by
  unfold declare
  split
  · rw [entryOr_write_of_ne _ h, entryOr_setEntry_of_ne _ h]
  · dsimp only
    rw [entryOr_setEntry_of_ne _ h, entryOr_reserve]

/-- To the content a declaration is a write by the authority it names, whether or not the
backing is known. -/
theorem wrote_declare (l : ContentLedger) (b : BackingId) (extent : NamedRange)
    (authority : Replica) :
    Wrote (l.entryOr b) ((l.declare b extent authority).entryOr b) extent l.nextVersion
      authority := by
  unfold declare
  cases hb : l.backings b with
  | some known =>
    dsimp only
    have hwrote := wrote_write (l.setEntry b { known with extent := some (match known.extent with
      | some old => ⟨joinExtent old.1 extent.1, joinExtent_named old.1 extent.1⟩
      | none => extent) }) b extent authority
    rw [entryOr_setEntry_self] at hwrote
    rw [entryOr_of_some hb]
    exact ⟨hwrote.canonical, hwrote.fresh⟩
  | none =>
    dsimp only
    rw [entryOr_setEntry_self, entryOr_of_none hb]
    refine ⟨rfl, fun r x => ?_⟩
    -- of a new backing the write takes every byte it names
    have htaken : x ∈ (Entry.empty.canonical.applied extent.1 l.nextVersion).taken.bytes ↔
        extent.1.Has x := by
      rw [VersionCoverage.mem_applied_taken]
      exact and_iff_left fun v hv => by cases hv
    rw [htaken]
    by_cases hr : r = authority
    · simp [Entry.freshSet, hr, Entry.empty]
    · simp [Entry.freshSet, hr, Entry.empty]

/-- Asking for a transfer changes no content. -/
theorem transferForRead_unchanged (l : ContentLedger) (b : BackingId) (bytes : NamedRange)
    (replica : Replica) :
    (l.transferForRead b bytes replica).1.backings = l.backings ∧
      (l.transferForRead b bytes replica).1.nextVersion = l.nextVersion := by
  unfold transferForRead
  split
  · exact ⟨rfl, rfl⟩
  · split
    · exact ⟨rfl, rfl⟩
    · dsimp only
      split <;> exact ⟨rfl, rfl⟩

theorem entryOr_transferForRead (l : ContentLedger) (b : BackingId) (bytes : NamedRange)
    (replica : Replica) (c : BackingId) :
    (l.transferForRead b bytes replica).1.entryOr c = l.entryOr c := by
  unfold entryOr
  rw [(l.transferForRead_unchanged b bytes replica).1]

theorem mem_landed {e : Entry} {t : Transfer} {x : Nat} :
    x ∈ (landed e t).bytes ↔
      ∃ p ∈ t.planned, p.range.Has x ∧ e.canonical.versionAt x = some p.version := by
  simp only [landed, RangeSet.mem_ofRanges]
  constructor
  · rintro ⟨r, hr, hx⟩
    obtain ⟨p, hp, hin⟩ := List.mem_flatMap.mp hr
    obtain ⟨now, hnow, hkeep⟩ := List.mem_filterMap.mp hin
    split at hkeep
    · rename_i hversion
      cases hkeep
      obtain ⟨hpx, hv⟩ := VersionCoverage.mem_spansOver hnow hx
      exact ⟨p, hp, hpx, by rw [hv, hversion]⟩
    · cases hkeep
  · rintro ⟨p, hp, hpx, hv⟩
    obtain ⟨now, hnow, hnx, hversion⟩ := VersionCoverage.exists_mem_spansOver hpx hv
    refine ⟨now.range, List.mem_flatMap.mpr ⟨p, hp, List.mem_filterMap.mpr ⟨now, hnow, ?_⟩⟩, hnx⟩
    rw [if_pos hversion]

/-- The versions of some ranges, as a list of spans, are the versions. -/
theorem versionIn_spansOver {c : VersionCoverage} {rs : List ByteRange} {x : Nat} {p : Span}
    (hp : p ∈ rs.flatMap c.spansOver) (hx : p.range.Has x) :
    Holds rs x ∧ versionIn (rs.flatMap c.spansOver) x = some p.version := by
  obtain ⟨r, hr, hover⟩ := List.mem_flatMap.mp hp
  obtain ⟨hrx, hv⟩ := VersionCoverage.mem_spansOver hover hx
  refine ⟨⟨r, hr, hrx⟩, ?_⟩
  cases hin : versionIn (rs.flatMap c.spansOver) x with
  | none => exact absurd hx (valueAt_eq_none_iff.mp hin p hp)
  | some v =>
    obtain ⟨q, hq, hlo, hhi, hval⟩ := exists_of_valueAt hin
    obtain ⟨s, -, hqover⟩ := List.mem_flatMap.mp hq
    obtain ⟨-, hqv⟩ := VersionCoverage.mem_spansOver hqover ⟨hlo, hhi⟩
    rw [hv] at hqv
    rw [← hval, Option.some.inj hqv]

/-- A transfer that is the one a read of `bytes` from `replica` needs: it moves what the
replica lacks and the other one has, at the versions that are current. -/
structure Needed (e : Entry) (b : BackingId) (bytes : NamedRange) (replica : Replica)
    (t : Transfer) : Prop where
  backing : t.backing = b
  source : t.source = replica.other
  dest : t.dest = replica
  moves : ∀ x, x ∈ t.bytes.bytes ↔
    bytes.1.Has x ∧ x ∉ (e.freshSet replica).bytes ∧ x ∈ (e.freshSet replica.other).bytes
  some_byte : t.bytes.bytes ≠ ∅
  planned : t.planned = t.bytes.ranges.flatMap e.canonical.spansOver

/-- A read gets no transfer if there is nothing to move, and else the one it needs. -/
theorem transferForRead_spec (l : ContentLedger) (b : BackingId) (bytes : NamedRange)
    (replica : Replica) :
    match (l.transferForRead b bytes replica).2 with
    | none => ∀ x, bytes.1.Has x → x ∈ ((l.entryOr b).freshSet replica.other).bytes →
        x ∈ ((l.entryOr b).freshSet replica).bytes
    | some t => Needed (l.entryOr b) b bytes replica t := by
  unfold transferForRead
  cases hb : l.backings b with
  | none =>
    intro x _ hx
    simp [entryOr_of_none hb] at hx
  | some e =>
    rw [entryOr_of_some hb]
    dsimp only
    by_cases hcovers : (e.freshSet replica).covers bytes.1 = true
    · rw [if_pos hcovers]
      exact fun x hx _ => (RangeSet.covers_iff bytes.2).mp hcovers x hx
    · rw [if_neg hcovers]
      have hmoves : ∀ x, x ∈ (((e.freshSet replica).missingFrom bytes).intersection
          (e.freshSet replica.other)).bytes ↔ bytes.1.Has x ∧
            x ∉ (e.freshSet replica).bytes ∧ x ∈ (e.freshSet replica.other).bytes := fun x => by
        simp [and_assoc]
      by_cases hnone : (((e.freshSet replica).missingFrom bytes).intersection
          (e.freshSet replica.other)).isEmpty = true
      · rw [if_pos hnone]
        intro x hx hother
        by_contra hout
        have hmem := (hmoves x).mpr ⟨hx, hout, hother⟩
        rw [RangeSet.isEmpty_iff.mp hnone] at hmem
        exact hmem
      · rw [if_neg hnone]
        exact ⟨rfl, rfl, rfl, hmoves, fun h => hnone (RangeSet.isEmpty_iff.mpr h), rfl⟩

theorem needed_of_transferForRead {l : ContentLedger} {b : BackingId} {bytes : NamedRange}
    {replica : Replica} {t : Transfer} (h : (l.transferForRead b bytes replica).2 = some t) :
    Needed (l.entryOr b) b bytes replica t := by
  have hspec := l.transferForRead_spec b bytes replica
  rwa [h] at hspec

theorem transferForRead_eq_none_iff {l : ContentLedger} {b : BackingId} {bytes : NamedRange}
    {replica : Replica} :
    (l.transferForRead b bytes replica).2 = none ↔
      ∀ x, bytes.1.Has x → x ∈ ((l.entryOr b).freshSet replica.other).bytes →
        x ∈ ((l.entryOr b).freshSet replica).bytes := by
  have hspec := l.transferForRead_spec b bytes replica
  cases ht : (l.transferForRead b bytes replica).2 with
  | none =>
    rw [ht] at hspec
    exact iff_of_true rfl hspec
  | some t =>
    rw [ht] at hspec
    refine iff_of_false (by simp) fun hall => hspec.some_byte ?_
    refine Set.eq_empty_iff_forall_notMem.mpr fun x hx => ?_
    obtain ⟨hin, hout, hother⟩ := (hspec.moves x).mp hx
    exact hout (hall x hin hother)

theorem nextVersion_recordTransfer (l : ContentLedger) (t : Transfer) :
    (l.recordTransfer t).nextVersion = l.nextVersion := by
  unfold recordTransfer
  split
  · rfl
  · dsimp only
    split <;> rfl

theorem entryOr_recordTransfer_of_ne (l : ContentLedger) {t : Transfer} {c : BackingId}
    (h : c ≠ t.backing) : (l.recordTransfer t).entryOr c = l.entryOr c := by
  unfold recordTransfer
  split
  · rfl
  · dsimp only
    split <;> exact l.entryOr_setEntry_of_ne h _

/-- A recorded copy changes no content; its destination gains what is still current of it
and loses the rest of what it moved. -/
theorem recordTransfer_spec (l : ContentLedger) (t : Transfer) :
    ((l.recordTransfer t).entryOr t.backing).canonical = (l.entryOr t.backing).canonical ∧
      ∀ r x, x ∈ (((l.recordTransfer t).entryOr t.backing).freshSet r).bytes ↔
        if r = t.dest then
          (x ∈ ((l.entryOr t.backing).freshSet r).bytes ∨
              x ∈ (landed (l.entryOr t.backing) t).bytes) ∧
            x ∉ (clobbered (l.entryOr t.backing) t).bytes
        else x ∈ ((l.entryOr t.backing).freshSet r).bytes := by
  unfold recordTransfer
  cases hb : l.backings t.backing with
  | none =>
    rw [entryOr_of_none hb]
    refine ⟨rfl, fun r x => ?_⟩
    have hlanded : x ∉ (landed Entry.empty t).bytes := fun hx => by
      obtain ⟨p, -, -, hv⟩ := mem_landed.mp hx
      cases hv
    simp [hlanded]
  | some e =>
    rw [entryOr_of_some hb]
    dsimp only
    have hentry : ∀ k : ContentLedger, k.backings =
        (l.setEntry t.backing { e with
          fresh := Function.update e.fresh t.dest (some (((e.freshSet t.dest).unionWith
            (landed e t)).subtract (clobbered e t))) }).backings →
        k.entryOr t.backing = { e with
          fresh := Function.update e.fresh t.dest (some (((e.freshSet t.dest).unionWith
            (landed e t)).subtract (clobbered e t))) } := by
      intro k hk
      simp [entryOr, hk, setEntry]
    rw [hentry _ (by split <;> rfl)]
    refine ⟨rfl, fun r x => ?_⟩
    by_cases hr : r = t.dest
    · subst hr
      simp [Entry.freshSet]
    · simp [Entry.freshSet, hr]

/-- A copy that has not been overtaken costs no replica a byte. -/
theorem fresh_recordTransfer {l : ContentLedger} {t : Transfer} {r : Replica} {x : Nat}
    (h : r = t.dest → x ∉ (clobbered (l.entryOr t.backing) t).bytes)
    (hx : x ∈ ((l.entryOr t.backing).freshSet r).bytes) :
    x ∈ (((l.recordTransfer t).entryOr t.backing).freshSet r).bytes := by
  rw [(l.recordTransfer_spec t).2]
  split
  · exact ⟨Or.inl hx, h ‹_›⟩
  · exact hx

theorem mem_soleAuthority {l : ContentLedger} {b : BackingId} {bytes : NamedRange}
    {replica : Replica} {x : Nat} :
    x ∈ (l.soleAuthority b bytes replica).bytes ↔
      x ∈ ((l.entryOr b).freshSet replica).bytes ∧ bytes.1.Has x ∧
        x ∉ ((l.entryOr b).freshSet replica.other).bytes := by
  unfold soleAuthority entryOr
  cases l.backings b with
  | none => simp
  | some e =>
    cases hhere : e.fresh replica <;> cases helse : e.fresh replica.other <;>
      simp [Entry.freshSet, hhere, helse, and_assoc]

theorem nextVersion_discard (l : ContentLedger) (b : BackingId) (bytes : NamedRange)
    (replica : Replica) : (l.discard b bytes replica).nextVersion = l.nextVersion := by
  unfold discard
  split
  · rfl
  · split <;> rfl

theorem entryOr_discard_of_ne (l : ContentLedger) {b c : BackingId} (h : c ≠ b)
    (bytes : NamedRange) (replica : Replica) :
    (l.discard b bytes replica).entryOr c = l.entryOr c := by
  unfold discard
  split
  · rfl
  · split
    · rfl
    · exact l.entryOr_setEntry_of_ne h _

/-- A discard leaves the content alone and takes the bytes from one replica. -/
theorem discard_spec (l : ContentLedger) (b : BackingId) (bytes : NamedRange)
    (replica : Replica) :
    ((l.discard b bytes replica).entryOr b).canonical = (l.entryOr b).canonical ∧
      ∀ r x, x ∈ (((l.discard b bytes replica).entryOr b).freshSet r).bytes ↔
        x ∈ ((l.entryOr b).freshSet r).bytes ∧ ¬(r = replica ∧ bytes.1.Has x) := by
  unfold discard
  cases hb : l.backings b with
  | none => simp [entryOr_of_none hb]
  | some e =>
    cases hset : e.fresh replica with
    | none =>
      simp only [hset, entryOr_of_some hb, true_and]
      intro r x
      by_cases hr : r = replica
      · simp [Entry.freshSet, hr, hset]
      · simp [hr]
    | some set =>
      simp only [hset, entryOr_of_some hb, entryOr_setEntry_self, true_and]
      intro r x
      by_cases hr : r = replica
      · simp [Entry.freshSet, hr, hset]
      · simp [Entry.freshSet, hr]

theorem nextVersion_offerDiscard (l : ContentLedger) (b : BackingId) (bytes : NamedRange) :
    (l.offerDiscard b bytes).1.nextVersion = l.nextVersion := by
  unfold offerDiscard
  dsimp only
  split
  · exact l.nextVersion_discard b bytes .deviceOwned
  · rfl

theorem entryOr_offerDiscard_of_ne (l : ContentLedger) {b c : BackingId} (h : c ≠ b)
    (bytes : NamedRange) : (l.offerDiscard b bytes).1.entryOr c = l.entryOr c := by
  unfold offerDiscard
  dsimp only
  split
  · exact l.entryOr_discard_of_ne h bytes .deviceOwned
  · rfl

/-- An offered discard drops nothing from the guest's pages, and from the device nothing
the guest's pages do not hold. -/
theorem offerDiscard_spec (l : ContentLedger) (b : BackingId) (bytes : NamedRange) :
    ((l.offerDiscard b bytes).1.entryOr b).canonical = (l.entryOr b).canonical ∧
      (∀ r x, x ∈ (((l.offerDiscard b bytes).1.entryOr b).freshSet r).bytes →
        x ∈ ((l.entryOr b).freshSet r).bytes) ∧
      ∀ r x, x ∈ ((l.entryOr b).freshSet r).bytes →
        x ∈ (((l.offerDiscard b bytes).1.entryOr b).freshSet r).bytes ∨
          (r = .deviceOwned ∧
            x ∈ (((l.offerDiscard b bytes).1.entryOr b).freshSet .guestPages).bytes) := by
  unfold offerDiscard
  dsimp only
  split
  · rename_i hsole
    obtain ⟨hcanonical, hfresh⟩ := l.discard_spec b bytes .deviceOwned
    refine ⟨hcanonical, fun r x hx => ((hfresh r x).mp hx).1, fun r x hx => ?_⟩
    by_cases hin : r = .deviceOwned ∧ bytes.1.Has x
    · -- no byte of the range is the device's alone
      obtain ⟨rfl, hbytes⟩ := hin
      refine Or.inr ⟨rfl, (hfresh _ x).mpr ⟨?_, fun h => by cases h.1⟩⟩
      by_contra hout
      have hmem := mem_soleAuthority.mpr ⟨hx, hbytes, hout⟩
      rw [RangeSet.isEmpty_iff.mp hsole] at hmem
      exact hmem
    · exact Or.inl ((hfresh r x).mpr ⟨hx, hin⟩)
  · exact ⟨rfl, fun _ _ h => h, fun _ _ h => Or.inl h⟩

theorem mem_of_isFresh {l : ContentLedger} {b : BackingId} {bytes : NamedRange}
    {r : Replica} (h : l.isFresh b bytes.1 r = true) {x : Nat} (hx : bytes.1.Has x) :
    x ∈ ((l.entryOr b).freshSet r).bytes := by
  unfold isFresh at h
  unfold entryOr Entry.freshSet
  cases he : l.backings b with
  | none => simp [he] at h
  | some e =>
    cases hset : e.fresh r with
    | none => simp [he, hset] at h
    | some set =>
      simp only [he, hset, Option.bind_some] at h
      simpa [hset] using (RangeSet.covers_iff bytes.2).mp h x hx

end ContentLedger

end Orchard.Content
