/-
  Content/Ranges.lean --- the loops of the byte-range sets.

  `range_set.rs` of `reims-vgpu-core` keeps a set of bytes of one backing as a sorted list
  of half-open ranges, of which no two touch.  Its loops are embedded here on the member
  list, each with what it keeps of that invariant and which bytes its result holds.
-/
import Mathlib.Data.Set.Basic
import Mathlib.Algebra.GroupWithZero.Nat
import Orchard.Foundation.Segments

set_option autoImplicit false

namespace Orchard.Content

open Orchard.Foundation

/-! ## Ranges -/

/-- `u64::MAX`, at which the ends of ranges saturate. -/
def u64Max : Nat := 2 ^ 64 - 1

/-- A half-open byte range within one backing. -/
structure ByteRange where
  offset : Nat
  length : Nat
deriving DecidableEq, Repr

/-- `end_of`: one past the last byte, with a saturating addition. -/
def ByteRange.endOf (r : ByteRange) : Nat :=
  min (r.offset + r.length) u64Max

/-- Whether two ranges share a byte; an empty range overlaps nothing. -/
def ByteRange.overlaps (r s : ByteRange) : Bool :=
  if r.length = 0 ∨ s.length = 0 then false
  else decide (r.offset < s.endOf) && decide (s.offset < r.endOf)

/-- The range contains the byte at `x`. -/
def ByteRange.Has (r : ByteRange) (x : Nat) : Prop :=
  r.offset ≤ x ∧ x < r.endOf

instance (r : ByteRange) (x : Nat) : Decidable (r.Has x) :=
  inferInstanceAs (Decidable (_ ∧ _))

/-- A range with bytes starts below the saturation point.  The one kind of range this
leaves out starts at `u64::MAX` and has a length: it names no byte. -/
def ByteRange.Named (r : ByteRange) : Prop :=
  0 < r.length → r.offset < u64Max

instance (r : ByteRange) : Decidable r.Named :=
  inferInstanceAs (Decidable (_ → _))

/-- A member of a range set: nonempty, and its end does not saturate. -/
def ByteRange.Member (r : ByteRange) : Prop :=
  0 < r.length ∧ r.offset + r.length ≤ u64Max

instance (r : ByteRange) : Decidable r.Member :=
  inferInstanceAs (Decidable (_ ∧ _))

theorem ByteRange.Member.endOf_eq {r : ByteRange} (h : r.Member) :
    r.endOf = r.offset + r.length :=
  Nat.min_eq_left h.2

theorem ByteRange.Member.lt_endOf {r : ByteRange} (h : r.Member) : r.offset < r.endOf := by
  have := h.1
  rw [h.endOf_eq]
  omega

theorem ByteRange.Member.named {r : ByteRange} (h : r.Member) : r.Named := by
  obtain ⟨hpos, hfits⟩ := h
  intro _
  omega

theorem ByteRange.endOf_le (r : ByteRange) : r.endOf ≤ u64Max :=
  Nat.min_le_right _ _

/-- The range from `a` to `b`, both below the saturation point. -/
theorem ByteRange.member_between {a b : Nat} (h : a < b) (hb : b ≤ u64Max) :
    ByteRange.Member ⟨a, b - a⟩ :=
  ⟨by simp only; omega, by simp only; omega⟩

@[simp] theorem ByteRange.endOf_between {a b : Nat} (h : a ≤ b) (hb : b ≤ u64Max) :
    ByteRange.endOf ⟨a, b - a⟩ = b := by
  simp only [ByteRange.endOf]
  omega

theorem ByteRange.Named.lt_endOf {r : ByteRange} (h : r.Named) (hpos : 0 < r.length) :
    r.offset < r.endOf := by
  have := h hpos
  simp only [ByteRange.endOf]
  omega

/-- Two named ranges overlap exactly when they share a byte. -/
theorem ByteRange.overlaps_iff {r s : ByteRange} (hr : r.Named) (hs : s.Named) :
    r.overlaps s = true ↔ ∃ x, r.Has x ∧ s.Has x := by
  unfold ByteRange.overlaps
  split
  · rename_i hempty
    constructor
    · intro h; cases h
    · rintro ⟨x, ⟨h1, h2⟩, h3, h4⟩
      simp only [ByteRange.endOf] at h2 h4
      omega
  · rename_i hne
    have h1 := hr.lt_endOf (by omega)
    have h2 := hs.lt_endOf (by omega)
    simp only [Bool.and_eq_true, decide_eq_true_eq, ByteRange.Has]
    constructor
    · intro h
      exact ⟨max r.offset s.offset, by omega, by omega⟩
    · rintro ⟨x, hx⟩
      omega

/-! ## The loops on the member list -/

/-- The members of a set: nonempty ranges in order, of which no two touch. -/
structure Canonical (rs : List ByteRange) : Prop where
  member : ∀ r ∈ rs, r.Member
  apart : rs.Pairwise fun a b => a.endOf < b.offset

instance (rs : List ByteRange) : Decidable (Canonical rs) :=
  decidable_of_iff ((∀ r ∈ rs, r.Member) ∧ rs.Pairwise fun a b => a.endOf < b.offset)
    ⟨fun h => ⟨h.1, h.2⟩, fun h => ⟨h.member, h.apart⟩⟩

/-- Some range of the list contains `x`. -/
def Holds (rs : List ByteRange) (x : Nat) : Prop :=
  ∃ r ∈ rs, r.Has x

instance (rs : List ByteRange) (x : Nat) : Decidable (Holds rs x) :=
  inferInstanceAs (Decidable (∃ r ∈ rs, r.Has x))

@[simp] theorem holds_nil (x : Nat) : ¬Holds [] x := by
  rintro ⟨_, h, -⟩
  cases h

@[simp] theorem holds_cons (r : ByteRange) (rs : List ByteRange) (x : Nat) :
    Holds (r :: rs) x ↔ r.Has x ∨ Holds rs x := by
  simp [Holds]

@[simp] theorem holds_append (rs ss : List ByteRange) (x : Nat) :
    Holds (rs ++ ss) x ↔ Holds rs x ∨ Holds ss x := by
  simp [Holds, or_and_right, exists_or]

theorem Canonical.nil : Canonical [] :=
  ⟨by simp, .nil⟩

theorem Canonical.tail {r : ByteRange} {rs : List ByteRange} (h : Canonical (r :: rs)) :
    Canonical rs :=
  ⟨fun s hs => h.member s (List.mem_cons_of_mem r hs), (List.pairwise_cons.mp h.apart).2⟩

theorem Canonical.head {r : ByteRange} {rs : List ByteRange} (h : Canonical (r :: rs)) :
    r.Member :=
  h.member r (List.mem_cons_self ..)

theorem Canonical.lt_offset {r : ByteRange} {rs : List ByteRange} (h : Canonical (r :: rs)) :
    ∀ s ∈ rs, r.endOf < s.offset :=
  (List.pairwise_cons.mp h.apart).1

theorem Canonical.cons {r : ByteRange} {rs : List ByteRange} (hr : r.Member)
    (hrs : Canonical rs) (h : ∀ s ∈ rs, r.endOf < s.offset) : Canonical (r :: rs) :=
  ⟨fun s hs => (List.mem_cons.mp hs).elim (fun e => e ▸ hr) (hrs.member s),
    List.pairwise_cons.mpr ⟨h, hrs.apart⟩⟩

theorem Canonical.append {rs ss : List ByteRange} (hrs : Canonical rs) (hss : Canonical ss)
    (h : ∀ r ∈ rs, ∀ s ∈ ss, r.endOf < s.offset) : Canonical (rs ++ ss) :=
  ⟨fun r hr => (List.mem_append.mp hr).elim (hrs.member r) (hss.member r),
    List.pairwise_append.mpr ⟨hrs.apart, hss.apart, h⟩⟩

/-- Nothing behind the head of the list is held before the head ends. -/
theorem Canonical.not_holds_tail {r : ByteRange} {rs : List ByteRange}
    (h : Canonical (r :: rs)) {x : Nat} (hx : x ≤ r.endOf) : ¬Holds rs x := by
  rintro ⟨s, hs, hin⟩
  have := h.lt_offset s hs
  simp only [ByteRange.Has] at hin
  omega

/-- Growing the last member by a range that touches it. -/
def touch (last range : ByteRange) : Option ByteRange :=
  if range.offset ≤ last.endOf then
    some { last with length := max last.endOf range.endOf - last.offset }
  else none

/-- `push_ascending`: append a range that begins at or after every member. -/
def pushAscending (rs : List ByteRange) (range : ByteRange) : List ByteRange :=
  if range.length = 0 then rs else pushLast touch rs range

/-- The loop of `insert`: `start` and `stop` delimit the merged range, and `placed` says
whether it has been written out. -/
def insertLoop (start stop : Nat) (placed : Bool) : List ByteRange → List ByteRange
  | [] => if placed then [] else [⟨start, stop - start⟩]
  | r :: rest =>
    if r.endOf < start ∨ stop < r.offset then
      if r.endOf < start then r :: insertLoop start stop placed rest
      else (if placed then [] else [⟨start, stop - start⟩]) ++
        r :: insertLoop start stop true rest
    else insertLoop (min start r.offset) (max stop r.endOf) placed rest

/-- `insert` on the members. -/
def insertRange (rs : List ByteRange) (range : ByteRange) : List ByteRange :=
  if range.length = 0 then rs else insertLoop range.offset range.endOf false rs

/-- The range from `lo` to `hi`, written out only if it has bytes. -/
def between (lo hi : Nat) : List ByteRange :=
  if lo < hi then [⟨lo, hi - lo⟩] else []

/-- What is left of one member once `cut` is taken out of it. -/
def cutMember (cut r : ByteRange) : List ByteRange :=
  if r.endOf ≤ cut.offset ∨ cut.endOf ≤ r.offset then [r]
  else between r.offset cut.offset ++ between cut.endOf r.endOf

/-- `remove` on the members. -/
def removeRange (rs : List ByteRange) (range : ByteRange) : List ByteRange :=
  if range.length = 0 then rs else rs.flatMap (cutMember range)

/-- The part two members share. -/
def overlapOf (a b : ByteRange) : List ByteRange :=
  between (max a.offset b.offset) (min a.endOf b.endOf)

/-- The walk of `intersection` against one member of the left side; `next` goes on with
the left side behind it. -/
def intersectMember (next : List ByteRange → List ByteRange) (a : ByteRange) :
    List ByteRange → List ByteRange
  | [] => []
  | b :: bs =>
    overlapOf a b ++
      if a.endOf < b.endOf then next (b :: bs) else intersectMember next a bs

/-- The merge walk of `intersection`: the member that ends first is retired. -/
def intersectLoop : List ByteRange → List ByteRange → List ByteRange
  | [], _ => []
  | a :: as, bs => intersectMember (intersectLoop as) a bs

/-- The inner loop of `subtract`: what is left of a member from `cur` to `stop`. -/
def cutLoop (stop : Nat) : Nat → List ByteRange → List ByteRange
  | cur, [] => between cur stop
  | cur, b :: bs =>
    if b.offset < stop then
      between cur b.offset ++
        if stop ≤ max cur b.endOf then [] else cutLoop stop (max cur b.endOf) bs
    else between cur stop

/-- The outer loop of `subtract`.  Members of the other side that end before this member
begins are skipped for good. -/
def subtractLoop : List ByteRange → List ByteRange → List ByteRange
  | [], _ => []
  | a :: as, other =>
    let rest := other.dropWhile fun b => decide (b.endOf ≤ a.offset)
    cutLoop a.endOf a.offset rest ++ subtractLoop as rest

/-- `subtract` on the members. -/
def subtractRanges (rs ss : List ByteRange) : List ByteRange :=
  if rs.isEmpty || ss.isEmpty then rs else subtractLoop rs ss

/-- The merge of `union_with` against one member of the left side. -/
def mergeMember (next : List ByteRange → List ByteRange) (a : ByteRange) :
    List ByteRange → List ByteRange
  | [] => a :: next []
  | b :: bs => if a.offset ≤ b.offset then a :: next (b :: bs) else b :: mergeMember next a bs

/-- Both member lists in order of their offsets. -/
def mergeRanges : List ByteRange → List ByteRange → List ByteRange
  | [], bs => bs
  | a :: as, bs => mergeMember (mergeRanges as) a bs

/-- `union_with` on the members: one merge walk that grows the last range written. -/
def unionRanges (rs ss : List ByteRange) : List ByteRange :=
  if ss.isEmpty then rs else if rs.isEmpty then ss
  else (mergeRanges rs ss).foldl (pushLast touch) []

/-! ### `push_ascending` and `union_with` -/

/-- A canonical list is the normal form of a set. -/
theorem canonical_iff_normal {rs : List ByteRange} (hm : ∀ r ∈ rs, r.Member) :
    Canonical rs ↔ Normal ByteRange.offset ByteRange.endOf (fun _ => ()) rs := by
  constructor
  · intro h
    refine ⟨fun r hr => (hm r hr).lt_endOf, h.apart.imp fun {a b} hab => ?_⟩
    exact ⟨Nat.le_of_lt hab, fun heq => absurd heq (Nat.ne_of_lt hab)⟩
  · intro h
    refine ⟨hm, h.behind.imp fun {a b} hab => ?_⟩
    exact Nat.lt_of_le_of_ne hab.1 fun heq => hab.2 heq rfl

theorem valueAt_eq_some_iff_holds {rs : List ByteRange} {x : Nat} :
    valueAt ByteRange.offset ByteRange.endOf (fun _ => ()) rs x = some () ↔ Holds rs x := by
  cases h : valueAt ByteRange.offset ByteRange.endOf (fun _ => ()) rs x with
  | none =>
    rw [valueAt_eq_none_iff] at h
    refine iff_of_false (by simp) ?_
    rintro ⟨r, hr, hin⟩
    exact h r hr hin
  | some u =>
    obtain ⟨r, hr, hlo, hhi, -⟩ := exists_of_valueAt h
    exact iff_of_true rfl ⟨r, hr, hlo, hhi⟩

/-- Two canonical lists that hold the same bytes are the same list. -/
theorem Canonical.ext {rs ss : List ByteRange} (hr : Canonical rs) (hs : Canonical ss)
    (h : ∀ x, Holds rs x ↔ Holds ss x) : rs = ss := by
  refine Normal.eq_of_valueAt_eq ((canonical_iff_normal hr.member).mp hr)
    ((canonical_iff_normal hs.member).mp hs) ?_ fun x => ?_
  · intro a ha b hb hoff hend _
    rw [(hr.member a ha).endOf_eq, (hs.member b hb).endOf_eq] at hend
    cases a
    cases b
    simp only at hoff hend
    simp only [ByteRange.mk.injEq]
    omega
  · have hx := h x
    rw [← valueAt_eq_some_iff_holds, ← valueAt_eq_some_iff_holds] at hx
    exact Option.ext fun u => hx

theorem touch_joins {last range : ByteRange} (hlast : last.Member) (hrange : range.Member)
    (h : last.offset ≤ range.offset) :
    Joins ByteRange.offset ByteRange.endOf (fun _ => ()) touch last range := by
  have h1 := hlast.lt_endOf
  have h2 := hrange.lt_endOf
  have h3 := last.endOf_le
  have h4 := range.endOf_le
  unfold Joins touch
  split
  · rename_i joined hj
    split at hj
    · rename_i htouch
      cases hj
      exact ⟨h, htouch, rfl, rfl, ByteRange.endOf_between (by omega) (by omega), rfl⟩
    · cases hj
  · rename_i hj
    split at hj
    · cases hj
    · exact ⟨by omega, by omega⟩

theorem touch_eq_some {last range joined : ByteRange} (h : touch last range = some joined) :
    joined.offset = last.offset ∧ joined.length = max last.endOf range.endOf - last.offset := by
  unfold touch at h
  split at h
  · cases h
    exact ⟨rfl, rfl⟩
  · cases h

/-- Appending a member that begins at or after the others. -/
theorem Canonical.pushLast {rs : List ByteRange} (hrs : Canonical rs) {range : ByteRange}
    (hrange : range.Member) (h : ∀ r ∈ rs, r.offset ≤ range.offset) :
    Canonical (pushLast touch rs range) ∧
      (∀ x, Holds (Foundation.pushLast touch rs range) x ↔ Holds rs x ∨ range.Has x) ∧
      ∀ r ∈ Foundation.pushLast touch rs range, r.offset ≤ range.offset := by
  have hnormal := (canonical_iff_normal hrs.member).mp hrs
  have hjoins : ∀ last ∈ rs.getLast?,
      Joins ByteRange.offset ByteRange.endOf (fun _ => ()) touch last range := fun last hlast =>
    have hmem := List.mem_of_getLast? hlast
    touch_joins (hrs.member last hmem) hrange (h last hmem)
  obtain ⟨hn, hv⟩ := hnormal.pushLast hrange.lt_endOf hjoins
  have hmember : ∀ r ∈ Foundation.pushLast touch rs range, r.Member := by
    intro r hr
    rcases mem_pushLast hr with hr | rfl | ⟨s, hs, hj⟩
    · exact hrs.member r hr
    · exact hrange
    · obtain ⟨hoff, hlen⟩ := touch_eq_some hj
      have h1 := (hrs.member s hs).lt_endOf
      have h2 := s.endOf_le
      have h3 := range.endOf_le
      exact ⟨by omega, by omega⟩
  refine ⟨(canonical_iff_normal hmember).mpr hn, fun x => ?_, fun r hr => ?_⟩
  · have hlast : Holds [range] x ↔ range.Has x := by simp
    rw [← hlast, ← valueAt_eq_some_iff_holds, hv, ← valueAt_eq_some_iff_holds,
      ← valueAt_eq_some_iff_holds, Option.or_eq_some_iff]
    cases valueAt ByteRange.offset ByteRange.endOf (fun _ => ()) rs x <;> simp
  · rcases mem_pushLast hr with hr | rfl | ⟨s, hs, hj⟩
    · exact h r hr
    · exact Nat.le_refl _
    · rw [(touch_eq_some hj).1]
      exact h s hs

theorem pushAscending_spec {rs : List ByteRange} (hrs : Canonical rs) {range : ByteRange}
    (hrange : range.Member) (h : ∀ r ∈ rs, r.offset ≤ range.offset) :
    Canonical (pushAscending rs range) ∧
      (∀ x, Holds (pushAscending rs range) x ↔ Holds rs x ∨ range.Has x) ∧
      ∀ r ∈ pushAscending rs range, r.offset ≤ range.offset := by
  unfold pushAscending
  rw [if_neg (Nat.ne_of_gt hrange.1)]
  exact hrs.pushLast hrange h

theorem mergeMember_spec {next : List ByteRange → List ByteRange} {a : ByteRange}
    {as : List ByteRange} (hnext : ∀ bs, (next bs).Perm (as ++ bs)) (bs : List ByteRange) :
    (mergeMember next a bs).Perm (a :: as ++ bs) := by
  induction bs with
  | nil =>
    rw [mergeMember]
    exact (hnext []).cons a
  | cons b bs ih =>
    rw [mergeMember]
    split
    · exact (hnext (b :: bs)).cons a
    · exact (ih.cons b).trans List.perm_middle.symm

theorem mergeRanges_perm (as bs : List ByteRange) : (mergeRanges as bs).Perm (as ++ bs) := by
  induction as generalizing bs with
  | nil => exact List.Perm.refl bs
  | cons a as ih => exact mergeMember_spec ih bs

/-- The offsets do not decrease along the list. -/
def Ascending (rs : List ByteRange) : Prop :=
  rs.Pairwise fun a b => a.offset ≤ b.offset

theorem Canonical.ascending {rs : List ByteRange} (h : Canonical rs) : Ascending rs := by
  induction rs with
  | nil => exact .nil
  | cons r rs ih =>
    refine List.pairwise_cons.mpr ⟨fun s hs => ?_, ih h.tail⟩
    have h1 := h.lt_offset s hs
    have h2 := h.head.lt_endOf
    omega

theorem mergeMember_ascending {next : List ByteRange → List ByteRange} {a : ByteRange}
    {as : List ByteRange} (ha : ∀ r ∈ as, a.offset ≤ r.offset)
    (hperm : ∀ bs, (next bs).Perm (as ++ bs)) (hnext : ∀ bs, Ascending bs → Ascending (next bs))
    {bs : List ByteRange} (hbs : Ascending bs) : Ascending (mergeMember next a bs) := by
  induction bs with
  | nil =>
    rw [mergeMember]
    refine List.pairwise_cons.mpr ⟨fun r hr => ?_, hnext [] hbs⟩
    exact ha r (by simpa using (hperm []).mem_iff.mp hr)
  | cons b bs ih =>
    have htail := List.pairwise_cons.mp hbs
    rw [mergeMember]
    split
    · rename_i hle
      refine List.pairwise_cons.mpr ⟨fun r hr => ?_, hnext _ hbs⟩
      rcases List.mem_append.mp ((hperm _).mem_iff.mp hr) with hr | hr
      · exact ha r hr
      · rcases List.mem_cons.mp hr with rfl | hr
        · exact hle
        · exact Nat.le_trans hle (htail.1 r hr)
    · rename_i hlt
      refine List.pairwise_cons.mpr ⟨fun r hr => ?_, ih htail.2⟩
      have hr := (mergeMember_spec hperm bs).mem_iff.mp hr
      rcases List.mem_append.mp hr with hr | hr
      · rcases List.mem_cons.mp hr with rfl | hr
        · omega
        · have := ha r hr
          omega
      · exact htail.1 r hr

theorem mergeRanges_ascending {as bs : List ByteRange} (has : Ascending as)
    (hbs : Ascending bs) : Ascending (mergeRanges as bs) := by
  induction as generalizing bs with
  | nil => exact hbs
  | cons a as ih =>
    have htail := List.pairwise_cons.mp has
    exact mergeMember_ascending htail.1 (mergeRanges_perm as)
      (fun bs hbs => ih htail.2 hbs) hbs

/-- Pushing an ascending list of members onto a set. -/
theorem foldl_pushLast_spec {ms : List ByteRange} (hms : Ascending ms)
    (hmember : ∀ m ∈ ms, m.Member) {rs : List ByteRange} (hrs : Canonical rs)
    (hbefore : ∀ r ∈ rs, ∀ m ∈ ms, r.offset ≤ m.offset) :
    Canonical (ms.foldl (pushLast touch) rs) ∧
      ∀ x, Holds (ms.foldl (pushLast touch) rs) x ↔ Holds rs x ∨ Holds ms x := by
  induction ms generalizing rs with
  | nil => exact ⟨hrs, by simp⟩
  | cons m ms ih =>
    have htail := List.pairwise_cons.mp hms
    obtain ⟨hc, hh, hle⟩ := hrs.pushLast (hmember m (List.mem_cons_self ..))
      (fun r hr => hbefore r hr m (List.mem_cons_self ..))
    obtain ⟨hc', hh'⟩ := ih htail.2 (fun n hn => hmember n (List.mem_cons_of_mem m hn)) hc
      (fun r hr n hn => Nat.le_trans (hle r hr) (htail.1 n hn))
    refine ⟨hc', fun x => ?_⟩
    rw [List.foldl_cons, hh', hh, holds_cons, or_assoc]

theorem unionRanges_spec {rs ss : List ByteRange} (hr : Canonical rs) (hs : Canonical ss) :
    Canonical (unionRanges rs ss) ∧
      ∀ x, Holds (unionRanges rs ss) x ↔ Holds rs x ∨ Holds ss x := by
  unfold unionRanges
  split
  · rename_i h
    rw [List.isEmpty_iff.mp h]
    exact ⟨hr, by simp⟩
  · split
    · rename_i h
      rw [List.isEmpty_iff.mp h]
      exact ⟨hs, by simp⟩
    · have hperm := mergeRanges_perm rs ss
      have hmember : ∀ m ∈ mergeRanges rs ss, m.Member := fun m hm =>
        (List.mem_append.mp (hperm.mem_iff.mp hm)).elim (hr.member m) (hs.member m)
      obtain ⟨hc, hh⟩ := foldl_pushLast_spec (mergeRanges_ascending hr.ascending hs.ascending)
        hmember Canonical.nil (by simp)
      refine ⟨hc, fun x => ?_⟩
      have hmerge : Holds (mergeRanges rs ss) x ↔ Holds (rs ++ ss) x := by
        simp only [Holds, hperm.mem_iff]
      rw [hh, hmerge, holds_append]
      simp

/-! ### `insert` and `remove` -/

theorem mem_between {lo hi : Nat} (hhi : hi ≤ u64Max) {r : ByteRange} (h : r ∈ between lo hi) :
    r.Member ∧ r.offset = lo ∧ r.endOf = hi := by
  unfold between at h
  split at h
  · rename_i hlt
    rw [List.mem_singleton.mp h]
    exact ⟨ByteRange.member_between hlt hhi, rfl, ByteRange.endOf_between (Nat.le_of_lt hlt) hhi⟩
  · cases h

theorem canonical_between {lo hi : Nat} (hhi : hi ≤ u64Max) : Canonical (between lo hi) := by
  refine ⟨fun r hr => (mem_between hhi hr).1, ?_⟩
  unfold between
  split
  · exact List.pairwise_singleton _ _
  · exact .nil

theorem holds_between {lo hi : Nat} (hhi : hi ≤ u64Max) (x : Nat) :
    Holds (between lo hi) x ↔ lo ≤ x ∧ x < hi := by
  unfold between
  split
  · rename_i hlt
    simp [ByteRange.Has, ByteRange.endOf_between (Nat.le_of_lt hlt) hhi]
  · simp only [holds_nil, false_iff]
    omega

/-- Once the merged range is written out, the members behind it are copied. -/
theorem insertLoop_placed {rs : List ByteRange} {start stop : Nat}
    (h : ∀ r ∈ rs, stop < r.offset) : insertLoop start stop true rs = rs := by
  induction rs with
  | nil => rfl
  | cons r rs ih =>
    have hr := h r (List.mem_cons_self ..)
    have hrest := ih fun s hs => h s (List.mem_cons_of_mem r hs)
    rw [insertLoop, if_pos (.inr hr), hrest]
    simp

theorem insertLoop_spec {rs : List ByteRange} (hrs : Canonical rs) {start stop : Nat}
    (hlt : start < stop) (hmax : stop ≤ u64Max) :
    Canonical (insertLoop start stop false rs) ∧
      (∀ x, Holds (insertLoop start stop false rs) x ↔ (start ≤ x ∧ x < stop) ∨ Holds rs x) ∧
      ∀ b, b < start → (∀ r ∈ rs, b < r.offset) →
        ∀ r ∈ insertLoop start stop false rs, b < r.offset := by
  induction rs generalizing start stop with
  | nil =>
    have hnew := ByteRange.member_between hlt hmax
    refine ⟨Canonical.cons hnew .nil (by simp), fun x => ?_, fun b hb _ r hr => ?_⟩
    · simp [insertLoop, ByteRange.Has, ByteRange.endOf_between (Nat.le_of_lt hlt) hmax]
    · simp only [insertLoop, Bool.false_eq_true, if_false, List.mem_singleton] at hr
      rw [hr]
      exact hb
  | cons r rest ih =>
    have hr := hrs.head
    have hrlt := hr.lt_endOf
    have hrmax := r.endOf_le
    rw [insertLoop]
    by_cases hleft : r.endOf < start
    · -- the member ends before the merged range
      rw [if_pos (.inl hleft), if_pos hleft]
      obtain ⟨hc, hh, hb⟩ := ih hrs.tail hlt hmax
      refine ⟨Canonical.cons hr hc (hb r.endOf hleft hrs.lt_offset), fun x => ?_, ?_⟩
      · rw [holds_cons, hh, holds_cons, or_left_comm]
      · intro b hbs hbr s hs
        rcases List.mem_cons.mp hs with rfl | hs
        · exact hbr s (List.mem_cons_self ..)
        · exact hb b hbs (fun t ht => hbr t (List.mem_cons_of_mem r ht)) s hs
    · by_cases hright : stop < r.offset
      · -- the merged range is written out before the member
        rw [if_pos (.inr hright), if_neg hleft]
        have hbehind : ∀ s ∈ rest, stop < s.offset := fun s hs => by
          have := hrs.lt_offset s hs
          omega
        rw [insertLoop_placed hbehind]
        have hend := ByteRange.endOf_between (Nat.le_of_lt hlt) hmax
        refine ⟨Canonical.cons (ByteRange.member_between hlt hmax) hrs fun s hs => ?_,
          fun x => ?_, fun b hbs hbr s hs => ?_⟩
        · rw [hend]
          rcases List.mem_cons.mp hs with rfl | hs
          · exact hright
          · exact hbehind s hs
        · simp [ByteRange.Has, hend]
        · rcases List.mem_cons.mp hs with rfl | hs
          · exact hbs
          · exact hbr s hs
      · -- they overlap or touch
        rw [if_neg (by omega)]
        have hgrown : min start r.offset < max stop r.endOf := by omega
        obtain ⟨hc, hh, hb⟩ := ih hrs.tail hgrown (by omega)
        refine ⟨hc, fun x => ?_, fun b hbs hbr => hb b ?_ ?_⟩
        · rw [hh, holds_cons, ← or_assoc]
          refine or_congr ?_ Iff.rfl
          simp only [ByteRange.Has]
          omega
        · have := hbr r (List.mem_cons_self ..)
          omega
        · exact fun s hs => hbr s (List.mem_cons_of_mem r hs)

theorem insertRange_spec {rs : List ByteRange} (hrs : Canonical rs) {range : ByteRange}
    (hrange : range.Named) :
    Canonical (insertRange rs range) ∧
      ∀ x, Holds (insertRange rs range) x ↔ range.Has x ∨ Holds rs x := by
  unfold insertRange
  split
  · rename_i hempty
    refine ⟨hrs, fun x => ?_⟩
    simp only [ByteRange.Has, ByteRange.endOf, hempty]
    constructor
    · exact .inr
    · rintro (h | h)
      · omega
      · exact h
  · rename_i hne
    obtain ⟨hc, hh, -⟩ := insertLoop_spec hrs (hrange.lt_endOf (Nat.pos_of_ne_zero hne))
      range.endOf_le
    exact ⟨hc, hh⟩

theorem mem_cutMember {cut r s : ByteRange} (hr : r.Member) (h : s ∈ cutMember cut r) :
    s.Member ∧ r.offset ≤ s.offset ∧ s.endOf ≤ r.endOf := by
  have hlt := hr.lt_endOf
  have hmax := r.endOf_le
  unfold cutMember at h
  split at h
  · rw [List.mem_singleton.mp h]
    exact ⟨hr, Nat.le_refl _, Nat.le_refl _⟩
  · rename_i hmeet
    rcases List.mem_append.mp h with h | h
    · obtain ⟨hm, hoff, hend⟩ := mem_between (by omega) h
      exact ⟨hm, by omega, by omega⟩
    · obtain ⟨hm, hoff, hend⟩ := mem_between hmax h
      exact ⟨hm, by omega, by omega⟩

theorem holds_cutMember {cut r : ByteRange} (hr : r.Member) (x : Nat) :
    Holds (cutMember cut r) x ↔ r.Has x ∧ ¬cut.Has x := by
  have hlt := hr.lt_endOf
  have hmax := r.endOf_le
  unfold cutMember
  split
  · simp only [holds_cons, holds_nil, or_false, ByteRange.Has]
    omega
  · rw [holds_append, holds_between (by omega), holds_between hmax]
    simp only [ByteRange.Has]
    omega

theorem canonical_cutMember {cut r : ByteRange} (hcut : cut.offset < cut.endOf)
    (hr : r.Member) : Canonical (cutMember cut r) := by
  have hmax := r.endOf_le
  unfold cutMember
  split
  · exact Canonical.cons hr .nil (by simp)
  · refine (canonical_between (by omega)).append (canonical_between hmax) fun s hs t ht => ?_
    rw [(mem_between (by omega) hs).2.2, (mem_between hmax ht).2.1]
    exact hcut

theorem removeRange_spec {rs : List ByteRange} (hrs : Canonical rs) {range : ByteRange}
    (hrange : range.Named) :
    Canonical (removeRange rs range) ∧
      ∀ x, Holds (removeRange rs range) x ↔ Holds rs x ∧ ¬range.Has x := by
  unfold removeRange
  split
  · rename_i hempty
    refine ⟨hrs, fun x => ?_⟩
    have : ¬range.Has x := by
      simp only [ByteRange.Has, ByteRange.endOf, hempty]
      omega
    simp [this]
  · rename_i hne
    have hcut := hrange.lt_endOf (Nat.pos_of_ne_zero hne)
    constructor
    · induction rs with
      | nil => exact .nil
      | cons r rest ih =>
        refine (canonical_cutMember hcut hrs.head).append (ih hrs.tail) ?_
        intro s hs t ht
        obtain ⟨u, hu, htu⟩ := List.mem_flatMap.mp ht
        have h1 := (mem_cutMember hrs.head hs).2.2
        have h2 := (mem_cutMember (hrs.tail.member u hu) htu).2.1
        have h3 := hrs.lt_offset u hu
        omega
    · intro x
      constructor
      · rintro ⟨s, hs, hx⟩
        obtain ⟨r, hr, hsr⟩ := List.mem_flatMap.mp hs
        obtain ⟨hrx, hnot⟩ := (holds_cutMember (hrs.member r hr) x).mp ⟨s, hsr, hx⟩
        exact ⟨⟨r, hr, hrx⟩, hnot⟩
      · rintro ⟨⟨r, hr, hrx⟩, hnot⟩
        obtain ⟨s, hs, hx⟩ := (holds_cutMember (hrs.member r hr) x).mpr ⟨hrx, hnot⟩
        exact ⟨s, List.mem_flatMap.mpr ⟨r, hr, hs⟩, hx⟩

/-- Inserting several ranges, one after the other. -/
theorem foldl_insertRange_spec {ts rs : List ByteRange} (hts : ∀ t ∈ ts, t.Named)
    (hrs : Canonical rs) :
    Canonical (ts.foldl insertRange rs) ∧
      ∀ x, Holds (ts.foldl insertRange rs) x ↔ Holds ts x ∨ Holds rs x := by
  induction ts generalizing rs with
  | nil => exact ⟨hrs, by simp⟩
  | cons t ts ih =>
    obtain ⟨hc, hh⟩ := insertRange_spec hrs (hts t (List.mem_cons_self ..))
    obtain ⟨hc', hh'⟩ := ih (fun u hu => hts u (List.mem_cons_of_mem t hu)) hc
    refine ⟨hc', fun x => ?_⟩
    rw [List.foldl_cons, hh', hh, holds_cons, or_left_comm, or_assoc]

/-- Removing several ranges, one after the other. -/
theorem foldl_removeRange_spec {ts rs : List ByteRange} (hts : ∀ t ∈ ts, t.Named)
    (hrs : Canonical rs) :
    Canonical (ts.foldl removeRange rs) ∧
      ∀ x, Holds (ts.foldl removeRange rs) x ↔ Holds rs x ∧ ¬Holds ts x := by
  induction ts generalizing rs with
  | nil => exact ⟨hrs, by simp⟩
  | cons t ts ih =>
    obtain ⟨hc, hh⟩ := removeRange_spec hrs (hts t (List.mem_cons_self ..))
    obtain ⟨hc', hh'⟩ := ih (fun u hu => hts u (List.mem_cons_of_mem t hu)) hc
    refine ⟨hc', fun x => ?_⟩
    rw [List.foldl_cons, hh', hh, holds_cons, not_or, and_assoc]

/-! ### `intersection` -/

theorem holds_overlapOf {a b : ByteRange} (x : Nat) :
    Holds (overlapOf a b) x ↔ a.Has x ∧ b.Has x := by
  have ha := a.endOf_le
  rw [overlapOf, holds_between (by omega)]
  simp only [ByteRange.Has]
  omega

theorem mem_overlapOf {a b r : ByteRange} (h : r ∈ overlapOf a b) :
    a.offset ≤ r.offset ∧ b.offset ≤ r.offset ∧ r.endOf = min a.endOf b.endOf := by
  have ha := a.endOf_le
  obtain ⟨-, hoff, hend⟩ := mem_between (by omega) h
  exact ⟨by omega, by omega, hend⟩

theorem canonical_overlapOf (a b : ByteRange) : Canonical (overlapOf a b) :=
  canonical_between (Nat.le_trans (Nat.min_le_left _ _) a.endOf_le)

/-- `out` is what two member lists share, and begins no earlier than either. -/
structure Shared (as bs out : List ByteRange) : Prop where
  canonical : Canonical out
  holds : ∀ x, Holds out x ↔ Holds as x ∧ Holds bs x
  left : ∀ r ∈ out, ∃ s ∈ as, s.offset ≤ r.offset
  right : ∀ r ∈ out, ∃ s ∈ bs, s.offset ≤ r.offset

/-- One step of the walk: the head that ends first is retired, the other one stays. -/
theorem Shared.step {a b : ByteRange} {as bs as' bs' out : List ByteRange}
    (ha : Canonical (a :: as)) (hb : Canonical (b :: bs)) (hout : Shared as' bs' out)
    (hstep : (a.endOf < b.endOf ∧ as' = as ∧ bs' = b :: bs) ∨
      (b.endOf ≤ a.endOf ∧ as' = a :: as ∧ bs' = bs)) :
    Shared (a :: as) (b :: bs) (overlapOf a b ++ out) := by
  have hafter : ∀ r ∈ out, min a.endOf b.endOf < r.offset := by
    intro r hr
    rcases hstep with ⟨hlt, rfl, -⟩ | ⟨hle, -, rfl⟩
    · obtain ⟨s, hs, hoff⟩ := hout.left r hr
      have := ha.lt_offset s hs
      omega
    · obtain ⟨s, hs, hoff⟩ := hout.right r hr
      have := hb.lt_offset s hs
      omega
  refine ⟨(canonical_overlapOf a b).append hout.canonical fun r hr s hs => ?_, fun x => ?_,
    fun r hr => ?_, fun r hr => ?_⟩
  · rw [(mem_overlapOf hr).2.2]
    exact hafter s hs
  · rw [holds_append, holds_overlapOf, hout.holds]
    rcases hstep with ⟨hlt, rfl, rfl⟩ | ⟨hle, rfl, rfl⟩
    · have hno : a.Has x → ¬Holds bs x := fun hx =>
        hb.not_holds_tail (by simp only [ByteRange.Has] at hx; omega)
      simp only [holds_cons]
      tauto
    · have hno : b.Has x → ¬Holds as x := fun hx =>
        ha.not_holds_tail (by simp only [ByteRange.Has] at hx; omega)
      simp only [holds_cons]
      tauto
  · rcases List.mem_append.mp hr with hr | hr
    · exact ⟨a, List.mem_cons_self .., (mem_overlapOf hr).1⟩
    · obtain ⟨s, hs, hoff⟩ := hout.left r hr
      rcases hstep with ⟨-, rfl, -⟩ | ⟨-, rfl, -⟩
      · exact ⟨s, List.mem_cons_of_mem a hs, hoff⟩
      · exact ⟨s, hs, hoff⟩
  · rcases List.mem_append.mp hr with hr | hr
    · exact ⟨b, List.mem_cons_self .., (mem_overlapOf hr).2.1⟩
    · obtain ⟨s, hs, hoff⟩ := hout.right r hr
      rcases hstep with ⟨-, -, rfl⟩ | ⟨-, -, rfl⟩
      · exact ⟨s, hs, hoff⟩
      · exact ⟨s, List.mem_cons_of_mem b hs, hoff⟩

theorem shared_nil_left (bs : List ByteRange) : Shared [] bs [] :=
  ⟨.nil, by simp, by simp, by simp⟩

theorem shared_nil_right (as : List ByteRange) : Shared as [] [] :=
  ⟨.nil, by simp, by simp, by simp⟩

theorem intersectLoop_spec {as bs : List ByteRange} (ha : Canonical as) (hb : Canonical bs) :
    Shared as bs (intersectLoop as bs) := by
  induction as generalizing bs with
  | nil => exact shared_nil_left bs
  | cons a as ih =>
    rw [intersectLoop]
    induction bs with
    | nil => exact shared_nil_right _
    | cons b bs ihb =>
      rw [intersectMember]
      split
      · rename_i hlt
        exact Shared.step ha hb (ih ha.tail hb) (.inl ⟨hlt, rfl, rfl⟩)
      · rename_i hle
        exact Shared.step ha hb (ihb hb.tail) (.inr ⟨by omega, rfl, rfl⟩)

/-! ### `subtract` -/

theorem cutLoop_spec {bs : List ByteRange} (hbs : Canonical bs) {stop : Nat}
    (hstop : stop ≤ u64Max) (cur : Nat) :
    Canonical (cutLoop stop cur bs) ∧
      (∀ x, Holds (cutLoop stop cur bs) x ↔ (cur ≤ x ∧ x < stop) ∧ ¬Holds bs x) ∧
      ∀ r ∈ cutLoop stop cur bs, cur ≤ r.offset ∧ r.endOf ≤ stop := by
  induction bs generalizing cur with
  | nil =>
    rw [cutLoop]
    refine ⟨canonical_between hstop, fun x => ?_, fun r h => ?_⟩
    · rw [holds_between hstop]
      simp
    · obtain ⟨-, hoff, hend⟩ := mem_between hstop h
      omega
  | cons b bs ih =>
    have hblt := hbs.head.lt_endOf
    have hearly : ∀ x, x < b.offset → ¬b.Has x ∧ ¬Holds bs x := fun x hx =>
      ⟨by simp only [ByteRange.Has]; omega, hbs.not_holds_tail (by omega)⟩
    rw [cutLoop]
    split
    · rename_i hmeets
      have hbmax : b.offset ≤ u64Max := by omega
      split
      · -- the member is used up
        rename_i hdone
        rw [List.append_nil]
        refine ⟨canonical_between hbmax, fun x => ?_, fun r h => ?_⟩
        · rw [holds_between hbmax, holds_cons, not_or]
          constructor
          · intro hx
            exact ⟨by omega, hearly x hx.2⟩
          · rintro ⟨hx, hnb, -⟩
            simp only [ByteRange.Has] at hnb
            omega
        · obtain ⟨-, hoff, hend⟩ := mem_between hbmax h
          omega
      · rename_i hmore
        obtain ⟨hc, hh, hr⟩ := ih hbs.tail (max cur b.endOf)
        refine ⟨(canonical_between hbmax).append hc fun r h s h' => ?_, fun x => ?_,
          fun r h => ?_⟩
        · have h1 := (mem_between hbmax h).2.2
          have h2 := (hr s h').1
          omega
        · rw [holds_append, holds_between hbmax, hh, holds_cons, not_or]
          constructor
          · rintro (hx | ⟨hx, hnot⟩)
            · exact ⟨by omega, hearly x hx.2⟩
            · exact ⟨by omega, by simp only [ByteRange.Has]; omega, hnot⟩
          · rintro ⟨hx, hnb, hnot⟩
            simp only [ByteRange.Has] at hnb
            by_cases hlt : x < b.offset
            · exact .inl (by omega)
            · exact .inr ⟨by omega, hnot⟩
        · rcases List.mem_append.mp h with h | h
          · obtain ⟨-, hoff, hend⟩ := mem_between hbmax h
            omega
          · have := hr r h
            omega
    · -- the rest of the list lies behind the member
      rename_i hpast
      refine ⟨canonical_between hstop, fun x => ?_, fun r h => ?_⟩
      · rw [holds_between hstop, holds_cons, not_or]
        exact ⟨fun hx => ⟨hx, hearly x (by omega)⟩, fun h => h.1⟩
      · obtain ⟨-, hoff, hend⟩ := mem_between hstop h
        omega

/-- The members that are skipped hold no byte from `lo` on. -/
theorem dropWhile_spec {ss : List ByteRange} (hss : Canonical ss) (lo : Nat) :
    Canonical (ss.dropWhile fun b => decide (b.endOf ≤ lo)) ∧
      ∀ x, lo ≤ x → (Holds (ss.dropWhile fun b => decide (b.endOf ≤ lo)) x ↔ Holds ss x) := by
  induction ss with
  | nil => exact ⟨.nil, fun _ _ => Iff.rfl⟩
  | cons b bs ih =>
    rw [List.dropWhile_cons]
    split
    · rename_i hskip
      rw [decide_eq_true_eq] at hskip
      obtain ⟨hc, hh⟩ := ih hss.tail
      refine ⟨hc, fun x hx => ?_⟩
      rw [hh x hx, holds_cons, or_iff_right]
      simp only [ByteRange.Has]
      omega
    · exact ⟨hss, fun _ _ => Iff.rfl⟩

theorem subtractLoop_spec {rs ss : List ByteRange} (hrs : Canonical rs) (hss : Canonical ss) :
    Canonical (subtractLoop rs ss) ∧
      (∀ x, Holds (subtractLoop rs ss) x ↔ Holds rs x ∧ ¬Holds ss x) ∧
      ∀ r ∈ subtractLoop rs ss, ∃ s ∈ rs, s.offset ≤ r.offset := by
  induction rs generalizing ss with
  | nil => exact ⟨.nil, by simp [subtractLoop], by simp [subtractLoop]⟩
  | cons a as ih =>
    have halt := hrs.head.lt_endOf
    obtain ⟨hrest, hskip⟩ := dropWhile_spec hss a.offset
    obtain ⟨hc, hh, hr⟩ := cutLoop_spec hrest a.endOf_le a.offset
    obtain ⟨hc', hh', hr'⟩ := ih hrs.tail hrest
    rw [subtractLoop]
    refine ⟨hc.append hc' fun r h s h' => ?_, fun x => ?_, fun r h => ?_⟩
    · obtain ⟨t, ht, hoff⟩ := hr' s h'
      have h1 := (hr r h).2
      have h2 := hrs.lt_offset t ht
      omega
    · rw [holds_append, hh, hh', holds_cons, or_and_right]
      -- the skipped members matter neither to this member nor to those behind it
      refine or_congr (and_congr_right fun hx => not_congr (hskip x hx.1))
        (and_congr_right fun hx => not_congr (hskip x ?_))
      obtain ⟨t, ht, hin⟩ := hx
      have h1 := hrs.lt_offset t ht
      simp only [ByteRange.Has] at hin
      omega
    · rcases List.mem_append.mp h with h | h
      · exact ⟨a, List.mem_cons_self .., (hr r h).1⟩
      · obtain ⟨t, ht, hoff⟩ := hr' r h
        exact ⟨t, List.mem_cons_of_mem a ht, hoff⟩

theorem subtractRanges_spec {rs ss : List ByteRange} (hrs : Canonical rs)
    (hss : Canonical ss) :
    Canonical (subtractRanges rs ss) ∧
      ∀ x, Holds (subtractRanges rs ss) x ↔ Holds rs x ∧ ¬Holds ss x := by
  unfold subtractRanges
  split
  · rename_i h
    refine ⟨hrs, fun x => ?_⟩
    rcases Bool.or_eq_true_iff.mp h with h | h <;> rw [List.isEmpty_iff.mp h] <;> simp
  · exact ⟨(subtractLoop_spec hrs hss).1, (subtractLoop_spec hrs hss).2.1⟩

end Orchard.Content
