/-
  Content/RangeSet.lean --- the byte-range sets of the content authority.

  A `RangeSet` (`range_set.rs`) carries the invariant of its member list, and every
  operation computes the set operation it is named after.  Equality of range sets is
  equality of the bytes they hold.
-/
import Mathlib.Data.Set.Basic
import Orchard.Content.Ranges

set_option autoImplicit false

namespace Orchard.Content

/-- The ranges a caller passes in. -/
abbrev NamedRange := { r : ByteRange // r.Named }

/-- A sorted, disjoint, coalesced set of half-open byte ranges. -/
structure RangeSet where
  ranges : List ByteRange
  canonical : Canonical ranges
deriving DecidableEq

namespace RangeSet

/-- The bytes of the set. -/
def bytes (s : RangeSet) : Set Nat :=
  {x | Holds s.ranges x}

theorem mem_bytes {s : RangeSet} {x : Nat} : x ∈ s.bytes ↔ Holds s.ranges x :=
  Iff.rfl

/-- Equality of sets is structural. -/
theorem ext_bytes {s t : RangeSet} (h : s.bytes = t.bytes) : s = t := by
  have hranges : s.ranges = t.ranges :=
    s.canonical.ext t.canonical fun x => Set.ext_iff.mp h x
  cases s
  cases t
  simp only at hranges
  simp only [hranges]

/-- `new`. -/
def new : RangeSet := ⟨[], .nil⟩

def isEmpty (s : RangeSet) : Bool := s.ranges.isEmpty

/-- Total bytes covered. -/
def len (s : RangeSet) : Nat := (s.ranges.map ByteRange.length).sum

def insert (s : RangeSet) (r : NamedRange) : RangeSet :=
  ⟨insertRange s.ranges r.1, (insertRange_spec s.canonical r.2).1⟩

def fromRange (r : NamedRange) : RangeSet := new.insert r

def remove (s : RangeSet) (r : NamedRange) : RangeSet :=
  ⟨removeRange s.ranges r.1, (removeRange_spec s.canonical r.2).1⟩

def intersection (s t : RangeSet) : RangeSet :=
  ⟨intersectLoop s.ranges t.ranges, (intersectLoop_spec s.canonical t.canonical).canonical⟩

def subtract (s t : RangeSet) : RangeSet :=
  ⟨subtractRanges s.ranges t.ranges, (subtractRanges_spec s.canonical t.canonical).1⟩

def unionWith (s t : RangeSet) : RangeSet :=
  ⟨unionRanges s.ranges t.ranges, (unionRanges_spec s.canonical t.canonical).1⟩

/-- One `insert` for each member of `t`. -/
def insertAll (s t : RangeSet) : RangeSet :=
  ⟨t.ranges.foldl insertRange s.ranges,
    (foldl_insertRange_spec (fun r hr => (t.canonical.member r hr).named) s.canonical).1⟩

/-- One `remove` for each member of `t`. -/
def removeAll (s t : RangeSet) : RangeSet :=
  ⟨t.ranges.foldl removeRange s.ranges,
    (foldl_removeRange_spec (fun r hr => (t.canonical.member r hr).named) s.canonical).1⟩

/-- The set of ranges inserted one after the other. -/
def ofRanges (rs : List ByteRange) (h : ∀ r ∈ rs, r.Named) : RangeSet :=
  ⟨rs.foldl insertRange [], (foldl_insertRange_spec h Canonical.nil).1⟩

/-- Whether every byte of `range` is covered, by one member. -/
def covers (s : RangeSet) (range : ByteRange) : Bool :=
  if range.length = 0 then true
  else s.ranges.any fun r => decide (r.offset ≤ range.offset) && decide (range.endOf ≤ r.endOf)

/-- The parts of `range` the set does not cover. -/
def missingFrom (s : RangeSet) (range : NamedRange) : RangeSet :=
  (fromRange range).subtract s

@[simp] theorem bytes_new : new.bytes = ∅ := by
  ext x
  simp [mem_bytes, new]

@[simp] theorem mem_insert {s : RangeSet} {r : NamedRange} {x : Nat} :
    x ∈ (s.insert r).bytes ↔ r.1.Has x ∨ x ∈ s.bytes :=
  (insertRange_spec s.canonical r.2).2 x

@[simp] theorem mem_remove {s : RangeSet} {r : NamedRange} {x : Nat} :
    x ∈ (s.remove r).bytes ↔ x ∈ s.bytes ∧ ¬r.1.Has x :=
  (removeRange_spec s.canonical r.2).2 x

@[simp] theorem mem_intersection {s t : RangeSet} {x : Nat} :
    x ∈ (s.intersection t).bytes ↔ x ∈ s.bytes ∧ x ∈ t.bytes :=
  (intersectLoop_spec s.canonical t.canonical).holds x

@[simp] theorem mem_subtract {s t : RangeSet} {x : Nat} :
    x ∈ (s.subtract t).bytes ↔ x ∈ s.bytes ∧ x ∉ t.bytes :=
  (subtractRanges_spec s.canonical t.canonical).2 x

@[simp] theorem mem_unionWith {s t : RangeSet} {x : Nat} :
    x ∈ (s.unionWith t).bytes ↔ x ∈ s.bytes ∨ x ∈ t.bytes :=
  (unionRanges_spec s.canonical t.canonical).2 x

@[simp] theorem mem_fromRange {r : NamedRange} {x : Nat} :
    x ∈ (fromRange r).bytes ↔ r.1.Has x := by
  simp [fromRange]

@[simp] theorem mem_missingFrom {s : RangeSet} {r : NamedRange} {x : Nat} :
    x ∈ (s.missingFrom r).bytes ↔ r.1.Has x ∧ x ∉ s.bytes := by
  simp [missingFrom]

@[simp] theorem mem_insertAll {s t : RangeSet} {x : Nat} :
    x ∈ (s.insertAll t).bytes ↔ x ∈ t.bytes ∨ x ∈ s.bytes :=
  (foldl_insertRange_spec (fun r hr => (t.canonical.member r hr).named) s.canonical).2 x

@[simp] theorem mem_removeAll {s t : RangeSet} {x : Nat} :
    x ∈ (s.removeAll t).bytes ↔ x ∈ s.bytes ∧ x ∉ t.bytes :=
  (foldl_removeRange_spec (fun r hr => (t.canonical.member r hr).named) s.canonical).2 x

@[simp] theorem mem_ofRanges {rs : List ByteRange} {h : ∀ r ∈ rs, r.Named} {x : Nat} :
    x ∈ (ofRanges rs h).bytes ↔ Holds rs x := by
  refine ((foldl_insertRange_spec h Canonical.nil).2 x).trans ?_
  simp

theorem isEmpty_iff {s : RangeSet} : s.isEmpty = true ↔ s.bytes = ∅ := by
  constructor
  · intro h
    ext x
    simp [mem_bytes, List.isEmpty_iff.mp h]
  · intro h
    have : s = new := ext_bytes (h.trans bytes_new.symm)
    rw [this]
    rfl

/-- The byte a member ends at is not covered. -/
theorem endOf_not_mem {s : RangeSet} {r : ByteRange} (hr : r ∈ s.ranges) :
    r.endOf ∉ s.bytes := by
  obtain ⟨rs, hc⟩ := s
  simp only [mem_bytes] at hr ⊢
  induction rs with
  | nil => cases hr
  | cons a rs ih =>
    rw [holds_cons, not_or]
    rcases List.mem_cons.mp hr with rfl | hmem
    · exact ⟨by simp only [ByteRange.Has]; omega, hc.not_holds_tail (Nat.le_refl _)⟩
    · have h1 := hc.lt_offset r hmem
      have h2 := (hc.tail.member r hmem).lt_endOf
      exact ⟨by simp only [ByteRange.Has]; omega, ih hc.tail hmem⟩

/-- Since members do not touch, one of them covers a range that is covered at all. -/
theorem covers_iff {s : RangeSet} {r : ByteRange} (hr : r.Named) :
    s.covers r = true ↔ ∀ x, r.Has x → x ∈ s.bytes := by
  unfold covers
  split
  · rename_i hempty
    refine iff_of_true rfl fun x hx => ?_
    simp only [ByteRange.Has, ByteRange.endOf, hempty] at hx
    omega
  · rename_i hne
    have hlt := hr.lt_endOf (Nat.pos_of_ne_zero hne)
    simp only [List.any_eq_true, Bool.and_eq_true, decide_eq_true_eq]
    constructor
    · rintro ⟨a, ha, hoff, hend⟩ x hx
      simp only [ByteRange.Has] at hx
      exact ⟨a, ha, by simp only [ByteRange.Has]; omega⟩
    · intro hall
      obtain ⟨a, ha, hin⟩ := hall r.offset ⟨Nat.le_refl _, hlt⟩
      refine ⟨a, ha, hin.1, ?_⟩
      by_contra hshort
      exact endOf_not_mem ha (hall a.endOf ⟨Nat.le_of_lt hin.2, by omega⟩)

end RangeSet

/-! ## Sets built by any sequence of operations -/

/-- A use of the operations that build a set. -/
inductive SetExpr where
  | new
  | fromRange (r : NamedRange)
  | insert (e : SetExpr) (r : NamedRange)
  | remove (e : SetExpr) (r : NamedRange)
  | intersection (e f : SetExpr)
  | subtract (e f : SetExpr)
  | unionWith (e f : SetExpr)
  | missingFrom (e : SetExpr) (r : NamedRange)

/-- The set the code builds. -/
def SetExpr.build : SetExpr → RangeSet
  | .new => .new
  | .fromRange r => .fromRange r
  | .insert e r => e.build.insert r
  | .remove e r => e.build.remove r
  | .intersection e f => e.build.intersection f.build
  | .subtract e f => e.build.subtract f.build
  | .unionWith e f => e.build.unionWith f.build
  | .missingFrom e r => e.build.missingFrom r

/-- The set of bytes it stands for. -/
def SetExpr.denote : SetExpr → Set Nat
  | .new => ∅
  | .fromRange r => {x | r.1.Has x}
  | .insert e r => {x | r.1.Has x} ∪ e.denote
  | .remove e r => e.denote \ {x | r.1.Has x}
  | .intersection e f => e.denote ∩ f.denote
  | .subtract e f => e.denote \ f.denote
  | .unionWith e f => e.denote ∪ f.denote
  | .missingFrom e r => {x | r.1.Has x} \ e.denote

theorem SetExpr.bytes_build (e : SetExpr) : e.build.bytes = e.denote := by
  induction e with
  | new => exact RangeSet.bytes_new
  | fromRange r => ext x; simp [build, denote]
  | insert e r ih => ext x; simp [build, denote, ← ih]
  | remove e r ih => ext x; simp [build, denote, ← ih]
  | intersection e f ihe ihf => ext x; simp [build, denote, ← ihe, ← ihf]
  | subtract e f ihe ihf => ext x; simp [build, denote, ← ihe, ← ihf]
  | unionWith e f ihe ihf => ext x; simp [build, denote, ← ihe, ← ihf]
  | missingFrom e r ih => ext x; simp [build, denote, ← ih]

/-- **Range sets are exact and canonical.**  However a set is built, it holds exactly the
bytes of the set operations it was built with, and two sets are equal as lists of ranges
exactly when they hold the same bytes. -/
theorem rangeSet_exact (e f : SetExpr) :
    e.build.bytes = e.denote ∧ (e.build = f.build ↔ e.denote = f.denote) ∧
      ∀ r : NamedRange, (e.build.covers r.1 = true ↔ ∀ x, r.1.Has x → x ∈ e.denote) := by
  refine ⟨e.bytes_build, ⟨fun h => ?_, fun h => ?_⟩, fun r => ?_⟩
  · rw [← e.bytes_build, ← f.bytes_build, h]
  · exact RangeSet.ext_bytes (by rw [e.bytes_build, f.bytes_build, h])
  · rw [RangeSet.covers_iff r.2, e.bytes_build]

end Orchard.Content
