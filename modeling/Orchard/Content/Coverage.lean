/-
  Content/Coverage.lean --- which content version is current in each part of a backing.

  `coverage.rs` of `reims-vgpu-core`.  A coverage is a list of spans in normal form; it
  denotes a partial function from bytes to versions.  A write takes the bytes that hold
  nothing newer, so that what is current at a byte is the highest version written there,
  in whatever order the writes complete.
-/
import Mathlib.Data.List.Sort
import Mathlib.Order.Bounds.Defs
import Orchard.Content.RangeSet

set_option autoImplicit false

namespace Orchard.Content

open Orchard.Foundation

/-- A content version. -/
abbrev ContentVersion := Nat

/-- One contiguous run of a backing that is current at one version. -/
structure Span where
  range : ByteRange
  version : ContentVersion
deriving DecidableEq, Repr

namespace Span

def lo (s : Span) : Nat := s.range.offset

def hi (s : Span) : Nat := s.range.endOf

end Span

/-- The version a list of spans gives to a byte. -/
abbrev versionIn (spans : List Span) (x : Nat) : Option ContentVersion :=
  valueAt Span.lo Span.hi Span.version spans x

/-- The version current in each part of one backing: sorted by offset, disjoint, and no
two adjacent spans share a version. -/
structure VersionCoverage where
  spans : List Span
  member : ∀ s ∈ spans, s.range.Member
  normal : Normal Span.lo Span.hi Span.version spans

/-! ## `apply` -/

/-- The state of the walk of `apply`. -/
structure Walk where
  cursor : Nat
  taken : List ByteRange
  refused : List ByteRange
deriving DecidableEq

/-- The bytes from the cursor to `stop`, taken or refused. -/
def Walk.pass (w : Walk) (take : Bool) (stop : Nat) : Walk :=
  let piece : ByteRange := ⟨w.cursor, stop - w.cursor⟩
  if take then { w with cursor := stop, taken := pushAscending w.taken piece }
  else { w with cursor := stop, refused := pushAscending w.refused piece }

@[simp] theorem Walk.cursor_pass (w : Walk) (take : Bool) (stop : Nat) :
    (w.pass take stop).cursor = stop := by
  cases take <;> rfl

/-- One span the walk reaches: the gap before it is taken, and the part of it inside the
range is taken where its version is older. -/
def Walk.visit (w : Walk) (stop : Nat) (version : ContentVersion) (span : Span) : Walk :=
  let w := if w.cursor < span.lo then w.pass true span.lo else w
  let overlapEnd := min stop span.hi
  if w.cursor < overlapEnd then w.pass (decide (span.version < version)) overlapEnd else w

/-- The loop of `apply` over the spans. -/
def applyLoop (stop : Nat) (version : ContentVersion) : Walk → List Span → Walk
  | w, [] => w
  | w, span :: rest =>
    if span.hi ≤ w.cursor then applyLoop stop version w rest
    else if stop ≤ span.lo then w
    else applyLoop stop version (w.visit stop version span) rest

/-- The walk of `apply`, with what lies behind the last span. -/
def applyWalk (spans : List Span) (range : ByteRange) (version : ContentVersion) : Walk :=
  let w := applyLoop range.endOf version ⟨range.offset, [], []⟩ spans
  if w.cursor < range.endOf then w.pass true range.endOf else w

/-- What the walk has done up to its cursor: the bytes whose version in `f` is older are
taken, the others are refused. -/
structure Split (f : Nat → Option ContentVersion) (version lo : Nat) (w : Walk) : Prop where
  start : lo ≤ w.cursor
  canonicalTaken : Canonical w.taken
  canonicalRefused : Canonical w.refused
  taken : ∀ x, Holds w.taken x ↔ (lo ≤ x ∧ x < w.cursor) ∧ ∀ v ∈ f x, v < version
  refused : ∀ x, Holds w.refused x ↔ (lo ≤ x ∧ x < w.cursor) ∧ ∃ v ∈ f x, version ≤ v
  beforeTaken : ∀ r ∈ w.taken, r.offset ≤ w.cursor
  beforeRefused : ∀ r ∈ w.refused, r.offset ≤ w.cursor

section Walks

variable {f : Nat → Option ContentVersion} {version lo : Nat} {w : Walk}

theorem Split.init (f : Nat → Option ContentVersion) (version lo : Nat) :
    Split f version lo ⟨lo, [], []⟩ where
  start := Nat.le_refl lo
  canonicalTaken := .nil
  canonicalRefused := .nil
  taken x := by simp only [holds_nil, false_iff]; omega
  refused x := by simp only [holds_nil, false_iff]; omega
  beforeTaken := by simp
  beforeRefused := by simp

/-- A stretch on which all versions are older, or none is. -/
theorem Split.pass (h : Split f version lo w) {stop : Nat} (hlt : w.cursor < stop)
    (hmax : stop ≤ u64Max) {take : Bool}
    (hold : take = true → ∀ x, w.cursor ≤ x → x < stop → ∀ v ∈ f x, v < version)
    (hnew : take = false → ∀ x, w.cursor ≤ x → x < stop → ∃ v ∈ f x, version ≤ v) :
    Split f version lo (w.pass take stop) := by
  have hstart : lo ≤ (w.pass take stop).cursor := by
    rw [Walk.cursor_pass]
    exact Nat.le_trans h.start (Nat.le_of_lt hlt)
  have hpiece : ByteRange.Member ⟨w.cursor, stop - w.cursor⟩ :=
    ByteRange.member_between hlt hmax
  have hhas : ∀ x, ByteRange.Has ⟨w.cursor, stop - w.cursor⟩ x ↔ w.cursor ≤ x ∧ x < stop :=
    fun x => by
      rw [ByteRange.Has, ByteRange.endOf_between (Nat.le_of_lt hlt) hmax]
  -- a byte before the new cursor was passed before or is passed now
  have hsplit : ∀ (P : Nat → Prop) (x : Nat), (lo ≤ x ∧ x < stop) ∧ P x ↔
      ((lo ≤ x ∧ x < w.cursor) ∧ P x) ∨ ((w.cursor ≤ x ∧ x < stop) ∧ P x) := by
    intro P x
    have := h.start
    rw [← or_and_right]
    refine and_congr_left fun _ => ?_
    omega
  have hgrow : ∀ {r : ByteRange}, r.offset ≤ w.cursor → r.offset ≤ stop := fun hr =>
    Nat.le_trans hr (Nat.le_of_lt hlt)
  cases take with
  | true =>
    obtain ⟨hc, hh, hb⟩ := pushAscending_spec h.canonicalTaken hpiece h.beforeTaken
    refine ⟨hstart, hc, h.canonicalRefused, fun x => ?_, fun x => ?_,
      fun r hr => hgrow (hb r hr), fun r hr => hgrow (h.beforeRefused r hr)⟩
    · refine (hh x).trans ?_
      rw [h.taken, hhas, Walk.cursor_pass, hsplit (fun x => ∀ v ∈ f x, v < version)]
      exact or_congr Iff.rfl ⟨fun hx => ⟨hx, hold rfl x hx.1 hx.2⟩, fun hx => hx.1⟩
    · refine (h.refused x).trans ?_
      rw [Walk.cursor_pass, hsplit (fun x => ∃ v ∈ f x, version ≤ v)]
      refine ⟨.inl, fun hx => hx.elim id fun hx => ?_⟩
      obtain ⟨v, hv, hle⟩ := hx.2
      exact absurd (hold rfl x hx.1.1 hx.1.2 v hv) (Nat.not_lt.mpr hle)
  | false =>
    obtain ⟨hc, hh, hb⟩ := pushAscending_spec h.canonicalRefused hpiece h.beforeRefused
    refine ⟨hstart, h.canonicalTaken, hc, fun x => ?_, fun x => ?_,
      fun r hr => hgrow (h.beforeTaken r hr), fun r hr => hgrow (hb r hr)⟩
    · refine (h.taken x).trans ?_
      rw [Walk.cursor_pass, hsplit (fun x => ∀ v ∈ f x, v < version)]
      refine ⟨.inl, fun hx => hx.elim id fun hx => ?_⟩
      obtain ⟨v, hv, hle⟩ := hnew rfl x hx.1.1 hx.1.2
      exact absurd (hx.2 v hv) (Nat.not_lt.mpr hle)
    · refine (hh x).trans ?_
      rw [h.refused, hhas, Walk.cursor_pass, hsplit (fun x => ∃ v ∈ f x, version ≤ v)]
      exact or_congr Iff.rfl ⟨fun hx => ⟨hx, hnew rfl x hx.1 hx.2⟩, fun hx => hx.1⟩

/-- A span the walk does not skip: from its start on the versions of `f` are those of the
spans still to come. -/
theorem Split.visit (h : Split f version lo w) {stop : Nat} (hmax : stop ≤ u64Max)
    (hcur : w.cursor ≤ stop) {span : Span} {rest : List Span}
    (hnormal : Normal Span.lo Span.hi Span.version (span :: rest))
    (hf : ∀ x, w.cursor ≤ x → x < stop → f x = versionIn (span :: rest) x)
    (hreach : w.cursor < span.hi) (hin : span.lo < stop) :
    Split f version lo (w.visit stop version span) ∧
      (w.visit stop version span).cursor = min stop span.hi := by
  -- the gap before the span
  have hgap : Split f version lo (if w.cursor < span.lo then w.pass true span.lo else w) := by
    split
    · rename_i hlt
      refine h.pass hlt (by omega) (fun _ x h1 h2 v hv => ?_) (by simp)
      rw [hf x h1 (by omega), versionIn, hnormal.valueAt_before h2] at hv
      cases hv
    · exact h
  have hcursor : (if w.cursor < span.lo then w.pass true span.lo else w).cursor =
      max w.cursor span.lo := by
    split
    · rw [Walk.cursor_pass]
      omega
    · omega
  have hspan : ∀ x, max w.cursor span.lo ≤ x → x < min stop span.hi →
      f x = some span.version := fun x h1 h2 => by
    rw [hf x (by omega) (by omega)]
    exact hnormal.valueAt_eq_some (List.mem_cons_self ..) (by omega) (by omega)
  have hne : span.lo < span.hi := hnormal.nonempty span (List.mem_cons_self ..)
  by_cases hempty : w.cursor = stop
  · -- the range is used up: there is nothing inside the span either
    have hz : ¬(if w.cursor < span.lo then w.pass true span.lo else w).cursor <
        min stop span.hi := by omega
    simp only [Walk.visit, if_neg hz]
    exact ⟨hgap, by omega⟩
  · have hz : (if w.cursor < span.lo then w.pass true span.lo else w).cursor <
        min stop span.hi := by omega
    simp only [Walk.visit, if_pos hz]
    refine ⟨hgap.pass hz (by omega) (fun htake x h1 h2 v hv => ?_) (fun htake x h1 h2 => ?_),
      Walk.cursor_pass ..⟩
    · rw [hspan x (by omega) h2] at hv
      cases hv
      exact of_decide_eq_true htake
    · exact ⟨span.version, by rw [hspan x (by omega) h2]; rfl,
        Nat.not_lt.mp (of_decide_eq_false htake)⟩

/-- The walk over all spans, and the bytes it leaves behind the last one. -/
theorem Split.loop {stop : Nat} (hmax : stop ≤ u64Max) {spans : List Span}
    (hnormal : Normal Span.lo Span.hi Span.version spans) {w : Walk}
    (h : Split f version lo w) (hcur : w.cursor ≤ stop)
    (hf : ∀ x, w.cursor ≤ x → x < stop → f x = versionIn spans x) :
    Split f version lo (applyLoop stop version w spans) ∧
      (applyLoop stop version w spans).cursor ≤ stop ∧
      ∀ x, (applyLoop stop version w spans).cursor ≤ x → x < stop → f x = none := by
  induction spans generalizing w with
  | nil => exact ⟨h, hcur, fun x h1 h2 => (hf x h1 h2).trans rfl⟩
  | cons span rest ih =>
    rw [applyLoop]
    split
    · rename_i hskip
      refine ih hnormal.tail h hcur fun x h1 h2 => ?_
      rw [hf x h1 h2, versionIn, valueAt_cons, if_neg (by omega)]
    · split
      · rename_i hpast
        refine ⟨h, hcur, fun x h1 h2 => ?_⟩
        rw [hf x h1 h2]
        exact hnormal.valueAt_before (by omega)
      · rename_i hreach hin
        obtain ⟨hvisit, hcursor⟩ := h.visit hmax hcur hnormal hf (by omega) (by omega)
        refine ih hnormal.tail hvisit (by omega) fun x h1 h2 => ?_
        rw [hf x (by omega) h2, versionIn, valueAt_cons, if_neg (by omega)]

end Walks

/-- A walk that starts at or past the end of every span passes none. -/
theorem applyLoop_of_past {stop : Nat} {version : ContentVersion} {w : Walk} {spans : List Span}
    (h : u64Max ≤ w.cursor) : applyLoop stop version w spans = w := by
  induction spans with
  | nil => rfl
  | cons span rest ih =>
    have hskip : span.hi ≤ w.cursor := Nat.le_trans span.range.endOf_le h
    rw [applyLoop, if_pos hskip, ih]

/-- The walk splits the range into the bytes that hold something older or nothing, and
those that hold something at least as new. -/
theorem applyWalk_spec {spans : List Span}
    (hnormal : Normal Span.lo Span.hi Span.version spans) {range : ByteRange}
    (hpos : range.length ≠ 0) (version : ContentVersion) :
    Canonical (applyWalk spans range version).taken ∧
      Canonical (applyWalk spans range version).refused ∧
      (∀ x, Holds (applyWalk spans range version).taken x ↔
        range.Has x ∧ ∀ v ∈ versionIn spans x, v < version) ∧
      ∀ x, Holds (applyWalk spans range version).refused x ↔
        range.Has x ∧ ∃ v ∈ versionIn spans x, version ≤ v := by
  have hmax := range.endOf_le
  have hend : Split (versionIn spans) version range.offset (applyWalk spans range version) ∧
      ∀ x, (range.offset ≤ x ∧ x < (applyWalk spans range version).cursor) ↔ range.Has x := by
    by_cases hnamed : range.Named
    · have hlt := hnamed.lt_endOf (Nat.pos_of_ne_zero hpos)
      obtain ⟨hloop, hcur, hnone⟩ := Split.loop hmax hnormal
        (Split.init (versionIn spans) version range.offset) (Nat.le_of_lt hlt) fun _ _ _ => rfl
      suffices hwalk : Split (versionIn spans) version range.offset
          (applyWalk spans range version) ∧
            (applyWalk spans range version).cursor = range.endOf by
        exact ⟨hwalk.1, fun x => by rw [hwalk.2]; rfl⟩
      unfold applyWalk
      dsimp only
      split
      · rename_i hmore
        refine ⟨hloop.pass hmore hmax (fun _ x h1 h2 v hv => ?_) (by simp), Walk.cursor_pass ..⟩
        rw [hnone x h1 h2] at hv
        cases hv
      · exact ⟨hloop, by omega⟩
    · -- a range that starts at the saturation point: the walk does not move
      have hpast : u64Max ≤ range.offset :=
        Nat.not_lt.mp fun hlt => hnamed fun _ => hlt
      have hwalk : applyWalk spans range version = ⟨range.offset, [], []⟩ := by
        rw [applyWalk, applyLoop_of_past hpast]
        exact if_neg (Nat.not_lt.mpr (Nat.le_trans hmax hpast))
      rw [hwalk]
      refine ⟨Split.init (versionIn spans) version range.offset, fun x => ?_⟩
      simp only [ByteRange.Has]
      omega
  obtain ⟨hsplit, hhas⟩ := hend
  refine ⟨hsplit.canonicalTaken, hsplit.canonicalRefused, fun x => ?_, fun x => ?_⟩
  · rw [hsplit.taken, hhas]
  · rw [hsplit.refused, hhas]

/-! ## `write_spans` -/

/-- What is left of a span once `bytes` have been taken from it: `missing_from` of its
range. -/
def leftOf (bytes : List ByteRange) (span : Span) : List Span :=
  (subtractRanges (insertRange [] span.range) bytes).map fun r => ⟨r, span.version⟩

/-- Growing the last span by one that touches it and agrees with it. -/
def joinSpans (last span : Span) : Option Span :=
  if last.range.endOf = span.range.offset ∧ last.version = span.version then
    some { last with
      range.length := min (last.range.length + span.range.length) u64Max }
  else none

/-- `coalesce`: merge runs that touch and agree. -/
def coalesceSpans (sorted : List Span) : List Span :=
  sorted.foldl (fun out span => if span.range.length = 0 then out
    else pushLast joinSpans out span) []

/-- The spans before they are merged: what is left of the old ones, and the new ones. -/
def rewritten (spans : List Span) (bytes : List ByteRange) (version : ContentVersion) :
    List Span :=
  spans.flatMap (leftOf bytes) ++ bytes.map fun r => ⟨r, version⟩

/-- The order the spans are sorted in. -/
def StartsBefore (a b : Span) : Prop := a.lo ≤ b.lo

instance : DecidableRel StartsBefore := fun a b => inferInstanceAs (Decidable (a.lo ≤ b.lo))

instance : Std.Total StartsBefore := ⟨fun a b => Nat.le_total a.lo b.lo⟩

instance : IsTrans Span StartsBefore := ⟨fun _ _ _ => Nat.le_trans⟩

/-- `write_spans`: replace the coverage of `bytes` with `version`. -/
def writeSpans (spans : List Span) (bytes : List ByteRange) (version : ContentVersion) :
    List Span :=
  coalesceSpans ((rewritten spans bytes version).insertionSort StartsBefore)

theorem holds_leftOf {bytes : List ByteRange} (hbytes : Canonical bytes) {span : Span}
    (hspan : span.range.Member) :
    Canonical ((leftOf bytes span).map Span.range) ∧
      ∀ x, Holds ((leftOf bytes span).map Span.range) x ↔ span.range.Has x ∧ ¬Holds bytes x := by
  obtain ⟨hc, hh⟩ := insertRange_spec Canonical.nil hspan.named
  have hmap : (leftOf bytes span).map Span.range =
      subtractRanges (insertRange [] span.range) bytes := by
    simp [leftOf, Function.comp_def]
  obtain ⟨hc', hh'⟩ := subtractRanges_spec hc hbytes
  rw [hmap]
  exact ⟨hc', fun x => by rw [hh', hh]; simp⟩

theorem version_of_mem_leftOf {bytes : List ByteRange} {span s : Span}
    (h : s ∈ leftOf bytes span) : s.version = span.version := by
  obtain ⟨r, -, rfl⟩ := List.mem_map.mp h
  rfl

/-- A byte and its version in the rewritten spans. -/
theorem mem_rewritten {spans : List Span} (hm : ∀ s ∈ spans, s.range.Member)
    {bytes : List ByteRange} (hbytes : Canonical bytes) (version x : Nat) (v : ContentVersion) :
    (∃ s ∈ rewritten spans bytes version, s.range.Has x ∧ s.version = v) ↔
      (Holds bytes x ∧ version = v) ∨
        (¬Holds bytes x ∧ ∃ s ∈ spans, s.range.Has x ∧ s.version = v) := by
  have hleft : (∃ s ∈ spans.flatMap (leftOf bytes), s.range.Has x ∧ s.version = v) ↔
      ¬Holds bytes x ∧ ∃ s ∈ spans, s.range.Has x ∧ s.version = v := by
    constructor
    · rintro ⟨s, hs, hx, rfl⟩
      obtain ⟨span, hspan, hin⟩ := List.mem_flatMap.mp hs
      have hhas := ((holds_leftOf hbytes (hm span hspan)).2 x).mp
        ⟨s.range, List.mem_map_of_mem hin, hx⟩
      exact ⟨hhas.2, span, hspan, hhas.1, (version_of_mem_leftOf hin).symm⟩
    · rintro ⟨hno, span, hspan, hx, rfl⟩
      obtain ⟨r, hr, hrx⟩ := ((holds_leftOf hbytes (hm span hspan)).2 x).mpr ⟨hx, hno⟩
      obtain ⟨s, hs, rfl⟩ := List.mem_map.mp hr
      exact ⟨s, List.mem_flatMap.mpr ⟨span, hspan, hs⟩, hrx, version_of_mem_leftOf hs⟩
  have hnew : (∃ s ∈ bytes.map fun r => (⟨r, version⟩ : Span), s.range.Has x ∧ s.version = v) ↔
      Holds bytes x ∧ version = v := by
    constructor
    · rintro ⟨s, hs, hx, hv⟩
      obtain ⟨r, hr, rfl⟩ := List.mem_map.mp hs
      exact ⟨⟨r, hr, hx⟩, hv⟩
    · rintro ⟨⟨r, hr, hx⟩, hv⟩
      exact ⟨⟨r, version⟩, List.mem_map_of_mem hr, hx, hv⟩
  simp only [rewritten, List.mem_append, or_and_right, exists_or, hleft, hnew]
  exact or_comm

theorem member_rewritten {spans : List Span} (hm : ∀ s ∈ spans, s.range.Member)
    {bytes : List ByteRange} (hbytes : Canonical bytes) (version : ContentVersion) :
    ∀ s ∈ rewritten spans bytes version, s.range.Member := by
  intro s hs
  rcases List.mem_append.mp hs with hs | hs
  · obtain ⟨span, hspan, hin⟩ := List.mem_flatMap.mp hs
    exact (holds_leftOf hbytes (hm span hspan)).1.member _ (List.mem_map_of_mem hin)
  · obtain ⟨r, hr, rfl⟩ := List.mem_map.mp hs
    exact hbytes.member r hr

/-- Two spans share no byte. -/
def Disjoint (a b : Span) : Prop :=
  ∀ x, ¬(a.range.Has x ∧ b.range.Has x)

theorem disjoint_of_le {a b : Span} (h : a.range.endOf ≤ b.range.offset) : Disjoint a b := by
  intro x hx
  simp only [ByteRange.Has] at hx
  omega

theorem rewritten_disjoint {spans : List Span} (hm : ∀ s ∈ spans, s.range.Member)
    (hordered : spans.Pairwise fun a b => a.hi ≤ b.lo) {bytes : List ByteRange}
    (hbytes : Canonical bytes) (version : ContentVersion) :
    (rewritten spans bytes version).Pairwise Disjoint := by
  -- a piece lies in its span and outside of the new bytes
  have hinside : ∀ span ∈ spans, ∀ s ∈ leftOf bytes span, ∀ x, s.range.Has x →
      span.range.Has x ∧ ¬Holds bytes x := fun span hspan s hs x hx =>
    ((holds_leftOf hbytes (hm span hspan)).2 x).mp ⟨s.range, List.mem_map_of_mem hs, hx⟩
  refine List.pairwise_append.mpr ⟨List.pairwise_flatMap.mpr ⟨fun span hspan => ?_, ?_⟩, ?_, ?_⟩
  · exact (List.pairwise_map.mp (holds_leftOf hbytes (hm span hspan)).1.apart).imp
      fun h => disjoint_of_le (Nat.le_of_lt h)
  · refine hordered.imp_of_mem fun {a b} ha hb hab s hs t ht x hx => ?_
    exact disjoint_of_le (a := a) (b := b) hab x
      ⟨(hinside a ha s hs x hx.1).1, (hinside b hb t ht x hx.2).1⟩
  · exact List.pairwise_map.mpr (hbytes.apart.imp fun h => disjoint_of_le (Nat.le_of_lt h))
  · intro s hs t ht x hx
    obtain ⟨span, hspan, hin⟩ := List.mem_flatMap.mp hs
    obtain ⟨r, hr, rfl⟩ := List.mem_map.mp ht
    exact (hinside span hspan s hin x hx.1).2 ⟨r, hr, hx.2⟩

theorem joinSpans_joins {last span : Span} (hlast : last.range.Member)
    (hspan : span.range.Member) (h : last.hi ≤ span.lo) :
    Joins Span.lo Span.hi Span.version joinSpans last span := by
  have hend := hlast.endOf_eq
  have hend' := hspan.endOf_eq
  unfold Joins joinSpans
  split
  · rename_i joined hj
    split at hj
    · rename_i htouch
      cases hj
      have hfits := hspan.2
      simp only [Span.lo, Span.hi] at h ⊢
      refine ⟨by omega, by omega, htouch.2, trivial, ?_, htouch.2⟩
      simp only [ByteRange.endOf] at hend hend' htouch ⊢
      omega
    · cases hj
  · rename_i hj
    split at hj
    · cases hj
    · rename_i hno
      exact ⟨h, fun htouch hv => hno ⟨htouch, hv⟩⟩

theorem member_of_joinSpans {last span joined : Span} (hlast : last.range.Member)
    (hspan : span.range.Member) (h : joinSpans last span = some joined) :
    joined.range.Member ∧ joined.range.endOf = span.range.endOf := by
  unfold joinSpans at h
  split at h
  · rename_i htouch
    cases h
    have hfits := hspan.2
    have hpos := hspan.1
    have hend := hlast.endOf_eq
    have hend' := hspan.endOf_eq
    simp only [ByteRange.Member, ByteRange.endOf] at hend hend' htouch ⊢
    omega
  · cases h

/-- Merging spans in order changes no version, and leaves them in normal form. -/
theorem foldl_joinSpans_spec {l : List Span} (hm : ∀ s ∈ l, s.range.Member)
    (hordered : l.Pairwise fun a b => a.hi ≤ b.lo) {out : List Span}
    (hout : ∀ s ∈ out, s.range.Member) (hnormal : Normal Span.lo Span.hi Span.version out)
    (hbefore : ∀ s ∈ out, ∀ t ∈ l, s.hi ≤ t.lo) :
    let merged := l.foldl (fun out span => if span.range.length = 0 then out
      else pushLast joinSpans out span) out
    (∀ s ∈ merged, s.range.Member) ∧ Normal Span.lo Span.hi Span.version merged ∧
      ∀ x, versionIn merged x = (versionIn out x).or (versionIn l x) := by
  induction l generalizing out with
  | nil => exact ⟨hout, hnormal, fun x => (Option.or_none).symm⟩
  | cons span rest ih =>
    obtain ⟨hhead, htail⟩ := List.pairwise_cons.mp hordered
    have hspan := hm span (List.mem_cons_self ..)
    have hjoins : ∀ last ∈ out.getLast?,
        Joins Span.lo Span.hi Span.version joinSpans last span := fun last hlast =>
      have hmem := List.mem_of_getLast? hlast
      joinSpans_joins (hout last hmem) hspan (hbefore last hmem span (List.mem_cons_self ..))
    obtain ⟨hn, hv⟩ := hnormal.pushLast hspan.lt_endOf hjoins
    -- what stands in the grown list is a member and lies before the rest
    have hgrown : ∀ s ∈ pushLast joinSpans out span,
        s.range.Member ∧ ∀ t ∈ rest, s.hi ≤ t.lo := by
      intro s hs
      rcases mem_pushLast hs with hs | rfl | ⟨last, hlast, hj⟩
      · exact ⟨hout s hs, fun t ht => hbefore s hs t (List.mem_cons_of_mem span ht)⟩
      · exact ⟨hspan, hhead⟩
      · obtain ⟨hmember, hend⟩ := member_of_joinSpans (hout last hlast) hspan hj
        refine ⟨hmember, fun t ht => ?_⟩
        rw [Span.hi, hend]
        exact hhead t ht
    obtain ⟨h1, h2, h3⟩ := ih (fun s hs => hm s (List.mem_cons_of_mem span hs)) htail
      (fun s hs => (hgrown s hs).1) hn fun s hs => (hgrown s hs).2
    simp only [List.foldl_cons, if_neg (Nat.ne_of_gt hspan.1)]
    refine ⟨h1, h2, fun x => ?_⟩
    rw [h3, versionIn, hv, Option.or_assoc, ← valueAt_append]
    rfl

theorem coalesceSpans_spec {l : List Span} (hm : ∀ s ∈ l, s.range.Member)
    (hordered : l.Pairwise fun a b => a.hi ≤ b.lo) :
    (∀ s ∈ coalesceSpans l, s.range.Member) ∧
      Normal Span.lo Span.hi Span.version (coalesceSpans l) ∧
      ∀ x, versionIn (coalesceSpans l) x = versionIn l x :=
  foldl_joinSpans_spec hm hordered (by simp) ⟨by simp, .nil⟩ (by simp)

/-- The new bytes have the new version, all others the one they had. -/
theorem writeSpans_spec {spans : List Span} (hm : ∀ s ∈ spans, s.range.Member)
    (hnormal : Normal Span.lo Span.hi Span.version spans) {bytes : List ByteRange}
    (hbytes : Canonical bytes) (version : ContentVersion) :
    (∀ s ∈ writeSpans spans bytes version, s.range.Member) ∧
      Normal Span.lo Span.hi Span.version (writeSpans spans bytes version) ∧
      (∀ x, Holds bytes x → versionIn (writeSpans spans bytes version) x = some version) ∧
      ∀ x, ¬Holds bytes x →
        versionIn (writeSpans spans bytes version) x = versionIn spans x := by
  have hperm := List.perm_insertionSort StartsBefore (rewritten spans bytes version)
  have hmember : ∀ s ∈ (rewritten spans bytes version).insertionSort StartsBefore,
      s.range.Member := fun s hs =>
    member_rewritten hm hbytes version s (hperm.mem_iff.mp hs)
  have hdisjoint : ((rewritten spans bytes version).insertionSort StartsBefore).Pairwise
      Disjoint :=
    hperm.symm.pairwise (rewritten_disjoint hm (hnormal.behind.imp And.left) hbytes version)
      fun h x hx => h x hx.symm
  -- sorted and disjoint spans lie one behind the other
  have hordered : ((rewritten spans bytes version).insertionSort StartsBefore).Pairwise
      fun a b => a.hi ≤ b.lo := by
    refine ((List.pairwise_insertionSort StartsBefore _).and hdisjoint).imp_of_mem
      fun {a b} ha hb hab => ?_
    have hlo : a.lo ≤ b.lo := hab.1
    have hb' := (hmember b hb).lt_endOf
    by_contra hlt
    exact hab.2 b.lo ⟨⟨hlo, Nat.not_le.mp hlt⟩, Nat.le_refl _, hb'⟩
  obtain ⟨h1, h2, h3⟩ := coalesceSpans_spec hmember hordered
  have hread : ∀ x v, versionIn (writeSpans spans bytes version) x = some v ↔
      ∃ s ∈ rewritten spans bytes version, s.range.Has x ∧ s.version = v := by
    intro x v
    rw [writeSpans, h3]
    constructor
    · intro h
      obtain ⟨s, hs, hlo, hhi, hv⟩ := exists_of_valueAt h
      exact ⟨s, hperm.mem_iff.mp hs, ⟨hlo, hhi⟩, hv⟩
    · rintro ⟨s, hs, hx, rfl⟩
      exact valueAt_of_mem hordered (hperm.mem_iff.mpr hs) hx.1 hx.2
  refine ⟨h1, h2, fun x hx => ?_, fun x hx => ?_⟩
  · exact (hread x version).mpr ((mem_rewritten hm hbytes version x version).mpr
      (.inl ⟨hx, rfl⟩))
  · refine Option.ext fun v => ?_
    rw [hread, mem_rewritten hm hbytes]
    constructor
    · rintro (⟨hin, -⟩ | ⟨-, s, hs, hin, rfl⟩)
      · exact absurd hin hx
      · exact hnormal.valueAt_eq_some hs hin.1 hin.2
    · intro h
      obtain ⟨s, hs, hlo, hhi, hv⟩ := exists_of_valueAt h
      exact .inr ⟨hx, s, hs, ⟨hlo, hhi⟩, hv⟩

/-! ## Coverages -/

/-- What `apply` did: the bytes the version now covers, and those something at least as
new already covers. -/
structure Applied where
  taken : RangeSet
  refused : RangeSet
deriving DecidableEq

namespace Applied

/-- Whether the write landed nowhere at all. -/
def isEmpty (a : Applied) : Bool := a.taken.isEmpty

/-- Whether some part of the write was beaten by newer content. -/
def wasPartlyStale (a : Applied) : Bool := !a.refused.isEmpty

end Applied

namespace VersionCoverage

def new : VersionCoverage := ⟨[], by simp, by simp, .nil⟩

/-- The version current at a byte; `none` where nothing has been written. -/
def versionAt (c : VersionCoverage) (x : Nat) : Option ContentVersion :=
  versionIn c.spans x

@[simp] theorem versionAt_new (x : Nat) : new.versionAt x = none := rfl

/-- A coverage is determined by the versions of the bytes. -/
theorem ext_versionAt {c d : VersionCoverage} (h : ∀ x, c.versionAt x = d.versionAt x) :
    c = d := by
  have hspans : c.spans = d.spans := by
    refine Normal.eq_of_valueAt_eq c.normal d.normal (fun a ha b hb hlo hhi hv => ?_) h
    have h1 := (c.member a ha).endOf_eq
    have h2 := (d.member b hb).endOf_eq
    obtain ⟨⟨ao, al⟩, av⟩ := a
    obtain ⟨⟨bo, bl⟩, bv⟩ := b
    simp only [Span.lo, Span.hi] at hlo hhi hv h1 h2
    simp only [Span.mk.injEq, ByteRange.mk.injEq]
    exact ⟨⟨hlo, by omega⟩, hv⟩
  cases c
  cases d
  simp only at hspans
  simp only [hspans]

/-- A span clipped to a range, if they meet. -/
def clip (range : ByteRange) (span : Span) : Option Span :=
  let start := max span.range.offset range.offset
  let stop := min span.range.endOf range.endOf
  if start < stop then some ⟨⟨start, stop - start⟩, span.version⟩ else none

/-- The versions covering `range`, clipped to it, in offset order. -/
def spansOver (c : VersionCoverage) (range : ByteRange) : List Span :=
  c.spans.filterMap (clip range)

/-- The highest version covering any part of `range`. -/
def newestOver (c : VersionCoverage) (range : ByteRange) : Option ContentVersion :=
  ((c.spansOver range).map Span.version).max?

/-- Which bytes a write of `version` takes, and which it does not. -/
def applied (c : VersionCoverage) (range : ByteRange) (version : ContentVersion) : Applied :=
  if h : range.length = 0 then ⟨.new, .new⟩
  else
    have hspec := applyWalk_spec c.normal h version
    ⟨⟨(applyWalk c.spans range version).taken, hspec.1⟩,
      ⟨(applyWalk c.spans range version).refused, hspec.2.1⟩⟩

/-- Replace the coverage of `bytes` with `version`. -/
def write (c : VersionCoverage) (bytes : RangeSet) (version : ContentVersion) :
    VersionCoverage :=
  ⟨writeSpans c.spans bytes.ranges version,
    (writeSpans_spec c.member c.normal bytes.canonical version).1,
    (writeSpans_spec c.member c.normal bytes.canonical version).2.1⟩

/-- Make `version` current over `range`, wherever nothing newer is. -/
def apply (c : VersionCoverage) (range : ByteRange) (version : ContentVersion) :
    VersionCoverage × Applied :=
  let out := c.applied range version
  (if out.taken.isEmpty then c else c.write out.taken version, out)

theorem member_of_mem_spansOver {c : VersionCoverage} {range : ByteRange} {s : Span}
    (h : s ∈ c.spansOver range) : s.range.Member := by
  obtain ⟨span, -, hclip⟩ := List.mem_filterMap.mp h
  have hmax := range.endOf_le
  unfold clip at hclip
  dsimp only at hclip
  split at hclip
  · rename_i hlt
    cases hclip
    exact ByteRange.member_between hlt (by omega)
  · cases hclip

theorem mem_spansOver {c : VersionCoverage} {range : ByteRange} {s : Span}
    (h : s ∈ c.spansOver range) {x : Nat} (hx : s.range.Has x) :
    range.Has x ∧ c.versionAt x = some s.version := by
  obtain ⟨span, hspan, hclip⟩ := List.mem_filterMap.mp h
  have hmax := range.endOf_le
  unfold clip at hclip
  dsimp only at hclip
  split at hclip
  · cases hclip
    simp only [ByteRange.Has] at hx ⊢
    rw [ByteRange.endOf_between (by omega) (by omega)] at hx
    exact ⟨by omega, c.normal.valueAt_eq_some hspan (by simp only [Span.lo]; omega)
      (by simp only [Span.hi]; omega)⟩
  · cases hclip

theorem exists_mem_spansOver {c : VersionCoverage} {range : ByteRange} {x : Nat}
    (hx : range.Has x) {v : ContentVersion} (hv : c.versionAt x = some v) :
    ∃ s ∈ c.spansOver range, s.range.Has x ∧ s.version = v := by
  obtain ⟨span, hspan, hlo, hhi, hval⟩ := exists_of_valueAt hv
  have hmax := range.endOf_le
  simp only [Span.lo, Span.hi] at hlo hhi
  simp only [ByteRange.Has] at hx
  have hmeet : max span.range.offset range.offset < min span.range.endOf range.endOf := by omega
  have hclip : clip range span = some ⟨⟨max span.range.offset range.offset,
      min span.range.endOf range.endOf - max span.range.offset range.offset⟩, span.version⟩ :=
    if_pos hmeet
  refine ⟨_, List.mem_filterMap.mpr ⟨span, hspan, hclip⟩, ?_, hval⟩
  simp only [ByteRange.Has]
  rw [ByteRange.endOf_between (by omega) (by omega)]
  omega

/-- What `newest_over` answers: the greatest version of a byte of the range. -/
theorem newestOver_eq_some_iff {c : VersionCoverage} {range : ByteRange} {v : ContentVersion} :
    c.newestOver range = some v ↔
      IsGreatest {u | ∃ x, range.Has x ∧ c.versionAt x = some u} v := by
  -- the versions of the clipped spans are the versions of the bytes
  have hversions : ∀ u, u ∈ (c.spansOver range).map Span.version ↔
      ∃ x, range.Has x ∧ c.versionAt x = some u := by
    intro u
    constructor
    · intro hu
      obtain ⟨s, hs, rfl⟩ := List.mem_map.mp hu
      have hfirst : s.range.Has s.range.offset :=
        ⟨Nat.le_refl _, (member_of_mem_spansOver hs).lt_endOf⟩
      exact ⟨s.range.offset, mem_spansOver hs hfirst⟩
    · rintro ⟨x, hx, hu⟩
      obtain ⟨s, hs, -, rfl⟩ := exists_mem_spansOver hx hu
      exact List.mem_map_of_mem hs
  rw [newestOver, List.max?_eq_some_iff]
  constructor
  · rintro ⟨hin, hle⟩
    exact ⟨(hversions v).mp hin, fun u hu => hle u ((hversions u).mpr hu)⟩
  · rintro ⟨hin, hle⟩
    exact ⟨(hversions v).mpr hin, fun u hu => hle ((hversions u).mp hu)⟩

/-- Versions lie below the saturation point. -/
theorem lt_of_versionAt {c : VersionCoverage} {x : Nat} {v : ContentVersion}
    (h : c.versionAt x = some v) : x < u64Max := by
  obtain ⟨s, -, -, hhi, -⟩ := exists_of_valueAt h
  exact Nat.lt_of_lt_of_le hhi s.range.endOf_le

theorem mem_applied_taken {c : VersionCoverage} {range : ByteRange}
    {version : ContentVersion} {x : Nat} :
    x ∈ (c.applied range version).taken.bytes ↔
      range.Has x ∧ ∀ v ∈ c.versionAt x, v < version := by
  unfold applied
  split
  · rename_i hempty
    simp only [RangeSet.bytes_new, Set.mem_empty_iff_false, ByteRange.Has, ByteRange.endOf,
      hempty, false_iff]
    omega
  · rename_i hne
    exact (applyWalk_spec c.normal hne version).2.2.1 x

theorem mem_applied_refused {c : VersionCoverage} {range : ByteRange}
    {version : ContentVersion} {x : Nat} :
    x ∈ (c.applied range version).refused.bytes ↔
      range.Has x ∧ ∃ v ∈ c.versionAt x, version ≤ v := by
  unfold applied
  split
  · rename_i hempty
    simp only [RangeSet.bytes_new, Set.mem_empty_iff_false, ByteRange.Has, ByteRange.endOf,
      hempty, false_iff]
    omega
  · rename_i hne
    exact (applyWalk_spec c.normal hne version).2.2.2 x

theorem versionAt_write_of_mem {c : VersionCoverage} {bytes : RangeSet}
    {version : ContentVersion} {x : Nat} (h : x ∈ bytes.bytes) :
    (c.write bytes version).versionAt x = some version :=
  (writeSpans_spec c.member c.normal bytes.canonical version).2.2.1 x h

theorem versionAt_write_of_not_mem {c : VersionCoverage} {bytes : RangeSet}
    {version : ContentVersion} {x : Nat} (h : x ∉ bytes.bytes) :
    (c.write bytes version).versionAt x = c.versionAt x :=
  (writeSpans_spec c.member c.normal bytes.canonical version).2.2.2 x h

theorem versionAt_apply_of_taken {c : VersionCoverage} {range : ByteRange}
    {version : ContentVersion} {x : Nat} (h : x ∈ (c.applied range version).taken.bytes) :
    (c.apply range version).1.versionAt x = some version := by
  simp only [apply]
  split
  · rename_i hempty
    rw [RangeSet.isEmpty_iff.mp hempty] at h
    cases h
  · exact versionAt_write_of_mem h

theorem versionAt_apply_of_not_taken {c : VersionCoverage} {range : ByteRange}
    {version : ContentVersion} {x : Nat} (h : x ∉ (c.applied range version).taken.bytes) :
    (c.apply range version).1.versionAt x = c.versionAt x := by
  simp only [apply]
  split
  · rfl
  · exact versionAt_write_of_not_mem h

/-- The version of a byte after a write is the higher of the two. -/
theorem versionAt_apply (c : VersionCoverage) (range : ByteRange)
    (version : ContentVersion) (x : Nat) :
    (c.apply range version).1.versionAt x =
      if range.Has x then (c.versionAt x).merge max (some version) else c.versionAt x := by
  split
  · rename_i hin
    cases hold : c.versionAt x with
    | none =>
      rw [versionAt_apply_of_taken (mem_applied_taken.mpr ⟨hin, by simp [hold]⟩)]
      rfl
    | some v =>
      by_cases hlt : v < version
      · rw [versionAt_apply_of_taken (mem_applied_taken.mpr ⟨hin, by simpa [hold] using hlt⟩)]
        exact congrArg some (Nat.max_eq_right (Nat.le_of_lt hlt)).symm
      · rw [versionAt_apply_of_not_taken fun h => hlt ((mem_applied_taken.mp h).2 v hold), hold]
        exact congrArg some (Nat.max_eq_left (Nat.not_lt.mp hlt)).symm
  · rename_i hout
    exact versionAt_apply_of_not_taken fun h => hout (mem_applied_taken.mp h).1

end VersionCoverage

/-! ## Completions in any order -/

/-- A completed write: the bytes it wrote and the version it had reserved. -/
structure Completion where
  range : ByteRange
  version : ContentVersion

/-- The coverage after the writes completed in this order. -/
def VersionCoverage.applyAll (c : VersionCoverage) (writes : List Completion) :
    VersionCoverage :=
  writes.foldl (fun c w => (c.apply w.range w.version).1) c

/-- The versions of the writes that cover a byte. -/
def versionsOver (writes : List Completion) (x : Nat) : List ContentVersion :=
  (writes.filter fun w => decide (w.range.Has x)).map Completion.version

theorem VersionCoverage.versionAt_applyAll (c : VersionCoverage) (writes : List Completion)
    (x : Nat) :
    (c.applyAll writes).versionAt x =
      (versionsOver writes x).foldl (fun acc v => acc.merge max (some v)) (c.versionAt x) := by
  induction writes generalizing c with
  | nil => rfl
  | cons w rest ih =>
    rw [applyAll, List.foldl_cons, ← applyAll, ih, versionAt_apply]
    by_cases h : w.range.Has x <;> simp [versionsOver, h]

theorem foldl_merge_max (vs : List Nat) (a : Nat) :
    vs.foldl (fun acc v => acc.merge max (some v)) (some a) = some (vs.foldl max a) := by
  induction vs generalizing a with
  | nil => rfl
  | cons v vs ih => exact ih (max a v)

/-- **The order of completions does not matter.**  The coverage that a set of completed
writes leaves behind is the same list of spans in whatever order they completed, and the
version it gives a byte is the highest of those that wrote it. -/
theorem completions_confluent {writes other : List Completion} (h : writes.Perm other) :
    VersionCoverage.new.applyAll writes = VersionCoverage.new.applyAll other ∧
      ∀ x, (VersionCoverage.new.applyAll writes).versionAt x = (versionsOver writes x).max? := by
  have hmax : ∀ (ws : List Completion) (x : Nat),
      (VersionCoverage.new.applyAll ws).versionAt x = (versionsOver ws x).max? := by
    intro ws x
    rw [VersionCoverage.versionAt_applyAll, VersionCoverage.versionAt_new]
    cases versionsOver ws x with
    | nil => rfl
    | cons v vs => exact foldl_merge_max vs v
  refine ⟨VersionCoverage.ext_versionAt fun x => ?_, hmax writes⟩
  rw [VersionCoverage.versionAt_applyAll, VersionCoverage.versionAt_applyAll]
  refine ((h.filter _).map _).foldl_eq' (fun v _ w _ acc => ?_) _
  cases acc with
  | none => exact congrArg some (Nat.max_comm v w)
  | some a => exact congrArg some (Nat.max_right_comm a v w)

/-- Two writes that overlap, the newer one in the middle of the older. -/
def nested : List Completion :=
  [⟨⟨0, 16⟩, 1⟩, ⟨⟨4, 4⟩, 2⟩]

theorem completions_confluent_nested :
    VersionCoverage.new.applyAll nested = VersionCoverage.new.applyAll nested.reverse ∧
      ∀ x, (VersionCoverage.new.applyAll nested).versionAt x = (versionsOver nested x).max? :=
  completions_confluent (List.reverse_perm nested).symm

end Orchard.Content
