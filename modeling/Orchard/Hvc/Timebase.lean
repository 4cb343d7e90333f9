/-
  Hvc/Timebase.lean --- which device-tree records `fix_dt_timebase` rewrites.

  The loop scans memory that it rewrites.  Two facts keep it honest: the letter the
  property name starts with occurs nowhere else in a record, so that records do not
  overlap and no rewrite can touch another record's name; and a rate below 2^32 does
  not spell the start of the name.

  The scanned window ends a record's length before the end of memory, and `memmem`
  wants the whole name inside it: a record that starts in the last 75 bytes is not found.
-/
import Orchard.Hvc.Service

set_option autoImplicit false

namespace Orchard.Hvc

open Orchard.Foundation

/-! ## `memmem` -/

/-- No result: the needle occurs nowhere. -/
theorem not_prefix_of_memmem_none {needle hay : List Byte} (h : memmem needle hay = none)
    (k : Nat) : ¬needle <+: hay.drop k := by
  induction hay generalizing k with
  | nil =>
    rw [memmem] at h
    split at h
    · cases h
    · rename_i hno
      rw [List.drop_nil, ← List.isPrefixOf_iff_prefix]
      exact hno
  | cons b rest ih =>
    rw [memmem] at h
    split at h
    · cases h
    · rename_i hno
      cases k with
      | zero =>
        rw [List.drop_zero, ← List.isPrefixOf_iff_prefix]
        exact hno
      | succ k => exact ih (Option.map_eq_none_iff.1 h) k

/-- A result is the first occurrence of the needle. -/
theorem prefix_of_memmem_some {needle hay : List Byte} {k : Nat} (h : memmem needle hay = some k) :
    needle <+: hay.drop k ∧ ∀ j < k, ¬needle <+: hay.drop j := by
  induction hay generalizing k with
  | nil =>
    rw [memmem] at h
    split at h
    · rename_i hyes
      cases h
      exact ⟨List.isPrefixOf_iff_prefix.1 hyes, fun j hj => absurd hj (Nat.not_lt_zero j)⟩
    · cases h
  | cons b rest ih =>
    rw [memmem] at h
    split at h
    · rename_i hyes
      cases h
      exact ⟨List.isPrefixOf_iff_prefix.1 hyes, fun j hj => absurd hj (Nat.not_lt_zero j)⟩
    · rename_i hno
      obtain ⟨k', hk', rfl⟩ := Option.map_eq_some_iff.1 h
      obtain ⟨hfound, hfirst⟩ := ih hk'
      refine ⟨hfound, fun j hj => ?_⟩
      cases j with
      | zero =>
        rw [List.drop_zero, ← List.isPrefixOf_iff_prefix]
        exact hno
      | succ j => exact hfirst j (Nat.lt_of_succ_lt_succ hj)

/-! ## Records -/

/-- The property name stands at an offset. -/
def NameAt (ram : List Byte) (p : Nat) : Prop := slice ram p (p + 32) = timebaseName

/-- The bytes at an offset say `timebase-frequency`, length 8, 24 MHz. -/
structure RecordAt (ram : List Byte) (p : Nat) : Prop where
  inside : p + 44 ≤ ram.length
  name : NameAt ram p
  length : leNat (slice ram (p + 32) (p + 36)) % 2 ^ 31 = 8
  value : leNat (slice ram (p + 36) (p + 44)) = appleTimebaseHz

instance (ram : List Byte) (p : Nat) : Decidable (NameAt ram p) :=
  inferInstanceAs (Decidable (_ = _))

instance (ram : List Byte) (p : Nat) : Decidable (RecordAt ram p) :=
  decidable_of_iff (p + 44 ≤ ram.length ∧ NameAt ram p ∧
      leNat (slice ram (p + 32) (p + 36)) % 2 ^ 31 = 8 ∧
      leNat (slice ram (p + 36) (p + 44)) = appleTimebaseHz)
    ⟨fun ⟨hi, hn, hl, hv⟩ => ⟨hi, hn, hl, hv⟩, fun h => ⟨h.inside, h.name, h.length, h.value⟩⟩

theorem nameAt_congr {ram other : List Byte} {p : Nat}
    (h : ∀ i, p ≤ i → i < p + 32 → other[i]? = ram[i]?) : NameAt other p ↔ NameAt ram p := by
  unfold NameAt
  rw [slice_congr h]

theorem RecordAt.congr {ram other : List Byte} {p : Nat} (hr : RecordAt ram p)
    (hlen : other.length = ram.length)
    (h : ∀ i, p ≤ i → i < p + 44 → other[i]? = ram[i]?) : RecordAt other p where
  inside := hlen ▸ hr.inside
  name := (nameAt_congr fun i h1 h2 => h i h1 (by omega)).2 hr.name
  length := by
    rw [slice_congr fun i h1 h2 => h i (by omega) (by omega)]
    exact hr.length
  value := by
    rw [slice_congr fun i h1 h2 => h i (by omega) (by omega)]
    exact hr.value

/-- The letter the name starts with. -/
theorem nameAt_first {ram : List Byte} {p : Nat} (h : NameAt ram p) : ram[p]? = some 0x74 :=
  getElem?_of_slice_eq h (i := 0) (by omega)

/-- The first letter does not occur again in the name. -/
theorem nameAt_rest {ram : List Byte} {p d : Nat} (h : NameAt ram p) (hpos : 0 < d) (hd : d < 32) :
    ram[p + d]? ≠ some 0x74 := by
  have hletters : ∀ d < 32, 0 < d → timebaseName[d]? ≠ some 0x74 := by decide
  rw [getElem?_of_slice_eq h (Nat.add_lt_add_left hd p)]
  exact hletters d hd hpos

/-- Occurrences of the name do not overlap. -/
theorem nameAt_apart {ram : List Byte} {p q : Nat} (hp : NameAt ram p) (hq : NameAt ram q)
    (hlt : p < q) : p + 32 ≤ q := by
  by_contra hnear
  have hq' := nameAt_first hq
  have hd : q = p + (q - p) := by omega
  rw [hd] at hq'
  exact nameAt_rest hp (by omega) (by omega) hq'

/-- A length field that says 8, and the value 24 MHz, do not hold the first letter. -/
theorem RecordAt.fields {ram : List Byte} {p d : Nat} (h : RecordAt ram p) (hd : 32 ≤ d)
    (hlt : d < 44) : ram[p + d]? ≠ some 0x74 := by
  have hinside := h.inside
  by_cases hfield : d < 36
  · have hlen : (slice ram (p + 32) (p + 36)).length = 4 := by
      rw [length_slice (by omega)]
      omega
    have hbytes := toLe_leNat (slice ram (p + 32) (p + 36))
    have hsmall := leNat_lt (slice ram (p + 32) (p + 36))
    have hword := h.length
    rw [hlen] at hbytes hsmall
    -- bit 31 of the length is a flag
    have hcases : leNat (slice ram (p + 32) (p + 36)) = 8 ∨
        leNat (slice ram (p + 32) (p + 36)) = 2 ^ 31 + 8 := by omega
    have hplain : ∀ i < 4, (toLe 4 8)[i]? ≠ some 0x74 := by decide
    have hflag : ∀ i < 4, (toLe 4 (2 ^ 31 + 8))[i]? ≠ some 0x74 := by decide
    have hbyte := getElem?_of_slice_eq hbytes.symm (i := d - 32) (by omega)
    rw [show p + 32 + (d - 32) = p + d by omega] at hbyte
    rw [hbyte]
    rcases hcases with hval | hval <;> rw [hval]
    · exact hplain (d - 32) (by omega)
    · exact hflag (d - 32) (by omega)
  · have hlen : (slice ram (p + 36) (p + 44)).length = 8 := by
      rw [length_slice (by omega)]
      omega
    have hbytes := toLe_leNat (slice ram (p + 36) (p + 44))
    rw [hlen, h.value] at hbytes
    have hvalue : ∀ i < 8, (toLe 8 appleTimebaseHz)[i]? ≠ some 0x74 := by decide
    have hbyte := getElem?_of_slice_eq hbytes.symm (i := d - 36) (by omega)
    rw [show p + 36 + (d - 36) = p + d by omega] at hbyte
    rw [hbyte]
    exact hvalue (d - 36) (by omega)

/-- No name starts inside a record. -/
theorem RecordAt.apart {ram : List Byte} {p q : Nat} (hp : RecordAt ram p) (hq : NameAt ram q)
    (hlt : p < q) : p + 44 ≤ q := by
  have hname := nameAt_apart hp.name hq hlt
  by_contra hnear
  have hq' := nameAt_first hq
  rw [show q = p + (q - p) by omega] at hq'
  exact hp.fields (by omega) (by omega) hq'

/-! ## One rewrite -/

/-- The value field of a record, rewritten. -/
def rewriteAt (ram : List Byte) (p : Nat) (hz : BitVec 64) : List Byte :=
  patch ram (p + 36) (toLe 8 hz.toNat)

/-- What `patch_timebase_record` does to a name it was called on. -/
theorem patchTimebaseRecord_eq (ram : List Byte) {p : Nat} (hz : BitVec 64)
    (hinside : p + 44 ≤ ram.length) (hname : NameAt ram p) :
    (RecordAt ram p ∧ patchTimebaseRecord ram p hz = (rewriteAt ram p hz, true)) ∨
    (¬RecordAt ram p ∧ patchTimebaseRecord ram p hz = (ram, false)) := by
  have hlength := slice_eq_take_drop ram (p + 32) 4
  have hvalue := slice_eq_take_drop ram (p + 36) 8
  unfold patchTimebaseRecord adtNameLen
  simp only [Nat.add_assoc, Nat.reduceAdd] at hlength hvalue ⊢
  rw [← hlength, ← hvalue]
  split
  · rename_i hno
    refine .inr ⟨fun hr => ?_, rfl⟩
    rcases hno with hno | hno
    · exact hno hr.length
    · exact hno hr.value
  · rename_i hyes
    rw [not_or, not_not, not_not] at hyes
    exact .inl ⟨⟨hinside, hname, hyes.1, hyes.2⟩, rfl⟩

section Rewrite

variable {ram : List Byte} {p : Nat} (hr : RecordAt ram p) (hz : BitVec 64)

include hr

theorem rewriteAt_room : p + 36 + (toLe 8 hz.toNat).length ≤ ram.length := by
  rw [toLe_length]
  exact hr.inside

theorem length_rewriteAt : (rewriteAt ram p hz).length = ram.length :=
  length_patch (rewriteAt_room hr hz)

theorem getElem?_rewriteAt {i : Nat} (hi : i < p + 36 ∨ p + 44 ≤ i) :
    (rewriteAt ram p hz)[i]? = ram[i]? := by
  rw [rewriteAt, getElem?_patch (rewriteAt_room hr hz), toLe_length, if_neg (by omega)]

theorem slice_rewriteAt : slice (rewriteAt ram p hz) (p + 36) (p + 44) = toLe 8 hz.toNat := by
  have h := slice_patch_self (rewriteAt_room hr hz)
  rwa [toLe_length] at h

/-- After a rewrite, too, no name starts inside the record: the upper half of the value
is zero. -/
theorem nameAt_rewriteAt_apart (hsmall : hz.toNat < 2 ^ 32) {q : Nat} (hlt : p < q)
    (hq : NameAt (rewriteAt ram p hz) q) : p + 44 ≤ q := by
  by_contra hnear
  have hfirst := nameAt_first hq
  by_cases hbefore : q < p + 36
  · rw [getElem?_rewriteAt hr hz (.inl hbefore), show q = p + (q - p) by omega] at hfirst
    by_cases hname : q - p < 32
    · exact nameAt_rest hr.name (by omega) hname hfirst
    · exact hr.fields (by omega) (by omega) hfirst
  · -- a byte of the upper half that the name would have to cover
    have hvalue := slice_rewriteAt hr hz
    rw [show 8 = 4 + 4 from rfl, toLe_add, Nat.div_eq_of_lt (by simpa using hsmall)] at hvalue
    have hzero : ∀ i < 4, (toLe 4 0)[i]? = some 0 := by decide
    have hupper : ∀ j, p + 40 ≤ j → j < p + 44 → (rewriteAt ram p hz)[j]? = some 0 := by
      intro j h1 h2
      have hj := getElem?_of_slice_eq hvalue (i := j - (p + 36)) (by omega)
      rw [show p + 36 + (j - (p + 36)) = j by omega, List.getElem?_append_right (by simp; omega),
        toLe_length, hzero _ (by omega)] at hj
      exact hj
    by_cases hhigh : p + 40 ≤ q
    · rw [hupper q hhigh (by omega)] at hfirst
      exact absurd hfirst (by decide)
    · have hletters : ∀ d < 18, timebaseName[d]? ≠ some 0 := by decide
      have hletter := getElem?_of_slice_eq hq (i := p + 40 - q) (by omega)
      rw [show q + (p + 40 - q) = p + 40 by omega, hupper (p + 40) (by omega) (by omega)] at hletter
      exact hletters (p + 40 - q) (by omega) hletter.symm

/-- A rewrite makes and breaks no record behind it. -/
theorem recordAt_rewriteAt_iff (hsmall : hz.toNat < 2 ^ 32) {q : Nat} (hlt : p < q) :
    RecordAt (rewriteAt ram p hz) q ↔ RecordAt ram q := by
  have hlen := length_rewriteAt hr hz
  constructor
  · intro hq
    have hfar := nameAt_rewriteAt_apart hr hz hsmall hlt hq.name
    exact hq.congr hlen.symm fun i h1 h2 => (getElem?_rewriteAt hr hz (by omega)).symm
  · intro hq
    have hfar := hr.apart hq.name hlt
    exact hq.congr hlen fun i h1 h2 => getElem?_rewriteAt hr hz (by omega)

end Rewrite

/-! ## The scan -/

/-- `result` is what a scan of `[start, limit)` makes of memory: the records whose names
lie in the window are rewritten, nothing else is changed, and none is left. -/
structure Scanned (hz : BitVec 64) (limit start : Nat) (ram result : List Byte) : Prop where
  length_eq : result.length = ram.length
  rewritten : ∀ p, start ≤ p → p + 32 ≤ limit → RecordAt ram p →
    slice result (p + 36) (p + 44) = toLe 8 hz.toNat
  unchanged : ∀ i, (∀ p, start ≤ p → p + 32 ≤ limit → RecordAt ram p →
    ¬(p + 36 ≤ i ∧ i < p + 44)) → result[i]? = ram[i]?
  settled : ∀ p, start ≤ p → p + 32 ≤ limit → ¬RecordAt result p

section Scan

variable {hz : BitVec 64} {limit : Nat} {ram result : List Byte}

/-- The name is a prefix of the window exactly where it stands whole. -/
theorem name_prefix_iff (hlimit : limit ≤ ram.length) (p : Nat) :
    timebaseName <+: (ram.take limit).drop p ↔ p + 32 ≤ limit ∧ NameAt ram p := by
  have hlen : timebaseName.length = 32 := rfl
  have htake : ((ram.take limit).drop p).take 32 = slice ram p (min (p + 32) limit) := by
    rw [slice, List.take_drop, List.take_take]
  rw [List.prefix_iff_eq_take, hlen, htake]
  constructor
  · intro h
    have hle : p + 32 ≤ limit := by
      have hcount := congrArg List.length h
      rw [hlen, length_slice (by omega)] at hcount
      omega
    rw [Nat.min_eq_left hle] at h
    exact ⟨hle, h.symm⟩
  · rintro ⟨hle, h⟩
    rw [Nat.min_eq_left hle]
    exact h.symm

/-- Where there is no record to rewrite, memory is left as it is. -/
theorem scanned_self {start : Nat} (h : ∀ p, start ≤ p → p + 32 ≤ limit → ¬RecordAt ram p) :
    Scanned hz limit start ram ram where
  length_eq := rfl
  rewritten p h1 h2 hr := absurd hr (h p h1 h2)
  unchanged _ _ := rfl
  settled := h

/-- A scan that starts behind a name changes no byte of what precedes its value field. -/
theorem Scanned.before {q : Nat} (h : Scanned hz limit (q + 1) ram result) {i : Nat}
    (hi : i ≤ q + 36) : result[i]? = ram[i]? :=
  h.unchanged i fun p hp _ _ => by omega

/-- Names before the point a scan starts from are those that were there. -/
theorem Scanned.nameAt_before {q p : Nat} (h : Scanned hz limit (q + 1) ram result) (hp : p ≤ q) :
    NameAt result p ↔ NameAt ram p :=
  nameAt_congr fun _ _ hi => h.before (by omega)

/-- The first name of the window is no record: it is passed over. -/
theorem Scanned.skip {start q : Nat} (h : Scanned hz limit (q + 1) ram result)
    (hstart : start ≤ q) (hname : NameAt ram q) (hfirst : ∀ p, start ≤ p → p < q → ¬NameAt ram p)
    (hno : ¬RecordAt ram q) : Scanned hz limit start ram result where
  length_eq := h.length_eq
  rewritten p h1 h2 hr := by
    rcases Nat.lt_trichotomy p q with hlt | rfl | hgt
    · exact absurd hr.name (hfirst p h1 hlt)
    · exact absurd hr hno
    · exact h.rewritten p hgt h2 hr
  unchanged i hi := h.unchanged i fun p hp h2 hr => hi p (by omega) h2 hr
  settled p h1 h2 hr := by
    rcases Nat.lt_trichotomy p q with hlt | rfl | hgt
    · exact hfirst p h1 hlt ((h.nameAt_before (Nat.le_of_lt hlt)).1 hr.name)
    · -- a rewrite of the fields of this record would be that of a name overlapping this one
      refine hno (hr.congr h.length_eq.symm fun i hi1 hi2 => (h.unchanged i ?_).symm)
      intro p' hp' _ hr' hin
      have hapart := nameAt_apart hname hr'.name hp'
      omega
    · exact h.settled p hgt h2 hr

/-- The first name of the window is a record: it is rewritten. -/
theorem Scanned.rewrite (hsmall : hz.toNat < 2 ^ 32) (hne : hz.toNat ≠ appleTimebaseHz)
    {start q : Nat} (hr : RecordAt ram q) (hstart : start ≤ q) (hwindow : q + 32 ≤ limit)
    (hfirst : ∀ p, start ≤ p → p < q → ¬NameAt ram p)
    (h : Scanned hz limit (q + 1) (rewriteAt ram q hz) result) :
    Scanned hz limit start ram result := by
  have hiff : ∀ {p}, q < p → (RecordAt (rewriteAt ram q hz) p ↔ RecordAt ram p) :=
    fun hlt => recordAt_rewriteAt_iff hr hz hsmall hlt
  have hvalue : slice result (q + 36) (q + 44) = toLe 8 hz.toNat := by
    rw [← slice_rewriteAt hr hz]
    refine slice_congr fun i h1 h2 => h.unchanged i fun p hp _ hrec hin => ?_
    have hfar := hr.apart ((hiff hp).1 hrec).name hp
    omega
  refine
    { length_eq := h.length_eq.trans (length_rewriteAt hr hz)
      rewritten := fun p h1 h2 hrec => ?_
      unchanged := fun i hi => ?_
      settled := fun p h1 h2 hrec => ?_ }
  · rcases Nat.lt_trichotomy p q with hlt | rfl | hgt
    · exact absurd hrec.name (hfirst p h1 hlt)
    · exact hvalue
    · exact h.rewritten p hgt h2 ((hiff hgt).2 hrec)
  · have hout := hi q hstart hwindow hr
    rw [h.unchanged i fun p hp h2 hrec => hi p (by omega) h2 ((hiff hp).1 hrec)]
    exact getElem?_rewriteAt hr hz (by omega)
  · rcases Nat.lt_trichotomy p q with hlt | rfl | hgt
    · refine hfirst p h1 hlt ((nameAt_congr fun i _ hi => ?_).1 hrec.name)
      rw [h.before (by omega)]
      exact getElem?_rewriteAt hr hz (by omega)
    · have hval := hrec.value
      rw [hvalue, leNat_toLe (by omega)] at hval
      exact hne hval
    · exact h.settled p hgt h2 hrec

/-- **The scan.**  With a round for every offset of the window, it rewrites the records
whose names lie in it. -/
theorem scanned_patchFrom (hsmall : hz.toNat < 2 ^ 32) (hne : hz.toNat ≠ appleTimebaseHz)
    (rounds start : Nat) (hrounds : limit < start + rounds) (ram : List Byte)
    (hlimit : limit + 12 ≤ ram.length) :
    Scanned hz limit start ram (patchFrom hz limit rounds start ram).1 := by
  induction rounds generalizing start ram with
  | zero => exact scanned_self fun p h1 h2 => by omega
  | succ rounds ih =>
    rw [patchFrom]
    cases hfind : memmem timebaseName ((ram.take limit).drop start) with
    | none =>
      refine scanned_self fun p h1 h2 hr => ?_
      refine not_prefix_of_memmem_none hfind (p - start) ?_
      rw [List.drop_drop, show start + (p - start) = p by omega, name_prefix_iff (by omega)]
      exact ⟨h2, hr.name⟩
    | some skip =>
      obtain ⟨hfound, hbefore⟩ := prefix_of_memmem_some hfind
      rw [List.drop_drop, name_prefix_iff (by omega)] at hfound
      have hfirst : ∀ p, start ≤ p → p < start + skip → ¬NameAt ram p := by
        intro p h1 h2 hname
        refine hbefore (p - start) (by omega) ?_
        rw [List.drop_drop, show start + (p - start) = p by omega, name_prefix_iff (by omega)]
        exact ⟨by omega, hname⟩
      rcases patchTimebaseRecord_eq ram hz (by omega) hfound.2 with ⟨hr, hpatch⟩ | ⟨hno, hpatch⟩ <;>
        dsimp only <;> rw [hpatch]
      · refine Scanned.rewrite hsmall hne hr (Nat.le_add_right start skip) hfound.1 hfirst ?_
        refine ih (start + skip + 1) (by omega) (rewriteAt ram (start + skip) hz) ?_
        rw [length_rewriteAt hr hz]
        exact hlimit
      · exact (ih (start + skip + 1) (by omega) ram hlimit).skip (Nat.le_add_right start skip)
          hfound.2 hfirst hno

/-- A scan has one result. -/
theorem Scanned.unique {start : Nat} {other : List Byte} (h : Scanned hz limit start ram result)
    (h' : Scanned hz limit start ram other) : result = other := by
  refine List.ext_getElem? fun i => ?_
  by_cases hin : ∃ p, start ≤ p ∧ p + 32 ≤ limit ∧ RecordAt ram p ∧ p + 36 ≤ i ∧ i < p + 44
  · obtain ⟨p, h1, h2, hr, hi1, hi2⟩ := hin
    have hbyte := getElem?_of_slice_eq (h.rewritten p h1 h2 hr) (i := i - (p + 36)) (by omega)
    have hbyte' := getElem?_of_slice_eq (h'.rewritten p h1 h2 hr) (i := i - (p + 36)) (by omega)
    rw [show p + 36 + (i - (p + 36)) = i by omega] at hbyte hbyte'
    rw [hbyte, hbyte']
  · have hout : ∀ p, start ≤ p → p + 32 ≤ limit → RecordAt ram p → ¬(p + 36 ≤ i ∧ i < p + 44) :=
      fun p h1 h2 hr hi => hin ⟨p, h1, h2, hr, hi⟩
    rw [h.unchanged i hout, h'.unchanged i hout]

/-- The offsets at which the scan reads a record. -/
def visitedFrom (hz : BitVec 64) (limit : Nat) : Nat → Nat → List Byte → List Nat
  | 0, _, _ => []
  | rounds + 1, start, ram =>
    match memmem timebaseName ((ram.take limit).drop start) with
    | none => []
    | some skip =>
      (start + skip) :: visitedFrom hz limit rounds (start + skip + 1)
        (patchTimebaseRecord ram (start + skip) hz).1

/-- Where a record is read, the whole name lies in the window. -/
theorem visitedFrom_inside (rounds start : Nat) (ram : List Byte)
    (hlimit : limit + 12 ≤ ram.length) :
    ∀ q ∈ visitedFrom hz limit rounds start ram, q + 32 ≤ limit := by
  induction rounds generalizing start ram with
  | zero => simp [visitedFrom]
  | succ rounds ih =>
    rw [visitedFrom]
    cases hfind : memmem timebaseName ((ram.take limit).drop start) with
    | none => simp
    | some skip =>
      have hfound := (prefix_of_memmem_some hfind).1
      rw [List.drop_drop, name_prefix_iff (by omega)] at hfound
      refine List.forall_mem_cons.2 ⟨hfound.1, ih _ _ ?_⟩
      rcases patchTimebaseRecord_eq ram hz (by omega) hfound.2 with ⟨hr, hpatch⟩ | ⟨-, hpatch⟩ <;>
        rw [hpatch]
      · exact Nat.le_trans hlimit (Nat.le_of_eq (length_rewriteAt hr hz).symm)
      · exact hlimit

end Scan

/-! ## `fix_dt_timebase` -/

/-- The bytes that are scanned: the first 2 GiB. -/
def scanWindow (ram : List Byte) : Nat := min ram.length dtScanBytes

/-- The end of the search, `end - base`. -/
def scanLimit (ram : List Byte) : Nat := scanWindow ram - 44

section Fix

variable {hz : BitVec 64} {ram : List Byte} (hsmall : hz.toNat < 2 ^ 32)
  (hne : hz.toNat ≠ appleTimebaseHz) (hsize : 76 ≤ ram.length)

include hsize in
/-- The windows of a board with enough memory. -/
theorem scanLimit_eq : scanLimit ram + 44 = scanWindow ram ∧ scanWindow ram ≤ ram.length := by
  have hscan : 76 ≤ dtScanBytes := by decide
  unfold scanLimit scanWindow
  omega

include hsmall hne hsize in
/-- `fix_dt_timebase` is a scan of the whole window. -/
theorem scanned_fixDtTimebase :
    Scanned hz (scanLimit ram) 0 ram (fixDtTimebase ram hz) := by
  have hlimit := scanLimit_eq hsize
  have hfix : fixDtTimebase ram hz =
      (patchFrom hz (scanLimit ram) (scanLimit ram + 1) 0 ram).1 := if_neg hne
  rw [hfix]
  exact scanned_patchFrom hsmall hne _ 0 (by omega) ram (by omega)

/-- A record of the front of memory is one of memory. -/
theorem recordAt_take_iff {n p : Nat} (hn : n ≤ ram.length) :
    RecordAt (ram.take n) p ↔ p + 44 ≤ n ∧ RecordAt ram p := by
  have hbyte : ∀ i < n, (ram.take n)[i]? = ram[i]? := fun i hi => List.getElem?_take_of_lt hi
  have hcopy : ∀ a b, b ≤ n → slice (ram.take n) a b = slice ram a b :=
    fun a b hb => slice_congr fun i _ hi => hbyte i (by omega)
  constructor
  · intro h
    have hp : p + 44 ≤ n := by
      have := h.inside
      rw [List.length_take, Nat.min_eq_left hn] at this
      exact this
    refine ⟨hp, ⟨by omega, ?_, ?_, ?_⟩⟩
    · exact (hcopy _ _ (by omega)).symm.trans h.name
    · rw [← hcopy _ _ (by omega)]
      exact h.length
    · rw [← hcopy _ _ (by omega)]
      exact h.value
  · rintro ⟨hp, h⟩
    refine ⟨?_, ?_, ?_, ?_⟩
    · rw [List.length_take, Nat.min_eq_left hn]
      exact hp
    · exact (hcopy _ _ (by omega)).trans h.name
    · rw [hcopy _ _ (by omega)]
      exact h.length
    · rw [hcopy _ _ (by omega)]
      exact h.value

/-- The scan of the front of memory is the front of the scan. -/
theorem Scanned.take {limit n : Nat} {result : List Byte} (h : Scanned hz limit 0 ram result)
    (hn : n ≤ ram.length) (hlimit : limit + 12 ≤ n) :
    Scanned hz limit 0 (ram.take n) (result.take n) := by
  have hn' : n ≤ result.length := h.length_eq ▸ hn
  have hbyte : ∀ i < n, (result.take n)[i]? = result[i]? := fun i hi => List.getElem?_take_of_lt hi
  refine
    { length_eq := by rw [List.length_take, List.length_take, h.length_eq]
      rewritten := fun p h1 h2 hr => ?_
      unchanged := fun i hi => ?_
      settled := fun p h1 h2 hr => h.settled p h1 h2 ((recordAt_take_iff hn').1 hr).2 }
  · rw [slice_congr fun i _ hi => hbyte i (by omega)]
    exact h.rewritten p h1 h2 ((recordAt_take_iff hn).1 hr).2
  · by_cases hin : i < n
    · rw [hbyte i hin, List.getElem?_take_of_lt hin]
      refine h.unchanged i fun p h1 h2 hr => hi p h1 h2 ?_
      exact (recordAt_take_iff hn).2 ⟨by omega, hr⟩
    · rw [List.getElem?_eq_none (by rw [List.length_take]; omega),
        List.getElem?_eq_none (by rw [List.length_take]; omega)]

include hsmall hne hsize in
/-- Memory outside the window is neither read nor written: the scan is that of the
window alone. -/
theorem fixDtTimebase_window :
    fixDtTimebase ram hz =
      fixDtTimebase (ram.take (scanWindow ram)) hz ++ ram.drop (scanWindow ram) := by
  have hlimit := scanLimit_eq hsize
  have hscan := scanned_fixDtTimebase hsmall hne hsize
  have hlen : (ram.take (scanWindow ram)).length = scanWindow ram := by
    rw [List.length_take, Nat.min_eq_left hlimit.2]
  have hsame : scanLimit (ram.take (scanWindow ram)) = scanLimit ram := by
    have hcap : scanWindow ram ≤ dtScanBytes := Nat.min_le_right _ _
    rw [scanLimit, scanWindow, hlen, Nat.min_eq_left hcap, scanLimit]
  have hsize' : 76 ≤ (ram.take (scanWindow ram)).length := by
    have hscan : 76 ≤ dtScanBytes := by decide
    rw [hlen, scanWindow]
    omega
  have hfront := scanned_fixDtTimebase hsmall hne hsize'
  rw [hsame] at hfront
  rw [hfront.unique (hscan.take hlimit.2 (by omega))]
  -- no record that is rewritten reaches past the window
  have hback : (fixDtTimebase ram hz).drop (scanWindow ram) = ram.drop (scanWindow ram) := by
    refine List.ext_getElem? fun i => ?_
    rw [List.getElem?_drop, List.getElem?_drop]
    exact hscan.unchanged _ fun p _ h2 _ => by omega
  rw [← hback, List.take_append_drop]

include hsmall hne hsize in
/-- A second run finds nothing to rewrite. -/
theorem fixDtTimebase_idempotent :
    fixDtTimebase (fixDtTimebase ram hz) hz = fixDtTimebase ram hz := by
  have hscan := scanned_fixDtTimebase hsmall hne hsize
  have hlimit : scanLimit (fixDtTimebase ram hz) = scanLimit ram := by
    unfold scanLimit scanWindow
    rw [hscan.length_eq]
  have hsize' : 76 ≤ (fixDtTimebase ram hz).length := by
    rw [hscan.length_eq]
    exact hsize
  have hagain := scanned_fixDtTimebase hsmall hne hsize'
  rw [hlimit] at hagain
  exact hagain.unique (scanned_self hscan.settled)

end Fix

/-- What a run of `fix_dt_timebase` promises. -/
structure TimebaseFixed (ram : List Byte) (hz : BitVec 64) : Prop where
  /-- every record of the window holds the new rate -/
  rewritten : ∀ p, p + 44 ≤ scanWindow ram → RecordAt ram p →
    leNat (slice (fixDtTimebase ram hz) (p + 36) (p + 44)) = hz.toNat
  /-- every byte outside the value fields of such records is as it was -/
  unchanged : ∀ i, (∀ p, p + 44 ≤ scanWindow ram → RecordAt ram p →
    ¬(p + 36 ≤ i ∧ i < p + 44)) → (fixDtTimebase ram hz)[i]? = ram[i]?
  /-- nothing outside the window is read or written -/
  window : fixDtTimebase ram hz =
    fixDtTimebase (ram.take (scanWindow ram)) hz ++ ram.drop (scanWindow ram)
  visited : ∀ q ∈ visitedFrom hz (scanLimit ram) (scanLimit ram + 1) 0 ram,
    q + 44 ≤ scanWindow ram
  idempotent : fixDtTimebase (fixDtTimebase ram hz) hz = fixDtTimebase ram hz

/-- The promise is kept exactly when no record of the window starts in its last 75 bytes,
where the name does not fit in front of the end of the search. -/
theorem timebaseFixed_iff (ram : List Byte) (hz : BitVec 64) (hsize : 76 ≤ ram.length)
    (hsmall : hz.toNat < 2 ^ 32) (hne : hz.toNat ≠ 24000000) :
    TimebaseFixed ram hz ↔
      ∀ p, scanWindow ram < p + 76 → p + 44 ≤ scanWindow ram → ¬RecordAt ram p := by
  have hlimit := scanLimit_eq hsize
  have hscan := scanned_fixDtTimebase hsmall hne hsize
  constructor
  · intro h p hlate hin hr
    -- the bytes of the record belong to no other one, so the scan left them
    have hleft : slice (fixDtTimebase ram hz) (p + 36) (p + 44) = slice ram (p + 36) (p + 44) := by
      refine slice_congr fun i h1 h2 => hscan.unchanged i fun q _ hq hr' hi => ?_
      have hqp : q < p := by omega
      have := hr'.apart hr.name hqp
      omega
    have hval := h.rewritten p hin hr
    rw [hleft, hr.value] at hval
    exact hne hval.symm
  · intro hnone
    have hfound : ∀ p, p + 44 ≤ scanWindow ram → RecordAt ram p → p + 32 ≤ scanLimit ram := by
      intro p hin hr
      by_contra hlate
      exact hnone p (by omega) hin hr
    refine
      { rewritten := fun p hin hr => ?_
        unchanged := fun i hi => hscan.unchanged i fun p _ h2 hr => hi p (by omega) hr
        window := fixDtTimebase_window hsmall hne hsize
        visited := fun q hq => ?_
        idempotent := fixDtTimebase_idempotent hsmall hne hsize }
    · rw [hscan.rewritten p (Nat.zero_le p) (hfound p hin hr) hr, leNat_toLe (by omega)]
    · have := visitedFrom_inside _ 0 ram (by omega) q hq
      omega

/-- A record of the property, with the value 24 MHz. -/
def timebaseRecord : List Byte := timebaseName ++ toLe 4 8 ++ toLe 8 24000000

/-- A record at the start of 76 bytes of memory is found, and 62.5 MHz stored in it. -/
theorem timebaseFixed_front :
    76 ≤ (timebaseRecord ++ List.replicate 32 0).length ∧
      leNat (slice (fixDtTimebase (timebaseRecord ++ List.replicate 32 0) 62500000) 36 44) =
        62500000 := by
  refine ⟨by decide, ?_⟩
  have hfixed := (timebaseFixed_iff (timebaseRecord ++ List.replicate 32 0) 62500000 (by decide)
    (by decide) (by decide)).2 ?_
  · exact hfixed.rewritten 0 (by decide) (by decide)
  · intro p h1 h2
    have hwindow : scanWindow (timebaseRecord ++ List.replicate 32 0) = 76 := by decide
    have hp : p < 33 := by omega
    have hnone : ∀ p < 33, 0 < p → ¬RecordAt (timebaseRecord ++ List.replicate 32 0) p := by decide
    exact hnone p hp (by omega)

/-- A record at the end of 76 bytes of memory is left at 24 MHz. -/
theorem last_record_missed :
    RecordAt (List.replicate 32 0 ++ timebaseRecord) 32 ∧
      scanWindow (List.replicate 32 0 ++ timebaseRecord) = 76 ∧
      leNat (slice (fixDtTimebase (List.replicate 32 0 ++ timebaseRecord) 62500000) 68 76) =
        24000000 := by
  decide

end Orchard.Hvc
