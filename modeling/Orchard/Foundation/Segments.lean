import Mathlib.Data.List.Basic

set_option autoImplicit false

/-!
# Lists of segments read as partial functions

A list of items, each of which stands for a value on a half-open interval of the
natural numbers, denotes a partial function (`valueAt`).  `Normal` singles out one list
for each such function: the segments are nonempty and in order, and two that touch have
different values.  A set is the case of one value only, where normal segments do not
touch at all.

The items are of any type; `lo`, `hi` and `val` read an item.
-/

namespace Orchard.Foundation

universe u v

section Segments

variable {α : Type u} {β : Type v} (lo hi : α → Nat) (val : α → β)

/-- The value of the first segment that `x` lies in. -/
def valueAt (l : List α) (x : Nat) : Option β :=
  (l.find? fun a => decide (lo a ≤ x ∧ x < hi a)).map val

/-- `a` ends where `b` begins or before, and they touch only if their values differ. -/
def Behind (a b : α) : Prop :=
  hi a ≤ lo b ∧ (hi a = lo b → val a ≠ val b)

/-- Nonempty segments in order, touching ones with different values. -/
structure Normal (l : List α) : Prop where
  nonempty : ∀ a ∈ l, lo a < hi a
  behind : l.Pairwise (Behind lo hi val)

variable {lo hi val}

theorem valueAt_cons (a : α) (l : List α) (x : Nat) :
    valueAt lo hi val (a :: l) x =
      if lo a ≤ x ∧ x < hi a then some (val a) else valueAt lo hi val l x := by
  unfold valueAt
  by_cases h : lo a ≤ x ∧ x < hi a <;> simp [h]

theorem valueAt_append (l m : List α) (x : Nat) :
    valueAt lo hi val (l ++ m) x =
      (valueAt lo hi val l x).or (valueAt lo hi val m x) := by
  induction l with
  | nil => rfl
  | cons a l ih =>
    rw [List.cons_append, valueAt_cons, valueAt_cons, ih]
    split <;> rfl

theorem exists_of_valueAt {l : List α} {x : Nat} {v : β}
    (h : valueAt lo hi val l x = some v) : ∃ a ∈ l, lo a ≤ x ∧ x < hi a ∧ val a = v := by
  obtain ⟨a, hfind, rfl⟩ := Option.map_eq_some_iff.mp h
  have hin := List.find?_some hfind
  rw [decide_eq_true_eq] at hin
  exact ⟨a, List.mem_of_find?_eq_some hfind, hin.1, hin.2, rfl⟩

theorem valueAt_eq_none_iff {l : List α} {x : Nat} :
    valueAt lo hi val l x = none ↔ ∀ a ∈ l, ¬(lo a ≤ x ∧ x < hi a) := by
  simp [valueAt]

theorem Normal.tail {a : α} {l : List α} (h : Normal lo hi val (a :: l)) :
    Normal lo hi val l :=
  ⟨fun b hb => h.nonempty b (List.mem_cons_of_mem a hb), (List.pairwise_cons.mp h.behind).2⟩

theorem Normal.head_behind {a : α} {l : List α} (h : Normal lo hi val (a :: l)) :
    ∀ b ∈ l, Behind lo hi val a b :=
  (List.pairwise_cons.mp h.behind).1

/-- In a list in order every segment that `x` lies in is the one that is read. -/
theorem valueAt_of_mem {l : List α} (h : l.Pairwise fun a b => hi a ≤ lo b) {a : α}
    (ha : a ∈ l) {x : Nat} (hlo : lo a ≤ x) (hhi : x < hi a) :
    valueAt lo hi val l x = some (val a) := by
  induction l with
  | nil => cases ha
  | cons b l ih =>
    obtain ⟨hhead, htail⟩ := List.pairwise_cons.mp h
    rw [valueAt_cons]
    rcases List.mem_cons.mp ha with rfl | hmem
    · rw [if_pos ⟨hlo, hhi⟩]
    · have hbehind := hhead a hmem
      rw [if_neg (by omega)]
      exact ih htail hmem

theorem Normal.valueAt_eq_some {l : List α} (h : Normal lo hi val l) {a : α} (ha : a ∈ l)
    {x : Nat} (hlo : lo a ≤ x) (hhi : x < hi a) : valueAt lo hi val l x = some (val a) :=
  valueAt_of_mem (h.behind.imp And.left) ha hlo hhi

/-- Nothing of a normal list lies before its head. -/
theorem Normal.valueAt_before {a : α} {l : List α} (h : Normal lo hi val (a :: l)) {x : Nat}
    (hx : x < lo a) : valueAt lo hi val (a :: l) x = none := by
  rw [valueAt_eq_none_iff]
  intro b hb hin
  have hne := h.nonempty a (List.mem_cons_self ..)
  rcases List.mem_cons.mp hb with rfl | hmem
  · omega
  · have := (h.head_behind b hmem).1
    omega

/-- Past its head a normal list is read in its tail. -/
theorem Normal.valueAt_tail {a : α} {l : List α} (h : Normal lo hi val (a :: l)) (x : Nat) :
    valueAt lo hi val l x = if x < hi a then none else valueAt lo hi val (a :: l) x := by
  split
  · rw [valueAt_eq_none_iff]
    intro b hb hin
    have := (h.head_behind b hb).1
    omega
  · rw [valueAt_cons, if_neg (by omega)]

/-- Where the head of a normal list ends, its value does not go on. -/
theorem Normal.valueAt_end {a : α} {l : List α} (h : Normal lo hi val (a :: l)) :
    valueAt lo hi val (a :: l) (hi a) ≠ some (val a) := by
  intro hsome
  rw [valueAt_cons, if_neg (by omega)] at hsome
  obtain ⟨b, hb, hlo, -, hval⟩ := exists_of_valueAt hsome
  obtain ⟨hle, hdiff⟩ := h.head_behind b hb
  exact hdiff (by omega) hval.symm

/-- **Normal lists are unique**: a list is determined by the function it denotes, if an
item is determined by its interval and value. -/
theorem Normal.eq_of_valueAt_eq {l m : List α} (hl : Normal lo hi val l)
    (hm : Normal lo hi val m)
    (hext : ∀ a ∈ l, ∀ b ∈ m, lo a = lo b → hi a = hi b → val a = val b → a = b)
    (heq : ∀ x, valueAt lo hi val l x = valueAt lo hi val m x) : l = m := by
  induction l generalizing m with
  | nil =>
    cases m with
    | nil => rfl
    | cons b m =>
      have hb := hm.valueAt_eq_some (List.mem_cons_self ..) (Nat.le_refl (lo b))
        (hm.nonempty b (List.mem_cons_self ..))
      rw [← heq] at hb
      cases hb
  | cons a l ih =>
    have ha := hl.valueAt_eq_some (List.mem_cons_self ..) (Nat.le_refl (lo a))
      (hl.nonempty a (List.mem_cons_self ..))
    cases m with
    | nil => rw [heq] at ha; cases ha
    | cons b m =>
      have hb := hm.valueAt_eq_some (List.mem_cons_self ..) (Nat.le_refl (lo b))
        (hm.nonempty b (List.mem_cons_self ..))
      have hane := hl.nonempty a (List.mem_cons_self ..)
      have hbne := hm.nonempty b (List.mem_cons_self ..)
      -- both heads start at the first point with a value
      have hstart : lo a = lo b := by
        rcases Nat.lt_trichotomy (lo a) (lo b) with h | h | h
        · rw [heq, hm.valueAt_before h] at ha; cases ha
        · exact h
        · rw [← heq, hl.valueAt_before h] at hb; cases hb
      have hvalue : val a = val b := by
        rw [heq, hstart, hb] at ha
        exact (Option.some.inj ha).symm
      -- and end where that value does
      have hend : hi a = hi b := by
        rcases Nat.lt_trichotomy (hi a) (hi b) with h | h | h
        · refine absurd ?_ hl.valueAt_end
          rw [heq, hm.valueAt_eq_some (List.mem_cons_self ..) (by omega) h, hvalue]
        · exact h
        · refine absurd ?_ hm.valueAt_end
          rw [← heq, hl.valueAt_eq_some (List.mem_cons_self ..) (by omega) h, hvalue]
      have hhead : a = b :=
        hext a (List.mem_cons_self ..) b (List.mem_cons_self ..) hstart hend hvalue
      have htails : ∀ x, valueAt lo hi val l x = valueAt lo hi val m x := fun x => by
        rw [hl.valueAt_tail, hm.valueAt_tail, heq, hend]
      rw [hhead, ih hl.tail hm.tail
        (fun c hc d hd => hext c (List.mem_cons_of_mem a hc) d (List.mem_cons_of_mem b hd))
        htails]

end Segments

/-! ## Appending with a join -/

section PushLast

variable {α : Type u} {β : Type v}

/-- Append an item, or grow the last one where `join` allows it. -/
def pushLast (join : α → α → Option α) : List α → α → List α
  | [], a => [a]
  | [last], a =>
    match join last a with
    | some joined => [joined]
    | none => [last, a]
  | b :: c :: rest, a => b :: pushLast join (c :: rest) a

theorem pushLast_concat (join : α → α → Option α) (front : List α) (last a : α) :
    pushLast join (front ++ [last]) a =
      front ++ match join last a with
        | some joined => [joined]
        | none => [last, a] := by
  induction front with
  | nil => rfl
  | cons b front ih =>
    cases front with
    | nil => simp [pushLast]
    | cons c rest => simpa [pushLast] using ih

theorem mem_pushLast {join : α → α → Option α} {l : List α} {a b : α}
    (h : b ∈ pushLast join l a) : b ∈ l ∨ b = a ∨ ∃ last ∈ l, join last a = some b := by
  rcases List.eq_nil_or_concat l with rfl | ⟨front, last, rfl⟩
  · exact .inr (.inl (by simpa [pushLast] using h))
  · rw [List.concat_eq_append, pushLast_concat, List.mem_append] at h
    rw [List.concat_eq_append]
    rcases h with hfront | h
    · exact .inl (List.mem_append_left _ hfront)
    · split at h
      · rename_i joined hj
        rw [List.mem_singleton.mp h]
        exact .inr (.inr ⟨last, by simp, hj⟩)
      · rcases List.mem_pair.mp h with rfl | rfl
        · exact .inl (by simp)
        · exact .inr (.inl rfl)

variable {lo hi : α → Nat} {val : α → β}

/-- What a join of `last` with `a` has to be: where it is made they overlap or touch and
agree, and the result reaches as far as both; where it is refused `a` lies behind. -/
def Joins (lo hi : α → Nat) (val : α → β) (join : α → α → Option α) (last a : α) : Prop :=
  match join last a with
  | some joined =>
    lo last ≤ lo a ∧ lo a ≤ hi last ∧ val last = val a ∧
      lo joined = lo last ∧ hi joined = max (hi last) (hi a) ∧ val joined = val a
  | none => Behind lo hi val last a

theorem Normal.of_append_left {l m : List α} (h : Normal lo hi val (l ++ m)) :
    Normal lo hi val l :=
  ⟨fun a ha => h.nonempty a (List.mem_append_left m ha), (List.pairwise_append.mp h.behind).1⟩

theorem Normal.append {l m : List α} (hl : Normal lo hi val l) (hm : Normal lo hi val m)
    (h : ∀ a ∈ l, ∀ b ∈ m, Behind lo hi val a b) : Normal lo hi val (l ++ m) :=
  ⟨fun a ha => (List.mem_append.mp ha).elim (hl.nonempty a) (hm.nonempty a),
    List.pairwise_append.mpr ⟨hl.behind, hm.behind, h⟩⟩

theorem Normal.singleton {a : α} (h : lo a < hi a) : Normal lo hi val [a] :=
  ⟨fun b hb => by rw [List.mem_singleton.mp hb]; exact h, List.pairwise_singleton _ _⟩

/-- **Appending a segment** keeps a list normal, and adds its interval. -/
theorem Normal.pushLast {join : α → α → Option α} {l : List α} (hl : Normal lo hi val l)
    {a : α} (ha : lo a < hi a) (hjoins : ∀ last ∈ l.getLast?, Joins lo hi val join last a) :
    Normal lo hi val (pushLast join l a) ∧
      ∀ x, valueAt lo hi val (Foundation.pushLast join l a) x =
        (valueAt lo hi val l x).or (valueAt lo hi val [a] x) := by
  rcases List.eq_nil_or_concat l with rfl | ⟨front, last, rfl⟩
  · exact ⟨Normal.singleton ha, fun _ => rfl⟩
  rw [List.concat_eq_append] at *
  have hlast : last ∈ front ++ [last] := by simp
  have hne := hl.nonempty last hlast
  have hfront : ∀ b ∈ front, Behind lo hi val b last := fun b hb =>
    (List.pairwise_append.mp hl.behind).2.2 b hb last (List.mem_singleton_self last)
  have hthis := hjoins last (by simp)
  unfold Joins at hthis
  rw [pushLast_concat]
  cases hj : join last a with
  | some joined =>
    rw [hj] at hthis
    obtain ⟨hll, hlh, hv, hlo, hhi, hval⟩ := hthis
    constructor
    · refine hl.of_append_left.append (Normal.singleton (by omega)) fun b hb c hc => ?_
      rw [List.mem_singleton.mp hc]
      unfold Behind
      rw [hlo, hval, ← hv]
      exact hfront b hb
    · intro x
      rw [valueAt_append, valueAt_append, Option.or_assoc]
      congr 1
      simp only [valueAt_cons, hlo, hhi, hval, hv]
      by_cases h1 : lo last ≤ x ∧ x < hi last
      · rw [if_pos h1, if_pos (by omega), Option.some_or]
      · by_cases h2 : lo a ≤ x ∧ x < hi a
        · rw [if_neg h1, if_pos h2, if_pos (by omega)]
          rfl
        · rw [if_neg h1, if_neg h2, if_neg (by omega)]
          rfl
  | none =>
    rw [hj] at hthis
    have hsplit : front ++ [last, a] = (front ++ [last]) ++ [a] := by simp
    rw [hsplit]
    refine ⟨hl.append (Normal.singleton ha) fun b hb c hc => ?_, fun x => valueAt_append _ _ x⟩
    rw [List.mem_singleton.mp hc]
    rcases List.mem_append.mp hb with hb | hb
    · -- whatever stands before the last segment ends strictly before the new one
      have hb' := (hfront b hb).1
      have := hthis.1
      exact ⟨by omega, fun h => absurd h (by omega)⟩
    · rw [List.mem_singleton.mp hb]
      exact hthis

end PushLast

end Orchard.Foundation
