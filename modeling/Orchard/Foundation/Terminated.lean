import Mathlib.Data.List.Basic

set_option autoImplicit false

/-!
# Lists of terminated strings

A table of strings laid out one after the other, each closed by a terminator; an
empty string, or the lack of a further terminator, ends the table.  Reading is total:
what stands behind the end is the rest, which `Exhausted` describes.  The rules are
those of a reader and a writer over the same layout: the table read off a list, laid
out again, is the front of that list.
-/

namespace Orchard.Foundation

universe u

variable {α : Type u} {z : α}

/-! ## Writing -/

/-- The strings, each followed by the terminator. -/
def layOut (z : α) (strings : List (List α)) : List α := strings.flatMap (· ++ [z])

@[simp] theorem layOut_nil : layOut z ([] : List (List α)) = [] := rfl

@[simp] theorem layOut_cons (s : List α) (rest : List (List α)) :
    layOut z (s :: rest) = s ++ z :: layOut z rest := by
  simp [layOut]

/-- A string that can stand in a table. -/
def Proper (z : α) (s : List α) : Prop := s ≠ [] ∧ z ∉ s

/-! ## Reading -/

variable [DecidableEq α]

/-- The strings at the front of the input, the first of which has begun with `begun`. -/
def readFrom (z : α) : List α → List α → List (List α)
  | _, [] => []
  | begun, a :: rest =>
    if a = z then (if begun = [] then [] else begun :: readFrom z [] rest)
    else readFrom z (begun ++ [a]) rest

/-- The nonempty terminated strings at the front of the input. -/
def readStrings (z : α) (input : List α) : List (List α) := readFrom z [] input

/-- No string can be read off the input. -/
def Exhausted (z : α) (input : List α) : Prop :=
  input = [] ∨ input.head? = some z ∨ z ∉ input

instance (z : α) (input : List α) : Decidable (Exhausted z input) :=
  inferInstanceAs (Decidable (_ ∨ _ ∨ _))

/-- The reader takes letters in until a terminator comes. -/
theorem readFrom_append {s : List α} (hs : z ∉ s) (begun rest : List α) :
    readFrom z begun (s ++ rest) = readFrom z (begun ++ s) rest := by
  induction s generalizing begun with
  | nil => simp
  | cons a s ih =>
    rw [List.mem_cons, not_or] at hs
    rw [List.cons_append, readFrom, if_neg (Ne.symm hs.1), ih hs.2, List.append_assoc]
    rfl

theorem readStrings_cons {s : List α} (hs : Proper z s) (rest : List α) :
    readStrings z (s ++ z :: rest) = s :: readStrings z rest := by
  rw [readStrings, readFrom_append hs.2, List.nil_append, readFrom, if_pos rfl, if_neg hs.1,
    readStrings]

/-- Reading undoes laying out. -/
theorem readStrings_layOut_append {strings : List (List α)} (h : ∀ s ∈ strings, Proper z s)
    (rest : List α) :
    readStrings z (layOut z strings ++ rest) = strings ++ readStrings z rest := by
  induction strings with
  | nil => rfl
  | cons s strings ih =>
    rw [layOut_cons, List.append_assoc, List.cons_append, readStrings_cons (h s (by simp)),
      ih fun t ht => h t (List.mem_cons_of_mem s ht), List.cons_append]

theorem readStrings_of_exhausted {input : List α} (h : Exhausted z input) :
    readStrings z input = [] := by
  rcases h with rfl | hhead | hnone
  · rfl
  · obtain ⟨rest, rfl⟩ := List.head?_eq_some_iff.1 hhead
    simp [readStrings, readFrom]
  · have h := readFrom_append hnone [] []
    rw [List.append_nil] at h
    rw [readStrings, h, readFrom]

theorem exhausted_of_readStrings {input : List α} (h : readStrings z input = []) :
    Exhausted z input := by
  by_cases hz : z ∈ input
  · obtain ⟨s, rest, rfl, hs⟩ := List.eq_append_cons_of_mem hz
    by_cases hnil : s = []
    · exact .inr (.inl (by simp [hnil]))
    · rw [readStrings_cons ⟨hnil, hs⟩] at h
      cases h
  · exact .inr (.inr hz)

/-- The input is the table read off it, laid out, and an exhausted rest. -/
theorem exists_layOut_append (z : α) (input : List α) :
    ∃ rest, input = layOut z (readStrings z input) ++ rest ∧ Exhausted z rest ∧
      ∀ s ∈ readStrings z input, Proper z s := by
  -- on the length: a string read off the front leaves a shorter input
  induction hn : input.length using Nat.strongRecOn generalizing input with
  | _ n ih =>
    by_cases hex : Exhausted z input
    · refine ⟨input, ?_, hex, ?_⟩ <;> simp [readStrings_of_exhausted hex]
    · have hz : z ∈ input := by
        by_contra hz
        exact hex (.inr (.inr hz))
      obtain ⟨s, tail, rfl, hs⟩ := List.eq_append_cons_of_mem hz
      have hproper : Proper z s := by
        refine ⟨?_, hs⟩
        rintro rfl
        exact hex (.inr (.inl rfl))
      have hshort : tail.length < n := by
        rw [← hn, List.length_append, List.length_cons]
        omega
      obtain ⟨rest, htail, hrest, hall⟩ := ih tail.length hshort tail rfl
      refine ⟨rest, ?_, hrest, ?_⟩
      · rw [readStrings_cons hproper, layOut_cons, List.append_assoc, List.cons_append, ← htail]
      · rw [readStrings_cons hproper]
        exact List.forall_mem_cons.2 ⟨hproper, hall⟩

end Orchard.Foundation
