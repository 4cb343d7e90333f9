import Mathlib.Data.List.Basic

set_option autoImplicit false

/-!
# Tables without an order

A hash table whose iteration order is not observable, as a list of key/value
pairs read with `List.lookup`.  The lemmas say what the three updates this
development uses (insert a fresh key, remove a key, map over all values) do to a
lookup.

An array that is compacted by moving its last element into the gap is a list up to
permutation.
-/

namespace Orchard.Foundation

universe u v w

variable {κ : Type u} {β : Type v} {γ : Type w} [DecidableEq κ]

/-- Remove a key. -/
def eraseKey (table : List (κ × β)) (key : κ) : List (κ × β) :=
  table.filter fun entry => entry.1 ≠ key

/-- Apply a function to every value. -/
def mapValues (f : β → γ) (table : List (κ × β)) : List (κ × γ) :=
  table.map fun entry => (entry.1, f entry.2)

/-- A found value is an entry of the table. -/
theorem mem_of_lookup {table : List (κ × β)} {key : κ} {value : β}
    (h : table.lookup key = some value) : (key, value) ∈ table := by
  rw [List.lookup_eq_some_iff] at h
  obtain ⟨front, back, rfl, _⟩ := h
  simp

theorem lookup_mapValues (f : β → γ) (table : List (κ × β)) (key : κ) :
    (mapValues f table).lookup key = (table.lookup key).map f := by
  induction table with
  | nil => rfl
  | cons entry rest ih =>
    rcases entry with ⟨k, value⟩
    simp only [mapValues, List.map_cons, List.lookup_cons] at ih ⊢
    cases hkey : key == k with
    | true => rfl
    | false => exact ih

/-- Removing a key loses only that key. -/
theorem lookup_eraseKey_of_ne {table : List (κ × β)} {key other : κ}
    (hne : other ≠ key) :
    (eraseKey table key).lookup other = table.lookup other := by
  induction table with
  | nil => rfl
  | cons entry rest ih =>
    rcases entry with ⟨k, value⟩
    simp only [eraseKey] at ih ⊢
    by_cases hentry : k = key
    · subst hentry
      have hother : (other == k) = false := beq_eq_false_iff_ne.mpr hne
      simp only [List.filter_cons, ne_eq, not_true_eq_false, decide_false,
        Bool.false_eq_true, if_false, List.lookup_cons, hother]
      exact ih
    · simp only [List.filter_cons, ne_eq, hentry, not_false_eq_true, decide_true,
        if_true, List.lookup_cons]
      simp only [ne_eq] at ih
      rw [ih]

theorem lookup_eraseKey_self (table : List (κ × β)) (key : κ) :
    (eraseKey table key).lookup key = none := by
  cases h : (eraseKey table key).lookup key with
  | none => rfl
  | some value =>
    have hmem := mem_of_lookup h
    simp [eraseKey] at hmem

/-- A lookup in a table after an append of another key reads the old table. -/
theorem lookup_append_of_ne {table : List (κ × β)} {key other : κ} {value : β}
    (hne : other ≠ key) :
    (table ++ [(key, value)]).lookup other = table.lookup other := by
  rw [List.lookup_append]
  have hnone : List.lookup other [(key, value)] = none := by
    simp [List.lookup_cons, beq_eq_false_iff_ne.mpr hne]
  simp [hnone]

/-! ## Removal by moving the last element -/

/-- Element `i` replaced by the last one, and the last one dropped. -/
def removeIndexFast {α : Type u} (xs : List α) (i : Nat) : List α :=
  match xs.getLast? with
  | none => []
  | some last => (xs.set i last).dropLast

/-- The elements are those that were there but for the one removed. -/
theorem perm_removeIndexFast {α : Type u} {xs : List α} {i : Nat} {x : α}
    (h : xs[i]? = some x) : xs.Perm (x :: removeIndexFast xs i) := by
  rcases List.eq_nil_or_concat xs with rfl | ⟨front, last, rfl⟩
  · cases h
  · rw [List.concat_eq_append] at h ⊢
    have hi : i < (front ++ [last]).length := (List.getElem?_eq_some_iff.mp h).1
    rw [List.length_append, List.length_singleton] at hi
    unfold removeIndexFast
    rw [List.getLast?_concat]
    dsimp only
    rcases Nat.lt_succ_iff_lt_or_eq.mp hi with hlt | rfl
    · rw [List.getElem?_append_left hlt] at h
      rw [List.set_append_left _ _ hlt, List.dropLast_concat]
      have hsplit : front = front.take i ++ x :: front.drop (i + 1) := by
        obtain ⟨_, rfl⟩ := List.getElem?_eq_some_iff.mp h
        rw [List.getElem_cons_drop, List.take_append_drop]
      rw [List.set_eq_take_append_cons_drop, if_pos hlt]
      have hwhole : front ++ [last] = front.take i ++ x :: (front.drop (i + 1) ++ [last]) := by
        rw [← List.cons_append, ← List.append_assoc, ← hsplit]
      have hmove : (x :: (front.take i ++ (front.drop (i + 1) ++ [last]))).Perm
          (x :: (front.take i ++ last :: front.drop (i + 1))) :=
        ((List.perm_append_singleton _ _).append_left _).cons _
      rw [hwhole]
      exact List.perm_middle.trans hmove
    · have hlast : last = x := by simpa using h
      subst hlast
      rw [List.set_append_right _ _ (Nat.le_refl _), Nat.sub_self, List.set_cons_zero,
        List.dropLast_concat]
      exact List.perm_append_singleton _ _

end Orchard.Foundation
