/-
  Foundation/Reordering.lean --- lists that differ in the order of independent members.

  When two lists have the same members and agree on the order of those that matter to an
  observer, the observer sees the same; and sorting or searching by distinct keys
  forgets the order.
-/
import Mathlib.Data.List.Nodup
import Mathlib.Data.List.Perm.Basic

set_option autoImplicit false

namespace Orchard.Foundation

variable {α β : Type*}

theorem flatMap_filter_of_eq_nil (f : α → List β) (relevant : α → Bool) {l : List α}
    (h : ∀ a ∈ l, relevant a = false → f a = []) : (l.filter relevant).flatMap f = l.flatMap f := by
  induction l with
  | nil => rfl
  | cons a rest ih =>
    have hrest := ih fun b hb => h b (List.mem_cons_of_mem a hb)
    cases ha : relevant a with
    | false =>
      rw [List.filter_cons_of_neg (by simp [ha]), List.flatMap_cons, h a List.mem_cons_self ha,
        hrest, List.nil_append]
    | true => rw [List.filter_cons_of_pos ha, List.flatMap_cons, List.flatMap_cons, hrest]

/-- **Reordering rule.**  What the members that matter contribute is the same in two orders of a
list that agree on those members. -/
theorem flatMap_eq_of_reordered {l other : List α} (hperm : other.Perm l) (rank : α → Nat)
    (hsorted : l.Pairwise fun a b => rank a < rank b) (f : α → List β) (relevant : α → Prop)
    (hf : ∀ a ∈ l, ¬relevant a → f a = [])
    (horder : other.Pairwise fun a b => relevant a → relevant b → rank a < rank b) :
    other.flatMap f = l.flatMap f := by
  classical
  have hl : ∀ a ∈ l, decide (relevant a) = false → f a = [] := fun a ha hnot =>
    hf a ha (of_decide_eq_false hnot)
  have hother : ∀ a ∈ other, decide (relevant a) = false → f a = [] := fun a ha =>
    hl a (hperm.mem_iff.mp ha)
  have hfilter : other.filter (fun a => decide (relevant a)) =
      l.filter fun a => decide (relevant a) := by
    refine (hperm.filter _).eq_of_pairwise
      (fun a b _ _ hab hba => absurd hba (Nat.lt_asymm hab)) ?_
      (hsorted.sublist List.filter_sublist)
    refine (horder.filter fun a => decide (relevant a)).imp_of_mem fun ha hb h => ?_
    exact h (of_decide_eq_true (List.mem_filter.mp ha).2)
      (of_decide_eq_true (List.mem_filter.mp hb).2)
  rw [← flatMap_filter_of_eq_nil f _ hother, hfilter, flatMap_filter_of_eq_nil f _ hl]

/-- In a sorted list a member of lower rank stands before one of higher rank. -/
theorem rel_of_pairwise_of_lt {l : List α} {R : α → α → Prop} (rank : α → Nat)
    (hsorted : l.Pairwise fun a b => rank a < rank b) (h : l.Pairwise R) {a b : α} (ha : a ∈ l)
    (hb : b ∈ l) (hlt : rank a < rank b) : R a b := by
  induction l with
  | nil => cases ha
  | cons c rest ih =>
    obtain ⟨hhead, htail⟩ := List.pairwise_cons.mp hsorted
    obtain ⟨hfirst, hrest⟩ := List.pairwise_cons.mp h
    rcases List.mem_cons.mp ha with rfl | ha'
    · rcases List.mem_cons.mp hb with rfl | hb'
      · exact absurd hlt (Nat.lt_irrefl _)
      · exact hfirst b hb'
    · rcases List.mem_cons.mp hb with rfl | hb'
      · exact absurd hlt (Nat.lt_asymm (hhead a ha'))
      · exact ih htail hrest ha' hb'

/-- Before a member of a sorted list stand the members of lower rank. -/
theorem filter_lt_eq_of_sorted {front rest : List α} {a : α} (rank : α → Nat)
    (hsorted : (front ++ a :: rest).Pairwise fun a b => rank a < rank b) :
    (front ++ a :: rest).filter (fun b => decide (rank b < rank a)) = front := by
  obtain ⟨-, hback, hcross⟩ := List.pairwise_append.mp hsorted
  have hfront : ∀ b ∈ front, decide (rank b < rank a) = true := fun b hb =>
    decide_eq_true (hcross b hb a List.mem_cons_self)
  have hrest : ∀ b ∈ a :: rest, ¬decide (rank b < rank a) = true := by
    intro b hb hlt
    have hlt := of_decide_eq_true hlt
    rcases List.mem_cons.mp hb with rfl | hb
    · exact Nat.lt_irrefl _ hlt
    · exact Nat.lt_asymm hlt ((List.pairwise_cons.mp hback).1 b hb)
  rw [List.filter_append, List.filter_eq_self.mpr hfront, List.filter_eq_nil_iff.mpr hrest,
    List.append_nil]

theorem mem_front_of_lt {front rest : List α} {a b : α} (rank : α → Nat)
    (hsorted : (front ++ a :: rest).Pairwise fun a b => rank a < rank b)
    (hb : b ∈ front ++ a :: rest) (hlt : rank b < rank a) : b ∈ front := by
  rw [← filter_lt_eq_of_sorted rank hsorted]
  exact List.mem_filter.mpr ⟨hb, decide_eq_true hlt⟩

theorem nodup_map_of_sorted (rank : α → Nat) {l : List α}
    (hsorted : l.Pairwise fun a b => rank a < rank b) : (l.map rank).Nodup :=
  (List.pairwise_map.mpr hsorted).imp Nat.ne_of_lt

/-- Under distinct keys a search by key finds the member that has it. -/
theorem find?_eq_some_of_nodup {κ : Type*} [DecidableEq κ] (key : α → κ) {l : List α}
    (hnodup : (l.map key).Nodup) {a : α} (ha : a ∈ l) {k : κ} (hk : key a = k) :
    l.find? (fun b => decide (key b = k)) = some a := by
  cases hfind : l.find? fun b => decide (key b = k) with
  | none => exact absurd (decide_eq_true hk) (List.find?_eq_none.mp hfind a ha)
  | some b =>
    have hb : key b = k := by simpa using List.find?_some hfind
    rw [List.inj_on_of_nodup_map hnodup (List.mem_of_find?_eq_some hfind) ha (hb.trans hk.symm)]

/-- Sorting by distinct keys does not depend on the order that is sorted. -/
theorem mergeSort_eq_of_perm (key : α → Nat) {l other : List α} (hperm : other.Perm l)
    (hnodup : (l.map key).Nodup) :
    other.mergeSort (fun a b => decide (key a ≤ key b)) =
      l.mergeSort fun a b => decide (key a ≤ key b) := by
  have hsorted : ∀ m : List α, (m.mergeSort fun a b => decide (key a ≤ key b)).Pairwise
      fun a b => decide (key a ≤ key b) = true :=
    fun m => @List.pairwise_mergeSort _ (fun a b => decide (key a ≤ key b))
      (fun a b c hab hbc => decide_eq_true
        (Nat.le_trans (of_decide_eq_true hab) (of_decide_eq_true hbc)))
      (fun a b => by simpa using Nat.le_total (key a) (key b)) m
  refine List.Perm.eq_of_pairwise (fun a b ha hb hab hba => ?_) (hsorted other) (hsorted l)
    ((List.mergeSort_perm other _).trans (hperm.trans (List.mergeSort_perm l _).symm))
  have hkey : key a = key b := Nat.le_antisymm (of_decide_eq_true hab) (of_decide_eq_true hba)
  have hal : a ∈ l := hperm.mem_iff.mp ((List.mergeSort_perm other _).mem_iff.mp ha)
  have hbl : b ∈ l := (List.mergeSort_perm l _).mem_iff.mp hb
  exact List.inj_on_of_nodup_map hnodup hal hbl hkey

end Orchard.Foundation
