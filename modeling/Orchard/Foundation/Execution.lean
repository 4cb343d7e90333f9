import Mathlib.Data.List.Basic

set_option autoImplicit false

/-!
# Runs of a transition system

A component is a step function on a state type; a run folds it over a finite
list of actions.  Three kinds of run occur in this development: silent runs
(`run`), runs whose every step meets a condition on the state it starts from
(`Guarded`), and runs that emit observations (`observe`).  The rules below are
the only inductions over runs the components need: an invariant is carried by a
step lemma, and equality of two observation lists by a bisimulation.
-/

namespace Orchard.Foundation

universe u v w

variable {σ : Type u} {α : Type v} {ω : Type w}

/-! ## Silent runs -/

/-- The state reached from `s` by the listed actions. -/
def run (step : σ → α → σ) (s : σ) (actions : List α) : σ :=
  actions.foldl step s

@[simp] theorem run_nil (step : σ → α → σ) (s : σ) : run step s [] = s := rfl

@[simp] theorem run_cons (step : σ → α → σ) (s : σ) (a : α) (rest : List α) :
    run step s (a :: rest) = run step (step s a) rest := rfl

theorem run_append (step : σ → α → σ) (s : σ) (front back : List α) :
    run step s (front ++ back) = run step (run step s front) back :=
  List.foldl_append

/-! ## Runs whose steps meet a condition -/

/-- Every step of the run is taken from a state that meets `ok`. -/
def Guarded (step : σ → α → σ) (ok : σ → α → Prop) : σ → List α → Prop
  | _, [] => True
  | s, a :: rest => ok s a ∧ Guarded step ok (step s a) rest

instance decidableGuarded (step : σ → α → σ) (ok : σ → α → Prop)
    [∀ s a, Decidable (ok s a)] : ∀ s actions, Decidable (Guarded step ok s actions)
  | _, [] => inferInstanceAs (Decidable True)
  | s, a :: rest =>
    have := decidableGuarded step ok (step s a) rest
    inferInstanceAs (Decidable (ok s a ∧ Guarded step ok (step s a) rest))

@[simp] theorem guarded_nil (step : σ → α → σ) (ok : σ → α → Prop) (s : σ) :
    Guarded step ok s [] := trivial

@[simp] theorem guarded_cons (step : σ → α → σ) (ok : σ → α → Prop) (s : σ)
    (a : α) (rest : List α) :
    Guarded step ok s (a :: rest) ↔ ok s a ∧ Guarded step ok (step s a) rest :=
  Iff.rfl

theorem guarded_append (step : σ → α → σ) (ok : σ → α → Prop) (s : σ)
    (front back : List α) :
    Guarded step ok s (front ++ back) ↔
      Guarded step ok s front ∧ Guarded step ok (run step s front) back := by
  induction front generalizing s with
  | nil => simp
  | cons a rest ih =>
    simp only [List.cons_append, guarded_cons, run_cons, ih, and_assoc]

theorem guarded_true (step : σ → α → σ) (s : σ) (actions : List α) :
    Guarded step (fun _ _ => True) s actions := by
  induction actions generalizing s with
  | nil => trivial
  | cons a rest ih => exact ⟨trivial, ih (step s a)⟩

/-- **Guard rule.**  A condition that follows from what every step preserves guards every
run. -/
theorem guarded_of_invariant {step : σ → α → σ} {ok : σ → α → Prop} {P : σ → Prop}
    (hstep : ∀ s a, P s → P (step s a)) (hok : ∀ s a, P s → ok s a) {s : σ} (actions : List α)
    (hinit : P s) : Guarded step ok s actions := by
  induction actions generalizing s with
  | nil => trivial
  | cons a rest ih => exact ⟨hok s a hinit, ih (hstep s a hinit)⟩

/-- **Invariant rule.**  What every step preserves holds at the end of every run. -/
theorem run_invariant_all {step : σ → α → σ} {P : σ → Prop}
    (hstep : ∀ s a, P s → P (step s a)) {s : σ} (actions : List α)
    (hinit : P s) : P (run step s actions) := by
  induction actions generalizing s with
  | nil => exact hinit
  | cons a rest ih => exact ih (hstep s a hinit)

/-- **Invariant rule**, for what is preserved by the steps that meet the condition. -/
theorem run_invariant {step : σ → α → σ} {ok : σ → α → Prop} {P : σ → Prop}
    (hstep : ∀ s a, ok s a → P s → P (step s a)) {s : σ} {actions : List α}
    (hrun : Guarded step ok s actions) (hinit : P s) : P (run step s actions) := by
  induction actions generalizing s with
  | nil => exact hinit
  | cons a rest ih => exact ih hrun.2 (hstep s a hrun.1 hinit)

/-- **Preorder rule.**  If every step from an invariant state leads to a state the first
one relates to, so does every run. -/
theorem run_relates {step : σ → α → σ} {P : σ → Prop} {R : σ → σ → Prop}
    (hrefl : ∀ s, R s s) (htrans : ∀ {s t u}, R s t → R t u → R s u)
    (hstep : ∀ s a, P s → P (step s a) ∧ R s (step s a)) {s : σ} (hs : P s)
    (actions : List α) : R s (run step s actions) := by
  induction actions generalizing s with
  | nil => exact hrefl s
  | cons a rest ih =>
    obtain ⟨hnext, hrel⟩ := hstep s a hs
    exact htrans hrel (ih hnext)

/-- The invariant rule with a condition on the steps and with history: what has
happened so far is folded into a value of its own, which the invariant may mention. -/
theorem run_invariant_history {step : σ → α → σ} {note : ω → α → ω}
    {ok : σ → α → Prop} {P : σ → ω → Prop}
    (hstep : ∀ s h a, ok s a → P s h → P (step s a) (note h a)) {s : σ} {h : ω}
    {actions : List α} (hrun : Guarded step ok s actions) (hinit : P s h) :
    P (run step s actions) (run note h actions) := by
  induction actions generalizing s h with
  | nil => exact hinit
  | cons a rest ih =>
    obtain ⟨hok, hrest⟩ := hrun
    exact ih hrest (hstep s h a hok hinit)

/-- **Exactness rule.**  If, from states that meet an invariant, a step keeps `P` exactly
when it meets the condition, then `P` holds at all times of a run exactly when the run
is guarded by it. -/
theorem always_iff_guarded {step : σ → α → σ} {P Q : σ → Prop} {ok : σ → α → Prop}
    (hinv : ∀ s a, Q s → Q (step s a))
    (hstep : ∀ s a, Q s → P s → (P (step s a) ↔ ok s a))
    {s : σ} (actions : List α) (hQ : Q s) (hP : P s) :
    (∀ front, front <+: actions → P (run step s front)) ↔ Guarded step ok s actions := by
  induction actions generalizing s with
  | nil =>
    refine iff_of_true (fun front hfront => ?_) trivial
    rw [List.prefix_nil.1 hfront]
    exact hP
  | cons a rest ih =>
    rw [guarded_cons]
    constructor
    · intro h
      have hnext : P (step s a) := h [a] ⟨rest, rfl⟩
      refine ⟨(hstep s a hQ hP).1 hnext, (ih (hinv s a hQ) hnext).1 fun front hfront => ?_⟩
      exact h (a :: front) (List.cons_prefix_cons.2 ⟨rfl, hfront⟩)
    · rintro ⟨hok, hrest⟩ front hfront
      have hnext : P (step s a) := (hstep s a hQ hP).2 hok
      cases front with
      | nil => exact hP
      | cons b front =>
        obtain ⟨rfl, htail⟩ := List.cons_prefix_cons.1 hfront
        exact (ih (hinv s b hQ) hnext).2 hrest front htail

/-! ## Observed runs -/

/-- The observations a run emits, in order. -/
def observe (step : σ → α → σ × List ω) : σ → List α → List ω
  | _, [] => []
  | s, a :: rest => (step s a).2 ++ observe step (step s a).1 rest

@[simp] theorem observe_nil (step : σ → α → σ × List ω) (s : σ) :
    observe step s [] = [] := rfl

@[simp] theorem observe_cons (step : σ → α → σ × List ω) (s : σ) (a : α)
    (rest : List α) :
    observe step s (a :: rest) =
      (step s a).2 ++ observe step (step s a).1 rest := rfl

/-- The state a run with observations reaches. -/
def final (step : σ → α → σ × List ω) (s : σ) (actions : List α) : σ :=
  run (fun t a => (step t a).1) s actions

@[simp] theorem final_nil (step : σ → α → σ × List ω) (s : σ) :
    final step s [] = s := rfl

@[simp] theorem final_cons (step : σ → α → σ × List ω) (s : σ) (a : α)
    (rest : List α) :
    final step s (a :: rest) = final step (step s a).1 rest := rfl

theorem final_append (step : σ → α → σ × List ω) (s : σ) (front back : List α) :
    final step s (front ++ back) = final step (final step s front) back :=
  run_append _ s front back

theorem observe_append (step : σ → α → σ × List ω) (s : σ) (front back : List α) :
    observe step s (front ++ back) =
      observe step s front ++ observe step (final step s front) back := by
  induction front generalizing s with
  | nil => rfl
  | cons a rest ih =>
    rw [List.cons_append, observe_cons, observe_cons, final_cons, ih, List.append_assoc]

/-- **Invariant rule for observed runs.**  The invariant may mention the actions
taken and the observations made so far. -/
theorem observe_invariant {step : σ → α → σ × List ω} {ok : σ → α → Prop}
    {P : σ → List α → List ω → Prop}
    (hstep : ∀ s past log a, ok s a → P s past log →
      P (step s a).1 (past ++ [a]) (log ++ (step s a).2))
    {s : σ} {actions : List α} (hrun : Guarded (fun t a => (step t a).1) ok s actions)
    (past : List α) (log : List ω) (hinit : P s past log) :
    P (final step s actions) (past ++ actions) (log ++ observe step s actions) := by
  induction actions generalizing s past log with
  | nil => simpa using hinit
  | cons a rest ih =>
    obtain ⟨hok, hrest⟩ := hrun
    have hnext := ih hrest _ _ (hstep s past log a hok hinit)
    simpa using hnext

/-- Every event of the log meets `ok` with respect to the events before it. -/
def Everywhere (ok : List ω → ω → Prop) (log : List ω) : Prop :=
  ∀ before e after, log = before ++ e :: after → ok before e

theorem everywhere_nil (ok : List ω → ω → Prop) : Everywhere ok [] := by
  intro before e after h
  simp at h

theorem everywhere_concat {ok : List ω → ω → Prop} {log : List ω} {e : ω}
    (hlog : Everywhere ok log) (he : ok log e) : Everywhere ok (log ++ [e]) := by
  intro before x after h
  rcases List.eq_nil_or_concat after with rfl | ⟨rest, last, rfl⟩
  · obtain ⟨rfl, hlast⟩ := List.append_inj' h rfl
    cases hlast
    exact he
  · rw [List.concat_eq_append, ← List.cons_append, ← List.append_assoc] at h
    exact hlog before x rest (List.append_inj' h rfl).1

theorem everywhere_of_append {ok : List ω → ω → Prop} {front back : List ω}
    (h : Everywhere ok (front ++ back)) : Everywhere ok front := by
  intro before e after heq
  exact h before e (after ++ back) (by rw [heq, List.append_assoc, List.cons_append])

/-- **Bisimulation rule.**  If related states emit the same observations and stay
related under every action, two runs that start related are indistinguishable. -/
theorem observe_eq_of_bisimulation {step : σ → α → σ × List ω}
    {R : σ → σ → Prop}
    (hstep : ∀ s t a, R s t → (step s a).2 = (step t a).2 ∧ R (step s a).1 (step t a).1)
    {s t : σ} (hinit : R s t) (actions : List α) :
    observe step s actions = observe step t actions := by
  induction actions generalizing s t with
  | nil => rfl
  | cons a rest ih =>
    obtain ⟨hobs, hnext⟩ := hstep s t a hinit
    rw [observe_cons, observe_cons, hobs, ih hnext]

/-- **Simulation rule.**  Two systems whose related states emit the same observations and
stay related under every action are indistinguishable from related states on. -/
theorem observe_eq_of_simulation {τ : Type*} {step : σ → α → σ × List ω}
    {step' : τ → α → τ × List ω} {R : σ → τ → Prop}
    (hstep : ∀ s t a, R s t → (step s a).2 = (step' t a).2 ∧ R (step s a).1 (step' t a).1)
    {s : σ} {t : τ} (hinit : R s t) (actions : List α) :
    observe step s actions = observe step' t actions := by
  induction actions generalizing s t with
  | nil => rfl
  | cons a rest ih =>
    obtain ⟨hobs, hnext⟩ := hstep s t a hinit
    rw [observe_cons, observe_cons, hobs, ih hnext]

end Orchard.Foundation
