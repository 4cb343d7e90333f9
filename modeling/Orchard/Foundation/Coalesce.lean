import Mathlib.Data.List.Chain

set_option autoImplicit false

/-!
# Coalescing a stream with one open span

A walk over a list of items keeps at most one open span.  An item either opens a
span of its own (`fresh`) or interrupts the run; a fresh span is joined onto the
open one when `join` allows it, and closes it otherwise.  The rules below say what
the resulting list of spans inherits from the items, whatever items, spans, `fresh`
and `join` are.
-/

namespace Orchard.Foundation

universe u v

variable {α : Type u} {β : Type v} {fresh : α → Option β} {join : β → β → Option β}

/-- One item of the walk: the spans it closes, and the span it leaves open. -/
def coalesceStep (fresh : α → Option β) (join : β → β → Option β)
    (pending : Option β) (item : α) : List β × Option β :=
  match fresh item with
  | none => (pending.toList, none)
  | some span =>
    match pending.bind (join · span) with
    | some joined => ([], some joined)
    | none => (pending.toList, some span)

/-- The spans of a walk that starts with `pending` open. -/
def coalesce (fresh : α → Option β) (join : β → β → Option β) :
    Option β → List α → List β
  | pending, [] => pending.toList
  | pending, item :: rest =>
    let closed := coalesceStep fresh join pending item
    closed.1 ++ coalesce fresh join closed.2 rest

/-- The three things an item can do: interrupt, be joined, or open a new span. -/
theorem coalesceStep_cases (fresh : α → Option β) (join : β → β → Option β)
    (pending : Option β) (item : α) :
    (fresh item = none ∧ coalesceStep fresh join pending item = (pending.toList, none)) ∨
    (∃ open_ span joined, pending = some open_ ∧ fresh item = some span ∧
      join open_ span = some joined ∧
      coalesceStep fresh join pending item = ([], some joined)) ∨
    (∃ span, fresh item = some span ∧ (∀ open_ ∈ pending, join open_ span = none) ∧
      coalesceStep fresh join pending item = (pending.toList, some span)) := by
  unfold coalesceStep
  cases hfresh : fresh item with
  | none => exact .inl ⟨rfl, rfl⟩
  | some span =>
    cases pending with
    | none => exact .inr (.inr ⟨span, rfl, by simp, rfl⟩)
    | some open_ =>
      cases hjoin : join open_ span with
      | none => exact .inr (.inr ⟨span, rfl, by simpa using hjoin, by simp [hjoin]⟩)
      | some joined => exact .inr (.inl ⟨open_, span, joined, rfl, rfl, hjoin, by simp [hjoin]⟩)

/-- There are at most as many spans as items, and the open one. -/
theorem length_coalesce_le (items : List α) (pending : Option β) :
    (coalesce fresh join pending items).length ≤ pending.toList.length + items.length := by
  induction items generalizing pending with
  | nil => simp [coalesce]
  | cons item rest ih =>
    rw [coalesce, List.length_append, List.length_cons]
    have hrest := ih (coalesceStep fresh join pending item).2
    have hstep : (coalesceStep fresh join pending item).1.length +
        (coalesceStep fresh join pending item).2.toList.length ≤ pending.toList.length + 1 := by
      rcases coalesceStep_cases fresh join pending item with
        ⟨-, h⟩ | ⟨_, _, _, rfl, -, -, h⟩ | ⟨_, -, -, h⟩ <;> simp [h]
    omega

/-! ## What every span inherits -/

/-- A property of fresh spans that joining keeps holds of every span. -/
theorem coalesce_forall {P : β → Prop}
    (hjoin : ∀ s t joined, P s → P t → join s t = some joined → P joined)
    (items : List α) (hfresh : ∀ item ∈ items, ∀ t, fresh item = some t → P t)
    (pending : Option β) (hpending : ∀ s ∈ pending, P s) :
    ∀ s ∈ coalesce fresh join pending items, P s := by
  induction items generalizing pending with
  | nil => simpa [coalesce] using hpending
  | cons item rest ih =>
    have hrest := fun i hi => hfresh i (List.mem_cons_of_mem item hi)
    intro s hs
    rw [coalesce, List.mem_append] at hs
    rcases coalesceStep_cases fresh join pending item with
      ⟨-, h⟩ | ⟨o, span, joined, rfl, hspan, hj, h⟩ | ⟨span, hspan, -, h⟩ <;> rw [h] at hs
    · exact hs.elim (fun hmem => hpending s (by simpa using hmem)) (ih hrest none (by simp) s)
    · have hjoined := hjoin o span joined (hpending o rfl) (hfresh item (by simp) span hspan) hj
      exact hs.elim (by simp) (ih hrest (some joined) (by simpa using hjoined) s)
    · have hnew := hfresh item (by simp) span hspan
      exact hs.elim (fun hmem => hpending s (by simpa using hmem))
        (ih hrest (some span) (by simpa using hnew) s)

/-- The first span of a walk is the open one, grown by joins. -/
theorem coalesce_head {P : β → Prop}
    (hgrow : ∀ s t joined, P s → join s t = some joined → P joined)
    (items : List α) (s : β) (hs : P s) :
    ∀ t ∈ (coalesce fresh join (some s) items).head?, P t := by
  induction items generalizing s with
  | nil => simpa [coalesce] using hs
  | cons item rest ih =>
    rw [coalesce]
    rcases coalesceStep_cases fresh join (some s) item with
      ⟨-, h⟩ | ⟨o, span, joined, ho, -, hj, h⟩ | ⟨span, -, -, h⟩ <;> rw [h]
    · simpa using hs
    · obtain rfl := Option.some.inj ho
      exact ih joined (hgrow s span joined hs hj)
    · simpa using hs

/-- What an open span or a fresh span has, and joins keep from either side, some span
of the walk has. -/
theorem coalesce_exists {P : β → Prop}
    (hjoin : ∀ s t joined, join s t = some joined → P s ∨ P t → P joined)
    (items : List α) (pending : Option β)
    (h : (∃ s ∈ pending, P s) ∨ ∃ item ∈ items, ∃ t, fresh item = some t ∧ P t) :
    ∃ s ∈ coalesce fresh join pending items, P s := by
  induction items generalizing pending with
  | nil => simpa [coalesce] using h
  | cons item rest ih =>
    simp only [coalesce, List.mem_append]
    -- either the span with `P` is closed by this item, or it is the one left open,
    -- or it comes from a later item
    have hlift : ∀ next, (∃ s ∈ next, P s) ∨ (∃ i ∈ rest, ∃ t, fresh i = some t ∧ P t) →
        ∃ s, (s ∈ (coalesceStep fresh join pending item).1 ∨
          s ∈ coalesce fresh join next rest) ∧ P s := fun next hnext =>
      let ⟨s, hs, hP⟩ := ih next hnext
      ⟨s, .inr hs, hP⟩
    rcases coalesceStep_cases fresh join pending item with
      ⟨hnone, h'⟩ | ⟨o, span, joined, rfl, hspan, hj, h'⟩ | ⟨span, hspan, -, h'⟩ <;>
      rw [h'] at hlift ⊢ <;> simp only [List.exists_mem_cons_iff] at h
    · rcases h with ⟨s, hs, hP⟩ | ⟨t, ht, -⟩ | hlater
      · exact ⟨s, .inl (by simpa using hs), hP⟩
      · simp [hnone] at ht
      · exact hlift none (.inr hlater)
    · rcases h with ⟨s, hs, hP⟩ | ⟨t, ht, hP⟩ | hlater
      · obtain rfl : o = s := by simpa using hs
        exact hlift (some joined) (.inl ⟨joined, rfl, hjoin o span joined hj (.inl hP)⟩)
      · obtain rfl : span = t := by simpa [hspan] using ht
        exact hlift (some joined) (.inl ⟨joined, rfl, hjoin o span joined hj (.inr hP)⟩)
      · exact hlift (some joined) (.inr hlater)
    · rcases h with ⟨s, hs, hP⟩ | ⟨t, ht, hP⟩ | hlater
      · exact ⟨s, .inl (by simpa using hs), hP⟩
      · obtain rfl : span = t := by simpa [hspan] using ht
        exact hlift (some span) (.inl ⟨span, rfl, hP⟩)
      · exact hlift (some span) (.inr hlater)

/-! ## Spans in order

`Past s item` says that the span lies behind the item.  The items are in order when a
fresh span lies behind every later item, and joining keeps a span behind what both of
its parts are behind.
-/

section InOrder

variable {R : β → β → Prop} {Past : β → α → Prop}

/-- Every span the walk leaves open lies behind the items still to come. -/
theorem coalesceStep_past
    (hjoin : ∀ s t joined item, Past s item → Past t item → join s t = some joined →
      Past joined item)
    {pending : Option β} {item : α} {rest : List α}
    (hitem : ∀ i ∈ rest, ∀ t, fresh item = some t → Past t i)
    (hpending : ∀ s ∈ pending, ∀ i ∈ item :: rest, Past s i) :
    ∀ s ∈ (coalesceStep fresh join pending item).2, ∀ i ∈ rest, Past s i := by
  intro s hs i hi
  rcases coalesceStep_cases fresh join pending item with
    ⟨-, h⟩ | ⟨o, span, joined, rfl, hspan, hj, h⟩ | ⟨span, hspan, -, h⟩ <;> rw [h] at hs
  · simp at hs
  · obtain rfl : joined = s := by simpa using hs
    exact hjoin o span joined i (hpending o rfl i (List.mem_cons_of_mem item hi))
      (hitem i hi span hspan) hj
  · obtain rfl : span = s := by simpa using hs
    exact hitem i hi span hspan

/-- A relation between a span and what is opened past it, kept while the later span
grows, holds between any two spans of the walk. -/
theorem coalesce_pairwise
    (hjoin : ∀ s t joined item, Past s item → Past t item → join s t = some joined →
      Past joined item)
    (hgrow : ∀ s t t' joined, R s t → join t t' = some joined → R s joined)
    (hpast : ∀ s item t, Past s item → fresh item = some t → R s t)
    (items : List α)
    (hitems : items.Pairwise fun i j => ∀ t, fresh i = some t → Past t j)
    (pending : Option β) (hpending : ∀ s ∈ pending, ∀ i ∈ items, Past s i) :
    (coalesce fresh join pending items).Pairwise R := by
  induction items generalizing pending with
  | nil => cases pending <;> simp [coalesce]
  | cons item rest ih =>
    rw [List.pairwise_cons] at hitems
    have hrest := ih hitems.2 _ (coalesceStep_past hjoin hitems.1 hpending)
    -- the pending span lies behind all that the rest of the walk yields
    have hlater : ∀ s ∈ pending, ∀ next, (∀ t ∈ next, R s t) →
        ∀ t ∈ coalesce fresh join next rest, R s t := fun s hs next hnext =>
      coalesce_forall (P := R s) (fun t t' joined ht _ hj => hgrow s t t' joined ht hj) rest
        (fun i hi t ht => hpast s i t (hpending s hs i (List.mem_cons_of_mem item hi)) ht)
        next hnext
    rw [coalesce]
    rcases coalesceStep_cases fresh join pending item with
      ⟨-, h⟩ | ⟨_, _, _, -, -, -, h⟩ | ⟨span, hspan, -, h⟩ <;> rw [h] at hrest ⊢
    · cases pending with
      | none => exact hrest
      | some s => exact List.pairwise_cons.2 ⟨hlater s rfl none (by simp), hrest⟩
    · exact hrest
    · cases pending with
      | none => exact hrest
      | some s =>
        have hs : R s span := hpast s item span (hpending s rfl item (by simp)) hspan
        exact List.pairwise_cons.2 ⟨hlater s rfl (some span) (by simpa using hs), hrest⟩

/-- Neighbouring spans are unrelated by `join`: a relation that holds where `join`
refuses, and across an interrupting item, holds along the walk. -/
theorem coalesce_isChain
    (hjoin : ∀ s t joined item, Past s item → Past t item → join s t = some joined →
      Past joined item)
    (hgrow : ∀ s t t' joined, R s t → join t t' = some joined → R s joined)
    (hrefused : ∀ s t, join s t = none → R s t)
    (items : List α)
    (hitems : items.Pairwise fun i j => ∀ t, fresh i = some t → Past t j)
    (hacross : items.Pairwise fun i j => fresh i = none → ∀ s t, Past s i →
      fresh j = some t → R s t)
    (pending : Option β) (hpending : ∀ s ∈ pending, ∀ i ∈ items, Past s i) :
    (coalesce fresh join pending items).IsChain R := by
  induction items generalizing pending with
  | nil => cases pending <;> simp [coalesce]
  | cons item rest ih =>
    rw [List.pairwise_cons] at hitems hacross
    have hrest := ih hitems.2 hacross.2 _ (coalesceStep_past hjoin hitems.1 hpending)
    rw [coalesce]
    rcases coalesceStep_cases fresh join pending item with
      ⟨hnone, h⟩ | ⟨_, _, _, -, -, -, h⟩ | ⟨span, -, hno, h⟩ <;> rw [h] at hrest ⊢
    · cases pending with
      | none => exact hrest
      | some s =>
        refine List.isChain_cons.2 ⟨fun t ht => ?_, hrest⟩
        refine coalesce_forall (P := R s) (fun t t' joined ht _ hj => hgrow s t t' joined ht hj)
          rest ?_ none (by simp) t (List.mem_of_mem_head? ht)
        intro i hi t' ht'
        exact hacross.1 i hi hnone s t' (hpending s rfl item (by simp)) ht'
    · exact hrest
    · cases pending with
      | none => exact hrest
      | some s =>
        refine List.isChain_cons.2 ⟨?_, hrest⟩
        exact coalesce_head (P := R s) (fun t t' joined ht hj => hgrow s t t' joined ht hj)
          rest span (hrefused s span (hno s rfl))

end InOrder

end Orchard.Foundation
