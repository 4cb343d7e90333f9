/-
  Plane/Releases.lean --- what the channels of a batch have released.

  The book of a run is a function of the transactions that have been admitted and of those
  that have completed, and so is what every channel has released.
-/
import Orchard.Plane.Chronicle

set_option autoImplicit false

namespace Orchard.Plane

/-- What has become of a transaction's position. -/
def fateOf (done : List DeviceTransaction) (tx : DeviceTransaction) : Fate :=
  if tx.ingress ∈ done.map DeviceTransaction.ingress then .finished tx.completion
  else .outstanding

/-- The positions that some admitted transactions hold in each channel. -/
def bookOf (joined done : List DeviceTransaction) : Book := fun c =>
  (joined.filter fun tx => tx.domain = c).map fun tx => (tx.sequence, fateOf done tx)

/-- What is written down as released is what the book says has been settled. -/
structure Released (joined done : List DeviceTransaction)
    (releases : List (ChannelId × Release)) (p : Publisher) : Prop where
  mirrors : MirrorsAll p (bookOf joined done)
  releases : ∀ c : ChannelId, releases.filter (fun e => e.1 = c) =
    (settled (bookOf joined done c)).map fun r => (c, r)

theorem released_new : Released [] [] [] .new where
  mirrors _ := mirrors_empty
  releases _ := rfl

variable {joined done : List DeviceTransaction} {releases : List (ChannelId × Release)}
  {p : Publisher} {tx : DeviceTransaction}

theorem fateOf_of_mem (h : tx.ingress ∈ done.map DeviceTransaction.ingress) :
    fateOf done tx = .finished tx.completion :=
  if_pos h

theorem fateOf_of_not_mem (h : tx.ingress ∉ done.map DeviceTransaction.ingress) :
    fateOf done tx = .outstanding :=
  if_neg h

/-- A transaction takes the next position of its channel. -/
theorem Released.admitted (h : Released joined done releases p)
    (hlast : ∀ u ∈ joined, u.domain = tx.domain → u.sequence < tx.sequence)
    (hfresh : tx.ingress ∉ done.map DeviceTransaction.ingress) :
    ∃ p', p.admitPosition tx.domain tx.sequence = some p' ∧
      Released (joined ++ [tx]) done releases p' := by
  have hguard : ∀ last ∈ (bookOf joined done tx.domain).getLast?, last.1 < tx.sequence := by
    intro last hin
    obtain ⟨u, hu, rfl⟩ := List.mem_map.mp (List.mem_of_getLast? hin)
    obtain ⟨hu, hdomain⟩ := List.mem_filter.mp hu
    exact hlast u hu (of_decide_eq_true hdomain)
  have hbook : Function.update (bookOf joined done) tx.domain
      (bookOf joined done tx.domain ++ [(tx.sequence, .outstanding)]) =
        bookOf (joined ++ [tx]) done := by
    funext c
    by_cases hc : c = tx.domain
    · subst hc
      simp [bookOf, fateOf_of_not_mem hfresh]
    · simp [bookOf, hc, Ne.symm hc]
  obtain ⟨hanswer, hmirrors⟩ := h.mirrors.admitStep tx.domain tx.sequence
  rw [bookStep, if_pos hguard] at hanswer hmirrors
  rw [publisherStep] at hanswer hmirrors
  cases hadmission : p.admitPosition tx.domain tx.sequence with
  | none =>
    rw [hadmission] at hanswer
    cases hanswer
  | some p' =>
    rw [hadmission] at hmirrors
    refine ⟨p', rfl, hbook ▸ hmirrors, fun c => ?_⟩
    rw [h.releases c, ← hbook]
    by_cases hc : c = tx.domain
    · subst hc
      rw [Function.update_self, settled_concat]
    · rw [Function.update_of_ne hc]

theorem fateOf_concat_self (done : List DeviceTransaction) (tx : DeviceTransaction) :
    fateOf (done ++ [tx]) tx = .finished tx.completion := by
  simp [fateOf]

theorem fateOf_concat_of_ne {u : DeviceTransaction} (h : u.ingress ≠ tx.ingress) :
    fateOf (done ++ [tx]) u = fateOf done u := by
  simp [fateOf, h]

/-- Completing a transaction decides the fate of its position and of no other. -/
theorem bookOf_concat
    (hingress : ∀ u ∈ joined, u.ingress = tx.ingress → u = tx)
    (hposition : ∀ u ∈ joined, u.domain = tx.domain → u.sequence = tx.sequence → u = tx) :
    Function.update (bookOf joined done) tx.domain
      (decideFate (bookOf joined done tx.domain) tx.sequence (.finished tx.completion)) =
        bookOf joined (done ++ [tx]) := by
  funext c
  by_cases hc : c = tx.domain
  · subst hc
    rw [Function.update_self]
    unfold decideFate bookOf
    rw [List.map_map]
    refine List.map_congr_left fun u hu => ?_
    obtain ⟨hu, hdomain⟩ := List.mem_filter.mp hu
    dsimp only [Function.comp]
    split
    · rename_i hsequence
      rw [hposition u hu (of_decide_eq_true hdomain) hsequence, fateOf_concat_self]
    · rename_i hsequence
      rw [fateOf_concat_of_ne fun heq => hsequence (congrArg _ (hingress u hu heq))]
  · rw [Function.update_of_ne hc]
    refine List.map_congr_left fun u hu => ?_
    obtain ⟨hu, hdomain⟩ := List.mem_filter.mp hu
    rw [fateOf_concat_of_ne]
    intro heq
    rw [hingress u hu heq] at hdomain
    exact hc (of_decide_eq_true hdomain).symm

/-- A transaction completes: its channel releases what has become settled. -/
theorem Released.complete (h : Released joined done releases p) (htx : tx ∈ joined)
    (hingress : ∀ u ∈ joined, u.ingress = tx.ingress → u = tx)
    (hposition : ∀ u ∈ joined, u.domain = tx.domain → u.sequence = tx.sequence → u = tx)
    (hfresh : tx.ingress ∉ done.map DeviceTransaction.ingress) :
    ∃ p' released, p.complete tx.domain tx.sequence tx.completion = some (p', released) ∧
      Released joined (done ++ [tx]) (releases ++ released.map fun r => (tx.domain, r)) p' ∧
      ∀ r ∈ released, r ∈ settled (bookOf joined (done ++ [tx]) tx.domain) := by
  have hin : (tx.sequence, Fate.outstanding) ∈ bookOf joined done tx.domain :=
    List.mem_map.mpr ⟨tx, List.mem_filter.mpr ⟨htx, by simp⟩, by rw [fateOf_of_not_mem hfresh]⟩
  have hbook := @bookOf_concat joined done tx hingress hposition
  have hown : decideFate (bookOf joined done tx.domain) tx.sequence (.finished tx.completion) =
      bookOf joined (done ++ [tx]) tx.domain := by
    rw [← hbook, Function.update_self]
  obtain ⟨hanswer, hmirrors⟩ := h.mirrors.completeStep tx.domain tx.sequence tx.completion
  rw [bookStep, decideStep, if_pos hin] at hanswer hmirrors
  rw [publisherStep] at hanswer hmirrors
  cases hcomplete : p.complete tx.domain tx.sequence tx.completion with
  | none =>
    rw [hcomplete] at hanswer
    cases hanswer
  | some out =>
    obtain ⟨p', released⟩ := out
    rw [hcomplete] at hanswer hmirrors
    have hreleased : released = (settled (bookOf joined (done ++ [tx]) tx.domain)).drop
        (settled (bookOf joined done tx.domain)).length := by
      rw [← hown]
      simpa using hanswer
    have hnodup : ((bookOf joined done tx.domain).map Prod.fst).Nodup :=
      (h.mirrors tx.domain).ascending.imp Nat.ne_of_lt
    have hgrown := settled_prefix hnodup hin (.finished tx.completion)
    rw [hown, ← hreleased] at hgrown
    refine ⟨p', released, rfl, ⟨hbook ▸ hmirrors, fun c => ?_⟩, fun r hr => ?_⟩
    · rw [List.filter_append, h.releases c]
      by_cases hc : c = tx.domain
      · subst hc
        rw [← hgrown, List.map_append, List.filter_eq_self.mpr (by simp)]
      · rw [List.filter_eq_nil_iff.mpr (by simp [Ne.symm hc]), List.append_nil, ← hbook,
          Function.update_of_ne hc]
    · rw [← hgrown]
      exact List.mem_append_right _ hr

/-- What a channel has settled is owed by transactions that have completed. -/
theorem owes_of_settled {batch : List DeviceTransaction}
    (hjoined : ∀ u ∈ joined, u ∈ batch) (hdone : ∀ u ∈ done, u ∈ batch)
    (hingress : ∀ u ∈ batch, ∀ v ∈ batch, u.ingress = v.ingress → u = v) {c : ChannelId}
    {r : Release} (h : r ∈ settled (bookOf joined done c)) : Owes done c r := by
  obtain ⟨e, he, hrelease⟩ := List.mem_filterMap.mp h
  obtain ⟨u, hu, rfl⟩ := List.mem_map.mp ((List.takeWhile_sublist _).subset he)
  obtain ⟨hu, hdomain⟩ := List.mem_filter.mp hu
  unfold fateOf at hrelease
  split at hrelease
  · rename_i hin
    obtain ⟨v, hv, heq⟩ := List.mem_map.mp hin
    cases hrelease
    obtain rfl := hingress v (hdone v hv) u (hjoined u hu) heq
    exact ⟨v, hv, of_decide_eq_true hdomain, rfl, rfl⟩
  · cases hrelease

/-- A completed transaction with everything of its channel completed before it has been
released. -/
theorem mem_settled_of_done (hsorted : joined.Pairwise fun a b => a.domain = b.domain →
      a.sequence < b.sequence) (htx : tx ∈ joined)
    (hdone : ∀ u ∈ joined, u.domain = tx.domain → u.sequence ≤ tx.sequence →
      u.ingress ∈ done.map DeviceTransaction.ingress) :
    ⟨tx.sequence, tx.completion⟩ ∈ settled (bookOf joined done tx.domain) := by
  obtain ⟨front, rest, rfl⟩ := List.append_of_mem htx
  have hbook : bookOf (front ++ tx :: rest) done tx.domain =
      bookOf (front ++ [tx]) done tx.domain ++ bookOf rest done tx.domain := by
    simp [bookOf]
  have hresolved : ∀ e ∈ bookOf (front ++ [tx]) done tx.domain, resolved e = true := by
    intro e he
    obtain ⟨u, hu, rfl⟩ := List.mem_map.mp he
    obtain ⟨hu, hdomain⟩ := List.mem_filter.mp hu
    have hdomain := of_decide_eq_true hdomain
    have hle : u.sequence ≤ tx.sequence := by
      rcases List.mem_append.mp hu with hu | hu
      · exact Nat.le_of_lt
          ((List.pairwise_append.mp hsorted).2.2 u hu tx List.mem_cons_self hdomain)
      · rw [List.mem_singleton.mp hu]
    have hin := hdone u (by
      rcases List.mem_append.mp hu with hu | hu
      · exact List.mem_append_left _ hu
      · exact List.mem_append_right _ (List.mem_singleton.mp hu ▸ List.mem_cons_self)) hdomain hle
    simp [resolved, fateOf_of_mem hin]
  rw [hbook, settled_append hresolved]
  refine List.mem_append_left _ (List.mem_filterMap.mpr ⟨(tx.sequence, fateOf done tx), ?_, ?_⟩)
  · exact List.mem_map.mpr ⟨tx, List.mem_filter.mpr ⟨by simp, by simp⟩, rfl⟩
  · have hin := hdone tx htx rfl (Nat.le_refl _)
    simp [releaseOf, fateOf_of_mem hin]

end Orchard.Plane
