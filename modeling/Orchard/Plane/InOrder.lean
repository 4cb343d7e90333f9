/-
  Plane/InOrder.lean --- the serial run of an eligible batch.

  Each transaction takes the position at the end of its channel, is accepted, and is released
  at once, since nothing before it is outstanding.
-/
import Orchard.Plane.Eligible
import Orchard.Plane.Releases

set_option autoImplicit false

namespace Orchard.Plane

open Orchard.Foundation

variable {batch front : List DeviceTransaction} {base : StampSlot → StampValue}
  {joined done : List DeviceTransaction} {releases : List (ChannelId × Release)}

theorem Released.mem_paid {p : Publisher} (h : Released joined done releases p) {c : ChannelId}
    {r : Release} (hr : r ∈ settled (bookOf joined done c)) {s : CompletionStamp}
    (hs : s ∈ r.stamp) : s ∈ releases.filterMap fun e => e.2.stamp := by
  have hin : (c, r) ∈ releases.filter fun e => e.1 = c := by
    rw [h.releases c]
    exact List.mem_map_of_mem hr
  exact List.mem_filterMap.mpr ⟨(c, r), (List.mem_filter.mp hin).1, hs⟩

/-- The serial run has completed the front of its batch. -/
structure RanFront (batch : List DeviceTransaction) (base : StampSlot → StampValue)
    (front : List DeviceTransaction) (releases : List (ChannelId × Release)) (b : Bench) :
    Prop where
  kept : Kept batch base front releases b
  released : Released front front releases b.publisher

/-- The next transaction in ingress order may complete. -/
theorem due_inOrder (horderly : Orderly batch) (hcomparable : Comparable batch base)
    {tx : DeviceTransaction} {rest : List DeviceTransaction} (hbatch : batch = front ++ tx :: rest)
    {p : Publisher} (h : Released front front releases p) :
    Due batch (fun u t => precedes batch u t = true) front
      (releases.filterMap fun e => e.2.stamp) tx := by
  have hascending := horderly.ascending
  have hchannels := hcomparable.channels
  have htx : tx ∈ batch := by simp [hbatch]
  have hfront : ∀ u ∈ front, u ∈ batch := fun u hu => by simp [hbatch, hu]
  have hbefore : ∀ u ∈ front, u.ingress < tx.ingress := fun u hu => by
    rw [hbatch] at hascending
    exact (List.pairwise_append.mp hascending).2.2 u hu tx List.mem_cons_self
  have hearlier : ∀ u ∈ batch, u.ingress < tx.ingress → u ∈ front := fun u hu hlt => by
    rw [hbatch] at hascending hu
    exact mem_front_of_lt DeviceTransaction.ingress hascending hu hlt
  refine ⟨htx, fun hin => Nat.lt_irrefl _ (hbefore tx hin), fun u hu hprecedes => ?_,
    fun u hu hprecedes => ?_, fun w hw => ?_, fun event value hp => ?_⟩
  · exact hearlier u hu (lt_of_precedes hascending htx hprecedes)
  · exact Nat.lt_asymm (hbefore u hu) (lt_of_precedes hascending (hfront u hu) hprecedes)
  · obtain ⟨u, hu, hlt, c, hc, hslot, hreached⟩ := horderly.stamp_owed htx hw
    have hsorted : front.Pairwise fun a b => a.domain = b.domain → a.sequence < b.sequence := by
      rw [hbatch] at hchannels
      exact (List.pairwise_append.mp hchannels).1
    have hsettled := mem_settled_of_done hsorted (hearlier u hu hlt)
      fun v hv _ _ => List.mem_map_of_mem (f := DeviceTransaction.ingress) hv
    exact ⟨c, h.mem_paid hsettled hc, hslot, hreached⟩
  · obtain ⟨u, hu, hlt, -, hsignal⟩ := horderly.event_signalled htx hp
    exact ⟨u, hearlier u hu hlt, hsignal⟩

theorem serialStep_spec (horderly : Orderly batch) (hcomparable : Comparable batch base)
    {tx : DeviceTransaction} {rest : List DeviceTransaction} (hbatch : batch = front ++ tx :: rest)
    {b : Bench} (h : RanFront batch base front releases b) :
    ∃ b' releases', serialStep batch b tx = some b' ∧
      RanFront batch base (front ++ [tx]) releases' b' := by
  have hposed := horderly.posed hcomparable
  have htx : tx ∈ batch := by simp [hbatch]
  have hfront : ∀ u ∈ front, u ∈ batch := fun u hu => by simp [hbatch, hu]
  have hjoined : ∀ u ∈ front ++ [tx], u ∈ batch := fun u hu => by
    rcases List.mem_append.mp hu with hu | hu
    · exact hfront u hu
    · exact List.mem_singleton.mp hu ▸ htx
  have hdue := due_inOrder horderly hcomparable hbatch h.released
  have hfresh : tx.ingress ∉ front.map DeviceTransaction.ingress := fun hin => by
    obtain ⟨u, hu, heq⟩ := List.mem_map.mp hin
    exact hdue.fresh (hposed.eq_of_ingress (hfront u hu) htx heq ▸ hu)
  have hlast : ∀ u ∈ front, u.domain = tx.domain → u.sequence < tx.sequence := fun u hu => by
    have hchannels := hcomparable.channels
    rw [hbatch] at hchannels
    exact (List.pairwise_append.mp hchannels).2.2 u hu tx List.mem_cons_self
  obtain ⟨p, hadmission, hadmitted⟩ := h.released.admitted hlast hfresh
  obtain ⟨p', released, hcomplete, hreleased, hsettled⟩ := hadmitted.complete (by simp)
    (fun u hu heq => hposed.eq_of_ingress (hjoined u hu) htx heq)
    (fun u hu hdomain hsequence => hposed.eq_of_position (hjoined u hu) htx hdomain hsequence)
    hfresh
  have howes : ∀ r ∈ released, Owes (front ++ [tx]) tx.domain r := fun r hr =>
    owes_of_settled hjoined hjoined (fun u hu v hv heq => hposed.eq_of_ingress hu hv heq)
      (hsettled r hr)
  have hkept : Kept batch base front releases { b with publisher := p } :=
    ⟨h.kept.interpreter, h.kept.run⟩
  obtain ⟨b', hfinish, hpublisher, hkept'⟩ :=
    hkept.finish hposed hfront hdue id rfl hcomplete howes
  refine ⟨b', _, ?_, hkept', hpublisher ▸ hreleased⟩
  simp [serialStep, hadmission, hfinish]

theorem serial_fold (horderly : Orderly batch) (hcomparable : Comparable batch base)
    {rest : List DeviceTransaction} :
    ∀ {front : List DeviceTransaction} {releases : List (ChannelId × Release)} {b : Bench},
      batch = front ++ rest → RanFront batch base front releases b →
      ∃ b' releases', rest.foldlM (serialStep batch) b = some b' ∧
        RanFront batch base batch releases' b' := by
  induction rest with
  | nil =>
    intro front releases b hbatch h
    exact ⟨b, releases, rfl, by simpa [hbatch] using h⟩
  | cons tx rest ih =>
    intro front releases b hbatch h
    obtain ⟨b', releases', hstep, h'⟩ := serialStep_spec horderly hcomparable hbatch h
    obtain ⟨b'', releases'', hrest, h''⟩ := ih (by simpa using hbatch) h'
    refine ⟨b'', releases'', ?_, h''⟩
    rw [List.foldlM_cons, hstep]
    exact hrest

/-- The serial run completes its batch. -/
theorem serial_spec (horderly : Orderly batch) (hcomparable : Comparable batch base) :
    ∃ b releases, serial batch = some { b.run with trace := b.interpreter.trace } ∧
      RanFront batch base batch releases b := by
  have hinit : RanFront batch base [] [] .new :=
    ⟨⟨reflects_new batch base, chronicles_empty⟩, released_new⟩
  obtain ⟨b, releases, hfold, h⟩ := serial_fold horderly hcomparable rfl hinit
  exact ⟨b, releases, by simp [serial, hfold], h⟩

end Orchard.Plane
