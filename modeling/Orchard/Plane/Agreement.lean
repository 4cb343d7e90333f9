/-
  Plane/Agreement.lean --- two runs of one batch mean the same.

  Key by key: what a batch does under one key of the trace is contributed by transactions that
  are ordered among each other, so that two runs that respect this order leave the same history
  there.  Stamps and events come to rest at the furthest value, whatever the order.
-/
import Orchard.Foundation.Reordering
import Orchard.Plane.Chronicle

set_option autoImplicit false

namespace Orchard.Plane

open Orchard.Content Orchard.Foundation

/-! ## Histories -/

section History

variable {K V : Type} [DecidableEq K] {read : Observation → Option (K × V)}

theorem historyAt_flatMap {α : Type} (f : α → List Observation) (l : List α) (key : K) :
    historyAt read (l.flatMap f) key = l.flatMap fun a => historyAt read (f a) key := by
  induction l with
  | nil => rfl
  | cons a rest ih => rw [List.flatMap_cons, List.flatMap_cons, historyAt_append, ih]

theorem filterMap_filter_timeless {W : Type} {read : Observation → Option W}
    (hread : ∀ o, o.timeless = false → read o = none) (log : List Observation) :
    (log.filter Observation.timeless).filterMap read = log.filterMap read := by
  rw [List.filterMap_filter]
  refine List.filterMap_congr fun o _ => ?_
  cases ho : o.timeless with
  | false => exact (hread o ho).symm
  | true => rfl

theorem historyAt_eq_nil {log : List Observation} {key : K}
    (h : ∀ o ∈ log, ∀ v, read o ≠ some (key, v)) : historyAt read log key = [] := by
  unfold historyAt
  rw [List.map_eq_nil_iff, List.filter_eq_nil_iff]
  rintro ⟨k, v⟩ hin hkey
  obtain ⟨o, ho, hv⟩ := List.mem_filterMap.mp hin
  exact h o ho v ((of_decide_eq_true hkey : k = key) ▸ hv)

/-- Runs that contribute alike under a key leave one history there. -/
theorem agreeAt_of_historyAt {W : Type} [DecidableEq W] {outcome : List V → W}
    {left right : List Observation}
    (h : ∀ key, outcome (historyAt read left key) = outcome (historyAt read right key)) :
    agreeAt read outcome left right = true :=
  List.all_eq_true.mpr fun e _ => decide_eq_true (h e.1)

end History

/-! ## What a transaction can show -/

theorem mem_shown {held : VersionCoverage} {p : VersionPublication} {o : Observation}
    (h : o ∈ shown held p) :
    o = .versionPublished p.backing p.region p.target ∨
      ∃ landed, o = .versionBeaten p.backing p.region p.target landed := by
  unfold shown at h
  split at h
  · exact Or.inl (List.mem_singleton.mp h)
  · dsimp only at h
    split at h
    · rcases List.mem_cons.mp h with rfl | h
      · exact Or.inr ⟨_, rfl⟩
      · split at h
        · cases h
        · exact Or.inl (List.mem_singleton.mp h)
    · exact Or.inl (List.mem_singleton.mp h)

theorem mem_shownAll {claims : List VersionPublication} :
    ∀ {content : ContentLedger} {o : Observation}, o ∈ shownAll content claims →
      ∃ p ∈ claims, o = .versionPublished p.backing p.region p.target ∨
        ∃ landed, o = .versionBeaten p.backing p.region p.target landed := by
  induction claims with
  | nil => intro content o h; cases h
  | cons p rest ih =>
    intro content o h
    rcases List.mem_append.mp h with h | h
    · exact ⟨p, List.mem_cons_self, mem_shown h⟩
    · obtain ⟨q, hq, ho⟩ := ih h
      exact ⟨q, List.mem_cons_of_mem p hq, ho⟩

/-- The four kinds of things a transaction shows. -/
inductive Shows (tx : DeviceTransaction) : Observation → Prop
  | fence (fence : ResourceId) : Shows tx (.fenceUpdated fence)
  | query (q : QueryPayload) (h : tx.payload = .query q) :
    Shows tx (.queryUnanswered tx.ingress q.request.kind .noAnswer)
  | frame (p : PresentPayload) (h : tx.payload = .present p) :
    Shows tx (.framePresented tx.domain p.mapping)
  | published (p : VersionPublication) (h : p ∈ tx.written) :
    Shows tx (.versionPublished p.backing p.region p.target)
  | beaten (p : VersionPublication) (h : p ∈ tx.written) (landed : Nat) :
    Shows tx (.versionBeaten p.backing p.region p.target landed)

theorem shows_of_mem_shownAll {tx : DeviceTransaction} {content : ContentLedger} {o : Observation}
    (h : o ∈ shownAll content tx.written) : Shows tx o := by
  obtain ⟨p, hp, rfl | ⟨landed, rfl⟩⟩ := mem_shownAll h
  · exact .published p hp
  · exact .beaten p hp landed

theorem mem_fencesOf {records : List ResolvedOperation} {o : Observation}
    (h : o ∈ fencesOf records) : ∃ fence, o = .fenceUpdated fence := by
  obtain ⟨record, -, hrecord⟩ := List.mem_filterMap.mp h
  split at hrecord
  · split at hrecord
    · cases hrecord
      exact ⟨_, rfl⟩
    · cases hrecord
  · cases hrecord

theorem shows_of_mem_shownBy {tx : DeviceTransaction} {content : ContentLedger} {o : Observation}
    (h : o ∈ shownBy content tx) : Shows tx o := by
  rcases List.mem_append.mp h with h | h
  · obtain ⟨fence, rfl⟩ := mem_fencesOf h
    exact .fence fence
  · cases hpayload : tx.payload with
    | query q =>
      rw [hpayload] at h
      rw [List.mem_singleton.mp h]
      exact .query q hpayload
    | present p =>
      rw [hpayload] at h
      rcases List.mem_cons.mp h with rfl | h
      · exact .frame p hpayload
      · exact shows_of_mem_shownAll h
    | exec w =>
      rw [hpayload] at h
      exact shows_of_mem_shownAll h
    | control =>
      rw [hpayload] at h
      exact shows_of_mem_shownAll h

/-! ## Two runs -/

section Runs

variable {batch : List DeviceTransaction} {base : StampSlot → StampValue}
  {Before : DeviceTransaction → DeviceTransaction → Prop} {done : List DeviceTransaction}
  {paid other : List CompletionStamp} {i j : Interpreter}

/-- Transactions that are ordered pairwise complete in ingress order. -/
theorem Posed.pairwise_ingress (hposed : Posed batch base Before) (hperm : done.Perm batch)
    (horder : done.Pairwise fun a b => ¬Before b a) (relevant : DeviceTransaction → Prop)
    (hrelevant : ∀ a ∈ batch, ∀ b ∈ batch, a.ingress < b.ingress → relevant a → relevant b →
      Before a b) :
    done.Pairwise fun a b => relevant a → relevant b → a.ingress < b.ingress := by
  have hnodup : done.Nodup :=
    hperm.nodup_iff.mpr (nodup_map_of_sorted DeviceTransaction.ingress hposed.ascending).of_map
  refine (horder.and hnodup).imp_of_mem fun {a b} ha hb h hra hrb => ?_
  have ha' := hperm.mem_iff.mp ha
  have hb' := hperm.mem_iff.mp hb
  rcases Nat.lt_trichotomy a.ingress b.ingress with hlt | heq | hgt
  · exact hlt
  · exact absurd (hposed.eq_of_ingress ha' hb' heq) h.2
  · exact absurd (hrelevant b hb' a ha' hgt hrb hra) h.1

/-- **One history under each key.**  A run that respects the order leaves under a key what the
run in ingress order leaves, if the transactions that can show something there are ordered. -/
theorem Reflects.historyAt_eq {K V : Type} [DecidableEq K] {read : Observation → Option (K × V)}
    (hposed : Posed batch base Before) (hi : Reflects batch base batch paid i)
    (hj : Reflects batch base done other j) (hperm : done.Perm batch)
    (horder : done.Pairwise fun a b => ¬Before b a)
    (hread : ∀ o, o.timeless = false → read o = none) (key : K)
    (relevant : DeviceTransaction → Prop)
    (hshows : ∀ tx o v, Shows tx o → read o = some (key, v) → relevant tx)
    (hrelevant : ∀ a ∈ batch, ∀ b ∈ batch, a.ingress < b.ingress → relevant a → relevant b →
      Before a b) :
    historyAt read i.trace key = historyAt read j.trace key := by
  have hread' : ∀ log, historyAt read (log.filter Observation.timeless) key =
      historyAt read log key := fun log => by
    rw [historyAt, historyAt, filterMap_filter_timeless hread]
  rw [← hread' i.trace, ← hread' j.trace, hi.timeless, hj.timeless, historyAt_flatMap,
    historyAt_flatMap]
  refine (flatMap_eq_of_reordered hperm DeviceTransaction.ingress hposed.ascending _ relevant
    (fun tx _ hnot => ?_) (hposed.pairwise_ingress hperm horder relevant hrelevant)).symm
  exact historyAt_eq_nil fun o ho v hv => hnot (hshows tx o v (shows_of_mem_shownBy ho) hv)

/-- A transaction claims a version under a key of the content. -/
def DeviceTransaction.Claims (tx : DeviceTransaction) (key : BackingId × AccessKey) : Prop :=
  ∃ p ∈ tx.written, (p.backing, p.region) = key

/-- Two transactions with one key claim memory that may alias. -/
theorem Posed.before_of_claims (hposed : Posed batch base Before) (key : BackingId × AccessKey) :
    ∀ a ∈ batch, ∀ b ∈ batch, a.ingress < b.ingress → a.Claims key → b.Claims key → Before a b := by
  rintro a ha b hb hlt ⟨p, hp, hpkey⟩ ⟨q, hq, hqkey⟩
  have hregion : p.region = q.region := congrArg Prod.snd (hpkey.trans hqkey.symm)
  exact hposed.claims a ha b hb hlt p hp q hq (hregion ▸ hposed.named a ha p hp)

theorem Reflects.content_eq (hposed : Posed batch base Before)
    (hi : Reflects batch base batch paid i) (hj : Reflects batch base done other j)
    (hperm : done.Perm batch) (horder : done.Pairwise fun a b => ¬Before b a)
    (key : BackingId × AccessKey) :
    historyAt Observation.content i.trace key = historyAt Observation.content j.trace key := by
  refine hi.historyAt_eq hposed hj hperm horder (fun o ho => ?_) key (·.Claims key) ?_
    (hposed.before_of_claims key)
  · cases o <;> first | rfl | cases ho
  · intro tx o v hshows hread
    cases hshows with
    | published p hp => exact ⟨p, hp, congrArg Prod.fst (Option.some.inj hread)⟩
    | _ => cases hread

theorem Reflects.beaten_eq (hposed : Posed batch base Before)
    (hi : Reflects batch base batch paid i) (hj : Reflects batch base done other j)
    (hperm : done.Perm batch) (horder : done.Pairwise fun a b => ¬Before b a)
    (key : BackingId × AccessKey) :
    historyAt Observation.beaten i.trace key = historyAt Observation.beaten j.trace key := by
  refine hi.historyAt_eq hposed hj hperm horder (fun o ho => ?_) key (·.Claims key) ?_
    (hposed.before_of_claims key)
  · cases o <;> first | rfl | cases ho
  · intro tx o v hshows hread
    cases hshows with
    | beaten p hp landed => exact ⟨p, hp, congrArg Prod.fst (Option.some.inj hread)⟩
    | _ => cases hread

theorem Reflects.frame_eq (hposed : Posed batch base Before)
    (hi : Reflects batch base batch paid i) (hj : Reflects batch base done other j)
    (hperm : done.Perm batch) (horder : done.Pairwise fun a b => ¬Before b a)
    (domain : ChannelId) :
    historyAt Observation.frame i.trace domain = historyAt Observation.frame j.trace domain := by
  refine hi.historyAt_eq hposed hj hperm horder (fun o ho => ?_) domain
    (fun tx => tx.domain = domain ∧ ∃ p, tx.payload = .present p) ?_ ?_
  · cases o <;> first | rfl | cases ho
  · intro tx o v hshows hread
    cases hshows with
    | frame p hp => exact ⟨congrArg Prod.fst (Option.some.inj hread), p, hp⟩
    | _ => cases hread
  · intro a ha b hb hlt hpa hpb
    exact hposed.frames a ha b hb hlt (hpa.1.trans hpb.1.symm) hpa.2 hpb.2

/-- Fences are only counted, so that no order is needed. -/
theorem Reflects.fence_eq (hi : Reflects batch base batch paid i)
    (hj : Reflects batch base done other j) (hperm : done.Perm batch) (fence : ResourceId) :
    (historyAt Observation.fence i.trace fence).length =
      (historyAt Observation.fence j.trace fence).length := by
  have hread : ∀ log, historyAt Observation.fence (log.filter Observation.timeless) fence =
      historyAt Observation.fence log fence := fun log => by
    rw [historyAt, historyAt, filterMap_filter_timeless]
    intro o ho
    cases o <;> first | rfl | cases ho
  rw [← hread i.trace, ← hread j.trace, hi.timeless, hj.timeless, historyAt_flatMap,
    historyAt_flatMap]
  exact (hperm.flatMap_right _).length_eq.symm

theorem Standing.le {points others : StampSlot → Option StampValue}
    (h : Standing base paid points) (h' : Standing base other others)
    (hsub : ∀ c ∈ paid, c ∈ other) {slot : StampSlot} {v : StampValue}
    (hv : points slot = some v) :
    ∃ w, others slot = some w ∧ StampValue.rank (base slot) v ≤ StampValue.rank (base slot) w :=
  h'.reaches ⟨slot, v⟩ (hsub _ (h.fromPaid slot v hv))

/-- A stamp slot comes to rest at the furthest stamp paid into it. -/
theorem Standing.eq {points others : StampSlot → Option StampValue}
    (h : Standing base paid points) (h' : Standing base other others)
    (hpaid : ∀ c, c ∈ paid ↔ c ∈ other) : points = others := by
  have hto : ∀ c ∈ paid, c ∈ other := fun c => (hpaid c).mp
  have hfrom : ∀ c ∈ other, c ∈ paid := fun c => (hpaid c).mpr
  funext slot
  cases hv : points slot with
  | none =>
    cases hw : others slot with
    | none => rfl
    | some w =>
      obtain ⟨v, hv', -⟩ := h'.le h hfrom hw
      exact absurd (hv.symm.trans hv') (by simp)
  | some v =>
    obtain ⟨w, hw, hvw⟩ := h.le h' hto hv
    obtain ⟨v', hv', hwv⟩ := h'.le h hfrom hw
    cases hv.symm.trans hv'
    rw [hw, StampValue.rank_injective (base slot) (Nat.le_antisymm hvw hwv)]

theorem restingEvent_perm {values others : List Nat} (h : values.Perm others) :
    restingEvent values = restingEvent others :=
  h.foldl_eq' (fun v _ w _ z => Nat.max_right_comm z v w) 0

theorem Reflects.eventGeneration_eq (hi : Reflects batch base batch paid i)
    (hj : Reflects batch base done other j) (hperm : done.Perm batch) (event : ResourceId) :
    i.eventGeneration event = j.eventGeneration event := by
  rw [hi.events, hj.events]
  exact (restingEvent_perm (hperm.flatMap_right _)).symm

/-- The query a transaction leaves unanswered. -/
def DeviceTransaction.unanswered (tx : DeviceTransaction) :
    Option (IngressOrdinal × QueryKind × Stall) :=
  match tx.payload with
  | .query q => some (tx.ingress, q.request.kind, .noAnswer)
  | .exec _ | .present _ | .control => none

theorem visible_unanswered (tx : DeviceTransaction) :
    (visible batch tx).filterMap Observation.unanswered = tx.unanswered.toList := by
  have hfences : (fencesOf tx.payload.records).filterMap Observation.unanswered = [] :=
    List.filterMap_eq_nil_iff.mpr fun o ho => by
      obtain ⟨fence, rfl⟩ := mem_fencesOf ho
      rfl
  have hclaims : ∀ content, (shownAll content tx.written).filterMap Observation.unanswered = [] :=
    fun content => List.filterMap_eq_nil_iff.mpr fun o ho => by
      obtain ⟨p, -, rfl | ⟨landed, rfl⟩⟩ := mem_shownAll ho
      · rfl
      · rfl
  unfold visible shownBy DeviceTransaction.unanswered
  rw [List.filterMap_append, hfences, List.nil_append]
  cases tx.payload with
  | query q => rfl
  | present p => exact hclaims _
  | exec w => exact hclaims _
  | control => exact hclaims _

theorem Reflects.unanswered_eq (h : Reflects batch base done paid i) :
    i.trace.filterMap Observation.unanswered = done.filterMap DeviceTransaction.unanswered := by
  rw [← filterMap_filter_timeless (fun o ho => by cases o <;> first | rfl | cases ho), h.timeless,
    List.filterMap_flatMap, List.filterMap_eq_flatMap_toList]
  exact List.flatMap_congr fun tx _ => visible_unanswered tx

theorem Posed.nodup_unanswered (h : Posed batch base Before) :
    ((batch.filterMap DeviceTransaction.unanswered).map Prod.fst).Nodup := by
  have hfst : ∀ {tx : DeviceTransaction} {e}, e ∈ tx.unanswered → e.1 = tx.ingress := by
    intro tx e he
    unfold DeviceTransaction.unanswered at he
    split at he
    · cases he
      rfl
    · cases he
    · cases he
    · cases he
  refine List.pairwise_map.mpr (h.ascending.filterMap _ fun a b hlt e he e' he' heq => ?_)
  rw [hfst he, hfst he'] at heq
  exact Nat.ne_of_lt hlt heq

theorem Reflects.refusal_eq (h : Reflects batch base done paid i) :
    i.trace.filterMap Observation.refusal = [] := by
  rw [← filterMap_filter_timeless (fun o ho => by cases o <;> first | rfl | cases ho), h.timeless,
    List.filterMap_eq_nil_iff]
  intro o ho
  obtain ⟨tx, -, hshown⟩ := List.mem_flatMap.mp ho
  cases shows_of_mem_shownBy hshown <;> rfl

/-! ## Publication is whole -/

theorem spansApart_ok {log : List Observation} {spans : List (IngressOrdinal × Nat × Nat)} :
    ∀ {covered : Nat}, (∀ s ∈ spans, covered ≤ s.2.1) →
      spans.Pairwise (fun a b => a.2.2 ≤ b.2.1) →
      (∀ s ∈ spans, ∀ k, s.2.1 ≤ k → k < s.2.2 → ∀ o ∈ log[k]?, o.stamp = none) →
      spansApart log covered spans = .ok () := by
  induction spans with
  | nil => exact fun _ _ _ => rfl
  | cons s rest ih =>
    intro covered hcovered hapart hquiet
    obtain ⟨ordinal, start, stop⟩ := s
    obtain ⟨hhead, htail⟩ := List.pairwise_cons.mp hapart
    have hsilent : ((log.drop start).take (stop - start)).any (fun o => o.stamp.isSome) =
        false := by
      rw [List.any_eq_false]
      intro o ho
      obtain ⟨k, hk⟩ := List.mem_iff_getElem?.mp ho
      rw [List.getElem?_take] at hk
      split at hk
      · rw [List.getElem?_drop] at hk
        rw [hquiet _ List.mem_cons_self (start + k) (Nat.le_add_right start k)
          (by simp only; omega) o hk]
        decide
      · cases hk
    rw [spansApart, if_neg (Nat.not_lt.mpr (hcovered _ List.mem_cons_self)), hsilent]
    exact ih hhead htail fun t ht => hquiet t (List.mem_cons_of_mem _ ht)

/-- A run that chronicles its transactions publishes each of them at once. -/
theorem Chronicles.atomicPublication_ok {releases : List (ChannelId × Release)} {run : Run}
    {log : List Observation} (h : Chronicles done releases log run)
    (hnodup : (done.map DeviceTransaction.ingress).Nodup) (stalled : List IngressOrdinal) :
    atomicPublication { run with trace := log, stalled := stalled } = .ok () := by
  have hsorted : run.spans.mergeSort (fun a b => a.2.1 ≤ b.2.1) = run.spans :=
    List.mergeSort_of_pairwise (h.apart.imp_of_mem fun {a b} ha _ hab =>
      decide_eq_true (Nat.le_trans (h.within a ha).1 hab))
  have hspans := spansApart_ok (fun s _ => Nat.zero_le s.2.1) h.apart h.quiet
  have hstamps : run.stampAt.all (fun e => (log[e.2]?).any (fun o => o.stamp.isSome) &&
      decide (((run.spans.find? fun s => s.1 = e.1).map fun s => s.2.2).getD 0 ≤ e.2)) = true := by
    refine List.all_eq_true.mpr fun e he => ?_
    obtain ⟨⟨o, ho, hstamp⟩, s, hs, hfst, hle⟩ := h.stamped e he
    have hkeys : (run.spans.map Prod.fst).Nodup := by
      rw [show run.spans.map Prod.fst = _ from h.order]
      exact hnodup
    have hfind := find?_eq_some_of_nodup Prod.fst hkeys hs hfst
    rw [hfind, Option.mem_def.mp ho]
    simpa [hstamp] using hle
  unfold atomicPublication
  dsimp only
  rw [hsorted, hspans]
  exact if_pos hstamps

/-! ## Equivalence -/

theorem equivalent_ok {serial parallel : Run}
    (horders : serial.order.mergeSort = parallel.order.mergeSort)
    (hcontent : agreeAt Observation.content id serial.trace parallel.trace = true)
    (hbeaten : agreeAt Observation.beaten id serial.trace parallel.trace = true)
    (hstamp : agreeAt Observation.stamp restingStamp serial.trace parallel.trace = true)
    (hevent : agreeAt Observation.event restingEvent serial.trace parallel.trace = true)
    (hfence : agreeAt Observation.fence List.length serial.trace parallel.trace = true)
    (hrefusal : sameByIngress (serial.trace.filterMap Observation.refusal)
      (parallel.trace.filterMap Observation.refusal) = true)
    (hunanswered : sameByIngress (serial.trace.filterMap Observation.unanswered)
      (parallel.trace.filterMap Observation.unanswered) = true)
    (hframe : agreeAt Observation.frame id serial.trace parallel.trace = true)
    (hpublished : ∀ d, serial.publishedBy d = parallel.publishedBy d)
    (hmonotone : monotone serial = .ok ()) (hatomic : atomicPublication serial = .ok ())
    (hmonotone' : monotone parallel = .ok ())
    (hatomic' : atomicPublication parallel = .ok ()) :
    equivalent serial parallel = .ok () := by
  have hchannels : ((serial.domains ++ parallel.domains).all fun d =>
      serial.publishedBy d = parallel.publishedBy d) = true :=
    List.all_eq_true.mpr fun d _ => decide_eq_true (hpublished d)
  unfold equivalent
  dsimp only
  rw [decide_eq_true horders, hcontent, hbeaten, hstamp, hevent, hfence, hrefusal, hunanswered,
    hframe, hchannels, hmonotone, hatomic, hmonotone', hatomic']
  rfl

/-- **Two runs of one batch are equivalent** when the one completes it in ingress order, the
other in an order that respects `Before`, and every channel releases the same. -/
theorem equivalent_of_kept (hposed : Posed batch base Before)
    {left right : List (ChannelId × Release)} {b c : Bench}
    (hleft : Kept batch base batch left b) (hright : Kept batch base done right c)
    (hperm : done.Perm batch) (horder : done.Pairwise fun a b => ¬Before b a)
    (hchannels : ∀ d : ChannelId, left.filter (fun e => e.1 = d) = right.filter fun e => e.1 = d)
    (stalled : List IngressOrdinal) :
    equivalent { b.run with trace := b.interpreter.trace }
      { c.run with trace := c.interpreter.trace, stalled := stalled } = .ok () := by
  have hi := hleft.interpreter
  have hj := hright.interpreter
  have hpaid : ∀ s, s ∈ left.filterMap (fun e => e.2.stamp) ↔
      s ∈ right.filterMap fun e => e.2.stamp := by
    have hmem : ∀ e, e ∈ left ↔ e ∈ right := fun e => by
      have := congrArg (e ∈ ·) (hchannels e.1)
      simpa using this
    intro s
    simp only [List.mem_filterMap, hmem]
  have hkeys := nodup_map_of_sorted DeviceTransaction.ingress hposed.ascending
  have hkeys' : (done.map DeviceTransaction.ingress).Nodup := (hperm.map _).nodup_iff.mpr hkeys
  have hrested := resting_of_advance hi.advances
  have hrested' := resting_of_advance hj.advances
  have horders : b.run.order.mergeSort = c.run.order.mergeSort := by
    rw [hleft.run.order, hright.run.order]
    exact (mergeSort_eq_of_perm id (hperm.map _) (by simpa using hkeys)).symm
  have hcontent : agreeAt Observation.content id b.interpreter.trace c.interpreter.trace = true :=
    agreeAt_of_historyAt fun key => hi.content_eq hposed hj hperm horder key
  have hbeaten : agreeAt Observation.beaten id b.interpreter.trace c.interpreter.trace = true :=
    agreeAt_of_historyAt fun key => hi.beaten_eq hposed hj hperm horder key
  have hframe : agreeAt Observation.frame id b.interpreter.trace c.interpreter.trace = true :=
    agreeAt_of_historyAt fun key => hi.frame_eq hposed hj hperm horder key
  have hfence : agreeAt Observation.fence List.length b.interpreter.trace
      c.interpreter.trace = true :=
    agreeAt_of_historyAt fun key => hi.fence_eq hj hperm key
  have hstamp : agreeAt Observation.stamp restingStamp b.interpreter.trace
      c.interpreter.trace = true :=
    agreeAt_of_historyAt fun slot => by
      rw [hrested.1, hrested'.1]
      exact congrFun (hi.standing.eq hj.standing hpaid) slot
  have hevent : agreeAt Observation.event restingEvent b.interpreter.trace
      c.interpreter.trace = true :=
    agreeAt_of_historyAt fun event => by
      rw [hrested.2, hrested'.2]
      exact hi.eventGeneration_eq hj hperm event
  have hrefusal : sameByIngress (b.interpreter.trace.filterMap Observation.refusal)
      (c.interpreter.trace.filterMap Observation.refusal) = true := by
    rw [hi.refusal_eq, hj.refusal_eq]
    exact decide_eq_true rfl
  have hunanswered : sameByIngress (b.interpreter.trace.filterMap Observation.unanswered)
      (c.interpreter.trace.filterMap Observation.unanswered) = true := by
    rw [hi.unanswered_eq, hj.unanswered_eq]
    exact decide_eq_true
      (mergeSort_eq_of_perm Prod.fst (hperm.filterMap _) hposed.nodup_unanswered).symm
  have hpublished : ∀ d, b.run.publishedBy d = c.run.publishedBy d := fun d => by
    rw [Run.publishedBy, Run.publishedBy, hleft.run.releases, hright.run.releases, hchannels]
  have hatomic := hleft.run.atomicPublication_ok hkeys b.run.stalled
  have hatomic' := hright.run.atomicPublication_ok hkeys' stalled
  have hmonotone : monotone { b.run with trace := b.interpreter.trace } = .ok () := by
    rw [monotone, hi.advances]
  have hmonotone' : monotone { c.run with trace := c.interpreter.trace, stalled := stalled } =
      .ok () := by
    rw [monotone, hj.advances]
  exact equivalent_ok horders hcontent hbeaten hstamp hevent hfence hrefusal hunanswered hframe
    hpublished hmonotone hatomic hmonotone' hatomic'

end Runs

end Orchard.Plane
