/-
  Plane/Publish.lean --- when a completion word becomes readable.

  `publish.rs` of `reims-vgpu-core`: work completes in any order, but a channel publishes in
  its own.  Each channel is a queue of positions; a completed position is released when
  everything before it has been, a withdrawn one leaves the queue.  What a channel has
  released is read off the fates of its own positions.
-/
import Mathlib.Data.List.TakeWhile
import Mathlib.Logic.Function.Basic
import Orchard.Foundation.Execution
import Orchard.Plane.Ready

set_option autoImplicit false

namespace Orchard.Plane

open Orchard.Foundation

/-- A position in a channel. -/
abbrev ChannelSequence := Nat

/-- What a released position publishes. -/
structure Release where
  sequence : ChannelSequence
  stamp : Option CompletionStamp
deriving DecidableEq

/-- One publication domain's queue. -/
structure Domain where
  order : List ChannelSequence
  finished : ChannelSequence → Option (Option CompletionStamp)
  admittedThrough : Option ChannelSequence

/-- Ordered publication for every channel. -/
structure Publisher where
  domains : ChannelId → Option Domain
  released : Nat

namespace Domain

def empty : Domain := ⟨[], fun _ => none, none⟩

/-- Release the finished front of a queue. -/
def drainFrom : List ChannelSequence → (ChannelSequence → Option (Option CompletionStamp)) →
    List Release × List ChannelSequence × (ChannelSequence → Option (Option CompletionStamp))
  | [], finished => ([], [], finished)
  | head :: rest, finished =>
    match finished head with
    | none => ([], head :: rest, finished)
    | some stamp =>
      let out := drainFrom rest (Function.update finished head none)
      (⟨head, stamp⟩ :: out.1, out.2)

def drain (q : Domain) : Domain × List Release :=
  let out := drainFrom q.order q.finished
  ({ q with order := out.2.1, finished := out.2.2 }, out.1)

end Domain

namespace Publisher

def new : Publisher := ⟨fun _ => none, 0⟩

/-- Take a position in a channel's publication order.  `none` is the panic on a position
that is not past every one ever admitted. -/
def admitPosition (p : Publisher) (domain : ChannelId) (sequence : ChannelSequence) :
    Option Publisher := do
  let queue := (p.domains domain).getD .empty
  guard (∀ last ∈ queue.admittedThrough, last < sequence)
  return { p with
    domains := Function.update p.domains domain
      (some { queue with
        admittedThrough := some sequence
        order := queue.order ++ [sequence] }) }

/-- Drain a channel whose queue has changed. -/
def settle (p : Publisher) (domain : ChannelId) (queue : Domain) : Publisher × List Release :=
  let out := queue.drain
  ({ p with
      domains := Function.update p.domains domain (some out.1)
      released := p.released + out.2.length },
    out.2)

/-- Record that a position's work has completed; the answer is everything the channel may
now publish, in order.  `none` is the panic on a position that is not outstanding. -/
def complete (p : Publisher) (domain : ChannelId) (sequence : ChannelSequence)
    (stamp : Option CompletionStamp) : Option (Publisher × List Release) := do
  let queue ← p.domains domain
  guard (sequence ∈ queue.order)
  guard (queue.finished sequence = none)
  return p.settle domain
    { queue with finished := Function.update queue.finished sequence (some stamp) }

/-- Remove a position that will never publish, and release what was queued behind it. -/
def withdraw (p : Publisher) (domain : ChannelId) (sequence : ChannelSequence) :
    Option (Publisher × List Release) := do
  let queue ← p.domains domain
  guard (queue.finished sequence = none)
  guard (sequence ∈ queue.order)
  return p.settle domain { queue with order := queue.order.erase sequence }

/-- Positions admitted into a channel and not yet released. -/
def outstanding (p : Publisher) (domain : ChannelId) : Nat :=
  ((p.domains domain).map fun q => q.order.length).getD 0

/-- The position a channel is waiting on. -/
def head (p : Publisher) (domain : ChannelId) : Option ChannelSequence :=
  (p.domains domain).bind fun q => q.order.head?

/-- End a channel's publication lifetime; refused with the number of positions still owed. -/
def retire (p : Publisher) (domain : ChannelId) : Except Nat Publisher :=
  if 0 < p.outstanding domain then .error (p.outstanding domain)
  else .ok { p with domains := Function.update p.domains domain none }

end Publisher

/-! ## The book -/

/-- What has become of a position. -/
inductive Fate where
  | outstanding
  | finished (stamp : Option CompletionStamp)
  | withdrawn
deriving DecidableEq

/-- The positions of one lifetime of a channel, in the order they were admitted. -/
abbrev Positions := List (ChannelSequence × Fate)

/-- The position's work is over, one way or the other. -/
def resolved (e : ChannelSequence × Fate) : Bool := e.2 ≠ .outstanding

/-- What a position publishes. -/
def releaseOf (e : ChannelSequence × Fate) : Option Release :=
  match e.2 with
  | .finished stamp => some ⟨e.1, stamp⟩
  | .outstanding | .withdrawn => none

/-- What a channel has published: the completed positions before the first one that is
outstanding. -/
def settled (positions : Positions) : List Release :=
  (positions.takeWhile resolved).filterMap releaseOf

/-- The positions a channel still owes. -/
def owed (positions : Positions) : List ChannelSequence :=
  ((positions.dropWhile resolved).filter fun e => e.2 ≠ .withdrawn).map Prod.fst

/-- The position a channel waits for. -/
def firstOutstanding (positions : Positions) : Option ChannelSequence :=
  (positions.find? fun e => e.2 = .outstanding).map Prod.fst

/-- Decide the fate of a position. -/
def decideFate (positions : Positions) (sequence : ChannelSequence) (fate : Fate) : Positions :=
  positions.map fun e => if e.1 = sequence then (e.1, fate) else e

/-- The calls of the publisher. -/
inductive PublishOp where
  | admission (domain : ChannelId) (sequence : ChannelSequence)
  | complete (domain : ChannelId) (sequence : ChannelSequence)
      (stamp : Option CompletionStamp)
  | withdraw (domain : ChannelId) (sequence : ChannelSequence)
  | retire (domain : ChannelId)
  | outstanding (domain : ChannelId)
  | head (domain : ChannelId)

/-- What a call answers. -/
inductive PublishAnswer where
  | admitted
  | released (releases : List Release)
  | retired
  | livePositions (outstanding : Nat)
  | count (outstanding : Nat)
  | position (head : Option ChannelSequence)
  | panicked
deriving DecidableEq

/-- A call, and what it answers.  What a panicking call leaves behind is of no account: a
caller that reads `panicked` has lost the process. -/
def publisherStep (p : Publisher) : PublishOp → Publisher × List PublishAnswer
  | .admission c s =>
    match p.admitPosition c s with
    | some p' => (p', [.admitted])
    | none => (p, [.panicked])
  | .complete c s stamp =>
    match p.complete c s stamp with
    | some out => (out.1, [.released out.2])
    | none => (p, [.panicked])
  | .withdraw c s =>
    match p.withdraw c s with
    | some out => (out.1, [.released out.2])
    | none => (p, [.panicked])
  | .retire c =>
    match p.retire c with
    | .ok p' => (p', [.retired])
    | .error n => (p, [.livePositions n])
  | .outstanding c => (p, [.count (p.outstanding c)])
  | .head c => (p, [.position (p.head c)])

/-- The positions of every channel, with their fates. -/
abbrev Book := ChannelId → Positions

/-- A fate is decided, and what the channel has published grows accordingly. -/
def decideStep (book : Book) (c : ChannelId) (s : ChannelSequence) (fate : Fate) :
    Book × List PublishAnswer :=
  if (s, .outstanding) ∈ book c then
    let positions := decideFate (book c) s fate
    (Function.update book c positions,
      [.released ((settled positions).drop (settled (book c)).length)])
  else (book, [.panicked])

def bookStep (book : Book) : PublishOp → Book × List PublishAnswer
  | .admission c s =>
    if ∀ last ∈ (book c).getLast?, last.1 < s then
      (Function.update book c (book c ++ [(s, .outstanding)]), [.admitted])
    else (book, [.panicked])
  | .complete c s stamp => decideStep book c s (.finished stamp)
  | .withdraw c s => decideStep book c s .withdrawn
  | .retire c =>
    if 0 < (owed (book c)).length then (book, [.livePositions (owed (book c)).length])
    else (Function.update book c [], [.retired])
  | .outstanding c => (book, [.count (owed (book c)).length])
  | .head c => (book, [.position (firstOutstanding (book c))])

/-- What a call does to a channel: its published positions only grow, unless the channel is
retired, and then it owes nothing. -/
def OnlyGrows (book : Book) (op : PublishOp) : Prop :=
  ∀ c, settled (book c) <+: settled ((bookStep book op).1 c) ∨ (op = .retire c ∧ owed (book c) = [])

/-! ## One queue -/

/-- The positions of a list that have not been withdrawn. -/
def queued (rest : Positions) : List ChannelSequence :=
  (rest.filter fun e => e.2 ≠ .withdrawn).map Prod.fst

/-- The finished positions of a list, as a queue keeps them. -/
def Marks (finished : ChannelSequence → Option (Option CompletionStamp)) (rest : Positions) :
    Prop :=
  ∀ s stamp, finished s = some stamp ↔ (s, .finished stamp) ∈ rest

theorem Marks.of_outstanding {finished : ChannelSequence → Option (Option CompletionStamp)}
    {tail : Positions} {s : ChannelSequence} (hnot : ∀ fate, (s, fate) ∉ tail)
    (h : Marks finished ((s, .outstanding) :: tail)) : finished s = none := by
  cases hf : finished s with
  | none => rfl
  | some stamp =>
    rcases List.mem_cons.mp ((h s stamp).mp hf) with heq | hin
    · cases heq
    · exact absurd hin (hnot _)

theorem Marks.of_finished {finished : ChannelSequence → Option (Option CompletionStamp)}
    {tail : Positions} {s : ChannelSequence} {stamp : Option CompletionStamp}
    (hnot : ∀ fate, (s, fate) ∉ tail) (h : Marks finished ((s, .finished stamp) :: tail)) :
    Marks (Function.update finished s none) tail := by
  intro t st
  by_cases ht : t = s
  · subst ht
    simp [hnot]
  · rw [Function.update_of_ne ht, h, List.mem_cons]
    refine or_iff_right fun heq => ht ?_
    exact congrArg Prod.fst heq

theorem Marks.of_withdrawn {finished : ChannelSequence → Option (Option CompletionStamp)}
    {tail : Positions} {s : ChannelSequence} (h : Marks finished ((s, .withdrawn) :: tail)) :
    Marks finished tail := by
  intro t st
  rw [h, List.mem_cons]
  refine or_iff_right fun heq => ?_
  cases heq

/-- Draining releases the settled front and leaves what is owed. -/
theorem drainFrom_spec {rest : Positions} :
    ∀ {finished : ChannelSequence → Option (Option CompletionStamp)},
      (rest.map Prod.fst).Nodup → Marks finished rest →
      (Domain.drainFrom (queued rest) finished).1 = settled rest ∧
        (Domain.drainFrom (queued rest) finished).2.1 = owed rest ∧
        Marks (Domain.drainFrom (queued rest) finished).2.2 (rest.dropWhile resolved) := by
  induction rest with
  | nil => exact fun _ h => ⟨rfl, rfl, h⟩
  | cons e tail ih =>
    intro finished hnodup hmarks
    obtain ⟨s, fate⟩ := e
    obtain ⟨hout, htail⟩ := List.nodup_cons.mp hnodup
    have hnot : ∀ fate', (s, fate') ∉ tail := fun fate' hin =>
      hout (List.mem_map.mpr ⟨_, hin, rfl⟩)
    cases fate with
    | outstanding =>
      have hqueue : queued ((s, .outstanding) :: tail) = s :: queued tail := by
        simp [queued]
      have hdrop : ((s, Fate.outstanding) :: tail).dropWhile resolved =
          (s, .outstanding) :: tail := by
        simp [resolved]
      rw [hqueue, Domain.drainFrom, hmarks.of_outstanding hnot]
      refine ⟨by simp [settled, resolved], ?_, by rw [hdrop]; exact hmarks⟩
      rw [owed, hdrop, ← hqueue]
      rfl
    | finished stamp =>
      obtain ⟨h1, h2, h3⟩ := ih htail (hmarks.of_finished hnot)
      have hqueue : queued ((s, .finished stamp) :: tail) = s :: queued tail := by
        simp [queued]
      have hdrop : ((s, Fate.finished stamp) :: tail).dropWhile resolved =
          tail.dropWhile resolved := by
        simp [resolved]
      rw [hqueue, Domain.drainFrom, (hmarks s stamp).mpr List.mem_cons_self]
      refine ⟨?_, by rw [owed, hdrop]; exact h2, by rw [hdrop]; exact h3⟩
      simp [settled, resolved, releaseOf, h1]
    | withdrawn =>
      obtain ⟨h1, h2, h3⟩ := ih htail hmarks.of_withdrawn
      have hqueue : queued ((s, .withdrawn) :: tail) = queued tail := by
        simp [queued]
      have hdrop : ((s, Fate.withdrawn) :: tail).dropWhile resolved = tail.dropWhile resolved := by
        simp [resolved]
      rw [hqueue]
      refine ⟨?_, by rw [owed, hdrop]; exact h2, by rw [hdrop]; exact h3⟩
      rw [h1, settled, settled, List.takeWhile_cons_of_pos (by rfl),
        List.filterMap_cons_none (by rfl)]

/-- A queue says of its channel what the book says. -/
structure Mirrors (queue : Domain) (positions : Positions) : Prop where
  ascending : (positions.map Prod.fst).Pairwise (· < ·)
  order : queue.order = owed positions
  finished : Marks queue.finished (positions.dropWhile resolved)
  through : queue.admittedThrough = positions.getLast?.map Prod.fst

theorem mirrors_empty : Mirrors .empty [] :=
  ⟨.nil, rfl, fun s stamp => by simp [Domain.empty], rfl⟩

theorem outstanding_mem_iff {positions : Positions} {s : ChannelSequence} :
    (s, .outstanding) ∈ positions ↔ (s, .outstanding) ∈ positions.dropWhile resolved := by
  constructor
  · intro h
    rw [← List.takeWhile_append_dropWhile (p := resolved) (l := positions)] at h
    rcases List.mem_append.mp h with h | h
    · have := List.mem_takeWhile_imp h
      simp [resolved] at this
    · exact h
  · exact fun h => (List.dropWhile_sublist resolved).subset h

theorem map_fst_decideFate (positions : Positions) (s : ChannelSequence) (fate : Fate) :
    (decideFate positions s fate).map Prod.fst = positions.map Prod.fst := by
  unfold decideFate
  rw [List.map_map]
  refine List.map_congr_left fun e _ => ?_
  dsimp only [Function.comp]
  split <;> rfl

theorem mem_decideFate {positions : Positions} {s t : ChannelSequence} {fate other : Fate} :
    (t, other) ∈ decideFate positions s fate ↔
      if t = s then other = fate ∧ ∃ old, (s, old) ∈ positions else (t, other) ∈ positions := by
  unfold decideFate
  rw [List.mem_map]
  constructor
  · rintro ⟨⟨u, old⟩, hin, heq⟩
    dsimp only at heq
    split at heq
    · rename_i hu
      cases heq
      subst hu
      exact (if_pos rfl).mpr ⟨rfl, old, hin⟩
    · rename_i hu
      cases heq
      exact (if_neg hu).mpr hin
  · intro h
    split at h
    · rename_i ht
      obtain ⟨rfl, old, hin⟩ := h
      exact ⟨(s, old), hin, by simp [ht]⟩
    · rename_i ht
      exact ⟨(t, other), h, by simp [ht]⟩

/-- A fate is decided behind the settled front. -/
theorem decideFate_split {positions : Positions} (hnodup : (positions.map Prod.fst).Nodup)
    {s : ChannelSequence} (hs : (s, .outstanding) ∈ positions) (fate : Fate) :
    decideFate positions s fate = positions.takeWhile resolved ++
      decideFate (positions.dropWhile resolved) s fate := by
  have hsplit := List.takeWhile_append_dropWhile (p := resolved) (l := positions)
  have hout : ∀ e ∈ positions.takeWhile resolved, e.1 ≠ s := by
    intro e he heq
    rw [← hsplit, List.map_append] at hnodup
    refine (List.nodup_append.mp hnodup).2.2 e.1 (List.mem_map_of_mem he) s ?_ heq
    exact List.mem_map.mpr ⟨_, outstanding_mem_iff.mp hs, rfl⟩
  have hfront : decideFate (positions.takeWhile resolved) s fate =
      positions.takeWhile resolved :=
    (List.map_congr_left fun e he => if_neg (hout e he)).trans (List.map_id' _)
  conv_lhs => rw [← hsplit]
  rw [decideFate, List.map_append]
  exact congrArg (· ++ _) hfront

theorem settled_append {front : Positions} (h : ∀ e ∈ front, resolved e = true)
    (rest : Positions) : settled (front ++ rest) = front.filterMap releaseOf ++ settled rest := by
  rw [settled, List.takeWhile_append_of_pos h, List.filterMap_append, settled]

theorem dropWhile_append {front : Positions} (h : ∀ e ∈ front, resolved e = true)
    (rest : Positions) : (front ++ rest).dropWhile resolved = rest.dropWhile resolved :=
  List.dropWhile_append_of_pos h

theorem settled_concat (positions : Positions) (s : ChannelSequence) :
    settled (positions ++ [(s, .outstanding)]) = settled positions := by
  have htake : (positions ++ [(s, Fate.outstanding)]).takeWhile resolved =
      positions.takeWhile resolved := by
    induction positions with
    | nil => rfl
    | cons e rest ih =>
      cases he : resolved e
      · simp [he]
      · simpa [he] using ih
  rw [settled, settled, htake]

/-- What is settled stays settled. -/
theorem settled_prefix {positions : Positions} (hnodup : (positions.map Prod.fst).Nodup)
    {s : ChannelSequence} (hs : (s, .outstanding) ∈ positions) (fate : Fate) :
    settled positions ++ (settled (decideFate positions s fate)).drop (settled positions).length =
      settled (decideFate positions s fate) := by
  have hfront : ∀ e ∈ positions.takeWhile resolved, resolved e = true :=
    fun e he => List.mem_takeWhile_imp he
  rw [decideFate_split hnodup hs, settled_append hfront]
  exact congrArg (settled positions ++ ·) List.drop_left

/-- A queue whose change agrees with a decided fate drains what the book says is new. -/
theorem Mirrors.decide {queue next : Domain} {positions : Positions}
    (h : Mirrors queue positions) {s : ChannelSequence} (hs : (s, .outstanding) ∈ positions)
    {fate : Fate}
    (horder : next.order = queued (decideFate (positions.dropWhile resolved) s fate))
    (hmarks : Marks next.finished (decideFate (positions.dropWhile resolved) s fate))
    (hthrough : next.admittedThrough = queue.admittedThrough) :
    next.drain.2 = (settled (decideFate positions s fate)).drop (settled positions).length ∧
      Mirrors next.drain.1 (decideFate positions s fate) := by
  have hnodup : (positions.map Prod.fst).Nodup := h.ascending.imp Nat.ne_of_lt
  have hrest : ((decideFate (positions.dropWhile resolved) s fate).map Prod.fst).Nodup := by
    rw [map_fst_decideFate]
    exact hnodup.sublist ((List.dropWhile_sublist resolved).map Prod.fst)
  have hfront : ∀ e ∈ positions.takeWhile resolved, resolved e = true :=
    fun e he => List.mem_takeWhile_imp he
  obtain ⟨hreleased, howed, hfinished⟩ := drainFrom_spec hrest hmarks
  rw [← horder] at hreleased howed hfinished
  refine ⟨?_, ?_, ?_, ?_, ?_⟩
  · rw [decideFate_split hnodup hs, settled_append hfront]
    have hlen : (settled positions).length =
        ((positions.takeWhile resolved).filterMap releaseOf).length := rfl
    rw [hlen, List.drop_left]
    exact hreleased
  · rw [map_fst_decideFate]
    exact h.ascending
  · rw [decideFate_split hnodup hs, owed, dropWhile_append hfront]
    exact howed
  · rw [decideFate_split hnodup hs, dropWhile_append hfront]
    exact hfinished
  · have hlast : ((decideFate positions s fate).getLast?).map Prod.fst =
        (positions.getLast?).map Prod.fst := by
      rw [← List.getLast?_map, ← List.getLast?_map, map_fst_decideFate]
    rw [hlast, ← h.through]
    exact hthrough

theorem queued_eq (rest : Positions) :
    queued rest = rest.filterMap fun e => if e.2 = .withdrawn then none else some e.1 := by
  unfold queued
  induction rest with
  | nil => rfl
  | cons e tail ih =>
    obtain ⟨s, fate⟩ := e
    cases fate <;> simpa using ih

theorem mem_queued {rest : Positions} {s : ChannelSequence} :
    s ∈ queued rest ↔ ∃ fate, (s, fate) ∈ rest ∧ fate ≠ .withdrawn := by
  simp [queued]

theorem Mirrors.nodup {queue : Domain} {positions : Positions} (h : Mirrors queue positions) :
    ((positions.dropWhile resolved).map Prod.fst).Nodup :=
  List.Nodup.sublist ((List.dropWhile_sublist resolved).map Prod.fst)
    (h.ascending.imp Nat.ne_of_lt)

/-- A position has one fate. -/
theorem fate_unique {rest : Positions} (h : (rest.map Prod.fst).Nodup) {s : ChannelSequence}
    {a b : Fate} (ha : (s, a) ∈ rest) (hb : (s, b) ∈ rest) : a = b :=
  congrArg Prod.snd (List.inj_on_of_nodup_map h ha hb rfl)

/-- The queue's own test of an outstanding position. -/
theorem Mirrors.outstanding_iff {queue : Domain} {positions : Positions}
    (h : Mirrors queue positions) {s : ChannelSequence} :
    (s ∈ queue.order ∧ queue.finished s = none) ↔ (s, .outstanding) ∈ positions := by
  have hqueue : queue.order = queued (positions.dropWhile resolved) := h.order
  rw [outstanding_mem_iff, hqueue, mem_queued]
  constructor
  · rintro ⟨⟨fate, hin, hne⟩, hnone⟩
    cases fate with
    | outstanding => exact hin
    | finished stamp =>
      rw [(h.finished s stamp).mpr hin] at hnone
      cases hnone
    | withdrawn => exact absurd rfl hne
  · intro hin
    refine ⟨⟨_, hin, by simp⟩, ?_⟩
    cases hf : queue.finished s with
    | none => rfl
    | some stamp => cases fate_unique h.nodup hin ((h.finished s stamp).mp hf)

theorem Mirrors.complete {queue : Domain} {positions : Positions} (h : Mirrors queue positions)
    {s : ChannelSequence} (hs : (s, .outstanding) ∈ positions) (stamp : Option CompletionStamp) :
    Marks (Function.update queue.finished s (some stamp))
        (decideFate (positions.dropWhile resolved) s (.finished stamp)) ∧
      queue.order = queued (decideFate (positions.dropWhile resolved) s (.finished stamp)) := by
  have hin := outstanding_mem_iff.mp hs
  constructor
  · intro t st
    rw [mem_decideFate]
    by_cases ht : t = s
    · subst ht
      rw [Function.update_self, if_pos rfl]
      constructor
      · intro heq
        cases heq
        exact ⟨rfl, _, hin⟩
      · rintro ⟨heq, -⟩
        cases heq
        rfl
    · rw [Function.update_of_ne ht, if_neg ht]
      exact h.finished t st
  · have hqueue : queue.order = queued (positions.dropWhile resolved) := h.order
    rw [hqueue, queued_eq, queued_eq, decideFate, List.filterMap_map]
    refine List.filterMap_congr fun e he => ?_
    obtain ⟨t, fate⟩ := e
    dsimp only [Function.comp]
    by_cases ht : t = s
    · subst ht
      rw [fate_unique h.nodup he hin]
      simp
    · simp [ht]

theorem Mirrors.withdraw {queue : Domain} {positions : Positions} (h : Mirrors queue positions)
    {s : ChannelSequence} (hs : (s, .outstanding) ∈ positions) :
    Marks queue.finished (decideFate (positions.dropWhile resolved) s .withdrawn) ∧
      queue.order.erase s = queued (decideFate (positions.dropWhile resolved) s .withdrawn) := by
  have hin := outstanding_mem_iff.mp hs
  constructor
  · intro t st
    rw [mem_decideFate, h.finished]
    by_cases ht : t = s
    · subst ht
      rw [if_pos rfl]
      refine iff_of_false (fun hf => ?_) fun hf => by cases hf.1
      cases fate_unique h.nodup hin hf
    · rw [if_neg ht]
  · have hqueue : queue.order = queued (positions.dropWhile resolved) := h.order
    have hnodup : (queued (positions.dropWhile resolved)).Nodup :=
      h.nodup.sublist (List.filter_sublist.map Prod.fst)
    rw [hqueue, hnodup.erase_eq_filter, queued_eq, queued_eq, decideFate, List.filterMap_map,
      List.filter_filterMap]
    refine List.filterMap_congr fun e he => ?_
    obtain ⟨t, fate⟩ := e
    dsimp only [Function.comp]
    by_cases ht : t = s
    · subst ht
      rw [fate_unique h.nodup he hin]
      simp
    · cases fate <;> simp [ht, Option.filter]

/-! ## All channels -/

/-- Every queue says of its channel what the book says. -/
def MirrorsAll (p : Publisher) (book : Book) : Prop :=
  ∀ c, Mirrors ((p.domains c).getD .empty) (book c)

theorem mirrorsAll_update {p : Publisher} {book : Book} (h : MirrorsAll p book) {c : ChannelId}
    {queue : Domain} {positions : Positions} (hc : Mirrors queue positions) (released : Nat) :
    MirrorsAll ⟨Function.update p.domains c (some queue), released⟩
      (Function.update book c positions) := by
  intro d
  by_cases hd : d = c
  · subst hd
    simpa using hc
  · simpa [hd] using h d

/-- A channel without a queue has no positions. -/
theorem MirrorsAll.eq_nil {p : Publisher} {book : Book} (h : MirrorsAll p book) {c : ChannelId}
    (hc : p.domains c = none) : book c = [] := by
  have hlast := (h c).through
  rw [hc] at hlast
  simpa [Domain.empty] using hlast.symm

theorem MirrorsAll.settle {p : Publisher} {book : Book} (h : MirrorsAll p book) {c : ChannelId}
    {s : ChannelSequence} (hs : (s, .outstanding) ∈ book c) {fate : Fate} {next : Domain}
    (hnext : Marks next.finished (decideFate ((book c).dropWhile resolved) s fate) ∧
      next.order = queued (decideFate ((book c).dropWhile resolved) s fate))
    (hthrough : next.admittedThrough = ((p.domains c).getD .empty).admittedThrough) :
    [PublishAnswer.released (p.settle c next).2] = (decideStep book c s fate).2 ∧
      MirrorsAll (p.settle c next).1 (decideStep book c s fate).1 := by
  obtain ⟨hreleased, hmirrors⟩ := (h c).decide hs hnext.2 hnext.1 hthrough
  rw [decideStep, if_pos hs]
  refine ⟨?_, mirrorsAll_update h hmirrors _⟩
  rw [Publisher.settle, hreleased]

theorem MirrorsAll.completeStep {p : Publisher} {book : Book} (h : MirrorsAll p book)
    (c : ChannelId) (s : ChannelSequence) (stamp : Option CompletionStamp) :
    (publisherStep p (.complete c s stamp)).2 = (bookStep book (.complete c s stamp)).2 ∧
      MirrorsAll (publisherStep p (.complete c s stamp)).1
        (bookStep book (.complete c s stamp)).1 := by
  cases hc : p.domains c with
  | none =>
    have hnil := h.eq_nil hc
    simp only [publisherStep, Publisher.complete, hc, bookStep, decideStep, hnil]
    exact ⟨rfl, h⟩
  | some queue =>
    have hmirrors : Mirrors queue (book c) := by simpa [hc] using h c
    by_cases hs : (s, .outstanding) ∈ book c
    · obtain ⟨horder, hnone⟩ := hmirrors.outstanding_iff.mpr hs
      have hcomplete : p.complete c s stamp = some (p.settle c
          { queue with finished := Function.update queue.finished s (some stamp) }) := by
        simp [Publisher.complete, hc, guard, horder, hnone]
      have hthrough : queue.admittedThrough = ((p.domains c).getD .empty).admittedThrough := by
        rw [hc]
        rfl
      have hsettle := @MirrorsAll.settle p book h c s hs (.finished stamp)
        { queue with finished := Function.update queue.finished s (some stamp) }
        (hmirrors.complete hs stamp) hthrough
      simpa only [publisherStep, hcomplete, bookStep] using hsettle
    · have hpanic : p.complete c s stamp = none := by
        have hno := mt hmirrors.outstanding_iff.mp hs
        by_cases horder : s ∈ queue.order
        · have hsome : queue.finished s ≠ none := fun hnone => hno ⟨horder, hnone⟩
          simp [Publisher.complete, hc, guard, horder, hsome]
        · simp [Publisher.complete, hc, guard, horder]
      simp only [publisherStep, hpanic, bookStep, decideStep, if_neg hs]
      exact ⟨trivial, h⟩

theorem MirrorsAll.withdrawStep {p : Publisher} {book : Book} (h : MirrorsAll p book)
    (c : ChannelId) (s : ChannelSequence) :
    (publisherStep p (.withdraw c s)).2 = (bookStep book (.withdraw c s)).2 ∧
      MirrorsAll (publisherStep p (.withdraw c s)).1 (bookStep book (.withdraw c s)).1 := by
  cases hc : p.domains c with
  | none =>
    have hnil := h.eq_nil hc
    simp only [publisherStep, Publisher.withdraw, hc, bookStep, decideStep, hnil]
    exact ⟨rfl, h⟩
  | some queue =>
    have hmirrors : Mirrors queue (book c) := by simpa [hc] using h c
    by_cases hs : (s, .outstanding) ∈ book c
    · obtain ⟨horder, hnone⟩ := hmirrors.outstanding_iff.mpr hs
      have hwithdraw : p.withdraw c s = some (p.settle c
          { queue with order := queue.order.erase s }) := by
        simp [Publisher.withdraw, hc, guard, horder, hnone]
      have hthrough : queue.admittedThrough = ((p.domains c).getD .empty).admittedThrough := by
        rw [hc]
        rfl
      have hsettle := @MirrorsAll.settle p book h c s hs .withdrawn
        { queue with order := queue.order.erase s } (hmirrors.withdraw hs) hthrough
      simpa only [publisherStep, hwithdraw, bookStep] using hsettle
    · have hpanic : p.withdraw c s = none := by
        have hno := mt hmirrors.outstanding_iff.mp hs
        by_cases horder : s ∈ queue.order
        · have hsome : queue.finished s ≠ none := fun hnone => hno ⟨horder, hnone⟩
          simp [Publisher.withdraw, hc, guard, hsome]
        · simp [Publisher.withdraw, hc, guard, horder]
      simp only [publisherStep, hpanic, bookStep, decideStep, if_neg hs]
      exact ⟨trivial, h⟩

theorem dropWhile_concat (positions : Positions) (s : ChannelSequence) :
    (positions ++ [(s, Fate.outstanding)]).dropWhile resolved =
      positions.dropWhile resolved ++ [(s, .outstanding)] := by
  induction positions with
  | nil => rfl
  | cons e rest ih =>
    cases he : resolved e
    · simp [he]
    · simpa [he] using ih

/-- A position past the last one is past every one. -/
theorem lt_of_last_lt {positions : Positions}
    (hascending : (positions.map Prod.fst).Pairwise (· < ·)) {s : ChannelSequence}
    (hs : ∀ last ∈ positions.getLast?, last.1 < s) {t : ChannelSequence}
    (ht : t ∈ positions.map Prod.fst) : t < s := by
  rcases List.eq_nil_or_concat positions with rfl | ⟨front, last, rfl⟩
  · cases ht
  · have hlast : last.1 < s := hs last (by simp)
    rw [List.concat_eq_append, List.map_append] at hascending ht
    rcases List.mem_append.mp ht with hin | hin
    · exact Nat.lt_trans ((List.pairwise_append.mp hascending).2.2 t hin last.1 (by simp)) hlast
    · obtain rfl : t = last.1 := by simpa using hin
      exact hlast

theorem Mirrors.admitted {queue : Domain} {positions : Positions} (h : Mirrors queue positions)
    {s : ChannelSequence} (hs : ∀ last ∈ positions.getLast?, last.1 < s) :
    Mirrors { queue with
        admittedThrough := some s
        order := queue.order ++ [s] } (positions ++ [(s, .outstanding)]) := by
  have hdrop := dropWhile_concat positions s
  refine ⟨?_, ?_, ?_, by simp⟩
  · rw [List.map_append, List.pairwise_append]
    refine ⟨h.ascending, List.pairwise_singleton _ _, fun t ht u hu => ?_⟩
    obtain rfl : u = s := by simpa using hu
    exact lt_of_last_lt h.ascending hs ht
  · simp [owed, hdrop, h.order]
  · intro t st
    rw [hdrop]
    simpa using h.finished t st

theorem MirrorsAll.admitStep {p : Publisher} {book : Book} (h : MirrorsAll p book)
    (c : ChannelId) (s : ChannelSequence) :
    (publisherStep p (.admission c s)).2 = (bookStep book (.admission c s)).2 ∧
      MirrorsAll (publisherStep p (.admission c s)).1 (bookStep book (.admission c s)).1 := by
  have hguard : (∀ last ∈ ((p.domains c).getD .empty).admittedThrough, last < s) ↔
      ∀ last ∈ (book c).getLast?, last.1 < s := by
    rw [(h c).through]
    simp
  by_cases hs : ∀ last ∈ (book c).getLast?, last.1 < s
  · have hadmission := mirrorsAll_update h (c := c) ((h c).admitted hs) p.released
    simp only [publisherStep, Publisher.admitPosition, guard, if_pos (hguard.mpr hs), bookStep,
      if_pos hs]
    exact ⟨rfl, hadmission⟩
  · simp only [publisherStep, Publisher.admitPosition, guard, if_neg (mt hguard.mp hs), bookStep,
      if_neg hs]
    exact ⟨rfl, h⟩

theorem MirrorsAll.outstanding_eq {p : Publisher} {book : Book} (h : MirrorsAll p book)
    (c : ChannelId) : p.outstanding c = (owed (book c)).length := by
  rw [← (h c).order, Publisher.outstanding]
  cases p.domains c <;> rfl

theorem MirrorsAll.retireStep {p : Publisher} {book : Book} (h : MirrorsAll p book)
    (c : ChannelId) :
    (publisherStep p (.retire c)).2 = (bookStep book (.retire c)).2 ∧
      MirrorsAll (publisherStep p (.retire c)).1 (bookStep book (.retire c)).1 := by
  simp only [publisherStep, Publisher.retire, bookStep, h.outstanding_eq c]
  by_cases hlive : 0 < (owed (book c)).length
  · simp only [if_pos hlive]
    exact ⟨trivial, h⟩
  · simp only [if_neg hlive]
    refine ⟨trivial, fun d => ?_⟩
    by_cases hd : d = c
    · subst hd
      simpa using mirrors_empty
    · simpa [hd] using h d

/-- The front of a queue is the first position that is outstanding. -/
theorem head_owed (positions : Positions) :
    (owed positions).head? = firstOutstanding positions := by
  unfold owed firstOutstanding
  induction positions with
  | nil => rfl
  | cons e rest ih =>
    obtain ⟨s, fate⟩ := e
    cases fate with
    | outstanding => simp [resolved]
    | finished stamp => simpa [resolved] using ih
    | withdrawn => simpa [resolved] using ih

theorem MirrorsAll.head_eq {p : Publisher} {book : Book} (h : MirrorsAll p book)
    (c : ChannelId) : p.head c = firstOutstanding (book c) := by
  rw [← head_owed, ← (h c).order, Publisher.head]
  cases p.domains c <;> rfl

theorem MirrorsAll.step {p : Publisher} {book : Book} (h : MirrorsAll p book) (op : PublishOp) :
    (publisherStep p op).2 = (bookStep book op).2 ∧
      MirrorsAll (publisherStep p op).1 (bookStep book op).1 := by
  cases op with
  | admission c s => exact h.admitStep c s
  | complete c s stamp => exact h.completeStep c s stamp
  | withdraw c s => exact h.withdrawStep c s
  | retire c => exact h.retireStep c
  | outstanding c => exact ⟨by simp only [publisherStep, bookStep, h.outstanding_eq], h⟩
  | head c => exact ⟨by simp only [publisherStep, bookStep, h.head_eq], h⟩

/-! ## What is published stays published -/

/-- Every channel's positions ascend. -/
def Ascending (book : Book) : Prop := ∀ c, ((book c).map Prod.fst).Pairwise (· < ·)

theorem ascending_update {book : Book} (h : Ascending book) {c : ChannelId}
    {positions : Positions} (hc : (positions.map Prod.fst).Pairwise (· < ·)) :
    Ascending (Function.update book c positions) := by
  intro d
  by_cases hd : d = c
  · subst hd
    simpa using hc
  · simpa [hd] using h d

theorem ascending_decideStep {book : Book} (h : Ascending book) (c : ChannelId)
    (s : ChannelSequence) (fate : Fate) : Ascending (decideStep book c s fate).1 := by
  unfold decideStep
  split
  · refine ascending_update h ?_
    rw [map_fst_decideFate]
    exact h c
  · exact h

theorem ascending_bookStep {book : Book} (h : Ascending book) (op : PublishOp) :
    Ascending (bookStep book op).1 := by
  cases op with
  | admission c s =>
    rw [bookStep]
    split
    · rename_i hs
      refine ascending_update h ?_
      rw [List.map_append, List.pairwise_append]
      refine ⟨h c, List.pairwise_singleton _ _, fun t ht u hu => ?_⟩
      obtain rfl : u = s := by simpa using hu
      exact lt_of_last_lt (h c) hs ht
    · exact h
  | complete c s stamp => exact ascending_decideStep h c s _
  | withdraw c s => exact ascending_decideStep h c s _
  | retire c =>
    rw [bookStep]
    split
    · exact h
    · exact ascending_update h .nil
  | outstanding c => exact h
  | head c => exact h

theorem settled_update {book : Book} {c : ChannelId} {positions : Positions}
    (h : settled (book c) <+: settled positions) (d : ChannelId) :
    settled (book d) <+: settled (Function.update book c positions d) := by
  by_cases hd : d = c
  · subst hd
    rw [Function.update_self]
    exact h
  · have hsame : Function.update book c positions d = book d := Function.update_of_ne hd _ _
    exact ⟨[], by rw [hsame, List.append_nil]⟩

theorem settled_decideStep {book : Book} (h : Ascending book) (c : ChannelId)
    (s : ChannelSequence) (fate : Fate) (d : ChannelId) :
    settled (book d) <+: settled ((decideStep book c s fate).1 d) := by
  unfold decideStep
  split
  · rename_i hs
    refine settled_update ?_ d
    exact ⟨_, settled_prefix ((h c).imp Nat.ne_of_lt) hs fate⟩
  · exact List.prefix_refl _

theorem onlyGrows_of_ascending {book : Book} (h : Ascending book) (op : PublishOp) :
    OnlyGrows book op := by
  intro d
  cases op with
  | admission c s =>
    rw [bookStep]
    split
    · refine Or.inl (settled_update ⟨[], ?_⟩ d)
      rw [settled_concat, List.append_nil]
    · exact Or.inl (List.prefix_refl _)
  | complete c s stamp => exact Or.inl (settled_decideStep h c s _ d)
  | withdraw c s => exact Or.inl (settled_decideStep h c s _ d)
  | retire c =>
    rw [bookStep]
    split
    · exact Or.inl (List.prefix_refl _)
    · rename_i hnone
      by_cases hd : d = c
      · subst hd
        exact Or.inr ⟨rfl, List.length_eq_zero_iff.mp (Nat.eq_zero_of_not_pos hnone)⟩
      · have hsame : Function.update book c [] d = book d := Function.update_of_ne hd _ _
        refine Or.inl ⟨[], ?_⟩
        dsimp only
        rw [hsame, List.append_nil]
  | outstanding c => exact Or.inl (List.prefix_refl _)
  | head c => exact Or.inl (List.prefix_refl _)

/-- **A channel publishes in its own order, and nothing is published twice or lost.**  Whatever
is admitted, completed, withdrawn and retired in whatever order and on whatever channels, every
call answers as the book does: what it releases is what the channel's published positions, the
completed ones before the first that is outstanding, have just grown by.  And they only grow,
until the channel is retired owing nothing. -/
theorem publisher_is_book (ops : List PublishOp) :
    observe publisherStep .new ops = observe bookStep (fun _ => []) ops ∧
      Guarded (fun book op => (bookStep book op).1) OnlyGrows (fun _ => []) ops := by
  have hinit : MirrorsAll .new fun _ => [] := fun _ => mirrors_empty
  have hascending : Ascending fun _ => [] := fun _ => .nil
  exact ⟨observe_eq_of_simulation (R := MirrorsAll) (fun _ _ op h => h.step op) hinit ops,
    guarded_of_invariant (P := Ascending) (fun _ op h => ascending_bookStep h op)
      (fun _ op h => onlyGrows_of_ascending h op) ops hascending⟩

/-- The positions a call released. -/
def PublishAnswer.releases : PublishAnswer → Nat
  | .released out => out.length
  | _ => 0

namespace Publisher

variable {p : Publisher} {c : ChannelId} {s : ChannelSequence}

theorem released_admitPosition {p' : Publisher} (h : p.admitPosition c s = some p') :
    p'.released = p.released := by
  simp only [admitPosition, Option.bind_eq_bind, Option.bind_eq_some_iff] at h
  obtain ⟨-, -, h⟩ := h
  cases h
  rfl

theorem released_complete {stamp : Option CompletionStamp} {out : Publisher × List Release}
    (h : p.complete c s stamp = some out) : out.1.released = p.released + out.2.length := by
  simp only [complete, Option.bind_eq_bind, Option.bind_eq_some_iff] at h
  obtain ⟨queue, -, -, -, -, -, h⟩ := h
  cases h
  rfl

theorem released_withdraw {out : Publisher × List Release} (h : p.withdraw c s = some out) :
    out.1.released = p.released + out.2.length := by
  simp only [withdraw, Option.bind_eq_bind, Option.bind_eq_some_iff] at h
  obtain ⟨queue, -, -, -, -, -, h⟩ := h
  cases h
  rfl

theorem released_retire {p' : Publisher} (h : p.retire c = .ok p') :
    p'.released = p.released := by
  unfold retire at h
  split at h
  · cases h
  · cases h
    rfl

end Publisher

theorem released_publisherStep (p : Publisher) (op : PublishOp) :
    (publisherStep p op).1.released =
      p.released + ((publisherStep p op).2.map PublishAnswer.releases).sum := by
  cases op with
  | admission c s =>
    rw [publisherStep]
    split
    · exact Publisher.released_admitPosition ‹_›
    · rfl
  | complete c s stamp =>
    rw [publisherStep]
    split
    · exact Publisher.released_complete ‹_›
    · rfl
  | withdraw c s =>
    rw [publisherStep]
    split
    · exact Publisher.released_withdraw ‹_›
    · rfl
  | retire c =>
    rw [publisherStep]
    split
    · exact Publisher.released_retire ‹_›
    · rfl
  | outstanding c => rfl
  | head c => rfl

/-- The publisher's own count is the number of positions its calls have released. -/
theorem released_eq_sum (ops : List PublishOp) (p : Publisher) :
    (final publisherStep p ops).released =
      p.released + ((observe publisherStep p ops).map PublishAnswer.releases).sum := by
  induction ops generalizing p with
  | nil => rfl
  | cons op rest ih =>
    rw [final_cons, ih, observe_cons, List.map_append, List.sum_append, released_publisherStep]
    exact Nat.add_assoc _ _ _

end Orchard.Plane
