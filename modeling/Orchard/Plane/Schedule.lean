/-
  Plane/Schedule.lean --- one batch run in order, and in any order its hazards permit.

  `schedule.rs` of `reims-vgpu-core`, with the wait graph of `prereq.rs`.  `serial` completes
  the transactions of a batch one at a time in ingress order; `parallelWith` drives the
  dependency graph, the readiness service and the publisher over the same batch and completes
  whichever ready transaction the caller picks.  `equivalent` says what it is for the two to
  have meant the same, and `eligible` for which batches that is a question at all.
-/
import Orchard.Plane.Depend
import Orchard.Plane.Interpret

set_option autoImplicit false

namespace Orchard.Plane

open Orchard.Content Std

/-! ## Explicit waits -/

/-- A point a transaction waits for that another packet can produce. -/
inductive WaitPoint where
  | stamp (slot : StampSlot) (value : StampValue)
  | event (event : ResourceId) (value : Nat)
deriving DecidableEq

/-- A point a transaction publishes. -/
inductive Production where
  | stamp (slot : StampSlot) (value : StampValue)
  | event (event : ResourceId) (value : Nat)
deriving DecidableEq

/-- Whether publishing this discharges a wait. -/
def Production.discharges : Production → WaitPoint → Bool
  | .stamp produced standing, .stamp wanted needed =>
    produced = wanted && StampValue.reached standing needed
  | .event produced standing, .event wanted needed => produced = wanted && needed ≤ standing
  | _, _ => false

/-- One admitted transaction's explicit waits and productions. -/
structure WaitNode where
  ordinal : IngressOrdinal
  waits : List WaitPoint
  produces : List Production

/-- The wait graph over a batch; nothing has been published outside it. -/
abbrev WaitGraph := List WaitNode

def signalOf : ResolvedOperation → Option Production
  | .event op => if op.kind = .signal then some (.event op.event op.value) else none
  | _ => none

def eventWaitOf : Prerequisite → Option WaitPoint
  | .event event value => some (.event event value)
  | .fence _ => none

/-- The node of a transaction: what its envelope and its records wait for, and what its
completion and its signals produce. -/
def WaitNode.of (tx : DeviceTransaction) : WaitNode where
  ordinal := tx.ingress
  waits := tx.stampWaits.map (fun w => .stamp w.slot w.value) ++
    tx.payload.prerequisites.filterMap eventWaitOf
  produces := (tx.completion.map fun c => Production.stamp c.slot c.value).toList ++
    tx.payload.records.filterMap signalOf

namespace WaitGraph

def of (batch : List DeviceTransaction) : WaitGraph := batch.map WaitNode.of

/-- Whether some transaction other than `waiter` produces a point. -/
def producedByAnother (g : WaitGraph) (waiter : IngressOrdinal) (wait : WaitPoint) : Bool :=
  g.any fun n => n.ordinal ≠ waiter && n.produces.any (·.discharges wait)

/-- Waiter-to-producer edges; a transaction never depends on itself. -/
def edges (g : WaitGraph) : List (IngressOrdinal × WaitPoint × IngressOrdinal) :=
  g.flatMap fun node => node.waits.flatMap fun wait =>
    (g.filter fun other =>
      other.ordinal ≠ node.ordinal && other.produces.any (·.discharges wait)).map fun other =>
        (node.ordinal, wait, other.ordinal)

/-- The waits of `diagnose` that no other transaction answers, in ingress order. -/
def unproduced (g : WaitGraph) : List (IngressOrdinal × WaitPoint) :=
  (g.mergeSort fun a b => a.ordinal ≤ b.ordinal).flatMap fun node =>
    (node.waits.filter fun wait => !g.producedByAnother node.ordinal wait).map
      fun wait => (node.ordinal, wait)

end WaitGraph

/-- Keep the lowest producer of each wait. -/
def noteProducer (out : List (IngressOrdinal × WaitPoint × IngressOrdinal))
    (edge : IngressOrdinal × WaitPoint × IngressOrdinal) :
    List (IngressOrdinal × WaitPoint × IngressOrdinal) :=
  if out.any fun e => e.1 = edge.1 && e.2.1 = edge.2.1 then
    out.map fun e =>
      if e.1 = edge.1 ∧ e.2.1 = edge.2.1 then (e.1, e.2.1, min e.2.2 edge.2.2) else e
  else out ++ [edge]

/-- For each wait, the earliest transaction that discharges it. -/
def earliestProducers (g : WaitGraph) : List (IngressOrdinal × WaitPoint × IngressOrdinal) :=
  g.edges.foldl noteProducer []

/-! ## Eligible batches -/

/-- Why a batch has no serial meaning to compare a parallel run with. -/
inductive Ineligible where
  | outOfIngressOrder (found after : IngressOrdinal)
  | forwardExplicitWait (waiter : IngressOrdinal) (point : WaitPoint) (producer : IngressOrdinal)
  | unansweredWait (waiter : IngressOrdinal) (point : WaitPoint)
  | fencePrerequisite (waiter : IngressOrdinal)
  | unorderedVersionRace (backing : BackingId) (first second : IngressOrdinal)
  | mixedGeneration (expected found : SessionGeneration)
deriving DecidableEq

def outOfIngressOrder : List DeviceTransaction → Option Ineligible
  | a :: b :: rest =>
    if b.ingress ≤ a.ingress then some (.outOfIngressOrder b.ingress a.ingress)
    else outOfIngressOrder (b :: rest)
  | [_] | [] => none

def mixedGeneration (batch : List DeviceTransaction) : Option Ineligible :=
  batch.head?.bind fun first =>
    (batch.find? fun tx => tx.identity.session ≠ first.identity.session).map fun tx =>
      .mixedGeneration first.identity.session tx.identity.session

def Prerequisite.isFence : Prerequisite → Bool
  | .fence _ => true
  | .event .. => false

def fencePrerequisite (batch : List DeviceTransaction) : Option Ineligible :=
  (batch.find? fun tx => tx.payload.prerequisites.any Prerequisite.isFence).map fun tx =>
    .fencePrerequisite tx.ingress

def unansweredWait (g : WaitGraph) : Option Ineligible :=
  g.unproduced.head?.map fun e => .unansweredWait e.1 e.2

def forwardExplicitWait (g : WaitGraph) : Option Ineligible :=
  ((earliestProducers g).find? fun e => e.1 ≤ e.2.2).map fun e =>
    .forwardExplicitWait e.1 e.2.1 e.2.2

def noteHazards (acc : DependencyGraph × List (IngressOrdinal × List IngressOrdinal))
    (tx : DeviceTransaction) :
    Option (DependencyGraph × List (IngressOrdinal × List IngressOrdinal)) := do
  let out ← acc.1.admitTransaction tx.ingress tx.accesses
  return (out.1, acc.2 ++ [(tx.ingress, out.2)])

/-- Each transaction of a batch with the ones its accesses must wait for. -/
def hazardsOf (batch : List DeviceTransaction) :
    Option (List (IngressOrdinal × List IngressOrdinal)) :=
  (batch.foldlM noteHazards (.new, [])).map Prod.snd

/-- The list a table of lists has under a key. -/
def listAt (table : List (IngressOrdinal × List IngressOrdinal)) (key : IngressOrdinal) :
    List IngressOrdinal :=
  ((table.find? fun e => e.1 = key).map Prod.snd).getD []

/-- What each transaction is ordered after, directly or through others.  Hazard edges point
backwards, so one pass in ingress order settles it. -/
def reachesOf (hazards : List (IngressOrdinal × List IngressOrdinal)) :
    List (IngressOrdinal × List IngressOrdinal) :=
  hazards.foldl (fun table e => table ++ [(e.1, e.2 ++ e.2.flatMap (listAt table))]) []

/-- The first pair of version claims over memory that may alias with no order between them. -/
def firstRace (reaches : List (IngressOrdinal × List IngressOrdinal)) :
    List (IngressOrdinal × VersionPublication) → List (IngressOrdinal × VersionPublication) →
    Option Ineligible
  | _, [] => none
  | seen, (second, later) :: rest =>
    match seen.find? fun e =>
        e.1 ≠ second && e.2.region.mayAlias later.region && e.1 ∉ listAt reaches second with
    | some e => some (.unorderedVersionRace later.backing e.1 second)
    | none => firstRace reaches (seen ++ [(second, later)]) rest

/-- The version claims of a batch, with the transactions that make them. -/
def claimsOf (batch : List DeviceTransaction) : List (IngressOrdinal × VersionPublication) :=
  batch.flatMap fun tx => (publishedVersions tx.accesses).map fun p => (tx.ingress, p)

def versionRaces (batch : List DeviceTransaction) : Option (Option Ineligible) :=
  (hazardsOf batch).map fun hazards => firstRace (reachesOf hazards) [] (claimsOf batch)

/-- Whether ingress order is a legal schedule for the batch.  `none` is a panic of the
dependency graph. -/
def eligible (batch : List DeviceTransaction) : Option (Except Ineligible Unit) :=
  match outOfIngressOrder batch <|> mixedGeneration batch <|> fencePrerequisite batch <|>
      unansweredWait (.of batch) <|> forwardExplicitWait (.of batch) with
  | some problem => some (.error problem)
  | none => (versionRaces batch).map fun race =>
    match race with
    | some problem => .error problem
    | none => .ok ()

/-! ## The two runs -/

/-- One execution of a batch.  A span is where a transaction's completion-visible observations
sit in the trace. -/
structure Run where
  trace : List Observation
  spans : List (IngressOrdinal × Nat × Nat)
  releases : List (ChannelId × Release)
  stampAt : List (IngressOrdinal × Nat)
  stalled : List IngressOrdinal

def Run.empty : Run := ⟨[], [], [], [], []⟩

namespace Run

/-- Completion order. -/
def order (r : Run) : List IngressOrdinal := r.spans.map Prod.fst

/-- One channel's releases, in publication order. -/
def publishedBy (r : Run) (domain : ChannelId) : List Release :=
  (r.releases.filter fun e => e.1 = domain).map Prod.snd

/-- Every channel that published something. -/
def domains (r : Run) : List ChannelId := ((r.releases.map Prod.fst).mergeSort).dedup

end Run

/-- Which transaction holds a channel position. -/
def positionOf (batch : List DeviceTransaction) (domain : ChannelId)
    (sequence : ChannelSequence) : Option IngressOrdinal :=
  (batch.reverse.find? fun tx => tx.domain = domain && tx.sequence = sequence).map
    DeviceTransaction.ingress

/-- Pay one stamp a channel has released. -/
def payOne (batch : List DeviceTransaction) (domain : ChannelId) (acc : Interpreter × Run)
    (release : Release) : Option (Interpreter × Run) :=
  let note (run : Run) : Run := { run with releases := run.releases ++ [(domain, release)] }
  match release.stamp with
  | none => some (acc.1, note acc.2)
  | some stamp =>
    let before := acc.1.trace.length
    let interpreter := acc.1.publish stamp
    if before < interpreter.trace.length then do
      let ordinal ← positionOf batch domain release.sequence
      return (interpreter, note { acc.2 with stampAt := acc.2.stampAt ++ [(ordinal, before)] })
    else some (interpreter, note acc.2)

/-- Pay the stamps a channel has just released, in the order it released them. -/
def pay (batch : List DeviceTransaction) (domain : ChannelId) (releases : List Release)
    (acc : Interpreter × Run) : Option (Interpreter × Run) :=
  releases.foldlM (payOne batch domain) acc

/-- The state of a run: what both kinds of run keep. -/
structure Bench where
  interpreter : Interpreter
  publisher : Publisher
  run : Run

def Bench.new : Bench := ⟨.new, .new, .empty⟩

/-- Complete a transaction on the interpreter and publish: a refused position never
publishes, and does not hold the ones behind it.  The answer is what was released. -/
def Bench.finish (batch : List DeviceTransaction) (b : Bench) (tx : DeviceTransaction)
    (stampOf : Option CompletionStamp → Option CompletionStamp) :
    Option (Bench × List Release) := do
  let start := b.interpreter.trace.length
  let out := b.interpreter.complete tx
  let run := { b.run with
    spans := b.run.spans ++ [(tx.ingress, start, out.1.trace.length)] }
  let released ← match out.2 with
    | .ok stamp => b.publisher.complete tx.domain tx.sequence (stampOf stamp)
    | .error _ => b.publisher.withdraw tx.domain tx.sequence
  let paid ← pay batch tx.domain released.2 (out.1, run)
  return (⟨paid.1, released.1, paid.2⟩, released.2)

def serialStep (batch : List DeviceTransaction) (b : Bench) (tx : DeviceTransaction) :
    Option Bench := do
  let publisher ← b.publisher.admitPosition tx.domain tx.sequence
  let out ← { b with publisher := publisher }.finish batch tx id
  return out.1

/-- Run the batch one transaction at a time in ingress order. -/
def serial (batch : List DeviceTransaction) : Option Run := do
  let b ← batch.foldlM (serialStep batch) Bench.new
  return { b.run with trace := b.interpreter.trace }

/-- The services of a parallel run before anything has completed. -/
structure Services where
  graph : DependencyGraph
  scheduler : Scheduler
  publisher : Publisher

/-- The producers a transaction's event waits are ordinal prerequisites on. -/
def explicitWaits (g : WaitGraph) (waiter : IngressOrdinal) : List IngressOrdinal :=
  (earliestProducers g).filterMap fun e =>
    match e.2.1 with
    | .event .. => if e.1 = waiter then some e.2.2 else none
    | .stamp .. => none

def admitOne (g : WaitGraph) (s : Services) (tx : DeviceTransaction) : Option Services := do
  let publisher ← s.publisher.admitPosition tx.domain tx.sequence
  let out ← s.graph.admitTransaction tx.ingress tx.accesses
  let prerequisites := (out.2 ++ explicitWaits g tx.ingress).mergeSort.dedup
  let scheduler := s.scheduler.admitTransaction tx.ingress prerequisites tx.stampWaits []
    tx.completion
  return ⟨out.1, scheduler.1, publisher⟩

/-- The stamps of some releases reach the readiness service. -/
def Scheduler.publishAll (s : Scheduler) (releases : List Release) : Scheduler :=
  (releases.filterMap Release.stamp).foldl Scheduler.publish s

/-- The state of a parallel run. -/
structure Floor where
  graph : DependencyGraph
  scheduler : Scheduler
  bench : Bench
  pool : List IngressOrdinal

/-- Complete one transaction of the pool. -/
def Floor.completeOne (batch : List DeviceTransaction) (f : Floor) (choice : Nat) :
    Option Floor := do
  let ordinal ← f.pool[choice]?
  let tx ← batch.reverse.find? fun tx => tx.ingress = ordinal
  let scheduled ← f.scheduler.complete ordinal
  let graph ← f.graph.retire ordinal
  let out ← f.bench.finish batch tx fun _ => scheduled.2
  return ⟨graph, scheduled.1.publishAll out.2, out.1, f.pool.eraseIdx choice⟩

/-- Complete whichever ready transaction `pick` names until none is ready.  A round completes
a pending transaction, so that as many rounds as there are transactions are enough. -/
def parallelLoop (batch : List DeviceTransaction) (pick : Nat → List IngressOrdinal → Nat) :
    Nat → Nat → Floor → Option Floor
  | 0, _, _ => none
  | fuel + 1, round, f =>
    let ready := f.scheduler.takeReady
    let pool := (f.pool ++ ready.2).mergeSort
    let f := { f with scheduler := ready.1, pool := pool }
    if pool.isEmpty then some f
    else do
      let next ← f.completeOne batch (pick round pool)
      parallelLoop batch pick fuel (round + 1) next

/-- Run the batch through the dependency graph and the readiness service; `pick` is asked,
round by round, which of the ready transactions goes next. -/
def parallelWith (batch : List DeviceTransaction) (pick : Nat → List IngressOrdinal → Nat) :
    Option Run := do
  let s ← batch.foldlM (admitOne (.of batch)) ⟨.new, .new, .new⟩
  let f ← parallelLoop batch pick (batch.length + 1) 0
    ⟨s.graph, s.scheduler, ⟨.new, s.publisher, .empty⟩, []⟩
  return { f.bench.run with
    trace := f.bench.interpreter.trace
    stalled := f.scheduler.stalled }

/-- `Rng::next`. -/
def xorshift (state : BitVec 64) : BitVec 64 :=
  let state := state ^^^ (state <<< 13)
  let state := state ^^^ (state >>> 7)
  state ^^^ (state <<< 17)

/-- The schedule a seed names. -/
def parallel (batch : List DeviceTransaction) (seed : BitVec 64) : Option Run :=
  parallelWith batch fun round ready =>
    (xorshift^[round + 1] (seed ^^^ 0x9E3779B97F4A7C15#64)).toNat % ready.length

/-! ## What the two runs have to agree on -/

/-- The ways two runs can mean different things. -/
inductive Divergence where
  | differentTransactions
  | contentHistory
  | contentBeaten
  | stampOutcome
  | eventOutcome
  | fenceUpdates
  | refusals
  | queriesUnanswered
  | presentation
  | publicationOrder
  | nonMonotonePublication
  | splitPublication
  | stampBeforeVersions
deriving DecidableEq

/-! The maps of `Summary`, each read off the trace at one key. -/

namespace Observation

def content : Observation → Option ((BackingId × AccessKey) × ContentVersion)
  | .versionPublished backing region version => some ((backing, region), version)
  | _ => none

def beaten : Observation → Option ((BackingId × AccessKey) × (ContentVersion × Nat))
  | .versionBeaten backing region version landed => some ((backing, region), (version, landed))
  | _ => none

def stamp : Observation → Option (StampSlot × StampValue)
  | .stampPublished slot value => some (slot, value)
  | _ => none

def event : Observation → Option (ResourceId × Nat)
  | .eventAdvanced event target => some (event, target)
  | _ => none

def fence : Observation → Option (ResourceId × Unit)
  | .fenceUpdated fence => some (fence, ())
  | _ => none

def frame : Observation → Option (ChannelId × MappingId)
  | .framePresented domain mapping => some (domain, mapping)
  | _ => none

def refusal : Observation → Option (IngressOrdinal × Refusal)
  | .refused ingress reason => some (ingress, reason)
  | _ => none

def unanswered : Observation → Option (IngressOrdinal × QueryKind × Stall)
  | .queryUnanswered ingress kind reason => some (ingress, kind, reason)
  | _ => none

end Observation

/-- What a trace did under one key, in order. -/
def historyAt {K V : Type} [DecidableEq K] (read : Observation → Option (K × V))
    (trace : List Observation) (key : K) : List V :=
  ((trace.filterMap read).filter fun e => e.1 = key).map Prod.snd

/-- Where a stamp slot came to rest. -/
def restingStamp (values : List StampValue) : Option StampValue :=
  values.foldl (fun standing value =>
    some (StampValue.later (standing.getD value) value)) none

/-- Where an event came to rest. -/
def restingEvent (values : List Nat) : Nat := values.foldl max 0

/-- Two traces come to the same under every key either of them has. -/
def agreeAt {K V W : Type} [DecidableEq K] [DecidableEq W]
    (read : Observation → Option (K × V)) (outcome : List V → W)
    (left right : List Observation) : Bool :=
  (left.filterMap read ++ right.filterMap read).all fun e =>
    outcome (historyAt read left e.1) = outcome (historyAt read right e.1)

/-- Two lists by ingress are the same once sorted. -/
def sameByIngress {V : Type} [DecidableEq V] (left right : List (IngressOrdinal × V)) : Bool :=
  left.mergeSort (fun a b => a.1 ≤ b.1) = right.mergeSort (fun a b => a.1 ≤ b.1)

/-- The furthest point published into each stamp slot and event so far. -/
abbrev Furthest := (StampSlot → Option StampValue) × (ResourceId → Option Nat)

/-- Every publication into a monotone point must advance it. -/
def advance (at_ : Furthest) : Observation → Option Furthest
  | .stampPublished slot value =>
    if (at_.1 slot).all fun standing => StampValue.follows value standing then
      some (Function.update at_.1 slot (some value), at_.2)
    else none
  | .eventAdvanced event target =>
    if (at_.2 event).all fun standing => standing < target then
      some (at_.1, Function.update at_.2 event (some target))
    else none
  | _ => some at_

def monotone (r : Run) : Except Divergence Unit :=
  match r.trace.foldlM advance (fun _ => none, fun _ => none) with
  | some _ => .ok ()
  | none => .error .nonMonotonePublication

/-- The spans in order do not overlap, and no stamp lies in one. -/
def spansApart (trace : List Observation) :
    Nat → List (IngressOrdinal × Nat × Nat) → Except Divergence Unit
  | _, [] => .ok ()
  | covered, (_, start, stop) :: rest =>
    if start < covered then .error .splitPublication
    else if ((trace.drop start).take (stop - start)).any fun o => o.stamp.isSome then
      .error .stampBeforeVersions
    else spansApart trace stop rest

/-- What a transaction makes visible at completion is made visible at once, and its completion
word comes after it. -/
def atomicPublication (r : Run) : Except Divergence Unit := do
  let spans := r.spans.mergeSort fun a b => a.2.1 ≤ b.2.1
  spansApart r.trace 0 spans
  if r.stampAt.all fun e =>
      (r.trace[e.2]?).any (fun o => o.stamp.isSome) &&
        ((spans.find? fun s => s.1 = e.1).map fun s => s.2.2).getD 0 ≤ e.2 then .ok ()
  else .error .stampBeforeVersions

def require (ok : Bool) (divergence : Divergence) : Except Divergence Unit :=
  if ok then .ok () else .error divergence

/-- Whether a parallel run means the same thing the serial one did.  The comparison of
declined packets is left out: only resource-lifecycle packets are declined. -/
def equivalent (serial parallel : Run) : Except Divergence Unit := do
  let left := serial.trace
  let right := parallel.trace
  require (serial.order.mergeSort = parallel.order.mergeSort) .differentTransactions
  require (agreeAt Observation.content id left right) .contentHistory
  require (agreeAt Observation.beaten id left right) .contentBeaten
  require (agreeAt Observation.stamp restingStamp left right) .stampOutcome
  require (agreeAt Observation.event restingEvent left right) .eventOutcome
  require (agreeAt Observation.fence List.length left right) .fenceUpdates
  require (sameByIngress (left.filterMap Observation.refusal)
    (right.filterMap Observation.refusal)) .refusals
  require (sameByIngress (left.filterMap Observation.unanswered)
    (right.filterMap Observation.unanswered)) .queriesUnanswered
  require (agreeAt Observation.frame id left right) .presentation
  require ((serial.domains ++ parallel.domains).all fun d =>
    serial.publishedBy d = parallel.publishedBy d) .publicationOrder
  monotone serial
  atomicPublication serial
  monotone parallel
  atomicPublication parallel

end Orchard.Plane
