/-
  Plane/Ready.lean --- when an admitted transaction may begin.

  `ready.rs` of `reims-vgpu-core`: a transaction waits for the earlier ones it must not
  overtake, for stamp points and for pipelines.  The scheduler counts the first, lists the
  other two, and keeps an index for each kind so that no event scans the pending ones.
  What it answers is what a board with every transaction's unmet prerequisites would.
-/
import Mathlib.Data.List.Dedup
import Mathlib.Logic.Function.Basic
import Orchard.Plane.Access

set_option autoImplicit false

namespace Orchard.Plane

open Std

/-! ## Stamps -/

abbrev StampSlot := Nat

/-- A point of a wrapping timeline. -/
abbrev StampValue := BitVec 32

namespace StampValue

/-- `self.0.wrapping_sub(other.0) as i32 >= 0`. -/
def reached (v w : StampValue) : Bool := decide (0 ≤ (v - w).toInt)

def follows (v w : StampValue) : Bool := decide (0 < (v - w).toInt)

def later (v w : StampValue) : StampValue := if follows v w then v else w

/-- The last of some values in the wrapping order, taken in turn. -/
def latest : List StampValue → Option StampValue
  | [] => none
  | v :: rest => some (rest.foldl later v)

end StampValue

structure CompletionStamp where
  slot : StampSlot
  value : StampValue
deriving DecidableEq

structure StampWait where
  slot : StampSlot
  value : StampValue
deriving DecidableEq

def StampWait.satisfiedBy (wait : StampWait) (published : StampValue) : Bool :=
  StampValue.reached published wait.value

/-- A slot of the object list, and the generation it was resolved in. -/
structure ResourceId where
  slot : Nat
  generation : Nat
deriving DecidableEq

/-! ## The scheduler -/

/-- One admitted transaction's unfinished business. -/
structure Pending where
  remainingHazards : Nat
  stampWaits : List StampWait
  registeredSlots : List StampSlot
  pipelineWaits : List ResourceId
  completion : Option CompletionStamp

def Pending.isReady (p : Pending) : Bool :=
  p.remainingHazards == 0 && p.stampWaits.isEmpty && p.pipelineWaits.isEmpty

/-- The readiness service.  An absent set of an index is an empty one. -/
structure Scheduler where
  pending : TreeMap IngressOrdinal Pending
  published : StampSlot → Option StampValue
  waitersBySlot : StampSlot → TreeSet IngressOrdinal
  waitersByPipeline : ResourceId → TreeSet IngressOrdinal
  dependents : IngressOrdinal → List IngressOrdinal
  ready : TreeSet IngressOrdinal

/-- Enter a transaction under each of some keys of an index. -/
def fileUnder {K : Type} [DecidableEq K] (index : K → TreeSet IngressOrdinal)
    (keys : List K) (ordinal : IngressOrdinal) : K → TreeSet IngressOrdinal :=
  keys.foldl (fun index key => Function.update index key ((index key).insert ordinal)) index

/-- Take a transaction out from under each of some keys of an index. -/
def unfile {K : Type} [DecidableEq K] (index : K → TreeSet IngressOrdinal)
    (keys : List K) (ordinal : IngressOrdinal) : K → TreeSet IngressOrdinal :=
  keys.foldl (fun index key => Function.update index key ((index key).erase ordinal)) index

/-- Note under each of some transactions that `ordinal` must not overtake it. -/
def hold (dependents : IngressOrdinal → List IngressOrdinal) (live : List IngressOrdinal)
    (ordinal : IngressOrdinal) : IngressOrdinal → List IngressOrdinal :=
  live.foldl (fun index dep => Function.update index dep (index dep ++ [ordinal])) dependents

namespace Scheduler

def new : Scheduler := ⟨∅, fun _ => none, fun _ => ∅, fun _ => ∅, fun _ => [], ∅⟩

/-- Whether a wait is discharged by what has been published. -/
def isPublished (s : Scheduler) (wait : StampWait) : Bool :=
  (s.published wait.slot).any wait.satisfiedBy

/-- The value standing in a slot. -/
def publishedValue (s : Scheduler) (slot : StampSlot) : Option StampValue := s.published slot

/-- Admit a transaction with its prerequisites; the answer is whether it is ready. -/
def admitTransaction (s : Scheduler) (ordinal : IngressOrdinal) (hazardWaits : List IngressOrdinal)
    (stampWaits : List StampWait) (pipelineWaits : List ResourceId)
    (completion : Option CompletionStamp) : Scheduler × Bool :=
  let live := hazardWaits.filter s.pending.contains
  let unmet := stampWaits.filter fun w => !s.isPublished w
  let ready := live.isEmpty && unmet.isEmpty && pipelineWaits.isEmpty
  ({ s with
      waitersBySlot := fileUnder s.waitersBySlot (unmet.map StampWait.slot) ordinal
      dependents := hold s.dependents live ordinal
      waitersByPipeline := fileUnder s.waitersByPipeline pipelineWaits ordinal
      pending := s.pending.insert ordinal
        { remainingHazards := live.length
          stampWaits := unmet
          registeredSlots := (unmet.map StampWait.slot).mergeSort.dedup
          pipelineWaits := pipelineWaits
          completion := completion }
      ready := if ready then s.ready.insert ordinal else s.ready },
    ready)

/-- Take a transaction out of the slot index it was filed under. -/
def unregisterSlots (s : Scheduler) (ordinal : IngressOrdinal) (slots : List StampSlot) :
    Scheduler :=
  { s with waitersBySlot := unfile s.waitersBySlot slots ordinal }

/-- The body of the three loops that release transactions: discharge something of a pending
one, and note it if that made it ready. -/
def touch (f : Pending → Pending) (s : Scheduler) (ordinal : IngressOrdinal) : Scheduler :=
  match s.pending[ordinal]? with
  | none => s
  | some p =>
    { s with
      pending := s.pending.insert ordinal (f p)
      ready := if (f p).isReady then s.ready.insert ordinal else s.ready }

/-- A completed transaction leaves every index it is in. -/
def leave (s : Scheduler) (ordinal : IngressOrdinal) (done : Pending) : Scheduler :=
  let s := { s with pending := s.pending.erase ordinal, ready := s.ready.erase ordinal }
  let s := s.unregisterSlots ordinal done.registeredSlots
  { s with
    waitersByPipeline := unfile s.waitersByPipeline done.pipelineWaits ordinal
    dependents := Function.update s.dependents ordinal [] }

/-- One hazard less. -/
def countDown (p : Pending) : Pending := { p with remainingHazards := p.remainingHazards - 1 }

/-- Complete a transaction: release what waited on it and hand back the stamp it owes.
`none` is the panic on a transaction that is not pending. -/
def complete (s : Scheduler) (ordinal : IngressOrdinal) :
    Option (Scheduler × Option CompletionStamp) := do
  let done ← s.pending[ordinal]?
  return ((s.dependents ordinal).foldl (touch countDown) (s.leave ordinal done), done.completion)

/-- What publishing a value in a slot leaves of a transaction's waits. -/
def discharge (slot : StampSlot) (value : StampValue) (p : Pending) : Pending :=
  { p with stampWaits := p.stampWaits.filter fun w => w.slot ≠ slot ∨ !w.satisfiedBy value }

/-- One waiter of a slot that is published; those with no wait left are remembered. -/
def publishTo (slot : StampSlot) (value : StampValue)
    (acc : Scheduler × List (IngressOrdinal × List StampSlot)) (w : IngressOrdinal) :
    Scheduler × List (IngressOrdinal × List StampSlot) :=
  let s := acc.1.touch (discharge slot value) w
  match s.pending[w]? with
  | some p => if p.stampWaits.isEmpty then (s, acc.2 ++ [(w, p.registeredSlots)]) else (s, acc.2)
  | none => (s, acc.2)

/-- Publish a stamp value without completing a transaction. -/
def publish (s : Scheduler) (stamp : CompletionStamp) : Scheduler :=
  let value := StampValue.later ((s.published stamp.slot).getD stamp.value) stamp.value
  let s := { s with published := Function.update s.published stamp.slot (some value) }
  let out := (s.waitersBySlot stamp.slot).toList.foldl (publishTo stamp.slot value) (s, [])
  out.2.foldl (fun s w => s.unregisterSlots w.1 w.2) out.1

def dropPipeline (pipeline : ResourceId) (p : Pending) : Pending :=
  { p with pipelineWaits := p.pipelineWaits.filter (· ≠ pipeline) }

/-- A pipeline became usable: discharge every transaction waiting on it. -/
def pipelineReady (s : Scheduler) (pipeline : ResourceId) : Scheduler :=
  let waiters := (s.waitersByPipeline pipeline).toList
  let s := { s with waitersByPipeline := Function.update s.waitersByPipeline pipeline ∅ }
  waiters.foldl (touch (dropPipeline pipeline)) s

/-- A pipeline will never be usable: name the transactions that can never be ready. -/
def pipelineRefused (s : Scheduler) (pipeline : ResourceId) :
    Scheduler × List IngressOrdinal :=
  ({ s with waitersByPipeline := Function.update s.waitersByPipeline pipeline ∅ },
    (s.waitersByPipeline pipeline).toList.filter s.pending.contains)

/-- Transactions waiting on a pipeline that is still being built. -/
def waitingOnPipelines (s : Scheduler) : Nat :=
  s.pending.toList.countP fun e => !e.2.pipelineWaits.isEmpty

/-- Take the transactions that have become ready since the last call. -/
def takeReady (s : Scheduler) : Scheduler × List IngressOrdinal :=
  ({ s with ready := ∅ }, s.ready.toList)

/-- `pending`: admitted transactions that have not completed. -/
def pendingCount (s : Scheduler) : Nat := s.pending.size

/-- The body of the loop in `stalled` over what the pending transactions will publish. -/
def noteOwed (publishable : StampSlot → Option StampValue) (p : Pending) :
    StampSlot → Option StampValue :=
  match p.completion with
  | none => publishable
  | some c =>
    Function.update publishable c.slot
      (some ((publishable c.slot).elim c.value fun v => StampValue.later v c.value))

/-- Transactions waiting on a stamp point no admitted transaction will ever publish. -/
def stalled (s : Scheduler) : List IngressOrdinal :=
  let publishable := (s.pending.toList.map Prod.snd).foldl noteOwed fun _ => none
  (s.pending.toList.filter fun e => e.2.stampWaits.any fun w =>
    !(publishable w.slot).any fun highest => StampValue.reached highest w.value).map Prod.fst

end Scheduler

/-! ## The board -/

/-- A pending transaction with its unmet prerequisites written out. -/
structure Job where
  hazards : List IngressOrdinal
  stamps : List StampWait
  pipelines : List ResourceId
  /-- The pipelines among them that have been refused. -/
  refused : List ResourceId
  completion : Option CompletionStamp
  /-- It has been handed to a caller. -/
  taken : Bool

def Job.isReady (j : Job) : Bool :=
  j.hazards.isEmpty && j.stamps.isEmpty && j.pipelines.isEmpty

/-- The job without one of its hazards. -/
def Job.release (d : IngressOrdinal) (j : Job) : Job :=
  { j with hazards := j.hazards.filter (· ≠ d) }

/-- The job without the waits that a value in a slot satisfies. -/
def Job.discharge (slot : StampSlot) (value : StampValue) (j : Job) : Job :=
  { j with stamps := j.stamps.filter fun w => w.slot ≠ slot ∨ !w.satisfiedBy value }

/-- The job once a pipeline is usable, unless it had been refused. -/
def Job.dropPipeline (pipeline : ResourceId) (j : Job) : Job :=
  if pipeline ∈ j.refused then j
  else { j with pipelines := j.pipelines.filter (· ≠ pipeline) }

/-- The job waits for a pipeline that has not been refused. -/
def Job.waitsFor (pipeline : ResourceId) (j : Job) : Bool :=
  pipeline ∈ j.pipelines && pipeline ∉ j.refused

/-- The job once a pipeline it waits for is refused. -/
def Job.refuse (pipeline : ResourceId) (j : Job) : Job :=
  if j.waitsFor pipeline then { j with refused := pipeline :: j.refused } else j

def Job.take (j : Job) : Job :=
  if j.isReady then { j with taken := true } else j

/-- The pending transactions in ingress order, and the stamps that stand. -/
structure Board where
  jobs : List (IngressOrdinal × Job)
  published : StampSlot → Option StampValue

namespace Board

def new : Board := ⟨[], fun _ => none⟩

def mapJobs (b : Board) (f : Job → Job) : Board :=
  { b with jobs := b.jobs.map fun e => (e.1, f e.2) }

def pendingOrdinals (b : Board) : List IngressOrdinal := b.jobs.map Prod.fst

/-- The ordinals of the jobs that meet a condition. -/
def select (b : Board) (p : Job → Bool) : List IngressOrdinal :=
  (b.jobs.filter fun e => p e.2).map Prod.fst

def isPublished (b : Board) (wait : StampWait) : Bool :=
  (b.published wait.slot).any wait.satisfiedBy

def admitTransaction (b : Board) (ordinal : IngressOrdinal) (hazardWaits : List IngressOrdinal)
    (stampWaits : List StampWait) (pipelineWaits : List ResourceId)
    (completion : Option CompletionStamp) : Board × Bool :=
  let job : Job :=
    { hazards := hazardWaits.filter fun o => o ∈ b.pendingOrdinals
      stamps := stampWaits.filter fun w => !b.isPublished w
      pipelines := pipelineWaits
      refused := []
      completion := completion
      taken := false }
  ({ b with jobs := b.jobs ++ [(ordinal, job)] }, job.isReady)

/-- The board without a transaction, and without it in everybody's hazards. -/
def remove (b : Board) (ordinal : IngressOrdinal) : Board :=
  { b with jobs := b.jobs.filter fun e => e.1 ≠ ordinal }.mapJobs (Job.release ordinal)

def complete (b : Board) (ordinal : IngressOrdinal) :
    Option (Board × Option CompletionStamp) :=
  match b.jobs.find? fun e => e.1 = ordinal with
  | none => none
  | some e => some (b.remove ordinal, e.2.completion)

def publish (b : Board) (stamp : CompletionStamp) : Board :=
  let value := StampValue.later ((b.published stamp.slot).getD stamp.value) stamp.value
  { b with published := Function.update b.published stamp.slot (some value) }.mapJobs
    (Job.discharge stamp.slot value)

def pipelineReady (b : Board) (pipeline : ResourceId) : Board :=
  b.mapJobs (Job.dropPipeline pipeline)

def pipelineRefused (b : Board) (pipeline : ResourceId) : Board × List IngressOrdinal :=
  (b.mapJobs (Job.refuse pipeline), b.select (Job.waitsFor pipeline))

/-- Every transaction is handed out once, when nothing it waits for is left. -/
def takeReady (b : Board) : Board × List IngressOrdinal :=
  (b.mapJobs Job.take, b.select fun j => j.isReady && !j.taken)

def waitingOnPipelines (b : Board) : Nat := (b.select fun j => !j.pipelines.isEmpty).length

/-- The values the pending transactions owe to a slot, in ingress order. -/
def owed (b : Board) (slot : StampSlot) : List StampValue :=
  b.jobs.filterMap fun e => (e.2.completion.filter fun c => c.slot = slot).map
    CompletionStamp.value

/-- The transactions with a wait that the latest value owed to its slot does not reach. -/
def stalled (b : Board) : List IngressOrdinal :=
  b.select fun j => j.stamps.any fun w =>
    !(StampValue.latest (b.owed w.slot)).any fun highest => StampValue.reached highest w.value

end Board

end Orchard.Plane
