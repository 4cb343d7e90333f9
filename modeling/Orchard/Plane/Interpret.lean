/-
  Plane/Interpret.lean --- what a guest is owed.

  `interpret.rs` of `reims-vgpu-core`: the reference interpreter applies transactions one at
  a time and writes down everything a guest could observe.  A transaction's content versions
  become visible when it completes; its completion stamp is handed back, and becomes visible
  when ordered publication pays it.
-/
import Orchard.Plane.Transaction

set_option autoImplicit false

namespace Orchard.Plane

open Orchard.Content

/-- Why the interpreter would not run a transaction. -/
inductive Refusal where
  | unmeetableWait
  | staleGeneration
deriving DecidableEq

/-- Something a guest could observe. -/
inductive Observation where
  | versionPublished (backing : BackingId) (region : AccessKey) (version : ContentVersion)
  | stampPublished (slot : StampSlot) (value : StampValue)
  | eventAdvanced (event : ResourceId) (target : Nat)
  | fenceUpdated (fence : ResourceId)
  | versionBeaten (backing : BackingId) (region : AccessKey) (version : ContentVersion)
      (landed : Nat)
  | refused (ingress : IngressOrdinal) (reason : Refusal)
  | framePresented (domain : ChannelId) (mapping : MappingId)
  | queryUnanswered (ingress : IngressOrdinal) (kind : QueryKind) (reason : Stall)
deriving DecidableEq

/-- The reference interpreter; `content` is the content authority of its model. -/
structure Interpreter where
  generation : SessionGeneration
  content : ContentLedger
  /-- How long the answer to each question is, where there is a source of answers. -/
  answers : Option (QueryRequest → Option Nat)
  events : ResourceId → Option Nat
  fences : ResourceId → Option Nat
  stamps : StampSlot → Option StampValue
  trace : List Observation
  ran : Nat
  refused : Nat

/-- The bytes a write access covers, when it names some.  A range that starts at `u64::MAX`
names none whatever its length. -/
def writtenBytes (content : ContentLedger) : AccessKey → Option NamedRange
  | .range _ bytes => if h : bytes.Named then some ⟨bytes, h⟩ else none
  | .whole r => content.extent r.backing
  | .subresource .. | .heap _ | .domainOnly => none

namespace Interpreter

def new : Interpreter where
  generation := .first
  content := .new
  answers := none
  events _ := none
  fences _ := none
  stamps _ := none
  trace := []
  ran := 0
  refused := 0

def eventGeneration (i : Interpreter) (event : ResourceId) : Nat := (i.events event).getD 0

def observe (i : Interpreter) (o : Observation) : Interpreter :=
  { i with trace := i.trace ++ [o] }

def refuse (i : Interpreter) (ingress : IngressOrdinal) (reason : Refusal) : Interpreter :=
  { i with refused := i.refused + 1 }.observe (.refused ingress reason)

def countRun (i : Interpreter) : Interpreter := { i with ran := i.ran + 1 }

/-- Whether what has been published meets a wait of the envelope. -/
def meets (i : Interpreter) (wait : StampWait) : Bool :=
  (i.stamps wait.slot).any fun published => !StampValue.follows wait.value published

/-- Whether a wait of the records is met. -/
def satisfies (i : Interpreter) : Prerequisite → Bool
  | .event event value => value ≤ i.eventGeneration event
  | .fence fence => (i.fences fence).isSome

/-- The first prerequisite the transaction cannot meet. -/
def unmetPrerequisite (i : Interpreter) (tx : DeviceTransaction) : Option Refusal :=
  if tx.stampWaits.all i.meets && tx.payload.prerequisites.all i.satisfies then none
  else some .unmeetableWait

def applyRecord (i : Interpreter) : ResolvedOperation → Interpreter
  | .event op =>
    if op.advances (i.eventGeneration op.event) then
      { i with events := Function.update i.events op.event (some op.value) }.observe
        (.eventAdvanced op.event op.value)
    else i
  | .fence op =>
    match op.kind with
    | .update =>
      let count := (i.fences op.fence).getD 0 + 1
      { i with fences := Function.update i.fences op.fence (some count) }.observe
        (.fenceUpdated op.fence)
    | .wait => i
  | .render | .compute | .blit | .barrier | .resourceState | .indirectCommand => i

/-- Make one version current, and observe what that did. -/
def publishVersion (i : Interpreter) (p : VersionPublication) : Interpreter :=
  let published := Observation.versionPublished p.backing p.region p.target
  match writtenBytes i.content p.region with
  | none => i.observe published
  | some bytes =>
    let out := i.content.materialize p.backing bytes p.target .deviceOwned
    let i := { i with content := out.1 }
    if out.2.wasPartlyStale then
      let i := i.observe (.versionBeaten p.backing p.region p.target out.2.taken.len)
      -- nothing became current, so nothing was published
      if out.2.isEmpty then i else i.observe published
    else i.observe published

/-- The end of a query: the version of the reply's own window, or the reason there is none. -/
def answerQuery (i : Interpreter) (ingress : IngressOrdinal) (query : QueryPayload) :
    Interpreter :=
  let stalled (reason : Stall) := i.observe (.queryUnanswered ingress query.request.kind reason)
  match i.answers.bind fun bytes => bytes query.request with
  | none => stalled .noAnswer
  | some len =>
    match query.request.answer len with
    | .error stall => stalled stall
    | .ok reply =>
      match query.output with
      | some target =>
        i.publishVersion ⟨reply.backing, .range ⟨reply.backing, none⟩ reply.bytes, target⟩
      | none => i

/-- The work of a transaction whose prerequisites are met: its records in order, the frame it
shows, and then the versions that say its bytes are current. -/
def work (i : Interpreter) (tx : DeviceTransaction) : Interpreter :=
  let i := tx.payload.records.foldl applyRecord i
  match tx.payload with
  | .query q => (i.answerQuery tx.ingress q).countRun
  | .present p =>
    ((publishedVersions tx.accesses).foldl publishVersion
      (i.observe (.framePresented tx.domain p.mapping))).countRun
  | .exec _ | .control => ((publishedVersions tx.accesses).foldl publishVersion i).countRun

/-- Apply a transaction's work and publish everything that becomes visible when it completes.
The answer is the stamp it now owes. -/
def complete (i : Interpreter) (tx : DeviceTransaction) :
    Interpreter × Except Refusal (Option CompletionStamp) :=
  if tx.identity.session ≠ i.generation then
    (i.refuse tx.ingress .staleGeneration, .error .staleGeneration)
  else
    match i.unmetPrerequisite tx with
    | some refusal => (i.refuse tx.ingress refusal, .error refusal)
    | none => (i.work tx, .ok tx.completion)

/-- Make a completion word readable, if it advances its slot. -/
def publish (i : Interpreter) (stamp : CompletionStamp) : Interpreter :=
  if (i.stamps stamp.slot).all fun standing => StampValue.follows stamp.value standing then
    { i with stamps := Function.update i.stamps stamp.slot (some stamp.value) }.observe
      (.stampPublished stamp.slot stamp.value)
  else i

end Interpreter

end Orchard.Plane
