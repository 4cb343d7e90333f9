/-
  Plane/Transaction.lean --- what a packet asks for once it has been decoded.

  `transaction.rs` of `reims-vgpu-core`, with the parts of `exec.rs`, `sync.rs` and `query.rs`
  that decide what a transaction waits for and what it makes visible.  The payloads are those
  whose effect lies in this plane: resource lifecycle acts on a model of its own.
-/
import Orchard.Plane.Publish

set_option autoImplicit false

namespace Orchard.Plane

open Orchard.Content

/-- A semantic lifetime of the device; a reset opens the next one. -/
abbrev SessionGeneration := Nat

def SessionGeneration.first : SessionGeneration := 1

abbrev MappingId := Nat

/-- Where a transaction stands in its channel and in the order of arrival. -/
structure TransactionIdentity where
  session : SessionGeneration
  domain : ChannelId
  domainSequence : ChannelSequence
  ingress : IngressOrdinal
deriving DecidableEq

/-! ## Records -/

inductive EventKind where
  | signal
  | wait
deriving DecidableEq

structure EventOp where
  kind : EventKind
  event : ResourceId
  value : Nat
deriving DecidableEq

/-- Whether a record moves an event's generation. -/
def EventOp.advances (op : EventOp) (generation : Nat) : Bool :=
  op.kind = .signal ∧ generation < op.value

inductive FenceKind where
  | update
  | wait
deriving DecidableEq

structure FenceOp where
  kind : FenceKind
  fence : ResourceId
deriving DecidableEq

/-- A record of a command stream.  Only synchronisation has an effect of its own; the others
contribute through the accesses of their packet. -/
inductive ResolvedOperation where
  | event (op : EventOp)
  | fence (op : FenceOp)
  | render
  | compute
  | blit
  | barrier
  | resourceState
  | indirectCommand
deriving DecidableEq

/-- What the records of a packet wait for, hazards apart. -/
inductive Prerequisite where
  | event (event : ResourceId) (value : Nat)
  | fence (fence : ResourceId)
deriving DecidableEq

/-- One packet of GPU work. -/
structure ExecWork where
  streams : List (List ResolvedOperation)
  accesses : List AccessIntent
  pipelineLeases : List ResourceId
  prerequisites : List Prerequisite
deriving DecidableEq

/-- Every record, in execution order. -/
def ExecWork.records (work : ExecWork) : List ResolvedOperation := work.streams.flatten

/-! ## Content versions -/

/-- A version a transaction makes current, and the memory it covers. -/
structure VersionPublication where
  backing : BackingId
  region : AccessKey
  target : ContentVersion
deriving DecidableEq

/-- The version an access makes current.  A heap or an unnamed access claims none: neither
names bytes. -/
def AccessIntent.publication (access : AccessIntent) : Option VersionPublication :=
  match access.outputContentVersion, access.key.resource with
  | some target, some r => some ⟨r.backing, access.key, target⟩
  | _, _ => none

/-- The versions a list of accesses makes current. -/
def publishedVersions (accesses : List AccessIntent) : List VersionPublication :=
  accesses.filterMap AccessIntent.publication

/-! ## Queries -/

inductive QueryKind where
  | deviceInfoLegacy
  | deviceInfo
  | computeInfo
  | heapTextureSizeAndAlign
deriving DecidableEq

structure ReplyDestination where
  backing : BackingId
  bytes : ByteRange
deriving DecidableEq

/-- The shape a reply must have; `count` is the number of pairs the guest consumes. -/
inductive ReplyShape where
  | keyValue (count : Nat)
  | fixed (bytes : Nat)
deriving DecidableEq

structure QueryRequest where
  kind : QueryKind
  destination : ReplyDestination
  reply : ReplyShape
deriving DecidableEq

/-- Why a query was not answered. -/
inductive Stall where
  | replyTooLarge (needed available : Nat)
  | noAnswer
  | keyValueReplyMalformed (bytes allowed : Nat)
  | fixedReplyWrongSize (bytes expected : Nat)
deriving DecidableEq

/-- `info_reply::PAIR_LEN`. -/
def pairLen : Nat := 8

/-- What is wrong with a reply of some length, before the destination is looked at. -/
def QueryRequest.misshapen (request : QueryRequest) (len : Nat) : Option Stall :=
  match request.reply with
  | .keyValue count =>
    if count * pairLen < len ∨ len % pairLen ≠ 0 then
      some (.keyValueReplyMalformed len (count * pairLen))
    else none
  | .fixed bytes => if len ≠ bytes then some (.fixedReplyWrongSize len bytes) else none

/-- `PendingQuery::answer`: the window a reply of some length is written to. -/
def QueryRequest.answer (request : QueryRequest) (len : Nat) : Except Stall ReplyDestination :=
  match request.misshapen len with
  | some stall => .error stall
  | none =>
    if request.destination.bytes.length < len then
      .error (.replyTooLarge len request.destination.bytes.length)
    else .ok ⟨request.destination.backing, ⟨request.destination.bytes.offset, len⟩⟩

/-- A question, and the version its answer makes current. -/
structure QueryPayload where
  request : QueryRequest
  domain : ChannelId
  output : Option ContentVersion
deriving DecidableEq

/-- A query writes its destination. -/
def QueryPayload.access (query : QueryPayload) : AccessIntent where
  domain := query.domain
  key := .range ⟨query.request.destination.backing, none⟩ query.request.destination.bytes
  mode := .write
  outputContentVersion := query.output

/-! ## Transactions -/

/-- A frame to show, and the reads of its surface. -/
structure PresentPayload where
  mapping : MappingId
  accesses : List AccessIntent
  named : accesses ≠ []
  reads : ∀ a ∈ accesses, a.mode.writes = false
deriving DecidableEq

/-- Why an access list does not belong to a present. -/
inductive PresentMismatch where
  | notTheTarget (shown named : MappingId)
  | writes (mode : AccessMode)
  | nothingNamed
deriving DecidableEq

/-- The first access that names another mapping or writes. -/
def PresentPayload.mismatch (mapping : MappingId) :
    List (MappingId × AccessIntent) → Option PresentMismatch
  | [] => none
  | (named, access) :: rest =>
    if named ≠ mapping then some (.notTheTarget mapping named)
    else if access.mode.writes then some (.writes access.mode)
    else mismatch mapping rest

theorem PresentPayload.reads_of_mismatch {mapping : MappingId}
    {resolved : List (MappingId × AccessIntent)} (h : mismatch mapping resolved = none) :
    ∀ a ∈ resolved.map Prod.snd, a.mode.writes = false := by
  induction resolved with
  | nil => intro a ha; cases ha
  | cons e rest ih =>
    obtain ⟨named, access⟩ := e
    unfold mismatch at h
    split at h
    · cases h
    · split at h
      · cases h
      · rename_i hreads
        intro a ha
        rcases List.mem_cons.mp ha with rfl | ha
        · exact Bool.eq_false_iff.mpr hreads
        · exact ih h a ha

/-- `PresentPayload::new`. -/
def PresentPayload.new (mapping : MappingId) (resolved : List (MappingId × AccessIntent)) :
    Except PresentMismatch PresentPayload :=
  if hnamed : resolved = [] then .error .nothingNamed
  else match hmismatch : mismatch mapping resolved with
    | some mismatch => .error mismatch
    | none => .ok
      { mapping := mapping
        accesses := resolved.map Prod.snd
        named := by simpa using hnamed
        reads := reads_of_mismatch hmismatch }

/-- What a packet carries.  Resource-lifecycle packets are left out: what they do to the
object tables is another model. -/
inductive Payload where
  | exec (work : ExecWork)
  | query (query : QueryPayload)
  | present (present : PresentPayload)
  | control
deriving DecidableEq

def Payload.accesses : Payload → List AccessIntent
  | .exec w => w.accesses
  | .query q => [q.access]
  | .present p => p.accesses
  | .control => []

def Payload.prerequisites : Payload → List Prerequisite
  | .exec w => w.prerequisites
  | .query _ | .present _ | .control => []

def Payload.records : Payload → List ResolvedOperation
  | .exec w => w.records
  | .query _ | .present _ | .control => []

/-- One admitted packet. -/
structure DeviceTransaction where
  identity : TransactionIdentity
  stampWaits : List StampWait
  completion : Option CompletionStamp
  payload : Payload
deriving DecidableEq

namespace DeviceTransaction

abbrev ingress (tx : DeviceTransaction) : IngressOrdinal := tx.identity.ingress

abbrev domain (tx : DeviceTransaction) : ChannelId := tx.identity.domain

abbrev sequence (tx : DeviceTransaction) : ChannelSequence := tx.identity.domainSequence

abbrev accesses (tx : DeviceTransaction) : List AccessIntent := tx.payload.accesses

end DeviceTransaction

end Orchard.Plane
