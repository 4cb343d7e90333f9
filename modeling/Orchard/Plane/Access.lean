/-
  Plane/Access.lean --- what an operation says it touches.

  `access.rs` of `reims-vgpu-core`: the ladder of keys an access can be named by, from an
  exact range to nothing but its submission domain, and the test whether two accesses have
  to be ordered.
-/
import Orchard.Content.Ledger

set_option autoImplicit false

namespace Orchard.Plane

open Orchard.Content

abbrev ChannelId := Nat

/-- The position of a transaction in the order of arrival. -/
abbrev IngressOrdinal := Nat

/-- A heap, and the generation of its membership when the record was decoded. -/
structure HeapId where
  id : Nat
  membershipGeneration : Nat
deriving DecidableEq, Repr

/-- The same heap, whatever its membership was. -/
def HeapId.sameHeap (h k : HeapId) : Bool := h.id == k.id

def u32Max : Nat := 2 ^ 32 - 1

def spanOverlaps (aBase aCount bBase bCount : Nat) : Bool :=
  if aCount = 0 ∨ bCount = 0 then false
  else decide (aBase < min u32Max (bBase + bCount)) && decide (bBase < min u32Max (aBase + aCount))

/-- A window of an image's levels and slices, in one plane. -/
structure SubresourceRange where
  baseLevel : Nat
  levelCount : Nat
  baseSlice : Nat
  sliceCount : Nat
  plane : Nat
deriving DecidableEq, Repr

def SubresourceRange.overlaps (s t : SubresourceRange) : Bool :=
  if s.plane ≠ t.plane then false
  else spanOverlaps s.baseLevel s.levelCount t.baseLevel t.levelCount &&
    spanOverlaps s.baseSlice s.sliceCount t.baseSlice t.sliceCount

/-- A resource's backing, and the heap it was allocated from. -/
structure ResourceKey where
  backing : BackingId
  heap : Option HeapId
deriving DecidableEq

/-- How precisely an access is known. -/
inductive AccessKey where
  | range (resource : ResourceKey) (bytes : ByteRange)
  | subresource (resource : ResourceKey) (window : SubresourceRange)
  | whole (resource : ResourceKey)
  | heap (heap : HeapId)
  | domainOnly
deriving DecidableEq

namespace AccessKey

/-- The rung of the precision ladder. -/
def rung : AccessKey → Nat
  | range .. | subresource .. => 1
  | whole _ | heap _ => 2
  | domainOnly => 3

def resource : AccessKey → Option ResourceKey
  | range r _ | subresource r _ | whole r => some r
  | heap _ | domainOnly => none

/-- Whether the memory two keys could refer to overlaps. -/
def mayAlias : AccessKey → AccessKey → Bool
  | domainOnly, _ | _, domainOnly => true
  | heap a, heap b => a.sameHeap b
  | heap h, key | key, heap h =>
    key.resource.any fun r => r.heap.any fun rh => rh.sameHeap h
  | a, b =>
    match a.resource, b.resource with
    | some ra, some rb =>
      if ra.backing ≠ rb.backing then false
      else match a, b with
        | range _ x, range _ y => x.overlaps y
        | subresource _ x, subresource _ y => x.overlaps y
        | _, _ => true
    | _, _ => false

/-- The heap a key names or its resource was allocated from. -/
def heapOf : AccessKey → Option HeapId
  | heap h => some h
  | key => key.resource.bind ResourceKey.heap

theorem exists_of_any_sameHeap {o : Option HeapId} {h : HeapId}
    (hany : (o.any fun k => k.id == h.id) = true) : ∃ k, o = some k ∧ k.id = h.id := by
  cases o with
  | none => cases hany
  | some k => exact ⟨k, rfl, beq_iff_eq.mp hany⟩

/-- Keys that may alias name one backing or one heap, unless one of them names nothing. -/
theorem mayAlias_cases {a b : AccessKey} (h : a.mayAlias b = true) :
    a = domainOnly ∨ b = domainOnly ∨
      (∃ ra rb, a.resource = some ra ∧ b.resource = some rb ∧ ra.backing = rb.backing) ∨
      ∃ ha hb, a.heapOf = some ha ∧ b.heapOf = some hb ∧ ha.id = hb.id := by
  cases a <;> cases b <;> simp_all [mayAlias, resource, heapOf, HeapId.sameHeap]
  -- what is left is a heap against a resource
  all_goals
    obtain ⟨k, hk, hid⟩ := exists_of_any_sameHeap h
    exact ⟨k, hk, by omega⟩

end AccessKey

/-- What an access does to the memory it names. -/
inductive AccessMode where
  | read
  | write
  | readWrite
  | unknown
deriving DecidableEq, Repr

def AccessMode.writes : AccessMode → Bool
  | .read => false
  | .write | .readWrite | .unknown => true

/-- One access an operation declares, in its submission domain, with the version it makes
current if it claims to produce one. -/
structure AccessIntent where
  domain : ChannelId
  key : AccessKey
  mode : AccessMode
  outputContentVersion : Option ContentVersion
deriving DecidableEq

/-- Whether an earlier access and a later one have to be ordered. -/
def requiresEdge (earlier later : AccessIntent) : Bool :=
  if earlier.domain ≠ later.domain then false
  else if !earlier.mode.writes && !later.mode.writes then false
  else earlier.key.mayAlias later.key

theorem domain_of_requiresEdge {a b : AccessIntent} (h : requiresEdge a b = true) :
    a.domain = b.domain := by
  unfold requiresEdge at h
  split at h
  · cases h
  · exact not_not.mp ‹_›

theorem mayAlias_of_requiresEdge {a b : AccessIntent} (h : requiresEdge a b = true) :
    a.key.mayAlias b.key = true := by
  unfold requiresEdge at h
  split at h
  · cases h
  · split at h
    · cases h
    · exact h

end Orchard.Plane
