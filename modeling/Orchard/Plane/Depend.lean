/-
  Plane/Depend.lean --- which earlier transactions a new one must wait for.

  `depend.rs` of `reims-vgpu-core`: live accesses are filed under what they name, so that an
  admission meets only those that could conflict, retirement marks them and compaction
  rebuilds the indexes.  What the graph answers is what a scan of all live accesses would.
-/
import Mathlib.Data.List.Dedup
import Mathlib.Data.List.Sort
import Mathlib.Logic.Function.Basic
import Orchard.Foundation.Execution
import Orchard.Plane.Access

set_option autoImplicit false

namespace Orchard.Plane

open Orchard.Content Orchard.Foundation

/-- One access, and the transaction that declared it. -/
structure GraphEntry where
  ordinal : IngressOrdinal
  intent : AccessIntent
  live : Bool
deriving DecidableEq

/-- What admitting transactions has cost so far. -/
structure GraphCensus where
  accesses : Nat := 0
  edges : Nat := 0
  byRung : List Nat := [0, 0, 0]
  domainOnlyComparisons : Nat := 0
  edgesFromUnknownMode : Nat := 0
deriving DecidableEq

/-- The live hazard state.  An absent bucket of an index is an empty one. -/
structure DependencyGraph where
  entries : List GraphEntry
  byBacking : BackingId → List Nat
  byHeap : Nat → List Nat
  byDomain : ChannelId → List Nat
  domainOnly : ChannelId → List Nat
  byOrdinal : IngressOrdinal → List Nat
  census : GraphCensus

/-- `index.entry(key).or_default().push(i)`. -/
def pushAt {K : Type} [DecidableEq K] (index : K → List Nat) (key : K) (i : Nat) :
    K → List Nat :=
  Function.update index key (index key ++ [i])

namespace DependencyGraph

def new : DependencyGraph :=
  ⟨[], fun _ => [], fun _ => [], fun _ => [], fun _ => [], fun _ => [], {}⟩

/-- The entries an access could conflict with. -/
def gather (g : DependencyGraph) (intent : AccessIntent) : List Nat :=
  g.domainOnly intent.domain ++
    match intent.key with
    | .domainOnly => g.byDomain intent.domain
    | .heap h => g.byHeap h.id
    | .range r _ | .subresource r _ | .whole r =>
      g.byBacking r.backing ++
        match r.heap with
        | some h => g.byHeap h.id
        | none => []

/-- The comparisons `gather` charges to unknown participation. -/
def comparisons (g : DependencyGraph) (intent : AccessIntent) : Nat :=
  (g.domainOnly intent.domain).length +
    match intent.key with
    | .domainOnly => (g.byDomain intent.domain).length
    | _ => 0

def insert (g : DependencyGraph) (ordinal : IngressOrdinal) (intent : AccessIntent) :
    DependencyGraph :=
  let idx := g.entries.length
  let g := { g with
    entries := g.entries ++ ([⟨ordinal, intent, true⟩] : List GraphEntry)
    census.accesses := g.census.accesses + 1
    census.byRung := g.census.byRung.modify (intent.key.rung - 1) (· + 1)
    byDomain := pushAt g.byDomain intent.domain idx
    byOrdinal := pushAt g.byOrdinal ordinal idx }
  match intent.key with
  | .domainOnly => { g with domainOnly := pushAt g.domainOnly intent.domain idx }
  | .heap h => { g with byHeap := pushAt g.byHeap h.id idx }
  | .range r _ | .subresource r _ | .whole r =>
    let g := { g with byBacking := pushAt g.byBacking r.backing idx }
    match r.heap with
    | some h => { g with byHeap := pushAt g.byHeap h.id idx }
    | none => g

/-- One candidate of an admission.  The wait list is kept sorted by insertion, which is also
what removes duplicates; `none` is an index out of range. -/
def meet (g : DependencyGraph) (ordinal : IngressOrdinal) (intent : AccessIntent)
    (acc : List IngressOrdinal × GraphCensus) (candidate : Nat) :
    Option (List IngressOrdinal × GraphCensus) := do
  let entry ← g.entries[candidate]?
  if entry.live = false ∨ entry.ordinal = ordinal then
    return acc
  if requiresEdge entry.intent intent = false then
    return acc
  if entry.ordinal ∈ acc.1 then
    return acc
  let census := { acc.2 with edges := acc.2.edges + 1 }
  return (acc.1.orderedInsert (· ≤ ·) entry.ordinal,
    if entry.intent.mode = .unknown ∨ intent.mode = .unknown then
      { census with edgesFromUnknownMode := census.edgesFromUnknownMode + 1 }
    else census)

/-- One access of an admission: it meets the live ones and is filed. -/
def admitAccess (ordinal : IngressOrdinal) (acc : DependencyGraph × List IngressOrdinal)
    (intent : AccessIntent) : Option (DependencyGraph × List IngressOrdinal) := do
  let g := acc.1
  let charged := { g.census with
    domainOnlyComparisons := g.census.domainOnlyComparisons + g.comparisons intent }
  let out ← (g.gather intent).foldlM (g.meet ordinal intent) (acc.2, charged)
  return ({ g with census := out.2 }.insert ordinal intent, out.1)

/-- Admit one transaction's accesses; the answer is the ordinals it must wait for.  `none`
is a panic: the assertion that transactions arrive in ingress order has failed. -/
def admitTransaction (g : DependencyGraph) (ordinal : IngressOrdinal)
    (accesses : List AccessIntent) :
    Option (DependencyGraph × List IngressOrdinal) := do
  guard (∀ last ∈ g.entries.getLast?, last.ordinal < ordinal)
  accesses.foldlM (admitAccess ordinal) (g, [])

def clearLive (entries : List GraphEntry) (idx : Nat) : Option (List GraphEntry) :=
  if idx < entries.length then
    some (entries.modify idx fun e => { e with live := false })
  else none

/-- Mark one transaction's accesses as no longer live. -/
def retire (g : DependencyGraph) (ordinal : IngressOrdinal) : Option DependencyGraph := do
  let entries ← (g.byOrdinal ordinal).foldlM clearLive g.entries
  return { g with entries := entries, byOrdinal := Function.update g.byOrdinal ordinal [] }

/-- Drop retired entries and rebuild the indexes; the census is kept. -/
def compact (g : DependencyGraph) : DependencyGraph :=
  let live := g.entries.filter GraphEntry.live
  { live.foldl (fun g e => g.insert e.ordinal e.intent) new with census := g.census }

end DependencyGraph

/-! ## The plain scan -/

/-- The accesses that are live, in the order they were admitted. -/
abbrev LiveAccesses := List (IngressOrdinal × AccessIntent)

/-- The transactions an admission of `accesses` must wait for: each with a live access that
has to be ordered before one of them. -/
def scan (live : LiveAccesses) (accesses : List AccessIntent) : List IngressOrdinal :=
  ((live.filter fun e => accesses.any (requiresEdge e.2)).map Prod.fst).dedup

theorem mem_scan {live : LiveAccesses} {accesses : List AccessIntent} {o : IngressOrdinal} :
    o ∈ scan live accesses ↔
      ∃ a, (o, a) ∈ live ∧ ∃ b ∈ accesses, requiresEdge a b = true := by
  simp [scan]

/-- An entry after its transaction has retired. -/
def GraphEntry.retired (ordinal : IngressOrdinal) (e : GraphEntry) : GraphEntry :=
  if e.ordinal = ordinal then { e with live := false } else e

theorem GraphEntry.retired_ordinal (ordinal : IngressOrdinal) (e : GraphEntry) :
    (e.retired ordinal).ordinal = e.ordinal := by
  unfold retired
  split <;> rfl

theorem GraphEntry.retired_intent (ordinal : IngressOrdinal) (e : GraphEntry) :
    (e.retired ordinal).intent = e.intent := by
  unfold retired
  split <;> rfl

/-- The accesses of a list of entries that are live. -/
def liveOf (entries : List GraphEntry) : LiveAccesses :=
  (entries.filter GraphEntry.live).map fun e => (e.ordinal, e.intent)

theorem liveOf_retired (entries : List GraphEntry) (ordinal : IngressOrdinal) :
    liveOf (entries.map (GraphEntry.retired ordinal)) =
      (liveOf entries).filter fun e => e.1 ≠ ordinal := by
  induction entries with
  | nil => rfl
  | cons e rest ih =>
    unfold liveOf at ih ⊢
    rw [List.map_cons]
    by_cases hord : e.ordinal = ordinal
    · cases hlive : e.live <;> simp [GraphEntry.retired, hord, hlive] at ih ⊢ <;> exact ih
    · cases hlive : e.live <;> simp [GraphEntry.retired, hord, hlive] at ih ⊢ <;> exact ih

/-! ## The indexes -/

/-- The buckets of the indexes. -/
inductive Bucket where
  | backing (id : BackingId)
  | heap (id : Nat)
  | domain (id : ChannelId)
  | domainOnly (id : ChannelId)
deriving DecidableEq

namespace Bucket

/-- The buckets of what a key names. -/
def named (key : AccessKey) : List Bucket :=
  (key.resource.map fun r => backing r.backing).toList ++
    (key.heapOf.map fun h => heap h.id).toList

/-- The buckets an access is filed in. -/
def filed (intent : AccessIntent) : List Bucket :=
  domain intent.domain ::
    (if intent.key = .domainOnly then [domainOnly intent.domain] else []) ++ named intent.key

/-- The buckets an access is compared with. -/
def met (intent : AccessIntent) : List Bucket :=
  domainOnly intent.domain ::
    (if intent.key = .domainOnly then [domain intent.domain] else []) ++ named intent.key

/-- Two accesses that have to be ordered share a bucket. -/
theorem exists_shared {a b : AccessIntent} (h : requiresEdge a b = true) :
    ∃ k ∈ filed a, k ∈ met b := by
  have hdomain := domain_of_requiresEdge h
  rcases AccessKey.mayAlias_cases (mayAlias_of_requiresEdge h) with
    ha | hb | ⟨ra, rb, ha, hb, heq⟩ | ⟨ha, hb, hka, hkb, heq⟩
  · exact ⟨domainOnly a.domain, by simp [filed, ha], by simp [met, hdomain]⟩
  · exact ⟨domain a.domain, by simp [filed], by simp [met, hb, hdomain]⟩
  · exact ⟨backing ra.backing, by simp [filed, named, ha], by simp [met, named, hb, heq]⟩
  · exact ⟨heap ha.id, by simp [filed, named, hka], by simp [met, named, hkb, heq]⟩

end Bucket

namespace DependencyGraph

/-- The entries filed in a bucket. -/
def bucket (g : DependencyGraph) : Bucket → List Nat
  | .backing b => g.byBacking b
  | .heap h => g.byHeap h
  | .domain d => g.byDomain d
  | .domainOnly d => g.domainOnly d

theorem bucket_census (g : DependencyGraph) (census : GraphCensus) :
    { g with census := census }.bucket = g.bucket := by
  funext k
  cases k <;> rfl

theorem mem_gather {g : DependencyGraph} {intent : AccessIntent} {i : Nat} :
    i ∈ g.gather intent ↔ ∃ k ∈ Bucket.met intent, i ∈ g.bucket k := by
  unfold gather Bucket.met Bucket.named
  cases intent.key with
  | range r | subresource r | whole r =>
    cases hheap : r.heap <;>
      simp [AccessKey.resource, AccessKey.heapOf, hheap, bucket]
  | heap h => simp [AccessKey.resource, AccessKey.heapOf, bucket]
  | domainOnly => simp [AccessKey.resource, AccessKey.heapOf, bucket]

theorem entries_insert (g : DependencyGraph) (o : IngressOrdinal) (intent : AccessIntent) :
    (g.insert o intent).entries = g.entries ++ [⟨o, intent, true⟩] := by
  unfold insert
  cases intent.key with
  | range r | subresource r | whole r => cases hheap : r.heap <;> simp [hheap]
  | heap h => rfl
  | domainOnly => rfl

theorem getElem?_entries_insert {g : DependencyGraph} {o : IngressOrdinal}
    {intent : AccessIntent} {i : Nat} {e : GraphEntry} :
    (g.insert o intent).entries[i]? = some e ↔
      g.entries[i]? = some e ∨ (i = g.entries.length ∧ e = ⟨o, intent, true⟩) := by
  rw [entries_insert, List.getElem?_append]
  split
  · rename_i hlt
    exact ⟨Or.inl, fun h => h.resolve_right fun hr => absurd hr.1 (Nat.ne_of_lt hlt)⟩
  · rename_i hge
    rw [List.getElem?_eq_none (Nat.not_lt.mp hge), List.getElem?_singleton]
    constructor
    · intro h
      split at h
      · exact Or.inr ⟨by omega, (Option.some.inj h).symm⟩
      · cases h
    · rintro (h | ⟨rfl, rfl⟩)
      · cases h
      · simp

theorem byOrdinal_insert (g : DependencyGraph) (o : IngressOrdinal) (intent : AccessIntent) :
    (g.insert o intent).byOrdinal = pushAt g.byOrdinal o g.entries.length := by
  unfold insert
  cases intent.key with
  | range r | subresource r | whole r => cases hheap : r.heap <;> simp [hheap]
  | heap h => rfl
  | domainOnly => rfl

theorem mem_pushAt {K : Type} [DecidableEq K] {index : K → List Nat} {key k : K} {i j : Nat} :
    j ∈ pushAt index key i k ↔ j ∈ index k ∨ (k = key ∧ j = i) := by
  unfold pushAt
  by_cases h : k = key
  · subst h
    simp
  · simp [h]

theorem mem_bucket_insert {g : DependencyGraph} {o : IngressOrdinal} {intent : AccessIntent}
    {k : Bucket} {i : Nat} :
    i ∈ (g.insert o intent).bucket k ↔
      i ∈ g.bucket k ∨ (k ∈ Bucket.filed intent ∧ i = g.entries.length) := by
  unfold insert Bucket.filed Bucket.named
  cases intent.key with
  | range r | subresource r | whole r =>
    cases hheap : r.heap <;> cases k <;>
      simp [AccessKey.resource, AccessKey.heapOf, hheap, bucket, mem_pushAt]
  | heap h =>
    cases k <;> simp [AccessKey.resource, AccessKey.heapOf, bucket, mem_pushAt]
  | domainOnly =>
    cases k <;> simp [AccessKey.resource, AccessKey.heapOf, bucket, mem_pushAt]

/-- The indexes find every live access of `live`, and nothing out of range. -/
structure Indexed (g : DependencyGraph) (live : LiveAccesses) : Prop where
  live_eq : live = liveOf g.entries
  filed : ∀ i e, g.entries[i]? = some e → ∀ k ∈ Bucket.filed e.intent, i ∈ g.bucket k
  inRange : ∀ k, ∀ i ∈ g.bucket k, i < g.entries.length
  owned : ∀ o, ∀ i ∈ g.byOrdinal o, ∃ e, g.entries[i]? = some e ∧ e.ordinal = o
  owns : ∀ i e, g.entries[i]? = some e → e.live = true → i ∈ g.byOrdinal e.ordinal
  ascending : g.entries.Pairwise fun e f => e.ordinal ≤ f.ordinal

theorem Indexed.new : Indexed .new [] where
  live_eq := rfl
  filed i e h := by cases h
  inRange k i h := by cases k <;> cases h
  owned o i h := by cases h
  owns i e h := by cases h
  ascending := .nil

theorem Indexed.mem_live {g : DependencyGraph} {live : LiveAccesses} (h : Indexed g live)
    {o : IngressOrdinal} {a : AccessIntent} :
    (o, a) ∈ live ↔ ⟨o, a, true⟩ ∈ g.entries := by
  rw [h.live_eq, liveOf, List.mem_map]
  constructor
  · rintro ⟨e, he, heq⟩
    obtain ⟨hmem, hlive⟩ := List.mem_filter.mp he
    cases e
    cases heq
    cases hlive
    exact hmem
  · exact fun hmem => ⟨_, List.mem_filter.mpr ⟨hmem, rfl⟩, rfl⟩

/-- Only the entries and the indexes matter to what the graph answers. -/
theorem Indexed.of_census {g : DependencyGraph} {live : LiveAccesses} (h : Indexed g live)
    (census : GraphCensus) : Indexed { g with census := census } live where
  live_eq := h.live_eq
  filed i e he k hk := by
    rw [bucket_census]
    exact h.filed i e he k hk
  inRange k i hi := by
    rw [bucket_census] at hi
    exact h.inRange k i hi
  owned := h.owned
  owns := h.owns
  ascending := h.ascending

theorem Indexed.insert {g : DependencyGraph} {live : LiveAccesses} (h : Indexed g live)
    {o : IngressOrdinal} (ho : ∀ e ∈ g.entries, e.ordinal ≤ o) (intent : AccessIntent) :
    Indexed (g.insert o intent) (live ++ [(o, intent)]) where
  live_eq := by
    rw [entries_insert, h.live_eq]
    simp [liveOf]
  filed i e he k hk := by
    rw [mem_bucket_insert]
    rcases getElem?_entries_insert.mp he with he | ⟨rfl, rfl⟩
    · exact Or.inl (h.filed i e he k hk)
    · exact Or.inr ⟨hk, rfl⟩
  inRange k i hi := by
    rw [mem_bucket_insert] at hi
    rw [entries_insert, List.length_append, List.length_singleton]
    rcases hi with hi | ⟨-, rfl⟩
    · exact Nat.lt_succ_of_lt (h.inRange k i hi)
    · exact Nat.lt_succ_self _
  owned q i hi := by
    rw [byOrdinal_insert, mem_pushAt] at hi
    rcases hi with hi | ⟨rfl, rfl⟩
    · obtain ⟨e, he, heq⟩ := h.owned q i hi
      exact ⟨e, getElem?_entries_insert.mpr (Or.inl he), heq⟩
    · exact ⟨⟨q, intent, true⟩, getElem?_entries_insert.mpr (Or.inr ⟨rfl, rfl⟩), rfl⟩
  owns i e he hlive := by
    rw [byOrdinal_insert, mem_pushAt]
    rcases getElem?_entries_insert.mp he with he | ⟨rfl, rfl⟩
    · exact Or.inl (h.owns i e he hlive)
    · exact Or.inr ⟨rfl, rfl⟩
  ascending := by
    rw [entries_insert, List.pairwise_append]
    exact ⟨h.ascending, List.pairwise_singleton _ _, fun e he f hf => by
      rw [List.mem_singleton.mp hf]
      exact ho e he⟩

/-! ## Admission -/

/-- What the candidates of one access add to the waits. -/
def Meets (g : DependencyGraph) (ordinal : IngressOrdinal) (intent : AccessIntent)
    (i : Nat) (o : IngressOrdinal) : Prop :=
  ∃ e, g.entries[i]? = some e ∧ e.live = true ∧ e.ordinal ≠ ordinal ∧
    requiresEdge e.intent intent = true ∧ e.ordinal = o

/-- The wait list and its counters after some candidates. -/
structure Met (g : DependencyGraph) (ordinal : IngressOrdinal) (intent : AccessIntent)
    (before after : List IngressOrdinal × GraphCensus) (candidates : List Nat) : Prop where
  ascending : after.1.Pairwise (· < ·)
  mem : ∀ o, o ∈ after.1 ↔ o ∈ before.1 ∨ ∃ i ∈ candidates, g.Meets ordinal intent i o
  edges : after.2.edges + before.1.length = before.2.edges + after.1.length
  unknown : after.2.edgesFromUnknownMode + before.2.edges ≤
    before.2.edgesFromUnknownMode + after.2.edges

theorem Met.refl {g : DependencyGraph} {ordinal : IngressOrdinal} {intent : AccessIntent}
    {acc : List IngressOrdinal × GraphCensus} (hacc : acc.1.Pairwise (· < ·)) {i : Nat}
    (hnone : ∀ o, g.Meets ordinal intent i o → o ∈ acc.1) :
    g.Met ordinal intent acc acc [i] where
  ascending := hacc
  mem o := by
    refine ⟨Or.inl, ?_⟩
    rintro (ho | ⟨j, hj, hmeets⟩)
    · exact ho
    · rw [List.mem_singleton.mp hj] at hmeets
      exact hnone o hmeets
  edges := rfl
  unknown := le_refl _

theorem pairwise_lt_orderedInsert {l : List Nat} (h : l.Pairwise (· < ·)) {a : Nat}
    (ha : a ∉ l) : (l.orderedInsert (· ≤ ·) a).Pairwise (· < ·) := by
  have hle : (l.orderedInsert (· ≤ ·) a).Pairwise (· ≤ ·) :=
    List.Pairwise.orderedInsert a l (h.imp Nat.le_of_lt)
  have hnodup : (l.orderedInsert (· ≤ ·) a).Nodup :=
    (List.perm_orderedInsert _ a l).nodup_iff.mpr
      (List.nodup_cons.mpr ⟨ha, h.imp Nat.ne_of_lt⟩)
  exact (hle.and hnodup).imp fun h => Nat.lt_of_le_of_ne h.1 h.2

theorem meet_spec {g : DependencyGraph} {ordinal : IngressOrdinal} {intent : AccessIntent}
    {acc : List IngressOrdinal × GraphCensus} (hacc : acc.1.Pairwise (· < ·)) {i : Nat}
    (hi : i < g.entries.length) :
    ∃ out, g.meet ordinal intent acc i = some out ∧ g.Met ordinal intent acc out [i] := by
  have he : g.entries[i]? = some g.entries[i] := List.getElem?_eq_getElem hi
  have hmeets : ∀ o, g.Meets ordinal intent i o ↔ g.entries[i].live = true ∧
      g.entries[i].ordinal ≠ ordinal ∧ requiresEdge g.entries[i].intent intent = true ∧
      g.entries[i].ordinal = o := by
    intro o
    unfold Meets
    rw [he]
    simp
  unfold meet
  rw [he]
  simp only [Option.bind_eq_bind, Option.bind_some, pure]
  split
  · rename_i hskip
    refine ⟨acc, rfl, .refl hacc fun o ho => ?_⟩
    obtain ⟨hlive, hne, -⟩ := (hmeets o).mp ho
    rcases hskip with hdead | hsame
    · rw [hlive] at hdead
      cases hdead
    · exact absurd hsame hne
  · rename_i hkeep
    split
    · rename_i hedge
      refine ⟨acc, rfl, .refl hacc fun o ho => ?_⟩
      obtain ⟨-, -, hreq, -⟩ := (hmeets o).mp ho
      rw [hedge] at hreq
      cases hreq
    · rename_i hedge
      split
      · rename_i hmem
        refine ⟨acc, rfl, .refl hacc fun o ho => ?_⟩
        obtain ⟨-, -, -, rfl⟩ := (hmeets o).mp ho
        exact hmem
      · rename_i hnew
        simp only [not_or, Bool.not_eq_false] at hkeep hedge
        have hlen : (acc.1.orderedInsert (· ≤ ·) g.entries[i].ordinal).length =
            acc.1.length + 1 := List.orderedInsert_length _ acc.1 _
        refine ⟨_, rfl, ⟨pairwise_lt_orderedInsert hacc hnew, fun o => ?_, ?_, ?_⟩⟩
        · simp only [List.mem_orderedInsert, List.mem_singleton, exists_eq_left, hmeets, hkeep,
            hedge, ne_eq, not_false_eq_true, true_and]
          exact ⟨fun h => h.symm.imp_right Eq.symm, fun h => h.symm.imp_left Eq.symm⟩
        · dsimp only
          split <;> simp only [hlen] <;> omega
        · dsimp only
          split <;> dsimp only <;> omega

theorem Met.trans {g : DependencyGraph} {ordinal : IngressOrdinal} {intent : AccessIntent}
    {a b c : List IngressOrdinal × GraphCensus} {front back : List Nat}
    (h₁ : g.Met ordinal intent a b front) (h₂ : g.Met ordinal intent b c back) :
    g.Met ordinal intent a c (front ++ back) where
  ascending := h₂.ascending
  mem o := by
    rw [h₂.mem, h₁.mem, or_assoc]
    simp [or_and_right, exists_or]
  edges := by
    have := h₁.edges
    have := h₂.edges
    omega
  unknown := by
    have := h₁.unknown
    have := h₂.unknown
    omega

/-- The candidates of one access, none of which is out of range. -/
theorem meet_all_spec {g : DependencyGraph} {ordinal : IngressOrdinal} {intent : AccessIntent}
    {candidates : List Nat} (hrange : ∀ i ∈ candidates, i < g.entries.length) :
    ∀ {acc : List IngressOrdinal × GraphCensus}, acc.1.Pairwise (· < ·) →
      ∃ out, candidates.foldlM (g.meet ordinal intent) acc = some out ∧
        g.Met ordinal intent acc out candidates := by
  induction candidates with
  | nil =>
    intro acc hacc
    exact ⟨acc, rfl, hacc, fun o => by simp, rfl, le_refl _⟩
  | cons i rest ih =>
    intro acc hacc
    obtain ⟨mid, hmid, hmet⟩ :=
      @meet_spec g ordinal intent acc hacc i (hrange i List.mem_cons_self)
    obtain ⟨out, hout, hrest⟩ :=
      ih (fun j hj => hrange j (List.mem_cons_of_mem i hj)) hmet.ascending
    refine ⟨out, ?_, hmet.trans hrest⟩
    rw [List.foldlM_cons, hmid]
    exact hout

/-- The gathered candidates meet exactly the live accesses that require an edge. -/
theorem Indexed.meets_iff {g : DependencyGraph} {live : LiveAccesses} (h : Indexed g live)
    {ordinal o : IngressOrdinal} {intent : AccessIntent} :
    (∃ i ∈ g.gather intent, g.Meets ordinal intent i o) ↔
      o ≠ ordinal ∧ ∃ a, (o, a) ∈ live ∧ requiresEdge a intent = true := by
  constructor
  · rintro ⟨i, -, e, he, hlive, hne, hreq, rfl⟩
    refine ⟨hne, e.intent, h.mem_live.mpr ?_, hreq⟩
    rw [← hlive]
    exact List.mem_of_getElem? he
  · rintro ⟨hne, a, ha, hreq⟩
    obtain ⟨i, hi⟩ := List.getElem?_of_mem (h.mem_live.mp ha)
    obtain ⟨k, hfiled, hmet⟩ := Bucket.exists_shared hreq
    exact ⟨i, mem_gather.mpr ⟨k, hmet, h.filed i _ hi k hfiled⟩, _, hi, rfl, hne, hreq, rfl⟩

/-- What an admission has done after some of the accesses. -/
structure Admitted (ordinal : IngressOrdinal) (live : LiveAccesses)
    (accesses : List AccessIntent) (before after : DependencyGraph × List IngressOrdinal) :
    Prop where
  indexed : Indexed after.1 (live ++ accesses.map fun a => (ordinal, a))
  bound : ∀ e ∈ after.1.entries, e.ordinal ≤ ordinal
  ascending : after.2.Pairwise (· < ·)
  mem : ∀ o, o ∈ after.2 ↔ o ∈ before.2 ∨
    (o ≠ ordinal ∧ ∃ a, (o, a) ∈ live ∧ ∃ b ∈ accesses, requiresEdge a b = true)
  edges : after.1.census.edges + before.2.length = before.1.census.edges + after.2.length
  unknown : after.1.census.edgesFromUnknownMode + before.1.census.edges ≤
    before.1.census.edgesFromUnknownMode + after.1.census.edges

theorem census_insert (g : DependencyGraph) (o : IngressOrdinal) (intent : AccessIntent) :
    (g.insert o intent).census.edges = g.census.edges ∧
      (g.insert o intent).census.edgesFromUnknownMode = g.census.edgesFromUnknownMode := by
  unfold insert
  cases intent.key with
  | range r | subresource r | whole r => cases hheap : r.heap <;> simp [hheap]
  | heap h => exact ⟨rfl, rfl⟩
  | domainOnly => exact ⟨rfl, rfl⟩

theorem admitAccess_spec {g : DependencyGraph} {live : LiveAccesses} (h : Indexed g live)
    {ordinal : IngressOrdinal} (hbound : ∀ e ∈ g.entries, e.ordinal ≤ ordinal)
    {waits : List IngressOrdinal} (hwaits : waits.Pairwise (· < ·)) (intent : AccessIntent) :
    ∃ out, admitAccess ordinal (g, waits) intent = some out ∧
      Admitted ordinal live [intent] (g, waits) out := by
  have hrange : ∀ i ∈ g.gather intent, i < g.entries.length := fun i hi => by
    obtain ⟨k, -, hk⟩ := mem_gather.mp hi
    exact h.inRange k i hk
  obtain ⟨met, hmeets, hmet⟩ := @meet_all_spec g ordinal intent _ hrange
    (waits, { g.census with
      domainOnlyComparisons := g.census.domainOnlyComparisons + g.comparisons intent }) hwaits
  refine ⟨({ g with census := met.2 }.insert ordinal intent, met.1), ?_, ?_⟩
  · unfold admitAccess
    dsimp only
    rw [hmeets]
    rfl
  · have hcensus := census_insert { g with census := met.2 } ordinal intent
    refine ⟨(h.of_census met.2).insert hbound intent, fun e he => ?_, hmet.ascending,
      fun o => ?_, ?_, ?_⟩
    · rw [entries_insert] at he
      rcases List.mem_append.mp he with he | he
      · exact hbound e he
      · rw [List.mem_singleton.mp he]
    · rw [hmet.mem, h.meets_iff]
      simp
    · have := hmet.edges
      simp only [hcensus.1]
      exact this
    · have := hmet.unknown
      simp only [hcensus.1, hcensus.2]
      exact this

theorem admit_loop_spec {ordinal : IngressOrdinal} {accesses : List AccessIntent} :
    ∀ {g : DependencyGraph} {live : LiveAccesses} {waits : List IngressOrdinal},
      Indexed g live → (∀ e ∈ g.entries, e.ordinal ≤ ordinal) → waits.Pairwise (· < ·) →
      ∃ out, accesses.foldlM (admitAccess ordinal) (g, waits) = some out ∧
        Admitted ordinal live accesses (g, waits) out := by
  induction accesses with
  | nil =>
    intro g live waits h hbound hwaits
    exact ⟨(g, waits), rfl, by simpa using h, hbound, hwaits, fun o => by simp, rfl, le_refl _⟩
  | cons intent rest ih =>
    intro g live waits h hbound hwaits
    obtain ⟨mid, hmid, hfirst⟩ := admitAccess_spec h hbound hwaits intent
    obtain ⟨out, hout, hrest⟩ := ih hfirst.indexed hfirst.bound hfirst.ascending
    refine ⟨out, ?_, ?_, hrest.bound, hrest.ascending, fun o => ?_, ?_, ?_⟩
    · rw [List.foldlM_cons, hmid]
      exact hout
    · simpa using hrest.indexed
    · -- the accesses filed on the way are the transaction's own
      rw [hrest.mem, hfirst.mem, or_assoc]
      refine or_congr_right ?_
      constructor
      · rintro (⟨hne, a, ha, b, hb, hreq⟩ | ⟨hne, a, ha, b, hb, hreq⟩)
        · exact ⟨hne, a, ha, b, by simp [List.mem_singleton.mp hb], hreq⟩
        · refine ⟨hne, a, ?_, b, List.mem_cons_of_mem _ hb, hreq⟩
          rcases List.mem_append.mp ha with ha | ha
          · exact ha
          · obtain ⟨c, -, heq⟩ := List.mem_map.mp ha
            exact absurd (congrArg Prod.fst heq).symm hne
      · rintro ⟨hne, a, ha, b, hb, hreq⟩
        rcases List.mem_cons.mp hb with rfl | hb
        · exact Or.inl ⟨hne, a, ha, b, by simp, hreq⟩
        · exact Or.inr ⟨hne, a, List.mem_append_left _ ha, b, hb, hreq⟩
    · have := hfirst.edges
      have := hrest.edges
      dsimp only at *
      omega
    · have := hfirst.unknown
      have := hrest.unknown
      dsimp only at *
      omega

/-- The scan's answer is ascending, because the live accesses are in ingress order. -/
theorem Indexed.scan_ascending {g : DependencyGraph} {live : LiveAccesses}
    (h : Indexed g live) (accesses : List AccessIntent) :
    (scan live accesses).Pairwise (· < ·) := by
  have hlive : (live.map Prod.fst).Pairwise (· ≤ ·) := by
    rw [h.live_eq, liveOf, List.map_map, List.pairwise_map]
    exact h.ascending.filter _
  have hle : (scan live accesses).Pairwise (· ≤ ·) :=
    (hlive.sublist (List.filter_sublist.map Prod.fst)).sublist (List.dedup_sublist _)
  exact (hle.and (List.nodup_dedup _)).imp fun h => Nat.lt_of_le_of_ne h.1 h.2

/-- **Admission is a scan.**  With nothing admitted as late as `ordinal`, an admission does
not panic, answers what a scan of the live accesses would, and files the new ones. -/
theorem admit_spec {g : DependencyGraph} {live : LiveAccesses} (h : Indexed g live)
    {ordinal : IngressOrdinal} (hbound : ∀ e ∈ g.entries, e.ordinal < ordinal)
    (accesses : List AccessIntent) :
    ∃ g', g.admitTransaction ordinal accesses = some (g', scan live accesses) ∧
      Indexed g' (live ++ accesses.map fun a => (ordinal, a)) ∧
      (∀ e ∈ g'.entries, e.ordinal ≤ ordinal) ∧
      g'.census.edges = g.census.edges + (scan live accesses).length ∧
      g'.census.edgesFromUnknownMode + g.census.edges ≤
        g.census.edgesFromUnknownMode + g'.census.edges := by
  have hguard : ∀ last ∈ g.entries.getLast?, last.ordinal < ordinal := fun last hlast =>
    hbound last (List.mem_of_getLast? hlast)
  obtain ⟨⟨g', waits⟩, hout, hadmitted⟩ := @admit_loop_spec ordinal accesses g live [] h
    (fun e he => Nat.le_of_lt (hbound e he)) .nil
  have hwaits : waits = scan live accesses := by
    refine hadmitted.ascending.eq_of_mem_iff (h.scan_ascending accesses) fun o => ?_
    rw [hadmitted.mem, mem_scan]
    refine ⟨fun ho => (ho.resolve_left List.not_mem_nil).2, fun ho => Or.inr ⟨?_, ho⟩⟩
    rintro rfl
    obtain ⟨a, ha, -⟩ := ho
    exact Nat.lt_irrefl _ (hbound _ (h.mem_live.mp ha))
  subst hwaits
  refine ⟨g', ?_, hadmitted.indexed, hadmitted.bound, ?_, hadmitted.unknown⟩
  · unfold admitTransaction
    rw [guard, if_pos hguard]
    exact hout
  · have := hadmitted.edges
    simpa using this

/-! ## Retirement and compaction -/

theorem clearLive_all_spec {idxs : List Nat} :
    ∀ {entries : List GraphEntry}, (∀ i ∈ idxs, i < entries.length) →
      ∃ out, idxs.foldlM clearLive entries = some out ∧
        ∀ i, out[i]? = (entries[i]?).map fun e =>
          if i ∈ idxs then { e with live := false } else e := by
  induction idxs with
  | nil =>
    intro entries _
    exact ⟨entries, rfl, fun i => by simp⟩
  | cons j rest ih =>
    intro entries hrange
    have hj := hrange j List.mem_cons_self
    obtain ⟨out, hout, hget⟩ := @ih (entries.modify j fun e => { e with live := false })
      fun i hi => by
        rw [List.length_modify]
        exact hrange i (List.mem_cons_of_mem j hi)
    refine ⟨out, ?_, fun i => ?_⟩
    · rw [List.foldlM_cons, clearLive, if_pos hj]
      exact hout
    · rw [hget, List.getElem?_modify]
      cases entries[i]? with
      | none => simp
      | some e =>
        by_cases hij : j = i
        · subst hij
          by_cases hrest : j ∈ rest <;> simp [hrest]
        · have hji : ¬i = j := fun h => hij h.symm
          simp [hij, hji]

/-- The index holds every live entry of the transaction, and only entries of it. -/
theorem Indexed.cleared {g : DependencyGraph} {live : LiveAccesses} (h : Indexed g live)
    (ordinal : IngressOrdinal) {out : List GraphEntry}
    (hget : ∀ i, out[i]? = (g.entries[i]?).map fun e =>
      if i ∈ g.byOrdinal ordinal then { e with live := false } else e) :
    out = g.entries.map (GraphEntry.retired ordinal) := by
  refine List.ext_getElem? fun i => ?_
  rw [hget, List.getElem?_map]
  cases he : g.entries[i]? with
  | none => rfl
  | some e =>
    simp only [Option.map_some, GraphEntry.retired]
    by_cases hi : i ∈ g.byOrdinal ordinal
    · obtain ⟨f, hf, hord⟩ := h.owned ordinal i hi
      rw [he] at hf
      cases hf
      rw [if_pos hi, if_pos hord]
    · rw [if_neg hi]
      split
      · rename_i hord
        cases hlive : e.live with
        | true => exact absurd (hord ▸ h.owns i e he hlive) hi
        | false => rw [← hlive]
      · rfl

/-- The graph once the entries of a transaction are dead. -/
def retired (g : DependencyGraph) (ordinal : IngressOrdinal) : DependencyGraph :=
  { g with
    entries := g.entries.map (GraphEntry.retired ordinal)
    byOrdinal := Function.update g.byOrdinal ordinal [] }

theorem bucket_retired (g : DependencyGraph) (ordinal : IngressOrdinal) (k : Bucket) :
    (g.retired ordinal).bucket k = g.bucket k := by
  cases k <;> rfl

theorem getElem?_retired {g : DependencyGraph} {ordinal : IngressOrdinal} {i : Nat}
    {e : GraphEntry} (he : (g.retired ordinal).entries[i]? = some e) :
    ∃ f : GraphEntry, g.entries[i]? = some f ∧ f.retired ordinal = e := by
  rw [retired, List.getElem?_map] at he
  exact Option.map_eq_some_iff.mp he

theorem Indexed.retired {g : DependencyGraph} {live : LiveAccesses} (h : Indexed g live)
    (ordinal : IngressOrdinal) :
    Indexed (g.retired ordinal) (live.filter fun e => e.1 ≠ ordinal) where
  live_eq := by rw [DependencyGraph.retired, liveOf_retired, h.live_eq]
  filed i e he k hk := by
    obtain ⟨f, hf, rfl⟩ := getElem?_retired he
    rw [GraphEntry.retired_intent] at hk
    rw [bucket_retired]
    exact h.filed i f hf k hk
  inRange k i hi := by
    rw [bucket_retired] at hi
    rw [DependencyGraph.retired, List.length_map]
    exact h.inRange k i hi
  owned o i hi := by
    by_cases ho : o = ordinal
    · subst ho
      simp [DependencyGraph.retired] at hi
    · dsimp only [DependencyGraph.retired] at hi
      rw [Function.update_of_ne ho] at hi
      obtain ⟨f, hf, hord⟩ := h.owned o i hi
      refine ⟨f.retired ordinal, ?_, by rw [GraphEntry.retired_ordinal, hord]⟩
      rw [DependencyGraph.retired, List.getElem?_map, hf]
      rfl
  owns i e he hlive := by
    obtain ⟨f, hf, rfl⟩ := getElem?_retired he
    rw [GraphEntry.retired_ordinal]
    have hne : f.ordinal ≠ ordinal := fun hord => by simp [GraphEntry.retired, hord] at hlive
    rw [GraphEntry.retired, if_neg hne] at hlive
    dsimp only [DependencyGraph.retired]
    rw [Function.update_of_ne hne]
    exact h.owns i f hf hlive
  ascending := by
    rw [DependencyGraph.retired, List.pairwise_map]
    simpa only [GraphEntry.retired_ordinal] using h.ascending

theorem retire_spec {g : DependencyGraph} {live : LiveAccesses} (h : Indexed g live)
    (ordinal : IngressOrdinal) : g.retire ordinal = some (g.retired ordinal) := by
  have hrange : ∀ i ∈ g.byOrdinal ordinal, i < g.entries.length := fun i hi => by
    obtain ⟨e, he, -⟩ := h.owned ordinal i hi
    exact (List.getElem?_eq_some_iff.mp he).1
  obtain ⟨out, hout, hget⟩ := clearLive_all_spec hrange
  unfold retire
  rw [hout, h.cleared ordinal hget]
  rfl

theorem Indexed.insertAll {entries : List GraphEntry} :
    ∀ {g : DependencyGraph} {live : LiveAccesses}, Indexed g live →
      entries.Pairwise (fun e f => e.ordinal ≤ f.ordinal) →
      (∀ e ∈ g.entries, ∀ f ∈ entries, e.ordinal ≤ f.ordinal) →
      Indexed (entries.foldl (fun g e => g.insert e.ordinal e.intent) g)
          (live ++ entries.map fun e => (e.ordinal, e.intent)) ∧
        (entries.foldl (fun g e => g.insert e.ordinal e.intent) g).entries =
          g.entries ++ entries.map fun e => { e with live := true } := by
  induction entries with
  | nil =>
    intro g live h _ _
    simpa using h
  | cons e rest ih =>
    intro g live h hsorted hbound
    obtain ⟨hhead, htail⟩ := List.pairwise_cons.mp hsorted
    have hinsert := h.insert (fun f hf => hbound f hf e List.mem_cons_self) e.intent
    have hnext : ∀ f ∈ (g.insert e.ordinal e.intent).entries, ∀ k ∈ rest,
        f.ordinal ≤ k.ordinal := by
      intro f hf k hk
      rw [entries_insert] at hf
      rcases List.mem_append.mp hf with hf | hf
      · exact hbound f hf k (List.mem_cons_of_mem e hk)
      · rw [List.mem_singleton.mp hf]
        exact hhead k hk
    have hrest := ih hinsert htail hnext
    rw [entries_insert] at hrest
    simpa using hrest

theorem compact_spec {g : DependencyGraph} {live : LiveAccesses} (h : Indexed g live) :
    Indexed g.compact live ∧ (∀ e ∈ g.compact.entries, e ∈ g.entries) ∧
      g.compact.census = g.census := by
  have hall := @Indexed.insertAll (g.entries.filter GraphEntry.live) _ _ Indexed.new
    (h.ascending.filter _) fun e he => by cases he
  refine ⟨?_, fun e he => ?_, rfl⟩
  · have hlive : live = [] ++ (g.entries.filter GraphEntry.live).map
        fun e => (e.ordinal, e.intent) := h.live_eq
    rw [hlive]
    exact hall.1.of_census g.census
  · have hentries : g.compact.entries = [] ++ (g.entries.filter GraphEntry.live).map
        fun e => { e with live := true } := hall.2
    rw [hentries, List.nil_append] at he
    obtain ⟨f, hf, rfl⟩ := List.mem_map.mp he
    obtain ⟨hmem, hlive⟩ := List.mem_filter.mp hf
    rw [← hlive]
    exact hmem

end DependencyGraph

/-! ## Whole runs -/

/-- The calls of the graph. -/
inductive GraphOp where
  | admission (ordinal : IngressOrdinal) (accesses : List AccessIntent)
  | retire (ordinal : IngressOrdinal)
  | compact

/-- The ordinal an operation admits. -/
def GraphOp.admits : GraphOp → Option IngressOrdinal
  | .admission o _ => some o
  | .retire _ | .compact => none

/-- A call, and what it answers; a panic answers `none`. -/
def graphStep (g : DependencyGraph) :
    GraphOp → DependencyGraph × List (Option (List IngressOrdinal))
  | .admission o accesses =>
    match g.admitTransaction o accesses with
    | some out => (out.1, [some out.2])
    | none => (g, [none])
  | .retire o =>
    match g.retire o with
    | some g' => (g', [])
    | none => (g, [none])
  | .compact => (g.compact, [])

/-- The same calls on the plain list of live accesses. -/
def scanStep (live : LiveAccesses) : GraphOp → LiveAccesses × List (Option (List IngressOrdinal))
  | .admission o accesses => (live ++ accesses.map fun a => (o, a), [some (scan live accesses)])
  | .retire o => (live.filter fun e => e.1 ≠ o, [])
  | .compact => (live, [])

/-- The number of waits in the answers to some calls. -/
def waitCount (answers : List (Option (List IngressOrdinal))) : Nat :=
  (answers.map fun waits => (waits.getD []).length).sum

/-- What some calls have charged: an edge for each wait they answered, and no more of them
to an unknown direction than there are. -/
def Charged (before after : GraphCensus) (answers : List (Option (List IngressOrdinal))) :
    Prop :=
  after.edges = before.edges + waitCount answers ∧
    after.edgesFromUnknownMode + before.edges ≤ before.edgesFromUnknownMode + after.edges

theorem Charged.trans {a b c : GraphCensus} {front back : List (Option (List IngressOrdinal))}
    (h₁ : Charged a b front) (h₂ : Charged b c back) : Charged a c (front ++ back) := by
  have hcount : waitCount (front ++ back) = waitCount front + waitCount back := by
    simp [waitCount]
  obtain ⟨hedges₁, hunknown₁⟩ := h₁
  obtain ⟨hedges₂, hunknown₂⟩ := h₂
  exact ⟨by omega, by omega⟩

/-- A call did not panic, and what it answers ascends. -/
def SortedAnswer (answer : Option (List IngressOrdinal)) : Prop :=
  ∃ waits, answer = some waits ∧ waits.Pairwise (· < ·)

open DependencyGraph in
theorem graphStep_spec {g : DependencyGraph} {live : LiveAccesses} (h : Indexed g live)
    (op : GraphOp) (hbound : ∀ o ∈ op.admits, ∀ e ∈ g.entries, e.ordinal < o) :
    (graphStep g op).2 = (scanStep live op).2 ∧
      (∀ answer ∈ (scanStep live op).2, SortedAnswer answer) ∧
      Indexed (graphStep g op).1 (scanStep live op).1 ∧
      Charged g.census (graphStep g op).1.census (graphStep g op).2 ∧
      ∀ e ∈ (graphStep g op).1.entries, (∃ f ∈ g.entries, e.ordinal = f.ordinal) ∨
        ∃ o ∈ op.admits, e.ordinal ≤ o := by
  cases op with
  | admission o accesses =>
    obtain ⟨g', hadmission, hindexed, hle, hedges, hunknown⟩ := admit_spec h (hbound o rfl) accesses
    simp only [graphStep, scanStep, hadmission, true_and]
    refine ⟨fun answer hanswer => ?_, hindexed, ⟨by simpa [waitCount] using hedges, hunknown⟩,
      fun e he => Or.inr ⟨o, rfl, hle e he⟩⟩
    rw [List.mem_singleton.mp hanswer]
    exact ⟨_, rfl, h.scan_ascending accesses⟩
  | retire o =>
    simp only [graphStep, scanStep, retire_spec h o, true_and]
    refine ⟨nofun, h.retired o, ⟨rfl, le_refl _⟩, fun e he => Or.inl ?_⟩
    obtain ⟨f, hf, rfl⟩ := List.mem_map.mp he
    exact ⟨f, hf, f.retired_ordinal o⟩
  | compact =>
    obtain ⟨hindexed, hsub, -⟩ := compact_spec h
    exact ⟨rfl, nofun, hindexed, ⟨rfl, le_refl _⟩, fun e he => Or.inl ⟨e, hsub e he, rfl⟩⟩

theorem observe_graphStep {ops : List GraphOp} :
    ∀ {g : DependencyGraph} {live : LiveAccesses}, g.Indexed live →
      (ops.filterMap GraphOp.admits).Pairwise (· < ·) →
      (∀ o ∈ ops.filterMap GraphOp.admits, ∀ e ∈ g.entries, e.ordinal < o) →
      observe graphStep g ops = observe scanStep live ops ∧
        (∀ answer ∈ observe scanStep live ops, SortedAnswer answer) ∧
        Charged g.census (final graphStep g ops).census (observe graphStep g ops) := by
  induction ops with
  | nil => exact fun _ _ _ => ⟨rfl, nofun, rfl, le_refl _⟩
  | cons op rest ih =>
    intro g live h hsorted hbound
    have hmem : ∀ o ∈ op.admits, o ∈ (op :: rest).filterMap GraphOp.admits := fun o ho =>
      List.mem_filterMap.mpr ⟨op, List.mem_cons_self, ho⟩
    have hrest : ∀ o ∈ rest.filterMap GraphOp.admits,
        o ∈ (op :: rest).filterMap GraphOp.admits := fun o ho => by
      obtain ⟨p, hp, hpo⟩ := List.mem_filterMap.mp ho
      exact List.mem_filterMap.mpr ⟨p, List.mem_cons_of_mem op hp, hpo⟩
    have hlater : ∀ o ∈ op.admits, ∀ p ∈ rest.filterMap GraphOp.admits, o < p := by
      intro o ho p hp
      rw [List.filterMap_cons_some ho] at hsorted
      exact (List.pairwise_cons.mp hsorted).1 p hp
    obtain ⟨hout, hsortedOut, hindexed, hcharged, hnext⟩ :=
      graphStep_spec h op fun o ho => hbound o (hmem o ho)
    obtain ⟨hobserve, hanswers, hcensus⟩ := ih hindexed
      (hsorted.sublist (List.Sublist.filterMap _ (List.sublist_cons_self op rest)))
      fun o ho e he => by
        rcases hnext e he with ⟨f, hf, heq⟩ | ⟨p, hp, hle⟩
        · rw [heq]
          exact hbound o (hrest o ho) f hf
        · exact Nat.lt_of_le_of_lt hle (hlater p hp o ho)
    refine ⟨?_, fun answer hanswer => ?_, ?_⟩
    · rw [observe_cons, observe_cons, hout, hobserve]
    · rw [observe_cons] at hanswer
      rcases List.mem_append.mp hanswer with hin | hin
      · exact hsortedOut answer hin
      · exact hanswers answer hin
    · rw [observe_cons, final_cons]
      exact hcharged.trans hcensus

/-- **The indexes lose no hazard and invent none.**  Whatever transactions are admitted in
ingress order, retired and compacted away, every admission answers, without a panic, exactly
the transactions a scan of all live accesses would make it wait for, in ascending order.  The
census counts one edge for each of these waits, and no more of them as bought with an unknown
direction. -/
theorem graph_is_scan (ops : List GraphOp)
    (h : (ops.filterMap GraphOp.admits).Pairwise (· < ·)) :
    observe graphStep .new ops = observe scanStep [] ops ∧
      (∀ answer ∈ observe graphStep .new ops, SortedAnswer answer) ∧
      (final graphStep .new ops).census.edges = waitCount (observe scanStep [] ops) ∧
      (final graphStep .new ops).census.edgesFromUnknownMode ≤
        (final graphStep .new ops).census.edges := by
  obtain ⟨hobserve, hsorted, hedges, hunknown⟩ :=
    observe_graphStep .new h fun _ _ e he => by cases he
  refine ⟨hobserve, hobserve ▸ hsorted, ?_, ?_⟩
  · rw [← hobserve, hedges]
    exact Nat.zero_add _
  · simpa [DependencyGraph.new] using hunknown

/-- Two writers of one heap member, a reader of the heap in between, and a compaction. -/
def heapTraffic : List GraphOp :=
  let member : AccessKey := .whole ⟨9, some ⟨3, 1⟩⟩
  [.admission 1 [⟨1, member, .write, none⟩], .admission 2 [⟨1, .heap ⟨3, 2⟩, .read, none⟩],
    .retire 1, .compact,
    .admission 4 [⟨1, member, .write, none⟩, ⟨1, .domainOnly, .read, none⟩]]

theorem graph_is_scan_heapTraffic :
    observe graphStep .new heapTraffic = observe scanStep [] heapTraffic ∧
      (∀ answer ∈ observe graphStep .new heapTraffic, SortedAnswer answer) ∧
      (final graphStep .new heapTraffic).census.edges =
        waitCount (observe scanStep [] heapTraffic) ∧
      (final graphStep .new heapTraffic).census.edgesFromUnknownMode ≤
        (final graphStep .new heapTraffic).census.edges :=
  graph_is_scan heapTraffic (by decide)

example : observe graphStep .new heapTraffic = [some [], some [1], some [2]] := by decide

end Orchard.Plane
