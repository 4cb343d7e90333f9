/-
  Plane/Eligible.lean --- what an eligible batch promises.

  `eligible` answers with the first problem it finds.  When it finds none, the batch is in
  ingress order and of one generation, waits for no fence, produces every point it waits for
  before the wait, and orders any two version claims that may alias by its hazards.
-/
import Orchard.Foundation.Reordering
import Orchard.Plane.Script

set_option autoImplicit false

namespace Orchard.Plane

open Orchard.Content Orchard.Foundation

/-! ## Hazards -/

/-- The accesses of some transactions, as the dependency graph lists them. -/
def accessesOf (txs : List DeviceTransaction) : LiveAccesses :=
  txs.flatMap fun tx => tx.accesses.map fun a => (tx.ingress, a)

/-- The transactions of a batch that one of it has to wait for because of what it accesses. -/
def hazardsAt (batch : List DeviceTransaction) (tx : DeviceTransaction) : List IngressOrdinal :=
  scan (accessesOf (batch.filter fun u => u.ingress < tx.ingress)) tx.accesses

theorem mem_accessesOf {txs : List DeviceTransaction} {o : IngressOrdinal} {a : AccessIntent}
    (h : (o, a) ∈ accessesOf txs) : ∃ u ∈ txs, u.ingress = o := by
  obtain ⟨u, hu, ha⟩ := List.mem_flatMap.mp h
  obtain ⟨_, _, heq⟩ := List.mem_map.mp ha
  exact ⟨u, hu, congrArg Prod.fst heq⟩

/-- Hazards point backwards. -/
theorem mem_hazardsAt {batch : List DeviceTransaction} {tx : DeviceTransaction}
    {o : IngressOrdinal} (h : o ∈ hazardsAt batch tx) :
    ∃ u ∈ batch, u.ingress = o ∧ o < tx.ingress := by
  obtain ⟨a, ha, -⟩ := mem_scan.mp h
  obtain ⟨u, hu, rfl⟩ := mem_accessesOf ha
  obtain ⟨hin, hlt⟩ := List.mem_filter.mp hu
  exact ⟨u, hin, rfl, of_decide_eq_true hlt⟩

/-- What the graph of a batch holds once some of it has been admitted. -/
structure Admits (front : List DeviceTransaction) (g : DependencyGraph) : Prop where
  indexed : DependencyGraph.Indexed g (accessesOf front)
  bounded : ∀ e ∈ g.entries, ∃ u ∈ front, e.ordinal ≤ u.ingress

theorem admits_new : Admits [] .new where
  indexed := .new
  bounded e h := by cases h

/-- The next transaction in ingress order is admitted, with its hazards. -/
theorem Admits.next {batch front rest : List DeviceTransaction} {tx : DeviceTransaction}
    (hbatch : batch = front ++ tx :: rest)
    (hascending : batch.Pairwise fun a b => a.ingress < b.ingress) {g : DependencyGraph}
    (h : Admits front g) :
    ∃ g', g.admitTransaction tx.ingress tx.accesses = some (g', hazardsAt batch tx) ∧
      Admits (front ++ [tx]) g' := by
  subst hbatch
  have hbefore : ∀ u ∈ front, u.ingress < tx.ingress := fun u hu =>
    (List.pairwise_append.mp hascending).2.2 u hu tx List.mem_cons_self
  have hbound : ∀ e ∈ g.entries, e.ordinal < tx.ingress := fun e he => by
    obtain ⟨u, hu, hle⟩ := h.bounded e he
    exact Nat.lt_of_le_of_lt hle (hbefore u hu)
  obtain ⟨g', hadmission, hindexed, hbound', -, -⟩ :=
    DependencyGraph.admit_spec h.indexed hbound tx.accesses
  refine ⟨g', ?_, ?_, fun e he => ⟨tx, by simp, hbound' e he⟩⟩
  · rw [hadmission, hazardsAt, filter_lt_eq_of_sorted DeviceTransaction.ingress hascending]
  · simpa [accessesOf] using hindexed

/-- Every transaction of a batch with its hazards. -/
def hazardTable (batch : List DeviceTransaction) : List (IngressOrdinal × List IngressOrdinal) :=
  batch.map fun tx => (tx.ingress, hazardsAt batch tx)

theorem noteHazards_all {batch : List DeviceTransaction}
    (hascending : batch.Pairwise fun a b => a.ingress < b.ingress) {rest : List DeviceTransaction} :
    ∀ {front : List DeviceTransaction} {g : DependencyGraph}
      {table : List (IngressOrdinal × List IngressOrdinal)}, batch = front ++ rest →
      Admits front g →
      ∃ g', rest.foldlM noteHazards (g, table) =
        some (g', table ++ rest.map fun tx => (tx.ingress, hazardsAt batch tx)) := by
  induction rest with
  | nil => exact fun {front g table} _ _ => ⟨g, by simp⟩
  | cons tx rest ih =>
    intro front g table hbatch h
    obtain ⟨g', hadmission, h'⟩ := h.next hbatch hascending
    obtain ⟨g'', hrest⟩ := @ih (front ++ [tx]) g' (table ++ [(tx.ingress, hazardsAt batch tx)])
      (by simpa using hbatch) h'
    refine ⟨g'', ?_⟩
    simp only [List.foldlM_cons, noteHazards, hadmission, Option.bind_eq_bind, Option.bind_some]
    simpa using hrest

theorem hazardsOf_eq {batch : List DeviceTransaction}
    (hascending : batch.Pairwise fun a b => a.ingress < b.ingress) :
    hazardsOf batch = some (hazardTable batch) := by
  obtain ⟨g, hfold⟩ := @noteHazards_all batch hascending batch [] .new [] rfl admits_new
  rw [hazardsOf, hfold]
  simp [hazardTable]

/-! ## Reach -/

theorem listAt_append (table other : List (IngressOrdinal × List IngressOrdinal))
    (k : IngressOrdinal) :
    listAt (table ++ other) k = if k ∈ table.map Prod.fst then listAt table k
      else listAt other k := by
  unfold listAt
  rw [List.find?_append]
  cases hfind : table.find? fun e => e.1 = k with
  | none =>
    rw [if_neg, Option.none_or]
    intro hin
    obtain ⟨e, he, hk⟩ := List.mem_map.mp hin
    exact List.find?_eq_none.mp hfind e he (decide_eq_true hk)
  | some e =>
    have hk : e.1 = k := by simpa using List.find?_some hfind
    rw [if_pos (List.mem_map.mpr ⟨e, List.mem_of_find?_eq_some hfind, hk⟩)]
    rfl

theorem listAt_eq_nil {table : List (IngressOrdinal × List IngressOrdinal)} {k : IngressOrdinal}
    (h : k ∉ table.map Prod.fst) : listAt table k = [] := by
  have := listAt_append table [] k
  rw [if_neg h, List.append_nil] at this
  exact this

theorem reachesOf_concat (hazards : List (IngressOrdinal × List IngressOrdinal))
    (e : IngressOrdinal × List IngressOrdinal) :
    reachesOf (hazards ++ [e]) =
      reachesOf hazards ++ [(e.1, e.2 ++ e.2.flatMap (listAt (reachesOf hazards)))] := by
  unfold reachesOf
  rw [List.foldl_append]
  rfl

theorem keys_reachesOf (hazards : List (IngressOrdinal × List IngressOrdinal)) :
    (reachesOf hazards).map Prod.fst = hazards.map Prod.fst := by
  induction hazards using List.reverseRecOn with
  | nil => rfl
  | append_singleton front e ih => simp [reachesOf_concat, ih]

/-- What a transaction reaches it reaches through one of its hazards. -/
theorem mem_reachesOf {hazards : List (IngressOrdinal × List IngressOrdinal)}
    {k o : IngressOrdinal} (h : o ∈ listAt (reachesOf hazards) k) :
    o ∈ listAt hazards k ∨ ∃ m ∈ listAt hazards k, o ∈ listAt (reachesOf hazards) m := by
  induction hazards using List.reverseRecOn generalizing k with
  | nil => exact Or.inl h
  | append_singleton front e ih =>
    have hstep : ∀ m, o ∈ listAt (reachesOf front) m → o ∈ listAt (reachesOf (front ++ [e])) m := by
      intro m hm
      rw [reachesOf_concat, listAt_append]
      split
      · exact hm
      · rename_i hout
        rw [listAt_eq_nil hout] at hm
        cases hm
    rw [reachesOf_concat, listAt_append, keys_reachesOf] at h
    rw [listAt_append]
    split at h
    · rename_i hin
      rw [if_pos hin]
      rcases ih h with hhazard | ⟨m, hm, hreach⟩
      · exact Or.inl hhazard
      · exact Or.inr ⟨m, hm, hstep m hreach⟩
    · rename_i hout
      rw [if_neg hout]
      by_cases hk : e.1 = k
      · have hlist : ∀ l : List IngressOrdinal, listAt [(e.1, l)] k = l := fun l => by
          simp [listAt, hk]
        rw [hlist] at h
        rw [show [e] = [(e.1, e.2)] from rfl, hlist]
        rcases List.mem_append.mp h with hhazard | hreach
        · exact Or.inl hhazard
        · obtain ⟨m, hm, hreach⟩ := List.mem_flatMap.mp hreach
          exact Or.inr ⟨m, hm, hstep m hreach⟩
      · rw [listAt_eq_nil (by simpa using fun h => hk h.symm)] at h
        cases h

/-- What is closed under hazards is closed under reach. -/
theorem reaches_closed {hazards : List (IngressOrdinal × List IngressOrdinal)}
    (hback : ∀ k, ∀ m ∈ listAt hazards k, m < k) {s : Set IngressOrdinal}
    (hclosed : ∀ k ∈ s, ∀ m ∈ listAt hazards k, m ∈ s) :
    ∀ k ∈ s, ∀ o ∈ listAt (reachesOf hazards) k, o ∈ s := by
  intro k
  induction k using Nat.strongRecOn with
  | ind k ih =>
    intro hk o ho
    rcases mem_reachesOf ho with hhazard | ⟨m, hm, hreach⟩
    · exact hclosed k hk o hhazard
    · exact ih m (hback k m hm) (hclosed k hk m hm) o hreach

/-- A transaction is ordered before another by the hazards of the batch. -/
def precedes (batch : List DeviceTransaction) (u t : DeviceTransaction) : Bool :=
  (hazardsOf batch).any fun hazards => u.ingress ∈ listAt (reachesOf hazards) t.ingress

section Batch

variable {batch : List DeviceTransaction}

theorem listAt_hazardTable (hascending : batch.Pairwise fun a b => a.ingress < b.ingress)
    {tx : DeviceTransaction} (htx : tx ∈ batch) :
    listAt (hazardTable batch) tx.ingress = hazardsAt batch tx := by
  have hkeys : ((hazardTable batch).map Prod.fst).Nodup := by
    rw [hazardTable, List.map_map]
    exact nodup_map_of_sorted DeviceTransaction.ingress hascending
  have hin : (tx.ingress, hazardsAt batch tx) ∈ hazardTable batch :=
    List.mem_map_of_mem (f := fun tx => (tx.ingress, hazardsAt batch tx)) htx
  rw [listAt, find?_eq_some_of_nodup Prod.fst hkeys hin rfl]
  rfl

theorem mem_listAt_hazardTable (hascending : batch.Pairwise fun a b => a.ingress < b.ingress)
    {k m : IngressOrdinal} (h : m ∈ listAt (hazardTable batch) k) :
    ∃ tx ∈ batch, tx.ingress = k ∧ m ∈ hazardsAt batch tx := by
  by_cases hk : k ∈ (hazardTable batch).map Prod.fst
  · obtain ⟨e, he, rfl⟩ := List.mem_map.mp hk
    obtain ⟨tx, htx, rfl⟩ := List.mem_map.mp he
    exact ⟨tx, htx, rfl, listAt_hazardTable hascending htx ▸ h⟩
  · rw [listAt_eq_nil hk] at h
    cases h

theorem precedes_iff (hascending : batch.Pairwise fun a b => a.ingress < b.ingress)
    {u t : DeviceTransaction} :
    precedes batch u t = true ↔ u.ingress ∈ listAt (reachesOf (hazardTable batch)) t.ingress := by
  rw [precedes, hazardsOf_eq hascending]
  simp

/-- What is closed under hazards has everything before its members in it. -/
theorem precedes_closed (hascending : batch.Pairwise fun a b => a.ingress < b.ingress)
    {s : Set IngressOrdinal}
    (hclosed : ∀ t ∈ batch, t.ingress ∈ s → ∀ m ∈ hazardsAt batch t, m ∈ s)
    {u t : DeviceTransaction} (ht : ∀ m ∈ hazardsAt batch t, m ∈ s) (htx : t ∈ batch)
    (h : precedes batch u t = true) : u.ingress ∈ s := by
  have hback : ∀ k, ∀ m ∈ listAt (hazardTable batch) k, m < k := fun k m hm => by
    obtain ⟨tx, -, rfl, hin⟩ := mem_listAt_hazardTable hascending hm
    obtain ⟨-, -, -, hlt⟩ := mem_hazardsAt hin
    exact hlt
  have hclosed' : ∀ k ∈ s, ∀ m ∈ listAt (hazardTable batch) k, m ∈ s := fun k hk m hm => by
    obtain ⟨tx, htx, rfl, hin⟩ := mem_listAt_hazardTable hascending hm
    exact hclosed tx htx hk m hin
  rcases mem_reachesOf ((precedes_iff hascending).mp h) with hhazard | ⟨m, hm, hreach⟩
  · rw [listAt_hazardTable hascending htx] at hhazard
    exact ht _ hhazard
  · rw [listAt_hazardTable hascending htx] at hm
    exact reaches_closed hback hclosed' m (ht m hm) _ hreach

theorem lt_of_precedes (hascending : batch.Pairwise fun a b => a.ingress < b.ingress)
    {u t : DeviceTransaction} (ht : t ∈ batch) (h : precedes batch u t = true) :
    u.ingress < t.ingress := by
  refine precedes_closed (s := { o | o < t.ingress }) hascending ?_ ?_ ht h
  · intro v _ hv m hm
    obtain ⟨-, -, -, hlt⟩ := mem_hazardsAt hm
    exact Nat.lt_trans hlt hv
  · intro m hm
    obtain ⟨-, -, -, hlt⟩ := mem_hazardsAt hm
    exact hlt

/-! ## Version races -/

/-- Two claims of different transactions may alias and are not ordered. -/
def Races (reaches : List (IngressOrdinal × List IngressOrdinal))
    (e f : IngressOrdinal × VersionPublication) : Prop :=
  e.1 ≠ f.1 ∧ e.2.region.mayAlias f.2.region = true ∧ e.1 ∉ listAt reaches f.1

theorem firstRace_eq_none {reaches : List (IngressOrdinal × List IngressOrdinal)}
    {claims : List (IngressOrdinal × VersionPublication)} :
    ∀ {seen : List (IngressOrdinal × VersionPublication)}, firstRace reaches seen claims = none →
      (∀ f ∈ claims, ∀ e ∈ seen, ¬Races reaches e f) ∧
        claims.Pairwise fun e f => ¬Races reaches e f := by
  induction claims with
  | nil => exact fun _ => ⟨fun f hf => (List.not_mem_nil hf).elim, .nil⟩
  | cons claim rest ih =>
    intro seen h
    rw [firstRace] at h
    split at h
    · cases h
    · rename_i hnone
      have hclear : ∀ e ∈ seen, ¬Races reaches e claim := fun e he hrace => by
        refine List.find?_eq_none.mp hnone e he ?_
        simp [hrace.1, hrace.2.1, hrace.2.2]
      obtain ⟨hseen, hrest⟩ := ih h
      refine ⟨fun f hf e he => ?_, List.pairwise_cons.mpr ⟨fun f hf => ?_, hrest⟩⟩
      · rcases List.mem_cons.mp hf with rfl | hf
        · exact hclear e he
        · exact hseen f hf e (List.mem_append_left _ he)
      · exact hseen f hf claim (List.mem_append_right _ List.mem_cons_self)

/-- Without a race, claims that may alias are ordered as the transactions are. -/
theorem claims_ordered (hascending : batch.Pairwise fun a b => a.ingress < b.ingress)
    (h : versionRaces batch = some none) {a b : DeviceTransaction} (ha : a ∈ batch)
    (hb : b ∈ batch) (hlt : a.ingress < b.ingress) {p q : VersionPublication}
    (hp : p ∈ publishedVersions a.accesses) (hq : q ∈ publishedVersions b.accesses)
    (halias : p.region.mayAlias q.region = true) : precedes batch a b = true := by
  rw [versionRaces, hazardsOf_eq hascending] at h
  obtain ⟨-, hpairs⟩ := firstRace_eq_none (Option.some.inj h)
  rw [claimsOf, List.pairwise_flatMap] at hpairs
  have hrel := rel_of_pairwise_of_lt DeviceTransaction.ingress hascending hpairs.2 ha hb hlt
    (a.ingress, p) (List.mem_map_of_mem hp) (b.ingress, q) (List.mem_map_of_mem hq)
  rw [precedes_iff hascending]
  by_contra hout
  exact hrel ⟨Nat.ne_of_lt hlt, halias, hout⟩

/-! ## Explicit waits -/

theorem mem_edges {g : WaitGraph} {waiter producer : IngressOrdinal} {wait : WaitPoint} :
    (waiter, wait, producer) ∈ g.edges ↔
      ∃ node ∈ g, node.ordinal = waiter ∧ wait ∈ node.waits ∧
        ∃ other ∈ g, other.ordinal = producer ∧ producer ≠ waiter ∧
          other.produces.any (·.discharges wait) = true := by
  unfold WaitGraph.edges
  simp only [List.mem_flatMap, List.mem_map, List.mem_filter, Bool.and_eq_true, decide_eq_true_eq,
    Prod.mk.injEq]
  constructor
  · rintro ⟨node, hnode, wait', hwait, other, ⟨hother, hne, hproduces⟩, rfl, rfl, rfl⟩
    exact ⟨node, hnode, rfl, hwait, other, hother, rfl, hne, hproduces⟩
  · rintro ⟨node, hnode, rfl, hwait, other, hother, rfl, hne, hproduces⟩
    exact ⟨node, hnode, wait, hwait, other, ⟨hother, hne, hproduces⟩, rfl, rfl, rfl⟩

/-- A table of producers with an entry for every wait of some edges, and only their producers. -/
structure Produces (edges table : List (IngressOrdinal × WaitPoint × IngressOrdinal)) : Prop where
  covers : ∀ e ∈ edges, ∃ producer, (e.1, e.2.1, producer) ∈ table
  only : ∀ e ∈ table, e ∈ edges

theorem Produces.note {edges table : List (IngressOrdinal × WaitPoint × IngressOrdinal)}
    (h : Produces edges table) (edge : IngressOrdinal × WaitPoint × IngressOrdinal) :
    Produces (edges ++ [edge]) (noteProducer table edge) := by
  unfold noteProducer
  split
  · rename_i hknown
    have hkept : ∀ {waiter wait producer}, (waiter, wait, producer) ∈ table →
        ∃ lowest, (waiter, wait, lowest) ∈ table.map fun e =>
          if e.1 = edge.1 ∧ e.2.1 = edge.2.1 then (e.1, e.2.1, min e.2.2 edge.2.2) else e := by
      intro waiter wait producer hin
      have himage := List.mem_map_of_mem
        (f := fun e : IngressOrdinal × WaitPoint × IngressOrdinal =>
          if e.1 = edge.1 ∧ e.2.1 = edge.2.1 then (e.1, e.2.1, min e.2.2 edge.2.2) else e) hin
      dsimp only at himage
      split at himage
      · exact ⟨_, himage⟩
      · exact ⟨_, himage⟩
    constructor
    · intro e he
      rcases List.mem_append.mp he with he | he
      · obtain ⟨producer, hin⟩ := h.covers e he
        exact hkept hin
      · obtain ⟨old, hold, hsame⟩ := List.any_eq_true.mp hknown
        simp only [Bool.and_eq_true, decide_eq_true_eq] at hsame
        obtain ⟨waiter, wait, producer⟩ := old
        obtain ⟨rfl, rfl⟩ := hsame
        rw [List.mem_singleton.mp he]
        exact hkept hold
    · intro e he
      obtain ⟨old, hold, heq⟩ := List.mem_map.mp he
      split at heq
      · rename_i hsame
        -- the lower of two producers is one of them
        rcases Nat.le_total old.2.2 edge.2.2 with hle | hle
        · rw [Nat.min_eq_left hle] at heq
          exact heq ▸ List.mem_append_left _ (h.only old hold)
        · rw [Nat.min_eq_right hle, hsame.1, hsame.2] at heq
          exact heq ▸ List.mem_append_right _ List.mem_cons_self
      · exact heq ▸ List.mem_append_left _ (h.only old hold)
  · constructor
    · intro e he
      rcases List.mem_append.mp he with he | he
      · obtain ⟨producer, hin⟩ := h.covers e he
        exact ⟨producer, List.mem_append_left _ hin⟩
      · rw [List.mem_singleton.mp he]
        exact ⟨edge.2.2, List.mem_append_right _ List.mem_cons_self⟩
    · intro e he
      rcases List.mem_append.mp he with he | he
      · exact List.mem_append_left _ (h.only e he)
      · exact List.mem_append_right _ he

theorem produces_earliest (g : WaitGraph) : Produces g.edges (earliestProducers g) := by
  unfold earliestProducers
  generalize g.edges = edges
  induction edges using List.reverseRecOn with
  | nil => exact ⟨fun e he => (List.not_mem_nil he).elim, fun e he => he⟩
  | append_singleton front edge ih =>
    rw [List.foldl_append]
    exact ih.note edge

theorem backwards {g : WaitGraph} (h : forwardExplicitWait g = none)
    {waiter producer : IngressOrdinal} {wait : WaitPoint}
    (hentry : (waiter, wait, producer) ∈ earliestProducers g) : producer < waiter := by
  have hnone : ∀ waiter wait producer, (waiter, wait, producer) ∈ earliestProducers g →
      producer < waiter := by
    simpa [forwardExplicitWait] using h
  exact hnone waiter wait producer hentry

/-- Every wait of an eligible batch is answered by an earlier transaction, and the table of
earliest producers names one. -/
theorem answered (hunanswered : unansweredWait (.of batch) = none)
    (hforward : forwardExplicitWait (.of batch) = none) {tx : DeviceTransaction} (htx : tx ∈ batch)
    {wait : WaitPoint} (hwait : wait ∈ (WaitNode.of tx).waits) :
    ∃ u ∈ batch, u.ingress < tx.ingress ∧
      (WaitNode.of u).produces.any (·.discharges wait) = true ∧
      (tx.ingress, wait, u.ingress) ∈ earliestProducers (.of batch) := by
  have hnode : WaitNode.of tx ∈ WaitGraph.of batch := List.mem_map_of_mem htx
  have hnone : WaitGraph.unproduced (.of batch) = [] := by
    simpa [unansweredWait] using hunanswered
  have hproduced : WaitGraph.producedByAnother (.of batch) tx.ingress wait = true := by
    by_contra hnot
    have hin : (tx.ingress, wait) ∈ WaitGraph.unproduced (.of batch) := by
      refine List.mem_flatMap.mpr ⟨WaitNode.of tx, List.mem_mergeSort.mpr hnode, ?_⟩
      refine List.mem_map.mpr ⟨wait, List.mem_filter.mpr ⟨hwait, ?_⟩, rfl⟩
      simpa [WaitNode.of] using hnot
    rw [hnone] at hin
    cases hin
  obtain ⟨other, hother, hproduces⟩ := List.any_eq_true.mp hproduced
  simp only [Bool.and_eq_true, decide_eq_true_eq] at hproduces
  have hedge : (tx.ingress, wait, other.ordinal) ∈ WaitGraph.edges (.of batch) :=
    mem_edges.mpr ⟨_, hnode, rfl, hwait, other, hother, rfl, hproduces.1, hproduces.2⟩
  obtain ⟨producer, hentry⟩ := (produces_earliest (.of batch)).covers _ hedge
  obtain ⟨-, -, -, -, node, hin, rfl, -, hdischarges⟩ :=
    mem_edges.mp ((produces_earliest (.of batch)).only _ hentry)
  obtain ⟨u, hu, rfl⟩ := List.mem_map.mp hin
  exact ⟨u, hu, backwards hforward hentry, hdischarges, hentry⟩

theorem stamp_of_discharges {u : DeviceTransaction} {slot : StampSlot} {value : StampValue}
    (h : (WaitNode.of u).produces.any (·.discharges (.stamp slot value)) = true) :
    ∃ c ∈ u.completion, c.slot = slot ∧ StampValue.reached c.value value = true := by
  obtain ⟨production, hin, hdischarges⟩ := List.any_eq_true.mp h
  cases production with
  | stamp produced standing =>
    simp only [Production.discharges, Bool.and_eq_true, decide_eq_true_eq] at hdischarges
    rcases List.mem_append.mp hin with hin | hin
    · obtain ⟨c, hc, heq⟩ := Option.map_eq_some_iff.mp (Option.mem_toList.mp hin)
      cases heq
      exact ⟨c, hc, hdischarges⟩
    · obtain ⟨record, -, hsignal⟩ := List.mem_filterMap.mp hin
      unfold signalOf at hsignal
      split at hsignal
      · split at hsignal <;> cases hsignal
      · cases hsignal
  | event produced standing => cases hdischarges

theorem event_of_discharges {u : DeviceTransaction} {event : ResourceId} {value : Nat}
    (h : (WaitNode.of u).produces.any (·.discharges (.event event value)) = true) :
    ∃ v ∈ signalsAt event u.payload.records, value ≤ v := by
  obtain ⟨production, hin, hdischarges⟩ := List.any_eq_true.mp h
  cases production with
  | stamp produced standing => cases hdischarges
  | event produced standing =>
    simp only [Production.discharges, Bool.and_eq_true, decide_eq_true_eq] at hdischarges
    rcases List.mem_append.mp hin with hin | hin
    · obtain ⟨c, -, heq⟩ := Option.map_eq_some_iff.mp (Option.mem_toList.mp hin)
      cases heq
    · obtain ⟨record, hrecord, hsignal⟩ := List.mem_filterMap.mp hin
      refine ⟨standing, List.mem_filterMap.mpr ⟨record, hrecord, ?_⟩, hdischarges.2⟩
      unfold signalOf at hsignal
      split at hsignal
      · split at hsignal
        · rename_i hkind
          cases hsignal
          simp [hkind, hdischarges.1]
        · cases hsignal
      · cases hsignal

theorem mem_explicitWaits {g : WaitGraph} {waiter o : IngressOrdinal} :
    o ∈ explicitWaits g waiter ↔
      ∃ event value, (waiter, .event event value, o) ∈ earliestProducers g := by
  unfold explicitWaits
  rw [List.mem_filterMap]
  constructor
  · rintro ⟨⟨w, point, p⟩, hin, heq⟩
    cases point with
    | stamp slot value => cases heq
    | event event value =>
      dsimp only at heq
      split at heq
      · rename_i hw
        cases heq
        exact ⟨event, value, hw ▸ hin⟩
      · cases heq
  · rintro ⟨event, value, hin⟩
    exact ⟨_, hin, by simp⟩

/-! ## Eligible batches -/

theorem ascending_of_inOrder {batch : List DeviceTransaction} (h : outOfIngressOrder batch = none) :
    batch.Pairwise fun a b => a.ingress < b.ingress := by
  rw [← List.isChain_iff_pairwise]
  induction batch with
  | nil => exact .nil
  | cons a rest ih =>
    cases rest with
    | nil => exact .singleton a
    | cons b rest =>
      rw [outOfIngressOrder] at h
      split at h
      · cases h
      · rename_i hlt
        exact .cons_cons (Nat.lt_of_not_le hlt) (ih h)

/-- What an eligible batch promises. -/
structure Orderly (batch : List DeviceTransaction) : Prop where
  ascending : batch.Pairwise fun a b => a.ingress < b.ingress
  unfenced : ∀ tx ∈ batch, ∀ fence, .fence fence ∉ tx.payload.prerequisites
  unanswered : unansweredWait (.of batch) = none
  forward : forwardExplicitWait (.of batch) = none
  races : versionRaces batch = some none

theorem orderly_of_eligible (h : eligible batch = some (.ok ())) : Orderly batch := by
  unfold eligible at h
  split at h
  · cases h
  · rename_i hnone
    have horElse : ∀ {x y : Option Ineligible}, (x <|> y) = none → x = none ∧ y = none := by
      intro x y hxy
      cases x with
      | none => exact ⟨rfl, hxy⟩
      | some problem => cases hxy
    obtain ⟨horder, hnone⟩ := horElse hnone
    obtain ⟨-, hnone⟩ := horElse hnone
    obtain ⟨hfence, hnone⟩ := horElse hnone
    obtain ⟨hunanswered, hforward⟩ := horElse hnone
    refine ⟨ascending_of_inOrder horder, fun tx htx fence hin => ?_, hunanswered, hforward, ?_⟩
    · have hfree := List.find?_eq_none.mp (Option.map_eq_none_iff.mp hfence) tx htx
      exact hfree (List.any_eq_true.mpr ⟨_, hin, rfl⟩)
    · obtain ⟨race, hraces, heq⟩ := Option.map_eq_some_iff.mp h
      cases race with
      | none => exact hraces
      | some problem => cases heq

def Payload.isPresent : Payload → Bool
  | .present _ => true
  | .exec _ | .query _ | .control => false

/-- What a batch has to satisfy besides being eligible.  Every hypothesis is one the machine
keeps by other means: ingress gives out session and channel positions, a guest keeps the stamps
of a slot within half of their range, and no command names an empty region.  Presentations of one
channel have to be ordered by what they read. -/
structure Comparable (batch : List DeviceTransaction) (base : StampSlot → StampValue) : Prop where
  session : ∀ tx ∈ batch, tx.identity.session = .first
  channels : batch.Pairwise fun a b => a.domain = b.domain → a.sequence < b.sequence
  stamps : ∀ tx ∈ batch, ∀ c ∈ tx.completion, StampValue.rank (base c.slot) c.value < 2 ^ 31
  waits : ∀ tx ∈ batch, ∀ w ∈ tx.stampWaits, StampValue.rank (base w.slot) w.value < 2 ^ 31
  named : ∀ tx ∈ batch, ∀ p ∈ publishedVersions tx.accesses, p.region.mayAlias p.region = true
  frames : ∀ a ∈ batch, ∀ b ∈ batch, a.ingress < b.ingress → a.domain = b.domain →
    a.payload.isPresent = true → b.payload.isPresent = true → precedes batch a b = true

theorem Orderly.posed (h : Orderly batch) {base : StampSlot → StampValue}
    (hcomparable : Comparable batch base) :
    Posed batch base fun u t => precedes batch u t = true where
  ascending := h.ascending
  channels := hcomparable.channels
  session := hcomparable.session
  unfenced := h.unfenced
  stamps := hcomparable.stamps
  waits := hcomparable.waits
  claims _ ha _ hb hlt _ hp _ hq halias :=
    claims_ordered h.ascending h.races ha hb hlt (mem_written hp) (mem_written hq) halias
  named tx htx p hp := hcomparable.named tx htx p (mem_written hp)
  frames a ha b hb hlt hdomain hpa hpb := by
    obtain ⟨p, hp⟩ := hpa
    obtain ⟨q, hq⟩ := hpb
    exact hcomparable.frames a ha b hb hlt hdomain (by rw [hp]; rfl) (by rw [hq]; rfl)

/-- A stamp that a transaction waits for is owed by an earlier one. -/
theorem Orderly.stamp_owed (h : Orderly batch) {tx : DeviceTransaction} (htx : tx ∈ batch)
    {w : StampWait} (hw : w ∈ tx.stampWaits) :
    ∃ u ∈ batch, u.ingress < tx.ingress ∧ ∃ c ∈ u.completion, c.slot = w.slot ∧
      StampValue.reached c.value w.value = true := by
  have hwait : .stamp w.slot w.value ∈ (WaitNode.of tx).waits :=
    List.mem_append_left _ (List.mem_map.mpr ⟨w, hw, rfl⟩)
  obtain ⟨u, hu, hlt, hdischarges, -⟩ := answered h.unanswered h.forward htx hwait
  exact ⟨u, hu, hlt, stamp_of_discharges hdischarges⟩

/-- An event that a transaction waits for is signalled by an earlier one, which is among its
explicit waits. -/
theorem Orderly.event_signalled (h : Orderly batch) {tx : DeviceTransaction} (htx : tx ∈ batch)
    {event : ResourceId} {value : Nat} (hp : .event event value ∈ tx.payload.prerequisites) :
    ∃ u ∈ batch, u.ingress < tx.ingress ∧ u.ingress ∈ explicitWaits (.of batch) tx.ingress ∧
      ∃ v ∈ signalsAt event u.payload.records, value ≤ v := by
  have hwait : .event event value ∈ (WaitNode.of tx).waits :=
    List.mem_append_right _ (List.mem_filterMap.mpr ⟨_, hp, rfl⟩)
  obtain ⟨u, hu, hlt, hdischarges, hentry⟩ := answered h.unanswered h.forward htx hwait
  exact ⟨u, hu, hlt, mem_explicitWaits.mpr ⟨event, value, hentry⟩,
    event_of_discharges hdischarges⟩

/-- Explicit waits are for earlier transactions of the batch. -/
theorem Orderly.explicitWaits_back (h : Orderly batch) {k o : IngressOrdinal}
    (ho : o ∈ explicitWaits (.of batch) k) : ∃ u ∈ batch, u.ingress = o ∧ o < k := by
  obtain ⟨event, value, hentry⟩ := mem_explicitWaits.mp ho
  obtain ⟨-, -, -, -, node, hin, rfl, -, -⟩ :=
    mem_edges.mp ((produces_earliest (.of batch)).only _ hentry)
  obtain ⟨u, hu, rfl⟩ := List.mem_map.mp hin
  exact ⟨u, hu, rfl, backwards h.forward hentry⟩

end Batch

end Orchard.Plane
