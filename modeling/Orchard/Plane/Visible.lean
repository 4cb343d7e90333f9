/-
  Plane/Visible.lean --- what a step of the interpreter adds to its trace.

  Every step appends to the trace, and a trace remembers where each stamp slot and event has
  got to.  What a transaction shows otherwise (fences, frames, queries, content versions)
  depends on the content authority only at the bytes the transaction writes.
-/
import Mathlib.Data.List.Induction
import Orchard.Plane.Schedule

set_option autoImplicit false

namespace Orchard.Plane

open Orchard.Content

/-! ## Stamps -/

namespace StampValue

theorem toInt_sub_cond (v w : StampValue) :
    (v - w).toInt =
      if 2 * ((2 ^ 32 - w.toNat + v.toNat) % 2 ^ 32) < 2 ^ 32 then
        (((2 ^ 32 - w.toNat + v.toNat) % 2 ^ 32 : Nat) : Int)
      else (((2 ^ 32 - w.toNat + v.toNat) % 2 ^ 32 : Nat) : Int) - ((2 ^ 32 : Nat) : Int) := by
  rw [BitVec.toInt_eq_toNat_cond, BitVec.toNat_sub]

theorem not_follows_of_follows {v w : StampValue} (h : follows v w = true) :
    follows w v = false := by
  simp only [follows, decide_eq_true_eq, decide_eq_false_iff_not] at *
  rw [toInt_sub_cond] at *
  have hv := v.isLt
  have hw := w.isLt
  split at h <;> split <;> omega

theorem later_eq_of_follows {v w : StampValue} (h : follows v w = true) : later w v = v := by
  rw [later, not_follows_of_follows h]
  rfl

theorem later_self (v : StampValue) : later v v = v := ite_self v

/-- How far a point lies past the start of a window. -/
def rank (base v : StampValue) : Nat := (v - base).toNat

theorem rank_injective (base : StampValue) {v w : StampValue} (h : rank base v = rank base w) :
    v = w := by
  unfold rank at h
  have hsub : v - base = w - base := BitVec.eq_of_toNat_eq h
  exact BitVec.sub_left_inj base |>.mp hsub

theorem toInt_sub_of_rank {base v w : StampValue} (hv : rank base v < 2 ^ 31)
    (hw : rank base w < 2 ^ 31) : (v - w).toInt = rank base v - rank base w := by
  unfold rank at *
  rw [toInt_sub_cond]
  rw [BitVec.toNat_sub] at *
  rw [BitVec.toNat_sub]
  have h1 := v.isLt
  have h2 := w.isLt
  have h3 := base.isLt
  split <;> omega

/-- Within half of the number circle the wrapping order is the order of the ranks. -/
theorem follows_iff {base v w : StampValue} (hv : rank base v < 2 ^ 31)
    (hw : rank base w < 2 ^ 31) : follows v w = true ↔ rank base w < rank base v := by
  rw [follows, decide_eq_true_eq, toInt_sub_of_rank hv hw]
  omega

theorem reached_iff {base v w : StampValue} (hv : rank base v < 2 ^ 31)
    (hw : rank base w < 2 ^ 31) : reached v w = true ↔ rank base w ≤ rank base v := by
  rw [reached, decide_eq_true_eq, toInt_sub_of_rank hv hw]
  omega

end StampValue

/-! ## Monotone points -/

section History

variable {K V : Type} [DecidableEq K] {read : Observation → Option (K × V)}

theorem historyAt_append (front back : List Observation) (key : K) :
    historyAt read (front ++ back) key = historyAt read front key ++ historyAt read back key := by
  simp [historyAt]

theorem historyAt_singleton_none {o : Observation} (h : read o = none) (key : K) :
    historyAt read [o] key = [] := by
  simp [historyAt, h]

theorem historyAt_singleton {o : Observation} {k : K} {v : V} (h : read o = some (k, v))
    (key : K) : historyAt read [o] key = if k = key then [v] else [] := by
  by_cases hk : k = key <;> simp [historyAt, h, hk]

end History

theorem restingStamp_concat (values : List StampValue) (v : StampValue) :
    restingStamp (values ++ [v]) = some (StampValue.later ((restingStamp values).getD v) v) := by
  rw [restingStamp, List.foldl_append]
  rfl

theorem restingEvent_concat (values : List Nat) (v : Nat) :
    restingEvent (values ++ [v]) = max (restingEvent values) v := by
  rw [restingEvent, List.foldl_append]
  rfl

/-- One publication into a stamp slot. -/
theorem restingStamp_advance {mid next : Furthest} {o : Observation} (h : advance mid o = some next)
    {values : List StampValue} {slot : StampSlot} (hvalues : restingStamp values = mid.1 slot) :
    restingStamp (values ++ historyAt Observation.stamp [o] slot) = next.1 slot := by
  cases o with
  | stampPublished s v =>
    rw [historyAt_singleton (show Observation.stamp _ = some (s, v) from rfl)]
    rw [advance] at h
    split at h
    · rename_i hadvances
      cases h
      by_cases hs : s = slot
      · subst hs
        dsimp only
        rw [if_pos rfl, restingStamp_concat, hvalues, Function.update_self]
        cases hstanding : mid.1 s with
        | none => exact congrArg some (StampValue.later_self v)
        | some standing =>
          rw [hstanding] at hadvances
          exact congrArg some (StampValue.later_eq_of_follows hadvances)
      · dsimp only
        rw [if_neg hs, List.append_nil, Function.update_of_ne (Ne.symm hs), hvalues]
    · cases h
  | eventAdvanced e v =>
    rw [historyAt_singleton_none rfl, List.append_nil, hvalues]
    rw [advance] at h
    split at h
    · cases h
      rfl
    · cases h
  | _ =>
    cases h
    rw [historyAt_singleton_none rfl, List.append_nil, hvalues]

/-- One publication into an event. -/
theorem restingEvent_advance {mid next : Furthest} {o : Observation} (h : advance mid o = some next)
    {values : List Nat} {event : ResourceId}
    (hvalues : restingEvent values = (mid.2 event).getD 0) :
    restingEvent (values ++ historyAt Observation.event [o] event) = (next.2 event).getD 0 := by
  cases o with
  | eventAdvanced e v =>
    rw [historyAt_singleton (show Observation.event _ = some (e, v) from rfl)]
    rw [advance] at h
    split at h
    · rename_i hadvances
      cases h
      by_cases he : e = event
      · subst he
        dsimp only
        rw [if_pos rfl, restingEvent_concat, hvalues, Function.update_self]
        cases hstanding : mid.2 e with
        | none => exact Nat.max_eq_right (Nat.zero_le v)
        | some standing =>
          rw [hstanding] at hadvances
          exact Nat.max_eq_right (Nat.le_of_lt (of_decide_eq_true hadvances))
      · dsimp only
        rw [if_neg he, List.append_nil, Function.update_of_ne (Ne.symm he), hvalues]
    · cases h
  | stampPublished s v =>
    rw [historyAt_singleton_none rfl, List.append_nil, hvalues]
    rw [advance] at h
    split at h
    · cases h
      rfl
    · cases h
  | _ =>
    cases h
    rw [historyAt_singleton_none rfl, List.append_nil, hvalues]

/-- A trace whose publications all advance leaves each point where the last of them put it. -/
theorem resting_of_advance {trace : List Observation} :
    ∀ {reached : Furthest},
      trace.foldlM advance (fun _ => none, fun _ => none) = some reached →
      (∀ slot, restingStamp (historyAt Observation.stamp trace slot) = reached.1 slot) ∧
        ∀ event, restingEvent (historyAt Observation.event trace event) =
          (reached.2 event).getD 0 := by
  induction trace using List.reverseRecOn with
  | nil =>
    intro reached h
    cases h
    exact ⟨fun _ => rfl, fun _ => rfl⟩
  | append_singleton front o ih =>
    intro reached h
    rw [List.foldlM_append] at h
    obtain ⟨mid, hmid, hlast⟩ := Option.bind_eq_some_iff.mp h
    obtain ⟨hstamps, hevents⟩ := ih hmid
    have hstep : advance mid o = some reached := by
      simpa using hlast
    refine ⟨fun slot => ?_, fun event => ?_⟩
    · rw [historyAt_append]
      exact restingStamp_advance hstep (hstamps slot)
    · rw [historyAt_append]
      exact restingEvent_advance hstep (hevents event)

/-! ## Growth -/

/-- An observation that does not say how far a point has got. -/
def Observation.timeless : Observation → Bool
  | .stampPublished .. | .eventAdvanced .. => false
  | _ => true

theorem Observation.stamp_eq_none_of_timeless {o : Observation} (h : o.timeless = true) :
    o.stamp = none := by
  cases o <;> first | rfl | cases h

theorem advance_of_timeless {o : Observation} (h : o.timeless = true) (reached : Furthest) :
    advance reached o = some reached := by
  cases o <;> first | rfl | cases h

/-- What an interpreter has added to its trace, with the points it has moved. -/
structure Grows (i j : Interpreter) (new : List Observation) : Prop where
  generation : j.generation = i.generation
  answers : j.answers = i.answers
  trace : j.trace = i.trace ++ new
  advances : new.foldlM advance (i.stamps, i.events) = some (j.stamps, j.events)

theorem Grows.refl (i : Interpreter) : Grows i i [] := ⟨rfl, rfl, by simp, rfl⟩

theorem Grows.trans {i j k : Interpreter} {front back : List Observation} (h₁ : Grows i j front)
    (h₂ : Grows j k back) : Grows i k (front ++ back) where
  generation := h₂.generation.trans h₁.generation
  answers := h₂.answers.trans h₁.answers
  trace := by rw [h₂.trace, h₁.trace, List.append_assoc]
  advances := by
    rw [List.foldlM_append, h₁.advances]
    exact h₂.advances

theorem grows_observe (i : Interpreter) {o : Observation} (h : o.timeless = true) :
    Grows i (i.observe o) [o] where
  generation := rfl
  answers := rfl
  trace := rfl
  advances := by
    rw [List.foldlM_cons, advance_of_timeless h]
    rfl

theorem grows_countRun (i : Interpreter) : Grows i i.countRun [] :=
  ⟨rfl, rfl, (List.append_nil _).symm, rfl⟩

theorem grows_publish (i : Interpreter) (stamp : CompletionStamp) :
    ∃ new, Grows i (i.publish stamp) new ∧
      (new = [] ∨ new = [.stampPublished stamp.slot stamp.value]) := by
  unfold Interpreter.publish
  split
  · rename_i hadvances
    refine ⟨_, ⟨rfl, rfl, rfl, ?_⟩, Or.inr rfl⟩
    rw [List.foldlM_cons, advance, if_pos hadvances]
    rfl
  · exact ⟨[], .refl i, Or.inl rfl⟩

/-! ## Records -/

/-- The values the signals of some records give an event. -/
def signalsAt (event : ResourceId) (records : List ResolvedOperation) : List Nat :=
  records.filterMap fun
    | .event op => if op.kind = .signal ∧ op.event = event then some op.value else none
    | _ => none

/-- The fence updates among some records. -/
def fencesOf (records : List ResolvedOperation) : List Observation :=
  records.filterMap fun
    | .fence op => if op.kind = .update then some (.fenceUpdated op.fence) else none
    | _ => none

/-- What applying some records does. -/
structure Recorded (i j : Interpreter) (records : List ResolvedOperation)
    (new : List Observation) : Prop where
  grows : Grows i j new
  content : j.content = i.content
  stamps : j.stamps = i.stamps
  timeless : new.filter Observation.timeless = fencesOf records
  quiet : ∀ o ∈ new, o.stamp = none
  events : ∀ event, j.eventGeneration event =
    (signalsAt event records).foldl max (i.eventGeneration event)

theorem Recorded.nil (i : Interpreter) : Recorded i i [] [] :=
  ⟨.refl i, rfl, rfl, rfl, by simp, fun _ => rfl⟩

theorem Recorded.append {i j k : Interpreter} {first second : List ResolvedOperation}
    {front back : List Observation} (h₁ : Recorded i j first front)
    (h₂ : Recorded j k second back) : Recorded i k (first ++ second) (front ++ back) where
  grows := h₁.grows.trans h₂.grows
  content := h₂.content.trans h₁.content
  stamps := h₂.stamps.trans h₁.stamps
  timeless := by
    rw [List.filter_append, h₁.timeless, h₂.timeless]
    exact List.filterMap_append.symm
  quiet o ho := by
    rcases List.mem_append.mp ho with ho | ho
    · exact h₁.quiet o ho
    · exact h₂.quiet o ho
  events event := by
    rw [h₂.events, h₁.events, signalsAt, signalsAt, signalsAt, List.filterMap_append,
      List.foldl_append]

theorem recorded_event (i : Interpreter) (op : EventOp) :
    ∃ new, Recorded i (i.applyRecord (.event op)) [.event op] new := by
  unfold Interpreter.applyRecord
  dsimp only
  split
  · rename_i hadvances
    obtain ⟨hkind, hlt⟩ := of_decide_eq_true hadvances
    refine ⟨_, ⟨⟨rfl, rfl, rfl, ?_⟩, rfl, rfl, rfl, by simp [Observation.stamp],
      fun event => ?_⟩⟩
    · rw [List.foldlM_cons, advance, if_pos]
      · rfl
      · dsimp only
        cases hat : i.events op.event with
        | none => rfl
        | some standing =>
          rw [Interpreter.eventGeneration, hat] at hlt
          exact decide_eq_true hlt
    · by_cases he : op.event = event
      · subst he
        have hsignals : signalsAt op.event [.event op] = [op.value] := by
          simp [signalsAt, hkind]
        rw [hsignals]
        simp only [Interpreter.eventGeneration, Interpreter.observe, Function.update_self,
          Option.getD_some, List.foldl_cons, List.foldl_nil]
        exact (Nat.max_eq_right (Nat.le_of_lt hlt)).symm
      · have hsignals : signalsAt event [.event op] = [] := by
          simp [signalsAt, he]
        rw [hsignals]
        simp [Interpreter.eventGeneration, Interpreter.observe, Function.update_of_ne (Ne.symm he)]
  · rename_i hstays
    refine ⟨[], .refl i, rfl, rfl, rfl, by simp, fun event => ?_⟩
    by_cases hsignal : op.kind = .signal ∧ op.event = event
    · obtain ⟨hkind, rfl⟩ := hsignal
      have hle : op.value ≤ i.eventGeneration op.event := by
        by_contra hlt
        exact hstays (decide_eq_true ⟨hkind, Nat.lt_of_not_le hlt⟩)
      have hsignals : signalsAt op.event [.event op] = [op.value] := by
        simp [signalsAt, hkind]
      rw [hsignals]
      exact (Nat.max_eq_left hle).symm
    · have hsignals : signalsAt event [.event op] = [] := by
        simp [signalsAt, hsignal]
      rw [hsignals]
      rfl

theorem recorded_one (i : Interpreter) (record : ResolvedOperation) :
    ∃ new, Recorded i (i.applyRecord record) [record] new := by
  cases record with
  | event op => exact recorded_event i op
  | fence op =>
    obtain ⟨kind, fence⟩ := op
    cases kind with
    | update =>
      exact ⟨[.fenceUpdated fence], ⟨rfl, rfl, rfl, rfl⟩, rfl, rfl, rfl,
        by simp [Observation.stamp], fun _ => rfl⟩
    | wait => exact ⟨[], .refl i, rfl, rfl, rfl, by simp, fun _ => rfl⟩
  | _ => exact ⟨[], .refl i, rfl, rfl, rfl, by simp, fun _ => rfl⟩

theorem recorded_all (i : Interpreter) (records : List ResolvedOperation) :
    ∃ new, Recorded i (records.foldl Interpreter.applyRecord i) records new := by
  induction records generalizing i with
  | nil => exact ⟨[], .nil i⟩
  | cons record rest ih =>
    obtain ⟨front, hfront⟩ := recorded_one i record
    obtain ⟨back, hback⟩ := ih (i.applyRecord record)
    exact ⟨front ++ back, hfront.append hback⟩

/-! ## Versions -/

/-- The version the content authority holds at a byte. -/
def heldAt (content : ContentLedger) (backing : BackingId) (x : Nat) : Option ContentVersion :=
  (content.entryOr backing).canonical.versionAt x

/-- No backing has been declared, so that a record naming a whole one names no bytes. -/
def Undeclared (content : ContentLedger) : Prop := ∀ backing, content.extent backing = none

theorem undeclared_new : Undeclared .new := fun _ => rfl

/-- The bytes of a region that do not depend on a declaration. -/
def bytesOf : AccessKey → Option NamedRange
  | .range _ bytes => if h : bytes.Named then some ⟨bytes, h⟩ else none
  | _ => none

theorem writtenBytes_eq {content : ContentLedger} (h : Undeclared content) (key : AccessKey) :
    writtenBytes content key = bytesOf key := by
  cases key with
  | whole r => exact h r.backing
  | _ => rfl

/-- A claim covers a byte of a backing. -/
def VersionPublication.Covers (p : VersionPublication) (backing : BackingId) (x : Nat) : Prop :=
  p.backing = backing ∧ ∃ bytes, bytesOf p.region = some bytes ∧ bytes.1.Has x

/-- What a claim shows over what a backing holds. -/
def shown (held : VersionCoverage) (p : VersionPublication) : List Observation :=
  match bytesOf p.region with
  | none => [.versionPublished p.backing p.region p.target]
  | some bytes =>
    let out := held.applied bytes p.target
    if out.wasPartlyStale then
      .versionBeaten p.backing p.region p.target out.taken.len ::
        if out.isEmpty then [] else [.versionPublished p.backing p.region p.target]
    else [.versionPublished p.backing p.region p.target]

/-- What a write takes depends on the versions of its own bytes only. -/
theorem applied_congr {c d : VersionCoverage} {bytes : NamedRange}
    (h : ∀ x, bytes.1.Has x → c.versionAt x = d.versionAt x) (version : ContentVersion) :
    c.applied bytes version = d.applied bytes version := by
  have htaken : (c.applied bytes version).taken = (d.applied bytes version).taken := by
    refine RangeSet.ext_bytes (Set.ext fun x => ?_)
    rw [VersionCoverage.mem_applied_taken, VersionCoverage.mem_applied_taken]
    exact and_congr_right fun hx => by rw [h x hx]
  have hrefused : (c.applied bytes version).refused = (d.applied bytes version).refused := by
    refine RangeSet.ext_bytes (Set.ext fun x => ?_)
    rw [VersionCoverage.mem_applied_refused, VersionCoverage.mem_applied_refused]
    exact and_congr_right fun hx => by rw [h x hx]
  cases hc : c.applied bytes version
  cases hd : d.applied bytes version
  rw [hc, hd] at htaken hrefused
  exact congrArg₂ Applied.mk htaken hrefused

theorem shown_congr {content other : ContentLedger} {p : VersionPublication}
    (h : ∀ x, p.Covers p.backing x → heldAt content p.backing x = heldAt other p.backing x) :
    shown (content.entryOr p.backing).canonical p =
      shown (other.entryOr p.backing).canonical p := by
  unfold shown
  cases hbytes : bytesOf p.region with
  | none => rfl
  | some bytes =>
    have hcongr := @applied_congr (content.entryOr p.backing).canonical
      (other.entryOr p.backing).canonical bytes
      (fun x hx => h x ⟨rfl, bytes, hbytes, hx⟩) p.target
    dsimp only
    rw [hcongr]

/-- The content authority after a claim has been made good. -/
def land (content : ContentLedger) (p : VersionPublication) : ContentLedger :=
  match bytesOf p.region with
  | none => content
  | some bytes => (content.materialize p.backing bytes p.target .deviceOwned).1

theorem extent_materialize (content : ContentLedger) (b c : BackingId) (bytes : NamedRange)
    (version : ContentVersion) (replica : Replica) :
    (content.materialize b bytes version replica).1.extent c = content.extent c := by
  simp only [ContentLedger.extent, ContentLedger.materialize, ContentLedger.setEntry]
  by_cases hc : c = b
  · subst hc
    rw [Function.update_self]
    simp only [Option.bind_some, Entry.materialize, ContentLedger.entryOr]
    cases content.backings c <;> rfl
  · rw [Function.update_of_ne hc]

theorem undeclared_land {content : ContentLedger} (h : Undeclared content)
    (p : VersionPublication) : Undeclared (land content p) := by
  intro backing
  unfold land
  split
  · exact h backing
  · rw [extent_materialize]
    exact h backing

/-- A claim raises the versions of the bytes it covers, and no others. -/
theorem heldAt_land_of_covers {content : ContentLedger} {p : VersionPublication}
    {backing : BackingId} {x : Nat} (h : p.Covers backing x) :
    heldAt (land content p) backing x =
      (heldAt content backing x).merge max (some p.target) := by
  obtain ⟨rfl, bytes, hbytes, hx⟩ := h
  have hentry : (land content p).entryOr p.backing =
      (content.entryOr p.backing).materialize bytes p.target .deviceOwned := by
    rw [land, hbytes]
    exact content.entryOr_setEntry_self p.backing _
  rw [heldAt, hentry, Entry.materialize, VersionCoverage.versionAt_apply, if_pos hx, heldAt]

theorem heldAt_land_of_not_covers {content : ContentLedger} {p : VersionPublication}
    {backing : BackingId} {x : Nat} (h : ¬p.Covers backing x) :
    heldAt (land content p) backing x = heldAt content backing x := by
  unfold land
  cases hbytes : bytesOf p.region with
  | none => rfl
  | some bytes =>
    by_cases hb : backing = p.backing
    · subst hb
      have hentry : (content.materialize p.backing bytes p.target .deviceOwned).1.entryOr
          p.backing = (content.entryOr p.backing).materialize bytes p.target .deviceOwned :=
        content.entryOr_setEntry_self p.backing _
      have hx : ¬bytes.1.Has x := fun hx => h ⟨rfl, bytes, hbytes, hx⟩
      simp only [heldAt]
      rw [hentry, Entry.materialize, VersionCoverage.versionAt_apply, if_neg hx]
    · simp only [heldAt]
      rw [ContentLedger.entryOr_materialize_of_ne _ hb]

/-- What a list of claims shows, each over what the ones before it left. -/
def shownAll : ContentLedger → List VersionPublication → List Observation
  | _, [] => []
  | content, p :: rest =>
    shown (content.entryOr p.backing).canonical p ++ shownAll (land content p) rest

/-- What a list of claims shows depends on the versions of their own bytes only. -/
theorem shownAll_congr {claims : List VersionPublication} :
    ∀ {content other : ContentLedger},
      (∀ p ∈ claims, ∀ backing x, p.Covers backing x →
        heldAt content backing x = heldAt other backing x) →
      shownAll content claims = shownAll other claims := by
  induction claims with
  | nil => intros; rfl
  | cons p rest ih =>
    intro content other h
    rw [shownAll, shownAll, shown_congr (h p List.mem_cons_self p.backing), ih]
    intro q hq backing x hx
    have hheld := h q (List.mem_cons_of_mem p hq) backing x hx
    by_cases hp : p.Covers backing x
    · rw [heldAt_land_of_covers hp, heldAt_land_of_covers hp, hheld]
    · rw [heldAt_land_of_not_covers hp, heldAt_land_of_not_covers hp, hheld]

theorem timeless_of_mem_shown {held : VersionCoverage} {p : VersionPublication}
    {o : Observation} (h : o ∈ shown held p) : o.timeless = true := by
  unfold shown at h
  split at h
  · cases List.mem_singleton.mp h
    rfl
  · dsimp only at h
    split at h
    · rcases List.mem_cons.mp h with rfl | h
      · rfl
      · split at h
        · cases h
        · cases List.mem_singleton.mp h
          rfl
    · cases List.mem_singleton.mp h
      rfl

theorem timeless_of_mem_shownAll {claims : List VersionPublication} :
    ∀ {content : ContentLedger} {o : Observation}, o ∈ shownAll content claims →
      o.timeless = true := by
  induction claims with
  | nil => intro content o h; cases h
  | cons p rest ih =>
    intro content o h
    rcases List.mem_append.mp h with h | h
    · exact timeless_of_mem_shown h
    · exact ih h

/-- What publishing some versions does to an interpreter. -/
structure Landed (i j : Interpreter) (claims : List VersionPublication) : Prop where
  grows : Grows i j (shownAll i.content claims)
  content : j.content = claims.foldl land i.content
  stamps : j.stamps = i.stamps
  events : j.events = i.events

theorem landed_one {i : Interpreter} (h : Undeclared i.content) (p : VersionPublication) :
    Landed i (i.publishVersion p) [p] := by
  have happend : shownAll i.content [p] = shown (i.content.entryOr p.backing).canonical p :=
    List.append_nil _
  unfold Interpreter.publishVersion
  dsimp only
  rw [writtenBytes_eq h]
  cases hbytes : bytesOf p.region with
  | none =>
    refine ⟨?_, ?_, rfl, rfl⟩
    · rw [happend, shown, hbytes]
      exact grows_observe i rfl
    · simp [land, hbytes, Interpreter.observe]
  | some bytes =>
    have hland : [p].foldl land i.content =
        (i.content.materialize p.backing bytes p.target .deviceOwned).1 := by
      simp [land, hbytes]
    have happlied : (i.content.materialize p.backing bytes p.target .deviceOwned).2 =
        (i.content.entryOr p.backing).canonical.applied bytes p.target := rfl
    dsimp only
    rw [happlied]
    split
    · rename_i hstale
      split
      · rename_i hempty
        refine ⟨?_, hland.symm, rfl, rfl⟩
        rw [happend, shown, hbytes]
        dsimp only
        rw [if_pos hstale, if_pos hempty]
        exact ⟨rfl, rfl, rfl, rfl⟩
      · rename_i hsome
        refine ⟨?_, hland.symm, rfl, rfl⟩
        rw [happend, shown, hbytes]
        dsimp only
        rw [if_pos hstale, if_neg hsome]
        exact ⟨rfl, rfl, List.append_assoc .., rfl⟩
    · rename_i hfresh
      refine ⟨?_, hland.symm, rfl, rfl⟩
      rw [happend, shown, hbytes]
      dsimp only
      rw [if_neg hfresh]
      exact ⟨rfl, rfl, rfl, rfl⟩

theorem landed_all {claims : List VersionPublication} :
    ∀ {i : Interpreter}, Undeclared i.content →
      Landed i (claims.foldl Interpreter.publishVersion i) claims := by
  induction claims with
  | nil => exact fun {i} _ => ⟨.refl i, rfl, rfl, rfl⟩
  | cons p rest ih =>
    intro i h
    have hone := landed_one h p
    have hcontent : (i.publishVersion p).content = land i.content p := hone.content
    have hrest := ih (i := i.publishVersion p) (by
      rw [hcontent]
      exact undeclared_land h p)
    refine ⟨?_, ?_, hrest.stamps.trans hone.stamps, hrest.events.trans hone.events⟩
    · have hgrows := hone.grows.trans hrest.grows
      rw [hcontent] at hgrows
      simpa [shownAll] using hgrows
    · rw [List.foldl_cons, hrest.content, hcontent]
      rfl

/-! ## One transaction -/

/-- The versions a transaction makes current when nothing answers queries. -/
def DeviceTransaction.written (tx : DeviceTransaction) : List VersionPublication :=
  match tx.payload with
  | .query _ => []
  | .exec _ | .present _ | .control => publishedVersions tx.accesses

/-- What a transaction shows over some content, leaving out how far points have got. -/
def shownBy (content : ContentLedger) (tx : DeviceTransaction) : List Observation :=
  fencesOf tx.payload.records ++
    match tx.payload with
    | .query q => [.queryUnanswered tx.ingress q.request.kind .noAnswer]
    | .present p => .framePresented tx.domain p.mapping :: shownAll content tx.written
    | .exec _ | .control => shownAll content tx.written

/-- What the work of a transaction does. -/
structure Worked (i j : Interpreter) (tx : DeviceTransaction) (new : List Observation) :
    Prop where
  grows : Grows i j new
  content : j.content = tx.written.foldl land i.content
  stamps : j.stamps = i.stamps
  timeless : new.filter Observation.timeless = shownBy i.content tx
  quiet : ∀ o ∈ new, o.stamp = none
  events : ∀ event, j.eventGeneration event =
    (signalsAt event tx.payload.records).foldl max (i.eventGeneration event)

/-- The records of a transaction, and then something that moves no point. -/
theorem worked_of {i r j : Interpreter} {tx : DeviceTransaction} {front back : List Observation}
    (hrecorded : Recorded i r tx.payload.records front) (hgrows : Grows r j back)
    (hcontent : j.content = tx.written.foldl land r.content) (hstamps : j.stamps = r.stamps)
    (hevents : j.events = r.events) (htimeless : ∀ o ∈ back, o.timeless = true)
    (hshown : fencesOf tx.payload.records ++ back = shownBy i.content tx) :
    Worked i j tx (front ++ back) where
  grows := hrecorded.grows.trans hgrows
  content := by rw [hcontent, hrecorded.content]
  stamps := hstamps.trans hrecorded.stamps
  timeless := by
    rw [List.filter_append, hrecorded.timeless, List.filter_eq_self.mpr htimeless, hshown]
  quiet o ho := by
    rcases List.mem_append.mp ho with ho | ho
    · exact hrecorded.quiet o ho
    · exact Observation.stamp_eq_none_of_timeless (htimeless o ho)
  events event := by
    rw [← hrecorded.events, Interpreter.eventGeneration, Interpreter.eventGeneration, hevents]

/-- The versions of a transaction that does not ask a question. -/
theorem worked_landed {i r : Interpreter} {tx : DeviceTransaction} {front : List Observation}
    (hrecorded : Recorded i r tx.payload.records front) (hcontent : Undeclared r.content)
    {j : Interpreter} {seen : List Observation} (hgrows : Grows r j seen)
    (hj : j.content = r.content ∧ j.stamps = r.stamps ∧ j.events = r.events)
    (hseen : ∀ o ∈ seen, o.timeless = true)
    (hshown : fencesOf tx.payload.records ++ (seen ++ shownAll i.content tx.written) =
      shownBy i.content tx) :
    ∃ new, Worked i (tx.written.foldl Interpreter.publishVersion j).countRun tx new := by
  obtain ⟨hjc, hjs, hje⟩ := hj
  have hlanded := @landed_all tx.written j (by rw [hjc]; exact hcontent)
  have hback := (hgrows.trans hlanded.grows).trans (grows_countRun _)
  rw [List.append_nil, hjc, hrecorded.content] at hback
  refine ⟨_, worked_of hrecorded hback ?_ ?_ ?_ ?_ hshown⟩
  · exact hlanded.content.trans (by rw [hjc])
  · exact hlanded.stamps.trans hjs
  · exact hlanded.events.trans hje
  · intro o ho
    rcases List.mem_append.mp ho with ho | ho
    · exact hseen o ho
    · exact timeless_of_mem_shownAll ho

theorem worked {i : Interpreter} (hanswers : i.answers = none) (hcontent : Undeclared i.content)
    (tx : DeviceTransaction) : ∃ new, Worked i (i.work tx) tx new := by
  obtain ⟨front, hrecorded⟩ := recorded_all i tx.payload.records
  have hundeclared : Undeclared (tx.payload.records.foldl Interpreter.applyRecord i).content := by
    rw [hrecorded.content]
    exact hcontent
  have hmute := hrecorded.grows.answers.trans hanswers
  unfold Interpreter.work
  dsimp only
  cases hpayload : tx.payload with
  | query q =>
    have hwritten : tx.written = [] := by rw [DeviceTransaction.written, hpayload]
    rw [hpayload] at hrecorded hmute
    dsimp only
    rw [Interpreter.answerQuery, hmute]
    refine ⟨_, worked_of (by rw [hpayload]; exact hrecorded)
      ((grows_observe _ rfl).trans (grows_countRun _)) ?_ rfl rfl ?_ ?_⟩
    · rw [hwritten]
      rfl
    · intro o ho
      cases List.mem_singleton.mp ho
      rfl
    · rw [shownBy, hpayload]
      rfl
  | present p =>
    have hwritten : tx.written = publishedVersions tx.accesses := by
      rw [DeviceTransaction.written, hpayload]
    rw [hpayload] at hrecorded hundeclared
    dsimp only
    rw [← hwritten]
    refine worked_landed (by rw [hpayload]; exact hrecorded) hundeclared (grows_observe _ rfl)
      ⟨rfl, rfl, rfl⟩ ?_ ?_
    · intro o ho
      cases List.mem_singleton.mp ho
      rfl
    · rw [shownBy, hpayload]
      rfl
  | exec w =>
    have hwritten : tx.written = publishedVersions tx.accesses := by
      rw [DeviceTransaction.written, hpayload]
    rw [hpayload] at hrecorded hundeclared
    dsimp only
    rw [← hwritten]
    refine worked_landed (by rw [hpayload]; exact hrecorded) hundeclared (.refl _)
      ⟨rfl, rfl, rfl⟩ (by simp) ?_
    rw [shownBy, hpayload]
    rfl
  | control =>
    have hwritten : tx.written = publishedVersions tx.accesses := by
      rw [DeviceTransaction.written, hpayload]
    rw [hpayload] at hrecorded hundeclared
    dsimp only
    rw [← hwritten]
    refine worked_landed (by rw [hpayload]; exact hrecorded) hundeclared (.refl _)
      ⟨rfl, rfl, rfl⟩ (by simp) ?_
    rw [shownBy, hpayload]
    rfl

end Orchard.Plane
