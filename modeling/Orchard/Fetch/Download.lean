/-
  Fetch/Download.lean --- `download_chunk` against a server, byte by byte.

  Every attempt asks for the blob from the end of the part file on.  The bytes of a 206
  answer belong there; the bytes of a 200 answer are those of the whole blob, and the
  code appends them all the same unless the part file was empty.  A part file that grew
  this way is long enough, so no later run asks again.

  The server sends what it announced, as far as the connection holds: how many bytes
  arrive, and when, is up to the run.
-/
import Orchard.Fetch.Image

set_option autoImplicit false

namespace Orchard.Fetch

open Orchard.Foundation

/-! ## The download -/

/-- The two answers whose body is written. -/
inductive BodyKind where
  /-- 206: the range that was asked for -/
  | partialContent
  /-- 200: `Range` was ignored, the body is the whole blob -/
  | whole
  deriving DecidableEq, Repr

/-- What becomes of a request. -/
inductive ServerAnswer where
  | body (kind : BodyKind)
  /-- 401 or 403 -/
  | unauthorized
  | otherStatus
  /-- the connection fails before a status arrives -/
  | broken
  /-- `tokens.get()` raises, before the request -/
  | noToken
  deriving DecidableEq, Repr

/-- Where `download_chunk` is. -/
inductive DownloadPhase where
  /-- at the head of the loop, with the attempts made -/
  | asking (attempts : Nat)
  /-- the part file is open; it was `have_` long when the request was made, and `got`
  bytes of the body have arrived -/
  | receiving (attempts : Nat) (kind : BodyKind) (have_ got : Nat)
  | returned
  | raised
  deriving DecidableEq, Repr

/-- The part file, and where the process is. -/
structure Download where
  part : Option (List Byte)
  phase : DownloadPhase
  deriving DecidableEq, Repr

/-- The bytes in the part file. -/
def Download.content (s : Download) : List Byte := s.part.getD []

/-- What happens next. -/
inductive DownloadEvent where
  /-- a round of the loop begins; its request is answered so -/
  | round (answer : ServerAnswer)
  /-- up to `n` more bytes of the body arrive and are written -/
  | piece (n : Nat)
  /-- the body ends, or the connection breaks -/
  | ended
  /-- `download_chunk` is called anew, in this process or, if it was killed, in another -/
  | restart
  deriving DecidableEq, Repr

/-- The body of an answer to a request made with `have_` bytes in the part file. -/
def bodyOf (blob : List Byte) (kind : BodyKind) (have_ : Nat) : List Byte :=
  match kind with
  | .partialContent => blob.drop have_
  | .whole => blob

/-- `download_chunk` of a blob, `expected_size` being its length. -/
def downloadStep (blob : List Byte) (s : Download) (e : DownloadEvent) : Download :=
  match s.phase, e with
  | .asking attempts, .round answer =>
    let have_ := s.content.length
    if attempts = 50 then { s with phase := .raised }
    else if blob.length ≤ have_ then { s with phase := .returned }
    else
      match answer with
      | .noToken => { s with phase := .raised }
      | .unauthorized => { s with phase := .asking (attempts + 1) }
      | .otherStatus => { s with phase := .asking (attempts + 1) }
      | .broken => { s with phase := .asking (attempts + 1) }
      | .body kind =>
        -- mode "ab" if have else "wb"
        { part := if have_ = 0 then some [] else s.part
          phase := .receiving attempts kind have_ 0 }
  | .receiving attempts kind have_ got, .piece n =>
    let bytes := ((bodyOf blob kind have_).drop got).take n
    { part := some (s.content ++ bytes)
      phase := .receiving attempts kind have_ (got + bytes.length) }
  | .receiving attempts _ _ _, .ended => { s with phase := .asking (attempts + 1) }
  | _, .restart => { s with phase := .asking 0 }
  | _, _ => s

/-- The first call, with no part file. -/
def firstCall : Download := { part := none, phase := .asking 0 }

/-! ## The part file -/

/-- The part file is a prefix of the blob, and all of it once the call has returned. -/
def Reconstructs (blob : List Byte) (s : Download) : Prop :=
  s.content <+: blob ∧ (s.phase = .returned → s.content = blob)

/-- The condition on a step: what a 200 answer to a request with a nonempty part file
delivers is what the blob has at the end of the part file. -/
def Fitting (blob : List Byte) (s : Download) (e : DownloadEvent) : Prop :=
  match s.phase, e with
  | .receiving _ .whole have_ got, .piece n =>
    have_ = 0 ∨ (blob.drop got).take n <+: blob.drop (have_ + got)
  | _, _ => True

/-- While a body arrives, the part file has what it had and what has arrived. -/
def LengthKept (s : Download) : Prop :=
  ∀ attempts kind have_ got, s.phase = .receiving attempts kind have_ got →
    s.content.length = have_ + got

/-- Opening the part file keeps its bytes: it is emptied only when it is empty. -/
theorem content_open (s : Download) (phase : DownloadPhase) :
    (Download.mk (if s.content.length = 0 then some [] else s.part) phase).content = s.content := by
  unfold Download.content
  dsimp only
  split
  · rename_i h
    exact (List.length_eq_zero_iff.1 h).symm
  · rfl

/-- Bytes appended to a prefix of the blob leave a prefix exactly if the blob goes on
with them. -/
theorem append_prefix_iff {content blob : List Byte} (h : content <+: blob) (bytes : List Byte) :
    content ++ bytes <+: blob ↔ bytes <+: blob.drop content.length := by
  obtain ⟨rest, rfl⟩ := h
  rw [List.prefix_append_right_inj, List.drop_left]

/-- A step that keeps the bytes and does not return keeps the promise. -/
theorem reconstructs_of_content {blob : List Byte} {s t : Download} (h : Reconstructs blob s)
    (hcontent : t.content = s.content) (hphase : t.phase ≠ .returned) : Reconstructs blob t := by
  refine ⟨?_, fun hret => absurd hret hphase⟩
  rw [hcontent]
  exact h.1

/-- Only the arrival of bytes can be unfitting. -/
theorem fitting_of_not_piece {blob : List Byte} {s : Download} {e : DownloadEvent}
    (he : ∀ n, e ≠ .piece n) : Fitting blob s e := by
  unfold Fitting
  split
  · exact absurd rfl (he _)
  · trivial

theorem lengthKept_step (blob : List Byte) (s : Download) (e : DownloadEvent)
    (h : LengthKept s) : LengthKept (downloadStep blob s e) := by
  obtain ⟨part, phase⟩ := s
  cases phase with
  | asking attempts =>
    cases e with
    | round answer =>
      intro k kind have_ got hphase
      unfold downloadStep at hphase ⊢
      dsimp only at hphase ⊢
      split at hphase
      · cases hphase
      · split at hphase
        · cases hphase
        · cases answer with
          | body kind' =>
            rw [if_neg ‹_›, if_neg ‹_›]
            dsimp only at hphase ⊢
            rw [content_open]
            cases hphase
            rfl
          | unauthorized => cases hphase
          | otherStatus => cases hphase
          | broken => cases hphase
          | noToken => cases hphase
    | piece n => exact h
    | ended => exact h
    | restart => nofun
  | receiving attempts kind have_ got =>
    cases e with
    | round answer => exact h
    | piece n =>
      intro k kind' have' got' hphase
      cases hphase
      have hlen := h attempts kind have_ got rfl
      simp only [downloadStep, Download.content, Option.getD_some, List.length_append] at hlen ⊢
      omega
    | ended => nofun
    | restart => nofun
  | returned => cases e <;> nofun
  | raised => cases e <;> nofun

/-- A round of the loop keeps the part file, and returns only once it is long enough. -/
theorem reconstructs_round {blob : List Byte} {part : Option (List Byte)} {attempts : Nat}
    {answer : ServerAnswer}
    (h : Reconstructs blob ⟨part, .asking attempts⟩) :
    Reconstructs blob (downloadStep blob ⟨part, .asking attempts⟩ (.round answer)) := by
  unfold downloadStep
  dsimp only
  split
  · exact reconstructs_of_content h rfl nofun
  · split
    · rename_i hlong
      exact ⟨h.1, fun _ => h.1.eq_of_length (Nat.le_antisymm h.1.length_le hlong)⟩
    · cases answer with
      | body kind => exact reconstructs_of_content h (content_open _ _) nofun
      | unauthorized => exact reconstructs_of_content h rfl nofun
      | otherStatus => exact reconstructs_of_content h rfl nofun
      | broken => exact reconstructs_of_content h rfl nofun
      | noToken => exact reconstructs_of_content h rfl nofun

/-- A piece fits if it continues the part file where it ends. -/
theorem reconstructs_piece {blob : List Byte} {part : Option (List Byte)}
    {attempts have_ got n : Nat} {kind : BodyKind}
    (hlen : LengthKept ⟨part, .receiving attempts kind have_ got⟩)
    (h : Reconstructs blob ⟨part, .receiving attempts kind have_ got⟩) :
    Reconstructs blob (downloadStep blob ⟨part, .receiving attempts kind have_ got⟩ (.piece n)) ↔
      Fitting blob ⟨part, .receiving attempts kind have_ got⟩ (.piece n) := by
  have hcontent := hlen attempts kind have_ got rfl
  have happend : Reconstructs blob
        (downloadStep blob ⟨part, .receiving attempts kind have_ got⟩ (.piece n)) ↔
      ((bodyOf blob kind have_).drop got).take n <+: blob.drop (have_ + got) := by
    rw [← hcontent, ← append_prefix_iff h.1]
    exact ⟨fun hr => hr.1, fun hp => ⟨hp, nofun⟩⟩
  rw [happend]
  cases kind with
  | partialContent =>
    -- the range asked for starts where the part file ended
    refine iff_of_true ?_ trivial
    rw [bodyOf, List.drop_drop]
    exact List.take_prefix _ _
  | whole =>
    refine ⟨fun hp => .inr hp, ?_⟩
    rintro (rfl | hp)
    · rw [Nat.zero_add]
      exact List.take_prefix _ _
    · exact hp

/-- **One step.**  It keeps the promise exactly when it is a fitting one. -/
theorem reconstructs_step (blob : List Byte) (s : Download) (e : DownloadEvent)
    (hlen : LengthKept s) (h : Reconstructs blob s) :
    Reconstructs blob (downloadStep blob s e) ↔ Fitting blob s e := by
  obtain ⟨part, phase⟩ := s
  cases phase with
  | asking attempts =>
    cases e with
    | round answer => exact iff_of_true (reconstructs_round h) trivial
    | piece n => exact iff_of_true h trivial
    | ended => exact iff_of_true h trivial
    | restart => exact iff_of_true (reconstructs_of_content h rfl nofun) trivial
  | receiving attempts kind have_ got =>
    cases e with
    | round answer => exact iff_of_true h (fitting_of_not_piece nofun)
    | piece n => exact reconstructs_piece hlen h
    | ended =>
      exact iff_of_true (reconstructs_of_content h rfl nofun) (fitting_of_not_piece nofun)
    | restart =>
      exact iff_of_true (reconstructs_of_content h rfl nofun) (fitting_of_not_piece nofun)
  | returned =>
    cases e with
    | restart => exact iff_of_true (reconstructs_of_content h rfl nofun) trivial
    | round answer => exact iff_of_true h trivial
    | piece n => exact iff_of_true h trivial
    | ended => exact iff_of_true h trivial
  | raised =>
    cases e with
    | restart => exact iff_of_true (reconstructs_of_content h rfl nofun) trivial
    | round answer => exact iff_of_true h trivial
    | piece n => exact iff_of_true h trivial
    | ended => exact iff_of_true h trivial

/-- Over any number of calls, the part file is a prefix of the blob at all times, and the
blob whenever a call has returned, exactly when every 200 answer to a request with a
nonempty part file happens to deliver what the blob has there. -/
theorem download_reconstructs_iff (blob : List Byte) (events : List DownloadEvent) :
    (∀ front, front <+: events → Reconstructs blob (run (downloadStep blob) firstCall front)) ↔
      Guarded (downloadStep blob) (Fitting blob) firstCall events := by
  refine always_iff_guarded (lengthKept_step blob) (reconstructs_step blob) events nofun ?_
  refine ⟨?_, nofun⟩
  exact List.nil_prefix

/-- The connection breaks after one byte, and the next request is answered with 200: the
part file is longer than the blob, and the call returns. -/
theorem whole_answer_appended :
    let blob : List Byte := [1, 2, 3]
    let events : List DownloadEvent := [.round (.body .partialContent), .piece 1, .ended,
      .round (.body .whole), .piece 3, .ended, .round .broken]
    run (downloadStep blob) firstCall events =
      { part := some [1, 1, 2, 3], phase := .returned } := by
  decide

/-! ## An attempt as one step

`downloadChunk` takes an attempt in one step and leaves open what arrives.  What arrives
here is what the server sends.
-/

/-- The pieces of a body add up to a prefix of what is left of it. -/
theorem run_pieces (blob part : List Byte) (attempts : Nat) (kind : BodyKind) (have_ got : Nat)
    (pieces : List Nat) :
    ∃ bytes, bytes <+: (bodyOf blob kind have_).drop got ∧
      run (downloadStep blob) ⟨some part, .receiving attempts kind have_ got⟩
          (pieces.map .piece) =
        ⟨some (part ++ bytes), .receiving attempts kind have_ (got + bytes.length)⟩ := by
  induction pieces generalizing part got with
  | nil => exact ⟨[], List.nil_prefix, by simp⟩
  | cons n pieces ih =>
    obtain ⟨bytes, hbytes, hrun⟩ := ih (part ++ ((bodyOf blob kind have_).drop got).take n)
      (got + (((bodyOf blob kind have_).drop got).take n).length)
    refine ⟨((bodyOf blob kind have_).drop got).take n ++ bytes, ?_, ?_⟩
    · have hfirst := List.take_prefix n ((bodyOf blob kind have_).drop got)
      rw [append_prefix_iff hfirst, List.drop_drop]
      exact hbytes
    · rw [List.map_cons, run_cons, ← List.append_assoc, List.length_append, ← Nat.add_assoc]
      exact hrun

/-- **An attempt is a step of the coarser model**, in which a prefix of the answer's body
arrives. -/
theorem attempt_eq_downloadChunk {δ : Type} (layer : Layer δ) {blob : List Byte}
    (hsize : layer.size = blob.length) (part : Option (List Byte)) {attempts : Nat}
    (hattempts : attempts ≠ 50) (hshort : (part.getD []).length < blob.length)
    (kind : BodyKind) (pieces : List Nat) :
    ∃ arrived, arrived <+: bodyOf blob kind (part.getD []).length ∧
      run (downloadStep blob) ⟨part, .asking attempts⟩
          (.round (.body kind) :: pieces.map .piece ++ [.ended]) =
        ⟨(downloadChunk layer part attempts (some arrived)).1, .asking (attempts + 1)⟩ := by
  have hopen : downloadStep blob ⟨part, .asking attempts⟩ (.round (.body kind)) =
      ⟨some (part.getD []), .receiving attempts kind (part.getD []).length 0⟩ := by
    unfold downloadStep Download.content
    dsimp only
    rw [if_neg hattempts, if_neg (Nat.not_le.2 hshort)]
    cases part with
    | none => rfl
    | some bytes => cases bytes <;> rfl
  obtain ⟨bytes, hbytes, hrun⟩ :=
    run_pieces blob (part.getD []) attempts kind (part.getD []).length 0 pieces
  refine ⟨bytes, by simpa using hbytes, ?_⟩
  have harrived : downloadChunk layer part attempts (some bytes) =
      (some (part.getD [] ++ bytes), .downloading (attempts + 1)) := by
    unfold downloadChunk
    rw [if_neg hattempts, if_neg (by omega)]
  rw [List.cons_append, run_cons, hopen, run_append, hrun, harrived]
  rfl

end Orchard.Fetch
