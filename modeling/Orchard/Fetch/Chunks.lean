/-
  Fetch/Chunks.lean --- what the workers of a run do to the chunks of the disk.

  A worker decompresses its part file block by block and leaves out the blocks that are
  zero.  A chunk that holds at each byte its layer's content or zero keeps doing so, and
  holds all of the content once its worker has passed the checks.  A part file with other
  content fails the checks, and it stays: the chunk is never listed.
-/
import Orchard.Fetch.Image
import Mathlib.Data.List.GetD

set_option autoImplicit false

namespace Orchard.Fetch

open Orchard.Foundation

/-! ## Decompression -/

section Blocks

variable {lz4 : List Byte → Nat → List Byte → Option (List Byte)}

/-- Every round consumes bytes. -/
theorem rest_lt_of_nextBlock {dict data bytes rest : List Byte}
    (h : nextBlock lz4 dict data = .plain bytes rest) : rest.length < data.length := by
  unfold nextBlock at h
  split at h
  · cases h
  · rename_i hne
    have hpos := List.length_pos_of_ne_nil hne
    split at h
    · cases h
    · split at h
      · split at h
        · cases h
        · dsimp only at h
          split at h
          · cases h
          · cases h
            rw [List.length_drop]
            omega
      · split at h
        · split at h
          · cases h
          · cases h
            rw [List.length_drop]
            omega
        · cases h

/-- Rounds beyond the length of the data change nothing. -/
theorem decompress_rounds {dict data : List Byte} {rounds more : Nat}
    (hrounds : data.length ≤ rounds) (hmore : data.length ≤ more) :
    decompress lz4 rounds dict data = decompress lz4 more dict data := by
  by_cases hnil : data = []
  · subst hnil
    cases rounds <;> cases more <;> simp [decompress, nextBlock]
  · have hpos := List.length_pos_of_ne_nil hnil
    induction rounds generalizing more dict data with
    | zero => omega
    | succ rounds ih =>
      obtain ⟨more, rfl⟩ := Nat.exists_eq_succ_of_ne_zero (show more ≠ 0 by omega)
      rw [decompress, Nat.succ_eq_add_one, decompress]
      cases hnext : nextBlock lz4 dict data with
      | finished => rfl
      | bad => rfl
      | plain bytes rest =>
        have hlt := rest_lt_of_nextBlock hnext
        refine congrArg (Option.map (bytes ++ ·)) ?_
        by_cases hrest : rest = []
        · subst hrest
          cases rounds <;> cases more <;> simp [decompress, nextBlock]
        · exact ih (by omega) (by omega) hrest (List.length_pos_of_ne_nil hrest)

/-- One round of the decompression. -/
theorem plainOf_eq (dict data : List Byte) :
    plainOf lz4 dict data =
      match nextBlock lz4 dict data with
      | .finished => some []
      | .plain bytes rest => (plainOf lz4 bytes rest).map (bytes ++ ·)
      | .bad => none := by
  unfold plainOf
  rw [decompress_rounds (Nat.le_refl _) (Nat.le_succ data.length), decompress]
  cases hnext : nextBlock lz4 dict data with
  | finished => rfl
  | bad => rfl
  | plain bytes rest =>
    have hlt := rest_lt_of_nextBlock hnext
    exact congrArg (Option.map (bytes ++ ·))
      (decompress_rounds (Nat.le_of_lt hlt) (Nat.le_refl _))

/-- What a worker that is writing will have decompressed, if no round raises. -/
def total (lz4 : List Byte → Nat → List Byte → Option (List Byte)) (plains : List (List Byte))
    (rest : List Byte) : Option (List Byte) :=
  (plainOf lz4 (plains.getLastD []) rest).map (plains.flatten ++ ·)

@[simp] theorem total_nil (data : List Byte) : total lz4 [] data = plainOf lz4 [] data := by
  simp [total]

theorem total_of_finished {plains : List (List Byte)} {data : List Byte}
    (h : nextBlock lz4 (plains.getLastD []) data = .finished) :
    total lz4 plains data = some plains.flatten := by
  rw [total, plainOf_eq, h]
  simp

/-- A round does not change what there is to decompress. -/
theorem total_concat {plains : List (List Byte)} {data bytes rest : List Byte}
    (h : nextBlock lz4 (plains.getLastD []) data = .plain bytes rest) :
    total lz4 (plains ++ [bytes]) rest = total lz4 plains data := by
  rw [total, total, plainOf_eq (plains.getLastD []), h]
  simp [Function.comp_def]

end Blocks

/-- A block that is left out is zero. -/
theorem getD_of_not_isWritten {plain : List Byte} (h : isWritten plain = false) (k : Nat) :
    plain.getD k 0 = 0 := by
  unfold isWritten at h
  rw [Bool.and_eq_false_iff] at h
  rw [List.getD_eq_getElem?_getD]
  rcases h with h | h
  · have hzero : plain = zero64K := by simpa using h
    rw [hzero, zero64K, List.getElem?_getD_replicate_default_eq]
  · rw [List.any_eq_false] at h
    cases hk : plain[k]? with
    | none => rfl
    | some b => simpa using h b (List.mem_of_getElem? hk)

/-! ## Chunks -/

/-- Every byte of the chunk is zero or the one of the content. -/
def Loose (content : List Byte) (i : Nat) (disk : Disk) : Prop :=
  ∀ k < chunkSpan, disk.byte (i * chunkSpan + k) = 0 ∨
    disk.byte (i * chunkSpan + k) = content.getD k 0

/-- The first `count` bytes of the chunk are those of the content, with zeros behind it. -/
def HoldsUpTo (content : List Byte) (i count : Nat) (disk : Disk) : Prop :=
  ∀ k < chunkSpan, k < count → disk.byte (i * chunkSpan + k) = content.getD k 0

theorem HoldsUpTo.mono {content : List Byte} {i count fewer : Nat} {disk : Disk}
    (h : HoldsUpTo content i count disk) (hle : fewer ≤ count) :
    HoldsUpTo content i fewer disk :=
  fun k hk hlt => h k hk (Nat.lt_of_lt_of_le hlt hle)

/-- Behind the content a loose chunk is zero. -/
theorem HoldsUpTo.whole {content : List Byte} {i : Nat} {disk : Disk}
    (h : HoldsUpTo content i content.length disk) (hloose : Loose content i disk) :
    HoldsUpTo content i chunkSpan disk := by
  intro k hk _
  by_cases hin : k < content.length
  · exact h k hk hin
  · have hzero : content.getD k 0 = 0 := List.getD_eq_default _ _ (Nat.not_lt.mp hin)
    rcases hloose k hk with hbyte | hbyte
    · rw [hbyte, hzero]
    · exact hbyte

/-- Two disks that agree on a chunk. -/
theorem Loose.congr {content : List Byte} {i : Nat} {disk disk' : Disk}
    (h : Loose content i disk)
    (hsame : ∀ k < chunkSpan, disk'.byte (i * chunkSpan + k) = disk.byte (i * chunkSpan + k)) :
    Loose content i disk' := by
  intro k hk
  rw [hsame k hk]
  exact h k hk

theorem HoldsUpTo.congr {content : List Byte} {i count : Nat} {disk disk' : Disk}
    (h : HoldsUpTo content i count disk)
    (hsame : ∀ k < chunkSpan, disk'.byte (i * chunkSpan + k) = disk.byte (i * chunkSpan + k)) :
    HoldsUpTo content i count disk' := by
  intro k hk hlt
  rw [hsame k hk]
  exact h k hk hlt

/-- Bytes of another chunk stay as they are. -/
theorem byte_pwrite_of_ne {disk : Disk} {i idx pos k : Nat} {bytes : List Byte} (h : i ≠ idx)
    (hk : k < chunkSpan) (hfits : i < idx ∨ pos + bytes.length ≤ chunkSpan) :
    (disk.pwrite (idx * chunkSpan + pos) bytes).byte (i * chunkSpan + k) =
      disk.byte (i * chunkSpan + k) := by
  refine if_neg fun hin => ?_
  rcases Nat.lt_or_gt_of_ne h with hlt | hgt
  · have hspan : (i + 1) * chunkSpan ≤ idx * chunkSpan := Nat.mul_le_mul_right _ hlt
    rw [Nat.add_mul] at hspan
    omega
  · have hspan : (idx + 1) * chunkSpan ≤ i * chunkSpan := Nat.mul_le_mul_right _ hgt
    rw [Nat.add_mul] at hspan
    omega

/-- A block of the content, written where it belongs or left out because it is zero,
leaves a loose chunk loose and carries the content that far. -/
theorem chunk_block {content before bytes after : List Byte} {i : Nat} {disk : Disk}
    (hcontent : content = before ++ bytes ++ after) (hloose : Loose content i disk)
    (hholds : HoldsUpTo content i before.length disk) :
    Loose content i (if isWritten bytes then disk.pwrite (i * chunkSpan + before.length) bytes
      else disk) ∧
    HoldsUpTo content i (before ++ bytes).length
      (if isWritten bytes then disk.pwrite (i * chunkSpan + before.length) bytes else disk) := by
  -- the content's bytes in the block
  have hblock : ∀ k, before.length ≤ k → k < before.length + bytes.length →
      content.getD k 0 = bytes.getD (k - before.length) 0 := by
    intro k hlo hhi
    rw [hcontent, List.getD_append _ _ _ _ (by rw [List.length_append]; exact hhi),
      List.getD_append_right _ _ _ _ hlo]
  have hbyte : ∀ k, (if isWritten bytes then disk.pwrite (i * chunkSpan + before.length) bytes
      else disk).byte (i * chunkSpan + k) =
        if isWritten bytes ∧ before.length ≤ k ∧ k < before.length + bytes.length then
          content.getD k 0
        else disk.byte (i * chunkSpan + k) := by
    intro k
    cases isWritten bytes with
    | false => simp
    | true =>
      simp only [if_true, true_and, Disk.pwrite]
      by_cases hin : before.length ≤ k ∧ k < before.length + bytes.length
      · rw [if_pos (by omega), if_pos hin, hblock k hin.1 hin.2]
        congr 1
        omega
      · rw [if_neg (by omega), if_neg hin]
  refine ⟨fun k hk => ?_, fun k hk hlt => ?_⟩
  · rw [hbyte]
    split
    · exact .inr rfl
    · exact hloose k hk
  · rw [hbyte]
    rw [List.length_append] at hlt
    split
    · rfl
    · rename_i hout
      by_cases hold : k < before.length
      · exact hholds k hk hold
      · -- the block is left out, so it is zero here, and so is the chunk
        have hskip : isWritten bytes = false := by
          by_contra hwritten
          exact hout ⟨by simpa using hwritten, Nat.not_lt.mp hold, hlt⟩
        have hzero : content.getD k 0 = 0 := by
          rw [hblock k (Nat.not_lt.mp hold) hlt]
          exact getD_of_not_isWritten hskip _
        rw [hzero]
        exact (hloose k hk).elim id fun h => h.trans hzero

/-! ## Steps -/

section Steps

variable {δ : Type} [DecidableEq δ]

/-- What one step does to a worker, its part file and the disk. -/
inductive Moves (lz4 : List Byte → Nat → List Byte → Option (List Byte)) (sha256 : List Byte → δ)
    (layer : Layer δ) (idx : Nat) (pwrite : Pwrite) (disk : Disk) (part : Option (List Byte)) :
    Worker → Disk → Option (List Byte) → Worker → Prop
  | attempt (n n' : Nat) (part' : Option (List Byte)) (h : (part.getD []).length < layer.size) :
      Moves lz4 sha256 layer idx pwrite disk part (.downloading n) disk part' (.downloading n')
  | read (n : Nat) (data : List Byte) (hpart : part = some data)
      (hlong : layer.size ≤ data.length) :
      Moves lz4 sha256 layer idx pwrite disk part (.downloading n) disk part (.writing [] data)
  | giveUp (n : Nat) :
      Moves lz4 sha256 layer idx pwrite disk part (.downloading n) disk part (.failed [])
  | block (plains : List (List Byte)) (data bytes rest : List Byte)
      (hnext : nextBlock lz4 (plains.getLastD []) data = .plain bytes rest)
      (hstored : isWritten bytes = true → pwrite ≠ .raises) :
      Moves lz4 sha256 layer idx pwrite disk part (.writing plains data)
        (if isWritten bytes then
          disk.pwrite (idx * chunkSpan + plains.flatten.length) (pwrite.stores bytes)
        else disk) part (.writing (plains ++ [bytes]) rest)
  | check (plains : List (List Byte)) (data : List Byte)
      (hnext : nextBlock lz4 (plains.getLastD []) data = .finished)
      (hcheck : checkChunk sha256 layer plains = true) :
      Moves lz4 sha256 layer idx pwrite disk part (.writing plains data) disk part
        (.checked plains)
  | raise (plains : List (List Byte)) (data : List Byte) :
      Moves lz4 sha256 layer idx pwrite disk part (.writing plains data) disk part
        (.failed plains)
  | remove (plains : List (List Byte)) :
      Moves lz4 sha256 layer idx pwrite disk part (.checked plains) disk none (.removed plains)
  | record (plains : List (List Byte)) :
      Moves lz4 sha256 layer idx pwrite disk part (.removed plains) disk part (.finished plains)

/-- The set `done` after a step of a worker. -/
def recorded (idx : Nat) (done : List Nat) : Worker → List Nat
  | .removed _ => idx :: done
  | _ => done

variable {lz4 : List Byte → Nat → List Byte → Option (List Byte)} {sha256 : List Byte → δ}
  {own : List (Layer δ)}

theorem moves_downloadChunk (layer : Layer δ) (idx : Nat) (pwrite : Pwrite) (disk : Disk)
    (part : Option (List Byte)) (n : Nat) (arrived : Option (List Byte)) :
    Moves lz4 sha256 layer idx pwrite disk part (.downloading n) disk
      (downloadChunk layer part n arrived).1 (downloadChunk layer part n arrived).2 := by
  unfold downloadChunk
  split
  · exact .giveUp n
  · split
    · rename_i hlong
      split
      · exact .read n _ rfl hlong
      · exact .giveUp n
    · rename_i hshort
      split
      · exact .attempt n _ _ (Nat.not_le.mp hshort)
      · exact .attempt n _ _ (Nat.not_le.mp hshort)

theorem moves_writeChunk (layer : Layer δ) (idx : Nat) (pwrite : Pwrite) (disk : Disk)
    (part : Option (List Byte)) (plains : List (List Byte)) (data : List Byte) :
    Moves lz4 sha256 layer idx pwrite disk part (.writing plains data)
      (writeChunk lz4 sha256 layer idx disk plains data pwrite).1 part
      (writeChunk lz4 sha256 layer idx disk plains data pwrite).2 := by
  unfold writeChunk
  split
  · exact .raise plains data
  · rename_i hnext
    split
    · rename_i hcheck
      exact .check plains data hnext hcheck
    · exact .raise plains data
  · rename_i bytes rest hnext
    have hblock : (isWritten bytes = true → pwrite ≠ .raises) →
        Moves lz4 sha256 layer idx pwrite disk part (.writing plains data) _ part _ :=
      .block plains data bytes rest hnext
    split
    · rename_i hwritten
      rw [if_pos hwritten] at hblock
      split
      · exact .raise plains data
      · rename_i hstored
        exact hblock fun _ => hstored
    · rename_i hwritten
      rw [if_neg hwritten] at hblock
      exact hblock fun h => absurd h hwritten

/-- Everything a step can do: nothing, or one move of one worker that has a layer. -/
theorem step_moves (s : Progress) (t : Turn) :
    step lz4 sha256 own s t = s ∨
    ∃ layer part w, own[t.idx]? = some layer ∧
      Moves lz4 sha256 layer t.idx t.pwrite s.disk (s.parts t.idx) (s.workers t.idx)
        (step lz4 sha256 own s t).disk part w ∧
      (step lz4 sha256 own s t).parts = Function.update s.parts t.idx part ∧
      (step lz4 sha256 own s t).workers = Function.update s.workers t.idx w ∧
      (step lz4 sha256 own s t).done = recorded t.idx s.done (s.workers t.idx) ∧
      ((step lz4 sha256 own s t).completed = s.completed ∨
        (step lz4 sha256 own s t).completed = some (step lz4 sha256 own s t).done) := by
  cases hlayer : own[t.idx]? with
  | none => exact .inl (by simp only [step, hlayer])
  | some layer =>
    cases hworker : s.workers t.idx with
    | idle => exact .inl (by simp only [step, hlayer, hworker])
    | finished plains => exact .inl (by simp only [step, hlayer, hworker])
    | failed plains => exact .inl (by simp only [step, hlayer, hworker])
    | downloading n =>
      simp only [step, hlayer, hworker]
      exact .inr ⟨layer, _, _, rfl, moves_downloadChunk .., rfl, rfl, rfl, .inl trivial⟩
    | writing plains data =>
      simp only [step, hlayer, hworker]
      exact .inr ⟨layer, s.parts t.idx, _, rfl, moves_writeChunk ..,
        (Function.update_eq_self _ _).symm, rfl, rfl, .inl trivial⟩
    | checked plains =>
      simp only [step, hlayer, hworker]
      exact .inr ⟨layer, none, _, rfl, .remove plains, rfl, rfl, rfl, .inl trivial⟩
    | removed plains =>
      simp only [step, hlayer, hworker]
      exact .inr ⟨layer, s.parts t.idx, _, rfl, .record plains,
        (Function.update_eq_self _ _).symm, rfl, rfl, .inr trivial⟩

end Steps

/-! ## The image -/

section Images

variable {δ : Type}

/-- The decompressed content of a layer. -/
def contentOf (lz4 : List Byte → Nat → List Byte → Option (List Byte)) (blobs : δ → List Byte)
    (layer : Layer δ) : Option (List Byte) :=
  plainOf lz4 [] (blobs layer.digest)

/-- The manifest tells the truth about its layers, and each fits its chunk. -/
def Published (lz4 : List Byte → Nat → List Byte → Option (List Byte)) (sha256 : List Byte → δ)
    (blobs : δ → List Byte) (layers : List (Layer δ)) : Prop :=
  ∀ layer ∈ layers, ∃ c, contentOf lz4 blobs layer = some c ∧
    layer.uncompressedSize = some c.length ∧ c.length ≤ chunkSpan ∧
    ∀ digest, layer.uncompressedContentDigest = some digest → sha256 c = digest

/-- `disk.raw` is the image of the manifest. -/
def HoldsImage (lz4 : List Byte → Nat → List Byte → Option (List Byte)) (blobs : δ → List Byte)
    (layers : List (Layer δ)) (disk : Disk) : Prop :=
  disk.size = layers.length * chunkSpan ∧
    ∀ i layer c, layers[i]? = some layer → contentOf lz4 blobs layer = some c →
      ∀ k < chunkSpan, disk.byte (i * chunkSpan + k) = c.getD k 0

/-- The checks of `write_chunk` judge a part file rightly: the digest of what it
decompresses to is not that of the layer's content unless it is the content; of a layer
without a content digest it is the blob. -/
def JudgedRightly (lz4 : List Byte → Nat → List Byte → Option (List Byte))
    (sha256 : List Byte → δ) (blobs : δ → List Byte) (layer : Layer δ) (data : List Byte) : Prop :=
  if layer.uncompressedContentDigest.isSome then
    ∀ a ∈ plainOf lz4 [] data, ∀ c ∈ contentOf lz4 blobs layer, sha256 a = sha256 c → a = c
  else data = blobs layer.digest

/-- What a step relies on: `os.pwrite` stores the whole block or raises, and a part file that
is long enough is judged rightly. -/
def Proper (lz4 : List Byte → Nat → List Byte → Option (List Byte)) (sha256 : List Byte → δ)
    (blobs : δ → List Byte) (layers : List (Layer δ)) (s : Progress) (t : Turn) : Prop :=
  (t.pwrite = .all ∨ t.pwrite = .raises) ∧
    ∀ layer ∈ layers[t.idx]?, ∀ data ∈ s.parts t.idx, layer.size ≤ data.length →
      JudgedRightly lz4 sha256 blobs layer data

section Decidable

variable [DecidableEq δ]

instance (lz4 : List Byte → Nat → List Byte → Option (List Byte)) (sha256 : List Byte → δ)
    (blobs : δ → List Byte) (layer : Layer δ) (data : List Byte) :
    Decidable (JudgedRightly lz4 sha256 blobs layer data) := by
  unfold JudgedRightly
  infer_instance

instance (lz4 : List Byte → Nat → List Byte → Option (List Byte)) (sha256 : List Byte → δ)
    (blobs : δ → List Byte) (layers : List (Layer δ)) (s : Progress) (t : Turn) :
    Decidable (Proper lz4 sha256 blobs layers s t) := by
  unfold Proper
  infer_instance

end Decidable

/-! ## Runs that go right -/

/-- How far a worker has carried the content. -/
def Worker.reached : Worker → Nat
  | .writing plains _ => plains.flatten.length
  | .checked _ | .removed _ | .finished _ => chunkSpan
  | .idle | .downloading _ | .failed _ => 0

/-- A worker that is writing has this content before it. -/
def Worker.Decodes (lz4 : List Byte → Nat → List Byte → Option (List Byte))
    (content : List Byte) : Worker → Prop
  | .writing plains rest => total lz4 plains rest = some content
  | _ => True

/-- One chunk of a run: it is loose, it holds its content as far as its worker has carried
it, and all of it once it is listed. -/
structure ChunkRight (lz4 : List Byte → Nat → List Byte → Option (List Byte))
    (content : List Byte) (i : Nat) (s : Progress) : Prop where
  loose : Loose content i s.disk
  holds : HoldsUpTo content i (s.workers i).reached s.disk
  listed : i ∈ s.done → HoldsUpTo content i chunkSpan s.disk
  decodes : (s.workers i).Decodes lz4 content

/-- A run against `own` in which nothing has gone wrong for the chunks of `layers`. -/
structure Clean (lz4 : List Byte → Nat → List Byte → Option (List Byte)) (blobs : δ → List Byte)
    (layers own : List (Layer δ)) (s : Progress) : Prop where
  least : min own.length layers.length * chunkSpan ≤ s.disk.size
  most : own.length ≤ layers.length → s.disk.size ≤ own.length * chunkSpan
  within : ∀ i ∈ s.done, i < layers.length → i < own.length
  listed : ∀ i ∈ s.completed.getD [], i ∈ s.done
  idle : ∀ i < own.length, s.workers i = .idle → i ∈ s.done
  settled : ∀ i ∈ s.done, s.workers i = .idle ∨ ∃ plains, s.workers i = .finished plains
  chunk : ∀ i layer c, layers[i]? = some layer → contentOf lz4 blobs layer = some c →
    ChunkRight lz4 c i s

/-- A worker with a wrong part file does not get past the checks. -/
def Worker.Stuck (lz4 : List Byte → Nat → List Byte → Option (List Byte)) (count i : Nat)
    (data : List Byte) : Worker → Prop
  | .idle => count ≤ i
  | .downloading _ | .failed _ => True
  | .writing plains rest => total lz4 plains rest = plainOf lz4 [] data
  | .checked _ | .removed _ | .finished _ => False

/-- A chunk that is not listed has a part file that is long enough and wrong. -/
structure Spoiled (lz4 : List Byte → Nat → List Byte → Option (List Byte)) (blobs : δ → List Byte)
    (layers own : List (Layer δ)) (s : Progress) (i : Nat) (layer : Layer δ) (data : List Byte) :
    Prop where
  layer_eq : layers[i]? = some layer
  part : s.parts i = some data
  long : layer.size ≤ data.length
  wrong : plainOf lz4 [] data ≠ contentOf lz4 blobs layer
  open_ : i ∉ s.done
  unlisted : i ∉ s.completed.getD []
  stuck : (s.workers i).Stuck lz4 own.length i data

section Chunks

variable {lz4 : List Byte → Nat → List Byte → Option (List Byte)} {blobs : δ → List Byte}
  {layers own : List (Layer δ)} {s s' : Progress} {idx : Nat} {w : Worker}

/-- A step of one worker, and what it leaves of the lists of chunks. -/
structure Turned (s s' : Progress) (idx : Nat) (w : Worker) (done : List Nat) : Prop where
  workers : s'.workers = Function.update s.workers idx w
  done : s'.done = done
  completed : s'.completed = s.completed ∨ s'.completed = some s'.done

theorem Turned.worker {done : List Nat} (h : Turned s s' idx w done) : s'.workers idx = w := by
  rw [h.workers, Function.update_self]

theorem Turned.other {done : List Nat} (h : Turned s s' idx w done) {i : Nat} (hi : i ≠ idx) :
    s'.workers i = s.workers i := by
  rw [h.workers, Function.update_of_ne hi]

theorem ChunkRight.congr {c : List Byte} {i : Nat} (h : ChunkRight lz4 c i s)
    (hbytes : ∀ k < chunkSpan, s'.disk.byte (i * chunkSpan + k) = s.disk.byte (i * chunkSpan + k))
    (hworker : s'.workers i = s.workers i) (hdone : i ∈ s'.done → i ∈ s.done) :
    ChunkRight lz4 c i s' where
  loose := h.loose.congr hbytes
  holds := by
    rw [hworker]
    exact h.holds.congr hbytes
  listed hi := (h.listed (hdone hi)).congr hbytes
  decodes := by
    rw [hworker]
    exact h.decodes

/-- A step of one worker leaves a run clean if it does right by its own chunk and touches
no other. -/
theorem Clean.update (h : Clean lz4 blobs layers own s) (hidx : idx < own.length)
    {done : List Nat} (hturn : Turned s s' idx w done) (hw : w ≠ .idle)
    (hdone : done = s.done ∨ done = idx :: s.done)
    (hsettled : idx ∈ done → ∃ plains, w = .finished plains)
    (hleast : s.disk.size ≤ s'.disk.size)
    (hmost : own.length ≤ layers.length → s'.disk.size ≤ s.disk.size)
    (hothers : ∀ i < layers.length, i ≠ idx → ∀ k < chunkSpan,
      s'.disk.byte (i * chunkSpan + k) = s.disk.byte (i * chunkSpan + k))
    (hself : ∀ layer c, layers[idx]? = some layer → contentOf lz4 blobs layer = some c →
      ChunkRight lz4 c idx s → ChunkRight lz4 c idx s') : Clean lz4 blobs layers own s' := by
  have hgrow : ∀ i ∈ s.done, i ∈ s'.done := by
    intro i hi
    rw [hturn.done]
    rcases hdone with rfl | rfl
    · exact hi
    · exact List.mem_cons_of_mem _ hi
  have hback : ∀ i ∈ s'.done, i ≠ idx → i ∈ s.done := by
    intro i hi hne
    rw [hturn.done] at hi
    rcases hdone with rfl | rfl
    · exact hi
    · exact (List.mem_cons.mp hi).resolve_left hne
  exact
    { least := Nat.le_trans h.least hleast
      most := fun hle => Nat.le_trans (hmost hle) (h.most hle)
      within := fun i hi hlt => by
        by_cases hne : i = idx
        · exact hne ▸ hidx
        · exact h.within i (hback i hi hne) hlt
      listed := fun i hi => by
        rcases hturn.completed with hc | hc
        · rw [hc] at hi
          exact hgrow i (h.listed i hi)
        · rwa [hc] at hi
      idle := fun i hlt hi => by
        by_cases hne : i = idx
        · subst hne
          exact absurd (hturn.worker.symm.trans hi) hw
        · rw [hturn.other hne] at hi
          exact hgrow i (h.idle i hlt hi)
      settled := fun i hi => by
        by_cases hne : i = idx
        · subst hne
          rw [hturn.worker]
          exact .inr (hsettled (hturn.done ▸ hi))
        · rw [hturn.other hne]
          exact h.settled i (hback i hi hne)
      chunk := fun i layer c hlayer hcontent => by
        have hold := h.chunk i layer c hlayer hcontent
        by_cases hne : i = idx
        · subst hne
          exact hself layer c hlayer hcontent hold
        · exact hold.congr (hothers i (List.getElem?_eq_some_iff.mp hlayer).1 hne)
            (hturn.other hne) fun hi => hback i hi hne }

/-- The chunk of a worker that has something to do is not listed. -/
theorem Clean.active (h : Clean lz4 blobs layers own s) (hidle : s.workers idx ≠ .idle)
    (hfinished : ∀ plains, s.workers idx ≠ .finished plains) : idx ∉ s.done := by
  intro hin
  rcases h.settled idx hin with hi | ⟨plains, hf⟩
  · exact hidle hi
  · exact hfinished plains hf

/-- A move that leaves the disk and the list alone. -/
theorem Clean.quiet (h : Clean lz4 blobs layers own s) (hidx : idx < own.length)
    (hturn : Turned s s' idx w s.done) (hw : w ≠ .idle) (hdisk : s'.disk = s.disk)
    (hout : idx ∉ s.done)
    (hself : ∀ layer c, layers[idx]? = some layer → contentOf lz4 blobs layer = some c →
      ChunkRight lz4 c idx s → HoldsUpTo c idx w.reached s.disk ∧ w.Decodes lz4 c) :
    Clean lz4 blobs layers own s' := by
  refine h.update hidx hturn hw (.inl rfl) (fun hin => absurd hin hout)
    (by rw [hdisk]) (fun _ => by rw [hdisk]) (fun _ _ _ _ _ => by rw [hdisk]) ?_
  intro layer c hlayer hcontent hold
  obtain ⟨hholds, hdecodes⟩ := hself layer c hlayer hcontent hold
  exact
    { loose := hdisk ▸ hold.loose
      holds := by
        rw [hturn.worker, hdisk]
        exact hholds
      listed := fun hin => absurd (hturn.done ▸ hin) hout
      decodes := by
        rw [hturn.worker]
        exact hdecodes }

/-- A worker that starts over, or gives up. -/
theorem Clean.restart (h : Clean lz4 blobs layers own s) (hidx : idx < own.length)
    (hturn : Turned s s' idx w s.done) (hw : w ≠ .idle) (hreached : w.reached = 0)
    (hdecodes : ∀ c, w.Decodes lz4 c) (hdisk : s'.disk = s.disk) (hout : idx ∉ s.done) :
    Clean lz4 blobs layers own s' := by
  refine h.quiet hidx hturn hw hdisk hout fun _ c _ _ _ => ⟨fun _ _ hlt => ?_, hdecodes c⟩
  rw [hreached] at hlt
  exact absurd hlt (Nat.not_lt_zero _)

/-- What a worker has written, the next block and what follows are the content of its chunk. -/
theorem Clean.split (h : Clean lz4 blobs layers own s) {plains : List (List Byte)}
    {data bytes rest : List Byte} (hbefore : s.workers idx = .writing plains data)
    (hnext : nextBlock lz4 (plains.getLastD []) data = .plain bytes rest) {layer : Layer δ}
    {c : List Byte} (hlayer : layers[idx]? = some layer)
    (hcontent : contentOf lz4 blobs layer = some c) :
    ∃ after, c = plains.flatten ++ bytes ++ after := by
  have hdecodes := (h.chunk idx layer c hlayer hcontent).decodes
  rw [hbefore] at hdecodes
  have htotal : total lz4 (plains ++ [bytes]) rest = some c :=
    (total_concat hnext).trans hdecodes
  obtain ⟨after, -, hafter⟩ := Option.map_eq_some_iff.mp htotal
  exact ⟨after, by rw [← hafter]; simp⟩

/-- The next block of a chunk ends within it. -/
theorem Clean.room (h : Clean lz4 blobs layers own s)
    (hfits : ∀ layer, layers[idx]? = some layer → ∃ c, contentOf lz4 blobs layer = some c ∧
      c.length ≤ chunkSpan)
    {plains : List (List Byte)} {data bytes rest : List Byte}
    (hbefore : s.workers idx = .writing plains data)
    (hnext : nextBlock lz4 (plains.getLastD []) data = .plain bytes rest)
    (hlt : idx < layers.length) : plains.flatten.length + bytes.length ≤ chunkSpan := by
  have hlayer := List.getElem?_eq_getElem hlt
  obtain ⟨c, hcontent, hle⟩ := hfits _ hlayer
  obtain ⟨after, hafter⟩ := h.split hbefore hnext hlayer hcontent
  rw [hafter, List.length_append, List.length_append] at hle
  omega

/-- A block that is stored as a whole, or left out. -/
theorem Clean.block (h : Clean lz4 blobs layers own s)
    (hfits : ∀ layer, layers[idx]? = some layer → ∃ c, contentOf lz4 blobs layer = some c ∧
      c.length ≤ chunkSpan)
    (hidx : idx < own.length) {plains : List (List Byte)} {data bytes rest : List Byte}
    (hbefore : s.workers idx = .writing plains data)
    (hnext : nextBlock lz4 (plains.getLastD []) data = .plain bytes rest)
    (hturn : Turned s s' idx (.writing (plains ++ [bytes]) rest) s.done)
    (hdisk : s'.disk = if isWritten bytes then
      s.disk.pwrite (idx * chunkSpan + plains.flatten.length) bytes else s.disk) :
    Clean lz4 blobs layers own s' := by
  have hout : idx ∉ s.done := h.active (by simp [hbefore]) (by simp [hbefore])
  have hroom := h.room hfits hbefore hnext
  refine h.update hidx hturn nofun (.inl rfl) (fun hin => absurd hin hout) ?_ (fun hle => ?_)
    (fun i hi hne k hk => ?_) fun layer c hlayer hcontent hold => ?_
  · rw [hdisk]
    split
    · exact Nat.le_max_left _ _
    · exact Nat.le_refl _
  · rw [hdisk]
    split
    · have hspan : (idx + 1) * chunkSpan ≤ min own.length layers.length * chunkSpan :=
        Nat.mul_le_mul_right _ (by omega)
      have hleast := h.least
      have hblock := hroom (by omega)
      rw [Nat.add_mul] at hspan
      exact Nat.max_le.mpr ⟨Nat.le_refl _, by omega⟩
    · exact Nat.le_refl _
  · rw [hdisk]
    split
    · refine byte_pwrite_of_ne hne hk ?_
      by_cases hlt : idx < layers.length
      · exact .inr (hroom hlt)
      · exact .inl (by omega)
    · rfl
  · obtain ⟨after, hafter⟩ := h.split hbefore hnext hlayer hcontent
    have hholds := hold.holds
    have hdecodes := hold.decodes
    rw [hbefore] at hholds hdecodes
    obtain ⟨hloose, hmore⟩ := chunk_block hafter hold.loose hholds
    refine ⟨hdisk ▸ hloose, ?_, fun hin => absurd (hturn.done ▸ hin) hout, ?_⟩
    · rw [hturn.worker, hdisk]
      simpa [Worker.reached] using hmore
    · rw [hturn.worker]
      exact (total_concat hnext).trans hdecodes

/-- A chunk that has been checked is recorded. -/
theorem Clean.record (h : Clean lz4 blobs layers own s) (hidx : idx < own.length)
    {plains : List (List Byte)} (hbefore : s.workers idx = .removed plains)
    (hturn : Turned s s' idx (.finished plains) (idx :: s.done)) (hdisk : s'.disk = s.disk) :
    Clean lz4 blobs layers own s' := by
  refine h.update hidx hturn nofun (.inr rfl) (fun _ => ⟨plains, rfl⟩) (by rw [hdisk])
    (fun _ => by rw [hdisk]) (fun _ _ _ _ _ => by rw [hdisk]) fun layer c _ _ hold => ?_
  have hholds := hold.holds
  rw [hbefore] at hholds
  exact
    { loose := hdisk ▸ hold.loose
      holds := by
        rw [hturn.worker, hdisk]
        exact hholds
      listed := fun _ => hdisk ▸ hholds
      decodes := by
        rw [hturn.worker]
        trivial }

/-- The layer a worker carries is that of the manifest. -/
theorem layer_eq_of_same
    (hsame : ∀ i < own.length, i < layers.length → own[i]? = layers[i]?) {i : Nat}
    {mine layer : Layer δ} (hmine : own[i]? = some mine) (hlayer : layers[i]? = some layer) :
    mine = layer := by
  have hlt := (List.getElem?_eq_some_iff.mp hmine).1
  have hlt' := (List.getElem?_eq_some_iff.mp hlayer).1
  rw [hsame _ hlt hlt', hlayer] at hmine
  exact (Option.some.inj hmine).symm

/-- A part file that is long enough is read: it is right, or the chunk is spoiled. -/
theorem Clean.read (hsame : ∀ i < own.length, i < layers.length → own[i]? = layers[i]?)
    (h : Clean lz4 blobs layers own s) (hout : idx ∉ s.done)
    {mine : Layer δ} {data : List Byte} (hmine : own[idx]? = some mine)
    (hlong : mine.size ≤ data.length) (hpart : s'.parts idx = some data)
    (hturn : Turned s s' idx (.writing [] data) s.done) (hdisk : s'.disk = s.disk) :
    Clean lz4 blobs layers own s' ∨
      ∃ i layer data, Spoiled lz4 blobs layers own s' i layer data := by
  by_cases hright : ∀ layer, layers[idx]? = some layer →
      plainOf lz4 [] data = contentOf lz4 blobs layer
  · refine .inl (h.quiet (List.getElem?_eq_some_iff.mp hmine).1 hturn nofun hdisk hout
      fun layer c hlayer hcontent _ => ⟨fun _ _ hlt => absurd hlt (Nat.not_lt_zero _), ?_⟩)
    exact (total_nil data).trans ((hright layer hlayer).trans hcontent)
  · push Not at hright
    obtain ⟨layer, hlayer, hwrong⟩ := hright
    obtain rfl := layer_eq_of_same hsame hmine hlayer
    refine .inr ⟨idx, mine, data, hlayer, hpart, hlong, hwrong, ?_, ?_, ?_⟩
    · rw [hturn.done]
      exact hout
    · rcases hturn.completed with hc | hc
      · rw [hc]
        exact fun hin => hout (h.listed _ hin)
      · rw [hc, hturn.done]
        exact hout
    · rw [hturn.worker]
      exact total_nil data

end Chunks

section Runs

variable [DecidableEq δ] {lz4 : List Byte → Nat → List Byte → Option (List Byte)}
  {sha256 : List Byte → δ} {blobs : δ → List Byte} {layers own : List (Layer δ)}

/-- The checks fail for a part file that is judged rightly and is wrong. -/
theorem checkChunk_eq_false (hpub : Published lz4 sha256 blobs layers) {layer : Layer δ}
    (hlayer : layer ∈ layers) {data : List Byte}
    (hjudged : JudgedRightly lz4 sha256 blobs layer data) {plains : List (List Byte)}
    (hplains : plainOf lz4 [] data = some plains.flatten)
    (hwrong : plainOf lz4 [] data ≠ contentOf lz4 blobs layer) :
    checkChunk sha256 layer plains = false := by
  by_contra hcheck
  rw [Bool.not_eq_false, checkChunk, Bool.and_eq_true] at hcheck
  obtain ⟨c, hcontent, -, -, hsum⟩ := hpub layer hlayer
  unfold JudgedRightly at hjudged
  cases hdigest : layer.uncompressedContentDigest with
  | some digest =>
    rw [hdigest] at hjudged hcheck
    have hsame : sha256 plains.flatten = sha256 c :=
      (of_decide_eq_true hcheck.1).trans (hsum digest hdigest).symm
    refine hwrong ?_
    rw [hplains, hcontent, hjudged plains.flatten hplains c hcontent hsame]
  | none =>
    have hblob : data = blobs layer.digest := by simpa [hdigest] using hjudged
    exact hwrong (by rw [hblob, contentOf])

/-- The worker of a spoiled chunk keeps its part file and gets no further. -/
theorem Spoiled.moves (hpub : Published lz4 sha256 blobs layers) {s : Progress} {i : Nat}
    {layer : Layer δ} {data : List Byte} (h : Spoiled lz4 blobs layers own s i layer data)
    (hjudged : JudgedRightly lz4 sha256 blobs layer data) {pwrite : Pwrite} {disk disk' : Disk}
    {part : Option (List Byte)} {w : Worker}
    (hmoves : Moves lz4 sha256 layer i pwrite disk (s.parts i) (s.workers i) disk' part w) :
    part = some data ∧ i ∉ recorded i s.done (s.workers i) ∧ w.Stuck lz4 own.length i data := by
  have hstuck := h.stuck
  generalize s.workers i = before at hmoves hstuck
  rw [h.part] at hmoves
  cases hmoves with
  | attempt n n' part' hshort => exact absurd h.long (Nat.not_le.mpr hshort)
  | read n data' hdata hlong =>
    cases hdata
    exact ⟨rfl, h.open_, total_nil _⟩
  | giveUp n => exact ⟨rfl, h.open_, trivial⟩
  | block plains rest bytes rest' hnext _ =>
    exact ⟨rfl, h.open_, (total_concat hnext).trans hstuck⟩
  | check plains rest hnext hcheck =>
    have hplains := (total_of_finished hnext).symm.trans hstuck
    rw [checkChunk_eq_false hpub (List.mem_of_getElem? h.layer_eq) hjudged hplains.symm
      h.wrong] at hcheck
    cases hcheck
  | raise plains rest => exact ⟨rfl, h.open_, trivial⟩
  | remove plains => exact hstuck.elim
  | record plains => exact hstuck.elim

/-- A chunk that is spoiled stays so. -/
theorem spoiled_step (hpub : Published lz4 sha256 blobs layers)
    (hsame : ∀ i < own.length, i < layers.length → own[i]? = layers[i]?) {s : Progress}
    {i : Nat} {layer : Layer δ} {data : List Byte} (h : Spoiled lz4 blobs layers own s i layer data)
    {t : Turn} (hproper : Proper lz4 sha256 blobs layers s t) :
    Spoiled lz4 blobs layers own (step lz4 sha256 own s t) i layer data := by
  rcases @step_moves δ _ lz4 sha256 own s t with
    hnone | ⟨mine, part, w, hmine, hmoves, hparts, hworkers, hdone, hcompleted⟩
  · rw [hnone]
    exact h
  · suffices hkeep : (step lz4 sha256 own s t).parts i = some data ∧
        i ∉ (step lz4 sha256 own s t).done ∧
        ((step lz4 sha256 own s t).workers i).Stuck lz4 own.length i data by
      refine ⟨h.layer_eq, hkeep.1, h.long, h.wrong, hkeep.2.1, ?_, hkeep.2.2⟩
      rcases hcompleted with hc | hc
      · rw [hc]
        exact h.unlisted
      · rw [hc]
        exact hkeep.2.1
    rw [hparts, hworkers, hdone]
    by_cases hi : i = t.idx
    · subst hi
      obtain rfl := layer_eq_of_same hsame hmine h.layer_eq
      rw [Function.update_self, Function.update_self]
      exact h.moves hpub (hproper.2 mine h.layer_eq data h.part h.long) hmoves
    · -- another worker changes neither the part file nor the list
      rw [Function.update_of_ne hi, Function.update_of_ne hi]
      refine ⟨h.part, fun hin => ?_, h.stuck⟩
      unfold recorded at hin
      split at hin
      · exact (List.mem_cons.mp hin).elim hi h.open_
      · exact h.open_ hin

/-- A step keeps a run clean, unless it opens a wrong part file. -/
theorem clean_step (hpub : Published lz4 sha256 blobs layers)
    (hsame : ∀ i < own.length, i < layers.length → own[i]? = layers[i]?) {s : Progress}
    (h : Clean lz4 blobs layers own s) {t : Turn}
    (hproper : Proper lz4 sha256 blobs layers s t) :
    Clean lz4 blobs layers own (step lz4 sha256 own s t) ∨
      ∃ i layer data, Spoiled lz4 blobs layers own (step lz4 sha256 own s t) i layer data := by
  rcases @step_moves δ _ lz4 sha256 own s t with
    hnone | ⟨mine, part, w, hmine, hmoves, hparts, hworkers, hdone, hcompleted⟩
  · rw [hnone]
    exact .inl h
  · have hidx := (List.getElem?_eq_some_iff.mp hmine).1
    have hturn : Turned s (step lz4 sha256 own s t) t.idx w
        (recorded t.idx s.done (s.workers t.idx)) := ⟨hworkers, hdone, hcompleted⟩
    have hactive : s.workers t.idx ≠ .idle → (∀ plains, s.workers t.idx ≠ .finished plains) →
        t.idx ∉ s.done := h.active
    generalize hbefore : s.workers t.idx = before at hmoves hturn hactive
    generalize hdisk : (step lz4 sha256 own s t).disk = disk at hmoves
    cases hmoves with
    | attempt n n' part' hshort =>
      exact .inl (h.restart hidx hturn nofun rfl (fun _ => trivial) hdisk (hactive nofun nofun))
    | giveUp n =>
      exact .inl (h.restart hidx hturn nofun rfl (fun _ => trivial) hdisk (hactive nofun nofun))
    | raise plains data =>
      exact .inl (h.restart hidx hturn nofun rfl (fun _ => trivial) hdisk (hactive nofun nofun))
    | read n data hpart hlong =>
      refine h.read hsame (hactive nofun nofun) hmine hlong ?_ hturn hdisk
      rw [hparts, Function.update_self, hpart]
    | block plains data bytes rest hnext hstored =>
      refine .inl (h.block (fun layer hlayer => ?_) hidx hbefore hnext hturn ?_)
      · obtain ⟨c, hcontent, -, hle, -⟩ := hpub layer (List.mem_of_getElem? hlayer)
        exact ⟨c, hcontent, hle⟩
      · rw [hdisk]
        split
        · rename_i hwritten
          rw [hproper.1.resolve_right (hstored hwritten)]
          rfl
        · rfl
    | check plains data hnext hcheck =>
      refine .inl (h.quiet hidx hturn nofun hdisk (hactive nofun nofun)
        fun layer c _ _ hold => ⟨?_, trivial⟩)
      have hholds := hold.holds
      have hdecodes := hold.decodes
      rw [hbefore] at hholds hdecodes
      obtain rfl : plains.flatten = c :=
        Option.some.inj ((total_of_finished hnext).symm.trans hdecodes)
      exact HoldsUpTo.whole hholds hold.loose
    | remove plains =>
      refine .inl (h.quiet hidx hturn nofun hdisk (hactive nofun nofun)
        fun layer c _ _ hold => ⟨?_, trivial⟩)
      have hholds := hold.holds
      rw [hbefore] at hholds
      exact hholds
    | record plains => exact .inl (h.record hidx hbefore hturn hdisk)

end Runs

end Images

end Orchard.Fetch
