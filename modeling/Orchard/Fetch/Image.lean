/-
  Fetch/Image.lean --- `scripts/fetch-tart-image.py`, the resumable image fetch.

  A run reads the manifest, opens `disk.raw`, and hands every chunk that the state
  file does not list to a pool of workers.  A worker downloads its layer into a part
  file, decompresses it block by block into its own 512 MiB of the disk, checks the
  digest, removes the part file and records the chunk.  The directory survives the
  run; the workers' progress does not, so killing a run is stopping between steps.

  LZ4 block decompression (`lz4`) and SHA-256 (`sha256`) are parameters.  What a
  download appends to a part file is up to the network, and how much of a block
  `os.pwrite` stores is up to the file system: the script drops the result of the call.
-/
import Orchard.Foundation.Bytes
import Orchard.Foundation.Execution

set_option autoImplicit false

namespace Orchard.Fetch

open Orchard.Foundation

/-! ## The sparse image -/

/-- A file with holes: its length, and its bytes, which are zero past the end. -/
structure Disk where
  size : Nat
  byte : Nat → Byte
  past : ∀ p, size ≤ p → byte p = 0

/-- A file that was just created. -/
def Disk.empty : Disk := { size := 0, byte := fun _ => 0, past := fun _ _ => rfl }

/-- `os.ftruncate`: what lies past the shorter of the two lengths is zero. -/
def Disk.truncate (d : Disk) (size : Nat) : Disk where
  size := size
  byte := fun p => if p < size then d.byte p else 0
  past := fun _ hp => if_neg (Nat.not_lt.mpr hp)

/-- The bytes `plain`, stored from a position on. -/
def Disk.pwrite (d : Disk) (pos : Nat) (plain : List Byte) : Disk where
  size := max d.size (pos + plain.length)
  byte := fun p =>
    if pos ≤ p ∧ p < pos + plain.length then plain.getD (p - pos) 0 else d.byte p
  past := fun p hp => by
    rw [if_neg (by omega)]
    exact d.past p (by omega)

/-- What `os.pwrite` does with a block. -/
inductive Pwrite where
  | all
  /-- fewer bytes are stored than were given -/
  | short (count : Nat)
  /-- nothing is stored and it raises -/
  | raises
  deriving DecidableEq, Repr

/-- The part of a block that is stored, unless the call raises. -/
def Pwrite.stores : Pwrite → List Byte → List Byte
  | .all, plain => plain
  | .short count, plain => plain.take count
  | .raises, _ => []

/-- `CHUNK_SPAN`. -/
def chunkSpan : Nat := 536870912

/-- `ZERO_64K`. -/
def zero64K : List Byte := List.replicate 65536 0

/-- The blocks that are written: `plain != ZERO_64K and any(plain)`. -/
def isWritten (plain : List Byte) : Bool := plain != zero64K && plain.any (· != 0)

/-! ## Layers -/

section Layers

variable {δ : Type}

/-- A disk layer of a manifest, with its annotations. -/
structure Layer (δ : Type) where
  digest : δ
  /-- length of the compressed blob -/
  size : Nat
  uncompressedSize : Option Nat
  uncompressedContentDigest : Option δ
  deriving DecidableEq

/-- The outcome of one round of the loop in `write_chunk`. -/
inductive Block where
  /-- the data ends, or the end marker stands here -/
  | finished
  /-- a block, and the data behind it -/
  | plain (bytes rest : List Byte)
  /-- the round raises -/
  | bad

def magicEnd : List Byte := [0x62, 0x76, 0x34, 0x24]
def magicCompressed : List Byte := [0x62, 0x76, 0x34, 0x31]
def magicStored : List Byte := [0x62, 0x76, 0x34, 0x2d]

/-- The block at the front of the data, where `dict` is the block before it.  Slices
are cut at the end of the data as Python cuts them; `struct.unpack` needs its bytes. -/
def nextBlock (lz4 : List Byte → Nat → List Byte → Option (List Byte))
    (dict data : List Byte) : Block :=
  if data = [] then .finished
  else if data.take 4 = magicEnd then .finished
  else if data.take 4 = magicCompressed then
    if data.length < 12 then .bad
    else
      let uSz := leNat ((data.drop 4).take 4)
      let cSz := leNat ((data.drop 8).take 4)
      match lz4 ((data.drop 12).take cSz) uSz dict with
      | none => .bad
      | some bytes => .plain bytes (data.drop (12 + cSz))
  else if data.take 4 = magicStored then
    if data.length < 8 then .bad
    else
      let uSz := leNat ((data.drop 4).take 4)
      .plain ((data.drop 8).take uSz) (data.drop (8 + uSz))
  else .bad

/-- The blocks from here on, in at most so many rounds. -/
def decompress (lz4 : List Byte → Nat → List Byte → Option (List Byte)) :
    Nat → List Byte → List Byte → Option (List Byte)
  | 0, _, data => if data = [] then some [] else none
  | rounds + 1, dict, data =>
    match nextBlock lz4 dict data with
    | .finished => some []
    | .plain bytes rest => (decompress lz4 rounds bytes rest).map (bytes ++ ·)
    | .bad => none

/-- What the data decompresses to.  Every round consumes bytes, so as many rounds as there
are bytes suffice. -/
def plainOf (lz4 : List Byte → Nat → List Byte → Option (List Byte)) (dict data : List Byte) :
    Option (List Byte) :=
  decompress lz4 data.length dict data

end Layers

/-! ## A run -/

section Run

variable {δ : Type} [DecidableEq δ]

/-- What a run leaves in the output directory. -/
structure Dir where
  disk : Option Disk
  /-- the chunks of `fetch-state.json`, if it is there and readable -/
  completed : Option (List Nat)
  /-- the part file of each chunk -/
  parts : Nat → Option (List Byte)

/-- Where a worker is.  From `writing` on it carries the blocks it has decompressed,
which is what the hasher has seen. -/
inductive Worker where
  /-- nothing to do: the chunk was listed, or there is no such layer -/
  | idle
  | downloading (attempts : Nat)
  | writing (plains : List (List Byte)) (data : List Byte)
  | checked (plains : List (List Byte))
  | removed (plains : List (List Byte))
  | finished (plains : List (List Byte))
  /-- the worker raised -/
  | failed (plains : List (List Byte))

/-- The state of a run. -/
structure Progress where
  disk : Disk
  completed : Option (List Nat)
  parts : Nat → Option (List Byte)
  /-- the set `done` -/
  done : List Nat
  workers : Nat → Worker

/-- `main` up to the pool: the listed chunks are done, the disk gets its length and
every other chunk a worker. -/
def startRun (layers : List (Layer δ)) (dir : Dir) : Progress :=
  let done := dir.completed.getD []
  let disk := dir.disk.getD Disk.empty
  let total := layers.length * chunkSpan
  { disk := if disk.size ≠ total then disk.truncate total else disk
    completed := dir.completed
    parts := dir.parts
    done := done
    workers := fun i => if i < layers.length ∧ i ∉ done then .downloading 0 else .idle }

/-- What a run that stops here leaves behind. -/
def Progress.dir (s : Progress) : Dir :=
  { disk := some s.disk, completed := s.completed, parts := s.parts }

/-- One attempt of `download_chunk`: `arrived` is what it appends to the part file, or
`none` if it does not get to open it.  The part file is read once it is long enough; a
missing size annotation raises before `write_chunk` runs. -/
def downloadChunk (layer : Layer δ) (part : Option (List Byte)) (attempts : Nat)
    (arrived : Option (List Byte)) : Option (List Byte) × Worker :=
  if attempts = 50 then (part, .failed [])
  else if layer.size ≤ (part.getD []).length then
    match layer.uncompressedSize, part with
    | some _, some data => (part, .writing [] data)
    | _, _ => (part, .failed [])
  else
    match arrived with
    | none => (part, .downloading (attempts + 1))
    | some bytes => (some (part.getD [] ++ bytes), .downloading (attempts + 1))

/-- The checks at the end of `write_chunk`. -/
def checkChunk (sha256 : List Byte → δ) (layer : Layer δ) (plains : List (List Byte)) : Bool :=
  (match layer.uncompressedContentDigest with
    | some expected => decide (sha256 plains.flatten = expected)
    | none => true) &&
  decide (layer.uncompressedSize = some plains.flatten.length)

/-- One round of `write_chunk` for chunk `idx`. -/
def writeChunk (lz4 : List Byte → Nat → List Byte → Option (List Byte)) (sha256 : List Byte → δ)
    (layer : Layer δ) (idx : Nat) (disk : Disk) (plains : List (List Byte)) (data : List Byte)
    (pwrite : Pwrite) : Disk × Worker :=
  match nextBlock lz4 (plains.getLastD []) data with
  | .bad => (disk, .failed plains)
  | .finished => (disk, if checkChunk sha256 layer plains then .checked plains else .failed plains)
  | .plain bytes rest =>
    if isWritten bytes then
      if pwrite = .raises then (disk, .failed plains)
      else (disk.pwrite (idx * chunkSpan + plains.flatten.length) (pwrite.stores bytes),
        .writing (plains ++ [bytes]) rest)
    else (disk, .writing (plains ++ [bytes]) rest)

/-- A worker's next step: which chunk, what arrives if it is downloading, and what becomes
of its block if it is writing one. -/
structure Turn where
  idx : Nat
  arrived : Option (List Byte)
  pwrite : Pwrite

/-- `one`, a step at a time. -/
def step (lz4 : List Byte → Nat → List Byte → Option (List Byte)) (sha256 : List Byte → δ)
    (layers : List (Layer δ)) (s : Progress) (t : Turn) : Progress :=
  match layers[t.idx]? with
  | none => s
  | some layer =>
    match s.workers t.idx with
    | .downloading attempts =>
      let r := downloadChunk layer (s.parts t.idx) attempts t.arrived
      { s with
        parts := Function.update s.parts t.idx r.1
        workers := Function.update s.workers t.idx r.2 }
    | .writing plains data =>
      let r := writeChunk lz4 sha256 layer t.idx s.disk plains data t.pwrite
      { s with disk := r.1, workers := Function.update s.workers t.idx r.2 }
    | .checked plains =>
      { s with
        parts := Function.update s.parts t.idx none
        workers := Function.update s.workers t.idx (.removed plains) }
    | .removed plains =>
      -- `record`: the set and the state file, under the lock
      { s with
        done := t.idx :: s.done
        completed := some (t.idx :: s.done)
        workers := Function.update s.workers t.idx (.finished plains) }
    | .idle => s
    | .finished _ => s
    | .failed _ => s

/-- The run ended without an exception: every worker returned. -/
def Succeeded (layers : List (Layer δ)) (s : Progress) : Prop :=
  ∀ i < layers.length,
    match s.workers i with
    | .idle => True
    | .finished _ => True
    | _ => False

instance (layers : List (Layer δ)) (s : Progress) : Decidable (Succeeded layers s) :=
  have (i : Nat) : Decidable (match s.workers i with
      | .idle => True
      | .finished _ => True
      | _ => False) :=
    match s.workers i with
    | .idle => inferInstanceAs (Decidable True)
    | .finished _ => inferInstanceAs (Decidable True)
    | .downloading _ => inferInstanceAs (Decidable False)
    | .writing _ _ => inferInstanceAs (Decidable False)
    | .checked _ => inferInstanceAs (Decidable False)
    | .removed _ => inferInstanceAs (Decidable False)
    | .failed _ => inferInstanceAs (Decidable False)
  inferInstanceAs (Decidable (∀ i < layers.length, _))

end Run

end Orchard.Fetch
