/-
  Nvram/PrepareAux.lean --- `scripts/prepare-aux.py`.

  The aux image of a virtual Mac holds two NVRAM banks; the one with the higher
  generation is live.  A bank is a header, a checksum over what follows it, and a list
  of `KEY=VALUE` strings, each closed by a NUL.  The script appends strings to the list
  of the live bank, renews the checksum of that bank and writes the image, over the old
  one or to a second file.

  Files are a map from paths; reading a file that exists and writing one succeed.
-/
import Orchard.Foundation.Bytes
import Orchard.Foundation.Terminated

set_option autoImplicit false

namespace Orchard.Nvram

open Orchard.Foundation

/-! ## Banks -/

/-- `BANKS`: base and length. -/
def banks : List (Nat × Nat) := [(0xA00000, 0x2000), (0xA80000, 0x80000)]

/-- `GEN_OFF`. -/
def genOff : Nat := 0x14

/-- `CKSUM_OFF`. -/
def cksumOff : Nat := 0x10

/-- A bank that was found, with its generation. -/
structure Bank where
  base : Nat
  length : Nat
  gen : Nat
  deriving DecidableEq, Repr

namespace Bank

/-- Where the list of entries starts. -/
def start (bank : Bank) : Nat := bank.base + genOff + 4

/-- Where the bank ends. -/
def stop (bank : Bank) : Nat := bank.base + bank.length

end Bank

/-- `bank_generation`. -/
def bankGeneration (data : List Byte) (base : Nat) : Nat :=
  leNat (slice data (base + genOff) (base + genOff + 4))

/-- One round of the loop of `live_bank`. -/
def betterBank (data : List Byte) (best : Option Bank) (bank : Nat × Nat) : Option Bank :=
  if data.length < bank.1 + bank.2 then best
  else
    let gen := bankGeneration data bank.1
    match best with
    | none => some ⟨bank.1, bank.2, gen⟩
    | some b => if b.gen < gen then some ⟨bank.1, bank.2, gen⟩ else some b

/-- `live_bank`. -/
def liveBank (data : List Byte) : Option Bank := banks.foldl (betterBank data) none

/-! ## The list of entries -/

/-- `data.find(byte, start, stop)`. -/
def find (data : List Byte) (byte : Byte) (start stop : Nat) : Option Nat :=
  ((slice data start stop).findIdx? (· == byte)).map (start + ·)

/-- The loop of `last_entry_end`.  Every round moves `pos`, so `stop` rounds suffice. -/
def lastEntryEndFrom (data : List Byte) (stop : Nat) : Nat → Nat → Nat → Nat
  | 0, _, last => last
  | rounds + 1, pos, last =>
    if pos < stop then
      match find data 0 pos stop with
      | none => last
      | some nul =>
        if nul = pos then last else lastEntryEndFrom data stop rounds (nul + 1) (nul + 1)
    else last

/-- `last_entry_end`. -/
def lastEntryEnd (data : List Byte) (bank : Bank) : Nat :=
  lastEntryEndFrom data bank.stop bank.stop bank.start bank.start

/-! ## `main` -/

/-- A `--set` argument, encoded.  No argument of a process holds a NUL. -/
structure Item where
  bytes : List Byte
  nulFree : (0 : Byte) ∉ bytes

/-- Why the script exits with an error. -/
inductive ExitError where
  /-- `open` fails -/
  | unreadable
  /-- "no CHRP bank found: is this a tart nvram image?" -/
  | noBank
  /-- "nothing to do: pass --set KEY=VALUE (or --show)" -/
  | nothingToDo
  /-- "--set needs KEY=VALUE, got …" -/
  | needsKeyValue (item : List Byte)
  /-- "no room left in the bank for this entry" -/
  | noRoom
  /-- `shutil.SameFileError` -/
  | sameFile

/-- The loop over `args.set`, with the position to append at. -/
def appendItems (limit : Nat) : List Byte → Nat → List Item → Except ExitError (List Byte)
  | data, _, [] => .ok data
  | data, pos, item :: rest =>
    if (0x3d : Byte) ∉ item.bytes then .error (.needsKeyValue item.bytes)
    else
      let blob := item.bytes ++ [0]
      if limit < pos + blob.length then .error .noRoom
      else appendItems limit (patch data pos blob) (pos + blob.length) rest

/-- The two sums of an Adler checksum, with one more byte. -/
def adlerStep (sums : Nat × Nat) (b : Byte) : Nat × Nat :=
  let low := (sums.1 + b.toNat) % 65521
  (low, (sums.2 + low) % 65521)

/-- `zlib.adler32`. -/
def adler32 (bytes : List Byte) : Nat :=
  let sums := bytes.foldl adlerStep (1, 0)
  sums.2 * 2 ^ 16 + sums.1

/-- The checksum of the bank is renewed. -/
def fixChecksum (data : List Byte) (bank : Bank) : List Byte :=
  patch data (bank.base + cksumOff)
    (toLe 4 (adler32 (slice data (bank.base + genOff) bank.stop) % 2 ^ 32))

/-- The files.  Several paths may lead to one, through links or by being spelled
differently; a path that leads to none yet has a number of its own without content. -/
structure Files where
  file : String → Nat
  content : Nat → Option (List Byte)

def Files.read (files : Files) (path : String) : Option (List Byte) :=
  files.content (files.file path)

def Files.write (files : Files) (path : String) (bytes : List Byte) : Files :=
  { files with content := Function.update files.content (files.file path) (some bytes) }

/-- The arguments; `listOnly` is `--show`. -/
structure Args where
  aux : String
  out : Option String
  set : List Item
  listOnly : Bool

/-- How the script ends. -/
inductive Outcome where
  | exited (error : ExitError)
  /-- the entries it printed -/
  | shown (entries : List (List Byte))
  /-- the file it wrote -/
  | wrote (path : String)

/-- `main`. -/
def main (files : Files) (args : Args) : Outcome × Files :=
  match files.read args.aux with
  | none => (.exited .unreadable, files)
  | some data =>
    match liveBank data with
    | none => (.exited .noBank, files)
    | some bank =>
      if args.listOnly then
        let body := slice data bank.start (lastEntryEnd data bank)
        (.shown ((body.splitOn 0).filter (· ≠ [])), files)
      else if args.set.isEmpty then (.exited .nothingToDo, files)
      else
        match appendItems bank.stop data (lastEntryEnd data bank) args.set with
        | .error error => (.exited error, files)
        | .ok appended =>
          let written := fixChecksum appended bank
          -- an empty `--out` counts as none
          match args.out.filter (· ≠ "") with
          | none => (.wrote args.aux, files.write args.aux written)
          | some out =>
            -- `shutil.copyfile` compares the files, not their names
            if files.file out = files.file args.aux then (.exited .sameFile, files)
            else (.wrote out, files.write out written)

end Orchard.Nvram
