/-
  Nvram/AppendOnly.lean --- what `prepare-aux.py` leaves in the live bank.

  The script writes its strings over whatever stands behind the last entry.  That ends
  the list only if the bytes it does not overwrite cannot be read as further entries:
  the list runs on into the leftovers of an older, longer one.  Everything else it
  promises holds on every image.
-/
import Orchard.Nvram.PrepareAux

set_option autoImplicit false

namespace Orchard.Nvram

open Orchard.Foundation

/-! ## The list of entries -/

/-- The entries of a bank. -/
def entries (data : List Byte) (bank : Bank) : List (List Byte) :=
  readStrings 0 (slice data bank.start bank.stop)

/-- Where the entries of a bank end. -/
def entriesEnd (data : List Byte) (bank : Bank) : Nat :=
  bank.start + (layOut 0 (entries data bank)).length

theorem findIdx?_nul_eq_none {bytes : List Byte} (h : 0 ∉ bytes) :
    bytes.findIdx? (· == (0 : Byte)) = none :=
  List.findIdx?_eq_none_iff.2 fun _ hb => beq_false_of_ne (ne_of_mem_of_not_mem hb h)

/-- `find` stops at the first NUL of the slice, if there is one. -/
theorem find_cases (data : List Byte) (start stop : Nat) :
    (0 ∉ slice data start stop ∧ find data 0 start stop = none) ∨
    (∃ s rest, 0 ∉ s ∧ slice data start stop = s ++ 0 :: rest ∧
      find data 0 start stop = some (start + s.length)) := by
  unfold find
  by_cases h : 0 ∈ slice data start stop
  · obtain ⟨s, rest, hslice, hs⟩ := List.eq_append_cons_of_mem h
    refine .inr ⟨s, rest, hs, hslice, ?_⟩
    rw [hslice, List.findIdx?_append, findIdx?_nul_eq_none hs]
    simp [List.findIdx?_cons]
  · refine .inl ⟨h, ?_⟩
    rw [findIdx?_nul_eq_none h]
    rfl

/-- The loop of `last_entry_end` passes over the entries from its position on. -/
theorem lastEntryEndFrom_eq (data : List Byte) {stop : Nat} (hstop : stop ≤ data.length)
    (rounds pos : Nat) (hrounds : stop ≤ pos + rounds) :
    lastEntryEndFrom data stop rounds pos pos =
      pos + (layOut 0 (readStrings 0 (slice data pos stop))).length := by
  induction rounds generalizing pos with
  | zero =>
    have hnil : slice data pos stop = [] := by
      rw [← List.length_eq_zero_iff, length_slice hstop]
      omega
    rw [lastEntryEndFrom, hnil]
    rfl
  | succ rounds ih =>
    rw [lastEntryEndFrom]
    by_cases hpos : pos < stop
    · rw [if_pos hpos]
      rcases find_cases data pos stop with ⟨hnone, hfind⟩ | ⟨s, rest, hs, hslice, hfind⟩ <;>
        rw [hfind]
      · rw [readStrings_of_exhausted (.inr (.inr hnone))]
        rfl
      · dsimp only
        by_cases hempty : s = []
        · rw [if_pos (by simp [hempty]), hslice, hempty,
            readStrings_of_exhausted (.inr (.inl rfl))]
          rfl
        · have hsome : 0 < s.length := List.length_pos_iff.2 hempty
          have hrest : slice data (pos + s.length + 1) stop = rest := by
            have hdrop : slice data (pos + s.length + 1) stop =
                (slice data pos stop).drop (s.length + 1) := by
              rw [slice, slice, List.drop_drop, Nat.add_assoc]
            rw [hdrop, hslice, List.drop_append, List.drop_eq_nil_of_le (by omega)]
            simp
          rw [if_neg (by omega), ih _ (by omega), hrest, hslice,
            readStrings_cons ⟨hempty, hs⟩, layOut_cons]
          simp only [List.length_append, List.length_cons]
          omega
    · have hnil : slice data pos stop = [] := by
        rw [← List.length_eq_zero_iff, length_slice hstop]
        omega
      rw [if_neg hpos, hnil]
      rfl

theorem lastEntryEnd_eq {data : List Byte} {bank : Bank} (h : bank.stop ≤ data.length) :
    lastEntryEnd data bank = entriesEnd data bank :=
  lastEntryEndFrom_eq data h bank.stop bank.start (by omega)

/-! ## The live bank -/

theorem betterBank_some {data : List Byte} {best : Option Bank} {candidate : Nat × Nat}
    {bank : Bank} (h : betterBank data best candidate = some bank) :
    best = some bank ∨ ((bank.base, bank.length) = candidate ∧ bank.stop ≤ data.length) := by
  unfold betterBank at h
  split at h
  · exact .inl h
  · rename_i hfits
    dsimp only at h
    split at h
    · cases h
      exact .inr ⟨rfl, Nat.le_of_not_lt hfits⟩
    · split at h
      · cases h
        exact .inr ⟨rfl, Nat.le_of_not_lt hfits⟩
      · exact .inl h

/-- The live bank is one of the two, and lies in the image. -/
theorem liveBank_some {data : List Byte} {bank : Bank} (h : liveBank data = some bank) :
    (bank.base, bank.length) ∈ banks ∧ bank.stop ≤ data.length := by
  unfold liveBank banks at h
  simp only [List.foldl_cons, List.foldl_nil] at h
  rcases betterBank_some h with h | ⟨hbank, hfits⟩
  · rcases betterBank_some h with h | ⟨hbank, hfits⟩
    · cases h
    · exact ⟨by simp [banks, hbank], hfits⟩
  · exact ⟨by simp [banks, hbank], hfits⟩

/-- Which bank is live depends on the length of the image and the two generations. -/
theorem liveBank_congr {data data' : List Byte} (hlen : data'.length = data.length)
    (hgen : ∀ b ∈ banks, bankGeneration data' b.1 = bankGeneration data b.1) :
    liveBank data' = liveBank data := by
  have hround : ∀ best, ∀ b ∈ banks, betterBank data' best b = betterBank data best b := by
    intro best b hb
    unfold betterBank
    rw [hlen, hgen b hb]
  exact List.foldl_ext _ _ none hround

/-! ## Appending -/

/-- The items as strings of the list. -/
def strings (items : List Item) : List (List Byte) := items.map Item.bytes

/-- When the loop over the items does not exit, it has laid them out from the position
on, below the limit. -/
theorem appendItems_ok {limit : Nat} (items : List Item) {data appended : List Byte} {pos : Nat}
    (hlimit : limit ≤ data.length) (hpos : pos ≤ limit)
    (h : appendItems limit data pos items = .ok appended) :
    appended = patch data pos (layOut 0 (strings items)) ∧
      pos + (layOut 0 (strings items)).length ≤ limit ∧
      ∀ s ∈ strings items, Proper 0 s := by
  induction items generalizing data pos with
  | nil =>
    rw [appendItems] at h
    cases h
    exact ⟨by simp [strings, patch], by simpa [strings] using hpos, by simp [strings]⟩
  | cons item rest ih =>
    rw [appendItems] at h
    split at h
    · cases h
    · rename_i hkey
      dsimp only at h
      split at h
      · cases h
      · rename_i hroom
        have hblob : pos + (item.bytes ++ [0]).length ≤ data.length := by omega
        obtain ⟨happended, hend, hproper⟩ :=
          ih (by rw [length_patch hblob]; exact hlimit) (by omega) h
        have hlay : layOut 0 (strings (item :: rest)) =
            (item.bytes ++ [0]) ++ layOut 0 (strings rest) := by
          simp [strings]
        have hlen : (layOut 0 (strings (item :: rest))).length =
            (item.bytes ++ [0]).length + (layOut 0 (strings rest)).length := by
          rw [hlay, List.length_append]
        refine ⟨?_, by omega, ?_⟩
        · rw [happended, hlay]
          exact patch_patch (by rw [← hlay]; omega)
        · have hitem : Proper 0 item.bytes := by
            refine ⟨?_, item.nulFree⟩
            intro hnil
            exact hkey (by simp [hnil])
          exact List.forall_mem_cons.2 ⟨hitem, hproper⟩

/-! ## The checksum -/

theorem foldl_adlerStep_lt (bytes : List Byte) (sums : Nat × Nat)
    (h : sums.1 < 65521 ∧ sums.2 < 65521) :
    (bytes.foldl adlerStep sums).1 < 65521 ∧ (bytes.foldl adlerStep sums).2 < 65521 := by
  induction bytes generalizing sums with
  | nil => exact h
  | cons b bytes ih => exact ih _ ⟨Nat.mod_lt _ (by decide), Nat.mod_lt _ (by decide)⟩

theorem adler32_lt (bytes : List Byte) : adler32 bytes < 2 ^ 32 := by
  have hsums := foldl_adlerStep_lt bytes (1, 0) (by decide)
  unfold adler32
  dsimp only
  omega

/-- The stored checksum is that of the bank it is stored in. -/
theorem checksum_fixChecksum {image : List Byte} {bank : Bank}
    (hfits : bank.base + genOff ≤ image.length) :
    leNat (slice (fixChecksum image bank) (bank.base + cksumOff) (bank.base + genOff)) =
      adler32 (slice (fixChecksum image bank) (bank.base + genOff) bank.stop) := by
  have hroom : ∀ value, bank.base + cksumOff + (toLe 4 value).length ≤ image.length := by
    intro value
    rw [toLe_length]
    exact hfits
  have hself : ∀ value, slice (patch image (bank.base + cksumOff) (toLe 4 value))
      (bank.base + cksumOff) (bank.base + genOff) = toLe 4 value := by
    intro value
    have h := slice_patch_self (hroom value)
    rwa [toLe_length] at h
  -- the sum is taken over bytes behind the word it is stored in
  have hsummed : ∀ value, slice (patch image (bank.base + cksumOff) (toLe 4 value))
      (bank.base + genOff) bank.stop = slice image (bank.base + genOff) bank.stop := by
    intro value
    refine slice_patch_of_apart (hroom value) (.inr ?_)
    rw [toLe_length]
    exact Nat.le_refl _
  rw [fixChecksum, hself, hsummed, Nat.mod_eq_of_lt (adler32_lt _), leNat_toLe (adler32_lt _)]

/-! ## The written image -/

/-- Nothing behind the strings to be appended can be read as an entry: there comes the
end of the bank, a NUL, or bytes without a NUL. -/
def NothingBehind (data : List Byte) (bank : Bank) (items : List Item) : Prop :=
  Exhausted 0 (slice data (entriesEnd data bank + (layOut 0 (strings items)).length) bank.stop)

/-- What the script promises of the image it writes. -/
structure Appended (data written : List Byte) (bank : Bank) (items : List Item) : Prop where
  entries_eq : entries written bank = entries data bank ++ strings items
  checksum : leNat (slice written (bank.base + cksumOff) (bank.base + genOff)) =
    adler32 (slice written (bank.base + genOff) bank.stop)
  live : liveBank written = some bank
  length_eq : written.length = data.length
  room : entriesEnd data bank + (layOut 0 (strings items)).length ≤ bank.stop
  unchanged : ∀ i, i < entriesEnd data bank ∨
      entriesEnd data bank + (layOut 0 (strings items)).length ≤ i →
    i < bank.base + cksumOff ∨ bank.base + genOff ≤ i → written[i]? = data[i]?
  otherBank : ∀ b ∈ banks, b.1 ≠ bank.base →
    slice written b.1 (b.1 + b.2) = slice data b.1 (b.1 + b.2)

/-- The two banks there are. -/
theorem bank_cases {base length : Nat} (h : (base, length) ∈ banks) :
    (base = 0xA00000 ∧ length = 0x2000) ∨ (base = 0xA80000 ∧ length = 0x80000) := by
  simpa [banks] using h

/-- Where the parts of a bank lie. -/
theorem bank_layout (bank : Bank) :
    bank.start = bank.base + 0x18 ∧ bank.stop = bank.base + bank.length ∧
      genOff = 0x14 ∧ cksumOff = 0x10 :=
  ⟨rfl, rfl, rfl, rfl⟩

section Written

variable {data : List Byte} {bank : Bank}

/-- The entries end in the bank. -/
theorem entriesEnd_le (hlive : liveBank data = some bank) :
    bank.start ≤ entriesEnd data bank ∧ entriesEnd data bank ≤ bank.stop := by
  obtain ⟨hbank, hfits⟩ := liveBank_some hlive
  obtain ⟨rest, hbody, -⟩ := exists_layOut_append (0 : Byte) (slice data bank.start bank.stop)
  have hlen := congrArg List.length hbody
  rw [length_slice hfits, List.length_append] at hlen
  have hlayout := bank_layout bank
  have hbase := bank_cases hbank
  unfold entriesEnd entries
  omega

variable {appended : List Byte} {items : List Item}

/-- The appended strings are laid out behind the entries, in the bank. -/
theorem appended_eq (hlive : liveBank data = some bank)
    (hok : appendItems bank.stop data (lastEntryEnd data bank) items = .ok appended) :
    appended = patch data (entriesEnd data bank) (layOut 0 (strings items)) ∧
      entriesEnd data bank + (layOut 0 (strings items)).length ≤ bank.stop ∧
      ∀ s ∈ strings items, Proper 0 s := by
  have hfits := (liveBank_some hlive).2
  rw [lastEntryEnd_eq hfits] at hok
  exact appendItems_ok items hfits (entriesEnd_le hlive).2 hok

variable (hlive : liveBank data = some bank)
  (hroom : entriesEnd data bank + (layOut 0 (strings items)).length ≤ bank.stop)

include hlive hroom

/-- The strings and the checksum are patched into the image. -/
theorem patches_fit :
    entriesEnd data bank + (layOut 0 (strings items)).length ≤ data.length ∧
      ∀ value, bank.base + cksumOff + (toLe 4 value).length ≤
        (patch data (entriesEnd data bank) (layOut 0 (strings items))).length := by
  obtain ⟨hbank, hfits⟩ := liveBank_some hlive
  have hlaid := Nat.le_trans hroom hfits
  have hlayout := bank_layout bank
  have hbase := bank_cases hbank
  refine ⟨hlaid, fun value => ?_⟩
  rw [length_patch hlaid, toLe_length]
  omega

/-- The image the script writes. -/
theorem length_written :
    (fixChecksum (patch data (entriesEnd data bank) (layOut 0 (strings items))) bank).length =
      data.length := by
  obtain ⟨hlaid, hcksum⟩ := patches_fit hlive hroom
  rw [fixChecksum, length_patch (hcksum _), length_patch hlaid]

/-- A byte outside the appended strings and the checksum is unchanged. -/
theorem getElem?_written {i : Nat}
    (hstrings : i < entriesEnd data bank ∨
      entriesEnd data bank + (layOut 0 (strings items)).length ≤ i)
    (hsum : i < bank.base + cksumOff ∨ bank.base + genOff ≤ i) :
    (fixChecksum (patch data (entriesEnd data bank) (layOut 0 (strings items))) bank)[i]? =
      data[i]? := by
  obtain ⟨hlaid, hcksum⟩ := patches_fit hlive hroom
  have hlayout := bank_layout bank
  rw [fixChecksum, getElem?_patch (hcksum _), getElem?_patch hlaid, toLe_length,
    if_neg (by omega), if_neg (by omega)]

/-- So is every slice outside them. -/
theorem slice_written {start stop : Nat}
    (hstrings : stop ≤ entriesEnd data bank ∨
      entriesEnd data bank + (layOut 0 (strings items)).length ≤ start)
    (hsum : stop ≤ bank.base + cksumOff ∨ bank.base + genOff ≤ start) :
    slice (fixChecksum (patch data (entriesEnd data bank) (layOut 0 (strings items))) bank)
      start stop = slice data start stop := by
  obtain ⟨hlaid, hcksum⟩ := patches_fit hlive hroom
  have hlayout := bank_layout bank
  rw [fixChecksum, slice_patch_of_apart (hcksum _) (by rw [toLe_length]; omega),
    slice_patch_of_apart hlaid hstrings]

/-- The generations, and with them the choice of the live bank, are kept. -/
theorem liveBank_written :
    liveBank (fixChecksum (patch data (entriesEnd data bank) (layOut 0 (strings items))) bank) =
      some bank := by
  obtain ⟨hbank, hfits⟩ := liveBank_some hlive
  have hstart := (entriesEnd_le hlive).1
  have hlayout := bank_layout bank
  have hbase := bank_cases hbank
  rw [← hlive]
  refine liveBank_congr (length_written hlive hroom) fun b hb => ?_
  have hother : (b.1 = 0xA00000 ∧ b.2 = 0x2000) ∨ (b.1 = 0xA80000 ∧ b.2 = 0x80000) :=
    bank_cases hb
  unfold bankGeneration
  rw [slice_written hlive hroom (by omega) (by omega)]

/-- The list of the written bank: the old entries, the items, and whatever can be read
off the bytes behind them. -/
theorem entries_written (hproper : ∀ s ∈ strings items, Proper 0 s) :
    entries (fixChecksum (patch data (entriesEnd data bank) (layOut 0 (strings items))) bank) bank =
      entries data bank ++ strings items ++
        readStrings 0
          (slice data (entriesEnd data bank + (layOut 0 (strings items)).length) bank.stop) := by
  obtain ⟨hlaid, hcksum⟩ := patches_fit hlive hroom
  have hfits := (liveBank_some hlive).2
  have hstart := (entriesEnd_le hlive).1
  have hlayout := bank_layout bank
  obtain ⟨rest, hbody, -, hold⟩ := exists_layOut_append 0 (slice data bank.start bank.stop)
  -- the checksum lies before the list; the strings are patched into it
  have hslice : slice (fixChecksum
        (patch data (entriesEnd data bank) (layOut 0 (strings items))) bank) bank.start bank.stop =
      patch (slice data bank.start bank.stop) (layOut 0 (entries data bank)).length
        (layOut 0 (strings items)) := by
    rw [fixChecksum, slice_patch_of_apart (hcksum _) (by rw [toLe_length]; omega),
      slice_patch_of_within hlaid hstart hroom hfits, entriesEnd, Nat.add_sub_cancel_left]
  have hdrop : (slice data bank.start bank.stop).drop
        ((layOut 0 (entries data bank)).length + (layOut 0 (strings items)).length) =
      slice data (entriesEnd data bank + (layOut 0 (strings items)).length) bank.stop := by
    rw [slice, slice, List.drop_drop, entriesEnd, Nat.add_assoc]
  have htake : (slice data bank.start bank.stop).take (layOut 0 (entries data bank)).length =
      layOut 0 (entries data bank) := by
    conv_lhs => rw [hbody]
    exact List.take_left
  have hread : ∀ tail, readStrings 0 (layOut 0 (entries data bank) ++ tail) =
      entries data bank ++ readStrings 0 tail := readStrings_layOut_append hold
  rw [entries, hslice, patch, hdrop, htake, List.append_assoc, hread,
    readStrings_layOut_append hproper, List.append_assoc]

end Written

/-- **The written image is the promised one exactly when nothing behind the appended
strings reads as an entry.** -/
theorem appended_iff {data appended : List Byte} {bank : Bank} {items : List Item}
    (hlive : liveBank data = some bank)
    (hok : appendItems bank.stop data (lastEntryEnd data bank) items = .ok appended) :
    Appended data (fixChecksum appended bank) bank items ↔ NothingBehind data bank items := by
  obtain ⟨rfl, hroom, hproper⟩ := appended_eq hlive hok
  have hentries := entries_written hlive hroom hproper
  constructor
  · intro h
    have heq := hentries.symm.trans h.entries_eq
    exact exhausted_of_readStrings (List.append_right_eq_self.1 heq)
  · intro h
    refine
      { entries_eq := by rw [hentries, readStrings_of_exhausted h, List.append_nil]
        checksum := checksum_fixChecksum ?_
        live := liveBank_written hlive hroom
        length_eq := length_written hlive hroom
        room := hroom
        unchanged := fun i hstrings hsum => getElem?_written hlive hroom hstrings hsum
        otherBank := fun b hb hne => ?_ }
    · obtain ⟨hlaid, hcksum⟩ := patches_fit hlive hroom
      have h := hcksum 0
      rwa [toLe_length] at h
    · have hstart := (entriesEnd_le hlive).1
      have hlayout := bank_layout bank
      have hbase := bank_cases (liveBank_some hlive).1
      have hother : (b.1 = 0xA00000 ∧ b.2 = 0x2000) ∨ (b.1 = 0xA80000 ∧ b.2 = 0x80000) :=
        bank_cases hb
      exact slice_written hlive hroom (by omega) (by omega)

/-- A run of the script either leaves every file as it was, or writes one file.  The
image it writes is the promised one exactly when nothing behind the appended strings
reads as an entry. -/
theorem main_appends_iff (files : Files) (args : Args) :
    match main files args with
    | (.exited _, after) => after = files
    | (.shown _, after) => after = files
    | (.wrote path, after) => ∃ data bank written,
        files.read args.aux = some data ∧ liveBank data = some bank ∧
        after = files.write path written ∧
        (Appended data written bank args.set ↔ NothingBehind data bank args.set) := by
  unfold main
  cases hdata : files.read args.aux with
  | none => rfl
  | some data =>
    dsimp only
    cases hlive : liveBank data with
    | none => rfl
    | some bank =>
      dsimp only
      by_cases hlist : args.listOnly = true
      · rw [if_pos hlist]
      · by_cases hempty : args.set.isEmpty = true
        · rw [if_neg hlist, if_pos hempty]
        · rw [if_neg hlist, if_neg hempty]
          cases hok : appendItems bank.stop data (lastEntryEnd data bank) args.set with
          | error e => rfl
          | ok appended =>
            have hiff := appended_iff hlive hok
            dsimp only
            cases args.out.filter (· ≠ "") with
            | none => exact ⟨data, bank, _, rfl, hlive, rfl, hiff⟩
            | some out =>
              dsimp only
              by_cases hsame : files.file out = files.file args.aux
              · rw [if_pos hsame]
              · rw [if_neg hsame]
                exact ⟨data, bank, _, rfl, hlive, rfl, hiff⟩

/-- A run in place that gets as far as writing. -/
theorem main_of_ok {files : Files} {aux : String} {items : List Item} {data appended : List Byte}
    {bank : Bank} (hdata : files.read aux = some data) (hlive : liveBank data = some bank)
    (hitems : items ≠ [])
    (hok : appendItems bank.stop data (lastEntryEnd data bank) items = .ok appended) :
    main files { aux := aux, out := none, set := items, listOnly := false } =
      (.wrote aux, files.write aux (fixChecksum appended bank)) := by
  have hset : items.isEmpty = false := by simpa using hitems
  simp [main, hdata, hlive, hset, hok]

/-! ## Leftovers -/

/-- An image with the first bank only, whose list is empty, with the end of an older list
behind the terminator. -/
def leftoverImage : List Byte :=
  List.replicate (0xA00000 + 0x18) 0 ++ ([0, 0x78, 0x79, 0x7a, 0x77, 0] ++
    List.replicate (0x2000 - 0x18 - 6) 0)

/-- Its bank. -/
def firstBank : Bank := ⟨0xA00000, 0x2000, 0⟩

/-- `a=b`. -/
def shortItem : Item := ⟨[0x61, 0x3d, 0x62], by decide⟩

/-- `prepare-aux.py nvram.bin --set a=b`. -/
def appendShort : Args :=
  { aux := "nvram.bin", out := none, set := [shortItem], listOnly := false }

/-- A directory with that image in it. -/
def leftoverFiles : Files where
  file := fun path => if path = "nvram.bin" then 0 else 1
  content := fun file => if file = 0 then some leftoverImage else none

theorem firstBank_layout : firstBank.start = 0xA00018 ∧ firstBank.stop = 0xA02000 := by
  simp [firstBank, Bank.start, Bank.stop, genOff]

theorem length_leftoverImage : leftoverImage.length = 0xA02000 := by
  simp only [leftoverImage, List.length_append, List.length_replicate, List.length_cons,
    List.length_nil]

theorem liveBank_leftoverImage : liveBank leftoverImage = some firstBank := by
  have hgen : bankGeneration leftoverImage 0xA00000 = 0 := by
    unfold bankGeneration leftoverImage slice
    rw [List.take_append_of_le_length (by rw [List.length_replicate]; decide),
      List.take_replicate, List.drop_replicate]
    decide
  unfold liveBank banks
  simp only [List.foldl_cons, List.foldl_nil, betterBank, length_leftoverImage, hgen]
  decide

/-- The list of its bank: a terminator, then leftovers. -/
theorem slice_leftoverImage :
    slice leftoverImage firstBank.start firstBank.stop =
      [0, 0x78, 0x79, 0x7a, 0x77, 0] ++ List.replicate (0x2000 - 0x18 - 6) 0 := by
  rw [firstBank_layout.1, firstBank_layout.2, slice,
    List.take_of_length_le (Nat.le_of_eq length_leftoverImage), leftoverImage]
  exact List.drop_left' (by rw [List.length_replicate])

theorem entries_leftoverImage : entries leftoverImage firstBank = [] := by
  rw [entries, slice_leftoverImage]
  exact readStrings_of_exhausted (.inr (.inl rfl))

/-- Behind the four bytes of `a=b` and its NUL, one leftover string is left. -/
theorem readStrings_leftoverImage :
    readStrings 0 (slice leftoverImage (firstBank.start + 4) firstBank.stop) = [[0x77]] := by
  have hdrop : slice leftoverImage (firstBank.start + 4) firstBank.stop =
      [0x77] ++ 0 :: List.replicate (0x2000 - 0x18 - 6) 0 := by
    rw [slice, ← List.drop_drop, ← slice, slice_leftoverImage]
    rfl
  rw [hdrop, readStrings_cons ⟨by decide, by decide⟩, readStrings_of_exhausted]
  refine .inr (.inl ?_)
  rw [List.head?_replicate]
  decide

theorem layOut_shortItem : layOut 0 (strings [shortItem]) = shortItem.bytes ++ [0] := rfl

theorem shortItem_room :
    entriesEnd leftoverImage firstBank = firstBank.start ∧
      entriesEnd leftoverImage firstBank + (layOut 0 (strings [shortItem])).length ≤
        firstBank.stop := by
  have hend : entriesEnd leftoverImage firstBank = firstBank.start := by
    rw [entriesEnd, entries_leftoverImage, layOut_nil, List.length_nil, Nat.add_zero]
  refine ⟨hend, ?_⟩
  rw [hend, layOut_shortItem, firstBank_layout.1, firstBank_layout.2]
  decide

theorem appendItems_leftoverImage :
    appendItems firstBank.stop leftoverImage (lastEntryEnd leftoverImage firstBank) [shortItem] =
      .ok (patch leftoverImage (entriesEnd leftoverImage firstBank)
        (layOut 0 (strings [shortItem]))) := by
  have hroom := shortItem_room.2
  have hfits : firstBank.stop ≤ leftoverImage.length := by
    rw [firstBank_layout.2, length_leftoverImage]
  rw [layOut_shortItem] at hroom ⊢
  rw [lastEntryEnd_eq hfits, appendItems, if_neg (by decide)]
  dsimp only
  rw [if_neg (Nat.not_lt.2 hroom), appendItems]

/-- Appending `a=b` brings the leftover `w` to life. -/
theorem main_revives_leftovers :
    ∃ written, main leftoverFiles appendShort =
        (.wrote "nvram.bin", leftoverFiles.write "nvram.bin" written) ∧
      liveBank leftoverImage = some firstBank ∧ entries leftoverImage firstBank = [] ∧
      entries written firstBank = [[0x61, 0x3d, 0x62], [0x77]] := by
  refine ⟨fixChecksum (patch leftoverImage (entriesEnd leftoverImage firstBank)
    (layOut 0 (strings [shortItem]))) firstBank, ?_, liveBank_leftoverImage,
    entries_leftoverImage, ?_⟩
  · exact main_of_ok rfl liveBank_leftoverImage (List.cons_ne_nil _ _) appendItems_leftoverImage
  · have hproper : ∀ s ∈ strings [shortItem], Proper 0 s := by
      intro s hs
      obtain rfl : s = shortItem.bytes := by simpa [strings] using hs
      exact ⟨by decide, shortItem.nulFree⟩
    have hleft : readStrings 0 (slice leftoverImage (entriesEnd leftoverImage firstBank +
        (layOut 0 (strings [shortItem])).length) firstBank.stop) = [[0x77]] := by
      rw [shortItem_room.1, layOut_shortItem]
      exact readStrings_leftoverImage
    rw [entries_written liveBank_leftoverImage shortItem_room.2 hproper, entries_leftoverImage,
      hleft]
    decide

end Orchard.Nvram
