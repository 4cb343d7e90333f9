import Mathlib.Data.List.Basic
import Mathlib.Data.BitVec

set_option autoImplicit false

/-!
# Bytes, little-endian words and framed streams

A device sees its peers as bytes: words in little-endian order, and streams cut
into frames by a 32-bit length in front of each.  The framing half is about a
stream of which only a prefix has arrived: whatever has been taken off it frame by
frame is a prefix of the frames that were put in, and the next length word is the
length of the next frame.
-/

namespace Orchard.Foundation

/-- An octet. -/
abbrev Byte := BitVec 8

/-! ## Little-endian words -/

/-- The value of a little-endian word. -/
def leNat : List Byte → Nat
  | [] => 0
  | b :: rest => b.toNat + 256 * leNat rest

/-- The low `count` bytes of a number, least significant first. -/
def toLe : Nat → Nat → List Byte
  | 0, _ => []
  | count + 1, value => BitVec.ofNat 8 value :: toLe count (value / 256)

@[simp] theorem toLe_length (count value : Nat) : (toLe count value).length = count := by
  induction count generalizing value with
  | zero => rfl
  | succ count ih => simp [toLe, ih]

theorem leNat_toLe {count value : Nat} (h : value < 256 ^ count) :
    leNat (toLe count value) = value := by
  induction count generalizing value with
  | zero =>
    have hzero : value = 0 := by simpa using h
    simp [toLe, leNat, hzero]
  | succ count ih =>
    have hdiv : value / 256 < 256 ^ count := by
      rw [Nat.pow_succ] at h
      omega
    rw [toLe, leNat, ih hdiv, BitVec.toNat_ofNat]
    omega

/-- The bytes of a word are determined by its value. -/
theorem toLe_leNat (bytes : List Byte) : toLe bytes.length (leNat bytes) = bytes := by
  induction bytes with
  | nil => rfl
  | cons b rest ih =>
    have hb := b.isLt
    have hlow : BitVec.ofNat 8 (b.toNat + 256 * leNat rest) = b := by
      apply BitVec.eq_of_toNat_eq
      rw [BitVec.toNat_ofNat]
      omega
    have hhigh : (b.toNat + 256 * leNat rest) / 256 = leNat rest := by omega
    rw [List.length_cons, leNat, toLe, hlow, hhigh, ih]

theorem leNat_lt (bytes : List Byte) : leNat bytes < 256 ^ bytes.length := by
  induction bytes with
  | nil => exact Nat.one_pos
  | cons b rest ih =>
    have hb := b.isLt
    rw [leNat, List.length_cons, Nat.pow_succ]
    omega

theorem toLe_add (low high value : Nat) :
    toLe (low + high) value = toLe low value ++ toLe high (value / 256 ^ low) := by
  induction low generalizing value with
  | zero => simp [toLe]
  | succ low ih =>
    rw [Nat.succ_add, toLe, toLe, ih, List.cons_append, Nat.div_div_eq_div_mul, Nat.pow_succ']

/-- The bytes with others stored over them from an offset on. -/
def patch (image : List Byte) (off : Nat) (bytes : List Byte) : List Byte :=
  image.take off ++ bytes ++ image.drop (off + bytes.length)

/-- The bytes from `start` up to `stop`. -/
def slice (image : List Byte) (start stop : Nat) : List Byte := (image.take stop).drop start

theorem getElem?_slice (image : List Byte) (start stop i : Nat) :
    (slice image start stop)[i]? = if start + i < stop then image[start + i]? else none := by
  rw [slice, List.getElem?_drop, List.getElem?_take]

theorem length_slice {image : List Byte} {start stop : Nat} (h : stop ≤ image.length) :
    (slice image start stop).length = stop - start := by
  rw [slice, List.length_drop, List.length_take, Nat.min_eq_left h]

theorem slice_eq_take_drop (image : List Byte) (start n : Nat) :
    slice image start (start + n) = (image.drop start).take n := by
  rw [slice, List.drop_take, Nat.add_sub_cancel_left]

/-- A byte of a slice that is known. -/
theorem getElem?_of_slice_eq {image bytes : List Byte} {start stop : Nat}
    (h : slice image start stop = bytes) {i : Nat} (hi : start + i < stop) :
    image[start + i]? = bytes[i]? := by
  rw [← h, getElem?_slice, if_pos hi]

/-- Slices agree where the bytes do. -/
theorem slice_congr {image other : List Byte} {start stop : Nat}
    (h : ∀ i, start ≤ i → i < stop → image[i]? = other[i]?) :
    slice image start stop = slice other start stop := by
  refine List.ext_getElem? fun i => ?_
  rw [getElem?_slice, getElem?_slice]
  split
  · exact h (start + i) (Nat.le_add_right start i) ‹_›
  · rfl

section Patch

variable {image bytes : List Byte} {off : Nat} (hroom : off + bytes.length ≤ image.length)

include hroom

theorem length_patch : (patch image off bytes).length = image.length := by
  simp only [patch, List.length_append, List.length_take, List.length_drop]
  omega

/-- A patch is found in its range, and only there. -/
theorem getElem?_patch (i : Nat) :
    (patch image off bytes)[i]? =
      if off ≤ i ∧ i < off + bytes.length then bytes[i - off]? else image[i]? := by
  have htake : (image.take off).length = off := by
    rw [List.length_take]
    omega
  rw [patch, List.append_assoc]
  by_cases hfront : i < off
  · rw [if_neg (by omega), List.getElem?_append_left (by omega), List.getElem?_take_of_lt hfront]
  · rw [List.getElem?_append_right (by omega), htake]
    by_cases hin : i < off + bytes.length
    · rw [if_pos ⟨by omega, hin⟩, List.getElem?_append_left (by omega)]
    · rw [if_neg (by omega), List.getElem?_append_right (by omega), List.getElem?_drop]
      congr 1
      omega

/-- A slice apart from the patch is as it was. -/
theorem slice_patch_of_apart {start stop : Nat}
    (happart : stop ≤ off ∨ off + bytes.length ≤ start) :
    slice (patch image off bytes) start stop = slice image start stop := by
  refine List.ext_getElem? fun i => ?_
  rw [getElem?_slice, getElem?_slice, getElem?_patch hroom]
  split
  · rw [if_neg (by omega)]
  · rfl

/-- A slice around the patch is patched. -/
theorem slice_patch_of_within {start stop : Nat} (hstart : start ≤ off)
    (hstop : off + bytes.length ≤ stop) (hlen : stop ≤ image.length) :
    slice (patch image off bytes) start stop =
      patch (slice image start stop) (off - start) bytes := by
  have hslice : off - start + bytes.length ≤ (slice image start stop).length := by
    rw [length_slice hlen]
    omega
  refine List.ext_getElem? fun i => ?_
  rw [getElem?_patch hslice, getElem?_slice, getElem?_slice, getElem?_patch hroom]
  by_cases hin : off ≤ start + i ∧ start + i < off + bytes.length
  · rw [if_pos hin, if_pos (by omega), if_pos (by omega)]
    congr 1
    omega
  · have hin' : ¬(off - start ≤ i ∧ i < off - start + bytes.length) := by omega
    rw [if_neg hin, if_neg hin']

/-- A slice that is the patch's range holds the patch. -/
theorem slice_patch_self : slice (patch image off bytes) off (off + bytes.length) = bytes := by
  refine List.ext_getElem? fun i => ?_
  rw [getElem?_slice, getElem?_patch hroom]
  by_cases hi : i < bytes.length
  · rw [if_pos (by omega), if_pos (by omega), Nat.add_sub_cancel_left]
  · rw [if_neg (by omega), List.getElem?_eq_none (by omega)]

end Patch

/-- Patching right behind a patch extends it. -/
theorem patch_patch {image front back : List Byte} {off : Nat}
    (hroom : off + (front ++ back).length ≤ image.length) :
    patch (patch image off front) (off + front.length) back = patch image off (front ++ back) := by
  have hlen : (front ++ back).length = front.length + back.length := List.length_append
  have hfront : off + front.length ≤ image.length := by omega
  have hback : off + front.length + back.length ≤ (patch image off front).length := by
    rw [length_patch hfront]
    omega
  refine List.ext_getElem? fun i => ?_
  rw [getElem?_patch hback, getElem?_patch hfront, getElem?_patch hroom, List.getElem?_append]
  rcases Nat.lt_or_ge i off with hlt | hge
  · rw [if_neg (by omega), if_neg (by omega), if_neg (by omega)]
  · by_cases hin : i < off + front.length
    · rw [if_neg (by omega), if_pos ⟨hge, hin⟩, if_pos (by omega), if_pos (by omega)]
    · by_cases hnext : i < off + front.length + back.length
      · rw [if_pos (by omega), if_pos (by omega), if_neg (by omega), Nat.sub_sub]
      · rw [if_neg (by omega), if_neg (by omega), if_neg (by omega)]

/-! ## Frames -/

/-- One frame on the wire: a 32-bit length and the payload. -/
def encodeFrame (payload : List Byte) : List Byte := toLe 4 payload.length ++ payload

/-- A stream of frames. -/
def encodeFrames (frames : List (List Byte)) : List Byte := frames.flatMap encodeFrame

@[simp] theorem encodeFrames_nil : encodeFrames [] = [] := rfl

@[simp] theorem encodeFrames_cons (f : List Byte) (rest : List (List Byte)) :
    encodeFrames (f :: rest) = encodeFrame f ++ encodeFrames rest := rfl

theorem encodeFrames_append (front back : List (List Byte)) :
    encodeFrames (front ++ back) = encodeFrames front ++ encodeFrames back :=
  List.flatMap_append

/-- Payloads whose length fits the length word. -/
def Framable (frames : List (List Byte)) : Prop := ∀ f ∈ frames, f.length < 256 ^ 4

/-- What can be read off the front of a stream that begins with a frame. -/
theorem head_of_encodeFrame {f tail input : List Byte} (hf : f.length < 256 ^ 4)
    (h : input <+: encodeFrame f ++ tail) (hword : 4 ≤ input.length) :
    leNat (input.take 4) = f.length ∧
      (4 + f.length ≤ input.length →
        (input.drop 4).take f.length = f ∧
        input = encodeFrame f ++ input.drop (4 + f.length) ∧
        input.drop (4 + f.length) <+: tail) := by
  obtain ⟨rest, hrest⟩ := h
  have hlength : (encodeFrame f).length = 4 + f.length := by simp [encodeFrame]
  have htake : input.take 4 = toLe 4 f.length := by
    have hcut := congrArg (List.take 4) hrest
    rw [List.take_append_of_le_length hword, encodeFrame, List.append_assoc] at hcut
    exact hcut.trans (List.take_left' (by simp))
  refine ⟨by rw [htake, leNat_toLe hf], ?_⟩
  intro hwhole
  have hframe : input.take (4 + f.length) = encodeFrame f := by
    have hcut := congrArg (List.take (4 + f.length)) hrest
    rw [List.take_append_of_le_length hwhole] at hcut
    exact hcut.trans (List.take_left' hlength)
  have hpayload : (input.drop 4).take f.length = f := by
    have hcut := congrArg (List.drop 4) hframe
    rw [List.drop_take, Nat.add_sub_cancel_left, encodeFrame] at hcut
    exact hcut.trans (List.drop_left' (by simp))
  have hdrop : input.drop (4 + f.length) ++ rest = tail := by
    have hcut := congrArg (List.drop (4 + f.length)) hrest
    rw [List.drop_append_of_le_length hwhole] at hcut
    exact hcut.trans (List.drop_left' hlength)
  have hcut : input = encodeFrame f ++ input.drop (4 + f.length) := by
    rw [← hframe, List.take_append_drop]
  exact ⟨hpayload, hcut, ⟨rest, hdrop⟩⟩

/-- **Frames taken off a stream are its first frames.**  If the frames `taken` and
then `input` have arrived of the stream of `frames`, then `taken` is a prefix of
`frames` and `input` begins the stream of the others. -/
theorem frames_of_prefix :
    ∀ {taken frames : List (List Byte)} {input : List Byte}, Framable taken →
      Framable frames → encodeFrames taken ++ input <+: encodeFrames frames →
      ∃ rest, frames = taken ++ rest ∧ input <+: encodeFrames rest := by
  intro taken
  induction taken with
  | nil =>
    intro frames input _ _ h
    exact ⟨frames, rfl, by simpa using h⟩
  | cons d more ih =>
    intro frames input htaken hframes h
    have hd : d.length < 256 ^ 4 := htaken d List.mem_cons_self
    have hmore : Framable more := fun f hf => htaken f (List.mem_cons_of_mem _ hf)
    cases frames with
    | nil =>
      have hlen := h.length_le
      simp [encodeFrame] at hlen
    | cons f others =>
      have hf : f.length < 256 ^ 4 := hframes f List.mem_cons_self
      have hothers : Framable others := fun g hg => hframes g (List.mem_cons_of_mem _ hg)
      rw [encodeFrames_cons, encodeFrames_cons, List.append_assoc] at h
      obtain ⟨hlen, hbody⟩ := head_of_encodeFrame hf h (by simp [encodeFrame])
      have hself := head_of_encodeFrame hd
        (List.prefix_refl (encodeFrame d ++ (encodeFrames more ++ input)))
        (by simp [encodeFrame])
      have hsame : f.length = d.length := hlen.symm.trans hself.1
      rw [hsame] at hbody
      obtain ⟨hpayload, _, htail⟩ := hbody (by simp [encodeFrame])
      obtain ⟨hpayload', _⟩ := hself.2 (by simp [encodeFrame])
      have hfd : f = d := hpayload.symm.trans hpayload'
      subst hfd
      rw [List.drop_left' (by simp [encodeFrame])] at htail
      obtain ⟨rest, hrest, hinput⟩ := ih hmore hothers htail
      exact ⟨rest, by rw [hrest]; rfl, hinput⟩

end Orchard.Foundation
