/-
  Fetch/Resume.lean --- when a resumed fetch leaves the right disk.

  The state file lists chunks by index and a part file is trusted by its length, so what a
  run finds is right only if the runs before it worked for the same layers.  If they did,
  every directory a history of runs can leave behind is one a further run may trust, or
  one in which a wrong part file makes every further run fail.
-/
import Orchard.Fetch.Chunks

set_option autoImplicit false

namespace Orchard.Fetch

open Orchard.Foundation

/-! ## From run to run -/

section Directories

variable {δ : Type} {lz4 : List Byte → Nat → List Byte → Option (List Byte)}
  {blobs : δ → List Byte} {layers own : List (Layer δ)}

/-- A run starts with the length of its manifest and the bytes it finds below that. -/
theorem disk_startRun (own : List (Layer δ)) (dir : Dir) :
    (startRun own dir).disk.size = own.length * chunkSpan ∧
      ∀ p, (startRun own dir).disk.byte p =
        if p < own.length * chunkSpan then (dir.disk.getD .empty).byte p else 0 := by
  simp only [startRun]
  split
  · exact ⟨rfl, fun _ => rfl⟩
  · rename_i hsize
    rw [not_not] at hsize
    refine ⟨hsize, fun p => ?_⟩
    split
    · rfl
    · exact (dir.disk.getD .empty).past p (by omega)

/-- What a run takes on trust is right: below `known` a listed chunk holds its layer, no
other chunk of the manifest is listed, and every chunk is loose. -/
structure TrustsRightly (lz4 : List Byte → Nat → List Byte → Option (List Byte))
    (blobs : δ → List Byte) (layers : List (Layer δ)) (known : Nat) (dir : Dir) : Prop where
  within : ∀ i ∈ dir.completed.getD [], i < layers.length → i < known
  loose : ∀ i layer c, layers[i]? = some layer → contentOf lz4 blobs layer = some c →
    Loose c i (dir.disk.getD .empty)
  listed : ∀ i layer c, layers[i]? = some layer → contentOf lz4 blobs layer = some c →
    i ∈ dir.completed.getD [] → HoldsUpTo c i chunkSpan (dir.disk.getD .empty)

/-- The directory has a part file that keeps every run from succeeding. -/
def Poisoned (lz4 : List Byte → Nat → List Byte → Option (List Byte)) (blobs : δ → List Byte)
    (layers : List (Layer δ)) (dir : Dir) : Prop :=
  ∃ i layer data, layers[i]? = some layer ∧ dir.parts i = some data ∧
    layer.size ≤ data.length ∧ plainOf lz4 [] data ≠ contentOf lz4 blobs layer ∧
    i ∉ dir.completed.getD []

/-- A run is clean or one of its chunks is spoiled. -/
def CleanOrSpoiled (lz4 : List Byte → Nat → List Byte → Option (List Byte))
    (blobs : δ → List Byte) (layers own : List (Layer δ)) (s : Progress) : Prop :=
  Clean lz4 blobs layers own s ∨ ∃ i layer data, Spoiled lz4 blobs layers own s i layer data

theorem clean_startRun {known : Nat} {dir : Dir}
    (h : TrustsRightly lz4 blobs layers known dir) (hknown : known ≤ own.length) :
    Clean lz4 blobs layers own (startRun own dir) := by
  obtain ⟨hsize, hbyte⟩ := disk_startRun own dir
  have hworker : ∀ i, (startRun own dir).workers i = .idle ∨
      (startRun own dir).workers i = .downloading 0 := by
    intro i
    simp only [startRun]
    split
    · exact .inr rfl
    · exact .inl rfl
  -- a chunk below the new end keeps its bytes
  have hkeep : ∀ i < own.length, ∀ k < chunkSpan,
      (startRun own dir).disk.byte (i * chunkSpan + k) =
        (dir.disk.getD .empty).byte (i * chunkSpan + k) := by
    intro i hi k hk
    have hspan : (i + 1) * chunkSpan ≤ own.length * chunkSpan := Nat.mul_le_mul_right _ hi
    rw [Nat.add_mul] at hspan
    rw [hbyte, if_pos (by omega)]
  refine ⟨?_, fun _ => Nat.le_of_eq hsize, fun i hi hlt => ?_, fun i hi => hi,
    fun i hlt hidle => ?_, fun i hi => .inl ?_, fun i layer c hlayer hcontent => ?_⟩
  · rw [hsize]
    exact Nat.mul_le_mul_right _ (Nat.min_le_left _ _)
  · exact Nat.lt_of_lt_of_le (h.within i hi hlt) hknown
  · by_contra hout
    simp only [startRun] at hidle hout
    rw [if_pos ⟨hlt, hout⟩] at hidle
    cases hidle
  · simp only [startRun] at hi ⊢
    rw [if_neg fun hactive => hactive.2 hi]
  · have hlt := (List.getElem?_eq_some_iff.mp hlayer).1
    have hloose := h.loose i layer c hlayer hcontent
    refine ⟨fun k hk => ?_, fun k hk hreached => ?_, fun hi => ?_, ?_⟩
    · rw [hbyte]
      split
      · exact hloose k hk
      · exact .inl rfl
    · rcases hworker i with hw | hw <;> rw [hw] at hreached <;>
        exact absurd hreached (Nat.not_lt_zero _)
    · have hin := Nat.lt_of_lt_of_le (h.within i hi hlt) hknown
      exact (h.listed i layer c hlayer hcontent hi).congr (hkeep i hin)
    · rcases hworker i with hw | hw <;> rw [hw] <;> trivial

theorem spoiled_startRun {dir : Dir} (h : Poisoned lz4 blobs layers dir) :
    ∃ i layer data, Spoiled lz4 blobs layers own (startRun own dir) i layer data := by
  obtain ⟨i, layer, data, hlayer, hpart, hlong, hwrong, hout⟩ := h
  refine ⟨i, layer, data, hlayer, hpart, hlong, hwrong, hout, hout, ?_⟩
  simp only [startRun]
  split
  · trivial
  · rename_i hidle
    by_contra hlt
    exact hidle ⟨Nat.not_le.mp hlt, hout⟩

/-- What a run that stops here leaves behind can be trusted, or is poisoned. -/
theorem CleanOrSpoiled.dir {s : Progress} (h : CleanOrSpoiled lz4 blobs layers own s) :
    TrustsRightly lz4 blobs layers (min own.length layers.length) s.dir ∨
      Poisoned lz4 blobs layers s.dir := by
  rcases h with h | ⟨i, layer, data, h⟩
  · refine .inl ⟨fun i hi hlt => ?_, fun i layer c hlayer hcontent => ?_,
      fun i layer c hlayer hcontent hi => ?_⟩
    · exact Nat.lt_min.mpr ⟨h.within i (h.listed i hi) hlt, hlt⟩
    · exact (h.chunk i layer c hlayer hcontent).loose
    · exact (h.chunk i layer c hlayer hcontent).listed (h.listed i hi)
  · exact .inr ⟨i, layer, data, h.layer_eq, h.part, h.long, h.wrong, h.unlisted⟩

/-- Layers that are a front of the manifest are its layers. -/
theorem getElem?_of_front (h : own.take layers.length <+: layers) :
    ∀ i < own.length, i < layers.length → own[i]? = layers[i]? := by
  intro i hown hlt
  obtain ⟨rest, hrest⟩ := h
  have hin : i < (own.take layers.length).length := by
    rw [List.length_take]
    omega
  rw [← hrest, List.getElem?_append_left hin, List.getElem?_take_of_lt hlt]

/-- Every worker of a run that ends without an exception returned. -/
theorem returned_of_succeeded {s : Progress} (h : Succeeded layers s) {i : Nat}
    (hi : i < layers.length) :
    s.workers i = .idle ∨ ∃ plains, s.workers i = .finished plains := by
  have hreturned := h i hi
  cases hworker : s.workers i with
  | idle => exact .inl rfl
  | finished plains => exact .inr ⟨plains, rfl⟩
  | downloading n => rw [hworker] at hreturned; exact hreturned.elim
  | writing plains data => rw [hworker] at hreturned; exact hreturned.elim
  | checked plains => rw [hworker] at hreturned; exact hreturned.elim
  | removed plains => rw [hworker] at hreturned; exact hreturned.elim
  | failed plains => rw [hworker] at hreturned; exact hreturned.elim

/-- A clean run that ends without an exception has left the image. -/
theorem holdsImage_of_succeeded {s : Progress} (h : Clean lz4 blobs layers layers s)
    (hdone : Succeeded layers s) : HoldsImage lz4 blobs layers s.disk := by
  have hleast := h.least
  rw [Nat.min_self] at hleast
  refine ⟨Nat.le_antisymm (h.most (Nat.le_refl _)) hleast, fun i layer c hlayer hcontent k hk => ?_⟩
  have hlt := (List.getElem?_eq_some_iff.mp hlayer).1
  have hchunk := h.chunk i layer c hlayer hcontent
  rcases returned_of_succeeded hdone hlt with hidle | ⟨plains, hfinished⟩
  · exact hchunk.listed (h.idle i hlt hidle) k hk hk
  · have hholds := hchunk.holds
    rw [hfinished] at hholds
    exact hholds k hk hk

/-- A run with a spoiled chunk of its own manifest does not end well. -/
theorem not_succeeded_of_spoiled {s : Progress} {i : Nat} {layer : Layer δ} {data : List Byte}
    (h : Spoiled lz4 blobs layers layers s i layer data) : ¬Succeeded layers s := by
  intro hdone
  have hlt := (List.getElem?_eq_some_iff.mp h.layer_eq).1
  have hstuck := h.stuck
  rcases returned_of_succeeded hdone hlt with hidle | ⟨plains, hfinished⟩
  · rw [hidle] at hstuck
    exact Nat.not_le.mpr hlt hstuck
  · rw [hfinished] at hstuck
    exact hstuck

/-- A directory nothing has been fetched into. -/
def emptyDir : Dir := { disk := none, completed := none, parts := fun _ => none }

theorem trustsRightly_emptyDir : TrustsRightly lz4 blobs layers 0 emptyDir :=
  ⟨fun _ hi => absurd hi List.not_mem_nil, fun _ _ _ _ _ _ _ => .inl rfl,
    fun _ _ _ _ _ hi => absurd hi List.not_mem_nil⟩

end Directories

/-! ## Histories -/

section Histories

variable {δ : Type} [DecidableEq δ]

/-- One run: its manifest, and the steps it took before it ended or was killed. -/
structure FetchRun (δ : Type) where
  layers : List (Layer δ)
  turns : List Turn

/-- The state a run reaches. -/
def FetchRun.reaches (lz4 : List Byte → Nat → List Byte → Option (List Byte))
    (sha256 : List Byte → δ) (r : FetchRun δ) (dir : Dir) : Progress :=
  run (step lz4 sha256 r.layers) (startRun r.layers dir) r.turns

/-- The directory after some runs. -/
def afterRuns (lz4 : List Byte → Nat → List Byte → Option (List Byte)) (sha256 : List Byte → δ)
    (history : List (FetchRun δ)) (dir : Dir) : Dir :=
  run (fun d r => (r.reaches lz4 sha256 d).dir) dir history

/-- Every step of every run meets the condition. -/
def AllProper (lz4 : List Byte → Nat → List Byte → Option (List Byte)) (sha256 : List Byte → δ)
    (blobs : δ → List Byte) (layers : List (Layer δ)) (dir : Dir) (runs : List (FetchRun δ)) :
    Prop :=
  Guarded (fun d r => (FetchRun.reaches lz4 sha256 r d).dir)
    (fun d r => Guarded (step lz4 sha256 r.layers) (Proper lz4 sha256 blobs layers)
      (startRun r.layers d) r.turns) dir runs

instance (lz4 : List Byte → Nat → List Byte → Option (List Byte)) (sha256 : List Byte → δ)
    (blobs : δ → List Byte) (layers : List (Layer δ)) (dir : Dir) (runs : List (FetchRun δ)) :
    Decidable (AllProper lz4 sha256 blobs layers dir runs) := by
  unfold AllProper
  infer_instance

/-- The manifests of the runs agree with each other as far as the last one goes: none
replaces or drops a layer that one before it had. -/
def Steady (history : List (FetchRun δ)) (layers : List (Layer δ)) : Prop :=
  (history.map FetchRun.layers ++ [layers]).Pairwise fun earlier later =>
    earlier.take layers.length <+: later

instance (history : List (FetchRun δ)) (layers : List (Layer δ)) :
    Decidable (Steady history layers) := by
  unfold Steady
  infer_instance

variable {lz4 : List Byte → Nat → List Byte → Option (List Byte)} {sha256 : List Byte → δ}
  {blobs : δ → List Byte} {layers own : List (Layer δ)}

/-- A whole run. -/
theorem cleanOrSpoiled_run (hpub : Published lz4 sha256 blobs layers)
    (hsame : ∀ i < own.length, i < layers.length → own[i]? = layers[i]?) {known : Nat}
    (hknown : known ≤ own.length) {dir : Dir} {turns : List Turn}
    (h : TrustsRightly lz4 blobs layers known dir ∨ Poisoned lz4 blobs layers dir)
    (hproper : Guarded (step lz4 sha256 own) (Proper lz4 sha256 blobs layers)
      (startRun own dir) turns) :
    CleanOrSpoiled lz4 blobs layers own (run (step lz4 sha256 own) (startRun own dir) turns) := by
  refine run_invariant (P := CleanOrSpoiled lz4 blobs layers own) (fun s t hok hs => ?_) hproper
    (h.imp (fun h => clean_startRun h hknown) spoiled_startRun)
  rcases hs with hs | ⟨i, layer, data, hs⟩
  · exact clean_step hpub hsame hs hok
  · exact .inr ⟨i, layer, data, spoiled_step hpub hsame hs hok⟩

/-- **Every directory the runs reach can be trusted**, or is poisoned. -/
theorem trusted_afterRuns (hpub : Published lz4 sha256 blobs layers) {history : List (FetchRun δ)}
    (hsteady : Steady history layers) {known : Nat}
    (hknown : ∀ r ∈ history, known ≤ r.layers.length) {dir : Dir}
    (h : TrustsRightly lz4 blobs layers known dir ∨ Poisoned lz4 blobs layers dir)
    (hproper : AllProper lz4 sha256 blobs layers dir history) :
    TrustsRightly lz4 blobs layers layers.length (afterRuns lz4 sha256 history dir) ∨
      Poisoned lz4 blobs layers (afterRuns lz4 sha256 history dir) := by
  -- a run adds its own manifest to what later ones have to keep
  induction history generalizing known dir with
  | nil => exact h.imp (fun h => ⟨fun _ _ hlt => hlt, h.loose, h.listed⟩) id
  | cons r rest ih =>
    obtain ⟨hlater, hrest⟩ := List.pairwise_cons.mp hsteady
    have hfront : r.layers.take layers.length <+: layers := hlater layers (by simp)
    have hrun := cleanOrSpoiled_run hpub (getElem?_of_front hfront) (hknown r (by simp)) h
      hproper.1
    refine ih hrest (fun q hq => ?_) hrun.dir hproper.2
    have hlength := (hlater q.layers (by simp [List.mem_map_of_mem hq])).length_le
    rw [List.length_take] at hlength
    omega

/-- **A successful run leaves the image**, whatever runs came before it, wherever they
stopped and however the workers interleave: if no manifest replaces or drops a layer, no
`os.pwrite` is cut short, and the checks judge the part files rightly. -/
theorem successful_run_leaves_image (history : List (FetchRun δ)) (turns : List Turn)
    (hpub : Published lz4 sha256 blobs layers) (hsteady : Steady history layers)
    (hproper : AllProper lz4 sha256 blobs layers emptyDir (history ++ [⟨layers, turns⟩]))
    (hdone : Succeeded layers (FetchRun.reaches lz4 sha256 ⟨layers, turns⟩
      (afterRuns lz4 sha256 history emptyDir))) :
    HoldsImage lz4 blobs layers (FetchRun.reaches lz4 sha256 ⟨layers, turns⟩
      (afterRuns lz4 sha256 history emptyDir)).disk := by
  obtain ⟨hbefore, hlast⟩ := (guarded_append ..).mp hproper
  have htrusted := trusted_afterRuns hpub hsteady (fun _ _ => Nat.zero_le _)
    (.inl trustsRightly_emptyDir) hbefore
  have hend := cleanOrSpoiled_run hpub (fun _ _ _ => rfl) (Nat.le_refl _) htrusted hlast.1
  rcases hend with hclean | ⟨i, layer, data, hspoiled⟩
  · exact holdsImage_of_succeeded hclean hdone
  · exact absurd hdone (not_succeeded_of_spoiled hspoiled)

end Histories

/-! ## Where it goes wrong

A blob is one stored block of one byte, and the digest of a content is the sum of its bytes
modulo 7. -/

/-- A blob with one stored block. -/
def storedBlob (content : List Byte) : List Byte :=
  magicStored ++ toLe 4 content.length ++ content ++ magicEnd

/-- The blob with this digest. -/
def smallBlob (digest : Nat) : List Byte := storedBlob [BitVec.ofNat 8 digest]

def smallSum (content : List Byte) : Nat := (content.map BitVec.toNat).sum % 7

/-- The layer of that blob. -/
def smallLayer (digest : Nat) : Layer Nat where
  digest := digest
  size := (smallBlob digest).length
  uncompressedSize := some 1
  uncompressedContentDigest := some (smallSum [BitVec.ofNat 8 digest])

/-- Turns of chunk 0 from the bytes that arrive first to the state file. -/
def fetchTurns (arrived : List Byte) (pwrite : Pwrite) : List Turn :=
  ⟨0, some arrived, .all⟩ :: List.replicate 5 ⟨0, none, pwrite⟩

/-- No block is compressed. -/
def noLz4 (_ : List Byte) (_ : Nat) (_ : List Byte) : Option (List Byte) := none

theorem published_small : Published noLz4 smallSum smallBlob [smallLayer 2] := by
  intro layer hlayer
  rw [List.mem_singleton] at hlayer
  subst hlayer
  refine ⟨[2], by decide +kernel, rfl, by decide, fun digest hdigest => ?_⟩
  exact Option.some.inj hdigest

/-- The tag moves after a complete run: the next run finds chunk 0 listed, fetches
nothing, ends without an exception and leaves the old image. -/
theorem moved_tag_keeps_old_chunk :
    let dir := afterRuns noLz4 smallSum [⟨[smallLayer 1], fetchTurns (smallBlob 1) .all⟩] emptyDir
    Published noLz4 smallSum smallBlob [smallLayer 2] ∧
      Succeeded [smallLayer 2] (startRun [smallLayer 2] dir) ∧
      ¬ HoldsImage noLz4 smallBlob [smallLayer 2] (startRun [smallLayer 2] dir).disk := by
  refine ⟨published_small, by decide +kernel, fun hholds => ?_⟩
  have hbyte := hholds.2 0 (smallLayer 2) [2] rfl rfl 0 (by decide)
  revert hbyte
  decide +kernel

/-- A run is killed between removing a part file and recording its chunk, and the tag
moves: the next run fetches the chunk, but its zero block is not written over the old
bytes. -/
theorem zero_block_keeps_old_bytes :
    let dir := afterRuns noLz4 smallSum
      [⟨[smallLayer 5], (fetchTurns (smallBlob 5) .all).dropLast⟩] emptyDir
    let last := FetchRun.reaches noLz4 smallSum
      ⟨[smallLayer 0], fetchTurns (smallBlob 0) .all⟩ dir
    Succeeded [smallLayer 0] last ∧ last.disk.byte 0 = 5 := by
  decide +kernel

/-- The file system stores none of a block, and the run does not notice. -/
theorem short_pwrite_loses_block :
    let last := FetchRun.reaches noLz4 smallSum
      ⟨[smallLayer 2], fetchTurns (smallBlob 2) (.short 0)⟩ emptyDir
    Succeeded [smallLayer 2] last ∧ last.disk.byte 0 = 0 := by
  decide +kernel

/-- The runs before: one is killed during its download, the next one completes it and is
killed in `write_chunk`. -/
def killedRuns : List (FetchRun Nat) :=
  [⟨[smallLayer 2], [⟨0, some [0x62, 0x76], .all⟩]⟩,
    ⟨[smallLayer 2], [⟨0, some ((smallBlob 2).drop 2), .all⟩, ⟨0, none, .all⟩, ⟨0, none, .all⟩]⟩]

/-- The run after them finds the part file and fetches nothing. -/
theorem resumed_download_leaves_image :
    HoldsImage noLz4 smallBlob [smallLayer 2]
      (FetchRun.reaches noLz4 smallSum ⟨[smallLayer 2], List.replicate 6 ⟨0, none, .all⟩⟩
        (afterRuns noLz4 smallSum killedRuns emptyDir)).disk :=
  successful_run_leaves_image killedRuns _ published_small (by decide) (by decide +kernel)
    (by decide +kernel)

end Orchard.Fetch
