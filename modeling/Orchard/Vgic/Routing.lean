/-
  Vgic/Routing.lean --- which addresses of the guest belong to which GIC frame.

  The distributor and the redistributor of every CPU are frames of the guest's address
  space, in the layout the board chose.  `kvm_gicv3_find` inverts that layout, except
  where a region was cut short: its size is a 32-bit product.  The second word of a
  64-bit access is not looked up again, and so may leave the frame of the first.
-/
import Orchard.Vgic.AllOrNothing

set_option autoImplicit false

namespace Orchard.Vgic

open Orchard.Foundation

/-! ## The layout -/

/-- What `arm_gicv3_common_realize` accepts, with the addresses the board maps the frames
at.  A mapping of `none` is a region that is not mapped. -/
structure Layout where
  distAddr : Option (BitVec 64)
  /-- `redist_region_count`, and where each region is mapped -/
  redists : List (Nat × Option (BitVec 64))
  numCpu : Nat
  vlpis : Bool
  /-- the capacity check -/
  capacity : (redists.map Prod.fst).sum = numCpu
  /-- there is a CPU, and an `int` counts them -/
  pos : 0 < numCpu
  counted : numCpu < 2 ^ 31
  /-- the memory regions do not overlap -/
  apart : ((distAddr, distSize) :: (redists.map fun c =>
      (c.2, c.1 * (if vlpis then 0x40000 else 0x20000) % 2 ^ 32))).Pairwise
    fun x y => ∀ pa o o', Inside x.1 x.2 pa o → ¬Inside y.1 y.2 pa o'

/-- The device after `gicv3_init_irqs_and_mmio`. -/
def Layout.gic (layout : Layout) : Gic where
  distAddr := layout.distAddr
  regions := initRegions 0 layout.redists
  numCpu := layout.numCpu
  vlpis := layout.vlpis

/-- The bytes of a frame. -/
def frameSize (gic : Gic) : Target → Nat
  | .dist => distSize
  | .redist _ => redistSize gic

/-- Where the frame of `target` is: those of a region follow one another, one for each
CPU. -/
def FrameAt (gic : Gic) : Target → BitVec 64 → Prop
  | .dist, base => gic.distAddr = some base
  | .redist cpu, base =>
    ∃ r ∈ gic.regions, ∃ a, r.addr = some a ∧ r.cpuidx ≤ cpu ∧ cpu < r.cpuidx + r.count ∧
      base = a + BitVec.ofNat 64 ((cpu - r.cpuidx) * redistSize gic)

/-- The address is byte `o` of the frame of `target`. -/
def ByteOf (gic : Gic) (pa : BitVec 64) (target : Target) (o : Nat) : Prop :=
  ∃ base, FrameAt gic target base ∧ o < frameSize gic target ∧ pa = base + BitVec.ofNat 64 o

/-- What the routing promises for an address and a size. -/
structure Inverts (gic : Gic) (pa : BitVec 64) (size : Nat) : Prop where
  /-- the answer is the frame and the offset of the address, and there is none for an
  address outside the frames -/
  inverse : ∀ target o, find gic pa = some (target, o) ↔ ByteOf gic pa target o
  /-- in particular not below the base of a frame -/
  below : ∀ target base o, FrameAt gic target base →
    base.toNat + frameSize gic target ≤ 2 ^ 64 → pa.toNat < base.toNat →
      find gic pa ≠ some (target, o)
  /-- every register word that is touched lies in the frame that contains the address -/
  words : ∀ k val isWrite, ∀ word ∈ (kvmArmGicv3Mmio (some gic) k pa val size isWrite).touched,
    word.2 + 4 ≤ frameSize gic word.1 ∧ ∃ o, ByteOf gic pa word.1 o

/-- The address lies in a frame of a mapped region, behind the end the region was given. -/
def CutOff (gic : Gic) (pa : BitVec 64) : Prop :=
  ∃ r ∈ gic.regions, ∃ off, Inside r.addr (r.count * redistSize gic) pa off ∧
    regionSize gic r ≤ off

/-- The access starts in a frame and runs past its end. -/
def Overruns (gic : Gic) (pa : BitVec 64) (size : Nat) : Prop :=
  pa &&& 3#64 = 0 ∧ (size = 4 ∨ size = 8) ∧
    ∃ target o, ByteOf gic pa target o ∧ frameSize gic target < o + size

/-! ## Regions -/

theorem redistSize_pos (gic : Gic) : 0 < redistSize gic := by
  unfold redistSize
  split <;> decide

theorem redistSize_le (gic : Gic) : redistSize gic ≤ 2 ^ 18 := by
  unfold redistSize
  split <;> decide

theorem regionSize_le (gic : Gic) (r : RedistRegion) :
    regionSize gic r ≤ r.count * redistSize gic :=
  Nat.mod_le _ _

/-- The CPUs of a region lie between the first and the number of all. -/
theorem initRegions_range {first : Nat} {redists : List (Nat × Option (BitVec 64))}
    {r : RedistRegion} (h : r ∈ initRegions first redists) :
    first ≤ r.cpuidx ∧ r.cpuidx + r.count ≤ first + (redists.map Prod.fst).sum := by
  induction redists generalizing first with
  | nil => cases h
  | cons c rest ih =>
    obtain ⟨count, addr⟩ := c
    rw [List.map_cons, List.sum_cons]
    rcases List.mem_cons.1 h with rfl | hrest
    · exact ⟨Nat.le_refl _, by dsimp only; omega⟩
    · have := ih hrest
      dsimp only
      omega

/-- A CPU has its redistributor in one region. -/
theorem initRegions_unique {first : Nat} {redists : List (Nat × Option (BitVec 64))}
    {r r' : RedistRegion} (h : r ∈ initRegions first redists)
    (h' : r' ∈ initRegions first redists) {cpu : Nat}
    (hcpu : r.cpuidx ≤ cpu ∧ cpu < r.cpuidx + r.count)
    (hcpu' : r'.cpuidx ≤ cpu ∧ cpu < r'.cpuidx + r'.count) : r = r' := by
  induction redists generalizing first with
  | nil => cases h
  | cons c rest ih =>
    obtain ⟨count, addr⟩ := c
    rcases List.mem_cons.1 h with rfl | hrest <;> rcases List.mem_cons.1 h' with rfl | hrest'
    · rfl
    · have := initRegions_range hrest'
      dsimp only at hcpu
      omega
    · have := initRegions_range hrest
      dsimp only at hcpu'
      omega
    · exact ih hrest hrest'

/-- The mappings and sizes of the regions, in order. -/
theorem initRegions_extents (gic : Gic) (first : Nat)
    (redists : List (Nat × Option (BitVec 64))) :
    (initRegions first redists).map (fun r => (r.addr, regionSize gic r)) =
      redists.map fun c => (c.2, c.1 * redistSize gic % 2 ^ 32) := by
  induction redists generalizing first with
  | nil => rfl
  | cons c rest ih =>
    obtain ⟨count, addr⟩ := c
    rw [initRegions, List.map_cons, List.map_cons, ih]
    rfl

section Layout

variable (layout : Layout)

/-- An address lies in one of the distributor and the regions only. -/
theorem Layout.extents_apart :
    ((layout.gic.distAddr, distSize) ::
        layout.gic.regions.map fun r => (r.addr, regionSize layout.gic r)).Pairwise
      fun x y => ∀ pa o o', Inside x.1 x.2 pa o → ¬Inside y.1 y.2 pa o' := by
  have h := layout.apart
  rw [show layout.gic.regions = initRegions 0 layout.redists from rfl, initRegions_extents]
  exact h

variable {layout} {pa : BitVec 64}

theorem Layout.not_dist {r : RedistRegion} (h : r ∈ layout.gic.regions) {o : Nat}
    (hin : Inside r.addr (regionSize layout.gic r) pa o) (o' : Nat) :
    ¬Inside layout.gic.distAddr distSize pa o' := by
  have hapart := (List.pairwise_cons.1 layout.extents_apart).1 (r.addr, regionSize layout.gic r)
    (List.mem_map.2 ⟨r, h, rfl⟩)
  exact fun hdist => hapart pa o' o hdist hin

theorem Layout.firstInside {r : RedistRegion} (h : r ∈ layout.gic.regions) {o : Nat}
    (hin : Inside r.addr (regionSize layout.gic r) pa o) :
    FirstInside layout.gic pa layout.gic.regions r o := by
  obtain ⟨before, after, heq⟩ := List.append_of_mem h
  refine ⟨before, after, heq, fun q hq o' hq' => ?_, hin⟩
  have hapart := (List.pairwise_cons.1 layout.extents_apart).2
  rw [heq, List.map_append, List.pairwise_append] at hapart
  exact hapart.2.2 _ (List.mem_map.2 ⟨q, hq, rfl⟩) _
    (List.mem_map.2 ⟨r, List.mem_cons_self, rfl⟩) pa o' o hq' hin

theorem Layout.count_le {r : RedistRegion} (h : r ∈ layout.gic.regions) :
    r.cpuidx + r.count ≤ layout.gic.numCpu := by
  have := (initRegions_range h).2
  rw [layout.capacity, Nat.zero_add] at this
  exact this

theorem Layout.extent_lt {r : RedistRegion} (h : r ∈ layout.gic.regions) :
    r.count * redistSize layout.gic < 2 ^ 64 := by
  have hcount : r.count ≤ 2 ^ 31 := by
    have h1 := layout.count_le h
    have h2 : layout.gic.numCpu < 2 ^ 31 := layout.counted
    omega
  calc r.count * redistSize layout.gic
      ≤ 2 ^ 31 * 2 ^ 18 := Nat.mul_le_mul hcount (redistSize_le _)
    _ < 2 ^ 64 := by decide

/-! ## Frames and regions -/

theorem byteOf_dist_iff {gic : Gic} {o : Nat} :
    ByteOf gic pa .dist o ↔ Inside gic.distAddr distSize pa o := by
  have hsize : distSize < 2 ^ 64 := by decide
  constructor
  · rintro ⟨base, hbase, ho, hpa⟩
    have ho' : o < distSize := ho
    exact ⟨base, hbase, (toNat_sub_eq_iff pa base (by omega)).2 hpa, ho'⟩
  · rintro ⟨base, hbase, hpa, ho⟩
    exact ⟨base, hbase, ho, (toNat_sub_eq_iff pa base (by omega)).1 hpa⟩

/-- The frames of a region, end to end, are the region. -/
theorem Layout.byteOf_redist_iff {cpu o : Nat} :
    ByteOf layout.gic pa (.redist cpu) o ↔
      ∃ r ∈ layout.gic.regions, ∃ off,
        Inside r.addr (r.count * redistSize layout.gic) pa off ∧
          cpu = r.cpuidx + off / redistSize layout.gic ∧ o = off % redistSize layout.gic := by
  have hpos := redistSize_pos layout.gic
  constructor
  · rintro ⟨base, ⟨r, hr, a, ha, hle, hlt, rfl⟩, ho, rfl⟩
    have ho' : o < redistSize layout.gic := ho
    obtain ⟨j, rfl⟩ := Nat.exists_eq_add_of_le hle
    have hj : j + 1 ≤ r.count := by omega
    have hoff : j * redistSize layout.gic + o < r.count * redistSize layout.gic := by
      have := Nat.mul_le_mul_right (redistSize layout.gic) hj
      rw [Nat.succ_mul] at this
      omega
    refine ⟨r, hr, j * redistSize layout.gic + o, ⟨a, ha, ?_, hoff⟩, ?_, ?_⟩
    · rw [toNat_sub_eq_iff _ _ (Nat.lt_trans hoff (layout.extent_lt hr)),
        Nat.add_sub_cancel_left, BitVec.add_assoc, BitVec.ofNat_add]
    · rw [Nat.mul_comm, Nat.mul_add_div hpos, Nat.div_eq_of_lt ho', Nat.add_zero]
    · rw [Nat.mul_comm, Nat.mul_add_mod, Nat.mod_eq_of_lt ho']
  · rintro ⟨r, hr, off, ⟨a, ha, hpa, hoff⟩, rfl, rfl⟩
    refine ⟨_, ⟨r, hr, a, ha, Nat.le_add_right _ _, ?_, rfl⟩, Nat.mod_lt _ hpos, ?_⟩
    · exact Nat.add_lt_add_left ((Nat.div_lt_iff_lt_mul hpos).2 hoff) _
    · rw [Nat.add_sub_cancel_left, BitVec.add_assoc, ← BitVec.ofNat_add, Nat.mul_comm,
        Nat.div_add_mod]
      exact (toNat_sub_eq_iff pa a (Nat.lt_trans hoff (layout.extent_lt hr))).1 hpa

/-- A target has one frame. -/
theorem Layout.frameAt_unique {target : Target} {base base' : BitVec 64}
    (h : FrameAt layout.gic target base) (h' : FrameAt layout.gic target base') :
    base = base' := by
  cases target with
  | dist => exact Option.some.inj (h.symm.trans h')
  | redist cpu =>
    obtain ⟨r, hr, a, ha, hle, hlt, rfl⟩ := h
    obtain ⟨r', hr', a', ha', hle', hlt', rfl⟩ := h'
    obtain rfl := initRegions_unique hr hr' ⟨hle, hlt⟩ ⟨hle', hlt'⟩
    rw [Option.some.inj (ha.symm.trans ha')]

/-! ## The lookup -/

theorem mem_of_firstInside {gic : Gic} {regions : List RedistRegion} {r : RedistRegion}
    {off : Nat} (h : FirstInside gic pa regions r off) : r ∈ regions := by
  obtain ⟨before, after, rfl, -⟩ := h
  simp

/-- An answer is right. -/
theorem Layout.byteOf_of_find {target : Target} {o : Nat}
    (h : find layout.gic pa = some (target, o)) : ByteOf layout.gic pa target o := by
  rcases find_eq_some_iff.1 h with ⟨hin, rfl⟩ | ⟨-, r, off, hfirst, -, rfl, rfl⟩
  · exact byteOf_dist_iff.2 hin
  · obtain ⟨-, -, -, -, a, ha, hpa, hoff⟩ := id hfirst
    exact layout.byteOf_redist_iff.2 ⟨r, mem_of_firstInside hfirst, off,
      ⟨a, ha, hpa, Nat.lt_of_lt_of_le hoff (regionSize_le _ _)⟩, rfl, rfl⟩

/-- Where no region was cut short, there is an answer for every byte of a frame. -/
theorem Layout.find_of_byteOf (hcut : ¬CutOff layout.gic pa) {target : Target} {o : Nat}
    (h : ByteOf layout.gic pa target o) : find layout.gic pa = some (target, o) := by
  cases target with
  | dist => exact find_eq_some_iff.2 (.inl ⟨byteOf_dist_iff.1 h, rfl⟩)
  | redist cpu =>
    obtain ⟨r, hr, off, hin, rfl, rfl⟩ := layout.byteOf_redist_iff.1 h
    have hshort : off < regionSize layout.gic r := by
      by_contra hge
      exact hcut ⟨r, hr, off, hin, Nat.le_of_not_lt hge⟩
    obtain ⟨a, ha, hpa, hoff⟩ := hin
    have hin' : Inside r.addr (regionSize layout.gic r) pa off := ⟨a, ha, hpa, hshort⟩
    have hcpu : off / redistSize layout.gic < r.count :=
      (Nat.div_lt_iff_lt_mul (redistSize_pos _)).2 hoff
    have hcount := layout.count_le hr
    exact find_eq_some_iff.2 (.inr ⟨layout.not_dist hr hin', r, off, layout.firstInside hr hin',
      by omega, rfl, rfl⟩)

/-- Behind the end of a region that was cut short, the answer is wrong. -/
theorem Layout.not_find_of_cutOff (hcut : CutOff layout.gic pa) :
    ∃ target o, ByteOf layout.gic pa target o ∧ find layout.gic pa ≠ some (target, o) := by
  obtain ⟨r, hr, off, hin, hge⟩ := hcut
  refine ⟨_, _, layout.byteOf_redist_iff.2 ⟨r, hr, off, hin, rfl, rfl⟩, fun hfind => ?_⟩
  rcases find_eq_some_iff.1 hfind with ⟨-, hdist⟩ | ⟨-, r', off', hfirst, -, hcpu, -⟩
  · cases hdist
  · obtain ⟨a, ha, hpa, hoff⟩ := hin
    obtain ⟨-, -, -, -, a', ha', hpa', hoff'⟩ := id hfirst
    have hpos := redistSize_pos layout.gic
    have hj : off / redistSize layout.gic < r.count := (Nat.div_lt_iff_lt_mul hpos).2 hoff
    have hj' : off' / redistSize layout.gic < r'.count :=
      (Nat.div_lt_iff_lt_mul hpos).2 (Nat.lt_of_lt_of_le hoff' (regionSize_le _ _))
    have hsame := Target.redist.inj hcpu
    obtain rfl := initRegions_unique hr (mem_of_firstInside hfirst)
      ⟨Nat.le_add_right _ _, Nat.add_lt_add_left hj _⟩
      ⟨Nat.le_trans (Nat.le_add_right _ _) (Nat.le_of_eq hsame.symm),
        Nat.lt_of_le_of_lt (Nat.le_of_eq hsame) (Nat.add_lt_add_left hj' _)⟩
    obtain rfl := Option.some.inj (ha.symm.trans ha')
    omega

/-- No address below a frame is taken for one of its bytes. -/
theorem Layout.find_ne_of_below {target : Target} {base : BitVec 64} (o : Nat)
    (hframe : FrameAt layout.gic target base)
    (hfits : base.toNat + frameSize layout.gic target ≤ 2 ^ 64) (hbelow : pa.toNat < base.toNat) :
    find layout.gic pa ≠ some (target, o) := by
  intro hfind
  obtain ⟨base', hframe', ho, rfl⟩ := layout.byteOf_of_find hfind
  obtain rfl := layout.frameAt_unique hframe hframe'
  rw [toNat_add_ofNat (by omega)] at hbelow
  omega

/-! ## The words of an access -/

/-- The registers the loop issues an ioctl for. -/
theorem mem_touched {k : Kernel} {isWrite : Bool} {target : Target} {offset left i : Nat}
    {val : BitVec 64} {word : Target × Nat}
    (h : word ∈ (mmioWords k isWrite target offset left i val).touched) :
    ∃ m, i ≤ m ∧ m < i + left ∧ word = (target, offset + 4 * m) := by
  induction left generalizing i val with
  | zero => cases h
  | succ left ih =>
    rw [mmioWords] at h
    split at h
    · rcases List.mem_cons.1 h with rfl | hrest
      · exact ⟨i, Nat.le_refl _, by omega, rfl⟩
      · obtain ⟨m, h1, h2, rfl⟩ := ih hrest
        exact ⟨m, by omega, by omega, rfl⟩
    · rw [List.mem_singleton] at h
      exact ⟨i, Nat.le_refl _, by omega, h⟩

/-- If the kernel serves every word, each of them is touched. -/
theorem touched_of_served {k : Kernel} (hk : ∀ i, regAccess (k.ioctl i) = true) (isWrite : Bool)
    (target : Target) (offset left i : Nat) (val : BitVec 64) :
    (mmioWords k isWrite target offset left i val).touched =
      (List.range' i left).map fun m => (target, offset + 4 * m) := by
  induction left generalizing i val with
  | zero => rfl
  | succ left ih =>
    rw [mmioWords, if_pos (hk i), List.range'_succ, List.map_cons, ← ih]

end Layout

/-- A kernel that serves every word at once. -/
def Kernel.willing : Kernel where
  ioctl _ _ := .ok
  read _ := 0

/-- **The routing inverts the layout exactly where no region was cut short and the access
does not run past the end of its frame.** -/
theorem inverts_iff (layout : Layout) (pa : BitVec 64) (size : Nat) :
    Inverts layout.gic pa size ↔
      ¬CutOff layout.gic pa ∧ ¬Overruns layout.gic pa size := by
  constructor
  · intro h
    refine ⟨fun hcut => ?_, ?_⟩
    · obtain ⟨target, o, hbyte, hne⟩ := layout.not_find_of_cutOff hcut
      exact hne ((h.inverse target o).2 hbyte)
    · rintro ⟨hpa, hsize, target, o, hbyte, hover⟩
      have hfind := (h.inverse target o).2 hbyte
      -- a willing kernel lets the access reach its last word
      have hlast := h.words Kernel.willing 0 true (target, o + 4 * (size / 4 - 1)) (by
        rw [kvmArmGicv3Mmio, if_neg (by simp [hpa]; omega)]
        simp only [hfind]
        rw [touched_of_served fun i => (regAccess_iff _).2 ⟨0, by decide, rfl, by simp⟩]
        refine List.mem_map.2 ⟨size / 4 - 1, List.mem_range'_1.2 ?_, rfl⟩
        omega)
      have := hlast.1
      dsimp only at this
      omega
  · rintro ⟨hcut, hover⟩
    refine ⟨fun target o => ⟨layout.byteOf_of_find, layout.find_of_byteOf hcut⟩,
      fun target base o => layout.find_ne_of_below o, fun k val isWrite word hword => ?_⟩
    rcases kvmArmGicv3Mmio_cases (some layout.gic) k pa val size isWrite with
      ⟨-, hmmio⟩ | ⟨target, offset, hsize, ⟨s, hs, hpa, hfind⟩, hmmio⟩
    · rw [hmmio] at hword
      cases hword
    · obtain rfl : layout.gic = s := Option.some.inj hs
      rw [hmmio] at hword
      obtain ⟨m, -, hm, rfl⟩ := mem_touched hword
      have hbyte := layout.byteOf_of_find hfind
      refine ⟨?_, offset, hbyte⟩
      have hin : offset + size ≤ frameSize layout.gic target := by
        by_contra hlt
        exact hover ⟨hpa, hsize, target, offset, hbyte, Nat.lt_of_not_le hlt⟩
      dsimp only
      omega

/-- One CPU, its redistributor mapped right behind the distributor. -/
def oneCpu : Layout where
  distAddr := some 0x10000000#64
  redists := [(1, some 0x10010000#64)]
  numCpu := 1
  vlpis := false
  capacity := rfl
  pos := by decide
  counted := by decide
  apart := by
    refine List.pairwise_pair.2 ?_
    rintro pa o o' ⟨a, ha, rfl, hlt⟩ ⟨a', ha', rfl, hlt'⟩
    cases ha
    cases ha'
    simp [distSize, BitVec.toNat_sub] at hlt hlt'
    omega

/-- A 64-bit access to the last word of the distributor goes on behind it: the word there
is the first of the redistributor. -/
theorem last_word_overruns :
    (Target.dist, 0x10000) ∈
        (kvmArmGicv3Mmio (some oneCpu.gic) Kernel.willing 0x1000FFFC#64 0 8 false).touched ∧
      frameSize oneCpu.gic .dist = 0x10000 ∧
      find oneCpu.gic (0x1000FFFC#64 + 4#64) = some (.redist 0, 0) ∧
      ¬Inverts oneCpu.gic 0x1000FFFC#64 8 := by
  have htouched : (Target.dist, 0x10000) ∈
      (kvmArmGicv3Mmio (some oneCpu.gic) Kernel.willing 0x1000FFFC#64 0 8 false).touched := by
    decide
  refine ⟨htouched, rfl, by decide, fun h => ?_⟩
  have hin := (h.words _ _ _ _ htouched).1
  exact absurd hin (by decide)

end Orchard.Vgic
