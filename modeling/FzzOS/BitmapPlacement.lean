/-
# Where the bitmap lies and what is written

The size of the bitmap is taken from the sum of all lengths of the memory map, its place
from the largest usable entry, and the test whether it fits from the last entry; its bits
are then addressed by absolute frame number.

* `unsetFrames` : the frames passed to `bitmap_unset`, and `mem_writes_pmmInit` : the bytes
  written;
* `writes_in_bitmap_iff` : when they are bytes of the bitmap;
* `bitmap_fits_iff` : when the test is the right one.
-/
import FzzOS.BootBitmap

open ByteStore MemoryMap

namespace Pmm

variable {β : Type} [ByteStore β] {mmap : MemoryMap}

/-! ## The frames passed to `bitmap_unset` -/

/-- The frames of one entry, as the inner loop counts them. -/
def unsetFramesOf (e : MmapEntry) : List U64 :=
  (List.range (e.length / 4096).toNat).map fun j => e.base / 4096 + BitVec.ofNat 64 j

/-- The frames passed to `bitmap_unset`, in the order of the calls. -/
def unsetFrames (mmap : MemoryMap) : List U64 := (usable mmap).flatMap unsetFramesOf

/-- One call and the counter's share of it. -/
def unsetFrame (s : PmmInfo β) (frame : U64) : PmmInfo β :=
  { s with bitmap := bitmapUnset s.bitmap frame, usedpages := s.usedpages - 1 }

theorem unsetPages_eq (s : PmmInfo β) (align : U64) (pages : ℕ) :
    unsetPages align pages s
      = ((List.range pages).map fun j => align + BitVec.ofNat 64 j).foldl unsetFrame s := by
  induction pages generalizing s align with
  | zero => rfl
  | succ n ih =>
    have hshift : (fun j => align + 1 + BitVec.ofNat 64 j)
        = (fun j => align + BitVec.ofNat 64 j) ∘ Nat.succ := by
      funext j
      rw [Function.comp_apply, Nat.succ_eq_add_one, BitVec.ofNat_add]
      bv_omega
    have hzero : align + BitVec.ofNat 64 0 = align := by bv_omega
    rw [unsetPages, ih, hshift, List.range_succ_eq_map, List.map_cons, List.foldl_cons,
      List.map_map, hzero]
    rfl

/-- **The second pass** is these calls. -/
theorem foldl_unsetEntry_eq (mmap : MemoryMap) (s : PmmInfo β) :
    mmap.foldl unsetEntry s = (unsetFrames mmap).foldl unsetFrame s := by
  induction mmap generalizing s with
  | nil => rfl
  | cons e es ih =>
    rw [List.foldl_cons, ih, unsetEntry]
    split_ifs with htype
    · have husable : usable (e :: es) = e :: usable es := List.filter_cons_of_pos (by simpa)
      rw [unsetPages_eq, unsetFrames, unsetFrames, husable, List.flatMap_cons, List.foldl_append]
      rfl
    · have husable : usable (e :: es) = usable es := List.filter_cons_of_neg (by simpa)
      rw [unsetFrames, unsetFrames, husable]

/-- As numbers they are the usable frames. -/
theorem mem_unsetFramesOf {e : MmapEntry} {frame : U64} :
    frame ∈ unsetFramesOf e ↔ frame.toNat ∈ e.frames := by
  have hbase : (e.base / 4096).toNat = frameOf e.base := BitVec.toNat_udiv
  have hlen : (e.length / 4096).toNat = frameOf e.length := BitVec.toNat_udiv
  have hb := frameOf_lt e.base
  have hl := frameOf_lt e.length
  rw [unsetFramesOf, List.mem_map, MmapEntry.frames, Finset.mem_Ico, hlen]
  constructor
  · rintro ⟨j, hj, rfl⟩
    rw [List.mem_range] at hj
    have hadd : (e.base / 4096 + BitVec.ofNat 64 j).toNat = frameOf e.base + j := by
      rw [BitVec.toNat_add, BitVec.toNat_ofNat, hbase]
      omega
    omega
  · rintro ⟨hle, hlt⟩
    refine ⟨frame.toNat - frameOf e.base, List.mem_range.mpr (by omega), ?_⟩
    apply BitVec.eq_of_toNat_eq
    rw [BitVec.toNat_add, BitVec.toNat_ofNat, hbase]
    omega

theorem mem_unsetFrames {frame : U64} :
    frame ∈ unsetFrames mmap ↔ frame.toNat ∈ usableFrames mmap := by
  rw [unsetFrames, List.mem_flatMap, mem_usableFrames]
  simp only [mem_unsetFramesOf]

/-! ## The bytes written -/

/-- The bytes at an address, with nothing written yet. -/
def recorded (bytesAt : U64 → β) (addr : U64) : Recorded β := ⟨bytesAt addr, []⟩

theorem mem_writes_fillBitmap (b : Recorded β) (size i : ℕ) :
    i ∈ (fillBitmap b size).writes ↔ i < size ∨ i ∈ b.writes := by
  unfold fillBitmap
  induction size with
  | zero => simp
  | succ n ih =>
    rw [List.range_succ, List.foldl_append, List.foldl_cons, List.foldl_nil,
      Recorded.writes_store, List.mem_cons, ih, Nat.lt_succ_iff_lt_or_eq]
    tauto

theorem mem_writes_unsetFrames (s : PmmInfo (Recorded β)) (frames : List U64) (i : ℕ) :
    i ∈ (frames.foldl unsetFrame s).bitmap.writes ↔
      (∃ frame ∈ frames, i = frame.toNat / 8) ∨ i ∈ s.bitmap.writes := by
  induction frames generalizing s with
  | nil => simp
  | cons frame frames ih =>
    have hbyte : (frame / 8).toNat = frame.toNat / 8 := BitVec.toNat_udiv
    rw [List.foldl_cons, ih, unsetFrame, bitmapUnset, Recorded.writes_store, List.mem_cons, hbyte]
    simp only [List.exists_mem_cons_iff]
    rw [or_left_comm, or_assoc]

/-- **What `pmm_init` writes**: the bytes of the bitmap, and the bytes of the usable frames'
bits. -/
theorem mem_writes_pmmInit {bytesAt : U64 → β} {s : PmmInfo (Recorded β)} {fb : PmmToVmmInfo}
    (h : pmmInit (recorded bytesAt) 0 mmap = some (s, fb)) (i : ℕ) :
    i ∈ s.bitmap.writes ↔
      i < bitmapBytes mmap ∨ ∃ frame ∈ unsetFrames mmap, i = frame.toNat / 8 := by
  obtain ⟨last, _, h⟩ := Option.bind_eq_some_iff.mp h
  have hsize := (toNat_sizes (scan_zero_totalmem mmap)).2
  simp only at h
  split_ifs at h with hlarge
  simp only [Option.some.injEq, Prod.mk.injEq] at h
  obtain ⟨rfl, rfl⟩ := h
  have hpos : 0 < bitmapBytes mmap := Nat.succ_pos _
  have hfill : i ∈ (populate (recorded bytesAt)
      (mmap.foldl scanEntry ⟨0, ⟨0, 0⟩, 0, 0⟩)).bitmap.writes ↔ i < bitmapBytes mmap := by
    rw [← hsize]
    exact (mem_writes_fillBitmap _ _ i).trans (or_iff_left List.not_mem_nil)
  -- the last write is that of the NULL frame's bit, in byte 0
  have hzero : ((0 : U64) / 8).toNat = 0 := rfl
  dsimp only
  rw [bitmapSet, Recorded.writes_store, List.mem_cons, foldl_unsetEntry_eq,
    mem_writes_unsetFrames, hfill, hzero]
  constructor
  · rintro (rfl | hframe | hi)
    · exact Or.inl hpos
    · exact Or.inr hframe
    · exact Or.inl hi
  · rintro (hi | hframe)
    · exact Or.inr (Or.inr hi)
    · exact Or.inr (Or.inl hframe)

/-- `pmm_init` does not return: the last entry is too short for the bitmap, or there is
none. -/
def Hangs (mmap : MemoryMap) : Prop := ∀ e ∈ mmap.getLast?, e.length.toNat < bitmapBytes mmap

theorem pmmInit_eq_none_iff (bytesAt : U64 → β) (mmap : MemoryMap) :
    pmmInit bytesAt 0 mmap = none ↔ Hangs mmap := by
  have hsize := (toNat_sizes (scan_zero_totalmem mmap)).2
  rw [pmmInit, Option.bind_eq_none_iff, Hangs]
  refine forall₂_congr fun e _ => ?_
  rw [← hsize, ← BitVec.lt_def]
  dsimp only
  split_ifs with hlarge
  · exact iff_of_true rfl hlarge
  · exact iff_of_false not_false hlarge

/-- The usable frames have a bit each if the usable entries end early enough. -/
theorem usableFrames_lt_iff (hmap : WellFormed mmap) (n : ℕ) :
    (∀ frame ∈ unsetFrames mmap, frame.toNat < 8 * n) ↔
      ∀ e ∈ usable mmap, 0 < e.length.toNat → e.base.toNat + e.length.toNat ≤ 32768 * n := by
  constructor
  · intro h e he hpos
    obtain ⟨hbase, hlen⟩ := hmap.aligned e he
    unfold Aligned at hbase hlen
    have hb := e.base.isLt
    have hl := e.length.isLt
    -- the last frame of the entry
    have hlast : (BitVec.ofNat 64 (e.base.toNat / 4096 + e.length.toNat / 4096 - 1)).toNat
        = e.base.toNat / 4096 + e.length.toNat / 4096 - 1 := by
      rw [BitVec.toNat_ofNat]
      omega
    have hlt := h (BitVec.ofNat 64 (e.base.toNat / 4096 + e.length.toNat / 4096 - 1)) (by
      rw [mem_unsetFrames, mem_usableFrames, hlast]
      refine ⟨e, he, Finset.mem_Ico.mpr ?_⟩
      unfold frameOf
      omega)
    omega
  · intro h frame hframe
    obtain ⟨e, he, hin⟩ := mem_usableFrames.mp (mem_unsetFrames.mp hframe)
    rw [MmapEntry.frames, Finset.mem_Ico, frameOf, frameOf] at hin
    have hend := h e he (by omega)
    omega

/-- **Writes of `pmm_init`.**  They stay inside the bitmap if and only if it does not come to
the second pass or every usable entry ends within the memory that `bitmapBytes` bytes
describe, from address 0 on. -/
theorem writes_in_bitmap_iff [LawfulByteStore β] (bytesAt : U64 → β) (hmap : WellFormed mmap) :
    (∀ s fb, pmmInit (recorded bytesAt) 0 mmap = some (s, fb) →
      (∀ frame ∈ unsetFrames mmap, frame.toNat < 8 * s.bitmapSize.toNat) ∧
      ∀ i ∈ s.bitmap.writes, i < s.bitmapSize.toNat) ↔
    Hangs mmap ∨ ∀ e ∈ usable mmap, 0 < e.length.toNat →
      e.base.toNat + e.length.toNat ≤ 32768 * bitmapBytes mmap := by
  rw [← usableFrames_lt_iff hmap, ← pmmInit_eq_none_iff (recorded bytesAt)]
  constructor
  · intro h
    cases hinit : pmmInit (recorded bytesAt) 0 mmap with
    | none => exact Or.inl rfl
    | some r => exact Or.inr ((pmmInit_spec hinit).2.1 ▸ (h r.1 r.2 hinit).1)
  · rintro (hnone | hlt) s fb hinit
    · rw [hnone] at hinit
      cases hinit
    · rw [(pmmInit_spec hinit).2.1]
      refine ⟨hlt, fun i hi => ?_⟩
      rcases (mem_writes_pmmInit hinit i).mp hi with hfill | ⟨frame, hframe, rfl⟩
      · exact hfill
      · have := hlt frame hframe
        omega

/-- Sixteen usable pages from frame 0 on. -/
theorem writes_in_bitmap_lowMap :
    ∃ s fb, pmmInit (recorded fun _ => (fun _ => 0 : ℕ → U8)) 0 lowMap = some (s, fb) ∧
      ∀ i ∈ s.bitmap.writes, i < s.bitmapSize.toNat := by
  have hend : ∀ e ∈ usable lowMap, 0 < e.length.toNat →
      e.base.toNat + e.length.toNat ≤ 32768 * bitmapBytes lowMap := by decide
  exact ⟨_, _, rfl,
    ((writes_in_bitmap_iff (fun _ => fun _ => 0) lowMap_wellFormed).mpr (Or.inr hend) _ _ rfl).2⟩

/-- Eight usable pages at 4 GiB: the first frame has number 1048576, the bitmap 16 bits. -/
theorem writes_outside_bitmap :
    ¬ ∀ (bytesAt : U64 → ℕ → U8) (mmap : MemoryMap), WellFormed mmap →
      ∀ s fb, pmmInit (recorded bytesAt) 0 mmap = some (s, fb) →
        (∀ frame ∈ unsetFrames mmap, frame.toNat < 8 * s.bitmapSize.toNat) ∧
        ∀ i ∈ s.bitmap.writes, i < s.bitmapSize.toNat := by
  intro hclaim
  have hfirst := (hclaim (fun _ _ => 0) [⟨0x100000000, 0x8000, 1⟩]
    ⟨by decide, List.pairwise_singleton _ _⟩ _ _ rfl).1 0x100000 (by decide)
  exact absurd hfirst (by decide)

/-! ## Where the bitmap lies -/

/-- The length of the largest usable entry, `0` when there is none. -/
def largestLength (mmap : MemoryMap) : ℕ := (largestUsable mmap).elim 0 fun e => e.length.toNat

/-- **The bitmap fits.**  `pmm_init` hangs exactly if the largest usable entry is too short,
and otherwise the bitmap lies inside that entry. -/
structure Fits (mem : Mem) (mmap : MemoryMap) : Prop where
  hangs : pmmInit (bytesIn mem) 0 mmap = none ↔ largestLength mmap < bitmapBytes mmap
  inside : ∀ s fb, pmmInit (bytesIn mem) 0 mmap = some (s, fb) → ∃ e, largestUsable mmap = some e ∧
    e.base.toNat ≤ s.bitmap.base ∧
    s.bitmap.base + s.bitmapSize.toNat ≤ e.base.toNat + e.length.toNat

/-- The right test puts the bitmap in the right place. -/
theorem fits_of_hangs {mem : Mem}
    (h : pmmInit (bytesIn mem) 0 mmap = none ↔ largestLength mmap < bitmapBytes mmap) :
    Fits mem mmap := by
  refine ⟨h, fun s fb hinit => ?_⟩
  have hroom : ¬ largestLength mmap < bitmapBytes mmap := by
    rw [← h, hinit]
    exact Option.some_ne_none _
  obtain ⟨_, hsize, _⟩ := pmmInit_spec hinit
  rw [pmmInit_base hinit, hsize, largestBase]
  unfold largestLength at hroom
  cases hlargest : largestUsable mmap with
  | none =>
    rw [hlargest, Option.elim_none, bitmapBytes] at hroom
    omega
  | some e =>
    rw [hlargest, Option.elim_some] at hroom
    exact ⟨e, rfl, le_refl _, Nat.add_le_add_left (not_lt.mp hroom) _⟩

/-- **When the bitmap fits.**  The code tests the last entry of the map instead of the largest
usable one, so it is right if and only if the size of the bitmap does not separate the two. -/
theorem bitmap_fits_iff (mem : Mem) (entries : MemoryMap) (last : MmapEntry) :
    Fits mem (entries ++ [last]) ↔
      ¬ (min last.length.toNat (largestLength (entries ++ [last]))
            < bitmapBytes (entries ++ [last]) ∧
          bitmapBytes (entries ++ [last])
            ≤ max last.length.toNat (largestLength (entries ++ [last]))) := by
  have hangs : pmmInit (bytesIn mem) 0 (entries ++ [last]) = none ↔
      last.length.toNat < bitmapBytes (entries ++ [last]) := by
    rw [pmmInit_eq_none_iff, Hangs, List.getLast?_concat]
    simp
  constructor
  · intro h
    have hiff := hangs.symm.trans h.hangs
    omega
  · intro h
    refine fits_of_hangs (hangs.trans ?_)
    omega

/-- One usable page, then 256 MiB of something else: the bitmap needs 8193 bytes and is put
into the page. -/
theorem bitmap_does_not_fit :
    ¬ ∀ (mem : Mem) (entries : MemoryMap) (last : MmapEntry), Fits mem (entries ++ [last]) := by
  intro hclaim
  have hfits := hclaim (fun _ _ => 0) [⟨0x1000, 0x1000, 1⟩] ⟨0x100000000, 0x10000000, 2⟩
  have hangs := (pmmInit_eq_none_iff _ _).mp (hfits.hangs.mpr (by decide))
  exact absurd (hangs _ rfl) (by decide)

end Pmm
