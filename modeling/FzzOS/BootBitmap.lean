/-
# The frame manager after boot

`pmm_init` leaves a bitmap and a counter.  The bitmap is right: it has a clear bit for
every usable frame but frame 0.  The counter is made up for frame 0 whether or not that
frame was usable, so the two agree on some memory maps only.

* `boot_bitmap` : which bits are clear;
* `TrueCount` : what the counter should say;
* `boot_count_iff` : when it says it.
-/
import FzzOS.BitmapStorage

open ByteStore MemoryMap

namespace Pmm

variable {β : Type} [ByteStore β] [LawfulByteStore β] {bytesAt : U64 → β} {mmap : MemoryMap}
  {s : PmmInfo β} {fb : PmmToVmmInfo}

/-! ## The bitmap -/

/-- **The bitmap after boot.**  A bit is clear exactly if its frame is not frame 0 and lies
inside a usable entry. -/
theorem boot_bitmap (hmap : WellFormed mmap) (h : pmmInit bytesAt 0 mmap = some (s, fb))
    {k : ℕ} (hk : k < 8 * s.bitmapSize.toNat) :
    bit s.bitmap k = false ↔ k ≠ 0 ∧ ∃ e ∈ usable mmap, e.Holds k := by
  obtain ⟨_, hsize, _, hfree⟩ := pmmInit_spec h
  have hclear : bit s.bitmap k = false ↔ k ∈ freeFrames s := by
    rw [freeFrames, mem_clear]
    exact (and_iff_right hk).symm
  rw [hclear, hfree, freeAtBoot, Finset.mem_filter, mem_usableFrames_iff hmap, ← hsize]
  tauto

/-- Frame 5 of sixteen usable pages is free. -/
theorem boot_bitmap_lowMap :
    ∃ s fb, pmmInit (bytesIn fun _ _ => 0) 0 lowMap = some (s, fb) ∧
      (bit s.bitmap 5 = false ↔ 5 ≠ 0 ∧ ∃ e ∈ usable lowMap, e.Holds 5) :=
  ⟨_, _, rfl, boot_bitmap lowMap_wellFormed rfl (by decide)⟩

/-! ## The counter -/

/-- `pmm_get_free_memory`. -/
def pmmGetFreeMemory (s : PmmInfo β) : U64 := (s.totalpages - s.usedpages) * 4096

/-- The counter counts the clear bits, and they are the frames still to be handed out. -/
structure TrueCount (s : PmmInfo β) : Prop where
  used_le : s.usedpages.toNat ≤ s.totalpages.toNat
  count : s.totalpages.toNat - s.usedpages.toNat = (freeFrames s).card
  memory : (pmmGetFreeMemory s).toNat = 4096 * (freeFrames s).card
  handedOut : ∀ k, HandedOut s k ↔ k ∈ freeFrames s

/-- As many elements as there are is all of them. -/
theorem firstFew_card (free : Finset ℕ) : firstFew free free.card = free := by
  refine Finset.filter_true_of_mem fun k hk => Finset.card_lt_card ?_
  refine Finset.filter_ssubset.mpr ⟨k, hk, lt_irrefl k⟩

/-- If all usable frames have a bit, only frame 0 is kept back. -/
theorem freeAtBoot_eq_erase (hlt : ∀ k ∈ usableFrames mmap, k < 8 * bitmapBytes mmap) :
    freeAtBoot mmap = (usableFrames mmap).erase 0 := by
  ext k
  rw [freeAtBoot, Finset.mem_filter, Finset.mem_erase]
  constructor
  · rintro ⟨hk, hne, _⟩
    exact ⟨hne, hk⟩
  · rintro ⟨hne, hk⟩
    exact ⟨hk, hne, hlt k hk⟩

/-- The free frames after boot, if all usable ones have a bit. -/
theorem freeFrames_of_fit (hmap : WellFormed mmap) (h : pmmInit bytesAt 0 mmap = some (s, fb))
    (hlt : ∀ e ∈ usable mmap, ∀ k, e.Holds k → k < 8 * s.bitmapSize.toNat) :
    freeFrames s = (usableFrames mmap).erase 0 := by
  obtain ⟨_, hsize, _, hfree⟩ := pmmInit_spec h
  rw [hfree]
  refine freeAtBoot_eq_erase fun k hk => ?_
  obtain ⟨e, he, hin⟩ := (mem_usableFrames_iff hmap).mp hk
  exact hsize ▸ hlt e he k hin

/-- The used pages after boot, as a number. -/
theorem toNat_usedpages (hmap : WellFormed mmap) (h : pmmInit bytesAt 0 mmap = some (s, fb)) :
    s.usedpages.toNat = if usablePages mmap ≤ totalPages mmap + 1
      then totalPages mmap + 1 - usablePages mmap
      else 2 ^ 64 + totalPages mmap + 1 - usablePages mmap := by
  obtain ⟨_, _, hused, _⟩ := pmmInit_spec h
  have hT := totalPages_lt mmap
  have hU := usablePages_le hmap
  rw [hused]
  simp only [BitVec.toNat_add, BitVec.toNat_sub, BitVec.toNat_ofNat, BitVec.ofNat_eq_ofNat]
  split_ifs <;> omega

/-- **The counter after boot.**  It is true if and only if frame 0 was usable, which is the
one it takes back, and the lengths of the map do not wrap around. -/
theorem boot_count_iff (hmap : WellFormed mmap) (h : pmmInit bytesAt 0 mmap = some (s, fb))
    (hlt : ∀ e ∈ usable mmap, ∀ k, e.Holds k → k < 8 * s.bitmapSize.toNat) :
    TrueCount s ↔ (∃ e ∈ usable mmap, e.Holds 0) ∧ usablePages mmap ≤ totalPages mmap + 1 := by
  obtain ⟨htotal, hsize, _, hfree⟩ := pmmInit_spec h
  have hused := toNat_usedpages hmap h
  have hT := totalPages_lt mmap
  have hU := usablePages_le hmap
  have hcard := card_usableFrames hmap
  have hF := freeFrames_of_fit hmap h hlt
  rw [← mem_usableFrames_iff hmap]
  constructor
  · intro ht
    have hle := ht.used_le
    have hcount := ht.count
    have hwrap : usablePages mmap ≤ totalPages mmap + 1 := by
      by_contra hgt
      rw [if_neg hgt] at hused
      omega
    refine ⟨?_, hwrap⟩
    -- otherwise the counter is one short
    by_contra hzero
    rw [hF, Finset.erase_eq_of_notMem hzero, hcard] at hcount
    rw [if_pos hwrap] at hused
    omega
  · rintro ⟨hzero, hwrap⟩
    rw [if_pos hwrap] at hused
    have hpos : 0 < usablePages mmap := hcard ▸ Finset.card_pos.mpr ⟨0, hzero⟩
    have hcardF : (freeFrames s).card = usablePages mmap - 1 := by
      rw [hF, Finset.card_erase_of_mem hzero, hcard]
    have hcount : s.totalpages.toNat - s.usedpages.toNat = (freeFrames s).card := by omega
    refine ⟨by omega, hcount, ?_, fun k => ?_⟩
    · rw [pmmGetFreeMemory, hcardF]
      simp only [BitVec.toNat_mul, BitVec.toNat_sub, BitVec.ofNat_eq_ofNat, BitVec.toNat_ofNat]
      omega
    · rw [handedOut_iff (fun k hk => freeAtBoot_lt (hfree ▸ hk))
        (hfree ▸ zero_notMem_freeAtBoot mmap), hcount, firstFew_card]

/-- Sixteen usable pages from frame 0 on are counted right. -/
theorem boot_count_lowMap :
    ∃ s fb, pmmInit (bytesIn fun _ _ => 0) 0 lowMap = some (s, fb) ∧ TrueCount s := by
  exact ⟨_, _, rfl, (boot_count_iff lowMap_wellFormed rfl (lt_of_usable_end (by decide))).mpr
    ⟨⟨⟨0, 0x10000, 1⟩, by decide, by unfold MmapEntry.Holds; decide⟩, by decide⟩⟩

/-- Eight usable pages from frame 1 on: eight clear bits, and a counter of seven. -/
theorem boot_count_short :
    ¬ ∀ (bytesAt : U64 → ℕ → U8) (mmap : MemoryMap) (s : PmmInfo (ℕ → U8)) (fb : PmmToVmmInfo),
      WellFormed mmap → pmmInit bytesAt 0 mmap = some (s, fb) →
      (∀ e ∈ usable mmap, ∀ k, e.Holds k → k < 8 * s.bitmapSize.toNat) → TrueCount s := by
  intro hclaim
  have hcount := (hclaim (fun _ _ => 0) [⟨0x1000, 0x8000, 1⟩] _ _
    ⟨by decide, List.pairwise_singleton _ _⟩ rfl (lt_of_usable_end (by decide))).count
  exact absurd hcount (by decide)

end Pmm
