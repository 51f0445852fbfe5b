/-
# Does the allocator hand out its own bitmap?

`pmm_init` puts the bitmap at the base of the largest usable segment and then clears the
bit of every usable frame, those of the bitmap included.  Only the `NULL` frame is taken
back afterwards.

* `handedOut_iff` : the frames that `pmm_allocpage` returns in some run are the free
  frames of small rank, as far as the counter `usedpages` lets the allocator go;
* `bitmap_never_handedOut_iff` : the bitmap storage stays out of reach exactly when
  none of its frames is among those.
-/
import FzzOS.Memory
import FzzOS.PmmInit

open ByteStore MemoryMap

namespace Pmm

variable {β : Type} [ByteStore β] [LawfulByteStore β]

/-! ## The frames that are ever handed out -/

/-- Some run from `s₀` ends in an allocation of frame `k`. -/
def HandedOut (s₀ : PmmInfo β) (k : ℕ) : Prop :=
  ∃ s held, Run s₀ s held ∧ (pmmAllocpage s).1 ≠ 0 ∧ frameOf (pmmAllocpage s).1 = k

/-- The first `n` elements of a finite set of numbers. -/
def firstFew (free : Finset ℕ) (n : ℕ) : Finset ℕ :=
  free.filter fun k => (free.filter (· < k)).card < n

/-- Allocating over and over reaches every frame the counter allows. -/
theorem exists_run_alloc {s₀ : PmmInfo β} {k : ℕ} (hk64 : k < 2 ^ 64) :
    ∀ (n : ℕ) {s : PmmInfo β} {held : List U64}, Run s₀ s held → k ∈ freeFrames s →
      ((freeFrames s).filter (· < k)).card = n →
      s.usedpages.toNat + n < s.totalpages.toNat →
      ∃ s' held', Run s₀ s' held' ∧ (pmmAllocpage s').1 = frameAddr k := by
  intro n
  induction n with
  | zero =>
    intro s held hrun hk hcard hused
    have hguard : ¬ s.usedpages ≥ s.totalpages := by bv_omega
    have hmin : ∀ j ∈ freeFrames s, k ≤ j := by
      intro j hj
      by_contra hlt
      have hmem : j ∈ (freeFrames s).filter (· < k) := Finset.mem_filter.mpr ⟨hj, by omega⟩
      rw [Finset.card_eq_zero.mp hcard] at hmem
      exact absurd hmem (Finset.notMem_empty j)
    exact ⟨s, held, hrun, by rw [pmmAllocpage_of_least hguard hk hmin]⟩
  | succ n ih =>
    intro s held hrun hk hcard hused
    have hguard : ¬ s.usedpages ≥ s.totalpages := by bv_omega
    obtain ⟨a, ha, hmin⟩ := Finset.exists_min_image (freeFrames s) id ⟨k, hk⟩
    -- some free frame lies below `k`, so the least one does
    have hak : a < k := by
      have hne : ((freeFrames s).filter (· < k)).Nonempty := by
        rw [← Finset.card_pos]
        omega
      obtain ⟨j, hj⟩ := hne
      obtain ⟨hj, hlt⟩ := Finset.mem_filter.mp hj
      exact lt_of_le_of_lt (hmin j hj) hlt
    have halloc := pmmAllocpage_of_least hguard ha hmin
    have hfree : freeFrames (pmmAllocpage s).2 = (freeFrames s).erase a := by
      rw [halloc]
      exact freeFrames_bitmapSet s _ (by omega)
    refine ih hrun.alloc ?_ ?_ ?_
    · rw [hfree, Finset.mem_erase]
      exact ⟨by omega, hk⟩
    · have hmem : a ∈ (freeFrames s).filter (· < k) := Finset.mem_filter.mpr ⟨ha, hak⟩
      rw [hfree, Finset.filter_erase, Finset.card_erase_of_mem hmem, hcard,
        Nat.add_sub_cancel]
    · have hinc := toNat_add_one hguard
      rw [halloc]
      show (s.usedpages + 1).toNat + n < s.totalpages.toNat
      rw [hinc]
      omega

/-- **The reach of the allocator.**  Whatever is freed in between, the frames handed out
are the first free frames, as many as the counter leaves pages. -/
theorem handedOut_iff {s₀ : PmmInfo β} (hlt : ∀ k ∈ freeFrames s₀, k < 2 ^ 52)
    (hzero : 0 ∉ freeFrames s₀) {k : ℕ} :
    HandedOut s₀ k ↔
      k ∈ firstFew (freeFrames s₀) (s₀.totalpages.toNat - s₀.usedpages.toNat) := by
  unfold firstFew
  rw [Finset.mem_filter]
  constructor
  · rintro ⟨s, held, hrun, hne, rfl⟩
    obtain ⟨frames, rfl, h⟩ := run_refines hlt hzero hrun
    obtain ⟨a, ha, hmin, hguard, heq⟩ := pmmAllocpage_of_ne_zero hne
    have ha₀ := h.owns.mem_of_free ha
    rw [heq, frameOf_frameAddr (hlt a ha₀)]
    refine ⟨ha₀, ?_⟩
    have hrank : ((freeFrames s₀).filter (· < a)).card ≤ frames.length := h.owns.rank_le hmin
    have hused := h.used
    have htotal := congrArg BitVec.toNat h.totalpages
    rw [ge_iff_le, BitVec.le_def] at hguard
    omega
  · rintro ⟨hk, hrank⟩
    have hk52 := hlt k hk
    obtain ⟨s, held, hrun, haddr⟩ :=
      exists_run_alloc (by omega) _ (Run.start : Run s₀ s₀ []) hk rfl (by omega)
    have hk0 : k ≠ 0 := fun h0 => hzero (h0 ▸ hk)
    refine ⟨s, held, hrun, ?_, ?_⟩
    · rw [haddr]
      exact frameAddr_ne_zero hk52 hk0
    · rw [haddr, frameOf_frameAddr hk52]

/-! ## The bitmap storage -/

/-- Frame `k` overlaps the `size` bytes at physical address `base`. -/
def Overlaps (base size k : ℕ) : Prop := 4096 * k < base + size ∧ base < 4096 * (k + 1)

instance (base size k : ℕ) : Decidable (Overlaps base size k) :=
  inferInstanceAs (Decidable (_ ∧ _))

/-- The pages the counter leaves to be allocated after `pmm_init`: one less than the
usable pages, for the `NULL` page, unless the lengths of the map do not fit 64 bits. -/
def headroom (mmap : MemoryMap) : ℕ :=
  if usablePages mmap ≤ totalPages mmap + 1 then usablePages mmap - 1 else 0

theorem totalpages_sub_usedpages {bytesAt : U64 → β} {mmap : MemoryMap} {s : PmmInfo β}
    {fb : PmmToVmmInfo} (hmap : WellFormed mmap)
    (h : pmmInit bytesAt 0 mmap = some (s, fb)) :
    s.totalpages.toNat - s.usedpages.toNat = headroom mmap := by
  obtain ⟨htotal, _, hused, _⟩ := pmmInit_spec h
  have hT := totalPages_lt mmap
  have hU := usablePages_le hmap
  rw [htotal, hused, headroom]
  simp only [BitVec.toNat_add, BitVec.toNat_sub, BitVec.toNat_ofNat, BitVec.ofNat_eq_ofNat]
  split_ifs <;> omega

theorem freeAtBoot_lt {mmap : MemoryMap} {k : ℕ} (hk : k ∈ freeAtBoot mmap) : k < 2 ^ 52 := by
  have hbound := (Finset.mem_filter.mp hk).2.2
  have hT := totalPages_lt mmap
  unfold bitmapBytes at hbound
  omega

theorem zero_notMem_freeAtBoot (mmap : MemoryMap) : 0 ∉ freeAtBoot mmap := fun h =>
  (Finset.mem_filter.mp h).2.1 rfl

/-- The bitmap as `pmm_init` addresses it in physical memory: through the higher half. -/
def bytesIn (mem : Mem) (addr : U64) : Window := ⟨mem, (hhDataToPhys addr).toNat⟩

theorem base_fillBitmap (w : Window) (n : ℕ) : (fillBitmap w n).base = w.base := by
  unfold fillBitmap
  induction n with
  | zero => rfl
  | succ n ih =>
    rw [List.range_succ, List.foldl_append, List.foldl_cons, List.foldl_nil]
    exact ih

theorem base_unsetPages (s : PmmInfo Window) (align : U64) (pages : ℕ) :
    (unsetPages align pages s).bitmap.base = s.bitmap.base := by
  induction pages generalizing s align with
  | zero => rfl
  | succ n ih => exact ih _ _

theorem base_foldl_unsetEntry (mmap : MemoryMap) (s : PmmInfo Window) :
    (mmap.foldl unsetEntry s).bitmap.base = s.bitmap.base := by
  induction mmap generalizing s with
  | nil => rfl
  | cons e es ih =>
    rw [List.foldl_cons, ih, unsetEntry]
    split_ifs
    · exact base_unsetPages s _ _
    · rfl

/-- The bitmap lies at the base of the largest usable segment. -/
theorem pmmInit_base {mem : Mem} {mmap : MemoryMap} {s : PmmInfo Window} {fb : PmmToVmmInfo}
    (h : pmmInit (bytesIn mem) 0 mmap = some (s, fb)) :
    s.bitmap.base = (largestBase mmap).toNat := by
  obtain ⟨last, _, h⟩ := Option.bind_eq_some_iff.mp h
  simp only at h
  split_ifs at h with hlarge
  simp only [Option.some.injEq, Prod.mk.injEq] at h
  obtain ⟨rfl, rfl⟩ := h
  have hbase := base_foldl_unsetEntry mmap
    (populate (bytesIn mem) (mmap.foldl scanEntry ⟨0, ⟨0, 0⟩, 0, 0⟩))
  refine hbase.trans ?_
  rw [populate, base_fillBitmap, bytesIn, hhDataToPhys_physToHhData, (scan_largest mmap 0).1]

/-- **When the bitmap is safe.**  After `pmm_init` no run returns a frame of the bitmap
storage if and only if no such frame is among the first `headroom` nonzero usable frames
that have a bit. -/
theorem bitmap_never_handedOut_iff {mem : Mem} {mmap : MemoryMap} {s : PmmInfo Window}
    {fb : PmmToVmmInfo} (hmap : WellFormed mmap)
    (h : pmmInit (bytesIn mem) 0 mmap = some (s, fb)) :
    (∀ s' held, Run s s' held → (pmmAllocpage s').1 ≠ 0 →
        ¬ Overlaps s.bitmap.base s.bitmapSize.toNat (frameOf (pmmAllocpage s').1)) ↔
      ∀ k ∈ firstFew (freeAtBoot mmap) (headroom mmap),
        ¬ Overlaps (largestBase mmap).toNat (bitmapBytes mmap) k := by
  obtain ⟨_, hsize, _, hfree⟩ := pmmInit_spec h
  have hlt : ∀ k ∈ freeFrames s, k < 2 ^ 52 := fun k hk => freeAtBoot_lt (hfree ▸ hk)
  have hzero : 0 ∉ freeFrames s := hfree ▸ zero_notMem_freeAtBoot mmap
  rw [pmmInit_base h, hsize, ← totalpages_sub_usedpages hmap h, ← hfree]
  constructor
  · intro hsafe k hk
    obtain ⟨s', held, hrun, hne, rfl⟩ := (handedOut_iff hlt hzero).mpr hk
    exact hsafe s' held hrun hne
  · intro hsafe s' held hrun hne
    exact hsafe _ ((handedOut_iff hlt hzero).mp ⟨s', held, hrun, hne, rfl⟩)

/-- Sixteen usable pages from address 0 on. -/
def lowMap : MemoryMap := [⟨0, 0x10000, 1⟩]

theorem lowMap_wellFormed : WellFormed lowMap where
  aligned := by decide
  disjoint := List.pairwise_singleton _ _

/-- On `lowMap` the bitmap shares the `NULL` frame and is safe. -/
theorem bitmap_safe_on_lowMap :
    ∃ s fb, pmmInit (bytesIn fun _ _ => 0) 0 lowMap = some (s, fb) ∧
      ∀ s' held, Run s s' held → (pmmAllocpage s').1 ≠ 0 →
        ¬ Overlaps s.bitmap.base s.bitmapSize.toNat (frameOf (pmmAllocpage s').1) :=
  ⟨_, _, rfl, (bitmap_never_handedOut_iff lowMap_wellFormed rfl).mpr (by decide)⟩

/-- Eight usable pages from `0x1000` on: the first page handed out is the bitmap's. -/
theorem bitmap_handedOut_first :
    ¬ ∀ (mem : Mem) (mmap : MemoryMap) (s : PmmInfo Window) (fb : PmmToVmmInfo),
      WellFormed mmap → pmmInit (bytesIn mem) 0 mmap = some (s, fb) →
      ∀ s' held, Run s s' held → (pmmAllocpage s').1 ≠ 0 →
        ¬ Overlaps s.bitmap.base s.bitmapSize.toNat (frameOf (pmmAllocpage s').1) := by
  intro hclaim
  refine hclaim (fun _ _ => 0) [⟨0x1000, 0x8000, 1⟩] _ _
    ⟨by decide, List.pairwise_singleton _ _⟩ rfl _ _ Run.start ?_ ?_
  · decide
  · decide

end Pmm
