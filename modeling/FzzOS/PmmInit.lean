/-
# The physical memory manager: initialisation

`pmm_init` reads the memory map twice.  The first pass adds up the memory and finds the
largest usable entry, at whose base the bitmap is put; the second clears the bit of every
usable frame.  `pmmInit_spec` says what state it leaves, in terms of the map alone.
-/
import FzzOS.MemoryMap
import FzzOS.PmmAlloc

open ByteStore MemoryMap

namespace Pmm

variable {β : Type} [ByteStore β]

/-! ## The function -/

/-- `struct pmm_to_vmm_info`, as far as it is written. -/
structure PmmToVmmInfo where
  fbBase : U64
  fbSize : U64

/-- The variables of the first pass. -/
structure Scan where
  totalmem : U64
  fb : PmmToVmmInfo
  largestSegmentBase : U64
  largestSegmentSize : U64

/-- One round of the first pass. -/
def scanEntry (st : Scan) (e : MmapEntry) : Scan :=
  let st := { st with totalmem := st.totalmem + e.length }
  -- the framebuffer's entry is remembered for the page tables
  let st := if e.type = 0x1002 then { st with fb := ⟨e.base, e.length⟩ } else st
  if e.type ≠ 1 then st
  else if e.length > st.largestSegmentSize then
    { st with largestSegmentBase := e.base, largestSegmentSize := e.length }
  else st

/-- Set all bitmap bits to 1. -/
def fillBitmap (bitmap : β) (size : ℕ) : β :=
  (List.range size).foldl (fun b i => store b i 0xff) bitmap

/-- The inner loop of the second pass. -/
def unsetPages (align : U64) : ℕ → PmmInfo β → PmmInfo β
  | 0, s => s
  | pages + 1, s => unsetPages (align + 1) pages
      { s with bitmap := bitmapUnset s.bitmap align, usedpages := s.usedpages - 1 }

/-- One round of the second pass. -/
def unsetEntry (s : PmmInfo β) (e : MmapEntry) : PmmInfo β :=
  if e.type = 1 then unsetPages (e.base / 4096) (e.length / 4096).toNat s else s

/-- The state between the two passes: the bitmap at the base of the largest segment, every
bit set and every page used. -/
def populate (bytesAt : U64 → β) (scan : Scan) : PmmInfo β where
  totalmem := scan.totalmem
  totalpages := scan.totalmem / 4096
  usedpages := scan.totalmem / 4096
  bitmapSize := scan.totalmem / 4096 / 8 + 1
  bitmap := fillBitmap (bytesAt (physToHhData scan.largestSegmentBase))
    (scan.totalmem / 4096 / 8 + 1).toNat

/-- `pmm_init`, from the memory total found in `pmm_info`; `bytesAt` gives the bytes at an
address.  `none` when it does not return: it hangs on a bitmap too large for the entry the
first pass stopped at, and it dereferences `NULL` on a map without entries. -/
def pmmInit (bytesAt : U64 → β) (totalmem : U64) (mmap : MemoryMap) :
    Option (PmmInfo β × PmmToVmmInfo) :=
  mmap.getLast?.bind fun currentEntry =>
    let scan := mmap.foldl scanEntry ⟨totalmem, ⟨0, 0⟩, 0, 0⟩
    if scan.totalmem / 4096 / 8 + 1 > currentEntry.length then none
    else
      let info := mmap.foldl unsetEntry (populate bytesAt scan)
      -- the NULL page is made unavailable
      some ({ info with
          bitmap := bitmapSet info.bitmap 0, usedpages := info.usedpages + 1 }, scan.fb)

/-! ## The first pass -/

theorem scanEntry_totalmem (st : Scan) (e : MmapEntry) :
    (scanEntry st e).totalmem = st.totalmem + e.length := by
  simp only [scanEntry]
  split_ifs <;> rfl

theorem scanEntry_largest (st : Scan) (e : MmapEntry) :
    (scanEntry st e).largestSegmentBase
        = (if e.type = 1 ∧ st.largestSegmentSize < e.length then e.base
          else st.largestSegmentBase) ∧
      (scanEntry st e).largestSegmentSize
        = (if e.type = 1 ∧ st.largestSegmentSize < e.length then e.length
          else st.largestSegmentSize) := by
  simp only [scanEntry]
  split_ifs <;> simp_all

/-- The first pass adds up all lengths. -/
theorem scan_totalmem (mmap : MemoryMap) (st : Scan) :
    (mmap.foldl scanEntry st).totalmem.toNat
      = (st.totalmem.toNat + (mmap.map fun e => e.length.toNat).sum) % 2 ^ 64 := by
  induction mmap generalizing st with
  | nil =>
    rw [List.foldl_nil, List.map_nil, List.sum_nil, Nat.add_zero, Nat.mod_eq_of_lt]
    exact st.totalmem.isLt
  | cons e es ih =>
    rw [List.foldl_cons, ih, scanEntry_totalmem, BitVec.toNat_add, List.map_cons, List.sum_cons]
    omega

/-- What the first pass adds up, from the zeroed state. -/
theorem scan_zero_totalmem (mmap : MemoryMap) :
    (mmap.foldl scanEntry ⟨0, ⟨0, 0⟩, 0, 0⟩).totalmem.toNat
      = (mmap.map fun e => e.length.toNat).sum % 2 ^ 64 := by
  have hmem := scan_totalmem mmap ⟨0, ⟨0, 0⟩, 0, 0⟩
  rwa [show (0 : U64).toNat = 0 from rfl, Nat.zero_add] at hmem

/-- The segment the first pass remembers is the first of the largest usable ones. -/
theorem scan_largest (mmap : MemoryMap) (totalmem : U64) :
    (mmap.foldl scanEntry ⟨totalmem, ⟨0, 0⟩, 0, 0⟩).largestSegmentBase = largestBase mmap ∧
      (mmap.foldl scanEntry ⟨totalmem, ⟨0, 0⟩, 0, 0⟩).largestSegmentSize.toNat
        = (largestUsable mmap).elim 0 fun e => e.length.toNat := by
  induction mmap using List.reverseRecOn with
  | nil => exact ⟨rfl, rfl⟩
  | append_singleton es e ih =>
    obtain ⟨hbase, hsize⟩ := ih
    rw [List.foldl_append, List.foldl_cons, List.foldl_nil]
    obtain ⟨hbase', hsize'⟩ :=
      scanEntry_largest (es.foldl scanEntry ⟨totalmem, ⟨0, 0⟩, 0, 0⟩) e
    have hiff : (e.type = 1 ∧
        (es.foldl scanEntry ⟨totalmem, ⟨0, 0⟩, 0, 0⟩).largestSegmentSize < e.length) ↔
        (e.type = 1 ∧ (largestUsable es).elim 0 (fun c => c.length.toNat) < e.length.toNat) := by
      rw [BitVec.lt_def, hsize]
    rw [hbase', hsize', largestBase, largestUsable_concat]
    by_cases h : e.type = 1 ∧
        (largestUsable es).elim 0 (fun c => c.length.toNat) < e.length.toNat
    · rw [if_pos (hiff.mpr h), if_pos (hiff.mpr h), if_pos h]
      exact ⟨rfl, rfl⟩
    · rw [if_neg fun hc => h (hiff.mp hc), if_neg fun hc => h (hiff.mp hc), if_neg h]
      exact ⟨hbase, hsize⟩

/-! ## The second pass -/

variable [LawfulByteStore β]

theorem load_fillBitmap (bitmap : β) (size k : ℕ) :
    load (fillBitmap bitmap size) k = if k < size then 0xff else load bitmap k := by
  unfold fillBitmap
  induction size with
  | zero => rfl
  | succ n ih =>
    rw [List.range_succ, List.foldl_append, List.foldl_cons, List.foldl_nil,
      LawfulByteStore.load_store, ih]
    rcases lt_trichotomy k n with h | rfl | h
    · rw [if_neg (by omega), if_pos h, if_pos (by omega)]
    · rw [if_pos rfl, if_pos (by omega)]
    · rw [if_neg (by omega), if_neg (by omega), if_neg (by omega)]

/-- After the fill every bit of the bitmap is set. -/
theorem bit_fillBitmap (bitmap : β) {size k : ℕ} (hk : k < 8 * size) :
    bit (fillBitmap bitmap size) k = true := by
  have hff : ∀ j < 8, (0xff#8).getLsbD j = true := by decide
  rw [bit, load_fillBitmap, if_pos (by omega)]
  exact hff _ (Nat.mod_lt k (by decide))

/-- A run of pages: its bits are cleared and its pages no longer counted as used. -/
theorem unsetPages_spec (s : PmmInfo β) (align : U64) (pages : ℕ)
    (hlt : align.toNat + pages < 2 ^ 64) :
    (unsetPages align pages s).usedpages = s.usedpages - BitVec.ofNat 64 pages ∧
      (unsetPages align pages s).totalpages = s.totalpages ∧
      (unsetPages align pages s).bitmapSize = s.bitmapSize ∧
      ∀ k, bit (unsetPages align pages s).bitmap k
        = (bit s.bitmap k && !decide (k ∈ Finset.Ico align.toNat (align.toNat + pages))) := by
  induction pages generalizing s align with
  | zero =>
    refine ⟨?_, rfl, rfl, fun k => ?_⟩
    · simp [unsetPages]
    · simp [unsetPages]
  | succ n ih =>
    have hnext : (align + 1).toNat = align.toNat + 1 := by bv_omega
    obtain ⟨hused, htotal, hsize, hbit⟩ := ih
      { s with bitmap := bitmapUnset s.bitmap align, usedpages := s.usedpages - 1 }
      (align + 1) (by omega)
    rw [unsetPages]
    refine ⟨?_, htotal, hsize, fun k => ?_⟩
    · rw [hused, BitVec.ofNat_add]
      bv_omega
    · rw [hbit k, bit_bitmapUnset, hnext, Bool.and_assoc, ← Bool.not_or, ← Bool.decide_or]
      congr 3
      rw [Finset.mem_Ico, Finset.mem_Ico]
      exact propext (by omega)

/-- The second pass clears the usable frames and counts off their pages. -/
theorem foldl_unsetEntry_spec (mmap : MemoryMap) (s : PmmInfo β) :
    (mmap.foldl unsetEntry s).usedpages = s.usedpages - BitVec.ofNat 64 (usablePages mmap) ∧
      (mmap.foldl unsetEntry s).totalpages = s.totalpages ∧
      (mmap.foldl unsetEntry s).bitmapSize = s.bitmapSize ∧
      ∀ k, bit (mmap.foldl unsetEntry s).bitmap k
        = (bit s.bitmap k && !decide (k ∈ usableFrames mmap)) := by
  induction mmap generalizing s with
  | nil =>
    refine ⟨?_, rfl, rfl, fun k => ?_⟩
    · simp [usablePages, usable]
    · simp [usableFrames, usable]
  | cons e es ih =>
    rw [List.foldl_cons]
    by_cases htype : e.type = 1
    · have hstep : unsetEntry s e = unsetPages (e.base / 4096) (e.length / 4096).toNat s :=
        if_pos htype
      have husable : usable (e :: es) = e :: usable es := List.filter_cons_of_pos (by simpa)
      have hpages : (e.length / 4096).toNat = frameOf e.length := BitVec.toNat_udiv
      have halign : (e.base / 4096).toNat = frameOf e.base := BitVec.toNat_udiv
      have hb := frameOf_lt e.base
      have hl := frameOf_lt e.length
      obtain ⟨hused', htotal', hsize', hbit'⟩ := unsetPages_spec s
        (e.base / 4096) (e.length / 4096).toNat (by omega)
      rw [hstep]
      obtain ⟨hused, htotal, hsize, hbit⟩ :=
        ih (unsetPages (e.base / 4096) (e.length / 4096).toNat s)
      refine ⟨?_, htotal.trans htotal', hsize.trans hsize', fun k => ?_⟩
      · rw [hused, hused', usablePages, usablePages, husable, List.map_cons, List.sum_cons,
          hpages, BitVec.ofNat_add]
        bv_omega
      · rw [hbit k, hbit' k, halign, hpages, usableFrames, usableFrames, husable,
          List.foldr_cons, Bool.and_assoc, ← Bool.not_or, ← Bool.decide_or]
        congr 3
        exact propext Finset.mem_union.symm
    · have hstep : unsetEntry s e = s := if_neg htype
      have husable : usable (e :: es) = usable es := List.filter_cons_of_neg (by simpa)
      rw [hstep, usablePages, usableFrames, husable]
      exact ih s

/-! ## What `pmm_init` leaves -/

/-- The frames the bitmap describes as free after `pmm_init`. -/
def freeAtBoot (mmap : MemoryMap) : Finset ℕ :=
  (usableFrames mmap).filter fun k => k ≠ 0 ∧ k < 8 * bitmapBytes mmap

omit [LawfulByteStore β] in
/-- The sizes computed from the first pass. -/
theorem toNat_sizes {mmap : MemoryMap} {scan : Scan}
    (hmem : scan.totalmem.toNat = (mmap.map fun e => e.length.toNat).sum % 2 ^ 64) :
    (scan.totalmem / 4096).toNat = totalPages mmap ∧
      (scan.totalmem / 4096 / 8 + 1).toNat = bitmapBytes mmap := by
  have htotal : (scan.totalmem / 4096).toNat = totalPages mmap := by
    refine (BitVec.toNat_udiv).trans ?_
    rw [hmem, totalPages]
    rfl
  have hlt := totalPages_lt mmap
  have hdiv : (scan.totalmem / 4096 / 8).toNat = totalPages mmap / 8 := by
    refine (BitVec.toNat_udiv).trans ?_
    rw [htotal]
    rfl
  refine ⟨htotal, ?_⟩
  rw [bitmapBytes, ← hdiv]
  bv_omega

theorem populate_spec (bytesAt : U64 → β) {mmap : MemoryMap} {scan : Scan}
    (hmem : scan.totalmem.toNat = (mmap.map fun e => e.length.toNat).sum % 2 ^ 64) :
    (populate bytesAt scan).totalpages.toNat = totalPages mmap ∧
      (populate bytesAt scan).usedpages = BitVec.ofNat 64 (totalPages mmap) ∧
      (populate bytesAt scan).bitmapSize.toNat = bitmapBytes mmap ∧
      ∀ k < 8 * bitmapBytes mmap, bit (populate bytesAt scan).bitmap k = true := by
  obtain ⟨htotal, hsize⟩ := toNat_sizes hmem
  refine ⟨htotal, ?_, hsize, fun k hk => bit_fillBitmap _ (by rw [hsize]; exact hk)⟩
  rw [← htotal, BitVec.ofNat_toNat, BitVec.setWidth_eq]
  rfl

/-- **The state after `pmm_init`**, run from the zeroed `pmm_info`. -/
theorem pmmInit_spec {bytesAt : U64 → β} {mmap : MemoryMap} {s : PmmInfo β}
    {fb : PmmToVmmInfo} (h : pmmInit bytesAt 0 mmap = some (s, fb)) :
    s.totalpages.toNat = totalPages mmap ∧ s.bitmapSize.toNat = bitmapBytes mmap ∧
      s.usedpages
        = BitVec.ofNat 64 (totalPages mmap) - BitVec.ofNat 64 (usablePages mmap) + 1 ∧
      freeFrames s = freeAtBoot mmap := by
  obtain ⟨last, _, h⟩ := Option.bind_eq_some_iff.mp h
  obtain ⟨htotal, hused, hsize, hfull⟩ := populate_spec bytesAt (scan_zero_totalmem mmap)
  obtain ⟨hused₂, htotal₂, hsize₂, hbit₂⟩ := foldl_unsetEntry_spec mmap
    (populate bytesAt (mmap.foldl scanEntry ⟨0, ⟨0, 0⟩, 0, 0⟩))
  simp only at h
  split_ifs at h with hlarge
  simp only [Option.some.injEq, Prod.mk.injEq] at h
  obtain ⟨rfl, rfl⟩ := h
  refine ⟨by rw [htotal₂, htotal], by rw [hsize₂, hsize], by rw [hused₂, hused], ?_⟩
  ext k
  rw [freeFrames, clear_bitmapSet, Finset.mem_erase, mem_clear, hsize₂, hsize, hbit₂,
    freeAtBoot, Finset.mem_filter]
  constructor
  · rintro ⟨hne, hk, hbit⟩
    rw [hfull k hk] at hbit
    exact ⟨by simpa using hbit, hne, hk⟩
  · rintro ⟨husable, hne, hk⟩
    exact ⟨hne, hk, by simp [husable]⟩

end Pmm
