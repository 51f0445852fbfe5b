/-
# The frame allocator over physical memory

The bitmap of the frame allocator lies in the physical memory whose frames it hands out.
Here `struct pmm_info` keeps the bitmap's physical address, and its bytes are read from
memory.

* `pmmAlloc`, `pmmFree` : `pmm_allocpage` and `pmm_freepage` on memory;
* `pmmAlloc_spec`, `pmmFree_spec` : what they do to the free frames, and that they write
  only to the bitmap's storage;
* `freeFrames_congr` : the free frames are a matter of that storage only.
-/
import FzzOS.VmmMap
import FzzOS.BitmapStorage

open ByteStore Pmm

namespace Vmm

/-- The manager with its bitmap read from memory. -/
def inMemory (mem : Mem) (info : PmmInfo ℕ) : PmmInfo Window where
  totalmem := info.totalmem
  usedpages := info.usedpages
  totalpages := info.totalpages
  bitmap := ⟨mem, info.bitmap⟩
  bitmapSize := info.bitmapSize

/-- The manager without the memory. -/
def atRest (s : PmmInfo Window) : PmmInfo ℕ where
  totalmem := s.totalmem
  usedpages := s.usedpages
  totalpages := s.totalpages
  bitmap := s.bitmap.base
  bitmapSize := s.bitmapSize

/-- `pmm_allocpage` on memory. -/
def pmmAlloc : Allocator (PmmInfo ℕ) := fun mem info =>
  let r := pmmAllocpage (inMemory mem info)
  (r.1, r.2.bitmap.mem, atRest r.2)

/-- `pmm_freepage` on memory. -/
def pmmFree (page : U64) (s : Machine (PmmInfo ℕ)) : Machine (PmmInfo ℕ) :=
  let info := pmmFreepage page (inMemory s.mem s.pmm)
  { s with mem := info.bitmap.mem, pmm := atRest info }

/-- The manager of a machine. -/
def manager (s : Machine (PmmInfo ℕ)) : PmmInfo Window := inMemory s.mem s.pmm

/-- Frame `f` holds a part of the bitmap. -/
def InBitmap (info : PmmInfo ℕ) (f : ℕ) : Prop := Overlaps info.bitmap info.bitmapSize.toNat f

/-- The free frames depend only on the bitmap's storage. -/
theorem freeFrames_congr {mem mem' : Mem} {info : PmmInfo ℕ}
    (hsame : ∀ f j, InBitmap info f → mem' f j = mem f j) :
    freeFrames (inMemory mem' info) = freeFrames (inMemory mem info) := by
  ext k
  rw [freeFrames, freeFrames, mem_clear, mem_clear]
  refine and_congr_right fun hk => ?_
  have hk' : k < 8 * info.bitmapSize.toNat := hk
  have hload : load (inMemory mem' info).bitmap (k / 8)
      = load (inMemory mem info).bitmap (k / 8) := by
    have hword := hsame ((info.bitmap + k / 8) / 4096) (slotOf (info.bitmap + k / 8))
      ⟨by omega, by omega⟩
    simp only [load, inMemory, Mem.byte, hword]
  rw [bit, bit, hload]

/-- The memory after a bit of the bitmap is changed. -/
theorem setBit_mem {info : PmmInfo ℕ} {k : U64} (hk : k.toNat < 8 * info.bitmapSize.toNat)
    {mem : Mem} {f : ℕ} (hf : ¬ InBitmap info f) (x : U8) (j : Fin 512) :
    (store (inMemory mem info).bitmap (k / 8).toNat x).mem f j = mem f j := by
  refine Mem.setByte_of_ne ?_ x j
  rintro rfl
  have hdiv : (k / 8).toNat = k.toNat / 8 := BitVec.toNat_udiv
  refine hf ⟨?_, ?_⟩
  · show 4096 * ((info.bitmap + (k / 8).toNat) / 4096)
      < info.bitmap + info.bitmapSize.toNat
    omega
  · show info.bitmap < 4096 * ((info.bitmap + (k / 8).toNat) / 4096 + 1)
    omega

/-- **An allocation that succeeds**: one free frame less, one used page more, and nothing
written outside the bitmap. -/
theorem pmmAlloc_spec {mem : Mem} {info : PmmInfo ℕ} (hne : (pmmAlloc mem info).1 ≠ 0)
    (hlt : ∀ k ∈ freeFrames (inMemory mem info), k < 2 ^ 52) :
    ∃ k ∈ freeFrames (inMemory mem info), (pmmAlloc mem info).1 = frameAddr k ∧
      freeFrames (inMemory (pmmAlloc mem info).2.1 (pmmAlloc mem info).2.2)
        = (freeFrames (inMemory mem info)).erase k ∧
      (pmmAlloc mem info).2.2 = { info with usedpages := info.usedpages + 1 } ∧
      (info.usedpages + 1).toNat = info.usedpages.toNat + 1 ∧
      ∀ f j, ¬ InBitmap info f → (pmmAlloc mem info).2.1 f j = mem f j := by
  obtain ⟨k, hk, _, hguard, heq⟩ := pmmAllocpage_of_ne_zero hne
  have hk52 := hlt k hk
  have hkn : (BitVec.ofNat 64 k).toNat = k := by
    rw [BitVec.toNat_ofNat, Nat.mod_eq_of_lt (by omega)]
  simp only [pmmAlloc, heq]
  refine ⟨k, hk, rfl, ?_, rfl, toNat_add_one hguard, fun f j hf => ?_⟩
  · exact freeFrames_bitmapSet (inMemory mem info) _ (by omega)
  · refine setBit_mem ?_ hf _ j
    rw [hkn]
    exact (mem_clear.mp hk).1

/-- **Freeing a frame**: one free frame more, one used page less, and nothing written
outside the bitmap. -/
theorem pmmFree_spec {s : Machine (PmmInfo ℕ)} {k : ℕ} (hk52 : k < 2 ^ 52)
    (hk : k < 8 * s.pmm.bitmapSize.toNat) :
    freeFrames (manager (pmmFree (frameAddr k) s)) = insert k (freeFrames (manager s)) ∧
    (pmmFree (frameAddr k) s).pmm = { s.pmm with usedpages := s.pmm.usedpages - 1 } ∧
    (pmmFree (frameAddr k) s).log = s.log ∧
    ∀ f j, ¬ InBitmap s.pmm f → (pmmFree (frameAddr k) s).mem f j = s.mem f j := by
  have hindex : (frameAddr k / 4096).toNat = k :=
    (BitVec.toNat_udiv).trans (frameOf_frameAddr hk52)
  refine ⟨?_, rfl, rfl, fun f j hf => setBit_mem (by rw [hindex]; exact hk) hf _ j⟩
  have hfree := freeFrames_pmmFreepage (manager s)
    (by rw [frameOf_frameAddr hk52]; exact hk)
  rw [frameOf_frameAddr hk52] at hfree
  exact hfree

end Vmm
