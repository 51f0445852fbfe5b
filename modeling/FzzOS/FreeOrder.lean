/-
# Freeing in any order

Some allocations in a row hand out the least free frames.  Freeing them undoes the
allocations, whatever the order, one by one or in stretches, and the same allocations can be
made again.

* `allocs`, `pmmFreepages` : the code;
* `allocs_spec` : allocations in a row are the takes of first fit;
* `frees_spec` : frees of some pages, whose order does not matter;
* `alloc_free_alloc` : both together.
-/
import FzzOS.PmmAlloc

open ByteStore FirstFit

namespace Pmm

variable {β : Type} [ByteStore β] {s : PmmInfo β} {n : ℕ}

/-! ## The code -/

/-- The loop of `pmm_freepages`. -/
def freeLoop : ℕ → U64 → PmmInfo β → PmmInfo β
  | 0, _, s => s
  | n + 1, pg, s => freeLoop n (pg + 0x1000) (pmmFreepage pg s)

/-- `pmm_freepages`. -/
def pmmFreepages (page count : U64) (s : PmmInfo β) : U64 × PmmInfo β :=
  (0, freeLoop count.toNat page s)

/-- `n` calls of `pmm_allocpage`, one after the other. -/
def allocs : ℕ → PmmInfo β → List U64 × PmmInfo β
  | 0, s => ([], s)
  | n + 1, s =>
    let r := pmmAllocpage s
    let rest := allocs n r.2
    (r.1 :: rest.1, rest.2)

/-- A call that frees one page or a stretch of them. -/
inductive FreeCall
  | page (pg : U64)
  | pages (pg count : U64)

/-- What a call does. -/
def FreeCall.apply (s : PmmInfo β) : FreeCall → PmmInfo β
  | .page pg => pmmFreepage pg s
  | .pages pg count => (pmmFreepages pg count s).2

/-- The pages `n` rounds of the loop free. -/
def stretch : ℕ → U64 → List U64
  | 0, _ => []
  | n + 1, pg => pg :: stretch n (pg + 0x1000)

/-- The pages a call frees. -/
def FreeCall.addresses : FreeCall → List U64
  | .page pg => [pg]
  | .pages pg count => stretch count.toNat pg

theorem freeLoop_eq (n : ℕ) (pg : U64) (s : PmmInfo β) :
    freeLoop n pg s = (stretch n pg).foldl (fun s page => pmmFreepage page s) s := by
  induction n generalizing pg s with
  | zero => rfl
  | succ n ih => exact ih _ _

/-- Calls that free are the frees of their pages. -/
theorem foldl_freeCalls (frees : List FreeCall) (s : PmmInfo β) :
    frees.foldl FreeCall.apply s
      = (frees.flatMap FreeCall.addresses).foldl (fun s page => pmmFreepage page s) s := by
  induction frees generalizing s with
  | nil => rfl
  | cons c frees ih =>
    rw [List.foldl_cons, ih, List.flatMap_cons, List.foldl_append]
    congr 1
    cases c with
    | page pg => rfl
    | pages pg count => exact freeLoop_eq ..

/-! ## Frees -/

variable [LawfulByteStore β]

/-- What some frees do, in whatever order they come. -/
theorem frees_spec (pages : List U64) (s : PmmInfo β) :
    let s' := pages.foldl (fun s page => pmmFreepage page s) s
    (∀ k, bit s'.bitmap k = (bit s.bitmap k && !decide (k ∈ pages.map frameOf))) ∧
      s'.usedpages = s.usedpages - BitVec.ofNat 64 pages.length ∧
      s'.totalpages = s.totalpages ∧ s'.bitmapSize = s.bitmapSize := by
  induction pages generalizing s with
  | nil => exact ⟨fun k => by simp, (BitVec.sub_zero _).symm, rfl, rfl⟩
  | cons page pages ih =>
    obtain ⟨hbit, hused, htotal, hsize⟩ := ih (pmmFreepage page s)
    refine ⟨fun k => ?_, ?_, htotal, hsize⟩
    · have hindex : (page / 4096).toNat = frameOf page := BitVec.toNat_udiv
      rw [List.foldl_cons, hbit, pmmFreepage, bit_bitmapUnset, hindex, Bool.and_assoc,
        ← Bool.not_or, ← Bool.decide_or, List.map_cons]
      simp only [List.mem_cons]
    · rw [List.foldl_cons, hused, List.length_cons]
      show s.usedpages - 1 - BitVec.ofNat 64 pages.length = _
      bv_omega

/-! ## Allocations -/

/-- **Allocations in a row** are the takes of first fit. -/
theorem allocs_spec (h : Consistent s) (hn : n ≤ (freeFrames s).card) :
    (allocs n s).1 = (takes (freeFrames s) n).map frameAddr ∧
      (∀ k, bit (allocs n s).2.bitmap k
        = (bit s.bitmap k || decide (k ∈ takes (freeFrames s) n))) ∧
      (allocs n s).2.usedpages = s.usedpages + BitVec.ofNat 64 n ∧
      (allocs n s).2.totalpages = s.totalpages ∧ (allocs n s).2.bitmapSize = s.bitmapSize := by
  induction n generalizing s with
  | zero => exact ⟨rfl, fun k => by simp [allocs, takes], (BitVec.add_zero _).symm, rfl, rfl⟩
  | succ n ih =>
    obtain ⟨k, hk, hmin⟩ := Finset.exists_min_image (freeFrames s) id
      (Finset.card_pos.mp (by omega))
    have hk52 := h.lt_of_mem hk
    have halloc := h.alloc_of_least hk hmin
    have hfree : freeFrames (pmmAllocpage s).2 = (freeFrames s).erase k := by
      rw [halloc]
      exact freeFrames_bitmapSet s _ (by omega)
    have hcard : n ≤ (freeFrames (pmmAllocpage s).2).card := by
      rw [hfree, Finset.card_erase_of_mem hk]
      omega
    obtain ⟨haddr, hbit, hused, htotal, hsize⟩ := ih h.alloc hcard
    rw [hfree] at haddr hbit
    rw [takes_succ hk hmin]
    refine ⟨?_, fun j => ?_, ?_, ?_, ?_⟩
    · rw [allocs, haddr, halloc, List.map_cons]
    · have hkn : (BitVec.ofNat 64 k).toNat = k := by
        rw [BitVec.toNat_ofNat, Nat.mod_eq_of_lt (by omega)]
      rw [allocs, hbit, halloc, bit_bitmapSet, hkn, Bool.or_assoc, ← Bool.decide_or]
      simp only [List.mem_cons]
    · rw [allocs, hused, halloc]
      show s.usedpages + 1 + BitVec.ofNat 64 n = _
      bv_omega
    · rw [allocs, htotal, halloc]
    · rw [allocs, hsize, halloc]

/-- What freeing the pages of `n` allocations leads back to. -/
structure SameAs (s s' : PmmInfo β) : Prop where
  bits : ∀ k, bit s'.bitmap k = bit s.bitmap k
  used : s'.usedpages = s.usedpages
  total : s'.totalpages = s.totalpages
  size : s'.bitmapSize = s.bitmapSize

omit [LawfulByteStore β] in
theorem SameAs.freeFrames {s s' : PmmInfo β} (h : SameAs s s') :
    freeFrames s' = freeFrames s := by
  ext k
  rw [Pmm.freeFrames, Pmm.freeFrames, mem_clear, mem_clear, h.bits, h.size]

omit [LawfulByteStore β] in
theorem SameAs.consistent {s s' : PmmInfo β} (h : SameAs s s') (hs : Consistent s) :
    Consistent s' :=
  ⟨by rw [h.bits, hs.nullUsed], by rw [h.used, h.freeFrames, h.total, hs.count],
    by rw [h.size]; exact hs.frames⟩

/-- **Frees undo allocations.** -/
theorem frees_allocs (h : Consistent s) (hn : n ≤ (freeFrames s).card) {pages : List U64}
    (hpages : pages.Perm (allocs n s).1) :
    SameAs s (pages.foldl (fun s page => pmmFreepage page s) (allocs n s).2) := by
  obtain ⟨haddr, hbit, hused, htotal, hsize⟩ := allocs_spec h hn
  obtain ⟨hbit', hused', htotal', hsize'⟩ := frees_spec pages (allocs n s).2
  have hlt : ∀ k ∈ takes (freeFrames s) n, k < 2 ^ 52 := fun k hk =>
    h.lt_of_mem (mem_of_mem_takes hk)
  rw [haddr] at hpages
  have hframes : ∀ k, k ∈ pages.map frameOf ↔ k ∈ takes (freeFrames s) n := by
    intro k
    rw [(hpages.map frameOf).mem_iff, map_frameOf_map_frameAddr hlt]
  have hlength : pages.length = n := by
    rw [hpages.length_eq, List.length_map, length_takes hn]
  refine ⟨fun k => ?_, ?_, htotal'.trans htotal, hsize'.trans hsize⟩
  · rw [hbit', hbit, decide_eq_decide.mpr (hframes k)]
    by_cases hk : k ∈ takes (freeFrames s) n
    · -- a frame that was allocated was free
      rw [(mem_clear.mp (mem_of_mem_takes hk)).2, decide_eq_true hk]
      rfl
    · rw [decide_eq_false hk, Bool.or_false, Bool.not_false, Bool.and_true]
  · rw [hused', hused, hlength]
    exact BitVec.add_sub_cancel _ _

/-- **Freeing undoes allocating.**  While there are `n` free frames, `n` allocations return
increasing addresses.  Freeing the pages in any order, alone or in stretches, restores every
byte of the bitmap and the counter, and `n` allocations then return the same pages again. -/
theorem alloc_free_alloc (h : Consistent s) (hn : n ≤ (freeFrames s).card) :
    ((allocs n s).1.length = n ∧ (allocs n s).1.Pairwise (· < ·) ∧
        ∀ page ∈ (allocs n s).1, page ≠ 0) ∧
      ∀ frees : List FreeCall, (frees.flatMap FreeCall.addresses).Perm (allocs n s).1 →
        (∀ i, load (frees.foldl FreeCall.apply (allocs n s).2).bitmap i = load s.bitmap i) ∧
        (frees.foldl FreeCall.apply (allocs n s).2).usedpages = s.usedpages ∧
        (allocs n (frees.foldl FreeCall.apply (allocs n s).2)).1 = (allocs n s).1 := by
  have haddr := (allocs_spec h hn).1
  constructor
  · rw [haddr]
    refine ⟨by rw [List.length_map, length_takes hn], ?_, ?_⟩
    · refine List.pairwise_map.mpr ((pairwise_takes _ _).imp_of_mem fun ha hb hlt => ?_)
      rw [BitVec.lt_def, toNat_frameAddr (h.lt_of_mem (mem_of_mem_takes ha)),
        toNat_frameAddr (h.lt_of_mem (mem_of_mem_takes hb))]
      omega
    · intro page hpage
      obtain ⟨k, hk, rfl⟩ := exists_of_mem_map_frameAddr hpage
      exact h.addr_ne_zero (mem_of_mem_takes hk)
  · intro frees hfrees
    rw [foldl_freeCalls]
    have hsame := frees_allocs h hn hfrees
    refine ⟨load_eq_of_bit hsame.bits, hsame.used, ?_⟩
    rw [(allocs_spec (hsame.consistent h) (by rw [hsame.freeFrames]; exact hn)).1,
      hsame.freeFrames, haddr]

/-- Three pages of seven, the last two freed before the first. -/
theorem alloc_free_alloc_oneByte :
    (allocs 3 ([FreeCall.pages 0x2000 2, .page 0x1000].foldl FreeCall.apply
      (allocs 3 oneByte).2)).1 = (allocs 3 oneByte).1 :=
  ((alloc_free_alloc oneByte_consistent (by decide)).2 [.pages 0x2000 2, .page 0x1000]
    (by decide)).2.2

end Pmm
