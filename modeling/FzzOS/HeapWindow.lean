/-
# The window of the heap

`kernel_heap_top` starts 1 GiB below 2^64 and only ever grows.  The pages mapped are the ones
above it, one after the other, so everything is in order until 2^18 - 1 pages have been asked
for; the next one is page 0.

* `newMapCalls_heapAfter` : what any sequence of calls maps;
* `StaysInWindow` : what the heap should do;
* `stays_in_window_iff` : for which sequences of calls it does.
-/
import FzzOS.Exhaustion

namespace Vmm

variable {α : Type} {alloc : Allocator α} {root n : ℕ} {counts : List U64} {h : Heap α}

/-! ## All calls -/

/-- The heap after some calls. -/
def heapAfter (alloc : Allocator α) (root : ℕ) (counts : List U64) (h : Heap α) : Heap α :=
  counts.foldl (fun h count => (liballocAlloc alloc root count h).2) h

/-- The pages asked for. -/
def pagesOf (counts : List U64) : ℕ := (counts.map BitVec.toNat).sum

/-- Some calls are the rounds of all their loops. -/
theorem heapAfter_eq (alloc : Allocator α) (root : ℕ) (counts : List U64) (h : Heap α) :
    heapAfter alloc root counts h = (heapRound alloc root)^[pagesOf counts] h := by
  induction counts generalizing h with
  | nil => rfl
  | cons count counts ih =>
    have hsum : pagesOf (count :: counts) = pagesOf counts + count.toNat :=
      (List.sum_cons ..).trans (Nat.add_comm ..)
    rw [hsum, Function.iterate_add_apply]
    exact ih _

theorem kernelHeapTop_heapAfter (alloc : Allocator α) (root : ℕ) (counts : List U64) (h : Heap α) :
    (heapAfter alloc root counts h).kernelHeapTop
      = h.kernelHeapTop + 4096 * BitVec.ofNat 64 (pagesOf counts) := by
  rw [heapAfter_eq, kernelHeapTop_iterate]

/-- The address of page `j` above a top. -/
def pageAbove (top : U64) (j : ℕ) : U64 := top + 4096 * BitVec.ofNat 64 (j + 1)

/-- The rounds map the pages above the top, one after the other. -/
theorem mapCalls_iterate (alloc : Allocator α) (root n : ℕ) (h : Heap α) :
    (mapCalls ((heapRound alloc root)^[n] h).machine.log).map Prod.fst
      = ((List.range n).map (pageAbove h.kernelHeapTop)).reverse
          ++ (mapCalls h.machine.log).map Prod.fst := by
  induction n with
  | zero => rfl
  | succ n ih =>
    have hnext : ((heapRound alloc root)^[n] h).kernelHeapTop + 4096
        = pageAbove h.kernelHeapTop n := by
      rw [kernelHeapTop_iterate, pageAbove]
      bv_omega
    rw [Function.iterate_succ_apply', heapRound, mapCalls_vmmMap4Kpage, List.map_cons, ih, hnext,
      List.range_succ, List.map_append, List.reverse_append]
    rfl

/-- **What is mapped** by any sequence of calls. -/
theorem newMapCalls_heapAfter (alloc : Allocator α) (root : ℕ) (counts : List U64) (h : Heap α) :
    (newMapCalls h (heapAfter alloc root counts h)).map Prod.fst
      = ((List.range (pagesOf counts)).map (pageAbove h.kernelHeapTop)).reverse := by
  have hcalls := mapCalls_iterate alloc root (pagesOf counts) h
  have hlength := congrArg List.length hcalls
  rw [List.length_append, List.length_map, List.length_map] at hlength
  rw [newMapCalls, heapAfter_eq, List.map_take, hcalls, hlength, Nat.add_sub_cancel]
  exact List.take_left

/-! ## The window -/

/-- All pages a request is for are in the window. -/
def FitsWindow (top count : U64) : Prop :=
  ∀ j < count.toNat, kernelHeapStart.toNat ≤ top.toNat + 4096 * (j + 1) ∧
    top.toNat + 4096 * (j + 1) < 2 ^ 64

/-- **The heap in its window.**  Every page mapped is in it and mapped once, and a request that
does not fit is refused. -/
structure StaysInWindow (alloc : Allocator α) (root : ℕ) (counts : List U64) (h : Heap α) :
    Prop where
  inside : ∀ c ∈ newMapCalls h (heapAfter alloc root counts h), kernelHeapStart.toNat ≤ c.1.toNat
  once : ((newMapCalls h (heapAfter alloc root counts h)).map fun c => pageOf c.1).Nodup
  refused : ∀ earlier count later, counts = earlier ++ count :: later →
    ¬ FitsWindow (heapAfter alloc root earlier h).kernelHeapTop count →
    (liballocAlloc alloc root count (heapAfter alloc root earlier h)).1 = 0

/-- The pages of the window. -/
theorem toNat_pageAbove {j : ℕ} (hj : j < 2 ^ 18 - 1) :
    (pageAbove kernelHeapStart j).toNat = kernelHeapStart.toNat + 4096 * (j + 1) := by
  unfold pageAbove kernelHeapStart
  bv_omega

/-- The page after the last one. -/
theorem pageAbove_last : pageAbove kernelHeapStart (2 ^ 18 - 1) = 0 := by decide

theorem pageOf_pageAbove_inj {i j : ℕ} (hi : i < 2 ^ 18 - 1) (hj : j < 2 ^ 18 - 1)
    (heq : pageOf (pageAbove kernelHeapStart i) = pageOf (pageAbove kernelHeapStart j)) :
    i = j := by
  have hval := congrArg Fin.val heq
  have hstart : kernelHeapStart.toNat = 2 ^ 64 - 2 ^ 30 := rfl
  simp only [pageOf, toNat_pageAbove hi, toNat_pageAbove hj, hstart] at hval
  omega

/-! ## The first 2^18 - 1 pages -/

theorem mem_newMapCalls (htop : h.kernelHeapTop = kernelHeapStart) {a : U64} :
    a ∈ (newMapCalls h (heapAfter alloc root counts h)).map Prod.fst ↔
      ∃ j < pagesOf counts, pageAbove kernelHeapStart j = a := by
  rw [newMapCalls_heapAfter, htop, List.mem_reverse, List.mem_map]
  simp only [List.mem_range]

/-- They are all different. -/
theorem nodup_newMapCalls (htop : h.kernelHeapTop = kernelHeapStart)
    (hfew : pagesOf counts < 2 ^ 18) :
    ((newMapCalls h (heapAfter alloc root counts h)).map fun c => pageOf c.1).Nodup := by
  have hpages : ((List.range (pagesOf counts)).map
      fun j => pageOf (pageAbove kernelHeapStart j)).Nodup := by
    refine List.Nodup.map_on (fun i hi j hj heq => ?_) List.nodup_range
    have := List.mem_range.mp hi
    have := List.mem_range.mp hj
    exact pageOf_pageAbove_inj (by omega) (by omega) heq
  have hnew := congrArg (List.map pageOf) (newMapCalls_heapAfter alloc root counts h)
  rw [htop, List.map_map, List.map_reverse, List.map_map] at hnew
  exact (congrArg List.Nodup hnew).mpr (List.nodup_reverse.mpr hpages)

/-- Every request on the way fits. -/
theorem fitsWindow_of_few (htop : h.kernelHeapTop = kernelHeapStart)
    {earlier later : List U64} {count : U64}
    (hfew : pagesOf (earlier ++ count :: later) < 2 ^ 18) :
    FitsWindow (heapAfter alloc root earlier h).kernelHeapTop count := by
  intro j hj
  have hsum : pagesOf (earlier ++ count :: later)
      = pagesOf earlier + (count.toNat + pagesOf later) := by
    rw [pagesOf, List.map_append, List.sum_append, List.map_cons, List.sum_cons]
    rfl
  have hstart : kernelHeapStart.toNat = 2 ^ 64 - 2 ^ 30 := rfl
  have hmul : (4096 * BitVec.ofNat 64 (pagesOf earlier) : U64).toNat = 4096 * pagesOf earlier := by
    bv_omega
  rw [kernelHeapTop_heapAfter, htop, BitVec.toNat_add, hmul, hstart]
  omega

/-- **The heap stays in its window** exactly as long as no more than 2^18 - 1 pages are asked
for. -/
theorem stays_in_window_iff (alloc : Allocator α) (root : ℕ) (counts : List U64)
    (htop : h.kernelHeapTop = kernelHeapStart) :
    StaysInWindow alloc root counts h ↔ pagesOf counts < 2 ^ 18 := by
  constructor
  · intro hstays
    by_contra hmany
    -- page 0 is among those mapped
    have hlast : 2 ^ 18 - 1 < pagesOf counts := by omega
    obtain ⟨c, hc, hzero⟩ := List.mem_map.mp
      ((mem_newMapCalls htop).mpr ⟨2 ^ 18 - 1, hlast, pageAbove_last⟩)
    have hinside := hstays.inside c hc
    rw [hzero] at hinside
    exact absurd hinside (by decide)
  · intro hfew
    refine ⟨fun c hc => ?_, nodup_newMapCalls htop hfew, fun earlier count later hcounts hfit => ?_⟩
    · obtain ⟨j, hj, heq⟩ := (mem_newMapCalls htop).mp (List.mem_map_of_mem hc)
      rw [← heq, toNat_pageAbove (by omega)]
      exact Nat.le_add_right ..
    · exact absurd (fitsWindow_of_few htop (hcounts ▸ hfew)) hfit

/-- Two requests for five pages. -/
theorem stays_in_window_five : StaysInWindow countUp 1 [2, 3] bareHeap :=
  (stays_in_window_iff countUp 1 [2, 3] rfl).mpr (by decide)

/-- An allocator that never runs out: it hands out 2^51 frames before it starts again. -/
def plenty : Allocator ℕ := fun m n => (frameAddr (n % 2 ^ 51 + 1), m, n + 1)

/-- **Past the end.**  A request for 2^18 pages maps page 0. -/
theorem page_zero_mapped :
    ¬ ∀ (alloc : Allocator ℕ) (root : ℕ) (counts : List U64) (h : Heap ℕ),
      (∀ m s, (alloc m s).1 ≠ 0) → h.kernelHeapTop = kernelHeapStart →
      StaysInWindow alloc root counts h := by
  intro hclaim
  have hplenty : ∀ m n, (plenty m n).1 ≠ 0 := fun m n =>
    frameAddr_ne_zero (by omega) (Nat.succ_ne_zero _)
  have hinside := (hclaim plenty 1 [0x40000] bareHeap hplenty rfl).inside
  have hmem : (0 : U64) ∈ (newMapCalls bareHeap (heapAfter plenty 1 [0x40000] bareHeap)).map
      Prod.fst := by
    rw [newMapCalls_heapAfter, List.mem_reverse, List.mem_map]
    exact ⟨2 ^ 18 - 1, List.mem_range.mpr (by decide), pageAbove_last⟩
  obtain ⟨c, hc, hzero⟩ := List.mem_map.mp hmem
  have hlow := hinside c hc
  rw [hzero] at hlow
  exact absurd hlow (by decide)

end Vmm
