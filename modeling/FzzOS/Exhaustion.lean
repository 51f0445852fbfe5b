/-
# Running out of frames

When `pmm_allocpage` returns NULL, `vmm_get_pagemap` prints a line and links the null page
like any other; `liballoc_alloc` does not look at the page at all.

* `RunsOut`, `LinksNull` : a table cannot be had, and an entry points to frame 0;
* `mapper_never_harmless` : the one always comes with the other;
* `HeapShort`, `FailsCleanly` : frames for a block cannot be had, and the call gives up;
* `heap_never_fails_cleanly` : it never does.
-/
import FzzOS.Mappers
import FzzOS.AddressSwitch
import FzzOS.Ownership

open RadixTree Pmm

namespace Vmm

variable {α : Type} {alloc : Allocator α} {flags v p table index : U64} {root n : ℕ}
  {path : List (Fin 512)} {s : Machine α}

/-! ## Tables -/

/-- `pmm_allocpage` returns NULL for a table needed on the way down `path`. -/
def RunsOut (alloc : Allocator α) (flags table : U64) (path : List (Fin 512)) (s : Machine α) :
    Prop :=
  ¬ AllocsOn (fun s => (alloc s.mem s.pmm).1 ≠ 0) alloc flags table path s

/-- On the way down `path` an absent entry becomes a pointer to frame 0. -/
def LinksNull (alloc : Allocator α) (flags : U64) : U64 → List (Fin 512) → Machine α → Prop
  | _, [], _ => False
  | table, i :: path, s =>
    let next := vmmGetPagemap alloc table (ofIndex i) flags s
    (present (s.entry table (ofIndex i)) = false ∧
      swChild (next.2.entry table (ofIndex i)) = some 0) ∨
    LinksNull alloc flags next.1 path next.2

/-- What was logged between two states. -/
def newEvents (s s' : Machine α) : List Event := s'.log.take (s'.log.length - s.log.length)

/-- **A harmless call.**  No translation changes, no entry that points to frame 0 is made, and
nothing is stored there. -/
structure Harmless (c : Mapper) (alloc : Allocator α) (root : ℕ) (v p flags : U64)
    (s : Machine α) : Prop where
  translation : ∀ w, translate (c.call alloc (frameAddr root) v p flags s).mem root w
    = translate s.mem root w
  noNull : ¬ LinksNull alloc flags (frameAddr root) (c.path v) s
  untouched : ∀ a, Event.store a ∈ newEvents s (c.call alloc (frameAddr root) v p flags s) →
    frameOf a ≠ 0

/-- Without a page for the table the entry is made of the flags alone. -/
theorem vmmGetPagemap_null (habs : present (s.entry table index) = false)
    (hnull : (alloc s.mem s.pmm).1 = 0) :
    (vmmGetPagemap alloc table index flags s).2.entry table index = flags := by
  have htest : ¬ s.entry table index &&& 1 ≠ 0 := by
    rw [and_one_ne_zero_iff, habs]
    exact Bool.false_ne_true
  have hcreate : (vmmCreatePageTable alloc s).1 = 0 := by
    simp only [vmmCreatePageTable, if_pos hnull]
  simp only [vmmGetPagemap, if_neg htest, hcreate, Machine.entry_note]
  refine (Mem.word_setWord_self _ _ _).trans ?_
  exact BitVec.zero_or

/-- Flags alone are a pointer to frame 0. -/
theorem swChild_of_lowFlags (hfl : LowFlags flags) : swChild flags = some 0 := by
  have hsmall := hfl.toNat_lt (by decide : (0x7F : U64).toNat < 2 ^ 7)
  have hlarge : large flags = false := Nat.testBit_lt_two_pow hsmall
  rw [swChild_eq_some hfl.present hlarge, frameOf, Nat.div_eq_of_lt (by omega)]

/-- **A table that cannot be had is linked all the same.** -/
theorem linksNull_of_runsOut (hfl : LowFlags flags) (h : RunsOut alloc flags table path s) :
    LinksNull alloc flags table path s := by
  induction path generalizing table s with
  | nil => exact h True.intro
  | cons i path ih =>
    rw [RunsOut, AllocsOn, not_and_or] at h
    rcases h with hfirst | hrest
    · rw [Classical.not_imp, not_not] at hfirst
      obtain ⟨habs, hnull⟩ := hfirst
      refine Or.inl ⟨habs, ?_⟩
      rw [vmmGetPagemap_null habs hnull, swChild_of_lowFlags hfl]
    · exact Or.inr (ih hrest)

/-- **Running out is never harmless.**  Whatever the tables, the function and the level at
which there is no page for a table, an entry that points to frame 0 is made. -/
theorem mapper_never_harmless (c : Mapper) (p : U64) (hfl : LowFlags flags)
    (hout : RunsOut alloc flags (frameAddr root) (c.path v) s) :
    ¬ Harmless c alloc root v p flags s := fun h =>
  h.noNull (linksNull_of_runsOut hfl hout)

/-- The bare machine when all frames are handed out. -/
def exhausted : Machine ℕ := { bare with pmm := 2 ^ 40 }

theorem exhausted_runsOut (flags : U64) (i : Fin 512) (path : List (Fin 512)) :
    RunsOut countUp flags (frameAddr 1) (i :: path) exhausted := fun h =>
  h.1 (by rw [exhausted.entry_frameAddr (by decide)]; exact present_zero) (by decide)

/-- The three functions without a single frame. -/
theorem mapper_never_harmless_exhausted :
    ¬ Harmless .map4K countUp 1 0x400000 0x5000 3 exhausted ∧
    ¬ Harmless .map2M countUp 1 0x400000 0x200000 3 exhausted ∧
    ¬ Harmless .map1G countUp 1 0x40000000 0x40000000 3 exhausted := by
  have hfl : LowFlags 3 := ⟨by decide, by decide⟩
  exact ⟨mapper_never_harmless .map4K _ hfl (exhausted_runsOut _ _ _),
    mapper_never_harmless .map2M _ hfl (exhausted_runsOut _ _ _),
    mapper_never_harmless .map1G _ hfl (exhausted_runsOut _ _ _)⟩

/-- On an empty tree the first table that cannot be had is linked at frame 0. -/
theorem null_table_linked :
    ¬ ∀ (c : Mapper) (alloc : Allocator ℕ) (root : ℕ) (v p flags : U64) (s : Machine ℕ),
      root < 2 ^ 52 → PageTree allPages s.mem root → Aligned p → LowFlags flags →
      RunsOut alloc flags (frameAddr root) (c.path v) s → Harmless c alloc root v p flags s := by
  intro hclaim
  have hfl : LowFlags 3 := ⟨by decide, by decide⟩
  have hout := exhausted_runsOut 3 (indexAt 39 0x400000) [indexAt 30 0x400000, indexAt 21 0x400000]
  exact (hclaim .map4K countUp 1 0x400000 0x5000 3 exhausted (by decide)
    (pageTree_of_empty fun _ => rfl) (by decide) hfl hout).noNull (linksNull_of_runsOut hfl hout)

/-! ## Blocks for the heap -/

/-- `pmm_allocpage` returns NULL for the data or for a table of one of `n` pages. -/
def HeapShort (root : ℕ) : ℕ → Heap (PmmInfo ℕ) → Prop
  | 0, _ => False
  | n + 1, h =>
    (pmmAlloc h.machine.mem h.machine.pmm).1 = 0 ∨
    RunsOut pmmAlloc (ptePresent ||| pteReadwrite) (frameAddr root)
      (tablePath (h.kernelHeapTop + 4096)) (dataPage pmmAlloc h.machine) ∨
    HeapShort root n (heapRound pmmAlloc root h)

/-- **A call that gives up.**  It returns NULL and leaves the top, the translations and the
free frames as they were. -/
structure FailsCleanly (root : ℕ) (count : U64) (h : Heap (PmmInfo ℕ)) : Prop where
  result : (liballocAlloc pmmAlloc root count h).1 = 0
  top : (liballocAlloc pmmAlloc root count h).2.kernelHeapTop = h.kernelHeapTop
  translation : ∀ v, translate (liballocAlloc pmmAlloc root count h).2.machine.mem root v
    = translate h.machine.mem root v
  free : freeFrames (manager (liballocAlloc pmmAlloc root count h).2.machine)
    = freeFrames (manager h.machine)

/-- The loop raises the top whatever the allocator returns. -/
theorem kernelHeapTop_iterate (alloc : Allocator α) (root n : ℕ) (h : Heap α) :
    ((heapRound alloc root)^[n] h).kernelHeapTop
      = h.kernelHeapTop + 4096 * BitVec.ofNat 64 n := by
  induction n generalizing h with
  | zero => exact (BitVec.add_zero _).symm
  | succ n ih =>
    rw [Function.iterate_succ_apply, ih]
    show h.kernelHeapTop + 4096 + 4096 * BitVec.ofNat 64 n = _
    bv_omega

/-- Only a block can be too large. -/
theorem HeapShort.pos {h : Heap (PmmInfo ℕ)} (hshort : HeapShort root n h) : 0 < n := by
  cases n with
  | zero => exact hshort.elim
  | succ n => exact n.succ_pos

/-- **The heap never fails cleanly.**  When a frame for a block cannot be had, the result is
not NULL or the top has moved: both at once could only be right for a top that is no address
and a block of the whole 64-bit space. -/
theorem heap_never_fails_cleanly {count : U64} {h : Heap (PmmInfo ℕ)}
    (hspace : Canonical h.kernelHeapTop ∨ count.toNat < 2 ^ 52)
    (hshort : HeapShort root count.toNat h) : ¬ FailsCleanly root count h := by
  rintro ⟨hresult, htop, -, -⟩
  have hpos := hshort.pos
  have hcount : BitVec.ofNat 64 count.toNat = count := by simp
  have hlast : (liballocAlloc pmmAlloc root count h).2.kernelHeapTop
      = h.kernelHeapTop + 4096 * count := by
    rw [liballocAlloc, kernelHeapTop_iterate, hcount]
  rcases hspace with hcanon | hsmall
  · -- NULL is the alias of a top between the two halves
    have hnull : physToHhData h.kernelHeapTop = 0 := htop ▸ hresult
    unfold physToHhData at hnull
    unfold Canonical at hcanon
    bv_omega
  · rw [hlast] at htop
    bv_omega

/-- Eight frames, all of them in use. -/
def fullFrames : Heap (PmmInfo ℕ) where
  machine :=
    { eightFrames with
      mem := fun f _ => if f = 0 then 0xFF else 0
      pmm := { eightFrames.pmm with usedpages := 8 } }
  kernelHeapTop := kernelHeapStart

theorem fullFrames_short (n : ℕ) : HeapShort 1 (n + 1) fullFrames := Or.inl (by decide)

/-- A page is asked for and no frame is free. -/
theorem heap_never_fails_cleanly_fullFrames : ¬ FailsCleanly 1 1 fullFrames :=
  heap_never_fails_cleanly (Or.inl (by decide)) (fullFrames_short 0)

/-- The address returned then is the top moved by a page, in the alias of physical memory. -/
theorem no_null_returned :
    ¬ ∀ (root : ℕ) (count : U64) (h : Heap (PmmInfo ℕ)),
      root < 2 ^ 52 → PageTree smallPages h.machine.mem root →
      h.kernelHeapTop = kernelHeapStart → HeapShort root count.toNat h →
      FailsCleanly root count h := by
  intro hclaim
  have hresult := (hclaim 1 1 fullFrames (by decide) (pageTree_of_empty fun _ => rfl) rfl
    (fullFrames_short 0)).result
  exact absurd hresult (by decide)

end Vmm
