/-
# Pages for the heap

`liballoc_alloc` is the hook through which liballoc gets its pages: a loop that maps page
after page above `kernel_heap_top`, and an address computed from the final top.

* `liballocAlloc` : the code;
* `Contract` : what liballoc takes a call of the hook to have done;
* `contract_never` : no call with a positive count does it.  The address returned is the
  top moved by the higher-half offset of physical memory, which is not a canonical
  address, let alone one of the pages mapped.
-/
import FzzOS.Mapping
import Mathlib.Logic.Function.Iterate

open Runs

namespace Vmm

variable {α : Type} {alloc : Allocator α} {root : ℕ}

/-! ## The code -/

/-- The machine and `kernel_heap_top`. -/
structure Heap (α : Type) where
  machine : Machine α
  kernelHeapTop : U64

/-- One round of the loop of `liballoc_alloc`. -/
def heapRound (alloc : Allocator α) (root : ℕ) (h : Heap α) : Heap α :=
  let page := alloc h.machine.mem h.machine.pmm
  let s := { h.machine with mem := page.2.1, pmm := page.2.2 }
  { machine := vmmMap4Kpage alloc (frameAddr root) (h.kernelHeapTop + 4096) page.1
      (ptePresent ||| pteReadwrite) s
    kernelHeapTop := h.kernelHeapTop + 4096 }

/-- `liballoc_alloc`, with `RootPageDirectory` in frame `root`. -/
def liballocAlloc (alloc : Allocator α) (root : ℕ) (count : U64) (h : Heap α) : U64 × Heap α :=
  let h := (heapRound alloc root)^[count.toNat] h
  -- the top after the loop, not the one before it
  (physToHhData h.kernelHeapTop, h)

/-- The value `kernel_heap_top` starts with. -/
def kernelHeapStart : U64 := 0xFFFFFFFFC0000000

/-- A call, with the blocks returned so far. -/
def heapCall (alloc : Allocator α) (root : ℕ) (count : U64) (h : Heap α × List (U64 × U64)) :
    Heap α × List (U64 × U64) :=
  let r := liballocAlloc alloc root count h.1
  (r.2, (r.1, count) :: h.2)

/-- A positive count that does not carry the top past 2^64. -/
def HeapFits (h : Heap α × List (U64 × U64)) (count : U64) : Prop :=
  0 < count.toNat ∧ h.1.kernelHeapTop.toNat + 4096 * count.toNat < 2 ^ 64

/-! ## What the hook is for -/

/-- The calls of `vmm_map_4Kpage` in a log. -/
def mapCalls (log : List Event) : List (U64 × U64) :=
  log.filterMap fun
    | .map virtual physical => some (virtual, physical)
    | _ => none

/-- The calls made between two states. -/
def newMapCalls (h h' : Heap α) : List (U64 × U64) :=
  (mapCalls h'.machine.log).take
    ((mapCalls h'.machine.log).length - (mapCalls h.machine.log).length)

/-- Address `a` lies in the `count` pages from `r` on. -/
def InBlock (r count a : U64) : Prop :=
  r.toNat ≤ a.toNat ∧ a.toNat < r.toNat + 4096 * count.toNat

/-- **The contract of the hook.**  Every byte of the block is mapped; its pages are the
pages this call mapped, each to a frame of its own; and it overlaps no earlier block. -/
structure Contract (root : ℕ) (returned : List (U64 × U64)) (h : Heap α) (count : U64)
    (result : U64 × Heap α) : Prop where
  mapped : ∀ a, InBlock result.1 count a → (access result.2.machine.mem root a).isSome
  pages : ∀ page : Page, (∃ a, InBlock result.1 count a ∧ pageOf a = page) ↔
    page ∈ (newMapCalls h result.2).map fun c => pageOf c.1
  frames : ((newMapCalls h result.2).map Prod.snd).Nodup
  translation : ∀ c ∈ newMapCalls h result.2,
    access result.2.machine.mem root c.1 = some c.2.toNat
  disjoint : ∀ b ∈ returned, ∀ a, InBlock result.1 count a → ¬ InBlock b.1 b.2 a

/-! ## What the loop does -/

/-- Walking down makes no calls of the map function. -/
theorem mapCalls_vmmGetPagemap (table index flags : U64) (s : Machine α) :
    mapCalls (vmmGetPagemap alloc table index flags s).2.log = mapCalls s.log := by
  have hcreate : (vmmCreatePageTable alloc s).2.log = s.log := by
    unfold vmmCreatePageTable
    dsimp only
    split_ifs <;> rfl
  unfold vmmGetPagemap
  split_ifs
  · rfl
  · rw [← hcreate]
    rfl

theorem mapCalls_vmmMap4Kpage (table v p flags : U64) (s : Machine α) :
    mapCalls (vmmMap4Kpage alloc table v p flags s).log = (v, p) :: mapCalls s.log := by
  have hdescend : ∀ (path : List (Fin 512)) (table : U64) (s : Machine α),
      mapCalls (descend alloc flags table path s).2.log = mapCalls s.log := by
    intro path
    induction path with
    | nil => intro _ _; rfl
    | cons i path ih =>
      intro table s
      rw [descend, ih, mapCalls_vmmGetPagemap]
  rw [vmmMap4Kpage_eq, ← hdescend (tablePath v) table s]
  rfl

/-- The loop raises the top by a page a round and maps only pages above it. -/
theorem heapRound_iterate (alloc : Allocator α) (root n : ℕ) (h : Heap α)
    (hfit : h.kernelHeapTop.toNat + 4096 * n < 2 ^ 64) :
    ((heapRound alloc root)^[n] h).kernelHeapTop.toNat = h.kernelHeapTop.toNat + 4096 * n ∧
    ∃ new, mapCalls ((heapRound alloc root)^[n] h).machine.log
        = new ++ mapCalls h.machine.log ∧
      ∀ c ∈ new, h.kernelHeapTop.toNat < c.1.toNat := by
  induction n generalizing h with
  | zero => exact ⟨rfl, [], rfl, by simp⟩
  | succ n ih =>
    have hadd : (h.kernelHeapTop + 4096).toNat = h.kernelHeapTop.toNat + 4096 := by
      simp only [BitVec.toNat_add, BitVec.ofNat_eq_ofNat, BitVec.toNat_ofNat]
      omega
    have htop : (heapRound alloc root h).kernelHeapTop.toNat
        = h.kernelHeapTop.toNat + 4096 := hadd
    obtain ⟨htop', new, hnew, habove⟩ := ih (heapRound alloc root h) (by omega)
    rw [Function.iterate_succ_apply]
    refine ⟨by omega, new ++ [(h.kernelHeapTop + 4096, (alloc h.machine.mem h.machine.pmm).1)],
      ?_, fun c hc => ?_⟩
    · rw [hnew, heapRound, mapCalls_vmmMap4Kpage, List.append_assoc]
      rfl
    · rcases List.mem_append.mp hc with hc | hc
      · have := habove c hc
        omega
      · rw [List.mem_singleton.mp hc]
        show h.kernelHeapTop.toNat < (h.kernelHeapTop + 4096).toNat
        omega

/-- The top never falls below its start. -/
theorem kernelHeapStart_le {h₀ : Heap α} {counts : List U64} {h : Heap α × List (U64 × U64)}
    (hstart : h₀.kernelHeapTop = kernelHeapStart)
    (hrun : Run (heapCall alloc root) HeapFits (h₀, []) counts h) :
    kernelHeapStart.toNat ≤ h.1.kernelHeapTop.toNat := by
  refine hrun.invariant (P := fun h => kernelHeapStart.toNat ≤ h.1.kernelHeapTop.toNat) ?_ ?_
  · exact (congrArg BitVec.toNat hstart).ge
  · intro h count hle hfit
    have htop := (heapRound_iterate alloc root count.toNat h.1 hfit.2).1
    rw [heapCall, liballocAlloc]
    show kernelHeapStart.toNat
      ≤ ((heapRound alloc root)^[count.toNat] h.1).kernelHeapTop.toNat
    omega

/-- From a top in the heap region the address returned is not canonical, and its page is
none of those mapped. -/
theorem liballocAlloc_misses (alloc : Allocator α) (root : ℕ) {h : Heap α} {count : U64}
    (htop : kernelHeapStart.toNat ≤ h.kernelHeapTop.toNat) (hfit : HeapFits (h, []) count) :
    ¬ Canonical (liballocAlloc alloc root count h).1 ∧
    pageOf (liballocAlloc alloc root count h).1
      ∉ (newMapCalls h (liballocAlloc alloc root count h).2).map fun c => pageOf c.1 := by
  obtain ⟨htop', new, hnew, habove⟩ :=
    heapRound_iterate alloc root count.toNat h hfit.2
  have hstart : kernelHeapStart.toNat = 2 ^ 64 - 2 ^ 30 := rfl
  have hlt := hfit.2
  have hr : (liballocAlloc alloc root count h).1.toNat
      = h.kernelHeapTop.toNat + 4096 * count.toNat - 2 ^ 47 := by
    simp only [liballocAlloc, physToHhData, BitVec.toNat_add, htop', BitVec.ofNat_eq_ofNat,
      BitVec.toNat_ofNat]
    omega
  constructor
  · unfold Canonical
    omega
  · intro hmem
    obtain ⟨c, hc, hpage⟩ := List.mem_map.mp hmem
    have hcnew : c ∈ new := by
      rw [newMapCalls, liballocAlloc, hnew, List.length_append, Nat.add_sub_cancel,
        List.take_left] at hc
      exact hc
    -- bit 47 is set in the pages mapped and clear in the page returned
    have hval := congrArg Fin.val hpage
    simp only [pageOf] at hval
    have := habove c hcnew
    have := c.1.isLt
    omega

/-- The first address of a block is in the block. -/
theorem inBlock_self {r count : U64} (h : 0 < count.toNat) : InBlock r count r :=
  ⟨le_refl _, by omega⟩

/-- **The hook never keeps its contract.**  Whatever the allocator and the page tables,
after any history of calls, a call with a positive count breaks it. -/
theorem contract_never {h₀ : Heap α} {counts : List U64} {h : Heap α × List (U64 × U64)}
    {count : U64} (hstart : h₀.kernelHeapTop = kernelHeapStart)
    (hrun : Run (heapCall alloc root) HeapFits (h₀, []) counts h) (hfit : HeapFits h count) :
    ¬ Contract root h.2 h.1 count (liballocAlloc alloc root count h.1) := by
  intro hcontract
  have hmiss := (liballocAlloc_misses alloc root
    (kernelHeapStart_le hstart hrun) hfit).2
  exact hmiss ((hcontract.pages _).mp ⟨_, inBlock_self hfit.1, rfl⟩)

/-- The heap before its first call, on the bare machine. -/
def bareHeap : Heap ℕ := ⟨bare, kernelHeapStart⟩

/-- The first call for one page. -/
theorem contract_never_bareHeap :
    ¬ Contract 1 [] bareHeap 1 (liballocAlloc countUp 1 1 bareHeap) :=
  contract_never rfl .start ⟨by decide, by decide⟩

/-- Every frame the loop asks for, for its pages and for their tables, is a new one. -/
def EnoughFrames (alloc : Allocator α) (root : ℕ) : ℕ → Heap α → Prop
  | 0, _ => True
  | n + 1, h =>
    FreshPage smallPhysical alloc root h.machine ∧
    AllocsOn (FreshPage smallPhysical alloc root) alloc (ptePresent ||| pteReadwrite)
      (frameAddr root) (tablePath (h.kernelHeapTop + 4096))
      { h.machine with
        mem := (alloc h.machine.mem h.machine.pmm).2.1
        pmm := (alloc h.machine.mem h.machine.pmm).2.2 } ∧
    EnoughFrames alloc root n (heapRound alloc root h)

/-- The first call fails even on an empty address space with frames to spare. -/
theorem first_liballocAlloc_breaks_contract :
    ¬ ∀ (alloc : Allocator ℕ) (root : ℕ) (h₀ : Heap ℕ) (counts : List U64)
      (h : Heap ℕ × List (U64 × U64)) (count : U64),
      root < 2 ^ 52 → PageTree smallPhysical h₀.machine.mem root →
      h₀.kernelHeapTop = kernelHeapStart →
      Run (heapCall alloc root) HeapFits (h₀, []) counts h → HeapFits h count →
      EnoughFrames alloc root count.toNat h.1 →
      Contract root h.2 h.1 count (liballocAlloc alloc root count h.1) := by
  intro hclaim
  have hfit : HeapFits (bareHeap, []) 1 := ⟨by decide, by decide⟩
  have hempty : ∀ i, bareHeap.machine.mem 1 i = 0 := fun _ => rfl
  have hcontract := hclaim countUp 1 bareHeap [] (bareHeap, []) 1 (by decide)
    (pageTree_of_empty hempty) rfl .start hfit
    ⟨countUp_fresh (by decide) (fun f hf => eq_root_of_empty hempty hf ▸ by decide) (by decide)
      (by decide), ?_, trivial⟩
  · exact (liballocAlloc_misses _ _ (h := bareHeap) (le_refl _) hfit).2
      ((hcontract.pages _).mp ⟨_, inBlock_self hfit.1, rfl⟩)
  · exact countUp_allocsOn (fun _ => frameAddr_and_physMask) ⟨by decide, by decide, by decide⟩
      (pageTree_of_empty hempty) (by decide) (le_refl 3)
      (smallPhysical_pathClear _ _ _) (fun f hf => eq_root_of_empty hempty hf ▸ by decide)
      (by decide) (by decide)

end Vmm
