/-
# What the switch keeps

The new root of `vmm_init` takes over two entries of the boot table.  If the kernel lies
below one of them, they are all it has.

* `translate_copied` : below an entry taken over nothing changes;
* `pmmAlloc_freeFrame` : the frames that `pmm_allocpage` supplies;
* `kernel_view_preserved` : the translations after `vmm_init` are those of the boot table
  below entries 256 and 511, and there are no others.
-/
import FzzOS.AddressSwitch
import FzzOS.PmmMemory

open RadixTree Pmm

namespace Vmm

variable {α : Type} {alloc : Allocator α} {kv v : U64} {m m₀ : Mem} {c root t₃ t₂ : ℕ}
  {s : Machine α}

/-- The tables the processor finds below a root. -/
abbrev BootTables (m : Mem) (root : ℕ) : Set ℕ := Tables hwChild m root 3

/-- Below an entry of the boot table a root translates as the boot table did. -/
theorem translate_copied (hboot : ∀ f ∈ BootTables m₀ c, ∀ j, m f j = m₀ f j)
    (hentry : m root (indexAt 39 v) = m₀ c (indexAt 39 v)) :
    translate m root v = translate m₀ c v := by
  have hwalk : pageWalk m root v = pageWalk m₀ c v := walk_shared hentry hboot (le_refl 3)
  rw [translate, translate, hwalk]

/-- An allocation that succeeds supplies such a frame, if the bitmap lies outside the frames in
use and none of these is free. -/
theorem pmmAlloc_freeFrame {s : Machine (PmmInfo ℕ)} {used : Set ℕ}
    (hne : (pmmAlloc s.mem s.pmm).1 ≠ 0) (hlt : ∀ k ∈ freeFrames (manager s), k < 2 ^ 52)
    (hused : ∀ k ∈ freeFrames (manager s), k ∉ used) (hapart : ∀ f ∈ used, ¬ InBitmap s.pmm f) :
    FreeFrame pmmAlloc used s (frameOf (pmmAlloc s.mem s.pmm).1) := by
  obtain ⟨k, hk, hpage, -, -, -, hmem⟩ := pmmAlloc_spec hne hlt
  have hk52 := hlt k hk
  rw [hpage, frameOf_frameAddr hk52]
  refine ⟨hpage, Nat.pos_of_ne_zero ?_, hk52, hused k hk, fun f hf j => hmem f j (hapart f hf)⟩
  rintro rfl
  exact hne hpage

/-- **The kernel's view.**  With frames for the new tables that are not NULL, distinct and no
tables of the boot tree, and a kernel below the last entry of the root, `vmm_init` leaves each
address below entries 256 and 511 the translation it had, and no other address has one. -/
theorem kernel_view_preserved (kp : U64) (hc : c < 2 ^ 52) (hkv : indexAt 39 kv = 511)
    (h : FreeFrames alloc (BootTables s.mem c) kv s root t₃ t₂) :
    (vmmInit alloc (frameAddr c) kv kp s).1 = frameAddr root ∧
    ∀ v, translate (vmmInit alloc (frameAddr c) kv kp s).2.mem root v
      = if indexAt 39 v = 256 ∨ indexAt 39 v = 511 then translate s.mem c v else none := by
  obtain ⟨hroot, htable, -, -, hboot⟩ := vmmInit_tables kp hc root_mem_tables h
  refine ⟨hroot, fun v => ?_⟩
  -- the pointer to the kernel's own page is one of the two overwritten
  have hentry := htable (indexAt 39 v)
  rw [hkv] at hentry
  split_ifs with hv
  · refine translate_copied hboot (hentry.trans ?_)
    rcases hv with h256 | h511
    · rw [h256]
      exact (if_neg (by decide)).trans (if_pos rfl)
    · rw [h511]
      exact if_pos rfl
  · rw [not_or] at hv
    refine translate_of_zero (hentry.trans ?_)
    rw [if_neg hv.2, if_neg hv.1, if_neg hv.2]

/-- A kernel in the last 2 GiB, on the bare machine. -/
theorem kernel_view_preserved_bare :
    (vmmInit countUp (frameAddr 1) 0xFFFFFFFF80000000 0x200000 bare).1 = frameAddr 2 ∧
    ∀ v, translate (vmmInit countUp (frameAddr 1) 0xFFFFFFFF80000000 0x200000 bare).2.mem 2 v
      = if indexAt 39 v = 256 ∨ indexAt 39 v = 511 then translate bare.mem 1 v else none := by
  have hboot : ∀ f ∈ BootTables bare.mem 1, f = 1 := by
    rintro f ⟨p, -, hf⟩
    cases p with
    | nil => exact (Option.some.inj hf).symm
    | cons i p =>
      rw [follow_cons, show hwChild (bare.mem 1 i) = none from hwChild_zero] at hf
      cases hf
  exact kernel_view_preserved 0x200000 (by decide) (by decide)
    (bare_initFrames hboot (by decide) (by decide)).free

end Vmm
