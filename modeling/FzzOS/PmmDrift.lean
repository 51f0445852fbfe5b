/-
# When counter and bitmap drift apart

A failed allocation changes nothing as long as the counter, at its limit, stands for a full
bitmap.  Freeing a frame that is free already takes one off the counter and nothing off the
bitmap; after that the last allocation fails on a full bitmap and is counted all the same.

* `Covers` : used pages and clear bits make up at least all pages, the invariant;
* `Call.Conserving` : the calls that keep it;
* `failed_alloc_run` : runs of such calls, and what any other call leads to.
-/
import FzzOS.BootBitmap
import FzzOS.Runs

open ByteStore MemoryMap

namespace Pmm

variable {β : Type} [ByteStore β] {s : PmmInfo β}

/-! ## The calls -/

/-- A call of the frame allocator. -/
inductive Call
  | alloc
  | free (page : U64)

/-- What a call does. -/
def Call.apply : Call → PmmInfo β → PmmInfo β
  | .alloc, s => (pmmAllocpage s).2
  | .free page, s => pmmFreepage page s

/-- Only frames inside the bitmap are freed, and not frame 0. -/
def Call.InBitmap (s : PmmInfo β) : Call → Prop
  | .alloc => True
  | .free page => 0 < frameOf page ∧ frameOf page < 8 * s.bitmapSize.toNat

/-- A frame that is freed is in use; or the counter is at 0, or already counts too many. -/
def Call.Conserving (s : PmmInfo β) : Call → Prop
  | .alloc => True
  | .free page => frameOf page ∉ freeFrames s ∨ s.usedpages.toNat = 0 ∨
      s.totalpages.toNat < s.usedpages.toNat + (freeFrames s).card

/-- What the caller promises: both of these. -/
def Call.Valid (s : PmmInfo β) (c : Call) : Prop := c.InBitmap s ∧ c.Conserving s

theorem alloc_valid (s : PmmInfo β) : Call.alloc.Valid s := ⟨trivial, trivial⟩

/-- An allocation that fails changes neither the bitmap nor the counter. -/
def FailsUnchanged (s : PmmInfo β) : Prop :=
  (pmmAllocpage s).1 = 0 →
    (pmmAllocpage s).2.bitmap = s.bitmap ∧ (pmmAllocpage s).2.usedpages = s.usedpages

/-! ## The invariant -/

/-- Used pages and clear bits make up all pages, or more. -/
structure Covers (s : PmmInfo β) : Prop where
  nullUsed : bit s.bitmap 0 = true
  count : s.totalpages.toNat ≤ s.usedpages.toNat + (freeFrames s).card
  frames : 8 * s.bitmapSize.toNat ≤ 2 ^ 52

/-- With the counter below the total there is a clear bit. -/
theorem Covers.nonempty (h : Covers s) (hguard : ¬ s.usedpages ≥ s.totalpages) :
    (freeFrames s).Nonempty := by
  rw [ge_iff_le, BitVec.le_def] at hguard
  have := h.count
  exact Finset.card_pos.mp (by omega)

/-- So it is the counter that makes an allocation fail, and then nothing happens. -/
theorem Covers.failsUnchanged (h : Covers s) : FailsUnchanged s := by
  intro hnull
  by_cases hguard : s.usedpages ≥ s.totalpages
  · rw [pmmAllocpage_of_guard hguard]
    exact ⟨rfl, rfl⟩
  obtain ⟨k, hk, hmin⟩ := Finset.exists_min_image (freeFrames s) id (h.nonempty hguard)
  rw [pmmAllocpage_of_least hguard hk hmin] at hnull
  refine absurd hnull (frameAddr_ne_zero (lt_of_mem_freeFrames h.frames hk) fun h0 => ?_)
  exact zero_notMem_freeFrames h.nullUsed (h0 ▸ hk)

variable [LawfulByteStore β]

theorem Covers.alloc (h : Covers s) : Covers (pmmAllocpage s).2 := by
  by_cases hguard : s.usedpages ≥ s.totalpages
  · rw [pmmAllocpage_of_guard hguard]
    exact h
  obtain ⟨hused, hcard, htotal, hsize, hbit⟩ := alloc_count hguard (h.nonempty hguard) h.frames
  have hcount := h.count
  exact ⟨hbit h.nullUsed, by rw [htotal]; omega, by rw [hsize]; exact h.frames⟩

/-- Freeing a frame adds its bit to the clear ones, if it is not there, and takes one off the
counter, if that is not 0. -/
theorem Covers.free (h : Covers s) {page : U64} (hpage : (Call.free page).InBitmap s)
    (hcall : (Call.free page).Conserving s) : Covers (pmmFreepage page s) := by
  have hcount := h.count
  refine ⟨nullUsed_pmmFreepage h.nullUsed hpage.1.ne', ?_, h.frames⟩
  show s.totalpages.toNat ≤ (s.usedpages - 1).toNat + (freeFrames (pmmFreepage page s)).card
  rw [freeFrames_pmmFreepage s hpage.2]
  have hle := Finset.card_le_card (Finset.subset_insert (frameOf page) (freeFrames s))
  rcases Nat.eq_zero_or_pos s.usedpages.toNat with hzero | hpos
  · -- the counter wraps around
    have := s.totalpages.isLt
    have hwrap : (s.usedpages - 1).toNat = 2 ^ 64 - 1 := by bv_omega
    omega
  rw [toNat_sub_one hpos]
  rcases hcall with hused | hzero | hslack
  · rw [Finset.card_insert_of_notMem hused]
    omega
  · omega
  · omega

/-- **One call.** -/
theorem Covers.apply (h : Covers s) {c : Call} (hvalid : c.Valid s) :
    Covers (c.apply s) := by
  cases c with
  | alloc => exact h.alloc
  | free page => exact h.free hvalid.1 hvalid.2

/-! ## The drift -/

/-- If the clear bits do not make up for what the counter is short of, allocating until none is
left ends in a failure that is counted. -/
theorem exists_counted_failure (hframes : 8 * s.bitmapSize.toNat ≤ 2 ^ 52)
    (hcount : s.usedpages.toNat + (freeFrames s).card < s.totalpages.toNat) :
    ∃ n, ¬ FailsUnchanged ((fun s : PmmInfo β => (pmmAllocpage s).2)^[n] s) := by
  have hguard : ¬ s.usedpages ≥ s.totalpages := by
    rw [ge_iff_le, BitVec.le_def]
    omega
  -- by induction on the clear bits
  induction hfree : (freeFrames s).card generalizing s with
  | zero =>
    have halloc := pmmAllocpage_of_full hguard (Finset.card_eq_zero.mp hfree)
    refine ⟨0, fun hfails => ?_⟩
    have hsame := (hfails (by rw [Function.iterate_zero_apply, halloc])).2
    rw [Function.iterate_zero_apply, halloc] at hsame
    have hused : s.usedpages + 1 = s.usedpages := hsame
    have := toNat_add_one hguard
    rw [hused] at this
    omega
  | succ n ih =>
    have hnonempty : (freeFrames s).Nonempty := Finset.card_pos.mp (by omega)
    obtain ⟨hused, hcard, htotal, hsize, -⟩ := alloc_count hguard hnonempty hframes
    have hcount' : (pmmAllocpage s).2.usedpages.toNat + (freeFrames (pmmAllocpage s).2).card
        < (pmmAllocpage s).2.totalpages.toNat := by
      rw [htotal]
      omega
    obtain ⟨m, hm⟩ := ih (by rw [hsize]; exact hframes) hcount'
      (by rw [ge_iff_le, BitVec.le_def]; omega) (by omega)
    exact ⟨m + 1, by rwa [Function.iterate_succ_apply]⟩

/-- **A free of a free frame** that the counter has no room for. -/
theorem Covers.exists_counted_failure (h : Covers s) {page : U64}
    (hpage : (Call.free page).InBitmap s) (hcall : ¬ (Call.free page).Conserving s) :
    ∃ n, ¬ FailsUnchanged ((fun s : PmmInfo β => (pmmAllocpage s).2)^[n] (pmmFreepage page s)) := by
  simp only [Call.Conserving, not_or, not_not, not_lt] at hcall
  obtain ⟨hfree, hpos, hfull⟩ := hcall
  refine Pmm.exists_counted_failure h.frames ?_
  show (s.usedpages - 1).toNat + (freeFrames (pmmFreepage page s)).card < s.totalpages.toNat
  have hcount := h.count
  rw [freeFrames_pmmFreepage s hpage.2, Finset.insert_eq_of_mem hfree,
    toNat_sub_one (Nat.pos_of_ne_zero hpos)]
  omega

/-! ## Runs from boot -/

variable {bytesAt : U64 → β} {mmap : MemoryMap} {s₀ : PmmInfo β} {fb : PmmToVmmInfo}
  {calls : List Call}

/-- The counter after boot is never too small. -/
theorem covers_pmmInit (hmap : WellFormed mmap) (h : pmmInit bytesAt 0 mmap = some (s₀, fb))
    (hlt : ∀ e ∈ usable mmap, ∀ k, e.Holds k → k < 8 * s₀.bitmapSize.toNat) : Covers s₀ := by
  obtain ⟨htotal, hsize, _, _⟩ := pmmInit_spec h
  have hfree := freeFrames_of_fit hmap h hlt
  have hused := toNat_usedpages hmap h
  have hT := totalPages_lt mmap
  have hU := usablePages_le hmap
  have hcard := card_usableFrames hmap
  have hbytes : bitmapBytes mmap = totalPages mmap / 8 + 1 := rfl
  refine ⟨?_, ?_, by omega⟩
  · by_contra hclear
    have hmem : 0 ∈ freeFrames s₀ := mem_clear.mpr ⟨by omega, by simpa using hclear⟩
    rw [hfree] at hmem
    exact Finset.notMem_erase _ _ hmem
  · have hle := Finset.pred_card_le_card_erase (s := usableFrames mmap) (a := 0)
    rw [htotal, hfree]
    split_ifs at hused <;> omega

/-- **Failed allocations.**  From boot on, as long as every frame that is freed is in use (or
the counter has room for the slip), an allocation that fails changes nothing; and any other
free of a frame leads, by allocations alone, to a failed one that does. -/
theorem failed_alloc_run (hmap : WellFormed mmap) (h : pmmInit bytesAt 0 mmap = some (s₀, fb))
    (hlt : ∀ e ∈ usable mmap, ∀ k, e.Holds k → k < 8 * s₀.bitmapSize.toNat)
    (hrun : Runs.Run Call.apply Call.Valid s₀ calls s) :
    FailsUnchanged s ∧ ∀ page, (Call.free page).InBitmap s → ¬ (Call.free page).Conserving s →
      ∃ n, ¬ FailsUnchanged ((fun s : PmmInfo β => (pmmAllocpage s).2)^[n]
        (pmmFreepage page s)) := by
  have hcovers : Covers s :=
    hrun.invariant (covers_pmmInit hmap h hlt) fun _ _ hs hv => hs.apply hv
  exact ⟨hcovers.failsUnchanged, fun _ => hcovers.exists_counted_failure⟩

/-- Two pages, the second of which is free. -/
def twoPages : MemoryMap := [⟨0, 0x2000, 1⟩]

theorem twoPages_wellFormed : WellFormed twoPages where
  aligned := by decide
  disjoint := List.pairwise_singleton _ _

theorem isSome_pmmInit_twoPages :
    (pmmInit (fun _ _ => 0 : U64 → ℕ → U8) 0 twoPages).isSome := rfl

/-- The manager after boot on them. -/
def bootTwoPages : PmmInfo (ℕ → U8) := (Option.get _ isSome_pmmInit_twoPages).1

theorem exists_pmmInit_twoPages :
    ∃ fb, pmmInit (fun _ _ => 0 : U64 → ℕ → U8) 0 twoPages = some (bootTwoPages, fb) :=
  ⟨_, (Option.some_get isSome_pmmInit_twoPages).symm⟩

/-- The page is allocated, freed and allocated again; the next allocation fails. -/
theorem failed_alloc_twoPages :
    FailsUnchanged (Call.apply .alloc (Call.apply (.free 0x1000) (Call.apply .alloc bootTwoPages)))
    := by
  have hfree : Call.Valid (Call.apply .alloc bootTwoPages) (.free 0x1000) :=
    ⟨⟨by decide, by decide⟩, Or.inl (by decide)⟩
  have hrun : Runs.Run Call.apply Call.Valid bootTwoPages [.alloc, .free 0x1000, .alloc] _ :=
    ((Runs.Run.start.step (alloc_valid _)).step hfree).step (alloc_valid _)
  obtain ⟨fb, hinit⟩ := exists_pmmInit_twoPages
  exact (failed_alloc_run twoPages_wellFormed hinit
    (lt_of_usable_end (by decide)) hrun).1

/-- **The slip.**  The page is freed while it is free, then allocated; the allocation after that
fails and is counted. -/
theorem double_free_counted :
    ¬ ∀ (bytesAt : U64 → ℕ → U8) (mmap : MemoryMap) (s₀ s : PmmInfo (ℕ → U8))
      (fb : PmmToVmmInfo) (calls : List Call), WellFormed mmap →
      pmmInit bytesAt 0 mmap = some (s₀, fb) →
      (∀ e ∈ usable mmap, ∀ k, e.Holds k → k < 8 * s₀.bitmapSize.toNat) →
      Runs.Run Call.apply Call.InBitmap s₀ calls s → FailsUnchanged s := by
  intro hclaim
  have hfree : Call.InBitmap bootTwoPages (.free 0x1000) := ⟨by decide, by decide⟩
  have hrun : Runs.Run Call.apply Call.InBitmap bootTwoPages [.free 0x1000, .alloc] _ :=
    (Runs.Run.start.step hfree).step (alloc_valid _).1
  obtain ⟨fb, hinit⟩ := exists_pmmInit_twoPages
  have hfails := hclaim _ twoPages bootTwoPages _ fb _ twoPages_wellFormed hinit
    (lt_of_usable_end (by decide)) hrun (by decide)
  exact absurd hfails.2 (by decide)

end Pmm
