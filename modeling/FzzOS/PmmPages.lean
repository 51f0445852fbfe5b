/-
# Contiguous allocation

`pmm_allocpages` asks for `count` frames in a row.  It searches as `pmm_allocpage` does,
but its availability test reads the bits from 0 on instead of those from the frame it
found, takes set bits for available ones, and the bits are never set.

* `pmmAllocpages_of_le`, `pmmAllocpages_of_lt` : what the code does for up to eight frames
  and for more;
* `allocpages_contract_iff` : when that is what a contiguous allocation should do;
* `allocpages_keeps_bit` : a run that was handed out is still free.
-/
import FzzOS.PmmAlloc

open ByteStore

namespace Pmm

variable {β : Type} [ByteStore β]

/-- `pmm_allocpages`. -/
def pmmAllocpages (count : U64) (s : PmmInfo β) : U64 × PmmInfo β :=
  if s.usedpages ≥ s.totalpages then (0, s)
  else
    let index := getFirstUnset s.bitmap s.bitmapSize
    -- the loop returns `NULL` at the first bit that is not set
    if (List.range count.toNat).all fun i => bitmapGet s.bitmap (BitVec.ofNat 64 i) == true then
      (index * 4096, { s with usedpages := s.usedpages + count })
    else (0, s)

/-! ## The purpose -/

/-- The `count` frames from `k` on are free. -/
def FreeRun (s : PmmInfo β) (count k : ℕ) : Prop := ∀ j < count, k + j ∈ freeFrames s

/-- The result of a contiguous allocation that succeeds: a free run, and exactly its bits
are set. -/
structure Allocates (count : U64) (s : PmmInfo β) (r : U64 × PmmInfo β) (k : ℕ) : Prop where
  free : FreeRun s count.toNat k
  address : r.1 = frameAddr k
  bits : ∀ j, bit r.2.bitmap j = (bit s.bitmap j || decide (k ≤ j ∧ j < k + count.toNat))
  used : r.2.usedpages.toNat = s.usedpages.toNat + count.toNat

/-- The result of one that fails: nothing changes, and there is no run to hand out. -/
structure Refuses (count : U64) (s : PmmInfo β) (r : U64 × PmmInfo β) : Prop where
  unchanged : r = (0, s)
  noRun : ∀ k, ¬ FreeRun s count.toNat k

/-! ## What the code does -/

/-- The bits 0 to 7 are all read as bit 0. -/
theorem bitmapGet_of_lt (bitmap : β) {i : ℕ} (hi : i < 8) :
    bitmapGet bitmap (BitVec.ofNat 64 i) = bit bitmap 0 := by
  have hn : (BitVec.ofNat 64 i).toNat = i := by
    rw [BitVec.toNat_ofNat, Nat.mod_eq_of_lt (by omega)]
  have h3 : (BitVec.ofNat 64 i).getLsbD 3 = false := by
    rw [BitVec.getLsbD, hn]
    exact Nat.testBit_lt_two_pow hi
  rw [bitmapGet_eq, h3, hn, Nat.div_eq_of_lt hi]
  rfl

/-- Bit 8 is never found set. -/
theorem bitmapGet_eight (bitmap : β) : bitmapGet bitmap (BitVec.ofNat 64 8) = false := by
  rw [bitmapGet_eq, show (BitVec.ofNat 64 8).getLsbD 3 = true from rfl]
  rfl

/-- Up to eight frames: the first free frame is handed out and none is marked. -/
theorem pmmAllocpages_of_le {s : PmmInfo β} {count : U64} (hnull : bit s.bitmap 0 = true)
    (hguard : ¬ s.usedpages ≥ s.totalpages) (hcount : count.toNat ≤ 8) :
    pmmAllocpages count s
      = (getFirstUnset s.bitmap s.bitmapSize * 4096,
          { s with usedpages := s.usedpages + count }) := by
  have hall : ((List.range count.toNat).all
      fun i => bitmapGet s.bitmap (BitVec.ofNat 64 i) == true) = true := by
    rw [List.all_eq_true]
    intro i hi
    have hlt := List.mem_range.mp hi
    rw [bitmapGet_of_lt s.bitmap (by omega), hnull]
    rfl
  rw [pmmAllocpages, if_neg hguard]
  exact if_pos hall

/-- More than eight: nothing is handed out. -/
theorem pmmAllocpages_of_lt (s : PmmInfo β) {count : U64} (hcount : 8 < count.toNat) :
    pmmAllocpages count s = (0, s) := by
  have hall : ¬ ((List.range count.toNat).all
      fun i => bitmapGet s.bitmap (BitVec.ofNat 64 i) == true) = true := by
    rw [List.all_eq_true]
    intro h
    have h8 := h 8 (List.mem_range.mpr hcount)
    rw [bitmapGet_eight] at h8
    exact absurd h8 (by decide)
  rw [pmmAllocpages, if_neg hall]
  exact ite_self _

/-- No bit ever changes. -/
theorem bitmap_pmmAllocpages (s : PmmInfo β) (count : U64) :
    (pmmAllocpages count s).2.bitmap = s.bitmap := by
  unfold pmmAllocpages
  split
  · rfl
  · dsimp only
    split <;> rfl

/-- Frames that were free are free after the call, so the next call can hand them out. -/
theorem allocpages_keeps_bit (s : PmmInfo β) (count : U64) {k : ℕ} (hk : k ∈ freeFrames s) :
    bit (pmmAllocpages count s).2.bitmap k = false := by
  rw [bitmap_pmmAllocpages]
  exact (mem_clear.mp hk).2

theorem not_allocates {s : PmmInfo β} {count : U64} (hcount : 1 ≤ count.toNat) (k : ℕ) :
    ¬ Allocates count s (pmmAllocpages count s) k := by
  intro h
  have hk : k ∈ freeFrames s := h.free 0 hcount
  have hset := h.bits k
  rw [allocpages_keeps_bit s count hk] at hset
  have hin : k ≤ k ∧ k < k + count.toNat := by omega
  rw [decide_eq_true hin, Bool.or_true] at hset
  exact Bool.false_ne_true hset

/-! ## The contract -/

/-- **Contiguous allocation.**  The code keeps its contract if and only if no frame is free,
or more than eight frames are asked for and there is no such run. -/
theorem allocpages_contract_iff {s : PmmInfo β} {count : U64} (hnull : bit s.bitmap 0 = true)
    (hused : s.usedpages.toNat + (freeFrames s).card = s.totalpages.toNat)
    (hcount : 1 ≤ count.toNat) :
    ((∃ k, Allocates count s (pmmAllocpages count s) k) ∨
        Refuses count s (pmmAllocpages count s)) ↔
      freeFrames s = ∅ ∨ (8 < count.toNat ∧ ∀ k, ¬ FreeRun s count.toNat k) := by
  constructor
  · rintro (⟨k, halloc⟩ | hrefuse)
    · exact absurd halloc (not_allocates hcount k)
    · by_cases hguard : s.usedpages ≥ s.totalpages
      · exact Or.inl ((guard_iff hused).mp hguard)
      refine Or.inr ⟨?_, hrefuse.noRun⟩
      by_contra hle
      -- the counter would not have stayed the same
      have heq := hrefuse.unchanged
      rw [pmmAllocpages_of_le hnull hguard (by omega)] at heq
      have hcounter : s.usedpages + count = s.usedpages :=
        congrArg (fun r : U64 × PmmInfo β => r.2.usedpages) heq
      have hzero : count.toNat = 0 := by bv_omega
      omega
  · rintro (hfull | ⟨hlt, hnoRun⟩)
    · refine Or.inr ⟨?_, fun k hrun => ?_⟩
      · rw [pmmAllocpages, if_pos ((guard_iff hused).mpr hfull)]
      · have hk := hrun 0 hcount
        rw [hfull] at hk
        exact absurd hk (Finset.notMem_empty _)
    · exact Or.inr ⟨pmmAllocpages_of_lt s hlt, hnoRun⟩

/-- Nine frames in a row are not to be had from seven. -/
theorem allocpages_contract_oneByte :
    (∃ k, Allocates 9 oneByte (pmmAllocpages 9 oneByte) k) ∨
      Refuses 9 oneByte (pmmAllocpages 9 oneByte) := by
  refine (allocpages_contract_iff (by decide) (by decide) (by decide)).mpr
    (Or.inr ⟨by decide, fun k hrun => ?_⟩)
  have h8 := (mem_clear.mp (hrun 8 (by decide))).1
  have hsize : 8 * oneByte.bitmapSize.toNat = 8 := by decide
  omega

/-- Two frames of seven: the first free one is handed out and stays free. -/
theorem allocpages_unmarked :
    ¬ ∀ (s : PmmInfo (ℕ → U8)) (count : U64), bit s.bitmap 0 = true →
      s.usedpages.toNat + (freeFrames s).card = s.totalpages.toNat → 1 ≤ count.toNat →
      (∃ k, Allocates count s (pmmAllocpages count s) k) ∨
        Refuses count s (pmmAllocpages count s) := by
  intro hclaim
  rcases hclaim oneByte 2 (by decide) (by decide) (by decide) with ⟨k, halloc⟩ | hrefuse
  · exact not_allocates (by decide) k halloc
  · have hnonzero : (pmmAllocpages 2 oneByte).1 ≠ 0 := by decide
    exact hnonzero (congrArg Prod.fst hrefuse.unchanged)

end Pmm
