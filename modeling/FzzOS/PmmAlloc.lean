/-
# The physical memory manager: single frames

`pmm_allocpage` and `pmm_freepage` over `struct pmm_info`.  The manager keeps two
records of the free frames, the bitmap and the counter `usedpages`; `Consistent`
says that they agree.

* `pmmAllocpage_of_least`, `pmmAllocpage_of_full` : what one allocation does;
* `Run` : the runs in which only held pages are freed;
* `run_refines` : every such run is a run of first-fit ownership, with the counter in
  step.
-/
import FzzOS.Bitmap
import FzzOS.FirstFit
import Mathlib.Data.Finset.Max

open ByteStore

/-- `struct pmm_info`.  The bitmap is whatever its bytes are read from. -/
structure PmmInfo (β : Type) where
  totalmem : U64
  usedpages : U64
  totalpages : U64
  bitmap : β
  bitmapSize : U64

namespace Pmm

variable {β : Type} [ByteStore β]

/-! ## The functions -/

/-- `pmm_allocpage`.  A result of `0` is `NULL`. -/
def pmmAllocpage (s : PmmInfo β) : U64 × PmmInfo β :=
  -- the counter decides whether there is a page, the bitmap only which one
  if s.usedpages ≥ s.totalpages then (0, s)
  else
    let index := getFirstUnset s.bitmap s.bitmapSize
    (index * 4096,
      { s with bitmap := bitmapSet s.bitmap index, usedpages := s.usedpages + 1 })

/-- `pmm_freepage`. -/
def pmmFreepage (page : U64) (s : PmmInfo β) : PmmInfo β :=
  { s with bitmap := bitmapUnset s.bitmap (page / 4096), usedpages := s.usedpages - 1 }

/-! ## The free frames -/

/-- The frames whose bit is clear. -/
def freeFrames (s : PmmInfo β) : Finset ℕ := clear s.bitmap (8 * s.bitmapSize.toNat)

/-- Bitmap and counter tell the same story, frame 0 is reserved, and every bit stands for
a frame with a 64-bit address. -/
structure Consistent (s : PmmInfo β) : Prop where
  nullUsed : bit s.bitmap 0 = true
  count : s.usedpages.toNat + (freeFrames s).card = s.totalpages.toNat
  frames : 8 * s.bitmapSize.toNat ≤ 2 ^ 52

theorem zero_notMem_freeFrames {s : PmmInfo β} (h : bit s.bitmap 0 = true) :
    0 ∉ freeFrames s := by
  rw [freeFrames, mem_clear, h]
  simp

theorem lt_of_mem_freeFrames {s : PmmInfo β} (h : 8 * s.bitmapSize.toNat ≤ 2 ^ 52) {k : ℕ}
    (hk : k ∈ freeFrames s) : k < 2 ^ 52 :=
  (mem_clear.mp hk).1.trans_le h

theorem Consistent.lt_of_mem {s : PmmInfo β} (h : Consistent s) {k : ℕ}
    (hk : k ∈ freeFrames s) : k < 2 ^ 52 :=
  lt_of_mem_freeFrames h.frames hk

/-- The counter test of `pmm_allocpage` is the question whether a frame is free. -/
theorem guard_iff {s : PmmInfo β}
    (h : s.usedpages.toNat + (freeFrames s).card = s.totalpages.toNat) :
    s.usedpages ≥ s.totalpages ↔ freeFrames s = ∅ := by
  rw [ge_iff_le, BitVec.le_def, ← Finset.card_eq_zero]
  omega

theorem Consistent.guard_iff {s : PmmInfo β} (h : Consistent s) :
    s.usedpages ≥ s.totalpages ↔ freeFrames s = ∅ :=
  Pmm.guard_iff h.count

/-- The product `index * PAGE_SIZE` is the address of the frame. -/
theorem ofNat_mul_4096 (k : ℕ) : BitVec.ofNat 64 k * 4096 = frameAddr k := by
  apply BitVec.eq_of_toNat_eq
  rw [frameAddr, BitVec.toNat_mul, BitVec.toNat_ofNat, BitVec.toNat_ofNat]
  simp only [BitVec.ofNat_eq_ofNat, BitVec.reduceToNat]
  omega

/-- Allocation with the counter below the total hands out the least clear bit. -/
theorem pmmAllocpage_of_least {s : PmmInfo β} (hguard : ¬ s.usedpages ≥ s.totalpages) {k : ℕ}
    (hk : k ∈ freeFrames s) (hmin : ∀ j ∈ freeFrames s, k ≤ j) :
    pmmAllocpage s = (frameAddr k,
      { s with
        bitmap := bitmapSet s.bitmap (BitVec.ofNat 64 k), usedpages := s.usedpages + 1 }) := by
  rw [pmmAllocpage, if_neg hguard]
  simp only [getFirstUnset_of_least hk hmin, ofNat_mul_4096]

/-- On a full bitmap the counter decides: below the total, the search's `0` is taken for
frame 0 and counted. -/
theorem pmmAllocpage_of_full {s : PmmInfo β} (hguard : ¬ s.usedpages ≥ s.totalpages)
    (hfull : freeFrames s = ∅) :
    pmmAllocpage s
      = (0, { s with bitmap := bitmapSet s.bitmap 0, usedpages := s.usedpages + 1 }) := by
  rw [pmmAllocpage, if_neg hguard]
  simp only [getFirstUnset_of_full hfull, BitVec.ofNat_eq_ofNat, BitVec.zero_mul]

theorem pmmAllocpage_of_guard {s : PmmInfo β} (hguard : s.usedpages ≥ s.totalpages) :
    pmmAllocpage s = (0, s) := by
  rw [pmmAllocpage, if_pos hguard]

/-- An allocation that succeeds hands out the least clear bit. -/
theorem pmmAllocpage_of_ne_zero {s : PmmInfo β} (h : (pmmAllocpage s).1 ≠ 0) :
    ∃ k ∈ freeFrames s, (∀ j ∈ freeFrames s, k ≤ j) ∧ ¬ s.usedpages ≥ s.totalpages ∧
      pmmAllocpage s = (frameAddr k,
        { s with
          bitmap := bitmapSet s.bitmap (BitVec.ofNat 64 k), usedpages := s.usedpages + 1 }) := by
  have hguard : ¬ s.usedpages ≥ s.totalpages := by
    intro hguard
    rw [pmmAllocpage_of_guard hguard] at h
    exact h rfl
  have hfree : (freeFrames s).Nonempty := by
    rw [Finset.nonempty_iff_ne_empty]
    intro hfull
    rw [pmmAllocpage_of_full hguard hfull] at h
    exact h rfl
  obtain ⟨k, hk, hmin⟩ := Finset.exists_min_image (freeFrames s) id hfree
  exact ⟨k, hk, hmin, hguard, pmmAllocpage_of_least hguard hk hmin⟩

/-- `Consistent` spelled out on one allocation: with no bit clear it fails and changes
nothing. -/
theorem Consistent.alloc_of_full {s : PmmInfo β} (h : Consistent s) (hfull : freeFrames s = ∅) :
    pmmAllocpage s = (0, s) :=
  pmmAllocpage_of_guard (h.guard_iff.mpr hfull)

/-- With a bit clear it hands out the least one. -/
theorem Consistent.alloc_of_least {s : PmmInfo β} (h : Consistent s) {k : ℕ}
    (hk : k ∈ freeFrames s) (hmin : ∀ j ∈ freeFrames s, k ≤ j) :
    pmmAllocpage s = (frameAddr k,
      { s with
        bitmap := bitmapSet s.bitmap (BitVec.ofNat 64 k), usedpages := s.usedpages + 1 }) := by
  refine pmmAllocpage_of_least (fun hguard => ?_) hk hmin
  rw [h.guard_iff.mp hguard] at hk
  exact absurd hk (Finset.notMem_empty k)

theorem Consistent.addr_ne_zero {s : PmmInfo β} (h : Consistent s) {k : ℕ}
    (hk : k ∈ freeFrames s) : frameAddr k ≠ 0 := by
  refine frameAddr_ne_zero (h.lt_of_mem hk) fun h0 => ?_
  exact zero_notMem_freeFrames h.nullUsed (h0 ▸ hk)

variable [LawfulByteStore β]

/-- The frames free after setting bit `k` of the bitmap. -/
theorem freeFrames_bitmapSet (s : PmmInfo β) (used : U64) {k : ℕ} (hk : k < 2 ^ 64) :
    freeFrames
        { s with bitmap := bitmapSet s.bitmap (BitVec.ofNat 64 k), usedpages := used }
      = (freeFrames s).erase k := by
  rw [freeFrames, clear_bitmapSet, BitVec.toNat_ofNat, Nat.mod_eq_of_lt hk]
  rfl

/-- The frames free after freeing an address below the end of the bitmap. -/
theorem freeFrames_pmmFreepage (s : PmmInfo β) {page : U64}
    (hpage : frameOf page < 8 * s.bitmapSize.toNat) :
    freeFrames (pmmFreepage page s) = insert (frameOf page) (freeFrames s) := by
  have hindex : (page / 4096).toNat = frameOf page := BitVec.toNat_udiv
  rw [freeFrames, pmmFreepage, clear_bitmapUnset _ (by rw [hindex]; exact hpage), hindex]
  rfl

/-- Frame 0 stays reserved when another frame is freed. -/
theorem nullUsed_pmmFreepage {s : PmmInfo β} (h : bit s.bitmap 0 = true) {page : U64}
    (hpage : frameOf page ≠ 0) : bit (pmmFreepage page s).bitmap 0 = true := by
  have hindex : (page / 4096).toNat = frameOf page := BitVec.toNat_udiv
  rw [pmmFreepage, bit_bitmapUnset, hindex, h, decide_eq_false hpage.symm]
  rfl

/-- An allocation that finds a clear bit moves one from the clear bits to the used pages. -/
theorem alloc_count {s : PmmInfo β} (hguard : ¬ s.usedpages ≥ s.totalpages)
    (hfree : (freeFrames s).Nonempty) (hframes : 8 * s.bitmapSize.toNat ≤ 2 ^ 52) :
    (pmmAllocpage s).2.usedpages.toNat = s.usedpages.toNat + 1 ∧
      (freeFrames (pmmAllocpage s).2).card + 1 = (freeFrames s).card ∧
      (pmmAllocpage s).2.totalpages = s.totalpages ∧
      (pmmAllocpage s).2.bitmapSize = s.bitmapSize ∧
      (bit s.bitmap 0 = true → bit (pmmAllocpage s).2.bitmap 0 = true) := by
  obtain ⟨k, hk, hmin⟩ := Finset.exists_min_image (freeFrames s) id hfree
  have hk52 := lt_of_mem_freeFrames hframes hk
  rw [pmmAllocpage_of_least hguard hk hmin]
  refine ⟨toNat_add_one hguard, ?_, rfl, rfl, fun hbit => ?_⟩
  · rw [freeFrames_bitmapSet s _ (by omega)]
    exact Finset.card_erase_add_one hk
  · rw [bit_bitmapSet, hbit, Bool.true_or]

/-! ## Runs -/

/-- The held addresses after an allocation answered `r`. -/
def hold (r : U64) (held : List U64) : List U64 := if r = 0 then held else r :: held

/-- The runs from `s₀` in which only held pages are freed, with the addresses held. -/
inductive Run (s₀ : PmmInfo β) : PmmInfo β → List U64 → Prop
  | start : Run s₀ s₀ []
  | alloc {s : PmmInfo β} {held : List U64} (h : Run s₀ s held) :
      Run s₀ (pmmAllocpage s).2 (hold (pmmAllocpage s).1 held)
  | free {s : PmmInfo β} {held : List U64} {page : U64} (h : Run s₀ s held)
      (hpage : page ∈ held) : Run s₀ (pmmFreepage page s) (held.erase page)

/-- What a run keeps, counter and bitmap consistent or not: the frames went through a run
of first-fit ownership, and the counter counts at least the held ones. -/
structure Tracks (s₀ s : PmmInfo β) (frames : List ℕ) : Prop where
  run : Relation.ReflTransGen FirstFit.Step ⟨freeFrames s₀, []⟩ ⟨freeFrames s, frames⟩
  used : s₀.usedpages.toNat + frames.length ≤ s.usedpages.toNat
  totalpages : s.totalpages = s₀.totalpages
  bitmapSize : s.bitmapSize = s₀.bitmapSize

omit [LawfulByteStore β] in
theorem Tracks.owns {s₀ s : PmmInfo β} {frames : List ℕ} (h : Tracks s₀ s frames) :
    FirstFit.Owns (freeFrames s₀) ⟨freeFrames s, frames⟩ :=
  (FirstFit.Owns.start _).reach h.run

/-- Frames have different addresses, so erasing an address erases its frame. -/
theorem map_frameAddr_erase {frames : List ℕ} {k : ℕ} (hk : k < 2 ^ 52)
    (hlt : ∀ j ∈ frames, j < 2 ^ 52) :
    (frames.map frameAddr).erase (frameAddr k) = (frames.erase k).map frameAddr := by
  induction frames with
  | nil => rfl
  | cons j frames ih =>
    have hj := hlt j (List.mem_cons_self ..)
    rw [List.map_cons, List.erase_cons, List.erase_cons]
    rcases eq_or_ne j k with rfl | hne
    · simp
    · have haddr : frameAddr j ≠ frameAddr k := fun h => hne (frameAddr_inj hj hk h)
      rw [if_neg (by simpa using haddr), if_neg (by simpa using hne), List.map_cons,
        ih fun i hi => hlt i (List.mem_cons_of_mem _ hi)]

/-- A member of a list of frame addresses. -/
theorem exists_of_mem_map_frameAddr {frames : List ℕ} {page : U64}
    (h : page ∈ frames.map frameAddr) : ∃ k ∈ frames, page = frameAddr k := by
  obtain ⟨k, hk, rfl⟩ := List.mem_map.mp h
  exact ⟨k, hk, rfl⟩

/-- Held addresses and held frames determine each other. -/
theorem map_frameOf_map_frameAddr {frames : List ℕ} (hlt : ∀ j ∈ frames, j < 2 ^ 52) :
    (frames.map frameAddr).map frameOf = frames := by
  rw [List.map_map]
  conv_rhs => rw [← List.map_id frames]
  exact List.map_congr_left fun j hj => frameOf_frameAddr (hlt j hj)

theorem Tracks.alloc {s₀ s : PmmInfo β} {frames : List ℕ} (h : Tracks s₀ s frames)
    (hlt : ∀ k ∈ freeFrames s₀, k < 2 ^ 52) (hzero : 0 ∉ freeFrames s₀) :
    ∃ frames', hold (pmmAllocpage s).1 (frames.map frameAddr) = frames'.map frameAddr ∧
      Tracks s₀ (pmmAllocpage s).2 frames' := by
  by_cases hguard : s.usedpages ≥ s.totalpages
  · rw [pmmAllocpage_of_guard hguard]
    exact ⟨frames, rfl, h⟩
  have hinc := toNat_add_one hguard
  have hused := h.used
  rcases (freeFrames s).eq_empty_or_nonempty with hfull | hfree
  · rw [pmmAllocpage_of_full hguard hfull]
    refine ⟨frames, rfl, ?_, ?_, h.totalpages, h.bitmapSize⟩
    · have := freeFrames_bitmapSet s (s.usedpages + 1) (k := 0) (by decide)
      rw [BitVec.ofNat_eq_ofNat, this, hfull, Finset.erase_empty, ← hfull]
      exact h.run
    · show s₀.usedpages.toNat + frames.length ≤ (s.usedpages + 1).toNat
      rw [hinc]
      omega
  · obtain ⟨k, hk, hmin⟩ := Finset.exists_min_image (freeFrames s) id hfree
    have hk₀ : k ∈ freeFrames s₀ := h.owns.mem_of_free hk
    have hk52 := hlt k hk₀
    rw [pmmAllocpage_of_least hguard hk hmin]
    refine ⟨k :: frames, ?_, ?_, ?_, h.totalpages, h.bitmapSize⟩
    · rw [hold, if_neg (frameAddr_ne_zero hk52 fun h0 => hzero (h0 ▸ hk₀)), List.map_cons]
    · rw [freeFrames_bitmapSet s _ (by omega)]
      exact h.run.tail (FirstFit.Step.take hk hmin)
    · rw [List.length_cons]
      show s₀.usedpages.toNat + (frames.length + 1) ≤ (s.usedpages + 1).toNat
      rw [hinc]
      omega

theorem Tracks.free {s₀ s : PmmInfo β} {frames : List ℕ} (h : Tracks s₀ s frames)
    (hlt : ∀ k ∈ freeFrames s₀, k < 2 ^ 52) {k : ℕ} (hk : k ∈ frames) :
    Tracks s₀ (pmmFreepage (frameAddr k) s) (frames.erase k) := by
  have hk₀ : k ∈ freeFrames s₀ := h.owns.mem_of_held hk
  have hk52 := hlt k hk₀
  have hpos := List.length_pos_of_mem hk
  have hused := h.used
  have hdec : (s.usedpages - 1).toNat = s.usedpages.toNat - 1 := toNat_sub_one (by omega)
  refine ⟨?_, ?_, h.totalpages, h.bitmapSize⟩
  · rw [freeFrames_pmmFreepage, frameOf_frameAddr hk52]
    · exact h.run.tail (FirstFit.Step.give hk)
    · rw [frameOf_frameAddr hk52, h.bitmapSize]
      exact (mem_clear.mp hk₀).1
  · rw [List.length_erase_of_mem hk]
    show s₀.usedpages.toNat + (frames.length - 1) ≤ (s.usedpages - 1).toNat
    rw [hdec]
    omega

/-- **Every run is a run of first-fit ownership.** -/
theorem run_refines {s₀ s : PmmInfo β} {held : List U64}
    (hlt : ∀ k ∈ freeFrames s₀, k < 2 ^ 52) (hzero : 0 ∉ freeFrames s₀)
    (hrun : Run s₀ s held) :
    ∃ frames : List ℕ, held = frames.map frameAddr ∧ Tracks s₀ s frames := by
  induction hrun with
  | start =>
    exact ⟨[], rfl, ⟨Relation.ReflTransGen.refl, by rw [List.length_nil]; omega, rfl, rfl⟩⟩
  | alloc _ ih =>
    obtain ⟨frames, rfl, h⟩ := ih
    exact h.alloc hlt hzero
  | free _ hpage ih =>
    obtain ⟨frames, rfl, h⟩ := ih
    obtain ⟨k, hk, rfl⟩ := exists_of_mem_map_frameAddr hpage
    have hlt' : ∀ j ∈ frames, j < 2 ^ 52 := fun j hj => hlt j (h.owns.mem_of_held hj)
    exact ⟨frames.erase k, map_frameAddr_erase (hlt' k hk) hlt', h.free hlt hk⟩

/-! ## Consistent runs -/

theorem Consistent.alloc {s : PmmInfo β} (h : Consistent s) : Consistent (pmmAllocpage s).2 := by
  by_cases hguard : s.usedpages ≥ s.totalpages
  · rw [pmmAllocpage_of_guard hguard]
    exact h
  have hfree : (freeFrames s).Nonempty :=
    Finset.nonempty_iff_ne_empty.mpr fun hfull => hguard (h.guard_iff.mpr hfull)
  obtain ⟨hused, hcard, htotal, hsize, hbit⟩ := alloc_count hguard hfree h.frames
  have hcount := h.count
  exact ⟨hbit h.nullUsed, by rw [htotal]; omega, by rw [hsize]; exact h.frames⟩

theorem Consistent.free {s : PmmInfo β} (h : Consistent s) {k : ℕ} (hk52 : k < 2 ^ 52)
    (hk0 : k ≠ 0) (hk : k < 8 * s.bitmapSize.toNat) (hused : k ∉ freeFrames s)
    (hpos : 0 < s.usedpages.toNat) : Consistent (pmmFreepage (frameAddr k) s) := by
  refine ⟨nullUsed_pmmFreepage h.nullUsed (by rw [frameOf_frameAddr hk52]; exact hk0), ?_,
    h.frames⟩
  have hcount := h.count
  rw [freeFrames_pmmFreepage s (by rw [frameOf_frameAddr hk52]; exact hk),
    frameOf_frameAddr hk52, Finset.card_insert_of_notMem hused]
  show (s.usedpages - 1).toNat + ((freeFrames s).card + 1) = s.totalpages.toNat
  rw [toNat_sub_one hpos]
  omega

/-- Counter and bitmap stay consistent along every run. -/
theorem Consistent.run {s₀ s : PmmInfo β} {held : List U64} (h₀ : Consistent s₀)
    (hrun : Run s₀ s held) : Consistent s := by
  have hlt : ∀ k ∈ freeFrames s₀, k < 2 ^ 52 := fun k hk => h₀.lt_of_mem hk
  have hzero := zero_notMem_freeFrames h₀.nullUsed
  induction hrun with
  | start => exact h₀
  | alloc _ ih => exact ih.alloc
  | free hrun hpage ih =>
    obtain ⟨frames, rfl, h⟩ := run_refines hlt hzero hrun
    obtain ⟨k, hk, rfl⟩ := exists_of_mem_map_frameAddr hpage
    have hk₀ := h.owns.mem_of_held hk
    have hpos := List.length_pos_of_mem hk
    have hused := h.used
    refine ih.free (hlt k hk₀) (fun h0 => hzero (h0 ▸ hk₀)) ?_ (h.owns.disjoint k hk) (by omega)
    rw [h.bitmapSize]
    exact (mem_clear.mp hk₀).1

/-- **Single-page allocation over whole runs.**  Counter and bitmap agree after every step;
an allocation fails exactly when no bit is clear, and then changes nothing; otherwise it
returns the address of the least clear bit, which nobody holds, and sets that bit alone.
Free and held frames are at all times the frames that were free at the start. -/
theorem allocpage_freepage_run {s₀ s : PmmInfo β} {held : List U64} (h₀ : Consistent s₀)
    (hrun : Run s₀ s held) :
    s.usedpages.toNat + (freeFrames s).card = s.totalpages.toNat ∧
    ((pmmAllocpage s).1 = 0 ↔ freeFrames s = ∅) ∧
    (freeFrames s = ∅ → (pmmAllocpage s).2 = s) ∧
    (∀ k ∈ freeFrames s, (∀ j ∈ freeFrames s, k ≤ j) →
      (pmmAllocpage s).1.toNat = 4096 * k ∧ (pmmAllocpage s).1 ≠ 0 ∧
      (pmmAllocpage s).1 ∉ held ∧
      ∀ j, bit (pmmAllocpage s).2.bitmap j = (bit s.bitmap j || decide (j = k))) ∧
    held.Nodup ∧ (∀ page ∈ held, frameOf page ∉ freeFrames s) ∧
    ∀ k, k ∈ freeFrames s₀ ↔ k ∈ freeFrames s ∨ k ∈ held.map frameOf := by
  have hlt : ∀ k ∈ freeFrames s₀, k < 2 ^ 52 := fun k hk => h₀.lt_of_mem hk
  have hzero := zero_notMem_freeFrames h₀.nullUsed
  have hs := h₀.run hrun
  obtain ⟨frames, rfl, h⟩ := run_refines hlt hzero hrun
  have hheld : ∀ j ∈ frames, j < 2 ^ 52 := fun j hj => hlt j (h.owns.mem_of_held hj)
  have hmapOf := map_frameOf_map_frameAddr hheld
  refine ⟨hs.count, ⟨fun hnull => ?_, fun hempty => by rw [hs.alloc_of_full hempty]⟩,
    fun hempty => by rw [hs.alloc_of_full hempty], fun k hk hmin => ?_, ?_,
    fun page hpage => ?_, ?_⟩
  · by_contra hne
    obtain ⟨k, hk, hmin⟩ := Finset.exists_min_image (freeFrames s) id
      (Finset.nonempty_iff_ne_empty.mpr hne)
    rw [hs.alloc_of_least hk hmin] at hnull
    exact hs.addr_ne_zero hk hnull
  · have hk52 := hs.lt_of_mem hk
    have hkn : (BitVec.ofNat 64 k).toNat = k := by
      rw [BitVec.toNat_ofNat, Nat.mod_eq_of_lt (by omega)]
    rw [hs.alloc_of_least hk hmin]
    refine ⟨toNat_frameAddr hk52, hs.addr_ne_zero hk, fun hmem => ?_, fun j => ?_⟩
    · obtain ⟨j, hj, heq⟩ := exists_of_mem_map_frameAddr hmem
      have hkj : k = j := frameAddr_inj hk52 (hheld j hj) heq
      exact h.owns.disjoint j hj (hkj ▸ hk)
    · rw [bit_bitmapSet, hkn]
  · have hnodup : ((frames.map frameAddr).map frameOf).Nodup := by
      rw [hmapOf]
      exact h.owns.nodup
    exact hnodup.of_map _
  · obtain ⟨j, hj, rfl⟩ := exists_of_mem_map_frameAddr hpage
    rw [frameOf_frameAddr (hheld j hj)]
    exact h.owns.disjoint j hj
  · rw [hmapOf]
    exact h.owns.mem_total

/-- A manager of eight frames with only the `NULL` frame in use. -/
def oneByte : PmmInfo (ℕ → U8) where
  totalmem := 0x8000
  usedpages := 1
  totalpages := 8
  bitmap := fun _ => 0x01
  bitmapSize := 1

theorem oneByte_consistent : Consistent oneByte where
  nullUsed := by decide
  count := by decide
  frames := by decide

/-- Two allocations and a free of the first page: the next allocation returns it again. -/
theorem allocpage_freepage_run_oneByte :
    (pmmAllocpage (pmmFreepage 0x1000 (pmmAllocpage (pmmAllocpage oneByte).2).2)).1.toNat
      = 4096 * 1 :=
  ((allocpage_freepage_run oneByte_consistent
    ((Run.start.alloc.alloc).free (by decide))).2.2.2.1 1 (by decide) (by decide)).1

end Pmm
