/-
# The bootloader's memory map

A memory map is a list of entries in any order and of any types.  The file states what
a map says about the machine, before any code looks at it: which frames are usable
(`usableFrames`), how many bytes and frames it describes, and which usable entry is the
largest.  `card_usableFrames` counts the usable frames of a map whose usable entries are
disjoint.
-/
import FzzOS.Words
import Mathlib.Algebra.BigOperators.Group.List.Basic
import Mathlib.Data.List.MinMax
import Mathlib.Order.Interval.Finset.Nat

/-- `struct stivale2_mmap_entry`. -/
structure MmapEntry where
  base : U64
  length : U64
  type : BitVec 32
  deriving DecidableEq

/-- The memory map the boot loader hands over. -/
abbrev MemoryMap := List MmapEntry

namespace MmapEntry

/-- The frames inside an entry. -/
def frames (e : MmapEntry) : Finset ℕ :=
  Finset.Ico (frameOf e.base) (frameOf e.base + frameOf e.length)

/-- Frame `k` lies inside an entry. -/
def Holds (e : MmapEntry) (k : ℕ) : Prop :=
  e.base.toNat ≤ 4096 * k ∧ 4096 * (k + 1) ≤ e.base.toNat + e.length.toNat

/-- Two entries describe disjoint ranges of addresses. -/
def Apart (e e' : MmapEntry) : Prop :=
  e.base.toNat + e.length.toNat ≤ e'.base.toNat ∨ e'.base.toNat + e'.length.toNat ≤ e.base.toNat

instance (e e' : MmapEntry) : Decidable (Apart e e') :=
  inferInstanceAs (Decidable (_ ∨ _))

/-- The frames of an aligned entry. -/
theorem mem_frames_iff {e : MmapEntry} (he : Aligned e.base ∧ Aligned e.length) {k : ℕ} :
    k ∈ e.frames ↔ e.Holds k := by
  unfold Aligned at he
  rw [frames, Finset.mem_Ico, Holds, frameOf, frameOf]
  omega

end MmapEntry

namespace MemoryMap

/-- The usable entries, of type 1. -/
def usable (mmap : MemoryMap) : MemoryMap := mmap.filter fun e => e.type = 1

/-- The frames of the usable entries. -/
def usableFrames (mmap : MemoryMap) : Finset ℕ :=
  (usable mmap).foldr (fun e s => e.frames ∪ s) ∅

/-- The number of 4 KiB pages of the usable entries, each entry counted by itself. -/
def usablePages (mmap : MemoryMap) : ℕ := ((usable mmap).map fun e => frameOf e.length).sum

/-- The frames of memory the map describes, entries of every type taken together, as far
as their total length fits a 64-bit word. -/
def totalPages (mmap : MemoryMap) : ℕ :=
  (mmap.map fun e => e.length.toNat).sum % 2 ^ 64 / 4096

/-- The bytes of a bitmap with a bit for each of those frames. -/
def bitmapBytes (mmap : MemoryMap) : ℕ := totalPages mmap / 8 + 1

/-- The first of the largest nonempty usable entries. -/
def largestUsable (mmap : MemoryMap) : Option MmapEntry :=
  (mmap.filter fun e => e.type = 1 ∧ 0 < e.length.toNat).argmax fun e => e.length.toNat

/-- The base of the largest usable entry, `0` when there is none. -/
def largestBase (mmap : MemoryMap) : U64 := (largestUsable mmap).elim 0 MmapEntry.base

/-- What the bootloader guarantees of the usable entries. -/
structure WellFormed (mmap : MemoryMap) : Prop where
  aligned : ∀ e ∈ usable mmap, Aligned e.base ∧ Aligned e.length
  disjoint : (usable mmap).Pairwise MmapEntry.Apart

theorem mem_usableFrames {mmap : MemoryMap} {k : ℕ} :
    k ∈ usableFrames mmap ↔ ∃ e ∈ usable mmap, k ∈ e.frames := by
  unfold usableFrames
  induction usable mmap with
  | nil => simp
  | cons e es ih =>
    rw [List.foldr_cons, Finset.mem_union, ih]
    simp

/-- Where the usable entries end. -/
theorem lt_of_usable_end {mmap : MemoryMap} {n : ℕ}
    (hend : ∀ e ∈ usable mmap, e.base.toNat + e.length.toNat ≤ 4096 * n) :
    ∀ e ∈ usable mmap, ∀ k, e.Holds k → k < n := by
  intro e he k hk
  have hlast := hk.2.trans (hend e he)
  omega

/-- The usable frames are those inside a usable entry. -/
theorem mem_usableFrames_iff {mmap : MemoryMap} (h : WellFormed mmap) {k : ℕ} :
    k ∈ usableFrames mmap ↔ ∃ e ∈ usable mmap, e.Holds k := by
  rw [mem_usableFrames]
  refine exists_congr fun e => and_congr_right fun he => ?_
  exact MmapEntry.mem_frames_iff (h.aligned e he)

/-- A further entry becomes the largest one if it is usable and longer than the rest. -/
theorem largestUsable_concat (mmap : MemoryMap) (e : MmapEntry) :
    largestUsable (mmap ++ [e])
      = if e.type = 1 ∧ (largestUsable mmap).elim 0 (fun c => c.length.toNat) < e.length.toNat
        then some e else largestUsable mmap := by
  unfold largestUsable
  rw [List.filter_append]
  by_cases he : e.type = 1 ∧ 0 < e.length.toNat
  · rw [List.filter_cons_of_pos (by simpa using he), List.filter_nil, List.argmax_concat]
    cases (mmap.filter fun e => e.type = 1 ∧ 0 < e.length.toNat).argmax
        (fun e => e.length.toNat) with
    | none => simp [he]
    | some c => simp [he.1]
  · rw [List.filter_cons_of_neg (by simpa using he), List.filter_nil, List.append_nil, if_neg]
    rintro ⟨htype, hlt⟩
    exact he ⟨htype, by omega⟩

theorem totalPages_lt (mmap : MemoryMap) : totalPages mmap < 2 ^ 52 := by
  unfold totalPages
  omega

/-- The frames of aligned entries that lie apart are disjoint. -/
theorem disjoint_frames {e e' : MmapEntry} (he : Aligned e.base ∧ Aligned e.length)
    (he' : Aligned e'.base ∧ Aligned e'.length) (h : e.Apart e') :
    Disjoint e.frames e'.frames := by
  rw [Finset.disjoint_left]
  intro k hk hk'
  simp only [MmapEntry.frames, Finset.mem_Ico, frameOf] at hk hk'
  simp only [Aligned] at he he'
  unfold MmapEntry.Apart at h
  omega

theorem disjoint_foldr_frames {e : MmapEntry} {es : List MmapEntry}
    (he : Aligned e.base ∧ Aligned e.length)
    (hes : ∀ e' ∈ es, Aligned e'.base ∧ Aligned e'.length) (h : ∀ e' ∈ es, e.Apart e') :
    Disjoint e.frames (es.foldr (fun e s => e.frames ∪ s) ∅) := by
  induction es with
  | nil => exact Finset.disjoint_empty_right _
  | cons e' es ih =>
    rw [List.foldr_cons, Finset.disjoint_union_right]
    constructor
    · exact disjoint_frames he (hes e' (List.mem_cons_self ..)) (h e' (List.mem_cons_self ..))
    · exact ih (fun a ha => hes a (List.mem_cons_of_mem _ ha))
        fun a ha => h a (List.mem_cons_of_mem _ ha)

/-- **Disjoint usable entries**: the usable frames are counted entry by entry. -/
theorem card_usableFrames {mmap : MemoryMap} (h : WellFormed mmap) :
    (usableFrames mmap).card = usablePages mmap := by
  obtain ⟨haligned, hdisj⟩ := h
  unfold usableFrames usablePages
  revert haligned hdisj
  generalize usable mmap = es
  intro haligned hdisj
  induction es with
  | nil => rfl
  | cons e es ih =>
    obtain ⟨hhead, htail⟩ := List.pairwise_cons.mp hdisj
    have hes : ∀ e' ∈ es, Aligned e'.base ∧ Aligned e'.length := fun e' he' =>
      haligned e' (List.mem_cons_of_mem _ he')
    have hsep := disjoint_foldr_frames (haligned e (List.mem_cons_self ..)) hes hhead
    rw [List.foldr_cons, Finset.card_union_of_disjoint hsep, ih hes htail, List.map_cons,
      List.sum_cons, MmapEntry.frames, Nat.card_Ico, Nat.add_sub_cancel_left]

/-- Every usable frame lies below `2 ^ 53`, so there are at most that many. -/
theorem usablePages_le {mmap : MemoryMap} (h : WellFormed mmap) :
    usablePages mmap ≤ 2 ^ 53 := by
  have hsub : usableFrames mmap ⊆ Finset.range (2 ^ 53) := by
    intro k hk
    obtain ⟨e, _, hke⟩ := mem_usableFrames.mp hk
    have hb := frameOf_lt e.base
    have hl := frameOf_lt e.length
    rw [MmapEntry.frames, Finset.mem_Ico] at hke
    rw [Finset.mem_range]
    omega
  rw [← card_usableFrames h, ← Finset.card_range (2 ^ 53)]
  exact Finset.card_le_card hsub

end MemoryMap
