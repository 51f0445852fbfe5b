/-
# The frame bitmap

The helpers at the top of `pmm.c`: `bitmap_set`, `bitmap_unset`, `bitmap_get` and the
search `get_first_unset`.  A set bit is a used frame, a clear bit a free one.

The main fact is that the nested byte/bit search returns the least clear bit
(`getFirstUnset_of_least`), and the value `0` when there is none
(`getFirstUnset_of_full`).
-/
import FzzOS.Words
import FzzOS.ByteStore

open ByteStore

namespace Pmm

variable {β : Type} [ByteStore β]

/-! ## The helpers -/

/-- `bitmap[bit / 8] |= (1 << (bit % 8))`. -/
def bitmapSet (bitmap : β) (bit : U64) : β :=
  store bitmap (bit / 8).toNat
    (load bitmap (bit / 8).toNat ||| 1#8 <<< (bit % 8).toNat)

/-- `bitmap[bit / 8] &= ~(1 << (bit % 8))`. -/
def bitmapUnset (bitmap : β) (bit : U64) : β :=
  store bitmap (bit / 8).toNat
    (load bitmap (bit / 8).toNat &&& ~~~(1#8 <<< (bit % 8).toNat))

/-- `bitmap[bit/8] & (1 << (bit & 8))`, as a truth value. -/
def bitmapGet (bitmap : β) (bit : U64) : Bool :=
  -- the mask is `bit & 8`, where the other two helpers have `bit % 8`
  (load bitmap (bit / 8).toNat).setWidth 32 &&& (1#32 <<< (bit &&& 8).toNat) ≠ 0

/-- One round of the outer loop of the search: byte `i`, bit by bit unless it is full. -/
def firstUnsetOfByte (bitmap : β) (i : ℕ) : Option U64 :=
  if load bitmap i ≠ 0xff#8 then
    (List.range 8).findSome? fun j =>
      if load bitmap i &&& (1#8 <<< j) = 0 then
        some (BitVec.ofNat 64 i * 8 + BitVec.ofNat 64 j)
      else none
  else none

/-- The first clear bit of the `size` bytes of the bitmap; the search answers `0` when
every byte is full. -/
def getFirstUnset (bitmap : β) (size : U64) : U64 :=
  ((List.range size.toNat).findSome? (firstUnsetOfByte bitmap)).getD 0

/-! ## The test -/

/-- In every second byte the test looks at bit 0, whatever bit it is asked for, in the
others at no bit of the byte. -/
theorem bitmapGet_eq (bitmap : β) (b : U64) :
    bitmapGet bitmap b = (!b.getLsbD 3 && bit bitmap (8 * (b.toNat / 8))) := by
  have hbyte : (b / 8).toNat = b.toNat / 8 := BitVec.toNat_udiv
  have hmask : b &&& 8 = if b.getLsbD 3 then 8 else 0 := BitVec.and_twoPow b 3
  rw [bitmapGet, hbyte, hmask, bit, show 8 * (b.toNat / 8) / 8 = b.toNat / 8 by omega,
    show 8 * (b.toNat / 8) % 8 = 0 by omega]
  generalize load bitmap (b.toNat / 8) = x
  cases b.getLsbD 3 with
  | true =>
    -- `1 << 8` lies beyond the byte
    have hzero : x.setWidth 32 &&& 256#32 = 0 := by
      rw [show (256#32) = BitVec.twoPow 32 8 from rfl, BitVec.and_twoPow,
        BitVec.getLsbD_setWidth, BitVec.getLsbD_of_ge x 8 (le_refl 8)]
      rfl
    simpa using hzero
  | false =>
    have hone : x.setWidth 32 &&& 1#32 = if x.getLsbD 0 then 1 else 0 := by
      rw [show (1#32) = BitVec.twoPow 32 0 from rfl, BitVec.and_twoPow,
        BitVec.getLsbD_setWidth]
      rfl
    show decide (x.setWidth 32 &&& 1#32 ≠ 0) = x.getLsbD 0
    rw [hone]
    cases x.getLsbD 0 <;> rfl

/-! ## The two updates -/

variable [LawfulByteStore β]

theorem bit_bitmapSet (bitmap : β) (b : U64) (k : ℕ) :
    bit (bitmapSet bitmap b) k = (bit bitmap k || decide (k = b.toNat)) := by
  rw [bitmapSet, BitVec.toNat_udiv, BitVec.toNat_umod]
  exact bit_store_or bitmap b.toNat k

theorem bit_bitmapUnset (bitmap : β) (b : U64) (k : ℕ) :
    bit (bitmapUnset bitmap b) k = (bit bitmap k && !decide (k = b.toNat)) := by
  rw [bitmapUnset, BitVec.toNat_udiv, BitVec.toNat_umod]
  exact bit_store_and_not bitmap b.toNat k

theorem clear_bitmapSet (bitmap : β) (b : U64) (n : ℕ) :
    clear (bitmapSet bitmap b) n = (clear bitmap n).erase b.toNat := by
  ext k
  rw [Finset.mem_erase, mem_clear, mem_clear, bit_bitmapSet]
  by_cases hk : k = b.toNat <;> simp [hk]

theorem clear_bitmapUnset (bitmap : β) {b : U64} {n : ℕ} (hb : b.toNat < n) :
    clear (bitmapUnset bitmap b) n = insert b.toNat (clear bitmap n) := by
  ext k
  rw [Finset.mem_insert, mem_clear, mem_clear, bit_bitmapUnset]
  by_cases hk : k = b.toNat
  · simp [hk, hb]
  · simp [hk]

omit [LawfulByteStore β]

/-! ## The search -/

/-- A loop with an early return stops at the first index that returns. -/
theorem findSome?_range_of_first {γ : Type} {h : ℕ → Option γ} {i n : ℕ} {x : γ} (hi : i < n)
    (hnone : ∀ j < i, h j = none) (hsome : h i = some x) :
    (List.range n).findSome? h = some x := by
  obtain ⟨d, rfl⟩ : ∃ d, n = i + (d + 1) := ⟨n - i - 1, by omega⟩
  have hfirst : (List.range i).findSome? h = none := by
    rw [List.findSome?_eq_none_iff]
    intro j hj
    exact hnone j (List.mem_range.mp hj)
  rw [List.range_add, List.findSome?_append, hfirst, Option.none_or, List.range_succ_eq_map,
    List.map_cons, List.findSome?_cons, Nat.add_zero, hsome]

/-- A full byte ends its round without an answer. -/
theorem firstUnsetOfByte_of_full {bitmap : β} {i : ℕ}
    (hfull : ∀ j < 8, bit bitmap (8 * i + j) = true) : firstUnsetOfByte bitmap i = none := by
  rw [firstUnsetOfByte, if_neg]
  rw [ne_ff_iff]
  rintro ⟨j, hj, hbit⟩
  have hset := hfull j hj
  rw [bit, show (8 * i + j) / 8 = i by omega, show (8 * i + j) % 8 = j by omega, hbit] at hset
  exact Bool.false_ne_true hset

/-- The inner loop stops at the first clear bit of the byte. -/
theorem firstUnsetOfByte_of_first {bitmap : β} {i j : ℕ} (hj : j < 8)
    (hmin : ∀ j' < j, bit bitmap (8 * i + j') = true) (hclear : bit bitmap (8 * i + j) = false) :
    firstUnsetOfByte bitmap i = some (BitVec.ofNat 64 i * 8 + BitVec.ofNat 64 j) := by
  have hbit : ∀ j' < 8, bit bitmap (8 * i + j') = (load bitmap i).getLsbD j' := by
    intro j' hj'
    rw [bit, show (8 * i + j') / 8 = i by omega, show (8 * i + j') % 8 = j' by omega]
  rw [hbit j hj] at hclear
  rw [firstUnsetOfByte, if_pos ((ne_ff_iff _).mpr ⟨j, hj, hclear⟩)]
  refine findSome?_range_of_first hj (fun j' hj' => ?_) ?_
  · have hset := hmin j' hj'
    rw [hbit j' (by omega)] at hset
    rw [if_neg]
    rw [and_one_shiftLeft_eq_zero (by omega), hset]
    exact Bool.true_eq_false.mp
  · rw [if_pos ((and_one_shiftLeft_eq_zero hj _).mpr hclear)]

/-- **The search finds the least clear bit.** -/
theorem getFirstUnset_of_least {bitmap : β} {size : U64} {k : ℕ}
    (hk : k ∈ clear bitmap (8 * size.toNat))
    (hmin : ∀ k' ∈ clear bitmap (8 * size.toNat), k ≤ k') :
    getFirstUnset bitmap size = BitVec.ofNat 64 k := by
  obtain ⟨hlt, hclear⟩ := mem_clear.mp hk
  have hset : ∀ k' < k, bit bitmap k' = true := by
    intro k' hk'
    by_contra hcon
    have hmem : k' ∈ clear bitmap (8 * size.toNat) :=
      mem_clear.mpr ⟨by omega, by simpa using hcon⟩
    have := hmin k' hmem
    omega
  have hfound : (List.range size.toNat).findSome? (firstUnsetOfByte bitmap)
      = some (BitVec.ofNat 64 (k / 8) * 8 + BitVec.ofNat 64 (k % 8)) := by
    refine findSome?_range_of_first (i := k / 8) (by omega) (fun i hi => ?_) ?_
    · exact firstUnsetOfByte_of_full fun j hj => hset _ (by omega)
    · refine firstUnsetOfByte_of_first (Nat.mod_lt k (by decide))
        (fun j hj => hset _ (by omega)) ?_
      rw [Nat.div_add_mod]
      exact hclear
  rw [getFirstUnset, hfound, Option.getD_some]
  apply BitVec.eq_of_toNat_eq
  simp only [BitVec.toNat_add, BitVec.toNat_mul, BitVec.toNat_ofNat, BitVec.reduceToNat]
  omega

/-- **The search answers `0` on a full bitmap.** -/
theorem getFirstUnset_of_full {bitmap : β} {size : U64}
    (hfull : clear bitmap (8 * size.toNat) = ∅) : getFirstUnset bitmap size = 0 := by
  have hnone : (List.range size.toNat).findSome? (firstUnsetOfByte bitmap) = none := by
    rw [List.findSome?_eq_none_iff]
    intro i hi
    have hlt := List.mem_range.mp hi
    refine firstUnsetOfByte_of_full fun j hj => ?_
    by_contra hcon
    have hmem : 8 * i + j ∈ clear bitmap (8 * size.toNat) :=
      mem_clear.mpr ⟨by omega, by simpa using hcon⟩
    rw [hfull] at hmem
    exact absurd hmem (Finset.notMem_empty _)
  rw [getFirstUnset, hnone]
  rfl

end Pmm
