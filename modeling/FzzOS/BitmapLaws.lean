/-
# The bitmap as an array of bits

Two helpers of `pmm.c` write a bit and one reads it.  The laws of an array of bits relate the
writers to a reader.

* `BitArray` : the laws, at an index written and an index read, for any reader;
* `bitArray_bit` : with the bits themselves as the reader they hold;
* `bitArray_bitmapGet_iff` : with `bitmap_get` they hold at the first bit of every second byte
  only, and only for readings there or outside this byte.
-/
import FzzOS.Bitmap

open ByteStore

namespace Pmm

variable {β : Type} [ByteStore β] {get : β → U64 → Bool} {bitmap : β} {i j : U64}

/-- **The laws of an array of bits**, for `bitmap_set` and `bitmap_unset` at index `i`, and
`get` at `i` and at `j`. -/
structure BitArray (get : β → U64 → Bool) (bitmap : β) (i j : U64) : Prop where
  get_set : get (bitmapSet bitmap i) i = true
  get_unset : get (bitmapUnset bitmap i) i = false
  get_set_of_ne : j ≠ i → get (bitmapSet bitmap i) j = get bitmap j
  get_unset_of_ne : j ≠ i → get (bitmapUnset bitmap i) j = get bitmap j
  unset_set : bit bitmap i.toNat = false →
    ∀ n, load (bitmapUnset (bitmapSet bitmap i) i) n = load bitmap n
  set_unset : bit bitmap i.toNat = true →
    ∀ n, load (bitmapSet (bitmapUnset bitmap i) i) n = load bitmap n

variable [LawfulByteStore β]

/-! ## The writers -/

theorem load_unset_set (h : bit bitmap i.toNat = false) (n : ℕ) :
    load (bitmapUnset (bitmapSet bitmap i) i) n = load bitmap n := by
  refine load_eq_of_bit (fun k => ?_) n
  rw [bit_bitmapUnset, bit_bitmapSet]
  by_cases hk : k = i.toNat
  · rw [hk, h, decide_eq_true rfl]
    rfl
  · rw [decide_eq_false hk, Bool.or_false, Bool.not_false, Bool.and_true]

theorem load_set_unset (h : bit bitmap i.toNat = true) (n : ℕ) :
    load (bitmapSet (bitmapUnset bitmap i) i) n = load bitmap n := by
  refine load_eq_of_bit (fun k => ?_) n
  rw [bit_bitmapSet, bit_bitmapUnset]
  by_cases hk : k = i.toNat
  · rw [hk, h, decide_eq_true rfl]
    rfl
  · rw [decide_eq_false hk, Bool.or_false, Bool.not_false, Bool.and_true]

/-- The writers write the bits. -/
theorem bitArray_bit (bitmap : β) (i j : U64) :
    BitArray (fun b i => bit b i.toNat) bitmap i j where
  get_set := by rw [bit_bitmapSet, decide_eq_true rfl, Bool.or_true]
  get_unset := by rw [bit_bitmapUnset, decide_eq_true rfl, Bool.not_true, Bool.and_false]
  get_set_of_ne hne := by
    rw [bit_bitmapSet, decide_eq_false fun h => hne (BitVec.eq_of_toNat_eq h), Bool.or_false]
  get_unset_of_ne hne := by
    rw [bit_bitmapUnset, decide_eq_false fun h => hne (BitVec.eq_of_toNat_eq h), Bool.not_false,
      Bool.and_true]
  unset_set := load_unset_set
  set_unset := load_set_unset

/-! ## The reader -/

/-- `bitmap_get` after a write reads what the write left of the first bit of the byte. -/
theorem bitmapGet_set (bitmap : β) (i j : U64) : bitmapGet (bitmapSet bitmap i) j
    = (bitmapGet bitmap j || (!j.getLsbD 3 && decide (8 * (j.toNat / 8) = i.toNat))) := by
  rw [bitmapGet_eq, bitmapGet_eq, bit_bitmapSet, Bool.and_or_distrib_left]

theorem bitmapGet_unset (bitmap : β) (i j : U64) : bitmapGet (bitmapUnset bitmap i) j
    = (bitmapGet bitmap j && !decide (8 * (j.toNat / 8) = i.toNat)) := by
  rw [bitmapGet_eq, bitmapGet_eq, bit_bitmapUnset, Bool.and_assoc]

theorem getLsbD_three (i : U64) : i.getLsbD 3 = decide (i.toNat / 8 % 2 = 1) :=
  Nat.testBit_eq_decide_div_mod_eq

/-- Bit 3 of an index is clear, and it is the first of its byte. -/
theorem umod_sixteen_iff (i : U64) :
    i % 16 = 0 ↔ i.getLsbD 3 = false ∧ 8 * (i.toNat / 8) = i.toNat := by
  have hmod : i % 16 = 0 ↔ i.toNat % 16 = 0 := BitVec.toNat_inj.symm
  rw [hmod, getLsbD_three, decide_eq_false_iff_not]
  omega

theorem udiv_eight_eq_iff (i j : U64) : j / 8 = i / 8 ↔ j.toNat / 8 = i.toNat / 8 :=
  BitVec.toNat_inj.symm

/-- A bit reads back as written exactly at the multiples of 16. -/
theorem bitmapGet_self_iff (bitmap : β) (i : U64) :
    bitmapGet (bitmapSet bitmap i) i = true ∧ bitmapGet (bitmapUnset bitmap i) i = false ↔
      i % 16 = 0 := by
  rw [umod_sixteen_iff, bitmapGet_set, bitmapGet_unset]
  constructor
  · rintro ⟨hset, hunset⟩
    constructor
    · -- with bit 3 of the index set no bit of the byte is looked at
      by_contra hbit
      rw [bitmapGet_eq, Bool.eq_true_of_not_eq_false hbit] at hset
      exact Bool.false_ne_true hset
    · by_contra hfirst
      rw [decide_eq_false hfirst, Bool.and_false, Bool.or_false] at hset
      rw [decide_eq_false hfirst, hset] at hunset
      exact Bool.false_ne_true hunset.symm
  · rintro ⟨hbit, hfirst⟩
    rw [hbit, decide_eq_true hfirst]
    exact ⟨Bool.or_true _, Bool.and_false _⟩

/-- The writes to the first bit of a byte show in the readings of this byte. -/
theorem bitmapGet_other_iff (bitmap : β) (hi : i % 16 = 0) :
    bitmapGet (bitmapSet bitmap i) j = bitmapGet bitmap j ∧
        bitmapGet (bitmapUnset bitmap i) j = bitmapGet bitmap j ↔ j / 8 ≠ i / 8 := by
  obtain ⟨hbit, hfirst⟩ := (umod_sixteen_iff i).mp hi
  rw [Ne, udiv_eight_eq_iff, bitmapGet_set, bitmapGet_unset]
  constructor
  · rintro ⟨hset, hunset⟩ hbyte
    have hbit' : j.getLsbD 3 = false := by rw [getLsbD_three, hbyte, ← getLsbD_three, hbit]
    rw [hbit', hbyte, decide_eq_true hfirst, Bool.not_false, Bool.and_true, Bool.or_true] at hset
    rw [hbyte, decide_eq_true hfirst, Bool.not_true, Bool.and_false, ← hset] at hunset
    exact Bool.false_ne_true hunset
  · intro hbyte
    have hread : 8 * (j.toNat / 8) ≠ i.toNat := by omega
    rw [decide_eq_false hread, Bool.and_false, Bool.or_false, Bool.not_false, Bool.and_true]
    exact ⟨rfl, rfl⟩

/-- **Reader and writers agree exactly at the multiples of 16**, as long as no other bit of the
byte is read. -/
theorem bitArray_bitmapGet_iff (bitmap : β) (i j : U64) :
    BitArray bitmapGet bitmap i j ↔ i % 16 = 0 ∧ (j = i ∨ j / 8 ≠ i / 8) := by
  constructor
  · intro h
    have hi := (bitmapGet_self_iff bitmap i).mp ⟨h.get_set, h.get_unset⟩
    refine ⟨hi, or_iff_not_imp_left.mpr fun hne => ?_⟩
    exact (bitmapGet_other_iff bitmap hi).mp ⟨h.get_set_of_ne hne, h.get_unset_of_ne hne⟩
  · rintro ⟨hi, hj⟩
    have hself := (bitmapGet_self_iff bitmap i).mpr hi
    have hother := fun hne => (bitmapGet_other_iff bitmap hi).mpr (hj.resolve_left hne)
    exact ⟨hself.1, hself.2, fun hne => (hother hne).1, fun hne => (hother hne).2,
      load_unset_set, load_set_unset⟩

/-- Bits 16 and 3 of an empty bitmap. -/
theorem bitArray_sixteen : BitArray bitmapGet (fun _ => 0 : ℕ → U8) 16 3 ↔
    (16 : U64) % 16 = 0 ∧ ((3 : U64) = 16 ∨ (3 : U64) / 8 ≠ 16 / 8) :=
  bitArray_bitmapGet_iff (fun _ => 0 : ℕ → U8) 16 3

/-- Bit 1 of an empty bitmap does not read as set after it was set. -/
theorem not_bitArray_one : ¬ BitArray bitmapGet (fun _ => 0 : ℕ → U8) 1 2 :=
  fun h => absurd h.get_set (by decide)

end Pmm
