/-
# Machine words: masks, frames and table indices

The kernel's integers are `uint64_t` and `uint8_t`; they are bit vectors here, so
that every wrap-around is the machine's.  The file collects the arithmetic that
the page-table code and the bitmap code rest on: what the masks `& ~0x1ff` and
`& 0x1ff` compute, and how a 4 KiB aligned address and a few flag bits share one
word.
-/
import Mathlib.Data.Nat.Bitwise
import Mathlib.Tactic.Common

/-- `uint8_t`. -/
abbrev U8 := BitVec 8

/-- `uint16_t`. -/
abbrev U16 := BitVec 16

/-- `uint32_t`. -/
abbrev U32 := BitVec 32

/-- `uint64_t`. -/
abbrev U64 := BitVec 64

/-! ## Masks -/

/-- A bit covered by a mask that clears the word is clear. -/
theorem getLsbD_of_and_eq_zero {w : ℕ} {x m : BitVec w} {i : ℕ} (h : x &&& m = 0)
    (hm : m.getLsbD i = true) : x.getLsbD i = false := by
  have hi := congrArg (fun y => y.getLsbD i) h
  simpa [BitVec.getLsbD_and, hm] using hi

/-- A mask takes everything from a word without bits under it. -/
theorem and_eq_zero_of_getLsbD {w : ℕ} {x m : BitVec w}
    (h : ∀ i < w, m.getLsbD i = true → x.getLsbD i = false) : x &&& m = 0 := by
  refine BitVec.eq_of_getLsbD_eq fun i hi => ?_
  rw [BitVec.getLsbD_and, BitVec.ofNat_eq_ofNat, BitVec.getLsbD_zero]
  cases hm : m.getLsbD i with
  | false => exact Bool.and_false _
  | true => rw [h i hi hm, Bool.false_and]

/-- Words that have only the bits of `m`. -/
theorem and_eq_self_of_and_not {w : ℕ} {x m : BitVec w} (h : x &&& ~~~m = 0) :
    x &&& m = x := by
  ext i hi
  have hbit := congrArg (fun y => y.getLsbD i) h
  simp only [BitVec.getLsbD_and, BitVec.getLsbD_not, BitVec.ofNat_eq_ofNat,
    BitVec.getLsbD_zero] at hbit
  rw [BitVec.getElem_and, ← BitVec.getLsbD_eq_getElem, ← BitVec.getLsbD_eq_getElem]
  revert hbit
  cases x.getLsbD i <;> cases m.getLsbD i <;> simp [hi]

theorem toNat_le_of_and_not {w : ℕ} {x m : BitVec w} (h : x &&& ~~~m = 0) :
    x.toNat ≤ m.toNat := by
  rw [← and_eq_self_of_and_not h, BitVec.toNat_and]
  exact Nat.and_le_right

/-- `x & ~0x1ff` rounds down to a multiple of 512. -/
theorem toNat_and_not_1ff (x : U64) : (x &&& ~~~0x1ff#64).toNat = x.toNat / 512 * 512 := by
  have hshift : x &&& ~~~0x1ff#64 = (x >>> 9) <<< 9 := by
    ext i hi
    have h511 : (0x1ff#64).getLsbD i = decide (i < 9) := by
      rw [BitVec.getLsbD_ofNat, decide_eq_true hi, Bool.true_and,
        show (0x1ff : ℕ) = 2 ^ 9 - 1 from rfl, Nat.testBit_two_pow_sub_one]
    rw [← BitVec.getLsbD_eq_getElem, ← BitVec.getLsbD_eq_getElem, BitVec.getLsbD_and,
      BitVec.getLsbD_not, h511, BitVec.getLsbD_shiftLeft, BitVec.getLsbD_ushiftRight]
    by_cases h9 : i < 9
    · simp [h9]
    · simp [h9, hi, Nat.add_sub_cancel' (Nat.le_of_not_lt h9)]
  rw [hshift, BitVec.toNat_shiftLeft, BitVec.toNat_ushiftRight, Nat.shiftRight_eq_div_pow,
    Nat.shiftLeft_eq, Nat.mod_eq_of_lt]
  have := x.isLt
  omega

/-! ## Counters -/

/-- Below another word a word can be incremented without wrapping. -/
theorem toNat_add_one {x y : U64} (h : ¬ x ≥ y) : (x + 1).toNat = x.toNat + 1 := by
  bv_omega

/-- A positive word can be decremented without wrapping. -/
theorem toNat_sub_one {x : U64} (h : 0 < x.toNat) : (x - 1).toNat = x.toNat - 1 := by
  bv_omega

/-! ## Frames -/

/-- The physical address of frame `f`. -/
def frameAddr (f : ℕ) : U64 := BitVec.ofNat 64 (4096 * f)

/-- The frame an address lies in. -/
def frameOf (a : U64) : ℕ := a.toNat / 4096

/-- The addresses that name a frame. -/
def Aligned (a : U64) : Prop := a.toNat % 4096 = 0

instance (a : U64) : Decidable (Aligned a) := inferInstanceAs (Decidable (_ = _))

theorem toNat_frameAddr {f : ℕ} (hf : f < 2 ^ 52) : (frameAddr f).toNat = 4096 * f := by
  rw [frameAddr, BitVec.toNat_ofNat, Nat.mod_eq_of_lt]
  omega

theorem frameOf_lt (a : U64) : frameOf a < 2 ^ 52 := by
  have := a.isLt
  unfold frameOf
  omega

@[simp] theorem frameOf_frameAddr {f : ℕ} (hf : f < 2 ^ 52) : frameOf (frameAddr f) = f := by
  rw [frameOf, toNat_frameAddr hf]
  omega

theorem frameAddr_frameOf {a : U64} (ha : Aligned a) : frameAddr (frameOf a) = a := by
  apply BitVec.eq_of_toNat_eq
  rw [toNat_frameAddr (frameOf_lt a)]
  unfold Aligned at ha
  unfold frameOf
  omega

theorem aligned_frameAddr {f : ℕ} (hf : f < 2 ^ 52) : Aligned (frameAddr f) := by
  rw [Aligned, toNat_frameAddr hf]
  omega

theorem frameAddr_inj {f g : ℕ} (hf : f < 2 ^ 52) (hg : g < 2 ^ 52)
    (h : frameAddr f = frameAddr g) : f = g := by
  rw [← frameOf_frameAddr hf, h, frameOf_frameAddr hg]

theorem frameAddr_ne_zero {f : ℕ} (hf : f < 2 ^ 52) (h0 : f ≠ 0) : frameAddr f ≠ 0 := by
  intro h
  have := congrArg BitVec.toNat h
  rw [toNat_frameAddr hf] at this
  simp at this
  omega

/-- An aligned address with flags below it: the two share no bit. -/
theorem toNat_or_flags {a fl : U64} (ha : Aligned a) (hfl : fl.toNat < 4096) :
    (a ||| fl).toNat = a.toNat + fl.toNat := by
  have hmul : a.toNat = 2 ^ 12 * (a.toNat / 4096) := by unfold Aligned at ha; omega
  rw [BitVec.toNat_or, hmul]
  exact (Nat.two_pow_add_eq_or_of_lt hfl _).symm

theorem frameOf_or_flags {a fl : U64} (ha : Aligned a) (hfl : fl.toNat < 4096) :
    frameOf (a ||| fl) = frameOf a := by
  rw [frameOf, toNat_or_flags ha hfl, frameOf]
  unfold Aligned at ha
  omega

/-- A multiple of `2^n` has no bits below `n`. -/
theorem getLsbD_of_mod {w : ℕ} {a : BitVec w} {n i : ℕ} (ha : a.toNat % 2 ^ n = 0)
    (hi : i < n) : a.getLsbD i = false := by
  have hmod := Nat.testBit_mod_two_pow a.toNat n i
  rw [ha, decide_eq_true hi] at hmod
  rw [BitVec.getLsbD]
  simpa using hmod.symm

/-- Words in one block of `2^n` have the same bits from `n` on. -/
theorem getLsbD_of_div_eq {w : ℕ} {a b : BitVec w} {n i : ℕ}
    (h : a.toNat / 2 ^ n = b.toNat / 2 ^ n) (hi : n ≤ i) : a.getLsbD i = b.getLsbD i := by
  obtain ⟨k, rfl⟩ := Nat.exists_eq_add_of_le hi
  rw [BitVec.getLsbD, BitVec.getLsbD, Nat.add_comm, ← Nat.testBit_div_two_pow,
    ← Nat.testBit_div_two_pow, h]

/-- Rounding down to a page does nothing to a 2 MiB aligned address. -/
theorem and_not_fff {a : U64} (ha : a.toNat % 2 ^ 21 = 0) : a &&& ~~~0xFFF = a := by
  have hbits : ∀ i < 64, (~~~(0xFFF : U64)).getLsbD i = false → i < 12 := by decide
  refine BitVec.eq_of_getLsbD_eq fun i hi => ?_
  rw [BitVec.getLsbD_and]
  by_cases hm : (~~~(0xFFF : U64)).getLsbD i = true
  · rw [hm, Bool.and_true]
  · have hlow := hbits i hi (by simpa using hm)
    rw [getLsbD_of_mod ha (by omega), Bool.false_and]

/-- An aligned address has no bits below 12. -/
theorem getLsbD_of_aligned {a : U64} (ha : Aligned a) {i : ℕ} (hi : i < 12) :
    a.getLsbD i = false :=
  getLsbD_of_mod (n := 12) ha hi

/-- Below bit 12 an aligned address contributes nothing. -/
theorem getLsbD_or_flags {a fl : U64} (ha : Aligned a) {i : ℕ} (hi : i < 12) :
    (a ||| fl).getLsbD i = fl.getLsbD i := by
  rw [BitVec.getLsbD_or, getLsbD_of_aligned ha hi, Bool.false_or]

/-- A mask of low bits takes everything from an aligned address. -/
theorem and_eq_zero_of_aligned {a m : U64} (ha : Aligned a)
    (hm : ∀ i < 64, m.getLsbD i = true → i < 12) : a &&& m = 0 :=
  and_eq_zero_of_getLsbD fun i hi hbit => getLsbD_of_aligned ha (hm i hi hbit)

/-! ## The higher half -/

/-- `phys_to_hh_data`: the higher-half address of a physical one. -/
def physToHhData (addr : U64) : U64 := 0xFFFF800000000000 + addr

/-- `hh_data_to_phys`. -/
def hhDataToPhys (addr : U64) : U64 := addr - 0xFFFF800000000000

@[simp] theorem hhDataToPhys_physToHhData (addr : U64) :
    hhDataToPhys (physToHhData addr) = addr := by
  unfold hhDataToPhys physToHhData
  bv_omega

/-! ## Table indices -/

/-- The nine bits of an address from bit `k` on. -/
def indexAt (k : ℕ) (v : U64) : Fin 512 := ⟨v.toNat / 2 ^ k % 512, Nat.mod_lt _ (by decide)⟩

/-- `(v >> k) & 0x1ff` is the index at bit `k`. -/
theorem toNat_shiftRight_and_1ff (v : U64) (k : ℕ) :
    (v >>> k &&& 0x1ff#64).toNat = (indexAt k v : ℕ) := by
  rw [BitVec.toNat_and, BitVec.toNat_ushiftRight, Nat.shiftRight_eq_div_pow]
  exact Nat.and_two_pow_sub_one_eq_mod _ 9
