/-
# Octal fields of archive headers

`oct2bin` of `ustar.c`, which reads a field of octal digits.

* `oct2bin` : the code;
* `octal` : a number as a field, padded with zeros;
* `oct2bin_spec` : the value of a field, and what becomes of a number written as one.
-/
import FzzOS.CStrings
import FzzOS.Words
import Mathlib.Data.Nat.Digits.Lemmas

namespace Ustar

variable {mem : U64 → U8} {str : U64} {size : U16} {bs : List U8}

/-! ## The code -/

/-- The loop of `oct2bin`, with `size` rounds to go. -/
def oct2binLoop (mem : U64 → U8) : ℕ → U64 → U64 → U64
  | 0, _, n => n
  | size + 1, c, n =>
    -- `*c - '0'` is an `int`
    let digit : U32 := (mem c).setWidth 32 - 0x30
    oct2binLoop mem size (c + 1) (n * 8 + digit.signExtend 64)

/-- `oct2bin`. -/
def oct2bin (mem : U64 → U8) (str : U64) (size : U16) : U64 :=
  oct2binLoop mem size.toNat str 0

/-! ## Fields -/

/-- One of the characters `0` to `7`. -/
def IsOctal (b : U8) : Prop := 0x30 ≤ b ∧ b ≤ 0x37

/-- The digit a character stands for. -/
def digit (b : U8) : ℕ := b.toNat - 0x30

/-- The base-8 value of a field, whose first digit is the highest. -/
def value (bs : List U8) : ℕ := Nat.ofDigits 8 (bs.map digit).reverse

/-- The field of `size` characters for a number, padded with zeros. -/
def octal (size x : ℕ) : List U8 :=
  (Nat.digitsAppend 8 size x).reverse.map fun d => BitVec.ofNat 8 (0x30 + d)

theorem value_cons (b : U8) (bs : List U8) :
    value (b :: bs) = digit b * 8 ^ bs.length + value bs := by
  rw [value, List.map_cons, Nat.ofDigits_reverse_cons, List.length_map, value, Nat.add_comm,
    Nat.mul_comm]

theorem digit_lt {b : U8} (h : IsOctal b) : digit b < 8 := by
  obtain ⟨hlow, hhigh⟩ := h
  rw [digit]
  bv_omega

/-- A field of `n` digits is a number below `8 ^ n`. -/
theorem value_lt (h : ∀ b ∈ bs, IsOctal b) : value bs < 8 ^ bs.length := by
  have hdigits : ∀ d ∈ (bs.map digit).reverse, d < 8 := by
    intro d hd
    obtain ⟨b, hb, rfl⟩ := List.mem_map.mp (List.mem_reverse.mp hd)
    exact digit_lt (h b hb)
  have hlt := Nat.ofDigits_lt_base_pow_length (by decide) hdigits
  rwa [List.length_reverse, List.length_map] at hlt

/-- A number is the value of its field. -/
theorem value_octal (size x : ℕ) : value (octal size x) = x := by
  have hdigits : (octal size x).map digit = (Nat.digitsAppend 8 size x).reverse := by
    rw [octal, List.map_map]
    refine (List.map_congr_left fun d hd => ?_).trans (List.map_id _)
    have hd : d < 8 :=
      Nat.lt_of_mem_digitsAppend (by decide) size d (List.mem_reverse.mp hd)
    show digit (BitVec.ofNat 8 (0x30 + d)) = d
    rw [digit, BitVec.toNat_ofNat]
    omega
  rw [value, hdigits, List.reverse_reverse, Nat.digitsAppend, Nat.ofDigits_append_replicate_zero,
    Nat.ofDigits_digits]

theorem length_octal {size x : ℕ} (hx : x < 8 ^ size) : (octal size x).length = size := by
  rw [octal, List.length_map, List.length_reverse, Nat.length_digitsAppend (by decide) size hx]

theorem octal_isOctal (size x : ℕ) : ∀ b ∈ octal size x, IsOctal b := by
  intro b hb
  obtain ⟨d, hd, rfl⟩ := List.mem_map.mp hb
  have hd : d < 8 := Nat.lt_of_mem_digitsAppend (by decide) size d (List.mem_reverse.mp hd)
  exact ⟨by bv_omega, by bv_omega⟩

/-! ## Decoding -/

/-- One digit more. -/
theorem toNat_next (n : U64) {b : U8} (h : IsOctal b) :
    (n * 8 + ((b.setWidth 32 - 0x30 : U32).signExtend 64)).toNat
      = (n.toNat * 8 + digit b) % 2 ^ 64 := by
  obtain ⟨hlow, hhigh⟩ := h
  have hsmall : (b.setWidth 32 - 0x30 : U32).toNat = digit b ∧ digit b < 8 := by
    rw [digit]
    bv_omega
  have hmsb : (b.setWidth 32 - 0x30 : U32).msb = false := by
    rw [BitVec.msb_eq_false_iff_two_mul_lt]
    omega
  rw [BitVec.signExtend_eq_setWidth_of_msb_false hmsb, BitVec.toNat_add, BitVec.toNat_mul,
    BitVec.toNat_setWidth, hsmall.1, Nat.mod_add_mod]
  congr 2
  exact Nat.mod_eq_of_lt (by omega)

/-- The loop, from any value on. -/
theorem toNat_oct2binLoop (hmem : Cells mem str bs) (h : ∀ b ∈ bs, IsOctal b) (n : U64) :
    (oct2binLoop mem bs.length str n).toNat = (n.toNat * 8 ^ bs.length + value bs) % 2 ^ 64 := by
  induction bs generalizing str n with
  | nil =>
    rw [List.length_nil, oct2binLoop, pow_zero, Nat.mul_one]
    exact (Nat.mod_eq_of_lt n.isLt).symm
  | cons b bs ih =>
    obtain ⟨hb, hrest⟩ := List.forall_mem_cons.mp h
    have hhorner : (n.toNat * 8 + digit b) * 8 ^ bs.length + value bs
        = n.toNat * 8 ^ (bs.length + 1) + (digit b * 8 ^ bs.length + value bs) := by ring
    rw [List.length_cons, oct2binLoop, hmem.1, ih hmem.2 hrest, toNat_next n hb, value_cons,
      ← hhorner, ← Nat.mod_add_mod, Nat.mod_mul_mod, Nat.mod_add_mod]

/-- A field that may be longer than a word. -/
theorem toNat_oct2bin (hlen : bs.length = size.toNat) (hmem : Cells mem str bs)
    (h : ∀ b ∈ bs, IsOctal b) : (oct2bin mem str size).toNat = value bs % 2 ^ 64 := by
  rw [oct2bin, ← hlen, toNat_oct2binLoop hmem h 0, show (0 : U64).toNat = 0 from rfl,
    Nat.zero_mul, Nat.zero_add]

/-- Up to 21 digits nothing is lost. -/
theorem toNat_oct2bin_of_le (hlen : bs.length = size.toNat) (hmem : Cells mem str bs)
    (h : ∀ b ∈ bs, IsOctal b) (hsize : size.toNat ≤ 21) :
    (oct2bin mem str size).toNat = value bs := by
  have hlt : value bs < 2 ^ 64 := calc
    value bs < 8 ^ bs.length := value_lt h
    _ ≤ 8 ^ 21 := Nat.pow_le_pow_right (by decide) (hlen.trans_le hsize)
    _ < 2 ^ 64 := by decide
  rw [toNat_oct2bin hlen hmem h, Nat.mod_eq_of_lt hlt]

/-- **Octal fields.**  A field is read as its value modulo 2^64, and a number below `8 ^ size`
comes back from the field it was written as, up to 21 digits without loss. -/
theorem oct2bin_spec (mem : U64 → U8) (str : U64) (size : U16) :
    (∀ bs : List U8, bs.length = size.toNat → Cells mem str bs → (∀ b ∈ bs, IsOctal b) →
      (oct2bin mem str size).toNat = value bs % 2 ^ 64 ∧
        (size.toNat ≤ 21 → (oct2bin mem str size).toNat = value bs)) ∧
    ∀ x < 8 ^ size.toNat, Cells mem str (octal size.toNat x) →
      (oct2bin mem str size).toNat = x % 2 ^ 64 ∧
        (size.toNat ≤ 21 → (oct2bin mem str size).toNat = x) := by
  refine ⟨fun bs hlen hmem h => ⟨toNat_oct2bin hlen hmem h, toNat_oct2bin_of_le hlen hmem h⟩,
    fun x hx hmem => ?_⟩
  have hlen := length_octal hx
  have h := octal_isOctal size.toNat x
  have hdecode := toNat_oct2bin hlen hmem h
  have hexact := toNat_oct2bin_of_le hlen hmem h
  rw [value_octal] at hdecode hexact
  exact ⟨hdecode, hexact⟩

/-- The field `017`. -/
theorem oct2bin_spec_fifteen :
    (oct2bin (CString.only (octal 3 15)) 0 3).toNat = 15 :=
  ((oct2bin_spec (CString.only (octal 3 15)) 0 3).2 15 (by decide)
    (.of_only (by decide))).2 (by decide)

end Ustar
