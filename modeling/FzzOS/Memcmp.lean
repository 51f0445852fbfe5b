/-
# `memcmp`

The loop of `kstring.h`, which counts down before it compares and compares once more when it
is done.

* `memcmp` : the code, with the addresses it reads;
* `memcmp_toInt` : its value is the lexicographic difference of the bytes;
* `memcmp_spec` : zero, sign, value and reads.
-/
import FzzOS.CStrings
import FzzOS.LexDiff
import FzzOS.Words
import Mathlib.Algebra.Order.Group.Int

namespace Kstring

variable {mem : U64 → U8} {str1 str2 : U64} {a b : List U8} {n : ℕ}

/-! ## The code -/

/-- `*((uint8_t*)str1) - *((uint8_t*)str2)`, of type `int`. -/
def difference (mem : U64 → U8) (str1 str2 : U64) : U32 :=
  (mem str1).setWidth 32 - (mem str2).setWidth 32

/-- The loop and the return, from the place where `--n` has given its value.  The second part
are the addresses read. -/
def memcmpLoop (mem : U64 → U8) : ℕ → U64 → U64 → U32 × List U64
  | 0, str1, str2 => (difference mem str1 str2, [str1, str2])
  | n + 1, str1, str2 =>
    if mem str1 = mem str2 then
      let rest := memcmpLoop mem n (str1 + 1) (str2 + 1)
      (rest.1, str1 :: str2 :: rest.2)
    else (difference mem str1 str2, [str1, str2, str1, str2])

/-- `memcmp`. -/
def memcmp (mem : U64 → U8) (str1 str2 n : U64) : U32 × List U64 :=
  if n = 0 then (0, []) else memcmpLoop mem (n - 1).toNat str1 str2

/-! ## The value -/

/-- Bytes as numbers. -/
def values (l : List U8) : List ℤ := l.map fun x => (x.toNat : ℤ)

theorem values_injective : Function.Injective values :=
  List.map_injective_iff.mpr fun _ _ h => BitVec.eq_of_toNat_eq (Int.ofNat.inj h)

theorem difference_toInt (mem : U64 → U8) (str1 str2 : U64) :
    (difference mem str1 str2).toInt = (mem str1).toNat - (mem str2).toNat := by
  have hwide : ∀ x : U8, (x.setWidth 32).toInt = x.toNat := by
    intro x
    have hx := x.isLt
    rw [BitVec.toInt_eq_toNat_of_lt (by rw [BitVec.toNat_setWidth]; omega),
      BitVec.toNat_setWidth, Nat.mod_eq_of_lt (by omega)]
  have h1 := (mem str1).isLt
  have h2 := (mem str2).isLt
  rw [difference, BitVec.toInt_sub, hwide, hwide]
  exact Int.bmod_eq_of_le (by omega) (by omega)

/-- One step of the lexicographic difference. -/
theorem lexDiff_values_cons (x y : U8) (a b : List U8) :
    lexDiff (values (x :: a)) (values (y :: b))
      = if x = y then lexDiff (values a) (values b) else (x.toNat : ℤ) - y.toNat := by
  have hxy : (x.toNat : ℤ) = y.toNat ↔ x = y := Int.ofNat_inj.trans BitVec.toNat_inj
  rw [values, List.map_cons, values, List.map_cons, lexDiff]
  simp only [hxy]
  rfl

theorem memcmpLoop_toInt (ha : Cells mem str1 a) (hb : Cells mem str2 b) (hna : n < a.length)
    (hnb : n < b.length) : (memcmpLoop mem n str1 str2).1.toInt
      = lexDiff (values (a.take (n + 1))) (values (b.take (n + 1))) := by
  induction n generalizing str1 str2 a b with
  | zero =>
    obtain ⟨x, a, rfl⟩ := List.exists_cons_of_length_pos hna
    obtain ⟨y, b, rfl⟩ := List.exists_cons_of_length_pos hnb
    rw [List.take_succ_cons, List.take_succ_cons, lexDiff_values_cons, memcmpLoop,
      difference_toInt, ha.1, hb.1]
    split_ifs with hxy
    · rw [hxy, sub_self]
      rfl
    · rfl
  | succ n ih =>
    obtain ⟨x, a, rfl⟩ := List.exists_cons_of_length_pos (Nat.zero_lt_of_lt hna)
    obtain ⟨y, b, rfl⟩ := List.exists_cons_of_length_pos (Nat.zero_lt_of_lt hnb)
    rw [List.take_succ_cons, List.take_succ_cons, lexDiff_values_cons, memcmpLoop, ha.1, hb.1]
    split_ifs with hxy
    · exact ih ha.2 hb.2 (Nat.lt_of_succ_lt_succ hna) (Nat.lt_of_succ_lt_succ hnb)
    · rw [difference_toInt, ha.1, hb.1]

/-- **`memcmp` is the lexicographic difference.** -/
theorem memcmp_toInt {n : U64} (ha : Cells mem str1 a) (hb : Cells mem str2 b)
    (hna : n.toNat ≤ a.length) (hnb : n.toNat ≤ b.length) :
    (memcmp mem str1 str2 n).1.toInt
      = lexDiff (values (a.take n.toNat)) (values (b.take n.toNat)) := by
  unfold memcmp
  split_ifs with hn
  · subst hn
    rfl
  · obtain ⟨hpred, hlast⟩ : (n - 1).toNat + 1 = n.toNat ∧ (n - 1).toNat < n.toNat := by bv_omega
    rw [memcmpLoop_toInt ha hb (by omega) (by omega), hpred]

/-! ## The reads -/

/-- Nothing is read beyond the byte at which the loop may stop. -/
theorem memcmpLoop_reads (mem : U64 → U8) (n : ℕ) (str1 str2 : U64) :
    ∀ p ∈ (memcmpLoop mem n str1 str2).2, Within str1 n p ∨ Within str2 n p := by
  induction n generalizing str1 str2 with
  | zero => simp [memcmpLoop, within_self]
  | succ n ih =>
    rw [memcmpLoop]
    split_ifs
    · have hrest : ∀ p ∈ (memcmpLoop mem n (str1 + 1) (str2 + 1)).2,
          Within str1 (n + 1) p ∨ Within str2 (n + 1) p :=
        fun p hp => (ih (str1 + 1) (str2 + 1) p hp).imp Within.of_succ Within.of_succ
      simpa [within_self] using hrest
    · simp [within_self]

theorem memcmp_reads (mem : U64 → U8) (str1 str2 n : U64) :
    ∀ p ∈ (memcmp mem str1 str2 n).2, ∃ i < n.toNat,
      p = str1 + BitVec.ofNat 64 i ∨ p = str2 + BitVec.ofNat 64 i := by
  intro p hp
  unfold memcmp at hp
  split_ifs at hp with hn
  · exact absurd hp List.not_mem_nil
  · have hlast : (n - 1).toNat < n.toNat := by bv_omega
    rcases memcmpLoop_reads mem _ str1 str2 p hp with ⟨i, hi, h⟩ | ⟨i, hi, h⟩
    · exact ⟨i, by omega, .inl h⟩
    · exact ⟨i, by omega, .inr h⟩

/-! ## All of it -/

theorem toInt_eq_zero_iff (x : U32) : x = 0 ↔ x.toInt = 0 :=
  BitVec.toInt_inj.symm

/-- **`memcmp`.**  It is 0 exactly between equal bytes, the difference of the first two that
differ, negative exactly if the first bytes come first in lexicographic order, and the opposite
number the other way round; and it reads the `n` bytes only. -/
theorem memcmp_spec {n : U64} (ha : Cells mem str1 a) (hb : Cells mem str2 b)
    (hna : n.toNat ≤ a.length) (hnb : n.toNat ≤ b.length) :
    ((memcmp mem str1 str2 n).1 = 0 ↔ a.take n.toNat = b.take n.toNat) ∧
    (∀ k (_ : k < n.toNat), a.take k = b.take k → a[k] ≠ b[k] →
      (memcmp mem str1 str2 n).1.toInt = (a[k].toNat : ℤ) - b[k].toNat) ∧
    ((memcmp mem str1 str2 n).1.toInt < 0 ↔
      values (a.take n.toNat) < values (b.take n.toNat)) ∧
    (memcmp mem str2 str1 n).1.toInt = -(memcmp mem str1 str2 n).1.toInt ∧
    ∀ p ∈ (memcmp mem str1 str2 n).2, ∃ i < n.toNat,
      p = str1 + BitVec.ofNat 64 i ∨ p = str2 + BitVec.ofNat 64 i := by
  have hlena : (values (a.take n.toNat)).length = n.toNat := by
    rw [values, List.length_map, List.length_take, Nat.min_eq_left hna]
  have hlenb : (values (b.take n.toNat)).length = n.toNat := by
    rw [values, List.length_map, List.length_take, Nat.min_eq_left hnb]
  have hlen := hlena.trans hlenb.symm
  refine ⟨?_, fun k hk htake hne => ?_, ?_, ?_, memcmp_reads mem str1 str2 n⟩
  · rw [toInt_eq_zero_iff, memcmp_toInt ha hb hna hnb, lexDiff_eq_zero_iff hlen,
      values_injective.eq_iff]
  · have hfirst : ∀ l : List U8, (values (l.take n.toNat)).take k = values (l.take k) := by
      intro l
      rw [values, ← List.map_take, List.take_take, Nat.min_eq_left hk.le, values]
    rw [memcmp_toInt ha hb hna hnb, lexDiff_of_first (hk.trans_eq hlena.symm)
      (hk.trans_eq hlenb.symm) (by rw [hfirst, hfirst, htake])]
    · simp [values]
    · simpa [values, BitVec.toNat_inj] using hne
  · rw [memcmp_toInt ha hb hna hnb, lexDiff_neg_iff hlen]
  · rw [memcmp_toInt ha hb hna hnb, memcmp_toInt hb ha hnb hna, lexDiff_swap]

/-- The arrays 1 2 3 and 2 3, in the three bytes from address 0 on. -/
theorem memcmp_spec_two :
    let mem : U64 → U8 := CString.only [1, 2, 3]
    ((memcmp mem 0 1 2).1 = 0 ↔ [1, 2] = [(2 : U8), 3]) ∧
    (memcmp mem 1 0 2).1.toInt = -(memcmp mem 0 1 2).1.toInt := by
  have ha : Cells (CString.only [1, 2, 3]) (0 : U64) [(1 : U8), 2, 3] := .of_only (by decide)
  have hb : Cells (CString.only [1, 2, 3]) (1 : U64) [(2 : U8), 3] := ha.2
  have hspec := memcmp_spec (n := 2) ha hb (by decide) (by decide)
  exact ⟨hspec.1, hspec.2.2.2.1⟩

end Kstring
