/-
# Words on a stack in byte memory

Memory is one byte for every 64-bit address, and addresses wrap around.  A word is eight
bytes, the low one first.

* `read_write` : a word is read back as it was written;
* `Holds m a ws` : from address `a` on lie the words `ws`; `Holds.push` puts one more in
  front, `Holds.congr` moves to another memory with the same bytes.
-/
import Mathlib.Data.Nat.Bitwise
import Mathlib.Tactic.Common
import Mathlib.Tactic.Ring

namespace StackWords

/-- Memory, byte by byte. -/
abbrev Bytes := BitVec 64 → BitVec 8

/-- The number in the `n` bytes from `a` on. -/
def leNat (m : Bytes) : ℕ → BitVec 64 → ℕ
  | 0, _ => 0
  | n + 1, a => (m a).toNat + 256 * leNat m n (a + 1)

/-- The word at `a`. -/
def read (m : Bytes) (a : BitVec 64) : BitVec 64 := BitVec.ofNat 64 (leNat m 8 a)

/-- A word stored at `a`. -/
def write (m : Bytes) (a x : BitVec 64) : Bytes := fun b =>
  if (b - a).toNat < 8 then BitVec.ofNat 8 (x.toNat / 256 ^ (b - a).toNat) else m b

variable {m m' : Bytes} {a x w : BitVec 64} {ws : List (BitVec 64)}

theorem leNat_congr {n : ℕ} (h : ∀ i < n, m' (a + BitVec.ofNat 64 i) = m (a + BitVec.ofNat 64 i)) :
    leNat m' n a = leNat m n a := by
  induction n generalizing a with
  | zero => rfl
  | succ n ih =>
    have hnext : ∀ i < n, m' (a + 1 + BitVec.ofNat 64 i) = m (a + 1 + BitVec.ofNat 64 i) := by
      intro i hi
      have hstep : a + 1 + BitVec.ofNat 64 i = a + BitVec.ofNat 64 (i + 1) := by bv_omega
      rw [hstep]
      exact h (i + 1) (by omega)
    have hfirst := h 0 (Nat.succ_pos n)
    rw [BitVec.add_zero] at hfirst
    rw [leNat, leNat, ih hnext, hfirst]

theorem read_congr (h : ∀ i < 8, m' (a + BitVec.ofNat 64 i) = m (a + BitVec.ofNat 64 i)) :
    read m' a = read m a := by
  rw [read, read, leNat_congr h]

/-- The bytes of a word just written, from byte `j` on. -/
theorem leNat_write (m : Bytes) (a x : BitVec 64) {j n : ℕ} (h : j + n ≤ 8) :
    leNat (write m a x) n (a + BitVec.ofNat 64 j) = x.toNat / 256 ^ j % 256 ^ n := by
  induction n generalizing j with
  | zero => rw [leNat, pow_zero, Nat.mod_one]
  | succ n ih =>
    have hoffset : (a + BitVec.ofNat 64 j - a).toNat = j := by bv_omega
    have hnext : a + BitVec.ofNat 64 j + 1 = a + BitVec.ofNat 64 (j + 1) := by bv_omega
    rw [leNat, hnext, ih (by omega), write, hoffset, if_pos (by omega), BitVec.toNat_ofNat,
      pow_succ 256 j, ← Nat.div_div_eq_div_mul, pow_succ' 256 n, Nat.mod_mul]

/-- **Read back.** -/
theorem read_write (m : Bytes) (a x : BitVec 64) : read (write m a x) a = x := by
  have hbytes := leNat_write m a x (j := 0) (n := 8) (le_refl 8)
  rw [BitVec.add_zero, pow_zero, Nat.div_one] at hbytes
  rw [read, hbytes]
  apply BitVec.eq_of_toNat_eq
  rw [BitVec.toNat_ofNat]
  have := x.isLt
  omega

/-- A byte away from the word stays. -/
theorem write_of_ge {b : BitVec 64} (h : 8 ≤ (b - a).toNat) : write m a x b = m b := by
  rw [write, if_neg (by omega)]

/-! ## Lists of words -/

/-- From address `a` on lie the words `ws`. -/
def Holds (m : Bytes) : BitVec 64 → List (BitVec 64) → Prop
  | _, [] => True
  | a, w :: ws => read m a = w ∧ Holds m (a + 8) ws

theorem Holds.congr (h : Holds m a ws)
    (hm : ∀ i < 8 * ws.length, m' (a + BitVec.ofNat 64 i) = m (a + BitVec.ofNat 64 i)) :
    Holds m' a ws := by
  induction ws generalizing a with
  | nil => trivial
  | cons w ws ih =>
    rw [List.length_cons] at hm
    refine ⟨(read_congr fun i hi => hm i (by omega)).trans h.1, ih h.2 fun i hi => ?_⟩
    have hstep : a + 8 + BitVec.ofNat 64 i = a + BitVec.ofNat 64 (i + 8) := by bv_omega
    rw [hstep]
    exact hm (i + 8) (by omega)

/-- **Push.**  A word stored below the others, as long as the stack does not meet itself. -/
theorem Holds.push (h : Holds m a ws) (hlen : 8 * ws.length + 8 ≤ 2 ^ 64) :
    Holds (write m (a - 8) x) (a - 8) (x :: ws) := by
  refine ⟨read_write m (a - 8) x, ?_⟩
  have htop : a - 8 + 8 = a := by bv_omega
  rw [htop]
  refine h.congr fun i hi => write_of_ge ?_
  have hoffset : (a + BitVec.ofNat 64 i - (a - 8)).toNat = i + 8 := by bv_omega
  omega

/-- Two lists of words, one after the other. -/
theorem holds_append {vs : List (BitVec 64)} :
    Holds m a (vs ++ ws) ↔
      Holds m a vs ∧ Holds m (a + BitVec.ofNat 64 (8 * vs.length)) ws := by
  induction vs generalizing a with
  | nil => simp [Holds]
  | cons v vs ih =>
    have hstep : a + 8 + BitVec.ofNat 64 (8 * vs.length)
        = a + BitVec.ofNat 64 (8 * (v :: vs).length) := by
      rw [List.length_cons]
      bv_omega
    rw [List.cons_append, Holds, Holds, ih, hstep, and_assoc]

/-- The word in one of the places. -/
theorem Holds.read_eq (h : Holds m a ws) {i : ℕ} (hi : i < ws.length) :
    read m (a + BitVec.ofNat 64 (8 * i)) = ws[i] := by
  induction ws generalizing a i with
  | nil => exact absurd hi (Nat.not_lt_zero i)
  | cons w ws ih =>
    cases i with
    | zero =>
      rw [Nat.mul_zero, BitVec.add_zero]
      exact h.1
    | succ i =>
      have hstep : a + BitVec.ofNat 64 (8 * (i + 1)) = a + 8 + BitVec.ofNat 64 (8 * i) := by
        bv_omega
      rw [hstep]
      exact ih h.2 (Nat.lt_of_succ_lt_succ hi)

/-- Whatever lies there. -/
theorem holds_range (m : Bytes) (a : BitVec 64) (n : ℕ) :
    Holds m a ((List.range n).map fun i => read m (a + BitVec.ofNat 64 (8 * i))) := by
  induction n with
  | zero => trivial
  | succ n ih =>
    rw [List.range_succ, List.map_append, holds_append, List.length_map, List.length_range]
    exact ⟨ih, rfl, trivial⟩

end StackWords
