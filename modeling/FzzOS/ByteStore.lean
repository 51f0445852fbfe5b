/-
# Byte stores and the bit arrays packed in them

A byte store is anything bytes can be read from and written to by index: an array
held as a function, or a window into a larger memory.  Bit `k` of the array packed
in a store is bit `k % 8` of byte `k / 8`.

* `bit_store_or`, `bit_store_and_not` : one byte written back with one bit set or
  cleared changes exactly that bit;
* `clear` : the clear positions below a bound, and how the two updates change them;
* `Recorded` : a store that keeps a record of the indices written.
-/
import Mathlib.Data.Finset.Card
import Mathlib.Tactic.Common

/-- Bytes read and written by index. -/
class ByteStore (β : Type*) where
  load : β → ℕ → BitVec 8
  store : β → ℕ → BitVec 8 → β

/-- Reading back after a write. -/
class LawfulByteStore (β : Type*) [ByteStore β] : Prop where
  load_store : ∀ (b : β) (i j : ℕ) (x : BitVec 8),
    ByteStore.load (ByteStore.store b i x) j = if j = i then x else ByteStore.load b j

namespace ByteStore

instance : ByteStore (ℕ → BitVec 8) where
  load b i := b i
  store b i x := fun j => if j = i then x else b j

instance : LawfulByteStore (ℕ → BitVec 8) where
  load_store _ _ _ _ := rfl

variable {β : Type*} [ByteStore β]

/-- Bit `k` of the packed bit array. -/
def bit (b : β) (k : ℕ) : Bool := (load b (k / 8)).getLsbD (k % 8)

/-- A byte is its bits. -/
theorem load_eq_of_bit {b b' : β} (h : ∀ k, bit b k = bit b' k) (i : ℕ) : load b i = load b' i := by
  refine BitVec.eq_of_getLsbD_eq fun j hj => ?_
  have hbit := h (8 * i + j)
  rwa [bit, bit, show (8 * i + j) / 8 = i by omega, show (8 * i + j) % 8 = j by omega] at hbit

/-- The clear positions below `n`. -/
def clear (b : β) (n : ℕ) : Finset ℕ := (Finset.range n).filter fun k => bit b k = false

theorem mem_clear {b : β} {n k : ℕ} : k ∈ clear b n ↔ k < n ∧ bit b k = false := by
  rw [clear, Finset.mem_filter, Finset.mem_range]

/-- A byte is not full exactly when one of its bits is clear. -/
theorem ne_ff_iff (x : BitVec 8) : x ≠ 0xff#8 ↔ ∃ j < 8, x.getLsbD j = false := by
  have hff : ∀ j < 8, (0xff#8).getLsbD j = true := by decide
  constructor
  · intro h
    by_contra hcon
    push Not at hcon
    refine h (BitVec.eq_of_getLsbD_eq fun j hj => ?_)
    rw [hff j hj]
    simpa using hcon j hj
  · rintro ⟨j, hj, hx⟩ rfl
    exact absurd hx (by rw [hff j hj]; simp)

/-- The mask `1 << j` selects bit `j`. -/
theorem getLsbD_one_shiftLeft {j : ℕ} (hj : j < 8) (k : ℕ) :
    (1#8 <<< j).getLsbD k = decide (k = j) := by
  rw [BitVec.getLsbD_shiftLeft, BitVec.getLsbD_one]
  by_cases h : k = j
  · subst h
    simp [hj]
  · by_cases hlt : k < j
    · simp [hlt, h]
    · have : k - j ≠ 0 := by omega
      simp [this, h]

theorem and_one_shiftLeft_eq_zero {j : ℕ} (hj : j < 8) (x : BitVec 8) :
    x &&& (1#8 <<< j) = 0 ↔ x.getLsbD j = false := by
  constructor
  · intro h
    have hbit := congrArg (fun y => y.getLsbD j) h
    simpa [BitVec.getLsbD_and, getLsbD_one_shiftLeft hj] using hbit
  · intro h
    refine BitVec.eq_of_getLsbD_eq fun k _ => ?_
    rw [BitVec.getLsbD_and, getLsbD_one_shiftLeft hj]
    by_cases hk : k = j
    · subst hk
      simp [h]
    · simp [hk]

variable [LawfulByteStore β]

/-- Two positions in the same byte differ in their bit number. -/
theorem mod_ne_of_div_eq {j k : ℕ} (hdiv : j / 8 = k / 8) (hne : j ≠ k) : j % 8 ≠ k % 8 := by
  omega

/-- Writing a byte back with bit `k` set. -/
theorem bit_store_or (b : β) (k j : ℕ) :
    bit (store b (k / 8) (load b (k / 8) ||| 1#8 <<< (k % 8))) j
      = (bit b j || decide (j = k)) := by
  rw [bit, LawfulByteStore.load_store, bit]
  by_cases hdiv : j / 8 = k / 8
  · rw [if_pos hdiv, BitVec.getLsbD_or, getLsbD_one_shiftLeft (Nat.mod_lt k (by decide)), hdiv]
    by_cases hjk : j = k
    · simp [hjk]
    · simp [hjk, mod_ne_of_div_eq hdiv hjk]
  · have hjk : j ≠ k := fun h => hdiv (h ▸ rfl)
    simp [hdiv, hjk]

/-- Writing a byte back with bit `k` cleared. -/
theorem bit_store_and_not (b : β) (k j : ℕ) :
    bit (store b (k / 8) (load b (k / 8) &&& ~~~(1#8 <<< (k % 8)))) j
      = (bit b j && !decide (j = k)) := by
  rw [bit, LawfulByteStore.load_store, bit]
  by_cases hdiv : j / 8 = k / 8
  · have hlt : j % 8 < 8 := Nat.mod_lt j (by decide)
    rw [if_pos hdiv, BitVec.getLsbD_and, BitVec.getLsbD_not,
      getLsbD_one_shiftLeft (Nat.mod_lt k (by decide)), hdiv]
    by_cases hjk : j = k
    · simp [hjk]
    · simp [hjk, mod_ne_of_div_eq hdiv hjk, hlt]
  · have hjk : j ≠ k := fun h => hdiv (h ▸ rfl)
    simp [hdiv, hjk]

end ByteStore

/-! ## A record of the writes -/

/-- A byte store with the indices written so far. -/
structure Recorded (β : Type*) where
  bytes : β
  writes : List ℕ

namespace Recorded

variable {β : Type*} [ByteStore β]

instance : ByteStore (Recorded β) where
  load b i := ByteStore.load b.bytes i
  store b i x := ⟨ByteStore.store b.bytes i x, i :: b.writes⟩

instance [LawfulByteStore β] : LawfulByteStore (Recorded β) where
  load_store b i j x := LawfulByteStore.load_store b.bytes i j x

@[simp] theorem writes_store (b : Recorded β) (i : ℕ) (x : BitVec 8) :
    (ByteStore.store b i x).writes = i :: b.writes := rfl

end Recorded
