/-
# Numbers in byte memory

A number of any size is put into memory and read back, the low byte first.  Addresses wrap
around, so that a distance is a difference of addresses.

* `fill m a n f`, `put m a n x` : bytes put at `a`, one after the other, and those of a number;
* `copy m a b n` : the bytes at `b`, put at `a`;
* `leNat_put`, `leNat_put_of_clear` : what is read where they were put, and elsewhere;
* `Clear a m b n` : the `m` bytes from `a` on and the `n` bytes from `b` on do not meet.
-/
import FzzOS.StackWords
import Mathlib.Logic.Function.Basic

namespace ByteFields

open StackWords

variable {m m' : Bytes} {a b c : BitVec 64} {i j k n x : ℕ}

/-- The `n` bytes `f 0`, `f 1`, … at `a`. -/
def fill (m : Bytes) (a : BitVec 64) (n : ℕ) (f : ℕ → BitVec 8) : Bytes := fun b =>
  if (b - a).toNat < n then f (b - a).toNat else m b

variable {f g : ℕ → BitVec 8}

theorem fill_of_ge (h : n ≤ (b - a).toNat) : fill m a n f b = m b := if_neg (by omega)

theorem fill_of_lt (h : (b - a).toNat < n) : fill m a n f b = f (b - a).toNat := if_pos h

@[simp] theorem fill_zero (m : Bytes) (a : BitVec 64) (f : ℕ → BitVec 8) : fill m a 0 f = m := rfl

theorem fill_congr (h : ∀ j < n, f j = g j) : fill m a n f = fill m a n g := by
  funext b
  unfold fill
  split_ifs with hlt
  · exact h _ hlt
  · rfl

/-- Byte after byte. -/
theorem fill_succ (hn : n < 2 ^ 64) (m : Bytes) (a : BitVec 64) (f : ℕ → BitVec 8) :
    fill m a (n + 1) f = fill (Function.update m a (f 0)) (a + 1) n fun j => f (j + 1) := by
  funext b
  unfold fill
  rcases eq_or_ne b a with rfl | hne
  · have hzero : (b - b).toNat = 0 := by bv_omega
    have hlast : ¬ (b - (b + 1)).toNat < n := by bv_omega
    rw [hzero, if_pos (Nat.succ_pos n), if_neg hlast, Function.update_self]
  · have hstep : (b - a).toNat = (b - (a + 1)).toNat + 1 := by bv_omega
    rw [hstep, Function.update_of_ne hne]
    by_cases hlt : (b - (a + 1)).toNat < n
    · rw [if_pos (by omega), if_pos hlt]
    · rw [if_neg (by omega), if_neg hlt]

/-- One stretch after another. -/
theorem fill_append (h : j + k ≤ 2 ^ 64) (m : Bytes) (a : BitVec 64) (f : ℕ → BitVec 8) :
    fill m a (j + k) f
      = fill (fill m a j f) (a + BitVec.ofNat 64 j) k fun i => f (j + i) := by
  funext b
  by_cases hlow : (b - a).toNat < j
  · have hhigh : k ≤ (b - (a + BitVec.ofNat 64 j)).toNat := by bv_omega
    rw [fill_of_lt (by omega), fill_of_ge hhigh, fill_of_lt hlow]
  · by_cases hhigh : (b - a).toNat < j + k
    · have hoffset : (b - (a + BitVec.ofNat 64 j)).toNat = (b - a).toNat - j := by bv_omega
      rw [fill_of_lt hhigh, fill_of_lt (by omega), hoffset]
      congr 1
      omega
    · rw [fill_of_ge (by omega), fill_of_ge (by bv_omega), fill_of_ge (by omega)]

/-- The `n` low bytes of `x` at `a`. -/
def put (m : Bytes) (a : BitVec 64) (n x : ℕ) : Bytes :=
  fill m a n fun j => BitVec.ofNat 8 (x / 256 ^ j)

theorem put_of_ge (h : n ≤ (b - a).toNat) : put m a n x b = m b := fill_of_ge h

@[simp] theorem put_zero (m : Bytes) (a : BitVec 64) (x : ℕ) : put m a 0 x = m := rfl

/-- Byte after byte. -/
theorem put_succ (hn : n < 2 ^ 64) (m : Bytes) (a : BitVec 64) (x : ℕ) :
    put m a (n + 1) x = put (Function.update m a (BitVec.ofNat 8 x)) (a + 1) n (x / 256) := by
  rw [put, fill_succ hn, pow_zero, Nat.div_one, put]
  refine fill_congr fun j _ => ?_
  rw [pow_succ', Nat.div_div_eq_div_mul]

/-- **Read back**, from byte `j` on. -/
theorem leNat_put_drop (hn : j + k ≤ n) (hn' : n ≤ 2 ^ 64) :
    leNat (put m a n x) k (a + BitVec.ofNat 64 j) = x / 256 ^ j % 256 ^ k := by
  induction k generalizing j with
  | zero => rw [leNat, pow_zero, Nat.mod_one]
  | succ k ih =>
    have hoffset : (a + BitVec.ofNat 64 j - a).toNat = j := by bv_omega
    have hnext : a + BitVec.ofNat 64 j + 1 = a + BitVec.ofNat 64 (j + 1) := by bv_omega
    rw [leNat, hnext, ih (by omega), put, fill_of_lt (by omega), hoffset, BitVec.toNat_ofNat,
      pow_succ 256 j, ← Nat.div_div_eq_div_mul, pow_succ' 256 k, Nat.mod_mul]

theorem leNat_put (hn : n ≤ 2 ^ 64) (m : Bytes) (a : BitVec 64) (x : ℕ) :
    leNat (put m a n x) n a = x % 256 ^ n := by
  have hall := leNat_put_drop (m := m) (a := a) (x := x) (j := 0) (k := n) (by omega) hn
  rwa [BitVec.add_zero, pow_zero, Nat.div_one] at hall

theorem leNat_lt (m : Bytes) (n : ℕ) (a : BitVec 64) : leNat m n a < 256 ^ n := by
  induction n generalizing a with
  | zero => exact Nat.one_pos
  | succ n ih =>
    have hrest := ih (a + 1)
    have hbyte := (m a).isLt
    rw [leNat, pow_succ]
    omega

/-- The bytes of a number in memory. -/
theorem byte_leNat (h : j < n) (m : Bytes) (a : BitVec 64) :
    BitVec.ofNat 8 (leNat m n a / 256 ^ j) = m (a + BitVec.ofNat 64 j) := by
  induction n generalizing a j with
  | zero => exact absurd h (Nat.not_lt_zero j)
  | succ n ih =>
    have hbyte := (m a).isLt
    cases j with
    | zero =>
      apply BitVec.eq_of_toNat_eq
      rw [BitVec.toNat_ofNat, leNat, pow_zero, Nat.div_one, BitVec.add_zero]
      omega
    | succ j =>
      have hhigh : leNat m (n + 1) a / 256 = leNat m n (a + 1) := by
        rw [leNat]
        omega
      have hnext : a + 1 + BitVec.ofNat 64 j = a + BitVec.ofNat 64 (j + 1) := by bv_omega
      rw [pow_succ', ← Nat.div_div_eq_div_mul, hhigh, ih (Nat.lt_of_succ_lt_succ h), hnext]

/-- The `n` bytes from `b` on, written from `a` on. -/
def copy (m : Bytes) (a b : BitVec 64) (n : ℕ) : Bytes :=
  fill m a n fun j => m (b + BitVec.ofNat 64 j)

/-- A number read in one place and put in another. -/
theorem put_leNat (m : Bytes) (n : ℕ) (a b : BitVec 64) : put m a n (leNat m n b) = copy m a b n :=
  fill_congr fun _ hj => byte_leNat hj m b

/-- What is there already. -/
theorem copy_self (m : Bytes) (n : ℕ) (a : BitVec 64) : copy m a a n = m := by
  funext b
  by_cases hlt : (b - a).toNat < n
  · have hb : a + BitVec.ofNat 64 (b - a).toNat = b := by bv_omega
    rw [copy, fill_of_lt hlt, hb]
  · exact fill_of_ge (by omega)

theorem copy_one (m : Bytes) (a b : BitVec 64) : copy m a b 1 = Function.update m a (m b) := by
  rw [copy, fill_succ (by omega), fill_zero]
  exact congrArg (fun c => Function.update m a (m c)) (BitVec.add_zero b)

/-! ## What does not meet -/

/-- The `m` bytes from `a` on and the `n` bytes from `b` on have none in common. -/
def Clear (a : BitVec 64) (m : ℕ) (b : BitVec 64) (n : ℕ) : Prop :=
  m ≤ (b - a).toNat ∧ n ≤ (a - b).toNat

instance (a : BitVec 64) (m : ℕ) (b : BitVec 64) (n : ℕ) : Decidable (Clear a m b n) :=
  inferInstanceAs (Decidable (_ ∧ _))

theorem Clear.symm (h : Clear a j b k) : Clear b k a j := And.symm h

theorem Clear.ne (h : Clear a j b k) (hj : 0 < j) : a ≠ b := by
  rintro rfl
  have hzero : (a - a).toNat = 0 := by bv_omega
  have := h.1
  omega

/-- Parts of what does not meet. -/
theorem Clear.part (h : Clear a j b k) {s t : BitVec 64} {j' k' : ℕ} (hs : s.toNat + j' ≤ j)
    (ht : t.toNat + k' ≤ k) (hj : 0 < j') (hk : 0 < k') : Clear (a + s) j' (b + t) k' := by
  obtain ⟨hab, hba⟩ := h
  constructor
  · bv_omega
  · bv_omega

/-- Two stretches of addresses, one before the other. -/
theorem clear_of_le (h : a.toNat + j ≤ b.toNat) (hk : b.toNat + k ≤ 2 ^ 64) (hj : 0 < j) :
    Clear a j b k := by
  constructor
  · bv_omega
  · bv_omega

/-- What is read does not meet what was put. -/
theorem leNat_put_of_clear (h : Clear b k a n) : leNat (put m a n x) k b = leNat m k b := by
  refine leNat_congr fun i hi => put_of_ge ?_
  obtain ⟨hba, hab⟩ := h
  bv_omega

/-! ## Copies in parts -/

/-- One part after another, where the two stretches do not meet. -/
theorem copy_append (h : Clear a (j + k) b (j + k)) (hjk : 0 < j + k) :
    copy m a b (j + k)
      = copy (copy m a b j) (a + BitVec.ofNat 64 j) (b + BitVec.ofNat 64 j) k := by
  have hle : j + k ≤ 2 ^ 64 := by
    have := h.1
    omega
  rw [copy, fill_append hle]
  refine fill_congr fun i hi => ?_
  rw [copy, BitVec.add_assoc, ← BitVec.ofNat_add, fill_of_ge]
  obtain ⟨hab, hba⟩ := h
  bv_omega

/-- What lies behind a stretch that does not meet another does not meet it either. -/
theorem Clear.drop (h : Clear a (j + k) b (j + k)) (hk : 0 < k) :
    Clear (a + BitVec.ofNat 64 j) k (b + BitVec.ofNat 64 j) k := by
  obtain ⟨hab, hba⟩ := h
  constructor
  · bv_omega
  · bv_omega

end ByteFields
