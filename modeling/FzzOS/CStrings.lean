/-
# Strings and arrays in memory

A string is a row of cells that ends at the first zero, an array a row of cells of a length that
is known otherwise.  Addresses are machine words and may wrap around.

* `CString mem p l` : the string at `p` is `l`;
* `CString.get`, `CString.get_length` : its cells, and the zero behind them;
* `Within p n a` : address `a` is one of the `n + 1` cells of a string of length `n`;
* `Cells mem p l` : the array at `p` is `l`.
-/
import Mathlib.Data.BitVec
import Mathlib.Tactic.Common

variable {w : ℕ} {β : Type*} [Zero β] {mem : BitVec w → β} {p : BitVec w} {l : List β} {i n : ℕ}

/-- The string at `p`: its cells, none of them zero, and the zero that ends it. -/
def CString (mem : BitVec w → β) : BitVec w → List β → Prop
  | p, [] => mem p = 0
  | p, b :: l => mem p = b ∧ b ≠ 0 ∧ CString mem (p + 1) l

namespace CString

/-- One cell further on is one word further on. -/
theorem add_succ (p : BitVec w) (i : ℕ) :
    p + BitVec.ofNat w (i + 1) = p + 1 + BitVec.ofNat w i := by
  rw [Nat.add_comm, BitVec.ofNat_add, ← BitVec.add_assoc]
  rfl

theorem get (h : CString mem p l) (hi : i < l.length) : mem (p + BitVec.ofNat w i) = l[i] := by
  induction l generalizing p i with
  | nil => exact absurd hi (Nat.not_lt_zero i)
  | cons b l ih =>
    obtain ⟨hb, _, hl⟩ := h
    cases i with
    | zero => rw [show p + BitVec.ofNat w 0 = p from BitVec.add_zero p, hb, List.getElem_cons_zero]
    | succ i =>
      rw [add_succ, List.getElem_cons_succ]
      exact ih hl (Nat.lt_of_succ_lt_succ hi)

theorem get_length (h : CString mem p l) : mem (p + BitVec.ofNat w l.length) = 0 := by
  induction l generalizing p with
  | nil =>
    rw [List.length_nil, show p + BitVec.ofNat w 0 = p from BitVec.add_zero p]
    exact h
  | cons b l ih =>
    rw [List.length_cons, add_succ]
    exact ih h.2.2

theorem ne_zero (h : CString mem p l) {b : β} (hb : b ∈ l) : b ≠ 0 := by
  induction l generalizing p with
  | nil => exact absurd hb List.not_mem_nil
  | cons c l ih =>
    rcases List.mem_cons.mp hb with rfl | hb
    · exact h.2.1
    · exact ih h.2.2 hb

/-- Before its end a string has no zero. -/
theorem get_ne_zero (h : CString mem p l) (hi : i < l.length) :
    mem (p + BitVec.ofNat w i) ≠ 0 := by
  rw [h.get hi]
  exact h.ne_zero (List.getElem_mem hi)

/-! ## A string in otherwise empty memory -/

/-- The cells of `l` from address 0 on. -/
def only (l : List β) (a : BitVec w) : β := l.getD a.toNat 0

theorem of_get (hne : ∀ b ∈ l, b ≠ 0) (hget : ∀ i, i ≤ l.length →
    mem (p + BitVec.ofNat w i) = l.getD i 0) : CString mem p l := by
  induction l generalizing p with
  | nil =>
    have hfirst := hget 0 (le_refl 0)
    rwa [show p + BitVec.ofNat w 0 = p from BitVec.add_zero p] at hfirst
  | cons b l ih =>
    have hfirst := hget 0 (Nat.zero_le _)
    rw [show p + BitVec.ofNat w 0 = p from BitVec.add_zero p] at hfirst
    refine ⟨hfirst, hne b List.mem_cons_self, ih (fun c hc => hne c (List.mem_cons_of_mem b hc))
      fun i hi => ?_⟩
    rw [← add_succ, hget (i + 1) (Nat.succ_le_succ hi)]
    exact List.getD_cons_succ

theorem of_only {l : List β} (hne : ∀ b ∈ l, b ≠ 0) (hlen : l.length < 2 ^ w) :
    CString (only l : BitVec w → β) 0 l := by
  refine of_get hne fun i hi => ?_
  rw [show (0 : BitVec w) + BitVec.ofNat w i = BitVec.ofNat w i from BitVec.zero_add _, only,
    BitVec.toNat_ofNat, Nat.mod_eq_of_lt (by omega)]

end CString

/-! ## The cells of a string -/

/-- Address `a` is a cell of the string of length `n` at `p`, or the zero behind it. -/
def Within (p : BitVec w) (n : ℕ) (a : BitVec w) : Prop := ∃ i ≤ n, a = p + BitVec.ofNat w i

/-- The cell behind the zero is not part of the string, unless the string fills the memory. -/
theorem not_within_succ (hn : n + 1 < 2 ^ w) : ¬ Within p n (p + BitVec.ofNat w (n + 1)) := by
  rintro ⟨i, hi, heq⟩
  have hcell := congrArg BitVec.toNat ((BitVec.add_right_inj p).mp heq)
  rw [BitVec.toNat_ofNat, BitVec.toNat_ofNat, Nat.mod_eq_of_lt hn,
    Nat.mod_eq_of_lt (by omega)] at hcell
  omega

theorem within_self (p : BitVec w) (n : ℕ) : Within p n p :=
  ⟨0, Nat.zero_le n, (BitVec.add_zero p).symm⟩

/-- What is part of a string's rest is part of the string. -/
theorem Within.of_succ {a : BitVec w} (h : Within (p + 1) n a) : Within p (n + 1) a := by
  obtain ⟨i, hi, rfl⟩ := h
  exact ⟨i + 1, Nat.succ_le_succ hi, (CString.add_succ p i).symm⟩

/-! ## Arrays -/

/-- The array at `p`, cell by cell. -/
def Cells (mem : BitVec w → β) : BitVec w → List β → Prop
  | _, [] => True
  | p, b :: l => mem p = b ∧ Cells mem (p + 1) l

omit [Zero β] in
theorem Cells.of_get (hget : ∀ i (hi : i < l.length), mem (p + BitVec.ofNat w i) = l[i]) :
    Cells mem p l := by
  induction l generalizing p with
  | nil => trivial
  | cons b l ih =>
    refine ⟨?_, ih fun i hi => ?_⟩
    · have hfirst := hget 0 (Nat.zero_lt_succ _)
      rwa [show p + BitVec.ofNat w 0 = p from BitVec.add_zero p] at hfirst
    · rw [← CString.add_succ, hget (i + 1) (Nat.succ_lt_succ hi), List.getElem_cons_succ]

/-- An array at address 0 of otherwise empty memory. -/
theorem Cells.of_only (hlen : l.length ≤ 2 ^ w) :
    Cells (CString.only l : BitVec w → β) 0 l := by
  refine .of_get fun i hi => ?_
  rw [show (0 : BitVec w) + BitVec.ofNat w i = BitVec.ofNat w i from BitVec.zero_add _,
    CString.only, BitVec.toNat_ofNat, Nat.mod_eq_of_lt (by omega), List.getD_eq_getElem?_getD,
    List.getElem?_eq_getElem hi, Option.getD_some]
