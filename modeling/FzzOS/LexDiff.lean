/-
# Lexicographic difference

The difference of two sequences at the first place where they differ, and 0 where they do not.
Over sequences of one length its sign is the lexicographic order.

* `lexDiff_eq_zero_iff` : there is no difference only between equal sequences;
* `lexDiff_of_first` : its value;
* `lexDiff_swap`, `lexDiff_neg_iff` : antisymmetry and order.
-/
import Mathlib.Algebra.Order.Group.Defs
import Mathlib.Algebra.Order.Group.Unbundled.Basic
import Mathlib.Data.List.Lex
import Mathlib.Tactic.Common

variable {α : Type*} [AddCommGroup α] [LinearOrder α] [IsOrderedAddMonoid α] {l l' : List α}

/-- The difference at the first place where the sequences differ. -/
def lexDiff : List α → List α → α
  | x :: l, y :: l' => if x = y then lexDiff l l' else x - y
  | _, _ => 0

omit [IsOrderedAddMonoid α] in
theorem lexDiff_eq_zero_iff (h : l.length = l'.length) : lexDiff l l' = 0 ↔ l = l' := by
  induction l generalizing l' with
  | nil => simp [lexDiff, List.length_eq_zero_iff.mp h.symm]
  | cons x l ih =>
    cases l' with
    | nil => exact absurd h (by simp)
    | cons y l' =>
      rw [lexDiff]
      split_ifs with hxy
      · rw [ih (Nat.succ.inj h), hxy, List.cons_inj_right]
      · exact iff_of_false (sub_ne_zero.mpr hxy) fun hc => hxy (List.cons.inj hc).1

omit [IsOrderedAddMonoid α] in
/-- The value, at the first difference. -/
theorem lexDiff_of_first {k : ℕ} (hk : k < l.length) (hk' : k < l'.length)
    (htake : l.take k = l'.take k) (hne : l[k] ≠ l'[k]) : lexDiff l l' = l[k] - l'[k] := by
  induction k generalizing l l' with
  | zero =>
    obtain ⟨x, l, rfl⟩ := List.exists_cons_of_length_pos hk
    obtain ⟨y, l', rfl⟩ := List.exists_cons_of_length_pos hk'
    exact if_neg hne
  | succ k ih =>
    obtain ⟨x, l, rfl⟩ := List.exists_cons_of_length_pos (Nat.zero_lt_of_lt hk)
    obtain ⟨y, l', rfl⟩ := List.exists_cons_of_length_pos (Nat.zero_lt_of_lt hk')
    obtain ⟨hxy, hrest⟩ := List.cons.inj htake
    rw [lexDiff, if_pos hxy]
    exact ih (Nat.lt_of_succ_lt_succ hk) (Nat.lt_of_succ_lt_succ hk') hrest hne

omit [IsOrderedAddMonoid α] in
theorem lexDiff_swap (l l' : List α) : lexDiff l' l = -lexDiff l l' := by
  induction l generalizing l' with
  | nil => cases l' <;> simp [lexDiff]
  | cons x l ih =>
    cases l' with
    | nil => simp [lexDiff]
    | cons y l' =>
      rw [lexDiff, lexDiff]
      by_cases hxy : x = y
      · rw [if_pos hxy, if_pos hxy.symm, ih]
      · rw [if_neg hxy, if_neg fun h => hxy h.symm, neg_sub]

/-- **The sign is the lexicographic order.** -/
theorem lexDiff_neg_iff (h : l.length = l'.length) : lexDiff l l' < 0 ↔ l < l' := by
  induction l generalizing l' with
  | nil => simp [lexDiff, List.length_eq_zero_iff.mp h.symm]
  | cons x l ih =>
    cases l' with
    | nil => exact absurd h (by simp)
    | cons y l' =>
      rw [lexDiff, List.cons_lt_cons_iff]
      split_ifs with hxy
      · rw [ih (Nat.succ.inj h)]
        simp [hxy]
      · rw [sub_neg]
        simp [hxy]
