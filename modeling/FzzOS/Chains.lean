/-
# Chains of nodes

A chain starts at a node, goes on from each node to its successor, and ends at a null node.  A
search along it stops at the first node that passes a test, or at the end.

* `IsChain next null p l` : the chain from `p` runs through the nodes `l`;
* `search_eq` : the search stops after at most one round more than there are nodes, at the first
  node that passes.
-/
import Mathlib.Data.List.Basic
import Mathlib.Tactic.Common

namespace Chains

variable {P : Type*} {next : P → P} {null p : P} {found : P → Bool} {l : List P} {n : ℕ}

/-- The chain from `p` runs through the nodes `l` and then ends. -/
def IsChain (next : P → P) (null : P) : P → List P → Prop
  | p, [] => p = null
  | p, a :: l => p = a ∧ a ≠ null ∧ IsChain next null (next a) l

theorem IsChain.ne_null (h : IsChain next null p l) {a : P} (ha : a ∈ l) : a ≠ null := by
  induction l generalizing p with
  | nil => exact absurd ha List.not_mem_nil
  | cons b l ih =>
    rcases List.mem_cons.mp ha with rfl | ha
    · exact h.2.1
    · exact ih h.2.2 ha

/-- The first node of `l` that passes, or the null node. -/
def first (null : P) (found : P → Bool) (l : List P) : P := (l.find? found).getD null

/-- A node is found if one passes. -/
theorem first_ne_null_iff (h : IsChain next null p l) :
    first null found l ≠ null ↔ ∃ a ∈ l, found a = true := by
  unfold first
  cases hfind : l.find? found with
  | none =>
    rw [List.find?_eq_none] at hfind
    refine ⟨fun hne => absurd rfl hne, ?_⟩
    rintro ⟨a, ha, hpass⟩
    exact absurd hpass (hfind a ha)
  | some a =>
    have ha := List.mem_of_find?_eq_some hfind
    exact ⟨fun _ => ⟨a, ha, List.find?_some hfind⟩, fun _ => h.ne_null ha⟩

/-- What is found is the first node that passes. -/
theorem find?_of_first_ne_null (h : first null found l ≠ null) :
    l.find? found = some (first null found l) := by
  unfold first at h ⊢
  cases hfind : l.find? found with
  | none =>
    rw [hfind] at h
    exact absurd rfl h
  | some a => rfl

variable [DecidableEq P]

instance decidableIsChain : ∀ (p : P) (l : List P), Decidable (IsChain next null p l)
  | p, [] => inferInstanceAs (Decidable (p = null))
  | p, a :: l =>
    have := decidableIsChain (next a) l
    inferInstanceAs (Decidable (p = a ∧ a ≠ null ∧ IsChain next null (next a) l))

/-- The search in `n` rounds, `none` if it has not stopped by then. -/
def search (next : P → P) (null : P) (found : P → Bool) : ℕ → P → Option P
  | 0, _ => none
  | n + 1, p =>
    if p = null then some null else if found p then some p else search next null found n (next p)

/-- **The search ends**, and it finds the first node that passes. -/
theorem search_eq (h : IsChain next null p l) (hn : l.length < n) :
    search next null found n p = some (first null found l) := by
  induction l generalizing p n with
  | nil =>
    obtain ⟨n, rfl⟩ := Nat.exists_eq_add_of_lt hn
    exact if_pos h
  | cons a l ih =>
    obtain ⟨rfl, hne, hl⟩ := h
    obtain ⟨n, rfl⟩ := Nat.exists_eq_succ_of_ne_zero (Nat.ne_zero_of_lt hn)
    rw [search, if_neg hne]
    by_cases hpass : found p = true
    · rw [if_pos hpass, first, List.find?_cons_of_pos hpass, Option.getD_some]
    · rw [if_neg hpass, ih hl (Nat.lt_of_succ_lt_succ hn), first, first,
        List.find?_cons_of_neg hpass]

end Chains
