/-
# Latches

A latch is set by one symbol, reset by another and indifferent to all others.

* `Latch.LastOn` : of the two symbols, the last one in a sequence was the one that sets;
* `Latch.foldl_next` : a latch that starts reset is set after just these sequences.
-/
import Mathlib.Data.List.Induction
import Mathlib.Tactic.Common

namespace Latch

variable {α : Type*} [DecidableEq α] {on off b : α} {l : List α}

/-- The state after one more symbol. -/
def next (on off : α) (s : Bool) (b : α) : Bool :=
  if b = on then true else if b = off then false else s

/-- Of the symbols `on` and `off` in the sequence the last one is `on`. -/
def LastOn (on off : α) (l : List α) : Prop :=
  (l.filter fun b => b = on ∨ b = off).getLast? = some on

theorem lastOn_concat_self : LastOn on off (l ++ [on]) := by
  rw [LastOn, List.filter_append, List.filter_cons_of_pos (by simp), List.filter_nil,
    List.getLast?_concat]

theorem not_lastOn_concat (hne : on ≠ off) : ¬ LastOn on off (l ++ [off]) := by
  rw [LastOn, List.filter_append, List.filter_cons_of_pos (by simp), List.filter_nil,
    List.getLast?_concat]
  exact fun h => hne (Option.some.inj h).symm

theorem lastOn_concat_of_ne (hon : b ≠ on) (hoff : b ≠ off) :
    LastOn on off (l ++ [b]) ↔ LastOn on off l := by
  rw [LastOn, List.filter_append, List.filter_cons_of_neg (by simp [hon, hoff]), List.filter_nil,
    List.append_nil, LastOn]

/-- **The state of a latch.** -/
theorem foldl_next (hne : on ≠ off) (l : List α) :
    l.foldl (next on off) false = true ↔ LastOn on off l := by
  induction l using List.reverseRecOn with
  | nil => simp [LastOn]
  | append_singleton l b ih =>
    rw [List.foldl_append, List.foldl_cons, List.foldl_nil, next]
    split_ifs with hon hoff
    · subst hon
      exact iff_of_true rfl lastOn_concat_self
    · subst hoff
      exact iff_of_false not_false (not_lastOn_concat hne)
    · rw [ih, lastOn_concat_of_ne hon hoff]

end Latch
