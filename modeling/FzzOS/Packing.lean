/-
# Pieces packed into an interval

Things with a place and a length, in order and without overlap, between two bounds.

* `Packed start len lo l hi` : the things `l` lie one after the other in `[lo, hi)`;
* `packed_append` : two packings that meet;
* `Packed.insert`, `Packed.erase` : a thing put into a gap, and one taken out;
* `Packed.pairwise`, `Packed.sum_le` : nothing overlaps, and all of it fits.
-/
import Mathlib.Algebra.BigOperators.Group.List.Basic
import Mathlib.Algebra.GroupWithZero.Nat
import Mathlib.Algebra.Order.BigOperators.Group.List
import Mathlib.Data.List.Pairwise
import Mathlib.Tactic.Common

namespace Packing

variable {ι : Type*} {start len : ι → ℕ} {lo hi : ℕ} {l r : List ι} {x y : ι}

/-- In order and without overlap between `lo` and `hi`. -/
def Packed (start len : ι → ℕ) : ℕ → List ι → ℕ → Prop
  | lo, [], hi => lo ≤ hi
  | lo, x :: l, hi => lo ≤ start x ∧ Packed start len (start x + len x) l hi

/-- One ends before the other starts. -/
def Apart (start len : ι → ℕ) (x y : ι) : Prop :=
  start x + len x ≤ start y ∨ start y + len y ≤ start x

instance : Std.Symm (Apart start len) := ⟨fun _ _ => Or.symm⟩

/-- Where the last thing ends. -/
def endOf (start len : ι → ℕ) (lo : ℕ) (l : List ι) : ℕ :=
  (l.getLast?.map fun x => start x + len x).getD lo

/-- Where the first thing starts. -/
def startOf (start : ι → ℕ) (l : List ι) (hi : ℕ) : ℕ := (l.head?.map start).getD hi

@[simp] theorem endOf_nil : endOf start len lo [] = lo := rfl

@[simp] theorem endOf_concat : endOf start len lo (l ++ [x]) = start x + len x := by
  rw [endOf, List.getLast?_concat]
  rfl

theorem endOf_cons : endOf start len lo (x :: l) = endOf start len (start x + len x) l := by
  rw [endOf, endOf, List.getLast?_cons]
  cases l.getLast? <;> rfl

@[simp] theorem startOf_nil : startOf start [] hi = hi := rfl

@[simp] theorem startOf_cons : startOf start (x :: l) hi = start x := rfl

theorem Packed.le (h : Packed start len lo l hi) : lo ≤ hi := by
  induction l generalizing lo with
  | nil => exact h
  | cons x l ih =>
    have := ih h.2
    have := h.1
    omega

theorem packed_append :
    Packed start len lo (l ++ r) hi ↔
      Packed start len lo l (endOf start len lo l) ∧
        Packed start len (endOf start len lo l) r hi := by
  induction l generalizing lo with
  | nil => exact ⟨fun h => ⟨le_refl lo, h⟩, fun h => h.2⟩
  | cons x l ih => rw [List.cons_append, Packed, Packed, ih, endOf_cons, and_assoc]

/-- The first thing starts behind the lower bound, and before the upper one. -/
theorem Packed.startOf (h : Packed start len lo l hi) :
    lo ≤ startOf start l hi ∧ startOf start l hi ≤ hi := by
  cases l with
  | nil => exact ⟨h, le_refl hi⟩
  | cons x l =>
    have := h.2.le
    exact ⟨h.1, by rw [startOf_cons]; omega⟩

/-- **Into a gap.** -/
theorem Packed.insert (h : Packed start len lo (l ++ r) hi)
    (hstart : endOf start len lo l ≤ start x)
    (hend : start x + len x ≤ Packing.startOf start r hi) :
    Packed start len lo (l ++ x :: r) hi := by
  obtain ⟨hl, hr⟩ := packed_append.mp h
  refine packed_append.mpr ⟨hl, hstart, ?_⟩
  cases r with
  | nil => exact hend
  | cons y r => exact ⟨hend, hr.2⟩

/-- **Out again.** -/
theorem Packed.erase (h : Packed start len lo (l ++ x :: r) hi) :
    Packed start len lo (l ++ r) hi := by
  obtain ⟨hl, hx, hr⟩ := packed_append.mp h
  refine packed_append.mpr ⟨hl, ?_⟩
  cases r with
  | nil =>
    have : start x + len x ≤ hi := hr
    exact show _ ≤ hi by omega
  | cons y r =>
    have := hr.1
    exact ⟨by omega, hr.2⟩

theorem Packed.bounds (h : Packed start len lo l hi) (hx : x ∈ l) :
    lo ≤ start x ∧ start x + len x ≤ hi := by
  obtain ⟨l₁, l₂, rfl⟩ := List.append_of_mem hx
  obtain ⟨hl, hstart, hr⟩ := packed_append.mp h
  have := hl.le
  exact ⟨by omega, hr.le⟩

/-- Nothing overlaps. -/
theorem Packed.pairwise (h : Packed start len lo l hi) :
    l.Pairwise fun x y => start x + len x ≤ start y := by
  induction l generalizing lo with
  | nil => exact List.Pairwise.nil
  | cons x l ih => exact List.Pairwise.cons (fun y hy => (h.2.bounds hy).1) (ih h.2)

/-- Two different things. -/
theorem Packed.apart (h : Packed start len lo l hi) (hx : x ∈ l) (hy : y ∈ l) (hne : x ≠ y) :
    Apart start len x y := by
  have hpairs : l.Pairwise (Apart start len) := h.pairwise.imp Or.inl
  exact hpairs.forall hx hy hne

/-- All of it fits. -/
theorem Packed.sum_le (h : Packed start len lo l hi) : lo + (l.map len).sum ≤ hi := by
  induction l generalizing lo with
  | nil => exact h
  | cons x l ih =>
    have hle := ih h.2
    have hlo := h.1
    rw [List.map_cons, List.sum_cons]
    omega

end Packing
