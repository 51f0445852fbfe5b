/-
# Doubly linked lists

Nodes with a link to the node before and a link to the node behind.  A stretch of a list is the
list of its nodes, with the place it starts from and the place it arrives at.

* `Linked prev next a l z` : the nodes `l` are linked both ways, from `a` to `z`;
* `linked_append` : a stretch is two stretches that meet;
* `Linked.unique` : the links leave no choice of the nodes;
* `Linked.insert`, `Linked.remove` : the edits, by what they do to the links of the other nodes.
-/
import Mathlib.Data.List.Basic
import Mathlib.Data.List.Nodup
import Mathlib.Tactic.Common

namespace DoubleLinks

variable {A : Type*} {prev next prev' next' : A → A} {a x y z : A} {l r : List A}

/-! ## Beside a node -/

theorem mem_middle (h : y ∈ l ++ r) : y ∈ l ++ x :: r :=
  ((List.sublist_cons_self x r).append_left l).subset h

theorem mem_sides (h : y ∈ l ++ x :: r) (hne : y ≠ x) : y ∈ l ++ r := by
  rcases List.mem_append.mp h with h | h
  · exact List.mem_append_left r h
  · exact List.mem_append_right l ((List.mem_cons.mp h).resolve_left hne)

/-! ## Stretches -/

/-- The first node, or the place behind the stretch. -/
def first (l : List A) (z : A) : A := l.head?.getD z

/-- The last node, or the place before the stretch. -/
def last (a : A) (l : List A) : A := l.getLast?.getD a

@[simp] theorem first_nil (z : A) : first [] z = z := rfl

@[simp] theorem first_cons (x : A) (l : List A) (z : A) : first (x :: l) z = x := rfl

@[simp] theorem last_nil (a : A) : last a [] = a := rfl

theorem last_cons (a x : A) (l : List A) : last a (x :: l) = last x l := by
  rw [last, last, List.getLast?_cons]
  rfl

@[simp] theorem last_concat (a x : A) (l : List A) : last a (l ++ [x]) = x := by
  rw [last, List.getLast?_concat]
  rfl

@[simp] theorem first_append_cons (l : List A) (x : A) (r : List A) (z : A) :
    first (l ++ x :: r) z = first l x := by
  cases l <;> rfl

theorem last_mem (h : l ≠ []) : last a l ∈ l := by
  rw [last, List.getLast?_eq_some_getLast h]
  exact List.getLast_mem h

/-- The nodes `l` are linked one to the next and back, from `a` to `z`. -/
def Linked (prev next : A → A) : A → List A → A → Prop
  | _, [], _ => True
  | a, x :: l, z => prev x = a ∧ next x = first l z ∧ Linked prev next x l z

theorem linked_append :
    Linked prev next a (l ++ r) z ↔
      Linked prev next a l (first r z) ∧ Linked prev next (last a l) r z := by
  induction l generalizing a with
  | nil => exact (iff_of_eq (true_and _)).symm
  | cons x l ih =>
    have hfirst : first (l ++ r) z = first l (first r z) := by cases l <;> rfl
    rw [List.cons_append, Linked, Linked, ih, last_cons, hfirst, and_assoc, and_assoc]

theorem Linked.congr (h : Linked prev next a l z) (hprev : ∀ y ∈ l, prev' y = prev y)
    (hnext : ∀ y ∈ l, next' y = next y) : Linked prev' next' a l z := by
  induction l generalizing a with
  | nil => trivial
  | cons x l ih =>
    obtain ⟨hp, hn, hl⟩ := h
    exact ⟨(hprev x List.mem_cons_self).trans hp, (hnext x List.mem_cons_self).trans hn,
      ih hl (fun y hy => hprev y (List.mem_cons_of_mem x hy)) fun y hy =>
        hnext y (List.mem_cons_of_mem x hy)⟩

/-- A node in its place. -/
theorem Linked.at (h : Linked prev next a (l ++ x :: r) z) :
    prev x = last a l ∧ next x = first r z := by
  obtain ⟨-, hp, hn, -⟩ := linked_append.mp h
  exact ⟨hp, hn⟩

/-- The first node and the links say what the stretch is, if it ends where it does not go. -/
theorem Linked.unique {l' : List A} {b : A} (h : Linked prev next a l z)
    (h' : Linked prev' next b l' z) (hfirst : first l z = first l' z) (hl : z ∉ l)
    (hl' : z ∉ l') : l = l' := by
  induction l generalizing a b l' with
  | nil =>
    cases l' with
    | nil => rfl
    | cons y l' =>
      obtain rfl : z = y := hfirst
      exact absurd List.mem_cons_self hl'
  | cons x l ih =>
    cases l' with
    | nil =>
      obtain rfl : x = z := hfirst
      exact absurd List.mem_cons_self hl
    | cons y l' =>
      obtain rfl : x = y := hfirst
      obtain ⟨-, hn, hrest⟩ := h
      obtain ⟨-, hn', hrest'⟩ := h'
      rw [ih hrest hrest' (hn.symm.trans hn') (List.not_mem_of_not_mem_cons hl)
        (List.not_mem_of_not_mem_cons hl')]

variable [DecidableEq A]

/-- Another place to arrive at: the last node has a new successor. -/
theorem Linked.retarget {z' : A} (h : Linked prev next a l z) (hl : l.Nodup)
    (hprev : ∀ y ∈ l, prev' y = prev y)
    (hnext : ∀ y ∈ l, next' y = if l.getLast? = some y then z' else next y) :
    Linked prev' next' a l z' := by
  rcases List.eq_nil_or_concat' l with rfl | ⟨l, x, rfl⟩
  · trivial
  · obtain ⟨hinit, hp, -, -⟩ := linked_append.mp h
    obtain ⟨-, -, hx⟩ := List.nodup_append.mp hl
    refine linked_append.mpr ⟨hinit.congr (fun y hy => hprev y (List.mem_append_left _ hy)) ?_,
      (hprev x (List.mem_append_right _ List.mem_cons_self)).trans hp, ?_, trivial⟩
    · intro y hy
      have hne : x ≠ y := fun heq => hx y hy x List.mem_cons_self heq.symm
      rw [hnext y (List.mem_append_left _ hy), List.getLast?_concat,
        if_neg fun heq => hne (Option.some.inj heq)]
    · rw [hnext x (List.mem_append_right _ List.mem_cons_self), List.getLast?_concat,
        if_pos rfl]
      rfl

/-- Another place to start from: the first node has a new predecessor. -/
theorem Linked.restart {a' : A} (h : Linked prev next a r z) (hr : r.Nodup)
    (hprev : ∀ y ∈ r, prev' y = if r.head? = some y then a' else prev y)
    (hnext : ∀ y ∈ r, next' y = next y) : Linked prev' next' a' r z := by
  cases r with
  | nil => trivial
  | cons x r =>
    obtain ⟨-, hn, hrest⟩ := h
    obtain ⟨hx, -⟩ := List.nodup_cons.mp hr
    refine ⟨?_, (hnext x List.mem_cons_self).trans hn,
      hrest.congr (fun y hy => ?_) fun y hy => hnext y (List.mem_cons_of_mem x hy)⟩
    · rw [hprev x List.mem_cons_self, List.head?_cons, if_pos rfl]
    · have hne : ¬ some x = some y := fun heq => hx (Option.some.inj heq ▸ hy)
      rw [hprev y (List.mem_cons_of_mem x hy), List.head?_cons, if_neg hne]

/-- **Insertion.**  The new node points both ways, its neighbours point to it, and nothing else
changes. -/
theorem Linked.insert (h : Linked prev next a (l ++ r) z) (hlr : (l ++ r).Nodup)
    (hx : prev' x = last a l ∧ next' x = first r z)
    (hprev : ∀ y ∈ l ++ r, prev' y = if r.head? = some y then x else prev y)
    (hnext : ∀ y ∈ l ++ r, next' y = if l.getLast? = some y then x else next y) :
    Linked prev' next' a (l ++ x :: r) z := by
  obtain ⟨hl, hr⟩ := linked_append.mp h
  obtain ⟨hlnd, hrnd, hdisj⟩ := List.nodup_append.mp hlr
  refine linked_append.mpr ⟨hl.retarget hlnd (fun y hy => ?_) fun y hy =>
    hnext y (List.mem_append_left r hy), hx.1, hx.2, hr.restart hrnd (fun y hy =>
    hprev y (List.mem_append_right l hy)) fun y hy => ?_⟩
  · rw [hprev y (List.mem_append_left r hy), if_neg]
    exact fun heq => hdisj y hy y (List.mem_of_mem_head? heq) rfl
  · rw [hnext y (List.mem_append_right l hy), if_neg]
    exact fun heq => hdisj y (List.mem_of_getLast? heq) y hy rfl

/-- **Removal.**  The neighbours of the node point to each other, and nothing else changes. -/
theorem Linked.remove (h : Linked prev next a (l ++ x :: r) z) (hlr : (l ++ r).Nodup)
    (hprev : ∀ y ∈ l ++ r, prev' y = if r.head? = some y then last a l else prev y)
    (hnext : ∀ y ∈ l ++ r, next' y = if l.getLast? = some y then first r z else next y) :
    Linked prev' next' a (l ++ r) z := by
  obtain ⟨hl, -, -, hr⟩ := linked_append.mp h
  obtain ⟨hlnd, hrnd, hdisj⟩ := List.nodup_append.mp hlr
  refine linked_append.mpr ⟨hl.retarget hlnd (fun y hy => ?_) fun y hy =>
    hnext y (List.mem_append_left r hy), hr.restart hrnd (fun y hy =>
    hprev y (List.mem_append_right l hy)) fun y hy => ?_⟩
  · rw [hprev y (List.mem_append_left r hy), if_neg]
    exact fun heq => hdisj y hy y (List.mem_of_mem_head? heq) rfl
  · rw [hnext y (List.mem_append_right l hy), if_neg]
    exact fun heq => hdisj y (List.mem_of_getLast? heq) y hy rfl

end DoubleLinks
