/-
# First-fit ownership

An allocator over a linear order keeps a finite set of free elements and a list of
held ones.  A `take` hands out the least free element; a `give` returns a held one.

* `Owns total s` : free and held elements partition `total`, each held once;
* `Owns.step`, `Owns.reach` : every run keeps the partition;
* `Owns.rank_le` : an element is only handed out while everything below it is held;
* `takes` : what so many takes in a row hand out.
-/
import Mathlib.Data.Finset.Card
import Mathlib.Data.Finset.Sort
import Mathlib.Data.List.Nodup
import Mathlib.Logic.Relation
import Mathlib.Order.Defs.LinearOrder
import Mathlib.Tactic.Common

namespace FirstFit

/-- The free elements and the held ones. -/
structure State (α : Type*) where
  free : Finset α
  held : List α

/-- Free and held elements partition `total`, and nothing is held twice. -/
structure Owns {α : Type*} (total : Finset α) (s : State α) : Prop where
  nodup : s.held.Nodup
  disjoint : ∀ a ∈ s.held, a ∉ s.free
  mem_total : ∀ a, a ∈ total ↔ a ∈ s.free ∨ a ∈ s.held

namespace Owns

variable {α : Type*} {total : Finset α} {s : State α} {a : α}

/-- At the start everything is free. -/
theorem start (total : Finset α) : Owns total ⟨total, []⟩ where
  nodup := List.nodup_nil
  disjoint := by simp
  mem_total := by simp

theorem mem_of_held (h : Owns total s) (ha : a ∈ s.held) : a ∈ total :=
  (h.mem_total a).mpr (Or.inr ha)

theorem mem_of_free (h : Owns total s) (ha : a ∈ s.free) : a ∈ total :=
  (h.mem_total a).mpr (Or.inl ha)

/-- The order in which elements are held does not matter. -/
theorem perm {held : List α} (h : Owns total s) (hp : s.held.Perm held) :
    Owns total ⟨s.free, held⟩ where
  nodup := hp.nodup_iff.mp h.nodup
  disjoint := fun b hb => h.disjoint b (hp.mem_iff.mpr hb)
  mem_total := fun b => by rw [h.mem_total b, hp.mem_iff]

variable [DecidableEq α]

theorem take (h : Owns total s) (ha : a ∈ s.free) :
    Owns total ⟨s.free.erase a, a :: s.held⟩ where
  nodup := List.nodup_cons.mpr ⟨fun hheld => h.disjoint a hheld ha, h.nodup⟩
  disjoint := by
    intro b hb
    rw [Finset.mem_erase]
    rcases List.mem_cons.mp hb with rfl | hb
    · exact fun hcon => hcon.1 rfl
    · exact fun hcon => h.disjoint b hb hcon.2
  mem_total := by
    intro b
    rw [h.mem_total b, Finset.mem_erase, List.mem_cons]
    rcases eq_or_ne b a with rfl | hb
    · simp [ha]
    · simp [hb]

theorem give (h : Owns total s) (ha : a ∈ s.held) :
    Owns total ⟨insert a s.free, s.held.erase a⟩ where
  nodup := h.nodup.erase a
  disjoint := by
    intro b hb
    obtain ⟨hne, hheld⟩ := h.nodup.mem_erase_iff.mp hb
    rw [Finset.mem_insert]
    rintro (hcon | hcon)
    · exact hne hcon
    · exact h.disjoint b hheld hcon
  mem_total := by
    intro b
    rw [h.mem_total b, Finset.mem_insert, h.nodup.mem_erase_iff]
    rcases eq_or_ne b a with rfl | hb
    · simp [ha]
    · simp [hb]

end Owns

/-! ## Runs -/

variable {α : Type*} [LinearOrder α] {total : Finset α} {s s' : State α} {a : α}

/-- One step of the allocator. -/
inductive Step : State α → State α → Prop
  | take {s : State α} {a : α} (ha : a ∈ s.free) (hmin : ∀ b ∈ s.free, a ≤ b) :
      Step s ⟨s.free.erase a, a :: s.held⟩
  | give {s : State α} {a : α} (ha : a ∈ s.held) :
      Step s ⟨insert a s.free, s.held.erase a⟩

/-- Every step keeps the partition. -/
theorem Owns.step (h : Owns total s) (hstep : Step s s') : Owns total s' := by
  cases hstep with
  | take ha _ => exact h.take ha
  | give ha => exact h.give ha

/-- Every run keeps the partition. -/
theorem Owns.reach (h : Owns total s) (hrun : Relation.ReflTransGen Step s s') :
    Owns total s' := by
  induction hrun with
  | refl => exact h
  | tail _ hstep ih => exact ih.step hstep

/-- The least free element has only held elements below it, so its rank in `total` is at
most the number of held elements. -/
theorem Owns.rank_le (h : Owns total s) (hmin : ∀ b ∈ s.free, a ≤ b) :
    (total.filter (· < a)).card ≤ s.held.length := by
  have hsub : total.filter (· < a) ⊆ s.held.toFinset := by
    intro b hb
    obtain ⟨hb, hlt⟩ := Finset.mem_filter.mp hb
    rcases (h.mem_total b).mp hb with hfree | hheld
    · exact absurd (hmin b hfree) (not_le.mpr hlt)
    · exact List.mem_toFinset.mpr hheld
  exact (Finset.card_le_card hsub).trans (List.toFinset_card_le _)

/-! ## Takes in a row -/

/-- What `n` takes hand out, in order: the least `n` elements. -/
def takes (free : Finset α) (n : ℕ) : List α := (free.sort (· ≤ ·)).take n

variable {free : Finset α} {n : ℕ}

/-- The first take, then the others. -/
theorem takes_succ (ha : a ∈ free) (hmin : ∀ b ∈ free, a ≤ b) (n : ℕ) :
    takes free (n + 1) = a :: takes (free.erase a) n := by
  have hsort : free.sort (· ≤ ·) = a :: (free.erase a).sort (· ≤ ·) := by
    conv_lhs => rw [← Finset.insert_erase ha]
    exact Finset.sort_insert _ (fun b hb => hmin b (Finset.mem_of_mem_erase hb))
      (Finset.notMem_erase a free)
  rw [takes, hsort, List.take_succ_cons]
  rfl

theorem mem_of_mem_takes (ha : a ∈ takes free n) : a ∈ free :=
  (Finset.mem_sort _).mp (List.mem_of_mem_take ha)

theorem length_takes (hn : n ≤ free.card) : (takes free n).length = n := by
  rw [takes, List.length_take, Finset.length_sort, min_eq_left hn]

theorem pairwise_takes (free : Finset α) (n : ℕ) : (takes free n).Pairwise (· < ·) :=
  (Finset.sortedLT_sort free).pairwise.sublist (List.take_sublist _ _)

end FirstFit
