/-
# Radix trees laid out in a memory of tables

A memory `m : F → ι → E` gives every table `f` one entry per index.  The
function `child` reads an entry as the table it points to, if any.  From a root
the tables reached by paths of indices form a tree exactly when no table is
reached twice (`Separated`).

The file provides:

* `follow` : the table reached along a path of indices;
* `walk` : the lookup of a whole path, with leaves allowed above the last level;
* the frame rules: what a store to one slot of one table changes, for `follow`
  (`follow_off`, `follow_link`, `follow_cut`) and for `walk` (`walk_off`,
  `walk_link`, `walk_store`).

Nothing here knows what an entry is; page tables are one instance.
-/
import Mathlib.Data.List.Basic
import Mathlib.Data.List.Induction
import Mathlib.Data.Set.Basic
import Mathlib.Tactic.Common

namespace RadixTree

variable {F ι E : Type*}

/-! ## Following paths -/

/-- The table reached from `f` along a path of indices. -/
def follow (child : E → Option F) (m : F → ι → E) : F → List ι → Option F
  | f, [] => some f
  | f, i :: p => (child (m f i)).bind fun g => follow child m g p

/-- The entries met from `f` along a path, as far as the path can be followed. -/
def entries (child : E → Option F) (m : F → ι → E) : F → List ι → List E
  | _, [] => []
  | f, i :: p => m f i :: ((child (m f i)).elim [] fun g => entries child m g p)

/-- The tables at depth at most `n` below `root`. -/
def Tables (child : E → Option F) (m : F → ι → E) (root : F) (n : ℕ) : Set F :=
  {f | ∃ p, p.length ≤ n ∧ follow child m root p = some f}

/-- No table at depth at most `n` is reached along two paths. -/
def Separated (child : E → Option F) (m : F → ι → E) (root : F) (n : ℕ) : Prop :=
  ∀ p q f, p.length ≤ n → q.length ≤ n →
    follow child m root p = some f → follow child m root q = some f → p = q

/-- The two memories agree on every table of the tree but at slot `(f, i)`. -/
def AgreeOff (child : E → Option F) (m m' : F → ι → E) (root : F) (n : ℕ) (f : F) (i : ι) :
    Prop :=
  ∀ g ∈ Tables child m root n, ∀ j, (g ≠ f ∨ j ≠ i) → m' g j = m g j

variable {child : E → Option F} {m m' : F → ι → E} {root f g : F} {p q : List ι} {i : ι}
  {n : ℕ}

@[simp] theorem follow_nil : follow child m f [] = some f := rfl

theorem follow_cons : follow child m f (i :: p)
    = (child (m f i)).bind fun g => follow child m g p := rfl

theorem follow_append (f : F) (p q : List ι) :
    follow child m f (p ++ q) = (follow child m f p).bind fun g => follow child m g q := by
  induction p generalizing f with
  | nil => rfl
  | cons i p ih =>
    rw [List.cons_append, follow_cons, follow_cons, Option.bind_assoc]
    congr 1
    funext g
    exact ih g

/-- The last step of a path. -/
theorem follow_concat (f : F) (p : List ι) (i : ι) :
    follow child m f (p ++ [i]) = (follow child m f p).bind fun g => child (m g i) := by
  rw [follow_append]
  congr 1
  funext g
  rw [follow_cons]
  cases child (m g i) <;> rfl

theorem follow_concat_of_eq (hp : follow child m root p = some f) :
    follow child m root (p ++ [i]) = child (m f i) := by
  rw [follow_concat, hp]
  rfl

/-- A path that can be followed can be followed up to any earlier point. -/
theorem exists_follow_of_append (h : follow child m root (p ++ q) = some g) :
    ∃ f, follow child m root p = some f ∧ follow child m f q = some g := by
  rw [follow_append] at h
  exact Option.bind_eq_some_iff.mp h

theorem mem_tables (hn : p.length ≤ n) (hp : follow child m root p = some f) :
    f ∈ Tables child m root n :=
  ⟨p, hn, hp⟩

theorem root_mem_tables : root ∈ Tables child m root n :=
  ⟨[], Nat.zero_le n, rfl⟩

/-- Memories that agree on the tables of a tree have the same paths. -/
theorem follow_congr (h : ∀ f ∈ Tables child m root n, ∀ j, m' f j = m f j) :
    ∀ q, q.length ≤ n + 1 → follow child m' root q = follow child m root q := by
  intro q
  induction q using List.reverseRecOn with
  | nil => intro _; rfl
  | append_singleton q j ih =>
    intro hq
    rw [List.length_append, List.length_singleton] at hq
    rw [follow_concat, follow_concat, ih (by omega)]
    cases hg : follow child m root q with
    | none => rfl
    | some g => simp only [Option.bind_some, h g (mem_tables (by omega) hg) j]

/-! ## A store to one slot -/

/-- **Frame rule.**  A store to slot `i` of the table at path `p` changes no path
that does not go through that slot. -/
theorem follow_off (hsep : Separated child m root n) (hp : follow child m root p = some f)
    (hpn : p.length ≤ n) (hoff : AgreeOff child m m' root n f i) :
    ∀ q, q.length ≤ n + 1 → ¬ (p ++ [i]) <+: q →
      follow child m' root q = follow child m root q := by
  intro q
  induction q using List.reverseRecOn with
  | nil => intro _ _; rfl
  | append_singleton q j ih =>
    intro hq hne
    rw [List.length_append, List.length_singleton] at hq
    have hq' : q.length ≤ n := by omega
    have hprev := ih (by omega) fun h => hne (h.trans (List.prefix_append q [j]))
    rw [follow_concat, follow_concat, hprev]
    cases hg : follow child m root q with
    | none => rfl
    | some g =>
      -- the slot read here is the stored one only when `q ++ [j]` is `p ++ [i]`
      have hslot : g ≠ f ∨ j ≠ i := by
        by_contra hcon
        push Not at hcon
        obtain ⟨rfl, rfl⟩ := hcon
        have hqp : q = p := hsep q p g hq' hpn hg hp
        exact hne (hqp ▸ List.prefix_rfl)
      simp only [Option.bind_some, hoff g (mem_tables hq' hg) j hslot]

/-- Reading on through the stored slot. -/
theorem follow_through (hp : follow child m' root p = some f) (r : List ι) :
    follow child m' root (p ++ i :: r)
      = (child (m' f i)).bind fun g => follow child m' g r := by
  rw [follow_append, hp]
  rfl

/-- The table at path `p` itself is still there after a store to one of its slots. -/
theorem follow_self_off (hsep : Separated child m root n)
    (hp : follow child m root p = some f) (hpn : p.length ≤ n)
    (hoff : AgreeOff child m m' root n f i) : follow child m' root p = some f := by
  rw [follow_off hsep hp hpn hoff p (by omega), hp]
  intro h
  have := h.length_le
  rw [List.length_append, List.length_singleton] at this
  omega

/-- Below a table without children there is nothing. -/
theorem follow_of_no_child (hempty : ∀ j, child (m f j) = none) (hq : q ≠ []) :
    follow child m f q = none := by
  cases q with
  | nil => exact absurd rfl hq
  | cons j r => rw [follow_cons, hempty j]; rfl

/-- **Linking.**  Storing a pointer to a fresh childless table `g` into an empty
slot adds the path to `g` and nothing else. -/
theorem follow_link [DecidableEq ι] (hsep : Separated child m root n)
    (hp : follow child m root p = some f) (hpn : p.length ≤ n)
    (hoff : AgreeOff child m m' root n f i)
    (hnone : child (m f i) = none) (hnew : child (m' f i) = some g)
    (hempty : ∀ j, child (m' g j) = none) (hq : q.length ≤ n + 1) :
    follow child m' root q
      = if q = p ++ [i] then some g else follow child m root q := by
  have hself := follow_self_off hsep hp hpn hoff
  by_cases hpre : (p ++ [i]) <+: q
  · obtain ⟨r, rfl⟩ := hpre
    rw [List.append_assoc, List.singleton_append, follow_through hself, hnew,
      Option.bind_some]
    cases r with
    | nil => simp
    | cons j r =>
      rw [if_neg (by simp), follow_of_no_child hempty (by simp), follow_append, hp,
        Option.bind_some, follow_cons, hnone]
      rfl
  · have hne : q ≠ p ++ [i] := fun h => hpre (h ▸ List.prefix_rfl)
    rw [if_neg hne, follow_off hsep hp hpn hoff q hq hpre]

/-- **Cutting.**  Storing an entry that is no pointer removes every path through the
slot and nothing else. -/
theorem follow_cut (hsep : Separated child m root n)
    (hp : follow child m root p = some f) (hpn : p.length ≤ n)
    (hoff : AgreeOff child m m' root n f i) (hnone : child (m' f i) = none)
    (hq : q.length ≤ n + 1) :
    follow child m' root q = some g ↔
      ¬ (p ++ [i]) <+: q ∧ follow child m root q = some g := by
  have hself := follow_self_off hsep hp hpn hoff
  by_cases hpre : (p ++ [i]) <+: q
  · obtain ⟨r, rfl⟩ := hpre
    rw [List.append_assoc, List.singleton_append, follow_through hself, hnone]
    simp
  · rw [follow_off hsep hp hpn hoff q hq hpre]
    simp [hpre]

theorem separated_link [DecidableEq ι] (hsep : Separated child m root n)
    (hp : follow child m root p = some f) (hpn : p.length < n)
    (hoff : AgreeOff child m m' root n f i)
    (hnone : child (m f i) = none) (hnew : child (m' f i) = some g)
    (hfresh : g ∉ Tables child m root n) (hempty : ∀ j, child (m' g j) = none) :
    Separated child m' root n := by
  have key : ∀ q : List ι, q.length ≤ n → follow child m' root q
      = if q = p ++ [i] then some g else follow child m root q := fun q hq =>
    follow_link hsep hp hpn.le hoff hnone hnew hempty (by omega)
  intro q r h hq hr hqf hrf
  rw [key q hq] at hqf
  rw [key r hr] at hrf
  split_ifs at hqf hrf with hq1 hr1 hr1
  · rw [hq1, hr1]
  · cases hqf
    exact absurd (mem_tables hr hrf) hfresh
  · cases hrf
    exact absurd (mem_tables hq hqf) hfresh
  · exact hsep q r h hq hr hqf hrf

/-! ## Walking a whole path -/

/-- The lookup of a path: the entries read down to a leaf.  `leaf k e` says that `e`
is a leaf when `k` indices are left over. -/
def walk (child : E → Option F) (leaf : ℕ → E → Bool) (m : F → ι → E) :
    F → List ι → Option (List E)
  | _, [] => none
  | f, i :: p =>
    if leaf p.length (m f i) then some [m f i]
    else (child (m f i)).bind fun g => (walk child leaf m g p).map (m f i :: ·)

variable {leaf : ℕ → E → Bool}

theorem walk_cons (f : F) (i : ι) (p : List ι) :
    walk child leaf m f (i :: p) = if leaf p.length (m f i) then some [m f i]
      else (child (m f i)).bind fun g => (walk child leaf m g p).map (m f i :: ·) := rfl

/-- An entry that is neither a leaf nor a pointer ends the walk with nothing. -/
theorem walk_absent (hleaf : leaf p.length (m f i) = false) (hnone : child (m f i) = none) :
    walk child leaf m f (i :: p) = none := by
  rw [walk_cons, hleaf, hnone]
  rfl

/-- Pointers are never leaves above the last level. -/
def Exclusive (child : E → Option F) (leaf : ℕ → E → Bool) : Prop :=
  ∀ k e, (child e).isSome → leaf (k + 1) e = false

/-- A lookup that succeeds has read something. -/
theorem walk_ne_nil : walk child leaf m f p ≠ some [] := by
  cases p with
  | nil => exact Option.some_ne_none _ |>.symm
  | cons i p =>
    rw [walk_cons]
    split_ifs
    · simp
    · cases child (m f i) <;> simp

/-- **Where a lookup ends.**  The last entry read stands in the table its path leads to. -/
theorem exists_of_walk {es : List E} {e : E} (h : walk child leaf m f p = some (es ++ [e])) :
    ∃ p₁ i p₂ g, p = p₁ ++ i :: p₂ ∧ p₁.length = es.length ∧ follow child m f p₁ = some g ∧
      m g i = e := by
  induction p generalizing f es with
  | nil => cases h
  | cons i p ih =>
    rw [walk_cons] at h
    split_ifs at h with hleaf
    · cases es with
      | nil => exact ⟨[], i, p, f, rfl, rfl, rfl, (List.cons.inj (Option.some.inj h)).1⟩
      | cons e' es => simp at h
    · obtain ⟨g, hg, hwalk⟩ := Option.bind_eq_some_iff.mp h
      obtain ⟨es', hes', hcons⟩ := Option.map_eq_some_iff.mp hwalk
      -- the lookup goes on below, so more than one entry is read
      cases es with
      | nil =>
        rw [List.nil_append, List.cons.injEq] at hcons
        rw [hcons.2] at hes'
        exact absurd hes' walk_ne_nil
      | cons e' es =>
        rw [List.cons_append, List.cons.injEq] at hcons
        rw [hcons.2] at hes'
        obtain ⟨p₁, j, p₂, g', rfl, hlen, hfollow, hentry⟩ := ih hes'
        refine ⟨i :: p₁, j, p₂, g', rfl, by rw [List.length_cons, List.length_cons, hlen], ?_,
          hentry⟩
        rw [follow_cons, hg]
        exact hfollow

/-- Walking a path whose first part can be followed. -/
theorem walk_append (hex : Exclusive child leaf) (hp : follow child m root p = some f)
    (hq : q ≠ []) :
    walk child leaf m root (p ++ q)
      = (walk child leaf m f q).map (entries child m root p ++ ·) := by
  induction p generalizing root with
  | nil =>
    cases hp
    simp [entries]
  | cons j p ih =>
    rw [follow_cons] at hp
    obtain ⟨g, hg, hgf⟩ := Option.bind_eq_some_iff.mp hp
    have hlen : ∃ k, (p ++ q).length = k + 1 := by
      obtain ⟨a, r, rfl⟩ := List.exists_cons_of_ne_nil hq
      exact ⟨p.length + r.length, by rw [List.length_append, List.length_cons]; omega⟩
    obtain ⟨k, hk⟩ := hlen
    rw [List.cons_append, walk_cons, hk, hex k _ (by rw [hg]; rfl), hg]
    simp only [Bool.false_eq_true, if_false, Option.bind_some]
    rw [ih hgf, Option.map_map]
    simp only [entries, hg, Option.elim_some]
    rfl

/-- A path that can be followed meets as many entries as it has indices. -/
theorem length_entries (hp : follow child m f p = some g) :
    (entries child m f p).length = p.length := by
  induction p generalizing f with
  | nil => rfl
  | cons i p ih =>
    rw [follow_cons] at hp
    obtain ⟨e, he, hp⟩ := Option.bind_eq_some_iff.mp hp
    rw [entries, he, Option.elim_some, List.length_cons, List.length_cons, ih hp]

/-- The entries met are those of the tables along the path. -/
theorem exists_of_mem_entries {e : E} (hp : follow child m f p = some g)
    (he : e ∈ entries child m f p) :
    ∃ p₁ i p₂ f₁, p = p₁ ++ i :: p₂ ∧ follow child m f p₁ = some f₁ ∧ m f₁ i = e ∧
      (child e).isSome := by
  induction p generalizing f with
  | nil => exact absurd he List.not_mem_nil
  | cons i p ih =>
    rw [follow_cons] at hp
    obtain ⟨h, hc, hp⟩ := Option.bind_eq_some_iff.mp hp
    rw [entries, hc, Option.elim_some] at he
    rcases List.mem_cons.mp he with rfl | he
    · exact ⟨[], i, p, f, rfl, rfl, rfl, by rw [hc]; rfl⟩
    · obtain ⟨p₁, j, p₂, f₁, hpath, hf₁, hm, hsome⟩ := ih hp he
      refine ⟨i :: p₁, j, p₂, f₁, by rw [hpath]; rfl, ?_, hm, hsome⟩
      rw [follow_cons, hc]
      exact hf₁

/-- A walk along a path that breaks off without a leaf finds nothing. -/
theorem walk_of_follow_none (hp : follow child m f p = none)
    (hleaf : ∀ p₁ i p₂ g, p = p₁ ++ i :: p₂ → follow child m f p₁ = some g →
      leaf (p₂ ++ q).length (m g i) = false) :
    walk child leaf m f (p ++ q) = none := by
  induction p generalizing f with
  | nil => cases hp
  | cons i p ih =>
    rw [List.cons_append, walk_cons, hleaf [] i p f rfl rfl, if_neg Bool.false_ne_true]
    cases hc : child (m f i) with
    | none => rfl
    | some g =>
      rw [follow_cons, hc] at hp
      rw [Option.bind_some, ih hp]
      · rfl
      · intro p₁ j p₂ e hpath he
        refine hleaf (i :: p₁) j p₂ e (by rw [hpath]; rfl) ?_
        rw [follow_cons, hc]
        exact he

/-- **Congruence.**  A walk depends only on the slots it reads. -/
theorem walk_congr (h : ∀ q j r g, p = q ++ j :: r → follow child m f q = some g →
      m' g j = m g j) :
    walk child leaf m' f p = walk child leaf m f p := by
  induction p generalizing f with
  | nil => rfl
  | cons i p ih =>
    have hhead : m' f i = m f i := h [] i p f rfl rfl
    rw [walk_cons, walk_cons, hhead]
    congr 1
    cases hc : child (m f i) with
    | none => rfl
    | some g =>
      rw [Option.bind_some, Option.bind_some, ih]
      intro q j r g' hpath hq
      refine h (i :: q) j r g' (by rw [hpath]; rfl) ?_
      rw [follow_cons, hc]
      exact hq

/-- **Sharing.**  A root with an entry of another root finds behind it what the other finds. -/
theorem walk_shared (hhead : m' f i = m root i)
    (h : ∀ g ∈ Tables child m root n, ∀ j, m' g j = m g j) (hp : p.length ≤ n) :
    walk child leaf m' f (i :: p) = walk child leaf m root (i :: p) := by
  rw [walk_cons, walk_cons, hhead]
  congr 1
  cases hc : child (m root i) with
  | none => rfl
  | some e =>
    rw [Option.bind_some, Option.bind_some, walk_congr]
    intro q j r g hpath hq
    refine h g (mem_tables (p := i :: q) ?_ ?_) j
    · rw [hpath, List.length_append, List.length_cons] at hp
      rw [List.length_cons]
      omega
    · rw [follow_cons, hc]
      exact hq

/-- **Frame rule for walks.**  A store to slot `i` of the table at path `p` changes no
walk that does not go through that slot. -/
theorem walk_off (hsep : Separated child m root n) (hp : follow child m root p = some f)
    (hpn : p.length ≤ n) (hoff : AgreeOff child m m' root n f i)
    (hq : q.length ≤ n + 1) (hne : ¬ (p ++ [i]) <+: q) :
    walk child leaf m' root q = walk child leaf m root q := by
  refine walk_congr fun q' j r g hpath hg => ?_
  have hlen : q'.length ≤ n := by
    rw [hpath, List.length_append, List.length_cons] at hq
    omega
  refine hoff g (mem_tables hlen hg) j ?_
  by_contra hcon
  push Not at hcon
  obtain ⟨rfl, rfl⟩ := hcon
  have hqp : q' = p := hsep q' p g hlen hpn hg hp
  exact hne ⟨r, by rw [hpath, hqp, List.append_assoc, List.singleton_append]⟩

/-- A walk through the stored slot. -/
theorem walk_through (hex : Exclusive child leaf) (hp : follow child m' root p = some f)
    (r : List ι) : walk child leaf m' root (p ++ i :: r)
      = (walk child leaf m' f (i :: r)).map (entries child m' root p ++ ·) :=
  walk_append hex hp (by simp)

/-- **Linking is invisible to walks**: a fresh childless and leafless table behind an
empty slot changes no lookup. -/
theorem walk_link (hex : Exclusive child leaf) (hsep : Separated child m root n)
    (hp : follow child m root p = some f) (hpn : p.length < n)
    (hoff : AgreeOff child m m' root n f i)
    (hnone : child (m f i) = none) (hleaf : ∀ k, leaf k (m f i) = false)
    (hnew : child (m' f i) = some g)
    (hempty : ∀ j, child (m' g j) = none) (hleafless : ∀ k j, leaf k (m' g j) = false)
    (hq : q.length = n + 1) :
    walk child leaf m' root q = walk child leaf m root q := by
  have hself := follow_self_off hsep hp hpn.le hoff
  by_cases hpre : (p ++ [i]) <+: q
  · obtain ⟨r, rfl⟩ := hpre
    rw [List.append_assoc, List.singleton_append, walk_through hex hself,
      walk_through hex hp, walk_absent (hleaf _) hnone]
    -- the path is longer than `p ++ [i]`, so the walk enters the new table
    obtain ⟨j, r, rfl⟩ : ∃ j r', r = j :: r' := by
      refine List.exists_cons_of_ne_nil fun h => ?_
      rw [h, List.append_nil, List.length_append, List.length_singleton] at hq
      omega
    rw [walk_cons, List.length_cons, hex _ _ (by rw [hnew]; rfl), hnew, Option.bind_some,
      walk_absent (hleafless _ _) (hempty _)]
    rfl
  · exact walk_off hsep hp hpn.le hoff hq.le hpre

end RadixTree
