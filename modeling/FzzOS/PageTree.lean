/-
# Well-formed page-table trees

A page-table tree is well formed when no table is reached along two paths and the
entries that point to tables carry nothing but an address and low flags.  What counts as
a large page, and which bits a pointer must not have, is a parameter (`Format`).

Two changes of a memory matter to the table code, and both are described here by what
they do to paths, to well-formedness and to the processor's walk:

* `Link` : a fresh empty table is put behind an absent entry;
* `Stored` : one entry is overwritten.
-/
import FzzOS.PageWalk

open RadixTree

namespace Vmm

/-! ## Formats -/

/-- What a tree may contain: the entries above the last level that are large pages, and
the bits no pointer to a table has. -/
structure Format where
  leaf : ℕ → U64 → Bool
  bad : U64
  large_of_leaf : ∀ k e, leaf (k + 1) e = true → large e = true
  tableMask_of_bad : ∀ e, e &&& bad = 0 → e &&& tableMask = 0

/-- Pointers that also lie below the processor's 52-bit limit. -/
def Format.Physical (fmt : Format) : Prop := ∀ e : U64, e &&& fmt.bad = 0 → e &&& physMask = 0

theorem tableMask_of_physMask (e : U64) (h : e &&& physMask = 0) : e &&& tableMask = 0 := by
  have hsub : physMask &&& tableMask = tableMask := by decide
  rw [← hsub, ← BitVec.and_assoc, h]
  rfl

/-- 4 KiB pages only, as the kernel reads them. -/
def smallPages : Format where
  leaf _ _ := false
  bad := tableMask
  large_of_leaf := by simp
  tableMask_of_bad _ h := h

/-- Pages of all sizes, as the kernel reads them. -/
def allPages : Format where
  leaf := leafAt
  bad := tableMask
  large_of_leaf := large_of_leafAt
  tableMask_of_bad _ h := h

/-- 4 KiB pages only, with tables below 2^52. -/
def smallPhysical : Format where
  leaf _ _ := false
  bad := physMask
  large_of_leaf := by simp
  tableMask_of_bad := tableMask_of_physMask

/-- Pages of all sizes, with tables below 2^52. -/
def allPhysical : Format where
  leaf := leafAt
  bad := physMask
  large_of_leaf := large_of_leafAt
  tableMask_of_bad := tableMask_of_physMask

/-- Large pages may also be malformed, with address bits below their size. -/
def anyLarge : Format where
  leaf _ := large
  bad := physMask
  large_of_leaf _ _ h := h
  tableMask_of_bad := tableMask_of_physMask

theorem smallPhysical_physical : smallPhysical.Physical := fun _ h => h

theorem allPhysical_physical : allPhysical.Physical := fun _ h => h

theorem anyLarge_physical : anyLarge.Physical := fun _ h => h

/-- Only entries with the page-size bit are large pages. -/
theorem Format.leaf_of_not_large (fmt : Format) {k : ℕ} {e : U64} (hk : 0 < k)
    (hl : large e = false) : fmt.leaf k e = false := by
  obtain ⟨k, rfl⟩ := Nat.exists_eq_add_of_lt hk
  by_contra hcon
  rw [Nat.zero_add] at hcon
  have h := fmt.large_of_leaf k e (by simpa using hcon)
  exact Bool.false_ne_true (hl.symm.trans h)

/-! ## Trees -/

/-- The tables of the tree below `root`. -/
abbrev PageTables (m : Mem) (root : ℕ) : Set ℕ := Tables swChild m root 3

/-- **Well-formed trees.**  The present entries of the three upper levels that are no
large pages have none of the bad bits, and no table has two paths. -/
structure PageTree (fmt : Format) (m : Mem) (root : ℕ) : Prop where
  entry : ∀ p f i, p.length < 3 → follow swChild m root p = some f → present (m f i) = true →
    fmt.leaf (3 - p.length) (m f i) = false → m f i &&& fmt.bad = 0
  separated : Separated swChild m root 3

/-- Every present entry met on the way along `path` has the property `Q`, which may depend
on the depth. -/
def OnPath (Q : ℕ → U64 → Prop) (m : Mem) (root : ℕ) (path : List (Fin 512)) : Prop :=
  ∀ p i r f, path = p ++ i :: r → follow swChild m root p = some f →
    present (m f i) = true → Q p.length (m f i)

/-- No large page is met on the way along `path`. -/
abbrev PathClear (fmt : Format) : Mem → ℕ → List (Fin 512) → Prop :=
  OnPath fun k e => fmt.leaf (3 - k) e = false

variable {fmt : Format} {m m' : Mem} {root f g : ℕ} {p q path : List (Fin 512)} {i : Fin 512}
  {x flags : U64}

theorem OnPath.mono {Q : ℕ → U64 → Prop} (h : OnPath Q m root path) (hp : p <+: path) :
    OnPath Q m root p := by
  rintro q i r f rfl hf hpres
  obtain ⟨r', rfl⟩ := hp
  exact h q i (r ++ r') f (by simp) hf hpres

theorem not_large_of_bad {e : U64} (h : e &&& fmt.bad = 0) : large e = false :=
  getLsbD_of_and_eq_zero (fmt.tableMask_of_bad e h) (by decide)

/-- Nothing is on a path that starts at an absent entry. -/
theorem onPath_of_absent {Q : ℕ → U64 → Prop} (habs : present (m root i) = false) :
    OnPath Q m root (i :: path) := by
  intro p j r f hpath hf hpres
  rcases p with - | ⟨k, p⟩
  · obtain ⟨rfl, -⟩ := List.cons_eq_cons.mp hpath
    cases hf
    rw [habs] at hpres
    exact absurd hpres Bool.false_ne_true
  · obtain ⟨rfl, -⟩ := List.cons_eq_cons.mp hpath
    rw [follow_cons, swChild_of_absent habs] at hf
    cases hf

/-- No large page lies on a path that leads to a table. -/
theorem pathClear_of_follow (hlen : path.length ≤ 3)
    (hf : follow swChild m root path = some f) : PathClear fmt m root path := by
  rintro p i r g rfl hg _
  rw [follow_append, hg, Option.bind_some, follow_cons] at hf
  obtain ⟨e, he, _⟩ := Option.bind_eq_some_iff.mp hf
  rw [List.length_append, List.length_cons] at hlen
  exact fmt.leaf_of_not_large (by omega) (of_swChild_eq_some he).2.1

namespace PageTree

/-- A present entry that is no large page is a pointer without bad bits. -/
theorem child (h : PageTree fmt m root) (hp : p.length < 3)
    (hf : follow swChild m root p = some f) (hpres : present (m f i) = true)
    (hleaf : fmt.leaf (3 - p.length) (m f i) = false) :
    m f i &&& fmt.bad = 0 ∧ swChild (m f i) = some (frameOf (m f i)) := by
  have hbad := h.entry p f i hp hf hpres hleaf
  exact ⟨hbad, swChild_eq_some hpres (not_large_of_bad hbad)⟩

/-- Where the tree has no large page, the processor sees none. -/
theorem not_leafAt (h : PageTree fmt m root) (hp : p.length < 3)
    (hf : follow swChild m root p = some f)
    (hleaf : present (m f i) = true → fmt.leaf (3 - p.length) (m f i) = false) :
    leafAt (3 - p.length) (m f i) = false := by
  by_cases hpres : present (m f i) = true
  · obtain ⟨k, hk⟩ : ∃ k, 3 - p.length = k + 1 := ⟨2 - p.length, by omega⟩
    rw [hk]
    exact leafAt_succ_of_not_large
      (not_large_of_bad (h.entry p f i hp hf hpres (hleaf hpres))) k
  · exact leafAt_of_absent (by simpa using hpres) _

/-- Every pointer is free of bad bits. -/
theorem entry_of_child (h : PageTree fmt m root) (hp : p.length < 3)
    (hf : follow swChild m root p = some f) (hc : swChild (m f i) = some g) :
    m f i &&& fmt.bad = 0 := by
  obtain ⟨hpres, hlarge, _⟩ := of_swChild_eq_some hc
  exact h.entry p f i hp hf hpres (fmt.leaf_of_not_large (by omega) hlarge)

/-- All tables but the root lie below frame 2^52. -/
theorem lt_of_follow (hroot : root < 2 ^ 52) (hf : follow swChild m root p = some f) :
    f < 2 ^ 52 := by
  induction p using List.reverseRecOn with
  | nil =>
    cases hf
    exact hroot
  | append_singleton p i _ =>
    rw [follow_concat] at hf
    obtain ⟨g, _, hg⟩ := Option.bind_eq_some_iff.mp hf
    obtain ⟨_, _, rfl⟩ := of_swChild_eq_some hg
    exact frameOf_lt _

/-- With pointers below 2^52 the tables lie below frame 2^40. -/
theorem physical_of_follow (h : PageTree fmt m root) (hphys : fmt.Physical) (hroot : root < 2 ^ 40)
    (hp : p.length ≤ 3) (hf : follow swChild m root p = some f) : f < 2 ^ 40 := by
  rcases List.eq_nil_or_concat p with rfl | ⟨q, i, rfl⟩
  · cases hf
    exact hroot
  · rw [List.concat_eq_append, List.length_append, List.length_singleton] at hp
    rw [List.concat_eq_append, follow_concat] at hf
    obtain ⟨g, hg, hc⟩ := Option.bind_eq_some_iff.mp hf
    have hlt := toNat_lt_of_physMask (hphys _ (h.entry_of_child (by omega) hg hc))
    rw [(of_swChild_eq_some hc).2.2, frameOf]
    omega

/-- A tree is a matter of its tables only. -/
theorem congr (h : PageTree fmt m root) (hsame : ∀ f ∈ PageTables m root, ∀ j, m' f j = m f j) :
    PageTree fmt m' root where
  separated := by
    intro p q f hp hq hpf hqf
    rw [follow_congr hsame p (by omega)] at hpf
    rw [follow_congr hsame q (by omega)] at hqf
    exact h.separated p q f hp hq hpf hqf
  entry := by
    intro p f i hp hf hpres hleaf
    rw [follow_congr hsame p (by omega)] at hf
    rw [hsame f (mem_tables hp.le hf)] at hpres hleaf ⊢
    exact h.entry p f i hp hf hpres hleaf

theorem tables_congr (hsame : ∀ f ∈ PageTables m root, ∀ j, m' f j = m f j) :
    PageTables m' root = PageTables m root := by
  ext f
  constructor
  · rintro ⟨p, hp, hf⟩
    exact ⟨p, hp, follow_congr hsame p (by omega) ▸ hf⟩
  · rintro ⟨p, hp, hf⟩
    exact ⟨p, hp, (follow_congr hsame p (by omega)).trans hf⟩

/-- The processor walks the tree the kernel sees. -/
theorem walk_hw (h : PageTree fmt m root) (hphys : fmt.Physical) (hp : p.length + q.length = 4)
    (hf : follow swChild m root p = some f) :
    walk hwChild leafAt m f q = walk swChild leafAt m f q := by
  -- the path walked so far tells at which depth the entry stands
  induction q generalizing p f with
  | nil => rfl
  | cons j q ih =>
    rw [List.length_cons] at hp
    rw [walk_cons, walk_cons]
    cases hleaf : leafAt q.length (m f j) with
    | true => rfl
    | false =>
      rw [if_neg Bool.false_ne_true, if_neg Bool.false_ne_true]
      by_cases hpres : present (m f j) = true
      · have hlen : p.length < 3 := by
          by_contra hge
          have hq : q.length = 0 := by omega
          rw [hq] at hleaf
          exact Bool.false_ne_true (hleaf.symm.trans hpres)
        by_cases hlarge : large (m f j) = true
        · have hhw : hwChild (m f j) = none := by simp [hwChild, hlarge]
          rw [hhw, swChild_of_large hlarge]
          rfl
        · obtain ⟨hbad, hc⟩ := h.child hlen hf hpres
            (fmt.leaf_of_not_large (by omega) (by simpa using hlarge))
          rw [hwChild_eq_swChild (hphys _ hbad), hc, Option.bind_some, Option.bind_some,
            ih (p := p ++ [j]) (by rw [List.length_append, List.length_singleton]; omega)
              (by rw [follow_concat_of_eq hf, hc])]
      · have hnone : present (m f j) = false := by simpa using hpres
        have hhw : hwChild (m f j) = none := by simp [hwChild, hnone]
        rw [hhw, swChild_of_absent hnone]
        rfl

/-- A walk along a path that breaks off at an absent entry finds nothing. -/
theorem walk_none (h : PageTree fmt m root) (hlen : p.length + q.length = 4) (hq : q ≠ [])
    (hclear : PathClear fmt m root p) (hp : follow swChild m root p = none) :
    walk swChild leafAt m root (p ++ q) = none := by
  refine walk_of_follow_none hp fun p₁ i p₂ g hpath hg => ?_
  have hpos := List.length_pos_of_ne_nil hq
  have hlen' := congrArg List.length hpath
  rw [List.length_append, List.length_cons] at hlen'
  have hk : (p₂ ++ q).length = 3 - p₁.length := by
    rw [List.length_append]
    omega
  rw [hk]
  exact h.not_leafAt (by omega) hg (hclear p₁ i p₂ g hpath hg)

theorem pageWalk_eq (h : PageTree fmt m root) (hphys : fmt.Physical) (v : U64) :
    pageWalk m root v = walk swChild leafAt m root (vpath v) :=
  h.walk_hw hphys (p := []) rfl rfl

theorem mapped_eq (h : PageTree fmt m root) (hphys : fmt.Physical) (v : U64) :
    mapped m root v = (walk swChild leafAt m root (vpath v)).bind List.getLast? := by
  rw [mapped, h.pageWalk_eq hphys]

end PageTree

/-! ## The empty tree -/

/-- Below an empty root there is nothing. -/
theorem follow_of_empty (hempty : ∀ i, m root i = 0) (hp : follow swChild m root p = some f) :
    p = [] ∧ f = root := by
  cases p with
  | nil => exact ⟨rfl, (Option.some.inj hp).symm⟩
  | cons i p =>
    rw [follow_cons, hempty i, swChild_zero] at hp
    cases hp

theorem pageTree_of_empty (hempty : ∀ i, m root i = 0) : PageTree fmt m root where
  separated := by
    intro p q f _ _ hp hq
    rw [(follow_of_empty hempty hp).1, (follow_of_empty hempty hq).1]
  entry := by
    intro p f i _ hf hpres
    rw [(follow_of_empty hempty hf).2, hempty i] at hpres
    exact absurd hpres Bool.false_ne_true

theorem eq_root_of_empty (hempty : ∀ i, m root i = 0) (hf : f ∈ PageTables m root) :
    f = root := by
  obtain ⟨p, _, hp⟩ := hf
  exact (follow_of_empty hempty hp).2

/-! ## A new table -/

/-- The flags a pointer may be made with. -/
structure LinkFlags (fmt : Format) (flags : U64) : Prop where
  present : present flags = true
  small : flags.toNat < 512
  good : flags &&& fmt.bad = 0

/-- `m'` is `m` with the empty table `g` behind the absent slot `i` of the table `f` at
path `p`. -/
structure Link (fmt : Format) (flags : U64) (root : ℕ) (m m' : Mem) (p : List (Fin 512))
    (f : ℕ) (i : Fin 512) (g : ℕ) : Prop where
  depth : p.length < 3
  table : follow swChild m root p = some f
  absent : present (m f i) = false
  frame : g < 2 ^ 52
  fresh : g ∉ PageTables m root
  good : frameAddr g &&& fmt.bad = 0
  linkFlags : LinkFlags fmt flags
  entry : m' f i = frameAddr g ||| flags
  empty : ∀ j, m' g j = 0
  off : AgreeOff swChild m m' root 3 f i

/-- An entry made of a frame address and flags points to the frame. -/
theorem link_entry (hg : g < 2 ^ 52) (hgood : frameAddr g &&& fmt.bad = 0)
    (hfl : LinkFlags fmt flags) :
    (frameAddr g ||| flags) &&& fmt.bad = 0 ∧ swChild (frameAddr g ||| flags) = some g := by
  have hbad : (frameAddr g ||| flags) &&& fmt.bad = 0 := by
    rw [BitVec.and_or_distrib_right, hgood, hfl.good]
    rfl
  have hal := aligned_frameAddr hg
  have hsmall : flags.toNat < 4096 := by
    have := hfl.small
    omega
  have hpres : present (frameAddr g ||| flags) = true := by
    rw [present, getLsbD_or_flags hal (by decide)]
    exact hfl.present
  refine ⟨hbad, ?_⟩
  rw [swChild_eq_some hpres (not_large_of_bad hbad), frameOf_or_flags hal hsmall,
    frameOf_frameAddr hg]

namespace Link

theorem child_new (hl : Link fmt flags root m m' p f i g) : swChild (m' f i) = some g := by
  rw [hl.entry]
  exact (link_entry hl.frame hl.good hl.linkFlags).2

theorem child_empty (hl : Link fmt flags root m m' p f i g) (j : Fin 512) :
    swChild (m' g j) = none := by
  rw [hl.empty j]
  exact swChild_zero

theorem follow_eq (h : PageTree fmt m root) (hl : Link fmt flags root m m' p f i g)
    (hq : q.length ≤ 4) :
    follow swChild m' root q = if q = p ++ [i] then some g else follow swChild m root q :=
  follow_link h.separated hl.table hl.depth.le hl.off (swChild_of_absent hl.absent)
    hl.child_new hl.child_empty hq

/-- Paths stay where they are. -/
theorem follow_mono (h : PageTree fmt m root) (hl : Link fmt flags root m m' p f i g)
    (hq : q.length ≤ 4) {e : ℕ} (he : follow swChild m root q = some e) :
    follow swChild m' root q = some e := by
  rw [hl.follow_eq h hq, if_neg, he]
  rintro rfl
  rw [follow_concat_of_eq hl.table, swChild_of_absent hl.absent] at he
  cases he

/-- Entries that were present stay as they are. -/
theorem entry_mono (hl : Link fmt flags root m m' p f i g) {e : ℕ} {j : Fin 512}
    (he : e ∈ PageTables m root) (hpres : present (m e j) = true) : m' e j = m e j := by
  refine hl.off e he j ?_
  by_contra hcon
  push Not at hcon
  obtain ⟨rfl, rfl⟩ := hcon
  rw [hl.absent] at hpres
  exact Bool.false_ne_true hpres

/-- The pointers of the tree are still there, -/
theorem pointer_mono (h : PageTree fmt m root) (hl : Link fmt flags root m m' p f i g)
    (hq : q.length < 3) {e g' : ℕ} {j : Fin 512} (he : follow swChild m root q = some e)
    (hc : swChild (m e j) = some g') :
    follow swChild m' root q = some e ∧ swChild (m' e j) = some g' := by
  have hpres := (of_swChild_eq_some hc).1
  refine ⟨hl.follow_mono h (by omega) he, ?_⟩
  rw [hl.entry_mono (mem_tables hq.le he) hpres, hc]

/-- with the new one -/
theorem pointer_new (h : PageTree fmt m root) (hl : Link fmt flags root m m' p f i g) :
    follow swChild m' root p = some f ∧ swChild (m' f i) = some g := by
  have hdepth := hl.depth
  exact ⟨hl.follow_mono h (by omega) hl.table, hl.child_new⟩

/-- and no others. -/
theorem pointer_cases (h : PageTree fmt m root) (hl : Link fmt flags root m m' p f i g)
    (hq : q.length < 3) {e g' : ℕ} {j : Fin 512} (he : follow swChild m' root q = some e)
    (hc : swChild (m' e j) = some g') : (e = f ∧ j = i ∧ g' = g) ∨
      (follow swChild m root q = some e ∧ swChild (m e j) = some g') := by
  rw [hl.follow_eq h (by omega)] at he
  split_ifs at he with hqp
  · cases he
    rw [hl.child_empty] at hc
    cases hc
  · by_cases hslot : e = f ∧ j = i
    · obtain ⟨rfl, rfl⟩ := hslot
      rw [hl.child_new] at hc
      cases hc
      exact Or.inl ⟨rfl, rfl, rfl⟩
    · rw [hl.off e (mem_tables hq.le he) j (not_and_or.mp hslot)] at hc
      exact Or.inr ⟨he, hc⟩

theorem pageTree (h : PageTree fmt m root) (hl : Link fmt flags root m m' p f i g) :
    PageTree fmt m' root where
  separated := separated_link h.separated hl.table hl.depth hl.off
    (swChild_of_absent hl.absent) hl.child_new hl.fresh hl.child_empty
  entry := by
    intro q e j hq he hpres hleaf
    rw [hl.follow_eq h (by omega)] at he
    -- the new table is empty, the slot holds the new pointer, and the rest is as before
    split_ifs at he with hqp
    · cases he
      rw [hl.empty j] at hpres
      exact absurd hpres Bool.false_ne_true
    · have hmem : e ∈ PageTables m root := mem_tables hq.le he
      by_cases hslot : e = f ∧ j = i
      · obtain ⟨rfl, rfl⟩ := hslot
        rw [hl.entry]
        exact (link_entry hl.frame hl.good hl.linkFlags).1
      · have hsame : m' e j = m e j := hl.off e hmem j (not_and_or.mp hslot)
        rw [hsame] at hpres hleaf ⊢
        exact h.entry q e j hq he hpres hleaf

/-- The processor sees no difference. -/
theorem walk_eq (h : PageTree fmt m root) (hl : Link fmt flags root m m' p f i g)
    (hq : q.length = 4) :
    walk swChild leafAt m' root q = walk swChild leafAt m root q := by
  refine walk_link swChild_exclusive h.separated hl.table hl.depth hl.off
    (swChild_of_absent hl.absent) (leafAt_of_absent hl.absent) hl.child_new hl.child_empty
    (fun k j => ?_) hq
  rw [hl.empty j]
  exact leafAt_of_absent present_zero k

/-- The root and the new table are the only tables that were not there before. -/
theorem tables_subset (h : PageTree fmt m root) (hl : Link fmt flags root m m' p f i g) {e : ℕ}
    (he : e ∈ PageTables m' root) : e = g ∨ e ∈ PageTables m root := by
  obtain ⟨q, hq, he⟩ := he
  rw [hl.follow_eq h (by omega)] at he
  split_ifs at he with hqp
  · exact Or.inl (Option.some.inj he).symm
  · exact Or.inr ⟨q, hq, he⟩

/-- What the entries on a path have in common they keep, if the new entry has it too. -/
theorem onPath {Q : ℕ → U64 → Prop} (h : PageTree fmt m root)
    (hl : Link fmt flags root m m' p f i g) (hlen : path.length ≤ 3)
    (hnew : ∀ k < 3, Q k (frameAddr g ||| flags)) (hc : OnPath Q m root path) :
    OnPath Q m' root path := by
  intro q j r e hpath he hpres
  have hqlen : q.length < 3 := by
    rw [hpath, List.length_append, List.length_cons] at hlen
    omega
  rw [hl.follow_eq h (by omega)] at he
  split_ifs at he with hqp
  · cases he
    rw [hl.empty j] at hpres
    exact absurd hpres Bool.false_ne_true
  · by_cases hslot : e = f ∧ j = i
    · obtain ⟨rfl, rfl⟩ := hslot
      rw [hl.entry]
      exact hnew _ hqlen
    · have hsame : m' e j = m e j := hl.off e (mem_tables hqlen.le he) j (not_and_or.mp hslot)
      rw [hsame] at hpres ⊢
      exact hc q j r e hpath he hpres

/-- A new pointer is no large page. -/
theorem not_leaf (hl : Link fmt flags root m m' p f i g) {k : ℕ} (hk : k < 3) :
    fmt.leaf (3 - k) (frameAddr g ||| flags) = false :=
  fmt.leaf_of_not_large (by omega)
    (not_large_of_bad (link_entry hl.frame hl.good hl.linkFlags).1)

end Link

/-! ## An entry overwritten -/

/-- `m'` is `m` with slot `i` of the table at path `p` set to `x`. -/
structure Stored (root : ℕ) (m m' : Mem) (p : List (Fin 512)) (f : ℕ) (i : Fin 512) (x : U64) :
    Prop where
  depth : p.length ≤ 3
  table : follow swChild m root p = some f
  entry : m' f i = x
  off : AgreeOff swChild m m' root 3 f i

/-- What may be stored in a table at depth `k` above the last level: no pointers, and
nothing present but a large page. -/
def Storable (fmt : Format) (k : ℕ) (x : U64) : Prop :=
  k < 3 → swChild x = none ∧ (present x = true → fmt.leaf (3 - k) x = true)

/-- A size-aligned large page may be stored above the last level. -/
theorem storable_large {physical : U64} {k : ℕ} (hfmt : fmt.leaf = leafAt) (hk : k = 1 ∨ k = 2)
    (hp : physical.toNat % 2 ^ (12 + 9 * k) = 0) (hpres : present flags = true)
    (hsmall : flags.toNat < 4096) :
    Storable fmt (3 - k) (physical ||| flags ||| ptePagesize) := by
  obtain ⟨hleaf, hlarge⟩ := large_page hk hp hpres hsmall
  intro _
  have h3 : 3 - (3 - k) = k := by omega
  rw [h3, hfmt]
  exact ⟨swChild_of_large hlarge, fun _ => hleaf⟩

namespace Stored

theorem follow_iff (h : PageTree fmt m root) (hs : Stored root m m' p f i x)
    (hx : Storable fmt p.length x) (hq : q.length ≤ 3) {e : ℕ} :
    follow swChild m' root q = some e ↔
      ¬ (p ++ [i]) <+: q ∧ follow swChild m root q = some e := by
  by_cases hp : p.length < 3
  · refine follow_cut h.separated hs.table hs.depth hs.off ?_ (by omega)
    rw [hs.entry]
    exact (hx hp).1
  · have hne : ¬ (p ++ [i]) <+: q := by
      intro hpre
      have := hpre.length_le
      rw [List.length_append, List.length_singleton] at this
      omega
    rw [follow_off h.separated hs.table hs.depth hs.off q (by omega) hne]
    simp [hne]

theorem table_after (h : PageTree fmt m root) (hs : Stored root m m' p f i x) :
    follow swChild m' root p = some f :=
  follow_self_off h.separated hs.table hs.depth hs.off

theorem pageTree (h : PageTree fmt m root) (hs : Stored root m m' p f i x)
    (hx : Storable fmt p.length x) : PageTree fmt m' root where
  separated := by
    intro q r e hq hr hqe hre
    have hqe' := (hs.follow_iff h hx hq).mp hqe
    have hre' := (hs.follow_iff h hx hr).mp hre
    exact h.separated q r e hq hr hqe'.2 hre'.2
  entry := by
    intro q e j hq he hpres hleaf
    obtain ⟨_, he⟩ := (hs.follow_iff h hx hq.le).mp he
    -- what was stored above the last level is a large page or nothing
    by_cases hslot : e = f ∧ j = i
    · obtain ⟨rfl, rfl⟩ := hslot
      have hqp : q = p := h.separated q p e hq.le hs.depth he hs.table
      subst hqp
      rw [hs.entry] at hpres hleaf
      rw [(hx hq).2 hpres] at hleaf
      exact absurd hleaf.symm Bool.false_ne_true
    · have hsame : m' e j = m e j := hs.off e (mem_tables hq.le he) j (not_and_or.mp hslot)
      rw [hsame] at hpres hleaf ⊢
      exact h.entry q e j hq he hpres hleaf

/-- Entries on the way to the table stay as they are. -/
theorem onPath {Q : ℕ → U64 → Prop} (h : PageTree fmt m root)
    (hs : Stored root m m' p f i x) (hc : OnPath Q m root p) : OnPath Q m' root p := by
  intro q j r e hpath he hpres
  have hlen := congrArg List.length hpath
  rw [List.length_append, List.length_cons] at hlen
  have hdepth := hs.depth
  have hne : ¬ (p ++ [i]) <+: q := by
    intro hpre
    have := hpre.length_le
    rw [List.length_append, List.length_singleton] at this
    omega
  rw [follow_off h.separated hs.table hs.depth hs.off q (by omega) hne] at he
  have hef : e ≠ f := by
    rintro rfl
    have hqp := h.separated q p e (by omega) hs.depth he hs.table
    rw [← hqp] at hlen
    omega
  have hsame : m' e j = m e j := hs.off e (mem_tables (by omega) he) j (Or.inl hef)
  rw [hsame] at hpres ⊢
  exact hc q j r e hpath he hpres

/-- No table appears. -/
theorem tables_subset (h : PageTree fmt m root) (hs : Stored root m m' p f i x)
    (hx : Storable fmt p.length x) {e : ℕ} (he : e ∈ PageTables m' root) :
    e ∈ PageTables m root := by
  obtain ⟨q, hq, he⟩ := he
  exact ⟨q, hq, ((hs.follow_iff h hx hq).mp he).2⟩

/-- Walks that do not pass the slot are the same. -/
theorem walk_off (h : PageTree fmt m root) (hs : Stored root m m' p f i x)
    (hq : q.length = 4) (hne : ¬ (p ++ [i]) <+: q) :
    walk swChild leafAt m' root q = walk swChild leafAt m root q :=
  RadixTree.walk_off h.separated hs.table hs.depth hs.off hq.le hne

/-- A walk through a slot that holds a leaf ends there. -/
theorem walk_leaf (h : PageTree fmt m root) (hs : Stored root m m' p f i x)
    {r : List (Fin 512)} (hx : leafAt r.length x = true) :
    walk swChild leafAt m' root (p ++ i :: r) = some (entries swChild m' root p ++ [x]) := by
  rw [walk_through swChild_exclusive (hs.table_after h), walk_cons, hs.entry, hx, if_pos rfl]
  rfl

/-- A walk through a slot that holds nothing finds nothing. -/
theorem walk_absent (h : PageTree fmt m root) (hs : Stored root m m' p f i x)
    {r : List (Fin 512)} (hx : present x = false) :
    walk swChild leafAt m' root (p ++ i :: r) = none := by
  rw [walk_through swChild_exclusive (hs.table_after h), RadixTree.walk_absent]
  · rfl
  · rw [hs.entry, leafAt_of_absent hx]
  · rw [hs.entry, swChild_of_absent hx]

end Stored

end Vmm
