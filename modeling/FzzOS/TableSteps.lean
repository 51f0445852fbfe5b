/-
# The table code one entry at a time

Walking down to a table does two kinds of things: it follows a pointer that is there, or
it makes a new table and a pointer to it.  `TableStep` says once what each of them does;
every invariant of the table code is proved about it.

* `vmmGetPagemap_step` : one call of `vmm_get_pagemap`;
* `descend_spec`, `mapAt_spec` : the map functions are steps followed by one store;
* `unmapFrom_spec` : the unmap function follows pointers and clears at most one entry;
* `TableSteps.walk_eq` : the steps change no walk of the processor.
-/
import FzzOS.VmmMap

open RadixTree Relation

namespace Vmm

variable {α : Type} {fmt : Format} {alloc : Allocator α} {flags x : U64}
  {root f g : ℕ} {p q path : List (Fin 512)} {i : Fin 512} {s s' s₁ : Machine α}

/-! ## Steps -/

/-- The allocator returns a frame outside the tree and leaves the tables alone. -/
structure FreshPage (fmt : Format) (alloc : Allocator α) (root : ℕ) (s : Machine α) :
    Prop where
  ne_zero : (alloc s.mem s.pmm).1 ≠ 0
  aligned : Aligned (alloc s.mem s.pmm).1
  good : (alloc s.mem s.pmm).1 &&& fmt.bad = 0
  fresh : frameOf (alloc s.mem s.pmm).1 ∉ PageTables s.mem root
  tables : ∀ f ∈ PageTables s.mem root, ∀ j, (alloc s.mem s.pmm).2.1 f j = s.mem f j

/-- A new table behind slot `i` of the table `f` at path `p`. -/
structure LinkStep (fmt : Format) (alloc : Allocator α) (flags : U64) (root : ℕ)
    (s s' : Machine α) (p : List (Fin 512)) (f : ℕ) (i : Fin 512) (g : ℕ) : Prop where
  link : Link fmt flags root s.mem s'.mem p f i g
  fresh : FreshPage fmt alloc root s
  page : (alloc s.mem s.pmm).1 = frameAddr g
  pmm : s'.pmm = (alloc s.mem s.pmm).2.2
  log : s'.log = .visit (slotAddr f i) (frameAddr g) :: .store (slotAddr f i) ::
    .link (slotAddr f i) (frameAddr g) :: s.log
  mem : ∀ e j, e ≠ g → (e ≠ f ∨ j ≠ i) → s'.mem e j = (alloc s.mem s.pmm).2.1 e j

/-- What a walk down to a table can do. -/
inductive TableStep (fmt : Format) (alloc : Allocator α) (flags : U64) (root : ℕ) :
    Machine α → Machine α → Prop
  | visit {s : Machine α} {p : List (Fin 512)} {f : ℕ} {i : Fin 512} {g : ℕ}
      (hp : p.length < 3) (hf : follow swChild s.mem root p = some f)
      (hc : swChild (s.mem f i) = some g) :
      TableStep fmt alloc flags root s (s.note (.visit (slotAddr f i) (frameAddr g)))
  | link {s s' : Machine α} {p : List (Fin 512)} {f : ℕ} {i : Fin 512} {g : ℕ}
      (hl : LinkStep fmt alloc flags root s s' p f i g) :
      TableStep fmt alloc flags root s s'

/-- Any number of steps. -/
abbrev TableSteps (fmt : Format) (alloc : Allocator α) (flags : U64) (root : ℕ) :
    Machine α → Machine α → Prop :=
  ReflTransGen (TableStep fmt alloc flags root)

theorem TableStep.pageTree (h : PageTree fmt s.mem root)
    (hs : TableStep fmt alloc flags root s s') : PageTree fmt s'.mem root := by
  cases hs with
  | visit => exact h
  | link hl => exact hl.link.pageTree h

/-- An induction over the steps of a well-formed tree. -/
theorem TableSteps.induct {P : Machine α → Prop} (h : PageTree fmt s.mem root) (h₀ : P s)
    (hstep : ∀ s₁ s₂, PageTree fmt s₁.mem root → P s₁ →
      TableStep fmt alloc flags root s₁ s₂ → P s₂)
    (hs : TableSteps fmt alloc flags root s s') : PageTree fmt s'.mem root ∧ P s' := by
  induction hs with
  | refl => exact ⟨h, h₀⟩
  | tail _ hlast ih => exact ⟨hlast.pageTree ih.1, hstep _ _ ih.1 ih.2 hlast⟩

theorem TableSteps.pageTree (h : PageTree fmt s.mem root)
    (hs : TableSteps fmt alloc flags root s s') : PageTree fmt s'.mem root :=
  (TableSteps.induct (P := fun _ => True) h trivial (fun _ _ _ _ _ => trivial) hs).1

/-- What the entries on a path have in common they keep, if entries made with these flags
have it too. -/
theorem TableSteps.onPath {Q : ℕ → U64 → Prop} (h : PageTree fmt s.mem root)
    (hs : TableSteps fmt alloc flags root s s') (hlen : path.length ≤ 3)
    (hnew : ∀ g k, k < 3 → Q k (frameAddr g ||| flags)) (hc : OnPath Q s.mem root path) :
    OnPath Q s'.mem root path := by
  refine (TableSteps.induct (P := fun t => OnPath Q t.mem root path) h hc ?_ hs).2
  intro s₁ s₂ h₁ hc₁ hstep
  cases hstep with
  | visit => exact hc₁
  | link hl => exact hl.link.onPath h₁ hlen (hnew _) hc₁

/-- A path without large pages stays so in a step. -/
theorem TableStep.pathClear (h : PageTree fmt s.mem root)
    (hs : TableStep fmt alloc flags root s s') (hlen : path.length ≤ 3)
    (hc : PathClear fmt s.mem root path) : PathClear fmt s'.mem root path := by
  cases hs with
  | visit => exact hc
  | link hl => exact hl.link.onPath h hlen (fun _ hk => hl.link.not_leaf hk) hc

/-- **The processor sees nothing of the steps.** -/
theorem TableSteps.walk_eq (h : PageTree fmt s.mem root)
    (hs : TableSteps fmt alloc flags root s s') (hq : q.length = 4) :
    walk swChild leafAt s'.mem root q = walk swChild leafAt s.mem root q := by
  refine (TableSteps.induct (P := fun t => walk swChild leafAt t.mem root q
    = walk swChild leafAt s.mem root q) h rfl ?_ hs).2
  intro s₁ s₂ h₁ hw hstep
  cases hstep with
  | visit => exact hw
  | link hl => rw [hl.link.walk_eq h₁ hq, hw]

/-! ## One call of `vmm_get_pagemap` -/

/-- A new table is made of a fresh page. -/
theorem vmmCreatePageTable_of_fresh (hfresh : FreshPage fmt alloc root s) :
    vmmCreatePageTable alloc s = ((alloc s.mem s.pmm).1,
      { s with
        mem := (alloc s.mem s.pmm).2.1.zeroPage (alloc s.mem s.pmm).1
        pmm := (alloc s.mem s.pmm).2.2 }) := by
  simp only [vmmCreatePageTable, if_neg hfresh.ne_zero]

/-- The machine with a new table `g` behind slot `i` of `f`. -/
def linked (alloc : Allocator α) (flags : U64) (f : ℕ) (i : Fin 512) (g : ℕ) (s : Machine α) :
    Machine α :=
  Machine.setEntry
    (Machine.note
      { s with
        mem := (alloc s.mem s.pmm).2.1.zeroPage (frameAddr g)
        pmm := (alloc s.mem s.pmm).2.2 }
      (.link (slotAddr f i) (frameAddr g)))
    (frameAddr f) (ofIndex i) (frameAddr g ||| flags)

theorem linked_mem (hf : f < 2 ^ 52) (hg : g < 2 ^ 52) (e : ℕ) (j : Fin 512) :
    (linked alloc flags f i g s).mem e j
      = if e = f ∧ j = i then frameAddr g ||| flags
        else if e = g then 0 else (alloc s.mem s.pmm).2.1 e j := by
  rw [linked, Machine.setEntry_mem _ hf]
  simp only [Machine.note_mem, Mem.zeroPage_apply (aligned_frameAddr hg), frameOf_frameAddr hg]

/-- `vmm_get_pagemap` on an absent entry. -/
theorem vmmGetPagemap_of_absent (hf : f < 2 ^ 52) (hg : g < 2 ^ 52)
    (habs : present (s.mem f i) = false) (hfresh : FreshPage fmt alloc root s)
    (hfl : LinkFlags fmt flags) (hpage : (alloc s.mem s.pmm).1 = frameAddr g) :
    vmmGetPagemap alloc (frameAddr f) (ofIndex i) flags s
      = (frameAddr g,
          (linked alloc flags f i g s).note (.visit (slotAddr f i) (frameAddr g))) := by
  have htest : ¬ s.entry (frameAddr f) (ofIndex i) &&& 1 ≠ 0 := by
    rw [and_one_ne_zero_iff, s.entry_frameAddr hf, habs]
    exact Bool.false_ne_true
  have hbad := (link_entry hg (hpage ▸ hfresh.good) hfl).1
  have hsmall := hfl.small
  -- the entry is read back and its flags are taken away
  have hnext : (linked alloc flags f i g s).entry (frameAddr f) (ofIndex i) &&& ~~~0x1ff
      = frameAddr g := by
    rw [Machine.entry_frameAddr _ hf, linked_mem hf hg, if_pos ⟨rfl, rfl⟩]
    have hand := and_not_1ff_eq (fmt.tableMask_of_bad _ hbad)
    rw [frameOf_or_flags (aligned_frameAddr hg) (by omega), frameOf_frameAddr hg] at hand
    exact hand
  simp only [vmmGetPagemap, if_neg htest, vmmCreatePageTable_of_fresh hfresh, hpage]
  exact congrArg (fun a => (a, (linked alloc flags f i g s).note (.visit (slotAddr f i) a))) hnext

/-- An absent entry gets a new table. -/
theorem vmmGetPagemap_link (hroot : root < 2 ^ 52) (hp : p.length < 3)
    (hf : follow swChild s.mem root p = some f) (habs : present (s.mem f i) = false)
    (hfresh : FreshPage fmt alloc root s) (hfl : LinkFlags fmt flags) :
    ∃ g s', vmmGetPagemap alloc (frameAddr f) (ofIndex i) flags s = (frameAddr g, s') ∧
      LinkStep fmt alloc flags root s s' p f i g := by
  have hf52 := PageTree.lt_of_follow hroot hf
  have hfmem : f ∈ PageTables s.mem root := mem_tables hp.le hf
  obtain ⟨g, hg52, hg⟩ : ∃ g < 2 ^ 52, (alloc s.mem s.pmm).1 = frameAddr g :=
    ⟨_, frameOf_lt _, (frameAddr_frameOf hfresh.aligned).symm⟩
  have hnew : g ∉ PageTables s.mem root := by
    have := hfresh.fresh
    rwa [hg, frameOf_frameAddr hg52] at this
  have hne : ∀ e ∈ PageTables s.mem root, e ≠ g := fun e he heq => hnew (heq ▸ he)
  have hmem : ∀ e j, (linked alloc flags f i g s).mem e j = if e = f ∧ j = i then _ else _ :=
    linked_mem hf52 hg52
  refine ⟨g, _, vmmGetPagemap_of_absent hf52 hg52 habs hfresh hfl hg,
    { link :=
      { depth := hp, table := hf, absent := habs, frame := hg52, fresh := hnew
        good := hg ▸ hfresh.good, linkFlags := hfl, entry := ?_, empty := ?_, off := ?_ }
      fresh := hfresh
      page := hg
      pmm := rfl
      log := rfl
      mem := ?_ }⟩
  · rw [Machine.note_mem, hmem, if_pos ⟨rfl, rfl⟩]
  · intro j
    rw [Machine.note_mem, hmem, if_neg (fun hc => hne f hfmem hc.1.symm), if_pos rfl]
  · intro e he j hslot
    rw [Machine.note_mem, hmem, if_neg (by tauto), if_neg (hne e he), hfresh.tables e he j]
  · intro e j heg hslot
    rw [Machine.note_mem, hmem, if_neg (by tauto), if_neg heg]

/-- A pointer is followed. -/
theorem vmmGetPagemap_visit (h : PageTree fmt s.mem root) (hroot : root < 2 ^ 52)
    (hp : p.length < 3) (hf : follow swChild s.mem root p = some f)
    (hc : swChild (s.mem f i) = some g) :
    vmmGetPagemap alloc (frameAddr f) (ofIndex i) flags s
      = (frameAddr g, s.note (.visit (slotAddr f i) (frameAddr g))) := by
  have hf52 := PageTree.lt_of_follow hroot hf
  obtain ⟨hpres, _, rfl⟩ := of_swChild_eq_some hc
  have hbad := fmt.tableMask_of_bad _ (h.entry_of_child hp hf hc)
  have htest : s.entry (frameAddr f) (ofIndex i) &&& 1 ≠ 0 := by
    rw [and_one_ne_zero_iff, s.entry_frameAddr hf52, hpres]
  simp only [vmmGetPagemap, if_pos htest]
  rw [s.entry_frameAddr hf52]
  have hnext := and_not_1ff_eq hbad
  exact congrArg (fun a => (a, s.note (.visit (slotAddr f i) a))) hnext

/-! ## The walk down -/

/-- `P` holds in every state in which the walk down `path` calls the allocator. -/
def AllocsOn (P : Machine α → Prop) (alloc : Allocator α) (flags : U64) :
    U64 → List (Fin 512) → Machine α → Prop
  | _, [], _ => True
  | table, i :: path, s =>
    (present (s.entry table (ofIndex i)) = false → P s) ∧
    AllocsOn P alloc flags (vmmGetPagemap alloc table (ofIndex i) flags s).1 path
      (vmmGetPagemap alloc table (ofIndex i) flags s).2

theorem AllocsOn.mono {P Q : Machine α → Prop} (hPQ : ∀ s, P s → Q s) {table : U64}
    (h : AllocsOn P alloc flags table path s) : AllocsOn Q alloc flags table path s := by
  induction path generalizing table s with
  | nil => trivial
  | cons i path ih => exact ⟨fun habs => hPQ s (h.1 habs), ih h.2⟩

/-- Everything a walk needs of its allocations. -/
abbrev Supplied (fmt : Format) (alloc : Allocator α) (flags : U64) (root : ℕ) :=
  AllocsOn (fun s => FreshPage fmt alloc root s ∧ LinkFlags fmt flags) alloc flags

theorem AllocsOn.trivial (table : U64) (path : List (Fin 512)) (s : Machine α) :
    AllocsOn (fun _ => True) alloc flags table path s := by
  induction path generalizing table s with
  | nil => exact True.intro
  | cons i path ih => exact ⟨fun _ => True.intro, ih _ _⟩

/-- **One index further.**  A call of `vmm_get_pagemap` on the way down is one step, and comes to
the table at the next index. -/
theorem vmmGetPagemap_step (h : PageTree fmt s.mem root) (hroot : root < 2 ^ 52)
    (hf : follow swChild s.mem root p = some f) (hlen : p.length + (i :: path).length ≤ 3)
    (hclear : PathClear fmt s.mem root (p ++ i :: path))
    (hfirst : present (s.mem f i) = false → FreshPage fmt alloc root s ∧ LinkFlags fmt flags) :
    ∃ g s', vmmGetPagemap alloc (frameAddr f) (ofIndex i) flags s = (frameAddr g, s') ∧
      TableStep fmt alloc flags root s s' ∧ follow swChild s'.mem root (p ++ [i]) = some g ∧
      (p ++ [i]).length + path.length ≤ 3 ∧ PathClear fmt s'.mem root ((p ++ [i]) ++ path) := by
  rw [List.length_cons] at hlen
  have hp : p.length < 3 := by omega
  have hnext : (p ++ [i]).length + path.length ≤ 3 := by
    rw [List.length_append, List.length_singleton]
    omega
  rw [List.append_cons] at hclear
  have hstays : ∀ {s' : Machine α}, TableStep fmt alloc flags root s s' →
      PathClear fmt s'.mem root ((p ++ [i]) ++ path) := fun hstep =>
    hstep.pathClear h (by rwa [List.length_append]) hclear
  by_cases hpres : present (s.mem f i) = true
  · have hleaf := hclear p i path f (List.append_cons ..).symm hf hpres
    obtain ⟨_, hc⟩ := h.child hp hf hpres hleaf
    refine ⟨_, _, vmmGetPagemap_visit h hroot hp hf hc, .visit hp hf hc, ?_, hnext,
      hstays (.visit hp hf hc)⟩
    rw [Machine.note_mem, follow_concat_of_eq hf, hc]
  · obtain ⟨hfresh, hflags⟩ := hfirst (Bool.eq_false_of_not_eq_true hpres)
    obtain ⟨g, s', heq, hl⟩ :=
      vmmGetPagemap_link hroot hp hf (Bool.eq_false_of_not_eq_true hpres) hfresh hflags
    refine ⟨g, s', heq, .link hl, ?_, hnext, hstays (.link hl)⟩
    rw [hl.link.follow_eq h (by omega), if_pos rfl]

/-- **Supplies from an invariant.**  If the invariant makes allocations that satisfy `P`
fresh, and survives every step, it is enough to know `P` of the allocations.  The number
counts the calls still to come. -/
theorem supplied_of_invariant {J : ℕ → Machine α → Prop} {P : Machine α → Prop}
    (hstep : ∀ n s s', PageTree fmt s.mem root → J (n + 1) s →
      TableStep fmt alloc flags root s s' → J n s')
    (hfresh : ∀ n s, PageTree fmt s.mem root → J (n + 1) s → P s →
      FreshPage fmt alloc root s ∧ LinkFlags fmt flags)
    (h : PageTree fmt s.mem root) (hroot : root < 2 ^ 52)
    (hf : follow swChild s.mem root p = some f) (hlen : p.length + path.length ≤ 3)
    (hclear : PathClear fmt s.mem root (p ++ path))
    (hall : AllocsOn P alloc flags (frameAddr f) path s) (hJ : J path.length s) :
    Supplied fmt alloc flags root (frameAddr f) path s := by
  -- along the path, with one call less to come at each index
  induction path generalizing p f s with
  | nil => exact True.intro
  | cons i path ih =>
    obtain ⟨hfirst, hrest⟩ := hall
    rw [s.entry_frameAddr (PageTree.lt_of_follow hroot hf)] at hfirst
    have hsupply : present (s.mem f i) = false → FreshPage fmt alloc root s ∧ LinkFlags fmt flags :=
      fun habs => hfresh _ s h hJ (hfirst habs)
    obtain ⟨g, s', heq, htable, hg, hlen', hclear'⟩ :=
      vmmGetPagemap_step h hroot hf hlen hclear hsupply
    refine ⟨fun habs => hsupply ?_, ?_⟩
    · rwa [s.entry_frameAddr (PageTree.lt_of_follow hroot hf)] at habs
    · rw [heq] at hrest ⊢
      exact ih (htable.pageTree h) hg hlen' hclear' hrest (hstep _ s s' h hJ htable)

/-- Along a path that is there nothing is allocated, and one index further only in a state
with the same memory and allocator. -/
theorem allocsOn_of_follow {P : Machine α → Prop} {rest : List (Fin 512)}
    (h : PageTree fmt s.mem root) (hroot : root < 2 ^ 52)
    (hf : follow swChild s.mem root p = some f) (hlen : p.length + path.length ≤ 3)
    (hg : follow swChild s.mem root (p ++ path) = some g)
    (hrest : rest = [] ∨ ∃ i, rest = [i] ∧
      ∀ s' : Machine α, s'.mem = s.mem → s'.pmm = s.pmm → P s') :
    AllocsOn P alloc flags (frameAddr f) (path ++ rest) s := by
  induction path generalizing p f s with
  | nil =>
    rcases hrest with rfl | ⟨i, rfl, hP⟩
    · exact True.intro
    · exact ⟨fun _ => hP s rfl rfl, True.intro⟩
  | cons i path ih =>
    rw [List.length_cons] at hlen
    have hp : p.length < 3 := by omega
    have happ : p ++ i :: path = (p ++ [i]) ++ path := by simp
    rw [happ] at hg
    obtain ⟨e, he, _⟩ := exists_follow_of_append hg
    have hc : swChild (s.mem f i) = some e := by
      rw [← follow_concat_of_eq hf]
      exact he
    have hpres := (of_swChild_eq_some hc).1
    refine ⟨fun habs => ?_, ?_⟩
    · rw [s.entry_frameAddr (PageTree.lt_of_follow hroot hf), hpres] at habs
      exact absurd habs.symm Bool.false_ne_true
    · rw [vmmGetPagemap_visit h hroot hp hf hc]
      refine ih h he ?_ hg hrest
      rw [List.length_append, List.length_singleton]
      omega

/-- **The walk down.**  From the table at path `p` it reaches the table at `p ++ path`. -/
theorem descend_spec (h : PageTree fmt s.mem root) (hroot : root < 2 ^ 52)
    (hf : follow swChild s.mem root p = some f) (hlen : p.length + path.length ≤ 3)
    (hclear : PathClear fmt s.mem root (p ++ path))
    (hall : Supplied fmt alloc flags root (frameAddr f) path s) :
    TableSteps fmt alloc flags root s (descend alloc flags (frameAddr f) path s).2 ∧
    ∃ g, (descend alloc flags (frameAddr f) path s).1 = frameAddr g ∧
      follow swChild (descend alloc flags (frameAddr f) path s).2.mem root (p ++ path)
        = some g := by
  induction path generalizing p f s with
  | nil =>
    rw [List.append_nil]
    exact ⟨.refl, f, rfl, hf⟩
  | cons i path ih =>
    obtain ⟨hfirst, hrest⟩ := hall
    rw [s.entry_frameAddr (PageTree.lt_of_follow hroot hf)] at hfirst
    obtain ⟨g, s', heq, hstep, hg, hlen', hclear'⟩ :=
      vmmGetPagemap_step h hroot hf hlen hclear hfirst
    rw [heq] at hrest
    obtain ⟨hsteps, e, he, hfe⟩ := ih (hstep.pageTree h) hg hlen' hclear' hrest
    have hd : descend alloc flags (frameAddr f) (i :: path) s
        = descend alloc flags (frameAddr g) path s' := by
      simp only [descend, heq]
    rw [hd, List.append_cons]
    exact ⟨.head hstep hsteps, e, he, hfe⟩

/-- **The map functions**: steps down to the table at `path`, then one store there. -/
theorem mapAt_spec (h : PageTree fmt s.mem root) (hroot : root < 2 ^ 52)
    (hlen : path.length ≤ 3) (hclear : PathClear fmt s.mem root path)
    (hall : Supplied fmt alloc flags root (frameAddr root) path s) :
    ∃ s₁ f, TableSteps fmt alloc flags root s s₁ ∧ f < 2 ^ 52 ∧
      follow swChild s₁.mem root path = some f ∧
      mapAt alloc flags (frameAddr root) path i x s = s₁.setEntry (frameAddr f) (ofIndex i) x := by
  obtain ⟨hsteps, f, hf, hfollow⟩ :=
    descend_spec h hroot (p := []) rfl (by simpa using hlen) hclear hall
  refine ⟨_, f, hsteps, PageTree.lt_of_follow hroot hfollow, hfollow, ?_⟩
  rw [mapAt, hf]

/-- A store through `setEntry`. -/
theorem stored_setEntry (hf52 : f < 2 ^ 52) (hp : p.length ≤ 3)
    (hf : follow swChild s.mem root p = some f) :
    Stored root s.mem (s.setEntry (frameAddr f) (ofIndex i) x).mem p f i x where
  depth := hp
  table := hf
  entry := by rw [s.setEntry_mem hf52, if_pos ⟨rfl, rfl⟩]
  off := by
    intro e _ j hslot
    rw [s.setEntry_mem hf52, if_neg (by tauto)]

/-! ## An allocator that counts -/

/-- Hands out the frames from a number on, up to the 52-bit limit. -/
def countUp : Allocator ℕ := fun m n =>
  if n < 2 ^ 40 then (frameAddr n, m, n + 1) else (0, m, n)

theorem countUp_of_lt {n : ℕ} (h : n < 2 ^ 40) (m : Mem) :
    countUp m n = (frameAddr n, m, n + 1) := if_pos h

theorem frameAddr_and_physMask (hf : f < 2 ^ 40) : frameAddr f &&& physMask = 0 := by
  have haddr := toNat_frameAddr (f := f) (by omega)
  have hal := aligned_frameAddr (f := f) (by omega)
  have hmask : ∀ i < 64, physMask.getLsbD i = true → i < 12 ∨ 52 ≤ i := by decide
  refine and_eq_zero_of_getLsbD fun i hi hm => ?_
  rcases hmask i hi hm with hlow | hhigh
  · exact getLsbD_of_aligned hal hlow
  · rw [BitVec.getLsbD, haddr]
    exact Nat.testBit_lt_two_pow (lt_of_lt_of_le (by omega : 4096 * f < 2 ^ 52)
      (Nat.pow_le_pow_right Nat.two_pos hhigh))

theorem countUp_fresh {s : Machine ℕ} (hgood : frameAddr s.pmm &&& fmt.bad = 0)
    (hlt : ∀ f ∈ PageTables s.mem root, f < s.pmm) (h0 : 0 < s.pmm) (h40 : s.pmm < 2 ^ 40) :
    FreshPage fmt countUp root s := by
  have hpage := countUp_of_lt h40 s.mem
  refine ⟨?_, ?_, ?_, ?_, ?_⟩
  · rw [hpage]
    exact frameAddr_ne_zero (by omega) (by omega)
  · rw [hpage]
    exact aligned_frameAddr (by omega)
  · rw [hpage]
    exact hgood
  · rw [hpage, frameOf_frameAddr (by omega)]
    exact fun hmem => absurd (hlt _ hmem) (lt_irrefl _)
  · intro f _ j
    rw [hpage]

/-- The tables stay below the counter. -/
theorem countUp_tableStep {s s' : Machine ℕ} (h : PageTree fmt s.mem root)
    (hlt : ∀ f ∈ PageTables s.mem root, f < s.pmm)
    (hstep : TableStep fmt countUp flags root s s') :
    (∀ f ∈ PageTables s'.mem root, f < s'.pmm) ∧ s.pmm ≤ s'.pmm ∧ s'.pmm ≤ s.pmm + 1 := by
  cases hstep with
  | visit => exact ⟨hlt, le_refl _, Nat.le_succ _⟩
  | @link _ _ _ _ g hl =>
    -- beyond the limit there is no page to link
    have h40 : s.pmm < 2 ^ 40 := by
      by_contra hge
      exact hl.fresh.ne_zero (by rw [countUp, if_neg hge])
    have hpage := hl.page
    rw [countUp_of_lt h40] at hpage
    have hpmm : s'.pmm = s.pmm + 1 := by rw [hl.pmm, countUp_of_lt h40]
    have hgn : s.pmm = g := frameAddr_inj (by omega) hl.link.frame hpage
    refine ⟨fun e he => ?_, by omega, by omega⟩
    rcases hl.link.tables_subset h he with rfl | hmem
    · omega
    · have := hlt e hmem
      omega

/-- Counting up from beyond the tree supplies every walk. -/
theorem countUp_allocsOn {s : Machine ℕ} (hgood : ∀ n < 2 ^ 40, frameAddr n &&& fmt.bad = 0)
    (hfl : LinkFlags fmt flags) (h : PageTree fmt s.mem root) (hroot : root < 2 ^ 52)
    (hlen : path.length ≤ 3) (hclear : PathClear fmt s.mem root path)
    (hlt : ∀ f ∈ PageTables s.mem root, f < s.pmm) (h0 : 0 < s.pmm)
    (h40 : s.pmm + path.length ≤ 2 ^ 40) :
    AllocsOn (FreshPage fmt countUp root) countUp flags (frameAddr root) path s := by
  -- with `n` calls to go there are `n` frames left below the limit
  let J : ℕ → Machine ℕ → Prop := fun n s =>
    (∀ f ∈ PageTables s.mem root, f < s.pmm) ∧ 0 < s.pmm ∧ s.pmm + n ≤ 2 ^ 40
  have hfresh : ∀ n (s : Machine ℕ), J (n + 1) s → FreshPage fmt countUp root s :=
    fun n s hJ => countUp_fresh (hgood _ (by have := hJ.2.2; omega)) hJ.1 hJ.2.1
      (by have := hJ.2.2; omega)
  refine (supplied_of_invariant (J := J) (P := fun _ => True) ?_ ?_ h hroot (p := []) rfl
    (by simpa using hlen) hclear (AllocsOn.trivial _ _ _) ⟨hlt, h0, h40⟩).mono
    fun _ hs => hs.1
  · rintro n s s' hs ⟨hlt, h0, h40⟩ hstep
    obtain ⟨hlt', hpmm⟩ := countUp_tableStep hs hlt hstep
    exact ⟨hlt', by omega, by omega⟩
  · exact fun n s _ hJ _ => ⟨hfresh n s hJ, hfl⟩

/-! ## The unmap function -/

/-- **The unmap function**: pointers are followed as far as they go; if they lead to the
last table, a present entry there is cleared. -/
theorem unmapFrom_spec (h : PageTree fmt s.mem root) (hroot : root < 2 ^ 52)
    (hf : follow swChild s.mem root p = some f) (hlen : p.length + path.length = 3)
    (hclear : PathClear fmt s.mem root (p ++ path)) :
    ∃ s₁, TableSteps fmt alloc flags root s s₁ ∧ s₁.mem = s.mem ∧ s₁.pmm = s.pmm ∧
      (unmapFrom (frameAddr f) (path ++ [i]) s = s₁ ∧
          (∀ g, follow swChild s.mem root (p ++ path) = some g → present (s.mem g i) = false) ∨
        ∃ g, g < 2 ^ 52 ∧ follow swChild s.mem root (p ++ path) = some g ∧
          present (s.mem g i) = true ∧
          unmapFrom (frameAddr f) (path ++ [i]) s = s₁.setEntry (frameAddr g) (ofIndex i) 0) := by
  induction path generalizing p f s with
  | nil =>
    have hf52 := PageTree.lt_of_follow hroot hf
    refine ⟨s, .refl, rfl, rfl, ?_⟩
    rw [List.append_nil, List.nil_append]
    have hiff : s.entry (frameAddr f) (ofIndex i) &&& 1 ≠ 0 ↔ present (s.mem f i) = true := by
      rw [and_one_ne_zero_iff, s.entry_frameAddr hf52]
    by_cases hpres : present (s.mem f i) = true
    · exact Or.inr ⟨f, hf52, hf, hpres, by rw [unmapFrom, if_pos (hiff.mpr hpres)]⟩
    · refine Or.inl ⟨by rw [unmapFrom, if_neg (hpres ∘ hiff.mp)], fun g hg => ?_⟩
      rw [hf] at hg
      cases hg
      simpa using hpres
  | cons j path ih =>
    rw [List.length_cons] at hlen
    have hp : p.length < 3 := by omega
    have hf52 := PageTree.lt_of_follow hroot hf
    have happ : p ++ j :: path = (p ++ [j]) ++ path := by simp
    have hiff : s.entry (frameAddr f) (ofIndex j) &&& 1 ≠ 0 ↔ present (s.mem f j) = true := by
      rw [and_one_ne_zero_iff, s.entry_frameAddr hf52]
    have hunfold : unmapFrom (frameAddr f) (j :: path ++ [i]) s
        = if s.entry (frameAddr f) (ofIndex j) &&& 1 ≠ 0 then
            unmapFrom ((s.entry (frameAddr f) (ofIndex j) >>> 12) * 4096) (path ++ [i])
              (s.note (.visit (frameAddr f + 8 * ofIndex j)
                ((s.entry (frameAddr f) (ofIndex j) >>> 12) * 4096)))
          else s := by
      cases path <;> rfl
    by_cases hpres : present (s.mem f j) = true
    · have hleaf := hclear p j path f rfl hf hpres
      obtain ⟨_, hc⟩ := h.child hp hf hpres hleaf
      have hnext : (s.entry (frameAddr f) (ofIndex j) >>> 12) * 4096
          = frameAddr (frameOf (s.mem f j)) := by
        rw [s.entry_frameAddr hf52, shiftRight_mul_eq]
      rw [hunfold, if_pos (hiff.mpr hpres), hnext, happ]
      have hg : follow swChild s.mem root (p ++ [j]) = some (frameOf (s.mem f j)) := by
        rw [follow_concat_of_eq hf, hc]
      obtain ⟨s₁, hsteps, hmem, hpmm, hres⟩ :=
        ih (s := s.note (.visit (slotAddr f j) (frameAddr (frameOf (s.mem f j))))) h hg
          (by rw [List.length_append, List.length_singleton]; omega) (happ ▸ hclear)
      exact ⟨s₁, .head (.visit hp hf hc) hsteps, hmem, hpmm, hres⟩
    · have habs : present (s.mem f j) = false := by simpa using hpres
      refine ⟨s, .refl, rfl, rfl, Or.inl ⟨?_, fun g hg => ?_⟩⟩
      · rw [hunfold, if_neg (hpres ∘ hiff.mp)]
      · rw [happ, follow_append, follow_concat_of_eq hf, swChild_of_absent habs] at hg
        cases hg

/-- The unmap function from the root. -/
theorem vmmUnmapPage_spec (alloc : Allocator α) (flags : U64) {v : U64}
    (h : PageTree fmt s.mem root) (hroot : root < 2 ^ 52)
    (hclear : PathClear fmt s.mem root (tablePath v)) :
    ∃ s₁, TableSteps fmt alloc flags root s s₁ ∧ s₁.mem = s.mem ∧ s₁.pmm = s.pmm ∧
      (vmmUnmapPage (frameAddr root) v s = s₁ ∧
          (∀ g, follow swChild s.mem root (tablePath v) = some g →
            present (s.mem g (indexAt 12 v)) = false) ∨
        ∃ g, g < 2 ^ 52 ∧ follow swChild s.mem root (tablePath v) = some g ∧
          present (s.mem g (indexAt 12 v)) = true ∧
          vmmUnmapPage (frameAddr root) v s
            = s₁.setEntry (frameAddr g) (ofIndex (indexAt 12 v)) 0) := by
  rw [vmmUnmapPage_eq, vpath_eq_append]
  exact unmapFrom_spec h hroot (p := []) rfl rfl hclear

end Vmm
