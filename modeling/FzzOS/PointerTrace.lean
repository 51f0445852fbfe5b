/-
# Flags in table addresses

The address of the next table is read out of an entry by a mask that keeps the top bit.
The log records which page was put behind which slot and what was read there later.

* `Traced` : the pages put behind slots are the tables the slots lead to, and everything
  read at a slot is the page put there;
* `pointers_exact` : it holds in every run in which no table is made with
  `PTE_EXECUTE_DISABLE`;
* `executeDisable_leaks` : and not in every run.
-/
import FzzOS.Mapping

open RadixTree Relation Runs

namespace Vmm

variable {α : Type} {fmt : Format} {alloc : Allocator α} {flags x slot page next : U64}
  {root f : ℕ} {p path : List (Fin 512)} {i : Fin 512} {s s' s₀ : Machine α}

/-! ## The invariant -/

/-- Slots, pages and pointers agree. -/
structure Traced (root : ℕ) (s : Machine α) : Prop where
  linked : ∀ p f i g, p.length < 3 → follow swChild s.mem root p = some f →
    swChild (s.mem f i) = some g → .link (slotAddr f i) (frameAddr g) ∈ s.log
  links : ∀ slot page, .link slot page ∈ s.log → ∃ p f i g, p.length < 3 ∧
    follow swChild s.mem root p = some f ∧ swChild (s.mem f i) = some g ∧
    slot = slotAddr f i ∧ page = frameAddr g
  visits : ∀ slot next, .visit slot next ∈ s.log → .link slot next ∈ s.log

namespace Traced

/-- At most one page is put behind a slot. -/
theorem link_unique (h : Traced root s) (hroot : root < 2 ^ 52) {page' : U64}
    (hp : .link slot page ∈ s.log) (hp' : .link slot page' ∈ s.log) : page = page' := by
  obtain ⟨_, f, i, g, _, hf, hc, hslot, rfl⟩ := h.links _ _ hp
  obtain ⟨_, f', i', g', _, hf', hc', hslot', rfl⟩ := h.links _ _ hp'
  have hf52 := PageTree.lt_of_follow hroot hf
  have hf52' := PageTree.lt_of_follow hroot hf'
  obtain ⟨rfl, rfl⟩ := slotAddr_inj hf52 hf52' (hslot.symm.trans hslot')
  rw [hc] at hc'
  rw [Option.some.inj hc']

/-- An event that is neither a link nor a visit. -/
theorem note (h : Traced root s) {e : Event} (hl : ∀ slot page, e ≠ .link slot page)
    (hv : ∀ slot next, e ≠ .visit slot next) : Traced root (s.note e) where
  linked p f i g hp hf hc := List.mem_cons_of_mem _ (h.linked p f i g hp hf hc)
  links slot page hmem := by
    rcases List.mem_cons.mp hmem with heq | hmem
    · exact absurd heq.symm (hl slot page)
    · exact h.links slot page hmem
  visits slot next hmem := by
    rcases List.mem_cons.mp hmem with heq | hmem
    · exact absurd heq.symm (hv slot next)
    · exact List.mem_cons_of_mem _ (h.visits slot next hmem)

/-- A step down to a table. -/
theorem tableStep (htree : PageTree fmt s.mem root) (h : Traced root s)
    (hstep : TableStep fmt alloc flags root s s') : Traced root s' := by
  cases hstep with
  | visit hp hf hc =>
    refine ⟨fun p f i g hp hf hc => List.mem_cons_of_mem _ (h.linked p f i g hp hf hc),
      fun slot page hmem => ?_, fun slot next hmem => ?_⟩
    · simp only [Machine.note_log, List.mem_cons, reduceCtorEq, false_or] at hmem
      exact h.links slot page hmem
    · refine List.mem_cons_of_mem _ ?_
      simp only [Machine.note_log, List.mem_cons, Event.visit.injEq] at hmem
      rcases hmem with ⟨rfl, rfl⟩ | hmem
      · exact h.linked _ _ _ _ hp hf hc
      · exact h.visits slot next hmem
  | @link _ p f i g hl =>
    have hmem : ∀ e, e ∈ s'.log ↔ e = .visit (slotAddr f i) (frameAddr g) ∨
        e = .store (slotAddr f i) ∨ e = .link (slotAddr f i) (frameAddr g) ∨ e ∈ s.log := by
      intro e
      rw [hl.log]
      simp only [List.mem_cons]
    -- the new slot and its page enter all three fields, the others stay
    refine ⟨fun q e j g' hq he hc => ?_, fun slot page hlink => ?_, fun slot next hvisit => ?_⟩
    · rw [hmem]
      rcases hl.link.pointer_cases htree hq he hc with ⟨rfl, rfl, rfl⟩ | ⟨he, hc⟩
      · exact Or.inr (Or.inr (Or.inl rfl))
      · exact Or.inr (Or.inr (Or.inr (h.linked q e j g' hq he hc)))
    · rw [hmem] at hlink
      simp only [reduceCtorEq, Event.link.injEq, false_or] at hlink
      rcases hlink with ⟨rfl, rfl⟩ | hold
      · obtain ⟨hf, hc⟩ := hl.link.pointer_new htree
        exact ⟨p, f, i, g, hl.link.depth, hf, hc, rfl, rfl⟩
      · obtain ⟨q, e, j, g', hq, he, hc, hslot, hpage⟩ := h.links slot page hold
        obtain ⟨he, hc⟩ := hl.link.pointer_mono htree hq he hc
        exact ⟨q, e, j, g', hq, he, hc, hslot, hpage⟩
    · rw [hmem] at hvisit
      simp only [reduceCtorEq, Event.visit.injEq, false_or] at hvisit
      rw [hmem]
      rcases hvisit with ⟨rfl, rfl⟩ | hold
      · exact Or.inr (Or.inr (Or.inl rfl))
      · exact Or.inr (Or.inr (Or.inr (h.visits slot next hold)))

theorem tableSteps (htree : PageTree fmt s.mem root) (h : Traced root s)
    (hsteps : TableSteps fmt alloc flags root s s') :
    PageTree fmt s'.mem root ∧ Traced root s' :=
  TableSteps.induct (P := Traced root) htree h (fun _ _ ht hs hstep => hs.tableStep ht hstep)
    hsteps

/-- A store into a last-level table. -/
theorem store (htree : PageTree fmt s.mem root) (h : Traced root s) (hf52 : f < 2 ^ 52)
    (hp : p.length = 3) (hf : follow swChild s.mem root p = some f) :
    PageTree fmt (s.setEntry (frameAddr f) (ofIndex i) x).mem root ∧
    Traced root (s.setEntry (frameAddr f) (ofIndex i) x) := by
  have hst := stored_setEntry (i := i) (x := x) hf52 hp.le hf
  have hx : Storable fmt p.length x := hp ▸ storable_three x
  -- the upper levels are untouched
  have hfollow : ∀ {q e}, q.length < 3 → (follow swChild
      (s.setEntry (frameAddr f) (ofIndex i) x).mem root q = some e ↔
        follow swChild s.mem root q = some e) := by
    intro q e hq
    rw [hst.follow_iff htree hx hq.le]
    refine and_iff_right fun hpre => ?_
    have := hpre.length_le
    rw [List.length_append, List.length_singleton] at this
    omega
  have hsame : ∀ {q : List (Fin 512)} {e : ℕ} (j : Fin 512), q.length < 3 →
      follow swChild s.mem root q = some e →
      (s.setEntry (frameAddr f) (ofIndex i) x).mem e j = s.mem e j := by
    intro q e j hq he
    have hne : e ≠ f := by
      rintro rfl
      have := htree.separated q p e hq.le hp.le he hf
      rw [this] at hq
      omega
    exact hst.off e (mem_tables hq.le he) j (Or.inl hne)
  refine ⟨hst.pageTree htree hx, fun q e j g hq he hc => ?_, fun slot page hmem => ?_,
    fun slot next hmem => ?_⟩
  · rw [hfollow hq] at he
    rw [hsame j hq he] at hc
    exact List.mem_cons_of_mem _ (h.linked q e j g hq he hc)
  · simp only [s.setEntry_log, List.mem_cons, reduceCtorEq, false_or] at hmem
    obtain ⟨q, e, j, g, hq, he, hc, hslot, hpage⟩ := h.links slot page hmem
    exact ⟨q, e, j, g, hq, (hfollow hq).mpr he, by rw [hsame j hq he, hc], hslot, hpage⟩
  · simp only [s.setEntry_log, List.mem_cons, reduceCtorEq, false_or] at hmem
    exact List.mem_cons_of_mem _ (h.visits slot next hmem)

end Traced

/-! ## Calls -/

/-- The flag constants of `vmm.h`, with `PTE_PRESENT` and without `PTE_PAGESIZE`. -/
structure ConstFlags (flags : U64) : Prop where
  present : present flags = true
  only : flags &&& ~~~0x800000000000017F = 0

/-- Without `PTE_EXECUTE_DISABLE` they lie below the table address. -/
theorem ConstFlags.mapFlags (h : ConstFlags flags) (hxd : flags &&& pteExecuteDisable = 0) :
    MapFlags flags where
  present := h.present
  only := by
    have hmask : ∀ i < 64, (~~~(0x17F : U64)).getLsbD i = true →
        (~~~(0x800000000000017F : U64)).getLsbD i = true ∨
          pteExecuteDisable.getLsbD i = true := by decide
    refine and_eq_zero_of_getLsbD fun i hi hm => ?_
    rcases hmask i hi hm with hc | hc
    · exact getLsbD_of_and_eq_zero h.only hc
    · exact getLsbD_of_and_eq_zero hxd hc

namespace PageCall

/-- Constant flags, an aligned address, and fresh frames for the tables made. -/
def ConstValid (alloc : Allocator α) (root : ℕ) (s : Machine α) : PageCall → Prop
  | map v p fl => Aligned p ∧ ConstFlags fl ∧
    AllocsOn (FreshPage smallPages alloc root) alloc fl (frameAddr root) (tablePath v) s
  | unmap _ => True

/-- No table is made with `PTE_EXECUTE_DISABLE`: the flags lack it, or the three tables on
the way are there. -/
def KeepsExecute (root : ℕ) (s : Machine α) : PageCall → Prop
  | map v _ fl => fl &&& pteExecuteDisable = 0 ∨
    (follow swChild s.mem root (tablePath v)).isSome
  | unmap _ => True

end PageCall

/-- One call. -/
theorem PageCall.apply_traced (hroot : root < 2 ^ 52) {c : PageCall}
    (h : PageTree smallPages s.mem root ∧ Traced root s) (hv : c.ConstValid alloc root s)
    (hkeep : c.KeepsExecute root s) :
    PageTree smallPages (c.apply alloc root s).mem root ∧
    Traced root (c.apply alloc root s) := by
  obtain ⟨htree, htraced⟩ := h
  have hclear : ∀ v, PathClear smallPages s.mem root (tablePath v) := fun _ _ _ _ _ _ _ _ => rfl
  rcases c with ⟨v, p, fl⟩ | v
  · obtain ⟨_, hfl, hall⟩ := hv
    have hsup : Supplied smallPages alloc fl root (frameAddr root) (tablePath v) s := by
      -- with `PTE_EXECUTE_DISABLE` there must be nothing left to make
      rcases hkeep with hxd | hsome
      · exact hall.supplied ((hfl.mapFlags hxd).linkFlags (by decide) (by decide))
      · obtain ⟨g, hg⟩ := Option.isSome_iff_exists.mp hsome
        have hnone : Supplied smallPages alloc fl root (frameAddr root) (tablePath v ++ []) s :=
          allocsOn_of_follow htree hroot (p := []) rfl (le_refl 3) hg (Or.inl rfl)
        rwa [List.append_nil] at hnone
    obtain ⟨s₁, f, hsteps, hf52, hf, heq⟩ := mapAt_spec (i := indexAt 12 v) (x := p ||| fl) htree
      hroot (le_refl 3) (hclear v) hsup
    obtain ⟨htree₁, h₁⟩ := htraced.tableSteps htree hsteps
    obtain ⟨htree', h'⟩ := h₁.store (i := indexAt 12 v) (x := p ||| fl) htree₁ hf52 rfl hf
    rw [PageCall.apply, vmmMap4Kpage_eq, heq]
    exact ⟨htree', h'.note (by simp) (by simp)⟩
  · obtain ⟨s₁, hsteps, hmem, _, hres⟩ := vmmUnmapPage_spec alloc 0 htree hroot (hclear v)
    obtain ⟨htree₁, h₁⟩ := htraced.tableSteps htree hsteps
    rw [PageCall.apply]
    rcases hres with ⟨heq, _⟩ | ⟨f, hf52, hf, _, heq⟩
    · rw [heq]
      exact ⟨htree₁, h₁⟩
    · rw [heq]
      exact h₁.store htree₁ hf52 rfl (hmem ▸ hf)

/-! ## Runs -/

/-- **Pointers are exact.**  In every run from an empty root in which no table is made with
`PTE_EXECUTE_DISABLE`, every pointer read at a slot is the page that
`vmm_create_page_table` returned for that slot, and it returned only that one. -/
theorem pointers_exact {calls : List PageCall} (hroot : root < 2 ^ 52)
    (hempty : ∀ i, s₀.mem root i = 0) (hlog : s₀.log = [])
    (hrun : Run (PageCall.apply alloc root)
      (fun s c => c.ConstValid alloc root s ∧ c.KeepsExecute root s) s₀ calls s) :
    ∀ slot next, .visit slot next ∈ s.log →
      .link slot next ∈ s.log ∧ ∀ page, .link slot page ∈ s.log → page = next := by
  have h₀ : Traced root s₀ := by
    constructor
    · intro p f i g _ hf hc
      rw [(follow_of_empty hempty hf).2, hempty i, swChild_zero] at hc
      cases hc
    · intro slot page hmem
      rw [hlog] at hmem
      exact absurd hmem List.not_mem_nil
    · intro slot next hmem
      rw [hlog] at hmem
      exact absurd hmem List.not_mem_nil
  have h := (hrun.invariant (P := fun s => PageTree smallPages s.mem root ∧ Traced root s)
    ⟨pageTree_of_empty hempty, h₀⟩
    fun _ _ h hv => PageCall.apply_traced hroot h hv.1 hv.2).2
  intro slot next hvisit
  have hlink := h.visits slot next hvisit
  exact ⟨hlink, fun page hpage => h.link_unique hroot hpage hlink⟩

/-- Two pages on the bare machine, the second not executable and in the table of the first,
whose pointer is read again. -/
theorem pointers_exact_bare :
    .link 0x3010 0x4000 ∈ (vmmMap4Kpage countUp (frameAddr 1) 0x401000 0x6000
      0x8000000000000003 (vmmMap4Kpage countUp (frameAddr 1) 0x400000 0x5000 3 bare)).log := by
  have hfirst : Run (PageCall.apply countUp 1)
      (fun s c => c.ConstValid countUp 1 s ∧ c.KeepsExecute 1 s) bare
      [.map 0x400000 0x5000 3] _ :=
    .step .start ⟨⟨by decide, ⟨by decide, by decide⟩,
      bare_allocsOn (fun _ hn => tableMask_of_physMask _ (frameAddr_and_physMask hn))
        ⟨by decide, by decide, by decide⟩ (le_refl 3)⟩, Or.inl (by decide)⟩
  have hsecond : Run (PageCall.apply countUp 1)
      (fun s c => c.ConstValid countUp 1 s ∧ c.KeepsExecute 1 s) bare
      [.map 0x400000 0x5000 3, .map 0x401000 0x6000 0x8000000000000003] _ :=
    .step hfirst ⟨⟨by decide, ⟨by decide, by decide⟩, fun h => absurd h (by decide),
      fun h => absurd h (by decide), fun h => absurd h (by decide), True.intro⟩,
      Or.inr (by decide)⟩
  exact (pointers_exact (by decide) (fun _ => rfl) rfl hsecond 0x3010 0x4000 (by decide)).1

/-- After a first page the tables of the bare machine lie below the counter. -/
theorem bare_tables_lt :
    PageTree smallPages (vmmMap4Kpage countUp (frameAddr 1) 0x400000 0x5000 3 bare).mem 1 ∧
    ∀ f ∈ PageTables (vmmMap4Kpage countUp (frameAddr 1) 0x400000 0x5000 3 bare).mem 1,
      f < (vmmMap4Kpage countUp (frameAddr 1) 0x400000 0x5000 3 bare).pmm := by
  have hempty : ∀ i, bare.mem 1 i = 0 := fun _ => rfl
  have htree : PageTree smallPages bare.mem 1 := pageTree_of_empty hempty
  have hfl : LinkFlags smallPages 3 := ⟨by decide, by decide, by decide⟩
  have hall : Supplied smallPages countUp 3 1 (frameAddr 1) (tablePath 0x400000) bare :=
    (bare_allocsOn (fun _ hn => tableMask_of_physMask _ (frameAddr_and_physMask hn)) hfl
      (le_refl 3)).supplied hfl
  obtain ⟨s₁, f, hsteps, hf52, hf, heq⟩ := mapAt_spec (i := indexAt 12 0x400000) (x := 0x5000 ||| 3)
    htree (by decide) (le_refl 3) (fun _ _ _ _ _ _ _ => rfl) hall
  obtain ⟨htree₁, hlt⟩ := TableSteps.induct (P := fun s => ∀ f ∈ PageTables s.mem 1, f < s.pmm)
    htree (fun f hf => eq_root_of_empty hempty hf ▸ by decide)
    (fun _ _ ht hlt hstep => (countUp_tableStep ht hlt hstep).1) hsteps
  have hst := stored_setEntry (i := indexAt 12 0x400000) (x := 0x5000 ||| 3) hf52 (le_refl 3) hf
  rw [vmmMap4Kpage_eq, heq]
  exact ⟨hst.pageTree htree₁ (storable_three _),
    fun e he => hlt e (hst.tables_subset htree₁ (storable_three _) he)⟩

/-- The second page not executable and in a new table: bit 63 ends up in the pointer. -/
theorem executeDisable_leaks :
    ¬ ∀ (alloc : Allocator ℕ) (root : ℕ) (s₀ s : Machine ℕ) (calls : List PageCall),
      root < 2 ^ 52 → (∀ i, s₀.mem root i = 0) → s₀.log = [] →
      Run (PageCall.apply alloc root) (fun s c => c.ConstValid alloc root s) s₀ calls s →
      ∀ slot next, .visit slot next ∈ s.log →
        .link slot next ∈ s.log ∧ ∀ page, .link slot page ∈ s.log → page = next := by
  intro hclaim
  obtain ⟨htree, hlt⟩ := bare_tables_lt
  have hfirst : Run (PageCall.apply countUp 1) (fun s c => c.ConstValid countUp 1 s) bare
      [.map 0x400000 0x5000 3] _ :=
    .step .start ⟨by decide, ⟨by decide, by decide⟩,
      bare_allocsOn (fun _ hn => tableMask_of_physMask _ (frameAddr_and_physMask hn))
        ⟨by decide, by decide, by decide⟩ (le_refl 3)⟩
  have hlast : AllocsOn (FreshPage smallPages countUp 1) countUp 0x8000000000000003 (frameAddr 1)
      ([0, 0] ++ [3]) (vmmMap4Kpage countUp (frameAddr 1) 0x400000 0x5000 3 bare) :=
    allocsOn_of_follow htree (by decide) (p := []) rfl (by decide) (by decide : _ = some 3)
      (Or.inr ⟨3, rfl, fun s' hmem hpmm => countUp_fresh (by rw [hpmm]; decide)
        (by rw [hmem, hpmm]; exact hlt) (by rw [hpmm]; decide) (by rw [hpmm]; decide)⟩)
  have hsecond : Run (PageCall.apply countUp 1) (fun s c => c.ConstValid countUp 1 s) bare
      [.map 0x400000 0x5000 3, .map 0x600000 0x6000 0x8000000000000003] _ :=
    .step hfirst ⟨by decide, ⟨by decide, by decide⟩, hlast⟩
  exact absurd (hclaim countUp 1 bare _ _ (by decide) (fun _ => rfl) rfl hsecond 0x3018
    0x8000000000005000 (by decide)).1 (by decide)

end Vmm
