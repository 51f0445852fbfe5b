/-
# The switch to the new address space

`vmm_init` builds a root with one 2 MiB page for the kernel and two entries of the boot
tables, and loads it.  Tables are reached by their physical addresses before and after.

* `vmmInit` : the code;
* `NewSpace` : what is in the tables afterwards;
* `NewSpace.translate_low` : of the lower half the kernel's page is all that is mapped;
* `tableUses_iff` : the tables a map call uses, against the page they must lie in;
* `tables_reachable` : later map calls reach their tables exactly if the kernel's page maps
  these to themselves;
* `root_unreachable` : a kernel in the higher half does not reach its root.
-/
import FzzOS.HeapPages

open RadixTree Relation Runs

namespace Vmm

variable {α : Type} {alloc : Allocator α} {flags v kv kp x a : U64} {m₀ m : Mem}
  {c root t₃ t₂ f g e : ℕ} {used : Set ℕ} {p q path : List (Fin 512)} {i j : Fin 512}
  {s s' s₀ : Machine α}

/-! ## The code -/

/-- `vmm_init`, from the load of `cr3` to its store: the root built, and the machine. -/
def vmmInit (alloc : Allocator α) (cr3 kernelVirtual kernelPhysical : U64) (s : Machine α) :
    U64 × Machine α :=
  let root := vmmCreatePageTable alloc s
  let s := vmmMap2Mpage alloc root.1 kernelVirtual kernelPhysical (ptePresent ||| pteReadwrite)
    root.2
  -- of the boot tables two entries are taken over, and none of the lower half
  let s := s.setEntry root.1 256 (s.entry cr3 256)
  let s := s.setEntry root.1 511 (s.entry cr3 511)
  (root.1, s)

/-- `pmm_allocpage` for the data of a page. -/
def dataPage (alloc : Allocator α) (s : Machine α) : Machine α :=
  { s with mem := (alloc s.mem s.pmm).2.1, pmm := (alloc s.mem s.pmm).2.2 }

/-- A later call as `liballoc_alloc` makes it: a page for the data, and its mapping. -/
def mapData (alloc : Allocator α) (root : ℕ) (v : U64) (s : Machine α) : Machine α :=
  vmmMap4Kpage alloc (frameAddr root) v (alloc s.mem s.pmm).1 (ptePresent ||| pteReadwrite)
    (dataPage alloc s)

/-- The addresses the walk down `path` uses as tables, each with the machine at that time. -/
def tableUses (alloc : Allocator α) (flags : U64) :
    U64 → List (Fin 512) → Machine α → List (U64 × Machine α)
  | table, [], s => [(table, s)]
  | table, i :: path, s =>
    let next := vmmGetPagemap alloc table (ofIndex i) flags s
    (table, s) :: tableUses alloc flags next.1 path next.2

/-- Address `a` can be used to reach physical address `a`. -/
def Identity (m : Mem) (root : ℕ) (a : U64) : Prop := access m root a = some a.toNat

instance (m : Mem) (root : ℕ) (a : U64) : Decidable (Identity m root a) :=
  inferInstanceAs (Decidable (_ = _))

/-- The 2 MiB page `vmm_init` maps for the kernel holds `a`, at its own physical address. -/
def InKernelPage (kernelVirtual kernelPhysical a : U64) : Prop :=
  a.toNat < 2 ^ 47 ∧ kernelVirtual.toNat % 2 ^ 48 / 2 ^ 21 = a.toNat / 2 ^ 21 ∧
  kernelPhysical &&& 0x1FE000 = 0 ∧ kernelPhysical.toNat % 2 ^ 52 / 2 ^ 21 = a.toNat / 2 ^ 21

instance (kv kp a : U64) : Decidable (InKernelPage kv kp a) :=
  inferInstanceAs (Decidable (_ ∧ _))

/-! ## The new tables -/

/-- The allocator returns frame `g`, which is not in use, and leaves the used frames alone. -/
structure NewFrame (alloc : Allocator α) (used : Set ℕ) (s : Machine α) (g : ℕ) : Prop where
  page : (alloc s.mem s.pmm).1 = frameAddr g
  pos : 0 < g
  limit : g < 2 ^ 35
  fresh : g ∉ used
  keeps : ∀ f ∈ used, ∀ j, (alloc s.mem s.pmm).2.1 f j = s.mem f j

/-- The allocations of `vmm_init`: `root`, and the tables `t₃` and `t₂` of the kernel's page. -/
structure InitFrames (alloc : Allocator α) (used : Set ℕ) (kernelVirtual : U64) (s : Machine α)
    (root t₃ t₂ : ℕ) : Prop where
  first : NewFrame alloc used s root
  second : NewFrame alloc (insert root used) (vmmCreatePageTable alloc s).2 t₃
  third : NewFrame alloc (insert t₃ (insert root used))
    (vmmGetPagemap alloc (frameAddr root) (ofIndex (indexAt 39 kernelVirtual))
      (ptePresent ||| pteReadwrite) (vmmCreatePageTable alloc s).2).2 t₂

/-- The same of any page but NULL: frames up to the end of the 64-bit addresses. -/
structure FreeFrame (alloc : Allocator α) (used : Set ℕ) (s : Machine α) (g : ℕ) : Prop where
  page : (alloc s.mem s.pmm).1 = frameAddr g
  pos : 0 < g
  lt : g < 2 ^ 52
  fresh : g ∉ used
  keeps : ∀ f ∈ used, ∀ j, (alloc s.mem s.pmm).2.1 f j = s.mem f j

/-- The allocations of `vmm_init`, of any pages but NULL. -/
structure FreeFrames (alloc : Allocator α) (used : Set ℕ) (kernelVirtual : U64) (s : Machine α)
    (root t₃ t₂ : ℕ) : Prop where
  first : FreeFrame alloc used s root
  second : FreeFrame alloc (insert root used) (vmmCreatePageTable alloc s).2 t₃
  third : FreeFrame alloc (insert t₃ (insert root used))
    (vmmGetPagemap alloc (frameAddr root) (ofIndex (indexAt 39 kernelVirtual))
      (ptePresent ||| pteReadwrite) (vmmCreatePageTable alloc s).2).2 t₂

/-- The entry for the kernel's page. -/
def kernelEntry (kernelPhysical : U64) : U64 :=
  kernelPhysical &&& ~~~0xFFF ||| (ptePresent ||| pteReadwrite) ||| ptePagesize

/-- The pointer `vmm_init` makes to the table in frame `g`. -/
def tableEntry (g : ℕ) : U64 := frameAddr g ||| (ptePresent ||| pteReadwrite)

/-- **The tables after `vmm_init`**, with `m₀` and `c` the memory and the boot root before. -/
structure NewSpace (m₀ m : Mem) (c root t₃ t₂ : ℕ) (kernelVirtual kernelPhysical : U64) :
    Prop where
  rootTable : ∀ j, m root j = if j = 511 then m₀ c 511 else if j = 256 then m₀ c 256 else
    if j = indexAt 39 kernelVirtual then tableEntry t₃ else 0
  table3 : ∀ j, m t₃ j = if j = indexAt 30 kernelVirtual then tableEntry t₂ else 0
  table2 : ∀ j, m t₂ j = if j = indexAt 21 kernelVirtual then kernelEntry kernelPhysical else 0
  boot : ∀ f ∈ PageTables m₀ c, ∀ j, m f j = m₀ f j
  root_limit : root < 2 ^ 35
  t₃_limit : t₃ < 2 ^ 35
  t₂_limit : t₂ < 2 ^ 35
  root_fresh : root ∉ PageTables m₀ c
  t₃_fresh : t₃ ∉ insert root (PageTables m₀ c)
  t₂_fresh : t₂ ∉ insert t₃ (insert root (PageTables m₀ c))

theorem readwrite_linkFlags {fmt : Format} (hbad : 7 &&& fmt.bad = 0) :
    LinkFlags fmt (ptePresent ||| pteReadwrite) := by
  have hflags : AccessFlags (ptePresent ||| pteReadwrite) := ⟨by decide, by decide⟩
  exact hflags.linkFlags (by decide) hbad

theorem NewFrame.free (h : NewFrame alloc used s g) : FreeFrame alloc used s g :=
  ⟨h.page, h.pos, by have := h.limit; omega, h.fresh, h.keeps⟩

theorem InitFrames.free (h : InitFrames alloc used kv s root t₃ t₂) :
    FreeFrames alloc used kv s root t₃ t₂ :=
  ⟨h.first.free, h.second.free, h.third.free⟩

/-- A free frame is one outside the tree. -/
theorem FreeFrame.freshPage (h : FreeFrame alloc used s g)
    (hsub : PageTables s.mem root ⊆ used) : FreshPage smallPages alloc root s where
  ne_zero := by
    rw [h.page]
    exact frameAddr_ne_zero h.lt h.pos.ne'
  aligned := by
    rw [h.page]
    exact aligned_frameAddr h.lt
  good := by
    rw [h.page]
    exact and_eq_zero_of_aligned (aligned_frameAddr h.lt) (by decide)
  fresh := by
    rw [h.page, frameOf_frameAddr h.lt]
    exact fun hmem => h.fresh (hsub hmem)
  tables f hf := h.keeps f (hsub hf)

/-- A step that links a free frame changes no other used frame. -/
theorem FreeFrame.link_keeps (h : FreeFrame alloc used s g) {fmt : Format}
    (hl : LinkStep fmt alloc flags root s s' p f i g) (he : e ∈ used) (hslot : e ≠ f ∨ j ≠ i) :
    s'.mem e j = s.mem e j := by
  rw [hl.mem e j (fun heq => h.fresh (heq ▸ he)) hslot, h.keeps e he]

/-- A new table behind an absent entry, made of a free frame. -/
theorem FreeFrame.link (h : FreeFrame alloc used s g) (hroot : root < 2 ^ 52)
    (htree : PageTree smallPages s.mem root) (hsub : PageTables s.mem root ⊆ used)
    (hp : p.length < 3) (hf : follow swChild s.mem root p = some f)
    (habs : present (s.mem f i) = false) :
    ∃ s', vmmGetPagemap alloc (frameAddr f) (ofIndex i) (ptePresent ||| pteReadwrite) s
        = (frameAddr g, s') ∧
      LinkStep smallPages alloc (ptePresent ||| pteReadwrite) root s s' p f i g ∧
      PageTree smallPages s'.mem root ∧ PageTables s'.mem root ⊆ insert g used := by
  obtain ⟨g', s', heq, hl⟩ := vmmGetPagemap_link hroot hp hf habs (h.freshPage hsub)
    (readwrite_linkFlags (by decide))
  have hg : g' = g := frameAddr_inj hl.link.frame h.lt
    (hl.page.symm.trans h.page)
  subst hg
  refine ⟨s', heq, hl, hl.link.pageTree htree, fun e he => ?_⟩
  rcases hl.link.tables_subset htree he with rfl | hmem
  · exact Set.mem_insert _ _
  · exact Set.mem_insert_of_mem _ (hsub hmem)

/-- The new root is an empty tree. -/
theorem FreeFrame.create (h : FreeFrame alloc used s root) :
    ∃ s', vmmCreatePageTable alloc s = (frameAddr root, s') ∧ (∀ j, s'.mem root j = 0) ∧
      ∀ f ∈ used, ∀ j, s'.mem f j = s.mem f j := by
  have hlt := h.lt
  have hne := frameAddr_ne_zero hlt h.pos.ne'
  refine ⟨_, by rw [vmmCreatePageTable, h.page, if_neg hne], fun j => ?_, fun f hf j => ?_⟩
  · dsimp only
    rw [Mem.zeroPage_apply (aligned_frameAddr hlt), frameOf_frameAddr hlt, if_pos rfl]
  · dsimp only
    rw [Mem.zeroPage_apply (aligned_frameAddr hlt), frameOf_frameAddr hlt,
      if_neg (fun heq : f = root => h.fresh (heq ▸ hf)), h.keeps f hf]

/-- The map call of `vmm_init`: the tables before the kernel's entry is stored. -/
theorem vmmInit_map (kp : U64) (h : FreeFrames alloc used kv s root t₃ t₂) :
    ∃ s₁ s₃ : Machine α, vmmCreatePageTable alloc s = (frameAddr root, s₁) ∧
      vmmMap2Mpage alloc (frameAddr root) kv kp (ptePresent ||| pteReadwrite) s₁
        = s₃.setEntry (frameAddr t₂) (ofIndex (indexAt 21 kv)) (kernelEntry kp) ∧
      (∀ j, s₃.mem root j = if j = indexAt 39 kv then tableEntry t₃ else 0) ∧
      (∀ j, s₃.mem t₃ j = if j = indexAt 30 kv then tableEntry t₂ else 0) ∧
      (∀ j, s₃.mem t₂ j = 0) ∧ ∀ f ∈ used, ∀ j, s₃.mem f j = s.mem f j := by
  obtain ⟨hfirst, hsecond, hthird⟩ := h
  obtain ⟨s₁, hcreate, hempty, hkeep⟩ := hfirst.create
  rw [hcreate] at hsecond hthird
  have htree₁ : PageTree smallPages s₁.mem root := pageTree_of_empty hempty
  obtain ⟨s₂, heq₂, hl₂, htree₂, hsub₂⟩ := hsecond.link (p := []) (i := indexAt 39 kv) hfirst.lt
    htree₁ (fun f hf => Or.inl (eq_root_of_empty hempty hf)) (by simp) rfl (by rw [hempty]; rfl)
  rw [heq₂] at hthird
  have hpath : follow swChild s₂.mem root [indexAt 39 kv] = some t₃ := by
    rw [hl₂.link.follow_eq htree₁ (by simp)]
    exact if_pos rfl
  obtain ⟨s₃, heq₃, hl₃, -, -⟩ := hthird.link (i := indexAt 30 kv) hfirst.lt htree₂ hsub₂ (by simp)
    hpath (by rw [hl₂.link.empty]; rfl)
  have hroot : root ∈ insert root used := Set.mem_insert _ _
  have hne : root ≠ t₃ := fun heq => hsecond.fresh (heq ▸ hroot)
  refine ⟨s₁, s₃, hcreate, ?_, fun j => ?_, fun j => ?_, hl₃.link.empty, fun f hf j => ?_⟩
  · rw [vmmMap2Mpage_eq, mapAt]
    simp only [descend, heq₂, heq₃]
    rfl
  · rw [hthird.link_keeps hl₃ (Or.inr hroot) (Or.inl hne)]
    split_ifs with hj
    · rw [hj, hl₂.link.entry, tableEntry]
    · rw [hsecond.link_keeps hl₂ hroot (Or.inr hj), hempty]
  · split_ifs with hj
    · rw [hj, hl₃.link.entry, tableEntry]
    · rw [hthird.link_keeps hl₃ (Set.mem_insert _ _) (Or.inr hj), hl₂.link.empty]
  · have hf₂ : f ≠ root := fun heq => hfirst.fresh (heq ▸ hf)
    have hf₃ : f ≠ t₃ := fun heq => hsecond.fresh (heq ▸ Or.inr hf)
    rw [hthird.link_keeps hl₃ (Or.inr (Or.inr hf)) (Or.inl hf₃),
      hsecond.link_keeps hl₂ (Or.inr hf) (Or.inl hf₂), hkeep f hf]

/-- `vmm_init` as its map call and three stores: the two entries copied are those of the boot
table. -/
theorem vmmInit_stores (kp : U64) (hc : c < 2 ^ 52) (hused : c ∈ used)
    (h : FreeFrames alloc used kv s root t₃ t₂) {s₁ s₃ : Machine α}
    (hcreate : vmmCreatePageTable alloc s = (frameAddr root, s₁))
    (hmap : vmmMap2Mpage alloc (frameAddr root) kv kp (ptePresent ||| pteReadwrite) s₁
      = s₃.setEntry (frameAddr t₂) (ofIndex (indexAt 21 kv)) (kernelEntry kp))
    (hboot : ∀ j, s₃.mem c j = s.mem c j) :
    vmmInit alloc (frameAddr c) kv kp s = (frameAddr root,
      ((s₃.setEntry (frameAddr t₂) (ofIndex (indexAt 21 kv)) (kernelEntry kp)).setEntry
        (frameAddr root) (ofIndex 256) (s.mem c 256)).setEntry
          (frameAddr root) (ofIndex 511) (s.mem c 511)) := by
  have hc1 : c ≠ root := fun heq => h.first.fresh (heq ▸ hused)
  have hc2 : c ≠ t₂ := fun heq => h.third.fresh (heq ▸ Or.inr (Or.inr hused))
  have hentry : ∀ (t : Machine α) j, t.mem c j = s.mem c j →
      t.entry (frameAddr c) (ofIndex j) = s.mem c j := fun t j ht =>
    (t.entry_frameAddr hc j).trans ht
  have h256 := hentry (s₃.setEntry (frameAddr t₂) (ofIndex (indexAt 21 kv)) (kernelEntry kp)) 256
    (by rw [Machine.setEntry_mem _ h.third.lt, if_neg (fun hc => hc2 hc.1), hboot])
  have h511 := hentry ((s₃.setEntry (frameAddr t₂) (ofIndex (indexAt 21 kv))
      (kernelEntry kp)).setEntry (frameAddr root) (ofIndex 256) (s.mem c 256)) 511
    (by rw [Machine.setEntry_mem _ h.first.lt, if_neg (fun hc => hc1 hc.1),
      Machine.setEntry_mem _ h.third.lt, if_neg (fun hc => hc2 hc.1), hboot])
  have hof : ofIndex 256 = 256#64 ∧ ofIndex 511 = 511#64 := ⟨rfl, rfl⟩
  rw [hof.1] at h256 h511 ⊢
  rw [hof.2] at h511 ⊢
  simp only [vmmInit, hcreate, hmap, BitVec.ofNat_eq_ofNat, h256, h511]

/-- The tables `vmm_init` leaves, whatever frames they are made of. -/
theorem vmmInit_tables (kp : U64) (hc : c < 2 ^ 52) (hused : c ∈ used)
    (h : FreeFrames alloc used kv s root t₃ t₂) :
    (vmmInit alloc (frameAddr c) kv kp s).1 = frameAddr root ∧
    (∀ j, (vmmInit alloc (frameAddr c) kv kp s).2.mem root j
      = if j = 511 then s.mem c 511 else if j = 256 then s.mem c 256 else
        if j = indexAt 39 kv then tableEntry t₃ else 0) ∧
    (∀ j, (vmmInit alloc (frameAddr c) kv kp s).2.mem t₃ j
      = if j = indexAt 30 kv then tableEntry t₂ else 0) ∧
    (∀ j, (vmmInit alloc (frameAddr c) kv kp s).2.mem t₂ j
      = if j = indexAt 21 kv then kernelEntry kp else 0) ∧
    ∀ f ∈ used, ∀ j, (vmmInit alloc (frameAddr c) kv kp s).2.mem f j = s.mem f j := by
  obtain ⟨s₁, s₃, hcreate, hmap, hroot, ht₃, ht₂, hboot⟩ := vmmInit_map kp h
  have hnot₂ : ∀ f ∈ insert t₃ (insert root used), f ≠ t₂ := fun f hf heq =>
    h.third.fresh (heq ▸ hf)
  have hnot : ∀ f ∈ used, f ≠ root := fun f hf heq => h.first.fresh (heq ▸ hf)
  have h3 : t₃ ≠ root := fun heq => h.second.fresh (heq ▸ Set.mem_insert _ _)
  have h2 : t₂ ≠ root := (hnot₂ root (Or.inr (Or.inl rfl))).symm
  have hstores := vmmInit_stores kp hc hused h hcreate hmap (hboot c hused)
  have hmem : ∀ e j, (vmmInit alloc (frameAddr c) kv kp s).2.mem e j
      = if e = root ∧ j = 511 then s.mem c 511 else if e = root ∧ j = 256 then s.mem c 256
        else if e = t₂ ∧ j = indexAt 21 kv then kernelEntry kp else s₃.mem e j := by
    intro e j
    rw [hstores, Machine.setEntry_mem _ h.first.lt, Machine.setEntry_mem _ h.first.lt,
      Machine.setEntry_mem _ h.third.lt]
  refine ⟨by rw [hstores], fun j => ?_, fun j => ?_, fun j => ?_, fun f hf j => ?_⟩
  · simp only [hmem, hroot, true_and, h2.symm, false_and, if_false]
  · simp only [hmem, ht₃, h3, hnot₂ t₃ (Or.inl rfl), false_and, if_false]
  · simp only [hmem, ht₂, h2, true_and, false_and, if_false]
  · simp only [hmem, hboot f hf, hnot f hf, hnot₂ f (Or.inr (Or.inr hf)), false_and, if_false]

/-- **What `vmm_init` leaves.** -/
theorem vmmInit_spec (kp : U64) (hc : c < 2 ^ 52)
    (h : InitFrames alloc (PageTables s.mem c) kv s root t₃ t₂) :
    (vmmInit alloc (frameAddr c) kv kp s).1 = frameAddr root ∧
    NewSpace s.mem (vmmInit alloc (frameAddr c) kv kp s).2.mem c root t₃ t₂ kv kp := by
  obtain ⟨hroot, htable, htable₃, htable₂, hboot⟩ :=
    vmmInit_tables kp hc root_mem_tables h.free
  exact ⟨hroot, htable, htable₃, htable₂, hboot, h.first.limit, h.second.limit, h.third.limit,
    h.first.fresh, h.second.fresh, h.third.fresh⟩

/-! ## The lower half -/

/-- Of the lower half the kernel's page is all that is mapped. -/
def LowSpace (kernelVirtual kernelPhysical : U64) (m : Mem) (root : ℕ) : Prop :=
  ∀ a : U64, a.toNat < 2 ^ 47 → translate m root a =
    if kernelVirtual.toNat % 2 ^ 48 / 2 ^ 21 = a.toNat / 2 ^ 21 ∧ kernelPhysical &&& 0x1FE000 = 0
    then some (physicalIn 21 kernelPhysical a) else none

/-- From bit 12 on the kernel's entry is its physical address. -/
theorem getLsbD_kernelEntry {i : ℕ} (h12 : 12 ≤ i) (h64 : i < 64) :
    (kernelEntry kp).getLsbD i = kp.getLsbD i := by
  have hbits : ∀ i < 64, 12 ≤ i → (~~~0xFFF : U64).getLsbD i = true ∧
      (ptePresent ||| pteReadwrite).getLsbD i = false ∧ ptePagesize.getLsbD i = false := by decide
  obtain ⟨hmask, hflags, hsize⟩ := hbits i h64 h12
  rw [kernelEntry, BitVec.getLsbD_or, BitVec.getLsbD_or, BitVec.getLsbD_and, hmask, hflags, hsize,
    Bool.and_true, Bool.or_false, Bool.or_false]

theorem large_kernelEntry (kp : U64) : large (kernelEntry kp) = true := by
  rw [large, kernelEntry, BitVec.getLsbD_or, show ptePagesize.getLsbD 7 = true from rfl,
    Bool.or_true]

theorem present_kernelEntry (kp : U64) : present (kernelEntry kp) = true := by
  rw [present, kernelEntry, BitVec.getLsbD_or, BitVec.getLsbD_or,
    show (ptePresent ||| pteReadwrite).getLsbD 0 = true from rfl, Bool.or_true, Bool.true_or]

/-- The kernel's page is valid if its physical address is aligned up to bit 12. -/
theorem leafAt_kernelEntry (kp : U64) :
    leafAt 1 (kernelEntry kp) = decide (kp &&& 0x1FE000 = 0) := by
  have hmask : ∀ i < 64, (0x1FE000 : U64).getLsbD i = true → 12 ≤ i := by decide
  have hand : kernelEntry kp &&& 0x1FE000 = kp &&& 0x1FE000 := by
    refine BitVec.eq_of_getLsbD_eq fun i hi => ?_
    rw [BitVec.getLsbD_and, BitVec.getLsbD_and]
    by_cases hm : (0x1FE000 : U64).getLsbD i = true
    · rw [getLsbD_kernelEntry (hmask i hi hm) hi]
    · rw [Bool.eq_false_of_not_eq_true hm, Bool.and_false, Bool.and_false]
  rw [leafAt, present_kernelEntry, large_kernelEntry, hand]
  rfl

/-- Its flags do not matter for the translation. -/
theorem physicalIn_kernelEntry (kp a : U64) :
    physicalIn 21 (kernelEntry kp) a = physicalIn 21 kp a := by
  have hdiv : (kernelEntry kp).toNat / 2 ^ 21 = kp.toNat / 2 ^ 21 := by
    refine Nat.eq_of_testBit_eq fun i => ?_
    rw [Nat.testBit_div_two_pow, Nat.testBit_div_two_pow]
    by_cases hi : i + 21 < 64
    · exact getLsbD_kernelEntry (by omega) hi
    · rw [← BitVec.getLsbD, ← BitVec.getLsbD, BitVec.getLsbD_of_ge _ _ (by omega),
        BitVec.getLsbD_of_ge _ _ (by omega)]
  simp only [physicalIn]
  omega

theorem tableEntry_spec (hg : g < 2 ^ 35) :
    tableEntry g &&& physMask = 0 ∧ swChild (tableEntry g) = some g :=
  link_entry (by omega) (frameAddr_and_physMask (by omega))
    (readwrite_linkFlags (by decide) : LinkFlags anyLarge _)

/-- Two addresses of the same 2 MiB. -/
theorem same_large_page (kv : U64) (ha : a.toNat < 2 ^ 47) :
    kv.toNat % 2 ^ 48 / 2 ^ 21 = a.toNat / 2 ^ 21 ↔
      indexAt 39 a = indexAt 39 kv ∧ indexAt 30 a = indexAt 30 kv ∧
        indexAt 21 a = indexAt 21 kv := by
  simp only [indexAt, Fin.mk.injEq]
  omega

/-- A walk through a table with one pointer. -/
theorem walk_one_pointer {k : Fin 512} {r : List (Fin 512)} (hg : g < 2 ^ 35) (hr : r ≠ [])
    (htable : m f i = if i = k then tableEntry g else 0) :
    walk hwChild leafAt m f (i :: r)
      = if i = k then (walk hwChild leafAt m g r).map (tableEntry g :: ·) else none := by
  obtain ⟨hphys, hchild⟩ := tableEntry_spec hg
  split_ifs with hi
  · obtain ⟨n, hn⟩ := Nat.exists_eq_succ_of_ne_zero (List.length_pos_of_ne_nil hr).ne'
    have hsmall := leafAt_succ_of_not_large (of_swChild_eq_some hchild).2.1 n
    rw [if_pos hi] at htable
    rw [walk_cons, htable, hn, hsmall, if_neg Bool.false_ne_true, hwChild_eq_swChild hphys, hchild,
      Option.bind_some]
  · rw [if_neg hi] at htable
    rw [walk_absent (by rw [htable]; exact leafAt_of_absent present_zero _)
      (by rw [htable]; exact hwChild_zero)]

/-- The walk in the table of the kernel's page. -/
theorem NewSpace.walk_table2 (h : NewSpace m₀ m c root t₃ t₂ kv kp) (i j : Fin 512) :
    walk hwChild leafAt m t₂ [i, j] = if i = indexAt 21 kv ∧ kp &&& 0x1FE000 = 0 then
      some [kernelEntry kp] else none := by
  have htable := h.table2 i
  have hchild : hwChild (kernelEntry kp) = none := by simp [hwChild, large_kernelEntry]
  split_ifs with hi
  · rw [if_pos hi.1] at htable
    rw [walk_cons, htable, List.length_singleton, leafAt_kernelEntry, decide_eq_true hi.2,
      if_pos rfl]
  · by_cases hk : i = indexAt 21 kv
    · rw [if_pos hk] at htable
      have hkp : ¬ kp &&& 0x1FE000 = 0 := fun hkp => hi ⟨hk, hkp⟩
      exact walk_absent (by rw [htable, List.length_singleton, leafAt_kernelEntry,
        decide_eq_false hkp]) (by rw [htable, hchild])
    · rw [if_neg hk] at htable
      exact walk_absent (by rw [htable]; exact leafAt_of_absent present_zero _)
        (by rw [htable]; exact hwChild_zero)

theorem NewSpace.lowSpace (h : NewSpace m₀ m c root t₃ t₂ kv kp) : LowSpace kv kp m root := by
  intro a ha
  have h39 : (indexAt 39 a : ℕ) < 256 := by
    simp only [indexAt]
    omega
  have h511 : indexAt 39 a ≠ 511 := fun heq => by rw [heq] at h39; exact absurd h39 (by decide)
  have h256 : indexAt 39 a ≠ 256 := fun heq => by rw [heq] at h39; exact absurd h39 (by decide)
  -- so its entry in the root is none of the boot table's
  have hroot := h.rootTable (indexAt 39 a)
  rw [if_neg h511, if_neg h256] at hroot
  rw [translate, pageWalk, vpath, walk_one_pointer h.t₃_limit (by simp) hroot,
    walk_one_pointer h.t₂_limit (by simp) (h.table3 _), h.walk_table2]
  have hiff := same_large_page kv ha
  by_cases hin : kv.toNat % 2 ^ 48 / 2 ^ 21 = a.toNat / 2 ^ 21 ∧ kp &&& 0x1FE000 = 0
  · obtain ⟨h4, h3, h2⟩ := hiff.mp hin.1
    rw [if_pos h4, if_pos h3, if_pos ⟨h2, hin.2⟩, if_pos hin]
    exact congrArg some (physicalIn_kernelEntry kp a)
  · rw [if_neg hin]
    split_ifs with h4 h3 h2
    · exact absurd ⟨hiff.mpr ⟨h4, h3, h2.1⟩, h2.2⟩ hin
    · rfl
    · rfl
    · rfl

/-- What it takes to reach an address of the lower half through itself. -/
theorem LowSpace.identity_iff (h : LowSpace kv kp m root) (ha : a.toNat < 2 ^ 52) :
    Identity m root a ↔ InKernelPage kv kp a := by
  unfold Identity access InKernelPage
  by_cases hlow : a.toNat < 2 ^ 47
  · have hcanon : Canonical a := Or.inl hlow
    rw [if_pos hcanon, h a hlow]
    have hsame : physicalIn 21 kp a = a.toNat ↔ kp.toNat % 2 ^ 52 / 2 ^ 21 = a.toNat / 2 ^ 21 := by
      unfold physicalIn
      omega
    split_ifs with hin
    · rw [Option.some.injEq, hsame]
      tauto
    · simp only [false_iff]
      tauto
  · have hcanon : ¬ Canonical a := by
      unfold Canonical
      omega
    rw [if_neg hcanon]
    exact ⟨fun hnone => absurd hnone.symm (Option.some_ne_none _), fun hin => absurd hin.1 hlow⟩

/-! ## The tree of the new root -/

/-- The two entries taken over from the boot table. -/
theorem NewSpace.root_copied (h : NewSpace m₀ m c root t₃ t₂ kv kp) (hi : i = 511 ∨ i = 256) :
    m root i = m₀ c i := by
  rw [h.rootTable]
  rcases hi with rfl | rfl
  · exact if_pos rfl
  · exact (if_neg (by decide)).trans (if_pos rfl)

/-- Below a slot that the boot table gave it, the new root leads where the boot table led. -/
theorem NewSpace.follow_boot (h : NewSpace m₀ m c root t₃ t₂ kv kp) (hi : i = 511 ∨ i = 256)
    (hq : q.length ≤ 3) : follow swChild m root (i :: q) = follow swChild m₀ c (i :: q) := by
  rw [← follow_congr h.boot (i :: q) (by rw [List.length_cons]; omega), follow_cons, follow_cons,
    h.root_copied hi, h.boot c root_mem_tables]

/-- A path through a table with one pointer. -/
theorem of_follow_one_pointer {k : Fin 512} (hg : g < 2 ^ 35)
    (htable : m f i = if i = k then tableEntry g else 0)
    (hf : follow swChild m f (i :: q) = some e) : i = k ∧ follow swChild m g q = some e := by
  split_ifs at htable with hi
  · rw [follow_cons, htable, (tableEntry_spec hg).2, Option.bind_some] at hf
    exact ⟨hi, hf⟩
  · rw [follow_cons, htable, swChild_zero] at hf
    cases hf

/-- Nothing is below the table of the kernel's page. -/
theorem NewSpace.table2_child (h : NewSpace m₀ m c root t₃ t₂ kv kp) (j : Fin 512) :
    swChild (m t₂ j) = none := by
  rw [h.table2]
  split_ifs
  · exact swChild_of_large (large_kernelEntry kp)
  · exact swChild_zero

/-- The tables of the new root: itself, the two of the kernel's page, and boot tables. -/
theorem NewSpace.follow_cases (h : NewSpace m₀ m c root t₃ t₂ kv kp) (hp : p.length ≤ 3)
    (hf : follow swChild m root p = some f) :
    p = [] ∧ f = root ∨ p = [indexAt 39 kv] ∧ f = t₃ ∨
    p = [indexAt 39 kv, indexAt 30 kv] ∧ f = t₂ ∨
    ∃ i q, (i = 511 ∨ i = 256) ∧ p = i :: q ∧ follow swChild m₀ c p = some f := by
  cases p with
  | nil => exact Or.inl ⟨rfl, (Option.some.inj hf).symm⟩
  | cons i q =>
    rw [List.length_cons] at hp
    by_cases hi : i = 511 ∨ i = 256
    · rw [h.follow_boot hi (by omega)] at hf
      exact Or.inr (Or.inr (Or.inr ⟨i, q, hi, rfl, hf⟩))
    · push Not at hi
      have hroot := h.rootTable i
      rw [if_neg hi.1, if_neg hi.2] at hroot
      obtain ⟨rfl, hf₃⟩ := of_follow_one_pointer h.t₃_limit hroot hf
      rcases q with - | ⟨j, r⟩
      · exact Or.inr (Or.inl ⟨rfl, (Option.some.inj hf₃).symm⟩)
      · obtain ⟨rfl, hf₂⟩ := of_follow_one_pointer h.t₂_limit (h.table3 j) hf₃
        rcases r with - | ⟨k, r⟩
        · exact Or.inr (Or.inr (Or.inl ⟨rfl, (Option.some.inj hf₂).symm⟩))
        · rw [follow_of_no_child h.table2_child (List.cons_ne_nil k r)] at hf₂
          cases hf₂

/-- A table that is none of the boot tables has one path only. -/
theorem NewSpace.follow_home (h : NewSpace m₀ m c root t₃ t₂ kv kp) :
    ∃ home : ℕ → List (Fin 512), ∀ p f, p.length ≤ 3 → follow swChild m root p = some f →
      f ∉ PageTables m₀ c ∧ p = home f ∨ follow swChild m₀ c p = some f := by
  have h3 : t₃ ≠ root := fun heq => h.t₃_fresh (Or.inl heq)
  have h2 : t₂ ≠ root := fun heq => h.t₂_fresh (Or.inr (Or.inl heq))
  have h32 : t₂ ≠ t₃ := fun heq => h.t₂_fresh (Or.inl heq)
  refine ⟨fun f => if f = root then [] else if f = t₃ then [indexAt 39 kv] else
    [indexAt 39 kv, indexAt 30 kv], fun p f hp hf => ?_⟩
  rcases h.follow_cases hp hf with ⟨rfl, rfl⟩ | ⟨rfl, rfl⟩ | ⟨rfl, rfl⟩ | ⟨_, _, _, _, hboot⟩
  · exact Or.inl ⟨h.root_fresh, (if_pos rfl).symm⟩
  · exact Or.inl ⟨fun hB => h.t₃_fresh (Or.inr hB), ((if_neg h3).trans (if_pos rfl)).symm⟩
  · exact Or.inl ⟨fun hB => h.t₂_fresh (Or.inr (Or.inr hB)), ((if_neg h2).trans (if_neg h32)).symm⟩
  · exact Or.inr hboot

/-- **The new root is a tree** if the boot table was. -/
theorem NewSpace.pageTree (h : NewSpace m₀ m c root t₃ t₂ kv kp)
    (hboot : PageTree anyLarge m₀ c) : PageTree anyLarge m root where
  separated := by
    intro p q f hp hq hpf hqf
    obtain ⟨home, hhome⟩ := h.follow_home
    rcases hhome p f hp hpf with ⟨hnew, rfl⟩ | hold <;>
      rcases hhome q f hq hqf with ⟨hnew', rfl⟩ | hold'
    · rfl
    · exact absurd (mem_tables hq hold') hnew
    · exact absurd (mem_tables hp hold) hnew'
    · exact hboot.separated p q f hp hq hold hold'
  entry := by
    intro p f i hp hf hpres hleaf
    have hlarge : large (m f i) = false := hleaf
    -- an entry that is zero or a pointer of `vmm_init`
    have hpointer : ∀ {k : Fin 512} {g : ℕ}, g < 2 ^ 35 →
        m f i = (if i = k then tableEntry g else 0) → m f i &&& physMask = 0 := by
      intro k g hg htable
      rw [htable]
      split_ifs
      · exact (tableEntry_spec hg).1
      · rfl
    rcases h.follow_cases hp.le hf with ⟨rfl, rfl⟩ | ⟨rfl, rfl⟩ | ⟨rfl, rfl⟩ | ⟨j, q, hj, rfl, hold⟩
    · have hroot := h.rootTable i
      by_cases hi : i = 511 ∨ i = 256
      · rw [h.root_copied hi] at hpres hleaf ⊢
        exact hboot.entry [] c i hp rfl hpres hleaf
      · push Not at hi
        rw [if_neg hi.1, if_neg hi.2] at hroot
        exact hpointer h.t₃_limit hroot
    · exact hpointer h.t₂_limit (h.table3 i)
    · have htable := h.table2 i
      split_ifs at htable
      · rw [htable, large_kernelEntry] at hlarge
        exact absurd hlarge.symm Bool.false_ne_true
      · rw [htable]
        rfl
    · have hB := mem_tables hp.le hold
      rw [h.boot f hB] at hpres hleaf ⊢
      exact hboot.entry (j :: q) f i hp hold hpres hleaf

/-! ## Later calls -/

/-- Steps down to a table change no translation. -/
theorem TableStep.translate_eq {fmt : Format} (hphys : fmt.Physical)
    (h : PageTree fmt s.mem root) (hs : TableStep fmt alloc flags root s s') (a : U64) :
    translate s'.mem root a = translate s.mem root a := by
  have hsteps : TableSteps fmt alloc flags root s s' := .single hs
  rw [translate, translate, (hsteps.pageTree h).pageWalk_eq hphys, h.pageWalk_eq hphys,
    hsteps.walk_eq h rfl]

/-- Translations depend on the tables only. -/
theorem PageTree.translate_congr {fmt : Format} (hphys : fmt.Physical) (h : PageTree fmt m₀ root)
    (hsame : ∀ f ∈ PageTables m₀ root, ∀ j, m f j = m₀ f j) (a : U64) :
    translate m root a = translate m₀ root a := by
  rw [translate, translate, (h.congr hsame).pageWalk_eq hphys, h.pageWalk_eq hphys,
    walk_congr fun q j r g hpath hg => hsame g (mem_tables ?_ hg) j]
  have hlen := congrArg List.length hpath
  rw [length_vpath, List.length_append, List.length_cons] at hlen
  omega

/-- The tables on the way along `path` lie in the kernel's page: those that are there, and
the frames the allocator returns for the others. -/
structure TablesIn (kernelVirtual kernelPhysical : U64) (alloc : Allocator α) (table : ℕ)
    (path : List (Fin 512)) (s : Machine α) : Prop where
  old : ∀ q g, q <+: path → follow swChild s.mem table q = some g →
    InKernelPage kernelVirtual kernelPhysical (frameAddr g)
  new : AllocsOn (fun s => InKernelPage kernelVirtual kernelPhysical (alloc s.mem s.pmm).1) alloc
    (ptePresent ||| pteReadwrite) (frameAddr table) path s

/-- Past a pointer the same tables are used. -/
theorem tablesIn_visit (h : PageTree anyLarge s.mem root) (hroot : root < 2 ^ 52)
    (hp : p.length < 3) (hf : follow swChild s.mem root p = some f)
    (hc : swChild (s.mem f i) = some g) :
    TablesIn kv kp alloc f (i :: path) s ↔ InKernelPage kv kp (frameAddr f) ∧
      TablesIn kv kp alloc g path (s.note (.visit (slotAddr f i) (frameAddr g))) := by
  have hcons : ∀ q, follow swChild s.mem f (i :: q) = follow swChild s.mem g q := by
    intro q
    rw [follow_cons, hc, Option.bind_some]
  have hvisit : vmmGetPagemap alloc (frameAddr f) (ofIndex i) (ptePresent ||| pteReadwrite) s = _ :=
    vmmGetPagemap_visit h hroot hp hf hc
  constructor
  · rintro ⟨hold, -, hnew⟩
    rw [hvisit] at hnew
    exact ⟨hold [] f List.nil_prefix rfl, fun q e hq he => hold (i :: q) e
      (List.prefix_cons_inj i |>.mpr hq) ((hcons q).trans he), hnew⟩
  · rintro ⟨hhead, hold, hnew⟩
    refine ⟨fun q e hq he => ?_, fun habs => ?_, hvisit ▸ hnew⟩
    · rcases q with - | ⟨j, q⟩
      · cases he
        exact hhead
      · obtain ⟨rfl, hq'⟩ := List.cons_prefix_cons.mp hq
        exact hold q e hq' ((hcons q).symm.trans he)
    · rw [s.entry_frameAddr (PageTree.lt_of_follow hroot hf), (of_swChild_eq_some hc).1] at habs
      exact absurd habs.symm Bool.false_ne_true

/-- Past an absent entry the next table is the frame the allocator returns. -/
theorem tablesIn_link (hroot : root < 2 ^ 52)
    (hl : LinkStep anyLarge alloc (ptePresent ||| pteReadwrite) root s s' p f i g)
    (heq : vmmGetPagemap alloc (frameAddr f) (ofIndex i) (ptePresent ||| pteReadwrite) s
      = (frameAddr g, s')) :
    TablesIn kv kp alloc f (i :: path) s ↔ InKernelPage kv kp (frameAddr f) ∧
      TablesIn kv kp alloc g path s' := by
  have habs : present (s.entry (frameAddr f) (ofIndex i)) = false := by
    rw [s.entry_frameAddr (PageTree.lt_of_follow hroot hl.link.table), hl.link.absent]
  constructor
  · rintro ⟨hold, hfirst, hnew⟩
    rw [heq] at hnew
    have hg : InKernelPage kv kp (frameAddr g) := hl.page ▸ hfirst habs
    refine ⟨hold [] f List.nil_prefix rfl, fun q e _ he => ?_, hnew⟩
    rcases q with - | ⟨j, q⟩
    · cases he
      exact hg
    · rw [follow_of_no_child hl.link.child_empty (List.cons_ne_nil j q)] at he
      cases he
  · rintro ⟨hhead, hold, hnew⟩
    have hfirst : InKernelPage kv kp (alloc s.mem s.pmm).1 :=
      hl.page.symm ▸ hold [] g List.nil_prefix rfl
    refine ⟨fun q e hq he => ?_, fun _ => hfirst, heq ▸ hnew⟩
    rcases q with - | ⟨j, q⟩
    · cases he
      exact hhead
    · obtain ⟨rfl, -⟩ := List.cons_prefix_cons.mp hq
      rw [follow_cons, swChild_of_absent hl.link.absent] at he
      cases he

/-- A table is reached through its own address exactly if it lies in the kernel's page. -/
theorem LowSpace.table_iff (hlow : LowSpace kv kp s.mem root) (hroot : root < 2 ^ 40)
    (h : PageTree anyLarge s.mem root) (hp : p.length ≤ 3)
    (hf : follow swChild s.mem root p = some f) :
    Identity s.mem root (frameAddr f) ↔ InKernelPage kv kp (frameAddr f) := by
  have hf40 := h.physical_of_follow anyLarge_physical hroot hp hf
  exact hlow.identity_iff (by rw [toNat_frameAddr] <;> omega)

/-- **The tables a walk uses.**  They are reached through their own addresses exactly if
they lie in the kernel's page. -/
theorem tableUses_iff (hroot : root < 2 ^ 40) (h : PageTree anyLarge s.mem root)
    (hlow : LowSpace kv kp s.mem root) (hf : follow swChild s.mem root p = some f)
    (hlen : p.length + path.length ≤ 3) (hclear : PathClear anyLarge s.mem root (p ++ path))
    (hall : AllocsOn (FreshPage anyLarge alloc root) alloc (ptePresent ||| pteReadwrite)
      (frameAddr f) path s) :
    (∀ u ∈ tableUses alloc (ptePresent ||| pteReadwrite) (frameAddr f) path s,
      Identity u.2.mem root u.1) ↔ TablesIn kv kp alloc f path s := by
  have hroot52 : root < 2 ^ 52 := by omega
  -- at each index the table in hand is one use, and the rest is used from the next one
  induction path generalizing p f s with
  | nil =>
    simp only [tableUses, List.forall_mem_singleton,
      hlow.table_iff hroot h (by simpa using hlen) hf]
    refine ⟨fun hin => ⟨fun q g hq hg => ?_, True.intro⟩,
      fun hin => hin.old [] f List.nil_prefix rfl⟩
    rw [List.prefix_nil.mp hq] at hg
    cases hg
    exact hin
  | cons i path ih =>
    rw [List.length_cons] at hlen
    have hp : p.length < 3 := by omega
    have happ : p ++ i :: path = (p ++ [i]) ++ path := by simp
    obtain ⟨hfirst, hrest⟩ := hall
    -- what is left to use after a call that comes to table `g`
    have key : ∀ {g : ℕ} {s₁ : Machine α},
        vmmGetPagemap alloc (frameAddr f) (ofIndex i) (ptePresent ||| pteReadwrite) s
          = (frameAddr g, s₁) →
        TableStep anyLarge alloc (ptePresent ||| pteReadwrite) root s s₁ →
        follow swChild s₁.mem root (p ++ [i]) = some g →
        ((∀ u ∈ tableUses alloc (ptePresent ||| pteReadwrite) (frameAddr g) path s₁,
          Identity u.2.mem root u.1) ↔ TablesIn kv kp alloc g path s₁) := by
      intro g s₁ heq hstep hg
      rw [heq] at hrest
      refine ih (hstep.pageTree h) ?_ hg ?_ ?_ hrest
      · intro a ha
        rw [hstep.translate_eq anyLarge_physical h, hlow a ha]
      · rw [List.length_append, List.length_singleton]
        omega
      · rw [← happ]
        refine hstep.pathClear h ?_ hclear
        rw [List.length_append, List.length_cons]
        omega
    simp only [tableUses, List.forall_mem_cons, hlow.table_iff hroot h hp.le hf]
    by_cases hpres : present (s.mem f i) = true
    · obtain ⟨_, hc⟩ := h.child hp hf hpres (hclear p i path f rfl hf hpres)
      have hvisit : vmmGetPagemap alloc (frameAddr f) (ofIndex i) (ptePresent ||| pteReadwrite) s
          = _ := vmmGetPagemap_visit h hroot52 hp hf hc
      rw [tablesIn_visit h hroot52 hp hf hc, hvisit,
        key hvisit (.visit hp hf hc) (by rw [Machine.note_mem, follow_concat_of_eq hf, hc])]
    · have habs : present (s.mem f i) = false := by simpa using hpres
      rw [s.entry_frameAddr (PageTree.lt_of_follow hroot52 hf)] at hfirst
      obtain ⟨g, s₁, heq, hl⟩ := vmmGetPagemap_link hroot52 hp hf habs (hfirst habs)
        (readwrite_linkFlags (by decide))
      rw [tablesIn_link hroot52 hl heq, heq, key heq (.link hl) (by
        rw [hl.link.follow_eq h (by rw [List.length_append, List.length_singleton]; omega),
          if_pos rfl])]

/-- The loop of `liballoc_alloc` makes such calls, -/
theorem heapRound_machine (h : Heap α) : (heapRound alloc root h).machine
    = mapData alloc root (h.kernelHeapTop + 4096) h.machine := rfl

/-- for addresses below the last entry of the root, -/
theorem indexAt_heap {top : U64} (hstart : kernelHeapStart.toNat ≤ top.toNat)
    (hfit : top.toNat + 4096 < 2 ^ 64) : indexAt 39 (top + 4096) = 511 := by
  have hadd : (top + 4096).toNat = top.toNat + 4096 := by
    simp only [BitVec.toNat_add, BitVec.ofNat_eq_ofNat, BitVec.toNat_ofNat]
    omega
  have hval : kernelHeapStart.toNat = 2 ^ 64 - 2 ^ 30 := rfl
  apply Fin.ext
  simp only [indexAt, hadd]
  show (top.toNat + 4096) / 2 ^ 39 % 512 = 511
  omega

/-- and the last table used is the one stored to. -/
theorem getLast?_tableUses (table : U64) (path : List (Fin 512)) (s : Machine α) :
    (tableUses alloc flags table path s).getLast? = some (descend alloc flags table path s) := by
  induction path generalizing table s with
  | nil => rfl
  | cons i path ih =>
    rw [tableUses, List.getLast?_cons, ih]
    rfl

/-! ## Runs -/

/-- A later call: for an address below the last entry of the root, as those of the heap are,
with no large page on its way and new frames for its tables. -/
structure DataCall (alloc : Allocator α) (root : ℕ) (s : Machine α) (v : U64) : Prop where
  high : indexAt 39 v = 511
  keeps : ∀ f ∈ PageTables s.mem root, ∀ j, (dataPage alloc s).mem f j = s.mem f j
  clear : PathClear anyLarge (dataPage alloc s).mem root (tablePath v)
  allocs : AllocsOn (FreshPage anyLarge alloc root) alloc (ptePresent ||| pteReadwrite)
    (frameAddr root) (tablePath v) (dataPage alloc s)

/-- The tree is well formed, and of the lower half the kernel's page is all there is. -/
structure Switched (kernelVirtual kernelPhysical : U64) (root : ℕ) (m : Mem) : Prop where
  tree : PageTree anyLarge m root
  low : LowSpace kernelVirtual kernelPhysical m root

theorem Switched.dataPage (h : Switched kv kp root s.mem) (hv : DataCall alloc root s v) :
    Switched kv kp root (dataPage alloc s).mem where
  tree := h.tree.congr hv.keeps
  low a ha := (h.tree.translate_congr anyLarge_physical hv.keeps a).trans (h.low a ha)

/-- One call changes nothing in the lower half. -/
theorem Switched.mapData (hroot : root < 2 ^ 52) (h : Switched kv kp root s.mem)
    (hv : DataCall alloc root s v) : Switched kv kp root (mapData alloc root v s).mem := by
  obtain ⟨htree, hlow⟩ := h.dataPage hv
  obtain ⟨htree', -, htr⟩ := mapAt_translate (i := indexAt 12 v)
    (x := (alloc s.mem s.pmm).1 ||| (ptePresent ||| pteReadwrite)) htree anyLarge_physical hroot
    (le_refl 3) hv.clear (hv.allocs.supplied (readwrite_linkFlags (by decide)))
    (storable_three _) (present_or _ rfl)
  rw [Vmm.mapData, vmmMap4Kpage_eq, Machine.note_mem]
  refine ⟨htree', fun a ha => ?_⟩
  -- an address of the lower half has another index in the root
  rw [htr, if_neg, hlow a ha]
  rintro ⟨r, hr⟩
  simp only [tablePath, vpath, List.cons_append, List.cons.injEq] at hr
  have h39 := congrArg Fin.val (hv.high.symm.trans hr.1)
  simp only [indexAt] at h39
  have h511 : ((511 : Fin 512) : ℕ) = 511 := rfl
  omega

/-- **Tables after the switch.**  The new root is reached through its own address exactly if
it lies in the kernel's page and that page is its own physical memory.  If the boot table is
a tree, then in every later call of every run the same holds of all tables the call uses. -/
theorem tables_reachable (kp : U64) (hc : c < 2 ^ 52)
    (h : InitFrames alloc (PageTables s₀.mem c) kv s₀ root t₃ t₂) :
    (Identity (vmmInit alloc (frameAddr c) kv kp s₀).2.mem root (frameAddr root) ↔
      InKernelPage kv kp (frameAddr root)) ∧
    (PageTree anyLarge s₀.mem c → ∀ vs s,
      Run (mapData alloc root) (DataCall alloc root) (vmmInit alloc (frameAddr c) kv kp s₀).2 vs s →
      ∀ v, DataCall alloc root s v →
        ((∀ u ∈ tableUses alloc (ptePresent ||| pteReadwrite) (frameAddr root) (tablePath v)
            (dataPage alloc s), Identity u.2.mem root u.1) ↔
          TablesIn kv kp alloc root (tablePath v) (dataPage alloc s))) := by
  have hlt := h.first.limit
  have hspace := (vmmInit_spec kp hc h).2
  have hroot : (frameAddr root).toNat < 2 ^ 52 := by
    rw [toNat_frameAddr] <;> omega
  refine ⟨hspace.lowSpace.identity_iff hroot, ?_⟩
  intro hboot vs s hrun v hv
  have hstep : ∀ (s : Machine α) v, Switched kv kp root s.mem → DataCall alloc root s v →
      Switched kv kp root (mapData alloc root v s).mem := fun s v hs hv => hs.mapData (by omega) hv
  have h₀ : Switched kv kp root (vmmInit alloc (frameAddr c) kv kp s₀).2.mem :=
    ⟨hspace.pageTree hboot, hspace.lowSpace⟩
  have hs : Switched kv kp root s.mem :=
    hrun.invariant (P := fun s => Switched kv kp root s.mem) h₀ hstep
  obtain ⟨htree, hlow⟩ := hs.dataPage hv
  exact tableUses_iff (by omega) htree hlow (p := []) rfl (le_refl 3) hv.clear hv.allocs

/-! ## Two kernels on the bare machine -/

theorem countUp_newFrame {s : Machine ℕ} (hpmm : s.pmm = g) (hpos : 0 < g) (hlimit : g < 2 ^ 35)
    (hfresh : g ∉ used) : NewFrame countUp used s g := by
  have hpage := countUp_of_lt (show s.pmm < 2 ^ 40 by omega) s.mem
  subst hpmm
  refine ⟨?_, hpos, hlimit, hfresh, fun f _ j => ?_⟩ <;> rw [hpage]

/-- The bare machine has an empty boot table in frame 1. -/
theorem bare_initFrames (hused : ∀ f ∈ used, f = 1)
    (h₃ : (vmmCreatePageTable countUp bare).2.pmm = 3)
    (h₂ : (vmmGetPagemap countUp (frameAddr 2) (ofIndex (indexAt 39 kv))
      (ptePresent ||| pteReadwrite) (vmmCreatePageTable countUp bare).2).2.pmm = 4) :
    InitFrames countUp used kv bare 2 3 4 := by
  refine ⟨countUp_newFrame rfl (by decide) (by decide) fun h => ?_,
    countUp_newFrame h₃ (by decide) (by decide) ?_,
    countUp_newFrame h₂ (by decide) (by decide) ?_⟩
  · exact absurd (hused 2 h) (by decide)
  · rintro (h | h)
    · exact absurd h (by decide)
    · exact absurd (hused 3 h) (by decide)
  · rintro (h | h | h)
    · exact absurd h (by decide)
    · exact absurd h (by decide)
    · exact absurd (hused 4 h) (by decide)

theorem bare_pageTables : ∀ f ∈ PageTables bare.mem 1, f = 1 := fun _ hf =>
  eq_root_of_empty (fun _ => rfl) hf

theorem bare_follow_le (h : NewSpace bare.mem m 1 2 3 4 kv kp) (hp : p.length ≤ 3)
    (hf : follow swChild m 2 p = some f) : f ≤ 4 := by
  rcases h.follow_cases hp hf with ⟨-, rfl⟩ | ⟨-, rfl⟩ | ⟨-, rfl⟩ | ⟨_, _, _, _, hold⟩
  · decide
  · decide
  · decide
  · rw [(follow_of_empty (fun _ => rfl) hold).2]
    decide

/-- The first page of the heap. -/
theorem bare_dataCall {s : Machine ℕ} (h : NewSpace bare.mem s.mem 1 2 3 4 kv kp)
    (hpmm : s.pmm = 5) : DataCall countUp 2 s 0xFFFFFFFFC0001000 := by
  have hpage := countUp_of_lt (show s.pmm < 2 ^ 40 by omega) s.mem
  have hmem : (dataPage countUp s).mem = s.mem := by rw [dataPage, hpage]
  have hnext : (dataPage countUp s).pmm = 6 := by rw [dataPage, hpage, hpmm]
  have htree := h.pageTree (pageTree_of_empty fun _ => rfl)
  have htables : ∀ f ∈ PageTables s.mem 2, f < 6 := fun f ⟨p, hp, hf⟩ => by
    have := bare_follow_le h hp hf
    omega
  have hclear : PathClear anyLarge s.mem 2 (tablePath 0xFFFFFFFFC0001000) :=
    onPath_of_absent (by
      rw [show indexAt 39 0xFFFFFFFFC0001000 = 511 by decide, h.rootTable, if_pos rfl]
      exact present_zero)
  refine ⟨by decide, fun f _ j => by rw [hmem], hmem ▸ hclear, ?_⟩
  exact countUp_allocsOn (fun _ => frameAddr_and_physMask) (readwrite_linkFlags (by decide))
    (hmem ▸ htree) (by decide) (le_refl 3) (hmem ▸ hclear) (by rw [hmem, hnext]; exact htables)
    (by rw [hnext]; decide) (by rw [hnext]; decide)

/-- A kernel at address 0, in the first 2 MiB with all its tables. -/
theorem tables_reachable_bare :
    Identity (vmmInit countUp (frameAddr 1) 0 0 bare).2.mem 2 (frameAddr 2) ∧
    ∀ u ∈ tableUses countUp (ptePresent ||| pteReadwrite) (frameAddr 2)
        (tablePath 0xFFFFFFFFC0001000)
        (dataPage countUp (vmmInit countUp (frameAddr 1) 0 0 bare).2),
      Identity u.2.mem 2 u.1 := by
  have hinit : InitFrames countUp (PageTables bare.mem 1) 0 bare 2 3 4 :=
    bare_initFrames bare_pageTables (by decide) (by decide)
  have hspace := (vmmInit_spec 0 (by decide) hinit).2
  have hcall := bare_dataCall hspace (by decide)
  have hpage : ∀ {g : ℕ}, g ≤ 4 → InKernelPage 0 0 (frameAddr g) := by
    intro g hle
    have haddr := toNat_frameAddr (f := g) (by omega)
    have hzero : (0 : U64).toNat = 0 := rfl
    refine ⟨?_, ?_, rfl, ?_⟩ <;> rw [haddr] <;> omega
  obtain ⟨hroot, hcalls⟩ := tables_reachable 0 (by decide) hinit
  refine ⟨hroot.mpr (hpage (by decide)),
    (hcalls (pageTree_of_empty fun _ => rfl) [] _ .start _ hcall).mpr ⟨fun q g hq hg => ?_,
      ⟨fun _ => by decide, fun _ => by decide, fun _ => by decide, True.intro⟩⟩⟩
  exact hpage (bare_follow_le (p := q) hspace hq.length_le hg)

/-- A kernel in the higher half does not reach its root. -/
theorem root_unreachable :
    ¬ ∀ (alloc : Allocator ℕ) (c root t₃ t₂ : ℕ) (kv kp : U64) (s₀ s : Machine ℕ) (vs : List U64)
      (v : U64), c < 2 ^ 52 → PageTree anyLarge s₀.mem c →
      InitFrames alloc (PageTables s₀.mem c) kv s₀ root t₃ t₂ →
      Run (mapData alloc root) (DataCall alloc root) (vmmInit alloc (frameAddr c) kv kp s₀).2 vs s →
      DataCall alloc root s v →
      ∀ u ∈ tableUses alloc (ptePresent ||| pteReadwrite) (frameAddr root) (tablePath v)
        (dataPage alloc s), Identity u.2.mem root u.1 := by
  intro hclaim
  have hinit : InitFrames countUp (PageTables bare.mem 1) 0xFFFFFFFF80000000 bare 2 3 4 :=
    bare_initFrames bare_pageTables (by decide) (by decide)
  have hspace := (vmmInit_spec 0x200000 (by decide) hinit).2
  have hcall := bare_dataCall hspace (by decide)
  have hroot := hclaim countUp 1 2 3 4 _ 0x200000 bare _ [] _ (by decide)
    (pageTree_of_empty fun _ => rfl) hinit .start hcall (frameAddr 2, _) List.mem_cons_self
  have hs : Switched 0xFFFFFFFF80000000 0x200000 2 _ :=
    ⟨hspace.pageTree (pageTree_of_empty fun _ => rfl), hspace.lowSpace⟩
  exact absurd (((hs.dataPage hcall).low.identity_iff (by decide)).mp hroot) (by decide)

end Vmm
