/-
# Where the table code stores

The map functions descend by the present bit alone, so a large page on the way is taken
for a table and the store lands in its data.

* `TableCall` : map calls of the three sizes and unmap calls on one root;
* `Sound` : the tables of the tree, and the frames stored to, are the root and the tables
  created;
* `stores_in_tables` : it holds in every run in which no call meets a large page on its way
  down;
* `large_page_overwritten` : and not in every run.
-/
import FzzOS.Mapping

open RadixTree Relation Runs

namespace Vmm

variable {α : Type} {fmt : Format} {alloc : Allocator α} {flags x : U64} {root f : ℕ}
  {p path : List (Fin 512)} {i : Fin 512} {s s' s₀ : Machine α}

/-! ## Calls -/

/-- A call that writes to the page tables. -/
inductive TableCall
  | map1G (virtual physical flags : U64)
  | map2M (virtual physical flags : U64)
  | map4K (virtual physical flags : U64)
  | unmap (virtual : U64)

namespace TableCall

/-- What a call does. -/
def apply (alloc : Allocator α) (root : ℕ) : TableCall → Machine α → Machine α
  | map1G v p fl, s => vmmMap1Gpage alloc (frameAddr root) v p fl s
  | map2M v p fl, s => vmmMap2Mpage alloc (frameAddr root) v p fl s
  | map4K v p fl, s => vmmMap4Kpage alloc (frameAddr root) v p fl s
  | unmap v, s => vmmUnmapPage (frameAddr root) v s

/-- The indices down to the table the call writes to. -/
def route : TableCall → List (Fin 512)
  | map1G v _ _ => [indexAt 39 v]
  | map2M v _ _ => [indexAt 39 v, indexAt 30 v]
  | map4K v _ _ => tablePath v
  | unmap v => tablePath v

/-- Size-aligned addresses, access flags, and fresh frames for the tables made. -/
def Valid (alloc : Allocator α) (root : ℕ) (s : Machine α) : TableCall → Prop
  | map1G v p fl => p.toNat % 2 ^ 30 = 0 ∧ AccessFlags fl ∧
    AllocsOn (FreshPage allPages alloc root) alloc fl (frameAddr root) (map1G v p fl).route s
  | map2M v p fl => p.toNat % 2 ^ 21 = 0 ∧ AccessFlags fl ∧
    AllocsOn (FreshPage allPages alloc root) alloc fl (frameAddr root) (map2M v p fl).route s
  | map4K v p fl => Aligned p ∧ AccessFlags fl ∧
    AllocsOn (FreshPage allPages alloc root) alloc fl (frameAddr root) (map4K v p fl).route s
  | unmap _ => True

/-- No large page on the way down. -/
def Clear (root : ℕ) (s : Machine α) (c : TableCall) : Prop :=
  PathClear allPages s.mem root c.route

end TableCall

/-! ## The invariant -/

/-- Frame `f` is the root or that of a page `vmm_create_page_table` returned. -/
def IsTable (root : ℕ) (log : List Event) (f : ℕ) : Prop :=
  f = root ∨ f ∈ (createdPages log).map frameOf

instance (root : ℕ) (log : List Event) (f : ℕ) : Decidable (IsTable root log f) :=
  inferInstanceAs (Decidable (_ ∨ _))

/-- Tables of the tree and targets of stores are the root and the tables created. -/
structure Sound (root : ℕ) (s : Machine α) : Prop where
  tables : ∀ f ∈ PageTables s.mem root, IsTable root s.log f
  stores : ∀ a, .store a ∈ s.log → IsTable root s.log (frameOf a)

/-- Events are only added. -/
theorem IsTable.mono {log log' : List Event} (hsub : log <:+ log') (h : IsTable root log f) :
    IsTable root log' f := by
  obtain ⟨new, rfl⟩ := hsub
  rcases h with rfl | hmem
  · exact Or.inl rfl
  · refine Or.inr ?_
    rw [createdPages, List.filterMap_append, List.map_append]
    exact List.mem_append_right _ hmem

namespace Sound

/-- An event that is no store. -/
theorem note (h : Sound root s) {e : Event} (he : ∀ a, e ≠ .store a) : Sound root (s.note e) where
  tables f hf := (h.tables f hf).mono (List.suffix_cons _ _)
  stores a ha := by
    rcases List.mem_cons.mp ha with heq | ha
    · exact absurd heq.symm (he a)
    · exact (h.stores a ha).mono (List.suffix_cons _ _)

/-- A step down to a table. -/
theorem tableStep (htree : PageTree fmt s.mem root) (hroot : root < 2 ^ 52)
    (h : Sound root s) (hstep : TableStep fmt alloc flags root s s') : Sound root s' := by
  cases hstep with
  | visit => exact h.note (by simp)
  | @link _ _ f i g hl =>
    have hf52 := PageTree.lt_of_follow hroot hl.link.table
    have hsub : s.log <:+ s'.log := ⟨[_, _, _], hl.log.symm⟩
    have hnew : g ∈ (createdPages s'.log).map frameOf := by
      have hfront : frameOf (frameAddr g) ∈ (createdPages s'.log).map frameOf := by
        rw [hl.log]
        exact List.mem_cons_self ..
      rwa [frameOf_frameAddr hl.link.frame] at hfront
    have hf := (h.tables f (mem_tables hl.link.depth.le hl.link.table)).mono hsub
    -- the one new table is in the log, and the one store goes to the table above it
    constructor
    · intro e he
      rcases hl.link.tables_subset htree he with rfl | hmem
      · exact Or.inr hnew
      · exact (h.tables e hmem).mono hsub
    · intro a ha
      rw [hl.log] at ha
      simp only [List.mem_cons, reduceCtorEq, Event.store.injEq, false_or] at ha
      rcases ha with rfl | ha
      · rwa [frameOf_slotAddr hf52]
      · exact (h.stores a ha).mono hsub

theorem tableSteps (htree : PageTree fmt s.mem root) (hroot : root < 2 ^ 52)
    (h : Sound root s) (hsteps : TableSteps fmt alloc flags root s s') :
    PageTree fmt s'.mem root ∧ Sound root s' :=
  TableSteps.induct (P := Sound root) htree h
    (fun _ _ ht hs hstep => hs.tableStep ht hroot hstep) hsteps

/-- A store into a table of the tree. -/
theorem store (htree : PageTree fmt s.mem root) (h : Sound root s) (hf52 : f < 2 ^ 52)
    (hp : p.length ≤ 3) (hf : follow swChild s.mem root p = some f)
    (hx : Storable fmt p.length x) :
    PageTree fmt (s.setEntry (frameAddr f) (ofIndex i) x).mem root ∧
    Sound root (s.setEntry (frameAddr f) (ofIndex i) x) := by
  have hst := stored_setEntry (i := i) (x := x) hf52 hp hf
  have hsub : s.log <:+ (s.setEntry (frameAddr f) (ofIndex i) x).log := List.suffix_cons _ _
  refine ⟨hst.pageTree htree hx, fun e he => ?_, fun a ha => ?_⟩
  · exact (h.tables e (hst.tables_subset htree hx he)).mono hsub
  · rw [s.setEntry_log] at ha
    simp only [List.mem_cons, Event.store.injEq] at ha
    rcases ha with rfl | ha
    · rw [frameOf_slotAddr hf52]
      exact (h.tables f (mem_tables hp hf)).mono hsub
    · exact (h.stores a ha).mono hsub

/-- A map function on a clear path. -/
theorem mapAt (htree : PageTree fmt s.mem root) (hroot : root < 2 ^ 52) (h : Sound root s)
    (hlen : path.length ≤ 3) (hclear : PathClear fmt s.mem root path)
    (hall : Supplied fmt alloc flags root (frameAddr root) path s)
    (hx : Storable fmt path.length x) :
    PageTree fmt (mapAt alloc flags (frameAddr root) path i x s).mem root ∧
    Sound root (Vmm.mapAt alloc flags (frameAddr root) path i x s) := by
  obtain ⟨s₁, f, hsteps, hf52, hf, heq⟩ :=
    mapAt_spec (i := i) (x := x) htree hroot hlen hclear hall
  obtain ⟨htree₁, h₁⟩ := h.tableSteps htree hroot hsteps
  rw [heq]
  exact h₁.store htree₁ hf52 hlen hf hx

/-- The unmap function on a clear path. -/
theorem unmap (htree : PageTree fmt s.mem root) (hroot : root < 2 ^ 52) (h : Sound root s)
    {v : U64} (hclear : PathClear fmt s.mem root (tablePath v)) :
    PageTree fmt (vmmUnmapPage (frameAddr root) v s).mem root ∧
    Sound root (vmmUnmapPage (frameAddr root) v s) := by
  obtain ⟨s₁, hsteps, hmem, _, hres⟩ :=
    vmmUnmapPage_spec (fun m (a : α) => (0, m, a)) 0 htree hroot hclear
  obtain ⟨htree₁, h₁⟩ := h.tableSteps htree hroot hsteps
  rcases hres with ⟨heq, _⟩ | ⟨f, hf52, hf, _, heq⟩
  · rw [heq]
    exact ⟨htree₁, h₁⟩
  · rw [heq]
    exact h₁.store htree₁ hf52 (le_refl 3) (hmem ▸ hf) (storable_three 0)

end Sound

/-! ## Runs -/

/-- One call on a clear path. -/
theorem TableCall.apply_sound (hroot : root < 2 ^ 52) {c : TableCall}
    (h : PageTree allPages s.mem root ∧ Sound root s) (hv : c.Valid alloc root s)
    (hclear : c.Clear root s) :
    PageTree allPages (c.apply alloc root s).mem root ∧ Sound root (c.apply alloc root s) := by
  obtain ⟨htree, hsound⟩ := h
  have hlink : ∀ {fl}, AccessFlags fl → LinkFlags allPages fl :=
    fun hfl => hfl.linkFlags (by decide) (by decide)
  -- the three sizes differ in the depth of the table and in what is stored
  rcases c with ⟨v, p, fl⟩ | ⟨v, p, fl⟩ | ⟨v, p, fl⟩ | v
  · obtain ⟨hp, hfl, hall⟩ := hv
    rw [TableCall.apply, vmmMap1Gpage_eq]
    exact hsound.mapAt htree hroot (by simp) hclear (hall.supplied (hlink hfl))
      (storable_large rfl (Or.inr rfl) hp hfl.present (hfl.toNat_lt (by decide)))
  · obtain ⟨hp, hfl, hall⟩ := hv
    rw [TableCall.apply, vmmMap2Mpage_eq, and_not_fff hp]
    exact hsound.mapAt htree hroot (by simp) hclear (hall.supplied (hlink hfl))
      (storable_large rfl (Or.inl rfl) hp hfl.present (hfl.toNat_lt (by decide)))
  · obtain ⟨_, hfl, hall⟩ := hv
    obtain ⟨htree', hsound'⟩ := hsound.mapAt (i := indexAt 12 v) (x := p ||| fl) htree hroot
      (le_refl 3) hclear (hall.supplied (hlink hfl)) (storable_three _)
    rw [TableCall.apply, vmmMap4Kpage_eq]
    exact ⟨htree', hsound'.note (by simp)⟩
  · exact hsound.unmap htree hroot hclear

/-- **Stores go to tables.**  In every run from an empty root in which no call meets a large
page on its way down, every store goes to the root or to a table created. -/
theorem stores_in_tables {calls : List TableCall} (hroot : root < 2 ^ 52)
    (hempty : ∀ i, s₀.mem root i = 0) (hlog : s₀.log = [])
    (hrun : Run (TableCall.apply alloc root)
      (fun s c => c.Valid alloc root s ∧ c.Clear root s) s₀ calls s) :
    ∀ a, .store a ∈ s.log → IsTable root s.log (frameOf a) := by
  have h₀ : Sound root s₀ := by
    refine ⟨fun f hf => Or.inl (eq_root_of_empty hempty hf), fun a ha => ?_⟩
    rw [hlog] at ha
    exact absurd ha List.not_mem_nil
  exact (hrun.invariant (P := fun s => PageTree allPages s.mem root ∧ Sound root s)
    ⟨pageTree_of_empty hempty, h₀⟩
    fun _ _ h hv => TableCall.apply_sound hroot h hv.1 hv.2).2.stores

/-- One 2 MiB page mapped on the bare machine: its entry is stored in frame 3. -/
theorem stores_in_tables_bare :
    IsTable 1 (vmmMap2Mpage countUp (frameAddr 1) 0 0x200000 3 bare).log (frameOf 0x3000) := by
  have hrun : Run (TableCall.apply countUp 1)
      (fun s c => c.Valid countUp 1 s ∧ c.Clear 1 s) bare [.map2M 0 0x200000 3] _ :=
    .step .start ⟨⟨by decide, ⟨by decide, by decide⟩,
      bare_allocsOn (fun _ hn => tableMask_of_physMask _ (frameAddr_and_physMask hn))
        ⟨by decide, by decide, by decide⟩ (by decide)⟩,
      bare_onPath (fun k e => allPages.leaf (3 - k) e = false) 1 _⟩
  exact stores_in_tables (by decide) (fun _ => rfl) rfl hrun 0x3000 (by decide)

/-- A 4 KiB page mapped into a 2 MiB page: the store goes to the data at `0x200008`. -/
theorem large_page_overwritten :
    ¬ ∀ (alloc : Allocator ℕ) (root : ℕ) (s₀ s : Machine ℕ) (calls : List TableCall),
      root < 2 ^ 52 → (∀ i, s₀.mem root i = 0) → s₀.log = [] →
      Run (TableCall.apply alloc root) (TableCall.Valid alloc root) s₀ calls s →
      ∀ a, .store a ∈ s.log → IsTable root s.log (frameOf a) := by
  intro hclaim
  have hlarge : Run (TableCall.apply countUp 1) (TableCall.Valid countUp 1) bare
      [.map2M 0 0x200000 3] _ :=
    .step .start ⟨by decide, ⟨by decide, by decide⟩,
      bare_allocsOn (fun _ hn => tableMask_of_physMask _ (frameAddr_and_physMask hn))
        ⟨by decide, by decide, by decide⟩ (by decide)⟩
  have hsmall : Run (TableCall.apply countUp 1) (TableCall.Valid countUp 1) bare
      [.map2M 0 0x200000 3, .map4K 0x1000 0x5000 3] _ :=
    .step hlarge ⟨by decide, ⟨by decide, by decide⟩, fun h => absurd h (by decide),
      fun h => absurd h (by decide), fun h => absurd h (by decide), True.intro⟩
  exact absurd (hclaim countUp 1 bare _ _ (by decide) (fun _ => rfl) rfl hsmall 0x200008
    (by decide)) (by decide)

end Vmm
