/-
# The dump of the page tables

`vmm_PMLwalk` prints the present entries of all tables by four nested loops.  The innermost
loop takes its table from an entry of the third-level table, not of the second-level one.

* `vmmPmlWalk` : the code, as the list of the records printed;
* `listing` : what it should print, with `mem_listing_iff` for what that is;
* `Grown` : the trees that mappings build;
* `dump_eq_listing_iff` : the dump is right as long as nothing is mapped.
-/
import FzzOS.Permissions

open RadixTree Relation Runs

namespace Vmm

variable {α : Type} {alloc : Allocator α} {flags v x : U64} {m m' : Mem} {root f g : ℕ}
  {p path : List (Fin 512)} {i : Fin 512} {s s' s₀ : Machine α}

/-! ## The code -/

/-- A line of the dump: the level, the table's address, the index and the entry. -/
structure Record where
  level : ℕ
  table : U64
  index : Fin 512
  entry : U64
  deriving DecidableEq

/-- The loop over a table, with what is printed for each present entry. -/
def forPresent (m : Mem) (table : U64) (body : Fin 512 → U64 → List Record) : List Record :=
  (List.finRange 512).flatMap fun i =>
    if m.word (table + 8 * ofIndex i) &&& 1 ≠ 0 then body i (m.word (table + 8 * ofIndex i))
    else []

/-- `vmm_PMLwalk`. -/
def vmmPmlWalk (pagetable : U64) (m : Mem) : List Record :=
  forPresent m pagetable fun i e =>
    let pml3 := e &&& ~~~0x1FF
    ⟨4, pagetable, i, e⟩ :: forPresent m pml3 fun j e =>
      let pml2 := e &&& ~~~0x1FF
      ⟨3, pml3, j, e⟩ :: forPresent m pml2 fun k e =>
        -- entry `k` of the third-level table, though `k` counts the second-level one
        let pml1 := m.word (pml3 + 8 * ofIndex k) &&& ~~~0x1FF
        ⟨2, pml2, k, e⟩ :: forPresent m pml1 fun l e => [⟨1, pml1, l, e⟩]

/-- **What the dump is for**: the present entries of a table of some level in increasing
order, each followed by those of the table it points to. -/
def listing (m : Mem) : ℕ → ℕ → List Record
  | 0, _ => []
  | level + 1, f => (List.finRange 512).flatMap fun i =>
    if present (m f i) = true then
      ⟨level + 1, frameAddr f, i, m f i⟩ :: (swChild (m f i)).elim [] (listing m level)
    else []

/-- The loop over the table in a frame. -/
theorem mem_forPresent {body : Fin 512 → U64 → List Record} {r : Record} (hf : f < 2 ^ 52) :
    r ∈ forPresent m (frameAddr f) body ↔
      ∃ i, present (m f i) = true ∧ r ∈ body i (m f i) := by
  have hword : ∀ i, m.word (frameAddr f + 8 * ofIndex i) = m f i := fun i => Mem.word_slotAddr hf i
  simp only [forPresent, List.mem_flatMap, List.mem_finRange, true_and, hword,
    and_one_ne_zero_iff]
  refine exists_congr fun i => ?_
  split_ifs with hpres <;> simp [hpres]

/-- **The records to print** are the present entries of the tables reached by the paths. -/
theorem mem_listing_iff {n : ℕ} {r : Record} : r ∈ listing m n f ↔
    ∃ p g i, p.length < n ∧ follow swChild m f p = some g ∧ present (m g i) = true ∧
      r = ⟨n - p.length, frameAddr g, i, m g i⟩ := by
  induction n generalizing f with
  | zero => simp [listing]
  | succ n ih =>
    simp only [listing, List.mem_flatMap, List.mem_finRange, true_and]
    constructor
    · rintro ⟨i, hr⟩
      split_ifs at hr with hpres
      · rcases List.mem_cons.mp hr with rfl | hr
        · exact ⟨[], f, i, n.succ_pos, rfl, hpres, rfl⟩
        · cases hc : swChild (m f i) with
          | none =>
            rw [hc] at hr
            exact absurd hr List.not_mem_nil
          | some g =>
            rw [hc, Option.elim_some, ih] at hr
            obtain ⟨p, e, j, hp, he, hpres', rfl⟩ := hr
            refine ⟨i :: p, e, j, by rw [List.length_cons]; omega, ?_, hpres', ?_⟩
            · rw [follow_cons, hc]
              exact he
            · rw [List.length_cons, Nat.add_sub_add_right]
      · exact absurd hr List.not_mem_nil
    · rintro ⟨p, g, i, hp, hg, hpres, rfl⟩
      cases p with
      | nil =>
        cases hg
        exact ⟨i, by rw [if_pos hpres]; exact List.mem_cons_self⟩
      | cons j p =>
        rw [follow_cons] at hg
        obtain ⟨e, hc, hg⟩ := Option.bind_eq_some_iff.mp hg
        rw [List.length_cons] at hp
        refine ⟨j, ?_⟩
        rw [if_pos (of_swChild_eq_some hc).1, hc, Option.elim_some]
        refine List.mem_cons_of_mem _ (ih.mpr ⟨p, g, i, by omega, hg, hpres, ?_⟩)
        rw [List.length_cons, Nat.add_sub_add_right]

/-! ## The trees of 4 KiB mappings -/

/-- **Trees that mappings build.**  The absent entries of the upper tables are zero, and of
the tables only the root may lie in frame 0. -/
structure Grown (m : Mem) (root : ℕ) : Prop where
  tree : PageTree smallPhysical m root
  zero : ∀ p f i, p.length < 3 → follow swChild m root p = some f → present (m f i) = false →
    m f i = 0
  nonzero : ∀ p f, p ≠ [] → p.length ≤ 3 → follow swChild m root p = some f → f ≠ 0

theorem grown_of_empty (hempty : ∀ i, m root i = 0) : Grown m root where
  tree := pageTree_of_empty hempty
  zero := by
    intro p f i _ hf _
    rw [(follow_of_empty hempty hf).2, hempty]
  nonzero p f hp _ hf := absurd (follow_of_empty hempty hf).1 hp

/-- A new table. -/
theorem Grown.link (h : Grown s.mem root)
    (hl : LinkStep smallPhysical alloc flags root s s' p f i g) : Grown s'.mem root where
  tree := hl.link.pageTree h.tree
  zero := by
    intro q e j hq he habs
    rw [hl.link.follow_eq h.tree (by omega)] at he
    split_ifs at he with hqp
    · cases he
      exact hl.link.empty j
    · by_cases hslot : e = f ∧ j = i
      · -- this entry is present now
        obtain ⟨rfl, rfl⟩ := hslot
        rw [(of_swChild_eq_some hl.link.child_new).1] at habs
        exact absurd habs.symm Bool.false_ne_true
      · have hsame : s'.mem e j = s.mem e j :=
          hl.link.off e (mem_tables hq.le he) j (not_and_or.mp hslot)
        rw [hsame] at habs ⊢
        exact h.zero q e j hq he habs
  nonzero := by
    intro q e hne hq he
    rw [hl.link.follow_eq h.tree (by omega)] at he
    split_ifs at he with hqp
    · cases he
      rintro rfl
      exact hl.fresh.ne_zero hl.page
    · exact h.nonzero q e hne hq he

/-- A store into a last table. -/
theorem Grown.store (h : Grown m root) (hs : Stored root m m' p f i x) (hp : p.length = 3) :
    Grown m' root where
  tree := hs.pageTree h.tree (hp ▸ storable_three x)
  zero := by
    intro q e j hq he habs
    have he' := ((hs.follow_iff h.tree (hp ▸ storable_three x) hq.le).mp he).2
    have hef : e ≠ f := by
      rintro rfl
      have hqp := h.tree.separated q p e hq.le hp.le he' hs.table
      rw [hqp] at hq
      omega
    have hsame : m' e j = m e j := hs.off e (mem_tables hq.le he') j (Or.inl hef)
    rw [hsame] at habs ⊢
    exact h.zero q e j hq he' habs
  nonzero := by
    intro q e hne hq he
    exact h.nonzero q e hne hq ((hs.follow_iff h.tree (hp ▸ storable_three x) hq).mp he).2

/-- One call keeps all this, and its page is in the last table of its path. -/
theorem Grown.map (hroot : root < 2 ^ 52) {c : MapCall} (h : Grown s.mem root)
    (hv : c.Valid alloc root s) : Grown (c.apply alloc root s).mem root ∧
    ∃ f, follow swChild (c.apply alloc root s).mem root (tablePath c.virtual) = some f ∧
      present ((c.apply alloc root s).mem f (indexAt 12 c.virtual)) = true := by
  obtain ⟨s₁, f, hsteps, hf52, hf, heq⟩ := mapAt_spec (i := indexAt 12 c.virtual)
    (x := c.physical ||| c.flags) h.tree hroot (le_refl 3) (smallPhysical_pathClear _ _ _)
    (hv.allocs.supplied (hv.flags.linkFlags (by decide) (by decide)))
  have h₁ : Grown s₁.mem root := by
    refine (TableSteps.induct (P := fun s => Grown s.mem root) h.tree h ?_ hsteps).2
    intro t t' _ ht hstep
    cases hstep with
    | visit => exact ht
    | link hl => exact ht.link hl
  have hst := stored_setEntry (i := indexAt 12 c.virtual) (x := c.physical ||| c.flags) hf52
    (le_refl 3) hf
  rw [MapCall.apply, vmmMap4Kpage_eq, heq]
  refine ⟨h₁.store hst rfl, f, hst.table_after h₁.tree, ?_⟩
  rw [Machine.note_mem, hst.entry]
  exact present_or _ hv.flags.present

/-! ## The dump against the tree -/

/-- The last level of the dump comes from entries of third-level tables. -/
theorem table_of_mem_dump (hroot : root < 2 ^ 52) (h : Grown m root) {r : Record}
    (hr : r ∈ vmmPmlWalk (frameAddr root) m) (hlevel : r.level = 1) :
    ∃ i f k, follow swChild m root [i] = some f ∧ r.table = m f k &&& ~~~0x1FF := by
  have hchild : ∀ {p : List (Fin 512)} {f : ℕ} {i : Fin 512}, p.length < 3 →
      follow swChild m root p = some f → present (m f i) = true →
      m f i &&& ~~~0x1FF = frameAddr (frameOf (m f i)) ∧
        follow swChild m root (p ++ [i]) = some (frameOf (m f i)) := by
    intro p f i hp hf hpres
    obtain ⟨hbad, hc⟩ := h.tree.child hp hf hpres rfl
    exact ⟨and_not_1ff_eq (tableMask_of_physMask _ hbad), by rw [follow_concat_of_eq hf, hc]⟩
  obtain ⟨i, hi, hr⟩ := (mem_forPresent hroot).mp hr
  obtain ⟨htable₃, hf₃⟩ := hchild (p := []) (by simp) rfl hi
  rcases List.mem_cons.mp hr with rfl | hr
  · exact absurd hlevel (by simp)
  rw [htable₃] at hr
  obtain ⟨j, hj, hr⟩ := (mem_forPresent (frameOf_lt _)).mp hr
  obtain ⟨htable₂, -⟩ := hchild (by simp) hf₃ hj
  rcases List.mem_cons.mp hr with rfl | hr
  · exact absurd hlevel (by simp)
  rw [htable₂] at hr
  obtain ⟨k, hk, hr⟩ := (mem_forPresent (frameOf_lt _)).mp hr
  rcases List.mem_cons.mp hr with rfl | hr
  · exact absurd hlevel (by simp)
  obtain ⟨l, -, hr⟩ := List.mem_flatMap.mp hr
  split_ifs at hr
  · rw [List.mem_singleton.mp hr]
    refine ⟨i, frameOf (m root i), k, hf₃, ?_⟩
    rw [← Mem.word_slotAddr (m := m) (frameOf_lt (m root i)) k]
    rfl
  · exact absurd hr List.not_mem_nil

/-- A page that is mapped is in no dump. -/
theorem dump_ne_listing (hroot : root < 2 ^ 52) (h : Grown m root) (hpath : path.length = 3)
    (hg : follow swChild m root path = some g) (hpres : present (m g i) = true) :
    vmmPmlWalk (frameAddr root) m ≠ listing m 4 root := by
  intro heq
  have hg52 := PageTree.lt_of_follow hroot hg
  have hmem : (⟨1, frameAddr g, i, m g i⟩ : Record) ∈ listing m 4 root :=
    mem_listing_iff.mpr ⟨path, g, i, by omega, hg, hpres, by rw [hpath]⟩
  rw [← heq] at hmem
  obtain ⟨j, f, k, hf, htable⟩ := table_of_mem_dump hroot h hmem rfl
  have hlt : [j].length < 3 := by simp
  by_cases hk : present (m f k) = true
  · -- the table dumped is one of the second level
    obtain ⟨hbad, hc⟩ := h.tree.child hlt hf hk rfl
    have htable' : frameAddr g = frameAddr (frameOf (m f k)) :=
      htable.trans (and_not_1ff_eq (tableMask_of_physMask _ hbad))
    have hgf : g = frameOf (m f k) := frameAddr_inj hg52 (frameOf_lt _) htable'
    have hshort : follow swChild m root ([j] ++ [k]) = some g := by
      rw [follow_concat_of_eq hf, hc, hgf]
    have hpaths := h.tree.separated path ([j] ++ [k]) g hpath.le (by simp) hg hshort
    rw [hpaths] at hpath
    exact absurd hpath (by simp)
  · -- or frame 0
    rw [h.zero [j] f k hlt hf (by simpa using hk)] at htable
    have hg0 : g = 0 := frameAddr_inj hg52 (by decide) (htable.trans (by decide))
    exact h.nonzero path g (by rintro rfl; exact absurd hpath (by simp)) hpath.le hg hg0

/-- **When the dump is the tree.**  After any run of mappings from an empty root the records
are the present entries of the tables if and only if no page was mapped. -/
theorem dump_eq_listing_iff {calls : List MapCall} (hroot : root < 2 ^ 52)
    (hempty : ∀ i, s₀.mem root i = 0)
    (hrun : Run (MapCall.apply alloc root) (MapCall.Valid alloc root) s₀ calls s) :
    vmmPmlWalk (frameAddr root) s.mem = listing s.mem 4 root ↔ calls = [] := by
  cases hrun with
  | start =>
    refine iff_of_true ?_ rfl
    have hdump : vmmPmlWalk (frameAddr root) s.mem = [] := by
      refine List.eq_nil_iff_forall_not_mem.mpr fun r hr => ?_
      obtain ⟨i, hi, -⟩ := (mem_forPresent hroot).mp hr
      rw [hempty] at hi
      exact absurd hi Bool.false_ne_true
    have hlisting : listing s.mem 4 root = [] := by
      refine List.eq_nil_iff_forall_not_mem.mpr fun r hr => ?_
      obtain ⟨p, g, i, -, hg, hi, -⟩ := mem_listing_iff.mp hr
      rw [(follow_of_empty hempty hg).2, hempty] at hi
      exact absurd hi Bool.false_ne_true
    rw [hdump, hlisting]
  | @step calls s c hrun hv =>
    refine iff_of_false ?_ (by simp)
    have hs : Grown s.mem root := hrun.invariant (P := fun s => Grown s.mem root)
      (grown_of_empty hempty) fun _ _ ht hvt => (ht.map hroot hvt).1
    obtain ⟨hs', g, hg, hpres⟩ := hs.map hroot hv
    exact dump_ne_listing hroot hs' rfl hg hpres

/-- A page may be mapped into an empty root. -/
theorem bare_valid : MapCall.Valid countUp 1 bare ⟨0x400000, 0x5000, 3⟩ :=
  ⟨by decide, ⟨by decide, by decide⟩, bare_allocsOn (fun _ => frameAddr_and_physMask)
    ⟨by decide, by decide, by decide⟩ (le_refl 3)⟩

/-- The dump after the first page. -/
theorem dump_ne_listing_onePage :
    vmmPmlWalk (frameAddr 1) (MapCall.apply countUp 1 ⟨0x400000, 0x5000, 3⟩ bare).mem
      ≠ listing (MapCall.apply countUp 1 ⟨0x400000, 0x5000, 3⟩ bare).mem 4 1 := by
  have hrun : Run (MapCall.apply countUp 1) (MapCall.Valid countUp 1) bare
      [⟨0x400000, 0x5000, 3⟩] (MapCall.apply countUp 1 ⟨0x400000, 0x5000, 3⟩ bare) :=
    .step .start bare_valid
  intro heq
  have hcalls := (dump_eq_listing_iff (by decide) (fun _ => rfl) hrun).mp heq
  exact List.cons_ne_nil _ _ hcalls

/-- The first page mapped is left out. -/
theorem mapped_page_not_dumped :
    ¬ ∀ (alloc : Allocator ℕ) (root : ℕ) (s₀ s : Machine ℕ) (calls : List MapCall),
      root < 2 ^ 52 → (∀ i, s₀.mem root i = 0) →
      Run (MapCall.apply alloc root) (MapCall.Valid alloc root) s₀ calls s →
      vmmPmlWalk (frameAddr root) s.mem = listing s.mem 4 root := by
  intro hclaim
  have hroot : 1 < 2 ^ 52 := by decide
  have hempty : ∀ i, bare.mem 1 i = 0 := fun _ => rfl
  obtain ⟨hgrown, g, hg, hpres⟩ := (grown_of_empty hempty).map hroot bare_valid
  exact dump_ne_listing hroot hgrown rfl hg hpres
    (hclaim countUp 1 bare _ _ hroot hempty (.step .start bare_valid))

end Vmm
