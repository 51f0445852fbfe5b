/-
# 4 KiB mappings refine a finite map

On a tree of 4 KiB pages, `vmm_map_4Kpage` and `vmm_unmap_page` do to the processor's view
what updates do to a map from pages to entries.

* `mapAt_walk`, `mapAt_translate` : a map function changes the walks through its slot and
  no others;
* `map4K_spec`, `unmap_spec` : one call;
* `map_unmap_refines` : every run of calls is the fold of the updates.
-/
import FzzOS.TableSteps
import FzzOS.Runs
import Mathlib.Logic.Function.Basic

open RadixTree Relation Runs

namespace Vmm

variable {α : Type} {fmt : Format} {alloc : Allocator α} {flags x v w : U64}
  {m : Mem} {root : ℕ} {path q : List (Fin 512)} {i : Fin 512} {s s₀ s' : Machine α}

/-! ## What a map function leaves behind -/

/-- **Map functions and walks.**  The walks through the slot end in the entry stored; the
others are the same. -/
theorem mapAt_walk (h : PageTree fmt s.mem root) (hroot : root < 2 ^ 52)
    (hlen : path.length ≤ 3) (hclear : PathClear fmt s.mem root path)
    (hall : Supplied fmt alloc flags root (frameAddr root) path s)
    (hx : Storable fmt path.length x) (hleaf : leafAt (3 - path.length) x = true) :
    PageTree fmt (mapAt alloc flags (frameAddr root) path i x s).mem root ∧
    ∀ q, q.length = 4 →
      (¬ path ++ [i] <+: q →
        walk swChild leafAt (mapAt alloc flags (frameAddr root) path i x s).mem root q
          = walk swChild leafAt s.mem root q) ∧
      (path ++ [i] <+: q → ∃ es, es.length = path.length ∧
        walk swChild leafAt (mapAt alloc flags (frameAddr root) path i x s).mem root q
          = some (es ++ [x])) := by
  obtain ⟨s₁, f, hsteps, hf52, hf, heq⟩ := mapAt_spec (i := i) (x := x) h hroot hlen hclear hall
  have h₁ := hsteps.pageTree h
  have hst := stored_setEntry (i := i) (x := x) hf52 hlen hf
  rw [heq]
  refine ⟨hst.pageTree h₁ hx, fun q hq => ⟨fun hne => ?_, ?_⟩⟩
  · rw [hst.walk_off h₁ hq hne, hsteps.walk_eq h hq]
  · rintro ⟨r, rfl⟩
    rw [List.append_assoc, List.singleton_append] at hq ⊢
    rw [List.length_append, List.length_cons] at hq
    have hr : r.length = 3 - path.length := by omega
    exact ⟨_, length_entries (hst.table_after h₁), hst.walk_leaf h₁ (hr ▸ hleaf)⟩

/-- The translation by the walk of the kernel's view. -/
theorem translate_of_walk (h : PageTree fmt m root) (hphys : fmt.Physical) {es : List U64}
    (hwalk : walk swChild leafAt m root (vpath w) = some (es ++ [x])) :
    translate m root w = some (physicalIn (12 + 9 * (3 - es.length)) x w) := by
  rw [translate, h.pageWalk_eq hphys, hwalk, Option.bind_some, List.getLast?_concat,
    Option.map_some, pageShift, List.length_append, List.length_singleton,
    show 4 - (es.length + 1) = 3 - es.length by omega]

/-- **Map functions and translations.** -/
theorem mapAt_translate (h : PageTree fmt s.mem root) (hphys : fmt.Physical)
    (hroot : root < 2 ^ 52) (hlen : path.length ≤ 3) (hclear : PathClear fmt s.mem root path)
    (hall : Supplied fmt alloc flags root (frameAddr root) path s)
    (hx : Storable fmt path.length x) (hleaf : leafAt (3 - path.length) x = true) :
    PageTree fmt (mapAt alloc flags (frameAddr root) path i x s).mem root ∧
    (∃ f, follow swChild (mapAt alloc flags (frameAddr root) path i x s).mem root path = some f) ∧
    ∀ w, translate (mapAt alloc flags (frameAddr root) path i x s).mem root w
      = if path ++ [i] <+: vpath w then some (physicalIn (12 + 9 * (3 - path.length)) x w)
        else translate s.mem root w := by
  obtain ⟨h', hwalk⟩ := mapAt_walk (i := i) h hroot hlen hclear hall hx hleaf
  refine ⟨h', ?_, fun w => ?_⟩
  · -- the table stored to is still there
    obtain ⟨s₁, f, hsteps, hf52, hf, heq⟩ :=
      mapAt_spec (i := i) (x := x) h hroot hlen hclear hall
    rw [heq]
    exact ⟨f, (stored_setEntry hf52 hlen hf).table_after (hsteps.pageTree h)⟩
  · obtain ⟨hoff, hon⟩ := hwalk (vpath w) rfl
    split_ifs with hw
    · obtain ⟨es, hes, hentries⟩ := hon hw
      rw [translate_of_walk h' hphys hentries, hes]
    · rw [translate, translate, h'.pageWalk_eq hphys, h.pageWalk_eq hphys, hoff hw]

/-! ## One call -/

/-- `PTE_PRESENT`, and no bits but those of `allowed`. -/
structure FlagsWithin (allowed flags : U64) : Prop where
  present : present flags = true
  only : flags &&& ~~~allowed = 0

/-- `PTE_PRESENT`, and otherwise only bits 1 to 6 and 8. -/
abbrev MapFlags : U64 → Prop := FlagsWithin 0x17F

/-- `PTE_PRESENT` with any of `PTE_READWRITE` and `PTE_USER_SUPERVISOR`. -/
abbrev AccessFlags : U64 → Prop := FlagsWithin 7

theorem FlagsWithin.toNat_lt {allowed : U64} {n : ℕ} (h : FlagsWithin allowed flags)
    (hn : allowed.toNat < n) : flags.toNat < n :=
  lt_of_le_of_lt (toNat_le_of_and_not h.only) hn

theorem FlagsWithin.linkFlags {allowed : U64} (h : FlagsWithin allowed flags)
    (hsmall : allowed.toNat < 512) (hbad : allowed &&& fmt.bad = 0) : LinkFlags fmt flags where
  present := h.present
  small := h.toNat_lt hsmall
  good := by
    rw [← and_eq_self_of_and_not h.only, BitVec.and_assoc, hbad]
    exact BitVec.and_zero

/-- An entry with the present flag is present. -/
theorem present_or (physical : U64) (h : present flags = true) :
    present (physical ||| flags) = true := by
  rw [present] at h ⊢
  rw [BitVec.getLsbD_or, h, Bool.or_true]

theorem storable_three (x : U64) : Storable fmt 3 x := fun h => absurd h (lt_irrefl 3)

/-- What `vmm_map_4Kpage` does to the processor's view. -/
theorem map4K_spec (physical : U64) (h : PageTree fmt s.mem root) (hphys : fmt.Physical)
    (hroot : root < 2 ^ 52)
    (hclear : PathClear fmt s.mem root (tablePath v))
    (hall : Supplied fmt alloc flags root (frameAddr root) (tablePath v) s)
    (hpres : present flags = true) :
    PageTree fmt (vmmMap4Kpage alloc (frameAddr root) v physical flags s).mem root ∧
    ∀ w, mapped (vmmMap4Kpage alloc (frameAddr root) v physical flags s).mem root w
      = if pageOf w = pageOf v then some (physical ||| flags) else mapped s.mem root w := by
  obtain ⟨h', hwalk⟩ := mapAt_walk (i := indexAt 12 v) (x := physical ||| flags) h hroot
    (le_refl 3) hclear hall (storable_three _) (present_or _ hpres)
  rw [vmmMap4Kpage_eq, Machine.note_mem]
  refine ⟨h', fun w => ?_⟩
  obtain ⟨hoff, hon⟩ := hwalk (vpath w) rfl
  rw [prefix_vpath_iff] at hoff hon
  rw [h'.mapped_eq hphys]
  split_ifs with hw
  · obtain ⟨es, _, hes⟩ := hon hw
    rw [hes, Option.bind_some, List.getLast?_concat]
  · rw [hoff hw, h.mapped_eq hphys]

/-- What `vmm_unmap_page` does to the processor's view. -/
theorem unmap_spec (h : PageTree fmt s.mem root) (hphys : fmt.Physical) (hroot : root < 2 ^ 52)
    (hclear : PathClear fmt s.mem root (tablePath v)) :
    PageTree fmt (vmmUnmapPage (frameAddr root) v s).mem root ∧
    (∀ w, mapped (vmmUnmapPage (frameAddr root) v s).mem root w
      = if pageOf w = pageOf v then none else mapped s.mem root w) ∧
    (follow swChild s.mem root (tablePath v) = none →
      (vmmUnmapPage (frameAddr root) v s).mem = s.mem) := by
  obtain ⟨s₁, _, hmem, _, hres⟩ :=
    vmmUnmapPage_spec (fun m (a : α) => (0, m, a)) 0 h hroot hclear
  rcases hres with ⟨heq, habs⟩ | ⟨f, hf52, hf, hpres, heq⟩
  · rw [heq, hmem]
    refine ⟨h, fun w => ?_, fun _ => rfl⟩
    split_ifs with hw
    · -- the page had no translation before
      rw [h.mapped_eq hphys, (vpath_eq_iff w v).mpr hw, vpath_eq_append]
      cases hf : follow swChild s.mem root (tablePath v) with
      | none => rw [h.walk_none rfl (by simp) hclear hf, Option.bind_none]
      | some f =>
        have hnone := habs f hf
        rw [walk_append swChild_exclusive hf (by simp), RadixTree.walk_absent]
        · rfl
        · exact leafAt_of_absent hnone _
        · exact swChild_of_absent hnone
    · rfl
  · have h₁ : PageTree fmt s₁.mem root := hmem ▸ h
    have hst := stored_setEntry (i := indexAt 12 v) (x := 0) (s := s₁) hf52 (le_refl 3)
      (hmem ▸ hf)
    have h' := hst.pageTree h₁ (storable_three 0)
    rw [heq]
    refine ⟨h', fun w => ?_, fun hnone => ?_⟩
    · rw [h'.mapped_eq hphys]
      split_ifs with hw
      · rw [(vpath_eq_iff w v).mpr hw, vpath_eq_append, hst.walk_absent h₁ present_zero,
          Option.bind_none]
      · rw [hst.walk_off h₁ rfl (by rwa [prefix_vpath_iff]), hmem, h.mapped_eq hphys]
    · rw [hnone] at hf
      cases hf

/-! ## Runs -/

/-- The calls on one root. -/
inductive PageCall
  | map (virtual physical flags : U64)
  | unmap (virtual : U64)

namespace PageCall

/-- What a call does to the machine. -/
def apply (alloc : Allocator α) (root : ℕ) : PageCall → Machine α → Machine α
  | map virtual physical flags, s =>
    vmmMap4Kpage alloc (frameAddr root) virtual physical flags s
  | unmap virtual, s => vmmUnmapPage (frameAddr root) virtual s

/-- What a call is for: an update of a map from pages to entries. -/
def update : PageCall → (Page → Option U64) → Page → Option U64
  | map virtual physical flags, pages =>
    Function.update pages (pageOf virtual) (some (physical ||| flags))
  | unmap virtual, pages => Function.update pages (pageOf virtual) none

/-- The flags are in order, and every allocation returns a frame outside the tree. -/
def Valid (fmt : Format) (alloc : Allocator α) (root : ℕ) (s : Machine α) : PageCall → Prop
  | map virtual _ flags => MapFlags flags ∧
    AllocsOn (FreshPage fmt alloc root) alloc flags (frameAddr root) (tablePath virtual) s
  | unmap _ => True

end PageCall

/-- The pages of an address space and what they are mapped to. -/
def pageMap (m : Mem) (root : ℕ) (page : Page) : Option U64 := mapped m root (pageAddr page)

/-- A page's entry is the entry of each of its addresses. -/
theorem pageMap_pageOf (m : Mem) (root : ℕ) (v : U64) :
    pageMap m root (pageOf v) = mapped m root v := by
  have hpath := (vpath_eq_iff _ v).mpr (pageOf_pageAddr (pageOf v))
  rw [pageMap, mapped, mapped, pageWalk, pageWalk, hpath]

/-- Trees of 4 KiB pages have no large page on any path. -/
theorem smallPhysical_pathClear (m : Mem) (root : ℕ) (path : List (Fin 512)) :
    PathClear smallPhysical m root path := fun _ _ _ _ _ _ _ => rfl

theorem AllocsOn.supplied {table : U64} (hfl : LinkFlags fmt flags)
    (h : AllocsOn (FreshPage fmt alloc root) alloc flags table path s) :
    Supplied fmt alloc flags root table path s :=
  h.mono fun _ hs => ⟨hs, hfl⟩

/-- One call keeps the tree well formed and is an update of the map. -/
theorem PageCall.apply_spec (hroot : root < 2 ^ 52) {c : PageCall}
    (h : PageTree smallPhysical s.mem root) (hv : c.Valid smallPhysical alloc root s) :
    PageTree smallPhysical (c.apply alloc root s).mem root ∧
    pageMap (c.apply alloc root s).mem root = c.update (pageMap s.mem root) := by
  cases c with
  | map v physical flags =>
    obtain ⟨hfl, hall⟩ := hv
    obtain ⟨h', hmapped⟩ := map4K_spec physical h smallPhysical_physical hroot
      (smallPhysical_pathClear _ _ _) (hall.supplied (hfl.linkFlags (by decide) (by decide)))
      hfl.present
    refine ⟨h', ?_⟩
    funext page
    rw [PageCall.apply, pageMap, hmapped, PageCall.update, Function.update_apply,
      pageOf_pageAddr, pageMap]
  | unmap v =>
    obtain ⟨h', hmapped, _⟩ := unmap_spec (v := v) h smallPhysical_physical hroot
      (smallPhysical_pathClear _ _ _)
    refine ⟨h', ?_⟩
    funext page
    rw [PageCall.apply, pageMap, hmapped, PageCall.update, Function.update_apply,
      pageOf_pageAddr, pageMap]

/-- **4 KiB mapping refines a finite map.**  After any run of calls the processor finds
for each address what the updates leave for its page; and unmapping a page whose last
table is missing changes nothing. -/
theorem map_unmap_refines {calls : List PageCall} (hroot : root < 2 ^ 52)
    (h₀ : PageTree smallPhysical s₀.mem root)
    (hrun : Run (PageCall.apply alloc root) (PageCall.Valid smallPhysical alloc root) s₀ calls s) :
    (∀ v, mapped s.mem root v
      = calls.foldl (fun pages c => c.update pages) (pageMap s₀.mem root) (pageOf v)) ∧
    ∀ v, follow swChild s.mem root (tablePath v) = none →
      (vmmUnmapPage (frameAddr root) v s).mem = s.mem := by
  have hstep : ∀ (s : Machine α) c, PageTree smallPhysical s.mem root →
      PageCall.Valid smallPhysical alloc root s c →
      PageTree smallPhysical (c.apply alloc root s).mem root :=
    fun s c h hv => (PageCall.apply_spec hroot h hv).1
  have htree : PageTree smallPhysical s.mem root :=
    hrun.invariant (P := fun s => PageTree smallPhysical s.mem root) h₀ hstep
  have hsim : ∀ (s : Machine α) c, PageTree smallPhysical s.mem root →
      PageCall.Valid smallPhysical alloc root s c →
      pageMap (c.apply alloc root s).mem root = c.update (pageMap s.mem root) :=
    fun s c h hv => (PageCall.apply_spec hroot h hv).2
  have hmap := hrun.refines (P := fun s => PageTree smallPhysical s.mem root)
    (fun s : Machine α => pageMap s.mem root) PageCall.update h₀ hstep hsim
  constructor
  · intro v
    exact (pageMap_pageOf s.mem root v).symm.trans (congrFun hmap (pageOf v))
  · intro v hnone
    exact (unmap_spec htree smallPhysical_physical hroot (smallPhysical_pathClear _ _ _)).2.2
      hnone

/-- A machine with cleared memory and the frames from 2 on free. -/
def bare : Machine ℕ := ⟨fun _ _ => 0, 2, []⟩

/-- No entry is present there. -/
theorem bare_onPath (Q : ℕ → U64 → Prop) (root : ℕ) (path : List (Fin 512)) :
    OnPath Q bare.mem root path := fun _ _ _ _ _ _ hpres =>
  absurd (show present 0 = true from hpres) Bool.false_ne_true

theorem bare_allocsOn (hgood : ∀ n < 2 ^ 40, frameAddr n &&& fmt.bad = 0)
    (hfl : LinkFlags fmt flags) (hlen : path.length ≤ 3) :
    AllocsOn (FreshPage fmt countUp 1) countUp flags (frameAddr 1) path bare := by
  have hempty : ∀ i, bare.mem 1 i = 0 := fun _ => rfl
  have htree : PageTree fmt bare.mem 1 := pageTree_of_empty hempty
  have hlt : ∀ f ∈ PageTables bare.mem 1, f < bare.pmm := by
    intro f hf
    rw [eq_root_of_empty hempty hf]
    decide
  have hroom : bare.pmm + path.length ≤ 2 ^ 40 := by
    show 2 + path.length ≤ 2 ^ 40
    omega
  exact countUp_allocsOn hgood hfl htree (by decide) hlen (bare_onPath _ 1 path) hlt
    (by decide) hroom

/-- One page mapped and another unmapped on an empty root. -/
theorem map_unmap_refines_bare :
    mapped (vmmUnmapPage (frameAddr 1) 0x401000
      (vmmMap4Kpage countUp (frameAddr 1) 0x400000 0x5000 3 bare)).mem 1 0x400123
      = some 0x5003 := by
  have hmap : Run (PageCall.apply countUp 1) (PageCall.Valid smallPhysical countUp 1) bare
      [.map 0x400000 0x5000 3] _ :=
    .step .start ⟨⟨by decide, by decide⟩, bare_allocsOn (fun _ => frameAddr_and_physMask)
      ⟨by decide, by decide, by decide⟩ (le_refl 3)⟩
  have hunmap : Run (PageCall.apply countUp 1) (PageCall.Valid smallPhysical countUp 1) bare
      [.map 0x400000 0x5000 3, .unmap 0x401000] _ := .step hmap trivial
  exact ((map_unmap_refines (by decide) (pageTree_of_empty fun _ => rfl) hunmap).1
    0x400123).trans (by decide)

end Vmm
