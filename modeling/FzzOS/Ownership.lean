/-
# Who owns a frame

The frame allocator and the page tables together: frames are allocated and freed directly,
and tables are made on demand inside the map calls, out of the same frames.

* `Joint` : the invariant over both modules, with the lists of table frames and of frames
  directly held;
* `Joint.tableStep`, `Joint.store`, `Joint.alloc`, `Joint.free` : it survives everything;
* `frame_ownership` : what it says in every state of every run.
-/
import FzzOS.PmmMemory
import FzzOS.Mapping

open ByteStore RadixTree Pmm Runs

namespace Vmm

/-! ## The system -/

/-- The calls: direct ones to the frame allocator, and those on the root table. -/
inductive FrameCall
  | alloc
  | free (page : U64)
  | paging (call : PageCall)

/-- The machine and the addresses directly held. -/
abbrev System := Machine (PmmInfo ℕ) × List U64

namespace FrameCall

/-- What a call does. -/
def apply (root : ℕ) : FrameCall → System → System
  | alloc, (s, held) =>
    let page := pmmAlloc s.mem s.pmm
    ({ s with mem := page.2.1, pmm := page.2.2 }, hold page.1 held)
  | free page, (s, held) => (pmmFree page s, held.erase page)
  | paging call, (s, held) => (call.apply pmmAlloc root s, held)

/-- Only held frames are freed, the flags are in order, and no allocation fails. -/
def Valid (root : ℕ) : System → FrameCall → Prop
  | (s, _), alloc => (pmmAlloc s.mem s.pmm).1 ≠ 0
  | (_, held), free page => page ∈ held
  | (s, _), paging (.map virtual _ flags) => MapFlags flags ∧
    AllocsOn (fun s => (pmmAlloc s.mem s.pmm).1 ≠ 0) pmmAlloc flags (frameAddr root)
      (tablePath virtual) s
  | _, paging (.unmap _) => True

end FrameCall

/-- A manager at rest: counter and bitmap agree, frame 0 is reserved, the clear bits stand
for frames with 64-bit addresses, and none of them holds a part of the bitmap. -/
structure Ready (s : Machine (PmmInfo ℕ)) : Prop where
  count : s.pmm.usedpages.toNat + (freeFrames (manager s)).card = s.pmm.totalpages.toNat
  nullUsed : bit (manager s).bitmap 0 = true
  frames : ∀ k ∈ freeFrames (manager s), k < 2 ^ 52
  apart : ∀ k ∈ freeFrames (manager s), ¬ InBitmap s.pmm k

/-! ## The invariant -/

/-- The frames that were free at the start are now free, tables, or directly held; the
tables are those made, and everything reachable is among them. -/
structure Joint (s₀ : Machine (PmmInfo ℕ)) (root : ℕ) (s : Machine (PmmInfo ℕ))
    (tables held : List ℕ) : Prop where
  owns : FirstFit.Owns (freeFrames (manager s₀)) ⟨freeFrames (manager s), tables ++ held⟩
  used : s.pmm.usedpages.toNat = s₀.pmm.usedpages.toNat + (tables.length + held.length)
  bitmap : s.pmm.bitmap = s₀.pmm.bitmap
  bitmapSize : s.pmm.bitmapSize = s₀.pmm.bitmapSize
  reached : ∀ f ∈ PageTables s.mem root, f ∈ tables
  created : tables.length = (createdPages s.log).length + 1

variable {s₀ s s' : Machine (PmmInfo ℕ)} {root f g k : ℕ} {tables held : List ℕ}
  {flags x : U64} {i : Fin 512} {p : List (Fin 512)}

namespace Joint

theorem inBitmap_iff (h : Joint s₀ root s tables held) (f : ℕ) :
    InBitmap s.pmm f ↔ InBitmap s₀.pmm f := by
  rw [InBitmap, InBitmap, h.bitmap, h.bitmapSize]

/-- Everything in play was free at the start. -/
theorem mem_start (h : Joint s₀ root s tables held) (hf : f ∈ tables ++ held) :
    f ∈ freeFrames (manager s₀) :=
  h.owns.mem_of_held hf

theorem table_apart (h₀ : Ready s₀) (h : Joint s₀ root s tables held) (hf : f ∈ tables) :
    ¬ InBitmap s.pmm f := by
  rw [h.inBitmap_iff]
  exact h₀.apart f (h.mem_start (List.mem_append_left held hf))

theorem free_lt (h₀ : Ready s₀) (h : Joint s₀ root s tables held) :
    ∀ k ∈ freeFrames (manager s), k < 2 ^ 52 :=
  fun k hk => h₀.frames k (h.owns.mem_of_free hk)

/-- An allocation that succeeds yields a page fit to become a table. -/
theorem freshPage (h₀ : Ready s₀) (h : Joint s₀ root s tables held)
    (hne : (pmmAlloc s.mem s.pmm).1 ≠ 0) : FreshPage smallPages pmmAlloc root s := by
  obtain ⟨k, hk, hpage, _, _, _, hmem⟩ := pmmAlloc_spec hne (h.free_lt h₀)
  have hk52 := h.free_lt h₀ k hk
  have hal := aligned_frameAddr hk52
  refine ⟨hne, hpage ▸ hal, ?_, ?_, ?_⟩
  · rw [hpage]
    exact and_eq_zero_of_aligned hal (by decide)
  · rw [hpage, frameOf_frameAddr hk52]
    exact fun hmem => h.owns.disjoint k
      (List.mem_append_left held (h.reached k hmem)) hk
  · exact fun f hf j => hmem f j (h.table_apart h₀ (h.reached f hf))

/-- A store into a table. -/
theorem store (h₀ : Ready s₀) (h : Joint s₀ root s tables held)
    (htree : PageTree smallPages s.mem root) (hf52 : f < 2 ^ 52) (hp : p.length = 3)
    (hf : follow swChild s.mem root p = some f) :
    Joint s₀ root (s.setEntry (frameAddr f) (ofIndex i) x) tables held := by
  have hft : f ∈ tables := h.reached f (mem_tables hp.le hf)
  -- the store misses the bitmap
  have hfree : freeFrames (manager (s.setEntry (frameAddr f) (ofIndex i) x))
      = freeFrames (manager s) := by
    refine freeFrames_congr fun e j he => ?_
    have hne : e ≠ f := fun heq => h.table_apart h₀ hft (heq ▸ he)
    rw [s.setEntry_mem hf52, if_neg (fun hc => hne hc.1)]
  have hst := stored_setEntry (i := i) (x := x) hf52 hp.le hf
  exact
    { owns := hfree ▸ h.owns
      used := h.used
      bitmap := h.bitmap
      bitmapSize := h.bitmapSize
      reached := fun e he =>
        h.reached e (hst.tables_subset htree (hp ▸ storable_three x) he)
      created := h.created }

/-- A step down to a table. -/
theorem tableStep (h₀ : Ready s₀) (htree : PageTree smallPages s.mem root)
    (h : Joint s₀ root s tables held)
    (hstep : TableStep smallPages pmmAlloc flags root s s') :
    ∃ tables', Joint s₀ root s' tables' held := by
  cases hstep with
  | visit =>
    exact ⟨tables, h.owns, h.used, h.bitmap, h.bitmapSize, h.reached, h.created⟩
  | @link _ p f i g hl =>
    obtain ⟨k, hk, hpage, hfree, hinfo, hused, hmem⟩ :=
      pmmAlloc_spec hl.fresh.ne_zero (h.free_lt h₀)
    have hkg : k = g := frameAddr_inj (h.free_lt h₀ k hk) hl.link.frame
      (hpage.symm.trans hl.page)
    subst hkg
    have hft : f ∈ tables := h.reached f (mem_tables hl.link.depth.le hl.link.table)
    have hk₀ : k ∈ freeFrames (manager s₀) := h.owns.mem_of_free hk
    -- neither the new page nor the table written lies in the bitmap
    have hpmm : s'.pmm = { s.pmm with usedpages := s.pmm.usedpages + 1 } := hl.pmm.trans hinfo
    have hsame : freeFrames (manager s') = (freeFrames (manager s)).erase k := by
      refine Eq.trans ?_ hfree
      rw [manager, hl.pmm]
      refine freeFrames_congr fun e j he => ?_
      rw [hinfo] at he
      have he' : InBitmap s.pmm e := he
      refine hl.mem e j (fun heq => ?_) (Or.inl fun heq => ?_)
      · exact h₀.apart k hk₀ ((h.inBitmap_iff k).mp (heq ▸ he'))
      · exact h.table_apart h₀ hft (heq ▸ he')
    refine ⟨k :: tables, ?_, ?_, ?_, ?_, fun e he => ?_, ?_⟩
    · rw [hsame]
      exact h.owns.take hk
    · have hu := h.used
      rw [hpmm, List.length_cons]
      show (s.pmm.usedpages + 1).toNat
        = s₀.pmm.usedpages.toNat + (tables.length + 1 + held.length)
      omega
    · rw [hpmm]
      exact h.bitmap
    · rw [hpmm]
      exact h.bitmapSize
    · rcases hl.link.tables_subset htree he with rfl | hmem
      · exact List.mem_cons_self ..
      · exact List.mem_cons_of_mem _ (h.reached e hmem)
    · rw [hl.log, List.length_cons, h.created]
      rfl

/-- Any number of steps. -/
theorem tableSteps (h₀ : Ready s₀) (htree : PageTree smallPages s.mem root)
    (h : Joint s₀ root s tables held)
    (hsteps : TableSteps smallPages pmmAlloc flags root s s') :
    PageTree smallPages s'.mem root ∧ ∃ tables', Joint s₀ root s' tables' held :=
  TableSteps.induct (P := fun s => ∃ tables', Joint s₀ root s tables' held) htree ⟨tables, h⟩
    (fun _ _ ht hj hstep => hj.elim fun _ hj => hj.tableStep h₀ ht hstep) hsteps

/-- The tables a change of memory outside them leaves alone. -/
theorem other_tables (h₀ : Ready s₀) (h : Joint s₀ root s tables held)
    (hmem : ∀ f j, ¬ InBitmap s.pmm f → s'.mem f j = s.mem f j) :
    ∀ f ∈ PageTables s.mem root, ∀ j, s'.mem f j = s.mem f j :=
  fun f hf j => hmem f j (h.table_apart h₀ (h.reached f hf))

/-- A direct allocation. -/
theorem alloc (h₀ : Ready s₀) (htree : PageTree smallPages s.mem root)
    (h : Joint s₀ root s tables held) (hne : (pmmAlloc s.mem s.pmm).1 ≠ 0)
    (hs' : s' = { s with mem := (pmmAlloc s.mem s.pmm).2.1, pmm := (pmmAlloc s.mem s.pmm).2.2 }) :
    PageTree smallPages s'.mem root ∧ ∃ k, k < 2 ^ 52 ∧
      (pmmAlloc s.mem s.pmm).1 = frameAddr k ∧ Joint s₀ root s' tables (k :: held) := by
  obtain ⟨k, hk, hpage, hfree, hinfo, hused, hmem⟩ := pmmAlloc_spec hne (h.free_lt h₀)
  have hsame : ∀ f ∈ PageTables s.mem root, ∀ j, s'.mem f j = s.mem f j :=
    h.other_tables h₀ fun f j hf => by rw [hs']; exact hmem f j hf
  have hpmm : s'.pmm = { s.pmm with usedpages := s.pmm.usedpages + 1 } := by
    rw [hs', ← hinfo]
  have hlog : s'.log = s.log := by rw [hs']
  have hfree' : freeFrames (manager s') = (freeFrames (manager s)).erase k := by
    rw [hs']
    exact hfree
  refine ⟨htree.congr hsame, k, h.free_lt h₀ k hk, hpage, ?_, ?_, ?_, ?_, fun e he => ?_, ?_⟩
  · rw [hfree']
    exact (h.owns.take hk).perm List.perm_middle.symm
  · have hu := h.used
    rw [hpmm, List.length_cons]
    show (s.pmm.usedpages + 1).toNat
      = s₀.pmm.usedpages.toNat + (tables.length + (held.length + 1))
    omega
  · rw [hpmm]
    exact h.bitmap
  · rw [hpmm]
    exact h.bitmapSize
  · rw [PageTree.tables_congr hsame] at he
    exact h.reached e he
  · rw [hlog]
    exact h.created

/-- A held frame freed. -/
theorem free (h₀ : Ready s₀) (htree : PageTree smallPages s.mem root)
    (h : Joint s₀ root s tables held) (hk : k ∈ held) :
    PageTree smallPages (pmmFree (frameAddr k) s).mem root ∧
    Joint s₀ root (pmmFree (frameAddr k) s) tables (held.erase k) := by
  have hkth : k ∈ tables ++ held := List.mem_append_right tables hk
  have hk₀ := h.mem_start hkth
  obtain ⟨hfree, hpmm, hlog, hmem⟩ := pmmFree_spec (s := s) (h₀.frames k hk₀)
    (by rw [h.bitmapSize]; exact (mem_clear.mp hk₀).1)
  have hsame := h.other_tables h₀ hmem
  -- a frame that is held is no table, so the list of tables stays
  have hnot : k ∉ tables := fun hkt =>
    (List.nodup_append.mp h.owns.nodup).2.2 k hkt k hk rfl
  have hpos := List.length_pos_of_mem hk
  have hu := h.used
  refine ⟨htree.congr hsame, ?_, ?_, ?_, ?_, fun e he => ?_, ?_⟩
  · have howns := h.owns.give hkth
    rw [List.erase_append_right _ hnot] at howns
    rw [hfree]
    exact howns
  · rw [hpmm, List.length_erase_of_mem hk]
    have hdec : (s.pmm.usedpages - 1).toNat = s.pmm.usedpages.toNat - 1 :=
      toNat_sub_one (by omega)
    show (s.pmm.usedpages - 1).toNat
      = s₀.pmm.usedpages.toNat + (tables.length + (held.length - 1))
    omega
  · rw [hpmm]
    exact h.bitmap
  · rw [hpmm]
    exact h.bitmapSize
  · rw [PageTree.tables_congr hsame] at he
    exact h.reached e he
  · rw [hlog]
    exact h.created

/-- A call of the map function. -/
theorem map (h₀ : Ready s₀) (hroot : root < 2 ^ 52) (htree : PageTree smallPages s.mem root)
    (h : Joint s₀ root s tables held) {v : U64} (physical : U64) (hfl : MapFlags flags)
    (hall : AllocsOn (fun s => (pmmAlloc s.mem s.pmm).1 ≠ 0) pmmAlloc flags (frameAddr root)
      (tablePath v) s) :
    PageTree smallPages (vmmMap4Kpage pmmAlloc (frameAddr root) v physical flags s).mem root ∧
    ∃ tables', Joint s₀ root (vmmMap4Kpage pmmAlloc (frameAddr root) v physical flags s)
      tables' held := by
  have hclear : PathClear smallPages s.mem root (tablePath v) := fun _ _ _ _ _ _ _ => rfl
  have hsup := supplied_of_invariant (J := fun _ s => ∃ tables, Joint s₀ root s tables held)
    (fun _ _ _ ht hj hstep => hj.elim fun _ hj => hj.tableStep h₀ ht hstep)
    (fun _ _ _ hj hne => ⟨hj.elim fun _ hj => hj.freshPage h₀ hne,
      hfl.linkFlags (by decide) (by decide)⟩)
    htree hroot (p := []) rfl (le_refl 3) hclear hall ⟨tables, h⟩
  obtain ⟨s₁, f, hsteps, hf52, hf, heq⟩ := mapAt_spec (i := indexAt 12 v)
    (x := physical ||| flags) htree hroot (le_refl 3) hclear hsup
  obtain ⟨htree₁, tables₁, h₁⟩ := h.tableSteps h₀ htree hsteps
  have hst := stored_setEntry (i := indexAt 12 v) (x := physical ||| flags) hf52 (le_refl 3) hf
  have hjoint := h₁.store (i := indexAt 12 v) (x := physical ||| flags) h₀ htree₁ hf52 rfl hf
  rw [vmmMap4Kpage_eq, heq]
  exact ⟨hst.pageTree htree₁ (storable_three _), tables₁, hjoint.owns, hjoint.used,
    hjoint.bitmap, hjoint.bitmapSize, hjoint.reached, hjoint.created⟩

/-- A call of the unmap function. -/
theorem unmap (h₀ : Ready s₀) (hroot : root < 2 ^ 52) (htree : PageTree smallPages s.mem root)
    (h : Joint s₀ root s tables held) (v : U64) :
    PageTree smallPages (vmmUnmapPage (frameAddr root) v s).mem root ∧
    ∃ tables', Joint s₀ root (vmmUnmapPage (frameAddr root) v s) tables' held := by
  obtain ⟨s₁, hsteps, hmem, _, hres⟩ := vmmUnmapPage_spec pmmAlloc 0 (v := v) htree hroot
    (fun _ _ _ _ _ _ _ => rfl)
  obtain ⟨htree₁, tables₁, h₁⟩ := h.tableSteps h₀ htree hsteps
  rcases hres with ⟨heq, _⟩ | ⟨f, hf52, hf, _, heq⟩
  · rw [heq]
    exact ⟨htree₁, tables₁, h₁⟩
  · rw [← hmem] at hf
    have hst := stored_setEntry (i := indexAt 12 v) (x := 0) hf52 (le_refl 3) hf
    rw [heq]
    exact ⟨hst.pageTree htree₁ (storable_three 0), tables₁, h₁.store h₀ htree₁ hf52 rfl hf⟩

end Joint

/-! ## Runs -/

/-- The state of a run: well-formed tables, the joint invariant, and the held addresses as
those of the held frames. -/
def Owned (s₀ : Machine (PmmInfo ℕ)) (root : ℕ) (s : System) : Prop :=
  PageTree smallPages s.1.mem root ∧
  ∃ tables held, Joint s₀ root s.1 tables held ∧ s.2 = held.map frameAddr

/-- Every call keeps the invariant. -/
theorem Owned.apply (h₀ : Ready s₀) (hroot : root < 2 ^ 52) {s : System} {c : FrameCall}
    (h : Owned s₀ root s) (hv : c.Valid root s) : Owned s₀ root (c.apply root s) := by
  obtain ⟨s, addrs⟩ := s
  obtain ⟨htree, tables, held, hj, rfl⟩ := h
  have hlt : ∀ k ∈ held, k < 2 ^ 52 := fun k hk =>
    h₀.frames k (hj.mem_start (List.mem_append_right tables hk))
  -- direct calls change the held frames, calls on the root the tables
  rcases c with _ | page | ⟨v, physical, flags⟩ | v
  · obtain ⟨htree', k, hk52, hpage, hj'⟩ := hj.alloc h₀ htree hv rfl
    refine ⟨htree', tables, k :: held, hj', ?_⟩
    have hne : (pmmAlloc s.mem s.pmm).1 ≠ 0 := hv
    rw [List.map_cons, ← hpage]
    simp only [FrameCall.apply, hold, if_neg hne]
  · obtain ⟨k, hk, rfl⟩ := exists_of_mem_map_frameAddr hv
    obtain ⟨htree', hj'⟩ := hj.free h₀ htree hk
    exact ⟨htree', tables, held.erase k, hj', map_frameAddr_erase (hlt k hk) hlt⟩
  · obtain ⟨hfl, hall⟩ := hv
    obtain ⟨htree', tables', hj'⟩ := hj.map h₀ hroot htree physical hfl hall
    exact ⟨htree', tables', held, hj', rfl⟩
  · obtain ⟨htree', tables', hj'⟩ := hj.unmap h₀ hroot htree v
    exact ⟨htree', tables', held, hj', rfl⟩

/-- An empty root table made on a manager at rest. -/
theorem Owned.start (h₀ : Ready s₀) (hlog : s₀.log = [])
    (hne : (vmmCreatePageTable pmmAlloc s₀).1 ≠ 0) :
    (vmmCreatePageTable pmmAlloc s₀).1 = frameAddr (frameOf (vmmCreatePageTable pmmAlloc s₀).1) ∧
    Owned s₀ (frameOf (vmmCreatePageTable pmmAlloc s₀).1)
      ((vmmCreatePageTable pmmAlloc s₀).2, []) := by
  have hpage : (pmmAlloc s₀.mem s₀.pmm).1 ≠ 0 := by
    intro hcon
    simp only [vmmCreatePageTable, if_pos hcon] at hne
    exact hne rfl
  obtain ⟨k, hk, haddr, hfree, hinfo, hused, hmem⟩ := pmmAlloc_spec hpage h₀.frames
  have hk52 := h₀.frames k hk
  have hcreate : vmmCreatePageTable pmmAlloc s₀ = (frameAddr k,
      { s₀ with
        mem := (pmmAlloc s₀.mem s₀.pmm).2.1.zeroPage (frameAddr k)
        pmm := (pmmAlloc s₀.mem s₀.pmm).2.2 }) := by
    rw [← haddr]
    simp only [vmmCreatePageTable, if_neg hpage]
  rw [hcreate, frameOf_frameAddr hk52]
  refine ⟨rfl, ?_⟩
  have hempty : ∀ j, (pmmAlloc s₀.mem s₀.pmm).2.1.zeroPage (frameAddr k) k j = 0 := by
    intro j
    rw [Mem.zeroPage_apply (aligned_frameAddr hk52), frameOf_frameAddr hk52, if_pos rfl]
  refine ⟨pageTree_of_empty hempty, [k], [], ?_, rfl⟩
  refine
    { owns := ?_
      used := ?_
      bitmap := by simp only [hinfo]
      bitmapSize := by simp only [hinfo]
      reached := fun f hf => List.mem_singleton.mpr (eq_root_of_empty hempty hf)
      created := ?_ }
  · have hsame : freeFrames (inMemory ((pmmAlloc s₀.mem s₀.pmm).2.1.zeroPage (frameAddr k))
        (pmmAlloc s₀.mem s₀.pmm).2.2) = (freeFrames (manager s₀)).erase k := by
      refine Eq.trans (freeFrames_congr fun f j hf => ?_) hfree
      rw [hinfo] at hf
      rw [Mem.zeroPage_apply (aligned_frameAddr hk52), frameOf_frameAddr hk52, if_neg]
      rintro rfl
      exact h₀.apart f hk hf
    have howns := (FirstFit.Owns.start (freeFrames (manager s₀))).take hk
    rw [← hsame] at howns
    exact howns
  · rw [hinfo]
    exact hused
  · rw [hlog]
    rfl

/-- **Frame ownership.**  In every state of every run from an empty root table, the tables
reachable from the root are marked used, have one path each and are disjoint from the
frames directly held; and `usedpages` counts the held frames and the tables made. -/
theorem frame_ownership {calls : List FrameCall} {s : System} (h₀ : Ready s₀)
    (hlog : s₀.log = []) (hne : (vmmCreatePageTable pmmAlloc s₀).1 ≠ 0)
    (hroot : root = frameOf (vmmCreatePageTable pmmAlloc s₀).1)
    (hrun : Run (FrameCall.apply root) (FrameCall.Valid root)
      ((vmmCreatePageTable pmmAlloc s₀).2, []) calls s) :
    (∀ f ∈ PageTables s.1.mem root,
      bit (manager s.1).bitmap f = true ∧ f ∉ s.2.map frameOf) ∧
    (∀ p q f, p.length ≤ 3 → q.length ≤ 3 → follow swChild s.1.mem root p = some f →
      follow swChild s.1.mem root q = some f → p = q) ∧
    s.1.pmm.usedpages.toNat
      = s₀.pmm.usedpages.toNat + s.2.length + ((createdPages s.1.log).length + 1) := by
  have hroot52 : root < 2 ^ 52 := hroot ▸ frameOf_lt _
  have hstart : Owned s₀ root ((vmmCreatePageTable pmmAlloc s₀).2, []) :=
    hroot ▸ (Owned.start h₀ hlog hne).2
  obtain ⟨htree, tables, held, hj, hheld⟩ :=
    hrun.invariant (P := Owned s₀ root) hstart fun _ _ h hv => h.apply h₀ hroot52 hv
  have hlt : ∀ k ∈ held, k < 2 ^ 52 := fun k hk =>
    h₀.frames k (hj.mem_start (List.mem_append_right tables hk))
  refine ⟨fun f hf => ?_, htree.separated, ?_⟩
  · have hft := List.mem_append_left held (hj.reached f hf)
    have hnotfree : f ∉ freeFrames (manager s.1) := hj.owns.disjoint f hft
    have hbound : f < 8 * s.1.pmm.bitmapSize.toNat := by
      rw [hj.bitmapSize]
      exact (mem_clear.mp (hj.mem_start hft)).1
    constructor
    · by_contra hcon
      exact hnotfree (mem_clear.mpr ⟨hbound, by simpa using hcon⟩)
    · rw [hheld, map_frameOf_map_frameAddr hlt]
      exact fun hfh => (List.nodup_append.mp hj.owns.nodup).2.2 f (hj.reached f hf) f hfh rfl
  · have hused := hj.used
    have hcreated := hj.created
    rw [hheld, List.length_map]
    omega

/-- Eight frames, with the bitmap in frame 0 and only that frame in use. -/
def eightFrames : Machine (PmmInfo ℕ) where
  mem f i := if f = 0 ∧ i = 0 then 1 else 0
  pmm := { totalmem := 0x8000, usedpages := 1, totalpages := 8, bitmap := 0, bitmapSize := 1 }
  log := []

theorem eightFrames_ready : Ready eightFrames where
  count := by decide
  nullUsed := by decide
  frames := by decide
  apart := by
    unfold InBitmap
    decide

/-- A frame allocated, a page mapped and the frame freed again: three tables and the root
stay in use. -/
theorem frame_ownership_eightFrames :
    (FrameCall.apply 1 (.free 0x2000) (FrameCall.apply 1 (.paging (.map 0x400000 0x5000 3))
      (FrameCall.apply 1 .alloc ((vmmCreatePageTable pmmAlloc eightFrames).2, [])))
      ).1.pmm.usedpages.toNat = 1 + 0 + (3 + 1) := by
  have halloc : Run (FrameCall.apply 1) (FrameCall.Valid 1)
      ((vmmCreatePageTable pmmAlloc eightFrames).2, []) [.alloc] _ :=
    .step .start (by unfold FrameCall.Valid; decide)
  have hmap : Run (FrameCall.apply 1) (FrameCall.Valid 1)
      ((vmmCreatePageTable pmmAlloc eightFrames).2, [])
      [.alloc, .paging (.map 0x400000 0x5000 3)] _ :=
    .step halloc ⟨⟨by decide, by decide⟩, fun _ => by decide, fun _ => by decide,
      fun _ => by decide, True.intro⟩
  have hfree : Run (FrameCall.apply 1) (FrameCall.Valid 1)
      ((vmmCreatePageTable pmmAlloc eightFrames).2, [])
      [.alloc, .paging (.map 0x400000 0x5000 3), .free 0x2000] _ :=
    .step hmap (by unfold FrameCall.Valid; decide)
  exact (frame_ownership eightFrames_ready rfl (by decide) (by decide) hfree).2.2

end Vmm
