/-
# The kernel's own walk

`vmm_pagewalk` finds the physical page of a virtual address as the processor does, but it
always reads four entries and looks at no bit of them.

* `vmmPagewalk` : the code, with its tables read through the higher half;
* `vmmPagewalk_eq` : it follows four entries to a frame, whatever they are;
* `Built` : what the page tables are after mappings of any size in separate regions;
* `pagewalk_agrees_iff` : the walk finds the page of a small mapping; in a large one it takes
  the data for tables.
-/
import FzzOS.Mappers

open RadixTree Runs

namespace Vmm

variable {α : Type} {alloc : Allocator α} {flags v w p e x : U64} {m : Mem} {root f g : ℕ}
  {path q : List (Fin 512)} {s s₀ : Machine α}

/-! ## The code -/

/-- A word at a higher-half address: the address names the same frame. -/
def hhWord (m : Mem) (addr : U64) : U64 := m.word (hhDataToPhys addr)

/-- `vmm_pagewalk`. -/
def vmmPagewalk (vaddr cr3 : U64) (m : Mem) : U64 :=
  let pml4 := physToHhData cr3
  let vaddr := vaddr >>> 12
  let index1 := vaddr &&& 0x1ff
  let vaddr := vaddr >>> 9
  let index2 := vaddr &&& 0x1ff
  let vaddr := vaddr >>> 9
  let index3 := vaddr &&& 0x1ff
  let vaddr := vaddr >>> 9
  let index4 := vaddr &&& 0x1ff
  -- neither the present bit nor the page-size bit is looked at
  let pdpte := (physToHhData (hhWord m (pml4 + 8 * index4)) >>> 12) * 4096
  let pde := (physToHhData (hhWord m (pdpte + 8 * index3)) >>> 12) * 4096
  let pte := (physToHhData (hhWord m (pde + 8 * index2)) >>> 12) * 4096
  let pd := (physToHhData (hhWord m (pte + 8 * index1)) >>> 12) * 4096
  let pageaddr := hhDataToPhys pd
  let pageaddr := pageaddr >>> 12
  pageaddr * 4096

/-- The frame that entries lead to when each is taken for a pointer. -/
def blindWalk (m : Mem) : ℕ → List (Fin 512) → ℕ
  | f, [] => f
  | f, i :: path => blindWalk m (frameOf (m f i)) path

theorem toNat_physToHhData (a : U64) :
    (physToHhData a).toNat = (0xFFFF800000000000 + a.toNat) % 2 ^ 64 := by
  simp only [physToHhData, BitVec.toNat_add, BitVec.ofNat_eq_ofNat, BitVec.toNat_ofNat]

/-- The higher half is whole frames away. -/
theorem physToHhData_shiftRight (e : U64) :
    (physToHhData e >>> 12) * 4096 = physToHhData (frameAddr (frameOf e)) := by
  have hlt := e.isLt
  rw [shiftRight_mul_eq]
  apply BitVec.eq_of_toNat_eq
  rw [toNat_frameAddr (frameOf_lt _), toNat_physToHhData, toNat_frameAddr (frameOf_lt _), frameOf,
    frameOf, toNat_physToHhData]
  omega

/-- An entry read through the higher half. -/
theorem hhWord_slot (m : Mem) (hf : f < 2 ^ 52) (i : Fin 512) :
    hhWord m (physToHhData (frameAddr f) + 8 * ofIndex i) = m f i := by
  have haddr : hhDataToPhys (physToHhData (frameAddr f) + 8 * ofIndex i) = slotAddr f i := by
    unfold hhDataToPhys physToHhData slotAddr
    bv_omega
  rw [hhWord, haddr, Mem.word_slotAddr hf]

/-- **The kernel's walk** takes four entries for pointers. -/
theorem vmmPagewalk_eq (v : U64) (m : Mem) (hroot : root < 2 ^ 52) :
    vmmPagewalk v (frameAddr root) m = frameAddr (blindWalk m root (vpath v)) := by
  obtain ⟨h1, h2, h3, h4⟩ := index_shifts v
  simp only [vmmPagewalk, h1, h2, h3, h4, physToHhData_shiftRight, hhWord_slot m hroot,
    hhWord_slot m (frameOf_lt _), hhDataToPhys_physToHhData]
  rw [shiftRight_mul_eq, frameOf_frameAddr (frameOf_lt _)]
  rfl

theorem blindWalk_append (f : ℕ) (path q : List (Fin 512)) :
    blindWalk m f (path ++ q) = blindWalk m (blindWalk m f path) q := by
  induction path generalizing f with
  | nil => rfl
  | cons i path ih => exact ih _

/-- Where the entries are pointers it goes where they lead. -/
theorem blindWalk_of_follow (h : follow swChild m f path = some g) : blindWalk m f path = g := by
  induction path generalizing f with
  | nil => exact Option.some.inj h
  | cons i path ih =>
    rw [follow_cons] at h
    obtain ⟨f', hf', hrest⟩ := Option.bind_eq_some_iff.mp h
    rw [blindWalk, ← (of_swChild_eq_some hf').2.2]
    exact ih hrest

/-! ## Mappings in separate regions -/

/-- The 48 bits that are translated, from bit `k` on. -/
theorem mod_div_pow (x : ℕ) {k l : ℕ} (h : k + l = 48) :
    x % 2 ^ 48 / 2 ^ k = x / 2 ^ k % 2 ^ l := by
  rw [← h, pow_add, Nat.mod_mul_right_div_self]

/-- An index has nine bits. -/
theorem div_pow_add_nine (x k : ℕ) : x / 2 ^ (k + 9) = x / 2 ^ k / 512 := by
  rw [pow_add, Nat.div_div_eq_div_mul]
  rfl

/-- A call of one of the map functions. -/
structure SizedCall where
  mapper : Mapper
  virtual : U64
  physical : U64
  flags : U64

namespace SizedCall

/-- What a call does. -/
def apply (alloc : Allocator α) (root : ℕ) (c : SizedCall) (s : Machine α) : Machine α :=
  c.mapper.call alloc (frameAddr root) c.virtual c.physical c.flags s

/-- Address `w` lies in the page the call maps, by the 48 bits that are translated. -/
def Covers (c : SizedCall) (w : U64) : Prop :=
  w.toNat % 2 ^ 48 / 2 ^ c.mapper.shift = c.virtual.toNat % 2 ^ 48 / 2 ^ c.mapper.shift

/-- The two pages have no address in common. -/
def Apart (c d : SizedCall) : Prop := ∀ w, c.Covers w → ¬ d.Covers w

/-- An address aligned to the size of the page, access flags, and fresh frames for the tables
made. -/
structure Valid (alloc : Allocator α) (root : ℕ) (s : Machine α) (c : SizedCall) : Prop where
  aligned : c.physical.toNat % 2 ^ c.mapper.shift = 0
  flags : AccessFlags c.flags
  allocs : AllocsOn (FreshPage allPhysical alloc root) alloc c.flags (frameAddr root)
    (c.mapper.path c.virtual) s

/-- The entry stored. -/
def entry (c : SizedCall) : U64 := c.mapper.leafEntry c.physical c.flags

/-- The walks through the slot stored to are those of the page. -/
theorem covers_iff (c : SizedCall) (w : U64) : c.Covers w ↔
    c.mapper.path c.virtual ++ [indexAt c.mapper.shift c.virtual] <+: vpath w := by
  obtain ⟨k, v, p, flags⟩ := c
  cases k with
  | map4K =>
    simp only [Covers, Mapper.shift, Mapper.path, prefix_vpath_iff, pageOf, Fin.mk.injEq]
    omega
  | map2M =>
    simp only [Covers, Mapper.shift, Mapper.path, vpath, List.cons_append, List.nil_append,
      List.cons_prefix_cons, List.nil_prefix, and_true, indexAt, Fin.mk.injEq]
    have hupper := fun x => div_pow_add_nine x 30
    have hmiddle := fun x => div_pow_add_nine x 21
    rw [mod_div_pow _ (l := 27) rfl, mod_div_pow _ (l := 27) rfl, hupper, hupper, hmiddle,
      hmiddle]
    generalize w.toNat / 2 ^ 21 = x
    generalize v.toNat / 2 ^ 21 = y
    omega
  | map1G =>
    simp only [Covers, Mapper.shift, Mapper.path, vpath, List.cons_append, List.nil_append,
      List.cons_prefix_cons, List.nil_prefix, and_true, indexAt, Fin.mk.injEq]
    have hupper := fun x => div_pow_add_nine x 30
    rw [mod_div_pow _ (l := 18) rfl, mod_div_pow _ (l := 18) rfl, hupper, hupper]
    generalize w.toNat / 2 ^ 30 = x
    generalize v.toNat / 2 ^ 30 = y
    omega

end SizedCall

/-- **The page tables after some calls**: a tree in which the walks of each page end in the
entry its call stored, and all that is mapped lies in one of the pages. -/
structure Built (m : Mem) (root : ℕ) (calls : List SizedCall) : Prop where
  tree : PageTree allPhysical m root
  placed : ∀ c ∈ calls, ∀ w, c.Covers w → ∃ es,
    es.length = (c.mapper.path c.virtual).length ∧
    walk swChild leafAt m root (vpath w) = some (es ++ [c.entry])
  covered : ∀ w, translate m root w ≠ none → ∃ c ∈ calls, c.Covers w

variable {c : SizedCall} {calls : List SizedCall}

/-- One call more. -/
theorem Built.step (hroot : root < 2 ^ 52) (h : Built s.mem root calls)
    (hv : c.Valid alloc root s) (hapart : ∀ d ∈ calls, d.Apart c) :
    Built (c.apply alloc root s).mem root (calls ++ [c]) := by
  have hself : c.Covers c.virtual := rfl
  -- nothing is mapped in the page yet, so no large page is in the way
  have hunmapped : translate s.mem root c.virtual = none := by
    by_contra hcon
    obtain ⟨d, hd, hcov⟩ := h.covered _ hcon
    exact hapart d hd _ hcov hself
  have hclear : PathClear allPhysical s.mem root (c.mapper.path c.virtual) :=
    pathClear_of_unmapped h.tree hunmapped
      ((List.prefix_append _ _).trans (c.mapper.path_prefix c.virtual))
  have hlen := c.mapper.length_path_le c.virtual
  have hall := hv.allocs.supplied (hv.flags.linkFlags (by decide) (by decide))
  obtain ⟨hx, hleaf⟩ := Mapper.leafEntry_storable c.virtual hv.aligned hv.flags.present
    (hv.flags.toNat_lt (by decide))
  obtain ⟨htree, hwalk⟩ := mapAt_walk (i := indexAt c.mapper.shift c.virtual) h.tree hroot hlen
    hclear hall hx hleaf
  obtain ⟨-, -, htr⟩ := mapAt_translate (i := indexAt c.mapper.shift c.virtual) h.tree
    allPhysical_physical hroot hlen hclear hall hx hleaf
  rw [SizedCall.apply, Mapper.call_eq]
  refine ⟨htree, fun d hd w hw => ?_, fun w hw => ?_⟩
  · obtain ⟨hoff, hon⟩ := hwalk (vpath w) rfl
    rw [← c.covers_iff] at hoff hon
    rcases List.mem_append.mp hd with hd | hd
    · rw [hoff (hapart d hd w hw)]
      exact h.placed d hd w hw
    · rw [List.mem_singleton.mp hd] at hw ⊢
      exact hon hw
  · by_cases hcov : c.Covers w
    · exact ⟨c, List.mem_append_right calls (List.mem_singleton_self c), hcov⟩
    · have hsame := (htr w).trans (if_neg (mt (c.covers_iff w).mpr hcov))
      obtain ⟨d, hd, hdw⟩ := h.covered w (hsame ▸ hw)
      exact ⟨d, List.mem_append_left [c] hd, hdw⟩

/-- Every run of calls for separate pages. -/
theorem built_of_run (hroot : root < 2 ^ 52) (hempty : ∀ i, s₀.mem root i = 0)
    (hrun : Run (SizedCall.apply alloc root) (SizedCall.Valid alloc root) s₀ calls s)
    (hapart : calls.Pairwise SizedCall.Apart) : Built s.mem root calls := by
  induction hrun with
  | start =>
    exact ⟨pageTree_of_empty hempty, fun _ hc => absurd hc List.not_mem_nil,
      fun w hw => absurd (translate_of_zero (hempty _)) hw⟩
  | step _ hv ih =>
    obtain ⟨hcalls, -, hlast⟩ := List.pairwise_append.mp hapart
    exact (ih hcalls).step hroot hv fun d hd => hlast d hd _ (List.mem_singleton_self _)

/-! ## The two walks -/

/-- The kernel finds the base of the 4 KiB page the processor finds. -/
def Agrees (m : Mem) (root : ℕ) (v : U64) : Prop :=
  ∃ a, translate m root v = some a ∧
    (vmmPagewalk v (frameAddr root) m).toNat = a / 4096 * 4096

/-- A small page has a 52-bit physical address.  The data of a large page, read as the tables
that are not there, lead to the frame `v` lies in. -/
def Walkable (m : Mem) (v : U64) (c : SizedCall) : Prop :=
  match c.mapper with
  | .map4K => c.physical.toNat < 2 ^ 52
  | .map2M => frameOf (m (frameOf c.physical) (indexAt 12 v))
      = c.physical.toNat % 2 ^ 52 / 4096 + indexAt 12 v
  | .map1G => frameOf (m (frameOf (m (frameOf c.physical) (indexAt 21 v))) (indexAt 12 v))
      = c.physical.toNat % 2 ^ 52 / 4096 + 512 * indexAt 21 v + indexAt 12 v

/-- The page a call maps, as the processor finds it. -/
theorem physicalIn_entry (v : U64) (hp : c.physical.toNat % 2 ^ c.mapper.shift = 0)
    (hfl : AccessFlags c.flags) : physicalIn c.mapper.shift c.entry v
      = c.physical.toNat % 2 ^ 52 + v.toNat % 2 ^ c.mapper.shift ∧
    frameOf c.entry = frameOf c.physical := by
  have hsmall := c.mapper.leafFlags_lt (hfl.toNat_lt (by decide))
  have hal : Aligned c.physical := by
    unfold Aligned
    revert hp
    cases c.mapper <;> simp only [Mapper.shift] <;> omega
  rw [SizedCall.entry, Mapper.leafEntry, Mapper.address_of_aligned hp]
  refine ⟨?_, frameOf_or_flags hal hsmall⟩
  rw [physicalIn, toNat_or_flags hal hsmall]
  revert hp hsmall
  cases c.mapper <;> simp only [Mapper.shift] <;> omega

/-- Past the end of a lookup the kernel's walk goes on with what the last entry points to. -/
theorem blindWalk_of_walk {es : List U64}
    (h : walk swChild leafAt m root (vpath v) = some (es ++ [e])) :
    blindWalk m root (vpath v) = blindWalk m (frameOf e) ((vpath v).drop (es.length + 1)) := by
  obtain ⟨p₁, i, p₂, g, hpath, hlen, hfollow, hentry⟩ := exists_of_walk h
  have hdrop : (vpath v).drop (es.length + 1) = p₂ := by
    rw [hpath, ← hlen, List.drop_append, List.drop_of_length_le (Nat.le_succ _)]
    simp
  rw [hdrop, hpath, blindWalk_append, blindWalk_of_follow hfollow, blindWalk, hentry]

theorem blindWalk_lt (hf : f < 2 ^ 52) (path : List (Fin 512)) : blindWalk m f path < 2 ^ 52 := by
  induction path generalizing f with
  | nil => exact hf
  | cons i path ih => exact ih (frameOf_lt _)

/-- The two walks agree when they come to the same frame. -/
theorem agrees_iff {a : ℕ} (hroot : root < 2 ^ 52) (ha : translate m root v = some a) :
    Agrees m root v ↔ blindWalk m root (vpath v) = a / 4096 := by
  rw [Agrees, ha, vmmPagewalk_eq v m hroot, toNat_frameAddr (blindWalk_lt hroot _)]
  constructor
  · rintro ⟨b, hb, hbase⟩
    cases hb
    omega
  · intro hframe
    exact ⟨a, rfl, by omega⟩

/-- **When the kernel's walk is right.**  In every state built by mappings of separate regions
it agrees with the processor on an address of a page exactly if the page is a small one, or
the data of a large one happen to be what its tables would be. -/
theorem pagewalk_agrees_iff (hroot : root < 2 ^ 52) (hempty : ∀ i, s₀.mem root i = 0)
    (hrun : Run (SizedCall.apply alloc root) (SizedCall.Valid alloc root) s₀ calls s)
    (hapart : calls.Pairwise SizedCall.Apart) (hc : c ∈ calls) (hv : c.Covers v) :
    Agrees s.mem root v ↔ Walkable s.mem v c := by
  have hbuilt := built_of_run hroot hempty hrun hapart
  obtain ⟨es, hes, hwalk⟩ := hbuilt.placed c hc v hv
  obtain ⟨_, hvalid⟩ := hrun.exists_valid hc
  have hp := hvalid.aligned
  obtain ⟨hphys, hframe⟩ := physicalIn_entry v hp hvalid.flags
  have htr : translate s.mem root v
      = some (c.physical.toNat % 2 ^ 52 + v.toNat % 2 ^ c.mapper.shift) := by
    rw [translate_of_walk hbuilt.tree allPhysical_physical hwalk, hes, ← c.mapper.shift_eq, hphys]
  rw [agrees_iff hroot htr, blindWalk_of_walk hwalk, hes, hframe]
  -- what is left of the path depends on the size
  obtain ⟨k, v', p, flags⟩ := c
  have hlt := p.isLt
  cases k with
  | map4K =>
    simp only [Mapper.shift] at hp ⊢
    show frameOf p = _ ↔ p.toNat < 2 ^ 52
    unfold frameOf
    omega
  | map2M =>
    have hindex : (p.toNat % 2 ^ 52 + v.toNat % 2 ^ 21) / 4096
        = p.toNat % 2 ^ 52 / 4096 + indexAt 12 v := by
      simp only [Mapper.shift, indexAt] at hp ⊢
      omega
    simp only [Mapper.shift, hindex]
    rfl
  | map1G =>
    have hindex : (p.toNat % 2 ^ 52 + v.toNat % 2 ^ 30) / 4096
        = p.toNat % 2 ^ 52 / 4096 + 512 * indexAt 21 v + indexAt 12 v := by
      simp only [Mapper.shift, indexAt] at hp ⊢
      omega
    simp only [Mapper.shift, hindex]
    rfl

/-- A single call on the bare machine. -/
theorem bare_sizedRun {c : SizedCall} (haligned : c.physical.toNat % 2 ^ c.mapper.shift = 0)
    (hfl : AccessFlags c.flags) :
    Run (SizedCall.apply countUp 1) (SizedCall.Valid countUp 1) bare [c]
      (c.apply countUp 1 bare) :=
  .step .start ⟨haligned, hfl, bare_allocsOn (fun _ => frameAddr_and_physMask)
    (hfl.linkFlags (by decide) (by decide)) (c.mapper.length_path_le _)⟩

/-- A small page on the bare machine. -/
theorem pagewalk_agrees_map4K :
    Agrees (vmmMap4Kpage countUp (frameAddr 1) 0x400000 0x5000 3 bare).mem 1 0x400123 :=
  (pagewalk_agrees_iff (c := ⟨.map4K, 0x400000, 0x5000, 3⟩) (by decide) (fun _ => rfl)
    (bare_sizedRun (by decide) ⟨by decide, by decide⟩) (List.pairwise_singleton _ _)
    (List.mem_singleton_self _) (by unfold SizedCall.Covers; decide)).mpr
    (show (0x5000 : U64).toNat < 2 ^ 52 by decide)

/-- A large page of cleared memory: the walk ends in frame 0. -/
theorem large_page_walked_blindly :
    ¬ ∀ (alloc : Allocator ℕ) (root : ℕ) (s₀ s : Machine ℕ) (calls : List SizedCall)
      (c : SizedCall) (v : U64), root < 2 ^ 52 → (∀ i, s₀.mem root i = 0) →
      Run (SizedCall.apply alloc root) (SizedCall.Valid alloc root) s₀ calls s →
      calls.Pairwise SizedCall.Apart → c ∈ calls → c.Covers v → Agrees s.mem root v := by
  intro hclaim
  obtain ⟨a, ha, hbase⟩ := hclaim countUp 1 bare _ _ ⟨.map2M, 0x400000, 0x200000, 3⟩ 0x400000
    (by decide) (fun _ => rfl) (bare_sizedRun (by decide) ⟨by decide, by decide⟩)
    (List.pairwise_singleton _ _) (List.mem_singleton_self _) rfl
  have htr : translate (SizedCall.apply countUp 1 ⟨.map2M, 0x400000, 0x200000, 3⟩ bare).mem 1
      0x400000 = some 0x200000 := by decide
  have hzero : vmmPagewalk 0x400000 (frameAddr 1)
      (SizedCall.apply countUp 1 ⟨.map2M, 0x400000, 0x200000, 3⟩ bare).mem = 0 := by decide
  rw [hzero] at hbase
  rw [← Option.some.inj (htr.symm.trans ha)] at hbase
  exact absurd hbase (by decide)

end Vmm
