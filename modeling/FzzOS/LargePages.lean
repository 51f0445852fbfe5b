/-
# A large page is its small pages

`vmm_map_2Mpage` and `vmm_map_1Gpage` put one entry where 512 calls for the next smaller
page build a table.  For the processor it is the same.

* `smallCalls_translate` : calls for slots of one table, in any order;
* `physicalIn_large` : the physical address in the large page is that in the small one;
* `large_page_eq_small_pages` : the translations are equal.
-/
import FzzOS.Mapping

open RadixTree Relation Runs

namespace Vmm

variable {α : Type} {fmt : Format} {alloc : Allocator α} {flags x v p w : U64} {m : Mem}
  {root f : ℕ} {path q : List (Fin 512)} {i : Fin 512} {s s' t : Machine α}

/-! ## Small pages in one table -/

/-- No large page lies on the path of an address that is not mapped. -/
theorem pathClear_of_unmapped (h : PageTree allPhysical m root)
    (hv : translate m root v = none) (hpath : path <+: vpath v) :
    PathClear allPhysical m root path := by
  rintro p i r f rfl hf hpres
  obtain ⟨r', hr'⟩ := hpath
  by_contra hcon
  have hleaf : leafAt (3 - p.length) (m f i) = true := Bool.eq_true_of_not_eq_false hcon
  have hlen := congrArg List.length hr'
  simp only [List.length_append, List.length_cons, length_vpath] at hlen
  -- the walk would end there
  have hwalk : walk swChild leafAt m root (vpath v)
      = some (entries swChild m root p ++ [m f i]) := by
    rw [← hr', List.append_assoc, List.cons_append, walk_through swChild_exclusive hf, walk_cons,
      List.length_append, show r.length + r'.length = 3 - p.length by omega, hleaf, if_pos rfl]
    rfl
  rw [translate_of_walk h allPhysical_physical hwalk] at hv
  cases hv

/-- The calls `call` store entry `y j` in slot `j` of the table at `path`. -/
structure SmallCalls (alloc : Allocator α) (flags : U64) (root : ℕ) (path : List (Fin 512))
    (y : Fin 512 → U64) (call : Fin 512 → Machine α → Machine α) : Prop where
  depth : path.length ≤ 3
  storable : ∀ j, Storable allPhysical path.length (y j)
  leaf : ∀ j, leafAt (3 - path.length) (y j) = true
  linkFlags : LinkFlags allPhysical flags
  mem : ∀ j s, (call j s).mem = (mapAt alloc flags (frameAddr root) path j (y j) s).mem

variable {y : Fin 512 → U64} {call : Fin 512 → Machine α → Machine α} {calls : List (Fin 512)}

/-- The allocations of a call for a page of the table at `path` succeed. -/
abbrev PathAllocs (alloc : Allocator α) (flags : U64) (root : ℕ) (path : List (Fin 512))
    (s : Machine α) : Prop :=
  AllocsOn (FreshPage allPhysical alloc root) alloc flags (frameAddr root) path s

/-- A well-formed tree without large pages on the way to the table at `path`. -/
def Open (root : ℕ) (path : List (Fin 512)) (m : Mem) : Prop :=
  PageTree allPhysical m root ∧ PathClear allPhysical m root path

/-- One call. -/
theorem SmallCalls.translate (hcalls : SmallCalls alloc flags root path y call)
    (hroot : root < 2 ^ 52) (h : Open root path s.mem)
    (hall : PathAllocs alloc flags root path s) (j : Fin 512) :
    Open root path (call j s).mem ∧
    (∃ f, follow swChild (call j s).mem root path = some f) ∧
    Vmm.translate (call j s).mem root = fun w =>
      if path ++ [j] <+: vpath w then some (physicalIn (12 + 9 * (3 - path.length)) (y j) w)
      else Vmm.translate s.mem root w := by
  obtain ⟨h', ⟨f, hf⟩, htr⟩ := mapAt_translate (i := j) h.1 allPhysical_physical hroot hcalls.depth
    h.2 (hall.supplied hcalls.linkFlags) (hcalls.storable j) (hcalls.leaf j)
  rw [hcalls.mem]
  exact ⟨⟨h', pathClear_of_follow hcalls.depth hf⟩, ⟨f, hf⟩, funext htr⟩

/-- Only one slot of a table is on a path. -/
theorem slot_unique {j k : Fin 512} (hj : path ++ [j] <+: q) (hk : path ++ [k] <+: q) : j = k := by
  have heq := (List.prefix_of_prefix_length_le hj hk (by simp)).eq_of_length (by simp)
  simpa using heq

/-- **All pages of one table, in any order.** -/
theorem smallCalls_translate (hcalls : SmallCalls alloc flags root path y call)
    (hroot : root < 2 ^ 52) (h : Open root path s.mem)
    (hperm : calls.Perm (List.finRange 512))
    (hrun : Run call (fun s _ => PathAllocs alloc flags root path s) s calls t) (w : U64) :
    (∀ j, path ++ [j] <+: vpath w →
      translate t.mem root w = some (physicalIn (12 + 9 * (3 - path.length)) (y j) w)) ∧
    (¬ path <+: vpath w → translate t.mem root w = translate s.mem root w) := by
  have hfold := congrFun (hrun.refines (P := fun s => Open root path s.mem)
    (fun s : Machine α => translate s.mem root)
    (fun j tr w => if path ++ [j] <+: vpath w then
      some (physicalIn (12 + 9 * (3 - path.length)) (y j) w) else tr w) h
    (fun _ j hs hv => (hcalls.translate hroot hs hv j).1)
    (fun _ j hs hv => (hcalls.translate hroot hs hv j).2.2)) w
  -- each address of the region is hit by the call for its own page only
  constructor
  · intro j hj
    rw [hfold, foldl_override (fun j w => path ++ [j] <+: vpath w)
      (fun j w => some (physicalIn (12 + 9 * (3 - path.length)) (y j) w)) _ w
      fun k _ hk => by rw [slot_unique hk hj], if_pos]
    exact ⟨j, hperm.mem_iff.mpr (List.mem_finRange j), hj⟩
  · intro hne
    rw [hfold, foldl_override (x := none) (fun j w => path ++ [j] <+: vpath w)
      (fun j w => some (physicalIn (12 + 9 * (3 - path.length)) (y j) w)) _ w
      fun k _ hk => absurd ((List.prefix_append path [k]).trans hk) hne, if_neg]
    rintro ⟨j, _, hj⟩
    exact hne ((List.prefix_append path [j]).trans hj)

/-! ## Addresses -/

/-- Page `j` of the `size` bytes large pages from `a` on. -/
def subpage (size a : U64) (j : Fin 512) : U64 := a + size * ofIndex j

theorem toNat_subpage4K {a : U64} (ha : a.toNat % 2 ^ 21 = 0) (j : Fin 512) :
    (subpage 4096 a j).toNat = a.toNat + 4096 * j := by
  have hj := j.isLt
  have hlt := a.isLt
  simp only [subpage, ofIndex, BitVec.toNat_add, BitVec.toNat_mul, BitVec.toNat_ofNat,
    BitVec.ofNat_eq_ofNat]
  omega

theorem toNat_subpage2M {a : U64} (ha : a.toNat % 2 ^ 30 = 0) (j : Fin 512) :
    (subpage 0x200000 a j).toNat = a.toNat + 0x200000 * j := by
  have hj := j.isLt
  have hlt := a.isLt
  simp only [subpage, ofIndex, BitVec.toNat_add, BitVec.toNat_mul, BitVec.toNat_ofNat,
    BitVec.ofNat_eq_ofNat]
  omega

/-- The pages of a 2 MiB region share their last table. -/
theorem vpath_subpage4K (hv : v.toNat % 2 ^ 21 = 0) (j : Fin 512) :
    tablePath (subpage 4096 v j) = tablePath v ∧ indexAt 12 (subpage 4096 v j) = j := by
  have hj := j.isLt
  have htoNat := toNat_subpage4K hv j
  simp only [tablePath, List.cons.injEq, and_true, indexAt, Fin.ext_iff, htoNat]
  omega

/-- The 2 MiB pages of a 1 GiB region share their last table. -/
theorem vpath_subpage2M (hv : v.toNat % 2 ^ 30 = 0) (j : Fin 512) :
    indexAt 39 (subpage 0x200000 v j) = indexAt 39 v ∧
    indexAt 30 (subpage 0x200000 v j) = indexAt 30 v ∧
    indexAt 21 (subpage 0x200000 v j) = j := by
  have hj := j.isLt
  have htoNat := toNat_subpage2M hv j
  simp only [indexAt, Fin.ext_iff, htoNat]
  omega

/-- The physical address in a page whose entry is an aligned address and low flags. -/
theorem physicalIn_or {n : ℕ} (hn : n = 12 ∨ n = 21 ∨ n = 30) {a fl : U64}
    (ha : a.toNat % 2 ^ n = 0) (hlimit : a.toNat < 2 ^ 52) (hfl : fl.toNat < 4096) (w : U64) :
    physicalIn n (a ||| fl) w = a.toNat + w.toNat % 2 ^ n := by
  have hal : Aligned a := by
    unfold Aligned
    rcases hn with rfl | rfl | rfl <;> omega
  rw [physicalIn, toNat_or_flags hal hfl]
  rcases hn with rfl | rfl | rfl <;> omega

/-- `PTE_PRESENT` with any of the bits 1 to 6. -/
abbrev LowFlags : U64 → Prop := FlagsWithin 0x7F

/-- With the page-size bit they are still below the address. -/
theorem LowFlags.or_pagesize_lt (h : LowFlags flags) : (flags ||| ptePagesize).toNat < 4096 := by
  rw [BitVec.toNat_or]
  exact lt_of_lt_of_le (Nat.or_lt_two_pow (n := 8) (h.toNat_lt (by decide)) (by decide))
    (by decide)

/-! ## Large pages -/

/-- A call of `vmm_map_4Kpage` for page `j` of the 2 MiB at `v`. -/
def map4KAt (alloc : Allocator α) (root : ℕ) (v p flags : U64) (j : Fin 512) (s : Machine α) :
    Machine α :=
  vmmMap4Kpage alloc (frameAddr root) (subpage 4096 v j) (subpage 4096 p j) flags s

/-- A call of `vmm_map_2Mpage` for page `j` of the 1 GiB at `v`. -/
def map2MAt (alloc : Allocator α) (root : ℕ) (v p flags : U64) (j : Fin 512) (s : Machine α) :
    Machine α :=
  vmmMap2Mpage alloc (frameAddr root) (subpage 0x200000 v j) (subpage 0x200000 p j) flags s

/-- A region of `2 ^ n` bytes that may be mapped: `v` and `p` are aligned to it, `p` stays
below `2 ^ 52`, and none of its addresses is mapped yet. -/
structure Region (m : Mem) (root n : ℕ) (v p : U64) : Prop where
  virtual : v.toNat % 2 ^ n = 0
  physical : p.toNat % 2 ^ n = 0
  limit : p.toNat + 2 ^ n ≤ 2 ^ 52
  unmapped : ∀ w : U64, v.toNat ≤ w.toNat → w.toNat < v.toNat + 2 ^ n →
    translate m root w = none

theorem Region.opened (h : PageTree allPhysical m root) {n : ℕ} (hr : Region m root n v p)
    (hpath : path <+: vpath v) : Open root path m :=
  ⟨h, pathClear_of_unmapped h
    (hr.unmapped v (le_refl _) (Nat.lt_add_of_pos_right (Nat.two_pow_pos n))) hpath⟩

theorem map4K_smallCalls (p : U64) (hfl : LowFlags flags) (hv : v.toNat % 2 ^ 21 = 0) :
    SmallCalls alloc flags root (tablePath v) (fun j => subpage 4096 p j ||| flags)
      (map4KAt alloc root v p flags) where
  depth := le_refl 3
  storable _ := storable_three _
  leaf _ := present_or _ hfl.present
  linkFlags := hfl.linkFlags (by decide) (by decide)
  mem j s := by
    rw [map4KAt, vmmMap4Kpage_eq, Machine.note_mem, (vpath_subpage4K hv j).1,
      (vpath_subpage4K hv j).2]

theorem map2M_smallCalls (hfl : LowFlags flags) (hv : v.toNat % 2 ^ 30 = 0)
    (hp : p.toNat % 2 ^ 30 = 0) :
    SmallCalls alloc flags root [indexAt 39 v, indexAt 30 v]
      (fun j => subpage 0x200000 p j ||| flags ||| ptePagesize)
      (map2MAt alloc root v p flags) := by
  have hal : ∀ j, (subpage 0x200000 p j).toNat % 2 ^ 21 = 0 := by
    intro j
    rw [toNat_subpage2M hp]
    omega
  have hsmall := hfl.toNat_lt (by decide : (0x7F : U64).toNat < 4096)
  constructor
  · simp
  · exact fun j => storable_large rfl (Or.inl rfl) (hal j) hfl.present hsmall
  · exact fun j => (large_page (Or.inl rfl) (hal j) hfl.present hsmall).1
  · exact hfl.linkFlags (by decide) (by decide)
  · intro j s
    obtain ⟨h39, h30, h21⟩ := vpath_subpage2M hv j
    rw [map2MAt, vmmMap2Mpage_eq, and_not_fff (hal j), h39, h30, h21]

/-- A large page at `path ++ [i]` and the small pages of the table that may stand there. -/
theorem largePage_translate (hcalls : SmallCalls alloc flags root (path ++ [i]) y call)
    (hroot : root < 2 ^ 52) (h : Open root (path ++ [i]) s.mem)
    (hall : PathAllocs alloc flags root path s)
    (hx : Storable allPhysical path.length x) (hleaf : leafAt (3 - path.length) x = true)
    (hsame : ∀ w j, path ++ [i] ++ [j] <+: vpath w →
      physicalIn (12 + 9 * (3 - path.length)) x w
        = physicalIn (12 + 9 * (3 - (path ++ [i]).length)) (y j) w)
    (hperm : calls.Perm (List.finRange 512))
    (hrun : Run call (fun s _ => PathAllocs alloc flags root (path ++ [i]) s) s calls t) (w : U64) :
    translate (mapAt alloc flags (frameAddr root) path i x s).mem root w
      = translate t.mem root w := by
  have hdepth := hcalls.depth
  rw [List.length_append, List.length_singleton] at hdepth
  obtain ⟨hin, hout⟩ := smallCalls_translate hcalls hroot h hperm hrun w
  rw [(mapAt_translate h.1 allPhysical_physical hroot (by omega) (h.2.mono (List.prefix_append _ _))
    (hall.supplied hcalls.linkFlags) hx hleaf).2.2]
  split_ifs with hw
  · -- the address lies in one of the small pages
    obtain ⟨r, hr⟩ := hw
    obtain ⟨j, r, rfl⟩ : ∃ j r', r = j :: r' := by
      refine List.exists_cons_of_ne_nil ?_
      rintro rfl
      have hlen := congrArg List.length hr
      rw [List.append_nil, List.length_append, List.length_singleton, length_vpath] at hlen
      omega
    have hj : path ++ [i] ++ [j] <+: vpath w := ⟨r, by rw [← hr, List.append_assoc _ [j]]; rfl⟩
    rw [hin j hj, hsame w j hj]
  · exact (hout hw).symm

/-- The small pages of a large page are the same addresses. -/
theorem physicalIn_large {k : ℕ} {j : Fin 512} {flags' : U64} {base : U64} (hk : k = 12 ∨ k = 21)
    (hp : p.toNat % 2 ^ (k + 9) = 0) (hlimit : p.toNat + 2 ^ (k + 9) ≤ 2 ^ 52)
    (hfl : flags.toNat < 4096) (hfl' : flags'.toNat < 4096)
    (hbase : base.toNat = p.toNat + 2 ^ k * j) (hw : indexAt k w = j) :
    physicalIn (k + 9) (p ||| flags) w = physicalIn k (base ||| flags') w := by
  have hj := j.isLt
  have hval : w.toNat / 2 ^ k % 512 = j := congrArg Fin.val hw
  rw [physicalIn_or (by omega) hp (by omega) hfl,
    physicalIn_or (by omega) (by rcases hk with rfl | rfl <;> omega)
      (by rcases hk with rfl | rfl <;> omega) hfl', hbase]
  rcases hk with rfl | rfl <;> omega

/-- **A large page is its small pages.**  On a well-formed tree, mapping an aligned region as
one 2 MiB page translates every address as 512 mappings of its 4 KiB pages do, in any order,
and one 1 GiB page as its 512 pages of 2 MiB.  What the entry of the large page held before
does not matter. -/
theorem large_page_eq_small_pages (hroot : root < 2 ^ 52) (h : PageTree allPhysical s.mem root)
    (hfl : LowFlags flags) :
    (∀ v p calls t, Region s.mem root 21 v p →
      PathAllocs alloc flags root [indexAt 39 v, indexAt 30 v] s →
      calls.Perm (List.finRange 512) →
      Run (map4KAt alloc root v p flags)
        (fun s _ => PathAllocs alloc flags root (tablePath v) s) s calls t →
      ∀ w, translate (vmmMap2Mpage alloc (frameAddr root) v p flags s).mem root w
        = translate t.mem root w) ∧
    ∀ v p calls t, Region s.mem root 30 v p →
      PathAllocs alloc flags root [indexAt 39 v] s →
      calls.Perm (List.finRange 512) →
      Run (map2MAt alloc root v p flags)
        (fun s _ => PathAllocs alloc flags root [indexAt 39 v, indexAt 30 v] s) s calls t →
      ∀ w, translate (vmmMap1Gpage alloc (frameAddr root) v p flags s).mem root w
        = translate t.mem root w := by
  have hsmall := hfl.toNat_lt (by decide : (0x7F : U64).toNat < 4096)
  -- the two sizes differ in the level and in how the address within the page is split
  constructor
  · intro v p calls t hregion hall hperm hrun w
    have hp := hregion.physical
    rw [vmmMap2Mpage_eq, and_not_fff hp]
    refine largePage_translate (map4K_smallCalls p hfl hregion.virtual) hroot
      (hregion.opened h (List.prefix_append _ [_])) hall
      (storable_large (k := 1) rfl (Or.inl rfl) hp hfl.present hsmall)
      (large_page (k := 1) (Or.inl rfl) hp hfl.present hsmall).1 ?_ hperm hrun w
    rintro w j ⟨r, hr⟩
    simp only [vpath, List.cons_append, List.nil_append, List.cons.injEq] at hr
    rw [BitVec.or_assoc]
    exact physicalIn_large (k := 12) (Or.inl rfl) hp hregion.limit hfl.or_pagesize_lt hsmall
      (toNat_subpage4K hp j) hr.2.2.2.1.symm
  · intro v p calls t hregion hall hperm hrun w
    have hp := hregion.physical
    rw [vmmMap1Gpage_eq]
    refine largePage_translate (map2M_smallCalls hfl hregion.virtual hp) hroot
      (hregion.opened h (List.prefix_append _ [_, _])) hall
      (storable_large (k := 2) rfl (Or.inr rfl) hp hfl.present hsmall)
      (large_page (k := 2) (Or.inr rfl) hp hfl.present hsmall).1 ?_ hperm hrun w
    rintro w j ⟨r, hr⟩
    simp only [vpath, List.cons_append, List.nil_append, List.cons.injEq] at hr
    rw [BitVec.or_assoc, BitVec.or_assoc]
    exact physicalIn_large (k := 21) (Or.inr rfl) hp hregion.limit hfl.or_pagesize_lt
      hfl.or_pagesize_lt (toNat_subpage2M hp j) hr.2.2.1.symm

/-- Once their table is there, calls for small pages allocate nothing. -/
theorem SmallCalls.extend (hcalls : SmallCalls alloc flags root path y call)
    (hroot : root < 2 ^ 52)
    (hrun : Run call (fun s _ => PathAllocs alloc flags root path s) s calls t)
    (h : PageTree allPhysical t.mem root) (hf : ∃ f, follow swChild t.mem root path = some f)
    (more : List (Fin 512)) :
    ∃ t', Run call (fun s _ => PathAllocs alloc flags root path s) s (calls ++ more) t' := by
  have hstep : ∀ (s : Machine α) j, (PageTree allPhysical s.mem root ∧
      ∃ f, follow swChild s.mem root path = some f) →
      PathAllocs alloc flags root path s ∧ PageTree allPhysical (call j s).mem root ∧
        ∃ f, follow swChild (call j s).mem root path = some f := by
    rintro s j ⟨h, f, hf⟩
    have hall : PathAllocs alloc flags root (path ++ []) s :=
      allocsOn_of_follow h hroot (p := []) rfl (by simpa using hcalls.depth) hf (Or.inl rfl)
    rw [List.append_nil] at hall
    obtain ⟨⟨h', _⟩, hf', _⟩ :=
      hcalls.translate hroot ⟨h, pathClear_of_follow hcalls.depth hf⟩ hall j
    exact ⟨hall, h', hf'⟩
  obtain ⟨t', hrun', _⟩ := hrun.extend hstep ⟨h, hf⟩ more
  exact ⟨t', hrun'⟩

/-- On the bare machine the pages of a table can be mapped in any order. -/
theorem SmallCalls.run_bare {call : Fin 512 → Machine ℕ → Machine ℕ}
    (hcalls : SmallCalls countUp flags 1 path y call) (calls : List (Fin 512)) :
    ∃ t, Run call (fun s _ => PathAllocs countUp flags 1 path s) bare calls t := by
  cases calls with
  | nil => exact ⟨_, .start⟩
  | cons j more =>
    have hall : PathAllocs countUp flags 1 path bare :=
      bare_allocsOn (fun _ => frameAddr_and_physMask) hcalls.linkFlags hcalls.depth
    have hopen : Open 1 path bare.mem := ⟨pageTree_of_empty fun _ => rfl, bare_onPath _ 1 path⟩
    obtain ⟨⟨h', _⟩, hf', _⟩ := hcalls.translate (by decide) hopen hall j
    exact hcalls.extend (by decide) (.step .start hall) h' hf' more

/-- On the bare machine every aligned region may be mapped. -/
theorem region_bare {n : ℕ} {v p : U64} (hv : v.toNat % 2 ^ n = 0) (hp : p.toNat % 2 ^ n = 0)
    (hlimit : p.toNat + 2 ^ n ≤ 2 ^ 52) : Region bare.mem 1 n v p where
  virtual := hv
  physical := hp
  limit := hlimit
  unmapped _ _ _ := translate_of_zero rfl

/-- A 2 MiB page and a 1 GiB page on the bare machine, against the small ones from the last
to the first. -/
theorem large_page_eq_small_pages_bare :
    (∃ t, Run (map4KAt countUp 1 0x40000000 0x80000000 0x7)
        (fun s _ => PathAllocs countUp 0x7 1 (tablePath 0x40000000) s) bare
        (List.finRange 512).reverse t ∧
      ∀ w, translate (vmmMap2Mpage countUp (frameAddr 1) 0x40000000 0x80000000 0x7 bare).mem 1 w
        = translate t.mem 1 w) ∧
    ∃ t, Run (map2MAt countUp 1 0x40000000 0x80000000 0x7)
        (fun s _ => PathAllocs countUp 0x7 1 [indexAt 39 0x40000000, indexAt 30 0x40000000] s)
        bare (List.finRange 512).reverse t ∧
      ∀ w, translate (vmmMap1Gpage countUp (frameAddr 1) 0x40000000 0x80000000 0x7 bare).mem 1 w
        = translate t.mem 1 w := by
  have hfl : LowFlags 0x7 := ⟨by decide, by decide⟩
  have hlink : LinkFlags allPhysical 0x7 := hfl.linkFlags (by decide) (by decide)
  have htree : PageTree allPhysical bare.mem 1 := pageTree_of_empty fun _ => rfl
  obtain ⟨t, ht⟩ := (map4K_smallCalls (v := 0x40000000) 0x80000000 hfl
    (by decide)).run_bare (List.finRange 512).reverse
  obtain ⟨t', ht'⟩ := (map2M_smallCalls (v := 0x40000000) (p := 0x80000000) hfl (by decide)
    (by decide)).run_bare (List.finRange 512).reverse
  exact ⟨⟨t, ht, (large_page_eq_small_pages (by decide) htree hfl).1 _ _ _ t
      (region_bare (by decide) (by decide) (by decide))
      (bare_allocsOn (fun _ => frameAddr_and_physMask) hlink (by decide)) (List.reverse_perm _) ht⟩,
    t', ht', (large_page_eq_small_pages (by decide) htree hfl).2 _ _ _ t'
      (region_bare (by decide) (by decide) (by decide))
      (bare_allocsOn (fun _ => frameAddr_and_physMask) hlink (by decide)) (List.reverse_perm _) ht'⟩

end Vmm
