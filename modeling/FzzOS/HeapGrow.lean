/-
# New blocks

`allocate_new_page` gets pages from the hook and makes a block without pieces of them.  The heap
grows by such a block when it has none yet, or behind the last one.

* `pagesFor` : how many pages it asks for, and that they are enough;
* `Fresh`, `Extended` : what a new block is, and the heap with it;
* `allocateNewPage_ends`, `memRoot_ends`, `append_ends` : the heap with a new block, or the heap
  as it was if the hook refuses.
-/
import FzzOS.HeapPlace

open StackWords ByteFields Packing DoubleLinks Program

namespace Liballoc

variable {μ : Type} {m : Platform μ} {Ok : μ → Prop} {image : μ → Image} {v v' : View}
  {L : Layout} {b c : Block} {size : U64}

/-! ## How many pages -/

/-- The pages that hold `st` bytes. -/
def pagesOver (st : U32) : U32 :=
  if st % lPageSize = 0 then st / lPageSize else st / lPageSize + 1

/-- The pages `allocate_new_page` asks for. -/
def pagesFor (size : U64) : U32 :=
  let st := pagesOver (size.setWidth 32 + Major.sizeof.setWidth 32 + Minor.sizeof.setWidth 32)
  if st < lPageCount then lPageCount else st

theorem toNat_pagesOver (st : U32) : (pagesOver st).toNat = (st.toNat + 4095) / 4096 := by
  have hmod : (st % lPageSize).toNat = st.toNat % 4096 := BitVec.toNat_umod
  have hdiv : (st / lPageSize).toNat = st.toNat / 4096 := BitVec.toNat_udiv
  have hlt := st.isLt
  unfold pagesOver
  split_ifs with hzero
  · rw [hzero] at hmod
    have hzero : (0 : U32).toNat = 0 := rfl
    omega
  · have hne : st.toNat % 4096 ≠ 0 := fun h => hzero (BitVec.eq_of_toNat_eq (hmod.trans h))
    have hone : (1 : U32).toNat = 1 := rfl
    rw [BitVec.toNat_add, hdiv, hone]
    omega

/-- The largest size for which the number of bytes of the pages fits an `unsigned int`. -/
def maxSize : ℕ := 2 ^ 32 - 4096 - 2 * headerSize

/-- They are enough, and not too many. -/
theorem pagesFor_spec (hsize : size.toNat ≤ maxSize) :
    2 * headerSize + size.toNat ≤ 4096 * (pagesFor size).toNat ∧
      4096 * (pagesFor size).toNat < 2 ^ 32 ∧ 16 ≤ (pagesFor size).toNat := by
  unfold maxSize headerSize at *
  have hst : (size.setWidth 32 + Major.sizeof.setWidth 32 + Minor.sizeof.setWidth 32 : U32).toNat
      = size.toNat + 80 := by
    have hmajor : (Major.sizeof.setWidth 32 : U32).toNat = 40 := rfl
    have hminor : (Minor.sizeof.setWidth 32 : U32).toNat = 40 := rfl
    rw [BitVec.toNat_add, BitVec.toNat_add, BitVec.toNat_setWidth, hmajor, hminor]
    omega
  have hover := toNat_pagesOver
    (size.setWidth 32 + Major.sizeof.setWidth 32 + Minor.sizeof.setWidth 32)
  have hcount : lPageCount.toNat = 16 := rfl
  rw [hst] at hover
  unfold pagesFor
  dsimp only
  split_ifs with hlt <;> rw [BitVec.lt_def, hover, hcount] at hlt <;> omega

/-! ## A new block -/

/-- The hook has no pages for a block with a piece of this size. -/
def Image.Refuses (i : Image) (size : U64) : Prop := ¬ i.grants ((pagesFor size).setWidth 64)

/-- A call of the hook. -/
theorem ends_alloc (hm : Lawful m Ok image) {n : U64} {Q : U64 → View → Prop}
    (hrefused : ¬ v.mem.grants n → Q 0 v)
    (hsupplied : ∀ page i, page ≠ 0 → Supplies n page v.mem i → Q page { v with mem := i }) :
    Ends Ok image (modifyGet fun h => ((m.liballocAlloc n h.mem).1,
      { h with mem := (m.liballocAlloc n h.mem).2 })) v Q := by
  rintro s hok rfl
  refine ⟨_, _, rfl, hm.ok _ n hok, ?_⟩
  by_cases hzero : (m.liballocAlloc n s.mem).1 = 0
  · rw [hzero, Heap.map, hm.refused _ n hok hzero]
    exact hrefused fun hgrants => (hm.grants _ n hok).mp hgrants hzero
  · exact hsupplied _ _ hzero (hm.supplied _ n hok hzero)

/-- The block `b` has just been made of pages that were not there before: it has no pieces and no
neighbours, and all that was there is as it was. -/
structure Fresh (b : Block) (v v' : View) : Prop where
  empty : b.pieces = []
  block : BlockAt v'.mem b
  links : v'.mem.field b.addr Major.prev = 0 ∧ v'.mem.field b.addr Major.next = 0
  new : ∀ a, b.Holds a → ¬ v.mem.dom a
  dom : ∀ a, v'.mem.dom a ↔ v.mem.dom a ∨ b.Holds a
  bytes : ∀ a, v.mem.dom a → v'.mem.bytes a = v.mem.bytes a
  root : v'.lMemRoot = v.lMemRoot
  best : v'.lBestBet = v.lBestBet
  inuse : v'.lInuse = v.lInuse
  allocated : v'.lAllocated = v.lAllocated + BitVec.ofNat 64 b.size

/-- The code, with its number of pages by name. -/
theorem allocateNewPage_eq (m : Platform μ) (size : U64) :
    allocateNewPage m size = (do
      let maj ← modifyGet fun h => ((m.liballocAlloc ((pagesFor size).setWidth 64) h.mem).1,
        { h with mem := (m.liballocAlloc ((pagesFor size).setWidth 64) h.mem).2 })
      if maj = 0 then do
        warn
        pure 0
      else do
        set m maj Major.prev 0
        set m maj Major.next 0
        set m maj Major.pages ((pagesFor size).setWidth 64)
        set m maj Major.size ((pagesFor size * lPageSize).setWidth 64)
        set m maj Major.usage Major.sizeof
        set m maj Major.first 0
        let size ← get m maj Major.size
        modify fun h => { h with lAllocated := h.lAllocated + size }
        pure maj) := rfl

theorem ends_allocated {x : U64} {Q : Unit → View → Prop}
    (h : Q () { v with lAllocated := v.lAllocated + x }) :
    Ends Ok image (modify fun h => { h with lAllocated := h.lAllocated + x }) v Q :=
  .modify (g := fun v : View => { v with lAllocated := v.lAllocated + x }) (fun _ => id)
    (fun _ => rfl) h

/-- **`allocate_new_page`.** -/
theorem allocateNewPage_ends (hm : Lawful m Ok image) (hsize : size.toNat ≤ maxSize)
    {Q : U64 → View → Prop}
    (hrefused : v.mem.Refuses size → Q 0 v.warn)
    (hfresh : ∀ b v', Fresh b v v' → 2 * headerSize + size.toNat ≤ b.size → Q b.addr v') :
    Ends Ok image (allocateNewPage m size) v Q := by
  obtain ⟨henough, hsmall, hmin⟩ := pagesFor_spec hsize
  have hpages : ((pagesFor size).setWidth 64 : U64).toNat = (pagesFor size).toNat := by
    rw [BitVec.toNat_setWidth]
    omega
  have hbytes : ((pagesFor size * lPageSize).setWidth 64 : U64)
      = BitVec.ofNat 64 (4096 * (pagesFor size).toNat) := by
    apply BitVec.eq_of_toNat_eq
    have hcount : lPageSize.toNat = 4096 := rfl
    rw [BitVec.toNat_setWidth, BitVec.toNat_mul, BitVec.toNat_ofNat, hcount]
    omega
  rw [allocateNewPage_eq]
  refine .bind (ends_alloc hm (fun h => ?_) fun page i hpage hs => ?_)
  · exact .ite (fun _ => .bind (ends_warn (.pure (hrefused h)))) fun hne => absurd rfl hne
  refine .ite (fun h => absurd h hpage) fun _ => ?_
  have hfits := hs.fits
  rw [hpages] at hfits
  -- the block
  obtain ⟨b, rfl, hcount, hempty⟩ : ∃ b : Block, b.addr = page ∧
      b.pages = (pagesFor size).toNat ∧ b.pieces = [] :=
    ⟨⟨page, (pagesFor size).toNat, [], hpage, hsmall, hfits, by
      show page.toNat + headerSize ≤ page.toNat + 4096 * (pagesFor size).toNat
      omega⟩, rfl, rfl, rfl⟩
  have hblock : b.size = 4096 * (pagesFor size).toNat := by rw [Block.size, hcount]
  have hholds : ∀ a, b.Holds a ↔ InPages b.addr ((pagesFor size).setWidth 64) a := by
    intro a
    rw [InPages, hpages, Block.Holds, Block.start, hblock]
  have hmaj : i.Mapped b.addr headerSize := by
    intro j hj
    refine (hs.dom _).mpr (Or.inr ((hholds _).mp ?_))
    have hle := b.header_le
    have hend := b.end_le
    unfold Block.Holds headerSize Block.start at *
    bv_omega
  rw [hbytes]
  refine .bind (ends_set hm (.bind (ends_set hm (.bind (ends_set hm ?_)))))
  refine .bind (ends_set hm (.bind (ends_set hm (.bind (ends_set hm ?_)))))
  refine .bind (ends_get hm (.bind (ends_allocated (.pure (hfresh b _ ?_ ?_)))))
  · have hsmall' : (BitVec.ofNat 64 (4096 * (pagesFor size).toNat)).toNat < 2 ^ 32 := by
      rw [BitVec.toNat_ofNat]
      omega
    have hnew : ∀ a, b.Holds a → ¬ v.mem.dom a := fun a ha => hs.fresh a ((hholds a).mp ha)
    refine ⟨hempty, ⟨fun a ha => ?_, ?_, ?_, ?_, ?_, ?_⟩, ⟨?_, ?_⟩, hnew, fun a => ?_,
      fun a ha => ?_, ?_, ?_, ?_, ?_⟩
    · simp only [mem_setField, dom_setField]
      exact (hs.dom a).mpr (Or.inr ((hholds a).mp ha))
    · simp (disch := first | assumption | decide) [hblock]
    · simp (disch := first | assumption | decide) [Block.usage, hempty, Major.sizeof, headerSize]
    · simp (disch := first | assumption | decide) [hempty]
    · rw [hempty]
      trivial
    · rw [hempty]
      exact fun x hx => absurd hx List.not_mem_nil
    · simp (disch := first | assumption | decide)
    · simp (disch := first | assumption | decide)
    · simp only [mem_setField, dom_setField]
      rw [hs.dom a, hholds a]
    · have hout : ¬ InHeader b.addr a := fun hhead => hnew a (Block.holds_of_inHeader hhead) ha
      simp (disch := first | assumption | decide) [hs.bytes a ha]
    · simp
    · simp
    · simp
    · simp (disch := first | assumption | decide) [hblock]
  · rw [hblock]
    exact henough

/-! ## The heap with a new block -/

theorem Fresh.apart (h : Fresh b v v') (hv : Represents v L) (hc : c ∈ L.blocks) :
    Packing.Apart Block.start Block.size c b :=
  Block.apart_of_disjoint fun a ha hb => h.new a hb ((hv.blocks c hc).mapped a ha)

/-- The layout with a block behind the others. -/
def Layout.snoc (L : Layout) (b : Block)
    (h : ∀ c ∈ L.blocks, Packing.Apart Block.start Block.size c b) : Layout where
  blocks := L.blocks ++ [b]
  apart := List.pairwise_append.mpr ⟨L.apart, List.pairwise_singleton _ b, fun c hc _ hd =>
    List.mem_singleton.mp hd ▸ h c hc⟩

theorem Layout.pieces_snoc (h : ∀ c ∈ L.blocks, Packing.Apart Block.start Block.size c b) :
    ∀ x ∈ L.pieces, x ∈ (L.snoc b h).pieces := by
  intro x hx
  rw [Layout.pieces, Layout.snoc, List.flatMap_append]
  exact List.mem_append_left _ hx

/-- An old block reads as before in a heap with a new one. -/
theorem Fresh.field (h : Fresh b v v') (hv : Represents v L) (hc : c ∈ L.blocks) {f : Field}
    (hf : f.Fits) : v'.mem.field c.addr f = v.mem.field c.addr f :=
  field_congr hf fun a ha =>
    h.bytes a ((hv.blocks c hc).mapped a (Block.holds_of_inHeader ha))

theorem Fresh.blockAt (h : Fresh b v v') (hv : Represents v L) (hc : c ∈ L.blocks) :
    BlockAt v'.mem c :=
  (hv.blocks c hc).congr
    (fun a ha => (h.dom a).mpr (Or.inl ((hv.blocks c hc).mapped a ha))) fun a ha =>
    h.bytes a ((hv.blocks c hc).mapped a (Block.holds_of_private ha))

/-- The accounts of the heap with a new block. -/
theorem Fresh.accounts (h : Fresh b v v') (hv : Represents v L)
    (hapart : ∀ c ∈ L.blocks, Packing.Apart Block.start Block.size c b) :
    v'.lInuse = BitVec.ofNat 64 ((L.snoc b hapart).pieces.map fun x => x.size.toNat).sum ∧
      v'.lAllocated = BitVec.ofNat 64 ((L.snoc b hapart).blocks.map Block.size).sum := by
  rw [h.inuse, hv.inuse, h.allocated, hv.allocated, sum_inuse, sum_inuse, Layout.snoc]
  simp only [List.map_append, List.map_cons, List.map_nil, List.sum_append, List.sum_cons,
    List.sum_nil, Nat.add_zero, Block.inuse, h.empty, BitVec.ofNat_add]
  exact ⟨trivial, trivial⟩

/-- The first block. -/
theorem Fresh.represents_first (h : Fresh b v v') (hv : Represents v L) (hL : L.blocks = []) :
    Represents { v' with lMemRoot := b.addr } (L.snoc b fun _ hc => h.apart hv hc) := by
  obtain ⟨hinuse, hallocated⟩ := h.accounts hv fun c hc => h.apart hv hc
  have hblocks : (L.snoc b fun _ hc => h.apart hv hc).blocks = [b] := by
    show L.blocks ++ [b] = [b]
    rw [hL]
    rfl
  refine ⟨?_, ?_, ?_, Or.inl ?_, hinuse, hallocated⟩
  · rw [hblocks]
    rfl
  · rw [hblocks]
    exact ⟨h.links.1, h.links.2, trivial⟩
  · rw [hblocks]
    intro c hc
    exact List.mem_singleton.mp hc ▸ h.block
  · show v'.lBestBet = 0
    rw [h.best]
    have hbest := hv.best
    rw [hL] at hbest
    exact hbest.resolve_right List.not_mem_nil

/-- A block behind the last one. -/
theorem Fresh.represents_snoc {pre : List Block} (h : Fresh b v v') (hv : Represents v L)
    (hL : L.blocks = pre ++ [c]) :
    Represents ((v'.setField c.addr Major.next b.addr).setField b.addr Major.prev c.addr)
      (L.snoc b fun _ hc => h.apart hv hc) := by
  obtain ⟨hinuse, hallocated⟩ := h.accounts hv fun c hc => h.apart hv hc
  have hc : c ∈ L.blocks := by
    rw [hL]
    exact List.mem_append_right _ List.mem_cons_self
  have hcb := Block.apart_blocks (h.apart hv hc)
  have hbc := hcb.symm
  have hmem : ∀ {d}, d ∈ L.blocks → d ∈ (L.snoc b fun _ hc => h.apart hv hc).blocks :=
    List.mem_append_left _
  have hmemb : b ∈ (L.snoc b fun _ hc => h.apart hv hc).blocks :=
    List.mem_append_right _ List.mem_cons_self
  have hblocks : (L.snoc b fun _ hc => h.apart hv hc).blocks.map Block.addr
      = L.blocks.map Block.addr ++ [b.addr] := by
    rw [Layout.snoc, List.map_append]
    rfl
  constructor
  · rw [lMemRoot_setField, lMemRoot_setField, h.root, hv.root, hblocks, hL, List.map_append,
      List.append_assoc]
    exact (first_append_cons _ _ _ _).trans (first_append_cons _ _ _ _).symm
  · rw [hblocks]
    have hlinks := hv.links
    rw [← List.append_nil (L.blocks.map Block.addr)] at hlinks
    refine hlinks.insert ((List.append_nil _).symm ▸ L.nodup_addr) ⟨?_, ?_⟩ ?_ ?_
    · rw [hL, List.map_append]
      simp (disch := first | assumption | decide)
    · simp (disch := first | assumption | decide) [h.links.2]
    · rw [List.append_nil]
      intro y hy
      obtain ⟨d, hd, rfl⟩ := List.mem_map.mp hy
      have hbd := (Block.apart_blocks (h.apart hv hd)).symm
      rw [mem_setField, field_setField_of_apart hbd (by decide) (by decide), mem_setField,
        List.head?_nil, if_neg (Option.some_ne_none _).symm, ← h.field hv hd (by decide)]
      rcases eq_or_ne d c with rfl | hne
      · exact field_setField_of_clear (by decide) (by decide) (by decide)
      · exact field_setField_of_apart (Layout.apart_headers hc hd hne.symm) (by decide) (by decide)
    · rw [List.append_nil]
      intro y hy
      obtain ⟨d, hd, rfl⟩ := List.mem_map.mp hy
      have hbd := (Block.apart_blocks (h.apart hv hd)).symm
      rw [mem_setField, field_setField_of_apart hbd (by decide) (by decide), mem_setField,
        hL, List.map_append, List.map_singleton, List.getLast?_concat]
      rcases eq_or_ne d c with rfl | hne
      · rw [if_pos rfl]
        exact field_setField_eight (by decide) (by decide)
      · have happ := Layout.apart_headers hc hd hne.symm
        rw [if_neg fun heq => happ.ne (by decide) (Option.some.inj heq),
          field_setField_of_apart happ (by decide) (by decide), h.field hv hd (by decide)]
  · intro d hd
    have hlinked : BlockAt (v'.mem.setField c.addr Major.next b.addr) d := by
      rcases List.mem_append.mp hd with hd' | hd'
      · exact (h.blockAt hv hd').setLink_layout (by decide) (by decide) hd (hmem hc)
      · exact (List.mem_singleton.mp hd' ▸ h.block).setLink_layout (by decide) (by decide) hd
          (hmem hc)
    rw [mem_setField, mem_setField]
    exact hlinked.setLink_layout (by decide) (by decide) hd hmemb
  · rw [lBestBet_setField, lBestBet_setField, h.best, hblocks]
    exact hv.best.imp id (List.mem_append_left _)
  · rw [lInuse_setField, lInuse_setField, hinuse]
  · rw [lAllocated_setField, lAllocated_setField, hallocated]

/-- What was asked for is not touched. -/
theorem Fresh.keeps (h : Fresh b v v') (hv : Represents v L) : Keeps L v.mem v'.mem := by
  intro x hx a ha
  obtain ⟨c, hc, hxc⟩ := List.mem_flatMap.mp hx
  exact h.bytes a ((hv.blocks c hc).mapped a (Block.holds_of_inRegion hxc ha))

/-- The heap has a new block behind the others, without pieces and with room for `size` bytes. -/
structure Extended (L : Layout) (size : U64) (i : Image) (b : Block) (L' : Layout) (v' : View) :
    Prop where
  empty : b.pieces = []
  room : 2 * headerSize + size.toNat ≤ b.size
  blocks : L'.blocks = L.blocks ++ [b]
  represents : Represents v' L'
  keeps : Keeps L i v'.mem
  new : ∀ a, b.Holds a → ¬ i.dom a
  dom : ∀ a, v'.mem.dom a ↔ i.dom a ∨ b.Holds a

/-- **The first block.**  A heap with a block is as it was, a heap without one gets one. -/
theorem memRoot_ends (hm : Lawful m Ok image) (hsize : size.toNat ≤ maxSize)
    {Q : U64 → View → Prop} (hv : Represents v L) (hold : L.blocks ≠ [] → Q v.lMemRoot v)
    (hrefused : L.blocks = [] → v.mem.Refuses size →
      ∀ v', Represents v' L → Keeps L v.mem v'.mem → Q 0 v')
    (hnew : L.blocks = [] → ∀ b L' v', Extended L size v.mem b L' v' → Q b.addr v') :
    Ends Ok image (memRoot m size) v Q := by
  refine .get fun s hs => ?_
  have hroot : s.lMemRoot = v.lMemRoot := congrArg Heap.lMemRoot hs
  rw [hroot]
  refine .ite (fun hzero => ?_) fun hne => .pure (hold ?_)
  · have hL : L.blocks = [] := by
      rcases hblocks : L.blocks with _ | ⟨c, post⟩
      · rfl
      · rw [hv.root, hblocks] at hzero
        exact absurd hzero c.nonnull
    refine .bind (allocateNewPage_ends hm hsize (fun hrefuses => ?_) fun b v' hfresh hroom => ?_)
    · refine .bind (.modify (g := fun w : View => { w with lMemRoot := 0 }) (fun _ => id)
        (fun _ => rfl) (.pure (hrefused hL hrefuses _ ?_ ?_)))
      · exact hv.congr (mem_warn v) hzero.symm (by simpa using hv.best) (by simp) (by simp)
      · simpa using Keeps.refl L v.mem
    · refine .bind (.modify (g := fun w : View => { w with lMemRoot := b.addr }) (fun _ => id)
        (fun _ => rfl) (.pure
        (hnew hL b (L.snoc b fun _ hc => hfresh.apart hv hc) _ ?_)))
      exact ⟨hfresh.empty, hroom, rfl, hfresh.represents_first hv hL, hfresh.keeps hv, hfresh.new,
        hfresh.dom⟩
  · rintro hL
    rw [hv.root, hL] at hne
    exact hne rfl

/-- **Another block** behind the last one. -/
theorem append_ends (hm : Lawful m Ok image) (hsize : size.toNat ≤ maxSize)
    {Q : U64 → View → Prop} {pre : List Block} (hv : Represents v L) (hL : L.blocks = pre ++ [c])
    (hrefused : v.mem.Refuses size → ∀ v', Represents v' L →
      Keeps L v.mem v'.mem → Q 0 v')
    (hnew : ∀ b L' v', Extended L size v.mem b L' v' → Q b.addr v') :
    Ends Ok image (append m size c.addr) v Q := by
  have hc : c ∈ L.blocks := by
    rw [hL]
    exact List.mem_append_right _ List.mem_cons_self
  have hmaj := (hv.blocks c hc).mapped_header
  unfold append
  refine .bind (allocateNewPage_ends hm hsize (fun hrefuses => ?_) fun b v' hfresh hroom => ?_)
  · -- the last block has no block behind it, and is told so
    have hlast : v.mem.field c.addr Major.next = 0 := by
      have hlinks := hv.links
      rw [hL, List.map_append] at hlinks
      exact hlinks.at.2
    have hsame : (v.warn.setField c.addr Major.next 0).mem = v.mem := by
      rw [mem_setField, mem_warn, setField_self (by decide) hlast]
    refine .bind (ends_set hm (.bind (ends_get hm ?_)))
    rw [hsame, hlast, if_pos rfl]
    refine .pure (hrefused hrefuses _ ?_ ?_)
    · exact hv.congr hsame (by simp) (by simpa using hv.best) (by simp) (by simp)
    · rw [hsame]
      exact Keeps.refl L v.mem
  · have hbc := (Block.apart_blocks (hfresh.apart hv hc)).symm
    have hmajb : v'.mem.Mapped b.addr headerSize := hfresh.block.mapped_header
    have hmajc : v'.mem.Mapped c.addr headerSize := (hfresh.blockAt hv hc).mapped_header
    refine .bind (ends_set hm (.bind (ends_get hm ?_)))
    rw [mem_setField, field_setField_eight (by decide) (by decide)]
    refine .ite (fun hzero => absurd hzero b.nonnull) fun _ => ?_
    refine .bind (ends_set hm (ends_get hm ?_))
    rw [mem_setField, mem_setField, field_setField_of_apart hbc (by decide) (by decide),
      field_setField_eight (by decide) (by decide)]
    have hapart : ∀ d ∈ L.blocks, Packing.Apart Block.start Block.size d b :=
      fun _ hd => hfresh.apart hv hd
    have hmemc : c ∈ (L.snoc b hapart).blocks := List.mem_append_left _ hc
    have hmemb : b ∈ (L.snoc b hapart).blocks := List.mem_append_right _ List.mem_cons_self
    refine hnew b (L.snoc b hapart) _
      ⟨hfresh.empty, hroom, rfl, hfresh.represents_snoc hv hL, ?_, hfresh.new, fun a => ?_⟩
    · rw [mem_setField, mem_setField]
      exact (hfresh.keeps hv).trans (L.pieces_snoc hapart) (.trans
        (keeps_setField hmemc (by decide)) (fun _ => id) (keeps_setField hmemb (by decide)))
    · rw [mem_setField, mem_setField, dom_setField, dom_setField]
      exact hfresh.dom a

end Liballoc
