/-
# The layout of the heap

What the headers in memory say, without the headers: a list of blocks, each a run of pages with
the pieces handed out from it, in order and without overlap.

* `Piece`, `Block`, `Layout` : pieces in blocks in a layout, none of which can overlap;
* `BlockAt`, `Represents` : memory and the variables of liballoc say what a layout says;
* `BlockAt.of_fields` : they say so of a block by the bytes of the block alone;
* `Represents.unique` : they say it of one layout only;
* `Represents.update` : a step that works inside one block.
-/
import FzzOS.DoubleLinks
import FzzOS.HeapImage
import FzzOS.Packing

open StackWords ByteFields Packing DoubleLinks

namespace Liballoc

/-! ## Pieces -/

/-- A piece: the address of its header, its size without the header, and what was asked for.  The
size has 32 bytes more, which is enough for aligning it. -/
structure Piece where
  addr : U64
  size : U64
  req : U64
  small : size.toNat < 2 ^ 32
  room : req.toNat + 32 ≤ size.toNat
deriving DecidableEq

namespace Piece

/-- Where the piece starts, with its header. -/
def start (x : Piece) : ℕ := x.addr.toNat

/-- The bytes of the piece, with its header. -/
def len (x : Piece) : ℕ := headerSize + x.size.toNat

/-- Where the distance to the aligned pointer is kept. -/
def info (x : Piece) : U64 := x.addr + Minor.sizeof + slack (x.addr + Minor.sizeof)

/-- What is kept there. -/
def mark (x : Piece) : U8 := (slack (x.addr + Minor.sizeof) + 16).setWidth 8

/-- The pointer handed out. -/
def ptr (x : Piece) : U64 := x.addr + Minor.sizeof + 16 + slack (x.addr + Minor.sizeof)

/-- Address `a` is one of the bytes asked for. -/
def InRegion (x : Piece) (a : U64) : Prop := (a - x.ptr).toNat < x.req.toNat

end Piece

/-! ## Blocks -/

/-- A block: its address, its pages, and its pieces, which lie behind its header in order. -/
structure Block where
  addr : U64
  pages : ℕ
  pieces : List Piece
  nonnull : addr ≠ 0
  small : 4096 * pages < 2 ^ 32
  fits : addr.toNat + 4096 * pages ≤ 2 ^ 64
  packed : Packed Piece.start Piece.len (addr.toNat + headerSize) pieces
    (addr.toNat + 4096 * pages)

namespace Block

variable {b c : Block} {x y : Piece} {a : U64}

/-- Where the block starts, with its header. -/
def start (b : Block) : ℕ := b.addr.toNat

/-- The bytes of its pages. -/
def size (b : Block) : ℕ := 4096 * b.pages

/-- What is in use, headers included. -/
def usage (b : Block) : ℕ := headerSize + (b.pieces.map Piece.len).sum

/-- Address `a` lies in the block. -/
def Holds (b : Block) (a : U64) : Prop := b.start ≤ a.toNat ∧ a.toNat < b.start + b.size

/-- Address `a` is one the code keeps for itself: in a header, or before a pointer. -/
def Private (b : Block) (a : U64) : Prop :=
  InHeader b.addr a ∨ ∃ x ∈ b.pieces, InHeader x.addr a ∨ a = x.info

theorem usage_le (b : Block) : b.usage ≤ b.size := by
  have := b.packed.sum_le
  unfold usage size
  omega

/-- Where a piece lies. -/
theorem bounds (hx : x ∈ b.pieces) :
    b.start + headerSize ≤ x.start ∧ x.start + x.len ≤ b.start + b.size :=
  b.packed.bounds hx

theorem header_le (b : Block) : b.start + headerSize ≤ b.start + b.size := b.packed.le

theorem end_le (b : Block) : b.start + b.size ≤ 2 ^ 64 := b.fits

theorem piece_ne_zero (hx : x ∈ b.pieces) : x.addr ≠ 0 := by
  have hbounds := (bounds hx).1
  unfold Piece.start headerSize at hbounds
  bv_omega

theorem apart_header (hx : x ∈ b.pieces) : Apart b.addr x.addr := by
  have hbounds := bounds hx
  have hend := b.end_le
  unfold Piece.start Piece.len start at *
  exact clear_of_le hbounds.1 (by omega) (by decide)

theorem apart_pieces (hx : x ∈ b.pieces) (hy : y ∈ b.pieces) (hne : x ≠ y) :
    Apart x.addr y.addr := by
  have hxb := bounds hx
  have hyb := bounds hy
  have hend := b.end_le
  unfold Piece.start Piece.len start at *
  rcases b.packed.apart hx hy hne with h | h
  · unfold Piece.start Piece.len at h
    exact clear_of_le (by omega) (by omega) (by decide)
  · unfold Piece.start Piece.len at h
    exact (clear_of_le (by omega) (by omega) (by decide)).symm

theorem addr_injective (hx : x ∈ b.pieces) (hy : y ∈ b.pieces) (h : x.addr = y.addr) : x = y := by
  by_contra hne
  exact (apart_pieces hx hy hne).ne (by decide) h

/-- The headers of the pieces are at different places. -/
theorem nodup_addr (b : Block) : (b.pieces.map Piece.addr).Nodup := by
  refine List.Pairwise.map _ (fun x y h heq => ?_) b.packed.pairwise
  have hpos : 0 < x.len := by
    unfold Piece.len headerSize
    omega
  have hstart : x.start = y.start := congrArg BitVec.toNat heq
  omega

/-- The pointer of a piece, and the byte before it. -/
theorem toNat_ptr (hx : x ∈ b.pieces) :
    x.ptr.toNat = x.start + 56 + (slack (x.addr + Minor.sizeof)).toNat ∧
      x.info.toNat = x.start + 40 + (slack (x.addr + Minor.sizeof)).toNat := by
  have hbounds := (bounds hx).2
  have hend := b.end_le
  have hroom := x.room
  have hslack := slack_lt (x.addr + Minor.sizeof)
  unfold Piece.len headerSize Piece.start start at *
  unfold Piece.ptr Piece.info Minor.sizeof at *
  constructor
  · bv_omega
  · bv_omega

/-- What was asked for lies in the piece, behind the header and the byte before the pointer. -/
theorem region (hx : x ∈ b.pieces) :
    x.start + headerSize ≤ x.info.toNat ∧ x.info.toNat < x.ptr.toNat ∧
      x.ptr.toNat + x.req.toNat < x.start + x.len := by
  obtain ⟨hptr, hinfo⟩ := toNat_ptr hx
  have hroom := x.room
  have hslack := slack_lt (x.addr + Minor.sizeof)
  unfold Piece.len headerSize
  omega

theorem ptr_aligned (hx : x ∈ b.pieces) : x.ptr.toNat % 16 = 0 := by
  have hend := b.end_le
  have hreg := region hx
  have hbounds := (bounds hx).2
  have hptr := (toNat_ptr hx).1
  have hmod := (toNat_slack (x.addr + Minor.sizeof)).1
  unfold Minor.sizeof Piece.start at *
  bv_omega

theorem ptr_ne_zero (hx : x ∈ b.pieces) : x.ptr ≠ 0 := by
  have := (region hx).2.1
  intro heq
  rw [heq] at this
  exact absurd this (Nat.not_lt_zero _)

/-- The byte before a pointer is in no header. -/
theorem info_not_inHeader (hx : x ∈ b.pieces) :
    ¬ InHeader b.addr x.info ∧ ∀ y ∈ b.pieces, ¬ InHeader y.addr x.info := by
  obtain ⟨hxi, hxp, hxr⟩ := region hx
  have hxb := bounds hx
  have hend := b.end_le
  constructor
  · unfold InHeader headerSize start at *
    bv_omega
  · intro y hy hhead
    rcases eq_or_ne y x with rfl | hne
    · unfold InHeader headerSize Piece.start at *
      bv_omega
    · have hyb := bounds hy
      have hyx := b.packed.apart hy hx hne
      have hplace : y.start ≤ x.info.toNat ∧ x.info.toNat < y.start + y.len := by
        unfold InHeader Piece.len headerSize Piece.start at *
        bv_omega
      unfold Packing.Apart at hyx
      omega

theorem info_ne (hx : x ∈ b.pieces) (hy : y ∈ b.pieces) (hne : x ≠ y) : x.info ≠ y.info := by
  intro heq
  have hxr := region hx
  have hyr := region hy
  have hxy := b.packed.apart hx hy hne
  rw [heq] at hxr
  unfold Packing.Apart at hxy
  omega

/-- What was asked for is what the code does not use. -/
theorem not_private_of_inRegion (hx : x ∈ b.pieces) (ha : x.InRegion a) : ¬ b.Private a := by
  obtain ⟨hxi, hxp, hxr⟩ := region hx
  have hxb := bounds hx
  have hend := b.end_le
  have hplace : x.ptr.toNat ≤ a.toNat ∧ a.toNat < x.ptr.toNat + x.req.toNat := by
    unfold Piece.InRegion at ha
    bv_omega
  rintro (hhead | ⟨y, hy, hhead | rfl⟩)
  · unfold InHeader headerSize start at *
    bv_omega
  · rcases eq_or_ne y x with rfl | hne
    · have hptr := (toNat_ptr hx).1
      unfold InHeader headerSize Piece.start at *
      bv_omega
    · have hyb := bounds hy
      have hyx := b.packed.apart hy hx hne
      have hplace' : y.start ≤ a.toNat ∧ a.toNat < y.start + y.len := by
        unfold InHeader Piece.len headerSize Piece.start at *
        bv_omega
      unfold Packing.Apart at hyx
      omega
  · rcases eq_or_ne y x with rfl | hne
    · omega
    · have hyr := region hy
      have hyx := b.packed.apart hy hx hne
      obtain ⟨-, hinfo⟩ := toNat_ptr hy
      unfold Packing.Apart at hyx
      omega

theorem holds_of_inHeader (ha : InHeader b.addr a) : b.Holds a := by
  have hle := b.header_le
  have hend := b.end_le
  unfold InHeader at ha
  unfold Holds headerSize start at *
  bv_omega

/-- What the code keeps for itself is in the block. -/
theorem holds_of_private (ha : b.Private a) : b.Holds a := by
  have hend := b.end_le
  rcases ha with hhead | ⟨x, hx, hhead | rfl⟩
  · exact holds_of_inHeader hhead
  · have hbounds := bounds hx
    unfold InHeader at hhead
    unfold Piece.len headerSize Piece.start at *
    unfold Holds start at *
    bv_omega
  · have hbounds := bounds hx
    obtain ⟨hhead, hptr, hreg⟩ := region hx
    unfold Holds
    omega

theorem not_holds (h : Packing.Apart start size b c) (ha : b.Holds a) : ¬ c.Holds a := by
  unfold Packing.Apart Holds at *
  omega

/-- The headers of two blocks. -/
theorem apart_blocks (h : Packing.Apart start size b c) : Liballoc.Apart b.addr c.addr := by
  have hb := b.header_le
  have hc := c.header_le
  have hbe := b.end_le
  have hce := c.end_le
  rcases h with h | h
  · exact clear_of_le (b := c.addr) (by unfold start at *; omega) (by unfold start at *; omega)
      (by decide)
  · exact (clear_of_le (a := c.addr) (by unfold start at *; omega) (by unfold start at *; omega)
      (by decide)).symm

/-- Blocks without a common address. -/
theorem apart_of_disjoint (h : ∀ a, b.Holds a → ¬ c.Holds a) : Packing.Apart start size b c := by
  have hb := b.header_le
  have hc := c.header_le
  have hbstart := h b.addr
  have hcstart := h c.addr
  have hbaddr : b.addr.toNat = b.start := rfl
  have hcaddr : c.addr.toNat = c.start := rfl
  unfold headerSize at *
  unfold Holds at *
  unfold Packing.Apart
  omega

/-- The header of one block is clear of everything in another. -/
theorem header_clear (h : Packing.Apart start size b c) :
    Liballoc.Apart b.addr c.addr ∧
      ∀ y ∈ c.pieces, Liballoc.Apart b.addr y.addr ∧ ¬ InHeader b.addr y.info := by
  refine ⟨apart_blocks h, fun y hy => ⟨?_, fun hhead => ?_⟩⟩
  · have hbh := b.header_le
    have hbe := b.end_le
    have hce := c.end_le
    have hbounds := bounds hy
    have hlen : headerSize ≤ y.len := Nat.le_add_right _ _
    rcases h with h | h
    · refine clear_of_le ?_ ?_ (by decide) <;> unfold start Piece.start at * <;> omega
    · refine (clear_of_le ?_ ?_ (by decide)).symm <;> unfold start Piece.start at * <;> omega
  · refine not_holds h (holds_of_inHeader hhead) ?_
    exact holds_of_private (Or.inr ⟨y, hy, Or.inr rfl⟩)

/-- What was asked for is in the block. -/
theorem holds_of_inRegion (hx : x ∈ b.pieces) (ha : x.InRegion a) : b.Holds a := by
  have hbounds := bounds hx
  have hreg := region hx
  have hend := b.end_le
  unfold Piece.InRegion at ha
  unfold Holds start at *
  bv_omega

/-- The block with one more piece, in a gap between two others. -/
def insert (b : Block) (l : List Piece) (x : Piece) (r : List Piece) (h : b.pieces = l ++ r)
    (hstart : endOf Piece.start Piece.len (b.start + headerSize) l ≤ x.start)
    (hend : x.start + x.len ≤ startOf Piece.start r (b.start + b.size)) : Block :=
  { b with
    pieces := l ++ x :: r
    packed := (h ▸ b.packed).insert hstart hend }

/-- The sizes of the pieces, headers not included. -/
def inuse (b : Block) : ℕ := (b.pieces.map fun x => x.size.toNat).sum

end Block

/-! ## Layouts -/

/-- Blocks that do not overlap. -/
structure Layout where
  blocks : List Block
  apart : blocks.Pairwise (Packing.Apart Block.start Block.size)

/-- All pieces. -/
def Layout.pieces (L : Layout) : List Piece := L.blocks.flatMap Block.pieces

/-- No block is without pieces, as it is between two calls. -/
def Layout.Settled (L : Layout) : Prop := ∀ b ∈ L.blocks, b.pieces ≠ []

/-! ## What memory says -/

/-- The header of piece `x`, apart from its links, and the byte before its pointer. -/
structure PieceAt (i : Image) (maj : U64) (x : Piece) : Prop where
  block : i.field x.addr Minor.block = maj
  magic : i.field x.addr Minor.magic = liballocMagic
  size : i.field x.addr Minor.size = x.size
  reqSize : i.field x.addr Minor.reqSize = x.req
  info : i.bytes x.info = x.mark

/-- The block `b` with its header, apart from its links, and its pieces. -/
structure BlockAt (i : Image) (b : Block) : Prop where
  mapped : ∀ a, b.Holds a → i.dom a
  size : i.field b.addr Major.size = BitVec.ofNat 64 b.size
  usage : i.field b.addr Major.usage = BitVec.ofNat 64 b.usage
  first : i.field b.addr Major.first = first (b.pieces.map Piece.addr) 0
  links : Linked (i.field · Minor.prev) (i.field · Minor.next) 0 (b.pieces.map Piece.addr) 0
  pieces : ∀ x ∈ b.pieces, PieceAt i b.addr x

/-- What is seen says what the layout says. -/
structure Represents (v : View) (L : Layout) : Prop where
  root : v.lMemRoot = first (L.blocks.map Block.addr) 0
  links : Linked (v.mem.field · Major.prev) (v.mem.field · Major.next) 0
    (L.blocks.map Block.addr) 0
  blocks : ∀ b ∈ L.blocks, BlockAt v.mem b
  best : v.lBestBet = 0 ∨ v.lBestBet ∈ L.blocks.map Block.addr
  inuse : v.lInuse = BitVec.ofNat 64 (L.pieces.map fun x => x.size.toNat).sum
  allocated : v.lAllocated = BitVec.ofNat 64 (L.blocks.map Block.size).sum

variable {i i' : Image} {b : Block} {x : Piece}

theorem BlockAt.mapped_header (h : BlockAt i b) : i.Mapped b.addr headerSize := by
  intro j hj
  have hle := b.header_le
  have hend := b.end_le
  refine h.mapped _ ?_
  unfold Block.Holds headerSize Block.start at *
  bv_omega

theorem BlockAt.mapped_piece (h : BlockAt i b) (hx : x ∈ b.pieces) :
    i.Mapped x.addr headerSize := by
  intro j hj
  have hbounds := Block.bounds hx
  have hend := b.end_le
  refine h.mapped _ ?_
  unfold Piece.len headerSize at *
  unfold Block.Holds Piece.start at *
  bv_omega

/-- A byte before a pointer is one of the block. -/
theorem BlockAt.dom_info (h : BlockAt i b) (hx : x ∈ b.pieces) : i.dom x.info := by
  have hbounds := Block.bounds hx
  have hptr := Block.toNat_ptr hx
  have hreg := Block.region hx
  refine h.mapped _ ?_
  unfold Block.Holds
  omega

/-- The fields of a major block that say what it is, and not where its neighbours are. -/
def Major.own : List Field := [Major.size, Major.usage, Major.first]

/-- **Locality.**  What memory says of a block it says by these fields, by the headers of its
pieces and by the bytes before their pointers. -/
theorem BlockAt.of_fields (h : BlockAt i b) (hdom : ∀ a, b.Holds a → i'.dom a)
    (hmajor : ∀ f ∈ Major.own, i'.field b.addr f = i.field b.addr f)
    (hbytes : ∀ a, (∃ x ∈ b.pieces, InHeader x.addr a ∨ a = x.info) →
      i'.bytes a = i.bytes a) : BlockAt i' b := by
  have hminor : ∀ x ∈ b.pieces, ∀ f : Field, f.Fits → i'.field x.addr f = i.field x.addr f :=
    fun x hx f hf => field_congr hf fun a ha => hbytes a ⟨x, hx, Or.inl ha⟩
  refine ⟨hdom, (hmajor _ (by decide)).trans h.size, (hmajor _ (by decide)).trans h.usage,
    (hmajor _ (by decide)).trans h.first, h.links.congr ?_ ?_, fun x hx => ?_⟩
  · intro y hy
    obtain ⟨x, hx, rfl⟩ := List.mem_map.mp hy
    exact hminor x hx _ (by decide)
  · intro y hy
    obtain ⟨x, hx, rfl⟩ := List.mem_map.mp hy
    exact hminor x hx _ (by decide)
  · have hpiece := h.pieces x hx
    exact ⟨(hminor x hx _ (by decide)).trans hpiece.block,
      (hminor x hx _ (by decide)).trans hpiece.magic,
      (hminor x hx _ (by decide)).trans hpiece.size,
      (hminor x hx _ (by decide)).trans hpiece.reqSize,
      (hbytes _ ⟨x, hx, Or.inr rfl⟩).trans hpiece.info⟩

theorem Major.own_fits {f : Field} (hf : f ∈ Major.own) :
    f.Fits ∧ Major.prev.Clear f ∧ Major.next.Clear f := by
  revert f
  decide

/-- The bytes the code keeps for itself are enough. -/
theorem BlockAt.congr (h : BlockAt i b) (hdom : ∀ a, b.Holds a → i'.dom a)
    (hbytes : ∀ a, b.Private a → i'.bytes a = i.bytes a) : BlockAt i' b :=
  h.of_fields hdom (fun _ hf => field_congr (Major.own_fits hf).1 fun a ha => hbytes a (Or.inl ha))
    fun a ha => hbytes a (Or.inr ha)

/-- The headers of the blocks are at different places. -/
theorem Layout.nodup_addr (L : Layout) : (L.blocks.map Block.addr).Nodup := by
  refine List.Pairwise.map _ (fun b c h heq => ?_) L.apart
  have hb := b.header_le
  have hc := c.header_le
  have hstart : b.start = c.start := congrArg BitVec.toNat heq
  unfold Packing.Apart headerSize at *
  omega

theorem sum_inuse (L : Layout) :
    (L.pieces.map fun x => x.size.toNat).sum = (L.blocks.map Block.inuse).sum := by
  rw [Layout.pieces, List.map_flatMap, List.flatMap_def, List.sum_flatten, List.map_map]
  rfl

/-! ## Memory says it of one layout only -/

/-- Lists with the same images are the same, if the images of their members tell them apart. -/
theorem eq_of_map_eq {A B : Type*} {f : A → B} {l l' : List A} (h : l.map f = l'.map f)
    (hf : ∀ x ∈ l, ∀ y ∈ l', f x = f y → x = y) : l = l' := by
  induction l generalizing l' with
  | nil => exact (List.map_eq_nil_iff.mp h.symm).symm
  | cons x l ih =>
    cases l' with
    | nil => exact absurd h (List.cons_ne_nil _ _)
    | cons y l' =>
      obtain ⟨hxy, hrest⟩ := List.cons.inj h
      rw [hf x List.mem_cons_self y List.mem_cons_self hxy, ih hrest fun a ha b hb =>
        hf a (List.mem_cons_of_mem x ha) b (List.mem_cons_of_mem y hb)]

theorem PieceAt.unique {maj maj' : U64} {y : Piece} (hx : PieceAt i maj x) (hy : PieceAt i maj' y)
    (h : x.addr = y.addr) : x = y := by
  have hsize : x.size = y.size := by rw [← hx.size, ← hy.size, h]
  have hreq : x.req = y.req := by rw [← hx.reqSize, ← hy.reqSize, h]
  cases x
  cases y
  cases h
  cases hsize
  cases hreq
  rfl

theorem BlockAt.unique {c : Block} (hb : BlockAt i b) (hc : BlockAt i c) (h : b.addr = c.addr) :
    b = c := by
  have hpages : b.pages = c.pages := by
    have hsize : BitVec.ofNat 64 b.size = BitVec.ofNat 64 c.size := by rw [← hb.size, ← hc.size, h]
    have hbsmall := b.small
    have hcsmall := c.small
    unfold Block.size at hsize
    bv_omega
  have hend : ∀ d : Block, (0 : U64) ∉ d.pieces.map Piece.addr := by
    intro d hd
    obtain ⟨x, hx, hzero⟩ := List.mem_map.mp hd
    exact Block.piece_ne_zero hx hzero
  have haddrs : b.pieces.map Piece.addr = c.pieces.map Piece.addr :=
    hb.links.unique hc.links (by rw [← hb.first, ← hc.first, h]) (hend b) (hend c)
  have hpieces : b.pieces = c.pieces := eq_of_map_eq haddrs fun x hx y hy =>
    (hb.pieces x hx).unique (hc.pieces y hy)
  cases b
  cases c
  cases h
  cases hpages
  cases hpieces
  rfl

/-- **One layout.**  The headers in memory leave no choice of the blocks and pieces. -/
theorem Represents.unique {v : View} {L L' : Layout} (h : Represents v L) (h' : Represents v L') :
    L = L' := by
  have hend : ∀ K : Layout, (0 : U64) ∉ K.blocks.map Block.addr := by
    intro K hK
    obtain ⟨b, -, hzero⟩ := List.mem_map.mp hK
    exact b.nonnull hzero
  have haddrs : L.blocks.map Block.addr = L'.blocks.map Block.addr :=
    h.links.unique h'.links (by rw [← h.root, ← h'.root]) (hend L) (hend L')
  have hblocks : L.blocks = L'.blocks := eq_of_map_eq haddrs fun b hb c hc =>
    (h.blocks b hb).unique (h'.blocks c hc)
  cases L
  cases L'
  cases hblocks
  rfl

/-! ## Links between blocks -/

variable {v v' : View} {L L' : Layout} {pre post : List Block} {b' c : Block}

/-- The headers of two blocks of a layout. -/
theorem Layout.apart_headers (hb : b ∈ L.blocks) (hc : c ∈ L.blocks) (hne : b ≠ c) :
    Apart b.addr c.addr :=
  Block.apart_blocks (L.apart.forall hb hc hne)

/-- What a block says apart from its place among the others does not depend on the links. -/
theorem BlockAt.setLink {i : Image} (hb : BlockAt i b) {p x : U64} {f : Field} (hf : f.Fits)
    (hp : p = b.addr ∨ Apart p b.addr)
    (hpieces : ∀ y ∈ b.pieces, Apart p y.addr ∧ ¬ InHeader p y.info)
    (hown : ∀ g ∈ Major.own, f.Clear g) : BlockAt (i.setField p f x) b := by
  refine hb.of_fields (fun a ha => (by simpa using hb.mapped a ha)) (fun g hg => ?_) ?_
  · have hgf := (Major.own_fits hg).1
    rcases hp with rfl | hp
    · exact field_setField_of_clear (hown g hg) hf hgf
    · exact field_setField_of_apart hp hf hgf
  · rintro a ⟨y, hy, ha⟩
    obtain ⟨happ, hinfo⟩ := hpieces y hy
    refine bytes_setField ?_ hf
    rcases ha with ha | rfl
    · exact not_inHeader_of_apart happ ha
    · exact hinfo

/-- A link of one block, set to something else. -/
theorem BlockAt.setLink_own {i : Image} (hb : BlockAt i b) {x : U64} {f : Field} (hf : f.Fits)
    (hown : ∀ g ∈ Major.own, f.Clear g) : BlockAt (i.setField b.addr f x) b :=
  hb.setLink hf (Or.inl rfl) (fun _ hy => ⟨Block.apart_header hy, (Block.info_not_inHeader hy).1⟩)
    hown

/-- A link of another block. -/
theorem BlockAt.setLink_other {i : Image} (hb : BlockAt i b) {x : U64} {f : Field} (hf : f.Fits)
    (hown : ∀ g ∈ Major.own, f.Clear g) (h : Packing.Apart Block.start Block.size c b) :
    BlockAt (i.setField c.addr f x) b :=
  hb.setLink hf (Or.inr (Block.header_clear h).1) (Block.header_clear h).2 hown

/-- A link of any block of a layout. -/
theorem BlockAt.setLink_layout {i : Image} (hb : BlockAt i b) {x : U64} {f : Field} (hf : f.Fits)
    (hown : ∀ g ∈ Major.own, f.Clear g) (hbL : b ∈ L.blocks) (hc : c ∈ L.blocks) :
    BlockAt (i.setField c.addr f x) b := by
  rcases eq_or_ne c b with rfl | hne
  · exact hb.setLink_own hf hown
  · exact hb.setLink_other hf hown (L.apart.forall hc hbL hne)

/-! ## What was asked for stays as it is -/

/-- No byte of what was asked for is another one. -/
def Keeps (L : Layout) (i i' : Image) : Prop :=
  ∀ x ∈ L.pieces, ∀ a, x.InRegion a → i'.bytes a = i.bytes a

theorem Keeps.refl (L : Layout) (i : Image) : Keeps L i i := fun _ _ _ _ => rfl

theorem Keeps.trans {i'' : Image} (h : Keeps L i i') (hL : ∀ x ∈ L.pieces, x ∈ L'.pieces)
    (h' : Keeps L' i' i'') : Keeps L i i'' :=
  fun x hx a ha => (h' x (hL x hx) a ha).trans (h x hx a ha)

/-- What was asked for is in no header. -/
theorem Layout.not_private {a : U64} (hx : x ∈ L.pieces) (ha : x.InRegion a) (hb : b ∈ L.blocks) :
    ¬ b.Private a := by
  obtain ⟨c, hc, hxc⟩ := List.mem_flatMap.mp hx
  rcases eq_or_ne b c with rfl | hne
  · exact Block.not_private_of_inRegion hxc ha
  · intro hprivate
    refine Block.not_holds (L.apart.forall hb hc hne) (Block.holds_of_private hprivate) ?_
    exact Block.holds_of_inRegion hxc ha

theorem keeps_setField (hb : b ∈ L.blocks) {f : Field} (hf : f.Fits) {z : U64} :
    Keeps L i (i.setField b.addr f z) :=
  fun _ hx _ ha => bytes_setField (fun hhead => Layout.not_private hx ha hb (Or.inl hhead)) hf

/-! ## Steps -/

/-- The counters of warnings and errors say nothing about the layout. -/
theorem Represents.congr (h : Represents v L) (hmem : v'.mem = v.mem)
    (hroot : v'.lMemRoot = v.lMemRoot)
    (hbest : v'.lBestBet = 0 ∨ v'.lBestBet ∈ L.blocks.map Block.addr)
    (hallocated : v'.lAllocated = v.lAllocated) (hinuse : v'.lInuse = v.lInuse) :
    Represents v' L :=
  ⟨hroot.trans h.root, hmem ▸ h.links, hmem ▸ h.blocks, hbest, hinuse.trans h.inuse,
    hallocated.trans h.allocated⟩

/-- Blocks that do not overlap, one of them with other pieces. -/
theorem Layout.apart_update (hL : L.blocks = pre ++ b :: post) (haddr : b'.addr = b.addr)
    (hpages : b'.pages = b.pages) :
    (pre ++ b' :: post).Pairwise (Packing.Apart Block.start Block.size) := by
  have hstart : b'.start = b.start := congrArg BitVec.toNat haddr
  have hsize : b'.size = b.size := congrArg (4096 * ·) hpages
  have happ := L.apart
  rw [hL, List.pairwise_append, List.pairwise_cons] at happ
  obtain ⟨hpre, ⟨hb, hpost⟩, hcross⟩ := happ
  refine List.pairwise_append.mpr ⟨hpre, List.pairwise_cons.mpr ⟨fun c hc => ?_, hpost⟩, ?_⟩
  · have := hb c hc
    unfold Packing.Apart at *
    omega
  · intro c hc d hd
    rcases List.mem_cons.mp hd with rfl | hd
    · have := hcross c hc b List.mem_cons_self
      unfold Packing.Apart at *
      omega
    · exact hcross c hc d (List.mem_cons_of_mem b hd)

/-- **Inside one block.**  A step that touches no byte of another block, and in this one neither
the links to other blocks nor anything that the block with its new pieces does not say. -/
theorem Represents.update (h : Represents v L) (hL : L.blocks = pre ++ b :: post)
    (haddr : b'.addr = b.addr) (hpages : b'.pages = b.pages) (hb' : BlockAt v'.mem b')
    (hdom : v'.mem.dom = v.mem.dom) (hbytes : ∀ a, ¬ b.Holds a → v'.mem.bytes a = v.mem.bytes a)
    (hprev : v'.mem.field b.addr Major.prev = v.mem.field b.addr Major.prev)
    (hnext : v'.mem.field b.addr Major.next = v.mem.field b.addr Major.next)
    (hroot : v'.lMemRoot = v.lMemRoot) (hbest : v'.lBestBet = v.lBestBet)
    (hallocated : v'.lAllocated = v.lAllocated)
    (hinuse : v'.lInuse = v.lInuse + BitVec.ofNat 64 b'.inuse - BitVec.ofNat 64 b.inuse) :
    Represents v' ⟨pre ++ b' :: post, L.apart_update hL haddr hpages⟩ := by
  have haddrs : (pre ++ b' :: post).map Block.addr = L.blocks.map Block.addr := by
    rw [hL, List.map_append, List.map_append, List.map_cons, List.map_cons, haddr]
  have happ := L.apart
  rw [hL] at happ
  -- the other blocks keep all their bytes
  have hother : ∀ c ∈ pre ++ post, ∀ a, c.Holds a → v'.mem.bytes a = v.mem.bytes a := by
    intro c hc a ha
    refine hbytes a (Block.not_holds ?_ ha)
    rw [List.pairwise_append, List.pairwise_cons] at happ
    rcases List.mem_append.mp hc with hc | hc
    · exact happ.2.2 c hc b List.mem_cons_self
    · exact Or.symm (happ.2.1.1 c hc)
  have hmem : ∀ c ∈ pre ++ post, c ∈ L.blocks := by
    intro c hc
    rw [hL]
    rcases List.mem_append.mp hc with hc | hc
    · exact List.mem_append_left _ hc
    · exact List.mem_append_right _ (List.mem_cons_of_mem b hc)
  have hkeep : ∀ c ∈ pre ++ post, BlockAt v'.mem c := by
    intro c hc
    have hblock := h.blocks c (hmem c hc)
    exact hblock.congr (fun a ha => hdom ▸ hblock.mapped a ha) fun a ha =>
      hother c hc a (Block.holds_of_private ha)
  have hlink : ∀ (f : Field), f.Fits → v'.mem.field b.addr f = v.mem.field b.addr f →
      ∀ y ∈ L.blocks.map Block.addr, v'.mem.field y f = v.mem.field y f := by
    intro f hf hsame y hy
    obtain ⟨c, hc, rfl⟩ := List.mem_map.mp hy
    rw [hL, List.mem_append, List.mem_cons] at hc
    rcases hc with hc | rfl | hc
    · exact field_congr hf fun a ha =>
        hother c (List.mem_append_left _ hc) a (Block.holds_of_inHeader ha)
    · exact hsame
    · exact field_congr hf fun a ha =>
        hother c (List.mem_append_right _ hc) a (Block.holds_of_inHeader ha)
  constructor
  · rw [hroot, h.root, haddrs]
  · rw [haddrs]
    exact h.links.congr (hlink _ (by decide) hprev) (hlink _ (by decide) hnext)
  · intro c hc
    rw [List.mem_append, List.mem_cons] at hc
    rcases hc with hc | rfl | hc
    · exact hkeep c (List.mem_append_left _ hc)
    · exact hb'
    · exact hkeep c (List.mem_append_right _ hc)
  · rw [hbest, haddrs]
    exact h.best
  · rw [sum_inuse, hinuse, h.inuse, sum_inuse, hL]
    simp only [List.map_append, List.map_cons, List.sum_append, List.sum_cons]
    bv_omega
  · rw [hallocated, h.allocated, hL]
    have hsize : b'.size = b.size := congrArg (4096 * ·) hpages
    simp only [List.map_append, List.map_cons, List.sum_append, List.sum_cons, hsize]

end Liballoc
