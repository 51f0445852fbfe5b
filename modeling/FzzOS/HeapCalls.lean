/-
# `kcalloc` and `krealloc`

The calls built on `kmalloc` and `kfree`: memory filled with zeros, and a piece made smaller where
it is or copied to a larger one.

* `Represents.fill` : what was asked for may be written, and the heap stays as it is;
* `liballocMemset_ends`, `liballocMemcpy_ends` : the helpers;
* `kcalloc_ends`, `krealloc_ends` : the calls.
-/
import FzzOS.HeapFree

open StackWords ByteFields Packing DoubleLinks Program

namespace Liballoc

variable {μ : Type} {m : Platform μ} {Ok : μ → Prop} {image : μ → Image} {v v' : View}
  {L L' : Layout} {b b' c : Block} {x y z : Piece} {l r : List Piece} {i : Image}
  {pre post : List Block} {p q : U64} {flag : Bool} {n : ℕ} {f : ℕ → U8}

/-! ## Bytes in a row -/

/-- Bytes are written from `p` on. -/
def Image.fill (i : Image) (p : U64) (n : ℕ) (f : ℕ → U8) : Image :=
  { i with bytes := ByteFields.fill i.bytes p n f }

/-- The same of what is seen. -/
def Heap.fill (v : View) (p : U64) (n : ℕ) (f : ℕ → U8) : View :=
  { v with mem := v.mem.fill p n f }

theorem bytes_fill {a : U64} (h : (a - p).toNat < n) : (i.fill p n f).bytes a = f (a - p).toNat :=
  fill_of_lt h

theorem Image.Mapped.drop {j : ℕ} (h : i.Mapped p (j + n)) :
    i.Mapped (p + BitVec.ofNat 64 j) n := by
  intro k hk
  rw [BitVec.add_assoc, ← BitVec.ofNat_add]
  exact h _ (by omega)

/-- `liballoc_memset`, from index `i` on. -/
theorem liballocMemset_ends (hm : Lawful m Ok image) {s n : U64} {c : U8} {rounds : ℕ} {i : U32}
    (hn : n.toNat < 2 ^ 32) (hi : i.toNat ≤ n.toNat) (hmap : v.mem.Mapped s n.toNat)
    (hrounds : n.toNat - i.toNat < rounds) {Q : Unit → View → Prop}
    (hQ : Q () (v.fill (s + i.setWidth 64) (n.toNat - i.toNat) fun _ => c)) :
    Ends Ok image (liballocMemset m s c n rounds i) v Q := by
  induction rounds generalizing i v with
  | zero => omega
  | succ rounds ih =>
    have hwidth : (i.setWidth 64 : U64).toNat = i.toNat := by
      rw [BitVec.toNat_setWidth]
      have := i.isLt
      omega
    have hplace : s + i.setWidth 64 = s + BitVec.ofNat 64 i.toNat := by
      apply congrArg (s + ·)
      apply BitVec.eq_of_toNat_eq
      rw [hwidth, BitVec.toNat_ofNat]
      have := i.isLt
      omega
    refine .ite (fun hlt => ?_) fun hge => .pure ?_
    · rw [BitVec.lt_def, hwidth] at hlt
      have hsucc : (i + 1).toNat = i.toNat + 1 := by bv_omega
      have hnext : s + (i + 1).setWidth 64 = s + i.setWidth 64 + 1 := by
        rw [BitVec.add_assoc]
        apply congrArg (s + ·)
        apply BitVec.eq_of_toNat_eq
        rw [BitVec.toNat_setWidth, hsucc, BitVec.toNat_add, hwidth]
        have hone : (1 : U64).toNat = 1 := rfl
        omega
      refine .bind (ends_storeByte hm (hplace ▸ hmap _ hlt) (ih (by omega) ?_ (by omega) ?_))
      · simpa using hmap
      · obtain ⟨k, hk⟩ : ∃ k, n.toNat - i.toNat = k + 1 := ⟨n.toNat - i.toNat - 1, by omega⟩
        have hk' : n.toNat - (i + 1).toNat = k := by omega
        unfold Heap.fill Image.fill at hQ ⊢
        rw [hk, fill_succ (by omega)] at hQ
        rw [hnext, hk']
        unfold Heap.setByte Image.setByte
        exact hQ
    · rw [BitVec.lt_def, hwidth] at hge
      have hzero : n.toNat - i.toNat = 0 := by omega
      rw [hzero] at hQ
      exact hQ

/-- All of it. -/
theorem liballocMemset_zero_ends (hm : Lawful m Ok image) {s n : U64} {c : U8} {rounds : ℕ}
    (hn : n.toNat < 2 ^ 32) (hmap : v.mem.Mapped s n.toNat) (hrounds : n.toNat < rounds)
    {Q : Unit → View → Prop} (hQ : Q () (v.fill s n.toNat fun _ => c)) :
    Ends Ok image (liballocMemset m s c n rounds 0) v Q := by
  refine liballocMemset_ends hm hn (Nat.zero_le _) hmap (lt_of_le_of_lt (Nat.sub_le _ _) hrounds) ?_
  have hstart : s + (0 : U32).setWidth 64 = s := BitVec.add_zero s
  rw [hstart]
  exact hQ

/-- Bytes are copied. -/
def Image.copy (i : Image) (dest src : U64) (n : ℕ) : Image :=
  { i with bytes := ByteFields.copy i.bytes dest src n }

/-- The same of what is seen. -/
def Heap.copy (v : View) (dest src : U64) (n : ℕ) : View :=
  { v with mem := v.mem.copy dest src n }

/-- A word of `n` bytes is copied. -/
theorem ends_copyWord (hm : Lawful m Ok image) {dest src : U64} (hn : n ≤ 8)
    (hdest : v.mem.Mapped dest n) (hsrc : v.mem.Mapped src n) {k : Program (Heap μ) Unit}
    {Q : Unit → View → Prop} (hk : Ends Ok image k (v.copy dest src n) Q) :
    Ends Ok image (do
      let x ← loadWord m n src
      storeWord m n dest x
      k) v Q := by
  refine .bind (ends_loadWord hm hsrc (.bind (ends_storeWord hm hn hdest ?_)))
  have hlt := leNat_lt v.mem.bytes n src
  have hpow : (256 : ℕ) ^ n ≤ 256 ^ 8 := Nat.pow_le_pow_right (by omega) hn
  rw [BitVec.toNat_ofNat, Nat.mod_eq_of_lt (by omega), Image.put, put_leNat]
  exact hk

/-- A byte is copied. -/
theorem ends_copyByte (hm : Lawful m Ok image) {dest src : U64} (hdest : v.mem.Mapped dest 1)
    (hsrc : v.mem.Mapped src 1) {k : Program (Heap μ) Unit} {Q : Unit → View → Prop}
    (hk : Ends Ok image k (v.copy dest src 1) Q) :
    Ends Ok image (do
      let x ← loadByte m src
      storeByte m dest x
      k) v Q := by
  refine .bind (ends_loadByte hm hsrc.first (.bind (ends_storeByte hm hdest.first ?_)))
  unfold Heap.copy Image.copy at hk
  rw [copy_one] at hk
  unfold Heap.setByte Image.setByte
  exact hk

theorem Image.Mapped.take {j : ℕ} (h : i.Mapped p (j + n)) : i.Mapped p j :=
  fun k hk => h k (by omega)

/-- The rest of a copy, of which `j` bytes are done. -/
theorem copy_rest {dest src : U64} {j k : ℕ} (hj : 0 < j)
    (hclear : 0 < j + k → ByteFields.Clear dest (j + k) src (j + k)) :
    v.copy dest src (j + k) = (v.copy dest src j).copy (dest + BitVec.ofNat 64 j)
        (src + BitVec.ofNat 64 j) k ∧
      (0 < k → ByteFields.Clear (dest + BitVec.ofNat 64 j) k (src + BitVec.ofNat 64 j) k) := by
  have hjk : 0 < j + k := by omega
  unfold Heap.copy Image.copy
  rw [copy_append (hclear hjk) hjk]
  exact ⟨rfl, (hclear hjk).drop⟩

/-- `liballoc_memcpy`. -/
theorem liballocMemcpy_ends (hm : Lawful m Ok image) {dest src : U64}
    (hclear : 0 < n → ByteFields.Clear dest n src n) (hdest : v.mem.Mapped dest n)
    (hsrc : v.mem.Mapped src n) {Q : Unit → View → Prop} (hQ : Q () (v.copy dest src n)) :
    Ends Ok image (liballocMemcpy m n dest src) v Q := by
  induction n, dest, src using liballocMemcpy.induct generalizing v with
  | case1 n dest src ih =>
    rw [show n.succ.succ.succ.succ = 4 + n by omega] at *
    obtain ⟨hcopy, hclear'⟩ := copy_rest (v := v) (by omega) hclear
    rw [hcopy] at hQ
    rw [Nat.add_comm, liballocMemcpy]
    exact ends_copyWord hm (by omega) hdest.take hsrc.take (ih hclear' hdest.drop hsrc.drop hQ)
  | case2 n dest src hn ih =>
    rw [show n.succ = 1 + n by omega] at *
    obtain ⟨hcopy, hclear'⟩ := copy_rest (v := v) (by omega) hclear
    rw [hcopy] at hQ
    rw [Nat.add_comm, liballocMemcpy.eq_2 _ _ _ _ (fun k hk => hn k hk)]
    exact ends_copyByte hm hdest.take hsrc.take (ih hclear' hdest.drop hsrc.drop hQ)
  | case3 dest src =>
    rw [liballocMemcpy]
    exact .pure hQ

/-! ## What was asked for may be written -/

/-- The code keeps nothing there. -/
theorem Represents.of_private (hv : Represents v L) (hdom : v'.mem.dom = v.mem.dom)
    (hbytes : ∀ b ∈ L.blocks, ∀ a, b.Private a → v'.mem.bytes a = v.mem.bytes a)
    (hroot : v'.lMemRoot = v.lMemRoot) (hbest : v'.lBestBet = v.lBestBet)
    (hallocated : v'.lAllocated = v.lAllocated) (hinuse : v'.lInuse = v.lInuse) :
    Represents v' L := by
  have hfield : ∀ y ∈ L.blocks.map Block.addr, ∀ f : Field, f.Fits →
      v'.mem.field y f = v.mem.field y f := by
    intro y hy f hf
    obtain ⟨b, hb, rfl⟩ := List.mem_map.mp hy
    exact field_congr hf fun a ha => hbytes b hb a (Or.inl ha)
  refine ⟨hroot.trans hv.root, hv.links.congr (fun y hy => hfield y hy _ (by decide)) fun y hy =>
    hfield y hy _ (by decide), fun b hb => ?_, hbest ▸ hv.best, hinuse.trans hv.inuse,
    hallocated.trans hv.allocated⟩
  exact (hv.blocks b hb).congr (fun a ha => hdom ▸ (hv.blocks b hb).mapped a ha) (hbytes b hb)

theorem Piece.inRegion_add (x : Piece) {j : ℕ} (hj : j < x.req.toNat) :
    x.InRegion (x.ptr + BitVec.ofNat 64 j) := by
  have hlt := x.req.isLt
  unfold Piece.InRegion
  bv_omega

/-- A piece as a stretch of addresses. -/
theorem Layout.inRegion_iff {a : U64} (hx : x ∈ L.pieces) :
    x.InRegion a ↔ x.ptr.toNat ≤ a.toNat ∧ a.toNat < x.ptr.toNat + x.req.toNat := by
  obtain ⟨b, -, hxb⟩ := List.mem_flatMap.mp hx
  have hreg := Block.region hxb
  have hbounds := Block.bounds hxb
  have hend := b.end_le
  unfold Piece.InRegion
  bv_omega

/-- Two pieces do not overlap. -/
theorem Layout.apart_pieces (hx : x ∈ L.pieces) (hy : y ∈ L.pieces) (hne : x ≠ y) :
    x.start + x.len ≤ y.start ∨ y.start + y.len ≤ x.start := by
  obtain ⟨b, hb, hxb⟩ := List.mem_flatMap.mp hx
  obtain ⟨c, hc, hyc⟩ := List.mem_flatMap.mp hy
  rcases eq_or_ne b c with rfl | hbc
  · exact b.packed.apart hxb hyc hne
  · have happ := L.apart.forall hb hc hbc
    have hxbounds := Block.bounds hxb
    have hybounds := Block.bounds hyc
    unfold Packing.Apart at happ
    omega

/-- What was asked for in one piece is not in another. -/
theorem Layout.not_inRegion {a : U64} (hx : x ∈ L.pieces) (hy : y ∈ L.pieces) (hne : x ≠ y)
    (ha : x.InRegion a) : ¬ y.InRegion a := by
  have happ := Layout.apart_pieces hx hy hne
  obtain ⟨b, hb, hxb⟩ := List.mem_flatMap.mp hx
  obtain ⟨c, hc, hyc⟩ := List.mem_flatMap.mp hy
  have hxr := Block.region hxb
  have hyr := Block.region hyc
  rw [Layout.inRegion_iff hx] at ha
  rw [Layout.inRegion_iff hy]
  omega

/-- Bytes put into a piece. -/
theorem Represents.fill (hv : Represents v L) (hx : x ∈ L.pieces) (hn : n ≤ x.req.toNat) :
    Represents (v.fill x.ptr n f) L := by
  refine hv.of_private rfl (fun b hb a ha => fill_of_ge ?_) rfl rfl rfl rfl
  by_contra hlt
  exact Layout.not_private hx (show (a - x.ptr).toNat < x.req.toNat by omega) hb ha

/-- The other pieces stay. -/
theorem fill_keeps {a : U64} (hx : x ∈ L.pieces) (hy : y ∈ L.pieces) (hne : y ≠ x)
    (hn : n ≤ x.req.toNat) (ha : y.InRegion a) : (i.fill x.ptr n f).bytes a = i.bytes a := by
  refine fill_of_ge ?_
  by_contra hlt
  exact Layout.not_inRegion hy hx hne ha (show (a - x.ptr).toNat < x.req.toNat by omega)

theorem Represents.mapped_region (hv : Represents v L) (hx : x ∈ L.pieces) :
    v.mem.Mapped x.ptr x.req.toNat := by
  intro j hj
  obtain ⟨b, hb, hxb⟩ := List.mem_flatMap.mp hx
  exact (hv.blocks b hb).mapped _ (Block.holds_of_inRegion hxb (x.inRegion_add hj))

/-! ## `kcalloc` -/

/-- The pieces of a layout are different from each other. -/
theorem Layout.nodup_pieces (L : Layout) : L.pieces.Nodup := by
  refine List.nodup_flatMap.mpr ⟨fun b _ => b.nodup_addr.of_map Piece.addr, ?_⟩
  refine L.apart.imp fun {b c} happ x hx hx' => ?_
  have hb := Block.bounds hx
  have hc := Block.bounds hx'
  have hlen : headerSize ≤ x.len := Nat.le_add_right _ _
  unfold Packing.Apart at happ
  unfold headerSize at *
  omega

/-- A new piece may be filled. -/
theorem Stored.fill (h : Stored L i x L' v) (hn : n ≤ x.req.toNat) :
    Stored L i x L' (v.fill x.ptr n f) := by
  have hx : x ∈ L'.pieces := h.pieces.mem_iff.mpr List.mem_cons_self
  refine ⟨h.represents.fill hx hn, h.settled, h.pieces, fun y hy a ha => ?_⟩
  have hyL : y ∈ L'.pieces := h.pieces.mem_iff.mpr (List.mem_cons_of_mem x hy)
  have hne : y ≠ x := by
    rintro rfl
    exact (List.nodup_cons.mp (h.pieces.nodup_iff.mp L'.nodup_pieces)).1 hy
  exact (fill_keeps hx hyL hne hn ha).trans (h.keeps y hy a ha)

/-- A piece of this size will be granted: the hook has pages for it, or there is a gap for it. -/
def Granted (i : Image) (L : Layout) (size : U64) : Prop := i.Refuses size → L.HasGap size

/-- **`kcalloc`**, where the product of its arguments, cut to an `int`, is not negative and the
piece is granted. -/
theorem kcalloc_ends (hm : Lawful m Ok image) (hv : Represents v L) (hset : L.Settled)
    {nobj size : U64} {rounds : ℕ} {realSize : U32} (hreal : realSize = (nobj * size).setWidth 32)
    (hpos : realSize.toNat < 2 ^ 31) (hgrant : Granted v.mem L (realSize.setWidth 64 + 32))
    (hrounds : L.bound ≤ rounds) (hrounds' : realSize.toNat < rounds)
    {Q : U64 → Bool × View → Prop}
    (hQ : ∀ x L' w, x.req = realSize.setWidth 64 → Stored L v.mem x L' w →
      (∀ a, x.InRegion a → w.mem.bytes a = 0) → Q x.ptr (true, w)) :
    Calls Ok image (kcalloc m rounds nobj size) (flag, v) Q := by
  have hsign : realSize.signExtend 64 = realSize.setWidth 64 := by
    have hmsb : realSize.msb = false := BitVec.msb_eq_false_iff_two_mul_lt.mpr (by omega)
    exact BitVec.signExtend_eq_setWidth_of_msb_false hmsb
  have hwidth : (realSize.setWidth 64 : U64).toNat = realSize.toNat := by
    rw [BitVec.toNat_setWidth]
    omega
  unfold kcalloc
  dsimp only
  rw [← hreal, hsign]
  refine .bind (kmalloc_ends hm hv hset (by unfold maxSize headerSize; omega) hrounds
    fun p w hserved => ?_)
  cases hserved with
  | refused hook full => exact absurd (hgrant hook) full
  | @stored _ L' x _ hreq hstored _ =>
    have hx : x ∈ L'.pieces := hstored.pieces.mem_iff.mpr List.mem_cons_self
    have hreq' : x.req.toNat = realSize.toNat := by rw [hreq, hwidth]
    have hmap := hstored.represents.mapped_region hx
    rw [hreq', ← hwidth] at hmap
    refine .bind (calls_inner (liballocMemset_zero_ends hm (by omega) hmap (by omega)
      (.pure (hQ x L' _ hreq ?_ fun a ha => ?_))))
    · exact hstored.fill (by omega)
    · have hlt : (a - x.ptr).toNat < (realSize.setWidth 64 : U64).toNat := by
        rw [hwidth, ← hreq']
        exact ha
      exact bytes_fill hlt

/-! ## `krealloc` -/

/-- The heap has the piece `y` in the place of `x`, with as much of what was in it as was asked for
then and is asked for now; what was asked for in the others is as it was. -/
structure Resized (L : Layout) (i : Image) (x y : Piece) (L' : Layout) (v' : View) : Prop where
  represents : Represents v' L'
  settled : L'.Settled
  pieces : ∃ rest, L.pieces.Perm (x :: rest) ∧ L'.pieces.Perm (y :: rest)
  kept : ∀ z ∈ L.pieces, z ≠ x → ∀ a, z.InRegion a → v'.mem.bytes a = i.bytes a
  contents : ∀ j < x.req.toNat, j < y.req.toNat →
    v'.mem.bytes (y.ptr + BitVec.ofNat 64 j) = i.bytes (x.ptr + BitVec.ofNat 64 j)

/-- The piece, if another size is asked for. -/
def Piece.ask (x : Piece) (req : U64) (h : req.toNat ≤ x.req.toNat) : Piece :=
  { x with
    req := req
    room := le_trans (Nat.add_le_add_right h 32) x.room }

/-- The block with this piece. -/
def Block.ask (b : Block) (l : List Piece) (x : Piece) (r : List Piece)
    (hb : b.pieces = l ++ x :: r) (req : U64) (h : req.toNat ≤ x.req.toNat) : Block :=
  { b with
    pieces := l ++ x.ask req h :: r
    packed := by
      have hpacked := b.packed
      rw [hb] at hpacked
      obtain ⟨hl, hx, hr⟩ := packed_append.mp hpacked
      exact packed_append.mpr ⟨hl, hx, hr⟩ }

/-- What the block with this piece says, once it is told the new size. -/
theorem BlockAt.ask (hb : BlockAt i b) (hl : b.pieces = l ++ x :: r) {req : U64}
    (h : req.toNat ≤ x.req.toNat) :
    BlockAt (i.setField x.addr Minor.reqSize req) (b.ask l x r hl req h) := by
  have hx : x ∈ b.pieces := hl ▸ List.mem_append_right _ List.mem_cons_self
  have hxb := (Block.apart_header hx).symm
  have hreq : req.toNat < 2 ^ 32 := by
    have := x.room
    have := x.small
    omega
  have haddrs : (l ++ x.ask req h :: r).map Piece.addr = b.pieces.map Piece.addr := by
    rw [hl, List.map_append, List.map_append, List.map_cons, List.map_cons]
    rfl
  have hlens : (l ++ x.ask req h :: r).map Piece.len = b.pieces.map Piece.len := by
    rw [hl, List.map_append, List.map_append, List.map_cons, List.map_cons]
    rfl
  have hother : ∀ y ∈ b.pieces, y ≠ x → Apart x.addr y.addr := fun y hy hne =>
    Block.apart_pieces hx hy hne.symm
  have hlink : ∀ f : Field, f.Fits → Minor.reqSize.Clear f → ∀ p ∈ b.pieces.map Piece.addr,
      (i.setField x.addr Minor.reqSize req).field p f = i.field p f := by
    intro f hf hclear p hp
    obtain ⟨y, hy, rfl⟩ := List.mem_map.mp hp
    rcases eq_or_ne y x with rfl | hne
    · exact field_setField_of_clear hclear (by decide) hf
    · exact field_setField_of_apart (hother y hy hne) (by decide) hf
  constructor
  · exact fun a ha => (dom_setField (i := i)).symm ▸ hb.mapped a ha
  · exact (field_setField_of_apart hxb (by decide) (by decide)).trans hb.size
  · refine (field_setField_of_apart hxb (by decide) (by decide)).trans (hb.usage.trans ?_)
    rw [Block.usage, Block.usage, Block.ask, hlens]
  · refine (field_setField_of_apart hxb (by decide) (by decide)).trans (hb.first.trans ?_)
    rw [Block.ask, haddrs]
  · rw [Block.ask, haddrs]
    exact hb.links.congr (hlink _ (by decide) (by decide)) (hlink _ (by decide) (by decide))
  · intro y hy
    have hold : ∀ y ∈ b.pieces, y ≠ x →
        PieceAt (i.setField x.addr Minor.reqSize req) b.addr y := by
      intro y hy hne
      have hpiece := hb.pieces y hy
      have hxy := hother y hy hne
      have hinfo := (Block.info_not_inHeader hy).2 x hx
      constructor <;> simp (disch := first | assumption | decide)
        [hpiece.block, hpiece.magic, hpiece.size, hpiece.reqSize, hpiece.info]
    have hnodup := b.nodup_addr.of_map Piece.addr
    rw [hl, List.nodup_middle, List.nodup_cons] at hnodup
    have hside : ∀ z ∈ l ++ r, z ∈ b.pieces ∧ z ≠ x := fun z hz =>
      ⟨hl ▸ mem_middle hz, fun heq => hnodup.1 (heq ▸ hz)⟩
    rcases List.mem_append.mp hy with hy | hy
    · exact hold y (hside y (List.mem_append_left r hy)).1 (hside y (List.mem_append_left r hy)).2
    · rcases List.mem_cons.mp hy with rfl | hy
      · have hpiece := hb.pieces x hx
        have hinfo := (Block.info_not_inHeader hx).2 x hx
        refine ⟨?_, ?_, ?_, ?_, ?_⟩
        · exact (field_setField_of_clear (by decide) (by decide) (by decide)).trans hpiece.block
        · exact (field_setField_of_clear (by decide) (by decide) (by decide)).trans hpiece.magic
        · exact (field_setField_of_clear (by decide) (by decide) (by decide)).trans hpiece.size
        · exact field_setField_four (by decide) (by decide) hreq
        · exact (bytes_setField hinfo (by decide)).trans hpiece.info
      · exact hold y (hside y (List.mem_append_right l hy)).1
          (hside y (List.mem_append_right l hy)).2

/-- `krealloc` up to its look at the size that was asked for. -/
theorem krealloc_live (hm : Lawful m Ok image) (hv : Represents v L) (hx : x ∈ L.pieces)
    {size : U64} {rounds : ℕ} (hsize : size ≠ 0) {Q : U64 → Bool × View → Prop}
    (hshrink : size.toNat ≤ x.req.toNat →
      Q x.ptr (true, v.setField x.addr Minor.reqSize size))
    (hgrow : x.req.toNat < size.toNat → Calls Ok image (do
      let ptr ← kmalloc m rounds size
      inner (liballocMemcpy m x.req.toNat ptr x.ptr)
      kfree m x.ptr
      pure ptr) (true, v) Q) :
    Calls Ok image (krealloc m rounds x.ptr size) (flag, v) Q := by
  obtain ⟨b, hbL, hxb⟩ := List.mem_flatMap.mp hx
  have hblock := hv.blocks b hbL
  have hpiece := hblock.pieces x hxb
  have hmin := hblock.mapped_piece hxb
  have hback : x.addr + Minor.sizeof - Minor.sizeof = x.addr := by
    unfold Minor.sizeof
    bv_omega
  refine .ite (fun h => absurd h hsize) fun _ => ?_
  refine .ite (fun h => absurd h (Block.ptr_ne_zero hxb)) fun _ => ?_
  refine .bind (calls_inner (ends_unalign hm (hblock.dom_info hxb) hpiece.info ?_))
  dsimp only
  rw [hback]
  refine .bind (calls_lock (.bind (calls_inner (ends_get hm ?_))))
  rw [hpiece.magic]
  refine .ite (fun h => absurd rfl h) fun _ => .bind (calls_inner (ends_get hm ?_))
  rw [hpiece.reqSize]
  refine .ite (fun hle => ?_) fun hgt => .bind (calls_unlock (hgrow (by bv_omega)))
  exact .bind (calls_inner (ends_set hm (.bind (calls_unlock (.pure (hshrink hle))))))

/-- **`krealloc`** to a size that is not larger: the piece stays where it is. -/
theorem krealloc_shrink_ends (hm : Lawful m Ok image) (hv : Represents v L) (hset : L.Settled)
    (hx : x ∈ L.pieces) {size : U64} {rounds : ℕ} (hsize : size ≠ 0)
    (hle : size.toNat ≤ x.req.toNat) {Q : U64 → Bool × View → Prop}
    (hQ : ∀ y L' w, y.ptr = x.ptr → y.req = size → Resized L v.mem x y L' w → Q y.ptr (true, w)) :
    Calls Ok image (krealloc m rounds x.ptr size) (flag, v) Q := by
  refine krealloc_live hm hv hx hsize (fun _ => ?_) fun hgt => absurd hgt (Nat.not_lt.mpr hle)
  obtain ⟨b, hbL, hxb⟩ := List.mem_flatMap.mp hx
  obtain ⟨pre, post, hL⟩ := List.append_of_mem hbL
  obtain ⟨l, r, hb⟩ := List.append_of_mem hxb
  have hbx := Block.apart_header hxb
  have hxb' := hbx.symm
  have hmember : ∀ {y}, y ∈ L.pieces → ∀ {a}, y.InRegion a → ¬ b.Private a :=
    fun hy _ ha => Layout.not_private hy ha hbL
  have hbytes : ∀ a, ¬ InHeader x.addr a →
      (v.setField x.addr Minor.reqSize size).mem.bytes a = v.mem.bytes a := by
    intro a ha
    rw [mem_setField]
    exact bytes_setField ha (by decide)
  have hregion : ∀ y ∈ L.pieces, ∀ a, y.InRegion a →
      (v.setField x.addr Minor.reqSize size).mem.bytes a = v.mem.bytes a :=
    fun y hy a ha => hbytes a fun hhead => hmember hy ha (Or.inr ⟨x, hxb, Or.inl hhead⟩)
  have hv' : Represents (v.setField x.addr Minor.reqSize size)
      ⟨pre ++ b.ask l x r hb size hle :: post, L.apart_update hL rfl rfl⟩ := by
    have hask : BlockAt (v.setField x.addr Minor.reqSize size).mem (b.ask l x r hb size hle) := by
      rw [mem_setField]
      exact (hv.blocks b hbL).ask hb hle
    have haddr : (b.ask l x r hb size hle).addr = b.addr := rfl
    refine hv.update hL haddr rfl hask (by simp) (fun a ha => hbytes a fun hhead => ha ?_) ?_ ?_
      (by simp) (by simp) (by simp) ?_
    · exact Block.holds_of_private (Or.inr ⟨x, hxb, Or.inl hhead⟩)
    · simp (disch := first | assumption | decide)
    · simp (disch := first | assumption | decide)
    · have hsame : (b.ask l x r hb size hle).inuse = b.inuse := by
        rw [Block.inuse, Block.inuse, hb, List.map_append, List.map_cons]
        exact congrArg List.sum List.map_append
      rw [hsame, lInuse_setField, BitVec.add_sub_cancel]
  refine hQ (x.ask size hle) _ _ rfl rfl ⟨hv', fun c hc => ?_, ?_, fun z hz _ a ha =>
    hregion z hz a ha, fun j hj _ => hregion x hx _ (x.inRegion_add hj)⟩
  · rcases List.mem_append.mp hc with hc | hc
    · exact hset c (hL ▸ List.mem_append_left _ hc)
    · rcases List.mem_cons.mp hc with rfl | hc
      · exact List.append_ne_nil_of_right_ne_nil _ (List.cons_ne_nil _ r)
      · exact hset c (hL ▸ List.mem_append_right _ (List.mem_cons_of_mem b hc))
  · refine ⟨_, Layout.pieces_update hL hb, ?_⟩
    exact Layout.pieces_update (b := b.ask l x r hb size hle) rfl rfl

/-- Pieces have different pointers. -/
theorem Layout.ptr_injective (hx : x ∈ L.pieces) (hy : y ∈ L.pieces) (h : x.ptr = y.ptr) :
    x = y := by
  by_contra hne
  obtain ⟨b, -, hxb⟩ := List.mem_flatMap.mp hx
  obtain ⟨c, -, hyc⟩ := List.mem_flatMap.mp hy
  have hxr := Block.region hxb
  have hyr := Block.region hyc
  have happ := Layout.apart_pieces hx hy hne
  rw [h] at hxr
  omega

/-- Two pieces asked for, as stretches of addresses. -/
theorem Layout.clear_regions (hx : x ∈ L.pieces) (hy : y ∈ L.pieces) (hne : x ≠ y)
    (hn : n ≤ x.req.toNat) (hn' : n ≤ y.req.toNat) (hpos : 0 < n) :
    ByteFields.Clear x.ptr n y.ptr n := by
  have happ := Layout.apart_pieces hx hy hne
  obtain ⟨b, hb, hxb⟩ := List.mem_flatMap.mp hx
  obtain ⟨c, hc, hyc⟩ := List.mem_flatMap.mp hy
  have hxr := Block.region hxb
  have hyr := Block.region hyc
  have hxbounds := Block.bounds hxb
  have hybounds := Block.bounds hyc
  have hbend := b.end_le
  have hcend := c.end_le
  rcases happ with h | h
  · exact clear_of_le (by omega) (by omega) hpos
  · exact (clear_of_le (by omega) (by omega) hpos).symm

/-- **`krealloc`** to a larger size: a new piece with the same bytes. -/
theorem krealloc_grow_ends (hm : Lawful m Ok image) (hv : Represents v L) (hset : L.Settled)
    (hx : x ∈ L.pieces) {size : U64} {rounds : ℕ} (hgt : x.req.toNat < size.toNat)
    (hmax : size.toNat + 32 ≤ maxSize) (hgrant : Granted v.mem L (size + 32))
    (hrounds : L.bound ≤ rounds) {Q : U64 → Bool × View → Prop}
    (hQ : ∀ y L' w, y.ptr ∉ L.pieces.map Piece.ptr → y.req = size → Resized L v.mem x y L' w →
      Q y.ptr (true, w)) :
    Calls Ok image (krealloc m rounds x.ptr size) (flag, v) Q := by
  have hsize : size ≠ 0 := by
    rintro rfl
    exact absurd hgt (Nat.not_lt_zero _)
  refine krealloc_live hm hv hx hsize (fun hle => absurd hgt (Nat.not_lt.mpr hle)) fun _ => ?_
  refine .bind (kmalloc_ends hm hv hset hmax hrounds fun p w hserved => ?_)
  cases hserved with
  | refused hook full => exact absurd (hgrant hook) full
  | @stored _ L₁ y _ hreq hstored _ =>
    have hy₁ : y ∈ L₁.pieces := hstored.pieces.mem_iff.mpr List.mem_cons_self
    have hold : ∀ z ∈ L.pieces, z ∈ L₁.pieces := fun z hz =>
      hstored.pieces.mem_iff.mpr (List.mem_cons_of_mem y hz)
    have hyL : y ∉ L.pieces := (List.nodup_cons.mp (hstored.pieces.nodup_iff.mp L₁.nodup_pieces)).1
    have hne : ∀ z ∈ L.pieces, z ≠ y := fun z hz heq => hyL (heq ▸ hz)
    have hn : x.req.toNat ≤ y.req.toNat := by
      rw [hreq]
      exact hgt.le
    have hdest : w.mem.Mapped y.ptr x.req.toNat := fun j hj =>
      hstored.represents.mapped_region hy₁ j (by omega)
    -- the copy fills the new piece
    have hcopied := hstored.fill (n := x.req.toNat)
      (f := fun j => w.mem.bytes (x.ptr + BitVec.ofNat 64 j)) hn
    refine .bind (calls_inner (liballocMemcpy_ends hm (fun hpos => ?_) hdest
      (hstored.represents.mapped_region (hold x hx)) (.bind ?_)))
    · exact Layout.clear_regions hy₁ (hold x hx) (hne x hx).symm hn (le_refl _) hpos
    refine kfree_ends hm hcopied.represents hstored.settled (hold x hx) fun L₂ w' hfreed =>
      .pure (hQ y L₂ w' (fun hptr => ?_) hreq ?_)
    · obtain ⟨z, hz, hzy⟩ := List.mem_map.mp hptr
      exact hne z hz (Layout.ptr_injective (hold z hz) hy₁ hzy)
    obtain ⟨s, t, hst⟩ := List.append_of_mem hx
    have hrest : L.pieces.Perm (x :: (s ++ t)) := hst ▸ List.perm_middle
    have hrest' : L₂.pieces.Perm (y :: (s ++ t)) := by
      have hall := hfreed.pieces.symm.trans (hstored.pieces.trans ((hrest.cons y).trans
        (List.Perm.swap x y _)))
      exact (List.perm_cons x).mp hall
    have hstays : ∀ z ∈ L.pieces, z ≠ x → z ∈ L₂.pieces := fun z hz hzx =>
      hrest'.mem_iff.mpr (List.mem_cons_of_mem y
        ((List.mem_cons.mp (hrest.mem_iff.mp hz)).resolve_left hzx))
    refine ⟨hfreed.represents, hfreed.settled, ⟨_, hrest, hrest'⟩, fun z hz hzx a ha => ?_,
      fun j hj hj' => ?_⟩
    · exact (hfreed.keeps z (hstays z hz hzx) a ha).trans (hcopied.keeps z hz a ha)
    · have hyin := y.inRegion_add hj'
      refine (hfreed.keeps y (hrest'.mem_iff.mpr List.mem_cons_self) _ hyin).trans ?_
      have hoffset : (y.ptr + BitVec.ofNat 64 j - y.ptr).toNat = j := by
        have := y.req.isLt
        bv_omega
      refine (bytes_fill (by omega)).trans ?_
      rw [hoffset]
      exact hstored.keeps x hx _ (x.inRegion_add hj)

end Liballoc
