/-
# A new piece in a block

The cases 2, 3 and 4 of `kmalloc` put a piece into a gap of a block: behind the header of a block
without pieces, before the first piece, behind the last one, or between two.

* `Inserted` : what each of them does to memory;
* `Inserted.represents` : that is what the layout with the new piece says;
* `case2_inserted`, `case3_inserted`, `case41_inserted`, `case42_inserted` : each of them does it.
-/
import FzzOS.HeapLayout

open StackWords ByteFields Packing DoubleLinks Program

namespace Liballoc

variable {μ : Type} {m : Platform μ} {Ok : μ → Prop} {image : μ → Image} {v v' : View}
  {b b' : Block} {l r : List Piece} {x y z : Piece}

/-- Block `b'` is block `b` with the piece `x` between `l` and `r`. -/
structure Grown (b : Block) (l : List Piece) (x : Piece) (r : List Piece) (b' : Block) : Prop where
  old : b.pieces = l ++ r
  addr : b'.addr = b.addr
  pages : b'.pages = b.pages
  pieces : b'.pieces = l ++ x :: r

/-- The fields of a minor block that say what it is, and not where its neighbours are. -/
def Minor.own : List Field := [Minor.block, Minor.magic, Minor.size, Minor.reqSize]

/-- The fields of a major block that the cases 2, 3 and 4 do not set. -/
def Major.kept : List Field := [Major.prev, Major.next, Major.size]

theorem Minor.fits_of_next {f : Field} (hf : f ∈ Minor.next :: Minor.own) :
    f.Fits ∧ Minor.prev.Clear f := by
  revert f
  decide

theorem Minor.fits_of_prev {f : Field} (hf : f ∈ Minor.prev :: Minor.own) :
    f.Fits ∧ Minor.next.Clear f := by
  revert f
  decide

theorem Minor.links_fits {f : Field} (hf : f ∈ Minor.prev :: Minor.next :: Minor.own) : f.Fits := by
  revert f
  decide

theorem Major.kept_fits {f : Field} (hf : f ∈ Major.kept) :
    f.Fits ∧ Major.first.Clear f ∧ Major.usage.Clear f := by
  revert f
  decide

/-- The header of `x` and the byte before its pointer are set, the neighbours and the block point
to it, the block and the heap are charged for it, and nothing else happens. -/
structure Inserted (b : Block) (l : List Piece) (x : Piece) (r : List Piece) (v v' : View) :
    Prop where
  dom : v'.mem.dom = v.mem.dom
  bytes : ∀ a, ¬ InHeader b.addr a → (∀ y ∈ l ++ x :: r, ¬ InHeader y.addr a) → a ≠ x.info →
    v'.mem.bytes a = v.mem.bytes a
  piece : PieceAt v'.mem b.addr x
  links : v'.mem.field x.addr Minor.prev = last 0 (l.map Piece.addr) ∧
    v'.mem.field x.addr Minor.next = first (r.map Piece.addr) 0
  prev : ∀ y ∈ l ++ r, v'.mem.field y.addr Minor.prev
    = if (r.map Piece.addr).head? = some y.addr then x.addr else v.mem.field y.addr Minor.prev
  next : ∀ y ∈ l ++ r, v'.mem.field y.addr Minor.next
    = if (l.map Piece.addr).getLast? = some y.addr then x.addr else v.mem.field y.addr Minor.next
  own : ∀ y ∈ l ++ r, ∀ f ∈ Minor.own, v'.mem.field y.addr f = v.mem.field y.addr f
  first : v'.mem.field b.addr Major.first = first ((l ++ x :: r).map Piece.addr) 0
  usage : v'.mem.field b.addr Major.usage = BitVec.ofNat 64 (b.usage + x.len)
  kept : ∀ f ∈ Major.kept, v'.mem.field b.addr f = v.mem.field b.addr f
  root : v'.lMemRoot = v.lMemRoot
  best : v'.lBestBet = v.lBestBet
  allocated : v'.lAllocated = v.lAllocated
  inuse : v'.lInuse = v.lInuse + x.size

/-- The pieces on both sides of a gap. -/
def neighbours (l r : List Piece) : List Piece := l.getLast?.toList ++ r.head?.toList

theorem neighbours_subset (hy : y ∈ neighbours l r) : y ∈ l ++ r := by
  rcases List.mem_append.mp hy with h | h
  · exact List.mem_append_left _ (List.mem_of_getLast? (Option.mem_toList.mp h))
  · exact List.mem_append_right _ (List.mem_of_mem_head? (Option.mem_toList.mp h))

/-! ## What the new layout says -/

namespace Grown

theorem mem (h : Grown b l x r b') : x ∈ b'.pieces := by
  rw [h.pieces]
  exact List.mem_append_right _ List.mem_cons_self

theorem mem_old (h : Grown b l x r b') (hy : y ∈ l ++ r) : y ∈ b'.pieces := by
  rw [h.pieces]
  exact mem_middle hy

theorem holds_iff (h : Grown b l x r b') (a : U64) : b'.Holds a ↔ b.Holds a := by
  have hsize : b'.size = b.size := congrArg (4096 * ·) h.pages
  have hstart : b'.start = b.start := congrArg BitVec.toNat h.addr
  rw [Block.Holds, Block.Holds, hsize, hstart]

/-- The new piece is none of the others. -/
theorem ne (h : Grown b l x r b') (hy : y ∈ l ++ r) : y ≠ x := by
  rintro rfl
  have hnodup := b'.nodup_addr
  rw [h.pieces, List.map_append, List.map_cons, List.nodup_middle, List.nodup_cons,
    ← List.map_append] at hnodup
  exact hnodup.1 (List.mem_map_of_mem hy)

/-- The header of the new piece does not meet the header of the block. -/
theorem apart (h : Grown b l x r b') : Apart b.addr x.addr :=
  h.addr ▸ Block.apart_header h.mem

/-- The header of another piece meets neither of the two. -/
theorem apart_old (h : Grown b l x r b') (hy : y ∈ l ++ r) :
    Apart b.addr y.addr ∧ Apart x.addr y.addr :=
  ⟨h.addr ▸ Block.apart_header (h.mem_old hy),
    Block.apart_pieces h.mem (h.mem_old hy) (h.ne hy).symm⟩

/-- The headers of two other pieces. -/
theorem apart_two (h : Grown b l x r b') (hy : y ∈ l ++ r) (hz : z ∈ l ++ r) (hne : z ≠ y) :
    Apart y.addr z.addr ∧ y.addr ≠ z.addr :=
  ⟨Block.apart_pieces (h.mem_old hy) (h.mem_old hz) hne.symm, fun heq =>
    hne (Block.addr_injective (h.mem_old hy) (h.mem_old hz) heq).symm⟩

/-- A piece is told by its address. -/
theorem of_map_addr (h : Grown b l x r b') {o : Option Piece} (ho : ∀ z ∈ o, z ∈ l ++ r)
    (hy : y ∈ l ++ r) (heq : o.map Piece.addr = some y.addr) : o = some y := by
  obtain ⟨z, rfl, hz⟩ := Option.map_eq_some_iff.mp heq
  rw [Block.addr_injective (h.mem_old (ho z rfl)) (h.mem_old hy) hz]

theorem req_lt (_ : Grown b l x r b') : x.req.toNat < 2 ^ 32 := by
  have := x.room
  have := x.small
  omega

theorem info (h : Grown b l x r b') :
    ¬ InHeader b.addr x.info ∧ ∀ y ∈ b'.pieces, ¬ InHeader y.addr x.info :=
  h.addr ▸ Block.info_not_inHeader h.mem

/-- The place of the new piece. -/
theorem mapped {i : Image} (h : Grown b l x r b') (hb : BlockAt i b) :
    i.Mapped x.addr headerSize ∧ i.dom x.info := by
  have hbounds := Block.bounds h.mem
  have hend := b'.end_le
  have hreg := Block.region h.mem
  refine ⟨fun j hj => hb.mapped _ ((h.holds_iff _).mp ?_),
    hb.mapped _ ((h.holds_iff _).mp ?_)⟩
  · unfold Piece.len headerSize at *
    unfold Block.Holds Piece.start Block.start at *
    bv_omega
  · unfold Block.Holds
    omega

end Grown

/-- The block with the new piece. -/
theorem Inserted.blockAt (h : Inserted b l x r v v') (hb : BlockAt v.mem b)
    (hg : Grown b l x r b') : BlockAt v'.mem b' := by
  have hsize : b'.size = b.size := congrArg (4096 * ·) hg.pages
  have husage : b'.usage = b.usage + x.len := by
    rw [Block.usage, Block.usage, hg.pieces, hg.old]
    simp only [List.map_append, List.map_cons, List.sum_append, List.sum_cons]
    omega
  constructor
  · exact fun a ha => h.dom ▸ hb.mapped a ((hg.holds_iff a).mp ha)
  · rw [hg.addr, h.kept _ (by decide), hb.size, hsize]
  · rw [hg.addr, h.usage, husage]
  · rw [hg.addr, h.first, hg.pieces]
  · have hlinks := hb.links
    rw [hg.old, List.map_append] at hlinks
    rw [hg.pieces, List.map_append, List.map_cons]
    refine hlinks.insert ?_ h.links ?_ ?_
    · rw [← List.map_append, ← hg.old]
      exact b.nodup_addr
    · intro a ha
      rw [← List.map_append] at ha
      obtain ⟨y, hy, rfl⟩ := List.mem_map.mp ha
      exact h.prev y hy
    · intro a ha
      rw [← List.map_append] at ha
      obtain ⟨y, hy, rfl⟩ := List.mem_map.mp ha
      exact h.next y hy
  · intro y hy
    rw [hg.addr]
    rcases eq_or_ne y x with rfl | hne
    · exact h.piece
    · have hy' : y ∈ l ++ r := mem_sides (hg.pieces ▸ hy) hne
      have hold := hb.pieces y (hg.old ▸ hy')
      refine ⟨(h.own y hy' _ (by decide)).trans hold.block,
        (h.own y hy' _ (by decide)).trans hold.magic, (h.own y hy' _ (by decide)).trans hold.size,
        (h.own y hy' _ (by decide)).trans hold.reqSize, ?_⟩
      obtain ⟨hmaj, hmin⟩ := Block.info_not_inHeader hy
      rw [h.bytes _ (hg.addr ▸ hmaj) (hg.pieces ▸ hmin) (Block.info_ne hy hg.mem hne)]
      exact hold.info

/-- A byte that is not one the code keeps for itself in the block with the new piece. -/
theorem Inserted.bytes_eq (h : Inserted b l x r v v') (hg : Grown b l x r b') {a : U64}
    (ha : ¬ b'.Private a) : v'.mem.bytes a = v.mem.bytes a := by
  refine h.bytes a (fun hhead => ha (Or.inl (hg.addr ▸ hhead))) (fun y hy hhead => ?_) ?_
  · exact ha (Or.inr ⟨y, hg.pieces ▸ hy, Or.inl hhead⟩)
  · exact fun heq => ha (Or.inr ⟨x, hg.mem, Or.inr heq⟩)

/-- **One more piece.** -/
theorem Inserted.represents {L : Layout} {pre post : List Block} (h : Inserted b l x r v v')
    (hv : Represents v L) (hL : L.blocks = pre ++ b :: post) (hg : Grown b l x r b') :
    Represents v' ⟨pre ++ b' :: post, L.apart_update hL hg.addr hg.pages⟩ := by
  have hb : b ∈ L.blocks := by
    rw [hL]
    exact List.mem_append_right _ List.mem_cons_self
  have hinuse : b'.inuse = b.inuse + x.size.toNat := by
    rw [Block.inuse, Block.inuse, hg.pieces, hg.old]
    simp only [List.map_append, List.map_cons, List.sum_append, List.sum_cons]
    omega
  refine hv.update hL hg.addr hg.pages (h.blockAt (hv.blocks b hb) hg) h.dom (fun a ha =>
    h.bytes_eq hg fun hprivate => ha ((hg.holds_iff a).mp (Block.holds_of_private hprivate)))
    (h.kept _ (by decide)) (h.kept _ (by decide)) h.root h.best h.allocated ?_
  rw [h.inuse, hinuse]
  bv_omega

/-! ## The cases -/

/-- It is enough to look at the neighbours. -/
theorem Inserted.of_neighbours (hg : Grown b l x r b') (hdom : v'.mem.dom = v.mem.dom)
    (hbytes : ∀ a, ¬ InHeader b.addr a → ¬ InHeader x.addr a →
      (∀ y ∈ neighbours l r, ¬ InHeader y.addr a) → a ≠ x.info →
      v'.mem.bytes a = v.mem.bytes a)
    (hpiece : PieceAt v'.mem b.addr x)
    (hlinks : v'.mem.field x.addr Minor.prev = last 0 (l.map Piece.addr) ∧
      v'.mem.field x.addr Minor.next = DoubleLinks.first (r.map Piece.addr) 0)
    (hlast : ∀ y, l.getLast? = some y → v'.mem.field y.addr Minor.next = x.addr ∧
      ∀ f ∈ Minor.prev :: Minor.own, v'.mem.field y.addr f = v.mem.field y.addr f)
    (hhead : ∀ y, r.head? = some y → v'.mem.field y.addr Minor.prev = x.addr ∧
      ∀ f ∈ Minor.next :: Minor.own, v'.mem.field y.addr f = v.mem.field y.addr f)
    (hfirst : v'.mem.field b.addr Major.first
      = DoubleLinks.first ((l ++ x :: r).map Piece.addr) 0)
    (husage : v'.mem.field b.addr Major.usage = BitVec.ofNat 64 (b.usage + x.len))
    (hkept : ∀ f ∈ Major.kept, v'.mem.field b.addr f = v.mem.field b.addr f)
    (hroot : v'.lMemRoot = v.lMemRoot) (hbest : v'.lBestBet = v.lBestBet)
    (hallocated : v'.lAllocated = v.lAllocated) (hinuse : v'.lInuse = v.lInuse + x.size) :
    Inserted b l x r v v' := by
  -- a piece that is no neighbour keeps its header
  have hother : ∀ y ∈ l ++ r, y ∉ neighbours l r → ∀ f : Field, f.Fits →
      v'.mem.field y.addr f = v.mem.field y.addr f := by
    intro y hy hne f hf
    obtain ⟨hby, hxy⟩ := hg.apart_old hy
    refine field_congr hf fun a ha => hbytes a (not_inHeader_of_apart hby ha)
      (not_inHeader_of_apart hxy ha) (fun z hz => ?_) ?_
    · have hz' : z ∈ l ++ r := neighbours_subset hz
      exact not_inHeader_of_apart (hg.apart_two hz' hy (fun heq => hne (heq ▸ hz))).1 ha
    · rintro rfl
      exact hg.info.2 y (hg.mem_old hy) ha
  have hfield : ∀ y ∈ l ++ r, ∀ f ∈ Minor.prev :: Minor.next :: Minor.own,
      (r.head? = some y → f ≠ Minor.prev) → (l.getLast? = some y → f ≠ Minor.next) →
      v'.mem.field y.addr f = v.mem.field y.addr f := by
    intro y hy f hf hr hl
    by_cases hyr : r.head? = some y
    · exact (hhead y hyr).2 f ((List.mem_cons.mp hf).resolve_left (hr hyr))
    by_cases hyl : l.getLast? = some y
    · refine (hlast y hyl).2 f ?_
      rcases List.mem_cons.mp hf with rfl | hf
      · exact List.mem_cons_self
      · exact List.mem_cons_of_mem _ ((List.mem_cons.mp hf).resolve_left (hl hyl))
    refine hother y hy (fun hmem => ?_) f (Minor.links_fits hf)
    rcases List.mem_append.mp hmem with h | h
    · exact hyl (Option.mem_toList.mp h)
    · exact hyr (Option.mem_toList.mp h)
  refine ⟨hdom, fun a hb hy hax => ?_, hpiece, hlinks, fun y hy => ?_, fun y hy => ?_,
    fun y hy f hf => ?_, hfirst, husage, hkept, hroot, hbest, hallocated, hinuse⟩
  · refine hbytes a hb (hy x (List.mem_append_right _ List.mem_cons_self)) (fun y hmem => ?_) hax
    exact hy y (hg.pieces ▸ hg.mem_old (neighbours_subset hmem))
  · rw [List.head?_map]
    by_cases hyr : r.head? = some y
    · rw [hyr, Option.map_some, if_pos rfl]
      exact (hhead y hyr).1
    · rw [if_neg fun heq => hyr (hg.of_map_addr (fun z hz => List.mem_append_right l
        (List.mem_of_mem_head? hz)) hy heq)]
      exact hfield y hy _ (by decide) (fun h => absurd h hyr) fun _ => by decide
  · rw [List.getLast?_map]
    by_cases hyl : l.getLast? = some y
    · rw [hyl, Option.map_some, if_pos rfl]
      exact (hlast y hyl).1
    · rw [if_neg fun heq => hyl (hg.of_map_addr (fun z hz => List.mem_append_left r
        (List.mem_of_getLast? hz)) hy heq)]
      exact hfield y hy _ (by decide) (fun _ => by decide) fun h => absurd h hyl
  · refine hfield y hy f (List.mem_cons_of_mem _ (List.mem_cons_of_mem _ hf)) (fun _ heq => ?_)
      fun _ heq => ?_
    · exact absurd (heq ▸ hf) (by decide)
    · exact absurd (heq ▸ hf) (by decide)


/-- With the new piece the block is not overfull. -/
theorem Grown.usage_lt (h : Grown b l x r b') :
    (BitVec.ofNat 64 (b.usage + x.len)).toNat < 2 ^ 32 := by
  have hle := b'.usage_le
  have hsmall := b'.small
  have husage : b'.usage = b.usage + x.len := by
    rw [Block.usage, Block.usage, h.pieces, h.old]
    simp only [List.map_append, List.map_cons, List.sum_append, List.sum_cons]
    omega
  unfold Block.size at hle
  rw [BitVec.toNat_ofNat]
  omega

/-- The block and the heap are charged for the piece. -/
theorem ends_charge (hm : Lawful m Ok image) {Q : Unit → View → Prop}
    (husage : v.mem.field b.addr Major.usage = BitVec.ofNat 64 b.usage)
    (h : Q () ((v.setField b.addr Major.usage (BitVec.ofNat 64 (b.usage + x.len))).useMore
      x.size)) (hmaj : v.mem.Mapped b.addr headerSize := by first | assumption | simpa) :
    Ends Ok image (charge m b.addr x.size) v Q := by
  refine .bind (ends_get hm (.bind (ends_set hm (ends_useMore ?_))))
  have hsum : BitVec.ofNat 64 b.usage + (x.size + Minor.sizeof)
      = BitVec.ofNat 64 (b.usage + x.len) := by
    unfold Piece.len headerSize Minor.sizeof
    bv_omega
  rw [husage, hsum]
  exact h

/-- The pointer of a piece. -/
theorem ends_align_piece (hm : Lawful m Ok image) {Q : U64 → View → Prop}
    (h : Q x.ptr (v.setByte x.info x.mark))
    (hinfo : v.mem.dom x.info := by first | assumption | simpa) :
    Ends Ok image (align m (x.addr + Minor.sizeof)) v Q :=
  ends_align hm hinfo h

/-- Case 2 puts the piece behind the header of the block. -/
theorem case2_inserted (hm : Lawful m Ok image) {Q : U64 → View → Prop} (hb : BlockAt v.mem b)
    (hg : Grown b [] x [] b') (hx : x.addr = b.addr + Major.sizeof)
    (hQ : ∀ v', Inserted b [] x [] v v' → Q x.ptr v') :
    Ends Ok image (case2 m x.size x.req b.addr) v Q := by
  have hmaj := hb.mapped_header
  obtain ⟨hmin, hinfo⟩ := hg.mapped hb
  have hbx := hg.apart
  have hxb := hbx.symm
  unfold case2
  rw [← hx]
  refine .bind (ends_set hm (.bind (ends_get hm ?_)))
  rw [mem_setField, field_setField_eight (by decide) (by decide)]
  refine .bind (ends_set hm (.bind (ends_set hm (.bind (ends_set hm ?_)))))
  refine .bind (ends_set hm (.bind (ends_set hm (.bind (ends_set hm ?_)))))
  refine .bind (ends_charge hm ?_ (.bind (ends_get hm ?_)))
  · simp (disch := first | assumption | decide) [hb.usage]
  simp (disch := first | assumption | decide) only [mem_setField, mem_useMore,
    field_setField_of_apart, field_setField_of_clear, field_setField_eight]
  obtain ⟨hib, hiy⟩ := hg.info
  have hix := hiy x hg.mem
  have hsize := x.small
  have husage := hg.usage_lt
  have hreq := hg.req_lt
  refine ends_align_piece hm (hQ _ ?_)
  refine .of_neighbours hg (by simp) ?_ ?_ ?_ nofun nofun ?_ ?_ ?_ (by simp) (by simp)
    (by simp) (by simp)
  · intro a hba hxa _ hne
    simp (disch := first | assumption | decide)
  · constructor <;> simp (disch := first | assumption | decide)
  · constructor <;> simp (disch := first | assumption | decide)
  · simp (disch := first | assumption | decide)
  · simp (disch := first | assumption | decide)
  · intro f hf
    obtain ⟨hfits, hff, hfu⟩ := Major.kept_fits hf
    simp (disch := first | assumption | decide)

/-- Case 3 puts the piece between the header of the block and the first piece. -/
theorem case3_inserted (hm : Lawful m Ok image) {Q : U64 → View → Prop} (hb : BlockAt v.mem b)
    (hg : Grown b [] x (y :: r) b') (hx : x.addr = b.addr + Major.sizeof)
    (hQ : ∀ v', Inserted b [] x (y :: r) v v' → Q x.ptr v') :
    Ends Ok image (case3 m x.size x.req b.addr) v Q := by
  have hmaj := hb.mapped_header
  obtain ⟨hmin, hinfo⟩ := hg.mapped hb
  have hyb : y ∈ b.pieces := hg.old ▸ List.mem_cons_self
  have hmy := hb.mapped_piece hyb
  have hfirst := hb.first
  rw [hg.old, List.nil_append, List.map_cons, first_cons] at hfirst
  have hbx := hg.apart
  have hxb := hbx.symm
  obtain ⟨hby, hxy⟩ := hg.apart_old (y := y) List.mem_cons_self
  have hyb := hby.symm
  have hyx := hxy.symm
  unfold case3
  rw [← hx]
  refine .bind (ends_get hm ?_)
  rw [hfirst]
  refine .bind (ends_set hm (.bind (ends_get hm ?_)))
  rw [mem_setField, field_setField_eight (by decide) (by decide)]
  refine .bind (ends_set hm (.bind (ends_get hm ?_)))
  simp (disch := first | assumption | decide) only [mem_setField, field_setField_of_apart,
    field_setField_eight]
  refine .bind (ends_set hm (.bind (ends_get hm ?_)))
  rw [mem_setField, field_setField_eight (by decide) (by decide)]
  refine .bind (ends_set hm (.bind (ends_set hm (.bind (ends_set hm ?_)))))
  refine .bind (ends_set hm (.bind (ends_set hm ?_)))
  refine .bind (ends_charge hm ?_ (.bind (ends_get hm ?_)))
  · simp (disch := first | assumption | decide) [hb.usage]
  simp (disch := first | assumption | decide) only [mem_setField, mem_useMore,
    field_setField_of_apart, field_setField_of_clear, field_setField_eight]
  obtain ⟨hib, hiy⟩ := hg.info
  have hix := hiy x hg.mem
  have hiy' := hiy y (hg.mem_old List.mem_cons_self)
  have hsize := x.small
  have husage := hg.usage_lt
  have hreq := hg.req_lt
  refine ends_align_piece hm (hQ _ ?_)
  refine .of_neighbours hg (by simp) ?_ ?_ ?_ nofun ?_ ?_ ?_ ?_ (by simp) (by simp)
    (by simp) (by simp)
  · intro a hba hxa hya hne
    have hya := hya y List.mem_cons_self
    simp (disch := first | assumption | decide)
  · constructor <;> simp (disch := first | assumption | decide)
  · constructor <;> simp (disch := first | assumption | decide)
  · rintro z ⟨⟩
    refine ⟨by simp (disch := first | assumption | decide), fun f hf => ?_⟩
    obtain ⟨hfits, hfp⟩ := Minor.fits_of_next hf
    simp (disch := first | assumption | decide)
  · simp (disch := first | assumption | decide)
  · simp (disch := first | assumption | decide)
  · intro f hf
    obtain ⟨hfits, hff, hfu⟩ := Major.kept_fits hf
    simp (disch := first | assumption | decide)

/-- Case 4.1 puts the piece behind the last one. -/
theorem case41_inserted (hm : Lawful m Ok image) {Q : Option U64 → View → Prop}
    (hb : BlockAt v.mem b) (hg : Grown b (l ++ [y]) x [] b')
    (hx : x.addr = y.addr + Minor.sizeof + y.size)
    (hfit : x.size + Minor.sizeof ≤
      b.addr + BitVec.ofNat 64 b.size - y.addr - Minor.sizeof - y.size)
    (hQ : ∀ v', Inserted b (l ++ [y]) x [] v v' → Q (some x.ptr) v') :
    Ends Ok image (case41 m x.size x.req b.addr y.addr) v Q := by
  have hmaj := hb.mapped_header
  obtain ⟨hmin, hinfo⟩ := hg.mapped hb
  have hmem : y ∈ (l ++ [y]) ++ [] := List.mem_append_left _ (List.mem_append_right _
    List.mem_cons_self)
  have hy : y ∈ b.pieces := hg.old ▸ hmem
  have hmy := hb.mapped_piece hy
  have hnext : v.mem.field y.addr Minor.next = 0 := by
    have hlinks := hb.links
    rw [hg.old, List.append_nil, List.map_append, List.map_cons, List.map_nil] at hlinks
    exact hlinks.at.2
  have hbx := hg.apart
  have hxb := hbx.symm
  obtain ⟨hby, hxy⟩ := hg.apart_old hmem
  have hyb := hby.symm
  have hyx := hxy.symm
  unfold case41
  refine .bind (ends_get hm ?_)
  rw [if_pos hnext]
  refine .bind (ends_get hm (.bind (ends_get hm ?_)))
  rw [hb.size, (hb.pieces y hy).size, if_pos hfit, ← hx]
  refine .bind (ends_set hm (.bind (ends_get hm ?_)))
  rw [mem_setField, field_setField_eight (by decide) (by decide)]
  refine .bind (ends_set hm (.bind (ends_get hm ?_)))
  simp (disch := first | assumption | decide) only [mem_setField, field_setField_of_apart,
    field_setField_eight]
  refine .bind (ends_set hm (.bind (ends_set hm (.bind (ends_set hm ?_)))))
  refine .bind (ends_set hm (.bind (ends_set hm (.bind (ends_charge hm ?_ (.map ?_))))))
  · simp (disch := first | assumption | decide) [hb.usage]
  obtain ⟨hib, hiy⟩ := hg.info
  have hix := hiy x hg.mem
  have hiy' := hiy y (hg.mem_old hmem)
  have hsize := x.small
  have husage := hg.usage_lt
  have hreq := hg.req_lt
  refine ends_align_piece hm (hQ _ ?_)
  refine .of_neighbours hg (by simp) ?_ ?_ ?_ ?_ nofun ?_ ?_ ?_ (by simp) (by simp)
    (by simp) (by simp)
  · intro a hba hxa hya hne
    have hya := hya y (by simp [neighbours])
    simp (disch := first | assumption | decide)
  · constructor <;> simp (disch := first | assumption | decide)
  · constructor <;> simp (disch := first | assumption | decide)
  · intro z hz
    rw [List.getLast?_concat, Option.some.injEq] at hz
    subst hz
    refine ⟨by simp (disch := first | assumption | decide), fun f hf => ?_⟩
    obtain ⟨hfits, hfn⟩ := Minor.fits_of_prev hf
    simp (disch := first | assumption | decide)
  · have hold := hb.first
    rw [hg.old] at hold
    simp (disch := first | assumption | decide) [hold]
  · simp (disch := first | assumption | decide)
  · intro f hf
    obtain ⟨hfits, hff, hfu⟩ := Major.kept_fits hf
    simp (disch := first | assumption | decide)

/-- Case 4.2 puts the piece between two others. -/
theorem case42_inserted (hm : Lawful m Ok image) {Q : Option U64 → View → Prop}
    (hb : BlockAt v.mem b) (hg : Grown b (l ++ [y]) x (z :: r) b')
    (hx : x.addr = y.addr + Minor.sizeof + y.size)
    (hfit : x.size + Minor.sizeof ≤ z.addr - y.addr - Minor.sizeof - y.size)
    (hQ : ∀ v', Inserted b (l ++ [y]) x (z :: r) v v' → Q (some x.ptr) v') :
    Ends Ok image (case42 m x.size x.req b.addr y.addr) v Q := by
  have hmaj := hb.mapped_header
  obtain ⟨hmin, hinfo⟩ := hg.mapped hb
  have hmem : y ∈ (l ++ [y]) ++ z :: r := List.mem_append_left _ (List.mem_append_right _
    List.mem_cons_self)
  have hmemz : z ∈ (l ++ [y]) ++ z :: r := List.mem_append_right _ List.mem_cons_self
  have hy : y ∈ b.pieces := hg.old ▸ hmem
  have hz : z ∈ b.pieces := hg.old ▸ hmemz
  have hmy := hb.mapped_piece hy
  have hmz := hb.mapped_piece hz
  have hnext : v.mem.field y.addr Minor.next = z.addr := by
    have hlinks := hb.links
    rw [hg.old, List.append_assoc, List.map_append, List.singleton_append, List.map_cons]
      at hlinks
    exact hlinks.at.2
  have hzy : z ≠ y := by
    rintro rfl
    have hnodup := b.nodup_addr
    rw [hg.old, List.map_append, List.nodup_append] at hnodup
    exact hnodup.2.2 z.addr (by simp) z.addr (by simp) rfl
  have hbx := hg.apart
  have hxb := hbx.symm
  obtain ⟨hby, hxy⟩ := hg.apart_old hmem
  obtain ⟨hbz, hxz⟩ := hg.apart_old hmemz
  have hyz := (hg.apart_two hmem hmemz hzy).1
  have hyb := hby.symm
  have hyx := hxy.symm
  have hzb := hbz.symm
  have hzx := hxz.symm
  have hzy := hyz.symm
  unfold case42
  refine .bind (ends_get hm ?_)
  rw [hnext, if_pos (Block.piece_ne_zero hz)]
  refine .bind (ends_get hm ?_)
  rw [(hb.pieces y hy).size, if_pos hfit, ← hx]
  refine .bind (ends_set hm (.bind (ends_get hm ?_)))
  simp (disch := first | assumption | decide) only [mem_setField, field_setField_of_apart, hnext]
  refine .bind (ends_set hm (.bind (ends_set hm (.bind (ends_set hm ?_)))))
  refine .bind (ends_set hm (.bind (ends_set hm (.bind (ends_get hm ?_)))))
  simp (disch := first | assumption | decide) only [mem_setField, field_setField_of_apart, hnext]
  refine .bind (ends_set hm (.bind (ends_set hm (.bind (ends_charge hm ?_ (.map ?_))))))
  · simp (disch := first | assumption | decide) [hb.usage]
  obtain ⟨hib, hiy⟩ := hg.info
  have hix := hiy x hg.mem
  have hiy' := hiy y (hg.mem_old hmem)
  have hiz' := hiy z (hg.mem_old hmemz)
  have hsize := x.small
  have husage := hg.usage_lt
  have hreq := hg.req_lt
  refine ends_align_piece hm (hQ _ ?_)
  refine .of_neighbours hg (by simp) ?_ ?_ ?_ ?_ ?_ ?_ ?_ ?_ (by simp) (by simp)
    (by simp) (by simp)
  · intro a hba hxa hya hne
    have hza := hya z (by simp [neighbours])
    have hya := hya y (by simp [neighbours])
    simp (disch := first | assumption | decide)
  · constructor <;> simp (disch := first | assumption | decide)
  · constructor <;> simp (disch := first | assumption | decide)
  · intro w hw
    rw [List.getLast?_concat, Option.some.injEq] at hw
    subst hw
    refine ⟨by simp (disch := first | assumption | decide), fun f hf => ?_⟩
    obtain ⟨hfits, hfn⟩ := Minor.fits_of_prev hf
    simp (disch := first | assumption | decide)
  · rintro w ⟨⟩
    refine ⟨by simp (disch := first | assumption | decide), fun f hf => ?_⟩
    obtain ⟨hfits, hfp⟩ := Minor.fits_of_next hf
    simp (disch := first | assumption | decide)
  · have hold := hb.first
    rw [hg.old] at hold
    simp (disch := first | assumption | decide) [hold]
  · simp (disch := first | assumption | decide)
  · intro f hf
    obtain ⟨hfits, hff, hfu⟩ := Major.kept_fits hf
    simp (disch := first | assumption | decide)

/-! ## The search for a gap -/

/-- A piece of this size and for this request was put into the block, and `p` is its pointer. -/
def Placed (b : Block) (size req : U64) (v : View) (p : U64) (v' : View) : Prop :=
  ∃ l x r b', Grown b l x r b' ∧ x.size = size ∧ x.req = req ∧ p = x.ptr ∧
    Inserted b l x r v v'

variable {size req : U64} {pre post : List Block}

/-- Where the gap behind a piece ends. -/
theorem Block.gap (hl : b.pieces = l ++ y :: r) :
    y.start + y.len ≤ startOf Piece.start r (b.start + b.size) ∧
      startOf Piece.start r (b.start + b.size) ≤ b.start + b.size := by
  have hpacked := b.packed
  rw [hl] at hpacked
  exact (packed_append.mp hpacked).2.2.startOf

theorem Block.ofNat_end (b : Block) :
    BitVec.ofNat 64 (b.start + b.size) = b.addr + BitVec.ofNat 64 b.size := by
  rw [BitVec.ofNat_add, Block.start, BitVec.ofNat_toNat, BitVec.setWidth_eq]

/-- The room in the gap behind a piece, as the code computes it. -/
theorem gap_le_iff (hl : b.pieces = l ++ y :: r) (hsize : size.toNat < 2 ^ 32) :
    size + Minor.sizeof ≤ BitVec.ofNat 64 (startOf Piece.start r (b.start + b.size)) - y.addr
        - Minor.sizeof - y.size ↔
      y.start + y.len + (headerSize + size.toNat)
        ≤ startOf Piece.start r (b.start + b.size) := by
  obtain ⟨hle, hend⟩ := Block.gap hl
  have hblock := b.end_le
  have hy := y.small
  unfold Piece.len headerSize Piece.start Minor.sizeof at *
  generalize startOf _ r _ = e at *
  bv_omega

/-- The piece behind another one, if it fits there. -/
theorem exists_grown_after (hl : b.pieces = l ++ y :: r) (hsize : size.toNat < 2 ^ 32)
    (hroom : req.toNat + 32 ≤ size.toNat)
    (hfit : y.start + y.len + (headerSize + size.toNat)
      ≤ startOf Piece.start r (b.start + b.size)) :
    ∃ x b', x.size = size ∧ x.req = req ∧ x.addr = y.addr + Minor.sizeof + y.size ∧
      Grown b (l ++ [y]) x r b' := by
  obtain ⟨hle, hend⟩ := Block.gap hl
  have hblock := b.end_le
  have hstart : (y.addr + Minor.sizeof + y.size).toNat = y.start + y.len := by
    unfold Piece.len headerSize Piece.start Minor.sizeof at *
    generalize startOf _ r _ = e at *
    bv_omega
  have hl' : b.pieces = (l ++ [y]) ++ r := by rw [hl, List.append_assoc]; rfl
  refine ⟨⟨y.addr + Minor.sizeof + y.size, size, req, hsize, hroom⟩,
    b.insert (l ++ [y]) _ r hl' ?_ ?_, rfl, rfl, rfl, hl', rfl, rfl, rfl⟩
  · rw [endOf_concat]
    exact hstart.ge
  · show (y.addr + Minor.sizeof + y.size).toNat + (headerSize + size.toNat) ≤ _
    rw [hstart]
    exact hfit

/-- The piece behind the header of the block, if it fits there. -/
theorem exists_grown_front (hsize : size.toNat < 2 ^ 32) (hroom : req.toNat + 32 ≤ size.toNat)
    (hfit : b.start + headerSize + (headerSize + size.toNat)
      ≤ startOf Piece.start b.pieces (b.start + b.size)) :
    ∃ x b', x.size = size ∧ x.req = req ∧ x.addr = b.addr + Major.sizeof ∧
      Grown b [] x b.pieces b' := by
  have hblock := b.end_le
  have hle := b.header_le
  have hstart : (b.addr + Major.sizeof).toNat = b.start + headerSize := by
    have hend : startOf Piece.start b.pieces (b.start + b.size) ≤ b.start + b.size :=
      b.packed.startOf.2
    unfold headerSize Block.start Major.sizeof at *
    generalize startOf _ b.pieces _ = e at *
    bv_omega
  refine ⟨⟨b.addr + Major.sizeof, size, req, hsize, hroom⟩,
    b.insert [] _ b.pieces rfl ?_ ?_, rfl, rfl, rfl, rfl, rfl, rfl, rfl⟩
  · rw [endOf_nil]
    exact hstart.ge
  · show (b.addr + Major.sizeof).toNat + (headerSize + size.toNat) ≤ _
    rw [hstart]
    exact hfit

/-- Case 4.1 where there is no room, or another piece. -/
theorem case41_none (hm : Lawful m Ok image) {Q : Option U64 → View → Prop}
    (hb : BlockAt v.mem b) (hl : b.pieces = l ++ y :: r) (hsize : size.toNat < 2 ^ 32)
    (hno : r = [] → ¬ y.start + y.len + (headerSize + size.toNat)
      ≤ startOf Piece.start r (b.start + b.size)) (hQ : Q none v) :
    Ends Ok image (case41 m size req b.addr y.addr) v Q := by
  have hmaj := hb.mapped_header
  have hy : y ∈ b.pieces := hl ▸ List.mem_append_right _ List.mem_cons_self
  have hmy := hb.mapped_piece hy
  have hlinks := hb.links
  rw [hl, List.map_append, List.map_cons] at hlinks
  unfold case41
  refine .bind (ends_get hm (.ite (fun hnext => ?_) fun _ => .pure hQ))
  rw [hlinks.at.2] at hnext
  have hr : r = [] := by
    cases r with
    | nil => rfl
    | cons z r => exact absurd hnext (Block.piece_ne_zero (b := b) (x := z) (by simp [hl]))
  refine .bind (ends_get hm (.bind (ends_get hm ?_)))
  rw [hb.size, (hb.pieces y hy).size]
  refine .ite (fun hfit => absurd ((gap_le_iff hl hsize).mp ?_) (hno hr)) fun _ => .pure hQ
  rw [hr, startOf_nil, b.ofNat_end]
  exact hfit

/-- Case 4.2 where there is no room, or no other piece. -/
theorem case42_none (hm : Lawful m Ok image) {Q : Option U64 → View → Prop}
    (hb : BlockAt v.mem b) (hl : b.pieces = l ++ y :: r) (hsize : size.toNat < 2 ^ 32)
    (hno : r ≠ [] → ¬ y.start + y.len + (headerSize + size.toNat)
      ≤ startOf Piece.start r (b.start + b.size)) (hQ : Q none v) :
    Ends Ok image (case42 m size req b.addr y.addr) v Q := by
  have hy : y ∈ b.pieces := hl ▸ List.mem_append_right _ List.mem_cons_self
  have hmy := hb.mapped_piece hy
  have hlinks := hb.links
  rw [hl, List.map_append, List.map_cons] at hlinks
  unfold case42
  refine .bind (ends_get hm (.ite (fun hnext => ?_) fun _ => .pure hQ))
  rw [hlinks.at.2] at hnext ⊢
  have hr : r ≠ [] := by
    rintro rfl
    exact hnext rfl
  refine .bind (ends_get hm ?_)
  rw [(hb.pieces y hy).size]
  refine .ite (fun hfit => absurd ((gap_le_iff hl hsize).mp ?_) (hno hr)) fun _ => .pure hQ
  obtain ⟨z, r, rfl⟩ := List.exists_cons_of_ne_nil hr
  rw [startOf_cons, Piece.start, BitVec.ofNat_toNat, BitVec.setWidth_eq]
  exact hfit

variable {flag : Bool} {rounds : ℕ} {Q : Option U64 → Bool × View → Prop}

/-- The pieces behind `l` are those in `r`, and the gap between takes another one of this size. -/
def Block.Fits (b : Block) (size : U64) (l r : List Piece) : Prop :=
  b.pieces = l ++ r ∧
    endOf Piece.start Piece.len (b.start + headerSize) l + (headerSize + size.toNat)
      ≤ startOf Piece.start r (b.start + b.size)

/-- Some gap of the block takes another piece of this size. -/
def Block.HasGap (b : Block) (size : U64) : Prop := ∃ l r, b.Fits size l r

/-- **The loop over the pieces.**  From the piece behind `l` on it puts the new one into the first
gap that takes it, or there is none, and it has done nothing. -/
theorem minorLoop_ends (hm : Lawful m Ok image) (hb : BlockAt v.mem b) (hl : b.pieces = l ++ r)
    (hsize : size.toNat < 2 ^ 32) (hroom : req.toNat + 32 ≤ size.toNat)
    (hrounds : r.length < rounds)
    (hseen : ∀ l' r', l'.length ≤ l.length → ¬ b.Fits size l' r')
    (hnone : ¬ b.HasGap size → Q none (flag, v))
    (hsome : ∀ p v', Placed b size req v p v' → Q (some p) (true, v')) :
    Calls Ok image (minorLoop m size req b.addr rounds (first (r.map Piece.addr) 0))
      (flag, v) Q := by
  induction r generalizing l rounds with
  | nil =>
    obtain ⟨rounds, rfl⟩ := Nat.exists_eq_succ_of_ne_zero (by omega : rounds ≠ 0)
    refine .ite (fun _ => .pure (hnone ?_)) fun hne => absurd rfl hne
    rintro ⟨l', r', hfits⟩
    refine hseen l' r' ?_ hfits
    rw [← List.append_nil l, ← hl, hfits.1, List.length_append]
    exact Nat.le_add_right _ _
  | cons y r ih =>
    obtain ⟨rounds, rfl⟩ := Nat.exists_eq_succ_of_ne_zero (by omega : rounds ≠ 0)
    have hy : y ∈ b.pieces := hl ▸ List.mem_append_right _ List.mem_cons_self
    have hmy := hb.mapped_piece hy
    have hl' : b.pieces = (l ++ [y]) ++ r := by rw [hl, List.append_assoc]; rfl
    rw [List.map_cons, first_cons, minorLoop, if_neg (Block.piece_ne_zero hy)]
    have hnext : v.mem.field y.addr Minor.next = first (r.map Piece.addr) 0 := by
      have hlinks := hb.links
      rw [hl, List.map_append, List.map_cons] at hlinks
      exact hlinks.at.2
    by_cases hfit : y.start + y.len + (headerSize + size.toNat)
        ≤ startOf Piece.start r (b.start + b.size)
    · -- the gap behind `y` takes the piece
      obtain ⟨x, b', rfl, rfl, hx, hg⟩ := exists_grown_after hl hsize hroom hfit
      have hgap := (gap_le_iff hl hsize).mpr hfit
      cases r with
      | nil =>
        rw [startOf_nil, b.ofNat_end] at hgap
        refine .bind (.inner (case41_inserted hm hb hg hx hgap fun v' hv' => ?_))
        exact .bind (calls_unlock (.pure (hsome _ _ ⟨_, x, _, b', hg, rfl, rfl, rfl, hv'⟩)))
      | cons z r =>
        rw [startOf_cons, Piece.start, BitVec.ofNat_toNat, BitVec.setWidth_eq] at hgap
        refine .bind (.inner (case41_none hm hb hl hsize (absurd · (List.cons_ne_nil z r)) ?_))
        refine .bind (.inner (case42_inserted hm hb hg hx hgap fun v' hv' => ?_))
        exact .bind (calls_unlock (.pure (hsome _ _ ⟨_, x, _, b', hg, rfl, rfl, rfl, hv'⟩)))
    · refine .bind (.inner (case41_none hm hb hl hsize (fun _ => hfit) ?_))
      refine .bind (.inner (case42_none hm hb hl hsize (fun _ => hfit) ?_))
      refine .bind (.inner (ends_get hm ?_))
      rw [hnext]
      refine ih hl' (by simpa using hrounds) fun l' r' hlen hfits => ?_
      rw [List.length_append, List.length_singleton] at hlen
      rcases Nat.lt_or_ge l'.length (l.length + 1) with hlt | hge
      · exact hseen l' r' (Nat.le_of_lt_succ hlt) hfits
      · obtain ⟨rfl, rfl⟩ := List.append_inj (hl'.symm.trans hfits.1) (by
          rw [List.length_append, List.length_singleton]
          omega)
        have hgap := hfits.2
        rw [endOf_concat] at hgap
        exact hfit hgap

/-- **The cases 2, 3 and 4.**  If the block is without pieces it has to have room for this one. -/
theorem place_ends (hm : Lawful m Ok image) (hb : BlockAt v.mem b)
    (hsize : size.toNat < 2 ^ 32) (hroom : req.toNat + 32 ≤ size.toNat)
    (hrounds : b.pieces.length < rounds)
    (hempty : b.pieces = [] → headerSize + (headerSize + size.toNat) ≤ b.size)
    (hnone : b.pieces ≠ [] → ¬ b.HasGap size → Q none (flag, v))
    (hsome : ∀ p v', Placed b size req v p v' → Q (some p) (true, v')) :
    Calls Ok image (place m rounds size req b.addr) (flag, v) Q := by
  have hmaj := hb.mapped_header
  have hfront : startOf Piece.start b.pieces (b.start + b.size) ≤ b.start + b.size :=
    b.packed.startOf.2
  unfold place
  refine .bind (.inner (ends_get hm ?_))
  rw [hb.first]
  cases hp : b.pieces with
  | nil =>
    have hfit := hempty hp
    obtain ⟨x, b', rfl, rfl, hx, hg⟩ := exists_grown_front (b := b) hsize hroom
      (by rw [hp, startOf_nil]; omega)
    rw [hp] at hg
    rw [List.map_nil, first_nil, if_pos rfl]
    refine .bind (.inner (case2_inserted hm hb hg hx fun v' hv' => ?_))
    exact .bind (calls_unlock (.pure (hsome _ _ ⟨_, x, _, b', hg, rfl, rfl, rfl, hv'⟩)))
  | cons y r =>
    have hy : y ∈ b.pieces := hp ▸ List.mem_cons_self
    rw [List.map_cons, first_cons, if_neg (Block.piece_ne_zero hy)]
    have hybounds := Block.bounds hy
    have hgap : size + Minor.sizeof ≤ y.addr - b.addr - Major.sizeof ↔
        b.start + headerSize + (headerSize + size.toNat) ≤ y.start := by
      have hend := b.end_le
      unfold Piece.len headerSize Piece.start Block.start Minor.sizeof Major.sizeof at *
      bv_omega
    refine .ite (fun hfit => ?_) fun hno => ?_
    · obtain ⟨x, b', rfl, rfl, hx, hg⟩ := exists_grown_front (b := b) hsize hroom
        (by rw [hp, startOf_cons]; exact hgap.mp hfit)
      rw [hp] at hg
      refine .bind (.inner (case3_inserted hm hb hg hx fun v' hv' => ?_))
      exact .bind (calls_unlock (.pure (hsome _ _ ⟨_, x, _, b', hg, rfl, rfl, rfl, hv'⟩)))
    · have hfront : ∀ l' r', l'.length ≤ ([] : List Piece).length → ¬ b.Fits size l' r' := by
        rintro l' r' hlen ⟨hpieces, hfits⟩
        obtain rfl := List.length_eq_zero_iff.mp (Nat.le_zero.mp hlen)
        rw [← hpieces.trans (List.nil_append r'), hp, endOf_nil, startOf_cons] at hfits
        exact hno (hgap.mpr hfits)
      exact minorLoop_ends (l := []) (r := y :: r) hm hb hp hsize hroom (hp ▸ hrounds) hfront
        (hnone (hp ▸ List.cons_ne_nil y r)) hsome

/-- A gap that takes a piece is not more than what the block has left. -/
theorem Block.HasGap.usage_le (h : b.HasGap size) :
    b.usage + (headerSize + size.toNat) ≤ b.size := by
  obtain ⟨l, r, hl, hfits⟩ := h
  have hpacked := b.packed
  rw [hl] at hpacked
  obtain ⟨hleft, hright⟩ := packed_append.mp hpacked
  have hsumr : startOf Piece.start r (b.start + b.size) + (r.map Piece.len).sum
      ≤ b.start + b.size := by
    have hpackedr : Packed Piece.start Piece.len (startOf Piece.start r (b.start + b.size)) r
        (b.start + b.size) := by
      cases r with
      | nil => exact le_refl _
      | cons y r => exact ⟨le_refl _, hright.2⟩
    exact hpackedr.sum_le
  have hsuml := hleft.sum_le
  rw [Block.usage, hl, List.map_append, List.sum_append]
  unfold Block.start at *
  omega

end Liballoc
