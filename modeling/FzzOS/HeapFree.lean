/-
# `kfree`

A piece is taken out of the list of its block, and a block without pieces out of the list of
blocks.

* `Image.setAt` : a field of a neighbour, if there is one;
* `Removed` : what is done to the block of the piece;
* `dropMajor_ends` : a block without pieces is dropped;
* `kfree_ends` : the heap without the piece.
-/
import FzzOS.HeapMalloc

open StackWords ByteFields Packing DoubleLinks Program

namespace Liballoc

variable {μ : Type} {m : Platform μ} {Ok : μ → Prop} {image : μ → Image} {v v' : View}
  {L L' : Layout} {b b' c : Block} {x y z : Piece} {l r : List Piece} {i : Image}
  {pre post : List Block} {p q : U64} {o : Option U64} {f g : Field} {flag : Bool}

/-! ## A neighbour, if there is one -/

/-- A field is set in the header of the neighbour. -/
def Image.setAt (i : Image) (o : Option U64) (f : Field) (z : U64) : Image :=
  o.elim i fun p => i.setField p f z

/-- The same of what is seen. -/
def Heap.setAt (v : View) (o : Option U64) (f : Field) (z : U64) : View :=
  { v with mem := v.mem.setAt o f z }

section

variable {s : U64} (v : View)

@[simp] theorem mem_setAt : (v.setAt o f s).mem = v.mem.setAt o f s := rfl
@[simp] theorem lMemRoot_setAt : (v.setAt o f s).lMemRoot = v.lMemRoot := rfl
@[simp] theorem lBestBet_setAt : (v.setAt o f s).lBestBet = v.lBestBet := rfl
@[simp] theorem lAllocated_setAt : (v.setAt o f s).lAllocated = v.lAllocated := rfl
@[simp] theorem lInuse_setAt : (v.setAt o f s).lInuse = v.lInuse := rfl

@[simp] theorem dom_setAt : (i.setAt o f s).dom = i.dom := by
  cases o with
  | none => rfl
  | some z => exact dom_setField

@[simp] theorem mapped_setAt {n : ℕ} : (i.setAt o f s).Mapped p n ↔ i.Mapped p n := by
  rw [Image.Mapped, Image.Mapped, dom_setAt]

@[simp] theorem bytes_setAt {a : U64} (h : ∀ z ∈ o, ¬ InHeader z a) (hf : f.Fits) :
    (i.setAt o f s).bytes a = i.bytes a := by
  cases o with
  | none => rfl
  | some z => exact bytes_setField (h z rfl) hf

@[simp] theorem field_setAt_of_apart (h : ∀ z ∈ o, Apart z p) (hf : f.Fits) (hg : g.Fits) :
    (i.setAt o f s).field p g = i.field p g := by
  cases o with
  | none => rfl
  | some z => exact field_setField_of_apart (h z rfl) hf hg

@[simp] theorem field_setAt_of_clear (h : ∀ z ∈ o, z ≠ p → Apart z p) (hfg : f.Clear g)
    (hf : f.Fits) (hg : g.Fits) : (i.setAt o f s).field p g = i.field p g := by
  cases o with
  | none => rfl
  | some z =>
    rcases eq_or_ne z p with rfl | hne
    · exact field_setField_of_clear hfg hf hg
    · exact field_setField_of_apart (h z rfl hne) hf hg

theorem field_setAt (h : ∀ z ∈ o, z ≠ p → Apart z p) (hf : f.Fits) (h8 : f.size = 8) :
    (i.setAt o f s).field p f = if o = some p then s else i.field p f := by
  cases o with
  | none => rfl
  | some z =>
    rcases eq_or_ne z p with rfl | hne
    · rw [if_pos rfl]
      exact field_setField_eight hf h8
    · rw [if_neg fun heq => hne (Option.some.inj heq)]
      exact field_setField_of_apart (h z rfl hne) hf hf

end

attribute [irreducible] Image.setAt Heap.setAt

/-- `if (p->f) p->f->g = p->g`, before the rest of the program. -/
theorem ends_relink (hm : Lawful m Ok image) {k : Unit → Program (Heap μ) Unit}
    {Q : Unit → View → Prop} (hne : ∀ z ∈ o, z ≠ 0)
    (hmaps : ∀ z ∈ o, v.mem.Mapped z headerSize)
    (hk : Ends Ok image (k ()) (v.setAt o g (v.mem.field p g)) Q)
    (hmap : v.mem.Mapped p headerSize := by first | assumption | simpa)
    (hg : g.Fits := by decide) :
    Ends Ok image (if o.getD 0 ≠ 0 then do
        let z ← get m p g
        let u ← set m (o.getD 0) g z
        k u
      else k ()) v Q := by
  cases o with
  | none =>
    refine .ite (fun h => absurd rfl h) fun _ => ?_
    unfold Heap.setAt Image.setAt at hk
    exact hk
  | some z =>
    refine .ite (fun _ => ?_) fun h => absurd (hne z rfl) h
    have hmapz : v.mem.Mapped z headerSize := hmaps z rfl
    unfold Heap.setAt Image.setAt at hk
    refine .bind (ends_get hm (.bind (ends_set hm ?_ hmapz hg)) hmap hg)
    unfold Heap.setField
    exact hk

/-! ## A piece less -/

/-- The neighbours of `x` and the block point past it, the block and the heap are no longer
charged for it, and nothing else happens but in the header of `x`. -/
structure Removed (b : Block) (l : List Piece) (x : Piece) (r : List Piece) (v v' : View) :
    Prop where
  dom : v'.mem.dom = v.mem.dom
  bytes : ∀ a, ¬ InHeader b.addr a → (∀ y ∈ l ++ x :: r, ¬ InHeader y.addr a) →
    v'.mem.bytes a = v.mem.bytes a
  prev : ∀ y ∈ l ++ r, v'.mem.field y.addr Minor.prev
    = if (r.map Piece.addr).head? = some y.addr then last 0 (l.map Piece.addr)
      else v.mem.field y.addr Minor.prev
  next : ∀ y ∈ l ++ r, v'.mem.field y.addr Minor.next
    = if (l.map Piece.addr).getLast? = some y.addr then first (r.map Piece.addr) 0
      else v.mem.field y.addr Minor.next
  own : ∀ y ∈ l ++ r, ∀ f ∈ Minor.own, v'.mem.field y.addr f = v.mem.field y.addr f
  first : v'.mem.field b.addr Major.first = first ((l ++ r).map Piece.addr) 0
  usage : v'.mem.field b.addr Major.usage = BitVec.ofNat 64 (b.usage - x.len)
  kept : ∀ f ∈ Major.kept, v'.mem.field b.addr f = v.mem.field b.addr f
  magic : v'.mem.field x.addr Minor.magic = liballocDead
  root : v'.lMemRoot = v.lMemRoot
  best : v'.lBestBet = v.lBestBet
  allocated : v'.lAllocated = v.lAllocated
  inuse : v'.lInuse = v.lInuse - x.size

/-- The block without one of its pieces. -/
def Block.erase (b : Block) (l : List Piece) (x : Piece) (r : List Piece)
    (h : b.pieces = l ++ x :: r) : Block :=
  { b with
    pieces := l ++ r
    packed := Packed.erase (h ▸ b.packed) }

theorem Block.grown_erase (h : b.pieces = l ++ x :: r) : Grown (b.erase l x r h) l x r b :=
  ⟨rfl, rfl, rfl, h⟩

/-- The block without the piece. -/
theorem Removed.blockAt (h : Removed b l x r v v') (hb : BlockAt v.mem b)
    (hg : Grown b' l x r b) : BlockAt v'.mem b' := by
  have hsize : b.size = b'.size := congrArg (4096 * ·) hg.pages
  have husage : b.usage = b'.usage + x.len := by
    rw [Block.usage, Block.usage, hg.pieces, hg.old]
    simp only [List.map_append, List.map_cons, List.sum_append, List.sum_cons]
    omega
  constructor
  · exact fun a ha => h.dom ▸ hb.mapped a ((hg.holds_iff a).mpr ha)
  · rw [← hg.addr, h.kept _ (by decide), hb.size, hsize]
  · rw [← hg.addr, h.usage, husage, Nat.add_sub_cancel]
  · rw [← hg.addr, h.first, hg.old]
  · have hlinks := hb.links
    rw [hg.pieces, List.map_append, List.map_cons] at hlinks
    rw [hg.old, List.map_append]
    refine hlinks.remove ?_ ?_ ?_
    · rw [← List.map_append, ← hg.old]
      exact b'.nodup_addr
    · intro a ha
      rw [← List.map_append] at ha
      obtain ⟨y, hy, rfl⟩ := List.mem_map.mp ha
      exact h.prev y hy
    · intro a ha
      rw [← List.map_append] at ha
      obtain ⟨y, hy, rfl⟩ := List.mem_map.mp ha
      exact h.next y hy
  · intro y hy
    rw [← hg.addr]
    have hy' : y ∈ l ++ r := hg.old ▸ hy
    have hold := hb.pieces y (hg.mem_old hy')
    obtain ⟨hmaj, hmin⟩ := Block.info_not_inHeader (hg.mem_old hy')
    refine ⟨(h.own y hy' _ (by decide)).trans hold.block,
      (h.own y hy' _ (by decide)).trans hold.magic, (h.own y hy' _ (by decide)).trans hold.size,
      (h.own y hy' _ (by decide)).trans hold.reqSize, ?_⟩
    rw [h.bytes _ hmaj (hg.pieces ▸ hmin), hold.info]

/-- A byte that is not one the code keeps for itself in the block. -/
theorem Removed.bytes_eq (h : Removed b l x r v v') (hb : b.pieces = l ++ x :: r) {a : U64}
    (ha : ¬ b.Private a) : v'.mem.bytes a = v.mem.bytes a :=
  h.bytes a (fun hhead => ha (Or.inl hhead)) fun y hy hhead =>
    ha (Or.inr ⟨y, hb ▸ hy, Or.inl hhead⟩)

/-- **One piece less.** -/
theorem Removed.represents (h : Removed b l x r v v') (hv : Represents v L)
    (hL : L.blocks = pre ++ b :: post) (hg : Grown b' l x r b) :
    Represents v' ⟨pre ++ b' :: post, L.apart_update hL hg.addr.symm hg.pages.symm⟩ := by
  have hb : b ∈ L.blocks := by
    rw [hL]
    exact List.mem_append_right _ List.mem_cons_self
  have hinuse : b.inuse = b'.inuse + x.size.toNat := by
    rw [Block.inuse, Block.inuse, hg.pieces, hg.old]
    simp only [List.map_append, List.map_cons, List.sum_append, List.sum_cons]
    omega
  refine hv.update hL hg.addr.symm hg.pages.symm (h.blockAt (hv.blocks b hb) hg) h.dom
    (fun a ha => h.bytes_eq hg.pieces fun hprivate => ha (Block.holds_of_private hprivate))
    (h.kept _ (by decide)) (h.kept _ (by decide)) h.root h.best h.allocated ?_
  rw [h.inuse, hinuse]
  bv_omega

/-- What was asked for, in this piece or another, stays. -/
theorem Removed.keeps (h : Removed b l x r v v') (hL : L.blocks = pre ++ b :: post)
    (hb : b.pieces = l ++ x :: r) : Keeps L v.mem v'.mem := by
  intro y hy a ha
  refine h.bytes_eq hb (Layout.not_private hy ha ?_)
  rw [hL]
  exact List.mem_append_right _ List.mem_cons_self

/-! ## A block less -/

/-- The layout without one of its blocks. -/
def Layout.drop (L : Layout) (pre : List Block) (b : Block) (post : List Block)
    (h : L.blocks = pre ++ b :: post) : Layout where
  blocks := pre ++ post
  apart := by
    have happ := L.apart
    rw [h, List.pairwise_append, List.pairwise_cons] at happ
    exact List.pairwise_append.mpr ⟨happ.1, happ.2.1.2, fun c hc d hd =>
      happ.2.2 c hc d (List.mem_cons_of_mem b hd)⟩

/-- Two addresses of blocks that differ. -/
theorem Layout.apart_addr (hp : p ∈ L.blocks.map Block.addr) (hq : q ∈ L.blocks.map Block.addr)
    (hne : p ≠ q) : Apart p q := by
  obtain ⟨b, hb, rfl⟩ := List.mem_map.mp hp
  obtain ⟨c, hc, rfl⟩ := List.mem_map.mp hq
  exact Layout.apart_headers hb hc fun heq => hne (congrArg Block.addr heq)

/-- A link of any block of a layout, if there is one. -/
theorem BlockAt.setAt (hb : BlockAt i b) {s : U64} (hf : f.Fits) (hown : ∀ g ∈ Major.own, f.Clear g)
    (hbL : b ∈ L.blocks) (ho : ∀ z ∈ o, z ∈ L.blocks.map Block.addr) :
    BlockAt (i.setAt o f s) b := by
  unfold Image.setAt
  cases o with
  | none => exact hb
  | some z =>
    obtain ⟨c, hc, rfl⟩ := List.mem_map.mp (ho z rfl)
    exact hb.setLink_layout hf hown hbL hc

/-- `if (l_memRoot == p) l_memRoot = p->next`, before the rest of the program. -/
theorem ends_nextRoot (hm : Lawful m Ok image) {k : Unit → Program (Heap μ) Unit} {root : U64}
    {Q : Unit → View → Prop} (hroot : root = v.lMemRoot)
    (hk : Ends Ok image (k ()) { v with lMemRoot :=
      if v.lMemRoot = p then v.mem.field p Major.next else v.lMemRoot } Q)
    (hmap : v.mem.Mapped p headerSize) :
    Ends Ok image (if root = p then do
        let next ← get m p Major.next
        let u ← modify fun h => { h with lMemRoot := next }
        k u
      else k ()) v Q := by
  rw [hroot]
  refine .ite (fun heq => .bind (ends_get hm ?_)) fun hne => ?_
  · rw [if_pos heq] at hk
    exact .bind (.modify (g := fun w : View => { w with lMemRoot := v.mem.field p Major.next })
      (fun _ => id) (fun _ => rfl) hk)
  · rw [if_neg hne] at hk
    exact hk

/-- What is left of the heap without one of its blocks, which has no pieces. -/
theorem Represents.drop (hv : Represents v L) (hL : L.blocks = pre ++ c :: post)
    (hempty : c.pieces = [])
    (hroot : v'.lMemRoot = if v.lMemRoot = c.addr then first (post.map Block.addr) 0
      else v.lMemRoot)
    (hbest : v'.lBestBet = if v.lBestBet = c.addr then 0 else v.lBestBet)
    (hmem : v'.mem = (v.mem.setAt (pre.map Block.addr).getLast? Major.next
      (first (post.map Block.addr) 0)).setAt (post.map Block.addr).head? Major.prev
      (last 0 (pre.map Block.addr)))
    (hinuse : v'.lInuse = v.lInuse)
    (hallocated : v'.lAllocated = v.lAllocated - BitVec.ofNat 64 c.size) :
    Represents v' (L.drop pre c post hL) := by
  have haddrs : L.blocks.map Block.addr = pre.map Block.addr ++ c.addr :: post.map Block.addr := by
    rw [hL, List.map_append, List.map_cons]
  have hnodup := L.nodup_addr
  rw [haddrs, List.nodup_middle, List.nodup_cons] at hnodup
  obtain ⟨hc, hothers⟩ := hnodup
  have hmem_of : ∀ {p}, p ∈ pre.map Block.addr ++ post.map Block.addr →
      p ∈ L.blocks.map Block.addr := by
    intro p hp
    rw [haddrs]
    exact mem_middle hp
  have hlast : ∀ z ∈ (pre.map Block.addr).getLast?, z ∈ L.blocks.map Block.addr :=
    fun z hz => hmem_of (List.mem_append_left _ (List.mem_of_getLast? hz))
  have hhead : ∀ z ∈ (post.map Block.addr).head?, z ∈ L.blocks.map Block.addr :=
    fun z hz => hmem_of (List.mem_append_right _ (List.mem_of_mem_head? hz))
  have hdrop : (L.drop pre c post hL).blocks = pre ++ post := rfl
  constructor
  · rw [hroot, hv.root, haddrs, hdrop, List.map_append]
    cases pre with
    | nil => rw [List.map_nil, List.nil_append, first_cons, if_pos rfl, List.nil_append]
    | cons d pre =>
      refine if_neg fun heq => hc ?_
      rw [List.map_cons, List.cons_append, first_cons] at heq
      rw [← heq, List.map_cons]
      exact List.mem_append_left _ List.mem_cons_self
  · rw [hdrop, List.map_append]
    have hlinks := hv.links
    rw [haddrs] at hlinks
    refine hlinks.remove hothers (fun y hy => ?_) fun y hy => ?_
    · have happ : ∀ z ∈ (post.map Block.addr).head?, z ≠ y → Apart z y :=
        fun z hz hne => Layout.apart_addr (hhead z hz) (hmem_of hy) hne
      have happ' : ∀ z ∈ (pre.map Block.addr).getLast?, z ≠ y → Apart z y :=
        fun z hz hne => Layout.apart_addr (hlast z hz) (hmem_of hy) hne
      rw [hmem, field_setAt happ (by decide) (by decide),
        field_setAt_of_clear happ' (by decide) (by decide) (by decide)]
    · have happ : ∀ z ∈ (post.map Block.addr).head?, z ≠ y → Apart z y :=
        fun z hz hne => Layout.apart_addr (hhead z hz) (hmem_of hy) hne
      have happ' : ∀ z ∈ (pre.map Block.addr).getLast?, z ≠ y → Apart z y :=
        fun z hz hne => Layout.apart_addr (hlast z hz) (hmem_of hy) hne
      rw [hmem, field_setAt_of_clear happ (by decide) (by decide) (by decide),
        field_setAt happ' (by decide) (by decide)]
  · intro d hd
    have hdL : d ∈ L.blocks := hL ▸ mem_middle hd
    rw [hmem]
    exact ((hv.blocks d hdL).setAt (by decide) (by decide) hdL hlast).setAt (by decide) (by decide)
      hdL hhead
  · rw [hbest, hdrop, List.map_append]
    rcases hv.best with hzero | hmem'
    · refine Or.inl ?_
      split_ifs
      · rfl
      · exact hzero
    · rw [haddrs] at hmem'
      split_ifs with heq
      · exact Or.inl rfl
      · exact Or.inr (mem_sides hmem' heq)
  · rw [hinuse, hv.inuse, sum_inuse, sum_inuse, hL, hdrop]
    simp only [List.map_append, List.map_cons, List.sum_append, List.sum_cons, Block.inuse, hempty,
      List.map_nil, List.sum_nil, Nat.zero_add]
  · rw [hallocated, hv.allocated, hL, hdrop]
    simp only [List.map_append, List.map_cons, List.sum_append, List.sum_cons]
    bv_omega

/-- **A block without pieces is dropped.** -/
theorem dropMajor_ends (hm : Lawful m Ok image) (hv : Represents v L)
    (hL : L.blocks = pre ++ c :: post) (hempty : c.pieces = []) {Q : Unit → View → Prop}
    (hQ : ∀ v', Represents v' (L.drop pre c post hL) → v'.mem.dom = v.mem.dom →
      (∀ a, (∀ d ∈ L.blocks, ¬ InHeader d.addr a) → v'.mem.bytes a = v.mem.bytes a) → Q () v') :
    Ends Ok image (dropMajor m c.addr) v Q := by
  have hc : c ∈ L.blocks := hL ▸ List.mem_append_right _ List.mem_cons_self
  have hmaj := (hv.blocks c hc).mapped_header
  have hlinks := hv.links
  rw [hL, List.map_append, List.map_cons] at hlinks
  obtain ⟨hprev, hnext⟩ := hlinks.at
  have hmem_of : ∀ {p}, p ∈ pre.map Block.addr ++ post.map Block.addr →
      p ∈ L.blocks.map Block.addr ∧ p ≠ c.addr := by
    intro p hp
    have hnodup := L.nodup_addr
    rw [hL, List.map_append, List.map_cons, List.nodup_middle, List.nodup_cons] at hnodup
    rw [hL, List.map_append, List.map_cons]
    exact ⟨mem_middle hp, fun heq => hnodup.1 (heq ▸ hp)⟩
  have hlast : ∀ z ∈ (pre.map Block.addr).getLast?, z ∈ L.blocks.map Block.addr ∧ z ≠ c.addr :=
    fun z hz => hmem_of (List.mem_append_left _ (List.mem_of_getLast? hz))
  have hhead : ∀ z ∈ (post.map Block.addr).head?, z ∈ L.blocks.map Block.addr ∧ z ≠ c.addr :=
    fun z hz => hmem_of (List.mem_append_right _ (List.mem_of_mem_head? hz))
  have hcaddr : c.addr ∈ L.blocks.map Block.addr := List.mem_map_of_mem hc
  have hvalid : ∀ z, z ∈ L.blocks.map Block.addr → z ≠ 0 ∧ v.mem.Mapped z headerSize := by
    intro z hz
    obtain ⟨d, hd, rfl⟩ := List.mem_map.mp hz
    exact ⟨d.nonnull, (hv.blocks d hd).mapped_header⟩
  have happ : ∀ z ∈ (pre.map Block.addr).getLast?, Apart z c.addr :=
    fun z hz => Layout.apart_addr (hlast z hz).1 hcaddr (hlast z hz).2
  have happ' : ∀ z ∈ (post.map Block.addr).head?, Apart z c.addr :=
    fun z hz => Layout.apart_addr (hhead z hz).1 hcaddr (hhead z hz).2
  refine .get fun s hs => ?_
  refine ends_nextRoot hm (congrArg Heap.lMemRoot hs) ?_ hmaj
  refine .bind (.modify (g := fun w : View => { w with lBestBet :=
    if w.lBestBet = c.addr then 0 else w.lBestBet }) (fun _ => id) (fun _ => rfl) ?_)
  refine .bind (ends_get hm ?_)
  rw [hprev]
  refine ends_relink (o := (pre.map Block.addr).getLast?) hm
    (fun z hz => (hvalid z (hlast z hz).1).1)
    (fun z hz => (hvalid z (hlast z hz).1).2) (.bind (ends_get hm ?_))
  rw [mem_setAt, field_setAt_of_apart happ (by decide) (by decide), hnext]
  refine ends_relink (o := (post.map Block.addr).head?) hm
    (fun z hz => (hvalid z (hhead z hz).1).1)
    (fun z hz => by simpa using (hvalid z (hhead z hz).1).2) (.bind (ends_get hm ?_))
  simp (disch := first | assumption | decide) only [mem_setAt, field_setAt_of_apart, hprev,
    (hv.blocks c hc).size]
  have hallocated : ∀ w : View, Ends Ok image (modify fun h : Heap μ =>
      { h with lAllocated := h.lAllocated - BitVec.ofNat 64 c.size }) w fun _ w' =>
      w' = { w with lAllocated := w.lAllocated - BitVec.ofNat 64 c.size } := fun w =>
    .modify (g := fun w : View => { w with lAllocated := w.lAllocated - BitVec.ofNat 64 c.size })
      (fun _ => id) (fun _ => rfl) rfl
  refine .bind ((hallocated _).mono ?_)
  rintro - _ rfl
  refine .bind (ends_get hm (.pure (hQ _ ?_ (by simp) fun a ha => ?_)))
  · refine hv.drop hL hempty ?_ ?_ ?_ ?_ ?_
    · simp
    · simp
    · simp
    · simp
    · simp
  · have hclear : ∀ z, z ∈ L.blocks.map Block.addr → ¬ InHeader z a := by
      intro z hz
      obtain ⟨d, hd, rfl⟩ := List.mem_map.mp hz
      exact ha d hd
    have hlasta : ∀ z ∈ (pre.map Block.addr).getLast?, ¬ InHeader z a :=
      fun z hz => hclear z (hlast z hz).1
    have hheada : ∀ z ∈ (post.map Block.addr).head?, ¬ InHeader z a :=
      fun z hz => hclear z (hhead z hz).1
    simp (disch := first | assumption | decide) only [mem_setAt, bytes_setAt]

/-! ## The call -/

/-- What is left of a piece: a header without the magic number. -/
structure Dead (i : Image) (x : Piece) : Prop where
  mapped : i.Mapped x.addr headerSize
  dom : i.dom x.info
  magic : i.field x.addr Minor.magic = liballocDead
  info : i.bytes x.info = x.mark

/-- The heap no longer has the piece `x`; what was asked for in the others is as it was. -/
structure Freed (L : Layout) (i : Image) (x : Piece) (L' : Layout) (v' : View) : Prop where
  represents : Represents v' L'
  settled : L'.Settled
  pieces : L.pieces.Perm (x :: L'.pieces)
  keeps : Keeps L' i v'.mem
  dead : Dead v'.mem x

theorem Removed.dead (h : Removed b l x r v v') (hb : BlockAt v.mem b)
    (hl : b.pieces = l ++ x :: r) :
    Dead v'.mem x := by
  have hx : x ∈ b.pieces := hl ▸ List.mem_append_right _ List.mem_cons_self
  obtain ⟨hmaj, hmin⟩ := Block.info_not_inHeader hx
  refine ⟨fun j hj => h.dom ▸ hb.mapped_piece hx j hj, h.dom ▸ hb.dom_info hx, h.magic, ?_⟩
  rw [h.bytes _ hmaj (hl ▸ hmin), (hb.pieces x hx).info]

/-- It is left as it is by what does not touch its block apart from the header. -/
theorem Dead.congr {i' : Image} (h : Dead i x) (hdom : i'.dom = i.dom)
    (hbytes : ∀ a, InHeader x.addr a ∨ a = x.info → i'.bytes a = i.bytes a) : Dead i' x :=
  ⟨fun j hj => hdom ▸ h.mapped j hj, hdom ▸ h.dom,
    (field_congr (by decide) fun a ha => hbytes a (Or.inl ha)).trans h.magic,
    (hbytes _ (Or.inr rfl)).trans h.info⟩

theorem betterBet_ends (hm : Lawful m Ok image) (hv : Represents v L) (hb : b ∈ L.blocks)
    {Q : Unit → View → Prop} (hQ : ∀ v', v'.mem = v.mem → Represents v' L → Q () v') :
    Ends Ok image (betterBet m b.addr) v Q := by
  refine .get fun s hs => ?_
  rw [show s.lBestBet = v.lBestBet from congrArg Heap.lBestBet hs]
  refine .ite (fun hne => ?_) fun _ => .pure (hQ v rfl hv)
  obtain ⟨c, hc, hbet⟩ := List.mem_map.mp (hv.best.resolve_left hne)
  rw [← hbet]
  refine .bind (ends_freeSpace hm (hv.blocks c hc) (.bind (ends_freeSpace hm (hv.blocks b hb) ?_)))
  refine .ite (fun _ => ?_) fun _ => .pure (hQ v rfl hv)
  refine .modify (g := fun w : View => { w with lBestBet := b.addr }) (fun _ => id)
    (fun _ => rfl) ?_
  exact hQ _ rfl (hv.congr rfl rfl (Or.inr (List.mem_map_of_mem hb)) rfl rfl)

/-- The pieces of a layout in which one block has another list of them. -/
theorem Layout.pieces_update (hL : L.blocks = pre ++ b :: post) (hb : b.pieces = l ++ x :: r) :
    L.pieces.Perm (x :: (pre.flatMap Block.pieces ++ ((l ++ r) ++ post.flatMap Block.pieces))) := by
  rw [Layout.pieces, hL, List.flatMap_append, List.flatMap_cons, hb]
  have hmiddle : (l ++ x :: r).Perm (x :: (l ++ r)) := List.perm_middle
  exact ((hmiddle.append_right _).append_left _).trans List.perm_middle

/-- What `kfree` does to the block and the heap, in the end. -/
theorem Removed.ends (hm : Lawful m Ok image) (h : Removed b l x r v v') (hv : Represents v L)
    (hset : L.Settled) (hL : L.blocks = pre ++ b :: post) (hb : b.pieces = l ++ x :: r)
    {Q : Unit → View → Prop} (hQ : ∀ L' w, Freed L v.mem x L' w → Q () w) :
    Ends Ok image (do
      let first ← get m b.addr Major.first
      if first = 0 then dropMajor m b.addr else betterBet m b.addr) v' Q := by
  have hg := Block.grown_erase hb
  have hpieces := Layout.pieces_update hL hb
  have hkeeps := h.keeps hL hb
  have hothers : ∀ c ∈ pre ++ post, c.pieces ≠ [] := fun c hc => hset c (hL ▸ mem_middle hc)
  obtain ⟨L₁, hL₁, hv₁⟩ : ∃ L₁ : Layout, L₁.blocks = pre ++ b.erase l x r hb :: post ∧
      Represents v' L₁ := ⟨_, rfl, h.represents hv hL hg⟩
  have hmem : b.erase l x r hb ∈ L₁.blocks := by
    rw [hL₁]
    exact List.mem_append_right _ List.mem_cons_self
  have hmaj : v'.mem.Mapped b.addr headerSize := (hv₁.blocks _ hmem).mapped_header
  have hperm : L₁.pieces = pre.flatMap Block.pieces ++ ((l ++ r) ++ post.flatMap Block.pieces) := by
    rw [Layout.pieces, hL₁, List.flatMap_append, List.flatMap_cons]
    rfl
  have hold : ∀ y ∈ L₁.pieces, y ∈ L.pieces := by
    intro y hy
    rw [hperm] at hy
    exact hpieces.mem_iff.mpr (List.mem_cons_of_mem x hy)
  have hkeeps₁ : Keeps L₁ v.mem v'.mem := fun y hy a ha => hkeeps y (hold y hy) a ha
  have hx : x ∈ b.pieces := hb ▸ List.mem_append_right _ List.mem_cons_self
  have hbL : b ∈ L.blocks := hL ▸ List.mem_append_right _ List.mem_cons_self
  have hdead := h.dead (hv.blocks b hbL) hb
  have hapart : ∀ d ∈ pre ++ post, ∀ a, d.Holds a → ¬ b.Holds a := by
    intro d hd a
    have happ := L.apart
    rw [hL, List.pairwise_append, List.pairwise_cons] at happ
    rcases List.mem_append.mp hd with hd | hd
    · exact Block.not_holds (happ.2.2 d hd b List.mem_cons_self)
    · exact Block.not_holds (Or.symm (happ.2.1.1 d hd))
  refine .bind (ends_get hm ?_)
  rw [h.first]
  rcases hlr : l ++ r with _ | ⟨y, rest⟩
  · rw [List.map_nil, first_nil, if_pos rfl]
    have hempty : (b.erase l x r hb).pieces = [] := hlr
    refine dropMajor_ends (c := b.erase l x r hb) hm hv₁ hL₁ hempty fun w hw hdom hbytes =>
      hQ (L₁.drop pre _ post hL₁) w ?_
    have hdrop : (L₁.drop pre _ post hL₁).pieces = L₁.pieces := by
      rw [hperm, hlr, Layout.pieces]
      exact List.flatMap_append
    refine ⟨hw, fun c hc => hothers c hc, ?_, ?_, hdead.congr hdom fun a ha => hbytes a ?_⟩
    · rw [hdrop, hperm]
      exact hpieces
    · intro y hy a ha
      rw [hdrop] at hy
      refine (hbytes a fun d hd hhead => ?_).trans (hkeeps₁ y hy a ha)
      exact Layout.not_private hy ha hd (Or.inl hhead)
    · -- the block of the piece has the same header as before, the others are elsewhere
      intro d hd hhead
      rw [hL₁, List.mem_append, List.mem_cons] at hd
      have hholds : b.Private a := by
        rcases ha with ha | rfl
        · exact Or.inr ⟨x, hx, Or.inl ha⟩
        · exact Or.inr ⟨x, hx, Or.inr rfl⟩
      rcases hd with hd | rfl | hd
      · refine hapart d (List.mem_append_left _ hd) a (Block.holds_of_inHeader hhead) ?_
        exact Block.holds_of_private hholds
      · rcases ha with ha | rfl
        · exact not_inHeader_of_apart (Block.apart_header hx) ha hhead
        · exact (Block.info_not_inHeader hx).1 hhead
      · refine hapart d (List.mem_append_right _ hd) a (Block.holds_of_inHeader hhead) ?_
        exact Block.holds_of_private hholds
  · have hy : y ∈ b.pieces := by
      rw [hb]
      exact mem_middle (hlr ▸ List.mem_cons_self)
    rw [List.map_cons, first_cons, if_neg (Block.piece_ne_zero hy)]
    refine betterBet_ends (b := b.erase l x r hb) hm hv₁ hmem fun w hwmem hw => hQ L₁ w ?_
    refine ⟨hw, fun c hc => ?_, hperm ▸ hpieces, hwmem ▸ hkeeps₁, hwmem ▸ hdead⟩
    rw [hL₁, List.mem_append, List.mem_cons] at hc
    rcases hc with hc | rfl | hc
    · exact hothers c (List.mem_append_left _ hc)
    · exact fun hnil => List.cons_ne_nil y rest (hlr.symm.trans hnil)
    · exact hothers c (List.mem_append_right _ hc)

/-- `if (min->prev == NULL) maj->first = min->next`, before the rest of the program. -/
theorem ends_newFirst (hm : Lawful m Ok image) {k : Unit → Program (Heap μ) Unit}
    {Q : Unit → View → Prop} {prev : U64}
    (hk : Ends Ok image (k ()) (v.setAt (if prev = 0 then some q else none) Major.first
      (v.mem.field p Minor.next)) Q)
    (hmap : v.mem.Mapped p headerSize) (hmapq : v.mem.Mapped q headerSize) :
    Ends Ok image (if prev = 0 then do
        let next ← get m p Minor.next
        let u ← set m q Major.first next
        k u
      else k ()) v Q := by
  unfold Heap.setAt Image.setAt at hk
  refine .ite (fun hzero => ?_) fun hne => ?_
  · rw [if_pos hzero] at hk
    refine .bind (ends_get hm (.bind (ends_set hm ?_)))
    unfold Heap.setField
    exact hk
  · rw [if_neg hne] at hk
    exact hk

/-- `kfree` behind its check of the magic number. -/
theorem release_ends (hm : Lawful m Ok image) (hv : Represents v L) (hset : L.Settled)
    (hL : L.blocks = pre ++ b :: post) (hb : b.pieces = l ++ x :: r) {Q : Unit → View → Prop}
    (hQ : ∀ L' w, Freed L v.mem x L' w → Q () w) : Ends Ok image (release m x.addr) v Q := by
  have hbL : b ∈ L.blocks := hL ▸ List.mem_append_right _ List.mem_cons_self
  have hblock := hv.blocks b hbL
  have hx : x ∈ b.pieces := hb ▸ List.mem_append_right _ List.mem_cons_self
  have hpiece := hblock.pieces x hx
  have hmaj := hblock.mapped_header
  have hmin := hblock.mapped_piece hx
  have hbx := Block.apart_header hx
  have hxb := hbx.symm
  have hlinks := hblock.links
  rw [hb, List.map_append, List.map_cons] at hlinks
  obtain ⟨hprev, hnext⟩ := hlinks.at
  have hg := Block.grown_erase hb
  -- the neighbours
  have hother : ∀ y ∈ l ++ r, y ∈ b.pieces ∧ Apart b.addr y.addr ∧ Apart x.addr y.addr :=
    fun y hy => ⟨hg.mem_old hy, (hg.apart_old hy).1, (hg.apart_old hy).2⟩
  have hpre : ∀ p ∈ (l.map Piece.addr).getLast?, ∃ y ∈ l ++ r, y.addr = p := by
    intro p hp
    obtain ⟨y, hy, rfl⟩ := List.mem_map.mp (List.mem_of_getLast? hp)
    exact ⟨y, List.mem_append_left r hy, rfl⟩
  have hpost : ∀ p ∈ (r.map Piece.addr).head?, ∃ y ∈ l ++ r, y.addr = p := by
    intro p hp
    obtain ⟨y, hy, rfl⟩ := List.mem_map.mp (List.mem_of_mem_head? hp)
    exact ⟨y, List.mem_append_right l hy, rfl⟩
  have husage : (BitVec.ofNat 64 (b.usage - x.len)).toNat < 2 ^ 32 := by
    have hle := b.usage_le
    have hsmall := b.small
    unfold Block.size at hle
    rw [BitVec.toNat_ofNat]
    omega
  have hcharge : BitVec.ofNat 64 b.usage - (x.size + Minor.sizeof)
      = BitVec.ofNat 64 (b.usage - x.len) := by
    have hle : x.len ≤ b.usage := by
      rw [Block.usage, hb]
      simp only [List.map_append, List.map_cons, List.sum_append, List.sum_cons]
      omega
    have hle' := b.usage_le
    have hsmall := b.small
    unfold Piece.len headerSize Minor.sizeof Block.size at *
    bv_omega
  unfold release
  refine .bind (ends_get hm (.bind (ends_get hm ?_)))
  rw [hpiece.block, hpiece.size]
  refine .bind (.modify (g := fun w : View => { w with lInuse := w.lInuse - x.size })
    (fun _ => id) (fun _ => rfl) ?_)
  refine .bind (ends_get hm (.bind (ends_get hm ?_)))
  rw [hblock.usage, hpiece.size, hcharge]
  refine .bind (ends_set hm (.bind (ends_set hm (.bind (ends_get hm ?_)))))
  simp (disch := first | assumption | decide) only [mem_setField, field_setField_of_apart,
    field_setField_of_clear, hnext]
  have hprex : ∀ p ∈ (l.map Piece.addr).getLast?, Apart p x.addr := by
    intro p hp
    obtain ⟨y, hy, rfl⟩ := hpre p hp
    exact (hother y hy).2.2.symm
  have hpostx : ∀ p ∈ (r.map Piece.addr).head?, Apart p x.addr := by
    intro p hp
    obtain ⟨y, hy, rfl⟩ := hpost p hp
    exact (hother y hy).2.2.symm
  have hpreb : ∀ p ∈ (l.map Piece.addr).getLast?, Apart p b.addr := by
    intro p hp
    obtain ⟨y, hy, rfl⟩ := hpre p hp
    exact (hother y hy).2.1.symm
  have hpostb : ∀ p ∈ (r.map Piece.addr).head?, Apart p b.addr := by
    intro p hp
    obtain ⟨y, hy, rfl⟩ := hpost p hp
    exact (hother y hy).2.1.symm
  have hvalid : ∀ y ∈ l ++ r, y.addr ≠ 0 ∧ v.mem.Mapped y.addr headerSize := fun y hy =>
    ⟨Block.piece_ne_zero (hother y hy).1, hblock.mapped_piece (hother y hy).1⟩
  have hprevalid : ∀ p ∈ (l.map Piece.addr).getLast?, p ≠ 0 ∧ v.mem.Mapped p headerSize := by
    intro p hp
    obtain ⟨y, hy, rfl⟩ := hpre p hp
    exact hvalid y hy
  have hpostvalid : ∀ p ∈ (r.map Piece.addr).head?, p ≠ 0 ∧ v.mem.Mapped p headerSize := by
    intro p hp
    obtain ⟨y, hy, rfl⟩ := hpost p hp
    exact hvalid y hy
  refine ends_relink (o := (r.map Piece.addr).head?) hm (fun p hp => (hpostvalid p hp).1)
    (fun p hp => by simpa using (hpostvalid p hp).2) (.bind (ends_get hm ?_))
  simp (disch := first | assumption | decide) only [mem_setField, mem_setAt,
    field_setField_of_apart, field_setField_of_clear, field_setAt_of_apart, hprev]
  refine ends_relink (o := (l.map Piece.addr).getLast?) hm (fun p hp => (hprevalid p hp).1)
    (fun p hp => by simpa using (hprevalid p hp).2) (.bind (ends_get hm ?_))
  simp (disch := first | assumption | decide) only [mem_setField, mem_setAt,
    field_setField_of_apart, field_setField_of_clear, field_setAt_of_apart, hprev, hnext]
  refine ends_newFirst hm ?_ (by simpa) (by simpa)
  simp (disch := first | assumption | decide) only [mem_setField, mem_setAt,
    field_setField_of_apart, field_setField_of_clear, field_setAt_of_apart, hnext]
  generalize ho : (if last 0 (l.map Piece.addr) = 0 then some b.addr else none) = o
  have hob : ∀ p ∈ o, p = b.addr := by
    rintro p hp
    rw [← ho] at hp
    split_ifs at hp
    · exact (Option.some.inj hp).symm
    · exact absurd hp (Option.not_mem_none p)
  have hob' : ∀ p ∈ o, p ≠ b.addr → Apart p b.addr := fun p hp hne => absurd (hob p hp) hne
  have hoy : ∀ y ∈ l ++ r, ∀ p ∈ o, Apart p y.addr :=
    fun y hy p hp => hob p hp ▸ (hother y hy).2.1
  have hprey : ∀ y ∈ l ++ r, ∀ p ∈ (l.map Piece.addr).getLast?, p ≠ y.addr → Apart p y.addr := by
    intro y hy p hp hne
    obtain ⟨z, hz, rfl⟩ := hpre p hp
    exact (hg.apart_two hz hy fun heq => hne (heq ▸ rfl)).1
  have hposty : ∀ y ∈ l ++ r, ∀ p ∈ (r.map Piece.addr).head?, p ≠ y.addr → Apart p y.addr := by
    intro y hy p hp hne
    obtain ⟨z, hz, rfl⟩ := hpost p hp
    exact (hg.apart_two hz hy fun heq => hne (heq ▸ rfl)).1
  refine Removed.ends hm ?_ hv hset hL hb hQ
  refine ⟨by simp, fun a hab hay => ?_, fun y hy => ?_, fun y hy => ?_, fun y hy f hf => ?_, ?_, ?_,
    fun f hf => ?_, ?_, by simp, by simp, by simp, by simp⟩
  · have hax := hay x (List.mem_append_right _ List.mem_cons_self)
    have hoa : ∀ p ∈ o, ¬ InHeader p a := fun p hp => hob p hp ▸ hab
    have hprea : ∀ p ∈ (l.map Piece.addr).getLast?, ¬ InHeader p a := by
      intro p hp
      obtain ⟨y, hy, rfl⟩ := hpre p hp
      exact hay y (mem_middle hy)
    have hposta : ∀ p ∈ (r.map Piece.addr).head?, ¬ InHeader p a := by
      intro p hp
      obtain ⟨y, hy, rfl⟩ := hpost p hp
      exact hay y (mem_middle hy)
    simp (disch := first | assumption | decide) only [mem_setAt, mem_setField, bytes_setAt,
      bytes_setField]
  · obtain ⟨-, hby, hxy⟩ := hother y hy
    have hoy := hoy y hy
    have hprey := hprey y hy
    have hposty := hposty y hy
    simp (disch := first | assumption | decide) only [mem_setAt, mem_setField,
      field_setAt_of_apart, field_setAt_of_clear, field_setAt, field_setField_of_apart]
  · obtain ⟨-, hby, hxy⟩ := hother y hy
    have hoy := hoy y hy
    have hprey := hprey y hy
    have hposty := hposty y hy
    simp (disch := first | assumption | decide) only [mem_setAt, mem_setField,
      field_setAt_of_apart, field_setAt_of_clear, field_setAt, field_setField_of_apart]
  · obtain ⟨-, hby, hxy⟩ := hother y hy
    have hoy := hoy y hy
    have hprey := hprey y hy
    have hposty := hposty y hy
    obtain ⟨hfits, hfp⟩ := Minor.fits_of_next (List.mem_cons_of_mem _ hf)
    obtain ⟨-, hfn⟩ := Minor.fits_of_prev (List.mem_cons_of_mem _ hf)
    simp (disch := first | assumption | decide) only [mem_setAt, mem_setField,
      field_setAt_of_apart, field_setAt_of_clear, field_setField_of_apart]
  · have hold : first ((l ++ x :: r).map Piece.addr) 0 = v.mem.field b.addr Major.first :=
      hb ▸ hblock.first.symm
    simp (disch := first | assumption | decide) only [mem_setAt, mem_setField,
      field_setAt_of_apart, field_setAt, field_setField_of_apart, field_setField_of_clear]
    rw [← ho]
    cases l with
    | nil => exact if_pos (by rw [List.map_nil, last_nil, if_pos rfl])
    | cons y l =>
      have hne : last 0 ((y :: l).map Piece.addr) ≠ 0 := by
        have hlast : last 0 ((y :: l).map Piece.addr) ∈ (y :: l).map Piece.addr :=
          last_mem (List.cons_ne_nil _ _)
        obtain ⟨z, hz, hzl⟩ := List.mem_map.mp hlast
        rw [← hzl]
        exact (hvalid z (List.mem_append_left r hz)).1
      rw [if_neg hne, if_neg (Option.some_ne_none _).symm, ← hold]
      rfl
  · simp (disch := first | assumption | decide) only [mem_setAt, mem_setField,
      field_setAt_of_apart, field_setAt_of_clear, field_setField_of_apart, field_setField_four]
  · obtain ⟨hfits, hff, hfu⟩ := Major.kept_fits hf
    simp (disch := first | assumption | decide) only [mem_setAt, mem_setField,
      field_setAt_of_apart, field_setAt_of_clear, field_setField_of_apart, field_setField_of_clear]
  · have hdead : liballocDead.toNat < 2 ^ 32 := by decide
    have hox : ∀ p ∈ o, Apart p x.addr := fun p hp => hob p hp ▸ hbx
    simp (disch := first | assumption | decide) only [mem_setAt, mem_setField,
      field_setAt_of_apart, field_setField_four]

/-- **`kfree`** of a piece.  It returns, with interrupts on, and the heap is without the piece. -/
theorem kfree_ends (hm : Lawful m Ok image) (hv : Represents v L) (hset : L.Settled)
    (hx : x ∈ L.pieces) {Q : Unit → Bool × View → Prop}
    (hQ : ∀ L' w, Freed L v.mem x L' w → Q () (true, w)) :
    Calls Ok image (kfree m x.ptr) (flag, v) Q := by
  obtain ⟨b, hbL, hxb⟩ := List.mem_flatMap.mp hx
  obtain ⟨pre, post, hL⟩ := List.append_of_mem hbL
  obtain ⟨l, r, hb⟩ := List.append_of_mem hxb
  have hblock := hv.blocks b hbL
  have hpiece := hblock.pieces x hxb
  have hmin := hblock.mapped_piece hxb
  have hback : x.addr + Minor.sizeof - Minor.sizeof = x.addr := by
    unfold Minor.sizeof
    bv_omega
  refine .ite (fun h => absurd h (Block.ptr_ne_zero hxb)) fun _ => ?_
  refine .bind (calls_inner (ends_unalign hm (hblock.dom_info hxb) hpiece.info ?_))
  dsimp only
  rw [hback]
  refine .bind (calls_lock (.bind (calls_inner (ends_get hm ?_))))
  rw [hpiece.magic]
  refine .ite (fun h => absurd rfl h) fun _ => .bind (calls_inner ?_)
  exact release_ends hm hv hset hL hb fun L' w hfreed => calls_unlock (hQ L' w hfreed)

/-! ## A piece twice -/

/-- **`kfree`** of a piece that has been freed counts an error, and that is all. -/
theorem kfree_dead_ends (hm : Lawful m Ok image) (hx : Dead v.mem x) (hne : x.ptr ≠ 0)
    {Q : Unit → Bool × View → Prop}
    (hQ : Q () (true, { v with lErrorCount := v.lErrorCount + 1 })) :
    Calls Ok image (kfree m x.ptr) (flag, v) Q := by
  have hmin := hx.mapped
  have hback : x.addr + Minor.sizeof - Minor.sizeof = x.addr := by
    unfold Minor.sizeof
    bv_omega
  refine .ite (fun h => absurd h hne) fun _ => ?_
  refine .bind (calls_inner (ends_unalign hm hx.dom hx.info ?_))
  dsimp only
  rw [hback]
  refine .bind (calls_lock (.bind (calls_inner (ends_get hm ?_))))
  rw [hx.magic]
  refine .ite (fun _ => .bind (calls_inner ?_)) fun h => absurd (by decide) h
  exact .modify (g := fun w : View => { w with lErrorCount := w.lErrorCount + 1 }) (fun _ => id)
    (fun _ => rfl) (calls_unlock hQ)

end Liballoc
