/-
# What the heap is for

A client of the heap has objects: pointers, and the bytes behind each.  It asks for objects, gives
them back, and reads and writes their bytes; it does not see headers, blocks or pages.

* `Objects` : what a client has;
* `Serves` : what the heap has room for, in a gap or in pages of the hook;
* `Op.Does`, `Op.Allowed` : what each operation does to the objects, and where it may be used;
* `Op.calls` : the operation of the code does that;
* `heap_refines_objects` : so does every run of them.
-/
import FzzOS.HeapCalls
import FzzOS.Runs

open StackWords ByteFields Packing DoubleLinks Program Runs

namespace Liballoc

/-! ## Objects -/

/-- What a client has: bytes behind pointers.  No object is at the null pointer, every pointer is
aligned, and no two objects overlap. -/
structure Objects where
  get : U64 → Option (List U8)
  aligned : ∀ p bs, get p = some bs → p ≠ 0 ∧ p.toNat % 16 = 0 ∧ p.toNat + bs.length ≤ 2 ^ 64
  apart : ∀ p q bs cs, get p = some bs → get q = some cs → p ≠ q →
    p.toNat + bs.length ≤ q.toNat ∨ q.toNat + cs.length ≤ p.toNat

@[ext] theorem Objects.ext' {S T : Objects} (h : S.get = T.get) : S = T := by
  cases S
  cases T
  cases h
  rfl

/-- What a client does: a call, or an access to a byte of an object. -/
inductive Op
  | call (c : HeapCall)
  | load (p : U64) (j : ℕ)
  | store (p : U64) (j : ℕ) (x : U8)

/-- What it gets back. -/
inductive Reply
  | pointer (p : Option U64)
  | byte (x : U8)
  | done

/-- An operation, as the code and the processor do it. -/
def Op.run {μ : Type} (m : Platform μ) (rounds : ℕ) : Op → Program (Interruptible μ) Reply
  | .call c => Reply.pointer <$> c.run m rounds
  | .load p j => Reply.byte <$> inner (loadByte m (p + BitVec.ofNat 64 j))
  | .store p j x => (fun _ => Reply.done) <$> inner (storeByte m (p + BitVec.ofNat 64 j) x)

/-- **What the operations are for.**  A request is refused only if there is no room for it, which
`serves` says. -/
inductive Op.Does (serves : U64 → Prop) : Objects → Op → Reply → Objects → Prop
  | kmalloc {S S' : Objects} {n p : U64} {bs : List U8} (fresh : S.get p = none)
      (length : bs.length = n.toNat) (get : S'.get = Function.update S.get p (some bs)) :
      Does serves S (.call (.kmalloc n)) (.pointer (some p)) S'
  | refused {S : Objects} {n : U64} (full : ¬ serves n) :
      Does serves S (.call (.kmalloc n)) (.pointer (some 0)) S
  | kfree {S S' : Objects} {p : U64} (live : S.get p ≠ none)
      (get : S'.get = Function.update S.get p none) :
      Does serves S (.call (.kfree p)) (.pointer none) S'
  | kfreeNull {S : Objects} : Does serves S (.call (.kfree 0)) (.pointer none) S
  | kcalloc {S S' : Objects} {nobj size p : U64} (fresh : S.get p = none)
      (get : S'.get =
        Function.update S.get p (some (.replicate (nobj.toNat * size.toNat) 0))) :
      Does serves S (.call (.kcalloc nobj size)) (.pointer (some p)) S'
  | krealloc {S S' : Objects} {p q size : U64} {bs cs : List U8} (nonzero : size ≠ 0)
      (live : S.get p = some bs)
      (fresh : if size.toNat ≤ bs.length then q = p else S.get q = none)
      (length : cs.length = size.toNat)
      (same : ∀ j < bs.length, j < cs.length → cs[j]? = bs[j]?)
      (get : S'.get = Function.update (Function.update S.get p none) q (some cs)) :
      Does serves S (.call (.krealloc p size)) (.pointer (some q)) S'
  | reallocNull {S S' : Objects} {size p : U64} (nonzero : size ≠ 0)
      (h : Does serves S (.call (.kmalloc size)) (.pointer (some p)) S') :
      Does serves S (.call (.krealloc 0 size)) (.pointer (some p)) S'
  | reallocZero {S S' : Objects} {p : U64}
      (h : Does serves S (.call (.kfree p)) (.pointer none) S') :
      Does serves S (.call (.krealloc p 0)) (.pointer (some 0)) S'
  | load {S : Objects} {p : U64} {j : ℕ} {bs : List U8} {x : U8} (live : S.get p = some bs)
      (byte : bs[j]? = some x) : Does serves S (.load p j) (.byte x) S
  | store {S S' : Objects} {p : U64} {j : ℕ} {x : U8} {bs : List U8} (live : S.get p = some bs)
      (get : S'.get = Function.update S.get p (some (bs.set j x))) :
      Does serves S (.store p j x) .done S'

variable {μ : Type} {m : Platform μ} {Ok : μ → Prop} {image : μ → Image} {v v' : View}
  {L L' : Layout} {x y : Piece} {l l' : List Piece} {i i' : Image} {p : U64} {flag : Bool}
  {S S' : Objects}

/-- What a client may do.  It asks for no more than fits an `unsigned int`, or an `int` where the
code keeps the size in one; it gives back, resizes and accesses only what it has.  `kcalloc`, and
`krealloc` to a larger size, write to the new piece without a look at the pointer: these it uses
only where the heap has room. -/
def Op.Allowed (S : Objects) (serves : U64 → Prop) : Op → Prop
  | .call (.kmalloc n) => n.toNat + 32 ≤ maxSize
  | .call (.kfree p) => p = 0 ∨ S.get p ≠ none
  | .call (.kcalloc nobj size) => nobj.toNat * size.toNat < 2 ^ 31 ∧ serves (nobj * size)
  | .call (.krealloc p size) => (p = 0 ∧ size.toNat + 32 ≤ maxSize) ∨
      ∃ bs, S.get p = some bs ∧
        (bs.length < size.toNat → size.toNat + 32 ≤ maxSize ∧ serves size)
  | .load p j => ∃ bs, S.get p = some bs ∧ j < bs.length
  | .store p j _ => ∃ bs, S.get p = some bs ∧ j < bs.length

/-- The heap has room for `n` bytes: the hook has pages for them, or a block has a gap. -/
def Serves (v : View) (n : U64) : Prop := ∃ L, Represents v L ∧ Granted v.mem L (n + 32)

theorem Represents.serves_iff (h : Represents v L) {n : U64} :
    Serves v n ↔ Granted v.mem L (n + 32) := by
  constructor
  · rintro ⟨L', h', hgrant⟩
    rwa [h.unique h']
  · exact fun hgrant => ⟨L, h, hgrant⟩

/-! ## The objects of a layout -/

/-- The bytes that were asked for. -/
def Piece.read (x : Piece) (i : Image) : List U8 :=
  (List.range x.req.toNat).map fun j => i.bytes (x.ptr + BitVec.ofNat 64 j)

@[simp] theorem Piece.length_read (x : Piece) (i : Image) : (x.read i).length = x.req.toNat := by
  rw [Piece.read, List.length_map, List.length_range]

theorem Piece.getElem?_read (x : Piece) (i : Image) (j : ℕ) : (x.read i)[j]? =
    if j < x.req.toNat then some (i.bytes (x.ptr + BitVec.ofNat 64 j)) else none := by
  rw [Piece.read, List.getElem?_map]
  split_ifs with hj
  · rw [List.getElem?_range hj]
    rfl
  · rw [List.getElem?_eq_none (by rw [List.length_range]; omega)]
    rfl

theorem Piece.read_congr (h : ∀ a, x.InRegion a → i'.bytes a = i.bytes a) :
    x.read i' = x.read i :=
  List.map_congr_left fun _ hj => h _ (x.inRegion_add (List.mem_range.mp hj))

/-- The bytes behind a pointer, if it is that of a piece. -/
def lookup (l : List Piece) (i : Image) (p : U64) : Option (List U8) :=
  (l.find? (·.ptr = p)).map (·.read i)

theorem lookup_cons (x : Piece) (l : List Piece) (i : Image) :
    lookup (x :: l) i = Function.update (lookup l i) x.ptr (some (x.read i)) := by
  funext p
  unfold lookup
  rcases eq_or_ne x.ptr p with rfl | hne
  · rw [Function.update_self, List.find?_cons_of_pos (by simp)]
    rfl
  · rw [Function.update_of_ne hne.symm, List.find?_cons_of_neg (by simpa using hne)]

theorem lookup_eq_some {bs : List U8} (h : lookup l i p = some bs) :
    ∃ x ∈ l, x.ptr = p ∧ x.read i = bs := by
  obtain ⟨x, hx, hread⟩ := Option.map_eq_some_iff.mp h
  exact ⟨x, List.mem_of_find?_eq_some hx, by simpa using List.find?_some hx, hread⟩

theorem lookup_eq_none (h : p ∉ l.map Piece.ptr) : lookup l i p = none := by
  refine Option.eq_none_iff_forall_ne_some.mpr fun bs hbs => h ?_
  obtain ⟨x, hx, rfl, -⟩ := lookup_eq_some hbs
  exact List.mem_map_of_mem hx

theorem lookup_congr (h : ∀ x ∈ l, ∀ a, x.InRegion a → i'.bytes a = i.bytes a) :
    lookup l i' = lookup l i := by
  induction l with
  | nil => rfl
  | cons x l ih =>
    rw [lookup_cons, lookup_cons, ih fun y hy => h y (List.mem_cons_of_mem x hy),
      Piece.read_congr (h x List.mem_cons_self)]

theorem lookup_of_mem (hl : (l.map Piece.ptr).Nodup) (hx : x ∈ l) :
    lookup l i x.ptr = some (x.read i) := by
  induction l with
  | nil => exact absurd hx List.not_mem_nil
  | cons y l ih =>
    rw [List.map_cons, List.nodup_cons] at hl
    rw [lookup_cons]
    rcases List.mem_cons.mp hx with rfl | hx
    · exact Function.update_self _ _ _
    · have hne : x.ptr ≠ y.ptr := fun heq => hl.1 (heq ▸ List.mem_map_of_mem hx)
      rw [Function.update_of_ne hne, ih hl.2 hx]

/-- The order of the pieces does not matter. -/
theorem lookup_perm (h : l.Perm l') (hl : (l.map Piece.ptr).Nodup) : lookup l i = lookup l' i := by
  have hl' : (l'.map Piece.ptr).Nodup := (h.map Piece.ptr).nodup_iff.mp hl
  funext p
  by_cases hp : p ∈ l.map Piece.ptr
  · obtain ⟨x, hx, rfl⟩ := List.mem_map.mp hp
    rw [lookup_of_mem hl hx, lookup_of_mem hl' (h.mem_iff.mp hx)]
  · rw [lookup_eq_none hp, lookup_eq_none fun hp' => hp ((h.map Piece.ptr).mem_iff.mpr hp')]

theorem Layout.nodup_ptr (L : Layout) : (L.pieces.map Piece.ptr).Nodup :=
  L.nodup_pieces.map_on fun _ hx _ hy => Layout.ptr_injective hx hy

/-- The objects of a layout. -/
def Layout.objects (L : Layout) (i : Image) : Objects where
  get := lookup L.pieces i
  aligned := by
    intro p bs h
    obtain ⟨x, hx, rfl, rfl⟩ := lookup_eq_some h
    obtain ⟨b, -, hxb⟩ := List.mem_flatMap.mp hx
    have hreg := Block.region hxb
    have hbounds := Block.bounds hxb
    have hend := b.end_le
    refine ⟨Block.ptr_ne_zero hxb, Block.ptr_aligned hxb, ?_⟩
    rw [Piece.length_read]
    omega
  apart := by
    intro p q bs cs hp hq hne
    obtain ⟨x, hx, rfl, rfl⟩ := lookup_eq_some hp
    obtain ⟨y, hy, rfl, rfl⟩ := lookup_eq_some hq
    obtain ⟨b, -, hxb⟩ := List.mem_flatMap.mp hx
    obtain ⟨c, -, hyc⟩ := List.mem_flatMap.mp hy
    have hxr := Block.region hxb
    have hyr := Block.region hyc
    have happ := Layout.apart_pieces hx hy fun heq => hne (congrArg Piece.ptr heq)
    rw [Piece.length_read, Piece.length_read]
    omega

@[simp] theorem get_objects (L : Layout) (i : Image) : (L.objects i).get = lookup L.pieces i := rfl

/-- The client's objects are those of a layout that memory represents. -/
def Shows (v : View) (S : Objects) : Prop :=
  ∃ L : Layout, Represents v L ∧ L.Settled ∧ S = L.objects v.mem

/-- A live pointer is that of a piece. -/
theorem exists_piece {bs : List U8} (h : (L.objects i).get p = some bs) :
    ∃ x ∈ L.pieces, x.ptr = p ∧ x.read i = bs := lookup_eq_some h

theorem Layout.get_ptr (hx : x ∈ L.pieces) : (L.objects i).get x.ptr = some (x.read i) :=
  lookup_of_mem L.nodup_ptr hx

/-! ## What the calls do to the objects -/

theorem Stored.get_objects (h : Stored L i x L' v') :
    (L.objects i).get x.ptr = none ∧
      (L'.objects v'.mem).get = Function.update (L.objects i).get x.ptr (some (x.read v'.mem)) := by
  have hnodup := (h.pieces.map Piece.ptr).nodup_iff.mp L'.nodup_ptr
  refine ⟨lookup_eq_none (List.nodup_cons.mp hnodup).1, ?_⟩
  rw [Liballoc.get_objects, lookup_perm h.pieces L'.nodup_ptr, lookup_cons, lookup_congr h.keeps]
  rfl

theorem Freed.get_objects (h : Freed L i x L' v') :
    (L'.objects v'.mem).get = Function.update (L.objects i).get x.ptr none := by
  have hnodup := (h.pieces.map Piece.ptr).nodup_iff.mp L.nodup_ptr
  have hnone : lookup L'.pieces i x.ptr = none := lookup_eq_none (List.nodup_cons.mp hnodup).1
  rw [Liballoc.get_objects, Liballoc.get_objects, lookup_perm h.pieces L.nodup_ptr, lookup_cons,
    Function.update_idem, ← hnone, Function.update_eq_self, lookup_congr h.keeps]

theorem Resized.get_objects (h : Resized L i x y L' v') :
    (L'.objects v'.mem).get = Function.update (Function.update (L.objects i).get x.ptr none) y.ptr
      (some (y.read v'.mem)) := by
  obtain ⟨rest, hL, hL'⟩ := h.pieces
  have hnodup := (hL.map Piece.ptr).nodup_iff.mp L.nodup_ptr
  have hnone : lookup rest i x.ptr = none := lookup_eq_none (List.nodup_cons.mp hnodup).1
  have hrest : ∀ z ∈ rest, ∀ a, z.InRegion a → v'.mem.bytes a = i.bytes a := by
    intro z hz
    refine h.kept z (hL.mem_iff.mpr (List.mem_cons_of_mem x hz)) ?_
    rintro rfl
    exact (List.nodup_cons.mp hnodup).1 (List.mem_map_of_mem hz)
  rw [Liballoc.get_objects, Liballoc.get_objects, lookup_perm hL' L'.nodup_ptr, lookup_cons,
    lookup_congr hrest, lookup_perm hL L.nodup_ptr, lookup_cons, Function.update_idem, ← hnone,
    Function.update_eq_self]

/-- What is kept of the contents. -/
theorem Resized.getElem? (h : Resized L i x y L' v') :
    ∀ j < (x.read i).length, j < (y.read v'.mem).length → (y.read v'.mem)[j]? = (x.read i)[j]? := by
  intro j hj hj'
  rw [Piece.length_read] at hj hj'
  rw [Piece.getElem?_read, Piece.getElem?_read, if_pos hj, if_pos hj', h.contents j hj hj']

/-- The bytes of a piece that has been cleared. -/
theorem Piece.read_zero (h : ∀ a, x.InRegion a → i.bytes a = 0) :
    x.read i = .replicate x.req.toNat 0 := by
  refine List.eq_replicate_iff.mpr ⟨x.length_read i, fun b hb => ?_⟩
  obtain ⟨j, hj, rfl⟩ := List.mem_map.mp hb
  exact h _ (x.inRegion_add (List.mem_range.mp hj))

/-! ## Every operation does what it is for -/

section

variable {rounds : ℕ} {Q : Reply → Bool × View → Prop}

/-- `kmalloc`. -/
theorem kmalloc_does (hm : Lawful m Ok image) (hv : Represents v L) (hset : L.Settled) {n : U64}
    (hn : n.toNat + 32 ≤ maxSize) (hrounds : L.bound ≤ rounds) :
    Calls Ok image (kmalloc m rounds n) (flag, v) fun p s =>
      ∃ S', Op.Does (Serves v) (L.objects v.mem) (.call (.kmalloc n)) (.pointer (some p)) S' ∧
        Shows s.2 S' := by
  refine kmalloc_ends hm hv hset hn hrounds fun p w hserved => ?_
  cases hserved with
  | refused hook full hw hkeeps =>
    have hfull : ¬ Serves v n := fun h => full (hv.serves_iff.mp h hook)
    refine ⟨L.objects v.mem, .refused hfull, L, hw, hset, Objects.ext' ?_⟩
    exact (lookup_congr hkeeps).symm
  | @stored _ L' x _ hreq hstored _ =>
    obtain ⟨hfresh, hget⟩ := hstored.get_objects
    refine ⟨L'.objects w.mem, .kmalloc hfresh ?_ hget, L', hstored.represents, hstored.settled, rfl⟩
    rw [Piece.length_read, hreq]

/-- `kfree`. -/
theorem kfree_does (hm : Lawful m Ok image) (hv : Represents v L) (hset : L.Settled)
    (hp : p = 0 ∨ (L.objects v.mem).get p ≠ none) :
    Calls Ok image (kfree m p) (flag, v) fun _ s =>
      ∃ S', Op.Does (Serves v) (L.objects v.mem) (.call (.kfree p)) (.pointer none) S' ∧
        Shows s.2 S' := by
  rcases hp with rfl | hp
  · refine .ite (fun _ => calls_inner (ends_warn ⟨_, .kfreeNull, L, ?_, hset, ?_⟩)) fun h =>
      absurd rfl h
    · exact hv.congr (by simp) (by simp) (by simpa using hv.best) (by simp) (by simp)
    · rw [mem_warn]
  · obtain ⟨bs, hbs⟩ := Option.ne_none_iff_exists'.mp hp
    obtain ⟨x, hx, rfl, -⟩ := exists_piece hbs
    refine kfree_ends hm hv hset hx fun L' w hfreed => ?_
    exact ⟨L'.objects w.mem, .kfree hp hfreed.get_objects, L', hfreed.represents, hfreed.settled,
      rfl⟩

/-- `kcalloc`. -/
theorem kcalloc_does (hm : Lawful m Ok image) (hv : Represents v L) (hset : L.Settled)
    {nobj size : U64} (hn : nobj.toNat * size.toNat < 2 ^ 31) (hserves : Serves v (nobj * size))
    (hrounds : L.bound ≤ rounds) (hrounds' : nobj.toNat * size.toNat < rounds) :
    Calls Ok image (kcalloc m rounds nobj size) (flag, v) fun p s =>
      ∃ S', Op.Does (Serves v) (L.objects v.mem) (.call (.kcalloc nobj size))
        (.pointer (some p)) S' ∧ Shows s.2 S' := by
  have hprod : (nobj * size).toNat = nobj.toNat * size.toNat := by
    rw [BitVec.toNat_mul]
    omega
  -- the product fits the `int` it is kept in
  have hreal : ((nobj * size).setWidth 32 : U32).toNat = nobj.toNat * size.toNat := by
    rw [BitVec.toNat_setWidth, hprod]
    omega
  have hwidth : ((nobj * size).setWidth 32 : U32).setWidth 64 = nobj * size := by
    apply BitVec.eq_of_toNat_eq
    rw [BitVec.toNat_setWidth, hreal, hprod]
    omega
  refine kcalloc_ends hm hv hset rfl (hreal ▸ hn) (hwidth.symm ▸ hv.serves_iff.mp hserves) hrounds
    (hreal ▸ hrounds') fun x L' w hreq hstored hzero => ?_
  obtain ⟨hfresh, hget⟩ := hstored.get_objects
  have hlen : x.req.toNat = nobj.toNat * size.toNat := by rw [hreq, hwidth, hprod]
  rw [Piece.read_zero hzero, hlen] at hget
  exact ⟨L'.objects w.mem, .kcalloc hfresh hget, L', hstored.represents, hstored.settled, rfl⟩

/-- `krealloc`. -/
theorem krealloc_does (hm : Lawful m Ok image) (hv : Represents v L) (hset : L.Settled)
    {size : U64} (hop : (Op.call (.krealloc p size)).Allowed (L.objects v.mem) (Serves v))
    (hrounds : L.bound ≤ rounds) :
    Calls Ok image (krealloc m rounds p size) (flag, v) fun q s =>
      ∃ S', Op.Does (Serves v) (L.objects v.mem) (.call (.krealloc p size))
        (.pointer (some q)) S' ∧ Shows s.2 S' := by
  rcases eq_or_ne size 0 with rfl | hsize
  · have hp : p = 0 ∨ (L.objects v.mem).get p ≠ none := by
      refine hop.imp And.left ?_
      rintro ⟨bs, hbs, -⟩
      exact Option.ne_none_iff_exists'.mpr ⟨bs, hbs⟩
    refine .ite (fun _ => .bind ((kfree_does hm hv hset hp).mono ?_)) fun h => absurd rfl h
    rintro - w ⟨S', hdoes, hshows⟩
    exact .pure ⟨S', .reallocZero hdoes, hshows⟩
  · rcases hop with ⟨rfl, hn⟩ | ⟨bs, hbs, hgrow⟩
    · refine .ite (fun h => absurd h hsize) fun _ => .ite (fun _ => ?_) fun h => absurd rfl h
      refine (kmalloc_does hm hv hset hn hrounds).mono ?_
      rintro q w ⟨S', hdoes, hshows⟩
      exact ⟨S', .reallocNull hsize hdoes, hshows⟩
    · obtain ⟨x, hx, rfl, rfl⟩ := exists_piece hbs
      have hlen := x.length_read v.mem
      rcases Nat.lt_or_ge x.req.toNat size.toNat with hgt | hle
      · obtain ⟨hn, hserves⟩ := hgrow (by omega)
        refine krealloc_grow_ends hm hv hset hx hgt hn (hv.serves_iff.mp hserves) hrounds
          fun y L' w hy hreq hres => ?_
        refine ⟨L'.objects w.mem, .krealloc hsize hbs ?_ ?_ hres.getElem? hres.get_objects, L',
          hres.represents, hres.settled, rfl⟩
        · rw [if_neg (by omega)]
          exact lookup_eq_none hy
        · rw [Piece.length_read, hreq]
      · refine krealloc_shrink_ends hm hv hset hx hsize hle fun y L' w hptr hreq hres => ?_
        refine ⟨L'.objects w.mem, .krealloc hsize hbs ?_ ?_ hres.getElem? hres.get_objects, L',
          hres.represents, hres.settled, rfl⟩
        · rw [if_pos (by omega), hptr]
        · rw [Piece.length_read, hreq]

/-- A read of a byte. -/
theorem load_does (hm : Lawful m Ok image) (hv : Represents v L) (hset : L.Settled) {j : ℕ}
    {bs : List U8} (hp : (L.objects v.mem).get p = some bs) (hj : j < bs.length) :
    Calls Ok image (Op.run m rounds (.load p j)) (flag, v) fun r s =>
      ∃ S', Op.Does (Serves v) (L.objects v.mem) (.load p j) r S' ∧ Shows s.2 S' := by
  obtain ⟨x, hx, rfl, rfl⟩ := exists_piece hp
  have hj' : j < x.req.toNat := by rwa [Piece.length_read] at hj
  refine .map (calls_inner (ends_loadByte hm (hv.mapped_region hx j hj') ?_))
  refine ⟨L.objects v.mem, .load hp ?_, L, hv, hset, rfl⟩
  rw [Piece.getElem?_read, if_pos hj']

/-- A write of a byte. -/
theorem store_does (hm : Lawful m Ok image) (hv : Represents v L) (hset : L.Settled) {j : ℕ}
    {c : U8} {bs : List U8} (hp : (L.objects v.mem).get p = some bs) (hj : j < bs.length) :
    Calls Ok image (Op.run m rounds (.store p j c)) (flag, v) fun r s =>
      ∃ S', Op.Does (Serves v) (L.objects v.mem) (.store p j c) r S' ∧ Shows s.2 S' := by
  obtain ⟨x, hx, rfl, rfl⟩ := exists_piece hp
  have hj' : j < x.req.toNat := by rwa [Piece.length_read] at hj
  have hin := x.inRegion_add hj'
  refine .map (calls_inner (ends_storeByte hm (hv.mapped_region hx j hj') ?_))
  have hbytes : ∀ a, a ≠ x.ptr + BitVec.ofNat 64 j →
      (v.setByte (x.ptr + BitVec.ofNat 64 j) c).mem.bytes a = v.mem.bytes a := by
    intro a ha
    rw [mem_setByte, bytes_setByte ha]
  have hv' : Represents (v.setByte (x.ptr + BitVec.ofNat 64 j) c) L := by
    refine hv.of_private (by simp) (fun b hb a ha => hbytes a ?_) (by simp) (by simp) (by simp)
      (by simp)
    rintro rfl
    exact Layout.not_private hx hin hb ha
  refine ⟨L.objects (v.setByte (x.ptr + BitVec.ofNat 64 j) c).mem, .store hp ?_, L, hv', hset, rfl⟩
  obtain ⟨s, t, hst⟩ := List.append_of_mem hx
  have hrest : L.pieces.Perm (x :: (s ++ t)) := hst ▸ List.perm_middle
  have hnodup := List.nodup_cons.mp (hrest.nodup_iff.mp L.nodup_pieces)
  have hothers : ∀ y ∈ s ++ t, ∀ a, y.InRegion a →
      (v.setByte (x.ptr + BitVec.ofNat 64 j) c).mem.bytes a = v.mem.bytes a := by
    intro y hy a ha
    refine hbytes a ?_
    rintro rfl
    have hyL : y ∈ L.pieces := hrest.mem_iff.mpr (List.mem_cons_of_mem x hy)
    exact Layout.not_inRegion hx hyL (fun heq => hnodup.1 (heq ▸ hy)) hin ha
  have hread : x.read (v.setByte (x.ptr + BitVec.ofNat 64 j) c).mem = (x.read v.mem).set j c := by
    refine List.ext_getElem? fun k => ?_
    rw [Piece.getElem?_read, List.getElem?_set, Piece.getElem?_read, Piece.length_read, if_pos hj']
    have hlt := x.req.isLt
    by_cases hk : k < x.req.toNat
    · rcases eq_or_ne j k with rfl | hne
      · rw [if_pos hk, if_pos rfl, mem_setByte, bytes_setByte_self]
      · rw [if_pos hk, if_neg hne, if_pos hk, hbytes]
        bv_omega
    · rw [if_neg hk, if_neg (by omega), if_neg hk]
  rw [get_objects, get_objects, lookup_perm hrest L.nodup_ptr, lookup_cons, lookup_congr hothers,
    hread, lookup_perm hrest L.nodup_ptr, lookup_cons, Function.update_idem]

end

/-! ## Runs of a client -/

/-- **An operation.**  Given enough rounds it returns, and does to the objects what it is for. -/
theorem Op.calls (hm : Lawful m Ok image) (hv : Shows v S) (op : Op)
    (hop : op.Allowed S (Serves v)) :
    ∃ n, ∀ rounds, n ≤ rounds → Calls Ok image (op.run m rounds) (flag, v) fun r s =>
      ∃ S', op.Does (Serves v) S r S' ∧ Shows s.2 S' := by
  obtain ⟨L, hv, hset, rfl⟩ := hv
  cases op with
  | call c =>
    cases c with
    | kmalloc n =>
      exact ⟨L.bound, fun rounds hrounds => .map (.map (kmalloc_does hm hv hset hop hrounds))⟩
    | kfree p => exact ⟨0, fun rounds _ => .map (.map (kfree_does hm hv hset hop))⟩
    | kcalloc nobj size =>
      refine ⟨L.bound + (nobj.toNat * size.toNat + 1), fun rounds hrounds => .map (.map ?_)⟩
      exact kcalloc_does hm hv hset hop.1 hop.2 (by omega) (by omega)
    | krealloc p size =>
      exact ⟨L.bound, fun rounds hrounds => .map (.map (krealloc_does hm hv hset hop hrounds))⟩
  | load p j =>
    obtain ⟨bs, hbs, hj⟩ := hop
    exact ⟨0, fun _ _ => load_does hm hv hset hbs hj⟩
  | store p j c =>
    obtain ⟨bs, hbs, hj⟩ := hop
    exact ⟨0, fun _ _ => store_does hm hv hset hbs hj⟩

/-- More rounds change nothing. -/
theorem Op.run_extends (op : Op) {rounds rounds' : ℕ} (h : rounds ≤ rounds') :
    Extends (op.run m rounds') (op.run m rounds) := by
  cases op with
  | call c => exact .map (c.run_extends h)
  | load p j => exact .refl
  | store p j c => exact .refl

/-- An operation of a run, what the heap had room for then, and the reply. -/
structure Event where
  op : Op
  serves : U64 → Prop
  reply : Reply

/-- An operation returns, whatever the rounds it takes. -/
def Returns (m : Platform μ) (image : μ → Image) (s : Interruptible μ) (e : Event)
    (s' : Interruptible μ) : Prop :=
  e.serves = Serves (s.2.map image) ∧ ∃ rounds, e.op.run m rounds s = some (e.reply, s')

/-- The client's objects, in a sound state. -/
def Has (Ok : μ → Prop) (image : μ → Image) (s : Interruptible μ) (S : Objects) : Prop :=
  Ok s.2.mem ∧ Shows (s.2.map image) S

/-- The steps of the objects. -/
def Objects.step (S : Objects) (e : Event) (S' : Objects) : Prop := e.op.Does e.serves S e.reply S'

/-- The rules for a client. -/
def Rules : Objects → List Event → Prop := Follows Objects.step fun S e => e.op.Allowed S e.serves

/-- One operation of a run. -/
theorem Returns.does (hm : Lawful m Ok image) {s s' : Interruptible μ} {e : Event}
    (hs : Has Ok image s S) (he : e.op.Allowed S e.serves) (h : Returns m image s e s') :
    ∃ S', S.step e S' ∧ Has Ok image s' S' := by
  obtain ⟨hserves, rounds, hrun⟩ := h
  rw [hserves] at he
  obtain ⟨n, hcalls⟩ := Op.calls hm hs.2 e.op he
  obtain ⟨r, t, hrun', hok, S', hdoes, hshows⟩ :=
    hcalls (max n rounds) (Nat.le_max_left n rounds) s hs.1 rfl
  have hmore := e.op.run_extends (m := m) (Nat.le_max_right n rounds) s _ hrun
  obtain ⟨rfl, rfl⟩ := Prod.mk.inj (Option.some.inj (hmore.symm.trans hrun'))
  rw [← hserves] at hdoes
  exact ⟨S', hdoes, hok, hshows⟩

/-- **Progress.** -/
theorem Has.returns (hm : Lawful m Ok image) {s : Interruptible μ} (hs : Has Ok image s S) {op : Op}
    (hop : op.Allowed S (Serves (s.2.map image))) :
    ∃ r s', Returns m image s ⟨op, Serves (s.2.map image), r⟩ s' := by
  obtain ⟨n, hcalls⟩ := Op.calls hm hs.2 op hop
  obtain ⟨r, s', hrun, -⟩ := hcalls n (le_refl n) s hs.1 rfl
  exact ⟨r, s', rfl, n, hrun⟩

/-- A client without objects. -/
def Objects.empty : Objects := ⟨fun _ => none, nofun, nofun⟩

/-- The variables of the heap before the first call. -/
def Heap.Unused (h : Heap μ) : Prop :=
  h.lMemRoot = 0 ∧ h.lBestBet = 0 ∧ h.lAllocated = 0 ∧ h.lInuse = 0

theorem Heap.Unused.has {s : Interruptible μ} (hok : Ok s.2.mem) (h : s.2.Unused) :
    Has Ok image s .empty := by
  obtain ⟨hroot, hbest, hallocated, hinuse⟩ := h
  exact ⟨hok, ⟨[], .nil⟩, ⟨hroot, trivial, nofun, Or.inl hbest, hinuse, hallocated⟩, nofun, rfl⟩

/-! ## A run on flat memory -/

/-- Flat memory, and the heap before its first call. -/
def Flat.start : Interruptible Flat :=
  (true, ⟨⟨fun _ => 0, 4096⟩, 0, 0, 0, 0, 0, 0, 0⟩)

theorem Flat.start_has : Has Flat.Ok Flat.image Flat.start .empty :=
  Heap.Unused.has ⟨le_refl 4096, by decide⟩ ⟨rfl, rfl, rfl, rfl⟩

/-- Before the first call there are pages for a piece. -/
theorem Flat.start_serves : Serves (Flat.start.2.map Flat.image) 16 := by
  refine ⟨⟨[], .nil⟩, ⟨rfl, trivial, nofun, Or.inl rfl, rfl, rfl⟩, fun hrefuses => ?_⟩
  refine absurd ?_ hrefuses
  show _ ≤ _
  decide

/-- A client asks for 16 bytes, gets `p`, and gives them back when the heap is in state `s`. -/
def Flat.mallocFree (p : U64) (s : Interruptible Flat) : List Event :=
  [⟨.call (.kmalloc 16), Serves (Flat.start.2.map Flat.image), .pointer (some p)⟩,
    ⟨.call (.kfree p), Serves (s.2.map Flat.image), .pointer none⟩]

/-- Whatever pointer `kmalloc(16)` returns may be given back. -/
theorem rules_malloc_free (p : U64) (s : Interruptible Flat) :
    Rules .empty (Flat.mallocFree p s) := by
  refine ⟨by show _ ≤ _; decide, fun S' hstep => ⟨?_, fun _ _ => trivial⟩⟩
  cases hstep with
  | kmalloc _ _ hget =>
    refine Or.inr ?_
    rw [hget, Function.update_self]
    exact Option.some_ne_none _
  | refused => exact Or.inl rfl

/-- The run is there, and the pointer is one of an object. -/
theorem exists_malloc_free : ∃ p s s', p ≠ 0 ∧
    Steps (Returns flat Flat.image) Flat.start (Flat.mallocFree p s) s' := by
  have hmalloc : (Op.call (.kmalloc 16)).Allowed .empty (Serves (Flat.start.2.map Flat.image)) := by
    show _ ≤ _
    decide
  obtain ⟨r, s₁, hfirst⟩ := Flat.start_has.returns flat_lawful hmalloc
  obtain ⟨S₁, hstep, hs₁⟩ := hfirst.does flat_lawful Flat.start_has hmalloc
  have hgive : ∃ p, p ≠ 0 ∧ r = .pointer (some p) := by
    cases hstep with
    | @kmalloc _ _ p bs _ _ hget =>
      have hlive : S₁.get p = some bs := by rw [hget, Function.update_self]
      exact ⟨p, (S₁.aligned p bs hlive).1, rfl⟩
    | refused hfull => exact absurd Flat.start_serves hfull
  obtain ⟨p, hp, rfl⟩ := hgive
  have hfree : (Op.call (.kfree p)).Allowed S₁ (Serves (s₁.2.map Flat.image)) :=
    ((rules_malloc_free p s₁).2 S₁ hstep).1
  obtain ⟨r', s₂, hsecond⟩ := hs₁.returns flat_lawful hfree
  obtain ⟨S₂, hstep', -⟩ := hsecond.does flat_lawful hs₁ hfree
  have hdone : r' = .pointer none := by cases hstep' <;> rfl
  subst hdone
  exact ⟨p, s₁, s₂, hp, .cons hfirst (.cons hsecond (.nil s₂))⟩

/-! ## What a client may rely on -/

/-- **The heap keeps objects.**  A client that follows the rules sees what the specification of
its operations says: fresh and aligned objects that do not overlap and hold what was last written,
and a null pointer only where the heap has no room.  No operation it is allowed fails to return. -/
theorem heap_refines_objects (hm : Lawful m Ok image) {s s' : Interruptible μ} {t : List Event}
    (hs : Has Ok image s S) (hrun : Steps (Returns m image) s t s') (hrules : Rules S t) :
    ∃ S', Steps Objects.step S t S' ∧ Has Ok image s' S' ∧
      ∀ op : Op, op.Allowed S' (Serves (s'.2.map image)) →
        ∃ r s'', Returns m image s' ⟨op, Serves (s'.2.map image), r⟩ s'' := by
  obtain ⟨S', hsteps, hs'⟩ := hrun.refines (R := Has Ok image)
    (fun _ _ _ _ hR he h => h.does hm hR he) hs hrules
  exact ⟨S', hsteps, hs', fun _ hop => hs'.returns hm hop⟩

theorem refines_malloc_free : ∃ p s s' S', p ≠ 0 ∧
    Steps (Returns flat Flat.image) Flat.start (Flat.mallocFree p s) s' ∧
    Steps Objects.step .empty (Flat.mallocFree p s) S' ∧ Has Flat.Ok Flat.image s' S' := by
  obtain ⟨p, s, s', hp, hrun⟩ := exists_malloc_free
  obtain ⟨S', hsteps, hs', -⟩ :=
    heap_refines_objects flat_lawful Flat.start_has hrun (rules_malloc_free p s)
  exact ⟨p, s, s', S', hp, hrun, hsteps, hs'⟩

/-! ## Nothing is left -/

/-- A heap without objects has no blocks either. -/
theorem Has.unused {s : Interruptible μ} (hs : Has Ok image s .empty) : s.2.Unused := by
  obtain ⟨-, L, hv, hset, hobjects⟩ := hs
  have hpieces : L.pieces = [] := by
    refine List.eq_nil_iff_forall_not_mem.mpr fun x hx => ?_
    have hget := Layout.get_ptr (i := (s.2.map image).mem) hx
    rw [← hobjects] at hget
    exact Option.some_ne_none _ hget.symm
  have hblocks : L.blocks = [] := by
    refine List.eq_nil_iff_forall_not_mem.mpr fun b hb => hset b hb ?_
    exact (List.flatMap_eq_nil_iff.mp hpieces) b hb
  have hroot := hv.root
  have hbest := hv.best
  have hinuse := hv.inuse
  have hallocated := hv.allocated
  rw [hblocks] at hroot hbest hallocated
  rw [hpieces] at hinuse
  exact ⟨hroot, hbest.resolve_right List.not_mem_nil, hallocated, hinuse⟩

/-- **Nothing is left.**  After a run in which every object was given back, the heap has no block,
and its accounts are as before the first call. -/
theorem heap_unused (hm : Lawful m Ok image) {s s' : Interruptible μ} {t : List Event}
    (hok : Ok s.2.mem) (hs : s.2.Unused) (hrun : Steps (Returns m image) s t s')
    (hrules : Rules .empty t)
    (hback : ∀ S', Steps Objects.step .empty t S' → S' = .empty) : s'.2.Unused := by
  obtain ⟨S', hsteps, hs'⟩ := hrun.refines (R := Has Ok image)
    (fun _ _ _ _ hR he h => h.does hm hR he) (hs.has hok) hrules
  obtain rfl := hback S' hsteps
  exact hs'.unused

theorem unused_malloc_free : ∃ p s s', p ≠ 0 ∧
    Steps (Returns flat Flat.image) Flat.start (Flat.mallocFree p s) s' ∧ s'.2.Unused := by
  obtain ⟨p, s, s', hp, hrun⟩ := exists_malloc_free
  refine ⟨p, s, s', hp, hrun, heap_unused flat_lawful Flat.start_has.1 ⟨rfl, rfl, rfl, rfl⟩ hrun
    (rules_malloc_free p s) fun S' hsteps => ?_⟩
  cases hsteps with | cons hmalloc hsteps =>
  cases hsteps with | cons hfree hsteps =>
  cases hsteps
  refine Objects.ext' ?_
  cases hmalloc with
  | kmalloc hfresh _ hget =>
    cases hfree with
    | kfree _ hget' => rw [hget', hget, Function.update_idem, ← hfresh, Function.update_eq_self]
    | kfreeNull => exact absurd rfl hp
  | refused => exact absurd rfl hp

/-! ## Given back twice -/

/-- **An object given back twice** is told by its magic number: the second call counts an error,
and changes nothing else. -/
theorem kfree_twice (hm : Lawful m Ok image) {s : Interruptible μ} (hs : Has Ok image s S)
    (hp : S.get p ≠ none) :
    ∃ s₁ s₂ S', kfree m p s = some ((), s₁) ∧ kfree m p s₁ = some ((), s₂) ∧
      S'.get = Function.update S.get p none ∧ Has Ok image s₁ S' ∧ Has Ok image s₂ S' ∧
      s₂.2.map image = { s₁.2.map image with lErrorCount := s₁.2.lErrorCount + 1 } := by
  obtain ⟨hok, L, hv, hset, rfl⟩ := hs
  obtain ⟨bs, hbs⟩ := Option.ne_none_iff_exists'.mp hp
  obtain ⟨x, hx, rfl, -⟩ := exists_piece hbs
  obtain ⟨b, -, hxb⟩ := List.mem_flatMap.mp hx
  have hfree : Calls Ok image (kfree m x.ptr) (s.1, s.2.map image) fun _ w =>
      ∃ L', Freed L (s.2.map image).mem x L' w.2 :=
    kfree_ends hm hv hset hx fun L' w hfreed => ⟨L', hfreed⟩
  obtain ⟨⟨⟩, s₁, hrun₁, hok₁, L', hfreed⟩ := hfree s hok rfl
  have hagain : Calls Ok image (kfree m x.ptr) (s₁.1, s₁.2.map image) fun _ w =>
      w.2 = { s₁.2.map image with lErrorCount := s₁.2.lErrorCount + 1 } :=
    kfree_dead_ends hm hfreed.dead (Block.ptr_ne_zero hxb) rfl
  obtain ⟨⟨⟩, s₂, hrun₂, hok₂, hs₂⟩ := hagain s₁ hok₁ rfl
  have hs₂' : s₂.2.map image = { s₁.2.map image with lErrorCount := s₁.2.lErrorCount + 1 } := hs₂
  refine ⟨s₁, s₂, L'.objects (s₁.2.map image).mem, hrun₁, hrun₂, hfreed.get_objects,
    ⟨hok₁, L', hfreed.represents, hfreed.settled, rfl⟩, ⟨hok₂, L', ?_, hfreed.settled, ?_⟩, hs₂'⟩
  · rw [hs₂']
    have hv₁ : Represents (s₁.2.map image) L' := hfreed.represents
    exact hv₁.congr rfl rfl hv₁.best rfl rfl
  · rw [hs₂']

theorem kfree_twice_onePiece : ∃ s₁ s₂ S', kfree flat 0x10060 onePieceHeap = some ((), s₁) ∧
    kfree flat 0x10060 s₁ = some ((), s₂) ∧
    S'.get = Function.update (onePieceLayout.objects (Flat.image onePieceHeap.2.mem)).get 0x10060
      none ∧
    Has Flat.Ok Flat.image s₁ S' ∧ Has Flat.Ok Flat.image s₂ S' ∧
    s₂.2.map Flat.image = { s₁.2.map Flat.image with lErrorCount := s₁.2.lErrorCount + 1 } := by
  refine kfree_twice flat_lawful
    ⟨⟨by decide, by decide⟩, _, onePieceHeap_represents, onePieceLayout_settled, rfl⟩ ?_
  decide

end Liballoc
