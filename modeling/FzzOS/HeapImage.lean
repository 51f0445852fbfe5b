/-
# What the heap code sees of memory

The code of the heap runs on any platform.  What it needs of one is that the bytes of its pages
read as they were last written, and what `liballoc.h` says of the hook for pages: it returns a
null pointer or a pointer to so many new pages.

* `Image` : the bytes the heap may touch, as the code sees them;
* `Lawful` : a platform whose memory and whose hook do what the code takes them to do, as those
  of `flat` memory do;
* `Image.field`, `Image.setField` : the fields of the headers, in an image;
* `ends_get`, `ends_set`, `ends_align`, `ends_unalign` : the steps of the code as steps on images.
-/
import FzzOS.ByteFields
import FzzOS.Liballoc

open StackWords ByteFields Program

namespace Liballoc

variable {μ α β : Type}

/-! ## Images -/

/-- The addresses of the pages of the heap, the bytes there, and how many pages the hook has. -/
structure Image where
  dom : U64 → Prop
  bytes : Bytes
  grants : U64 → Prop

/-- A byte is written. -/
def Image.setByte (i : Image) (p : U64) (x : U8) : Image :=
  { i with bytes := Function.update i.bytes p x }

/-- Address `a` lies in the `n` pages from `page` on. -/
def InPages (page n a : U64) : Prop :=
  page.toNat ≤ a.toNat ∧ a.toNat < page.toNat + 4096 * n.toNat

/-- What a call of the hook that returns pages has done: they do not wrap around, none of them
was there before, all of them are there now, and what was there is as it was. -/
structure Supplies (n page : U64) (i i' : Image) : Prop where
  fits : page.toNat + 4096 * n.toNat ≤ 2 ^ 64
  fresh : ∀ a, InPages page n a → ¬ i.dom a
  dom : ∀ a, i'.dom a ↔ i.dom a ∨ InPages page n a
  bytes : ∀ a, i.dom a → i'.bytes a = i.bytes a

/-- A platform on which the sound states `Ok` have an image: an access to it does not fault and is
nothing to the hook, and the hook returns a null pointer and has done nothing, or supplies
pages. -/
structure Lawful (m : Platform μ) (Ok : μ → Prop) (image : μ → Image) : Prop where
  load : ∀ mem p, Ok mem → (image mem).dom p → m.load mem p = some ((image mem).bytes p)
  store : ∀ mem p x, Ok mem → (image mem).dom p → ∃ mem', m.store mem p x = some mem' ∧ Ok mem' ∧
    image mem' = (image mem).setByte p x
  ok : ∀ mem n, Ok mem → Ok (m.liballocAlloc n mem).2
  grants : ∀ mem n, Ok mem → ((image mem).grants n ↔ (m.liballocAlloc n mem).1 ≠ 0)
  refused : ∀ mem n, Ok mem → (m.liballocAlloc n mem).1 = 0 →
    image (m.liballocAlloc n mem).2 = image mem
  supplied : ∀ mem n, Ok mem → (m.liballocAlloc n mem).1 ≠ 0 →
    Supplies n (m.liballocAlloc n mem).1 (image mem) (image (m.liballocAlloc n mem).2)

/-! ## Flat memory -/

/-- Memory without page tables, whose pages are handed out one after the other. -/
structure Flat where
  bytes : Bytes
  top : ℕ

/-- Where the pages come to an end. -/
def Flat.limit : ℕ := 2 ^ 40

/-- The platform of flat memory. -/
def flat : Platform Flat where
  load mem p := some (mem.bytes p)
  store mem p x := some { mem with bytes := Function.update mem.bytes p x }
  liballocAlloc n mem :=
    if mem.top + 4096 * n.toNat ≤ Flat.limit then
      (BitVec.ofNat 64 mem.top, { mem with top := mem.top + 4096 * n.toNat })
    else (0, mem)

/-- What is seen of flat memory. -/
def Flat.image (mem : Flat) : Image where
  dom a := 4096 ≤ a.toNat ∧ a.toNat < mem.top
  bytes := mem.bytes
  grants n := mem.top + 4096 * n.toNat ≤ Flat.limit

/-- The first page is not handed out. -/
def Flat.Ok (mem : Flat) : Prop := 4096 ≤ mem.top ∧ mem.top ≤ Flat.limit

theorem flat_lawful : Lawful flat Flat.Ok Flat.image := by
  have halloc : ∀ (mem : Flat) n, mem.Ok → mem.top + 4096 * n.toNat ≤ Flat.limit →
      (flat.liballocAlloc n mem).1 = BitVec.ofNat 64 mem.top ∧
        (flat.liballocAlloc n mem).2 = { mem with top := mem.top + 4096 * n.toNat } ∧
        (BitVec.ofNat 64 mem.top).toNat = mem.top := by
    intro mem n hok hle
    have hmem : flat.liballocAlloc n mem
        = (BitVec.ofNat 64 mem.top, { mem with top := mem.top + 4096 * n.toNat }) := if_pos hle
    rw [hmem, BitVec.toNat_ofNat]
    refine ⟨rfl, rfl, ?_⟩
    unfold Flat.Ok Flat.limit at hok
    omega
  have hrefuse : ∀ (mem : Flat) n, ¬ mem.top + 4096 * n.toNat ≤ Flat.limit →
      flat.liballocAlloc n mem = (0, mem) := fun mem n hgt => if_neg hgt
  refine ⟨fun _ _ _ _ => rfl, fun mem p x hok _ => ⟨_, rfl, hok, rfl⟩, fun mem n hok => ?_,
    fun mem n hok => ?_, fun mem n hok hzero => ?_, fun mem n hok hne => ?_⟩
  · by_cases hle : mem.top + 4096 * n.toNat ≤ Flat.limit
    · rw [(halloc mem n hok hle).2.1]
      exact ⟨Nat.le_add_right_of_le hok.1, hle⟩
    · rwa [hrefuse mem n hle]
  · by_cases hle : mem.top + 4096 * n.toNat ≤ Flat.limit
    · obtain ⟨hpage, -, htop⟩ := halloc mem n hok hle
      refine iff_of_true hle fun hzero => ?_
      have hpos := hok.1
      rw [← htop, ← hpage, hzero] at hpos
      exact absurd hpos (by decide)
    · rw [hrefuse mem n hle]
      exact iff_of_false hle fun h => h rfl
  · by_cases hle : mem.top + 4096 * n.toNat ≤ Flat.limit
    · obtain ⟨hpage, -, htop⟩ := halloc mem n hok hle
      have hpos := hok.1
      rw [← htop, ← hpage, hzero] at hpos
      exact absurd hpos (by decide)
    · rw [hrefuse mem n hle]
  · by_cases hle : mem.top + 4096 * n.toNat ≤ Flat.limit
    · obtain ⟨hpage, hmem, htop⟩ := halloc mem n hok hle
      have hpos := hok.1
      rw [hpage, hmem]
      unfold Flat.limit at hle
      refine ⟨by omega, fun a ha hdom => ?_, fun a => ?_, fun _ _ => rfl⟩
      · have hlo := ha.1
        have hhi := hdom.2
        omega
      · show (4096 ≤ a.toNat ∧ a.toNat < mem.top + 4096 * n.toNat) ↔
          (4096 ≤ a.toNat ∧ a.toNat < mem.top) ∨ InPages (BitVec.ofNat 64 mem.top) n a
        unfold InPages
        omega
    · rw [hrefuse mem n hle] at hne
      exact absurd rfl hne

/-- The variables of liballoc beside something else in the place of memory. -/
def Heap.map {ν : Type} (f : μ → ν) (h : Heap μ) : Heap ν where
  mem := f h.mem
  lMemRoot := h.lMemRoot
  lBestBet := h.lBestBet
  lAllocated := h.lAllocated
  lInuse := h.lInuse
  lWarningCount := h.lWarningCount
  lErrorCount := h.lErrorCount
  lPossibleOverruns := h.lPossibleOverruns

/-- The heap as the code sees it. -/
abbrev View := Heap Image

variable {m : Platform μ} {Ok : μ → Prop} {image : μ → Image}

/-- Seen as `v` before, `x` returns, and `Q` holds of its result and of what is seen then. -/
abbrev Ends (Ok : μ → Prop) (image : μ → Image) (x : Program (Heap μ) α) (v : View)
    (Q : α → View → Prop) : Prop :=
  Yields (fun h => Ok h.mem) (Heap.map image) x v Q

variable {v : View} {Q : α → View → Prop} {p q x y : U64} {n : ℕ}

/-! ## Stretches of bytes -/

/-- The `n` bytes from `p` on are bytes of the heap. -/
def Image.Mapped (i : Image) (p : U64) (n : ℕ) : Prop := ∀ j < n, i.dom (p + BitVec.ofNat 64 j)

theorem Image.Mapped.first {i : Image} (h : i.Mapped p (n + 1)) : i.dom p := by
  have hfirst := h 0 (Nat.succ_pos n)
  rwa [BitVec.add_zero] at hfirst

theorem Image.Mapped.rest {i : Image} (h : i.Mapped p (n + 1)) : i.Mapped (p + 1) n := by
  intro j hj
  have hnext : p + 1 + BitVec.ofNat 64 j = p + BitVec.ofNat 64 (j + 1) := by bv_omega
  rw [hnext]
  exact h (j + 1) (Nat.succ_lt_succ hj)

/-- The `n` low bytes of a number, put into an image. -/
def Image.put (i : Image) (p : U64) (n k : ℕ) : Image :=
  { i with bytes := ByteFields.put i.bytes p n k }

/-! ## Fields -/

/-- The bytes of a header, of a major block or of a minor one. -/
def headerSize : ℕ := 40

deriving instance DecidableEq for Field

/-- A field that lies in a header and fits a word. -/
def Field.Fits (f : Field) : Prop :=
  0 < f.size ∧ f.size ≤ 8 ∧ f.offset.toNat + f.size ≤ headerSize

/-- Two fields of one header that do not meet. -/
def Field.Clear (f g : Field) : Prop :=
  f.offset.toNat + f.size ≤ g.offset.toNat ∨ g.offset.toNat + g.size ≤ f.offset.toNat

instance (f : Field) : Decidable f.Fits := inferInstanceAs (Decidable (_ ∧ _ ∧ _))

instance (f g : Field) : Decidable (f.Clear g) := inferInstanceAs (Decidable (_ ∨ _))

/-- Two headers that do not meet. -/
abbrev Apart (p q : U64) : Prop := ByteFields.Clear p headerSize q headerSize

/-- Address `a` lies in the header at `p`. -/
def InHeader (p a : U64) : Prop := (a - p).toNat < headerSize

theorem not_inHeader_of_apart {a : U64} (h : Apart p q) (ha : InHeader q a) :
    ¬ InHeader p a := by
  obtain ⟨hpq, hqp⟩ := h
  unfold InHeader headerSize at *
  bv_omega

/-- What a field of the header at `p` holds. -/
def Image.field (i : Image) (p : U64) (f : Field) : U64 :=
  BitVec.ofNat 64 (leNat i.bytes f.size (p + f.offset))

/-- A field of the header at `p` is set. -/
def Image.setField (i : Image) (p : U64) (f : Field) (x : U64) : Image :=
  i.put (p + f.offset) f.size x.toNat

variable {i : Image} {f g : Field}

@[simp] theorem dom_setField : (i.setField p f x).dom = i.dom := rfl

theorem field_setField (hf : f.Fits) (hx : x.toNat < 256 ^ f.size) :
    (i.setField p f x).field p f = x := by
  obtain ⟨-, hsize, -⟩ := hf
  rw [Image.field, Image.setField, Image.put, leNat_put (by omega), Nat.mod_eq_of_lt hx,
    BitVec.ofNat_toNat, BitVec.setWidth_eq]

/-- Set to what it holds. -/
theorem setField_self (hf : f.Fits) (h : i.field p f = x) : i.setField p f x = i := by
  obtain ⟨-, hsize, -⟩ := hf
  have hsize' : (256 : ℕ) ^ f.size ≤ 256 ^ 8 := Nat.pow_le_pow_right (by omega) hsize
  have hlt := leNat_lt i.bytes f.size (p + f.offset)
  have hx : x.toNat = leNat i.bytes f.size (p + f.offset) := by
    rw [← h, Image.field, BitVec.toNat_ofNat, Nat.mod_eq_of_lt (by omega)]
  rw [Image.setField, Image.put, hx, put_leNat, copy_self]

/-- A field of eight bytes takes any value. -/
@[simp] theorem field_setField_eight (hf : f.Fits) (h : f.size = 8) :
    (i.setField p f x).field p f = x :=
  field_setField hf (h ▸ x.isLt)

/-- A field of four bytes. -/
@[simp] theorem field_setField_four (hf : f.Fits) (h : f.size = 4) (hx : x.toNat < 2 ^ 32) :
    (i.setField p f x).field p f = x :=
  field_setField hf (h ▸ hx)

/-- Another field of the header. -/
@[simp] theorem field_setField_of_clear (h : f.Clear g) (hf : f.Fits) (hg : g.Fits) :
    (i.setField p f x).field p g = i.field p g := by
  obtain ⟨hf₀, -, hf⟩ := hf
  obtain ⟨hg₀, -, hg⟩ := hg
  unfold Field.Clear headerSize at *
  rw [Image.field, Image.setField, Image.put, leNat_put_of_clear, Image.field]
  constructor
  · bv_omega
  · bv_omega

/-- A field of another header. -/
@[simp] theorem field_setField_of_apart (h : Apart p q) (hf : f.Fits) (hg : g.Fits) :
    (i.setField p f x).field q g = i.field q g := by
  rw [Image.field, Image.setField, Image.put, leNat_put_of_clear, Image.field]
  exact (h.part hf.2.2 hg.2.2 hf.1 hg.1).symm

/-- A byte outside of the header. -/
@[simp] theorem bytes_setField {a : U64} (h : ¬ InHeader p a) (hf : f.Fits) :
    (i.setField p f x).bytes a = i.bytes a := by
  obtain ⟨-, -, hf⟩ := hf
  unfold InHeader headerSize at h
  unfold headerSize at hf
  refine put_of_ge ?_
  bv_omega

/-- A field reads the same where its header does. -/
theorem field_congr {i' : Image} (hf : f.Fits) (h : ∀ a, InHeader p a → i'.bytes a = i.bytes a) :
    i'.field p f = i.field p f := by
  obtain ⟨-, -, hf⟩ := hf
  rw [Image.field, Image.field, leNat_congr fun j hj => h _ ?_]
  unfold InHeader headerSize at *
  bv_omega

@[simp] theorem bytes_setByte {a : U64} {c : U8} (h : a ≠ p) :
    (i.setByte p c).bytes a = i.bytes a :=
  Function.update_of_ne h _ _

@[simp] theorem bytes_setByte_self {c : U8} : (i.setByte p c).bytes p = c :=
  Function.update_self _ _ _

/-- A field of a header without the byte. -/
@[simp] theorem field_setByte {a : U64} {c : U8} (h : ¬ InHeader p a) (hf : f.Fits) :
    (i.setByte a c).field p f = i.field p f := by
  refine field_congr hf fun b hb => bytes_setByte ?_
  rintro rfl
  exact h hb

theorem Image.Mapped.field (h : i.Mapped p headerSize) (hf : f.Fits) :
    i.Mapped (p + f.offset) f.size := by
  intro j hj
  obtain ⟨-, -, hf⟩ := hf
  have hplace : p + f.offset + BitVec.ofNat 64 j = p + BitVec.ofNat 64 (f.offset.toNat + j) := by
    bv_omega
  rw [hplace]
  exact h _ (by omega)

@[simp] theorem dom_setByte {c : U8} : (i.setByte p c).dom = i.dom := rfl

@[simp] theorem mapped_setField : (i.setField p f x).Mapped q n ↔ i.Mapped q n := Iff.rfl

@[simp] theorem mapped_setByte {c : U8} : (i.setByte p c).Mapped q n ↔ i.Mapped q n := Iff.rfl

/-! ## What the steps do to a view -/

/-- `p->field = x`. -/
def Heap.setField (v : View) (p : U64) (f : Field) (x : U64) : View :=
  { v with mem := v.mem.setField p f x }

/-- A byte is written. -/
def Heap.setByte (v : View) (p : U64) (c : U8) : View := { v with mem := v.mem.setByte p c }

/-- `l_inuse += size`. -/
def Heap.useMore (v : View) (size : U64) : View := { v with lInuse := v.lInuse + size }

/-- `l_warningCount += 1`. -/
def Heap.warn (v : View) : View := { v with lWarningCount := v.lWarningCount + 1 }

section

variable (v : View) (p x : U64) (f : Field) (c : U8)

@[simp] theorem mem_setField : (v.setField p f x).mem = v.mem.setField p f x := rfl
@[simp] theorem lMemRoot_setField : (v.setField p f x).lMemRoot = v.lMemRoot := rfl
@[simp] theorem lBestBet_setField : (v.setField p f x).lBestBet = v.lBestBet := rfl
@[simp] theorem lAllocated_setField : (v.setField p f x).lAllocated = v.lAllocated := rfl
@[simp] theorem lInuse_setField : (v.setField p f x).lInuse = v.lInuse := rfl
@[simp] theorem mem_setByte : (v.setByte p c).mem = v.mem.setByte p c := rfl
@[simp] theorem lMemRoot_setByte : (v.setByte p c).lMemRoot = v.lMemRoot := rfl
@[simp] theorem lBestBet_setByte : (v.setByte p c).lBestBet = v.lBestBet := rfl
@[simp] theorem lAllocated_setByte : (v.setByte p c).lAllocated = v.lAllocated := rfl
@[simp] theorem lInuse_setByte : (v.setByte p c).lInuse = v.lInuse := rfl
@[simp] theorem mem_useMore : (v.useMore x).mem = v.mem := rfl
@[simp] theorem lMemRoot_useMore : (v.useMore x).lMemRoot = v.lMemRoot := rfl
@[simp] theorem lBestBet_useMore : (v.useMore x).lBestBet = v.lBestBet := rfl
@[simp] theorem lAllocated_useMore : (v.useMore x).lAllocated = v.lAllocated := rfl
@[simp] theorem lInuse_useMore : (v.useMore x).lInuse = v.lInuse + x := rfl
@[simp] theorem mem_warn : v.warn.mem = v.mem := rfl
@[simp] theorem lMemRoot_warn : v.warn.lMemRoot = v.lMemRoot := rfl
@[simp] theorem lBestBet_warn : v.warn.lBestBet = v.lBestBet := rfl
@[simp] theorem lAllocated_warn : v.warn.lAllocated = v.lAllocated := rfl
@[simp] theorem lInuse_warn : v.warn.lInuse = v.lInuse := rfl

end

/-! ## Bytes and words -/

theorem ends_loadByte (hm : Lawful m Ok image) {Q : U8 → View → Prop} (hp : v.mem.dom p)
    (h : Q (v.mem.bytes p) v) : Ends Ok image (loadByte m p) v Q := by
  rintro s hok rfl
  exact ⟨_, s, by rw [loadByte, hm.load _ _ hok hp]; rfl, hok, h⟩

theorem ends_storeByte (hm : Lawful m Ok image) {Q : Unit → View → Prop} {c : U8}
    (hp : v.mem.dom p) (h : Q () (v.setByte p c)) : Ends Ok image (storeByte m p c) v Q := by
  rintro s hok rfl
  obtain ⟨mem', hstore, hok', himage⟩ := hm.store _ _ c hok hp
  refine ⟨(), { s with mem := mem' }, by rw [storeByte, hstore]; rfl, hok', ?_⟩
  rw [Heap.map, himage]
  exact h

/-- A byte in front of a word. -/
theorem shiftLeft_or_setWidth (k : ℕ) (b : U8) :
    BitVec.ofNat 64 k <<< 8 ||| b.setWidth 64 = BitVec.ofNat 64 (b.toNat + 256 * k) := by
  apply BitVec.eq_of_toNat_eq
  have hb := b.isLt
  have hhigh : (BitVec.ofNat 64 k <<< 8).toNat = 2 ^ 8 * (k % 2 ^ 56) := by
    rw [BitVec.toNat_shiftLeft, BitVec.toNat_ofNat, Nat.shiftLeft_eq]
    omega
  have hlow : (b.setWidth 64).toNat = b.toNat := by
    rw [BitVec.toNat_setWidth, Nat.mod_eq_of_lt (by omega)]
  rw [BitVec.toNat_or, hhigh, hlow, ← Nat.two_pow_add_eq_or_of_lt hb, BitVec.toNat_ofNat]
  omega

theorem ends_loadWord (hm : Lawful m Ok image) {Q : U64 → View → Prop} (hp : v.mem.Mapped p n)
    (h : Q (BitVec.ofNat 64 (leNat v.mem.bytes n p)) v) :
    Ends Ok image (loadWord m n p) v Q := by
  induction n generalizing p Q with
  | zero => exact .pure h
  | succ n ih =>
    refine .bind (ends_loadByte hm hp.first (.bind (ih hp.rest (.pure ?_))))
    rwa [shiftLeft_or_setWidth]

theorem ends_storeWord (hm : Lawful m Ok image) {Q : Unit → View → Prop} (hn : n ≤ 8)
    (hp : v.mem.Mapped p n) (h : Q () { v with mem := v.mem.put p n x.toNat }) :
    Ends Ok image (storeWord m n p x) v Q := by
  induction n generalizing p x v with
  | zero => exact .pure h
  | succ n ih =>
    refine .bind (ends_storeByte hm hp.first (ih (by omega) hp.rest ?_))
    rw [Image.put, put_succ (by omega)] at h
    have hbyte : x.setWidth 8 = BitVec.ofNat 8 x.toNat := rfl
    have hshift : (x >>> 8).toNat = x.toNat / 256 := by
      rw [BitVec.toNat_ushiftRight, Nat.shiftRight_eq_div_pow]
    rw [hbyte, hshift]
    exact h

/-- `p->field`. -/
theorem ends_get (hm : Lawful m Ok image) {Q : U64 → View → Prop} (h : Q (v.mem.field p f) v)
    (hp : v.mem.Mapped p headerSize := by first | assumption | simpa)
    (hf : f.Fits := by decide) : Ends Ok image (get m p f) v Q :=
  ends_loadWord hm (hp.field hf) h

/-- `p->field = x`. -/
theorem ends_set (hm : Lawful m Ok image) {Q : Unit → View → Prop} (h : Q () (v.setField p f x))
    (hp : v.mem.Mapped p headerSize := by first | assumption | simpa)
    (hf : f.Fits := by decide) : Ends Ok image (set m p f x) v Q :=
  ends_storeWord hm hf.2.1 (hp.field hf) h

/-! ## The lock -/

/-- The same for a program that has the interrupt-enable flag beside the heap. -/
abbrev Calls (Ok : μ → Prop) (image : μ → Image) (x : Program (Interruptible μ) α)
    (s : Bool × View) (Q : α → Bool × View → Prop) : Prop :=
  Yields (fun s => Ok s.2.mem) (Prod.map id (Heap.map image)) x s Q

theorem calls_lock {flag : Bool} {Q : Unit → Bool × View → Prop} (h : Q () (false, v)) :
    Calls Ok image liballocLock (flag, v) Q := by
  rintro ⟨i, s⟩ hok hs
  obtain ⟨-, rfl⟩ := Prod.mk.inj hs
  exact ⟨(), (false, s), rfl, hok, h⟩

theorem calls_unlock {flag : Bool} {Q : Unit → Bool × View → Prop} (h : Q () (true, v)) :
    Calls Ok image liballocUnlock (flag, v) Q := by
  rintro ⟨i, s⟩ hok hs
  obtain ⟨-, rfl⟩ := Prod.mk.inj hs
  exact ⟨(), (true, s), rfl, hok, h⟩

theorem calls_inner {flag : Bool} {z : Program (Heap μ) α} {Q : α → Bool × View → Prop}
    (h : Ends Ok image z v fun a w => Q a (flag, w)) : Calls Ok image (inner z) (flag, v) Q :=
  .inner h

/-! ## The other steps -/

theorem ends_warn {Q : Unit → View → Prop} (h : Q () v.warn) : Ends Ok image warn v Q :=
  .modify (g := Heap.warn) (fun _ => id) (fun _ => rfl) h

theorem ends_useMore {Q : Unit → View → Prop} (h : Q () (v.useMore x)) :
    Ends Ok image (useMore x) v Q :=
  .modify (g := fun v : View => v.useMore x) (fun _ => id) (fun _ => rfl) h

/-- What is between a pointer and the next one that is aligned. -/
def slack (p : U64) : U64 := -p &&& 15

theorem slack_lt (p : U64) : (slack p).toNat < 16 := by
  rw [slack, BitVec.toNat_and]
  exact Nat.lt_succ_of_le Nat.and_le_right

theorem toNat_slack (p : U64) : (p.toNat + (slack p).toNat) % 16 = 0 ∧ (slack p).toNat < 16 := by
  refine ⟨?_, slack_lt p⟩
  have hmask : (slack p).toNat = (-p).toNat % 16 := by
    rw [slack, BitVec.toNat_and]
    exact Nat.and_two_pow_sub_one_eq_mod _ 4
  rw [hmask]
  bv_omega

/-- `ALIGN` leaves a pointer at a multiple of 16, and behind it the distance it came. -/
theorem ends_align (hm : Lawful m Ok image) {Q : U64 → View → Prop} (hp : v.mem.dom (p + slack p))
    (h : Q (p + 16 + slack p) (v.setByte (p + slack p) ((slack p + 16).setWidth 8))) :
    Ends Ok image (align m p) v Q := by
  obtain ⟨hmod, hlt⟩ := toNat_slack p
  have hdiff : ((p + alignInfo) &&& (alignment - 1)).toNat = (p.toNat + 16) % 16 := by
    rw [BitVec.toNat_and, show (alignment - 1).toNat = 2 ^ 4 - 1 from rfl,
      Nat.and_two_pow_sub_one_eq_mod]
    unfold alignInfo
    bv_omega
  have hslack : (if (p + alignInfo) &&& (alignment - 1) = 0 then
      (p + alignInfo) &&& (alignment - 1) else
      alignment - ((p + alignInfo) &&& (alignment - 1))) = slack p := by
    apply BitVec.eq_of_toNat_eq
    unfold alignment at *
    split_ifs with hz
    · rw [hz] at hdiff ⊢
      bv_omega
    · bv_omega
  have hptr : (if (p + alignInfo) &&& (alignment - 1) = 0 then p + alignInfo
      else p + alignInfo + slack p) = p + 16 + slack p := by
    split_ifs with hz
    · rw [if_pos hz] at hslack
      rw [← hslack, hz]
      exact (BitVec.add_zero _).symm
    · rfl
  have hback : p + 16 + slack p - alignInfo = p + slack p := by
    unfold alignInfo
    bv_omega
  unfold align
  simp only [hslack, hptr, hback]
  exact .bind (ends_storeByte hm hp (.pure h))

/-- `UNALIGN` takes it back. -/
theorem ends_unalign (hm : Lawful m Ok image) {Q : U64 → View → Prop} (hp : v.mem.dom (p + slack p))
    (hinfo : v.mem.bytes (p + slack p) = (slack p + 16).setWidth 8) (h : Q p v) :
    Ends Ok image (unalign m (p + 16 + slack p)) v Q := by
  have hlt := slack_lt p
  have hback : p + 16 + slack p - alignInfo = p + slack p := by
    unfold alignInfo
    bv_omega
  have hbyte : ((slack p + 16).setWidth 8 : U8).toNat = (slack p).toNat + 16 := by
    rw [BitVec.toNat_setWidth]
    bv_omega
  have hsign : ((slack p + 16).setWidth 8 : U8).signExtend 64 = slack p + 16 := by
    have hmsb : ((slack p + 16).setWidth 8 : U8).msb = false :=
      BitVec.msb_eq_false_iff_two_mul_lt.mpr (by omega)
    rw [BitVec.signExtend_eq_setWidth_of_msb_false hmsb]
    apply BitVec.eq_of_toNat_eq
    rw [BitVec.toNat_setWidth, hbyte]
    bv_omega
  have hsmall : slack p + 16 < alignment + alignInfo := by
    unfold alignment alignInfo
    bv_omega
  have hptr : p + 16 + slack p - (slack p + 16) = p := by bv_omega
  rw [unalign, hback]
  refine .bind (ends_loadByte hm hp (.pure ?_))
  rw [hinfo, hsign, if_pos hsmall, hptr]
  exact h

-- from here on a view is known by what its parts read
attribute [irreducible] Image.setByte Image.setField Heap.setField Heap.setByte Heap.useMore
  Heap.warn

end Liballoc
