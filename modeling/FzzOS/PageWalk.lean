/-
# The x86-64 page walk

The format of a page-table entry (`vmm.h`), how the kernel reads a pointer out of one,
and how the processor does.  Both readings are instances of the radix tree library:

* `swChild` : the kernel's reading, by the present bit and the page-size bit;
* `hwChild`, `leafAt` : the processor's, with the reserved bits of large pages;
* `pageWalk`, `mapped`, `translate` : the 4-level walk of a virtual address, the leaf
  entry it ends in, and the physical address.
-/
import FzzOS.RadixTree
import FzzOS.Memory

namespace Vmm

/-! ## Entries -/

/-- `PTE_PRESENT`. -/
def ptePresent : U64 := 1

/-- `PTE_READWRITE`. -/
def pteReadwrite : U64 := 2

/-- `PTE_PAGESIZE`. -/
def ptePagesize : U64 := 128

/-- `PTE_EXECUTE_DISABLE`. -/
def pteExecuteDisable : U64 := 0x8000000000000000

/-- The entry is in use. -/
def present (e : U64) : Bool := e.getLsbD 0

/-- The entry maps a page itself, and not a table. -/
def large (e : U64) : Bool := e.getLsbD 7

/-- The entry lets writes through. -/
def writable (e : U64) : Bool := e.getLsbD 1

/-- The entry lets user code through. -/
def userAccessible (e : U64) : Bool := e.getLsbD 2

@[simp] theorem present_zero : present 0 = false := rfl

/-- The test `entry & 1`. -/
theorem and_one_ne_zero_iff (e : U64) : e &&& 1 ≠ 0 ↔ present e = true := by
  unfold present
  constructor
  · intro h
    by_contra hcon
    refine h (BitVec.eq_of_getLsbD_eq fun i _ => ?_)
    rw [BitVec.getLsbD_and, BitVec.ofNat_eq_ofNat, BitVec.getLsbD_one]
    by_cases hi : i = 0
    · subst hi
      simpa using hcon
    · simp [hi]
  · intro h hcon
    have hbit := congrArg (fun x => x.getLsbD 0) hcon
    rw [BitVec.getLsbD_and, h] at hbit
    simp at hbit

/-- A clear bit of a word, as arithmetic. -/
theorem div_mod_two_of_getLsbD {w i : ℕ} {x : BitVec w} (h : x.getLsbD i = false) :
    x.toNat / 2 ^ i % 2 = 0 := by
  rw [BitVec.getLsbD, Nat.testBit_eq_decide_div_mod_eq] at h
  have := of_decide_eq_false h
  omega

/-! ## Reading a pointer -/

/-- The bits that neither `& ~0x1ff` nor the page-size test takes away: 7 and 9 to 11. -/
def tableMask : U64 := 0xE80

/-- `tableMask` and the bits above a 52-bit physical address. -/
def physMask : U64 := 0xFFF0000000000E80

/-- `entry & ~0x1ff` is the address of the entry's frame if bits 9 to 11 are clear. -/
theorem and_not_1ff_eq {e : U64} (h : e &&& tableMask = 0) :
    e &&& ~~~0x1ff#64 = frameAddr (frameOf e) := by
  have h9 := div_mod_two_of_getLsbD
    (getLsbD_of_and_eq_zero (i := 9) h (by decide : tableMask.getLsbD 9 = true))
  have h10 := div_mod_two_of_getLsbD
    (getLsbD_of_and_eq_zero (i := 10) h (by decide : tableMask.getLsbD 10 = true))
  have h11 := div_mod_two_of_getLsbD
    (getLsbD_of_and_eq_zero (i := 11) h (by decide : tableMask.getLsbD 11 = true))
  apply BitVec.eq_of_toNat_eq
  rw [toNat_and_not_1ff, toNat_frameAddr (frameOf_lt e), frameOf]
  omega

/-- `(entry >> 12) * 4096` is the address of the entry's frame. -/
theorem shiftRight_mul_eq (e : U64) : (e >>> 12) * 4096 = frameAddr (frameOf e) := by
  apply BitVec.eq_of_toNat_eq
  rw [toNat_frameAddr (frameOf_lt e), BitVec.toNat_mul, BitVec.toNat_ushiftRight,
    Nat.shiftRight_eq_div_pow, frameOf]
  have := e.isLt
  simp only [BitVec.reduceToNat, BitVec.ofNat_eq_ofNat]
  omega

/-- The kernel descends into present entries that are no large page. -/
def swChild (e : U64) : Option ℕ := if present e && !large e then some (frameOf e) else none

/-- The processor reads bits 12 to 51. -/
def hwChild (e : U64) : Option ℕ :=
  if present e && !large e then some (e.toNat / 2 ^ 12 % 2 ^ 40) else none

/-- The entries that end a walk with `k` indices left: at the last level every present
one, above it the large pages whose reserved address bits are clear. -/
def leafAt (k : ℕ) (e : U64) : Bool :=
  match k with
  | 0 => present e
  | 1 => present e && large e && e &&& 0x1FE000 == 0
  | 2 => present e && large e && e &&& 0x3FFFE000 == 0
  | _ => false

@[simp] theorem swChild_zero : swChild 0 = none := rfl
@[simp] theorem hwChild_zero : hwChild 0 = none := rfl

theorem swChild_of_absent {e : U64} (h : present e = false) : swChild e = none := by
  simp [swChild, h]

theorem swChild_of_large {e : U64} (h : large e = true) : swChild e = none := by
  simp [swChild, h]

theorem swChild_eq_some {e : U64} (h : present e = true) (hl : large e = false) :
    swChild e = some (frameOf e) := by
  simp [swChild, h, hl]

theorem of_swChild_eq_some {e : U64} {g : ℕ} (h : swChild e = some g) :
    present e = true ∧ large e = false ∧ g = frameOf e := by
  unfold swChild at h
  split_ifs at h with hc
  · rw [Bool.and_eq_true, Bool.not_eq_true'] at hc
    exact ⟨hc.1, hc.2, (Option.some.inj h).symm⟩

theorem leafAt_of_absent {e : U64} (h : present e = false) (k : ℕ) : leafAt k e = false := by
  match k with
  | 0 | 1 | 2 | _ + 3 => simp [leafAt, h]

theorem leafAt_succ_of_not_large {e : U64} (h : large e = false) (k : ℕ) :
    leafAt (k + 1) e = false := by
  match k with
  | 0 | 1 | _ + 2 => simp [leafAt, h]

theorem large_of_leafAt (k : ℕ) (e : U64) (h : leafAt (k + 1) e = true) : large e = true := by
  by_contra hcon
  rw [leafAt_succ_of_not_large (by simpa using hcon)] at h
  exact Bool.false_ne_true h

/-- An address aligned to the page size, with flags and the page-size bit, is a large page. -/
theorem large_page {p flags : U64} {k : ℕ} (hk : k = 1 ∨ k = 2)
    (hp : p.toNat % 2 ^ (12 + 9 * k) = 0) (hpres : present flags = true)
    (hsmall : flags.toNat < 4096) :
    leafAt k (p ||| flags ||| ptePagesize) = true ∧
      large (p ||| flags ||| ptePagesize) = true := by
  have hlarge : large (p ||| flags ||| ptePagesize) = true := by
    rw [large, BitVec.getLsbD_or, show ptePagesize.getLsbD 7 = true from rfl, Bool.or_true]
  have hpres' : present (p ||| flags ||| ptePagesize) = true := by
    rw [present] at hpres ⊢
    rw [BitVec.getLsbD_or, BitVec.getLsbD_or, hpres, Bool.or_true, Bool.true_or]
  -- neither the address nor the flags have bits between 13 and the page size
  have hreserved : ∀ m : U64, (∀ i < 64, m.getLsbD i = true → 12 ≤ i ∧ i < 12 + 9 * k) →
      (p ||| flags ||| ptePagesize) &&& m = 0 := by
    intro m hm
    refine and_eq_zero_of_getLsbD fun i hi hbit => ?_
    obtain ⟨hlow, hhigh⟩ := hm i hi hbit
    have hfl : flags.getLsbD i = false :=
      Nat.testBit_lt_two_pow (lt_of_lt_of_le hsmall (Nat.pow_le_pow_right Nat.two_pos hlow))
    have hps : ptePagesize.getLsbD i = false :=
      Nat.testBit_lt_two_pow (lt_of_lt_of_le (by decide : ptePagesize.toNat < 2 ^ 12)
        (Nat.pow_le_pow_right Nat.two_pos hlow))
    rw [BitVec.getLsbD_or, BitVec.getLsbD_or, getLsbD_of_mod hp hhigh, hfl, hps]
    rfl
  refine ⟨?_, hlarge⟩
  rcases hk with rfl | rfl
  · have hm := hreserved 0x1FE000 (by decide)
    rw [leafAt, hpres', hlarge, hm]
    rfl
  · have hm := hreserved 0x3FFFE000 (by decide)
    rw [leafAt, hpres', hlarge, hm]
    rfl

theorem swChild_exclusive : RadixTree.Exclusive swChild leafAt := by
  intro k e h
  obtain ⟨g, hg⟩ := Option.isSome_iff_exists.mp h
  exact leafAt_succ_of_not_large (of_swChild_eq_some hg).2.1 k

theorem toNat_lt_of_physMask {e : U64} (h : e &&& physMask = 0) : e.toNat < 2 ^ 52 := by
  have hmask : ∀ i < 64, 52 ≤ i → physMask.getLsbD i = true := by decide
  refine Nat.lt_pow_two_of_testBit _ fun i hi => ?_
  by_cases h64 : i < 64
  · exact getLsbD_of_and_eq_zero h (hmask i h64 hi)
  · exact BitVec.getLsbD_of_ge e i (by omega)

/-- Kernel and processor agree on entries without bits above 52. -/
theorem hwChild_eq_swChild {e : U64} (h : e &&& physMask = 0) : hwChild e = swChild e := by
  have hlt := toNat_lt_of_physMask h
  unfold hwChild swChild frameOf
  split_ifs
  · congr 1
    omega
  · rfl

/-! ## Virtual addresses -/

/-- The indices of a virtual address, from the top table down. -/
def vpath (v : U64) : List (Fin 512) := [indexAt 39 v, indexAt 30 v, indexAt 21 v, indexAt 12 v]

/-- The indices down to the last table. -/
def tablePath (v : U64) : List (Fin 512) := [indexAt 39 v, indexAt 30 v, indexAt 21 v]

theorem vpath_eq_append (v : U64) : vpath v = tablePath v ++ [indexAt 12 v] := rfl

/-- The number of a virtual page. -/
abbrev Page := Fin (2 ^ 36)

/-- Bits 12 to 47 of a virtual address. -/
def pageOf (v : U64) : Page := ⟨v.toNat / 2 ^ 12 % 2 ^ 36, Nat.mod_lt _ (by decide)⟩

/-- The lowest address of a page. -/
def pageAddr (page : Page) : U64 := BitVec.ofNat 64 (4096 * page)

@[simp] theorem pageOf_pageAddr (page : Page) : pageOf (pageAddr page) = page := by
  have hlt := page.isLt
  have haddr : (pageAddr page).toNat = 4096 * page := by
    rw [pageAddr, BitVec.toNat_ofNat]
    omega
  apply Fin.ext
  simp only [pageOf, haddr]
  omega

/-- The addresses the processor accepts: bits 47 to 63 are equal. -/
def Canonical (v : U64) : Prop := v.toNat < 2 ^ 47 ∨ 2 ^ 64 - 2 ^ 47 ≤ v.toNat

instance (v : U64) : Decidable (Canonical v) := inferInstanceAs (Decidable (_ ∨ _))

@[simp] theorem length_vpath (v : U64) : (vpath v).length = 4 := rfl

/-- Two addresses take the same path exactly when they lie in the same page. -/
theorem vpath_eq_iff (v w : U64) : vpath v = vpath w ↔ pageOf v = pageOf w := by
  simp only [vpath, List.cons.injEq, and_true, indexAt, Fin.mk.injEq, pageOf]
  omega

theorem prefix_vpath_iff (v w : U64) :
    tablePath v ++ [indexAt 12 v] <+: vpath w ↔ pageOf w = pageOf v := by
  rw [← vpath_eq_append, ← vpath_eq_iff w v]
  constructor
  · intro h
    exact (h.eq_of_length rfl).symm
  · intro h
    rw [h]

/-! ## The walk -/

/-- The entries the processor reads for a virtual address, if it finds a leaf. -/
def pageWalk (m : Mem) (root : ℕ) (v : U64) : Option (List U64) :=
  RadixTree.walk hwChild leafAt m root (vpath v)

/-- The leaf entry of a virtual address. -/
def mapped (m : Mem) (root : ℕ) (v : U64) : Option U64 :=
  (pageWalk m root v).bind List.getLast?

/-- The address bits below the page: twelve after four entries, nine more for each level
the walk ended early. -/
def pageShift (es : List U64) : ℕ := 12 + 9 * (4 - es.length)

/-- The physical address of `v` in a page given by its leaf entry. -/
def physicalIn (shift : ℕ) (e v : U64) : ℕ :=
  e.toNat % 2 ^ 52 / 2 ^ shift * 2 ^ shift + v.toNat % 2 ^ shift

/-- The translation of a virtual address. -/
def translate (m : Mem) (root : ℕ) (v : U64) : Option ℕ :=
  (pageWalk m root v).bind fun es =>
    es.getLast?.map fun e => physicalIn (pageShift es) e v

/-- Below a zero entry of the root there is nothing. -/
theorem pageWalk_of_zero {m : Mem} {root : ℕ} {v : U64} (hzero : m root (indexAt 39 v) = 0) :
    pageWalk m root v = none :=
  RadixTree.walk_absent (by rw [hzero]; exact leafAt_of_absent present_zero _)
    (by rw [hzero]; exact hwChild_zero)

theorem translate_of_zero {m : Mem} {root : ℕ} {v : U64} (hzero : m root (indexAt 39 v) = 0) :
    translate m root v = none := by
  rw [translate, pageWalk_of_zero hzero, Option.bind_none]

/-- What the processor makes of a virtual address. -/
def access (m : Mem) (root : ℕ) (v : U64) : Option ℕ :=
  if Canonical v then translate m root v else none

end Vmm
