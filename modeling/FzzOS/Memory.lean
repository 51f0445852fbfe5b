/-
# Physical memory

Physical memory is a family of frames of 512 64-bit words, the format the page tables
need.  The same memory is read byte by byte where the frame bitmap lies: byte `a % 8` of
the word at address `a`.  A `Window` is the byte store that starts at a given physical
address.
-/
import FzzOS.Words
import FzzOS.ByteStore

/-- Frames of 512 words. -/
abbrev Mem := ℕ → Fin 512 → U64

/-- The slot of its frame an address lies in. -/
def slotOf (a : ℕ) : Fin 512 := ⟨a % 4096 / 8, by omega⟩

/-- A table index as the code computes it. -/
def ofIndex (i : Fin 512) : U64 := BitVec.ofNat 64 i

/-- The address of slot `i` of frame `f`. -/
def slotAddr (f : ℕ) (i : Fin 512) : U64 := frameAddr f + 8 * ofIndex i

theorem toNat_slotAddr {f : ℕ} (hf : f < 2 ^ 52) (i : Fin 512) :
    (slotAddr f i).toNat = 4096 * f + 8 * i := by
  have hi := i.isLt
  rw [slotAddr, ofIndex, BitVec.toNat_add, BitVec.toNat_mul, toNat_frameAddr hf,
    BitVec.toNat_ofNat]
  simp only [BitVec.reduceToNat, BitVec.ofNat_eq_ofNat]
  omega

@[simp] theorem frameOf_slotAddr {f : ℕ} (hf : f < 2 ^ 52) (i : Fin 512) :
    frameOf (slotAddr f i) = f := by
  have hi := i.isLt
  rw [frameOf, toNat_slotAddr hf]
  omega

@[simp] theorem slotOf_slotAddr {f : ℕ} (hf : f < 2 ^ 52) (i : Fin 512) :
    slotOf (slotAddr f i).toNat = i := by
  have hi := i.isLt
  rw [toNat_slotAddr hf, slotOf]
  apply Fin.ext
  show (4096 * f + 8 * (i : ℕ)) % 4096 / 8 = i
  omega

theorem slotAddr_inj {f g : ℕ} (hf : f < 2 ^ 52) (hg : g < 2 ^ 52) {i j : Fin 512}
    (h : slotAddr f i = slotAddr g j) : f = g ∧ i = j := by
  constructor
  · rw [← frameOf_slotAddr hf i, h, frameOf_slotAddr hg]
  · rw [← slotOf_slotAddr hf i, h, slotOf_slotAddr hg]

/-- The nine bits `(v >> k) & 0x1ff` as a word. -/
theorem shiftRight_and_1ff (v : U64) (k : ℕ) : v >>> k &&& 0x1ff = ofIndex (indexAt k v) := by
  have hi := (indexAt k v).isLt
  apply BitVec.eq_of_toNat_eq
  rw [ofIndex, BitVec.toNat_ofNat, Nat.mod_eq_of_lt (by omega)]
  exact toNat_shiftRight_and_1ff v k

namespace Mem

/-! ## Words -/

/-- The 64-bit word at a physical address. -/
def word (m : Mem) (a : U64) : U64 := m (frameOf a) (slotOf a.toNat)

/-- A 64-bit store. -/
def setWord (m : Mem) (a x : U64) : Mem := fun f i =>
  if f = frameOf a ∧ i = slotOf a.toNat then x else m f i

theorem word_slotAddr {m : Mem} {f : ℕ} (hf : f < 2 ^ 52) (i : Fin 512) :
    m.word (slotAddr f i) = m f i := by
  rw [word, frameOf_slotAddr hf, slotOf_slotAddr hf]

theorem setWord_slotAddr {m : Mem} {f : ℕ} (hf : f < 2 ^ 52) (i : Fin 512) (x : U64) (g : ℕ)
    (j : Fin 512) :
    m.setWord (slotAddr f i) x g j = if g = f ∧ j = i then x else m g j := by
  rw [setWord, frameOf_slotAddr hf, slotOf_slotAddr hf]

/-- A word is read back as stored. -/
theorem word_setWord_self (m : Mem) (a x : U64) : (m.setWord a x).word a = x :=
  if_pos ⟨rfl, rfl⟩

/-- `memset(page, 0, 4096)`. -/
def zeroPage (m : Mem) (page : U64) : Mem := fun f i =>
  if page.toNat ≤ 4096 * f + 8 * i ∧ 4096 * f + 8 * i < page.toNat + 4096 then 0 else m f i

/-- Clearing a whole frame. -/
theorem zeroPage_apply {m : Mem} {page : U64} (h : Aligned page) (f : ℕ) (i : Fin 512) :
    m.zeroPage page f i = if f = frameOf page then 0 else m f i := by
  have hi := i.isLt
  unfold Aligned at h
  unfold zeroPage frameOf
  by_cases hf : f = page.toNat / 4096
  · rw [if_pos hf, if_pos (by omega)]
  · rw [if_neg hf, if_neg (by omega)]

/-! ## Bytes -/

/-- Byte `j` of a word replaced. -/
def setByteOfWord (w : U64) (j : ℕ) (x : U8) : U64 :=
  (w &&& ~~~(0xff#64 <<< (8 * j))) ||| (x.setWidth 64 <<< (8 * j))

/-- The byte at a physical address. -/
def byte (m : Mem) (a : ℕ) : U8 := (m (a / 4096) (slotOf a)).extractLsb' (8 * (a % 8)) 8

/-- A byte store. -/
def setByte (m : Mem) (a : ℕ) (x : U8) : Mem := fun f i =>
  if f = a / 4096 ∧ i = slotOf a then setByteOfWord (m f i) (a % 8) x else m f i

theorem extractLsb'_setByteOfWord (w : U64) {j k : ℕ} (hk : k < 8) (x : U8) :
    (setByteOfWord w j x).extractLsb' (8 * k) 8
      = if k = j then x else w.extractLsb' (8 * k) 8 := by
  have hmask : ∀ i, (0xff#64).getLsbD i = decide (i < 8) := by
    intro i
    rw [BitVec.getLsbD_ofNat, show (0xff : ℕ) = 2 ^ 8 - 1 from rfl, Nat.testBit_two_pow_sub_one]
    by_cases hi : i < 8
    · simp [hi, show i < 64 by omega]
    · simp [hi]
  refine BitVec.eq_of_getLsbD_eq fun i hi => ?_
  rw [BitVec.getLsbD_extractLsb', setByteOfWord, BitVec.getLsbD_or, BitVec.getLsbD_and,
    BitVec.getLsbD_not, BitVec.getLsbD_shiftLeft, BitVec.getLsbD_shiftLeft, hmask,
    BitVec.getLsbD_setWidth]
  have h64 : 8 * k + i < 64 := by omega
  rcases lt_trichotomy k j with h | rfl | h
  · have hlt : 8 * k + i < 8 * j := by omega
    simp [hi, h64, hlt, h.ne]
  · have hge : ¬ 8 * k + i < 8 * k := by omega
    have hi64 : i < 64 := by omega
    simp [hi, h64, hge, hi64]
  · have hge : ¬ 8 * k + i < 8 * j := by omega
    have hfar : ¬ 8 * k + i - 8 * j < 8 := by omega
    have hx : x.getLsbD (8 * k + i - 8 * j) = false := BitVec.getLsbD_of_ge _ _ (by omega)
    simp [hi, h64, hge, hfar, h.ne', hx]

/-- Bytes are read back as written, and the others stay. -/
theorem byte_setByte (m : Mem) (a b : ℕ) (x : U8) :
    (m.setByte a x).byte b = if b = a then x else m.byte b := by
  unfold byte setByte
  by_cases hslot : b / 4096 = a / 4096 ∧ slotOf b = slotOf a
  · rw [if_pos hslot, extractLsb'_setByteOfWord _ (Nat.mod_lt b (by decide))]
    have hword : b % 4096 / 8 = a % 4096 / 8 := congrArg Fin.val hslot.2
    have hiff : b % 8 = a % 8 ↔ b = a := by
      constructor
      · intro h
        have := hslot.1
        omega
      · exact fun h => h ▸ rfl
    simp only [hiff]
  · rw [if_neg hslot, if_neg]
    rintro rfl
    exact hslot ⟨rfl, rfl⟩

/-- A byte store stays within its frame. -/
theorem setByte_of_ne {m : Mem} {a f : ℕ} (h : f ≠ a / 4096) (x : U8) (i : Fin 512) :
    m.setByte a x f i = m f i := by
  rw [setByte, if_neg fun hc => h hc.1]

end Mem

/-! ## Windows -/

/-- The bytes of a memory from a physical address on. -/
structure Window where
  mem : Mem
  base : ℕ

instance : ByteStore Window where
  load w i := w.mem.byte (w.base + i)
  store w i x := { w with mem := w.mem.setByte (w.base + i) x }

instance : LawfulByteStore Window where
  load_store w i j x := by
    have h : w.base + j = w.base + i ↔ j = i := by omega
    simp only [ByteStore.load, ByteStore.store, Mem.byte_setByte, h]
