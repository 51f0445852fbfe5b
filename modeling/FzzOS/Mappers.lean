/-
# The three map functions

`vmm_map_4Kpage`, `vmm_map_2Mpage` and `vmm_map_1Gpage` walk down to tables of different
depth and store one entry there.

* `Mapper` : one of the three, with its path, its page size and the entry it makes;
* `Mapper.call_eq` : the call is a walk and a store;
* `Mapper.exact_iff` : the entry has the flags asked for and no reserved bit exactly if no
  low bit of the address gets into it;
* `mapper_byFrame_iff` : then, and only then, the address matters by its frame alone.
-/
import FzzOS.LargePages

open RadixTree

namespace Vmm

variable {α : Type} {alloc : Allocator α} {flags v p q x : U64} {s : Machine α} {root : U64}

/-! ## The functions by their size -/

/-- The map functions. -/
inductive Mapper
  | map4K
  | map2M
  | map1G
  deriving DecidableEq

namespace Mapper

/-- The call. -/
def call (alloc : Allocator α) (pagetable virtual physical flags : U64) :
    Mapper → Machine α → Machine α
  | map4K => vmmMap4Kpage alloc pagetable virtual physical flags
  | map2M => vmmMap2Mpage alloc pagetable virtual physical flags
  | map1G => vmmMap1Gpage alloc pagetable virtual physical flags

/-- The bits of an address within a page. -/
def shift : Mapper → ℕ
  | map4K => 12
  | map2M => 21
  | map1G => 30

/-- The indices down to the table stored to. -/
def path (v : U64) : Mapper → List (Fin 512)
  | map4K => tablePath v
  | map2M => [indexAt 39 v, indexAt 30 v]
  | map1G => [indexAt 39 v]

/-- The physical address as it goes into the entry. -/
def address (p : U64) : Mapper → U64
  | map4K => p
  | map2M => p &&& ~~~0xFFF
  | map1G => p

/-- The flags as they go into the entry. -/
def leafFlags (flags : U64) : Mapper → U64
  | map4K => flags
  | map2M => flags ||| ptePagesize
  | map1G => flags ||| ptePagesize

/-- The entry stored. -/
def leafEntry (c : Mapper) (p flags : U64) : U64 := c.address p ||| c.leafFlags flags

/-- What a call leaves in the log after its stores. -/
def noted (v p : U64) : Mapper → List Event
  | map4K => [.map v p]
  | map2M => []
  | map1G => []

variable {c : Mapper}

/-- The entries above the slot stored to are the levels above the page. -/
theorem shift_eq (c : Mapper) (v : U64) : c.shift = 12 + 9 * (3 - (c.path v).length) := by
  cases c <;> rfl

theorem length_path_le (c : Mapper) (v : U64) : (c.path v).length ≤ 3 := by
  cases c <;> simp [path, tablePath]

/-- The slot stored to lies on the walk of the address. -/
theorem path_prefix (c : Mapper) (v : U64) : c.path v ++ [indexAt c.shift v] <+: vpath v := by
  cases c
  · exact List.prefix_rfl
  · exact ⟨[indexAt 12 v], rfl⟩
  · exact ⟨[indexAt 21 v, indexAt 12 v], rfl⟩

/-- **A call is a walk and a store.** -/
theorem call_eq (c : Mapper) (alloc : Allocator α) (root v p flags : U64) (s : Machine α) :
    c.call alloc root v p flags s =
      { mapAt alloc flags root (c.path v) (indexAt c.shift v) (c.leafEntry p flags) s with
        log := c.noted v p ++ (mapAt alloc flags root (c.path v) (indexAt c.shift v)
          (c.leafEntry p flags) s).log } := by
  cases c with
  | map4K => exact vmmMap4Kpage_eq alloc root v p flags s
  | map2M =>
    rw [call, vmmMap2Mpage_eq, BitVec.or_assoc]
    rfl
  | map1G =>
    rw [call, vmmMap1Gpage_eq, BitVec.or_assoc]
    rfl

/-! ## The entry -/

/-- The slot stored to, read after the call. -/
def written (c : Mapper) (alloc : Allocator α) (root v p flags : U64) (s : Machine α) : U64 :=
  (c.call alloc root v p flags s).entry (descend alloc flags root (c.path v) s).1
    (ofIndex (indexAt c.shift v))

theorem written_eq (c : Mapper) (alloc : Allocator α) (root v p flags : U64) (s : Machine α) :
    c.written alloc root v p flags s = c.leafEntry p flags := by
  rw [written, call_eq]
  exact Mem.word_setWord_self _ _ _

/-- The bits of an entry the processor takes as flags. -/
def flagMask : Mapper → U64
  | map4K => 0xFFF0000000000FFF
  | map2M => 0xFFF0000000001FFF
  | map1G => 0xFFF0000000001FFF

/-- The bits of an entry that must be zero. -/
def reservedMask : Mapper → U64
  | map4K => 0
  | map2M => 0x1FE000
  | map1G => 0x3FFFE000

/-- The bits of an address within a page. -/
def lowMask : Mapper → U64
  | map4K => 0xFFF
  | map2M => 0x1FFFFF
  | map1G => 0x3FFFFFFF

/-- An entry with exactly the flags asked for and no reserved bit. -/
structure Exact (c : Mapper) (flags e : U64) : Prop where
  flags : e &&& c.flagMask = c.leafFlags flags
  reserved : e &&& c.reservedMask = 0

/-- Of the address within the page nothing gets into the entry but bits that are flags
anyway. -/
def Rounded (c : Mapper) (flags p : U64) : Prop :=
  c.address p &&& c.lowMask &&& ~~~c.leafFlags flags = 0

instance (c : Mapper) (flags p : U64) : Decidable (c.Rounded flags p) :=
  inferInstanceAs (Decidable (_ = _))

/-! ## The bits of the entry -/

theorem getLsbD_masks (c : Mapper) : ∀ i < 64,
    c.lowMask.getLsbD i = decide (i < c.shift) ∧
    (c.flagMask.getLsbD i || c.reservedMask.getLsbD i) = decide (i < c.shift ∨ 52 ≤ i) ∧
    (i < 12 → c.flagMask.getLsbD i = true ∧ c.reservedMask.getLsbD i = false) := by
  cases c <;> decide

theorem twelve_le_shift (c : Mapper) : 12 ≤ c.shift ∧ c.shift ≤ 52 := by
  cases c <;> decide

/-- From bit 12 on no function changes the address. -/
theorem getLsbD_address (c : Mapper) (p : U64) {i : ℕ} (h12 : 12 ≤ i) (h64 : i < 64) :
    (c.address p).getLsbD i = p.getLsbD i := by
  have hmask : ∀ i < 64, 12 ≤ i → (~~~0xFFF : U64).getLsbD i = true := by decide
  cases c with
  | map4K => rfl
  | map2M => rw [address, BitVec.getLsbD_and, hmask i h64 h12, Bool.and_true]
  | map1G => rfl

theorem leafFlags_lt (c : Mapper) (hsmall : flags.toNat < 4096) :
    (c.leafFlags flags).toNat < 4096 := by
  have hor : (flags ||| ptePagesize).toNat < 4096 := by
    rw [BitVec.toNat_or]
    exact Nat.or_lt_two_pow (n := 12) hsmall (by decide)
  cases c with
  | map4K => exact hsmall
  | map2M => exact hor
  | map1G => exact hor

/-- The flags stay below bit 12. -/
theorem lt_of_leafFlags (hfl : LowFlags flags) {i : ℕ}
    (hbit : (c.leafFlags flags).getLsbD i = true) : i < 12 := by
  by_contra hge
  have hlt : (c.leafFlags flags).toNat < 2 ^ i :=
    lt_of_lt_of_le (c.leafFlags_lt (hfl.toNat_lt (by decide)))
      (Nat.pow_le_pow_right Nat.two_pos (not_lt.mp hge))
  exact Bool.false_ne_true ((Nat.testBit_lt_two_pow hlt).symm.trans hbit)

theorem rounded_iff (c : Mapper) (flags p : U64) : c.Rounded flags p ↔
    ∀ i < c.shift, (c.address p).getLsbD i = true → (c.leafFlags flags).getLsbD i = true := by
  have hshift := c.twelve_le_shift
  constructor
  · intro h i hi hbit
    by_contra hcon
    have hand : (c.address p &&& c.lowMask).getLsbD i = true := by
      rw [BitVec.getLsbD_and, hbit, (c.getLsbD_masks i (by omega)).1, decide_eq_true hi]
      rfl
    have hnot : (~~~c.leafFlags flags).getLsbD i = true := by
      rw [BitVec.getLsbD_not, decide_eq_true (show i < 64 by omega)]
      simpa using hcon
    exact Bool.false_ne_true ((getLsbD_of_and_eq_zero h hnot).symm.trans hand)
  · intro h
    refine and_eq_zero_of_getLsbD fun i hi hnot => ?_
    rw [BitVec.getLsbD_and, (c.getLsbD_masks i hi).1]
    rw [BitVec.getLsbD_not, decide_eq_true hi, Bool.true_and, Bool.not_eq_true'] at hnot
    by_cases hlow : i < c.shift
    · cases hbit : (c.address p).getLsbD i with
      | false => rfl
      | true => exact absurd (hnot.symm.trans (h i hlow hbit)) Bool.false_ne_true
    · rw [decide_eq_false hlow, Bool.and_false]

/-- Apart from its flags the entry for a rounded address has bits of the page's address only. -/
theorem leafEntry_clear (hp : p.toNat < 2 ^ 52) (hr : c.Rounded flags p) {i : ℕ} (h64 : i < 64)
    (hl : (c.leafFlags flags).getLsbD i = false) (hrange : i < c.shift ∨ 52 ≤ i) :
    (c.leafEntry p flags).getLsbD i = false := by
  rw [leafEntry, BitVec.getLsbD_or, hl, Bool.or_false]
  rcases hrange with hlow | hhigh
  · cases hbit : (c.address p).getLsbD i with
    | false => rfl
    | true =>
      have hflag := (rounded_iff c flags p).mp hr i hlow hbit
      exact absurd (hl.symm.trans hflag) Bool.false_ne_true
  · rw [c.getLsbD_address p (by omega) h64]
    exact Nat.testBit_lt_two_pow (lt_of_lt_of_le hp (Nat.pow_le_pow_right Nat.two_pos hhigh))

theorem exact_of_rounded (hp : p.toNat < 2 ^ 52) (hfl : LowFlags flags)
    (hr : c.Rounded flags p) : c.Exact flags (c.leafEntry p flags) := by
  refine ⟨BitVec.eq_of_getLsbD_eq fun i h64 => ?_, and_eq_zero_of_getLsbD fun i h64 hm => ?_⟩
  · obtain ⟨-, hmask, hlow⟩ := c.getLsbD_masks i h64
    rw [BitVec.getLsbD_and]
    cases hl : (c.leafFlags flags).getLsbD i with
    | true =>
      rw [leafEntry, BitVec.getLsbD_or, hl, Bool.or_true, (hlow (lt_of_leafFlags hfl hl)).1]
      rfl
    | false =>
      cases hm : c.flagMask.getLsbD i with
      | false => exact Bool.and_false _
      | true =>
        rw [hm, Bool.true_or] at hmask
        rw [leafEntry_clear hp hr h64 hl (of_decide_eq_true hmask.symm), Bool.false_and]
  · obtain ⟨-, hmask, hlow⟩ := c.getLsbD_masks i h64
    rw [hm, Bool.or_true] at hmask
    refine leafEntry_clear hp hr h64 ?_ (of_decide_eq_true hmask.symm)
    by_contra hl
    rw [(hlow (lt_of_leafFlags hfl (by simpa using hl))).2] at hm
    exact Bool.false_ne_true hm

theorem rounded_of_exact (hexact : c.Exact flags (c.leafEntry p flags)) : c.Rounded flags p := by
  obtain ⟨hflags, hreserved⟩ := hexact
  rw [rounded_iff]
  intro i hi hbit
  have h64 : i < 64 := by
    have := c.twelve_le_shift
    omega
  obtain ⟨-, hmask, -⟩ := c.getLsbD_masks i h64
  rw [decide_eq_true (Or.inl hi), Bool.or_eq_true] at hmask
  have hentry : (c.leafEntry p flags).getLsbD i = true := by
    rw [leafEntry, BitVec.getLsbD_or, hbit, Bool.true_or]
  -- the bit shows among the flags or among the reserved bits
  rcases hmask with hm | hm
  · rw [← hflags, BitVec.getLsbD_and, hentry, hm]
    rfl
  · exact absurd (getLsbD_of_and_eq_zero hreserved hm) (by rw [hentry]; decide)

/-- **The entry is exact if the address is rounded**, and only then. -/
theorem exact_iff (hp : p.toNat < 2 ^ 52) (hfl : LowFlags flags) :
    c.Exact flags (c.leafEntry p flags) ↔ c.Rounded flags p :=
  ⟨rounded_of_exact, exact_of_rounded hp hfl⟩

/-- An address aligned to the page is taken as it is. -/
theorem address_of_aligned (hp : p.toNat % 2 ^ c.shift = 0) : c.address p = p := by
  cases c with
  | map4K => rfl
  | map2M => exact and_not_fff hp
  | map1G => rfl

/-- The entry for an aligned address ends a walk, and may be stored where it is. -/
theorem leafEntry_storable (v : U64) (hp : p.toNat % 2 ^ c.shift = 0)
    (hpres : present flags = true) (hsmall : flags.toNat < 4096) :
    Storable allPhysical (c.path v).length (c.leafEntry p flags) ∧
      leafAt (3 - (c.path v).length) (c.leafEntry p flags) = true := by
  rw [leafEntry, address_of_aligned hp]
  cases c with
  | map4K => exact ⟨storable_three _, present_or p hpres⟩
  | map2M =>
    rw [leafFlags, ← BitVec.or_assoc]
    exact ⟨storable_large (k := 1) rfl (Or.inl rfl) hp hpres hsmall,
      (large_page (k := 1) (Or.inl rfl) hp hpres hsmall).1⟩
  | map1G =>
    rw [leafFlags, ← BitVec.or_assoc]
    exact ⟨storable_large (k := 2) rfl (Or.inr rfl) hp hpres hsmall,
      (large_page (k := 2) (Or.inr rfl) hp hpres hsmall).1⟩

/-- Of a rounded address the entry keeps the frame. -/
theorem leafEntry_congr (hsame : p.toNat / 2 ^ c.shift = q.toNat / 2 ^ c.shift)
    (hp : c.Rounded flags p) (hq : c.Rounded flags q) :
    c.leafEntry p flags = c.leafEntry q flags := by
  rw [rounded_iff] at hp hq
  have hlow : ∀ {a : U64}, (∀ i < c.shift, (c.address a).getLsbD i = true →
      (c.leafFlags flags).getLsbD i = true) → ∀ i < c.shift,
      (c.leafEntry a flags).getLsbD i = (c.leafFlags flags).getLsbD i := by
    intro a ha i hi
    rw [leafEntry, BitVec.getLsbD_or]
    cases hbit : (c.address a).getLsbD i with
    | false => exact Bool.false_or _
    | true => rw [ha i hi hbit, Bool.or_true]
  refine BitVec.eq_of_getLsbD_eq fun i h64 => ?_
  by_cases hi : i < c.shift
  · rw [hlow hp i hi, hlow hq i hi]
  · have h12 := c.twelve_le_shift.1
    rw [leafEntry, leafEntry, BitVec.getLsbD_or, BitVec.getLsbD_or,
      c.getLsbD_address p (by omega) h64, c.getLsbD_address q (by omega) h64,
      getLsbD_of_div_eq hsame (not_lt.mp hi)]

end Mapper

/-! ## The address by its frame -/

/-- Calls for `p` and for `q` leave the same state, and both entries are exact. -/
structure ByFrame (c : Mapper) (alloc : Allocator α) (root v flags : U64) (s : Machine α)
    (p q : U64) : Prop where
  mem : (c.call alloc root v p flags s).mem = (c.call alloc root v q flags s).mem
  pmm : (c.call alloc root v p flags s).pmm = (c.call alloc root v q flags s).pmm
  first : c.Exact flags (c.written alloc root v p flags s)
  second : c.Exact flags (c.written alloc root v q flags s)

/-- **When a mapper sees the frame only.**  For any state of the page tables and two
addresses in one page of the mapper's size, the calls leave the same state and exact entries
if and only if both addresses are rounded, or the bits they are off by are flags anyway. -/
theorem mapper_byFrame_iff (c : Mapper) (alloc : Allocator α) (root v : U64) (s : Machine α)
    (hfl : LowFlags flags) (hp : p.toNat < 2 ^ 52) (hq : q.toNat < 2 ^ 52)
    (hsame : p.toNat / 2 ^ c.shift = q.toNat / 2 ^ c.shift) :
    ByFrame c alloc root v flags s p q ↔ c.Rounded flags p ∧ c.Rounded flags q := by
  constructor
  · rintro ⟨-, -, hfirst, hsecond⟩
    rw [Mapper.written_eq] at hfirst hsecond
    exact ⟨(Mapper.exact_iff hp hfl).mp hfirst, (Mapper.exact_iff hq hfl).mp hsecond⟩
  · rintro ⟨hrp, hrq⟩
    have hentry := Mapper.leafEntry_congr hsame hrp hrq
    refine ⟨?_, ?_, ?_, ?_⟩
    · rw [c.call_eq, c.call_eq, hentry]
    · rw [c.call_eq, c.call_eq, hentry]
    · rw [Mapper.written_eq]
      exact (Mapper.exact_iff hp hfl).mpr hrp
    · rw [Mapper.written_eq]
      exact (Mapper.exact_iff hq hfl).mpr hrq

/-- The 2 MiB mapper drops the low twelve bits. -/
theorem mapper_byFrame_map2M :
    ByFrame .map2M countUp (frameAddr 1) 0x400000 3 bare 0x200000 0x200ABC :=
  (mapper_byFrame_iff .map2M countUp (frameAddr 1) 0x400000 bare ⟨by decide, by decide⟩
    (by decide) (by decide) (by decide)).mpr ⟨by decide, by decide⟩

/-- In the 4 KiB mapper bit 2 of the address makes a kernel page accessible to the user. -/
theorem mapper_keeps_low_bits :
    ¬ ∀ (c : Mapper) (alloc : Allocator ℕ) (root v flags p q : U64) (s : Machine ℕ),
      LowFlags flags → p.toNat < 2 ^ 52 → q.toNat < 2 ^ 52 →
      p.toNat / 2 ^ c.shift = q.toNat / 2 ^ c.shift → ByFrame c alloc root v flags s p q := by
  intro hclaim
  have hsecond := (hclaim .map4K countUp (frameAddr 1) 0x400000 3 0x5000 0x5004 bare
    ⟨by decide, by decide⟩ (by decide) (by decide) (by decide)).second.flags
  rw [Mapper.written_eq] at hsecond
  exact absurd hsecond (by decide)

end Vmm
