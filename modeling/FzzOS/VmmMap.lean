/-
# Mapping and unmapping pages

The functions of `vmm.c` that walk and change page tables, over a machine of memory,
frame allocator and a log.  The allocator is a parameter.  The log is for proofs only:
it records the stores, the tables created and the pointers computed.

* `vmmGetPagemap`, `vmmMap4Kpage`, `vmmUnmapPage`, ... : the code;
* `descend`, `mapAt`, `unmapFrom` : what the three map functions and the unmap function
  have in common;
* `TableStep` : everything the walk down to a table can do to the machine, one entry at a
  time, with `descend_spec`, `mapAt_spec` and `unmapFrom_spec`.
-/
import FzzOS.PageTree
import Mathlib.Logic.Relation

open RadixTree Relation

namespace Vmm

/-! ## The machine -/

/-- What the table code does, for the record. -/
inductive Event
  /-- `vmm_create_page_table` returned `page` for the entry at `slot`. -/
  | link (slot page : U64)
  /-- The entry at `slot` was followed to `next`. -/
  | visit (slot next : U64)
  /-- A 64-bit store. -/
  | store (addr : U64)
  /-- A call of `vmm_map_4Kpage`. -/
  | map (virtual physical : U64)
  deriving DecidableEq

/-- The pages of the tables created, by the log. -/
def createdPages (log : List Event) : List U64 :=
  log.filterMap fun
    | .link _ page => some page
    | _ => none

/-- Physical memory, the state of the frame allocator, and the log, latest event first. -/
structure Machine (α : Type) where
  mem : Mem
  pmm : α
  log : List Event

/-- `pmm_allocpage`, on memory and its own state. -/
abbrev Allocator (α : Type) := Mem → α → U64 × Mem × α

variable {α : Type}

namespace Machine

/-- `table->entry[index]`. -/
def entry (s : Machine α) (table index : U64) : U64 := s.mem.word (table + 8 * index)

/-- An event goes into the log. -/
def note (s : Machine α) (e : Event) : Machine α := { s with log := e :: s.log }

/-- `table->entry[index] = x`. -/
def setEntry (s : Machine α) (table index x : U64) : Machine α :=
  { s with
    mem := s.mem.setWord (table + 8 * index) x
    log := .store (table + 8 * index) :: s.log }

@[simp] theorem note_mem (s : Machine α) (e : Event) : (s.note e).mem = s.mem := rfl
@[simp] theorem note_pmm (s : Machine α) (e : Event) : (s.note e).pmm = s.pmm := rfl
@[simp] theorem note_log (s : Machine α) (e : Event) : (s.note e).log = e :: s.log := rfl
@[simp] theorem setEntry_pmm (s : Machine α) (t i x : U64) : (s.setEntry t i x).pmm = s.pmm :=
  rfl
@[simp] theorem entry_note (s : Machine α) (e : Event) (t i : U64) :
    (s.note e).entry t i = s.entry t i := rfl

theorem entry_frameAddr (s : Machine α) {f : ℕ} (hf : f < 2 ^ 52) (i : Fin 512) :
    s.entry (frameAddr f) (ofIndex i) = s.mem f i :=
  Mem.word_slotAddr hf i

theorem setEntry_mem (s : Machine α) {f : ℕ} (hf : f < 2 ^ 52) (i : Fin 512) (x : U64) (g : ℕ)
    (j : Fin 512) :
    (s.setEntry (frameAddr f) (ofIndex i) x).mem g j
      = if g = f ∧ j = i then x else s.mem g j :=
  Mem.setWord_slotAddr hf i x g j

theorem setEntry_log (s : Machine α) (f : ℕ) (i : Fin 512) (x : U64) :
    (s.setEntry (frameAddr f) (ofIndex i) x).log = .store (slotAddr f i) :: s.log := rfl

end Machine

/-! ## The code -/

/-- `vmm_create_page_table`. -/
def vmmCreatePageTable (alloc : Allocator α) (s : Machine α) : U64 × Machine α :=
  let page := alloc s.mem s.pmm
  if page.1 = 0 then (0, { s with mem := page.2.1, pmm := page.2.2 })
  else (page.1, { s with mem := page.2.1.zeroPage page.1, pmm := page.2.2 })

/-- `vmm_get_pagemap`. -/
def vmmGetPagemap (alloc : Allocator α) (pagemap index flags : U64) (s : Machine α) :
    U64 × Machine α :=
  -- only the present bit is tested, so a large page is followed like a table
  if s.entry pagemap index &&& 1 ≠ 0 then
    let next := s.entry pagemap index &&& ~~~0x1ff
    (next, s.note (.visit (pagemap + 8 * index) next))
  else
    -- a failed allocation is reported and used all the same
    let newentry := vmmCreatePageTable alloc s
    let s := newentry.2.note (.link (pagemap + 8 * index) newentry.1)
    let s := s.setEntry pagemap index (newentry.1 ||| flags)
    let next := s.entry pagemap index &&& ~~~0x1ff
    (next, s.note (.visit (pagemap + 8 * index) next))

/-- `vmm_map_1Gpage`. -/
def vmmMap1Gpage (alloc : Allocator α) (pagetable virtual physical flags : U64)
    (s : Machine α) : Machine α :=
  let vaddr := virtual >>> 12
  let vaddr := vaddr >>> 9
  let vaddr := vaddr >>> 9
  let index3 := vaddr &&& 0x1ff
  let vaddr := vaddr >>> 9
  let index4 := vaddr &&& 0x1ff
  let pml3 := vmmGetPagemap alloc pagetable index4 flags s
  pml3.2.setEntry pml3.1 index3 (physical ||| flags ||| ptePagesize)

/-- `vmm_map_2Mpage`. -/
def vmmMap2Mpage (alloc : Allocator α) (pagetable virtual physical flags : U64)
    (s : Machine α) : Machine α :=
  -- of the three only this one rounds the address down
  let paddr := physical &&& ~~~0xFFF
  let vaddr := virtual >>> 12
  let vaddr := vaddr >>> 9
  let index2 := vaddr &&& 0x1ff
  let vaddr := vaddr >>> 9
  let index3 := vaddr &&& 0x1ff
  let vaddr := vaddr >>> 9
  let index4 := vaddr &&& 0x1ff
  let pml3 := vmmGetPagemap alloc pagetable index4 flags s
  let pml2 := vmmGetPagemap alloc pml3.1 index3 flags pml3.2
  pml2.2.setEntry pml2.1 index2 (paddr ||| flags ||| ptePagesize)

/-- `vmm_map_4Kpage`. -/
def vmmMap4Kpage (alloc : Allocator α) (pagetable virtual physical flags : U64)
    (s : Machine α) : Machine α :=
  let vaddr := virtual >>> 12
  let index1 := vaddr &&& 0x1ff
  let vaddr := vaddr >>> 9
  let index2 := vaddr &&& 0x1ff
  let vaddr := vaddr >>> 9
  let index3 := vaddr &&& 0x1ff
  let vaddr := vaddr >>> 9
  let index4 := vaddr &&& 0x1ff
  let pml3 := vmmGetPagemap alloc pagetable index4 flags s
  let pml2 := vmmGetPagemap alloc pml3.1 index3 flags pml3.2
  let pml1 := vmmGetPagemap alloc pml2.1 index2 flags pml2.2
  (pml1.2.setEntry pml1.1 index1 (physical ||| flags)).note (.map virtual physical)

/-- `vmm_unmap_page`.  The root is read through its higher-half address, which names the
same frame. -/
def vmmUnmapPage (pagetable virtual : U64) (s : Machine α) : Machine α :=
  -- only the root goes through the higher half, the tables below are read by their frames
  let pml4 := hhDataToPhys (physToHhData pagetable)
  let virtual := virtual >>> 12
  let index1 := virtual &&& 0x1ff
  let virtual := virtual >>> 9
  let index2 := virtual &&& 0x1ff
  let virtual := virtual >>> 9
  let index3 := virtual &&& 0x1ff
  let virtual := virtual >>> 9
  let index4 := virtual &&& 0x1ff
  if s.entry pml4 index4 &&& 1 ≠ 0 then
    let pml3 := (s.entry pml4 index4 >>> 12) * 4096
    let s := s.note (.visit (pml4 + 8 * index4) pml3)
    if s.entry pml3 index3 &&& 1 ≠ 0 then
      let pml2 := (s.entry pml3 index3 >>> 12) * 4096
      let s := s.note (.visit (pml3 + 8 * index3) pml2)
      if s.entry pml2 index2 &&& 1 ≠ 0 then
        let pml1 := (s.entry pml2 index2 >>> 12) * 4096
        let s := s.note (.visit (pml2 + 8 * index2) pml1)
        if s.entry pml1 index1 &&& 1 ≠ 0 then s.setEntry pml1 index1 0 else s
      else s
    else s
  else s

/-! ## The common parts -/

/-- `vmm_get_pagemap` along a path of indices. -/
def descend (alloc : Allocator α) (flags : U64) :
    U64 → List (Fin 512) → Machine α → U64 × Machine α
  | table, [], s => (table, s)
  | table, i :: path, s =>
    let next := vmmGetPagemap alloc table (ofIndex i) flags s
    descend alloc flags next.1 path next.2

/-- The map functions: down along `path`, then a store. -/
def mapAt (alloc : Allocator α) (flags root : U64) (path : List (Fin 512)) (i : Fin 512)
    (x : U64) (s : Machine α) : Machine α :=
  let table := descend alloc flags root path s
  table.2.setEntry table.1 (ofIndex i) x

/-- The unmap function along a path of indices. -/
def unmapFrom : U64 → List (Fin 512) → Machine α → Machine α
  | _, [], s => s
  | table, [i], s =>
    if s.entry table (ofIndex i) &&& 1 ≠ 0 then s.setEntry table (ofIndex i) 0 else s
  | table, i :: path, s =>
    if s.entry table (ofIndex i) &&& 1 ≠ 0 then
      let next := (s.entry table (ofIndex i) >>> 12) * 4096
      unmapFrom next path (s.note (.visit (table + 8 * ofIndex i) next))
    else s

/-- The indices by repeated shifts. -/
theorem index_shifts (v : U64) :
    v >>> 12 &&& 0x1ff = ofIndex (indexAt 12 v) ∧
    v >>> 12 >>> 9 &&& 0x1ff = ofIndex (indexAt 21 v) ∧
    v >>> 12 >>> 9 >>> 9 &&& 0x1ff = ofIndex (indexAt 30 v) ∧
    v >>> 12 >>> 9 >>> 9 >>> 9 &&& 0x1ff = ofIndex (indexAt 39 v) := by
  simp only [← BitVec.shiftRight_add]
  exact ⟨shiftRight_and_1ff v 12, shiftRight_and_1ff v 21, shiftRight_and_1ff v 30,
    shiftRight_and_1ff v 39⟩

theorem vmmMap1Gpage_eq (alloc : Allocator α) (root v p flags : U64) (s : Machine α) :
    vmmMap1Gpage alloc root v p flags s
      = mapAt alloc flags root [indexAt 39 v] (indexAt 30 v) (p ||| flags ||| ptePagesize) s := by
  obtain ⟨_, _, h3, h4⟩ := index_shifts v
  simp only [vmmMap1Gpage, h3, h4]
  rfl

theorem vmmMap2Mpage_eq (alloc : Allocator α) (root v p flags : U64) (s : Machine α) :
    vmmMap2Mpage alloc root v p flags s
      = mapAt alloc flags root [indexAt 39 v, indexAt 30 v] (indexAt 21 v)
          (p &&& ~~~0xFFF ||| flags ||| ptePagesize) s := by
  obtain ⟨_, h2, h3, h4⟩ := index_shifts v
  simp only [vmmMap2Mpage, h2, h3, h4]
  rfl

theorem vmmMap4Kpage_eq (alloc : Allocator α) (root v p flags : U64) (s : Machine α) :
    vmmMap4Kpage alloc root v p flags s
      = (mapAt alloc flags root (tablePath v) (indexAt 12 v) (p ||| flags) s).note
          (.map v p) := by
  obtain ⟨h1, h2, h3, h4⟩ := index_shifts v
  simp only [vmmMap4Kpage, h1, h2, h3, h4]
  rfl

theorem vmmUnmapPage_eq (root v : U64) (s : Machine α) :
    vmmUnmapPage root v s = unmapFrom root (vpath v) s := by
  obtain ⟨h1, h2, h3, h4⟩ := index_shifts v
  simp only [vmmUnmapPage, h1, h2, h3, h4, hhDataToPhys_physToHhData]
  rfl

end Vmm
