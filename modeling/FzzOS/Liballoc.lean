/-
# The kernel heap

`kmalloc`, `kfree`, `kcalloc` and `krealloc`.  The heap is a list of major blocks, each a run of
pages with a list of minor blocks in it, one for every piece of memory handed out.

* `Platform` : what the code runs on, memory by virtual addresses and the hook for pages;
* `Heap` : memory and the variables of the allocator, which most of the code works on;
* `Interruptible` : the interrupt-enable flag beside the heap.  The lock works on the flag;
* `HeapCall.run` : the four calls;
* `HeapCall.run_extends` : the rounds a call is given bound its loops and change nothing else.

A loop is given the number of rounds it may take; a run that needs more, or that touches
memory which is not mapped, has no result.
-/
import FzzOS.HeapPages
import FzzOS.Programs

namespace Liballoc

open Program

/-! ## Platforms -/

/-- Bytes at virtual addresses, where an access may fault, and `liballoc_alloc`. -/
structure Platform (μ : Type) where
  load : μ → U64 → Option U8
  store : μ → U64 → U8 → Option μ
  liballocAlloc : U64 → μ → U64 × μ

/-- The kernel: addresses go through its page tables, pages come from its own hook. -/
def kernel {α : Type} (alloc : Vmm.Allocator α) (root : ℕ) : Platform (Vmm.Heap α) where
  load h p := (Vmm.access h.machine.mem root p).map h.machine.mem.byte
  store h p x := (Vmm.access h.machine.mem root p).map fun a =>
    { h with machine := { h.machine with mem := h.machine.mem.setByte a x } }
  liballocAlloc := Vmm.liballocAlloc alloc root

/-- Memory and the variables of liballoc. -/
structure Heap (μ : Type) where
  mem : μ
  lMemRoot : U64
  lBestBet : U64
  lAllocated : U64
  lInuse : U64
  lWarningCount : U64
  lErrorCount : U64
  lPossibleOverruns : U64

/-- The interrupt-enable flag of the processor, and the heap. -/
abbrev Interruptible (μ : Type) := Bool × Heap μ

variable {μ : Type} (m : Platform μ)

/-! ## Memory -/

/-- A byte is read. -/
def loadByte (p : U64) : Program (Heap μ) U8 := fun h => (m.load h.mem p).map fun x => (x, h)

/-- A byte is written. -/
def storeByte (p : U64) (x : U8) : Program (Heap μ) Unit := fun h =>
  (m.store h.mem p x).map fun mem => ((), { h with mem := mem })

/-- A little-endian word of `n` bytes. -/
def loadWord : ℕ → U64 → Program (Heap μ) U64
  | 0, _ => pure 0
  | n + 1, p => do
    let low ← loadByte m p
    let high ← loadWord n (p + 1)
    pure (high <<< 8 ||| low.setWidth 64)

/-- The `n` low bytes of a word are written. -/
def storeWord : ℕ → U64 → U64 → Program (Heap μ) Unit
  | 0, _, _ => pure ()
  | n + 1, p, x => do
    storeByte m p (x.setWidth 8)
    storeWord n (p + 1) (x >>> 8)

/-- A field of a structure: where it begins, and its size. -/
structure Field where
  offset : U64
  size : ℕ

/-- `p->field`. -/
def get (p : U64) (field : Field) : Program (Heap μ) U64 :=
  loadWord m field.size (p + field.offset)

/-- `p->field = x`. -/
def set (p : U64) (field : Field) (x : U64) : Program (Heap μ) Unit :=
  storeWord m field.size (p + field.offset) x

/-! ## `struct liballoc_major` and `struct liballoc_minor` -/

namespace Major

/-- The block before, or null. -/
def prev : Field := ⟨0, 8⟩

/-- The block behind, or null. -/
def next : Field := ⟨8, 8⟩

/-- The number of pages. -/
def pages : Field := ⟨16, 4⟩

/-- The size of the block in bytes. -/
def size : Field := ⟨20, 4⟩

/-- The bytes in use, headers included. -/
def usage : Field := ⟨24, 4⟩

/-- The first piece, or null. -/
def first : Field := ⟨32, 8⟩

/-- `sizeof(struct liballoc_major)`. -/
def sizeof : U64 := 40

end Major

namespace Minor

/-- The piece before, or null. -/
def prev : Field := ⟨0, 8⟩

/-- The piece behind, or null. -/
def next : Field := ⟨8, 8⟩

/-- The block the piece is in. -/
def block : Field := ⟨16, 8⟩

/-- `LIBALLOC_MAGIC`, or `LIBALLOC_DEAD` once it is freed. -/
def magic : Field := ⟨24, 4⟩

/-- The size of the piece, with what aligning it takes. -/
def size : Field := ⟨28, 4⟩

/-- The size that was asked for. -/
def reqSize : Field := ⟨32, 4⟩

/-- `sizeof(struct liballoc_minor)`. -/
def sizeof : U64 := 40

end Minor

/-- `ALIGNMENT`. -/
def alignment : U64 := 16

/-- `ALIGN_INFO`. -/
def alignInfo : U64 := 16

/-- `LIBALLOC_MAGIC`. -/
def liballocMagic : U64 := 0xc001c0de

/-- `LIBALLOC_DEAD`. -/
def liballocDead : U64 := 0xdeaddead

/-- `l_pageSize`, which nothing changes. -/
def lPageSize : U32 := 4096

/-- `l_pageCount`: a block has at least so many pages. -/
def lPageCount : U32 := 16

/-! ## The lock -/

/-- `liballoc_lock` executes `cli`. -/
def liballocLock : Program (Interruptible μ) Unit := fun s => some ((), false, s.2)

/-- `liballoc_unlock` executes `sti`. -/
def liballocUnlock : Program (Interruptible μ) Unit := fun s => some ((), true, s.2)

/-! ## Helpers -/

/-- `l_warningCount += 1`. -/
def warn : Program (Heap μ) Unit :=
  modify fun h => { h with lWarningCount := h.lWarningCount + 1 }

/-- `l_inuse += size`. -/
def useMore (size : U64) : Program (Heap μ) Unit :=
  modify fun h => { h with lInuse := h.lInuse + size }

/-- `ALIGN(ptr)`. -/
def align (ptr : U64) : Program (Heap μ) U64 := do
  let ptr := ptr + alignInfo
  let diff := ptr &&& (alignment - 1)
  let diff' := if diff = 0 then diff else alignment - diff
  let ptr := if diff = 0 then ptr else ptr + diff'
  storeByte m (ptr - alignInfo) ((diff' + alignInfo).setWidth 8)
  pure ptr

/-- `UNALIGN(ptr)`.  The distance is a `char`, which has a sign. -/
def unalign (ptr : U64) : Program (Heap μ) U64 := do
  let info ← loadByte m (ptr - alignInfo)
  let diff := info.signExtend 64
  pure (if diff < alignment + alignInfo then ptr - diff else ptr)

/-- `liballoc_memset` from index `i` on.  The index has 32 bits, the length 64. -/
def liballocMemset (s : U64) (c : U8) (n : U64) : ℕ → U32 → Program (Heap μ) Unit
  | 0, _ => failure
  | rounds + 1, i =>
    if i.setWidth 64 < n then do
      storeByte m (s + i.setWidth 64) c
      liballocMemset s c n rounds (i + 1)
    else pure ()

/-- `liballoc_memcpy`: words of four bytes, then the bytes that are left. -/
def liballocMemcpy : ℕ → U64 → U64 → Program (Heap μ) Unit
  | n + 4, dest, src => do
    let x ← loadWord m 4 src
    storeWord m 4 dest x
    liballocMemcpy n (dest + 4) (src + 4)
  | n + 1, dest, src => do
    let x ← loadByte m src
    storeByte m dest x
    liballocMemcpy n (dest + 1) (src + 1)
  | 0, _, _ => pure ()

/-- `maj->size - maj->usage`, as an `unsigned int`. -/
def freeSpace (maj : U64) : Program (Heap μ) U32 := do
  let size ← get m maj Major.size
  let usage ← get m maj Major.usage
  pure (size.setWidth 32 - usage.setWidth 32)

/-- `allocate_new_page`.  The size is cut to an `unsigned int`. -/
def allocateNewPage (size : U64) : Program (Heap μ) U64 := do
  let st : U32 := size.setWidth 32 + Major.sizeof.setWidth 32 + Minor.sizeof.setWidth 32
  let st := if st % lPageSize = 0 then st / lPageSize else st / lPageSize + 1
  let st := if st < lPageCount then lPageCount else st
  let maj ← modifyGet fun h =>
    let page := m.liballocAlloc (st.setWidth 64) h.mem
    (page.1, { h with mem := page.2 })
  if maj = 0 then do
    warn
    pure 0
  else do
    set m maj Major.prev 0
    set m maj Major.next 0
    set m maj Major.pages (st.setWidth 64)
    set m maj Major.size ((st * lPageSize).setWidth 64)
    set m maj Major.usage Major.sizeof
    set m maj Major.first 0
    let size ← get m maj Major.size
    modify fun h => { h with lAllocated := h.lAllocated + size }
    pure maj

/-! ## `kmalloc` -/

/-- The cases 2, 3 and 4 write a minor block and charge it to its major block. -/
def charge (maj size : U64) : Program (Heap μ) Unit := do
  let usage ← get m maj Major.usage
  set m maj Major.usage (usage + (size + Minor.sizeof))
  useMore size

/-- Case 2, the only piece in the block. -/
def case2 (size reqSize maj : U64) : Program (Heap μ) U64 := do
  set m maj Major.first (maj + Major.sizeof)
  let first ← get m maj Major.first
  set m first Minor.magic liballocMagic
  set m first Minor.prev 0
  set m first Minor.next 0
  set m first Minor.block maj
  set m first Minor.size size
  set m first Minor.reqSize reqSize
  charge m maj size
  let first ← get m maj Major.first
  align m (first + Minor.sizeof)

/-- Case 3, before the first piece. -/
def case3 (size reqSize maj : U64) : Program (Heap μ) U64 := do
  let old ← get m maj Major.first
  set m old Minor.prev (maj + Major.sizeof)
  let front ← get m old Minor.prev
  set m front Minor.next old
  let front ← get m old Minor.prev
  set m maj Major.first front
  let first ← get m maj Major.first
  set m first Minor.magic liballocMagic
  set m first Minor.prev 0
  set m first Minor.block maj
  set m first Minor.size size
  set m first Minor.reqSize reqSize
  charge m maj size
  let first ← get m maj Major.first
  align m (first + Minor.sizeof)

/-- Case 4.1, behind the last piece, if there is room. -/
def case41 (size reqSize maj min : U64) : Program (Heap μ) (Option U64) := do
  let next ← get m min Minor.next
  if next = 0 then do
    let majSize ← get m maj Major.size
    let minSize ← get m min Minor.size
    let diff := maj + majSize - min - Minor.sizeof - minSize
    if size + Minor.sizeof ≤ diff then do
      set m min Minor.next (min + Minor.sizeof + minSize)
      let last ← get m min Minor.next
      set m last Minor.prev min
      let min ← get m min Minor.next
      set m min Minor.next 0
      set m min Minor.magic liballocMagic
      set m min Minor.block maj
      set m min Minor.size size
      set m min Minor.reqSize reqSize
      charge m maj size
      some <$> align m (min + Minor.sizeof)
    else pure none
  else pure none

/-- Case 4.2, between two pieces, if there is room. -/
def case42 (size reqSize maj min : U64) : Program (Heap μ) (Option U64) := do
  let next ← get m min Minor.next
  if next ≠ 0 then do
    let minSize ← get m min Minor.size
    let diff := next - min - Minor.sizeof - minSize
    if size + Minor.sizeof ≤ diff then do
      let newMin := min + Minor.sizeof + minSize
      set m newMin Minor.magic liballocMagic
      let next ← get m min Minor.next
      set m newMin Minor.next next
      set m newMin Minor.prev min
      set m newMin Minor.size size
      set m newMin Minor.reqSize reqSize
      set m newMin Minor.block maj
      let next ← get m min Minor.next
      set m next Minor.prev newMin
      set m min Minor.next newMin
      charge m maj size
      some <$> align m (newMin + Minor.sizeof)
    else pure none
  else pure none

/-- The loop of case 4 over the pieces of a block, from `min` on. -/
def minorLoop (size reqSize maj : U64) : ℕ → U64 → Program (Interruptible μ) (Option U64)
  | 0, _ => failure
  | rounds + 1, min =>
    if min = 0 then pure none
    else do
      match ← inner (case41 m size reqSize maj min) with
      | some p => do
        liballocUnlock
        pure (some p)
      | none =>
        match ← inner (case42 m size reqSize maj min) with
        | some p => do
          liballocUnlock
          pure (some p)
        | none => do
          let next ← inner (get m min Minor.next)
          minorLoop size reqSize maj rounds next

/-- The cases 2, 3 and 4. -/
def place (rounds : ℕ) (size reqSize maj : U64) : Program (Interruptible μ) (Option U64) := do
  let first ← inner (get m maj Major.first)
  if first = 0 then do
    let p ← inner (case2 m size reqSize maj)
    liballocUnlock
    pure (some p)
  else if size + Minor.sizeof ≤ first - maj - Major.sizeof then do
    let p ← inner (case3 m size reqSize maj)
    liballocUnlock
    pure (some p)
  else minorLoop m size reqSize maj rounds first

/-- `maj->next = allocate_new_page(size)`, linked back; 0 if there is no more memory. -/
def append (size maj : U64) : Program (Heap μ) U64 := do
  let page ← allocateNewPage m size
  set m maj Major.next page
  let next ← get m maj Major.next
  if next = 0 then pure 0
  else do
    set m next Major.prev maj
    get m maj Major.next

/-- What case 1 makes of a block. -/
inductive Turn
  /-- `continue` with this block and this `startedBet`. -/
  | hop (maj : U64) (startedBet : Bool)
  /-- `break`. -/
  | noMemory
  /-- On to case 2 in this block. -/
  | fits (maj : U64)

/-- Case 1, a block with too little room. -/
def case1 (size maj diff : U64) (startedBet : Bool) : Program (Heap μ) Turn :=
  if diff < size + Minor.sizeof then do
    let next ← get m maj Major.next
    if next ≠ 0 then pure (.hop next startedBet)
    else if startedBet then do
      let h ← MonadState.get
      pure (.hop h.lMemRoot false)
    else do
      let page ← append m size maj
      pure (if page = 0 then .noMemory else .fits page)
  else pure (.fits maj)

/-- Case 5, a block in which the cases 2, 3 and 4 found no room: the next block and the next
`startedBet`, or `break`. -/
def case5 (size maj : U64) (startedBet : Bool) : Program (Heap μ) (Option (U64 × Bool)) := do
  let next ← get m maj Major.next
  if next = 0 then
    if startedBet then do
      let h ← MonadState.get
      pure (some (h.lMemRoot, false))
    else do
      let page ← append m size maj
      pure (if page = 0 then none else some (page, false))
  else pure (some (next, startedBet))

/-- `l_bestBet` and `bestSize` at the head of the loop. -/
def remember (maj diff bestSize : U64) : Program (Heap μ) U64 :=
  if bestSize < diff then do
    modify fun h => { h with lBestBet := maj }
    pure diff
  else pure bestSize

/-- The loop over the major blocks. -/
def majorLoop (size reqSize : U64) :
    ℕ → U64 → Bool → U64 → Program (Interruptible μ) U64
  | 0, _, _, _ => failure
  | rounds + 1, maj, startedBet, bestSize =>
    if maj = 0 then do
      liballocUnlock
      pure 0
    else do
      let diff ← inner (freeSpace m maj)
      let bestSize ← inner (remember maj (diff.setWidth 64) bestSize)
      match ← inner (case1 m size maj (diff.setWidth 64) startedBet) with
      | .hop maj startedBet => majorLoop size reqSize rounds maj startedBet bestSize
      | .noMemory => do
        liballocUnlock
        pure 0
      | .fits maj =>
        match ← place m rounds size reqSize maj with
        | some p => pure p
        | none =>
          match ← inner (case5 m size maj startedBet) with
          | some (maj, startedBet) => majorLoop size reqSize rounds maj startedBet bestSize
          | none => do
            liballocUnlock
            pure 0

/-- `l_memRoot`, set up at the first call. -/
def memRoot (size : U64) : Program (Heap μ) U64 := do
  let h ← MonadState.get
  if h.lMemRoot = 0 then do
    let page ← allocateNewPage m size
    modify fun h => { h with lMemRoot := page }
    pure page
  else pure h.lMemRoot

/-- Where the loop starts: the block, `startedBet` and `bestSize`. -/
def startAt (size : U64) : Program (Heap μ) (U64 × Bool × U64) := do
  let h ← MonadState.get
  if h.lBestBet = 0 then pure (h.lMemRoot, false, 0)
  else do
    let free ← freeSpace m h.lBestBet
    let bestSize := free.setWidth 64
    pure (if size + Minor.sizeof < bestSize then (h.lBestBet, true, bestSize)
      else (h.lMemRoot, false, bestSize))

/-- `kmalloc`. -/
def kmalloc : ℕ → U64 → Program (Interruptible μ) U64
  | 0, _ => failure
  | rounds + 1, reqSize => do
    let size := reqSize + (alignment + alignInfo)
    liballocLock
    if size = 0 then do
      inner warn
      liballocUnlock
      kmalloc rounds 1
    else do
      let root ← inner (memRoot m size)
      if root = 0 then do
        liballocUnlock
        pure 0
      else do
        let start ← inner (startAt m size)
        majorLoop m size reqSize rounds start.1 start.2.1 start.2.2

/-! ## `kfree`, `kcalloc` and `krealloc` -/

/-- A minor block without its magic number is counted. -/
def countError (magic : U64) : Program (Heap μ) Unit :=
  modify fun h =>
    let overrun := magic &&& 0xFFFFFF = liballocMagic &&& 0xFFFFFF
      ∨ magic &&& 0xFFFF = liballocMagic &&& 0xFFFF ∨ magic &&& 0xFF = liballocMagic &&& 0xFF
    { h with
      lErrorCount := h.lErrorCount + 1
      lPossibleOverruns := if overrun then h.lPossibleOverruns + 1 else h.lPossibleOverruns }

/-- A major block without pieces is unlinked.  `liballoc_free` returns 0 and does nothing. -/
def dropMajor (maj : U64) : Program (Heap μ) Unit := do
  let h ← MonadState.get
  if h.lMemRoot = maj then do
    let next ← get m maj Major.next
    modify fun h => { h with lMemRoot := next }
  modify fun h => { h with lBestBet := if h.lBestBet = maj then 0 else h.lBestBet }
  let prev ← get m maj Major.prev
  if prev ≠ 0 then do
    let next ← get m maj Major.next
    set m prev Major.next next
  let next ← get m maj Major.next
  if next ≠ 0 then do
    let prev ← get m maj Major.prev
    set m next Major.prev prev
  let size ← get m maj Major.size
  modify fun h => { h with lAllocated := h.lAllocated - size }
  let _ ← get m maj Major.pages

/-- A major block becomes the best bet if it has more room.  The sizes are compared as `int`. -/
def betterBet (maj : U64) : Program (Heap μ) Unit := do
  let h ← MonadState.get
  if h.lBestBet ≠ 0 then do
    let bestSize ← freeSpace m h.lBestBet
    let majSize ← freeSpace m maj
    if bestSize.slt majSize then modify fun h => { h with lBestBet := maj }

/-- `kfree` behind its check of the magic number. -/
def release (min : U64) : Program (Heap μ) Unit := do
  let maj ← get m min Minor.block
  let size ← get m min Minor.size
  modify fun h => { h with lInuse := h.lInuse - size }
  let usage ← get m maj Major.usage
  let size ← get m min Minor.size
  set m maj Major.usage (usage - (size + Minor.sizeof))
  set m min Minor.magic liballocDead
  let next ← get m min Minor.next
  if next ≠ 0 then do
    let prev ← get m min Minor.prev
    set m next Minor.prev prev
  let prev ← get m min Minor.prev
  if prev ≠ 0 then do
    let next ← get m min Minor.next
    set m prev Minor.next next
  let prev ← get m min Minor.prev
  if prev = 0 then do
    let next ← get m min Minor.next
    set m maj Major.first next
  let first ← get m maj Major.first
  if first = 0 then dropMajor m maj else betterBet m maj

/-- `kfree`. -/
def kfree (ptr : U64) : Program (Interruptible μ) Unit :=
  if ptr = 0 then inner warn
  else do
    let ptr ← inner (unalign m ptr)
    liballocLock
    let min := ptr - Minor.sizeof
    let magic ← inner (get m min Minor.magic)
    if magic ≠ liballocMagic then do
      inner (countError magic)
      liballocUnlock
    else do
      inner (release m min)
      liballocUnlock

/-- `kcalloc`.  The product is cut to an `int`. -/
def kcalloc (rounds : ℕ) (nobj size : U64) : Program (Interruptible μ) U64 := do
  let realSize : U32 := (nobj * size).setWidth 32
  let p ← kmalloc m rounds (realSize.signExtend 64)
  inner (liballocMemset m p 0 (realSize.signExtend 64) rounds 0)
  pure p

/-- `krealloc`. -/
def krealloc (rounds : ℕ) (p size : U64) : Program (Interruptible μ) U64 :=
  if size = 0 then do
    kfree m p
    pure 0
  else if p = 0 then kmalloc m rounds size
  else do
    let ptr ← inner (unalign m p)
    liballocLock
    let min := ptr - Minor.sizeof
    let magic ← inner (get m min Minor.magic)
    if magic ≠ liballocMagic then do
      inner (countError magic)
      liballocUnlock
      pure 0
    else do
      let realSize ← inner (get m min Minor.reqSize)
      if size ≤ realSize then do
        inner (set m min Minor.reqSize size)
        liballocUnlock
        pure p
      else do
        liballocUnlock
        let ptr ← kmalloc m rounds size
        inner (liballocMemcpy m realSize.toNat ptr p)
        kfree m p
        pure ptr

/-- A call into the heap. -/
inductive HeapCall
  | kmalloc (reqSize : U64)
  | kfree (ptr : U64)
  | kcalloc (nobj size : U64)
  | krealloc (p size : U64)

/-- A call and its pointer, if it returns one. -/
def HeapCall.run (rounds : ℕ) : HeapCall → Program (Interruptible μ) (Option U64)
  | .kmalloc reqSize => some <$> Liballoc.kmalloc m rounds reqSize
  | .kfree ptr => (fun _ => none) <$> Liballoc.kfree m ptr
  | .kcalloc nobj size => some <$> Liballoc.kcalloc m rounds nobj size
  | .krealloc p size => some <$> Liballoc.krealloc m rounds p size

/-! ## The number of rounds -/

variable {m : Platform μ}

theorem liballocMemset_extends (s : U64) (c : U8) (n : U64) (rounds : ℕ) (i : U32) :
    Extends (liballocMemset m s c n (rounds + 1) i) (liballocMemset m s c n rounds i) := by
  induction rounds generalizing i with
  | zero => exact .failure
  | succ rounds ih =>
    rw [liballocMemset, liballocMemset]
    exact .ite (.bind_right fun _ => ih (i + 1)) .refl

theorem minorLoop_extends (size reqSize maj : U64) (rounds : ℕ) (min : U64) :
    Extends (minorLoop m size reqSize maj (rounds + 1) min)
      (minorLoop m size reqSize maj rounds min) := by
  induction rounds generalizing min with
  | zero => exact .failure
  | succ rounds ih =>
    rw [minorLoop, minorLoop]
    refine .ite .refl (.bind_right fun r => ?_)
    cases r with
    | some p => exact .refl
    | none =>
      refine .bind_right fun r => ?_
      cases r with
      | some p => exact .refl
      | none => exact .bind_right fun next => ih next

theorem place_extends (rounds : ℕ) (size reqSize maj : U64) :
    Extends (place m (rounds + 1) size reqSize maj) (place m rounds size reqSize maj) :=
  .bind_right fun first => .ite .refl (.ite .refl (minorLoop_extends size reqSize maj rounds first))

theorem majorLoop_extends (size reqSize : U64) (rounds : ℕ) (maj : U64) (startedBet : Bool)
    (bestSize : U64) : Extends (majorLoop m size reqSize (rounds + 1) maj startedBet bestSize)
      (majorLoop m size reqSize rounds maj startedBet bestSize) := by
  induction rounds generalizing maj startedBet bestSize with
  | zero => exact .failure
  | succ rounds ih =>
    rw [majorLoop, majorLoop]
    refine .ite .refl (.bind_right fun diff => .bind_right fun best => .bind_right fun turn => ?_)
    cases turn with
    | hop maj startedBet => exact ih maj startedBet best
    | noMemory => exact .refl
    | fits maj =>
      refine .bind (place_extends rounds size reqSize maj) fun r => ?_
      cases r with
      | some p => exact .refl
      | none =>
        refine .bind_right fun next => ?_
        cases next with
        | some next => exact ih next.1 next.2 best
        | none => exact .refl

theorem kmalloc_extends (rounds : ℕ) (reqSize : U64) :
    Extends (kmalloc m (rounds + 1) reqSize) (kmalloc m rounds reqSize) := by
  induction rounds generalizing reqSize with
  | zero => exact .failure
  | succ rounds ih =>
    rw [kmalloc, kmalloc]
    refine .bind_right fun _ => .ite (.bind_right fun _ => .bind_right fun _ => ih 1) ?_
    refine .bind_right fun root => .ite .refl (.bind_right fun start => ?_)
    exact majorLoop_extends _ _ _ _ _ _

/-- One round more. -/
theorem HeapCall.run_succ_extends (call : HeapCall) (rounds : ℕ) :
    Extends (call.run m (rounds + 1)) (call.run m rounds) := by
  cases call with
  | kmalloc reqSize => exact .map (kmalloc_extends rounds reqSize)
  | kfree ptr => exact .refl
  | kcalloc nobj size =>
    refine .map (.bind (kmalloc_extends rounds _) fun p => .bind (.inner ?_) fun _ => .refl)
    exact liballocMemset_extends p 0 _ rounds 0
  | krealloc p size =>
    refine .map (.ite .refl (.ite (kmalloc_extends rounds size) ?_))
    refine .bind_right fun ptr => .bind_right fun _ => .bind_right fun magic => .ite .refl ?_
    refine .bind_right fun realSize => .ite .refl (.bind_right fun _ => ?_)
    exact .bind (kmalloc_extends rounds size) fun _ => .refl

/-- **The rounds are a bound and nothing else**: a call that returns, returns the same with more
of them. -/
theorem HeapCall.run_extends (call : HeapCall) {rounds rounds' : ℕ} (h : rounds ≤ rounds') :
    Extends (call.run m rounds') (call.run m rounds) := by
  induction h with
  | refl => exact .refl
  | step _ ih => exact (call.run_succ_extends _).trans ih

end Liballoc
