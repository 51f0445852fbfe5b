/-
# The heap's lock and the interrupt flag

The lock of the heap is `cli` and `sti`.  It does not look at the flag it finds: a call that
takes the lock ends with interrupts on.

* `HeapCall.takesLock` : whether a call gets as far as the lock;
* `run_flag` : the flag a call that returns leaves behind;
* `flag_kept_iff` : the calls that leave it as they found it.
-/
import FzzOS.Liballoc

namespace Liballoc

open Program

variable {μ : Type} {m : Platform μ} {f : Bool} {P : Interruptible μ → Prop}

/-! ## The lock -/

/-- Interrupts are on. -/
def On {α : Type} : α → Interruptible μ → Prop := fun _ s => s.1 = true

/-- If a program returns a pointer, interrupts are on. -/
def OnIfSome {α : Type} (r : Option α) (s : Interruptible μ) : Prop := r.isSome → s.1 = true

theorem liballocUnlock_spec : Triple P liballocUnlock On := by
  intro s a s' _ hrun
  obtain ⟨-, rfl⟩ := Prod.mk.inj (Option.some.inj hrun)
  rfl

/-- Every way out is `liballoc_unlock(); return r`. -/
theorem unlock_return {α : Type} {r : α} :
    Triple P (liballocUnlock >>= fun _ => pure r) On :=
  .bind liballocUnlock_spec fun _ => .pure fun _ h => h

theorem unlock_return_some {α : Type} {r : Option α} :
    Triple P (liballocUnlock >>= fun _ => pure r) OnIfSome :=
  unlock_return.mono (fun _ h => h) fun _ _ h _ => h

/-! ## `kmalloc` -/

theorem minorLoop_spec (size reqSize maj : U64) (rounds : ℕ) (min : U64) :
    Triple P (minorLoop m size reqSize maj rounds min) OnIfSome := by
  induction rounds generalizing min P with
  | zero => exact .failure
  | succ rounds ih =>
    rw [minorLoop]
    refine .ite (fun _ => .pure fun _ _ h => absurd h Bool.false_ne_true) fun _ => .anyway fun r => ?_
    cases r with
    | some p => exact unlock_return_some
    | none =>
      refine .anyway fun r => ?_
      cases r with
      | some p => exact unlock_return_some
      | none => exact .anyway fun next => ih next

theorem place_spec (rounds : ℕ) (size reqSize maj : U64) :
    Triple P (place m rounds size reqSize maj) OnIfSome := by
  refine .anyway fun first => .ite (fun _ => .anyway fun p => unlock_return_some) fun _ => ?_
  exact .ite (fun _ => .anyway fun p => unlock_return_some) fun _ =>
    minorLoop_spec size reqSize maj rounds first

theorem majorLoop_spec (size reqSize : U64) (rounds : ℕ) (maj : U64) (startedBet : Bool)
    (bestSize : U64) : Triple P (majorLoop m size reqSize rounds maj startedBet bestSize) On := by
  induction rounds generalizing maj startedBet bestSize P with
  | zero => exact .failure
  | succ rounds ih =>
    rw [majorLoop]
    refine .ite (fun _ => unlock_return) fun _ => .anyway fun diff => .anyway fun best =>
      .anyway fun turn => ?_
    cases turn with
    | hop maj startedBet => exact ih maj startedBet best
    | noMemory => exact unlock_return
    | fits maj =>
      refine .bind (place_spec rounds size reqSize maj) fun r => ?_
      cases r with
      | some p => exact .pure fun s h => h rfl
      | none =>
        refine .anyway fun next => ?_
        cases next with
        | some next => exact ih next.1 next.2 best
        | none => exact unlock_return

theorem kmalloc_spec (rounds : ℕ) (reqSize : U64) :
    Triple P (kmalloc m rounds reqSize) On := by
  induction rounds generalizing reqSize P with
  | zero => exact .failure
  | succ rounds ih =>
    rw [kmalloc]
    refine .anyway fun _ => .ite (fun _ => ?_) fun _ => .anyway fun root => ?_
    · exact .anyway fun _ => .anyway fun _ => ih 1
    · exact .ite (fun _ => unlock_return) fun _ => .anyway fun start =>
        majorLoop_spec _ _ _ _ _ _

/-! ## The other calls -/

theorem kfree_spec {ptr : U64} (hptr : ptr ≠ 0) : Triple P (kfree m ptr) On := by
  rw [kfree, if_neg hptr]
  refine .anyway fun ptr => .anyway fun _ => .anyway fun magic => ?_
  exact .ite (fun _ => .anyway fun _ => liballocUnlock_spec) fun _ =>
    .anyway fun _ => liballocUnlock_spec

/-- `kfree(NULL)` returns before the lock. -/
theorem kfree_null_spec : Triple (fun s => s.1 = f) (kfree m 0) fun _ s => s.1 = f := by
  rw [kfree, if_pos rfl]
  exact .inner (· = f)

theorem kcalloc_spec (rounds : ℕ) (nobj size : U64) :
    Triple P (kcalloc m rounds nobj size) On :=
  .bind (kmalloc_spec rounds _) fun _ => .bind (.inner (· = true)) fun _ => .pure fun _ h => h

theorem krealloc_spec (rounds : ℕ) {p size : U64} (h : p ≠ 0 ∨ size ≠ 0) :
    Triple P (krealloc m rounds p size) On := by
  rw [krealloc]
  refine .ite (fun hsize => ?_) fun _ => .ite (fun _ => kmalloc_spec rounds size) fun hp => ?_
  · exact .bind (kfree_spec (h.resolve_right (not_not.mpr hsize))) fun _ => .pure fun _ h => h
  · refine .anyway fun ptr => .anyway fun _ => .anyway fun magic => .ite (fun _ => ?_) fun _ => ?_
    · exact .anyway fun _ => unlock_return
    · refine .anyway fun realSize => .ite (fun _ => .anyway fun _ => unlock_return) fun _ => ?_
      refine .anyway fun _ => .anyway fun ptr => .anyway fun _ => ?_
      exact .bind (kfree_spec hp) fun _ => .pure fun _ h => h

theorem krealloc_null_spec (rounds : ℕ) :
    Triple (fun s => s.1 = f) (krealloc m rounds 0 0) fun _ s => s.1 = f := by
  rw [krealloc, if_pos rfl]
  exact .bind kfree_null_spec fun _ => .pure fun _ h => h

/-! ## All calls -/

/-- A call that gets as far as the lock. -/
def HeapCall.takesLock : HeapCall → Bool
  | .kmalloc _ => true
  | .kfree ptr => ptr ≠ 0
  | .kcalloc _ _ => true
  | .krealloc p size => p ≠ 0 ∨ size ≠ 0

/-- A call that takes the lock leaves interrupts on, any other call the flag as it was. -/
theorem run_flag (m : Platform μ) (rounds : ℕ) (call : HeapCall) :
    Triple (fun s => s.1 = f) (call.run m rounds) fun _ s => s.1 = (call.takesLock || f) := by
  cases call with
  | kmalloc reqSize => exact .map (kmalloc_spec rounds reqSize)
  | kcalloc nobj size => exact .map (kcalloc_spec rounds nobj size)
  | kfree ptr =>
    by_cases hptr : ptr = 0
    · subst hptr
      exact .map kfree_null_spec
    · have hlock : (HeapCall.kfree ptr).takesLock = true := decide_eq_true hptr
      rw [hlock, Bool.true_or]
      exact .map (kfree_spec hptr)
  | krealloc p size =>
    by_cases h : p ≠ 0 ∨ size ≠ 0
    · have hlock : (HeapCall.krealloc p size).takesLock = true := decide_eq_true h
      rw [hlock, Bool.true_or]
      exact .map (krealloc_spec rounds h)
    · obtain ⟨rfl, rfl⟩ : p = 0 ∧ size = 0 := by simpa only [not_or, not_not] using h
      exact .map (krealloc_null_spec rounds)

theorem takesLock_eq_false_iff {call : HeapCall} :
    call.takesLock = false ↔ call = .kfree 0 ∨ call = .krealloc 0 0 := by
  cases call <;> simp [HeapCall.takesLock]

/-- **The flag is kept exactly if interrupts were on or the lock is never taken.** -/
theorem flag_kept_iff (m : Platform μ) (rounds : ℕ) (call : HeapCall) {s s' : Interruptible μ}
    {r : Option U64} (hrun : call.run m rounds s = some (r, s')) :
    s'.1 = s.1 ↔ s.1 = true ∨ call = .kfree 0 ∨ call = .krealloc 0 0 := by
  rw [run_flag m rounds call s r s' rfl hrun, ← takesLock_eq_false_iff]
  cases call.takesLock <;> cases s.1 <;> simp

/-! ## A call with interrupts off -/

/-- The first 2 MiB mapped to themselves, and at 0x10000 a major block of 16 pages without
pieces. -/
def lowMemory : Mem := fun f i =>
  if f = 1 ∧ i.val = 0 then 0x2003
  else if f = 2 ∧ i.val = 0 then 0x3003
  else if f = 3 ∧ i.val = 0 then 0x83
  else if f = 16 ∧ i.val = 2 then 0x0001000000000010
  else if f = 16 ∧ i.val = 3 then 40
  else 0

/-- The heap of this one block. -/
def emptyBlock : Heap (Vmm.Heap Unit) where
  mem := { machine := { mem := lowMemory, pmm := (), log := [] }
           kernelHeapTop := Vmm.kernelHeapStart }
  lMemRoot := 0x10000
  lBestBet := 0
  lAllocated := 0x10000
  lInuse := 0
  lWarningCount := 0
  lErrorCount := 0
  lPossibleOverruns := 0

/-- The kernel with the root table in frame 1 and no free frame. -/
def lowKernel : Platform (Vmm.Heap Unit) := kernel (fun mem pmm => (0, mem, pmm)) 1

/-- The block is big enough for `kmalloc(16)`, which returns with interrupts on. -/
theorem exists_kmalloc : ∃ s', (HeapCall.kmalloc 16).run lowKernel 3 (false, emptyBlock)
    = some (some 0x10060, s') ∧ s'.1 = true := by
  have hrun : ((HeapCall.kmalloc 16).run lowKernel 3 (false, emptyBlock)).map
      (fun r => (r.1, r.2.1)) = some (some 0x10060, true) := by decide +kernel
  obtain ⟨⟨p, s'⟩, hs', h⟩ := Option.map_eq_some_iff.mp hrun
  obtain ⟨rfl, hflag⟩ := Prod.mk.inj h
  exact ⟨s', hs', hflag⟩

theorem flag_kept_iff_kmalloc : ∃ r s',
    (HeapCall.kmalloc 16).run lowKernel 3 (false, emptyBlock) = some (r, s') ∧
    (s'.1 = false ↔
      false = true ∨ HeapCall.kmalloc 16 = .kfree 0 ∨ HeapCall.kmalloc 16 = .krealloc 0 0) := by
  obtain ⟨s', hrun, -⟩ := exists_kmalloc
  exact ⟨_, s', hrun, flag_kept_iff lowKernel 3 (.kmalloc 16) hrun⟩

/-- `kmalloc(16)`, called with interrupts off, turns them on. -/
theorem flag_not_kept : ¬ ∀ (rounds : ℕ) (call : HeapCall) (s s' : Interruptible (Vmm.Heap Unit))
    (r : Option U64), call.run lowKernel rounds s = some (r, s') → s'.1 = s.1 := by
  intro h
  obtain ⟨s', hrun, hflag⟩ := exists_kmalloc
  have hkept := h 3 (.kmalloc 16) (false, emptyBlock) s' _ hrun
  rw [hflag] at hkept
  exact absurd hkept (by decide)

end Liballoc
