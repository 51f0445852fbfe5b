/-
# Interrupt frames

The way of an interrupt through `idt.asm`: the gate that `idt_init` has set for its vector,
the stub of the vector, the registers pushed by `_interrupt_common`, and back.

* `gate_of_vector` : the gate of a vector leads to the stub of that vector;
* `enter_holds` : what lies on the stack when `interrupt_handler` is called;
* `transparent_iff` : the frame describes what was interrupted, and the return resumes it,
  for every vector except 21 and 29, whose stubs push an error code of their own below the
  processor's.
-/
import FzzOS.InterruptHandler
import FzzOS.X86

open StackWords X86

namespace Interrupts

/-! ## The descriptor table -/

/-- `struct idt_entry`. -/
structure IdtEntry where
  base15_0 : U16
  kernelCs : U16
  ist : U8
  attributes : U8
  base31_16 : U16
  base63_32 : U32
  reserved : U32

/-- `create_descriptor`. -/
def createDescriptor (index : ℕ) (isr : U64) (ist cs attr : U8) (idt : ℕ → IdtEntry) :
    ℕ → IdtEntry :=
  Function.update idt index
    { base15_0 := (isr &&& 0xFFFF).setWidth 16
      base31_16 := ((isr >>> 16) &&& 0xFFFF).setWidth 16
      base63_32 := ((isr >>> 32) &&& 0xFFFFFFFF).setWidth 32
      ist := ist
      kernelCs := cs.setWidth 16
      attributes := attr
      reserved := 0 }

/-- The vectors in `isr_stub_table`, in its order. -/
def isrStubTable : List ℕ := List.range 48 ++ [127, 128]

/-- The descriptor part of `idt_init`.  The linker puts the stub of vector `n` at `isr n`. -/
def idtGates (isr : ℕ → U64) (idt : ℕ → IdtEntry) : ℕ → IdtEntry :=
  let stub := fun i => isr (isrStubTable.getD i 0)
  let idt := (List.range 47).foldl
    (fun idt index => createDescriptor index (stub index) 0x00 0x08 0x8E idt) idt
  let idt := createDescriptor 127 (stub 48) 0x00 0x08 0x8E idt
  createDescriptor 128 (stub 49) 0x00 0x08 0x8E idt

/-- The address a gate leads to, as the processor puts it together. -/
def IdtEntry.address (e : IdtEntry) : U64 := e.base63_32 ++ e.base31_16 ++ e.base15_0

/-! ## The stubs -/

/-- `INT_ERR`, up to the jump. -/
def intErr (n : ℕ) : List Instr := [.pushImm (BitVec.ofNat 64 n)]

/-- `INT_NOERR`, up to the jump. -/
def intNoerr (n : ℕ) : List Instr := [.pushImm 0, .pushImm (BitVec.ofNat 64 n)]

/-- The vectors with an `INT_ERR` stub. -/
def errVectors : List ℕ := [8, 10, 11, 12, 13, 14, 17, 30]

/-- `_interrupt%1`. -/
def stub (n : ℕ) : List Instr := if n ∈ errVectors then intErr n else intNoerr n

/-- The registers of `_pushaq`, in its order. -/
def pushaqRegs : List Reg :=
  [.rax, .rbx, .rcx, .rdx, .rsi, .rdi, .rbp, .r8, .r9, .r10, .r11, .r12, .r13, .r14, .r15]

/-- The registers of `_popaq`, in its order. -/
def popaqRegs : List Reg :=
  [.r15, .r14, .r13, .r12, .r11, .r10, .r9, .r8, .rbp, .rdi, .rsi, .rdx, .rcx, .rbx, .rax]

/-- `_interrupt_common` up to the call. -/
def interruptCommonEntry : List Instr := .cld :: pushaqRegs.map .push ++ [.mov .rdi .rsp]

/-- `_interrupt_common` from the return on, up to `iretq`. -/
def interruptCommonExit : List Instr :=
  .mov .rsp .rax :: popaqRegs.map .pop ++ [.addImm .rsp 16]

/-- The kernel as it is linked: where the stubs are, and the code that lies at an
address, up to the call of `interrupt_handler`. -/
structure Image where
  isr : ℕ → U64
  code : U64 → List Instr
  code_isr : ∀ n ∈ isrStubTable, code (isr n) = stub n ++ interruptCommonEntry

/-! ## An interrupt -/

/-- The vectors with a gate. -/
abbrev InterruptVector := { n : ℕ // n < 47 ∨ n = 127 ∨ n = 128 }

/-- The vectors for which the processor pushes an error code. -/
def pushesError (n : ℕ) : Prop := n ∈ [8, 10, 11, 12, 13, 14, 17, 21, 29, 30]

instance (n : ℕ) : Decidable (pushesError n) := inferInstanceAs (Decidable (_ ∈ _))

/-- The error code, if the processor pushes one. -/
def errorWords (n : ℕ) (error : U64) : List U64 := if pushesError n then [error] else []

/-- From the interrupted state `s` to the call of `interrupt_handler`: the processor pushes
from `top` down, and the code behind the gate runs. -/
def enter (im : Image) (idt : ℕ → IdtEntry) (n : ℕ) (error top : U64) (s : Cpu) : Cpu :=
  let gate := idtGates im.isr idt n
  run (im.code gate.address) (deliver gate.address gate.kernelCs top (errorWords n error) s)

/-- From the return of `interrupt_handler` on. -/
def leave (t : Cpu) : Cpu := iretq (run interruptCommonExit t)

/-! ## The frame -/

/-- The frame in 22 words, the lowest first. -/
def ofWords (w : ℕ → U64) : InterruptStackFrame :=
  ⟨w 0, w 1, w 2, w 3, w 4, w 5, w 6, w 7, w 8, w 9, w 10, w 11, w 12, w 13, w 14, w 15, w 16,
    w 17, w 18, w 19, w 20, w 21⟩

/-- The frame at an address. -/
def frameAt (m : Bytes) (a : U64) : InterruptStackFrame :=
  ofWords fun i => read m (a + BitVec.ofNat 64 (8 * i))

/-- What the frame should say of an interrupt in state `s`. -/
def interrupted (n : ℕ) (error : U64) (s : Cpu) : InterruptStackFrame where
  r15 := s.reg .r15
  r14 := s.reg .r14
  r13 := s.reg .r13
  r12 := s.reg .r12
  r11 := s.reg .r11
  r10 := s.reg .r10
  r9 := s.reg .r9
  r8 := s.reg .r8
  rbp := s.reg .rbp
  rdi := s.reg .rdi
  rsi := s.reg .rsi
  rdx := s.reg .rdx
  rcx := s.reg .rcx
  rbx := s.reg .rbx
  rax := s.reg .rax
  intNo := BitVec.ofNat 64 n
  errNo := if pushesError n then error else 0
  rip := s.rip
  cs := s.cs.setWidth 64
  rflags := s.rflags
  rsp := s.reg .rsp
  ss := s.ss.setWidth 64

/-- A return of `interrupt_handler` in state `t`, with the value it returns, from a call in
state `e`.  The compiled code leaves the 176 bytes of the frame alone. -/
def Returns {σ : Type} (past : U8) (k : Kernel σ) (e t : Cpu) : Prop :=
  (∃ k', interruptHandler past (frameAt e.mem (e.reg .rdi)) (e.reg .rdi) k
    = (some (t.reg .rax), k')) ∧
  ∀ i < 176, t.mem (e.reg .rdi + BitVec.ofNat 64 i) = e.mem (e.reg .rdi + BitVec.ofNat 64 i)

/-- The processor goes on in state `u` as it was in `s`. -/
structure Resumed (s u : Cpu) : Prop where
  reg : u.reg = s.reg
  rip : u.rip = s.rip
  cs : u.cs = s.cs
  rflags : u.rflags = s.rflags
  ss : u.ss = s.ss

/-- The frame describes the interrupted state, and every return resumes it. -/
structure Transparent {σ : Type} (im : Image) (idt : ℕ → IdtEntry) (n : ℕ) (error top : U64)
    (s : Cpu) (past : U8) (k : Kernel σ) : Prop where
  described :
    let e := enter im idt n error top s
    frameAt e.mem (e.reg .rdi) = interrupted n error s
  resumed : ∀ t, Returns past k (enter im idt n error top s) t → Resumed s (leave t)

/-! ## The gate -/

variable {im : Image} {idt : ℕ → IdtEntry} {n : ℕ} {error top : U64} {s t : Cpu}

/-- The three parts of an address are the address. -/
theorem address_createDescriptor (index : ℕ) (isr : U64) (ist cs attr : U8) :
    (createDescriptor index isr ist cs attr idt index).address = isr := by
  have hlow : (0xFFFF : U64) = (BitVec.allOnes 16).setWidth 64 := rfl
  have hhigh : (0xFFFFFFFF : U64) = (BitVec.allOnes 32).setWidth 64 := rfl
  rw [createDescriptor, Function.update_self, IdtEntry.address]
  dsimp only
  rw [hlow, hhigh]
  refine BitVec.eq_of_getLsbD_eq fun i hi => ?_
  simp only [BitVec.getLsbD_append, BitVec.getLsbD_setWidth, BitVec.getLsbD_and,
    BitVec.getLsbD_ushiftRight, BitVec.getLsbD_allOnes]
  grind

/-- The entry written does not depend on the rest of the table. -/
theorem createDescriptor_self (idt idt' : ℕ → IdtEntry) (index : ℕ) (isr : U64)
    (ist cs attr : U8) :
    createDescriptor index isr ist cs attr idt index
      = createDescriptor index isr ist cs attr idt' index := by
  rw [createDescriptor, createDescriptor, Function.update_self, Function.update_self]

theorem createDescriptor_of_ne {index : ℕ} (h : n ≠ index) (isr : U64) (ist cs attr : U8) :
    createDescriptor index isr ist cs attr idt n = idt n :=
  Function.update_of_ne h ..

/-- The gates of the loop. -/
theorem loop_gate (stub : ℕ → U64) {m : ℕ} (h : n < m) :
    ((List.range m).foldl
      (fun idt index => createDescriptor index (stub index) 0x00 0x08 0x8E idt) idt) n
      = createDescriptor n (stub n) 0x00 0x08 0x8E idt n := by
  induction m with
  | zero => exact absurd h (Nat.not_lt_zero n)
  | succ m ih =>
    rw [List.range_succ, List.foldl_append, List.foldl_cons, List.foldl_nil]
    by_cases hm : n = m
    · subst hm
      exact createDescriptor_self ..
    · rw [createDescriptor_of_ne hm, ih (by omega)]

/-- **The gate of a vector** is an interrupt gate of the kernel that leads to the vector's
stub. -/
theorem gate_of_vector (isr : ℕ → U64) (idt : ℕ → IdtEntry) (v : InterruptVector) :
    idtGates isr idt v.1 = createDescriptor v.1 (isr v.1) 0x00 0x08 0x8E idt v.1 := by
  obtain ⟨n, hn⟩ := v
  dsimp only
  rw [idtGates]
  dsimp only
  rcases hn with hn | rfl | rfl
  · rw [createDescriptor_of_ne (by omega), createDescriptor_of_ne (by omega), loop_gate _ hn]
    have hstub : isrStubTable.getD n 0 = n := by
      rw [isrStubTable, List.getD_eq_getElem?_getD, List.getElem?_append_left (by simp; omega),
        List.getElem?_range (by omega)]
      rfl
    rw [hstub]
  · rw [createDescriptor_of_ne (by decide)]
    exact createDescriptor_self ..
  · exact createDescriptor_self ..

theorem mem_isrStubTable (v : InterruptVector) : v.1 ∈ isrStubTable := by
  obtain ⟨n, hn⟩ := v
  rw [isrStubTable, List.mem_append, List.mem_range]
  rcases hn with hn | rfl | rfl
  · exact Or.inl (hn.trans (by decide))
  · exact Or.inr (by decide)
  · exact Or.inr (by decide)

/-! ## What lies on the stack -/

/-- The words of the stub, the upper one last. -/
def stubWords (n : ℕ) : List U64 :=
  if n ∈ errVectors then [BitVec.ofNat 64 n] else [BitVec.ofNat 64 n, 0]

/-- What the processor pushes first. -/
def stateWords (s : Cpu) : List U64 :=
  [s.rip, s.cs.setWidth 64, s.rflags, s.reg .rsp, s.ss.setWidth 64]

/-- All of it, from the top of the stack on. -/
def stackWords (n : ℕ) (error : U64) (s : Cpu) : List U64 :=
  popaqRegs.map s.reg ++ (stubWords n ++ (errorWords n error ++ stateWords s))

theorem length_stubWords_le (n : ℕ) : (stubWords n).length ≤ 2 := by
  unfold stubWords
  split
  · exact Nat.le_succ 1
  · exact le_refl 2

theorem length_errorWords_le (n : ℕ) (error : U64) : (errorWords n error).length ≤ 1 := by
  unfold errorWords
  split
  · exact le_refl 1
  · exact Nat.zero_le 1

theorem run_stub (n : ℕ) (s : Cpu) : run (stub n) s = s.pushWords (stubWords n).reverse := by
  unfold stub stubWords
  split
  · rfl
  · rfl

/-- The common part pushes the registers and hands the handler the stack pointer. -/
theorem run_interruptCommonEntry (s : Cpu) :
    (run interruptCommonEntry s).mem = (s.pushWords (pushaqRegs.map s.reg)).mem ∧
      (run interruptCommonEntry s).reg .rdi
        = (s.pushWords (pushaqRegs.map s.reg)).reg .rsp := by
  set s₁ : Cpu := Instr.cld.exec s with hs₁
  have hpush : run (pushaqRegs.map .push) s₁ = s₁.pushWords (pushaqRegs.map s₁.reg) :=
    run_pushes (by decide)
  have hrun : run interruptCommonEntry s
      = (run (pushaqRegs.map .push) s₁).set .rdi ((run (pushaqRegs.map .push) s₁).reg .rsp) := by
    rw [interruptCommonEntry, List.cons_append, run_cons, run_append]
    rfl
  rw [hrun, set_mem, set_reg_self, hpush]
  exact ⟨rfl, rfl⟩

/-- What the processor pushes. -/
theorem deliver_holds (target : U64) (selector : U16) (top : U64) (n : ℕ) (error : U64)
    (s : Cpu) :
    let d := deliver target selector top (errorWords n error) s
    Holds d.mem (d.reg .rsp) (errorWords n error ++ stateWords s) := by
  have hlen := length_errorWords_le n error
  have hreverse : (errorWords n error).reverse = errorWords n error := by
    unfold errorWords
    split
    · rfl
    · rfl
  dsimp only
  rw [deliver_mem, deliver_reg]
  set saved := [s.ss.setWidth 64, s.reg .rsp, s.rflags, s.cs.setWidth 64, s.rip] with hsaved
  have hpush := holds_pushWords (s := s.set .rsp top) (saved ++ errorWords n error)
    (show Holds _ _ [] from trivial) (by
      rw [List.length_append, List.length_nil, hsaved, List.length_cons, List.length_cons,
        List.length_cons, List.length_cons, List.length_cons, List.length_nil]
      omega)
  rwa [List.append_nil, List.reverse_append, hreverse] at hpush

theorem deliver_reg_of_ne {r : Reg} (hr : r ≠ .rsp) (target : U64) (selector : U16)
    (top : U64) (errors : List U64) (s : Cpu) :
    (deliver target selector top errors s).reg r = s.reg r := by
  rw [deliver_reg, pushWords_reg_of_ne hr, set_reg_of_ne hr]

/-- What the stub and the common part push. -/
theorem stub_holds (n : ℕ) {d : Cpu} {ws : List U64} (h : Holds d.mem (d.reg .rsp) ws)
    (hws : ws.length ≤ 6) :
    Holds (run (stub n ++ interruptCommonEntry) d).mem
      ((run (stub n ++ interruptCommonEntry) d).reg .rdi)
      (popaqRegs.map d.reg ++ (stubWords n ++ ws)) := by
  have hlen := length_stubWords_le n
  set d₁ : Cpu := d.pushWords (stubWords n).reverse with hd₁
  have hstub : Holds d₁.mem (d₁.reg .rsp) (stubWords n ++ ws) := by
    have hpush := holds_pushWords (stubWords n).reverse h
      (by rw [List.length_reverse]; omega)
    rwa [List.reverse_reverse] at hpush
  have hregs : (pushaqRegs.map d₁.reg).reverse = popaqRegs.map d.reg := by
    have hsame : pushaqRegs.map d₁.reg = pushaqRegs.map d.reg := by
      refine List.map_congr_left fun r hr => pushWords_reg_of_ne ?_
      rintro rfl
      exact absurd hr (by decide)
    rw [hsame]
    rfl
  have hcount : (pushaqRegs.map d₁.reg).length = 15 := List.length_map _
  obtain ⟨hmem, hrdi⟩ := run_interruptCommonEntry d₁
  rw [run_append, run_stub, ← hd₁, hmem, hrdi, ← hregs]
  exact holds_pushWords _ hstub (by rw [hcount, List.length_append]; omega)

/-- **The stack at the call**, for every vector. -/
theorem enter_holds (im : Image) (idt : ℕ → IdtEntry) (v : InterruptVector) (error top : U64)
    (s : Cpu) :
    let e := enter im idt v.1 error top s
    Holds e.mem (e.reg .rdi) (stackWords v.1 error s) := by
  have haddress : (idtGates im.isr idt v.1).address = im.isr v.1 := by
    rw [gate_of_vector, address_createDescriptor]
  have hlen : (errorWords v.1 error ++ stateWords s).length ≤ 6 := by
    have herror := length_errorWords_le v.1 error
    have hstate : (stateWords s).length = 5 := rfl
    rw [List.length_append, hstate]
    omega
  set d : Cpu := deliver (im.isr v.1) (idtGates im.isr idt v.1).kernelCs top
    (errorWords v.1 error) s with hd
  have hregs : popaqRegs.map d.reg = popaqRegs.map s.reg := by
    refine List.map_congr_left fun r hr => deliver_reg_of_ne ?_ ..
    rintro rfl
    exact absurd hr (by decide)
  have henter : enter im idt v.1 error top s = run (stub v.1 ++ interruptCommonEntry) d := by
    rw [enter, haddress, im.code_isr v.1 (mem_isrStubTable v)]
  dsimp only
  rw [henter, stackWords, ← hregs]
  exact stub_holds v.1 (deliver_holds ..) hlen

/-! ## The frame describes -/

/-- The words of a frame. -/
def frameWords (f : InterruptStackFrame) : List U64 :=
  [f.r15, f.r14, f.r13, f.r12, f.r11, f.r10, f.r9, f.r8, f.rbp, f.rdi, f.rsi, f.rdx, f.rcx,
    f.rbx, f.rax, f.intNo, f.errNo, f.rip, f.cs, f.rflags, f.rsp, f.ss]

theorem holds_frameAt (m : Bytes) (a : U64) : Holds m a (frameWords (frameAt m a)) :=
  holds_range m a 22

theorem ofWords_congr {w w' : ℕ → U64} (h : ∀ i < 22, w i = w' i) : ofWords w = ofWords w' := by
  unfold ofWords
  congr 1
  all_goals exact h _ (by decide)

theorem frameAt_of_holds {m : Bytes} {a : U64} {ws : List U64} (h : Holds m a ws)
    (hlen : 22 ≤ ws.length) : frameAt m a = ofWords fun i => ws.getD i 0 := by
  refine ofWords_congr fun i hi => ?_
  have hlt : i < ws.length := by omega
  rw [h.read_eq hlt, List.getD_eq_getElem ws 0 hlt]

/-- The stubs agree with the processor about the error code, for all vectors but two. -/
theorem pushesError_iff (n : ℕ) : pushesError n ↔ n ∈ errVectors ∨ n = 21 ∨ n = 29 := by
  simp only [pushesError, errVectors, List.mem_cons, List.not_mem_nil, or_false]
  omega

theorem errVectors_ne (h : n ∈ errVectors) : n ≠ 21 ∧ n ≠ 29 := by
  constructor
  · rintro rfl
    exact absurd h (by decide)
  · rintro rfl
    exact absurd h (by decide)

theorem length_stackWords (n : ℕ) (error : U64) (s : Cpu) :
    22 ≤ (stackWords n error s).length := by
  have hpopaq : (popaqRegs.map s.reg).length = 15 := List.length_map _
  have hstate : (stateWords s).length = 5 := rfl
  have hmiddle : 2 ≤ (stubWords n).length + (errorWords n error).length := by
    unfold stubWords errorWords
    by_cases herr : n ∈ errVectors
    · rw [if_pos herr, if_pos ((pushesError_iff n).mpr (Or.inl herr))]
      exact le_refl 2
    · rw [if_neg herr]
      exact Nat.le_add_right 2 _
  rw [stackWords, List.length_append, List.length_append, List.length_append, hpopaq, hstate]
  omega

/-- What the frame says if the processor and the stub both push an error code: the stub's
zero lies where the error code belongs. -/
def shifted (n : ℕ) (error : U64) (s : Cpu) : InterruptStackFrame :=
  { interrupted n error s with
    errNo := 0
    rip := error
    cs := s.rip
    rflags := s.cs.setWidth 64
    rsp := s.rflags
    ss := s.reg .rsp }

theorem ofWords_shifted (error : U64) (s : Cpu) (herr : n ∉ errVectors) (hyes : pushesError n) :
    (ofWords fun i => (stackWords n error s).getD i 0) = shifted n error s := by
  rw [shifted, interrupted, stackWords, stubWords, errorWords, if_neg herr, if_pos hyes]
  rfl

theorem shifted_eq_iff (error : U64) (s : Cpu) (hyes : pushesError n) :
    shifted n error s = interrupted n error s ↔
      error = 0 ∧ s.rip = 0 ∧ s.cs = 0 ∧ s.rflags = 0 ∧ s.reg .rsp = 0 ∧ s.ss = 0 := by
  have hwide : ∀ x : U16, x.setWidth 64 = (0 : U64) → x = 0 := by
    intro x hx
    bv_omega
  rw [shifted, interrupted, if_pos hyes]
  simp only [InterruptStackFrame.mk.injEq, true_and]
  constructor
  · -- each field equals the next, from the stub's zero on
    rintro ⟨rfl, hrip, hcs, hrflags, hrsp, hss⟩
    rw [← hrip] at hcs
    rw [← hcs] at hrflags
    rw [← hrflags] at hrsp
    rw [← hrsp] at hss
    exact ⟨rfl, hrip.symm, hwide _ hcs.symm, hrflags.symm, hrsp.symm, hwide _ hss.symm⟩
  · rintro ⟨rfl, hrip, hcs, hrflags, hrsp, hss⟩
    rw [hrip, hcs, hrflags, hrsp, hss]
    exact ⟨rfl, rfl, rfl, rfl, rfl, rfl⟩

/-- The frame is right for every vector but two, and for these if there is nothing in it
that a shift by one word would show. -/
theorem stackWords_described_iff (n : ℕ) (error : U64) (s : Cpu) :
    (ofWords fun i => (stackWords n error s).getD i 0) = interrupted n error s ↔
      (n ≠ 21 ∧ n ≠ 29) ∨ (error = 0 ∧ s.rip = 0 ∧ s.cs = 0 ∧ s.rflags = 0 ∧ s.reg .rsp = 0 ∧
        s.ss = 0) := by
  have hpushes := pushesError_iff n
  by_cases herr : n ∈ errVectors
  · have hyes : pushesError n := hpushes.mpr (Or.inl herr)
    refine iff_of_true ?_ (Or.inl (errVectors_ne herr))
    rw [interrupted, stackWords, stubWords, errorWords, if_pos herr, if_pos hyes, if_pos hyes]
    rfl
  by_cases htwo : n = 21 ∨ n = 29
  · have hyes : pushesError n := hpushes.mpr (Or.inr htwo)
    have hno : ¬ (n ≠ 21 ∧ n ≠ 29) := by omega
    rw [ofWords_shifted error s herr hyes, or_iff_right hno]
    exact shifted_eq_iff error s hyes
  · have hno : ¬ pushesError n := by
      rw [hpushes]
      tauto
    refine iff_of_true ?_ (Or.inl (by omega))
    rw [interrupted, stackWords, stubWords, errorWords, if_neg herr, if_neg hno, if_neg hno]
    rfl

/-- What the handler finds as its frame. -/
theorem frameAt_enter (im : Image) (idt : ℕ → IdtEntry) (v : InterruptVector)
    (error top : U64) (s : Cpu) :
    let e := enter im idt v.1 error top s
    frameAt e.mem (e.reg .rdi) = ofWords fun i => (stackWords v.1 error s).getD i 0 := by
  exact frameAt_of_holds (enter_holds im idt v error top s) (length_stackWords ..)

/-! ## The return -/

/-- The common part takes the registers back and drops the vector and the error code. -/
theorem run_interruptCommonExit {g : Reg → U64}
    (h : Holds t.mem (t.reg .rax) (popaqRegs.map g)) :
    let u := run interruptCommonExit t
    u.mem = t.mem ∧ ∀ r, u.reg r = if r = .rsp then t.reg .rax + 136 else g r := by
  set t₁ : Cpu := t.set .rsp (t.reg .rax) with ht₁
  have hrsp : t₁.reg .rsp = t.reg .rax := set_reg_self ..
  have hregs : Holds t₁.mem (t₁.reg .rsp) (popaqRegs.map g) := by
    rw [hrsp]
    exact h
  have hpops := run_pops (by decide) hregs
  have hrun : run interruptCommonExit t
      = (Instr.addImm .rsp 16).exec (run (popaqRegs.map .pop) t₁) := by
    rw [interruptCommonExit, List.cons_append, run_cons, run_append]
    rfl
  have hcount : BitVec.ofNat 64 (8 * popaqRegs.length) = 120 := rfl
  dsimp only
  rw [hrun, hpops, Instr.exec]
  refine ⟨rfl, fun r => ?_⟩
  simp only [Cpu.set, Function.update_apply, if_true, hcount, hrsp]
  by_cases hr : r = .rsp
  · rw [if_pos hr, if_pos hr]
    bv_omega
  · have hmem : r ∈ popaqRegs := by
      revert hr
      cases r <;> decide
    rw [if_neg hr, if_neg hr, if_neg hr, if_pos hmem]

/-- The way back, on a stack with a frame at the value the handler returned. -/
theorem leave_resumed (n : ℕ) (error : U64)
    (h : Holds t.mem (t.reg .rax) (frameWords (interrupted n error s))) :
    Resumed s (leave t) := by
  have hwords : frameWords (interrupted n error s) = popaqRegs.map s.reg
      ++ ([BitVec.ofNat 64 n, (interrupted n error s).errNo] ++ stateWords s) := rfl
  rw [hwords] at h
  obtain ⟨hregs, hrest⟩ := holds_append.mp h
  obtain ⟨-, hstate⟩ := holds_append.mp hrest
  have hplace : t.reg .rax + BitVec.ofNat 64 (8 * (popaqRegs.map s.reg).length)
      + BitVec.ofNat 64 (8 * [BitVec.ofNat 64 n, (interrupted n error s).errNo].length)
      = t.reg .rax + 136 := by
    have hcount : (popaqRegs.map s.reg).length = 15 := List.length_map _
    rw [hcount, List.length_cons, List.length_singleton]
    bv_omega
  rw [hplace] at hstate
  obtain ⟨hmem, hreg⟩ := run_interruptCommonExit hregs
  have hrsp := hreg .rsp
  rw [if_pos rfl] at hrsp
  rw [← hmem, ← hrsp] at hstate
  rw [leave, iretq_eq hstate]
  refine ⟨funext fun r => ?_, rfl, rfl, rfl, rfl⟩
  show Function.update (run interruptCommonExit t).reg .rsp (s.reg .rsp) r = s.reg r
  rw [Function.update_apply, hreg]
  by_cases hr : r = .rsp
  · rw [if_pos hr, hr]
  · rw [if_neg hr, if_neg hr]

/-- A frame that describes what was interrupted resumes it. -/
theorem resumed_of_described {σ : Type} {past : U8} {k : Kernel σ} {e : Cpu}
    (hframe : frameAt e.mem (e.reg .rdi) = interrupted n error s) (h : Returns past k e t) :
    Resumed s (leave t) := by
  obtain ⟨⟨k', hcall⟩, hkept⟩ := h
  have hrax : t.reg .rax = e.reg .rdi := interruptHandler_returns hcall
  have hwords := holds_frameAt e.mem (e.reg .rdi)
  rw [hframe] at hwords
  refine leave_resumed n error ?_
  rw [hrax]
  exact hwords.congr fun i hi => hkept i hi

/-- **Transparency.**  For every interrupted state, the frame describes it and the return
resumes it if and only if the vector is neither 21 nor 29, or the error code and all the
processor pushes before it are zero. -/
theorem transparent_iff {σ : Type} (im : Image) (idt : ℕ → IdtEntry) (v : InterruptVector)
    (error top : U64) (s : Cpu) (past : U8) (k : Kernel σ) :
    Transparent im idt v.1 error top s past k ↔
      (v.1 ≠ 21 ∧ v.1 ≠ 29) ∨ (error = 0 ∧ s.rip = 0 ∧ s.cs = 0 ∧ s.rflags = 0 ∧
        s.reg .rsp = 0 ∧ s.ss = 0) := by
  rw [← stackWords_described_iff, ← frameAt_enter im idt v error top s]
  constructor
  · intro h
    exact h.described
  · intro h
    exact ⟨h, fun t ht => resumed_of_described h ht⟩

/-- A kernel with its stubs one after the other. -/
def stubsInARow : Image where
  isr n := 0xFFFFFFFF80000000 + 16 * BitVec.ofNat 64 n
  code a := stub ((a - 0xFFFFFFFF80000000).toNat / 16) ++ interruptCommonEntry
  code_isr n hn := by
    have hsmall : n < 129 := by
      revert n
      decide
    have hplace : (0xFFFFFFFF80000000 + 16 * BitVec.ofNat 64 n - 0xFFFFFFFF80000000 : U64).toNat
        / 16 = n := by
      bv_omega
    rw [hplace]

/-- A control protection exception, vector 21, in code with interrupts enabled: the frame
has the flags where the stack pointer belongs. -/
theorem control_protection_shifted :
    ¬ ∀ (σ : Type) (im : Image) (idt : ℕ → IdtEntry) (v : InterruptVector) (error top : U64)
      (s : Cpu) (past : U8) (k : Kernel σ), Transparent im idt v.1 error top s past k := by
  intro hclaim
  have hframe := (hclaim Unit stubsInARow (fun _ => ⟨0, 0, 0, 0, 0, 0, 0⟩) ⟨21, by decide⟩ 0 0
    Cpu.plain 0 (Kernel.zero ())).described
  have hzero := (stackWords_described_iff ..).mp ((frameAt_enter ..).symm.trans hframe)
  exact absurd hzero (by decide)

end Interrupts
