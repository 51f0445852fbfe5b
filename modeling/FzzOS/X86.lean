/-
# The processor: registers, stack instructions, control transfers

The part of the x86-64 that entry and exit stubs are made of.  Code is a list of
instructions that run one after the other; the transfers between pieces of code are
functions on the processor state.

* `Instr.exec`, `run` : the instructions and straight-line code;
* `deliver`, `iretq`, `syscall`, `sysret`, `ret` : the transfers;
* `AbiFunction` : what compiled code does that follows the System V calling convention;
* `run_pushes`, `run_pops` : saving registers on the stack and taking them back;
* `iretq_eq` : the return from an interrupt.
-/
import FzzOS.StackWords
import Mathlib.Logic.Function.Basic

open StackWords

namespace X86

/-- The general registers. -/
inductive Reg
  | rax | rbx | rcx | rdx | rsi | rdi | rbp | rsp
  | r8 | r9 | r10 | r11 | r12 | r13 | r14 | r15
  deriving DecidableEq

/-- The state of the processor, with the memory it works on. -/
structure Cpu where
  reg : Reg → BitVec 64
  rip : BitVec 64
  rflags : BitVec 64
  cs : BitVec 16
  ss : BitVec 16
  mem : Bytes

namespace Cpu

/-- A register gets a new value. -/
def set (s : Cpu) (r : Reg) (x : BitVec 64) : Cpu := { s with reg := Function.update s.reg r x }

/-- One word onto the stack. -/
def pushWord (s : Cpu) (x : BitVec 64) : Cpu :=
  { s with
    reg := Function.update s.reg .rsp (s.reg .rsp - 8)
    mem := write s.mem (s.reg .rsp - 8) x }

/-- Some words onto the stack, the first one first. -/
def pushWords (s : Cpu) (xs : List (BitVec 64)) : Cpu := xs.foldl pushWord s

/-- The word `i` places above the top of the stack. -/
def word (s : Cpu) (i : ℕ) : BitVec 64 := read s.mem (s.reg .rsp + BitVec.ofNat 64 (8 * i))

/-- A processor with interrupts enabled and nothing else of note. -/
def plain : Cpu where
  reg _ := 0
  rip := 0
  rflags := 0x202
  cs := 0
  ss := 0
  mem _ := 0

end Cpu

/-! ## Instructions -/

/-- The instructions of the stubs that are modelled. -/
inductive Instr
  | push (r : Reg)
  | pushImm (x : BitVec 64)
  | pop (r : Reg)
  | mov (dst src : Reg)
  | addImm (dst : Reg) (x : BitVec 64)
  | cld

/-- A flag register with one flag changed. -/
def setFlag (f : BitVec 64) (i : ℕ) (b : Bool) : BitVec 64 :=
  if b then f ||| BitVec.twoPow 64 i else f &&& ~~~BitVec.twoPow 64 i

/-- The flags after an addition: carry, parity, adjust, zero, sign, overflow. -/
def addFlags (x y f : BitVec 64) : BitVec 64 :=
  let sum := x + y
  let f := setFlag f 0 (BitVec.carry 64 x y false)
  let f := setFlag f 2 (((List.range 8).filter (sum.getLsbD ·)).length % 2 == 0)
  let f := setFlag f 4 (BitVec.carry 4 x y false)
  let f := setFlag f 6 (sum == 0)
  let f := setFlag f 7 sum.msb
  setFlag f 11 (x.msb == y.msb && x.msb != sum.msb)

/-- What an instruction does. -/
def Instr.exec : Instr → Cpu → Cpu
  -- the register is read before the stack pointer moves, also when it is the stack pointer
  | .push r, s => s.pushWord (s.reg r)
  | .pushImm x, s => s.pushWord x
  -- and it is written last
  | .pop r, s => (s.set .rsp (s.reg .rsp + 8)).set r (read s.mem (s.reg .rsp))
  | .mov dst src, s => s.set dst (s.reg src)
  | .addImm dst x, s =>
    { s.set dst (s.reg dst + x) with rflags := addFlags (s.reg dst) x s.rflags }
  | .cld, s => { s with rflags := setFlag s.rflags 10 false }

/-- Straight-line code. -/
def run (code : List Instr) (s : Cpu) : Cpu := code.foldl (fun s i => i.exec s) s

@[simp] theorem run_nil (s : Cpu) : run [] s = s := rfl

@[simp] theorem run_cons (i : Instr) (code : List Instr) (s : Cpu) :
    run (i :: code) s = run code (i.exec s) := rfl

theorem run_append (code code' : List Instr) (s : Cpu) :
    run (code ++ code') s = run code' (run code s) :=
  List.foldl_append

/-! ## Transfers -/

/-- The processor takes an interrupt through an interrupt gate: from `top` down it pushes
where it was, and an error code if the vector has one. -/
def deliver (target : BitVec 64) (selector : BitVec 16) (top : BitVec 64)
    (error : List (BitVec 64)) (s : Cpu) : Cpu :=
  let saved := [s.ss.setWidth 64, s.reg .rsp, s.rflags, s.cs.setWidth 64, s.rip]
  -- trap, interrupt, nested task, resume and virtual-8086 flag are cleared
  { (s.set .rsp top).pushWords (saved ++ error) with
    rip := target
    cs := selector
    rflags := s.rflags &&& ~~~0x34300 }

/-- `iretq`. -/
def iretq (s : Cpu) : Cpu :=
  { s with
    rip := s.word 0
    cs := (s.word 1).setWidth 16
    rflags := s.word 2
    reg := Function.update s.reg .rsp (s.word 3)
    ss := (s.word 4).setWidth 16 }

/-- `syscall` at an instruction that `next` follows.  The selectors are left out. -/
def syscall (lstar fmask next : BitVec 64) (s : Cpu) : Cpu :=
  { (s.set .rcx next).set .r11 s.rflags with rip := lstar, rflags := s.rflags &&& ~~~fmask }

/-- `o64 sysret`. -/
def sysret (s : Cpu) : Cpu := { s with rip := s.reg .rcx, rflags := s.reg .r11 }

/-- `ret`. -/
def ret (s : Cpu) : Cpu := { s.set .rsp (s.reg .rsp + 8) with rip := s.word 0 }

/-! ## Calls -/

/-- The registers a function leaves as they were. -/
def calleeSaved : List Reg := [.rbx, .rbp, .r12, .r13, .r14, .r15]

/-- The registers that carry the arguments. -/
def argumentRegs : List Reg := [.rdi, .rsi, .rdx, .rcx, .r8, .r9]

/-- State `t` after the return of a function called in `s`, with `n` bytes of its caller's
stack above the call. -/
structure Returned (n : ℕ) (s t : Cpu) : Prop where
  rsp : t.reg .rsp = s.reg .rsp
  saved : ∀ r ∈ calleeSaved, t.reg r = s.reg r
  stack : ∀ i < n, t.mem (s.reg .rsp + BitVec.ofNat 64 i) = s.mem (s.reg .rsp + BitVec.ofNat 64 i)

/-- A function that follows the calling convention, from each call to its return. -/
structure AbiFunction (n : ℕ) where
  call : Cpu → Cpu
  returned : ∀ s, Returned n s (call s)

/-! ## Saving and restoring -/

variable {s t : Cpu} {ws xs : List (BitVec 64)} {rs : List Reg} {r : Reg} {x : BitVec 64}

@[simp] theorem set_reg_self (s : Cpu) (r : Reg) (x : BitVec 64) : (s.set r x).reg r = x := by
  simp [Cpu.set]

theorem set_reg_of_ne {r' : Reg} (h : r' ≠ r) : (s.set r x).reg r' = s.reg r' := by
  simp [Cpu.set, h]

@[simp] theorem set_mem (s : Cpu) (r : Reg) (x : BitVec 64) : (s.set r x).mem = s.mem := rfl

@[simp] theorem word_zero (s : Cpu) : s.word 0 = read s.mem (s.reg .rsp) := by
  rw [Cpu.word, Nat.mul_zero, BitVec.add_zero]

/-- What an interrupt leaves in memory and in the registers are the words it pushes. -/
theorem deliver_mem (target : BitVec 64) (selector : BitVec 16) (top : BitVec 64)
    (error : List (BitVec 64)) (s : Cpu) :
    (deliver target selector top error s).mem
      = ((s.set .rsp top).pushWords ([s.ss.setWidth 64, s.reg .rsp, s.rflags, s.cs.setWidth 64,
          s.rip] ++ error)).mem := by
  simp only [deliver]

theorem deliver_reg (target : BitVec 64) (selector : BitVec 16) (top : BitVec 64)
    (error : List (BitVec 64)) (s : Cpu) :
    (deliver target selector top error s).reg
      = ((s.set .rsp top).pushWords ([s.ss.setWidth 64, s.reg .rsp, s.rflags, s.cs.setWidth 64,
          s.rip] ++ error)).reg := by
  simp only [deliver]

@[simp] theorem ret_rip (s : Cpu) : (ret s).rip = s.word 0 := rfl

theorem ret_reg_of_ne (h : r ≠ .rsp) : (ret s).reg r = s.reg r := by
  simp only [ret]
  exact set_reg_of_ne h

@[simp] theorem pushWord_rsp (s : Cpu) (x : BitVec 64) :
    (s.pushWord x).reg .rsp = s.reg .rsp - 8 := by
  simp [Cpu.pushWord]

theorem pushWord_reg_of_ne (h : r ≠ .rsp) : (s.pushWord x).reg r = s.reg r := by
  simp [Cpu.pushWord, h]

theorem pushWords_reg_of_ne (h : r ≠ .rsp) : (s.pushWords xs).reg r = s.reg r := by
  induction xs generalizing s with
  | nil => rfl
  | cons x xs ih => exact ih.trans (pushWord_reg_of_ne h)

theorem pushWords_rsp :
    (s.pushWords xs).reg .rsp = s.reg .rsp - BitVec.ofNat 64 (8 * xs.length) := by
  induction xs generalizing s with
  | nil => exact (BitVec.sub_zero _).symm
  | cons x xs ih =>
    show ((s.pushWord x).pushWords xs).reg .rsp = _
    rw [ih, pushWord_rsp, List.length_cons]
    bv_omega

theorem syscall_reg (lstar fmask next : BitVec 64) (s : Cpu) (r : Reg) :
    (syscall lstar fmask next s).reg r
      = if r = .r11 then s.rflags else if r = .rcx then next else s.reg r := by
  simp only [syscall, Cpu.set, Function.update_apply]

/-- **The words pushed lie on the stack**, the last one on top. -/
theorem holds_pushWords (xs : List (BitVec 64)) (h : Holds s.mem (s.reg .rsp) ws)
    (hlen : 8 * (xs.length + ws.length) ≤ 2 ^ 64) :
    Holds (s.pushWords xs).mem ((s.pushWords xs).reg .rsp) (xs.reverse ++ ws) := by
  induction xs generalizing s ws with
  | nil => exact h
  | cons x xs ih =>
    rw [List.length_cons] at hlen
    have hfirst : Holds (s.pushWord x).mem ((s.pushWord x).reg .rsp) (x :: ws) := by
      rw [pushWord_rsp]
      exact h.push (by omega)
    have hrest := ih hfirst (by rw [List.length_cons]; omega)
    rw [List.reverse_cons, List.append_assoc]
    exact hrest

/-- Pushing registers is pushing their values. -/
theorem run_pushes (hrs : Reg.rsp ∉ rs) :
    run (rs.map .push) s = s.pushWords (rs.map s.reg) := by
  induction rs generalizing s with
  | nil => rfl
  | cons r rs ih =>
    have hsame : rs.map (s.pushWord (s.reg r)).reg = rs.map s.reg := by
      refine List.map_congr_left fun r' hr' => pushWord_reg_of_ne ?_
      rintro rfl
      exact hrs (List.mem_cons_of_mem r hr')
    show run (rs.map .push) (s.pushWord (s.reg r)) = _
    rw [ih fun h => hrs (List.mem_cons_of_mem r h), hsame]
    rfl

/-- **Popping registers** takes the values that lie on the stack, and changes nothing
else. -/
theorem run_pops {f : Reg → BitVec 64} (hrs : Reg.rsp ∉ rs)
    (h : Holds s.mem (s.reg .rsp) (rs.map f)) :
    run (rs.map .pop) s =
      { s with
        reg := fun r =>
          if r = .rsp then s.reg .rsp + BitVec.ofNat 64 (8 * rs.length)
          else if r ∈ rs then f r else s.reg r } := by
  induction rs generalizing s with
  | nil =>
    have hsame : (fun r => if r = Reg.rsp then s.reg .rsp + BitVec.ofNat 64 (8 * 0)
        else if r ∈ ([] : List Reg) then f r else s.reg r) = s.reg := by
      funext r
      by_cases hr : r = .rsp
      · simp [hr]
      · simp [hr]
    rw [List.length_nil, hsame]
    rfl
  | cons r rs ih =>
    have hr : r ≠ .rsp := fun h => hrs (h ▸ List.mem_cons_self)
    set s₁ := (s.set .rsp (s.reg .rsp + 8)).set r (f r) with hs₁
    have hrsp : s₁.reg .rsp = s.reg .rsp + 8 := by
      rw [hs₁, set_reg_of_ne hr.symm, set_reg_self]
    have hfirst : (Instr.pop r).exec s = s₁ := by
      rw [Instr.exec, h.1]
    rw [List.map_cons, run_cons, hfirst,
      ih (fun hmem => hrs (List.mem_cons_of_mem r hmem)) (hrsp ▸ h.2)]
    refine congrArg (fun g => { s with reg := g }) (funext fun q => ?_)
    by_cases hq : q = .rsp
    · rw [if_pos hq, if_pos hq, hrsp, List.length_cons]
      bv_omega
    rw [if_neg hq, if_neg hq]
    by_cases hmem : q ∈ rs
    · rw [if_pos hmem, if_pos (List.mem_cons_of_mem r hmem)]
    rw [if_neg hmem]
    by_cases hqr : q = r
    · rw [if_pos (hqr ▸ List.mem_cons_self), hqr, hs₁, set_reg_self]
    · rw [if_neg (by simp [hqr, hmem]), hs₁, set_reg_of_ne hqr, set_reg_of_ne hq]

/-- **`iretq`** takes the five words an interrupt pushes first. -/
theorem iretq_eq {rip rflags top : BitVec 64} {cs ss : BitVec 16}
    (h : Holds s.mem (s.reg .rsp) [rip, cs.setWidth 64, rflags, top, ss.setWidth 64]) :
    iretq s =
      { s with
        rip := rip
        cs := cs
        rflags := rflags
        reg := Function.update s.reg .rsp top
        ss := ss } := by
  have hnarrow : ∀ x : BitVec 16, (x.setWidth 64).setWidth 16 = x := by
    intro x
    bv_omega
  have hrip : s.word 0 = rip := h.read_eq (show 0 < 5 by decide)
  have hcs : s.word 1 = cs.setWidth 64 := h.read_eq (show 1 < 5 by decide)
  have hrflags : s.word 2 = rflags := h.read_eq (show 2 < 5 by decide)
  have htop : s.word 3 = top := h.read_eq (show 3 < 5 by decide)
  have hss : s.word 4 = ss.setWidth 64 := h.read_eq (show 4 < 5 by decide)
  rw [iretq, hrip, hcs, hrflags, htop, hss, hnarrow, hnarrow]

/-- A function returns with its caller's stack as it was. -/
theorem Returned.holds {n : ℕ} (h : Returned n s t) (hs : Holds s.mem (s.reg .rsp) ws)
    (hn : 8 * ws.length ≤ n) : Holds t.mem (t.reg .rsp) ws := by
  rw [h.rsp]
  exact hs.congr fun i hi => h.stack i (by omega)

end X86
