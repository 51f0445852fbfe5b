/-
# The interrupt handler

`interrupt_handler`, which every interrupt and exception comes to with the frame that its
stub has built.

* `interruptHandler` : the code; it does not return from an exception in the kernel;
* `interruptHandler_returns` : where it returns, it returns its argument;
* `interruptHandler_irq` : what it does for the sixteen interrupt lines.
-/
import FzzOS.Keyboard
import FzzOS.Pic

open Pic Kbd

/-- `struct interrupt_stack_frame`. -/
structure InterruptStackFrame where
  r15 : U64
  r14 : U64
  r13 : U64
  r12 : U64
  r11 : U64
  r10 : U64
  r9 : U64
  r8 : U64
  rbp : U64
  rdi : U64
  rsi : U64
  rdx : U64
  rcx : U64
  rbx : U64
  rax : U64
  intNo : U64
  errNo : U64
  rip : U64
  cs : U64
  rflags : U64
  rsp : U64
  ss : U64
  deriving DecidableEq

namespace Interrupts

variable {σ : Type}

/-! ## The code -/

/-- The name of the exception, for a page fault also what its error code says. -/
def exceptionText (frame : InterruptStackFrame) : List Output :=
  [.exceptionMessage frame.intNo, .text "\n" []]
    ++ if frame.intNo = 0xE then [.pageFaultError frame.errNo, .text "\n" []] else []

/-- The registers. -/
def registerText (frame : InterruptStackFrame) : List Output :=
  [.text "SS: %x  RSP: %x  RFLAGS: %x  CS: %x  RIP: %x\n"
      [frame.ss, frame.rsp, frame.rflags, frame.cs, frame.rip],
    .text "rax: %x  rbx: %x  rcx: %x  rdx: %x  rsi: %x  rdi: %x\n"
      [frame.rax, frame.rbx, frame.rcx, frame.rdx, frame.rsi, frame.rdi],
    .text "r8: %x  r9: %x  r10: %x  r11: %x  r12: %x  r13: %x\n"
      [frame.r8, frame.r9, frame.r10, frame.r11, frame.r12, frame.r13],
    .text "r14: %x  r15: %x\n" [frame.r14, frame.r15]]

/-- The panic of an exception in the kernel, on the serial port and then on the screen. -/
def panicText (frame : InterruptStackFrame) (k : Kernel σ) : Kernel σ :=
  let args := [frame.intNo, frame.errNo, k.cr2]
  let onSerial := .text "CPU Exception: %d  ERR %x  CR2 %p\r\n" args
    :: exceptionText frame ++ registerText frame
  let onScreen := .text "\nCPU Exception! INT %d   ERR %x  CR2 %p\n" args
    :: exceptionText frame ++ registerText frame
  onScreen.foldl Kernel.printf (onSerial.foldl Kernel.serialPrintf k)

/-- The interrupt line, `frame->int_no - 32`. -/
def irqOf (frame : InterruptStackFrame) : U64 := frame.intNo - 32

/-- `interrupt_handler`, with the frame that lies at its argument.  No value is returned
after a panic, where the processor halts for good. -/
def interruptHandler (past : U8) (frame : InterruptStackFrame) (rsp : U64) (k : Kernel σ) :
    Option U64 × Kernel σ :=
  if frame.intNo < 32 then
    if frame.cs = 0x08 then (none, panicText frame k) else (some rsp, k)
  else if frame.intNo < 48 then
    let irq := irqOf frame
    let k := if irq > 1 then k.printf (.text "INT: %d  IRQ: %d  \n" [frame.intNo, irq]) else k
    let k :=
      if irq = 0 then { k with pitTicks := k.pitTicks + 1 }
      else if irq = 1 then kbdHandle past k
      else k
    (some rsp, { k with pics := picEOI (irq.setWidth 8) k.pics })
  else if frame.intNo = 127 then (some rsp, k.printf (.text "Syscall 127\n" []))
  else (some rsp, k)

/-! ## What it does -/

variable {past : U8} {frame : InterruptStackFrame} {rsp v : U64} {k k' : Kernel σ}

/-- **The stack pointer comes back.** -/
theorem interruptHandler_returns (h : interruptHandler past frame rsp k = (some v, k')) :
    v = rsp := by
  have hfst : (interruptHandler past frame rsp k).1 = some v := by rw [h]
  unfold interruptHandler at hfst
  split_ifs at hfst
  all_goals exact (Option.some.inj hfst).symm

/-- The line an interrupt is about, as the handler finds it. -/
theorem irqOf_eq {i : ℕ} (hframe : frame.intNo = BitVec.ofNat 64 (32 + i)) :
    irqOf frame = BitVec.ofNat 64 i := by
  rw [irqOf, hframe]
  bv_omega

/-- **The sixteen lines.**  The handler returns, and what it leaves of the chips and of the
keyboard controller depends on the line only. -/
theorem interruptHandler_irq (past : U8) (rsp : U64) (k : Kernel σ) {i : ℕ} (hi : i < 16)
    (hframe : frame.intNo = BitVec.ofNat 64 (32 + i)) :
    (interruptHandler past frame rsp k).1 = some rsp ∧
      (interruptHandler past frame rsp k).2.pics = picEOI (BitVec.ofNat 8 i) k.pics ∧
      (interruptHandler past frame rsp k).2.port60
        = (if i = 1 then kbdHandle past k else k).port60 ∧
      (interruptHandler past frame rsp k).2.keyboard
        = (if i = 1 then kbdHandle past k else k).keyboard := by
  have hirq := irqOf_eq hframe
  have hlow : ¬ frame.intNo < 32 := by
    rw [hframe]
    bv_omega
  have hhigh : frame.intNo < 48 := by
    rw [hframe]
    bv_omega
  have hnarrow : (BitVec.ofNat 64 i).setWidth 8 = BitVec.ofNat 8 i := by bv_omega
  rw [interruptHandler, if_neg hlow, if_pos hhigh]
  dsimp only
  rw [hirq, hnarrow]
  obtain rfl | rfl | h2 : i = 0 ∨ i = 1 ∨ 2 ≤ i := by omega
  · exact ⟨rfl, rfl, rfl, rfl⟩
  · refine ⟨rfl, ?_, rfl, rfl⟩
    show picEOI _ (kbdHandle past k).pics = _
    rw [kbdHandle_pics]
  · have hgt : BitVec.ofNat 64 i > 1 := by bv_omega
    have h0 : BitVec.ofNat 64 i ≠ 0 := by bv_omega
    have h1 : BitVec.ofNat 64 i ≠ 1 := by bv_omega
    rw [if_pos hgt, if_neg h0, if_neg h1, if_neg (by omega)]
    exact ⟨rfl, rfl, rfl, rfl⟩

end Interrupts
