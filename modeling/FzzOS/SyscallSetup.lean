/-
# Setting up the system call entry

`enable_syscall` programs three model-specific registers, each as two halves: the processor
takes bits 32 to 63 from EDX and bits 0 to 31 from EAX.  For the handler's address the upper
half is shifted the wrong way and comes out as zero.

* `MsrInstr.exec` : the instructions `enable_syscall` is made of;
* `enableSyscall_msr` : what the registers hold after it;
* `entry_programmed_iff` : when that is what was asked for.
-/
import FzzOS.Words
import FzzOS.X86

open X86

namespace Usermode

/-! ## Model-specific registers -/

/-- The general registers and the model-specific ones. -/
structure MsrCpu where
  reg : Reg → U64
  msr : U32 → U64

namespace MsrCpu

/-- The lower half of a register. -/
def low (s : MsrCpu) (r : Reg) : U32 := (s.reg r).setWidth 32

/-- A general register gets a new value. -/
def set (s : MsrCpu) (r : Reg) (x : U64) : MsrCpu := { s with reg := Function.update s.reg r x }

end MsrCpu

/-- The flags the arithmetic ones set are left out. -/
inductive MsrInstr
  | movImm (dst : Reg) (x : U64)
  | mov (dst src : Reg)
  | orImm32 (dst : Reg) (x : U32)
  | shl (dst : Reg) (n : ℕ)
  | rdmsr
  | wrmsr

/-- What an instruction does. -/
def MsrInstr.exec : MsrInstr → MsrCpu → MsrCpu
  | .movImm dst x, s => s.set dst x
  | .mov dst src, s => s.set dst (s.reg src)
  -- a result of 32 bits clears the upper half
  | .orImm32 dst x, s => s.set dst ((s.low dst ||| x).setWidth 64)
  | .shl dst n, s => s.set dst (s.reg dst <<< n)
  | .rdmsr, s =>
    let x := s.msr (s.low .rcx)
    (s.set .rdx ((x >>> 32).setWidth 32 |>.setWidth 64)).set .rax ((x.setWidth 32).setWidth 64)
  | .wrmsr, s => { s with msr := Function.update s.msr (s.low .rcx) (s.low .rdx ++ s.low .rax) }

/-! ## The code -/

/-- `MSR_EFER`. -/
def efer : U32 := 0xC0000080

/-- `MSR_STAR`. -/
def star : U32 := 0xC0000081

/-- The register with the entry of `SYSCALL`. -/
def lstar : U32 := 0xC0000082

/-- `enable_syscall`. -/
def enableSyscallCode : List MsrInstr :=
  [.movImm .rcx 0xC0000080, .rdmsr, .orImm32 .rax 1, .wrmsr,
    .movImm .rcx 0xC0000081, .rdmsr, .mov .rdx .rdi, .wrmsr,
    -- the shift leaves nothing in EDX
    .movImm .rcx 0xC0000082, .rdmsr, .mov .rax .rsi, .mov .rdx .rsi, .shl .rdx 32, .wrmsr]

/-- A call of `enable_syscall`. -/
def enableSyscall (selectors handler : U64) (s : MsrCpu) : MsrCpu :=
  enableSyscallCode.foldl (fun s i => i.exec s) ((s.set .rdi selectors).set .rsi handler)

/-- `user_init`, with `__syscall_handler` at address `handler`. -/
def userInit (handler : U64) (s : MsrCpu) : MsrCpu := enableSyscall 0x00180008 handler s

/-! ## What it programs -/

variable {handler : U64} {s t : MsrCpu}

/-- The entry is set up: the handler's address, the selectors in the upper half of STAR, and
the enable bit, with everything else as it was. -/
structure EntryProgrammed (selectors : U32) (handler : U64) (s t : MsrCpu) : Prop where
  lstar : t.msr lstar = handler
  star : t.msr star = selectors ++ (s.msr star).setWidth 32
  efer : t.msr efer = s.msr efer ||| 1

/-- The registers selected and their halves read: what the first two instructions of each step
leave. -/
theorem run_select (r : U32) (s : MsrCpu) :
    MsrInstr.rdmsr.exec ((MsrInstr.movImm .rcx (r.setWidth 64)).exec s) =
      ⟨fun q => if q = .rax then ((s.msr r).setWidth 32).setWidth 64
        else if q = .rdx then ((s.msr r >>> 32).setWidth 32).setWidth 64
        else if q = .rcx then r.setWidth 64 else s.reg q, s.msr⟩ := by
  have hrcx : (s.set .rcx (r.setWidth 64)).low .rcx = r := by
    simp only [MsrCpu.low, MsrCpu.set, Function.update_self]
    bv_omega
  simp only [MsrInstr.exec, hrcx]
  refine congrArg₂ MsrCpu.mk (funext fun q => ?_) rfl
  simp only [MsrCpu.set, Function.update_apply]

/-- Setting the lowest bit of the lower half is setting the lowest bit. -/
theorem append_or_one (x : U64) : (x >>> 32).setWidth 32 ++ (x.setWidth 32 ||| 1) = x ||| 1 := by
  refine BitVec.eq_of_getLsbD_eq fun i hi => ?_
  rw [BitVec.getLsbD_append, BitVec.getLsbD_or, BitVec.getLsbD_or, BitVec.getLsbD_setWidth,
    BitVec.getLsbD_setWidth, BitVec.getLsbD_ushiftRight]
  by_cases hlow : i < 32
  · simp [hlow]
  · simp [hlow, show i - 32 < 32 by omega, show 32 + (i - 32) = i by omega,
      show i ≠ 0 by omega]

/-- **The three registers** after the call, whatever was in them; the other ones stay. -/
theorem enableSyscall_msr (selectors handler : U64) (s : MsrCpu) (r : U32) :
    (enableSyscall selectors handler s).msr r =
      if r = lstar then (0 : U32) ++ handler.setWidth 32
      else if r = star then selectors.setWidth 32 ++ (s.msr star).setWidth 32
      else if r = efer then s.msr efer ||| 1
      else s.msr r := by
  have hefer : (0xC0000080 : U64) = efer.setWidth 64 := rfl
  have hstar : (0xC0000081 : U64) = star.setWidth 64 := rfl
  have hlstar : (0xC0000082 : U64) = lstar.setWidth 64 := rfl
  have hne : star ≠ efer := by decide
  rw [← append_or_one, enableSyscall, enableSyscallCode, hefer, hstar, hlstar]
  simp only [List.foldl_cons, List.foldl_nil, run_select]
  simp [MsrInstr.exec, MsrCpu.low, MsrCpu.set, Function.update_apply, hne]

/-- What is left of a handler's address. -/
theorem toNat_zero_append (x : U64) :
    ((0 : U32) ++ x.setWidth 32 : U64).toNat = x.toNat % 2 ^ 32 := by
  rw [BitVec.toNat_append, BitVec.toNat_setWidth]
  simp

/-- **The entry.**  It is programmed as asked for if and only if the handler's address fits 32
bits. -/
theorem entry_programmed_iff (handler : U64) (s : MsrCpu) :
    EntryProgrammed 0x00180008 handler s (userInit handler s) ↔ handler.toNat < 2 ^ 32 := by
  have hlstar : (userInit handler s).msr lstar = (0 : U32) ++ handler.setWidth 32 :=
    enableSyscall_msr ..
  constructor
  · intro h
    have heq := congrArg BitVec.toNat (hlstar.symm.trans h.lstar)
    rw [toNat_zero_append] at heq
    omega
  · intro h
    refine ⟨BitVec.eq_of_toNat_eq ?_, enableSyscall_msr .., enableSyscall_msr ..⟩
    rw [hlstar, toNat_zero_append, Nat.mod_eq_of_lt h]

/-- A handler in the higher half is entered at the lower half of its address. -/
theorem handler_truncated :
    ¬ ∀ (handler : U64) (s : MsrCpu),
      EntryProgrammed 0x00180008 handler s (userInit handler s) := by
  intro hclaim
  have hlstar := (hclaim 0xFFFFFFFF80001000 ⟨fun _ => 0, fun _ => 0⟩).lstar
  rw [userInit, enableSyscall_msr, if_pos rfl] at hlstar
  exact absurd hlstar (by decide)

end Usermode
