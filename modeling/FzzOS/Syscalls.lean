/-
# System calls

The two stubs a system call goes through: `_syscall` in the library, which user code
calls, and `__syscall_handler` in the kernel, which the processor enters at the `syscall`
instruction and which calls the C function `syscall_handler`.

* `run_syscallHandlerExit` : what the kernel's stub gives back, whatever C function it
  called;
* `context_preserved_iff` : the caller's context survives if and only if the C function
  leaves R11 alone;
* `arguments_intact_iff` : the arguments arrive if and only if the third parameter is the
  address the `syscall` instruction puts in its register.
-/
import FzzOS.Words
import FzzOS.X86

open StackWords X86

namespace Usermode

/-! ## The stubs -/

/-- `__syscall_handler` up to the call. -/
def syscallHandlerEntry : List Instr :=
  [.push .rbx, .push .rsp, .push .rbp, .push .r12, .push .r13, .push .r14, .push .r15,
    .push .rcx]

/-- `__syscall_handler` from the call on, up to `sysret`. -/
def syscallHandlerExit : List Instr :=
  [.pop .rcx, .pop .r15, .pop .r14, .pop .r13, .pop .r12, .pop .rbp, .pop .rsp, .pop .rbx]

/-- The processor state in which the kernel calls `syscall_handler`, for a `syscall`
instruction executed in state `u`. -/
def atCall (lstar fmask next : U64) (u : Cpu) : Cpu :=
  run syscallHandlerEntry (syscall lstar fmask next u)

/-- A system call from state `u` to the state in which user code goes on. -/
def serve {n : ℕ} (syscallHandler : AbiFunction n) (lstar fmask next : U64) (u : Cpu) : Cpu :=
  sysret (run syscallHandlerExit (syscallHandler.call (atCall lstar fmask next u)))

/-- The library's `_syscall` up to the instruction. -/
def libcSyscallEntry : List Instr := [.push .rsp]

/-- `_syscall` after it, up to `ret`. -/
def libcSyscallExit : List Instr := [.pop .rsp]

/-- A call of `_syscall` in state `c`, up to its return. -/
def libcSyscall {n : ℕ} (syscallHandler : AbiFunction n) (lstar fmask next : U64) (c : Cpu) :
    Cpu :=
  ret (run libcSyscallExit (serve syscallHandler lstar fmask next (run libcSyscallEntry c)))

/-! ## The kernel's stub -/

variable {n : ℕ} {f : AbiFunction n} {lstar fmask next : U64} {s t u c : Cpu} {ws : List U64}

/-- The registers the stub saves with one `push` each; RSP apart. -/
def stubSaved : List Reg := [.rcx, .r15, .r14, .r13, .r12, .rbp]

/-- What the stub has on the stack when it calls. -/
def stubWords (s : Cpu) : List U64 := stubSaved.map s.reg ++ [s.reg .rsp - 8, s.reg .rbx]

theorem length_stubWords (s : Cpu) : (stubWords s).length = 8 := rfl

theorem run_syscallHandlerEntry (s : Cpu) :
    run syscallHandlerEntry s = s.pushWords (stubWords s).reverse := by
  simp only [syscallHandlerEntry, run_cons, run_nil, Instr.exec, stubWords, stubSaved,
    List.map_cons, List.map_nil, pushWord_rsp]
  simp only [ne_eq, reduceCtorEq, not_false_eq_true, pushWord_reg_of_ne]
  rfl

theorem syscallHandlerEntry_reg {r : Reg} (hr : r ≠ .rsp) :
    (run syscallHandlerEntry s).reg r = s.reg r := by
  rw [run_syscallHandlerEntry, pushWords_reg_of_ne hr]

theorem syscallHandlerEntry_rsp :
    (run syscallHandlerEntry s).reg .rsp = s.reg .rsp - 64 := by
  rw [run_syscallHandlerEntry, pushWords_rsp]
  rfl

theorem syscallHandlerEntry_holds (h : Holds s.mem (s.reg .rsp) ws)
    (hlen : 64 + 8 * ws.length ≤ 2 ^ 64) :
    Holds (run syscallHandlerEntry s).mem ((run syscallHandlerEntry s).reg .rsp)
      (stubWords s ++ ws) := by
  have hwords := holds_pushWords (stubWords s).reverse h
    (by rw [List.length_reverse, length_stubWords]; omega)
  rw [List.reverse_reverse] at hwords
  rw [run_syscallHandlerEntry]
  exact hwords

/-- **The way out.**  After any function that keeps the calling convention the stub gives
back the registers it saved, the stack pointer among them, and leaves the others and memory
as the function left them. -/
theorem run_syscallHandlerExit (ht : Returned n (run syscallHandlerEntry s) t) (hn : 64 ≤ n) :
    run syscallHandlerExit t =
      { t with
        reg := fun r =>
          if r = .rsp then s.reg .rsp
          else if r ∈ Reg.rbx :: stubSaved then s.reg r else t.reg r } := by
  have hentry := syscallHandlerEntry_holds (s := s) (show Holds _ _ [] from trivial) (by decide)
  rw [List.append_nil] at hentry
  obtain ⟨hsaved, hstack, hrbx, -⟩ := holds_append.mp (ht.holds hentry hn)
  have hrsp : t.reg .rsp = s.reg .rsp - 64 := ht.rsp.trans syscallHandlerEntry_rsp
  have hlength : BitVec.ofNat 64 (8 * stubSaved.length) = 48 := rfl
  have hslot : t.reg .rsp + BitVec.ofNat 64 (8 * (stubSaved.map s.reg).length) + 8
      = s.reg .rsp - 8 := by
    rw [List.length_map, hlength, hrsp]
    bv_omega
  rw [List.length_map] at hstack
  rw [hslot] at hrbx
  show run (stubSaved.map .pop ++ [.pop .rsp, .pop .rbx]) t = _
  rw [run_append, run_pops (by decide) hsaved]
  -- the stack pointer comes back as it was pushed, one word below its value
  simp only [run_cons, run_nil, Instr.exec, Cpu.set, Function.update_self, if_true, hstack,
    hrbx]
  refine congrArg (fun g => { t with reg := g }) (funext fun r => ?_)
  by_cases hr : r = .rsp
  · subst hr
    rw [if_pos rfl, Function.update_of_ne (by decide), Function.update_self]
    bv_omega
  rw [if_neg hr]
  by_cases hb : r = .rbx
  · subst hb
    rw [if_pos List.mem_cons_self, Function.update_self]
  · rw [Function.update_of_ne hb, Function.update_of_ne hr, Function.update_of_ne hr,
      Function.update_of_ne hr, if_neg hr]
    simp only [List.mem_cons, hb, false_or]

/-- At the call the instruction's two registers still hold what it put there, and the
others what user code had in them. -/
theorem atCall_reg {r : Reg} (hr : r ≠ .rsp) :
    (atCall lstar fmask next u).reg r
      = if r = .r11 then u.rflags else if r = .rcx then next else u.reg r := by
  rw [atCall, syscallHandlerEntry_reg hr, syscall_reg]

/-! ## The caller's context -/

/-- The registers a system call should leave alone. -/
def contextRegs : List Reg := [.rsp, .rbx, .rbp, .r12, .r13, .r14, .r15]

/-- User code goes on in `v` after the instruction it executed in `u`. -/
structure Resumed (next : U64) (u v : Cpu) : Prop where
  rip : v.rip = next
  rflags : v.rflags = u.rflags
  regs : ∀ r ∈ contextRegs, v.reg r = u.reg r

/-- What every C function that keeps the calling convention lets through. -/
theorem serve_eq (f : AbiFunction n) (lstar fmask next : U64) (u : Cpu) (hn : 64 ≤ n) :
    let t := f.call (atCall lstar fmask next u)
    serve f lstar fmask next u =
      { t with
        rip := next
        rflags := t.reg .r11
        reg := fun r =>
          if r = .rsp then u.reg .rsp
          else if r ∈ Reg.rbx :: stubSaved then (syscall lstar fmask next u).reg r
          else t.reg r } := by
  have hexit := run_syscallHandlerExit (f.returned (atCall lstar fmask next u)) hn
  have hrsp : (syscall lstar fmask next u).reg .rsp = u.reg .rsp := syscall_reg ..
  have hrcx : (syscall lstar fmask next u).reg .rcx = next := syscall_reg ..
  rw [hrsp] at hexit
  dsimp only
  rw [serve, hexit, sysret]
  refine congrArg₂ (fun a b => (⟨_, a, b, _, _, _⟩ : Cpu)) hrcx rfl

theorem serve_reg (hn : 64 ≤ n) (r : Reg) :
    (serve f lstar fmask next u).reg r =
      if r = .rsp then u.reg .rsp
      else if r ∈ Reg.rbx :: stubSaved then (syscall lstar fmask next u).reg r
      else (f.call (atCall lstar fmask next u)).reg r := by
  rw [serve_eq f lstar fmask next u hn]

/-- **Context.**  User code goes on after its `syscall` with flags, stack and callee-saved
registers as they were if and only if the C function returns with R11 as it found it: that
register holds the flags, and the stub does not save it. -/
theorem context_preserved_iff (f : AbiFunction 64) (lstar fmask next : U64) (u : Cpu) :
    Resumed next u (serve f lstar fmask next u) ↔
      (f.call (atCall lstar fmask next u)).reg .r11 = (atCall lstar fmask next u).reg .r11 := by
  have hserve := serve_eq f lstar fmask next u (le_refl 64)
  have hflags : (atCall lstar fmask next u).reg .r11 = u.rflags := atCall_reg (by decide)
  rw [hflags]
  constructor
  · intro h
    rw [← h.rflags, hserve]
  · intro h
    refine ⟨by rw [hserve], by rw [hserve, ← h], fun r hr => ?_⟩
    rw [hserve]
    dsimp only
    by_cases hrsp : r = .rsp
    · rw [if_pos hrsp, hrsp]
    -- the other registers of the context are among those the stub saves
    have hsaved : r ∈ Reg.rbx :: stubSaved := by
      revert hr hrsp
      cases r <;> decide
    have hother : r ≠ .r11 ∧ r ≠ .rcx := by
      revert hr
      cases r <;> decide
    rw [if_neg hrsp, if_pos hsaved, syscall_reg, if_neg hother.1, if_neg hother.2]

/-- A C function that uses R11 and nothing else. -/
def clobbersR11 (n : ℕ) : AbiFunction n where
  call s := s.set .r11 0
  returned s :=
    { rsp := set_reg_of_ne (by decide)
      saved := fun r hr => set_reg_of_ne (by revert hr; cases r <;> decide)
      stack := fun _ _ => rfl }

/-- The interrupt flag is lost. -/
theorem context_lost :
    ¬ ∀ (f : AbiFunction 64) (lstar fmask next : U64) (u : Cpu),
      Resumed next u (serve f lstar fmask next u) := by
  intro hclaim
  have hflags := (hclaim (clobbersR11 64) 0 0 0 Cpu.plain).rflags
  rw [serve_eq _ _ _ _ _ (le_refl 64)] at hflags
  have hzero : ((atCall 0 0 0 Cpu.plain).set .r11 0).reg .r11 = 0 := set_reg_self ..
  exact absurd (hzero.symm.trans hflags) (by decide)

/-! ## The arguments -/

/-- The words above the stub's own survive the call. -/
theorem holds_after_call (f : AbiFunction n) (lstar fmask next : U64)
    (h : Holds u.mem (u.reg .rsp) ws) (hn : 64 + 8 * ws.length ≤ n)
    (hlen : 64 + 8 * ws.length ≤ 2 ^ 64) :
    Holds (serve f lstar fmask next u).mem (u.reg .rsp) ws := by
  have hrsp : (syscall lstar fmask next u).reg .rsp = u.reg .rsp := syscall_reg ..
  have hentry := syscallHandlerEntry_holds (s := syscall lstar fmask next u) (hrsp ▸ h) hlen
  have hcall := (f.returned (atCall lstar fmask next u)).holds hentry
    (by rw [List.length_append, length_stubWords]; omega)
  obtain ⟨-, hrest⟩ := holds_append.mp hcall
  have htop : (f.call (atCall lstar fmask next u)).reg .rsp = u.reg .rsp - 64 := by
    rw [(f.returned _).rsp, atCall, syscallHandlerEntry_rsp, hrsp]
  have hslot : u.reg .rsp - 64 + BitVec.ofNat 64 (8 * 8) = u.reg .rsp := by bv_omega
  rw [htop, length_stubWords, hslot] at hrest
  rw [serve_eq _ _ _ _ _ (by omega)]
  exact hrest

/-- A call of `_syscall` in state `c`, which the kernel's C function took in state `taken`
and left in state `left`, ended well in state `back`. -/
structure Delivered (c taken left back : Cpu) : Prop where
  arguments : ∀ r ∈ argumentRegs, taken.reg r = c.reg r
  value : back.reg .rax = left.reg .rax
  returns : back.rip = c.word 0

/-- **The value comes back.**  Whatever the arguments, `_syscall` returns to its caller with
the C function's value. -/
theorem libcSyscall_value (f : AbiFunction 80) (lstar fmask next : U64) (c : Cpu) :
    let left := f.call (atCall lstar fmask next (run libcSyscallEntry c))
    (libcSyscall f lstar fmask next c).reg .rax = left.reg .rax ∧
      (libcSyscall f lstar fmask next c).rip = c.word 0 := by
  set u := run libcSyscallEntry c with hu
  have hursp : u.reg .rsp = c.reg .rsp - 8 := pushWord_rsp c _
  have hback : u.reg .rsp + 8 = c.reg .rsp := by
    rw [hursp]
    bv_omega
  have hstack : Holds u.mem (u.reg .rsp) [c.reg .rsp, c.word 0] := by
    have hcaller : Holds c.mem (c.reg .rsp) [c.word 0] := ⟨(word_zero c).symm, trivial⟩
    rw [hursp]
    refine hcaller.push ?_
    rw [List.length_singleton]
    omega
  obtain ⟨hsp, hra, -⟩ := holds_after_call f lstar fmask next hstack (le_refl 80) (by
    rw [List.length_cons, List.length_singleton]
    omega)
  rw [hback] at hra
  have hrsp : (serve f lstar fmask next u).reg .rsp = u.reg .rsp := by
    rw [serve_reg (by decide), if_pos rfl]
  have hpop : run libcSyscallExit (serve f lstar fmask next u)
      = ((serve f lstar fmask next u).set .rsp (u.reg .rsp + 8)).set .rsp (c.reg .rsp) := by
    simp only [libcSyscallExit, run_cons, run_nil, Instr.exec, hrsp, hsp]
  have hrax : (serve f lstar fmask next u).reg .rax
      = (f.call (atCall lstar fmask next u)).reg .rax := by
    rw [serve_reg (by decide), if_neg (by decide), if_neg (by decide)]
  rw [libcSyscall, ← hu, hpop]
  constructor
  · rw [ret_reg_of_ne (by decide), set_reg_of_ne (by decide), set_reg_of_ne (by decide), hrax]
  · rw [ret_rip, word_zero, set_mem, set_mem, set_reg_self, hra]

/-- **Arguments.**  Five of the six arguments always arrive.  The third parameter is passed
in RCX, where the instruction puts the address it returns to: it arrives if and only if it
is this address. -/
theorem arguments_intact_iff (f : AbiFunction 80) (lstar fmask next : U64) (c : Cpu) :
    let taken := atCall lstar fmask next (run libcSyscallEntry c)
    Delivered c taken (f.call taken) (libcSyscall f lstar fmask next c) ↔ c.reg .rcx = next := by
  have hcaller : ∀ r, r ≠ .rsp → (run libcSyscallEntry c).reg r = c.reg r :=
    fun r hr => pushWord_reg_of_ne hr
  obtain ⟨hvalue, hreturns⟩ := libcSyscall_value f lstar fmask next c
  constructor
  · intro h
    have hrcx := h.arguments .rcx (by decide)
    rw [atCall_reg (by decide)] at hrcx
    exact hrcx.symm
  · intro h
    refine ⟨fun r hr => ?_, hvalue, hreturns⟩
    have hother : r ≠ .rsp ∧ r ≠ .r11 := by
      revert hr
      cases r <;> decide
    rw [atCall_reg hother.1, if_neg hother.2, hcaller r hother.1]
    by_cases hrcx : r = .rcx
    · rw [if_pos hrcx, hrcx, h]
    · rw [if_neg hrcx]

/-- A third parameter of 1 does not arrive. -/
theorem third_parameter_lost :
    ¬ ∀ (f : AbiFunction 80) (lstar fmask next : U64) (c : Cpu),
      let taken := atCall lstar fmask next (run libcSyscallEntry c)
      Delivered c taken (f.call taken) (libcSyscall f lstar fmask next c) := by
  intro hclaim
  have hrcx := (hclaim (clobbersR11 80) 0 0 0 (Cpu.plain.set .rcx 1)).arguments .rcx (by decide)
  rw [atCall_reg (by decide)] at hrcx
  have hone : (0 : U64) = 1 := hrcx.trans (set_reg_self Cpu.plain .rcx 1)
  exact absurd hone (by decide)

end Usermode
