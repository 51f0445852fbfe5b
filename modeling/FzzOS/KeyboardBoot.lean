/-
# Key events while the kernel boots

The boot steps of `kernel()` interleaved with the keyboard.  The controller hands over one
byte at a time: it places it in its output buffer, asserts line 1, and waits until the byte
has been read.

* `Machine`, `Event` : the kernel, what it still has to do, and the keys under way;
* `Sound` : the invariant, with `Sound.apply` for one step;
* `keys_served` : no byte is left in the controller in any run in which the driver has its
  handler before the first byte comes in.
-/
import FzzOS.ConsoleInput
import FzzOS.InterruptLines
import Mathlib.Data.List.Infix

open I8259 Pic Kbd Interrupts Runs

namespace Boot

/-! ## The boot steps -/

/-- The steps of `kernel()`, with `idt_init`, `console_init` and `kbd_set_target` taken
apart. -/
inductive BootStep
  | serialInit
  | gdtInit
  | createDescriptors
  | picRemap
  | picDisable
  /-- `idt_load`, which ends with `sti`. -/
  | idtLoad
  | pitInit
  | picClearMask (irq : U8)
  | reportIdt
  | fbInit
  | consoleScreen
  | consoleBuffers
  | setHandler
  | setActive
  | pmmInit
  | vmmInit
  | reportCpu
  deriving DecidableEq

/-- `kernel()`. -/
def kernelSteps : List BootStep :=
  [.serialInit, .gdtInit, .createDescriptors, .picRemap, .picDisable, .idtLoad, .pitInit,
    .picClearMask 1, .picClearMask 0, .reportIdt, .fbInit, .consoleScreen, .consoleBuffers,
    .setHandler, .setActive, .pmmInit, .vmmInit, .reportCpu]

/-- What a step does to the chips, the keyboard driver and the console's buffers. -/
def BootStep.apply : BootStep → Kernel ConsoleIo → Kernel ConsoleIo
  | .picRemap, k => { k with pics := Pic.picRemap k.pics }
  | .picDisable, k => { k with pics := Pic.picDisable k.pics }
  | .picClearMask irq, k => { k with pics := Pic.picClearMask irq k.pics }
  | .consoleBuffers, k => { k with target := ConsoleIo.initBuffers k.target }
  | .setHandler, k =>
    { k with keyboard := { k.keyboard with kbdHandler := some ConsoleIo.consoleInput } }
  | .setActive, k => { k with keyboard := { k.keyboard with kbdActive := 1 } }
  | _, k => k

/-- The last three steps of `console_init` are its buffers and its handler. -/
theorem consoleInit_steps (k : Kernel ConsoleIo) :
    [BootStep.consoleBuffers, .setHandler, .setActive].foldl (fun k s => s.apply k) k
      = ConsoleIo.consoleInit k := rfl

/-! ## The machine -/

/-- The kernel with its interrupt flag and the steps it still has to do; the bytes the
keyboard has not handed over yet, and all bytes of the key events so far. -/
structure Machine where
  kernel : Kernel ConsoleIo
  interruptsOn : Bool
  todo : List BootStep
  keys : List U8
  typed : List U8

/-- What can happen while the kernel boots, and after. -/
inductive Event
  | boot
  /-- A key is pressed or released. -/
  | key (b : U8)
  /-- The controller places the next byte, if it can. -/
  | place
  /-- Another device asserts its line. -/
  | assert (line : Fin 16) (h : line ≠ 1)
  /-- The processor takes an interrupt, if it can. -/
  | interrupt (frame : InterruptStackFrame) (rsp : U64)

namespace Machine

/-- The kernel takes the next step of its boot. -/
def boot (m : Machine) : Machine :=
  match m.todo with
  | [] => m
  | step :: todo =>
    { m with
      kernel := step.apply m.kernel
      interruptsOn := m.interruptsOn || step == .idtLoad
      todo := todo }

/-- The controller places the next byte of the keyboard, if the last one was read. -/
def place (m : Machine) : Machine :=
  match m.keys, m.kernel.port60.full with
  | b :: keys, false =>
    { m with
      kernel := { m.kernel with
        port60 := m.kernel.port60.place b
        pics := m.kernel.pics.raise 1 }
      keys := keys }
  | _, _ => m

end Machine

/-- What an event does to the machine. -/
def Event.apply (past : U8) : Event → Machine → Machine
  | .boot, m => m.boot
  | .key b, m => { m with keys := m.keys ++ [b], typed := m.typed ++ [b] }
  | .place, m => m.place
  | .assert line _, m => { m with kernel := { m.kernel with pics := m.kernel.pics.raise line } }
  | .interrupt frame rsp, m =>
    if m.interruptsOn then { m with kernel := takeInterrupt past frame rsp m.kernel } else m

/-- At the start interrupts are off and the driver's variables are zero. -/
def start (pics : Pair) : Machine where
  kernel := { Kernel.zero ConsoleIo.zero with pics := pics }
  interruptsOn := false
  todo := kernelSteps
  keys := []
  typed := []

/-- The discipline: no byte waits when `pic_remap` resets the chips, and the driver has its
handler when an interrupt of the keyboard is taken. -/
def InTime (m : Machine) : Event → Prop
  | .boot => m.todo.head? = some .picRemap → m.kernel.port60.full = false
  | .interrupt .. => m.interruptsOn = true → ∀ vector pics,
      m.kernel.pics.acknowledge = some (1, vector, pics) → m.kernel.keyboard.kbdActive ≠ 0
  | _ => True

/-- The byte in the controller's buffer. -/
def waiting (o : OutputBuffer) : List U8 := if o.full then [o.data] else []

/-! ## Boot steps and the chips -/

variable {past : U8} {m : Machine} {k : Kernel ConsoleIo} {step : BootStep} {todo : List BootStep}

theorem nodup_kernelSteps : kernelSteps.Nodup := by decide

/-- The chips are set up before interrupts are enabled. -/
theorem todo_order (h : todo <:+ kernelSteps) :
    (.idtLoad ∉ todo → .picDisable ∉ todo) ∧ (.picDisable ∉ todo → .picRemap ∉ todo) := by
  have hall : ∀ l ∈ kernelSteps.tails, (BootStep.idtLoad ∉ l → BootStep.picDisable ∉ l) ∧
      (BootStep.picDisable ∉ l → BootStep.picRemap ∉ l) := by decide
  exact hall todo ((List.mem_tails _ _).mpr h)

/-- Only two lines are ever unmasked. -/
theorem picClearMask_mem {irq : U8} (h : .picClearMask irq ∈ kernelSteps) :
    irq = 0 ∨ irq = 1 := by
  simp only [kernelSteps, List.mem_cons, reduceCtorEq, BootStep.picClearMask.injEq, false_or,
    List.not_mem_nil, or_false] at h
  exact h.symm

theorem apply_port60 (step : BootStep) (k : Kernel ConsoleIo) :
    (step.apply k).port60 = k.port60 := by
  cases step <;> rfl

/-- After `pic_remap` a step changes the chips' masks at most. -/
theorem apply_quiet (hstep : step ≠ .picRemap) (h : Quiet k) :
    Quiet (step.apply k) ∧ (step.apply k).pics.master.irr = k.pics.master.irr := by
  cases step with
  | picRemap => exact absurd rfl hstep
  | picDisable =>
    show Quiet { k with pics := Pic.picDisable k.pics } ∧ (Pic.picDisable k.pics).master.irr = _
    rw [picDisable_eq h.programmed]
    exact ⟨h.of_registers rfl, rfl⟩
  | picClearMask irq =>
    refine ⟨h.mask irq _, ?_⟩
    rcases outb_mask h.programmed irq (inb (maskOf irq).1 k.pics &&& ~~~(maskOf irq).2)
      with hout | hout
    · exact congrArg (fun p => p.master.irr) hout
    · exact congrArg (fun p => p.master.irr) hout
  | _ => exact ⟨⟨h.programmed, h.idle⟩, rfl⟩

/-- All lines but the first two are masked. -/
def Masked (k : Kernel ConsoleIo) : Prop :=
  ∀ j, 2 ≤ j → j < 8 → k.pics.master.imr.getLsbD j = true

theorem masked_picDisable (h : Quiet k) : Masked (BootStep.picDisable.apply k) := by
  intro j _ hj
  show (Pic.picDisable k.pics).master.imr.getLsbD j = true
  rw [picDisable_eq h.programmed]
  show (0xFF : U8).getLsbD j = true
  revert j
  decide

theorem Masked.apply (h : Masked k) (hquiet : Quiet k) (hstep : step ≠ .picRemap)
    (hmem : step ∈ kernelSteps) : Masked (step.apply k) := by
  cases step with
  | picRemap => exact absurd rfl hstep
  | picDisable => exact masked_picDisable hquiet
  | picClearMask irq =>
    intro j h2 hj
    have hirq := picClearMask_mem hmem
    have hlow : irq < 8 := by
      rcases hirq with rfl | rfl <;> decide
    have hbit : (1#8 <<< irq.toNat).getLsbD j = false := by
      revert h2
      revert j
      rcases hirq with rfl | rfl <;> decide
    show (Pic.picClearMask irq k.pics).master.imr.getLsbD j = true
    rw [picClearMask_of_lt hquiet.programmed hlow, BitVec.getLsbD_and, BitVec.getLsbD_not, hbit,
      h j h2 hj, decide_eq_true hj]
    rfl
  | _ => exact h

/-- With these masks only the timer and the keyboard get through. -/
theorem Masked.line_lt (h : Masked k) {line : ℕ} {vector : U8} {pics : Pair}
    (hack : k.pics.acknowledge = some (line, vector, pics)) :
    line < 2 ∧ k.pics.master.irr.getLsbD line = true := by
  rcases Pair.acknowledge_waiting hack with ⟨hline, hirr, himr⟩ | ⟨-, himr⟩
  · have hlt : line < 2 := by
      by_contra hge
      rw [h line (by omega) hline] at himr
      cases himr
    exact ⟨hlt, hirr (by omega)⟩
  · rw [h 2 (le_refl 2) (by decide)] at himr
    cases himr

/-! ## The invariant -/

/-- What holds in every state. -/
structure Sound (m : Machine) : Prop where
  suffix : m.todo <:+ kernelSteps
  quiet : .picRemap ∉ m.todo → Quiet m.kernel
  request : .picRemap ∉ m.todo →
    m.kernel.pics.master.irr.getLsbD 1 = m.kernel.port60.full
  masked : .picDisable ∉ m.todo → Masked m.kernel
  on : m.interruptsOn = true → .idtLoad ∉ m.todo
  kept : m.kernel.port60.taken ++ waiting m.kernel.port60 ++ m.keys = m.typed

/-- With interrupts enabled the chips are set up. -/
theorem Sound.ready (h : Sound m) (hon : m.interruptsOn = true) :
    .picRemap ∉ m.todo ∧ .picDisable ∉ m.todo := by
  obtain ⟨hload, hdisable⟩ := todo_order h.suffix
  exact ⟨hdisable (hload (h.on hon)), hload (h.on hon)⟩

theorem sound_start (pics : Pair) : Sound (start pics) where
  suffix := List.suffix_rfl
  quiet := fun h => absurd (by decide : BootStep.picRemap ∈ kernelSteps) h
  request := fun h => absurd (by decide : BootStep.picRemap ∈ kernelSteps) h
  masked := fun h => absurd (by decide : BootStep.picDisable ∈ kernelSteps) h
  on := fun h => nomatch h
  kept := rfl

/-! ## One step -/

theorem boot_port60 (m : Machine) : m.boot.kernel.port60 = m.kernel.port60 := by
  unfold Machine.boot
  split
  · rfl
  · exact apply_port60 ..

theorem boot_of_todo (htodo : m.todo = step :: todo) :
    m.boot = { m with
      kernel := step.apply m.kernel
      interruptsOn := m.interruptsOn || step == .idtLoad
      todo := todo } := by
  rw [Machine.boot, htodo]

/-- A step that is still to come apart from the next one. -/
theorem notMem_todo {other : BootStep} (htodo : m.todo = step :: todo) (hne : step ≠ other)
    (hother : other ∉ todo) : other ∉ m.todo := by
  rw [htodo, List.mem_cons, not_or]
  exact ⟨hne.symm, hother⟩

/-- The chips after the next step, if they are set up by then. -/
theorem Sound.chips_after (h : Sound m) (htodo : m.todo = step :: todo)
    (hintime : step = .picRemap → m.kernel.port60.full = false) (hremap : .picRemap ∉ todo) :
    Quiet (step.apply m.kernel) ∧
      (step.apply m.kernel).pics.master.irr.getLsbD 1 = (step.apply m.kernel).port60.full := by
  rw [apply_port60]
  by_cases hstep : step = .picRemap
  · rw [hintime hstep, hstep]
    refine ⟨⟨programmed_picRemap _, idle_picRemap _⟩, ?_⟩
    show (Pic.picRemap m.kernel.pics).master.irr.getLsbD 1 = false
    rw [picRemap_eq]
    exact BitVec.getLsbD_zero
  · have hbefore := notMem_todo htodo hstep hremap
    obtain ⟨hquiet, hirr⟩ := apply_quiet hstep (h.quiet hbefore)
    rw [hirr]
    exact ⟨hquiet, h.request hbefore⟩

/-- The masks after the next step, if `pic_disable` is done by then. -/
theorem Sound.masked_after (h : Sound m) (htodo : m.todo = step :: todo)
    (hdisable : .picDisable ∉ todo) : Masked (step.apply m.kernel) := by
  have hsuffix : step :: todo <:+ kernelSteps := htodo ▸ h.suffix
  have hrest : todo <:+ kernelSteps := (List.suffix_cons step todo).trans hsuffix
  have hremap := (todo_order hrest).2 hdisable
  have hstep : step ≠ .picRemap := by
    rintro rfl
    exact (todo_order hsuffix).2 (by simpa using hdisable) List.mem_cons_self
  have hquiet := h.quiet (notMem_todo htodo hstep hremap)
  by_cases hmask : step = .picDisable
  · rw [hmask]
    exact masked_picDisable hquiet
  · exact (h.masked (notMem_todo htodo hmask hdisable)).apply hquiet hstep
      (hsuffix.subset List.mem_cons_self)

/-- Interrupts are on only after `idt_load`. -/
theorem Sound.on_after (h : Sound m) (htodo : m.todo = step :: todo)
    (hon : (m.interruptsOn || step == .idtLoad) = true) : .idtLoad ∉ todo := by
  rcases Bool.or_eq_true .. ▸ hon with hon | hload
  · intro hmem
    refine h.on hon ?_
    rw [htodo]
    exact List.mem_cons_of_mem step hmem
  · have hnodup : (step :: todo).Nodup :=
      nodup_kernelSteps.sublist (htodo ▸ h.suffix).sublist
    exact eq_of_beq hload ▸ (List.nodup_cons.mp hnodup).1

/-- A step of the kernel. -/
theorem Sound.boot (h : Sound m)
    (hintime : m.todo.head? = some .picRemap → m.kernel.port60.full = false) :
    Sound m.boot := by
  cases htodo : m.todo with
  | nil =>
    rw [Machine.boot, htodo]
    exact h
  | cons step todo =>
    have hintime' : step = .picRemap → m.kernel.port60.full = false := by
      rintro rfl
      exact hintime (by rw [htodo]; rfl)
    rw [boot_of_todo htodo]
    refine ⟨?_, fun hremap => (h.chips_after htodo hintime' hremap).1,
      fun hremap => (h.chips_after htodo hintime' hremap).2, h.masked_after htodo,
      h.on_after htodo, ?_⟩
    · exact (List.suffix_cons step todo).trans (htodo ▸ h.suffix)
    · show (step.apply m.kernel).port60.taken ++ waiting (step.apply m.kernel).port60 ++ _ = _
      rw [apply_port60]
      exact h.kept

/-- The controller hands over a byte. -/
theorem Sound.place (h : Sound m) : Sound m.place := by
  unfold Machine.place
  split
  · rename_i b keys hkeys hfull
    have hkept := h.kept
    refine ⟨h.suffix, fun hremap => ?_, fun hremap => ?_, fun hdisable => h.masked hdisable, h.on,
      ?_⟩
    · exact (h.quiet hremap).of_registers rfl
    · show (setBit m.kernel.pics.master.irr 1).getLsbD 1 = true
      rw [getLsbD_setBit _ (by decide), decide_eq_true rfl, Bool.or_true]
    · rw [hkeys, waiting, hfull] at hkept
      show m.kernel.port60.taken ++ [b] ++ keys = m.typed
      rw [← hkept, List.append_assoc, List.append_assoc]
      rfl
  · exact h

/-- Another device. -/
theorem Sound.assert (h : Sound m) {line : Fin 16} (hline : line ≠ 1) :
    Sound { m with kernel := { m.kernel with pics := m.kernel.pics.raise line } } := by
  unfold Pair.raise
  split
  · rename_i hlt
    refine ⟨h.suffix, fun hremap => ?_, fun hremap => ?_, fun hdisable => h.masked hdisable, h.on,
      h.kept⟩
    · exact (h.quiet hremap).of_registers rfl
    · have hne : (1 : ℕ) ≠ line := fun heq => hline (Fin.ext heq.symm)
      show (setBit m.kernel.pics.master.irr line).getLsbD 1 = m.kernel.port60.full
      rw [getLsbD_setBit _ hlt, decide_eq_false hne, Bool.or_false, h.request hremap]
  · exact ⟨h.suffix, fun hremap => (h.quiet hremap).of_registers rfl, h.request,
      fun hdisable => h.masked hdisable, h.on, h.kept⟩

/-- An interrupt in a state with interrupts enabled: what it does to the chips and to the
controller. -/
theorem Sound.takeInterrupt (h : Sound m) (past : U8) (hon : m.interruptsOn = true)
    (frame : InterruptStackFrame) (rsp : U64) {line : ℕ} {vector : U8} {pics : Pair}
    (hack : m.kernel.pics.acknowledge = some (line, vector, pics)) :
    let k' := Interrupts.takeInterrupt past frame rsp m.kernel
    (line = 0 ∨ line = 1 ∧ m.kernel.port60.full = true) ∧
      k'.pics = { m.kernel.pics with
        master := { m.kernel.pics.master with
          irr := clearBit m.kernel.pics.master.irr line } } ∧
      k'.port60 = if line = 1 ∧ m.kernel.keyboard.kbdActive ≠ 0 then m.kernel.port60.inb.2
        else m.kernel.port60 := by
  obtain ⟨hremap, hdisable⟩ := h.ready hon
  have hquiet := h.quiet hremap
  obtain ⟨hlt, hirr⟩ := (h.masked hdisable).line_lt hack
  refine ⟨?_, (takeInterrupt_pics past frame rsp hquiet.programmed hquiet.idle (by omega) hack).2,
    takeInterrupt_port60 past frame rsp hquiet.programmed (by omega) hack⟩
  obtain rfl | rfl : line = 0 ∨ line = 1 := by omega
  · exact Or.inl rfl
  · exact Or.inr ⟨rfl, by rw [← h.request hremap, hirr]⟩

theorem Sound.interrupt (h : Sound m) (frame : InterruptStackFrame) (rsp : U64)
    (hintime : InTime m (.interrupt frame rsp)) :
    Sound ((Event.interrupt frame rsp).apply past m) := by
  rw [Event.apply]
  by_cases hon : m.interruptsOn = true
  · rw [if_pos hon]
    cases hack : m.kernel.pics.acknowledge with
    | none =>
      rw [Interrupts.takeInterrupt, hack]
      exact h
    | some ack =>
      obtain ⟨line, vector, pics⟩ := ack
      obtain ⟨hline, hpics, hport⟩ := h.takeInterrupt past hon frame rsp hack
      obtain ⟨hremap, hdisable⟩ := h.ready hon
      have hrequest := h.request hremap
      have hkept := h.kept
      refine ⟨h.suffix, fun _ => ?_, fun _ => ?_, fun _ => ?_, h.on, ?_⟩
      · exact (h.quiet hremap).of_registers hpics
      · dsimp only
        rw [hpics, hport]
        rcases hline with rfl | ⟨rfl, hfull⟩
        · rw [if_neg fun hand => Nat.zero_ne_one hand.1, getLsbD_clearBit _ (by decide), hrequest]
          exact Bool.and_true _
        · rw [if_pos ⟨rfl, hintime hon vector pics hack⟩, getLsbD_clearBit _ (by decide)]
          exact Bool.and_false _
      · intro j h2 hj
        dsimp only
        rw [hpics]
        exact h.masked hdisable j h2 hj
      · dsimp only
        rw [hport]
        rcases hline with rfl | ⟨rfl, hfull⟩
        · rw [if_neg fun hand => Nat.zero_ne_one hand.1]
          exact hkept
        · -- the byte that waited is the byte read
          rw [if_pos ⟨rfl, hintime hon vector pics hack⟩, OutputBuffer.inb, hfull]
          rw [waiting, hfull] at hkept
          rw [← hkept]
          show _ ++ [] ++ _ = _
          rw [List.append_nil]
          rfl
  · rw [if_neg hon]
    exact h

/-- **One step.** -/
theorem Sound.apply (h : Sound m) {e : Event} (he : InTime m e) : Sound (e.apply past m) := by
  cases e with
  | boot => exact h.boot he
  | key b =>
    refine ⟨h.suffix, h.quiet, h.request, h.masked, h.on, ?_⟩
    show _ ++ (m.keys ++ [b]) = m.typed ++ [b]
    rw [← h.kept, List.append_assoc _ m.keys]
    rfl
  | place => exact h.place
  | assert line hline => exact h.assert hline
  | interrupt frame rsp => exact h.interrupt frame rsp he

/-! ## Runs -/

/-- What the keyboard is promised. -/
structure Served (past : U8) (m : Machine) : Prop where
  /-- The handler returns from line 1 with the byte read if and only if the driver has a
  handler. -/
  read : m.interruptsOn = true → ∀ frame rsp vector pics,
    m.kernel.pics.acknowledge = some (1, vector, pics) →
    ((takeInterrupt past frame rsp m.kernel).port60.full = false ↔
      m.kernel.keyboard.kbdActive ≠ 0)
  /-- Every byte has been read, or is waiting in the controller, or is still to come. -/
  kept : m.kernel.port60.taken ++ waiting m.kernel.port60 ++ m.keys = m.typed
  /-- A byte that waits has its interrupt pending, and nothing holds it up. -/
  raised : m.interruptsOn = true → m.kernel.port60.full = true →
    m.kernel.pics.master.irr.getLsbD 1 = true ∧ m.kernel.pics.Idle ∧
      (m.kernel.pics.master.imr.getLsbD 1 = false → m.kernel.pics.acknowledge.isSome)

theorem Sound.served (h : Sound m) (past : U8) : Served past m where
  read := by
    intro hon frame rsp vector pics hack
    obtain ⟨hline, -, hport⟩ := h.takeInterrupt past hon frame rsp hack
    have hfull : m.kernel.port60.full = true := by
      rcases hline with hzero | ⟨-, hfull⟩
      · exact absurd hzero (by decide)
      · exact hfull
    rw [hport]
    by_cases hactive : m.kernel.keyboard.kbdActive = 0
    · rw [if_neg fun hand => hand.2 hactive, hfull]
      simp [hactive]
    · rw [if_pos ⟨rfl, hactive⟩]
      exact iff_of_true rfl hactive
  kept := h.kept
  raised := by
    intro hon hfull
    obtain ⟨hremap, -⟩ := h.ready hon
    have hirr := (h.request hremap).trans hfull
    exact ⟨hirr, (h.quiet hremap).idle, fun himr =>
      Pair.acknowledge_of_master (h.quiet hremap).idle (by decide) ⟨hirr, himr⟩⟩

/-- **Keys while booting.**  In every interleaving of the boot steps with key events and
other devices in which no byte waits when the chips are reset and the driver has its handler
when the keyboard's interrupt is taken, every such interrupt reads its byte, and no byte is
lost or left. -/
theorem keys_served {pics : Pair} {events : List Event}
    (hrun : Run (Event.apply past) InTime (start pics) events m) : Served past m :=
  (hrun.invariant (sound_start pics) fun _ _ hm he => hm.apply he).served past

/-- The boot steps by themselves keep the discipline. -/
theorem run_boot (past : U8) (pics : Pair) (n : ℕ) :
    Run (Event.apply past) InTime (start pics) (List.replicate n .boot)
      (Machine.boot^[n] (start pics)) ∧
    (Machine.boot^[n] (start pics)).kernel.port60.full = false := by
  induction n with
  | zero => exact ⟨.start, rfl⟩
  | succ n ih =>
    obtain ⟨hrun, hempty⟩ := ih
    have hnext : Machine.boot^[n + 1] (start pics) = (Machine.boot^[n] (start pics)).boot :=
      Function.iterate_succ_apply' ..
    rw [List.replicate_succ', hnext]
    exact ⟨hrun.step fun _ => hempty, by rw [boot_port60, hempty]⟩

/-- A key pressed once the kernel has booted. -/
def keyAfterBoot (pics : Pair) : Machine :=
  Event.place.apply 0 ((Event.key 0x1E).apply 0 (Machine.boot^[18] (start pics)))

/-- It is read. -/
theorem keys_served_after_boot :
    (takeInterrupt 0 noFrame 0 (keyAfterBoot (Kernel.zero ()).pics).kernel).port60.full
      = false := by
  have hboot := (run_boot 0 (Kernel.zero ()).pics 18).1
  have hkey := hboot.step (show InTime _ (.key 0x1E) from trivial)
  have hplace := hkey.step (show InTime _ .place from trivial)
  exact ((keys_served hplace).read rfl noFrame 0 0x21 _ rfl).mpr (by decide)

/-- A key pressed right after `idt_init` is not, nor is any key after it. -/
theorem key_not_read :
    ¬ ∀ (past : U8) (pics : Pair) (events : List Event) (m : Machine),
      Run (Event.apply past) (fun _ _ => True) (start pics) events m →
      m.interruptsOn = true → ∀ frame rsp vector pics,
        m.kernel.pics.acknowledge = some (1, vector, pics) →
        (takeInterrupt past frame rsp m.kernel).port60.full = false := by
  intro hclaim
  have hrun := run_foldl (Event.apply 0) (start (Kernel.zero ()).pics)
    (List.replicate 10 .boot ++ [.key 0x1E, .place])
  have hread := hclaim 0 _ _ _ hrun rfl noFrame 0 0x21 _ rfl
  exact absurd hread (by decide)

end Boot
