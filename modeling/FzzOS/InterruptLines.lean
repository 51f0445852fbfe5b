/-
# Interrupt lines

The sixteen lines from the chips through `interrupt_handler` and back to the chips.

* `takeInterrupt` : the processor takes an interrupt and the handler runs to its end;
* `takeInterrupt_pics` : for a line of the master, the chips are left idle;
* `lines_handled` : in every run after `pic_remap` in which only lines of the master are
  delivered, lines are told apart, acknowledged and never blocked.  Both chips count their
  vectors from 0x20, so a line of the slave is taken for one of the master's.
-/
import FzzOS.InterruptHandler
import FzzOS.Runs

open I8259 Kbd Pic Runs

namespace Interrupts

variable {σ : Type} {past : U8} {frame : InterruptStackFrame} {rsp : U64} {k k₀ : Kernel σ}
  {line : ℕ} {vector : U8} {pics : Pair}

/-! ## Deliveries -/

/-- The frame of an interrupt with the vector the chips give. -/
def withVector (frame : InterruptStackFrame) (vector : U8) : InterruptStackFrame :=
  { frame with intNo := vector.setWidth 64 }

/-- The processor asks the chips and runs the handler to its end. -/
def takeInterrupt (past : U8) (frame : InterruptStackFrame) (rsp : U64) (k : Kernel σ) :
    Kernel σ :=
  match k.pics.acknowledge with
  | none => k
  | some (_, vector, pics) =>
    (interruptHandler past (withVector frame vector) rsp { k with pics := pics }).2

/-- Bits that `after` has beyond those of `before`. -/
def newBits (before after : U8) : U8 := after &&& ~~~before

/-- A delivery in state `k` is handled well: the handler computes the line that was
delivered, and of the bits the delivery sets in service none is left. -/
def Handled (past : U8) (frame : InterruptStackFrame) (rsp : U64) (k : Kernel σ) : Prop :=
  ∀ line vector pics, k.pics.acknowledge = some (line, vector, pics) →
    irqOf (withVector frame vector) = BitVec.ofNat 64 line ∧
    let left := (takeInterrupt past frame rsp k).pics
    newBits k.pics.master.isr pics.master.isr &&& left.master.isr = 0 ∧
      newBits k.pics.slave.isr pics.slave.isr &&& left.slave.isr = 0

/-- A line that is asserted and not masked, for a line of the slave not on the master
either. -/
def Waiting (p : Pair) (line : ℕ) : Prop :=
  if line < 8 then p.master.Waiting line
  else p.slave.Waiting (line - 8) ∧ p.master.imr.getLsbD 2 = false

theorem takeInterrupt_of_some (h : k.pics.acknowledge = some (line, vector, pics)) :
    takeInterrupt past frame rsp k
      = (interruptHandler past (withVector frame vector) rsp { k with pics := pics }).2 := by
  rw [takeInterrupt, h]

/-- The vector of a line of the master. -/
theorem withVector_intNo (frame : InterruptStackFrame) (hline : line < 8) :
    (withVector frame (0x20 + BitVec.ofNat 8 line)).intNo = BitVec.ofNat 64 (32 + line) := by
  show (0x20 + BitVec.ofNat 8 line : U8).setWidth 64 = _
  bv_omega

/-- **A line of the master.**  The chips are left as they were, but for the request. -/
theorem takeInterrupt_pics (past : U8) (frame : InterruptStackFrame) (rsp : U64)
    (hprog : Programmed k.pics) (hidle : k.pics.Idle) (hline : line < 8)
    (h : k.pics.acknowledge = some (line, vector, pics)) :
    irqOf (withVector frame vector) = BitVec.ofNat 64 line ∧
      (takeInterrupt past frame rsp k).pics =
        { k.pics with
          master := { k.pics.master with irr := clearBit k.pics.master.irr line } } := by
  rcases Pair.acknowledge_cases h with ⟨-, rfl, rfl⟩ | ⟨j, -, rfl, -⟩
  · have hint := withVector_intNo frame hline
    rw [hprog.masterBase] at h ⊢
    refine ⟨irqOf_eq hint, ?_⟩
    have hpics := (interruptHandler_irq past rsp
      { k with pics := { k.pics with master := k.pics.master.serve line } } (by omega) hint).2.1
    rw [takeInterrupt_of_some h, hpics, picEOI_of_lt (by bv_omega)]
    dsimp only
    rw [Chip.endOfInterrupt_serve hidle.master hline]
  · omega

/-- The keyboard's byte is read for line 1, if the driver has a handler. -/
theorem takeInterrupt_port60 (past : U8) (frame : InterruptStackFrame) (rsp : U64)
    (hprog : Programmed k.pics) (hline : line < 8)
    (h : k.pics.acknowledge = some (line, vector, pics)) :
    (takeInterrupt past frame rsp k).port60
      = if line = 1 ∧ k.keyboard.kbdActive ≠ 0 then k.port60.inb.2 else k.port60 := by
  rcases Pair.acknowledge_cases h with ⟨-, rfl, rfl⟩ | ⟨j, -, rfl, -⟩
  · have hint := withVector_intNo frame hline
    rw [hprog.masterBase] at h
    have hport := (interruptHandler_irq past rsp
      { k with pics := { k.pics with master := k.pics.master.serve line } } (by omega) hint).2.2.1
    rw [takeInterrupt_of_some h, hport]
    by_cases hone : line = 1
    · rw [if_pos hone, kbdHandle_port60]
      simp only [hone, true_and, ite_not]
    · rw [if_neg hone, if_neg fun hand => hone hand.1]
  · omega

/-- **A line of the slave** is taken for the line of the master with its number less
eight. -/
theorem irqOf_slave (frame : InterruptStackFrame) (hprog : Programmed k.pics) (hline : 8 ≤ line)
    (h : k.pics.acknowledge = some (line, vector, pics)) :
    irqOf (withVector frame vector) = BitVec.ofNat 64 (line - 8) ∧ line < 16 := by
  rcases Pair.acknowledge_cases h with ⟨hlt, -⟩ | ⟨j, hj, rfl, rfl, -⟩
  · omega
  · rw [hprog.slaveBase, irqOf_eq (withVector_intNo frame hj), Nat.add_sub_cancel_left]
    exact ⟨rfl, by omega⟩

/-! ## Runs -/

/-- What happens to the chips after `pic_remap`. -/
inductive Event
  /-- A device asserts a line. -/
  | assert (line : Fin 16)
  | picSetMask (irq : U8)
  | picClearMask (irq : U8)
  /-- The processor takes an interrupt, with the rest of the frame and its address. -/
  | interrupt (frame : InterruptStackFrame) (rsp : U64)

/-- What an event does to the machine. -/
def Event.apply (past : U8) : Event → Kernel σ → Kernel σ
  | .assert line, k => { k with pics := k.pics.raise line }
  | .picSetMask irq, k => { k with pics := Pic.picSetMask irq k.pics }
  | .picClearMask irq, k => { k with pics := Pic.picClearMask irq k.pics }
  | .interrupt frame rsp, k => takeInterrupt past frame rsp k

/-- Only lines of the master are delivered. -/
def OnMaster (k : Kernel σ) : Event → Prop
  | .interrupt .. => ∀ line vector pics, k.pics.acknowledge = some (line, vector, pics) → line < 8
  | _ => True

/-- What every step keeps. -/
structure Quiet (k : Kernel σ) : Prop where
  programmed : Programmed k.pics
  idle : k.pics.Idle

/-- Requests and masks may change. -/
theorem Quiet.of_registers {k' : Kernel σ} {irr imr irr' imr' : U8} (h : Quiet k)
    (hpics : k'.pics =
      ⟨{ k.pics.master with irr := irr, imr := imr },
        { k.pics.slave with irr := irr', imr := imr' }⟩) :
    Quiet k' := by
  constructor
  · rw [hpics]
    exact ⟨h.programmed.1, h.programmed.2, h.programmed.3, h.programmed.4⟩
  · rw [hpics]
    exact ⟨h.idle.master, h.idle.slave⟩

theorem Quiet.mask (h : Quiet k) (irq v : U8) :
    Quiet { k with pics := outb (maskOf irq).1 v k.pics } := by
  rcases outb_mask h.programmed irq v with hout | hout
  · exact h.of_registers hout
  · exact h.of_registers hout

theorem Quiet.raise (h : Quiet k) (line : ℕ) :
    Quiet { k with pics := k.pics.raise line } := by
  unfold Pair.raise
  split
  · exact h.of_registers rfl
  · exact h.of_registers rfl

/-- **One step.** -/
theorem Quiet.apply (h : Quiet k) {e : Event} (he : OnMaster k e) : Quiet (e.apply past k) := by
  cases e with
  | assert line => exact h.raise line
  | picSetMask irq => exact h.mask irq _
  | picClearMask irq => exact h.mask irq _
  | interrupt frame rsp =>
    show Quiet (takeInterrupt past frame rsp k)
    cases hack : k.pics.acknowledge with
    | none =>
      rw [takeInterrupt, hack]
      exact h
    | some ack =>
      obtain ⟨line, vector, pics⟩ := ack
      obtain ⟨-, hpics⟩ := takeInterrupt_pics past frame rsp
        h.programmed h.idle (he line vector pics hack) hack
      exact h.of_registers hpics

/-- A delivery is handled well if and only if it is one of the master's. -/
theorem Quiet.handled_iff (h : Quiet k) (past : U8) (frame : InterruptStackFrame) (rsp : U64) :
    Handled past frame rsp k ↔ OnMaster k (.interrupt frame rsp) := by
  constructor
  · intro hhandled line vector pics hack
    by_contra hline
    obtain ⟨hirq, hlt⟩ := irqOf_slave frame h.programmed (by omega) hack
    have hsame := hirq.symm.trans (hhandled line vector pics hack).1
    bv_omega
  · intro hmaster line vector pics hack
    obtain ⟨hirq, hpics⟩ := takeInterrupt_pics past frame rsp
      h.programmed h.idle (hmaster line vector pics hack) hack
    refine ⟨hirq, ?_⟩
    rw [hpics]
    dsimp only
    rw [h.idle.master, h.idle.slave]
    exact ⟨BitVec.and_zero, BitVec.and_zero⟩

/-- **Interrupt lines.**  In every run after `pic_remap` in which every line delivered is one
of the master's, the next delivery is handled well exactly if it is one of the master's too,
nothing is left in service, and no line that waits is blocked. -/
theorem lines_handled (k₀ : Kernel σ) {events : List Event}
    (hrun : Run (Event.apply past) OnMaster { k₀ with pics := picRemap k₀.pics } events k) :
    (∀ frame rsp, Handled past frame rsp k ↔ OnMaster k (.interrupt frame rsp)) ∧
      k.pics.Idle ∧ ∀ line < 16, Waiting k.pics line → k.pics.acknowledge.isSome := by
  have hstart : Quiet { k₀ with pics := picRemap k₀.pics } :=
    ⟨programmed_picRemap k₀.pics, idle_picRemap k₀.pics⟩
  have hquiet : Quiet k := hrun.invariant hstart fun s e hs he => hs.apply he
  refine ⟨hquiet.handled_iff past, hquiet.idle, fun line hline hwaiting => ?_⟩
  rw [Waiting] at hwaiting
  split at hwaiting
  · rename_i hlt
    exact Pair.acknowledge_of_master hquiet.idle hlt hwaiting
  · exact Pair.acknowledge_of_slave hquiet.idle (by omega) hwaiting.1 hwaiting.2

/-- The kernel right after `pic_remap`. -/
def remappedKernel : Kernel Unit :=
  { Kernel.zero () with pics := picRemap (Kernel.zero ()).pics }

/-- An empty frame. -/
def noFrame : InterruptStackFrame :=
  ⟨0, 0, 0, 0, 0, 0, 0, 0, 0, 0, 0, 0, 0, 0, 0, 0, 0, 0, 0, 0, 0, 0⟩

/-- The timer is served. -/
theorem lines_handled_timer :
    ([Event.assert 0, .interrupt noFrame 0].foldl (fun k e => e.apply 0 k)
      remappedKernel).pics.Idle := by
  have hassert : Run (Event.apply 0) OnMaster remappedKernel [.assert 0]
      ((Event.assert 0).apply 0 remappedKernel) := Run.start.step trivial
  have hmaster : OnMaster ((Event.assert 0).apply 0 remappedKernel) (.interrupt noFrame 0) := by
    intro line vector pics hack
    cases hack
    decide
  exact (lines_handled (Kernel.zero ()) (hassert.step hmaster)).2.1

/-- The mouse on line 12 is taken for line 4. -/
theorem slave_line_misrouted :
    ¬ ∀ (σ : Type) (past : U8) (k₀ k : Kernel σ) (events : List Event),
      Run (Event.apply past) (fun _ _ => True) { k₀ with pics := picRemap k₀.pics } events k →
      ∀ frame rsp, Handled past frame rsp k := by
  intro hclaim
  have hrun : Run (Event.apply 0) (fun _ _ => True) remappedKernel [.assert 12]
      ((Event.assert 12).apply 0 remappedKernel) := Run.start.step trivial
  have hhandled := hclaim Unit 0 (Kernel.zero ()) _ _ hrun noFrame 0 12 0x24 _ rfl
  exact absurd hhandled.1 (by decide)

end Interrupts
