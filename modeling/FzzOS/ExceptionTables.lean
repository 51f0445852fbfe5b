/-
# The tables of the exception reporter

A panic prints the name of the exception and, for a page fault, an entry of a second table.
That table has a name for each bit of the error code; it is indexed by the code itself.

* `pageFaultErrors`, `exceptionMessages` : the tables;
* `Output.InTables` : a table is read within its bounds;
* `printed_inTables_iff` : the frames that are reported without reading past a table.
-/
import FzzOS.InterruptHandler

/-- `_page_fault_errors`. -/
def pageFaultErrors : List String :=
  ["Present", "Write", "User", "Reserved Write", "Instruction Fetch", "Protection Key",
    "Shadow Stack", "SGX Violation"]

/-- `_exception_messages`. -/
def exceptionMessages : List String :=
  ["Division by Zero", "Debug", "NMI", "Breakpoint", "Detected Overflow", "Out of Bounds",
    "Invalid opcode", "No coprocessor", "Double Fault", "Coprossor Segment Overrun", "Bad TSS",
    "Segment not Present", "Stack Fault", "General Protection Fault", "Page Fault",
    "Unknown INT", "Coprocessor fault", "Alignment check", "Machine check"]
    ++ List.replicate 13 "Reserved"

/-- An entry of a table is printed only if the table has it. -/
def Output.InTables : Output → Prop
  | .text _ _ => True
  | .exceptionMessage n => n.toNat < exceptionMessages.length
  | .pageFaultError n => n.toNat < pageFaultErrors.length

namespace Interrupts

variable {σ : Type} {frame : InterruptStackFrame} {k k' : Kernel σ} {l l' : List Output}

/-! ## What is printed -/

/-- What was printed between two states, on the serial port and on the screen. -/
def printed (k k' : Kernel σ) : List Output :=
  k'.serial.drop k.serial.length ++ k'.screen.drop k.screen.length

theorem printed_of_append (hserial : k'.serial = k.serial ++ l)
    (hscreen : k'.screen = k.screen ++ l') : printed k k' = l ++ l' := by
  rw [printed, hserial, hscreen, List.drop_left, List.drop_left]

/-- The screen gets texts that read no table out of bounds, the serial port nothing. -/
def TextsOnly (k k' : Kernel σ) : Prop :=
  ∃ l, (∀ o ∈ l, o.InTables) ∧ k'.serial = k.serial ∧ k'.screen = k.screen ++ l

namespace TextsOnly

theorem of_silent (hserial : k'.serial = k.serial) (hscreen : k'.screen = k.screen) :
    TextsOnly k k' :=
  ⟨[], by simp, hserial, hscreen.trans (List.append_nil _).symm⟩

theorem text (format : String) (args : List U64) (k : Kernel σ) :
    TextsOnly k (k.printf (.text format args)) :=
  ⟨[.text format args], by simp [Output.InTables], rfl, rfl⟩

theorem trans {k'' : Kernel σ} (h : TextsOnly k k') (h' : TextsOnly k' k'') : TextsOnly k k'' := by
  obtain ⟨l, hl, hserial, hscreen⟩ := h
  obtain ⟨l', hl', hserial', hscreen'⟩ := h'
  refine ⟨l ++ l', List.forall_mem_append.mpr ⟨hl, hl'⟩, hserial'.trans hserial, ?_⟩
  rw [hscreen', hscreen, List.append_assoc]

theorem printed (h : TextsOnly k k') : ∀ o ∈ printed k k', o.InTables := by
  obtain ⟨l, hl, hserial, hscreen⟩ := h
  rwa [printed_of_append (hserial.trans (List.append_nil _).symm) hscreen, List.nil_append]

/-- The keyboard driver. -/
theorem kbdHandle (past : U8) (k : Kernel σ) : TextsOnly k (Kbd.kbdHandle past k) := by
  unfold Kbd.kbdHandle Kbd.kbdSwitch
  split_ifs
  case pos => exact of_silent rfl rfl
  case pos => exact of_silent rfl rfl
  case pos => exact of_silent rfl rfl
  case pos => exact of_silent rfl rfl
  case pos => exact of_silent rfl rfl
  case pos => exact text "%d\n" [k.pitTicks] k
  case neg => cases k.keyboard.kbdHandler <;> exact of_silent rfl rfl

/-- An interrupt line that is not expected is printed. -/
theorem unexpected (intNo irq : U64) (k : Kernel σ) : TextsOnly k
    (if irq > 1 then k.printf (.text "INT: %d  IRQ: %d  \n" [intNo, irq]) else k) := by
  split_ifs
  · exact text ..
  · exact of_silent rfl rfl

/-- The timer and the keyboard. -/
theorem line (past : U8) (irq : U64) (k : Kernel σ) : TextsOnly k
    (if irq = 0 then { k with pitTicks := k.pitTicks + 1 }
      else if irq = 1 then Kbd.kbdHandle past k else k) := by
  split_ifs
  · exact of_silent rfl rfl
  · exact kbdHandle past k
  · exact of_silent rfl rfl

/-- Everything but an exception. -/
theorem interruptHandler (past : U8) (rsp : U64) (k : Kernel σ) (h : ¬ frame.intNo < 32) :
    TextsOnly k (interruptHandler past frame rsp k).2 := by
  rw [Interrupts.interruptHandler, if_neg h]
  by_cases hline : frame.intNo < 48
  · rw [if_pos hline]
    exact (unexpected frame.intNo _ k).trans ((line past _ _).trans (of_silent rfl rfl))
  · rw [if_neg hline]
    split_ifs
    · exact text ..
    · exact of_silent rfl rfl

end TextsOnly

/-! ## The report of an exception -/

theorem exceptionText_inTables_iff (h : frame.intNo < 32) :
    (∀ o ∈ exceptionText frame, o.InTables) ↔ (frame.intNo = 0xE → frame.errNo < 8) := by
  have hmessage : (Output.exceptionMessage frame.intNo).InTables := h
  have herror : (Output.pageFaultError frame.errNo).InTables ↔ frame.errNo < 8 := Iff.rfl
  have htext : (Output.text "\n" []).InTables := trivial
  rw [exceptionText, List.forall_mem_append,
    and_iff_right (by simpa only [List.forall_mem_cons] using ⟨hmessage, htext, by simp⟩)]
  split_ifs with hfault
  · simp [herror, htext, hfault]
  · exact iff_of_true (by simp) fun hc => absurd hc hfault

theorem registerText_inTables (frame : InterruptStackFrame) :
    ∀ o ∈ registerText frame, o.InTables := by
  simp [registerText, Output.InTables]

theorem panicText_inTables_iff (h : frame.intNo < 32) (k : Kernel σ) :
    (∀ o ∈ printed k (panicText frame k), o.InTables) ↔
      (frame.intNo = 0xE → frame.errNo < 8) := by
  rw [← exceptionText_inTables_iff h]
  have hall : ∀ format args, (∀ o ∈ Output.text format args :: exceptionText frame
      ++ registerText frame, o.InTables) ↔ ∀ o ∈ exceptionText frame, o.InTables := by
    intro format args
    rw [List.forall_mem_append, List.forall_mem_cons]
    exact ⟨fun h => h.1.2, fun h => ⟨⟨trivial, h⟩, registerText_inTables frame⟩⟩
  rw [panicText, Kernel.foldl_printf, Kernel.foldl_serialPrintf, printed_of_append rfl rfl,
    List.forall_mem_append, hall, hall, and_self]

/-! ## All interrupts -/

/-- **The tables are read within their bounds exactly if the error code of a page fault in the
kernel is below 8.** -/
theorem printed_inTables_iff (past : U8) (frame : InterruptStackFrame) (rsp : U64)
    (k : Kernel σ) :
    (∀ o ∈ printed k (interruptHandler past frame rsp k).2, o.InTables) ↔
      (frame.intNo = 0xE → frame.cs = 0x08 → frame.errNo < 8) := by
  by_cases hexception : frame.intNo < 32
  · rw [interruptHandler, if_pos hexception]
    split_ifs with hkernel
    · rw [panicText_inTables_iff hexception]
      exact ⟨fun h hfault _ => h hfault, fun h hfault => h hfault hkernel⟩
    · have hsilent : printed k k = [] := by simp [printed]
      rw [hsilent]
      exact iff_of_true (by simp) fun _ hcs => absurd hcs hkernel
  · refine iff_of_true (TextsOnly.interruptHandler past rsp k hexception).printed fun hfault => ?_
    exact absurd (by rw [hfault]; decide) hexception

/-- A jump to a page that is not mapped: bit 4 of the error code, an instruction fetch. -/
def fetchFault : InterruptStackFrame :=
  ⟨0, 0, 0, 0, 0, 0, 0, 0, 0, 0, 0, 0, 0, 0, 0, 0xE, 0x10, 0, 0x08, 0, 0, 0⟩

/-- The report of this fault reads past the table of page-fault errors. -/
theorem not_printed_inTables : ¬ ∀ o ∈ printed (Kernel.zero ())
    (interruptHandler 0 fetchFault 0 (Kernel.zero ())).2, o.InTables := by
  intro h
  have herror : (0x10 : U64).toNat < 8 := h (.pageFaultError 0x10) (by decide)
  exact absurd herror (by decide)

end Interrupts
