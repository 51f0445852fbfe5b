/-
# The shift keys over a run of interrupts

Any interrupts in any order, among them those by which the keyboard delivers its bytes.  The
keyboard driver is heard of only through the handler registered with it.

* `bytesOf` : the bytes a run delivers;
* `Listening.interrupts` : the invariant, the driver knows which shift keys are held;
* `shift_tracked` : what every key is translated with, and what the handler is given.
-/
import FzzOS.InterruptHandler
import FzzOS.Latch

open Kbd Interrupts

namespace ShiftKeys

variable {σ : Type} {handler : KeyInfo → σ → σ} {s : Shift} {k : Kernel σ}

/-! ## Interrupts -/

/-- An interrupt: the frame and its address, and the byte that the keyboard has placed if the
interrupt is the keyboard's. -/
structure Interrupt where
  frame : InterruptStackFrame
  rsp : U64
  byte : U8

/-- Vector 33 is line 1. -/
def Interrupt.isKey (i : Interrupt) : Bool := i.frame.intNo = 33

/-- One interrupt. -/
def interrupt (past : U8) (k : Kernel σ) (i : Interrupt) : Kernel σ :=
  (interruptHandler past i.frame i.rsp
    (if i.isKey then { k with port60 := k.port60.place i.byte } else k)).2

/-- Some interrupts, one after the other. -/
def interrupts (past : U8) (run : List Interrupt) (k : Kernel σ) : Kernel σ :=
  run.foldl (interrupt past) k

/-- The bytes delivered in a run. -/
def bytesOf (run : List Interrupt) : List U8 := (run.filter (·.isKey)).map (·.byte)

/-! ## One interrupt -/

/-- A panic prints, and does nothing else to what the driver knows. -/
theorem panicText_frame (frame : InterruptStackFrame) (k : Kernel σ) :
    (panicText frame k).keyboard = k.keyboard ∧ (panicText frame k).target = k.target := by
  rw [panicText, Kernel.foldl_printf, Kernel.foldl_serialPrintf]
  exact ⟨rfl, rfl⟩

/-- The keyboard's interrupt is a byte for the driver. -/
theorem interrupt_of_isKey (past : U8) {i : Interrupt} (h : i.isKey) (k : Kernel σ) :
    (interrupt past k i).keyboard = (press past i.byte k).keyboard ∧
      (interrupt past k i).target = (press past i.byte k).target := by
  have hvector : i.frame.intNo = 33 := of_decide_eq_true h
  have hline : irqOf i.frame = 1 := by rw [irqOf, hvector]; rfl
  rw [interrupt, if_pos h, interruptHandler, if_neg (by rw [hvector]; decide),
    if_pos (by rw [hvector]; decide)]
  dsimp only
  rw [hline]
  exact ⟨rfl, rfl⟩

/-- Any other interrupt leaves the driver alone. -/
theorem interrupt_of_not_isKey (past : U8) {i : Interrupt} (h : ¬ i.isKey) (k : Kernel σ) :
    (interrupt past k i).keyboard = k.keyboard ∧ (interrupt past k i).target = k.target := by
  have hvector : i.frame.intNo ≠ 33 := fun hc => h (decide_eq_true hc)
  have hline : irqOf i.frame ≠ 1 := by
    rw [irqOf]
    bv_omega
  rw [interrupt, if_neg h, interruptHandler]
  dsimp only
  split_ifs
  · exact panicText_frame i.frame k
  all_goals exact ⟨rfl, rfl⟩

/-! ## The invariant -/

theorem Listening.of_keyboard {k' : Kernel σ} (h : Listening handler s k)
    (hk : k'.keyboard = k.keyboard) : Listening handler s k' :=
  ⟨hk ▸ h.active, hk ▸ h.handler, hk ▸ h.tracks⟩

/-- **The invariant over a run**, and what the handler is given in it. -/
theorem Listening.interrupts (h : Listening handler s k) (past : U8) (run : List Interrupt) :
    Listening handler ((bytesOf run).foldl Shift.next s) (interrupts past run k) ∧
      (interrupts past run k).target
        = (delivered past s (bytesOf run)).foldl (fun t key => handler key t) k.target := by
  induction run generalizing s k with
  | nil => exact ⟨h, rfl⟩
  | cons i run ih =>
    by_cases hi : i.isKey
    · obtain ⟨hkeyboard, htarget⟩ := interrupt_of_isKey past hi k
      obtain ⟨hnext, hpress⟩ := h.press past i.byte
      obtain ⟨hlist, hrest⟩ := ih (Listening.of_keyboard hnext hkeyboard)
      have hbytes : bytesOf (i :: run) = i.byte :: bytesOf run := by
        rw [bytesOf, List.filter_cons_of_pos hi, List.map_cons, bytesOf]
      rw [hbytes, foldl_delivered, ← hpress, ← htarget]
      exact ⟨hlist, hrest⟩
    · obtain ⟨hkeyboard, htarget⟩ := interrupt_of_not_isKey past hi k
      have hbytes : bytesOf (i :: run) = bytesOf run := by
        rw [bytesOf, List.filter_cons_of_neg hi, bytesOf]
      rw [hbytes, ← htarget]
      exact ih (Listening.of_keyboard h hkeyboard)

/-- The scancodes the handler is given. -/
theorem map_scancode_delivered (past : U8) (s : Shift) (bs : List U8) :
    (delivered past s bs).map (·.scancode) = bs.filter Reaches := by
  induction bs generalizing s with
  | nil => rfl
  | cons b bs ih =>
    rw [delivered]
    by_cases hb : Reaches b
    · rw [if_pos hb, List.map_cons, ih, List.filter_cons_of_pos (by simpa using hb)]
    · rw [if_neg hb, ih, List.filter_cons_of_neg (by simpa using hb)]

/-! ## The shift keys as two latches -/

theorem Shift.left_next (s : Shift) (b : U8) :
    Latch.next leftShift (leftShift + 0x80) s.left b = (s.next b).left := by
  unfold Shift.next Latch.next
  split_ifs with hl hlb hr hr
  · rfl
  · exact absurd (hlb.symm.trans hr) (by decide)
  all_goals rfl

theorem Shift.right_next (s : Shift) (b : U8) :
    Latch.next rightShift (rightShift + 0x80) s.right b = (s.next b).right := by
  unfold Shift.next Latch.next
  split_ifs with hr hl hrb hl hlb
  · exact absurd (hr.symm.trans hl) (by decide)
  · rfl
  · exact absurd (hrb.symm.trans hl) (by decide)
  · exact absurd (hrb.symm.trans hlb) (by decide)
  all_goals rfl

/-- A shift key is held after some bytes if its last code in them was a make code. -/
def ShiftHeld (bs : List U8) : Prop :=
  Latch.LastOn leftShift (leftShift + 0x80) bs ∨ Latch.LastOn rightShift (rightShift + 0x80) bs

theorem held_iff (bs : List U8) :
    (bs.foldl Shift.next ⟨false, false⟩).held = true ↔ ShiftHeld bs := by
  rw [Shift.held, Bool.or_eq_true, ← List.foldl_hom Shift.left Shift.left_next,
    ← List.foldl_hom Shift.right Shift.right_next, Latch.foldl_next (by decide),
    Latch.foldl_next (by decide), ShiftHeld]

/-! ## Any run after a handler is registered -/

/-- `kbd_set_target`. -/
def listen (handler : KeyInfo → σ → σ) (k : Kernel σ) : Kernel σ :=
  { k with keyboard := kbdSetTarget handler k.keyboard }

theorem listen_listening (hleft : k.keyboard.lshiftStatus = 0)
    (hright : k.keyboard.rshiftStatus = 0) :
    Listening handler ⟨false, false⟩ (listen handler k) where
  active := by show (1 : U8) ≠ 0; decide
  handler := rfl
  tracks := ⟨hleft, hright⟩

/-- **The shift keys are tracked.**  After any run, a key that gets as far as the translation
is translated as uppercase exactly if a shift key is held; and the handler has been called
once for each such key of the run, in order. -/
theorem shift_tracked (past : U8) (handler : KeyInfo → σ → σ) (k : Kernel σ)
    (hleft : k.keyboard.lshiftStatus = 0) (hright : k.keyboard.rshiftStatus = 0)
    (run : List Interrupt) :
    let t := interrupts past run (listen handler k)
    let uppercase := t.keyboard.lshiftStatus ||| t.keyboard.rshiftStatus
    (uppercase ≠ 0 ↔ ShiftHeld (bytesOf run)) ∧
    (∀ i : Interrupt, i.isKey → Reaches i.byte →
      (interrupt past t i).target
        = handler ⟨i.byte, kbdTranslate past i.byte uppercase⟩ t.target) ∧
    ∃ keys : List KeyInfo, keys.map (·.scancode) = (bytesOf run).filter Reaches ∧
      t.target = keys.foldl (fun t key => handler key t) k.target := by
  intro t uppercase
  have hstart : Listening handler ⟨false, false⟩ (listen handler k) := listen_listening hleft hright
  obtain ⟨hlistening, htarget⟩ := Listening.interrupts hstart past run
  have huppercase : uppercase
      = if ((bytesOf run).foldl Shift.next ⟨false, false⟩).held then 1 else 0 :=
    hlistening.tracks.uppercase
  refine ⟨?_, fun i hi hb => ?_, delivered past ⟨false, false⟩ (bytesOf run),
    map_scancode_delivered .., htarget⟩
  · rw [huppercase, ← held_iff]
    cases ((bytesOf run).foldl Shift.next ⟨false, false⟩).held <;> decide
  · rw [(interrupt_of_isKey past hi t).2, (hlistening.press past i.byte).2, if_pos hb, huppercase]

/-- The keyboard's interrupt for a byte. -/
def key (byte : U8) : Interrupt where
  frame := ⟨0, 0, 0, 0, 0, 0, 0, 0, 0, 0, 0, 0, 0, 0, 0, 33, 0, 0, 0, 0, 0, 0⟩
  rsp := 0
  byte := byte

/-- Shift pressed, then an `a`, to a handler that keeps a list. -/
theorem shift_tracked_shift_a :
    let t := interrupts 0 [key 0x2A, key 0x1E]
      (listen (fun key keys => keys ++ [key]) (Kernel.zero ([] : List KeyInfo)))
    (t.keyboard.lshiftStatus ||| t.keyboard.rshiftStatus ≠ 0 ↔ ShiftHeld [0x2A, 0x1E]) ∧
    ∃ keys : List KeyInfo, keys.map (·.scancode) = [0x1E] ∧
      t.target = keys.foldl (fun keys key => keys ++ [key]) [] := by
  obtain ⟨hheld, -, keys, hcodes, htarget⟩ := shift_tracked 0 (fun key keys => keys ++ [key])
    (Kernel.zero ([] : List KeyInfo)) rfl rfl [key 0x2A, key 0x1E]
  exact ⟨hheld, keys, hcodes.trans (by decide), htarget⟩

end ShiftKeys
