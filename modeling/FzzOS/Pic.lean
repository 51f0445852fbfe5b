/-
# Programming the interrupt controllers

The functions of `pic.c` over the pair of chips: the remapping at boot, the masks, the end
of an interrupt.

* `picRemap_eq` : after `pic_remap` both chips give their line 0 the vector 0x20;
* `picEOI_of_lt`, `picEOI_of_ge` : which chips hear of the end of an interrupt.
-/
import FzzOS.I8259
import FzzOS.Words

open I8259

namespace Pic

/-- `PIC1_CMD`. -/
def pic1Cmd : BitVec 16 := 0x20

/-- `PIC1_DATA`. -/
def pic1Data : BitVec 16 := 0x21

/-- `PIC2_CMD`. -/
def pic2Cmd : BitVec 16 := 0xA0

/-- `PIC2_DATA`. -/
def pic2Data : BitVec 16 := 0xA1

/-- `outb`, as far as it reaches the controllers. -/
def outb (port : BitVec 16) (val : U8) (p : Pair) : Pair :=
  if port = pic1Cmd then { p with master := p.master.command val }
  else if port = pic1Data then { p with master := p.master.data val }
  else if port = pic2Cmd then { p with slave := p.slave.command val }
  else if port = pic2Data then { p with slave := p.slave.data val }
  else p

/-- `inb` on the data ports, which answer with the mask. -/
def inb (port : BitVec 16) (p : Pair) : U8 :=
  if port = pic1Data then p.master.imr
  else if port = pic2Data then p.slave.imr
  else 0

/-! ## The functions -/

/-- `pic_EOI`. -/
def picEOI (irq : U8) (p : Pair) : Pair :=
  let p := if irq ≥ 8 then outb pic2Cmd 0x20 p else p
  outb pic1Cmd 0x20 p

/-- The port and the bit of a line, as `pic_set_mask` and `pic_clear_mask` find them. -/
def maskOf (irq : U8) : BitVec 16 × U8 :=
  if irq < 8 then (pic1Data, 1#8 <<< irq.toNat) else (pic2Data, 1#8 <<< (irq - 8).toNat)

/-- `pic_set_mask`. -/
def picSetMask (irq : U8) (p : Pair) : Pair :=
  let port := (maskOf irq).1
  outb port (inb port p ||| (maskOf irq).2) p

/-- `pic_clear_mask`. -/
def picClearMask (irq : U8) (p : Pair) : Pair :=
  let port := (maskOf irq).1
  outb port (inb port p &&& ~~~(maskOf irq).2) p

/-- `pic_disable`. -/
def picDisable (p : Pair) : Pair := outb pic1Data 0xff (outb pic2Data 0xff p)

/-- `pic_remap`.  The waits between the bytes read port 0x80 and are left out. -/
def picRemap (p : Pair) : Pair :=
  let mask1 := inb pic1Data p
  let mask2 := inb pic2Data p
  let p := outb pic1Cmd 0x11 p
  let p := outb pic2Cmd 0x11 p
  -- the vector of line 0, the same for both chips
  let p := outb pic1Data 0x20 p
  let p := outb pic2Data 0x20 p
  -- the slave is on line 2
  let p := outb pic1Data 0x04 p
  let p := outb pic2Data 0x02 p
  let p := outb pic1Data 0x01 p
  let p := outb pic2Data 0x01 p
  let p := outb pic1Data mask1 p
  outb pic2Data mask2 p

/-! ## What they do -/

/-- A chip after `pic_remap`, with its mask. -/
def remapped (imr : U8) : Chip where
  irr := 0
  imr := imr
  isr := 0
  base := 0x20
  stage := .ready
  icw1 := 0x11

theorem picRemap_eq (p : Pair) :
    picRemap p = ⟨remapped p.master.imr, remapped p.slave.imr⟩ := by
  simp [picRemap, outb, inb, pic1Cmd, pic1Data, pic2Cmd, pic2Data, Chip.command, Chip.data,
    remapped]

theorem picEOI_of_lt {irq : U8} (h : irq < 8) (p : Pair) :
    picEOI irq p = { p with master := p.master.endOfInterrupt } := by
  rw [picEOI, if_neg (by bv_omega)]
  rfl

theorem picEOI_of_ge {irq : U8} (h : irq ≥ 8) (p : Pair) :
    picEOI irq p = ⟨p.master.endOfInterrupt, p.slave.endOfInterrupt⟩ := by
  rw [picEOI, if_pos h]
  rfl

/-- What the pair keeps once it is set up: it takes its data bytes for masks, and gives its
vectors from 0x20 on. -/
structure Programmed (p : Pair) : Prop where
  masterBase : p.master.base = 0x20
  slaveBase : p.slave.base = 0x20
  masterReady : p.master.stage = .ready
  slaveReady : p.slave.stage = .ready

theorem programmed_picRemap (p : Pair) : Programmed (picRemap p) := by
  rw [picRemap_eq]
  exact ⟨rfl, rfl, rfl, rfl⟩

theorem idle_picRemap (p : Pair) : (picRemap p).Idle := by
  rw [picRemap_eq]
  exact ⟨rfl, rfl⟩

/-- Writing a mask changes the mask of one chip and nothing else. -/
theorem outb_mask {p : Pair} (h : Programmed p) (irq v : U8) :
    outb (maskOf irq).1 v p = { p with master := { p.master with imr := v } } ∨
      outb (maskOf irq).1 v p = { p with slave := { p.slave with imr := v } } := by
  unfold maskOf
  split
  · refine Or.inl ?_
    show { p with master := p.master.data v } = _
    rw [Chip.data_of_ready h.masterReady]
  · refine Or.inr ?_
    show { p with slave := p.slave.data v } = _
    rw [Chip.data_of_ready h.slaveReady]

/-- Unmasking a line of the master. -/
theorem picClearMask_of_lt {p : Pair} (h : Programmed p) {irq : U8} (hirq : irq < 8) :
    picClearMask irq p =
      { p with
        master := { p.master with imr := p.master.imr &&& ~~~(1#8 <<< irq.toNat) } } := by
  rw [picClearMask, maskOf, if_pos hirq]
  show { p with master := p.master.data _ } = _
  rw [Chip.data_of_ready h.masterReady]
  rfl

theorem picDisable_eq {p : Pair} (h : Programmed p) :
    picDisable p = ⟨{ p.master with imr := 0xFF }, { p.slave with imr := 0xFF }⟩ := by
  show (⟨p.master.data 0xFF, p.slave.data 0xFF⟩ : Pair) = _
  rw [Chip.data_of_ready h.masterReady, Chip.data_of_ready h.slaveReady]

end Pic
