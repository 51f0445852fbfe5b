/-
# Scrolling

`console_scroll` takes a number of bytes for a number of pixels: it moves the screen up by 64
rows where a text line has 16.  It clears all but two pixels of what is left, and the cursor
stays below the screen.

* `copyLoop_of_lt` : the overlapping copy reads every pixel before it is overwritten;
* `consoleScroll_pixels` : what the screen shows after a scroll;
* `ScrolledUp` : what it should show;
* `scroll_never` : it never does.
-/
import FzzOS.ConsoleBounds
import FzzOS.ConsoleText

open Framebuffer

namespace Console

variable {c : Console} {info : FbInfo} {k start : U64} {n : ℕ}

/-! ## The copy -/

/-- The first loop of `console_scroll`. -/
def copyLoop (start : U64) (n : ℕ) (fb : Framebuffer) : Framebuffer :=
  (List.range n).foldl
    (fun fb i => fb.store .scroll (BitVec.ofNat 64 i) (fb.pixels (start + BitVec.ofNat 64 i))) fb

theorem copyLoop_succ (start : U64) (n : ℕ) (fb : Framebuffer) :
    copyLoop start (n + 1) fb = (copyLoop start n fb).store .scroll (BitVec.ofNat 64 n)
      ((copyLoop start n fb).pixels (start + BitVec.ofNat 64 n)) := by
  rw [copyLoop, List.range_succ, List.foldl_append]
  rfl

/-- Pixels the loop has not come to are as they were. -/
theorem copyLoop_of_le {fb : Framebuffer} (hn : n ≤ k.toNat) :
    (copyLoop start n fb).pixels k = fb.pixels k := by
  induction n with
  | zero => rfl
  | succ n ih =>
    have hlt := k.isLt
    have hne : k ≠ BitVec.ofNat 64 n := by
      rintro rfl
      rw [BitVec.toNat_ofNat] at hn hlt
      omega
    rw [copyLoop_succ]
    exact (if_neg hne).trans (ih (by omega))

/-- **The copy.**  A pixel gets the colour that the pixel `start` further on had at first. -/
theorem copyLoop_of_lt {fb : Framebuffer} (hk : k.toNat < n) (hn : n ≤ 2 ^ 64)
    (hstart : 0 < start.toNat) (hwrap : start.toNat + k.toNat < 2 ^ 64) :
    (copyLoop start n fb).pixels k = fb.pixels (start + k) := by
  induction n with
  | zero => exact absurd hk (Nat.not_lt_zero _)
  | succ n ih =>
    rw [copyLoop_succ]
    by_cases heq : k = BitVec.ofNat 64 n
    · -- it is ahead of the loop, so it still has its colour
      have hahead : n ≤ (start + k).toNat := by
        have hkn := congrArg BitVec.toNat heq
        rw [BitVec.toNat_ofNat, Nat.mod_eq_of_lt (by omega)] at hkn
        rw [BitVec.toNat_add, Nat.mod_eq_of_lt hwrap]
        omega
      refine (if_pos heq).trans ?_
      rw [← heq, copyLoop_of_le hahead]
    · have hne : k.toNat ≠ n := by
        rintro rfl
        exact heq (by rw [BitVec.ofNat_toNat, BitVec.setWidth_eq])
      exact (if_neg heq).trans (ih (by omega) (by omega))

/-! ## The screen -/

/-- A scroll is the copy and the blanks. -/
theorem consoleScroll_fb_pixels (c : Console) (k : U64) :
    (consoleScroll c).fb.pixels k =
      if ∃ i ∈ blankIndices c.fb.info, k = BitVec.ofNat 64 i then c.info.backgroundColor
      else (copyLoop (startIndex c.fb.info) (finishIndex c.fb.info).toNat c.fb).pixels k :=
  fill_pixels _ _ _ k

/-- **What a scroll shows**, on a screen of at least 64 rows: the rows move up by 64, and the
last 64 rows are blank but for their first and their last pixel. -/
theorem consoleScroll_pixels (hsize : c.fb.info.height.toNat * c.fb.info.width.toNat < 2 ^ 31)
    (hheight : 64 ≤ c.fb.info.height.toNat) (hwidth : 0 < c.fb.info.width.toNat) (k : U64) :
    let size := c.fb.info.height.toNat * c.fb.info.width.toNat
    let kept := size - 64 * c.fb.info.width.toNat
    (consoleScroll c).fb.pixels k =
      if k.toNat < kept then c.fb.pixels (k + startIndex c.fb.info)
      else if kept < k.toNat ∧ k.toNat + 1 < size then c.info.backgroundColor
      else c.fb.pixels k := by
  intro size kept
  have hpos : 0 < size := Nat.mul_pos (by omega) hwidth
  have hfinish : (finishIndex c.fb.info).toNat = kept := toNat_finishIndex hsize hheight
  have hend : (endIndex c.fb.info).toNat = size - 1 := toNat_endIndex hsize hpos
  have hstart := toNat_startIndex c.fb.info
  have hbound : size < 2 ^ 31 := hsize
  have hnext : (finishIndex c.fb.info + 1).toNat = kept + 1 := by
    rw [BitVec.toNat_add, hfinish]
    exact Nat.mod_eq_of_lt (by show kept + 1 < 2 ^ 64; omega)
  have hblank : (∃ i ∈ blankIndices c.fb.info, k = BitVec.ofNat 64 i) ↔
      kept < k.toNat ∧ k.toNat + 1 < size := by
    rw [blankIndices, hnext, hend]
    constructor
    · rintro ⟨i, hi, rfl⟩
      have := List.mem_range'_1.mp hi
      rw [BitVec.toNat_ofNat, Nat.mod_eq_of_lt (by omega)]
      omega
    · rintro ⟨hlow, hhigh⟩
      refine ⟨k.toNat, List.mem_range'_1.mpr (by omega), ?_⟩
      rw [BitVec.ofNat_toNat, BitVec.setWidth_eq]
  rw [consoleScroll_fb_pixels, if_congr hblank rfl rfl, hfinish]
  by_cases hk : k.toNat < kept
  · rw [if_neg (by omega), if_pos hk, copyLoop_of_lt hk (by omega) (by omega) (by omega),
      BitVec.add_comm]
  · rw [if_neg hk, copyLoop_of_le (by omega)]

/-! ## A text line -/

/-- `console_next` triggers `console_scroll`. -/
def Scrolls (c : Console) : Prop :=
  (c.fb.info.height.toNat : ℤ) - 16 < (c.info.cursorY + 16).toNat

/-- From `c` to `c'` the screen has moved up by one text line: the rows, the blank line, the
stores within the screen, and the cursor on a line of the screen. -/
structure ScrolledUp (c c' : Console) : Prop where
  moved : ∀ x y, x < c.fb.info.width.toNat → y + 16 < c.fb.info.height.toNat →
    c'.fb.pixels (pixelAt c.fb.info x y) = c.fb.pixels (pixelAt c.fb.info x (y + 16))
  cleared : ∀ x y, x < c.fb.info.width.toNat → c.fb.info.height.toNat ≤ y + 16 →
    y < c.fb.info.height.toNat →
    c'.fb.pixels (pixelAt c.fb.info x y) = c.info.backgroundColor
  inside : ∀ e ∈ c'.fb.log.drop c.fb.log.length, Inside c.fb.info e
  cursor : c'.info.cursorY.toNat + 16 ≤ c.fb.info.height.toNat

/-- The cursor stays where it was when the scroll was triggered. -/
theorem consoleNext_cursorY (c : Console) :
    (consoleNext c).info.cursorY = c.info.cursorY + 16 := by
  unfold consoleNext
  dsimp only
  split
  · rfl
  · rfl

/-- **Scrolling never leaves a line to write on.**  Whatever the geometry and the screen, after
a scroll the cursor is below the last line. -/
theorem scroll_never (h : Scrolls c) : ¬ ScrolledUp c (consoleNext c) := by
  intro hup
  have hcursor := hup.cursor
  rw [consoleNext_cursorY] at hcursor
  unfold Scrolls at h
  omega

/-- A screen of 80 rows with one white pixel, at the left of row 16, and the cursor on the last
line. -/
def lastLine : Console :=
  ⟨⟨⟨80, 8, 32, 32⟩, fun k => if k = 128 then fbColorWhite else fbColorBlack, []⟩,
    ⟨60, 5, fbColorWhite, fbColorBlack, 0, 64⟩⟩

theorem scroll_never_lastLine : ¬ ScrolledUp lastLine (consoleNext lastLine) :=
  scroll_never (by unfold Scrolls; decide)

/-- **Too far.**  The white pixel of row 16 should be at the top of the screen, where the black
one of row 64 is. -/
theorem scroll_too_far :
    ¬ ∀ c : Console, 16 ≤ c.fb.info.height.toNat → 8 ≤ c.fb.info.width.toNat →
      c.fb.info.bpp = 32 → c.fb.info.pitch.toNat = 4 * c.fb.info.width.toNat → Scrolls c →
      ScrolledUp c (consoleNext c) := by
  intro h
  have hup := h lastLine (by decide) (by decide) rfl rfl (by unfold Scrolls; decide)
  have hmoved := hup.moved 0 0 (by decide) (by decide)
  have hnext : consoleNext lastLine = consoleScroll
      { lastLine with info := { lastLine.info with cursorX := 0, cursorY := 80 } } := rfl
  rw [hnext, consoleScroll_pixels (by decide) (by decide) (by decide)] at hmoved
  exact absurd hmoved (by decide)

end Console
