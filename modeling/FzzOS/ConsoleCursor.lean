/-
# Where the cursor is

The console keeps its cursor in pixels, in two 16-bit counters.  `Position` is what they
stand for: a line and a column of the text, which never wrap.

* `place` : where the next character goes after one more byte;
* `Follows` : the counters say the position, the line modulo the 4096 lines they can tell
  apart; `putchar_follows` : every byte keeps it so, as long as no line has become too long.
-/
import FzzOS.Console

open Framebuffer

namespace Console

/-! ## Positions in a text -/

/-- A line and a column of a text. -/
@[ext]
structure Position where
  line : ℕ
  col : ℕ
  deriving DecidableEq

/-- A byte that is drawn. -/
def Printable (ch : U8) : Prop := ch ≠ asciiLF ∧ ch ≠ asciiCR ∧ ch ≠ asciiHT

instance (ch : U8) : Decidable (Printable ch) := inferInstanceAs (Decidable (_ ∧ _))

/-- The position after one more byte, on a screen of some width in pixels: a tab moves on by
eight columns, or to the fifth column of the next line. -/
def place (width : ℕ) (p : Position) (ch : U8) : Position :=
  if ch = asciiLF ∨ ch = asciiCR then ⟨p.line + 1, 0⟩
  else if ch = asciiHT then
    if 8 * (p.col + 4) < width then ⟨p.line, p.col + 8⟩ else ⟨p.line + 1, 4⟩
  else ⟨p.line, p.col + 1⟩

/-! ## The counters -/

variable {font : ℕ → U8} {ch : U8} {c : Console} {p : Position}

/-- The cursor is at position `p`. -/
structure Follows (p : Position) (c : Console) : Prop where
  x : c.info.cursorX.toNat = 8 * p.col
  y : c.info.cursorY.toNat = 16 * (p.line % 4096)

theorem consoleInit_fb_info (c : Console) : (consoleInit c).fb.info = c.fb.info :=
  stores_info.trans stores_info

theorem follows_consoleInit (c : Console) : Follows ⟨0, 0⟩ (consoleInit c) := ⟨rfl, rfl⟩

/-- What no byte changes. -/
structure Same (c c' : Console) : Prop where
  fbInfo : c'.fb.info = c.fb.info
  foreground : c'.info.foregroundColor = c.info.foregroundColor
  background : c'.info.backgroundColor = c.info.backgroundColor

theorem consoleScroll_fb_info (c : Console) : (consoleScroll c).fb.info = c.fb.info := by
  have hloop : ∀ (l : List ℕ) (start : U64) (fb : Framebuffer),
      (l.foldl (fun fb i => fb.store .scroll (BitVec.ofNat 64 i)
        (fb.pixels (start + BitVec.ofNat 64 i))) fb).info = fb.info := by
    intro l start fb
    induction l generalizing fb with
    | nil => rfl
    | cons i l ih => exact ih _
  exact stores_info.trans (hloop ..)

theorem consoleNext_same (c : Console) : Same c (consoleNext c) := by
  unfold consoleNext
  dsimp only
  split
  · exact ⟨consoleScroll_fb_info _, rfl, rfl⟩
  · exact ⟨rfl, rfl, rfl⟩

/-- A new line, from wherever the cursor was on the last one. -/
theorem consoleNext_follows {n : ℕ} (h : c.info.cursorY.toNat = 16 * (n % 4096)) :
    Follows ⟨n + 1, 0⟩ (consoleNext c) := by
  have hy : (c.info.cursorY + 16).toNat = 16 * ((n + 1) % 4096) := by
    rw [BitVec.toNat_add, h]
    simp only [BitVec.reduceToNat]
    omega
  unfold consoleNext
  dsimp only
  split
  · exact ⟨rfl, hy⟩
  · exact ⟨rfl, hy⟩

/-- What `putchar` does with a byte it draws. -/
theorem putchar_of_printable (h : Printable ch) :
    putchar font ch c = advance 8 { c with
      fb := consoleDrawchar font ch (c.info.cursorX.setWidth 32) (c.info.cursorY.setWidth 32)
        c.info.foregroundColor c.info.backgroundColor c.fb } := by
  rw [putchar, if_neg h.1, if_neg h.2.1, if_neg h.2.2]

theorem putchar_same (font : ℕ → U8) (ch : U8) (c : Console) : Same c (putchar font ch c) := by
  by_cases h : Printable ch
  · rw [putchar_of_printable h, consoleDrawchar_eq]
    exact ⟨stores_info, rfl, rfl⟩
  unfold putchar
  split_ifs with hlf hcr hht
  · exact consoleNext_same c
  · exact consoleNext_same c
  · dsimp only
    obtain ⟨hinfo, hfg, hbg⟩ := consoleNext_same (advance 32 c)
    split
    · exact ⟨rfl, rfl, rfl⟩
    · exact ⟨hinfo, hfg, hbg⟩
  · exact absurd ⟨hlf, hcr, hht⟩ h

/-- A line that has not become too long leaves the cursor less than a tab beyond the
screen's edge. -/
def InReach (width : ℕ) (p : Position) : Prop := 8 * p.col < width + 32

theorem place_newline {width : ℕ} (h : ch = asciiLF ∨ ch = asciiCR) :
    place width p ch = ⟨p.line + 1, 0⟩ := by
  rw [place, if_pos h]

theorem place_printable {width : ℕ} (h : Printable ch) :
    place width p ch = ⟨p.line, p.col + 1⟩ := by
  rw [place, if_neg (not_or.mpr ⟨h.1, h.2.1⟩), if_neg h.2.2]

theorem place_tab {width : ℕ} :
    place width p asciiHT
      = if 8 * (p.col + 4) < width then ⟨p.line, p.col + 8⟩ else ⟨p.line + 1, 4⟩ := by
  rw [place, if_neg (by decide), if_pos rfl]

/-- The three kinds of bytes. -/
theorem printable_or (ch : U8) :
    Printable ch ∨ (ch = asciiLF ∨ ch = asciiCR) ∨ ch = asciiHT := by
  unfold Printable
  tauto

/-- No line becomes too long by a byte if characters are only drawn on the screen. -/
theorem inReach_place {width : ℕ} (hpos : 0 < width)
    (hfit : Printable ch → 8 * (p.col + 1) ≤ width) : InReach width (place width p ch) := by
  unfold InReach
  rcases printable_or ch with hprint | hnl | rfl
  · have := hfit hprint
    rw [place_printable hprint]
    dsimp only
    omega
  · rw [place_newline hnl]
    dsimp only
    omega
  · rw [place_tab]
    split
    · dsimp only
      omega
    · dsimp only
      omega

/-- A tab. -/
theorem tab_follows (font : ℕ → U8) (hwidth : c.fb.info.width.toNat < 2 ^ 14) (h : Follows p c)
    (hreach : InReach c.fb.info.width.toNat p) :
    Follows (place c.fb.info.width.toNat p asciiHT) (putchar font asciiHT c) := by
  have hx := h.x
  unfold InReach at hreach
  have hmoved : (advance 32 c).info.cursorX.toNat = 8 * (p.col + 4) := by
    show (c.info.cursorX + 32).toNat = 8 * (p.col + 4)
    bv_omega
  have htab : putchar font asciiHT c = if 8 * (p.col + 4) < c.fb.info.width.toNat then
      advance 32 (advance 32 c) else advance 32 (consoleNext (advance 32 c)) := by
    rw [← hmoved]
    rfl
  rw [htab, place_tab]
  split
  · refine ⟨?_, h.y⟩
    show ((advance 32 c).info.cursorX + 32).toNat = 8 * (p.col + 8)
    bv_omega
  · obtain ⟨hx', hy'⟩ := consoleNext_follows (c := advance 32 c) h.y
    refine ⟨?_, hy'⟩
    show ((consoleNext (advance 32 c)).info.cursorX + 32).toNat = 8 * 4
    rw [BitVec.toNat_add, hx']
    rfl

/-- **The counters follow.** -/
theorem putchar_follows (font : ℕ → U8) (hwidth : c.fb.info.width.toNat < 2 ^ 14)
    (h : Follows p c) (hreach : InReach c.fb.info.width.toNat p)
    (hfit : Printable ch → 8 * (p.col + 1) ≤ c.fb.info.width.toNat) :
    Follows (place c.fb.info.width.toNat p ch) (putchar font ch c) := by
  rcases printable_or ch with hprint | hnl | rfl
  · have hx := h.x
    have hroom := hfit hprint
    rw [putchar_of_printable hprint, place_printable hprint]
    refine ⟨?_, h.y⟩
    show (c.info.cursorX + 8).toNat = 8 * (p.col + 1)
    bv_omega
  · rw [place_newline hnl]
    rcases hnl with rfl | rfl
    · exact consoleNext_follows h.y
    · exact consoleNext_follows h.y
  · exact tab_follows font hwidth h hreach

end Console
