/-
# What is drawn outside the screen

`putchar` draws wherever the cursor is, and nothing keeps the cursor on the screen: a long
line runs off its right edge, and `console_scroll` leaves `cursor_y` below its bottom.

* `Inside` : a store or a glyph within the screen;
* `Fits` : a text that never puts a character beyond the screen's columns or lines;
* `Console.drawn_inside_iff` : everything drawn is inside exactly if the text fits.
-/
import FzzOS.ConsoleCursor

open Framebuffer

namespace Console

/-! ## The condition -/

/-- The screens in question: rows of 32-bit pixels with nothing in between. -/
structure Packed (info : FbInfo) : Prop where
  width : 8 ≤ info.width.toNat
  height : 64 ≤ info.height.toNat
  bpp : info.bpp = 32
  pitch : info.pitch.toNat = 4 * info.width.toNat

/-- Stores of `console_scroll` and `console_drawchar` at an index of the screen, and glyphs
drawn within it. -/
def Inside (info : FbInfo) : DrawEvent → Prop
  | .line _ => True
  | .scroll index => index.toNat < info.width.toNat * info.height.toNat
  | .pixel index => index.toNat < info.width.toNat * info.height.toNat
  | .glyph x y => x.toNat + 8 ≤ info.width.toNat ∧ y.toNat + 16 ≤ info.height.toNat

/-- A position with a whole cell on the screen.  The line counts modulo 4096. -/
def OnScreen (info : FbInfo) (p : Position) : Prop :=
  8 * (p.col + 1) ≤ info.width.toNat ∧ 16 * (p.line % 4096) + 16 ≤ info.height.toNat

instance (info : FbInfo) (p : Position) : Decidable (OnScreen info p) :=
  inferInstanceAs (Decidable (_ ∧ _))

/-- Every character of the text falls on the screen. -/
def Fits (info : FbInfo) : Position → List U8 → Prop
  | _, [] => True
  | p, ch :: bytes =>
    (Printable ch → OnScreen info p) ∧ Fits info (place info.width.toNat p ch) bytes

variable {font : ℕ → U8} {ch : U8} {c : Console} {p : Position} {info : FbInfo}

theorem Packed.stride (h : Packed info) : stride info = info.width.toNat := by
  rw [stride_of_bpp h.bpp, h.pitch]
  exact Nat.mul_div_cancel_left _ (by decide)

theorem Packed.width_lt (h : Packed info) : info.width.toNat < 2 ^ 14 := by
  have := h.pitch
  have := info.pitch.isLt
  omega

theorem Packed.size_lt (h : Packed info) :
    info.height.toNat * info.width.toNat < 2 ^ 31 := by
  have hwidth := h.width_lt
  have hheight := info.height.isLt
  calc info.height.toNat * info.width.toNat ≤ 2 ^ 16 * 2 ^ 14 :=
        Nat.mul_le_mul hheight.le hwidth.le
    _ < 2 ^ 31 := by decide

/-! ## The stores of a scroll -/

/-- Sizes below 2^31 are what they look like. -/
theorem toNat_indexOfInt {x : U32} (h : x.toNat < 2 ^ 31) : (indexOfInt x).toNat = x.toNat := by
  have hmsb : x.msb = false := BitVec.msb_eq_false_iff_two_mul_lt.mpr (by omega)
  rw [indexOfInt, BitVec.signExtend_eq_setWidth_of_msb_false hmsb, BitVec.toNat_setWidth]
  omega

theorem toNat_size (h : info.height.toNat * info.width.toNat < 2 ^ 31) :
    (info.height.setWidth 32 * info.width.setWidth 32 : U32).toNat
      = info.height.toNat * info.width.toNat := by
  have hheight : (info.height.setWidth 32).toNat = info.height.toNat := by bv_omega
  have hwidth : (info.width.setWidth 32).toNat = info.width.toNat := by bv_omega
  rw [BitVec.toNat_mul, hheight, hwidth]
  omega

theorem toNat_startIndex (info : FbInfo) : (startIndex info).toNat = 64 * info.width.toNat := by
  have hwidth := info.width.isLt
  have hmul : (info.width.setWidth 32 * 16 * 4 : U32).toNat = 64 * info.width.toNat := by
    bv_omega
  rw [startIndex, toNat_indexOfInt (by omega), hmul]

theorem toNat_finishIndex (h : info.height.toNat * info.width.toNat < 2 ^ 31)
    (hheight : 64 ≤ info.height.toNat) :
    (finishIndex info).toNat = info.height.toNat * info.width.toNat - 64 * info.width.toNat := by
  have hle : 64 * info.width.toNat ≤ info.height.toNat * info.width.toNat :=
    Nat.mul_le_mul_right _ hheight
  have hsize : (indexOfInt (info.height.setWidth 32 * info.width.setWidth 32)).toNat
      = info.height.toNat * info.width.toNat := by
    rw [toNat_indexOfInt (by rw [toNat_size h]; exact h), toNat_size h]
  rw [finishIndex, BitVec.toNat_sub_of_le, hsize, toNat_startIndex]
  rw [BitVec.le_def, hsize, toNat_startIndex]
  exact hle

theorem toNat_endIndex (h : info.height.toNat * info.width.toNat < 2 ^ 31)
    (hpos : 0 < info.height.toNat * info.width.toNat) :
    (endIndex info).toNat = info.height.toNat * info.width.toNat - 1 := by
  have hsize := toNat_size h
  have hsub : (info.height.setWidth 32 * info.width.setWidth 32 - 1 : U32).toNat
      = info.height.toNat * info.width.toNat - 1 := by
    rw [BitVec.toNat_sub_of_le, hsize]
    · rfl
    · rw [BitVec.le_def, hsize]
      exact hpos
  rw [endIndex, toNat_indexOfInt (by omega), hsub]

/-- What a scroll stores, in order. -/
theorem consoleScroll_log (c : Console) :
    (consoleScroll c).fb.log = c.fb.log
      ++ (List.range (finishIndex c.fb.info).toNat ++ blankIndices c.fb.info).map
          fun i => .scroll (BitVec.ofNat 64 i) := by
  have hloop : ∀ (l : List ℕ) (start : U64) (fb : Framebuffer),
      (l.foldl (fun fb i => fb.store .scroll (BitVec.ofNat 64 i)
        (fb.pixels (start + BitVec.ofNat 64 i))) fb).log
        = fb.log ++ l.map fun i => .scroll (BitVec.ofNat 64 i) := by
    intro l start fb
    induction l generalizing fb with
    | nil => exact (List.append_nil _).symm
    | cons i l ih =>
      rw [List.foldl_cons, ih, List.map_cons]
      exact List.append_assoc fb.log [_] _
  rw [consoleScroll, stores_log, hloop, List.map_append, List.append_assoc, List.map_map]
  rfl

/-- **A scroll stays on the screen.** -/
theorem consoleScroll_inside (h : Packed c.fb.info) {i : ℕ}
    (hi : i ∈ List.range (finishIndex c.fb.info).toNat ++ blankIndices c.fb.info) :
    Inside c.fb.info (.scroll (BitVec.ofNat 64 i)) := by
  have hpos : 0 < c.fb.info.height.toNat * c.fb.info.width.toNat :=
    Nat.mul_pos (by have := h.height; omega) (by have := h.width; omega)
  have hfinish := toNat_finishIndex h.size_lt h.height
  have hend := toNat_endIndex h.size_lt hpos
  have hlt : i < c.fb.info.height.toNat * c.fb.info.width.toNat := by
    rcases List.mem_append.mp hi with hi | hi
    · have := List.mem_range.mp hi
      omega
    · have := List.mem_range'_1.mp hi
      omega
  show (BitVec.ofNat 64 i).toNat < c.fb.info.width.toNat * c.fb.info.height.toNat
  rw [Nat.mul_comm c.fb.info.width.toNat]
  rw [BitVec.toNat_ofNat]
  exact (Nat.mod_le _ _).trans_lt hlt

/-! ## One byte -/

/-- What a byte adds to the log. -/
theorem consoleNext_log (h : Packed c.fb.info) :
    ∃ new, (consoleNext c).fb.log = c.fb.log ++ new ∧ ∀ e ∈ new, Inside c.fb.info e := by
  unfold consoleNext
  dsimp only
  split
  · refine ⟨_, consoleScroll_log _, fun e he => ?_⟩
    obtain ⟨i, hi, rfl⟩ := List.mem_map.mp he
    exact consoleScroll_inside (c := c) h hi
  · exact ⟨[], (List.append_nil _).symm, by simp⟩

theorem consoleDrawchar_log (font : ℕ → U8) (ch : U8) (x y foreground background : U32)
    (fb : Framebuffer) :
    (consoleDrawchar font ch x y foreground background fb).log
      = fb.log ++ .glyph x y ::
          (glyphStores font fb.info ch x y foreground background).map fun p => .pixel p.1 := by
  rw [consoleDrawchar_eq, stores_log]
  exact List.append_assoc fb.log [_] _

/-- A glyph is drawn on the screen if its cell is there. -/
theorem glyph_inside_iff (h : Packed c.fb.info) (hfollows : Follows p c) (fg bg : U32) :
    (∀ e ∈ .glyph (c.info.cursorX.setWidth 32) (c.info.cursorY.setWidth 32) ::
        (glyphStores font c.fb.info ch (c.info.cursorX.setWidth 32)
          (c.info.cursorY.setWidth 32) fg bg).map (fun p => .pixel p.1),
      Inside c.fb.info e) ↔ OnScreen c.fb.info p := by
  have hx : (c.info.cursorX.setWidth 32).toNat = 8 * p.col := by
    have := hfollows.x
    bv_omega
  have hy : (c.info.cursorY.setWidth 32).toNat = 16 * (p.line % 4096) := by
    have := hfollows.y
    bv_omega
  have hglyph : Inside c.fb.info
      (.glyph (c.info.cursorX.setWidth 32) (c.info.cursorY.setWidth 32))
        ↔ OnScreen c.fb.info p := by
    rw [Inside, hx, hy, OnScreen, Nat.mul_add]
  constructor
  · intro hall
    exact hglyph.mp (hall _ List.mem_cons_self)
  · intro hon e he
    rcases List.mem_cons.mp he with rfl | he
    · exact hglyph.mpr hon
    obtain ⟨q, hq, rfl⟩ := List.mem_map.mp he
    obtain ⟨i, hi, j, hj, rfl⟩ := mem_glyphStores.mp hq
    obtain ⟨hcol, hline⟩ := hon
    show (fbIndex ..).toNat < c.fb.info.width.toNat * c.fb.info.height.toNat
    rw [toNat_glyphIndex h.bpp _ _ hi hj, h.stride, hfollows.x, hfollows.y]
    calc (16 * (p.line % 4096) + i) * c.fb.info.width.toNat + (8 * p.col + j)
        < (16 * (p.line % 4096) + i) * c.fb.info.width.toNat + c.fb.info.width.toNat := by omega
      _ = (16 * (p.line % 4096) + i + 1) * c.fb.info.width.toNat := (Nat.succ_mul _ _).symm
      _ ≤ c.fb.info.height.toNat * c.fb.info.width.toNat := Nat.mul_le_mul_right _ (by omega)
      _ = _ := Nat.mul_comm ..

/-- **One byte.**  What it draws is inside exactly if it is no character or falls on the
screen. -/
theorem putchar_log (font : ℕ → U8) (ch : U8) (h : Packed c.fb.info) (hfollows : Follows p c) :
    ∃ new, (putchar font ch c).fb.log = c.fb.log ++ new ∧
      ((∀ e ∈ new, Inside c.fb.info e) ↔ (Printable ch → OnScreen c.fb.info p)) := by
  by_cases hprint : Printable ch
  · rw [putchar_of_printable hprint]
    refine ⟨_, consoleDrawchar_log .., ?_⟩
    rw [glyph_inside_iff h hfollows]
    exact ⟨fun hon _ => hon, fun hon => hon hprint⟩
  suffices hsafe : ∃ new, (putchar font ch c).fb.log = c.fb.log ++ new ∧
      ∀ e ∈ new, Inside c.fb.info e by
    obtain ⟨new, hnew, hinside⟩ := hsafe
    exact ⟨new, hnew, fun _ hp => absurd hp hprint, fun _ => hinside⟩
  unfold putchar
  split_ifs with hlf hcr hht
  · exact consoleNext_log h
  · exact consoleNext_log h
  · dsimp only
    split
    · exact ⟨[], (List.append_nil _).symm, by simp⟩
    · exact consoleNext_log (c := advance 32 c) h
  · exact absurd ⟨hlf, hcr, hht⟩ hprint

/-! ## All bytes -/

/-- Nothing is taken out of the log. -/
theorem putchar_log_grows (font : ℕ → U8) (ch : U8) (c : Console) :
    c.fb.log <+: (putchar font ch c).fb.log := by
  have hnext : ∀ c : Console, c.fb.log <+: (consoleNext c).fb.log := by
    intro c
    unfold consoleNext
    dsimp only
    split
    · rw [consoleScroll_log]
      exact List.prefix_append _ _
    · exact List.prefix_rfl
  unfold putchar
  split_ifs
  · exact hnext c
  · exact hnext c
  · dsimp only
    split
    · exact List.prefix_rfl
    · exact hnext (advance 32 c)
  · show c.fb.log <+: (consoleDrawchar ..).log
    rw [consoleDrawchar_log]
    exact List.prefix_append _ _

theorem foldl_putchar_log_grows (font : ℕ → U8) (bytes : List U8) (c : Console) :
    c.fb.log <+: (bytes.foldl (fun c ch => putchar font ch c) c).fb.log := by
  induction bytes generalizing c with
  | nil => exact List.prefix_rfl
  | cons ch bytes ih => exact (putchar_log_grows font ch c).trans (ih _)

/-- **Any bytes**, from a cursor at `p`. -/
theorem foldl_inside_iff (font : ℕ → U8) (bytes : List U8) (h : Packed c.fb.info)
    (hfollows : Follows p c) (hreach : InReach c.fb.info.width.toNat p) :
    (∀ e ∈ (bytes.foldl (fun c ch => putchar font ch c) c).fb.log, Inside c.fb.info e) ↔
      (∀ e ∈ c.fb.log, Inside c.fb.info e) ∧ Fits c.fb.info p bytes := by
  induction bytes generalizing c p with
  | nil => exact (and_iff_left trivial).symm
  | cons ch bytes ih =>
    obtain ⟨new, hnew, hinside⟩ := putchar_log font ch h hfollows
    have hinfo := (putchar_same font ch c).fbInfo
    rw [List.foldl_cons, Fits]
    by_cases hon : Printable ch → OnScreen c.fb.info p
    · have hcol := fun hp => (hon hp).1
      have hfollows' := putchar_follows font h.width_lt hfollows hreach hcol
      have hreach' := inReach_place (by have := h.width; omega) hcol
      have hrest := ih (c := putchar font ch c) (hinfo.symm ▸ h) hfollows' (hinfo.symm ▸ hreach')
      rw [hinfo] at hrest
      rw [hrest, hnew, List.forall_mem_append, hinside, and_assoc, and_left_comm]
    · -- the log keeps what this byte has drawn
      refine ⟨fun hall => absurd (hinside.mp fun e he => ?_) hon, fun hall => absurd hall.2.1 hon⟩
      refine hall e ((foldl_putchar_log_grows font bytes _).subset ?_)
      rw [hnew]
      exact List.mem_append_right _ he

theorem consoleInit_inside (h : c.fb.log = []) {e : DrawEvent} (he : e ∈ (consoleInit c).fb.log) :
    Inside info e := by
  rw [consoleInit] at he
  simp only [consoleDrawHline, stores_log, h, List.nil_append, List.mem_append, List.mem_map] at he
  rcases he with ⟨q, -, rfl⟩ | ⟨q, -, rfl⟩
  · trivial
  · trivial

/-- **What is drawn outside.**  After `console_init`, whatever is sent to the console, all
the stores of glyphs and scrolls are on the screen, and every glyph in one row of cells, if
and only if the text fits. -/
theorem drawn_inside_iff (font : ℕ → U8) (info : FbInfo) (h : Packed info)
    (pixels : U64 → U32) (ci : ConsoleInfo) (calls : List Call) :
    (∀ e ∈ (calls.foldl (Call.apply font) (consoleInit ⟨⟨info, pixels, []⟩, ci⟩)).fb.log,
      Inside info e) ↔ Fits info ⟨0, 0⟩ (calls.flatMap Call.bytes) := by
  set c₀ : Console := consoleInit ⟨⟨info, pixels, []⟩, ci⟩ with hc₀
  have hinfo : c₀.fb.info = info := consoleInit_fb_info _
  have hrun := foldl_inside_iff font (calls.flatMap Call.bytes) (c := c₀) (hinfo.symm ▸ h)
    (follows_consoleInit _) (show 0 < c₀.fb.info.width.toNat + 32 by omega)
  rw [hinfo] at hrun
  rw [foldl_apply, hrun]
  exact and_iff_right fun e he => consoleInit_inside rfl he

/-- A screen of one column and four lines. -/
def narrow : FbInfo := ⟨64, 8, 32, 32⟩

theorem drawn_inside_iff_narrow :
    Fits narrow ⟨0, 0⟩ ([Call.putchar 0x41].flatMap Call.bytes) ∧
      ∀ e ∈ ([Call.putchar 0x41].foldl (Call.apply fun _ => 0)
        (consoleInit ⟨⟨narrow, fun _ => 0, []⟩, ⟨0, 0, 0, 0, 0, 0⟩⟩)).fb.log, Inside narrow e := by
  have hfits : Fits narrow ⟨0, 0⟩ ([Call.putchar 0x41].flatMap Call.bytes) :=
    ⟨fun _ => by decide, trivial⟩
  exact ⟨hfits, (drawn_inside_iff (fun _ => 0) narrow ⟨by decide, by decide, rfl, rfl⟩ (fun _ => 0)
    ⟨0, 0, 0, 0, 0, 0⟩ [.putchar 0x41]).mpr hfits⟩

/-- **Drawn outside.**  The second character of a line is drawn beside a screen of one
column. -/
theorem drawn_outside :
    ¬ ∀ (font : ℕ → U8) (info : FbInfo), Packed info → ∀ (pixels : U64 → U32) (ci : ConsoleInfo)
      (calls : List Call),
      ∀ e ∈ (calls.foldl (Call.apply font) (consoleInit ⟨⟨info, pixels, []⟩, ci⟩)).fb.log,
        Inside info e := by
  intro h
  set c : Console := consoleInit ⟨⟨narrow, fun _ => 0, []⟩, ⟨0, 0, 0, 0, 0, 0⟩⟩
  have hlog : ([Call.putstring [0x41, 0x42, 0]].foldl (Call.apply fun _ => 0) c).fb.log
      = (consoleDrawchar (fun _ => 0) 0x42 8 0 fbColorWhite fbColorBlack
          (putchar (fun _ => 0) 0x41 c).fb).log := rfl
  have hmem : DrawEvent.glyph 8 0
      ∈ ([Call.putstring [0x41, 0x42, 0]].foldl (Call.apply fun _ => 0) c).fb.log := by
    rw [hlog, consoleDrawchar_log]
    exact List.mem_append_right _ List.mem_cons_self
  have hinside := h (fun _ => 0) narrow ⟨by decide, by decide, rfl, rfl⟩ (fun _ => 0)
    ⟨0, 0, 0, 0, 0, 0⟩ [.putstring [0x41, 0x42, 0]] _ hmem
  exact absurd hinside.1 (by decide)

end Console
