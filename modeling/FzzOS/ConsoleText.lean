/-
# Text on the screen

What `putstring` leaves on the screen for a text that fits on it.

* `charIn text r col` : the character in a line and a column of the text;
* `foldl_pixels` : the pixels show the text, whichever way the cursor came;
* `Console.text_on_screen` : after `console_init`, every character's cell shows its glyph
  and nothing else has changed.
-/
import FzzOS.ConsoleCursor

open Framebuffer

namespace Console

/-! ## The characters of a text -/

/-- The character in line `r` and column `col` of a text. -/
def charIn (text : List U8) (r col : ℕ) : Option U8 := (text.splitOn asciiLF)[r]?.bind (·[col]?)

/-- The character that ends up in a cell, if the text is written from position `p` on.  A
later character would cover an earlier one. -/
def charAt : Position → List U8 → Position → Option U8
  | _, [], _ => none
  | p, ch :: text, q =>
    if ch = asciiLF then charAt ⟨p.line + 1, 0⟩ text q
    else (charAt ⟨p.line, p.col + 1⟩ text q).or (if q = p then some ch else none)

/-- The first line starts in the column where the writing starts, the others at the left. -/
theorem charAt_eq (p : Position) (text : List U8) (r col : ℕ) :
    charAt p text ⟨r, col⟩ =
      if r < p.line then none
      else if r = p.line then if col < p.col then none else charIn text 0 (col - p.col)
      else charIn text (r - p.line) col := by
  induction text generalizing p with
  | nil =>
    have hnone : ∀ i j, charIn [] i j = none := by
      intro i j
      cases i <;> rfl
    simp only [charAt, hnone, ite_self]
  | cons ch text ih =>
    rw [charAt]
    split
    · -- a line feed leaves the rest of this line empty
      rename_i hlf
      have hlines : ∀ i j, charIn (ch :: text) i j = if i = 0 then none else
          charIn text (i - 1) j := by
        intro i j
        rw [charIn, List.splitOn_cons_eq_if_modifyHead, if_pos (by simpa using hlf)]
        cases i <;> rfl
      rw [ih]
      simp only [hlines]
      grind
    · rename_i hlf
      obtain ⟨line, lines, hsplit⟩ := List.exists_cons_of_ne_nil
        (List.splitOn_ne_nil asciiLF text)
      have hlines : ∀ i j, charIn (ch :: text) i j =
          if i = 0 ∧ j = 0 then some ch else charIn text i (if i = 0 then j - 1 else j) := by
        intro i j
        rw [charIn, charIn, List.splitOn_cons_eq_if_modifyHead, if_neg (by simpa using hlf),
          hsplit]
        cases i <;> cases j <;> rfl
      rw [ih]
      simp only [hlines, Position.ext_iff]
      grind

theorem charAt_start (text : List U8) (r col : ℕ) :
    charAt ⟨0, 0⟩ text ⟨r, col⟩ = charIn text r col := by
  rw [charAt_eq]
  by_cases hr : r = 0
  · subst hr
    simp
  · simp [hr]

/-! ## The pixels -/

variable {font : ℕ → U8} {ch : U8} {text : List U8} {c : Console} {p : Position} {info : FbInfo}

/-- The geometry: 32 bits per pixel and rows that hold the screen's width. -/
structure Wide (info : FbInfo) : Prop where
  width : 8 ≤ info.width.toNat
  height : 16 ≤ info.height.toNat
  bpp : info.bpp = 32
  pitch : info.width.toNat ≤ info.pitch.toNat / 4

/-- The screen has room for a text written from position `p` on. -/
structure Room (info : FbInfo) (p : Position) (text : List U8) : Prop where
  plain : ∀ ch ∈ text, ch ≠ asciiCR ∧ ch ≠ asciiHT
  cols : ∀ q ch, charAt p text q = some ch → 8 * (q.col + 1) ≤ info.width.toNat
  lines : 16 * (p.line + text.count asciiLF) + 16 ≤ info.height.toNat

theorem charAt_lf (p q : Position) (text : List U8) :
    charAt p (asciiLF :: text) q = charAt ⟨p.line + 1, 0⟩ text q := by
  rw [charAt, if_pos rfl]

theorem charAt_of_ne (hlf : ch ≠ asciiLF) (p q : Position) (text : List U8) :
    charAt p (ch :: text) q
      = (charAt ⟨p.line, p.col + 1⟩ text q).or (if q = p then some ch else none) := by
  rw [charAt, if_neg hlf]

theorem Room.next_line (h : Room info p (asciiLF :: text)) : Room info ⟨p.line + 1, 0⟩ text where
  plain := fun ch hch => h.plain ch (List.mem_cons_of_mem _ hch)
  cols := fun q ch hch => h.cols q ch (by rwa [charAt_lf])
  lines := by
    have := h.lines
    rw [List.count_cons_self] at this
    dsimp only
    omega

theorem Room.next_col (h : Room info p (ch :: text)) (hlf : ch ≠ asciiLF) :
    Room info ⟨p.line, p.col + 1⟩ text where
  plain := fun ch hch => h.plain ch (List.mem_cons_of_mem _ hch)
  cols := fun q ch hch => h.cols q ch (by rw [charAt_of_ne hlf, hch, Option.some_or])
  lines := by
    have := h.lines
    rwa [List.count_cons_of_ne hlf] at this

/-- The next character has a cell in its line. -/
theorem Room.head (h : Room info p (ch :: text)) (hlf : ch ≠ asciiLF) :
    8 * (p.col + 1) ≤ info.width.toNat := by
  have hsome : (charAt p (ch :: text) p).isSome := by
    rw [charAt_of_ne hlf, if_pos rfl, Option.isSome_or]
    exact Bool.or_true _
  obtain ⟨ch', hch'⟩ := Option.isSome_iff_exists.mp hsome
  exact h.cols p ch' hch'

/-- A line feed that stays on the screen does not draw. -/
theorem consoleNext_fb (h : Follows p c)
    (hroom : 16 * (p.line + 1) + 16 ≤ c.fb.info.height.toNat) :
    (consoleNext c).fb = c.fb := by
  have hheight := c.fb.info.height.isLt
  have hy : (c.info.cursorY + 16).toNat = 16 * (p.line + 1) := by
    have := h.y
    bv_omega
  unfold consoleNext
  dsimp only
  rw [if_neg]
  rw [hy]
  omega

/-- A character shows in its cell. -/
theorem putchar_pixels (hgeom : Wide c.fb.info) (h : Follows p c) (hprint : Printable ch)
    (hcol : 8 * (p.col + 1) ≤ c.fb.info.width.toNat)
    (hline : 16 * p.line + 16 ≤ c.fb.info.height.toNat) (k : U64) :
    (putchar font ch c).fb.pixels k =
      if (⟨k.toNat / stride c.fb.info / 16, k.toNat % stride c.fb.info / 8⟩ : Position) = p then
        glyphColor font ch c.info.foregroundColor c.info.backgroundColor
          (k.toNat % stride c.fb.info % 8) (k.toNat / stride c.fb.info % 16)
      else c.fb.pixels k := by
  have hheight := c.fb.info.height.isLt
  have hx := h.x
  have hy : c.info.cursorY.toNat = 16 * p.line := by
    have := h.y
    omega
  have hedge : c.info.cursorX.toNat + 8 ≤ stride c.fb.info := by
    have := hgeom.pitch
    rw [stride_of_bpp hgeom.bpp]
    omega
  rw [putchar_of_printable hprint]
  refine (glyph_pixels hgeom.bpp hedge k).trans ?_
  rw [hx, hy]
  generalize k.toNat / stride c.fb.info = row
  generalize k.toNat % stride c.fb.info = col
  have hcell : (⟨row / 16, col / 8⟩ : Position) = p ↔
      (8 * p.col ≤ col ∧ col < 8 * p.col + 8) ∧ 16 * p.line ≤ row ∧ row < 16 * p.line + 16 := by
    rw [Position.ext_iff]
    dsimp only
    omega
  simp only [hcell]
  split
  · congr 1
    · omega
    · omega
  · rfl

/-- **A text on the screen.**  Written from the cursor on, it is what the pixels show. -/
theorem foldl_pixels (font : ℕ → U8) (hgeom : Wide c.fb.info) (h : Follows p c)
    (hreach : InReach c.fb.info.width.toNat p) (hroom : Room c.fb.info p text) (k : U64) :
    (text.foldl (fun c ch => putchar font ch c) c).fb.pixels k
      = (charAt p text ⟨k.toNat / stride c.fb.info / 16, k.toNat % stride c.fb.info / 8⟩).elim
          (c.fb.pixels k) fun ch =>
            glyphColor font ch c.info.foregroundColor c.info.backgroundColor
              (k.toNat % stride c.fb.info % 8) (k.toNat / stride c.fb.info % 16) := by
  induction text generalizing c p with
  | nil => rfl
  | cons ch text ih =>
    have hpos : 0 < c.fb.info.width.toNat := by
      have := hgeom.width
      omega
    have hwidth : c.fb.info.width.toNat < 2 ^ 14 := by
      have := hgeom.pitch
      have := c.fb.info.pitch.isLt
      omega
    obtain ⟨hinfo, hfg, hbg⟩ := putchar_same font ch c
    have hcol : Printable ch → 8 * (p.col + 1) ≤ c.fb.info.width.toNat :=
      fun hprint => hroom.head hprint.1
    have hfollows := putchar_follows font hwidth h hreach hcol
    have hreach' := inReach_place hpos hcol
    rw [List.foldl_cons]
    by_cases hlf : ch = asciiLF
    · subst hlf
      have hrest := hroom.next_line
      have hfb : (putchar font asciiLF c).fb = c.fb := consoleNext_fb h (by
        have := hrest.lines
        dsimp only at this
        omega)
      have hrun := ih (c := putchar font asciiLF c) (p := ⟨p.line + 1, 0⟩) (hinfo.symm ▸ hgeom)
        hfollows (hinfo.symm ▸ hreach') (hinfo.symm ▸ hrest)
      rw [hrun, hfb, hfg, hbg, charAt_lf]
    · obtain ⟨hcr, hht⟩ := hroom.plain ch List.mem_cons_self
      have hprint : Printable ch := ⟨hlf, hcr, hht⟩
      rw [place_printable hprint] at hfollows hreach'
      have hrest := hroom.next_col hlf
      have hrun := ih (c := putchar font ch c) (p := ⟨p.line, p.col + 1⟩) (hinfo.symm ▸ hgeom)
        hfollows (hinfo.symm ▸ hreach') (hinfo.symm ▸ hrest)
      rw [hrun, hfg, hbg, hinfo, charAt_of_ne hlf,
        putchar_pixels hgeom h hprint (hroom.head hlf) (by have := hroom.lines; omega)]
      cases charAt ⟨p.line, p.col + 1⟩ text _ with
      | some ch' => rfl
      | none =>
        split
        · rfl
        · rfl

/-! ## From `console_init` on -/

/-- The pixel in column `x` and row `y`. -/
def pixelAt (info : FbInfo) (x y : ℕ) : U64 := BitVec.ofNat 64 (y * stride info + x)

theorem toNat_pixelAt (info : FbInfo) {x y : ℕ} (hx : x < 2 ^ 16) (hy : y < 2 ^ 16) :
    (pixelAt info x y).toNat = y * stride info + x := by
  have hrow : y * stride info ≤ 2 ^ 16 * 2 ^ 16 := Nat.mul_le_mul hy.le (stride_lt info).le
  rw [pixelAt, BitVec.toNat_ofNat]
  omega

theorem charAt_line_le {q : Position} (h : charAt p text q = some ch) :
    q.line ≤ p.line + text.count asciiLF := by
  induction text generalizing p with
  | nil => cases h
  | cons ch' text ih =>
    by_cases hlf : ch' = asciiLF
    · subst hlf
      rw [charAt_lf] at h
      have := ih h
      rw [List.count_cons_self]
      dsimp only at this
      omega
    · rw [charAt_of_ne hlf, Option.or_eq_some_iff] at h
      rw [List.count_cons_of_ne hlf]
      rcases h with h | ⟨-, h⟩
      · have := ih h
        exact this
      · have hq : q = p := by
          by_contra hq
          rw [if_neg hq] at h
          cases h
        rw [hq]
        omega

theorem room_of_lines (hbytes : ∀ ch ∈ text, ch ≠ 0 ∧ ch ≠ asciiCR ∧ ch ≠ asciiHT)
    (hcols : ∀ line ∈ text.splitOn asciiLF, line.length ≤ info.width.toNat / 8)
    (hlines : 16 * text.count asciiLF + 16 ≤ info.height.toNat) : Room info ⟨0, 0⟩ text where
  plain := fun ch hch => (hbytes ch hch).2
  cols := by
    intro q ch hch
    rw [charAt_start, charIn, Option.bind_eq_some_iff] at hch
    obtain ⟨line, hline, hcol⟩ := hch
    have hlen := hcols line (List.mem_of_getElem? hline)
    have := (List.getElem?_eq_some_iff.mp hcol).1
    omega
  lines := by
    dsimp only
    omega

theorem putstring_text (font : ℕ → U8) (hbytes : ∀ ch ∈ text, ch ≠ 0) (rest : List U8)
    (c : Console) :
    putstring font (text ++ 0 :: rest) c = text.foldl (fun c ch => putchar font ch c) c := by
  rw [putstring_eq_foldl, List.takeWhile_append_of_pos (by simpa using hbytes),
    List.takeWhile_cons_of_neg (by simp), List.append_nil]

/-- What every pixel shows after a text that fits. -/
theorem text_pixels (font : ℕ → U8) (c : Console) (hgeom : Wide c.fb.info) {text : List U8}
    (rest : List U8) (hbytes : ∀ ch ∈ text, ch ≠ 0) (hroom : Room c.fb.info ⟨0, 0⟩ text)
    (k : U64) :
    (putstring font (text ++ 0 :: rest) (consoleInit c)).fb.pixels k
      = (charIn text (k.toNat / stride c.fb.info / 16) (k.toNat % stride c.fb.info / 8)).elim
          ((consoleInit c).fb.pixels k) fun ch =>
            glyphColor font ch fbColorWhite fbColorBlack (k.toNat % stride c.fb.info % 8)
              (k.toNat / stride c.fb.info % 16) := by
  have hinfo := consoleInit_fb_info c
  have hshown := foldl_pixels font (c := consoleInit c) (p := ⟨0, 0⟩) (hinfo.symm ▸ hgeom)
    (follows_consoleInit c) (show 0 < (consoleInit c).fb.info.width.toNat + 32 by omega)
    (hinfo.symm ▸ hroom) k
  rw [hinfo, charAt_start] at hshown
  rw [putstring_text font hbytes]
  exact hshown

/-- The cell of a character is on the screen. -/
theorem Room.cell {r col : ℕ} (h : Room info ⟨0, 0⟩ text) (hch : charIn text r col = some ch) :
    8 * (col + 1) ≤ info.width.toNat ∧ 16 * r + 16 ≤ info.height.toNat := by
  rw [← charAt_start] at hch
  have hline := charAt_line_le hch
  have hlines := h.lines
  dsimp only at hline hlines
  exact ⟨h.cols _ _ hch, by omega⟩

/-- Every pixel is the one in its column and row. -/
theorem eq_pixelAt (info : FbInfo) (k : U64) :
    k = pixelAt info
      (8 * (k.toNat % stride info / 8) + k.toNat % stride info % 8)
      (16 * (k.toNat / stride info / 16) + k.toNat / stride info % 16) := by
  rw [pixelAt, Nat.div_add_mod, Nat.div_add_mod, Nat.div_add_mod', BitVec.ofNat_toNat,
    BitVec.setWidth_eq]

/-- **Text appears where it belongs.**  If the lines of the text fit the screen's width and
its line feeds leave room for one more line, every character is drawn in the cell its line
and column say, and everything else is as `console_init` left it. -/
theorem text_on_screen (font : ℕ → U8) (c : Console) (hgeom : Wide c.fb.info)
    (text rest : List U8) (hbytes : ∀ ch ∈ text, ch ≠ 0 ∧ ch ≠ asciiCR ∧ ch ≠ asciiHT)
    (hcols : ∀ line ∈ text.splitOn asciiLF, line.length ≤ c.fb.info.width.toNat / 8)
    (hlines : 16 * text.count asciiLF + 16 ≤ c.fb.info.height.toNat) :
    (∀ r col ch, charIn text r col = some ch → ∀ i < 16, ∀ j < 8,
      (putstring font (text ++ 0 :: rest) (consoleInit c)).fb.pixels
          (pixelAt c.fb.info (8 * col + j) (16 * r + i))
        = glyphColor font ch fbColorWhite fbColorBlack j i) ∧
    ∀ k, (∀ r col i j, (charIn text r col).isSome → i < 16 → j < 8 →
        k ≠ pixelAt c.fb.info (8 * col + j) (16 * r + i)) →
      (putstring font (text ++ 0 :: rest) (consoleInit c)).fb.pixels k
        = (consoleInit c).fb.pixels k := by
  have hroom := room_of_lines hbytes hcols hlines
  have hshown := text_pixels font c hgeom rest (fun ch hch => (hbytes ch hch).1) hroom
  constructor
  · intro r col ch hch i hi j hj
    obtain ⟨hedge, hbottom⟩ := hroom.cell hch
    have hpitch := hgeom.pitch
    rw [← stride_of_bpp hgeom.bpp] at hpitch
    have hheight := c.fb.info.height.isLt
    have hwidth := c.fb.info.width.isLt
    obtain ⟨hrow, hcol⟩ := div_mod_of_eq
      (toNat_pixelAt c.fb.info (show 8 * col + j < 2 ^ 16 by omega)
        (show 16 * r + i < 2 ^ 16 by omega)) (by omega)
    rw [hshown, hrow, hcol, show (16 * r + i) / 16 = r by omega,
      show (8 * col + j) / 8 = col by omega, hch, show (16 * r + i) % 16 = i by omega,
      show (8 * col + j) % 8 = j by omega]
    rfl
  · intro k hk
    rw [hshown]
    cases hch : charIn text (k.toNat / stride c.fb.info / 16) (k.toNat % stride c.fb.info / 8) with
    | none => rfl
    | some ch =>
      -- then the pixel is in a character's cell
      exact absurd (eq_pixelAt c.fb.info k) (hk _ _ _ _ (Option.isSome_of_eq_some hch)
        (Nat.mod_lt _ (by decide)) (Nat.mod_lt _ (by decide)))

/-- A screen of 40 by 32 pixels. -/
def small : Console := ⟨⟨⟨32, 40, 160, 32⟩, fun _ => 0, []⟩, ⟨0, 0, 0, 0, 0, 0⟩⟩

/-- Two lines, in a font of full blocks. -/
theorem text_on_screen_two_lines :
    (putstring (fun _ => 0xFF) ([0x41, 0x0A, 0x42] ++ 0 :: []) (consoleInit small)).fb.pixels
        (pixelAt small.fb.info (8 * 0 + 3) (16 * 1 + 2))
      = glyphColor (fun _ => 0xFF) 0x42 fbColorWhite fbColorBlack 3 2 :=
  (text_on_screen (fun _ => 0xFF) small ⟨by decide, by decide, rfl, by decide⟩
    [0x41, 0x0A, 0x42] [] (by decide) (by decide) (by decide)).1 1 0 0x42 rfl 2 (by decide) 3
    (by decide)

end Console
