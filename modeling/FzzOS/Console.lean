/-
# The console

The drawing half of `console.c`: the cursor, the glyphs, the scroll.  The font is what the
bytes behind `_binary_zapl16_psf_start` are read from.

* `putchar`, `putstring`, `consoleInit` : the code;
* `consoleDrawchar_eq` : a glyph is 128 stores; `glyph_pixels` says where they go and in
  which colour;
* `putstring_eq_foldl` : a string is its bytes up to the first zero byte.
-/
import FzzOS.Framebuffer

open Framebuffer

/-- `struct console_info`, without the font pointer, which is only ever assigned, and the
unused `scroll_blank`. -/
structure ConsoleInfo where
  startPos : U32
  maxLines : U32
  foregroundColor : U32
  backgroundColor : U32
  cursorX : U16
  cursorY : U16

/-- The console: the screen it draws on, and its variables. -/
structure Console where
  fb : Framebuffer
  info : ConsoleInfo

namespace Console

/-! ## The code -/

/-- `ASCII_HT`, the tab. -/
def asciiHT : U8 := 0x09

/-- `ASCII_LF`, the end of a line. -/
def asciiLF : U8 := 0x0A

/-- `ASCII_CR`. -/
def asciiCR : U8 := 0x0D

/-- `FB_COLOR_BLACK`. -/
def fbColorBlack : U32 := 0xFF000000

/-- `FB_COLOR_WHITE`. -/
def fbColorWhite : U32 := 0xFFFFFFFF

/-- `FB_COLOR_YELLOW`. -/
def fbColorYellow : U32 := 0xFFFFFF00

/-- `console_draw_hline`. -/
def consoleDrawHline (y : U64) (color : U32) (fb : Framebuffer) : Framebuffer :=
  -- rows are `width` pixels apart here
  let index := y * fb.info.width.setWidth 64
  fb.stores .line ((List.range fb.info.width.toNat).map fun i => (index + BitVec.ofNat 64 i, color))

/-- A product or difference of 32-bit integers, as a 64-bit index. -/
def indexOfInt (x : U32) : U64 := x.signExtend 64

/-- The indices `console_scroll` works with: where the first line kept starts, ... -/
def startIndex (info : FbInfo) : U64 := indexOfInt (info.width.setWidth 32 * 16 * 4)

/-- ... where the lines kept end up, ... -/
def finishIndex (info : FbInfo) : U64 :=
  indexOfInt (info.height.setWidth 32 * info.width.setWidth 32) - startIndex info

/-- ... and where the blank lines end. -/
def endIndex (info : FbInfo) : U64 :=
  indexOfInt (info.height.setWidth 32 * info.width.setWidth 32 - 1)

/-- The indices from `finish_index + 1` up to `end_index`. -/
def blankIndices (info : FbInfo) : List ℕ :=
  let first := (finishIndex info + 1).toNat
  List.range' first ((endIndex info).toNat - first)

/-- `console_scroll`. -/
def consoleScroll (c : Console) : Console :=
  let fb := (List.range (finishIndex c.fb.info).toNat).foldl
    (fun fb i => fb.store .scroll (BitVec.ofNat 64 i)
      (fb.pixels (startIndex c.fb.info + BitVec.ofNat 64 i)))
    c.fb
  let fb := fb.stores .scroll
    ((blankIndices c.fb.info).map fun i => (BitVec.ofNat 64 i, c.info.backgroundColor))
  { fb := fb, info := { c.info with cursorX := 0 } }

/-- `console_next`. -/
def consoleNext (c : Console) : Console :=
  let c := { c with info := { c.info with cursorX := 0, cursorY := c.info.cursorY + 16 } }
  -- the cursor stays below the last line after a scroll
  if (c.info.cursorY.toNat : ℤ) > c.fb.info.height.toNat - 16 then consoleScroll c else c

/-- `console_drawchar`. -/
def consoleDrawchar (font : ℕ → U8) (ch : U8) (x y foreground background : U32)
    (fb : Framebuffer) : Framebuffer :=
  let glyph := 4 + ch.toNat * 16
  (List.range 16).foldl
    (fun fb i =>
      ((List.range 8).foldl
        (fun (p : U8 × Framebuffer) j =>
          let col := if p.1 &&& 0x80 ≠ 0 then foreground else background
          (p.1 <<< 1, fbPutpixel (x + BitVec.ofNat 32 j) (y + BitVec.ofNat 32 i) col p.2))
        (font (glyph + i), fb)).2)
    (fb.note (.glyph x y))

/-- `console_info.cursor_x += n`. -/
def advance (n : U16) (c : Console) : Console :=
  { c with info := { c.info with cursorX := c.info.cursorX + n } }

/-- `putchar`. -/
def putchar (font : ℕ → U8) (ch : U8) (c : Console) : Console :=
  if ch = asciiLF then consoleNext c
  else if ch = asciiCR then consoleNext c
  else if ch = asciiHT then
    -- the test moves the cursor as well
    let c := advance 32 c
    if c.info.cursorX.toNat < c.fb.info.width.toNat then advance 32 c
    else advance 32 (consoleNext c)
  else
    advance 8 { c with
      fb := consoleDrawchar font ch (c.info.cursorX.setWidth 32) (c.info.cursorY.setWidth 32)
        c.info.foregroundColor c.info.backgroundColor c.fb }

/-- `putstring`, which stops at the first zero byte. -/
def putstring (font : ℕ → U8) : List U8 → Console → Console
  | [], c => c
  | ch :: str, c => if ch = 0 then c else putstring font str (putchar font ch c)

/-- `console_init`, as far as the screen goes. -/
def consoleInit (c : Console) : Console :=
  let height := c.fb.info.height.setWidth 32
  let info : ConsoleInfo :=
    { startPos := height / 4 * 3
      maxLines := height / 16
      foregroundColor := fbColorWhite
      backgroundColor := fbColorBlack
      cursorX := 0
      cursorY := 0 }
  let fb := consoleDrawHline (info.startPos.setWidth 64) fbColorYellow c.fb
  let fb := consoleDrawHline ((info.startPos + 1).setWidth 64) fbColorYellow fb
  { fb := fb, info := info }

/-! ## One glyph -/

variable {font : ℕ → U8} {ch : U8} {x y foreground background : U32} {fb : Framebuffer}
  {c : Console}

/-- The colour of a glyph's pixel in column `j` and row `i`. -/
def glyphColor (font : ℕ → U8) (ch : U8) (foreground background : U32) (j i : ℕ) : U32 :=
  if (font (4 + ch.toNat * 16 + i)).getLsbD (7 - j) then foreground else background

/-- The stores of one row of a glyph. -/
def rowStores (info : FbInfo) (row : U8) (x y foreground background : U32) (n : ℕ) :
    List (U64 × U32) :=
  (List.range n).map fun j =>
    (fbIndex info (x + BitVec.ofNat 32 j) y,
      if row.getLsbD (7 - j) then foreground else background)

/-- The stores of a glyph. -/
def glyphStores (font : ℕ → U8) (info : FbInfo) (ch : U8) (x y foreground background : U32) :
    List (U64 × U32) :=
  (List.range 16).flatMap fun i =>
    rowStores info (font (4 + ch.toNat * 16 + i)) x (y + BitVec.ofNat 32 i) foreground background 8

/-- The top bit of the row, shifted `j` times, is its bit `7 - j`. -/
theorem and_80_shiftLeft (row : U8) {j : ℕ} (hj : j < 8) :
    row <<< j &&& 0x80 ≠ 0 ↔ row.getLsbD (7 - j) = true := by
  have htop : (row <<< j).getLsbD 7 = row.getLsbD (7 - j) := by
    rw [BitVec.getLsbD_shiftLeft]
    simp [show ¬ 7 < j by omega]
  rw [show (0x80 : U8) = BitVec.twoPow 8 7 from rfl, BitVec.and_twoPow, htop]
  cases row.getLsbD (7 - j) <;> decide

theorem rowStores_succ (info : FbInfo) (row : U8) (x y foreground background : U32) (n : ℕ) :
    rowStores info row x y foreground background (n + 1)
      = rowStores info row x y foreground background n
          ++ [(fbIndex info (x + BitVec.ofNat 32 n) y,
              if row.getLsbD (7 - n) then foreground else background)] := by
  rw [rowStores, List.range_succ, List.map_append]
  rfl

/-- The inner loop, which shifts the row as it goes, is a list of stores. -/
theorem row_loop (row : U8) (x y foreground background : U32) (fb : Framebuffer) {n : ℕ}
    (hn : n ≤ 8) :
    (List.range n).foldl
        (fun (p : U8 × Framebuffer) j =>
          let col := if p.1 &&& 0x80 ≠ 0 then foreground else background
          (p.1 <<< 1, fbPutpixel (x + BitVec.ofNat 32 j) y col p.2))
        (row, fb)
      = (row <<< n, fb.stores .pixel (rowStores fb.info row x y foreground background n)) := by
  induction n with
  | zero => simp [rowStores]
  | succ n ih =>
    rw [List.range_succ, List.foldl_append, ih (by omega), rowStores_succ, stores_append]
    simp only [List.foldl_cons, List.foldl_nil, and_80_shiftLeft row (show n < 8 by omega),
      ← BitVec.shiftLeft_add]
    rw [fbPutpixel, stores_info]
    rfl

/-- **A glyph is its stores.** -/
theorem consoleDrawchar_eq (font : ℕ → U8) (ch : U8) (x y foreground background : U32)
    (fb : Framebuffer) :
    consoleDrawchar font ch x y foreground background fb
      = (fb.note (.glyph x y)).stores .pixel
          (glyphStores font fb.info ch x y foreground background) := by
  have hloop : ∀ (n : ℕ) (fb : Framebuffer),
      (List.range n).foldl
        (fun fb i =>
          ((List.range 8).foldl
            (fun (p : U8 × Framebuffer) j =>
              let col := if p.1 &&& 0x80 ≠ 0 then foreground else background
              (p.1 <<< 1, fbPutpixel (x + BitVec.ofNat 32 j) (y + BitVec.ofNat 32 i) col p.2))
            (font (4 + ch.toNat * 16 + i), fb)).2) fb
      = fb.stores .pixel ((List.range n).flatMap fun i =>
          rowStores fb.info (font (4 + ch.toNat * 16 + i)) x (y + BitVec.ofNat 32 i) foreground
            background 8) := by
    intro n fb
    induction n with
    | zero => rfl
    | succ n ih =>
      have hrange : List.range (n + 1) = List.range n ++ [n] := List.range_succ
      rw [hrange, List.foldl_append, ih, List.flatMap_append, stores_append]
      simp only [List.foldl_cons, List.foldl_nil, row_loop _ _ _ _ _ _ (le_refl 8), stores_info,
        List.flatMap_cons, List.flatMap_nil, List.append_nil]
  exact hloop 16 (fb.note (.glyph x y))

theorem mem_glyphStores {info : FbInfo} {p : U64 × U32} :
    p ∈ glyphStores font info ch x y foreground background ↔
      ∃ i < 16, ∃ j < 8, p = (fbIndex info (x + BitVec.ofNat 32 j) (y + BitVec.ofNat 32 i),
        glyphColor font ch foreground background j i) := by
  simp only [glyphStores, rowStores, glyphColor, List.mem_flatMap, List.mem_map, List.mem_range,
    eq_comm]

/-- A cursor's pixels are all at the index their row and column say, at 32 bits per pixel. -/
theorem toNat_glyphIndex {info : FbInfo} (hbpp : info.bpp = 32) (cx cy : U16) {i j : ℕ}
    (hi : i < 16) (hj : j < 8) :
    (fbIndex info (cx.setWidth 32 + BitVec.ofNat 32 j)
        (cy.setWidth 32 + BitVec.ofNat 32 i)).toNat
      = (cy.toNat + i) * stride info + (cx.toNat + j) := by
  have hstride : stride info < 2 ^ 14 := by
    have := info.pitch.isLt
    rw [stride_of_bpp hbpp]
    omega
  have hx : (cx.setWidth 32 + BitVec.ofNat 32 j).toNat = cx.toNat + j := by bv_omega
  have hy : (cy.setWidth 32 + BitVec.ofNat 32 i).toNat = cy.toNat + i := by bv_omega
  have hcx := cx.isLt
  have hcy := cy.isLt
  have hrow : (cy.toNat + i) * stride info ≤ (2 ^ 16 + 15) * 2 ^ 14 :=
    Nat.mul_le_mul (by omega) (by omega)
  rw [toNat_fbIndex (by rw [hx, hy]; omega) (by omega), hx, hy]

/-- Row and column of an index. -/
theorem div_mod_of_eq {n r d : ℕ} {s : ℕ} (h : n = r * s + d) (hd : d < s) :
    n / s = r ∧ n % s = d := by
  have hs : 0 < s := by omega
  rw [h, Nat.mul_comm, Nat.mul_add_div hs, Nat.mul_add_mod, Nat.div_eq_of_lt hd,
    Nat.mod_eq_of_lt hd]
  exact ⟨rfl, rfl⟩

/-- **A glyph on the screen.**  The 8 by 16 pixels at the cursor show the glyph, the others
stay. -/
theorem glyph_pixels {cx cy : U16} (hbpp : fb.info.bpp = 32)
    (hx : cx.toNat + 8 ≤ stride fb.info) (k : U64) :
    (consoleDrawchar font ch (cx.setWidth 32) (cy.setWidth 32) foreground background fb).pixels k
      = if (cx.toNat ≤ k.toNat % stride fb.info ∧ k.toNat % stride fb.info < cx.toNat + 8) ∧
            cy.toNat ≤ k.toNat / stride fb.info ∧ k.toNat / stride fb.info < cy.toNat + 16 then
          glyphColor font ch foreground background
            (k.toNat % stride fb.info - cx.toNat) (k.toNat / stride fb.info - cy.toNat)
        else fb.pixels k := by
  rw [consoleDrawchar_eq]
  set s := stride fb.info with hs
  have hplace : ∀ i < 16, ∀ j < 8,
      k = fbIndex fb.info (cx.setWidth 32 + BitVec.ofNat 32 j)
        (cy.setWidth 32 + BitVec.ofNat 32 i) →
      k.toNat / s = cy.toNat + i ∧ k.toNat % s = cx.toNat + j := by
    intro i hi j hj hk
    exact div_mod_of_eq (hk ▸ toNat_glyphIndex hbpp cx cy hi hj) (by omega)
  rw [stores_pixels (x := glyphColor font ch foreground background (k.toNat % s - cx.toNat)
    (k.toNat / s - cy.toNat))]
  · refine if_congr ⟨?_, ?_⟩ rfl rfl
    · rintro ⟨p, hp, hk⟩
      obtain ⟨i, hi, j, hj, rfl⟩ := mem_glyphStores.mp hp
      obtain ⟨hrow, hcol⟩ := hplace i hi j hj hk
      omega
    · rintro ⟨⟨hx₁, hx₂⟩, hy₁, hy₂⟩
      have hi : k.toNat / s - cy.toNat < 16 := by omega
      have hj : k.toNat % s - cx.toNat < 8 := by omega
      refine ⟨_, mem_glyphStores.mpr ⟨_, hi, _, hj, rfl⟩, BitVec.eq_of_toNat_eq ?_⟩
      rw [toNat_glyphIndex hbpp cx cy hi hj, Nat.add_sub_cancel' hy₁, Nat.add_sub_cancel' hx₁,
        Nat.div_add_mod']
  · intro p hp hk
    obtain ⟨i, hi, j, hj, rfl⟩ := mem_glyphStores.mp hp
    obtain ⟨hrow, hcol⟩ := hplace i hi j hj hk
    rw [hrow, hcol, Nat.add_sub_cancel_left, Nat.add_sub_cancel_left]

/-! ## Strings -/

/-- **A string is its bytes**, up to the first zero. -/
theorem putstring_eq_foldl (font : ℕ → U8) (str : List U8) (c : Console) :
    putstring font str c = (str.takeWhile (· ≠ 0)).foldl (fun c ch => putchar font ch c) c := by
  induction str generalizing c with
  | nil => rfl
  | cons ch str ih =>
    by_cases h : ch = 0
    · rw [putstring, if_pos h, List.takeWhile_cons_of_neg (by simpa using h), List.foldl_nil]
    · rw [putstring, if_neg h, ih, List.takeWhile_cons_of_pos (by simpa using h), List.foldl_cons]

/-- A call from the rest of the kernel. -/
inductive Call
  | putchar (ch : U8)
  | putstring (str : List U8)

/-- The bytes a call sends to the console. -/
def Call.bytes : Call → List U8
  | .putchar ch => [ch]
  | .putstring str => str.takeWhile (· ≠ 0)

/-- What a call does. -/
def Call.apply (font : ℕ → U8) (c : Console) : Call → Console
  | .putchar ch => Console.putchar font ch c
  | .putstring str => Console.putstring font str c

/-- **A sequence of calls is the sequence of their bytes.** -/
theorem foldl_apply (font : ℕ → U8) (calls : List Call) (c : Console) :
    calls.foldl (Call.apply font) c
      = (calls.flatMap Call.bytes).foldl (fun c ch => putchar font ch c) c := by
  induction calls generalizing c with
  | nil => rfl
  | cons call calls ih =>
    rw [List.foldl_cons, ih, List.flatMap_cons, List.foldl_append]
    cases call with
    | putchar ch => rfl
    | putstring str => rw [Call.apply, putstring_eq_foldl, Call.bytes]

end Console
