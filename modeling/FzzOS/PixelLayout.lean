/-
# Where a pixel is

`fb_putpixel` counts rows by the pitch, `fb_clearscreen`, `console_draw_hline` and
`console_scroll` count them by the width.

* `fbClearscreen` : the code;
* `PixelsAgree` : all four mean the same pixel by a column and a row of the screen;
* `pixelsAgree_iff` : they do on screens without padding and with at least 64 rows.
-/
import FzzOS.ConsoleScroll

open Framebuffer

namespace Console

variable {c : Console} {fb : Framebuffer} {info : FbInfo} {col x y : U32} {k : U64}

/-- `fb_clearscreen`. -/
def fbClearscreen (col : U32) (fb : Framebuffer) : Framebuffer :=
  let size := indexOfInt (fb.info.height.setWidth 32 * fb.info.width.setWidth 32)
  fb.stores .pixel ((List.range size.toNat).map fun i => (BitVec.ofNat 64 i, col))

/-- The framebuffers in question: rows of 32-bit pixels, with or without something in
between. -/
structure Padded (info : FbInfo) : Prop where
  bpp : info.bpp = 32
  aligned : 4 ∣ info.pitch.toNat
  pitch : 4 * info.width.toNat ≤ info.pitch.toNat

/-- **The law.**  After clearing, every pixel of the screen has the colour; a line changes the
pixels of its row; a scroll moves a pixel of the screen to another row of the same column. -/
structure PixelsAgree (info : FbInfo) : Prop where
  clear : ∀ (fb : Framebuffer) (col x y : U32), fb.info = info →
    x.toNat < info.width.toNat → y.toNat < info.height.toNat →
    (fbClearscreen col fb).pixels (fbIndex info x y) = col
  line : ∀ (fb : Framebuffer) (col x y : U32), fb.info = info →
    x.toNat < info.width.toNat → y.toNat < info.height.toNat →
    (consoleDrawHline (y.setWidth 64) col fb).pixels (fbIndex info x y) = col
  beside : ∀ (fb : Framebuffer) (col y : U32) (k : U64), fb.info = info →
    y.toNat < info.height.toNat →
    (∀ x : U32, x.toNat < info.width.toNat → k ≠ fbIndex info x y) →
    (consoleDrawHline (y.setWidth 64) col fb).pixels k = fb.pixels k
  scroll : ∀ x y₁ : U32, x.toNat < info.width.toNat → y₁.toNat < info.height.toNat →
    (fbIndex info x y₁).toNat < (finishIndex info).toNat →
    ∃ y₂ : U32, y₂.toNat < info.height.toNat ∧ ∀ c : Console, c.fb.info = info →
      (consoleScroll c).fb.pixels (fbIndex info x y₁) = c.fb.pixels (fbIndex info x y₂)

/-! ## Indices -/

theorem Padded.width_le_stride (h : Padded info) : info.width.toNat ≤ stride info := by
  have := h.pitch
  rw [stride_of_bpp h.bpp]
  omega

theorem Padded.stride_lt (h : Padded info) : stride info < 2 ^ 14 := by
  have := info.pitch.isLt
  rw [stride_of_bpp h.bpp]
  omega

theorem Padded.pitch_eq_iff (h : Padded info) :
    info.pitch.toNat = 4 * info.width.toNat ↔ stride info = info.width.toNat := by
  have := h.aligned
  rw [stride_of_bpp h.bpp]
  omega

theorem Padded.size_lt (h : Padded info) : info.height.toNat * info.width.toNat < 2 ^ 31 := by
  have hwidth := h.width_le_stride.trans h.stride_lt.le
  calc info.height.toNat * info.width.toNat ≤ 2 ^ 16 * 2 ^ 14 :=
        Nat.mul_le_mul info.height.isLt.le hwidth
    _ < 2 ^ 31 := by decide

theorem Padded.toNat_size (h : Padded info) :
    (indexOfInt (info.height.setWidth 32 * info.width.setWidth 32)).toNat
      = info.height.toNat * info.width.toNat := by
  rw [toNat_indexOfInt (by rw [Console.toNat_size h.size_lt]; exact h.size_lt),
    Console.toNat_size h.size_lt]

/-- A pixel of the screen is where `fb_putpixel` means it to be. -/
theorem Padded.toNat_fbIndex (h : Padded info) (hx : x.toNat < info.width.toNat)
    (hy : y.toNat < info.height.toNat) :
    (fbIndex info x y).toNat = y.toNat * stride info + x.toNat := by
  have hstride := h.stride_lt
  have hrow : y.toNat * stride info ≤ 2 ^ 16 * 2 ^ 14 :=
    Nat.mul_le_mul (hy.le.trans info.height.isLt.le) hstride.le
  have hwidth := info.width.isLt
  exact Framebuffer.toNat_fbIndex (by omega) (by omega)

/-- A pixel of a row above row `n` is before row `n`. -/
theorem row_lt {x y n width : ℕ} (hx : x < width) (hy : y < n) : y * width + x < n * width :=
  calc y * width + x < y * width + width := Nat.add_lt_add_left hx _
    _ = (y + 1) * width := (Nat.succ_mul _ _).symm
    _ ≤ n * width := Nat.mul_le_mul_right _ hy

/-- A pixel that is `n` rows before the end still is when the rows are counted. -/
theorem row_add_lt {x y n height width : ℕ} (h : y * width + x < height * width - n * width) :
    y + n < height := by
  by_contra hbelow
  have hrows : (height - n) * width ≤ y * width := Nat.mul_le_mul_right _ (by omega)
  rw [Nat.sub_mul] at hrows
  omega

/-- The pixels of a line, as `console_draw_hline` counts them. -/
theorem toNat_lineIndex (y : U32) (width : U16) {i : ℕ} (hi : i < width.toNat) :
    (y.setWidth 64 * width.setWidth 64 + BitVec.ofNat 64 i).toNat = y.toNat * width.toNat + i := by
  have hwidth := width.isLt
  have hrow : y.toNat * width.toNat ≤ 2 ^ 32 * 2 ^ 16 := Nat.mul_le_mul y.isLt.le hwidth.le
  have hw : (width.setWidth 64).toNat = width.toNat := by bv_omega
  have hy : (y.setWidth 64).toNat = y.toNat := by bv_omega
  rw [BitVec.toNat_add, BitVec.toNat_mul, BitVec.toNat_ofNat, hw, hy]
  omega

/-! ## The four routines -/

theorem clear_pixels (h : Padded fb.info) (col : U32) (k : U64) :
    (fbClearscreen col fb).pixels k =
      if k.toNat < fb.info.height.toNat * fb.info.width.toNat then col else fb.pixels k := by
  refine (fill_pixels _ _ _ k).trans (if_congr ?_ rfl rfl)
  rw [h.toNat_size]
  constructor
  · rintro ⟨i, hi, rfl⟩
    rw [BitVec.toNat_ofNat]
    exact (Nat.mod_le _ _).trans_lt (List.mem_range.mp hi)
  · intro hk
    refine ⟨k.toNat, List.mem_range.mpr hk, ?_⟩
    rw [BitVec.ofNat_toNat, BitVec.setWidth_eq]

theorem line_pixels (y col : U32) (fb : Framebuffer) (k : U64) :
    (consoleDrawHline (y.setWidth 64) col fb).pixels k =
      if y.toNat * fb.info.width.toNat ≤ k.toNat ∧
          k.toNat < y.toNat * fb.info.width.toNat + fb.info.width.toNat then col
      else fb.pixels k := by
  refine (fill_pixels _ _ _ k).trans (if_congr ?_ rfl rfl)
  constructor
  · rintro ⟨i, hi, rfl⟩
    have hi := List.mem_range.mp hi
    have hindex := toNat_lineIndex y fb.info.width hi
    omega
  · rintro ⟨hlow, hhigh⟩
    have hi : k.toNat - y.toNat * fb.info.width.toNat < fb.info.width.toNat := by omega
    refine ⟨_, List.mem_range.mpr hi, BitVec.eq_of_toNat_eq ?_⟩
    rw [toNat_lineIndex y fb.info.width hi]
    omega

/-! ## When they agree -/

/-- Rows without padding: everything is where it should be, and a scroll moves up by 64 rows. -/
theorem pixelsAgree_of_pitch (h : Padded info) (hpitch : stride info = info.width.toNat)
    (hheight : 64 ≤ info.height.toNat) : PixelsAgree info where
  clear fb col x y hfb hx hy := by
    subst hfb
    refine (clear_pixels h col _).trans (if_pos ?_)
    rw [h.toNat_fbIndex hx hy, hpitch]
    exact row_lt hx hy
  line fb col x y hfb hx hy := by
    subst hfb
    rw [line_pixels, if_pos]
    rw [h.toNat_fbIndex hx hy, hpitch]
    omega
  beside fb col y k hfb hy hk := by
    subst hfb
    rw [line_pixels, if_neg]
    rintro ⟨hlow, hhigh⟩
    have hwidth := fb.info.width.isLt
    have hx : (BitVec.ofNat 32 (k.toNat - y.toNat * fb.info.width.toNat)).toNat
        = k.toNat - y.toNat * fb.info.width.toNat := by
      rw [BitVec.toNat_ofNat]
      omega
    refine hk (BitVec.ofNat 32 (k.toNat - y.toNat * fb.info.width.toNat)) (by omega)
      (BitVec.eq_of_toNat_eq ?_)
    rw [h.toNat_fbIndex (by omega) hy, hx, hpitch]
    omega
  scroll x y₁ hx hy₁ hkept := by
    have hindex := h.toNat_fbIndex hx hy₁
    rw [toNat_finishIndex h.size_lt hheight] at hkept
    rw [hpitch] at hindex
    have hlast : y₁.toNat + 64 < info.height.toNat := row_add_lt (hindex ▸ hkept)
    have hy₂ : (y₁ + 64).toNat = y₁.toNat + 64 := by
      have := info.height.isLt
      bv_omega
    have hstart := toNat_startIndex info
    have hsize := h.size_lt
    refine ⟨y₁ + 64, by omega, fun c hc => ?_⟩
    subst hc
    rw [consoleScroll_pixels hsize hheight (by omega), if_pos hkept]
    refine congrArg c.fb.pixels (BitVec.eq_of_toNat_eq ?_)
    rw [BitVec.toNat_add, hstart, hindex, h.toNat_fbIndex hx (by omega), hy₂, hpitch, Nat.add_mul]
    omega

/-- **Padding.**  From the second row on the cleared pixels are not those of the screen. -/
theorem PixelsAgree.stride_le (h : Padded info) (hagree : PixelsAgree info)
    (hwidth : 0 < info.width.toNat) (hheight : 2 ≤ info.height.toNat) :
    stride info ≤ info.width.toNat := by
  have hw := info.width.isLt
  have hh := info.height.isLt
  obtain ⟨x, hx⟩ : ∃ x : U32, x.toNat = info.width.toNat - 1 :=
    ⟨BitVec.ofNat 32 (info.width.toNat - 1), by rw [BitVec.toNat_ofNat]; omega⟩
  obtain ⟨y, hy⟩ : ∃ y : U32, y.toNat = info.height.toNat - 1 :=
    ⟨BitVec.ofNat 32 (info.height.toNat - 1), by rw [BitVec.toNat_ofNat]; omega⟩
  -- the last pixel of the screen
  have hlast := hagree.clear ⟨info, fun _ => 0, []⟩ 1 x y rfl (by omega) (by omega)
  rw [clear_pixels h, h.toNat_fbIndex (by omega) (by omega), hx, hy] at hlast
  by_contra hstride
  have hrow : (info.height.toNat - 1) * (info.width.toNat + 1)
      ≤ (info.height.toNat - 1) * stride info := Nat.mul_le_mul_left _ (by omega)
  have hsplit : info.height.toNat * info.width.toNat
      = (info.height.toNat - 1) * info.width.toNat + info.width.toNat := by
    rw [← Nat.succ_mul, Nat.succ_eq_add_one, Nat.sub_add_cancel (by omega)]
  rw [Nat.mul_succ] at hrow
  dsimp only at hlast
  rw [if_neg (by omega)] at hlast
  exact absurd hlast (by decide)

/-- Below 64 rows the copy starts all the same, and goes on far beyond the screen. -/
theorem finishIndex_pos (h : Padded info) (hwidth : 0 < info.width.toNat)
    (hsmall : info.height.toNat < 64) : 0 < (finishIndex info).toNat := by
  have hsize := h.toNat_size
  have hstart := toNat_startIndex info
  have hw := info.width.isLt
  have hmul : info.height.toNat * info.width.toNat < 64 * info.width.toNat :=
    Nat.mul_lt_mul_of_pos_right hsmall hwidth
  rw [finishIndex]
  bv_omega

/-- The first pixel after a scroll: the one `start_index` away, or a blank one. -/
theorem consoleScroll_first (c : Console) (hwidth : 0 < c.fb.info.width.toNat)
    (hfinish : 0 < (finishIndex c.fb.info).toNat) :
    (consoleScroll c).fb.pixels 0 = c.info.backgroundColor ∨
      (consoleScroll c).fb.pixels 0 = c.fb.pixels (startIndex c.fb.info) := by
  have hstart := toNat_startIndex c.fb.info
  have hw := c.fb.info.width.isLt
  have hzero : (0 : U64).toNat = 0 := rfl
  rw [consoleScroll_fb_pixels]
  split
  · exact Or.inl rfl
  · refine Or.inr ?_
    rw [copyLoop_of_lt hfinish (finishIndex c.fb.info).isLt.le (by omega) (by omega)]
    exact congrArg c.fb.pixels (BitVec.add_zero _)

/-- **Small screens.**  Below 64 rows a scroll takes the first pixel from outside. -/
theorem PixelsAgree.height_le (h : Padded info) (hagree : PixelsAgree info)
    (hwidth : 0 < info.width.toNat) (hheight : 0 < info.height.toNat) :
    64 ≤ info.height.toNat := by
  by_contra hsmall
  have hfinish := finishIndex_pos h hwidth (by omega)
  have hzero : (0 : U32).toNat = 0 := rfl
  have hfirst : fbIndex info 0 0 = 0 := by
    refine BitVec.eq_of_toNat_eq ?_
    rw [h.toNat_fbIndex (x := 0) (y := 0) hwidth hheight, hzero, Nat.zero_mul]
    rfl
  obtain ⟨y₂, hy₂, hmoves⟩ := hagree.scroll 0 0 hwidth hheight (by rw [hfirst]; exact hfinish)
  -- a black screen with one white pixel, `start_index` away from the first
  let screen : Console :=
    ⟨⟨info, fun k => if k = startIndex info then 1 else 0, []⟩, ⟨0, 0, 0, 1, 0, 0⟩⟩
  have hmoved : (consoleScroll screen).fb.pixels 0 = screen.fb.pixels (fbIndex info 0 y₂) := by
    rw [← hmoves screen rfl, hfirst]
  have hwhite : (consoleScroll screen).fb.pixels 0 = 1 := by
    rcases consoleScroll_first screen hwidth hfinish with hblank | hcopied
    · exact hblank
    · exact hcopied.trans (if_pos rfl)
  have hfrom : fbIndex info 0 y₂ = startIndex info := by
    by_contra hne
    exact absurd ((hwhite.symm.trans hmoved).trans (if_neg hne)) (by decide)
  have hindex := h.toNat_fbIndex (x := 0) hwidth hy₂
  rw [hfrom, toNat_startIndex] at hindex
  -- that is in none of the rows
  rcases Nat.lt_or_ge 1 info.height.toNat with hmany | hone
  · have hstride := hagree.stride_le h hwidth hmany
    have hrow : y₂.toNat * stride info ≤ y₂.toNat * info.width.toNat :=
      Nat.mul_le_mul_left _ hstride
    have hlt : y₂.toNat * info.width.toNat < 64 * info.width.toNat :=
      Nat.mul_lt_mul_of_pos_right (by omega) hwidth
    omega
  · rw [show y₂.toNat = 0 by omega, Nat.zero_mul] at hindex
    omega

/-- **All drawing code agrees** on where a pixel is if and only if there are no pixels, or there
is no padding and a screen of at least 64 rows. -/
theorem pixelsAgree_iff (h : Padded info) :
    PixelsAgree info ↔ info.width.toNat = 0 ∨ info.height.toNat = 0 ∨
      info.pitch.toNat = 4 * info.width.toNat ∧ 64 ≤ info.height.toNat := by
  rw [h.pitch_eq_iff]
  constructor
  · intro hagree
    by_cases hwidth : info.width.toNat = 0
    · exact Or.inl hwidth
    by_cases hheight : info.height.toNat = 0
    · exact Or.inr (Or.inl hheight)
    have htall := hagree.height_le h (by omega) (by omega)
    exact Or.inr (Or.inr ⟨le_antisymm (hagree.stride_le h (by omega) (by omega))
      h.width_le_stride, htall⟩)
  · rintro (hwidth | hheight | ⟨hpitch, htall⟩)
    · refine ⟨fun _ _ _ _ _ hx => ?_, fun _ _ _ _ _ hx => ?_, fun fb col y k hfb hy hk => ?_,
        fun _ _ hx => ?_⟩
      · exact absurd hx (by omega)
      · exact absurd hx (by omega)
      · subst hfb
        exact (line_pixels ..).trans (if_neg (by omega))
      · exact absurd hx (by omega)
    · exact ⟨fun _ _ _ _ _ _ hy => absurd hy (by omega), fun _ _ _ _ _ _ hy => absurd hy (by omega),
        fun _ _ _ _ _ hy => absurd hy (by omega), fun _ _ _ hy => absurd hy (by omega)⟩
    · exact pixelsAgree_of_pitch h hpitch htall

/-- A screen of 8 by 64 pixels without padding. -/
theorem pixelsAgree_narrow : PixelsAgree narrow :=
  (pixelsAgree_iff ⟨rfl, by decide, by decide⟩).mpr (by decide)

/-- **Rows drift apart.**  With eight pixels of padding the last row is not cleared. -/
theorem padding_not_agreed : ¬ ∀ info : FbInfo, Padded info → PixelsAgree info := by
  intro hclaim
  have hpadded : Padded ⟨64, 8, 64, 32⟩ := ⟨rfl, by decide, by decide⟩
  exact absurd ((hclaim _ hpadded).stride_le hpadded (by decide) (by decide)) (by decide)

end Console
