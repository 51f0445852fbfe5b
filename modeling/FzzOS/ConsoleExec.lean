/-
# Clearing the terminal

`console_exec` clears from `start_pos + 2 * width` on, where `start_pos` is the number of a row:
that pixel is in the third row of the screen or a little below, far above the separator.

* `consoleExec` : the code;
* `AreaCleared` : the rows below the separator are cleared, the others are left alone;
* `area_cleared_iff` : that is so if what is cleared above the separator was blank already.
-/
import FzzOS.PixelLayout

open Framebuffer

namespace Console

variable {c : Console} {pixels : U64 → U32}

/-- Where `console_exec` starts, ... -/
def execStart (c : Console) : U32 := c.info.startPos + c.fb.info.width.setWidth 32 * 2

/-- ... and where it stops. -/
def execLimit (info : FbInfo) : U32 := info.height.setWidth 32 * info.width.setWidth 32

/-- `console_exec`: a loop with an `int` for its index. -/
def consoleExec (c : Console) : Console :=
  let n := ((execLimit c.fb.info).toInt - (execStart c).toInt).toNat
  { c with
    fb := c.fb.stores .pixel ((List.range n).map fun i =>
      (indexOfInt (execStart c + BitVec.ofNat 32 i), c.info.backgroundColor)) }

/-- The console with something else on its screen. -/
def showing (pixels : U64 → U32) (c : Console) : Console :=
  { c with fb := { c.fb with pixels := pixels } }

/-- From `c` to `c'` the rows from `start_pos + 2` on have got the background colour, and the
rows above have not changed. -/
structure AreaCleared (c c' : Console) : Prop where
  cleared : ∀ x y, x < c.fb.info.width.toNat → c.info.startPos.toNat + 2 ≤ y →
    y < c.fb.info.height.toNat →
    c'.fb.pixels (pixelAt c.fb.info x y) = c.info.backgroundColor
  kept : ∀ x y, x < c.fb.info.width.toNat → y < c.info.startPos.toNat + 2 →
    c'.fb.pixels (pixelAt c.fb.info x y) = c.fb.pixels (pixelAt c.fb.info x y)

/-! ## What is cleared -/

theorem startPos_consoleInit (c : Console) :
    (consoleInit c).info.startPos.toNat = c.fb.info.height.toNat / 4 * 3 := by
  have hheight := c.fb.info.height.isLt
  have hquarter : (c.fb.info.height.setWidth 32 / 4 : U32).toNat = c.fb.info.height.toNat / 4 := by
    rw [BitVec.toNat_udiv, BitVec.toNat_setWidth, Nat.mod_eq_of_lt (by omega)]
    rfl
  show (c.fb.info.height.setWidth 32 / 4 * 3 : U32).toNat = c.fb.info.height.toNat / 4 * 3
  bv_omega

/-- **The loop.**  It clears everything from its start to the end of the screen. -/
theorem consoleExec_pixels (h : Padded c.fb.info) (hrow : c.info.startPos.toNat < 2 ^ 16)
    (k : U64) :
    (consoleExec c).fb.pixels k =
      if c.info.startPos.toNat + 2 * c.fb.info.width.toNat ≤ k.toNat ∧
          k.toNat < c.fb.info.height.toNat * c.fb.info.width.toNat then c.info.backgroundColor
      else c.fb.pixels k := by
  have hwidth := c.fb.info.width.isLt
  have hsize := h.size_lt
  have hstart : (execStart c).toNat = c.info.startPos.toNat + 2 * c.fb.info.width.toNat := by
    unfold execStart
    bv_omega
  have hlimit : (execLimit c.fb.info).toNat = c.fb.info.height.toNat * c.fb.info.width.toNat :=
    toNat_size hsize
  have hn : ((execLimit c.fb.info).toInt - (execStart c).toInt).toNat
      = (execLimit c.fb.info).toNat - (execStart c).toNat := by
    rw [BitVec.toInt_eq_toNat_of_lt (by omega), BitVec.toInt_eq_toNat_of_lt (by omega)]
    omega
  have hindex : ∀ i, i < (execLimit c.fb.info).toNat - (execStart c).toNat →
      (indexOfInt (execStart c + BitVec.ofNat 32 i)).toNat = (execStart c).toNat + i := by
    intro i hi
    have hsum : (execStart c + BitVec.ofNat 32 i).toNat = (execStart c).toNat + i := by
      rw [BitVec.toNat_add, BitVec.toNat_ofNat]
      omega
    rw [toNat_indexOfInt (by omega), hsum]
  rw [← hstart, ← hlimit]
  refine (fill_pixels _ _ _ k).trans (if_congr ?_ rfl rfl)
  rw [hn]
  constructor
  · rintro ⟨i, hi, rfl⟩
    have hi := List.mem_range.mp hi
    rw [hindex i hi]
    omega
  · rintro ⟨hlow, hhigh⟩
    have hi : k.toNat - (execStart c).toNat
        < (execLimit c.fb.info).toNat - (execStart c).toNat := by omega
    refine ⟨_, List.mem_range.mpr hi, BitVec.eq_of_toNat_eq ?_⟩
    rw [hindex _ hi]
    omega

/-! ## The terminal area -/

theorem toNat_pixelAt_of_stride {info : FbInfo} (hstride : stride info = info.width.toNat)
    {x y : ℕ} (hx : x < info.width.toNat) (hy : y < 2 ^ 16) :
    (pixelAt info x y).toNat = y * info.width.toNat + x := by
  have hwidth := info.width.isLt
  rw [toNat_pixelAt info (by omega) hy, hstride]

/-- The loop starts before the area. -/
theorem consoleExec_clears (h : Padded c.fb.info)
    (hstride : stride c.fb.info = c.fb.info.width.toNat) (hrow : c.info.startPos.toNat < 2 ^ 16)
    {x y : ℕ} (hx : x < c.fb.info.width.toNat) (hlow : c.info.startPos.toNat + 2 ≤ y)
    (hy : y < c.fb.info.height.toNat) :
    (consoleExec c).fb.pixels (pixelAt c.fb.info x y) = c.info.backgroundColor := by
  have hheight := c.fb.info.height.isLt
  have hstart : c.info.startPos.toNat + 2 * c.fb.info.width.toNat
      ≤ y * c.fb.info.width.toNat + x :=
    calc c.info.startPos.toNat + 2 * c.fb.info.width.toNat
        ≤ c.info.startPos.toNat * c.fb.info.width.toNat + 2 * c.fb.info.width.toNat :=
          Nat.add_le_add_right (Nat.le_mul_of_pos_right _ (by omega)) _
      _ = (c.info.startPos.toNat + 2) * c.fb.info.width.toNat := (Nat.add_mul ..).symm
      _ ≤ y * c.fb.info.width.toNat := Nat.mul_le_mul_right _ hlow
      _ ≤ y * c.fb.info.width.toNat + x := Nat.le_add_right ..
  rw [consoleExec_pixels h hrow, toNat_pixelAt_of_stride hstride hx (by omega)]
  exact if_pos ⟨hstart, row_lt hx hy⟩

/-- The pixels between the loop's start and the area. -/
theorem areaCleared_iff (h : Padded c.fb.info) (hstride : stride c.fb.info = c.fb.info.width.toNat)
    (hrow : c.info.startPos.toNat + 2 < 2 ^ 16) :
    AreaCleared c (consoleExec c) ↔
      ∀ k, c.info.startPos.toNat + 2 * c.fb.info.width.toNat ≤ k →
        k < (c.info.startPos.toNat + 2) * c.fb.info.width.toNat →
        k < c.fb.info.height.toNat * c.fb.info.width.toNat →
        c.fb.pixels (BitVec.ofNat 64 k) = c.info.backgroundColor := by
  have hexec := consoleExec_pixels h (show c.info.startPos.toNat < 2 ^ 16 by omega)
  constructor
  · intro harea k hlow hhigh hend
    have hpos : 0 < c.fb.info.width.toNat := Nat.pos_of_mul_pos_left (Nat.zero_lt_of_lt hhigh)
    have hkept := harea.kept (k % c.fb.info.width.toNat) (k / c.fb.info.width.toNat)
      (Nat.mod_lt _ hpos) ((Nat.div_lt_iff_lt_mul hpos).mpr hhigh)
    have hk : pixelAt c.fb.info (k % c.fb.info.width.toNat) (k / c.fb.info.width.toNat)
        = BitVec.ofNat 64 k := by
      rw [pixelAt, hstride, Nat.div_add_mod']
    have htoNat : (BitVec.ofNat 64 k).toNat = k := by
      have := h.size_lt
      rw [BitVec.toNat_ofNat]
      omega
    rw [hk, hexec, htoNat, if_pos ⟨hlow, hend⟩] at hkept
    exact hkept.symm
  · intro hblank
    refine ⟨fun x y hx => consoleExec_clears h hstride (by omega) hx, fun x y hx hy => ?_⟩
    have hk := toNat_pixelAt_of_stride hstride hx (show y < 2 ^ 16 by omega)
    rw [hexec]
    split
    · rename_i hrange
      rw [hk] at hrange
      have hbefore := hblank _ hrange.1 (row_lt hx hy) hrange.2
      rw [← hk, BitVec.ofNat_toNat, BitVec.setWidth_eq] at hbefore
      exact hbefore.symm
    · rfl

/-- **The terminal area.**  It is always cleared, and the rest is left alone if and only if the
pixels from the loop's start to the area are black before. -/
theorem area_cleared_iff (c₀ : Console) (pixels : U64 → U32) (hbpp : c₀.fb.info.bpp = 32)
    (hpitch : c₀.fb.info.pitch.toNat = 4 * c₀.fb.info.width.toNat) :
    let c := showing pixels (consoleInit c₀)
    let startPos := c₀.fb.info.height.toNat / 4 * 3
    let width := c₀.fb.info.width.toNat
    AreaCleared c (consoleExec c) ↔
      ∀ k, startPos + 2 * width ≤ k → k < (startPos + 2) * width →
        k < c₀.fb.info.height.toNat * width → pixels (BitVec.ofNat 64 k) = fbColorBlack := by
  intro c startPos width
  have hinfo : c.fb.info = c₀.fb.info := consoleInit_fb_info c₀
  have hpadded : Padded c₀.fb.info := ⟨hbpp, Dvd.intro _ hpitch.symm, hpitch.ge⟩
  have hstride := hpadded.pitch_eq_iff.mp hpitch
  have hrow : c.info.startPos.toNat = startPos := startPos_consoleInit c₀
  have hheight := c₀.fb.info.height.isLt
  rw [← hinfo] at hpadded hstride
  have harea := areaCleared_iff hpadded hstride (by omega)
  rw [hrow, hinfo] at harea
  exact harea

/-- A black screen of 64 rows. -/
theorem area_cleared_black :
    AreaCleared (showing (fun _ => fbColorBlack) (consoleInit ⟨⟨narrow, fun _ => 0, []⟩,
        ⟨0, 0, 0, 0, 0, 0⟩⟩))
      (consoleExec (showing (fun _ => fbColorBlack) (consoleInit ⟨⟨narrow, fun _ => 0, []⟩,
        ⟨0, 0, 0, 0, 0, 0⟩⟩))) :=
  (area_cleared_iff ⟨⟨narrow, fun _ => 0, []⟩, ⟨0, 0, 0, 0, 0, 0⟩⟩ (fun _ => fbColorBlack) rfl
    rfl).mpr fun _ _ _ _ => rfl

/-- **Output lost.**  On a white screen of 64 rows the ninth row turns black; the separator is
48 rows down. -/
theorem output_cleared :
    ¬ ∀ (c₀ : Console) (pixels : U64 → U32), c₀.fb.info.bpp = 32 →
      c₀.fb.info.pitch.toNat = 4 * c₀.fb.info.width.toNat →
      c₀.fb.info.height.toNat * c₀.fb.info.width.toNat < 2 ^ 31 →
      AreaCleared (showing pixels (consoleInit c₀))
        (consoleExec (showing pixels (consoleInit c₀))) := by
  intro hclaim
  have hkept := (hclaim ⟨⟨narrow, fun _ => 0, []⟩, ⟨0, 0, 0, 0, 0, 0⟩⟩ (fun _ => fbColorWhite) rfl
    rfl (by decide)).kept 0 8 (by decide) (by decide)
  rw [consoleExec_pixels ⟨rfl, by decide, by decide⟩ (by decide), if_pos (by decide)] at hkept
  exact absurd hkept (by decide)

end Console
