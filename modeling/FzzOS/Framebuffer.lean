/-
# The framebuffer

Pixels are 32-bit words, counted from the framebuffer's base.  The log is for proofs only:
it records the stores and the glyphs drawn, in order.

* `fbPutpixel`, `fbIndex` : the pixel at a column and a row;
* `stores_pixels`, `stores_log` : what a list of stores leaves behind;
* `toNat_fbIndex` : the index is row times stride plus column as long as that fits.
-/
import FzzOS.Runs
import FzzOS.Words

/-- `struct fb_info`, without the base and the unused number of pixels. -/
structure FbInfo where
  height : U16
  width : U16
  pitch : U16
  bpp : U16

/-- What drawing does, for the record. -/
inductive DrawEvent
  /-- A store of `console_draw_hline`. -/
  | line (index : U64)
  /-- A store of `console_scroll`. -/
  | scroll (index : U64)
  /-- A store of `fb_putpixel`, `fb_clearscreen` or `console_exec`. -/
  | pixel (index : U64)
  /-- A call of `console_drawchar`. -/
  | glyph (x y : U32)
  deriving DecidableEq

/-- The framebuffer: its geometry, its pixels, and what was drawn so far. -/
structure Framebuffer where
  info : FbInfo
  pixels : U64 → U32
  log : List DrawEvent

namespace Framebuffer

/-- One store, recorded as `event` says. -/
def store (event : U64 → DrawEvent) (index : U64) (col : U32) (fb : Framebuffer) : Framebuffer :=
  { fb with
    pixels := fun k => if k = index then col else fb.pixels k
    log := fb.log ++ [event index] }

/-- Some stores, one after the other. -/
def stores (event : U64 → DrawEvent) (l : List (U64 × U32)) (fb : Framebuffer) : Framebuffer :=
  l.foldl (fun fb p => fb.store event p.1 p.2) fb

/-- A record without a store. -/
def note (e : DrawEvent) (fb : Framebuffer) : Framebuffer := { fb with log := fb.log ++ [e] }

/-! ## `fb_putpixel` -/

/-- The pixels from one row to the next, `fb_info.pitch / (fb_info.bpp / 8)`. -/
def stride (info : FbInfo) : ℕ := info.pitch.toNat / (info.bpp.toNat / 8)

/-- The index `fb_putpixel` computes, in 32-bit arithmetic. -/
def fbIndex (info : FbInfo) (x y : U32) : U64 :=
  (y * BitVec.ofNat 32 (stride info) + x).setWidth 64

/-- `fb_putpixel`. -/
def fbPutpixel (x y col : U32) (fb : Framebuffer) : Framebuffer :=
  fb.store .pixel (fbIndex fb.info x y) col

/-! ## Lists of stores -/

variable {event : U64 → DrawEvent} {l l' : List (U64 × U32)} {fb : Framebuffer} {info : FbInfo}

@[simp] theorem stores_nil : fb.stores event [] = fb := rfl

theorem stores_cons (p : U64 × U32) :
    fb.stores event (p :: l) = (fb.store event p.1 p.2).stores event l := rfl

theorem stores_append : fb.stores event (l ++ l') = (fb.stores event l).stores event l' :=
  List.foldl_append

@[simp] theorem stores_info : (fb.stores event l).info = fb.info := by
  induction l generalizing fb with
  | nil => rfl
  | cons p l ih => exact ih

theorem stores_log : (fb.stores event l).log = fb.log ++ l.map fun p => event p.1 := by
  induction l generalizing fb with
  | nil => rw [stores_nil, List.map_nil, List.append_nil]
  | cons p l ih =>
    rw [stores_cons, ih, List.map_cons]
    exact List.append_assoc fb.log [event p.1] _

/-- **Stores.**  If all stores to `k` agree on the colour, it does not matter in which order
they come. -/
theorem stores_pixels {k : U64} {x : U32} (h : ∀ p ∈ l, k = p.1 → p.2 = x) :
    (fb.stores event l).pixels k = if ∃ p ∈ l, k = p.1 then x else fb.pixels k := by
  have hfold : (fb.stores event l).pixels
      = l.foldl (fun f p k => if k = p.1 then p.2 else f k) fb.pixels := by
    induction l generalizing fb with
    | nil => rfl
    | cons p l ih => exact ih fun q hq => h q (List.mem_cons_of_mem p hq)
  rw [hfold, Runs.foldl_override (fun (p : U64 × U32) k => k = p.1) (fun p _ => p.2) _ _ h]

/-- Stores in one colour. -/
theorem fill_pixels {α : Type*} (l : List α) (index : α → U64) (x : U32) (k : U64) :
    (fb.stores event (l.map fun i => (index i, x))).pixels k =
      if ∃ i ∈ l, k = index i then x else fb.pixels k := by
  have hcolor : ∀ p ∈ l.map (fun i => (index i, x)), k = p.1 → p.2 = x := by
    intro p hp _
    obtain ⟨i, _, rfl⟩ := List.mem_map.mp hp
    rfl
  refine (stores_pixels hcolor).trans (if_congr ?_ rfl rfl)
  constructor
  · rintro ⟨p, hp, hk⟩
    obtain ⟨i, hi, rfl⟩ := List.mem_map.mp hp
    exact ⟨i, hi, hk⟩
  · rintro ⟨i, hi, hk⟩
    exact ⟨_, List.mem_map_of_mem hi, hk⟩

/-- The index as a number. -/
theorem toNat_fbIndex {x y : U32} (h : y.toNat * stride info + x.toNat < 2 ^ 32)
    (hstride : stride info < 2 ^ 32) :
    (fbIndex info x y).toNat = y.toNat * stride info + x.toNat := by
  rw [fbIndex, BitVec.toNat_setWidth, BitVec.toNat_add, BitVec.toNat_mul, BitVec.toNat_ofNat,
    Nat.mod_eq_of_lt hstride]
  generalize y.toNat * stride info = r at h ⊢
  omega

theorem stride_of_bpp (h : info.bpp = 32) : stride info = info.pitch.toNat / 4 := by
  rw [stride, h]
  rfl

theorem stride_lt (info : FbInfo) : stride info < 2 ^ 16 :=
  (Nat.div_le_self _ _).trans_lt info.pitch.isLt

end Framebuffer
