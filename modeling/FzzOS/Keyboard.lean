/-
# The keyboard driver

`keyboard.c` over the state the interrupt handlers share: the interrupt controllers, the
keyboard controller's output buffer, the driver's own variables and what the registered
key handler works on.

* `kbdTranslate`, `kbdHandle`, `kbdSetTarget` : the code;
* `Reaches b` : byte `b` is none of the five that the driver keeps to itself;
* `Shift` : the shift keys held, as the bytes tell it; `kbdSwitch_spec` says that the
  driver's two variables follow it;
* `Listening.typeBytes` : what the handler is given over a sequence of bytes.
-/
import FzzOS.I8259
import FzzOS.Words

open I8259

/-! ## The state -/

/-- What the kernel prints: a call of its `printf`, or an entry of one of the tables of
texts printed as it is. -/
inductive Output
  | text (format : String) (args : List U64)
  | exceptionMessage (n : U64)
  | pageFaultError (n : U64)
  deriving DecidableEq

/-- The keyboard controller's output buffer, with the bytes taken from it so far. -/
structure OutputBuffer where
  full : Bool
  data : U8
  taken : List U8

namespace OutputBuffer

/-- The controller places a byte. -/
def place (o : OutputBuffer) (b : U8) : OutputBuffer := { o with full := true, data := b }

/-- `inb(0x60)` empties the buffer; an empty one repeats its last byte. -/
def inb (o : OutputBuffer) : U8 × OutputBuffer :=
  (o.data, { o with full := false, taken := if o.full then o.taken ++ [o.data] else o.taken })

end OutputBuffer

/-- `KEY_INFO_t`. -/
structure KeyInfo where
  scancode : U8
  ascii : U8
  deriving DecidableEq

/-- The driver's variables.  The handler works on a state of its own. -/
structure Keyboard (σ : Type) where
  lshiftStatus : U8
  rshiftStatus : U8
  kbdActive : U8
  kbdHandler : Option (KeyInfo → σ → σ)

/-- What the interrupt handlers work on. -/
structure Kernel (σ : Type) where
  pics : Pair
  port60 : OutputBuffer
  keyboard : Keyboard σ
  target : σ
  pitTicks : U64
  cr2 : U64
  screen : List Output
  serial : List Output

namespace Kernel

variable {σ : Type}

/-- `printf`. -/
def printf (k : Kernel σ) (o : Output) : Kernel σ := { k with screen := k.screen ++ [o] }

/-- `serial_printf` on the first port. -/
def serialPrintf (k : Kernel σ) (o : Output) : Kernel σ := { k with serial := k.serial ++ [o] }

theorem foldl_printf (l : List Output) (k : Kernel σ) :
    l.foldl printf k = { k with screen := k.screen ++ l } := by
  induction l generalizing k with
  | nil => rw [List.append_nil, List.foldl_nil]
  | cons o l ih => rw [List.foldl_cons, ih, printf, List.append_assoc, List.singleton_append]

theorem foldl_serialPrintf (l : List Output) (k : Kernel σ) :
    l.foldl serialPrintf k = { k with serial := k.serial ++ l } := by
  induction l generalizing k with
  | nil => rw [List.append_nil, List.foldl_nil]
  | cons o l ih =>
    rw [List.foldl_cons, ih, serialPrintf, List.append_assoc, List.singleton_append]

/-- Nothing has happened yet: all variables are zero. -/
def zero (target : σ) : Kernel σ where
  pics := ⟨⟨0, 0, 0, 0, .ready, 0⟩, ⟨0, 0, 0, 0, .ready, 0⟩⟩
  port60 := ⟨false, 0, []⟩
  keyboard := ⟨0, 0, 0, none⟩
  target := target
  pitTicks := 0
  cr2 := 0
  screen := []
  serial := []

end Kernel

namespace Kbd

/-! ## The code -/

variable {σ : Type}

/-- `KBD_LEFT_SHIFT`. -/
def leftShift : U8 := 0x2A

/-- `KBD_RIGHT_SHIFT`. -/
def rightShift : U8 := 0x36

/-- `KBD_ESCAPE`. -/
def escape : U8 := 0x01

/-- `kbd_table`: the ASCII codes of the keys, 0 for a key without a character. -/
def kbdTable : List U8 :=
  [0, 0, 0x31, 0x32, 0x33, 0x34, 0x35, 0x36,          -- 1 2 3 4 5 6
    0x37, 0x38, 0x39, 0x30, 0x2D, 0x3D, 0, 0,         -- 7 8 9 0 - =
    0x71, 0x77, 0x65, 0x72, 0x74, 0x79, 0x75, 0x69,   -- q w e r t y u i
    0x6F, 0x70, 0x5B, 0x5D, 0, 0, 0x61, 0x73,         -- o p [ ] and a s
    0x64, 0x66, 0x67, 0x68, 0x6A, 0x6B, 0x6C, 0x3B,   -- d f g h j k l ;
    0x27, 0x60, 0, 0x5C, 0x7A, 0x78, 0x63, 0x76,      -- quote, grave, backslash, z x c v
    0x62, 0x6E, 0x6D, 0x2C, 0x2E, 0x2F, 0, 0x2A,      -- b n m , . / *
    0, 0x20]                                          -- space

/-- `kbd_set_target`. -/
def kbdSetTarget (handler : KeyInfo → σ → σ) (kb : Keyboard σ) : Keyboard σ :=
  { kb with kbdHandler := some handler, kbdActive := 1 }

/-- `kbd_translate`.  The table has 58 entries, so scancode 58 reads `past`, the byte that
lies behind it. -/
def kbdTranslate (past scancode uppercase : U8) : U8 :=
  if scancode > 58 then 0
  else
    let c := kbdTable[scancode.toNat]?.getD past
    if uppercase ≠ 0 then c - 32 else c

/-- `kbd_handle` from its `switch` on. -/
def kbdSwitch (past data : U8) (k : Kernel σ) : Kernel σ :=
  if data = leftShift then { k with keyboard := { k.keyboard with lshiftStatus := 1 } }
  else if data = rightShift then { k with keyboard := { k.keyboard with rshiftStatus := 1 } }
  else if data = leftShift + 0x80 then
    { k with keyboard := { k.keyboard with lshiftStatus := 0 } }
  else if data = rightShift + 0x80 then
    { k with keyboard := { k.keyboard with rshiftStatus := 0 } }
  else if data = escape then k.printf (.text "%d\n" [k.pitTicks])
  else
    let ascii := kbdTranslate past data (k.keyboard.lshiftStatus ||| k.keyboard.rshiftStatus)
    match k.keyboard.kbdHandler with
    | some handler => { k with target := handler ⟨data, ascii⟩ k.target }
    | none => k

/-- `kbd_handle`. -/
def kbdHandle (past : U8) (k : Kernel σ) : Kernel σ :=
  -- without a handler the byte is not even read
  if k.keyboard.kbdActive = 0 then k
  else kbdSwitch past k.port60.inb.1 { k with port60 := k.port60.inb.2 }

/-! ## Bytes and shift keys -/

/-- The bytes that get as far as the handler: all but the makes and breaks of the two shift
keys and the make of escape. -/
def Reaches (b : U8) : Prop :=
  b ∉ [leftShift, rightShift, leftShift + 0x80, rightShift + 0x80, escape]

instance (b : U8) : Decidable (Reaches b) := inferInstanceAs (Decidable (¬ _))

/-- The shift keys held. -/
structure Shift where
  left : Bool
  right : Bool
  deriving DecidableEq

namespace Shift

/-- One of the two is held. -/
def held (s : Shift) : Bool := s.left || s.right

/-- After one more byte. -/
def next (s : Shift) (b : U8) : Shift :=
  if b = leftShift then { s with left := true }
  else if b = rightShift then { s with right := true }
  else if b = leftShift + 0x80 then { s with left := false }
  else if b = rightShift + 0x80 then { s with right := false }
  else s

end Shift

/-- The driver's variables say which shift keys are held. -/
structure Tracks (kb : Keyboard σ) (s : Shift) : Prop where
  left : kb.lshiftStatus = if s.left then 1 else 0
  right : kb.rshiftStatus = if s.right then 1 else 0

theorem Tracks.uppercase {kb : Keyboard σ} {s : Shift} (h : Tracks kb s) :
    kb.lshiftStatus ||| kb.rshiftStatus = if s.held then 1 else 0 := by
  rw [h.left, h.right, Shift.held]
  cases s.left <;> cases s.right <;> rfl

/-- **One byte.**  The switch follows the shift keys, and gives every byte that is neither
one of theirs nor escape to the handler. -/
theorem kbdSwitch_spec (past b : U8) {k : Kernel σ} {s : Shift} {handler : KeyInfo → σ → σ}
    (hhandler : k.keyboard.kbdHandler = some handler) (htracks : Tracks k.keyboard s) :
    Tracks (kbdSwitch past b k).keyboard (s.next b) ∧
      (kbdSwitch past b k).target = if Reaches b then
          handler ⟨b, kbdTranslate past b (if s.held then 1 else 0)⟩ k.target
        else k.target := by
  by_cases hb : Reaches b
  · have hcodes : b ≠ leftShift ∧ b ≠ rightShift ∧ b ≠ leftShift + 0x80 ∧
        b ≠ rightShift + 0x80 ∧ b ≠ escape := by
      simpa [Reaches] using hb
    obtain ⟨hl, hr, hlb, hrb, he⟩ := hcodes
    simp only [kbdSwitch, Shift.next, if_neg hl, if_neg hr, if_neg hlb, if_neg hrb, if_neg he,
      hhandler, htracks.uppercase, if_pos hb]
    exact ⟨htracks, trivial⟩
  · have hmem : b ∈ [leftShift, rightShift, leftShift + 0x80, rightShift + 0x80, escape] :=
      not_not.mp hb
    rw [if_neg hb]
    simp only [List.mem_cons, List.not_mem_nil, or_false] at hmem
    rcases hmem with rfl | rfl | rfl | rfl | rfl
    · exact ⟨⟨rfl, htracks.right⟩, rfl⟩
    · exact ⟨⟨htracks.left, rfl⟩, rfl⟩
    · exact ⟨⟨rfl, htracks.right⟩, rfl⟩
    · exact ⟨⟨htracks.left, rfl⟩, rfl⟩
    · exact ⟨htracks, rfl⟩

/-- What no byte changes. -/
theorem kbdSwitch_frame (past b : U8) (k : Kernel σ) :
    (kbdSwitch past b k).pics = k.pics ∧ (kbdSwitch past b k).port60 = k.port60 ∧
      (kbdSwitch past b k).keyboard.kbdActive = k.keyboard.kbdActive ∧
      (kbdSwitch past b k).keyboard.kbdHandler = k.keyboard.kbdHandler := by
  unfold kbdSwitch
  split_ifs
  · exact ⟨rfl, rfl, rfl, rfl⟩
  · exact ⟨rfl, rfl, rfl, rfl⟩
  · exact ⟨rfl, rfl, rfl, rfl⟩
  · exact ⟨rfl, rfl, rfl, rfl⟩
  · exact ⟨rfl, rfl, rfl, rfl⟩
  · cases h : k.keyboard.kbdHandler with
    | none => exact ⟨rfl, rfl, rfl, h⟩
    | some handler => exact ⟨rfl, rfl, rfl, h⟩

theorem kbdHandle_pics (past : U8) (k : Kernel σ) : (kbdHandle past k).pics = k.pics := by
  unfold kbdHandle
  split
  · rfl
  · exact (kbdSwitch_frame ..).1

/-- **The byte is taken if and only if a handler is registered.** -/
theorem kbdHandle_port60 (past : U8) (k : Kernel σ) :
    (kbdHandle past k).port60 = if k.keyboard.kbdActive = 0 then k.port60 else k.port60.inb.2 := by
  unfold kbdHandle
  split
  · rfl
  · exact (kbdSwitch_frame ..).2.1

/-! ## A sequence of bytes -/

/-- One byte by one interrupt: the controller places it and the driver handles it. -/
def press (past b : U8) (k : Kernel σ) : Kernel σ :=
  kbdHandle past { k with port60 := k.port60.place b }

/-- Some bytes, one by one. -/
def typeBytes (past : U8) (bs : List U8) (k : Kernel σ) : Kernel σ :=
  bs.foldl (fun k b => press past b k) k

/-- What the driver gives its handler for some bytes, with the shift keys as they are at
the start. -/
def delivered (past : U8) : Shift → List U8 → List KeyInfo
  | _, [] => []
  | s, b :: bs =>
    let rest := delivered past (s.next b) bs
    if Reaches b then ⟨b, kbdTranslate past b (if s.held then 1 else 0)⟩ :: rest else rest

/-- The handler's calls, from the first byte on. -/
theorem foldl_delivered (handler : KeyInfo → σ → σ) (past : U8) (s : Shift) (b : U8)
    (bs : List U8) (t : σ) :
    (delivered past s (b :: bs)).foldl (fun t key => handler key t) t
      = (delivered past (s.next b) bs).foldl (fun t key => handler key t)
          (if Reaches b then handler ⟨b, kbdTranslate past b (if s.held then 1 else 0)⟩ t
            else t) := by
  rw [delivered]
  by_cases hb : Reaches b
  · rw [if_pos hb, if_pos hb, List.foldl_cons]
  · rw [if_neg hb, if_neg hb]

/-- The driver has a handler and knows which shift keys are held. -/
structure Listening (handler : KeyInfo → σ → σ) (s : Shift) (k : Kernel σ) : Prop where
  active : k.keyboard.kbdActive ≠ 0
  handler : k.keyboard.kbdHandler = some handler
  tracks : Tracks k.keyboard s

theorem Listening.press {handler : KeyInfo → σ → σ} {s : Shift} {k : Kernel σ}
    (h : Listening handler s k) (past b : U8) :
    Listening handler (s.next b) (press past b k) ∧
      (press past b k).target = if Reaches b then
          handler ⟨b, kbdTranslate past b (if s.held then 1 else 0)⟩ k.target
        else k.target := by
  set k₁ : Kernel σ := { k with port60 := (k.port60.place b).inb.2 } with hk₁
  have hswitch : Kbd.press past b k = kbdSwitch past b k₁ := by
    rw [Kbd.press, kbdHandle, if_neg h.active]
    rfl
  obtain ⟨htracks, htarget⟩ := kbdSwitch_spec past b (k := k₁) h.handler h.tracks
  obtain ⟨-, -, hactive, hhandler⟩ := kbdSwitch_frame past b k₁
  rw [hswitch]
  exact ⟨⟨hactive ▸ h.active, hhandler.trans h.handler, htracks⟩, htarget⟩

/-- **What reaches the handler**, over any sequence of bytes. -/
theorem Listening.typeBytes {handler : KeyInfo → σ → σ} {s : Shift} {k : Kernel σ}
    (h : Listening handler s k) (past : U8) (bs : List U8) :
    (typeBytes past bs k).target
      = (delivered past s bs).foldl (fun t key => handler key t) k.target := by
  induction bs generalizing s k with
  | nil => rfl
  | cons b bs ih =>
    obtain ⟨hnext, htarget⟩ := h.press past b
    show (Kbd.typeBytes past bs (Kbd.press past b k)).target = _
    rw [ih hnext, htarget, foldl_delivered]

end Kbd
