/-
# Keys into the console's buffers

The input half of `console.c`, behind the keyboard driver: two buffers, and
`console_input`, which puts every key into both.

* `stores_in_bounds_iff` : all stores stay within the buffers as long as at most 255 bytes
  get as far as `console_input`;
* `buffered_iff` : the buffers hold what was typed only when nothing was typed.  The first
  byte of the input buffer is never written, and the bytes that are no characters are
  stored too.
-/
import FzzOS.Keyboard

open Kbd

/-- `struct console_buffer`, with the bytes behind its pointer. -/
structure ConsoleBuffer where
  buffer : U64 → U8
  bufferSize : U64
  index : U64

/-- One byte stored. -/
def ConsoleBuffer.store (b : ConsoleBuffer) (i : U64) (x : U8) : ConsoleBuffer :=
  { b with buffer := fun k => if k = i then x else b.buffer k }

namespace ConsoleIo

/-- The two buffers. -/
inductive Which
  | output | input
  deriving DecidableEq

end ConsoleIo

/-- `con_output_buffer` and `con_input_buffer`, with the stores made so far. -/
structure ConsoleIo where
  output : ConsoleBuffer
  input : ConsoleBuffer
  stores : List (ConsoleIo.Which × U64)

namespace ConsoleIo

/-! ## The code -/

/-- `sizeof(console_buffer)` and `sizeof(cmd_buffer)`. -/
def sizeOf : Which → U64
  | .output => 4096
  | .input => 256

/-- Static variables at boot. -/
def zero : ConsoleIo := ⟨⟨fun _ => 0, 0, 0⟩, ⟨fun _ => 0, 0, 0⟩, []⟩

/-- A store to the output buffer, at its index. -/
def storeOutput (x : U8) (io : ConsoleIo) : ConsoleIo :=
  { io with
    output := io.output.store io.output.index x
    stores := io.stores ++ [(.output, io.output.index)] }

/-- A store to the input buffer, at its index. -/
def storeInput (x : U8) (io : ConsoleIo) : ConsoleIo :=
  { io with
    input := io.input.store io.input.index x
    stores := io.stores ++ [(.input, io.input.index)] }

/-- `console_input`. -/
def consoleInput (key : KeyInfo) (io : ConsoleIo) : ConsoleIo :=
  -- the input buffer's index moves on before the store
  let io := { io with input := { io.input with index := io.input.index + 1 } }
  let io := io.storeInput key.ascii
  let io := io.storeOutput key.ascii
  let io := { io with output := { io.output with index := io.output.index + 1 } }
  io.storeOutput 0

/-- `console_init`, as far as the buffers go. -/
def initBuffers (io : ConsoleIo) : ConsoleIo :=
  let io := { io with output := { io.output with bufferSize := sizeOf .output, index := 0 } }
  let io := { io with input := { io.input with bufferSize := sizeOf .input } }
  -- this was meant for the input buffer
  { io with output := { io.output with index := 0 } }

/-- `console_init`, the buffers and the key handler. -/
def consoleInit (k : Kernel ConsoleIo) : Kernel ConsoleIo :=
  { k with
    target := initBuffers k.target
    keyboard := kbdSetTarget consoleInput k.keyboard }

/-- The state after `console_init` in a kernel that has just been booted. -/
def booted (k : Kernel ConsoleIo) : Kernel ConsoleIo :=
  consoleInit { k with keyboard := ⟨0, 0, 0, none⟩, target := zero }

/-! ## Some keys -/

variable {io : ConsoleIo} {past : U8} {n : ℕ}

/-- The stores for the `i`-th key. -/
def keyStores (i : ℕ) : List (Which × U64) :=
  [(.input, BitVec.ofNat 64 (i + 1)), (.output, BitVec.ofNat 64 i),
    (.output, BitVec.ofNat 64 (i + 1))]

/-- After `n` keys. -/
structure Counts (n : ℕ) (io : ConsoleIo) : Prop where
  input : io.input.index = BitVec.ofNat 64 n
  output : io.output.index = BitVec.ofNat 64 n
  stores : io.stores = (List.range n).flatMap keyStores

theorem Counts.consoleInput (h : Counts n io) (key : KeyInfo) :
    Counts (n + 1) (consoleInput key io) := by
  have hnext : BitVec.ofNat 64 n + 1 = BitVec.ofNat 64 (n + 1) := by bv_omega
  refine ⟨?_, ?_, ?_⟩
  · show io.input.index + 1 = _
    rw [h.input, hnext]
  · show io.output.index + 1 = _
    rw [h.output, hnext]
  · show io.stores ++ [(.input, io.input.index + 1)] ++ [(.output, io.output.index)]
      ++ [(.output, io.output.index + 1)] = _
    rw [List.range_succ, List.flatMap_append, h.stores, h.input, h.output, hnext,
      List.append_assoc, List.append_assoc]
    rfl

theorem Counts.foldl (h : Counts n io) (keys : List KeyInfo) :
    Counts (n + keys.length) (keys.foldl (fun io key => ConsoleIo.consoleInput key io) io) := by
  induction keys generalizing n io with
  | nil => exact h
  | cons key keys ih =>
    have hrest := ih (h.consoleInput key)
    rw [List.length_cons, Nat.add_comm keys.length, ← Nat.add_assoc]
    exact hrest

theorem counts_booted (k : Kernel ConsoleIo) : Counts 0 (booted k).target := ⟨rfl, rfl, rfl⟩

theorem listening_booted (k : Kernel ConsoleIo) :
    Listening consoleInput ⟨false, false⟩ (booted k) :=
  ⟨show (1 : U8) ≠ 0 by decide, rfl, ⟨rfl, rfl⟩⟩

/-- The keys are the bytes that reach the handler. -/
theorem length_delivered (past : U8) (s : Shift) (bs : List U8) :
    (delivered past s bs).length = (bs.filter (Reaches ·)).length := by
  induction bs generalizing s with
  | nil => rfl
  | cons b bs ih =>
    rw [delivered]
    by_cases hb : Reaches b
    · rw [if_pos hb, List.length_cons, ih, List.filter_cons_of_pos (by simpa using hb),
        List.length_cons]
    · rw [if_neg hb, ih, List.filter_cons_of_neg (by simpa using hb)]

/-! ## Bounds -/

/-- The stores of `n` keys. -/
theorem keyStores_in_bounds_iff (n : ℕ) :
    (∀ st ∈ (List.range n).flatMap keyStores, st.2 < sizeOf st.1) ↔ n ≤ 255 := by
  constructor
  · intro h
    by_contra hn
    have hmem : ((Which.input, 256) : Which × U64) ∈ (List.range n).flatMap keyStores :=
      List.mem_flatMap.mpr ⟨255, List.mem_range.mpr (by omega), List.mem_cons_self⟩
    exact absurd (h _ hmem) (by decide)
  · intro hn st hst
    obtain ⟨i, hi, hst⟩ := List.mem_flatMap.mp hst
    have hlt := List.mem_range.mp hi
    simp only [keyStores, List.mem_cons, List.not_mem_nil, or_false] at hst
    rcases hst with rfl | rfl | rfl
    · show BitVec.ofNat 64 (i + 1) < 256
      bv_omega
    · show BitVec.ofNat 64 i < 4096
      bv_omega
    · show BitVec.ofNat 64 (i + 1) < 4096
      bv_omega

/-- **Bounds.**  After `console_init`, every store that a sequence of bytes from the keyboard
causes is within its buffer if and only if at most 255 of the bytes reach `console_input`:
all but those of the shift keys and the make of escape. -/
theorem stores_in_bounds_iff (past : U8) (k : Kernel ConsoleIo) (bs : List U8) :
    (∀ st ∈ (typeBytes past bs (booted k)).target.stores, st.2 < sizeOf st.1) ↔
      (bs.filter (Reaches ·)).length ≤ 255 := by
  have hcounts := (counts_booted k).foldl (delivered past ⟨false, false⟩ bs)
  rw [(listening_booted k).typeBytes, hcounts.stores, Nat.zero_add, length_delivered]
  exact keyStores_in_bounds_iff _

/-- The key A, pressed 256 times. -/
theorem stores_out_of_bounds :
    ¬ ∀ (past : U8) (k : Kernel ConsoleIo) (bs : List U8),
      ∀ st ∈ (typeBytes past bs (booted k)).target.stores, st.2 < sizeOf st.1 := by
  intro hclaim
  have hstores := hclaim 0 (Kernel.zero zero) (List.replicate 256 0x1E)
  have hcounts := (counts_booted (Kernel.zero zero)).foldl
    (delivered 0 ⟨false, false⟩ (List.replicate 256 0x1E))
  rw [(listening_booted _).typeBytes, hcounts.stores, Nat.zero_add, length_delivered,
    keyStores_in_bounds_iff, List.filter_replicate_of_pos (by decide),
    List.length_replicate] at hstores
  exact absurd hstores (by decide)

/-! ## What was typed -/

/-- The byte is the make code of a key with a character. -/
def Prints (b : U8) : Prop := kbdTable[b.toNat]?.getD 0 ≠ 0

instance (b : U8) : Decidable (Prints b) := inferInstanceAs (Decidable (_ ≠ _))

/-- The character of a key, in upper case for a letter if a shift key is held. -/
def charOf (s : Shift) (b : U8) : U8 :=
  let c := kbdTable[b.toNat]?.getD 0
  if 0x61 ≤ c ∧ c ≤ 0x7A ∧ s.held then c - 32 else c

/-- The characters typed. -/
def typed : Shift → List U8 → List U8
  | _, [] => []
  | s, b :: bs =>
    let rest := typed (s.next b) bs
    if Prints b then charOf s b :: rest else rest

/-- The output buffer holds the characters as a string with a zero at its end, and the input
buffer holds them from its first byte on. -/
structure Buffered (chars : List U8) (io : ConsoleIo) : Prop where
  output : ∀ i < chars.length, io.output.buffer (BitVec.ofNat 64 i) = chars.getD i 0
  terminated : io.output.buffer (BitVec.ofNat 64 chars.length) = 0
  input : ∀ i < chars.length, io.input.buffer (BitVec.ofNat 64 i) = chars.getD i 0

theorem charOf_ne_zero {b : U8} (s : Shift) (h : Prints b) : charOf s b ≠ 0 := by
  unfold charOf
  dsimp only
  rw [Prints] at h
  split
  · rename_i hletter
    have hlow := hletter.1
    bv_omega
  · exact h

theorem typed_eq_nil_iff (s : Shift) (bs : List U8) :
    typed s bs = [] ↔ ∀ b ∈ bs, ¬ Prints b := by
  induction bs generalizing s with
  | nil => simp [typed]
  | cons b bs ih =>
    rw [typed, List.forall_mem_cons]
    by_cases hb : Prints b
    · simp [hb]
    · simp [hb, ih]

theorem typed_ne_zero {s : Shift} {bs : List U8} {c : U8} (h : c ∈ typed s bs) : c ≠ 0 := by
  induction bs generalizing s with
  | nil => cases h
  | cons b bs ih =>
    rw [typed] at h
    by_cases hb : Prints b
    · rw [if_pos hb] at h
      rcases List.mem_cons.mp h with rfl | h
      · exact charOf_ne_zero s hb
      · exact ih h
    · rw [if_neg hb] at h
      exact ih h

/-! ## What the buffers hold -/

/-- The buffers after keys with these codes.  The input buffer starts one byte late. -/
structure Contains (codes : List U8) (io : ConsoleIo) : Prop where
  input : ∀ k, io.input.buffer k = if k = 0 then 0 else codes.getD (k.toNat - 1) 0
  output : ∀ k, io.output.buffer k = codes.getD k.toNat 0

theorem getD_append_singleton (codes : List U8) (x : U8) (i : ℕ) :
    (codes ++ [x]).getD i 0 = if i = codes.length then x else codes.getD i 0 := by
  rw [List.getD_eq_getElem?_getD, List.getD_eq_getElem?_getD, List.getElem?_append]
  rcases lt_trichotomy i codes.length with hlt | rfl | hgt
  · rw [if_pos hlt, if_neg hlt.ne]
  · rw [if_neg (lt_irrefl _), if_pos rfl, Nat.sub_self]
    rfl
  · rw [if_neg hgt.not_gt, if_neg hgt.ne', List.getElem?_eq_none (by simp; omega),
      List.getElem?_eq_none hgt.le]

theorem Contains.consoleInput {codes : List U8} (h : Contains codes io)
    (hcounts : Counts codes.length io) (hlen : codes.length + 1 < 2 ^ 64) (key : KeyInfo) :
    Contains (codes ++ [key.ascii]) (consoleInput key io) := by
  constructor
  · intro k
    show (if k = io.input.index + 1 then key.ascii else io.input.buffer k) = _
    rw [h.input, hcounts.input, getD_append_singleton]
    by_cases hk : k = BitVec.ofNat 64 codes.length + 1
    · rw [if_pos hk, if_neg (by bv_omega), if_pos (by bv_omega)]
    · rw [if_neg hk]
      by_cases hzero : k = 0
      · rw [if_pos hzero, if_pos hzero]
      · rw [if_neg hzero, if_neg hzero, if_neg (by bv_omega)]
  · intro k
    show (if k = io.output.index + 1 then 0 else if k = io.output.index then key.ascii
      else io.output.buffer k) = _
    rw [h.output, hcounts.output, getD_append_singleton]
    by_cases hnext : k = BitVec.ofNat 64 codes.length + 1
    · -- the zero goes where nothing was
      rw [if_pos hnext, if_neg (by bv_omega), List.getD_eq_default _ _ (by bv_omega)]
    · rw [if_neg hnext]
      by_cases hk : k = BitVec.ofNat 64 codes.length
      · rw [if_pos hk, if_pos (by bv_omega)]
      · rw [if_neg hk, if_neg (by bv_omega)]

theorem Contains.foldl {codes : List U8} (h : Contains codes io)
    (hcounts : Counts codes.length io) (keys : List KeyInfo)
    (hlen : codes.length + keys.length < 2 ^ 64) :
    Contains (codes ++ keys.map (·.ascii))
      (keys.foldl (fun io key => ConsoleIo.consoleInput key io) io) := by
  induction keys generalizing codes io with
  | nil =>
    rw [List.map_nil, List.append_nil]
    exact h
  | cons key keys ih =>
    rw [List.length_cons] at hlen
    have hcount : (codes ++ [key.ascii]).length = codes.length + 1 := List.length_append
    have hrest := ih (h.consoleInput hcounts (by omega) key)
      (by rw [hcount]; exact hcounts.consoleInput key) (by omega)
    rw [List.append_assoc] at hrest
    exact hrest

theorem contains_booted (k : Kernel ConsoleIo) : Contains [] (booted k).target :=
  ⟨fun _ => (ite_self 0).symm, fun _ => rfl⟩

/-- **The buffers** after any bytes short enough: the code of every byte that reaches the
handler, its zeros included. -/
theorem contains_typeBytes (past : U8) (k : Kernel ConsoleIo) (bs : List U8)
    (hfit : (bs.filter (Reaches ·)).length ≤ 255) :
    Contains ((delivered past ⟨false, false⟩ bs).map (·.ascii))
      (typeBytes past bs (booted k)).target := by
  rw [(listening_booted k).typeBytes]
  refine (contains_booted k).foldl (counts_booted k) _ ?_
  rw [length_delivered, List.length_nil]
  omega

/-! ## Typed and buffered -/

/-- A byte that prints nothing and is stored as a zero: a release, a make code above the
table, or one of the table without shift.  Code 58 reads the byte behind the table. -/
def Silent (past : U8) (s : Shift) (b : U8) : Prop :=
  b > 58 ∨ (b < 58 ∧ s.held = false) ∨ (b = 58 ∧ past = if s.held then 32 else 0)

/-- The first byte that reaches the handler, if there is one, is stored as a zero. -/
def SilentStart (past : U8) : Shift → List U8 → Prop
  | _, [] => True
  | s, b :: bs => if Reaches b then Silent past s b else SilentStart past (s.next b) bs

theorem kbdTranslate_eq_zero_iff (past : U8) (s : Shift) {b : U8} (h : ¬ Prints b) :
    kbdTranslate past b (if s.held then 1 else 0) = 0 ↔ Silent past s b := by
  have hlength : kbdTable.length = 58 := rfl
  have hcode : ∀ x : U8,
      (if (if s.held then 1 else 0 : U8) ≠ 0 then x - 32 else x)
        = if s.held then x - 32 else x := by
    intro x
    cases s.held <;> rfl
  unfold kbdTranslate Silent
  dsimp only
  rw [hcode]
  by_cases habove : b > 58
  · rw [if_pos habove]
    exact iff_of_true rfl (Or.inl habove)
  rw [if_neg habove]
  by_cases hlast : b = 58
  · have hnone : kbdTable[b.toNat]? = none := by
      rw [hlast]
      rfl
    have hnot : ¬ b < 58 := by bv_omega
    rw [hnone, Option.getD_none, or_iff_right habove, or_iff_right fun h => hnot h.1,
      and_iff_right hlast]
    cases s.held with
    | true =>
      show past - 32 = 0 ↔ past = 32
      bv_omega
    | false => exact Iff.rfl
  · have hlt : b.toNat < kbdTable.length := by
      rw [hlength]
      bv_omega
    have hzero : kbdTable[b.toNat] = 0 := by
      rw [Prints, List.getElem?_eq_getElem hlt] at h
      exact not_not.mp h
    have hbelow : b < 58 := by bv_omega
    rw [List.getElem?_eq_getElem hlt, Option.getD_some, hzero, or_iff_right habove,
      or_iff_left fun h => hlast h.1, and_iff_right hbelow]
    cases s.held <;> decide

theorem silentStart_iff (past : U8) (s : Shift) {bs : List U8} (h : ∀ b ∈ bs, ¬ Prints b) :
    ((delivered past s bs).map (·.ascii)).getD 0 0 = 0 ↔ SilentStart past s bs := by
  induction bs generalizing s with
  | nil => exact iff_of_true rfl trivial
  | cons b bs ih =>
    obtain ⟨hfirst, hrest⟩ := List.forall_mem_cons.mp h
    rw [delivered, SilentStart]
    by_cases hb : Reaches b
    · rw [if_pos hb, if_pos hb]
      exact kbdTranslate_eq_zero_iff past s hfirst
    · rw [if_neg hb, if_neg hb]
      exact ih (s.next b) hrest

/-- **Typed and buffered.**  For any bytes short enough to fit, the buffers hold what was
typed if and only if nothing was typed and the first byte stored was a zero. -/
theorem buffered_iff (past : U8) (k : Kernel ConsoleIo) (bs : List U8)
    (hfit : (bs.filter (Reaches ·)).length ≤ 255) :
    Buffered (typed ⟨false, false⟩ bs) (typeBytes past bs (booted k)).target ↔
      (∀ b ∈ bs, ¬ Prints b) ∧ SilentStart past ⟨false, false⟩ bs := by
  have hcontains := contains_typeBytes past k bs hfit
  rw [← typed_eq_nil_iff ⟨false, false⟩]
  constructor
  · intro h
    have hnil : typed ⟨false, false⟩ bs = [] := by
      by_contra hne
      have hpos := List.length_pos_iff.mpr hne
      -- the first byte of the input buffer is never written
      have hfirst := h.input 0 hpos
      rw [hcontains.input, if_pos (show 0#64 = 0 from rfl), List.getD_eq_getElem _ _ hpos]
        at hfirst
      exact typed_ne_zero (List.getElem_mem hpos) hfirst.symm
    have hzero := h.terminated
    rw [hcontains.output, hnil] at hzero
    exact ⟨hnil, (silentStart_iff past _ ((typed_eq_nil_iff _ bs).mp hnil)).mp hzero⟩
  · rintro ⟨hnil, hsilent⟩
    rw [hnil]
    refine ⟨fun i hi => absurd hi (Nat.not_lt_zero i), ?_,
      fun i hi => absurd hi (Nat.not_lt_zero i)⟩
    rw [hcontains.output]
    exact (silentStart_iff past _ ((typed_eq_nil_iff _ bs).mp hnil)).mpr hsilent

/-- Pressing and releasing control types nothing. -/
theorem buffered_control :
    Buffered [] (typeBytes 0 [0x1D, 0x9D] (booted (Kernel.zero zero))).target :=
  (buffered_iff 0 (Kernel.zero zero) [0x1D, 0x9D] (by decide)).mpr
    ⟨by decide, Or.inr (Or.inl ⟨by decide, rfl⟩)⟩

/-- The key A pressed once is not at the start of the input buffer. -/
theorem typed_not_buffered :
    ¬ ∀ (past : U8) (k : Kernel ConsoleIo) (bs : List U8),
      (bs.filter (Reaches ·)).length ≤ 255 →
      Buffered (typed ⟨false, false⟩ bs) (typeBytes past bs (booted k)).target := by
  intro hclaim
  have hfirst := (hclaim 0 (Kernel.zero zero) [0x1E] (by decide)).input 0 (by decide)
  exact absurd hfirst (by decide)

end ConsoleIo
