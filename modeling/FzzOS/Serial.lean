/-
# The serial port

Output through a 16550: wait until the transmitter is ready, write a byte.  A string is
walked with an 8-bit index, so a string of 256 bytes or more is sent over and over again.

* `serialWrite`, `serialWriteStr` : the code, against a line status register that answers
  whatever it answers;
* `serialWrite_ready` : a byte is sent if the transmitter is ready at some later poll;
* `sent_exactly_iff` : which strings are sent as they are.
-/
import FzzOS.CStrings
import FzzOS.Words

namespace Serial

/-- How often the line status register was read, and what was written to which port. -/
structure Port where
  polls : ℕ
  writes : List (U16 × U8)

/-- `outb`. -/
def outb (port : U16) (val : U8) (s : Port) : Port := { s with writes := s.writes ++ [(port, val)] }

/-- The answers of port `p` to reads, from the first one on.  Reading `port + 5` is reading the
line status register. -/
abbrev Answers := U16 → ℕ → U8

/-- `inb`. -/
def inb (answers : Answers) (port : U16) (s : Port) : U8 × Port :=
  (answers port s.polls, { s with polls := s.polls + 1 })

/-! ## The code -/

/-- `serial_is_tx_empty`. -/
def serialIsTxEmpty (answers : Answers) (port : U16) (s : Port) : U8 × Port :=
  let status := inb answers (port + 5) s
  (status.1 &&& 0x20, status.2)

/-- `serial_write`, in `n` polls; `none` if it is still waiting then. -/
def serialWrite (answers : Answers) (port : U16) (data : U8) : ℕ → Port → Option Port
  | 0, _ => none
  | n + 1, s =>
    let ready := serialIsTxEmpty answers port s
    if ready.1 = 0 then serialWrite answers port data n ready.2
    else some (outb port data ready.2)

/-- `serial_write_str` from index `i` on, in `n` rounds of at most `polls` polls each; `none` if
it is still at work then. -/
def serialWriteStr (answers : Answers) (mem : U64 → U8) (port : U16) (data : U64) (polls : ℕ) :
    ℕ → U8 → Port → Option Port
  | 0, _, _ => none
  | n + 1, i, s =>
    -- the index is a byte
    let c := mem (data + i.setWidth 64)
    if c = 0 then some s
    else (serialWrite answers port c polls s).bind
      (serialWriteStr answers mem port data polls n (i + 1))

/-! ## One byte -/

variable {answers : Answers} {mem : U64 → U8} {port : U16} {data : U64} {c : U8} {i : U8}
  {s t : Port} {polls polls' n : ℕ} {l : List U8}

/-- The transmitter becomes ready again and again. -/
def AlwaysReady (answers : Answers) (port : U16) : Prop :=
  ∀ k, ∃ j ≥ k, answers (port + 5) j &&& 0x20 ≠ 0

/-- Who waits longer gets as far. -/
theorem serialWrite_mono (h : serialWrite answers port c polls s = some t)
    (hle : polls ≤ polls') : serialWrite answers port c polls' s = some t := by
  induction polls generalizing s polls' with
  | zero => exact absurd h (by simp [serialWrite])
  | succ n ih =>
    obtain ⟨m, rfl⟩ := Nat.exists_eq_succ_of_ne_zero (Nat.ne_zero_of_lt hle)
    rw [serialWrite] at h ⊢
    split_ifs at h ⊢ with hwait
    · exact ih h (Nat.le_of_succ_le_succ hle)
    · exact h

/-- **One byte** is sent, once, if the transmitter is ready at some later poll. -/
theorem serialWrite_ready (h : AlwaysReady answers port) (c : U8) (s : Port) :
    ∃ polls t, serialWrite answers port c polls s = some t ∧
      t.writes = s.writes ++ [(port, c)] := by
  obtain ⟨j, hj, hready⟩ := h s.polls
  obtain ⟨d, hd⟩ := Nat.exists_eq_add_of_le hj
  induction d generalizing s with
  | zero =>
    refine ⟨1, outb port c ⟨s.polls + 1, s.writes⟩, ?_, rfl⟩
    rw [serialWrite]
    exact if_neg (by rwa [hd] at hready)
  | succ d ih =>
    by_cases hwait : answers (port + 5) s.polls &&& 0x20 = 0
    · obtain ⟨polls, t, ht, hwrites⟩ := ih ⟨s.polls + 1, s.writes⟩ (by show _ + 1 ≤ j; omega)
        (by show j = _ + 1 + d; omega)
      refine ⟨polls + 1, t, ?_, hwrites⟩
      rw [serialWrite]
      exact (if_pos hwait).trans ht
    · refine ⟨1, outb port c ⟨s.polls + 1, s.writes⟩, ?_, rfl⟩
      rw [serialWrite]
      exact if_neg hwait

/-! ## A string -/

theorem serialWriteStr_mono (h : serialWriteStr answers mem port data polls n i s = some t)
    (hle : polls ≤ polls') : serialWriteStr answers mem port data polls' n i s = some t := by
  induction n generalizing i s with
  | zero => exact absurd h (by simp [serialWriteStr])
  | succ n ih =>
    rw [serialWriteStr] at h ⊢
    split_ifs at h ⊢ with hend
    · exact h
    · obtain ⟨u, hu, hrest⟩ := Option.bind_eq_some_iff.mp h
      exact Option.bind_eq_some_iff.mpr ⟨u, serialWrite_mono hu hle, ih hrest⟩

/-- Indices below 256 are what they look like. -/
theorem add_index (data : U64) {k : ℕ} (hk : k < 256) :
    data + (BitVec.ofNat 8 k).setWidth 64 = data + BitVec.ofNat 64 k := by
  congr 1
  apply BitVec.eq_of_toNat_eq
  rw [BitVec.toNat_setWidth, BitVec.toNat_ofNat, BitVec.toNat_ofNat]
  omega

/-- From any index of a short string on, the rest of the string is sent. -/
theorem serialWriteStr_rest (hready : AlwaysReady answers port) (h : CString mem data l)
    (hlen : l.length < 256) (pre rest : List U8) (hl : l = pre ++ rest) (s : Port) :
    ∃ polls t, serialWriteStr answers mem port data polls (rest.length + 1)
        (BitVec.ofNat 8 pre.length) s = some t ∧
      t.writes = s.writes ++ rest.map fun c => (port, c) := by
  induction rest generalizing pre s with
  | nil =>
    refine ⟨0, s, ?_, (List.append_nil _).symm⟩
    have hend := h.get_length
    rw [hl, List.append_nil] at hend hlen
    rw [serialWriteStr, add_index data hlen]
    exact if_pos hend
  | cons c rest ih =>
    have hlt : pre.length < l.length := by
      rw [hl, List.length_append, List.length_cons]
      omega
    have hindex := add_index data (hlt.trans hlen)
    have hc : mem (data + BitVec.ofNat 64 pre.length) = c := by
      rw [h.get hlt]
      simp [hl]
    have hne : c ≠ 0 := hc ▸ h.get_ne_zero hlt
    obtain ⟨polls₁, u, hu, hwrites₁⟩ := serialWrite_ready hready c s
    have hnext : BitVec.ofNat 8 pre.length + 1 = BitVec.ofNat 8 (pre ++ [c]).length := by
      rw [List.length_append, BitVec.ofNat_add]
      rfl
    obtain ⟨polls₂, t, ht, hwrites₂⟩ := ih (pre ++ [c])
      (by rw [hl, List.append_assoc]; rfl) u
    refine ⟨max polls₁ polls₂, t, ?_, ?_⟩
    · rw [List.length_cons, serialWriteStr, hindex, hc, if_neg hne,
        serialWrite_mono hu (le_max_left _ _), Option.bind_some, hnext]
      exact serialWriteStr_mono ht (le_max_right _ _)
    · rw [hwrites₂, hwrites₁, List.append_assoc, List.map_cons]
      rfl

/-- A long string has no end that the index could reach. -/
theorem serialWriteStr_of_long (h : CString mem data l) (hlong : 256 ≤ l.length) :
    serialWriteStr answers mem port data polls n i s = none := by
  induction n generalizing i s with
  | zero => rfl
  | succ n ih =>
    have hi : i.toNat < 256 := i.isLt
    have hne := h.get_ne_zero (show i.toNat < l.length by omega)
    rw [← add_index data hi, BitVec.ofNat_toNat, BitVec.setWidth_eq] at hne
    rw [serialWriteStr]
    exact (if_neg hne).trans (Option.bind_eq_none_iff.mpr fun u _ => ih)

/-- **A string on the serial line.**  The function ends, and has sent each byte of the string
once and in order, if and only if the string has fewer than 256 bytes. -/
theorem sent_exactly_iff (hready : AlwaysReady answers port) (h : CString mem data l)
    (s : Port) :
    (∃ polls n t, serialWriteStr answers mem port data polls n 0 s = some t ∧
        t.writes = s.writes ++ l.map fun c => (port, c)) ↔ l.length < 256 := by
  constructor
  · rintro ⟨polls, n, t, ht, -⟩
    by_contra hlong
    rw [serialWriteStr_of_long h (by omega)] at ht
    exact absurd ht (Option.some_ne_none t).symm
  · intro hlen
    obtain ⟨polls, t, ht, hwrites⟩ := serialWriteStr_rest hready h hlen [] l rfl s
    exact ⟨polls, _, t, ht, hwrites⟩

/-- A transmitter that is always ready. -/
def ready : Answers := fun _ _ => 0x20

theorem alwaysReady_ready (port : U16) : AlwaysReady ready port :=
  fun k => ⟨k, le_refl k, show (0x20 : U8) &&& 0x20 ≠ 0 by decide⟩

/-- Two bytes to the first port. -/
theorem sent_exactly_two :
    ∃ polls n t, serialWriteStr ready (CString.only [0x4F, 0x4B]) 0x3F8 0 polls n 0 ⟨0, []⟩
        = some t ∧ t.writes = [] ++ [0x4F, 0x4B].map fun c => (0x3F8, c) :=
  (sent_exactly_iff (alwaysReady_ready _) (CString.of_only (by decide) (by decide)) _).mpr
    (by decide)

/-- With 256 bytes the index is back at 0 before it gets to the end. -/
theorem long_string_never_ends :
    ¬ ∀ (answers : Answers) (mem : U64 → U8) (port : U16) (data : U64) (l : List U8) (s : Port),
      AlwaysReady answers port → CString mem data l →
      ∃ polls n t, serialWriteStr answers mem port data polls n 0 s = some t ∧
        t.writes = s.writes ++ l.map fun c => (port, c) := by
  intro hclaim
  have hstring : CString (CString.only (List.replicate 256 (0x41 : U8))) (0 : U64)
      (List.replicate 256 0x41) := by
    refine CString.of_only (fun b hb => ?_) (by rw [List.length_replicate]; decide)
    rw [List.eq_of_mem_replicate hb]
    decide
  obtain ⟨polls, n, t, ht, -⟩ := hclaim ready _ 0x3F8 0 _ ⟨0, []⟩ (alwaysReady_ready _) hstring
  rw [serialWriteStr_of_long hstring (by rw [List.length_replicate])] at ht
  exact absurd ht (Option.some_ne_none t).symm

end Serial
