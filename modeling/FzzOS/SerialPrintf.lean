/-
# Formatted output on the serial line

`serial_printf` formats into 256 bytes on its stack and sends them as a string.

* `serialPrintf` : the code;
* `serial_printf_sends` : what is sent, for every format.  The string in the buffer has at most 255
  bytes, so the 8-bit index of `serial_write_str` is enough for it.
-/
import FzzOS.PrintfSinks
import FzzOS.Serial
import Mathlib.Data.List.TakeWhile

open ByteFields Printf

namespace Serial

/-- `serial_printf`, with its buffer at `buffer` : memory and the port afterwards. -/
def serialPrintf (answers : Answers) (va : ℕ → U64) (port : U16) (buffer : U64)
    (rounds polls n : ℕ) (format : U64) (mem : U64 → U8) (s : Port) :
    Option ((U64 → U8) × Port) := do
  let r ← snprintf va buffer 256 rounds format mem
  let s ← serialWriteStr answers r.2 port buffer polls n 0 s
  some (r.2, s)

/-- The string that begins a row of bytes. -/
def stringIn (l : List U8) : List U8 := l.takeWhile (· ≠ 0)

theorem length_stringIn_le (l : List U8) : (stringIn l).length ≤ l.length :=
  (List.takeWhile_sublist _).length_le

theorem stringIn_cons_of_ne {c : U8} (hc : c ≠ 0) (l : List U8) :
    stringIn (c :: l) = c :: stringIn l :=
  List.takeWhile_cons_of_pos (by simpa using hc)

theorem stringIn_zero (l : List U8) : stringIn (0 :: l) = [] :=
  List.takeWhile_cons_of_neg (by simp)

/-- Up to its first zero, and there, a row of bytes is its string. -/
theorem getD_stringIn (l : List U8) {i : ℕ} (hi : i ≤ (stringIn l).length) :
    l.getD i 0 = (stringIn l).getD i 0 := by
  induction l generalizing i with
  | nil => rfl
  | cons c l ih =>
    rcases eq_or_ne c 0 with rfl | hne
    · rw [stringIn_zero] at hi ⊢
      obtain rfl := Nat.le_zero.mp hi
      rfl
    · rw [stringIn_cons_of_ne hne] at hi ⊢
      cases i with
      | zero => rfl
      | succ i => exact ih (Nat.le_of_succ_le_succ hi)

/-- The string in a buffer. -/
theorem cstring_fill (mem : U64 → U8) (buffer : U64) {n : ℕ} {l : List U8} (hn : l.length < n)
    (hn' : n ≤ 2 ^ 64) :
    CString (fill mem buffer n fun i => l.getD i 0) buffer (stringIn l) := by
  have hshort := length_stringIn_le l
  refine CString.of_get (fun b hb => ?_) fun i hi => ?_
  · simpa using List.mem_takeWhile_imp hb
  · have hoffset : (buffer + BitVec.ofNat 64 i - buffer).toNat = i := by bv_omega
    rw [fill_of_lt (by omega), hoffset, getD_stringIn l hi]

/-- **Formatted output is sent**, whatever the format: the function ends, and it has sent the
first 255 characters of the output, up to the first zero among them.  It writes its buffer, and
nothing else. -/
theorem serial_printf_sends {answers : Answers} {va : ℕ → U64} {port : U16} {buffer format : U64}
    {rounds : ℕ} {mem : U64 → U8} {u : Job Unit} (hready : AlwaysReady answers port)
    (h : dryRun va mem rounds format = some u) (hlen : u.log.length < 2 ^ 64)
    (hbuffer : buffer ≠ 0) (hapart : ∀ a ∈ u.state.reads, 256 ≤ (a - buffer).toNat) (s : Port) :
    ∃ polls n mem' t, serialPrintf answers va port buffer rounds polls n format mem s
        = some (mem', t) ∧
      t.writes = s.writes ++ (stringIn (u.log.take 255)).map (fun c => (port, c)) ∧
      ∀ a, 256 ≤ (a - buffer).toNat → mem' a = mem a := by
  obtain ⟨mem', hmem'⟩ : ∃ mem', mem' = fill mem buffer (min (u.log.length + 1) 256) fun i =>
    (u.log.take 255).getD i 0 := ⟨_, rfl⟩
  have hbuf : snprintf va buffer 256 rounds format mem
      = some (BitVec.ofNat 32 u.log.length, mem') := by
    rw [hmem']
    exact snprintf_spec h hlen hbuffer fun a ha => (min_le_right ..).trans (hapart a ha)
  have htake : (u.log.take 255).length < min (u.log.length + 1) 256 := by
    rw [List.length_take]
    omega
  have hstring : CString mem' buffer (stringIn (u.log.take 255)) := by
    rw [hmem']
    exact cstring_fill mem buffer htake (by omega)
  have hshort := length_stringIn_le (u.log.take 255)
  obtain ⟨polls, t, ht, hwrites⟩ :=
    serialWriteStr_rest hready hstring (by omega) [] _ rfl s
  refine ⟨polls, (stringIn (u.log.take 255)).length + 1, mem', t, ?_, hwrites, fun a ha => ?_⟩
  · rw [serialPrintf, hbuf]
    exact congrArg (Option.bind · fun t => some (mem', t)) ht
  · rw [hmem']
    exact fill_of_ge (by omega)

/-- A number of two digits to the first port. -/
theorem number_sent :
    ∃ polls n mem' t, serialPrintf ready (fun _ => 42) 0x3F8 0x1000 3 polls n 0
        (CString.only [ascii '%', ascii 'u']) ⟨0, []⟩ = some (mem', t) ∧
      t.writes = [(0x3F8, ascii '4'), (0x3F8, ascii '2')] ∧
      ∀ a : U64, 256 ≤ (a - 0x1000).toNat → mem' a = CString.only [ascii '%', ascii 'u'] a :=
  serial_printf_sends (alwaysReady_ready _) dryRun_number (by decide) (by decide) (by simp) ⟨0, []⟩

end Serial
