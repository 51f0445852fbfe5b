/-
# Formatted output

The format interpreter of `printf.c` with the features that `kprintf.h` leaves on: no floating
point and no `t`.  It works on the bytes of memory, on the variadic arguments in the order in
which they are fetched, and on a record of what was sent, read and fetched.

* `vsnprintf` : `_vsnprintf` with the output function of `printf_`;
* `Advance s t k m` : from `s` to `t` the interpreter reads `k` bytes of the format and, unless
  it fetches an argument, sends at most `m`;
* `advance_directive` : a conversion sends at most one byte, for at least one behind its `%`;
* `vsnprintf_plain`, `vsnprintf_short` : a format without conversions is sent as it is, and any
  other format that is the whole of what is read is sent short.

Loops that read memory stop at a byte that memory need not have; `none` is a loop that has not
stopped yet.
-/
import FzzOS.CStrings
import FzzOS.Words

namespace Printf

/-! ## State -/

/-- Where the interpreter is in the format, how many arguments it has fetched, the bytes sent to
`_putchar` and the addresses read. -/
structure State where
  format : U64
  args : ℕ
  sent : List U8
  reads : List U64

/-- The `FLAGS_` bits. -/
structure Flags where
  zeropad : Bool
  left : Bool
  plus : Bool
  space : Bool
  hash : Bool
  uppercase : Bool
  char : Bool
  short : Bool
  long : Bool
  longLong : Bool
  precision : Bool

/-- No flag set. -/
def Flags.none : Flags :=
  ⟨false, false, false, false, false, false, false, false, false, false, false⟩

/-- A character constant. -/
def ascii (c : Char) : U8 := BitVec.ofNat 8 c.toNat

variable (mem : U64 → U8) (va : ℕ → U64)

/-- `*format`. -/
def peek (s : State) : U8 × State := (mem s.format, { s with reads := s.format :: s.reads })

/-- `format++`. -/
def State.next (s : State) : State := { s with format := s.format + 1 }

/-- `va_arg(va, ...)`, as the 64 bits of the argument's place. -/
def vaArg (s : State) : U64 × State := (va s.args, { s with args := s.args + 1 })

/-- `_out_char`, which drops zeros. -/
def outChar (c : U8) (s : State) : State := if c = 0 then s else { s with sent := s.sent ++ [c] }

/-- `_out_char` for each of some characters. -/
def outAll (cs : List U8) (s : State) : State := cs.foldl (fun s c => outChar c s) s

/-! ## Numbers -/

/-- `PRINTF_NTOA_BUFFER_SIZE`. -/
def ntoaBufferSize : ℕ := 32

/-- One digit. -/
def digitChar (uppercase : Bool) (digit : U64) : U8 :=
  if digit < 10 then ascii '0' + digit.setWidth 8
  else (if uppercase then ascii 'A' else ascii 'a') + digit.setWidth 8 - 10

/-- The digits, the last one first, at most `n` of them. -/
def digits (uppercase : Bool) (base : U64) : ℕ → U64 → List U8
  | 0, _ => []
  | n + 1, value =>
    digitChar uppercase (value % base) ::
      if value / base = 0 then [] else digits uppercase base n (value / base)

/-- Some characters while the buffer has room and is shorter than `len`. -/
def padBuffer (buf : List U8) (len : U32) : List U8 :=
  buf ++ List.replicate (min len.toNat ntoaBufferSize - buf.length) (ascii '0')

/-- One more character if the buffer has room. -/
def pushBuffer (buf : List U8) (c : U8) : List U8 :=
  if buf.length < ntoaBufferSize then buf ++ [c] else buf

/-- `_out_rev`, the characters it puts out. -/
def outRev (buf : List U8) (width : U32) (flags : Flags) : List U8 :=
  let spaces := List.replicate (width.toNat - buf.length) (ascii ' ')
  (if !flags.left && !flags.zeropad then spaces else []) ++ buf.reverse
    ++ if flags.left then spaces else []

/-- `_ntoa_format`. -/
def ntoaFormat (buf : List U8) (negative : Bool) (base : U64) (prec width : U32)
    (flags : Flags) : List U8 :=
  -- leading zeros
  let width := if !flags.left && width != 0 && flags.zeropad
      && (negative || flags.plus || flags.space) then width - 1 else width
  let buf := if flags.left then buf else padBuffer buf prec
  let buf := if !flags.left && flags.zeropad then padBuffer buf width else buf
  -- the prefix takes the place of zeros put there just before
  let buf := if flags.hash && !flags.precision && buf.length != 0
      && (buf.length == prec.toNat || buf.length == width.toNat) then
      let buf := buf.dropLast
      if buf.length != 0 && base == 16 then buf.dropLast else buf
    else buf
  let buf := if flags.hash then
      let buf := if base == 16 then
          pushBuffer buf (if flags.uppercase then ascii 'X' else ascii 'x')
        else if base == 2 then pushBuffer buf (ascii 'b') else buf
      pushBuffer buf (ascii '0')
    else buf
  let buf := if negative then pushBuffer buf (ascii '-')
    else if flags.plus then pushBuffer buf (ascii '+')
    else if flags.space then pushBuffer buf (ascii ' ') else buf
  outRev buf width flags

/-- `_ntoa_long` and `_ntoa_long_long`, which are the same on this machine. -/
def ntoaLong (value : U64) (negative : Bool) (base : U64) (prec width : U32) (flags : Flags) :
    List U8 :=
  let flags := if value = 0 then { flags with hash := false } else flags
  let buf := if !flags.precision || value != 0 then
    digits flags.uppercase base ntoaBufferSize value else []
  ntoaFormat buf negative base prec width flags

/-- The magnitude of a signed argument. -/
def magnitude {w : ℕ} (x : BitVec w) : BitVec w := if x.msb then -x else x

/-- The sign and the magnitude of an argument of `%d` or `%i`. -/
def signedArg (flags : Flags) (arg : U64) : Bool × U64 :=
  if flags.longLong || flags.long then (arg.msb, magnitude arg)
  else
    let value : U32 := if flags.char then (arg.setWidth 8).signExtend 32
      else if flags.short then (arg.setWidth 16).signExtend 32 else arg.setWidth 32
    (value.msb, (magnitude value).setWidth 64)

/-- The value of an argument of the other integer conversions. -/
def unsignedArg (flags : Flags) (arg : U64) : U64 :=
  if flags.longLong || flags.long then arg
  else if flags.char then (arg.setWidth 8).setWidth 64
  else if flags.short then (arg.setWidth 16).setWidth 64 else (arg.setWidth 32).setWidth 64

/-- The integer conversion `c`, for its argument. -/
def convInt (c : U8) (flags : Flags) (width prec : U32) (arg : U64) : List U8 :=
  let decimal := c = ascii 'd' ∨ c = ascii 'i' ∨ c = ascii 'u'
  let base : U64 := if c = ascii 'x' ∨ c = ascii 'X' then 16 else if c = ascii 'o' then 8
    else if c = ascii 'b' then 2 else 10
  let signed := c = ascii 'd' ∨ c = ascii 'i'
  let flags := if decimal then { flags with hash := false } else flags
  let flags := if c = ascii 'X' then { flags with uppercase := true } else flags
  let flags := if signed then flags else { flags with plus := false, space := false }
  let flags := if flags.precision then { flags with zeropad := false } else flags
  if signed then
    ntoaLong (signedArg flags arg).2 (signedArg flags arg).1 base prec width flags
  else ntoaLong (unsignedArg flags arg) false base prec width flags

/-! ## Strings -/

/-- `_strnlen_s`: the length, and the addresses read. -/
def strnlen : ℕ → U64 → ℕ × List U64
  | 0, p => (0, [p])
  | maxsize + 1, p =>
    if mem p = 0 then (0, [p])
    else ((strnlen maxsize (p + 1)).1 + 1, p :: (strnlen maxsize (p + 1)).2)

/-- The loop of `%s` over the string: the characters, and the addresses read. -/
def stringLoop : ℕ → Option ℕ → U64 → Option (List U8 × List U64)
  | 0, _, _ => none
  | n + 1, prec, p =>
    if mem p = 0 then some ([], [p])
    else if prec = some 0 then some ([], [p])
    else (stringLoop n (prec.map (· - 1)) (p + 1)).map fun r => (mem p :: r.1, p :: r.2)

/-- `%s`. -/
def convString (n : ℕ) (flags : Flags) (width prec : U32) (s : State) : Option State := do
  let p := vaArg va s
  let len := strnlen mem (if prec = 0 then 2 ^ 64 - 1 else prec.toNat) p.1
  let l := if flags.precision then min (len.1 % 2 ^ 32) prec.toNat else len.1 % 2 ^ 32
  let spaces := List.replicate (width.toNat - l) (ascii ' ')
  let r ← stringLoop mem n (if flags.precision then some prec.toNat else none) p.1
  let cs := if flags.left then r.1 ++ spaces else spaces ++ r.1
  some (outAll cs { p.2 with reads := len.2 ++ r.2 ++ p.2.reads })

/-- `%c`. -/
def convChar (flags : Flags) (width : U32) (s : State) : State :=
  let c := vaArg va s
  let spaces := List.replicate (width.toNat - 1) (ascii ' ')
  outAll (if flags.left then c.1.setWidth 8 :: spaces else spaces ++ [c.1.setWidth 8]) c.2

/-! ## Conversions -/

/-- The flag a character stands for. -/
def setFlag (c : U8) (flags : Flags) : Option Flags :=
  if c = ascii '0' then some { flags with zeropad := true }
  else if c = ascii '-' then some { flags with left := true }
  else if c = ascii '+' then some { flags with plus := true }
  else if c = ascii ' ' then some { flags with space := true }
  else if c = ascii '#' then some { flags with hash := true }
  else none

/-- The loop over the flags. -/
def readFlags : ℕ → Flags → State → Option (Flags × State)
  | 0, _, _ => none
  | n + 1, flags, s =>
    let c := peek mem s
    match setFlag c.1 flags with
    | some flags => readFlags n flags c.2.next
    | none => some (flags, c.2)

/-- `_is_digit`. -/
def isDigit (c : U8) : Bool := ascii '0' ≤ c && c ≤ ascii '9'

/-- `_atoi`. -/
def atoi : ℕ → U32 → State → Option (U32 × State)
  | 0, _, _ => none
  | n + 1, i, s =>
    let c := peek mem s
    if isDigit c.1 then atoi n (i * 10 + (c.1 - ascii '0').setWidth 32) c.2.next
    else some (i, c.2)

/-- The width. -/
def readWidth (n : ℕ) (flags : Flags) (s : State) : Option (Flags × U32 × State) :=
  let c := peek mem s
  if isDigit c.1 then (atoi mem n 0 c.2).map fun r => (flags, r.1, r.2)
  else if c.1 = ascii '*' then
    let arg := vaArg va c.2
    let w : U32 := arg.1.setWidth 32
    -- a negative width is a width on the other side
    if w.msb then some ({ flags with left := true }, -w, arg.2.next)
    else some (flags, w, arg.2.next)
  else some (flags, 0, c.2)

/-- The precision. -/
def readPrecision (n : ℕ) (flags : Flags) (s : State) : Option (Flags × U32 × State) :=
  let c := peek mem s
  if c.1 = ascii '.' then
    let flags := { flags with precision := true }
    let d := peek mem c.2.next
    if isDigit d.1 then (atoi mem n 0 d.2).map fun r => (flags, r.1, r.2)
    else if d.1 = ascii '*' then
      let arg := vaArg va d.2
      let prec : U32 := arg.1.setWidth 32
      some (flags, if prec.msb then 0 else prec, arg.2.next)
    else some (flags, 0, d.2)
  else some (flags, 0, c.2)

/-- The length. -/
def readLength (flags : Flags) (s : State) : Flags × State :=
  let c := peek mem s
  if c.1 = ascii 'l' then
    let d := peek mem c.2.next
    if d.1 = ascii 'l' then ({ flags with long := true, longLong := true }, d.2.next)
    else ({ flags with long := true }, d.2)
  else if c.1 = ascii 'h' then
    let d := peek mem c.2.next
    if d.1 = ascii 'h' then ({ flags with short := true, char := true }, d.2.next)
    else ({ flags with short := true }, d.2)
  else if c.1 = ascii 'j' ∨ c.1 = ascii 'z' then ({ flags with long := true }, c.2.next)
  else (flags, c.2)

/-- The characters of the integer conversions. -/
def intConversions : List U8 :=
  [ascii 'd', ascii 'i', ascii 'u', ascii 'x', ascii 'X', ascii 'o', ascii 'b']

/-- The conversion itself. -/
def convert (n : ℕ) (flags : Flags) (width prec : U32) (s : State) : Option State :=
  let c := peek mem s
  let s := c.2
  if c.1 ∈ intConversions then
    let arg := vaArg va s
    some (outAll (convInt c.1 flags width prec arg.1) arg.2).next
  else if c.1 = ascii 'c' then some (convChar va flags width s).next
  else if c.1 = ascii 's' then (convString mem va n flags width prec s).map State.next
  else if c.1 = ascii 'p' then
    let arg := vaArg va s
    let flags := { flags with zeropad := true, uppercase := true }
    some (outAll (ntoaLong arg.1 false 16 prec 16 flags) arg.2).next
  -- everything else stands for itself, the end of the string included
  else some (outChar c.1 s).next

/-- A conversion, from behind its `%` on. -/
def directive (n : ℕ) (s : State) : Option State := do
  let f ← readFlags mem n Flags.none s
  let w ← readWidth mem va n f.1 f.2
  let p ← readPrecision mem va n w.1 w.2.2
  let l := readLength mem p.1 p.2.2
  convert mem va n l.1 w.2.1 p.2.1 l.2

/-- `_vsnprintf`. -/
def vsnprintf : ℕ → State → Option State
  | 0, _ => none
  | n + 1, s =>
    let c := peek mem s
    if c.1 = 0 then some (outChar 0 c.2)
    else if c.1 ≠ ascii '%' then vsnprintf n (outChar c.1 c.2).next
    else (directive mem va n c.2.next).bind (vsnprintf n)

/-- The interpreter at the start of a format. -/
def start (format : U64) : State := ⟨format, 0, [], []⟩

/-- `printf_`. -/
def printf (n : ℕ) (format : U64) : Option State := vsnprintf mem va n (start format)

/-! ## How far the interpreter gets -/

variable {mem va} {s t u : State} {j k m n : ℕ} {flags flags' : Flags} {x y : U32} {c : U8}

/-- From `s` to `t` the next `k` bytes of the format are read and stepped over, and if no argument
is fetched at most `m` bytes are sent. -/
structure Advance (s t : State) (k m : ℕ) : Prop where
  format : t.format = s.format + BitVec.ofNat 64 k
  read : ∀ i < k, s.format + BitVec.ofNat 64 i ∈ t.reads
  reads : ∀ a ∈ s.reads, a ∈ t.reads
  args : s.args ≤ t.args
  sent : t.args = s.args → ∃ new, t.sent = s.sent ++ new ∧ new.length ≤ m

theorem Advance.trans {m' : ℕ} (h : Advance s t j m) (h' : Advance t u k m') :
    Advance s u (j + k) (m + m') where
  format := by rw [h'.format, h.format, BitVec.ofNat_add, BitVec.add_assoc]
  read := by
    intro i hi
    by_cases hij : i < j
    · exact h'.reads _ (h.read i hij)
    · have hrest := h'.read (i - j) (by omega)
      rwa [h.format, BitVec.add_assoc, ← BitVec.ofNat_add, Nat.add_sub_cancel' (by omega)] at hrest
  reads := fun a ha => h'.reads a (h.reads a ha)
  args := h.args.trans h'.args
  sent := by
    intro hargs
    have hst := h.args
    have htu := h'.args
    obtain ⟨new, hnew, hlen⟩ := h.sent (by omega)
    obtain ⟨new', hnew', hlen'⟩ := h'.sent (by omega)
    refine ⟨new ++ new', by rw [hnew', hnew, List.append_assoc], ?_⟩
    rw [List.length_append]
    omega

/-- Nothing happens to the format while a byte of it is read or an argument is fetched. -/
theorem advance_zero (hformat : t.format = s.format) (hreads : ∀ a ∈ s.reads, a ∈ t.reads)
    (hargs : s.args ≤ t.args) (hsent : t.sent = s.sent) : Advance s t 0 0 where
  format := by rw [hformat, BitVec.add_zero]
  read := fun i hi => absurd hi (Nat.not_lt_zero i)
  reads := hreads
  args := hargs
  sent := fun _ => ⟨[], by rw [hsent, List.append_nil], le_refl 0⟩

/-- A byte that was read is stepped over. -/
theorem Advance.next (h : Advance s t 0 m) (hread : s.format ∈ t.reads) :
    Advance s t.next 1 m where
  format := by rw [State.next, h.format, BitVec.add_zero]; rfl
  read := by
    intro i hi
    rw [Nat.lt_one_iff.mp hi, BitVec.add_zero]
    exact hread
  reads := h.reads
  args := h.args
  sent := h.sent

theorem advance_peek (mem : U64 → U8) (s : State) : Advance s (peek mem s).2 0 0 :=
  advance_zero rfl (fun _ ha => List.mem_cons_of_mem _ ha) (le_refl _) rfl

theorem advance_next (mem : U64 → U8) (s : State) : Advance s (peek mem s).2.next 1 0 :=
  (advance_peek mem s).next List.mem_cons_self

/-- After a fetch it does not matter what is sent. -/
theorem advance_fetch (hformat : t.format = s.format) (hreads : ∀ a ∈ s.reads, a ∈ t.reads)
    (hargs : s.args < t.args) (m : ℕ) : Advance s t 0 m where
  format := by rw [hformat, BitVec.add_zero]
  read := fun i hi => absurd hi (Nat.not_lt_zero i)
  reads := hreads
  args := hargs.le
  sent := fun heq => absurd heq (by omega)

/-! ## One conversion -/

@[simp] theorem outChar_format (c : U8) (s : State) : (outChar c s).format = s.format := by
  rw [outChar]
  split <;> rfl

@[simp] theorem outChar_args (c : U8) (s : State) : (outChar c s).args = s.args := by
  rw [outChar]
  split <;> rfl

@[simp] theorem outChar_reads (c : U8) (s : State) : (outChar c s).reads = s.reads := by
  rw [outChar]
  split <;> rfl

theorem outChar_sent (c : U8) (s : State) :
    (outChar c s).sent = s.sent ++ if c = 0 then [] else [c] := by
  rw [outChar]
  split
  · exact (List.append_nil _).symm
  · rfl

/-- Sending changes what was sent and nothing else. -/
theorem outAll_frame (cs : List U8) (s : State) :
    (outAll cs s).format = s.format ∧ (outAll cs s).args = s.args ∧
      (outAll cs s).reads = s.reads := by
  induction cs generalizing s with
  | nil => exact ⟨rfl, rfl, rfl⟩
  | cons c cs ih =>
    obtain ⟨hformat, hargs, hreads⟩ := ih (outChar c s)
    exact ⟨hformat.trans (outChar_format c s), hargs.trans (outChar_args c s),
      hreads.trans (outChar_reads c s)⟩

theorem advance_outChar (c : U8) (s : State) : Advance s (outChar c s) 0 1 where
  format := by rw [outChar_format, BitVec.add_zero]
  read := fun i hi => absurd hi (Nat.not_lt_zero i)
  reads := fun a ha => by rwa [outChar_reads]
  args := by rw [outChar_args]
  sent := by
    refine fun _ => ⟨_, outChar_sent c s, ?_⟩
    split
    · exact Nat.zero_le 1
    · exact le_refl 1

theorem advance_readFlags (h : readFlags mem n flags s = some (flags', t)) :
    ∃ k, Advance s t k 0 := by
  induction n generalizing flags s with
  | zero => exact absurd h (by simp [readFlags])
  | succ n ih =>
    rw [readFlags] at h
    split at h
    · obtain ⟨k, hk⟩ := ih h
      exact ⟨_, (advance_next mem s).trans hk⟩
    · simp only [Option.some.injEq, Prod.mk.injEq] at h
      exact ⟨0, h.2 ▸ advance_peek mem s⟩

theorem advance_atoi (h : atoi mem n x s = some (y, t)) : ∃ k, Advance s t k 0 := by
  induction n generalizing x s with
  | zero => exact absurd h (by simp [atoi])
  | succ n ih =>
    rw [atoi] at h
    split at h
    · obtain ⟨k, hk⟩ := ih h
      exact ⟨_, (advance_next mem s).trans hk⟩
    · simp only [Option.some.injEq, Prod.mk.injEq] at h
      exact ⟨0, h.2 ▸ advance_peek mem s⟩

/-- A `*` is stepped over, and an argument is fetched for it. -/
theorem advance_star (mem : U64 → U8) (va : ℕ → U64) (s : State) :
    Advance s (vaArg va (peek mem s).2).2.next 1 0 :=
  (advance_fetch (s := s) (t := (vaArg va (peek mem s).2).2) rfl
    (fun _ ha => List.mem_cons_of_mem _ ha) (Nat.lt_succ_self s.args) 0).next List.mem_cons_self

theorem advance_readWidth (h : readWidth mem va n flags s = some (flags', x, t)) :
    ∃ k, Advance s t k 0 := by
  rw [readWidth] at h
  dsimp only at h
  split_ifs at h
  · obtain ⟨r, hr, heq⟩ := Option.map_eq_some_iff.mp h
    simp only [Prod.mk.injEq] at heq
    obtain ⟨-, -, rfl⟩ := heq
    obtain ⟨k, hk⟩ := advance_atoi hr
    exact ⟨_, (advance_peek mem s).trans hk⟩
  all_goals
    simp only [Option.some.injEq, Prod.mk.injEq] at h
    obtain ⟨-, -, rfl⟩ := h
  · exact ⟨_, advance_star mem va s⟩
  · exact ⟨_, advance_star mem va s⟩
  · exact ⟨_, advance_peek mem s⟩

theorem advance_readPrecision (h : readPrecision mem va n flags s = some (flags', x, t)) :
    ∃ k, Advance s t k 0 := by
  rw [readPrecision] at h
  dsimp only at h
  split at h
  · have hdot := advance_next mem s
    split at h
    · obtain ⟨r, hr, heq⟩ := Option.map_eq_some_iff.mp h
      simp only [Prod.mk.injEq] at heq
      obtain ⟨-, -, rfl⟩ := heq
      obtain ⟨k, hk⟩ := advance_atoi hr
      exact ⟨_, hdot.trans ((advance_peek mem _).trans hk)⟩
    · split at h
      all_goals
        simp only [Option.some.injEq, Prod.mk.injEq] at h
        obtain ⟨-, -, rfl⟩ := h
      · exact ⟨_, hdot.trans (advance_star mem va _)⟩
      · exact ⟨_, hdot.trans (advance_peek mem _)⟩
  · simp only [Option.some.injEq, Prod.mk.injEq] at h
    obtain ⟨-, -, rfl⟩ := h
    exact ⟨_, advance_peek mem s⟩

theorem advance_readLength (mem : U64 → U8) (flags : Flags) (s : State) :
    ∃ k, Advance s (readLength mem flags s).2 k 0 := by
  rw [readLength]
  dsimp only
  have hpeek := advance_peek mem s
  have hnext := advance_next mem s
  split_ifs
  · exact ⟨_, hnext.trans (advance_next mem _)⟩
  · exact ⟨_, hnext.trans (advance_peek mem _)⟩
  · exact ⟨_, hnext.trans (advance_next mem _)⟩
  · exact ⟨_, hnext.trans (advance_peek mem _)⟩
  · exact ⟨_, hnext⟩
  · exact ⟨_, hpeek⟩

/-- A conversion that fetches an argument, whatever it prints. -/
theorem advance_outAll (mem : U64 → U8) (va : ℕ → U64) (s : State) (cs : List U8) :
    Advance s (outAll cs (vaArg va (peek mem s).2).2).next 1 1 := by
  obtain ⟨hformat, hargs, hreads⟩ := outAll_frame cs (vaArg va (peek mem s).2).2
  refine (advance_fetch (s := s) hformat (fun a ha => ?_) ?_ 1).next ?_
  · rw [hreads]
    exact List.mem_cons_of_mem _ ha
  · rw [hargs]
    exact Nat.lt_succ_self s.args
  · rw [hreads]
    exact List.mem_cons_self

theorem advance_convString (h : convString mem va n flags x y (peek mem s).2 = some t) :
    Advance s t.next 1 1 := by
  simp only [convString, Option.bind_eq_bind, Option.bind_eq_some_iff, Option.some.injEq] at h
  obtain ⟨r, -, rfl⟩ := h
  obtain ⟨hformat, hargs, hreads⟩ := outAll_frame
    (if flags.left then r.1 ++ _ else _ ++ r.1) { (vaArg va (peek mem s).2).2 with reads := _ }
  refine (advance_fetch (s := s) hformat (fun a ha => ?_) ?_ 1).next ?_
  · rw [hreads]
    exact List.mem_append_right _ (List.mem_cons_of_mem _ ha)
  · rw [hargs]
    exact Nat.lt_succ_self s.args
  · rw [hreads]
    exact List.mem_append_right _ List.mem_cons_self

theorem advance_convert (h : convert mem va n flags x y s = some t) : Advance s t 1 1 := by
  rw [convert] at h
  dsimp only at h
  split_ifs at h
  · exact Option.some.inj h ▸ advance_outAll mem va s _
  · exact Option.some.inj h ▸ advance_outAll mem va s _
  · obtain ⟨r, hr, rfl⟩ := Option.map_eq_some_iff.mp h
    exact advance_convString hr
  · exact Option.some.inj h ▸ advance_outAll mem va s _
  · refine Option.some.inj h ▸ ((advance_peek mem s).trans (advance_outChar _ _)).next ?_
    rw [outChar_reads]
    exact List.mem_cons_self

/-- **A conversion.** -/
theorem advance_directive (h : directive mem va n s = some t) : ∃ k, Advance s t (k + 1) 1 := by
  simp only [directive, Option.bind_eq_bind, Option.bind_eq_some_iff] at h
  obtain ⟨⟨_, _⟩, hf, ⟨_, _, _⟩, hw, ⟨flags, _, u⟩, hp, hc⟩ := h
  obtain ⟨k₁, h₁⟩ := advance_readFlags hf
  obtain ⟨k₂, h₂⟩ := advance_readWidth hw
  obtain ⟨k₃, h₃⟩ := advance_readPrecision hp
  obtain ⟨k₄, h₄⟩ := advance_readLength mem flags u
  exact ⟨_, ((h₁.trans h₂).trans (h₃.trans h₄)).trans (advance_convert hc)⟩

/-! ## The loop -/

variable {i : ℕ} {p : U64} {l : List U8}

/-- One round of the loop: it ends at a zero, or steps over a byte, or over a conversion. -/
theorem vsnprintf_cases (h : vsnprintf mem va (n + 1) s = some t) :
    (mem s.format = 0 ∧ s.format ∈ t.reads ∧ Advance s t 0 0) ∨
      ∃ u k, mem s.format ≠ 0 ∧ (mem s.format = ascii '%' → 1 ≤ k) ∧ Advance s u (k + 1) 1 ∧
        vsnprintf mem va n u = some t := by
  rw [vsnprintf] at h
  split_ifs at h with hzero hpercent
  · have hout : outChar 0 (peek mem s).2 = (peek mem s).2 := if_pos rfl
    refine Or.inl ⟨hzero, ?_, ?_⟩
    · rw [← Option.some.inj h, hout]
      exact List.mem_cons_self
    · rw [← Option.some.inj h, hout]
      exact advance_peek mem s
  · refine Or.inr ⟨_, 0, hzero, fun heq => absurd heq hpercent, ?_, h⟩
    refine ((advance_peek mem s).trans (advance_outChar _ _)).next ?_
    rw [outChar_reads]
    exact List.mem_cons_self
  · obtain ⟨u, hu, hrest⟩ := Option.bind_eq_some_iff.mp h
    obtain ⟨k, hk⟩ := advance_directive hu
    have hall := (advance_next mem s).trans hk
    rw [Nat.add_comm 1 (k + 1)] at hall
    exact Or.inr ⟨u, k + 1, hzero, fun _ => Nat.succ_pos k, hall, hrest⟩

/-- However far the loop gets, it only adds to the record. -/
theorem advance_vsnprintf (h : vsnprintf mem va n s = some t) : ∃ k m, Advance s t k m := by
  induction n generalizing s with
  | zero => exact absurd h (by simp [vsnprintf])
  | succ n ih =>
    rcases vsnprintf_cases h with ⟨-, -, hend⟩ | ⟨u, k, -, -, hround, hrest⟩
    · exact ⟨0, 0, hend⟩
    · obtain ⟨k', m', hk'⟩ := ih hrest
      exact ⟨_, _, hround.trans hk'⟩

/-- A format without conversions is sent as it is. -/
theorem vsnprintf_plain (va : ℕ → U64) (h : CString mem s.format l) (hl : ascii '%' ∉ l) :
    ∃ t, vsnprintf mem va (l.length + 1) s = some t ∧ t.sent = s.sent ++ l ∧ t.args = s.args ∧
      ∀ a ∈ t.reads, a ∈ s.reads ∨ Within s.format l.length a := by
  induction l generalizing s with
  | nil =>
    have hend : mem s.format = 0 := h
    refine ⟨(peek mem s).2, ?_, (List.append_nil _).symm, rfl, fun a ha => ?_⟩
    · rw [vsnprintf]
      exact if_pos hend
    · rcases List.mem_cons.mp ha with rfl | ha
      · exact Or.inr (within_self _ _)
      · exact Or.inl ha
  | cons c l ih =>
    obtain ⟨hc, hne, hrest⟩ := h
    have hpercent : c ≠ ascii '%' := fun heq => hl (heq ▸ List.mem_cons_self)
    obtain ⟨t, ht, hsent, hargs, hreads⟩ := ih (s := (outChar c (peek mem s).2).next)
      (by rw [State.next, outChar_format]; exact hrest) fun hmem => hl (List.mem_cons_of_mem c hmem)
    refine ⟨t, ?_, ?_, ?_, fun a ha => ?_⟩
    · rw [List.length_cons, vsnprintf]
      show (if mem s.format = 0 then _ else if mem s.format ≠ ascii '%' then
        vsnprintf mem va (l.length + 1) (outChar (mem s.format) (peek mem s).2).next
        else _) = some t
      rw [hc, if_neg hne, if_pos hpercent]
      exact ht
    · rw [hsent]
      show (outChar c (peek mem s).2).sent ++ l = s.sent ++ c :: l
      rw [outChar_sent, if_neg hne, List.append_assoc]
      rfl
    · rw [hargs]
      exact outChar_args c _
    · rcases hreads a ha with ha | ha
      · rcases List.mem_cons.mp (show a ∈ s.format :: s.reads by
          rwa [State.next, outChar_reads] at ha) with rfl | ha
        · exact Or.inr (within_self _ _)
        · exact Or.inl ha
      · rw [State.next, outChar_format] at ha
        exact Or.inr (Within.of_succ ha)

/-- If nothing but a string is read and no argument fetched, the bytes sent are at most those of
the string, and fewer if there is a conversion among them. -/
theorem vsnprintf_short (h : CString mem p l) (hlen : l.length + 1 < 2 ^ 64)
    (hi : i ≤ l.length + 1) (hformat : s.format = p + BitVec.ofNat 64 i)
    (hrun : vsnprintf mem va n s = some t) (hargs : t.args = s.args)
    (hreads : ∀ a ∈ t.reads, Within p l.length a) :
    i ≤ l.length ∧ ∃ new, t.sent = s.sent ++ new ∧ new.length ≤ l.length - i ∧
      (ascii '%' ∈ l.drop i → new.length < l.length - i) := by
  induction n generalizing s i with
  | zero => exact absurd hrun (by simp [vsnprintf])
  | succ n ih =>
    -- the byte behind the zero is never read
    have hin : ∀ j, i + j = l.length + 1 → s.format + BitVec.ofNat 64 j ∉ t.reads := by
      intro j hj hmem
      refine not_within_succ (p := p) hlen ?_
      rw [← hj, BitVec.ofNat_add, ← BitVec.add_assoc, ← hformat]
      exact hreads _ hmem
    rcases vsnprintf_cases hrun with ⟨hzero, hread, hend⟩ | ⟨u, k, hne, hpercent, hround, hrest⟩
    · have hle : i ≤ l.length := by
        by_contra hgt
        exact hin 0 (by omega) (by rwa [BitVec.add_zero])
      have heq : i = l.length := by
        by_contra hne
        rw [hformat] at hzero
        exact h.get_ne_zero (show i < l.length by omega) hzero
      obtain ⟨new, hnew, hshort⟩ := hend.sent hargs
      refine ⟨hle, new, hnew, by omega, fun hmem => ?_⟩
      rw [heq, List.drop_length] at hmem
      exact absurd hmem List.not_mem_nil
    · obtain ⟨_, _, hlater⟩ := advance_vsnprintf hrest
      have hmono := hround.args
      have hmono' := hlater.args
      have hnext : i + (k + 1) ≤ l.length + 1 := by
        by_contra hgt
        exact hin (l.length + 1 - i) (by omega)
          (hlater.reads _ (hround.read _ (by omega)))
      obtain ⟨hi', new', hnew', hlen', hfew⟩ := ih hnext
        (by rw [hround.format, hformat, BitVec.add_assoc, ← BitVec.ofNat_add]) hrest (by omega)
      obtain ⟨new, hnew, hone⟩ := hround.sent (by omega)
      refine ⟨by omega, new ++ new', by rw [hnew', hnew, List.append_assoc], ?_, fun hmem => ?_⟩
      · rw [List.length_append]
        omega
      · rw [List.length_append]
        rw [List.drop_eq_getElem_cons (show i < l.length by omega)] at hmem
        rcases List.mem_cons.mp hmem with hhere | hafter
        · have hk := hpercent (by rw [hformat, h.get (show i < l.length by omega), hhere])
          omega
        · rcases Nat.eq_zero_or_pos k with rfl | hk
          · have := hfew hafter
            omega
          · omega

end Printf
