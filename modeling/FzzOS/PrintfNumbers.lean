/-
# Printed numbers read back

What the integer conversions print is a numeral: spaces, a sign, zeros and digits.

* `readInt` : a reader of numerals that knows nothing of `printf.c`, and refuses all else;
* `readDigits_digits` : the digits are those of the value, as far as the buffer of 32 goes;
* `readInt_convInt` : whatever the flags, the width and the precision, it reads the number that
  was printed.
-/
import FzzOS.Printf
import Mathlib.Tactic.Ring

namespace Printf

variable {flags : Flags} {width prec : U32} {base value arg : U64} {buf cs : List U8} {c : U8}
  {n : ℕ} {uppercase negative : Bool}

/-! ## A reader -/

/-- The value of a digit, in whatever base. -/
def digitValue (c : U8) : Option ℕ :=
  if ascii '0' ≤ c ∧ c ≤ ascii '9' then some (c.toNat - 48)
  else if ascii 'A' ≤ c ∧ c ≤ ascii 'Z' then some (c.toNat - 55)
  else if ascii 'a' ≤ c ∧ c ≤ ascii 'z' then some (c.toNat - 87)
  else none

/-- The value of a digit of base `base`. -/
def readDigit (base : ℕ) (c : U8) : Option ℕ := (digitValue c).filter (· < base)

/-- The value of a row of digits, the last one first. -/
def readDigits (base : ℕ) : List U8 → Option ℕ
  | [] => some 0
  | c :: buf => do
    let digit ← readDigit base c
    let rest ← readDigits base buf
    pure (digit + base * rest)

/-- What is between the spaces in front and those behind. -/
def trim (cs : List U8) : List U8 :=
  ((cs.dropWhile (· = ascii ' ')).reverse.dropWhile (· = ascii ' ')).reverse

/-- A number between spaces, with or without a sign.  No digits are 0, which is printed so with
the precision 0. -/
def readInt (base : ℕ) (cs : List U8) : Option ℤ :=
  match trim cs with
  | [] => some 0
  | c :: cs =>
    if c = ascii '-' then (readDigits base cs.reverse).map fun n => -(n : ℤ)
    else if c = ascii '+' then (readDigits base cs.reverse).map fun n => (n : ℤ)
    else (readDigits base (c :: cs).reverse).map fun n => (n : ℤ)

/-- Spaces and signs are no digits. -/
theorem readDigit_of_notDigit {b : ℕ} (h : c = ascii ' ' ∨ c = ascii '-' ∨ c = ascii '+') :
    readDigit b c = none := by
  rcases h with rfl | rfl | rfl <;> rfl

/-- What is read as digits has neither spaces nor signs in it. -/
theorem not_mem_of_readDigits {b n : ℕ} (h : readDigits b buf = some n)
    (hc : c = ascii ' ' ∨ c = ascii '-' ∨ c = ascii '+') : c ∉ buf := by
  induction buf generalizing n with
  | nil => exact List.not_mem_nil
  | cons x buf ih =>
    obtain ⟨d, hd, hrest⟩ := Option.bind_eq_some_iff.mp h
    obtain ⟨k, hk, -⟩ := Option.bind_eq_some_iff.mp hrest
    refine List.not_mem_cons_of_ne_of_not_mem ?_ (ih hk)
    rintro rfl
    exact Option.some_ne_none d (hd.symm.trans (readDigit_of_notDigit hc))

example : readInt 8 [ascii '1', ascii '8'] = none ∧
    readInt 10 [ascii '1', ascii ' ', ascii '2'] = none := by decide

/-! ## Spaces -/

theorem dropWhile_spaces {l : List U8} (hl : ascii ' ' ∉ l) (k : ℕ) (r : List U8) (hne : l ≠ []) :
    (List.replicate k (ascii ' ') ++ (l ++ r)).dropWhile (· = ascii ' ') = l ++ r := by
  rw [List.dropWhile_append_of_pos fun x hx => by simpa using List.eq_of_mem_replicate hx]
  obtain ⟨x, l, rfl⟩ := List.exists_cons_of_ne_nil hne
  have hx : x ≠ ascii ' ' := fun heq => hl (heq ▸ List.mem_cons_self)
  exact List.dropWhile_cons_of_neg (by simpa using hx)

/-- The spaces around it do not matter. -/
theorem trim_spaces {l : List U8} (hl : ascii ' ' ∉ l) (j k : ℕ) :
    trim (.replicate j (ascii ' ') ++ (l ++ .replicate k (ascii ' '))) = l := by
  rcases eq_or_ne l [] with rfl | hne
  · rw [List.nil_append, List.replicate_append_replicate, trim, List.dropWhile_replicate]
    simp
  · have hback : (l ++ List.replicate k (ascii ' ')).reverse
        = .replicate k (ascii ' ') ++ (l.reverse ++ []) := by
      rw [List.reverse_append, List.reverse_replicate, List.append_nil]
    rw [trim, dropWhile_spaces hl _ _ hne, hback, dropWhile_spaces (by simpa using hl) _ _
      (by simpa using hne), List.append_nil, List.reverse_reverse]

/-- What `_out_rev` puts out is the buffer between spaces. -/
theorem outRev_eq (buf : List U8) (width : U32) (flags : Flags) : ∃ j k,
    outRev buf width flags
      = .replicate j (ascii ' ') ++ (buf.reverse ++ .replicate k (ascii ' ')) := by
  refine ⟨if !flags.left && !flags.zeropad then width.toNat - buf.length else 0,
    if flags.left then width.toNat - buf.length else 0, ?_⟩
  rw [outRev, List.append_assoc]
  split_ifs <;> rfl

/-- Without the spaces it is the buffer without its last spaces, which are printed first. -/
theorem trim_outRev {l : List U8} {k : ℕ} (hbuf : buf.reverse = .replicate k (ascii ' ') ++ l)
    (hl : ascii ' ' ∉ l) (width : U32) (flags : Flags) : trim (outRev buf width flags) = l := by
  obtain ⟨i, j, hout⟩ := outRev_eq buf width flags
  rw [hout, hbuf, List.append_assoc, ← List.append_assoc, List.replicate_append_replicate,
    trim_spaces hl]

/-! ## Digits -/

theorem digitChar_small : ∀ (uppercase : Bool), ∀ d < 16,
    digitValue (digitChar uppercase (BitVec.ofNat 64 d)) = some d := by
  decide

theorem readDigit_digitChar (uppercase : Bool) {d : U64} {b : ℕ} (hd : d.toNat < b) (hb : b ≤ 16) :
    readDigit b (digitChar uppercase d) = some d.toNat := by
  have hsmall := digitChar_small uppercase d.toNat (by omega)
  rw [BitVec.ofNat_toNat, BitVec.setWidth_eq] at hsmall
  rw [readDigit, hsmall]
  exact Option.filter_eq_some_iff.mpr ⟨rfl, by simpa using hd⟩

/-- **The digits** of a value. -/
theorem readDigits_digits (uppercase : Bool) (hbase : 2 ≤ base.toNat) (hbase' : base.toNat ≤ 16)
    (n : ℕ) (value : U64) : readDigits base.toNat (digits uppercase base n value)
      = some (value.toNat % base.toNat ^ n) := by
  induction n generalizing value with
  | zero =>
    rw [pow_zero, Nat.mod_one]
    rfl
  | succ n ih =>
    have hmod : (value % base).toNat = value.toNat % base.toNat := BitVec.toNat_umod
    have hdiv : (value / base).toNat = value.toNat / base.toNat := BitVec.toNat_udiv
    have hlt := Nat.mod_lt value.toNat (show 0 < base.toNat by omega)
    have hrest : readDigits base.toNat
        (if value / base = 0 then [] else digits uppercase base n (value / base))
          = some (value.toNat / base.toNat % base.toNat ^ n) := by
      split_ifs with hzero
      · rw [← hdiv, hzero]
        exact congrArg some (Nat.zero_mod _).symm
      · rw [ih, hdiv]
    rw [digits, readDigits, readDigit_digitChar uppercase (by omega) hbase', hrest, hmod, pow_succ',
      Nat.mod_mul]
    rfl

/-- There are no more digits than the value has. -/
theorem length_digits (uppercase : Bool) (n k : ℕ) (value : U64)
    (hvalue : value.toNat < base.toNat ^ (k + 1)) :
    (digits uppercase base n value).length ≤ k + 1 := by
  induction n generalizing value k with
  | zero => exact Nat.zero_le _
  | succ n ih =>
    rw [digits, List.length_cons]
    split_ifs with hzero
    · exact Nat.le_add_left 1 k
    · have hdiv : (value / base).toNat = value.toNat / base.toNat := BitVec.toNat_udiv
      cases k with
      | zero =>
        refine absurd ?_ hzero
        apply BitVec.eq_of_toNat_eq
        rw [hdiv, Nat.div_eq_of_lt (by rwa [zero_add, pow_one] at hvalue)]
        rfl
      | succ k =>
        refine Nat.succ_le_succ (ih k _ ?_)
        rw [hdiv]
        exact Nat.div_lt_of_lt_mul (by rwa [pow_succ'] at hvalue)

/-! ## The buffer -/

/-- Zeros in front change nothing. -/
theorem readDigits_append_zeros {b k : ℕ} (hb : 0 < b) :
    readDigits b (buf ++ .replicate k (ascii '0')) = readDigits b buf := by
  have hzero : readDigit b (ascii '0') = some 0 :=
    Option.filter_eq_some_iff.mpr ⟨rfl, by simpa using hb⟩
  induction buf with
  | nil =>
    induction k with
    | zero => rfl
    | succ k ih =>
      have hrest : readDigits b (.replicate k (ascii '0')) = some 0 := ih
      rw [List.nil_append, List.replicate_succ, readDigits, readDigits, hzero, hrest]
      rfl
  | cons c buf ih => rw [List.cons_append, readDigits, ih, readDigits]

theorem readDigits_padBuffer {b : ℕ} (hb : 0 < b) (buf : List U8) (len : U32) :
    readDigits b (padBuffer buf len) = readDigits b buf :=
  readDigits_append_zeros hb

theorem length_padBuffer_lt {len : U32} (h : buf.length < 32) (hlen : len.toNat < 32) :
    (padBuffer buf len).length < 32 := by
  rw [padBuffer, List.length_append, List.length_replicate, ntoaBufferSize]
  omega

/-- A numeral without a sign. -/
theorem readInt_plain {b k : ℕ} (hbuf : readDigits b buf = some k) (h : trim cs = buf.reverse) :
    readInt b cs = some (k : ℤ) := by
  have hmem : ∀ c ∈ buf.reverse, c ≠ ascii '-' ∧ c ≠ ascii '+' := fun c hc =>
    ⟨fun hminus => not_mem_of_readDigits hbuf (.inr (.inl hminus)) (List.mem_reverse.mp hc),
      fun hplus => not_mem_of_readDigits hbuf (.inr (.inr hplus)) (List.mem_reverse.mp hc)⟩
  rw [readInt, h]
  rw [← List.reverse_reverse buf] at hbuf
  cases hrev : buf.reverse with
  | nil =>
    rw [hrev] at hbuf
    obtain rfl := Option.some.inj hbuf
    rfl
  | cons c cs =>
    rw [hrev] at hbuf hmem
    obtain ⟨hminus, hplus⟩ := hmem c List.mem_cons_self
    exact (if_neg hminus).trans ((if_neg hplus).trans (by rw [hbuf]; rfl))

theorem readInt_minus {b k : ℕ} (hbuf : readDigits b buf = some k)
    (h : trim cs = ascii '-' :: buf.reverse) : readInt b cs = some (-(k : ℤ)) := by
  rw [readInt, h]
  refine (if_pos rfl).trans ?_
  rw [List.reverse_reverse, hbuf]
  rfl

theorem readInt_plus {b k : ℕ} (hbuf : readDigits b buf = some k)
    (h : trim cs = ascii '+' :: buf.reverse) : readInt b cs = some (k : ℤ) := by
  rw [readInt, h]
  refine (if_neg (by decide)).trans ((if_pos rfl).trans ?_)
  rw [List.reverse_reverse, hbuf]
  rfl

/-- The sign goes into the buffer last.  Only a minus needs its place. -/
theorem readInt_signed {b k : ℕ} (hbuf : readDigits b buf = some k)
    (hroom : negative = true → buf.length < 32) (width : U32) (flags : Flags) :
    readInt b (outRev (if negative then pushBuffer buf (ascii '-')
      else if flags.plus then pushBuffer buf (ascii '+')
      else if flags.space then pushBuffer buf (ascii ' ') else buf) width flags)
      = some (if negative then -(k : ℤ) else (k : ℤ)) := by
  have hspace : ascii ' ' ∉ buf.reverse := fun hmem =>
    not_mem_of_readDigits hbuf (Or.inl rfl) (List.mem_reverse.mp hmem)
  have hpush : ∀ c, buf.length < 32 → (pushBuffer buf c).reverse = c :: buf.reverse := by
    intro c hlt
    rw [pushBuffer, if_pos (show buf.length < ntoaBufferSize from hlt), List.reverse_concat]
  have hbare : trim (outRev buf width flags) = buf.reverse :=
    trim_outRev (k := 0) rfl hspace width flags
  have hsigned : ∀ c, c ≠ ascii ' ' → buf.length < 32 →
      trim (outRev (pushBuffer buf c) width flags) = c :: buf.reverse := fun c hc hlt =>
    trim_outRev (k := 0) (hpush c hlt) (List.not_mem_cons_of_ne_of_not_mem hc.symm hspace) width
      flags
  have hblank : buf.length < 32 →
      trim (outRev (pushBuffer buf (ascii ' ')) width flags) = buf.reverse := fun hlt =>
    trim_outRev (k := 1) (hpush _ hlt) hspace width flags
  have hfull : ∀ c, ¬ buf.length < 32 → pushBuffer buf c = buf := fun c h => if_neg h
  cases negative with
  | true => exact readInt_minus hbuf (hsigned _ (by decide) (hroom rfl))
  | false =>
    rw [if_neg Bool.false_ne_true, if_neg Bool.false_ne_true]
    by_cases hlt : buf.length < 32
    · split_ifs
      · exact readInt_plus hbuf (hsigned _ (by decide) hlt)
      · exact readInt_plain hbuf (hblank hlt)
      · exact readInt_plain hbuf hbare
    · rw [hfull _ hlt, hfull _ hlt]
      split_ifs <;> exact readInt_plain hbuf hbare

/-! ## Conversions -/

/-- There is room for a sign before the zeros. -/
def SignFits (flags : Flags) (prec width : U32) : Prop :=
  flags.left = true ∨ prec.toNat < 32 ∧ (flags.zeropad = true → width.toNat ≤ 32)

/-- **`_ntoa_format`** without a prefix. -/
theorem readInt_ntoaFormat {k : ℕ} (hbase : 0 < base.toNat) (hhash : flags.hash = false)
    (hbuf : readDigits base.toNat buf = some k)
    (hroom : negative = true → buf.length < 32 ∧ SignFits flags prec width) :
    readInt base.toNat (ntoaFormat buf negative base prec width flags)
      = some (if negative then -(k : ℤ) else (k : ℤ)) := by
  rw [ntoaFormat]
  simp only [hhash, Bool.false_and, Bool.false_eq_true, if_false]
  generalize hwidth : (if (!flags.left && width != 0 && flags.zeropad
    && (negative || flags.plus || flags.space)) = true then width - 1 else width) = width'
  generalize hfirst : (if flags.left = true then buf else padBuffer buf prec) = first
  generalize hsecond : (if (!flags.left && flags.zeropad) = true then padBuffer first width'
    else first) = body
  have hbody : readDigits base.toNat body = some k := by
    rw [← hbuf, ← hsecond, ← hfirst]
    split_ifs <;> simp only [readDigits_padBuffer hbase]
  have hbodyRoom : negative = true → body.length < 32 := by
    intro hneg
    obtain ⟨hlen, hfits⟩ := hroom hneg
    rw [← hsecond, ← hfirst]
    cases hleft : flags.left with
    | true => simpa using hlen
    | false =>
      obtain ⟨hprec, hzeros⟩ := hfits.resolve_left (by simp [hleft])
      have hpadded := length_padBuffer_lt hlen hprec
      cases hzero : flags.zeropad with
      | false => simpa using hpadded
      | true =>
        have hle := hzeros hzero
        have hlt : width'.toNat < 32 := by
          rw [← hwidth, hleft, hzero, hneg]
          by_cases hnone : width = 0
          · rw [if_neg (by simp [hnone]), hnone]
            decide
          · have hpos : width.toNat ≠ 0 := fun h => hnone (BitVec.eq_of_toNat_eq h)
            rw [if_pos (by simpa using hnone)]
            bv_omega
        simpa using length_padBuffer_lt hpadded hlt
  exact readInt_signed hbody hbodyRoom width' flags

/-- **`_ntoa_long`** without a prefix. -/
theorem readInt_ntoaLong (hbase : 2 ≤ base.toNat) (hbase' : base.toNat ≤ 16)
    (hhash : flags.hash = false) (hvalue : value.toNat < base.toNat ^ 32)
    (hroom : negative = true → value.toNat < base.toNat ^ 31 ∧ SignFits flags prec width) :
    readInt base.toNat (ntoaLong value negative base prec width flags)
      = some (if negative then -(value.toNat : ℤ) else value.toNat) := by
  have hflags : (if value = 0 then { flags with hash := false } else flags) = flags := by
    split
    · rw [← hhash]
    · rfl
  have hpos : 0 < base.toNat := by omega
  rw [ntoaLong, hflags]
  by_cases hsome : (!flags.precision || value != 0) = true
  · have hdigits := readDigits_digits flags.uppercase hbase hbase' ntoaBufferSize value
    rw [ntoaBufferSize, Nat.mod_eq_of_lt hvalue] at hdigits
    rw [if_pos hsome]
    exact readInt_ntoaFormat hpos hhash hdigits fun hneg =>
      ⟨Nat.lt_succ_of_le (length_digits _ _ 30 _ (hroom hneg).1), (hroom hneg).2⟩
  · have hzero : value = 0 := by
      rw [Bool.or_eq_true, not_or] at hsome
      simpa using hsome.2
    rw [if_neg hsome, hzero]
    exact readInt_ntoaFormat hpos hhash rfl fun hneg => ⟨by decide, (hroom hneg).2⟩

/-- A number in two's complement is its sign and its magnitude. -/
theorem toInt_eq_magnitude {w : ℕ} (x : BitVec w) :
    (if x.msb then -((magnitude x).toNat : ℤ) else (magnitude x).toNat) = x.toInt := by
  rw [magnitude, BitVec.toInt_eq_msb_cond]
  cases hmsb : x.msb with
  | false => rfl
  | true =>
    have hpos : 0 < x.toNat := by
      rw [BitVec.msb_eq_true_iff_two_mul_ge] at hmsb
      by_contra hzero
      have := Nat.two_pow_pos w
      omega
    have hlt := x.isLt
    simp only [if_true, BitVec.toNat_neg]
    rw [Nat.mod_eq_of_lt (by omega)]
    push_cast [Nat.cast_sub hlt.le]
    ring

/-- The number an integer conversion is for. -/
def convValue (c : U8) (flags : Flags) (arg : U64) : ℤ :=
  if c = ascii 'd' ∨ c = ascii 'i' then
    if flags.longLong || flags.long then arg.toInt
    else if flags.char then (arg.setWidth 8).toInt
    else if flags.short then (arg.setWidth 16).toInt else (arg.setWidth 32).toInt
  else (unsignedArg flags arg).toNat

/-- The base of its numeral. -/
def convBase (c : U8) : ℕ :=
  if c = ascii 'x' ∨ c = ascii 'X' then 16 else if c = ascii 'o' then 8
    else if c = ascii 'b' then 2 else 10

/-! ## Signed arguments -/

/-- The sign and the magnitude of an argument are its value. -/
theorem toInt_signedArg (flags : Flags) (arg : U64) :
    (if (signedArg flags arg).1 then -((signedArg flags arg).2.toNat : ℤ)
      else (signedArg flags arg).2.toNat)
      = if flags.longLong || flags.long then arg.toInt
        else if flags.char then (arg.setWidth 8).toInt
        else if flags.short then (arg.setWidth 16).toInt else (arg.setWidth 32).toInt := by
  have hwide : ∀ value : U32, (if value.msb then -(((magnitude value).setWidth 64).toNat : ℤ)
      else ((magnitude value).setWidth 64).toNat) = value.toInt := fun value => by
    rw [BitVec.toNat_setWidth_of_le (by decide)]
    exact toInt_eq_magnitude value
  rw [signedArg]
  by_cases hlong : (flags.longLong || flags.long) = true
  · rw [if_pos hlong, if_pos hlong]
    exact toInt_eq_magnitude arg
  · rw [if_neg hlong, if_neg hlong]
    refine (hwide _).trans ?_
    split_ifs
    · exact BitVec.toInt_signExtend_of_le (by decide)
    · exact BitVec.toInt_signExtend_of_le (by decide)
    · rfl

theorem magnitude_pos {w : ℕ} {x : BitVec w} (h : x.msb = true) : 0 < (magnitude x).toNat := by
  have hvalue := toInt_eq_magnitude x
  have hneg : x.toInt < 0 := by
    rw [BitVec.msb_eq_toInt] at h
    exact of_decide_eq_true h
  rw [if_pos h] at hvalue
  omega

theorem signedArg_pos (h : (signedArg flags arg).1 = true) :
    0 < (signedArg flags arg).2.toNat := by
  rw [signedArg] at h ⊢
  by_cases hlong : (flags.longLong || flags.long) = true
  · rw [if_pos hlong] at h ⊢
    exact magnitude_pos h
  · rw [if_neg hlong] at h ⊢
    rw [BitVec.toNat_setWidth_of_le (by decide)]
    exact magnitude_pos h

/-! ## The conversions -/

/-- The flags with which a numeral is written. -/
def convFlags (c : U8) (flags : Flags) : Flags :=
  let flags := if c = ascii 'd' ∨ c = ascii 'i' ∨ c = ascii 'u' then { flags with hash := false }
    else flags
  let flags := if c = ascii 'X' then { flags with uppercase := true } else flags
  let flags := if c = ascii 'd' ∨ c = ascii 'i' then flags
    else { flags with plus := false, space := false }
  if flags.precision then { flags with zeropad := false } else flags

/-- The base, as it is passed on. -/
def baseArg (c : U8) : U64 :=
  if c = ascii 'x' ∨ c = ascii 'X' then 16 else if c = ascii 'o' then 8
    else if c = ascii 'b' then 2 else 10

/-- The side and the length are those of the directive. -/
theorem convFlags_frame (c : U8) (flags : Flags) :
    (convFlags c flags).left = flags.left ∧ (convFlags c flags).char = flags.char ∧
      (convFlags c flags).short = flags.short ∧ (convFlags c flags).long = flags.long ∧
      (convFlags c flags).longLong = flags.longLong := by
  simp only [convFlags]
  split_ifs <;> exact ⟨rfl, rfl, rfl, rfl, rfl⟩

theorem signedArg_convFlags (c : U8) (flags : Flags) (arg : U64) :
    signedArg (convFlags c flags) arg = signedArg flags arg := by
  obtain ⟨-, hchar, hshort, hlong, hlongLong⟩ := convFlags_frame c flags
  rw [signedArg, signedArg, hchar, hshort, hlong, hlongLong]

theorem unsignedArg_convFlags (c : U8) (flags : Flags) (arg : U64) :
    unsignedArg (convFlags c flags) arg = unsignedArg flags arg := by
  obtain ⟨-, hchar, hshort, hlong, hlongLong⟩ := convFlags_frame c flags
  rw [unsignedArg, unsignedArg, hchar, hshort, hlong, hlongLong]

theorem convInt_eq (c : U8) (flags : Flags) (width prec : U32) (arg : U64) :
    convInt c flags width prec arg
      = if c = ascii 'd' ∨ c = ascii 'i' then
          ntoaLong (signedArg flags arg).2 (signedArg flags arg).1 (baseArg c) prec width
            (convFlags c flags)
        else ntoaLong (unsignedArg flags arg) false (baseArg c) prec width (convFlags c flags) := by
  have hconv : convInt c flags width prec arg
      = if c = ascii 'd' ∨ c = ascii 'i' then
          ntoaLong (signedArg (convFlags c flags) arg).2 (signedArg (convFlags c flags) arg).1
            (baseArg c) prec width (convFlags c flags)
        else ntoaLong (unsignedArg (convFlags c flags) arg) false (baseArg c) prec width
          (convFlags c flags) := rfl
  rw [hconv, signedArg_convFlags, unsignedArg_convFlags]

theorem convFlags_zeropad (c : U8) (flags : Flags) :
    (convFlags c flags).zeropad = (flags.zeropad && !flags.precision) := by
  simp only [convFlags]
  split_ifs <;> simp_all

theorem convFlags_hash
    (h : flags.hash = true → c = ascii 'd' ∨ c = ascii 'i' ∨ c = ascii 'u') :
    (convFlags c flags).hash = false := by
  simp only [convFlags]
  split_ifs <;> simp_all

theorem toNat_baseArg (c : U8) : (baseArg c).toNat = convBase c := by
  rw [baseArg, convBase]
  split_ifs <;> rfl

theorem convBase_bounds (c : U8) : 2 ≤ convBase c ∧ convBase c ≤ 16 := by
  rw [convBase]
  split_ifs <;> decide

/-- 32 digits are enough for every base but 2. -/
theorem lt_convBase_pow (hc : c ≠ ascii 'b') (value : U64) : value.toNat < convBase c ^ 32 := by
  have hroom : 2 ^ 64 ≤ convBase c ^ 32 := by
    rw [convBase, if_neg hc]
    split_ifs <;> decide
  exact value.isLt.trans_le hroom

/-- **Printed numbers are read back**: whatever the width, the precision and the flags but `#`, a
number in binary of at most 32 digits and any other number.  If it is negative its sign needs
room behind the zeros. -/
theorem readInt_convInt
    (hhash : flags.hash = true → c = ascii 'd' ∨ c = ascii 'i' ∨ c = ascii 'u')
    (hbinary : c = ascii 'b' → (unsignedArg flags arg).toNat < 2 ^ 32)
    (hroom : convValue c flags arg < 0 →
      SignFits { flags with zeropad := flags.zeropad && !flags.precision } prec width) :
    readInt (convBase c) (convInt c flags width prec arg) = some (convValue c flags arg) := by
  have hbase : 2 ≤ (baseArg c).toNat ∧ (baseArg c).toNat ≤ 16 := by
    rw [toNat_baseArg]
    exact convBase_bounds c
  rw [convInt_eq, convValue, ← toNat_baseArg]
  by_cases hsigned : c = ascii 'd' ∨ c = ascii 'i'
  · have hten : baseArg c = 10 := by rcases hsigned with rfl | rfl <;> rfl
    have hvalue := toInt_signedArg flags arg
    rw [if_pos hsigned, if_pos hsigned, ← hvalue]
    refine readInt_ntoaLong hbase.1 hbase.2 (convFlags_hash hhash) ?_ fun hneg => ⟨?_, ?_⟩
    · exact (signedArg flags arg).2.isLt.trans (by rw [hten]; decide)
    · exact (signedArg flags arg).2.isLt.trans (by rw [hten]; decide)
    · have hbelow : convValue c flags arg < 0 := by
        have hpos := signedArg_pos hneg
        rw [convValue, if_pos hsigned, ← hvalue, if_pos hneg]
        omega
      have hfits := hroom hbelow
      rw [SignFits] at hfits ⊢
      rwa [(convFlags_frame c flags).1, convFlags_zeropad]
  · rw [if_neg hsigned, if_neg hsigned, readInt_ntoaLong hbase.1 hbase.2 (convFlags_hash hhash)]
    · exact congrArg some (if_neg Bool.false_ne_true)
    · rw [toNat_baseArg]
      by_cases hc : c = ascii 'b'
      · rw [hc] at hbinary ⊢
        exact hbinary rfl
      · exact lt_convBase_pow hc _
    · exact fun hneg => absurd hneg Bool.false_ne_true

/-- A negative number with zeros in front. -/
theorem readInt_convInt_minusFive :
    readInt 10 (convInt (ascii 'd') { Flags.none with zeropad := true } 6 0 (-5)) = some (-5) := by
  have hread : readInt (convBase (ascii 'd'))
      (convInt (ascii 'd') { Flags.none with zeropad := true } 6 0 (-5))
        = some (convValue (ascii 'd') { Flags.none with zeropad := true } (-5)) :=
    readInt_convInt (by decide) (by decide) fun _ => Or.inr ⟨by decide, fun _ => by decide⟩
  exact hread.trans (by decide)

end Printf
