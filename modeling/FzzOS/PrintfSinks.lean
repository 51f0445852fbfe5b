/-
# Where formatted output goes

`_vsnprintf` hands its characters to an output function, one by one and with an index.  It is the
same interpreter for `printf_`, `snprintf_` and `fctprintf`, and it reads its format and strings
from a memory that the output function may be writing to.

* `Sink` : an output function with what it works on; `outNull`, `outFct`, `outBuffer` : those of
  the code.  `_out_char` is `_out_fct` with `_putchar`;
* `vsnprintfTo` : `_vsnprintf` with any of them;
* `vsnprintfTo_mirror` : as long as no byte that is read is written, the characters, the
  arguments and the returned value are those of a run without any output;
* `vsnprintf_eq` : with `_putchar` they are those of the interpreter for `printf_`;
* `fctprintf_spec`, `snprintf_spec` : what `fctprintf` calls and `snprintf_` leaves in memory.

The field `sent` of a state is here the list of all characters, zeros included.
-/
import FzzOS.ByteFields
import FzzOS.Printf

open ByteFields

namespace Printf

/-! ## Output functions -/

/-- An output function on what it works on, which the interpreter reads memory from. -/
structure Sink (ω : Type) where
  mem : ω → U64 → U8
  out : U8 → U64 → ω → ω

/-- `_out_null`. -/
abbrev outNull (mem : U64 → U8) : Sink Unit := ⟨fun _ => mem, fun _ _ _ => ()⟩

/-- `_out_fct`.  With `_putchar` for the function it is `_out_char`. -/
def outFct {ω : Type} (mem : ω → U64 → U8) (fct : U8 → ω → ω) : Sink ω :=
  ⟨mem, fun c _ w => if c = 0 then w else fct c w⟩

/-- `_out_buffer`. -/
def outBuffer (buffer maxlen : U64) : Sink (U64 → U8) :=
  ⟨id, fun c idx mem => if idx < maxlen then Function.update mem (buffer + idx) c else mem⟩

/-! ## The interpreter -/

/-- The interpreter at work: where it is, the index of the next character, all characters so far,
and the world. -/
structure Job (ω : Type) where
  state : State
  idx : U64
  log : List U8
  world : ω

variable {ω : Type} (k : Sink ω) (va : ℕ → U64)

/-- `out(c, buffer, idx++, maxlen)`. -/
def emit (c : U8) (j : Job ω) : Job ω :=
  ⟨outChar c j.state, j.idx + 1, j.log ++ [c], k.out c j.idx j.world⟩

/-- Some characters, one after the other. -/
def emitAll (cs : List U8) (j : Job ω) : Job ω := cs.foldl (fun j c => emit k c j) j

/-- `format++`. -/
def Job.next (j : Job ω) : Job ω := { j with state := j.state.next }

/-- The loop of `%s` over the string, and the addresses read. -/
def stringLoopTo : ℕ → Option ℕ → U64 → Job ω → Option (Job ω × List U64)
  | 0, _, _, _ => none
  | n + 1, prec, p, j =>
    let c := k.mem j.world p
    if c = 0 then some (j, [p])
    else if prec = some 0 then some (j, [p])
    else (stringLoopTo n (prec.map (· - 1)) (p + 1) (emit k c j)).map fun r => (r.1, p :: r.2)

/-- `%s`. -/
def convStringTo (n : ℕ) (flags : Flags) (width prec : U32) (j : Job ω) : Option (Job ω) := do
  let p := vaArg va j.state
  let len := strnlen (k.mem j.world) (if prec = 0 then 2 ^ 64 - 1 else prec.toNat) p.1
  let l := if flags.precision then min (len.1 % 2 ^ 32) prec.toNat else len.1 % 2 ^ 32
  let spaces := List.replicate (width.toNat - l) (ascii ' ')
  let j := { j with state := p.2 }
  let j := if flags.left then j else emitAll k spaces j
  let r ← stringLoopTo k n (if flags.precision then some prec.toNat else none) p.1 j
  let j := if flags.left then emitAll k spaces r.1 else r.1
  some { j with state := { j.state with reads := len.2 ++ r.2 ++ j.state.reads } }

/-- `%c`. -/
def convCharTo (flags : Flags) (width : U32) (j : Job ω) : Job ω :=
  let c := vaArg va j.state
  let spaces := List.replicate (width.toNat - 1) (ascii ' ')
  emitAll k (if flags.left then c.1.setWidth 8 :: spaces else spaces ++ [c.1.setWidth 8])
    { j with state := c.2 }

local instance (c : U8) : Decidable (c ∈ intConversions) :=
  decidable_of_iff (intConversions.contains c = true) List.contains_iff_mem

/-- The conversion itself. -/
def convertTo (n : ℕ) (flags : Flags) (width prec : U32) (j : Job ω) : Option (Job ω) :=
  let c := peek (k.mem j.world) j.state
  let j := { j with state := c.2 }
  if c.1 ∈ intConversions then
    let arg := vaArg va j.state
    some (emitAll k (convInt c.1 flags width prec arg.1) { j with state := arg.2 }).next
  else if c.1 = ascii 'c' then some (convCharTo k va flags width j).next
  else if c.1 = ascii 's' then (convStringTo k va n flags width prec j).map Job.next
  else if c.1 = ascii 'p' then
    let arg := vaArg va j.state
    let flags := { flags with zeropad := true, uppercase := true }
    some (emitAll k (ntoaLong arg.1 false 16 prec 16 flags) { j with state := arg.2 }).next
  else some (emit k c.1 j).next

/-- A conversion, from behind its `%` on. -/
def directiveTo (n : ℕ) (j : Job ω) : Option (Job ω) := do
  let mem := k.mem j.world
  let f ← readFlags mem n Flags.none j.state
  let w ← readWidth mem va n f.1 f.2
  let p ← readPrecision mem va n w.1 w.2.2
  let l := readLength mem p.1 p.2.2
  convertTo k va n l.1 w.2.1 p.2.1 { j with state := l.2 }

/-- The terminating zero.  It is not counted. -/
def terminate (maxlen : U64) (j : Job ω) : Job ω :=
  { j with world := k.out 0 (if j.idx < maxlen then j.idx else maxlen - 1) j.world }

/-- `_vsnprintf`. -/
def vsnprintfTo (maxlen : U64) : ℕ → Job ω → Option (Job ω)
  | 0, _ => none
  | n + 1, j =>
    let c := peek (k.mem j.world) j.state
    let j := { j with state := c.2 }
    if c.1 = 0 then some (terminate k maxlen j)
    else if c.1 ≠ ascii '%' then vsnprintfTo maxlen n (emit k c.1 j).next
    else (directiveTo k va n j.next).bind (vsnprintfTo maxlen n)

/-- The value `_vsnprintf` returns. -/
def Job.ret (j : Job ω) : U32 := j.idx.setWidth 32

/-- `fctprintf`.  With `_putchar` it is `printf_` and `vprintf_`. -/
def fctprintf (mem : ω → U64 → U8) (fct : U8 → ω → ω) (n : ℕ) (format : U64) (w : ω) :
    Option (Job ω) :=
  vsnprintfTo (outFct mem fct) va (-1) n ⟨start format, 0, [], w⟩

/-- `vsnprintf_` and `snprintf_`.  Without a buffer there is no output. -/
def snprintf (buffer count : U64) (n : ℕ) (format : U64) (mem : U64 → U8) :
    Option (U32 × (U64 → U8)) :=
  if buffer = 0 then
    (vsnprintfTo (outNull mem) va count n ⟨start format, 0, [], ()⟩).map fun j => (j.ret, mem)
  else
    (vsnprintfTo (outBuffer buffer count) va count n ⟨start format, 0, [], mem⟩).map fun j =>
      (j.ret, j.world)

/-- `sprintf_`. -/
def sprintf (buffer : U64) (n : ℕ) (format : U64) (mem : U64 → U8) :
    Option (U32 × (U64 → U8)) :=
  snprintf va buffer (-1) n format mem

/-- **A dry run**, without any output. -/
def dryRun (mem : U64 → U8) (n : ℕ) (format : U64) : Option (Job Unit) :=
  vsnprintfTo (outNull mem) va 0 n ⟨start format, 0, [], ()⟩

/-! ## With `_putchar` it is the interpreter for `printf_` -/

variable {k va} {mem mem' : U64 → U8} {n : ℕ} {flags flags' : Flags} {width prec x y : U32}
  {j : Job ω} {s t : State} {cs : List U8} {c : U8} {p : U64}

@[simp] theorem emit_state (k : Sink ω) (c : U8) (j : Job ω) :
    (emit k c j).state = outChar c j.state := rfl

@[simp] theorem next_state (j : Job ω) : j.next.state = j.state.next := rfl

@[simp] theorem emitAll_state (k : Sink ω) (cs : List U8) (j : Job ω) :
    (emitAll k cs j).state = outAll cs j.state := by
  induction cs generalizing j with
  | nil => rfl
  | cons c cs ih => exact ih (emit k c j)

theorem emitAll_cons (k : Sink ω) (c : U8) (cs : List U8) (j : Job ω) :
    emitAll k (c :: cs) j = emitAll k cs (emit k c j) := rfl

theorem emitAll_append (k : Sink ω) (cs ds : List U8) (j : Job ω) :
    emitAll k (cs ++ ds) j = emitAll k ds (emitAll k cs j) := List.foldl_append

theorem outAll_append (cs ds : List U8) (s : State) :
    outAll (cs ++ ds) s = outAll ds (outAll cs s) := List.foldl_append

/-- What is sent does not depend on what was read. -/
theorem outAll_reads (cs : List U8) (s : State) (l : List U64) :
    outAll cs { s with reads := l } = { outAll cs s with reads := l } := by
  induction cs generalizing s with
  | nil => rfl
  | cons c cs ih =>
    have hone : outChar c { s with reads := l } = { outChar c s with reads := l } := by
      rw [outChar, outChar]
      split <;> rfl
    exact (congrArg (outAll cs) hone).trans (ih _)

/-- Without output the memory stays as it is. -/
theorem stringLoopTo_null (mem : U64 → U8) (n : ℕ) (prec : Option ℕ) (p : U64) (j : Job Unit) :
    stringLoopTo (outNull mem) n prec p j
      = (stringLoop mem n prec p).map fun r => (emitAll (outNull mem) r.1 j, r.2) := by
  induction n generalizing prec p j with
  | zero => rfl
  | succ n ih =>
    rw [stringLoopTo, stringLoop]
    by_cases hzero : mem p = 0
    · rw [if_pos hzero, if_pos hzero]
      rfl
    · rw [if_neg hzero, if_neg hzero]
      by_cases hprec : prec = some 0
      · rw [if_pos hprec, if_pos hprec]
        rfl
      · rw [if_neg hprec, if_neg hprec, ih, Option.map_map, Option.map_map]
        rfl

/-- The addresses read in a string are added at its end. -/
theorem with_reads (cs : List U8) (s : State) (l : List U64) :
    { outAll cs s with reads := l ++ (outAll cs s).reads }
      = outAll cs { s with reads := l ++ s.reads } := by
  rw [(outAll_frame cs s).2.2]
  exact (outAll_reads cs s _).symm

theorem convStringTo_state (mem : U64 → U8) (va : ℕ → U64) (n : ℕ) (flags : Flags)
    (width prec : U32) (j : Job Unit) :
    (convStringTo (outNull mem) va n flags width prec j).map Job.state
      = convString mem va n flags width prec j.state := by
  simp only [convStringTo, convString, stringLoopTo_null, Option.bind_eq_bind]
  cases stringLoop mem n _ _ with
  | none => rfl
  | some r =>
    cases flags.left with
    | true =>
      simp only [if_true, Option.map_some, Option.bind_some, emitAll_state, ← outAll_append,
        with_reads]
    | false =>
      simp only [Bool.false_eq_true, if_false, Option.map_some, Option.bind_some, emitAll_state,
        ← outAll_append, with_reads]

theorem convertTo_state (mem : U64 → U8) (va : ℕ → U64) (n : ℕ) (flags : Flags)
    (width prec : U32) (j : Job Unit) :
    (convertTo (outNull mem) va n flags width prec j).map Job.state
      = convert mem va n flags width prec j.state := by
  rw [convertTo, convert]
  split_ifs
  · simp only [Option.map_some, next_state, emitAll_state]
  · simp only [convCharTo, convChar, Option.map_some, next_state, emitAll_state]
  · have hstring := convStringTo_state mem va n flags width prec
      { j with state := (peek mem j.state).2 }
    refine Eq.trans ?_ (congrArg (Option.map State.next) hstring)
    rw [Option.map_map, Option.map_map]
    rfl
  · simp only [Option.map_some, next_state, emitAll_state]
  · rfl

theorem directiveTo_state (mem : U64 → U8) (va : ℕ → U64) (n : ℕ) (j : Job Unit) :
    (directiveTo (outNull mem) va n j).map Job.state = directive mem va n j.state := by
  simp only [directiveTo, directive, Option.bind_eq_bind, Option.map_bind, Function.comp_def]
  refine Option.bind_congr fun f _ => Option.bind_congr fun w _ => Option.bind_congr fun q _ => ?_
  exact convertTo_state mem va n _ _ _ _

/-- **The same interpreter.**  A dry run goes where `printf_` goes. -/
theorem vsnprintf_eq (mem : U64 → U8) (va : ℕ → U64) (maxlen : U64) (n : ℕ) (j : Job Unit) :
    (vsnprintfTo (outNull mem) va maxlen n j).map Job.state = vsnprintf mem va n j.state := by
  induction n generalizing j with
  | zero => rfl
  | succ n ih =>
    rw [vsnprintfTo, vsnprintf]
    split_ifs with hzero hpercent
    · exact congrArg some (if_pos rfl).symm
    · exact ih _
    · have hconv := directiveTo_state mem va n { j with state := (peek mem j.state).2.next }
      rw [Option.map_bind, ← hconv, Option.bind_map]
      exact Option.bind_congr fun u _ => ih u

/-! ## What is read is all that matters -/

theorem peek_congr (h : mem' s.format = mem s.format) : peek mem' s = peek mem s := by
  rw [peek, peek, h]

theorem readFlags_congr (h : readFlags mem n flags s = some (flags', t))
    (hmem : ∀ a ∈ t.reads, mem' a = mem a) : readFlags mem' n flags s = some (flags', t) := by
  induction n generalizing flags s with
  | zero => exact absurd h (by simp [readFlags])
  | succ n ih =>
    have hread : s.format ∈ t.reads := by
      rw [readFlags] at h
      split at h
      · obtain ⟨_, hrest⟩ := advance_readFlags h
        exact hrest.reads _ List.mem_cons_self
      · obtain ⟨-, rfl⟩ := Prod.mk.inj (Option.some.inj h)
        exact List.mem_cons_self
    rw [readFlags] at h ⊢
    rw [peek_congr (hmem _ hread)]
    split at h
    · exact ih h
    · exact h

theorem atoi_congr (h : atoi mem n x s = some (y, t)) (hmem : ∀ a ∈ t.reads, mem' a = mem a) :
    atoi mem' n x s = some (y, t) := by
  induction n generalizing x s with
  | zero => exact absurd h (by simp [atoi])
  | succ n ih =>
    have hread : s.format ∈ t.reads := by
      rw [atoi] at h
      split at h
      · obtain ⟨_, hrest⟩ := advance_atoi h
        exact hrest.reads _ List.mem_cons_self
      · obtain ⟨-, rfl⟩ := Prod.mk.inj (Option.some.inj h)
        exact List.mem_cons_self
    rw [atoi] at h ⊢
    rw [peek_congr (hmem _ hread)]
    split_ifs at h ⊢ with hdigit
    · exact ih h
    · exact h

theorem mem_reads_readWidth (h : readWidth mem va n flags s = some (flags', x, t)) :
    s.format ∈ t.reads := by
  rw [readWidth] at h
  dsimp only at h
  split_ifs at h
  · obtain ⟨r, hr, heq⟩ := Option.map_eq_some_iff.mp h
    simp only [Prod.mk.injEq] at heq
    obtain ⟨-, -, rfl⟩ := heq
    obtain ⟨_, hrest⟩ := advance_atoi hr
    exact hrest.reads _ List.mem_cons_self
  all_goals
    simp only [Option.some.injEq, Prod.mk.injEq] at h
    obtain ⟨-, -, rfl⟩ := h
    exact List.mem_cons_self

theorem readWidth_congr (h : readWidth mem va n flags s = some (flags', x, t))
    (hmem : ∀ a ∈ t.reads, mem' a = mem a) : readWidth mem' va n flags s = some (flags', x, t) := by
  have hread := mem_reads_readWidth h
  rw [readWidth] at h ⊢
  rw [peek_congr (hmem _ hread)]
  dsimp only at h ⊢
  by_cases hdigit : isDigit (peek mem s).1 = true
  · rw [if_pos hdigit] at h ⊢
    obtain ⟨⟨z, u⟩, hr, heq⟩ := Option.map_eq_some_iff.mp h
    simp only [Prod.mk.injEq] at heq
    obtain ⟨rfl, rfl, rfl⟩ := heq
    rw [atoi_congr hr hmem]
    rfl
  · rw [if_neg hdigit] at h ⊢
    exact h

/-- A precision is read at its point and at the byte behind it. -/
theorem mem_reads_readPrecision (h : readPrecision mem va n flags s = some (flags', x, t)) :
    s.format ∈ t.reads ∧ (mem s.format = ascii '.' → s.format + 1 ∈ t.reads) := by
  rw [readPrecision] at h
  dsimp only at h
  split_ifs at h with hdot
  · obtain ⟨r, hr, heq⟩ := Option.map_eq_some_iff.mp h
    simp only [Prod.mk.injEq] at heq
    obtain ⟨-, -, rfl⟩ := heq
    obtain ⟨_, hrest⟩ := advance_atoi hr
    exact ⟨hrest.reads _ (List.mem_cons_of_mem _ List.mem_cons_self),
      fun _ => hrest.reads _ List.mem_cons_self⟩
  all_goals
    simp only [Option.some.injEq, Prod.mk.injEq] at h
    obtain ⟨-, -, rfl⟩ := h
  · exact ⟨List.mem_cons_of_mem _ List.mem_cons_self, fun _ => List.mem_cons_self⟩
  · exact ⟨List.mem_cons_of_mem _ List.mem_cons_self, fun _ => List.mem_cons_self⟩
  · exact ⟨List.mem_cons_of_mem _ List.mem_cons_self, fun _ => List.mem_cons_self⟩
  · exact ⟨List.mem_cons_self, fun heq => absurd heq hdot⟩

theorem readPrecision_congr (h : readPrecision mem va n flags s = some (flags', x, t))
    (hmem : ∀ a ∈ t.reads, mem' a = mem a) :
    readPrecision mem' va n flags s = some (flags', x, t) := by
  obtain ⟨hread, hnext⟩ := mem_reads_readPrecision h
  rw [readPrecision] at h ⊢
  rw [peek_congr (hmem _ hread)]
  dsimp only at h ⊢
  by_cases hdot : (peek mem s).1 = ascii '.'
  · rw [if_pos hdot] at h ⊢
    rw [peek_congr (s := (peek mem s).2.next) (hmem _ (hnext hdot))]
    by_cases hdigit : isDigit (peek mem (peek mem s).2.next).1 = true
    · rw [if_pos hdigit] at h ⊢
      obtain ⟨⟨z, u⟩, hr, heq⟩ := Option.map_eq_some_iff.mp h
      simp only [Prod.mk.injEq] at heq
      obtain ⟨rfl, rfl, rfl⟩ := heq
      rw [atoi_congr hr hmem]
      rfl
    · rw [if_neg hdigit] at h ⊢
      exact h
  · rw [if_neg hdot] at h ⊢
    exact h

theorem readLength_congr (hmem : ∀ a ∈ (readLength mem flags s).2.reads, mem' a = mem a) :
    readLength mem' flags s = readLength mem flags s := by
  have hread : s.format ∈ (readLength mem flags s).2.reads := by
    rw [readLength]
    dsimp only
    split_ifs <;> first
      | exact List.mem_cons_self
      | exact List.mem_cons_of_mem _ List.mem_cons_self
  have hnext : mem s.format = ascii 'l' ∨ mem s.format = ascii 'h' →
      s.format + 1 ∈ (readLength mem flags s).2.reads := by
    intro hor
    rw [readLength]
    dsimp only
    split_ifs with hl _ hh
    · exact List.mem_cons_self
    · exact List.mem_cons_self
    · exact List.mem_cons_self
    · exact List.mem_cons_self
    · exact absurd hor (not_or.mpr ⟨hl, hh⟩)
    · exact absurd hor (not_or.mpr ⟨hl, hh⟩)
  rw [readLength, readLength, peek_congr (hmem _ hread)]
  dsimp only
  by_cases hl : (peek mem s).1 = ascii 'l'
  · rw [if_pos hl, if_pos hl,
      peek_congr (s := (peek mem s).2.next) (hmem _ (hnext (Or.inl hl)))]
  · rw [if_neg hl, if_neg hl]
    by_cases hh : (peek mem s).1 = ascii 'h'
    · rw [if_pos hh, if_pos hh,
        peek_congr (s := (peek mem s).2.next) (hmem _ (hnext (Or.inr hh)))]
    · rw [if_neg hh, if_neg hh]

theorem strnlen_congr (maxsize : ℕ) (p : U64)
    (hmem : ∀ a ∈ (strnlen mem maxsize p).2, mem' a = mem a) :
    strnlen mem' maxsize p = strnlen mem maxsize p := by
  induction maxsize generalizing p with
  | zero => rfl
  | succ maxsize ih =>
    rw [strnlen] at hmem
    by_cases hzero : mem p = 0
    · rw [if_pos hzero] at hmem
      have hp : mem' p = mem p := hmem p List.mem_cons_self
      rw [strnlen, strnlen, if_pos hzero, if_pos (hp.trans hzero)]
    · rw [if_neg hzero] at hmem
      have hp : mem' p = mem p := hmem p List.mem_cons_self
      rw [strnlen, strnlen, if_neg hzero, if_neg (hp ▸ hzero),
        ih (p + 1) fun a ha => hmem a (List.mem_cons_of_mem p ha)]

/-! ## What comes out -/

theorem readFlags_sent (h : readFlags mem n flags s = some (flags', t)) : t.sent = s.sent := by
  induction n generalizing flags s with
  | zero => exact absurd h (by simp [readFlags])
  | succ n ih =>
    rw [readFlags] at h
    split at h
    · have hrest := ih h
      exact hrest
    · obtain ⟨-, rfl⟩ := Prod.mk.inj (Option.some.inj h)
      rfl

theorem atoi_sent (h : atoi mem n x s = some (y, t)) : t.sent = s.sent := by
  induction n generalizing x s with
  | zero => exact absurd h (by simp [atoi])
  | succ n ih =>
    rw [atoi] at h
    split at h
    · have hrest := ih h
      exact hrest
    · obtain ⟨-, rfl⟩ := Prod.mk.inj (Option.some.inj h)
      rfl

theorem readWidth_sent (h : readWidth mem va n flags s = some (flags', x, t)) :
    t.sent = s.sent := by
  rw [readWidth] at h
  dsimp only at h
  split_ifs at h
  · obtain ⟨r, hr, heq⟩ := Option.map_eq_some_iff.mp h
    simp only [Prod.mk.injEq] at heq
    obtain ⟨-, -, rfl⟩ := heq
    have hrest := atoi_sent hr
    exact hrest
  all_goals
    simp only [Option.some.injEq, Prod.mk.injEq] at h
    obtain ⟨-, -, rfl⟩ := h
    rfl

theorem readPrecision_sent (h : readPrecision mem va n flags s = some (flags', x, t)) :
    t.sent = s.sent := by
  rw [readPrecision] at h
  dsimp only at h
  split_ifs at h
  · obtain ⟨r, hr, heq⟩ := Option.map_eq_some_iff.mp h
    simp only [Prod.mk.injEq] at heq
    obtain ⟨-, -, rfl⟩ := heq
    have hrest := atoi_sent hr
    exact hrest
  all_goals
    simp only [Option.some.injEq, Prod.mk.injEq] at h
    obtain ⟨-, -, rfl⟩ := h
    rfl

theorem readLength_sent (mem : U64 → U8) (flags : Flags) (s : State) :
    (readLength mem flags s).2.sent = s.sent := by
  rw [readLength]
  dsimp only
  split_ifs <;> rfl

theorem emitAll_log (k : Sink ω) (cs : List U8) (j : Job ω) :
    (emitAll k cs j).log = j.log ++ cs := by
  induction cs generalizing j with
  | nil => exact (List.append_nil _).symm
  | cons c cs ih =>
    rw [emitAll_cons, ih]
    exact List.append_assoc ..

/-- From `u` on to `v` some characters came, and all but the zeros were sent. -/
def Follows (u v : Job Unit) : Prop :=
  ∃ cs, v.log = u.log ++ cs ∧ v.state.sent = u.state.sent ++ cs.filter (· ≠ 0)

variable {u v w : Job Unit}

theorem Follows.isPrefix (h : Follows u v) : u.log <+: v.log := by
  obtain ⟨cs, hlog, -⟩ := h
  exact ⟨cs, hlog.symm⟩

theorem Follows.trans (huv : Follows u v) (hvw : Follows v w) : Follows u w := by
  obtain ⟨cs, hlog, hsent⟩ := huv
  obtain ⟨ds, hlog', hsent'⟩ := hvw
  refine ⟨cs ++ ds, ?_, ?_⟩
  · rw [hlog', hlog, List.append_assoc]
  · rw [hsent', hsent, List.filter_append, List.append_assoc]

theorem follows_of_sent (u : Job Unit) {s : State} (hs : s.sent = u.state.sent) :
    Follows u { u with state := s } :=
  ⟨[], (List.append_nil _).symm, hs.trans (List.append_nil _).symm⟩

theorem outAll_sent (cs : List U8) (s : State) :
    (outAll cs s).sent = s.sent ++ cs.filter (· ≠ 0) := by
  induction cs generalizing s with
  | nil => exact (List.append_nil _).symm
  | cons c cs ih =>
    have hone : (outAll (c :: cs) s).sent = (outAll cs (outChar c s)).sent := rfl
    rw [hone, ih, outChar_sent, List.filter_cons]
    by_cases hzero : c = 0
    · rw [if_pos hzero, if_neg (by simpa using hzero), List.append_nil]
    · rw [if_neg hzero, if_pos (by simpa using hzero), List.append_assoc]
      rfl

theorem follows_emitAll (mem : U64 → U8) (cs : List U8) (u : Job Unit) :
    Follows u (emitAll (outNull mem) cs u) := by
  refine ⟨cs, emitAll_log _ cs u, ?_⟩
  rw [emitAll_state]
  exact outAll_sent cs u.state

theorem convStringTo_follows
    (h : convStringTo (outNull mem) va n flags width prec u = some v) : Follows u v := by
  simp only [convStringTo, Option.bind_eq_bind, stringLoopTo_null] at h
  obtain ⟨r, hr, hv⟩ := Option.bind_eq_some_iff.mp h
  obtain ⟨q, -, rfl⟩ := Option.map_eq_some_iff.mp hr
  obtain rfl := Option.some.inj hv
  have hstart : Follows u { u with state := (vaArg va u.state).2 } := follows_of_sent u rfl
  cases flags.left with
  | true => exact hstart.trans ((follows_emitAll mem _ _).trans (follows_emitAll mem _ _))
  | false => exact hstart.trans ((follows_emitAll mem _ _).trans (follows_emitAll mem _ _))

theorem convertTo_follows (h : convertTo (outNull mem) va n flags width prec u = some v) :
    Follows u v := by
  have hall : ∀ (cs : List U8) (s : State), s.sent = u.state.sent →
      Follows u (emitAll (outNull mem) cs { u with state := s }).next := fun cs s hs =>
    (follows_of_sent u hs).trans (follows_emitAll mem cs _)
  rw [convertTo] at h
  dsimp only at h
  split_ifs at h
  · exact Option.some.inj h ▸ hall _ _ rfl
  · exact Option.some.inj h ▸ hall _ _ rfl
  · obtain ⟨w, hw, rfl⟩ := Option.map_eq_some_iff.mp h
    have hstring := convStringTo_follows hw
    exact hstring
  · exact Option.some.inj h ▸ hall _ _ rfl
  · exact Option.some.inj h ▸ hall [_] _ rfl

theorem directiveTo_follows (h : directiveTo (outNull mem) va n u = some v) : Follows u v := by
  simp only [directiveTo, Option.bind_eq_bind, Option.bind_eq_some_iff] at h
  obtain ⟨f, hf, w, hw, q, hq, hconv⟩ := h
  have hread : (readLength mem q.1 q.2.2).2.sent = u.state.sent := by
    rw [readLength_sent, readPrecision_sent hq, readWidth_sent hw, readFlags_sent hf]
  exact (follows_of_sent u hread).trans (convertTo_follows hconv)

/-- **The characters of a run**, in front of them those before it. -/
theorem vsnprintfTo_follows {maxlen : U64}
    (h : vsnprintfTo (outNull mem) va maxlen n u = some v) : Follows u v := by
  induction n generalizing u with
  | zero => exact absurd h (by simp [vsnprintfTo])
  | succ n ih =>
    rw [vsnprintfTo] at h
    dsimp only at h
    split_ifs at h
    · exact Option.some.inj h ▸ follows_of_sent u rfl
    · have hone : Follows u (emit (outNull mem) (peek mem u.state).1
          { u with state := (peek mem u.state).2 }).next :=
        (follows_of_sent u rfl).trans (follows_emitAll mem [_] _)
      exact hone.trans (ih h)
    · obtain ⟨w, hw, hrest⟩ := Option.bind_eq_some_iff.mp h
      exact (directiveTo_follows hw).trans (ih hrest)

/-! ## Any output function -/

/-- What the dry run `t` is with output: the same state, and the characters handed out. -/
def mirror (k : Sink ω) (j₀ : Job ω) (t : Job Unit) : Job ω :=
  { emitAll k t.log j₀ with state := t.state }

/-- No output of the first of the characters `log` changes what is read at the addresses `l`. -/
def Keeps (k : Sink ω) (j₀ : Job ω) (mem : U64 → U8) (log : List U8) (l : List U64) : Prop :=
  ∀ cs, cs <+: log → ∀ a ∈ l, k.mem (emitAll k cs j₀).world a = mem a

variable {j₀ : Job ω} {log log' : List U8} {l l' : List U64}

theorem Keeps.mono (h : Keeps k j₀ mem log l) (hlog : log' <+: log) (hsub : ∀ a ∈ l', a ∈ l) :
    Keeps k j₀ mem log' l' :=
  fun cs hcs a ha => h cs (hcs.trans hlog) a (hsub a ha)

theorem emit_mirror (k : Sink ω) (j₀ : Job ω) (mem : U64 → U8) (c : U8) (u : Job Unit) :
    emit k c (mirror k j₀ u) = mirror k j₀ (emit (outNull mem) c u) := by
  rw [mirror, mirror, emit, emit, emitAll_append]
  rfl

theorem emitAll_mirror (k : Sink ω) (j₀ : Job ω) (mem : U64 → U8) (cs : List U8) (u : Job Unit) :
    emitAll k cs (mirror k j₀ u) = mirror k j₀ (emitAll (outNull mem) cs u) := by
  induction cs generalizing u with
  | nil => rfl
  | cons c cs ih => rw [emitAll_cons, emitAll_cons, emit_mirror k j₀ mem, ih]

/-- A string that no output changes. -/
theorem stringLoopTo_mirror {prec : Option ℕ} {r : List U8 × List U64}
    (h : stringLoop mem n prec p = some r) (u : Job Unit)
    (hk : Keeps k j₀ mem (u.log ++ r.1) r.2) :
    stringLoopTo k n prec p (mirror k j₀ u)
      = some (mirror k j₀ (emitAll (outNull mem) r.1 u), r.2) := by
  induction n generalizing prec p r u with
  | zero => exact absurd h (by simp [stringLoop])
  | succ n ih =>
    have hp : p ∈ r.2 := by
      rw [stringLoop] at h
      split_ifs at h
      · exact Option.some.inj h ▸ List.mem_cons_self
      · exact Option.some.inj h ▸ List.mem_cons_self
      · obtain ⟨q, -, rfl⟩ := Option.map_eq_some_iff.mp h
        exact List.mem_cons_self
    have hbyte : k.mem (mirror k j₀ u).world p = mem p :=
      hk u.log (List.prefix_append ..) p hp
    rw [stringLoop] at h
    rw [stringLoopTo, hbyte]
    by_cases hzero : mem p = 0
    · rw [if_pos hzero] at h ⊢
      obtain rfl := Option.some.inj h
      rfl
    · rw [if_neg hzero] at h ⊢
      by_cases hprec : prec = some 0
      · rw [if_pos hprec] at h ⊢
        obtain rfl := Option.some.inj h
        rfl
      · rw [if_neg hprec] at h ⊢
        obtain ⟨q, hq, rfl⟩ := Option.map_eq_some_iff.mp h
        have hlater : Keeps k j₀ mem ((u.log ++ [mem p]) ++ q.1) q.2 := by
          rw [List.append_assoc]
          exact hk.mono List.prefix_rfl fun a ha => List.mem_cons_of_mem p ha
        rw [emit_mirror k j₀ mem, ih hq _ hlater]
        rfl

/-- Spaces on one side. -/
theorem pad_mirror (k : Sink ω) (j₀ : Job ω) (mem : U64 → U8) (b : Bool) (cs : List U8)
    (u : Job Unit) : (if b then mirror k j₀ u else emitAll k cs (mirror k j₀ u))
      = mirror k j₀ (if b then u else emitAll (outNull mem) cs u) := by
  split
  · rfl
  · exact emitAll_mirror k j₀ mem cs u

theorem pad_mirror' (k : Sink ω) (j₀ : Job ω) (mem : U64 → U8) (b : Bool) (cs : List U8)
    (u : Job Unit) : (if b then emitAll k cs (mirror k j₀ u) else mirror k j₀ u)
      = mirror k j₀ (if b then emitAll (outNull mem) cs u else u) := by
  split
  · exact emitAll_mirror k j₀ mem cs u
  · rfl

theorem convStringTo_mirror
    (h : convStringTo (outNull mem) va n flags width prec u = some v)
    (hk : Keeps k j₀ mem v.log v.state.reads) :
    convStringTo k va n flags width prec (mirror k j₀ u) = some (mirror k j₀ v) := by
  have hlog := (convStringTo_follows h).isPrefix
  simp only [convStringTo, Option.bind_eq_bind] at h ⊢
  obtain ⟨r, hr, hv⟩ := Option.bind_eq_some_iff.mp h
  rw [stringLoopTo_null] at hr
  obtain ⟨q, hq, rfl⟩ := Option.map_eq_some_iff.mp hr
  obtain rfl := Option.some.inj hv
  have hmem : ∀ a ∈ (strnlen mem (if prec = 0 then 2 ^ 64 - 1 else prec.toNat)
      (vaArg va u.state).1).2, k.mem (mirror k j₀ u).world a = mem a := fun a ha =>
    hk u.log hlog a (List.mem_append_left _ (List.mem_append_left _ ha))
  have hlen := strnlen_congr _ _ hmem
  rw [show (mirror k j₀ u).state = u.state from rfl, hlen]
  have hstart : ({ mirror k j₀ u with state := (vaArg va u.state).2 } : Job ω)
      = mirror k j₀ { u with state := (vaArg va u.state).2 } := rfl
  rw [hstart, pad_mirror k j₀ mem, stringLoopTo_mirror hq, Option.bind_some,
    pad_mirror' k j₀ mem]
  · rfl
  · refine hk.mono ?_ fun a ha => List.mem_append_left _ (List.mem_append_right _ ha)
    rw [← emitAll_log (outNull mem)]
    cases flags.left with
    | true => exact (follows_emitAll mem _ _).isPrefix
    | false => exact List.prefix_rfl

/-- Characters, and a step in the format. -/
theorem next_mirror (k : Sink ω) (j₀ : Job ω) (mem : U64 → U8) (cs : List U8) (s : State)
    (u : Job Unit) : (emitAll k cs { mirror k j₀ u with state := s }).next
      = mirror k j₀ (emitAll (outNull mem) cs { u with state := s }).next :=
  congrArg Job.next (emitAll_mirror k j₀ mem cs { u with state := s })

theorem convertTo_mirror (h : convertTo (outNull mem) va n flags width prec u = some v)
    (hk : Keeps k j₀ mem v.log v.state.reads) :
    convertTo k va n flags width prec (mirror k j₀ u) = some (mirror k j₀ v) := by
  have hstate := convertTo_state mem va n flags width prec u
  rw [h] at hstate
  have hread := (advance_convert hstate.symm).read 0 (by omega)
  rw [BitVec.add_zero] at hread
  have hpeek : peek (k.mem (mirror k j₀ u).world) u.state = peek mem u.state :=
    peek_congr (hk u.log (convertTo_follows h).isPrefix _ hread)
  rw [convertTo] at h ⊢
  rw [show (mirror k j₀ u).state = u.state from rfl, hpeek]
  dsimp only at h ⊢
  split_ifs at h ⊢ with hint hchar hstring hpointer
  · exact Option.some.inj h ▸ congrArg some (next_mirror k j₀ mem _ _ u)
  · exact Option.some.inj h ▸ congrArg some (next_mirror k j₀ mem _ _ u)
  · obtain ⟨w, hw, rfl⟩ := Option.map_eq_some_iff.mp h
    exact congrArg (Option.map Job.next) (convStringTo_mirror hw hk)
  · exact Option.some.inj h ▸ congrArg some (next_mirror k j₀ mem _ _ u)
  · exact Option.some.inj h ▸ congrArg some (next_mirror k j₀ mem [_] _ u)

theorem directiveTo_mirror (h : directiveTo (outNull mem) va n u = some v)
    (hk : Keeps k j₀ mem v.log v.state.reads) :
    directiveTo k va n (mirror k j₀ u) = some (mirror k j₀ v) := by
  have hlog := (directiveTo_follows h).isPrefix
  simp only [directiveTo, Option.bind_eq_bind, Option.bind_eq_some_iff] at h
  obtain ⟨f, hf, w, hw, q, hq, hconv⟩ := h
  -- what is read on the way is read in the end
  have hstate := convertTo_state mem va n (readLength mem q.1 q.2.2).1 w.2.1 q.2.1
    { u with state := (readLength mem q.1 q.2.2).2 }
  rw [hconv] at hstate
  have hlast : ∀ a ∈ (readLength mem q.1 q.2.2).2.reads, a ∈ v.state.reads :=
    (advance_convert hstate.symm).reads
  obtain ⟨_, hlength⟩ := advance_readLength mem q.1 q.2.2
  obtain ⟨_, hprec⟩ := advance_readPrecision hq
  obtain ⟨_, hwidth⟩ := advance_readWidth hw
  have hmem : ∀ a ∈ v.state.reads, k.mem (mirror k j₀ u).world a = mem a := hk u.log hlog
  have hthird : ∀ a ∈ q.2.2.reads, a ∈ v.state.reads := fun a ha => hlast a (hlength.reads a ha)
  have hsecond : ∀ a ∈ w.2.2.reads, a ∈ v.state.reads := fun a ha => hthird a (hprec.reads a ha)
  have hfirst : ∀ a ∈ f.2.reads, a ∈ v.state.reads := fun a ha => hsecond a (hwidth.reads a ha)
  rw [directiveTo]
  simp only [Option.bind_eq_bind]
  rw [show (mirror k j₀ u).state = u.state from rfl,
    readFlags_congr hf fun a ha => hmem a (hfirst a ha), Option.bind_some,
    readWidth_congr hw fun a ha => hmem a (hsecond a ha), Option.bind_some,
    readPrecision_congr hq fun a ha => hmem a (hthird a ha), Option.bind_some,
    readLength_congr fun a ha => hmem a (hlast a ha)]
  exact convertTo_mirror hconv hk

/-- **Any output function.**  As long as the output changes nothing of what a dry run reads, every
run is the dry run with output. -/
theorem vsnprintfTo_mirror {maxlen maxlen' : U64}
    (h : vsnprintfTo (outNull mem) va maxlen' n u = some v)
    (hk : Keeps k j₀ mem v.log v.state.reads) :
    vsnprintfTo k va maxlen n (mirror k j₀ u) = some (terminate k maxlen (mirror k j₀ v)) := by
  induction n generalizing u with
  | zero => exact absurd h (by simp [vsnprintfTo])
  | succ n ih =>
    have hstate := vsnprintf_eq mem va maxlen' (n + 1) u
    rw [h] at hstate
    have hread : u.state.format ∈ v.state.reads := by
      rcases vsnprintf_cases hstate.symm with ⟨-, hread, -⟩ | ⟨w, d, -, -, hround, hrest⟩
      · exact hread
      · obtain ⟨_, _, hlater⟩ := advance_vsnprintf hrest
        have hfirst := hlater.reads _ (hround.read 0 (by omega))
        rwa [BitVec.add_zero] at hfirst
    have hpeek : peek (k.mem (mirror k j₀ u).world) u.state = peek mem u.state :=
      peek_congr (hk u.log (vsnprintfTo_follows h).isPrefix _ hread)
    rw [vsnprintfTo] at h ⊢
    rw [show (mirror k j₀ u).state = u.state from rfl, hpeek]
    dsimp only at h ⊢
    split_ifs at h ⊢ with hzero hpercent
    · exact Option.some.inj h ▸ rfl
    · have hround := next_mirror k j₀ mem [(peek mem u.state).1] (peek mem u.state).2 u
      rw [← ih h]
      exact congrArg (vsnprintfTo k va maxlen n) hround
    · obtain ⟨w, hw, hrest⟩ := Option.bind_eq_some_iff.mp h
      have hlater : Keeps k j₀ mem w.log w.state.reads := by
        have hstate' := vsnprintf_eq mem va maxlen' n w
        rw [hrest] at hstate'
        obtain ⟨_, _, hafter⟩ := advance_vsnprintf hstate'.symm
        exact hk.mono (vsnprintfTo_follows hrest).isPrefix hafter.reads
      have hconv := directiveTo_mirror hw hlater
      rw [← ih hrest]
      exact congrArg (Option.bind · (vsnprintfTo k va maxlen n)) hconv

/-! ## Characters and a buffer -/

theorem emitAll_idx (k : Sink ω) (cs : List U8) (j : Job ω) :
    (emitAll k cs j).idx = j.idx + BitVec.ofNat 64 cs.length := by
  induction cs generalizing j with
  | nil => exact (BitVec.add_zero _).symm
  | cons c cs ih =>
    rw [emitAll_cons, ih, List.length_cons, Nat.add_comm, BitVec.ofNat_add, ← BitVec.add_assoc]
    rfl

/-- A function gets every character but zeros. -/
theorem emitAll_outFct (mem : ω → U64 → U8) (fct : U8 → ω → ω) (cs : List U8) (j : Job ω) :
    (emitAll (outFct mem fct) cs j).world
      = (cs.filter (· ≠ 0)).foldl (fun w c => fct c w) j.world := by
  induction cs generalizing j with
  | nil => rfl
  | cons c cs ih =>
    have hout : (emit (outFct mem fct) c j).world = if c = 0 then j.world else fct c j.world := rfl
    rw [emitAll_cons, ih, hout, List.filter_cons]
    by_cases hzero : c = 0
    · rw [if_pos hzero, if_neg (by simpa using hzero)]
    · rw [if_neg hzero, if_pos (by simpa using hzero), List.foldl_cons]

/-- One byte more. -/
theorem update_fill (mem : U64 → U8) (a : U64) {n : ℕ} (hn : n < 2 ^ 64) (f g : ℕ → U8)
    (h : ∀ i < n, g i = f i) :
    Function.update (fill mem a n f) (a + BitVec.ofNat 64 n) (g n) = fill mem a (n + 1) g := by
  rw [fill_append (by omega), fill_succ (by decide), fill_zero, fill_congr h]
  rfl

theorem ofNat_lt_iff {n : ℕ} {maxlen : U64} (hn : n < 2 ^ 64) :
    BitVec.ofNat 64 n < maxlen ↔ n < maxlen.toNat := by
  rw [BitVec.lt_def, BitVec.toNat_ofNat, Nat.mod_eq_of_lt hn]

/-- A buffer gets the first characters, as many as it has room for. -/
theorem emitAll_outBuffer {buffer maxlen : U64} (hlen : cs.length < 2 ^ 64) (state : State)
    (log : List U8) (mem : U64 → U8) :
    (emitAll (outBuffer buffer maxlen) cs ⟨state, 0, log, mem⟩).world
      = fill mem buffer (min cs.length maxlen.toNat) fun i => cs.getD i 0 := by
  induction cs using List.reverseRecOn with
  | nil =>
    rw [List.length_nil, Nat.zero_min]
    rfl
  | append_singleton cs c ih =>
    rw [List.length_append, List.length_singleton] at hlen ⊢
    have hlast : ∀ j : Job (U64 → U8), (emitAll (outBuffer buffer maxlen) [c] j).world
        = if j.idx < maxlen then Function.update j.world (buffer + j.idx) c else j.world :=
      fun _ => rfl
    have hidx : (emitAll (outBuffer buffer maxlen) cs ⟨state, 0, log, mem⟩).idx
        = BitVec.ofNat 64 cs.length := by
      rw [emitAll_idx]
      exact BitVec.zero_add _
    have hsame : ∀ i < cs.length, (cs ++ [c]).getD i 0 = cs.getD i 0 := fun i hi => by
      rw [List.getD_append _ _ _ _ hi]
    rw [emitAll_append, hlast, hidx, ih (by omega)]
    by_cases hroom : cs.length < maxlen.toNat
    · have hc : (cs ++ [c]).getD cs.length 0 = c := by simp
      rw [if_pos ((ofNat_lt_iff (by omega)).mpr hroom), Nat.min_eq_left hroom.le,
        Nat.min_eq_left (show cs.length + 1 ≤ maxlen.toNat by omega),
        ← update_fill mem buffer (by omega) _ _ hsame, hc]
    · rw [if_neg (mt (ofNat_lt_iff (by omega)).mp hroom), Nat.min_eq_right (by omega),
        Nat.min_eq_right (by omega)]
      exact (fill_congr fun i hi => hsame i (by omega)).symm

/-- The terminating zero goes behind the characters, or over the last one that fits. -/
theorem terminate_outBuffer {buffer maxlen : U64} {j : Job (U64 → U8)} (hlen : cs.length < 2 ^ 64)
    (hidx : j.idx = BitVec.ofNat 64 cs.length)
    (hworld : j.world = fill mem buffer (min cs.length maxlen.toNat) fun i => cs.getD i 0) :
    (terminate (outBuffer buffer maxlen) maxlen j).world
      = fill mem buffer (min (cs.length + 1) maxlen.toNat) fun i =>
          (cs.take (maxlen.toNat - 1)).getD i 0 := by
  have hout : (terminate (outBuffer buffer maxlen) maxlen j).world
      = if (if j.idx < maxlen then j.idx else maxlen - 1) < maxlen then
          Function.update j.world (buffer + if j.idx < maxlen then j.idx else maxlen - 1) 0
        else j.world := rfl
  have hsame : ∀ i < min cs.length (maxlen.toNat - 1),
      (cs.take (maxlen.toNat - 1)).getD i 0 = cs.getD i 0 := fun i hi => by
    rw [List.getD_eq_getElem?_getD, List.getD_eq_getElem?_getD, List.getElem?_take_of_lt (by omega)]
  have hzero : (cs.take (maxlen.toNat - 1)).getD (min cs.length (maxlen.toNat - 1)) 0 = 0 :=
    List.getD_eq_default _ _ (by rw [List.length_take, Nat.min_comm])
  rw [hout, hworld, hidx]
  by_cases hroom : cs.length < maxlen.toNat
  · have hlt := (ofNat_lt_iff hlen).mpr hroom
    rw [Nat.min_eq_left (show cs.length ≤ maxlen.toNat - 1 by omega)] at hsame hzero
    rw [if_pos hlt, if_pos hlt, Nat.min_eq_left hroom.le, Nat.min_eq_left hroom,
      ← update_fill mem buffer (by omega) _ _ hsame, hzero]
  rw [if_neg (mt (ofNat_lt_iff hlen).mp hroom), Nat.min_eq_right (by omega),
    Nat.min_eq_right (by omega)]
  rcases Nat.eq_zero_or_pos maxlen.toNat with hnone | hpos
  · have hnever : ¬ maxlen - 1 < maxlen := by
      rw [BitVec.lt_def, hnone]
      exact Nat.not_lt_zero _
    rw [if_neg hnever, hnone, fill_zero, fill_zero]
  · obtain ⟨n, hn⟩ := Nat.exists_eq_succ_of_ne_zero hpos.ne'
    have hlast : maxlen - 1 = BitVec.ofNat 64 n := by bv_omega
    have hlt : maxlen - 1 < maxlen := by bv_omega
    rw [Nat.min_eq_right (by omega), hn, Nat.succ_sub_one] at hsame hzero
    -- the character that was there is written over
    have hover : fill mem buffer (n + 1) (fun i => cs.getD i 0)
        = Function.update (fill mem buffer n fun i => cs.getD i 0) (buffer + BitVec.ofNat 64 n)
            (cs.getD n 0) :=
      (update_fill mem buffer (by omega) _ _ fun _ _ => rfl).symm
    rw [if_pos hlt, hlast, hn, Nat.succ_sub_one, hover, Function.update_idem,
      ← update_fill mem buffer (by omega) _ _ hsame, hzero]

/-! ## The functions of the library -/

variable {format buffer count : U64}

/-- What a dry run is good for. -/
theorem dryRun_spec (h : dryRun va mem n format = some u) :
    u.idx = BitVec.ofNat 64 u.log.length ∧ printf mem va n format = some u.state ∧
      u.state.sent = u.log.filter (· ≠ 0) := by
  have hkeeps : Keeps (outNull mem) ⟨start format, 0, [], ()⟩ mem u.log u.state.reads :=
    fun _ _ _ _ => rfl
  have hself : vsnprintfTo (outNull mem) va 0 n ⟨start format, 0, [], ()⟩
      = some (terminate (outNull mem) 0 (mirror (outNull mem) ⟨start format, 0, [], ()⟩ u)) :=
    vsnprintfTo_mirror h hkeeps
  have hmirror : mirror (outNull mem) ⟨start format, 0, [], ()⟩ u = u :=
    Option.some.inj (hself.symm.trans h)
  refine ⟨?_, ?_, ?_⟩
  · have hidx : (emitAll (outNull mem) u.log ⟨start format, 0, [], ()⟩).idx = u.idx :=
      congrArg (fun j => j.idx) hmirror
    rw [← hidx, emitAll_idx]
    exact BitVec.zero_add _
  · have hstate := vsnprintf_eq mem va 0 n ⟨start format, 0, [], ()⟩
    exact hstate.symm.trans (congrArg (Option.map Job.state) h)
  · obtain ⟨cs, hlog, hsent⟩ := vsnprintfTo_follows h
    rw [show u.log = cs from hlog]
    exact hsent

/-- The run of `%u` for a number of two digits. -/
theorem dryRun_number : dryRun (fun _ => 42) (CString.only [ascii '%', ascii 'u']) 3 0
    = some ⟨⟨2, 1, [ascii '4', ascii '2'], [2, 1, 1, 1, 1, 1, 0]⟩, 2, [ascii '4', ascii '2'], ()⟩ :=
  rfl

/-- What any run returns is the number of characters, as an `int`. -/
theorem ret_mirror (k : Sink ω) (u : Job Unit) (maxlen format : U64) (w : ω) :
    (terminate k maxlen (mirror k ⟨start format, 0, [], w⟩ u)).ret
      = BitVec.ofNat 32 u.log.length := by
  have hidx : (terminate k maxlen (mirror k ⟨start format, 0, [], w⟩ u)).idx
      = BitVec.ofNat 64 u.log.length := (emitAll_idx k u.log _).trans (BitVec.zero_add _)
  rw [Job.ret, hidx]
  apply BitVec.eq_of_toNat_eq
  rw [BitVec.toNat_setWidth, BitVec.toNat_ofNat, BitVec.toNat_ofNat,
    Nat.mod_mod_of_dvd _ (by decide)]

/-- **Every character but zeros** goes to the function of `fctprintf`, in order, as long as the
calls change nothing that is read.  These are the characters that `printf_` sends. -/
theorem fctprintf_spec (h : dryRun va mem n format = some u) {mem' : ω → U64 → U8}
    {fct : U8 → ω → ω} {w : ω} (hw : ∀ cs, cs <+: u.log.filter (· ≠ 0) → ∀ a ∈ u.state.reads,
      mem' (cs.foldl (fun w c => fct c w) w) a = mem a) :
    ∃ j, fctprintf va mem' fct n format w = some j ∧
      j.world = (u.log.filter (· ≠ 0)).foldl (fun w c => fct c w) w ∧
      j.ret = BitVec.ofNat 32 u.log.length ∧
      ∃ t, printf mem va n format = some t ∧ t.sent = u.log.filter (· ≠ 0) := by
  have hkeeps : Keeps (outFct mem' fct) ⟨start format, 0, [], w⟩ mem u.log u.state.reads := by
    intro cs hcs a ha
    have hcalls := hw (cs.filter (· ≠ 0)) (hcs.filter _) a ha
    rwa [← emitAll_outFct mem' fct cs ⟨start format, 0, [], w⟩] at hcalls
  obtain ⟨-, hprintf, hsent⟩ := dryRun_spec h
  exact ⟨_, vsnprintfTo_mirror h hkeeps, emitAll_outFct mem' fct u.log ⟨start format, 0, [], w⟩,
    ret_mirror .., u.state, hprintf, hsent⟩

/-- The two digits, collected. -/
theorem fctprintf_number :
    ∃ j, fctprintf (fun _ => 42) (fun _ => CString.only [ascii '%', ascii 'u'])
        (fun c w => w ++ [c]) 3 0 [] = some j ∧
      j.world = [ascii '4', ascii '2'] ∧ j.ret = 2 ∧
      ∃ t, printf (CString.only [ascii '%', ascii 'u']) (fun _ => 42) 3 0 = some t ∧
        t.sent = [ascii '4', ascii '2'] :=
  fctprintf_spec dryRun_number fun _ _ _ _ => rfl

/-- **A buffer** has the first characters of the output, one fewer than fit, and a zero, as long as
no character goes where something is read.  Nothing else is written, and the value returned is the
number of all characters, as an `int`. -/
theorem snprintf_spec (h : dryRun va mem n format = some u) (hlen : u.log.length < 2 ^ 64)
    (hbuffer : buffer ≠ 0)
    (hapart : ∀ a ∈ u.state.reads, min u.log.length count.toNat ≤ (a - buffer).toNat) :
    snprintf va buffer count n format mem = some (BitVec.ofNat 32 u.log.length,
      fill mem buffer (min (u.log.length + 1) count.toNat) fun i =>
        (u.log.take (count.toNat - 1)).getD i 0) := by
  have hkeeps : Keeps (outBuffer buffer count) ⟨start format, 0, [], mem⟩ mem u.log
      u.state.reads := by
    intro cs hcs a ha
    have hle := hcs.length_le
    have hfar := hapart a ha
    rw [emitAll_outBuffer (by omega)]
    show fill mem buffer (min cs.length count.toNat) (fun i => cs.getD i 0) a = mem a
    exact fill_of_ge (by omega)
  have hrun : vsnprintfTo (outBuffer buffer count) va count n ⟨start format, 0, [], mem⟩
      = some (terminate (outBuffer buffer count) count
          (mirror (outBuffer buffer count) ⟨start format, 0, [], mem⟩ u)) :=
    vsnprintfTo_mirror h hkeeps
  rw [snprintf, if_neg hbuffer, hrun, Option.map_some, ret_mirror, terminate_outBuffer hlen]
  · exact (emitAll_idx ..).trans (BitVec.zero_add _)
  · exact emitAll_outBuffer hlen ..

/-- The two digits into a buffer with room for one. -/
theorem snprintf_number :
    snprintf (fun _ => 42) 0x1000 2 3 0 (CString.only [ascii '%', ascii 'u'])
      = some (2, fill (CString.only [ascii '%', ascii 'u']) 0x1000 2 fun i =>
          [ascii '4'].getD i 0) :=
  snprintf_spec dryRun_number (by decide) (by decide) (by simp)

/-- All of the output and a zero, in a buffer that nobody has measured. -/
theorem sprintf_eq (h : dryRun va mem n format = some u) (hlen : u.log.length < 2 ^ 64 - 1)
    (hbuffer : buffer ≠ 0) (hapart : ∀ a ∈ u.state.reads, u.log.length ≤ (a - buffer).toNat) :
    sprintf va buffer n format mem = some (BitVec.ofNat 32 u.log.length,
      fill mem buffer (u.log.length + 1) fun i => u.log.getD i 0) := by
  have hcount : (-1 : U64).toNat = 2 ^ 64 - 1 := rfl
  rw [sprintf, snprintf_spec h (by omega) hbuffer fun a ha => (min_le_left ..).trans (hapart a ha),
    hcount, Nat.min_eq_left (by omega), List.take_of_length_le (by omega)]

end Printf
