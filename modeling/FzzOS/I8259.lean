/-
# The interrupt controller pair

Two 8259 chips, each with a command and a data port.  The slave's output is line 2 of the
master, so the pair has lines 0 to 7 on the master and 8 to 15 on the slave.

* `Chip.command`, `Chip.data` : what a byte written to either port does;
* `Pair.acknowledge` : the line served when the processor takes an interrupt, with the
  vector the chips give it and what becomes in service;
* `acknowledge_of_idle` : with nothing in service, every unmasked request is served.
-/
import Mathlib.Data.Nat.Bitwise
import Mathlib.Tactic.Common

namespace I8259

/-! ## Bits of a register -/

/-- A register with bit `k` set. -/
def setBit (x : BitVec 8) (k : ℕ) : BitVec 8 := x ||| BitVec.twoPow 8 k

/-- A register with bit `k` clear. -/
def clearBit (x : BitVec 8) (k : ℕ) : BitVec 8 := x &&& ~~~BitVec.twoPow 8 k

/-- The line of highest priority in a register, which is the least bit set. -/
def highest (x : BitVec 8) : Option ℕ := (List.range 8).find? fun k => x.getLsbD k

theorem getLsbD_setBit (x : BitVec 8) {k : ℕ} (hk : k < 8) (j : ℕ) :
    (setBit x k).getLsbD j = (x.getLsbD j || decide (j = k)) := by
  rw [setBit, BitVec.getLsbD_or, BitVec.getLsbD_twoPow]
  simp [hk, eq_comm]

theorem getLsbD_clearBit (x : BitVec 8) {k : ℕ} (hk : k < 8) (j : ℕ) :
    (clearBit x k).getLsbD j = (x.getLsbD j && !decide (j = k)) := by
  rw [clearBit, BitVec.getLsbD_and, BitVec.getLsbD_not, BitVec.getLsbD_twoPow]
  by_cases hj : j < 8
  · simp [hk, hj, eq_comm]
  · simp [BitVec.getLsbD_of_ge x j (by omega)]

theorem highest_eq_some {x : BitVec 8} {k : ℕ} (h : highest x = some k) :
    k < 8 ∧ x.getLsbD k = true :=
  ⟨List.mem_range.mp (List.mem_of_find?_eq_some h), by simpa using List.find?_some h⟩

theorem highest_eq_none {x : BitVec 8} : highest x = none ↔ x = 0 := by
  rw [highest, List.find?_eq_none]
  constructor
  · intro h
    refine BitVec.eq_of_getLsbD_eq fun k hk => ?_
    rw [BitVec.ofNat_eq_ofNat, BitVec.getLsbD_zero]
    simpa using h k (List.mem_range.mpr hk)
  · rintro rfl k -
    simp

/-- A register with one bit in it. -/
theorem highest_setBit_zero {k : ℕ} (hk : k < 8) : highest (setBit 0 k) = some k := by
  cases h : highest (setBit 0 k) with
  | none =>
    have hbit := congrArg (fun y => y.getLsbD k) (highest_eq_none.mp h)
    simp [getLsbD_setBit _ hk] at hbit
  | some j =>
    have hbit := (highest_eq_some h).2
    rw [getLsbD_setBit _ hk] at hbit
    rw [show j = k by simpa using hbit]

theorem clearBit_setBit_zero (k : ℕ) : clearBit (setBit 0 k) k = 0 := by
  simp [clearBit, setBit, BitVec.and_not_self]

/-! ## One chip -/

/-- Which byte the data port expects: the mask, or one of the initialisation bytes. -/
inductive Stage
  | ready | icw2 | icw3 | icw4
  deriving DecidableEq

/-- The registers of a chip: requests latched, lines masked, lines in service, and the
vector of line 0. -/
structure Chip where
  irr : BitVec 8
  imr : BitVec 8
  isr : BitVec 8
  base : BitVec 8
  stage : Stage
  icw1 : BitVec 8

namespace Chip

/-- The non-specific end of interrupt. -/
def endOfInterrupt (c : Chip) : Chip :=
  match highest c.isr with
  | some k => { c with isr := clearBit c.isr k }
  | none => c

/-- A byte written to the command port. -/
def command (v : BitVec 8) (c : Chip) : Chip :=
  -- the first initialisation byte also forgets the requests latched so far
  if v.getLsbD 4 then { c with irr := 0, imr := 0, isr := 0, stage := .icw2, icw1 := v }
  else if v = 0x20 then c.endOfInterrupt
  else c

/-- A byte written to the data port. -/
def data (v : BitVec 8) (c : Chip) : Chip :=
  let fourth := if c.icw1.getLsbD 0 then Stage.icw4 else .ready
  match c.stage with
  | .ready => { c with imr := v }
  | .icw2 => { c with base := v &&& 0xF8, stage := if c.icw1.getLsbD 1 then fourth else .icw3 }
  | .icw3 => { c with stage := fourth }
  | .icw4 => { c with stage := .ready }

theorem data_of_ready {c : Chip} (h : c.stage = .ready) (v : BitVec 8) :
    c.data v = { c with imr := v } := by
  obtain ⟨irr, imr, isr, base, stage, icw1⟩ := c
  dsimp only at h
  subst h
  rfl

/-- A device asserts line `k`. -/
def raise (k : ℕ) (c : Chip) : Chip := { c with irr := setBit c.irr k }

/-- Line `k` is served. -/
def serve (k : ℕ) (c : Chip) : Chip := { c with irr := clearBit c.irr k, isr := setBit c.isr k }

/-- The line for which the chip asks for service: the highest request that is not masked,
unless one at least as high is in service. -/
def request (c : Chip) : Option ℕ :=
  match highest (c.irr &&& ~~~c.imr), highest c.isr with
  | some k, some j => if k < j then some k else none
  | some k, none => some k
  | none, _ => none

/-- Line `k` is waiting and not masked. -/
def Waiting (c : Chip) (k : ℕ) : Prop := c.irr.getLsbD k = true ∧ c.imr.getLsbD k = false

theorem request_eq_some {c : Chip} {k : ℕ} (h : c.request = some k) : k < 8 ∧ c.Waiting k := by
  have hhigh : highest (c.irr &&& ~~~c.imr) = some k := by
    unfold request at h
    split at h
    · split at h
      · rw [← h]
        assumption
      · cases h
    · rw [← h]
      assumption
    · cases h
  obtain ⟨hk, hbit⟩ := highest_eq_some hhigh
  rw [BitVec.getLsbD_and, BitVec.getLsbD_not] at hbit
  exact ⟨hk, by simpa [hk, Waiting] using hbit⟩

/-- With nothing in service a waiting line is not held up for ever: the chip asks. -/
theorem request_of_idle {c : Chip} {k : ℕ} (hisr : c.isr = 0) (hk : k < 8) (h : c.Waiting k) :
    c.request.isSome := by
  have hnone : highest c.isr = none := highest_eq_none.mpr hisr
  cases hhigh : highest (c.irr &&& ~~~c.imr) with
  | some j =>
    simp [request, hhigh, hnone]
  | none =>
    have hbit := congrArg (fun y => y.getLsbD k) (highest_eq_none.mp hhigh)
    rw [BitVec.getLsbD_and, BitVec.getLsbD_not, h.1, h.2] at hbit
    simp [hk] at hbit

/-- The one line in service is the one an end of interrupt ends. -/
theorem endOfInterrupt_serve {c : Chip} {k : ℕ} (hisr : c.isr = 0) (hk : k < 8) :
    (c.serve k).endOfInterrupt = { c with irr := clearBit c.irr k } := by
  have hone : (c.serve k).isr = setBit 0 k := by rw [serve, hisr]
  have hhigh : highest (c.serve k).isr = some k := by rw [hone, highest_setBit_zero hk]
  rw [endOfInterrupt, hhigh]
  dsimp only
  rw [hone, clearBit_setBit_zero, ← hisr]
  rfl

end Chip

/-! ## The pair -/

/-- The two controllers of the machine. -/
structure Pair where
  master : Chip
  slave : Chip

namespace Pair

/-- A device asserts one of the sixteen lines. -/
def raise (line : ℕ) (p : Pair) : Pair :=
  if line < 8 then { p with master := p.master.raise line }
  else { p with slave := p.slave.raise (line - 8) }

/-- The master with its line 2 driven by the slave. -/
def cascaded (p : Pair) : Chip := if p.slave.request.isSome then p.master.raise 2 else p.master

/-- The processor takes an interrupt: the line served, its vector, and the chips after. -/
def acknowledge (p : Pair) : Option (ℕ × BitVec 8 × Pair) :=
  match p.cascaded.request with
  | none => none
  | some k =>
    match p.slave.request, decide (k = 2) with
    -- the request of line 2 is the slave's, and the slave gives the vector
    | some j, true =>
      some (8 + j, p.slave.base + BitVec.ofNat 8 j,
        { master := { p.master with isr := setBit p.master.isr 2 }, slave := p.slave.serve j })
    | _, _ => some (k, p.master.base + BitVec.ofNat 8 k, { p with master := p.master.serve k })

/-- Nothing is in service. -/
structure Idle (p : Pair) : Prop where
  master : p.master.isr = 0
  slave : p.slave.isr = 0

/-- What an acknowledged line did: a line of the master, or one of the slave. -/
theorem acknowledge_cases {p p' : Pair} {line : ℕ} {vector : BitVec 8}
    (h : p.acknowledge = some (line, vector, p')) :
    (line < 8 ∧ vector = p.master.base + BitVec.ofNat 8 line ∧
        p' = { p with master := p.master.serve line }) ∨
      ∃ j < 8, line = 8 + j ∧ vector = p.slave.base + BitVec.ofNat 8 j ∧
        p' = { master := { p.master with isr := setBit p.master.isr 2 },
               slave := p.slave.serve j } := by
  unfold acknowledge at h
  split at h
  · cases h
  · rename_i k hk
    have hk8 := (Chip.request_eq_some hk).1
    split at h
    · rename_i j hj _
      cases h
      exact Or.inr ⟨j, (Chip.request_eq_some hj).1, rfl, rfl, rfl⟩
    · cases h
      exact Or.inl ⟨hk8, rfl, rfl⟩

/-- A line that is acknowledged was asserted, and the master had it, or the slave's line 2,
not masked. -/
theorem acknowledge_waiting {p p' : Pair} {line : ℕ} {vector : BitVec 8}
    (h : p.acknowledge = some (line, vector, p')) :
    (line < 8 ∧ (line ≠ 2 → p.master.irr.getLsbD line = true) ∧
        p.master.imr.getLsbD line = false) ∨
      (8 ≤ line ∧ p.master.imr.getLsbD 2 = false) := by
  have himr : p.cascaded.imr = p.master.imr := by
    unfold cascaded
    split <;> rfl
  have hirr : ∀ k, k ≠ 2 → p.cascaded.irr.getLsbD k = p.master.irr.getLsbD k := by
    intro k hk
    unfold cascaded
    split
    · rw [Chip.raise, getLsbD_setBit _ (by decide), decide_eq_false hk, Bool.or_false]
    · rfl
  unfold acknowledge at h
  split at h
  · cases h
  · rename_i k hk
    obtain ⟨hk8, hwaiting⟩ := Chip.request_eq_some hk
    rw [Chip.Waiting, himr] at hwaiting
    split at h
    · rename_i htwo
      cases h
      exact Or.inr ⟨Nat.le_add_right 8 _, of_decide_eq_true htwo ▸ hwaiting.2⟩
    · cases h
      exact Or.inl ⟨hk8, fun hne => hirr _ hne ▸ hwaiting.1, hwaiting.2⟩

/-- With nothing in service, a line waiting at the master or, through line 2, at the slave
gets the processor's attention. -/
theorem acknowledge_of_cascaded {p : Pair} {k : ℕ} (hidle : p.Idle) (hk : k < 8)
    (h : p.cascaded.Waiting k) : p.acknowledge.isSome := by
  have hisr : p.cascaded.isr = 0 := by
    unfold cascaded
    split <;> exact hidle.master
  obtain ⟨j, hj⟩ := Option.isSome_iff_exists.mp (Chip.request_of_idle hisr hk h)
  rw [acknowledge, hj]
  dsimp only
  split <;> rfl

/-- **Nothing blocks**, on the master. -/
theorem acknowledge_of_master {p : Pair} {k : ℕ} (hidle : p.Idle) (hk : k < 8)
    (h : p.master.Waiting k) : p.acknowledge.isSome := by
  refine acknowledge_of_cascaded hidle hk ?_
  unfold cascaded
  split
  · refine ⟨?_, h.2⟩
    rw [Chip.raise, getLsbD_setBit _ (by decide), h.1, Bool.true_or]
  · exact h

/-- **Nothing blocks**, on the slave, if the master does not mask it as a whole. -/
theorem acknowledge_of_slave {p : Pair} {k : ℕ} (hidle : p.Idle) (hk : k < 8)
    (h : p.slave.Waiting k) (hmask : p.master.imr.getLsbD 2 = false) :
    p.acknowledge.isSome := by
  have hrequest : p.slave.request.isSome := Chip.request_of_idle hidle.slave hk h
  have hcascaded : p.cascaded = p.master.raise 2 := by rw [cascaded, if_pos hrequest]
  refine acknowledge_of_cascaded (k := 2) hidle (by decide) ?_
  rw [hcascaded]
  refine ⟨?_, hmask⟩
  rw [Chip.raise, getLsbD_setBit _ (by decide), decide_eq_true rfl, Bool.or_true]

end Pair

end I8259
