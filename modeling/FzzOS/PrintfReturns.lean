/-
# Formatting comes to an end

`_vsnprintf` runs on to the first zero that no conversion takes.  A conversion takes one character
at most that may be a zero, so two zeros next to each other stop it.

* `directive_returns` : a conversion in front of a zero ends, at most one byte behind it;
* `printf_returns` : every format comes to an end, in the run without output and in `printf_`.
-/
import FzzOS.PrintfSinks

namespace Printf

variable {mem : U64 → U8} {va : ℕ → U64} {z p : U64} {k n : ℕ} {s t : State} {flags : Flags}
  {width prec : U32} {c : U8}

/-! ## In front of a zero -/

/-- Whoever has seen something else than the zero at `z` is closer to it one step later. -/
theorem step_lt (hz : mem z = 0) (hp : mem p ≠ 0) (h : (z - p).toNat < k + 1) :
    (z - (p + 1)).toNat < k := by
  have hne : p ≠ z := fun heq => hp (heq ▸ hz)
  bv_omega

theorem step_of_eq (hz : mem z = 0) (hp : mem p = c) (hc : c ≠ 0) (h : (z - p).toNat < k) :
    (z - (p + 1)).toNat < k :=
  step_lt hz (hp ▸ hc) (h.trans k.lt_succ_self)

theorem readFlags_returns (hz : mem z = 0) (h : (z - s.format).toNat < k) (hk : k ≤ n)
    (flags : Flags) :
    ∃ r, readFlags mem n flags s = some r ∧ (z - r.2.format).toNat < k := by
  induction n generalizing flags s k with
  | zero => exact absurd h (by omega)
  | succ n ih =>
    rw [readFlags]
    split
    · next flags' hflag =>
      have hne : mem s.format ≠ 0 := by
        intro hzero
        rw [show (peek mem s).1 = 0 from hzero, show setFlag 0 flags = none from rfl] at hflag
        exact absurd hflag.symm (Option.some_ne_none _)
      obtain ⟨j, rfl⟩ := Nat.exists_eq_succ_of_ne_zero (Nat.ne_zero_of_lt h)
      obtain ⟨r, hr, hlt⟩ := ih (s := (peek mem s).2.next) (step_lt hz hne h)
        (Nat.le_of_succ_le_succ hk) flags'
      exact ⟨r, hr, hlt.trans j.lt_succ_self⟩
    · exact ⟨_, rfl, h⟩

theorem atoi_returns (hz : mem z = 0) (h : (z - s.format).toNat < k) (hk : k ≤ n) (x : U32) :
    ∃ r, atoi mem n x s = some r ∧ (z - r.2.format).toNat < k := by
  induction n generalizing x s k with
  | zero => exact absurd h (by omega)
  | succ n ih =>
    rw [atoi]
    split_ifs with hdigit
    · have hne : mem s.format ≠ 0 := by
        intro hzero
        rw [show (peek mem s).1 = 0 from hzero] at hdigit
        exact absurd hdigit (by decide)
      obtain ⟨j, rfl⟩ := Nat.exists_eq_succ_of_ne_zero (Nat.ne_zero_of_lt h)
      obtain ⟨r, hr, hlt⟩ := ih (s := (peek mem s).2.next) (step_lt hz hne h)
        (Nat.le_of_succ_le_succ hk) _
      exact ⟨r, hr, hlt.trans j.lt_succ_self⟩
    · exact ⟨_, rfl, h⟩

theorem readWidth_returns (hz : mem z = 0) (h : (z - s.format).toNat < k) (hk : k ≤ n)
    (va : ℕ → U64) (flags : Flags) :
    ∃ r, readWidth mem va n flags s = some r ∧ (z - r.2.2.format).toNat < k := by
  rw [readWidth]
  dsimp only
  split_ifs with hdigit hstar hneg
  · obtain ⟨r, hr, hlt⟩ := atoi_returns (s := (peek mem s).2) hz h hk 0
    refine ⟨(flags, r.1, r.2), ?_, hlt⟩
    rw [hr]
    rfl
  · exact ⟨_, rfl, step_of_eq hz hstar (by decide) h⟩
  · exact ⟨_, rfl, step_of_eq hz hstar (by decide) h⟩
  · exact ⟨_, rfl, h⟩

theorem readPrecision_returns (hz : mem z = 0) (h : (z - s.format).toNat < k) (hk : k ≤ n)
    (va : ℕ → U64) (flags : Flags) :
    ∃ r, readPrecision mem va n flags s = some r ∧ (z - r.2.2.format).toNat < k := by
  rw [readPrecision]
  dsimp only
  by_cases hpoint : (peek mem s).1 = ascii '.'
  · have hnext : (z - (peek mem s).2.next.format).toNat < k :=
      step_of_eq hz hpoint (by decide) h
    rw [if_pos hpoint]
    split_ifs with hdigit hstar hneg
    · obtain ⟨r, hr, hlt⟩ := atoi_returns (s := (peek mem (peek mem s).2.next).2) hz hnext hk 0
      refine ⟨({ flags with precision := true }, r.1, r.2), ?_, hlt⟩
      rw [hr]
      rfl
    · exact ⟨_, rfl, step_of_eq hz hstar (by decide) hnext⟩
    · exact ⟨_, rfl, step_of_eq hz hstar (by decide) hnext⟩
    · exact ⟨_, rfl, hnext⟩
  · rw [if_neg hpoint]
    exact ⟨_, rfl, h⟩

theorem readLength_lt (hz : mem z = 0) (h : (z - s.format).toNat < k) (flags : Flags) :
    (z - (readLength mem flags s).2.format).toNat < k := by
  rw [readLength]
  dsimp only
  split_ifs with hl hll hh hhh hjz
  · exact step_of_eq hz hll (by decide) (step_of_eq hz hl (by decide) h)
  · exact step_of_eq hz hl (by decide) h
  · exact step_of_eq hz hhh (by decide) (step_of_eq hz hh (by decide) h)
  · exact step_of_eq hz hh (by decide) h
  · rcases hjz with hj | hz'
    · exact step_of_eq hz hj (by decide) h
    · exact step_of_eq hz hz' (by decide) h
  · exact h

/-! ## Conversions -/

theorem stringLoop_returns (hz : mem z = 0) (h : (z - p).toNat < n) (prec : Option ℕ) :
    ∃ r, stringLoop mem n prec p = some r := by
  induction n generalizing prec p with
  | zero => exact absurd h (Nat.not_lt_zero _)
  | succ n ih =>
    rw [stringLoop]
    split_ifs with hzero hprec
    · exact ⟨_, rfl⟩
    · exact ⟨_, rfl⟩
    · obtain ⟨r, hr⟩ := ih (step_lt hz hzero h) (prec.map (· - 1))
      exact ⟨_, congrArg (Option.map fun r => (mem p :: r.1, p :: r.2)) hr⟩

/-- A string ends at the latest where it comes to the zero, wherever it begins. -/
theorem convString_returns (hz : mem z = 0) (hn : 2 ^ 64 ≤ n) :
    ∃ t, convString mem va n flags width prec s = some t := by
  obtain ⟨r, hr⟩ := stringLoop_returns hz ((z - (vaArg va s).1).isLt.trans_le hn)
    (if flags.precision then some prec.toNat else none)
  simp only [convString, Option.bind_eq_bind, hr, Option.bind_some]
  exact ⟨_, rfl⟩

theorem convert_returns (hz : mem z = 0) (hn : 2 ^ 64 ≤ n) :
    ∃ t, convert mem va n flags width prec s = some t ∧ t.format = s.format + 1 := by
  have hsome : ∃ t, convert mem va n flags width prec s = some t := by
    rw [convert]
    dsimp only
    split_ifs
    · exact ⟨_, rfl⟩
    · exact ⟨_, rfl⟩
    · obtain ⟨t, ht⟩ := convString_returns hz hn
      exact ⟨_, congrArg (Option.map State.next) ht⟩
    · exact ⟨_, rfl⟩
    · exact ⟨_, rfl⟩
  obtain ⟨t, ht⟩ := hsome
  exact ⟨t, ht, (advance_convert ht).format⟩

/-- **A conversion** in front of the zero ends, at most one byte behind the zero. -/
theorem directive_returns (hz : mem z = 0) (h : (z - s.format).toNat < k) (hk : k ≤ n)
    (hn : 2 ^ 64 ≤ n) :
    ∃ t, directive mem va n s = some t ∧ (z + 1 - t.format).toNat < k := by
  obtain ⟨f, hf, hflags⟩ := readFlags_returns hz h hk Flags.none
  obtain ⟨w, hw, hwidth⟩ := readWidth_returns hz hflags hk va f.1
  obtain ⟨q, hq, hprec⟩ := readPrecision_returns hz hwidth hk va w.1
  have hlength := readLength_lt hz hprec q.1
  obtain ⟨t, ht, hformat⟩ := convert_returns hz hn
  refine ⟨t, ?_, ?_⟩
  · simp only [directive, Option.bind_eq_bind, hf, Option.bind_some, hw, hq]
    exact ht
  · rw [hformat]
    bv_omega

/-! ## Runs -/

/-- Every round gets closer to the second of the two zeros, and none gets past it. -/
theorem vsnprintf_returns (va : ℕ → U64) (hz : mem z = 0) (hz' : mem (z + 1) = 0)
    (h : (z + 1 - s.format).toNat ≤ k) (hn : 2 ^ 64 + k < n) :
    ∃ t, vsnprintf mem va n s = some t := by
  induction n generalizing s k with
  | zero => exact absurd hn (Nat.not_lt_zero _)
  | succ n ih =>
    rw [vsnprintf]
    split_ifs with hzero hpercent
    · exact ⟨_, rfl⟩
    · have hne : s.format ≠ z + 1 := fun heq => hzero ((congrArg mem heq).trans hz')
      refine ih (k := k - 1) ?_ (by bv_omega)
      show (z + 1 - ((outChar _ _).format + 1)).toNat ≤ k - 1
      rw [outChar_format]
      show (z + 1 - (s.format + 1)).toNat ≤ k - 1
      bv_omega
    · have hne : s.format ≠ z + 1 := fun heq => hzero ((congrArg mem heq).trans hz')
      have hne' : s.format ≠ z := fun heq => hzero ((congrArg mem heq).trans hz)
      -- so the conversion begins in front of the first zero, or at it
      have hbefore : (z - (s.format + 1)).toNat < k - 1 := by bv_omega
      obtain ⟨t, ht, hlt⟩ := directive_returns (s := (peek mem s).2.next) hz hbefore
        (show k - 1 ≤ n by omega) (show 2 ^ 64 ≤ n by omega)
      obtain ⟨u, hu⟩ := ih hlt.le (by omega)
      exact ⟨u, by rw [ht]; exact hu⟩

/-- **Every format comes to an end**, with every argument list, if only there are two zeros next to
each other somewhere in memory: `printf_` does, and the run without output that the other functions
follow. -/
theorem printf_returns (hz : mem z = 0) (hz' : mem (z + 1) = 0) (va : ℕ → U64) (format : U64)
    (hn : 2 ^ 65 ≤ n) :
    ∃ u, dryRun va mem n format = some u ∧ printf mem va n format = some u.state := by
  obtain ⟨t, ht⟩ := vsnprintf_returns va (s := start format) hz hz' le_rfl
    (show 2 ^ 64 + (z + 1 - format).toNat < n by omega)
  have hstate := vsnprintf_eq mem va 0 n ⟨start format, 0, [], ()⟩
  obtain ⟨u, hu, rfl⟩ := Option.map_eq_some_iff.mp (hstate.trans ht)
  exact ⟨u, hu, ht⟩

theorem printf_returns_number :
    ∃ u, dryRun (fun _ => 42) (CString.only [ascii '%', ascii 'u']) (2 ^ 65) 0 = some u ∧
      printf (CString.only [ascii '%', ascii 'u']) (fun _ => 42) (2 ^ 65) 0 = some u.state :=
  printf_returns (z := 2) rfl rfl _ _ (le_refl _)

end Printf
