/-
# Programs over a state, and what holds when they return

A program takes a state to a result and the state after it, or to nothing: it faults, or it
does not come to an end.  A triple speaks of the runs that return.

* `Triple` : from every state in `P`, a run that returns ends in `Q`;
* `Triple.bind`, `Triple.anyway` : one program after another, with and without an interest
  in what the first one leaves behind;
* `inner` : a program over the second part of a state, which keeps the first;
* `Extends` : a program returns wherever another one does, and the same;
* `Yields` : from every state behind an abstract one a program returns, in a state behind an
  abstract one that is described.
-/
import Mathlib.Tactic.Common

/-- A program over the states `σ`. -/
abbrev Program (σ : Type) : Type → Type := StateT σ Option

namespace Program

variable {σ ι α β : Type} {P R : σ → Prop} {Q : α → σ → Prop} {x : Program σ α}

/-- A program over the second part of a state. -/
def inner (x : Program σ α) : Program (ι × σ) α :=
  fun s => (x s.2).map fun r => (r.1, s.1, r.2)

/-! ## Triples -/

/-- **Partial correctness.**  Where `P` holds before `x`, and `x` returns, `Q` holds of its
result and of the state after it. -/
def Triple (P : σ → Prop) (x : Program σ α) (Q : α → σ → Prop) : Prop :=
  ∀ s a s', P s → x s = some (a, s') → Q a s'

namespace Triple

theorem pure {a : α} (h : ∀ s, P s → Q a s) : Triple P (pure a) Q := by
  intro s b s' hP hrun
  obtain ⟨rfl, rfl⟩ := Prod.mk.inj (Option.some.inj hrun)
  exact h _ hP

/-- A program that never returns. -/
theorem failure : Triple P (fun _ => none : Program σ α) Q := fun _ _ _ _ hrun => nomatch hrun

theorem modifyGet {f : σ → α × σ} (h : ∀ s, P s → Q (f s).1 (f s).2) :
    Triple P (modifyGet f) Q := by
  intro s a s' hP hrun
  obtain ⟨rfl, rfl⟩ := Prod.mk.inj (Option.some.inj hrun)
  exact h s hP

theorem bind {Q' : β → σ → Prop} {f : α → Program σ β} (hx : Triple P x Q)
    (hf : ∀ a, Triple (Q a) (f a) Q') : Triple P (x >>= f) Q' := by
  intro s b s' hP hrun
  obtain ⟨⟨a, t⟩, hfirst, hrest⟩ := Option.bind_eq_some_iff.mp hrun
  exact hf a t b s' (hx s a t hP hfirst) hrest

/-- What holds after `f`, wherever `f` starts, holds after `x` and `f`. -/
theorem anyway {Q' : β → σ → Prop} {f : α → Program σ β}
    (hf : ∀ a, Triple (fun _ => True) (f a) Q') : Triple P (x >>= f) Q' :=
  bind (fun _ _ _ _ _ => trivial) hf

theorem get {Q' : β → σ → Prop} {f : σ → Program σ β}
    (h : ∀ s, Triple (fun t => P t ∧ t = s) (f s) Q') : Triple P (MonadState.get >>= f) Q' :=
  fun s b s' hP hrun => h s s b s' ⟨hP, rfl⟩ hrun

theorem ite {c : Prop} [Decidable c] {y : Program σ α} (ht : c → Triple P x Q)
    (hf : ¬ c → Triple P y Q) : Triple P (if c then x else y) Q := by
  split
  next h => exact ht h
  next h => exact hf h

theorem mono {Q' : α → σ → Prop} (h : Triple P x Q) (hpre : ∀ s, R s → P s)
    (hpost : ∀ a s, Q a s → Q' a s) : Triple R x Q' :=
  fun s a s' hR hrun => hpost a s' (h s a s' (hpre s hR) hrun)

/-- A change of the result alone. -/
theorem map {f : α → β} {p : σ → Prop} (h : Triple P x fun _ => p) :
    Triple P (f <$> x) fun _ => p :=
  bind h fun _ => pure fun _ h => h

/-- A program over the second part does to it what it does. -/
theorem second (h : Triple P x Q) :
    Triple (fun s : ι × σ => P s.2) (Program.inner x) fun a s => Q a s.2 := by
  intro s a s' hP hrun
  obtain ⟨⟨b, t⟩, hx, hr⟩ := Option.map_eq_some_iff.mp hrun
  obtain ⟨rfl, rfl⟩ := Prod.mk.inj hr
  exact h s.2 b t hP hx

/-- A program over the second part keeps the first. -/
theorem inner (p : ι → Prop) : Triple (fun s => p s.1) (inner x) fun _ s => p s.1 := by
  intro s a s' hp hrun
  obtain ⟨r, -, hr⟩ := Option.map_eq_some_iff.mp hrun
  rw [← (Prod.mk.inj hr).2]
  exact hp

end Triple

/-! ## Programs that return more often -/

/-- Wherever `x` returns, `y` returns the same. -/
def Extends (y x : Program σ α) : Prop := ∀ s r, x s = some r → y s = some r

namespace Extends

variable {y : Program σ α} {f g : α → Program σ β}

theorem refl : Extends x x := fun _ _ hrun => hrun

/-- Anything extends a program that never returns. -/
theorem failure : Extends y (fun _ => none) := fun _ _ hrun => nomatch hrun

theorem trans {z : Program σ α} (h : Extends z y) (h' : Extends y x) : Extends z x :=
  fun s r hrun => h s r (h' s r hrun)

theorem bind (h : Extends y x) (hfg : ∀ a, Extends (g a) (f a)) :
    Extends (y >>= g) (x >>= f) := by
  intro s r hrun
  obtain ⟨⟨a, t⟩, hfirst, hrest⟩ := Option.bind_eq_some_iff.mp hrun
  exact Option.bind_eq_some_iff.mpr ⟨(a, t), h s _ hfirst, hfg a t r hrest⟩

/-- What comes first is the same. -/
theorem bind_right (hfg : ∀ a, Extends (g a) (f a)) : Extends (x >>= g) (x >>= f) :=
  bind refl hfg

theorem ite {c : Prop} [Decidable c] {x' y' : Program σ α} (ht : Extends y x)
    (hf : Extends y' x') : Extends (if c then y else y') (if c then x else x') := by
  split
  · exact ht
  · exact hf

theorem map {f : α → β} (h : Extends y x) : Extends (f <$> y) (f <$> x) := by
  have hbind : Extends (y >>= fun a => pure (f a)) (x >>= fun a => pure (f a)) :=
    bind h fun _ => refl
  exact hbind

theorem inner (h : Extends y x) :
    Extends (inner y : Program (ι × σ) α) (Program.inner x) := by
  intro s r hrun
  obtain ⟨t, ht, hr⟩ := Option.map_eq_some_iff.mp hrun
  exact Option.map_eq_some_iff.mpr ⟨t, h _ _ ht, hr⟩

end Extends

/-! ## Total correctness through an abstraction -/

variable {τ : Type} {ok : σ → Prop} {abs : σ → τ} {v : τ} {Q Q' : α → τ → Prop}

/-- **Total correctness.**  From every sound state that `abs` takes to `v` the program returns,
in a sound state, and `Q` holds of its result and of what `abs` makes of that state. -/
def Yields (ok : σ → Prop) (abs : σ → τ) (x : Program σ α) (v : τ) (Q : α → τ → Prop) : Prop :=
  ∀ s, ok s → abs s = v → ∃ a s', x s = some (a, s') ∧ ok s' ∧ Q a (abs s')

namespace Yields

theorem pure {a : α} (h : Q a v) : Yields ok abs (pure a) v Q := by
  rintro s hok rfl
  exact ⟨a, s, rfl, hok, h⟩

theorem bind {f : α → Program σ β} {Q' : β → τ → Prop}
    (h : Yields ok abs x v fun a w => Yields ok abs (f a) w Q') :
    Yields ok abs (x >>= f) v Q' := by
  intro s hok hs
  obtain ⟨a, t, hx, hok', hf⟩ := h s hok hs
  obtain ⟨b, u, hfu, hok'', hQ⟩ := hf t hok' rfl
  exact ⟨b, u, Option.bind_eq_some_iff.mpr ⟨(a, t), hx, hfu⟩, hok'', hQ⟩

theorem mono (h : Yields ok abs x v Q) (hQ : ∀ a w, Q a w → Q' a w) : Yields ok abs x v Q' := by
  intro s hok hs
  obtain ⟨a, t, hx, hok', h'⟩ := h s hok hs
  exact ⟨a, t, hx, hok', hQ a _ h'⟩

theorem map {f : α → β} {Q' : β → τ → Prop} (h : Yields ok abs x v fun a => Q' (f a)) :
    Yields ok abs (f <$> x) v Q' :=
  bind (h.mono fun _ _ hQ => pure hQ)

theorem ite {c : Prop} [Decidable c] {y : Program σ α} (ht : c → Yields ok abs x v Q)
    (hf : ¬ c → Yields ok abs y v Q) : Yields ok abs (if c then x else y) v Q := by
  split
  next h => exact ht h
  next h => exact hf h

/-- A change of the state that the abstraction follows. -/
theorem modify {f : σ → σ} {g : τ → τ} {Q : PUnit → τ → Prop} (hok : ∀ s, ok s → ok (f s))
    (hfg : ∀ s, abs (f s) = g (abs s)) (h : Q ⟨⟩ (g v)) :
    Yields ok abs (modify f) v Q := by
  rintro s hs rfl
  exact ⟨⟨⟩, f s, rfl, hok s hs, hfg s ▸ h⟩

/-- A program that looks at the state. -/
theorem get {f : σ → Program σ α} (h : ∀ s, abs s = v → Yields ok abs (f s) v Q) :
    Yields ok abs (MonadState.get >>= f) v Q :=
  fun s hok hs => h s hs s hok hs

/-- A program over the second part. -/
theorem inner {i : ι} {Q : α → ι × τ → Prop} (h : Yields ok abs x v fun a w => Q a (i, w)) :
    Yields (fun s => ok s.2) (Prod.map id abs) (inner x) (i, v) Q := by
  rintro ⟨j, s⟩ hok hs
  obtain ⟨hj, hv⟩ := Prod.mk.inj hs
  obtain ⟨a, t, hx, hok', hQ⟩ := h s hok hv
  subst hj
  exact ⟨a, (j, t), Option.map_eq_some_iff.mpr ⟨(a, t), hx, rfl⟩, hok', hQ⟩

end Yields

end Program
