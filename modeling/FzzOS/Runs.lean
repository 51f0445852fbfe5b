/-
# Runs of a system under a discipline

A system takes calls one after the other: `apply c s` is the state after call `c`, and
`valid s c` is what the caller promises when it makes the call in state `s`.

* `Run.invariant`, `Run.exists_valid` : what every valid call keeps, every run keeps, and each
  of its calls was valid;
* `Run.refines` : if every valid call does to an abstraction of the state what `spec`
  says, a run does the fold of `spec`;
* `Run.extend`, `run_foldl` : a run can go on as long as calls stay valid;
* `foldl_override` : a fold of updates of a function, read at one point;
* `Steps.refines` : the same for a system whose steps leave a choice, along a simulation.
-/
import Mathlib.Data.List.Basic
import Mathlib.Data.List.Induction
import Mathlib.Tactic.Common

namespace Runs

variable {σ γ A : Type*} {apply : γ → σ → σ} {valid valid' : σ → γ → Prop} {s₀ s : σ}
  {calls : List γ}

/-- The runs from `s₀` in which every call is valid, with the calls made. -/
inductive Run (apply : γ → σ → σ) (valid : σ → γ → Prop) (s₀ : σ) : List γ → σ → Prop
  | start : Run apply valid s₀ [] s₀
  | step {calls : List γ} {s : σ} {c : γ} (h : Run apply valid s₀ calls s) (hv : valid s c) :
      Run apply valid s₀ (calls ++ [c]) (apply c s)

/-- **Invariants.** -/
theorem Run.invariant {P : σ → Prop} (h₀ : P s₀)
    (hstep : ∀ s c, P s → valid s c → P (apply c s)) (hrun : Run apply valid s₀ calls s) :
    P s := by
  induction hrun with
  | start => exact h₀
  | step _ hv ih => exact hstep _ _ ih hv

/-- Every call of a run was valid when it was made. -/
theorem Run.exists_valid {c : γ} (hrun : Run apply valid s₀ calls s) (hc : c ∈ calls) :
    ∃ s', valid s' c := by
  induction hrun with
  | start => exact absurd hc List.not_mem_nil
  | @step _ s d _ hv ih =>
    rcases List.mem_append.mp hc with hc | hc
    · exact ih hc
    · exact ⟨s, List.mem_singleton.mp hc ▸ hv⟩

/-- **Refinement.** -/
theorem Run.refines {P : σ → Prop} (abs : σ → A) (spec : γ → A → A) (h₀ : P s₀)
    (hstep : ∀ s c, P s → valid s c → P (apply c s))
    (hsim : ∀ s c, P s → valid s c → abs (apply c s) = spec c (abs s))
    (hrun : Run apply valid s₀ calls s) :
    abs s = calls.foldl (fun a c => spec c a) (abs s₀) := by
  induction hrun with
  | start => rfl
  | step h hv ih =>
    rw [hsim _ _ (h.invariant h₀ hstep) hv, ih, List.foldl_append]
    rfl

/-- **Progress.** -/
theorem Run.extend {P : σ → Prop} (hstep : ∀ s c, P s → valid s c ∧ P (apply c s))
    (hrun : Run apply valid s₀ calls s) (h : P s) (more : List γ) :
    ∃ s', Run apply valid s₀ (calls ++ more) s' ∧ P s' := by
  induction more generalizing calls s with
  | nil => exact ⟨s, by rwa [List.append_nil], h⟩
  | cons c more ih =>
    obtain ⟨hv, h'⟩ := hstep s c h
    obtain ⟨s', hrun', hs'⟩ := ih (hrun.step hv) h'
    exact ⟨s', by rwa [List.append_assoc] at hrun', hs'⟩

/-- Without a discipline every list of calls is a run. -/
theorem run_foldl (apply : γ → σ → σ) (s₀ : σ) (calls : List γ) :
    Run apply (fun _ _ => True) s₀ calls (calls.foldl (fun s c => apply c s) s₀) := by
  induction calls using List.reverseRecOn with
  | nil => exact .start
  | append_singleton calls c ih =>
    rw [List.foldl_append]
    exact ih.step trivial

/-- **Overrides.**  If the updates that hit `b` agree on the value `x`, it does not matter in
which order they come, nor how often. -/
theorem foldl_override {B : Type*} (hits : γ → B → Prop) [∀ c b, Decidable (hits c b)]
    (value : γ → B → A) (f : B → A) (b : B) {x : A}
    (hx : ∀ c ∈ calls, hits c b → value c b = x) :
    calls.foldl (fun f c b => if hits c b then value c b else f b) f b
      = if ∃ c ∈ calls, hits c b then x else f b := by
  induction calls generalizing f with
  | nil => simp
  | cons c calls ih =>
    rw [List.foldl_cons, ih _ fun d hd => hx d (List.mem_cons_of_mem c hd)]
    simp only [List.exists_mem_cons_iff]
    by_cases hc : hits c b
    · simp only [hc, true_or, if_true, hx c List.mem_cons_self hc, ite_self]
    · simp only [hc, false_or, if_false]

/-! ## Systems with choices -/

variable {τ Λ : Type*} {step : σ → Λ → σ → Prop} {spec : τ → Λ → τ → Prop}
  {allowed : τ → Λ → Prop} {ls : List Λ} {s' : σ} {t : τ}

/-- A run of a system whose steps have labels. -/
inductive Steps (step : σ → Λ → σ → Prop) : σ → List Λ → σ → Prop
  | nil (s : σ) : Steps step s [] s
  | cons {s s' s'' : σ} {l : Λ} {ls : List Λ} (h : step s l s') (hrest : Steps step s' ls s'') :
      Steps step s (l :: ls) s''

/-- Each label is allowed when its turn comes, however the specification gets there. -/
def Follows (spec : τ → Λ → τ → Prop) (allowed : τ → Λ → Prop) : τ → List Λ → Prop
  | _, [] => True
  | t, l :: ls => allowed t l ∧ ∀ t', spec t l t' → Follows spec allowed t' ls

/-- **Simulation.**  If every allowed step is a step of the specification between states related
to it, a run that follows the rules is a run of the specification. -/
theorem Steps.refines {R : σ → τ → Prop}
    (hstep : ∀ s t l s', R s t → allowed t l → step s l s' → ∃ t', spec t l t' ∧ R s' t')
    (hrun : Steps step s ls s') (hR : R s t) (hrules : Follows spec allowed t ls) :
    ∃ t', Steps spec t ls t' ∧ R s' t' := by
  induction hrun generalizing t with
  | nil s => exact ⟨t, .nil t, hR⟩
  | cons h _ ih =>
    obtain ⟨t₁, hspec, hR₁⟩ := hstep _ _ _ _ hR hrules.1 h
    obtain ⟨t', hrun', hR'⟩ := ih hR₁ (hrules.2 t₁ hspec)
    exact ⟨t', .cons hspec hrun', hR'⟩

end Runs
