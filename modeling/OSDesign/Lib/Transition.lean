import Mathlib.Data.Option.Basic
import Mathlib.Logic.Basic

/-!
# Runs of a deterministic transition system

A system is a partial step function `step : σ → ε → Option σ`: `step s e` is the state after the
event `e` in `s`, or `none` when `e` cannot happen in `s`. A run is a list of events.

Some systems keep a property only along the runs whose steps all meet a condition on the state in
which the step is taken. `RunOk step ok s es` says that every step of the run `es` from `s` meets
the condition `ok`, and `run_invariant` is the induction rule for such runs. With the condition
`fun _ _ => True` it is the usual invariant rule (`run_invariant_of_step`).

## Main definitions

* `Transition.run`, `Transition.RunOk`, `Transition.decidableRunOk`, `Transition.Reaches`.

## Main results

* `Transition.run_invariant`, `Transition.run_invariant_of_step`, `Transition.exists_run_of_step`.
* `Transition.runOk_append`, `Transition.run_append`: runs and their conditions compose.
* `Transition.reaches_nil`, `Transition.Reaches.concat`: a run that ends, step by step.
* `Transition.run_related`: the simulation rule, for two systems that fail together.
* `Transition.rel_cases`, `Transition.rel_imp`, `Transition.rel_map`, `Transition.rel_and`: values
  of two partial functions that are related.
-/

namespace Transition

variable {σ ε : Type*} (step : σ → ε → Option σ)

/-- The state after a list of events, or `none` when one of them cannot happen. -/
def run : σ → List ε → Option σ
  | s, [] => some s
  | s, e :: es => (step s e).bind fun s' => run s' es

/-- Every step of the run `es` from `s` is taken in a state in which `ok` allows it. -/
def RunOk (ok : σ → ε → Prop) : σ → List ε → Prop
  | _, [] => True
  | s, e :: es => ok s e ∧ ∀ s', step s e = some s' → RunOk ok s' es

@[simp] theorem run_nil (s : σ) : run step s [] = some s := rfl

@[simp] theorem run_cons (s : σ) (e : ε) (es : List ε) :
    run step s (e :: es) = (step s e).bind fun s' => run step s' es := rfl

theorem run_append (s : σ) (es fs : List ε) :
    run step s (es ++ fs) = (run step s es).bind fun s' => run step s' fs := by
  induction es generalizing s with
  | nil => rfl
  | cons e es ih =>
    cases h : step s e with
    | none => simp [h]
    | some s' => simp [h, ih]

theorem run_concat (s : σ) (es : List ε) (e : ε) :
    run step s (es ++ [e]) = (run step s es).bind fun s' => step s' e := by
  simp [run_append]

theorem runOk_append {ok : σ → ε → Prop} {s : σ} {es fs : List ε} :
    RunOk step ok s (es ++ fs) ↔
      RunOk step ok s es ∧ ∀ s', run step s es = some s' → RunOk step ok s' fs := by
  induction es generalizing s with
  | nil => simp [RunOk]
  | cons e es ih =>
    cases h : step s e with
    | none => simp [RunOk, h]
    | some s' => simp [RunOk, h, ih, and_assoc]

theorem runOk_true (s : σ) (es : List ε) : RunOk step (fun _ _ => True) s es := by
  induction es generalizing s with
  | nil => trivial
  | cons e es ih => exact ⟨trivial, fun s' _ => ih s'⟩

/-- On a given run the condition can be evaluated. -/
instance decidableRunOk {ok : σ → ε → Prop} [∀ s e, Decidable (ok s e)] :
    ∀ (s : σ) (es : List ε), Decidable (RunOk step ok s es)
  | _, [] => isTrue trivial
  | s, e :: es =>
    match h : step s e with
    | none => decidable_of_iff (ok s e) (by simp [RunOk, h])
    | some s' =>
      have : Decidable (RunOk step ok s' es) := decidableRunOk s' es
      decidable_of_iff (ok s e ∧ RunOk step ok s' es) (by simp [RunOk, h])

variable {step}

/-- What every allowed step keeps holds at the end of every run whose steps are all allowed. -/
theorem run_invariant {ok : σ → ε → Prop} {Inv : σ → Prop}
    (hstep : ∀ s e s', Inv s → ok s e → step s e = some s' → Inv s')
    {s s' : σ} {es : List ε} (hs : Inv s) (hok : RunOk step ok s es)
    (hrun : run step s es = some s') : Inv s' := by
  induction es generalizing s with
  | nil =>
    obtain rfl : s = s' := by simpa using hrun
    exact hs
  | cons e es ih =>
    obtain ⟨t, ht, hrest⟩ := Option.bind_eq_some_iff.mp hrun
    exact ih (hstep s e t hs hok.1 ht) (hok.2 t ht) hrest

/-- What every step keeps holds at the end of every run. -/
theorem run_invariant_of_step {Inv : σ → Prop}
    (hstep : ∀ s e s', Inv s → step s e = some s' → Inv s')
    {s s' : σ} {es : List ε} (hs : Inv s) (hrun : run step s es = some s') : Inv s' :=
  run_invariant (fun s e s' h _ => hstep s e s' h) hs (runOk_true step s es) hrun

/-- If every event can happen and keeps the invariant, every run ends. -/
theorem exists_run_of_step {Inv : σ → Prop}
    (hstep : ∀ s e, Inv s → ∃ s', step s e = some s' ∧ Inv s') {s : σ} (hs : Inv s) (es : List ε) :
    ∃ s', run step s es = some s' ∧ Inv s' := by
  induction es generalizing s with
  | nil => exact ⟨s, rfl, hs⟩
  | cons e es ih =>
    obtain ⟨t, ht, hinv⟩ := hstep s e hs
    obtain ⟨s', hrun, hs'⟩ := ih hinv
    exact ⟨s', by rw [run_cons, ht, Option.bind_some, hrun], hs'⟩

variable (step) in
/-- The run `es` from `s` ends, its steps are all allowed, and the state after it satisfies `Q`. -/
def Reaches (ok : σ → ε → Prop) (s : σ) (es : List ε) (Q : σ → Prop) : Prop :=
  ∃ s', RunOk step ok s es ∧ run step s es = some s' ∧ Q s'

/-- One more step. -/
theorem Reaches.concat {ok : σ → ε → Prop} {s : σ} {es : List ε} {e : ε} {Q R : σ → Prop}
    (h : Reaches step ok s es Q) (hstep : ∀ t, Q t → ok t e ∧ ∃ u, step t e = some u ∧ R u) :
    Reaches step ok s (es ++ [e]) R := by
  obtain ⟨t, hok, hrun, hq⟩ := h
  obtain ⟨he, u, hu, hr⟩ := hstep t hq
  refine ⟨u, (runOk_append step).mpr ⟨hok, fun t' ht' => ?_⟩, ?_, hr⟩
  · obtain rfl := Option.some.inj (hrun.symm.trans ht')
    exact ⟨he, fun _ _ => trivial⟩
  · rw [run_concat, hrun, Option.bind_some, hu]

theorem rel_cases {α β : Type*} {R : α → β → Prop} {a : Option α} {b : Option β}
    (h : Option.Rel R a b) : (a = none ∧ b = none) ∨ ∃ x y, a = some x ∧ b = some y ∧ R x y := by
  cases h with
  | some h => exact Or.inr ⟨_, _, rfl, rfl, h⟩
  | none => exact Or.inl ⟨rfl, rfl⟩

theorem rel_imp {α β : Type*} {R S : α → β → Prop} {a : Option α} {b : Option β}
    (h : Option.Rel R a b) (himp : ∀ x y, R x y → S x y) : Option.Rel S a b := by
  cases h with
  | some hxy => exact .some (himp _ _ hxy)
  | none => exact .none

theorem rel_map {α β γ δ : Type*} {R : α → β → Prop} {S : γ → δ → Prop} {a : Option α}
    {b : Option β} {f : α → γ} {g : β → δ} (h : Option.Rel R a b)
    (hfg : ∀ x y, R x y → S (f x) (g y)) : Option.Rel S (a.map f) (b.map g) := by
  cases h with
  | some hxy => exact .some (hfg _ _ hxy)
  | none => exact .none

/-- What is known about the first value. -/
theorem rel_and {α β : Type*} {R : α → β → Prop} {P : α → Prop} {a : Option α} {b : Option β}
    (h : Option.Rel R a b) (hP : ∀ x, a = some x → P x) :
    Option.Rel (fun x y => R x y ∧ P x) a b := by
  cases h with
  | some hxy => exact .some ⟨hxy, hP _ rfl⟩
  | none => exact .none

/-- Related values go on to related values, or both fail. -/
theorem rel_bind {α β γ δ : Type*} {R : α → β → Prop} {S : γ → δ → Prop} {a : Option α}
    {b : Option β} {f : α → Option γ} {g : β → Option δ} (h : Option.Rel R a b)
    (hfg : ∀ x y, R x y → Option.Rel S (f x) (g y)) : Option.Rel S (a.bind f) (b.bind g) := by
  cases h with
  | some hxy => exact hfg _ _ hxy
  | none => exact .none

/-- If the steps of two systems agree on related states, their runs do. -/
theorem run_related {σ' : Type*} {step' : σ' → ε → Option σ'} {R : σ → σ' → Prop}
    (hstep : ∀ s s' e, R s s' → Option.Rel R (step s e) (step' s' e)) {s : σ} {s' : σ'} (h : R s s')
    (es : List ε) : Option.Rel R (run step s es) (run step' s' es) := by
  induction es generalizing s s' with
  | nil => exact .some h
  | cons e es ih => exact rel_bind (hstep s s' e h) fun _ _ h' => ih h'

end Transition
