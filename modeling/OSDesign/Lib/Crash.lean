import Mathlib.Data.Nat.Notation
import OSDesign.Lib.Prog

/-!
# Programs that are cut off

A crash ends a program between two of its operations: what it has computed so far is lost, and the
state stays as the operations performed so far have left it. `Prog.cut step n p s` is the state
after the first `n` operations of `p`, or after all of them if there are fewer. The states that a
program passes through are those in which it can be cut off, its first and its last state among
them.

The passed states of a program are those of its parts (`Prog.passes_bind`, `Prog.passes_perform`,
`Prog.passes_pure`), and a program whose operations leave the state as it is passes through one
state only (`Prog.Steady`).

## Main definitions

* `Prog.cut`, `Prog.Passes`, `Prog.Steady`.

## Main results

* `Prog.passes_bind`: the states of one program after the other.
* `Prog.Steady.bind`, `Prog.Steady.passes_bind`: programs that change nothing.
* `Prog.passes_of_exec`: the last state is passed.
-/

namespace Prog

variable {ε : Type} {ρ : ε → Type} {α β σ : Type} (step : (e : ε) → σ → Option (ρ e × σ))

/-- The state after the first `n` operations of the program. -/
def cut : ℕ → Prog ε ρ α → σ → σ
  | n + 1, .op e k, s => (step e s).elim s fun x => cut n (k x.1) x.2
  | _, _, s => s

/-- The program, started in `s`, passes through `s'`. -/
def Passes (p : Prog ε ρ α) (s s' : σ) : Prop := ∃ n, cut step n p s = s'

/-- The program leaves the state as it is. -/
def Steady (p : Prog ε ρ α) : Prop := ∀ s s', Passes step p s s' → s' = s

variable {step}

theorem cut_zero (p : Prog ε ρ α) (s : σ) : cut step 0 p s = s := by
  cases p <;> rfl

theorem cut_ret (n : ℕ) (a : α) (s : σ) : cut step n (.ret a : Prog ε ρ α) s = s := by
  cases n <;> rfl

theorem cut_fail (n : ℕ) (s : σ) : cut step n (.fail : Prog ε ρ α) s = s := by
  cases n <;> rfl

theorem Passes.refl (p : Prog ε ρ α) (s : σ) : Passes step p s s := ⟨0, cut_zero p s⟩

theorem passes_pure {a : α} {s s' : σ} :
    Passes step (pure a : Prog ε ρ α) s s' ↔ s' = s := by
  constructor
  · rintro ⟨n, rfl⟩
    exact cut_ret n a s
  · rintro rfl
    exact Passes.refl _ s'

theorem passes_fail {s s' : σ} : Passes step (.fail : Prog ε ρ α) s s' ↔ s' = s := by
  constructor
  · rintro ⟨n, rfl⟩
    exact cut_fail n s
  · rintro rfl
    exact Passes.refl _ s'

theorem passes_op {e : ε} {k : ρ e → Prog ε ρ α} {s s' : σ} :
    Passes step (.op e k) s s' ↔
      s' = s ∨ ∃ r t, step e s = some (r, t) ∧ Passes step (k r) t s' := by
  constructor
  · rintro ⟨n, rfl⟩
    cases n with
    | zero => exact Or.inl rfl
    | succ n =>
      rcases hs : step e s with _ | ⟨r, t⟩
      · rw [cut, hs]
        exact Or.inl rfl
      · rw [cut, hs]
        exact Or.inr ⟨r, t, rfl, n, rfl⟩
  · rintro (rfl | ⟨r, t, hs, n, rfl⟩)
    · exact Passes.refl _ s'
    · exact ⟨n + 1, by rw [cut, hs]; rfl⟩

theorem passes_perform {e : ε} {s s' : σ} :
    Passes step (perform e) s s' ↔ s' = s ∨ ∃ r, step e s = some (r, s') := by
  rw [perform, passes_op]
  refine or_congr_right ⟨?_, ?_⟩
  · rintro ⟨r, t, hs, ht⟩
    exact ⟨r, (passes_pure.mp ht) ▸ hs⟩
  · rintro ⟨r, hs⟩
    exact ⟨r, s', hs, Passes.refl _ s'⟩

/-- **One program after the other.** The states of the first one are passed, and when it ends those
of the second one. -/
theorem passes_bind {p : Prog ε ρ α} {k : α → Prog ε ρ β} {s s' : σ} :
    Passes step (p >>= k) s s' ↔
      Passes step p s s' ∨ ∃ a t, exec step p s = some (a, t) ∧ Passes step (k a) t s' := by
  induction p generalizing s with
  | ret a =>
    constructor
    · exact fun h => Or.inr ⟨a, s, rfl, h⟩
    · rintro (h | ⟨a', t, he, h⟩)
      · obtain rfl := passes_pure.mp h
        exact Passes.refl _ s'
      · obtain ⟨rfl, rfl⟩ := Prod.mk.inj (Option.some.inj he)
        exact h
  | fail =>
    rw [show (Prog.fail >>= k) = .fail from rfl, passes_fail, passes_fail]
    refine (or_iff_left ?_).symm
    rintro ⟨_, _, he, -⟩
    cases he
  | op e c ih =>
    rw [show (Prog.op e c >>= k) = .op e fun r => c r >>= k from rfl, passes_op, passes_op,
      or_assoc]
    refine or_congr_right ⟨?_, ?_⟩
    · rintro ⟨r, t, hs, h⟩
      rcases (ih r).mp h with h | ⟨a, u, he, h⟩
      · exact Or.inl ⟨r, t, hs, h⟩
      · exact Or.inr ⟨a, u, by rw [exec, hs, Option.bind_some, he], h⟩
    · rintro (⟨r, t, hs, h⟩ | ⟨a, u, he, h⟩)
      · exact ⟨r, t, hs, (ih r).mpr (Or.inl h)⟩
      · rw [exec] at he
        obtain ⟨⟨r, t⟩, hs, he⟩ := Option.bind_eq_some_iff.mp he
        exact ⟨r, t, hs, (ih r).mpr (Or.inr ⟨a, u, he, h⟩)⟩

/-- A program that ends passes through its last state. -/
theorem passes_of_exec {p : Prog ε ρ α} {s s' : σ} {a : α} (h : exec step p s = some (a, s')) :
    Passes step p s s' := by
  induction p generalizing s with
  | ret b =>
    obtain ⟨rfl, rfl⟩ := Prod.mk.inj (Option.some.inj h)
    exact Passes.refl _ s
  | fail => cases h
  | op e c ih =>
    rw [exec] at h
    obtain ⟨⟨r, t⟩, hs, h⟩ := Option.bind_eq_some_iff.mp h
    exact passes_op.mpr (Or.inr ⟨r, t, hs, ih r h⟩)

/-! ### Programs that change nothing -/

theorem Steady.pure (a : α) : Steady step (Pure.pure a : Prog ε ρ α) := fun _ _ => passes_pure.mp

theorem Steady.perform {e : ε} (h : ∀ s x, step e s = some x → x.2 = s) :
    Steady step (perform e) := by
  intro s s' hp
  rcases passes_perform.mp hp with rfl | ⟨r, hr⟩
  · rfl
  · exact h s _ hr

theorem Steady.eq_of_exec {p : Prog ε ρ α} (h : Steady step p) {s s' : σ} {a : α}
    (he : exec step p s = some (a, s')) : s' = s :=
  h s s' (passes_of_exec he)

theorem Steady.bind {p : Prog ε ρ α} {k : α → Prog ε ρ β} (hp : Steady step p)
    (hk : ∀ a, Steady step (k a)) : Steady step (p >>= k) := by
  intro s s' h
  rcases Prog.passes_bind.mp h with h | ⟨a, t, he, h⟩
  · exact hp s s' h
  · rw [hp.eq_of_exec he] at h
    exact hk a s s' h

theorem Steady.ite {c : Prop} [Decidable c] {p q : Prog ε ρ α} (hp : Steady step p)
    (hq : Steady step q) : Steady step (if c then p else q) := by
  split
  · exact hp
  · exact hq

/-- After a program that changes nothing only what follows it matters. -/
theorem Steady.passes_bind {p : Prog ε ρ α} {k : α → Prog ε ρ β} (hp : Steady step p) {s s' t : σ}
    {a : α} (he : exec step p s = some (a, t)) :
    Passes step (p >>= k) s s' ↔ Passes step (k a) s s' := by
  obtain rfl := hp.eq_of_exec he
  rw [Prog.passes_bind]
  constructor
  · rintro (h | ⟨a', t', he', h⟩)
    · obtain rfl := hp t s' h
      exact Passes.refl _ s'
    · rw [he] at he'
      obtain ⟨rfl, rfl⟩ := Prod.mk.inj (Option.some.inj he')
      exact h
  · exact fun h => Or.inr ⟨a, t, he, h⟩

end Prog
