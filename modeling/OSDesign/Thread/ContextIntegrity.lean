import Mathlib.Tactic
import OSDesign.Lib.Transition
import OSDesign.Thread.Machine

/-!
# Saved contexts belong to their threads

A continuation is saved in the context of the thread that `*running` names, so it lands in the
right place exactly when the processor executes that thread. Between the statement that changes
`*running` and the switch the two differ (`Pc.detached`). In `scheduler` this happens with
`SIGPROF` masked. In `my_pthread_join`, `my_pthread_mutex_lock` and `threadExit` the mask is
restored first, and an interrupt in the window (`Pc.inWindow`) overwrites the context of the next
thread.

## Main results

* `contextInv_machineStep`: every step but an interrupt in the window keeps the contexts apart.
* `context_integrity`: what this gives along a run.
* `interrupt_in_join_overwrites_context`: a run with an interrupt in the window of
  `my_pthread_join`.
-/

namespace OSDesign

open Transition

/-- `*running` already names the next thread. -/
def Pc.detached : Pc → Bool
  | .exitRestore | .joinRestore .. | .lockRestore .. => true
  | pc => pc.inWindow

/-- Statements that are reached only with `SIGPROF` masked, the ones that matter here: those that
change `*running`, and those that restore the mask afterwards. -/
def Pc.isMasked : Pc → Bool
  | .exitBody .. | .joinBody .. | .lockBody _ | .exitRestore | .joinRestore .. | .lockRestore .. =>
    true
  | _ => false

/-- The thread whose context the variable `old` points to. -/
def Pc.old : Pc → Option Tid
  | .joinRestore old _ _ | .joinSwitch old _ _ | .lockRestore old _ | .lockSwitch old _ => some old
  | _ => none

/-- What holds of every continuation: the masked statements are reached masked, and `old` points
to the context of the thread whose code is executed. -/
structure Cont.WellFormed (c : Cont) : Prop where
  masked : c.pc.isMasked = true → c.masked = true
  old : ∀ t, c.pc.old = some t → t = c.owner

/-- A context from which `t` can be resumed. -/
structure Cont.Resumes (t : Tid) (c : Cont) : Prop extends c.WellFormed where
  owner : c.owner = t
  attached : c.pc.detached = false

/-- The invariant of the contexts. -/
structure ContextInv (s : Machine) : Prop where
  saved : ∀ t, (s.ctx t).Resumes t
  wellFormed : s.cpu.WellFormed
  attached : s.cpu.pc.detached = false → s.cpu.owner = s.os.running

theorem Pc.isMasked_or_inWindow {pc : Pc} (h : pc.detached = true) :
    pc.isMasked = true ∨ pc.inWindow = true := by
  cases pc <;> simp_all [Pc.detached, Pc.isMasked, Pc.inWindow]

/-- A continuation at a statement that changes nothing about `*running`. -/
theorem Cont.WellFormed.of_plain {c : Cont} (hm : c.pc.isMasked = false)
    (ho : c.pc.old = none) : c.WellFormed where
  masked h := absurd (hm.symm.trans h) (by decide)
  old t h := absurd (ho.symm.trans h) (by simp)

theorem Cont.resumes_fresh (t : Tid) : (Cont.fresh t).Resumes t :=
  ⟨.of_plain rfl rfl, rfl, rfl⟩

theorem contextInv_start (os : OS) : ContextInv (Machine.start os) :=
  ⟨Cont.resumes_fresh, .of_plain rfl rfl, fun _ => rfl⟩

/-! ### The kinds of statements -/

section Steps

variable {s : Machine}

/-- A statement that goes on in the same thread, with `*running` unchanged. -/
theorem ContextInv.setCpu (h : ContextInv s) {o : OS} {c : Cont} (ha : s.cpu.pc.detached = false)
    (hr : o.running = s.os.running) (ho : c.owner = s.cpu.owner) (hc : c.WellFormed) :
    ContextInv ((s.setOS o).setCpu c) :=
  ⟨h.saved, hc, fun _ => ho.trans ((h.attached ha).trans hr.symm)⟩

/-- A statement between the change of `*running` and the switch. -/
theorem ContextInv.detach (h : ContextInv s) {o : OS} {c : Cont} (hd : c.pc.detached = true)
    (hc : c.WellFormed) : ContextInv ((s.setOS o).setCpu c) :=
  ⟨h.saved, hc, fun ha => absurd (hd.symm.trans ha) (by decide)⟩

/-- The processor loads the context of `*running`. -/
theorem ContextInv.load (h : ∀ t, (s.ctx t).Resumes t) : ContextInv s.load :=
  ⟨h, (h _).toWellFormed, fun _ => (h _).owner⟩

theorem ContextInv.resumes_update (h : ContextInv s) {t : Tid} {c : Cont} (hc : c.Resumes t)
    (u : Tid) : (Function.update s.ctx t c u).Resumes u := by
  by_cases hu : u = t
  · subst hu
    rwa [Function.update_self]
  · rw [Function.update_of_ne hu]
    exact h.saved u

/-- `interrupt` and `scheduler`, when the processor executes `*running`. -/
theorem ContextInv.interrupt (h : ContextInv s) {pc : Pc} (ha : s.cpu.pc.detached = false)
    (hc : (s.cpu.goto pc).WellFormed) (hpc : pc.detached = false) : ContextInv (s.interrupt pc) :=
  ContextInv.load (h.resumes_update ⟨hc, h.attached ha, hpc⟩)

/-- `swapcontext` to the context of `*running`. -/
theorem ContextInv.swap (h : ContextInv s) {old : Tid} {pc : Pc} (ho : s.cpu.pc.old = some old)
    (hc : (s.cpu.goto pc).WellFormed) (hpc : pc.detached = false) : ContextInv (s.swap old pc) :=
  ContextInv.load (h.resumes_update ⟨hc, (h.wellFormed.old old ho).symm, hpc⟩)

end Steps

/-! ### The masked sections -/

section Sections

variable {s s' : Machine}

theorem running_yieldPriority (s : OS) : (yieldPriority s).running = s.running := by
  unfold yieldPriority
  split_ifs <;> rfl

theorem running_myPthreadMutexUnlock (m : Mid) (s : OS) :
    (myPthreadMutexUnlock m s).running = s.running := by
  unfold myPthreadMutexUnlock
  split <;> rfl

theorem ContextInv.exitSection (h : ContextInv s) {res : Option ℕ} {inRun : Bool}
    (hpc : s.cpu.pc = .exitBody res inRun) (hs : s.exitSection res inRun = some s') :
    ContextInv s' := by
  obtain ⟨os, hdrain, hs⟩ := Option.bind_eq_some_iff.mp hs
  obtain ⟨_, _, rfl⟩ := Option.map_eq_some_iff.mp hdrain
  split_ifs at hs
  · obtain rfl := Option.some.inj hs
    exact h.setCpu (by rw [hpc]; rfl) rfl rfl (.of_plain rfl rfl)
  · obtain ⟨os', _, rfl⟩ := Option.map_eq_some_iff.mp hs
    exact h.detach rfl ⟨fun _ => h.wellFormed.masked (by rw [hpc]; rfl), fun t ht => by cases ht⟩

theorem ContextInv.joinSection (h : ContextInv s) {t : Tid} {valuePtr : Bool}
    (hpc : s.cpu.pc = .joinBody t valuePtr) (hs : s.joinSection t valuePtr = some s') :
    ContextInv s' := by
  have ha : s.cpu.pc.detached = false := by rw [hpc]; rfl
  unfold Machine.joinSection at hs
  split_ifs at hs
  · obtain rfl := Option.some.inj hs
    exact h.setCpu (o := s.os) ha rfl rfl (.of_plain rfl rfl)
  · obtain ⟨os, hpush, hs⟩ := Option.bind_eq_some_iff.mp hs
    obtain ⟨_, _, rfl⟩ := Option.map_eq_some_iff.mp hpush
    split_ifs at hs
    · obtain rfl := Option.some.inj hs
      exact h.setCpu ha rfl rfl (.of_plain rfl rfl)
    · obtain ⟨os', _, rfl⟩ := Option.map_eq_some_iff.mp hs
      refine h.detach rfl ⟨fun _ => h.wellFormed.masked (by rw [hpc]; rfl), fun u hu => ?_⟩
      exact (Option.some.inj hu).symm.trans (h.attached ha).symm

theorem ContextInv.lockBody (h : ContextInv s) {m : Mid} {os : OS}
    (hpc : s.cpu.pc = .lockBody m) :
    ContextInv ((s.setOS os).goto (.lockRestore s.os.running m)) := by
  refine h.detach rfl ⟨fun _ => h.wellFormed.masked (by rw [hpc]; rfl), fun u hu => ?_⟩
  exact (Option.some.inj hu).symm.trans (h.attached (by rw [hpc]; rfl)).symm

end Sections

/-- Every statement keeps the invariant. -/
theorem contextInv_exec {s s' : Machine} (h : ContextInv s) (hs : s.exec = some s') :
    ContextInv s' := by
  have hgo {os : OS} {c : Cont} := @ContextInv.setCpu s h os c
  have hold {old : Tid} {pc : Pc} := @ContextInv.swap s h old pc
  unfold Machine.exec at hs
  cases hpc : s.cpu.pc with
  | user | done => simp [hpc] at hs
  | createMask | yieldMask | runMask | unlockMask | createRestore | yieldRestore | joinReturn
  | lockElse | unlockRestore | tasLoad | tasStore =>
    simp only [hpc, Option.some.injEq] at hs hgo
    subst hs
    exact hgo rfl rfl rfl (.of_plain rfl rfl)
  | exitMask | joinMask | lockMask =>
    simp only [hpc, Option.some.injEq] at hs hgo
    subst hs
    exact hgo rfl rfl rfl ⟨fun _ => rfl, fun _ ht => by cases ht⟩
  | exitReturn inRun =>
    simp only [hpc, Option.some.injEq] at hs hgo
    subst hs
    cases inRun <;> exact hgo rfl rfl rfl (.of_plain rfl rfl)
  | createBody now =>
    simp only [hpc, Option.some.injEq] at hs hgo
    subst hs
    have hc : ContextInv ((s.setOS (myPthreadCreate now s.os)).goto .createRestore) :=
      hgo rfl rfl rfl (.of_plain rfl rfl)
    exact ⟨h.resumes_update (Cont.resumes_fresh _), hc.wellFormed, hc.attached⟩
  | yieldBody =>
    simp only [hpc, Option.some.injEq] at hs hgo
    subst hs
    have hy : ContextInv (s.setOS (yieldPriority s.os)) :=
      ⟨h.saved, h.wellFormed, fun ha => (h.attached ha).trans (running_yieldPriority s.os).symm⟩
    exact hy.interrupt (by rw [Machine.cpu_setOS, hpc]; rfl) (.of_plain rfl rfl) rfl
  | exitBody res inRun =>
    rw [hpc] at hs
    exact h.exitSection hpc hs
  | joinBody t valuePtr =>
    rw [hpc] at hs
    exact h.joinSection hpc hs
  | joinValue t valuePtr =>
    simp only [hpc] at hs hgo
    obtain ⟨_, _, rfl⟩ := Option.map_eq_some_iff.mp hs
    exact hgo rfl rfl rfl (.of_plain rfl rfl)
  | lockTest m old =>
    simp only [hpc] at hs hgo
    split_ifs at hs <;> obtain rfl := Option.some.inj hs
    · exact hgo rfl rfl rfl (.of_plain rfl rfl)
    · have hu : ContextInv (s.goto .user) := hgo rfl rfl rfl (.of_plain rfl rfl)
      exact ⟨hu.saved, hu.wellFormed, hu.attached⟩
  | lockBody m =>
    simp only [hpc] at hs hgo
    split_ifs at hs
    · obtain ⟨os, _, rfl⟩ := Option.map_eq_some_iff.mp hs
      exact h.lockBody hpc
    · obtain rfl := Option.some.inj hs
      exact hgo rfl rfl rfl (.of_plain rfl rfl)
  | unlockBody m =>
    simp only [hpc, Option.some.injEq] at hs hgo
    subst hs
    exact hgo rfl (running_myPthreadMutexUnlock m s.os) rfl (.of_plain rfl rfl)
  | exitRestore | joinRestore | lockRestore =>
    have hold := h.wellFormed.old
    simp only [hpc, Option.some.injEq] at hs hold
    subst hs
    exact h.detach (o := s.os) rfl ⟨fun hm => (by cases hm), hold⟩
  | exitSwitch =>
    simp only [hpc, Option.some.injEq] at hs
    subst hs
    exact ContextInv.load h.saved
  | joinSwitch | lockSwitch =>
    simp only [hpc, Option.some.injEq] at hs hold
    subst hs
    exact hold rfl (.of_plain rfl rfl) rfl

theorem contextInv_call {s s' : Machine} {c : LibCall} (h : ContextInv s)
    (hpc : s.cpu.pc = .user) (hs : s.call c = some s') : ContextInv s' := by
  have ha : s.cpu.pc.detached = false := by rw [hpc]; rfl
  have hgo (pc : Pc) (hm : pc.isMasked = false) (ho : pc.old = none) : ContextInv (s.goto pc) :=
    h.setCpu (o := s.os) ha rfl rfl (.of_plain hm ho)
  cases c with
  | create | yield | exit | join | lock =>
    obtain rfl := Option.some.inj hs
    exact hgo _ rfl rfl
  | ret res =>
    simp only [Machine.call] at hs
    split_ifs at hs
    obtain rfl := Option.some.inj hs
    exact hgo _ rfl rfl
  | mutexInit =>
    obtain rfl := Option.some.inj hs
    exact ⟨h.saved, h.wellFormed, h.attached⟩
  | unlock m =>
    obtain rfl := Option.some.inj hs
    have hu := hgo (.unlockMask m) rfl rfl
    exact ⟨hu.saved, hu.wellFormed, hu.attached⟩

/-! ### Runs -/

/-- No interrupt arrives between the restoring of the mask and the switch. -/
def NoTimerInWindow (s : Machine) : Event → Prop
  | .timer => s.cpu.pc.inWindow = false
  | _ => True

instance (s : Machine) (e : Event) : Decidable (NoTimerInWindow s e) := by
  rcases e <;> dsimp only [NoTimerInWindow] <;> infer_instance

/-- Where `SIGPROF` can be delivered outside the window, the processor executes `*running`. -/
theorem ContextInv.attached_of_unmasked {s : Machine} (h : ContextInv s)
    (hm : s.cpu.masked = false) (hw : s.cpu.pc.inWindow = false) :
    s.cpu.pc.detached = false := by
  by_contra hd
  rcases Pc.isMasked_or_inWindow (by simpa using hd) with hmask | hwin
  · exact absurd (h.wellFormed.masked hmask) (by simp [hm])
  · exact absurd hwin (by simp [hw])

/-- Every step but an interrupt in the window keeps the invariant. -/
theorem contextInv_machineStep {s s' : Machine} {e : Event} (h : ContextInv s)
    (hok : NoTimerInWindow s e) (hs : machineStep s e = some s') : ContextInv s' := by
  cases e with
  | call c =>
    simp only [machineStep] at hs
    split_ifs at hs with hpc
    exact contextInv_call h hpc hs
  | exec => exact contextInv_exec h hs
  | timer =>
    simp only [machineStep] at hs
    split_ifs at hs with hm
    obtain rfl := Option.some.inj hs
    have ha := h.attached_of_unmasked (by simpa using hm) hok
    exact h.interrupt ha h.wellFormed ha

/-- **Context integrity.** Along every run without an interrupt in the window, every saved context
is a continuation of its own thread; and whenever `SIGPROF` is not masked, outside the window,
`*running` names the thread the processor executes. -/
theorem context_integrity (os : OS) (es : List Event) (s : Machine)
    (hok : RunOk machineStep NoTimerInWindow (Machine.start os) es)
    (hrun : run machineStep (Machine.start os) es = some s) :
    (∀ t, (s.ctx t).owner = t) ∧
      (s.cpu.masked = false → s.cpu.pc.inWindow = false → s.cpu.owner = s.os.running) := by
  have h := run_invariant (fun _ _ _ hi hok hs => contextInv_machineStep hi hok hs)
    (contextInv_start os) hok hrun
  exact ⟨fun t => (h.saved t).owner, fun hm hw => h.attached (h.attached_of_unmasked hm hw)⟩

/-- Main creates a thread, joins it, and the new thread is preempted: main is still at its
`swapcontext` when the mask is restored, and the interrupt arrives after the switch. -/
theorem context_integrity_join :
    ∃ s, run machineStep (Machine.start (initOS 0))
        [.call (.create 0), .exec, .exec, .exec, .call (.join 1 false), .exec, .exec, .exec, .exec,
          .timer] = some s ∧
      (s.ctx 0).owner = 0 ∧ (s.ctx 1).owner = 1 ∧ s.cpu.owner = s.os.running := by
  have hend : ((run machineStep (Machine.start (initOS 0))
        [.call (.create 0), .exec, .exec, .exec, .call (.join 1 false), .exec, .exec, .exec, .exec,
          .timer]).map fun s => (s.cpu.masked, s.cpu.pc)) = some (false, .user) := by
    decide
  obtain ⟨s, hs, hcpu⟩ := Option.map_eq_some_iff.mp hend
  have h := context_integrity (initOS 0) _ s (by decide) hs
  obtain ⟨hm, hpc⟩ := Prod.mk.inj hcpu
  exact ⟨s, hs, h.1 0, h.1 1, h.2 hm (by rw [hpc]; rfl)⟩

/-- Main creates a thread and joins it. The interrupt arrives after `my_pthread_join` has restored
the mask and before its `swapcontext`: the continuation of main is saved in the context of the new
thread, whose own continuation is lost. `*running` names the new thread, the processor executes
main, and `SIGPROF` is not masked. -/
theorem interrupt_in_join_overwrites_context :
    ∃ s, run machineStep (Machine.start (initOS 0))
        [.call (.create 0), .exec, .exec, .exec, .call (.join 1 false), .exec, .exec, .exec,
          .timer] = some s ∧
      s.ctx 1 = ⟨0, .joinSwitch 0 1 false, false, false⟩ ∧ s.os.running = 1 ∧ s.cpu.owner = 0 ∧
      s.cpu.masked = false := by
  have hend : ((run machineStep (Machine.start (initOS 0))
        [.call (.create 0), .exec, .exec, .exec, .call (.join 1 false), .exec, .exec, .exec,
          .timer]).map fun s => (s.ctx 1, s.os.running, s.cpu)) =
        some (⟨0, .joinSwitch 0 1 false, false, false⟩, 1,
          ⟨0, .joinSwitch 0 1 false, false, false⟩) := by
    decide
  obtain ⟨s, hs, hend⟩ := Option.map_eq_some_iff.mp hend
  obtain ⟨hctx, hend⟩ := Prod.mk.inj hend
  obtain ⟨hrunning, hcpu⟩ := Prod.mk.inj hend
  exact ⟨s, hs, hctx, hrunning, by rw [hcpu], by rw [hcpu]⟩

end OSDesign
