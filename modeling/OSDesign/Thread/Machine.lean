import Mathlib.Tactic
import OSDesign.Lib.Transition
import OSDesign.Thread.Scheduler

/-!
# The thread library, statement by statement

Here the library runs on a processor that executes one thread's code at a time, and `SIGPROF` may
arrive between any two statements while it is not masked. A continuation (`Cont`) says whose code
it is, which statement comes next (`Pc`), and what the signal mask and the variable `oldmask` of
the current call are. The field `context` of a thread record is a saved continuation
(`Machine.ctx`), and the processor executes another one (`Machine.cpu`).

The statements between two accesses to data that other threads can see are taken together, and
so are the statements executed while `SIGPROF` is masked, up to the restoring of the mask. What
remains are the two accesses of `testAndSet`, each `sigprocmask`, and each switch of contexts:

* `interrupt` saves the continuation of the processor in the context of `*running`; `scheduler`
  then loads the context of the new `*running`. Between the two `SIGPROF` is masked, and the
  return from the signal handler unmasks it, so they are one step (`Machine.interrupt`).
* `my_pthread_join`, `my_pthread_mutex_lock` and `threadExit` change `*running`, restore the mask,
  and switch in a further statement.

## Main definitions

* `Pc`, `Cont`, `Machine`, `LibCall`, `Event`.
* `Machine.exec`, `Machine.interrupt`, `machineStep`.
* `Pc.inWindow`: the statements after the mask is restored and before the switch.
-/

namespace OSDesign

/-- The statement a thread executes next. -/
inductive Pc where
  /-- Code outside the library. -/
  | user
  /-- `my_pthread_create`. -/
  | createMask (now : UInt64)
  | createBody (now : UInt64)
  | createRestore
  /-- `my_pthread_yield`. -/
  | yieldMask
  | yieldBody
  | yieldRestore
  /-- `threadRun`, after the function of the thread has returned. -/
  | runMask (res : Option ℕ)
  /-- `threadExit`, called by `threadRun` or not. -/
  | exitMask (res : Option ℕ) (inRun : Bool)
  | exitBody (res : Option ℕ) (inRun : Bool)
  | exitRestore
  | exitSwitch
  | exitReturn (inRun : Bool)
  /-- The end of `threadRun`: there is no context to go on with. -/
  | done
  /-- `my_pthread_join`. The variable `old` points to the context of the calling thread. -/
  | joinMask (t : Tid) (valuePtr : Bool)
  | joinBody (t : Tid) (valuePtr : Bool)
  | joinRestore (old : Tid) (t : Tid) (valuePtr : Bool)
  | joinSwitch (old : Tid) (t : Tid) (valuePtr : Bool)
  | joinValue (t : Tid) (valuePtr : Bool)
  | joinReturn
  /-- `my_pthread_mutex_lock`, with the load, the store and the return of `testAndSet`. -/
  | tasLoad (m : Mid)
  | tasStore (m : Mid) (s : ℕ)
  | lockTest (m : Mid) (s : ℕ)
  | lockMask (m : Mid)
  | lockBody (m : Mid)
  | lockRestore (old : Tid) (m : Mid)
  | lockSwitch (old : Tid) (m : Mid)
  | lockElse (m : Mid)
  /-- `my_pthread_mutex_unlock`. -/
  | unlockMask (m : Mid)
  | unlockBody (m : Mid)
  | unlockRestore
deriving DecidableEq

/-- A continuation: whose code it is, where it stands, and the signal mask. `oldmask` and `masked`
say whether `SIGPROF` is blocked. -/
structure Cont where
  owner : Tid
  pc : Pc
  oldmask : Bool
  masked : Bool
deriving DecidableEq

namespace Cont

/-- Go on at another statement. -/
def goto (c : Cont) (pc : Pc) : Cont := { c with pc := pc }

/-- `sigprocmask(SIG_BLOCK, &sa->sa_mask, &oldmask)`. -/
def block (c : Cont) (pc : Pc) : Cont := { c with pc := pc, oldmask := c.masked, masked := true }

/-- `sigprocmask(SIG_SETMASK, &oldmask, NULL)`. -/
def setMask (c : Cont) (pc : Pc) : Cont := { c with pc := pc, masked := c.oldmask }

/-- The continuation that `makecontext` builds for a new thread, with an empty signal mask. -/
def fresh (t : Tid) : Cont := ⟨t, .user, false, false⟩

section Fields

variable (c : Cont) (pc : Pc) (t : Tid)

@[simp] theorem owner_goto : (c.goto pc).owner = c.owner := rfl
@[simp] theorem pc_goto : (c.goto pc).pc = pc := rfl
@[simp] theorem masked_goto : (c.goto pc).masked = c.masked := rfl
@[simp] theorem owner_block : (c.block pc).owner = c.owner := rfl
@[simp] theorem pc_block : (c.block pc).pc = pc := rfl
@[simp] theorem masked_block : (c.block pc).masked = true := rfl
@[simp] theorem owner_setMask : (c.setMask pc).owner = c.owner := rfl
@[simp] theorem pc_setMask : (c.setMask pc).pc = pc := rfl
@[simp] theorem owner_fresh : (fresh t).owner = t := rfl
@[simp] theorem pc_fresh : (fresh t).pc = .user := rfl

end Fields

end Cont

/-- The library, the processor and the saved contexts. `holds m t` records that `t` has returned
from `my_pthread_mutex_lock` on `m` and has not called `my_pthread_mutex_unlock` on it since. -/
structure Machine where
  os : OS
  cpu : Cont
  ctx : Tid → Cont
  holds : Mid → Tid → Bool

namespace Machine

/-- The processor executes `c` from now on. -/
def setCpu (s : Machine) (c : Cont) : Machine := { s with cpu := c }

/-- The data of the library changes. -/
def setOS (s : Machine) (os : OS) : Machine := { s with os := os }

/-- The continuation `c` is saved in the context of `t`. -/
def save (s : Machine) (t : Tid) (c : Cont) : Machine :=
  { s with ctx := Function.update s.ctx t c }

/-- `setcontext(&((*running)->context))`. -/
def load (s : Machine) : Machine := { s with cpu := s.ctx s.os.running }

/-- Record whether `t` holds `m`. -/
def setHolds (s : Machine) (m : Mid) (t : Tid) (b : Bool) : Machine :=
  { s with holds := Function.update s.holds m (Function.update (s.holds m) t b) }

/-- Go on at `pc` in the same thread. -/
def goto (s : Machine) (pc : Pc) : Machine := s.setCpu (s.cpu.goto pc)

/-- Mask `SIGPROF` and go on. -/
def block (s : Machine) (pc : Pc) : Machine := s.setCpu (s.cpu.block pc)

/-- Restore the old mask and go on. -/
def setMask (s : Machine) (pc : Pc) : Machine := s.setCpu (s.cpu.setMask pc)

/-- `swapcontext(old, &((*running)->context))`, to go on at `pc` when `old` is loaded. -/
def swap (s : Machine) (old : Tid) (pc : Pc) : Machine := (s.save old (s.cpu.goto pc)).load

/-- `interrupt` followed by `scheduler`, to go on at `pc` when the context saved is loaded. -/
def interrupt (s : Machine) (pc : Pc) : Machine :=
  ((s.save s.os.running (s.cpu.goto pc)).setOS (scheduler s.os)).load

section Fields

variable (s : Machine) (os : OS) (c : Cont) (pc : Pc) (m : Mid) (t : Tid) (b : Bool)

@[simp] theorem os_setOS : (s.setOS os).os = os := rfl
@[simp] theorem cpu_setOS : (s.setOS os).cpu = s.cpu := rfl
@[simp] theorem ctx_setOS : (s.setOS os).ctx = s.ctx := rfl
@[simp] theorem holds_setOS : (s.setOS os).holds = s.holds := rfl
@[simp] theorem os_save : (s.save t c).os = s.os := rfl
@[simp] theorem cpu_save : (s.save t c).cpu = s.cpu := rfl
@[simp] theorem ctx_save : (s.save t c).ctx = Function.update s.ctx t c := rfl
@[simp] theorem holds_save : (s.save t c).holds = s.holds := rfl
@[simp] theorem os_goto : (s.goto pc).os = s.os := rfl
@[simp] theorem cpu_goto : (s.goto pc).cpu = s.cpu.goto pc := rfl
@[simp] theorem ctx_goto : (s.goto pc).ctx = s.ctx := rfl
@[simp] theorem holds_goto : (s.goto pc).holds = s.holds := rfl
@[simp] theorem os_block : (s.block pc).os = s.os := rfl
@[simp] theorem cpu_block : (s.block pc).cpu = s.cpu.block pc := rfl
@[simp] theorem ctx_block : (s.block pc).ctx = s.ctx := rfl
@[simp] theorem holds_block : (s.block pc).holds = s.holds := rfl
@[simp] theorem os_setMask : (s.setMask pc).os = s.os := rfl
@[simp] theorem cpu_setMask : (s.setMask pc).cpu = s.cpu.setMask pc := rfl
@[simp] theorem ctx_setMask : (s.setMask pc).ctx = s.ctx := rfl
@[simp] theorem holds_setMask : (s.setMask pc).holds = s.holds := rfl
@[simp] theorem os_setHolds : (s.setHolds m t b).os = s.os := rfl
@[simp] theorem cpu_setHolds : (s.setHolds m t b).cpu = s.cpu := rfl
@[simp] theorem ctx_setHolds : (s.setHolds m t b).ctx = s.ctx := rfl
@[simp] theorem os_load : s.load.os = s.os := rfl
@[simp] theorem cpu_load : s.load.cpu = s.ctx s.os.running := rfl
@[simp] theorem ctx_load : s.load.ctx = s.ctx := rfl
@[simp] theorem holds_load : s.load.holds = s.holds := rfl

theorem holds_setHolds_self : (s.setHolds m t b).holds m t = b := by
  simp [setHolds]

theorem holds_setHolds_of_ne {m' : Mid} {t' : Tid} (h : m' ≠ m ∨ t' ≠ t) :
    (s.setHolds m t b).holds m' t' = s.holds m' t' := by
  by_cases hm : m' = m
  · subst hm
    have ht : t' ≠ t := h.resolve_left fun hn => hn rfl
    simp [setHolds, Function.update_of_ne ht]
  · simp [setHolds, Function.update_of_ne hm]

end Fields

/-- The masked section of `threadExit`, and where the thread goes on. -/
def exitSection (s : Machine) (res : Option ℕ) (inRun : Bool) : Option Machine :=
  (drainJoiners (markFinished res s.os)).bind fun os =>
    if os.run = [] then some ((s.setOS os).goto (.exitReturn inRun))
    else (switchNext os).map fun os => (s.setOS os).goto .exitRestore

/-- The masked section of `my_pthread_join`, and where the thread goes on. -/
def joinSection (s : Machine) (t : Tid) (valuePtr : Bool) : Option Machine :=
  if (s.os.thread t).finished then some (s.goto (.joinValue t valuePtr))
  else (pushJoiner t s.os).bind fun os =>
    if os.run = [] then some ((s.setOS { os with released := true }).goto (.joinValue t valuePtr))
    else (switchNext os).map fun os =>
      (s.setOS os).goto (.joinRestore s.os.running t valuePtr)

/-- The statement at which the processor stands. `none` when it dereferences `NULL`, when the
thread executes code outside the library, and when there is nothing left to execute. -/
def exec (s : Machine) : Option Machine :=
  match s.cpu.pc with
  | .user => none
  | .createMask now => some (s.block (.createBody now))
  | .createBody now =>
    some (((s.setOS (myPthreadCreate now s.os)).save s.os.created (Cont.fresh s.os.created)).goto
      .createRestore)
  | .createRestore => some (s.setMask .user)
  | .yieldMask => some (s.block .yieldBody)
  | .yieldBody => some ((s.setOS (yieldPriority s.os)).interrupt .yieldRestore)
  | .yieldRestore => some (s.setMask .user)
  | .runMask res => some (s.block (.exitMask res true))
  | .exitMask res inRun => some (s.block (.exitBody res inRun))
  | .exitBody res inRun => s.exitSection res inRun
  | .exitRestore => some (s.setMask .exitSwitch)
  | .exitSwitch => some s.load
  | .exitReturn inRun => some (s.setMask (if inRun then .done else .user))
  | .done => none
  | .joinMask t valuePtr => some (s.block (.joinBody t valuePtr))
  | .joinBody t valuePtr => s.joinSection t valuePtr
  | .joinRestore old t valuePtr => some (s.setMask (.joinSwitch old t valuePtr))
  | .joinSwitch old t valuePtr => some (s.swap old (.joinValue t valuePtr))
  | .joinValue t valuePtr => (joinValue s.os t valuePtr).map fun _ => s.goto .joinReturn
  | .joinReturn => some (s.setMask .user)
  | .tasLoad m => some (s.goto (.tasStore m (s.os.mutex m).state))
  | .tasStore m old =>
    some ((s.setOS (s.os.setMutex m ⟨1, (s.os.mutex m).wait⟩)).goto (.lockTest m old))
  | .lockTest m old =>
    if old = 1 then some (s.goto (.lockMask m))
    else some ((s.goto .user).setHolds m s.cpu.owner true)
  | .lockMask m => some (s.block (.lockBody m))
  | .lockBody m =>
    if (s.os.mutex m).state = 1 then
      (lockBlock m s.os).map fun os => (s.setOS os).goto (.lockRestore s.os.running m)
    else some (s.goto (.lockElse m))
  | .lockRestore old m => some (s.setMask (.lockSwitch old m))
  | .lockSwitch old m => some (s.swap old (.tasLoad m))
  | .lockElse m => some (s.setMask (.tasLoad m))
  | .unlockMask m => some (s.block (.unlockBody m))
  | .unlockBody m => some ((s.setOS (myPthreadMutexUnlock m s.os)).goto .unlockRestore)
  | .unlockRestore => some (s.setMask .user)

end Machine

/-- What code outside the library can do that concerns it. `ret` is the return from the function
of a thread. -/
inductive LibCall where
  | create (now : UInt64)
  | yield
  | exit (res : Option ℕ)
  | ret (res : Option ℕ)
  | join (t : Tid) (valuePtr : Bool)
  | mutexInit
  | lock (m : Mid)
  | unlock (m : Mid)
deriving DecidableEq

/-- The library is entered. `my_pthread_mutex_init` touches only the record it obtains, and is one
step; the main thread has no function to return from. -/
def Machine.call (s : Machine) : LibCall → Option Machine
  | .create now => some (s.goto (.createMask now))
  | .yield => some (s.goto .yieldMask)
  | .exit res => some (s.goto (.exitMask res false))
  | .ret res => if s.cpu.owner = 0 then none else some (s.goto (.runMask res))
  | .join t valuePtr => some (s.goto (.joinMask t valuePtr))
  | .mutexInit => some (s.setOS (myPthreadMutexInit s.os))
  | .lock m => some (s.goto (.tasLoad m))
  | .unlock m => some ((s.goto (.unlockMask m)).setHolds m s.cpu.owner false)

/-- The events of a run. -/
inductive Event where
  | call (c : LibCall)
  | exec
  | timer
deriving DecidableEq

/-- One step of the machine. The timer is delivered only while `SIGPROF` is not masked. -/
def machineStep (s : Machine) : Event → Option Machine
  | .call c => if s.cpu.pc = .user then s.call c else none
  | .exec => s.exec
  | .timer => if s.cpu.masked then none else some (s.interrupt s.cpu.pc)

/-- The machine before the threads of the library `os` have called anything: the processor
executes `*running`, and every context is at the start of its thread's code. -/
def Machine.start (os : OS) : Machine where
  os := os
  cpu := Cont.fresh os.running
  ctx := Cont.fresh
  holds := fun _ _ => false

/-- The old mask is restored, `*running` is already the next thread, and its context is not yet
loaded. -/
def Pc.inWindow : Pc → Bool
  | .exitSwitch | .joinSwitch .. | .lockSwitch .. => true
  | _ => false

end OSDesign
