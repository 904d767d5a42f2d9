import Mathlib.Tactic
import Mathlib.Logic.Function.Basic
import OSDesign.Thread.Queue

/-!
# The thread library as a state machine

The operations of `my_pthread.c` on the state of the library. A thread is named by the address of
its `sthread` record (`Tid`); the queues hold these addresses. `OS.thread` gives the records, of
which those below `OS.created` have been handed out, `mainThread` being the record `0`.

Each operation below is what the source does between the moment it masks `SIGPROF` and the moment
it switches to the next thread; the saved contexts and the signal mask are added in
`OSDesign.Thread.Machine`. A pointer that the source dereferences while it is `NULL` makes the
operation `none`. `virtualMemory` touches no queue and is modelled with the memory manager.

Headers obtained from the allocator are taken as zeroed: `createNewThread` and
`myPthreadMutexInit` give empty lists. The field `waitJoin` of `mainThread` is never set, so it is
`none` (`NULL`).

## Main definitions

* `OS`, `initOS`, `createNewThread`, `myPthreadCreate`, `scheduler`, `myPthreadYield`,
  `threadExit`, `myPthreadJoin`, `testAndSet`, `lockBlock`, `myPthreadMutexLockRound`,
  `myPthreadMutexUnlock`, `myPthreadMutexInit`.
-/

namespace OSDesign

/-- The address of an `sthread` record. -/
abbrev Tid := ℕ

/-- The address of a `lock` record. -/
abbrev Mid := ℕ

/-- The record `sthread`. The field `context` belongs to the machine of `OSDesign.Thread.Machine`;
`res` is the value found behind the pointer `res`, `none` while the pointer is not set. -/
structure Sthread where
  id : Int32
  priority : UInt32
  born : UInt64
  res : Option ℕ
  finished : Bool
  waitJoin : Option (List Tid)
deriving DecidableEq

/-- The record `lock`. -/
structure Lock where
  state : ℕ
  wait : List Tid
deriving DecidableEq

/-- `getPriority`: the unsigned priority, returned as an `int`. -/
def getPriority (t : Sthread) : ℤ := t.priority.toInt32.toInt

/-- `getTimeCreated`: the creation time, returned as an `unsigned int`. -/
def getTimeCreated (t : Sthread) : ℤ := t.born.toUInt32.toNat

/-- The global state of the library. `mutexes` counts the `lock` records handed out, and
`released` says that `my_pthread_join` has given back `run`, `mainThread` and `running`. The library
goes on using them, and so does this model. It does not follow what happens when their blocks are
then handed out again: a list that is created later may lie where the run queue is. -/
structure OS where
  running : Tid
  run : List Tid
  nextId : UInt32
  nSchedulings : UInt32
  created : ℕ
  thread : Tid → Sthread
  mutexes : ℕ
  mutex : Mid → Lock
  released : Bool

namespace OS

/-- The key by which the run queue is ordered. -/
def prio (s : OS) (t : Tid) : ℤ := getPriority (s.thread t)

/-- The key by which the maintenance pass orders the run queue. -/
def age (s : OS) (t : Tid) : ℤ := getTimeCreated (s.thread t)

/-- Change one thread record. -/
def setThread (s : OS) (t : Tid) (r : Sthread) : OS :=
  { s with thread := Function.update s.thread t r }

/-- Change fields of one thread record. -/
def modifyThread (s : OS) (t : Tid) (f : Sthread → Sthread) : OS := s.setThread t (f (s.thread t))

/-- Change one mutex. -/
def setMutex (s : OS) (m : Mid) (l : Lock) : OS :=
  { s with mutex := Function.update s.mutex m l }

/-- Change the run queue. -/
def setRun (s : OS) (l : List Tid) : OS := { s with run := l }

/-- `pushOrdered(0, run, &t)`. -/
def pushRun (s : OS) (t : Tid) : OS := s.setRun (Queue.pushOrdered s.prio s.run t)

section Fields

variable (s : OS) (t : Tid) (f : Sthread → Sthread) (m : Mid) (l : Lock)

@[simp] theorem running_modifyThread : (s.modifyThread t f).running = s.running := rfl

@[simp] theorem run_modifyThread : (s.modifyThread t f).run = s.run := rfl

@[simp] theorem created_modifyThread : (s.modifyThread t f).created = s.created := rfl

@[simp] theorem mutex_modifyThread : (s.modifyThread t f).mutex = s.mutex := rfl

@[simp] theorem thread_modifyThread_self : (s.modifyThread t f).thread t = f (s.thread t) :=
  Function.update_self ..

theorem thread_modifyThread_of_ne {u : Tid} (h : u ≠ t) :
    (s.modifyThread t f).thread u = s.thread u :=
  Function.update_of_ne h ..

@[simp] theorem thread_setMutex : (s.setMutex m l).thread = s.thread := rfl

@[simp] theorem running_setMutex : (s.setMutex m l).running = s.running := rfl

@[simp] theorem run_setMutex : (s.setMutex m l).run = s.run := rfl

@[simp] theorem mutex_setMutex_self : (s.setMutex m l).mutex m = l := Function.update_self ..

theorem mutex_setMutex_of_ne {m' : Mid} (h : m' ≠ m) : (s.setMutex m l).mutex m' = s.mutex m' :=
  Function.update_of_ne h ..

@[simp] theorem thread_pushRun : (s.pushRun t).thread = s.thread := rfl

@[simp] theorem running_pushRun : (s.pushRun t).running = s.running := rfl

@[simp] theorem mutex_pushRun : (s.pushRun t).mutex = s.mutex := rfl

end Fields

end OS

/-- The record of a thread that `createNewThread` sets up at time `now`. -/
def newSthread (id : UInt32) (now : UInt64) : Sthread where
  id := id.toInt32
  priority := 0
  born := now
  res := none
  finished := false
  waitJoin := some []

/-- `initOS` at time `now`: only `mainThread` exists, and it runs. -/
def initOS (now : UInt64) : OS where
  running := 0
  run := []
  nextId := 2
  nSchedulings := 0
  created := 1
  thread := Function.update (fun _ => newSthread 0 0) 0 { newSthread 1 now with waitJoin := none }
  mutexes := 0
  mutex := fun _ => ⟨0, []⟩
  released := false

theorem thread_initOS_of_ne (now : UInt64) {t : Tid} (h : t ≠ 0) :
    (initOS now).thread t = newSthread 0 0 := by
  simp only [initOS]
  exact Function.update_of_ne h ..

/-- `createNewThread`: the next record is filled in; nothing is queued. -/
def createNewThread (now : UInt64) (s : OS) : OS :=
  { s with
    thread := Function.update s.thread s.created (newSthread s.nextId now)
    nextId := s.nextId + 1
    created := s.created + 1 }

/-- `my_pthread_create`, the library being initialised and `thread` not `NULL`. -/
def myPthreadCreate (now : UInt64) (s : OS) : OS :=
  (createNewThread now s).pushRun s.created

/-- The maintenance cycle of `scheduler`: on every 151st scheduling the run queue is rebuilt with
the oldest threads first. -/
def maintenance (s : OS) : OS :=
  let n := s.nSchedulings + 1
  if n > 150 then { s with run := Queue.orderByOldest s.age s.run, nSchedulings := 0 }
  else { s with nSchedulings := n }

/-- `(*running)->priority += 1`. -/
def agePriority (s : OS) : OS :=
  s.modifyThread s.running fun r => { r with priority := r.priority + 1 }

/-- The switch at the end of `scheduler`: the next thread is popped, the running one queued. -/
def rotate (s : OS) : OS :=
  match s.run with
  | [] => s
  | next :: rest =>
    { s with run := Queue.pushOrdered s.prio rest s.running, running := next }

/-- `scheduler`, up to the `setcontext` at its end. -/
def scheduler (s : OS) : OS := rotate (agePriority (maintenance s))

theorem mutex_scheduler (s : OS) : (scheduler s).mutex = s.mutex := by
  simp only [scheduler, rotate, agePriority, maintenance, OS.modifyThread, OS.setThread]
  split <;> split_ifs <;> rfl

/-- The compensation that `my_pthread_yield` makes before it calls `interrupt`. -/
def yieldPriority (s : OS) : OS :=
  if (s.thread s.running).priority > 0 then
    s.modifyThread s.running fun r => { r with priority := r.priority - 1 }
  else s

/-- `my_pthread_yield`, up to the switch made by `scheduler`. -/
def myPthreadYield (s : OS) : OS := scheduler (yieldPriority s)

/-- The first statements of `threadExit`: the thread is finished and its value is stored. -/
def markFinished (res : Option ℕ) (s : OS) : OS :=
  s.modifyThread s.running fun r => { r with finished := true, res := res.or r.res }

/-- The loop of `threadExit`: every thread that joined the running one goes to the run queue. -/
def drainJoiners (s : OS) : Option OS :=
  (s.thread s.running).waitJoin.map fun joiners =>
    (s.modifyThread s.running fun r => { r with waitJoin := some [] }).setRun
      (joiners.foldl (Queue.pushOrdered s.prio) s.run)

/-- `*running = *pop(run)`. -/
def switchNext (s : OS) : Option OS :=
  match s.run with
  | [] => none
  | next :: rest => some { s with running := next, run := rest }

/-- `threadExit`, up to its `setcontext`. With an empty run queue it gives up nothing and returns
to its caller. -/
def threadExit (res : Option ℕ) (s : OS) : Option OS :=
  (drainJoiners (markFinished res s)).bind fun s =>
    if s.run = [] then some s else switchNext s

/-- What `my_pthread_join` stores behind `value_ptr`: nothing when `value_ptr` is `NULL`, and
`none` when it dereferences the unset pointer `thread->res`. -/
def joinValue (s : OS) (t : Tid) (valuePtr : Bool) : Option (Option ℕ) :=
  if valuePtr then (s.thread t).res.map some else some none

/-- `pushOrdered(0, thread->waitJoin, running)`. -/
def pushJoiner (t : Tid) (s : OS) : Option OS :=
  (s.thread t).waitJoin.map fun joiners =>
    s.modifyThread t fun r =>
      { r with waitJoin := some (Queue.pushOrdered s.prio joiners s.running) }

/-- `my_pthread_join`, up to its `swapcontext` when it blocks and up to its end when it does not.
With an empty run queue it gives the records of the library back and goes on. -/
def myPthreadJoin (t : Tid) (valuePtr : Bool) (s : OS) : Option OS :=
  if (s.thread t).finished then (joinValue s t valuePtr).map fun _ => s
  else (pushJoiner t s).bind fun s' =>
    if s'.run = [] then (joinValue s' t valuePtr).map fun _ => { s' with released := true }
    else switchNext s'

/-- `my_pthread_mutex_init`: the next `lock` record. -/
def myPthreadMutexInit (s : OS) : OS :=
  { s with mutex := Function.update s.mutex s.mutexes ⟨0, []⟩, mutexes := s.mutexes + 1 }

/-- `testAndSet` taken as one step: the old state and the library with the state set. -/
def testAndSet (m : Mid) (s : OS) : ℕ × OS :=
  ((s.mutex m).state, s.setMutex m ⟨1, (s.mutex m).wait⟩)

/-- The branch of the masked section of `my_pthread_mutex_lock` in which the thread blocks. -/
def lockBlock (m : Mid) (s : OS) : Option OS :=
  switchNext (s.setMutex m ⟨(s.mutex m).state, Queue.push (s.mutex m).wait s.running⟩)

/-- The masked section of `my_pthread_mutex_lock`, up to its `swapcontext`. -/
def lockSection (m : Mid) (s : OS) : Option OS :=
  if (s.mutex m).state = 1 then lockBlock m s else some s

/-- One round of the loop of `my_pthread_mutex_lock`, taken as one step. -/
def myPthreadMutexLockRound (m : Mid) (s : OS) : Option OS :=
  let r := testAndSet m s
  if r.1 = 1 then lockSection m r.2 else some r.2

/-- `my_pthread_mutex_unlock`. -/
def myPthreadMutexUnlock (m : Mid) (s : OS) : OS :=
  match (s.mutex m).wait with
  | [] => s.setMutex m ⟨0, []⟩
  | t :: rest => (s.setMutex m ⟨0, rest⟩).pushRun t

end OSDesign
