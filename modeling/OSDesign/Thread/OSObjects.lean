import Mathlib.Tactic
import OSDesign.Lib.Prog
import OSDesign.Lib.Transition
import OSDesign.Thread.LinkedList
import OSDesign.VM.Disjointness

/-!
# The objects of the thread library in the memory of the operating system

The records of threads and mutexes, the headers of their lists and the stacks are blocks that
`myallocate` hands out in the memory of the operating system, and a mutex that is destroyed gives
its two blocks back. Here the calls are programs over this memory, byte by byte: `alloc` and `free`
are the allocator with the request `OSREQ`, and a record is read and written at the offsets of its
fields, for a machine with 32-bit `unsigned`, 64-bit pointers and the `ucontext_t` of 968 bytes of
x86-64.

The state records two things that the code does not know: the blocks in use, and the bytes that are
*dirty*, those to which something has been written, unless the last write was by a `pop` that has
emptied a list. A byte that is not dirty is 0 if the memory was 0 at first.

The requests for pages, which `my_pthread_create` makes too, do not concern this memory, and neither
do the signal masks. What `swapcontext`, `my_pthread_join` through its `value_ptr` and the threads
themselves write in the blocks of threads and stacks is the call `write`.

## Main definitions

* `OSHeap`, `HeapOp`, `heapStep`, `HeapAllowed`.
* `Heap.myPthreadMutexInit`, `Heap.myPthreadMutexLock`, `Heap.myPthreadMutexUnlock`,
  `Heap.myPthreadMutexDestroy`, `Heap.myPthreadCreate`, `Heap.myPthreadJoin`,
  `Heap.threadExit`, `Heap.scheduler`, `Heap.myPthreadYield`.
* `HeapCall`, `heapCallStep`.
-/

namespace OSDesign

open VM ByteMemory

/-! ### The records -/

/-- `sizeof(lock)`. -/
def sizeofLock : ℕ := 16

/-- `lock.state`. -/
def lockState : Field := ⟨0, 4⟩

/-- `lock.wait`. -/
def lockWait : Field := ⟨8, 8⟩

/-- `sizeof(LinkedList)`. -/
def sizeofLinkedList : ℕ := 24

/-- `LinkedList.tail`. -/
def listTail : Field := ⟨0, 8⟩

/-- `LinkedList.head`. -/
def listHead : Field := ⟨8, 8⟩

/-- `LinkedList.nitems`. -/
def listNitems : Field := ⟨16, 4⟩

/-- `sizeof(sthread)`. -/
def sizeofSthread : ℕ := 1024

/-- `sthread.id`. -/
def sthreadId : Field := ⟨0, 4⟩

/-- `sthread.priority`. -/
def sthreadPriority : Field := ⟨4, 4⟩

/-- `sthread.born`. -/
def sthreadBorn : Field := ⟨8, 8⟩

/-- `sthread.context`. -/
def sthreadContext : Field := ⟨16, 968⟩

/-- `sthread.function`. -/
def sthreadFunction : Field := ⟨984, 8⟩

/-- `sthread.arg`. -/
def sthreadArg : Field := ⟨992, 8⟩

/-- `sthread.res`. -/
def sthreadRes : Field := ⟨1000, 8⟩

/-- `sthread.finished`. -/
def sthreadFinished : Field := ⟨1008, 4⟩

/-- `sthread.waitJoin`. -/
def sthreadWaitJoin : Field := ⟨1016, 8⟩

/-- A pointer, an `unsigned`, a `struct sigaction`, and the four numbers of a
`struct itimerval`. -/
def pointerField : Field := ⟨0, 8⟩

@[inherit_doc pointerField] def unsignedField : Field := ⟨0, 4⟩

@[inherit_doc pointerField] def sigactionField : Field := ⟨0, 152⟩

@[inherit_doc pointerField] def intervalSec : Field := ⟨0, 8⟩

@[inherit_doc pointerField] def intervalUsec : Field := ⟨8, 8⟩

@[inherit_doc pointerField] def valueSec : Field := ⟨16, 8⟩

@[inherit_doc pointerField] def valueUsec : Field := ⟨24, 8⟩

/-- `STACK_SIZE`. -/
def stackSize : ℕ := 32768

/-- `QUANTUM`. -/
def quantum : ℕ := 25000

/-- The global pointers of the library. -/
inductive Global where
  | run | nextId | mainThread | running | nSchedulings | sa | timer
deriving DecidableEq

/-- The size of the object to which a global pointer points. -/
def Global.size : Global → ℕ
  | .run => sizeofLinkedList
  | .nextId => 4
  | .mainThread => sizeofSthread
  | .running => 8
  | .nSchedulings => 4
  | .sa => 152
  | .timer => 32

/-! ### The operations -/

/-- The memory, the nodes of the lists and the number of them that have been allocated, and the
global pointers, 0 until `initOS`; the blocks in use, and the bytes that are dirty. -/
structure OSHeap where
  mem : Memory
  nodes : Nodes ℕ
  mallocs : ℕ
  globals : Global → ℕ
  live : List (ℕ × ℕ)
  dirty : ℕ → Bool

/-- What the calls do to the memory. The request for the header of a list that a call is to create
is marked as such, and so is the freeing of an object to which a global pointer points. -/
inductive HeapOp where
  | alloc (size : ℕ) (newQueue : Bool) (junk : ℕ → UInt8)
  | free (ptr : ℕ)
  | get (f : Field) (a : ℕ)
  | set (f : Field) (a v : ℕ)
  | getGlobal (g : Global)
  | setGlobal (g : Global) (v : ℕ)
  | push (l t : ℕ)
  | pushOrdered (l t : ℕ)
  | pop (l : ℕ)
  | orderByOldest (l : ℕ)
  | release (g : Global)

/-- The result of an operation. -/
def HeapOp.Result : HeapOp → Type
  | .alloc _ _ _ | .get _ _ | .getGlobal _ | .pop _ => ℕ
  | _ => Unit

/-- The bytes of `dirty`, and the `n` bytes from `a` on. -/
def touch (dirty : ℕ → Bool) (a n : ℕ) : ℕ → Bool := fun x => dirty x || decide (a ≤ x ∧ x < a + n)

/-- The bytes of `dirty`, except the `n` bytes from `a` on. -/
def untouch (dirty : ℕ → Bool) (a n : ℕ) : ℕ → Bool :=
  fun x => dirty x && !decide (a ≤ x ∧ x < a + n)

/-- The header at `l`. -/
def getList (m : Memory) (l : ℕ) : LinkedList :=
  ⟨listTail.get m l, listHead.get m l, listNitems.get m l⟩

/-- The memory with the header at `l` set. -/
def setList (m : Memory) (l : ℕ) (x : LinkedList) : Memory :=
  listNitems.set (listHead.set (listTail.set m l x.tail) l x.head) l x.nitems

/-- `getPriority`, for the order of the run queue. -/
def Heap.getPriority (m : Memory) (t : ℕ) : ℤ :=
  (BitVec.ofNat 32 (sthreadPriority.get m t)).toInt

/-- `getTimeCreated`, for the order of the maintenance pass. -/
def Heap.getTimeCreated (m : Memory) (t : ℕ) : ℤ := (sthreadBorn.get m t % 2 ^ 32 : ℕ)

/-- The bytes that an allocation writes: the record of the block, and the one of the rest. -/
def touchAlloc (m : Memory) (dirty : ℕ → Bool) (ptr size : ℕ) : ℕ → Bool :=
  let n := ptr - sizeofSpaceNode
  let dirty := touch dirty n sizeofSpaceNode
  if sizeofSpaceNode < restSize m n size then touch dirty (ptr + size) sizeofSpaceNode else dirty

/-- The bytes that freeing a block writes: its record, and the one that `prev` names if that is
free. -/
def touchFree (m : Memory) (dirty : ℕ → Bool) (ptr : ℕ) : ℕ → Bool :=
  let n := ptr - sizeofSpaceNode
  let dirty := touch dirty n sizeofSpaceNode
  if Mergeable (markFree m n) (prevField.get m n) then
    touch dirty (prevField.get m n) sizeofSpaceNode
  else dirty

/-- The state after a list operation that has set the header at `l` to `x` and, when it is a `pop`,
may have emptied the list. -/
def OSHeap.putList (s : OSHeap) (l : ℕ) (x : LinkedList) (emptied : Bool) : OSHeap :=
  let dirty := touch s.dirty l 20
  { s with mem := setList s.mem l x, dirty := if emptied then untouch dirty l 16 else dirty }

/-- The memory of the operating system has `len` bytes at `base`; `malloc i` is what the `i`-th call
of `malloc` returns, and `fuel` bounds the walks along lists. -/
structure HeapEnv where
  base : ℕ
  len : ℕ
  fuel : ℕ
  malloc : ℕ → UInt64

/-- The state after the block at `ptr` has been freed. -/
def OSHeap.remove (s : OSHeap) (ptr : ℕ) : OSHeap :=
  { s with
    mem := removeSpace s.mem ptr
    live := s.live.filter fun b => b.1 ≠ ptr
    dirty := touchFree s.mem s.dirty ptr }

section Steps

variable (E : HeapEnv)

/-- The operations. A `NULL` pointer is not followed. -/
def heapStep : (e : HeapOp) → OSHeap → Option (e.Result × OSHeap)
  | .alloc size _ junk, s =>
    (getFreeElementFrom (E.len + 1) s.mem E.base size junk).map fun (ptr, m) =>
      (ptr, if ptr = 0 then { s with mem := m }
        else { s with
          mem := m
          live := (ptr, size) :: s.live
          dirty := touchAlloc s.mem s.dirty ptr size })
  | .free ptr, s => some ((), s.remove ptr)
  | .get f a, s => if a = 0 then none else some (f.get s.mem a, s)
  | .set f a v, s =>
    if a = 0 then none
    else some ((), { s with mem := f.set s.mem a v, dirty := touch s.dirty (a + f.off) f.len })
  | .getGlobal g, s => some (s.globals g, s)
  | .setGlobal g v, s => some ((), { s with globals := Function.update s.globals g v })
  | .push l t, s =>
    if l = 0 then none
    else ((getList s.mem l).push s.nodes (E.malloc s.mallocs).toNat t).map fun (x, nodes) =>
      ((), { s.putList l x false with nodes := nodes, mallocs := s.mallocs + 1 })
  | .pushOrdered l t, s =>
    if l = 0 then none
    else ((getList s.mem l).pushOrdered E.fuel (Heap.getPriority s.mem) s.nodes
        (E.malloc s.mallocs).toNat t).map fun (x, nodes) =>
      ((), { s.putList l x false with nodes := nodes, mallocs := s.mallocs + 1 })
  | .pop l, s =>
    if l = 0 then none
    else ((getList s.mem l).pop s.nodes).map fun (t, x) => (t, s.putList l x (x.head == 0))
  | .orderByOldest l, s =>
    if l = 0 then none
    else ((getList s.mem l).orderByOldest E.fuel (Heap.getTimeCreated s.mem)
        (fun i => (E.malloc i).toNat) s.nodes s.mallocs).map fun (x, nodes, mallocs) =>
      ((), { s.putList l x false with nodes := nodes, mallocs := mallocs })
  | .release g, s => some ((), s.remove (s.globals g))

/-- The record that `prev` names is no longer on the list, and lies in no block in use. -/
def Dissolved (s : OSHeap) (a : ℕ) : Prop :=
  (∀ n ∈ blockAddrs s.mem (E.len + 1) E.base,
      a + sizeofSpaceNode ≤ n ∨ n + sizeofSpaceNode ≤ a) ∧
    ∀ b ∈ s.live, a + sizeofSpaceNode ≤ b.1 ∨ b.1 + b.2 ≤ a

instance (s : OSHeap) (a : ℕ) : Decidable (Dissolved E s a) :=
  inferInstanceAs (Decidable (_ ∧ _))

/-- The allocator stays in the room of the blocks: an allocated block fits, and the record that
`prev` of a freed block names, if it is free, is the one before the block, or is dissolved. The
first 16 bytes of a block that is taken for a new list, where its `tail` and `head` will be, are not
dirty. And the objects to which global pointers point are not given back: the pointers would still
be used. -/
def HeapAllowed : HeapOp → OSHeap → Prop
  | .alloc size newQueue junk, s =>
    RegionAllowed E.base E.len ⟨s.mem, s.live⟩ (.alloc size junk) ∧
      (newQueue = true → ∀ n ∈ findFreeSpace s.mem size (E.len + 1) E.base,
        n ≠ 0 ∧ ∀ i < 16, s.dirty (n + sizeofSpaceNode + i) = false)
  | .free ptr, s =>
    RegionAllowed E.base E.len ⟨s.mem, s.live⟩ (.free ptr) ∨
      Dissolved E s (prevField.get s.mem (ptr - sizeofSpaceNode))
  | .release _, _ => False
  | _, _ => True

instance (e : HeapOp) (s : OSHeap) : Decidable (HeapAllowed E e s) :=
  match e with
  | .alloc .. => inferInstanceAs (Decidable (_ ∧ _))
  | .free _ => inferInstanceAs (Decidable (_ ∨ _))
  | .release _ => isFalse id
  | .get .. | .set .. | .getGlobal _ | .setGlobal .. | .push .. | .pushOrdered .. | .pop _
  | .orderByOldest _ => isTrue trivial

end Steps

/-! ### The calls -/

/-- A program over the memory of the operating system. -/
abbrev HeapProg := Prog HeapOp HeapOp.Result

namespace Heap

/-- `myallocate(size, OSREQ)`. -/
def myallocate (size : ℕ) (junk : ℕ → UInt8) : HeapProg ℕ :=
  Prog.perform (HeapOp.alloc size false junk)

/-- `myallocate(sizeof(LinkedList), OSREQ)`, for a list that is to be empty. -/
def newQueue (junk : ℕ → UInt8) : HeapProg ℕ :=
  Prog.perform (HeapOp.alloc sizeofLinkedList true junk)

/-- `free`. -/
def free (ptr : ℕ) : HeapProg Unit := Prog.perform (HeapOp.free ptr)

/-- The field of a record. -/
def get (f : Field) (a : ℕ) : HeapProg ℕ := Prog.perform (HeapOp.get f a)

/-- The field of a record is set. -/
def set (f : Field) (a v : ℕ) : HeapProg Unit := Prog.perform (HeapOp.set f a v)

/-- `push`. -/
def push (l t : ℕ) : HeapProg Unit := Prog.perform (HeapOp.push l t)

/-- `pushOrdered(0, l, t)`. -/
def pushOrdered (l t : ℕ) : HeapProg Unit := Prog.perform (HeapOp.pushOrdered l t)

/-- `pop`. -/
def pop (l : ℕ) : HeapProg ℕ := Prog.perform (HeapOp.pop l)

/-- `orderByOldest`. -/
def orderByOldest (l : ℕ) : HeapProg Unit := Prog.perform (HeapOp.orderByOldest l)

/-- `mydeallocate`, of an object to which a global pointer points. -/
def release (g : Global) : HeapProg Unit := Prog.perform (HeapOp.release g)

/-- A global pointer. -/
def getGlobal (g : Global) : HeapProg ℕ := Prog.perform (HeapOp.getGlobal g)

/-- A global pointer is set to a new object. -/
def allocGlobal (g : Global) (junk : ℕ → UInt8) : HeapProg Unit := do
  let p ← myallocate g.size junk
  Prog.perform (HeapOp.setGlobal g p)

/-- A field of the object to which a global pointer points. -/
def getAt (g : Global) (f : Field) : HeapProg ℕ := do
  let p ← getGlobal g
  get f p

/-- A field of the object to which a global pointer points is set. -/
def setAt (g : Global) (f : Field) (v : ℕ) : HeapProg Unit := do
  let p ← getGlobal g
  set f p v

/-- `my_pthread_mutex_init`; the result is the address of the mutex. -/
def myPthreadMutexInit (junk : ℕ → ℕ → UInt8) : HeapProg ℕ := do
  let l ← myallocate sizeofLock (junk 0)
  set lockState l 0
  let wait ← newQueue (junk 1)
  set lockWait l wait
  return l

/-- The part of `my_pthread_mutex_lock` in which the caller waits. -/
def blockOn (l : ℕ) : HeapProg Unit := do
  let wait ← get lockWait l
  let self ← getAt .running pointerField
  push wait self
  setAt .timer valueUsec quantum
  let run ← getGlobal .run
  let next ← pop run
  setAt .running pointerField next

/-- One round of the loop of `my_pthread_mutex_lock`. -/
def myPthreadMutexLock (l : ℕ) : HeapProg Unit := do
  let s ← get lockState l
  set lockState l 1
  if s = 1 then blockOn l else return ()

/-- `pushOrdered(0, run, pop(wait))`. -/
def wake (wait : ℕ) : HeapProg Unit := do
  let t ← pop wait
  let run ← getGlobal .run
  pushOrdered run t

/-- `my_pthread_mutex_unlock`. -/
def myPthreadMutexUnlock (l : ℕ) : HeapProg Unit := do
  let wait ← get lockWait l
  let head ← get listHead wait
  (if head ≠ 0 then wake wait else pure ())
  set lockState l 0

/-- The loop of `my_pthread_mutex_destroy`, for at most `fuel` threads. -/
def wakeAll (wait : ℕ) : ℕ → HeapProg Unit
  | 0 => .fail
  | fuel + 1 => do
    let head ← get listHead wait
    if head ≠ 0 then do
      wake wait
      wakeAll wait fuel
    else return ()

/-- `my_pthread_mutex_destroy`. -/
def myPthreadMutexDestroy (fuel l : ℕ) : HeapProg Unit := do
  let wait ← get lockWait l
  wakeAll wait fuel
  set lockState l 0
  free wait
  free l

/-- `setMyScheduler`; `action` is the contents of `*sa`. -/
def setMyScheduler (junk : ℕ → ℕ → UInt8) (action : ℕ) : HeapProg Unit := do
  setAt .nSchedulings unsignedField 0
  allocGlobal .sa (junk 5)
  allocGlobal .timer (junk 6)
  setAt .sa sigactionField action
  setAt .timer valueSec 0
  setAt .timer valueUsec quantum
  setAt .timer intervalSec 0
  setAt .timer intervalUsec quantum

/-- `initOS`; `now` is the time. -/
def initOS (junk : ℕ → ℕ → UInt8) (now action : ℕ) : HeapProg Unit := do
  allocGlobal .run (junk 0)
  allocGlobal .nextId (junk 1)
  setAt .nextId unsignedField 1
  allocGlobal .mainThread (junk 2)
  let id ← getAt .nextId unsignedField
  setAt .mainThread sthreadId id
  setAt .mainThread sthreadPriority 0
  setAt .mainThread sthreadBorn now
  setAt .mainThread sthreadFunction 0
  setAt .mainThread sthreadArg 0
  setAt .mainThread sthreadFinished 0
  setAt .nextId unsignedField (id + 1)
  allocGlobal .running (junk 3)
  let main ← getGlobal .mainThread
  setAt .running pointerField main
  allocGlobal .nSchedulings (junk 4)
  setAt .nSchedulings unsignedField 0
  setMyScheduler junk action

/-- What a new thread is given: its function and argument, the time, and, if `getcontext` succeeds,
the context that it stores and the one that `makecontext` makes of it. -/
structure ThreadArgs where
  function : ℕ
  arg : ℕ
  now : ℕ
  context : Option (ℕ × ℕ)

/-- The end of `createNewThread`: the fields of the record other than `waitJoin`. -/
def fillThread (t : ℕ) (a : ThreadArgs) (junk : ℕ → UInt8) : HeapProg Unit := do
  let id ← getAt .nextId unsignedField
  set sthreadId t id
  setAt .nextId unsignedField (id + 1)
  set sthreadFunction t a.function
  set sthreadArg t a.arg
  set sthreadFinished t 0
  set sthreadPriority t 0
  set sthreadBorn t a.now
  match a.context with
  | none => return ()
  | some (current, new) => do
    set sthreadContext t current
    let _ ← myallocate stackSize junk
    set sthreadContext t new

/-- `createNewThread`; the result is the address of the thread. -/
def createNewThread (a : ThreadArgs) (junk : ℕ → ℕ → UInt8) : HeapProg ℕ := do
  let t ← myallocate sizeofSthread (junk 0)
  let waitJoin ← newQueue (junk 1)
  set sthreadWaitJoin t waitJoin
  fillThread t a (junk 2)
  return t

/-- `my_pthread_create`. -/
def myPthreadCreate (a : ThreadArgs) (action : ℕ) (junk : ℕ → ℕ → UInt8) : HeapProg ℕ := do
  let run ← getGlobal .run
  (if run = 0 then initOS (fun i => junk (i + 3)) a.now action else pure ())
  let t ← createNewThread a junk
  let run ← getGlobal .run
  pushOrdered run t
  return t

/-- `*running = *pop(run)`. -/
def runNext : HeapProg Unit := do
  let run ← getGlobal .run
  let next ← pop run
  setAt .running pointerField next

/-- `!empty(run)`. -/
def someReady : HeapProg Bool := do
  let run ← getGlobal .run
  let head ← get listHead run
  return head ≠ 0

/-- `threadExit`; `res` is the address of its parameter, unless that is `NULL`. -/
def threadExit (fuel : ℕ) (res : Option ℕ) : HeapProg Unit := do
  let self ← getAt .running pointerField
  set sthreadFinished self 1
  (match res with
    | none => pure ()
    | some a => set sthreadRes self a)
  let wait ← get sthreadWaitJoin self
  wakeAll wait fuel
  let ready ← someReady
  if ready then do
    runNext
    setAt .timer valueUsec quantum
  else return ()

/-- `my_pthread_join`, up to its `swapcontext`. With an empty run queue it gives `run`, `mainThread`
and `running` back and goes on. -/
def myPthreadJoin (t : ℕ) : HeapProg Unit := do
  let finished ← get sthreadFinished t
  if finished = 0 then do
    let wait ← get sthreadWaitJoin t
    let self ← getAt .running pointerField
    pushOrdered wait self
    let ready ← someReady
    if ready then runNext
    else do
      release .run
      release .mainThread
      release .running
  else return ()

/-- The maintenance pass of `scheduler`, on every 151st scheduling. -/
def maintenance : HeapProg Unit := do
  let n ← getAt .nSchedulings unsignedField
  setAt .nSchedulings unsignedField (n + 1)
  let n ← getAt .nSchedulings unsignedField
  if 150 < n then do
    let run ← getGlobal .run
    orderByOldest run
    setAt .nSchedulings unsignedField 0
  else return ()

/-- The end of `scheduler`, if the run queue is not empty. -/
def rotate : HeapProg Unit := do
  let run ← getGlobal .run
  let next ← pop run
  let self ← getAt .running pointerField
  pushOrdered run self
  setAt .running pointerField next

/-- `scheduler`. -/
def scheduler : HeapProg Unit := do
  setAt .timer valueUsec quantum
  maintenance
  let self ← getAt .running pointerField
  let p ← get sthreadPriority self
  set sthreadPriority self (p + 1)
  let ready ← someReady
  if ready then rotate else return ()

/-- `my_pthread_yield`. -/
def myPthreadYield : HeapProg Unit := do
  let self ← getAt .running pointerField
  let p ← get sthreadPriority self
  (if 0 < p then set sthreadPriority self (p - 1) else pure ())
  scheduler

end Heap

/-! ### Runs of calls -/

/-- The calls, an interrupt of the timer, and a write of a thread in its own objects. -/
inductive HeapCall where
  | mutexInit (junk : ℕ → ℕ → UInt8)
  | lock (l : ℕ)
  | unlock (l : ℕ)
  | destroy (l : ℕ)
  | create (a : Heap.ThreadArgs) (action : ℕ) (junk : ℕ → ℕ → UInt8)
  | exit (res : Option ℕ)
  | join (t : ℕ)
  | yield
  | tick
  | write (a : ℕ) (v : UInt8)

/-- The object that the last call has created. -/
inductive Created where
  | mutex (l : ℕ)
  | thread (t : ℕ)
deriving DecidableEq

/-- The memory, the mutexes that have been initialised and not destroyed, and what the last call has
created. -/
structure HeapState where
  heap : OSHeap
  mutexes : List ℕ
  created : Option Created

/-- `*running`. -/
def HeapState.running (s : HeapState) : ℕ := pointerField.get s.heap.mem (s.heap.globals .running)

/-- The record of a thread is at `t`, and its pointer `waitJoin`, if it is set, leads to the header
of a list. -/
def HeapState.IsThread (s : HeapState) (t : ℕ) : Prop :=
  (t, sizeofSthread) ∈ s.heap.live ∧ (sthreadWaitJoin.get s.heap.mem t ≠ 0 →
    (sthreadWaitJoin.get s.heap.mem t, sizeofLinkedList) ∈ s.heap.live)

instance (s : HeapState) (t : ℕ) : Decidable (s.IsThread t) :=
  inferInstanceAs (Decidable (_ ∧ _))

/-- `initOS` has been called, and `*running` is a thread. -/
def HeapState.HasRunning (s : HeapState) : Prop :=
  s.heap.globals .running ≠ 0 ∧ s.IsThread s.running

instance (s : HeapState) : Decidable s.HasRunning := inferInstanceAs (Decidable (_ ∧ _))

section Runs

variable (E : HeapEnv)

/-- The program of a call, with the mutexes that are there afterwards and what has been created. A
mutex that is used is there; the thread that is joined, and the one that exits, yields or is
interrupted, have their records; a thread writes in a block that does not belong to a mutex. -/
def HeapState.call (s : HeapState) : HeapCall → HeapProg (List ℕ × Option Created)
  | .mutexInit junk => do
    let l ← Heap.myPthreadMutexInit junk
    return (l :: s.mutexes, some (.mutex l))
  | .lock l =>
    if l ∈ s.mutexes then do
      Heap.myPthreadMutexLock l
      return (s.mutexes, none)
    else .fail
  | .unlock l =>
    if l ∈ s.mutexes then do
      Heap.myPthreadMutexUnlock l
      return (s.mutexes, none)
    else .fail
  | .destroy l =>
    if l ∈ s.mutexes then do
      Heap.myPthreadMutexDestroy E.fuel l
      return (s.mutexes.filter (· ≠ l), none)
    else .fail
  | .create a action junk => do
    let t ← Heap.myPthreadCreate a action junk
    return (s.mutexes, some (.thread t))
  | .exit res =>
    if s.HasRunning then do
      Heap.threadExit E.fuel res
      return (s.mutexes, none)
    else .fail
  | .join t =>
    if s.IsThread t then do
      Heap.myPthreadJoin t
      return (s.mutexes, none)
    else .fail
  | .yield =>
    if s.HasRunning then do
      Heap.myPthreadYield
      return (s.mutexes, none)
    else .fail
  | .tick =>
    if s.HasRunning then do
      Heap.scheduler
      return (s.mutexes, none)
    else .fail
  | .write a v =>
    if ∃ b ∈ s.heap.live, b.1 ≤ a ∧ a < b.1 + b.2 ∧
        ∀ l ∈ s.mutexes, b.1 ≠ l ∧ b.1 ≠ lockWait.get s.heap.mem l then do
      Heap.set ⟨0, 1⟩ a v.toNat
      return (s.mutexes, none)
    else .fail

/-- One call. -/
def heapCallStep (s : HeapState) (c : HeapCall) : Option HeapState :=
  ((s.call E c).exec (heapStep E) s.heap).map fun (r, heap) =>
    ⟨heap, r.1, r.2⟩

/-- Every operation of the call is allowed. -/
def HeapCallAllowed (s : HeapState) (c : HeapCall) : Prop :=
  (s.call E c).Allowed (heapStep E) (HeapAllowed E) s.heap

instance (s : HeapState) (c : HeapCall) :
    Decidable (HeapCallAllowed E s c) :=
  inferInstanceAs (Decidable (Prog.Allowed ..))

end Runs

end OSDesign
