import OSDesign.Thread.Conservation
import OSDesign.Thread.ListCalls

/-!
# The thread library on linked lists

`OSDesign.Thread.Scheduler` has plain lists where `my_pthread.c` has the lists of `LinkedList.c`.
This file has the library with its linked lists: the run queue, the list `waitJoin` of every thread
and the list `wait` of every mutex have a header each, and the nodes of all of them lie in the same
memory. `pop` does not free the node, so a thread leaves an old node behind each time it is taken
off a list, and `orderByOldest` leaves behind all nodes of the run queue.

The library on linked lists refines the one on plain lists (`library_refines`): after any calls both
have dereferenced `NULL`, or neither has, and then every header is that of its queue and no two
lists share a node. What is proved about the queues of threads is true of the lists in memory, as
long as `my_pthread_join` has not given the run queue back.

## Main definitions

* `ListName`, `LinkedOS`: the headers, and the state of the library with the nodes.
* `linkedStep`: the calls of the library, translated from `my_pthread.c`.
* `LinkedOS.view`, `Refines`: the state on plain lists.

## Main results

* `Stored.update`: a list is changed and the others are not.
* `Lists.push`, `Lists.pushOrdered`, `Lists.pop`, `Lists.orderByOldest`.
* `library_refines`.
-/

namespace OSDesign

open LinkedList Transition

/-- The lists of the library: `run`, `waitJoin` of a thread and `wait` of a mutex. -/
inductive ListName where
  | run
  | waitJoin (t : Tid)
  | wait (m : Mid)
deriving DecidableEq

/-- The record `sthread` but for its list; `hasList` says that the pointer `waitJoin` is set. -/
structure ThreadInfo where
  id : Int32
  priority : UInt32
  born : UInt64
  res : Option ℕ
  finished : Bool
  hasList : Bool

/-- The record with the threads of its list. -/
def ThreadInfo.sthread (r : ThreadInfo) (waitJoin : List Tid) : Sthread :=
  ⟨r.id, r.priority, r.born, r.res, r.finished, if r.hasList then some waitJoin else none⟩

/-- The state of the library with its linked lists. `mallocs` counts the nodes that `malloc` has
returned. Every list has a header of its own; once `run` has been `released`, the code may put the
header of a new list where that of the run queue is, which is not followed here. -/
structure LinkedOS where
  running : Tid
  nextId : UInt32
  nSchedulings : UInt32
  created : ℕ
  thread : Tid → ThreadInfo
  mutexes : ℕ
  state : Mid → ℕ
  released : Bool
  header : ListName → LinkedList
  nodes : Nodes Tid
  mallocs : ℕ

namespace LinkedOS

variable (malloc : ℕ → ℕ) (p : LinkedOS)

/-! ### The calls -/

/-- `getPriority` of a thread. -/
def prio (t : Tid) : ℤ := getPriority ((p.thread t).sthread [])

/-- `getTimeCreated` of a thread. -/
def age (t : Tid) : ℤ := getTimeCreated ((p.thread t).sthread [])

/-- One list after a call of `LinkedList.c`. -/
def withList (q : ListName) (l : LinkedList) (nodes : Nodes Tid) (mallocs : ℕ) : LinkedOS :=
  { p with header := Function.update p.header q l, nodes, mallocs }

/-- `push(q, &t)`. -/
def push (q : ListName) (t : Tid) : Option LinkedOS :=
  ((p.header q).push p.nodes (malloc p.mallocs) t).map fun x =>
    p.withList q x.1 x.2 (p.mallocs + 1)

/-- `pushOrdered(0, q, &t)`. A list has no more nodes than `malloc` has returned, so the bound of
the loop is not reached. -/
def pushOrdered (q : ListName) (t : Tid) : Option LinkedOS :=
  ((p.header q).pushOrdered (p.mallocs + 1) p.prio p.nodes (malloc p.mallocs) t).map fun x =>
    p.withList q x.1 x.2 (p.mallocs + 1)

/-- `*pop(q)`. -/
def pop (q : ListName) : Option (Tid × LinkedOS) :=
  ((p.header q).pop p.nodes).map fun x => (x.1, p.withList q x.2 p.nodes p.mallocs)

/-- `orderByOldest(q)`. -/
def orderByOldest (q : ListName) : Option LinkedOS :=
  ((p.header q).orderByOldest (2 * p.mallocs + 1) p.age malloc p.nodes p.mallocs).map fun x =>
    p.withList q x.1 x.2.1 x.2.2

/-- `empty(q)`. -/
def empty (q : ListName) : Bool := (p.header q).isEmpty

/-- Change fields of a thread record. -/
def modifyThread (t : Tid) (f : ThreadInfo → ThreadInfo) : LinkedOS :=
  { p with thread := Function.update p.thread t (f (p.thread t)) }

/-- `m->state = v`. -/
def setState (m : Mid) (v : ℕ) : LinkedOS := { p with state := Function.update p.state m v }

/-- `initOS` at time `now`, with zeroed headers. -/
def initOS (now : UInt64) : LinkedOS where
  running := 0
  nextId := 2
  nSchedulings := 0
  created := 1
  thread := Function.update (fun _ => ⟨0, 0, 0, none, false, true⟩)
    0 ⟨1, 0, now, none, false, false⟩
  mutexes := 0
  state := fun _ => 0
  released := false
  header := fun _ => ⟨0, 0, 0⟩
  nodes := fun _ => none
  mallocs := 0

/-- `createNewThread`: the next record is filled in, and its list has a zeroed header. -/
def createNewThread (now : UInt64) : LinkedOS :=
  { p with
    thread := Function.update p.thread p.created ⟨p.nextId.toInt32, 0, now, none, false, true⟩
    header := Function.update p.header (.waitJoin p.created) ⟨0, 0, 0⟩
    nextId := p.nextId + 1
    created := p.created + 1 }

/-- `my_pthread_create`. -/
def myPthreadCreate (now : UInt64) : Option LinkedOS :=
  (p.createNewThread now).pushOrdered malloc .run p.created

/-- The maintenance cycle of `scheduler`. -/
def maintenance : Option LinkedOS :=
  let n := p.nSchedulings + 1
  if n > 150 then (p.orderByOldest malloc .run).map fun p => { p with nSchedulings := 0 }
  else some { p with nSchedulings := n }

/-- `(*running)->priority += 1`. -/
def agePriority : LinkedOS :=
  p.modifyThread p.running fun r => { r with priority := r.priority + 1 }

/-- The switch at the end of `scheduler`. -/
def rotate : Option LinkedOS :=
  if p.empty .run then some p
  else (p.pop .run).bind fun x =>
    (x.2.pushOrdered malloc .run x.2.running).map fun p => { p with running := x.1 }

/-- `scheduler`, up to its `setcontext`. -/
def scheduler : Option LinkedOS := (p.maintenance malloc).bind fun p => p.agePriority.rotate malloc

/-- The compensation that `my_pthread_yield` makes. -/
def yieldPriority : LinkedOS :=
  if (p.thread p.running).priority > 0 then
    p.modifyThread p.running fun r => { r with priority := r.priority - 1 }
  else p

/-- `*running = *pop(run)`. -/
def switchNext : Option LinkedOS := (p.pop .run).map fun x => { x.2 with running := x.1 }

/-- The loop of `threadExit`: the threads are popped from the list `q` and put in the run queue. -/
def drain (q : ListName) : ℕ → LinkedOS → Option LinkedOS
  | 0, _ => none
  | fuel + 1, p =>
    if p.empty q then some p
    else (p.pop q).bind fun x => (x.2.pushOrdered malloc .run x.1).bind fun p => drain q fuel p

/-- The first statements of `threadExit`. -/
def markFinished (res : Option ℕ) : LinkedOS :=
  p.modifyThread p.running fun r => { r with finished := true, res := res.or r.res }

/-- The threads that have joined the running one go to the run queue. -/
def drainJoiners : Option LinkedOS :=
  if (p.thread p.running).hasList then drain malloc (.waitJoin p.running) (p.mallocs + 1) p
  else none

/-- `threadExit`, up to its `setcontext`. -/
def threadExit (res : Option ℕ) : Option LinkedOS :=
  ((p.markFinished res).drainJoiners malloc).bind fun p =>
    if p.empty .run then some p else p.switchNext

/-- What `my_pthread_join` stores behind `value_ptr`. -/
def joinValue (t : Tid) (valuePtr : Bool) : Option (Option ℕ) :=
  if valuePtr then (p.thread t).res.map some else some none

/-- `pushOrdered(0, thread->waitJoin, running)`. -/
def pushJoiner (t : Tid) : Option LinkedOS :=
  if (p.thread t).hasList then p.pushOrdered malloc (.waitJoin t) p.running else none

/-- `my_pthread_join`, up to its `swapcontext` when it blocks. -/
def myPthreadJoin (t : Tid) (valuePtr : Bool) : Option LinkedOS :=
  if (p.thread t).finished then (p.joinValue t valuePtr).map fun _ => p
  else (p.pushJoiner malloc t).bind fun p =>
    if p.empty .run then (p.joinValue t valuePtr).map fun _ => { p with released := true }
    else p.switchNext

/-- `my_pthread_mutex_init`: the next `lock` record, with a zeroed header. -/
def myPthreadMutexInit : LinkedOS :=
  { p with
    state := Function.update p.state p.mutexes 0
    header := Function.update p.header (.wait p.mutexes) ⟨0, 0, 0⟩
    mutexes := p.mutexes + 1 }

/-- `testAndSet`, taken as one step. -/
def testAndSet (m : Mid) : ℕ × LinkedOS := (p.state m, p.setState m 1)

/-- The masked section of `my_pthread_mutex_lock`, up to its `swapcontext`. -/
def lockSection (m : Mid) : Option LinkedOS :=
  if p.state m = 1 then (p.push malloc (.wait m) p.running).bind switchNext else some p

/-- One round of the loop of `my_pthread_mutex_lock`. -/
def myPthreadMutexLockRound (m : Mid) : Option LinkedOS :=
  let r := p.testAndSet m
  if r.1 = 1 then r.2.lockSection malloc m else some r.2

/-- `my_pthread_mutex_unlock`. -/
def myPthreadMutexUnlock (m : Mid) : Option LinkedOS :=
  (if p.empty (.wait m) then some p
    else (p.pop (.wait m)).bind fun x => x.2.pushOrdered malloc .run x.1).map
      fun p => p.setState m 0

end LinkedOS

/-- A call of the running thread. -/
def linkedStep (malloc : ℕ → ℕ) (p : LinkedOS) : Call → Option LinkedOS
  | .create now => p.myPthreadCreate malloc now
  | .tick => p.scheduler malloc
  | .yield => p.yieldPriority.scheduler malloc
  | .join t valuePtr => p.myPthreadJoin malloc t valuePtr
  | .mutexInit => some p.myPthreadMutexInit
  | .lock m => p.myPthreadMutexLockRound malloc m
  | .unlock m => p.myPthreadMutexUnlock malloc m
  | .exit res => p.threadExit malloc res

/-! ### The lists in memory -/

/-- The list `q` with the nodes. -/
def LinkedOS.listState (p : LinkedOS) (q : ListName) : ListState Tid :=
  ⟨p.header q, p.nodes, p.mallocs, none⟩

/-- Every header is that of its list of nodes, and no two lists share a node. -/
structure Stored (malloc : ℕ → ℕ) (p : LinkedOS) (xs : ListName → List (ℕ × Tid)) : Prop where
  holds : ∀ q, Holds malloc (p.listState q) (xs q)
  apart : ∀ q q', ∀ x ∈ xs q, x.1 ∈ (xs q').map Prod.fst → q = q'

/-- The threads of every list. -/
def Lists (malloc : ℕ → ℕ) (p : LinkedOS) (L : ListName → List Tid) : Prop :=
  ∃ xs, Stored malloc p xs ∧ ∀ q, (xs q).map Prod.snd = L q

section Storage

variable {malloc : ℕ → ℕ} {p : LinkedOS} {xs : ListName → List (ℕ × Tid)} {L : ListName → List Tid}
  {q : ListName}

/-- One list is changed: its new nodes were its own or come from `malloc`, and no other node is
touched. -/
theorem Stored.update (h : Stored malloc p xs) (hmalloc : malloc.Injective) {l : LinkedList}
    {nodes : Nodes Tid} {k : ℕ} {ys : List (ℕ × Tid)} (hk : p.mallocs ≤ k)
    (hrep : Represents nodes l ys)
    (hframe : ∀ m, m ∉ (xs q).map Prod.fst → (∀ j, p.mallocs ≤ j → m ≠ malloc j) →
      nodes m = p.nodes m)
    (hys : ∀ y ∈ ys, y.1 ∈ (xs q).map Prod.fst ∨ ∃ j, p.mallocs ≤ j ∧ j < k ∧ y.1 = malloc j) :
    Stored malloc (p.withList q l nodes k) (Function.update xs q ys) := by
  -- the nodes of the lists are older than those that come from `malloc` now
  have hold : ∀ q', ∀ x ∈ xs q', ∀ j, p.mallocs ≤ j → x.1 ≠ malloc j := fun q' x hx j hj heq =>
    (h.holds q').fresh hmalloc hj (heq ▸ List.mem_map_of_mem hx)
  have hother : ∀ q', q' ≠ q → ∀ x ∈ xs q', ∀ y ∈ ys, x.1 ≠ y.1 := by
    intro q' hne x hx y hy heq
    rcases hys y hy with hmem | ⟨j, hj, -, hyj⟩
    · exact hne (h.apart q' q x hx (heq ▸ hmem))
    · exact hold q' x hx j hj (heq.trans hyj)
  constructor
  · intro q'
    by_cases hq : q' = q
    · subst hq
      rw [Function.update_self]
      refine ⟨?_, fun y hy => ?_⟩
      · rw [LinkedOS.listState, LinkedOS.withList]
        simpa only [Function.update_self] using hrep
      · rcases hys y hy with hmem | ⟨j, -, hj, hyj⟩
        · obtain ⟨x, hx, hxy⟩ := List.mem_map.mp hmem
          obtain ⟨j, hj, hxj⟩ := (h.holds q').used x hx
          exact ⟨j, hj.trans_le hk, hxy.symm.trans hxj⟩
        · exact ⟨j, hj, hyj⟩
    · rw [Function.update_of_ne hq]
      refine ⟨?_, fun x hx => ?_⟩
      · rw [LinkedOS.listState, LinkedOS.withList]
        simp only [Function.update_of_ne hq]
        exact (h.holds q').represents.congr fun x hx =>
          hframe x.1 (fun hmem => hq (h.apart q' q x hx hmem)) (hold q' x hx)
      · obtain ⟨j, hj, hxj⟩ := (h.holds q').used x hx
        exact ⟨j, hj.trans_le hk, hxj⟩
  · intro q₁ q₂ x hx hmem
    obtain ⟨y, hy, hyx⟩ := List.mem_map.mp hmem
    by_cases h₁ : q₁ = q
    · by_cases h₂ : q₂ = q
      · rw [h₁, h₂]
      · rw [h₁, Function.update_self] at hx
        rw [Function.update_of_ne h₂] at hy
        exact absurd hyx (hother q₂ h₂ y hy x hx)
    · rw [Function.update_of_ne h₁] at hx
      by_cases h₂ : q₂ = q
      · rw [h₂, Function.update_self] at hy
        exact absurd hyx.symm (hother q₁ h₁ x hx y hy)
      · rw [Function.update_of_ne h₂] at hy
        exact h.apart q₁ q₂ x hx (hyx ▸ List.mem_map_of_mem hy)

/-- The threads of the lists after one of them is changed. -/
theorem map_snd_update (hL : ∀ q, (xs q).map Prod.snd = L q) {ys : List (ℕ × Tid)} {l : List Tid}
    (hl : ys.map Prod.snd = l) (q' : ListName) :
    (Function.update xs q ys q').map Prod.snd = Function.update L q l q' := by
  by_cases hq : q' = q
  · subst hq
    rw [Function.update_self, Function.update_self, hl]
  · rw [Function.update_of_ne hq, Function.update_of_ne hq, hL]

/-- Nothing but the headers, the nodes and their number matters. -/
theorem Lists.congr {p' : LinkedOS} (h : Lists malloc p L) (hheader : p'.header = p.header)
    (hnodes : p'.nodes = p.nodes) (hmallocs : p'.mallocs = p.mallocs) : Lists malloc p' L := by
  obtain ⟨xs, hxs, hL⟩ := h
  have hstate : p'.listState = p.listState := by
    funext q
    rw [LinkedOS.listState, hheader, hnodes, hmallocs]
    rfl
  exact ⟨xs, ⟨fun q => by rw [hstate]; exact hxs.holds q, hxs.apart⟩, hL⟩

theorem Lists.empty_iff (h : Lists malloc p L) : p.empty q = true ↔ L q = [] := by
  obtain ⟨xs, hxs, hL⟩ := h
  have hhead : (p.header q).head = 0 ↔ xs q = [] := (hxs.holds q).represents.head_eq_zero_iff
  rw [LinkedOS.empty, isEmpty, beq_iff_eq, hhead, ← hL q, List.map_eq_nil_iff]

theorem Lists.length_le (h : Lists malloc p L) (q : ListName) : (L q).length ≤ p.mallocs := by
  obtain ⟨xs, hxs, hL⟩ := h
  rw [← hL q, List.length_map]
  exact (hxs.holds q).length_le

/-- A new list gets a zeroed header. -/
theorem Lists.zeroed (h : Lists malloc p L) (hmalloc : malloc.Injective) (q : ListName) :
    Lists malloc { p with header := Function.update p.header q ⟨0, 0, 0⟩ }
      (Function.update L q []) := by
  obtain ⟨xs, hxs, hL⟩ := h
  exact ⟨Function.update xs q [], hxs.update hmalloc le_rfl (represents_zero _) (fun _ _ _ => rfl)
    (fun y hy => absurd hy List.not_mem_nil), map_snd_update hL rfl⟩

/-- The state of the library with plain lists. -/
def LinkedOS.view (p : LinkedOS) (L : ListName → List Tid) : OS where
  running := p.running
  run := L .run
  nextId := p.nextId
  nSchedulings := p.nSchedulings
  created := p.created
  thread := fun t => (p.thread t).sthread (L (.waitJoin t))
  mutexes := p.mutexes
  mutex := fun m => ⟨p.state m, L (.wait m)⟩
  released := p.released

/-- `pop` on a list that is not empty. -/
theorem Lists.pop (h : Lists malloc p L) (hmalloc : malloc.Injective) {t : Tid} {l : List Tid}
    (hq : L q = t :: l) :
    ∃ p', p.pop q = some (t, p') ∧ Lists malloc p' (Function.update L q l) ∧ p'.view = p.view := by
  obtain ⟨xs, hxs, hL⟩ := h
  obtain ⟨x, ys, hsplit, rfl, hys⟩ := List.map_eq_cons_iff.mp ((hL q).trans hq)
  have hrep := (hxs.holds q).represents
  rw [hsplit] at hrep
  obtain ⟨l', hpop, hrep'⟩ := hrep.pop
  refine ⟨p.withList q l' p.nodes p.mallocs, ?_, ⟨Function.update xs q ys,
    hxs.update hmalloc le_rfl hrep' (fun _ _ _ => rfl) fun y hy => ?_, map_snd_update hL hys⟩, rfl⟩
  · have hpop' : (p.header q).pop p.nodes = some (x.2, l') := hpop
    rw [LinkedOS.pop, hpop', Option.map_some]
  · rw [hsplit]
    exact Or.inl (List.mem_map_of_mem (List.mem_cons_of_mem x hy))

/-- `pop` on an empty list follows `NULL`. -/
theorem Lists.pop_eq_none (h : Lists malloc p L) (hq : L q = []) : p.pop q = none := by
  have hempty : (p.header q).isEmpty = true := h.empty_iff.mpr hq
  rw [LinkedOS.pop, LinkedList.pop, if_pos (beq_iff_eq.mp hempty), Option.map_none]

/-- A thread is added to a list in a new node. -/
theorem Stored.insert (h : Stored malloc p xs) (hmalloc : malloc.Injective)
    (hL : ∀ q, (xs q).map Prod.snd = L q) {t : Tid} {l : LinkedList} {nodes : Nodes Tid}
    {ys : List (ℕ × Tid)} (hrep : Represents nodes l ys)
    (hperm : ys.Perm ((malloc p.mallocs, t) :: xs q))
    (hframe : ∀ m, m ≠ malloc p.mallocs → m ∉ (xs q).map Prod.fst → nodes m = p.nodes m) :
    Lists malloc (p.withList q l nodes (p.mallocs + 1))
      (Function.update L q (ys.map Prod.snd)) := by
  refine ⟨Function.update xs q ys, h.update hmalloc (Nat.le_succ _) hrep
    (fun m hm hj => hframe m (hj _ le_rfl) hm) fun y hy => ?_, map_snd_update hL rfl⟩
  rcases List.mem_cons.mp (hperm.mem_iff.mp hy) with rfl | hy
  · exact Or.inr ⟨p.mallocs, le_rfl, Nat.lt_succ_self _, rfl⟩
  · exact Or.inl (List.mem_map_of_mem hy)

section Allocation

variable (hmalloc : malloc.Injective) (hnull : ∀ j, malloc j ≠ 0)
include hmalloc hnull

theorem Lists.push (h : Lists malloc p L) (q : ListName) (t : Tid) :
    ∃ p', p.push malloc q t = some p' ∧ Lists malloc p' (Function.update L q (Queue.push (L q) t)) ∧
      p'.view = p.view := by
  obtain ⟨xs, hxs, hL⟩ := h
  have hnew := (hxs.holds q).fresh hmalloc le_rfl
  obtain ⟨l', nodes', hpush, hrep, hframe⟩ := (hxs.holds q).represents.push t (hnull _) hnew
  have hpush' : (p.header q).push p.nodes (malloc p.mallocs) t = some (l', nodes') := hpush
  refine ⟨p.withList q l' nodes' (p.mallocs + 1), by rw [LinkedOS.push, hpush', Option.map_some],
    ?_, rfl⟩
  have hlists := hxs.insert hmalloc hL hrep (List.perm_append_singleton _ _) hframe
  rwa [List.map_append, hL] at hlists

theorem Lists.pushOrdered (h : Lists malloc p L) (q : ListName) (t : Tid) :
    ∃ p', p.pushOrdered malloc q t = some p' ∧
      Lists malloc p' (Function.update L q (Queue.pushOrdered p.prio (L q) t)) ∧
      p'.view = p.view := by
  obtain ⟨xs, hxs, hL⟩ := h
  have hnew := (hxs.holds q).fresh hmalloc le_rfl
  obtain ⟨l', nodes', hpush, hrep, hframe⟩ := (hxs.holds q).represents.pushOrdered p.prio t
    (Nat.lt_succ_of_le (hxs.holds q).length_le) (hnull _) hnew
  have hpush' : (p.header q).pushOrdered (p.mallocs + 1) p.prio p.nodes (malloc p.mallocs) t =
      some (l', nodes') := hpush
  refine ⟨p.withList q l' nodes' (p.mallocs + 1),
    by rw [LinkedOS.pushOrdered, hpush', Option.map_some], ?_, rfl⟩
  have hlists := hxs.insert hmalloc hL hrep (Queue.pushOrdered_perm _ _ _) hframe
  rwa [Queue.map_pushOrdered Prod.snd, hL] at hlists

theorem Lists.orderByOldest (h : Lists malloc p L) (q : ListName) :
    ∃ p', p.orderByOldest malloc q = some p' ∧
      Lists malloc p' (Function.update L q (Queue.orderByOldest p.age (L q))) ∧
      p'.view = p.view := by
  obtain ⟨xs, hxs, hL⟩ := h
  have hlen : (xs q).length ≤ p.mallocs := (hxs.holds q).length_le
  obtain ⟨l', nodes', ys, horder, hrep, hmap, haddr, hframe⟩ :=
    (hxs.holds q).represents.orderByOldest p.age
      (show 2 * (xs q).length < 2 * p.mallocs + 1 by omega) hmalloc
      fun j hj => ⟨hnull j, (hxs.holds q).fresh hmalloc hj⟩
  have horder' : (p.header q).orderByOldest (2 * p.mallocs + 1) p.age malloc p.nodes p.mallocs =
      some (l', nodes', p.mallocs + (xs q).length) := horder
  refine ⟨p.withList q l' nodes' (p.mallocs + (xs q).length),
    by rw [LinkedOS.orderByOldest, horder', Option.map_some],
    ⟨Function.update xs q ys, hxs.update hmalloc (Nat.le_add_right ..) hrep
      (fun m _ hj => hframe m hj) fun y hy => Or.inr (haddr y hy),
      map_snd_update hL (hmap.trans (by rw [hL]))⟩, rfl⟩

end Allocation

end Storage

/-! ### The state on plain lists -/

/-- The lists in memory are the queues of `s`, and everything else is the same. -/
def Refines (malloc : ℕ → ℕ) (p : LinkedOS) (s : OS) : Prop :=
  ∃ L, Lists malloc p L ∧ s = p.view L

section View

variable {p p' : LinkedOS} {L : ListName → List Tid}

theorem prio_of_view (h : p'.view = p.view) : p'.prio = p.prio :=
  congrArg (fun v => (v fun _ => []).prio) h

theorem running_of_view (h : p'.view = p.view) : p'.running = p.running :=
  congrArg (fun v => (v fun _ => []).running) h

/-- Another run queue. -/
theorem view_run (l : List Tid) : p.view (Function.update L .run l) = (p.view L).setRun l := by
  simp [LinkedOS.view, OS.setRun]

/-- Another run queue and another running thread. -/
theorem view_switch (hview : p'.view = p.view) (t : Tid) (l : List Tid) :
    ({ p' with running := t } : LinkedOS).view (Function.update L .run l) =
      { p.view L with running := t, run := l } := by
  have hrun : p'.view (Function.update L .run l) = (p.view L).setRun l := by rw [hview, view_run]
  exact congrArg (fun s : OS => { s with running := t }) hrun

/-- Another list of the threads that have joined `t`. -/
theorem view_waitJoin {t : Tid} (hlist : (p.thread t).hasList = true) (l : List Tid) :
    p.view (Function.update L (.waitJoin t) l) =
      (p.view L).modifyThread t fun r => { r with waitJoin := some l } := by
  have hnew : { (p.view L).thread t with waitJoin := some l } = (p.thread t).sthread l := by
    simp [LinkedOS.view, ThreadInfo.sthread, hlist]
  have hthread : (fun u => (p.thread u).sthread (Function.update L (.waitJoin t) l (.waitJoin u))) =
      Function.update (p.view L).thread t ((p.thread t).sthread l) := by
    funext u
    have hcomp := Function.update_comp_eq_of_injective L (fun _ _ => ListName.waitJoin.inj) t l
    rw [← Function.comp_apply (f := Function.update L _ l), hcomp,
      Function.apply_update (fun u => (p.thread u).sthread)]
    rfl
  rw [OS.modifyThread, hnew, OS.setThread, ← hthread]
  simp [LinkedOS.view]

/-- Another list of the threads that wait for `m`. -/
theorem view_wait (m : Mid) (l : List Tid) :
    p.view (Function.update L (.wait m) l) = (p.view L).setMutex m ⟨p.state m, l⟩ := by
  have hmutex : (fun n => (⟨p.state n, Function.update L (.wait m) l (.wait n)⟩ : Lock)) =
      Function.update (p.view L).mutex m ⟨p.state m, l⟩ := by
    funext n
    have hcomp := Function.update_comp_eq_of_injective L (fun _ _ => ListName.wait.inj) m l
    rw [← Function.comp_apply (f := Function.update L _ l), hcomp,
      Function.apply_update (fun n w => (⟨p.state n, w⟩ : Lock))]
    rfl
  rw [OS.setMutex, ← hmutex]
  simp [LinkedOS.view]

/-- Other fields of a thread record than its list. -/
theorem view_modifyThread {f : ThreadInfo → ThreadInfo} {g : Sthread → Sthread}
    (hfg : ∀ r l, (f r).sthread l = g (r.sthread l)) (t : Tid) :
    (p.modifyThread t f).view L = (p.view L).modifyThread t g := by
  have hnew : g ((p.view L).thread t) = (f (p.thread t)).sthread (L (.waitJoin t)) := (hfg ..).symm
  have hthread : ((p.modifyThread t f).view L).thread =
      Function.update (p.view L).thread t (g ((p.view L).thread t)) := by
    funext u
    rw [hnew]
    exact Function.apply_update (fun u r => ThreadInfo.sthread r (L (.waitJoin u))) ..
  rw [OS.modifyThread, OS.setThread, ← hthread]
  rfl

/-- Another state of a mutex. -/
theorem view_setState (m : Mid) (v : ℕ) :
    (p.setState m v).view L = (p.view L).setMutex m ⟨v, L (.wait m)⟩ := by
  have hmutex : ((p.setState m v).view L).mutex =
      Function.update (p.view L).mutex m ⟨v, L (.wait m)⟩ := by
    funext n
    exact Function.apply_update (fun n v => (⟨v, L (.wait n)⟩ : Lock)) ..
  rw [OS.setMutex, ← hmutex]
  rfl

end View

/-! ### The calls on both levels -/

section Calls

variable {malloc : ℕ → ℕ} {p : LinkedOS} {s : OS} {L : ListName → List Tid}

theorem running_of_refines (h : Refines malloc p s) : p.running = s.running := by
  obtain ⟨L, -, rfl⟩ := h
  rfl

theorem finished_of_refines (h : Refines malloc p s) (t : Tid) :
    (p.thread t).finished = (s.thread t).finished := by
  obtain ⟨L, -, rfl⟩ := h
  rfl

theorem joinValue_of_refines (h : Refines malloc p s) (t : Tid) (valuePtr : Bool) :
    p.joinValue t valuePtr = joinValue s t valuePtr := by
  obtain ⟨L, -, rfl⟩ := h
  rfl

theorem refines_empty_iff (h : Refines malloc p s) : p.empty .run = true ↔ s.run = [] := by
  obtain ⟨L, hL, rfl⟩ := h
  exact hL.empty_iff

theorem refines_modifyThread {f : ThreadInfo → ThreadInfo} {g : Sthread → Sthread}
    (h : Refines malloc p s) (hfg : ∀ r l, (f r).sthread l = g (r.sthread l)) (t : Tid) :
    Refines malloc (p.modifyThread t f) (s.modifyThread t g) := by
  obtain ⟨L, hL, rfl⟩ := h
  exact ⟨L, hL.congr rfl rfl rfl, (view_modifyThread hfg t).symm⟩

theorem refines_agePriority (h : Refines malloc p s) :
    Refines malloc p.agePriority (agePriority s) := by
  rw [LinkedOS.agePriority, agePriority, running_of_refines h]
  exact refines_modifyThread h (fun _ _ => rfl) _

theorem refines_yieldPriority (h : Refines malloc p s) :
    Refines malloc p.yieldPriority (yieldPriority s) := by
  obtain ⟨L, hL, rfl⟩ := h
  have hprio : ((p.view L).thread (p.view L).running).priority = (p.thread p.running).priority :=
    rfl
  rw [LinkedOS.yieldPriority, yieldPriority, hprio]
  split_ifs
  · exact refines_modifyThread ⟨L, hL, rfl⟩ (fun _ _ => rfl) _
  · exact ⟨L, hL, rfl⟩

theorem refines_markFinished (h : Refines malloc p s) (res : Option ℕ) :
    Refines malloc (p.markFinished res) (markFinished res s) := by
  rw [LinkedOS.markFinished, markFinished, running_of_refines h]
  exact refines_modifyThread h (fun _ _ => rfl) _

variable (hmalloc : malloc.Injective)
include hmalloc

theorem rel_switchNext (h : Refines malloc p s) :
    Option.Rel (Refines malloc) p.switchNext (switchNext s) := by
  obtain ⟨L, hL, rfl⟩ := h
  cases hrun : L .run with
  | nil =>
    have hnone : switchNext (p.view L) = none := by
      rw [switchNext, show (p.view L).run = [] from hrun]
    rw [LinkedOS.switchNext, hL.pop_eq_none hrun, hnone, Option.map_none]
    exact .none
  | cons next rest =>
    obtain ⟨p', hpop, hL', hview⟩ := hL.pop hmalloc hrun
    have hsome : switchNext (p.view L) = some { p.view L with running := next, run := rest } := by
      rw [switchNext, show (p.view L).run = next :: rest from hrun]
    rw [LinkedOS.switchNext, hpop, Option.map_some, hsome]
    exact .some ⟨_, hL'.congr rfl rfl rfl, (view_switch hview next rest).symm⟩

theorem refines_mutexInit (h : Refines malloc p s) :
    Refines malloc p.myPthreadMutexInit (myPthreadMutexInit s) := by
  obtain ⟨L, hL, rfl⟩ := h
  refine ⟨_, (hL.zeroed hmalloc (.wait p.mutexes)).congr rfl rfl rfl, ?_⟩
  have hlist : (p.setState p.mutexes 0).view (Function.update L (.wait p.mutexes) []) =
      (p.view L).setMutex p.mutexes ⟨0, []⟩ := by
    rw [view_setState, view_wait, Function.update_self]
    simp only [OS.setMutex, Function.update_idem]
  rw [show p.myPthreadMutexInit.view (Function.update L (.wait p.mutexes) []) =
    { (p.setState p.mutexes 0).view (Function.update L (.wait p.mutexes) []) with
      mutexes := p.mutexes + 1 } from rfl, hlist]
  rfl

variable (hnull : ∀ j, malloc j ≠ 0)
include hnull

/-- A thread goes to the run queue. -/
theorem refines_pushRun (h : Refines malloc p s) (t : Tid) :
    ∃ p', p.pushOrdered malloc .run t = some p' ∧ Refines malloc p' (s.pushRun t) := by
  obtain ⟨L, hL, rfl⟩ := h
  obtain ⟨p', hpush, hL', hview⟩ := hL.pushOrdered hmalloc hnull .run t
  refine ⟨p', hpush, _, hL', ?_⟩
  rw [hview, view_run]
  rfl

theorem refines_maintenance (h : Refines malloc p s) :
    ∃ p', p.maintenance malloc = some p' ∧ Refines malloc p' (maintenance s) := by
  obtain ⟨L, hL, rfl⟩ := h
  have hn : (p.view L).nSchedulings = p.nSchedulings := rfl
  by_cases h150 : p.nSchedulings + 1 > 150
  · obtain ⟨p', horder, hL', hview⟩ := hL.orderByOldest hmalloc hnull .run
    refine ⟨{ p' with nSchedulings := 0 }, ?_, _, hL'.congr rfl rfl rfl, ?_⟩
    · rw [LinkedOS.maintenance, if_pos h150, horder, Option.map_some]
    · have hordered : ({ p' with nSchedulings := 0 } : LinkedOS).view
          (Function.update L .run (Queue.orderByOldest p.age (L .run))) =
            { (p.view L).setRun (Queue.orderByOldest p.age (L .run)) with nSchedulings := 0 } := by
        rw [← view_run, ← hview]
        rfl
      rw [hordered, maintenance, hn, if_pos h150]
      rfl
  · refine ⟨{ p with nSchedulings := p.nSchedulings + 1 }, ?_, L, hL.congr rfl rfl rfl, ?_⟩
    · rw [LinkedOS.maintenance, if_neg h150]
    · rw [maintenance, hn, if_neg h150]
      rfl

theorem refines_rotate (h : Refines malloc p s) :
    ∃ p', p.rotate malloc = some p' ∧ Refines malloc p' (rotate s) := by
  obtain ⟨L, hL, rfl⟩ := h
  cases hrun : L .run with
  | nil =>
    refine ⟨p, ?_, L, hL, ?_⟩
    · rw [LinkedOS.rotate, if_pos (hL.empty_iff.mpr hrun)]
    · rw [rotate, show (p.view L).run = [] from hrun]
  | cons next rest =>
    obtain ⟨p₁, hpop, hL₁, hview₁⟩ := hL.pop hmalloc hrun
    obtain ⟨p₂, hpush, hL₂, hview₂⟩ := hL₁.pushOrdered hmalloc hnull .run p₁.running
    have hempty : ¬ p.empty .run = true := by simp [hL.empty_iff, hrun]
    refine ⟨{ p₂ with running := next }, ?_, _, hL₂.congr rfl rfl rfl, ?_⟩
    · rw [LinkedOS.rotate, if_neg hempty, hpop, Option.bind_some, hpush, Option.map_some]
    · rw [Function.update_idem, Function.update_self, prio_of_view hview₁, running_of_view hview₁]
      rw [view_switch (hview₂.trans hview₁), rotate, show (p.view L).run = next :: rest from hrun]
      rfl

theorem refines_scheduler (h : Refines malloc p s) :
    ∃ p', p.scheduler malloc = some p' ∧ Refines malloc p' (scheduler s) := by
  obtain ⟨p₁, hmaintenance, h₁⟩ := refines_maintenance hmalloc hnull h
  obtain ⟨p₂, hrotate, h₂⟩ := refines_rotate hmalloc hnull (refines_agePriority h₁)
  exact ⟨p₂, by rw [LinkedOS.scheduler, hmaintenance, Option.bind_some, hrotate], h₂⟩

theorem refines_create (h : Refines malloc p s) (now : UInt64) :
    ∃ p', p.myPthreadCreate malloc now = some p' ∧ Refines malloc p' (myPthreadCreate now s) := by
  obtain ⟨L, hL, rfl⟩ := h
  have hnew : Refines malloc (p.createNewThread now) (createNewThread now (p.view L)) := by
    refine ⟨_, (hL.zeroed hmalloc (.waitJoin p.created)).congr rfl rfl rfl, ?_⟩
    have hthread : Function.update (p.view L).thread p.created (newSthread p.nextId now) =
        ((p.createNewThread now).view (Function.update L (.waitJoin p.created) [])).thread := by
      funext u
      by_cases hu : u = p.created
      · subst hu
        simp [LinkedOS.view, LinkedOS.createNewThread, ThreadInfo.sthread, newSthread]
      · simp [LinkedOS.view, LinkedOS.createNewThread, hu]
    rw [show createNewThread now (p.view L) = { p.view L with
      thread := Function.update (p.view L).thread p.created (newSthread p.nextId now)
      nextId := p.nextId + 1
      created := p.created + 1 } from rfl, hthread]
    simp [LinkedOS.view, LinkedOS.createNewThread]
  exact refines_pushRun hmalloc hnull hnew p.created

/-- The loop of `threadExit` empties the list into the run queue. -/
theorem Lists.drain {q : ListName} {l : List Tid} {fuel : ℕ} (h : Lists malloc p L)
    (hq : q ≠ .run) (hl : L q = l) (hfuel : l.length < fuel) :
    ∃ p', LinkedOS.drain malloc q fuel p = some p' ∧
      Lists malloc p' (Function.update (Function.update L q []) .run
        (l.foldl (Queue.pushOrdered p.prio) (L .run))) ∧ p'.view = p.view := by
  induction l generalizing p L fuel with
  | nil =>
    obtain ⟨fuel, rfl⟩ := Nat.exists_eq_add_one_of_ne_zero (Nat.ne_zero_of_lt hfuel)
    refine ⟨p, by rw [LinkedOS.drain, if_pos (h.empty_iff.mpr hl)], ?_, rfl⟩
    rw [List.foldl_nil, ← hl, Function.update_eq_self, Function.update_eq_self]
    exact h
  | cons t l ih =>
    obtain ⟨fuel, rfl⟩ := Nat.exists_eq_add_one_of_ne_zero (Nat.ne_zero_of_lt hfuel)
    obtain ⟨p₁, hpop, hL₁, hview₁⟩ := h.pop hmalloc hl
    obtain ⟨p₂, hpush, hL₂, hview₂⟩ := hL₁.pushOrdered hmalloc hnull .run t
    rw [Function.update_of_ne hq.symm, prio_of_view hview₁] at hL₂
    have hl₂ : Function.update (Function.update L q l) .run
        (Queue.pushOrdered p.prio (L .run) t) q = l := by
      rw [Function.update_of_ne hq, Function.update_self]
    obtain ⟨p', hdrain, hL', hview'⟩ := ih hL₂ hl₂ (Nat.lt_of_succ_lt_succ hfuel)
    refine ⟨p', ?_, ?_, hview'.trans (hview₂.trans hview₁)⟩
    · have hempty : ¬ p.empty q = true := by simp [h.empty_iff, hl]
      rw [LinkedOS.drain, if_neg hempty, hpop, Option.bind_some, hpush, Option.bind_some, hdrain]
    · rw [Function.update_self, prio_of_view (hview₂.trans hview₁),
        Function.update_comm hq.symm, Function.update_idem, Function.update_idem] at hL'
      exact hL'

theorem rel_drainJoiners (h : Refines malloc p s) :
    Option.Rel (Refines malloc) (p.drainJoiners malloc) (drainJoiners s) := by
  obtain ⟨L, hL, rfl⟩ := h
  have hjoiners : ((p.view L).thread (p.view L).running).waitJoin =
      if (p.thread p.running).hasList then some (L (.waitJoin p.running)) else none := rfl
  rw [LinkedOS.drainJoiners, drainJoiners, hjoiners]
  split_ifs with hlist
  · obtain ⟨p', hdrain, hL', hview⟩ := hL.drain hmalloc hnull ListName.noConfusion rfl
      (Nat.lt_succ_of_le (hL.length_le (.waitJoin p.running)))
    rw [hdrain, Option.map_some]
    refine .some ⟨_, hL', ?_⟩
    rw [hview, view_run, view_waitJoin hlist]
    rfl
  · exact .none

theorem rel_threadExit (h : Refines malloc p s) (res : Option ℕ) :
    Option.Rel (Refines malloc) (p.threadExit malloc res) (threadExit res s) := by
  refine rel_bind (rel_drainJoiners hmalloc hnull (refines_markFinished h res)) fun p s h => ?_
  simp only [refines_empty_iff h]
  split_ifs
  · exact .some h
  · exact rel_switchNext hmalloc h

theorem rel_pushJoiner (h : Refines malloc p s) (t : Tid) :
    Option.Rel (Refines malloc) (p.pushJoiner malloc t) (pushJoiner t s) := by
  obtain ⟨L, hL, rfl⟩ := h
  have hjoiners : ((p.view L).thread t).waitJoin =
      if (p.thread t).hasList then some (L (.waitJoin t)) else none := rfl
  rw [LinkedOS.pushJoiner, pushJoiner, hjoiners]
  split_ifs with hlist
  · obtain ⟨p', hpush, hL', hview⟩ := hL.pushOrdered hmalloc hnull (.waitJoin t) p.running
    rw [hpush, Option.map_some]
    refine .some ⟨_, hL', ?_⟩
    rw [hview, view_waitJoin hlist]
    rfl
  · exact .none

theorem rel_join (h : Refines malloc p s) (t : Tid) (valuePtr : Bool) :
    Option.Rel (Refines malloc) (p.myPthreadJoin malloc t valuePtr)
      (myPthreadJoin t valuePtr s) := by
  rw [LinkedOS.myPthreadJoin, myPthreadJoin, ← finished_of_refines h, joinValue_of_refines h]
  split_ifs
  · cases joinValue s t valuePtr with
    | none => exact .none
    | some v => exact .some h
  · refine rel_bind (rel_pushJoiner hmalloc hnull h t) fun p s h => ?_
    simp only [refines_empty_iff h, joinValue_of_refines h]
    split_ifs
    · cases joinValue s t valuePtr with
      | none => exact .none
      | some v =>
        obtain ⟨L, hL, rfl⟩ := h
        exact .some ⟨L, hL.congr rfl rfl rfl, rfl⟩
    · exact rel_switchNext hmalloc h

theorem rel_lockSection (h : Refines malloc p s) (m : Mid) :
    Option.Rel (Refines malloc) (p.lockSection malloc m) (lockSection m s) := by
  obtain ⟨L, hL, rfl⟩ := h
  rw [LinkedOS.lockSection, lockSection, show ((p.view L).mutex m).state = p.state m from rfl]
  split_ifs
  · obtain ⟨p', hpush, hL', hview⟩ := hL.push hmalloc hnull (.wait m) p.running
    rw [hpush, Option.bind_some, lockBlock]
    refine rel_switchNext hmalloc ⟨_, hL', ?_⟩
    rw [hview, view_wait]
    rfl
  · exact .some ⟨L, hL, rfl⟩

theorem rel_lockRound (h : Refines malloc p s) (m : Mid) :
    Option.Rel (Refines malloc) (p.myPthreadMutexLockRound malloc m)
      (myPthreadMutexLockRound m s) := by
  obtain ⟨L, hL, rfl⟩ := h
  have hset : Refines malloc (p.setState m 1) (testAndSet m (p.view L)).2 :=
    ⟨L, hL.congr rfl rfl rfl, (view_setState m 1).symm⟩
  rw [LinkedOS.myPthreadMutexLockRound, myPthreadMutexLockRound,
    show (testAndSet m (p.view L)).1 = (p.testAndSet m).1 from rfl]
  split_ifs
  · exact rel_lockSection hmalloc hnull hset m
  · exact .some hset

theorem refines_unlock (h : Refines malloc p s) (m : Mid) :
    ∃ p', p.myPthreadMutexUnlock malloc m = some p' ∧
      Refines malloc p' (myPthreadMutexUnlock m s) := by
  obtain ⟨L, hL, rfl⟩ := h
  cases hwait : L (.wait m) with
  | nil =>
    refine ⟨p.setState m 0, ?_, L, hL.congr rfl rfl rfl, ?_⟩
    · rw [LinkedOS.myPthreadMutexUnlock, if_pos (hL.empty_iff.mpr hwait), Option.map_some]
    · rw [myPthreadMutexUnlock, show ((p.view L).mutex m).wait = [] from hwait, view_setState,
      hwait]
  | cons t rest =>
    obtain ⟨p₁, hpop, hL₁, hview₁⟩ := hL.pop hmalloc hwait
    obtain ⟨p₂, hpush, hL₂, hview₂⟩ := hL₁.pushOrdered hmalloc hnull .run t
    have hempty : ¬ p.empty (.wait m) = true := by simp [hL.empty_iff, hwait]
    refine ⟨p₂.setState m 0, ?_, _, hL₂.congr rfl rfl rfl, ?_⟩
    · rw [LinkedOS.myPthreadMutexUnlock, if_neg hempty, hpop, Option.bind_some, hpush,
        Option.map_some]
    · have hrest : Function.update (Function.update L (.wait m) rest) .run
          (Queue.pushOrdered p.prio (L .run) t) (.wait m) = rest := by simp
      rw [Function.update_of_ne ListName.noConfusion, prio_of_view hview₁, view_setState, hrest,
        hview₂, hview₁, view_run, view_wait, myPthreadMutexUnlock,
        show ((p.view L).mutex m).wait = t :: rest from hwait]
      simp only [OS.setRun, OS.setMutex, OS.pushRun, Function.update_idem]
      rfl

/-- One call on both levels. -/
theorem rel_linkedStep (h : Refines malloc p s) (c : Call) :
    Option.Rel (Refines malloc) (linkedStep malloc p c) (callStep s c) := by
  have htotal : ∀ {o : Option LinkedOS} {s' : OS},
      (∃ p', o = some p' ∧ Refines malloc p' s') → Option.Rel (Refines malloc) o (some s') := by
    rintro o s' ⟨p', rfl, h'⟩
    exact .some h'
  cases c with
  | create now => exact htotal (refines_create hmalloc hnull h now)
  | tick => exact htotal (refines_scheduler hmalloc hnull h)
  | yield => exact htotal (refines_scheduler hmalloc hnull (refines_yieldPriority h))
  | join t valuePtr => exact rel_join hmalloc hnull h t valuePtr
  | mutexInit => exact .some (refines_mutexInit hmalloc h)
  | lock m => exact rel_lockRound hmalloc hnull h m
  | unlock m => exact htotal (refines_unlock hmalloc hnull h m)
  | exit res => exact rel_threadExit hmalloc hnull h res

end Calls

/-- `initOS` on both levels. -/
theorem refines_init (malloc : ℕ → ℕ) (now : UInt64) :
    Refines malloc (LinkedOS.initOS now) (initOS now) := by
  have hstored : Stored malloc (LinkedOS.initOS now) fun _ => [] :=
    ⟨fun _ => ⟨represents_zero _, fun x hx => absurd hx List.not_mem_nil⟩,
      fun _ _ x hx => absurd hx List.not_mem_nil⟩
  refine ⟨fun _ => [], ⟨_, hstored, fun _ => rfl⟩, ?_⟩
  have hthread : (initOS now).thread = ((LinkedOS.initOS now).view fun _ => []).thread := by
    funext u
    by_cases hu : u = 0
    · subst hu
      rfl
    · have hrecord : (LinkedOS.initOS now).thread u = ⟨0, 0, 0, none, false, true⟩ := by
        simp [LinkedOS.initOS, hu]
      rw [thread_initOS_of_ne now hu]
      exact (congrArg (ThreadInfo.sthread · []) hrecord).symm
  rw [LinkedOS.view, show initOS now = { initOS now with thread := (initOS now).thread } from rfl,
    hthread]
  rfl

/-- **The library on linked lists refines the library on plain lists.** Let `malloc` return a
different node each time and never `NULL`. After any calls both libraries have dereferenced `NULL`,
or neither has; then every header is that of its queue, no two lists share a node, and everything
else is the same. -/
theorem library_refines {malloc : ℕ → ℕ} (hmalloc : malloc.Injective) (hnull : ∀ j, malloc j ≠ 0)
    (now : UInt64) (calls : List Call) :
    Option.Rel (Refines malloc) (run (linkedStep malloc) (LinkedOS.initOS now) calls)
      (run callStep (initOS now) calls) :=
  run_related (fun _ _ c h => rel_linkedStep hmalloc hnull h c) (refines_init malloc now) calls

/-- Two threads wait for a mutex, and `mainThread` joins the first of them. -/
theorem library_refines_two :
    Option.Rel (Refines (· + 1))
      (run (linkedStep (· + 1)) (LinkedOS.initOS 7)
        [.create 7, .create 8, .mutexInit, .lock 0, .yield,
        .lock 0, .lock 0, .unlock 0, .join 1 false])
      (run callStep (initOS 7) [.create 7, .create 8, .mutexInit, .lock 0, .yield, .lock 0, .lock 0,
        .unlock 0, .join 1 false]) ∧
    (run callStep (initOS 7) [.create 7, .create 8, .mutexInit, .lock 0, .yield, .lock 0, .lock 0,
        .unlock 0, .join 1 false]).isSome = true :=
  ⟨library_refines (add_left_injective 1) (fun j => Nat.succ_ne_zero j) 7 _, by decide⟩

end OSDesign
