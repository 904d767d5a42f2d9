import Mathlib.Tactic
import Mathlib.Algebra.BigOperators.Group.Finset.Basic
import OSDesign.Lib.Transition
import OSDesign.Thread.Scheduler

/-!
# No thread is lost or duplicated

A thread is in one of four kinds of place: it runs, it is in the run queue, it waits in the
`waitJoin` list of an unfinished thread, or it waits in the wait list of a mutex. `OS.occurrences`
counts the places. Every library call moves threads between the places; what each call does to the
count is proved once per call (`occurrences_scheduler`, `occurrences_threadExit`, ...), and the
invariant `Conserved` of whole runs follows from these equations.

## Main definitions

* `OS.occurrences`, `Conserved`.
* `Call`, `callStep`: the library calls, each taken as one step.
* `CallAllowed`: who may call what, and the run queue not being empty when a thread gives up the
  processor for good.

## Main results

* `conserved_of_run`: the invariant along every run from `initOS`.
-/

namespace OSDesign

open Transition

/-- The occurrences of `t` in the `waitJoin` list of a thread, none if the thread is finished. -/
def joinOccurrences (r : Sthread) (t : Tid) : ℕ :=
  if r.finished then 0 else (r.waitJoin.getD []).count t

/-- The number of places in which `t` is: `*running`, the run queue, the `waitJoin` lists of the
unfinished threads and the wait lists of the mutexes. -/
def OS.occurrences (s : OS) (t : Tid) : ℕ :=
  (s.running :: s.run).count t +
    ∑ u ∈ Finset.range s.created, joinOccurrences (s.thread u) t +
    ∑ m ∈ Finset.range s.mutexes, (s.mutex m).wait.count t

/-- Every thread that was created and is not finished is in exactly one place, and no other
thread is in any place. -/
def Conserved (s : OS) : Prop :=
  ∀ t, s.occurrences t = if t < s.created ∧ (s.thread t).finished = false then 1 else 0

/-- A library call, or an interrupt of the timer. `my_pthread_mutex_destroy` is not among them: it
moves the threads that wait for the mutex to the run queue and then frees the record. -/
inductive Call where
  | create (now : UInt64)
  | tick
  | yield
  | join (t : Tid) (valuePtr : Bool)
  | mutexInit
  | lock (m : Mid)
  | unlock (m : Mid)
  | exit (res : Option ℕ)
deriving DecidableEq

/-- A call of the running thread, taken as one step; `lock` is one round of its loop. -/
def callStep (s : OS) : Call → Option OS
  | .create now => some (myPthreadCreate now s)
  | .tick => some (scheduler s)
  | .yield => some (myPthreadYield s)
  | .join t valuePtr => myPthreadJoin t valuePtr s
  | .mutexInit => some (myPthreadMutexInit s)
  | .lock m => myPthreadMutexLockRound m s
  | .unlock m => some (myPthreadMutexUnlock m s)
  | .exit res => threadExit res s

/-- Joins name a created thread and exits are made by one, mutexes are initialised; and when the
calling thread gives up the processor in `join`, `lock` or `exit` there is a thread to run. -/
def CallAllowed (s : OS) : Call → Prop
  | .join t _ => 0 < t ∧ t < s.created ∧ ((s.thread t).finished = false → s.run ≠ [])
  | .lock m => m < s.mutexes ∧ ((s.mutex m).state = 1 → s.run ≠ [])
  | .unlock m => m < s.mutexes
  | .exit _ => 0 < s.running ∧ ((s.thread s.running).waitJoin.getD [] ≠ [] ∨ s.run ≠ [])
  | _ => True

instance (s : OS) (c : Call) : Decidable (CallAllowed s c) := by
  rcases c <;> dsimp only [CallAllowed] <;> infer_instance

/-! ### Sums with one changed term -/

private theorem sum_range_update {α : Type*} (g : α → ℕ) (f : ℕ → α) {n u : ℕ} (hu : u < n)
    (r : α) : ∑ x ∈ Finset.range n, g (Function.update f u r x) + g (f u) =
      ∑ x ∈ Finset.range n, g (f x) + g r := by
  have hmem : u ∈ Finset.range n := Finset.mem_range.mpr hu
  have hrest : ∑ x ∈ Finset.range n \ {u}, g (Function.update f u r x) =
      ∑ x ∈ Finset.range n \ {u}, g (f x) := by
    refine Finset.sum_congr rfl fun x hx => ?_
    rw [Function.update_of_ne (by simpa using (Finset.mem_sdiff.mp hx).2)]
  rw [Finset.sum_eq_add_sum_sdiff_singleton_of_mem hmem, hrest,
    Finset.sum_eq_add_sum_sdiff_singleton_of_mem hmem fun x => g (f x), Function.update_self]
  ring

private theorem sum_range_update_self {α : Type*} (g : α → ℕ) (f : ℕ → α) (n : ℕ) (r : α) :
    ∑ x ∈ Finset.range n, g (Function.update f n r x) = ∑ x ∈ Finset.range n, g (f x) := by
  refine Finset.sum_congr rfl fun x hx => ?_
  rw [Function.update_of_ne (Finset.mem_range.mp hx).ne]

/-! ### What each piece of a call does to the count -/

theorem occurrences_setThread (s : OS) {u : Tid} (hu : u < s.created) (r : Sthread) (t : Tid) :
    (s.setThread u r).occurrences t + joinOccurrences (s.thread u) t =
      s.occurrences t + joinOccurrences r t := by
  have h := sum_range_update (joinOccurrences · t) s.thread hu r
  simp only [OS.occurrences, OS.setThread]
  omega

theorem occurrences_setMutex (s : OS) {m : Mid} (hm : m < s.mutexes) (l : Lock) (t : Tid) :
    (s.setMutex m l).occurrences t + (s.mutex m).wait.count t =
      s.occurrences t + l.wait.count t := by
  have h := sum_range_update (·.wait.count t) s.mutex hm l
  simp only [OS.occurrences, OS.setMutex]
  omega

/-- The state word of a mutex is no place. -/
theorem occurrences_setState (s : OS) (m : Mid) (k : ℕ) (t : Tid) :
    (s.setMutex m ⟨k, (s.mutex m).wait⟩).occurrences t = s.occurrences t := by
  have hwait (x : Mid) : (Function.update s.mutex m ⟨k, (s.mutex m).wait⟩ x).wait =
      (s.mutex x).wait := by
    by_cases hx : x = m
    · subst hx
      rw [Function.update_self]
    · rw [Function.update_of_ne hx]
  simp only [OS.occurrences, OS.setMutex, hwait]

theorem occurrences_pushRun (s : OS) (u t : Tid) :
    (s.pushRun u).occurrences t = s.occurrences t + [u].count t := by
  simp only [OS.occurrences, OS.pushRun, OS.setRun, Queue.count_pushOrdered, List.count_cons,
    List.count_nil]
  omega

theorem occurrences_switchNext {s s' : OS} (h : switchNext s = some s') (t : Tid) :
    s.occurrences t = s'.occurrences t + [s.running].count t := by
  unfold switchNext at h
  split at h
  · cases h
  · rename_i next rest hrun
    cases h
    simp only [OS.occurrences, hrun, List.count_cons, List.count_nil]
    omega

theorem created_thread_switchNext {s s' : OS} (h : switchNext s = some s') :
    s'.created = s.created ∧ s'.thread = s.thread := by
  unfold switchNext at h
  split at h <;> cases h
  exact ⟨rfl, rfl⟩

theorem occurrences_createNewThread (now : UInt64) (s : OS) (t : Tid) :
    (createNewThread now s).occurrences t = s.occurrences t := by
  have h := sum_range_update_self (joinOccurrences · t) s.thread s.created
    (newSthread s.nextId now)
  have hnew : joinOccurrences (newSthread s.nextId now) t = 0 := rfl
  simp only [OS.occurrences, createNewThread, Finset.sum_range_succ, Function.update_self, hnew]
  omega

theorem occurrences_myPthreadCreate (now : UInt64) (s : OS) (t : Tid) :
    (myPthreadCreate now s).occurrences t = s.occurrences t + [s.created].count t := by
  rw [myPthreadCreate, occurrences_pushRun, occurrences_createNewThread]

theorem occurrences_maintenance (s : OS) (t : Tid) :
    (maintenance s).occurrences t = s.occurrences t := by
  simp only [maintenance]
  split_ifs
  · simp only [OS.occurrences, List.count_cons, Queue.count_orderByOldest]
  · rfl

/-- Changing fields other than `finished` and `waitJoin` changes no count. -/
theorem occurrences_modifyThread {s : OS} {u : Tid} (hu : u < s.created) {f : Sthread → Sthread}
    (hf : ∀ r, (f r).finished = r.finished) (hw : ∀ r, (f r).waitJoin = r.waitJoin) (t : Tid) :
    (s.modifyThread u f).occurrences t = s.occurrences t := by
  have h := occurrences_setThread s hu (f (s.thread u)) t
  simpa only [OS.modifyThread, joinOccurrences, hf, hw, Nat.add_right_cancel_iff] using h

theorem occurrences_yieldPriority {s : OS} (hr : s.running < s.created) (t : Tid) :
    (yieldPriority s).occurrences t = s.occurrences t := by
  unfold yieldPriority
  split_ifs
  · refine occurrences_modifyThread hr ?_ ?_ t <;> exact fun _ => rfl
  · rfl

theorem occurrences_rotate (s : OS) (t : Tid) : (rotate s).occurrences t = s.occurrences t := by
  unfold rotate
  split
  · rfl
  · rename_i next rest hrun
    simp only [OS.occurrences, Queue.count_pushOrdered, hrun, List.count_cons]
    omega

theorem occurrences_scheduler {s : OS} (hr : s.running < s.created) (t : Tid) :
    (scheduler s).occurrences t = s.occurrences t := by
  have hm : (maintenance s).running < (maintenance s).created := by
    simp only [maintenance]
    split_ifs <;> exact hr
  rw [scheduler, occurrences_rotate, agePriority, occurrences_modifyThread hm,
    occurrences_maintenance] <;> exact fun _ => rfl

theorem occurrences_setRun (s : OS) (l : List Tid) (t : Tid) :
    (s.setRun l).occurrences t + s.run.count t = s.occurrences t + l.count t := by
  simp only [OS.occurrences, OS.setRun, List.count_cons]
  omega

theorem occurrences_markFinished {s : OS} (res : Option ℕ) (hr : s.running < s.created) (t : Tid) :
    (markFinished res s).occurrences t + joinOccurrences (s.thread s.running) t =
      s.occurrences t := by
  have h := occurrences_setThread s hr
    { s.thread s.running with
      finished := true
      res := res.or (s.thread s.running).res } t
  simpa [joinOccurrences, markFinished, OS.modifyThread] using h

theorem occurrences_drainJoiners {s s' : OS} (hr : s.running < s.created)
    (hf : (s.thread s.running).finished = true) (h : drainJoiners s = some s') (t : Tid) :
    s'.occurrences t = s.occurrences t + ((s.thread s.running).waitJoin.getD []).count t := by
  obtain ⟨joiners, hj, rfl⟩ := Option.map_eq_some_iff.mp h
  have hclear : (s.modifyThread s.running fun r => { r with waitJoin := some [] }).occurrences t =
      s.occurrences t := by
    have := occurrences_setThread s hr { s.thread s.running with waitJoin := some [] } t
    simpa [joinOccurrences, hf, OS.modifyThread] using this
  have hrun := occurrences_setRun (s.modifyThread s.running fun r => { r with waitJoin := some [] })
    (joiners.foldl (Queue.pushOrdered s.prio) s.run) t
  rw [Queue.count_foldl_pushOrdered, hclear] at hrun
  change _ + s.run.count t = _ at hrun
  rw [hj, Option.getD_some]
  omega

/-- The threads that wait for `t` in a join. -/
def OS.joiners (s : OS) (t : Tid) : List Tid := (s.thread t).waitJoin.getD []

/-- The beginning of `threadExit` moves the joiners to the run queue. -/
theorem occurrences_finish {s s' : OS} {res : Option ℕ} (hr : s.running < s.created)
    (hd : (s.thread s.running).finished = true → s.joiners s.running = [])
    (h : drainJoiners (markFinished res s) = some s') (t : Tid) :
    s'.occurrences t = s.occurrences t := by
  have hfin : ((markFinished res s).thread s.running).finished = true := by simp [markFinished]
  have hjoin : ((markFinished res s).thread s.running).waitJoin =
      (s.thread s.running).waitJoin := by simp [markFinished]
  have hdrain := occurrences_drainJoiners (s := markFinished res s) hr hfin h t
  change _ = _ + (((markFinished res s).thread s.running).waitJoin.getD []).count t at hdrain
  rw [hjoin] at hdrain
  have hmark := occurrences_markFinished res hr t
  have hcount : joinOccurrences (s.thread s.running) t =
      ((s.thread s.running).waitJoin.getD []).count t := by
    rw [joinOccurrences]
    split_ifs with hf
    · rw [show (s.thread s.running).waitJoin.getD [] = [] from hd hf, List.count_nil]
    · rfl
  omega

/-- Blocking: the running thread is moved to a list, then the next thread is popped. -/
theorem occurrences_block {s s₁ s' : OS} (hs : switchNext s₁ = some s')
    (hocc : ∀ t, s₁.occurrences t = s.occurrences t + [s.running].count t)
    (hr : s₁.running = s.running) (t : Tid) : s'.occurrences t = s.occurrences t := by
  have hsw := occurrences_switchNext hs t
  rw [hr, hocc] at hsw
  omega

theorem occurrences_lockSection {s s' : OS} {m : Mid} (hm : m < s.mutexes)
    (hs : lockSection m s = some s') (t : Tid) : s'.occurrences t = s.occurrences t := by
  unfold lockSection at hs
  split_ifs at hs
  · rw [lockBlock] at hs
    refine occurrences_block (s := s) hs (fun t => ?_) rfl t
    have hset := occurrences_setMutex s hm
      ⟨(s.mutex m).state, Queue.push (s.mutex m).wait s.running⟩ t
    simp only [Queue.count_push, List.count_cons, List.count_nil] at hset ⊢
    omega
  · cases hs
    rfl

theorem occurrences_myPthreadMutexLockRound {s s' : OS} {m : Mid} (hm : m < s.mutexes)
    (hs : myPthreadMutexLockRound m s = some s') (t : Tid) :
    s'.occurrences t = s.occurrences t := by
  simp only [myPthreadMutexLockRound] at hs
  have htas : (testAndSet m s).2.occurrences t = s.occurrences t := occurrences_setState s m 1 t
  split_ifs at hs
  · exact (occurrences_lockSection (s := (testAndSet m s).2) hm hs t).trans htas
  · cases hs
    exact htas

theorem occurrences_myPthreadMutexInit (s : OS) (t : Tid) :
    (myPthreadMutexInit s).occurrences t = s.occurrences t := by
  have hsum := sum_range_update_self (·.wait.count t) s.mutex s.mutexes ⟨0, []⟩
  simp only [OS.occurrences, myPthreadMutexInit, Finset.sum_range_succ, Function.update_self,
    List.count_nil, Nat.add_zero]
  omega

theorem occurrences_myPthreadMutexUnlock {s : OS} {m : Mid} (hm : m < s.mutexes) (t : Tid) :
    (myPthreadMutexUnlock m s).occurrences t = s.occurrences t := by
  unfold myPthreadMutexUnlock
  split
  · rename_i hw
    have hset := occurrences_setMutex s hm ⟨0, []⟩ t
    simpa [hw] using hset
  · rename_i u rest hw
    have hset := occurrences_setMutex s hm ⟨0, rest⟩ t
    rw [occurrences_pushRun]
    simp only [hw, List.count_cons, List.count_nil] at hset ⊢
    omega

/-- A join that finds the thread finished changes nothing; one that blocks moves the caller. -/
theorem occurrences_myPthreadJoin {s s' : OS} {t : Tid} {valuePtr : Bool} (ht : t < s.created)
    (hrun : (s.thread t).finished = false → s.run ≠ [])
    (hs : myPthreadJoin t valuePtr s = some s') (u : Tid) :
    s'.occurrences u = s.occurrences u := by
  unfold myPthreadJoin at hs
  split_ifs at hs with hfin
  · obtain ⟨_, _, rfl⟩ := Option.map_eq_some_iff.mp hs
    rfl
  · obtain ⟨s₁, hpush, hs⟩ := Option.bind_eq_some_iff.mp hs
    obtain ⟨joiners, hj, rfl⟩ := Option.map_eq_some_iff.mp hpush
    have hfin : (s.thread t).finished = false := by simpa using hfin
    split_ifs at hs with hnil
    · exact absurd hnil (hrun hfin)
    refine occurrences_block (s := s) hs (fun u => ?_) rfl u
    have hset := occurrences_setThread s ht
      { s.thread t with waitJoin := some (Queue.pushOrdered s.prio joiners s.running) } u
    simp only [joinOccurrences, hfin, hj, Option.getD_some, Queue.count_pushOrdered,
      List.count_cons, Bool.false_eq_true, if_false] at hset
    simp only [OS.modifyThread, hfin, List.count_cons, List.count_nil]
    omega

/-! ### The invariant along a run -/

theorem Conserved.running_lt {s : OS} (h : Conserved s) :
    s.running < s.created ∧ (s.thread s.running).finished = false := by
  by_contra hn
  have h0 := h s.running
  rw [if_neg hn] at h0
  simp [OS.occurrences] at h0

theorem conserved_initOS (now : UInt64) : Conserved (initOS now) := by
  intro t
  by_cases ht : t = 0
  · subst ht
    simp [OS.occurrences, initOS, joinOccurrences, newSthread]
  · simp [OS.occurrences, initOS, joinOccurrences, newSthread, ht, Ne.symm ht]

/-- A step that changes no count, creates no thread and finishes none keeps the invariant. -/
theorem Conserved.of_eq {s s' : OS} (h : Conserved s)
    (hocc : ∀ t, s'.occurrences t = s.occurrences t) (hc : s'.created = s.created)
    (hf : ∀ t, (s'.thread t).finished = (s.thread t).finished) : Conserved s' := by
  intro t
  rw [hocc, h t, hc, hf]

/-- What a change of one record keeps is the same for all threads. -/
theorem eq_modifyThread {β : Type*} (g : Sthread → β) (s : OS) (u : Tid) {f : Sthread → Sthread}
    (hf : ∀ r, g (f r) = g r) (t : Tid) : g ((s.modifyThread u f).thread t) = g (s.thread t) := by
  by_cases ht : t = u
  · subst ht
    rw [OS.thread_modifyThread_self, hf]
  · rw [OS.thread_modifyThread_of_ne s u f ht]

theorem finished_modifyThread (s : OS) (u : Tid) {f : Sthread → Sthread}
    (hf : ∀ r, (f r).finished = r.finished) (t : Tid) :
    ((s.modifyThread u f).thread t).finished = (s.thread t).finished :=
  eq_modifyThread Sthread.finished s u hf t

theorem thread_rotate (s : OS) : (rotate s).thread = s.thread := by
  unfold rotate
  split <;> rfl

theorem thread_maintenance (s : OS) : (maintenance s).thread = s.thread := by
  simp only [maintenance]
  split_ifs <;> rfl

/-- `scheduler` changes nothing but priorities in the records. -/
theorem eq_scheduler {β : Type*} (g : Sthread → β) (hg : ∀ r p, g { r with priority := p } = g r)
    (s : OS) (t : Tid) : g ((scheduler s).thread t) = g (s.thread t) := by
  have hage : g ((agePriority (maintenance s)).thread t) = g ((maintenance s).thread t) :=
    eq_modifyThread g _ _ (fun r => hg r (r.priority + 1)) t
  rw [scheduler, thread_rotate, hage, thread_maintenance]

theorem eq_yieldPriority {β : Type*} (g : Sthread → β)
    (hg : ∀ r p, g { r with priority := p } = g r) (s : OS) (t : Tid) :
    g ((yieldPriority s).thread t) = g (s.thread t) := by
  unfold yieldPriority
  split_ifs
  · exact eq_modifyThread g s _ (fun r => hg r (r.priority - 1)) t
  · rfl

theorem finished_scheduler (s : OS) (t : Tid) :
    ((scheduler s).thread t).finished = (s.thread t).finished :=
  eq_scheduler Sthread.finished (fun _ _ => rfl) s t

theorem created_scheduler (s : OS) : (scheduler s).created = s.created := by
  simp only [scheduler, rotate, agePriority, maintenance, OS.modifyThread, OS.setThread]
  split <;> split_ifs <;> rfl

theorem Conserved.scheduler {s : OS} (h : Conserved s) : Conserved (scheduler s) :=
  h.of_eq (occurrences_scheduler h.running_lt.1) (created_scheduler s) (finished_scheduler s)

theorem Conserved.yieldPriority {s : OS} (h : Conserved s) : Conserved (yieldPriority s) := by
  refine h.of_eq (occurrences_yieldPriority h.running_lt.1) ?_ fun t => ?_
  · unfold OSDesign.yieldPriority
    split_ifs <;> rfl
  · exact eq_yieldPriority Sthread.finished (fun _ _ => rfl) s t

theorem Conserved.myPthreadCreate {s : OS} (h : Conserved s) (now : UInt64) :
    Conserved (myPthreadCreate now s) := by
  intro t
  rw [occurrences_myPthreadCreate, h t]
  by_cases ht : t = s.created
  · subst ht
    simp [OSDesign.myPthreadCreate, createNewThread, OS.pushRun, OS.setRun, newSthread]
  · have hiff : t < s.created + 1 ↔ t < s.created := by
      rw [Nat.lt_succ_iff, le_iff_lt_or_eq, or_iff_left ht]
    simp [OSDesign.myPthreadCreate, createNewThread, OS.pushRun, OS.setRun, hiff,
      Function.update_of_ne ht, Ne.symm ht]

theorem Conserved.myPthreadMutexInit {s : OS} (h : Conserved s) :
    Conserved (myPthreadMutexInit s) :=
  h.of_eq (occurrences_myPthreadMutexInit s) rfl fun _ => rfl

theorem finished_lockSection {s s' : OS} {m : Mid} (hs : lockSection m s = some s') :
    s'.created = s.created ∧ s'.thread = s.thread := by
  unfold lockSection at hs
  split_ifs at hs
  · rw [lockBlock] at hs
    obtain ⟨hc, ht⟩ := created_thread_switchNext hs
    exact ⟨hc, ht⟩
  · cases hs
    exact ⟨rfl, rfl⟩

theorem Conserved.lockSection {s s' : OS} {m : Mid} (h : Conserved s) (hm : m < s.mutexes)
    (hs : lockSection m s = some s') : Conserved s' := by
  obtain ⟨hc, ht⟩ := finished_lockSection hs
  exact h.of_eq (occurrences_lockSection hm hs) hc fun t => by rw [ht]

theorem Conserved.testAndSet {s : OS} (h : Conserved s) (m : Mid) :
    Conserved (testAndSet m s).2 :=
  h.of_eq (occurrences_setState s m 1) rfl fun _ => rfl

theorem Conserved.myPthreadMutexLockRound {s s' : OS} {m : Mid} (h : Conserved s)
    (hm : m < s.mutexes) (hs : myPthreadMutexLockRound m s = some s') : Conserved s' := by
  simp only [OSDesign.myPthreadMutexLockRound] at hs
  split_ifs at hs
  · exact (h.testAndSet m).lockSection hm hs
  · cases hs
    exact h.testAndSet m

theorem Conserved.myPthreadMutexUnlock {s : OS} {m : Mid} (h : Conserved s)
    (hm : m < s.mutexes) : Conserved (myPthreadMutexUnlock m s) := by
  refine h.of_eq (occurrences_myPthreadMutexUnlock hm) ?_ fun t => ?_
  · unfold OSDesign.myPthreadMutexUnlock
    split <;> rfl
  · unfold OSDesign.myPthreadMutexUnlock
    split <;> rfl

/-- A join creates and finishes no thread. -/
theorem finished_myPthreadJoin {s s' : OS} {t : Tid} {valuePtr : Bool}
    (hs : myPthreadJoin t valuePtr s = some s') :
    s'.created = s.created ∧ ∀ u, (s'.thread u).finished = (s.thread u).finished := by
  unfold myPthreadJoin at hs
  split_ifs at hs
  · obtain ⟨_, _, rfl⟩ := Option.map_eq_some_iff.mp hs
    exact ⟨rfl, fun _ => rfl⟩
  · obtain ⟨s₁, hpush, hs⟩ := Option.bind_eq_some_iff.mp hs
    obtain ⟨joiners, -, rfl⟩ := Option.map_eq_some_iff.mp hpush
    have hf (u : Tid) : ((s.modifyThread t fun r => { r with
        waitJoin := some (Queue.pushOrdered s.prio joiners s.running) }).thread u).finished =
        (s.thread u).finished := by
      refine finished_modifyThread s t ?_ u
      exact fun _ => rfl
    split_ifs at hs
    · obtain ⟨_, _, rfl⟩ := Option.map_eq_some_iff.mp hs
      exact ⟨rfl, hf⟩
    · have hsw := created_thread_switchNext hs
      exact ⟨hsw.1, fun u => by rw [hsw.2]; exact hf u⟩

theorem Conserved.myPthreadJoin {s s' : OS} {t : Tid} {valuePtr : Bool} (h : Conserved s)
    (ht : t < s.created) (hrun : (s.thread t).finished = false → s.run ≠ [])
    (hs : myPthreadJoin t valuePtr s = some s') : Conserved s' := by
  obtain ⟨hc, hf⟩ := finished_myPthreadJoin hs
  exact h.of_eq (occurrences_myPthreadJoin ht hrun hs) hc hf

theorem run_drainJoiners_ne_nil {s s' : OS} (h : drainJoiners s = some s')
    (hrun : (s.thread s.running).waitJoin.getD [] ≠ [] ∨ s.run ≠ []) : s'.run ≠ [] := by
  obtain ⟨joiners, hj, rfl⟩ := Option.map_eq_some_iff.mp h
  rw [hj, Option.getD_some] at hrun
  intro hnil
  have hperm := Queue.foldl_pushOrdered_perm s.prio joiners s.run
  rw [show joiners.foldl (Queue.pushOrdered s.prio) s.run = [] from hnil] at hperm
  have happ := List.append_eq_nil_iff.mp hperm.symm.eq_nil
  exact hrun.elim (fun h => h happ.1) fun h => h happ.2

theorem Conserved.threadExit {s s' : OS} {res : Option ℕ} (h : Conserved s)
    (hrun : (s.thread s.running).waitJoin.getD [] ≠ [] ∨ s.run ≠ [])
    (hs : threadExit res s = some s') : Conserved s' := by
  obtain ⟨s₁, hdrain, hs⟩ := Option.bind_eq_some_iff.mp hs
  obtain ⟨hr, hf⟩ := h.running_lt
  have hne : s₁.run ≠ [] :=
    run_drainJoiners_ne_nil hdrain (by simpa [markFinished] using hrun)
  rw [if_neg hne] at hs
  have hs₁ : s₁.running = s.running ∧ s₁.created = s.created ∧
      ∀ t, (s₁.thread t).finished = (s.thread t).finished ∨ t = s.running := by
    obtain ⟨joiners, -, rfl⟩ := Option.map_eq_some_iff.mp hdrain
    refine ⟨rfl, rfl, fun t => ?_⟩
    by_cases ht : t = s.running
    · exact Or.inr ht
    · left
      simp [markFinished, OS.modifyThread, OS.setThread, OS.setRun, Function.update_of_ne ht]
  have hs₁f : (s₁.thread s.running).finished = true := by
    obtain ⟨joiners, -, rfl⟩ := Option.map_eq_some_iff.mp hdrain
    simp [markFinished, OS.modifyThread, OS.setThread, OS.setRun]
  intro t
  have hocc : s₁.occurrences t = s.occurrences t :=
    occurrences_finish hr (fun hfin => absurd (hf.symm.trans hfin) Bool.false_ne_true) hdrain t
  have hsw := occurrences_switchNext hs t
  have hs' := created_thread_switchNext hs
  rw [hocc, hs₁.1, h t] at hsw
  rw [hs'.1, hs'.2, hs₁.2.1]
  by_cases ht : t = s.running
  · subst ht
    simp only [hr, hf, hs₁f, and_self, if_true, List.count_singleton_self] at hsw ⊢
    simpa using hsw
  · rw [(hs₁.2.2 t).resolve_right ht]
    simpa [Ne.symm ht] using hsw.symm

/-- Every allowed call keeps the invariant. -/
theorem Conserved.callStep {s s' : OS} {c : Call} (h : Conserved s) (hc : CallAllowed s c)
    (hs : callStep s c = some s') : Conserved s' := by
  cases c with
  | create now =>
    cases hs
    exact h.myPthreadCreate now
  | tick =>
    cases hs
    exact h.scheduler
  | yield =>
    cases hs
    exact h.yieldPriority.scheduler
  | join t valuePtr => exact h.myPthreadJoin hc.2.1 hc.2.2 hs
  | mutexInit =>
    cases hs
    exact h.myPthreadMutexInit
  | lock m => exact h.myPthreadMutexLockRound hc.1 hs
  | unlock m =>
    cases hs
    exact h.myPthreadMutexUnlock hc
  | exit res => exact h.threadExit hc.2 hs

/-- The main thread has been handed out and is not finished. -/
def MainLives (s : OS) : Prop := 0 < s.created ∧ (s.thread 0).finished = false

theorem MainLives.of_eq {s s' : OS} (h : MainLives s) (hc : s'.created = s.created)
    (hf : (s'.thread 0).finished = (s.thread 0).finished) : MainLives s' :=
  ⟨hc ▸ h.1, hf.trans h.2⟩

theorem MainLives.threadExit {s s' : OS} {res : Option ℕ} (h : MainLives s)
    (hr : 0 < s.running) (hs : threadExit res s = some s') : MainLives s' := by
  obtain ⟨s₁, hdrain, hs⟩ := Option.bind_eq_some_iff.mp hs
  obtain ⟨joiners, -, rfl⟩ := Option.map_eq_some_iff.mp hdrain
  have h₁ : MainLives (((markFinished res s).modifyThread s.running
      fun r => { r with waitJoin := some [] }).setRun
        (joiners.foldl (Queue.pushOrdered (markFinished res s).prio) s.run)) := by
    refine h.of_eq rfl ?_
    simp [markFinished, OS.modifyThread, OS.setThread, OS.setRun, Function.update_of_ne hr.ne]
  split_ifs at hs
  · cases hs
    exact h₁
  · have hsw := created_thread_switchNext hs
    exact h₁.of_eq hsw.1 (by rw [hsw.2]; rfl)

theorem MainLives.callStep {s s' : OS} {c : Call} (h : MainLives s) (hc : CallAllowed s c)
    (hs : callStep s c = some s') : MainLives s' := by
  cases c with
  | create now =>
    cases hs
    refine ⟨Nat.succ_pos _, ?_⟩
    simpa [myPthreadCreate, createNewThread, Function.update_of_ne h.1.ne] using h.2
  | tick =>
    cases hs
    exact h.of_eq (created_scheduler s) (finished_scheduler s 0)
  | yield =>
    cases hs
    refine h.of_eq ((created_scheduler _).trans ?_) ((finished_scheduler _ 0).trans ?_)
    · unfold yieldPriority
      split_ifs <;> rfl
    · unfold yieldPriority
      split_ifs
      · refine finished_modifyThread s _ ?_ 0
        exact fun _ => rfl
      · rfl
  | join t valuePtr =>
    obtain ⟨hcr, hf⟩ := finished_myPthreadJoin hs
    exact h.of_eq hcr (hf 0)
  | mutexInit =>
    cases hs
    exact h
  | lock m =>
    simp only [OSDesign.callStep, myPthreadMutexLockRound, lockSection, lockBlock] at hs
    split_ifs at hs
    · have hsw := created_thread_switchNext hs
      exact h.of_eq hsw.1 (by rw [hsw.2]; rfl)
    all_goals
      cases hs
      exact h
  | unlock m =>
    cases hs
    unfold myPthreadMutexUnlock
    split <;> exact h
  | exit res => exact h.threadExit hc.1 hs

/-- **No thread is lost or duplicated.** After every run of library calls from `initOS`, whatever
their order, every created unfinished thread and the main thread are in exactly one place, and a
finished thread is in none. -/
theorem conserved_of_run (now : UInt64) (calls : List Call) (s : OS)
    (hok : RunOk callStep CallAllowed (initOS now) calls)
    (hrun : run callStep (initOS now) calls = some s) :
    (∀ t < s.created, s.occurrences t = if (s.thread t).finished then 0 else 1) ∧
      s.occurrences 0 = 1 := by
  have h := run_invariant (fun _ _ _ hi hok hs => Conserved.callStep hi hok hs)
    (conserved_initOS now) hok hrun
  have hmain := run_invariant (fun _ _ _ hi hok hs => MainLives.callStep hi hok hs)
    (show MainLives (initOS now) from ⟨Nat.one_pos, rfl⟩) hok hrun
  refine ⟨fun t ht => ?_, ?_⟩
  · rw [h t]
    cases (s.thread t).finished <;> simp [ht]
  · exact (h 0).trans (if_pos hmain)

/-- The main thread creates a thread and joins it; the thread exits and main runs again. -/
theorem conserved_of_run_join :
    ∃ s, run callStep (initOS 0) [.create 0, .join 1 false, .exit none] = some s ∧
      s.occurrences 0 = 1 ∧ s.occurrences 1 = 0 := by
  have h := conserved_of_run 0 [.create 0, .join 1 false, .exit none] _ (by decide) rfl
  exact ⟨_, rfl, h.2, h.1 1 (by decide)⟩

end OSDesign
