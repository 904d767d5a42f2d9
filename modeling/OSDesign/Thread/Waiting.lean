import OSDesign.Thread.Deadlock
import OSDesign.Thread.Fairness

/-!
# Waiting for a mutex

A thread that finds a mutex taken goes behind the tail of its `wait` list, and
`my_pthread_mutex_unlock` moves the head of the list to the run queue. The only other call that
touches the list is `my_pthread_mutex_destroy`, which moves all waiting threads to the run queue and
frees the mutex; it is not among the calls considered here, as a mutex with waiting threads is not
to be destroyed. So the waiting threads are woken in the order in which they came, one by each
unlock, and none of them runs before (`waiters_woken_in_order`).

To be woken is not to be given the mutex. The woken thread tries again when it is scheduled, and if
the mutex has been taken in between it goes behind the tail once more. A thread that unlocks, locks
and then yields, with nobody else in the run queue, keeps all the others waiting for ever: a *round*
of these three calls and of the attempt that the woken thread makes rotates the list of waiting
threads (`waiters_starve`).

## Main definitions

* `Hogged`, `lockRounds`.

## Main results

* `waiters_woken_in_order`, `waiters_starve`.
-/

namespace OSDesign

open Transition

variable {s s' : OS} {c : Call} {cs : List Call} {m : Mid} {w : Tid}

/-! ### The list of waiting threads -/

theorem mutex_switchNext (hs : switchNext s = some s') :
    s'.mutex = s.mutex ∧ s'.mutexes = s.mutexes := by
  rw [switchNext] at hs
  split at hs
  · cases hs
  · obtain rfl := Option.some.inj hs
    exact ⟨rfl, rfl⟩

theorem mutexes_scheduler (s : OS) : (scheduler s).mutexes = s.mutexes := by
  simp only [scheduler, rotate, agePriority, maintenance, OS.modifyThread, OS.setThread]
  split <;> split_ifs <;> rfl

theorem mutex_yieldPriority (s : OS) :
    (yieldPriority s).mutex = s.mutex ∧ (yieldPriority s).mutexes = s.mutexes := by
  rw [yieldPriority]
  split_ifs <;> exact ⟨rfl, rfl⟩

/-- A join and an exit touch no mutex. -/
theorem mutex_join {t : Tid} {valuePtr : Bool} (hs : myPthreadJoin t valuePtr s = some s') :
    s'.mutex = s.mutex ∧ s'.mutexes = s.mutexes := by
  rw [myPthreadJoin] at hs
  split_ifs at hs
  · obtain ⟨_, -, rfl⟩ := Option.map_eq_some_iff.mp hs
    exact ⟨rfl, rfl⟩
  · obtain ⟨s₁, hpush, hs⟩ := Option.bind_eq_some_iff.mp hs
    obtain ⟨joiners, -, rfl⟩ := Option.map_eq_some_iff.mp hpush
    split_ifs at hs
    · obtain ⟨_, -, rfl⟩ := Option.map_eq_some_iff.mp hs
      exact ⟨rfl, rfl⟩
    · have hmutex := mutex_switchNext hs
      exact hmutex

@[inherit_doc mutex_join]
theorem mutex_threadExit {res : Option ℕ} (hs : threadExit res s = some s') :
    s'.mutex = s.mutex ∧ s'.mutexes = s.mutexes := by
  obtain ⟨s₁, hdrain, hs⟩ := Option.bind_eq_some_iff.mp hs
  obtain ⟨joiners, -, rfl⟩ := Option.map_eq_some_iff.mp hdrain
  split_ifs at hs
  · obtain rfl := Option.some.inj hs
    exact ⟨rfl, rfl⟩
  · have hmutex := mutex_switchNext hs
    exact hmutex

/-- An attempt to lock the mutex `m'`. -/
theorem wait_lock {m' : Mid} (hs : myPthreadMutexLockRound m' s = some s') (m : Mid) :
    s'.mutexes = s.mutexes ∧ ∃ new, (s'.mutex m).wait = (s.mutex m).wait ++ new := by
  simp only [myPthreadMutexLockRound, testAndSet, lockSection, lockBlock, OS.mutex_setMutex_self,
    if_true] at hs
  by_cases hstate : (s.mutex m').state = 1
  · rw [if_pos hstate] at hs
    obtain ⟨hmutex, hmutexes⟩ := mutex_switchNext hs
    refine ⟨hmutexes, ?_⟩
    rw [hmutex]
    by_cases hm : m = m'
    · subst hm
      exact ⟨[s.running], by rw [OS.mutex_setMutex_self]; rfl⟩
    · refine ⟨[], ?_⟩
      rw [OS.mutex_setMutex_of_ne _ _ _ hm, OS.mutex_setMutex_of_ne _ _ _ hm, List.append_nil]
  · rw [if_neg hstate] at hs
    obtain rfl := Option.some.inj hs
    refine ⟨rfl, [], ?_⟩
    by_cases hm : m = m'
    · subst hm
      rw [OS.mutex_setMutex_self, List.append_nil]
    · rw [OS.mutex_setMutex_of_ne _ _ _ hm, List.append_nil]

/-- An unlock of the mutex `m'` takes its head away. -/
theorem wait_unlock (s : OS) (m m' : Mid) :
    (myPthreadMutexUnlock m' s).mutexes = s.mutexes ∧
      ((myPthreadMutexUnlock m' s).mutex m).wait =
        (s.mutex m).wait.drop (if m' = m then 1 else 0) := by
  rw [myPthreadMutexUnlock]
  by_cases hm : m' = m
  · subst hm
    rw [if_pos rfl]
    split
    · rename_i hnil
      rw [OS.mutex_setMutex_self, hnil]
      exact ⟨rfl, rfl⟩
    · rename_i t rest hwait
      rw [OS.mutex_pushRun, OS.mutex_setMutex_self, hwait]
      exact ⟨rfl, rfl⟩
  · rw [if_neg hm, List.drop_zero]
    split
    · rw [OS.mutex_setMutex_of_ne _ _ _ (Ne.symm hm)]
      exact ⟨rfl, rfl⟩
    · rw [OS.mutex_pushRun, OS.mutex_setMutex_of_ne _ _ _ (Ne.symm hm)]
      exact ⟨rfl, rfl⟩

/-- The number of threads that a call takes from the list of the mutex. -/
def Call.wakes (m : Mid) (c : Call) : ℕ := if c = .unlock m then 1 else 0

/-- **What a call does to the list of a mutex.** An unlock takes the head; new threads come to the
end. -/
theorem wait_callStep (hm : m < s.mutexes) (hs : callStep s c = some s') :
    s.mutexes ≤ s'.mutexes ∧
      ∃ new, (s'.mutex m).wait = (s.mutex m).wait.drop (c.wakes m) ++ new := by
  have hsame (hmutex : s'.mutex = s.mutex ∧ s'.mutexes = s.mutexes) : s.mutexes ≤ s'.mutexes ∧
      ∃ new, (s'.mutex m).wait = (s.mutex m).wait.drop 0 ++ new :=
    ⟨hmutex.2.ge, [], by rw [hmutex.1, List.drop_zero, List.append_nil]⟩
  cases c with
  | create now =>
    obtain rfl := Option.some.inj hs
    exact hsame ⟨rfl, rfl⟩
  | tick =>
    obtain rfl := Option.some.inj hs
    exact hsame ⟨mutex_scheduler s, mutexes_scheduler s⟩
  | yield =>
    obtain rfl := Option.some.inj hs
    obtain ⟨hmutex, hmutexes⟩ := mutex_yieldPriority s
    exact hsame ⟨(mutex_scheduler _).trans hmutex, (mutexes_scheduler _).trans hmutexes⟩
  | join t valuePtr => exact hsame (mutex_join hs)
  | mutexInit =>
    obtain rfl := Option.some.inj hs
    refine ⟨Nat.le_succ _, [], ?_⟩
    change (Function.update s.mutex s.mutexes _ m).wait = _
    rw [Function.update_of_ne hm.ne, List.append_nil]
    rfl
  | lock m' =>
    obtain ⟨hmutexes, hnew⟩ := wait_lock hs m
    exact ⟨hmutexes.ge, hnew⟩
  | unlock m' =>
    obtain rfl := Option.some.inj hs
    obtain ⟨hmutexes, hwait⟩ := wait_unlock s m m'
    refine ⟨hmutexes.ge, [], ?_⟩
    rw [hwait, List.append_nil, Call.wakes]
    simp only [Call.unlock.injEq]
  | exit res => exact hsame (mutex_threadExit hs)

/-- As long as the threads of the list are not all woken, the list is what is left of it, and those
that came since. -/
theorem wait_run (hm : m < s.mutexes) (hrun : run callStep s cs = some s')
    (hlen : cs.count (.unlock m) ≤ (s.mutex m).wait.length) :
    s.mutexes ≤ s'.mutexes ∧
      ∃ new, (s'.mutex m).wait = (s.mutex m).wait.drop (cs.count (.unlock m)) ++ new := by
  induction cs generalizing s with
  | nil =>
    obtain rfl := Option.some.inj hrun
    exact ⟨le_rfl, [], by rw [List.count_nil, List.drop_zero, List.append_nil]⟩
  | cons c cs ih =>
    obtain ⟨t, ht, hrun⟩ := Option.bind_eq_some_iff.mp hrun
    obtain ⟨hmutexes, new, hwait⟩ := wait_callStep hm ht
    have hcount : (c :: cs).count (.unlock m) = c.wakes m + cs.count (.unlock m) := by
      rw [List.count_cons, Call.wakes, Nat.add_comm]
      simp only [beq_iff_eq]
    rw [hcount] at hlen ⊢
    have hrest : cs.count (.unlock m) ≤ ((s.mutex m).wait.drop (c.wakes m)).length := by
      rw [List.length_drop]
      omega
    have hrest' : cs.count (.unlock m) ≤ (t.mutex m).wait.length := by
      rw [hwait, List.length_append]
      omega
    obtain ⟨hmutexes', new', hwait'⟩ := ih (hm.trans_le hmutexes) hrun hrest'
    refine ⟨hmutexes.trans hmutexes', new ++ new', ?_⟩
    rw [hwait', hwait, List.drop_append_of_le_length hrest, List.drop_drop, List.append_assoc]

/-- A thread in the list of a mutex is in no other place. -/
theorem Conserved.not_ready (h : Conserved s) (hm : m < s.mutexes) (hw : w ∈ (s.mutex m).wait) :
    w ≠ s.running ∧ w ∉ s.run := by
  have hblocked := (s.blocked_iff w).mp (Or.inr ⟨m, hm, hw⟩)
  have hocc := h w
  have hnone : (s.running :: s.run).count w = 0 := by
    split_ifs at hocc <;> omega
  have hmem := List.count_eq_zero.mp hnone
  exact ⟨fun heq => hmem (heq ▸ List.mem_cons_self), fun hrun => hmem (List.mem_cons_of_mem _ hrun)⟩

/-- **Waiting threads are woken in order.** Let a thread be at the place `i` of the list of a mutex,
after any calls that follow the rules of the library. Whatever calls follow, until the mutex has
been unlocked more than `i` times the thread moves up by one place with each unlock and neither runs
nor is in the run queue. The next unlock puts it in the run queue. -/
theorem waiters_woken_in_order {now : UInt64} {calls : List Call} {i : ℕ}
    (hok : RunOk callStep CallAllowed (initOS now) (calls ++ cs))
    (hcalls : run callStep (initOS now) calls = some s) (hcs : run callStep s cs = some s')
    (hm : m < s.mutexes) (hw : (s.mutex m).wait[i]? = some w) (hi : cs.count (.unlock m) ≤ i) :
    (s'.mutex m).wait[i - cs.count (.unlock m)]? = some w ∧ w ≠ s'.running ∧ w ∉ s'.run ∧
      (cs.count (.unlock m) = i → w ∈ (myPthreadMutexUnlock m s').run) := by
  have hlt := (List.getElem?_eq_some_iff.mp hw).1
  obtain ⟨hmutexes, new, hwait⟩ := wait_run hm hcs (by omega)
  have hplace : (s'.mutex m).wait[i - cs.count (.unlock m)]? = some w := by
    rw [hwait, List.getElem?_append_left (by rw [List.length_drop]; omega), List.getElem?_drop,
      Nat.add_sub_cancel' hi, hw]
  have hall : run callStep (initOS now) (calls ++ cs) = some s' := by
    rw [run_append, hcalls, Option.bind_some, hcs]
  have hconserved : Conserved s' := run_invariant
    (fun _ _ _ h hok hs => Conserved.callStep h hok hs) (conserved_initOS now) hok hall
  have hmem := List.mem_iff_getElem?.mpr ⟨_, hplace⟩
  obtain ⟨hrunning, hrun⟩ := hconserved.not_ready (hm.trans_le hmutexes) hmem
  refine ⟨hplace, hrunning, hrun, fun heq => ?_⟩
  rw [heq, Nat.sub_self] at hplace
  rw [myPthreadMutexUnlock]
  cases hlist : (s'.mutex m).wait with
  | nil =>
    rw [hlist] at hplace
    cases hplace
  | cons t rest =>
    rw [hlist] at hplace
    obtain rfl := Option.some.inj hplace
    exact (Queue.pushOrdered_perm _ _ _).mem_iff.mpr List.mem_cons_self

/-- The thread `t` runs and has the mutex `m`, for which the threads `ws` wait, and nobody is ready.
-/
structure Hogged (t : Tid) (m : Mid) (ws : List Tid) (s : OS) : Prop where
  running : s.running = t
  ready : s.run = []
  mutex : s.mutex m = ⟨1, ws⟩

/-- `mainThread` creates two threads and has a mutex when it yields; each of them tries to lock it.
-/
def twoWaiting : List Call :=
  [.create 7, .create 7, .mutexInit, .lock 0, .yield, .lock 0, .lock 0]

theorem exists_twoWaiting : ∃ s, run callStep (initOS 7) twoWaiting = some s ∧
    s.mutexes = 1 ∧ Hogged 0 0 [1, 2] s := by
  have hproj : (run callStep (initOS 7) twoWaiting).map
      (fun s => (s.mutexes, s.running, s.run, s.mutex 0)) = some (1, 0, [], ⟨1, [1, 2]⟩) := by
    decide
  obtain ⟨s, hs, hproj⟩ := Option.map_eq_some_iff.mp hproj
  simp only [Prod.mk.injEq] at hproj
  obtain ⟨hmutexes, hrunning, hready, hmutex⟩ := hproj
  exact ⟨s, hs, hmutexes, hrunning, hready, hmutex⟩

/-- The first unlock wakes the first of two threads; the theorem is about the second. -/
theorem waiters_woken_in_order_two :
    ∃ s s', run callStep (initOS 7) twoWaiting = some s ∧ (s.mutex 0).wait = [1, 2] ∧
      run callStep s [.unlock 0] = some s' ∧ (s'.mutex 0).wait[0]? = some 2 ∧ 2 ∉ s'.run ∧
      2 ∈ (myPthreadMutexUnlock 0 s').run := by
  have hok : RunOk callStep CallAllowed (initOS 7) (twoWaiting ++ [.unlock 0]) := by decide
  obtain ⟨s, hs, hmutexes, h⟩ := exists_twoWaiting
  have hwait : (s.mutex 0).wait = [1, 2] := by rw [h.mutex]
  obtain ⟨hplace, -, hready, hwoken⟩ := waiters_woken_in_order (m := 0) (i := 1) (w := 2) hok hs rfl
    (by rw [hmutexes]; decide) (by rw [hwait]; rfl) (by decide)
  exact ⟨s, _, hs, hwait, rfl, hplace, hready, hwoken rfl⟩

/-! ### Starvation -/

/-- The running thread unlocks the mutex and locks it again before a yield or a timer interrupt, and
the thread that was woken tries to lock it. -/
def lockRound (m : Mid) (c : Call) : List Call := [.unlock m, .lock m, c, .lock m]

/-- Rounds, one for each of the calls or interrupts. -/
def lockRounds (m : Mid) (cs : List Call) : List Call := cs.flatMap (lockRound m)

variable {t : Tid} {ws : List Tid}

/-- The running thread unlocks and locks the mutex: the first waiting thread is ready. -/
theorem Hogged.relock (h : Hogged t m (w :: ws) s) :
    ∃ s', run callStep s [.unlock m, .lock m] = some s' ∧ s'.running = t ∧ s'.run = [w] ∧
      s'.mutex m = ⟨1, ws⟩ := by
  have hunlock : myPthreadMutexUnlock m s = (s.setMutex m ⟨0, ws⟩).pushRun w := by
    rw [myPthreadMutexUnlock, h.mutex]
  have hlock : myPthreadMutexLockRound m ((s.setMutex m ⟨0, ws⟩).pushRun w) =
      some (((s.setMutex m ⟨0, ws⟩).pushRun w).setMutex m ⟨1, ws⟩) := by
    rw [myPthreadMutexLockRound, testAndSet, OS.mutex_pushRun, OS.mutex_setMutex_self]
    rfl
  refine ⟨((s.setMutex m ⟨0, ws⟩).pushRun w).setMutex m ⟨1, ws⟩, ?_, h.running, ?_,
    OS.mutex_setMutex_self ..⟩
  · rw [run_cons, callStep, hunlock, Option.bind_some, run_cons, callStep, hlock, Option.bind_some,
      run_nil]
  · rw [OS.run_setMutex, OS.pushRun, OS.setRun, OS.run_setMutex, h.ready]
    rfl

/-- The woken thread finds the mutex taken and goes behind the others. -/
theorem Hogged.of_retry (hrunning : s.running = w) (hrun : s.run = [t])
    (hmutex : s.mutex m = ⟨1, ws⟩) :
    ∃ s', callStep s (.lock m) = some s' ∧ Hogged t m (ws ++ [w]) s' := by
  have hlock : myPthreadMutexLockRound m s =
      switchNext ((s.setMutex m ⟨1, ws⟩).setMutex m ⟨1, ws ++ [w]⟩) := by
    rw [myPthreadMutexLockRound, testAndSet, hmutex, if_pos rfl, lockSection,
      OS.mutex_setMutex_self, if_pos rfl, lockBlock, OS.mutex_setMutex_self, OS.running_setMutex,
      hrunning]
    rfl
  have hswitch : switchNext ((s.setMutex m ⟨1, ws⟩).setMutex m ⟨1, ws ++ [w]⟩) =
      some { (s.setMutex m ⟨1, ws⟩).setMutex m ⟨1, ws ++ [w]⟩ with running := t, run := [] } := by
    rw [switchNext, OS.run_setMutex, OS.run_setMutex, hrun]
  exact ⟨_, hlock.trans hswitch, rfl, rfl, OS.mutex_setMutex_self ..⟩

theorem mutex_of_isScheduling (hc : c.IsScheduling) (hs : callStep s c = some s') :
    s'.mutex = s.mutex := by
  rcases hc with rfl | rfl
  · obtain rfl := Option.some.inj hs
    exact mutex_scheduler s
  · obtain rfl := Option.some.inj hs
    exact (mutex_scheduler _).trans (mutex_yieldPriority s).1

/-- One round. -/
theorem Hogged.round (h : Hogged t m (w :: ws) s) (hc : c.IsScheduling) :
    ∃ s', run callStep s (lockRound m c) = some s' ∧ Hogged t m (ws ++ [w]) s' := by
  obtain ⟨s₁, hrun₁, hrunning₁, hready₁, hmutex₁⟩ := h.relock
  obtain ⟨s₂, hstep, hrotate⟩ := rotate_callStep (by rw [hready₁]; exact one_le_two) hc
  rw [hrunning₁, hready₁] at hrotate
  obtain ⟨hrunning₂, hready₂⟩ := List.cons.inj hrotate
  have hmutex₂ : s₂.mutex m = ⟨1, ws⟩ := by rw [mutex_of_isScheduling hc hstep, hmutex₁]
  obtain ⟨s₃, hlock, h₃⟩ := Hogged.of_retry hrunning₂ hready₂ hmutex₂
  refine ⟨s₃, ?_, h₃⟩
  rw [show lockRound m c = [.unlock m, .lock m] ++ [c, .lock m] from rfl, run_append, hrun₁,
    Option.bind_some, run_cons, hstep, Option.bind_some, run_cons, hlock, Option.bind_some, run_nil]

/-- **Waiting threads can starve.** From any state in which the running thread has a mutex, other
threads wait for it and nobody is ready, and for every number of rounds: the thread has the mutex
again at the end of each, and the rounds have rotated the list of the waiting threads. Each of them
was scheduled in its turn and had to wait again. -/
theorem waiters_starve (h : Hogged t m ws s) (hne : ws ≠ []) (hcs : ∀ c ∈ cs, c.IsScheduling) :
    ∃ s', run callStep s (lockRounds m cs) = some s' ∧ Hogged t m (ws.rotate cs.length) s' := by
  induction cs generalizing s ws with
  | nil => exact ⟨s, rfl, by rwa [List.length_nil, List.rotate_zero]⟩
  | cons c cs ih =>
    obtain ⟨w, ws, rfl⟩ := List.exists_cons_of_ne_nil hne
    obtain ⟨s₁, hrun₁, h₁⟩ := h.round (hcs c List.mem_cons_self)
    obtain ⟨s', hrun', h'⟩ := ih h₁ (by simp) fun c' hc' => hcs c' (List.mem_cons_of_mem c hc')
    refine ⟨s', ?_, ?_⟩
    · rw [lockRounds, List.flatMap_cons, run_append, hrun₁, Option.bind_some]
      exact hrun'
    · rwa [List.length_cons, List.rotate_cons_succ]

/-- `mainThread` has the mutex, and the threads 1 and 2 wait, for a million rounds. -/
theorem waiters_starve_two :
    ∃ s s', run callStep (initOS 7) twoWaiting = some s ∧
      run callStep s (lockRounds 0 (List.replicate 1000000 .tick)) = some s' ∧
      Hogged 0 0 ([1, 2].rotate 1000000) s' := by
  obtain ⟨s, hs, -, h⟩ := exists_twoWaiting
  have hticks : ∀ c ∈ List.replicate 1000000 Call.tick, c.IsScheduling :=
    fun c hc => Or.inl (List.eq_of_mem_replicate hc)
  obtain ⟨s', hrun', h'⟩ := waiters_starve h (by decide) hticks
  rw [List.length_replicate] at h'
  exact ⟨s, s', hs, hrun', h'⟩

end OSDesign
