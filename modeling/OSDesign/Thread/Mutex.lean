import Mathlib.Tactic
import Mathlib.Data.List.Perm.Basic
import OSDesign.Lib.Transition
import OSDesign.Thread.Scheduler

/-!
# The mutex protocol with indivisible sections

Here `testAndSet` and each section of `my_pthread_mutex_lock` and `my_pthread_mutex_unlock` that
runs with `SIGPROF` masked are single steps, and the running thread may be preempted between any
two steps: by the timer (`tick`, the `scheduler` of the source), or to any other runnable thread
with the run queue in any order (`preempt`), so that every order of the steps is covered.

`unlock` moves one waiter to the run queue but frees the mutex for anybody. A waiter can therefore
find the mutex taken again, and queue behind the other waiters. What keeps the waiters from being
stranded is that the thread that `unlock` has woken, or the one that took the mutex in its place,
is still on its way: this is the field `awake` of `MutexInv`.

## Main definitions

* `Phase`, `LockState`, `LockEvent`, `lockStep`.
* `MutexInv`: the invariant relating the phases, the state word and the wait list.

## Main results

* `mutexInv_of_run`, `no_stranded_waiter`.
-/

namespace OSDesign

open Transition

/-- Where a thread stands with respect to one mutex. A thread that has blocked resumes at the head
of the loop, so a waiting thread is in the phase `trying`. -/
inductive Phase where
  /-- Neither in `my_pthread_mutex_lock` nor holding the mutex. -/
  | outside
  /-- At the head of the loop, before `testAndSet`. -/
  | trying
  /-- `testAndSet` returned 1; the masked section comes next. -/
  | failed
  /-- `my_pthread_mutex_lock` has returned and `my_pthread_mutex_unlock` has not been called. -/
  | holding
deriving DecidableEq

/-- The library together with the phase of every thread. -/
structure LockState where
  os : OS
  phase : Tid → Phase

/-- The steps of the threads that use the mutex. -/
inductive LockEvent where
  | tick
  | preempt (next : Tid) (rest : List Tid)
  | call
  | testAndSet
  | maskedSection
  | unlock
deriving DecidableEq

/-- The phase of the running thread is `p`, and becomes `q` in the library `os`. -/
def LockState.advance (s : LockState) (p q : Phase) (os : OS) : Option LockState :=
  if s.phase s.os.running = p then some ⟨os, Function.update s.phase s.os.running q⟩ else none

/-- One step. A masked section that has to block with an empty run queue dereferences `NULL`. -/
def lockStep (m : Mid) (s : LockState) : LockEvent → Option LockState
  | .tick => some ⟨scheduler s.os, s.phase⟩
  | .preempt next rest =>
    if (next :: rest).Perm (s.os.running :: s.os.run) then
      some ⟨{ s.os with running := next, run := rest }, s.phase⟩
    else none
  | .call => s.advance .outside .trying s.os
  | .testAndSet =>
    s.advance .trying (if (testAndSet m s.os).1 = 1 then .failed else .holding)
      (testAndSet m s.os).2
  | .maskedSection => (lockSection m s.os).bind (s.advance .failed .trying)
  | .unlock => s.advance .holding .outside (myPthreadMutexUnlock m s.os)

/-- A thread inside `my_pthread_mutex_lock`, not in the wait list and able to run, whose next
steps bring it to `testAndSet`: it stands before it, or its masked section will find the mutex
free. -/
def WillRetry (m : Mid) (s : LockState) (t : Tid) : Prop :=
  t ∉ (s.os.mutex m).wait ∧ t ∈ s.os.running :: s.os.run ∧
    (s.phase t = .trying ∨ s.phase t = .failed ∧ (s.os.mutex m).state = 0)

/-- The invariant of the protocol of the mutex `m`. -/
structure MutexInv (m : Mid) (s : LockState) : Prop where
  /-- The threads that can run and those that wait are distinct. -/
  nodup : (s.os.running :: s.os.run ++ (s.os.mutex m).wait).Nodup
  /-- A thread that uses the mutex can run or waits for it. -/
  placed : ∀ t, s.phase t ≠ .outside → t ∈ s.os.running :: s.os.run ++ (s.os.mutex m).wait
  /-- A waiting thread resumes at the head of the loop. -/
  waiting : ∀ t ∈ (s.os.mutex m).wait, s.phase t = .trying
  state_le : (s.os.mutex m).state ≤ 1
  held : (s.os.mutex m).state = 1 ↔ ∃ t, s.phase t = .holding
  one : ∀ t u, s.phase t = .holding → s.phase u = .holding → t = u
  awake : (s.os.mutex m).wait ≠ [] → (∃ t, s.phase t = .holding) ∨ ∃ t, WillRetry m s t

/-! ### Moving threads between the running one and the run queue -/

theorem perm_rotate (s : OS) :
    ((rotate s).running :: (rotate s).run).Perm (s.running :: s.run) := by
  unfold rotate
  split
  · exact List.Perm.refl _
  · rename_i next rest hrun
    rw [hrun]
    exact ((Queue.pushOrdered_perm s.prio rest s.running).cons next).trans (List.Perm.swap ..)

/-- The scheduler only permutes the running thread and the run queue. -/
theorem perm_scheduler (s : OS) :
    ((scheduler s).running :: (scheduler s).run).Perm (s.running :: s.run) := by
  refine (perm_rotate _).trans ?_
  simp only [agePriority, maintenance, OS.running_modifyThread, OS.run_modifyThread]
  split_ifs
  · exact (Queue.orderByOldest_perm s.age s.run).cons _
  · exact List.Perm.refl _

/-- The invariant depends on the running thread and the run queue only up to their order. -/
theorem MutexInv.of_perm {m : Mid} {s : LockState} {os : OS} (h : MutexInv m s)
    (hp : (os.running :: os.run).Perm (s.os.running :: s.os.run)) (hm : os.mutex = s.os.mutex) :
    MutexInv m ⟨os, s.phase⟩ where
  nodup := by
    rw [hm]
    exact (hp.append_right _).nodup_iff.mpr h.nodup
  placed t ht := by
    rw [hm]
    exact (hp.append_right _).mem_iff.mpr (h.placed t ht)
  waiting := by simpa only [hm] using h.waiting
  state_le := by simpa only [hm] using h.state_le
  held := by simpa only [hm] using h.held
  one := h.one
  awake hw := by
    rcases h.awake (by simpa only [hm] using hw) with hh | ⟨t, hn, hr, hph⟩
    · exact Or.inl hh
    · refine Or.inr ⟨t, ?_, hp.mem_iff.mpr hr, ?_⟩
      · simpa only [hm] using hn
      · simpa only [hm] using hph

/-! ### The steps of the running thread -/

section Steps

variable {m : Mid} {s : LockState}

theorem MutexInv.ne_running (h : MutexInv m s) {t : Tid} (ht : t ∈ (s.os.mutex m).wait) :
    t ≠ s.os.running :=
  fun he => (List.disjoint_of_nodup_append h.nodup) (he ▸ List.mem_cons_self) ht

/-- A phase change of the running thread that neither takes nor gives up the mutex. A thread that
was about to retry must still be so, unless the mutex is held. -/
theorem MutexInv.setPhase (h : MutexInv m s) {q : Phase}
    (hp : s.phase s.os.running ≠ .holding) (hq : q ≠ .holding)
    (hretry : q = .trying ∨ (s.os.mutex m).state = 1) :
    MutexInv m ⟨s.os, Function.update s.phase s.os.running q⟩ := by
  have hhold (t : Tid) : Function.update s.phase s.os.running q t = .holding ↔
      s.phase t = .holding := by
    by_cases ht : t = s.os.running
    · subst ht
      simp [hp, hq]
    · rw [Function.update_of_ne ht]
  constructor <;> dsimp only
  · exact h.nodup
  · intro t ht
    by_cases hr : t = s.os.running
    · simp [hr]
    · rw [Function.update_of_ne hr] at ht
      exact h.placed t ht
  · intro t ht
    rw [Function.update_of_ne (h.ne_running ht)]
    exact h.waiting t ht
  · exact h.state_le
  · simpa only [hhold] using h.held
  · simpa only [hhold] using h.one
  · intro hw
    simp only [hhold]
    rcases hretry with rfl | hstate
    · rcases h.awake hw with hh | ⟨t, hn, hr, hph⟩
      · exact Or.inl hh
      · refine Or.inr ⟨t, hn, hr, ?_⟩
        by_cases ht : t = s.os.running
        · exact Or.inl (by simp [ht])
        · simpa only [Function.update_of_ne ht] using hph
    · exact Or.inl (h.held.mp hstate)

/-- `testAndSet` finds the mutex free: the running thread takes it. -/
theorem MutexInv.acquire (h : MutexInv m s) (hstate : (s.os.mutex m).state ≠ 1) :
    MutexInv m ⟨(testAndSet m s.os).2, Function.update s.phase s.os.running .holding⟩ := by
  have hfree (t : Tid) : s.phase t ≠ .holding := fun ht => hstate (h.held.mpr ⟨t, ht⟩)
  have hhold (t : Tid) : Function.update s.phase s.os.running .holding t = .holding ↔
      t = s.os.running := by
    by_cases ht : t = s.os.running
    · simp [ht]
    · simp [ht, hfree t]
  constructor <;> simp only [testAndSet, OS.mutex_setMutex_self, OS.running_setMutex,
    OS.run_setMutex, hhold]
  · exact h.nodup
  · intro t ht
    by_cases hr : t = s.os.running
    · simp [hr]
    · rw [Function.update_of_ne hr] at ht
      exact h.placed t ht
  · intro t ht
    rw [Function.update_of_ne (h.ne_running ht)]
    exact h.waiting t ht
  · exact le_rfl
  · exact ⟨fun _ => ⟨_, rfl⟩, fun _ => trivial⟩
  · exact fun t u ht hu => ht.trans hu.symm
  · exact fun _ => Or.inl ⟨_, rfl⟩

/-- The masked section finds the mutex held: the running thread joins the wait list. -/
theorem MutexInv.block (h : MutexInv m s) {os : OS} (hp : s.phase s.os.running = .trying)
    (hstate : (s.os.mutex m).state = 1) (hb : lockBlock m s.os = some os) :
    MutexInv m ⟨os, s.phase⟩ := by
  obtain ⟨next, rest, hrun⟩ : ∃ next rest, s.os.run = next :: rest := by
    cases hrun : s.os.run with
    | nil => simp [lockBlock, switchNext, hrun] at hb
    | cons next rest => exact ⟨next, rest, rfl⟩
  simp only [lockBlock, switchNext, OS.run_setMutex, hrun, Option.some.injEq] at hb
  subst hb
  have hperm : (next :: rest ++ Queue.push (s.os.mutex m).wait s.os.running).Perm
      (s.os.running :: s.os.run ++ (s.os.mutex m).wait) := by
    rw [hrun]
    exact ((Queue.push_perm _ _).append_left (next :: rest)).trans List.perm_middle
  constructor <;> simp only [OS.mutex_setMutex_self]
  · exact hperm.nodup_iff.mpr h.nodup
  · exact fun t ht => hperm.mem_iff.mpr (h.placed t ht)
  · intro t ht
    rcases List.mem_cons.mp ((Queue.push_perm _ _).mem_iff.mp ht) with rfl | ht
    · exact hp
    · exact h.waiting t ht
  · exact h.state_le
  · exact h.held
  · exact h.one
  · exact fun _ => Or.inl (h.held.mp hstate)

/-- `my_pthread_mutex_unlock`: the thread that leaves the wait list is the one that will retry. -/
theorem MutexInv.release (h : MutexInv m s) (hp : s.phase s.os.running = .holding) :
    MutexInv m ⟨myPthreadMutexUnlock m s.os, Function.update s.phase s.os.running .outside⟩ := by
  have hnone (t : Tid) : Function.update s.phase s.os.running .outside t ≠ .holding := by
    by_cases ht : t = s.os.running
    · simp [ht]
    · rw [Function.update_of_ne ht]
      exact fun hh => ht (h.one t s.os.running hh hp)
  have hplaced (t : Tid) (ht : Function.update s.phase s.os.running .outside t ≠ .outside) :
      t ∈ s.os.running :: s.os.run ++ (s.os.mutex m).wait := by
    by_cases hr : t = s.os.running
    · simp [hr] at ht
    · rw [Function.update_of_ne hr] at ht
      exact h.placed t ht
  have hwaiting (t : Tid) (ht : t ∈ (s.os.mutex m).wait) :
      Function.update s.phase s.os.running .outside t = .trying := by
    rw [Function.update_of_ne (h.ne_running ht)]
    exact h.waiting t ht
  have hheld : (0 = 1) ↔ ∃ t, Function.update s.phase s.os.running .outside t = .holding :=
    ⟨fun h01 => absurd h01 (by decide), fun ⟨t, ht⟩ => absurd ht (hnone t)⟩
  cases hwait : (s.os.mutex m).wait with
  | nil =>
    have hnodup := h.nodup
    rw [hwait] at hnodup hplaced
    constructor <;> simp only [myPthreadMutexUnlock, hwait, OS.mutex_setMutex_self,
      OS.running_setMutex, OS.run_setMutex]
    · exact hnodup
    · exact hplaced
    · exact fun t ht => absurd ht List.not_mem_nil
    · exact Nat.zero_le 1
    · exact hheld
    · exact fun t u ht => absurd ht (hnone t)
    · exact fun hw => absurd rfl hw
  | cons u rest =>
    have hnodup := h.nodup
    rw [hwait] at hnodup hplaced hwaiting
    have hpush := Queue.pushOrdered_perm (s.os.setMutex m ⟨0, rest⟩).prio s.os.run u
    have hperm : (s.os.running :: (Queue.pushOrdered (s.os.setMutex m ⟨0, rest⟩).prio s.os.run u) ++
        rest).Perm (s.os.running :: s.os.run ++ u :: rest) := by
      have hmid : (u :: (s.os.run ++ rest)).Perm (s.os.run ++ u :: rest) := List.perm_middle.symm
      exact ((hpush.cons _).append_right rest).trans (hmid.cons _)
    have hmem : u ∈ s.os.running ::
        Queue.pushOrdered (s.os.setMutex m ⟨0, rest⟩).prio s.os.run u :=
      List.mem_cons_of_mem _ (hpush.mem_iff.mpr List.mem_cons_self)
    have hnd := hperm.nodup_iff.mpr hnodup
    constructor <;> simp only [myPthreadMutexUnlock, hwait, OS.pushRun, OS.setRun,
      OS.mutex_setMutex_self, OS.running_setMutex, OS.run_setMutex]
    · exact hnd
    · exact fun t ht => hperm.mem_iff.mpr (hplaced t ht)
    · exact fun t ht => hwaiting t (List.mem_cons_of_mem _ ht)
    · exact Nat.zero_le 1
    · exact hheld
    · exact fun t u ht => absurd ht (hnone t)
    · refine fun _ => Or.inr ⟨u, ?_⟩
      simp only [WillRetry, OS.mutex_setMutex_self]
      exact ⟨(List.disjoint_of_nodup_append hnd) hmem, hmem,
        Or.inl (hwaiting u List.mem_cons_self)⟩

end Steps

/-! ### Runs -/

/-- What a step of the running thread does when it is possible. -/
theorem advance_eq_some {s s' : LockState} {p q : Phase} {os : OS}
    (h : s.advance p q os = some s') :
    s.phase s.os.running = p ∧ s' = ⟨os, Function.update s.phase s.os.running q⟩ := by
  unfold LockState.advance at h
  split_ifs at h with hp
  exact ⟨hp, (Option.some.inj h).symm⟩

/-- Every step keeps the invariant. -/
theorem mutexInv_lockStep {m : Mid} {s s' : LockState} {e : LockEvent} (h : MutexInv m s)
    (hstep : lockStep m s e = some s') : MutexInv m s' := by
  cases e with
  | tick =>
    obtain rfl := Option.some.inj hstep
    exact h.of_perm (perm_scheduler s.os) (mutex_scheduler s.os)
  | preempt next rest =>
    simp only [lockStep] at hstep
    split_ifs at hstep with hperm
    obtain rfl := Option.some.inj hstep
    exact h.of_perm hperm rfl
  | call =>
    obtain ⟨hp, rfl⟩ := advance_eq_some hstep
    exact h.setPhase (by simp [hp]) (by decide) (Or.inl rfl)
  | testAndSet =>
    obtain ⟨hp, rfl⟩ := advance_eq_some hstep
    by_cases hstate : (s.os.mutex m).state = 1
    · have hsame : (testAndSet m s.os).2 = s.os := by
        have hlock : (⟨1, (s.os.mutex m).wait⟩ : Lock) = s.os.mutex m := by rw [← hstate]
        simp only [testAndSet, OS.setMutex, hlock, Function.update_eq_self]
      rw [hsame, if_pos (show (testAndSet m s.os).1 = 1 from hstate)]
      exact h.setPhase (by simp [hp]) (by decide) (Or.inr hstate)
    · rw [if_neg (show (testAndSet m s.os).1 ≠ 1 from hstate)]
      exact h.acquire hstate
  | maskedSection =>
    obtain ⟨os, hos, hadv⟩ := Option.bind_eq_some_iff.mp hstep
    obtain ⟨hp, rfl⟩ := advance_eq_some hadv
    have htry := h.setPhase (q := .trying) (by simp [hp]) (by decide) (Or.inl rfl)
    unfold lockSection at hos
    split_ifs at hos with hstate
    · exact htry.block (Function.update_self ..) hstate hos
    · obtain rfl := Option.some.inj hos
      exact htry
  | unlock =>
    obtain ⟨hp, rfl⟩ := advance_eq_some hstep
    exact h.release hp

/-- The start: a library in which the mutex `m` has just been initialised and nobody uses it. -/
def lockStart (os : OS) : LockState := ⟨os, fun _ => .outside⟩

theorem mutexInv_lockStart {m : Mid} {os : OS} (hnodup : (os.running :: os.run).Nodup)
    (hm : os.mutex m = ⟨0, []⟩) : MutexInv m (lockStart os) := by
  constructor <;> simp [lockStart, hm, List.nodup_cons.mp hnodup]

/-- The invariant holds in every state of a run. -/
theorem mutexInv_of_run {m : Mid} {os : OS} (hnodup : (os.running :: os.run).Nodup)
    (hm : os.mutex m = ⟨0, []⟩) {es : List LockEvent} {s : LockState}
    (hrun : run (lockStep m) (lockStart os) es = some s) : MutexInv m s :=
  run_invariant_of_step (fun _ _ _ h hstep => mutexInv_lockStep h hstep)
    (mutexInv_lockStart hnodup hm) hrun

/-- No waiter is stranded. In every reachable state the state word is 1 exactly when some thread
holds the mutex, at most one thread holds it, and a non-empty wait list comes with a holder or
with a thread inside `my_pthread_mutex_lock`, not in the wait list, that will retry. -/
theorem no_stranded_waiter (m : Mid) (os : OS) (hnodup : (os.running :: os.run).Nodup)
    (hm : os.mutex m = ⟨0, []⟩) (es : List LockEvent) (s : LockState)
    (hrun : run (lockStep m) (lockStart os) es = some s) :
    ((s.os.mutex m).state = 1 ↔ ∃ t, s.phase t = .holding) ∧
      (∀ t u, s.phase t = .holding → s.phase u = .holding → t = u) ∧
      ((s.os.mutex m).wait ≠ [] →
        (∃ t, s.phase t = .holding) ∨ ∃ t, WillRetry m s t) :=
  have h := mutexInv_of_run hnodup hm hrun
  ⟨h.held, h.one, h.awake⟩

/-- Main takes the mutex, two other threads block on it, and main gives it up: one of them is
left in the wait list, and a thread that is not in it will retry. -/
theorem no_stranded_waiter_two_waiters :
    ∃ s, run (lockStep 0) (lockStart (myPthreadCreate 0 (myPthreadCreate 0 (initOS 0))))
        [.call, .testAndSet, .preempt 1 [2, 0], .call, .testAndSet, .maskedSection, .call,
          .testAndSet, .maskedSection, .unlock] = some s ∧
      (s.os.mutex 0).wait = [2] ∧ ∃ t, WillRetry 0 s t := by
  have hend : (run (lockStep 0) (lockStart (myPthreadCreate 0 (myPthreadCreate 0 (initOS 0))))
        [.call, .testAndSet, .preempt 1 [2, 0], .call, .testAndSet, .maskedSection, .call,
          .testAndSet, .maskedSection, .unlock]).map (fun s => s.os.mutex 0) = some ⟨0, [2]⟩ := by
    decide
  obtain ⟨s, hs, hm⟩ := Option.map_eq_some_iff.mp hend
  obtain ⟨hheld, -, hawake⟩ := no_stranded_waiter 0 _ (by decide) rfl _ s hs
  simp only [hm] at hheld hawake
  refine ⟨s, hs, by rw [hm], ?_⟩
  exact (hawake (by decide)).resolve_left fun hh => absurd (hheld.mpr hh) (by decide)

end OSDesign
