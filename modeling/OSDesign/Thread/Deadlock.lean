import OSDesign.Thread.Conservation

/-!
# A lock that nobody can give

`my_pthread_mutex_lock` pops the next thread from the run queue without looking whether there is
one. With an empty queue `pop` returns `NULL` and the library dereferences it. No thread is lost
(`OSDesign.Thread.Conservation`), so the queue is empty exactly when all other threads wait in
lists: the fault is the deadlock of the program, and nothing else.

## Main definitions

* `OS.Blocked`.

## Main results

* `lock_faults_iff`.
-/

namespace OSDesign

open Transition

variable {s : OS} {t : Tid} {m : Mid}

/-- The thread waits for another one to finish, or for a mutex. -/
def OS.Blocked (s : OS) (t : Tid) : Prop :=
  (∃ u < s.created, (s.thread u).finished = false ∧ t ∈ s.joiners u) ∨
    ∃ m < s.mutexes, t ∈ (s.mutex m).wait

/-- The places of a thread that is not running and not in the run queue. -/
theorem OS.blocked_iff (s : OS) (t : Tid) :
    s.Blocked t ↔ (s.running :: s.run).count t < s.occurrences t := by
  have hjoin : (∃ u < s.created, (s.thread u).finished = false ∧ t ∈ s.joiners u) ↔
      0 < ∑ u ∈ Finset.range s.created, joinOccurrences (s.thread u) t := by
    rw [Finset.sum_pos_iff]
    refine exists_congr fun u => ?_
    rw [Finset.mem_range]
    refine and_congr_right fun _ => ?_
    rw [joinOccurrences]
    cases (s.thread u).finished
    · simp [OS.joiners, List.count_pos_iff]
    · simp
  have hwait : (∃ m < s.mutexes, t ∈ (s.mutex m).wait) ↔
      0 < ∑ m ∈ Finset.range s.mutexes, (s.mutex m).wait.count t := by
    rw [Finset.sum_pos_iff]
    refine exists_congr fun m => ?_
    rw [Finset.mem_range, List.count_pos_iff]
  rw [OS.Blocked, hjoin, hwait, OS.occurrences]
  omega

/-- A round of the lock loop faults when the mutex is taken and no thread is in the run queue. -/
theorem myPthreadMutexLockRound_eq_none :
    myPthreadMutexLockRound m s = none ↔ (s.mutex m).state = 1 ∧ s.run = [] := by
  simp only [myPthreadMutexLockRound, testAndSet, lockSection, lockBlock, OS.mutex_setMutex_self,
    if_true]
  by_cases hstate : (s.mutex m).state = 1
  · rw [if_pos hstate, and_iff_right hstate]
    cases hrun : s.run with
    | nil =>
      rw [switchNext]
      simp [hrun]
    | cons u l =>
      rw [switchNext]
      simp [hrun]
  · rw [if_neg hstate]
    simp [hstate]

/-- In a conserved state the run queue is empty if all other threads are finished or blocked. -/
theorem Conserved.run_eq_nil_iff (h : Conserved s) :
    s.run = [] ↔ ∀ t < s.created, t ≠ s.running → (s.thread t).finished = true ∨ s.Blocked t := by
  constructor
  · intro hnil t ht hne
    by_cases hfin : (s.thread t).finished = true
    · exact Or.inl hfin
    · refine Or.inr ((s.blocked_iff t).mpr ?_)
      rw [h t, if_pos ⟨ht, Bool.eq_false_iff.mpr hfin⟩, hnil, List.count_cons_of_ne (Ne.symm hne),
        List.count_nil]
      exact Nat.one_pos
  · intro hall
    refine List.eq_nil_iff_forall_not_mem.mpr fun t ht => ?_
    -- a thread of the queue is in no other place
    have hpos : 0 < s.run.count t := List.count_pos_iff.mpr ht
    have hcount : (s.running :: s.run).count t ≤ s.occurrences t := by
      rw [OS.occurrences]
      omega
    have hle : s.run.count t ≤ (s.running :: s.run).count t := List.count_le_count_cons
    have hocc := h t
    split_ifs at hocc with hlive
    · have hne : t ≠ s.running := fun he => by
        subst he
        rw [List.count_cons_self] at hcount
        omega
      rcases hall t hlive.1 hne with hfin | hblocked
      · rw [hlive.2] at hfin
        cases hfin
      · have := (s.blocked_iff t).mp hblocked
        omega
    · omega

/-- **A lock faults exactly in a deadlock.** After any calls that follow the rules of the library,
an attempt to lock a mutex dereferences `NULL` if and only if the mutex is taken and every other
thread is finished, waits for a thread that is not finished, or waits for a mutex. -/
theorem lock_faults_iff {now : UInt64} {calls : List Call}
    (hok : RunOk callStep CallAllowed (initOS now) calls)
    (hrun : run callStep (initOS now) calls = some s) (m : Mid) :
    callStep s (.lock m) = none ↔ (s.mutex m).state = 1 ∧
      ∀ t < s.created, t ≠ s.running → (s.thread t).finished = true ∨ s.Blocked t := by
  have hconserved : Conserved s := run_invariant (fun _ _ _ hi hok hs =>
    Conserved.callStep hi hok hs)
    (conserved_initOS now) hok hrun
  rw [← hconserved.run_eq_nil_iff]
  exact myPthreadMutexLockRound_eq_none

/-- `mainThread` locks a mutex and joins a thread, which tries to lock the mutex. -/
theorem lock_faults_iff_join :
    ∃ s, run callStep (initOS 7) [.create 7, .mutexInit, .lock 0, .join 1 false] = some s ∧
      s.running = 1 ∧ callStep s (.lock 0) = none ∧ s.Blocked 0 := by
  have hrun : run callStep (initOS 7) [.create 7, .mutexInit, .lock 0, .join 1 false] = some _ :=
    rfl
  have hiff := lock_faults_iff (by decide) hrun 0
  refine ⟨_, hrun, rfl, rfl, ?_⟩
  exact ((hiff.mp rfl).2 0 (by decide) (by decide)).resolve_left (by decide)

end OSDesign
