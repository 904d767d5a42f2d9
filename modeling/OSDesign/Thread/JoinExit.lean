import Mathlib.Tactic
import OSDesign.Lib.Transition
import OSDesign.Thread.Conservation

/-!
# Joining waits, exiting is final

A thread that joins another one waits in its `waitJoin` list until the other one calls `threadExit`,
and a thread that has called `threadExit` is in no place any more. Both depend on there being a
thread to run: with an empty run queue `my_pthread_join` returns at once, although it has put its
caller in the list, and `threadExit` returns to the thread that called it.

What a call does to the places and to the records is said once (`CallEffect`). From it follow the
invariant of the runs in which every join that has to wait can (`join_waits`), and the one of the
runs in which moreover every exit hands the processor on (`exit_final`).

## Main definitions

* `CallEffect`, `Drained`, `PlaceInv`.
* `JoinState`, `joinStep`: the library calls with the returns from joins that have waited.

## Main results

* `callEffect_of_callStep`.
* `join_waits`, `join_returns_early`.
* `exit_final`, `exited_thread_runs`.
-/

namespace OSDesign

open Transition

/-! ### What a call does -/

/-- The finished threads have no joiners left. -/
def Drained (s : OS) : Prop := ∀ t, (s.thread t).finished = true → s.joiners t = []

/-- The joined thread has been created, and the mutexes have been initialised. -/
def CallValid (s : OS) : Call → Prop
  | .join t _ => t < s.created
  | .lock m | .unlock m => m < s.mutexes
  | _ => True

instance (s : OS) (c : Call) : Decidable (CallValid s c) := by
  rcases c <;> dsimp only [CallValid] <;> infer_instance

/-- A thread that joins an unfinished one finds another thread to run. -/
def JoinSwitches (s : OS) : Call → Prop
  | .join t _ => (s.thread t).finished = false → s.run ≠ []
  | _ => True

instance (s : OS) (c : Call) : Decidable (JoinSwitches s c) := by
  rcases c <;> dsimp only [JoinSwitches] <;> infer_instance

/-- A thread that exits finds another thread to run: one that it wakes up, or one in the run queue.
-/
def ExitSwitches (s : OS) : Call → Prop
  | .exit _ => s.joiners s.running ≠ [] ∨ s.run ≠ []
  | _ => True

instance (s : OS) (c : Call) : Decidable (ExitSwitches s c) := by
  rcases c <;> dsimp only [ExitSwitches] <;> infer_instance

/-- The thread that a call creates. -/
def entering (s : OS) : Call → List Tid
  | .create _ => [s.created]
  | _ => []

/-- The thread that gives up the processor for good. -/
def leaving (s : OS) : Call → List Tid
  | .exit _ => if s.joiners s.running ≠ [] ∨ s.run ≠ [] then [s.running] else []
  | _ => []

/-- The call finishes `t`. -/
def Finishes (s : OS) (t : Tid) : Call → Prop
  | .exit _ => t = s.running
  | _ => False

/-- What a call does to the places and to the records of the threads. -/
structure CallEffect (c : Call) (s s' : OS) : Prop where
  occurrences : ∀ t, s'.occurrences t + (leaving s c).count t =
    s.occurrences t + (entering s c).count t
  created : s'.created = s.created + (entering s c).length
  finished : ∀ t < s.created, (s'.thread t).finished = true ↔
    (s.thread t).finished = true ∨ Finishes s t c
  joiners : ∀ t < s.created, (s'.thread t).finished = false → s.joiners t ⊆ s'.joiners t
  drained : Drained s → Drained s'

section Effects

variable {s s' : OS} {c : Call}

/-- The part of a record that the places depend on. -/
def Sthread.status (r : Sthread) : Bool × Option (List Tid) := (r.finished, r.waitJoin)

/-- A call that changes no count and no status. -/
theorem CallEffect.of_status (hocc : ∀ t, s'.occurrences t = s.occurrences t)
    (hc : s'.created = s.created) (hstatus : ∀ t, (s'.thread t).status = (s.thread t).status)
    (henter : entering s c = []) (hleave : leaving s c = []) (hfin : ∀ t, ¬ Finishes s t c) :
    CallEffect c s s' := by
  have hf (t : Tid) : (s'.thread t).finished = (s.thread t).finished :=
    congrArg Prod.fst (hstatus t)
  have hj (t : Tid) : s'.joiners t = s.joiners t :=
    congrArg (fun x : Bool × Option (List Tid) => x.2.getD []) (hstatus t)
  refine ⟨fun t => ?_, ?_, fun t _ => ?_, fun t _ _ => ?_, fun hd t ht => ?_⟩
  · rw [hocc, henter, hleave]
  · rw [hc, henter]
    rfl
  · rw [hf, or_iff_left (hfin t)]
  · rw [hj]
    exact List.Subset.refl _
  · rw [hj]
    exact hd t (hf t ▸ ht)

/-- The state in which `threadExit` looks whether there is a thread to run. -/
theorem drainJoiners_markFinished {res : Option ℕ} {s₁ : OS}
    (h : drainJoiners (markFinished res s) = some s₁) :
    s₁.running = s.running ∧ s₁.created = s.created ∧
      (s₁.run = [] ↔ s.joiners s.running = [] ∧ s.run = []) ∧
      (∀ t ≠ s.running, s₁.thread t = s.thread t) ∧
      (s₁.thread s.running).finished = true ∧ s₁.joiners s.running = [] := by
  obtain ⟨joiners, hj, rfl⟩ := Option.map_eq_some_iff.mp h
  have hjoin : (s.thread s.running).waitJoin = some joiners := by
    simpa [markFinished] using hj
  refine ⟨rfl, rfl, ?_, fun t ht => ?_, ?_, ?_⟩
  · have hperm := Queue.foldl_pushOrdered_perm (markFinished res s).prio joiners s.run
    rw [OS.joiners, hjoin, Option.getD_some, ← List.append_eq_nil_iff]
    constructor
    · intro hnil
      rw [show joiners.foldl (Queue.pushOrdered (markFinished res s).prio) s.run = [] from hnil]
        at hperm
      exact hperm.symm.eq_nil
    · intro hnil
      rw [hnil] at hperm
      exact hperm.eq_nil
  · simp [markFinished, OS.modifyThread, OS.setThread, OS.setRun, Function.update_of_ne ht]
  · simp [markFinished, OS.modifyThread, OS.setThread, OS.setRun]
  · simp [OS.joiners, markFinished, OS.modifyThread, OS.setThread, OS.setRun]

/-- What `threadExit` does. -/
theorem callEffect_exit {res : Option ℕ} (hr : s.running < s.created) (hd : Drained s)
    (hs : threadExit res s = some s') : CallEffect (.exit res) s s' := by
  obtain ⟨s₁, hdrain, hs⟩ := Option.bind_eq_some_iff.mp hs
  obtain ⟨hrunning, hcreated, hrun, hother, hfin, hjoin⟩ := drainJoiners_markFinished hdrain
  have hocc := occurrences_finish hr (hd s.running) hdrain
  -- afterwards, the running thread is kept or gives way to the next one
  have hlast : s'.created = s₁.created ∧ s'.thread = s₁.thread ∧
      ∀ t, s'.occurrences t + (leaving s (.exit res)).count t = s₁.occurrences t := by
    split_ifs at hs with hnil
    · cases hs
      refine ⟨rfl, rfl, fun t => ?_⟩
      obtain ⟨hj, hn⟩ := hrun.mp hnil
      rw [leaving, if_neg (by simp [hj, hn])]
      rfl
    · have hsw := created_thread_switchNext hs
      refine ⟨hsw.1, hsw.2, fun t => ?_⟩
      have hleave : s.joiners s.running ≠ [] ∨ s.run ≠ [] := by
        by_contra hnone
        rw [not_or, not_not, not_not] at hnone
        exact hnil (hrun.mpr hnone)
      rw [leaving, if_pos hleave, occurrences_switchNext hs t, hrunning]
  obtain ⟨hc, ht, hcount⟩ := hlast
  refine ⟨fun t => ?_, hc.trans hcreated, fun t _ => ?_, fun t _ hf => ?_, fun hd t hf => ?_⟩
  · rw [hcount, hocc]
    rfl
  · rw [ht]
    by_cases htr : t = s.running
    · subst htr
      exact ⟨fun _ => Or.inr rfl, fun _ => hfin⟩
    · rw [hother t htr]
      exact (or_iff_left htr).symm
  · rw [ht] at hf
    by_cases htr : t = s.running
    · subst htr
      rw [hfin] at hf
      cases hf
    · rw [OS.joiners, OS.joiners, ht, hother t htr]
      exact List.Subset.refl _
  · by_cases htr : t = s.running
    · subst htr
      rw [OS.joiners, ht]
      exact hjoin
    · rw [ht, hother t htr] at hf
      rw [OS.joiners, ht, hother t htr]
      exact hd t hf

/-- What `my_pthread_join` does, when the caller does not have to wait or finds a thread to run. -/
theorem callEffect_join {t : Tid} {valuePtr : Bool} (ht : t < s.created)
    (hrun : (s.thread t).finished = false → s.run ≠ [])
    (hs : myPthreadJoin t valuePtr s = some s') : CallEffect (.join t valuePtr) s s' := by
  have hocc := occurrences_myPthreadJoin ht hrun hs
  unfold myPthreadJoin at hs
  split_ifs at hs with hfin
  · obtain ⟨_, _, rfl⟩ := Option.map_eq_some_iff.mp hs
    exact .of_status hocc rfl (fun _ => rfl) rfl rfl fun _ => id
  · obtain ⟨s₁, hpush, hs⟩ := Option.bind_eq_some_iff.mp hs
    obtain ⟨joiners, hj, rfl⟩ := Option.map_eq_some_iff.mp hpush
    have hfin : (s.thread t).finished = false := by simpa using hfin
    split_ifs at hs with hnil
    · exact absurd hnil (hrun hfin)
    obtain ⟨hc, hthread⟩ := created_thread_switchNext hs
    have hother (u : Tid) (hu : u ≠ t) : s'.thread u = s.thread u := by
      rw [hthread]
      exact Function.update_of_ne hu ..
    have hself : s'.thread t = { s.thread t with
        waitJoin := some (Queue.pushOrdered s.prio joiners s.running) } := by
      rw [hthread]
      exact Function.update_self ..
    refine ⟨fun u => by rw [hocc]; rfl, hc, fun u _ => ?_, fun u _ _ => ?_, fun hd u hu => ?_⟩
    · by_cases hut : u = t
      · subst hut
        rw [hself]
        exact (or_iff_left id).symm
      · rw [hother u hut]
        exact (or_iff_left id).symm
    · by_cases hut : u = t
      · subst hut
        rw [OS.joiners, OS.joiners, hself, hj]
        intro w hw
        exact (Queue.pushOrdered_perm s.prio joiners s.running).mem_iff.mpr
          (List.mem_cons_of_mem _ hw)
      · rw [OS.joiners, OS.joiners, hother u hut]
        exact List.Subset.refl _
    · by_cases hut : u = t
      · subst hut
        rw [hself, hfin] at hu
        cases hu
      · rw [hother u hut] at hu
        rw [OS.joiners, hother u hut]
        exact hd u hu

/-- What each call does. -/
theorem callEffect_of_callStep (hr : s.running < s.created) (hd : Drained s) (hv : CallValid s c)
    (hj : JoinSwitches s c) (hs : callStep s c = some s') : CallEffect c s s' := by
  cases c with
  | create now =>
    cases hs
    have hother (t : Tid) (ht : t ≠ s.created) :
        (myPthreadCreate now s).thread t = s.thread t := Function.update_of_ne ht ..
    have hnew : (myPthreadCreate now s).thread s.created = newSthread s.nextId now :=
      Function.update_self ..
    refine ⟨fun t => ?_, rfl, fun t ht => ?_, fun t ht _ => ?_, fun hd t ht => ?_⟩
    · exact occurrences_myPthreadCreate now s t
    · rw [hother t ht.ne]
      exact (or_iff_left id).symm
    · rw [OS.joiners, OS.joiners, hother t ht.ne]
      exact List.Subset.refl _
    · by_cases htc : t = s.created
      · rw [htc, hnew] at ht
        cases ht
      · rw [OS.joiners, hother t htc]
        exact hd t (hother t htc ▸ ht)
  | tick =>
    cases hs
    exact .of_status (occurrences_scheduler hr) (created_scheduler s)
      (eq_scheduler Sthread.status (fun _ _ => rfl) s) rfl rfl fun _ => id
  | yield =>
    cases hs
    have hc : (yieldPriority s).created = s.created ∧ (yieldPriority s).running = s.running := by
      unfold yieldPriority
      split_ifs <;> exact ⟨rfl, rfl⟩
    refine .of_status (fun t => ?_) ((created_scheduler _).trans hc.1) (fun t => ?_) rfl rfl
      fun _ => id
    · rw [myPthreadYield, occurrences_scheduler (by rw [hc.1, hc.2]; exact hr),
        occurrences_yieldPriority hr]
    · rw [myPthreadYield, eq_scheduler Sthread.status fun _ _ => rfl,
        eq_yieldPriority Sthread.status fun _ _ => rfl]
  | join t valuePtr => exact callEffect_join hv hj hs
  | mutexInit =>
    cases hs
    exact .of_status (occurrences_myPthreadMutexInit s) rfl (fun _ => rfl) rfl rfl fun _ => id
  | lock m =>
    have hsame : s'.created = s.created ∧ s'.thread = s.thread := by
      simp only [callStep, myPthreadMutexLockRound] at hs
      split_ifs at hs
      · obtain ⟨hc, ht⟩ := finished_lockSection hs
        exact ⟨hc, ht⟩
      · cases hs
        exact ⟨rfl, rfl⟩
    exact .of_status (occurrences_myPthreadMutexLockRound hv hs) hsame.1
      (fun t => by rw [hsame.2]) rfl rfl fun _ => id
  | unlock m =>
    cases hs
    have hsame : (myPthreadMutexUnlock m s).created = s.created ∧
        (myPthreadMutexUnlock m s).thread = s.thread := by
      unfold myPthreadMutexUnlock
      split <;> exact ⟨rfl, rfl⟩
    exact .of_status (occurrences_myPthreadMutexUnlock hv) hsame.1 (fun t => by rw [hsame.2]) rfl
      rfl fun _ => id
  | exit res => exact callEffect_exit hr hd hs

end Effects

/-! ### Places -/

/-- Every thread is in one place at most, one that has not been created is in none, and finished
threads have no joiners. -/
structure PlaceInv (s : OS) : Prop where
  unique : ∀ t, s.occurrences t ≤ 1
  fresh : ∀ t, s.created ≤ t → s.occurrences t = 0
  drained : Drained s

section Places

variable {s s' : OS} {c : Call} {t u : Tid}

theorem placeInv_initOS (now : UInt64) : PlaceInv (initOS now) where
  unique t := by
    rw [conserved_initOS now t]
    split_ifs <;> omega
  fresh t ht := by
    rw [conserved_initOS now t, if_neg fun h => absurd h.1 (Nat.not_lt.mpr ht)]
  drained t ht := by
    have hf : ((initOS now).thread t).finished = false := by
      by_cases h0 : t = 0
      · subst h0
        rfl
      · rw [thread_initOS_of_ne now h0]
        rfl
    rw [hf] at ht
    cases ht

theorem occurrences_running (s : OS) : 1 ≤ s.occurrences s.running := by
  rw [OS.occurrences, List.count_cons_self]
  omega

theorem PlaceInv.running_lt (h : PlaceInv s) : s.running < s.created := by
  by_contra hlt
  have h₀ := h.fresh s.running (Nat.not_lt.mp hlt)
  have h₁ := occurrences_running s
  omega

theorem PlaceInv.step (h : PlaceInv s) (he : CallEffect c s s') : PlaceInv s' := by
  have hcount (t : Tid) : (entering s c).count t ≤ 1 ∧
      ((entering s c).count t ≠ 0 → t = s.created ∧ (entering s c).length = 1) := by
    cases c with
    | create now =>
      by_cases ht : t = s.created
      · subst ht
        simp [entering]
      · simp [entering, Ne.symm ht]
    | _ => simp [entering]
  refine ⟨fun t => ?_, fun t ht => ?_, he.drained h.drained⟩
  · have hocc := he.occurrences t
    have hold := h.unique t
    obtain ⟨h₁, h₂⟩ := hcount t
    by_cases h₀ : (entering s c).count t = 0
    · omega
    · have := h.fresh t (h₂ h₀).1.ge
      omega
  · have hocc := he.occurrences t
    rw [he.created] at ht
    have hold := h.fresh t (by omega)
    have h₀ : (entering s c).count t = 0 := by
      by_contra hne
      obtain ⟨htc, hlen⟩ := (hcount t).2 hne
      rw [htc, hlen] at ht
      omega
    omega

/-- A thread that waits for an unfinished one is in no other place. -/
theorem PlaceInv.ne_running_of_mem_joiners (h : PlaceInv s) (hu : u < s.created)
    (hfin : (s.thread u).finished = false) (ht : t ∈ s.joiners u) : s.running ≠ t := by
  rintro rfl
  have hjoin : 1 ≤ joinOccurrences (s.thread u) s.running := by
    rw [joinOccurrences, hfin]
    exact List.one_le_count_iff.mpr ht
  have hsum : joinOccurrences (s.thread u) s.running ≤
      ∑ x ∈ Finset.range s.created, joinOccurrences (s.thread x) s.running :=
    Finset.single_le_sum (f := fun x => joinOccurrences (s.thread x) s.running)
      (fun _ _ => Nat.zero_le _) (Finset.mem_range.mpr hu)
  have hrun : 1 ≤ (s.running :: s.run).count s.running := by
    rw [List.count_cons_self]
    omega
  have hone := h.unique s.running
  rw [OS.occurrences] at hone
  omega

/-- What it means to be in no place. -/
theorem not_mem_of_occurrences_eq_zero (h : s.occurrences t = 0) (hd : Drained s) :
    s.running ≠ t ∧ t ∉ s.run ∧ (∀ u < s.created, t ∉ s.joiners u) ∧
      ∀ m < s.mutexes, t ∉ (s.mutex m).wait := by
  rw [OS.occurrences, Nat.add_eq_zero_iff, Nat.add_eq_zero_iff, List.count_eq_zero,
    Finset.sum_eq_zero_iff, Finset.sum_eq_zero_iff] at h
  obtain ⟨⟨hrun, hjoin⟩, hmutex⟩ := h
  refine ⟨fun he => hrun (he ▸ List.mem_cons_self), fun hm => hrun (List.mem_cons_of_mem _ hm),
    fun u hu hm => ?_, fun m hm => ?_⟩
  · cases hf : (s.thread u).finished with
    | true =>
      rw [hd u hf] at hm
      cases hm
    | false =>
      have hzero := hjoin u (Finset.mem_range.mpr hu)
      rw [joinOccurrences, hf] at hzero
      exact List.count_eq_zero.mp hzero hm
  · exact List.count_eq_zero.mp (hmutex m (Finset.mem_range.mpr hm))

end Places

/-! ### Exits -/

/-- The calls of a run in which no thread goes on when it should wait or be gone. -/
def ExitAllowed (s : OS) (c : Call) : Prop :=
  CallValid s c ∧ JoinSwitches s c ∧ ExitSwitches s c

instance (s : OS) (c : Call) : Decidable (ExitAllowed s c) := inferInstanceAs (Decidable (_ ∧ _))

theorem placeInv_callStep {s s' : OS} {c : Call} (h : PlaceInv s) (hok : ExitAllowed s c)
    (hs : callStep s c = some s') : PlaceInv s' :=
  h.step (callEffect_of_callStep h.running_lt h.drained hok.1 hok.2.1 hs)

/-- The thread `t` is in no place, and none will be made for it. -/
structure Gone (t : Tid) (s : OS) : Prop where
  places : PlaceInv s
  created : t < s.created
  absent : s.occurrences t = 0

theorem Gone.callStep {s s' : OS} {c : Call} {t : Tid} (h : Gone t s) (hok : ExitAllowed s c)
    (hs : callStep s c = some s') : Gone t s' := by
  have he := callEffect_of_callStep h.places.running_lt h.places.drained hok.1 hok.2.1 hs
  refine ⟨h.places.step he, ?_, ?_⟩
  · rw [he.created]
    exact h.created.trans_le (Nat.le_add_right _ _)
  · have hocc := he.occurrences t
    have hnew : (entering s c).count t = 0 := by
      cases c with
      | create now => simp [entering, h.created.ne']
      | _ => rfl
    rw [h.absent, hnew] at hocc
    omega

/-- An exit that hands the processor on. -/
theorem gone_threadExit {s s' : OS} {res : Option ℕ} (h : PlaceInv s)
    (hok : ExitAllowed s (.exit res)) (hs : callStep s (.exit res) = some s') :
    Gone s.running s' := by
  have he := callEffect_of_callStep h.running_lt h.drained hok.1 hok.2.1 hs
  refine ⟨h.step he, ?_, ?_⟩
  · rw [he.created]
    exact h.running_lt.trans_le (Nat.le_add_right _ _)
  · have hocc := he.occurrences s.running
    have hnext : s.joiners s.running ≠ [] ∨ s.run ≠ [] := hok.2.2
    have hleave : (leaving s (.exit res)).count s.running = 1 := by
      rw [leaving, if_pos hnext, List.count_singleton_self]
    have hone := h.unique s.running
    rw [hleave, show entering s (.exit res) = [] from rfl, List.count_nil] at hocc
    omega

/-- **Exit is final.** In every run in which no join returns early and every exit hands the
processor on, a thread that has called `my_pthread_exit` is never again the running thread and in
none of the queues. -/
theorem exit_final (now : UInt64) (calls later : List Call) (res : Option ℕ) (s s' : OS)
    (hok : RunOk callStep ExitAllowed (initOS now) (calls ++ .exit res :: later))
    (hrun : run callStep (initOS now) calls = some s)
    (hlater : run callStep s (.exit res :: later) = some s') :
    s'.running ≠ s.running ∧ s.running ∉ s'.run ∧
      (∀ u < s'.created, s.running ∉ s'.joiners u) ∧
      ∀ m < s'.mutexes, s.running ∉ (s'.mutex m).wait := by
  obtain ⟨hok₁, hok₂⟩ := (runOk_append callStep).mp hok
  obtain ⟨hexit, hrest⟩ := hok₂ s hrun
  have hinv : PlaceInv s := run_invariant (fun _ _ _ hi hok hs => placeInv_callStep hi hok hs)
    (placeInv_initOS now) hok₁ hrun
  obtain ⟨s₁, hs₁, hlater⟩ := Option.bind_eq_some_iff.mp hlater
  have hgone : Gone s.running s' := run_invariant (fun _ _ _ hi hok hs => hi.callStep hok hs)
    (gone_threadExit hinv hexit hs₁) (hrest s₁ hs₁) hlater
  exact not_mem_of_occurrences_eq_zero hgone.absent hgone.places.drained

/-- Thread 1 exits and wakes up the main thread, which then creates and joins thread 2. -/
theorem exit_final_two_threads :
    ∃ s s', run callStep (initOS 0) [.create 0, .join 1 false] = some s ∧
      run callStep s [.exit none, .create 0, .tick, .yield, .join 2 false] = some s' ∧
      s.running = 1 ∧ s'.running ≠ 1 ∧ 1 ∉ s'.run := by
  have h := exit_final 0 [.create 0, .join 1 false] [.create 0, .tick, .yield, .join 2 false] none
    _ _ (by decide) rfl rfl
  exact ⟨_, _, rfl, rfl, rfl, h.1, h.2.1⟩

/-- Thread 1 holds a mutex for which the main thread waits, and exits: it goes on running, and
creates another thread. -/
theorem exited_thread_runs :
    ∃ s s', run callStep (initOS 0) [.create 0, .mutexInit, .yield, .lock 0, .yield, .lock 0] =
        some s ∧ run callStep s [.exit none, .create 0] = some s' ∧
      s.running = 1 ∧ (s'.thread 1).finished = true ∧ s'.running = 1 :=
  ⟨_, _, rfl, rfl, rfl, rfl, rfl⟩

/-! ### Joins -/

/-- The library, what the threads that wait in a join are going to do when they run again, and the
thread whose join has returned in the last step. -/
structure JoinState where
  os : OS
  waiting : Tid → Option (Tid × Bool)
  returned : Option Tid

/-- A call of the running thread or an interrupt, or the return of the running thread from a join in
which it has waited. -/
inductive JoinEvent where
  | call (c : Call)
  | joinReturn
deriving DecidableEq

/-- The join has to wait and can. -/
def joinBlocks (s : OS) (t : Tid) : Bool := !(s.thread t).finished && !s.run.isEmpty

/-- The state after the call `c` has led from `s.os` to `os`. -/
def JoinState.after (s : JoinState) (os : OS) : Call → JoinState
  | .join t valuePtr =>
    if joinBlocks s.os t then
      ⟨os, Function.update s.waiting s.os.running (some (t, valuePtr)), none⟩
    else ⟨os, s.waiting, some t⟩
  | _ => ⟨os, s.waiting, none⟩

/-- One step. A thread that has waited in a join first returns from it; the timer may come before.
-/
def joinStep (s : JoinState) : JoinEvent → Option JoinState
  | .call c =>
    if c ≠ .tick ∧ (s.waiting s.os.running).isSome ∨ ¬ CallValid s.os c then none
    else (callStep s.os c).map fun os => s.after os c
  | .joinReturn =>
    (s.waiting s.os.running).bind fun (t, valuePtr) =>
      (joinValue s.os t valuePtr).map fun _ =>
        ⟨s.os, Function.update s.waiting s.os.running none, some t⟩

/-- The library after `initOS`. -/
def JoinState.init (now : UInt64) : JoinState := ⟨initOS now, fun _ => none, none⟩

/-- A thread that joins an unfinished one finds another thread to run. -/
def JoinAllowed (s : JoinState) : JoinEvent → Prop
  | .call c => JoinSwitches s.os c
  | .joinReturn => True

instance (s : JoinState) (e : JoinEvent) : Decidable (JoinAllowed s e) := by
  rcases e <;> dsimp only [JoinAllowed] <;> infer_instance

/-- A thread that is waiting for an unfinished one is among its joiners, and a join that has
returned was for a finished thread. -/
structure JoinInv (s : JoinState) : Prop where
  places : PlaceInv s.os
  waiting : ∀ u t valuePtr, s.waiting u = some (t, valuePtr) → t < s.os.created ∧
    ((s.os.thread t).finished = false → u ∈ s.os.joiners t)
  returned : ∀ t, s.returned = some t → (s.os.thread t).finished = true

theorem joinInv_init (now : UInt64) : JoinInv (JoinState.init now) :=
  ⟨placeInv_initOS now, nofun, nofun⟩

/-- The waiting threads of a state in which the call `c` has been made. -/
theorem JoinInv.waiting_after {s : JoinState} {os : OS} {c : Call} (h : JoinInv s)
    (he : CallEffect c s.os os) {u t : Tid} {valuePtr : Bool}
    (hu : s.waiting u = some (t, valuePtr)) :
    t < os.created ∧ ((os.thread t).finished = false → u ∈ os.joiners t) := by
  obtain ⟨ht, hmem⟩ := h.waiting u t valuePtr hu
  refine ⟨?_, fun hfin => ?_⟩
  · rw [he.created]
    exact ht.trans_le (Nat.le_add_right _ _)
  · have hbefore : (s.os.thread t).finished = false := by
      by_contra hne
      have := (he.finished t ht).mpr (Or.inl (by simpa using hne))
      rw [hfin] at this
      cases this
    exact he.joiners t ht hfin (hmem hbefore)

/-- A join that blocks puts its caller among the joiners. -/
theorem mem_joiners_myPthreadJoin {s s' : OS} {t : Tid} {valuePtr : Bool}
    (hs : myPthreadJoin t valuePtr s = some s') (hblock : joinBlocks s t = true) :
    s.running ∈ s'.joiners t := by
  rw [joinBlocks, Bool.and_eq_true, Bool.not_eq_true', Bool.not_eq_true'] at hblock
  rw [myPthreadJoin, if_neg (by simp [hblock.1])] at hs
  obtain ⟨s₁, hpush, hs⟩ := Option.bind_eq_some_iff.mp hs
  obtain ⟨joiners, hj, rfl⟩ := Option.map_eq_some_iff.mp hpush
  have hne : s.run ≠ [] := fun hnil => by simp [hnil] at hblock
  rw [if_neg (show (s.modifyThread t _).run ≠ [] from hne)] at hs
  have hthread := (created_thread_switchNext hs).2
  rw [OS.joiners, hthread, OS.thread_modifyThread_self]
  exact (Queue.pushOrdered_perm s.prio joiners s.running).mem_iff.mpr List.mem_cons_self

theorem JoinInv.call {s s' : JoinState} {c : Call} (h : JoinInv s) (hok : JoinSwitches s.os c)
    (hs : joinStep s (.call c) = some s') : JoinInv s' := by
  rw [joinStep] at hs
  split_ifs at hs with hguard
  obtain ⟨os, hcall, rfl⟩ := Option.map_eq_some_iff.mp hs
  rw [not_or, not_not] at hguard
  have he := callEffect_of_callStep h.places.running_lt h.places.drained hguard.2 hok hcall
  have hplaces := h.places.step he
  have hplain : JoinInv ⟨os, s.waiting, none⟩ :=
    ⟨hplaces, fun u t v hu => h.waiting_after he hu, nofun⟩
  cases c with
  | join t valuePtr =>
    rw [JoinState.after]
    have ht : t < s.os.created := hguard.2
    split_ifs with hblock
    · refine ⟨hplaces, fun u t' v hu => ?_, nofun⟩
      dsimp only at hu ⊢
      by_cases hur : u = s.os.running
      · subst hur
        rw [Function.update_self] at hu
        obtain ⟨rfl, rfl⟩ := Prod.mk.inj (Option.some.inj hu)
        exact ⟨he.created ▸ ht.trans_le (Nat.le_add_right _ _),
          fun _ => mem_joiners_myPthreadJoin hcall hblock⟩
      · rw [Function.update_of_ne hur] at hu
        exact h.waiting_after he hu
    · refine ⟨hplaces, hplain.waiting, fun t' ht' => ?_⟩
      obtain rfl := Option.some.inj ht'
      refine (he.finished t ht).mpr (Or.inl ?_)
      by_contra hfin
      have hfin : (s.os.thread t).finished = false := by simpa using hfin
      have hne : s.os.run ≠ [] := hok hfin
      exact hblock (by simp [joinBlocks, hfin, hne])
  | _ => exact hplain

/-- A thread that returns from a join in which it has waited: the thread that it joined is finished,
for otherwise it would be among its joiners and run at the same time. -/
theorem JoinInv.joinReturn {s s' : JoinState} (h : JoinInv s)
    (hs : joinStep s .joinReturn = some s') : JoinInv s' := by
  obtain ⟨⟨t, valuePtr⟩, hw, hs⟩ := Option.bind_eq_some_iff.mp hs
  obtain ⟨_, _, rfl⟩ := Option.map_eq_some_iff.mp hs
  refine ⟨h.places, fun u t' v hu => ?_, fun t' ht' => ?_⟩
  · dsimp only at hu ⊢
    by_cases hur : u = s.os.running
    · subst hur
      rw [Function.update_self] at hu
      cases hu
    · rw [Function.update_of_ne hur] at hu
      exact h.waiting u t' v hu
  · obtain rfl := Option.some.inj ht'
    obtain ⟨ht, hmem⟩ := h.waiting _ _ _ hw
    by_contra hfin
    have hfin : (s.os.thread t).finished = false := by simpa using hfin
    exact h.places.ne_running_of_mem_joiners ht hfin (hmem hfin) rfl

theorem joinInv_joinStep {s s' : JoinState} {e : JoinEvent} (h : JoinInv s)
    (hok : JoinAllowed s e) (hs : joinStep s e = some s') : JoinInv s' := by
  cases e with
  | call c => exact h.call hok hs
  | joinReturn => exact h.joinReturn hs

/-- **Join waits.** In every run in which a thread that joins an unfinished one finds another thread
to run, the thread that was joined is finished whenever a join returns. -/
theorem join_waits (now : UInt64) (es : List JoinEvent) (s : JoinState)
    (hok : RunOk joinStep JoinAllowed (JoinState.init now) es)
    (hrun : run joinStep (JoinState.init now) es = some s) (t : Tid) (ht : s.returned = some t) :
    (s.os.thread t).finished = true :=
  (run_invariant (fun _ _ _ hi hok hs => joinInv_joinStep hi hok hs) (joinInv_init now) hok
    hrun).returned t ht

/-- The main thread joins thread 1, which exits. -/
theorem join_waits_one_thread :
    ∃ s, run joinStep (JoinState.init 0)
        [.call (.create 0), .call (.join 1 false), .call (.exit none), .call .tick, .joinReturn] =
          some s ∧ s.returned = some 1 ∧ (s.os.thread 1).finished = true :=
  ⟨_, rfl, rfl, join_waits 0 [.call (.create 0), .call (.join 1 false), .call (.exit none),
    .call .tick, .joinReturn] _ (by decide) rfl 1 rfl⟩

/-- The main thread holds a mutex for which thread 1 waits, and joins thread 1: no thread is left to
run, and the join returns although thread 1 is not finished. -/
theorem join_returns_early :
    ∃ s, run joinStep (JoinState.init 0)
        [.call (.create 0), .call .mutexInit, .call (.lock 0), .call .yield, .call (.lock 0),
          .call (.join 1 false)] = some s ∧
      s.returned = some 1 ∧ (s.os.thread 1).finished = false :=
  ⟨_, rfl, rfl, rfl⟩

end OSDesign
