import OSDesign.Thread.JoinExit

/-!
# What creating and joining a thread return

`my_pthread_create` is to return a value other than 0 and leave the run queue alone if the thread
could not be set up. But `createNewThread` looks at none of the four addresses it obtains, and
`my_pthread_create` does not look at what `createNewThread` returns.

`my_pthread_join` is to store the value with which the joined thread has ended. The field `res` of a
thread is a pointer to the pointer. `threadExit` sets it if the value is not `NULL`, and leaves it
unset otherwise; `my_pthread_join` follows it in any case. When the function of a thread returns,
`threadRun` takes the returned pointer as a pointer to the value.

## Main definitions

* `CreateFaults`, `createNewThreadWith`, `myPthreadCreateWith`, `CreateClean`.
* `Ending`, `endThread`, `joinRead`, `joinOutcome`.

## Main results

* `create_clean_iff`.
* `join_delivers_iff`.
-/

namespace OSDesign

open Transition

/-! ### Creating a thread -/

/-- Which of the steps of `createNewThread` fail: the allocations of the thread record, of the list
`waitJoin` and of the stack and the request for a page give `NULL`, or `getcontext` gives -1. -/
structure CreateFaults where
  record : Bool
  waitJoin : Bool
  page : Bool
  context : Bool
  stack : Bool
deriving DecidableEq

/-- The thread cannot be fully set up. -/
def CreateFaults.any (f : CreateFaults) : Bool :=
  f.record || f.waitJoin || f.page || f.context || f.stack

/-- `createNewThread`: what it returns, and the library afterwards. `nullStack` says whether
`makecontext` returns when the stack is `NULL`. -/
def createNewThreadWith (f : CreateFaults) (nullStack : Bool) (now : UInt64) (s : OS) :
    Option (ℤ × OS) :=
  -- `t->waitJoin` is set before anything else
  if f.record then none
  else
    let t := newSthread s.nextId now
    let s := { s with
      thread := Function.update s.thread s.created
        { t with waitJoin := if f.waitJoin then none else t.waitJoin }
      nextId := s.nextId + 1
      created := s.created + 1 }
    -- nothing depends on the request for a page
    if f.context then some (1, s)
    else if f.stack && !nullStack then none
    else some (0, s)

/-- `my_pthread_create`, where `none` is the library before `initOS`. -/
def myPthreadCreateWith (f : CreateFaults) (nullStack : Bool) (threadNull : Bool) (now : UInt64)
    (s : Option OS) : Option (ℤ × Option OS) :=
  if threadNull then some (1, s)
  else
    let os := s.getD (initOS now)
    (createNewThreadWith f nullStack now os).map fun r => (0, some (r.2.pushRun os.created))

/-- Without faults these are the operations of the library. -/
theorem myPthreadCreateWith_of_not_any {f : CreateFaults} (h : f.any = false) (nullStack : Bool)
    (now : UInt64) (s : Option OS) : myPthreadCreateWith f nullStack false now s =
      some (0, some (myPthreadCreate now (s.getD (initOS now)))) := by
  simp only [CreateFaults.any, Bool.or_eq_false_iff] at h
  obtain ⟨⟨⟨⟨hr, hw⟩, -⟩, hc⟩, hst⟩ := h
  simp [myPthreadCreateWith, createNewThreadWith, hr, hw, hc, hst, myPthreadCreate, createNewThread]

/-- The threads of the run queue. -/
def runQueue (s : Option OS) : List Tid := (s.map OS.run).getD []

/-- The call has returned, and if the thread could not be set up it has returned a value other than
0 and left the run queue as it was. -/
def CreateClean (s : Option OS) (failed : Bool) (r : Option (ℤ × Option OS)) : Prop :=
  ∃ v s', r = some (v, s') ∧ (failed = true → v ≠ 0 ∧ runQueue s' = runQueue s)

/-- `my_pthread_create` fails cleanly if and only if nothing fails, or `thread` is `NULL`, so that
`createNewThread` is not called. -/
theorem create_clean_iff (f : CreateFaults) (nullStack threadNull : Bool) (now : UInt64)
    (s : Option OS) :
    CreateClean s (!threadNull && f.any) (myPthreadCreateWith f nullStack threadNull now s) ↔
      threadNull = true ∨ f.any = false := by
  cases threadNull with
  | true => exact iff_of_true ⟨1, s, rfl, nofun⟩ (Or.inl rfl)
  | false =>
    cases hf : f.any with
    | false =>
      refine iff_of_true ⟨0, _, myPthreadCreateWith_of_not_any hf nullStack now s, ?_⟩ (Or.inr rfl)
      exact nofun
    | true =>
      refine iff_of_false ?_ (by simp)
      rintro ⟨v, s', hr, hclean⟩
      obtain ⟨r, -, hv⟩ := Option.map_eq_some_iff.mp hr
      exact (hclean rfl).1 (Prod.mk.inj hv).1.symm

/-- No page is left for a new thread: the call returns 0 and the thread is in the run queue. No OS
memory is left: the call dereferences `NULL`. -/
theorem create_with_faults :
    (myPthreadCreateWith ⟨false, false, true, false, false⟩ true false 0 none).map
        (fun r => (r.1, runQueue r.2)) = some (0, [1]) ∧
      ¬ CreateClean none true
        (myPthreadCreateWith ⟨false, false, true, false, false⟩ true false 0 none) ∧
      myPthreadCreateWith ⟨true, false, false, false, false⟩ true false 0 none = none := by
  refine ⟨by decide, ?_, rfl⟩
  rintro ⟨v, s', hr, hclean⟩
  exact (hclean rfl).1 (Prod.mk.inj (Option.some.inj hr)).1.symm

/-! ### Joining a thread -/

/-- How a thread ends: it calls `my_pthread_exit` with a pointer, or its function returns it. -/
inductive Ending where
  | exit (v : ℕ)
  | ret (v : ℕ)
deriving DecidableEq

/-- The pointer with which the thread ends. -/
def Ending.value : Ending → ℕ
  | .exit v => v
  | .ret v => v

/-- A pointer as the argument of `threadExit`, `none` being `NULL`. -/
def pointer (v : ℕ) : Option ℕ := if v = 0 then none else some v

/-- The pointer that is passed to `threadExit`. `threadRun` follows the pointer that the function of
the thread has returned; `mem` gives the pointers in the memory of the threads. -/
def Ending.argument (mem : ℕ → Option ℕ) : Ending → Option ℕ
  | .exit v => some v
  | .ret v => if v = 0 then some 0 else mem v

/-- The running thread ends. -/
def endThread (mem : ℕ → Option ℕ) (e : Ending) (s : JoinState) : Option JoinState :=
  (e.argument mem).bind fun v =>
    (threadExit (pointer v) s.os).map fun os => { s with os := os, returned := none }

/-- What the join on `t` of the running thread stores: the thread returns from a join in which it
has waited, or it calls `my_pthread_join` and does not have to wait. -/
def joinRead (t : Tid) (s : JoinState) : Option (Option ℕ) :=
  match s.waiting s.os.running with
  | some (u, valuePtr) => if u = t ∧ valuePtr = true then joinValue s.os t true else none
  | none => if (s.os.thread t).finished then joinValue s.os t true else none

/-- What a join on the running thread of `s` stores, when that thread ends and the other threads go
on with `later` up to the join. -/
def joinOutcome (mem : ℕ → Option ℕ) (e : Ending) (s : JoinState) (later : List JoinEvent) :
    Option (Option ℕ) :=
  (endThread mem e s).bind fun s₁ => (run joinStep s₁ later).bind (joinRead s.os.running)

/-- Another thread than `t` is running, and it returns from a join on `t` or can call one. -/
def JoinsNow (t : Tid) (s : JoinState) : Prop :=
  s.os.running ≠ t ∧
    (s.waiting s.os.running = none ∨ s.waiting s.os.running = some (t, true))

/-- The value arrives: it is passed to `my_pthread_exit` and not `NULL`, or it is returned and
points to itself. -/
def Ending.Arrives (mem : ℕ → Option ℕ) : Ending → Prop
  | .exit v => v ≠ 0
  | .ret v => v ≠ 0 ∧ mem v = some v

section Outcome

variable {s s' : OS} {t : Tid}

/-- The part of a record that says how its thread has ended. -/
def Sthread.outcome (r : Sthread) : Bool × Option ℕ × Bool := (r.finished, r.res, r.waitJoin.isSome)

/-- The record of a thread that has not ended is as `createNewThread` has left it, and all threads
but `mainThread` have a list for their joiners. -/
def OutcomeInv (s : OS) : Prop :=
  ∀ t, ((s.thread t).finished = false → (s.thread t).res = none) ∧
    (t ≠ 0 → (s.thread t).waitJoin.isSome = true)

theorem outcomeInv_initOS (now : UInt64) : OutcomeInv (initOS now) := by
  intro t
  by_cases ht : t = 0
  · subst ht
    exact ⟨fun _ => rfl, fun h => absurd rfl h⟩
  · rw [thread_initOS_of_ne now ht]
    exact ⟨fun _ => rfl, fun _ => rfl⟩

theorem outcome_pushJoiner {u : Tid} (h : pushJoiner u s = some s') (t : Tid) :
    (s'.thread t).outcome = (s.thread t).outcome := by
  obtain ⟨joiners, hj, rfl⟩ := Option.map_eq_some_iff.mp h
  by_cases ht : t = u
  · subst ht
    rw [OS.thread_modifyThread_self, Sthread.outcome, Sthread.outcome, hj]
    rfl
  · rw [OS.thread_modifyThread_of_ne _ _ _ ht]

theorem outcome_myPthreadJoin {u : Tid} {valuePtr : Bool} (h : myPthreadJoin u valuePtr s = some s')
    (t : Tid) : (s'.thread t).outcome = (s.thread t).outcome := by
  unfold myPthreadJoin at h
  split_ifs at h
  · obtain ⟨_, _, rfl⟩ := Option.map_eq_some_iff.mp h
    rfl
  · obtain ⟨s₁, hpush, h⟩ := Option.bind_eq_some_iff.mp h
    have hout := outcome_pushJoiner hpush t
    split_ifs at h
    · obtain ⟨_, _, rfl⟩ := Option.map_eq_some_iff.mp h
      exact hout
    · rw [(created_thread_switchNext h).2]
      exact hout

/-- `threadExit` changes the record of the thread that ends. -/
theorem outcome_threadExit {res : Option ℕ} (h : threadExit res s = some s') (t : Tid) :
    (s'.thread t).outcome =
      if t = s.running then (true, res.or (s.thread t).res, true) else (s.thread t).outcome := by
  obtain ⟨s₁, hdrain, h⟩ := Option.bind_eq_some_iff.mp h
  have hthread : s'.thread = s₁.thread := by
    split_ifs at h
    · rw [Option.some.inj h]
    · exact (created_thread_switchNext h).2
  obtain ⟨joiners, -, rfl⟩ := Option.map_eq_some_iff.mp hdrain
  rw [hthread]
  split_ifs with ht
  · subst ht
    simp [Sthread.outcome, OS.setRun, markFinished, OS.modifyThread, OS.setThread]
  · simp [OS.setRun, markFinished, OS.modifyThread, OS.setThread, Function.update_of_ne ht]

/-- A call changes how a thread has ended only if the thread ends; a new thread has not ended. -/
theorem outcome_callStep {c : Call} (h : callStep s c = some s') (t : Tid) :
    (s'.thread t).outcome = (s.thread t).outcome ∨
      (t = s.created ∧ (s'.thread t).outcome = (false, none, true)) ∨
      t = s.running ∧ (s'.thread t).finished = true ∧ (s'.thread t).waitJoin.isSome = true := by
  cases c with
  | create now =>
    cases h
    by_cases ht : t = s.created
    · subst ht
      refine Or.inr (Or.inl ⟨rfl, ?_⟩)
      simp [myPthreadCreate, createNewThread, newSthread, Sthread.outcome]
    · refine Or.inl ?_
      simp [myPthreadCreate, createNewThread, Function.update_of_ne ht]
  | tick =>
    cases h
    exact Or.inl (eq_scheduler Sthread.outcome (fun _ _ => rfl) s t)
  | yield =>
    cases h
    rw [myPthreadYield, eq_scheduler Sthread.outcome fun _ _ => rfl,
      eq_yieldPriority Sthread.outcome fun _ _ => rfl]
    exact Or.inl rfl
  | join u valuePtr => exact Or.inl (outcome_myPthreadJoin h t)
  | mutexInit =>
    cases h
    exact Or.inl rfl
  | lock m =>
    refine Or.inl ?_
    simp only [callStep, myPthreadMutexLockRound] at h
    split_ifs at h
    · rw [(finished_lockSection h).2]
      rfl
    · cases h
      rfl
  | unlock m =>
    cases h
    refine Or.inl ?_
    unfold myPthreadMutexUnlock
    split <;> rfl
  | exit res =>
    have hout := outcome_threadExit h t
    split_ifs at hout with ht
    · refine Or.inr (Or.inr ⟨ht, congrArg Prod.fst hout, congrArg (·.2.2) hout⟩)
    · exact Or.inl hout

theorem OutcomeInv.callStep {c : Call} (hi : OutcomeInv s) (h : callStep s c = some s') :
    OutcomeInv s' := by
  intro t
  obtain hout | ⟨-, hout⟩ | ⟨-, hfin, hwait⟩ := outcome_callStep h t
  · obtain ⟨hf, hr, hw⟩ : _ ∧ _ ∧ _ := by simpa [Sthread.outcome] using hout
    rw [hf, hr, hw]
    exact hi t
  · obtain ⟨-, hr, hw⟩ : _ ∧ _ ∧ _ := by simpa [Sthread.outcome] using hout
    exact ⟨fun _ => hr, fun _ => hw⟩
  · exact ⟨fun hf => absurd (hfin.symm.trans hf) nofun, fun _ => hwait⟩

theorem created_le_callStep {c : Call} (h : callStep s c = some s') : s.created ≤ s'.created := by
  cases c with
  | create now =>
    cases h
    exact Nat.le_succ _
  | tick =>
    cases h
    exact (created_scheduler s).ge
  | yield =>
    cases h
    rw [myPthreadYield, created_scheduler, yieldPriority]
    split_ifs <;> exact le_rfl
  | join u valuePtr => exact (finished_myPthreadJoin h).1.ge
  | mutexInit =>
    cases h
    exact le_rfl
  | lock m =>
    simp only [callStep, myPthreadMutexLockRound] at h
    split_ifs at h
    · exact (finished_lockSection h).1.ge
    · cases h
      exact le_rfl
  | unlock m =>
    cases h
    unfold myPthreadMutexUnlock
    split <;> exact le_rfl
  | exit res =>
    obtain ⟨s₁, hdrain, h⟩ := Option.bind_eq_some_iff.mp h
    have hc := (drainJoiners_markFinished hdrain).2.1
    split_ifs at h
    · rw [← Option.some.inj h, hc]
    · rw [(created_thread_switchNext h).1, hc]

end Outcome

section Runs

variable {st st' : JoinState} {t : Tid}

/-- A step of the library with its joins is a call or changes no record. -/
theorem os_joinStep {e : JoinEvent} (h : joinStep st e = some st') :
    st'.os = st.os ∨ ∃ c, callStep st.os c = some st'.os := by
  cases e with
  | call c =>
    rw [joinStep] at h
    split_ifs at h
    obtain ⟨os, hcall, rfl⟩ := Option.map_eq_some_iff.mp h
    refine Or.inr ⟨c, hcall.trans (congrArg some ?_)⟩
    cases c with
    | join u valuePtr =>
      rw [JoinState.after]
      split_ifs <;> rfl
    | _ => rfl
  | joinReturn =>
    obtain ⟨_, -, h⟩ := Option.bind_eq_some_iff.mp h
    obtain ⟨_, -, rfl⟩ := Option.map_eq_some_iff.mp h
    exact Or.inl rfl

theorem OutcomeInv.joinRun {now : UInt64} {es : List JoinEvent}
    (h : run joinStep (JoinState.init now) es = some st) : OutcomeInv st.os := by
  have hstep (s : JoinState) (e : JoinEvent) (s' : JoinState) (hi : OutcomeInv s.os)
      (hs : joinStep s e = some s') : OutcomeInv s'.os := by
    obtain heq | ⟨c, hc⟩ := os_joinStep hs
    · rwa [heq]
    · exact hi.callStep hc
  exact run_invariant_of_step hstep (outcomeInv_initOS now) h

/-- How a thread has ended does not change while it does not run. -/
theorem outcome_joinRun {es : List JoinEvent} (h : run joinStep st es = some st')
    (hrun : RunOk joinStep (fun st _ => st.os.running ≠ t) st es) (hc : t < st.os.created) :
    (st'.os.thread t).outcome = (st.os.thread t).outcome := by
  let Kept (s : JoinState) : Prop :=
    t < s.os.created ∧ (s.os.thread t).outcome = (st.os.thread t).outcome
  have hstep (s : JoinState) (e : JoinEvent) (s' : JoinState) (hi : Kept s) (hne : s.os.running ≠ t)
      (hs : joinStep s e = some s') : Kept s' := by
    obtain heq | ⟨c, hcall⟩ := os_joinStep hs
    · dsimp only [Kept]
      rwa [heq]
    · refine ⟨hi.1.trans_le (created_le_callStep hcall), ?_⟩
      obtain hout | ⟨hnew, -⟩ | ⟨htr, -⟩ := outcome_callStep hcall t
      · rw [hout, hi.2]
      · exact absurd hi.1 (hnew ▸ lt_irrefl _)
      · exact absurd htr.symm hne
  have hkept : Kept st' := run_invariant hstep ⟨hc, rfl⟩ hrun h
  exact hkept.2

/-- A thread with a list for its joiners can end. -/
theorem exists_threadExit {s : OS} (h : (s.thread s.running).waitJoin.isSome = true)
    (res : Option ℕ) : ∃ s', threadExit res s = some s' := by
  obtain ⟨joiners, hj⟩ := Option.isSome_iff_exists.mp h
  have hdrain : ∃ s₁, drainJoiners (markFinished res s) = some s₁ := by
    refine ⟨_, Option.map_eq_some_iff.mpr ⟨joiners, ?_, rfl⟩⟩
    simpa [markFinished] using hj
  obtain ⟨s₁, hs₁⟩ := hdrain
  rw [threadExit, hs₁, Option.bind_some]
  split_ifs with hnil
  · exact ⟨s₁, rfl⟩
  · rw [switchNext]
    split
    · exact absurd ‹_› hnil
    · exact ⟨_, rfl⟩

/-- The read of a join on a thread that has ended. -/
theorem joinRead_eq {res : Option ℕ} (hjoin : JoinsNow t st)
    (hout : (st.os.thread t).outcome = (true, res, true)) : joinRead t st = res.map some := by
  have hfin : (st.os.thread t).finished = true := congrArg Prod.fst hout
  have hres : (st.os.thread t).res = res := congrArg (·.2.1) hout
  rw [joinRead]
  rcases hjoin.2 with hwait | hwait
  · simp only [hwait, hfin, joinValue, hres]
    rfl
  · simp only [hwait, joinValue, hres]
    rfl

end Runs

/-- For a thread that ends and a thread that joins it, before or after: the join stores the value if
and only if it is passed to `my_pthread_exit` and not `NULL`, or is returned and points to itself.
-/
theorem join_delivers_iff (now : UInt64) (before later : List JoinEvent) (st : JoinState)
    (mem : ℕ → Option ℕ) (e : Ending)
    (hbefore : run joinStep (JoinState.init now) before = some st)
    (hmain : st.os.running ≠ 0) (hcreated : st.os.running < st.os.created)
    (hfirst : (st.os.thread st.os.running).finished = false)
    (hlater : ∀ st₁, endThread mem e st = some st₁ →
      RunOk joinStep (fun s _ => s.os.running ≠ st.os.running) st₁ later ∧
        ∃ st₂, run joinStep st₁ later = some st₂ ∧ JoinsNow st.os.running st₂) :
    joinOutcome mem e st later = some (some e.value) ↔ e.Arrives mem := by
  obtain ⟨hres, hwait⟩ := OutcomeInv.joinRun hbefore st.os.running
  have hread : joinOutcome mem e st later =
      (e.argument mem).bind fun v => (pointer v).map some := by
    rw [joinOutcome]
    cases harg : e.argument mem with
    | none => rw [endThread, harg, Option.bind_none, Option.bind_none, Option.bind_none]
    | some v =>
      obtain ⟨os, hexit⟩ := exists_threadExit (hwait hmain) (pointer v)
      have hend : endThread mem e st = some { st with os := os, returned := none } := by
        rw [endThread, harg, Option.bind_some, hexit, Option.map_some]
      obtain ⟨hnot, st₂, hrun, hjoin⟩ := hlater _ hend
      have hout := outcome_threadExit hexit st.os.running
      rw [if_pos rfl, hres hfirst, Option.or_none] at hout
      have hkeep :=
        outcome_joinRun hrun hnot (hcreated.trans_le (created_le_callStep (c := .exit _) hexit))
      rw [hend, Option.bind_some, hrun, Option.bind_some, Option.bind_some]
      exact joinRead_eq hjoin (hkeep.trans hout)
  rw [hread]
  cases e with
  | exit v =>
    rw [Ending.argument, Option.bind_some, Ending.value, Ending.Arrives, pointer]
    split_ifs with h0 <;> simp [h0]
  | ret v =>
    rw [Ending.argument, Ending.value, Ending.Arrives]
    split_ifs with h0
    · simp [h0, pointer]
    · cases hm : mem v with
      | none => simp
      | some w =>
        rw [Option.bind_some, pointer]
        split_ifs with hw
        · simp [hw, Ne.symm h0]
        · simp [h0]

/-- The main thread joins thread 1, which then passes 500 to `my_pthread_exit`. -/
theorem join_delivers_exit_value :
    ∃ st, run joinStep (JoinState.init 0) [.call (.create 0), .call (.join 1 true)] = some st ∧
      joinOutcome (fun _ => none) (.exit 500) st [] = some (some 500) := by
  have h := join_delivers_iff 0 [.call (.create 0), .call (.join 1 true)] [] _ (fun _ => none)
    (.exit 500) rfl (by decide) (by decide) rfl fun st₁ hend => by
      obtain rfl := Option.some.inj hend
      exact ⟨trivial, _, rfl, by decide, Or.inr rfl⟩
  exact ⟨_, rfl, h.mpr (show 500 ≠ 0 by decide)⟩

/-- Thread 1 passes `NULL`: the join follows the unset pointer. Its function returns the address 8,
at which there is a 9: the join stores the 9. -/
theorem join_loses_value :
    ∃ st, run joinStep (JoinState.init 0) [.call (.create 0), .call (.join 1 true)] = some st ∧
      st.os.running = 1 ∧ joinOutcome (fun _ => none) (.exit 0) st [] = none ∧
      joinOutcome (fun v => if v = 8 then some 9 else none) (.ret 8) st [] = some (some 9) :=
  ⟨_, rfl, rfl, rfl, rfl⟩

end OSDesign
