import OSDesign.Thread.Conservation

/-!
# The priority of a thread counts its time slices

`scheduler` adds 1 to the priority of the running thread. It runs when the timer interrupts, and it
runs when a thread yields. A thread that yields is to keep its priority, so `my_pthread_yield` takes
1 off beforehand, but only if the priority is not 0: a new thread that yields gets the priority 1.

The priority is an `unsigned int`, so it also stops counting when it wraps around.

`ticks` counts the timer interrupts that find a thread running. The names of threads that the
library holds are those of created threads (`Among`), so a thread that is created has no tick on its
account.

## Main definitions

* `Among`: the names in the library all have a property.
* `ticks`, `Compensated`.

## Main results

* `priority_counts_ticks_iff`: the priorities are the numbers of ticks all along a run if and only
  if no thread yields at priority 0 and no tick finds the greatest priority.
-/

namespace OSDesign

open Transition

/-! ### The names that the library holds -/

/-- The running thread and the threads of the run queue, of the `waitJoin` lists and of the wait
lists of the mutexes all have the property `P`. -/
structure Among (P : Tid → Prop) (s : OS) : Prop where
  running : P s.running
  run : ∀ t ∈ s.run, P t
  joiners : ∀ u, ∀ t ∈ s.joiners u, P t
  waiters : ∀ m, ∀ t ∈ (s.mutex m).wait, P t

section Names

variable {P : Tid → Prop} {s s' : OS} {t : Tid}

theorem among_initOS (now : UInt64) : Among (· < 1) (initOS now) where
  running := Nat.one_pos
  run := nofun
  joiners u t ht := by
    rw [OS.joiners] at ht
    by_cases hu : u = 0
    · subst hu
      cases ht
    · rw [thread_initOS_of_ne now hu] at ht
      cases ht
  waiters := nofun

theorem Among.mono {Q : Tid → Prop} (h : Among P s) (hPQ : ∀ t, P t → Q t) : Among Q s :=
  ⟨hPQ _ h.running, fun t ht => hPQ t (h.run t ht), fun u t ht => hPQ t (h.joiners u t ht),
    fun m t ht => hPQ t (h.waiters m t ht)⟩

/-- One record is changed, and its joiners are known. -/
theorem Among.modifyThread (h : Among P s) {f : Sthread → Sthread}
    (hf : ∀ u ∈ (f (s.thread t)).waitJoin.getD [], P u) : Among P (s.modifyThread t f) := by
  refine ⟨h.running, h.run, fun u x hx => ?_, h.waiters⟩
  rw [OS.joiners] at hx
  by_cases hu : u = t
  · subst hu
    rw [OS.thread_modifyThread_self] at hx
    exact hf x hx
  · rw [OS.thread_modifyThread_of_ne _ _ _ hu] at hx
    exact h.joiners u x hx

theorem Among.setMutex (h : Among P s) {m : Mid} {l : Lock} (hl : ∀ u ∈ l.wait, P u) :
    Among P (s.setMutex m l) := by
  refine ⟨h.running, h.run, h.joiners, fun k x hx => ?_⟩
  by_cases hk : k = m
  · subst hk
    rw [OS.mutex_setMutex_self] at hx
    exact hl x hx
  · rw [OS.mutex_setMutex_of_ne _ _ _ hk] at hx
    exact h.waiters k x hx

theorem Among.setRun (h : Among P s) {l : List Tid} (hl : ∀ u ∈ l, P u) : Among P (s.setRun l) :=
  ⟨h.running, hl, h.joiners, h.waiters⟩

theorem forall_mem_pushOrdered {key : Tid → ℤ} {l : List Tid} (hl : ∀ u ∈ l, P u) (ht : P t) :
    ∀ u ∈ Queue.pushOrdered key l t, P u := by
  intro u hu
  rcases List.mem_cons.mp ((Queue.pushOrdered_perm key l t).mem_iff.mp hu) with rfl | hu
  · exact ht
  · exact hl u hu

theorem Among.pushRun (h : Among P s) (ht : P t) : Among P (s.pushRun t) :=
  h.setRun (forall_mem_pushOrdered h.run ht)

theorem Among.switchNext (h : Among P s) (hs : switchNext s = some s') : Among P s' := by
  unfold OSDesign.switchNext at hs
  split at hs
  · cases hs
  · rename_i next rest hrun
    cases hs
    have hmem : ∀ u ∈ next :: rest, P u := hrun ▸ h.run
    exact ⟨hmem next List.mem_cons_self, fun u hu => hmem u (List.mem_cons_of_mem _ hu), h.joiners,
      h.waiters⟩

theorem Among.myPthreadCreate (h : Among P s) (now : UInt64) (hnew : P s.created) :
    Among P (myPthreadCreate now s) := by
  refine Among.pushRun ⟨h.running, h.run, fun u x hx => ?_, h.waiters⟩ hnew
  by_cases hu : u = s.created
  · subst hu
    have hthread : (createNewThread now s).thread s.created = newSthread s.nextId now :=
      Function.update_self ..
    rw [OS.joiners, hthread] at hx
    cases hx
  · have hthread : (createNewThread now s).thread u = s.thread u := Function.update_of_ne hu ..
    rw [OS.joiners, hthread] at hx
    exact h.joiners u x hx

theorem Among.maintenance (h : Among P s) : Among P (maintenance s) := by
  unfold OSDesign.maintenance
  dsimp only
  split_ifs
  · exact ⟨h.running, fun u hu => h.run u ((Queue.orderByOldest_perm _ _).mem_iff.mp hu), h.joiners,
      h.waiters⟩
  · exact ⟨h.running, h.run, h.joiners, h.waiters⟩

theorem Among.rotate (h : Among P s) : Among P (rotate s) := by
  unfold OSDesign.rotate
  split
  · exact h
  · rename_i next rest hrun
    have hmem : ∀ u ∈ next :: rest, P u := hrun ▸ h.run
    exact ⟨hmem next List.mem_cons_self,
      forall_mem_pushOrdered (fun u hu => hmem u (List.mem_cons_of_mem _ hu)) h.running, h.joiners,
      h.waiters⟩

theorem Among.scheduler (h : Among P s) : Among P (scheduler s) := by
  have hage : Among P (agePriority (OSDesign.maintenance s)) :=
    h.maintenance.modifyThread (h.maintenance.joiners _)
  exact hage.rotate

theorem Among.yieldPriority (h : Among P s) : Among P (yieldPriority s) := by
  unfold OSDesign.yieldPriority
  split_ifs
  · exact h.modifyThread (h.joiners _)
  · exact h

theorem Among.threadExit {res : Option ℕ} (h : Among P s) (hs : threadExit res s = some s') :
    Among P s' := by
  obtain ⟨s₁, hdrain, hs⟩ := Option.bind_eq_some_iff.mp hs
  have hmark : Among P (markFinished res s) := h.modifyThread (h.joiners _)
  obtain ⟨joiners, hj, rfl⟩ := Option.map_eq_some_iff.mp hdrain
  have hjoiners : ∀ u ∈ joiners, P u := by
    intro u hu
    refine hmark.joiners (markFinished res s).running u ?_
    rw [OS.joiners, hj]
    exact hu
  have hrun : ∀ u ∈ joiners.foldl (Queue.pushOrdered (markFinished res s).prio)
      (markFinished res s).run, P u := by
    intro u hu
    rcases List.mem_append.mp ((Queue.foldl_pushOrdered_perm _ _ _).mem_iff.mp hu) with hu | hu
    · exact hjoiners u hu
    · exact hmark.run u hu
  have hdrained := (hmark.modifyThread (f := fun r => { r with waitJoin := some [] })
    (t := (markFinished res s).running) nofun).setRun hrun
  split_ifs at hs
  · cases hs
    exact hdrained
  · exact hdrained.switchNext hs

theorem Among.myPthreadJoin {valuePtr : Bool} (h : Among P s)
    (hs : myPthreadJoin t valuePtr s = some s') : Among P s' := by
  unfold OSDesign.myPthreadJoin at hs
  split_ifs at hs
  · obtain ⟨_, _, rfl⟩ := Option.map_eq_some_iff.mp hs
    exact h
  · obtain ⟨s₁, hpush, hs⟩ := Option.bind_eq_some_iff.mp hs
    obtain ⟨joiners, hj, rfl⟩ := Option.map_eq_some_iff.mp hpush
    have hjoiners : ∀ u ∈ joiners, P u := by
      intro u hu
      refine h.joiners t u ?_
      rw [OS.joiners, hj]
      exact hu
    have hpushed := h.modifyThread (t := t)
      (f := fun r => { r with waitJoin := some (Queue.pushOrdered s.prio joiners s.running) })
      (forall_mem_pushOrdered hjoiners h.running)
    split_ifs at hs
    · obtain ⟨_, _, rfl⟩ := Option.map_eq_some_iff.mp hs
      exact ⟨hpushed.running, hpushed.run, hpushed.joiners, hpushed.waiters⟩
    · exact hpushed.switchNext hs

theorem Among.myPthreadMutexLockRound {m : Mid} (h : Among P s)
    (hs : myPthreadMutexLockRound m s = some s') : Among P s' := by
  have hset : Among P (testAndSet m s).2 := h.setMutex (h.waiters m)
  simp only [OSDesign.myPthreadMutexLockRound, lockSection, lockBlock] at hs
  split_ifs at hs
  · refine (hset.setMutex fun u hu => ?_).switchNext hs
    rcases List.mem_cons.mp ((Queue.push_perm _ _).mem_iff.mp hu) with rfl | hu
    · exact hset.running
    · exact hset.waiters m u hu
  · cases hs
    exact hset
  · cases hs
    exact hset

theorem Among.myPthreadMutexUnlock (h : Among P s) (m : Mid) :
    Among P (myPthreadMutexUnlock m s) := by
  unfold OSDesign.myPthreadMutexUnlock
  split
  · exact h.setMutex nofun
  · rename_i u rest hwait
    have hmem : ∀ x ∈ u :: rest, P x := hwait ▸ h.waiters m
    exact (h.setMutex fun x hx => hmem x (List.mem_cons_of_mem _ hx)).pushRun
      (hmem u List.mem_cons_self)

/-- A call brings no other name into the library than that of the thread it creates. -/
theorem Among.callStep {c : Call} (h : Among P s) (hnew : ∀ now, c = .create now → P s.created)
    (hs : callStep s c = some s') : Among P s' := by
  cases c with
  | create now =>
    cases hs
    exact h.myPthreadCreate now (hnew now rfl)
  | tick =>
    cases hs
    exact h.scheduler
  | yield =>
    cases hs
    exact h.yieldPriority.scheduler
  | join t valuePtr => exact h.myPthreadJoin hs
  | mutexInit =>
    cases hs
    refine ⟨h.running, h.run, h.joiners, fun m x hx => ?_⟩
    exact (h.setMutex (m := s.mutexes) (l := ⟨0, []⟩) nofun).waiters m x hx
  | lock m => exact h.myPthreadMutexLockRound hs
  | unlock m =>
    cases hs
    exact h.myPthreadMutexUnlock m
  | exit res => exact h.threadExit hs

end Names

/-! ### The priorities -/

section Priorities

variable {s s' : OS} {c : Call} {t : Tid}

/-- `scheduler` adds 1 to the priority of the running thread and changes no other. -/
theorem priority_scheduler (s : OS) (t : Tid) : ((scheduler s).thread t).priority =
    if t = s.running then (s.thread t).priority + 1 else (s.thread t).priority := by
  have hrunning : (maintenance s).running = s.running := by
    unfold maintenance
    dsimp only
    split_ifs <;> rfl
  rw [scheduler, thread_rotate, agePriority, hrunning]
  split_ifs with ht
  · subst ht
    rw [OS.thread_modifyThread_self, thread_maintenance]
  · rw [OS.thread_modifyThread_of_ne _ _ _ ht, thread_maintenance]

/-- `my_pthread_yield` keeps all priorities, except that 0 becomes 1. -/
theorem priority_myPthreadYield (s : OS) (t : Tid) : ((myPthreadYield s).thread t).priority =
    if t = s.running ∧ (s.thread t).priority = 0 then 1 else (s.thread t).priority := by
  have hrunning : (yieldPriority s).running = s.running := by
    unfold yieldPriority
    split_ifs <;> rfl
  rw [myPthreadYield, priority_scheduler, hrunning]
  by_cases ht : t = s.running
  · subst ht
    by_cases hp : (s.thread s.running).priority = 0
    · rw [if_pos rfl, if_pos ⟨rfl, hp⟩, yieldPriority, if_neg (by rw [hp]; decide), hp]
      rfl
    · have hpos : (s.thread s.running).priority > 0 := UInt32.pos_iff_ne_zero.mpr hp
      rw [if_pos rfl, if_neg fun h => hp h.2, yieldPriority, if_pos hpos,
        OS.thread_modifyThread_self]
      exact UInt32.sub_add_cancel _ _
  · rw [if_neg ht, if_neg fun h => ht h.1, yieldPriority]
    split_ifs
    · rw [OS.thread_modifyThread_of_ne _ _ _ ht]
    · rfl

/-- A call that is no tick, no yield and does not create `t` keeps the priority of `t`. -/
theorem priority_callStep (hs : callStep s c = some s') (htick : c ≠ .tick) (hyield : c ≠ .yield)
    (hnew : ∀ now, c = .create now → t ≠ s.created) :
    (s'.thread t).priority = (s.thread t).priority := by
  cases c with
  | create now =>
    cases hs
    exact congrArg Sthread.priority (Function.update_of_ne (hnew now rfl) ..)
  | tick => exact absurd rfl htick
  | yield => exact absurd rfl hyield
  | join u valuePtr =>
    simp only [callStep, myPthreadJoin] at hs
    split_ifs at hs
    · obtain ⟨_, _, rfl⟩ := Option.map_eq_some_iff.mp hs
      rfl
    · obtain ⟨s₁, hpush, hs⟩ := Option.bind_eq_some_iff.mp hs
      obtain ⟨joiners, -, rfl⟩ := Option.map_eq_some_iff.mp hpush
      have hpriority := eq_modifyThread Sthread.priority s u
        (f := fun r => { r with waitJoin := some (Queue.pushOrdered s.prio joiners s.running) })
        (fun _ => rfl) t
      split_ifs at hs
      · obtain ⟨_, _, rfl⟩ := Option.map_eq_some_iff.mp hs
        exact hpriority
      · rw [(created_thread_switchNext hs).2]
        exact hpriority
  | mutexInit =>
    cases hs
    rfl
  | lock m =>
    simp only [callStep, myPthreadMutexLockRound] at hs
    split_ifs at hs
    · rw [(finished_lockSection hs).2]
      rfl
    · cases hs
      rfl
  | unlock m =>
    cases hs
    unfold myPthreadMutexUnlock
    split <;> rfl
  | exit res =>
    obtain ⟨s₁, hdrain, hs⟩ := Option.bind_eq_some_iff.mp hs
    obtain ⟨joiners, -, rfl⟩ := Option.map_eq_some_iff.mp hdrain
    have hmark := eq_modifyThread Sthread.priority s s.running
      (f := fun r => { r with finished := true, res := res.or r.res }) (fun _ => rfl) t
    have hdrain := eq_modifyThread Sthread.priority (markFinished res s)
      (markFinished res s).running (f := fun r => { r with waitJoin := some [] }) (fun _ => rfl) t
    rw [← hmark]
    split_ifs at hs
    · cases hs
      exact hdrain
    · rw [(created_thread_switchNext hs).2]
      exact hdrain

/-! ### Counting the ticks -/

/-- The ticks that the call adds to the account of `t`. -/
def ticked (s : OS) (c : Call) (t : Tid) : ℕ := if c = .tick ∧ t = s.running then 1 else 0

/-- The number of timer interrupts of the run that find `t` running. -/
def ticks : OS → List Call → Tid → ℕ
  | _, [], _ => 0
  | s, c :: calls, t =>
    ticked s c t + match callStep s c with
      | none => 0
      | some s' => ticks s' calls t

/-- The priorities are the numbers `n`. -/
def Counts (s : OS) (n : Tid → ℕ) : Prop := ∀ t < s.created, (s.thread t).priority.toNat = n t

/-- No thread yields at priority 0, and no timer interrupt finds the greatest priority. -/
def Compensated (s : OS) : Call → Prop
  | .yield => 0 < (s.thread s.running).priority
  | .tick => (s.thread s.running).priority.toNat + 1 < 2 ^ 32
  | _ => True

instance (s : OS) (c : Call) : Decidable (Compensated s c) := by
  rcases c <;> dsimp only [Compensated] <;> infer_instance

/-- The accounts: the names in the library are those of created threads, and only these have ticks
on their account. -/
structure Accounts (s : OS) (n : Tid → ℕ) : Prop where
  among : Among (· < s.created) s
  fresh : ∀ t, s.created ≤ t → n t = 0

theorem created_callStep (hs : callStep s c = some s') :
    s'.created = s.created ∨ s'.created = s.created + 1 ∧ ∃ now, c = .create now := by
  cases c with
  | create now =>
    cases hs
    exact Or.inr ⟨rfl, now, rfl⟩
  | tick =>
    cases hs
    exact Or.inl (created_scheduler s)
  | yield =>
    cases hs
    refine Or.inl ((created_scheduler _).trans ?_)
    unfold yieldPriority
    split_ifs <;> rfl
  | join t valuePtr => exact Or.inl (finished_myPthreadJoin hs).1
  | mutexInit =>
    cases hs
    exact Or.inl rfl
  | lock m =>
    simp only [callStep, myPthreadMutexLockRound] at hs
    split_ifs at hs
    · exact Or.inl (finished_lockSection hs).1
    · cases hs
      exact Or.inl rfl
  | unlock m =>
    cases hs
    unfold myPthreadMutexUnlock
    split <;> exact Or.inl rfl
  | exit res =>
    obtain ⟨s₁, hdrain, hs⟩ := Option.bind_eq_some_iff.mp hs
    obtain ⟨joiners, -, rfl⟩ := Option.map_eq_some_iff.mp hdrain
    split_ifs at hs
    · cases hs
      exact Or.inl rfl
    · exact Or.inl (created_thread_switchNext hs).1

theorem Accounts.step {n : Tid → ℕ} (h : Accounts s n) (hs : callStep s c = some s') :
    Accounts s' (n + ticked s c) := by
  have hle : s.created ≤ s'.created := by
    rcases created_callStep hs with hc | ⟨hc, -⟩ <;> omega
  refine ⟨(h.among.mono fun t ht => ht.trans_le hle).callStep ?_ hs, fun t ht => ?_⟩
  · rintro now rfl
    cases hs
    exact Nat.lt_succ_self _
  · rw [Pi.add_apply, h.fresh t (hle.trans ht), ticked, if_neg]
    rintro ⟨-, rfl⟩
    exact Nat.not_lt.mpr (hle.trans ht) h.among.running

/-- One call keeps the priorities and the ticks equal if and only if it is compensated. -/
theorem Counts.step_iff {n : Tid → ℕ} (h : Counts s n) (hacc : Accounts s n)
    (hs : callStep s c = some s') : Counts s' (n + ticked s c) ↔ Compensated s c := by
  have hrunning := hacc.among.running
  cases c with
  | tick =>
    cases hs
    have hn := h s.running hrunning
    constructor
    · intro h'
      have heq := h' s.running (by rw [created_scheduler]; exact hrunning)
      rw [priority_scheduler, if_pos rfl, Pi.add_apply, ticked, if_pos ⟨rfl, rfl⟩,
        UInt32.toNat_add] at heq
      have hlt := Nat.mod_lt ((s.thread s.running).priority.toNat + UInt32.toNat 1)
        (Nat.two_pow_pos 32)
      change _ + 1 < 2 ^ 32
      omega
    · intro hc t ht
      rw [created_scheduler] at ht
      rw [priority_scheduler, Pi.add_apply, ticked]
      by_cases hr : t = s.running
      · subst hr
        rw [if_pos rfl, if_pos ⟨rfl, rfl⟩, UInt32.toNat_add, ← hn]
        exact Nat.mod_eq_of_lt hc
      · rw [if_neg hr, if_neg fun hx => hr hx.2]
        exact h t ht
  | yield =>
    cases hs
    have hcreated : (myPthreadYield s).created = s.created :=
      (created_callStep (c := .yield) rfl).resolve_right fun hx => by
        obtain ⟨-, now, hnow⟩ := hx
        cases hnow
    have hn := h s.running hrunning
    have hzero (t : Tid) : (n + ticked s .yield) t = n t := by
      rw [Pi.add_apply, ticked, if_neg nofun]
      rfl
    constructor
    · intro h'
      have heq := h' s.running (by rw [hcreated]; exact hrunning)
      rw [hzero, priority_myPthreadYield] at heq
      refine UInt32.pos_iff_ne_zero.mpr fun hp => ?_
      rw [if_pos ⟨rfl, hp⟩, ← hn, hp] at heq
      cases heq
    · intro hc t ht
      rw [hcreated] at ht
      rw [hzero, priority_myPthreadYield, if_neg]
      · exact h t ht
      · rintro ⟨rfl, hp⟩
        exact UInt32.pos_iff_ne_zero.mp hc hp
  | create now =>
    refine iff_of_true (fun t ht => ?_) trivial
    have hzero : (n + ticked s (.create now)) t = n t := by
      rw [Pi.add_apply, ticked, if_neg nofun]
      rfl
    rw [hzero]
    by_cases htc : t = s.created
    · subst htc
      cases hs
      have hthread : (myPthreadCreate now s).thread s.created = newSthread s.nextId now :=
        Function.update_self ..
      rw [hthread, hacc.fresh _ le_rfl]
      rfl
    · rw [priority_callStep hs nofun nofun fun _ _ => htc]
      cases hs
      exact h t (Nat.lt_of_le_of_ne (Nat.lt_succ_iff.mp ht) htc)
  | _ =>
    refine iff_of_true (fun t ht => ?_) trivial
    have hcreated : s'.created = s.created :=
      (created_callStep hs).resolve_right fun hx => by
        obtain ⟨-, now, hnow⟩ := hx
        cases hnow
    rw [priority_callStep hs nofun nofun nofun, Pi.add_apply, ticked, if_neg nofun]
    exact h t (hcreated ▸ ht)

/-- The run from a state in which the priorities are right. -/
theorem Counts.run_iff {n : Tid → ℕ} (h : Counts s n) (hacc : Accounts s n) (calls : List Call) :
    (∀ pre s', pre <+: calls → run callStep s pre = some s' → Counts s' (n + ticks s pre)) ↔
      RunOk callStep Compensated s calls := by
  induction calls generalizing s n with
  | nil =>
    refine iff_of_true (fun pre s' hpre hrun => ?_) trivial
    obtain rfl := List.prefix_nil.mp hpre
    cases hrun
    exact h
  | cons c calls ih =>
    have hticks {s₁ : OS} (hs : callStep s c = some s₁) (pre : List Call) :
        n + ticks s (c :: pre) = n + ticked s c + ticks s₁ pre := by
      funext t
      simp only [Pi.add_apply, ticks, hs]
      omega
    constructor
    · intro hall
      have hnext : ∀ s₁, callStep s c = some s₁ → Counts s₁ (n + ticked s c) := by
        intro s₁ hs
        have := hall [c] s₁ (List.prefix_cons_inj c |>.mpr (List.nil_prefix)) (by simp [hs])
        rwa [hticks hs] at this
      refine ⟨?_, fun s₁ hs => ?_⟩
      · cases hs : callStep s c with
        | none => cases c <;> trivial
        | some s₁ => exact (h.step_iff hacc hs).mp (hnext s₁ hs)
      · refine (ih (hnext s₁ hs) (hacc.step hs)).mp fun pre s' hpre hrun => ?_
        rw [← hticks hs]
        exact hall (c :: pre) s' (List.prefix_cons_inj c |>.mpr hpre)
          (by rw [run_cons, hs, Option.bind_some, hrun])
    · rintro ⟨hc, hok⟩ pre s' hpre hrun
      cases pre with
      | nil =>
        cases hrun
        exact h
      | cons c' pre =>
        obtain ⟨rfl, htail⟩ := List.cons_prefix_cons.mp hpre
        obtain ⟨s₁, hs, hrun⟩ := Option.bind_eq_some_iff.mp hrun
        rw [hticks hs]
        exact (ih ((h.step_iff hacc hs).mpr hc) (hacc.step hs)).mpr (hok s₁ hs) pre s' htail hrun

end Priorities

theorem counts_initOS (now : UInt64) : Counts (initOS now) fun _ => 0 := by
  intro t ht
  obtain rfl : t = 0 := Nat.lt_one_iff.mp ht
  rfl

/-- In the states of a run the priority of every thread is the number of timer interrupts that found
it running, if and only if no thread yields at priority 0 and no interrupt finds the greatest
priority. A yield keeps the priority if and only if it is not 0. -/
theorem priority_counts_ticks_iff (now : UInt64) (calls : List Call) :
    ((∀ pre s, pre <+: calls → run callStep (initOS now) pre = some s →
        ∀ t < s.created, (s.thread t).priority.toNat = ticks (initOS now) pre t) ↔
      RunOk callStep Compensated (initOS now) calls) ∧
    ∀ s : OS, ((myPthreadYield s).thread s.running).priority = (s.thread s.running).priority ↔
      0 < (s.thread s.running).priority := by
  refine ⟨?_, fun s => ?_⟩
  · have hiff := (counts_initOS now).run_iff ⟨among_initOS now, fun _ _ => rfl⟩ calls
    simpa only [Counts, Pi.add_apply, Nat.zero_add] using hiff
  · rw [priority_myPthreadYield, UInt32.pos_iff_ne_zero]
    constructor
    · intro heq hp
      rw [if_pos ⟨rfl, hp⟩, hp] at heq
      cases heq
    · intro hp
      rw [if_neg fun h => hp h.2]

/-- `mainThread` creates a thread, is interrupted, and the new thread yields at once: its priority
is 1 and no interrupt has found it running. -/
theorem yield_at_priority_zero :
    (run callStep (initOS 0) [.create 1, .tick, .yield]).map
        (fun s => (s.created, (s.thread 1).priority)) = some (2, 1) ∧
      ticks (initOS 0) [.create 1, .tick, .yield] 1 = 0 := by
  decide +kernel

end OSDesign
