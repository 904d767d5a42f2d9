import Mathlib.Tactic
import OSDesign.Lib.Transition
import OSDesign.Thread.Conservation
import OSDesign.Thread.ContextIntegrity

/-!
# Mutual exclusion

`testAndSet` loads the state word and stores 1 in two statements, with `SIGPROF` not masked. Two
threads that both load 0 before either of them stores both return from `my_pthread_mutex_lock`
(`two_threads_hold_mutex`). The theorem `mutual_exclusion` says that this, and the loss of a
context (`OSDesign.Thread.ContextIntegrity`), are the only ways in which the mutex fails.

The argument follows the position of each thread in the code. A thread claims the mutex from the
load that finds it free, through the time it holds it, to the store of 0 in
`my_pthread_mutex_unlock`; at most one thread claims it, and the state word is 1 from the store of
the thread that claims it on.

## Main definitions

* `Machine.position`: the statement at which a thread stands, whether it is executed or saved.
* `MutexUse`, `NoRace`: how the mutexes are used, and the interleaving that has to be excluded.
* `Exclusive`: the invariant.

## Main results

* `mutual_exclusion`, `two_threads_hold_mutex`.
-/

namespace OSDesign

open Transition

/-- A thread that was created and is not finished. -/
def OS.Live (s : OS) (t : Tid) : Prop := t < s.created ∧ (s.thread t).finished = false

instance (s : OS) (t : Tid) : Decidable (s.Live t) := inferInstanceAs (Decidable (_ ∧ _))

/-- The position a thread goes on from when its context is loaded. A thread that has exited does
not go on. -/
def Machine.savedPosition (s : Machine) (t : Tid) : Pc :=
  if s.os.Live t then (s.ctx t).pc else .user

/-- The statement at which a thread stands. -/
def Machine.position (s : Machine) (t : Tid) : Pc :=
  if t = s.cpu.owner then s.cpu.pc else s.savedPosition t

/-- The thread has set the state word of `m` to 1, and has to set it to 0. -/
def Pc.owns (m : Mid) : Pc → Bool
  | .lockTest m' old => m' == m && old != 1
  | .unlockMask m' | .unlockBody m' => m' == m
  | _ => false

/-- The thread has found `m` free, and has not yet set its state word to 1. -/
def Pc.found (m : Mid) : Pc → Bool
  | .tasStore m' old => m' == m && old != 1
  | _ => false

/-- The thread has found `m` free, and has not yet set its state word to 0. -/
def Pc.claims (m : Mid) (pc : Pc) : Bool := pc.found m || pc.owns m

/-- `t` holds `m`, or is about to take it or to give it up. -/
def Claims (m : Mid) (s : Machine) (t : Tid) : Prop :=
  s.holds m t = true ∨ (s.position t).claims m = true

/-- The state word of `m` is 1 on behalf of `t`. -/
def Owns (m : Mid) (s : Machine) (t : Tid) : Prop :=
  s.holds m t = true ∨ (s.position t).owns m = true

/-- The invariant of the mutex `m`. -/
structure Exclusive (m : Mid) (s : Machine) : Prop where
  unique : ∀ t u, Claims m s t → Claims m s u → t = u
  state : ∀ t, Owns m s t → (s.os.mutex m).state = 1
  /-- A thread in `my_pthread_mutex_unlock` no longer counts as holding the mutex. -/
  unlocking : ∀ t, s.position t = .unlockMask m ∨ s.position t = .unlockBody m →
    s.holds m t = false

theorem Pc.claims_eq_true {m : Mid} {pc : Pc} :
    pc.claims m = true ↔ pc.found m = true ∨ pc.owns m = true := by
  rw [Pc.claims, Bool.or_eq_true]

theorem Pc.claims_of_owns {m : Mid} {pc : Pc} (h : pc.owns m = true) : pc.claims m = true :=
  Pc.claims_eq_true.mpr (Or.inr h)

theorem Owns.claims {m : Mid} {s : Machine} {t : Tid} (h : Owns m s t) : Claims m s t :=
  h.imp id Pc.claims_of_owns

section Steps

variable {m : Mid} {s s' : Machine}

/-- A step of the thread `r`: the other threads keep their positions and what they hold. -/
structure OnlyMoves (m : Mid) (r : Tid) (s s' : Machine) : Prop where
  position : ∀ t, t ≠ r → s'.position t = s.position t
  holds : ∀ t, t ≠ r → s'.holds m t = s.holds m t

theorem OnlyMoves.claims_iff {r : Tid} (h : OnlyMoves m r s s') {t : Tid} (ht : t ≠ r) :
    Claims m s' t ↔ Claims m s t := by
  rw [Claims, Claims, h.position t ht, h.holds t ht]

theorem OnlyMoves.owns_iff {r : Tid} (h : OnlyMoves m r s s') {t : Tid} (ht : t ≠ r) :
    Owns m s' t ↔ Owns m s t := by
  rw [Owns, Owns, h.position t ht, h.holds t ht]

/-- A step of `r` keeps the invariant when `r` claims the mutex only if it did so before or nobody
else does, and the state word is 1 for the threads it has to be 1 for. -/
theorem Exclusive.step (h : Exclusive m s) {r : Tid} (hmove : OnlyMoves m r s s')
    (hclaim : Claims m s' r → Claims m s r ∨ ∀ t, t ≠ r → ¬ Claims m s t)
    (hstate : ∀ t, Owns m s' t → (s'.os.mutex m).state = 1)
    (hunlock : s'.position r = .unlockMask m ∨ s'.position r = .unlockBody m →
      s'.holds m r = false) : Exclusive m s' := by
  have hother (t : Tid) (ht : t ≠ r) (hr : Claims m s' r) (hc : Claims m s' t) : False := by
    have hct := (hmove.claims_iff ht).mp hc
    rcases hclaim hr with hcr | hnone
    · exact ht (h.unique t r hct hcr)
    · exact hnone t ht hct
  refine ⟨fun t u ht hu => ?_, hstate, fun t ht => ?_⟩
  · by_cases htr : t = r <;> by_cases hur : u = r
    · rw [htr, hur]
    · exact (hother u hur (htr ▸ ht) hu).elim
    · exact (hother t htr (hur ▸ hu) ht).elim
    · exact h.unique t u ((hmove.claims_iff htr).mp ht) ((hmove.claims_iff hur).mp hu)
  · by_cases htr : t = r
    · subst htr
      exact hunlock ht
    · rw [hmove.position t htr] at ht
      rw [hmove.holds t htr]
      exact h.unlocking t ht

/-- A step of `r` that leaves the state word alone and after which `r` owns or claims the mutex
only if it did so before. -/
theorem Exclusive.step_same (h : Exclusive m s) {r : Tid} (hmove : OnlyMoves m r s s')
    (hword : (s'.os.mutex m).state = (s.os.mutex m).state)
    (hclaim : Claims m s' r → Claims m s r) (howns : Owns m s' r → Owns m s r)
    (hunlock : s'.position r = .unlockMask m ∨ s'.position r = .unlockBody m →
      s'.holds m r = false) : Exclusive m s' := by
  refine h.step hmove (fun hc => Or.inl (hclaim hc)) (fun t ht => ?_) hunlock
  rw [hword]
  by_cases htr : t = r
  · subst htr
    exact h.state t (howns ht)
  · exact h.state t ((hmove.owns_iff htr).mp ht)

theorem Machine.position_owner (s : Machine) : s.position s.cpu.owner = s.cpu.pc :=
  if_pos rfl

theorem Machine.position_of_ne {t : Tid} (ht : t ≠ s.cpu.owner) :
    s.position t = s.savedPosition t :=
  if_neg ht

/-- After `setcontext` every thread stands where its context says. -/
theorem Machine.position_load (hl : s.os.Live s.os.running)
    (ho : (s.ctx s.os.running).owner = s.os.running) (t : Tid) :
    s.load.position t = s.savedPosition t := by
  by_cases ht : t = s.os.running
  · subst ht
    rw [Machine.position, Machine.cpu_load, ho, if_pos rfl, Machine.savedPosition, if_pos hl]
  · rw [Machine.position, Machine.cpu_load, ho, if_neg ht]
    rfl

/-- The thread on the processor goes on, the others keep their positions. -/
theorem onlyMoves_of_savedPosition (ho : s'.cpu.owner = s.cpu.owner)
    (hsaved : ∀ t, t ≠ s.cpu.owner → s'.savedPosition t = s.savedPosition t)
    (hholds : ∀ t, t ≠ s.cpu.owner → s'.holds m t = s.holds m t) :
    OnlyMoves m s.cpu.owner s s' where
  position t ht := by
    rw [Machine.position_of_ne (ho ▸ ht), Machine.position_of_ne ht, hsaved t ht]
  holds := hholds

/-- A statement of the thread on the processor that leaves the state word of `m` and the holders of
`m` alone, from a statement that claims (owns) `m` if the next one does. -/
theorem Exclusive.goOn (h : Exclusive m s) (ho : s'.cpu.owner = s.cpu.owner)
    (hsaved : ∀ t, t ≠ s.cpu.owner → s'.savedPosition t = s.savedPosition t)
    (hholds : s'.holds m = s.holds m) (hword : (s'.os.mutex m).state = (s.os.mutex m).state)
    (hclaim : s'.cpu.pc.claims m = true → s.cpu.pc.claims m = true)
    (howns : s'.cpu.pc.owns m = true → s.cpu.pc.owns m = true)
    (hunlock : s'.cpu.pc = .unlockMask m ∨ s'.cpu.pc = .unlockBody m →
      s.cpu.pc = .unlockMask m ∨ s.cpu.pc = .unlockBody m) : Exclusive m s' := by
  have hpos : s'.position s.cpu.owner = s'.cpu.pc := ho ▸ s'.position_owner
  refine h.step_same (onlyMoves_of_savedPosition ho hsaved fun t _ => by rw [hholds]) hword ?_ ?_ ?_
  · rw [Claims, Claims, hpos, hholds, s.position_owner]
    exact Or.imp_right hclaim
  · rw [Owns, Owns, hpos, hholds, s.position_owner]
    exact Or.imp_right howns
  · rw [hpos, hholds]
    intro hu
    exact h.unlocking _ (by rw [s.position_owner]; exact hunlock hu)

/-- A statement that claims nothing follows. -/
theorem Exclusive.goOn_plain (h : Exclusive m s) (ho : s'.cpu.owner = s.cpu.owner)
    (hsaved : ∀ t, t ≠ s.cpu.owner → s'.savedPosition t = s.savedPosition t)
    (hholds : s'.holds m = s.holds m) (hword : (s'.os.mutex m).state = (s.os.mutex m).state)
    (hpc : s'.cpu.pc.claims m = false) : Exclusive m s' := by
  have howns : s'.cpu.pc.owns m ≠ true := fun hw =>
    absurd (Pc.claims_of_owns hw) (by simp [hpc])
  refine h.goOn ho hsaved hholds hword (fun hc => absurd hc (by simp [hpc]))
    (fun hw => absurd hw howns) fun hu => absurd ?_ howns
  rcases hu with hu | hu <;> simp [hu, Pc.owns]

/-- Another thread goes on. The one that leaves the processor resumes where it was, or at a
statement that claims nothing. -/
theorem Exclusive.switch (h : Exclusive m s) (hload : ∀ t, s'.position t = s'.savedPosition t)
    (hsaved : ∀ t, t ≠ s.cpu.owner → s'.savedPosition t = s.savedPosition t)
    (hholds : s'.holds m = s.holds m) (hword : (s'.os.mutex m).state = (s.os.mutex m).state)
    (hpc : s'.savedPosition s.cpu.owner = s.cpu.pc ∨
      (s'.savedPosition s.cpu.owner).claims m = false) : Exclusive m s' := by
  have hmove : OnlyMoves m s.cpu.owner s s' := by
    refine ⟨fun t ht => ?_, fun t _ => by rw [hholds]⟩
    rw [hload, Machine.position_of_ne ht, hsaved t ht]
  refine h.step_same hmove hword ?_ ?_ ?_
  all_goals
    rw [← hload] at hpc
    rcases hpc with hpc | hpc
  · rw [Claims, Claims, hpc, hholds, s.position_owner]
    exact id
  · rw [Claims, Claims, hholds, hpc]
    exact fun hc => Or.inl (hc.resolve_right (by simp))
  · rw [Owns, Owns, hpc, hholds, s.position_owner]
    exact id
  · rw [Owns, Owns, hholds]
    exact fun hc => Or.inl (hc.resolve_right fun hw =>
      absurd (Pc.claims_of_owns hw) (by simp [hpc]))
  · rw [hpc, hholds]
    intro hu
    exact h.unlocking _ (by rwa [s.position_owner])
  · intro hu
    rcases hu with hu | hu <;> simp [hu, Pc.claims, Pc.found, Pc.owns] at hpc

end Steps

/-! ### What the sections change in the library -/

/-- The library calls are made as in `OSDesign.Thread.Conservation`: a mutex is unlocked only by
the thread that holds it, the mutexes are initialised, a joined thread is a created one, and there
is a thread to run when a thread blocks in a join or exits. -/
def MutexUse (s : Machine) : Event → Prop
  | .call (.unlock m) => s.holds m s.cpu.owner = true
  | .exec =>
    match s.cpu.pc with
    | .joinBody t valuePtr => CallAllowed s.os (.join t valuePtr)
    | .exitBody res _ => CallAllowed s.os (.exit res)
    | .lockBody m | .unlockBody m => m < s.os.mutexes
    | _ => True
  | _ => True

/-- When a thread loads the state word of `m` and finds the mutex free, no other thread stands
between its own such load and its store. -/
def NoRace (m : Mid) (s : Machine) : Event → Prop
  | .exec => s.cpu.pc = .tasLoad m → (s.os.mutex m).state ≠ 1 →
      ∀ t, t ≠ s.cpu.owner → (s.position t).found m = false
  | _ => True

theorem exitSection_eq_some {s s' : Machine} {res : Option ℕ} {inRun : Bool}
    (h : s.exitSection res inRun = some s') :
    ∃ os pc, threadExit res s.os = some os ∧ s' = (s.setOS os).goto pc ∧
      (pc = .exitReturn inRun ∨ pc = .exitRestore) := by
  obtain ⟨os, hdrain, h⟩ := Option.bind_eq_some_iff.mp h
  split_ifs at h with hnil
  · refine ⟨os, _, ?_, (Option.some.inj h).symm, Or.inl rfl⟩
    rw [threadExit, hdrain, Option.bind_some, if_pos hnil]
  · obtain ⟨os', hswitch, rfl⟩ := Option.map_eq_some_iff.mp h
    refine ⟨os', _, ?_, rfl, Or.inr rfl⟩
    rw [threadExit, hdrain, Option.bind_some, if_neg hnil, hswitch]

theorem joinSection_eq_some {s s' : Machine} {t : Tid} {valuePtr : Bool}
    (h : s.joinSection t valuePtr = some s') :
    ∃ os pc, myPthreadJoin t false s.os = some os ∧ s' = (s.setOS os).goto pc ∧
      (pc = .joinValue t valuePtr ∨ pc = .joinRestore s.os.running t valuePtr) := by
  unfold Machine.joinSection at h
  split_ifs at h with hfin
  · refine ⟨s.os, _, ?_, (Option.some.inj h).symm, Or.inl rfl⟩
    rw [myPthreadJoin, if_pos hfin]
    rfl
  · obtain ⟨os, hpush, h⟩ := Option.bind_eq_some_iff.mp h
    split_ifs at h with hnil
    · refine ⟨_, _, ?_, (Option.some.inj h).symm, Or.inl rfl⟩
      rw [myPthreadJoin, if_neg hfin, hpush, Option.bind_some, if_pos hnil]
      rfl
    · obtain ⟨os', hswitch, rfl⟩ := Option.map_eq_some_iff.mp h
      refine ⟨os', _, ?_, rfl, Or.inr rfl⟩
      rw [myPthreadJoin, if_neg hfin, hpush, Option.bind_some, if_neg hnil, hswitch]

/-- A change of the library that touches no mutex, creates no thread, and finishes no thread but
possibly `r`. -/
structure KeepsThreads (r : Option Tid) (s s' : OS) : Prop where
  created : s'.created = s.created
  mutexes : s'.mutexes = s.mutexes
  finished : ∀ t, some t ≠ r → (s'.thread t).finished = (s.thread t).finished
  state : ∀ m, (s'.mutex m).state = (s.mutex m).state

section KeepsThreads

variable {s s' s'' : OS} {r : Option Tid}

theorem KeepsThreads.trans (h : KeepsThreads r s s') (h' : KeepsThreads r s' s'') :
    KeepsThreads r s s'' where
  created := h'.created.trans h.created
  mutexes := h'.mutexes.trans h.mutexes
  finished t ht := (h'.finished t ht).trans (h.finished t ht)
  state m := (h'.state m).trans (h.state m)

theorem KeepsThreads.live_iff (h : KeepsThreads r s s') {t : Tid} (ht : some t ≠ r) :
    s'.Live t ↔ s.Live t := by
  rw [OS.Live, OS.Live, h.created, h.finished t ht]

theorem keepsThreads_modifyThread (s : OS) (u : Tid) {f : Sthread → Sthread}
    (hf : ∀ r, (f r).finished = r.finished) : KeepsThreads r s (s.modifyThread u f) :=
  ⟨rfl, rfl, fun t _ => finished_modifyThread s u hf t, fun _ => rfl⟩

theorem keepsThreads_switchNext (h : switchNext s = some s') : KeepsThreads r s s' := by
  unfold switchNext at h
  split at h <;> cases h
  exact ⟨rfl, rfl, fun _ _ => rfl, fun _ => rfl⟩

theorem keepsThreads_scheduler (s : OS) : KeepsThreads r s (scheduler s) where
  created := created_scheduler s
  mutexes := by
    simp only [scheduler, rotate, agePriority, maintenance, OS.modifyThread, OS.setThread]
    split <;> split_ifs <;> rfl
  finished t _ := finished_scheduler s t
  state m := by rw [mutex_scheduler]

theorem keepsThreads_yieldPriority (s : OS) : KeepsThreads r s (yieldPriority s) := by
  unfold yieldPriority
  split_ifs
  · refine keepsThreads_modifyThread s _ ?_
    exact fun _ => rfl
  · exact ⟨rfl, rfl, fun _ _ => rfl, fun _ => rfl⟩

theorem keepsThreads_threadExit {res : Option ℕ} (h : threadExit res s = some s') :
    KeepsThreads (some s.running) s s' := by
  obtain ⟨s₁, hdrain, h⟩ := Option.bind_eq_some_iff.mp h
  obtain ⟨joiners, -, rfl⟩ := Option.map_eq_some_iff.mp hdrain
  have h₁ : KeepsThreads (some s.running) s (((markFinished res s).modifyThread s.running
      fun r => { r with waitJoin := some [] }).setRun
        (joiners.foldl (Queue.pushOrdered (markFinished res s).prio) s.run)) := by
    refine ⟨rfl, rfl, fun t ht => ?_, fun _ => rfl⟩
    have ht : t ≠ s.running := fun he => ht (he ▸ rfl)
    simp [markFinished, OS.modifyThread, OS.setThread, OS.setRun, Function.update_of_ne ht]
  split_ifs at h
  · cases h
    exact h₁
  · exact h₁.trans (keepsThreads_switchNext h)

theorem keepsThreads_myPthreadJoin {t : Tid} {valuePtr : Bool}
    (h : myPthreadJoin t valuePtr s = some s') : KeepsThreads r s s' := by
  unfold myPthreadJoin at h
  split_ifs at h
  · obtain ⟨_, _, rfl⟩ := Option.map_eq_some_iff.mp h
    exact ⟨rfl, rfl, fun _ _ => rfl, fun _ => rfl⟩
  · obtain ⟨s₁, hpush, h⟩ := Option.bind_eq_some_iff.mp h
    obtain ⟨joiners, -, rfl⟩ := Option.map_eq_some_iff.mp hpush
    have h₁ : KeepsThreads r s (s.modifyThread t fun r => { r with
        waitJoin := some (Queue.pushOrdered s.prio joiners s.running) }) := by
      refine keepsThreads_modifyThread s t ?_
      exact fun _ => rfl
    split_ifs at h
    · obtain ⟨_, _, rfl⟩ := Option.map_eq_some_iff.mp h
      exact h₁.trans ⟨rfl, rfl, fun _ _ => rfl, fun _ => rfl⟩
    · exact h₁.trans (keepsThreads_switchNext h)

theorem keepsThreads_lockBlock {m : Mid} (h : lockBlock m s = some s') : KeepsThreads r s s' := by
  have hpush : KeepsThreads r s
      (s.setMutex m ⟨(s.mutex m).state, Queue.push (s.mutex m).wait s.running⟩) := by
    refine ⟨rfl, rfl, fun _ _ => rfl, fun m' => ?_⟩
    by_cases hm : m' = m
    · subst hm
      rw [OS.mutex_setMutex_self]
    · rw [OS.mutex_setMutex_of_ne _ _ _ hm]
  exact hpush.trans (keepsThreads_switchNext h)

theorem mutex_myPthreadMutexUnlock_of_ne {m m' : Mid} (hm : m' ≠ m) (s : OS) :
    (myPthreadMutexUnlock m s).mutex m' = s.mutex m' := by
  unfold myPthreadMutexUnlock
  split <;> simp [OS.mutex_setMutex_of_ne _ _ _ hm]

theorem live_myPthreadMutexUnlock (m : Mid) (s : OS) (t : Tid) :
    (myPthreadMutexUnlock m s).Live t ↔ s.Live t := by
  unfold myPthreadMutexUnlock
  split <;> rfl

end KeepsThreads

/-- Every statement conserves the threads. -/
theorem conserved_exec {s s' : Machine} (h : Conserved s.os) (hok : MutexUse s .exec)
    (hs : s.exec = some s') : Conserved s'.os := by
  unfold Machine.exec at hs
  simp only [MutexUse] at hok
  cases hpc : s.cpu.pc with
  | user | done => simp [hpc] at hs
  | createMask | yieldMask | runMask | exitMask | joinMask | lockMask | unlockMask | createRestore
  | yieldRestore | exitRestore | exitReturn | joinRestore | joinReturn | lockRestore | lockElse
  | unlockRestore | exitSwitch | joinSwitch | lockSwitch | tasLoad =>
    simp only [hpc, Option.some.injEq] at hs
    subst hs
    exact h
  | createBody now =>
    simp only [hpc, Option.some.injEq] at hs
    subst hs
    exact h.myPthreadCreate now
  | yieldBody =>
    simp only [hpc, Option.some.injEq] at hs
    subst hs
    exact h.yieldPriority.scheduler
  | exitBody res inRun =>
    simp only [hpc] at hs hok
    obtain ⟨os, pc, hexit, rfl, _⟩ := exitSection_eq_some hs
    exact h.threadExit hok.2 hexit
  | joinBody t valuePtr =>
    simp only [hpc] at hs hok
    obtain ⟨os, pc, hjoin, rfl, _⟩ := joinSection_eq_some hs
    exact h.myPthreadJoin hok.2.1 hok.2.2 hjoin
  | joinValue t valuePtr =>
    simp only [hpc] at hs
    obtain ⟨_, _, rfl⟩ := Option.map_eq_some_iff.mp hs
    exact h
  | tasStore m old =>
    simp only [hpc, Option.some.injEq] at hs
    subst hs
    exact h.testAndSet m
  | lockTest m old =>
    simp only [hpc] at hs
    split_ifs at hs <;> obtain rfl := Option.some.inj hs <;> exact h
  | lockBody m =>
    simp only [hpc] at hs hok
    split_ifs at hs with hstate
    · obtain ⟨os, hblock, rfl⟩ := Option.map_eq_some_iff.mp hs
      exact h.lockSection hok (by rw [lockSection, if_pos hstate, hblock]; rfl)
    · obtain rfl := Option.some.inj hs
      exact h
  | unlockBody m =>
    simp only [hpc, Option.some.injEq] at hs hok
    subst hs
    exact h.myPthreadMutexUnlock hok

/-! ### The invariant -/

/-- All that is needed about a state to go on. -/
structure ExclusionInv (m : Mid) (s : Machine) : Prop where
  contexts : ContextInv s
  conserved : Conserved s.os
  initialised : m < s.os.mutexes
  /-- A thread that leaves the processor for good is finished. -/
  exited : s.cpu.pc = .exitRestore ∨ s.cpu.pc = .exitSwitch →
    (s.os.thread s.cpu.owner).finished = true
  exclusive : Exclusive m s

section Exec

variable {m : Mid} {s s' : Machine}

theorem Machine.savedPosition_congr {t : Tid} (hlive : s'.os.Live t ↔ s.os.Live t)
    (hctx : s'.ctx t = s.ctx t) : s'.savedPosition t = s.savedPosition t := by
  simp only [Machine.savedPosition, hlive, hctx]

/-- A section of the thread on the processor that keeps the threads. -/
theorem Exclusive.goOn_section (h : Exclusive m s) {os : OS} {c : Cont} {r : Option Tid}
    (hk : KeepsThreads r s.os os) (hr : r = none ∨ r = some s.cpu.owner)
    (ho : c.owner = s.cpu.owner) (hpc : c.pc.claims m = false) :
    Exclusive m ((s.setOS os).setCpu c) := by
  refine h.goOn_plain ho (fun t ht => Machine.savedPosition_congr (hk.live_iff ?_) rfl) rfl
    (hk.state m) hpc
  rcases hr with rfl | rfl
  · exact nofun
  · exact fun he => ht (Option.some.inj he)

/-- A statement of the thread on the processor that changes nothing in the library. -/
theorem Exclusive.goOn_cpu (h : Exclusive m s) {c : Cont} (ho : c.owner = s.cpu.owner)
    (hpc : c.pc.claims m = false) : Exclusive m (s.setCpu c) :=
  h.goOn_plain ho (fun _ _ => rfl) rfl rfl hpc

/-- The continuation of the thread on the processor is saved, and another one is loaded. -/
theorem ExclusionInv.saveLoad (h : ExclusionInv m s) {o : OS} {c : Cont}
    (hk : KeepsThreads none s.os o) (hos : Conserved o)
    (hctx : ContextInv ((s.save s.cpu.owner c).setOS o).load)
    (hpc : c.pc = s.cpu.pc ∨ c.pc.claims m = false) :
    Exclusive m ((s.save s.cpu.owner c).setOS o).load := by
  have hlive := hos.running_lt
  refine h.exclusive.switch (Machine.position_load hlive (hctx.saved _).owner) (fun t ht => ?_)
    rfl (hk.state m) ?_
  · exact Machine.savedPosition_congr (hk.live_iff nofun) (Function.update_of_ne ht ..)
  · by_cases hl : o.Live s.cpu.owner
    · have hsaved : ((s.save s.cpu.owner c).setOS o).load.savedPosition s.cpu.owner = c.pc := by
        rw [Machine.savedPosition]
        simp [hl]
      rwa [hsaved]
    · refine Or.inr ?_
      rw [Machine.savedPosition]
      simp [hl, Pc.claims, Pc.found, Pc.owns]

/-- `setcontext` at the end of `threadExit`: the thread on the processor does not come back. -/
theorem ExclusionInv.exit (h : ExclusionInv m s) (hpc : s.cpu.pc = .exitSwitch) :
    Exclusive m s.load := by
  have hfin := h.exited (Or.inr hpc)
  refine h.exclusive.switch (Machine.position_load h.conserved.running_lt
    (h.contexts.saved _).owner) (fun _ _ => rfl) rfl rfl (Or.inr ?_)
  rw [Machine.savedPosition, if_neg]
  · rfl
  · intro hl
    exact absurd hl.2 (by simp [hfin])

/-- The new thread stands at the start of its code. -/
theorem ExclusionInv.create (h : ExclusionInv m s) (now : UInt64) :
    Exclusive m (((s.setOS (myPthreadCreate now s.os)).save s.os.created
      (Cont.fresh s.os.created)).goto .createRestore) := by
  refine h.exclusive.goOn_plain rfl (fun t _ => ?_) rfl rfl rfl
  by_cases ht : t = s.os.created
  · subst ht
    have hnew : ¬ s.os.Live s.os.created := fun hl => absurd hl.1 (lt_irrefl _)
    rw [Machine.savedPosition, Machine.savedPosition, if_neg hnew]
    simp
  · refine Machine.savedPosition_congr ?_ (Function.update_of_ne ht ..)
    have hlt : t < s.os.created + 1 ↔ t < s.os.created := by
      rw [Nat.lt_succ_iff, le_iff_lt_or_eq, or_iff_left ht]
    simp [OS.Live, myPthreadCreate, createNewThread, OS.pushRun, OS.setRun, hlt,
      Function.update_of_ne ht]

/-- The load of `testAndSet`. A thread that finds the mutex free is the only one to claim it: the
word would be 1 if another one held it, and nobody else stands before the store. -/
theorem ExclusionInv.tasLoad (h : ExclusionInv m s) {m' : Mid} (hpc : s.cpu.pc = .tasLoad m')
    (hrace : NoRace m s .exec) : Exclusive m (s.goto (.tasStore m' (s.os.mutex m').state)) := by
  by_cases hfree : m' = m ∧ (s.os.mutex m').state ≠ 1
  · obtain ⟨rfl, hfree⟩ := hfree
    have hnobody (t : Tid) (ht : t ≠ s.cpu.owner) : ¬ Claims m' s t := by
      intro hc
      have hnot : ¬ Owns m' s t := fun ho => hfree (h.exclusive.state t ho)
      rcases hc with hh | hc
      · exact hnot (Or.inl hh)
      · rcases Pc.claims_eq_true.mp hc with hfound | ho
        · exact absurd hfound (by simp [hrace hpc hfree t ht])
        · exact hnot (Or.inr ho)
    have hmove : OnlyMoves m' s.cpu.owner s (s.goto (.tasStore m' (s.os.mutex m').state)) :=
      onlyMoves_of_savedPosition rfl (fun _ _ => rfl) fun _ _ => rfl
    have hpos : (s.goto (.tasStore m' (s.os.mutex m').state)).position s.cpu.owner =
        .tasStore m' (s.os.mutex m').state := Machine.position_owner _
    refine h.exclusive.step hmove (fun _ => Or.inr hnobody) (fun t ht => ?_) fun hu => ?_
    · by_cases hr : t = s.cpu.owner
      · subst hr
        rw [Owns, hpos] at ht
        exact h.exclusive.state _ (Or.inl (ht.resolve_right (by simp [Pc.owns])))
      · exact absurd ((hmove.owns_iff hr).mp ht).claims (hnobody t hr)
    · rw [hpos] at hu
      simp at hu
  · refine h.exclusive.goOn_cpu rfl ?_
    simpa [Pc.claims, Pc.found, Pc.owns] using hfree

/-- The store of `testAndSet`. -/
theorem ExclusionInv.tasStore (h : ExclusionInv m s) {m' : Mid} {old : ℕ}
    (hpc : s.cpu.pc = .tasStore m' old) :
    Exclusive m ((s.setOS (s.os.setMutex m' ⟨1, (s.os.mutex m').wait⟩)).goto
      (.lockTest m' old)) := by
  by_cases hm : m' = m
  · subst hm
    have hpos : ((s.setOS (s.os.setMutex m' ⟨1, (s.os.mutex m').wait⟩)).goto
        (.lockTest m' old)).position s.cpu.owner = .lockTest m' old := Machine.position_owner _
    refine h.exclusive.step (onlyMoves_of_savedPosition rfl (fun _ _ => rfl) fun _ _ => rfl)
      (fun hc => Or.inl ?_) (fun _ _ => by simp) fun hu => ?_
    · rw [Claims, hpos] at hc
      rw [Claims, s.position_owner, hpc]
      simpa [Pc.claims, Pc.found, Pc.owns] using hc
    · rw [hpos] at hu
      simp at hu
  · refine h.exclusive.goOn_plain rfl (fun _ _ => rfl) rfl ?_
      (by simp [Pc.claims, Pc.found, Pc.owns, hm])
    simp [OS.mutex_setMutex_of_ne _ _ _ (Ne.symm hm)]

/-- `testAndSet` has returned something else than 1: the lock is taken. -/
theorem ExclusionInv.lockReturn (h : ExclusionInv m s) {m' : Mid} {old : ℕ}
    (hpc : s.cpu.pc = .lockTest m' old) (hold : old ≠ 1) :
    Exclusive m ((s.goto .user).setHolds m' s.cpu.owner true) := by
  have hpos : ((s.goto .user).setHolds m' s.cpu.owner true).position s.cpu.owner = .user :=
    Machine.position_owner _
  by_cases hm : m' = m
  · subst hm
    have howns : Owns m' s s.cpu.owner := by
      right
      rw [s.position_owner, hpc]
      simp [Pc.owns, hold]
    refine h.exclusive.step_same (r := s.cpu.owner)
      (onlyMoves_of_savedPosition rfl (fun _ _ => rfl) fun t ht =>
        Machine.holds_setHolds_of_ne _ _ _ _ (Or.inr ht)) rfl (fun _ => howns.claims)
      (fun _ => howns) fun hu => ?_
    rw [hpos] at hu
    simp at hu
  · refine h.exclusive.goOn_plain rfl (fun _ _ => rfl) ?_ rfl rfl
    funext t
    exact Machine.holds_setHolds_of_ne _ _ _ _ (Or.inl (Ne.symm hm))

/-- The store of `my_pthread_mutex_unlock`: nobody claims the mutex any more. -/
theorem ExclusionInv.unlockBody (h : ExclusionInv m s) {m' : Mid}
    (hpc : s.cpu.pc = .unlockBody m') :
    Exclusive m ((s.setOS (myPthreadMutexUnlock m' s.os)).goto .unlockRestore) := by
  have hsaved (t : Tid) : ((s.setOS (myPthreadMutexUnlock m' s.os)).goto
      .unlockRestore).savedPosition t = s.savedPosition t :=
    Machine.savedPosition_congr (live_myPthreadMutexUnlock m' s.os t) rfl
  by_cases hm : m' = m
  · subst hm
    have hpos : ((s.setOS (myPthreadMutexUnlock m' s.os)).goto .unlockRestore).position
        s.cpu.owner = .unlockRestore := Machine.position_owner _
    have hmove : OnlyMoves m' s.cpu.owner s
        ((s.setOS (myPthreadMutexUnlock m' s.os)).goto .unlockRestore) :=
      onlyMoves_of_savedPosition rfl (fun t _ => hsaved t) fun _ _ => rfl
    have hpos₀ : s.position s.cpu.owner = .unlockBody m' := by rw [s.position_owner, hpc]
    have hself : Claims m' s s.cpu.owner := by
      right
      rw [hpos₀]
      simp [Pc.claims, Pc.found, Pc.owns]
    have hholds := h.exclusive.unlocking s.cpu.owner (Or.inr hpos₀)
    have hnobody (t : Tid) : ¬ Claims m' ((s.setOS (myPthreadMutexUnlock m' s.os)).goto
        .unlockRestore) t := by
      intro hc
      by_cases hr : t = s.cpu.owner
      · subst hr
        rw [Claims, hpos] at hc
        simp [Pc.claims, Pc.found, Pc.owns, hholds] at hc
      · exact hr (h.exclusive.unique t _ ((hmove.claims_iff hr).mp hc) hself)
    refine h.exclusive.step hmove (fun hc => absurd hc (hnobody _))
      (fun t ht => absurd ht.claims (hnobody t)) fun hu => ?_
    rw [hpos] at hu
    simp at hu
  · refine h.exclusive.goOn_plain rfl (fun t _ => hsaved t) rfl ?_ rfl
    simp [mutex_myPthreadMutexUnlock_of_ne (Ne.symm hm)]

/-- `interrupt` and `scheduler`, for the thread that `*running` names. -/
theorem ExclusionInv.interrupt (h : ExclusionInv m s) {o : OS} {pc : Pc}
    (hr : o.running = s.cpu.owner) (hk : KeepsThreads none s.os o) (hos : Conserved o)
    (hctx : ContextInv ((s.setOS o).interrupt pc))
    (hpc : pc = s.cpu.pc ∨ pc.claims m = false) :
    Exclusive m ((s.setOS o).interrupt pc) := by
  have heq : (s.setOS o).interrupt pc =
      ((s.save s.cpu.owner (s.cpu.goto pc)).setOS (scheduler o)).load := by
    rw [← hr]
    rfl
  rw [heq] at hctx ⊢
  exact h.saveLoad (hk.trans (keepsThreads_scheduler o)) hos.scheduler hctx hpc

/-- `swapcontext` to the context of `*running`. -/
theorem ExclusionInv.swap (h : ExclusionInv m s) {old : Tid} {pc : Pc}
    (hold : s.cpu.pc.old = some old) (hctx : ContextInv (s.swap old pc))
    (hpc : pc.claims m = false) : Exclusive m (s.swap old pc) := by
  obtain rfl := h.contexts.wellFormed.old old hold
  exact h.saveLoad (o := s.os) ⟨rfl, rfl, fun _ _ => rfl, fun _ => rfl⟩ h.conserved hctx
    (Or.inr hpc)

/-- Every statement keeps the mutex exclusive. -/
theorem exclusive_exec (h : ExclusionInv m s) (hrace : NoRace m s .exec)
    (hs : s.exec = some s') : Exclusive m s' := by
  have hctx := contextInv_exec h.contexts hs
  have hatt := h.contexts.attached
  have hgo {c : Cont} := @Exclusive.goOn_cpu m s h.exclusive c
  have hswap {old : Tid} {pc : Pc} := @ExclusionInv.swap m s h old pc
  unfold Machine.exec at hs
  cases hpc : s.cpu.pc with
  | user | done => simp [hpc] at hs
  | createMask | yieldMask | runMask | exitMask | joinMask | lockMask | createRestore
  | yieldRestore | exitRestore | joinRestore | joinReturn | lockRestore | lockElse
  | unlockRestore =>
    simp only [hpc, Option.some.injEq] at hs
    subst hs
    exact hgo rfl rfl
  | exitReturn inRun =>
    simp only [hpc, Option.some.injEq] at hs
    subst hs
    cases inRun <;> exact hgo rfl rfl
  | unlockMask m' =>
    simp only [hpc, Option.some.injEq] at hs
    subst hs
    refine h.exclusive.goOn rfl (fun _ _ => rfl) rfl rfl ?_ ?_ ?_ <;>
      simp [hpc, Pc.claims, Pc.found, Pc.owns]
  | createBody now =>
    simp only [hpc, Option.some.injEq] at hs
    subst hs
    exact h.create now
  | yieldBody =>
    simp only [hpc, Option.some.injEq] at hs hatt
    subst hs
    exact h.interrupt ((running_yieldPriority s.os).trans (hatt rfl).symm)
      (keepsThreads_yieldPriority s.os) h.conserved.yieldPriority hctx (Or.inr rfl)
  | exitBody res inRun =>
    simp only [hpc] at hs hatt
    obtain ⟨os, pc, hexit, rfl, hpc'⟩ := exitSection_eq_some hs
    refine h.exclusive.goOn_section (keepsThreads_threadExit hexit)
      (Or.inr (by rw [hatt rfl])) rfl ?_
    rcases hpc' with rfl | rfl <;> rfl
  | joinBody t valuePtr =>
    simp only [hpc] at hs
    obtain ⟨os, pc, hjoin, rfl, hpc'⟩ := joinSection_eq_some hs
    refine h.exclusive.goOn_section (keepsThreads_myPthreadJoin hjoin) (Or.inl rfl) rfl ?_
    rcases hpc' with rfl | rfl <;> rfl
  | joinValue t valuePtr =>
    simp only [hpc] at hs
    obtain ⟨_, _, rfl⟩ := Option.map_eq_some_iff.mp hs
    exact hgo rfl rfl
  | exitSwitch =>
    simp only [hpc, Option.some.injEq] at hs
    subst hs
    exact h.exit hpc
  | joinSwitch | lockSwitch =>
    simp only [hpc, Option.some.injEq] at hs hswap
    subst hs
    exact hswap rfl hctx rfl
  | tasLoad m' =>
    simp only [hpc, Option.some.injEq] at hs
    subst hs
    exact h.tasLoad hpc hrace
  | tasStore m' old =>
    simp only [hpc, Option.some.injEq] at hs
    subst hs
    exact h.tasStore hpc
  | lockTest m' old =>
    simp only [hpc] at hs
    split_ifs at hs with hold <;> obtain rfl := Option.some.inj hs
    · exact hgo rfl rfl
    · exact h.lockReturn hpc hold
  | lockBody m' =>
    simp only [hpc] at hs
    split_ifs at hs
    · obtain ⟨os, hblock, rfl⟩ := Option.map_eq_some_iff.mp hs
      exact h.exclusive.goOn_section (keepsThreads_lockBlock hblock) (Or.inl rfl) rfl rfl
    · obtain rfl := Option.some.inj hs
      exact hgo rfl rfl
  | unlockBody m' =>
    simp only [hpc, Option.some.injEq] at hs
    subst hs
    exact h.unlockBody hpc

theorem finished_threadExit {s s' : OS} {res : Option ℕ} (h : threadExit res s = some s') :
    (s'.thread s.running).finished = true := by
  obtain ⟨s₁, hdrain, h⟩ := Option.bind_eq_some_iff.mp h
  obtain ⟨joiners, -, rfl⟩ := Option.map_eq_some_iff.mp hdrain
  split_ifs at h
  · cases h
    simp [markFinished, OS.modifyThread, OS.setThread, OS.setRun]
  · rw [(created_thread_switchNext h).2]
    simp [markFinished, OS.modifyThread, OS.setThread, OS.setRun]

/-- Only the section of `threadExit` leads to the statements after it, and it finishes the
thread. -/
theorem exited_exec (h : ExclusionInv m s) (hs : s.exec = some s')
    (hpc' : s'.cpu.pc = .exitRestore ∨ s'.cpu.pc = .exitSwitch) :
    (s'.os.thread s'.cpu.owner).finished = true := by
  have hdet : s'.cpu.pc.detached = true := by rcases hpc' with hpc' | hpc' <;> rw [hpc'] <;> rfl
  have hload (s₁ : Machine) (hs₁ : s' = s₁.load) : False := by
    have hsaved := ((contextInv_exec h.contexts hs).saved s'.os.running).attached
    subst hs₁
    exact absurd (hsaved.symm.trans hdet) (by decide)
  have hatt := h.contexts.attached
  have hexit := h.exited
  unfold Machine.exec at hs
  cases hpc : s.cpu.pc with
  | user | done => simp [hpc] at hs
  | createMask | yieldMask | runMask | exitMask | joinMask | lockMask | unlockMask
  | createRestore | yieldRestore | joinRestore | joinReturn | lockRestore | lockElse
  | unlockRestore | createBody | unlockBody | tasLoad | tasStore =>
    simp only [hpc, Option.some.injEq] at hs
    subst hs
    simp at hpc'
  | yieldBody | exitSwitch | joinSwitch | lockSwitch =>
    simp only [hpc, Option.some.injEq] at hs
    exact (hload _ hs.symm).elim
  | exitReturn inRun =>
    simp only [hpc, Option.some.injEq] at hs
    subst hs
    cases inRun <;> simp at hpc'
  | exitBody res inRun =>
    simp only [hpc] at hs hatt
    obtain ⟨os, pc, hex, rfl, _⟩ := exitSection_eq_some hs
    have hfin := finished_threadExit hex
    rw [← hatt rfl] at hfin
    exact hfin
  | exitRestore =>
    simp only [hpc, Option.some.injEq] at hs hexit
    subst hs
    exact hexit (Or.inl trivial)
  | joinBody t valuePtr =>
    simp only [hpc] at hs
    obtain ⟨os, pc, hjoin, rfl, hpc₁⟩ := joinSection_eq_some hs
    rcases hpc₁ with rfl | rfl <;> simp at hpc'
  | joinValue t valuePtr =>
    simp only [hpc] at hs
    obtain ⟨_, _, rfl⟩ := Option.map_eq_some_iff.mp hs
    simp at hpc'
  | lockTest m' old =>
    simp only [hpc] at hs
    split_ifs at hs <;> obtain rfl := Option.some.inj hs <;> simp at hpc'
  | lockBody m' =>
    simp only [hpc] at hs
    split_ifs at hs
    · obtain ⟨os, _, rfl⟩ := Option.map_eq_some_iff.mp hs
      simp at hpc'
    · obtain rfl := Option.some.inj hs
      simp at hpc'

/-- No statement hands out or takes back mutexes. -/
theorem mutexes_exec (hs : s.exec = some s') : s'.os.mutexes = s.os.mutexes := by
  unfold Machine.exec at hs
  cases hpc : s.cpu.pc with
  | user | done => simp [hpc] at hs
  | createMask | yieldMask | runMask | exitMask | joinMask | lockMask | unlockMask
  | createRestore | yieldRestore | exitRestore | exitReturn | joinRestore | joinReturn
  | lockRestore | lockElse | unlockRestore | exitSwitch | joinSwitch | lockSwitch | tasLoad
  | tasStore | createBody =>
    simp only [hpc, Option.some.injEq] at hs
    subst hs
    rfl
  | yieldBody =>
    simp only [hpc, Option.some.injEq] at hs
    subst hs
    exact ((keepsThreads_yieldPriority s.os).trans (r := none) (keepsThreads_scheduler _)).mutexes
  | exitBody res inRun =>
    simp only [hpc] at hs
    obtain ⟨os, pc, hexit, rfl, _⟩ := exitSection_eq_some hs
    exact (keepsThreads_threadExit hexit).mutexes
  | joinBody t valuePtr =>
    simp only [hpc] at hs
    obtain ⟨os, pc, hjoin, rfl, _⟩ := joinSection_eq_some hs
    exact (keepsThreads_myPthreadJoin (r := none) hjoin).mutexes
  | joinValue t valuePtr =>
    simp only [hpc] at hs
    obtain ⟨_, _, rfl⟩ := Option.map_eq_some_iff.mp hs
    rfl
  | lockTest m' old =>
    simp only [hpc] at hs
    split_ifs at hs <;> obtain rfl := Option.some.inj hs <;> rfl
  | lockBody m' =>
    simp only [hpc] at hs
    split_ifs at hs
    · obtain ⟨os, hblock, rfl⟩ := Option.map_eq_some_iff.mp hs
      exact (keepsThreads_lockBlock (r := none) hblock).mutexes
    · obtain rfl := Option.some.inj hs
      rfl
  | unlockBody m' =>
    simp only [hpc, Option.some.injEq] at hs
    subst hs
    change (myPthreadMutexUnlock m' s.os).mutexes = _
    unfold myPthreadMutexUnlock
    split <;> rfl

theorem ExclusionInv.exec (h : ExclusionInv m s) (huse : MutexUse s .exec)
    (hrace : NoRace m s .exec) (hs : s.exec = some s') : ExclusionInv m s' where
  contexts := contextInv_exec h.contexts hs
  conserved := conserved_exec h.conserved huse hs
  initialised := (mutexes_exec hs).symm ▸ h.initialised
  exited := exited_exec h hs
  exclusive := exclusive_exec h hrace hs

theorem exclusive_call {c : LibCall} (h : ExclusionInv m s)
    (huse : MutexUse s (.call c)) (hs : s.call c = some s') : Exclusive m s' := by
  cases c with
  | create | yield | exit | join | lock =>
    obtain rfl := Option.some.inj hs
    exact h.exclusive.goOn_cpu rfl rfl
  | ret res =>
    simp only [Machine.call] at hs
    split_ifs at hs
    obtain rfl := Option.some.inj hs
    exact h.exclusive.goOn_cpu rfl rfl
  | mutexInit =>
    obtain rfl := Option.some.inj hs
    refine h.exclusive.goOn rfl (fun _ _ => rfl) rfl ?_ id id id
    change (Function.update s.os.mutex s.os.mutexes ⟨0, []⟩ m).state = _
    rw [Function.update_of_ne h.initialised.ne]
  | unlock m' =>
    obtain rfl := Option.some.inj hs
    by_cases hm : m' = m
    · subst hm
      have howns : Owns m' s s.cpu.owner := Or.inl huse
      refine h.exclusive.step_same (r := s.cpu.owner)
        (onlyMoves_of_savedPosition rfl (fun _ _ => rfl) fun t ht =>
          Machine.holds_setHolds_of_ne _ _ _ _ (Or.inr ht)) rfl (fun _ => howns.claims)
        (fun _ => howns) fun _ => Machine.holds_setHolds_self ..
    · refine h.exclusive.goOn_plain rfl (fun _ _ => rfl) ?_ rfl ?_
      · funext t
        exact Machine.holds_setHolds_of_ne _ _ _ _ (Or.inl (Ne.symm hm))
      · simp [Pc.claims, Pc.found, Pc.owns, hm]

theorem ExclusionInv.call {c : LibCall} (h : ExclusionInv m s) (hpc : s.cpu.pc = .user)
    (huse : MutexUse s (.call c)) (hs : s.call c = some s') : ExclusionInv m s' := by
  have hos : Conserved s'.os ∧ m < s'.os.mutexes ∧
      ¬ (s'.cpu.pc = .exitRestore ∨ s'.cpu.pc = .exitSwitch) := by
    cases c with
    | create | yield | exit | join | lock | unlock =>
      obtain rfl := Option.some.inj hs
      exact ⟨h.conserved, h.initialised, by simp⟩
    | ret res =>
      simp only [Machine.call] at hs
      split_ifs at hs
      obtain rfl := Option.some.inj hs
      exact ⟨h.conserved, h.initialised, by simp⟩
    | mutexInit =>
      obtain rfl := Option.some.inj hs
      exact ⟨h.conserved.myPthreadMutexInit, Nat.lt_succ_of_lt h.initialised, by simp [hpc]⟩
  exact ⟨contextInv_call h.contexts hpc hs, hos.1, hos.2.1, fun he => absurd he hos.2.2,
    exclusive_call h huse hs⟩

theorem ExclusionInv.timer (h : ExclusionInv m s) (hm : s.cpu.masked = false)
    (hw : s.cpu.pc.inWindow = false) : ExclusionInv m (s.interrupt s.cpu.pc) := by
  have ha := h.contexts.attached_of_unmasked hm hw
  have hctx := h.contexts.interrupt ha h.contexts.wellFormed ha
  have hk := keepsThreads_scheduler (r := none) s.os
  refine ⟨hctx, h.conserved.scheduler, hk.mutexes.symm ▸ h.initialised, fun he => ?_, ?_⟩
  · have hsaved := (hctx.saved (s.interrupt s.cpu.pc).os.running).attached
    change (s.interrupt s.cpu.pc).cpu.pc.detached = false at hsaved
    rcases he with he | he <;> simp [he, Pc.detached, Pc.inWindow] at hsaved
  · exact h.interrupt (o := s.os) (h.contexts.attached ha).symm
      ⟨rfl, rfl, fun _ _ => rfl, fun _ => rfl⟩ h.conserved hctx (Or.inl rfl)

end Exec

/-! ### Runs -/

/-- The runs that are considered: the mutexes are used as they should be, no interrupt arrives
between the restoring of the mask and the switch, and no thread finds the mutex `m` free while
another one stands between its load and its store. -/
def ExclusionOk (m : Mid) (s : Machine) (e : Event) : Prop :=
  MutexUse s e ∧ NoTimerInWindow s e ∧ NoRace m s e

/-- Only the created threads have to be looked at. -/
theorem noRace_exec_iff {m : Mid} {s : Machine} :
    (s.cpu.pc = .tasLoad m → (s.os.mutex m).state ≠ 1 →
      ∀ t < s.os.created, t ≠ s.cpu.owner → (s.position t).found m = false) ↔
      NoRace m s .exec := by
  refine ⟨fun h hpc hfree t ht => ?_, fun h hpc hfree t _ ht => h hpc hfree t ht⟩
  by_cases hlt : t < s.os.created
  · exact h hpc hfree t hlt ht
  · rw [Machine.position_of_ne ht, Machine.savedPosition, if_neg fun hl => hlt hl.1]
    rfl

instance (m : Mid) (s : Machine) : ∀ e, Decidable (NoRace m s e)
  | .exec => decidable_of_iff _ noRace_exec_iff
  | .call _ | .timer => isTrue trivial

instance (s : Machine) : ∀ e, Decidable (MutexUse s e)
  | .call c => by rcases c <;> dsimp only [MutexUse] <;> infer_instance
  | .exec => by dsimp only [MutexUse]; split <;> infer_instance
  | .timer => isTrue trivial

instance (m : Mid) (s : Machine) (e : Event) : Decidable (ExclusionOk m s e) :=
  inferInstanceAs (Decidable (_ ∧ _ ∧ _))

theorem exclusionInv_start {m : Mid} {os : OS} (hos : Conserved os) (hm : m < os.mutexes) :
    ExclusionInv m (Machine.start os) := by
  have hpos (t : Tid) : (Machine.start os).position t = .user := by
    simp only [Machine.position, Machine.savedPosition]
    split_ifs <;> rfl
  have hnone (t : Tid) : ¬ Claims m (Machine.start os) t := by
    rw [Claims, hpos]
    simp [Machine.start, Pc.claims, Pc.found, Pc.owns]
  refine ⟨contextInv_start os, hos, hm, fun he => ?_, fun t u ht => absurd ht (hnone t),
    fun t ht => absurd ht.claims (hnone t), fun _ _ => rfl⟩
  rcases he with he | he <;> cases he

theorem exclusionInv_machineStep {m : Mid} {s s' : Machine} {e : Event} (h : ExclusionInv m s)
    (hok : ExclusionOk m s e) (hs : machineStep s e = some s') : ExclusionInv m s' := by
  obtain ⟨huse, hwin, hrace⟩ := hok
  cases e with
  | call c =>
    simp only [machineStep] at hs
    split_ifs at hs with hpc
    exact h.call hpc huse hs
  | exec => exact h.exec huse hrace hs
  | timer =>
    simp only [machineStep] at hs
    split_ifs at hs with hm
    obtain rfl := Option.some.inj hs
    exact h.timer (by simpa using hm) hwin

/-- **Mutual exclusion.** Along every such run, from any library whose threads are all in their
places and in which `m` is initialised, at most one thread holds `m`. -/
theorem mutual_exclusion (m : Mid) (os : OS) (hos : Conserved os) (hm : m < os.mutexes)
    (es : List Event) (s : Machine)
    (hok : RunOk machineStep (ExclusionOk m) (Machine.start os) es)
    (hrun : run machineStep (Machine.start os) es = some s) :
    ∀ t u, s.holds m t = true → s.holds m u = true → t = u := by
  have h := run_invariant (fun _ _ _ hi hok hs => exclusionInv_machineStep hi hok hs)
    (exclusionInv_start hos hm) hok hrun
  exact fun t u ht hu => h.exclusive.unique t u (Or.inl ht) (Or.inl hu)

/-- Main takes the mutex; the thread it has created finds it taken and blocks; main gives it up,
and after an interrupt the other thread takes it. -/
def handover : List Event :=
  [.call (.create 0), .exec, .exec, .exec, .call (.lock 0), .exec, .exec, .exec, .timer,
    .call (.lock 0), .exec, .exec, .exec, .exec, .exec, .exec, .exec, .call (.unlock 0), .exec,
    .exec, .exec, .timer, .exec, .exec, .exec]

theorem mutual_exclusion_handover :
    ∃ s, run machineStep (Machine.start (myPthreadMutexInit (initOS 0))) handover = some s ∧
      s.holds 0 1 = true ∧ ∀ t, s.holds 0 t = true → t = 1 := by
  have hend : (run machineStep (Machine.start (myPthreadMutexInit (initOS 0))) handover).map
      (fun s => s.holds 0 1) = some true := by decide
  obtain ⟨s, hs, hholds⟩ := Option.map_eq_some_iff.mp hend
  have h :=
    mutual_exclusion 0 _ (conserved_initOS 0).myPthreadMutexInit Nat.one_pos _ s (by decide) hs
  exact ⟨s, hs, hholds, fun t ht => h t 1 ht hholds⟩

/-- Main creates a thread, loads the state word as 0 and is interrupted before its store. The
thread takes the mutex; main goes on with the value it has loaded and takes it too. -/
theorem two_threads_hold_mutex :
    ∃ s, run machineStep (Machine.start (myPthreadMutexInit (initOS 0)))
        [.call (.create 0), .exec, .exec, .exec, .call (.lock 0), .exec, .timer, .call (.lock 0),
          .exec, .exec, .exec, .timer, .exec, .exec] = some s ∧
      s.holds 0 0 = true ∧ s.holds 0 1 = true := by
  have hend : (run machineStep (Machine.start (myPthreadMutexInit (initOS 0)))
        [.call (.create 0), .exec, .exec, .exec, .call (.lock 0), .exec, .timer, .call (.lock 0),
          .exec, .exec, .exec, .timer, .exec, .exec]).map (fun s => (s.holds 0 0, s.holds 0 1)) =
        some (true, true) := by
    decide
  obtain ⟨s, hs, hholds⟩ := Option.map_eq_some_iff.mp hend
  exact ⟨s, hs, Prod.mk.inj hholds⟩

end OSDesign
