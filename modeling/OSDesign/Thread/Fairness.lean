import Mathlib.Data.List.Rotate
import OSDesign.Thread.Conservation
import OSDesign.Thread.ContextIntegrity
import OSDesign.Thread.QueueOrder

/-!
# Who runs next

`pushOrdered` never puts a thread in front of the first one of the run queue, and the maintenance
pass leaves the first one in its place. So the thread at the head of the queue is always the next to
run, whatever is called before.

Behind the head there is no such promise. With at most three threads the queue has at most two
places, and ticks and yields go round. With more threads, those that yield are inserted by priority
in front of a thread with a greater value again and again, and the maintenance pass, which is to
help it, leaves the youngest thread at the end.

The pass does not sort the queue. The threads that are older than the first one are inserted
directly behind it, each in front of the one before: they come out in the reverse of their old
order.

## Main definitions

* `Call.IsScheduling`, `Starving`.

## Main results

* `head_runs_next`: the head of the run queue is the next thread to run.
* `maintenance_order`: the order that the maintenance pass makes.
* `round_robin`: at most three threads take turns.
* `ready_thread_starves`: a thread that is ready for ever and never runs.
-/

namespace OSDesign

open Transition

/-! ### Insertions behind the head -/

namespace Queue

variable {τ : Type*} {key : τ → ℤ} {l : List τ} {t x : τ}

theorem head?_pushOrdered (key : τ → ℤ) (x : τ) (l : List τ) (t : τ) :
    (pushOrdered key (x :: l) t).head? = some x :=
  head?_foldl_pushOrdered x [t] l

theorem head?_orderByOldest (key : τ → ℤ) (l : List τ) : (orderByOldest key l).head? = l.head? := by
  cases l with
  | nil => rfl
  | cons x l => exact head?_foldl_pushOrdered x l []

/-- A thread with the greatest key goes to the end. -/
theorem insertBehind_of_forall_le (h : ∀ y ∈ l, key y ≤ key t) :
    insertBehind key t l = l ++ [t] := by
  have hle : ∀ y ∈ l, decide (key y ≤ key t) = true := fun y hy => decide_eq_true (h y hy)
  rw [insertBehind_eq, List.takeWhile_eq_self_iff.mpr hle, List.dropWhile_eq_nil_iff.mpr hle]

theorem pushOrdered_of_forall_le (h : ∀ y ∈ l, key y ≤ key t) : pushOrdered key l t = l ++ [t] := by
  rw [pushOrdered_eq_insertBehind fun y hy => h y (List.mem_of_mem_head? hy),
    insertBehind_of_forall_le h]

/-- The scan passes the threads whose keys are not greater. -/
theorem insertBehind_append {a b : List τ} (h : ∀ y ∈ a, key y ≤ key t) :
    insertBehind key t (a ++ b) = a ++ insertBehind key t b := by
  induction a with
  | nil => rfl
  | cons y a ih =>
    rw [List.cons_append, insertBehind, if_pos (h y List.mem_cons_self),
      ih fun z hz => h z (List.mem_cons_of_mem y hz), List.cons_append]

/-- The scan stops in front of a last thread with a greater key. -/
theorem insertBehind_concat (hlt : key t < key x) :
    insertBehind key t (l ++ [x]) = insertBehind key t l ++ [x] := by
  induction l with
  | nil => rw [List.nil_append, insertBehind, insertBehind, if_neg (not_le.mpr hlt)]; rfl
  | cons y l ih =>
    rw [List.cons_append, insertBehind, insertBehind, ih]
    split_ifs <;> rfl

/-- A last thread with a greater key stays at the end, if it is not the only one. -/
theorem pushOrdered_concat (hl : l ≠ []) (hlt : key t < key x) :
    pushOrdered key (l ++ [x]) t = pushOrdered key l t ++ [x] := by
  cases l with
  | nil => exact absurd rfl hl
  | cons y l =>
    rw [List.cons_append, pushOrdered, pushOrdered, insertBehind_concat hlt]
    split_ifs <;> rfl

/-- The last thread stays at the end if it is one of the youngest. -/
theorem orderByOldest_concat (hle : ∀ y ∈ l, key y ≤ key x) :
    orderByOldest key (l ++ [x]) = orderByOldest key l ++ [x] := by
  rw [orderByOldest, List.foldl_append, List.foldl_cons, List.foldl_nil]
  exact pushOrdered_of_forall_le fun y hy => hle y ((orderByOldest_perm key l).mem_iff.mp hy)

/-- One step of the pass: `a` are the threads older than the head `h`, and `b` the others. -/
theorem pushOrdered_split {h : τ} {a b : List τ} (ha : ∀ y ∈ a, key y < key h) :
    pushOrdered key (h :: (a ++ b)) t =
      h :: if key t < key h then t :: a ++ b else a ++ insertBehind key t b := by
  rw [pushOrdered]
  by_cases ht : key t < key h
  · rw [if_neg (not_le.mpr ht), if_pos ht, List.cons_append]
  · rw [if_pos (not_lt.mp ht), if_neg ht,
      insertBehind_append fun y hy => ((ha y hy).trans_le (not_lt.mp ht)).le]

/-- The pass reverses the threads that are older than the head and sorts the others. -/
theorem foldl_pushOrdered_split (key : τ → ℤ) (l : List τ) {h : τ} {a b : List τ}
    (ha : ∀ y ∈ a, key y < key h) (hb : SortedBy key b) :
    ∃ b', l.foldl (pushOrdered key) (h :: (a ++ b)) =
        h :: ((l.filter fun y => key y < key h).reverse ++ a ++ b') ∧
      SortedBy key b' ∧ b'.Perm ((l.filter fun y => key h ≤ key y) ++ b) ∧
      ∀ k, b'.filter (fun y => key y = k) =
        (b ++ l.filter fun y => key h ≤ key y).filter fun y => key y = k := by
  induction l generalizing a b with
  | nil => exact ⟨b, by simp, hb, .refl b, fun k => by simp⟩
  | cons t l ih =>
    rw [List.foldl_cons, pushOrdered_split ha]
    by_cases ht : key t < key h
    · have ha' : ∀ y ∈ t :: a, key y < key h := fun y hy => by
        rcases List.mem_cons.mp hy with rfl | hy
        · exact ht
        · exact ha y hy
      obtain ⟨b', heq, hsorted, hperm, hstable⟩ := ih ha' hb
      rw [if_pos ht]
      refine ⟨b', ?_, hsorted, ?_, fun k => ?_⟩
      · rw [heq, List.filter_cons_of_pos (by simpa using ht), List.reverse_cons]
        simp
      · rwa [List.filter_cons_of_neg (by simpa using ht)]
      · rw [hstable, List.filter_cons_of_neg (by simpa using ht)]
    · have hle : key h ≤ key t := not_lt.mp ht
      obtain ⟨b', heq, hsorted, hperm, hstable⟩ := ih ha (insertBehind_ordered (t := t) hb).sorted
      rw [if_neg ht]
      refine ⟨b', ?_, hsorted, ?_, fun k => ?_⟩
      · rw [heq, List.filter_cons_of_neg (by simpa using hle)]
      · rw [List.filter_cons_of_pos (by simpa using hle)]
        refine hperm.trans (((insertBehind_perm key t b).append_left _).trans ?_)
        exact List.perm_middle
      · rw [hstable, List.filter_append, filter_insertBehind hb, ← List.filter_append,
          List.filter_cons_of_pos (by simpa using hle), List.append_assoc, List.singleton_append]

end Queue

variable {s s' : OS} {h x : Tid} {c : Call}

/-- **What the maintenance pass does.** On every 151st scheduling the first thread of the run queue
keeps its place. Behind it come the threads that are older, in the reverse of their old order, and
then the others, oldest first and those of one age in their old order. -/
theorem maintenance_order {l : List Tid} (hn : s.nSchedulings + 1 > 150) (hrun : s.run = h :: l) :
    ∃ young, (maintenance s).run =
        h :: ((l.filter fun y => s.age y < s.age h).reverse ++ young) ∧
      SortedBy s.age young ∧ young.Perm (l.filter fun y => s.age h ≤ s.age y) ∧
      ∀ k, young.filter (fun y => s.age y = k) =
        (l.filter fun y => s.age h ≤ s.age y).filter fun y => s.age y = k := by
  have hpass : (maintenance s).run = Queue.orderByOldest s.age (h :: l) := by
    rw [maintenance, if_pos hn, hrun]
  obtain ⟨young, heq, hsorted, hperm, hstable⟩ :=
    Queue.foldl_pushOrdered_split s.age l (h := h) (a := []) (b := [])
      (fun y hy => absurd hy List.not_mem_nil) List.Pairwise.nil
  refine ⟨young, ?_, hsorted, by simpa using hperm, fun k => by simpa using hstable k⟩
  rw [hpass]
  simpa [Queue.orderByOldest, Queue.pushOrdered] using heq

/-- After 150 ticks three threads are created, the youngest first. The pass exchanges the other two.
-/
theorem maintenance_order_reversed :
    ∃ s, run callStep (initOS 7) (List.replicate 150 .tick ++ [.create 9, .create 5, .create 6]) =
        some s ∧ s.run = [1, 2, 3] ∧ ∃ young, (maintenance s).run = 1 :: ([3, 2] ++ young) := by
  have hend : (run callStep (initOS 7)
      (List.replicate 150 .tick ++ [.create 9, .create 5, .create 6])).map
      (fun s => (s.run, s.nSchedulings, s.age 1, s.age 2, s.age 3)) =
      some ([1, 2, 3], 150, 9, 5, 6) := by
    decide +kernel
  obtain ⟨s, hs, hproj⟩ := Option.map_eq_some_iff.mp hend
  simp only [Prod.mk.injEq] at hproj
  obtain ⟨hrun, hn, h₁, h₂, h₃⟩ := hproj
  obtain ⟨young, heq, -⟩ := maintenance_order (by rw [hn]; decide) hrun
  refine ⟨s, hs, hrun, young, heq.trans ?_⟩
  simp [h₁, h₂, h₃]

/-! ### The next thread -/

section Dispatch

theorem head?_maintenance (s : OS) : (maintenance s).run.head? = s.run.head? := by
  rw [maintenance]
  split_ifs
  · exact Queue.head?_orderByOldest s.age s.run
  · rfl

theorem head?_pushRun (hh : s.run.head? = some h) (t : Tid) : (s.pushRun t).run.head? = some h := by
  obtain ⟨l, hrun⟩ := List.head?_eq_some_iff.mp hh
  rw [OS.pushRun, OS.setRun, hrun]
  exact Queue.head?_pushOrdered s.prio h l t

theorem running_switchNext (hh : s.run.head? = some h) (hs : switchNext s = some s') :
    s'.running = h := by
  obtain ⟨l, hrun⟩ := List.head?_eq_some_iff.mp hh
  rw [switchNext, hrun] at hs
  obtain rfl := Option.some.inj hs
  rfl

theorem running_scheduler (hh : s.run.head? = some h) : (scheduler s).running = h := by
  obtain ⟨l, hrun⟩ := List.head?_eq_some_iff.mp ((head?_maintenance s).trans hh)
  rw [scheduler, rotate, show (agePriority (maintenance s)).run = h :: l from hrun]

theorem run_yieldPriority (s : OS) : (yieldPriority s).run = s.run := by
  rw [yieldPriority]
  split_ifs <;> rfl

theorem running_maintenance (s : OS) : (maintenance s).running = s.running := by
  rw [maintenance]
  split_ifs <;> rfl

/-- A call switches to the first thread of the run queue, or leaves it in its place. -/
theorem head_of_callStep (hh : s.run.head? = some h) (hs : callStep s c = some s') :
    s'.running = h ∨ s'.running = s.running ∧ s'.run.head? = some h := by
  have hne : s.run ≠ [] := fun hnil => by
    rw [hnil] at hh
    cases hh
  cases c with
  | create now =>
    obtain rfl := Option.some.inj hs
    exact Or.inr ⟨rfl, head?_pushRun (s := createNewThread now s) hh s.created⟩
  | tick =>
    obtain rfl := Option.some.inj hs
    exact Or.inl (running_scheduler hh)
  | yield =>
    obtain rfl := Option.some.inj hs
    exact Or.inl (running_scheduler ((congrArg List.head? (run_yieldPriority s)).trans hh))
  | join t valuePtr =>
    simp only [callStep, myPthreadJoin] at hs
    split_ifs at hs with hfin
    · obtain ⟨_, -, rfl⟩ := Option.map_eq_some_iff.mp hs
      exact Or.inr ⟨rfl, hh⟩
    · obtain ⟨s₁, hpush, hs⟩ := Option.bind_eq_some_iff.mp hs
      obtain ⟨joiners, -, rfl⟩ := Option.map_eq_some_iff.mp hpush
      rw [if_neg (by exact hne)] at hs
      refine Or.inl (running_switchNext ?_ hs)
      exact hh
  | mutexInit =>
    obtain rfl := Option.some.inj hs
    exact Or.inr ⟨rfl, hh⟩
  | lock m =>
    simp only [callStep, myPthreadMutexLockRound, testAndSet, lockSection, lockBlock,
      OS.mutex_setMutex_self, if_true] at hs
    by_cases hstate : (s.mutex m).state = 1
    · rw [if_pos hstate] at hs
      refine Or.inl (running_switchNext ?_ hs)
      exact hh
    · rw [if_neg hstate] at hs
      obtain rfl := Option.some.inj hs
      exact Or.inr ⟨rfl, hh⟩
  | unlock m =>
    obtain rfl := Option.some.inj hs
    rw [myPthreadMutexUnlock]
    split
    · exact Or.inr ⟨rfl, hh⟩
    · exact Or.inr ⟨rfl, head?_pushRun (s := s.setMutex m _) hh _⟩
  | exit res =>
    obtain ⟨s₁, hdrain, hs⟩ := Option.bind_eq_some_iff.mp hs
    obtain ⟨joiners, -, rfl⟩ := Option.map_eq_some_iff.mp hdrain
    obtain ⟨l, hrun⟩ := List.head?_eq_some_iff.mp hh
    have hfront : (joiners.foldl (Queue.pushOrdered (markFinished res s).prio)
        (markFinished res s).run).head? = some h := by
      rw [show (markFinished res s).run = h :: l from hrun]
      exact Queue.head?_foldl_pushOrdered h joiners l
    split_ifs at hs with hnil
    · rw [show joiners.foldl (Queue.pushOrdered (markFinished res s).prio)
        (markFinished res s).run = [] from hnil] at hfront
      cases hfront
    · exact Or.inl (running_switchNext hfront hs)

end Dispatch

/-- **The head runs next.** From any state in which a thread is at the head of the run queue,
through any calls, the processor stays with the running thread until it goes to that one. -/
theorem head_runs_next {es : List Call} (hh : s.run.head? = some h)
    (hrun : run callStep s es = some s') (hne : s'.running ≠ s.running) :
    ∃ es₁ c es₂ s₁, es = es₁ ++ c :: es₂ ∧ run callStep s (es₁ ++ [c]) = some s₁ ∧ s₁.running = h ∧
      ∀ l, l <+: es₁ → ∃ s₂, run callStep s l = some s₂ ∧ s₂.running = s.running := by
  induction es generalizing s with
  | nil =>
    obtain rfl := Option.some.inj hrun
    exact absurd rfl hne
  | cons c es ih =>
    obtain ⟨t, ht, hrest⟩ := Option.bind_eq_some_iff.mp hrun
    rcases head_of_callStep hh ht with hswitch | ⟨hstay, hfront⟩
    · refine ⟨[], c, es, t, rfl, by rw [List.nil_append, run_cons, ht]; rfl, hswitch, fun l hl =>
      ?_⟩
      rw [List.prefix_nil.mp hl]
      exact ⟨s, rfl, rfl⟩
    · obtain ⟨es₁, c', es₂, s₁, rfl, hend, hat, hbefore⟩ := ih hfront hrest (hstay ▸ hne)
      refine ⟨c :: es₁, c', es₂, s₁, rfl, by rwa [List.cons_append, run_cons, ht], hat, fun l hl =>
        ?_⟩
      rcases List.prefix_cons_iff.mp hl with rfl | ⟨l', rfl, hl'⟩
      · exact ⟨s, rfl, rfl⟩
      · obtain ⟨s₂, hs₂, heq⟩ := hbefore l' hl'
        exact ⟨s₂, by rw [run_cons, ht, Option.bind_some, hs₂], heq.trans hstay⟩

/-- A thread that is created later does not overtake the first one. -/
theorem head_runs_next_created :
    ∃ es₁ c es₂ s₁, [Call.create 9, .mutexInit, .tick] = es₁ ++ c :: es₂ ∧
      run callStep (myPthreadCreate 8 (initOS 7)) (es₁ ++ [c]) = some s₁ ∧ s₁.running = 1 := by
  have hrun : run callStep (myPthreadCreate 8 (initOS 7)) [.create 9, .mutexInit, .tick] =
      some (scheduler (myPthreadMutexInit (myPthreadCreate 9 (myPthreadCreate 8 (initOS 7))))) :=
        rfl
  obtain ⟨es₁, c, es₂, s₁, hes, hend, hat, -⟩ := head_runs_next (h := 1) (by decide)
    hrun (by decide)
  exact ⟨es₁, c, es₂, s₁, hes, hend, hat⟩

/-! ### Three threads take turns -/

/-- The timer interrupts, or the running thread yields. -/
def Call.IsScheduling (c : Call) : Prop := c = .tick ∨ c = .yield

instance (c : Call) : Decidable c.IsScheduling :=
  inferInstanceAs (Decidable (c = .tick ∨ c = .yield))

theorem run_maintenance (s : OS) :
    (maintenance s).run = s.run ∨ (maintenance s).run = Queue.orderByOldest s.age s.run := by
  rw [maintenance]
  split_ifs
  · exact Or.inr rfl
  · exact Or.inl rfl

/-- With at most two threads in the queue there is no place to choose. -/
theorem rotate_scheduler (hlen : s.run.length ≤ 2) :
    (scheduler s).running :: (scheduler s).run = (s.running :: s.run).rotate 1 := by
  have hpass : (maintenance s).run = s.run := by
    rcases run_maintenance s with h | h
    · exact h
    · rw [h]
      rcases hrun : s.run with _ | ⟨b, _ | ⟨d, _ | ⟨e, l⟩⟩⟩
      · rfl
      · rfl
      · simp [Queue.orderByOldest, Queue.pushOrdered, Queue.insertBehind]
      · rw [hrun] at hlen
        simp at hlen
  have hrun : (agePriority (maintenance s)).run = s.run := hpass
  rw [scheduler, rotate, hrun]
  rcases h : s.run with _ | ⟨b, _ | ⟨d, _ | ⟨e, l⟩⟩⟩
  · simp only [agePriority, OS.running_modifyThread, OS.run_modifyThread, running_maintenance,
      hpass, h, List.rotate_singleton]
  · simp only [agePriority, OS.running_modifyThread, running_maintenance]
    rfl
  · simp only [agePriority, OS.running_modifyThread, running_maintenance, Queue.pushOrdered,
      Queue.insertBehind, ite_self]
    rfl
  · rw [h] at hlen
    simp at hlen

/-- One tick or yield. -/
theorem rotate_callStep (hlen : s.run.length ≤ 2) (hc : c.IsScheduling) :
    ∃ s', callStep s c = some s' ∧ s'.running :: s'.run = (s.running :: s.run).rotate 1 := by
  rcases hc with rfl | rfl
  · exact ⟨_, rfl, rotate_scheduler hlen⟩
  · refine ⟨_, rfl, ?_⟩
    rw [myPthreadYield, rotate_scheduler (by rwa [run_yieldPriority]), run_yieldPriority,
      running_yieldPriority]

/-- **Three threads take turns.** As long as the timer interrupts and threads yield, and at most two
threads wait for the processor, they get it one after the other, whatever their priorities are and
whenever the maintenance pass comes. -/
theorem round_robin {es : List Call} (hlen : s.run.length ≤ 2) (hes : ∀ c ∈ es, c.IsScheduling) :
    ∃ s', run callStep s es = some s' ∧
      s'.running :: s'.run = (s.running :: s.run).rotate es.length := by
  induction es generalizing s with
  | nil => exact ⟨s, rfl, (List.rotate_zero _).symm⟩
  | cons c es ih =>
    obtain ⟨s₁, hs₁, hrot⟩ := rotate_callStep hlen (hes c List.mem_cons_self)
    have hlen₁ : s₁.run.length ≤ 2 := by
      have hl := congrArg List.length hrot
      rw [List.length_rotate, List.length_cons, List.length_cons] at hl
      omega
    obtain ⟨s', hs', hrest⟩ := ih hlen₁ fun c' hc' => hes c' (List.mem_cons_of_mem c hc')
    refine ⟨s', by rw [run_cons, hs₁, Option.bind_some, hs'], ?_⟩
    rw [hrest, hrot, List.rotate_rotate, List.length_cons, Nat.add_comm]

/-- `mainThread` and two threads. -/
theorem round_robin_three :
    ∃ s', run callStep (myPthreadCreate 9 (myPthreadCreate 8 (initOS 7)))
      [.tick, .yield, .tick, .yield] = some s' ∧ s'.running :: s'.run = [0, 1, 2].rotate 4 :=
  round_robin (s := myPthreadCreate 9 (myPthreadCreate 8 (initOS 7))) (by decide) (by decide)

/-! ### Four threads do not -/

/-- The thread `x` is the last one in the run queue, behind at least two others. Its priority value
is greater than 1 and than the values of these and of the running thread, none of which is younger.
-/
structure Starving (x : Tid) (s : OS) : Prop where
  queue : ∃ q, s.run = q ++ [x] ∧ 2 ≤ q.length ∧
    ∀ y ∈ s.running :: q, y ≠ x ∧ s.prio y < s.prio x ∧ s.age y ≤ s.age x
  one_lt : 1 < s.prio x

theorem rotate_cons {b : Tid} {l : List Tid} (hrun : s.run = b :: l) :
    rotate s = { s with run := Queue.pushOrdered s.prio l s.running, running := b } := by
  rw [rotate, hrun]

theorem thread_agePriority_of_ne {t : Tid} (ht : t ≠ s.running) :
    (agePriority (maintenance (yieldPriority s))).thread t = s.thread t := by
  rw [agePriority, running_maintenance, running_yieldPriority,
    OS.thread_modifyThread_of_ne _ _ _ ht, thread_maintenance, yieldPriority]
  split_ifs
  · exact OS.thread_modifyThread_of_ne _ _ _ ht
  · rfl

/-- What a yield takes from the priority the scheduling adds again; a thread of priority 0 comes out
with 1. -/
theorem thread_agePriority_running (s : OS) :
    (agePriority (maintenance (yieldPriority s))).thread s.running = s.thread s.running ∨
      (agePriority (maintenance (yieldPriority s))).thread s.running =
        { s.thread s.running with priority := 1 } := by
  rw [agePriority, running_maintenance, running_yieldPriority, OS.thread_modifyThread_self,
    thread_maintenance, yieldPriority]
  split_ifs with hp
  · have hcomp : (s.thread s.running).priority - 1 + 1 = (s.thread s.running).priority :=
      UInt32.sub_add_cancel _ _
    refine Or.inl ?_
    rw [OS.thread_modifyThread_self, hcomp]
  · have hzero : (s.thread s.running).priority = 0 := UInt32.le_zero_iff.mp (UInt32.not_lt.mp hp)
    refine Or.inr ?_
    rw [hzero, UInt32.zero_add]

theorem age_agePriority_yield (s : OS) (y : Tid) :
    (agePriority (maintenance (yieldPriority s))).age y = s.age y := by
  by_cases hy : y = s.running
  · subst hy
    rw [OS.age, OS.age]
    rcases thread_agePriority_running s with h | h
    · rw [h]
    · rw [h]
      rfl
  · rw [OS.age, OS.age, thread_agePriority_of_ne hy]

theorem age_yieldPriority (s : OS) : (yieldPriority s).age = s.age := by
  funext t
  rw [yieldPriority]
  split_ifs
  · by_cases ht : t = s.running
    · subst ht
      rw [OS.age, OS.thread_modifyThread_self]
      rfl
    · rw [OS.age, OS.thread_modifyThread_of_ne _ _ _ ht]
      rfl
  · rfl

namespace Starving

/-- The pass leaves the last thread at the end. -/
theorem run_maintenance (h : Starving x s) :
    ∃ q, (maintenance (yieldPriority s)).run = q ++ [x] ∧ 2 ≤ q.length ∧
      ∀ y ∈ s.running :: q, y ≠ x ∧ s.prio y < s.prio x ∧ s.age y ≤ s.age x := by
  obtain ⟨q, hrun, hlen, hall⟩ := h.queue
  rcases OSDesign.run_maintenance (yieldPriority s) with hm | hm
  · exact ⟨q, by rw [hm, run_yieldPriority, hrun], hlen, hall⟩
  · have hperm := Queue.orderByOldest_perm s.age q
    refine ⟨Queue.orderByOldest s.age q, ?_, by rwa [hperm.length_eq], fun y hy => hall y ?_⟩
    · rw [hm, run_yieldPriority, age_yieldPriority, hrun]
      exact Queue.orderByOldest_concat fun y hy => (hall y (List.mem_cons_of_mem _ hy)).2.2
    · exact (hperm.cons s.running).mem_iff.mp hy

/-- No thread gets the value of `x` by a yield. -/
theorem prio_agePriority_lt (h : Starving x s) {y : Tid} (hy : s.prio y < s.prio x) :
    (agePriority (maintenance (yieldPriority s))).prio y < s.prio x := by
  by_cases hr : y = s.running
  · subst hr
    rcases thread_agePriority_running s with heq | heq
    · rwa [OS.prio, heq]
    · rw [OS.prio, heq]
      exact h.one_lt
  · rwa [OS.prio, thread_agePriority_of_ne hr]

/-- When the running thread yields, the next one runs and `x` is the last one again. -/
theorem myPthreadYield (h : Starving x s) : Starving x (myPthreadYield s) := by
  obtain ⟨q, hrun, hlen, hall⟩ := h.run_maintenance
  rcases q with _ | ⟨b, _ | ⟨d, l⟩⟩
  · exact absurd hlen (by decide)
  · exact absurd hlen (Nat.not_succ_le_self 1)
  obtain ⟨s₁, hs₁⟩ : ∃ s₁, agePriority (maintenance (yieldPriority s)) = s₁ := ⟨_, rfl⟩
  have hrunning : s₁.running = s.running := by
    rw [← hs₁, agePriority, OS.running_modifyThread, running_maintenance, running_yieldPriority]
  have hcons : s₁.run = b :: (d :: l ++ [x]) := by
    rw [← hs₁]
    exact hrun
  have hx : s₁.prio x = s.prio x := by
    rw [← hs₁, OS.prio, thread_agePriority_of_ne (hall s.running List.mem_cons_self).1.symm]
    rfl
  have hlt (y : Tid) (hy : y ∈ s.running :: b :: d :: l) : s₁.prio y < s₁.prio x := by
    rw [hx, ← hs₁]
    exact h.prio_agePriority_lt (hall y hy).2.1
  have hage (y : Tid) : s₁.age y = s.age y := by rw [← hs₁, age_agePriority_yield]
  have hyield : OSDesign.myPthreadYield s =
      { s₁ with run := Queue.pushOrdered s₁.prio (d :: l) s.running ++ [x], running := b } := by
    rw [OSDesign.myPthreadYield, scheduler, hs₁, rotate_cons hcons, hrunning,
      Queue.pushOrdered_concat (List.cons_ne_nil d l) (hlt _ List.mem_cons_self)]
  have hperm := Queue.pushOrdered_perm s₁.prio (d :: l) s.running
  rw [hyield]
  refine ⟨⟨_, rfl, ?_, fun y hy => ?_⟩, hx.symm ▸ h.one_lt⟩
  · rw [hperm.length_eq, List.length_cons, List.length_cons]
    omega
  · -- the threads in front of `x` and the one that runs are the ones before
    have hmem : y ∈ s.running :: b :: d :: l :=
      ((hperm.cons b).trans (List.Perm.swap ..)).mem_iff.mp hy
    refine ⟨(hall y hmem).1, hlt y hmem, ?_⟩
    exact (hage y).trans_le ((hall y hmem).2.2.trans_eq (hage x).symm)

end Starving

/-- **Starvation.** Threads with smaller priority values that yield in turn keep a younger thread
from running: it stays in the run queue for ever, in spite of the maintenance pass. -/
theorem ready_thread_starves (h : Starving x s) (n : ℕ) :
    ∃ s', run callStep s (List.replicate n .yield) = some s' ∧ x ∈ s'.run ∧ s'.running ≠ x := by
  have hrun : ∃ s', run callStep s (List.replicate n .yield) = some s' ∧ Starving x s' := by
    induction n generalizing s with
    | zero => exact ⟨s, rfl, h⟩
    | succ n ih => exact ih h.myPthreadYield
  obtain ⟨s', hs', h'⟩ := hrun
  obtain ⟨q, hq, -, hall⟩ := h'.queue
  exact ⟨s', hs', hq ▸ List.mem_append_right q List.mem_cons_self, (hall _ List.mem_cons_self).1⟩

/-- Three threads are created. Each thread has run for one quantum, and thread 3 for a second one.
-/
def starvingCalls : List Call :=
  [.create 7, .create 7, .create 7, .tick, .tick, .tick, .tick, .yield, .yield, .yield, .tick]

theorem ready_thread_starves_four :
    ∃ s, run callStep (initOS 7) starvingCalls = some s ∧
      ∀ n, ∃ s', run callStep s (List.replicate n .yield) = some s' ∧
        3 ∈ s'.run ∧ s'.running ≠ 3 := by
  have hend : (run callStep (initOS 7) starvingCalls).map
      (fun s => (s.running, s.run, s.thread 0, s.thread 1, s.thread 2, s.thread 3)) =
      some (0, [1, 2, 3], ⟨1, 1, 7, none, false, none⟩, ⟨2, 1, 7, none, false, some []⟩,
        ⟨3, 1, 7, none, false, some []⟩, ⟨4, 2, 7, none, false, some []⟩) := by
    decide +kernel
  obtain ⟨s, hs, hproj⟩ := Option.map_eq_some_iff.mp hend
  simp only [Prod.mk.injEq] at hproj
  obtain ⟨hrunning, hrun, h₀, h₁, h₂, h₃⟩ := hproj
  have hstarving : Starving 3 s := by
    refine ⟨⟨[1, 2], hrun, le_rfl, fun y hy => ?_⟩, ?_⟩
    · rw [hrunning] at hy
      simp only [List.mem_cons, List.not_mem_nil, or_false] at hy
      rw [OS.prio, OS.prio, OS.age, OS.age, h₃]
      rcases hy with rfl | rfl | rfl
      · rw [h₀]
        decide
      · rw [h₁]
        decide
      · rw [h₂]
        decide
    · rw [OS.prio, h₃]
      decide
  exact ⟨s, hs, ready_thread_starves hstarving⟩

end OSDesign
