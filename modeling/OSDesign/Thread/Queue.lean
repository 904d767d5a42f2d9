import Mathlib.Tactic
import Mathlib.Data.List.Perm.Basic
import Mathlib.Data.List.Count

/-!
# The thread queues as lists

`LinkedList.c` keeps the run queue, the `waitJoin` lists and the wait lists of the mutexes. This
file states what its operations do to the sequence of threads of a list, for any type of threads
and any key. `pushOrdered` starts its scan with `last` at the head of the list, so the new thread
is linked behind the head also when its key is smaller than the key of the head: the first branch
of `pushOrdered` below keeps the head `x` in front in either case.

The operations with their pointers are in `OSDesign.Thread.LinkedList`.

## Main definitions

* `Queue.push`, `Queue.pushOrdered`, `Queue.orderByOldest`.

## Main results

* `Queue.pushOrdered_perm`, `Queue.orderByOldest_perm`: no operation loses or doubles a thread.
-/

namespace OSDesign.Queue

variable {τ : Type*}

/-- `push`: the new thread goes behind the tail. -/
def push (l : List τ) (t : τ) : List τ := l ++ [t]

/-- The scan of `pushOrdered` behind the head: `t` goes in front of the first thread with a
greater key. -/
def insertBehind (key : τ → ℤ) (t : τ) : List τ → List τ
  | [] => [t]
  | x :: l => if key x ≤ key t then x :: insertBehind key t l else t :: x :: l

/-- `pushOrdered` for the key that its argument `order` selects. -/
def pushOrdered (key : τ → ℤ) (l : List τ) (t : τ) : List τ :=
  match l with
  | [] => [t]
  | x :: l => if key x ≤ key t then x :: insertBehind key t l else x :: t :: l

/-- `orderByOldest`: the threads are popped one after the other and inserted in a new list. -/
def orderByOldest (key : τ → ℤ) (l : List τ) : List τ :=
  l.foldl (pushOrdered key) []

/-- The new thread stands behind the first threads whose keys are not greater. -/
theorem insertBehind_eq (key : τ → ℤ) (t : τ) (l : List τ) :
    insertBehind key t l =
      l.takeWhile (fun x => key x ≤ key t) ++ t :: l.dropWhile fun x => key x ≤ key t := by
  induction l with
  | nil => rfl
  | cons x l ih =>
    rw [insertBehind]
    split_ifs with h
    · simp [h, ih]
    · simp [h]

theorem map_insertBehind {σ : Type*} (f : σ → τ) (key : τ → ℤ) (t : σ) (l : List σ) :
    (insertBehind (fun x => key (f x)) t l).map f = insertBehind key (f t) (l.map f) := by
  induction l with
  | nil => rfl
  | cons x l ih =>
    rw [insertBehind, List.map_cons, insertBehind, apply_ite (List.map f), List.map_cons, ih]
    rfl

/-- The operation looks at the elements through their keys only. -/
theorem map_pushOrdered {σ : Type*} (f : σ → τ) (key : τ → ℤ) (l : List σ) (t : σ) :
    (pushOrdered (fun x => key (f x)) l t).map f = pushOrdered key (l.map f) (f t) := by
  cases l with
  | nil => rfl
  | cons x l =>
    rw [pushOrdered, List.map_cons, pushOrdered, apply_ite (List.map f), List.map_cons,
      map_insertBehind]
    rfl

theorem insertBehind_perm (key : τ → ℤ) (t : τ) (l : List τ) :
    (insertBehind key t l).Perm (t :: l) := by
  induction l with
  | nil => exact List.Perm.refl _
  | cons x l ih =>
    rw [insertBehind]
    split_ifs
    · exact (ih.cons x).trans (List.Perm.swap t x l)
    · exact List.Perm.refl _

/-- `pushOrdered` adds one occurrence of the new thread and keeps all others. -/
theorem pushOrdered_perm (key : τ → ℤ) (l : List τ) (t : τ) :
    (pushOrdered key l t).Perm (t :: l) := by
  cases l with
  | nil => exact List.Perm.refl _
  | cons x l =>
    rw [pushOrdered]
    split_ifs
    · exact ((insertBehind_perm key t l).cons x).trans (List.Perm.swap t x l)
    · exact List.Perm.swap t x l

theorem foldl_pushOrdered_perm (key : τ → ℤ) (l m : List τ) :
    (l.foldl (pushOrdered key) m).Perm (l ++ m) := by
  induction l generalizing m with
  | nil => exact List.Perm.refl _
  | cons t l ih =>
    refine (ih _).trans (((pushOrdered_perm key m t).append_left l).trans ?_)
    exact List.perm_middle

/-- `orderByOldest` permutes the list. -/
theorem orderByOldest_perm (key : τ → ℤ) (l : List τ) : (orderByOldest key l).Perm l := by
  simpa only [orderByOldest, List.append_nil] using foldl_pushOrdered_perm key l []

theorem push_perm (l : List τ) (t : τ) : (push l t).Perm (t :: l) :=
  List.perm_append_singleton t l

section Count

variable [DecidableEq τ]

theorem count_push (l : List τ) (t u : τ) : (push l t).count u = (t :: l).count u :=
  (push_perm l t).count_eq u

theorem count_pushOrdered (key : τ → ℤ) (l : List τ) (t u : τ) :
    (pushOrdered key l t).count u = (t :: l).count u :=
  (pushOrdered_perm key l t).count_eq u

theorem count_orderByOldest (key : τ → ℤ) (l : List τ) (u : τ) :
    (orderByOldest key l).count u = l.count u :=
  (orderByOldest_perm key l).count_eq u

theorem count_foldl_pushOrdered (key : τ → ℤ) (l m : List τ) (u : τ) :
    (l.foldl (pushOrdered key) m).count u = l.count u + m.count u := by
  rw [(foldl_pushOrdered_perm key l m).count_eq, List.count_append]

end Count

end OSDesign.Queue
