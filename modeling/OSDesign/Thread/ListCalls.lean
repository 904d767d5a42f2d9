import OSDesign.Lib.Transition
import OSDesign.Thread.LinkedList

/-!
# A list under any sequence of calls

The calls of `LinkedList.c` on one list, from a zeroed header on. Every node comes from a call of
`malloc`, and no node is given back, so the addresses of the nodes are all different; that is what
makes `pushOrdered` repair `head` and `tail` correctly by comparing pointers.

The threads of the list are those of a plain list. What each call does to the plain list is said by
`ListCall.Does`: where exactly `pushOrdered` inserts is a question of its own
(`OSDesign.Thread.QueueOrder`).

## Main definitions

* `ListState`, `ListCall`, `listStep`: a header, the nodes and the calls.
* `ListCall.Does`: the calls on a plain list.
* `Holds`: the header is that of a list of nodes that `malloc` has returned.

## Main results

* `list_refines`: after every sequence of calls the header is that of a finite list of different
  nodes, and every further call does to its threads what it does to a plain list.
-/

namespace OSDesign

namespace LinkedList

open Transition

variable {τ : Type*}

/-- A list in memory. `used` counts the nodes that `malloc` has returned, and `returned` is what the
last call has returned. -/
structure ListState (τ : Type*) where
  list : LinkedList
  nodes : Nodes τ
  used : ℕ
  returned : Option τ

/-- The calls. The keys of the threads may differ from call to call; `key` is the one that the
argument `order` selects. -/
inductive ListCall (τ : Type*) where
  | push (t : τ)
  | pushOrdered (key : τ → ℤ) (t : τ)
  | pop
  | orderByOldest (key : τ → ℤ)

/-- One call. A list has no more nodes than `malloc` has returned, so the bounds for the loops are
not reached. -/
def listStep (malloc : ℕ → ℕ) (s : ListState τ) : ListCall τ → Option (ListState τ)
  | .push t =>
    (s.list.push s.nodes (malloc s.used) t).map fun (l, nodes) => ⟨l, nodes, s.used + 1, none⟩
  | .pushOrdered key t =>
    (s.list.pushOrdered (s.used + 1) key s.nodes (malloc s.used) t).map fun (l, nodes) =>
      ⟨l, nodes, s.used + 1, none⟩
  | .pop => (s.list.pop s.nodes).map fun (t, l) => ⟨l, s.nodes, s.used, some t⟩
  | .orderByOldest key =>
    (s.list.orderByOldest (2 * s.used + 1) key malloc s.nodes s.used).map fun (l, nodes, used) =>
      ⟨l, nodes, used, none⟩

/-- A zeroed header, before any node. -/
def zeroed (τ : Type*) : ListState τ := ⟨⟨0, 0, 0⟩, fun _ => none, 0, none⟩

/-- `pop` is called on lists that are not empty. -/
def NotEmptied (s : ListState τ) : ListCall τ → Prop
  | .pop => s.list.isEmpty = false
  | _ => True

instance (s : ListState τ) (c : ListCall τ) : Decidable (NotEmptied s c) := by
  rcases c <;> dsimp only [NotEmptied] <;> infer_instance

/-- What a call does to a plain list: the list before and after it, and what it returns. -/
def ListCall.Does : ListCall τ → List τ → List τ → Option τ → Prop
  | .push t, xs, ys, returned => ys = xs ++ [t] ∧ returned = none
  | .pushOrdered _ t, xs, ys, returned =>
    (∃ pre post, xs = pre ++ post ∧ ys = pre ++ t :: post) ∧ returned = none
  | .pop, xs, ys, returned => ∃ t, xs = t :: ys ∧ returned = some t
  | .orderByOldest _, xs, ys, returned => ys.Perm xs ∧ returned = none

/-- The header is that of the list `xs`, whose nodes come from `malloc`. -/
structure Holds (malloc : ℕ → ℕ) (s : ListState τ) (xs : List (ℕ × τ)) : Prop where
  represents : Represents s.nodes s.list xs
  used : ∀ x ∈ xs, ∃ j < s.used, x.1 = malloc j

section Calls

variable {malloc : ℕ → ℕ} {s : ListState τ} {xs : List (ℕ × τ)}

theorem holds_zeroed : Holds malloc (zeroed τ) [] := ⟨represents_zero _, nofun⟩

/-- The nodes that `malloc` has not returned yet are new. -/
theorem Holds.fresh (h : Holds malloc s xs) (hmalloc : malloc.Injective) {j : ℕ} (hj : s.used ≤ j) :
    malloc j ∉ xs.map Prod.fst := by
  intro hmem
  obtain ⟨x, hx, heq⟩ := List.mem_map.mp hmem
  obtain ⟨i, hi, hxi⟩ := h.used x hx
  have hij : i = j := hmalloc (hxi.symm.trans heq)
  omega

/-- A list is no longer than the number of nodes that have been used. -/
theorem Holds.length_le (h : Holds malloc s xs) : xs.length ≤ s.used := by
  have hsub : xs.map Prod.fst ⊆ (List.range s.used).map malloc := by
    intro a ha
    obtain ⟨x, hx, rfl⟩ := List.mem_map.mp ha
    obtain ⟨j, hj, hxj⟩ := h.used x hx
    exact List.mem_map.mpr ⟨j, List.mem_range.mpr hj, hxj.symm⟩
  have hlen := (List.subperm_of_subset h.represents.nodup hsub).length_le
  simpa only [List.length_map, List.length_range] using hlen

/-- `pushOrdered` inserts one thread and keeps the order of the others. -/
theorem exists_pushOrdered (key : τ → ℤ) (l : List τ) (t : τ) :
    ∃ pre post, l = pre ++ post ∧ Queue.pushOrdered key l t = pre ++ t :: post := by
  cases l with
  | nil => exact ⟨[], [], rfl, rfl⟩
  | cons x l =>
    obtain ⟨pre, last, post, hl, hpush, -⟩ := pushOrdered_split key x t l
    exact ⟨pre ++ [last], post, by rw [hl, List.append_assoc]; rfl,
      by rw [hpush, List.append_assoc]; rfl⟩

/-- Every call that is allowed ends, and does to the threads what it does to a plain list. -/
theorem Holds.listStep (h : Holds malloc s xs) (hmalloc : malloc.Injective)
    (hnull : ∀ j, malloc j ≠ 0) {c : ListCall τ} (hc : NotEmptied s c) :
    ∃ s' ys, listStep malloc s c = some s' ∧ Holds malloc s' ys ∧
      c.Does (xs.map Prod.snd) (ys.map Prod.snd) s'.returned := by
  have hnew := h.fresh hmalloc le_rfl
  have hlen := h.length_le
  cases c with
  | push t =>
    obtain ⟨l', nodes', hpush, hrep, -⟩ := h.represents.push t (hnull s.used) hnew
    refine ⟨⟨l', nodes', s.used + 1, none⟩, xs ++ [(malloc s.used, t)], ?_, ⟨hrep, ?_⟩, ?_⟩
    · rw [LinkedList.listStep, hpush]
      rfl
    · intro x hx
      rcases List.mem_append.mp hx with hx | hx
      · obtain ⟨j, hj, hxj⟩ := h.used x hx
        exact ⟨j, hj.trans (Nat.lt_succ_self _), hxj⟩
      · exact ⟨s.used, Nat.lt_succ_self _, by rw [List.mem_singleton.mp hx]⟩
    · exact ⟨List.map_append, rfl⟩
  | pushOrdered key t =>
    obtain ⟨l', nodes', hpush, hrep, -⟩ :=
      h.represents.pushOrdered key t (Nat.lt_succ_of_le hlen) (hnull s.used) hnew
    refine ⟨⟨l', nodes', s.used + 1, none⟩, _, ?_, ⟨hrep, ?_⟩, ?_, rfl⟩
    · rw [LinkedList.listStep, hpush]
      rfl
    · intro x hx
      rcases List.mem_cons.mp ((Queue.pushOrdered_perm _ _ _).mem_iff.mp hx) with rfl | hx
      · exact ⟨s.used, Nat.lt_succ_self _, rfl⟩
      · obtain ⟨j, hj, hxj⟩ := h.used x hx
        exact ⟨j, hj.trans (Nat.lt_succ_self _), hxj⟩
    · rw [Queue.map_pushOrdered Prod.snd]
      exact exists_pushOrdered key _ t
  | pop =>
    cases xs with
    | nil =>
      have hempty : s.list.isEmpty = true := beq_iff_eq.mpr (h.represents.head_eq_zero_iff.mpr rfl)
      rw [NotEmptied, hempty] at hc
      cases hc
    | cons x xs =>
      obtain ⟨l', hpop, hrep⟩ := h.represents.pop
      refine ⟨⟨l', s.nodes, s.used, some x.2⟩, xs, ?_,
        ⟨hrep, fun y hy => h.used y (List.mem_cons_of_mem _ hy)⟩, x.2, rfl, rfl⟩
      rw [LinkedList.listStep, hpop]
      rfl
  | orderByOldest key =>
    have hfuel : 2 * xs.length < 2 * s.used + 1 := by omega
    obtain ⟨l', nodes', ys, horder, hrep, hmap, haddr, -⟩ :=
      h.represents.orderByOldest key hfuel hmalloc fun j hj => ⟨hnull j, h.fresh hmalloc hj⟩
    refine ⟨⟨l', nodes', s.used + xs.length, none⟩, ys, ?_, ⟨hrep, ?_⟩, ?_, rfl⟩
    · rw [LinkedList.listStep, horder]
      rfl
    · intro y hy
      obtain ⟨j, -, hj, hyj⟩ := haddr y hy
      exact ⟨j, hj, hyj⟩
    · rw [hmap]
      exact Queue.orderByOldest_perm key _

/-- Every sequence of allowed calls ends in a list. -/
theorem Holds.run (h : Holds malloc s xs) (hmalloc : malloc.Injective) (hnull : ∀ j, malloc j ≠ 0)
    {calls : List (ListCall τ)} (hok : RunOk (LinkedList.listStep malloc) NotEmptied s calls) :
    ∃ s' ys, Transition.run (LinkedList.listStep malloc) s calls = some s' ∧
      Holds malloc s' ys := by
  induction calls generalizing s xs with
  | nil => exact ⟨s, xs, rfl, h⟩
  | cons c calls ih =>
    obtain ⟨s₁, ys, hstep, hholds, -⟩ := h.listStep hmalloc hnull hok.1
    obtain ⟨s', zs, hrun, hend⟩ := ih hholds (hok.2 s₁ hstep)
    exact ⟨s', zs, by rw [run_cons, hstep, Option.bind_some, hrun], hend⟩

end Calls

/-- From a zeroed header every sequence of calls, with `pop` on lists that are not empty, ends. The
nodes from `head` on are then finitely many and different, the last one is `tail`, `head` is `NULL`
exactly when `tail` is, and `nitems` is their number; and every further call ends in such a list,
whose threads are those of the plain list after the call. -/
theorem list_refines {malloc : ℕ → ℕ} (hmalloc : malloc.Injective) (hnull : ∀ j, malloc j ≠ 0)
    {calls : List (ListCall τ)} (hok : RunOk (listStep malloc) NotEmptied (zeroed τ) calls) :
    ∃ s xs, run (listStep malloc) (zeroed τ) calls = some s ∧ Represents s.nodes s.list xs ∧
      (s.list.head = 0 ↔ s.list.tail = 0) ∧
      ∀ c, NotEmptied s c → ∃ s' ys, listStep malloc s c = some s' ∧
        Represents s'.nodes s'.list ys ∧
        c.Does (xs.map Prod.snd) (ys.map Prod.snd) s'.returned := by
  obtain ⟨s, xs, hrun, hholds⟩ := holds_zeroed.run hmalloc hnull hok
  refine ⟨s, xs, hrun, hholds.represents, ?_, fun c hc => ?_⟩
  · rw [hholds.represents.head_eq_zero_iff, hholds.represents.tail_eq_zero_iff]
  · obtain ⟨s', ys, hstep, hholds', hdoes⟩ := hholds.listStep hmalloc hnull hc
    exact ⟨s', ys, hstep, hholds'.represents, hdoes⟩

/-- Two threads are pushed, the list is ordered, and the first thread is popped. -/
theorem list_refines_two :
    ∃ s xs, run (listStep (· + 1)) (zeroed ℕ)
        [.push 7, .pushOrdered (fun t => t) 5, .orderByOldest fun t => t, .pop] = some s ∧
      Represents s.nodes s.list xs ∧ (s.list.head = 0 ↔ s.list.tail = 0) ∧
      ∀ c, NotEmptied s c → ∃ s' ys, listStep (· + 1) s c = some s' ∧
        Represents s'.nodes s'.list ys ∧
        c.Does (xs.map Prod.snd) (ys.map Prod.snd) s'.returned :=
  list_refines (add_left_injective 1) (fun j => Nat.succ_ne_zero j) (by decide)

end LinkedList

end OSDesign
