import Mathlib.Data.List.TakeWhile
import OSDesign.Thread.LinkedList
import OSDesign.Thread.Scheduler

/-!
# The order of the queues

The run queue is to be sorted by priority, so that the thread with the least value runs next, and
every 150 schedulings by creation time. Both orders are kept by `pushOrdered`, and the second one is
produced by `orderByOldest`, an insertion sort built from `pop` and `pushOrdered`.

`pushOrdered` starts with `last` at the head of the list and links the new node behind `last`. It
sets `l->head` to the new node if the node behind the new one is the head, which never happens,
since the new node stands behind a node of the list. So a thread whose key is less than the key of
the head is not put in front of it. An insertion keeps the order exactly if the key of the head is
not greater, and the pass sorts the queue exactly if its first thread is one of the oldest already.

Keys are what `getPriority` and `getTimeCreated` return.

## Main definitions

* `OrderedInsertion`: what an insertion in a sorted list is to do.
* `OldestFirst`: what the maintenance pass is to do.

## Main results

* `ordered_insertion_iff`, `oldest_first_iff`.
-/

namespace OSDesign

variable {τ : Type*}

/-- The list is sorted by the key. -/
def SortedBy (key : τ → ℤ) (l : List τ) : Prop := l.Pairwise fun x y => key x ≤ key y

/-- `l'` is the list `l` with `t` put behind the elements whose keys are at most its own and in
front of those with greater keys, and is sorted. -/
structure OrderedInsertion (key : τ → ℤ) (l : List τ) (t : τ) (l' : List τ) : Prop where
  sorted : SortedBy key l'
  place : ∃ a b, l = a ++ b ∧ l' = a ++ t :: b ∧ (∀ x ∈ a, key x ≤ key t) ∧ ∀ x ∈ b, key t < key x

/-- `l'` has the elements of `l` in the order of their keys, those with one key in their old order,
and its first element is one with the least key. -/
structure OldestFirst (key : τ → ℤ) (l l' : List τ) : Prop where
  perm : l'.Perm l
  sorted : SortedBy key l'
  stable : ∀ k, l'.filter (fun x => key x = k) = l.filter fun x => key x = k
  first : ∀ x ∈ l'.head?, ∀ y ∈ l, key x ≤ key y

/-- The key by which `pushOrdered` compares threads for its argument `order`. -/
def OS.orderKey (s : OS) (order : Int32) : Tid → ℤ := if order = 0 then s.prio else s.age

namespace Queue

section Insertion

variable {key : τ → ℤ} {l : List τ} {t : τ}

/-- In a sorted list the elements behind the scanned ones have greater keys. -/
theorem lt_of_mem_dropWhile (hl : SortedBy key l) {x : τ}
    (hx : x ∈ l.dropWhile fun x => key x ≤ key t) : key t < key x := by
  induction l with
  | nil => cases hx
  | cons y l ih =>
    obtain ⟨hy, hl⟩ := List.pairwise_cons.mp hl
    by_cases hkey : key y ≤ key t
    · exact ih hl (by simpa [List.dropWhile_cons, hkey] using hx)
    · have hmem : x ∈ y :: l := by simpa [List.dropWhile_cons, hkey] using hx
      rcases List.mem_cons.mp hmem with rfl | hxl
      · exact not_le.mp hkey
      · exact (not_le.mp hkey).trans_le (hy x hxl)

/-- A thread put between those with smaller and those with greater keys keeps the order. -/
theorem SortedBy.insert {a b : List τ} (h : SortedBy key (a ++ b)) (ha : ∀ x ∈ a, key x ≤ key t)
    (hb : ∀ x ∈ b, key t < key x) : SortedBy key (a ++ t :: b) := by
  obtain ⟨h₁, h₂, h₃⟩ := List.pairwise_append.mp h
  refine List.pairwise_append.mpr ⟨h₁, List.pairwise_cons.mpr ⟨fun x hx => (hb x hx).le, h₂⟩, ?_⟩
  intro x hx y hy
  rcases List.mem_cons.mp hy with rfl | hy
  · exact ha x hx
  · exact h₃ x hx y hy

theorem insertBehind_ordered (hl : SortedBy key l) :
    OrderedInsertion key l t (insertBehind key t l) := by
  have hsplit :=
    (List.takeWhile_append_dropWhile (p := fun x => decide (key x ≤ key t)) (l := l)).symm
  have ha : ∀ x ∈ l.takeWhile (fun x => decide (key x ≤ key t)), key x ≤ key t := fun x hx => by
    simpa using List.mem_takeWhile_imp hx
  have hb : ∀ x ∈ l.dropWhile (fun x => decide (key x ≤ key t)), key t < key x := fun x hx =>
    lt_of_mem_dropWhile hl hx
  rw [insertBehind_eq]
  exact ⟨SortedBy.insert (hsplit ▸ hl) ha hb, _, _, hsplit, rfl, ha, hb⟩

/-- If the head's key is not greater, the scan is the one of a list without a special head. -/
theorem pushOrdered_eq_insertBehind (hhead : ∀ x ∈ l.head?, key x ≤ key t) :
    pushOrdered key l t = insertBehind key t l := by
  cases l with
  | nil => rfl
  | cons x l => rw [pushOrdered, insertBehind, if_pos (hhead x rfl), if_pos (hhead x rfl)]

/-- An insertion keeps the order if and only if the new thread does not belong in front. -/
theorem pushOrdered_ordered_iff (hl : SortedBy key l) :
    OrderedInsertion key l t (pushOrdered key l t) ↔ ∀ x ∈ l.head?, key x ≤ key t := by
  refine ⟨fun h x hx => ?_, fun hhead => ?_⟩
  · -- the head is still in front
    obtain ⟨l, rfl⟩ := List.head?_eq_some_iff.mp hx
    have hfront : ∃ l', pushOrdered key (x :: l) t = x :: l' ∧ t ∈ l' := by
      rw [pushOrdered]
      split_ifs
      · exact ⟨_, rfl, (insertBehind_perm key t l).mem_iff.mpr List.mem_cons_self⟩
      · exact ⟨_, rfl, List.mem_cons_self⟩
    obtain ⟨l', heq, ht⟩ := hfront
    exact (List.pairwise_cons.mp (heq ▸ h.sorted)).1 t ht
  · rw [pushOrdered_eq_insertBehind hhead]
    exact insertBehind_ordered hl

/-- The new thread stands behind those with its own key. -/
theorem filter_insertBehind (hl : SortedBy key l) (k : ℤ) :
    (insertBehind key t l).filter (fun x => key x = k) = (l ++ [t]).filter fun x => key x = k := by
  obtain ⟨a, b, rfl, heq, -, hb⟩ := (insertBehind_ordered (t := t) hl).place
  rw [heq, List.filter_append, List.filter_append, List.filter_append, List.append_assoc]
  congr 1
  by_cases hk : key t = k
  · have hnil : b.filter (fun x => key x = k) = [] :=
      List.filter_eq_nil_iff.mpr fun x hx => by simpa [← hk] using (hb x hx).ne'
    rw [hnil, List.filter_cons_of_pos (by simpa using hk), hnil]
    simp [hk]
  · simp [hk]

/-- A fold over threads that are not older than the head inserts all of them behind it, in order. -/
theorem foldl_pushOrdered_sorted {m : List τ} {h : τ} (hm : SortedBy key m) (hhead : h ∈ m.head?)
    (hl : ∀ y ∈ l, key h ≤ key y) :
    SortedBy key (l.foldl (pushOrdered key) m) ∧
      (∀ k, (l.foldl (pushOrdered key) m).filter (fun x => key x = k) =
        (m ++ l).filter fun x => key x = k) ∧
      h ∈ (l.foldl (pushOrdered key) m).head? := by
  induction l generalizing m with
  | nil => exact ⟨hm, fun k => by rw [List.append_nil]; rfl, hhead⟩
  | cons t l ih =>
    obtain ⟨m, rfl⟩ := List.head?_eq_some_iff.mp hhead
    have ht : key h ≤ key t := hl t List.mem_cons_self
    have hpush : pushOrdered key (h :: m) t = insertBehind key t (h :: m) :=
      pushOrdered_eq_insertBehind fun x hx => by obtain rfl := Option.some.inj hx; exact ht
    have hfront : h ∈ (insertBehind key t (h :: m)).head? := by
      rw [insertBehind, if_pos ht]
      rfl
    obtain ⟨hsorted, hstable, hfirst⟩ := ih (m := insertBehind key t (h :: m))
      (insertBehind_ordered hm).sorted hfront fun y hy => hl y (List.mem_cons_of_mem _ hy)
    rw [List.foldl_cons, hpush]
    refine ⟨hsorted, fun k => ?_, hfirst⟩
    rw [hstable, List.filter_append, filter_insertBehind hm, ← List.filter_append,
      List.append_assoc, List.singleton_append]

/-- The first thread stays in front. -/
theorem head?_foldl_pushOrdered (x : τ) (l m : List τ) :
    (l.foldl (pushOrdered key) (x :: m)).head? = some x := by
  induction l generalizing m with
  | nil => rfl
  | cons t l ih =>
    rw [List.foldl_cons, pushOrdered]
    split_ifs
    · exact ih _
    · exact ih _

/-- The pass sorts the queue if and only if its first thread is one of the oldest. -/
theorem orderByOldest_oldestFirst_iff :
    OldestFirst key l (orderByOldest key l) ↔ ∀ x ∈ l.head?, ∀ y ∈ l, key x ≤ key y := by
  cases l with
  | nil =>
    exact ⟨nofun, fun _ => ⟨List.Perm.refl _, List.Pairwise.nil, fun _ => rfl, nofun⟩⟩
  | cons x l =>
    have hfirst : (orderByOldest key (x :: l)).head? = some x := head?_foldl_pushOrdered x l []
    refine ⟨fun h => ?_, fun h => ?_⟩
    · rw [List.head?_cons, ← hfirst]
      exact h.first
    · have hx := h x rfl
      obtain ⟨hsorted, hstable, -⟩ :=
        foldl_pushOrdered_sorted (m := [x]) (List.pairwise_singleton _ x)
        rfl fun y hy => hx y (List.mem_cons_of_mem _ hy)
      exact ⟨orderByOldest_perm key _, hsorted, hstable, by rw [hfirst]; exact h⟩

end Insertion

end Queue

open LinkedList

/-- `pushOrdered` ends, and it puts the thread in its place if and only if the list is empty or the
key of its first thread is not greater than the key of the new one. -/
theorem ordered_insertion_iff (s : OS) (order : Int32) {l : LinkedList} {nodes : Nodes Tid}
    {xs : List (ℕ × Tid)} (hl : Represents nodes l xs)
    (hsorted : SortedBy (s.orderKey order) (xs.map Prod.snd)) (t : Tid) {n fuel : ℕ} (hn : n ≠ 0)
    (hfresh : n ∉ xs.map Prod.fst) (hfuel : xs.length < fuel) :
    ∃ l' nodes' ys, l.pushOrdered fuel (s.orderKey order) nodes n t = some (l', nodes') ∧
      Represents nodes' l' ys ∧
      (OrderedInsertion (s.orderKey order) (xs.map Prod.snd) t (ys.map Prod.snd) ↔
        ∀ x ∈ (xs.map Prod.snd).head?, s.orderKey order x ≤ s.orderKey order t) := by
  obtain ⟨l', nodes', hpush, hrep, -⟩ := hl.pushOrdered (s.orderKey order) t hfuel hn hfresh
  refine ⟨l', nodes', _, hpush, hrep, ?_⟩
  rw [Queue.map_pushOrdered Prod.snd]
  exact Queue.pushOrdered_ordered_iff hsorted

/-- `mainThread` at the address 0, which has run for one quantum, and a new thread at the address 1.
-/
def mainAndNew : OS := myPthreadCreate 9 (scheduler (initOS 7))

/-- A queue with one node. -/
theorem represents_singleton (t : Tid) {n : ℕ} (hn : n ≠ 0) :
    Represents (Function.update (fun _ => none) n (some ⟨t, 0⟩)) ⟨n, n, 1⟩ [(n, t)] :=
  ⟨⟨rfl, hn, 0, Function.update_self .., rfl⟩, List.nodup_singleton n, rfl, rfl⟩

/-- `mainThread`, a thread created at 9 and one created at 8. -/
def bornApart : OS := myPthreadCreate 8 (myPthreadCreate 9 (initOS 7))

/-- A queue with two nodes. -/
theorem represents_pair (t u : Tid) {n m : ℕ} (hn : n ≠ 0) (hm : m ≠ 0) (hne : n ≠ m) :
    Represents (Function.update (Function.update (fun _ => none) n (some ⟨t, m⟩)) m (some ⟨u, 0⟩))
      ⟨m, n, 2⟩ [(n, t), (m, u)] := by
  refine ⟨⟨rfl, hn, m, ?_, rfl, hm, 0, Function.update_self .., rfl⟩, ?_, rfl, rfl⟩
  · rw [Function.update_of_ne hne, Function.update_self]
  · simpa using hne

/-- The thread created at 8 is put between the other two. -/
theorem ordered_insertion_between :
    ∃ l' nodes' ys, LinkedList.pushOrdered 3 (bornApart.orderKey 1) ⟨11, 10, 2⟩
        (Function.update (Function.update (fun _ => none) 10 (some ⟨0, 11⟩)) 11
          (some ⟨1, 0⟩)) 12 2 = some (l', nodes') ∧
      Represents nodes' l' ys ∧
      OrderedInsertion (bornApart.orderKey 1) [0, 1] 2 (ys.map Prod.snd) ∧
      ∃ a b, a ≠ [] ∧ b ≠ [] ∧ ys.map Prod.snd = a ++ 2 :: b := by
  have hsorted : SortedBy (bornApart.orderKey 1) [0, 1] := by
    rw [SortedBy, List.pairwise_pair]
    decide
  obtain ⟨l', nodes', ys, hpush, hrep, hiff⟩ := ordered_insertion_iff bornApart 1
    (represents_pair 0 1 (n := 10) (m := 11) (by decide) (by decide) (by decide)) hsorted 2
    (n := 12) (by decide) (by decide) (Nat.lt_succ_self _)
  have hins := hiff.mpr (by decide)
  obtain ⟨a, b, hab, heq, ha, hb⟩ := hins.place
  refine ⟨l', nodes', ys, hpush, hrep, hins, a, b, ?_, ?_, heq⟩
  · rintro rfl
    have hmem : 0 ∈ b := (show [0, 1] = b from hab) ▸ List.mem_cons_self
    exact absurd (hb 0 hmem) (by decide)
  · rintro rfl
    have hmem : 1 ∈ a := (show [0, 1] = a from hab.trans (List.append_nil a)) ▸
      List.mem_cons_of_mem 0 List.mem_cons_self
    exact absurd (ha 1 hmem) (by decide)

/-- The new thread, whose priority value is 0, is put behind `mainThread`, whose value is 1. -/
theorem ordered_insertion_before_head :
    SortedBy (mainAndNew.orderKey 0) [0] ∧
      ∃ l' nodes', LinkedList.pushOrdered 2 (mainAndNew.orderKey 0) ⟨10, 10, 1⟩
          (Function.update (fun _ => none) 10 (some ⟨0, 0⟩)) 11 1 = some (l', nodes') ∧
        Represents nodes' l' [(10, 0), (11, 1)] ∧
        ¬ OrderedInsertion (mainAndNew.orderKey 0) [0] 1 [0, 1] := by
  obtain ⟨l', nodes', hpush, hrep, -⟩ := (represents_singleton 0 (n := 10) (by decide)).pushOrdered
    (mainAndNew.orderKey 0) 1 (Nat.lt_succ_self _) (n := 11) (by decide) (by decide)
  refine ⟨List.pairwise_singleton _ _, l', nodes', hpush, hrep, fun h => ?_⟩
  exact absurd ((List.pairwise_cons.mp h.sorted).1 1 List.mem_cons_self) (by decide)

/-- `orderByOldest` ends, and it sorts the queue by creation time if and only if the queue is empty
or its first thread is one of the oldest. -/
theorem oldest_first_iff (s : OS) {l : LinkedList} {nodes : Nodes Tid} {xs : List (ℕ × Tid)}
    (hl : Represents nodes l xs) {malloc : ℕ → ℕ} {i fuel : ℕ} (hmalloc : malloc.Injective)
    (hfresh : ∀ j, i ≤ j → malloc j ≠ 0 ∧ malloc j ∉ xs.map Prod.fst)
    (hfuel : 2 * xs.length < fuel) :
    ∃ l' nodes' ys, l.orderByOldest fuel s.age malloc nodes i = some (l', nodes', i + xs.length) ∧
      Represents nodes' l' ys ∧
      (OldestFirst s.age (xs.map Prod.snd) (ys.map Prod.snd) ↔
        ∀ x ∈ (xs.map Prod.snd).head?, ∀ y ∈ xs.map Prod.snd, s.age x ≤ s.age y) := by
  obtain ⟨l', nodes', ys, horder, hrep, hmap, -⟩ := hl.orderByOldest s.age hfuel hmalloc hfresh
  refine ⟨l', nodes', ys, horder, hrep, ?_⟩
  rw [hmap]
  exact Queue.orderByOldest_oldestFirst_iff

/-- The addresses from 20 on are not those of the two nodes. -/
theorem fresh_pair (t u : Tid) (j : ℕ) :
    20 + j ≠ 0 ∧ 20 + j ∉ [((10 : ℕ), t), (11, u)].map Prod.fst := by
  refine ⟨by omega, ?_⟩
  simp only [List.map_cons, List.map_nil, List.mem_cons, List.not_mem_nil, or_false]
  omega

/-- A queue that has the older thread in front already. -/
theorem oldest_first_in_order :
    ∃ l' nodes' ys, LinkedList.orderByOldest 5 mainAndNew.age (20 + ·) ⟨11, 10, 2⟩
        (Function.update (Function.update (fun _ => none) 10 (some ⟨0, 11⟩)) 11 (some ⟨1, 0⟩)) 0 =
          some (l', nodes', 2) ∧
      Represents nodes' l' ys ∧ OldestFirst mainAndNew.age [0, 1] (ys.map Prod.snd) := by
  obtain ⟨l', nodes', ys, horder, hrep, hiff⟩ := oldest_first_iff mainAndNew
    (represents_pair 0 1 (n := 10) (m := 11) (by decide) (by decide) (by decide))
    (add_right_injective 20) (i := 0) (fun j _ => fresh_pair 0 1 j) (Nat.lt_succ_self _)
  exact ⟨l', nodes', ys, horder, hrep, hiff.mpr (by decide)⟩

/-- A queue in which the younger thread is in front stays as it is. -/
theorem oldest_first_younger_in_front :
    ∃ l' nodes' ys, LinkedList.orderByOldest 5 mainAndNew.age (20 + ·) ⟨11, 10, 2⟩
        (Function.update (Function.update (fun _ => none) 10 (some ⟨1, 11⟩)) 11 (some ⟨0, 0⟩)) 0 =
          some (l', nodes', 2) ∧
      Represents nodes' l' ys ∧ ys.map Prod.snd = [1, 0] ∧
      ¬ OldestFirst mainAndNew.age [1, 0] [1, 0] := by
  obtain ⟨l', nodes', ys, horder, hrep, hmap, -⟩ :=
    (represents_pair 1 0 (n := 10) (m := 11) (by decide) (by decide) (by decide)).orderByOldest
      mainAndNew.age (Nat.lt_succ_self _) (add_right_injective 20) (i := 0)
      (fun j _ => fresh_pair 1 0 j)
  refine ⟨l', nodes', ys, horder, hrep, hmap.trans (by decide), fun h => ?_⟩
  exact absurd (h.first 1 rfl 0 (by decide)) (by decide)

end OSDesign
