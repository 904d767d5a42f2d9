import Mathlib.Tactic
import OSDesign.Thread.Queue

/-!
# The thread queues in memory

`LinkedList.c` with its pointers: a list is a header with the addresses of its first and last node,
and the nodes are linked by their fields `next`. The nodes come from `malloc` of the C library
(`LinkedList.c` does not include `vm.h`), so they lie outside the memory that `vm.c` manages; the
header lies where the owner of the list has put it.

Nothing in `LinkedList.c` initialises a header. A list is empty for `empty` and `pop` when `head` is
`NULL`, and for `push` and `pushOrdered` when `tail` is.

A node has a copy of the thread that was pushed. The field `prev` of a node is never used.

The operations refine those on plain lists (`OSDesign.Queue`): if the nodes from `head` on have the
threads of a list, then after `pushOrdered` they have those of the list with the new thread
inserted.

## Main definitions

* `Node`, `LinkedList`, `LinkedList.push`, `LinkedList.pushOrdered`, `LinkedList.pop`,
  `LinkedList.orderByOldest`.
* `LinkedList.Represents`: the list of the addresses and threads of the nodes.

## Main results

* `LinkedList.Represents.push`, `LinkedList.Represents.pushOrdered`, `LinkedList.Represents.pop`,
  `LinkedList.Represents.orderByOldest`.
-/

namespace OSDesign

variable {τ : Type*}

/-- A node of a list: the thread, and the address of the next node or 0. -/
structure Node (τ : Type*) where
  thread : τ
  next : ℕ

/-- The nodes by their addresses. -/
abbrev Nodes (τ : Type*) := ℕ → Option (Node τ)

/-- The header of a list. -/
structure LinkedList where
  tail : ℕ
  head : ℕ
  nitems : ℕ
deriving DecidableEq

/-- `newNode`, for the address `n` that `malloc` has returned. A `NULL` pointer is followed. -/
def newNode (nodes : Nodes τ) (n : ℕ) (t : τ) : Option (Nodes τ) :=
  if n = 0 then none else some (Function.update nodes n (some ⟨t, 0⟩))

/-- `node->next = next`, for a node that is there. -/
def setNext (nodes : Nodes τ) (node next : ℕ) : Option (Nodes τ) :=
  (nodes node).map fun x => Function.update nodes node (some { x with next })

namespace LinkedList

/-- `empty`. -/
def isEmpty (l : LinkedList) : Bool := l.head == 0

/-- `push`. -/
def push (l : LinkedList) (nodes : Nodes τ) (n : ℕ) (t : τ) : Option (LinkedList × Nodes τ) :=
  (newNode nodes n t).bind fun nodes =>
    if l.tail = 0 then some (⟨n, n, 1⟩, nodes)
    else (setNext nodes l.tail n).map fun nodes =>
      (⟨n, l.head, (l.nitems + 1) % 2 ^ 32⟩, nodes)

/-- The loop of `pushOrdered`: the node behind which the new one is put. -/
def scan (key : τ → ℤ) (nodes : Nodes τ) (t : τ) : ℕ → ℕ → ℕ → Option ℕ
  | 0, _, _ => none
  | fuel + 1, tmp, last =>
    if tmp = 0 then some last
    else (nodes tmp).bind fun x =>
      if key x.thread ≤ key t then scan key nodes t fuel x.next tmp else some last

/-- `pushOrdered`, for the key that its argument `order` selects. -/
def pushOrdered (fuel : ℕ) (key : τ → ℤ) (l : LinkedList) (nodes : Nodes τ) (n : ℕ) (t : τ) :
    Option (LinkedList × Nodes τ) :=
  (newNode nodes n t).bind fun nodes =>
    if l.tail = 0 then some (⟨n, n, 1⟩, nodes)
    else (scan key nodes t fuel l.head l.head).bind fun last =>
      (nodes last).bind fun x =>
        (setNext nodes n x.next).bind fun nodes =>
          (setNext nodes last n).map fun nodes =>
            (⟨if x.next = 0 then n else l.tail, if x.next = l.head then n else l.head,
              (l.nitems + 1) % 2 ^ 32⟩, nodes)

/-- `pop`: the thread of the first node. The node itself is not freed. -/
def pop (l : LinkedList) (nodes : Nodes τ) : Option (τ × LinkedList) :=
  if l.head = 0 then none
  else (nodes l.head).map fun x =>
    (x.thread, ⟨if x.next = 0 then 0 else l.tail, x.next, (l.nitems + (2 ^ 32 - 1)) % 2 ^ 32⟩)

/-- The loop of `orderByOldest`: the threads are popped from `l` and pushed to `new`. The `i`-th
call of `malloc` returns `malloc i`. -/
def moveOrdered (key : τ → ℤ) (malloc : ℕ → ℕ) : ℕ → LinkedList → LinkedList → Nodes τ → ℕ →
    Option (LinkedList × Nodes τ × ℕ)
  | 0, _, _, _, _ => none
  | fuel + 1, l, new, nodes, i =>
    if l.isEmpty then some (new, nodes, i)
    else (l.pop nodes).bind fun (t, l) =>
      (new.pushOrdered (fuel + 1) key nodes (malloc i) t).bind fun (new, nodes) =>
        moveOrdered key malloc fuel l new nodes (i + 1)

/-- `orderByOldest`, when the header that `malloc` returns is zero. -/
def orderByOldest (fuel : ℕ) (key : τ → ℤ) (malloc : ℕ → ℕ) (l : LinkedList) (nodes : Nodes τ)
    (i : ℕ) : Option (LinkedList × Nodes τ × ℕ) :=
  moveOrdered key malloc fuel l ⟨0, 0, 0⟩ nodes i

/-- A `pop` that leaves the list empty for `empty` leaves it empty for `push` too. -/
theorem pop_tail {l l' : LinkedList} {nodes : Nodes τ} {t : τ}
    (h : l.pop nodes = some (t, l')) (hhead : l'.head = 0) : l'.tail = 0 := by
  rw [pop] at h
  split_ifs at h
  obtain ⟨x, -, hx⟩ := Option.map_eq_some_iff.mp h
  obtain ⟨-, rfl⟩ := Prod.mk.inj hx
  exact if_pos hhead

/-! ### The list of a header -/

/-- The nodes from `a` on are those with the addresses and threads of the list, up to `b`. -/
def Chain (nodes : Nodes τ) : ℕ → List (ℕ × τ) → ℕ → Prop
  | a, [], b => a = b
  | a, x :: xs, b => a = x.1 ∧ a ≠ 0 ∧ ∃ next, nodes a = some ⟨x.2, next⟩ ∧ Chain nodes next xs b

/-- The header `l` is the one of the list `xs` of addresses and threads. -/
structure Represents (nodes : Nodes τ) (l : LinkedList) (xs : List (ℕ × τ)) : Prop where
  chain : Chain nodes l.head xs 0
  nodup : (xs.map Prod.fst).Nodup
  tail : l.tail = (xs.getLast?.map Prod.fst).getD 0
  nitems : l.nitems = xs.length % 2 ^ 32

section Representation

variable {nodes nodes' : Nodes τ} {a b : ℕ} {x y : ℕ × τ} {xs ys : List (ℕ × τ)} {l l' : LinkedList}

theorem Chain.congr (h : Chain nodes a xs b) (heq : ∀ x ∈ xs, nodes' x.1 = nodes x.1) :
    Chain nodes' a xs b := by
  induction xs generalizing a with
  | nil => exact h
  | cons x xs ih =>
    obtain ⟨rfl, ha, next, hx, hxs⟩ := h
    refine ⟨rfl, ha, next, ?_, ih hxs fun y hy => heq y (List.mem_cons_of_mem _ hy)⟩
    rw [heq x List.mem_cons_self, hx]

theorem chain_append :
    Chain nodes a (xs ++ ys) b ↔ ∃ c, Chain nodes a xs c ∧ Chain nodes c ys b := by
  induction xs generalizing a with
  | nil => simp [Chain]
  | cons x xs ih =>
    simp only [List.cons_append, Chain, ih]
    constructor
    · rintro ⟨hx, ha, next, hnode, c, hxs, hys⟩
      exact ⟨c, ⟨hx, ha, next, hnode, hxs⟩, hys⟩
    · rintro ⟨c, ⟨hx, ha, next, hnode, hxs⟩, hys⟩
      exact ⟨hx, ha, next, hnode, c, hxs, hys⟩

theorem Chain.ne_zero (h : Chain nodes a xs b) (hx : x ∈ xs) : x.1 ≠ 0 := by
  induction xs generalizing a with
  | nil => cases hx
  | cons y xs ih =>
    obtain ⟨rfl, ha, next, -, hxs⟩ := h
    rcases List.mem_cons.mp hx with rfl | hx
    · exact ha
    · exact ih hxs hx

theorem represents_zero (nodes : Nodes τ) : Represents nodes ⟨0, 0, 0⟩ [] :=
  ⟨rfl, List.nodup_nil, rfl, rfl⟩

theorem Represents.head_eq_zero_iff (h : Represents nodes l xs) : l.head = 0 ↔ xs = [] := by
  constructor
  · intro hhead
    cases xs with
    | nil => rfl
    | cons x xs => exact absurd hhead h.chain.2.1
  · rintro rfl
    exact h.chain

theorem Represents.tail_eq_zero_iff (h : Represents nodes l xs) : l.tail = 0 ↔ xs = [] := by
  rcases xs.eq_nil_or_concat' with rfl | ⟨ys, x, rfl⟩
  · simp [h.tail]
  · have hne := h.chain.ne_zero (List.mem_append_right _ List.mem_cons_self)
    simp [h.tail, hne]

theorem Represents.congr (h : Represents nodes l xs) (heq : ∀ x ∈ xs, nodes' x.1 = nodes x.1) :
    Represents nodes' l xs :=
  ⟨h.chain.congr heq, h.nodup, h.tail, h.nitems⟩

/-- The first node is taken off the list. -/
theorem Represents.pop (h : Represents nodes l (x :: xs)) :
    ∃ l', l.pop nodes = some (x.2, l') ∧ Represents nodes l' xs := by
  obtain ⟨hhead, hne, next, hnode, hchain⟩ := h.chain
  refine ⟨⟨if next = 0 then 0 else l.tail, next, (l.nitems + (2 ^ 32 - 1)) % 2 ^ 32⟩, ?_, hchain,
    (List.nodup_cons.mp h.nodup).2, ?_, ?_⟩
  · rw [LinkedList.pop, if_neg hne, hnode]
    rfl
  · have hnext : next = 0 ↔ xs = [] := by
      cases xs with
      | nil => exact ⟨fun _ => rfl, fun _ => hchain⟩
      | cons y ys => exact ⟨fun h0 => absurd h0 hchain.2.1, nofun⟩
    have htail := h.tail
    dsimp only
    split_ifs with h0
    · rw [hnext.mp h0]
      rfl
    · obtain ⟨ys, y, rfl⟩ : ∃ ys y, xs = ys ++ [y] :=
        xs.eq_nil_or_concat'.resolve_left fun hnil => h0 (hnext.mpr hnil)
      rw [htail, ← List.cons_append, List.getLast?_concat, List.getLast?_concat]
  · have hcount := h.nitems
    rw [List.length_cons] at hcount
    dsimp only
    omega

/-- A new node is linked behind one of the list. -/
theorem Chain.insertBehind {n m : ℕ} {t u : τ} (h : Chain nodes a (xs ++ (m, u) :: ys) 0)
    (hnodup : ((xs ++ (m, u) :: ys).map Prod.fst).Nodup) (hn : n ≠ 0)
    (hfresh : n ∉ (xs ++ (m, u) :: ys).map Prod.fst) :
    ∃ next, nodes m = some ⟨u, next⟩ ∧ Chain nodes next ys 0 ∧
      Chain (Function.update (Function.update nodes n (some ⟨t, next⟩)) m (some ⟨u, n⟩)) a
        (xs ++ (m, u) :: (n, t) :: ys) 0 := by
  obtain ⟨c, hxs, hc, hm, next, hnode, hys⟩ := chain_append.mp h
  obtain rfl : m = c := hc.symm
  rw [List.map_append, List.map_cons, List.nodup_middle, List.nodup_cons,
    ← List.map_append] at hnodup
  have hother : ∀ x ∈ xs ++ ys, Function.update (Function.update nodes n (some ⟨t, next⟩)) m
      (some ⟨u, n⟩) x.1 = nodes x.1 := by
    intro x hx
    have hmem : x.1 ∈ (xs ++ ys).map Prod.fst := List.mem_map_of_mem hx
    have hxm : x.1 ≠ m := by
      rintro rfl
      exact hnodup.1 hmem
    have hxn : x.1 ≠ n := by
      rintro rfl
      refine hfresh (List.mem_map_of_mem ?_)
      rw [List.mem_append] at hx ⊢
      exact hx.imp_right (List.mem_cons_of_mem _)
    rw [Function.update_of_ne hxm, Function.update_of_ne hxn]
  have hmn : n ≠ m := fun heq => hfresh (by rw [heq]; simp)
  refine ⟨next, hnode, hys, chain_append.mpr ⟨m, ?_, rfl, hm, n, Function.update_self .., rfl, hn,
    next, ?_, ?_⟩⟩
  · exact hxs.congr fun x hx => hother x (List.mem_append_left _ hx)
  · rw [Function.update_of_ne hmn, Function.update_self]
  · exact hys.congr fun x hx => hother x (List.mem_append_right _ hx)

/-- The loop of `pushOrdered` stops behind the last of the first threads whose keys are not greater.
-/
theorem scan_eq (key : τ → ℤ) (t : τ) {fuel last : ℕ} (h : Chain nodes a xs 0)
    (hfuel : xs.length < fuel) :
    scan key nodes t fuel a last =
      some (((xs.takeWhile fun x => key x.2 ≤ key t).getLast?.map Prod.fst).getD last) := by
  induction xs generalizing a last fuel with
  | nil =>
    obtain ⟨fuel, rfl⟩ := Nat.exists_eq_succ_of_ne_zero (Nat.ne_zero_of_lt hfuel)
    rw [scan, if_pos (show a = 0 from h)]
    rfl
  | cons x xs ih =>
    obtain ⟨fuel, rfl⟩ := Nat.exists_eq_succ_of_ne_zero (Nat.ne_zero_of_lt hfuel)
    obtain ⟨rfl, ha, next, hnode, hxs⟩ := h
    rw [scan, if_neg ha, hnode, Option.bind_some]
    dsimp only
    split_ifs with hkey
    · have htake : (x :: xs).takeWhile (fun y => decide (key y.2 ≤ key t)) =
          x :: xs.takeWhile fun y => decide (key y.2 ≤ key t) := by simp [hkey]
      rw [ih hxs (by simpa using hfuel), htake]
      cases htw : (xs.takeWhile fun x => decide (key x.2 ≤ key t)).getLast? with
      | none =>
        rw [List.getLast?_eq_none_iff] at htw
        rw [htw]
        rfl
      | some y => rw [List.getLast?_cons, htw]; rfl
    · simp [hkey]

/-- What `pushOrdered` does to a list that is not empty: the new thread goes behind the first thread
or, further on, behind those whose keys are not greater. -/
theorem pushOrdered_split (key : τ → ℤ) (x t : τ) (xs : List τ) :
    ∃ pre last post, x :: xs = pre ++ last :: post ∧
      Queue.pushOrdered key (x :: xs) t = pre ++ last :: t :: post ∧
      (if key x ≤ key t then pre ++ [last] = (x :: xs).takeWhile fun y => key y ≤ key t
        else pre = [] ∧ last = x) := by
  by_cases hkey : key x ≤ key t
  · have htake : (x :: xs).takeWhile (fun y => decide (key y ≤ key t)) =
        x :: xs.takeWhile fun y => decide (key y ≤ key t) := by simp [hkey]
    have hdrop : (x :: xs).dropWhile (fun y => decide (key y ≤ key t)) =
        xs.dropWhile fun y => decide (key y ≤ key t) := by simp [hkey]
    obtain ⟨pre, last, hsplit⟩ : ∃ pre last,
        (x :: xs).takeWhile (fun y => decide (key y ≤ key t)) = pre ++ [last] :=
      (List.eq_nil_or_concat' _).resolve_left fun hnil => by rw [htake] at hnil; cases hnil
    refine ⟨pre, last, (x :: xs).dropWhile fun y => decide (key y ≤ key t), ?_, ?_, ?_⟩
    · rw [List.append_cons, ← hsplit, List.takeWhile_append_dropWhile]
    · rw [List.append_cons, ← hsplit, Queue.pushOrdered, if_pos hkey, htake, hdrop,
        Queue.insertBehind_eq]
      rfl
    · rw [if_pos hkey, hsplit]
  · exact ⟨[], x, xs, rfl, by rw [Queue.pushOrdered, if_neg hkey]; rfl,
      by rw [if_neg hkey]; exact ⟨rfl, rfl⟩⟩

/-- A new node is linked behind one of the list, and the header is updated. -/
theorem Represents.insertBehind {n m : ℕ} {u : τ} (t : τ)
    (h : Represents nodes l (xs ++ (m, u) :: ys)) (hn : n ≠ 0)
    (hfresh : n ∉ (xs ++ (m, u) :: ys).map Prod.fst) :
    ∃ next, nodes m = some ⟨u, next⟩ ∧ next ≠ l.head ∧
      Represents (Function.update (Function.update nodes n (some ⟨t, next⟩)) m (some ⟨u, n⟩))
        ⟨if next = 0 then n else l.tail, l.head, (l.nitems + 1) % 2 ^ 32⟩
        (xs ++ (m, u) :: (n, t) :: ys) := by
  obtain ⟨next, hnode, hys, hchain⟩ := h.chain.insertBehind (t := t) h.nodup hn hfresh
  have hnext : next = 0 ↔ ys = [] := by
    cases ys with
    | nil => exact ⟨fun _ => rfl, fun _ => hys⟩
    | cons y ys => exact ⟨fun h0 => absurd h0 hys.2.1, nofun⟩
  refine ⟨next, hnode, ?_, hchain, ?_, ?_, ?_⟩
  · -- the head is not behind `m`
    have hmem : l.head ∈ (xs ++ [(m, u)]).map Prod.fst := by
      cases xs with
      | nil => exact List.mem_singleton.mpr h.chain.1
      | cons x xs => exact List.mem_cons.mpr (Or.inl h.chain.1)
    intro heq
    cases ys with
    | nil => exact (h.head_eq_zero_iff.not.mpr (by simp)) (heq ▸ hnext.mpr rfl)
    | cons y ys =>
      have hnodup := h.nodup
      rw [List.append_cons, List.map_append, List.nodup_append] at hnodup
      exact hnodup.2.2 _ hmem _ (List.mem_map_of_mem List.mem_cons_self) (heq ▸ hys.1)
  · have hperm : (xs ++ (m, u) :: (n, t) :: ys).Perm ((n, t) :: (xs ++ (m, u) :: ys)) := by
      rw [List.append_cons, List.append_cons xs _ ys]
      exact List.perm_middle
    rw [(hperm.map Prod.fst).nodup_iff, List.map_cons, List.nodup_cons]
    exact ⟨hfresh, h.nodup⟩
  · have htail := h.tail
    dsimp only
    split_ifs with h0
    · rw [hnext.mp h0, List.append_cons, List.getLast?_concat]
      rfl
    · obtain ⟨zs, z, rfl⟩ : ∃ zs z, ys = zs ++ [z] :=
        ys.eq_nil_or_concat'.resolve_left fun hnil => h0 (hnext.mpr hnil)
      rw [htail, ← List.cons_append, ← List.append_assoc, List.getLast?_concat, ← List.cons_append,
        ← List.cons_append, ← List.append_assoc, List.getLast?_concat]
  · have hcount := h.nitems
    rw [List.length_append, List.length_cons] at hcount ⊢
    rw [List.length_cons]
    dsimp only
    omega

/-- `pushOrdered` puts the new node where the operation on lists puts the new thread, and changes no
node outside the list. -/
theorem Represents.pushOrdered (h : Represents nodes l xs) (key : τ → ℤ) {fuel n : ℕ} (t : τ)
    (hfuel : xs.length < fuel) (hn : n ≠ 0) (hfresh : n ∉ xs.map Prod.fst) :
    ∃ l' nodes', l.pushOrdered fuel key nodes n t = some (l', nodes') ∧
      Represents nodes' l' (Queue.pushOrdered (fun x => key x.2) xs (n, t)) ∧
      ∀ m, m ≠ n → m ∉ xs.map Prod.fst → nodes' m = nodes m := by
  have hnew : newNode nodes n t = some (Function.update nodes n (some ⟨t, 0⟩)) := if_neg hn
  cases xs with
  | nil =>
    refine ⟨⟨n, n, 1⟩, _, ?_,
      ⟨⟨rfl, hn, 0, Function.update_self .., rfl⟩, List.nodup_singleton n, rfl,
      rfl⟩, fun m hm _ => Function.update_of_ne hm ..⟩
    rw [LinkedList.pushOrdered, hnew, Option.bind_some, if_pos (h.tail_eq_zero_iff.mpr rfl)]
  | cons x xs =>
    obtain ⟨pre, ⟨m, u⟩, post, hsplit, hpush, hwhere⟩ :=
      pushOrdered_split (fun x : ℕ × τ => key x.2) x (n, t) xs
    have htail : l.tail ≠ 0 := fun h0 => List.cons_ne_nil _ _ (h.tail_eq_zero_iff.mp h0)
    have hchain₁ : Chain (Function.update nodes n (some ⟨t, 0⟩)) l.head (x :: xs) 0 :=
      h.chain.congr fun y hy => Function.update_of_ne
        (fun heq => hfresh (by rw [← heq]; exact List.mem_map_of_mem hy)) _ _
    have hscan :
        scan key (Function.update nodes n (some ⟨t, 0⟩)) t fuel l.head l.head = some m := by
      rw [scan_eq key t hchain₁ hfuel]
      split_ifs at hwhere with hkey
      · rw [← hwhere, List.getLast?_concat]
        rfl
      · have htake : (x :: xs).takeWhile (fun y => decide (key y.2 ≤ key t)) = [] := by simp [hkey]
        rw [htake, h.chain.1, ← hwhere.2]
        rfl
    rw [hsplit] at h hfresh ⊢
    obtain ⟨next, hnode, hhead, hrep⟩ := h.insertBehind t hn hfresh
    have hmn : m ≠ n := fun heq => hfresh (by rw [← heq]; simp)
    have hset : setNext (Function.update nodes n (some ⟨t, 0⟩)) n next =
        some (Function.update nodes n (some ⟨t, next⟩)) := by
      rw [setNext, Function.update_self, Option.map_some, Function.update_idem]
    have hlink : setNext (Function.update nodes n (some ⟨t, next⟩)) m n =
        some (Function.update (Function.update nodes n (some ⟨t, next⟩)) m (some ⟨u, n⟩)) := by
      rw [setNext, Function.update_of_ne hmn, hnode, Option.map_some]
    refine ⟨⟨if next = 0 then n else l.tail, l.head, (l.nitems + 1) % 2 ^ 32⟩,
      Function.update (Function.update nodes n (some ⟨t, next⟩)) m (some ⟨u, n⟩), ?_,
      by rwa [← hsplit, hpush], fun k hk hk' => ?_⟩
    rotate_left
    · have hkm : k ≠ m := fun heq => hk' (by rw [heq]; simp)
      rw [Function.update_of_ne hkm, Function.update_of_ne hk]
    · rw [LinkedList.pushOrdered, hnew, Option.bind_some, if_neg htail, hscan, Option.bind_some,
        Function.update_of_ne hmn, hnode, Option.bind_some]
      dsimp only
      rw [hset, Option.bind_some, hlink, Option.map_some, if_neg hhead]

/-- `push` puts the new node at the end and changes no node outside the list. -/
theorem Represents.push (h : Represents nodes l xs) {n : ℕ} (t : τ) (hn : n ≠ 0)
    (hfresh : n ∉ xs.map Prod.fst) :
    ∃ l' nodes', l.push nodes n t = some (l', nodes') ∧ Represents nodes' l' (xs ++ [(n, t)]) ∧
      ∀ m, m ≠ n → m ∉ xs.map Prod.fst → nodes' m = nodes m := by
  have hnew : newNode nodes n t = some (Function.update nodes n (some ⟨t, 0⟩)) := if_neg hn
  rcases xs.eq_nil_or_concat' with rfl | ⟨ys, ⟨m, u⟩, rfl⟩
  · refine ⟨⟨n, n, 1⟩, Function.update nodes n (some ⟨t, 0⟩), ?_,
      ⟨⟨rfl, hn, 0, Function.update_self .., rfl⟩, List.nodup_singleton n, rfl, rfl⟩,
      fun m hm _ => Function.update_of_ne hm ..⟩
    rw [LinkedList.push, hnew, Option.bind_some, if_pos (h.tail_eq_zero_iff.mpr rfl)]
  · obtain ⟨next, hnode, -, hrep⟩ := h.insertBehind t hn hfresh
    have htail : l.tail = m := by
      rw [h.tail, List.getLast?_concat]
      rfl
    have hne : l.tail ≠ 0 := fun h0 => by simpa using h.tail_eq_zero_iff.mp h0
    -- the last node has no successor
    obtain rfl : next = 0 := by
      obtain ⟨c, -, hc, -, next', hnode', hnext⟩ := chain_append.mp h.chain
      obtain rfl : c = m := hc
      rw [hnode] at hnode'
      cases hnode'
      exact hnext
    have hmn : m ≠ n := fun heq => hfresh (by rw [← heq]; simp)
    have hlink : setNext (Function.update nodes n (some ⟨t, 0⟩)) m n =
        some (Function.update (Function.update nodes n (some ⟨t, 0⟩)) m (some ⟨u, n⟩)) := by
      rw [setNext, Function.update_of_ne hmn, hnode, Option.map_some]
    rw [if_pos rfl] at hrep
    refine ⟨_, _, ?_, by rw [List.append_assoc]; exact hrep, fun k hk hk' => ?_⟩
    · rw [LinkedList.push, hnew, Option.bind_some, if_neg hne, htail, hlink, Option.map_some]
    · have hkm : k ≠ m := fun heq => hk' (by rw [heq]; simp)
      rw [Function.update_of_ne hkm, Function.update_of_ne hk]

/-- The loop of `orderByOldest` empties the list `l` into `new`. The nodes it needs are new ones,
and no node outside `new` is changed. -/
theorem Represents.moveOrdered (h : Represents nodes l xs) (hnew : Represents nodes l' ys)
    (key : τ → ℤ) {malloc : ℕ → ℕ} {fuel i : ℕ} (hfuel : 2 * xs.length + ys.length < fuel)
    (hdisj : ∀ x ∈ xs, x.1 ∉ ys.map Prod.fst) (hmalloc : malloc.Injective)
    (hfresh : ∀ j, i ≤ j → malloc j ≠ 0 ∧ malloc j ∉ (xs ++ ys).map Prod.fst) :
    ∃ new nodes' zs, LinkedList.moveOrdered key malloc fuel l l' nodes i =
        some (new, nodes', i + xs.length) ∧ Represents nodes' new zs ∧
      zs.map Prod.snd = (xs.map Prod.snd).foldl (Queue.pushOrdered key) (ys.map Prod.snd) ∧
      (∀ z ∈ zs, z.1 ∈ ys.map Prod.fst ∨ ∃ j, i ≤ j ∧ j < i + xs.length ∧ z.1 = malloc j) ∧
      ∀ m, m ∉ ys.map Prod.fst → (∀ j, i ≤ j → m ≠ malloc j) → nodes' m = nodes m := by
  induction xs generalizing nodes l l' ys fuel i with
  | nil =>
    obtain ⟨fuel, rfl⟩ := Nat.exists_eq_add_one_of_ne_zero (Nat.ne_zero_of_lt hfuel)
    refine ⟨l', nodes, ys, ?_, hnew, rfl, fun z hz => Or.inl (List.mem_map_of_mem hz),
      fun _ _ _ => rfl⟩
    rw [LinkedList.moveOrdered, isEmpty, h.head_eq_zero_iff.mpr rfl]
    rfl
  | cons x xs ih =>
    obtain ⟨fuel, rfl⟩ := Nat.exists_eq_add_one_of_ne_zero (Nat.ne_zero_of_lt hfuel)
    rw [List.length_cons] at hfuel
    obtain ⟨l₁, hpop, hrest⟩ := h.pop
    obtain ⟨hi0, hi⟩ := hfresh i le_rfl
    rw [List.map_append, List.mem_append, not_or, List.map_cons, List.mem_cons, not_or] at hi
    have hlen : ys.length < fuel + 1 := by omega
    obtain ⟨new, nodes₁, hpush, hrep, hframe⟩ := hnew.pushOrdered key x.2 hlen hi0 hi.2
    have hperm := Queue.pushOrdered_perm (fun y : ℕ × τ => key y.2) ys (malloc i, x.2)
    have hmem : ∀ a, a ∈ (Queue.pushOrdered (fun y : ℕ × τ => key y.2) ys (malloc i, x.2)).map
        Prod.fst ↔ a = malloc i ∨ a ∈ ys.map Prod.fst := fun a => by
      rw [(hperm.map Prod.fst).mem_iff, List.map_cons, List.mem_cons]
    have hlen' : 2 * xs.length +
        (Queue.pushOrdered (fun y : ℕ × τ => key y.2) ys (malloc i, x.2)).length < fuel := by
      rw [hperm.length_eq, List.length_cons]
      omega
    have hxs : ∀ y ∈ xs, y.1 ≠ malloc i ∧ y.1 ∉ ys.map Prod.fst := fun y hy =>
      ⟨fun heq => hi.1.2 (heq ▸ List.mem_map_of_mem hy), hdisj y (List.mem_cons_of_mem _ hy)⟩
    have hrest' : Represents nodes₁ l₁ xs :=
      hrest.congr fun y hy => hframe y.1 (hxs y hy).1 (hxs y hy).2
    obtain ⟨new', nodes', zs, hmove, hzs, hmap, haddr, hrests⟩ := ih (i := i + 1) hrest' hrep hlen'
      (fun y hy hy' => ((hmem y.1).mp hy').elim (hxs y hy).1 (hxs y hy).2)
      (fun j hj => by
        obtain ⟨hj0, hj'⟩ := hfresh j (by omega)
        rw [List.map_append, List.mem_append, not_or, List.map_cons, List.mem_cons, not_or] at hj'
        rw [List.map_append, List.mem_append, hmem, not_or, not_or]
        exact ⟨hj0, hj'.1.2, fun heq => absurd (hmalloc heq) (by omega), hj'.2⟩)
    refine ⟨new', nodes', zs, ?_, hzs, ?_, fun z hz => ?_, fun m hm hj => ?_⟩
    · rw [LinkedList.moveOrdered, if_neg, hpop, Option.bind_some]
      · dsimp only
        rw [hpush, Option.bind_some]
        dsimp only
        rw [hmove, List.length_cons, Nat.add_right_comm, Nat.add_assoc]
      · rw [isEmpty, beq_iff_eq, h.head_eq_zero_iff]
        exact List.cons_ne_nil _ _
    · rw [hmap, List.map_cons, List.foldl_cons, Queue.map_pushOrdered Prod.snd]
    · rw [List.length_cons]
      rcases haddr z hz with hz | ⟨j, hij, hj, hz⟩
      · rcases (hmem z.1).mp hz with hz | hz
        · exact Or.inr ⟨i, le_rfl, by omega, hz⟩
        · exact Or.inl hz
      · exact Or.inr ⟨j, by omega, by omega, hz⟩
    · have hmi : m ≠ malloc i := hj i le_rfl
      rw [hrests m (fun hm' => ((hmem m).mp hm').elim hmi hm) fun j hij => hj j (by omega),
        hframe m hmi hm]

/-- `orderByOldest` does what the operation on lists does, with new nodes only. -/
theorem Represents.orderByOldest (h : Represents nodes l xs) (key : τ → ℤ) {malloc : ℕ → ℕ}
    {fuel i : ℕ} (hfuel : 2 * xs.length < fuel) (hmalloc : malloc.Injective)
    (hfresh : ∀ j, i ≤ j → malloc j ≠ 0 ∧ malloc j ∉ xs.map Prod.fst) :
    ∃ l' nodes' ys, l.orderByOldest fuel key malloc nodes i = some (l', nodes', i + xs.length) ∧
      Represents nodes' l' ys ∧ ys.map Prod.snd = Queue.orderByOldest key (xs.map Prod.snd) ∧
      (∀ y ∈ ys, ∃ j, i ≤ j ∧ j < i + xs.length ∧ y.1 = malloc j) ∧
      ∀ m, (∀ j, i ≤ j → m ≠ malloc j) → nodes' m = nodes m := by
  obtain ⟨l', nodes', ys, hmove, hrep, hmap, haddr, hframe⟩ :=
    h.moveOrdered (represents_zero nodes) key (by simpa using hfuel) (fun _ _ => by simp) hmalloc
      (by simpa only [List.append_nil] using hfresh)
  exact ⟨l', nodes', ys, hmove, hrep, hmap, fun y hy => (haddr y hy).resolve_left nofun,
    fun m => hframe m nofun⟩

end Representation

end LinkedList

end OSDesign
