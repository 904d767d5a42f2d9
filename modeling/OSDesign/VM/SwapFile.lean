import OSDesign.VM.Layout
import OSDesign.VM.PageMove

/-!
# The swap file and its buffers

The swap file is read as a whole into a static array, changed there and written back as a whole. The
functions that do so have an array each, so the pointers in the file are those of the array that was
written last. `getSwap` therefore sets the pointers of all nodes again (`fixSwapPtrs`), in a loop
with the bounds of the one in which `init` has laid out the nodes. It does not set `next` of the
last node: that one is `NULL` in every file, since `init` writes it and no function changes it
(`EndsInNull`).

## Main definitions

* `fixSwapPtrs`, `getSwap`, `writeSwap`, `initSwapFile`.
* `moveOut`, `moveIn`, `swapStep`: what `movePageToSwap` and `findPageInSwap` do to the file.
* `SwapCopied`, `SwapLinks`: the contents of the nodes and pages, and the pointers in an array.

## Main results

* `swapLinks_getSwap`: the pointers after reading a file.
* `swap_round_trip`.
-/

namespace OSDesign.VM

open Transition ByteMemory

/-- `dataStartsAnotherPage`. -/
def dataStartsField : Field := ⟨48, 4⟩

/-- A static array of `SWAP_SIZE` bytes. -/
structure Buffer where
  addr : ℕ
  ne_null : addr ≠ 0
  end_lt : addr + swapSize < 2 ^ 64

/-- The address of the node `i` of the array `swap`. -/
def swapNode (swap i : ℕ) : ℕ := swap + sizeofSpaceNode * i

/-- The address of the node in front of the node `i`, or `NULL`. -/
def previousNode (swap i : ℕ) : ℕ := if i = 0 then 0 else swapNode swap (i - 1)

section Model

variable (pageSize : ℕ)

/-- The address of the slot `i` of the array `swap`. -/
def slotStart (swap i : ℕ) : ℕ := swap + swapMemoryStart + i * pageSize

/-- The number of nodes that `init` lays out. -/
def slotCount : ℕ := (initSwap pageSize 0).length

/-! ### Reading and writing the file -/

/-- The loop of `fixSwapPtrs`, with its variables `nodePtr`, `ptr`, `s` and `old`. -/
def fixSwapLoop (swap : ℕ) : ℕ → ℕ → ℕ → ℕ → ℕ → Memory → Memory
  | 0, _, _, _, _, m => m
  | fuel + 1, nodePtr, ptr, s, old, m =>
    if nodePtr < swap + swapMemoryStart - sizeofSpaceNode ∧
        s < swapSize - (swapMemoryStart + pageSize) then
      let m := startField.set m nodePtr ptr
      let m := prevField.set m nodePtr old
      let m := if old ≠ 0 then nextField.set m old nodePtr else m
      fixSwapLoop swap fuel (nodePtr + sizeofSpaceNode) (ptr + pageSize) (s + pageSize) nodePtr m
    else m

/-- `fixSwapPtrs`. There are fewer nodes than bytes in front of the slots. -/
def fixSwapPtrs (m : Memory) (swap : ℕ) : Memory :=
  fixSwapLoop pageSize swap swapMemoryStart swap (swap + swapMemoryStart) 0 0 m

/-- `getSwap`, with the file operations succeeding. -/
def getSwap (m file : Memory) (swap : ℕ) : Memory :=
  fixSwapPtrs pageSize (paste m swap file swapSize) swap

/-- `writeSwap`, with the file operations succeeding: the file afterwards. -/
def writeSwap (m : Memory) (swap : ℕ) : Memory := fun x => if x < swapSize then m (swap + x) else 0

/-- The node that `init` copies to `n`; it has not set `reference` and the padding. -/
def putSwapNode (m : Memory) (n start prev : ℕ) (junk : ℕ → UInt8) : Memory :=
  let m := paste m n junk sizeofSpaceNode
  let m := freeField.set m n 1
  let m := nextField.set m n 0
  let m := sizeField.set m n pageSize
  let m := pidField.set m n 0
  let m := orderField.set m n 0
  let m := swapclockField.set m n 0
  let m := dataStartsField.set m n 0
  let m := startField.set m n start
  prevField.set m n prev

/-- The loop of `init` over the nodes of the swap array. -/
def initSwapLoop (swap : ℕ) (junk : ℕ → UInt8) : ℕ → ℕ → ℕ → ℕ → ℕ → Memory → Memory
  | 0, _, _, _, _, m => m
  | fuel + 1, nodePtr, ptr, s, old, m =>
    if nodePtr < swap + swapMemoryStart - sizeofSpaceNode ∧
        s < swapSize - (swapMemoryStart + pageSize) then
      let m := if old ≠ 0 then nextField.set m old nodePtr else m
      let m := putSwapNode pageSize m nodePtr ptr old junk
      initSwapLoop swap junk fuel (nodePtr + sizeofSpaceNode) (ptr + pageSize)
        (s + pageSize) nodePtr m
    else m

/-- The file that `init` writes from its array, which is zero before. -/
def initSwapFile (m : Memory) (swap : ℕ) (junk : ℕ → UInt8) : Memory :=
  writeSwap (initSwapLoop pageSize swap junk swapMemoryStart swap (swap + swapMemoryStart) 0 0
    (paste m swap (fun _ => 0) swapSize)) swap

/-! ### Updating the file -/

/-- The loops that look for a node: the address of the first node that is accepted, or 0. It is
`none` when the list has not ended after `fuel` nodes. -/
def findNode (accept : ℕ → Bool) (m : Memory) : ℕ → ℕ → Option ℕ
  | 0, _ => none
  | fuel + 1, n =>
    if n = 0 then some 0
    else if accept n then some n
    else findNode accept m fuel (nextField.get m n)

/-- What `movePageToSwap` writes into the node `n` for the descriptor at `evict`. -/
def fillNode (m : Memory) (n evict : ℕ) : Memory :=
  let m := pidField.set m n (pidField.get m evict)
  let m := freeField.set m n 0
  let m := referenceField.set m n (referenceField.get m evict)
  let m := dataStartsField.set m n (dataStartsField.get m evict)
  let m := sizeField.set m n (sizeField.get m evict)
  orderField.set m n (orderField.get m evict)

/-- The page of the descriptor at `evict` is put into the slot of the node `n`. -/
def fillSlot (m : Memory) (n evict : ℕ) : Memory :=
  let m := fillNode m n evict
  copy m (startField.get m n) (startField.get m evict) pageSize

/-- The file after `movePageToSwap` with the array `swap` and the victim `evict`. -/
def moveOut (m file : Memory) (swap evict : ℕ) : Option Memory :=
  let m := getSwap pageSize m file swap
  (findNode (fun n => freeField.get m n ≠ 0) m swapMemoryStart swap).map fun n =>
    if n = 0 then file else writeSwap (fillSlot pageSize m n evict) swap

/-- `removeSpace(n, PAGE)`. -/
def removePage (m : Memory) (n : ℕ) : Memory := if freeField.get m n ≠ 0 then m else markFree m n

/-- The file after `findPageInSwap` with the array `swap`. The memory outside of the array is `rest`
when `getFreePage` has returned and the page has been copied. If `getFreePage` has moved another
page out, it has worked on the same file, and what it has written is overwritten. -/
def moveIn (m file : Memory) (swap : ℕ) (pid : UInt32) (order : Int32) (rest : Memory) :
    Option Memory :=
  let m := getSwap pageSize m file swap
  let accept (n : ℕ) : Bool := pid.toNat = pidField.get m n ∧
    order.toBitVec.toNat = orderField.get m n ∧ freeField.get m n = 0
  (findNode accept m swapMemoryStart swap).map fun n =>
    if n = 0 then file
    else writeSwap (removePage (paste rest swap (view m swap) swapSize) n) swap

/-- An update of the file, with the memory `m` in which it is made. -/
inductive SwapEvent where
  | moveOut (m : Memory) (swap : Buffer) (evict : ℕ)
  | moveIn (m : Memory) (swap : Buffer) (pid : UInt32) (order : Int32) (rest : Memory)

/-- One update of the file. -/
def swapStep (file : Memory) : SwapEvent → Option Memory
  | .moveOut m swap evict => moveOut pageSize m file swap.addr evict
  | .moveIn m swap pid order rest => moveIn pageSize m file swap.addr pid order rest

/-! ### What an array holds -/

/-- The fields of a node that are not pointers. -/
def contentFields : List Field :=
  [pidField, orderField, freeField, referenceField, sizeField, dataStartsField, swapclockField]

/-- The array `b` of the memory `m'` has the nodes and pages of the array `a` of `m`. -/
structure SwapCopied (m : Memory) (a : ℕ) (m' : Memory) (b : ℕ) : Prop where
  content : ∀ i < slotCount pageSize, ∀ f ∈ contentFields,
    f.get m' (swapNode b i) = f.get m (swapNode a i)
  page : ∀ i < slotCount pageSize, ∀ o < pageSize,
    m' (slotStart pageSize b i + o) = m (slotStart pageSize a i + o)

/-- The pointers of the array `swap` are its own. -/
structure SwapLinks (m : Memory) (swap : ℕ) : Prop where
  start : ∀ i < slotCount pageSize, startField.get m (swapNode swap i) = slotStart pageSize swap i
  prev : ∀ i < slotCount pageSize, prevField.get m (swapNode swap i) = previousNode swap i
  next : ∀ i < slotCount pageSize, nextField.get m (swapNode swap i) =
    if i + 1 < slotCount pageSize then swapNode swap (i + 1) else 0

/-- The last node of the file has no next one. -/
def EndsInNull (file : Memory) : Prop :=
  ∀ i, i + 1 = slotCount pageSize → nextField.get file (swapNode 0 i) = 0

/-- The file was written from an array, and its last node has no next one. -/
structure SwapInv (file : Memory) : Prop where
  written : ∃ (a : Buffer) (m : Memory), writeSwap m a.addr = file
  ends : EndsInNull pageSize file

end Model

/-! ### The nodes -/

section Nodes

variable {pageSize swap i j : ℕ} {m : Memory}

theorem lt_slotCount_iff : i < slotCount pageSize ↔
    i < 17857 ∧ i * pageSize < swapSize - (swapMemoryStart + pageSize) :=
  lt_length_initSwap_iff

/-- The condition of the loops. -/
theorem loop_condition_iff : swapNode swap i < swap + swapMemoryStart - sizeofSpaceNode ∧
    i * pageSize < swapSize - (swapMemoryStart + pageSize) ↔ i < slotCount pageSize := by
  rw [lt_slotCount_iff, swapNode, sizeofSpaceNode, swapMemoryStart]
  omega

theorem slotCount_pos (h : swapMemoryStart + pageSize < swapSize) : 0 < slotCount pageSize := by
  rw [lt_slotCount_iff]
  omega

/-- A node lies in front of the slots. -/
theorem swapNode_add_le (swap : ℕ) (h : i < slotCount pageSize) :
    swapNode swap i + sizeofSpaceNode ≤ swap + swapMemoryStart := by
  have := (lt_slotCount_iff.mp h).1
  rw [swapNode, sizeofSpaceNode, swapMemoryStart]
  omega

/-- A slot lies in the array. -/
theorem slotStart_add_le (swap : ℕ) (h : i < slotCount pageSize) :
    slotStart pageSize swap i + pageSize ≤ swap + swapSize := by
  have := (lt_slotCount_iff.mp h).2
  rw [slotStart]
  omega

/-- The field `g` of a node is set: the other nodes and the other fields stay. -/
theorem get_set_swapNode {f g : Field} (v : ℕ) (hf : f.off + f.len ≤ sizeofSpaceNode)
    (hg : g.off + g.len ≤ sizeofSpaceNode) (h : i ≠ j ∨ g.Apart f) :
    f.get (g.set m (swapNode swap i) v) (swapNode swap j) = f.get m (swapNode swap j) := by
  by_cases hij : i = j
  · subst hij
    exact Field.get_set_of_apart (h.resolve_left fun hne => hne rfl) m _ v
  · refine f.get_congr (eqOn_of_disjoint (g.set_eqOn m _ v hg) (disjoint_Ico ?_)) hf
    rw [swapNode, swapNode, sizeofSpaceNode]
    omega

end Nodes

/-! ### Setting the pointers -/

section Links

variable {pageSize swap i j k : ℕ} {m : Memory}

/-- One round of `fixSwapPtrs`. -/
def linkNode (pageSize swap i : ℕ) (m : Memory) : Memory :=
  let m := startField.set m (swapNode swap i) (slotStart pageSize swap i)
  let m := prevField.set m (swapNode swap i) (previousNode swap i)
  if i = 0 then m else nextField.set m (swapNode swap (i - 1)) (swapNode swap i)

/-- The first `k` rounds. -/
def linkNodes (pageSize swap : ℕ) (m : Memory) : ℕ → Memory
  | 0 => m
  | k + 1 => linkNode pageSize swap k (linkNodes pageSize swap m k)

theorem previousNode_succ (swap i : ℕ) : previousNode swap (i + 1) = swapNode swap i := rfl

theorem swapNode_succ (swap i : ℕ) : swapNode swap (i + 1) = swapNode swap i + sizeofSpaceNode := by
  rw [swapNode, swapNode, Nat.mul_succ, Nat.add_assoc]

theorem slotStart_succ (swap i : ℕ) :
    slotStart pageSize swap (i + 1) = slotStart pageSize swap i + pageSize := by
  rw [slotStart, slotStart, Nat.succ_mul, ← Nat.add_assoc]

theorem previousNode_ne_zero_iff (hswap : swap ≠ 0) : previousNode swap i ≠ 0 ↔ i ≠ 0 := by
  rw [previousNode, swapNode]
  split_ifs <;> omega

/-- The loop from the node `i` on. -/
theorem fixSwapLoop_eq (hswap : swap ≠ 0) {fuel : ℕ} (hi : i ≤ slotCount pageSize)
    (hfuel : slotCount pageSize ≤ i + fuel) :
    fixSwapLoop pageSize swap fuel (swapNode swap i) (slotStart pageSize swap i) (i * pageSize)
      (previousNode swap i) (linkNodes pageSize swap m i) =
    linkNodes pageSize swap m (slotCount pageSize) := by
  induction fuel generalizing i with
  | zero =>
    obtain rfl : i = slotCount pageSize := by omega
    rfl
  | succ fuel ih =>
    rw [fixSwapLoop]
    by_cases hlt : i < slotCount pageSize
    · have hround := ih (i := i + 1) hlt (by omega)
      rw [swapNode_succ, slotStart_succ, Nat.succ_mul, previousNode_succ] at hround
      rw [if_pos (loop_condition_iff.mpr hlt), ← hround, linkNodes, linkNode]
      dsimp only
      congr 1
      by_cases h0 : i = 0
      · subst h0
        rfl
      · rw [if_neg h0, if_pos ((previousNode_ne_zero_iff hswap).mpr h0), previousNode, if_neg h0]
    · obtain rfl : i = slotCount pageSize := by omega
      rw [if_neg fun hmore => hlt (loop_condition_iff.mp hmore)]

/-- **Setting the pointers.** -/
theorem fixSwapPtrs_eq (hswap : swap ≠ 0) :
    fixSwapPtrs pageSize m swap = linkNodes pageSize swap m (slotCount pageSize) := by
  have hfuel : slotCount pageSize ≤ swapMemoryStart := by
    by_contra hlt
    exact absurd (lt_slotCount_iff.mp (not_le.mp hlt)).1 (by decide)
  have hloop : fixSwapLoop pageSize swap swapMemoryStart (swapNode swap 0)
      (slotStart pageSize swap 0) (0 * pageSize) (previousNode swap 0)
      (linkNodes pageSize swap m 0) = _ :=
    fixSwapLoop_eq hswap (Nat.zero_le _) (by omega)
  rw [slotStart, Nat.zero_mul] at hloop
  exact hloop

/-- What one round leaves alone in the nodes. -/
theorem get_linkNode {f : Field} (hf : f.off + f.len ≤ sizeofSpaceNode)
    (hstart : i ≠ j ∨ startField.Apart f) (hprev : i ≠ j ∨ prevField.Apart f)
    (hnext : i ≠ j + 1 ∨ nextField.Apart f) :
    f.get (linkNode pageSize swap i m) (swapNode swap j) = f.get m (swapNode swap j) := by
  have htail : f.get (prevField.set (startField.set m (swapNode swap i) (slotStart pageSize swap i))
      (swapNode swap i) (previousNode swap i)) (swapNode swap j) = f.get m (swapNode swap j) := by
    rw [get_set_swapNode _ hf (by decide) hprev, get_set_swapNode _ hf (by decide) hstart]
  rw [linkNode]
  by_cases h0 : i = 0
  · rwa [if_pos h0]
  · rw [if_neg h0, get_set_swapNode _ hf (by decide) (hnext.imp_left fun hne => by omega), htail]

/-- What the rounds from `k₀` on leave alone in the node `j`. -/
theorem get_linkNodes_of_le {f : Field} (hf : f.off + f.len ≤ sizeofSpaceNode) {k₀ : ℕ}
    (hstep : ∀ i, k₀ ≤ i → i < k → (i ≠ j ∨ startField.Apart f) ∧ (i ≠ j ∨ prevField.Apart f) ∧
      (i ≠ j + 1 ∨ nextField.Apart f)) (hk : k₀ ≤ k) :
    f.get (linkNodes pageSize swap m k) (swapNode swap j) =
      f.get (linkNodes pageSize swap m k₀) (swapNode swap j) := by
  induction k, hk using Nat.le_induction with
  | base => rfl
  | succ k hk ih =>
    obtain ⟨hstart, hprev, hnext⟩ := hstep k hk (Nat.lt_succ_self k)
    rw [linkNodes, get_linkNode hf hstart hprev hnext,
      ih fun i hi hlt => hstep i hi (Nat.lt_succ_of_lt hlt)]

theorem start_linkNode (hlt : slotStart pageSize swap i < 2 ^ 64) :
    startField.get (linkNode pageSize swap i m) (swapNode swap i) = slotStart pageSize swap i := by
  have hround : startField.get (prevField.set (startField.set m (swapNode swap i)
      (slotStart pageSize swap i)) (swapNode swap i) (previousNode swap i)) (swapNode swap i) =
        slotStart pageSize swap i := by
    rw [Field.get_set_of_apart (by decide), Field.get_set_self]
    exact Nat.mod_eq_of_lt hlt
  rw [linkNode]
  split_ifs with h0
  · exact hround
  · rw [get_set_swapNode _ (by decide) (by decide) (Or.inr (by decide)), hround]

theorem prev_linkNode (hlt : previousNode swap i < 2 ^ 64) :
    prevField.get (linkNode pageSize swap i m) (swapNode swap i) = previousNode swap i := by
  have hround : prevField.get (prevField.set (startField.set m (swapNode swap i)
      (slotStart pageSize swap i)) (swapNode swap i) (previousNode swap i)) (swapNode swap i) =
        previousNode swap i := by
    rw [Field.get_set_self]
    exact Nat.mod_eq_of_lt hlt
  rw [linkNode]
  split_ifs with h0
  · exact hround
  · rw [get_set_swapNode _ (by decide) (by decide) (Or.inr (by decide)), hround]

theorem next_linkNode (hlt : swapNode swap (i + 1) < 2 ^ 64) :
    nextField.get (linkNode pageSize swap (i + 1) m) (swapNode swap i) = swapNode swap (i + 1) := by
  rw [linkNode, if_neg i.succ_ne_zero, Nat.add_sub_cancel, Field.get_set_self]
  exact Nat.mod_eq_of_lt hlt

/-- The nodes in an array are linked. -/
theorem swapLinks_fixSwapPtrs (swap : Buffer)
    (hlast : ∀ i, i + 1 = slotCount pageSize → nextField.get m (swapNode swap.addr i) = 0) :
    SwapLinks pageSize (fixSwapPtrs pageSize m swap.addr) swap.addr := by
  have hend := swap.end_lt
  have hnode {i : ℕ} (hi : i < slotCount pageSize) : swapNode swap.addr i < 2 ^ 64 := by
    have := swapNode_add_le swap.addr hi
    have : swapMemoryStart < swapSize := by decide
    omega
  rw [fixSwapPtrs_eq swap.ne_null]
  refine ⟨fun i hi => ?_, fun i hi => ?_, fun i hi => ?_⟩
  · rw [get_linkNodes_of_le (by decide) (fun k hk _ => ⟨Or.inl (by omega), Or.inl (by omega),
      Or.inr (by decide)⟩) (Nat.succ_le_of_lt hi), linkNodes, start_linkNode]
    have := slotStart_add_le swap.addr hi
    omega
  · rw [get_linkNodes_of_le (by decide) (fun k hk _ => ⟨Or.inl (by omega), Or.inl (by omega),
      Or.inr (by decide)⟩) (Nat.succ_le_of_lt hi), linkNodes, prev_linkNode]
    rw [previousNode]
    split_ifs
    · norm_num
    · exact hnode (by omega)
  · split_ifs with hmore
    · rw [get_linkNodes_of_le (by decide) (fun k hk _ => ⟨Or.inl (by omega), Or.inl (by omega),
        Or.inl (by omega)⟩) (Nat.succ_le_of_lt hmore), linkNodes, next_linkNode (hnode hmore)]
    · -- no round sets `next` of the last node
      rw [get_linkNodes_of_le (by decide) (fun k _ hk => ⟨Or.inr (by decide), Or.inr (by decide),
        Or.inl (by omega)⟩) (Nat.zero_le _)]
      exact hlast i (by omega)

/-- The other fields of the nodes stay. -/
theorem get_fixSwapPtrs {f : Field} (hswap : swap ≠ 0) (hf : f ∈ contentFields) :
    f.get (fixSwapPtrs pageSize m swap) (swapNode swap j) = f.get m (swapNode swap j) := by
  have hfields : ∀ f ∈ contentFields, f.off + f.len ≤ sizeofSpaceNode ∧ startField.Apart f ∧
      prevField.Apart f ∧ nextField.Apart f := by decide
  obtain ⟨hrecord, hstart, hprev, hnext⟩ := hfields f hf
  rw [fixSwapPtrs_eq hswap]
  exact get_linkNodes_of_le hrecord (fun _ _ _ => ⟨Or.inr hstart, Or.inr hprev, Or.inr hnext⟩)
    (Nat.zero_le _)

/-- A field of a node is set in front of the slots. -/
theorem set_swapNode_eqOn (m : Memory) (swap : ℕ) {f : Field} (v : ℕ)
    (hf : f.off + f.len ≤ sizeofSpaceNode)
    (hi : i < slotCount pageSize) :
    Set.EqOn (f.set m (swapNode swap i) v) m (Set.Ico swap (swap + swapMemoryStart))ᶜ := by
  refine (f.set_eqOn m _ v hf).mono (Set.compl_subset_compl.mpr (Set.Ico_subset_Ico ?_ ?_))
  · exact Nat.le_add_right ..
  · exact swapNode_add_le swap hi

theorem linkNode_eqOn (m : Memory) (swap : ℕ) (hi : i < slotCount pageSize) :
    Set.EqOn (linkNode pageSize swap i m) m (Set.Ico swap (swap + swapMemoryStart))ᶜ := by
  have hstart :=
    set_swapNode_eqOn m swap (f := startField) (slotStart pageSize swap i) (by decide) hi
  have hprev := (set_swapNode_eqOn _ swap (f := prevField) (previousNode swap i)
    (by decide) hi).trans hstart
  rw [linkNode]
  split_ifs
  · exact hprev
  · exact (set_swapNode_eqOn _ swap (swapNode swap i) (by decide)
      (show i - 1 < slotCount pageSize by omega)).trans hprev

/-- The slots stay. -/
theorem linkNodes_eqOn (hk : k ≤ slotCount pageSize) :
    Set.EqOn (linkNodes pageSize swap m k) m (Set.Ico swap (swap + swapMemoryStart))ᶜ := by
  induction k with
  | zero => exact fun _ _ => rfl
  | succ k ih => exact (linkNode_eqOn _ swap hk).trans (ih (Nat.le_of_succ_le hk))

end Links

/-! ### Reading and writing the file -/

section File

variable {pageSize swap i k : ℕ} {m file : Memory} {f : Field}

theorem get_writeSwap (hf : f.off + f.len ≤ sizeofSpaceNode) (hi : i < slotCount pageSize) :
    f.get (writeSwap m swap) (swapNode 0 i) = f.get m (swapNode swap i) := by
  have hle := swapNode_add_le 0 hi
  have heq : Set.EqOn (writeSwap m swap) (view m swap)
      (Set.Ico (swapNode 0 i) (swapNode 0 i + sizeofSpaceNode)) := fun x hx => by
    have : swapMemoryStart < swapSize := by decide
    exact if_pos (by have := hx.2; omega)
  rw [f.get_congr heq hf, Field.get_view, swapNode, swapNode, Nat.zero_add]

theorem get_paste_swapNode (hf : f.off + f.len ≤ sizeofSpaceNode) (hi : i < slotCount pageSize) :
    f.get (paste m swap file swapSize) (swapNode swap i) = f.get file (swapNode 0 i) := by
  have hle := swapNode_add_le 0 hi
  have heq : Set.EqOn (view (paste m swap file swapSize) swap) file
      (Set.Ico (swapNode 0 i) (swapNode 0 i + sizeofSpaceNode)) := fun x hx => by
    have : swapMemoryStart < swapSize := by decide
    exact paste_apply file (by have := hx.2; omega)
  have hview := f.get_view (paste m swap file swapSize) swap (swapNode 0 i)
  rw [f.get_congr heq hf, swapNode, Nat.zero_add] at hview
  rw [swapNode, swapNode, Nat.zero_add, hview]

/-- **Reading the file.** The pointers are those of the array. -/
theorem swapLinks_getSwap (swap : Buffer) (hfile : EndsInNull pageSize file) :
    SwapLinks pageSize (getSwap pageSize m file swap.addr) swap.addr := by
  refine swapLinks_fixSwapPtrs swap fun i hi => ?_
  rw [get_paste_swapNode (by decide) (show i < slotCount pageSize by omega), hfile i hi]

/-- The other fields and the slots are those of the array that was written. -/
theorem swapCopied_getSwap (a b : Buffer) (m m' : Memory) :
    SwapCopied pageSize m a.addr (getSwap pageSize m' (writeSwap m a.addr) b.addr) b.addr where
  content i hi f hf := by
    have hrecord : ∀ f ∈ contentFields, f.off + f.len ≤ sizeofSpaceNode := by decide
    rw [getSwap, get_fixSwapPtrs b.ne_null hf, get_paste_swapNode (hrecord f hf) hi,
      get_writeSwap (hrecord f hf) hi]
  page i hi o ho := by
    have hslot := slotStart_add_le 0 hi
    rw [slotStart, Nat.zero_add] at hslot
    have heq : slotStart pageSize b.addr i + o = b.addr + (swapMemoryStart + i * pageSize + o) := by
      rw [slotStart]
      omega
    rw [getSwap, fixSwapPtrs_eq b.ne_null, linkNodes_eqOn le_rfl, heq, paste_apply _ (by omega),
      writeSwap, if_pos (by omega), slotStart]
    · congr 1
      omega
    · rintro ⟨-, hlt⟩
      rw [heq] at hlt
      omega

/-- The list of the nodes from `i` on. -/
theorem SwapLinks.follows_from (h : SwapLinks pageSize m swap) (hswap : swap ≠ 0) {n : ℕ}
    (hn : i + (n + 1) = slotCount pageSize) :
    Follows m (swapNode swap i) ((List.range' i (n + 1)).map (swapNode swap)) := by
  have hne : swapNode swap i ≠ 0 := fun h0 => hswap (Nat.eq_zero_of_add_eq_zero_right h0)
  induction n generalizing i with
  | zero =>
    refine ⟨rfl, hne, ?_⟩
    rw [h.next i (by omega), if_neg (by omega)]
    rfl
  | succ n ih =>
    refine ⟨rfl, hne, ?_⟩
    rw [h.next i (by omega), if_pos (by omega)]
    exact ih (by omega) fun h0 => hswap (Nat.eq_zero_of_add_eq_zero_right h0)

/-- Every node is visited once. -/
theorem SwapLinks.follows (h : SwapLinks pageSize m swap) (hswap : swap ≠ 0)
    (hpos : 0 < slotCount pageSize) :
    Follows m swap ((List.range (slotCount pageSize)).map (swapNode swap)) := by
  obtain ⟨n, hn⟩ := Nat.exists_eq_succ_of_ne_zero hpos.ne'
  have hlist := h.follows_from hswap (i := 0) (by rw [hn, Nat.zero_add])
  rw [List.range_eq_range', hn]
  exact hlist

/-- A loop that looks for a node ends, and what it returns is a node or `NULL`. -/
theorem SwapLinks.findNode_from (h : SwapLinks pageSize m swap) (accept : ℕ → Bool) {fuel : ℕ}
    (hi : i < slotCount pageSize) (hfuel : slotCount pageSize < i + fuel) :
    ∃ n, findNode accept m fuel (swapNode swap i) = some n ∧
      (n ≠ 0 → ∃ k < slotCount pageSize, n = swapNode swap k) := by
  induction fuel generalizing i with
  | zero => omega
  | succ fuel ih =>
    rw [findNode]
    split_ifs with h0 haccept
    · exact ⟨0, rfl, fun hne => absurd rfl hne⟩
    · exact ⟨_, rfl, fun _ => ⟨i, hi, rfl⟩⟩
    · rw [h.next i hi]
      split_ifs with hmore
      · exact ih hmore (by omega)
      · obtain ⟨fuel, rfl⟩ := Nat.exists_eq_succ_of_ne_zero (show fuel ≠ 0 by omega)
        exact ⟨0, by rw [findNode, if_pos rfl], fun hne => absurd rfl hne⟩

/-- The loop from the first node on. -/
theorem SwapLinks.findNode (h : SwapLinks pageSize m swap) (accept : ℕ → Bool)
    (hpos : 0 < slotCount pageSize) : ∃ n, findNode accept m swapMemoryStart swap = some n ∧
      (n ≠ 0 → ∃ k < slotCount pageSize, n = swapNode swap k) := by
  refine h.findNode_from accept hpos ?_
  by_contra hlt
  have := (lt_slotCount_iff.mp (lt_of_lt_of_le (by decide : 17857 < 0 + swapMemoryStart)
    (not_lt.mp hlt))).1
  omega

end File

/-! ### The last node -/

section LastNode

variable {pageSize swap i j k : ℕ} {m file : Memory}

theorem next_putSwapNode (m : Memory) (n start prev : ℕ) (junk : ℕ → UInt8) :
    nextField.get (putSwapNode pageSize m n start prev junk) n = 0 := by
  simp (disch := decide) only [putSwapNode, Field.get_set_of_apart, Field.get_set_self]
  rfl

/-- `init` ends with a node without a next one. -/
theorem next_initSwapLoop (m : Memory) (swap old : ℕ) (junk : ℕ → UInt8) {fuel : ℕ} (hi : i ≤ j)
    (hj : j + 1 = slotCount pageSize) (hfuel : j < i + fuel) :
    nextField.get (initSwapLoop pageSize swap junk fuel (swapNode swap i)
      (slotStart pageSize swap i) (i * pageSize) old m) (swapNode swap j) = 0 := by
  induction fuel generalizing i old m with
  | zero => omega
  | succ fuel ih =>
    rw [initSwapLoop, if_pos (loop_condition_iff.mpr (by omega)), ← swapNode_succ, ← slotStart_succ,
      ← Nat.succ_mul]
    rcases Nat.eq_or_lt_of_le hi with rfl | hlt
    · -- the loop ends behind this node
      have hend : ¬(swapNode swap (i + 1) < swap + swapMemoryStart - sizeofSpaceNode ∧
          (i + 1) * pageSize < swapSize - (swapMemoryStart + pageSize)) := fun hmore => by
        have := loop_condition_iff.mp hmore
        omega
      cases fuel with
      | zero => exact next_putSwapNode ..
      | succ fuel =>
        rw [initSwapLoop, if_neg hend]
        exact next_putSwapNode ..
    · exact ih _ _ hlt (by omega)

theorem endsInNull_initSwapFile (swap : Buffer) (junk : ℕ → UInt8) :
    EndsInNull pageSize (initSwapFile pageSize m swap.addr junk) := by
  intro j hj
  rw [initSwapFile, get_writeSwap (by decide) (show j < slotCount pageSize by omega)]
  have hfuel : j < 0 + swapMemoryStart := by
    have := (lt_slotCount_iff.mp (show j < slotCount pageSize by omega)).1
    rw [swapMemoryStart]
    omega
  have hloop := next_initSwapLoop (paste m swap.addr (fun _ => 0) swapSize) swap.addr 0 junk
    (Nat.zero_le j) hj hfuel
  rw [slotStart, Nat.zero_mul] at hloop
  exact hloop

/-- The pointers of the nodes stay when a node is filled. -/
theorem get_fillNode {f : Field} {evict : ℕ} (hf : f ∈ [startField, nextField, prevField]) :
    f.get (fillNode m (swapNode swap k) evict) (swapNode swap j) = f.get m (swapNode swap j) := by
  have hfields : ∀ f ∈ [startField, nextField, prevField], f.off + f.len ≤ sizeofSpaceNode ∧
      pidField.Apart f ∧ freeField.Apart f ∧ referenceField.Apart f ∧ dataStartsField.Apart f ∧
      sizeField.Apart f ∧ orderField.Apart f := by decide
  obtain ⟨hrecord, hpid, hfree, hreference, hdata, hsize, horder⟩ := hfields f hf
  rw [fillNode, get_set_swapNode _ hrecord (by decide) (Or.inr horder),
    get_set_swapNode _ hrecord (by decide) (Or.inr hsize),
    get_set_swapNode _ hrecord (by decide) (Or.inr hdata),
    get_set_swapNode _ hrecord (by decide) (Or.inr hreference),
    get_set_swapNode _ hrecord (by decide) (Or.inr hfree),
    get_set_swapNode _ hrecord (by decide) (Or.inr hpid)]

/-- A page is put into a slot. -/
theorem next_fillSlot {evict : ℕ} (h : SwapLinks pageSize m swap) (hk : k < slotCount pageSize)
    (hj : j < slotCount pageSize) :
    nextField.get (fillSlot pageSize m (swapNode swap k) evict) (swapNode swap j) =
      nextField.get m (swapNode swap j) := by
  have hnode := swapNode_add_le swap hj
  rw [fillSlot, get_fillNode (by simp), h.start k hk]
  have hcopy : Set.EqOn (copy (fillNode m (swapNode swap k) evict) (slotStart pageSize swap k)
      (startField.get (fillNode m (swapNode swap k) evict) evict) pageSize)
      (fillNode m (swapNode swap k) evict)
      (Set.Ico (swapNode swap j) (swapNode swap j + sizeofSpaceNode)) :=
    eqOn_of_disjoint (paste_eqOn ..) (disjoint_Ico (Or.inr (hnode.trans (Nat.le_add_right ..))))
  rw [nextField.get_congr hcopy (by decide), get_fillNode (by simp)]

theorem next_removePage : nextField.get (removePage m (swapNode swap k)) (swapNode swap j) =
    nextField.get m (swapNode swap j) := by
  rw [removePage, markFree]
  split_ifs
  · rfl
  · rw [get_set_swapNode _ (by decide) (by decide) (Or.inr (by decide)),
      get_set_swapNode _ (by decide) (by decide) (Or.inr (by decide))]

/-- **Updates.** Every update ends, and the last node has no next one afterwards. -/
theorem exists_swapStep (hpos : 0 < slotCount pageSize) (hfile : SwapInv pageSize file)
    (e : SwapEvent) : ∃ file', swapStep pageSize file e = some file' ∧ SwapInv pageSize file' := by
  cases e with
  | moveOut m swap evict =>
    have hlinks := swapLinks_getSwap (m := m) swap hfile.ends
    obtain ⟨n, hfind, hn⟩ := hlinks.findNode
      (fun n => freeField.get (getSwap pageSize m file swap.addr) n ≠ 0) hpos
    by_cases h0 : n = 0
    · exact ⟨file, by rw [swapStep, moveOut, hfind, Option.map_some, if_pos h0], hfile⟩
    · obtain ⟨k, hk, rfl⟩ := hn h0
      refine ⟨_, by rw [swapStep, moveOut, hfind, Option.map_some, if_neg h0], ⟨swap, _, rfl⟩, ?_⟩
      intro i hi
      have hlt : i < slotCount pageSize := by omega
      rw [get_writeSwap (by decide) hlt, next_fillSlot hlinks hk hlt, hlinks.next i hlt,
        if_neg (by omega)]
  | moveIn m swap pid order rest =>
    have hlinks := swapLinks_getSwap (m := m) swap hfile.ends
    obtain ⟨n, hfind, hn⟩ := hlinks.findNode _ hpos
    by_cases h0 : n = 0
    · exact ⟨file, by rw [swapStep, moveIn, hfind, Option.map_some, if_pos h0], hfile⟩
    · obtain ⟨k, hk, rfl⟩ := hn h0
      refine ⟨_, by rw [swapStep, moveIn, hfind, Option.map_some, if_neg h0], ⟨swap, _, rfl⟩, ?_⟩
      intro i hi
      have hlt : i < slotCount pageSize := by omega
      rw [get_writeSwap (by decide) hlt, next_removePage, get_paste_swapNode (by decide) hlt,
        Field.get_view, swapNode, Nat.zero_add]
      exact (hlinks.next i hlt).trans (if_neg (by omega))

end LastNode

/-- **The swap file.** In every file that is reached from the one of `init` by updates in arrays of
their own, and for every array `a` from which it may have been written and every array `b`: reading
the file into `b` yields the nodes and pages of `a`, with the pointers of `b`, and the list from `b`
on visits every node once. -/
theorem swap_round_trip {pageSize : ℕ} (hsize : swapMemoryStart + pageSize < swapSize)
    (m₀ : Memory) (swap : Buffer) (junk : ℕ → UInt8) (es : List SwapEvent) :
    ∃ file, run (swapStep pageSize) (initSwapFile pageSize m₀ swap.addr junk) es = some file ∧
      (∃ (a : Buffer) (m : Memory), writeSwap m a.addr = file) ∧
      ∀ (a b : Buffer) (m m' : Memory), writeSwap m a.addr = file →
        SwapCopied pageSize m a.addr (getSwap pageSize m' file b.addr) b.addr ∧
        SwapLinks pageSize (getSwap pageSize m' file b.addr) b.addr ∧
        Follows (getSwap pageSize m' file b.addr) b.addr
          ((List.range (slotCount pageSize)).map (swapNode b.addr)) := by
  have hpos := slotCount_pos hsize
  obtain ⟨file, hrun, hfile⟩ := exists_run_of_step (fun file e h => exists_swapStep hpos h e)
    ⟨⟨swap, _, rfl⟩, endsInNull_initSwapFile swap junk⟩ es
  refine ⟨file, hrun, hfile.written, fun a b m m' hwrite => ?_⟩
  have hlinks := swapLinks_getSwap (m := m') b hfile.ends
  refine ⟨?_, hlinks, hlinks.follows b.ne_null hpos⟩
  rw [← hwrite]
  exact swapCopied_getSwap a b m m'

/-- A memory with a page of 16 KiB at 16384, all bytes of which are 7, and the descriptor of this
page at 64: it is page 1 of the thread 3. -/
def evictMemory : Memory :=
  let m : Memory := paste (fun _ => 0) 16384 (fun _ => 7) 16384
  orderField.set (sizeField.set (startField.set (pidField.set m 64 3) 64 16384) 64 16384) 64 1

/-- The page is moved out with one array and brought back with another one. -/
def outAndIn : List SwapEvent :=
  [.moveOut evictMemory ⟨8000000, by decide, by decide⟩ 64,
    .moveIn (fun _ => 9) ⟨16000000, by decide, by decide⟩ 3 1 fun _ => 0]

/-- The owner and the number of the page in the first slot, whether the slot is free, and the first
byte of the page. -/
def firstSlot (file : Memory) : ℕ × ℕ × ℕ × UInt8 :=
  (pidField.get file 0, orderField.get file 0, freeField.get file 0, file swapMemoryStart)

/-- The theorem after that. The page was in the first slot in between, and the slot is free again.
-/
theorem swap_round_trip_out_and_in :
    (run (swapStep 16384) (initSwapFile 16384 (fun _ => 0) 4096 fun _ => 0)
        (outAndIn.take 1)).map firstSlot = some (3, 1, 0, 7) ∧
      ∃ file, run (swapStep 16384) (initSwapFile 16384 (fun _ => 0) 4096 fun _ => 0) outAndIn =
          some file ∧ firstSlot file = (0, 1, 1, 7) ∧
        ∃ (a : Buffer) (m : Memory), writeSwap m a.addr = file ∧
          SwapCopied 16384 m a.addr (getSwap 16384 (fun _ => 0) file 4096) 4096 ∧
          SwapLinks 16384 (getSwap 16384 (fun _ => 0) file 4096) 4096 := by
  obtain ⟨file, hrun, ⟨a, m, hwrite⟩, hread⟩ := swap_round_trip
    (by decide : swapMemoryStart + 16384 < swapSize) (fun _ => 0) ⟨4096, by decide, by decide⟩
    (fun _ => 0) outAndIn
  have hend : (run (swapStep 16384) (initSwapFile 16384 (fun _ => 0) 4096 fun _ => 0)
      outAndIn).map firstSlot = some (0, 1, 1, 7) := by decide +kernel
  have hcopy := hread a ⟨4096, by decide, by decide⟩ m (fun _ => 0) hwrite
  refine ⟨by decide +kernel, file, hrun, ?_, a, m, hwrite, hcopy.1, hcopy.2.1⟩
  rw [hrun] at hend
  exact Option.some.inj hend

end OSDesign.VM
