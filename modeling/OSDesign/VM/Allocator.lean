import Mathlib.Tactic
import OSDesign.Lib.ByteMemory
import OSDesign.VM.PageTable

/-!
# The block allocator

A region of memory (a page, the memory of the operating system, the shared pages) is cut into
blocks. Each block starts with a record `spaceNode` in memory, in line with the data, and the
records of a region form a list by their `next` fields. The layout of the record is the one of a
machine with 32-bit `unsigned` and 64-bit pointers.

A pointer is an address, and `NULL` is 0. The local records `new` that `initializeSpace` and
`createSpace` copy into memory are not initialised completely; the remaining bytes are a parameter.

## Main definitions

* `findFreeSpace`, `initializeSpace`, `createSpace`, `removeSpace`, `getFreeElementFrom`.

## Main results

* `putFree_eqOn` and the values of the fields after `putFree`.
-/

namespace OSDesign.VM

open ByteMemory

/-! ### The record `spaceNode` -/

/-- `pid`. -/
def pidField : Field := ⟨0, 4⟩

/-- `reference`. -/
def referenceField : Field := ⟨4, 4⟩

/-- `free`. -/
def freeField : Field := ⟨8, 4⟩

/-- `order`. -/
def orderField : Field := ⟨12, 4⟩

/-- `start`. -/
def startField : Field := ⟨16, 8⟩

/-- `size`. -/
def sizeField : Field := ⟨24, 4⟩

/-- `next`. -/
def nextField : Field := ⟨32, 8⟩

/-- `prev`. -/
def prevField : Field := ⟨40, 8⟩

/-- The record of a free block at `pos`; `junk` are the bytes that are not set. -/
def putFree (m : Memory) (pos next prev size : ℕ) (junk : ℕ → UInt8) : Memory :=
  let m := paste m pos junk sizeofSpaceNode
  let m := freeField.set m pos 1
  let m := orderField.set m pos 1
  let m := nextField.set m pos next
  let m := prevField.set m pos prev
  let m := sizeField.set m pos size
  let m := referenceField.set m pos 0
  let m := startField.set m pos (pos + sizeofSpaceNode)
  pidField.set m pos 0

/-! ### The functions of the allocator -/

/-- `findFreeSpace`: the address of the first free block of at least `size` bytes, or 0. It is
`none` when the list has not ended after `fuel` blocks. -/
def findFreeSpace (m : Memory) (size : ℕ) : ℕ → ℕ → Option ℕ
  | 0, _ => none
  | fuel + 1, n =>
    if n = 0 then some 0
    else if freeField.get m n ≠ 0 ∧ size ≤ sizeField.get m n then some n
    else findFreeSpace m size fuel (nextField.get m n)

/-- `initializeSpace`, for a region that is larger than a record. -/
def initializeSpace (m : Memory) (space size : ℕ) (junk : ℕ → UInt8) : Memory :=
  putFree m space 0 0 (size - sizeofSpaceNode) junk

/-- `n->size - size` as an `unsigned`. The comparison of the `int` with `sizeof` takes a negative
number for a large one. -/
def restSize (m : Memory) (n size : ℕ) : ℕ := (sizeField.get m n + 2 ^ 64 - size) % 2 ^ 32

/-- The end of `createSpace`: the rest of the block becomes a free block behind it. -/
def splitBlock (m : Memory) (n size rest : ℕ) (junk : ℕ → UInt8) : Memory :=
  let newPos := startField.get m n + size
  nextField.set (putFree m newPos (nextField.get m n) n rest junk) n newPos

/-- `createSpace`: whether the block was free, and the memory afterwards. The rest of the block is
cut off when it is larger than a record. -/
def createSpace (m : Memory) (n size : ℕ) (junk : ℕ → UInt8) : Bool × Memory :=
  if freeField.get m n = 0 then (false, m)
  else
    let m := freeField.set m n 0
    let rest := restSize m n size
    let m := sizeField.set m n size
    (true, if sizeofSpaceNode < rest then splitBlock m n size rest junk else m)

/-- `x->size = size; x->next = y->next`. -/
def absorb (m : Memory) (x size y : ℕ) : Memory :=
  let m := sizeField.set m x size
  nextField.set m x (nextField.get m y)

/-- The last part of `removeSpace`: the free block `n` is joined with its free neighbours `a` and
`b`. -/
def coalesce (m : Memory) (n a b : ℕ) : Memory :=
  let size := sizeField.get m
  let free (x : ℕ) : Prop := freeField.get m x ≠ 0
  if a = 0 ∧ b ≠ 0 then
    if free b then absorb m n (size b + sizeofSpaceNode) b else m
  else if a ≠ 0 ∧ b = 0 then
    if free a then absorb m a (size n + sizeofSpaceNode) n else m
  else if a ≠ 0 ∧ b ≠ 0 then
    if ¬ free a ∧ free b then absorb m n (size b + sizeofSpaceNode) b
    else if free a ∧ ¬ free b then absorb m a (size n + sizeofSpaceNode) n
    else if free a ∧ free b then absorb m a (size n + size b + 2 * sizeofSpaceNode) b
    else m
  else m

/-- `n->free = 1; n->pid = 0`. -/
def markFree (m : Memory) (n : ℕ) : Memory := pidField.set (freeField.set m n 1) n 0

/-- `removeSpace(ptr, ELEMENT)`. -/
def removeSpace (m : Memory) (ptr : ℕ) : Memory :=
  let n := ptr - sizeofSpaceNode
  if freeField.get m n ≠ 0 then m
  else
    let a := prevField.get m n
    let b := nextField.get m n
    coalesce (markFree m n) n a b

/-- `getFreeElementFrom`: the address of the block, or 0. -/
def getFreeElementFrom (fuel : ℕ) (m : Memory) (memory size : ℕ) (junk : ℕ → UInt8) :
    Option (ℕ × Memory) :=
  (findFreeSpace m size fuel memory).map fun n =>
    if n = 0 then (0, m)
    else
      match createSpace m n size junk with
      | (false, m) => (0, m)
      | (true, m) => (startField.get m n, m)

/-! ### Fields -/

section Fields

variable {m : Memory} {a v : ℕ}

theorem next_lt (m : Memory) (a : ℕ) : nextField.get m a < 2 ^ 64 := nextField.get_lt m a

theorem size_lt (m : Memory) (a : ℕ) : sizeField.get m a < 2 ^ 32 := sizeField.get_lt m a

theorem next_set (hv : v < 2 ^ 64) : nextField.get (nextField.set m a v) a = v :=
  (nextField.get_set_self m a v).trans (Nat.mod_eq_of_lt hv)

theorem size_set (hv : v < 2 ^ 32) : sizeField.get (sizeField.set m a v) a = v :=
  (sizeField.get_set_self m a v).trans (Nat.mod_eq_of_lt hv)

end Fields

/-! ### The record of a free block -/

section PutFree

variable (m : Memory) (pos next prev size : ℕ) (junk : ℕ → UInt8)

theorem putFree_eqOn :
    Set.EqOn (putFree m pos next prev size junk) m (Set.Ico pos (pos + sizeofSpaceNode))ᶜ := by
  intro x hx
  rw [putFree, pidField.set_eqOn _ _ _ (by decide) hx, startField.set_eqOn _ _ _ (by decide) hx,
    referenceField.set_eqOn _ _ _ (by decide) hx, sizeField.set_eqOn _ _ _ (by decide) hx,
    prevField.set_eqOn _ _ _ (by decide) hx, nextField.set_eqOn _ _ _ (by decide) hx,
    orderField.set_eqOn _ _ _ (by decide) hx, freeField.set_eqOn _ _ _ (by decide) hx,
    paste_eqOn _ _ _ _ hx]

theorem free_putFree : freeField.get (putFree m pos next prev size junk) pos = 1 := by
  simp (disch := decide) only [putFree, Field.get_set_of_apart, Field.get_set_self]
  rfl

theorem size_putFree :
    sizeField.get (putFree m pos next prev size junk) pos = size % 2 ^ 32 := by
  simp (disch := decide) only [putFree, Field.get_set_of_apart, Field.get_set_self]
  rfl

variable {m pos next prev size junk}

theorem start_putFree (hpos : pos + sizeofSpaceNode < 2 ^ 64) :
    startField.get (putFree m pos next prev size junk) pos = pos + sizeofSpaceNode := by
  simp (disch := decide) only [putFree, Field.get_set_of_apart, Field.get_set_self]
  exact Nat.mod_eq_of_lt hpos

theorem next_putFree (hnext : next < 2 ^ 64) :
    nextField.get (putFree m pos next prev size junk) pos = next := by
  simp (disch := decide) only [putFree, Field.get_set_of_apart, Field.get_set_self]
  exact Nat.mod_eq_of_lt hnext

theorem prev_putFree (hprev : prev < 2 ^ 64) :
    prevField.get (putFree m pos next prev size junk) pos = prev := by
  simp (disch := decide) only [putFree, Field.get_set_of_apart, Field.get_set_self]
  exact Nat.mod_eq_of_lt hprev

end PutFree

/-! ### What is written -/

section Writes

variable (m : Memory) {x : ℕ}

theorem markFree_eqOn (n : ℕ) :
    Set.EqOn (markFree m n) m (Set.Ico n (n + sizeofSpaceNode))ᶜ := fun _ hx =>
  (pidField.set_eqOn _ _ _ (by decide) hx).trans (freeField.set_eqOn _ _ _ (by decide) hx)

theorem absorb_eqOn (n size y : ℕ) :
    Set.EqOn (absorb m n size y) m (Set.Ico n (n + sizeofSpaceNode))ᶜ := fun _ hx =>
  (nextField.set_eqOn _ _ _ (by decide) hx).trans (sizeField.set_eqOn _ _ _ (by decide) hx)

/-- The block `n`, taken with `size` bytes. -/
def useBlock (n size : ℕ) : Memory := sizeField.set (freeField.set m n 0) n size

theorem useBlock_eqOn (n size : ℕ) :
    Set.EqOn (useBlock m n size) m (Set.Ico n (n + sizeofSpaceNode))ᶜ := fun _ hx =>
  (sizeField.set_eqOn _ _ _ (by decide) hx).trans (freeField.set_eqOn _ _ _ (by decide) hx)

theorem start_useBlock (n size : ℕ) :
    startField.get (useBlock m n size) n = startField.get m n := by
  rw [useBlock, Field.get_set_of_apart (by decide), Field.get_set_of_apart (by decide)]

theorem next_useBlock (n size : ℕ) :
    nextField.get (useBlock m n size) n = nextField.get m n := by
  rw [useBlock, Field.get_set_of_apart (by decide), Field.get_set_of_apart (by decide)]

/-- What `createSpace` does to a free block. -/
theorem createSpace_of_free {n : ℕ} (size : ℕ) (junk : ℕ → UInt8) (hfree : freeField.get m n ≠ 0) :
    createSpace m n size junk = (true,
      if sizeofSpaceNode < restSize m n size then
        splitBlock (useBlock m n size) n size (restSize m n size) junk
      else useBlock m n size) := by
  have hrest : restSize (freeField.set m n 0) n size = restSize m n size := by
    rw [restSize, Field.get_set_of_apart (by decide), restSize]
  rw [createSpace, if_neg hfree]
  dsimp only
  rw [hrest, ← useBlock]

/-- `createSpace` writes the record of the block and, if the block is cut, the record of the rest.
-/
theorem createSpace_apply (n size : ℕ) (junk : ℕ → UInt8)
    (hn : x ∉ Set.Ico n (n + sizeofSpaceNode))
    (hrest : sizeofSpaceNode < restSize m n size → x ∉
      Set.Ico (startField.get m n + size) (startField.get m n + size + sizeofSpaceNode)) :
    (createSpace m n size junk).2 x = m x := by
  by_cases hfree : freeField.get m n = 0
  · rw [createSpace, if_pos hfree]
  rw [createSpace_of_free m size junk hfree]
  split_ifs with hcut
  · rw [splitBlock, start_useBlock]
    exact ((nextField.set_eqOn _ _ _ (by decide) hn).trans
      (putFree_eqOn _ _ _ _ _ _ (hrest hcut))).trans (useBlock_eqOn m n size hn)
  · exact useBlock_eqOn m n size hn

end Writes

end OSDesign.VM
