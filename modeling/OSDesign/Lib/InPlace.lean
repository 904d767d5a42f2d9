import OSDesign.Lib.MemoryView

/-!
# Changes in place

A change of a memory is in place when each of its bytes depends on the byte that was there before
and on no other one. Storing numbers, bytes and strings at fixed addresses is in place, one such
change after the other is, and so is changing a buffer in place that is read before and written
back.

Changes in place commute with setting bytes to zero that they leave alone (`InPlace.clear_comm`).

## Main definitions

* `ByteMemory.InPlace`, `ByteMemory.clear`.

## Main results

* `ByteMemory.InPlace.comp`, `ByteMemory.InPlace.paste_view`.
* `ByteMemory.InPlace.clear_comm`.
-/

namespace ByteMemory

variable {v w : Memory → Memory} {m m' : Memory}

/-- Each byte of the result depends on the byte that was there. -/
def InPlace (w : Memory → Memory) : Prop := ∀ m m' x, m x = m' x → w m x = w m' x

theorem InPlace.comp (hv : InPlace v) (hw : InPlace w) : InPlace fun m => v (w m) :=
  fun m m' x h => hv _ _ x (hw m m' x h)

theorem InPlace.ite {p : Prop} [Decidable p] (hv : InPlace v) (hw : InPlace w) :
    InPlace fun m => if p then v m else w m := by
  intro m m' x h
  dsimp only
  split
  · exact hv m m' x h
  · exact hw m m' x h

theorem inPlace_id : InPlace fun m => m := fun _ _ _ h => h

theorem inPlace_store (a n k : ℕ) : InPlace fun m => store m a n k := by
  intro m m' x h
  simp only [store, h]

theorem inPlace_paste (a n : ℕ) (bytes : ℕ → UInt8) : InPlace fun m => paste m a bytes n := by
  intro m m' x h
  simp only [paste, h]

theorem inPlace_update (a : ℕ) (b : UInt8) : InPlace fun m => Function.update m a b := by
  intro m m' x h
  simp only [Function.update_apply, h]

theorem Field.inPlace_set (f : Field) (a k : ℕ) : InPlace fun m => f.set m a k :=
  inPlace_store _ _ k

theorem inPlace_strcpy (a : ℕ) (s : List UInt8) : InPlace fun m => strcpy m a s :=
  inPlace_paste a _ _

/-- A range is read into a buffer, changed in place and written back. -/
theorem InPlace.paste_view (hw : InPlace w) (a n : ℕ) :
    InPlace fun m => paste m a (w (view m a)) n := by
  intro m m' x h
  simp only [paste]
  split
  next hx =>
    refine hw _ _ _ ?_
    rw [view, view, Nat.add_sub_cancel' hx.1, h]
  next => exact h

/-! ### Clearing bytes -/

/-- The memory with zeros at the given addresses. -/
def clear (s : Finset ℕ) (m : Memory) : Memory := fun x => if x ∈ s then 0 else m x

theorem clear_of_mem {s : Finset ℕ} {x : ℕ} (h : x ∈ s) (m : Memory) : clear s m x = 0 := if_pos h

theorem clear_of_notMem {s : Finset ℕ} {x : ℕ} (h : x ∉ s) (m : Memory) : clear s m x = m x :=
  if_neg h

@[simp] theorem clear_empty (m : Memory) : clear ∅ m = m :=
  funext fun x => clear_of_notMem (Finset.notMem_empty x) m

/-- A change in place that leaves the cleared bytes alone can be made before or after clearing them.
-/
theorem InPlace.clear_comm (hw : InPlace w) {s : Finset ℕ} (hs : ∀ m, ∀ x ∈ s, w m x = m x)
    (m : Memory) : clear s (w m) = w (clear s m) := by
  funext x
  by_cases hx : x ∈ s
  · rw [clear_of_mem hx, hs _ x hx, clear_of_mem hx]
  · rw [clear_of_notMem hx]
    exact hw _ _ x (clear_of_notMem hx m).symm

/-- A byte that is zero, or that is set and then cleared, may be among the cleared ones. -/
theorem clear_insert_update {s : Finset ℕ} {a : ℕ} (hzero : m a = 0) (b : UInt8) :
    clear (insert a s) (Function.update m a b) = clear s m := by
  funext x
  by_cases hxa : x = a
  · subst hxa
    rw [clear_of_mem (Finset.mem_insert_self x s), clear]
    split
    · rfl
    · exact hzero.symm
  · rw [clear, clear, Function.update_of_ne hxa]
    refine if_congr ?_ rfl rfl
    rw [Finset.mem_insert, or_iff_right hxa]

end ByteMemory
