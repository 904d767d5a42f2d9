import OSDesign.Lib.ByteMemory

/-!
# Views of a byte memory, and strings

A buffer is a memory of its own: `view m a` is what is seen from the address `a` on, and `paste`
puts a buffer back. Reading a range into a buffer, changing the buffer and writing it back is the
change made in place (`paste_view`, `Field.paste_set`, `paste_update`).

A string is a list of bytes without a zero, stored with a zero behind it.

## Main definitions

* `ByteMemory.view`, `ByteMemory.exchange`.
* `ByteMemory.strcpy`, `ByteMemory.strEq`, `ByteMemory.stringAt`.

## Main results

* `ByteMemory.paste_view`, `ByteMemory.Field.paste_set`: read, modify, write.
* `ByteMemory.strEq_iff`: comparing with a string is reading it.
* `ByteMemory.stringAt_strcpy`: a string that is written is read again.
-/

namespace ByteMemory

variable {m m' buf : Memory} {a b n size : ℕ}

/-- The memory seen from the address `a` on. -/
def view (m : Memory) (a : ℕ) : Memory := fun i => m (a + i)

theorem view_view (m : Memory) (a b : ℕ) : view (view m a) b = view m (a + b) :=
  funext fun i => congrArg m (Nat.add_assoc a b i).symm

theorem load_view (m : Memory) (a b n : ℕ) : load (view m a) b n = load m (a + b) n := by
  induction n generalizing b with
  | zero => rfl
  | succ n ih => rw [load, load, ih, Nat.add_assoc]; rfl

theorem Field.get_view (f : Field) (m : Memory) (a b : ℕ) :
    f.get (view m a) b = f.get m (a + b) := by
  rw [Field.get, load_view, Field.get, Nat.add_assoc]

/-! ### Read, modify, write -/

theorem paste_view (m : Memory) (a n : ℕ) : paste m a (view m a) n = m := by
  funext x
  rw [paste]
  split_ifs with h
  · rw [view, Nat.add_sub_cancel' h.1]
  · rfl

/-- A change inside the buffer is a change in place. -/
theorem paste_piecewise {p : ℕ → Prop} [DecidablePred p] {g : ℕ → UInt8}
    (h : ∀ i, p i → i < size) :
    paste m a (fun i => if p i then g i else buf i) size =
      fun x => if a ≤ x ∧ p (x - a) then g (x - a) else paste m a buf size x := by
  funext x
  by_cases hx : a ≤ x ∧ x < a + size
  · rw [paste, if_pos hx, paste, if_pos hx]
    simp only [hx.1, true_and]
  · have hp : ¬(a ≤ x ∧ p (x - a)) := by
      intro hpx
      have hlt := h _ hpx.2
      exact hx ⟨hpx.1, by omega⟩
    rw [paste, if_neg hx, if_neg hp, paste, if_neg hx]

theorem paste_store {k v : ℕ} (h : b + k ≤ size) :
    paste m a (store buf b k v) size = store (paste m a buf size) (a + b) k v := by
  refine (paste_piecewise fun i hi => by omega).trans (funext fun x => ?_)
  rw [store]
  refine if_congr (by omega) ?_ rfl
  rw [Nat.sub_sub]

theorem Field.paste_set (f : Field) (len : ℕ) {v : ℕ} (hf : f.off + f.len ≤ len)
    (h : b + len ≤ size) :
    paste m a (f.set buf b v) size = f.set (paste m a buf size) (a + b) v := by
  rw [Field.set, paste_store (by omega), Field.set, Nat.add_assoc]

theorem paste_update {v : UInt8} (h : b < size) :
    paste m a (Function.update buf b v) size = Function.update (paste m a buf size) (a + b) v := by
  funext x
  by_cases hx : x = a + b
  · subst hx
    rw [Function.update_self, paste_apply _ h, Function.update_self]
  · rw [Function.update_of_ne hx]
    by_cases hin : a ≤ x ∧ x < a + size
    · rw [paste, if_pos hin, paste, if_pos hin, Function.update_of_ne (by omega)]
    · rw [paste, if_neg hin, paste, if_neg hin]

theorem update_eqOn (m : Memory) (v : UInt8) {s : Set ℕ} (h : a ∉ s) :
    Set.EqOn (Function.update m a v) m s :=
  fun x hx => Function.update_of_ne (fun he : x = a => h (he ▸ hx)) v m

theorem Field.get_update {f : Field} {x : ℕ} (h : a + (f.off + f.len) ≤ x) (m : Memory)
    (v : UInt8) :
    f.get (Function.update m x v) a = f.get m a :=
  f.get_congr (update_eqOn m v fun hx => absurd hx.2 (Nat.not_lt.mpr h)) le_rfl

/-! ### Exchanging two ranges -/

/-- The `n` bytes from `a` on and those from `b` on are exchanged through a buffer. -/
def exchange (m : Memory) (a b n : ℕ) : Memory := paste (copy m a b n) b (view m a) n

theorem exchange_left {i : ℕ} (h : a + n ≤ b ∨ b + n ≤ a) (hi : i < n) :
    exchange m a b n (a + i) = m (b + i) := by
  rw [exchange, paste_eqOn _ _ _ _ (fun hx => absurd hx.1 (by have := hx.2; omega)), copy,
    paste_apply _ hi]

theorem exchange_right {i : ℕ} (hi : i < n) : exchange m a b n (b + i) = m (a + i) :=
  paste_apply _ hi

theorem exchange_eqOn (m : Memory) (a b n : ℕ) :
    Set.EqOn (exchange m a b n) m (Set.Ico a (a + n) ∪ Set.Ico b (b + n))ᶜ := by
  intro x hx
  rw [Set.mem_compl_iff, Set.mem_union, not_or] at hx
  rw [exchange, paste_eqOn _ _ _ _ hx.2, copy, paste_eqOn _ _ _ _ hx.1]

/-! ### Strings -/

/-- `strcpy`: the bytes of the string and a zero. -/
def strcpy (m : Memory) (a : ℕ) (s : List UInt8) : Memory :=
  paste m a (fun i => s.getD i 0) (s.length + 1)

/-- Whether the string at `a` is `s`, as `strcmp` finds out. -/
def strEq (m : Memory) : ℕ → List UInt8 → Bool
  | a, [] => m a == 0
  | a, c :: s => m a == c && strEq m (a + 1) s

/-- The string in the array of `n` bytes at `a`. -/
def stringAt (m : Memory) : ℕ → ℕ → List UInt8
  | _, 0 => []
  | a, n + 1 => if m a = 0 then [] else m a :: stringAt m (a + 1) n

theorem strcpy_eqOn (m : Memory) (a : ℕ) (s : List UInt8) :
    Set.EqOn (strcpy m a s) m (Set.Ico a (a + (s.length + 1)))ᶜ :=
  paste_eqOn ..

theorem stringAt_congr (h : Set.EqOn m' m (Set.Ico a (a + n))) :
    stringAt m' a n = stringAt m a n := by
  induction n generalizing a with
  | zero => rfl
  | succ n ih =>
    have hhead : m' a = m a := h ⟨le_rfl, by omega⟩
    have htail : Set.EqOn m' m (Set.Ico (a + 1) (a + 1 + n)) :=
      h.mono (Set.Ico_subset_Ico (by omega) (by omega))
    rw [stringAt, stringAt, hhead, ih htail]

/-- Comparing with a string that fits in the array is reading the string of the array. -/
theorem strEq_iff {s : List UInt8} (hs : 0 ∉ s) (hn : s.length < n) :
    strEq m a s = true ↔ stringAt m a n = s := by
  induction s generalizing a n with
  | nil =>
    obtain ⟨n, rfl⟩ := Nat.exists_eq_succ_of_ne_zero (Nat.ne_zero_of_lt hn)
    rw [strEq, beq_iff_eq, stringAt]
    split_ifs with h <;> simp [h]
  | cons c s ih =>
    obtain ⟨n, rfl⟩ := Nat.exists_eq_succ_of_ne_zero (Nat.ne_zero_of_lt hn)
    have hc : c ≠ 0 := fun h => hs (h ▸ List.mem_cons_self)
    have hrest := ih (a := a + 1) (n := n) (fun h => hs (List.mem_cons_of_mem c h))
      (Nat.lt_of_succ_lt_succ hn)
    rw [strEq, Bool.and_eq_true, beq_iff_eq, hrest, stringAt]
    split_ifs with h
    · simp [h, Ne.symm hc]
    · rw [List.cons.injEq]

theorem strEq_of_bytes {s : List UInt8} (h : ∀ i ≤ s.length, m (a + i) = s.getD i 0) :
    strEq m a s = true := by
  induction s generalizing a with
  | nil => exact beq_iff_eq.mpr (h 0 le_rfl)
  | cons c s ih =>
    have htail : ∀ i ≤ s.length, m (a + 1 + i) = s.getD i 0 := fun i hi => by
      rw [Nat.add_assoc, Nat.add_comm 1 i, h (i + 1) (Nat.succ_le_succ hi)]
      rfl
    rw [strEq, Bool.and_eq_true, beq_iff_eq]
    exact ⟨h 0 (Nat.zero_le _), ih htail⟩

/-- A string that fits in the array is read again. -/
theorem stringAt_strcpy {s : List UInt8} (hs : 0 ∉ s) (hn : s.length < n) :
    stringAt (strcpy m a s) a n = s :=
  (strEq_iff hs hn).mp (strEq_of_bytes fun _ hi => paste_apply _ (Nat.lt_succ_of_le hi))

end ByteMemory
