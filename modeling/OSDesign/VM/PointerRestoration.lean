import OSDesign.VM.PageMove

/-!
# The accesses of `restorePointers`

`restorePointers(n, size, 1)` takes the bytes from `n` on for records: the word `size` of a would-be
record, whatever it is, leads to the next one. The loop goes on while more than a record's room is
left of the region, so every record that it reads or writes is inside, and every pass moves on by a
record at least.

The function is modelled here with its pointers and `size_t` variables modulo 2⁶⁴ and with the list
of its accesses to memory. In the address space there is, nothing wraps around, and the result is
that of `restoreElementsPointers`.

## Main definitions

* `Cursor`, `restorePass`, `restorePointers`: the function, pass after pass.
* `Access`: an access to a field of a record.
* `RecordArea`, `Contained`: a region of memory, and what the function does to it.

## Main results

* `restorePointers_eq_some`: the loop ends.
* `restore_pointers_contained`.
-/

namespace OSDesign.VM

open ByteMemory

/-- The variables `s`, `old` and `n` of the loop, and the memory. -/
structure Cursor where
  s : ℕ
  old : ℕ
  n : ℕ
  bytes : Memory

/-- One pass of the loop, or `none` at its end. -/
def restorePass (size : ℕ) (c : Cursor) : Option Cursor :=
  if c.s < size ∧ sizeofSpaceNode < size - c.s then
    let offset := (sizeofSpaceNode + sizeField.get c.bytes c.n) % 2 ^ 64
    let next := (c.n + offset) % 2 ^ 64
    let m := nextField.set c.bytes c.n next
    let m := prevField.set m c.n c.old
    let m := startField.set m c.n ((c.n + sizeofSpaceNode) % 2 ^ 64)
    some ⟨(c.s + offset) % 2 ^ 64, c.n, next, m⟩
  else none

/-- An access to a field of the record at an address. -/
structure Access where
  field : Field
  record : ℕ

/-- The accesses of a pass: `size` is read, and the pointers are written. -/
def passAccesses (n : ℕ) : List Access :=
  [sizeField, nextField, prevField, startField].map fun field => ⟨field, n⟩

/-- `restorePointers(n, size, 1)`: the accesses in their order, and the memory at the end. It is
`none` when the function does not return: it calls `exit` when `size` is 0, and it follows the
`NULL` pointer `old` when there has been no pass. -/
def restorePointers (size : ℕ) : ℕ → Cursor → Option (List Access × Memory)
  | 0, _ => none
  | fuel + 1, c =>
    if size = 0 then none
    else
      match restorePass size c with
      | none =>
        if c.old = 0 then none else some ([⟨nextField, c.old⟩], nextField.set c.bytes c.old 0)
      | some c' =>
        (restorePointers size fuel c').map fun r => (passAccesses c.n ++ r.1, r.2)

/-- A region of memory with room for more than a record. Its end is below 2⁶³, as is that of every
object. -/
structure RecordArea (a size : ℕ) : Prop where
  pos : 0 < a
  room : sizeofSpaceNode < size
  below : a + size ≤ 2 ^ 63

/-- The accesses are inside the region. The records at the places `os` of the region have been
visited: nothing but their pointers has changed, and they form a list with increasing addresses from
the first byte of the region on, which is linked in both directions. -/
structure Contained (m : Memory) (a size : ℕ) (os : List ℕ) (accesses : List Access) (m' : Memory) :
    Prop where
  inside : ∀ x ∈ accesses, a ≤ x.record + x.field.off ∧
    x.record + x.field.off + x.field.len ≤ a + size
  visited : ∀ x ∈ accesses, ∃ o ∈ os, x.record = a + o
  changed : ∀ y, m' y ≠ m y → ∃ o ∈ os, ∃ f ∈ [startField, nextField, prevField],
    a + o + f.off ≤ y ∧ y < a + o + f.off + f.len
  first : os.head? = some 0
  increasing : os.Pairwise (· < ·)
  threaded : Threaded m' a 0 os
  list : Follows m' a (os.map (a + ·))

section Loop

variable {a size s : ℕ}

theorem sizeField_get_lt (m : Memory) (n : ℕ) : sizeField.get m n < 2 ^ 32 := load_lt m _ _

/-- A pass inside the region: nothing wraps around. -/
theorem restorePass_eq_some {m : Memory} (old : ℕ) (hend : a + size ≤ 2 ^ 63)
    (hs : s < size ∧ sizeofSpaceNode < size - s) {t : ℕ}
    (ht : t = s + (sizeofSpaceNode + sizeField.get (view m a) s)) :
    restorePass size ⟨s, old, a + s, m⟩ =
      some ⟨t, a + s, a + t, setPointers m (a + s) (a + t) old⟩ := by
  rw [Field.get_view] at ht
  have hsize := sizeField_get_lt m (a + s)
  have hoffset : (sizeofSpaceNode + sizeField.get m (a + s)) % 2 ^ 64 =
      sizeofSpaceNode + sizeField.get m (a + s) := Nat.mod_eq_of_lt (by rw [sizeofSpaceNode]; omega)
  have hnext : (a + s + (sizeofSpaceNode + sizeField.get m (a + s))) % 2 ^ 64 = a + t := by
    rw [Nat.mod_eq_of_lt (by rw [sizeofSpaceNode]; omega), ht, Nat.add_assoc]
  have hpos : (s + (sizeofSpaceNode + sizeField.get m (a + s))) % 2 ^ 64 = t := by
    rw [Nat.mod_eq_of_lt (by rw [sizeofSpaceNode]; omega), ht]
  have hstart : (a + s + sizeofSpaceNode) % 2 ^ 64 = a + s + sizeofSpaceNode :=
    Nat.mod_eq_of_lt (by rw [sizeofSpaceNode]; omega)
  rw [restorePass, if_pos hs]
  simp only [hoffset, hnext, hpos, hstart]
  rfl

/-- **The loop ends.** It does what the loop with unbounded numbers does. Every access is to a
record that is visited, or to the record `old` when there are no more. -/
theorem restorePointers_eq_some (ha : 0 < a) (hend : a + size ≤ 2 ^ 63) (hpos : size ≠ 0) {fuel : ℕ}
    (m : Memory) (old : ℕ) (hfuel : size ≤ s + fuel)
    (hold : old ≠ 0 ∨ s < size ∧ sizeofSpaceNode < size - s) :
    ∃ accesses, restorePointers size (fuel + 1) ⟨s, old, a + s, m⟩ =
        some (accesses, restoreLoop size fuel s old (a + s) m) ∧
      ∀ x ∈ accesses, x.field.off + x.field.len ≤ sizeofSpaceNode ∧
        ((∃ o ∈ visitLoop (view m a) size fuel s, x.record = a + o) ∨
          x.record = old ∧ visitLoop (view m a) size fuel s = []) := by
  have hlast : nextField.off + nextField.len ≤ sizeofSpaceNode := by decide
  have hfields : ∀ f ∈ [sizeField, nextField, prevField, startField],
      f.off + f.len ≤ sizeofSpaceNode := by decide
  induction fuel generalizing s old m with
  | zero =>
    have hs : ¬(s < size ∧ sizeofSpaceNode < size - s) := by omega
    refine ⟨[⟨nextField, old⟩], ?_, fun x hx => ?_⟩
    · rw [restorePointers, if_neg hpos, restorePass, if_neg hs]
      exact if_neg (hold.resolve_right hs)
    · rw [List.mem_singleton] at hx
      subst hx
      exact ⟨hlast, Or.inr ⟨rfl, rfl⟩⟩
  | succ fuel ih =>
    by_cases hs : s < size ∧ sizeofSpaceNode < size - s
    · generalize ht : s + (sizeofSpaceNode + sizeField.get (view m a) s) = t
      have hst : s + sizeofSpaceNode ≤ t := by omega
      have hfuel' : size ≤ t + fuel := by
        rw [sizeofSpaceNode] at hst
        omega
      obtain ⟨accesses, hrest, hmem⟩ :=
        ih (setPointers m (a + s) (a + t) old) (a + s) hfuel' (Or.inl (by omega))
      refine ⟨passAccesses (a + s) ++ accesses, ?_, fun x hx => ?_⟩
      · rw [restorePointers, if_neg hpos, restorePass_eq_some old hend hs ht.symm]
        simp only [hrest, Option.map_some, restoreLoop_succ hs ht.symm]
      · rw [visitLoop, if_pos hs, ht]
        rw [visitLoop_setPointers hst] at hmem
        rcases List.mem_append.mp hx with hx | hx
        · obtain ⟨f, hf, rfl⟩ := List.mem_map.mp hx
          exact ⟨hfields f hf, Or.inl ⟨s, List.mem_cons_self, rfl⟩⟩
        · obtain ⟨hfield, ⟨o, ho, hrec⟩ | ⟨hrec, -⟩⟩ := hmem x hx
          · exact ⟨hfield, Or.inl ⟨o, List.mem_cons_of_mem s ho, hrec⟩⟩
          · exact ⟨hfield, Or.inl ⟨s, List.mem_cons_self, hrec⟩⟩
    · refine ⟨[⟨nextField, old⟩], ?_, fun x hx => ?_⟩
      · rw [restorePointers, if_neg hpos, restorePass, if_neg hs, restoreLoop, if_neg hs]
        exact if_neg (hold.resolve_right hs)
      · rw [List.mem_singleton] at hx
        subst hx
        exact ⟨hlast, Or.inr ⟨rfl, if_neg hs⟩⟩

/-- The positions come one after the other. -/
theorem pairwise_visitLoop (page : Memory) (fuel : ℕ) :
    (visitLoop page size fuel s).Pairwise (· < ·) := by
  induction fuel generalizing s with
  | zero => exact List.Pairwise.nil
  | succ fuel ih =>
    rw [visitLoop]
    split_ifs
    · refine List.pairwise_cons.mpr ⟨fun p hp => ?_, ih⟩
      have := le_of_mem_visitLoop hp
      rw [sizeofSpaceNode] at this
      omega
    · exact List.Pairwise.nil

end Loop

/-- **Pointer restoration is contained.** Whatever the bytes of the region are, `restorePointers`
ends, stays in the region, changes only the pointers of the records that it visits, and leaves a
list of them. -/
theorem restore_pointers_contained (m : Memory) {a size : ℕ} (h : RecordArea a size) :
    ∃ fuel os accesses m', restorePointers size fuel ⟨0, 0, a, m⟩ = some (accesses, m') ∧
      Contained m a size os accesses m' := by
  have hpos : size ≠ 0 := Nat.ne_zero_of_lt h.room
  obtain ⟨n, hn⟩ := Nat.exists_eq_succ_of_ne_zero hpos
  have hs : 0 < size ∧ sizeofSpaceNode < size - 0 := ⟨Nat.pos_of_ne_zero hpos, h.room⟩
  have hcons : visited (view m a) size = 0 :: (visited (view m a) size).tail := by
    rw [visited, hn, visitLoop, ← hn, if_pos hs]
    rfl
  obtain ⟨accesses, hrun, hmem⟩ :=
    restorePointers_eq_some h.pos h.below hpos m 0 (Nat.le_add_left size 0) (Or.inr hs)
  have hvisited : ∀ x ∈ accesses, ∃ o ∈ visited (view m a) size, x.record = a + o :=
    fun x hx => (hmem x hx).2.resolve_right fun hnil => by
      rw [visited] at hcons
      rw [hnil.2] at hcons
      cases hcons
  have hthreaded : Threaded (restoreRecords m a size) a 0 (visited (view m a) size) :=
    threaded_restoreRecords (h.below.trans_lt (by norm_num))
  refine ⟨size + 1, visited (view m a) size, accesses, restoreRecords m a size, hrun,
    fun x hx => ?_, hvisited, fun y hy => ?_, ?_, pairwise_visitLoop _ size, hthreaded, ?_⟩
  · obtain ⟨o, ho, hrec⟩ := hvisited x hx
    have hfield := (hmem x hx).1
    have hlt := lt_of_mem_visitLoop ho
    rw [hrec]
    omega
  · by_contra! hnone
    refine hy (restoreRecords_apply h.room fun p hp hpy => ?_)
    obtain ⟨hle, hbyte⟩ := hpy
    have hstart := hnone p hp startField (by simp)
    have hnext := hnone p hp nextField (by simp)
    have hprev := hnone p hp prevField (by simp)
    simp only [startField, nextField, prevField] at hstart hnext hprev
    rw [IsPointerByte] at hbyte
    omega
  · rw [hcons]
    rfl
  · have hlist := hthreaded.follows (Nat.ne_of_gt h.pos)
    rw [hcons] at hlist ⊢
    exact hlist

/-- A region of 300 bytes with a record that says 2³² - 1 bytes. -/
theorem restore_pointers_contained_huge :
    ∃ fuel os accesses m',
      restorePointers 300 fuel ⟨0, 0, 4096, fun _ => 255⟩ = some (accesses, m') ∧
        Contained (fun _ => 255) 4096 300 os accesses m' :=
  restore_pointers_contained (fun _ => 255) ⟨by decide, by decide, by decide⟩

end OSDesign.VM
