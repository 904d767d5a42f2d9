import Mathlib.Tactic
import OSDesign.VM.Memory

/-!
# What an exchange of pages does to their bytes

`swapPages` copies two pages and then calls `restorePointers` on both. That function finds the
records of a page by their sizes and rewrites the fields `start`, `next` and `prev` at every
position that it visits, whether or not there is a record. All other bytes of the two pages arrive
as they were, and no other page changes.

## Main definitions

* `visited`, `Touched`: the positions that `restorePointers` visits and the bytes that it rewrites.
* `VMState.frameAddress`.

## Main results

* `restoreRecords_apply`: the other bytes stay.
* `VMState.swapPages_left`, `VMState.swapPages_right`, `VMState.swapPages_of_ne`: the bytes of a
  page after an exchange.
-/

namespace OSDesign.VM

open ByteMemory

/-! ### The positions visited -/

/-- The positions that the loop of `restorePointers` visits from the position `s` on, in a page with
the contents `page`. -/
def visitLoop (page : Memory) (size : ℕ) : ℕ → ℕ → List ℕ
  | 0, _ => []
  | fuel + 1, s =>
    if s < size ∧ sizeofSpaceNode < size - s then
      s :: visitLoop page size fuel (s + (sizeofSpaceNode + sizeField.get page s))
    else []

/-- The positions that `restorePointers` visits. -/
def visited (page : Memory) (size : ℕ) : List ℕ := visitLoop page size size 0

/-- The byte `o` of a record is one of those that `restorePointers` rewrites. -/
def IsPointerByte (o : ℕ) : Prop := 16 ≤ o ∧ o < 24 ∨ 32 ≤ o ∧ o < 48

instance (o : ℕ) : Decidable (IsPointerByte o) := inferInstanceAs (Decidable (_ ∨ _))

/-- `restorePointers` rewrites the byte `o` of the page. -/
def Touched (page : Memory) (size o : ℕ) : Prop :=
  ∃ s ∈ visited page size, s ≤ o ∧ IsPointerByte (o - s)

instance (page : Memory) (size o : ℕ) : Decidable (Touched page size o) :=
  inferInstanceAs (Decidable (∃ s ∈ visited page size, _))

/-- A position that is visited has room for a record in the page. -/
theorem lt_of_mem_visitLoop {page : Memory} {size fuel s p : ℕ}
    (h : p ∈ visitLoop page size fuel s) : p + sizeofSpaceNode < size := by
  induction fuel generalizing s with
  | zero => cases h
  | succ fuel ih =>
    rw [visitLoop] at h
    split_ifs at h with hs
    · rcases List.mem_cons.mp h with rfl | h
      · omega
      · exact ih h
    · cases h

theorem le_of_mem_visitLoop {page : Memory} {size fuel s p : ℕ}
    (h : p ∈ visitLoop page size fuel s) : s ≤ p := by
  induction fuel generalizing s with
  | zero => cases h
  | succ fuel ih =>
    rw [visitLoop] at h
    split_ifs at h
    · rcases List.mem_cons.mp h with rfl | h
      · exact le_rfl
      · have := ih h
        omega
    · cases h

/-- There is room for a record between two positions that are visited. -/
theorem visitLoop_apart {page : Memory} {size fuel s p q : ℕ}
    (hp : p ∈ visitLoop page size fuel s) (hq : q ∈ visitLoop page size fuel s) :
    p = q ∨ p + sizeofSpaceNode ≤ q ∨ q + sizeofSpaceNode ≤ p := by
  induction fuel generalizing s with
  | zero => cases hp
  | succ fuel ih =>
    rw [visitLoop] at hp hq
    split_ifs at hp hq
    · rcases List.mem_cons.mp hp with rfl | hp' <;> rcases List.mem_cons.mp hq with rfl | hq'
      · exact Or.inl rfl
      · have := le_of_mem_visitLoop hq'
        omega
      · have := le_of_mem_visitLoop hp'
        omega
      · exact ih hp' hq'
    · cases hp

/-- The positions depend on the bytes of the page from the current position on. -/
theorem visitLoop_congr {page page' : Memory} {size fuel s : ℕ}
    (h : Set.EqOn page' page (Set.Ico s size)) :
    visitLoop page' size fuel s = visitLoop page size fuel s := by
  induction fuel generalizing s with
  | zero => rfl
  | succ fuel ih =>
    rw [visitLoop, visitLoop]
    by_cases hs : s < size ∧ sizeofSpaceNode < size - s
    · have hrecord : Set.EqOn page' page (Set.Ico s (s + sizeofSpaceNode)) :=
        h.mono (Set.Ico_subset_Ico le_rfl (by omega))
      have hsize : sizeField.get page' s = sizeField.get page s :=
        sizeField.get_congr hrecord (by decide)
      rw [if_pos hs, if_pos hs, hsize, ih (h.mono (Set.Ico_subset_Ico (by omega) le_rfl))]
    · rw [if_neg hs, if_neg hs]

theorem touched_congr {page page' : Memory} {size : ℕ} (h : Set.EqOn page' page (Set.Ico 0 size))
    (o : ℕ) : Touched page' size o ↔ Touched page size o := by
  rw [Touched, Touched, visited, visited, visitLoop_congr h]

/-! ### The bytes that are not rewritten -/

theorem set_apply {f : Field} {m : Memory} {a v x : ℕ} (h : x < a + f.off ∨ a + f.off + f.len ≤ x) :
    f.set m a v x = m x :=
  store_eqOn m (a + f.off) f.len v fun hx => by
    have := hx.1
    have := hx.2
    omega

/-- The pointers of the record at `n` are set. -/
def setPointers (m : Memory) (n next prev : ℕ) : Memory :=
  startField.set (prevField.set (nextField.set m n next) n prev) n (n + sizeofSpaceNode)

theorem setPointers_apply (m : Memory) (next prev : ℕ) {n x : ℕ}
    (h : ¬(n ≤ x ∧ IsPointerByte (x - n))) : setPointers m n next prev x = m x := by
  rw [IsPointerByte] at h
  rw [setPointers, set_apply (f := startField), set_apply (f := prevField),
    set_apply (f := nextField)]
  all_goals
    simp only [startField, prevField, nextField]
    omega

section Loop

variable {m : Memory} {a size fuel s old : ℕ}

/-- The walk goes on behind the record. -/
theorem restoreLoop_succ (hs : s < size ∧ sizeofSpaceNode < size - s) {t : ℕ}
    (ht : t = s + (sizeofSpaceNode + sizeField.get (view m a) s)) :
    restoreLoop size (fuel + 1) s old (a + s) m =
      restoreLoop size fuel t (a + s) (a + t) (setPointers m (a + s) (a + t) old) := by
  rw [Field.get_view] at ht
  have hnext : a + t = a + s + (sizeofSpaceNode + sizeField.get m (a + s)) := by
    rw [ht, Nat.add_assoc]
  rw [restoreLoop, if_pos hs, hnext, ht]
  rfl

/-- The rest of the walk reads the page behind the record that has just been changed. -/
theorem visitLoop_setPointers {t next prev : ℕ} (ht : s + sizeofSpaceNode ≤ t) :
    visitLoop (view (setPointers m (a + s) next prev) a) size fuel t =
      visitLoop (view m a) size fuel t := by
  refine visitLoop_congr fun y hy => setPointers_apply m next prev ?_
  have := hy.1
  rw [IsPointerByte]
  rw [sizeofSpaceNode] at ht
  omega

/-- The end of the walk. -/
theorem restoreLoop_of_nil {o : ℕ} (h : visitLoop (view m a) size fuel s = []) :
    restoreLoop size fuel s o (a + s) m = nextField.set m o 0 := by
  cases fuel with
  | zero => rfl
  | succ fuel =>
    rw [visitLoop] at h
    split_ifs at h with hs
    rw [restoreLoop, if_neg hs]

/-- The loop of `restorePointers` in the page at `a`. The record `old` matters if it is the last. -/
theorem restoreLoop_apply {x : ℕ}
    (hvisit : ∀ p ∈ visitLoop (view m a) size fuel s, ¬(a + p ≤ x ∧ IsPointerByte (x - (a + p))))
    (hold : visitLoop (view m a) size fuel s = [] → ¬(old ≤ x ∧ IsPointerByte (x - old))) :
    restoreLoop size fuel s old (a + s) m x = m x := by
  induction fuel generalizing s old m with
  | zero =>
    have hlast := hold rfl
    rw [IsPointerByte] at hlast
    refine set_apply ?_
    simp only [nextField]
    omega
  | succ fuel ih =>
    by_cases hs : s < size ∧ sizeofSpaceNode < size - s
    · generalize ht : s + (sizeofSpaceNode + sizeField.get (view m a) s) = t
      rw [visitLoop, if_pos hs, ht] at hvisit
      have hhead := hvisit s List.mem_cons_self
      have hst : s + sizeofSpaceNode ≤ t := by omega
      rw [restoreLoop_succ hs ht.symm]
      refine (ih (fun p hp => ?_) fun _ => hhead).trans (setPointers_apply m _ _ hhead)
      rw [visitLoop_setPointers hst] at hp
      exact hvisit p (List.mem_cons_of_mem s hp)
    · have hnil : visitLoop (view m a) size (fuel + 1) s = [] := if_neg hs
      have hlast := hold hnil
      rw [IsPointerByte] at hlast
      rw [restoreLoop_of_nil hnil]
      refine set_apply ?_
      simp only [nextField]
      omega

end Loop

theorem restoreRecords_apply {m : Memory} {a size x : ℕ} (hsize : sizeofSpaceNode < size)
    (h : ∀ p ∈ visited (view m a) size, ¬(a + p ≤ x ∧ IsPointerByte (x - (a + p)))) :
    restoreRecords m a size x = m x := by
  obtain ⟨n, rfl⟩ := Nat.exists_eq_succ_of_ne_zero (Nat.ne_zero_of_lt hsize)
  refine restoreLoop_apply (s := 0) h fun hnil => absurd hnil ?_
  rw [visitLoop, if_pos ⟨n.succ_pos, hsize⟩]
  exact List.cons_ne_nil _ _

/-- **Restoring pointers.** A byte of the page that is not touched stays. -/
theorem restoreRecords_page {m : Memory} {a size o : ℕ} (hsize : sizeofSpaceNode < size)
    (h : ¬ Touched (view m a) size o) : restoreRecords m a size (a + o) = m (a + o) := by
  refine restoreRecords_apply hsize fun p hp hx => h ⟨p, hp, by omega, ?_⟩
  rw [← Nat.add_sub_add_left a o p]
  exact hx.2

theorem restoreRecords_eqOn (m : Memory) {a size : ℕ} (hsize : sizeofSpaceNode < size) :
    Set.EqOn (restoreRecords m a size) m (Set.Ico a (a + size))ᶜ := by
  intro x hx
  refine restoreRecords_apply hsize fun p hp ⟨hle, hbyte⟩ => hx ⟨by omega, ?_⟩
  have := lt_of_mem_visitLoop hp
  rw [IsPointerByte] at hbyte
  rw [sizeofSpaceNode] at this
  omega

namespace VMState

/-! ### Exchanging two pages -/

/-- The address of the frame `f`. -/
def frameAddress (s : VMState) (f : ℕ) : ℕ := s.base + memoryStart + f * s.pageSize

/-- The contents of the frame `f`. -/
def page (s : VMState) (f : ℕ) : Memory := view s.bytes (s.frameAddress f)

/-- The frames are laid out from `MEMORY_START` on, and every descriptor has the page size. -/
structure Layout (s : VMState) : Prop where
  contiguous : Contiguous s.pageSize s.frames
  sizes : ∀ n ∈ s.frames, n.size = s.pageSize
  large : sizeofSpaceNode < s.pageSize

variable {s s' : VMState} {i j : ℕ}

theorem Layout.base_add_start (h : s.Layout) {n : SpaceNode} (hn : s.frames[i]? = some n) :
    s.base + n.start = s.frameAddress i := by
  rw [h.contiguous i n hn, frameAddress, Nat.add_assoc]

theorem Layout.size_eq (h : s.Layout) {n : SpaceNode} (hn : s.frames[i]? = some n) :
    n.size = s.pageSize :=
  h.sizes n (List.mem_iff_getElem?.mpr ⟨i, hn⟩)

theorem frameAddress_ne_zero (s : VMState) (f : ℕ) : s.frameAddress f ≠ 0 := by
  have : 0 < memoryStart := by decide
  rw [frameAddress]
  omega

/-- Two frames do not overlap. -/
theorem frameAddress_apart (s : VMState) (hij : i ≠ j) :
    s.frameAddress i + s.pageSize ≤ s.frameAddress j ∨
      s.frameAddress j + s.pageSize ≤ s.frameAddress i := by
  rw [frameAddress, frameAddress]
  rcases Nat.lt_or_gt_of_ne hij with h | h
  · have := Nat.mul_le_mul_right s.pageSize h
    rw [Nat.succ_mul] at this
    omega
  · have := Nat.mul_le_mul_right s.pageSize h
    rw [Nat.succ_mul] at this
    omega

/-- A page has room for more than a record. -/
theorem Layout.restoreElementsPointers_eq (h : s.Layout) (m : Memory) (n : ℕ) :
    restoreElementsPointers m n s.pageSize = some (restoreRecords m n s.pageSize) :=
  if_neg (Nat.not_le.mpr h.large)

/-- An exchange of two different frames. -/
theorem Layout.swapPages_eq (h : s.Layout) (hij : i ≠ j) (hs : s.swapPages i j = some s') :
    s' = { s with
      frames := VM.swapPages i j s.frames
      bytes := restoreRecords (restoreRecords
        (exchange s.bytes (s.frameAddress i) (s.frameAddress j) s.pageSize) (s.frameAddress i)
        s.pageSize) (s.frameAddress j) s.pageSize } := by
  rw [swapPages, if_neg hij] at hs
  obtain ⟨p1, hp1, hs⟩ := Option.bind_eq_some_iff.mp hs
  obtain ⟨p2, hp2, hs⟩ := Option.bind_eq_some_iff.mp hs
  rw [h.base_add_start hp1, h.base_add_start hp2, h.size_eq hp1, h.size_eq hp2,
    h.restoreElementsPointers_eq, Option.bind_some, h.restoreElementsPointers_eq, Option.map_some,
    Option.some.injEq] at hs
  exact hs.symm

/-- The page that comes to the frame `i` is copied there, and its pointers are restored. -/
theorem Layout.restores_left (h : s.Layout) (hij : i ≠ j) (hs : s.swapPages i j = some s') :
    ∃ x : Memory,
      Set.EqOn (view x (s.frameAddress i)) (s.page j) (Set.Ico 0 s.pageSize) ∧
      Set.EqOn s'.bytes (restoreRecords x (s.frameAddress i) s.pageSize)
        (Set.Ico (s.frameAddress i) (s.frameAddress i + s.pageSize)) := by
  have hapart := s.frameAddress_apart hij
  obtain rfl := h.swapPages_eq hij hs
  refine ⟨_, fun o ho => exchange_left hapart ho.2,
    eqOn_of_disjoint (restoreRecords_eqOn _ h.large) (disjoint_Ico ?_)⟩
  omega

/-- The page that comes to the frame `j` is copied there, and its pointers are restored. -/
theorem Layout.restores_right (h : s.Layout) (hij : i ≠ j) (hs : s.swapPages i j = some s') :
    ∃ x : Memory,
      Set.EqOn (view x (s.frameAddress j)) (s.page i) (Set.Ico 0 s.pageSize) ∧
      Set.EqOn s'.bytes (restoreRecords x (s.frameAddress j) s.pageSize)
        (Set.Ico (s.frameAddress j) (s.frameAddress j + s.pageSize)) := by
  have hapart := s.frameAddress_apart hij
  obtain rfl := h.swapPages_eq hij hs
  refine ⟨_, fun o ho => ?_, fun _ _ => rfl⟩
  refine Eq.trans (restoreRecords_eqOn _ h.large fun hx => ?_) (exchange_right ho.2)
  have := hx.1
  have := hx.2
  have := ho.2
  omega

/-- A byte of a page that is copied from `page` to `a`, and whose pointers are restored there. -/
theorem restored_apply {m x page : Memory} {a size o : ℕ} (hsize : sizeofSpaceNode < size)
    (hcopy : Set.EqOn (view x a) page (Set.Ico 0 size))
    (hrestore : Set.EqOn m (restoreRecords x a size) (Set.Ico a (a + size)))
    (ho : o < size) (hkeep : ¬ Touched page size o) : m (a + o) = page o := by
  rw [hrestore ⟨by omega, by omega⟩,
    restoreRecords_page hsize (by rwa [touched_congr hcopy])]
  exact hcopy ⟨Nat.zero_le o, ho⟩

/-- A byte of the page that comes to the frame `i`. -/
theorem Layout.swapPages_left (h : s.Layout) (hij : i ≠ j) (hs : s.swapPages i j = some s') {o : ℕ}
    (ho : o < s.pageSize) (hkeep : ¬ Touched (s.page j) s.pageSize o) :
    s'.page i o = s.page j o := by
  obtain ⟨x, hcopy, hrestore⟩ := h.restores_left hij hs
  obtain ⟨m, rfl⟩ := swapPages_eq_some hs
  exact restored_apply h.large hcopy hrestore ho hkeep

/-- A byte of the page that comes to the frame `j`. -/
theorem Layout.swapPages_right (h : s.Layout) (hij : i ≠ j) (hs : s.swapPages i j = some s')
    {o : ℕ} (ho : o < s.pageSize) (hkeep : ¬ Touched (s.page i) s.pageSize o) :
    s'.page j o = s.page i o := by
  obtain ⟨x, hcopy, hrestore⟩ := h.restores_right hij hs
  obtain ⟨m, rfl⟩ := swapPages_eq_some hs
  exact restored_apply h.large hcopy hrestore ho hkeep

/-- A byte outside the two frames. -/
theorem Layout.swapPages_outside (h : s.Layout) (hij : i ≠ j) (hs : s.swapPages i j = some s')
    {x : ℕ} (hi : x ∉ Set.Ico (s.frameAddress i) (s.frameAddress i + s.pageSize))
    (hj : x ∉ Set.Ico (s.frameAddress j) (s.frameAddress j + s.pageSize)) :
    s'.bytes x = s.bytes x := by
  obtain rfl := h.swapPages_eq hij hs
  calc restoreRecords _ (s.frameAddress j) s.pageSize x
      = restoreRecords _ (s.frameAddress i) s.pageSize x :=
        restoreRecords_eqOn _ h.large hj
    _ = exchange s.bytes (s.frameAddress i) (s.frameAddress j) s.pageSize x :=
        restoreRecords_eqOn _ h.large hi
    _ = s.bytes x := exchange_eqOn _ _ _ _ fun hx => hx.elim hi hj

/-- A byte of a page that is not moved. -/
theorem Layout.swapPages_of_ne (h : s.Layout) (hij : i ≠ j) (hs : s.swapPages i j = some s')
    {f o : ℕ} (ho : o < s.pageSize) (hi : f ≠ i) (hj : f ≠ j) : s'.page f o = s.page f o := by
  have hout {g : ℕ} (hg : f ≠ g) :
      s.frameAddress f + o ∉ Set.Ico (s.frameAddress g) (s.frameAddress g + s.pageSize) := by
    rintro ⟨hl, hr⟩
    have := s.frameAddress_apart hg
    omega
  have hsame := h.swapPages_outside hij hs (hout hi) (hout hj)
  obtain ⟨m, rfl⟩ := swapPages_eq_some hs
  exact hsame

end VMState

end OSDesign.VM
