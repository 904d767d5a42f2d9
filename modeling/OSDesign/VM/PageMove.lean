import OSDesign.VM.Exchange
import OSDesign.VM.Disjointness

/-!
# Moving a page and its block list

`swapPages` copies the bytes of two pages and then calls `restorePointers` on both, which does not
move the pointers of the block list but makes new ones: from the first record on, the next record is
taken to be where the data of this one ends, as long as more than a record's room is left in the
page (`threaded_restoreRecords`). So the list that is found in the other frame is the old one if and
only if the old list was laid out like that: every block is directly followed by the next record,
and the fields `prev` were right (`lists_moved_iff`). It is not after a block was cut whose record
said too many bytes, after a rest too small for a record was dropped, or after blocks were joined
(`dropped_rest_breaks_list`).

## Main definitions

* `Threaded`: the records at the given places of a page are linked in this order.
* `Follows`, `ListMoved`: a list in one page before, and in another page after.
* `Restored`: a page has been copied and its pointers restored.

## Main results

* `threaded_restoreRecords`.
* `lists_moved_iff`, `dropped_rest_breaks_list`.
-/

namespace OSDesign.VM

open Transition ByteMemory

/-! ### Lists of records -/

/-- The address of the first of the records at the given places of the page `a`, or `NULL`. -/
def headAddress (a : ℕ) (os : List ℕ) : ℕ := (os.head?.map (a + ·)).getD 0

/-- The records at the given places of the page `a` are linked in this order, and `prev` of the
first one is `p`. -/
def Threaded (m : Memory) (a : ℕ) : ℕ → List ℕ → Prop
  | _, [] => True
  | p, o :: os =>
    startField.get m (a + o) = a + o + sizeofSpaceNode ∧ prevField.get m (a + o) = p ∧
      nextField.get m (a + o) = headAddress a os ∧ Threaded m a (a + o) os

instance decidableThreaded (m : Memory) (a : ℕ) :
    ∀ (p : ℕ) (os : List ℕ), Decidable (Threaded m a p os)
  | _, [] => isTrue trivial
  | _, o :: os =>
    have : Decidable (Threaded m a (a + o) os) := decidableThreaded m a (a + o) os
    inferInstanceAs (Decidable (_ ∧ _ ∧ _ ∧ _))

/-- The records that are reached from `p` by the fields `next`. -/
def Follows (m : Memory) : ℕ → List ℕ → Prop
  | p, [] => p = 0
  | p, n :: ns => p = n ∧ p ≠ 0 ∧ Follows m (nextField.get m p) ns

/-- The pointer `x` of a page at `a`, and the pointer `x'` of a page at `a'` to the same place. -/
def Shifted (a a' x x' : ℕ) : Prop := x = 0 ∧ x' = 0 ∨ x ≠ 0 ∧ x' ≠ 0 ∧ x' + a = x + a'

/-- The record at the place `o` of the page `a`, and the one in the page `a'` afterwards. -/
structure RecordMoved (m : Memory) (a : ℕ) (m' : Memory) (a' o : ℕ) : Prop where
  size : sizeField.get m' (a' + o) = sizeField.get m (a + o)
  free : freeField.get m' (a' + o) = freeField.get m (a + o)
  start : Shifted a a' (startField.get m (a + o)) (startField.get m' (a' + o))
  prev : Shifted a a' (prevField.get m (a + o)) (prevField.get m' (a' + o))

/-- The list of the page `a` is found in the page `a'` afterwards. -/
def ListMoved (m : Memory) (a : ℕ) (m' : Memory) (a' : ℕ) : Prop :=
  ∃ os : List ℕ, Follows m a (os.map (a + ·)) ∧ Follows m' a' (os.map (a' + ·)) ∧
    ∀ o ∈ os, RecordMoved m a m' a' o

section Lists

variable {m m' : Memory} {a a' p p' : ℕ} {os : List ℕ}

theorem Follows.unique {ns ns' : List ℕ} (h : Follows m p ns) (h' : Follows m p ns') :
    ns = ns' := by
  induction ns generalizing p ns' with
  | nil =>
    cases ns' with
    | nil => rfl
    | cons n ns' => exact absurd h h'.2.1
  | cons n ns ih =>
    cases ns' with
    | nil => exact absurd h' h.2.1
    | cons n' ns' =>
      obtain ⟨rfl, -, h⟩ := h
      obtain ⟨rfl, -, h'⟩ := h'
      rw [ih h h']

/-- The list of records that are linked. -/
theorem Threaded.follows (ha : a ≠ 0) (h : Threaded m a p os) :
    Follows m (headAddress a os) (os.map (a + ·)) := by
  induction os generalizing p with
  | nil => rfl
  | cons o os ih =>
    refine ⟨rfl, fun h0 => ha (Nat.eq_zero_of_add_eq_zero_right h0), ?_⟩
    rw [show headAddress a (o :: os) = a + o from rfl, h.2.2.1]
    exact ih h.2.2.2

theorem Follows.headAddress_eq (h : Follows m p (os.map (a + ·))) : p = headAddress a os := by
  cases os with
  | nil => exact h
  | cons o os => exact h.1

theorem Shifted.unique {x y z : ℕ} (hx : Shifted a a' x z) (hy : Shifted a a' y z) : x = y := by
  rcases hx with ⟨hx, hz⟩ | ⟨-, hz, hx⟩ <;> rcases hy with ⟨hy, hz'⟩ | ⟨-, hz', hy⟩ <;> omega

theorem shifted_add (ha : a ≠ 0) (ha' : a' ≠ 0) (o : ℕ) : Shifted a a' (a + o) (a' + o) :=
  Or.inr ⟨by omega, by omega, by omega⟩

/-- If the records of a list that is linked in the page `a'` are those of a list in the page `a`,
this one is linked in the same way. -/
theorem Threaded.of_moved (ha : a ≠ 0) (ha' : a' ≠ 0) (h' : Threaded m' a' p' os)
    (hp : Shifted a a' p p') (hf : Follows m (headAddress a os) (os.map (a + ·)))
    (hrec : ∀ o ∈ os, RecordMoved m a m' a' o) : Threaded m a p os := by
  induction os generalizing p p' with
  | nil => trivial
  | cons o os ih =>
    obtain ⟨hstart', hprev', -, h'⟩ := h'
    obtain ⟨-, -, hf⟩ := hf
    have ho := hrec o List.mem_cons_self
    have hstart : startField.get m (a + o) = a + o + sizeofSpaceNode := by
      have hsh := ho.start
      rw [hstart', Nat.add_assoc] at hsh
      rw [hsh.unique (shifted_add ha ha' _), Nat.add_assoc]
    have hprev : prevField.get m (a + o) = p := by
      have hsh := ho.prev
      rw [hprev'] at hsh
      exact hsh.unique hp
    have hnext : nextField.get m (a + o) = headAddress a os := hf.headAddress_eq
    rw [show headAddress a (o :: os) = a + o from rfl, hnext] at hf
    exact ⟨hstart, hprev, hnext, ih h' (shifted_add ha ha' o) hf fun o ho =>
      hrec o (List.mem_cons_of_mem _ ho)⟩

/-- Two pages whose lists are linked at the same places. -/
theorem Threaded.moved (ha : a ≠ 0) (ha' : a' ≠ 0) (h : Threaded m a p os)
    (h' : Threaded m' a' p' os) (hp : Shifted a a' p p') :
    ∀ o ∈ os, Shifted a a' (startField.get m (a + o)) (startField.get m' (a' + o)) ∧
      Shifted a a' (prevField.get m (a + o)) (prevField.get m' (a' + o)) := by
  induction os generalizing p p' with
  | nil => exact nofun
  | cons o os ih =>
    obtain ⟨hstart, hprev, -, h⟩ := h
    obtain ⟨hstart', hprev', -, h'⟩ := h'
    intro o₁ ho₁
    rcases List.mem_cons.mp ho₁ with rfl | ho₁
    · rw [hstart, hstart', hprev, hprev', Nat.add_assoc, Nat.add_assoc]
      exact ⟨shifted_add ha ha' _, hp⟩
    · exact ih h h' (shifted_add ha ha' o) o₁ ho₁

end Lists

/-! ### What `restorePointers` makes of a page -/

section Restore

variable {page m : Memory} {a size fuel s : ℕ}

/-- The place from which the walk goes on. -/
theorem headAddress_visitLoop (h : visitLoop page size fuel s ≠ []) :
    headAddress a (visitLoop page size fuel s) = a + s := by
  cases fuel with
  | zero => exact absurd rfl h
  | succ fuel =>
    rw [visitLoop] at h ⊢
    split_ifs at h ⊢
    · rfl
    · exact absurd rfl h

theorem lt_of_visitLoop_ne_nil (h : visitLoop page size fuel s ≠ []) :
    s + sizeofSpaceNode < size := by
  cases fuel with
  | zero => exact absurd rfl h
  | succ fuel =>
    rw [visitLoop] at h
    split_ifs at h
    · omega
    · exact absurd rfl h

/-- The record that is being left. -/
theorem restoreLoop_record {o s₁ : ℕ} (hne : visitLoop (view m a) size fuel s ≠ [])
    (hs : s₁ + sizeofSpaceNode ≤ s) :
    Set.EqOn (restoreLoop size fuel s o (a + s) m) m
      (Set.Ico (a + s₁) (a + s₁ + sizeofSpaceNode)) := by
  intro x hx
  refine restoreLoop_apply (fun p hp hpx => ?_) fun hnil => absurd hnil hne
  have := le_of_mem_visitLoop hp
  have := hx.2
  omega

theorem start_setPointers {n next prev : ℕ} (hn : n + sizeofSpaceNode < 2 ^ 64) :
    startField.get (setPointers m n next prev) n = n + sizeofSpaceNode := by
  rw [setPointers, Field.get_set_self]
  exact Nat.mod_eq_of_lt hn

theorem prev_setPointers {n next prev : ℕ} (hprev : prev < 2 ^ 64) :
    prevField.get (setPointers m n next prev) n = prev := by
  rw [setPointers, Field.get_set_of_apart (by decide), Field.get_set_self]
  exact Nat.mod_eq_of_lt hprev

theorem next_setPointers {n next prev : ℕ} (hnext : next < 2 ^ 64) :
    nextField.get (setPointers m n next prev) n = next := by
  rw [setPointers, Field.get_set_of_apart (by decide), Field.get_set_of_apart (by decide),
    Field.get_set_self]
  exact Nat.mod_eq_of_lt hnext

/-- The records that are visited are linked in this order. -/
theorem threaded_restoreLoop {old : ℕ} (hend : a + size < 2 ^ 64) (hold : old < 2 ^ 64) :
    Threaded (restoreLoop size fuel s old (a + s) m) a old (visitLoop (view m a) size fuel s) := by
  induction fuel generalizing s old m with
  | zero => trivial
  | succ fuel ih =>
    by_cases hs : s < size ∧ sizeofSpaceNode < size - s
    · generalize ht : s + (sizeofSpaceNode + sizeField.get (view m a) s) = t
      have hst : s + sizeofSpaceNode ≤ t := by omega
      have hrest := ih (s := t) (m := setPointers m (a + s) (a + t) old)
        (show a + s < 2 ^ 64 by omega)
      rw [visitLoop_setPointers hst] at hrest
      have hlt : a + s + sizeofSpaceNode < 2 ^ 64 := by omega
      rw [visitLoop, if_pos hs, ht, restoreLoop_succ hs ht.symm]
      by_cases hnil : visitLoop (view m a) size fuel t = []
      · -- the record is the last one
        have hloop := restoreLoop_of_nil (m := setPointers m (a + s) (a + t) old)
          (o := a + s) ((visitLoop_setPointers hst).trans hnil)
        rw [hloop] at hrest ⊢
        refine ⟨?_, ?_, ?_, hrest⟩
        · rw [Field.get_set_of_apart (by decide), start_setPointers hlt]
        · rw [Field.get_set_of_apart (by decide), prev_setPointers hold]
        · rw [next_set (by norm_num), hnil]
          rfl
      · have hrecord := restoreLoop_record (m := setPointers m (a + s) (a + t) old) (o := a + s)
          (by rwa [visitLoop_setPointers hst]) hst
        have htlt : a + t < 2 ^ 64 := by
          have := lt_of_visitLoop_ne_nil hnil
          omega
        refine ⟨?_, ?_, ?_, hrest⟩
        · rw [startField.get_congr hrecord (by decide), start_setPointers hlt]
        · rw [prevField.get_congr hrecord (by decide), prev_setPointers hold]
        · rw [nextField.get_congr hrecord (by decide), next_setPointers htlt,
            headAddress_visitLoop hnil]
    · rw [visitLoop, if_neg hs]
      trivial

/-- **Restoring pointers.** The records found by their sizes are linked in this order. -/
theorem threaded_restoreRecords (hend : a + size < 2 ^ 64) :
    Threaded (restoreRecords m a size) a 0 (visited (view m a) size) :=
  threaded_restoreLoop (s := 0) hend (by norm_num)

/-- The other fields of the records stay. -/
theorem get_restoreRecords {f : Field} (hsize : sizeofSpaceNode < size)
    (hf : ∀ i < sizeofSpaceNode, f.off ≤ i → i < f.off + f.len → ¬ IsPointerByte i)
    (hin : f.off + f.len ≤ sizeofSpaceNode) {o : ℕ} (ho : o ∈ visited (view m a) size) :
    f.get (restoreRecords m a size) (a + o) = f.get m (a + o) := by
  refine load_congr fun x hx => ?_
  obtain ⟨i, rfl⟩ := Nat.exists_eq_add_of_le (show a + o ≤ x from (Nat.le_add_right _ _).trans hx.1)
  have hlo := hx.1
  have hhi := hx.2
  rw [Nat.add_assoc]
  refine restoreRecords_page hsize ?_
  rintro ⟨p, hp, hle, hbyte⟩
  by_cases hop : o = p
  · subst hop
    rw [Nat.add_sub_cancel_left] at hbyte
    exact hf i (by omega) (by omega) (by omega) hbyte
  · -- the pointers of `p` end before the record at `o`
    have hapart := (visitLoop_apart ho hp).resolve_left hop
    rw [IsPointerByte] at hbyte
    rw [sizeofSpaceNode] at hapart hin
    omega

theorem Threaded.congr {m' : Memory} {p : ℕ} {os : List ℕ} (h : Threaded m a p os)
    (heq : ∀ o ∈ os, Set.EqOn m' m (Set.Ico (a + o) (a + o + sizeofSpaceNode))) :
    Threaded m' a p os := by
  induction os generalizing p with
  | nil => trivial
  | cons o os ih =>
    have ho := heq o List.mem_cons_self
    obtain ⟨hstart, hprev, hnext, h⟩ := h
    refine ⟨?_, ?_, ?_, ih h fun o' ho' => heq o' (List.mem_cons_of_mem _ ho')⟩
    · rw [startField.get_congr ho (by decide), hstart]
    · rw [prevField.get_congr ho (by decide), hprev]
    · rw [nextField.get_congr ho (by decide), hnext]

/-- The first record is at the start of the page. -/
theorem headAddress_visited (hsize : sizeofSpaceNode < size) (b : ℕ) :
    headAddress b (visited page size) = b := by
  refine headAddress_visitLoop (s := 0) fun hnil => ?_
  obtain ⟨n, rfl⟩ := Nat.exists_eq_succ_of_ne_zero (Nat.ne_zero_of_lt hsize)
  rw [visitLoop, if_pos ⟨n.succ_pos, hsize⟩] at hnil
  cases hnil

/-- The page of `size` bytes at `a` has been copied to `a'`, and its pointers restored there. -/
def Restored (m : Memory) (a : ℕ) (m' : Memory) (a' size : ℕ) : Prop :=
  ∃ x : Memory, Set.EqOn (view x a') (view m a) (Set.Ico 0 size) ∧
    Set.EqOn m' (restoreRecords x a' size) (Set.Ico a' (a' + size))

section Restored

variable {m' : Memory} {a' : ℕ}

/-- The records that were found by their sizes are linked in the new page. -/
theorem Restored.threaded (h : Restored m a m' a' size) (hend : a' + size < 2 ^ 64) :
    Threaded m' a' 0 (visited (view m a) size) := by
  obtain ⟨x, hcopy, hrestore⟩ := h
  have hvisited : visited (view x a') size = visited (view m a) size := by
    rw [visited, visitLoop_congr hcopy, visited]
  refine Threaded.congr ?_ fun o ho => hrestore.mono (Set.Ico_subset_Ico (by omega) ?_)
  · rw [← hvisited]
    exact threaded_restoreRecords hend
  · have := lt_of_mem_visitLoop ho
    omega

/-- The other fields of these records arrive. -/
theorem Restored.get {f : Field} (h : Restored m a m' a' size) (hsize : sizeofSpaceNode < size)
    (hf : ∀ i < sizeofSpaceNode, f.off ≤ i → i < f.off + f.len → ¬ IsPointerByte i)
    (hin : f.off + f.len ≤ sizeofSpaceNode) {o : ℕ} (ho : o ∈ visited (view m a) size) :
    f.get m' (a' + o) = f.get m (a + o) := by
  obtain ⟨x, hcopy, hrestore⟩ := h
  have hvisited : visited (view x a') size = visited (view m a) size := by
    rw [visited, visitLoop_congr hcopy, visited]
  have hlt := lt_of_mem_visitLoop ho
  have hrecord : Set.EqOn m' (restoreRecords x a' size)
      (Set.Ico (a' + o) (a' + o + sizeofSpaceNode)) :=
    hrestore.mono (Set.Ico_subset_Ico (by omega) (by omega))
  have hcopied : Set.EqOn (view x a') (view m a) (Set.Ico o (o + sizeofSpaceNode)) :=
    hcopy.mono (Set.Ico_subset_Ico (Nat.zero_le _) (by omega))
  calc f.get m' (a' + o)
      = f.get (restoreRecords x a' size) (a' + o) := f.get_congr hrecord hin
    _ = f.get x (a' + o) := get_restoreRecords hsize hf hin (hvisited ▸ ho)
    _ = f.get (view x a') o := (Field.get_view ..).symm
    _ = f.get (view m a) o := f.get_congr hcopied hin
    _ = f.get m (a + o) := Field.get_view ..

/-- The list of a page that is moved is found again if and only if it was the one found by the
sizes. -/
theorem Restored.listMoved_iff (h : Restored m a m' a' size) (hsize : sizeofSpaceNode < size)
    (ha : a ≠ 0) (ha' : a' ≠ 0) (hend : a' + size < 2 ^ 64) :
    ListMoved m a m' a' ↔ Threaded m a 0 (visited (view m a) size) := by
  have hthreaded' := h.threaded hend
  have hfollows' := hthreaded'.follows ha'
  rw [headAddress_visited hsize] at hfollows'
  constructor
  · rintro ⟨os, hos, hos', hmoved⟩
    -- both lists are the ones that the walk by sizes finds
    have hmap := hos'.unique hfollows'
    obtain rfl := (List.map_injective_iff.mpr (add_right_injective a')) hmap
    exact hthreaded'.of_moved ha ha' (Or.inl ⟨rfl, rfl⟩) (by rwa [headAddress_visited hsize]) hmoved
  · intro hthreaded
    have hfollows := hthreaded.follows ha
    rw [headAddress_visited hsize] at hfollows
    have hpointers := hthreaded.moved ha ha' hthreaded' (Or.inl ⟨rfl, rfl⟩)
    refine ⟨_, hfollows, hfollows', fun o ho => ?_⟩
    exact ⟨h.get hsize (by decide) (by decide) ho, h.get hsize (by decide) (by decide) ho,
      (hpointers o ho).1, (hpointers o ho).2⟩

end Restored

end Restore

namespace VMState

/-! ### Exchanging two pages -/

variable {s s' : VMState} {i j : ℕ}

/-- The list of the page `j`, which comes to the frame `i`. -/
theorem Layout.listMoved_left (h : s.Layout) (hij : i ≠ j) (hs : s.swapPages i j = some s')
    (hi : s.frameAddress i + s.pageSize < 2 ^ 64) :
    ListMoved s.bytes (s.frameAddress j) s'.bytes (s.frameAddress i) ↔
      Threaded s.bytes (s.frameAddress j) 0 (visited (s.page j) s.pageSize) := by
  have hrestored : Restored s.bytes (s.frameAddress j) s'.bytes (s.frameAddress i) s.pageSize :=
    h.restores_left hij hs
  exact hrestored.listMoved_iff h.large (s.frameAddress_ne_zero j) (s.frameAddress_ne_zero i) hi

/-- The list of the page `i`, which comes to the frame `j`. -/
theorem Layout.listMoved_right (h : s.Layout) (hij : i ≠ j) (hs : s.swapPages i j = some s')
    (hj : s.frameAddress j + s.pageSize < 2 ^ 64) :
    ListMoved s.bytes (s.frameAddress i) s'.bytes (s.frameAddress j) ↔
      Threaded s.bytes (s.frameAddress i) 0 (visited (s.page i) s.pageSize) := by
  have hrestored : Restored s.bytes (s.frameAddress i) s'.bytes (s.frameAddress j) s.pageSize :=
    h.restores_right hij hs
  exact hrestored.listMoved_iff h.large (s.frameAddress_ne_zero i) (s.frameAddress_ne_zero j) hj

/-- **Moving a page.** The lists of both pages are found in the other frame, with the pointers
shifted, if and only if in both pages the list is the one that is found by the sizes of the blocks.
-/
theorem lists_moved_iff (h : s.Layout) (hij : i ≠ j) (hs : s.swapPages i j = some s')
    (hi : s.frameAddress i + s.pageSize < 2 ^ 64) (hj : s.frameAddress j + s.pageSize < 2 ^ 64) :
    ListMoved s.bytes (s.frameAddress j) s'.bytes (s.frameAddress i) ∧
        ListMoved s.bytes (s.frameAddress i) s'.bytes (s.frameAddress j) ↔
      Threaded s.bytes (s.frameAddress j) 0 (visited (s.page j) s.pageSize) ∧
        Threaded s.bytes (s.frameAddress i) 0 (visited (s.page i) s.pageSize) := by
  rw [h.listMoved_left hij hs hi, h.listMoved_right hij hs hj]

/-- Two frames at the start of the page area, with the bytes `m`. -/
def twoFrames (m : Memory) : VMState where
  base := 4096
  pageSize := 4096
  frames := [freeNode 4096 memoryStart 0 1, freeNode 4096 (memoryStart + 4096) 0 1]
  bytes := m
  swap := []
  slots := fun _ _ => 0

theorem layout_twoFrames (m : Memory) : (twoFrames m).Layout where
  contiguous i n hn := by
    match i, hn with
    | 0, rfl => rfl
    | 1, rfl => rfl
  sizes := by
    intro n hn
    rcases List.mem_pair.mp hn with rfl | rfl <;> rfl
  large := by
    show 56 < 4096
    decide

theorem frameAddress_twoFrames (m : Memory) (f : ℕ) :
    (twoFrames m).frameAddress f = 2101248 + f * 4096 := by
  have hstart : 4096 + memoryStart = 2101248 := by decide
  rw [frameAddress, twoFrames, hstart]

theorem swapPages_twoFrames (m : Memory) : ∃ s', (twoFrames m).swapPages 0 1 = some s' := ⟨_, rfl⟩

/-- Both frames are initialised, and the events happen in the page in the first one. -/
def firstFrameRun (es : List RegionEvent) : Option Region :=
  run (regionStep 2101248 4096)
    ⟨initializeSpace (initializeSpace (fun _ => 0) 2105344 4096 fun _ => 0) 2101248 4096 fun _ => 0,
      []⟩ es

/-- The theorem after two allocations and a free. -/
theorem lists_moved_two_blocks :
    ∃ r s', firstFrameRun [.alloc 100 fun _ => 0, .alloc 200 fun _ => 0, .free 2101304] = some r ∧
      (twoFrames r.mem).swapPages 0 1 = some s' ∧
      ListMoved r.mem 2105344 s'.bytes 2101248 ∧ ListMoved r.mem 2101248 s'.bytes 2105344 := by
  have hend : (firstFrameRun [.alloc 100 fun _ => 0, .alloc 200 fun _ => 0, .free 2101304]).map
      (fun r => decide (Threaded r.mem 2105344 0 (visited (view r.mem 2105344) 4096) ∧
        Threaded r.mem 2101248 0 (visited (view r.mem 2101248) 4096))) = some true := by
    decide +kernel
  obtain ⟨r, hr, hthreaded⟩ := Option.map_eq_some_iff.mp hend
  obtain ⟨s', hs⟩ := swapPages_twoFrames r.mem
  have haddr := frameAddress_twoFrames r.mem
  have hsize : (twoFrames r.mem).pageSize = 4096 := rfl
  have hiff := lists_moved_iff (layout_twoFrames r.mem) Nat.zero_ne_one hs
    (by rw [haddr, hsize]; norm_num) (by rw [haddr, hsize]; norm_num)
  rw [page, page, haddr, haddr, hsize] at hiff
  exact ⟨r, s', hr, hs, hiff.mpr (of_decide_eq_true hthreaded)⟩

/-- A freed block of 100 bytes is used for 60, and the other 40 are dropped: after the exchange its
`next` is not the block behind it. -/
theorem dropped_rest_breaks_list :
    ∃ r s', firstFrameRun [.alloc 100 fun _ => 0, .alloc 200 fun _ => 0, .free 2101304,
        .alloc 60 fun _ => 0] = some r ∧
      (twoFrames r.mem).swapPages 0 1 = some s' ∧ ¬ ListMoved r.mem 2101248 s'.bytes 2105344 := by
  have hend : (firstFrameRun [.alloc 100 fun _ => 0, .alloc 200 fun _ => 0, .free 2101304,
      .alloc 60 fun _ => 0]).map
      (fun r => decide (Threaded r.mem 2101248 0 (visited (view r.mem 2101248) 4096))) =
        some false := by
    decide +kernel
  obtain ⟨r, hr, hthreaded⟩ := Option.map_eq_some_iff.mp hend
  obtain ⟨s', hs⟩ := swapPages_twoFrames r.mem
  have haddr := frameAddress_twoFrames r.mem
  have hsize : (twoFrames r.mem).pageSize = 4096 := rfl
  have hiff := (layout_twoFrames r.mem).listMoved_right Nat.zero_ne_one hs
    (by rw [haddr, hsize]; norm_num)
  rw [page, haddr, haddr, hsize] at hiff
  exact ⟨r, s', hr, hs, fun hmoved => of_decide_eq_false hthreaded (hiff.mp hmoved)⟩

end VMState

end OSDesign.VM
