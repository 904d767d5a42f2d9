import Mathlib.Tactic
import Mathlib.Order.CompletePartialOrder
import Mathlib.Order.Interval.Set.Basic
import OSDesign.VM.Isolation

/-!
# The layout of the memory

`init` divides the memory: bookkeeping nodes from `mem` on, OS memory from `OSRESERVED_START` on,
the frames of the threads from `MEMORY_START` on, and four shared pages at the end. The swap array
has its own nodes and slots. The frames are entered in a loop that goes on while the frames entered
so far take less than the room in front of the shared pages. So the last frame reaches into the
shared pages unless the page size divides the room, or the nodes fill the bookkeeping area before,
which is the case for pages of at most 330 bytes. The loop over the swap slots leaves out one page
at the end and stays in its array.

## Main definitions

* `osSpace`: the record of the OS memory.
* `LayoutDisjoint`.

## Main results

* `layout_disjoint_iff`.
-/

namespace OSDesign.VM

/-- The record that `init` writes at `OSRESERVED_START`. -/
def osSpace (reference : ℕ) : SpaceNode where
  pid := 0
  reference := reference
  free := true
  order := 1
  start := osReservedStart + sizeofSpaceNode
  size := memoryStart - osReservedStart - sizeofSpaceNode
  next := none
  prev := none
  dataStartsAnotherPage := false
  swapclock := 0

/-- The regions that `init` lays out for pages of `pageSize` bytes lie where they are meant to. The
node of the frame `i` is at `sizeofSpaceNode * i`. -/
structure LayoutDisjoint (pageSize reference : ℕ) : Prop where
  frame : ∀ n ∈ initFrames pageSize reference,
    memoryStart ≤ n.start ∧ n.start + pageSize ≤ sharedMemoryStart pageSize
  disjoint : (initFrames pageSize reference).Pairwise fun n m =>
    Disjoint (Set.Ico n.start (n.start + pageSize)) (Set.Ico m.start (m.start + pageSize))
  node : ∀ i < (initFrames pageSize reference).length,
    sizeofSpaceNode * i + sizeofSpaceNode ≤ osReservedStart
  os : osReservedStart + sizeofSpaceNode ≤ (osSpace reference).start ∧
    (osSpace reference).start + (osSpace reference).size ≤ memoryStart
  slot : ∀ n ∈ initSwap pageSize reference,
    swapMemoryStart ≤ n.start ∧ n.start + pageSize ≤ swapSize

section Count

variable {pageSize nodeLimit maxSize : ℕ} {node : ℕ → SpaceNode}

/-- How far a loop of `init` goes. -/
theorem lt_length_initNodes_iff {fuel i j : ℕ} :
    j < (initNodes pageSize nodeLimit maxSize node fuel i).length ↔
      j < fuel ∧ sizeofSpaceNode * (i + j) < nodeLimit ∧ (i + j) * pageSize < maxSize := by
  induction fuel generalizing i j with
  | zero => simp [initNodes]
  | succ fuel ih =>
    rw [initNodes]
    by_cases hmore : sizeofSpaceNode * i < nodeLimit ∧ i * pageSize < maxSize
    · rw [if_pos hmore, List.length_cons]
      cases j with
      | zero => simpa using hmore
      | succ j =>
        rw [Nat.succ_lt_succ_iff, ih, Nat.succ_lt_succ_iff, Nat.add_right_comm, Nat.add_assoc]
    · rw [if_neg hmore]
      refine iff_of_false (Nat.not_lt_zero j) ?_
      rintro ⟨-, hnode, hpage⟩
      refine hmore ⟨?_, ?_⟩
      · exact (Nat.mul_le_mul_left _ (Nat.le_add_right i j)).trans_lt hnode
      · exact (Nat.mul_le_mul_right _ (Nat.le_add_right i j)).trans_lt hpage

variable {reference : ℕ}

theorem lt_length_initFrames_iff {j : ℕ} : j < (initFrames pageSize reference).length ↔
    j < 17857 ∧ j * pageSize < physicalSize - 4 * pageSize - memoryStart := by
  rw [initFrames, lt_length_initNodes_iff, Nat.zero_add, sizeofSpaceNode, osReservedStart]
  omega

theorem lt_length_initSwap_iff {j : ℕ} : j < (initSwap pageSize reference).length ↔
    j < 17857 ∧ j * pageSize < swapSize - (swapMemoryStart + pageSize) := by
  rw [initSwap, lt_length_initNodes_iff, Nat.zero_add, sizeofSpaceNode, swapMemoryStart]
  omega

theorem start_initSwap {j : ℕ} {n : SpaceNode} (h : (initSwap pageSize reference)[j]? = some n) :
    n.start = swapMemoryStart + j * pageSize := by
  rw [initSwap] at h
  rw [getElem?_initNodes h, Nat.zero_add]
  rfl

/-- What is true of all frames of `init`, in terms of their positions. -/
theorem forall_mem_initFrames {P : ℕ → Prop} : (∀ n ∈ initFrames pageSize reference, P n.start) ↔
    ∀ j < (initFrames pageSize reference).length, P (memoryStart + j * pageSize) := by
  rw [List.forall_mem_iff_getElem]
  refine forall₂_congr fun j hj => ?_
  rw [contiguous_initFrames pageSize reference j _ (List.getElem?_eq_getElem hj)]

end Count

/-- Steps of one length, taken while the end is not reached, end inside the room if and only if the
length divides the room or the number of the steps is what stops them. -/
theorem steps_fit_iff (length room count : ℕ) :
    (∀ j < count, j * length < room → (j + 1) * length ≤ room) ↔
      length ∣ room ∨ count * length ≤ room := by
  constructor
  · intro hfit
    by_contra hnot
    obtain ⟨hdvd, hcount⟩ := not_or.mp hnot
    rw [not_le] at hcount
    have hpos : 0 < length := Nat.pos_of_ne_zero fun h0 => by simp [h0] at hcount
    -- the step that passes the end
    have hlt : room / length < count := Nat.div_lt_of_lt_mul (by rwa [Nat.mul_comm])
    have hle := hfit (room / length) hlt
      (lt_of_le_of_ne (Nat.div_mul_le_self ..) fun heq => hdvd (Dvd.intro_left _ heq))
    have hpass := Nat.lt_mul_div_succ room hpos
    rw [Nat.mul_comm] at hpass
    exact absurd hle (not_le.mpr hpass)
  · rintro (⟨c, rfl⟩ | hcount) j hj hlt
    · rw [Nat.mul_comm length c] at hlt ⊢
      exact Nat.mul_le_mul_right _ (Nat.lt_of_mul_lt_mul_right hlt)
    · exact (Nat.mul_le_mul_right _ hj).trans hcount

section Layout

variable (pageSize reference : ℕ)

theorem pairwise_disjoint_initFrames : (initFrames pageSize reference).Pairwise fun n m =>
    Disjoint (Set.Ico n.start (n.start + pageSize)) (Set.Ico m.start (m.start + pageSize)) := by
  rw [List.pairwise_iff_getElem]
  intro i j hi hj hij
  have hstart := contiguous_initFrames pageSize reference
  rw [hstart i _ (List.getElem?_eq_getElem hi), hstart j _ (List.getElem?_eq_getElem hj)]
  rw [Set.disjoint_left]
  intro x hx hx'
  have hle : (i + 1) * pageSize ≤ j * pageSize := Nat.mul_le_mul_right _ hij
  rw [Nat.add_mul, Nat.one_mul] at hle
  have := hx.2
  have := hx'.1
  omega

theorem initSwap_inside (h : 4 * pageSize < physicalSize - memoryStart) :
    ∀ n ∈ initSwap pageSize reference,
      swapMemoryStart ≤ n.start ∧ n.start + pageSize ≤ swapSize := by
  intro n hn
  obtain ⟨j, hj⟩ := List.mem_iff_getElem?.mp hn
  obtain ⟨hlt, -⟩ := List.getElem?_eq_some_iff.mp hj
  have hmax := (lt_length_initSwap_iff.mp hlt).2
  rw [start_initSwap hj]
  rw [swapSize, swapMemoryStart] at *
  rw [physicalSize, memoryStart] at h
  omega

/-- The frames end in front of the shared pages if and only if the page size divides the room or the
bookkeeping area is full before. -/
theorem initFrames_inside_iff (h : 4 * pageSize < physicalSize - memoryStart) :
    (∀ n ∈ initFrames pageSize reference,
        memoryStart ≤ n.start ∧ n.start + pageSize ≤ sharedMemoryStart pageSize) ↔
      pageSize ∣ physicalSize - memoryStart ∨ 17861 * pageSize ≤ physicalSize - memoryStart := by
  rw [forall_mem_initFrames (P := fun start =>
    memoryStart ≤ start ∧ start + pageSize ≤ sharedMemoryStart pageSize)]
  have hroom := steps_fit_iff pageSize (physicalSize - 4 * pageSize - memoryStart) 17857
  have hdvd : pageSize ∣ physicalSize - 4 * pageSize - memoryStart ↔
      pageSize ∣ physicalSize - memoryStart := by
    rw [Nat.sub_right_comm]
    exact Nat.dvd_sub_iff_left h.le (Dvd.intro_left 4 rfl)
  rw [hdvd] at hroom
  simp only [lt_length_initFrames_iff, sharedMemoryStart, physicalSize, memoryStart] at h hroom ⊢
  constructor
  · intro hframe
    refine (hroom.mp fun j hj hlt => ?_).imp_right fun hle => by omega
    have hend := (hframe j ⟨hj, hlt⟩).2
    rw [Nat.add_mul, Nat.one_mul]
    omega
  · intro hsize j hj
    have hfit := hroom.mpr (hsize.imp_right fun hle => by omega) j hj.1 hj.2
    rw [Nat.add_mul, Nat.one_mul] at hfit
    omega

end Layout

/-- For every page size that leaves room for frames, the regions of `init` are where they are meant
to be if and only if the page size divides the room for frames and shared pages, or the bookkeeping
area is full before the frames reach the shared pages. -/
theorem layout_disjoint_iff (pageSize reference : ℕ)
    (h : 4 * pageSize < physicalSize - memoryStart) :
    LayoutDisjoint pageSize reference ↔
      pageSize ∣ physicalSize - memoryStart ∨ 17861 * pageSize ≤ physicalSize - memoryStart := by
  rw [← initFrames_inside_iff pageSize reference h]
  refine ⟨fun hl => hl.frame,
    fun hframe => ⟨hframe, pairwise_disjoint_initFrames pageSize reference,
    fun i hi => ?_, ⟨le_rfl, (by decide : osReservedStart + sizeofSpaceNode +
      (memoryStart - osReservedStart - sizeofSpaceNode) ≤ memoryStart)⟩,
    initSwap_inside pageSize reference h⟩⟩
  have hlt := (lt_length_initFrames_iff.mp hi).1
  rw [sizeofSpaceNode, osReservedStart]
  omega

/-- Pages of 512 bytes. -/
theorem layout_disjoint_small_pages : LayoutDisjoint 512 0 :=
  (layout_disjoint_iff 512 0 (by decide)).mpr (Or.inl (by decide))

/-- With pages of 4096 bytes the last frame ends behind the start of the shared pages. -/
theorem layout_overlap :
    4 * 4096 < physicalSize - memoryStart ∧ ¬ LayoutDisjoint 4096 0 ∧
      ∃ n ∈ initFrames 4096 0, sharedMemoryStart 4096 < n.start + 4096 := by
  have hlt : 1437 < (initFrames 4096 0).length := lt_length_initFrames_iff.mpr (by decide)
  have hlast : ∃ n ∈ initFrames 4096 0, sharedMemoryStart 4096 < n.start + 4096 := by
    refine ⟨_, List.getElem_mem hlt, ?_⟩
    rw [contiguous_initFrames 4096 0 1437 _ (List.getElem?_eq_getElem hlt)]
    decide
  refine ⟨by decide, fun hl => ?_, hlast⟩
  obtain ⟨n, hn, hend⟩ := hlast
  exact absurd (hl.frame n hn).2 (not_le.mpr hend)

end OSDesign.VM
