import Mathlib.Tactic
import OSDesign.VM.BlockList
import OSDesign.VM.Carried
import OSDesign.VM.Loading

/-!
# Reserving a page

`getFreePage` takes the first free frame, makes it one free block and exchanges it with the first
frame. When no frame is free, the page of a victim is moved to the first free slot of the swap file
and the search is repeated, which then finds the frame of the victim.

The choice of the victim is a parameter: all that is used is that it returns a frame or `NULL` and
changes no more than clocks.

## Main definitions

* `SpaceNode.tag`, `occupied`: the occupied descriptors, as the pages that they describe.

## Main results

* `VMState.getFreePage_reserves`: the ways in which `getFreePage` ends, and what each of them does
  to the frames and to the swap file.
-/

namespace OSDesign.VM

open ByteMemory ListUpdate

/-- What an occupied descriptor says about its page: the process, the order, and whether the data
starts on another page. -/
def SpaceNode.tag (n : SpaceNode) : Option (ℕ × ℤ × Bool) :=
  if n.free then none else some (n.pid, n.order, n.dataStartsAnotherPage)

/-- The pages that the table describes. -/
def occupied (t : PageTable) : List (ℕ × ℤ × Bool) := t.filterMap SpaceNode.tag

section Occupied

variable {t t' : PageTable} {i : ℕ} {n : SpaceNode}

theorem SpaceNode.tag_of_free (h : n.free = true) : n.tag = none := if_pos h

theorem SpaceNode.tag_of_used (h : n.free = false) :
    n.tag = some (n.pid, n.order, n.dataStartsAnotherPage) :=
  if_neg (by rw [h]; exact Bool.false_ne_true)

/-- `SpaceNode.tag` as a function of `SpaceNode.info`. -/
theorem occupied_perm_of_info (h : (t'.map SpaceNode.info).Perm (t.map SpaceNode.info)) :
    (occupied t').Perm (occupied t) := by
  have hmap (l : PageTable) : occupied l = (l.map SpaceNode.info).filterMap fun x =>
      if x.2.2.1 then none else some (x.1, x.2.1, x.2.2.2.2.2) := by
    rw [List.filterMap_map]
    rfl
  rw [hmap, hmap]
  exact h.filterMap _

theorem occupied_clocksOnly (h : ClocksOnly t t') : occupied t' = occupied t := by
  have hmap (l : PageTable) : occupied l = (l.map SpaceNode.tag).filterMap id := by
    rw [List.filterMap_map]
    rfl
  rw [hmap, hmap, h.map_eq fun _ => rfl]

/-- One descriptor is changed. -/
theorem occupied_modify_perm (h : t[i]? = some n) (f : SpaceNode → SpaceNode) :
    (n.tag.toList ++ occupied (t.modify i f)).Perm ((f n).tag.toList ++ occupied t) := by
  have hcons (a : SpaceNode) (l : PageTable) : a.tag.toList ++ occupied l = occupied (a :: l) := by
    rw [occupied, occupied, List.filterMap_cons]
    cases a.tag <;> rfl
  rw [hcons, hcons]
  exact (cons_modify_perm h f).filterMap _

theorem occupied_take_perm (h : t[i]? = some n) (hfree : n.free = true) (pid : ℕ) :
    (occupied (t.modify i (SpaceNode.take pid))).Perm
      ((pid, n.order, n.dataStartsAnotherPage) :: occupied t) := by
  have hp := occupied_modify_perm h (SpaceNode.take pid)
  rwa [SpaceNode.tag_of_free hfree, SpaceNode.tag_of_used (n := n.take pid) rfl] at hp

/-- The page of the victim goes from the page table to the swap file. -/
theorem occupied_evict_perm {swap : PageTable} {k : ℕ} {slot : SpaceNode} (h : t[i]? = some n)
    (hused : n.free = false) (hk : swap[k]? = some slot) (hfree : slot.free = true) :
    (occupied (t.modify i SpaceNode.release) ++
        occupied (swap.modify k fun slot => slot.store n)).Perm (occupied t ++ occupied swap) := by
  have hframe := occupied_modify_perm h SpaceNode.release
  have hslot := occupied_modify_perm hk fun slot => slot.store n
  rw [SpaceNode.tag_of_used hused, SpaceNode.tag_of_free (n := n.release) rfl] at hframe
  rw [SpaceNode.tag_of_free hfree, SpaceNode.tag_of_used (n := slot.store n) rfl] at hslot
  exact (hslot.append_left _).trans (List.perm_middle.trans (hframe.append_right _))

end Occupied

/-! ### The block list of the new page -/

section NewPage

variable {m : Memory} {a size : ℕ}

/-- The list that `initializeSpace` writes. -/
theorem seg_initializeSpace (m : Memory) (junk : ℕ → UInt8) (ha : a ≠ 0)
    (hend : a + sizeofSpaceNode < 2 ^ 64) (hsize : size - sizeofSpaceNode < 2 ^ 32) :
    Seg (initializeSpace m a size junk) a [⟨a, size - sizeofSpaceNode, true⟩] 0 := by
  refine ⟨rfl, ha, ⟨start_putFree hend, ?_, ?_⟩, next_putFree (by norm_num)⟩
  · rw [initializeSpace, size_putFree, Nat.mod_eq_of_lt hsize]
  · rw [initializeSpace, free_putFree]
    exact ⟨fun _ => rfl, fun _ => one_ne_zero⟩

/-- When the first block fills the page, `restorePointers` visits no other one. -/
theorem restoreRecords_single (hlarge : sizeofSpaceNode < size)
    (hsize : size ≤ sizeofSpaceNode + sizeField.get m a) :
    restoreRecords m a size =
      nextField.set (startField.set (prevField.set (nextField.set m a
        (a + (sizeofSpaceNode + sizeField.get m a))) a 0) a (a + sizeofSpaceNode)) a 0 := by
  obtain ⟨fuel, rfl⟩ : ∃ fuel, size = fuel + 2 :=
    ⟨size - 2, by have : sizeofSpaceNode = 56 := rfl; omega⟩
  rw [restoreRecords, restoreLoop, if_pos ⟨by omega, by omega⟩]
  dsimp only
  rw [restoreLoop, if_neg (by omega)]

/-- The list of a page with one free block, after its pointers are rewritten. -/
theorem seg_restoreRecords (ha : a ≠ 0) (hend : a + sizeofSpaceNode < 2 ^ 64)
    (hlarge : sizeofSpaceNode < size) (hsize : size ≤ sizeofSpaceNode + sizeField.get m a)
    (hfree : freeField.get m a ≠ 0) :
    Seg (restoreRecords m a size) a [⟨a, sizeField.get m a, true⟩] 0 := by
  rw [restoreRecords_single hlarge hsize]
  refine ⟨rfl, ha, ⟨?_, ?_, ?_⟩, ?_⟩
  · rw [Field.get_set_of_apart (by decide), Field.get_set_self]
    exact Nat.mod_eq_of_lt hend
  · simp (disch := decide) only [Field.get_set_of_apart]
  · simp (disch := decide) only [Field.get_set_of_apart]
    exact ⟨fun _ => trivial, fun _ => hfree⟩
  · exact next_set (by norm_num)

/-- A page with one free block that fills it is copied to `a'`, and its pointers are restored. -/
theorem seg_restored {m' x : Memory} {a' z : ℕ} (ha' : a' ≠ 0)
    (hend : a' + sizeofSpaceNode < 2 ^ 64)
    (hlarge : sizeofSpaceNode < size) (hz : size ≤ sizeofSpaceNode + z)
    (hcopy : Set.EqOn (view x a') (view m a) (Set.Ico 0 size))
    (hrestore : Set.EqOn m' (restoreRecords x a' size) (Set.Ico a' (a' + size)))
    (h : Seg m a [⟨a, z, true⟩] 0) : Seg m' a' [⟨a', z, true⟩] 0 := by
  obtain ⟨-, -, hden, -⟩ := h
  have hfield (g : Field) (hg : g.off + g.len ≤ sizeofSpaceNode) : g.get x a' = g.get m a := by
    have hview :=
      g.get_congr (hcopy.mono (Set.Ico_subset_Ico le_rfl (Nat.zero_add _ ▸ hlarge.le))) hg
    rwa [g.get_view, g.get_view, Nat.add_zero, Nat.add_zero] at hview
  have hsize : sizeField.get x a' = z := (hfield sizeField (by decide)).trans hden.size
  have hfree : freeField.get x a' ≠ 0 := by
    rw [hfield freeField (by decide)]
    exact hden.free.mpr rfl
  have hseg := seg_restoreRecords ha' hend hlarge (by rwa [hsize]) hfree
  rw [hsize] at hseg
  refine hseg.congr fun b hb => ?_
  obtain rfl := List.mem_singleton.mp hb
  exact hrestore.mono (Set.Ico_subset_Ico le_rfl (Nat.add_le_add_left hlarge.le a'))

end NewPage

namespace VMState

variable {s s' s₁ : VMState} {pid n : ℕ} {junk : ℕ → UInt8}

/-- The memory that the frames take ends below 2^64. -/
def Addressable (s : VMState) : Prop :=
  s.base + memoryStart + s.frames.length * s.pageSize ≤ 2 ^ 64

theorem Addressable.frameAddress_lt (h : s.Addressable) {f : ℕ} (hf : f < s.frames.length) :
    s.frameAddress f + s.pageSize ≤ 2 ^ 64 := by
  rw [Addressable] at h
  have := Nat.mul_le_mul_right s.pageSize hf
  rw [Nat.succ_mul] at this
  rw [frameAddress]
  omega

/-- Frames can be exchanged. -/
theorem Layout.exists_swapPages {i j : ℕ} (h : s.Layout) (hi : i < s.frames.length)
    (hj : j < s.frames.length) : ∃ s', s.swapPages i j = some s' := by
  have hi' := List.getElem?_eq_getElem hi
  have hj' := List.getElem?_eq_getElem hj
  rw [VMState.swapPages]
  split_ifs
  · exact ⟨_, rfl⟩
  · rw [hi', hj', Option.bind_some, Option.bind_some, h.size_eq hi', h.size_eq hj',
      h.restoreElementsPointers_eq, Option.bind_some, h.restoreElementsPointers_eq]
    exact ⟨_, rfl⟩

/-- A free frame can be taken and brought to the front. -/
theorem Layout.exists_takeFrame (h : s.Layout) (pid : ℕ) (junk : ℕ → UInt8)
    (hn : n < s.frames.length) :
    ∃ s₁ s', s.takeFrame pid n junk = some s₁ ∧ s₁.swapPages 0 n = some s' := by
  have htake : ∃ s₁, s.takeFrame pid n junk = some s₁ ∧ s₁.frames.length = s.frames.length := by
    rw [VMState.takeFrame, List.getElem?_eq_getElem hn]
    exact ⟨_, rfl, List.length_modify ..⟩
  obtain ⟨s₁, htake, hlen⟩ := htake
  have hn₁ : n < s₁.frames.length := by omega
  obtain ⟨s', hswap⟩ := (h.takeFrame htake).exists_swapPages (Nat.zero_lt_of_lt hn₁) hn₁
  exact ⟨s₁, s', htake, hswap⟩

/-- The other pages are kept, and the new one is in the first frame. -/
theorem occupied_takeFrame {f : SpaceNode} (hf : s.frames[n]? = some f) (hfree : f.free = true)
    (htake : s.takeFrame pid n junk = some s₁) (hswap : s₁.swapPages 0 n = some s') :
    ∃ q t, s'.frames = q :: t ∧ q.pid = pid ∧ q.free = false ∧
      (occupied t).Perm (occupied s.frames) := by
  obtain ⟨m, rfl⟩ := takeFrame_swapPages_pages htake hswap
  obtain ⟨q, hq, hinfo⟩ : ∃ q, (takePage pid n s.pages).frames[0]? = some q ∧
      q.info = (f.take pid).info := takePage_first_info hf
  obtain ⟨t, ht⟩ : ∃ t, (takePage pid n s.pages).frames = q :: t := by
    cases h : (takePage pid n s.pages).frames with
    | nil => simp [h] at hq
    | cons a t =>
      rw [h] at hq
      exact ⟨t, by rw [Option.some.inj hq]⟩
  have hpage : q.page = (pid, f.order, false) := congrArg infoPage hinfo
  refine ⟨q, t, ht, congrArg (·.1) hpage, congrArg (·.2.2) hpage, ?_⟩
  have hp : (occupied (q :: t)).Perm (occupied (s.frames.modify n (SpaceNode.take pid))) :=
    ht ▸ occupied_perm_of_info (perm_swapPages 0 n _)
  have htag : q.tag = some (pid, f.order, f.dataStartsAnotherPage) := by
    rw [SpaceNode.tag_of_used (congrArg (·.2.2) hpage)]
    exact congrArg (fun x : ℕ × ℤ × Bool × ℕ × ℕ × Bool => some (x.1, x.2.1, x.2.2.2.2.2)) hinfo
  rw [occupied, List.filterMap_cons, htag] at hp
  exact (List.perm_cons _).mp (hp.trans (occupied_take_perm hf hfree pid))

/-- The block list of the new page. -/
theorem seg_takeFrame (hlay : s.Layout) (haddr : s.Addressable) (hsize : s.pageSize < 2 ^ 32)
    (htake : s.takeFrame pid n junk = some s₁) (hswap : s₁.swapPages 0 n = some s') :
    Seg s'.bytes (s'.frameAddress 0)
      [⟨s'.frameAddress 0, s'.pageSize - sizeofSpaceNode, true⟩] 0 := by
  have hlay₁ := hlay.takeFrame htake
  obtain ⟨f, hf, rfl⟩ := Option.map_eq_some_iff.mp htake
  have hn := (List.getElem?_eq_some_iff.mp hf).1
  have hlarge := hlay.large
  have hend (i : ℕ) (hi : i < s.frames.length) :
      s.frameAddress i + sizeofSpaceNode < 2 ^ 64 := by
    have := haddr.frameAddress_lt hi
    omega
  rw [hlay.base_add_start hf, hlay.size_eq hf] at hswap hlay₁
  have hsize' : s.pageSize - sizeofSpaceNode < 2 ^ 32 := by omega
  have hrec := seg_initializeSpace s.bytes junk (s.frameAddress_ne_zero n) (hend n hn) hsize'
  by_cases h0 : 0 = n
  · rw [VMState.swapPages, if_pos h0] at hswap
    obtain rfl := Option.some.inj hswap
    exact h0 ▸ hrec
  obtain ⟨x, hcopy, hrestore⟩ := hlay₁.restores_left h0 hswap
  have hseg := seg_restored (s.frameAddress_ne_zero 0) (hend 0 (Nat.zero_lt_of_lt hn)) hlarge
    (Nat.le_of_eq (Nat.add_sub_cancel' hlarge.le).symm) hcopy hrestore hrec
  obtain ⟨m, rfl⟩ := swapPages_eq_some hswap
  exact hseg

/-! ### Reservations -/

/-- The first frame is a new page of `pid`, and all other pages are where they were or have been
moved. -/
structure Reserved (pid : ℕ) (s s' : VMState) : Prop where
  first : ∃ q t, s'.frames = q :: t ∧ q.pid = pid ∧ q.free = false ∧
    (occupied t ++ occupied s'.swap).Perm (occupied s.frames ++ occupied s.swap)
  blocks : Seg s'.bytes (s'.frameAddress 0)
    [⟨s'.frameAddress 0, s.pageSize - sizeofSpaceNode, true⟩] 0

/-- One free slot of the swap file has been taken, and has the bytes of the frame `i`. -/
def Evicted (i : ℕ) (s s' : VMState) : Prop :=
  ∃ k slot slot', s.swap[k]? = some slot ∧ slot.free = true ∧
    s'.swap[k]? = some slot' ∧ slot'.free = false ∧
    (∀ j ≠ k, s'.swap[j]? = s.swap[j]? ∧ s'.slots j = s.slots j) ∧
    ∀ o < s.pageSize, s'.slots k o = s.page i o

/-- Nothing but clocks has changed. -/
structure Untouched (s s' : VMState) : Prop where
  frames : ClocksOnly s.frames s'.frames
  bytes : s'.bytes = s.bytes
  swap : s'.swap = s.swap
  slots : s'.slots = s.slots

section Reservations

variable {choose : PageTable → Option (Option ℕ × PageTable)} {victim : Option ℕ} {t : PageTable}

/-- With a free frame there is no eviction. -/
theorem getFreePageLoop_of_free (hlay : s.Layout) (haddr : s.Addressable)
    (hsize : s.pageSize < 2 ^ 32) (hn : findFreePage s.frames = some n)
    (choose : PageTable → Option (Option ℕ × PageTable)) (pid : ℕ) (junk : ℕ → UInt8) :
    ∃ s', (∀ fuel, s.getFreePageLoop choose pid junk (fuel + 1) = some (true, s')) ∧
      Reserved pid s s' ∧ s'.swap = s.swap ∧ s'.slots = s.slots := by
  obtain ⟨hlt, hfree, -⟩ := List.findIdx?_eq_some_iff_getElem.mp hn
  obtain ⟨s₁, s', htake, hswap⟩ := hlay.exists_takeFrame pid junk hlt
  obtain ⟨q, t, hq, hpid, hused, hperm⟩ :=
    occupied_takeFrame (List.getElem?_eq_getElem hlt) hfree htake hswap
  have hseg := seg_takeFrame hlay haddr hsize htake hswap
  obtain ⟨m, hs'⟩ := takeFrame_swapPages_pages htake hswap
  have hsame : s'.swap = s.swap ∧ s'.slots = s.slots ∧ s'.pageSize = s.pageSize := by
    rw [hs']
    exact ⟨rfl, rfl, rfl⟩
  refine ⟨s', fun fuel => ?_, ⟨⟨q, t, hq, hpid, hused, ?_⟩, hsame.2.2 ▸ hseg⟩, hsame.1, hsame.2.1⟩
  · rw [getFreePageLoop, hn]
    dsimp only
    rw [htake, Option.bind_some, hswap]
    rfl
  · rw [hsame.1]
    exact hperm.append_right _

/-- The state after the page `evict` of the frame `i` went to the slot `k`. -/
theorem Layout.evict {i k : ℕ} {evict : SpaceNode} {slots : ℕ → Memory} (hlay : s.Layout) :
    Layout { s with
      frames := s.frames.modify i SpaceNode.release
      swap := s.swap.modify k fun slot => slot.store evict
      slots := slots } := by
  have h : Layout { s with frames := s.frames.modify i SpaceNode.release, bytes := s.bytes } :=
    hlay.of_maps (map_modify_eq SpaceNode.place (f := SpaceNode.release) (fun _ => rfl) _ _)
      (map_modify_eq SpaceNode.size (f := SpaceNode.release) (fun _ => rfl) _ _)
  exact ⟨h.contiguous, h.sizes, h.large⟩

/-- An eviction makes a frame free, which the second call then takes. -/
theorem getFreePageLoop_of_evict {i k : ℕ} {evict : SpaceNode} (hlay : s.Layout)
    (haddr : s.Addressable) (hsize : s.pageSize < 2 ^ 32) (hevict : s.frames[i]? = some evict)
    (hused : evict.free = false) (hk : s.swap.findIdx? (·.free) = some k)
    (choose : PageTable → Option (Option ℕ × PageTable)) (pid : ℕ) (junk : ℕ → UInt8) :
    ∃ s₁ s', s.movePageToSwap (some i) = some (true, s₁) ∧
      (∀ fuel, s₁.getFreePageLoop choose pid junk (fuel + 1) = some (true, s')) ∧
      Reserved pid s s' ∧ Evicted i s s' := by
  obtain ⟨hlt, hfree, -⟩ := List.findIdx?_eq_some_iff_getElem.mp hk
  have hslot := List.getElem?_eq_getElem hlt
  obtain ⟨s₁, hs₁⟩ : ∃ s₁ : VMState, s₁ = { s with
      frames := s.frames.modify i SpaceNode.release
      swap := s.swap.modify k fun slot => slot.store evict
      slots := Function.update s.slots k
        (paste (s.slots k) 0 (view s.bytes (s.base + evict.start)) s.pageSize) } := ⟨_, rfl⟩
  have hmove : s.movePageToSwap (some i) = some (true, s₁) := by
    rw [movePageToSwap, hevict, Option.map_some, hk, hs₁]
  have hlay₁ : s₁.Layout := hs₁ ▸ hlay.evict
  have haddr₁ : s₁.Addressable := by
    rw [hs₁, Addressable, List.length_modify]
    exact haddr
  have hfound : findFreePage s₁.frames ≠ none := by
    rw [hs₁]
    exact findFreePage_release hevict
  obtain ⟨n, hn⟩ := Option.ne_none_iff_exists'.mp hfound
  obtain ⟨s', hloop, hres, hswap, hslots⟩ :=
    getFreePageLoop_of_free hlay₁ haddr₁ (by rw [hs₁]; exact hsize) hn choose pid junk
  have hperm : (occupied s₁.frames ++ occupied s₁.swap).Perm
      (occupied s.frames ++ occupied s.swap) := by
    rw [hs₁]
    exact occupied_evict_perm hevict hused hslot hfree
  obtain ⟨q, t, hq, hpid, hqused, hrest⟩ := hres.first
  refine ⟨s₁, s', hmove, hloop, ⟨⟨q, t, hq, hpid, hqused, hrest.trans hperm⟩, ?_⟩, ?_⟩
  · have hblocks := hres.blocks
    rwa [hs₁] at hblocks
  · refine ⟨k, s.swap[k], s.swap[k].store evict, hslot, hfree, ?_, rfl, fun j hj => ?_,
      fun o ho => ?_⟩
    · rw [hswap, hs₁, List.getElem?_modify, hslot]
      exact congrArg some (if_pos rfl)
    · rw [hswap, hslots, hs₁]
      exact ⟨List.getElem?_modify_ne _ _ (Ne.symm hj), Function.update_of_ne hj _ _⟩
    · rw [hslots, hs₁]
      dsimp only
      rw [Function.update_self, page, ← hlay.base_add_start hevict]
      exact (congrArg _ (Nat.zero_add o)).symm.trans (paste_apply _ ho)

/-- How `getFreePage` ends, for any choice of a victim that returns a frame or `NULL`. It calls
itself at most once. It fails when no frame is free and there is no victim or no free slot, and then
it has changed nothing; otherwise the first frame is a new page, and no other page is lost. -/
theorem getFreePage_reserves (hlay : s.Layout) (haddr : s.Addressable) (hsize : s.pageSize < 2 ^ 32)
    (hchoose : choose s.frames = some (victim, t)) (hclocks : ClocksOnly s.frames t)
    (hvictim : ∀ i ∈ victim, i < s.frames.length) (pid : ℕ) (junk : ℕ → UInt8) :
    ∃ ok s', (∀ fuel, 2 ≤ fuel → s.getFreePageLoop choose pid junk fuel = some (ok, s')) ∧
      (ok = false ↔ (∀ n ∈ s.frames, n.free = false) ∧
        (victim = none ∨ ∀ n ∈ s.swap, n.free = false)) ∧
      (ok = false → Untouched s s') ∧
      (ok = true → Reserved pid s s' ∧
        ((∃ n ∈ s.frames, n.free = true) → s'.swap = s.swap ∧ s'.slots = s.slots) ∧
        ((∀ n ∈ s.frames, n.free = false) → ∃ i, victim = some i ∧ Evicted i s s')) := by
  cases hn : findFreePage s.frames with
  | some n =>
    obtain ⟨s', hloop, hres, hswap, hslots⟩ :=
      getFreePageLoop_of_free hlay haddr hsize hn choose pid junk
    have hfree : ¬ ∀ n ∈ s.frames, n.free = false := fun h => by
      rw [findFreePage, List.findIdx?_eq_none_iff.mpr h] at hn
      cases hn
    refine ⟨true, s', fun fuel hfuel => ?_, ?_, fun h => absurd h Bool.false_ne_true.symm, fun _ =>
      ⟨hres, fun _ => ⟨hswap, hslots⟩, fun h => absurd h hfree⟩⟩
    · obtain ⟨fuel, rfl⟩ := Nat.exists_eq_add_of_le' (Nat.one_le_of_lt hfuel)
      exact hloop fuel
    · exact iff_of_false Bool.false_ne_true.symm fun h => hfree h.1
  | none =>
    have hused := findFreePage_eq_none hn
    have hfull : ¬ ∃ n ∈ s.frames, n.free = true := by
      rintro ⟨n, hmem, hn⟩
      exact Bool.false_ne_true ((hused n hmem).symm.trans hn)
    have hstep (fuel : ℕ) : s.getFreePageLoop choose pid junk (fuel + 1) =
        ((s.withFrames t).movePageToSwap victim).bind fun p =>
          if p.1 then getFreePageLoop choose pid junk fuel p.2 else some (false, p.2) := by
      rw [getFreePageLoop, hn]
      dsimp only
      rw [hchoose, Option.bind_some]
    have hfail (h : (s.withFrames t).movePageToSwap victim = some (false, s.withFrames t))
        (fuel : ℕ)
        (hfuel : 2 ≤ fuel) :
        s.getFreePageLoop choose pid junk fuel = some (false, s.withFrames t) := by
      obtain ⟨fuel, rfl⟩ := Nat.exists_eq_add_of_le' (Nat.one_le_of_lt hfuel)
      rw [hstep, h]
      rfl
    have huntouched : Untouched s (s.withFrames t) := ⟨hclocks, rfl, rfl, rfl⟩
    cases victim with
    | none =>
      exact ⟨false, _, hfail rfl, ⟨fun _ => ⟨hused, Or.inl rfl⟩, fun _ => rfl⟩, fun _ => huntouched,
        fun h => absurd h Bool.false_ne_true⟩
    | some i =>
      have hlen : t.length = s.frames.length := by
        have := congrArg List.length hclocks
        rwa [List.length_map, List.length_map] at this
      have hi : i < t.length := hlen ▸ hvictim i rfl
      have hevict : (s.withFrames t).frames[i]? = some t[i] := List.getElem?_eq_getElem hi
      cases hk : s.swap.findIdx? (·.free) with
      | none =>
        have hslots := List.findIdx?_eq_none_iff.mp hk
        refine ⟨false, _, hfail ?_, ⟨fun _ => ⟨hused, Or.inr hslots⟩, fun _ => rfl⟩,
          fun _ => huntouched, fun h => absurd h Bool.false_ne_true⟩
        rw [movePageToSwap, hevict, Option.map_some]
        exact congrArg some (by rw [show (s.withFrames t).swap.findIdx? (·.free) = none from hk])
      | some k =>
        have hevictUsed : t[i].free = false := by
          have hfree := hclocks.map_eq (g := SpaceNode.free) fun _ => rfl
          obtain ⟨n, hmem, hn⟩ := List.mem_map.mp
            (hfree ▸ List.mem_map_of_mem (List.getElem_mem hi) : t[i].free ∈ _)
          rw [← hn, hused n hmem]
        have haddr₀ : (s.withFrames t).Addressable := by
          rw [Addressable, withFrames, hlen]
          exact haddr
        obtain ⟨s₁, s', hmove, hloop, hres, hev⟩ := getFreePageLoop_of_evict
          (hlay.clocksOnly hclocks) haddr₀ hsize hevict hevictUsed hk choose pid junk
        have hframes : occupied (s.withFrames t).frames = occupied s.frames :=
          occupied_clocksOnly hclocks
        have hslot : ∃ n ∈ s.swap, n.free = true := by
          obtain ⟨hlt, hfree, -⟩ := List.findIdx?_eq_some_iff_getElem.mp hk
          exact ⟨s.swap[k], List.getElem_mem hlt, hfree⟩
        refine ⟨true, s', fun fuel hfuel => ?_, iff_of_false Bool.false_ne_true.symm fun h => ?_,
          fun h => absurd h Bool.false_ne_true.symm, fun _ =>
            ⟨⟨?_, hres.blocks⟩, fun h => absurd h hfull, fun _ => ⟨i, rfl, hev⟩⟩⟩
        · obtain ⟨fuel, rfl⟩ := Nat.exists_eq_add_of_le' hfuel
          rw [hstep, hmove]
          exact hloop fuel
        · obtain ⟨n, hmem, hn⟩ := hslot
          rw [(h.2.resolve_left (Option.some_ne_none i)) n hmem] at hn
          cases hn
        · obtain ⟨q, t', hq, hpid, hqused, hrest⟩ := hres.first
          exact ⟨q, t', hq, hpid, hqused, hframes ▸ hrest⟩

/-- A memory and a swap file of zero bytes with the given pages. -/
def smallState (pages slots : List (ℕ × ℤ)) : VMState where
  base := 0
  pageSize := 4096
  frames := smallTable pages
  bytes := fun _ => 0
  swap := smallTable slots
  slots := fun _ _ => 0

theorem layout_smallState (pages slots : List (ℕ × ℤ)) : (smallState pages slots).Layout where
  contiguous := contiguous_smallTable pages
  sizes := by
    intro n hn
    obtain ⟨i, hi⟩ := List.mem_iff_getElem?.mp hn
    rw [smallState, smallTable, List.getElem?_mapIdx] at hi
    obtain ⟨x, -, rfl⟩ := Option.map_eq_some_iff.mp hi
    rfl
  large := (by decide : sizeofSpaceNode < 4096)

/-- The victim is the frame `i`. -/
def chooseFrame (i : ℕ) (t : PageTable) : Option (Option ℕ × PageTable) := some (some i, t)

/-- The memory is full, and the page of process 3 is evicted. -/
theorem getFreePage_reserves_full :
    ∃ s', (smallState [(2, 1), (3, 1)] [(2, 2), (0, 0)]).getFreePageLoop (chooseFrame 1) 1
        (fun _ => 0) 2 = some (true, s') ∧
      Evicted 1 (smallState [(2, 1), (3, 1)] [(2, 2), (0, 0)]) s' := by
  have hused : ∀ n ∈ (smallState [(2, 1), (3, 1)] [(2, 2), (0, 0)]).frames, n.free = false := by
    decide
  have hslot : ¬ ∀ n ∈ (smallState [(2, 1), (3, 1)] [(2, 2), (0, 0)]).swap, n.free = false := by
    decide
  have hvictim : ∀ i ∈ some 1,
      i < (smallState [(2, 1), (3, 1)] [(2, 2), (0, 0)]).frames.length := by decide
  have haddr : (smallState [(2, 1), (3, 1)] [(2, 2), (0, 0)]).Addressable := by
    rw [Addressable]
    decide
  have hchoose : chooseFrame 1 (smallState [(2, 1), (3, 1)] [(2, 2), (0, 0)]).frames =
      some (some 1, _) := rfl
  obtain ⟨ok, s', hloop, hiff, -, hok⟩ := getFreePage_reserves (layout_smallState _ _) haddr
    (by decide) hchoose (.refl _) hvictim 1 fun _ => 0
  cases ok with
  | false => exact absurd ((hiff.mp rfl).2.resolve_left nofun) hslot
  | true =>
    obtain ⟨i, hi, hev⟩ := (hok rfl).2.2 hused
    obtain rfl := Option.some.inj hi
    exact ⟨s', hloop 2 le_rfl, hev⟩

end Reservations

end VMState

end OSDesign.VM
