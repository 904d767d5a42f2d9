import OSDesign.Lib.Transition
import OSDesign.VM.AlikeRequests
import OSDesign.VM.Layout
import OSDesign.VM.SharedMemory
import OSDesign.VM.Survival

/-!
# Allocation and the data of the threads

The records of the allocator lie between the data of the threads. Two runs of the same calls, in
which the threads write different bytes, should not be told apart by what the allocator does: by the
addresses that it returns, by the descriptors, and by the sizes and flags of the blocks.

The two memories agree on the records of all lists, and in the free frames on what `restorePointers`
would visit (`VMState.Alike`). A call that reads nothing else keeps this and returns the same in
both memories. Where the calls read is known from the memory before the call (`Orderly`): a request
follows the lists of the pages of the thread, and moves pages only if all their lists are those that
`restorePointers` finds by the sizes; no page continues a block of another page; and no frame is
taken that overlaps the shared pages (`allocation_independent_of_data`).

Otherwise the allocator does read data. `getFreeElement` takes the first bytes of every page of a
process for a record, also when the page continues a block of the page before it
(`data_decides_allocation`).

## Main definitions

* `VMCall`, `vmCall`: the calls.
* `VMState.observe`, `trace`: what is seen of a run.
* `Orderly`: the condition on the memory before a call.

## Main results

* `VMState.Alike.vmCall`: one call in two memories that are alike.
* `allocation_independent_of_data`, `data_decides_allocation`.
-/

namespace OSDesign.VM

open ByteMemory Transition

/-! ### Calls -/

/-- What happens: allocations with `THREADREQ` by the running thread, with `OSREQ` and with
`SHALLOC`, a page for a thread, `mydeallocate` for a block and for a page, a context switch away
from a thread, `loadProcessPages`, and a write of a thread. -/
inductive VMCall where
  | thread (pid size fuel : ℕ) (junk : ℕ → ℕ → UInt8)
  | os (size fuel : ℕ) (junk : ℕ → UInt8)
  | shalloc (size fuel : ℕ) (junk : ℕ → UInt8)
  | page (pid : ℕ) (junk : ℕ → UInt8)
  | free (ptr : ℕ)
  | freePage (frame : ℕ)
  | switch (pid : ℕ)
  | load (pid : ℕ)
  | write (pid a : ℕ) (value : UInt8)

/-- `removeSpace(ptr, PAGE)`. -/
def SpaceNode.remove (n : SpaceNode) : SpaceNode := if n.free then n else n.release

/-- The address that a call returns, or 0, and the memory after it. -/
def vmCall (s : VMState) : VMCall → Option (ℕ × VMState)
  | .thread pid size fuel junk => s.getFreeElement pid size fuel junk fuel
  | .os size fuel junk =>
    (getFreeElementFrom fuel s.bytes s.osRegion.1 size junk).map fun x =>
      (x.1, { s with bytes := x.2 })
  | .shalloc size fuel junk =>
    (getFreeElementFrom fuel s.bytes s.sharedRegion.1 size junk).map fun x =>
      (x.1, { s with bytes := x.2 })
  | .page pid junk => (s.getFreePage pid junk).map fun x => (if x.1 then s.base else 0, x.2)
  | .free ptr => some (0, { s with bytes := removeSpace s.bytes ptr })
  | .freePage frame => some (0, s.withFrames (s.frames.modify frame SpaceNode.remove))
  | .switch pid => some (0, s.withFrames (virtualMemory pid s.frames memoryAllowAll).1)
  | .load pid => (s.loadProcessPages pid).map (0, ·)
  | .write _ a value => some (0, { s with bytes := paste s.bytes a (fun _ => value) 1 })

/-! ### What is seen of a run -/

/-- The descriptors, and for each list of blocks the blocks with their sizes and flags. -/
structure Observation where
  frames : PageTable
  swap : PageTable
  blocks : List (List (ℕ × ℕ × Bool))
deriving DecidableEq

/-- The lists of blocks: that of the operating system, that of the shared pages, and those of the
pages in use that do not continue a block of another page. -/
def listStarts (base : ℕ) (st : PageState) : List ℕ :=
  (base + osReservedStart) :: (base + sharedMemoryStart st.pageSize) ::
    (st.frames.filter fun n => !n.free && !n.dataStartsAnotherPage).map fun n => base + n.start

/-- The blocks from `n` on, up to `fuel` of them: address, size and flag. -/
def blocksFrom (m : Memory) : ℕ → ℕ → List (ℕ × ℕ × Bool)
  | 0, _ => []
  | fuel + 1, n =>
    if n = 0 then []
    else (n, sizeField.get m n, decide (freeField.get m n ≠ 0)) ::
      blocksFrom m fuel (nextField.get m n)

/-- What is seen of the memory. -/
def VMState.observe (fuel : ℕ) (s : VMState) : Observation :=
  ⟨s.frames, s.swap, (listStarts s.base s.pages).map (blocksFrom s.bytes fuel)⟩

/-- The calls of a run one after the other: what each returns, and what is seen then. A call that
does not return ends the run. -/
def trace (fuel : ℕ) : VMState → List VMCall → List (Option (ℕ × Observation))
  | _, [] => []
  | s, c :: cs =>
    match vmCall s c with
    | none => [none]
    | some (r, s₁) => some (r, s₁.observe fuel) :: trace fuel s₁ cs

/-- The calls are the same but for the bytes that threads write. -/
inductive SameCall : VMCall → VMCall → Prop
  | same (c : VMCall) : SameCall c c
  | write (pid a : ℕ) (v v' : UInt8) : SameCall (.write pid a v) (.write pid a v')

/-! ### The condition -/

namespace VMState

/-- The records on the list of a region. -/
def records (s : VMState) (r : ℕ × ℕ) : List ℕ := blockAddrs s.bytes (r.2 - r.1 + 1) r.1

/-- A block that is cut for `size` bytes in the region leaves room for the record of the rest. -/
def Cuttable (s : VMState) (size : ℕ) (r : ℕ × ℕ) : Prop :=
  RegionAllowed r.1 (r.2 - r.1) ⟨s.bytes, []⟩ (.alloc size fun _ => 0)

instance (s : VMState) (size : ℕ) (r : ℕ × ℕ) : Decidable (s.Cuttable size r) :=
  inferInstanceAs (Decidable (RegionAllowed ..))

/-- How many pages the process has in memory. -/
def pageCount (s : VMState) (pid : ℕ) : ℕ := s.frames.countP fun n => n.pid == pid

/-- The process has the pages `1, ..., k`, where `k` is the number of its pages. -/
def Numbered (s : VMState) (pid : ℕ) : Prop :=
  1 ≤ s.pageCount pid ∧ Owns pid (s.pageCount pid) s.frames

instance (s : VMState) (pid : ℕ) : Decidable (s.Numbered pid) :=
  inferInstanceAs (Decidable (_ ∧ _))

/-- The pages of the process are in place, or the lists of all pages can be moved and there is a
free frame. -/
def Reloadable (s : VMState) (pid : ℕ) : Prop :=
  (s.Numbered pid ∧ InPlace pid (s.pageCount pid) s.frames) ∨ s.Movable 1

instance (s : VMState) (pid : ℕ) : Decidable (s.Reloadable pid) :=
  inferInstanceAs (Decidable (_ ∨ _))

/-- A page of the process has a free block of at least `size` bytes. -/
def HasFit (s : VMState) (pid size : ℕ) : Prop :=
  ∃ n ∈ s.frames, n.pid = pid ∧
    findFreeSpace s.bytes size (s.pageSize + 1) (s.pageRegion n).1 ≠ some 0

instance (s : VMState) (pid size : ℕ) : Decidable (s.HasFit pid size) :=
  inferInstanceAs (Decidable (∃ n ∈ s.frames, _))

/-- The last block of the last page of the process is in use. -/
def LastUsed (s : VMState) (pid : ℕ) : Prop :=
  ∀ n ∈ s.frames, n.pid = pid → n.order = s.pageCount pid →
    ∀ e ∈ (s.records (s.pageRegion n)).getLast?, freeField.get s.bytes e = 0

instance (s : VMState) (pid : ℕ) : Decidable (s.LastUsed pid) :=
  inferInstanceAs (Decidable (∀ n ∈ s.frames, _))

/-- The record at `n` is on the list of the region. If it is in use, the record that its field
`prev` names is `NULL` or on the same list, and if that one is free, it is the one before `n`. -/
def Freeable (s : VMState) (n : ℕ) (r : ℕ × ℕ) : Prop :=
  n ∈ s.records r ∧ (freeField.get s.bytes n = 0 →
    (prevField.get s.bytes n = 0 ∨ prevField.get s.bytes n ∈ s.records r) ∧
      RegionAllowed r.1 (r.2 - r.1) ⟨s.bytes, []⟩ (.free (n + sizeofSpaceNode)))

instance (s : VMState) (n : ℕ) (r : ℕ × ℕ) : Decidable (s.Freeable n r) :=
  inferInstanceAs (Decidable (_ ∧ _))

/-- The byte lies in a block in use of the region. -/
def DataOf (s : VMState) (a : ℕ) (r : ℕ × ℕ) : Prop :=
  ∃ n ∈ s.records r, freeField.get s.bytes n = 0 ∧ n + sizeofSpaceNode ≤ a ∧
    a < n + sizeofSpaceNode + sizeField.get s.bytes n

instance (s : VMState) (a : ℕ) (r : ℕ × ℕ) : Decidable (s.DataOf a r) :=
  inferInstanceAs (Decidable (∃ n ∈ s.records r, _))

end VMState

/-- The condition on the memory before a call. Threads write in blocks in use only. -/
def Orderly (s : VMState) : VMCall → Prop
  | .thread pid size .. =>
    pid ≠ 0 ∧ size + sizeofSpaceNode ≤ s.pageSize ∧ s.Numbered pid ∧
      (∀ n ∈ s.frames, n.pid = pid → s.Cuttable size (s.pageRegion n)) ∧
      ((s.HasFit pid size ∧ s.Reloadable pid) ∨ (s.LastUsed pid ∧ s.Movable 4))
  | .os size .. => s.Cuttable size s.osRegion
  | .shalloc size .. => s.Cuttable size s.sharedRegion
  | .page .. => s.Slack 1 ∧ ∀ n ∈ s.frames[0]?, n.free = false → s.Tiled 0
  | .free ptr => ∃ r ∈ s.regions, s.Freeable (ptr - sizeofSpaceNode) r
  | .freePage frame => ∀ n ∈ s.frames[frame]?, n.free = false → s.Tiled frame
  | .switch _ => True
  | .load pid => pid ≠ 0 ∧ s.Reloadable pid
  | .write _ a _ => ∃ r ∈ s.regions, s.DataOf a r

instance decidableOrderly (s : VMState) : ∀ c : VMCall, Decidable (Orderly s c)
  | .thread .. => inferInstanceAs (Decidable (_ ∧ _))
  | .os .. | .shalloc .. => inferInstanceAs (Decidable (s.Cuttable ..))
  | .page .. => inferInstanceAs (Decidable (_ ∧ _))
  | .free ptr => inferInstanceAs (Decidable (∃ r ∈ s.regions, s.Freeable (ptr - sizeofSpaceNode) r))
  | .freePage frame => inferInstanceAs (Decidable (∀ n ∈ s.frames[frame]?, _))
  | .switch _ => isTrue trivial
  | .load _ => inferInstanceAs (Decidable (_ ∧ _))
  | .write _ a _ => inferInstanceAs (Decidable (∃ r ∈ s.regions, s.DataOf a r))

/-! ### One call -/

/-- The walk along a list reads records only. -/
theorem Seg.blocksFrom_congr {m m' : Memory} {p : ℕ} {bs : List Block} (h : Seg m p bs 0)
    (heq : ∀ b ∈ bs, Set.EqOn m' m b.record) (fuel : ℕ) :
    blocksFrom m' fuel p = blocksFrom m fuel p := by
  induction fuel generalizing p bs with
  | zero => rfl
  | succ fuel ih =>
    rw [blocksFrom, blocksFrom]
    cases bs with
    | nil => rw [if_pos (show p = 0 from h), if_pos (show p = 0 from h)]
    | cons b bs =>
      obtain ⟨rfl, -, -, hseg⟩ := h
      have hb := heq b List.mem_cons_self
      rw [freeField.get_congr hb (by decide), sizeField.get_congr hb (by decide),
        nextField.get_congr hb (by decide), ih hseg fun c hc => heq c (List.mem_cons_of_mem _ hc)]

namespace VMState

variable {s s' : VMState} {Φ : ℕ → ℕ → ℤ → List Block → Prop} {pid size fuel : ℕ} {r : ℕ × ℕ}

theorem Sound.region_le (h : s.Sound) (hr : r ∈ s.regions) : r.1 ≤ r.2 := by
  rcases h.room.layout.mem_regions.mp hr with rfl | rfl | ⟨f, n, -, -, rfl⟩
  · exact Nat.add_le_add_left (by decide) _
  · exact Nat.add_le_add_left (Nat.sub_le ..) _
  · exact Nat.le_add_right ..

/-- Memories that are alike look the same. -/
theorem Alike.observe_eq (h : Alike Φ s s') (fuel : ℕ) : s.observe fuel = s'.observe fuel := by
  have hlists (x : ℕ) (hx : x ∈ listStarts s.base s.pages) :
      blocksFrom s.bytes fuel x = blocksFrom s'.bytes fuel x := by
    obtain ⟨r, hr, rfl⟩ : ∃ r ∈ s.regions, r.1 = x := by
      rcases List.mem_cons.mp hx with rfl | hx
      · exact ⟨s.osRegion, List.mem_cons_self, rfl⟩
      rcases List.mem_cons.mp hx with rfl | hx
      · exact ⟨s.sharedRegion, List.mem_cons_of_mem _ List.mem_cons_self, rfl⟩
      obtain ⟨n, hn, rfl⟩ := List.mem_map.mp hx
      obtain ⟨hn, hused⟩ := List.mem_filter.mp hn
      refine ⟨s.pageRegion n, List.mem_cons_of_mem _ (List.mem_cons_of_mem _ ?_), rfl⟩
      exact List.mem_map_of_mem (List.mem_filter.mpr ⟨hn, (Bool.and_eq_true_iff.mp hused).1⟩)
    obtain ⟨bs, hbs⟩ := h.region hr
    exact (hbs.seg.blocksFrom_congr (fun b hb => hbs.record hb) fuel).symm
  obtain ⟨m', rfl⟩ : ∃ m', s' = { s with bytes := m' } := ⟨_, h.eq⟩
  exact congrArg (Observation.mk s.frames s.swap) (List.map_congr_left hlists)

/-- The list of a region. -/
theorem Alike.exists_records (h : Alike Φ s s') (hr : r ∈ s.regions) :
    ∃ bs, SameBlocks s.bytes s'.bytes r.1 r.2 bs ∧ s.records r = bs.map Block.addr ∧
      Spaced (r.1 + (r.2 - r.1)) bs := by
  obtain ⟨bs, hbs⟩ := h.region hr
  have hspaced : Spaced (r.1 + (r.2 - r.1)) bs := by
    rw [Nat.add_sub_cancel' (h.sound.region_le hr)]
    exact hbs.spaced
  exact ⟨bs, hbs, blockAddrs_eq hbs.seg (hbs.seg.length_lt hspaced), hspaced⟩

/-- A request to a region. -/
theorem Alike.getFreeElementFrom (h : Alike Φ s s') (hr : r ∈ s.regions) (hok : s.Cuttable size r)
    (fuel : ℕ) (junk : ℕ → UInt8) :
    Option.Rel SameResult
      ((VM.getFreeElementFrom fuel s.bytes r.1 size junk).map fun x =>
        (x.1, ({ s with bytes := x.2 } : VMState)))
      ((VM.getFreeElementFrom fuel s'.bytes r.1 size junk).map fun x =>
        (x.1, ({ s' with bytes := x.2 } : VMState))) := by
  obtain ⟨bs, hbs, -, hspaced⟩ := h.exists_records hr
  have hroom := roomy_of_allowed hbs.seg hspaced hok
  rw [Nat.add_sub_cancel' (h.sound.region_le hr)] at hroom
  refine rel_map (hbs.getFreeElementFrom (h.sound.region_end hr) hroom fuel junk) fun x x' hx => ?_
  obtain ⟨heq, hbs', hout, hout'⟩ := hx
  exact ⟨heq, h.setRegion hr hout hout' hbs'⟩

/-- A block is freed. -/
theorem Alike.removeSpace {ptr : ℕ} (h : Alike Φ s s') (hr : r ∈ s.regions)
    (hok : s.Freeable (ptr - sizeofSpaceNode) r) :
    Alike anyList { s with bytes := VM.removeSpace s.bytes ptr }
      { s' with bytes := VM.removeSpace s'.bytes ptr } := by
  obtain ⟨bs, hbs, hrecords, hspaced⟩ := h.exists_records hr
  obtain ⟨hmem, hprev⟩ := hok
  rw [hrecords] at hmem hprev
  obtain ⟨b, hb, haddr⟩ := List.mem_map.mp hmem
  obtain ⟨l, r', rfl⟩ := List.append_of_mem hb
  obtain ⟨-, -, hden, -⟩ := seg_middle.mp hbs.seg
  have hrecord := hbs.record hb
  have hstart : b.start - sizeofSpaceNode = b.addr := Nat.add_sub_cancel ..
  have hptr (m : Memory) : VM.removeSpace m ptr = VM.removeSpace m b.start := by
    rw [VM.removeSpace, VM.removeSpace, ← haddr, hstart]
  rw [hptr, hptr]
  rw [← haddr] at hprev
  cases hfree : b.free with
  | true =>
    -- nothing happens to a block that is free
    have hget : freeField.get s.bytes b.addr ≠ 0 := hden.free.mpr hfree
    have hget' : freeField.get s'.bytes b.addr ≠ 0 := by
      rwa [freeField.get_congr hrecord (by decide)]
    have hkeep {m : Memory} (hm : freeField.get m b.addr ≠ 0) : VM.removeSpace m b.start = m := by
      rw [VM.removeSpace, hstart]
      exact if_pos hm
    rw [hkeep hget, hkeep hget']
    exact h.mono fun _ _ _ _ _ _ => trivial
  | false =>
    have hget : freeField.get s.bytes b.addr = 0 := by
      by_contra hne
      exact Bool.false_ne_true (hfree.symm.trans (hden.free.mp hne))
    obtain ⟨hin, hok⟩ := hprev hget
    have hpred (hm : Mergeable (markFree s.bytes b.addr) (prevField.get s.bytes b.addr)) :
        ∃ l' x, l = l' ++ [x] ∧ prevField.get s.bytes b.addr = x.addr := by
      dsimp only [RegionAllowed] at hok
      rw [Nat.add_sub_cancel] at hok
      obtain ⟨hprev, hnext⟩ := hok hm
      refine exists_pred hbs.seg hbs.spaced ?_ hnext
      rw [← hrecords]
      exact hprev
    obtain ⟨hbs', hout, hout'⟩ := hbs.removeSpace hfree hin hpred
    exact h.setRegion hr hout hout' hbs'

/-- A thread writes in a block in use. -/
theorem Alike.write {a : ℕ} (h : Alike Φ s s') (hr : r ∈ s.regions) (hok : s.DataOf a r)
    (v v' : UInt8) :
    Alike anyList { s with bytes := paste s.bytes a (fun _ => v) 1 }
      { s' with bytes := paste s'.bytes a (fun _ => v') 1 } := by
  obtain ⟨bs, hbs, hrecords, -⟩ := h.exists_records hr
  obtain ⟨n, hn, hfree, hlo, hhi⟩ := hok
  rw [hrecords] at hn
  obtain ⟨b, hb, rfl⟩ := List.mem_map.mp hn
  have hden := hbs.seg.denotes hb
  rw [hden.size] at hhi
  obtain ⟨hbs', hout, hout'⟩ := hbs.write hb (hden.free_eq_false hfree) hlo hhi v v'
  exact h.setRegion hr hout hout' ⟨bs, hbs'⟩

/-- A page is freed. What was its list is what `restorePointers` visits. -/
theorem Alike.remove {f : ℕ} (h : Alike Φ s s')
    (hok : ∀ n ∈ s.frames[f]?, n.free = false → s.Tiled f) :
    Alike Φ (s.withFrames (s.frames.modify f SpaceNode.remove))
      (s'.withFrames (s.frames.modify f SpaceNode.remove)) := by
  have hlay := h.sound.room.layout
  have hkeep (n : SpaceNode) : n.remove.place = n.place ∧ n.remove.size = n.size ∧
      n.remove.dataStartsAnotherPage = n.dataStartsAnotherPage ∧ n.remove.free = true := by
    rw [SpaceNode.remove]
    split_ifs with hfree
    · exact ⟨rfl, rfl, rfl, hfree⟩
    · exact ⟨rfl, rfl, rfl, rfl⟩
  have hlen : (s.frames.modify f SpaceNode.remove).length = s.frames.length := List.length_modify ..
  have hlow : (s.withFrames (s.frames.modify f SpaceNode.remove)).lowFrames = s.lowFrames :=
    lowFrames_eq hlen
  have hlay' : (s.withFrames (s.frames.modify f SpaceNode.remove)).Layout :=
    hlay.of_maps (ListUpdate.map_modify_eq _ (fun n => (hkeep n).1) _ _)
      (ListUpdate.map_modify_eq _ (fun n => (hkeep n).2.1) _ _)
  -- a frame that is in use now was in use before
  have hold {g : ℕ} {n : SpaceNode} (hn : (s.frames.modify f SpaceNode.remove)[g]? = some n)
      (hused : n.free = false) : s.frames[g]? = some n := by
    obtain ⟨n₀, hn₀, hne, heq⟩ := exists_of_modify hn
    by_cases hg : g = f
    · rw [heq hg, (hkeep n₀).2.2.2] at hused
      cases hused
    · rwa [hne hg]
  have hsound : (s.withFrames (s.frames.modify f SpaceNode.remove)).Sound := by
    refine h.sound.modify hlay' fun n hn => ⟨fun _ => ?_, ?_, fun hused => ?_⟩
    · rw [SpaceNode.remove]
      split_ifs with hfree
      · exact h.sound.unowned n (List.mem_iff_getElem?.mpr ⟨f, hn⟩) hfree
      · rfl
    · rw [(hkeep n).2.2.1]
      exact h.sound.unflagged n (List.mem_iff_getElem?.mpr ⟨f, hn⟩)
    · rw [(hkeep n).2.2.2] at hused
      cases hused
  refine ⟨by rw [h.eq]; rfl, hsound, h.os, h.shared,
    fun g n hn hused => h.used g n (hold hn hused) hused, fun g n hn hfree hg => ?_⟩
  · obtain ⟨n₀, hn₀, hne, heq⟩ := exists_of_modify hn
    rw [hlow] at hg
    cases hfree₀ : n₀.free with
    | true => exact h.spare g n₀ hn₀ hfree₀ hg
    | false =>
      obtain rfl : g = f := by
        by_contra hgf
        rw [hne hgf, hfree₀] at hfree
        cases hfree
      obtain ⟨bs, hbs, -⟩ := h.used g n₀ hn₀ hfree₀
      exact hbs.sameVisited (s.frameAddress_ne_zero g) hlay.large (hok n₀ hn₀ hfree₀)

/-- What the condition says about the list of a page of the process. -/
theorem Layout.roomy_of_cuttable {f : ℕ} {n : SpaceNode} (bs : List Block) (hlay : s.Layout)
    (hn : s.frames[f]? = some n)
    (hseg : Seg s.bytes (s.frameAddress f) (bs.map (Block.shift (s.frameAddress f))) 0)
    (hspaced : Spaced (s.frameAddress f + s.pageSize) (bs.map (Block.shift (s.frameAddress f))))
    (hok : s.Cuttable size (s.pageRegion n)) : Roomy size s.pageSize bs := by
  rw [Cuttable, pageRegion, hlay.base_add_start hn, Nat.add_sub_cancel_left] at hok
  exact roomy_shift.mp (roomy_of_allowed hseg hspaced hok)

/-- A request of a thread. -/
theorem Alike.getFreeElement (h : Alike Φ s s') (junk : ℕ → ℕ → UInt8)
    (hok : Orderly s (.thread pid size fuel junk)) (rounds : ℕ) :
    Option.Rel SameResult
      (s.getFreeElement pid size fuel junk rounds)
        (s'.getFreeElement pid size fuel junk rounds) := by
  obtain ⟨hpid, hsize, ⟨hk, howns⟩, hcut, hcase⟩ := hok
  have hlay := h.sound.room.layout
  have hroomy {f : ℕ} {n : SpaceNode} {bs : List Block} (hn : s.frames[f]? = some n)
      (hp : n.pid = pid) := fun hseg hspaced => hlay.roomy_of_cuttable bs hn hseg hspaced
        (hcut n (List.mem_iff_getElem?.mpr ⟨f, hn⟩) hp)
  rcases hcase with ⟨⟨n₁, hn₁, hp₁, hfind⟩, hload⟩ | ⟨hlast, hmov⟩
  · -- the page of `n₁` has a block that is large enough
    obtain ⟨f₁, hf₁⟩ := List.mem_iff_getElem?.mp hn₁
    have hholds {f : ℕ} {n : SpaceNode} (hn : s.frames[f]? = some n) (hp : n.pid = pid) :
        Holds s.frames f pid n.order := by
      rw [Holds, hn, Option.map_some, SpaceNode.page, hp,
        howns.free_eq_false n (List.mem_iff_getElem?.mpr ⟨f, hn⟩) hp]
    obtain ⟨hj, hjk⟩ := (howns.hasPage_iff n₁.order).mp (hholds hf₁ hp₁).hasPage
    have h₁ : Alike (fun _ p o bs => p = pid → Roomy size s.pageSize bs ∧
        (o = n₁.order → firstFit size bs ≠ none)) s s' := by
      refine h.of_lists fun f n bs hn _ hseg hspaced hp =>
        ⟨hroomy hn hp hseg hspaced, fun ho hnone => hfind ?_⟩
      have hff := howns.holds_unique (ho ▸ hholds hn hp) (hholds hf₁ hp₁)
      rw [pageRegion, hlay.base_add_start hf₁, ← hff,
        VM.findFreeSpace_eq size hseg (hseg.length_lt hspaced), firstFit_shift, hnone]
      rfl
    have hready : Option.Rel (Ready (fun _ p o bs => p = pid → Roomy size s.pageSize bs ∧
        (o = n₁.order → firstFit size bs ≠ none)) s.pageSize pid (s.pageCount pid))
        (s.loadProcessPages pid) (s'.loadProcessPages pid) := by
      rcases hload with ⟨-, hin⟩ | hmov
      · exact h₁.load_ready_inPlace hk howns hin
      · exact rel_imp (h₁.load_ready (fun _ _ _ _ _ hbs => hbs) hpid howns hmov) fun _ _ ht => ht.1
    exact getFreeElement_fit hready hj hjk (fun _ _ _ hbs => (hbs rfl).1)
      (fun _ _ hbs => (hbs rfl).2 rfl) junk rounds
  · have h₁ : Alike (fun _ p o bs => p = pid → Roomy size s.pageSize bs ∧
        (o = s.pageCount pid → EndsUsed bs)) s s' := by
      refine h.of_lists fun f n bs hn _ hseg hspaced hp =>
        ⟨hroomy hn hp hseg hspaced, fun ho b hb => ?_⟩
      have hrecords : s.records (s.pageRegion n) =
          (bs.map (Block.shift (s.frameAddress f))).map Block.addr := by
        rw [records, pageRegion, hlay.base_add_start hn, Nat.add_sub_cancel_left]
        exact blockAddrs_eq hseg (hseg.length_lt hspaced)
      have hb' : b.shift (s.frameAddress f) ∈ bs.map (Block.shift (s.frameAddress f)) :=
        List.mem_map_of_mem (List.mem_of_getLast? hb)
      refine (hseg.denotes hb').free_eq_false ?_
      refine hlast n (List.mem_iff_getElem?.mpr ⟨f, hn⟩) hp ho _ ?_
      rw [hrecords, List.getLast?_map, List.getLast?_map, Option.mem_def.mp hb]
      rfl
    exact h₁.getFreeElement_grow (fun _ _ _ _ _ hbs => hbs) hpid howns hk hmov hsize
      (fun _ _ _ hbs => (hbs rfl).1) (fun _ _ hbs => (hbs rfl).2 rfl) junk rounds

/-- Loading. -/
theorem Alike.load (h : Alike anyList s s') (hpid : pid ≠ 0) (hok : s.Reloadable pid) :
    Option.Rel (Alike anyList) (s.loadProcessPages pid) (s'.loadProcessPages pid) := by
  rcases hok with ⟨⟨hk, howns⟩, hin⟩ | hmov
  · exact rel_imp (h.load_ready_inPlace hk howns hin) fun _ _ ht => ht.alike
  · exact rel_imp (h.load_movable (fun _ _ _ _ _ _ => trivial) hpid hmov) fun _ _ ht => ht.1

/-- **One call.** In two memories that are alike, a call returns the same address and leaves two
memories that are alike, also if it writes another byte. -/
theorem Alike.vmCall {c c' : VMCall} (h : Alike anyList s s') (hok : Orderly s c)
    (hc : SameCall c c') :
    Option.Rel SameResult (VM.vmCall s c)
      (VM.vmCall s' c') := by
  cases hc with
  | write pid a v v' =>
    obtain ⟨r, hr, hdata⟩ := hok
    exact .some ⟨rfl, h.write hr hdata v v'⟩
  | same =>
    cases c with
    | thread pid size fuel junk => exact h.getFreeElement junk hok fuel
    | os size fuel junk =>
      have hrel := h.getFreeElementFrom List.mem_cons_self hok fuel junk
      have heq : s'.osRegion = s.osRegion := by rw [osRegion, h.base_eq, osRegion]
      rw [VM.vmCall, VM.vmCall, heq]
      exact hrel
    | shalloc size fuel junk =>
      have hrel := h.getFreeElementFrom (List.mem_cons_of_mem _ List.mem_cons_self) hok fuel junk
      have heq : s'.sharedRegion = s.sharedRegion := by
        rw [sharedRegion, h.base_eq, h.pageSize_eq, sharedRegion]
      rw [VM.vmCall, VM.vmCall, heq]
      exact hrel
    | page pid junk =>
      obtain ⟨⟨hle, hbefore⟩, htiled⟩ := hok
      obtain ⟨n, s₁, s₁', hs₁, hs₁', h₁, -⟩ := h.getFreePage (fun _ _ _ _ _ _ => trivial) hbefore
        (by omega) (fun n hn => htiled n hn) pid junk
      rw [VM.vmCall, VM.vmCall, hs₁, hs₁', h.base_eq]
      exact .some ⟨rfl, h₁.mono fun _ _ _ _ _ _ => trivial⟩
    | free ptr =>
      obtain ⟨r, hr, hfree⟩ := hok
      exact .some ⟨rfl, h.removeSpace hr hfree⟩
    | freePage frame =>
      rw [VM.vmCall, VM.vmCall, h.frames_eq]
      exact .some ⟨rfl, h.remove hok⟩
    | switch pid =>
      rw [VM.vmCall, VM.vmCall, h.frames_eq]
      exact .some ⟨rfl, h.sameFrames (sameFrames_virtualMemory ..)⟩
    | load pid => exact rel_map (h.load hok.1 hok.2) fun _ _ ht => ⟨rfl, ht⟩
    | write pid a v =>
      obtain ⟨r, hr, hdata⟩ := hok
      exact .some ⟨rfl, h.write hr hdata v v⟩

end VMState

/-! ### Two runs -/

/-- Two runs from memories that are alike. -/
theorem trace_eq_of_alike {s s' : VMState} {cs cs' : List VMCall} (fuel : ℕ)
    (hsame : List.Forall₂ SameCall cs cs') (h : VMState.Alike VMState.anyList s s')
    (hok : RunOk (fun s c => (vmCall s c).map Prod.snd) Orderly s cs) :
    trace fuel s cs = trace fuel s' cs' := by
  induction hsame generalizing s s' with
  | nil => rfl
  | @cons c c' cs cs' hc _ ih =>
    obtain ⟨hcall, hrest⟩ := hok
    rw [trace, trace]
    rcases rel_cases (h.vmCall hcall hc) with ⟨hx, hx'⟩ | ⟨⟨a, t⟩, ⟨a', t'⟩, hx, hx', heq, ht⟩
    · rw [hx, hx']
    · obtain rfl : a = a' := heq
      have hstep : (vmCall s c).map Prod.snd = some t := by rw [hx, Option.map_some]
      rw [hx, hx']
      dsimp only
      rw [ht.observe_eq fuel, ih ht (hrest t hstep)]

/-- The memory after `init`, with the given bytes before; `junk` and `osJunk` are the bytes that are
not set in the records of the shared pages and of the memory of the operating system. -/
def VMState.start (base pageSize reference : ℕ) (bytes : Memory) (junk osJunk : ℕ → UInt8)
    (slots : ℕ → Memory) : VMState :=
  .init base pageSize reference (initOSRegion
    (initializeFreePages pageSize junk 4 (base + sharedMemoryStart pageSize) 0 bytes) base osJunk)
    slots

section Start

variable {base pageSize : ℕ}

/-- The frames of `init` lie in the memory. -/
theorem initFrames_le (hsize : 0 < pageSize) (hshared : memoryStart + 4 * pageSize ≤ physicalSize)
    (reference : ℕ) :
    memoryStart + (initFrames pageSize reference).length * pageSize ≤ physicalSize := by
  cases hlen : (initFrames pageSize reference).length with
  | zero => omega
  | succ n =>
    have hlast : n * pageSize < physicalSize - 4 * pageSize - memoryStart :=
      (lt_length_initFrames_iff.mp (by rw [hlen]; exact Nat.lt_succ_self n)).2
    rw [Nat.succ_mul]
    omega

/-- The list of the operating system and that of the shared pages after `init`. -/
theorem exists_lists_start (hsize : sizeofSpaceNode < pageSize)
    (hshared : memoryStart + 4 * pageSize ≤ physicalSize) (hbase : base + physicalSize < 2 ^ 64)
    (bytes : Memory) (junk osJunk : ℕ → UInt8) {m : Memory}
    (hm : m = initOSRegion (initializeFreePages pageSize junk 4
      (base + sharedMemoryStart pageSize) 0 bytes) base osJunk) :
    (∃ bs, SameBlocks m m (base + osReservedStart) (base + memoryStart) bs) ∧
      ∃ bs, SameBlocks m m (base + sharedMemoryStart pageSize) (base + physicalSize) bs := by
  have hphysical : physicalSize < 2 ^ 32 := by decide
  have hos : osReservedStart + (memoryStart - osReservedStart) = memoryStart := by decide
  have hpos : 0 < memoryStart := by decide
  have hosEnd : osReservedStart + sizeofSpaceNode ≤ memoryStart := by decide
  have hend : sharedMemoryStart pageSize + 4 * pageSize = physicalSize := by
    rw [sharedMemoryStart]
    omega
  have hdiv : 4 * pageSize / pageSize = 4 := Nat.mul_div_cancel _ (Nat.zero_lt_of_lt hsize)
  constructor
  · obtain ⟨hseg, hspaced, -⟩ := regionBlocks_init (RegionInit.os
      (initializeFreePages pageSize junk 4 (base + sharedMemoryStart pageSize) 0 bytes) base osJunk
      (by omega))
    rw [Nat.add_assoc, hos] at hspaced
    rw [← hm] at hseg hspaced
    exact ⟨_, hseg, hspaced, Set.eqOn_refl _ _⟩
  · obtain ⟨bs, hseg, hspaced, -⟩ := regionInv_shared (SharedInit.pages bytes pageSize
      (base + sharedMemoryStart pageSize) (4 * pageSize) junk (by omega) hsize (by omega) (by omega)
      (by omega))
    rw [Nat.add_assoc, hend] at hspaced
    rw [hdiv] at hseg
    -- the record of the operating system lies in front of the shared pages
    have hframe : Set.EqOn m
        (initializeFreePages pageSize junk 4 (base + sharedMemoryStart pageSize) 0 bytes)
        (Set.Ico (base + sharedMemoryStart pageSize) (base + physicalSize)) := by
      rw [hm]
      exact eqOn_of_disjoint (initOSRegion_eqOn ..) (disjoint_Ico (Or.inl (by omega)))
    exact ⟨bs, SameBlocks.frame ⟨hseg, hspaced, Set.eqOn_refl _ _⟩ hframe hframe⟩

/-- The memory after `init` is alike to itself. -/
theorem VMState.alike_start (hsize : sizeofSpaceNode < pageSize)
    (hshared : memoryStart + 4 * pageSize ≤ physicalSize) (hbase : base + physicalSize < 2 ^ 64)
    (reference : ℕ) (bytes : Memory) (junk osJunk : ℕ → UInt8) (slots : ℕ → Memory) :
    Alike anyList (.start base pageSize reference bytes junk osJunk slots)
      (.start base pageSize reference bytes junk osJunk slots) := by
  obtain ⟨hos, hsh⟩ := exists_lists_start hsize hshared hbase bytes junk osJunk rfl
  have hcont := contiguous_initFrames pageSize reference
  have hsizes : ∀ n ∈ initFrames pageSize reference, n.size = pageSize :=
    forall_initFrames (fun _ _ _ hq => hq) fun _ => rfl
  have hfree : ∀ n ∈ initFrames pageSize reference, n.free = true :=
    forall_initFrames (fun _ _ _ hq => hq) fun _ => rfl
  have hpid : ∀ n ∈ initFrames pageSize reference, n.pid = 0 :=
    forall_initFrames (fun _ _ _ hq => hq) fun _ => rfl
  have hflag : ∀ n ∈ initFrames pageSize reference, n.dataStartsAnotherPage = false :=
    forall_initFrames (fun _ _ _ hq => hq) fun _ => rfl
  have hle := initFrames_le (Nat.zero_lt_of_lt hsize) hshared reference
  have hapart : memoryStart ≤ sharedMemoryStart pageSize := by
    rw [sharedMemoryStart]
    omega
  rw [VMState.start, VMState.init]
  generalize initFrames pageSize reference = frames at hcont hsizes hfree hpid hflag hle ⊢
  refine ⟨rfl, ⟨⟨⟨hcont, hsizes, hsize⟩, hle, hbase⟩, hapart, fun n hn _ => hpid n hn, hflag,
    fun n hn => hfree n (List.mem_of_mem_drop hn)⟩, hos, hsh, fun f n hn hused => ?_,
    fun _ _ _ _ _ => Set.eqOn_refl _ _⟩
  rw [hfree n (List.mem_iff_getElem?.mpr ⟨f, hn⟩)] at hused
  cases hused

end Start

/-- **Allocation does not depend on data.** Two runs of the same calls from the memory after `init`,
in which the threads write different bytes. If the calls of one run are orderly, then every call
returns the same address in both runs, and after every call the descriptors and the sizes and flags
of all blocks are the same. -/
theorem allocation_independent_of_data {base pageSize : ℕ} (hsize : sizeofSpaceNode < pageSize)
    (hshared : memoryStart + 4 * pageSize ≤ physicalSize) (hbase : base + physicalSize < 2 ^ 64)
    (reference : ℕ) (bytes : Memory) (junk osJunk : ℕ → UInt8) (slots : ℕ → Memory) (fuel : ℕ)
    {cs cs' : List VMCall} (hsame : List.Forall₂ SameCall cs cs')
    (hok : RunOk (fun s c => (vmCall s c).map Prod.snd) Orderly
      (.start base pageSize reference bytes junk osJunk slots) cs) :
    trace fuel (.start base pageSize reference bytes junk osJunk slots) cs =
      trace fuel (.start base pageSize reference bytes junk osJunk slots) cs' :=
  trace_eq_of_alike fuel hsame
    (VMState.alike_start hsize hshared hbase reference bytes junk osJunk slots) hok

/-- The memory after `init` with pages of 16 KiB, at the address 4096, which was zero before. -/
def freshMemory : VMState := .start 4096 16384 0 (fun _ => 0) (fun _ => 0) (fun _ => 0) fun _ _ => 0

/-- Thread 1 and thread 2 get a page, a block in it, and write. The pages of thread 1 are loaded
again; it fills its page and is given a second one. There are requests of the operating system and
to the shared pages, a block and a page are freed, and the pages of thread 2 are loaded. -/
def orderlyRun (v : UInt8) : List VMCall :=
  [.page 1 fun _ => 0, .thread 1 40 4 fun _ _ => 0, .write 1 (4096 + memoryStart + 60) v,
    .page 2 fun _ => 0, .thread 2 100 4 fun _ _ => 0, .write 2 (4096 + memoryStart + 70) v,
    .switch 2, .load 1, .thread 1 16232 4 fun _ _ => 0, .write 1 (4096 + memoryStart + 200) v,
    .thread 1 200 9 fun _ _ => 0, .write 1 (4096 + memoryStart + 16384 + 56) v,
    .os 50 4 fun _ => 0, .shalloc 30 9 fun _ => 0, .free (4096 + memoryStart + 56), .switch 1,
    .load 2, .freePage 0]

/-- The bytes that the threads write do not matter. -/
theorem allocation_independent_of_byte :
    trace 9 freshMemory (orderlyRun 7) = trace 9 freshMemory (orderlyRun 8) ∧
      (trace 9 freshMemory (orderlyRun 7)).map (Option.map Prod.fst) =
        [some 4096, some 2101304, some 0, some 4096, some 2101304, some 0, some 0, some 0,
          some 2101400, some 0, some 2117688, some 0, some 1004152, some 7938616, some 0, some 0,
          some 0, some 0] := by
  refine ⟨allocation_independent_of_data (by decide) (by decide) (by decide) 0 (fun _ => 0)
    (fun _ => 0) (fun _ => 0) (fun _ _ => 0) 9 ?_ (by decide +kernel), by decide +kernel⟩
  repeat' constructor

/-! ### Blocks in use -/

/-- The blocks in use after a call that has returned `r`. The blocks of the operating system and
those of the shared pages belong to nobody, which is 0. -/
def VMCall.live (live : List LiveBlock) (r : ℕ) : VMCall → List LiveBlock
  | .thread pid size .. => if r = 0 then live else ⟨pid, r, size⟩ :: live
  | .os size .. => if r = 0 then live else ⟨0, r, size⟩ :: live
  | .shalloc size .. => if r = 0 then live else ⟨0, r, size⟩ :: live
  | .free ptr => live.filter fun b => b.ptr ≠ ptr
  | _ => live

/-- Threads write in their own blocks only. -/
def VMCall.WritesLive (live : List LiveBlock) : VMCall → Prop
  | .write pid a _ => ∃ b ∈ live, b.Has pid a
  | _ => True

/-- All writes of a run are in blocks in use. -/
def WritesLive : VMState → List LiveBlock → List VMCall → Prop
  | _, _, [] => True
  | s, live, c :: cs =>
    c.WritesLive live ∧ ∀ x ∈ vmCall s c, WritesLive x.2 (c.live live x.1) cs

instance decidableWritesLive :
    ∀ (s : VMState) (live : List LiveBlock) (cs : List VMCall), Decidable (WritesLive s live cs)
  | _, _, [] => isTrue trivial
  | _, live, c :: cs =>
    have : ∀ x : ℕ × VMState, Decidable (WritesLive x.2 (c.live live x.1) cs) :=
      fun x => decidableWritesLive x.2 (c.live live x.1) cs
    have : Decidable (c.WritesLive live) :=
      match c with
      | .write .. => inferInstanceAs (Decidable (∃ b ∈ live, b.Has _ _))
      | .thread .. | .os .. | .shalloc .. | .page .. => isTrue trivial
      | .free _ | .freePage _ | .switch _ | .load _ => isTrue trivial
    inferInstanceAs (Decidable (_ ∧ _))

/-- Thread 1 has a block that continues on its second page. It writes the byte 8 of that page, and
asks for another block. -/
def continuedRun (v : UInt8) : List VMCall :=
  [.page 1 fun _ => 0, .thread 1 16448 20 fun _ _ => 0,
    .write 1 (4096 + memoryStart + 16384 + 8) v, .thread 1 16298 20 fun _ _ => 0]

/-- If the byte is 0, thread 1 is given a third page. If it is 1, the allocator takes the start of
the second page for a free block, and returns an address in the block that is in use. -/
theorem data_decides_allocation :
    List.Forall₂ SameCall (continuedRun 0) (continuedRun 1) ∧
      WritesLive freshMemory [] (continuedRun 0) ∧ WritesLive freshMemory [] (continuedRun 1) ∧
      trace 20 freshMemory (continuedRun 0) ≠ trace 20 freshMemory (continuedRun 1) := by
  refine ⟨?_, by decide +kernel, by decide +kernel, fun heq => ?_⟩
  · repeat' constructor
  · have h₀ : (trace 20 freshMemory (continuedRun 0)).map (Option.map Prod.fst) =
        [some 4096, some 2101304, some 0, some 2134072] := by decide +kernel
    have h₁ : (trace 20 freshMemory (continuedRun 1)).map (Option.map Prod.fst) =
        [some 4096, some 2101304, some 0, some 2117688] := by decide +kernel
    rw [heq, h₁] at h₀
    exact absurd h₀ (by decide)

end OSDesign.VM
