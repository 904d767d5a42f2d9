import Mathlib.Tactic
import OSDesign.Lib.ListUpdate

/-!
# The page table and the swap file

The descriptors of the page frames form a list in the order of their `next` links, which no
operation changes; a frame is named by its position in the list. The slots of the swap file have
descriptors of the same type. The bytes of the pages are added in `OSDesign.VM.Memory`; the only
place where they decide what happens to the descriptors is `joinFreeSpace`, which asks whether the
last block of the last page of the process is free.

Addresses count from the start of `mem`. An operation that dereferences `NULL` is `none`. The
configuration is the one of `vm.h`: `VIRTUAL_MEMORY` and `USE_SWAP_F` are 1, `SWAP_STRATEGY` is 1
and `USE_FIND_IN_SWAP` is 0.

## Main definitions

* `SpaceNode`, `PageTable`, `PageState`, `init`.
* `findPage`, `swapPages`, `loadProcessPages`, `getVictimPage`, `movePageToSwap`, `getFreePage`,
  `getLastProcessPage`, `joinFreeSpace`, `reserveAnotherPage`.

## Main results

* `perm_swapPages`, `perm_loadProcessPages`: loading pages permutes the descriptors, up to the
  fields that describe the frame itself.
-/

namespace OSDesign.VM

open ListUpdate

/-- `sizeof(SpaceNode)`. -/
def sizeofSpaceNode : ℕ := 56

/-- `PHYSICAL_SIZE`. -/
def physicalSize : ℕ := 8000000

/-- `SWAP_SIZE`. -/
def swapSize : ℕ := 4000000

/-- `OSRESERVED_START`. -/
def osReservedStart : ℕ := 1000000

/-- `SWAP_MEMORY_START`. -/
def swapMemoryStart : ℕ := 1000000

/-- `MEMORY_START`. -/
def memoryStart : ℕ := 2097152

/-- The record `spaceNode` as the descriptor of a page frame or of a swap slot; `next` and `prev`
are positions in the list. -/
structure SpaceNode where
  pid : ℕ
  reference : ℕ
  free : Bool
  order : ℤ
  start : ℕ
  size : ℕ
  next : Option ℕ
  prev : Option ℕ
  dataStartsAnotherPage : Bool
  swapclock : Int8
deriving DecidableEq

/-- The descriptors in the order of the `next` links. -/
abbrev PageTable := List SpaceNode

/-- The page table and the contents of the swap file, for pages of `pageSize` bytes. -/
structure PageState where
  pageSize : ℕ
  frames : PageTable
  swap : PageTable

/-! ### Looking for pages -/

/-- `findFreePage`. -/
def findFreePage (t : PageTable) : Option ℕ := t.findIdx? (·.free)

/-- The descriptor belongs to the page `order` of `pid`. -/
def SpaceNode.isPage (pid : ℕ) (order : ℤ) (n : SpaceNode) : Bool :=
  n.pid == pid && n.order == order

/-- `res->swapclock = 0`. -/
def SpaceNode.touch (n : SpaceNode) : SpaceNode := { n with swapclock := 0 }

/-- `findPage`: the first frame with this page, whose clock is reset. -/
def findPage (pid : ℕ) (order : ℤ) (t : PageTable) : Option ℕ × PageTable :=
  match t.findIdx? (SpaceNode.isPage pid order) with
  | none => (none, t)
  | some i => (some i, t.modify i SpaceNode.touch)

/-! ### Moving pages -/

/-- The descriptor `n` with the address and the links of `m`. -/
def SpaceNode.withLinks (n m : SpaceNode) : SpaceNode :=
  { n with start := m.start, next := m.next, prev := m.prev }

/-- `swapPages` on the descriptors: all but the address and the links is exchanged. -/
def swapPages (i j : ℕ) (t : PageTable) : PageTable :=
  if i = j then t
  else
    match t[i]?, t[j]? with
    | some p, some q => (t.set i (q.withLinks p)).set j (p.withLinks q)
    | _, _ => t

/-- `getContiguousPage`. -/
def getContiguousPage (pageSize page : ℕ) (t : PageTable) : Option ℕ :=
  (t[page]?).bind fun p => t.findIdx? fun n => n.start == p.start + pageSize

/-- `makeContiguous`. -/
def makeContiguous (pageSize page1 page2 : ℕ) (t : PageTable) : Option PageTable :=
  if page1 = page2 then some t
  else (getContiguousPage pageSize page1 t).map fun c => swapPages c page2 t

/-- The loop of `loadProcessPages`; `p1` and `p2` are its variables and `i` is the order looked for
next. It stops after `fuel` rounds. -/
def loadLoop (pageSize pid : ℕ) : ℕ → ℕ → Option ℕ → ℤ → PageTable → Option PageTable
  | _, _, none, _, t => some t
  | 0, _, some _, _, _ => none
  | fuel + 1, p1, some p2, i, t =>
    (makeContiguous pageSize p1 p2 t).bind fun t =>
      loadLoop pageSize pid fuel p2 (findPage pid i t).1 (i + 1) (findPage pid i t).2

/-- `loadProcessPages`. Each round of its loop finds a page of another order, so there are at most
as many rounds as frames. -/
def loadProcessPages (pageSize pid : ℕ) (t : PageTable) : Option PageTable :=
  match findPage pid 1 t with
  | (none, _) => none
  | (some p, t) =>
    let t := swapPages 0 p t
    loadLoop pageSize pid t.length 0 (findPage pid 2 t).1 3 (findPage pid 2 t).2

/-! ### Evicting pages -/

/-- `n->swapclock++`. -/
def SpaceNode.tickClock (n : SpaceNode) : SpaceNode := { n with swapclock := n.swapclock + 1 }

/-- The loop of `getVictimPage`, at the frame `i`: it goes back while the frames belong to `pid`
and their clock is below 3, and it advances the clock of each frame it goes back to. In front of
the first frame it dereferences `NULL`. -/
def victimLoop (pid : ℕ) : ℕ → PageTable → Option (ℕ × PageTable)
  | i, t =>
    match t[i]? with
    | none => none
    | some n =>
      if n.pid = pid ∧ n.swapclock < 3 then
        match i with
        | 0 => none
        | i + 1 => victimLoop pid i (t.modify i SpaceNode.tickClock)
      else some (i, t)

/-- `getVictimPage`. -/
def getVictimPage (pid : ℕ) (t : PageTable) : Option (ℕ × PageTable) :=
  victimLoop pid (t.length - 1) t

/-- What `movePageToSwap` writes in the free slot. -/
def SpaceNode.store (slot evict : SpaceNode) : SpaceNode :=
  { slot with
    pid := evict.pid
    free := false
    reference := evict.reference
    dataStartsAnotherPage := evict.dataStartsAnotherPage
    size := evict.size
    order := evict.order }

/-- `removeSpace(evict, PAGE)` on a descriptor in use. -/
def SpaceNode.release (n : SpaceNode) : SpaceNode := { n with free := true, pid := 0 }

/-- `movePageToSwap`, with the file operations succeeding: whether a page was moved. -/
def movePageToSwap (pid : ℕ) (s : PageState) : Option (Bool × PageState) :=
  (getVictimPage pid s.frames).bind fun (i, t) =>
    match s.swap.findIdx? (·.free), t[i]? with
    | some k, some evict =>
      some (true, { s with
        frames := t.modify i SpaceNode.release
        swap := s.swap.modify k fun slot => slot.store evict })
    | _, _ => some (false, { s with frames := t })

/-- The frame is taken by `pid`. -/
def SpaceNode.take (pid : ℕ) (n : SpaceNode) : SpaceNode := { n with free := false, pid := pid }

/-- The end of `getFreePage`: the free frame `n` is taken and exchanged with the first one. -/
def takePage (pid n : ℕ) (s : PageState) : PageState :=
  { s with frames := swapPages 0 n (s.frames.modify n (SpaceNode.take pid)) }

/-- `getFreePage`: whether a page was obtained, which is then in the first frame. The source calls
itself again after a page was moved to the swap file; then there is a free frame. -/
def getFreePage (pid : ℕ) (s : PageState) : Option (Bool × PageState) :=
  match findFreePage s.frames with
  | some n => some (true, takePage pid n s)
  | none =>
    (movePageToSwap pid s).bind fun (moved, s) =>
      if moved then
        (findFreePage s.frames).map fun n => (true, takePage pid n s)
      else some (false, s)

/-! ### Growing a process -/

/-- The loop over the orders from `i` on that `getLastProcessPage` and `joinFreeSpace` share: the
last page found. -/
def lastPageLoop (pid : ℕ) : ℕ → Option ℕ → ℤ → PageTable → Option ℕ × PageTable
  | 0, last, _, t => (last, t)
  | fuel + 1, last, i, t =>
    match findPage pid i t with
    | (none, t) => (last, t)
    | (some p, t) => lastPageLoop pid fuel (some p) (i + 1) t

/-- `getLastProcessPage`. -/
def getLastProcessPage (pid : ℕ) (t : PageTable) : Option ℕ × PageTable :=
  lastPageLoop pid t.length (findPage pid 1 t).1 2 (findPage pid 1 t).2

/-- The second loop of `joinFreeSpace`, going back over the pages whose data starts on another
page. Only the clocks of the frames change. -/
def continuationLoop (pid : ℕ) : ℕ → Option ℕ → ℤ → PageTable → PageTable
  | 0, _, _, t => t
  | fuel + 1, p, i, t =>
    match p.bind (t[·]?) with
    | some n =>
      if n.dataStartsAnotherPage then
        continuationLoop pid fuel (findPage pid i t).1 (i - 1) (findPage pid i t).2
      else t
    | none => t

/-- `joinFreeSpace(first frame, pid)` on the descriptors. `lastFree` says whether the last block of
the last page is free. The new page continues that block when the last page is not itself a
continuation: after the loop the variable `prev` is a continuation page if there was one. -/
def joinFreeSpace (pid : ℕ) (lastFree : Bool) (t : PageTable) : Option PageTable :=
  match getLastProcessPage pid t with
  | (none, _) => none
  | (some p, t) =>
    (t[p]?).map fun last =>
      let t := continuationLoop pid (t.length + 1) (some p) (last.order - 1) t
      if !last.dataStartsAnotherPage && lastFree then
        t.modify 0 fun n => { n with dataStartsAnotherPage := true }
      else t

/-- `newPage->order = order`, the new page being the first frame. -/
def setOrder (order : ℤ) (t : PageTable) : PageTable :=
  t.modify 0 fun n => { n with order := order }

/-- `newPage->order = last->order + 1`. -/
def setLastOrder (pid : ℕ) (t : PageTable) : Option PageTable :=
  match getLastProcessPage pid t with
  | (none, _) => none
  | (some p, t) => (t[p]?).map fun last => setOrder (last.order + 1) t

/-- `reserveAnotherPage`: whether a page was obtained. -/
def reserveAnotherPage (pid : ℕ) (lastFree : Bool) (s : PageState) : Option (Bool × PageState) :=
  (getFreePage pid s).bind fun (ok, s) =>
    if ok then
      (joinFreeSpace pid lastFree (setOrder (-1) s.frames)).bind fun t =>
        (setLastOrder pid t).bind fun t =>
          (loadProcessPages s.pageSize pid t).map fun t => (true, { s with frames := t })
    else some (false, s)

/-! ### Initialisation -/

/-- A loop of `init`: descriptors are written one after the other while the next one lies below
`nodeLimit` and the pages described so far take less than `maxSize` bytes. -/
def initNodes (pageSize nodeLimit maxSize : ℕ) (node : ℕ → SpaceNode) : ℕ → ℕ → PageTable
  | 0, _ => []
  | fuel + 1, i =>
    if sizeofSpaceNode * i < nodeLimit ∧ i * pageSize < maxSize then
      let more := sizeofSpaceNode * (i + 1) < nodeLimit ∧ (i + 1) * pageSize < maxSize
      { node i with
        prev := if i = 0 then none else some (i - 1)
        next := if more then some (i + 1) else none } ::
        initNodes pageSize nodeLimit maxSize node fuel (i + 1)
    else []

/-- The descriptor of a free page; `init` does not set `reference`. -/
def freeNode (pageSize start reference : ℕ) (order : ℤ) : SpaceNode where
  pid := 0
  reference := reference
  free := true
  order := order
  start := start
  size := pageSize
  next := none
  prev := none
  dataStartsAnotherPage := false
  swapclock := 0

/-- The last four pages are shared. -/
def sharedMemoryStart (pageSize : ℕ) : ℕ := physicalSize - 4 * pageSize

/-- The page table that `init` sets up; `reference` is what it leaves in that field. -/
def initFrames (pageSize reference : ℕ) : PageTable :=
  initNodes pageSize (osReservedStart - sizeofSpaceNode)
    (physicalSize - 4 * pageSize - memoryStart)
    (fun i => freeNode pageSize (memoryStart + i * pageSize) reference 1) osReservedStart 0

/-- The swap file that `init` writes. -/
def initSwap (pageSize reference : ℕ) : PageTable :=
  initNodes pageSize (swapMemoryStart - sizeofSpaceNode) (swapSize - (swapMemoryStart + pageSize))
    (fun i => freeNode pageSize (swapMemoryStart + i * pageSize) reference 0) swapMemoryStart 0

/-- `init`, as far as pages are concerned. -/
def init (pageSize reference : ℕ) : PageState :=
  ⟨pageSize, initFrames pageSize reference, initSwap pageSize reference⟩

/-! ### Loading pages permutes the descriptors -/

/-- What a descriptor says about the page in the frame. -/
def SpaceNode.info (n : SpaceNode) : ℕ × ℤ × Bool × ℕ × ℕ × Bool :=
  (n.pid, n.order, n.free, n.reference, n.size, n.dataStartsAnotherPage)

/-- The two tables differ in clocks only. -/
def ClocksOnly (t t' : PageTable) : Prop := t'.map SpaceNode.touch = t.map SpaceNode.touch

theorem ClocksOnly.refl (t : PageTable) : ClocksOnly t t := rfl

theorem ClocksOnly.trans {t₁ t₂ t₃ : PageTable} (h : ClocksOnly t₁ t₂) (h' : ClocksOnly t₂ t₃) :
    ClocksOnly t₁ t₃ :=
  Eq.trans h' h

/-- What does not depend on the clocks is the same. -/
theorem ClocksOnly.map_eq {β : Type*} {g : SpaceNode → β} {t t' : PageTable}
    (h : ClocksOnly t t') (hg : ∀ n : SpaceNode, g n.touch = g n) : t'.map g = t.map g := by
  have hmap (l : PageTable) : l.map g = (l.map SpaceNode.touch).map g := by
    rw [List.map_map]
    exact List.map_congr_left fun n _ => (hg n).symm
  rw [hmap t', hmap t, h]

theorem clocksOnly_findPage (pid : ℕ) (order : ℤ) (t : PageTable) :
    ClocksOnly t (findPage pid order t).2 := by
  rw [findPage]
  split
  · exact .refl t
  · exact map_modify_eq SpaceNode.touch (f := SpaceNode.touch) (fun _ => rfl) t _

theorem map_info_findPage (pid : ℕ) (order : ℤ) (t : PageTable) :
    (findPage pid order t).2.map SpaceNode.info = t.map SpaceNode.info :=
  (clocksOnly_findPage pid order t).map_eq fun _ => rfl

theorem perm_swapPages (i j : ℕ) (t : PageTable) :
    ((swapPages i j t).map SpaceNode.info).Perm (t.map SpaceNode.info) := by
  rw [swapPages]
  split_ifs with hij
  · exact List.Perm.refl _
  · split
    · rename_i p q hp hq
      have hi : (t.map SpaceNode.info)[i]? = some p.info := by rw [List.getElem?_map, hp]; rfl
      have hj : (t.map SpaceNode.info)[j]? = some q.info := by rw [List.getElem?_map, hq]; rfl
      rw [List.map_set, List.map_set]
      exact set_set_perm hi hj hij
    · exact List.Perm.refl _

theorem perm_makeContiguous {pageSize page1 page2 : ℕ} {t t' : PageTable}
    (h : makeContiguous pageSize page1 page2 t = some t') :
    (t'.map SpaceNode.info).Perm (t.map SpaceNode.info) := by
  rw [makeContiguous] at h
  split_ifs at h
  · obtain rfl := Option.some.inj h
    exact List.Perm.refl _
  · obtain ⟨c, -, rfl⟩ := Option.map_eq_some_iff.mp h
    exact perm_swapPages c page2 t

theorem perm_loadLoop {pageSize pid fuel p1 : ℕ} {p2 : Option ℕ} {i : ℤ} {t t' : PageTable}
    (h : loadLoop pageSize pid fuel p1 p2 i t = some t') :
    (t'.map SpaceNode.info).Perm (t.map SpaceNode.info) := by
  induction fuel generalizing p1 p2 i t with
  | zero =>
    cases p2 with
    | none =>
      obtain rfl : t = t' := by simpa [loadLoop] using h
      exact List.Perm.refl _
    | some p => simp [loadLoop] at h
  | succ fuel ih =>
    cases p2 with
    | none =>
      obtain rfl : t = t' := by simpa [loadLoop] using h
      exact List.Perm.refl _
    | some p =>
      obtain ⟨t₁, hc, h⟩ := Option.bind_eq_some_iff.mp h
      have hl := ih h
      rw [map_info_findPage] at hl
      exact hl.trans (perm_makeContiguous hc)

/-- `loadProcessPages` permutes the descriptors. -/
theorem perm_loadProcessPages {pageSize pid : ℕ} {t t' : PageTable}
    (h : loadProcessPages pageSize pid t = some t') :
    (t'.map SpaceNode.info).Perm (t.map SpaceNode.info) := by
  rw [loadProcessPages] at h
  have hfind := map_info_findPage pid 1 t
  split at h
  · cases h
  · rename_i p t₁ heq
    rw [heq] at hfind
    have hl := perm_loadLoop h
    rw [map_info_findPage] at hl
    exact hl.trans ((perm_swapPages 0 p t₁).trans (hfind ▸ List.Perm.refl _))

end OSDesign.VM
