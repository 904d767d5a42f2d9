import Mathlib.Tactic
import OSDesign.Lib.MemoryView
import OSDesign.VM.Allocator
import OSDesign.VM.Isolation

/-!
# Pages with their bytes

The page table and the swap file of `OSDesign.VM.PageTable` together with the bytes of the memory
and of the slots of the file. An exchange of two frames copies the pages and then rewrites the
pointers of the block lists in them; an allocation of a thread walks the lists in its pages, and
enlarges the last block of the last page when the thread is given another page.

A list that has not ended after `fuel` records is `none`, as is an operation that dereferences
`NULL`.

## Main definitions

* `VMState`, `restoreRecords`, `restoreElementsPointers`.
* `VMState.swapPages`, `VMState.loadProcessPages`, `VMState.movePageToSwap`, `VMState.getFreePage`,
  `VMState.joinFreeSpace`, `VMState.reserveAnotherPage`, `VMState.getFreeElement`.

## Main results

* `VMState.loadProcessPages_eq_some`, `VMState.getFreePage_pages`,
  `VMState.reserveAnotherPage_pages`: the descriptors change as in `OSDesign.VM.PageTable`.
-/

namespace OSDesign.VM

open ByteMemory ListUpdate

/-- The memory: its address `mem`, the page size, the page table and the bytes. The swap file: the
descriptors of the slots, and the bytes of each slot. -/
structure VMState where
  base : ℕ
  pageSize : ℕ
  frames : PageTable
  bytes : Memory
  swap : PageTable
  slots : ℕ → Memory

/-! ### Pointers inside a page -/

/-- The loop of `restorePointers(n, size, 1)`, with its variables `s`, `old` and `n`. The records
are found by their sizes alone. -/
def restoreLoop (size : ℕ) : ℕ → ℕ → ℕ → ℕ → Memory → Memory
  | 0, _, old, _, m => nextField.set m old 0
  | fuel + 1, s, old, n, m =>
    if s < size ∧ sizeofSpaceNode < size - s then
      let offset := sizeofSpaceNode + sizeField.get m n
      let m := nextField.set m n (n + offset)
      let m := prevField.set m n old
      let m := startField.set m n (n + sizeofSpaceNode)
      restoreLoop size fuel (s + offset) n (n + offset) m
    else nextField.set m old 0

/-- The memory after the loop. Every round advances, so `size` rounds are enough. -/
def restoreRecords (m : Memory) (n size : ℕ) : Memory := restoreLoop size size 0 0 n m

/-- `restoreElementsPointers`. When there is no room behind a first record, the loop is not entered,
and the code follows the `NULL` pointer `old`; when `size` is 0 it calls `exit`. -/
def restoreElementsPointers (m : Memory) (n size : ℕ) : Option Memory :=
  if size ≤ sizeofSpaceNode then none else some (restoreRecords m n size)

/-- The loop of `getLastElement`. -/
def getLastElement (m : Memory) : ℕ → ℕ → Option ℕ
  | 0, _ => none
  | fuel + 1, last =>
    let e := nextField.get m last
    if e = 0 then some last else getLastElement m fuel e

namespace VMState

/-- The pages without their bytes. -/
def pages (s : VMState) : PageState := ⟨s.pageSize, s.frames, s.swap⟩

/-- The state with another page table. -/
def withFrames (s : VMState) (t : PageTable) : VMState := { s with frames := t }

/-! ### Moving pages -/

/-- `swapPages`: the descriptors and the bytes of the pages are exchanged, and the pointers in both
pages are rewritten. -/
def swapPages (i j : ℕ) (s : VMState) : Option VMState :=
  if i = j then some s
  else
    (s.frames[i]?).bind fun p1 =>
      (s.frames[j]?).bind fun p2 =>
        (restoreElementsPointers
          (exchange s.bytes (s.base + p1.start) (s.base + p2.start) s.pageSize)
            (s.base + p1.start) p2.size).bind fun m =>
          (restoreElementsPointers m (s.base + p2.start) p1.size).map fun m =>
            { s with frames := VM.swapPages i j s.frames, bytes := m }

/-- `findPage`. -/
def findPage (pid : ℕ) (order : ℤ) (s : VMState) : Option ℕ × VMState :=
  ((VM.findPage pid order s.frames).1, s.withFrames (VM.findPage pid order s.frames).2)

/-- `makeContiguous`. -/
def makeContiguous (page1 page2 : ℕ) (s : VMState) : Option VMState :=
  if page1 = page2 then some s
  else (getContiguousPage s.pageSize page1 s.frames).bind fun c => s.swapPages c page2

/-- The loop of `loadProcessPages`. -/
def loadLoop (pid : ℕ) : ℕ → ℕ → Option ℕ → ℤ → VMState → Option VMState
  | _, _, none, _, s => some s
  | 0, _, some _, _, _ => none
  | fuel + 1, p1, some p2, i, s =>
    (s.makeContiguous p1 p2).bind fun s =>
      loadLoop pid fuel p2 (s.findPage pid i).1 (i + 1) (s.findPage pid i).2

/-- `loadProcessPages`. -/
def loadProcessPages (pid : ℕ) (s : VMState) : Option VMState :=
  (s.findPage pid 1).1.bind fun p =>
    ((s.findPage pid 1).2.swapPages 0 p).bind fun s =>
      loadLoop pid s.frames.length 0 (s.findPage pid 2).1 3 (s.findPage pid 2).2

/-! ### Giving out pages -/

/-- `movePageToSwap` for the victim that `getVictimPage` has returned, `none` being `NULL`, with the
file operations succeeding: whether the page was moved. -/
def movePageToSwap (victim : Option ℕ) (s : VMState) : Option (Bool × VMState) :=
  match victim with
  | none => some (false, s)
  | some i =>
    (s.frames[i]?).map fun evict =>
      match s.swap.findIdx? (·.free) with
      | none => (false, s)
      | some k =>
        (true, { s with
          frames := s.frames.modify i SpaceNode.release
          swap := s.swap.modify k fun slot => slot.store evict
          slots := Function.update s.slots k
            (paste (s.slots k) 0 (view s.bytes (s.base + evict.start)) s.pageSize) })

/-- The free frame `n` is taken and made one free block. -/
def takeFrame (pid n : ℕ) (junk : ℕ → UInt8) (s : VMState) : Option VMState :=
  (s.frames[n]?).map fun f =>
    { s with
      frames := s.frames.modify n (SpaceNode.take pid)
      bytes := initializeSpace s.bytes (s.base + f.start) f.size junk }

/-- The recursion of `getFreePage`: whether a page was obtained, which is then in the first frame.
`choose` is the choice of a victim, which may change clocks. -/
def getFreePageLoop (choose : PageTable → Option (Option ℕ × PageTable)) (pid : ℕ)
    (junk : ℕ → UInt8) : ℕ → VMState → Option (Bool × VMState)
  | 0, _ => none
  | fuel + 1, s =>
    match findFreePage s.frames with
    | some n => (s.takeFrame pid n junk).bind fun s => (s.swapPages 0 n).map fun s => (true, s)
    | none =>
      (choose s.frames).bind fun (victim, t) =>
        ((s.withFrames t).movePageToSwap victim).bind fun (moved, s) =>
          if moved then getFreePageLoop choose pid junk fuel s else some (false, s)

/-- `getVictimPage`. -/
def chooseVictim (pid : ℕ) (t : PageTable) : Option (Option ℕ × PageTable) :=
  (getVictimPage pid t).map fun (i, t) => (some i, t)

/-- `getFreePage`. After an eviction there is a free frame, so it calls itself at most once. -/
def getFreePage (pid : ℕ) (junk : ℕ → UInt8) (s : VMState) : Option (Bool × VMState) :=
  getFreePageLoop (chooseVictim pid) pid junk 2 s

/-- The descriptor of the last page of the process. -/
def lastPage (pid : ℕ) (s : VMState) : Option SpaceNode :=
  (getLastProcessPage pid s.frames).1.bind (s.frames[·]?)

/-- The end of `joinFreeSpace`, where `e` is the last block of the last page. -/
def joinElement (pid e : ℕ) (s : VMState) : Option VMState :=
  (s.frames[0]?).bind fun newPage =>
    if freeField.get s.bytes e ≠ 0 then
      (VM.joinFreeSpace pid true s.frames).map fun t =>
        { s with
          frames := t
          bytes := sizeField.set s.bytes e (sizeField.get s.bytes e + newPage.size) }
    else (VM.joinFreeSpace pid false s.frames).map s.withFrames

/-- `joinFreeSpace(first frame, pid)`. -/
def joinFreeSpace (pid fuel : ℕ) (s : VMState) : Option VMState :=
  (s.lastPage pid).bind fun last =>
    if last.dataStartsAnotherPage then (VM.joinFreeSpace pid false s.frames).map s.withFrames
    else (getLastElement s.bytes fuel (s.base + last.start)).bind fun e => s.joinElement pid e

/-- `reserveAnotherPage` up to the call of `loadProcessPages`. -/
def appendPage (pid fuel : ℕ) (s : VMState) : Option VMState :=
  ((s.withFrames (setOrder (-1) s.frames)).joinFreeSpace pid fuel).bind fun s =>
    (setLastOrder pid s.frames).map s.withFrames

/-- `reserveAnotherPage`: whether a page was obtained. -/
def reserveAnotherPage (pid fuel : ℕ) (junk : ℕ → UInt8) (s : VMState) : Option (Bool × VMState) :=
  (s.getFreePage pid junk).bind fun (ok, s) =>
    if ok then
      (s.appendPage pid fuel).bind fun s => (s.loadProcessPages pid).map fun s => (true, s)
    else some (false, s)

/-! ### Allocating -/

/-- The loop of `getFreeElement` over the pages from the second one on. -/
def searchLoop (pid size fuel : ℕ) : ℕ → Option ℕ → ℤ → VMState → Option (ℕ × VMState)
  | _, none, _, s => some (0, s)
  | 0, some _, _, _ => none
  | rounds + 1, some p, i, s =>
    (s.frames[p]?).bind fun f =>
      (findFreeSpace s.bytes size fuel (s.base + f.start)).bind fun n =>
        if n ≠ 0 then some (n, (s.findPage pid i).2)
        else searchLoop pid size fuel rounds (s.findPage pid i).1 (i + 1) (s.findPage pid i).2

/-- The first part of `getFreeElement`: the pages are loaded and searched for a free block. There
are at most as many pages as frames. -/
def search (pid size fuel : ℕ) (s : VMState) : Option (ℕ × VMState) :=
  (s.loadProcessPages pid).bind fun s =>
    let s := s.withFrames (setReference s.frames)
    (s.frames[0]?).bind fun p =>
      (findFreeSpace s.bytes size fuel (s.base + p.start)).bind fun n =>
        if n ≠ 0 then some (n, s)
        else searchLoop pid size fuel s.frames.length (s.findPage pid 2).1 3 (s.findPage pid 2).2

/-- The last part of `getFreeElement`: the address of the data of the block, or 0. -/
def cut (n size : ℕ) (junk : ℕ → UInt8) (s : VMState) : ℕ × VMState :=
  match createSpace s.bytes n size junk with
  | (false, m) => (0, { s with bytes := m })
  | (true, m) => (startField.get m n, { s with bytes := m })

/-- `getFreeElement` for the running thread `pid`. It calls itself after each page reserved; `junk`
are the bytes not set in the records that each of the calls writes. -/
def getFreeElement (pid size fuel : ℕ) (junk : ℕ → ℕ → UInt8) : ℕ → VMState → Option (ℕ × VMState)
  | 0, _ => none
  | rounds + 1, s =>
    (s.search pid size fuel).bind fun (n, s) =>
      if n = 0 then
        (s.reserveAnotherPage pid fuel (junk rounds)).bind fun (ok, s) =>
          if ok then getFreeElement pid size fuel junk rounds s else some (0, s)
      else some (s.cut n size (junk rounds))

/-! ### The descriptors -/

section Descriptors

variable {s s' : VMState} {pid : ℕ}

/-- An exchange, frame by frame. -/
theorem swapPages_eq_some {i j : ℕ} (h : s.swapPages i j = some s') :
    ∃ m, s' = { s with frames := VM.swapPages i j s.frames, bytes := m } := by
  rw [swapPages] at h
  split_ifs at h with hij
  · obtain rfl := Option.some.inj h
    exact ⟨s.bytes, by rw [VM.swapPages, if_pos hij]⟩
  · obtain ⟨p1, -, h⟩ := Option.bind_eq_some_iff.mp h
    obtain ⟨p2, -, h⟩ := Option.bind_eq_some_iff.mp h
    obtain ⟨m₁, -, h⟩ := Option.bind_eq_some_iff.mp h
    obtain ⟨m₂, -, rfl⟩ := Option.map_eq_some_iff.mp h
    exact ⟨m₂, rfl⟩

theorem makeContiguous_eq_some {p1 p2 : ℕ} (h : s.makeContiguous p1 p2 = some s') :
    ∃ t m, VM.makeContiguous s.pageSize p1 p2 s.frames = some t ∧
      s' = { s with frames := t, bytes := m } := by
  rw [makeContiguous] at h
  rw [VM.makeContiguous]
  split_ifs at h ⊢ with hp
  · obtain rfl := Option.some.inj h
    exact ⟨s.frames, s.bytes, rfl, rfl⟩
  · obtain ⟨c, hc, h⟩ := Option.bind_eq_some_iff.mp h
    obtain ⟨m, rfl⟩ := swapPages_eq_some h
    exact ⟨_, m, by rw [hc]; rfl, rfl⟩

theorem loadLoop_eq_some {fuel p1 : ℕ} {p2 : Option ℕ} {i : ℤ}
    (h : s.loadLoop pid fuel p1 p2 i = some s') :
    ∃ t m, VM.loadLoop s.pageSize pid fuel p1 p2 i s.frames = some t ∧
      s' = { s with frames := t, bytes := m } := by
  induction fuel generalizing s p1 p2 i with
  | zero =>
    cases p2 with
    | none => exact ⟨s.frames, s.bytes, rfl, (Option.some.inj h).symm⟩
    | some p2 => cases h
  | succ fuel ih =>
    cases p2 with
    | none => exact ⟨s.frames, s.bytes, rfl, (Option.some.inj h).symm⟩
    | some p2 =>
      obtain ⟨s₁, hmake, h⟩ := Option.bind_eq_some_iff.mp h
      obtain ⟨t₁, m₁, ht₁, rfl⟩ := makeContiguous_eq_some hmake
      obtain ⟨t, m, ht, rfl⟩ := ih h
      exact ⟨t, m, by rw [VM.loadLoop, ht₁]; exact ht, rfl⟩

/-- `loadProcessPages` on the descriptors. -/
theorem loadProcessPages_eq_some (h : s.loadProcessPages pid = some s') :
    ∃ t m, VM.loadProcessPages s.pageSize pid s.frames = some t ∧
      s' = { s with frames := t, bytes := m } := by
  obtain ⟨p, hp, h⟩ := Option.bind_eq_some_iff.mp h
  obtain ⟨s₁, hswap, h⟩ := Option.bind_eq_some_iff.mp h
  obtain ⟨m₁, rfl⟩ := swapPages_eq_some hswap
  obtain ⟨t, m, ht, rfl⟩ := loadLoop_eq_some h
  refine ⟨t, m, ?_, rfl⟩
  rw [VM.loadProcessPages, ← Prod.mk.eta (p := VM.findPage pid 1 s.frames),
    show (VM.findPage pid 1 s.frames).1 = some p from hp]
  exact ht

/-- What `movePageToSwap` does: nothing, or the page of the victim goes to the first free slot. -/
theorem movePageToSwap_eq_some {victim : Option ℕ} {moved : Bool}
    (h : s.movePageToSwap victim = some (moved, s')) :
    (moved = false ∧ s' = s ∧ (victim = none ∨ s.swap.findIdx? (·.free) = none)) ∨
      (moved = true ∧ ∃ i k evict, victim = some i ∧ s.frames[i]? = some evict ∧
        s.swap.findIdx? (·.free) = some k ∧
        s' = { s with
          frames := s.frames.modify i SpaceNode.release
          swap := s.swap.modify k fun slot => slot.store evict
          slots := Function.update s.slots k
            (paste (s.slots k) 0 (view s.bytes (s.base + evict.start)) s.pageSize) }) := by
  cases victim with
  | none =>
    obtain ⟨rfl, rfl⟩ := Prod.mk.inj (Option.some.inj h)
    exact Or.inl ⟨rfl, rfl, Or.inl rfl⟩
  | some i =>
    obtain ⟨evict, hevict, h⟩ := Option.map_eq_some_iff.mp h
    split at h
    · rename_i hk
      obtain ⟨rfl, rfl⟩ := Prod.mk.inj h
      exact Or.inl ⟨rfl, rfl, Or.inr hk⟩
    · rename_i k hk
      obtain ⟨rfl, rfl⟩ := Prod.mk.inj h
      exact Or.inr ⟨rfl, i, k, evict, rfl, hevict, hk, rfl⟩

/-- A page is given out from a free frame. -/
theorem takeFrame_swapPages_pages {n : ℕ} {junk : ℕ → UInt8} {s₁ : VMState}
    (htake : s.takeFrame pid n junk = some s₁) (hswap : s₁.swapPages 0 n = some s') :
    ∃ m, s' = { s with frames := (takePage pid n s.pages).frames, bytes := m } := by
  obtain ⟨f, -, rfl⟩ := Option.map_eq_some_iff.mp htake
  obtain ⟨m, rfl⟩ := swapPages_eq_some hswap
  exact ⟨m, rfl⟩

/-- The two ways in which the recursion of `getFreePage` begins. -/
theorem getFreePageLoop_eq_some {choose : PageTable → Option (Option ℕ × PageTable)}
    {junk : ℕ → UInt8} {fuel : ℕ} {ok : Bool}
    (h : s.getFreePageLoop choose pid junk (fuel + 1) = some (ok, s')) :
    (∃ n s₁, findFreePage s.frames = some n ∧ ok = true ∧ s.takeFrame pid n junk = some s₁ ∧
        s₁.swapPages 0 n = some s') ∨
      (findFreePage s.frames = none ∧ ∃ victim t moved s₁, choose s.frames = some (victim, t) ∧
        (s.withFrames t).movePageToSwap victim = some (moved, s₁) ∧
        ((moved = false ∧ ok = false ∧ s' = s₁) ∨
          (moved = true ∧ s₁.getFreePageLoop choose pid junk fuel = some (ok, s')))) := by
  rw [getFreePageLoop] at h
  split at h
  · rename_i n hn
    obtain ⟨s₁, htake, h⟩ := Option.bind_eq_some_iff.mp h
    obtain ⟨s₂, hswap, h⟩ := Option.map_eq_some_iff.mp h
    obtain ⟨rfl, rfl⟩ := Prod.mk.inj h
    exact Or.inl ⟨n, s₁, hn, rfl, htake, hswap⟩
  · rename_i hn
    obtain ⟨⟨victim, t⟩, hchoose, h⟩ := Option.bind_eq_some_iff.mp h
    obtain ⟨⟨moved, s₁⟩, hmove, h⟩ := Option.bind_eq_some_iff.mp h
    refine Or.inr ⟨hn, victim, t, moved, s₁, hchoose, hmove, ?_⟩
    cases moved with
    | false =>
      obtain ⟨rfl, rfl⟩ := Prod.mk.inj (Option.some.inj h)
      exact Or.inl ⟨rfl, rfl, rfl⟩
    | true => exact Or.inr ⟨rfl, h⟩

/-- `getFreePage` on the descriptors. -/
theorem getFreePage_pages {junk : ℕ → UInt8} {ok : Bool}
    (h : s.getFreePage pid junk = some (ok, s')) :
    VM.getFreePage pid s.pages = some (ok, s'.pages) := by
  rcases getFreePageLoop_eq_some h with ⟨n, s₁, hn, rfl, htake, hswap⟩ |
    ⟨hn, victim, t, moved, s₁, hchoose, hmove, hrest⟩
  · obtain ⟨m, rfl⟩ := takeFrame_swapPages_pages htake hswap
    rw [VM.getFreePage, show findFreePage s.pages.frames = some n from hn]
    rfl
  · obtain ⟨⟨i, t'⟩, hvictim, heq⟩ := Option.map_eq_some_iff.mp hchoose
    obtain ⟨rfl, rfl⟩ := Prod.mk.inj heq
    rw [VM.getFreePage, show findFreePage s.pages.frames = none from hn]
    dsimp only
    rw [VM.movePageToSwap, show VM.getVictimPage pid s.pages.frames = some (i, t') from hvictim]
    rcases movePageToSwap_eq_some hmove with ⟨rfl, rfl, hnone⟩ |
      ⟨rfl, i', k, evict, hi, hevict, hk, rfl⟩
    · rcases hrest with ⟨-, rfl, rfl⟩ | ⟨hf, -⟩
      · have hslot : s.swap.findIdx? (·.free) = none := hnone.resolve_left (by simp)
        simp only [Option.bind_some, pages, hslot]
        rfl
      · cases hf
    · obtain rfl := Option.some.inj hi
      rcases hrest with ⟨hf, -⟩ | ⟨-, hloop⟩
      · cases hf
      have hk' : s.pages.swap.findIdx? (·.free) = some k := hk
      have hevict' : t'[i]? = some evict := hevict
      simp only [Option.bind_some, hk', hevict', if_true]
      rcases getFreePageLoop_eq_some hloop with ⟨n, s₂, hn₂, rfl, htake, hswap⟩ | ⟨hn₂, -⟩
      · obtain ⟨m, rfl⟩ := takeFrame_swapPages_pages htake hswap
        have hn₂' : findFreePage (t'.modify i SpaceNode.release) = some n := hn₂
        simp only [hn₂', Option.map_some]
        rfl
      · exact absurd hn₂ (findFreePage_release hevict)

theorem joinElement_eq_some {e : ℕ} (h : s.joinElement pid e = some s') :
    ∃ lastFree t m, VM.joinFreeSpace pid lastFree s.frames = some t ∧
      s' = { s with frames := t, bytes := m } := by
  obtain ⟨newPage, -, h⟩ := Option.bind_eq_some_iff.mp h
  split_ifs at h with hfree
  · obtain ⟨t, ht, rfl⟩ := Option.map_eq_some_iff.mp h
    exact ⟨true, t, _, ht, rfl⟩
  · obtain ⟨t, ht, rfl⟩ := Option.map_eq_some_iff.mp h
    exact ⟨false, t, _, ht, rfl⟩

theorem joinFreeSpace_eq_some {fuel : ℕ} (h : s.joinFreeSpace pid fuel = some s') :
    ∃ lastFree t m, VM.joinFreeSpace pid lastFree s.frames = some t ∧
      s' = { s with frames := t, bytes := m } := by
  obtain ⟨last, -, h⟩ := Option.bind_eq_some_iff.mp h
  split_ifs at h with hcont
  · obtain ⟨t, ht, rfl⟩ := Option.map_eq_some_iff.mp h
    exact ⟨false, t, _, ht, rfl⟩
  · obtain ⟨e, -, h⟩ := Option.bind_eq_some_iff.mp h
    exact joinElement_eq_some h

theorem appendPage_eq_some {fuel : ℕ} (h : s.appendPage pid fuel = some s') :
    ∃ lastFree t₂ t₃ m, VM.joinFreeSpace pid lastFree (setOrder (-1) s.frames) = some t₂ ∧
      setLastOrder pid t₂ = some t₃ ∧ s' = { s with frames := t₃, bytes := m } := by
  obtain ⟨s₂, hjoin, h⟩ := Option.bind_eq_some_iff.mp h
  obtain ⟨lastFree, t₂, m, ht₂, rfl⟩ := joinFreeSpace_eq_some hjoin
  obtain ⟨t₃, ht₃, rfl⟩ := Option.map_eq_some_iff.mp h
  exact ⟨lastFree, t₂, t₃, m, ht₂, ht₃, rfl⟩

/-- `reserveAnotherPage` on the descriptors. -/
theorem reserveAnotherPage_pages {fuel : ℕ} {junk : ℕ → UInt8} {ok : Bool}
    (h : s.reserveAnotherPage pid fuel junk = some (ok, s')) :
    ∃ lastFree, VM.reserveAnotherPage pid lastFree s.pages = some (ok, s'.pages) := by
  obtain ⟨⟨got, s₁⟩, hget, h⟩ := Option.bind_eq_some_iff.mp h
  cases got with
  | false =>
    obtain ⟨rfl, rfl⟩ := Prod.mk.inj (Option.some.inj h)
    exact ⟨false, by rw [VM.reserveAnotherPage, getFreePage_pages hget]; rfl⟩
  | true =>
    obtain ⟨s₃, happend, h⟩ := Option.bind_eq_some_iff.mp h
    obtain ⟨s₄, hs₄, h⟩ := Option.map_eq_some_iff.mp h
    obtain ⟨rfl, rfl⟩ := Prod.mk.inj h
    obtain ⟨lastFree, t₂, t₃, m₃, hjoin, hset, rfl⟩ := appendPage_eq_some happend
    obtain ⟨t₄, m₄, hload, rfl⟩ := loadProcessPages_eq_some hs₄
    refine ⟨lastFree, ?_⟩
    rw [VM.reserveAnotherPage, getFreePage_pages hget]
    simp only [pages, Option.bind_some, if_true, hjoin, hset, hload, Option.map_some]

/-- Looking for pages changes clocks only, and only to 0. -/
theorem searchLoop_eq_some {size fuel rounds n : ℕ} {p : Option ℕ} {i : ℤ}
    (h : s.searchLoop pid size fuel rounds p i = some (n, s')) :
    ∃ t, ClocksOnly s.frames t ∧ (ClocksZero s.frames → ClocksZero t) ∧ s' = s.withFrames t := by
  induction rounds generalizing s p i with
  | zero =>
    cases p with
    | none => exact ⟨s.frames, .refl _, id, (Prod.mk.inj (Option.some.inj h)).2.symm⟩
    | some p => cases h
  | succ rounds ih =>
    cases p with
    | none => exact ⟨s.frames, .refl _, id, (Prod.mk.inj (Option.some.inj h)).2.symm⟩
    | some p =>
      obtain ⟨f, -, h⟩ := Option.bind_eq_some_iff.mp h
      obtain ⟨b, -, h⟩ := Option.bind_eq_some_iff.mp h
      have hfind := clocksOnly_findPage pid i s.frames
      have hzero (hz : ClocksZero s.frames) := forall_findPage (fun _ _ => rfl) hz pid i
      split_ifs at h with hb
      · exact ⟨_, hfind, hzero, (Prod.mk.inj (Option.some.inj h)).2.symm⟩
      · obtain ⟨t, ht, hz, rfl⟩ := ih h
        exact ⟨t, hfind.trans ht, fun hs => hz (hzero hs), rfl⟩

/-- After the pages are loaded, the search changes clocks and a reference bit only. -/
theorem search_eq_some {size fuel n : ℕ} (h : s.search pid size fuel = some (n, s')) :
    ∃ s₁ t, s.loadProcessPages pid = some s₁ ∧ ClocksOnly (setReference s₁.frames) t ∧
      (ClocksZero s₁.frames → ClocksZero t) ∧ s' = s₁.withFrames t := by
  obtain ⟨s₁, hload, h⟩ := Option.bind_eq_some_iff.mp h
  obtain ⟨p, -, h⟩ := Option.bind_eq_some_iff.mp h
  obtain ⟨b, -, h⟩ := Option.bind_eq_some_iff.mp h
  have hzero (hz : ClocksZero s₁.frames) : ClocksZero (setReference s₁.frames) :=
    forall_mem_modify hz fun n hn => hz n (List.mem_iff_getElem?.mpr ⟨0, hn⟩)
  refine ⟨s₁, ?_⟩
  split_ifs at h with hb
  · exact ⟨_, hload, .refl _, hzero, (Prod.mk.inj (Option.some.inj h)).2.symm⟩
  · obtain ⟨t, ht, hz, rfl⟩ := searchLoop_eq_some h
    exact ⟨t, hload, (clocksOnly_findPage ..).trans ht,
      fun hs => hz (forall_findPage (fun _ _ => rfl) (hzero hs) pid 2), rfl⟩

end Descriptors

end VMState

end OSDesign.VM
