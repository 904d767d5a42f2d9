import Mathlib.Tactic
import OSDesign.Lib.Transition
import OSDesign.VM.BlockList
import OSDesign.VM.Carried

/-!
# The data of the threads

Threads are created, allocate and free blocks, write bytes into their blocks, and have their pages
loaded, in any order. The state remembers the blocks that have not been freed, and for each byte
written in them the last value.

A byte of a block can be lost: `restorePointers` takes the first bytes of a page for a record also
when the page continues a block of the page before it, and rewrites three fields in it
(`continuation_byte_lost`). Along the runs in which no record is written over such a byte, and in
which the threads write in pages that are in place, every byte is read again after the pages of its
thread are loaded (`data_survives`).

## Main definitions

* `LiveBlock`, `DataState`, `DataEvent`, `dataStep`.
* `DataAllowed`: what a step must respect.

## Main results

* `data_survives`, `continuation_byte_lost`.
-/

namespace OSDesign.VM

open ByteMemory ListUpdate Transition

/-! ### Threads and their blocks -/

/-- A block that has been returned by the allocator and has not been freed. -/
structure LiveBlock where
  pid : ℕ
  ptr : ℕ
  size : ℕ
deriving DecidableEq

/-- The byte at `a` belongs to the block, which is one of `pid`. -/
def LiveBlock.Has (b : LiveBlock) (pid a : ℕ) : Prop := b.pid = pid ∧ b.ptr ≤ a ∧ a < b.ptr + b.size

instance (b : LiveBlock) (pid a : ℕ) : Decidable (b.Has pid a) :=
  inferInstanceAs (Decidable (_ ∧ _))

/-- The memory, the threads, their blocks, and the bytes that they have written in them. -/
structure DataState where
  vm : VMState
  threads : List ℕ
  live : List LiveBlock
  written : List Written

/-- What happens: `create` gives a new thread its first page, `alloc` is an allocation with
`THREADREQ`, `free` frees a block, `load` is `loadProcessPages` and `write` a write of a thread. -/
inductive DataEvent where
  | create (pid : ℕ) (junk : ℕ → UInt8)
  | alloc (pid size fuel : ℕ) (junk : ℕ → ℕ → UInt8)
  | free (b : LiveBlock)
  | load (pid : ℕ)
  | write (pid a : ℕ) (value : UInt8)

/-- The last value that `pid` has written at `a`. -/
def DataState.lastWritten (s : DataState) (pid a : ℕ) : Option UInt8 :=
  (s.written.find? fun w => w.pid = pid ∧ w.addr = a).map Written.value

/-- One event. Only blocks that have not been freed are freed, and threads write in their own blocks
only. -/
def dataStep (s : DataState) : DataEvent → Option DataState
  | .create pid junk =>
    if pid = 0 ∨ pid ∈ s.threads then none
    else (s.vm.getFreePage pid junk).bind fun (ok, vm) =>
      if ok then some { s with vm := vm, threads := pid :: s.threads } else none
  | .alloc pid size fuel junk =>
    if pid ∈ s.threads then
      (s.vm.getFreeElement pid size fuel junk fuel).map fun (ptr, vm) =>
        { s with vm := vm, live := if ptr = 0 then s.live else ⟨pid, ptr, size⟩ :: s.live }
    else none
  | .free b =>
    if b ∈ s.live then
      let live := s.live.erase b
      some { s with
        vm := { s.vm with bytes := removeSpace s.vm.bytes b.ptr }
        live := live
        written := s.written.filter fun w => ∃ b ∈ live, b.Has w.pid w.addr }
    else none
  | .load pid => (s.vm.loadProcessPages pid).map fun vm => { s with vm := vm }
  | .write pid a value =>
    if ∃ b ∈ s.live, b.Has pid a then
      some { s with
        vm := { s.vm with bytes := Function.update s.vm.bytes a value }
        written := ⟨pid, a, value⟩ :: s.written.filter fun w => ¬(w.pid = pid ∧ w.addr = a) }
    else none

/-- The state after `init`. -/
def VMState.init (base pageSize reference : ℕ) (bytes : Memory) (slots : ℕ → Memory) : VMState where
  base := base
  pageSize := pageSize
  frames := initFrames pageSize reference
  bytes := bytes
  swap := initSwap pageSize reference
  slots := slots

/-- No thread has been created. -/
def DataState.init (base pageSize reference : ℕ) (bytes : Memory) (slots : ℕ → Memory) :
    DataState :=
  ⟨.init base pageSize reference bytes slots, [], [], []⟩

/-! ### What a step must respect -/

namespace VMState

variable (W : List Written)

/-- There is a free frame, and the page that makes room for the new one is not damaged. -/
def TakeOk (s : VMState) : Prop :=
  findFreePage s.frames ≠ none ∧ ∀ n ∈ findFreePage s.frames, s.ExchangeOk W 0 n

/-- The pages of the process can be loaded: when its first page has been exchanged with the first
frame, all others but the last one are in place; and no exchange damages a page. -/
def LoadOk (pid : ℕ) (s : VMState) : Prop :=
  Settled pid (s.pages.owned pid) s.frames ∧ s.MovesOk W pid

/-- The records from `n` on, up to the first free one of at least `size` bytes, are in the page
frames. -/
def WalkOk (size : ℕ) (s : VMState) : ℕ → ℕ → Prop
  | 0, _ => True
  | fuel + 1, n =>
    n = 0 ∨ s.InFrames n ∧ ((freeField.get s.bytes n ≠ 0 ∧ size ≤ sizeField.get s.bytes n) ∨
      WalkOk size s fuel (nextField.get s.bytes n))

/-- The lists of the pages of the process stay in the page frames. -/
def ListsOk (pid size fuel : ℕ) (s : VMState) : Prop :=
  ∀ n ∈ s.frames, n.pid = pid → WalkOk size s fuel (s.base + n.start)

/-- The steps of `reserveAnotherPage` respect the bytes written. -/
def GrowOk (pid fuel : ℕ) (junk : ℕ → UInt8) (s : VMState) : Prop :=
  s.TakeOk W ∧ ∀ x ∈ s.getFreePage pid junk,
    x.2.ListsOk pid (2 ^ 32) fuel ∧ (x.2.withFrames (setOrder (-1) x.2.frames)).JoinOk W pid fuel ∧
      ∀ s₃ ∈ x.2.appendPage pid fuel, s₃.MovesOk W pid

/-- The record of the block and, if the block is cut, that of the rest contain no byte written. -/
def CutOk (n size : ℕ) (s : VMState) : Prop :=
  s.Clear W n ∧ (sizeofSpaceNode < restSize s.bytes n size →
    s.Clear W (startField.get s.bytes n + size))

/-- The steps of `getFreeElement` respect the bytes written. -/
def AllocOk (pid size fuel : ℕ) (junk : ℕ → ℕ → UInt8) : ℕ → VMState → Prop
  | 0, _ => True
  | rounds + 1, s =>
    s.LoadOk W pid ∧ ∀ x ∈ s.search pid size fuel, x.2.ListsOk pid size fuel ∧
      if x.1 = 0 then
        x.2.GrowOk W pid fuel (junk rounds) ∧
          ∀ y ∈ x.2.reserveAnotherPage pid fuel (junk rounds),
            y.1 = true → AllocOk pid size fuel junk rounds y.2
      else x.2.CutOk W x.1 size

/-- The records that `removeSpace` writes contain no byte written, and those that it reads are in
the page frames. -/
def RemoveOk (ptr : ℕ) (s : VMState) : Prop :=
  s.Clear W (ptr - sizeofSpaceNode) ∧
    (∀ x ∈ [prevField.get s.bytes (ptr - sizeofSpaceNode),
      nextField.get s.bytes (ptr - sizeofSpaceNode)], x = 0 ∨ s.InFrames x) ∧
    (Mergeable (markFree s.bytes (ptr - sizeofSpaceNode))
        (prevField.get s.bytes (ptr - sizeofSpaceNode)) →
      s.Clear W (prevField.get s.bytes (ptr - sizeofSpaceNode)))

/-- The page of `pid` with the address `a` is in place. -/
def WriteOk (pid a : ℕ) (s : VMState) : Prop :=
  s.frameAddress 0 ≤ a ∧ Holds s.frames (s.slot a) pid (s.slot a + 1)

instance (s : VMState) : Decidable (s.TakeOk W) := inferInstanceAs (Decidable (_ ∧ _))

instance (pid : ℕ) (s : VMState) : Decidable (s.LoadOk W pid) := inferInstanceAs (Decidable (_ ∧ _))

instance decidableWalkOk (size : ℕ) (s : VMState) :
    ∀ fuel n : ℕ, Decidable (WalkOk size s fuel n)
  | 0, _ => isTrue trivial
  | fuel + 1, n =>
    have := decidableWalkOk size s fuel (nextField.get s.bytes n)
    inferInstanceAs (Decidable (n = 0 ∨ _ ∧ (_ ∨ WalkOk size s fuel (nextField.get s.bytes n))))

instance (pid size fuel : ℕ) (s : VMState) : Decidable (s.ListsOk pid size fuel) :=
  inferInstanceAs (Decidable (∀ n ∈ s.frames, _ → _))

instance (pid fuel : ℕ) (junk : ℕ → UInt8) (s : VMState) : Decidable (s.GrowOk W pid fuel junk) :=
  inferInstanceAs (Decidable (_ ∧ ∀ x ∈ s.getFreePage pid junk, _ ∧ _ ∧ _))

instance (n size : ℕ) (s : VMState) : Decidable (s.CutOk W n size) :=
  inferInstanceAs (Decidable (_ ∧ (_ → _)))

instance decidableAllocOk (pid size fuel : ℕ) (junk : ℕ → ℕ → UInt8) :
    ∀ (rounds : ℕ) (s : VMState), Decidable (AllocOk W pid size fuel junk rounds s)
  | 0, _ => isTrue trivial
  | rounds + 1, s =>
    have : ∀ s₁ : VMState, Decidable (AllocOk W pid size fuel junk rounds s₁) :=
      decidableAllocOk pid size fuel junk rounds
    inferInstanceAs (Decidable (_ ∧ ∀ x ∈ s.search pid size fuel, _ ∧ if x.1 = 0 then _ else _))

instance (ptr : ℕ) (s : VMState) : Decidable (s.RemoveOk W ptr) :=
  inferInstanceAs (Decidable (_ ∧ _ ∧ (_ → _)))

instance (pid a : ℕ) (s : VMState) : Decidable (s.WriteOk pid a) :=
  inferInstanceAs (Decidable (_ ∧ _))

end VMState

/-- What keeps the data of the threads. -/
def DataAllowed (s : DataState) : DataEvent → Prop
  | .create _ _ => s.vm.TakeOk s.written
  | .alloc pid size fuel junk => s.vm.AllocOk s.written pid size fuel junk fuel
  | .free b => s.vm.RemoveOk s.written b.ptr
  | .load pid => s.vm.LoadOk s.written pid
  | .write pid a _ => s.vm.WriteOk pid a

instance (s : DataState) : ∀ e, Decidable (DataAllowed s e)
  | .create _ _ => inferInstanceAs (Decidable (VMState.TakeOk ..))
  | .alloc _ _ _ _ => inferInstanceAs (Decidable (VMState.AllocOk ..))
  | .free _ => inferInstanceAs (Decidable (VMState.RemoveOk ..))
  | .load _ => inferInstanceAs (Decidable (VMState.LoadOk ..))
  | .write _ _ _ => inferInstanceAs (Decidable (VMState.WriteOk ..))

/-! ### The invariant -/

/-- The pages of the threads are in memory, and the bytes written are carried. -/
structure VMInv (threads : List ℕ) (W : List Written) (s : VMState) : Prop where
  keys : KeyInv ⟨s.pages, threads⟩
  unswapped : ∀ n ∈ s.swap, n.free = true
  layout : s.Layout
  carried : s.Carried W
  low : ∀ w ∈ W, s.frameAddress 0 ≤ w.addr

section Steps

variable {threads : List ℕ} {W : List Written} {s s' : VMState} {pid : ℕ}

theorem VMInv.not_mem_swap (h : VMInv threads W s) (o : ℤ) : (pid, o) ∉ VM.keys s.pages.swap := by
  rw [show VM.keys s.pages.swap = [] from VM.keys_eq_nil h.unswapped]
  exact List.not_mem_nil

/-- A change of the bytes that leaves alone those that have been written. -/
theorem VMInv.withBytes {m : Memory} (h : VMInv threads W s)
    (hm : ∀ w ∈ W, ∀ f, s.Carries w f →
      m (s.frameAddress f + s.offset w.addr) = s.bytes (s.frameAddress f + s.offset w.addr)) :
    VMInv threads W { s with bytes := m } where
  keys := h.keys
  unswapped := h.unswapped
  layout := ⟨h.layout.contiguous, h.layout.sizes, h.layout.large⟩
  carried w hw := by
    obtain ⟨f, hf⟩ := h.carried w hw
    exact ⟨f, hf.withBytes (hm w hw f hf)⟩
  low := h.low

theorem VMInv.load (h : VMInv threads W s) (hok : s.MovesOk W pid)
    (hs : s.loadProcessPages pid = some s') : VMInv threads W s' := by
  have hcarried := h.carried.load h.layout hok hs
  have hlayout := h.layout.load hs
  obtain ⟨t, m, hload, rfl⟩ := VMState.loadProcessPages_eq_some hs
  exact ⟨h.keys.load hload, h.unswapped, hlayout, hcarried, h.low⟩

theorem VMInv.search {size fuel n : ℕ} (h : VMInv threads W s) (hok : s.MovesOk W pid)
    (hs : s.search pid size fuel = some (n, s')) : VMInv threads W s' := by
  obtain ⟨s₁, t, hload, hclocks, hzero, rfl⟩ := VMState.search_eq_some hs
  have h₁ := h.load hok hload
  have hmap {β : Type} (g : SpaceNode → β) (hg : ∀ n : SpaceNode, g n.touch = g n)
      (href : ∀ n : SpaceNode, g { n with reference := 1 } = g n) : t.map g = s₁.frames.map g :=
    (hclocks.map_eq hg).trans (map_modify_eq g href s₁.frames 0)
  have hpage := hmap SpaceNode.page (fun _ => rfl) fun _ => rfl
  exact ⟨h₁.keys.of_map_page hpage hzero, h₁.unswapped,
    h₁.layout.of_maps (hmap _ (fun _ => rfl) fun _ => rfl) (hmap _ (fun _ => rfl) fun _ => rfl),
    h₁.carried.withFrames hpage, h₁.low⟩

/-- With a free frame, `getFreePage` takes it. -/
theorem VMState.TakeOk.getFreePage {junk : ℕ → UInt8} {ok : Bool} (h : s.TakeOk W)
    (hs : s.getFreePage pid junk = some (ok, s')) :
    ok = true ∧ ∃ n s₁, findFreePage s.frames = some n ∧ s.ExchangeOk W 0 n ∧
      s.takeFrame pid n junk = some s₁ ∧ s₁.swapPages 0 n = some s' := by
  rcases VMState.getFreePageLoop_eq_some hs with ⟨n, s₁, hn, rfl, htake, hswap⟩ | ⟨hnone, -⟩
  · exact ⟨rfl, n, s₁, hn, h.2 n hn, htake, hswap⟩
  · exact absurd hnone h.1

/-- A process is given another page. -/
theorem VMInv.reserve {fuel : ℕ} {junk : ℕ → UInt8} {ok : Bool} (h : VMInv threads W s)
    (hpid : pid ∈ threads) (hok : s.GrowOk W pid fuel junk)
    (hs : s.reserveAnotherPage pid fuel junk = some (ok, s')) : VMInv threads W s' ∧ ok = true := by
  obtain ⟨lastFree, hreserve⟩ := VMState.reserveAnotherPage_pages hs
  have hkeys := h.keys.reserve hpid hreserve fun _ => h.not_mem_swap
  obtain ⟨⟨got, s₁⟩, hget, hs⟩ := Option.bind_eq_some_iff.mp hs
  obtain ⟨rfl, n, s₀, hn, hexchange, htake, hswap⟩ := hok.1.getFreePage hget
  obtain ⟨-, hjoinOk, hmovesOk⟩ := hok.2 _ hget
  obtain ⟨s₃, happend, hs⟩ := Option.bind_eq_some_iff.mp hs
  obtain ⟨s₄, hload, hs⟩ := Option.map_eq_some_iff.mp hs
  obtain ⟨rfl, rfl⟩ := Prod.mk.inj hs
  obtain ⟨lastFree', t₂, t₃, m₃, hjoin, hset, hs₃⟩ := VMState.appendPage_eq_some happend
  have hgrown := h.keys.grown hpid (by have := h.keys.owned_pos hpid; omega)
    (h.keys.mem_keys_iff pid) h.not_mem_swap (VMState.getFreePage_pages hget) hjoin hset
  have hlayout₃ := ((h.layout.takeFrame htake).swapPages hswap).appendPage happend
  have hcarried₃ := (h.carried.takeFrame h.layout hn hexchange htake hswap).appendPage hjoinOk
    happend (by rw [hs₃]; exact hgrown.others)
  have hcarried₄ := hcarried₃.load hlayout₃ (hmovesOk s₃ happend) hload
  have hlayout₄ := hlayout₃.load hload
  obtain ⟨m₁, rfl⟩ := VMState.takeFrame_swapPages_pages htake hswap
  subst hs₃
  obtain ⟨t₄, m₄, -, rfl⟩ := VMState.loadProcessPages_eq_some hload
  exact ⟨⟨hkeys, h.unswapped, hlayout₄, hcarried₄, h.low⟩, rfl⟩

theorem VMInv.cut {n size : ℕ} {junk : ℕ → UInt8} (h : VMInv threads W s) (hok : s.CutOk W n size) :
    VMInv threads W (s.cut n size junk).2 := by
  have hcut : (s.cut n size junk).2 = { s with bytes := (createSpace s.bytes n size junk).2 } := by
    rw [VMState.cut]
    rcases createSpace s.bytes n size junk with ⟨_ | _, m⟩ <;> rfl
  rw [hcut]
  refine h.withBytes fun w hw f hf =>
    createSpace_apply _ _ _ _ (hok.1.not_mem hw hf) fun hrest => ?_
  exact (hok.2 hrest).not_mem hw hf

/-- **Allocating.** `getFreeElement`, however often it reserves a page. -/
theorem VMInv.getFreeElement {size fuel ptr : ℕ} {junk : ℕ → ℕ → UInt8} {rounds : ℕ} :
    ∀ {s : VMState}, VMInv threads W s → pid ∈ threads →
      VMState.AllocOk W pid size fuel junk rounds s →
      s.getFreeElement pid size fuel junk rounds = some (ptr, s') → VMInv threads W s' := by
  induction rounds with
  | zero => exact fun _ _ _ hs => nomatch hs
  | succ rounds ih =>
    intro s h hpid hok hs
    obtain ⟨⟨n, s₁⟩, hsearch, hs⟩ := Option.bind_eq_some_iff.mp hs
    have h₁ := h.search hok.1.2 hsearch
    have hok₁ := (hok.2 _ hsearch).2
    by_cases hn : n = 0
    · rw [if_pos hn] at hok₁
      dsimp only at hs
      rw [if_pos hn] at hs
      obtain ⟨⟨got, s₂⟩, hreserve, hs⟩ := Option.bind_eq_some_iff.mp hs
      obtain ⟨h₂, rfl⟩ := h₁.reserve hpid hok₁.1 hreserve
      exact ih h₂ hpid (hok₁.2 _ hreserve rfl) hs
    · rw [if_neg hn] at hok₁
      dsimp only at hs
      rw [if_neg hn] at hs
      have heq : (s₁.cut n size (junk rounds)).2 = s' := congrArg Prod.snd (Option.some.inj hs)
      exact heq ▸ h₁.cut hok₁

theorem VMInv.mono {W' : List Written} (h : VMInv threads W s) (hsub : W' ⊆ W) :
    VMInv threads W' s :=
  ⟨h.keys, h.unswapped, h.layout, fun w hw => h.carried w (hsub hw), fun w hw => h.low w (hsub hw)⟩

/-! ### Places and addresses -/

theorem VMState.frameAddress_eq (s : VMState) (f : ℕ) :
    s.frameAddress f = s.frameAddress 0 + f * s.pageSize := by
  rw [VMState.frameAddress, VMState.frameAddress, Nat.zero_mul, Nat.add_zero]

/-- An address is a place and a position in it. -/
theorem VMState.frameAddress_slot {a : ℕ} (h : s.frameAddress 0 ≤ a) :
    s.frameAddress (s.slot a) + s.offset a = a := by
  have hdiv := Nat.div_add_mod' (a - s.frameAddress 0) s.pageSize
  rw [VMState.frameAddress_eq, VMState.slot, VMState.offset]
  omega

theorem VMState.frameAddress_inj {f g o o' : ℕ} (ho : o < s.pageSize) (ho' : o' < s.pageSize)
    (h : s.frameAddress f + o = s.frameAddress g + o') : f = g ∧ o = o' := by
  have hfg : f = g := by
    by_contra hne
    rcases s.frameAddress_apart hne with h' | h' <;> omega
  subst hfg
  exact ⟨rfl, by omega⟩

/-- A byte whose page is in place is found at its address. -/
theorem VMInv.value_eq {w : Written} (h : VMInv threads W s) (hw : w ∈ W)
    (hplace : Holds s.frames (s.slot w.addr) w.pid (s.slot w.addr + 1)) :
    s.bytes w.addr = w.value := by
  obtain ⟨f, hf⟩ := h.carried w hw
  obtain rfl := holds_unique h.keys.nodup.of_append_left hf.home hplace
  rw [← hf.value, VMState.page, view, VMState.frameAddress_slot (h.low w hw)]

/-- One byte more is carried. -/
theorem VMInv.cons {w : Written} {f : ℕ} {m : Memory} (h : VMInv threads W { s with bytes := m })
    (hhome : s.Home w f) (hlow : s.frameAddress 0 ≤ w.addr)
    (hm : m (s.frameAddress f + s.offset w.addr) = w.value) :
    VMInv threads (w :: W) { s with bytes := m } :=
  ⟨h.keys, h.unswapped, h.layout, List.forall_mem_cons.mpr ⟨⟨f, hhome, hm⟩, h.carried⟩,
    List.forall_mem_cons.mpr ⟨hlow, h.low⟩⟩

/-- **Writing.** A thread writes a byte of a page that is in place. -/
theorem VMInv.write {a : ℕ} {v : UInt8} (h : VMInv threads W s) (hok : s.WriteOk pid a) :
    VMInv threads (⟨pid, a, v⟩ :: W.filter fun w => ¬(w.pid = pid ∧ w.addr = a))
      { s with bytes := Function.update s.bytes a v } := by
  have hslot := VMState.frameAddress_slot hok.1
  have hrest : VMInv threads (W.filter fun w => ¬(w.pid = pid ∧ w.addr = a))
      { s with bytes := Function.update s.bytes a v } := by
    refine (h.mono (List.filter_subset_self _)).withBytes fun w hw f hf => ?_
    obtain ⟨hmem, hne⟩ := List.mem_filter.mp hw
    refine Function.update_of_ne (fun heq => ?_) _ _
    -- another byte at the same position in memory would belong to the same page
    obtain ⟨rfl, hoff⟩ := VMState.frameAddress_inj (VMState.offset_lt h.layout _)
      (VMState.offset_lt h.layout _) (heq.trans hslot.symm)
    have hhome := hf.home
    rw [VMState.Home, Holds, hok.2, Option.some.injEq, Prod.mk.injEq, Prod.mk.injEq] at hhome
    obtain ⟨hpid, hord, -⟩ := hhome
    have haddr : w.addr = a := by
      rw [← VMState.frameAddress_slot (h.low w hmem), ← hslot, hoff,
        show s.slot w.addr = s.slot a by omega]
    simp [hpid, haddr] at hne
  refine hrest.cons (f := s.slot a) hok.2 hok.1 ?_
  rw [hslot, Function.update_self]

end Steps

/-! ### Runs -/

section Runs

variable {s s' : DataState}

/-- The invariant of runs. -/
def DataInv (s : DataState) : Prop := VMInv s.threads s.written s.vm

theorem DataInv.create {pid : ℕ} {junk : ℕ → UInt8} (h : DataInv s) (hok : s.vm.TakeOk s.written)
    (hs : dataStep s (.create pid junk) = some s') : DataInv s' := by
  simp only [dataStep] at hs
  split_ifs at hs with hpid
  obtain ⟨⟨ok, vm⟩, hget, hs⟩ := Option.bind_eq_some_iff.mp hs
  obtain ⟨rfl, n, s₁, hn, hexchange, htake, hswap⟩ := hok.getFreePage hget
  obtain rfl := Option.some.inj hs
  obtain ⟨f, hf, hfree⟩ := findFreePage_eq_some hn
  have hkeys := h.keys.request (fun he => hpid (Or.inl he)) (fun hm => hpid (Or.inr hm))
    (VMState.getFreePage_pages hget) fun hfull => absurd hfree
      (by simp [hfull f (List.mem_iff_getElem?.mpr ⟨n, hf⟩)])
  have hlayout := (h.layout.takeFrame htake).swapPages hswap
  have hbehind := h.carried.takeFrame h.layout hn hexchange htake hswap
  obtain ⟨m, rfl⟩ := VMState.takeFrame_swapPages_pages htake hswap
  refine ⟨hkeys, h.unswapped, hlayout, fun w hw => ?_, h.low⟩
  obtain ⟨f, -, hf⟩ := hbehind w hw
  exact ⟨f, hf⟩

theorem DataInv.free {b : LiveBlock} (h : DataInv s) (hok : s.vm.RemoveOk s.written b.ptr)
    (hs : dataStep s (.free b) = some s') : DataInv s' := by
  simp only [dataStep] at hs
  split_ifs at hs with hb
  obtain rfl := Option.some.inj hs
  obtain ⟨hrecord, -, hprev⟩ := hok
  refine VMInv.mono (h.withBytes fun w hw f hf => ?_) (List.filter_subset_self _)
  exact removeSpace_apply _ (hrecord.not_mem hw hf) fun hm => (hprev hm).not_mem hw hf

theorem dataInv_dataStep {e : DataEvent} (h : DataInv s) (hok : DataAllowed s e)
    (hs : dataStep s e = some s') : DataInv s' := by
  cases e with
  | create pid junk => exact h.create hok hs
  | alloc pid size fuel junk =>
    simp only [dataStep] at hs
    split_ifs at hs with hpid
    obtain ⟨⟨ptr, vm⟩, hget, rfl⟩ := Option.map_eq_some_iff.mp hs
    exact VMInv.getFreeElement h hpid hok hget
  | free b => exact h.free hok hs
  | load pid =>
    obtain ⟨vm, hload, rfl⟩ := Option.map_eq_some_iff.mp hs
    exact VMInv.load h hok.2 hload
  | write pid a v =>
    simp only [dataStep] at hs
    split_ifs at hs with hb
    obtain rfl := Option.some.inj hs
    exact VMInv.write h hok

theorem dataInv_init {pageSize : ℕ} (hsize : sizeofSpaceNode < pageSize) (base reference : ℕ)
    (bytes : Memory) (slots : ℕ → Memory) :
    DataInv (.init base pageSize reference bytes slots) := by
  have hkeys := keyInv_init pageSize reference
  have hcont := contiguous_initFrames pageSize reference
  have hsizes : ∀ n ∈ initFrames pageSize reference, n.size = pageSize :=
    forall_initFrames (fun _ _ _ hq => hq) fun _ => rfl
  have hfree : ∀ n ∈ initSwap pageSize reference, n.free = true :=
    forall_initSwap (fun _ _ _ hq => hq) fun _ => rfl
  rw [VM.init] at hkeys
  rw [DataState.init, VMState.init]
  generalize initFrames pageSize reference = frames at hkeys hcont hsizes ⊢
  generalize initSwap pageSize reference = swap at hkeys hfree ⊢
  exact ⟨hkeys, hfree, ⟨hcont, hsizes, hsize⟩, fun w hw => absurd hw List.not_mem_nil,
    fun w hw => absurd hw List.not_mem_nil⟩

theorem mem_written_of_lastWritten {pid a : ℕ} {v : UInt8} (h : s.lastWritten pid a = some v) :
    ⟨pid, a, v⟩ ∈ s.written := by
  obtain ⟨w, hw, rfl⟩ := Option.map_eq_some_iff.mp h
  have hkey := List.find?_some hw
  simp only [decide_eq_true_eq] at hkey
  obtain ⟨rfl, rfl⟩ := hkey
  exact List.mem_of_find?_eq_some hw

end Runs

/-- **Live data survives.** In every run whose steps respect the bytes written, every byte that
`pid` has written in a block that it has not freed is read at its address after the pages of `pid`
are loaded. -/
theorem data_survives {base pageSize reference : ℕ} (hsize : sizeofSpaceNode < pageSize)
    {bytes : Memory} {slots : ℕ → Memory} {es : List DataEvent} {pid : ℕ} {s : DataState}
    (hok : RunOk dataStep DataAllowed (.init base pageSize reference bytes slots)
      (es ++ [.load pid]))
    (hrun : run dataStep (.init base pageSize reference bytes slots) (es ++ [.load pid]) = some s)
    (a : ℕ) (v : UInt8) (hv : s.lastWritten pid a = some v) : s.vm.bytes a = v := by
  rw [run_append] at hrun
  obtain ⟨s₁, hrun₁, hload⟩ := Option.bind_eq_some_iff.mp hrun
  obtain ⟨hok₁, hok₂⟩ := (runOk_append _).mp hok
  have h₁ : DataInv s₁ := run_invariant (fun _ _ _ hi hok hs => dataInv_dataStep hi hok hs)
    (dataInv_init hsize base reference bytes slots) hok₁ hrun₁
  have hok₃ : s₁.vm.LoadOk s₁.written pid := (hok₂ s₁ hrun₁).1
  obtain ⟨s₂, hs₂, hend⟩ := Option.bind_eq_some_iff.mp hload
  obtain ⟨vm, hvm, rfl⟩ := Option.map_eq_some_iff.mp hs₂
  obtain rfl := Option.some.inj hend
  have h₂ : VMInv s₁.threads s₁.written vm := VMInv.load h₁ hok₃.2 hvm
  have hw : (⟨pid, a, v⟩ : Written) ∈ s₁.written := mem_written_of_lastWritten hv
  refine h₂.value_eq hw ?_
  obtain ⟨f, hf⟩ := h₂.carried _ hw
  have hmem : (pid, (vm.slot a : ℤ) + 1) ∈ vm.pages.keys :=
    List.mem_append_left _ hf.home.mem_keys
  have hpid : pid ≠ 0 := by
    rintro rfl
    exact h₂.keys.pos (h₂.keys.owned 0 _ hmem)
  have hle := (h₂.keys.mem_keys_iff pid _).mp hmem
  obtain ⟨t, m, htable, rfl⟩ := VMState.loadProcessPages_eq_some hvm
  have hin := h₁.keys.inPlace_load hpid h₁.layout.contiguous
    (Nat.zero_lt_of_lt h₁.layout.large) h₁.not_mem_swap hok₃.1 htable
  have htable' : loadProcessPages s₁.vm.pages.pageSize pid s₁.vm.pages.frames = some t := htable
  have howned := owned_load htable' pid
  refine hin _ ?_
  have hle' := hle.2
  rw [show VMState.pages _ = { s₁.vm.pages with frames := t } from rfl, howned] at hle'
  exact Nat.lt_of_succ_le (by exact_mod_cast hle')

/-- Pages of 16 KiB at the address 4096, with all bytes 0. -/
def DataState.zero : DataState := .init 4096 16384 0 (fun _ => 0) fun _ _ => 0

/-- Thread 1 gets a small block and one that spans its two pages, and writes in both; thread 2 gets
a block at the same place. -/
def spanRun : List DataEvent :=
  [.create 1 fun _ => 0, .alloc 1 40 20 fun _ _ => 0, .write 1 (4096 + memoryStart + 56) 7,
    .alloc 1 16384 20 fun _ _ => 0, .write 1 (4096 + memoryStart + 16484) 9, .create 2 fun _ => 0,
    .alloc 2 40 20 fun _ _ => 0, .write 2 (4096 + memoryStart + 60) 5]

/-- The byte of thread 1 on its second page. -/
theorem data_survives_span :
    ∃ s, run dataStep .zero (spanRun ++ [.load 1]) = some s ∧
      s.lastWritten 1 (4096 + memoryStart + 16484) = some 9 ∧
      s.vm.bytes (4096 + memoryStart + 16484) = 9 := by
  have hend : (run dataStep .zero (spanRun ++ [.load 1])).map (fun s =>
      s.lastWritten 1 (4096 + memoryStart + 16484)) = some (some 9) := by
    decide +kernel
  obtain ⟨s, hs, hlast⟩ := Option.map_eq_some_iff.mp hend
  have hok : RunOk dataStep DataAllowed .zero (spanRun ++ [.load 1]) := by decide +kernel
  exact ⟨s, hs, hlast, data_survives (by decide) hok hs _ 9 hlast⟩

/-- Thread 1 has a block that spans its two pages, and writes the byte 16 of the second page; then
thread 2 is created and is given a second page. -/
def damageRun : List DataEvent :=
  [.create 1 fun _ => 0, .alloc 1 40 20 fun _ _ => 0, .alloc 1 16384 20 fun _ _ => 0,
    .write 1 (4096 + memoryStart + 16400) 9, .create 2 fun _ => 0,
    .alloc 2 16384 20 fun _ _ => 0]

/-- The byte 16 of the second page of thread 1 is rewritten when the page makes room for the second
page of thread 2: `restorePointers` takes it for the field `start` of a record. -/
theorem continuation_byte_lost :
    ∃ s, run dataStep .zero (damageRun ++ [.load 1]) = some s ∧
      ∃ b ∈ s.live, b.Has 1 (4096 + memoryStart + 16400) ∧
        s.lastWritten 1 (4096 + memoryStart + 16400) = some 9 ∧
        s.vm.bytes (4096 + memoryStart + 16400) ≠ 9 := by
  have hend : (run dataStep .zero (damageRun ++ [.load 1])).map (fun s =>
      decide (∃ b ∈ s.live, b.Has 1 (4096 + memoryStart + 16400) ∧
        s.lastWritten 1 (4096 + memoryStart + 16400) = some 9 ∧
        s.vm.bytes (4096 + memoryStart + 16400) ≠ 9)) = some true := by decide +kernel
  obtain ⟨s, hs, hproj⟩ := Option.map_eq_some_iff.mp hend
  exact ⟨s, hs, of_decide_eq_true hproj⟩

end OSDesign.VM
