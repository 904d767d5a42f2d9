import Mathlib.Tactic
import OSDesign.VM.Exchange

/-!
# The bytes of a thread and the frames that carry them

A thread addresses its memory by the places at which its pages are when they are loaded: the byte at
the address `a` belongs to the page whose place contains `a`, wherever that page is. `Carries s w f`
says that this page is in the frame `f` and that its byte has the value that the thread has written.

Loading the pages of a process, or giving a process another page, exchanges pages. The bytes written
are carried along, unless the byte is one of those that `restorePointers` rewrites in the page
(`VMState.ExchangeOk`).

## Main definitions

* `Written`, `VMState.Home`, `VMState.Carries`, `VMState.Carried`.
* `VMState.ExchangeOk`, `VMState.MovesOk`.

## Main results

* `VMState.Carried.swapPages`, `VMState.Carried.load`, `VMState.Carried.getFreePage`.
-/

namespace OSDesign.VM

open ByteMemory ListUpdate

/-- A byte that a thread has written: the thread, the address and the value. -/
structure Written where
  pid : ℕ
  addr : ℕ
  value : UInt8
deriving DecidableEq

namespace VMState

/-- The number of the place that contains the address, from 0 on. -/
def slot (s : VMState) (a : ℕ) : ℕ := (a - s.frameAddress 0) / s.pageSize

/-- The position of the address in its place. -/
def offset (s : VMState) (a : ℕ) : ℕ := (a - s.frameAddress 0) % s.pageSize

/-- The frame `f` holds the page with the byte `w`. -/
def Home (s : VMState) (w : Written) (f : ℕ) : Prop := Holds s.frames f w.pid (s.slot w.addr + 1)

instance (s : VMState) (w : Written) (f : ℕ) : Decidable (s.Home w f) :=
  inferInstanceAs (Decidable (Holds ..))

/-- The page with the byte `w` is in the frame `f`, and the byte has its value. -/
structure Carries (s : VMState) (w : Written) (f : ℕ) : Prop where
  home : s.Home w f
  value : s.page f (s.offset w.addr) = w.value

/-- All bytes written are carried. -/
def Carried (W : List Written) (s : VMState) : Prop := ∀ w ∈ W, ∃ f, s.Carries w f

/-- No byte written is rewritten when the frames `i` and `j` are exchanged. -/
def ExchangeOk (W : List Written) (i j : ℕ) (s : VMState) : Prop :=
  i ≠ j → ∀ w ∈ W, ∀ f ∈ [i, j], s.Home w f → ¬ Touched (s.page f) s.pageSize (s.offset w.addr)

instance (W : List Written) (i j : ℕ) (s : VMState) : Decidable (s.ExchangeOk W i j) :=
  inferInstanceAs (Decidable (_ → _))

/-- The same for the exchanges that the loop of `loadProcessPages` makes. -/
def LoopMovesOk (W : List Written) (pid : ℕ) : ℕ → ℕ → Option ℕ → ℤ → VMState → Prop
  | _, _, none, _, _ => True
  | 0, _, some _, _, _ => True
  | fuel + 1, p1, some p2, i, s =>
    (p1 ≠ p2 → ∀ c ∈ getContiguousPage s.pageSize p1 s.frames, s.ExchangeOk W c p2) ∧
      ∀ s₁ ∈ s.makeContiguous p1 p2,
        LoopMovesOk W pid fuel p2 (s₁.findPage pid i).1 (i + 1) (s₁.findPage pid i).2

/-- The same for all exchanges that `loadProcessPages` makes. -/
def MovesOk (W : List Written) (pid : ℕ) (s : VMState) : Prop :=
  ∀ p ∈ (s.findPage pid 1).1, (s.findPage pid 1).2.ExchangeOk W 0 p ∧
    ∀ s₁ ∈ (s.findPage pid 1).2.swapPages 0 p,
      LoopMovesOk W pid s₁.frames.length 0 (s₁.findPage pid 2).1 3 (s₁.findPage pid 2).2

instance decidableLoopMovesOk (W : List Written) (pid : ℕ) : ∀ (fuel p1 : ℕ) (p2 : Option ℕ) (i : ℤ)
    (s : VMState), Decidable (LoopMovesOk W pid fuel p1 p2 i s)
  | 0, _, none, _, _ => isTrue trivial
  | _ + 1, _, none, _, _ => isTrue trivial
  | 0, _, some _, _, _ => isTrue trivial
  | fuel + 1, p1, some p2, i, s =>
    have : ∀ s₁ : VMState, Decidable
        (LoopMovesOk W pid fuel p2 (s₁.findPage pid i).1 (i + 1) (s₁.findPage pid i).2) :=
      fun _ => decidableLoopMovesOk W pid fuel p2 _ _ _
    inferInstanceAs (Decidable ((_ → _) ∧ ∀ _s₁ ∈ s.makeContiguous p1 p2, _))

instance (W : List Written) (pid : ℕ) (s : VMState) : Decidable (s.MovesOk W pid) :=
  inferInstanceAs (Decidable (∀ p ∈ (s.findPage pid 1).1, _ ∧ _))

/-! ### Layout -/

section Layout

variable {s s' : VMState} {pid : ℕ}

/-- The layout depends on the places and the sizes in the page table only. -/
theorem Layout.of_frames {t : PageTable} {m : Memory} (h : s.Layout)
    (hplace : t.map SpaceNode.place = s.frames.map SpaceNode.place)
    (hsizes : ∀ n ∈ t, n.size = s.pageSize) : Layout { s with frames := t, bytes := m } :=
  ⟨h.contiguous.of_place hplace, hsizes, h.large⟩

theorem Layout.swapPages {i j : ℕ} (h : s.Layout) (hs : s.swapPages i j = some s') : s'.Layout := by
  obtain ⟨m, rfl⟩ := swapPages_eq_some hs
  exact h.of_frames (map_place_swapPages i j)
    (forall_swapPages (P := fun n => n.size = s.pageSize) (fun _ _ hq => hq) h.sizes i j)

theorem Layout.load (h : s.Layout) (hs : s.loadProcessPages pid = some s') : s'.Layout := by
  obtain ⟨t, m, hload, rfl⟩ := loadProcessPages_eq_some hs
  exact h.of_frames (map_place_loadProcessPages hload)
    (forall_loadProcessPages (P := fun n => n.size = s.pageSize) (fun _ _ hq => hq) (fun _ hq => hq)
      h.sizes hload)

theorem Layout.of_maps {t : PageTable} {m : Memory} (h : s.Layout)
    (hplace : t.map SpaceNode.place = s.frames.map SpaceNode.place)
    (hsize : t.map SpaceNode.size = s.frames.map SpaceNode.size) :
    Layout { s with frames := t, bytes := m } := by
  refine h.of_frames hplace fun n hn => ?_
  obtain ⟨n', hn', hn⟩ := List.mem_map.mp (hsize ▸ List.mem_map_of_mem hn)
  rw [← hn, h.sizes n' hn']

theorem Layout.clocksOnly (h : s.Layout) {t : PageTable} (ht : ClocksOnly s.frames t) :
    (s.withFrames t).Layout :=
  h.of_maps (ht.map_eq fun _ => rfl) (ht.map_eq fun _ => rfl)

theorem Layout.takeFrame {n : ℕ} {junk : ℕ → UInt8} (h : s.Layout)
    (hs : s.takeFrame pid n junk = some s') : s'.Layout := by
  obtain ⟨g, -, rfl⟩ := Option.map_eq_some_iff.mp hs
  exact h.of_maps (map_modify_eq SpaceNode.place (f := SpaceNode.take pid) (fun _ => rfl) _ _)
    (map_modify_eq SpaceNode.size (f := SpaceNode.take pid) (fun _ => rfl) _ _)

theorem Layout.appendPage {fuel : ℕ} (h : s.Layout) (hs : s.appendPage pid fuel = some s') :
    s'.Layout := by
  obtain ⟨lastFree, t₂, t₃, m, hjoin, hset, rfl⟩ := appendPage_eq_some hs
  have hmap {β : Type} (g : SpaceNode → β) (hg : ∀ n : SpaceNode, g n.touch = g n)
      (hord : ∀ (n : SpaceNode) (o : ℤ), g { n with order := o } = g n)
      (hflag : ∀ n : SpaceNode, g { n with dataStartsAnotherPage := true } = g n) :
      t₃.map g = s.frames.map g :=
    (map_setLastOrder hg hord hset).trans
      ((map_joinFreeSpace hg hflag hjoin).trans (map_setOrder hord _ _))
  exact h.of_maps (hmap _ (fun _ => rfl) (fun _ _ => rfl) fun _ => rfl)
    (hmap _ (fun _ => rfl) (fun _ _ => rfl) fun _ => rfl)

end Layout

/-! ### One exchange -/

section Exchange

variable {s s' : VMState} {W : List Written} {i j pid : ℕ}

theorem home_congr {t : PageTable} {m : Memory} (w : Written)
    (h : t.map SpaceNode.page = s.frames.map SpaceNode.page) (f : ℕ) :
    Home { s with frames := t, bytes := m } w f ↔ s.Home w f :=
  holds_congr h f

theorem swapPages_lt (hij : i ≠ j) (hs : s.swapPages i j = some s') :
    i < s.frames.length ∧ j < s.frames.length := by
  rw [swapPages, if_neg hij] at hs
  obtain ⟨p1, hp1, hs⟩ := Option.bind_eq_some_iff.mp hs
  obtain ⟨p2, hp2, -⟩ := Option.bind_eq_some_iff.mp hs
  exact ⟨(List.getElem?_eq_some_iff.mp hp1).1, (List.getElem?_eq_some_iff.mp hp2).1⟩

/-- Where a page is after an exchange. -/
theorem home_swapPages (hs : s.swapPages i j = some s') (w : Written) (f : ℕ) :
    s'.Home w f ↔ s.Home w (Equiv.swap i j f) := by
  by_cases hij : i = j
  · subst hij
    rw [swapPages, if_pos rfl] at hs
    rw [Equiv.swap_self, Equiv.refl_apply, Option.some.inj hs]
  · obtain ⟨hi, hj⟩ := swapPages_lt hij hs
    obtain ⟨m, rfl⟩ := swapPages_eq_some hs
    rw [Home, Holds, map_page_swapPages hi hj, ← Equiv.swap_apply_def]
    rfl

theorem offset_lt (h : s.Layout) (a : ℕ) : s.offset a < s.pageSize :=
  Nat.mod_lt _ (Nat.zero_lt_of_lt h.large)

/-- A page takes its bytes along. -/
theorem Carries.swapPages {w : Written} {f : ℕ} (h : s.Carries w f) (hlay : s.Layout)
    (hs : s.swapPages i j = some s')
    (hok : i ≠ j → f = i ∨ f = j → ¬ Touched (s.page f) s.pageSize (s.offset w.addr)) :
    s'.Carries w (Equiv.swap i j f) := by
  have hhome := home_swapPages hs w (Equiv.swap i j f)
  rw [Equiv.swap_apply_self] at hhome
  refine ⟨hhome.mpr h.home, ?_⟩
  have hoff : s'.offset w.addr = s.offset w.addr := by
    obtain ⟨m, rfl⟩ := swapPages_eq_some hs
    rfl
  have ho := offset_lt hlay w.addr
  rw [hoff, ← h.value]
  by_cases hij : i = j
  · subst hij
    rw [VMState.swapPages, if_pos rfl] at hs
    rw [Equiv.swap_self, Equiv.refl_apply, Option.some.inj hs]
  by_cases hfi : f = i
  · rw [hfi] at hok ⊢
    rw [Equiv.swap_apply_left]
    exact hlay.swapPages_right hij hs ho (hok hij (Or.inl rfl))
  by_cases hfj : f = j
  · rw [hfj] at hok ⊢
    rw [Equiv.swap_apply_right]
    exact hlay.swapPages_left hij hs ho (hok hij (Or.inr rfl))
  · rw [Equiv.swap_apply_of_ne_of_ne hfi hfj]
    exact hlay.swapPages_of_ne hij hs ho hfi hfj

theorem Carried.swapPages (h : s.Carried W) (hlay : s.Layout) (hs : s.swapPages i j = some s')
    (hok : s.ExchangeOk W i j) : s'.Carried W := by
  intro w hw
  obtain ⟨f, hf⟩ := h w hw
  refine ⟨_, hf.swapPages hlay hs fun hij hfij => hok hij w hw f ?_ hf.home⟩
  exact List.mem_pair.mpr hfij

theorem Carried.withFrames {t : PageTable} (h : s.Carried W)
    (hpage : t.map SpaceNode.page = s.frames.map SpaceNode.page) : (s.withFrames t).Carried W := by
  intro w hw
  obtain ⟨f, hf⟩ := h w hw
  exact ⟨f, (home_congr w hpage f).mpr hf.home, hf.value⟩

end Exchange

/-! ### Loading pages -/

section Load

variable {s s' : VMState} {W : List Written} {pid : ℕ}

theorem Carried.findPage (h : s.Carried W) (order : ℤ) : (s.findPage pid order).2.Carried W :=
  h.withFrames (map_page_findPage pid order s.frames)

theorem Layout.findPage (h : s.Layout) (pid : ℕ) (order : ℤ) : (s.findPage pid order).2.Layout :=
  h.clocksOnly (clocksOnly_findPage pid order s.frames)

/-- The page that is to be moved is exchanged with the one behind `p1`. -/
theorem Carried.makeContiguous {p1 p2 : ℕ} (h : s.Carried W) (hlay : s.Layout)
    (hs : s.makeContiguous p1 p2 = some s')
    (hok : p1 ≠ p2 → ∀ c ∈ getContiguousPage s.pageSize p1 s.frames, s.ExchangeOk W c p2) :
    s'.Carried W ∧ s'.Layout := by
  rw [VMState.makeContiguous] at hs
  split_ifs at hs with hp
  · obtain rfl := Option.some.inj hs
    exact ⟨h, hlay⟩
  · obtain ⟨c, hc, hs⟩ := Option.bind_eq_some_iff.mp hs
    exact ⟨h.swapPages hlay hs (hok hp c hc), hlay.swapPages hs⟩

theorem Carried.loadLoop {fuel : ℕ} :
    ∀ {p1 : ℕ} {p2 : Option ℕ} {i : ℤ} {s : VMState}, s.Carried W → s.Layout →
      LoopMovesOk W pid fuel p1 p2 i s → s.loadLoop pid fuel p1 p2 i = some s' → s'.Carried W := by
  induction fuel with
  | zero =>
    intro p1 p2 i s h _ _ hs
    cases p2 with
    | none => exact Option.some.inj hs ▸ h
    | some p2 => cases hs
  | succ fuel ih =>
    intro p1 p2 i s h hlay hok hs
    cases p2 with
    | none => exact Option.some.inj hs ▸ h
    | some p2 =>
      obtain ⟨s₁, hmake, hs⟩ := Option.bind_eq_some_iff.mp hs
      obtain ⟨h₁, hlay₁⟩ := h.makeContiguous hlay hmake hok.1
      exact ih (h₁.findPage i) (hlay₁.findPage pid i) (hok.2 s₁ hmake) hs

/-- **Loading.** `loadProcessPages` takes all bytes along that no exchange rewrites. -/
theorem Carried.load (h : s.Carried W) (hlay : s.Layout) (hok : s.MovesOk W pid)
    (hs : s.loadProcessPages pid = some s') : s'.Carried W := by
  obtain ⟨p, hp, hs⟩ := Option.bind_eq_some_iff.mp hs
  obtain ⟨s₁, hswap, hs⟩ := Option.bind_eq_some_iff.mp hs
  obtain ⟨hfirst, hloop⟩ := hok p hp
  have hlay₁ := hlay.findPage pid 1
  have h₁ := (h.findPage 1).swapPages hlay₁ hswap hfirst
  exact (h₁.findPage 2).loadLoop ((hlay₁.swapPages hswap).findPage pid 2) (hloop s₁ hswap) hs

end Load

/-! ### Writing records -/

section Records

variable {s s' : VMState} {W : List Written} {pid : ℕ}

/-- The 56 bytes from `a` on are in the page frames. -/
def InFrames (s : VMState) (a : ℕ) : Prop :=
  s.frameAddress 0 ≤ a ∧ a + sizeofSpaceNode ≤ s.frameAddress s.frames.length

/-- The record at `a` is in the page frames and contains no byte written. -/
def Clear (W : List Written) (a : ℕ) (s : VMState) : Prop :=
  s.InFrames a ∧ ∀ w ∈ W, ∀ f < s.frames.length, s.Home w f →
    s.frameAddress f + s.offset w.addr < a ∨
      a + sizeofSpaceNode ≤ s.frameAddress f + s.offset w.addr

instance (s : VMState) (a : ℕ) : Decidable (s.InFrames a) := inferInstanceAs (Decidable (_ ∧ _))

instance (W : List Written) (a : ℕ) (s : VMState) : Decidable (s.Clear W a) :=
  inferInstanceAs (Decidable (_ ∧ _))

/-- A change of the memory outside of the bytes written. -/
theorem Carries.withBytes {w : Written} {f : ℕ} {m : Memory} (h : s.Carries w f)
    (hm : m (s.frameAddress f + s.offset w.addr) = s.bytes (s.frameAddress f + s.offset w.addr)) :
    Carries { s with bytes := m } w f :=
  ⟨h.home, hm.trans h.value⟩

/-- A write to a record that is clear. -/
theorem Clear.not_mem {a f : ℕ} {w : Written} (h : s.Clear W a) (hw : w ∈ W) (hf : s.Carries w f) :
    s.frameAddress f + s.offset w.addr ∉ Set.Ico a (a + sizeofSpaceNode) := by
  rintro ⟨hl, hr⟩
  rcases h.2 w hw f hf.home.lt_length hf.home with h | h <;> omega

end Records

/-! ### Growing a process -/

section Grow

variable {s s' : VMState} {W : List Written} {pid : ℕ}

/-- All bytes written are carried, and none of them by the first frame. -/
def CarriedBehind (W : List Written) (s : VMState) : Prop := ∀ w ∈ W, ∃ f ≠ 0, s.Carries w f

/-- The record that `joinFreeSpace` enlarges, if any, contains no byte written. -/
def JoinOk (W : List Written) (pid fuel : ℕ) (s : VMState) : Prop :=
  ∀ last ∈ s.lastPage pid, last.dataStartsAnotherPage = false →
    ∀ e ∈ getLastElement s.bytes fuel (s.base + last.start),
      freeField.get s.bytes e ≠ 0 → s.Clear W e

instance (W : List Written) (pid fuel : ℕ) (s : VMState) : Decidable (s.JoinOk W pid fuel) :=
  inferInstanceAs (Decidable (∀ last ∈ s.lastPage pid, _ → _))

/-- A frame that is taken is cleared; the other pages stay. -/
theorem page_takeFrame {f n : ℕ} {junk : ℕ → UInt8} (hne : f ≠ n) (hlay : s.Layout)
    (hs : s.takeFrame pid n junk = some s') :
    Set.EqOn (s'.page f) (s.page f) (Set.Ico 0 s.pageSize) := by
  obtain ⟨g, hg, rfl⟩ := Option.map_eq_some_iff.mp hs
  intro o ho
  have hapart := s.frameAddress_apart hne
  have hlarge := hlay.large
  refine putFree_eqOn _ _ _ _ _ _ fun hx => ?_
  rw [hlay.base_add_start hg] at hx
  have hx₁ : s.frameAddress n ≤ s.frameAddress f + o := hx.1
  have hx₂ : s.frameAddress f + o < s.frameAddress n + sizeofSpaceNode := hx.2
  have := ho.2
  omega

/-- A free frame holds nothing that has been written. -/
theorem Carries.takeFrame {w : Written} {f n : ℕ} {g : SpaceNode} {junk : ℕ → UInt8}
    (h : s.Carries w f) (hlay : s.Layout) (hg : s.frames[n]? = some g) (hfree : g.free = true)
    (hs : s.takeFrame pid n junk = some s') : f ≠ n ∧ s'.Carries w f := by
  have hne : f ≠ n := by
    rintro rfl
    have hhome := h.home
    rw [Home, Holds, hg, Option.map_some, Option.some.injEq, SpaceNode.page, Prod.mk.injEq,
      Prod.mk.injEq, hfree] at hhome
    exact absurd hhome.2.2 (by simp)
  have hvalue := page_takeFrame hne hlay hs ⟨Nat.zero_le _, offset_lt hlay w.addr⟩
  obtain ⟨g', -, rfl⟩ := Option.map_eq_some_iff.mp hs
  exact ⟨hne, (holds_modify_of_ne hne _).mpr h.home, hvalue.trans h.value⟩

/-- **A new page.** `getFreePage` leaves the bytes written in other frames than the first one. -/
theorem Carried.takeFrame {n : ℕ} {junk : ℕ → UInt8} {s₁ : VMState} (h : s.Carried W)
    (hlay : s.Layout) (hn : findFreePage s.frames = some n) (hok : s.ExchangeOk W 0 n)
    (hs₁ : s.takeFrame pid n junk = some s₁) (hs' : s₁.swapPages 0 n = some s') :
    s'.CarriedBehind W := by
  obtain ⟨g, hg, hfree⟩ := findFreePage_eq_some hn
  have hlay₁ := hlay.takeFrame hs₁
  intro w hw
  obtain ⟨f, hf⟩ := h w hw
  obtain ⟨hne, hf₁⟩ := hf.takeFrame hlay hg hfree hs₁
  refine ⟨Equiv.swap 0 n f, ?_, hf₁.swapPages hlay₁ hs' fun h0n hf0 => ?_⟩
  · rw [Ne, Equiv.swap_apply_eq_iff, Equiv.swap_apply_left]
    exact hne
  · obtain rfl := hf0.resolve_right hne
    have hkeep := hok h0n w hw 0 List.mem_cons_self hf.home
    obtain ⟨g', -, rfl⟩ := Option.map_eq_some_iff.mp hs₁
    rwa [touched_congr (page_takeFrame hne hlay hs₁)]

/-- `joinFreeSpace` writes at most the record of the last block of the last page. -/
theorem joinFreeSpace_bytes {fuel x : ℕ} (hs : s.joinFreeSpace pid fuel = some s')
    (hx : ∀ last ∈ s.lastPage pid, last.dataStartsAnotherPage = false →
      ∀ e ∈ getLastElement s.bytes fuel (s.base + last.start), freeField.get s.bytes e ≠ 0 →
        x ∉ Set.Ico e (e + sizeofSpaceNode)) : s'.bytes x = s.bytes x := by
  obtain ⟨last, hlast, hs⟩ := Option.bind_eq_some_iff.mp hs
  split_ifs at hs with hcont
  · obtain ⟨t, -, rfl⟩ := Option.map_eq_some_iff.mp hs
    rfl
  obtain ⟨e, he, hs⟩ := Option.bind_eq_some_iff.mp hs
  obtain ⟨newPage, -, hs⟩ := Option.bind_eq_some_iff.mp hs
  split_ifs at hs with hfree
  · obtain ⟨t, -, rfl⟩ := Option.map_eq_some_iff.mp hs
    exact sizeField.set_eqOn _ _ _ (by decide)
      (hx last hlast (by simpa using hcont) e he hfree)
  · obtain ⟨t, -, rfl⟩ := Option.map_eq_some_iff.mp hs
    rfl

/-- The new page in the first frame becomes the last page of the process. -/
theorem CarriedBehind.appendPage {fuel : ℕ} (h : s.CarriedBehind W)
    (hok : (s.withFrames (setOrder (-1) s.frames)).JoinOk W pid fuel)
    (hs : s.appendPage pid fuel = some s')
    (hothers : ∀ i ≠ 0, (s'.frames[i]?).map SpaceNode.page = (s.frames[i]?).map SpaceNode.page) :
    s'.Carried W := by
  intro w hw
  obtain ⟨f, hf0, hf⟩ := h w hw
  have hf₁ : (s.withFrames (setOrder (-1) s.frames)).Carries w f := by
    refine ⟨?_, hf.value⟩
    rw [Home, Holds, withFrames, map_page_setOrder_of_ne _ _ hf0]
    exact hf.home
  obtain ⟨s₂, hjoin, hs⟩ := Option.bind_eq_some_iff.mp hs
  have hbytes := joinFreeSpace_bytes (x := s.frameAddress f + s.offset w.addr) hjoin
    fun last hlast hcont e he hfree => (hok last hlast hcont e he hfree).not_mem hw hf₁
  obtain ⟨lastFree, t₂, m, -, rfl⟩ := joinFreeSpace_eq_some hjoin
  obtain ⟨t₃, -, rfl⟩ := Option.map_eq_some_iff.mp hs
  refine ⟨f, ?_, hbytes.trans hf.value⟩
  rw [Home, Holds, hothers f hf0]
  exact hf.home

end Grow

end VMState

end OSDesign.VM
