import OSDesign.VM.SettledLoad

/-!
# Processes whose pages hold no data

The pages of a process that has allocated nothing are one free block each. `getFreeElement` looks
for a block that is large enough in one page after the other, and reserves another page when there
is none. `joinFreeSpace` lets the block of the last page grow by the new page, unless the data of
the last page itself starts on another page: then the new page gets a block of its own, although the
loop before has gone back to the page whose block could grow.

What counts for that is the list of the pages, with the flag and the size of the block of each of
them (`FreeProcess`). A reservation changes it by `grow`.

## Main definitions

* `freeFlags`: what the free frames say about where their data starts.
* `PageAt`, `FreeProcess`: the pages of a process, each of them one free block.
* `Reserving`: the state of `reserveAnotherPage` between its steps.
* `grow`: the pages after another one is reserved.

## Main results

* `FreeProcess.search`: what the search of `getFreeElement` finds.
* `FreeProcess.reserve`: what `reserveAnotherPage` does.
-/

namespace OSDesign.VM

open ByteMemory ListUpdate

/-! ### Free frames -/

/-- The flag of a free frame. -/
def SpaceNode.spare (n : SpaceNode) : Option Bool :=
  if n.free then some n.dataStartsAnotherPage else none

/-- The flags of the free frames. A frame that is freed keeps its flag. -/
def freeFlags (t : PageTable) : List Bool := t.filterMap SpaceNode.spare

section FreeFlags

variable {t t' : PageTable} {i j : ℕ} {n : SpaceNode}

theorem freeFlags_eq_of_map (h : t'.map SpaceNode.spare = t.map SpaceNode.spare) :
    freeFlags t' = freeFlags t := by
  have hmap (l : PageTable) : freeFlags l = (l.map SpaceNode.spare).filterMap id := by
    rw [List.filterMap_map]
    rfl
  rw [hmap, hmap, h]

/-- A frame in use has no flag among those of the free frames. -/
theorem SpaceNode.spare_of_used (h : n.free = false) : n.spare = none := by
  rw [SpaceNode.spare, h]
  rfl

/-- Two frames in use are exchanged. -/
theorem freeFlags_swapPages {n' : SpaceNode} (hn : t[i]? = some n) (hn' : t[j]? = some n')
    (hused : n.free = false) (hused' : n'.free = false) :
    freeFlags (swapPages i j t) = freeFlags t := by
  refine freeFlags_eq_of_map (List.ext_getElem? fun a => ?_)
  have hi := (List.getElem?_eq_some_iff.mp hn).1
  have hj := (List.getElem?_eq_some_iff.mp hn').1
  rw [List.getElem?_map, List.getElem?_map, map_swapPages (fun _ _ => rfl) hi hj]
  have hspare := SpaceNode.spare_of_used hused
  have hspare' := SpaceNode.spare_of_used hused'
  split_ifs with hai haj
  · rw [hai, hn, hn', Option.map_some, Option.map_some, hspare, hspare']
  · rw [haj, hn, hn', Option.map_some, Option.map_some, hspare, hspare']
  · rfl

/-- The first free frame is taken. -/
theorem freeFlags_cons {f : Bool} {fs : List Bool} (h : freeFlags t = f :: fs)
    (g : SpaceNode → SpaceNode) (hg : ∀ n, (g n).free = false) :
    ∃ i n, findFreePage t = some i ∧ t[i]? = some n ∧ n.free = true ∧
      n.dataStartsAnotherPage = f ∧ freeFlags (t.modify i g) = fs ∧
      ∀ a < i, ∀ q ∈ t[a]?, q.free = false := by
  induction t with
  | nil => cases h
  | cons m t ih =>
    by_cases hm : m.free = true
    · have hspare : m.spare = some m.dataStartsAnotherPage := by rw [SpaceNode.spare, if_pos hm]
      rw [freeFlags, List.filterMap_cons, hspare] at h
      obtain ⟨rfl, rfl⟩ := List.cons.inj h
      refine ⟨0, m, ?_, rfl, hm, rfl, ?_, fun a ha => absurd ha (Nat.not_lt_zero a)⟩
      · rw [findFreePage, List.findIdx?_cons, hm]
        rfl
      · rw [List.modify_zero_cons, freeFlags, List.filterMap_cons, SpaceNode.spare_of_used (hg m)]
    · have hused : m.free = false := by simpa using hm
      rw [freeFlags, List.filterMap_cons, SpaceNode.spare_of_used hused] at h
      obtain ⟨i, n, hfind, hn, hfree, hflag, hrest, hbefore⟩ := ih h
      refine ⟨i + 1, n, ?_, hn, hfree, hflag, ?_, fun a ha q hq => ?_⟩
      · rw [findFreePage] at hfind
        rw [findFreePage, List.findIdx?_cons, hused, hfind]
        rfl
      · rw [List.modify_succ_cons, freeFlags, List.filterMap_cons, SpaceNode.spare_of_used hused]
        exact hrest
      · cases a with
        | zero =>
          obtain rfl := Option.some.inj hq
          exact hused
        | succ a => exact hbefore a (by omega) q hq

end FreeFlags

/-! ### Pages with one free block -/

namespace VMState

/-- The frames lie in the memory. -/
structure Room (s : VMState) : Prop where
  layout : s.Layout
  inside : memoryStart + s.frames.length * s.pageSize ≤ physicalSize
  address : s.base + physicalSize < 2 ^ 64

/-- The frame `f` holds the page `order` of `pid`, which is one free block: `p` says whether the
descriptor says that the data starts on another page, and the size that the record says, which is at
least what the page has room for. -/
structure PageAt (s : VMState) (f pid : ℕ) (order : ℤ) (p : Bool × ℕ) : Prop where
  tag : (s.frames[f]?).bind SpaceNode.tag = some (pid, order, p.1)
  block : Seg s.bytes (s.frameAddress f) [⟨s.frameAddress f, p.2, true⟩] 0
  full : s.pageSize ≤ sizeofSpaceNode + p.2

/-- The process owns the pages of the list, in place, and each of them is one free block. -/
structure FreeProcess (pid : ℕ) (pages : List (Bool × ℕ)) (s : VMState) : Prop where
  room : s.Room
  owns : Owns pid pages.length s.frames
  pageAt : ∀ i p, pages[i]? = some p → s.PageAt i pid (i + 1) p

variable {s s' s₁ : VMState} {pid f i j : ℕ} {order : ℤ} {p : Bool × ℕ}

theorem Room.frameAddress_lt (h : s.Room) (hf : f < s.frames.length) :
    s.frameAddress f + s.pageSize < 2 ^ 64 := by
  have hin := h.inside
  have haddr := h.address
  have := Nat.mul_le_mul_right s.pageSize hf
  rw [Nat.succ_mul] at this
  rw [frameAddress]
  omega

theorem Room.of_layout {t : PageTable} {m : Memory} (h : s.Room)
    (hlay : Layout { s with frames := t, bytes := m }) (hlen : t.length = s.frames.length) :
    Room { s with frames := t, bytes := m } :=
  ⟨hlay, by rw [hlen]; exact h.inside, h.address⟩

theorem Room.swapPages (h : s.Room) (hs : s.swapPages i j = some s') : s'.Room := by
  have hlay := h.layout.swapPages hs
  obtain ⟨m, rfl⟩ := swapPages_eq_some hs
  exact h.of_layout hlay (length_swapPages i j)

theorem Room.clockEq (h : s.Room) (hc : ClockEq s s') : s'.Room := by
  have hlay := h.layout.clockEq hc
  have hlen : s'.frames.length = s.frames.length := by
    have := congrArg List.length hc.1
    rwa [List.length_map, List.length_map] at this
  rw [hc.2] at hlay ⊢
  exact h.of_layout hlay hlen

/-- What the tag of the descriptor says. -/
theorem PageAt.exists_node (h : s.PageAt f pid order p) : ∃ n, s.frames[f]? = some n ∧
    n.free = false ∧ n.pid = pid ∧ n.order = order ∧ n.dataStartsAnotherPage = p.1 := by
  obtain ⟨n, hn, htag⟩ := Option.bind_eq_some_iff.mp h.tag
  rw [SpaceNode.tag] at htag
  split_ifs at htag with hfree
  have htag := Option.some.inj htag
  exact ⟨n, hn, by simpa using hfree, congrArg (·.1) htag, congrArg (·.2.1) htag,
    congrArg (·.2.2) htag⟩

theorem PageAt.holds (h : s.PageAt f pid order p) : Holds s.frames f pid order := by
  obtain ⟨n, hn, hfree, hpid, horder, -⟩ := h.exists_node
  rw [Holds, hn, Option.map_some, SpaceNode.page, hfree, hpid, horder]

theorem PageAt.lt_length (h : s.PageAt f pid order p) : f < s.frames.length := h.holds.lt_length

theorem bind_tag (l : PageTable) (a : ℕ) :
    (l[a]?).bind SpaceNode.tag = ((l[a]?).map SpaceNode.tag).join := by
  cases l[a]? <;> rfl

theorem PageAt.withFrames {t : PageTable} (h : s.PageAt f pid order p)
    (htag : t.map SpaceNode.tag = s.frames.map SpaceNode.tag) :
    (s.withFrames t).PageAt f pid order p := by
  refine ⟨?_, h.block, h.full⟩
  rw [bind_tag, ← List.getElem?_map, VMState.withFrames, htag, List.getElem?_map, ← bind_tag]
  exact h.tag

theorem PageAt.clockEq (h : s.PageAt f pid order p) (hc : ClockEq s s') :
    s'.PageAt f pid order p := by
  rw [hc.2]
  exact h.withFrames (hc.1.map_eq fun _ => rfl)

/-- An exchange takes the page to the other frame. -/
theorem PageAt.swapPages (h : s.PageAt f pid order p) (hroom : s.Room)
    (hs : s.swapPages i j = some s') : s'.PageAt (Equiv.swap i j f) pid order p := by
  by_cases hij : i = j
  · subst hij
    rw [VMState.swapPages, if_pos rfl, Option.some.injEq] at hs
    rwa [Equiv.swap_self, Equiv.refl_apply, ← hs]
  obtain ⟨hi, hj⟩ := swapPages_lt hij hs
  have hend {g : ℕ} (hg : g < s.frames.length) : s.frameAddress g + sizeofSpaceNode < 2 ^ 64 := by
    have := hroom.frameAddress_lt hg
    have := hroom.layout.large
    omega
  have hblock : Seg s'.bytes (s.frameAddress (Equiv.swap i j f))
      [⟨s.frameAddress (Equiv.swap i j f), p.2, true⟩] 0 := by
    by_cases hfi : f = i
    · subst hfi
      obtain ⟨x, hcopy, hrestore⟩ := hroom.layout.restores_right hij hs
      rw [Equiv.swap_apply_left]
      exact seg_restored (s.frameAddress_ne_zero j) (hend hj) hroom.layout.large h.full hcopy
        hrestore h.block
    by_cases hfj : f = j
    · subst hfj
      obtain ⟨x, hcopy, hrestore⟩ := hroom.layout.restores_left hij hs
      rw [Equiv.swap_apply_right]
      exact seg_restored (s.frameAddress_ne_zero i) (hend hi) hroom.layout.large h.full hcopy
        hrestore h.block
    rw [Equiv.swap_apply_of_ne_of_ne hfi hfj]
    refine h.block.congr fun b hb x hx => ?_
    obtain rfl := List.mem_singleton.mp hb
    have hlarge := hroom.layout.large
    obtain ⟨o, rfl⟩ := Nat.exists_eq_add_of_le hx.1
    have ho : o < s.pageSize := by
      have : s.frameAddress f + o < s.frameAddress f + sizeofSpaceNode := hx.2
      omega
    have hsame := hroom.layout.swapPages_of_ne hij hs ho hfi hfj
    obtain ⟨m, rfl⟩ := swapPages_eq_some hs
    exact hsame
  obtain ⟨m, rfl⟩ := swapPages_eq_some hs
  refine ⟨?_, hblock, h.full⟩
  rw [bind_tag, map_swapPages (fun _ _ => rfl) hi hj, ← bind_tag, ← Equiv.swap_apply_def,
    Equiv.swap_apply_self]
  exact h.tag

/-! ### Searching the pages -/

section Search

variable {pages : List (Bool × ℕ)} {size fuel : ℕ}

/-- Fields that are not read here may change. -/
theorem FreeProcess.withFrames {t : PageTable} (h : s.FreeProcess pid pages)
    (hlay : (s.withFrames t).Layout) (htag : t.map SpaceNode.tag = s.frames.map SpaceNode.tag)
    (hpage : t.map SpaceNode.page = s.frames.map SpaceNode.page) :
    (s.withFrames t).FreeProcess pid pages where
  room := h.room.of_layout hlay (by
    have := congrArg List.length htag
    rwa [List.length_map, List.length_map] at this)
  owns := h.owns.of_perm (.of_eq hpage)
  pageAt i p hp := (h.pageAt i p hp).withFrames htag

theorem FreeProcess.clockEq (h : s.FreeProcess pid pages) (hc : ClockEq s s') :
    s'.FreeProcess pid pages := by
  have hlay := h.room.layout.clockEq hc
  rw [hc.2] at hlay ⊢
  exact h.withFrames hlay (hc.1.map_eq fun _ => rfl) (hc.1.map_eq fun _ => rfl)

theorem freeFlags_clockEq (hc : ClockEq s s') : freeFlags s'.frames = freeFlags s.frames :=
  freeFlags_eq_of_map (hc.1.map_eq fun _ => rfl)

theorem FreeProcess.inPlace (h : s.FreeProcess pid pages) : InPlace pid pages.length s.frames :=
  fun i hi => (h.pageAt i _ (List.getElem?_eq_getElem hi)).holds

/-- Pages in place are left there. -/
theorem FreeProcess.load (h : s.FreeProcess pid pages) (hne : pages ≠ []) :
    ∃ s', s.loadProcessPages pid = some s' ∧ ClockEq s s' := by
  have hk : 1 ≤ pages.length := List.length_pos_iff.mpr hne
  have hlast := h.inPlace (pages.length - 1) (by omega)
  rw [show ((pages.length - 1 : ℕ) : ℤ) + 1 = pages.length by omega] at hlast
  refine load_settled h.room.layout h.owns hk (h.inPlace 0 hk) (if_pos rfl)
    (fun i hi => h.inPlace i (by omega)) hlast (if_pos rfl)

/-- What the search from the page `m` on has found. -/
def Found (size : ℕ) (pages : List (Bool × ℕ)) (s : VMState) (m n : ℕ) : Prop :=
  (n = 0 ∧ ∀ i p, m ≤ i → pages[i]? = some p → p.2 < size) ∨
    ∃ i p, m ≤ i ∧ pages[i]? = some p ∧ size ≤ p.2 ∧ n = s.frameAddress i

/-- The search in one page. -/
theorem PageAt.findFreeSpace (h : s.PageAt f pid order p) (size : ℕ) (hfuel : 2 ≤ fuel) :
    findFreeSpace s.bytes size fuel (s.frameAddress f) =
      some (if size ≤ p.2 then s.frameAddress f else 0) := by
  rw [findFreeSpace_eq size h.block hfuel, firstFit, List.find?_singleton, Bool.true_and]
  by_cases hle : size ≤ p.2
  · rw [if_pos (decide_eq_true hle), if_pos hle]
    rfl
  · rw [if_neg (by simpa using hle), if_neg hle]
    rfl

/-- The loop of `getFreeElement`, at the page `m`. -/
theorem FreeProcess.searchLoop {m rounds : ℕ} (h : s.FreeProcess pid pages) (size : ℕ)
    (hm : m ≤ pages.length) (hrounds : pages.length ≤ m + rounds) (hfuel : 2 ≤ fuel) :
    ∃ n s', s.searchLoop pid size fuel rounds (s.findPage pid (m + 1)).1 (m + 2) = some (n, s') ∧
      ClockEq s s' ∧ Found size pages s m n := by
  induction rounds generalizing s m with
  | zero =>
    have hnone : (s.findPage pid (m + 1)).1 = none := h.owns.findPage_none (by omega)
    refine ⟨0, s, by rw [hnone]; rfl, .refl s, Or.inl ⟨rfl, fun i p hi hp => ?_⟩⟩
    have := (List.getElem?_eq_some_iff.mp hp).1
    omega
  | succ rounds ih =>
    rcases Nat.lt_or_eq_of_le hm with hlt | heq
    · have hp := List.getElem?_eq_getElem hlt
      have hat := h.pageAt m _ hp
      obtain ⟨q, hq, hhold⟩ := h.owns.findPage (o := m + 1) (by omega) (by omega)
      obtain rfl := h.owns.holds_unique hhold hat.holds
      obtain ⟨g, hg, -⟩ := hat.exists_node
      rw [show (s.findPage pid (q + 1)).1 = some q from hq, VMState.searchLoop, hg,
        Option.bind_some, h.room.layout.base_add_start hg, hat.findFreeSpace size hfuel,
        Option.bind_some]
      have hclock := clockEq_findPage s pid (q + 2)
      by_cases hle : size ≤ pages[q].2
      · rw [if_pos hle, if_pos (s.frameAddress_ne_zero q)]
        exact ⟨_, _, rfl, hclock, Or.inr ⟨q, _, le_rfl, hp, hle, rfl⟩⟩
      · rw [if_neg hle, if_neg (not_not.mpr rfl)]
        obtain ⟨n, s', hs', hclock', hfound⟩ := ih (m := q + 1) (h.clockEq hclock) hlt (by omega)
        refine ⟨n, s', ?_, hclock.trans hclock', ?_⟩
        · rw [← hs', show ((q + 1 : ℕ) : ℤ) + 2 = q + 2 + 1 by omega,
            show ((q + 1 : ℕ) : ℤ) + 1 = q + 2 by omega]
          exact congrArg (fun p => (s.findPage pid (q + 2)).2.searchLoop pid size fuel rounds p
            (q + 2 + 1)) (hclock.1.findPage_fst pid (q + 2)).symm
        · rcases hfound with ⟨rfl, hsmall⟩ | ⟨i, p, hi, hp', hsize, rfl⟩
          · refine Or.inl ⟨rfl, fun i p hi hp' => ?_⟩
            rcases Nat.lt_or_eq_of_le hi with hi | rfl
            · exact hsmall i p hi hp'
            · rw [hp, Option.some.injEq] at hp'
              rw [← hp']
              omega
          · exact Or.inr ⟨i, p, by omega, hp', hsize, rfl⟩
    · have hnone : (s.findPage pid (m + 1)).1 = none := h.owns.findPage_none (by omega)
      refine ⟨0, s, by rw [hnone]; rfl, .refl s, Or.inl ⟨rfl, fun i p hi hp => ?_⟩⟩
      have := (List.getElem?_eq_some_iff.mp hp).1
      omega

/-- **Searching.** Once the pages are in place, `getFreeElement` finds a page with a block that is
large enough, if there is one. -/
theorem FreeProcess.search (hload : s.loadProcessPages pid = some s₁) (h : s₁.FreeProcess pid pages)
    (hne : pages ≠ []) (size : ℕ) (hfuel : 2 ≤ fuel) :
    ∃ n s', s.search pid size fuel = some (n, s') ∧ s'.pageSize = s₁.pageSize ∧
      s'.FreeProcess pid pages ∧ freeFlags s'.frames = freeFlags s₁.frames ∧
      Found size pages s' 0 n := by
  have hmap {β : Type} (g : SpaceNode → β)
      (hg : ∀ n : SpaceNode, g { n with reference := 1 } = g n) :
      (setReference s₁.frames).map g = s₁.frames.map g := map_modify_eq g hg _ 0
  have h₂ : (s₁.withFrames (setReference s₁.frames)).FreeProcess pid pages :=
    h.withFrames (h.room.layout.of_maps (hmap _ fun _ => rfl) (hmap _ fun _ => rfl))
      (hmap _ fun _ => rfl) (hmap _ fun _ => rfl)
  have hflags : freeFlags (s₁.withFrames (setReference s₁.frames)).frames = freeFlags s₁.frames :=
    freeFlags_eq_of_map (hmap _ fun _ => rfl)
  have hsize : (s₁.withFrames (setReference s₁.frames)).pageSize = s₁.pageSize := rfl
  rw [VMState.search, hload, Option.bind_some]
  dsimp only
  generalize s₁.withFrames (setReference s₁.frames) = s₂ at h₂ hflags hsize ⊢
  have hk : 0 < pages.length := List.length_pos_iff.mpr hne
  have hp := List.getElem?_eq_getElem hk
  have hat := h₂.pageAt 0 _ hp
  obtain ⟨g, hg, -⟩ := hat.exists_node
  rw [hg, Option.bind_some, h₂.room.layout.base_add_start hg, hat.findFreeSpace size hfuel,
    Option.bind_some]
  by_cases hle : size ≤ pages[0].2
  · rw [if_pos hle, if_pos (s₂.frameAddress_ne_zero 0)]
    exact ⟨_, _, rfl, hsize, h₂, hflags, Or.inr ⟨0, _, le_rfl, hp, hle, rfl⟩⟩
  · rw [if_neg hle, if_neg (not_not.mpr rfl)]
    have hclock := clockEq_findPage s₂ pid 2
    obtain ⟨n, s', hs', hclock', hfound⟩ := (h₂.clockEq hclock).searchLoop (m := 1) size hk
      (h₂.owns.le_length.trans (Nat.le_add_left ..)) hfuel
    have hclock₂ := hclock.trans hclock'
    refine ⟨n, s', ?_, ?_, h₂.clockEq hclock₂, (freeFlags_clockEq hclock₂).trans hflags, ?_⟩
    · rw [← hs']
      exact congrArg (fun p => (s₂.findPage pid 2).2.searchLoop pid size fuel s₂.frames.length p 3)
        (hclock.1.findPage_fst pid 2).symm
    · rw [hclock₂.2]
      exact hsize
    · have haddr (i : ℕ) : s'.frameAddress i = (s₂.findPage pid 2).2.frameAddress i := by
        rw [hclock'.2]
        rfl
      rcases hfound with ⟨rfl, hsmall⟩ | ⟨i, p, hi, hp', hsize, rfl⟩
      · refine Or.inl ⟨rfl, fun i p _ hp' => ?_⟩
        cases i with
        | zero =>
          rw [hp, Option.some.injEq] at hp'
          rw [← hp']
          omega
        | succ i => exact hsmall (i + 1) p (by omega) hp'
      · exact Or.inr ⟨i, p, Nat.zero_le i, hp', hsize, (haddr i).symm⟩

end Search

/-! ### A new page -/

/-- The process has the pages `1, ..., k`, and a new page that has the order `order` for now. -/
def OwnsNew (pid k : ℕ) (order : ℤ) (t : PageTable) : Prop :=
  ((t.map SpaceNode.page).filter fun x => x.1 == pid).Perm
    ((pid, order, false) :: (List.range k).map fun i : ℕ => (pid, (i : ℤ) + 1, false))

section OwnsNew

variable {t t' : PageTable} {k : ℕ}

theorem OwnsNew.of_perm (h : OwnsNew pid k order t)
    (hp : (t'.map SpaceNode.page).Perm (t.map SpaceNode.page)) : OwnsNew pid k order t' :=
  (hp.filter _).trans h

/-- A frame of nobody is taken. -/
theorem ownsNew_take {n : SpaceNode} (h : Owns pid k t) (hn : t[i]? = some n)
    (hfree : n.free = true) :
    OwnsNew pid k n.order (t.modify i (SpaceNode.take pid)) := by
  have hpid : n.pid ≠ pid := fun hp => by
    have := h.free_eq_false n (List.mem_iff_getElem?.mpr ⟨i, hn⟩) hp
    rw [hfree] at this
    cases this
  have hperm := ((cons_modify_perm hn (SpaceNode.take pid)).map SpaceNode.page).filter
    fun x => x.1 == pid
  rw [List.map_cons, List.map_cons, List.filter_cons_of_neg (by simpa [SpaceNode.page] using hpid),
    List.filter_cons_of_pos (by simp [SpaceNode.page, SpaceNode.take])] at hperm
  exact hperm.trans (h.cons _)

/-- The new page, which is in the first frame, is changed. -/
theorem OwnsNew.modify {order' : ℤ} {n : SpaceNode} {g : SpaceNode → SpaceNode}
    (h : OwnsNew pid k order t) (hn : t[0]? = some n) (hpage : n.page = (pid, order, false))
    (hpage' : (g n).page = (pid, order', false)) : OwnsNew pid k order' (t.modify 0 g) := by
  have hperm := ((cons_modify_perm hn g).map SpaceNode.page).filter fun x => x.1 == pid
  rw [List.map_cons, List.map_cons, hpage, hpage', List.filter_cons_of_pos (by simp),
    List.filter_cons_of_pos (by simp)] at hperm
  exact (List.perm_cons _).mp ((hperm.trans (h.cons _)).trans (List.Perm.swap ..))

theorem OwnsNew.owns (h : OwnsNew pid k (k + 1) t) : Owns pid (k + 1) t := by
  rw [Owns, List.range_succ, List.map_append]
  exact h.trans (List.perm_append_singleton _ _).symm

/-- While the new page has the order -1, it is not found. -/
theorem OwnsNew.hasPage_iff (h : OwnsNew pid k (-1) t) (o : ℤ) (ho : 1 ≤ o) :
    HasPage t pid o ↔ o ≤ k := by
  have hmem (x : ℕ × ℤ × Bool) : x ∈ (t.map SpaceNode.page).filter (fun x => x.1 == pid) ↔
      x = (pid, -1, false) ∨ ∃ i < k, (pid, (i : ℤ) + 1, false) = x := by
    rw [h.mem_iff, List.mem_cons, List.mem_map]
    simp only [List.mem_range]
  constructor
  · rintro ⟨n, hn, hp, rfl⟩
    rcases (hmem n.page).mp (List.mem_filter.mpr ⟨List.mem_map_of_mem hn, beq_iff_eq.mpr hp⟩) with
      heq | ⟨i, hi, heq⟩
    · have : n.order = -1 := congrArg (·.2.1) heq
      omega
    · have : (i : ℤ) + 1 = n.order := congrArg (·.2.1) heq
      omega
  · intro hk
    have hx := (hmem (pid, o, false)).mpr (Or.inr ⟨o.toNat - 1, by omega, by
      rw [show ((o.toNat - 1 : ℕ) : ℤ) + 1 = o by omega]⟩)
    obtain ⟨n, hn, hpage⟩ := List.mem_map.mp (List.mem_filter.mp hx).1
    exact ⟨n, hn, congrArg (·.1) hpage, congrArg (·.2.1) hpage⟩

theorem OwnsNew.holds_unique {a b : ℕ} {o : ℤ} (h : OwnsNew pid k (-1) t) (ha : Holds t a pid o)
    (hb : Holds t b pid o) : a = b := by
  refine holds_unique_of_pages (h.nodup_iff.mpr (List.nodup_cons.mpr ⟨fun hmem => ?_, ?_⟩)) ha hb
  · obtain ⟨i, -, heq⟩ := List.mem_map.mp hmem
    have : (i : ℤ) + 1 = -1 := congrArg (·.2.1) heq
    omega
  · refine List.nodup_range.map fun i j hij => ?_
    have : (i : ℤ) + 1 = j + 1 := congrArg (·.2.1) hij
    omega

/-- The last page found is the last one before the new page. -/
theorem OwnsNew.getLastProcessPage {a : ℕ} (h : OwnsNew pid k (-1) t) (hk : 1 ≤ k)
    (ha : Holds t a pid k) : (getLastProcessPage pid t).1 = some a := by
  have hlen : k ≤ t.length := by
    have hlen := h.length_eq
    rw [List.length_cons, List.length_map, List.length_range] at hlen
    have hle := List.length_filter_le (fun x : ℕ × ℤ × Bool => x.1 == pid) (t.map SpaceNode.page)
    rw [List.length_map] at hle
    omega
  obtain ⟨p, n, t', hlast, hmap, hn, hpid, horder⟩ :=
    getLastProcessPage_spec (k := k) (by omega) (by omega) h.hasPage_iff
  have hmem : n.page ∈ (t.map SpaceNode.page).filter fun x => x.1 == pid :=
    List.mem_filter.mpr ⟨hmap ▸ List.mem_map_of_mem (List.mem_iff_getElem?.mpr ⟨p, hn⟩),
      beq_iff_eq.mpr hpid⟩
  have hfree : n.free = false := by
    rcases List.mem_cons.mp (h.mem_iff.mp hmem) with heq | hmem
    · exact congrArg (·.2.2) heq
    · obtain ⟨i, -, heq⟩ := List.mem_map.mp hmem
      exact (congrArg (·.2.2) heq).symm
  have hhold : Holds t p pid k := by
    rw [← holds_congr hmap, Holds, hn, Option.map_some, SpaceNode.page, hpid, horder, hfree]
  rw [hlast, h.holds_unique hhold ha]

end OwnsNew

/-- While a page is reserved: the new page `new` is in the first frame, and the first page of the
process is in the frame `n` that the new page was taken from. -/
structure Reserving (pid n : ℕ) (pages : List (Bool × ℕ)) (order : ℤ) (new : Bool × ℕ)
    (flags : List Bool) (s : VMState) : Prop where
  room : s.Room
  lt_length : n < s.frames.length
  length_le : pages.length ≤ n
  used : ∀ a ≤ n, ∀ q ∈ s.frames[a]?, q.free = false
  flags_eq : freeFlags s.frames = flags
  owns : OwnsNew pid pages.length order s.frames
  old : ∀ i p, pages[i]? = some p → s.PageAt (Equiv.swap 0 n i) pid (i + 1) p
  new : s.PageAt 0 pid order new

section Reserving

variable {pages : List (Bool × ℕ)} {size fuel n : ℕ} {new : Bool × ℕ} {flags : List Bool}

theorem Reserving.clockEq (h : s.Reserving pid n pages order new flags) (hc : ClockEq s s') :
    s'.Reserving pid n pages order new flags where
  room := h.room.clockEq hc
  lt_length := by
    have := congrArg List.length hc.1
    rw [List.length_map, List.length_map] at this
    rw [this]
    exact h.lt_length
  length_le := h.length_le
  used a ha q hq := by
    obtain ⟨q', hq', htouch⟩ := hc.1.getElem? hq
    exact (congrArg SpaceNode.free htouch).symm.trans (h.used a ha q' hq')
  flags_eq := (freeFlags_clockEq hc).trans h.flags_eq
  owns := h.owns.of_perm (.of_eq (hc.1.map_eq fun _ => rfl))
  old i p hp := (h.old i p hp).clockEq hc
  new := h.new.clockEq hc

/-- The old pages are not in the first frame. -/
theorem Reserving.swap_ne_zero (h : s.Reserving pid n pages order new flags)
    (hi : i < pages.length) : Equiv.swap 0 n i ≠ 0 := by
  have := h.length_le
  rw [Ne, Equiv.swap_apply_eq_iff, Equiv.swap_apply_left]
  omega

/-- The order and the flag of the new page are set. -/
theorem Reserving.modify {d : Bool} (h : s.Reserving pid n pages order new flags)
    (g : SpaceNode → SpaceNode) (order' : ℤ) (hplace : ∀ n : SpaceNode, (g n).place = n.place)
    (hsize : ∀ n : SpaceNode, (g n).size = n.size) (hfree : ∀ n : SpaceNode, (g n).free = n.free)
    (hpid : ∀ n : SpaceNode, (g n).pid = n.pid)
    (hg : ∀ n : SpaceNode, n.order = order → n.dataStartsAnotherPage = new.1 →
      (g n).order = order' ∧ (g n).dataStartsAnotherPage = d) :
    (s.withFrames (s.frames.modify 0 g)).Reserving pid n pages order' (d, new.2) flags := by
  obtain ⟨q, hq, hqfree, hqpid, hqorder, hqflag⟩ := h.new.exists_node
  obtain ⟨horder', hflag'⟩ := hg q hqorder hqflag
  have hlen : (s.frames.modify 0 g).length = s.frames.length := List.length_modify ..
  have hfirst : (s.frames.modify 0 g)[0]? = some (g q) := by
    rw [List.getElem?_modify_eq, hq]
    rfl
  have hused : (g q).free = false := (hfree q).trans hqfree
  have hrest {a : ℕ} (ha : a ≠ 0) : (s.frames.modify 0 g)[a]? = s.frames[a]? :=
    List.getElem?_modify_ne _ _ ha.symm
  have hspare : (s.frames.modify 0 g).map SpaceNode.spare = s.frames.map SpaceNode.spare := by
    refine List.ext_getElem? fun a => ?_
    rw [List.getElem?_map, List.getElem?_map]
    by_cases ha : a = 0
    · rw [ha, hfirst, hq, Option.map_some, Option.map_some, SpaceNode.spare_of_used hqfree,
        SpaceNode.spare_of_used hused]
    · rw [hrest ha]
  refine ⟨h.room.of_layout (h.room.layout.of_maps (map_modify_eq _ hplace _ _)
    (map_modify_eq _ hsize _ _)) hlen, hlen.symm ▸ h.lt_length, h.length_le, fun a ha q' hq' => ?_,
    (freeFlags_eq_of_map hspare).trans h.flags_eq, ?_, fun i p hp => ?_, ?_⟩
  · rw [VMState.withFrames] at hq'
    by_cases ha : a = 0
    · rw [ha, hfirst, Option.mem_some_iff] at hq'
      rwa [← hq']
    · rw [hrest ha] at hq'
      exact h.used a ‹_› q' hq'
  · refine h.owns.modify hq ?_ ?_
    · rw [SpaceNode.page, hqpid, hqorder, hqfree]
    · rw [SpaceNode.page, hpid, hqpid, horder', hused]
  · have hat := h.old i p hp
    refine ⟨?_, hat.block, hat.full⟩
    rw [VMState.withFrames, hrest (h.swap_ne_zero (List.getElem?_eq_some_iff.mp hp).1)]
    exact hat.tag
  · refine ⟨?_, h.new.block, h.new.full⟩
    rw [VMState.withFrames, hfirst, Option.bind_some, SpaceNode.tag, hused, hpid, hqpid, horder',
      hflag']
    rfl

/-- `getLastProcessPage` touches descriptors only. -/
theorem getLastProcessPage_eq {t : PageTable} {a : ℕ} {last : SpaceNode}
    (ha : (getLastProcessPage pid t).1 = some a) (hlast : t[a]? = some last) :
    ∃ t' last', getLastProcessPage pid t = (some a, t') ∧ ClocksOnly t t' ∧
      t'[a]? = some last' ∧ last'.touch = last.touch := by
  have hclocks := clocksOnly_getLastProcessPage pid t
  have hback : ClocksOnly (getLastProcessPage pid t).2 t := Eq.symm hclocks
  obtain ⟨last', hlast', htouch⟩ := hback.getElem? hlast
  exact ⟨_, last', Prod.ext ha rfl, hclocks, hlast', htouch⟩

/-- `joinFreeSpace` on the descriptors, up to clocks. -/
theorem joinFreeSpace_eq {t : PageTable} {a : ℕ} {last : SpaceNode}
    (ha : (getLastProcessPage pid t).1 = some a) (hlast : t[a]? = some last) (lastFree : Bool) :
    ∃ t', ClocksOnly t t' ∧ VM.joinFreeSpace pid lastFree t =
      some (if !last.dataStartsAnotherPage && lastFree then
        t'.modify 0 fun n => { n with dataStartsAnotherPage := true } else t') := by
  obtain ⟨t₁, last', ht₁, hclocks, hlast', htouch⟩ := getLastProcessPage_eq ha hlast
  have hflag : last.dataStartsAnotherPage = last'.dataStartsAnotherPage :=
    (congrArg SpaceNode.dataStartsAnotherPage htouch).symm
  refine ⟨_, hclocks.trans (clocksOnly_continuationLoop pid (t₁.length + 1) (some a)
    (last'.order - 1) t₁), ?_⟩
  rw [VM.joinFreeSpace, ht₁, hflag]
  dsimp only
  rw [hlast', Option.map_some]

/-- The new page gets its number. -/
theorem setLastOrder_eq {t : PageTable} {a : ℕ} {last : SpaceNode}
    (ha : (getLastProcessPage pid t).1 = some a) (hlast : t[a]? = some last) :
    ∃ t', ClocksOnly t t' ∧ setLastOrder pid t = some (setOrder (last.order + 1) t') := by
  obtain ⟨t₁, last', ht₁, hclocks, hlast', htouch⟩ := getLastProcessPage_eq ha hlast
  have horder : last.order = last'.order := (congrArg SpaceNode.order htouch).symm
  refine ⟨t₁, hclocks, ?_⟩
  rw [setLastOrder, ht₁, horder]
  dsimp only
  rw [hlast', Option.map_some]

/-- The last page before the new one. -/
theorem Reserving.last {l : List (Bool × ℕ)} (h : s.Reserving pid n (l ++ [p]) (-1) new flags) :
    s.PageAt (Equiv.swap 0 n l.length) pid (l.length + 1) p ∧
      (getLastProcessPage pid s.frames).1 = some (Equiv.swap 0 n l.length) := by
  have hat := h.old l.length p List.getElem?_concat_length
  have hhold := hat.holds
  have howns := h.owns
  rw [List.length_append, List.length_singleton] at howns
  exact ⟨hat, howns.getLastProcessPage (by omega) (by exact_mod_cast hhold)⟩

/-- The page gets its number, which is that of the last page and one. -/
theorem Reserving.setLastOrder {l : List (Bool × ℕ)}
    (h : s.Reserving pid n (l ++ [p]) (-1) new flags) :
    ∃ t, setLastOrder pid s.frames = some t ∧
      (s.withFrames t).Reserving pid n (l ++ [p]) ((l ++ [p]).length + 1) new flags := by
  obtain ⟨hat, hlast⟩ := h.last
  obtain ⟨last, hget, -, -, horder, -⟩ := hat.exists_node
  obtain ⟨t', hclocks, hset⟩ := setLastOrder_eq hlast hget
  refine ⟨_, hset, ?_⟩
  have h' : (s.withFrames t').Reserving pid n (l ++ [p]) (-1) new flags := h.clockEq ⟨hclocks, rfl⟩
  refine h'.modify _ _ (fun _ => rfl) (fun _ => rfl) (fun _ => rfl) (fun _ => rfl) fun q _ hflag =>
    ⟨?_, hflag⟩
  rw [horder, List.length_append, List.length_singleton]
  push_cast
  rfl

/-- The page, with another size in its record. -/
theorem PageAt.withBytes {m : Memory} {z : ℕ} (h : s.PageAt f pid order p)
    (hblock : Seg m (s.frameAddress f) [⟨s.frameAddress f, z, true⟩] 0)
    (hfull : s.pageSize ≤ sizeofSpaceNode + z) :
    PageAt { s with bytes := m } f pid order (p.1, z) :=
  ⟨h.tag, hblock, hfull⟩

/-- The record of the frame `g` gets another size. -/
theorem PageAt.setSize_of_ne {g v : ℕ} (h : s.PageAt f pid order p)
    (hlarge : sizeofSpaceNode < s.pageSize) (hfg : f ≠ g) :
    PageAt { s with bytes := sizeField.set s.bytes (s.frameAddress g) v } f pid order p := by
  refine h.withBytes (h.block.congr fun b hb x hx => set_apply ?_) h.full
  obtain rfl := List.mem_singleton.mp hb
  have hx₁ : s.frameAddress f ≤ x := hx.1
  have hx₂ : x < s.frameAddress f + sizeofSpaceNode := hx.2
  have hend : sizeField.off + sizeField.len ≤ sizeofSpaceNode := by decide
  have := s.frameAddress_apart hfg
  omega

theorem seg_setSize {m : Memory} {a z v : ℕ} (h : Seg m a [⟨a, z, true⟩] 0) (hv : v < 2 ^ 32) :
    Seg (sizeField.set m a v) a [⟨a, v, true⟩] 0 := by
  obtain ⟨-, hne, ⟨hdata, -, hfree⟩, hnext⟩ := h
  refine ⟨rfl, hne, ⟨?_, ?_, ?_⟩, ?_⟩
  · rw [Field.get_set_of_apart (by decide)]
    exact hdata
  · rw [Field.get_set_self]
    exact Nat.mod_eq_of_lt hv
  · rw [Field.get_set_of_apart (by decide)]
    exact hfree
  · rw [Field.get_set_of_apart (by decide)]
    exact hnext

theorem PageAt.setSize {v : ℕ} (h : s.PageAt f pid order p) (hv : v < 2 ^ 32)
    (hfull : s.pageSize ≤ sizeofSpaceNode + v) :
    PageAt { s with bytes := sizeField.set s.bytes (s.frameAddress f) v } f pid order (p.1, v) :=
  h.withBytes (seg_setSize h.block hv) hfull

/-- The block of the last page before the new one grows. -/
theorem Reserving.setSize {l : List (Bool × ℕ)} {v : ℕ}
    (h : s.Reserving pid n (l ++ [p]) order new flags) (hv : v < 2 ^ 32)
    (hfull : s.pageSize ≤ sizeofSpaceNode + v) :
    Reserving pid n (l ++ [(p.1, v)]) order new flags
      { s with bytes := sizeField.set s.bytes (s.frameAddress (Equiv.swap 0 n l.length)) v } := by
  have hlarge := h.room.layout.large
  have hlen : (l ++ [(p.1, v)]).length = (l ++ [p]).length := by
    rw [List.length_append, List.length_append, List.length_singleton, List.length_singleton]
  have hlast : l.length < (l ++ [p]).length := by
    rw [List.length_append, List.length_singleton]
    omega
  refine ⟨h.room.of_layout (h.room.layout.of_maps rfl rfl) rfl, h.lt_length,
    hlen.symm ▸ h.length_le, h.used, h.flags_eq, hlen.symm ▸ h.owns, fun i q hq => ?_, ?_⟩
  · rcases Nat.lt_trichotomy i l.length with hi | rfl | hi
    · rw [List.getElem?_append_left hi] at hq
      refine (h.old i q ((List.getElem?_append_left hi).trans hq)).setSize_of_ne hlarge
        fun heq => hi.ne ?_
      exact (Equiv.swap 0 n).injective heq
    · rw [List.getElem?_concat_length, Option.some.injEq] at hq
      subst hq
      exact (h.old l.length p List.getElem?_concat_length).setSize hv hfull
    · have := (List.getElem?_eq_some_iff.mp hq).1
      rw [List.length_append, List.length_singleton] at this
      omega
  · exact h.new.setSize_of_ne hlarge (h.swap_ne_zero hlast).symm

/-- The last page before the new one is itself a continuation: nothing is joined. -/
theorem Reserving.joinFreeSpace_of_flag {l : List (Bool × ℕ)}
    (h : s.Reserving pid n (l ++ [p]) (-1) new flags) (hp : p.1 = true) (fuel : ℕ) :
    ∃ s', s.joinFreeSpace pid fuel = some s' ∧ s'.pageSize = s.pageSize ∧
      s'.Reserving pid n (l ++ [p]) (-1) new flags := by
  obtain ⟨hat, hlast⟩ := h.last
  obtain ⟨last, hget, -, -, -, hflag⟩ := hat.exists_node
  obtain ⟨t, hclocks, hjoin⟩ := joinFreeSpace_eq hlast hget false
  rw [Bool.and_false, if_neg Bool.false_ne_true] at hjoin
  refine ⟨s.withFrames t, ?_, rfl, h.clockEq ⟨hclocks, rfl⟩⟩
  rw [VMState.joinFreeSpace, lastPage, hlast, Option.bind_some, hget, Option.bind_some, hflag,
    if_pos hp, hjoin]
  rfl

/-- The block of the last page is joined with the new page. -/
theorem Reserving.joinFreeSpace {l : List (Bool × ℕ)}
    (h : s.Reserving pid n (l ++ [p]) (-1) new flags) (hp : p.1 = false) (hfuel : 1 ≤ fuel)
    (hsize : p.2 + s.pageSize < 2 ^ 32) :
    ∃ s', s.joinFreeSpace pid fuel = some s' ∧ s'.pageSize = s.pageSize ∧
      s'.Reserving pid n (l ++ [(false, p.2 + s.pageSize)]) (-1) (true, new.2) flags := by
  obtain ⟨hat, hlast⟩ := h.last
  obtain ⟨last, hget, -, -, -, hflag⟩ := hat.exists_node
  obtain ⟨t, hclocks, hjoin⟩ := joinFreeSpace_eq hlast hget true
  rw [hflag, hp, Bool.not_false, Bool.true_and, if_pos rfl] at hjoin
  obtain ⟨q, hq, -⟩ := h.new.exists_node
  obtain ⟨-, -, ⟨-, hz, hfree⟩, hnext⟩ := hat.block
  have h₁ : (s.withFrames t).Reserving pid n (l ++ [p]) (-1) new flags := h.clockEq ⟨hclocks, rfl⟩
  have h₂ := h₁.modify (d := true) (fun n => { n with dataStartsAnotherPage := true }) (-1)
    (fun _ => rfl) (fun _ => rfl) (fun _ => rfl) (fun _ => rfl) fun q horder _ => ⟨horder, rfl⟩
  have h₃ := h₂.setSize hsize (Nat.le_add_left s.pageSize p.2 |>.trans (Nat.le_add_left ..))
  rw [hp] at h₃
  refine ⟨{ s with
    frames := t.modify 0 fun n => { n with dataStartsAnotherPage := true }
    bytes := sizeField.set s.bytes (s.frameAddress (Equiv.swap 0 n l.length)) (p.2 + s.pageSize) },
    ?_, rfl, h₃⟩
  obtain ⟨fuel, rfl⟩ := Nat.exists_eq_succ_of_ne_zero (Nat.one_le_iff_ne_zero.mp hfuel)
  have hnext' : nextField.get s.bytes (s.frameAddress (Equiv.swap 0 n l.length)) = 0 := hnext
  rw [VMState.joinFreeSpace, lastPage, hlast, Option.bind_some, hget, Option.bind_some, hflag, hp,
    if_neg Bool.false_ne_true, h.room.layout.base_add_start hget, getLastElement, if_pos hnext',
    Option.bind_some, joinElement, hq, Option.bind_some, if_pos (hfree.mpr rfl),
    hjoin, Option.map_some, h.room.layout.size_eq hq, hz]

theorem pageSize_swapPages (hs : s.swapPages i j = some s') : s'.pageSize = s.pageSize := by
  obtain ⟨m, rfl⟩ := swapPages_eq_some hs
  rfl

theorem frames_swapPages (hs : s.swapPages i j = some s') :
    s'.frames = VM.swapPages i j s.frames := by
  obtain ⟨m, rfl⟩ := swapPages_eq_some hs
  rfl

theorem owns_swapPages {k : ℕ} (h : Owns pid k s.frames) (hs : s.swapPages i j = some s') :
    Owns pid k s'.frames := by
  rw [frames_swapPages hs]
  exact h.of_perm (map_page_swapPages_perm ..)

/-- The frames up to `n` stay in use when two of them are exchanged. -/
theorem used_swapPages {t : PageTable} (h : ∀ a ≤ n, ∀ q ∈ t[a]?, q.free = false) (hi : i ≤ n)
    (hj : j ≤ n) (hn : n < t.length) : ∀ a ≤ n, ∀ q ∈ (VM.swapPages i j t)[a]?, q.free = false := by
  intro a ha q hq
  have hmap := map_swapPages (g := SpaceNode.free) (fun _ _ => rfl) (hi.trans_lt hn)
    (hj.trans_lt hn) a
  rw [← Equiv.swap_apply_def, Option.mem_def.mp hq, Option.map_some] at hmap
  obtain ⟨q', hq', heq⟩ := Option.map_eq_some_iff.mp hmap.symm
  rw [← heq]
  refine h _ ?_ q' hq'
  rw [Equiv.swap_apply_def]
  split_ifs
  · exact hj
  · exact hi
  · exact ha

theorem freeFlags_swapPages_of_used {t : PageTable} (h : ∀ a ≤ n, ∀ q ∈ t[a]?, q.free = false)
    (hi : i ≤ n) (hn : n < t.length) : freeFlags (VM.swapPages i n t) = freeFlags t := by
  have hget {a : ℕ} (ha : a ≤ n) := List.getElem?_eq_getElem (ha.trans_lt hn)
  exact freeFlags_swapPages (hget hi) (hget le_rfl) (h i hi _ (hget hi))
    (h n le_rfl _ (hget le_rfl))

/-- The pages go to their places: the first page back to the first frame, and the new one behind the
others. -/
theorem Reserving.load (h : s.Reserving pid n pages (pages.length + 1) new flags)
    (hne : pages ≠ []) :
    ∃ s', s.loadProcessPages pid = some s' ∧ s'.pageSize = s.pageSize ∧
      s'.FreeProcess pid (pages ++ [new]) ∧ freeFlags s'.frames = flags := by
  have hk : 0 < pages.length := List.length_pos_iff.mpr hne
  have hle := h.length_le
  obtain ⟨s₁, hs₁⟩ := h.room.layout.exists_swapPages (Nat.zero_lt_of_lt h.lt_length)
    h.lt_length
  have hroom₁ := h.room.swapPages hs₁
  have hold₁ (i : ℕ) (p : Bool × ℕ) (hp : pages[i]? = some p) : s₁.PageAt i pid (i + 1) p := by
    have hat := (h.old i p hp).swapPages h.room hs₁
    rwa [Equiv.swap_apply_self] at hat
  have hnew₁ : s₁.PageAt n pid (pages.length + 1) new := by
    have hat := h.new.swapPages h.room hs₁
    rwa [Equiv.swap_apply_left] at hat
  have hframes₁ : s₁.frames = VM.swapPages 0 n s.frames := frames_swapPages hs₁
  obtain ⟨s₂, hs₂⟩ := hroom₁.layout.exists_swapPages (i := pages.length)
    (hle.trans_lt hnew₁.lt_length) hnew₁.lt_length
  have hfirst : Holds s.frames n pid 1 := by
    have hat := (h.old 0 _ (List.getElem?_eq_getElem hk)).holds
    rwa [Equiv.swap_apply_left] at hat
  obtain ⟨s', hs', hclock⟩ := load_settled h.room.layout h.owns.owns (by omega) hfirst hs₁
    (fun i hi => (hold₁ i _ (List.getElem?_eq_getElem (by omega))).holds)
    (by exact_mod_cast hnew₁.holds) hs₂
  refine ⟨s', hs', ?_, FreeProcess.clockEq ⟨hroom₁.swapPages hs₂, ?_, fun i p hp => ?_⟩ hclock, ?_⟩
  · rw [hclock.2]
    exact (pageSize_swapPages hs₂).trans (pageSize_swapPages hs₁)
  · rw [List.length_append, List.length_singleton]
    exact owns_swapPages (owns_swapPages h.owns.owns hs₁) hs₂
  · rcases Nat.lt_or_ge i pages.length with hi | hi
    · rw [List.getElem?_append_left hi] at hp
      have hat := (hold₁ i p hp).swapPages hroom₁ hs₂
      rwa [Equiv.swap_apply_of_ne_of_ne hi.ne (by omega)] at hat
    · have hlt := (List.getElem?_eq_some_iff.mp hp).1
      rw [List.length_append, List.length_singleton] at hlt
      obtain rfl : i = pages.length := by omega
      rw [List.getElem?_concat_length, Option.some.injEq] at hp
      subst hp
      have hat := hnew₁.swapPages hroom₁ hs₂
      rwa [Equiv.swap_apply_right] at hat
  · have hused₁ := used_swapPages h.used (Nat.zero_le n) le_rfl h.lt_length
    rw [← hframes₁] at hused₁
    rw [freeFlags_clockEq hclock, frames_swapPages hs₂,
      freeFlags_swapPages_of_used hused₁ hle hnew₁.lt_length, hframes₁,
      freeFlags_swapPages_of_used h.used (Nat.zero_le n) h.lt_length, h.flags_eq]

/-- The frame `n` is taken. -/
theorem PageAt.takeFrame {junk : ℕ → UInt8} (h : s.PageAt f pid order p) (hroom : s.Room)
    (hne : f ≠ n) (hs : s.takeFrame i n junk = some s') : s'.PageAt f pid order p := by
  have hpage := page_takeFrame hne hroom.layout hs
  have hlarge := hroom.layout.large
  obtain ⟨g, hg, rfl⟩ := Option.map_eq_some_iff.mp hs
  refine ⟨?_, h.block.congr fun b hb x hx => ?_, h.full⟩
  · rw [List.getElem?_modify_ne _ _ hne.symm]
    exact h.tag
  · obtain rfl := List.mem_singleton.mp hb
    obtain ⟨o, rfl⟩ := Nat.exists_eq_add_of_le hx.1
    have ho : s.frameAddress f + o < s.frameAddress f + sizeofSpaceNode := hx.2
    exact hpage ⟨Nat.zero_le o, by omega⟩

theorem Room.pageSize_le (h : s.Room) (hf : f < s.frames.length) : s.pageSize ≤ physicalSize := by
  have := Nat.mul_le_mul_right s.pageSize (Nat.one_le_of_lt hf)
  have hin := h.inside
  omega

/-- The page of a frame that is taken is one free block. -/
theorem Room.pageAt_takeFrame {q : SpaceNode} {junk : ℕ → UInt8} (h : s.Room)
    (hq : s.frames[n]? = some q) (hs : s.takeFrame pid n junk = some s') :
    s'.PageAt n pid q.order (q.dataStartsAnotherPage, s.pageSize - sizeofSpaceNode) := by
  have hn := (List.getElem?_eq_some_iff.mp hq).1
  have hlarge := h.layout.large
  have haddr := h.frameAddress_lt hn
  have hsize := h.pageSize_le hn
  have hphys : physicalSize < 2 ^ 32 := by decide
  rw [VMState.takeFrame, hq, Option.map_some, Option.some.injEq, h.layout.base_add_start hq,
    h.layout.size_eq hq] at hs
  subst hs
  refine ⟨?_, seg_initializeSpace s.bytes junk (s.frameAddress_ne_zero n) (by omega) (by omega),
    Nat.le_of_eq (Nat.add_sub_cancel' hlarge.le).symm⟩
  rw [List.getElem?_modify_eq, hq]
  rfl

/-- `getFreePage` takes the first free frame. -/
theorem FreeProcess.getFreePage {d : Bool} {fs : List Bool} (h : s.FreeProcess pid pages)
    (hflags : freeFlags s.frames = d :: fs) (junk : ℕ → UInt8) :
    ∃ n order s', s.getFreePage pid junk = some (true, s') ∧ s'.pageSize = s.pageSize ∧
      s'.Reserving pid n pages order (d, s.pageSize - sizeofSpaceNode) fs := by
  obtain ⟨n, q, hfind, hq, hfree, hd, hrest, hbefore⟩ :=
    freeFlags_cons hflags (SpaceNode.take pid) fun _ => rfl
  have hn := (List.getElem?_eq_some_iff.mp hq).1
  have hne (i : ℕ) (p : Bool × ℕ) (hp : pages[i]? = some p) : i ≠ n := by
    obtain ⟨q', hq', hused, -⟩ := (h.pageAt i p hp).exists_node
    rintro rfl
    rw [hq, Option.some.injEq] at hq'
    rw [hq', hused] at hfree
    cases hfree
  obtain ⟨s₁, s', htake, hswap⟩ := h.room.layout.exists_takeFrame pid junk hn
  have hroom₁ : s₁.Room := by
    have hlay₁ := h.room.layout.takeFrame htake
    obtain ⟨g, hg, rfl⟩ := Option.map_eq_some_iff.mp htake
    exact h.room.of_layout hlay₁ (List.length_modify ..)
  have hold₁ (i : ℕ) (p : Bool × ℕ) (hp : pages[i]? = some p) : s₁.PageAt i pid (i + 1) p :=
    (h.pageAt i p hp).takeFrame h.room (hne i p hp) htake
  have hlarge := h.room.layout.large
  have hnew₁ : s₁.PageAt n pid q.order (d, s.pageSize - sizeofSpaceNode) :=
    hd ▸ h.room.pageAt_takeFrame hq htake
  have hframes₁ : s₁.frames = s.frames.modify n (SpaceNode.take pid) := by
    obtain ⟨g, hg, rfl⟩ := Option.map_eq_some_iff.mp htake
    rfl
  have hused₁ : ∀ a ≤ n, ∀ q ∈ s₁.frames[a]?, q.free = false := by
    intro a ha q' hq'
    rw [hframes₁] at hq'
    rcases Nat.lt_or_eq_of_le ha with hlt | rfl
    · rw [List.getElem?_modify_ne _ _ hlt.ne'] at hq'
      exact hbefore a hlt q' hq'
    · rw [List.getElem?_modify_eq, hq] at hq'
      exact congrArg SpaceNode.free (Option.some.inj hq').symm
  refine ⟨n, q.order, s', ?_, ?_, hroom₁.swapPages hswap, ?_, ?_, ?_, ?_, ?_, fun i p hp =>
    (hold₁ i p hp).swapPages hroom₁ hswap, ?_⟩
  · rw [VMState.getFreePage, getFreePageLoop, hfind]
    dsimp only
    rw [htake, Option.bind_some, hswap]
    rfl
  · obtain ⟨g, hg, rfl⟩ := Option.map_eq_some_iff.mp htake
    rw [pageSize_swapPages hswap]
  · rw [frames_swapPages hswap, length_swapPages]
    exact hnew₁.lt_length
  · refine Nat.le_of_not_lt fun hlt => ?_
    exact hne n _ (List.getElem?_eq_getElem hlt) rfl
  · rw [frames_swapPages hswap]
    exact used_swapPages hused₁ (Nat.zero_le n) le_rfl hnew₁.lt_length
  · rw [frames_swapPages hswap,
      freeFlags_swapPages_of_used hused₁ (Nat.zero_le n) hnew₁.lt_length, hframes₁, hrest]
  · rw [frames_swapPages hswap, hframes₁]
    exact (ownsNew_take h.owns hq hfree).of_perm (map_page_swapPages_perm ..)
  · have hat := hnew₁.swapPages hroom₁ hswap
    rwa [Equiv.swap_apply_right] at hat

/-- The list of pages after another page is reserved: the last block grows by the new page, unless
the last page is itself a continuation. `d` is the flag of the frame that is taken. -/
def grow (pageSize : ℕ) (pages : List (Bool × ℕ)) (d : Bool) : List (Bool × ℕ) :=
  match pages.getLast? with
  | some (false, z) => pages.dropLast ++ [(false, z + pageSize), (true, pageSize - sizeofSpaceNode)]
  | _ => pages ++ [(d, pageSize - sizeofSpaceNode)]

theorem grow_concat_false (pageSize : ℕ) (l : List (Bool × ℕ)) (z : ℕ) (d : Bool) :
    grow pageSize (l ++ [(false, z)]) d =
      l ++ [(false, z + pageSize)] ++ [(true, pageSize - sizeofSpaceNode)] := by
  rw [grow, List.getLast?_concat]
  dsimp only
  rw [List.dropLast_concat, List.append_assoc]
  rfl

theorem grow_concat_true (pageSize : ℕ) (l : List (Bool × ℕ)) (z : ℕ) (d : Bool) :
    grow pageSize (l ++ [(true, z)]) d = l ++ [(true, z)] ++ [(d, pageSize - sizeofSpaceNode)] := by
  rw [grow, List.getLast?_concat]

/-- **Reserving.** While there is a free frame, the process is given another page. -/
theorem FreeProcess.reserve {l : List (Bool × ℕ)} {d : Bool} {fs : List Bool}
    (h : s.FreeProcess pid (l ++ [p])) (hflags : freeFlags s.frames = d :: fs)
    (hsize : p.1 = false → p.2 + s.pageSize < 2 ^ 32) (hfuel : 1 ≤ fuel) (junk : ℕ → UInt8) :
    ∃ s', s.reserveAnotherPage pid fuel junk = some (true, s') ∧ s'.pageSize = s.pageSize ∧
      s'.FreeProcess pid (grow s.pageSize (l ++ [p]) d) ∧ freeFlags s'.frames = fs := by
  obtain ⟨n, order, s₁, hs₁, hsize₁, h₁⟩ := h.getFreePage hflags junk
  have h₂ := h₁.modify (fun n => { n with order := -1 }) (-1) (fun _ => rfl) (fun _ => rfl)
    (fun _ => rfl) (fun _ => rfl) fun q _ hflag => ⟨rfl, hflag⟩
  have hjoin : ∃ s₃ l' p' new', l' ++ [p'] ++ [new'] = grow s.pageSize (l ++ [p]) d ∧
      (s₁.withFrames (setOrder (-1) s₁.frames)).joinFreeSpace pid fuel = some s₃ ∧
      s₃.pageSize = s₁.pageSize ∧ s₃.Reserving pid n (l' ++ [p']) (-1) new' fs := by
    obtain ⟨_ | _, z⟩ := p
    · obtain ⟨s₃, hs₃, hsize₃, h₃⟩ := h₂.joinFreeSpace rfl hfuel (hsize₁.symm ▸ hsize rfl)
      rw [VMState.withFrames, hsize₁] at h₃
      exact ⟨s₃, _, _, _, (grow_concat_false ..).symm, hs₃, hsize₃, h₃⟩
    · obtain ⟨s₃, hs₃, hsize₃, h₃⟩ := h₂.joinFreeSpace_of_flag rfl fuel
      exact ⟨s₃, _, _, _, (grow_concat_true ..).symm, hs₃, hsize₃, h₃⟩
  obtain ⟨s₃, l', p', new', hgrow, hs₃, hsize₃, h₃⟩ := hjoin
  obtain ⟨t, ht, h₄⟩ := h₃.setLastOrder
  obtain ⟨s', hs', hsize', h', hfs⟩ :=
    h₄.load (List.append_ne_nil_of_right_ne_nil _ (List.cons_ne_nil _ _))
  refine ⟨s', ?_, hsize'.trans (hsize₃.trans hsize₁), hgrow ▸ h', hfs⟩
  rw [reserveAnotherPage, hs₁, Option.bind_some]
  dsimp only
  rw [if_pos rfl, appendPage, hs₃, Option.bind_some, ht, Option.map_some, Option.bind_some, hs']
  rfl

end Reserving

end VMState

end OSDesign.VM
