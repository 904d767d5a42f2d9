import Mathlib.Tactic
import OSDesign.Lib.Transition
import OSDesign.VM.Placement

/-!
# Page isolation

The running thread addresses its page `i` at the address of the frame `i - 1`. An access is either
stopped by the protection of the frame, and the handler of `SIGSEGV` loads the pages of the thread,
or it goes to whatever page is in the frame. A context switch protects the frames of the outgoing
thread only; every allocation and every fault unprotects all frames.

`page_isolation` says when the running thread sees its own pages only. There are three ways to
break it: `create_exposes_first_frame` is the first, a thread that goes on after it has created
another one, whose page is now in the first frame; the second is a switch to a thread that owns more
pages than the outgoing one; the third are the pages that `loadProcessPages` does not bring to their
places.

## Main definitions

* `memoryProtect`, `virtualMemory`, `getFreeElementPages`.
* `PageSystem`, `SystemEvent`, `systemStep`, `SystemAllowed`, `IsolationInv`.

## Main results

* `page_isolation`, `create_exposes_first_frame`.
-/

namespace OSDesign.VM

open Transition ListUpdate

/-! ### Protection -/

/-- The loop of `memoryProtect`; `protect` is the set of protected addresses. -/
def protectLoop (pid : ℕ) : ℕ → Option ℕ → ℤ → PageTable → (ℕ → Bool) → PageTable × (ℕ → Bool)
  | 0, _, _, t, prot => (t, prot)
  | fuel + 1, p, i, t, prot =>
    match p.bind (t[·]?) with
    | none => (t, prot)
    | some n =>
      protectLoop pid fuel (findPage pid i t).1 (i + 1) (findPage pid i t).2
        (Function.update prot n.start true)

/-- `memoryProtect`. Each round of its loop finds a page of another order. -/
def memoryProtect (pid : ℕ) (t : PageTable) (prot : ℕ → Bool) : PageTable × (ℕ → Bool) :=
  protectLoop pid t.length (findPage pid 1 t).1 2 (findPage pid 1 t).2 prot

/-- `updateReference`. -/
def updateReference (t : PageTable) : PageTable := t.map fun n => { n with reference := 0 }

/-- `virtualMemory` for the running thread `pid`. -/
def virtualMemory (pid : ℕ) (t : PageTable) (prot : ℕ → Bool) : PageTable × (ℕ → Bool) :=
  memoryProtect pid (updateReference t) prot

/-- `memoryAllowAll`. -/
def memoryAllowAll : ℕ → Bool := fun _ => false

/-! ### Allocation -/

/-- `p->reference = 1` for the first frame. -/
def setReference (t : PageTable) : PageTable := t.modify 0 fun n => { n with reference := 1 }

/-- `getFreeElement` as far as pages are concerned. The blocks in the pages decide how often the
process grows: the list has an entry for every page reserved, which says whether the last block of
the last page was free then. In the last round `searched` further pages are searched. -/
def getFreeElementPages (pid searched : ℕ) : List Bool → PageState → Option PageState
  | [], s =>
    (loadProcessPages s.pageSize pid s.frames).map fun t =>
      { s with frames := (lastPageLoop pid searched none 2 (setReference t)).2 }
  | lastFree :: grow, s =>
    (loadProcessPages s.pageSize pid s.frames).bind fun t =>
      let t := (lastPageLoop pid t.length none 2 (setReference t)).2
      (reserveAnotherPage pid lastFree { s with frames := t }).bind fun (ok, s) =>
        if ok then getFreeElementPages pid searched grow s else some s

/-! ### The system -/

/-- The number of pages that a process owns, in memory and in the swap file. -/
def PageState.owned (s : PageState) (pid : ℕ) : ℕ := s.keys.countP fun x => x.1 == pid

/-- The pages, the running thread and the protected addresses. `exposed` remembers that memory has
been unprotected for another reason than to load the pages of the running thread since these were
loaded or the thread was switched to; it is not part of the program. -/
structure PageSystem where
  pages : PageRun
  running : ℕ
  prot : ℕ → Bool
  exposed : Bool

/-- The number of pages of the running thread. -/
def PageSystem.owned (s : PageSystem) : ℕ := s.pages.state.owned s.running

/-- The address of the slot `i`, counting from 0. -/
def slotAddress (pageSize i : ℕ) : ℕ := memoryStart + i * pageSize

/-- The state after `initOS`: the main thread, with the id 1, has its page. -/
def PageSystem.start (pageSize reference : ℕ) : Option PageSystem :=
  (getFreePage 1 (init pageSize reference)).map fun (_, st) => ⟨⟨st, [1]⟩, 1, memoryAllowAll, false⟩

/-- What threads do: `create` is `my_pthread_create` for a new id, `osAlloc` an allocation with
`OSREQ` or `SHALLOC`, `alloc` one with `THREADREQ`, `fault` the handler of `SIGSEGV` and `switch` a
context switch. -/
inductive SystemEvent where
  | create (u : ℕ)
  | osAlloc
  | alloc (grow : List Bool) (searched : ℕ)
  | fault
  | switch (u : ℕ)
deriving DecidableEq

/-- One step of the system. -/
def systemStep (s : PageSystem) : SystemEvent → Option PageSystem
  | .create u =>
    if u = 0 ∨ u ∈ s.pages.live then none
    else (getFreePage u s.pages.state).map fun (ok, st) =>
      { s with
        pages := ⟨st, if ok then u :: s.pages.live else s.pages.live⟩
        prot := memoryAllowAll
        exposed := true }
  | .osAlloc =>
    some { s with
      prot := memoryAllowAll
      exposed := s.exposed || !decide (InPlace s.running s.owned s.pages.state.frames) }
  | .alloc grow searched =>
    (getFreeElementPages s.running searched grow s.pages.state).map fun st =>
      { s with pages := ⟨st, s.pages.live⟩, prot := memoryAllowAll, exposed := false }
  | .fault =>
    (loadProcessPages s.pages.state.pageSize s.running s.pages.state.frames).map fun t =>
      { s with
        pages := ⟨{ s.pages.state with frames := t }, s.pages.live⟩
        prot := memoryAllowAll
        exposed := false }
  | .switch u =>
    if u = 0 then none
    else
      let (t, prot) := virtualMemory s.running s.pages.state.frames s.prot
      some ⟨⟨{ s.pages.state with frames := t }, s.pages.live⟩, u, prot, false⟩

/-- The pages of the running thread can be loaded: none of them is in the swap file, and they are
settled. -/
def PageSystem.Loadable (s : PageSystem) : Prop :=
  (∀ n ∈ s.pages.state.swap, n.free = false → n.pid ≠ s.running) ∧
    Settled s.running s.owned s.pages.state.frames

/-- The frame `i` is protected when the running thread is switched out: it holds one of its pages,
and the earlier ones are in memory. -/
def PageSystem.Covered (s : PageSystem) (i : ℕ) : Prop :=
  ∃ j < s.owned, Holds s.pages.state.frames i s.running (j + 1) ∧
    ∀ l < j, (s.running, (l : ℤ) + 1) ∈ keys s.pages.state.frames

/-- What keeps the threads apart. A page that is evicted for a new thread has the order 1; the pages
that are loaded are in memory and settled; and in a switch every slot of the new thread is protected
already, is protected by the switch, or holds its page. -/
def SystemAllowed (s : PageSystem) : SystemEvent → Prop
  | .create u => PageAllowed s.pages (.request u)
  | .osAlloc => True
  | .alloc _ _ => s.Loadable
  | .fault => s.Loadable
  | .switch u => ∀ i < s.pages.state.owned u,
      s.prot (slotAddress s.pages.state.pageSize i) = true ∨ s.Covered i ∨
        Holds s.pages.state.frames i u (i + 1)

instance (s : PageSystem) : Decidable s.Loadable := inferInstanceAs (Decidable (_ ∧ _))

instance (s : PageSystem) (i : ℕ) : Decidable (s.Covered i) :=
  inferInstanceAs (Decidable (∃ j < s.owned, _))

instance (s : PageSystem) (e : SystemEvent) : Decidable (SystemAllowed s e) := by
  rcases e <;> dsimp only [SystemAllowed] <;> infer_instance

/-! ### Protecting the pages of a thread -/

section Protect

variable {t : PageTable} {pid : ℕ}

theorem protectLoop_mono {fuel : ℕ} {p : Option ℕ} {i : ℤ} {prot : ℕ → Bool} {a : ℕ}
    (h : prot a = true) : (protectLoop pid fuel p i t prot).2 a = true := by
  induction fuel generalizing p i t prot with
  | zero => exact h
  | succ fuel ih =>
    rw [protectLoop]
    split
    · exact h
    · refine ih ?_
      rw [Function.update_apply]
      split_ifs
      · rfl
      · exact h

theorem clocksOnly_protectLoop (fuel : ℕ) (p : Option ℕ) (i : ℤ) (t : PageTable)
    (prot : ℕ → Bool) : ClocksOnly t (protectLoop pid fuel p i t prot).1 := by
  induction fuel generalizing p i t prot with
  | zero => exact .refl t
  | succ fuel ih =>
    rw [protectLoop]
    split
    · exact .refl t
    · exact (clocksOnly_findPage pid i t).trans (ih ..)

theorem forall_protectLoop {P : SpaceNode → Prop} (hP : ∀ n : SpaceNode, P n → P n.touch)
    (fuel : ℕ) (p : Option ℕ) (i : ℤ) (prot : ℕ → Bool) (h : ∀ n ∈ t, P n) :
    ∀ n ∈ (protectLoop pid fuel p i t prot).1, P n := by
  induction fuel generalizing p i t prot with
  | zero => exact h
  | succ fuel ih =>
    rw [protectLoop]
    split
    · exact h
    · exact ih _ _ _ (forall_findPage hP h pid i)

/-- From the page `i` on, the loop protects the pages up to the first one that is not in memory. -/
theorem protectLoop_covers {pageSize : ℕ} (hpid : pid ≠ 0) {fuel : ℕ} :
    ∀ {q : ℕ} {i : ℤ} {t : PageTable} {prot : ℕ → Bool} {m a : ℕ}, FreeOk t → (keys t).Nodup →
      Contiguous pageSize t → Holds t q pid i → m < fuel →
      (∀ l ≤ m, HasPage t pid (i + l)) → Holds t a pid (i + m) →
      (protectLoop pid fuel (some q) (i + 1) t prot).2 (slotAddress pageSize a) = true := by
  induction fuel with
  | zero => exact fun _ _ _ _ hm => absurd hm (Nat.not_lt_zero _)
  | succ fuel ih =>
    intro q i t prot m a hfree hnodup hcont hq hm hhas ha
    obtain ⟨n, hn, -⟩ := Option.map_eq_some_iff.mp hq
    rw [protectLoop, Option.bind_some, hn]
    dsimp only
    cases m with
    | zero =>
      obtain rfl : a = q := holds_unique hnodup ha (by simpa using hq)
      refine protectLoop_mono ?_
      rw [slotAddress, ← hcont a n hn, Function.update_self]
    | succ m =>
      have hnext : HasPage t pid (i + 1) := by simpa using hhas 1 (by omega)
      obtain ⟨q', hq', hhold⟩ := hfree.findPage hpid hnext
      have hpage := map_page_findPage pid (i + 1) t
      rw [hq']
      refine ih (m := m) (hfree.of_perm (.of_eq hpage))
        ((keys_perm_of_page (.of_eq hpage)).nodup_iff.mpr hnodup)
        (hcont.of_place (map_place_findPage ..)) ((holds_congr hpage q').mpr hhold) (by omega)
        (fun l hl => ?_) ?_
      · have hl := hhas (l + 1) (by omega)
        rw [HasPage.of_perm (.of_eq hpage)]
        convert hl using 1
        push_cast
        ring
      · rw [holds_congr hpage]
        convert ha using 1
        push_cast
        ring

/-- `memoryProtect` protects every page whose predecessors are in memory. -/
theorem memoryProtect_covers {pageSize j a : ℕ} {prot : ℕ → Bool} (hpid : pid ≠ 0)
    (hfree : FreeOk t) (hnodup : (keys t).Nodup) (hcont : Contiguous pageSize t)
    (ha : Holds t a pid (j + 1)) (hprev : ∀ l < j, (pid, (l : ℤ) + 1) ∈ keys t) :
    (memoryProtect pid t prot).2 (slotAddress pageSize a) = true := by
  have hall (l : ℕ) (hl : l ≤ j) : (pid, (l : ℤ) + 1) ∈ keys t := by
    rcases Nat.lt_or_eq_of_le hl with hl | rfl
    · exact hprev l hl
    · exact ha.mem_keys
  have hlen : ((j : ℤ) + 1) ≤ t.length := le_length_of_pages fun o h₁ h₂ => by
    have := hall (o.toNat - 1) (by omega)
    rwa [show ((o.toNat - 1 : ℕ) : ℤ) + 1 = o by omega] at this
  have hhas (l : ℕ) (hl : l ≤ j) : HasPage t pid (1 + l) := by
    rw [hfree.hasPage_iff hpid, add_comm]
    exact hall l hl
  obtain ⟨q, hq, hhold⟩ := hfree.findPage hpid (by simpa using hhas 0 (by omega))
  have hpage := map_page_findPage pid 1 t
  rw [memoryProtect, hq]
  refine protectLoop_covers (m := j) hpid (hfree.of_perm (.of_eq hpage))
    ((keys_perm_of_page (.of_eq hpage)).nodup_iff.mpr hnodup)
    (hcont.of_place (map_place_findPage ..)) ((holds_congr hpage q).mpr hhold) (by omega)
    (fun l hl => ?_) ?_
  · rw [HasPage.of_perm (.of_eq hpage)]
    exact hhas l hl
  · rw [holds_congr hpage, add_comm]
    exact ha

theorem map_virtualMemory {β : Type*} (g : SpaceNode → β) (hg : ∀ n : SpaceNode, g n.touch = g n)
    (href : ∀ n : SpaceNode, g { n with reference := 0 } = g n) (pid : ℕ) (t : PageTable)
    (prot : ℕ → Bool) : (virtualMemory pid t prot).1.map g = t.map g := by
  have hclocks : ClocksOnly (updateReference t) (virtualMemory pid t prot).1 :=
    (clocksOnly_findPage ..).trans (clocksOnly_protectLoop ..)
  rw [hclocks.map_eq hg, updateReference, List.map_map]
  exact List.map_congr_left fun n _ => href n

theorem clocksZero_virtualMemory {prot : ℕ → Bool} (h : ClocksZero t) :
    ClocksZero (virtualMemory pid t prot).1 := by
  have href : ∀ n ∈ updateReference t, n.swapclock = 0 := by
    rintro n hn
    obtain ⟨m, hm, rfl⟩ := List.mem_map.mp hn
    exact h m hm
  exact forall_protectLoop (P := fun n => n.swapclock = 0) (fun _ _ => rfl) _ _ _ _
    (forall_findPage (P := fun n => n.swapclock = 0) (fun _ _ => rfl) href pid 1)

theorem virtualMemory_covers {pageSize j a : ℕ} {prot : ℕ → Bool} (hpid : pid ≠ 0)
    (hfree : FreeOk t) (hnodup : (keys t).Nodup) (hcont : Contiguous pageSize t)
    (ha : Holds t a pid (j + 1)) (hprev : ∀ l < j, (pid, (l : ℤ) + 1) ∈ keys t) :
    (virtualMemory pid t prot).2 (slotAddress pageSize a) = true := by
  have hmap {β : Type} (g : SpaceNode → β)
      (href : ∀ n : SpaceNode, g { n with reference := 0 } = g n) :
      (updateReference t).map g = t.map g := by
    rw [updateReference, List.map_map]
    exact List.map_congr_left fun n _ => href n
  have hpage := hmap SpaceNode.page fun _ => rfl
  have hkeys : keys (updateReference t) = keys t := by rw [keys_eq, keys_eq, hpage]
  refine memoryProtect_covers hpid (hfree.of_perm (.of_eq hpage)) (hkeys ▸ hnodup)
    (hcont.of_place (hmap SpaceNode.place fun _ => rfl)) ((holds_congr hpage a).mpr ha) ?_
  exact fun l hl => hkeys ▸ hprev l hl

end Protect

/-! ### The number of pages -/

theorem owned_of_perm {st st' : PageState} (h : st'.keys.Perm st.keys) (pid : ℕ) :
    st'.owned pid = st.owned pid :=
  h.countP_eq _

theorem owned_of_map_page (st : PageState) {t : PageTable}
    (h : t.map SpaceNode.page = st.frames.map SpaceNode.page) (pid : ℕ) :
    PageState.owned { st with frames := t } pid = st.owned pid :=
  owned_of_perm ((keys_perm_of_page (.of_eq h)).append_right _) pid

/-- A process owns the orders up to the number of its pages. -/
theorem KeyInv.mem_keys_iff {s : PageRun} (h : KeyInv s) (pid : ℕ) (o : ℤ) :
    (pid, o) ∈ s.state.keys ↔ 1 ≤ o ∧ o ≤ s.state.owned pid := by
  by_cases hlive : pid ∈ s.live
  · obtain ⟨k, hk, ho⟩ := h.orders pid hlive
    have hperm : (s.state.keys.filter fun x => x.1 == pid).Perm
        ((List.range k.toNat).map fun i : ℕ => (pid, (i : ℤ) + 1)) := by
      refine (List.perm_ext_iff_of_nodup (h.nodup.filter _) ?_).mpr fun ⟨q, o⟩ => ?_
      · refine List.Nodup.map (fun i j hij => ?_) List.nodup_range
        have := (Prod.mk.inj hij).2
        omega
      · rw [List.mem_filter, List.mem_map]
        constructor
        · rintro ⟨hm, hq⟩
          obtain rfl : q = pid := by simpa using hq
          have := (ho o).mp hm
          exact ⟨o.toNat - 1, List.mem_range.mpr (by omega), by rw [Prod.mk.injEq]; omega⟩
        · rintro ⟨i, hi, heq⟩
          obtain ⟨rfl, rfl⟩ := Prod.mk.inj heq
          have := List.mem_range.mp hi
          exact ⟨(ho _).mpr (by omega), by simp⟩
    have hcount : s.state.owned pid = k.toNat := by
      rw [PageState.owned, List.countP_eq_length_filter, hperm.length_eq, List.length_map,
        List.length_range]
    rw [ho, hcount]
    omega
  · have hnone (o : ℤ) : (pid, o) ∉ s.state.keys := fun hm => hlive (h.owned pid o hm)
    have hcount : s.state.owned pid = 0 := by
      rw [PageState.owned, List.countP_eq_zero]
      rintro ⟨q, o⟩ hm hq
      obtain rfl : q = pid := by simpa using hq
      exact hnone o hm
    rw [hcount]
    exact ⟨fun hm => absurd hm (hnone o), fun ho => absurd ho (by omega)⟩

theorem KeyInv.owned_pos {s : PageRun} (h : KeyInv s) {pid : ℕ} (hlive : pid ∈ s.live) :
    1 ≤ s.state.owned pid := by
  obtain ⟨k, hk, ho⟩ := h.orders pid hlive
  have := (h.mem_keys_iff pid 1).mp ((ho 1).mpr ⟨le_rfl, hk⟩)
  omega

/-! ### Loading and growing -/

section Load

variable {st st' : PageState} {live : List ℕ} {pid : ℕ}

/-- The pages are the same, in the same frames. -/
theorem KeyInv.of_map_page {t : PageTable} (h : KeyInv ⟨st, live⟩)
    (hpage : t.map SpaceNode.page = st.frames.map SpaceNode.page)
    (hclocks : ClocksZero st.frames → ClocksZero t) : KeyInv ⟨{ st with frames := t }, live⟩ :=
  h.of_perm ((keys_perm_of_page (.of_eq hpage)).append_right _) (h.freeOk.of_perm (.of_eq hpage))
    fun hslot => hclocks (h.clocks hslot)

/-- A thread without pages in the swap file has all of them in memory. -/
theorem KeyInv.inMemory (h : KeyInv ⟨st, live⟩) (hpid : pid ≠ 0)
    (hswap : ∀ o, (pid, o) ∉ keys st.swap) : InMemory pid (st.owned pid) st.frames := by
  refine ⟨hpid, h.nodup.of_append_left, h.freeOk, fun o => ?_⟩
  have hiff := h.mem_keys_iff pid o
  rw [PageState.keys, List.mem_append, or_iff_left (hswap o)] at hiff
  rw [h.freeOk.hasPage_iff hpid, hiff]

/-- Only a thread that has been given a page can load its pages. -/
theorem KeyInv.mem_live_of_load {t : PageTable} (h : KeyInv ⟨st, live⟩) (hpid : pid ≠ 0)
    (hload : loadProcessPages st.pageSize pid st.frames = some t) : pid ∈ live := by
  rw [loadProcessPages] at hload
  split at hload
  · cases hload
  · rename_i p t₁ heq
    obtain ⟨⟨n, hn, hp, ho⟩, -⟩ := findPage_eq_some (congrArg Prod.fst heq)
    have hkey := (h.freeOk.hasPage_iff hpid 1).mp ⟨n, List.mem_iff_getElem?.mpr ⟨p, hn⟩, hp, ho⟩
    exact h.owned pid 1 (List.mem_append_left _ hkey)

/-- Loading brings the pages to their places. -/
theorem KeyInv.inPlace_load {t : PageTable} (h : KeyInv ⟨st, live⟩) (hpid : pid ≠ 0)
    (hcont : Contiguous st.pageSize st.frames) (hsize : 0 < st.pageSize)
    (hswap : ∀ o, (pid, o) ∉ keys st.swap) (hset : Settled pid (st.owned pid) st.frames)
    (hload : loadProcessPages st.pageSize pid st.frames = some t) :
    InPlace pid (st.owned pid) t :=
  (h.inMemory hpid hswap).inPlace_load hcont hsize (h.owned_pos (h.mem_live_of_load hpid hload))
    hset hload

theorem owned_load {t : PageTable} (hload : loadProcessPages st.pageSize pid st.frames = some t)
    (u : ℕ) : PageState.owned { st with frames := t } u = st.owned u :=
  owned_of_perm ((keys_perm_of_page (page_perm_of_info (perm_loadProcessPages hload))).append_right
    _) u

/-- A process that has grown owns one page more. -/
theorem KeyInv.owned_reserve (h : KeyInv ⟨st, live⟩) {lastFree : Bool} (hlive : pid ∈ live)
    (hswap : ∀ o, (pid, o) ∉ keys st.swap)
    (hres : reserveAnotherPage pid lastFree st = some (true, st')) :
    st'.owned pid = st.owned pid + 1 := by
  rcases h.reserve_eq_some hlive (by have := h.owned_pos hlive; omega) (h.mem_keys_iff pid)
    (fun _ => hswap) hres with ⟨hf, -⟩ | ⟨-, s₁, t₃, -, hgrown, hload, hsw, -⟩
  · cases hf
  have hperm := keys_perm_of_page (page_perm_of_info (perm_loadProcessPages hload))
  rw [PageState.owned, PageState.keys, hsw,
    ((hperm.append_right _).trans hgrown.keys).countP_eq, List.countP_cons_of_pos (by simp)]
  rfl

/-- What `getFreeElement` does to pages that can be loaded. -/
structure Placed (live : List ℕ) (pid : ℕ) (st st' : PageState) : Prop where
  keys : KeyInv ⟨st', live⟩
  pageSize : st'.pageSize = st.pageSize
  place : st'.frames.map SpaceNode.place = st.frames.map SpaceNode.place
  inPlace : InPlace pid (st'.owned pid) st'.frames

/-- Loading, marking the first frame and searching further pages. -/
theorem KeyInv.placed_search {t : PageTable} (h : KeyInv ⟨st, live⟩) (hpid : pid ≠ 0)
    (hcont : Contiguous st.pageSize st.frames) (hsize : 0 < st.pageSize)
    (hswap : ∀ o, (pid, o) ∉ VM.keys st.swap) (hset : Settled pid (st.owned pid) st.frames)
    (hload : loadProcessPages st.pageSize pid st.frames = some t) (fuel : ℕ) :
    Placed live pid st
      { st with frames := (lastPageLoop pid fuel none 2 (setReference t)).2 } := by
  have hmap {β : Type} (g : SpaceNode → β) (hg : ∀ n : SpaceNode, g n.touch = g n)
      (href : ∀ n : SpaceNode, g { n with reference := 1 } = g n) :
      (lastPageLoop pid fuel none 2 (setReference t)).2.map g = t.map g :=
    ((clocksOnly_lastPageLoop ..).map_eq hg).trans (map_modify_eq g href t 0)
  have hpage := hmap SpaceNode.page (fun _ => rfl) fun _ => rfl
  have hzero (hz : ClocksZero t) :
      ClocksZero (lastPageLoop pid fuel none 2 (setReference t)).2 :=
    forall_lastPageLoop (P := fun n => n.swapclock = 0) (fun _ _ => rfl) pid fuel none 2
      (forall_mem_modify hz fun n hn => hz n (List.mem_iff_getElem?.mpr ⟨0, hn⟩))
  have hkeys := (h.load hload).of_map_page hpage hzero
  refine ⟨hkeys, rfl, (hmap _ (fun _ => rfl) fun _ => rfl).trans (map_place_loadProcessPages hload),
    (inPlace_congr hpage _).mpr ?_⟩
  rw [owned_of_map_page { st with frames := t } hpage, owned_load hload]
  exact h.inPlace_load hpid hcont hsize hswap hset hload

/-- The pages of the process are in place after `getFreeElement`, however often it grows. -/
theorem KeyInv.placed_getFreeElementPages {searched : ℕ} (hpid : pid ≠ 0) (grow : List Bool) :
    ∀ {st st' : PageState}, KeyInv ⟨st, live⟩ → Contiguous st.pageSize st.frames →
      0 < st.pageSize → (∀ o, (pid, o) ∉ keys st.swap) → Settled pid (st.owned pid) st.frames →
      getFreeElementPages pid searched grow st = some st' → Placed live pid st st' := by
  induction grow with
  | nil =>
    intro st st' h hcont hsize hswap hset hget
    obtain ⟨t, hload, rfl⟩ := Option.map_eq_some_iff.mp hget
    exact h.placed_search hpid hcont hsize hswap hset hload searched
  | cons lastFree grow ih =>
    intro st st' h hcont hsize hswap hset hget
    obtain ⟨t, hload, hget⟩ := Option.bind_eq_some_iff.mp hget
    obtain ⟨⟨ok, st₂⟩, hres, hget⟩ := Option.bind_eq_some_iff.mp hget
    have hlive := h.mem_live_of_load hpid hload
    have h₁ := h.placed_search hpid hcont hsize hswap hset hload t.length
    have hcont₁ := hcont.of_place h₁.place
    have hpos := h₁.keys.owned_pos hlive
    have hplace₂ := map_place_reserveAnotherPage hres
    have hkeys₂ := h₁.keys.reserve hlive hres fun _ => hswap
    have hreserve := h₁.keys.reserve_eq_some hlive (by omega) (h₁.keys.mem_keys_iff pid)
      (fun _ => hswap) hres
    cases ok with
    | false =>
      obtain rfl := Option.some.inj hget
      rcases hreserve with ⟨-, -, t₂, hclocks, rfl⟩ | ⟨hf, -⟩
      · have hpage := hclocks.map_eq (g := SpaceNode.page) fun _ => rfl
        refine ⟨hkeys₂, rfl, hplace₂.trans h₁.place, ?_⟩
        rw [owned_of_map_page _ hpage]
        exact (inPlace_congr hpage _).mpr h₁.inPlace
      · cases hf
    | true =>
      have hin₂ := h₁.keys.inPlace_reserve hlive hpos (h₁.keys.mem_keys_iff pid) hcont₁ hsize
        h₁.inPlace hres
      rw [← h₁.keys.owned_reserve hlive hswap hres] at hin₂
      rcases hreserve with ⟨hf, -⟩ | ⟨-, -, -, -, -, -, -, hsz⟩
      · cases hf
      have h₂ := ih hkeys₂ (hsz ▸ hcont₁.of_place hplace₂) (hsz ▸ hsize)
        (hkeys₂.not_mem_swap_of_inPlace (hkeys₂.mem_keys_iff pid) hin₂)
        (hin₂.settled hkeys₂.nodup.of_append_left (hkeys₂.owned_pos hlive)) hget
      exact ⟨h₂.keys, h₂.pageSize.trans hsz, h₂.place.trans (hplace₂.trans h₁.place), h₂.inPlace⟩

end Load

/-! ### The invariant -/

/-- While the running thread is not exposed, each of its slots is protected or holds its page. -/
structure IsolationInv (s : PageSystem) : Prop where
  keys : KeyInv s.pages
  pos : s.running ≠ 0
  pageSize : 0 < s.pages.state.pageSize
  contiguous : Contiguous s.pages.state.pageSize s.pages.state.frames
  isolated : s.exposed = false → ∀ i < s.owned,
    s.prot (slotAddress s.pages.state.pageSize i) = true ∨
      Holds s.pages.state.frames i s.running (i + 1)

section Steps

variable {s s' : PageSystem}

theorem PageSystem.Loadable.not_mem_keys (h : s.Loadable) (o : ℤ) :
    (s.running, o) ∉ VM.keys s.pages.state.swap := by
  intro hm
  obtain ⟨n, hn, hkey⟩ := List.mem_filterMap.mp hm
  rw [SpaceNode.key] at hkey
  split_ifs at hkey with hf
  exact h.1 n hn (by simpa using hf) (Prod.mk.inj (Option.some.inj hkey)).1

theorem IsolationInv.create (h : IsolationInv s) {u : ℕ}
    (hok : SystemAllowed s (.create u)) (hs : systemStep s (.create u) = some s') :
    IsolationInv s' := by
  simp only [systemStep] at hs
  split_ifs at hs with hu
  obtain ⟨⟨ok, st⟩, hget, rfl⟩ := Option.map_eq_some_iff.mp hs
  have hkeys := h.keys.request (fun he => hu (Or.inl he)) (fun hm => hu (Or.inr hm)) hget hok
  have hsize := pageSize_getFreePage hget
  refine ⟨hkeys, h.pos, ?_, ?_, nofun⟩
  · exact hsize ▸ h.pageSize
  · exact hsize ▸ h.contiguous.of_place (map_place_getFreePage hget)

theorem IsolationInv.osAlloc (h : IsolationInv s) (hs : systemStep s .osAlloc = some s') :
    IsolationInv s' := by
  obtain rfl := Option.some.inj hs
  refine ⟨h.keys, h.pos, h.pageSize, h.contiguous, fun he i hi => Or.inr ?_⟩
  simp only [Bool.or_eq_false_iff, Bool.not_eq_false', decide_eq_true_eq] at he
  exact he.2 i hi

theorem IsolationInv.alloc (h : IsolationInv s) {grow : List Bool} {searched : ℕ}
    (hok : s.Loadable) (hs : systemStep s (.alloc grow searched) = some s') :
    IsolationInv s' := by
  obtain ⟨st, hget, rfl⟩ := Option.map_eq_some_iff.mp hs
  have hplaced := h.keys.placed_getFreeElementPages h.pos grow h.contiguous h.pageSize
    hok.not_mem_keys hok.2 hget
  refine ⟨hplaced.keys, h.pos, ?_, ?_, fun _ i hi => Or.inr (hplaced.inPlace i hi)⟩
  · exact hplaced.pageSize ▸ h.pageSize
  · exact hplaced.pageSize ▸ h.contiguous.of_place hplaced.place

theorem IsolationInv.fault (h : IsolationInv s) (hok : s.Loadable)
    (hs : systemStep s .fault = some s') : IsolationInv s' := by
  obtain ⟨t, hload, rfl⟩ := Option.map_eq_some_iff.mp hs
  have hin := h.keys.inPlace_load h.pos h.contiguous h.pageSize hok.not_mem_keys hok.2 hload
  refine ⟨h.keys.load hload, h.pos, h.pageSize,
    h.contiguous.of_place (map_place_loadProcessPages hload), fun _ i hi => Or.inr (hin i ?_)⟩
  exact hi.trans_eq (owned_load hload s.running)

theorem IsolationInv.switch (h : IsolationInv s) {u : ℕ} (hok : SystemAllowed s (.switch u))
    (hs : systemStep s (.switch u) = some s') : IsolationInv s' := by
  simp only [systemStep] at hs
  split_ifs at hs with hu
  obtain rfl := Option.some.inj hs
  have hpage := map_virtualMemory SpaceNode.page (fun _ => rfl) (fun _ => rfl) s.running
    s.pages.state.frames s.prot
  have hplace := map_virtualMemory SpaceNode.place (fun _ => rfl) (fun _ => rfl) s.running
    s.pages.state.frames s.prot
  have hkeys := h.keys.of_map_page hpage fun hz => ?_
  refine ⟨hkeys, hu, h.pageSize, h.contiguous.of_place hplace, fun _ i hi => ?_⟩
  · have hi' : i < s.pages.state.owned u := hi.trans_eq (owned_of_map_page _ hpage u)
    rcases hok i hi' with hprot | ⟨j, -, hj, hprev⟩ | hhold
    · exact Or.inl (protectLoop_mono hprot)
    · exact Or.inl (virtualMemory_covers h.pos h.keys.freeOk h.keys.nodup.of_append_left
        h.contiguous hj hprev)
    · exact Or.inr ((holds_congr hpage i).mpr hhold)
  · exact clocksZero_virtualMemory hz

end Steps

/-! ### Runs -/

theorem getElem?_initNodes {pageSize nodeLimit maxSize : ℕ} {node : ℕ → SpaceNode} {fuel i j : ℕ}
    {n : SpaceNode} (h : (initNodes pageSize nodeLimit maxSize node fuel i)[j]? = some n) :
    n.start = (node (i + j)).start := by
  induction fuel generalizing i j with
  | zero => simp [initNodes] at h
  | succ fuel ih =>
    rw [initNodes] at h
    by_cases hmore : sizeofSpaceNode * i < nodeLimit ∧ i * pageSize < maxSize
    · rw [if_pos hmore] at h
      cases j with
      | zero => exact (Option.some.inj h) ▸ rfl
      | succ j =>
        rw [ih (i := i + 1) (j := j) h]
        congr 2
        omega
    · rw [if_neg hmore] at h
      cases h

theorem contiguous_initFrames (pageSize reference : ℕ) :
    Contiguous pageSize (initFrames pageSize reference) := by
  intro i n hn
  rw [initFrames] at hn
  rw [getElem?_initNodes hn, Nat.zero_add]
  rfl

theorem isolationInv_start {s : PageSystem} {pageSize reference : ℕ} (hsize : 0 < pageSize)
    (h : PageSystem.start pageSize reference = some s) : IsolationInv s := by
  obtain ⟨⟨ok, st⟩, hget, rfl⟩ := Option.map_eq_some_iff.mp h
  have hinit := keyInv_init pageSize reference
  have hcont := contiguous_initFrames pageSize reference
  have hframes : (init pageSize reference).frames = initFrames pageSize reference := by rw [init]
  have hallfree : ∀ n ∈ (init pageSize reference).frames, n.free = true := by
    rw [hframes]
    exact forall_initFrames (fun _ _ _ hf => hf) fun _ => rfl
  have hsize₁ : st.pageSize = pageSize := by
    rw [pageSize_getFreePage hget, init]
  have hkeys₀ := keys_init pageSize reference
  have hcont₁ : Contiguous st.pageSize st.frames := by
    refine hsize₁ ▸ hcont.of_place ?_
    rw [map_place_getFreePage hget, hframes]
  rcases getFreePage_eq_some hget with ⟨rfl, i, n, hn, hfree, rfl⟩ |
    ⟨hfull, j, t, n, -, hn, hclocks, -⟩
  · have hob := @obtains_takePage 1 _ _ _ hn hfree hinit.freeOk
    have hkeys := hinit.request one_ne_zero List.not_mem_nil hget fun hfull =>
      absurd (hfull n (List.mem_iff_getElem?.mpr ⟨i, hn⟩)) (by simp [hfree])
    rw [(hinit.freeOk n (List.mem_iff_getElem?.mpr ⟨i, hn⟩) hfree).2] at hob
    have howned : (takePage 1 i (init pageSize reference)).owned 1 = 1 := by
      rw [PageState.owned, hob.keys.countP_eq, hkeys₀]
      rfl
    refine ⟨hkeys, one_ne_zero, hsize₁ ▸ hsize, hcont₁, fun _ j hj => Or.inr ?_⟩
    obtain rfl : j = 0 := Nat.lt_one_iff.mp (hj.trans_eq howned)
    obtain ⟨q, hq, hpage⟩ := hob.first
    rw [Holds, hq]
    exact congrArg some hpage
  · -- a full memory without pages
    have hmem : n.touch ∈ (init pageSize reference).frames.map SpaceNode.touch :=
      hclocks ▸ List.mem_map_of_mem (List.mem_iff_getElem?.mpr ⟨j, hn⟩)
    obtain ⟨m, hm, -⟩ := List.mem_map.mp hmem
    exact absurd ((hallfree m hm).symm.trans (hfull m hm)) (by decide)

theorem isolationInv_systemStep {s s' : PageSystem} {e : SystemEvent} (h : IsolationInv s)
    (hok : SystemAllowed s e) (hs : systemStep s e = some s') : IsolationInv s' := by
  cases e with
  | create u => exact h.create hok hs
  | osAlloc => exact h.osAlloc hs
  | alloc grow searched => exact h.alloc hok hs
  | fault => exact h.fault hok hs
  | switch u => exact h.switch hok hs

/-- **Page isolation.** In every run from `initOS` whose steps are allowed, whenever the running
thread is not exposed, each slot of its pages is protected or holds its own page. -/
theorem page_isolation {pageSize reference : ℕ} (hsize : 0 < pageSize) {s₀ s : PageSystem}
    (hstart : PageSystem.start pageSize reference = some s₀) {es : List SystemEvent}
    (hok : RunOk systemStep SystemAllowed s₀ es) (hrun : run systemStep s₀ es = some s)
    (hexposed : s.exposed = false) (i : ℕ) (hi : i < s.owned) :
    s.prot (slotAddress s.pages.state.pageSize i) = true ∨
      Holds s.pages.state.frames i s.running (i + 1) := by
  have h := run_invariant (fun _ _ _ hi hok hs => isolationInv_systemStep hi hok hs)
    (isolationInv_start hsize hstart) hok hrun
  exact h.isolated hexposed i hi

/-- A run in which the main thread creates a thread, grows and is switched out and in again. -/
def switchRun : List SystemEvent :=
  [.alloc [] 0, .create 2, .alloc [true] 0, .switch 2, .fault, .switch 1, .fault]

/-- The theorem at the end of that run. -/
theorem page_isolation_switch :
    ∃ s₀ s, PageSystem.start 16384 0 = some s₀ ∧ run systemStep s₀ switchRun = some s ∧
      s.owned = 2 ∧ ∀ i < 2, s.prot (slotAddress s.pages.state.pageSize i) = true ∨
        Holds s.pages.state.frames i s.running (i + 1) := by
  have hend : ((PageSystem.start 16384 0).bind fun s₀ =>
      if RunOk systemStep SystemAllowed s₀ switchRun then
        (run systemStep s₀ switchRun).map fun s => (s.owned, s.exposed)
      else none) = some (2, false) := by decide +kernel
  obtain ⟨s₀, hstart, hend⟩ := Option.bind_eq_some_iff.mp hend
  split_ifs at hend with hok
  obtain ⟨s, hrun, hproj⟩ := Option.map_eq_some_iff.mp hend
  obtain ⟨howned, hexposed⟩ := Prod.mk.inj hproj
  exact ⟨s₀, s, hstart, hrun, howned, fun i hi =>
    page_isolation (by norm_num) hstart hok hrun hexposed i (howned ▸ hi)⟩

/-- The main thread allocates, creates a thread and accesses its first page again: the first frame
is not protected and holds the page of the new thread. -/
theorem create_exposes_first_frame :
    ∃ s₀ s, PageSystem.start 4096 0 = some s₀ ∧
      run systemStep s₀ [.alloc [] 0, .create 2] = some s ∧ s.running = 1 ∧ s.owned = 1 ∧
      s.prot (slotAddress s.pages.state.pageSize 0) = false ∧
      Holds s.pages.state.frames 0 2 1 := by
  have hend : ((PageSystem.start 4096 0).bind fun s₀ =>
      (run systemStep s₀ [.alloc [] 0, .create 2]).map fun s =>
        (s.running, s.owned, s.prot (slotAddress s.pages.state.pageSize 0),
          decide (Holds s.pages.state.frames 0 2 1))) = some (1, 1, false, true) := by
    decide +kernel
  obtain ⟨s₀, hstart, hend⟩ := Option.bind_eq_some_iff.mp hend
  obtain ⟨s, hrun, hproj⟩ := Option.map_eq_some_iff.mp hend
  simp only [Prod.mk.injEq, decide_eq_true_eq] at hproj
  exact ⟨s₀, s, hstart, hrun, hproj⟩

end OSDesign.VM
