import Mathlib.Data.List.Perm.Subperm
import OSDesign.VM.Isolation

/-!
# The life of a page

A thread gets its first page when it is created and further ones when its allocations do not fit.
Nothing takes a page back: a thread that exits keeps its pages, and `mydeallocate` is never called
for a page. Nor does anything leave the swap file, since `USE_FIND_IN_SWAP` is 0. So the pages in
use only grow in number, up to the number of frames and slots that `init` has laid out, and this
bounds how many threads can get a page in the whole life of the program (`pages_never_returned`).

A thread of which page 1 is in the swap file runs on as long as it does not touch its pages. Its
first allocation or page fault dereferences `NULL`, in `loadProcessPages`, and no later event can
change that (`evicted_thread_is_lost`).

Both hold for all runs of the system of `OSDesign.VM.Isolation`, without the conditions under which
the threads are kept apart.

## Main definitions

* `Retains`: every page in use stays in use, and every page in the swap file stays in its slot.
* `Accounted`: every thread that was given a page is accounted for.
* `FirstPages`: no thread has page 1 twice.

## Main results

* `Crowd.creates`, `Accounted.exists_absent`: more threads than frames can be created, and then the
  page 1 of one of them is not in memory.
* `pages_never_returned`, `evicted_thread_is_lost`.
-/

namespace OSDesign.VM

open Transition ListUpdate

/-! ### What the operations retain -/

/-- Every page in use stays in use, and every page in the swap file stays in its slot. -/
structure Retains (s s' : PageState) : Prop where
  keys : s.keys.Subperm s'.keys
  slots : ∀ (k : ℕ) (n : SpaceNode), s.swap[k]? = some n → n.free = false → s'.swap[k]? = some n
  frames : s'.frames.length = s.frames.length
  swap : s'.swap.length = s.swap.length
  freeOk : FreeOk s'.frames

section Retains

variable {s s' s'' : PageState} {t t' : PageTable} {pid : ℕ}

theorem Retains.refl (h : FreeOk s.frames) : Retains s s :=
  ⟨List.Subperm.refl _, fun _ _ hn _ => hn, rfl, rfl, h⟩

theorem Retains.trans (h : Retains s s') (h' : Retains s' s'') : Retains s s'' where
  keys := h.keys.trans h'.keys
  slots k n hn hfull := h'.slots k n (h.slots k n hn hfull) hfull
  frames := h'.frames.trans h.frames
  swap := h'.swap.trans h.swap
  freeOk := h'.freeOk

/-- The frames are permuted. -/
theorem retains_of_perm (hfree : FreeOk s.frames)
    (hp : (t.map SpaceNode.page).Perm (s.frames.map SpaceNode.page)) :
    Retains s { s with frames := t } where
  keys := ((keys_perm_of_page hp).append_right _).symm.subperm
  slots _ _ hn _ := hn
  frames := by simpa using hp.length_eq
  swap := rfl
  freeOk := hfree.of_perm hp

/-- A page is obtained; the slot that is written, if any, was free. -/
theorem Obtains.retains {order : ℤ} (h : Obtains pid order s s')
    (hslots : ∀ (k : ℕ) (n : SpaceNode), s.swap[k]? = some n → n.free = false →
      s'.swap[k]? = some n)
    (hframes : s'.frames.length = s.frames.length) (hswap : s'.swap.length = s.swap.length) :
    Retains s s' where
  keys := (List.subperm_cons_self ..).trans h.keys.symm.subperm
  slots := hslots
  frames := hframes
  swap := hswap
  freeOk := h.freeOk

/-- `getFreePage` obtains a page, or changes nothing but clocks. -/
theorem retains_getFreePage {ok : Bool} (hfree : FreeOk s.frames)
    (h : getFreePage pid s = some (ok, s')) :
    Retains s s' ∧ (ok = true → ∃ order, Obtains pid order s s') := by
  have hframes := length_getFreePage h
  rcases getFreePage_eq_some h with ⟨-, i, n, hn, hf, rfl⟩ |
    ⟨-, j, t, n, -, hn, hclocks, hfull, ⟨rfl, -, rfl⟩ | ⟨-, k, slot, hslot, hf, rfl⟩⟩
  · have hobtains : Obtains pid n.order s (takePage pid i s) := obtains_takePage hn hf hfree
    exact ⟨hobtains.retains (fun _ _ hm _ => hm) hframes rfl, fun _ => ⟨_, hobtains⟩⟩
  · have hpage : t.map SpaceNode.page = s.frames.map SpaceNode.page := hclocks.map_eq fun _ => rfl
    exact ⟨retains_of_perm hfree (.of_eq hpage), fun hok => absurd hok (by decide)⟩
  · have hobtains : Obtains pid n.order s (takePage pid j (evicted s t j k n)) :=
      obtains_evicted hclocks hn hfull hslot hf
    refine ⟨hobtains.retains (fun k' m hm hmfull => ?_) hframes (List.length_modify ..),
      fun _ => ⟨_, hobtains⟩⟩
    -- the slot of `m` is in use, and the one that is written was free
    have hne : k ≠ k' := by
      rintro rfl
      rw [Option.some.inj (hslot.symm.trans hm), hmfull] at hf
      cases hf
    change (s.swap.modify k _)[k']? = some m
    rw [List.getElem?_modify, hm]
    exact congrArg some (if_neg hne)

theorem ClocksOnly.getElem?_order (h : ClocksOnly t t') {q : ℕ} {n : SpaceNode}
    (hn : t'[q]? = some n) : ∃ m, t[q]? = some m ∧ m.order = n.order := by
  have hmap : t'.map SpaceNode.order = t.map SpaceNode.order := h.map_eq fun _ => rfl
  have hq : (t.map SpaceNode.order)[q]? = some n.order := by rw [← hmap, List.getElem?_map, hn]; rfl
  rw [List.getElem?_map] at hq
  exact Option.map_eq_some_iff.mp hq

/-- The last page of a process that the search finds is numbered from 1 on. -/
theorem one_le_order_lastPageLoop {fuel p : ℕ} {last : Option ℕ} {i : ℤ} (hi : 1 ≤ i)
    (hlast : ∀ q ∈ last, ∀ n, t[q]? = some n → 1 ≤ n.order)
    (h : (lastPageLoop pid fuel last i t).1 = some p) :
    ∀ n, (lastPageLoop pid fuel last i t).2[p]? = some n → 1 ≤ n.order := by
  induction fuel generalizing last i t with
  | zero => exact hlast p h
  | succ fuel ih =>
    rcases hfind : findPage pid i t with ⟨_ | q, t₁⟩
    · rw [lastPageLoop, hfind] at h ⊢
      intro n hn
      have hclocks : ClocksOnly t t₁ := by simpa only [hfind] using clocksOnly_findPage pid i t
      obtain ⟨m, hm, heq⟩ := hclocks.getElem?_order hn
      exact heq ▸ hlast p h m hm
    · rw [lastPageLoop, hfind] at h ⊢
      refine ih (by omega) (fun q' hq' n hn => ?_) h
      obtain rfl := Option.mem_some_iff.mp hq'
      have hclocks : ClocksOnly t t₁ := by simpa only [hfind] using clocksOnly_findPage pid i t
      obtain ⟨⟨m, hm, -, hord⟩, -⟩ := findPage_eq_some (congrArg Prod.fst hfind)
      obtain ⟨m', hm', heq⟩ := hclocks.getElem?_order hn
      rw [← heq, ← Option.some.inj (hm.symm.trans hm'), hord]
      exact hi

theorem one_le_order_getLastProcessPage {p : ℕ} (h : (getLastProcessPage pid t).1 = some p) :
    ∀ n, (getLastProcessPage pid t).2[p]? = some n → 1 ≤ n.order := by
  refine one_le_order_lastPageLoop (by decide) (fun q hq n hn => ?_) h
  obtain ⟨⟨m, hm, -, hord⟩, -⟩ := findPage_eq_some hq
  obtain ⟨m', hm', heq⟩ := (clocksOnly_findPage pid 1 t).getElem?_order hn
  rw [← heq, ← Option.some.inj (hm.symm.trans hm'), hord]

/-- `setLastOrder` sets the order of the first frame, to 2 or more, and changes clocks. -/
theorem exists_of_setLastOrder (h : setLastOrder pid t = some t') :
    ∃ o t₁, 2 ≤ o ∧ t₁.map SpaceNode.page = t.map SpaceNode.page ∧ t' = setOrder o t₁ := by
  have hlast := (clocksOnly_getLastProcessPage pid t).map_eq (g := SpaceNode.page) fun _ => rfl
  have hone {p : ℕ} : (getLastProcessPage pid t).1 = some p →
      ∀ n, (getLastProcessPage pid t).2[p]? = some n → 1 ≤ n.order :=
    one_le_order_getLastProcessPage
  rw [setLastOrder] at h
  split at h
  · cases h
  · rename_i p t₁ heq
    rw [heq] at hlast hone
    obtain ⟨last, hp, rfl⟩ := Option.map_eq_some_iff.mp h
    have := hone rfl last hp
    exact ⟨last.order + 1, t₁, by omega, hlast, rfl⟩

/-- The outcomes of `reserveAnotherPage`: no page is obtained, or the new page, in the first frame,
is given its order, which is -1 first, and the pages of the process are loaded. -/
theorem reserveAnotherPage_eq_some {lastFree ok : Bool}
    (h : reserveAnotherPage pid lastFree s = some (ok, s')) :
    (ok = false ∧ getFreePage pid s = some (false, s')) ∨
      (ok = true ∧ ∃ s₁ t₁ o t₂, getFreePage pid s = some (true, s₁) ∧ 2 ≤ o ∧
        t₁.map SpaceNode.page = (setOrder (-1) s₁.frames).map SpaceNode.page ∧
        loadProcessPages s₁.pageSize pid (setOrder o t₁) = some t₂ ∧
        s' = { s₁ with frames := t₂ }) := by
  obtain ⟨⟨got, s₁⟩, hget, h⟩ := Option.bind_eq_some_iff.mp h
  cases got with
  | false =>
    obtain ⟨rfl, rfl⟩ := Prod.mk.inj (Option.some.inj h)
    exact Or.inl ⟨rfl, hget⟩
  | true =>
    obtain ⟨t₀, hjoin, h⟩ := Option.bind_eq_some_iff.mp h
    obtain ⟨t, hlast, h⟩ := Option.bind_eq_some_iff.mp h
    obtain ⟨t₂, hload, h⟩ := Option.map_eq_some_iff.mp h
    obtain ⟨rfl, rfl⟩ := Prod.mk.inj h
    obtain ⟨o, t₁, ho, hpage, rfl⟩ := exists_of_setLastOrder hlast
    have hjoined : t₀.map SpaceNode.page = (setOrder (-1) s₁.frames).map SpaceNode.page :=
      map_joinFreeSpace (fun _ => rfl) (fun _ => rfl) hjoin
    exact Or.inr ⟨rfl, s₁, t₁, o, t₂, hget, ho, hpage.trans hjoined, hload, rfl⟩

/-- The key of the new page changes twice, the other keys stay. -/
theorem keys_renumber {o₁ o : ℤ} {q : SpaceNode} (hq : t[0]? = some q)
    (hqpage : q.page = (pid, o₁, false))
    (hpage : t'.map SpaceNode.page = (setOrder (-1) t).map SpaceNode.page) :
    ((pid, o₁) :: keys (setOrder o t')).Perm ((pid, o) :: keys t) := by
  obtain ⟨q₁, hq₁, hq₁page⟩ := setOrder_first hq hqpage (-1)
  obtain ⟨q₂, hq₂, hq₂page⟩ := first_of_map_page hpage hq₁
  refine List.Perm.cons_inv (a := (pid, (-1 : ℤ))) ?_
  calc ((pid, -1) :: (pid, o₁) :: keys (setOrder o t')).Perm
        ((pid, o₁) :: (pid, -1) :: keys (setOrder o t')) := .swap ..
    _ |>.Perm ((pid, o₁) :: (pid, o) :: keys t') :=
        (keys_setOrder hq₂ (hq₂page.trans hq₁page) o).cons _
    _ |>.Perm ((pid, o) :: (pid, o₁) :: keys t') := .swap ..
    _ |>.Perm ((pid, o) :: (pid, o₁) :: keys (setOrder (-1) t)) :=
        ((keys_perm_of_page (.of_eq hpage)).cons _).cons _
    _ |>.Perm ((pid, o) :: (pid, -1) :: keys t) := (keys_setOrder hq hqpage (-1)).cons _
    _ |>.Perm ((pid, -1) :: (pid, o) :: keys t) := .swap ..

theorem freeOk_renumber {o₁ o : ℤ} {q : SpaceNode} (h : FreeOk t) (hq : t[0]? = some q)
    (hqpage : q.page = (pid, o₁, false))
    (hpage : t'.map SpaceNode.page = (setOrder (-1) t).map SpaceNode.page) :
    FreeOk (setOrder o t') := by
  obtain ⟨q₁, hq₁, hq₁page⟩ := setOrder_first hq hqpage (-1)
  obtain ⟨q₂, hq₂, hq₂page⟩ := first_of_map_page hpage hq₁
  have h₁ := (h.setOrder hq hqpage (-1)).of_perm (.of_eq hpage)
  exact h₁.setOrder hq₂ (hq₂page.trans hq₁page) o

/-- A request that fails changes clocks only. -/
theorem keys_getFreePage_false (h : getFreePage pid s = some (false, s')) :
    s'.keys.Perm s.keys := by
  rcases getFreePage_eq_some h with ⟨hok, -⟩ |
    ⟨-, j, t, n, -, -, hclocks, -, ⟨-, -, rfl⟩ | ⟨hok, -⟩⟩
  · cases hok
  · have hpage : t.map SpaceNode.page = s.frames.map SpaceNode.page := hclocks.map_eq fun _ => rfl
    exact (keys_perm_of_page (.of_eq hpage)).append_right _
  · cases hok

/-- A process that has grown has one more page, of number 2 or more. -/
theorem keys_reserveAnotherPage {lastFree ok : Bool} (hfree : FreeOk s.frames)
    (h : reserveAnotherPage pid lastFree s = some (ok, s')) :
    ∃ os : List ℤ, (∀ o ∈ os, 2 ≤ o) ∧ s'.keys.Perm (os.map (pid, ·) ++ s.keys) := by
  rcases reserveAnotherPage_eq_some h with ⟨-, hget⟩ |
    ⟨-, s₁, t₁, o, t₂, hget, ho, hpage, hload, rfl⟩
  · exact ⟨[], by simp, keys_getFreePage_false hget⟩
  obtain ⟨o₁, hobtains⟩ := (retains_getFreePage hfree hget).2 rfl
  obtain ⟨q, hq, hqpage⟩ := hobtains.first
  have hperm := page_perm_of_info (perm_loadProcessPages hload)
  refine ⟨[o], by simpa using ho, List.Perm.cons_inv (a := (pid, o₁)) ?_⟩
  calc ((pid, o₁) :: (keys t₂ ++ keys s₁.swap)).Perm
        ((pid, o₁) :: (keys (setOrder o t₁) ++ keys s₁.swap)) :=
        ((keys_perm_of_page hperm).append_right _).cons _
    _ |>.Perm ((pid, o) :: (keys s₁.frames ++ keys s₁.swap)) :=
        (keys_renumber hq hqpage hpage).append_right _
    _ |>.Perm ((pid, o) :: (pid, o₁) :: s.keys) := hobtains.keys.cons _
    _ |>.Perm ((pid, o₁) :: (pid, o) :: s.keys) := .swap ..

theorem retains_reserveAnotherPage {lastFree ok : Bool} (hfree : FreeOk s.frames)
    (h : reserveAnotherPage pid lastFree s = some (ok, s')) : Retains s s' := by
  obtain ⟨os, -, hkeys⟩ := keys_reserveAnotherPage hfree h
  have hsub : s.keys.Subperm s'.keys :=
    (List.sublist_append_right ..).subperm.trans hkeys.symm.subperm
  rcases reserveAnotherPage_eq_some h with ⟨-, hget⟩ |
    ⟨-, s₁, t₁, o, t₂, hget, -, hpage, hload, rfl⟩
  · exact (retains_getFreePage hfree hget).1
  obtain ⟨hret, hobt⟩ := retains_getFreePage hfree hget
  obtain ⟨o₁, hobtains⟩ := hobt rfl
  obtain ⟨q, hq, hqpage⟩ := hobtains.first
  have hperm := page_perm_of_info (perm_loadProcessPages hload)
  refine ⟨hsub, hret.slots, ?_, hret.swap,
    (freeOk_renumber hret.freeOk hq hqpage hpage).of_perm hperm⟩
  have hlen := hperm.length_eq
  have hlen₁ := congrArg List.length hpage
  simp only [List.length_map, setOrder, List.length_modify] at hlen hlen₁
  exact (hlen.trans hlen₁).trans hret.frames

theorem map_page_search (pid fuel : ℕ) (t : PageTable) :
    (lastPageLoop pid fuel none 2 (setReference t)).2.map SpaceNode.page =
      t.map SpaceNode.page :=
  ((clocksOnly_lastPageLoop ..).map_eq fun _ => rfl).trans
    (map_modify_eq SpaceNode.page (f := fun n => { n with reference := 1 }) (fun _ => rfl) t 0)

/-- Loading the pages of a process and searching them. -/
theorem retains_search (fuel : ℕ) (hfree : FreeOk s.frames)
    (hload : loadProcessPages s.pageSize pid s.frames = some t) :
    Retains s { s with frames := (lastPageLoop pid fuel none 2 (setReference t)).2 } :=
  retains_of_perm hfree ((List.Perm.of_eq (map_page_search pid fuel t)).trans
    (page_perm_of_info (perm_loadProcessPages hload)))

/-- An allocation, however often the process grows for it. -/
theorem retains_getFreeElementPages {searched : ℕ} {grow : List Bool} (hfree : FreeOk s.frames)
    (h : getFreeElementPages pid searched grow s = some s') : Retains s s' := by
  induction grow generalizing s with
  | nil =>
    obtain ⟨t, hload, rfl⟩ := Option.map_eq_some_iff.mp h
    exact retains_search _ hfree hload
  | cons lastFree grow ih =>
    obtain ⟨t, hload, h⟩ := Option.bind_eq_some_iff.mp h
    obtain ⟨⟨ok, s₂⟩, hres, h⟩ := Option.bind_eq_some_iff.mp h
    have h₁ := retains_search t.length hfree hload
    have h₂ := h₁.trans (retains_reserveAnotherPage h₁.freeOk hres)
    cases ok with
    | false =>
      obtain rfl := Option.some.inj h
      exact h₂
    | true => exact h₂.trans (ih h₂.freeOk h)

/-- The pages that an allocation adds are those of the process, numbered from 2 on. -/
theorem keys_getFreeElementPages {searched : ℕ} {grow : List Bool} (hfree : FreeOk s.frames)
    (h : getFreeElementPages pid searched grow s = some s') :
    ∃ os : List ℤ, (∀ o ∈ os, 2 ≤ o) ∧ s'.keys.Perm (os.map (pid, ·) ++ s.keys) := by
  have hsearch {s : PageState} {t : PageTable} (fuel : ℕ)
      (hload : loadProcessPages s.pageSize pid s.frames = some t) :
      (keys (lastPageLoop pid fuel none 2 (setReference t)).2).Perm (keys s.frames) :=
    keys_perm_of_page ((List.Perm.of_eq (map_page_search pid fuel t)).trans
      (page_perm_of_info (perm_loadProcessPages hload)))
  induction grow generalizing s with
  | nil =>
    obtain ⟨t, hload, rfl⟩ := Option.map_eq_some_iff.mp h
    exact ⟨[], by simp, (hsearch _ hload).append_right _⟩
  | cons lastFree grow ih =>
    obtain ⟨t, hload, h⟩ := Option.bind_eq_some_iff.mp h
    obtain ⟨⟨ok, s₂⟩, hres, h⟩ := Option.bind_eq_some_iff.mp h
    have hfree₁ := (retains_search t.length hfree hload).freeOk
    obtain ⟨os, hos, hkeys⟩ := keys_reserveAnotherPage hfree₁ hres
    have hkeys' := hkeys.trans (((hsearch t.length hload).append_right _).append_left _)
    cases ok with
    | false =>
      obtain rfl := Option.some.inj h
      exact ⟨os, hos, hkeys'⟩
    | true =>
      obtain ⟨os', hos', hrest⟩ := ih (retains_reserveAnotherPage hfree₁ hres).freeOk h
      refine ⟨os' ++ os, fun o ho => (List.mem_append.mp ho).elim (hos' o) (hos o), ?_⟩
      rw [List.map_append, List.append_assoc]
      exact hrest.trans (hkeys'.append_left _)

end Retains

/-! ### Runs of the system -/

section Runs

variable {s s' : PageSystem} {e : SystemEvent} {es : List SystemEvent}

/-- Every step of the system retains all pages. -/
theorem retains_systemStep (hfree : FreeOk s.pages.state.frames) (hs : systemStep s e = some s') :
    Retains s.pages.state s'.pages.state := by
  cases e with
  | create u =>
    simp only [systemStep] at hs
    split_ifs at hs
    obtain ⟨⟨ok, st⟩, hget, rfl⟩ := Option.map_eq_some_iff.mp hs
    exact (retains_getFreePage hfree hget).1
  | osAlloc =>
    obtain rfl := Option.some.inj hs
    exact .refl hfree
  | alloc grow searched =>
    obtain ⟨st, hget, rfl⟩ := Option.map_eq_some_iff.mp hs
    exact retains_getFreeElementPages hfree hget
  | fault =>
    obtain ⟨t, hload, rfl⟩ := Option.map_eq_some_iff.mp hs
    exact retains_of_perm hfree (page_perm_of_info (perm_loadProcessPages hload))
  | switch u =>
    simp only [systemStep] at hs
    split_ifs at hs
    obtain rfl := Option.some.inj hs
    exact retains_of_perm hfree (.of_eq (map_virtualMemory _ (fun _ => rfl) (fun _ => rfl) ..))

theorem retains_run (hfree : FreeOk s.pages.state.frames) (hrun : run systemStep s es = some s') :
    Retains s.pages.state s'.pages.state := by
  induction es generalizing s with
  | nil =>
    obtain rfl := Option.some.inj hrun
    exact .refl hfree
  | cons e es ih =>
    obtain ⟨t, ht, hrun⟩ := Option.bind_eq_some_iff.mp hrun
    have h := retains_systemStep hfree ht
    exact h.trans (ih h.freeOk hrun)

/-- Every thread that was given a page is counted once, and there is a page for each. -/
structure Accounted (s : PageSystem) : Prop where
  freeOk : FreeOk s.pages.state.frames
  pos : 0 ∉ s.pages.live
  nodup : s.pages.live.Nodup
  pages : s.pages.live.length ≤ s.pages.state.keys.length

theorem Accounted.of_retains (h : Accounted s)
    (hret : Retains s.pages.state s'.pages.state) (hlive : s'.pages.live = s.pages.live) :
    Accounted s' := by
  refine ⟨hret.freeOk, hlive ▸ h.pos, hlive ▸ h.nodup, ?_⟩
  rw [hlive]
  exact h.pages.trans hret.keys.length_le

theorem accounted_systemStep (h : Accounted s) (hs : systemStep s e = some s') : Accounted s' := by
  have hret := retains_systemStep h.freeOk hs
  cases e with
  | create u =>
    simp only [systemStep] at hs
    split_ifs at hs with hu
    obtain ⟨⟨ok, st⟩, hget, rfl⟩ := Option.map_eq_some_iff.mp hs
    cases ok with
    | false => exact h.of_retains hret rfl
    | true =>
      obtain ⟨order, hobtains⟩ := (retains_getFreePage h.freeOk hget).2 rfl
      obtain ⟨hpos, hnew⟩ := not_or.mp hu
      refine ⟨hret.freeOk, ?_, List.nodup_cons.mpr ⟨hnew, h.nodup⟩, ?_⟩
      · exact fun hm => (List.mem_cons.mp hm).elim (fun heq => hpos heq.symm) h.pos
      · exact (Nat.succ_le_succ h.pages).trans hobtains.keys.length_eq.ge
  | osAlloc =>
    obtain rfl := Option.some.inj hs
    exact h.of_retains hret rfl
  | alloc grow searched =>
    obtain ⟨st, -, rfl⟩ := Option.map_eq_some_iff.mp hs
    exact h.of_retains hret rfl
  | fault =>
    obtain ⟨t, -, rfl⟩ := Option.map_eq_some_iff.mp hs
    exact h.of_retains hret rfl
  | switch u =>
    simp only [systemStep] at hs
    split_ifs at hs
    obtain rfl := Option.some.inj hs
    exact h.of_retains hret rfl

theorem length_keys_le (t : PageTable) : (keys t).length ≤ t.length := List.length_filterMap_le ..

/-- While all frames are free a request succeeds. -/
theorem getFreePage_of_free {st st' : PageState} {pid : ℕ} {ok : Bool}
    (hall : ∀ n ∈ st.frames, n.free = true) (h : getFreePage pid st = some (ok, st')) :
    ok = true := by
  rcases getFreePage_eq_some h with ⟨hok, -⟩ | ⟨hfull, j, t, n, -, hn, hclocks, -⟩
  · exact hok
  · have hlen : t.length = st.frames.length := by simpa using congrArg List.length hclocks
    have hj := (List.getElem?_eq_some_iff.mp hn).1
    have hmem := List.getElem_mem (hlen ▸ hj)
    exact absurd ((hfull _ hmem).symm.trans (hall _ hmem)) (by decide)

/-- The main thread is given its page. -/
theorem accounted_first {st st' : PageState} {ok : Bool} {prot : ℕ → Bool} {exposed : Bool}
    (hfree : FreeOk st.frames) (hall : ∀ n ∈ st.frames, n.free = true)
    (hget : getFreePage 1 st = some (ok, st')) :
    Accounted ⟨⟨st', [1]⟩, 1, prot, exposed⟩ ∧ Retains st st' := by
  obtain rfl := getFreePage_of_free hall hget
  obtain ⟨hret, hobt⟩ := retains_getFreePage hfree hget
  obtain ⟨order, hobtains⟩ := hobt rfl
  refine ⟨⟨hret.freeOk, ?_, List.nodup_singleton 1, ?_⟩, hret⟩
  · exact fun hm => absurd (List.mem_singleton.mp hm) (by decide)
  · exact (Nat.le_add_left 1 _).trans hobtains.keys.length_eq.ge

theorem frames_init (pageSize reference : ℕ) :
    (init pageSize reference).frames = initFrames pageSize reference := by
  rw [init]

/-- The frames and slots are those of `init`. -/
theorem accounted_start {pageSize reference : ℕ}
    (hstart : PageSystem.start pageSize reference = some s) :
    Accounted s ∧ Retains (init pageSize reference) s.pages.state := by
  obtain ⟨⟨ok, st⟩, hget, rfl⟩ := Option.map_eq_some_iff.mp hstart
  refine accounted_first (keyInv_init pageSize reference).freeOk ?_ hget
  rw [frames_init]
  exact forall_initFrames (P := fun n => n.free = true) (fun _ _ _ hf => hf) fun _ => rfl

/-! ### More threads than frames -/

theorem exists_free_of_length_keys_lt {t : PageTable} (h : (keys t).length < t.length) :
    ∃ n ∈ t, n.free = true := by
  by_contra hall
  refine h.ne (List.filterMap_length_eq_length.mpr fun n hn => ?_)
  rw [SpaceNode.key, if_neg fun hf => hall ⟨n, hn, hf⟩]
  rfl

/-- A process without a page is given one as long as a frame or a slot is free. -/
theorem getFreePage_of_room {st : PageState} {u : ℕ} (hframes : st.frames ≠ [])
    (hnew : ∀ k ∈ st.keys, k.1 ≠ u)
    (hroom : st.keys.length < st.frames.length + st.swap.length) :
    ∃ st', getFreePage u st = some (true, st') := by
  cases hfree : findFreePage st.frames with
  | some n =>
    refine ⟨takePage u n st, ?_⟩
    simp only [getFreePage, hfree]
  | none =>
    -- the last frame is in use by another process, and its page goes to a free slot
    have hfull := findFreePage_eq_none hfree
    have hkeys : (keys st.frames).length = st.frames.length :=
      List.filterMap_length_eq_length.mpr fun n hn => by rw [SpaceNode.key, hfull n hn]; rfl
    obtain ⟨slot, hslot, hsfree⟩ : ∃ n ∈ st.swap, n.free = true := by
      refine exists_free_of_length_keys_lt ?_
      rw [PageState.keys, List.length_append] at hroom
      omega
    obtain ⟨k, hk⟩ : ∃ k, st.swap.findIdx? (·.free) = some k := by
      refine Option.ne_none_iff_exists'.mp fun hnone => ?_
      rw [List.findIdx?_eq_none_iff.mp hnone slot hslot] at hsfree
      cases hsfree
    obtain ⟨n, hlast⟩ : ∃ n, st.frames.getLast? = some n :=
      ⟨_, List.getLast?_eq_some_getLast hframes⟩
    have hmem := List.mem_of_getLast? hlast
    have hpid : n.pid ≠ u := by
      refine hnew (n.pid, n.order) (List.mem_append_left _ (List.mem_filterMap.mpr ⟨n, hmem, ?_⟩))
      rw [SpaceNode.key, hfull n hmem]
      rfl
    have hget : st.frames[st.frames.length - 1]? = some n := by
      rwa [← List.getLast?_eq_getElem?]
    obtain ⟨i, hi⟩ := Option.ne_none_iff_exists'.mp (findFreePage_release hget)
    refine ⟨takePage u i (evicted st st.frames (st.frames.length - 1) k n), ?_⟩
    simp only [getFreePage, hfree, movePageToSwap, getVictimPage_of_last hlast hpid,
      Option.bind_some, hk, hget, if_true, hi, Option.map_some]
    rfl

/-- A state in which every thread has one page, in memory or in the swap file. -/
structure Crowd (s : PageSystem) : Prop where
  accounted : Accounted s
  owners : ∀ k ∈ s.pages.state.keys, k.1 ∈ s.pages.live
  each : s.pages.state.keys.length = s.pages.live.length

theorem Crowd.create {u : ℕ} (h : Crowd s) (hframes : s.pages.state.frames ≠ []) (hu : u ≠ 0)
    (hnew : u ∉ s.pages.live)
    (hroom : s.pages.live.length < s.pages.state.frames.length + s.pages.state.swap.length) :
    ∃ s', systemStep s (.create u) = some s' ∧ Crowd s' ∧
      s'.pages.live = u :: s.pages.live := by
  have howned : ∀ k ∈ s.pages.state.keys, k.1 ≠ u := fun k hk heq => hnew (heq ▸ h.owners k hk)
  obtain ⟨st, hget⟩ := getFreePage_of_room hframes howned (h.each ▸ hroom)
  have hstep : systemStep s (.create u) = some { s with
      pages := ⟨st, u :: s.pages.live⟩, prot := memoryAllowAll, exposed := true } := by
    rw [systemStep, if_neg (not_or.mpr ⟨hu, hnew⟩), hget]
    rfl
  obtain ⟨order, hobtains⟩ := (retains_getFreePage h.accounted.freeOk hget).2 rfl
  refine ⟨_, hstep, ⟨accounted_systemStep h.accounted hstep, fun k hk => ?_, ?_⟩, rfl⟩
  · rcases List.mem_cons.mp (hobtains.keys.mem_iff.mp hk) with rfl | hk
    · exact List.mem_cons_self
    · exact List.mem_cons_of_mem u (h.owners k hk)
  · exact hobtains.keys.length_eq.trans (congrArg Nat.succ h.each)

/-- Threads are created until the frames and the slots are used up. -/
theorem Crowd.creates (us : List ℕ) (h : Crowd s) (hframes : s.pages.state.frames ≠ [])
    (hus : us.Nodup) (hnew : ∀ u ∈ us, u ≠ 0 ∧ u ∉ s.pages.live)
    (hroom : s.pages.live.length + us.length ≤
      s.pages.state.frames.length + s.pages.state.swap.length) :
    ∃ s', run systemStep s (us.map .create) = some s' ∧ Crowd s' ∧
      s'.pages.live.length = s.pages.live.length + us.length ∧
      s'.pages.live ⊆ us ++ s.pages.live := by
  induction us generalizing s with
  | nil => exact ⟨s, rfl, h, rfl, List.Subset.refl _⟩
  | cons u us ih =>
    obtain ⟨hu, hus⟩ := List.nodup_cons.mp hus
    rw [List.length_cons] at hroom
    obtain ⟨s₁, hs₁, h₁, hlive⟩ := h.create hframes (hnew u List.mem_cons_self).1
      (hnew u List.mem_cons_self).2 (by omega)
    have hret := retains_systemStep h.accounted.freeOk hs₁
    obtain ⟨s', hrun, h', hlen, hsub⟩ := ih h₁
      (fun hnil => hframes (List.eq_nil_of_length_eq_zero (by rw [← hret.frames, hnil]; rfl))) hus
      (fun v hv => ⟨(hnew v (List.mem_cons_of_mem u hv)).1, fun hm => by
        rw [hlive] at hm
        rcases List.mem_cons.mp hm with rfl | hm
        · exact hu hv
        · exact (hnew v (List.mem_cons_of_mem u hv)).2 hm⟩)
      (by rw [hlive, List.length_cons, hret.frames, hret.swap]; omega)
    rw [hlive] at hlen hsub
    refine ⟨s', by rw [List.map_cons, run_cons, hs₁, Option.bind_some, hrun], h', ?_,
      fun v hv => ?_⟩
    · rw [hlen, List.length_cons, List.length_cons]
      omega
    · exact List.perm_middle.mem_iff.mp (hsub hv)

/-- With more threads than frames, page 1 of some thread is not in memory. -/
theorem Accounted.exists_absent (h : Accounted s)
    (hmany : s.pages.state.frames.length < s.pages.live.length) :
    ∃ u ∈ s.pages.live, ¬ HasPage s.pages.state.frames u 1 := by
  by_contra hall
  have hsub : s.pages.live.map (fun u => (u, (1 : ℤ))) ⊆
      s.pages.state.frames.map fun n => (n.pid, n.order) := by
    intro k hk
    obtain ⟨u, hu, rfl⟩ := List.mem_map.mp hk
    obtain ⟨n, hn, rfl, ho⟩ := not_not.mp fun hno => hall ⟨u, hu, hno⟩
    exact List.mem_map.mpr ⟨n, hn, by rw [ho]⟩
  have hinj : Function.Injective fun u : ℕ => (u, (1 : ℤ)) := fun _ _ heq => (Prod.mk.inj heq).1
  have hle := ((h.nodup.map hinj).subperm hsub).length_le
  rw [List.length_map, List.length_map] at hle
  omega

/-- The creation of 357 threads. With 16 KiB pages there are 357 frames, and the main thread has
one of them. -/
def crowdedRun : List SystemEvent := (List.range' 2 357).map .create

/-- After that run there are more threads than frames. -/
theorem exists_crowd :
    ∃ s₀ s, PageSystem.start 16384 0 = some s₀ ∧ run systemStep s₀ crowdedRun = some s ∧
      Crowd s ∧ s.pages.live.length = 358 ∧ s.pages.live ⊆ List.range' 2 357 ++ [1] ∧
      s.pages.state.frames.length = 357 ∧ s.pages.state.swap.length = 183 := by
  have hend : (PageSystem.start 16384 0).map (fun s => (s.pages.live, s.pages.state.keys,
      s.pages.state.frames.length, s.pages.state.swap.length)) =
      some ([1], [(1, 1)], 357, 183) := by
    decide +kernel
  obtain ⟨s₀, hstart, hproj⟩ := Option.map_eq_some_iff.mp hend
  simp only [Prod.mk.injEq] at hproj
  obtain ⟨hlive, hkeys, hframes, hswap⟩ := hproj
  have hcrowd : Crowd s₀ := by
    refine ⟨(accounted_start hstart).1, fun k hk => ?_, by rw [hkeys, hlive]; rfl⟩
    rw [hkeys, List.mem_singleton] at hk
    rw [hk, hlive]
    exact List.mem_singleton_self 1
  have hne : s₀.pages.state.frames ≠ [] := fun hnil => by
    rw [hnil] at hframes
    cases hframes
  obtain ⟨s, hrun, h, hlen, hsub⟩ := hcrowd.creates (List.range' 2 357) hne
    List.nodup_range' (fun u hu => by
      rw [hlive, List.mem_singleton]
      have := (List.mem_range'_1.mp hu).1
      omega) (by rw [hlive, hframes, hswap, List.length_range']; decide)
  rw [hlive] at hlen hsub
  have hret := retains_run hcrowd.accounted.freeOk hrun
  exact ⟨s₀, s, hstart, hrun, h, by rw [hlen, List.length_range']; rfl, hsub,
    hret.frames.trans hframes, hret.swap.trans hswap⟩

/-- **Pages are never returned.** From any state that the system reaches, whatever the threads do
next: the pages in use stay in use, and a page in the swap file stays in its slot. There are at most
as many pages in use as `init` has laid out frames and slots, and so many threads, at most, are ever
given a page. -/
theorem pages_never_returned {pageSize reference : ℕ} {s₀ s s' : PageSystem}
    {es fs : List SystemEvent} (hstart : PageSystem.start pageSize reference = some s₀)
    (hes : run systemStep s₀ es = some s) (hfs : run systemStep s fs = some s') :
    s.pages.state.keys.Subperm s'.pages.state.keys ∧
      (∀ (k : ℕ) (n : SpaceNode), s.pages.state.swap[k]? = some n → n.free = false →
        s'.pages.state.swap[k]? = some n) ∧
      s'.pages.live.Nodup ∧ s'.pages.live.length ≤ s'.pages.state.keys.length ∧
      s'.pages.state.keys.length ≤
        (initFrames pageSize reference).length + (initSwap pageSize reference).length := by
  obtain ⟨h₀, hinit⟩ := accounted_start hstart
  have h := run_invariant_of_step (fun _ _ _ hi hs => accounted_systemStep hi hs) h₀ hes
  have h' := run_invariant_of_step (fun _ _ _ hi hs => accounted_systemStep hi hs) h hfs
  have hret := retains_run h.freeOk hfs
  have hall := hinit.trans ((retains_run h₀.freeOk hes).trans hret)
  refine ⟨hret.keys, hret.slots, h'.nodup, h'.pages, ?_⟩
  rw [PageState.keys, List.length_append]
  have hframes : s'.pages.state.frames.length = (initFrames pageSize reference).length := by
    rw [hall.frames, frames_init]
  have hswap : s'.pages.state.swap.length = (initSwap pageSize reference).length := by
    rw [hall.swap, init]
  exact Nat.add_le_add ((length_keys_le _).trans hframes.le) ((length_keys_le _).trans hswap.le)

/-- The theorem after that run, when one more thread is created. -/
theorem pages_never_returned_crowded :
    ∃ s₀ s s', PageSystem.start 16384 0 = some s₀ ∧ run systemStep s₀ crowdedRun = some s ∧
      run systemStep s [.create 359] = some s' ∧ keys s.pages.state.swap ≠ [] ∧
      s.pages.state.keys.Subperm s'.pages.state.keys ∧ s'.pages.live.length = 359 ∧
      s'.pages.state.keys.length ≤ (initFrames 16384 0).length + (initSwap 16384 0).length := by
  obtain ⟨s₀, s, hstart, hes, h, hlive, hsub, hframes, hswap⟩ := exists_crowd
  have hne : s.pages.state.frames ≠ [] := fun hnil => by
    rw [hnil] at hframes
    cases hframes
  have hnew : 359 ∉ s.pages.live := fun hm => absurd (hsub hm) (by decide)
  obtain ⟨s', hs', -, hlive'⟩ := h.create hne (u := 359) (by decide) hnew
    (by rw [hlive, hframes, hswap]; decide)
  have hfs : run systemStep s [.create 359] = some s' := by
    rw [run_cons, hs', Option.bind_some, run_nil]
  obtain ⟨hkeys, -, -, -, hbound⟩ := pages_never_returned hstart hes hfs
  refine ⟨s₀, s, s', hstart, hes, hfs, fun hnil => ?_, hkeys, ?_, hbound⟩
  · -- otherwise all 358 pages are in frames
    have heach := h.each
    have hle := length_keys_le s.pages.state.frames
    rw [PageState.keys, hnil, List.append_nil, hlive] at heach
    omega
  · rw [hlive', List.length_cons, hlive]

end Runs

/-! ### Threads of which page 1 is not in memory -/

section Lost

variable {s s' : PageState} {t t' : PageTable} {u v : ℕ}

/-- Without its first page a process cannot be loaded. -/
theorem loadProcessPages_eq_none (pageSize : ℕ) (h : ¬ HasPage t u 1) :
    loadProcessPages pageSize u t = none := by
  rw [loadProcessPages]
  split
  · rfl
  · rename_i p t₁ heq
    obtain ⟨⟨n, hn, hp, ho⟩, -⟩ := findPage_eq_some (congrArg Prod.fst heq)
    exact absurd ⟨n, List.mem_iff_getElem?.mpr ⟨p, hn⟩, hp, ho⟩ h

/-- A frame is taken by another process. -/
theorem not_hasPage_takePage {i : ℕ} (hvu : v ≠ u) (h : ¬ HasPage s.frames u 1) :
    ¬ HasPage (takePage v i s).frames u 1 := by
  rw [takePage, HasPage.of_perm (map_page_swapPages_perm ..)]
  rintro ⟨n, hn, hp, ho⟩
  have hold : ∀ m ∈ s.frames, ¬ (m.pid = u ∧ m.order = 1) := fun m hm hpo => h ⟨m, hm, hpo⟩
  exact forall_mem_modify (P := fun m => ¬ (m.pid = u ∧ m.order = 1)) hold
    (fun m _ hpo => hvu hpo.1) n hn ⟨hp, ho⟩

theorem not_hasPage_getFreePage {ok : Bool} (hu : u ≠ 0) (hvu : v ≠ u)
    (h : ¬ HasPage s.frames u 1) (hget : getFreePage v s = some (ok, s')) :
    ¬ HasPage s'.frames u 1 := by
  have hclocked {t : PageTable} (hclocks : ClocksOnly s.frames t) : ¬ HasPage t u 1 := by
    rwa [HasPage.of_perm (.of_eq (hclocks.map_eq fun _ => rfl))]
  rcases getFreePage_eq_some hget with ⟨-, i, n, -, -, rfl⟩ |
    ⟨-, j, t, n, -, -, hclocks, -, ⟨-, -, rfl⟩ | ⟨-, k, slot, -, -, rfl⟩⟩
  · exact not_hasPage_takePage hvu h
  · exact hclocked hclocks
  · refine not_hasPage_takePage hvu ?_
    -- the frame of the evicted page belongs to nobody
    rintro ⟨n', hn', hp, ho⟩
    exact forall_mem_modify (P := fun m => ¬ (m.pid = u ∧ m.order = 1))
      (fun m hm hpo => hclocked hclocks ⟨m, hm, hpo⟩) (fun m _ hpo => hu hpo.1.symm) n' hn' ⟨hp, ho⟩

/-- The first frame, of another process, is renumbered. -/
theorem not_hasPage_setOrder {o o' : ℤ} {q : SpaceNode} (hvu : v ≠ u) (hq : t[0]? = some q)
    (hqpage : q.page = (v, o', false)) (h : ¬ HasPage t u 1) : ¬ HasPage (setOrder o t) u 1 := by
  rintro ⟨n, hn, hp, ho⟩
  refine forall_mem_modify (P := fun m => ¬ (m.pid = u ∧ m.order = 1))
    (fun m hm hpo => h ⟨m, hm, hpo⟩) (fun m hm hpo => hvu ?_) n hn ⟨hp, ho⟩
  obtain rfl := Option.some.inj (hq.symm.trans hm)
  exact (congrArg Prod.fst hqpage).symm.trans hpo.1

theorem not_hasPage_load {pageSize : ℕ} (h : ¬ HasPage t u 1)
    (hload : loadProcessPages pageSize v t = some t') : ¬ HasPage t' u 1 := by
  rwa [HasPage.of_perm (page_perm_of_info (perm_loadProcessPages hload))]

theorem not_hasPage_reserve {lastFree ok : Bool} (hu : u ≠ 0) (hvu : v ≠ u)
    (hfree : FreeOk s.frames) (h : ¬ HasPage s.frames u 1)
    (hres : reserveAnotherPage v lastFree s = some (ok, s')) : ¬ HasPage s'.frames u 1 := by
  rcases reserveAnotherPage_eq_some hres with ⟨-, hget⟩ |
    ⟨-, s₁, t₁, o, t₂, hget, -, hpage, hload, rfl⟩
  · exact not_hasPage_getFreePage hu hvu h hget
  obtain ⟨o₁, hobtains⟩ := (retains_getFreePage hfree hget).2 rfl
  obtain ⟨q, hq, hqpage⟩ := hobtains.first
  obtain ⟨q₁, hq₁, hq₁page⟩ := setOrder_first hq hqpage (-1)
  obtain ⟨q₂, hq₂, hq₂page⟩ := first_of_map_page hpage hq₁
  refine not_hasPage_load (not_hasPage_setOrder hvu hq₂ (hq₂page.trans hq₁page) ?_) hload
  rw [HasPage.of_perm (.of_eq hpage)]
  exact not_hasPage_setOrder hvu hq hqpage (not_hasPage_getFreePage hu hvu h hget)

/-- An allocation by another process. -/
theorem not_hasPage_getFreeElementPages {searched : ℕ} {grow : List Bool} (hu : u ≠ 0)
    (hvu : v ≠ u) (hfree : FreeOk s.frames) (h : ¬ HasPage s.frames u 1)
    (hget : getFreeElementPages v searched grow s = some s') : ¬ HasPage s'.frames u 1 := by
  have hsearch {s : PageState} {t : PageTable} (fuel : ℕ) (h : ¬ HasPage s.frames u 1)
      (hload : loadProcessPages s.pageSize v s.frames = some t) :
      ¬ HasPage (lastPageLoop v fuel none 2 (setReference t)).2 u 1 := by
    rw [HasPage.of_perm (.of_eq (map_page_search v fuel t))]
    exact not_hasPage_load h hload
  induction grow generalizing s with
  | nil =>
    obtain ⟨t, hload, rfl⟩ := Option.map_eq_some_iff.mp hget
    exact hsearch searched h hload
  | cons lastFree grow ih =>
    obtain ⟨t, hload, hget⟩ := Option.bind_eq_some_iff.mp hget
    obtain ⟨⟨ok, s₂⟩, hres, hget⟩ := Option.bind_eq_some_iff.mp hget
    have hfree₁ := (retains_search t.length hfree hload).freeOk
    have h₂ := not_hasPage_reserve hu hvu hfree₁ (hsearch t.length h hload) hres
    cases ok with
    | false =>
      obtain rfl := Option.some.inj hget
      exact h₂
    | true => exact ih (retains_reserveAnotherPage hfree₁ hres).freeOk h₂ hget

/-- Pages belong to threads that were given one, and no thread has page 1 twice. -/
structure FirstPages (s : PageSystem) : Prop where
  accounted : Accounted s
  running : s.running ≠ 0
  owners : ∀ k ∈ s.pages.state.keys, k.1 ∈ s.pages.live
  once : ∀ u, s.pages.state.keys.count (u, 1) ≤ 1

/-- The thread `u` was given a page, and its page 1 is not in memory. -/
structure Lost (u : ℕ) (s : PageSystem) : Prop where
  accounted : Accounted s
  live : u ∈ s.pages.live
  absent : ¬ HasPage s.pages.state.frames u 1

variable {s s' : PageSystem} {e : SystemEvent}

theorem FirstPages.of_perm (h : FirstPages s) (hs : systemStep s e = some s')
    (hkeys : s'.pages.state.keys.Perm s.pages.state.keys) (hlive : s'.pages.live = s.pages.live)
    (hrun : s'.running ≠ 0) : FirstPages s' where
  accounted := accounted_systemStep h.accounted hs
  running := hrun
  owners k hk := hlive ▸ h.owners k (hkeys.mem_iff.mp hk)
  once u := (hkeys.count_eq _).trans_le (h.once u)

theorem hasPage_iff_mem_keys {t : PageTable} (hfree : FreeOk t) (hu : u ≠ 0) {o : ℤ} :
    HasPage t u o ↔ (u, o) ∈ keys t := by
  rw [keys, List.mem_filterMap]
  refine exists_congr fun n => and_congr_right fun hn => ?_
  rw [SpaceNode.key]
  split_ifs with hf
  · exact iff_of_false (fun hpo => hu (hpo.1.symm.trans (hfree n hn hf).1)) (by simp)
  · rw [Option.some.injEq, Prod.mk.injEq]

/-- A thread that loads its pages has been given one. -/
theorem FirstPages.running_mem (h : FirstPages s) {t : PageTable}
    (hload : loadProcessPages s.pages.state.pageSize s.running s.pages.state.frames = some t) :
    s.running ∈ s.pages.live := by
  have hpage : HasPage s.pages.state.frames s.running 1 := not_not.mp fun hno => by
    rw [loadProcessPages_eq_none _ hno] at hload
    cases hload
  have hmem := (hasPage_iff_mem_keys h.accounted.freeOk h.running).mp hpage
  exact h.owners _ (List.mem_append_left _ hmem)

/-- The first page of a thread comes with its creation, the later ones have other numbers. -/
theorem firstPages_systemStep (h : FirstPages s) (hs : systemStep s e = some s') :
    FirstPages s' := by
  have hacc := accounted_systemStep h.accounted hs
  have hstep := hs
  cases e with
  | create v =>
    simp only [systemStep] at hs
    split_ifs at hs with hv
    obtain ⟨⟨ok, st⟩, hget, rfl⟩ := Option.map_eq_some_iff.mp hs
    cases ok with
    | false => exact h.of_perm hstep (keys_getFreePage_false hget) rfl h.running
    | true =>
      obtain ⟨o, hobtains⟩ := (retains_getFreePage h.accounted.freeOk hget).2 rfl
      have hnew (o' : ℤ) : (v, o') ∉ s.pages.state.keys :=
        fun hm => hv (Or.inr (h.owners _ hm))
      refine ⟨hacc, h.running, fun k hk => ?_, fun u => ?_⟩
      · rcases List.mem_cons.mp (hobtains.keys.mem_iff.mp hk) with rfl | hk
        · exact List.mem_cons_self
        · exact List.mem_cons_of_mem v (h.owners k hk)
      · dsimp only
        rw [hobtains.keys.count_eq, List.count_cons]
        by_cases huv : u = v
        · subst huv
          rw [List.count_eq_zero_of_not_mem (hnew 1)]
          split_ifs <;> omega
        · rw [if_neg (by simp [Ne.symm huv]), Nat.add_zero]
          exact h.once u
  | osAlloc =>
    obtain rfl := Option.some.inj hs
    exact h.of_perm hstep (List.Perm.refl _) rfl h.running
  | alloc grow searched =>
    obtain ⟨st, hget, rfl⟩ := Option.map_eq_some_iff.mp hs
    have hlive : s.running ∈ s.pages.live := by
      cases grow with
      | nil =>
        obtain ⟨t, hload, -⟩ := Option.map_eq_some_iff.mp hget
        exact h.running_mem hload
      | cons lastFree grow =>
        obtain ⟨t, hload, -⟩ := Option.bind_eq_some_iff.mp hget
        exact h.running_mem hload
    obtain ⟨os, hos, hkeys⟩ := keys_getFreeElementPages h.accounted.freeOk hget
    refine ⟨hacc, h.running, fun k hk => ?_, fun u => ?_⟩
    · rcases List.mem_append.mp (hkeys.mem_iff.mp hk) with hk | hk
      · obtain ⟨o, -, rfl⟩ := List.mem_map.mp hk
        exact hlive
      · exact h.owners k hk
    · have hnone : (u, (1 : ℤ)) ∉ os.map (s.running, ·) := fun hm => by
        obtain ⟨o, ho, heq⟩ := List.mem_map.mp hm
        have := hos o ho
        rw [(Prod.mk.inj heq).2] at this
        omega
      dsimp only
      rw [hkeys.count_eq, List.count_append, List.count_eq_zero_of_not_mem hnone, Nat.zero_add]
      exact h.once u
  | fault =>
    obtain ⟨t, hload, rfl⟩ := Option.map_eq_some_iff.mp hs
    refine h.of_perm hstep ?_ rfl h.running
    exact (keys_perm_of_page (page_perm_of_info (perm_loadProcessPages hload))).append_right _
  | switch v =>
    simp only [systemStep] at hs
    split_ifs at hs with hv
    obtain rfl := Option.some.inj hs
    refine h.of_perm hstep ?_ rfl hv
    exact (keys_perm_of_page
      (.of_eq (map_virtualMemory _ (fun _ => rfl) (fun _ => rfl) ..))).append_right _

/-- A page 1 that is in the swap file is not in memory. -/
theorem FirstPages.absent (h : FirstPages s) (hswap : (u, 1) ∈ keys s.pages.state.swap) :
    ¬ HasPage s.pages.state.frames u 1 := by
  have hu : u ≠ 0 := fun h0 => h.accounted.pos (h0 ▸ h.owners _ (List.mem_append_right _ hswap))
  rw [hasPage_iff_mem_keys h.accounted.freeOk hu]
  intro hframe
  have honce := h.once u
  rw [PageState.keys, List.count_append] at honce
  have h₁ := List.count_pos_iff.mpr hframe
  have h₂ := List.count_pos_iff.mpr hswap
  omega

/-- The thread can neither load its pages nor allocate. -/
theorem Lost.stuck (h : Lost u s) (hrun : s.running = u) :
    systemStep s .fault = none ∧
      ∀ grow searched, systemStep s (.alloc grow searched) = none := by
  have hload := loadProcessPages_eq_none s.pages.state.pageSize h.absent
  subst hrun
  refine ⟨by rw [systemStep, hload, Option.map_none], fun grow searched => ?_⟩
  cases grow with
  | nil => rw [systemStep, getFreeElementPages, hload, Option.map_none, Option.map_none]
  | cons lastFree grow =>
    rw [systemStep, getFreeElementPages, hload, Option.bind_none, Option.map_none]

theorem Lost.ne_zero (h : Lost u s) : u ≠ 0 := by
  rintro rfl
  exact h.accounted.pos h.live

theorem lost_systemStep (h : Lost u s) (hs : systemStep s e = some s') : Lost u s' := by
  have hacc := accounted_systemStep h.accounted hs
  have hfree := h.accounted.freeOk
  cases e with
  | create v =>
    simp only [systemStep] at hs
    split_ifs at hs with hv
    obtain ⟨⟨ok, st⟩, hget, rfl⟩ := Option.map_eq_some_iff.mp hs
    have hvu : v ≠ u := by
      rintro rfl
      exact hv (Or.inr h.live)
    refine ⟨hacc, ?_, not_hasPage_getFreePage h.ne_zero hvu h.absent hget⟩
    cases ok with
    | false => exact h.live
    | true => exact List.mem_cons_of_mem v h.live
  | osAlloc =>
    obtain rfl := Option.some.inj hs
    exact ⟨hacc, h.live, h.absent⟩
  | alloc grow searched =>
    have hvu : s.running ≠ u := fun hrun => by
      rw [(h.stuck hrun).2] at hs
      cases hs
    obtain ⟨st, hget, rfl⟩ := Option.map_eq_some_iff.mp hs
    exact ⟨hacc, h.live, not_hasPage_getFreeElementPages h.ne_zero hvu hfree h.absent hget⟩
  | fault =>
    obtain ⟨t, hload, rfl⟩ := Option.map_eq_some_iff.mp hs
    exact ⟨hacc, h.live, not_hasPage_load h.absent hload⟩
  | switch v =>
    simp only [systemStep] at hs
    split_ifs at hs
    obtain rfl := Option.some.inj hs
    refine ⟨hacc, h.live, ?_⟩
    rw [HasPage.of_perm (.of_eq (map_virtualMemory _ (fun _ => rfl) (fun _ => rfl) ..))]
    exact h.absent

theorem firstPages_start {pageSize reference : ℕ}
    (hstart : PageSystem.start pageSize reference = some s) : FirstPages s := by
  have hacc := (accounted_start hstart).1
  obtain ⟨⟨ok, st⟩, hget, rfl⟩ := Option.map_eq_some_iff.mp hstart
  have hkeys := keyInv_init pageSize reference
  obtain rfl : ok = true := by
    refine getFreePage_of_free ?_ hget
    rw [frames_init]
    exact forall_initFrames (P := fun n => n.free = true) (fun _ _ _ hf => hf) fun _ => rfl
  obtain ⟨o, hobtains⟩ := (retains_getFreePage hkeys.freeOk hget).2 rfl
  have hone : st.keys = [(1, o)] :=
    List.perm_singleton.mp (hobtains.keys.trans ((List.Perm.of_eq (keys_init ..)).cons _))
  refine ⟨hacc, Nat.one_ne_zero, fun k hk => ?_, fun u => ?_⟩
  · dsimp only at hk
    rw [hone, List.mem_singleton] at hk
    rw [hk]
    exact List.mem_singleton_self 1
  · dsimp only
    rw [hone]
    exact List.count_le_length

/-- **An evicted thread is lost.** From any state that the system reaches in which page 1 of a
thread is in the swap file, or not in memory for another reason, whatever the threads do next: when
that thread runs, each of its allocations and each of its page faults dereferences `NULL`. -/
theorem evicted_thread_is_lost {pageSize reference u : ℕ} {s₀ s s' : PageSystem}
    {es fs : List SystemEvent} (hstart : PageSystem.start pageSize reference = some s₀)
    (hes : run systemStep s₀ es = some s) (hlive : u ∈ s.pages.live)
    (hout : (u, 1) ∈ keys s.pages.state.swap ∨ ¬ HasPage s.pages.state.frames u 1)
    (hfs : run systemStep s fs = some s') :
    ¬ HasPage s'.pages.state.frames u 1 ∧
      (s'.running = u → systemStep s' .fault = none ∧
        ∀ grow searched, systemStep s' (.alloc grow searched) = none) := by
  have h := run_invariant_of_step (fun _ _ _ hi hs => firstPages_systemStep hi hs)
    (firstPages_start hstart) hes
  have habsent : ¬ HasPage s.pages.state.frames u 1 := hout.elim h.absent id
  have hlost := run_invariant_of_step (fun _ _ _ hi hs => lost_systemStep hi hs)
    (Lost.mk h.accounted hlive habsent) hfs
  exact ⟨hlost.absent, hlost.stuck⟩

/-- The theorem after the creation of more threads than there are frames. -/
theorem evicted_thread_is_lost_crowded :
    ∃ s₀ s s' u, PageSystem.start 16384 0 = some s₀ ∧ run systemStep s₀ crowdedRun = some s ∧
      run systemStep s [.switch u] = some s' ∧ u ∈ s.pages.live ∧
      ¬ HasPage s.pages.state.frames u 1 ∧ systemStep s' .fault = none ∧
      ∀ grow searched, systemStep s' (.alloc grow searched) = none := by
  obtain ⟨s₀, s, hstart, hes, h, hmany, -, hframes, -⟩ := exists_crowd
  obtain ⟨u, hlive, habsent⟩ := h.accounted.exists_absent (by rw [hmany, hframes]; decide)
  have hu : u ≠ 0 := fun h0 => h.accounted.pos (h0 ▸ hlive)
  obtain ⟨s', hs', hrunning⟩ : ∃ s', systemStep s (.switch u) = some s' ∧ s'.running = u := by
    rw [systemStep, if_neg hu]
    exact ⟨_, rfl, rfl⟩
  have hfs : run systemStep s [.switch u] = some s' := by
    rw [run_cons, hs', Option.bind_some, run_nil]
  have hlost := evicted_thread_is_lost hstart hes hlive (.inr habsent) hfs
  exact ⟨s₀, s, s', u, hstart, hes, hfs, hlive, habsent, hlost.2 hrunning⟩

end Lost

end OSDesign.VM
