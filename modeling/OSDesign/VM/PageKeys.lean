import Mathlib.Tactic
import OSDesign.Lib.Transition
import OSDesign.Lib.ListUpdate
import OSDesign.VM.PageOperations

/-!
# The keys of the page table

Pages are looked up by process and order, so the pairs `(pid, order)` of the occupied frames and
swap slots have to be distinct, and a process that owns `k` pages has to own the orders `1, ..., k`.
`getFreePage` leaves the order that it finds in the frame, and `reserveAnotherPage` numbers the new
page after the last page in memory. Both go wrong once pages are in the swap file:
`request_keeps_stale_order` is a run that ends with a process owning a page of order 2 only.

The clocks of the frames matter because `getVictimPage` takes a page of the growing process itself
when its clock has reached 3; they are 0 between two operations as long as the swap file is not
full.

## Main definitions

* `PageRun`, `PageEvent`, `pageStep`, `PageAllowed`, `KeyInv`.

## Main results

* `page_keys_of_run`, `request_keeps_stale_order`.
-/

namespace OSDesign.VM

open Transition ListUpdate

/-! ### The invariant -/

/-- The page table, the swap file and the processes that have been given a page. -/
structure PageRun where
  state : PageState
  live : List ℕ

/-- The keys are distinct, every live process owns the orders `1, ..., k` for some `k ≥ 1`, and no
other process owns anything. -/
structure KeyInv (s : PageRun) : Prop where
  nodup : s.state.keys.Nodup
  orders : ∀ pid ∈ s.live, ∃ k : ℤ, 1 ≤ k ∧ ∀ o, (pid, o) ∈ s.state.keys ↔ 1 ≤ o ∧ o ≤ k
  owned : ∀ pid o, (pid, o) ∈ s.state.keys → pid ∈ s.live
  pos : 0 ∉ s.live
  freeOk : FreeOk s.state.frames
  clocks : (∃ n ∈ s.state.swap, n.free = true) → ClocksZero s.state.frames

/-- The keys are the same up to their order. -/
theorem KeyInv.of_perm {s : PageRun} (h : KeyInv s) {st : PageState}
    (hkeys : st.keys.Perm s.state.keys) (hfree : FreeOk st.frames)
    (hclocks : (∃ n ∈ st.swap, n.free = true) → ClocksZero st.frames) :
    KeyInv ⟨st, s.live⟩ where
  nodup := hkeys.nodup_iff.mpr h.nodup
  orders pid hpid := by
    obtain ⟨k, hk, ho⟩ := h.orders pid hpid
    exact ⟨k, hk, fun o => hkeys.mem_iff.trans (ho o)⟩
  owned pid o ho := h.owned pid o (hkeys.mem_iff.mp ho)
  pos := h.pos
  freeOk := hfree
  clocks := hclocks

/-- A new process has been given its first page. -/
theorem KeyInv.add_first {s : PageRun} (h : KeyInv s) {pid : ℕ} {st : PageState} (hpid : pid ≠ 0)
    (hnew : pid ∉ s.live) (hkeys : st.keys.Perm ((pid, 1) :: s.state.keys))
    (hfree : FreeOk st.frames)
    (hclocks : (∃ n ∈ st.swap, n.free = true) → ClocksZero st.frames) :
    KeyInv ⟨st, pid :: s.live⟩ where
  nodup := hkeys.nodup_iff.mpr
    (List.nodup_cons.mpr ⟨fun hm => hnew (h.owned pid 1 hm), h.nodup⟩)
  orders q hq := by
    rcases List.mem_cons.mp hq with rfl | hq
    · refine ⟨1, le_rfl, fun o => ?_⟩
      rw [hkeys.mem_iff, List.mem_cons, Prod.mk.injEq]
      constructor
      · rintro (⟨-, rfl⟩ | hm)
        · exact ⟨le_rfl, le_rfl⟩
        · exact absurd (h.owned q o hm) hnew
      · exact fun ⟨h1, h2⟩ => Or.inl ⟨rfl, le_antisymm h2 h1⟩
    · obtain ⟨k, hk, ho⟩ := h.orders q hq
      refine ⟨k, hk, fun o => ?_⟩
      have hne : q ≠ pid := fun he => hnew (he ▸ hq)
      rw [hkeys.mem_iff, List.mem_cons, Prod.mk.injEq, or_iff_right fun he => hne he.1, ho]
  owned q o hm := by
    rcases List.mem_cons.mp (hkeys.mem_iff.mp hm) with he | hm
    · exact (Prod.mk.inj he).1 ▸ List.mem_cons_self
    · exact List.mem_cons_of_mem _ (h.owned q o hm)
  pos hm := (List.mem_cons.mp hm).elim (fun he => hpid he.symm) h.pos
  freeOk := hfree
  clocks := hclocks

/-- A process that owns `k` pages has been given the page `k + 1`. -/
theorem KeyInv.add_next {s : PageRun} (h : KeyInv s) {pid : ℕ} {k : ℤ} {st : PageState}
    (hlive : pid ∈ s.live) (hk : 1 ≤ k)
    (ho : ∀ o, (pid, o) ∈ s.state.keys ↔ 1 ≤ o ∧ o ≤ k)
    (hkeys : st.keys.Perm ((pid, k + 1) :: s.state.keys)) (hfree : FreeOk st.frames)
    (hclocks : (∃ n ∈ st.swap, n.free = true) → ClocksZero st.frames) :
    KeyInv ⟨st, s.live⟩ where
  nodup := hkeys.nodup_iff.mpr
    (List.nodup_cons.mpr ⟨fun hm => by have := (ho _).mp hm; omega, h.nodup⟩)
  orders q hq := by
    by_cases hqp : q = pid
    · subst hqp
      refine ⟨k + 1, by omega, fun o => ?_⟩
      rw [hkeys.mem_iff, List.mem_cons, Prod.mk.injEq, ho]
      constructor
      · rintro (⟨-, rfl⟩ | hm) <;> omega
      · intro hle
        by_cases hlast : o = k + 1
        · exact Or.inl ⟨rfl, hlast⟩
        · exact Or.inr (by omega)
    · obtain ⟨k', hk', ho'⟩ := h.orders q hq
      refine ⟨k', hk', fun o => ?_⟩
      rw [hkeys.mem_iff, List.mem_cons, Prod.mk.injEq, or_iff_right fun he => hqp he.1, ho']
  owned q o hm := by
    rcases List.mem_cons.mp (hkeys.mem_iff.mp hm) with he | hm
    · exact (Prod.mk.inj he).1 ▸ hlive
    · exact h.owned q o hm
  pos := h.pos
  freeOk := hfree
  clocks := hclocks

/-! ### The steps -/

section Steps

variable {s : PageRun} {pid : ℕ}

/-- A page request of a new process. If a page has to be evicted, the order of the last frame has
to be 1. -/
theorem KeyInv.request (h : KeyInv s) {ok : Bool} {st : PageState} (hpid : pid ≠ 0)
    (hnew : pid ∉ s.live) (hget : getFreePage pid s.state = some (ok, st))
    (hlast : (∀ n ∈ s.state.frames, n.free = false) → (∃ n ∈ s.state.swap, n.free = true) →
      ∀ n, s.state.frames.getLast? = some n → n.order = 1) :
    KeyInv ⟨st, if ok then pid :: s.live else s.live⟩ := by
  rcases getFreePage_eq_some hget with ⟨rfl, i, n, hn, hfree, rfl⟩ |
    ⟨hfull, j, t, n, hv, hn, hclocks, hfull', hcase⟩
  · have hob := @obtains_takePage pid _ _ _ hn hfree h.freeOk
    rw [(h.freeOk n (List.mem_iff_getElem?.mpr ⟨i, hn⟩) hfree).2] at hob
    refine h.add_first hpid hnew hob.keys hob.freeOk fun hslot => ?_
    have hz := h.clocks hslot
    refine forall_swapPages (fun _ _ hq => hq) ?_ 0 i
    exact forall_mem_modify hz fun m hm => hz m (List.mem_iff_getElem?.mpr ⟨i, hm⟩)
  · -- the new process owns no frame, so the last frame is the victim
    have hne : s.state.frames ≠ [] := by
      rintro he
      rw [he, getVictimPage, victimLoop.eq_def] at hv
      simp at hv
    have hlast? := List.getLast?_eq_some_getLast hne
    have hother : (s.state.frames.getLast hne).pid ≠ pid := by
      intro he
      have hmem := List.getLast_mem hne
      have hkey : (pid, (s.state.frames.getLast hne).order) ∈ keys s.state.frames :=
        (h.freeOk.hasPage_iff hpid _).mp ⟨_, hmem, he, rfl⟩
      exact hnew (h.owned _ _ (List.mem_append_left _ hkey))
    rw [getVictimPage_of_last hlast? hother] at hv
    obtain ⟨rfl, rfl⟩ := Prod.mk.inj (Option.some.inj hv)
    rcases hcase with ⟨rfl, hswap, rfl⟩ | ⟨rfl, k, slot, hslot, hfree, rfl⟩
    · exact h.of_perm (List.Perm.refl _) h.freeOk h.clocks
    · have hslots : ∃ m ∈ s.state.swap, m.free = true :=
        ⟨slot, List.mem_iff_getElem?.mpr ⟨k, hslot⟩, hfree⟩
      have hob := @obtains_evicted pid _ _ _ _ _ _ hclocks hn hfull' hslot hfree
      rw [← List.getLast?_eq_getElem?] at hn
      rw [hlast hfull hslots n hn] at hob
      refine h.add_first hpid hnew hob.keys hob.freeOk fun _ => ?_
      have hz := h.clocks hslots
      refine forall_swapPages (fun _ _ hq => hq) ?_ 0 _
      rw [evicted, List.modify_modify_eq]
      exact forall_mem_modify hz fun m hm => hz m (List.mem_iff_getElem?.mpr ⟨_, hm⟩)

/-- `loadProcessPages`. -/
theorem KeyInv.load (h : KeyInv s) {t : PageTable}
    (hload : loadProcessPages s.state.pageSize pid s.state.frames = some t) :
    KeyInv ⟨{ s.state with frames := t }, s.live⟩ := by
  have hpage := page_perm_of_info (perm_loadProcessPages hload)
  refine h.of_perm ((keys_perm_of_page hpage).append_right _) (h.freeOk.of_perm hpage) ?_
  exact fun hslot => forall_loadProcessPages (fun _ _ hq => hq) (fun _ _ => rfl)
    (h.clocks hslot) hload

/-- What is known after `getFreePage` in `reserveAnotherPage`: no page of the process is in the
swap file, and only its own frames have advanced clocks. -/
theorem KeyInv.getFreePage_live (h : KeyInv s) {st : PageState}
    (hget : getFreePage pid s.state = some (true, st))
    (hswap : ∀ o, (pid, o) ∉ keys s.state.swap) :
    ∃ order, Obtains pid order s.state st ∧ (∀ o, (pid, o) ∉ keys st.swap) ∧
      ((∃ n ∈ st.swap, n.free = true) → OnlyDirty pid st.frames) := by
  rcases getFreePage_eq_some hget with ⟨-, i, n, hn, hfree, rfl⟩ |
    ⟨hfull, j, t, n, hv, hn, hclocks, hfull', hcase⟩
  · refine ⟨n.order, obtains_takePage hn hfree h.freeOk, hswap, fun hslot => ?_⟩
    have hz := h.clocks hslot
    refine forall_swapPages (P := fun n => n.swapclock ≠ 0 → n.pid = pid) (fun _ _ hq => hq) ?_ 0 i
    refine forall_mem_modify (fun m hm hne => absurd (hz m hm) hne) fun m hm hne => ?_
    exact absurd (hz m (List.mem_iff_getElem?.mpr ⟨i, hm⟩)) hne
  · rcases hcase with ⟨hf, -⟩ | ⟨-, k, slot, hslot, hfree, rfl⟩
    · exact absurd hf (by decide)
    have hz := h.clocks ⟨slot, List.mem_iff_getElem?.mpr ⟨k, hslot⟩, hfree⟩
    obtain ⟨hvictim, hdirty⟩ := getVictimPage_spec hv hz
    refine ⟨n.order, obtains_evicted hclocks hn hfull' hslot hfree, fun o hm => ?_, fun _ => ?_⟩
    · have hp := keys_modify_perm hslot fun slot => slot.store n
      rw [SpaceNode.key, if_pos hfree] at hp
      rcases List.mem_append.mp (hp.mem_iff.mp (List.mem_append_right _ hm)) with he | hm
      · have he : (pid, o) = (n.pid, n.order) := by
          simpa [SpaceNode.key, SpaceNode.store] using he
        exact hvictim n hn (Prod.mk.inj he).1.symm
      · exact hswap o hm
    · refine forall_swapPages (P := fun n => n.swapclock ≠ 0 → n.pid = pid) (fun _ _ hq => hq) ?_
        0 j
      rw [evicted, List.modify_modify_eq]
      intro m hm hne
      obtain ⟨a, ha⟩ := List.mem_iff_getElem?.mp hm
      rw [List.getElem?_modify] at ha
      obtain ⟨m₀, hm₀, rfl⟩ := Option.map_eq_some_iff.mp ha
      split_ifs at hne ⊢ with haj
      · rfl
      · exact (hdirty a m₀ hm₀ hne).resolve_right (Ne.symm haj)

/-- Setting the order of the first frame. -/
theorem keys_setOrder {t : PageTable} {q : SpaceNode} {o : ℤ} (hq : t[0]? = some q)
    (hpage : q.page = (pid, o, false)) (o' : ℤ) :
    ((pid, o) :: keys (setOrder o' t)).Perm ((pid, o') :: keys t) := by
  obtain ⟨hp, ho, hf⟩ : q.pid = pid ∧ q.order = o ∧ q.free = false := by
    simpa [SpaceNode.page] using hpage
  have hperm := keys_modify_perm hq fun n => { n with order := o' }
  simp only [SpaceNode.key, hp, ho, hf] at hperm
  exact hperm

theorem FreeOk.setOrder {t : PageTable} {q : SpaceNode} {o : ℤ} (h : FreeOk t)
    (hq : t[0]? = some q) (hpage : q.page = (pid, o, false)) (o' : ℤ) :
    FreeOk (setOrder o' t) := by
  refine forall_mem_modify h fun n hn hf => ?_
  have hfree : q.free = false := congrArg (fun x => x.2.2) hpage
  rw [hq, Option.some.injEq] at hn
  subst hn
  exact absurd hf (by simp [hfree])

/-- There are at least as many frames as pages in memory. -/
theorem le_length_of_pages {t : PageTable} {k : ℤ} (hpages : ∀ o, 1 ≤ o → o ≤ k →
    (pid, o) ∈ keys t) : k ≤ t.length := by
  have hsub : (List.range k.toNat).map (fun i : ℕ => (pid, (i : ℤ) + 1)) ⊆ keys t := by
    intro x hx
    obtain ⟨i, hi, rfl⟩ := List.mem_map.mp hx
    have hi := List.mem_range.mp hi
    exact hpages _ (by omega) (by omega)
  have hnodup : ((List.range k.toNat).map fun i : ℕ => (pid, (i : ℤ) + 1)).Nodup := by
    refine List.Nodup.map (fun i j hij => ?_) List.nodup_range
    have := (Prod.mk.inj hij).2
    omega
  have hle := (List.subperm_of_subset hnodup hsub).length_le
  have hfilter := List.length_filterMap_le SpaceNode.key t
  rw [List.length_map, List.length_range] at hle
  change (keys t).length ≤ t.length at hfilter
  omega

/-- The new page is numbered after the last one. -/
theorem setLastOrder_spec {k : ℤ} {t t' : PageTable} (hk : 1 ≤ k) (hlen : k ≤ t.length)
    (hpages : ∀ o, 1 ≤ o → (HasPage t pid o ↔ o ≤ k)) (h : setLastOrder pid t = some t') :
    ∃ t₁, t₁.map SpaceNode.page = t.map SpaceNode.page ∧ t' = setOrder (k + 1) t₁ ∧
      ∀ {P : SpaceNode → Prop}, (∀ n : SpaceNode, P n → P n.touch) → (∀ n ∈ t, P n) →
        ∀ n ∈ t₁, P n := by
  obtain ⟨p, n, t₁, hlast, hmap, hp, -, hord⟩ := getLastProcessPage_spec hk hlen hpages
  rw [setLastOrder, hlast] at h
  simp only [hp, Option.map_some, Option.some.injEq, hord] at h
  refine ⟨t₁, hmap, h.symm, fun hP ht => ?_⟩
  have hall := forall_getLastProcessPage hP ht pid
  rwa [hlast] at hall

theorem first_of_map_page {t t' : PageTable} {q : SpaceNode}
    (h : t'.map SpaceNode.page = t.map SpaceNode.page) (hq : t[0]? = some q) :
    ∃ q', t'[0]? = some q' ∧ q'.page = q.page := by
  have hget := congrArg (·[0]?) h
  simp only [List.getElem?_map, hq, Option.map_some] at hget
  exact Option.map_eq_some_iff.mp hget

/-- The page table just before `reserveAnotherPage` loads the pages: the page `k + 1` is in the
first frame and the other frames are as `getFreePage` left them. -/
structure Grown (pid : ℕ) (k : ℤ) (s s₁ : PageState) (t : PageTable) : Prop where
  keys : (keys t ++ VM.keys s₁.swap).Perm ((pid, k + 1) :: s.keys)
  inMemory : InMemory pid (k + 1) t
  others : ∀ i ≠ 0, (t[i]?).map SpaceNode.page = (s₁.frames[i]?).map SpaceNode.page
  dirty : (∃ n ∈ s₁.swap, n.free = true) → OnlyDirty pid t

theorem map_page_setOrder_of_ne (t : PageTable) (o : ℤ) {i : ℕ} (hi : i ≠ 0) :
    ((setOrder o t)[i]?).map SpaceNode.page = (t[i]?).map SpaceNode.page := by
  simp [setOrder, Ne.symm hi]

theorem setOrder_first {t : PageTable} {q : SpaceNode} {o : ℤ} (hq : t[0]? = some q)
    (hpage : q.page = (pid, o, false)) (o' : ℤ) :
    ∃ q', (setOrder o' t)[0]? = some q' ∧ q'.page = (pid, o', false) := by
  refine ⟨{ q with order := o' }, ?_, ?_⟩
  · rw [setOrder, List.getElem?_modify, hq]
    rfl
  · exact congrArg (fun x => (x.1, o', x.2.2)) hpage

/-- The new page has the order -1 while the last page of the process is looked for, and gets the
order after it. -/
theorem KeyInv.grown (h : KeyInv s) {k : ℤ} {lastFree : Bool} {s₁ : PageState} {t₂ t₃ : PageTable}
    (hlive : pid ∈ s.live) (hk : 1 ≤ k) (horders : ∀ o, (pid, o) ∈ s.state.keys ↔ 1 ≤ o ∧ o ≤ k)
    (hswap : ∀ o, (pid, o) ∉ keys s.state.swap)
    (hget : getFreePage pid s.state = some (true, s₁))
    (hjoin : joinFreeSpace pid lastFree (setOrder (-1) s₁.frames) = some t₂)
    (hset : setLastOrder pid t₂ = some t₃) : Grown pid k s.state s₁ t₃ := by
  have hpid : pid ≠ 0 := fun he => h.pos (he ▸ hlive)
  obtain ⟨order, hob, hswap₁, hdirty⟩ := h.getFreePage_live hget hswap
  obtain ⟨q, hq, hqpage⟩ := hob.first
  -- with the order -1 on the new page
  have hkeys₁ : (keys (setOrder (-1) s₁.frames) ++ keys s₁.swap).Perm
      ((pid, -1) :: s.state.keys) := by
    have hset₁ := (keys_setOrder hq hqpage (-1)).append_right (keys s₁.swap)
    have hcons := (hset₁.trans (hob.keys.cons (pid, -1))).trans (List.Perm.swap ..)
    exact (List.perm_cons _).mp hcons
  have hfree₁ := hob.freeOk.setOrder hq hqpage (-1)
  have hmem₁ (o : ℤ) : (pid, o) ∈ keys (setOrder (-1) s₁.frames) ↔
      o = -1 ∨ 1 ≤ o ∧ o ≤ k := by
    have hiff := hkeys₁.mem_iff (a := (pid, o))
    rw [List.mem_append, or_iff_left (hswap₁ o), List.mem_cons, horders] at hiff
    simpa using hiff
  have hmap₂ := map_joinFreeSpace (g := SpaceNode.page) (fun _ => rfl) (fun _ => rfl) hjoin
  have hfree₂ := hfree₁.of_perm (.of_eq hmap₂)
  have hkeys₂ : keys t₂ = keys (setOrder (-1) s₁.frames) := by rw [keys_eq, keys_eq, hmap₂]
  -- the last page has the order k
  obtain ⟨t₂', hmap₂', rfl, hall₂'⟩ := setLastOrder_spec hk
    (le_length_of_pages fun o h1 h2 => hkeys₂ ▸ (hmem₁ o).mpr (Or.inr ⟨h1, h2⟩))
    (fun o h1 => by
      rw [hfree₂.hasPage_iff hpid, hkeys₂, hmem₁]
      omega) hset
  obtain ⟨q₁, hq₁, hqpage₁⟩ := setOrder_first hq hqpage (-1)
  obtain ⟨q₂, hq₂, hqpage₂⟩ := first_of_map_page (hmap₂'.trans hmap₂) hq₁
  rw [hqpage₁] at hqpage₂
  have hfree₃ := (hfree₂.of_perm (.of_eq hmap₂')).setOrder hq₂ hqpage₂ (k + 1)
  have hkeys₃ : (keys (setOrder (k + 1) t₂') ++ keys s₁.swap).Perm
      ((pid, k + 1) :: s.state.keys) := by
    have hset₃ := (keys_setOrder hq₂ hqpage₂ (k + 1)).append_right (keys s₁.swap)
    rw [show keys t₂' = keys t₂ by rw [keys_eq, keys_eq, hmap₂'], hkeys₂] at hset₃
    have hcons := (hset₃.trans (hkeys₁.cons (pid, k + 1))).trans (List.Perm.swap ..)
    exact (List.perm_cons _).mp hcons
  refine ⟨hkeys₃, ⟨hpid, ?_, hfree₃, fun o => ?_⟩, fun i hi => ?_, fun hslot => ?_⟩
  · refine (hkeys₃.nodup_iff.mpr (List.nodup_cons.mpr ⟨fun hm => ?_, h.nodup⟩)).of_append_left
    have := (horders _).mp hm
    omega
  · have hiff := hkeys₃.mem_iff (a := (pid, o))
    rw [List.mem_append, or_iff_left (hswap₁ o), List.mem_cons, horders] at hiff
    rw [hfree₃.hasPage_iff hpid, hiff, Prod.mk.injEq]
    constructor
    · rintro (⟨-, rfl⟩ | hle) <;> omega
    · intro hle
      by_cases hlast : o = k + 1
      · exact Or.inl ⟨rfl, hlast⟩
      · exact Or.inr (by omega)
  · have hmap := congrArg (·[i]?) (hmap₂'.trans hmap₂)
    simp only [List.getElem?_map] at hmap
    rw [map_page_setOrder_of_ne _ _ hi, hmap, map_page_setOrder_of_ne _ _ hi]
  · have hdirty₁ : OnlyDirty pid (setOrder (-1) s₁.frames) :=
      forall_mem_modify (hdirty hslot) fun n hn =>
        hdirty hslot n (List.mem_iff_getElem?.mpr ⟨0, hn⟩)
    have htouch (n : SpaceNode) (_ : n.swapclock ≠ 0 → n.pid = pid) :
        n.touch.swapclock ≠ 0 → n.touch.pid = pid := fun hne => absurd rfl hne
    have hdirty₂ := hall₂' htouch (forall_joinFreeSpace htouch (fun _ hn => hn) hdirty₁ hjoin)
    exact forall_mem_modify hdirty₂ fun n hn => hdirty₂ n (List.mem_iff_getElem?.mpr ⟨0, hn⟩)

/-- The two ways in which `reserveAnotherPage` ends: the memory and the swap file are full, or the
process has grown by one page. -/
theorem KeyInv.reserve_eq_some (h : KeyInv s) {k : ℤ} {lastFree ok : Bool} {st : PageState}
    (hlive : pid ∈ s.live) (hk : 1 ≤ k) (horders : ∀ o, (pid, o) ∈ s.state.keys ↔ 1 ≤ o ∧ o ≤ k)
    (hswap : ok = true → ∀ o, (pid, o) ∉ keys s.state.swap)
    (hres : reserveAnotherPage pid lastFree s.state = some (ok, st)) :
    (ok = false ∧ (∀ m ∈ s.state.swap, m.free = false) ∧
        ∃ t, ClocksOnly s.state.frames t ∧ st = { s.state with frames := t }) ∨
      (ok = true ∧ ∃ s₁ t₃, getFreePage pid s.state = some (true, s₁) ∧
        Grown pid k s.state s₁ t₃ ∧
        loadProcessPages s.state.pageSize pid t₃ = some st.frames ∧ st.swap = s₁.swap ∧
        st.pageSize = s.state.pageSize) := by
  obtain ⟨⟨got, s₁⟩, hget, hres⟩ := Option.bind_eq_some_iff.mp hres
  cases got with
  | false =>
    simp only [Bool.false_eq_true, if_false, Option.some.injEq, Prod.mk.injEq] at hres
    obtain ⟨rfl, rfl⟩ := hres
    rcases getFreePage_eq_some hget with ⟨hf, -⟩ |
      ⟨-, j, t, n, -, -, hclocks, -, ⟨-, hfull, rfl⟩ | ⟨hf, -⟩⟩
    · cases hf
    · exact Or.inl ⟨rfl, hfull, t, hclocks, rfl⟩
    · cases hf
  | true =>
    simp only [if_true] at hres
    obtain ⟨t₂, hjoin, hres⟩ := Option.bind_eq_some_iff.mp hres
    obtain ⟨t₃, hset, hres⟩ := Option.bind_eq_some_iff.mp hres
    obtain ⟨t₄, hload, hres⟩ := Option.map_eq_some_iff.mp hres
    obtain ⟨rfl, rfl⟩ := Prod.mk.inj hres
    obtain ⟨order, hob, -⟩ := h.getFreePage_live hget (hswap rfl)
    rw [hob.pageSize] at hload
    exact Or.inr ⟨rfl, s₁, t₃, hget, h.grown hlive hk horders (hswap rfl) hget hjoin hset, hload,
      rfl, hob.pageSize⟩

/-- `reserveAnotherPage` of a process none of whose pages is in the swap file. -/
theorem KeyInv.reserve (h : KeyInv s) {lastFree ok : Bool} {st : PageState} (hlive : pid ∈ s.live)
    (hres : reserveAnotherPage pid lastFree s.state = some (ok, st))
    (hswap : ok = true → ∀ o, (pid, o) ∉ keys s.state.swap) : KeyInv ⟨st, s.live⟩ := by
  obtain ⟨k, hk, horders⟩ := h.orders pid hlive
  rcases h.reserve_eq_some hlive hk horders hswap hres with ⟨-, hfull, t, hclocks, rfl⟩ |
    ⟨-, s₁, t₃, -, hgrown, hload, hsw, -⟩
  · have hpage : (t.map SpaceNode.page).Perm (s.state.frames.map SpaceNode.page) :=
      .of_eq (hclocks.map_eq fun _ => rfl)
    refine h.of_perm ((keys_perm_of_page hpage).append_right _) (h.freeOk.of_perm hpage) ?_
    rintro ⟨m, hm, hf⟩
    exact absurd hf (by simp [hfull m hm])
  · have hpage := page_perm_of_info (perm_loadProcessPages hload)
    refine h.add_next hlive hk horders ?_ (hgrown.inMemory.freeOk.of_perm hpage) fun hslot => ?_
    · rw [PageState.keys, hsw]
      exact ((keys_perm_of_page hpage).append_right _).trans hgrown.keys
    · refine clocksZero_loadProcessPages hgrown.inMemory (fun n hn hne => ?_) hload
      have hp := hgrown.dirty (hsw ▸ hslot) n hn hne
      exact ⟨hp, ((hgrown.inMemory.pages _).mp ⟨n, hn, hp, rfl⟩).1⟩

end Steps

/-! ### Runs -/

/-- The operations on pages. `reserve` grows a process; its flag says whether the last block of its
last page is free. -/
inductive PageEvent where
  | request (pid : ℕ)
  | reserve (pid : ℕ) (lastFree : Bool)
  | load (pid : ℕ)
deriving DecidableEq

/-- One operation, with the file operations succeeding: a request is made for a new process, the
others for one that has been given a page. -/
def pageStep (s : PageRun) : PageEvent → Option PageRun
  | .request pid =>
    if pid = 0 ∨ pid ∈ s.live then none
    else (getFreePage pid s.state).map fun (ok, st) => ⟨st, if ok then pid :: s.live else s.live⟩
  | .reserve pid lastFree =>
    if pid ∈ s.live then
      (reserveAnotherPage pid lastFree s.state).map fun (_, st) => ⟨st, s.live⟩
    else none
  | .load pid =>
    if pid ∈ s.live then
      (loadProcessPages s.state.pageSize pid s.state.frames).map fun t =>
        ⟨{ s.state with frames := t }, s.live⟩
    else none

/-- A request that has to evict a page finds a page of order 1 in the last frame, and a process
grows only while none of its pages is in the swap file (or while no page can be obtained). -/
def PageAllowed (s : PageRun) : PageEvent → Prop
  | .request _ => (∀ n ∈ s.state.frames, n.free = false) → (∃ n ∈ s.state.swap, n.free = true) →
      ∀ n ∈ s.state.frames.getLast?, n.order = 1
  | .reserve pid _ =>
      (∃ n ∈ s.state.frames, n.free = true) ∨ (∃ n ∈ s.state.swap, n.free = true) →
        ∀ n ∈ s.state.swap, n.free = false → n.pid ≠ pid
  | .load _ => True

instance (s : PageRun) (e : PageEvent) : Decidable (PageAllowed s e) := by
  rcases e <;> dsimp only [PageAllowed] <;> infer_instance

/-- What holds of every fresh descriptor whatever its links holds of those that `init` lays out. -/
theorem forall_initNodes {P : SpaceNode → Prop} {node : ℕ → SpaceNode}
    (hlinks : ∀ n next prev, P n → P { n with next := next, prev := prev })
    (hnode : ∀ i, P (node i))
    (pageSize nodeLimit maxSize fuel i : ℕ) :
    ∀ n ∈ initNodes pageSize nodeLimit maxSize node fuel i, P n := by
  induction fuel generalizing i with
  | zero => exact fun n hn => absurd hn List.not_mem_nil
  | succ fuel ih =>
    rw [initNodes]
    by_cases hmore : sizeofSpaceNode * i < nodeLimit ∧ i * pageSize < maxSize
    · rw [if_pos hmore]
      intro n hn
      rcases List.mem_cons.mp hn with rfl | hn
      · exact hlinks (node i) _ _ (hnode i)
      · exact ih (i + 1) n hn
    · rw [if_neg hmore]
      exact fun n hn => absurd hn List.not_mem_nil

theorem forall_initFrames {P : SpaceNode → Prop}
    (hlinks : ∀ n next prev, P n → P { n with next := next, prev := prev })
    {pageSize reference : ℕ} (hnode : ∀ start, P (freeNode pageSize start reference 1)) :
    ∀ n ∈ initFrames pageSize reference, P n := by
  rw [initFrames]
  exact forall_initNodes hlinks (fun _ => hnode _) _ _ _ _ _

theorem forall_initSwap {P : SpaceNode → Prop}
    (hlinks : ∀ n next prev, P n → P { n with next := next, prev := prev })
    {pageSize reference : ℕ} (hnode : ∀ start, P (freeNode pageSize start reference 0)) :
    ∀ n ∈ initSwap pageSize reference, P n := by
  rw [initSwap]
  exact forall_initNodes hlinks (fun _ => hnode _) _ _ _ _ _

theorem keys_eq_nil {t : PageTable} (h : ∀ n ∈ t, n.free = true) : keys t = [] :=
  List.filterMap_eq_nil_iff.mpr fun n hn => if_pos (h n hn)

theorem freeOk_initFrames (pageSize reference : ℕ) : FreeOk (initFrames pageSize reference) := by
  rw [FreeOk]
  exact forall_initFrames (fun _ _ _ hq => hq) fun _ _ => ⟨rfl, rfl⟩

theorem clocksZero_initFrames (pageSize reference : ℕ) :
    ClocksZero (initFrames pageSize reference) := by
  rw [ClocksZero]
  exact forall_initFrames (fun _ _ _ hq => hq) fun _ => rfl

theorem keys_init (pageSize reference : ℕ) : (init pageSize reference).keys = [] := by
  rw [init, PageState.keys, keys_eq_nil (forall_initFrames (fun _ _ _ hf => hf) fun _ => rfl),
    keys_eq_nil (forall_initSwap (fun _ _ _ hf => hf) fun _ => rfl), List.append_nil]

theorem keyInv_init (pageSize reference : ℕ) : KeyInv ⟨init pageSize reference, []⟩ := by
  have hkeys := keys_init pageSize reference
  have hfree := freeOk_initFrames pageSize reference
  have hclocks := clocksZero_initFrames pageSize reference
  rw [init] at hkeys ⊢
  generalize initFrames pageSize reference = frames at hkeys hfree hclocks ⊢
  refine ⟨?_, nofun, fun pid o hm => ?_, List.not_mem_nil, hfree, fun _ => hclocks⟩
  · rw [hkeys]
    exact List.nodup_nil
  · rw [hkeys] at hm
    exact absurd hm List.not_mem_nil

/-- Every allowed operation keeps the keys. -/
theorem keyInv_pageStep {s s' : PageRun} {e : PageEvent} (h : KeyInv s) (hok : PageAllowed s e)
    (hs : pageStep s e = some s') : KeyInv s' := by
  cases e with
  | request pid =>
    simp only [pageStep] at hs
    split_ifs at hs with hpid
    obtain ⟨⟨ok, st⟩, hget, rfl⟩ := Option.map_eq_some_iff.mp hs
    exact h.request (fun he => hpid (Or.inl he)) (fun hm => hpid (Or.inr hm)) hget hok
  | reserve pid lastFree =>
    simp only [pageStep] at hs
    split_ifs at hs with hlive
    obtain ⟨⟨ok, st⟩, hres, rfl⟩ := Option.map_eq_some_iff.mp hs
    refine h.reserve hlive hres fun hok' o hm => ?_
    have hcan : (∃ n ∈ s.state.frames, n.free = true) ∨ ∃ n ∈ s.state.swap, n.free = true := by
      obtain ⟨⟨got, s₁⟩, hget, hrest⟩ := Option.bind_eq_some_iff.mp hres
      rcases getFreePage_eq_some hget with ⟨-, i, n, hn, hf, -⟩ |
        ⟨-, j, t, n, -, -, -, -, ⟨rfl, -⟩ | ⟨-, k, slot, hslot, hf, -⟩⟩
      · exact Or.inl ⟨n, List.mem_iff_getElem?.mpr ⟨i, hn⟩, hf⟩
      · simp [hok'] at hrest
      · exact Or.inr ⟨slot, List.mem_iff_getElem?.mpr ⟨k, hslot⟩, hf⟩
    obtain ⟨n, hn, hkey⟩ := List.mem_filterMap.mp hm
    rw [SpaceNode.key] at hkey
    split_ifs at hkey with hf
    exact hok hcan n hn (by simpa using hf) (Prod.mk.inj (Option.some.inj hkey)).1
  | load pid =>
    simp only [pageStep] at hs
    split_ifs at hs with hlive
    obtain ⟨t, hload, rfl⟩ := Option.map_eq_some_iff.mp hs
    exact h.load hload

/-- **Page-table keys.** Along every run of allowed operations from `init`, the pairs of process and
order of the occupied frames and swap slots are distinct, and every process that has been given a
page owns exactly the orders `1, ..., k` for some `k ≥ 1`. -/
theorem page_keys_of_run (pageSize reference : ℕ) (es : List PageEvent) (s : PageRun)
    (hok : RunOk pageStep PageAllowed ⟨init pageSize reference, []⟩ es)
    (hrun : run pageStep ⟨init pageSize reference, []⟩ es = some s) :
    s.state.keys.Nodup ∧
      ∀ pid ∈ s.live, ∃ k : ℤ, 1 ≤ k ∧ ∀ o, (pid, o) ∈ s.state.keys ↔ 1 ≤ o ∧ o ≤ k := by
  have h := run_invariant (fun _ _ _ hi hok hs => keyInv_pageStep hi hok hs)
    (keyInv_init pageSize reference) hok hrun
  exact ⟨h.nodup, h.orders⟩

/-- The theorem at a run with two processes, the first of which owns two pages. -/
theorem page_keys_of_run_two_processes :
    (1, 2) ∈ ((run pageStep ⟨init 16384 0, []⟩
      [.request 1, .reserve 1 true, .request 2, .load 1]).map fun s => s.state.keys).getD [] ∧
    ∃ s, run pageStep ⟨init 16384 0, []⟩ [.request 1, .reserve 1 true, .request 2, .load 1] =
      some s ∧ s.state.keys.Nodup ∧
      ∀ pid ∈ s.live, ∃ k : ℤ, 1 ≤ k ∧ ∀ o, (pid, o) ∈ s.state.keys ↔ 1 ≤ o ∧ o ≤ k := by
  have hkeys : ((run pageStep ⟨init 16384 0, []⟩
      [.request 1, .reserve 1 true, .request 2, .load 1]).map fun s => s.state.keys) =
      some [(1, 1), (1, 2), (2, 1)] := by decide +kernel
  obtain ⟨s, hs, -⟩ := Option.map_eq_some_iff.mp hkeys
  refine ⟨by rw [hkeys]; decide, s, hs, ?_⟩
  exact page_keys_of_run 16384 0 _ s (by decide +kernel) hs

/-- The operations of a run that fills memory with a page of order 2 in the last of `n` frames and
then requests a page for process `n - 1`. -/
def staleRun (n : ℕ) : List PageEvent :=
  [.request 1, .reserve 1 true] ++ (List.range' 2 (n - 3)).map .request ++
    [.reserve (n - 2) true, .request (n - 1)]

/-- With 64 KiB pages there are 87 frames. The request for process 86 evicts page 2 of process 1
from the last frame, and the frame keeps order 2: the new process has no page of order 1. -/
theorem request_keeps_stale_order :
    ∃ s, run pageStep ⟨init 65536 0, []⟩ (staleRun 87) = some s ∧ 86 ∈ s.live ∧
      ¬ ∃ k : ℤ, 1 ≤ k ∧ ∀ o, (86, o) ∈ s.state.keys ↔ 1 ≤ o ∧ o ≤ k := by
  have hend : (run pageStep ⟨init 65536 0, []⟩ (staleRun 87)).map
      (fun s => (decide (86 ∈ s.live), decide ((86, 1) ∈ s.state.keys))) =
      some (true, false) := by decide +kernel
  obtain ⟨s, hs, hproj⟩ := Option.map_eq_some_iff.mp hend
  simp only [Prod.mk.injEq, decide_eq_true_eq, decide_eq_false_iff_not] at hproj
  refine ⟨s, hs, hproj.1, ?_⟩
  rintro ⟨k, hk, ho⟩
  exact hproj.2 ((ho 1).mpr ⟨le_rfl, hk⟩)

end OSDesign.VM
