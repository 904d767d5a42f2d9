import Mathlib.Tactic
import OSDesign.Lib.ListUpdate
import OSDesign.VM.PageTable

/-!
# What the operations on pages do

Every lookup changes nothing but clocks, and every other operation permutes the keys `(pid, order)`
of the occupied frames and slots or adds one key. `getFreePage_eq_some` lists the ways in which a
page can be obtained.

## Main definitions

* `SpaceNode.key`, `PageState.keys`: the keys of the occupied frames and swap slots.
* `HasPage`, `FreeOk`, `ClocksZero`, `Obtains`, `InMemory`.

## Main results

* `getLastProcessPage_spec`, `getVictimPage_spec`, `getFreePage_eq_some`.
* `clocksZero_loadProcessPages`: loading the pages of a process resets its clocks.
-/

namespace OSDesign.VM

open ListUpdate

/-- The key of an occupied frame or slot. -/
def SpaceNode.key (n : SpaceNode) : Option (ℕ × ℤ) :=
  if n.free then none else some (n.pid, n.order)

/-- The keys of the occupied descriptors. -/
def keys (t : PageTable) : List (ℕ × ℤ) := t.filterMap SpaceNode.key

/-- The keys of the occupied frames and of the occupied swap slots. -/
def PageState.keys (s : PageState) : List (ℕ × ℤ) := VM.keys s.frames ++ VM.keys s.swap

/-! ### Descriptors up to the fields that matter for the keys -/

/-- The owner and the number of the page in a frame, and whether the frame is free. -/
def SpaceNode.page (n : SpaceNode) : ℕ × ℤ × Bool := (n.pid, n.order, n.free)

/-- `SpaceNode.key` as a function of `SpaceNode.page`. -/
def pageKey (x : ℕ × ℤ × Bool) : Option (ℕ × ℤ) := if x.2.2 then none else some (x.1, x.2.1)

theorem keys_eq (t : PageTable) : keys t = (t.map SpaceNode.page).filterMap pageKey := by
  rw [List.filterMap_map]
  rfl

/-- `SpaceNode.page` as a function of `SpaceNode.info`. -/
def infoPage (x : ℕ × ℤ × Bool × ℕ × ℕ × Bool) : ℕ × ℤ × Bool := (x.1, x.2.1, x.2.2.1)

theorem page_perm_of_info {t t' : PageTable}
    (h : (t'.map SpaceNode.info).Perm (t.map SpaceNode.info)) :
    (t'.map SpaceNode.page).Perm (t.map SpaceNode.page) := by
  have hmap (l : PageTable) : l.map SpaceNode.page = (l.map SpaceNode.info).map infoPage := by
    rw [List.map_map]
    rfl
  rw [hmap, hmap]
  exact h.map infoPage

theorem keys_perm_of_page {t t' : PageTable}
    (h : (t'.map SpaceNode.page).Perm (t.map SpaceNode.page)) : (keys t').Perm (keys t) := by
  rw [keys_eq, keys_eq]
  exact h.filterMap _

/-- A frame that is free belongs to nobody and has order 1. -/
def FreeOk (t : PageTable) : Prop := ∀ n ∈ t, n.free = true → n.pid = 0 ∧ n.order = 1

theorem freeOk_iff (t : PageTable) : FreeOk t ↔
    ∀ x ∈ t.map SpaceNode.page, x.2.2 = true → x.1 = 0 ∧ x.2.1 = 1 := by
  simp [FreeOk, SpaceNode.page]

theorem FreeOk.of_perm {t t' : PageTable} (h : FreeOk t)
    (hp : (t'.map SpaceNode.page).Perm (t.map SpaceNode.page)) : FreeOk t' := by
  rw [freeOk_iff] at h ⊢
  exact fun x hx => h x (hp.mem_iff.mp hx)

/-! ### Finding pages -/

/-- Some frame holds the page `order` of `pid`. -/
def HasPage (t : PageTable) (pid : ℕ) (order : ℤ) : Prop :=
  ∃ n ∈ t, n.pid = pid ∧ n.order = order

theorem HasPage.of_perm {t t' : PageTable} {pid : ℕ} {order : ℤ}
    (hp : (t'.map SpaceNode.page).Perm (t.map SpaceNode.page)) :
    HasPage t' pid order ↔ HasPage t pid order := by
  have hiff (l : PageTable) : HasPage l pid order ↔
      ∃ x ∈ l.map SpaceNode.page, x.1 = pid ∧ x.2.1 = order := by
    simp [HasPage, SpaceNode.page]
  rw [hiff, hiff]
  exact exists_congr fun x => and_congr_left fun _ => hp.mem_iff

/-- The pages of a process are the keys with its number. -/
theorem FreeOk.hasPage_iff {t : PageTable} (h : FreeOk t) {pid : ℕ} (hpid : pid ≠ 0)
    (order : ℤ) : HasPage t pid order ↔ (pid, order) ∈ keys t := by
  rw [keys, List.mem_filterMap]
  refine ⟨fun ⟨n, hn, hp, ho⟩ => ⟨n, hn, ?_⟩, fun ⟨n, hn, hk⟩ => ⟨n, hn, ?_⟩⟩
  · have hfree : ¬ n.free = true := fun hf => hpid (hp.symm.trans (h n hn hf).1)
    rw [SpaceNode.key, if_neg hfree, hp, ho]
  · rw [SpaceNode.key] at hk
    split_ifs at hk
    exact Prod.mk.inj (Option.some.inj hk)

theorem findPage_eq_some {pid p : ℕ} {order : ℤ} {t : PageTable}
    (h : (findPage pid order t).1 = some p) :
    (∃ n, t[p]? = some n ∧ n.pid = pid ∧ n.order = order) ∧
      (findPage pid order t).2 = t.modify p SpaceNode.touch := by
  rw [findPage] at h ⊢
  split at h
  · cases h
  · rename_i i hi
    obtain rfl : i = p := by simpa using h
    obtain ⟨hlt, hpage, -⟩ := List.findIdx?_eq_some_iff_getElem.mp hi
    refine ⟨⟨t[i], List.getElem?_eq_getElem hlt, ?_⟩, rfl⟩
    simpa [SpaceNode.isPage] using hpage

theorem findPage_eq_none {pid : ℕ} {order : ℤ} {t : PageTable}
    (h : (findPage pid order t).1 = none) :
    ¬ HasPage t pid order ∧ (findPage pid order t).2 = t := by
  rw [findPage] at h ⊢
  split at h
  · rename_i hi
    refine ⟨?_, rfl⟩
    rintro ⟨n, hn, hp, ho⟩
    have := List.findIdx?_eq_none_iff.mp hi n hn
    simp [SpaceNode.isPage, hp, ho] at this
  · cases h

theorem map_page_findPage (pid : ℕ) (order : ℤ) (t : PageTable) :
    (findPage pid order t).2.map SpaceNode.page = t.map SpaceNode.page :=
  (clocksOnly_findPage pid order t).map_eq fun _ => rfl

theorem perm_page_findPage (pid : ℕ) (order : ℤ) (t : PageTable) :
    ((findPage pid order t).2.map SpaceNode.page).Perm (t.map SpaceNode.page) :=
  .of_eq (map_page_findPage pid order t)

/-- The loop that looks for the last page of a process with the orders `1, ..., k`. -/
theorem lastPageLoop_spec {pid : ℕ} {k : ℤ} :
    ∀ {fuel : ℕ} {last : Option ℕ} {i : ℤ} {t : PageTable},
      (∀ o, i ≤ o → (HasPage t pid o ↔ o ≤ k)) → k < i + fuel → i ≤ k + 1 →
      (i = k + 1 → ∃ p n, last = some p ∧ t[p]? = some n ∧ n.pid = pid ∧ n.order = k) →
      ∃ p n t', lastPageLoop pid fuel last i t = (some p, t') ∧
        t'.map SpaceNode.page = t.map SpaceNode.page ∧ t'[p]? = some n ∧
        n.pid = pid ∧ n.order = k := by
  intro fuel
  induction fuel with
  | zero =>
    intro last i t _ hfuel hik hlast
    obtain ⟨p, n, rfl, hp, hn⟩ := hlast (by push_cast at hfuel; omega)
    exact ⟨p, n, t, rfl, rfl, hp, hn⟩
  | succ fuel ih =>
    intro last i t hpages hfuel hik hlast
    rw [lastPageLoop]
    cases hfind : (findPage pid i t).1 with
    | none =>
      have hnone := (findPage_eq_none hfind).1
      have hik' : i = k + 1 := by
        have := mt (hpages i le_rfl).mpr hnone
        omega
      obtain ⟨p, n, rfl, hp, hn⟩ := hlast hik'
      refine ⟨p, n, t, ?_, rfl, hp, hn⟩
      rw [show findPage pid i t = (none, t) from Prod.ext hfind (findPage_eq_none hfind).2]
    | some p =>
      obtain ⟨⟨n, hn, hpid, hord⟩, ht⟩ := findPage_eq_some hfind
      rw [show findPage pid i t = (some p, t.modify p SpaceNode.touch) from Prod.ext hfind ht]
      have hpage := map_page_findPage pid i t
      rw [ht] at hpage
      have hik' : i ≤ k := (hpages i le_rfl).mp
        ⟨n, List.mem_iff_getElem?.mpr ⟨p, hn⟩, hpid, hord⟩
      have htouch : (t.modify p SpaceNode.touch)[p]? = some n.touch := by
        rw [List.getElem?_modify, hn]
        exact congrArg some (if_pos rfl)
      obtain ⟨q, m, t', hloop, hmap, hq, hm⟩ := @ih (some p) (i + 1) (t.modify p SpaceNode.touch)
        (fun o ho => (HasPage.of_perm (.of_eq hpage)).trans (hpages o (by omega)))
        (by push_cast at hfuel; omega) (by omega)
        (fun hk => ⟨p, n.touch, rfl, htouch, hpid, hord.trans (by omega)⟩)
      exact ⟨q, m, t', hloop, hmap.trans hpage, hq, hm⟩

/-- `getLastProcessPage` of a process with the orders `1, ..., k`. -/
theorem getLastProcessPage_spec {pid : ℕ} {k : ℤ} {t : PageTable} (hk : 1 ≤ k)
    (hlen : k ≤ t.length) (hpages : ∀ o, 1 ≤ o → (HasPage t pid o ↔ o ≤ k)) :
    ∃ p n t', getLastProcessPage pid t = (some p, t') ∧
      t'.map SpaceNode.page = t.map SpaceNode.page ∧ t'[p]? = some n ∧
      n.pid = pid ∧ n.order = k := by
  have hpage := map_page_findPage pid 1 t
  have hfirst : ∃ p n, (findPage pid 1 t).1 = some p ∧ (findPage pid 1 t).2[p]? = some n ∧
      n.pid = pid ∧ n.order = 1 := by
    cases hfind : (findPage pid 1 t).1 with
    | none => exact absurd ((hpages 1 le_rfl).mpr hk) (findPage_eq_none hfind).1
    | some p =>
      obtain ⟨⟨n, hn, hpid, hord⟩, ht⟩ := findPage_eq_some hfind
      refine ⟨p, n.touch, rfl, ?_, hpid, hord⟩
      rw [ht, List.getElem?_modify, hn]
      exact congrArg some (if_pos rfl)
  obtain ⟨p, n, hp, hn, hpid, hord⟩ := hfirst
  obtain ⟨q, m, t', hloop, hmap, hq, hm⟩ := @lastPageLoop_spec pid k t.length
    (findPage pid 1 t).1 2 (findPage pid 1 t).2
    (fun o ho => (HasPage.of_perm (.of_eq hpage)).trans (hpages o (by omega)))
    (by omega) (by omega) (fun h2 => ⟨p, n, hp, hn, hpid, by omega⟩)
  exact ⟨q, m, t', hloop, hmap.trans hpage, hq, hm⟩

/-! ### What the operations do to the keys -/

theorem clocksOnly_lastPageLoop (pid : ℕ) (fuel : ℕ) (last : Option ℕ) (i : ℤ) (t : PageTable) :
    ClocksOnly t (lastPageLoop pid fuel last i t).2 := by
  induction fuel generalizing last i t with
  | zero => exact .refl t
  | succ fuel ih =>
    have hfind := clocksOnly_findPage pid i t
    rw [lastPageLoop]
    split <;> rename_i heq <;> rw [heq] at hfind
    · exact hfind
    · exact hfind.trans (ih ..)

theorem clocksOnly_getLastProcessPage (pid : ℕ) (t : PageTable) :
    ClocksOnly t (getLastProcessPage pid t).2 :=
  (clocksOnly_findPage ..).trans (clocksOnly_lastPageLoop ..)

theorem clocksOnly_continuationLoop (pid : ℕ) (fuel : ℕ) (p : Option ℕ) (i : ℤ) (t : PageTable) :
    ClocksOnly t (continuationLoop pid fuel p i t) := by
  induction fuel generalizing p i t with
  | zero => exact .refl t
  | succ fuel ih =>
    rw [continuationLoop]
    split
    · split_ifs
      · exact (clocksOnly_findPage pid i t).trans (ih ..)
      · exact .refl t
    · exact .refl t

/-- `joinFreeSpace` changes nothing but clocks and the flag of the first frame. -/
theorem map_joinFreeSpace {β : Type*} {g : SpaceNode → β} (hg : ∀ n : SpaceNode, g n.touch = g n)
    (hflag : ∀ n : SpaceNode, g { n with dataStartsAnotherPage := true } = g n) {pid : ℕ}
    {lastFree : Bool} {t t' : PageTable} (h : joinFreeSpace pid lastFree t = some t') :
    t'.map g = t.map g := by
  have hlast := (clocksOnly_getLastProcessPage pid t).map_eq hg
  rw [joinFreeSpace] at h
  split at h
  · cases h
  · rename_i p t₁ heq
    rw [heq] at hlast
    obtain ⟨n, -, rfl⟩ := Option.map_eq_some_iff.mp h
    have hloop :=
      (clocksOnly_continuationLoop pid (t₁.length + 1) (some p) (n.order - 1) t₁).map_eq hg
    dsimp only
    split_ifs
    · exact (map_modify_eq g hflag _ 0).trans (hloop.trans hlast)
    · exact hloop.trans hlast

/-- Changing the descriptor `a` of one frame. -/
theorem keys_modify_perm {t : PageTable} {i : ℕ} {a : SpaceNode} (h : t[i]? = some a)
    (f : SpaceNode → SpaceNode) :
    (a.key.toList ++ keys (t.modify i f)).Perm ((f a).key.toList ++ keys t) := by
  have hp := (cons_modify_perm h f).filterMap SpaceNode.key
  have hcons (n : SpaceNode) (l : PageTable) :
      (n :: l).filterMap SpaceNode.key = n.key.toList ++ keys l := by
    rw [List.filterMap_cons, keys]
    cases n.key <;> rfl
  rwa [hcons, hcons] at hp

theorem map_page_swapPages_perm (i j : ℕ) (t : PageTable) :
    ((swapPages i j t).map SpaceNode.page).Perm (t.map SpaceNode.page) :=
  page_perm_of_info (perm_swapPages i j t)

/-- A free frame that is taken adds the key with the order found in the frame. -/
theorem keys_takePage {pid i : ℕ} {s : PageState} {n : SpaceNode} (h : s.frames[i]? = some n)
    (hfree : n.free = true) :
    (keys (takePage pid i s).frames).Perm ((pid, n.order) :: keys s.frames) := by
  refine (keys_perm_of_page (map_page_swapPages_perm ..)).trans ?_
  have hp := keys_modify_perm h (SpaceNode.take pid)
  rwa [SpaceNode.key, if_pos hfree] at hp

/-- The page just taken is in the first frame. -/
theorem takePage_first_info {pid i : ℕ} {s : PageState} {n : SpaceNode}
    (h : s.frames[i]? = some n) :
    ∃ q, (takePage pid i s).frames[0]? = some q ∧ q.info = (n.take pid).info := by
  have hmod : (s.frames.modify i (SpaceNode.take pid))[i]? = some (n.take pid) := by
    rw [List.getElem?_modify, h]
    exact congrArg some (if_pos rfl)
  rw [takePage, swapPages]
  split_ifs with hi
  · subst hi
    exact ⟨_, hmod, rfl⟩
  · have hlen := (List.getElem?_eq_some_iff.mp hmod).1
    obtain ⟨p, hp⟩ : ∃ p, (s.frames.modify i (SpaceNode.take pid))[0]? = some p :=
      ⟨_, List.getElem?_eq_getElem (by omega)⟩
    rw [hp, hmod]
    refine ⟨(n.take pid).withLinks p, ?_, rfl⟩
    rw [List.getElem?_set_ne (Ne.symm hi), List.getElem?_set_self (by omega)]

theorem takePage_first {pid i : ℕ} {s : PageState} {n : SpaceNode} (h : s.frames[i]? = some n) :
    ∃ q, (takePage pid i s).frames[0]? = some q ∧ q.page = (pid, n.order, false) := by
  obtain ⟨q, hq, hinfo⟩ := takePage_first_info h
  exact ⟨q, hq, congrArg infoPage hinfo⟩

theorem FreeOk.takePage {pid i : ℕ} {s : PageState} (h : FreeOk s.frames) :
    FreeOk (takePage pid i s).frames := by
  refine FreeOk.of_perm ?_ (map_page_swapPages_perm ..)
  exact forall_mem_modify h fun n _ hf => absurd hf (by simp [SpaceNode.take])

/-! ### Evictions -/

theorem getElem?_tickClock (t : PageTable) (i a : ℕ) : (t.modify i SpaceNode.tickClock)[a]? =
    if i = a then (t[a]?).map SpaceNode.tickClock else t[a]? := by
  rw [List.getElem?_modify]
  split_ifs <;> simp

/-- The walk of `getVictimPage` ends at a frame, and changes nothing but clocks. -/
theorem victimLoop_get {pid i j : ℕ} {t t' : PageTable} (h : victimLoop pid i t = some (j, t')) :
    ClocksOnly t t' ∧ ∃ n, t'[j]? = some n := by
  induction i generalizing t with
  | zero =>
    rw [victimLoop] at h
    split at h
    · cases h
    · rename_i n hn
      split_ifs at h
      obtain ⟨rfl, rfl⟩ := Prod.mk.inj (Option.some.inj h)
      exact ⟨rfl, n, hn⟩
  | succ i ih =>
    rw [victimLoop] at h
    split at h
    · cases h
    · rename_i n hn
      split_ifs at h
      · obtain ⟨hclocks, hget⟩ := ih h
        refine ⟨ClocksOnly.trans ?_ hclocks, hget⟩
        exact map_modify_eq SpaceNode.touch (f := SpaceNode.tickClock) (fun _ => rfl) t i
      · obtain ⟨rfl, rfl⟩ := Prod.mk.inj (Option.some.inj h)
        exact ⟨rfl, n, hn⟩

/-- The walk from the frame `i`, whose clock is below 3, over frames whose clocks are 0: the victim
belongs to somebody else, and the clocks that have advanced are those of the process and of the
victim. -/
theorem victimLoop_spec {pid : ℕ} :
    ∀ {i j : ℕ} {t t' : PageTable}, victimLoop pid i t = some (j, t') →
      (∀ a < i, ∀ n, t[a]? = some n → n.swapclock = 0) →
      (∀ n, t[i]? = some n → n.swapclock < 3) →
      (∀ a n, t[a]? = some n → n.swapclock ≠ 0 → n.pid = pid ∨ a = i) →
      (∀ n, t'[j]? = some n → n.pid ≠ pid) ∧
        ∀ a n, t'[a]? = some n → n.swapclock ≠ 0 → n.pid = pid ∨ a = j := by
  intro i
  induction i with
  | zero =>
    intro j t t' h _ hclock hdirty
    rw [victimLoop] at h
    split at h
    · cases h
    · rename_i n hn
      split_ifs at h with hc
      obtain ⟨rfl, rfl⟩ := Prod.mk.inj (Option.some.inj h)
      exact ⟨fun m hm hp => hc ⟨by rwa [Option.some.inj (hn.symm.trans hm)], hclock n hn⟩, hdirty⟩
  | succ i ih =>
    intro j t t' h hzero hclock hdirty
    rw [victimLoop] at h
    split at h
    · cases h
    · rename_i n hn
      split_ifs at h with hc
      · have hzero' (a : ℕ) (ha : a < i) (m : SpaceNode)
            (hm : (t.modify i SpaceNode.tickClock)[a]? = some m) : m.swapclock = 0 := by
          rw [getElem?_tickClock, if_neg (by omega)] at hm
          exact hzero a (by omega) m hm
        have hclock' (m : SpaceNode) (hm : (t.modify i SpaceNode.tickClock)[i]? = some m) :
            m.swapclock < 3 := by
          rw [getElem?_tickClock, if_pos rfl] at hm
          obtain ⟨m₀, hm₀, rfl⟩ := Option.map_eq_some_iff.mp hm
          simp only [SpaceNode.tickClock, hzero i (by omega) m₀ hm₀]
          decide
        have hdirty' (a : ℕ) (m : SpaceNode)
            (hm : (t.modify i SpaceNode.tickClock)[a]? = some m) (hne : m.swapclock ≠ 0) :
            m.pid = pid ∨ a = i := by
          rw [getElem?_tickClock] at hm
          split_ifs at hm with hia
          · exact Or.inr hia.symm
          · rcases hdirty a m hm hne with hp | rfl
            · exact Or.inl hp
            · rw [hn] at hm
              exact Or.inl (Option.some.inj hm ▸ hc.1)
        exact ih h hzero' hclock' hdirty'
      · obtain ⟨rfl, rfl⟩ := Prod.mk.inj (Option.some.inj h)
        exact ⟨fun m hm hp => hc ⟨by rwa [Option.some.inj (hn.symm.trans hm)], hclock n hn⟩,
          hdirty⟩

/-- All clocks of the frames are 0. -/
def ClocksZero (t : PageTable) : Prop := ∀ n ∈ t, n.swapclock = 0

/-- The frames whose clock is not 0 belong to `pid`. -/
def OnlyDirty (pid : ℕ) (t : PageTable) : Prop := ∀ n ∈ t, n.swapclock ≠ 0 → n.pid = pid

theorem getVictimPage_spec {pid j : ℕ} {t t' : PageTable} (h : getVictimPage pid t = some (j, t'))
    (hz : ClocksZero t) :
    (∀ n, t'[j]? = some n → n.pid ≠ pid) ∧
      ∀ a n, t'[a]? = some n → n.swapclock ≠ 0 → n.pid = pid ∨ a = j := by
  have hzero (a : ℕ) (n : SpaceNode) (hn : t[a]? = some n) : n.swapclock = 0 :=
    hz n (List.mem_iff_getElem?.mpr ⟨a, hn⟩)
  refine victimLoop_spec h (fun a _ => hzero a) (fun n hn => ?_) fun a n hn hne =>
    absurd (hzero a n hn) hne
  rw [hzero _ n hn]
  decide

/-- Of a process without pages the last frame is the victim. -/
theorem getVictimPage_of_last {pid : ℕ} {t : PageTable} {n : SpaceNode}
    (hlast : t.getLast? = some n) (hpid : n.pid ≠ pid) :
    getVictimPage pid t = some (t.length - 1, t) := by
  rw [List.getLast?_eq_getElem?] at hlast
  rw [getVictimPage, victimLoop.eq_def]
  simp only [hlast]
  exact if_neg fun hc => hpid hc.1

/-- The two outcomes of `movePageToSwap`. -/
theorem movePageToSwap_eq_some {pid : ℕ} {moved : Bool} {s s' : PageState}
    (h : movePageToSwap pid s = some (moved, s')) :
    ∃ j t n, getVictimPage pid s.frames = some (j, t) ∧ t[j]? = some n ∧
      ClocksOnly s.frames t ∧
      ((moved = false ∧ (∀ m ∈ s.swap, m.free = false) ∧ s' = { s with frames := t }) ∨
        (moved = true ∧ ∃ k slot, s.swap[k]? = some slot ∧ slot.free = true ∧
          s' = { s with
            frames := t.modify j SpaceNode.release
            swap := s.swap.modify k fun slot => slot.store n })) := by
  obtain ⟨⟨j, t⟩, hv, h⟩ := Option.bind_eq_some_iff.mp h
  obtain ⟨hclocks, n, hn⟩ := victimLoop_get hv
  refine ⟨j, t, n, hv, hn, hclocks, ?_⟩
  simp only [hn] at h
  cases hk : s.swap.findIdx? (·.free) with
  | none =>
    simp only [hk, Option.some.injEq, Prod.mk.injEq] at h
    exact Or.inl ⟨h.1.symm, List.findIdx?_eq_none_iff.mp hk, h.2.symm⟩
  | some k =>
    simp only [hk, Option.some.injEq, Prod.mk.injEq] at h
    obtain ⟨hlt, hfree, -⟩ := List.findIdx?_eq_some_iff_getElem.mp hk
    exact Or.inr ⟨h.1.symm, k, s.swap[k], List.getElem?_eq_getElem hlt, hfree, h.2.symm⟩

theorem findFreePage_eq_some {t : PageTable} {i : ℕ} (h : findFreePage t = some i) :
    ∃ n, t[i]? = some n ∧ n.free = true := by
  obtain ⟨hlt, hfree, -⟩ := List.findIdx?_eq_some_iff_getElem.mp h
  exact ⟨t[i], List.getElem?_eq_getElem hlt, hfree⟩

theorem findFreePage_eq_none {t : PageTable} (h : findFreePage t = none) :
    ∀ n ∈ t, n.free = false :=
  List.findIdx?_eq_none_iff.mp h

/-- After an eviction there is a free frame. -/
theorem findFreePage_release {t : PageTable} {i : ℕ} {n : SpaceNode} (h : t[i]? = some n) :
    findFreePage (t.modify i SpaceNode.release) ≠ none := by
  intro hnone
  have hmem : n.release ∈ t.modify i SpaceNode.release := by
    refine List.mem_iff_getElem?.mpr ⟨i, ?_⟩
    rw [List.getElem?_modify, h]
    exact congrArg some (if_pos rfl)
  exact absurd (findFreePage_eq_none hnone _ hmem) (by simp [SpaceNode.release])

/-- What `getFreePage` does when it obtains a page: it takes a free frame with the order that it
finds there, or the frame of an evicted page with the order of that page. -/
structure Obtains (pid : ℕ) (order : ℤ) (s s' : PageState) : Prop where
  keys : s'.keys.Perm ((pid, order) :: s.keys)
  first : ∃ q, s'.frames[0]? = some q ∧ q.page = (pid, order, false)
  freeOk : FreeOk s'.frames
  pageSize : s'.pageSize = s.pageSize

/-- A page is taken from a free frame. -/
theorem obtains_takePage {pid i : ℕ} {s : PageState} {n : SpaceNode} (h : s.frames[i]? = some n)
    (hfree : n.free = true) (hok : FreeOk s.frames) :
    Obtains pid n.order s (takePage pid i s) where
  keys := (keys_takePage h hfree).append_right _
  first := takePage_first h
  freeOk := hok.takePage
  pageSize := rfl

/-- The page is in a slot and its frame is free: the keys are the same. -/
theorem keys_evict {s : PageState} {t : PageTable} {j k : ℕ} {n slot : SpaceNode}
    (hclocks : ClocksOnly s.frames t) (hn : t[j]? = some n)
    (hfull : n.free = false) (hslot : s.swap[k]? = some slot) (hfree : slot.free = true) :
    (keys (t.modify j SpaceNode.release) ++ keys (s.swap.modify k fun slot => slot.store n)).Perm
      s.keys := by
  have hkey : n.key = some (n.pid, n.order) := by rw [SpaceNode.key, if_neg (by simp [hfull])]
  have hframes : ((n.pid, n.order) :: keys (t.modify j SpaceNode.release)).Perm
      (keys s.frames) := by
    have hp := keys_modify_perm hn SpaceNode.release
    rw [hkey] at hp
    exact hp.trans (keys_perm_of_page (.of_eq (hclocks.map_eq fun _ => rfl)))
  have hswap : (keys (s.swap.modify k fun slot => slot.store n)).Perm
      ((n.pid, n.order) :: keys s.swap) := by
    have hp := keys_modify_perm hslot fun slot => slot.store n
    rwa [SpaceNode.key, if_pos hfree] at hp
  calc (keys (t.modify j SpaceNode.release) ++
          keys (s.swap.modify k fun slot => slot.store n)).Perm
        (keys (t.modify j SpaceNode.release) ++ (n.pid, n.order) :: keys s.swap) :=
        hswap.append_left _
    _ |>.Perm ((n.pid, n.order) :: (keys (t.modify j SpaceNode.release) ++ keys s.swap)) :=
        List.perm_middle
    _ |>.Perm (keys s.frames ++ keys s.swap) := hframes.append_right _

/-- The state after the page in the frame `j` was moved to the slot `k`. -/
def evicted (s : PageState) (t : PageTable) (j k : ℕ) (n : SpaceNode) : PageState :=
  { s with
    frames := t.modify j SpaceNode.release
    swap := s.swap.modify k fun slot => slot.store n }

/-- With a full memory, the frame of the evicted page is the one that is taken. -/
theorem findFreePage_evicted {s : PageState} {t : PageTable} {i j k : ℕ} {n : SpaceNode}
    (hfull : ∀ m ∈ t, m.free = false)
    (hi : findFreePage (evicted s t j k n).frames = some i) : i = j := by
  obtain ⟨m, hm, hfree⟩ := findFreePage_eq_some hi
  by_contra hij
  rw [evicted, List.getElem?_modify] at hm
  obtain ⟨m₀, hm₀, rfl⟩ := Option.map_eq_some_iff.mp hm
  rw [if_neg (Ne.symm hij)] at hfree
  exact absurd hfree (by simp [hfull m₀ (List.mem_iff_getElem?.mpr ⟨i, hm₀⟩)])

/-- A page is taken from the frame of an evicted page. -/
theorem obtains_evicted {pid : ℕ} {s : PageState} {t : PageTable} {j k : ℕ} {n slot : SpaceNode}
    (hclocks : ClocksOnly s.frames t) (hn : t[j]? = some n)
    (hfull : ∀ m ∈ t, m.free = false) (hslot : s.swap[k]? = some slot)
    (hfree : slot.free = true) :
    Obtains pid n.order s (takePage pid j (evicted s t j k n)) := by
  have hj : (evicted s t j k n).frames[j]? = some n.release := by
    rw [evicted, List.getElem?_modify, hn]
    exact congrArg some (if_pos rfl)
  have hocc := hfull n (List.mem_iff_getElem?.mpr ⟨j, hn⟩)
  refine ⟨?_, takePage_first (n := n.release) hj, ?_, rfl⟩
  · have htake := (@keys_takePage pid j _ _ hj rfl).append_right (keys (evicted s t j k n).swap)
    exact htake.trans ((keys_evict hclocks hn hocc hslot hfree).cons _)
  · refine FreeOk.of_perm ?_ (map_page_swapPages_perm ..)
    rw [evicted, List.modify_modify_eq]
    intro m hm hf
    have hnone : m.free = false := by
      refine forall_mem_modify (P := fun m => m.free = false) hfull (fun _ _ => rfl) m hm
    exact absurd hf (by simp [hnone])

/-- The outcomes of `getFreePage`. -/
theorem getFreePage_eq_some {pid : ℕ} {ok : Bool} {s s' : PageState}
    (h : getFreePage pid s = some (ok, s')) :
    (ok = true ∧ ∃ i n, s.frames[i]? = some n ∧ n.free = true ∧ s' = takePage pid i s) ∨
      ((∀ m ∈ s.frames, m.free = false) ∧ ∃ j t n, getVictimPage pid s.frames = some (j, t) ∧
        t[j]? = some n ∧ ClocksOnly s.frames t ∧
        (∀ m ∈ t, m.free = false) ∧
        ((ok = false ∧ (∀ m ∈ s.swap, m.free = false) ∧ s' = { s with frames := t }) ∨
          (ok = true ∧ ∃ k slot, s.swap[k]? = some slot ∧ slot.free = true ∧
            s' = takePage pid j (evicted s t j k n)))) := by
  rw [getFreePage] at h
  cases hi : findFreePage s.frames with
  | some i =>
    simp only [hi, Option.some.injEq, Prod.mk.injEq] at h
    obtain ⟨n, hn, hfree⟩ := findFreePage_eq_some hi
    exact Or.inl ⟨h.1.symm, i, n, hn, hfree, h.2.symm⟩
  | none =>
    simp only [hi] at h
    have hfull := findFreePage_eq_none hi
    obtain ⟨⟨moved, s₁⟩, hmove, h⟩ := Option.bind_eq_some_iff.mp h
    obtain ⟨j, t, n, hv, hn, hclocks, hcase⟩ := movePageToSwap_eq_some hmove
    have hfull' : ∀ m ∈ t, m.free = false := by
      intro m hm
      have hmem : m.touch ∈ s.frames.map SpaceNode.touch := hclocks ▸ List.mem_map_of_mem hm
      obtain ⟨m₀, hm₀, heq⟩ := List.mem_map.mp hmem
      exact (congrArg SpaceNode.free heq).symm.trans (hfull m₀ hm₀)
    refine Or.inr ⟨hfull, j, t, n, hv, hn, hclocks, hfull', ?_⟩
    rcases hcase with ⟨rfl, hswap, rfl⟩ | ⟨rfl, k, slot, hslot, hfree, rfl⟩
    · simp only [Bool.false_eq_true, if_false, Option.some.injEq, Prod.mk.injEq] at h
      exact Or.inl ⟨h.1.symm, hswap, h.2.symm⟩
    · simp only [if_true] at h
      obtain ⟨i, hi, h⟩ := Option.map_eq_some_iff.mp h
      obtain rfl := findFreePage_evicted (s := s) (k := k) (n := n) hfull' hi
      exact Or.inr ⟨(Prod.mk.inj h).1.symm, k, slot, hslot, hfree, (Prod.mk.inj h).2.symm⟩

theorem pageSize_getFreePage {pid : ℕ} {ok : Bool} {s s' : PageState}
    (h : getFreePage pid s = some (ok, s')) : s'.pageSize = s.pageSize := by
  rcases getFreePage_eq_some h with ⟨-, i, n, -, -, rfl⟩ |
    ⟨-, j, t, n, -, -, -, -, ⟨-, -, rfl⟩ | ⟨-, k, slot, -, -, rfl⟩⟩ <;> rfl

theorem length_takePage (pid i : ℕ) (s : PageState) :
    (takePage pid i s).frames.length = s.frames.length := by
  have h := (perm_swapPages 0 i (s.frames.modify i (SpaceNode.take pid))).length_eq
  rwa [List.length_map, List.length_map, List.length_modify] at h

theorem length_getFreePage {pid : ℕ} {ok : Bool} {s s' : PageState}
    (h : getFreePage pid s = some (ok, s')) : s'.frames.length = s.frames.length := by
  have hlen {t : PageTable} (hclocks : ClocksOnly s.frames t) : t.length = s.frames.length := by
    have := congrArg List.length hclocks
    rwa [List.length_map, List.length_map] at this
  rcases getFreePage_eq_some h with ⟨-, i, n, -, -, rfl⟩ |
    ⟨-, j, t, n, -, -, hclocks, -, ⟨-, -, rfl⟩ | ⟨-, k, slot, -, -, rfl⟩⟩
  · exact length_takePage ..
  · exact hlen hclocks
  · exact (length_takePage ..).trans ((List.length_modify ..).trans (hlen hclocks))

/-! ### What holds of every descriptor -/

section Forall

variable {P : SpaceNode → Prop} {t t' : PageTable}

theorem forall_swapPages (hP : ∀ p q : SpaceNode, P q → P (q.withLinks p)) (h : ∀ n ∈ t, P n)
    (i j : ℕ) : ∀ n ∈ swapPages i j t, P n := by
  rw [swapPages]
  split_ifs
  · exact h
  · split
    · rename_i p q hp hq
      intro n hn
      have hp := h p (List.mem_iff_getElem?.mpr ⟨i, hp⟩)
      have hq := h q (List.mem_iff_getElem?.mpr ⟨j, hq⟩)
      rcases List.mem_or_eq_of_mem_set hn with hn | rfl
      · rcases List.mem_or_eq_of_mem_set hn with hn | rfl
        · exact h n hn
        · exact hP p q hq
      · exact hP q p hp
    · exact h

theorem forall_findPage (hP : ∀ n : SpaceNode, P n → P n.touch) (h : ∀ n ∈ t, P n) (pid : ℕ)
    (order : ℤ) : ∀ n ∈ (findPage pid order t).2, P n := by
  rw [findPage]
  split
  · exact h
  · exact forall_mem_modify h fun n hn => hP n (h n (List.mem_iff_getElem?.mpr ⟨_, hn⟩))

theorem forall_lastPageLoop (hP : ∀ n : SpaceNode, P n → P n.touch) (pid fuel : ℕ) :
    ∀ (last : Option ℕ) (i : ℤ) {t : PageTable}, (∀ n ∈ t, P n) →
      ∀ n ∈ (lastPageLoop pid fuel last i t).2, P n := by
  induction fuel with
  | zero => exact fun _ _ _ h => h
  | succ fuel ih =>
    intro last i t h
    have hfind := forall_findPage hP h pid i
    rw [lastPageLoop]
    split <;> rename_i heq <;> rw [heq] at hfind
    · exact hfind
    · exact ih _ _ hfind

theorem forall_getLastProcessPage (hP : ∀ n : SpaceNode, P n → P n.touch) (h : ∀ n ∈ t, P n)
    (pid : ℕ) : ∀ n ∈ (getLastProcessPage pid t).2, P n :=
  forall_lastPageLoop hP pid _ _ _ (forall_findPage hP h pid 1)

theorem forall_continuationLoop (hP : ∀ n : SpaceNode, P n → P n.touch) (pid fuel : ℕ) :
    ∀ (p : Option ℕ) (i : ℤ) {t : PageTable}, (∀ n ∈ t, P n) →
      ∀ n ∈ continuationLoop pid fuel p i t, P n := by
  induction fuel with
  | zero => exact fun _ _ _ h => h
  | succ fuel ih =>
    intro p i t h
    rw [continuationLoop]
    split
    · split_ifs
      · exact ih _ _ (forall_findPage hP h pid i)
      · exact h
    · exact h

theorem forall_joinFreeSpace (hP : ∀ n : SpaceNode, P n → P n.touch)
    (hflag : ∀ n : SpaceNode, P n → P { n with dataStartsAnotherPage := true })
    (h : ∀ n ∈ t, P n) {pid : ℕ} {lastFree : Bool} (hj : joinFreeSpace pid lastFree t = some t') :
    ∀ n ∈ t', P n := by
  have hlast := forall_getLastProcessPage hP h pid
  rw [joinFreeSpace] at hj
  split at hj
  · cases hj
  · rename_i p t₁ heq
    rw [heq] at hlast
    obtain ⟨n, -, rfl⟩ := Option.map_eq_some_iff.mp hj
    have hloop := forall_continuationLoop hP pid (t₁.length + 1) (some p) (n.order - 1) hlast
    dsimp only
    split_ifs
    · exact forall_mem_modify hloop fun n hn =>
        hflag n (hloop n (List.mem_iff_getElem?.mpr ⟨_, hn⟩))
    · exact hloop

theorem forall_makeContiguous (hP : ∀ p q : SpaceNode, P q → P (q.withLinks p))
    (h : ∀ n ∈ t, P n) {pageSize p q : ℕ} (hm : makeContiguous pageSize p q t = some t') :
    ∀ n ∈ t', P n := by
  rw [makeContiguous] at hm
  split_ifs at hm
  · obtain rfl := Option.some.inj hm
    exact h
  · obtain ⟨c, -, rfl⟩ := Option.map_eq_some_iff.mp hm
    exact forall_swapPages hP h c q

theorem forall_loadLoop (hP : ∀ p q : SpaceNode, P q → P (q.withLinks p))
    (hT : ∀ n : SpaceNode, P n → P n.touch) {pageSize pid fuel : ℕ} :
    ∀ {p1 : ℕ} {p2 : Option ℕ} {i : ℤ} {t : PageTable}, (∀ n ∈ t, P n) →
      loadLoop pageSize pid fuel p1 p2 i t = some t' → ∀ n ∈ t', P n := by
  induction fuel with
  | zero =>
    intro p1 p2 i t h hl
    cases p2 with
    | none =>
      obtain rfl : t = t' := by simpa [loadLoop] using hl
      exact h
    | some p => simp [loadLoop] at hl
  | succ fuel ih =>
    intro p1 p2 i t h hl
    cases p2 with
    | none =>
      obtain rfl : t = t' := by simpa [loadLoop] using hl
      exact h
    | some p =>
      obtain ⟨t₁, hc, hl⟩ := Option.bind_eq_some_iff.mp hl
      exact ih (forall_findPage hT (forall_makeContiguous hP h hc) pid i) hl

theorem forall_loadProcessPages (hP : ∀ p q : SpaceNode, P q → P (q.withLinks p))
    (hT : ∀ n : SpaceNode, P n → P n.touch) (h : ∀ n ∈ t, P n) {pageSize pid : ℕ}
    (hl : loadProcessPages pageSize pid t = some t') : ∀ n ∈ t', P n := by
  have hfind := forall_findPage hT h pid 1
  rw [loadProcessPages] at hl
  split at hl
  · cases hl
  · rename_i p t₁ heq
    rw [heq] at hfind
    exact forall_loadLoop hP hT (forall_findPage hT (forall_swapPages hP hfind 0 p) pid 2) hl

end Forall

/-! ### Clocks -/

/-- The process `pid` owns exactly the pages `1, ..., k`, all in memory. -/
structure InMemory (pid : ℕ) (k : ℤ) (t : PageTable) : Prop where
  pos : pid ≠ 0
  nodup : (keys t).Nodup
  freeOk : FreeOk t
  pages : ∀ o, HasPage t pid o ↔ 1 ≤ o ∧ o ≤ k

theorem InMemory.of_perm {pid : ℕ} {k : ℤ} {t t' : PageTable} (h : InMemory pid k t)
    (hp : (t'.map SpaceNode.page).Perm (t.map SpaceNode.page)) : InMemory pid k t' where
  pos := h.pos
  nodup := (keys_perm_of_page hp).nodup_iff.mpr h.nodup
  freeOk := h.freeOk.of_perm hp
  pages o := (HasPage.of_perm hp).trans (h.pages o)

/-- The frames whose clock is not 0 hold pages of `pid` from the order `i` on. -/
def DirtyFrom (pid : ℕ) (i : ℤ) (t : PageTable) : Prop :=
  ∀ n ∈ t, n.swapclock ≠ 0 → n.pid = pid ∧ i ≤ n.order

/-- Looking for the page `i` resets its clock. -/
theorem DirtyFrom.findPage {pid : ℕ} {k i : ℤ} {t : PageTable} (hmem : InMemory pid k t)
    (h : DirtyFrom pid i t) : DirtyFrom pid (i + 1) (findPage pid i t).2 := by
  cases hfind : (VM.findPage pid i t).1 with
  | none =>
    obtain ⟨hnone, ht⟩ := findPage_eq_none hfind
    rw [ht]
    intro n hn hne
    obtain ⟨hp, ho⟩ := h n hn hne
    have : n.order ≠ i := fun he => hnone ⟨n, hn, hp, he⟩
    exact ⟨hp, by omega⟩
  | some p =>
    obtain ⟨⟨a, ha, hpid, hord⟩, ht⟩ := findPage_eq_some hfind
    obtain ⟨r, hr, hmod⟩ := exists_perm_modify ha
    rw [ht]
    intro n hn hne
    have hnr : n ∈ r := by
      rcases List.mem_cons.mp ((hmod _).mem_iff.mp hn) with rfl | hnr
      · exact absurd rfl hne
      · exact hnr
    obtain ⟨hp, ho⟩ := h n (hr.mem_iff.mpr (List.mem_cons_of_mem _ hnr)) hne
    refine ⟨hp, ?_⟩
    by_contra hlt
    have hocc (m : SpaceNode) (hm : m ∈ t) (hmp : m.pid = pid) (hmo : m.order = i) :
        m.key = some (pid, i) := by
      rw [SpaceNode.key, if_neg, hmp, hmo]
      exact fun hf => hmem.pos (hmp.symm.trans (hmem.freeOk m hm hf).1)
    have hkeys := (hr.filterMap SpaceNode.key).nodup_iff.mp hmem.nodup
    have hka := hocc a (hr.mem_iff.mpr List.mem_cons_self) hpid hord
    rw [List.filterMap_cons, hka] at hkeys
    refine (List.nodup_cons.mp hkeys).1 (List.mem_filterMap.mpr ⟨n, hnr, ?_⟩)
    exact hocc n (hr.mem_iff.mpr (List.mem_cons_of_mem _ hnr)) hp (by omega)

theorem DirtyFrom.swapPages {pid : ℕ} {i : ℤ} {t : PageTable} (h : DirtyFrom pid i t) (a b : ℕ) :
    DirtyFrom pid i (swapPages a b t) :=
  forall_swapPages (P := fun n => n.swapclock ≠ 0 → n.pid = pid ∧ i ≤ n.order)
    (fun _ _ hq => hq) h a b

/-- The loop of `loadProcessPages` resets the clocks of the remaining pages. -/
theorem clocksZero_loadLoop {pageSize pid : ℕ} {k : ℤ} {fuel : ℕ} :
    ∀ {p1 : ℕ} {p2 : Option ℕ} {i : ℤ} {t t' : PageTable}, InMemory pid k t →
      DirtyFrom pid i t → 2 ≤ i → (p2 = none → ¬ HasPage t pid (i - 1)) →
      loadLoop pageSize pid fuel p1 p2 i t = some t' → ClocksZero t' := by
  have hend {i : ℤ} {t : PageTable} (hmem : InMemory pid k t) (hd : DirtyFrom pid i t)
      (hi : 2 ≤ i) (hnone : ¬ HasPage t pid (i - 1)) : ClocksZero t := by
    intro n hn
    by_contra hne
    obtain ⟨hp, ho⟩ := hd n hn hne
    have h1 := (hmem.pages n.order).mp ⟨n, hn, hp, rfl⟩
    exact hnone ((hmem.pages (i - 1)).mpr (by omega))
  induction fuel with
  | zero =>
    intro p1 p2 i t t' hmem hd hi hnone h
    cases p2 with
    | none =>
      obtain rfl : t = t' := by simpa [loadLoop] using h
      exact hend hmem hd hi (hnone rfl)
    | some p => simp [loadLoop] at h
  | succ fuel ih =>
    intro p1 p2 i t t' hmem hd hi hnone h
    cases p2 with
    | none =>
      obtain rfl : t = t' := by simpa [loadLoop] using h
      exact hend hmem hd hi (hnone rfl)
    | some p =>
      obtain ⟨t₁, hc, h⟩ := Option.bind_eq_some_iff.mp h
      have hmem₁ := hmem.of_perm (page_perm_of_info (perm_makeContiguous hc))
      have hd₁ : DirtyFrom pid i t₁ := forall_makeContiguous (fun _ _ hq => hq) hd hc
      have hpage := perm_page_findPage pid i t₁
      refine ih (hmem₁.of_perm hpage) (hd₁.findPage hmem₁) (by omega) (fun hn => ?_) h
      rw [HasPage.of_perm hpage, add_sub_cancel_right]
      exact (findPage_eq_none hn).1

/-- `loadProcessPages` resets the clocks of the pages it loads. -/
theorem clocksZero_loadProcessPages {pageSize pid : ℕ} {k : ℤ} {t t' : PageTable}
    (hmem : InMemory pid k t) (hd : DirtyFrom pid 1 t)
    (h : loadProcessPages pageSize pid t = some t') : ClocksZero t' := by
  rw [loadProcessPages] at h
  have hfind := hd.findPage hmem
  have hpage := perm_page_findPage pid 1 t
  split at h
  · cases h
  · rename_i p t₁ heq
    rw [heq] at hfind hpage
    have hmem₁ : InMemory pid k (swapPages 0 p t₁) :=
      (hmem.of_perm hpage).of_perm (map_page_swapPages_perm ..)
    have hd₁ := hfind.swapPages 0 p
    have hpage₂ := perm_page_findPage pid 2 (swapPages 0 p t₁)
    refine clocksZero_loadLoop (hmem₁.of_perm hpage₂) (hd₁.findPage hmem₁) (by norm_num)
      (fun hn => ?_) h
    rw [HasPage.of_perm hpage₂]
    exact (findPage_eq_none hn).1

end OSDesign.VM
