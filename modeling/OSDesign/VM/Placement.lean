import Mathlib.Tactic
import OSDesign.Lib.ListUpdate
import OSDesign.VM.PageKeys

/-!
# Where the pages of a process are

A process addresses its page `i` at the address of the frame `i - 1`, so `loadProcessPages` has to
bring the pages of the process to the first frames, in their order. Its loop moves the page `i`
behind the frame *from which* the page `i - 1` was taken, not behind the frame to which it was
moved; `Owns.load` says that the pages come to their places when all but the last of them are there
as soon as the first page has been exchanged with the first frame.

The address and the links of a frame never change (`map_place_loadProcessPages`,
`map_place_reserveAnotherPage`).

## Main definitions

* `Holds`: a frame holds a page of a process.
* `Owns`, `InPlace`, `Settled`, `Contiguous`.

## Main results

* `Owns.load`, `KeyInv.inPlace_reserve`.
-/

namespace OSDesign.VM

open ListUpdate

variable {t t' : PageTable} {pid : ℕ} {o : ℤ}

/-- The frame `i` holds the page `order` of `pid`. -/
def Holds (t : PageTable) (i pid : ℕ) (order : ℤ) : Prop :=
  (t[i]?).map SpaceNode.page = some (pid, order, false)

instance (t : PageTable) (i pid : ℕ) (order : ℤ) : Decidable (Holds t i pid order) :=
  inferInstanceAs (Decidable (_ = _))

theorem holds_congr (h : t'.map SpaceNode.page = t.map SpaceNode.page) (i : ℕ) :
    Holds t' i pid o ↔ Holds t i pid o := by
  rw [Holds, Holds, ← List.getElem?_map, ← List.getElem?_map, h]

theorem Holds.lt_length {i : ℕ} (h : Holds t i pid o) : i < t.length := by
  obtain ⟨n, hn, -⟩ := Option.map_eq_some_iff.mp h
  exact (List.getElem?_eq_some_iff.mp hn).1

theorem Holds.hasPage {i : ℕ} (h : Holds t i pid o) : HasPage t pid o := by
  obtain ⟨n, hn, hpage⟩ := Option.map_eq_some_iff.mp h
  rw [SpaceNode.page, Prod.mk.injEq, Prod.mk.injEq] at hpage
  exact ⟨n, List.mem_iff_getElem?.mpr ⟨i, hn⟩, hpage.1, hpage.2.1⟩

/-- A page is in one frame only. -/
theorem holds_unique (hnodup : (keys t).Nodup) {a b : ℕ} (ha : Holds t a pid o)
    (hb : Holds t b pid o) : a = b := by
  have hkey {i : ℕ} (hi : Holds t i pid o) : ∃ h : i < t.length, t[i].key = some (pid, o) := by
    obtain ⟨n, hn, hpage⟩ := Option.map_eq_some_iff.mp hi
    obtain ⟨hlt, rfl⟩ := List.getElem?_eq_some_iff.mp hn
    refine ⟨hlt, ?_⟩
    rw [SpaceNode.page, Prod.mk.injEq, Prod.mk.injEq] at hpage
    rw [SpaceNode.key, hpage.1, hpage.2.1, hpage.2.2]
    rfl
  obtain ⟨hla, hka⟩ := hkey ha
  obtain ⟨hlb, hkb⟩ := hkey hb
  have hpair := List.pairwise_iff_getElem.mp (List.pairwise_filterMap.mp hnodup)
  rcases lt_trichotomy a b with hlt | heq | hlt
  · exact absurd rfl (hpair a b hla hlb hlt _ hka _ hkb)
  · exact heq
  · exact absurd rfl (hpair b a hlb hla hlt _ hkb _ hka)

/-! ### Exchanging frames -/

/-- What does not depend on the address and the links is exchanged. -/
theorem map_swapPages {β : Type*} {g : SpaceNode → β}
    (hg : ∀ n m : SpaceNode, g (n.withLinks m) = g n) {i j : ℕ} (hi : i < t.length)
    (hj : j < t.length) (a : ℕ) :
    ((swapPages i j t)[a]?).map g = (t[if a = i then j else if a = j then i else a]?).map g := by
  rw [swapPages]
  by_cases hij : i = j
  · subst hij
    rw [if_pos rfl]
    split_ifs with ha
    · rw [ha]
    · rfl
  rw [if_neg hij, List.getElem?_eq_getElem hi, List.getElem?_eq_getElem hj]
  dsimp only
  by_cases hai : a = i
  · subst hai
    rw [if_pos rfl, List.getElem?_set_ne (Ne.symm hij), List.getElem?_set_self hi,
      List.getElem?_eq_getElem hj]
    exact congrArg some (hg _ _)
  rw [if_neg hai]
  by_cases haj : a = j
  · subst haj
    rw [if_pos rfl, List.getElem?_set_self (by rwa [List.length_set]), List.getElem?_eq_getElem hi]
    exact congrArg some (hg _ _)
  · rw [if_neg haj, List.getElem?_set_ne (Ne.symm haj), List.getElem?_set_ne (Ne.symm hai)]

theorem map_page_swapPages {i j : ℕ} (hi : i < t.length) (hj : j < t.length) (a : ℕ) :
    ((swapPages i j t)[a]?).map SpaceNode.page =
      (t[if a = i then j else if a = j then i else a]?).map SpaceNode.page :=
  map_swapPages (fun _ _ => rfl) hi hj a

theorem map_page_swapPages_congr (h : t'.map SpaceNode.page = t.map SpaceNode.page) {i j : ℕ}
    (hi : i < t.length) (hj : j < t.length) :
    (swapPages i j t').map SpaceNode.page = (swapPages i j t).map SpaceNode.page := by
  have hlen : t'.length = t.length := by
    have := congrArg List.length h
    rwa [List.length_map, List.length_map] at this
  refine List.ext_getElem? fun a => ?_
  rw [List.getElem?_map, List.getElem?_map, map_page_swapPages (by omega) (by omega),
    map_page_swapPages hi hj, ← List.getElem?_map, ← List.getElem?_map, h]

theorem holds_swapPages_left {i j : ℕ} (hi : i < t.length) (hj : Holds t j pid o) :
    Holds (swapPages i j t) i pid o := by
  rw [Holds, map_page_swapPages hi hj.lt_length, if_pos rfl]
  exact hj

theorem holds_swapPages_of_ne {i j a : ℕ} (hi : i < t.length) (hj : j < t.length) (hai : a ≠ i)
    (haj : a ≠ j) : Holds (swapPages i j t) a pid o ↔ Holds t a pid o := by
  rw [Holds, map_page_swapPages hi hj, if_neg hai, if_neg haj, Holds]

theorem length_swapPages (i j : ℕ) : (swapPages i j t).length = t.length := by
  rw [swapPages]
  split_ifs
  · rfl
  · split
    · rw [List.length_set, List.length_set]
    · rfl

/-! ### The address and the links of a frame -/

/-- The address and the links of a frame. -/
def SpaceNode.place (n : SpaceNode) : ℕ × Option ℕ × Option ℕ := (n.start, n.next, n.prev)

theorem map_place_swapPages (i j : ℕ) :
    (swapPages i j t).map SpaceNode.place = t.map SpaceNode.place := by
  rw [swapPages]
  split_ifs with hij
  · rfl
  split
  · rename_i p q hp hq
    have hset {l : PageTable} {a : ℕ} {n : SpaceNode}
        (hn : (l.map SpaceNode.place)[a]? = some n.place) :
        (l.set a n).map SpaceNode.place = l.map SpaceNode.place := by
      obtain ⟨hlt, hget⟩ := List.getElem?_eq_some_iff.mp hn
      rw [List.map_set, ← hget, List.set_getElem_self]
    have hp' : (t.map SpaceNode.place)[i]? = some (q.withLinks p).place := by
      rw [List.getElem?_map, hp]
      rfl
    have hq' : (t.map SpaceNode.place)[j]? = some (p.withLinks q).place := by
      rw [List.getElem?_map, hq]
      rfl
    rw [hset (by rwa [hset hp']), hset hp']
  · rfl

theorem map_place_findPage (pid : ℕ) (order : ℤ) (t : PageTable) :
    (findPage pid order t).2.map SpaceNode.place = t.map SpaceNode.place :=
  (clocksOnly_findPage pid order t).map_eq fun _ => rfl

theorem map_place_loadLoop {pageSize fuel p1 : ℕ} {p2 : Option ℕ} {i : ℤ}
    (h : loadLoop pageSize pid fuel p1 p2 i t = some t') :
    t'.map SpaceNode.place = t.map SpaceNode.place := by
  induction fuel generalizing p1 p2 i t with
  | zero =>
    cases p2 with
    | none => rw [Option.some.inj h]
    | some p => cases h
  | succ fuel ih =>
    cases p2 with
    | none => rw [Option.some.inj h]
    | some p =>
      obtain ⟨t₁, hc, h⟩ := Option.bind_eq_some_iff.mp h
      rw [ih h, map_place_findPage]
      rw [makeContiguous] at hc
      split_ifs at hc
      · rw [Option.some.inj hc]
      · obtain ⟨c, -, rfl⟩ := Option.map_eq_some_iff.mp hc
        exact map_place_swapPages c p

/-- `loadProcessPages` does not move the frames. -/
theorem map_place_loadProcessPages {pageSize : ℕ} (h : loadProcessPages pageSize pid t = some t') :
    t'.map SpaceNode.place = t.map SpaceNode.place := by
  have hfind := map_place_findPage pid 1 t
  rw [loadProcessPages] at h
  split at h
  · cases h
  · rename_i p t₁ heq
    rw [heq] at hfind
    rw [map_place_loadLoop h, map_place_findPage, map_place_swapPages, hfind]

theorem map_place_takePage (i : ℕ) (s : PageState) :
    (takePage pid i s).frames.map SpaceNode.place = s.frames.map SpaceNode.place :=
  (map_place_swapPages 0 i).trans
    (map_modify_eq SpaceNode.place (f := SpaceNode.take pid) (fun _ => rfl) s.frames i)

theorem map_place_getFreePage {ok : Bool} {s s' : PageState}
    (h : getFreePage pid s = some (ok, s')) :
    s'.frames.map SpaceNode.place = s.frames.map SpaceNode.place := by
  rcases getFreePage_eq_some h with ⟨-, i, n, -, -, rfl⟩ |
    ⟨-, j, t, n, -, -, hclocks, -, ⟨-, -, rfl⟩ | ⟨-, k, slot, -, -, rfl⟩⟩
  · exact map_place_takePage i s
  · exact hclocks.map_eq fun _ => rfl
  · refine (map_place_takePage j _).trans ?_
    refine (map_modify_eq SpaceNode.place (f := SpaceNode.release) (fun _ => rfl) t j).trans ?_
    exact hclocks.map_eq fun _ => rfl

/-- What depends neither on the order nor on the clocks does not change. -/
theorem map_setOrder {β : Type*} {g : SpaceNode → β}
    (hord : ∀ (n : SpaceNode) (o : ℤ), g { n with order := o } = g n) (order : ℤ) (t : PageTable) :
    (setOrder order t).map g = t.map g :=
  map_modify_eq g (fun n => hord n order) t 0

theorem map_setLastOrder {β : Type*} {g : SpaceNode → β} (hg : ∀ n : SpaceNode, g n.touch = g n)
    (hord : ∀ (n : SpaceNode) (o : ℤ), g { n with order := o } = g n)
    (h : setLastOrder pid t = some t') : t'.map g = t.map g := by
  have hlast := (clocksOnly_getLastProcessPage pid t).map_eq hg
  rw [setLastOrder] at h
  split at h
  · cases h
  · rename_i p t₁ heq
    rw [heq] at hlast
    obtain ⟨n, -, rfl⟩ := Option.map_eq_some_iff.mp h
    exact (map_setOrder hord _ _).trans hlast

/-- `reserveAnotherPage` does not move the frames. -/
theorem map_place_reserveAnotherPage {lastFree ok : Bool} {s s' : PageState}
    (h : reserveAnotherPage pid lastFree s = some (ok, s')) :
    s'.frames.map SpaceNode.place = s.frames.map SpaceNode.place := by
  obtain ⟨⟨got, s₁⟩, hget, h⟩ := Option.bind_eq_some_iff.mp h
  have hplace := map_place_getFreePage hget
  cases got with
  | false =>
    obtain ⟨-, rfl⟩ := Prod.mk.inj (Option.some.inj h)
    exact hplace
  | true =>
    obtain ⟨t₁, hjoin, h⟩ := Option.bind_eq_some_iff.mp h
    obtain ⟨t₂, hlast, h⟩ := Option.bind_eq_some_iff.mp h
    obtain ⟨t₃, hload, heq⟩ := Option.map_eq_some_iff.mp h
    obtain ⟨-, rfl⟩ := Prod.mk.inj heq
    calc t₃.map SpaceNode.place = t₂.map SpaceNode.place := map_place_loadProcessPages hload
      _ = t₁.map SpaceNode.place := map_setLastOrder (fun _ => rfl) (fun _ _ => rfl) hlast
      _ = (setOrder (-1) s₁.frames).map SpaceNode.place :=
        map_joinFreeSpace (fun _ => rfl) (fun _ => rfl) hjoin
      _ = s₁.frames.map SpaceNode.place := map_setOrder (fun _ _ => rfl) _ _
      _ = s.frames.map SpaceNode.place := hplace

/-- The frames lie one behind the other. -/
def Contiguous (pageSize : ℕ) (t : PageTable) : Prop :=
  ∀ i n, t[i]? = some n → n.start = memoryStart + i * pageSize

theorem Contiguous.of_place {pageSize : ℕ} (h : Contiguous pageSize t)
    (hplace : t'.map SpaceNode.place = t.map SpaceNode.place) : Contiguous pageSize t' := by
  intro i n hn
  have hget := congrArg (·[i]?) hplace
  simp only [List.getElem?_map, hn, Option.map_some] at hget
  obtain ⟨m, hm, hmn⟩ := Option.map_eq_some_iff.mp hget.symm
  rw [← h i m hm]
  exact (congrArg Prod.fst hmn).symm

theorem Contiguous.getContiguousPage {pageSize i c : ℕ} (h : Contiguous pageSize t)
    (hsize : 0 < pageSize) (hc : getContiguousPage pageSize i t = some c) : c = i + 1 := by
  obtain ⟨p, hp, hc⟩ := Option.bind_eq_some_iff.mp hc
  obtain ⟨hlt, hstart, -⟩ := List.findIdx?_eq_some_iff_getElem.mp hc
  have h₁ := h i p hp
  have h₂ := h c _ (List.getElem?_eq_getElem hlt)
  have heq : c * pageSize = (i + 1) * pageSize := by
    have := beq_iff_eq.mp hstart
    rw [Nat.add_mul]
    omega
  exact Nat.eq_of_mul_eq_mul_right hsize heq

/-- The page goes behind the frame `page1`, if there is a frame. -/
theorem Contiguous.makeContiguous {pageSize page1 page2 : ℕ} (h : Contiguous pageSize t)
    (hsize : 0 < pageSize) (hne : page1 ≠ page2)
    (hm : makeContiguous pageSize page1 page2 t = some t') :
    page1 + 1 < t.length ∧ t' = swapPages (page1 + 1) page2 t := by
  rw [VM.makeContiguous, if_neg hne] at hm
  obtain ⟨c, hc, rfl⟩ := Option.map_eq_some_iff.mp hm
  obtain rfl := h.getContiguousPage hsize hc
  obtain ⟨p, -, hc⟩ := Option.bind_eq_some_iff.mp hc
  exact ⟨(List.findIdx?_eq_some_iff_getElem.mp hc).1, rfl⟩

theorem Contiguous.makeContiguous_eq {pageSize page1 page2 : ℕ} (h : Contiguous pageSize t)
    (hsize : 0 < pageSize) (hne : page1 ≠ page2) (hlen : page1 + 1 < t.length) :
    VM.makeContiguous pageSize page1 page2 t = some (swapPages (page1 + 1) page2 t) := by
  have hp := List.getElem?_eq_getElem (show page1 < t.length by omega)
  have hq := List.getElem?_eq_getElem hlen
  have hstart : t[page1 + 1].start = t[page1].start + pageSize := by
    rw [h _ _ hq, h _ _ hp, Nat.add_mul, Nat.one_mul, Nat.add_assoc]
  cases hc : VM.getContiguousPage pageSize page1 t with
  | none =>
    rw [VM.getContiguousPage, hp, Option.bind_some, List.findIdx?_eq_none_iff] at hc
    exact absurd hstart (by simpa using hc _ (List.getElem_mem hlen))
  | some c =>
    obtain rfl := h.getContiguousPage hsize hc
    rw [VM.makeContiguous, if_neg hne, hc, Option.map_some]

/-! ### Loading pages -/

/-- The pages `1, ..., k` of the process are in the first `k` frames. -/
def InPlace (pid k : ℕ) (t : PageTable) : Prop := ∀ i < k, Holds t i pid (i + 1)

instance (pid k : ℕ) (t : PageTable) : Decidable (InPlace pid k t) :=
  inferInstanceAs (Decidable (∀ i < k, Holds t i pid (i + 1)))

theorem inPlace_congr (h : t'.map SpaceNode.page = t.map SpaceNode.page) (k : ℕ) :
    InPlace pid k t' ↔ InPlace pid k t :=
  forall₂_congr fun i _ => holds_congr h i

/-- After its first page has been exchanged with the first frame, all pages of the process but the
last one are in place. -/
def Settled (pid k : ℕ) (t : PageTable) : Prop :=
  ∀ p < t.length, Holds t p pid 1 → InPlace pid (k - 1) (swapPages 0 p t)

/-- The frames can be gone through once. -/
theorem settled_iff {pid k : ℕ} {t : PageTable} :
    Settled pid k t ↔ ∀ x ∈ t.zipIdx, x.1.page = (pid, 1, false) →
      InPlace pid (k - 1) (swapPages 0 x.2 t) := by
  refine ⟨fun h x hx hpage => ?_, fun h p hp hholds => ?_⟩
  · have hget : t[x.2]? = some x.1 := List.mem_zipIdx_iff_getElem?.mp hx
    refine h x.2 (List.getElem?_eq_some_iff.mp hget).1 ?_
    rw [Holds, hget, Option.map_some, hpage]
  · have hget : t[p]? = some t[p] := List.getElem?_eq_getElem hp
    rw [Holds, hget, Option.map_some, Option.some.injEq] at hholds
    exact h (t[p], p) (List.mem_zipIdx_iff_getElem?.mpr hget) hholds

instance (pid k : ℕ) (t : PageTable) : Decidable (Settled pid k t) :=
  decidable_of_iff _ settled_iff.symm

/-- A frame that is found holds the page, unless the frame is free. -/
theorem holds_of_findPage {p : ℕ} (hfind : (findPage pid o t).1 = some p)
    (hused : ∀ n ∈ t, n.pid = pid → n.free = false) : Holds t p pid o := by
  obtain ⟨⟨n, hn, hp, ho⟩, -⟩ := findPage_eq_some hfind
  have hfree := hused n (List.mem_iff_getElem?.mpr ⟨p, hn⟩) hp
  rw [Holds, hn, Option.map_some, SpaceNode.page, hp, ho, hfree]

/-- Frames of a process are in use. -/
theorem FreeOk.used (h : FreeOk t) (hpid : pid ≠ 0) (n : SpaceNode) (hn : n ∈ t)
    (hp : n.pid = pid) : n.free = false := by
  by_contra hf
  exact hpid (hp.symm.trans (h n hn (by simpa using hf)).1)

theorem FreeOk.findPage (h : FreeOk t) (hpid : pid ≠ 0) (hhas : HasPage t pid o) :
    ∃ p, (findPage pid o t).1 = some p ∧ Holds t p pid o := by
  cases hfind : (VM.findPage pid o t).1 with
  | none => exact absurd hhas (findPage_eq_none hfind).1
  | some p => exact ⟨p, rfl, holds_of_findPage hfind (h.used hpid)⟩

/-- A page is in one frame if the frames of its owner hold different pages. -/
theorem holds_unique_of_pages {a b : ℕ}
    (hnodup : ((t.map SpaceNode.page).filter fun x => x.1 == pid).Nodup) (ha : Holds t a pid o)
    (hb : Holds t b pid o) : a = b := by
  have hpair := List.pairwise_filter.mp hnodup
  have hlt {a b : ℕ} (ha : Holds t a pid o) (hb : Holds t b pid o) : ¬ a < b := by
    intro hab
    rw [Holds, ← List.getElem?_map] at ha hb
    obtain ⟨hla, hga⟩ := List.getElem?_eq_some_iff.mp ha
    obtain ⟨hlb, hgb⟩ := List.getElem?_eq_some_iff.mp hb
    refine List.pairwise_iff_getElem.mp hpair a b hla hlb hab ?_ ?_ (hga.trans hgb.symm)
    · rw [hga]
      exact beq_self_eq_true pid
    · rw [hgb]
      exact beq_self_eq_true pid
  have hab := hlt ha hb
  have hba := hlt hb ha
  omega

/-- The frames that belong to the process hold its pages `1, ..., k`, each of them once. -/
def Owns (pid k : ℕ) (t : PageTable) : Prop :=
  ((t.map SpaceNode.page).filter fun x => x.1 == pid).Perm
    ((List.range k).map fun i : ℕ => (pid, (i : ℤ) + 1, false))

instance (pid k : ℕ) (t : PageTable) : Decidable (Owns pid k t) :=
  inferInstanceAs (Decidable (List.Perm ..))

namespace Owns

variable {k : ℕ}

theorem of_perm (h : Owns pid k t) (hp : (t'.map SpaceNode.page).Perm (t.map SpaceNode.page)) :
    Owns pid k t' :=
  (hp.filter _).trans h

theorem exists_page (h : Owns pid k t) {n : SpaceNode} (hn : n ∈ t) (hp : n.pid = pid) :
    ∃ i < k, n.page = (pid, (i : ℤ) + 1, false) := by
  have hmem : n.page ∈ (t.map SpaceNode.page).filter fun x => x.1 == pid :=
    List.mem_filter.mpr ⟨List.mem_map_of_mem hn, beq_iff_eq.mpr hp⟩
  obtain ⟨i, hi, heq⟩ := List.mem_map.mp (h.mem_iff.mp hmem)
  exact ⟨i, List.mem_range.mp hi, heq.symm⟩

theorem free_eq_false (h : Owns pid k t) (n : SpaceNode) (hn : n ∈ t) (hp : n.pid = pid) :
    n.free = false := by
  obtain ⟨i, -, hpage⟩ := h.exists_page hn hp
  exact congrArg (fun x => x.2.2) hpage

theorem hasPage_iff (h : Owns pid k t) (o : ℤ) : HasPage t pid o ↔ 1 ≤ o ∧ o ≤ k := by
  constructor
  · rintro ⟨n, hn, hp, rfl⟩
    obtain ⟨i, hi, hpage⟩ := h.exists_page hn hp
    have : n.order = i + 1 := congrArg (fun x => x.2.1) hpage
    omega
  · rintro ⟨hl, hr⟩
    have hmem : (pid, o, false) ∈ (t.map SpaceNode.page).filter fun x => x.1 == pid := by
      refine h.mem_iff.mpr (List.mem_map.mpr ⟨o.toNat - 1, List.mem_range.mpr (by omega), ?_⟩)
      rw [show ((o.toNat - 1 : ℕ) : ℤ) + 1 = o by omega]
    obtain ⟨n, hn, hpage⟩ := List.mem_map.mp (List.mem_filter.mp hmem).1
    exact ⟨n, hn, congrArg (fun x => x.1) hpage, congrArg (fun x => x.2.1) hpage⟩

theorem findPage (h : Owns pid k t) (h₁ : 1 ≤ o) (hk : o ≤ k) :
    ∃ p, (findPage pid o t).1 = some p ∧ Holds t p pid o := by
  cases hfind : (VM.findPage pid o t).1 with
  | none => exact absurd ((h.hasPage_iff o).mpr ⟨h₁, hk⟩) (findPage_eq_none hfind).1
  | some p => exact ⟨p, rfl, holds_of_findPage hfind h.free_eq_false⟩

theorem findPage_none (h : Owns pid k t) (hk : k < o) : (VM.findPage pid o t).1 = none := by
  cases hfind : (VM.findPage pid o t).1 with
  | none => rfl
  | some p =>
    have := (h.hasPage_iff o).mp (holds_of_findPage hfind h.free_eq_false).hasPage
    omega

/-- Each page of the process is in one frame. -/
theorem holds_unique (h : Owns pid k t) {a b : ℕ} (ha : Holds t a pid o) (hb : Holds t b pid o) :
    a = b := by
  refine holds_unique_of_pages (h.nodup_iff.mpr (List.nodup_range.map fun i j hij => ?_)) ha hb
  have : (i : ℤ) + 1 = j + 1 := congrArg (fun x => x.2.1) hij
  omega

theorem le_length (h : Owns pid k t) : k ≤ t.length := by
  have hlen := h.length_eq
  rw [List.length_map, List.length_range] at hlen
  have hle := List.length_filter_le (fun x : ℕ × ℤ × Bool => x.1 == pid) (t.map SpaceNode.page)
  rw [List.length_map] at hle
  omega

end Owns

/-- A process whose pages are all in memory owns them. -/
theorem InMemory.owns {k : ℕ} (h : InMemory pid k t) : Owns pid k t := by
  have hused := h.freeOk.used h.pos
  have hkey (x : ℕ × ℤ × Bool) (hx : x ∈ (t.map SpaceNode.page).filter fun x => x.1 == pid) :
      pageKey x = some (x.1, x.2.1) := by
    obtain ⟨hmem, hp⟩ := List.mem_filter.mp hx
    obtain ⟨n, hn, rfl⟩ := List.mem_map.mp hmem
    have hfree := hused n hn (beq_iff_eq.mp hp)
    rw [pageKey, if_neg (by simp [SpaceNode.page, hfree])]
  have hnodup : ((t.map SpaceNode.page).filter fun x => x.1 == pid).Nodup := by
    have hsub := (List.filter_sublist (p := fun x : ℕ × ℤ × Bool => x.1 == pid)
      (l := t.map SpaceNode.page)).filterMap pageKey
    rw [← keys_eq, List.filterMap_congr hkey] at hsub
    exact (congrFun List.filterMap_eq_map _ ▸ hsub.nodup h.nodup).of_map
      (fun x : ℕ × ℤ × Bool => (x.1, x.2.1))
  refine (List.perm_ext_iff_of_nodup hnodup ?_).mpr fun x => ?_
  · refine List.nodup_range.map fun i j hij => ?_
    have : (i : ℤ) + 1 = j + 1 := congrArg (fun x => x.2.1) hij
    omega
  · rw [List.mem_filter, List.mem_map, List.mem_map]
    constructor
    · rintro ⟨⟨n, hn, rfl⟩, hp⟩
      have hp : n.pid = pid := beq_iff_eq.mp hp
      have ho := (h.pages n.order).mp ⟨n, hn, hp, rfl⟩
      refine ⟨n.order.toNat - 1, List.mem_range.mpr (by omega), ?_⟩
      rw [SpaceNode.page, hp, hused n hn hp,
        show ((n.order.toNat - 1 : ℕ) : ℤ) + 1 = n.order by omega]
    · rintro ⟨i, hi, rfl⟩
      have hi := List.mem_range.mp hi
      obtain ⟨n, hn, hp, ho⟩ := (h.pages (i + 1)).mpr ⟨by omega, by omega⟩
      exact ⟨⟨n, hn, by rw [SpaceNode.page, hp, ho, hused n hn hp]⟩, beq_self_eq_true pid⟩

/-- Two pages of a process in one frame are one page. -/
theorem Holds.order_eq {i : ℕ} {o' : ℤ} (h : Holds t i pid o) (h' : Holds t i pid o') : o = o' := by
  rw [Holds, h, Option.some.injEq, Prod.mk.injEq, Prod.mk.injEq] at h'
  exact h'.2.1

/-- A page that is moved to its place leaves those before it in place. -/
theorem InPlace.swapPages {m p : ℕ} (h : InPlace pid m t) (hm : m < t.length)
    (hp : Holds t p pid (m + 1)) : InPlace pid (m + 1) (swapPages m p t) := by
  intro i hi
  rcases Nat.lt_or_eq_of_le (Nat.lt_succ_iff.mp hi) with hi | rfl
  · refine (holds_swapPages_of_ne hm hp.lt_length (by omega) ?_).mpr (h i hi)
    rintro rfl
    have := (h i hi).order_eq hp
    omega
  · exact holds_swapPages_left hm hp

/-- The loop of `loadProcessPages`, with the first `m` pages in place and the page `m + 1` in the
frame `p2`: only the last page of the process is moved. -/
theorem Owns.loadLoop {pageSize k : ℕ} (hsize : 0 < pageSize) {fuel : ℕ} :
    ∀ {m p1 : ℕ} {p2 : Option ℕ} {t : PageTable}, Owns pid k t → Contiguous pageSize t →
      1 ≤ m → m ≤ k → k ≤ m + fuel → InPlace pid (k - 1) t → InPlace pid m t →
      (m < k → p1 = m - 1) → (m < k → ∃ p, p2 = some p ∧ Holds t p pid (m + 1)) →
      (m = k → p2 = none) →
      ∃ t', loadLoop pageSize pid fuel p1 p2 (m + 2) t = some t' ∧ InPlace pid k t' := by
  have hdone {fuel p1 m : ℕ} {t : PageTable} (hin : InPlace pid m t) :
      ∃ t', VM.loadLoop pageSize pid fuel p1 none (m + 2) t = some t' ∧ InPlace pid m t' :=
    ⟨t, by cases fuel <;> rfl, hin⟩
  induction fuel with
  | zero =>
    intro m p1 p2 t howns hcont hm hmk hfuel hset hin hp1 hnext hend
    obtain rfl : m = k := by omega
    rw [hend rfl]
    exact hdone hin
  | succ fuel ih =>
    intro m p1 p2 t howns hcont hm hmk hfuel hset hin hp1 hnext hend
    rcases Nat.lt_or_eq_of_le hmk with hlt | rfl
    · obtain ⟨p, rfl, hhold⟩ := hnext hlt
      obtain rfl := hp1 hlt
      have hne : m - 1 ≠ p := by
        rintro rfl
        have := (hin (m - 1) (by omega)).order_eq hhold
        omega
      have hlen : m < t.length := hlt.trans_le howns.le_length
      have hmake := hcont.makeContiguous_eq hsize hne (by omega)
      rw [Nat.sub_add_cancel hm] at hmake
      rw [VM.loadLoop, hmake, Option.bind_some]
      have howns₁ : Owns pid k (VM.swapPages m p t) := howns.of_perm (map_page_swapPages_perm ..)
      have hin₁ := hin.swapPages hlen hhold
      -- the page `m + 1` is in place already, unless it is the last one
      have hplace (hk : m + 1 < k) : p = m := howns.holds_unique hhold (hset m (by omega))
      have hset₁ : InPlace pid (k - 1) (VM.swapPages m p t) := by
        by_cases hk : m + 1 < k
        · obtain rfl := hplace hk
          rwa [VM.swapPages, if_pos rfl]
        · exact fun i hi => hin₁ i (by omega)
      have hpage := map_page_findPage pid (m + 2) (VM.swapPages m p t)
      have hcast : (m : ℤ) + 2 + 1 = (m + 1 : ℕ) + 2 := by omega
      rw [hcast]
      refine ih (m := m + 1) (howns₁.of_perm (.of_eq hpage))
        ((hcont.of_place (map_place_swapPages m p)).of_place (map_place_findPage ..)) (by omega)
        (by omega) (by omega) ((inPlace_congr hpage _).mpr hset₁)
        ((inPlace_congr hpage _).mpr hin₁) hplace (fun hk => ?_) (fun hk => ?_)
      · obtain ⟨q, hq, hholds⟩ := howns₁.findPage (o := m + 2) (by omega) (by omega)
        refine ⟨q, hq, (holds_congr hpage q).mpr ?_⟩
        rwa [Nat.cast_add, Nat.cast_one, add_assoc, one_add_one_eq_two]
      · exact howns₁.findPage_none (by omega)
    · rw [hend rfl]
      exact hdone hin

/-- **Loading pages.** When the pages of the process are settled, `loadProcessPages` brings all of
them to their places. -/
theorem Owns.load {pageSize k : ℕ} (howns : Owns pid k t) (hcont : Contiguous pageSize t)
    (hsize : 0 < pageSize) (hk : 1 ≤ k) (hset : Settled pid k t) :
    ∃ t', loadProcessPages pageSize pid t = some t' ∧ InPlace pid k t' := by
  obtain ⟨p, hp, hhold⟩ := howns.findPage (o := 1) le_rfl (by omega)
  have hpage := map_page_findPage pid 1 t
  have hplace := map_place_findPage pid 1 t
  have hlen := Nat.zero_lt_of_lt hhold.lt_length
  rw [loadProcessPages, ← Prod.mk.eta (p := VM.findPage pid 1 t), hp]
  dsimp only
  generalize (VM.findPage pid 1 t).2 = t₁ at hpage hplace ⊢
  have hhold₁ := (holds_congr hpage p).mpr hhold
  have hswap := map_page_swapPages_congr hpage hlen hhold.lt_length
  have howns₁ : Owns pid k (swapPages 0 p t₁) :=
    (howns.of_perm (.of_eq hpage)).of_perm (map_page_swapPages_perm ..)
  have hset₁ : InPlace pid (k - 1) (swapPages 0 p t₁) :=
    (inPlace_congr hswap _).mpr (hset p hhold.lt_length hhold)
  have hin₁ : InPlace pid 1 (swapPages 0 p t₁) := by
    intro i hi
    obtain rfl := Nat.lt_one_iff.mp hi
    exact holds_swapPages_left (Nat.zero_lt_of_lt hhold₁.lt_length) hhold₁
  have hpage₂ := map_page_findPage pid 2 (swapPages 0 p t₁)
  have hcont₁ := hcont.of_place ((map_place_swapPages 0 p).trans hplace)
  refine Owns.loadLoop hsize (howns₁.of_perm (.of_eq hpage₂))
    (hcont₁.of_place (map_place_findPage ..)) le_rfl hk ?_ ((inPlace_congr hpage₂ _).mpr hset₁)
    ((inPlace_congr hpage₂ _).mpr hin₁) (fun _ => rfl) (fun hlt => ?_) (fun hk => ?_)
  · exact howns₁.le_length.trans (Nat.le_add_left ..)
  · obtain ⟨q, hq, hholds⟩ := howns₁.findPage (o := 2) (by omega) (by omega)
    exact ⟨q, hq, (holds_congr hpage₂ q).mpr hholds⟩
  · exact howns₁.findPage_none (by omega)

theorem InMemory.inPlace_load {pageSize k : ℕ} (hmem : InMemory pid k t)
    (hcont : Contiguous pageSize t) (hsize : 0 < pageSize) (hk : 1 ≤ k) (hset : Settled pid k t)
    (hload : loadProcessPages pageSize pid t = some t') : InPlace pid k t' := by
  obtain ⟨t₁, hload₁, hin⟩ := hmem.owns.load hcont hsize hk hset
  rw [hload, Option.some.injEq] at hload₁
  exact hload₁ ▸ hin

/-! ### Growing a process -/

theorem holds_modify_of_ne {i j : ℕ} (hij : i ≠ j) (f : SpaceNode → SpaceNode) :
    Holds (t.modify j f) i pid o ↔ Holds t i pid o := by
  simp [Holds, Ne.symm hij]

theorem holds_takePage_of_ne {s : PageState} {i j : ℕ} (hj : j < s.frames.length) (hi : i ≠ 0)
    (hij : i ≠ j) : Holds (takePage pid j s).frames i pid o ↔ Holds s.frames i pid o := by
  have hlen : (s.frames.modify j (SpaceNode.take pid)).length = s.frames.length :=
    List.length_modify ..
  rw [takePage, holds_swapPages_of_ne (by omega) (by omega) hi hij, holds_modify_of_ne hij]

/-- `getFreePage` moves no page of the process except the one in the first frame. -/
theorem KeyInv.holds_getFreePage {s : PageRun} (h : KeyInv s) {s₁ : PageState}
    (hget : getFreePage pid s.state = some (true, s₁)) {i : ℕ} (hi : i ≠ 0)
    (hhold : Holds s.state.frames i pid o) : Holds s₁.frames i pid o := by
  rcases getFreePage_eq_some hget with ⟨-, j, n, hn, hfree, rfl⟩ |
    ⟨-, j, t, n, hv, hn, hclocks, -, ⟨hf, -⟩ | ⟨-, k, slot, hslot, hfree, rfl⟩⟩
  · refine (holds_takePage_of_ne (List.getElem?_eq_some_iff.mp hn).1 hi ?_).mpr hhold
    rintro rfl
    rw [Holds, hn, Option.map_some, SpaceNode.page, hfree] at hhold
    simp at hhold
  · cases hf
  · have hvictim := (getVictimPage_spec hv
      (h.clocks ⟨slot, List.mem_iff_getElem?.mpr ⟨k, hslot⟩, hfree⟩)).1 n hn
    have hhold' : Holds t i pid o := (holds_congr (hclocks.map_eq fun _ => rfl) i).mpr hhold
    have hij : i ≠ j := by
      rintro rfl
      rw [Holds, hn, Option.map_some, Option.some.injEq, SpaceNode.page, Prod.mk.injEq] at hhold'
      exact hvictim hhold'.1
    refine (holds_takePage_of_ne ?_ hi hij).mpr ((holds_modify_of_ne hij _).mpr hhold')
    rw [evicted, List.length_modify]
    exact (List.getElem?_eq_some_iff.mp hn).1

theorem Holds.mem_keys {i : ℕ} (h : Holds t i pid o) : (pid, o) ∈ keys t := by
  obtain ⟨n, hn, hpage⟩ := Option.map_eq_some_iff.mp h
  refine List.mem_filterMap.mpr ⟨n, List.mem_iff_getElem?.mpr ⟨i, hn⟩, ?_⟩
  rw [SpaceNode.page, Prod.mk.injEq, Prod.mk.injEq] at hpage
  rw [SpaceNode.key, hpage.1, hpage.2.1, hpage.2.2]
  rfl

/-- A process whose pages are in place has none in the swap file. -/
theorem KeyInv.not_mem_swap_of_inPlace {s : PageRun} (h : KeyInv s) {k : ℕ}
    (horders : ∀ o : ℤ, (pid, o) ∈ s.state.keys ↔ 1 ≤ o ∧ o ≤ k)
    (hin : InPlace pid k s.state.frames) (o : ℤ) : (pid, o) ∉ keys s.state.swap := by
  intro hm
  have ho := (horders o).mp (List.mem_append_right _ hm)
  have hhold := hin (o.toNat - 1) (by omega)
  rw [show ((o.toNat - 1 : ℕ) : ℤ) + 1 = o by omega] at hhold
  exact List.disjoint_of_nodup_append h.nodup hhold.mem_keys hm

/-- Pages in place are settled. -/
theorem InPlace.settled {k : ℕ} (h : InPlace pid k t) (hnodup : (keys t).Nodup) (hk : 1 ≤ k) :
    Settled pid k t := by
  intro p _ hp
  obtain rfl := holds_unique hnodup hp (h 0 (by omega))
  rw [VM.swapPages, if_pos rfl]
  exact fun i hi => h i (by omega)

/-- The first page has been moved away from the first frame; the others are in place. -/
theorem settled_of_others {k : ℕ} (hlen : 0 < t.length)
    (hothers : ∀ i < k, i ≠ 0 → Holds t i pid (i + 1)) : Settled pid (k + 1) t := by
  intro p hp hhold i hi
  rw [Nat.add_sub_cancel] at hi
  rcases Nat.eq_zero_or_pos i with rfl | hpos
  · exact holds_swapPages_left hlen hhold
  · have hi' := hothers i hi (by omega)
    refine (holds_swapPages_of_ne hlen hp (by omega) ?_).mpr hi'
    rintro rfl
    have := hhold.order_eq hi'
    omega

/-- **Growing.** A process all of whose pages are in place has all of them in place after it has
been given another one. -/
theorem KeyInv.inPlace_reserve {s : PageRun} (h : KeyInv s) {k : ℕ} {lastFree : Bool}
    {st : PageState} (hlive : pid ∈ s.live) (hk : 1 ≤ k)
    (horders : ∀ o : ℤ, (pid, o) ∈ s.state.keys ↔ 1 ≤ o ∧ o ≤ k)
    (hcont : Contiguous s.state.pageSize s.state.frames) (hsize : 0 < s.state.pageSize)
    (hin : InPlace pid k s.state.frames)
    (hres : reserveAnotherPage pid lastFree s.state = some (true, st)) :
    InPlace pid (k + 1) st.frames := by
  have hswap := h.not_mem_swap_of_inPlace horders hin
  rcases h.reserve_eq_some hlive (by omega) horders (fun _ => hswap) hres with ⟨hf, -⟩ |
    ⟨-, s₁, t₃, hget, hgrown, hload, -⟩
  · cases hf
  have hcont₃ : Contiguous s.state.pageSize t₃ :=
    hcont.of_place ((map_place_loadProcessPages hload).symm.trans
      (map_place_reserveAnotherPage hres))
  have hmem₃ : InMemory pid (k + 1 : ℕ) t₃ := by
    have := hgrown.inMemory
    rwa [Nat.cast_add, Nat.cast_one]
  obtain ⟨p, -, hp⟩ := hmem₃.owns.findPage (o := 1) le_rfl (by omega)
  refine hmem₃.inPlace_load hcont₃ hsize (by omega) ?_ hload
  refine settled_of_others (Nat.zero_lt_of_lt hp.lt_length) fun i hi hne => ?_
  rw [Holds, hgrown.others i hne]
  exact h.holds_getFreePage hget hne (hin i hi)

end OSDesign.VM
