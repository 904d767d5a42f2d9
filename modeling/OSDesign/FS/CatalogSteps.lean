import Mathlib.Logic.Relation
import OSDesign.FS.Catalog
import OSDesign.Lib.ListUpdate
import OSDesign.Lib.Transition

/-!
# How a catalog grows

Nothing is ever removed from the file system. A catalog changes in two ways only: a directory
without a block gets one, or an inode that was not in use is entered in the first free entry of a
directory. Under these steps the reserved inodes stay a tree below the root in which the used
entries of a directory come first, and whatever a catalog says stays true in the later ones.

The first name that matches in a directory is the one that counts. As entries are added behind the
ones in use, a name that leads to an inode leads there for ever, and two sequences of names other
than `.` and `..` never lead to the same inode.

## Main definitions

* `Catalog.Step`, `Catalog.Tree`, `Catalog.Extends`.
* `Catalog.walk`: the inode that a sequence of names leads to.

## Main results

* `Catalog.Tree.step`, `Catalog.Tree.extends_of_step`: what the steps preserve.
* `Catalog.Tree.child_of_extends`, `Catalog.Tree.walk_of_extends`: names lead where they led.
* `Catalog.Tree.walk_inj`: the sequence of names that leads to an inode is unique.
-/

namespace OSDesign.FS

open Transition

namespace Catalog

variable {N : Set ℕ} {c c' c'' : Catalog} {b i j p q t x y : ℕ} {name : List UInt8}

/-! ### Steps -/

/-- A change of the catalog. -/
inductive Step (c : Catalog) : Catalog → Prop
  /-- A directory without a block gets one. -/
  | grow {t p k b : ℕ} (ht : t ∈ c.reserved) (hb : b ∉ c.marked) (hnone : c.block t = none)
    (hp : c.Names p k t) : Step c (c.grow t p b)
  /-- A new inode is entered behind the entries in use. -/
  | enter {t b j x : ℕ} {name : List UInt8} (ht : t ∈ c.reserved) (hx : x ∉ c.reserved)
    (hb : c.block t = some b) (hfree : c.slot t j = none) (hfirst : ∀ k < j, c.slot t k ≠ none) :
    Step c ((c.reserve x).link b j x name)

/-- The inode is found from the root along the entries other than `.` and `..`. -/
inductive Reach (c : Catalog) : ℕ → Prop
  | root : Reach c 0
  | entry {p j x : ℕ} (hp : Reach c p) (h : c.Names p j x) : Reach c x

/-- A well-formed catalog in which every reserved inode is found from the root, no entry leads back
to the root, and the entries in use come first. -/
structure Tree (c : Catalog) : Prop where
  wf : c.Wf ∅
  root_unnamed : ∀ p j, ¬c.Names p j 0
  reach : ∀ x ∈ c.reserved, c.Reach x
  packed : ∀ p ∈ c.reserved, ∀ j k, j < k → c.slot p k ≠ none → c.slot p j ≠ none

/-- What the catalog says still holds in `c'`. -/
structure Extends (c c' : Catalog) : Prop where
  reserved : c.reserved ⊆ c'.reserved
  block : ∀ p ∈ c.reserved, ∀ b, c.block p = some b → c'.block p = some b
  slot : ∀ p ∈ c.reserved, ∀ j e, c.slot p j = some e → c'.slot p j = some e

theorem Extends.refl (c : Catalog) : Extends c c :=
  ⟨Set.Subset.rfl, fun _ _ _ h => h, fun _ _ _ _ h => h⟩

theorem Extends.trans (h : Extends c c') (h' : Extends c' c'') : Extends c c'' where
  reserved := h.reserved.trans h'.reserved
  block p hp b hb := h'.block p (h.reserved hp) b (h.block p hp b hb)
  slot p hp j e he := h'.slot p (h.reserved hp) j e (h.slot p hp j e he)

theorem Extends.names (h : Extends c c') (hn : c.Names p j x) : c'.Names p j x := by
  obtain ⟨hp, hord, name, hslot⟩ := hn
  exact ⟨h.reserved hp, hord, name, h.slot p hp j _ hslot⟩

theorem Extends.reach (h : Extends c c') (hx : c.Reach x) : c'.Reach x := by
  induction hx with
  | root => exact .root
  | entry _ hn ih => exact ih.entry (h.names hn)

/-! ### A block for a directory -/

theorem Wf.extends_grow (h : c.Wf N) (hb : b ∉ c.marked) (hnone : c.block t = none) :
    Extends c (c.grow t p b) where
  reserved := Set.Subset.rfl
  block q hq b' hb' := by
    have hqt : q ≠ t := fun he => by
      rw [he, hnone] at hb'
      cases hb'
    exact (Function.update_of_ne hqt ..).trans hb'
  slot q hq j e he := by
    have hqt : q ≠ t := fun hqt => by
      rw [hqt, slot, hnone, Option.bind_none] at he
      cases he
    rw [h.slot_grow hb hq hqt, he]

theorem Tree.grow {k : ℕ} (h : c.Tree) (ht : t ∈ c.reserved) (hb : b ∉ c.marked)
    (hnone : c.block t = none) (hp : c.Names p k t) : (c.grow t p b).Tree where
  wf := h.wf.grow ht hb hnone hp
  root_unnamed q j hn := h.root_unnamed q j ((h.wf.names_grow hb hnone).mp hn)
  reach x hx := (h.wf.extends_grow hb hnone).reach (h.reach x hx)
  packed q hq j k hjk hk := by
    by_cases hqt : q = t
    · subst hqt
      rw [slot_grow_self] at hk ⊢
      -- only the entries 0 and 1 are used
      rcases k with _ | _ | k
      · exact absurd hjk (Nat.not_lt_zero j)
      · obtain rfl := Nat.lt_one_iff.mp hjk
        exact Option.some_ne_none _
      · exact absurd rfl hk
    · rw [h.wf.slot_grow hb hq hqt] at hk ⊢
      exact h.packed q hq j k hjk hk

/-! ### A new entry -/

/-- Entering a new inode changes one entry, a free one. -/
theorem Wf.slot_enter (h : c.Wf N) (ht : t ∈ c.reserved) (hx : x ∉ c.reserved)
    (hb : c.block t = some b) {k : ℕ} (hq : q ∈ c.reserved) (hne : (q, k) ≠ (t, j)) :
    ((c.reserve x).link b j x name).slot q k = c.slot q k := by
  have hqx : q ≠ x := fun he => hx (he ▸ hq)
  rw [slot_link_of_ne, slot_reserve_of_ne c hqx]
  rintro hqb rfl
  have hqb' : c.block q = some b := (Function.update_of_ne hqx ..).symm.trans hqb
  exact hne (by rw [h.block_inj q hq t ht b hqb' hb])

theorem slot_enter_self (ht : t ≠ x) (hb : c.block t = some b) :
    ((c.reserve x).link b j x name).slot t j = some (x, name) :=
  slot_link_self ((Function.update_of_ne ht ..).trans hb) j x name

theorem Wf.extends_enter (h : c.Wf N) (ht : t ∈ c.reserved) (hx : x ∉ c.reserved)
    (hb : c.block t = some b) (hfree : c.slot t j = none) :
    Extends c ((c.reserve x).link b j x name) where
  reserved := Set.subset_insert x c.reserved
  block q hq b' hb' := (Function.update_of_ne (fun he : q = x => hx (he ▸ hq)) ..).trans hb'
  slot q hq k e he := by
    refine (h.slot_enter ht hx hb hq fun hqk => ?_).trans he
    rw [Prod.mk.injEq] at hqk
    rw [hqk.1, hqk.2, hfree] at he
    cases he

theorem Tree.enter (h : c.Tree) (ht : t ∈ c.reserved) (hx : x ∉ c.reserved)
    (hb : c.block t = some b) (hfree : c.slot t j = none) (hfirst : ∀ k < j, c.slot t k ≠ none) :
    ((c.reserve x).link b j x name).Tree := by
  have htx : t ≠ x := fun he => hx (he ▸ ht)
  have hb' : (c.reserve x).block t = some b := (Function.update_of_ne htx ..).trans hb
  have ht' : t ∈ (c.reserve x).reserved := Set.mem_insert_of_mem x ht
  have hfree' : (c.reserve x).slot t j = none := (slot_reserve_of_ne c htx j).trans hfree
  have hext : Extends c ((c.reserve x).link b j x name) := h.wf.extends_enter ht hx hb hfree
  have hord : Ordinary t j := h.wf.ordinary_of_free ht (hb ▸ Option.some_ne_none b) hfree
  have hnames : ∀ {q k y}, ((c.reserve x).link b j x name).Names q k y ↔
      c.Names q k y ∨ (q, k) = (t, j) ∧ y = x := by
    intro q k y
    rw [(h.wf.reserve hx).names_link ht' hb' hfree' hord, names_reserve hx]
  constructor
  · exact (h.wf.reserve hx).link ht' hb' hfree' (Set.mem_insert x c.reserved) name
  · intro q k hn
    rcases hnames.mp hn with hn | ⟨-, h0⟩
    · exact h.root_unnamed q k hn
    · exact hx (h0 ▸ h.wf.root_reserved)
  · rintro y (rfl | hy)
    · exact (hext.reach (h.reach t ht)).entry (hnames.mpr (Or.inr ⟨rfl, rfl⟩))
    · exact hext.reach (h.reach y hy)
  · rintro q (rfl | hq) k l hkl hl
    · have hnone : ((c.reserve q).link b j q name).slot q l = none := by
        rw [slot_link_of_ne, slot_reserve_self]
        intro hblock
        cases (Function.update_self ..).symm.trans hblock
      exact absurd hnone hl
    · by_cases hqk : (q, k) = (t, j)
      · obtain ⟨rfl, rfl⟩ := Prod.mk.inj hqk
        rw [slot_enter_self htx hb]
        exact Option.some_ne_none _
      · rw [h.wf.slot_enter ht hx hb hq hqk]
        by_cases hql : (q, l) = (t, j)
        · obtain ⟨rfl, rfl⟩ := Prod.mk.inj hql
          exact hfirst k hkl
        · rw [h.wf.slot_enter ht hx hb hq hql] at hl
          exact h.packed q hq k l hkl hl

/-! ### Steps and runs of steps -/

theorem Tree.step (h : c.Tree) (hs : Step c c') : c'.Tree := by
  cases hs with
  | grow ht hb hnone hp => exact h.grow ht hb hnone hp
  | enter ht hx hb hfree hfirst => exact h.enter ht hx hb hfree hfirst

theorem Tree.extends_of_step (h : c.Tree) (hs : Step c c') : Extends c c' := by
  cases hs with
  | grow _ hb hnone _ => exact h.wf.extends_grow hb hnone
  | enter ht hx hb hfree _ => exact h.wf.extends_enter ht hx hb hfree

theorem Tree.steps (h : c.Tree) (hs : Relation.ReflTransGen Step c c') :
    c'.Tree ∧ Extends c c' := by
  induction hs with
  | refl => exact ⟨h, .refl c⟩
  | tail _ hs ih => exact ⟨ih.1.step hs, ih.2.trans (ih.1.extends_of_step hs)⟩

/-! ### Names -/

/-- The first entry with the name. -/
theorem child_eq_some :
    c.child p name = some x ↔ ∃ j < dirEntries, c.slot p j = some (x, name) ∧
      ∀ k < j, ∀ y, c.slot p k ≠ some (y, name) := by
  have hsome (j y : ℕ) : ((c.slot p j).bind fun e => if e.2 = name then some e.1 else none) =
    some y ↔
      c.slot p j = some (y, name) := by
    rcases c.slot p j with _ | ⟨z, nm⟩
    · simp
    · simp [and_comm]
  have hnone (j : ℕ) : ((c.slot p j).bind fun e => if e.2 = name then some e.1 else none) = none ↔
      ∀ y, c.slot p j ≠ some (y, name) := by
    rw [Option.eq_none_iff_forall_ne_some]
    exact forall_congr' fun y => not_congr (hsome j y)
  simp only [child, ListUpdate.findSome?_range_eq_some, hsome, hnone]

/-- A name that leads to an inode leads there in every later catalog. -/
theorem Tree.child_of_extends (h : c.Tree) (hext : Extends c c') (hp : p ∈ c.reserved)
    (hx : c.child p name = some x) : c'.child p name = some x := by
  obtain ⟨j, hj, hslot, hbefore⟩ := child_eq_some.mp hx
  refine child_eq_some.mpr ⟨j, hj, hext.slot p hp j _ hslot, fun k hk y hy => ?_⟩
  -- the entries in front of it were in use already, under other names
  obtain ⟨e, he⟩ := Option.ne_none_iff_exists'.mp
    (h.packed p hp k j hk (hslot ▸ Option.some_ne_none _))
  rw [hext.slot p hp k e he] at hy
  exact hbefore k hk y (he.trans hy)

theorem Wf.reserved_child (h : c.Wf N) (hp : p ∈ c.reserved) (hx : c.child p name = some x) :
    x ∈ c.reserved := by
  obtain ⟨j, -, hslot, -⟩ := child_eq_some.mp hx
  exact h.slot_reserved p hp j x name hslot

/-- A name other than `.` and `..`. -/
def Plain (name : List UInt8) : Prop := name ≠ [dot] ∧ name ≠ [dot, dot]

/-- A plain name is that of an entry which names the inode. -/
theorem Wf.names_of_child (h : c.Wf N) (hp : p ∈ c.reserved) (hname : Plain name)
    (hx : c.child p name = some x) : ∃ j, c.Names p j x ∧ c.slot p j = some (x, name) := by
  obtain ⟨j, -, hslot, -⟩ := child_eq_some.mp hx
  refine ⟨j, ⟨hp, ?_, name, hslot⟩, hslot⟩
  have hblock : c.block p ≠ none := fun hnone => by
    rw [slot, hnone, Option.bind_none] at hslot
    cases hslot
  rcases h.ordinary_or hp hblock j with hord | hself | ⟨q, k, hparent, -⟩
  · exact hord
  · rw [hself, Option.some.injEq, Prod.mk.injEq] at hslot
    exact absurd hslot.2.symm hname.1
  · rw [hparent, Option.some.injEq, Prod.mk.injEq] at hslot
    exact absurd hslot.2.symm hname.2

/-! ### Sequences of names -/

/-- The inode that the names lead to from `i`. -/
def walk (c : Catalog) : ℕ → List (List UInt8) → Option ℕ := run c.child

theorem Wf.reserved_walk (h : c.Wf N) {names : List (List UInt8)} (hi : i ∈ c.reserved)
    (hx : c.walk i names = some x) : x ∈ c.reserved := by
  induction names generalizing i with
  | nil => exact Option.some.inj hx ▸ hi
  | cons name names ih =>
    obtain ⟨y, hy, hrest⟩ := Option.bind_eq_some_iff.mp hx
    exact ih (h.reserved_child hi hy) hrest

/-- A sequence of names leads where it led in every later catalog. -/
theorem Tree.walk_of_extends (h : c.Tree) (hext : Extends c c') {names : List (List UInt8)}
    (hi : i ∈ c.reserved) (hx : c.walk i names = some x) : c'.walk i names = some x := by
  induction names generalizing i with
  | nil => exact hx
  | cons name names ih =>
    obtain ⟨y, hy, hrest⟩ := Option.bind_eq_some_iff.mp hx
    rw [walk, run_cons, h.child_of_extends hext hi hy, Option.bind_some]
    exact ih (h.wf.reserved_child hi hy) hrest

/-- **One path for an inode.** Two sequences of plain names that lead from the root to the same
inode are equal. -/
theorem Tree.walk_inj (h : c.Tree) {names names' : List (List UInt8)}
    (hplain : ∀ nm ∈ names, Plain nm) (hplain' : ∀ nm ∈ names', Plain nm)
    (hx : c.walk 0 names = some x) (hx' : c.walk 0 names' = some x) : names = names' := by
  -- The last step of a path is an entry that names the inode reached; the root has none.
  have hlast {ns : List (List UInt8)} {nm : List UInt8} {y : ℕ} (hnm : Plain nm)
      (hy : c.walk 0 (ns ++ [nm]) = some y) :
      ∃ p j, c.walk 0 ns = some p ∧ c.Names p j y ∧ c.slot p j = some (y, nm) := by
    rw [walk, run_concat] at hy
    obtain ⟨p, hp, hchild⟩ := Option.bind_eq_some_iff.mp hy
    obtain ⟨j, hnames, hslot⟩ :=
      h.wf.names_of_child (h.wf.reserved_walk h.wf.root_reserved hp) hnm hchild
    exact ⟨p, j, hp, hnames, hslot⟩
  induction names using List.reverseRecOn generalizing names' x with
  | nil =>
    obtain rfl := Option.some.inj hx
    rcases List.eq_nil_or_concat' names' with rfl | ⟨ns', nm', rfl⟩
    · rfl
    · obtain ⟨p, j, -, hnames, -⟩ :=
        hlast (hplain' nm' (List.mem_append_right _ (List.mem_singleton_self _))) hx'
      exact absurd hnames (h.root_unnamed p j)
  | append_singleton ns nm ih =>
    obtain ⟨p, j, hp, hnames, hslot⟩ :=
      hlast (hplain nm (List.mem_append_right _ (List.mem_singleton_self _))) hx
    have hx0 : x ≠ 0 := fun h0 => h.root_unnamed p j (h0 ▸ hnames)
    rcases List.eq_nil_or_concat' names' with rfl | ⟨ns', nm', rfl⟩
    · exact absurd (Option.some.inj hx').symm hx0
    · obtain ⟨q, k, hq, hnames', hslot'⟩ :=
        hlast (hplain' nm' (List.mem_append_right _ (List.mem_singleton_self _))) hx'
      have hxr := h.wf.reserved_walk h.wf.root_reserved hx
      obtain ⟨e, -, huniq⟩ := h.wf.named x hxr hx0 (Set.notMem_empty x)
      obtain ⟨rfl, rfl⟩ := Prod.mk.inj ((huniq (p, j) hnames).trans (huniq (q, k) hnames').symm)
      obtain ⟨-, rfl⟩ := Prod.mk.inj (Option.some.inj (hslot.symm.trans hslot'))
      rw [ih (fun n hn => hplain n (List.mem_append_left _ hn))
        (fun n hn => hplain' n (List.mem_append_left _ hn)) hp hq]

end Catalog

end OSDesign.FS
