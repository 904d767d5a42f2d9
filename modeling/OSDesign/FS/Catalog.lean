import Mathlib.Data.Finset.Card
import Mathlib.Data.Set.Insert
import OSDesign.FS.Disk

/-!
# The catalog of a file system

What the maps, the inodes and the directory blocks of a disk say together, without bytes: which
inodes are reserved, which data blocks are marked, which block an inode has and what the entries of
a block are. An inode has at most one block.

A catalog is well formed when blocks are not shared, every entry leads to a reserved inode, and the
directories form a tree: every inode but the root is named by one entry, the entry `.` leads back to
the directory and the entry `..` to the directory that names it. `Wf N` allows the inodes of `N` to
be reserved without a name. Creating a file reserves an inode (`reserve`), gives its directory a
block if it has none (`grow`) and enters the inode (`link`).

## Main definitions

* `Catalog`, `Catalog.Names`, `Catalog.child`, `Catalog.Wf`.
* `Catalog.reserve`, `Catalog.grow`, `Catalog.link`.

## Main results

* `Catalog.Wf.reserve`, `Catalog.Wf.grow`, `Catalog.Wf.link`: the three steps keep the catalog well
  formed.
* `Catalog.Wf.child_link`: a new entry is found under its name, and the others as before.
* `Catalog.Wf.exists_unmarked`: there are at most as many marked blocks as inodes.
-/

namespace OSDesign.FS

/-- The contents of a file system. Inode 0 is the root. -/
structure Catalog where
  /-- The inodes in use. -/
  reserved : Set ℕ
  /-- The data blocks in use. -/
  marked : Set ℕ
  /-- The block of an inode. -/
  block : ℕ → Option ℕ
  /-- The entries of a block: an inode and its name. -/
  entry : ℕ → ℕ → Option (ℕ × List UInt8)

namespace Catalog

variable {N : Set ℕ} {c : Catalog} {b i j p t x : ℕ} {name : List UInt8}

/-- The entry `j` of the directory `p`. -/
def slot (c : Catalog) (p j : ℕ) : Option (ℕ × List UInt8) := (c.block p).bind fun b => c.entry b j

/-- The entry `j` of the directory `p` is not one of `.` and `..`. The root has no entry `..`. -/
def Ordinary (p j : ℕ) : Prop := 2 ≤ j ∨ (j = 1 ∧ p = 0)

/-- The inode `x` is entered in the directory `p`. -/
def Names (c : Catalog) (p j x : ℕ) : Prop :=
  p ∈ c.reserved ∧ Ordinary p j ∧ ∃ name, c.slot p j = some (x, name)

/-- The inode that the name leads to in the directory `p`: that of the first entry with the name. -/
def child (c : Catalog) (p : ℕ) (name : List UInt8) : Option ℕ :=
  (List.range dirEntries).findSome? fun j =>
    (c.slot p j).bind fun e => if e.2 = name then some e.1 else none

/-- A catalog in which the reserved inodes form a tree, apart from the inodes of `N`, which have no
name. -/
structure Wf (N : Set ℕ) (c : Catalog) : Prop where
  root_reserved : 0 ∈ c.reserved
  root_block : c.block 0 ≠ none
  block_marked : ∀ i ∈ c.reserved, ∀ b, c.block i = some b → b ∈ c.marked
  block_inj : ∀ i ∈ c.reserved, ∀ i' ∈ c.reserved, ∀ b,
    c.block i = some b → c.block i' = some b → i = i'
  marked_block : ∀ b ∈ c.marked, ∃ i ∈ c.reserved, c.block i = some b
  slot_reserved : ∀ p ∈ c.reserved, ∀ j x name, c.slot p j = some (x, name) → x ∈ c.reserved
  self : ∀ p ∈ c.reserved, c.block p ≠ none → c.slot p 0 = some (p, [dot])
  parent : ∀ p ∈ c.reserved, c.block p ≠ none → p ≠ 0 →
    ∃ q j, c.slot p 1 = some (q, [dot, dot]) ∧ c.Names q j p
  named : ∀ x ∈ c.reserved, x ≠ 0 → x ∉ N → ∃! e : ℕ × ℕ, c.Names e.1 e.2 x
  unnamed : ∀ x ∈ N, ∀ p j, ¬c.Names p j x

theorem child_congr {c' : Catalog} (h : ∀ j, c'.slot p j = c.slot p j) (name : List UInt8) :
    c'.child p name = c.child p name := by
  simp only [child, h]

theorem child_eq_none_iff :
    c.child p name = none ↔ ∀ j < dirEntries, ∀ x, c.slot p j ≠ some (x, name) := by
  rw [child, List.findSome?_eq_none_iff]
  constructor
  · intro h j hj x hslot
    have hnone := h j (List.mem_range.mpr hj)
    rw [hslot, Option.bind_some, if_pos rfl] at hnone
    exact nomatch hnone
  · intro h j hj
    rcases hslot : c.slot p j with _ | ⟨x, nm⟩
    · rfl
    · rw [Option.bind_some, if_neg]
      rintro rfl
      exact h j (List.mem_range.mp hj) x hslot

theorem Names.block_ne_none (h : c.Names p j x) : c.block p ≠ none := by
  obtain ⟨-, -, name, hslot⟩ := h
  intro hnone
  rw [slot, hnone, Option.bind_none] at hslot
  exact nomatch hslot

/-- The entries of a directory that are not ordinary are `.`, which leads to it, and `..`, which
leads to a directory that names it. -/
theorem Wf.ordinary_or (h : Wf N c) (hp : p ∈ c.reserved) (hb : c.block p ≠ none) (j : ℕ) :
    Ordinary p j ∨ c.slot p j = some (p, [dot]) ∨
      ∃ q k, c.slot p j = some (q, [dot, dot]) ∧ c.Names q k p := by
  by_cases hord : Ordinary p j
  · exact Or.inl hord
  obtain rfl | ⟨rfl, hp0⟩ : j = 0 ∨ j = 1 ∧ p ≠ 0 := by
    rw [Ordinary] at hord
    omega
  · exact Or.inr (Or.inl (h.self p hp hb))
  · exact Or.inr (Or.inr (h.parent p hp hb hp0))

/-- A free entry is not one of `.` and `..`. -/
theorem Wf.ordinary_of_free (h : Wf N c) (hp : p ∈ c.reserved) (hb : c.block p ≠ none)
    (hfree : c.slot p j = none) : Ordinary p j := by
  rcases h.ordinary_or hp hb j with hord | hslot | ⟨q, k, hslot, -⟩
  · exact hord
  · rw [hslot] at hfree
    cases hfree
  · rw [hslot] at hfree
    cases hfree

/-- What an entry leads to is reserved, and it has a block or is named by that entry. -/
theorem Wf.of_slot (h : Wf N c) (hp : p ∈ c.reserved) (hslot : c.slot p j = some (x, name)) :
    x ∈ c.reserved ∧ (c.block x = none → ∃ k, c.Names p k x) := by
  refine ⟨h.slot_reserved p hp j x name hslot, fun hnone => ⟨j, hp, ?_, name, hslot⟩⟩
  have hblock : c.block p ≠ none := fun hn => by
    rw [slot, hn, Option.bind_none] at hslot
    exact nomatch hslot
  rcases h.ordinary_or hp hblock j with hord | hself | ⟨q, k, hparent, hnames⟩
  · exact hord
  · rw [hself, Option.some.injEq, Prod.mk.injEq] at hslot
    exact absurd (hslot.1 ▸ hnone) hblock
  · rw [hparent, Option.some.injEq, Prod.mk.injEq] at hslot
    exact absurd (hslot.1 ▸ hnone) hnames.block_ne_none

/-- Two inodes do not share a block, so there are no more marked blocks than inodes. -/
theorem Wf.exists_unmarked (h : Wf N c) {n : ℕ} (hn : ∀ i ∈ c.reserved, i < n) {area : Finset ℕ}
    (harea : n < area.card) : ∃ b ∈ area, b ∉ c.marked := by
  by_contra hall
  push Not at hall
  choose! owner howner hblock using fun b hb => h.marked_block b (hall b hb)
  have hinj : Set.InjOn owner area := fun b hb b' hb' he => by
    have hb'' := hblock b' hb'
    rw [← he, hblock b hb, Option.some.injEq] at hb''
    exact hb''
  have hcard := Finset.card_le_card_of_injOn owner
    (fun b hb => Finset.mem_coe.mpr (Finset.mem_range.mpr (hn _ (howner b hb)))) hinj
  rw [Finset.card_range] at hcard
  omega

/-! ### Reserving an inode -/

/-- The inode `i` is reserved, without a block. -/
def reserve (c : Catalog) (i : ℕ) : Catalog :=
  { c with
    reserved := insert i c.reserved
    block := Function.update c.block i none }

theorem slot_reserve_self (c : Catalog) (i j : ℕ) : (c.reserve i).slot i j = none := by
  simp only [slot, reserve, Function.update_self, Option.bind_none]

theorem slot_reserve_of_ne (c : Catalog) (h : p ≠ i) (j : ℕ) :
    (c.reserve i).slot p j = c.slot p j := by
  simp only [slot, reserve, Function.update_of_ne h]

theorem names_reserve (hi : i ∉ c.reserved) : (c.reserve i).Names p j x ↔ c.Names p j x := by
  by_cases hp : p = i
  · subst hp
    refine ⟨fun ⟨_, _, name, hslot⟩ => ?_, fun h => absurd h.1 hi⟩
    rw [slot_reserve_self] at hslot
    exact nomatch hslot
  · rw [Names, Names, slot_reserve_of_ne c hp]
    exact and_congr_left' (Set.mem_insert_iff.trans (or_iff_right hp))

theorem Wf.reserve (h : Wf ∅ c) (hi : i ∉ c.reserved) : Wf {i} (c.reserve i) := by
  have hne : ∀ p ∈ c.reserved, p ≠ i := fun p hp he => hi (he ▸ hp)
  have hblock : ∀ p ∈ c.reserved, (c.reserve i).block p = c.block p :=
    fun p hp => Function.update_of_ne (hne p hp) ..
  have hself : (c.reserve i).block i = none := Function.update_self ..
  -- An inode with a block is one that was reserved before.
  have hold : ∀ p ∈ (c.reserve i).reserved, (c.reserve i).block p ≠ none → p ∈ c.reserved :=
    fun p hp hb => hp.resolve_left fun he => hb (he ▸ hself)
  have hold' : ∀ p ∈ (c.reserve i).reserved, ∀ b, (c.reserve i).block p = some b →
      p ∈ c.reserved ∧ c.block p = some b := fun p hp b hb => by
    have hp' := hold p hp (by rw [hb]; exact Option.some_ne_none b)
    exact ⟨hp', hblock p hp' ▸ hb⟩
  constructor
  · exact Set.mem_insert_of_mem i h.root_reserved
  · rw [hblock 0 h.root_reserved]
    exact h.root_block
  · intro p hp b hb
    obtain ⟨hp', hb'⟩ := hold' p hp b hb
    exact h.block_marked p hp' b hb'
  · intro p hp q hq b hb hb'
    obtain ⟨hp', hbp⟩ := hold' p hp b hb
    obtain ⟨hq', hbq⟩ := hold' q hq b hb'
    exact h.block_inj p hp' q hq' b hbp hbq
  · intro b hb
    obtain ⟨p, hp, hpb⟩ := h.marked_block b hb
    exact ⟨p, Set.mem_insert_of_mem i hp, by rw [hblock p hp, hpb]⟩
  · intro p hp j x name hslot
    rcases hp with rfl | hp
    · rw [slot_reserve_self] at hslot
      exact nomatch hslot
    · rw [slot_reserve_of_ne c (hne p hp)] at hslot
      exact Set.mem_insert_of_mem i (h.slot_reserved p hp j x name hslot)
  · intro p hp hb
    have hp' := hold p hp hb
    rw [slot_reserve_of_ne c (hne p hp')]
    exact h.self p hp' (hblock p hp' ▸ hb)
  · intro p hp hb hp0
    have hp' := hold p hp hb
    obtain ⟨q, j, hq, hnames⟩ := h.parent p hp' (hblock p hp' ▸ hb) hp0
    exact ⟨q, j, by rw [slot_reserve_of_ne c (hne p hp'), hq], (names_reserve hi).mpr hnames⟩
  · intro x hx hx0 hxi
    simp only [names_reserve hi]
    exact h.named x (hx.resolve_left hxi) hx0 (Set.notMem_empty x)
  · rintro x rfl p j hnames
    obtain ⟨hp, -, name, hslot⟩ := (names_reserve hi).mp hnames
    exact hi (h.slot_reserved p hp j x name hslot)

/-! ### A block for a directory -/

/-- The entries of the new block of the directory `t`, with parent `p`. -/
def newDir (t p : ℕ) : ℕ → Option (ℕ × List UInt8)
  | 0 => some (t, [dot])
  | 1 => some (p, [dot, dot])
  | _ => none

/-- The directory `t`, with parent `p`, gets the block `b`. -/
def grow (c : Catalog) (t p b : ℕ) : Catalog :=
  { c with
    marked := insert b c.marked
    block := Function.update c.block t (some b)
    entry := Function.update c.entry b (newDir t p) }

theorem slot_grow_self (c : Catalog) (t p b j : ℕ) : (c.grow t p b).slot t j = newDir t p j := by
  simp only [slot, grow, Function.update_self, Option.bind_some]

theorem slot_grow_of_ne {q : ℕ} (hq : q ≠ t) (hb : c.block q ≠ some b) (j : ℕ) :
    (c.grow t p b).slot q j = c.slot q j := by
  simp only [slot, grow, Function.update_of_ne hq]
  cases hc : c.block q with
  | none => rfl
  | some b' => rw [Option.bind_some, Function.update_of_ne fun he : b' = b => hb (he ▸ hc),
      Option.bind_some]

theorem Wf.slot_grow (h : Wf N c) (hb : b ∉ c.marked) {q : ℕ} (hq : q ∈ c.reserved) (hqt : q ≠ t)
    (j : ℕ) : (c.grow t p b).slot q j = c.slot q j :=
  slot_grow_of_ne hqt (fun hqb => hb (h.block_marked q hq b hqb)) j

theorem Wf.names_grow (h : Wf N c) (hb : b ∉ c.marked) (hnone : c.block t = none) {q : ℕ} :
    (c.grow t p b).Names q j x ↔ c.Names q j x := by
  by_cases hq : q ∈ c.reserved
  · by_cases hqt : q = t
    · subst hqt
      refine ⟨fun ⟨_, hord, name, hslot⟩ => ?_, fun hn => absurd hnone hn.block_ne_none⟩
      -- The new block has the entries `.` and `..` only, and the root has had a block before.
      have hq0 : q ≠ 0 := fun h0 => h.root_block (h0 ▸ hnone)
      have hj : 2 ≤ j := hord.resolve_right fun h1 => hq0 h1.2
      obtain ⟨k, rfl⟩ := Nat.exists_eq_add_of_le' hj
      rw [slot_grow_self] at hslot
      exact nomatch hslot
    · rw [Names, Names, h.slot_grow hb hq hqt]
      rfl
  · exact ⟨fun hn => absurd hn.1 hq, fun hn => absurd hn.1 hq⟩

theorem Wf.grow (h : Wf N c) (ht : t ∈ c.reserved) (hb : b ∉ c.marked) (hnone : c.block t = none)
    (hp : c.Names p j t) : Wf N (c.grow t p b) := by
  have hself : (c.grow t p b).block t = some b := Function.update_self ..
  have hother : ∀ q, q ≠ t → (c.grow t p b).block q = c.block q :=
    fun q hq => Function.update_of_ne hq ..
  have hslot : ∀ q ∈ c.reserved, q ≠ t → ∀ k, (c.grow t p b).slot q k = c.slot q k :=
    fun q hq hqt k => h.slot_grow hb hq hqt k
  have ht0 : (0 : ℕ) ≠ t := fun h0 => h.root_block (h0 ▸ hnone)
  -- The new block belongs to `t`, and the others to the inodes they belonged to.
  have howner : ∀ q ∈ c.reserved, ∀ b', (c.grow t p b).block q = some b' →
      q = t ∧ b' = b ∨ q ≠ t ∧ b' ∈ c.marked ∧ c.block q = some b' := fun q hq b' hb' => by
    by_cases hqt : q = t
    · subst hqt
      rw [hself, Option.some.injEq] at hb'
      exact Or.inl ⟨rfl, hb'.symm⟩
    · rw [hother q hqt] at hb'
      exact Or.inr ⟨hqt, h.block_marked q hq b' hb', hb'⟩
  constructor
  · exact h.root_reserved
  · rw [hother 0 ht0]
    exact h.root_block
  · intro q hq b' hb'
    rcases howner q hq b' hb' with ⟨-, rfl⟩ | ⟨-, hmarked, -⟩
    · exact Set.mem_insert ..
    · exact Set.mem_insert_of_mem b hmarked
  · intro q hq q' hq' b' hb₁ hb₂
    rcases howner q hq b' hb₁ with ⟨rfl, rfl⟩ | ⟨-, hm₁, hc₁⟩ <;>
      rcases howner q' hq' b' hb₂ with ⟨rfl, hb'⟩ | ⟨-, hm₂, hc₂⟩
    · rfl
    · exact absurd hm₂ hb
    · exact absurd (hb' ▸ hm₁) hb
    · exact h.block_inj q hq q' hq' b' hc₁ hc₂
  · rintro b' (rfl | hb')
    · exact ⟨t, ht, hself⟩
    · obtain ⟨q, hq, hqb⟩ := h.marked_block b' hb'
      have hqt : q ≠ t := fun he => by
        rw [he, hnone] at hqb
        exact nomatch hqb
      exact ⟨q, hq, by rw [hother q hqt, hqb]⟩
  · intro q hq k x name hk
    by_cases hqt : q = t
    · subst hqt
      rw [slot_grow_self] at hk
      match k, hk with
      | 0, hk =>
        rw [newDir, Option.some.injEq, Prod.mk.injEq] at hk
        exact hk.1 ▸ ht
      | 1, hk =>
        rw [newDir, Option.some.injEq, Prod.mk.injEq] at hk
        exact hk.1 ▸ hp.1
    · exact h.slot_reserved q hq k x name (hslot q hq hqt k ▸ hk)
  · intro q hq hqb
    by_cases hqt : q = t
    · subst hqt
      exact slot_grow_self ..
    · rw [hslot q hq hqt]
      exact h.self q hq (hother q hqt ▸ hqb)
  · intro q hq hqb hq0
    by_cases hqt : q = t
    · subst hqt
      exact ⟨p, j, slot_grow_self .., (h.names_grow hb hnone).mpr hp⟩
    · obtain ⟨r, k, hr, hnames⟩ := h.parent q hq (hother q hqt ▸ hqb) hq0
      exact ⟨r, k, by rw [hslot q hq hqt, hr], (h.names_grow hb hnone).mpr hnames⟩
  · intro x hx hx0 hxN
    simp only [h.names_grow hb hnone]
    exact h.named x hx hx0 hxN
  · intro x hx q k hnames
    exact h.unnamed x hx q k ((h.names_grow hb hnone).mp hnames)

/-! ### A new entry -/

/-- The entry `j` of the block `b` becomes the inode `x` under the given name. -/
def link (c : Catalog) (b j x : ℕ) (name : List UInt8) : Catalog :=
  { c with entry := Function.update c.entry b (Function.update (c.entry b) j (some (x, name))) }

theorem slot_link_self (hb : c.block t = some b) (j x : ℕ) (name : List UInt8) :
    (c.link b j x name).slot t j = some (x, name) := by
  simp only [slot, link, hb, Option.bind_some, Function.update_self]

theorem slot_link_of_ne {q k : ℕ} (h : c.block q = some b → k ≠ j) :
    (c.link b j x name).slot q k = c.slot q k := by
  simp only [slot, link]
  cases hq : c.block q with
  | none => rfl
  | some b' =>
    rw [Option.bind_some, Option.bind_some]
    by_cases hb : b' = b
    · subst hb
      rw [Function.update_self, Function.update_of_ne (h hq)]
    · rw [Function.update_of_ne hb]

theorem Wf.slot_link (h : Wf N c) (ht : t ∈ c.reserved) (hb : c.block t = some b) {q k : ℕ}
    (hq : q ∈ c.reserved) (hne : (q, k) ≠ (t, j)) :
    (c.link b j x name).slot q k = c.slot q k :=
  slot_link_of_ne fun hqb hkj => hne (by rw [h.block_inj q hq t ht b hqb hb, hkj])

theorem Wf.names_link (h : Wf N c) (ht : t ∈ c.reserved) (hb : c.block t = some b)
    (hfree : c.slot t j = none) (hord : Ordinary t j) {q k y : ℕ} :
    (c.link b j x name).Names q k y ↔ c.Names q k y ∨ (q, k) = (t, j) ∧ y = x := by
  by_cases hq : q ∈ c.reserved
  · by_cases hne : (q, k) = (t, j)
    · obtain ⟨rfl, rfl⟩ := Prod.mk.injEq .. ▸ hne
      rw [Names, slot_link_self hb]
      refine ⟨fun ⟨_, _, nm, he⟩ => Or.inr ⟨rfl, ?_⟩, fun hn => ⟨ht, hord, name, ?_⟩⟩
      · rw [Option.some.injEq, Prod.mk.injEq] at he
        exact he.1.symm
      · rcases hn with ⟨_, _, nm, he⟩ | ⟨-, rfl⟩
        · rw [hfree] at he
          exact nomatch he
        · rfl
    · rw [Names, h.slot_link ht hb hq hne]
      exact ⟨Or.inl, fun hn => hn.resolve_right fun he => hne he.1⟩
  · refine ⟨fun hn => absurd hn.1 hq, fun hn => absurd ?_ hq⟩
    rcases hn with hn | ⟨he, -⟩
    · exact hn.1
    · rw [Prod.mk.injEq] at he
      exact he.1 ▸ ht

theorem Wf.link (h : Wf {i} c) (ht : t ∈ c.reserved) (hb : c.block t = some b)
    (hfree : c.slot t j = none) (hi : i ∈ c.reserved) (name : List UInt8) :
    Wf ∅ (c.link b j i name) := by
  have hblock : c.block t ≠ none := hb ▸ Option.some_ne_none b
  have hord : Ordinary t j := h.ordinary_of_free ht hblock hfree
  have hnames : ∀ {q k y}, (c.link b j i name).Names q k y ↔
      c.Names q k y ∨ (q, k) = (t, j) ∧ y = i := h.names_link ht hb hfree hord
  -- An entry that was used is not the one that is taken now.
  have hused : ∀ q ∈ c.reserved, ∀ k, c.slot q k ≠ none →
      (c.link b j i name).slot q k = c.slot q k := fun q hq k hk =>
    h.slot_link ht hb hq fun he => hk (by
      rw [Prod.mk.injEq] at he
      rw [he.1, he.2, hfree])
  constructor
  · exact h.root_reserved
  · exact h.root_block
  · exact h.block_marked
  · exact h.block_inj
  · exact h.marked_block
  · intro q hq k y nm hk
    by_cases he : (q, k) = (t, j)
    · obtain ⟨rfl, rfl⟩ := Prod.mk.injEq .. ▸ he
      rw [slot_link_self hb, Option.some.injEq, Prod.mk.injEq] at hk
      exact hk.1 ▸ hi
    · exact h.slot_reserved q hq k y nm (h.slot_link ht hb hq he ▸ hk)
  · intro q hq hqb
    have hself := h.self q hq hqb
    rw [hused q hq 0 (hself ▸ Option.some_ne_none _), hself]
  · intro q hq hqb hq0
    obtain ⟨r, k, hr, hn⟩ := h.parent q hq hqb hq0
    exact ⟨r, k, by rw [hused q hq 1 (hr ▸ Option.some_ne_none _), hr], hnames.mpr (Or.inl hn)⟩
  · intro y hy hy0 _
    by_cases hyi : y = i
    · subst hyi
      refine ⟨(t, j), hnames.mpr (Or.inr ⟨rfl, rfl⟩), fun e he => ?_⟩
      exact ((hnames.mp he).resolve_left (h.unnamed y rfl e.1 e.2)).1
    · obtain ⟨e, he, huniq⟩ := h.named y hy hy0 hyi
      exact ⟨e, hnames.mpr (Or.inl he), fun e' he' =>
        huniq e' ((hnames.mp he').resolve_right fun hr => hyi hr.2)⟩
  · exact fun y hy => absurd hy (Set.notMem_empty y)

/-! ### Looking up names -/

/-- A new inode is not in the way of the others. -/
theorem child_reserve (h : p ≠ i) (name : List UInt8) :
    (c.reserve i).child p name = c.child p name :=
  child_congr (slot_reserve_of_ne c h) name

/-- A directory without a block has no entries. -/
theorem child_of_no_block (h : c.block p = none) (name : List UInt8) : c.child p name = none :=
  child_eq_none_iff.mpr fun j _ x hslot => by
    rw [slot, h, Option.bind_none] at hslot
    exact nomatch hslot

/-- A directory that is given a block has the entries `.` and `..` only. -/
theorem child_grow_self (hdot : name ≠ [dot]) (hdots : name ≠ [dot, dot]) :
    (c.grow t p b).child t name = none := by
  refine child_eq_none_iff.mpr fun j _ x hslot => ?_
  rw [slot_grow_self] at hslot
  match j, hslot with
  | 0, hslot => exact hdot (congrArg Prod.snd (Option.some.inj hslot)).symm
  | 1, hslot => exact hdots (congrArg Prod.snd (Option.some.inj hslot)).symm

/-- The new entry is found under its name, if there was none before. -/
theorem child_link_self (hb : c.block t = some b) (hj : j < dirEntries)
    (habsent : c.child t name = none) : (c.link b j x name).child t name = some x := by
  have hother (k : ℕ) (hk : k < dirEntries) (hkj : k ≠ j) :
      (((c.link b j x name).slot t k).bind fun e => if e.2 = name then some e.1 else none) =
        none := by
    rw [slot_link_of_ne fun _ => hkj]
    rcases hslot : c.slot t k with _ | ⟨y, nm⟩
    · rfl
    · rw [Option.bind_some, if_neg]
      rintro rfl
      exact child_eq_none_iff.mp habsent k hk y hslot
  cases hchild : (c.link b j x name).child t name with
  | none => exact absurd (slot_link_self hb j x name) (child_eq_none_iff.mp hchild j hj x)
  | some y =>
    obtain ⟨k, hk, hfound⟩ := List.exists_of_findSome?_eq_some hchild
    by_cases hkj : k = j
    · rw [hkj, slot_link_self hb, Option.bind_some, if_pos rfl] at hfound
      exact hfound.symm
    · rw [hother k (List.mem_range.mp hk) hkj] at hfound
      exact nomatch hfound

/-- Under every other name a directory has the entries that it had. -/
theorem Wf.child_link (h : Wf N c) (ht : t ∈ c.reserved) (hb : c.block t = some b)
    (hfree : c.slot t j = none) {q : ℕ} (hq : q ∈ c.reserved) {nm : List UInt8}
    (hne : q = t → nm ≠ name) : (c.link b j x name).child q nm = c.child q nm := by
  refine congrArg (fun f => List.findSome? f _) (funext fun k => ?_)
  by_cases he : (q, k) = (t, j)
  · obtain ⟨rfl, rfl⟩ := Prod.mk.injEq .. ▸ he
    rw [slot_link_self hb, hfree, Option.bind_some, if_neg (hne rfl).symm, Option.bind_none]
  · rw [h.slot_link ht hb hq he]

end Catalog

end OSDesign.FS
