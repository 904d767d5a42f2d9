import Mathlib.Tactic
import OSDesign.VM.Disjointness

/-!
# Freeing everything

When all blocks of a region have been freed, its list should again be the one free block that it was
in the beginning. That is so when every step keeps the sum of the sizes that the records say and
leaves no two free blocks next to each other (`region_restored`).

The steps of the source do not keep that sum in general. `createSpace` records the rest of a block
that is cut without taking off the room of its own record, and drops a rest that is too small for a
record. `removeSpace` forgets the size of one of the blocks that it joins: of the freed block when
it is joined with the next one, of the one before when that is joined with the freed block. The two
errors make up for each other only when what is forgotten is as large as the records that are
dropped (`freed_region_too_large`).

## Main definitions

* `Alternating`, `totalSize`: the invariant of the list of blocks.
* `SizesFit`, `RestoreAllowed`: the steps that keep it.

## Main results

* `region_restored`, `freed_region_too_large`.
-/

namespace OSDesign.VM

open Transition ListUpdate ByteMemory

/-! ### Lists of blocks -/

section Lists

variable {b : Block} {l r bs : List Block} {P N : Prop}

/-- No two blocks that follow each other are free. -/
def Alternating (bs : List Block) : Prop :=
  bs.IsChain fun b c => b.free = true → c.free = false

/-- The sum of the sizes that the records say. -/
def totalSize (bs : List Block) : ℕ := (bs.map Block.size).sum

theorem alternating_middle : Alternating (l ++ b :: r) ↔
    Alternating l ∧ Alternating r ∧ (∀ x ∈ l.getLast?, x.free = true → b.free = false) ∧
      (∀ y ∈ r.head?, b.free = true → y.free = false) := by
  rw [Alternating, List.isChain_append, List.isChain_cons]
  constructor
  · rintro ⟨hl, ⟨hbr, hr⟩, hlb⟩
    exact ⟨hl, hr, fun x hx => hlb x hx b rfl, hbr⟩
  · rintro ⟨hl, hr, hlb, hbr⟩
    refine ⟨hl, ⟨hbr, hr⟩, fun x hx y hy => ?_⟩
    obtain rfl := Option.some.inj hy
    exact hlb x hx

/-- Of an alternating list of free blocks there is one at most. -/
theorem Alternating.eq_singleton (h : Alternating bs) (hne : bs ≠ []) (hfree : usedData bs = []) :
    ∃ b, bs = [b] ∧ b.free = true := by
  have hall : ∀ b ∈ bs, b.free = true := by
    intro b hb
    by_contra hused
    have : (b.start, b.size) ∈ usedData bs :=
      mem_usedData.mpr ⟨b, hb, Bool.eq_false_iff.mpr hused, rfl⟩
    rw [hfree] at this
    cases this
  cases bs with
  | nil => exact absurd rfl hne
  | cons b bs =>
    refine ⟨b, ?_, hall b List.mem_cons_self⟩
    cases bs with
    | nil => rfl
    | cons c bs =>
      have hc := (List.isChain_cons_cons.mp h).1 (hall b List.mem_cons_self)
      rw [hall c (List.mem_cons_of_mem _ List.mem_cons_self)] at hc
      cases hc

theorem totalSize_append (l r : List Block) : totalSize (l ++ r) = totalSize l + totalSize r := by
  rw [totalSize, List.map_append, List.sum_append]
  rfl

theorem totalSize_cons (b : Block) (r : List Block) :
    totalSize (b :: r) = b.size + totalSize r := by
  rw [totalSize, List.map_cons, List.sum_cons]
  rfl

/-! ### Allocating -/

/-- A block from which nothing is dropped. -/
theorem totalSize_cut {size : ℕ} (hsize : size ≤ b.size) (hkeep : b.size = size ∨ b.Splits size) :
    totalSize (l ++ (b.cut size ++ r)) = totalSize (l ++ b :: r) := by
  rw [totalSize_append, totalSize_append, totalSize_append, totalSize_cons, Block.cut]
  split_ifs with hsplit
  · rw [totalSize_cons, totalSize_cons]
    simp only [Block.use, Block.rest, totalSize, List.map_nil, List.sum_nil]
    omega
  · have hall := hkeep.resolve_right hsplit
    rw [totalSize_cons]
    simp only [Block.use, totalSize, List.map_nil, List.sum_nil]
    omega

theorem alternating_cut {size : ℕ} (h : Alternating (l ++ b :: r)) (hfree : b.free = true) :
    Alternating (l ++ (b.cut size ++ r)) := by
  obtain ⟨hl, hr, -, hbr⟩ := alternating_middle.mp h
  rw [Block.cut]
  split_ifs
  · refine alternating_middle.mpr
      ⟨hl, ?_, fun _ _ _ => rfl, fun _ _ hf => absurd hf Bool.false_ne_true⟩
    exact List.isChain_cons.mpr ⟨fun y hy _ => hbr y hy hfree, hr⟩
  · exact alternating_middle.mpr
      ⟨hl, hr, fun _ _ _ => rfl, fun _ _ hf => absurd hf Bool.false_ne_true⟩

/-! ### Freeing -/

/-- Joining keeps the list alternating, when a free block before the freed one is joined. -/
theorem Joins.alternating (hj : Joins P N b l r bs) (h : Alternating (l ++ b :: r))
    (hprev : ∀ x ∈ l.getLast?, x.free = true → P) : Alternating bs := by
  obtain ⟨hl, hr, -, -⟩ := alternating_middle.mp h
  cases hj with
  | both hP hN l r x y hx hy =>
    obtain ⟨hl', -, hlx, -⟩ := alternating_middle.mp hl
    obtain ⟨hyr, hr'⟩ := List.isChain_cons.mp hr
    exact alternating_middle.mpr ⟨hl', hr', hlx, fun z hz _ => hyr z hz hy⟩
  | prev hP hN l r x hx hr' =>
    obtain ⟨hl', -, hlx, -⟩ := alternating_middle.mp hl
    exact alternating_middle.mpr ⟨hl', hr, hlx, fun z hz _ => hr' z hz⟩
  | next hP hN l r y hy =>
    obtain ⟨hyr, hr'⟩ := List.isChain_cons.mp hr
    exact alternating_middle.mpr ⟨hl, hr', fun x hx hf => absurd (hprev x hx hf) hP,
      fun z hz _ => hyr z hz hy⟩
  | none hP hN l r hr' =>
    exact alternating_middle.mpr ⟨hl, hr, fun x hx hf => absurd (hprev x hx hf) hP,
      fun z hz _ => hr' z hz⟩

/-- Joining keeps the sum of the sizes, when the size that is forgotten is the room of the records
that are dropped. -/
theorem Joins.totalSize (hj : Joins P N b l r bs) (hlt : totalSize (l ++ b :: r) < 2 ^ 32)
    (hboth : P → N → ∀ x ∈ l.getLast?, x.size = 2 * sizeofSpaceNode)
    (hprev : P → ¬ N → ∀ x ∈ l.getLast?, x.size = sizeofSpaceNode)
    (hnext : ¬ P → N → b.size = sizeofSpaceNode) :
    totalSize bs = totalSize (l ++ b :: r) := by
  have hnil : VM.totalSize [] = 0 := rfl
  cases hj with
  | both hP hN l r x y hx hy =>
    have hsize := hboth hP hN x (by simp)
    simp only [totalSize_append, totalSize_cons, Block.resize, hnil] at hlt ⊢
    rw [Nat.mod_eq_of_lt (by omega)]
    omega
  | prev hP hN l r x hx hr' =>
    have hsize := hprev hP hN x (by simp)
    simp only [totalSize_append, totalSize_cons, Block.resize, hnil] at hlt ⊢
    rw [Nat.mod_eq_of_lt (by omega)]
    omega
  | next hP hN l r y hy =>
    have hsize := hnext hP hN
    simp only [totalSize_append, totalSize_cons, Block.resize] at hlt ⊢
    rw [Nat.mod_eq_of_lt (by omega)]
    omega
  | none hP hN l r hr' =>
    simp only [totalSize_append, totalSize_cons, Block.release]

end Lists

/-! ### Runs that restore the region -/

/-- The size that is forgotten when the freed block `n` is joined with its neighbours `a` and `b` is
the room of the records that are dropped. -/
def SizesFit (m : Memory) (n a b : ℕ) : Prop :=
  (Mergeable (markFree m n) a → Mergeable (markFree m n) b →
      sizeField.get m a = 2 * sizeofSpaceNode) ∧
    (Mergeable (markFree m n) a → ¬ Mergeable (markFree m n) b →
      sizeField.get m a = sizeofSpaceNode) ∧
    (¬ Mergeable (markFree m n) a → Mergeable (markFree m n) b →
      sizeField.get m n = sizeofSpaceNode)

instance (m : Memory) (n a b : ℕ) : Decidable (SizesFit m n a b) :=
  inferInstanceAs (Decidable (_ ∧ _))

variable (base len : ℕ)

/-- No bytes are dropped or invented by the step, and a free block before a freed one is found by
`prev`. -/
def Restores (s : Region) : RegionEvent → Prop
  | .alloc size _ => ∀ n ∈ findFreeSpace s.mem size (len + 1) base, n ≠ 0 →
      sizeField.get s.mem n = size ∨ sizeofSpaceNode < sizeField.get s.mem n - size
  | .free ptr =>
      (∀ x ∈ blockAddrs s.mem (len + 1) base, nextField.get s.mem x = ptr - sizeofSpaceNode →
        freeField.get s.mem x ≠ 0 → prevField.get s.mem (ptr - sizeofSpaceNode) = x) ∧
      SizesFit s.mem (ptr - sizeofSpaceNode) (prevField.get s.mem (ptr - sizeofSpaceNode))
        (nextField.get s.mem (ptr - sizeofSpaceNode))
  | .write _ _ => True

instance (s : Region) (e : RegionEvent) : Decidable (Restores base len s e) := by
  rcases e <;> dsimp only [Restores] <;> infer_instance

/-- The steps that keep the blocks apart and the sum of their sizes. -/
def RestoreAllowed (s : Region) (e : RegionEvent) : Prop :=
  RegionAllowed base len s e ∧ Restores base len s e

instance (s : Region) (e : RegionEvent) : Decidable (RestoreAllowed base len s e) :=
  inferInstanceAs (Decidable (_ ∧ _))

/-- The blocks of the region alternate, and their sizes add up to `total`. -/
def RestoreInv (total : ℕ) (s : Region) : Prop :=
  ∃ bs, RegionBlocks base len s bs ∧ bs ≠ [] ∧ Alternating bs ∧ totalSize bs = total

variable {base len} {s s' : Region} {total : ℕ}

/-- A free block before a freed one is joined with it, if `prev` names it. -/
theorem RegionBlocks.mergeable_of_prev {l r : List Block} {b x : Block}
    (h : RegionBlocks base len s (l ++ b :: r)) (hx : x ∈ l.getLast?) (hfree : x.free = true)
    (hprev : prevField.get s.mem b.addr = x.addr) :
    Mergeable (markFree s.mem b.addr) (prevField.get s.mem b.addr) := by
  obtain ⟨l', rfl⟩ := List.getLast?_eq_some_iff.mp hx
  have hmarked := h.1.markFree h.2.1
  rw [List.append_assoc, List.singleton_append] at hmarked
  obtain ⟨-, hne, hden, -⟩ := seg_middle.mp hmarked
  exact hprev ▸ ⟨hne, hden.free.mpr hfree⟩

/-- In the steps that restore the region, `prev` of a freed block names a free block before it. -/
theorem RegionBlocks.prev_of_restores {l r : List Block} {b : Block}
    (h : RegionBlocks base len s (l ++ b :: r)) (hok : Restores base len s (.free b.start)) :
    ∀ x ∈ l.getLast?, x.free = true → prevField.get s.mem b.addr = x.addr := by
  intro x hx hfree
  obtain ⟨l', rfl⟩ := List.getLast?_eq_some_iff.mp hx
  obtain ⟨hseg, hsp, -⟩ := h
  have haddr : b.start - sizeofSpaceNode = b.addr := Nat.add_sub_cancel ..
  have hmem : x.addr ∈ blockAddrs s.mem (len + 1) base := by
    rw [blockAddrs_eq hseg (hseg.length_lt hsp)]
    exact List.mem_map_of_mem (by simp)
  rw [List.append_assoc, List.singleton_append] at hseg
  obtain ⟨-, -, hden, hnext⟩ := seg_middle.mp hseg
  have hprev := hok.1 x.addr hmem (by rw [haddr]; exact hnext.head.1) (hden.free.mpr hfree)
  rwa [haddr] at hprev

theorem RestoreInv.free {ptr : ℕ} (h : RestoreInv base len total s) (htotal : total < 2 ^ 32)
    (hok : RestoreAllowed base len s (.free ptr))
    (hs : regionStep base len s (.free ptr) = some s') : RestoreInv base len total s' := by
  obtain ⟨bs, hbs, -, halt, hsum⟩ := h
  obtain ⟨l, b, r, bs', rfl, rfl, hused, hjoins, hbs'⟩ := hbs.free hok.1 hs
  have hpred := hbs.prev_of_restores hok.2
  have haddr : b.start - sizeofSpaceNode = b.addr := Nat.add_sub_cancel ..
  obtain ⟨hboth, hprev, hnext⟩ := haddr ▸ hok.2.2
  obtain ⟨-, -, hden, -⟩ := seg_middle.mp hbs.1
  -- the size of the block before, when it is joined
  have hsize (hP : Mergeable (markFree s.mem b.addr) (prevField.get s.mem b.addr)) :
      ∀ x ∈ l.getLast?, sizeField.get s.mem (prevField.get s.mem b.addr) = x.size := by
    intro x hx
    obtain ⟨l', y, rfl, hy⟩ := hbs.pred hok.1 hP
    rw [List.getLast?_concat] at hx
    obtain rfl := Option.some.inj hx
    have hseg := hbs.1
    rw [List.append_assoc, List.singleton_append] at hseg
    rw [hy]
    exact (seg_middle.mp hseg).2.2.1.size
  refine ⟨bs', hbs', ?_, hjoins.alternating halt fun x hx hf =>
    hbs.mergeable_of_prev hx hf (hpred x hx hf), ?_⟩
  · cases hjoins <;> simp
  · rw [hjoins.totalSize (hsum ▸ htotal) ?_ ?_ ?_, hsum]
    · exact fun hP hN x hx => (hsize hP x hx).symm.trans (hboth hP hN)
    · exact fun hP hN x hx => (hsize hP x hx).symm.trans (hprev hP hN)
    · exact fun hP hN => hden.size.symm.trans (hnext hP hN)

theorem RestoreInv.alloc {size : ℕ} {junk : ℕ → UInt8} (h : RestoreInv base len total s)
    (hend : base + len < 2 ^ 64) (hok : RestoreAllowed base len s (.alloc size junk))
    (hs : regionStep base len s (.alloc size junk) = some s') : RestoreInv base len total s' := by
  obtain ⟨bs, hbs, hne, halt, hsum⟩ := h
  rcases hbs.alloc hend hok.1 hs with ⟨rfl, -⟩ | ⟨l, b, r, rfl, hfind, hfree, hsize, -, hbs'⟩
  · exact ⟨bs, hbs, hne, halt, hsum⟩
  · obtain ⟨-, hb, hden, -⟩ := seg_middle.mp hbs.1
    have hkeep : b.size = size ∨ b.Splits size := by
      have := hok.2 b.addr hfind hb
      rwa [hden.size] at this
    refine ⟨_, hbs', ?_, alternating_cut halt hfree, (totalSize_cut hsize hkeep).trans hsum⟩
    rw [Block.cut]
    split_ifs <;> simp

theorem restoreInv_step {e : RegionEvent} (hend : base + len < 2 ^ 64) (htotal : total < 2 ^ 32)
    (h : RestoreInv base len total s) (hok : RestoreAllowed base len s e)
    (hs : regionStep base len s e = some s') : RestoreInv base len total s' := by
  cases e with
  | alloc size junk => exact h.alloc hend hok hs
  | free ptr => exact h.free htotal hok hs
  | write a v =>
    obtain ⟨bs, hbs, hne, halt, hsum⟩ := h
    exact ⟨bs, hbs.write hs, hne, halt, hsum⟩

/-- A region of one free block gives out all of it. -/
theorem getFreeElementFrom_all {m : Memory} {size : ℕ} (h : Seg m base [⟨base, size, true⟩] 0)
    (fuel : ℕ) (junk : ℕ → UInt8) :
    ∃ m', getFreeElementFrom (fuel + 1) m base size junk = some (base + sizeofSpaceNode, m') := by
  obtain ⟨-, hne, hden, -⟩ := h
  have hfree : freeField.get m base ≠ 0 := hden.free.mpr rfl
  have hrest : restSize m base size = size - size := hden.restSize (le_refl size)
  have hcreate : createSpace m base size junk = (true, useBlock m base size) := by
    rw [createSpace_of_free m size junk hfree, hrest, if_neg (by omega)]
  have hstart : startField.get (useBlock m base size) base = base + sizeofSpaceNode :=
    (hden.use (le_refl size)).start
  have hsize : size ≤ sizeField.get m base := hden.size.ge
  refine ⟨useBlock m base size, ?_⟩
  rw [getFreeElementFrom, findFreeSpace, if_neg hne, if_pos ⟨hfree, hsize⟩, Option.map_some,
    if_neg hne, hcreate]
  dsimp only
  rw [hstart]

/-- **Freeing everything.** In every run whose steps drop and invent no bytes, the region is one
free block of its size at the beginning whenever no block is in use, and can be given out as a
whole. -/
theorem region_restored {m : Memory} (hinit : RegionInit m base len) {es : List RegionEvent}
    (hok : RunOk (regionStep base len) (RestoreAllowed base len) ⟨m, []⟩ es)
    (hrun : run (regionStep base len) ⟨m, []⟩ es = some s) (hfreed : s.live = []) :
    Seg s.mem base [⟨base, sizeField.get m base, true⟩] 0 ∧
      ∀ junk, ∃ m', getFreeElementFrom (len + 1) s.mem base (sizeField.get m base) junk =
        some (base + sizeofSpaceNode, m') := by
  have h₀ : RestoreInv base len (sizeField.get m base) ⟨m, []⟩ :=
    ⟨_, regionBlocks_init hinit, by simp, List.isChain_singleton _, rfl⟩
  obtain ⟨bs, ⟨hseg, hsp, hlive⟩, hne, halt, hsum⟩ := run_invariant
    (fun _ _ _ hi hok hs => restoreInv_step hinit.end_lt (size_lt m base) hi hok hs) h₀ hok hrun
  rw [hfreed] at hlive
  obtain ⟨b, rfl, hfree⟩ := halt.eq_singleton hne hlive.symm.eq_nil
  obtain ⟨rfl, -⟩ := hseg.head
  have hb : b = ⟨b.addr, sizeField.get m b.addr, true⟩ := by
    rw [← hsum, ← hfree]
    rfl
  rw [hb] at hseg
  exact ⟨hseg, fun junk => getFreeElementFrom_all hseg len junk⟩

/-- Two blocks are allocated in a page and freed in this order. The second one is joined with the
first, whose 112 bytes are forgotten, and with the rest of the page. -/
def restoreRun : List RegionEvent :=
  [.alloc 112 fun _ => 0, .alloc 200 fun _ => 0, .write 4330 7, .free 4152, .free 4320]

/-- The theorem at the end of that run. -/
theorem region_restored_two_blocks :
    ∃ s, run (regionStep 4096 4096) ⟨initializeSpace (fun _ => 0) 4096 4096 fun _ => 0, []⟩
        restoreRun = some s ∧ Seg s.mem 4096 [⟨4096, 4040, true⟩] 0 := by
  have hend : (run (regionStep 4096 4096)
      ⟨initializeSpace (fun _ => 0) 4096 4096 fun _ => 0, []⟩ restoreRun).map Region.live =
      some [] := by decide +kernel
  obtain ⟨s, hrun, hlive⟩ := Option.map_eq_some_iff.mp hend
  have hsize : sizeField.get (initializeSpace (fun _ => 0) 4096 4096 fun _ => 0) 4096 = 4040 := by
    decide +kernel
  have h := (region_restored (.page _ 4096 4096 _ (by norm_num) (by decide) (by norm_num))
    (by decide +kernel) hrun hlive).1
  exact ⟨s, hrun, hsize ▸ h⟩

/-- A block of 10 bytes is allocated in a page of 4096 bytes and freed: the page is one free block
of 4086 bytes, not of 4040. -/
theorem freed_region_too_large :
    ∃ s, run (regionStep 4096 4096) ⟨initializeSpace (fun _ => 0) 4096 4096 fun _ => 0, []⟩
        [.alloc 10 fun _ => 0, .free 4152] = some s ∧ s.live = [] ∧
      sizeField.get (initializeSpace (fun _ => 0) 4096 4096 fun _ => 0) 4096 = 4040 ∧
      sizeField.get s.mem 4096 = 4086 := by
  have hend : (run (regionStep 4096 4096)
      ⟨initializeSpace (fun _ => 0) 4096 4096 fun _ => 0, []⟩
      [.alloc 10 fun _ => 0, .free 4152]).map (fun s => (s.live, sizeField.get s.mem 4096)) =
      some ([], 4086) := by decide +kernel
  obtain ⟨s, hrun, hproj⟩ := Option.map_eq_some_iff.mp hend
  obtain ⟨hlive, hsize⟩ := Prod.mk.inj hproj
  exact ⟨s, hrun, hlive, by decide +kernel, hsize⟩

end OSDesign.VM
