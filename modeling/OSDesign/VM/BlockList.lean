import Mathlib.Tactic
import OSDesign.Lib.Transition
import OSDesign.VM.Allocator

/-!
# The list of blocks of a region

The abstract state of a region is the list of its blocks in the order of their addresses, each with
the size that its record says and whether it is free. `Seg m p bs q` says that the memory `m` has
the records of these blocks, linked from `p` to `q`.

`createSpace` and `removeSpace` act on the list of blocks as `List` operations (`seg_createSpace`,
`seg_coalesce_next`, `seg_coalesce_prev`), provided that the block fits in front of the next record
and that the block before it is the one that `prev` names. The sizes that the records say need not
be the room that the blocks have: the rest of a block that is cut is 56 bytes too large, and joining
two blocks forgets the size of one of them.

## Main definitions

* `Block`, `Seg`, `Spaced`, `Block.cut`, `Joins`.

## Main results

* `findFreeSpace_eq`, `seg_createSpace`, `seg_removeSpace`.
-/

namespace OSDesign.VM

open ByteMemory

/-- A block of a region: the address of its record, the size that the record says, and whether it is
free. -/
structure Block where
  addr : ℕ
  size : ℕ
  free : Bool
deriving DecidableEq

/-- The first byte behind the record. -/
def Block.start (b : Block) : ℕ := b.addr + sizeofSpaceNode

/-- The first byte behind what the block uses: its record, and its data if it is in use. -/
def Block.stop (b : Block) : ℕ := b.start + if b.free then 0 else b.size

/-- The blocks lie one behind the other, below `limit`. -/
structure Spaced (limit : ℕ) (bs : List Block) : Prop where
  pairwise : bs.Pairwise fun b c => b.stop ≤ c.addr
  stop_le : ∀ b ∈ bs, b.stop ≤ limit

/-- The memory has the record of the block. -/
structure Denotes (m : Memory) (b : Block) : Prop where
  start : startField.get m b.addr = b.start
  size : sizeField.get m b.addr = b.size
  free : freeField.get m b.addr ≠ 0 ↔ b.free = true

/-- The memory has the records of the blocks, linked from `p` to `q`. -/
def Seg (m : Memory) : ℕ → List Block → ℕ → Prop
  | p, [], q => p = q
  | p, b :: bs, q => p = b.addr ∧ p ≠ 0 ∧ Denotes m b ∧ Seg m (nextField.get m p) bs q

variable {m m' : Memory} {p q : ℕ} {b : Block} {l r bs : List Block}

/-- The bytes of the record of a block. -/
def Block.record (b : Block) : Set ℕ := Set.Ico b.addr (b.addr + sizeofSpaceNode)

theorem Denotes.congr (h : Denotes m b) (heq : Set.EqOn m' m b.record) : Denotes m' b where
  start := (startField.get_congr heq (by decide)).trans h.start
  size := (sizeField.get_congr heq (by decide)).trans h.size
  free := by rw [freeField.get_congr heq (by decide), h.free]

theorem Seg.congr (h : Seg m p bs q) (heq : ∀ b ∈ bs, Set.EqOn m' m b.record) :
    Seg m' p bs q := by
  induction bs generalizing p with
  | nil => exact h
  | cons b bs ih =>
    obtain ⟨rfl, hp, hb, hseg⟩ := h
    have hbrec := heq b List.mem_cons_self
    refine ⟨rfl, hp, hb.congr hbrec, ?_⟩
    rw [nextField.get_congr hbrec (by decide)]
    exact ih hseg fun c hc => heq c (List.mem_cons_of_mem _ hc)

theorem seg_append : Seg m p (l ++ r) q ↔ ∃ x, Seg m p l x ∧ Seg m x r q := by
  induction l generalizing p with
  | nil => simp [Seg]
  | cons b l ih =>
    simp only [List.cons_append, Seg, ih]
    constructor
    · rintro ⟨rfl, hp, hb, x, hl, hr⟩
      exact ⟨x, ⟨rfl, hp, hb, hl⟩, hr⟩
    · rintro ⟨x, ⟨rfl, hp, hb, hl⟩, hr⟩
      exact ⟨rfl, hp, hb, x, hl, hr⟩

/-- Where the list goes on. -/
theorem Seg.head (h : Seg m p (b :: bs) q) : p = b.addr ∧ b.addr ≠ 0 := ⟨h.1, h.1 ▸ h.2.1⟩

/-! ### Searching the list -/

/-- The first free block that is large enough, as its record says. -/
def firstFit (size : ℕ) (bs : List Block) : Option Block :=
  bs.find? fun b => b.free && decide (size ≤ b.size)

/-- `findFreeSpace` finds the first free block that is large enough. -/
theorem findFreeSpace_eq (size : ℕ) {fuel : ℕ} (h : Seg m p bs 0) (hfuel : bs.length < fuel) :
    findFreeSpace m size fuel p = some ((firstFit size bs).elim 0 Block.addr) := by
  induction bs generalizing p fuel with
  | nil =>
    obtain ⟨fuel, rfl⟩ := Nat.exists_eq_succ_of_ne_zero (Nat.ne_zero_of_lt hfuel)
    rw [findFreeSpace, if_pos (show p = 0 from h)]
    rfl
  | cons b bs ih =>
    obtain ⟨fuel, rfl⟩ := Nat.exists_eq_succ_of_ne_zero (Nat.ne_zero_of_lt hfuel)
    obtain ⟨rfl, hp, hb, hseg⟩ := h
    have hfound : freeField.get m b.addr ≠ 0 ∧ size ≤ sizeField.get m b.addr ↔
        (b.free && decide (size ≤ b.size)) = true := by
      rw [hb.free, hb.size, Bool.and_eq_true, decide_eq_true_eq]
    rw [findFreeSpace, if_neg hp, firstFit, List.find?_cons]
    cases hfit : b.free && decide (size ≤ b.size) with
    | true =>
      rw [if_pos (hfound.mpr hfit)]
      rfl
    | false =>
      rw [if_neg (fun h => by simp [hfound.mp h] at hfit)]
      exact ih hseg (by simpa using hfuel)

/-! ### Spacing -/

theorem Block.start_le_stop (b : Block) : b.start ≤ b.stop := Nat.le_add_right ..

theorem spaced_append {limit : ℕ} : Spaced limit (l ++ r) ↔
    Spaced limit l ∧ Spaced limit r ∧ ∀ b ∈ l, ∀ c ∈ r, b.stop ≤ c.addr := by
  constructor
  · rintro ⟨hp, hs⟩
    obtain ⟨hl, hr, hlr⟩ := List.pairwise_append.mp hp
    exact ⟨⟨hl, fun b hb => hs b (List.mem_append_left _ hb)⟩,
      ⟨hr, fun b hb => hs b (List.mem_append_right _ hb)⟩, hlr⟩
  · rintro ⟨hl, hr, hlr⟩
    refine ⟨List.pairwise_append.mpr ⟨hl.pairwise, hr.pairwise, hlr⟩, fun b hb => ?_⟩
    exact (List.mem_append.mp hb).elim (hl.stop_le b) (hr.stop_le b)

theorem spaced_cons {limit : ℕ} : Spaced limit (b :: r) ↔
    b.stop ≤ limit ∧ Spaced limit r ∧ ∀ c ∈ r, b.stop ≤ c.addr := by
  constructor
  · rintro ⟨hp, hs⟩
    obtain ⟨hb, hr⟩ := List.pairwise_cons.mp hp
    exact ⟨hs b List.mem_cons_self, ⟨hr, fun c hc => hs c (List.mem_cons_of_mem _ hc)⟩, hb⟩
  · rintro ⟨hb, hr, hbr⟩
    refine ⟨List.pairwise_cons.mpr ⟨hbr, hr.pairwise⟩, fun c hc => ?_⟩
    rcases List.mem_cons.mp hc with rfl | hc
    · exact hb
    · exact hr.stop_le c hc

/-! ### Changing records -/

/-- A change outside the records. -/
theorem Seg.frame {s : Set ℕ} (h : Seg m p bs q) (heq : Set.EqOn m' m sᶜ)
    (hdisj : ∀ b ∈ bs, Disjoint s b.record) : Seg m' p bs q :=
  h.congr fun b hb => eqOn_of_disjoint heq (hdisj b hb)

theorem seg_middle : Seg m p (l ++ b :: r) q ↔
    Seg m p l b.addr ∧ b.addr ≠ 0 ∧ Denotes m b ∧ Seg m (nextField.get m b.addr) r q := by
  rw [seg_append]
  constructor
  · rintro ⟨x, hl, rfl, hx, hb, hr⟩
    exact ⟨hl, hx, hb, hr⟩
  · rintro ⟨hl, hx, hb, hr⟩
    exact ⟨b.addr, hl, rfl, hx, hb, hr⟩

theorem disjoint_record_left {c : Block} {hi : ℕ} (h : c.stop ≤ b.addr) :
    Disjoint (Set.Ico b.addr hi) c.record :=
  disjoint_Ico (Or.inr (c.start_le_stop.trans h))

theorem disjoint_record_right {c : Block} {lo hi : ℕ} (h : hi ≤ c.addr) :
    Disjoint (Set.Ico lo hi) c.record :=
  disjoint_Ico (Or.inl h)

/-- Changing the record of one block, without its link. -/
theorem Seg.setMiddle {limit : ℕ} {b' : Block} (h : Seg m p (l ++ b :: r) q)
    (hsp : Spaced limit (l ++ b :: r)) (heq : Set.EqOn m' m b.recordᶜ) (hb' : Denotes m' b')
    (haddr : b'.addr = b.addr) (hnext : nextField.get m' b.addr = nextField.get m b.addr) :
    Seg m' p (l ++ b' :: r) q := by
  obtain ⟨-, hbr, hlb⟩ := spaced_append.mp hsp
  obtain ⟨hl, hne, -, hr⟩ := seg_middle.mp h
  refine seg_middle.mpr ⟨?_, haddr ▸ hne, hb', ?_⟩
  · rw [haddr]
    exact hl.frame heq fun c hc => disjoint_record_left (hlb c hc b List.mem_cons_self)
  · rw [haddr, hnext]
    refine hr.frame heq fun c hc => disjoint_record_right ?_
    exact b.start_le_stop.trans ((spaced_cons.mp hbr).2.2 c hc)

/-- The block with another size in its record. -/
def Block.resize (size : ℕ) (b : Block) : Block := ⟨b.addr, size, b.free⟩

/-- A block that takes over the link of a later one drops what is in between. -/
theorem Seg.absorb {limit : ℕ} {x y : Block} (size : ℕ) (mid : List Block)
    (h : Seg m p (l ++ x :: (mid ++ y :: r)) q) (hsp : Spaced limit (l ++ x :: (mid ++ y :: r))) :
    Seg (absorb m x.addr size y.addr) p (l ++ x.resize (size % 2 ^ 32) :: r) q := by
  obtain ⟨-, hx, hlx⟩ := spaced_append.mp hsp
  obtain ⟨-, -, hxr⟩ := spaced_cons.mp hx
  obtain ⟨hl, hne, hdx, hrest⟩ := seg_middle.mp h
  obtain ⟨-, hney, hdy, hr⟩ := seg_middle.mp hrest
  have hsize := sizeField.set_eqOn m x.addr size (show _ ≤ sizeofSpaceNode by decide)
  have heq : Set.EqOn (VM.absorb m x.addr size y.addr) m x.recordᶜ := absorb_eqOn m _ _ _
  have hy : y ∈ mid ++ y :: r := List.mem_append_right _ List.mem_cons_self
  have hnexty : nextField.get (sizeField.set m x.addr size) y.addr = nextField.get m y.addr :=
    nextField.get_congr (eqOn_of_disjoint hsize
      (disjoint_record_right (x.start_le_stop.trans (hxr y hy)))) (by decide)
  have hnext : nextField.get (VM.absorb m x.addr size y.addr) x.addr =
      nextField.get m y.addr := by
    rw [VM.absorb, Field.get_set_self, hnexty]
    exact Nat.mod_eq_of_lt (next_lt m y.addr)
  have hden : Denotes (VM.absorb m x.addr size y.addr) (x.resize (size % 2 ^ 32)) := by
    refine ⟨?_, ?_, ?_⟩
    · simp (disch := decide) only [VM.absorb, Block.resize, Field.get_set_of_apart]
      exact hdx.start
    · simp (disch := decide) only [VM.absorb, Block.resize, Field.get_set_of_apart,
        Field.get_set_self]
      rfl
    · simp (disch := decide) only [VM.absorb, Block.resize, Field.get_set_of_apart]
      exact hdx.free
  refine seg_middle.mpr ⟨?_, hne, hden, ?_⟩
  · exact hl.frame heq fun c hc => disjoint_record_left (hlx c hc x List.mem_cons_self)
  · rw [show (x.resize (size % 2 ^ 32)).addr = x.addr from rfl, hnext]
    refine hr.frame heq fun c hc => disjoint_record_right ?_
    exact x.start_le_stop.trans (hxr c (List.mem_append_right _ (List.mem_cons_of_mem _ hc)))

/-! ### Allocating a block -/

/-- The block in use, with the size of the request. -/
def Block.use (size : ℕ) (b : Block) : Block := ⟨b.addr, size, false⟩

/-- The rest of the block, as a block of its own. -/
def Block.rest (size : ℕ) (b : Block) : Block := ⟨b.start + size, b.size - size, true⟩

/-- The rest of the block is cut off. -/
def Block.Splits (size : ℕ) (b : Block) : Prop := sizeofSpaceNode < b.size - size

instance (size : ℕ) (b : Block) : Decidable (b.Splits size) := inferInstanceAs (Decidable (_ < _))

/-- What becomes of a free block from which `size` bytes are taken. -/
def Block.cut (size : ℕ) (b : Block) : List Block :=
  if b.Splits size then [b.use size, b.rest size] else [b.use size]

/-- The first byte behind what the allocation of `size` bytes writes: the data, and the record of
the rest. -/
def Block.needs (size : ℕ) (b : Block) : ℕ :=
  b.start + size + if b.Splits size then sizeofSpaceNode else 0

theorem Denotes.size_lt (h : Denotes m b) : b.size < 2 ^ 32 :=
  h.size ▸ VM.size_lt m b.addr

/-- The record of a block that is taken. -/
theorem Denotes.use {size : ℕ} (h : Denotes m b) (hsize : size ≤ b.size) :
    Denotes (useBlock m b.addr size) (b.use size) := by
  refine ⟨(start_useBlock ..).trans h.start, ?_, ?_⟩
  · exact size_set (hsize.trans_lt h.size_lt)
  · simp (disch := decide) only [useBlock, Block.use, Field.get_set_of_apart, Field.get_set_self]
    decide

theorem Denotes.restSize {size : ℕ} (h : Denotes m b) (hsize : size ≤ b.size) :
    restSize m b.addr size = b.size - size := by
  have hlt := h.size_lt
  rw [VM.restSize, h.size]
  omega

/-- The rest of a block is put behind it. -/
theorem Seg.splitBlock {limit rest : ℕ} {junk : ℕ → UInt8} (h : Seg m p (l ++ b :: r) 0)
    (hsp : Spaced limit (l ++ b :: r)) (hused : b.free = false) (hrest : rest < 2 ^ 32)
    (hlimit : b.stop + sizeofSpaceNode < 2 ^ 64)
    (hnext : ∀ c ∈ r, b.stop + sizeofSpaceNode ≤ c.addr) :
    Seg (splitBlock m b.addr b.size rest junk) p (l ++ b :: ⟨b.stop, rest, true⟩ :: r) 0 := by
  obtain ⟨-, -, hlb⟩ := spaced_append.mp hsp
  obtain ⟨hl, hne, hden, hr⟩ := seg_middle.mp h
  have hstop : b.start + b.size = b.stop := by rw [Block.stop, hused]; rfl
  have hle := b.start_le_stop
  have hpos : b.stop ≠ 0 := by
    have : b.start = b.addr + sizeofSpaceNode := rfl
    omega
  set m₁ := putFree m b.stop (nextField.get m b.addr) b.addr rest junk with hm₁
  have hsplit : VM.splitBlock m b.addr b.size rest junk = nextField.set m₁ b.addr b.stop := by
    rw [VM.splitBlock, hden.start, hstop]
  have heq₁ : Set.EqOn m₁ m (Set.Ico b.stop (b.stop + sizeofSpaceNode))ᶜ := putFree_eqOn ..
  have heq₂ : Set.EqOn (nextField.set m₁ b.addr b.stop) m₁ b.recordᶜ :=
    nextField.set_eqOn m₁ b.addr b.stop (show _ ≤ sizeofSpaceNode by decide)
  have hrecord : Set.EqOn m₁ m b.record :=
    eqOn_of_disjoint heq₁ (disjoint_Ico (Or.inr hle))
  have hnew :
      Set.EqOn (nextField.set m₁ b.addr b.stop) m₁ (Set.Ico b.stop (b.stop + sizeofSpaceNode)) :=
    eqOn_of_disjoint heq₂ (disjoint_Ico (Or.inl hle))
  have hother (c : Block) (h₁ : Disjoint (Set.Ico b.stop (b.stop + sizeofSpaceNode)) c.record)
      (h₂ : Disjoint b.record c.record) :
      Set.EqOn (nextField.set m₁ b.addr b.stop) m c.record :=
    (eqOn_of_disjoint heq₂ h₂).trans (eqOn_of_disjoint heq₁ h₁)
  have hdenb : Denotes (nextField.set m₁ b.addr b.stop) b := by
    have hden₁ := hden.congr hrecord
    refine ⟨?_, ?_, ?_⟩
    · rw [Field.get_set_of_apart (by decide), hden₁.start]
    · rw [Field.get_set_of_apart (by decide), hden₁.size]
    · rw [Field.get_set_of_apart (by decide), hden₁.free]
  have hdennew : Denotes (nextField.set m₁ b.addr b.stop) ⟨b.stop, rest, true⟩ := by
    refine Denotes.congr ⟨?_, ?_, ?_⟩ hnew
    · exact start_putFree hlimit
    · rw [hm₁, size_putFree, Nat.mod_eq_of_lt hrest]
    · rw [hm₁, free_putFree]
      exact ⟨fun _ => rfl, fun _ => one_ne_zero⟩
  rw [hsplit]
  refine seg_middle.mpr ⟨?_, hne, hdenb, ?_⟩
  · refine hl.congr fun c hc => hother c ?_ ?_
    · have := hlb c hc b List.mem_cons_self
      have : b.start = b.addr + sizeofSpaceNode := rfl
      have := c.start_le_stop
      exact disjoint_Ico (Or.inr (show c.start ≤ _ by omega))
    · exact disjoint_record_left (hlb c hc b List.mem_cons_self)
  · rw [next_set (by omega)]
    refine ⟨rfl, hpos, hdennew, ?_⟩
    rw [nextField.get_congr hnew (by decide), hm₁, next_putFree (next_lt m b.addr), ← hm₁]
    refine hr.congr fun c hc => hother c ?_ ?_
    · exact disjoint_record_right (hnext c hc)
    · exact disjoint_record_right (hle.trans ((Nat.le_add_right _ _).trans (hnext c hc)))

/-- Making a free block smaller than its room, or using it, keeps the spacing. -/
theorem Spaced.setMiddle {limit : ℕ} {b' : Block} (h : Spaced limit (l ++ b :: r))
    (haddr : b'.addr = b.addr) (hlimit : b'.stop ≤ limit) (hnext : ∀ c ∈ r, b'.stop ≤ c.addr) :
    Spaced limit (l ++ b' :: r) := by
  obtain ⟨hl, hb, hlb⟩ := spaced_append.mp h
  obtain ⟨-, hr, -⟩ := spaced_cons.mp hb
  refine spaced_append.mpr ⟨hl, spaced_cons.mpr ⟨hlimit, hr, hnext⟩, fun c hc d hd => ?_⟩
  rcases List.mem_cons.mp hd with rfl | hd
  · rw [haddr]
    exact hlb c hc b List.mem_cons_self
  · exact hlb c hc d (List.mem_cons_of_mem _ hd)

/-- A block put behind another one keeps the spacing. -/
theorem Spaced.insertBehind {limit : ℕ} {c : Block} (h : Spaced limit (l ++ b :: r))
    (hbc : b.stop ≤ c.addr) (hlimit : c.stop ≤ limit) (hnext : ∀ d ∈ r, c.stop ≤ d.addr) :
    Spaced limit (l ++ b :: c :: r) := by
  obtain ⟨hl, hb, hlb⟩ := spaced_append.mp h
  obtain ⟨hb', hr, hbr⟩ := spaced_cons.mp hb
  refine spaced_append.mpr ⟨hl, spaced_cons.mpr
    ⟨hb', spaced_cons.mpr ⟨hlimit, hr, hnext⟩, fun d hd => ?_⟩, fun d hd e he => ?_⟩
  · rcases List.mem_cons.mp hd with rfl | hd
    · exact hbc
    · exact hbr d hd
  · rcases List.mem_cons.mp he with rfl | he
    · exact hlb d hd e List.mem_cons_self
    rcases List.mem_cons.mp he with rfl | he
    · have := hlb d hd b List.mem_cons_self
      have : b.addr ≤ b.start := Nat.le_add_right ..
      have := b.start_le_stop
      omega
    · exact hlb d hd e (List.mem_cons_of_mem _ he)

theorem Block.stop_use (size : ℕ) (b : Block) : (b.use size).stop = b.start + size := rfl

/-- `createSpace` cuts the block. -/
theorem seg_createSpace {limit size : ℕ} (junk : ℕ → UInt8) (h : Seg m p (l ++ b :: r) 0)
    (hsp : Spaced limit (l ++ b :: r)) (hlimit : limit < 2 ^ 64) (hfree : b.free = true)
    (hsize : size ≤ b.size) (hfit : b.needs size ≤ limit) (hnext : ∀ c ∈ r, b.needs size ≤ c.addr) :
    ∃ m', createSpace m b.addr size junk = (true, m') ∧ startField.get m' b.addr = b.start ∧
      Seg m' p (l ++ (b.cut size ++ r)) 0 ∧ Spaced limit (l ++ (b.cut size ++ r)) := by
  obtain ⟨-, -, hden, -⟩ := seg_middle.mp h
  have hneeds : (b.use size).stop ≤ b.needs size := Nat.le_add_right ..
  set m₂ := useBlock m b.addr size with hm₂
  have hcreate : createSpace m b.addr size junk =
      (true, if b.Splits size then splitBlock m₂ b.addr size (b.size - size) junk else m₂) := by
    rw [createSpace_of_free m size junk (hden.free.mpr hfree), hden.restSize hsize]
    rfl
  have hseg₂ : Seg m₂ p (l ++ b.use size :: r) 0 :=
    h.setMiddle hsp (useBlock_eqOn m b.addr size) (hden.use hsize) rfl (next_useBlock ..)
  have hsp₂ : Spaced limit (l ++ b.use size :: r) :=
    hsp.setMiddle rfl (hneeds.trans hfit) fun c hc => hneeds.trans (hnext c hc)
  rw [hcreate, Block.cut]
  by_cases hsplit : b.Splits size
  · have hneeds' : b.needs size = (b.use size).stop + sizeofSpaceNode := by
      rw [Block.needs, if_pos hsplit, Block.stop_use]
    rw [hneeds'] at hfit hnext
    have hseg₃ : Seg (splitBlock m₂ b.addr size (b.size - size) junk) p
        (l ++ b.use size :: b.rest size :: r) 0 :=
      hseg₂.splitBlock hsp₂ rfl (by have := hden.size_lt; omega) (hfit.trans_lt hlimit) hnext
    refine ⟨_, rfl, ?_, ?_, ?_⟩
    · rw [if_pos hsplit]
      exact (seg_middle.mp hseg₃).2.2.1.start
    · rw [if_pos hsplit, if_pos hsplit]
      exact hseg₃
    · rw [if_pos hsplit]
      refine hsp₂.insertBehind ?_ hfit hnext
      exact le_rfl
  · refine ⟨_, rfl, ?_, ?_, ?_⟩
    · rw [if_neg hsplit]
      exact (seg_middle.mp hseg₂).2.2.1.start
    · rw [if_neg hsplit, if_neg hsplit]
      exact hseg₂
    · rw [if_neg hsplit]
      exact hsp₂

/-! ### Freeing a block -/

/-- The data of the blocks in use. -/
def usedData (bs : List Block) : List (ℕ × ℕ) :=
  (bs.filter fun b => !b.free).map fun b => (b.start, b.size)

theorem usedData_append (l r : List Block) : usedData (l ++ r) = usedData l ++ usedData r := by
  rw [usedData, List.filter_append, List.map_append]
  rfl

theorem usedData_cons_free (h : b.free = true) (r : List Block) :
    usedData (b :: r) = usedData r := by
  rw [usedData, List.filter_cons_of_neg (by simp [h])]
  rfl

theorem usedData_middle (h : b.free = true) (l r : List Block) :
    usedData (l ++ b :: r) = usedData l ++ usedData r := by
  rw [usedData_append, usedData_cons_free h]

theorem usedData_resize (h : b.free = true) (size : ℕ) (l r : List Block) :
    usedData (l ++ b.resize size :: r) = usedData l ++ usedData r :=
  usedData_middle (b := b.resize size) h l r

theorem usedData_cons_used (h : b.free = false) (r : List Block) :
    usedData (b :: r) = (b.start, b.size) :: usedData r := by
  rw [usedData, List.filter_cons_of_pos (by simp [h])]
  rfl

theorem Spaced.sublist {limit : ℕ} (h : Spaced limit bs) (hl : l.Sublist bs) : Spaced limit l :=
  ⟨h.pairwise.sublist hl, fun b hb => h.stop_le b (hl.subset hb)⟩

/-- The block, marked as free. -/
def Block.release (b : Block) : Block := ⟨b.addr, b.size, true⟩

/-- The size that the record of a free block says does not matter for the spacing. -/
theorem Spaced.setSize {limit size : ℕ} (h : Spaced limit (l ++ b :: r)) (hfree : b.free = true) :
    Spaced limit (l ++ b.resize size :: r) := by
  have hstop : (b.resize size).stop = b.stop := by
    rw [Block.stop, Block.stop, Block.resize, hfree]
    rfl
  obtain ⟨-, hb, -⟩ := spaced_append.mp h
  obtain ⟨hb', -, hbr⟩ := spaced_cons.mp hb
  exact h.setMiddle rfl (hstop ▸ hb') fun c hc => hstop ▸ hbr c hc

/-- Marking a block as free. -/
theorem Seg.markFree {limit : ℕ} (h : Seg m p (l ++ b :: r) q) (hsp : Spaced limit (l ++ b :: r)) :
    Seg (markFree m b.addr) p (l ++ b.release :: r) q := by
  obtain ⟨-, -, hden, -⟩ := seg_middle.mp h
  refine h.setMiddle hsp (markFree_eqOn m b.addr) ⟨?_, ?_, ?_⟩ rfl ?_
  · simp (disch := decide) only [VM.markFree, Block.release, Field.get_set_of_apart]
    exact hden.start
  · simp (disch := decide) only [VM.markFree, Block.release, Field.get_set_of_apart]
    exact hden.size
  · simp (disch := decide) only [VM.markFree, Block.release, Field.get_set_of_apart,
      Field.get_set_self]
    decide
  · simp (disch := decide) only [VM.markFree, Field.get_set_of_apart]

theorem Spaced.release {limit : ℕ} (h : Spaced limit (l ++ b :: r)) :
    Spaced limit (l ++ b.release :: r) := by
  have hstop : b.release.stop ≤ b.stop := Nat.add_le_add_left (Nat.zero_le _) _
  obtain ⟨-, hb, -⟩ := spaced_append.mp h
  obtain ⟨hb', -, hbr⟩ := spaced_cons.mp hb
  exact h.setMiddle rfl (hstop.trans hb') fun c hc => hstop.trans (hbr c hc)

/-- The neighbour `x` is there and free. -/
def Mergeable (m : Memory) (x : ℕ) : Prop := x ≠ 0 ∧ freeField.get m x ≠ 0

instance (m : Memory) (x : ℕ) : Decidable (Mergeable m x) := inferInstanceAs (Decidable (_ ∧ _))

/-- The four ways in which the neighbours of a freed block are joined with it. -/
theorem coalesce_eq (m : Memory) (n a b : ℕ) :
    (Mergeable m a ∧ Mergeable m b ∧ coalesce m n a b =
        absorb m a (sizeField.get m n + sizeField.get m b + 2 * sizeofSpaceNode) b) ∨
      (Mergeable m a ∧ ¬ Mergeable m b ∧
        coalesce m n a b = absorb m a (sizeField.get m n + sizeofSpaceNode) n) ∨
      (¬ Mergeable m a ∧ Mergeable m b ∧
        coalesce m n a b = absorb m n (sizeField.get m b + sizeofSpaceNode) b) ∨
      (¬ Mergeable m a ∧ ¬ Mergeable m b ∧ coalesce m n a b = m) := by
  by_cases ha : a = 0 <;> by_cases hb : b = 0 <;> by_cases hfa : freeField.get m a = 0 <;>
    by_cases hfb : freeField.get m b = 0 <;> simp [coalesce, Mergeable, ha, hb, hfa, hfb]

/-- `removeSpace` writes the record of the block and, if the block that `prev` names is free, the
record of that one. -/
theorem removeSpace_apply (m : Memory) {ptr x : ℕ}
    (hn : x ∉ Set.Ico (ptr - sizeofSpaceNode) (ptr - sizeofSpaceNode + sizeofSpaceNode))
    (hprev : Mergeable (markFree m (ptr - sizeofSpaceNode))
        (prevField.get m (ptr - sizeofSpaceNode)) →
      x ∉ Set.Ico (prevField.get m (ptr - sizeofSpaceNode))
        (prevField.get m (ptr - sizeofSpaceNode) + sizeofSpaceNode)) :
    removeSpace m ptr x = m x := by
  rw [removeSpace]
  dsimp only
  generalize ptr - sizeofSpaceNode = n at hn hprev ⊢
  split_ifs with hfree
  · rfl
  have hmark := markFree_eqOn m n hn
  rcases coalesce_eq (markFree m n) n (prevField.get m n) (nextField.get m n) with
    ⟨ha, -, heq⟩ | ⟨ha, -, heq⟩ | ⟨-, -, heq⟩ | ⟨-, -, heq⟩
  · rw [heq, absorb_eqOn _ _ _ _ (hprev ha), hmark]
  · rw [heq, absorb_eqOn _ _ _ _ (hprev ha), hmark]
  · rw [heq, absorb_eqOn _ _ _ _ hn, hmark]
  · rw [heq, hmark]

/-- What freeing the block `b` makes of the list `l ++ b :: r`, when the block that is found by
`prev` is joined with it (`P`), and when the one that is found by `next` is (`N`). -/
inductive Joins (P N : Prop) (b : Block) : List Block → List Block → List Block → Prop
  | both (hP : P) (hN : N) (l r : List Block) (x y : Block) (hx : x.free = true)
      (hy : y.free = true) :
      Joins P N b (l ++ [x]) (y :: r)
        (l ++ x.resize ((b.size + y.size + 2 * sizeofSpaceNode) % 2 ^ 32) :: r)
  | prev (hP : P) (hN : ¬ N) (l r : List Block) (x : Block) (hx : x.free = true)
      (hr : ∀ y ∈ r.head?, y.free = false) :
      Joins P N b (l ++ [x]) r (l ++ x.resize ((b.size + sizeofSpaceNode) % 2 ^ 32) :: r)
  | next (hP : ¬ P) (hN : N) (l r : List Block) (y : Block) (hy : y.free = true) :
      Joins P N b l (y :: r) (l ++ b.release.resize ((y.size + sizeofSpaceNode) % 2 ^ 32) :: r)
  | none (hP : ¬ P) (hN : ¬ N) (l r : List Block) (hr : ∀ y ∈ r.head?, y.free = false) :
      Joins P N b l r (l ++ b.release :: r)

theorem Joins.usedData_eq {P N : Prop} (h : Joins P N b l r bs) :
    usedData bs = usedData l ++ usedData r := by
  cases h with
  | both hP hN l r x y hx hy =>
    rw [usedData_resize hx, usedData_middle hx, usedData_cons_free hy]
    simp [usedData]
  | prev hP hN l r x hx hr =>
    rw [usedData_resize hx, usedData_middle hx]
    simp [usedData]
  | next hP hN l r y hy => rw [usedData_resize rfl, usedData_cons_free hy]
  | none hP hN l r hr => exact usedData_middle rfl l r

/-- **Freeing.** `removeSpace` joins the block with its free neighbours, when the block that `prev`
names is the one before it on the list, or is not free. -/
theorem seg_removeSpace {limit : ℕ} (h : Seg m p (l ++ b :: r) 0)
    (hsp : Spaced limit (l ++ b :: r)) (hused : b.free = false)
    (hprev : Mergeable (markFree m b.addr) (prevField.get m b.addr) →
      ∃ l' x, l = l' ++ [x] ∧ prevField.get m b.addr = x.addr) :
    ∃ bs, Seg (removeSpace m b.start) p bs 0 ∧ Spaced limit bs ∧
      Joins (Mergeable (markFree m b.addr) (prevField.get m b.addr))
        (Mergeable (markFree m b.addr) (nextField.get m b.addr)) b l r bs := by
  obtain ⟨-, -, hden, hr⟩ := seg_middle.mp h
  have hremove : removeSpace m b.start =
      coalesce (markFree m b.addr) b.addr (prevField.get m b.addr) (nextField.get m b.addr) := by
    have hn : b.start - sizeofSpaceNode = b.addr := Nat.add_sub_cancel ..
    rw [removeSpace, hn]
    exact if_neg fun hf => by simp [hden.free.mp hf] at hused
  have h₁ := h.markFree hsp
  have hsp₁ := hsp.release
  obtain ⟨-, -, hden₁, hr₁⟩ := seg_middle.mp h₁
  have hsize : sizeField.get (markFree m b.addr) b.addr = b.size := hden₁.size
  have hnext : nextField.get (markFree m b.addr) b.release.addr = nextField.get m b.addr := by
    rw [markFree, show b.release.addr = b.addr from rfl]
    simp (disch := decide) only [Field.get_set_of_apart]
  rw [hnext] at hr₁
  -- the block behind
  have hbehind {c : Block} {r' : List Block} (hcr : r = c :: r') : nextField.get m b.addr = c.addr ∧
      sizeField.get (markFree m b.addr) c.addr = c.size ∧
      (Mergeable (markFree m b.addr) (nextField.get m b.addr) ↔ c.free = true) := by
    rw [hcr] at hr₁
    obtain ⟨haddr, hne, hdc, -⟩ := hr₁
    refine ⟨haddr, hdc.size, ?_⟩
    rw [Mergeable, ← hdc.free, ← haddr]
    exact and_iff_right hne
  have hmergeNext (hm : Mergeable (markFree m b.addr) (nextField.get m b.addr)) :
      ∃ c r', r = c :: r' ∧ c.free = true := by
    cases r with
    | nil => exact absurd hr hm.1
    | cons c r' => exact ⟨c, r', rfl, (hbehind rfl).2.2.mp hm⟩
  have hkeepNext (hm : ¬ Mergeable (markFree m b.addr) (nextField.get m b.addr)) :
      ∀ y ∈ r.head?, y.free = false := by
    intro y hy
    obtain ⟨r', hr'⟩ := List.head?_eq_some_iff.mp hy
    exact Bool.eq_false_iff.mpr fun hf => hm ((hbehind hr').2.2.mpr hf)
  -- the block in front, when it is free
  have hmergePrev (hm : Mergeable (markFree m b.addr) (prevField.get m b.addr)) :
      ∃ l' x, l = l' ++ [x] ∧ prevField.get m b.addr = x.addr ∧ x.free = true := by
    obtain ⟨l', x, rfl, hx⟩ := hprev hm
    rw [List.append_assoc, List.singleton_append] at h₁
    obtain ⟨-, -, hdx, -⟩ := seg_middle.mp h₁
    exact ⟨l', x, rfl, hx, hdx.free.mp (hx ▸ hm.2)⟩
  rw [hremove]
  rcases coalesce_eq (markFree m b.addr) b.addr (prevField.get m b.addr)
    (nextField.get m b.addr) with ⟨ha, hb, heq⟩ | ⟨ha, hb, heq⟩ | ⟨ha, hb, heq⟩ | ⟨ha, hb, heq⟩
  · obtain ⟨l', x, rfl, hx, hxf⟩ := hmergePrev ha
    obtain ⟨c, r', rfl, hcf⟩ := hmergeNext hb
    obtain ⟨hc, hcsize, -⟩ := hbehind rfl
    have hjoin := Joins.both (b := b) ha hb l' r' x c hxf hcf
    rw [List.append_assoc, List.singleton_append] at h₁ hsp₁
    have hsub : (l' ++ x :: r').Sublist (l' ++ x :: b.release :: c :: r') :=
      (List.Sublist.refl l').append (((List.sublist_cons_self c r').cons _).cons_cons x)
    refine ⟨_, ?_, (hsp₁.sublist hsub).setSize hxf, hjoin⟩
    rw [heq, hx, hc, hsize, hcsize]
    exact Seg.absorb (y := c) _ [b.release] h₁ hsp₁
  · obtain ⟨l', x, rfl, hx, hxf⟩ := hmergePrev ha
    have hjoin := Joins.prev (b := b) ha hb l' r x hxf (hkeepNext hb)
    rw [List.append_assoc, List.singleton_append] at h₁ hsp₁
    have hsub : (l' ++ x :: r).Sublist (l' ++ x :: b.release :: r) :=
      (List.Sublist.refl l').append ((List.sublist_cons_self _ r).cons_cons x)
    refine ⟨_, ?_, (hsp₁.sublist hsub).setSize hxf, hjoin⟩
    rw [heq, hx, hsize]
    exact Seg.absorb (y := b.release) _ [] h₁ hsp₁
  · obtain ⟨c, r', rfl, hcf⟩ := hmergeNext hb
    obtain ⟨hc, hcsize, -⟩ := hbehind rfl
    have hsub : (l ++ b.release :: r').Sublist (l ++ b.release :: c :: r') :=
      (List.Sublist.refl l).append ((List.sublist_cons_self c r').cons_cons _)
    refine ⟨_, ?_, (hsp₁.sublist hsub).setSize rfl, Joins.next ha hb l r' c hcf⟩
    rw [heq, hc, hcsize]
    exact Seg.absorb (x := b.release) (y := c) _ [] h₁ hsp₁
  · rw [heq]
    exact ⟨_, h₁, hsp₁, Joins.none ha hb l r (hkeepNext hb)⟩

end OSDesign.VM
