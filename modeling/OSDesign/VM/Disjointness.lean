import Mathlib.Tactic
import OSDesign.Lib.Transition
import OSDesign.Lib.ListUpdate
import OSDesign.VM.BlockList

/-!
# Allocator disjointness

A region starts as one free block; blocks are allocated by first fit, written and freed. The data of
the blocks in use lie in the region, do not overlap each other and do not overlap the records of the
list (`allocator_disjointness`), in every run in which an allocated block fits in front of the next
record, and in which the record that `prev` names is really the one before the freed block.

Neither is so in general. The record of the rest of a block that is cut says 56 bytes too many, so
that a block at the end of the region can be handed out that reaches over it
(`allocation_leaves_region`); and neither `createSpace` nor `removeSpace` updates the field `prev`
of the block behind.

## Main definitions

* `RegionInit`, `Region`, `RegionEvent`, `regionStep`, `RegionAllowed`, `RegionInv`.

## Main results

* `allocator_disjointness`, `allocation_leaves_region`.
-/

namespace OSDesign.VM

open Transition ListUpdate ByteMemory

/-! ### Regions -/

/-- `swapclock`. -/
def swapclockField : Field := ⟨52, 1⟩

/-- The record that `init` puts at the start of the memory of the operating system. It does not set
`reference` and `dataStartsAnotherPage`. -/
def initOSRegion (m : Memory) (mem : ℕ) (junk : ℕ → UInt8) : Memory :=
  let pos := mem + osReservedStart
  let m := paste m pos junk sizeofSpaceNode
  let m := freeField.set m pos 1
  let m := nextField.set m pos 0
  let m := prevField.set m pos 0
  let m := sizeField.set m pos (memoryStart - osReservedStart - sizeofSpaceNode)
  let m := startField.set m pos (pos + sizeofSpaceNode)
  let m := pidField.set m pos 0
  let m := orderField.set m pos 1
  swapclockField.set m pos 0

theorem initOSRegion_eqOn (m : Memory) (mem : ℕ) (junk : ℕ → UInt8) :
    Set.EqOn (initOSRegion m mem junk) m
      (Set.Ico (mem + osReservedStart) (mem + osReservedStart + sizeofSpaceNode))ᶜ := by
  intro x hx
  rw [initOSRegion, swapclockField.set_eqOn _ _ _ (by decide) hx,
    orderField.set_eqOn _ _ _ (by decide) hx, pidField.set_eqOn _ _ _ (by decide) hx,
    startField.set_eqOn _ _ _ (by decide) hx, sizeField.set_eqOn _ _ _ (by decide) hx,
    prevField.set_eqOn _ _ _ (by decide) hx, nextField.set_eqOn _ _ _ (by decide) hx,
    freeField.set_eqOn _ _ _ (by decide) hx, paste_eqOn _ _ _ _ hx]

/-- A region of `len` bytes at `base` has been initialised as one free block: by `initializeSpace`,
or by `init` for the memory of the operating system. -/
inductive RegionInit : Memory → ℕ → ℕ → Prop
  | page (m : Memory) (base len : ℕ) (junk : ℕ → UInt8) (hbase : base ≠ 0)
      (hlen : sizeofSpaceNode < len) (hend : base + len < 2 ^ 64) :
      RegionInit (initializeSpace m base len junk) base len
  | os (m : Memory) (mem : ℕ) (junk : ℕ → UInt8) (hend : mem + memoryStart < 2 ^ 64) :
      RegionInit (initOSRegion m mem junk) (mem + osReservedStart) (memoryStart - osReservedStart)

/-- The memory and the blocks in use, each with the address that was returned and the size that was
asked for. -/
structure Region where
  mem : Memory
  live : List (ℕ × ℕ)

/-- An allocation, the freeing of a block, or a write of the owner of a block. -/
inductive RegionEvent where
  | alloc (size : ℕ) (junk : ℕ → UInt8)
  | free (ptr : ℕ)
  | write (a : ℕ) (v : UInt8)

/-- The addresses of the records on the list, up to `fuel` of them. -/
def blockAddrs (m : Memory) : ℕ → ℕ → List ℕ
  | 0, _ => []
  | fuel + 1, n => if n = 0 then [] else n :: blockAddrs m fuel (nextField.get m n)

variable (base len : ℕ)

/-- One step in a region of `len` bytes at `base`. A list of records in it has at most `len`
entries. -/
def regionStep (s : Region) : RegionEvent → Option Region
  | .alloc size junk =>
    (getFreeElementFrom (len + 1) s.mem base size junk).map fun (ptr, m) =>
      ⟨m, if ptr = 0 then s.live else (ptr, size) :: s.live⟩
  | .free ptr =>
    if ptr ∈ s.live.map Prod.fst then
      some ⟨removeSpace s.mem ptr, s.live.filter fun b => b.1 ≠ ptr⟩
    else none
  | .write a v =>
    if ∃ b ∈ s.live, b.1 ≤ a ∧ a < b.1 + b.2 then
      some { s with mem := Function.update s.mem a v }
    else none

/-- The first byte behind the room of the block `n`. -/
def roomEnd (m : Memory) (n : ℕ) : ℕ :=
  if nextField.get m n = 0 then base + len else nextField.get m n

/-- The block that is handed out, and the record of the rest if it is cut, end in front of the next
record or the end of the region; and the record that `prev` of a freed block names is `NULL`, or in
use, or the one before the block on the list. -/
def RegionAllowed (s : Region) : RegionEvent → Prop
  | .alloc size _ => ∀ n ∈ findFreeSpace s.mem size (len + 1) base, n ≠ 0 →
      n + sizeofSpaceNode + size +
          (if sizeofSpaceNode < sizeField.get s.mem n - size then sizeofSpaceNode else 0) ≤
        roomEnd base len s.mem n
  | .free ptr =>
      Mergeable (markFree s.mem (ptr - sizeofSpaceNode))
          (prevField.get s.mem (ptr - sizeofSpaceNode)) →
        prevField.get s.mem (ptr - sizeofSpaceNode) ∈ blockAddrs s.mem (len + 1) base ∧
          nextField.get s.mem (prevField.get s.mem (ptr - sizeofSpaceNode)) = ptr - sizeofSpaceNode
  | .write _ _ => True

instance (s : Region) (e : RegionEvent) : Decidable (RegionAllowed base len s e) := by
  rcases e <;> dsimp only [RegionAllowed] <;> infer_instance

/-- The records form the list `bs` of blocks in the region, and the blocks in use are those handed
out. -/
def RegionBlocks (s : Region) (bs : List Block) : Prop :=
  Seg s.mem base bs 0 ∧ Spaced (base + len) bs ∧ s.live.Perm (usedData bs)

/-- The records form a list of blocks in the region, and the blocks in use are those handed out. -/
def RegionInv (s : Region) : Prop :=
  ∃ bs, Seg s.mem base bs 0 ∧ Spaced (base + len) bs ∧ s.live.Perm (usedData bs)

variable {base len}

/-! ### Lists of blocks -/

section Lists

variable {m : Memory} {p limit : ℕ} {b c : Block} {bs l r : List Block}

/-- Two blocks of a region are the same or do not overlap. -/
theorem Spaced.apart (h : Spaced limit bs) (hb : b ∈ bs) (hc : c ∈ bs) :
    b = c ∨ b.stop ≤ c.addr ∨ c.stop ≤ b.addr := by
  induction bs with
  | nil => cases hb
  | cons d bs ih =>
    obtain ⟨-, hbs, hd⟩ := spaced_cons.mp h
    rcases List.mem_cons.mp hb with rfl | hb' <;> rcases List.mem_cons.mp hc with rfl | hc'
    · exact Or.inl rfl
    · exact Or.inr (Or.inl (hd c hc'))
    · exact Or.inr (Or.inr (hd b hb'))
    · exact ih hbs hb' hc'

theorem Block.addr_lt_stop (b : Block) : b.addr + sizeofSpaceNode ≤ b.stop := b.start_le_stop

theorem Spaced.nodup_addr (h : Spaced limit bs) : (bs.map Block.addr).Nodup := by
  rw [List.Nodup, List.pairwise_map]
  refine h.pairwise.imp fun {b c} hbc => ?_
  have := b.addr_lt_stop
  have : sizeofSpaceNode = 56 := rfl
  omega

/-- No block of the list is in front of the first. -/
theorem Spaced.le_addr (h : Spaced limit bs) (hseg : Seg m p bs 0) (hb : b ∈ bs) :
    p ≤ b.addr := by
  cases bs with
  | nil => cases hb
  | cons c bs =>
    obtain ⟨rfl, -⟩ := hseg.head
    obtain ⟨-, -, hc⟩ := spaced_cons.mp h
    rcases List.mem_cons.mp hb with rfl | hb
    · exact le_rfl
    · have := c.addr_lt_stop
      have := hc b hb
      omega

/-- A region of `len` bytes has room for `len / 56` records. -/
theorem Spaced.length_le (h : Spaced limit bs) (hp : ∀ b ∈ bs, p ≤ b.addr) (hlimit : p ≤ limit) :
    p + sizeofSpaceNode * bs.length ≤ limit := by
  induction bs generalizing p with
  | nil => simpa using hlimit
  | cons b bs ih =>
    obtain ⟨hb, hbs, hrest⟩ := spaced_cons.mp h
    have h₁ := ih hbs hrest hb
    have h₂ := hp b List.mem_cons_self
    have h₃ := b.addr_lt_stop
    rw [List.length_cons, Nat.mul_succ]
    omega

theorem Seg.length_lt (h : Spaced (base + len) bs) (hseg : Seg m base bs 0) :
    bs.length < len + 1 := by
  have hle := h.length_le (fun b hb => h.le_addr hseg hb) (Nat.le_add_right base len)
  rw [show sizeofSpaceNode = 56 from rfl] at hle
  omega

theorem blockAddrs_eq {fuel : ℕ} (h : Seg m p bs 0) (hfuel : bs.length < fuel) :
    blockAddrs m fuel p = bs.map Block.addr := by
  induction bs generalizing p fuel with
  | nil =>
    obtain ⟨fuel, rfl⟩ := Nat.exists_eq_succ_of_ne_zero (Nat.ne_zero_of_lt hfuel)
    rw [blockAddrs, if_pos (show p = 0 from h)]
    rfl
  | cons b bs ih =>
    obtain ⟨fuel, rfl⟩ := Nat.exists_eq_succ_of_ne_zero (Nat.ne_zero_of_lt hfuel)
    obtain ⟨rfl, hp, -, hseg⟩ := h
    rw [blockAddrs, if_neg hp, ih hseg (by simpa using hfuel)]
    rfl

theorem mem_usedData {x : ℕ × ℕ} :
    x ∈ usedData bs ↔ ∃ b ∈ bs, b.free = false ∧ (b.start, b.size) = x := by
  simp only [usedData, List.mem_map, List.mem_filter, Bool.not_eq_true', and_assoc]

theorem Block.stop_used (h : b.free = false) : b.stop = b.start + b.size := by
  rw [Block.stop, h]
  rfl

/-- Where a block ends that is followed by the others. -/
theorem roomEnd_le (h : Seg m base (l ++ b :: r) 0) (hsp : Spaced (base + len) (l ++ b :: r)) :
    roomEnd base len m b.addr ≤ base + len ∧ ∀ c ∈ r, roomEnd base len m b.addr ≤ c.addr := by
  obtain ⟨-, -, -, hr⟩ := seg_middle.mp h
  obtain ⟨-, hb, -⟩ := spaced_append.mp hsp
  obtain ⟨-, hspr, -⟩ := spaced_cons.mp hb
  cases r with
  | nil => exact ⟨by rw [roomEnd, if_pos (show nextField.get m b.addr = 0 from hr)], nofun⟩
  | cons c r =>
    obtain ⟨haddr, hne⟩ := hr.head
    rw [roomEnd, if_neg (haddr ▸ hne), haddr]
    obtain ⟨hc, -, hcr⟩ := spaced_cons.mp hspr
    have := c.addr_lt_stop
    refine ⟨by omega, fun d hd => ?_⟩
    rcases List.mem_cons.mp hd with rfl | hd
    · exact le_rfl
    · have := hcr d hd
      omega

/-- The block whose link leads to `b` is the one before it. -/
theorem exists_pred {a : ℕ} (h : Seg m p (l ++ b :: r) 0) (hsp : Spaced limit (l ++ b :: r))
    (ha : a ∈ (l ++ b :: r).map Block.addr) (hnext : nextField.get m a = b.addr) :
    ∃ l' x, l = l' ++ [x] ∧ a = x.addr := by
  obtain ⟨x, hx, rfl⟩ := List.mem_map.mp ha
  obtain ⟨l₁, r₁, hsplit⟩ := List.append_of_mem hx
  have hseg := hsplit ▸ h
  obtain ⟨-, -, -, hr₁⟩ := seg_middle.mp hseg
  rw [hnext] at hr₁
  cases r₁ with
  | nil => exact absurd hr₁ (seg_middle.mp h).2.1
  | cons y r₂ =>
    refine ⟨l₁, x, ?_, rfl⟩
    have heq : l ++ b :: r = (l₁ ++ [x]) ++ y :: r₂ := by
      rw [hsplit, List.append_assoc]
      rfl
    exact split_unique heq hsp.nodup_addr hr₁.head.1

end Lists

/-! ### The steps -/

section Steps

variable {s s' : Region}

/-- The region starts as one free block. -/
theorem regionBlocks_init {m : Memory} (h : RegionInit m base len) :
    RegionBlocks base len ⟨m, []⟩ [⟨base, sizeField.get m base, true⟩] := by
  obtain ⟨hne, hden, hnext, hlen⟩ : base ≠ 0 ∧
      Denotes m ⟨base, sizeField.get m base, true⟩ ∧ nextField.get m base = 0 ∧
      sizeofSpaceNode ≤ len := by
    cases h with
    | page m base len junk hbase hlen hend =>
      refine ⟨hbase, ⟨start_putFree (by omega), rfl, ?_⟩, next_putFree (by norm_num), hlen.le⟩
      rw [initializeSpace, free_putFree]
      exact ⟨fun _ => rfl, fun _ => one_ne_zero⟩
    | os m mem junk hend =>
      have hpos : mem + osReservedStart + sizeofSpaceNode < 2 ^ 64 := by
        have : osReservedStart + sizeofSpaceNode ≤ memoryStart := by decide
        omega
      refine ⟨by rw [osReservedStart]; omega, ⟨?_, rfl, ?_⟩, ?_, by decide⟩
      · simp (disch := decide) only [initOSRegion, Field.get_set_of_apart, Field.get_set_self]
        exact Nat.mod_eq_of_lt hpos
      · simp (disch := decide) only [initOSRegion, Field.get_set_of_apart, Field.get_set_self]
        exact ⟨fun _ => trivial, fun _ => by decide⟩
      · simp (disch := decide) only [initOSRegion, Field.get_set_of_apart, Field.get_set_self]
        rfl
  refine ⟨⟨rfl, hne, hden, hnext⟩, ?_, List.Perm.refl _⟩
  refine spaced_cons.mpr ⟨?_, ⟨List.Pairwise.nil, nofun⟩, nofun⟩
  exact Nat.add_le_add_left hlen base

/-- An allocation that finds no block, or cuts the first one that is large enough. -/
theorem RegionBlocks.alloc {size : ℕ} {junk : ℕ → UInt8} {bs : List Block}
    (h : RegionBlocks base len s bs) (hend : base + len < 2 ^ 64)
    (hok : RegionAllowed base len s (.alloc size junk))
    (hs : regionStep base len s (.alloc size junk) = some s') :
    s' = s ∧ findFreeSpace s.mem size (len + 1) base = some 0 ∨
      ∃ l b r, bs = l ++ b :: r ∧ findFreeSpace s.mem size (len + 1) base = some b.addr ∧
        b.free = true ∧ size ≤ b.size ∧
        s' = ⟨(createSpace s.mem b.addr size junk).2, (b.start, size) :: s.live⟩ ∧
        RegionBlocks base len s' (l ++ (b.cut size ++ r)) := by
  obtain ⟨hseg, hsp, hlive⟩ := h
  have hfind := findFreeSpace_eq size hseg (hseg.length_lt hsp)
  rw [regionStep, getFreeElementFrom, hfind] at hs
  cases hfirst : firstFit size bs with
  | none =>
    simp only [hfirst, Option.elim_none, Option.map_some, if_true, Option.some.injEq] at hs
    exact Or.inl ⟨hs.symm, by rw [hfind, hfirst]; rfl⟩
  | some b =>
    obtain ⟨hb, l, r, rfl, -⟩ := List.find?_eq_some_iff_append.mp hfirst
    rw [Bool.and_eq_true, decide_eq_true_eq] at hb
    obtain ⟨-, hne, hden, -⟩ := seg_middle.mp hseg
    have hroom := roomEnd_le hseg hsp
    have hneeds : b.needs size ≤ roomEnd base len s.mem b.addr := by
      have := hok b.addr (by rw [hfind, hfirst]; rfl) hne
      rwa [hden.size] at this
    obtain ⟨m', hcreate, hstart, hseg', hsp'⟩ := seg_createSpace junk hseg hsp hend hb.1
      hb.2 (hneeds.trans hroom.1) fun c hc => hneeds.trans (hroom.2 c hc)
    have hptr : b.start ≠ 0 := by
      have : b.start = b.addr + sizeofSpaceNode := rfl
      omega
    simp only [hfirst, Option.elim_some, Option.map_some, hne, if_false, hcreate, hstart, hptr,
      Option.some.injEq] at hs
    subst hs
    refine Or.inr ⟨l, b, r, rfl, ?_, hb.1, hb.2, by rw [hcreate], hseg', hsp', ?_⟩
    · rw [hfind, hfirst]
      rfl
    have hcut : usedData (l ++ (b.cut size ++ r)) =
        usedData l ++ (b.start, size) :: usedData r := by
      rw [usedData_append, Block.cut]
      split_ifs
      · rw [List.cons_append, usedData_cons_used rfl, List.singleton_append,
          usedData_cons_free rfl]
        rfl
      · rw [List.singleton_append, usedData_cons_used rfl]
        rfl
    rw [hcut]
    rw [usedData_middle hb.1] at hlive
    exact (hlive.cons _).trans List.perm_middle.symm

/-- The block that is joined with the freed one, found by `prev`, is the one before it. -/
theorem RegionBlocks.pred {l r : List Block} {b : Block} (h : RegionBlocks base len s (l ++ b :: r))
    (hok : RegionAllowed base len s (.free b.start))
    (hm : Mergeable (markFree s.mem b.addr) (prevField.get s.mem b.addr)) :
    ∃ l' x, l = l' ++ [x] ∧ prevField.get s.mem b.addr = x.addr := by
  obtain ⟨hseg, hsp, -⟩ := h
  have haddr : b.start - sizeofSpaceNode = b.addr := Nat.add_sub_cancel ..
  have hpred := hok (by rwa [haddr])
  rw [haddr, blockAddrs_eq hseg (hseg.length_lt hsp)] at hpred
  exact exists_pred hseg hsp hpred.1 hpred.2

/-- The blocks in use without the one that is freed. -/
theorem perm_filter_usedData {limit : ℕ} {live : List (ℕ × ℕ)} {l r : List Block} {b : Block}
    (hsp : Spaced limit (l ++ b :: r)) (hused : b.free = false)
    (hlive : live.Perm (usedData (l ++ b :: r))) :
    (live.filter fun x => x.1 ≠ b.start).Perm (usedData l ++ usedData r) := by
  rw [usedData_append, usedData_cons_used hused] at hlive
  have hne {c : Block} (hc : c ∈ l ++ r) : c.start ≠ b.start := by
    intro heq
    have hnodup := hsp.nodup_addr
    rw [List.map_append, List.map_cons, List.nodup_middle, List.nodup_cons, ← List.map_append]
      at hnodup
    exact hnodup.1 (List.mem_map.mpr ⟨c, hc, Nat.add_right_cancel heq⟩)
  have hkeep {bs : List Block} (hsub : bs ⊆ l ++ r) :
      (usedData bs).filter (fun x => x.1 ≠ b.start) = usedData bs := by
    refine List.filter_eq_self.mpr fun x hx => ?_
    obtain ⟨c, hc, -, rfl⟩ := mem_usedData.mp hx
    exact decide_eq_true (hne (hsub hc))
  have hfilter := hlive.filter fun x => x.1 ≠ b.start
  rwa [List.filter_append, List.filter_cons_of_neg (by simp), hkeep (List.subset_append_left l r),
    hkeep (List.subset_append_right l r)] at hfilter

/-- The block that is freed. -/
theorem RegionBlocks.exists_block {ptr : ℕ} {bs : List Block} (h : RegionBlocks base len s bs)
    (hptr : ptr ∈ s.live.map Prod.fst) :
    ∃ l b r, bs = l ++ b :: r ∧ ptr = b.start ∧ b.free = false := by
  obtain ⟨⟨q, size⟩, hq, rfl⟩ := List.mem_map.mp hptr
  obtain ⟨b, hb, hused, hbq⟩ := mem_usedData.mp (h.2.2.mem_iff.mp hq)
  obtain ⟨rfl, rfl⟩ := Prod.mk.inj hbq
  obtain ⟨l, r, rfl⟩ := List.append_of_mem hb
  exact ⟨l, b, r, rfl, rfl, hused⟩

/-- A block in use is freed and joined with its free neighbours. -/
theorem RegionBlocks.free {ptr : ℕ} {bs : List Block} (h : RegionBlocks base len s bs)
    (hok : RegionAllowed base len s (.free ptr))
    (hs : regionStep base len s (.free ptr) = some s') :
    ∃ l b r bs', bs = l ++ b :: r ∧ ptr = b.start ∧ b.free = false ∧
      Joins (Mergeable (markFree s.mem b.addr) (prevField.get s.mem b.addr))
        (Mergeable (markFree s.mem b.addr) (nextField.get s.mem b.addr)) b l r bs' ∧
      RegionBlocks base len s' bs' := by
  obtain ⟨hseg, hsp, hlive⟩ := id h
  rw [regionStep] at hs
  split_ifs at hs with hmem
  obtain rfl := Option.some.inj hs
  obtain ⟨l, b, r, rfl, rfl, hused⟩ := h.exists_block hmem
  obtain ⟨bs', hseg', hsp', hjoins⟩ := seg_removeSpace hseg hsp hused fun hm => h.pred hok hm
  refine ⟨l, b, r, bs', rfl, rfl, hused, hjoins, hseg', hsp', ?_⟩
  rw [hjoins.usedData_eq]
  exact perm_filter_usedData hsp hused hlive

/-- The data of a block in use does not meet the records. -/
theorem RegionBlocks.disjoint_record {x : ℕ × ℕ} {bs : List Block} {c : Block}
    (h : RegionBlocks base len s bs) (hx : x ∈ s.live) (hc : c ∈ bs) :
    Disjoint (Set.Ico x.1 (x.1 + x.2)) c.record := by
  obtain ⟨-, hsp, hlive⟩ := h
  obtain ⟨b, hb, hused, rfl⟩ := mem_usedData.mp (hlive.mem_iff.mp hx)
  have hstop := Block.stop_used hused
  have hstart : b.start = b.addr + sizeofSpaceNode := rfl
  have := c.addr_lt_stop
  rcases hsp.apart hb hc with rfl | hbc | hcb
  · exact disjoint_Ico (Or.inr le_rfl)
  · exact disjoint_Ico (Or.inl (hstop ▸ hbc))
  · exact disjoint_Ico (Or.inr (show c.addr + sizeofSpaceNode ≤ b.start by omega))

/-- A change inside the data of a block in use changes no record. -/
theorem RegionBlocks.frame {m : Memory} {x : ℕ × ℕ} {bs : List Block}
    (h : RegionBlocks base len s bs) (hx : x ∈ s.live)
    (heq : Set.EqOn m s.mem (Set.Ico x.1 (x.1 + x.2))ᶜ) : RegionBlocks base len ⟨m, s.live⟩ bs :=
  ⟨h.1.frame heq fun _ hc => h.disjoint_record hx hc, h.2⟩

/-- A write of the owner of a block is a change inside its data. -/
theorem eqOn_write {a : ℕ} {v : UInt8} (hs : regionStep base len s (.write a v) = some s') :
    s'.live = s.live ∧
      ∃ x ∈ s.live, Set.EqOn s'.mem s.mem (Set.Ico x.1 (x.1 + x.2))ᶜ := by
  rw [regionStep] at hs
  split_ifs at hs with hmem
  obtain rfl := Option.some.inj hs
  obtain ⟨x, hx, hlo, hhi⟩ := hmem
  refine ⟨rfl, x, hx, fun y hy => Function.update_of_ne ?_ _ _⟩
  rintro rfl
  exact hy ⟨hlo, hhi⟩

/-- The owner of a block writes no record. -/
theorem RegionBlocks.write {a : ℕ} {v : UInt8} {bs : List Block} (h : RegionBlocks base len s bs)
    (hs : regionStep base len s (.write a v) = some s') : RegionBlocks base len s' bs := by
  obtain ⟨hlive, x, hx, heq⟩ := eqOn_write hs
  have hframe := h.frame hx heq
  rwa [← hlive] at hframe

theorem regionInv_step {e : RegionEvent} (hend : base + len < 2 ^ 64) (h : RegionInv base len s)
    (hok : RegionAllowed base len s e) (hs : regionStep base len s e = some s') :
    RegionInv base len s' := by
  obtain ⟨bs, hbs⟩ : ∃ bs, RegionBlocks base len s bs := h
  cases e with
  | alloc size junk =>
    rcases hbs.alloc hend hok hs with ⟨rfl, -⟩ | ⟨l, b, r, -, -, -, -, -, hbs'⟩
    · exact ⟨bs, hbs⟩
    · exact ⟨_, hbs'⟩
  | free ptr =>
    obtain ⟨l, b, r, bs', -, -, -, -, hbs'⟩ := hbs.free hok hs
    exact ⟨bs', hbs'⟩
  | write a v => exact ⟨bs, hbs.write hs⟩

/-- What the list of blocks says about the blocks handed out. -/
theorem RegionInv.disjoint (h : RegionInv base len s) :
    (∀ b ∈ s.live, base ≤ b.1 ∧ b.1 + b.2 ≤ base + len) ∧
      s.live.Pairwise (fun b c => b.1 + b.2 ≤ c.1 ∨ c.1 + c.2 ≤ b.1) ∧
      ∀ b ∈ s.live, ∀ n ∈ blockAddrs s.mem (len + 1) base,
        b.1 + b.2 ≤ n ∨ n + sizeofSpaceNode ≤ b.1 := by
  obtain ⟨bs, hseg, hsp, hlive⟩ := h
  refine ⟨fun x hx => ?_, ?_, fun x hx n hn => ?_⟩
  · obtain ⟨b, hb, hused, rfl⟩ := mem_usedData.mp (hlive.mem_iff.mp hx)
    have h₁ := hsp.le_addr hseg hb
    have h₂ := hsp.stop_le b hb
    rw [Block.stop_used hused] at h₂
    exact ⟨h₁.trans (Nat.le_add_right ..), h₂⟩
  · refine (hlive.pairwise_iff fun {x y} hxy => hxy.symm).mpr ?_
    rw [usedData, List.pairwise_map]
    refine (hsp.pairwise.sublist List.filter_sublist).imp_of_mem fun {b c} hb _ hbc => ?_
    have hused : b.free = false := by simpa using (List.mem_filter.mp hb).2
    rw [Block.stop_used hused] at hbc
    exact Or.inl (hbc.trans (Nat.le_add_right ..))
  · obtain ⟨b, hb, hused, rfl⟩ := mem_usedData.mp (hlive.mem_iff.mp hx)
    rw [blockAddrs_eq hseg (hseg.length_lt hsp)] at hn
    obtain ⟨c, hc, rfl⟩ := List.mem_map.mp hn
    have hstop := Block.stop_used hused
    have hstart : b.start = b.addr + sizeofSpaceNode := rfl
    rcases hsp.apart hb hc with rfl | hbc | hcb
    · exact Or.inr le_rfl
    · exact Or.inl (hstop ▸ hbc)
    · have := c.addr_lt_stop
      exact Or.inr (by omega)

end Steps

theorem RegionInit.end_lt {m : Memory} (h : RegionInit m base len) : base + len < 2 ^ 64 := by
  cases h with
  | page m base len junk hbase hlen hend => exact hend
  | os m mem junk hend =>
    have : osReservedStart ≤ memoryStart := by decide
    omega

/-- **Allocator disjointness.** In every run of a region in which the allocated blocks fit and the
field `prev` of freed blocks is right where it is followed, the data of the blocks in use lie in the
region, are pairwise disjoint and do not meet any record on the list. -/
theorem allocator_disjointness {m : Memory} (hinit : RegionInit m base len) {s : Region}
    {es : List RegionEvent} (hok : RunOk (regionStep base len) (RegionAllowed base len) ⟨m, []⟩ es)
    (hrun : run (regionStep base len) ⟨m, []⟩ es = some s) :
    (∀ b ∈ s.live, base ≤ b.1 ∧ b.1 + b.2 ≤ base + len) ∧
      s.live.Pairwise (fun b c => b.1 + b.2 ≤ c.1 ∨ c.1 + c.2 ≤ b.1) ∧
      ∀ b ∈ s.live, ∀ n ∈ blockAddrs s.mem (len + 1) base,
        b.1 + b.2 ≤ n ∨ n + sizeofSpaceNode ≤ b.1 := by
  have h := run_invariant (fun _ _ _ hi hok hs => regionInv_step hinit.end_lt hi hok hs)
    ⟨_, regionBlocks_init hinit⟩ hok hrun
  exact h.disjoint

/-- Two blocks are allocated in a page and written; the first one is freed and its space is taken
again. -/
def recycleRun : List RegionEvent :=
  [.alloc 100 fun _ => 0, .alloc 200 fun _ => 0, .write 4200 7, .free 4152, .alloc 40 fun _ => 0]

/-- The theorem at the end of that run. -/
theorem allocator_disjointness_recycle :
    ∃ s, run (regionStep 4096 4096) ⟨initializeSpace (fun _ => 0) 4096 4096 fun _ => 0, []⟩
        recycleRun = some s ∧ s.live = [(4152, 40), (4308, 200)] ∧
      (∀ b ∈ s.live, 4096 ≤ b.1 ∧ b.1 + b.2 ≤ 4096 + 4096) ∧
      s.live.Pairwise (fun b c => b.1 + b.2 ≤ c.1 ∨ c.1 + c.2 ≤ b.1) ∧
      ∀ b ∈ s.live, ∀ n ∈ blockAddrs s.mem (4096 + 1) 4096,
        b.1 + b.2 ≤ n ∨ n + sizeofSpaceNode ≤ b.1 := by
  have hend : (run (regionStep 4096 4096)
      ⟨initializeSpace (fun _ => 0) 4096 4096 fun _ => 0, []⟩ recycleRun).map Region.live =
      some [(4152, 40), (4308, 200)] := by decide +kernel
  obtain ⟨s, hrun, hlive⟩ := Option.map_eq_some_iff.mp hend
  refine ⟨s, hrun, hlive, ?_⟩
  exact allocator_disjointness
    (.page _ 4096 4096 _ (by norm_num) (by decide) (by norm_num)) (by decide +kernel) hrun

/-- In a region of 200 bytes at 4096, 10 bytes are allocated and then 134: the second block ends at
4352, 56 bytes behind the end of the region. -/
theorem allocation_leaves_region :
    ∃ s, run (regionStep 4096 200) ⟨initializeSpace (fun _ => 0) 4096 200 fun _ => 0, []⟩
        [.alloc 10 fun _ => 0, .alloc 134 fun _ => 0] = some s ∧
      ∃ b ∈ s.live, ¬ b.1 + b.2 ≤ 4096 + 200 := by
  have hend : (run (regionStep 4096 200)
      ⟨initializeSpace (fun _ => 0) 4096 200 fun _ => 0, []⟩
      [.alloc 10 fun _ => 0, .alloc 134 fun _ => 0]).map Region.live =
      some [(4218, 134), (4152, 10)] := by decide +kernel
  obtain ⟨s, hrun, hlive⟩ := Option.map_eq_some_iff.mp hend
  exact ⟨s, hrun, (4218, 134), by rw [hlive]; decide, by decide⟩

end OSDesign.VM
