import Mathlib.Tactic
import OSDesign.Thread.OSObjects

/-!
# New queues start empty

Nothing initialises the header of a list: `my_pthread_mutex_init` and `my_pthread_create` take a
block and use it as it is. The header of a new list is nevertheless zero as long as the bytes of its
`tail` and `head` are not dirty: nobody has written to them, or they were the header of a list that
was emptied, as those of destroyed mutexes are (`new_queues_empty`). But the memory of a destroyed
mutex also has the pointer `wait`, where the first fit for a later list may put its `head`
(`new_queue_on_destroyed_mutex`).

The proof needs that the objects in use keep to their blocks. It follows the bytes: what a program
has written is a set of bytes (`Evolves`), and the bytes of a block in use that are not in it are
the same as before.

## Main definitions

* `Sane`, `HeapInv`, `Evolves`, `Running`, `EmptyQueue`.

## Main results

* `new_queues_empty`, `new_queue_on_destroyed_mutex`.
-/

namespace OSDesign

open VM ByteMemory Transition

/-! ### Blocks in use -/

/-- The bytes of a block. -/
def dataBytes (b : ℕ × ℕ) : Set ℕ := Set.Ico b.1 (b.1 + b.2)

section Live

variable {base len : ℕ} {s : Region}

/-- A block in use is determined by its address. -/
theorem VM.RegionInv.eq_of_fst_eq (h : RegionInv base len s) {b c : ℕ × ℕ} (hb : b ∈ s.live)
    (hc : c ∈ s.live) (heq : b.1 = c.1) : b = c := by
  obtain ⟨bs, hseg, hsp, hlive⟩ := h
  obtain ⟨x, hx, -, rfl⟩ := mem_usedData.mp (hlive.mem_iff.mp hb)
  obtain ⟨y, hy, -, rfl⟩ := mem_usedData.mp (hlive.mem_iff.mp hc)
  have haddr : x.addr = y.addr := Nat.add_right_cancel heq
  rw [List.inj_on_of_nodup_map hsp.nodup_addr hx hy haddr]

/-- Different blocks in use have no byte in common. -/
theorem VM.RegionInv.disjoint_data (h : RegionInv base len s) {b c : ℕ × ℕ} (hb : b ∈ s.live)
    (hc : c ∈ s.live) (hne : b.1 ≠ c.1) : Disjoint (dataBytes b) (dataBytes c) := by
  obtain ⟨bs, hseg, hsp, hlive⟩ := h
  obtain ⟨x, hx, hxu, rfl⟩ := mem_usedData.mp (hlive.mem_iff.mp hb)
  obtain ⟨y, hy, hyu, rfl⟩ := mem_usedData.mp (hlive.mem_iff.mp hc)
  have h₁ := Block.stop_used hxu
  have h₂ := Block.stop_used hyu
  have h₃ : x.start = x.addr + sizeofSpaceNode := rfl
  have h₄ : y.start = y.addr + sizeofSpaceNode := rfl
  refine disjoint_Ico ?_
  dsimp only at hne ⊢
  rcases hsp.apart hx hy with rfl | hxy | hyx
  · exact absurd rfl hne
  · exact Or.inl (by omega)
  · exact Or.inr (by omega)

/-- A block in use has no byte in common with a record on the list. -/
theorem VM.RegionInv.disjoint_record (h : RegionInv base len s) {b : ℕ × ℕ} {n : ℕ}
    (hb : b ∈ s.live) (hn : n ∈ blockAddrs s.mem (len + 1) base) :
    Disjoint (Set.Ico n (n + sizeofSpaceNode)) (dataBytes b) := by
  obtain ⟨-, -, hrec⟩ := h.disjoint
  exact disjoint_Ico ((hrec b hb n hn).symm)

theorem VM.RegionInv.data_subset (h : RegionInv base len s) {b : ℕ × ℕ} (hb : b ∈ s.live) :
    base ≤ b.1 ∧ b.1 + b.2 ≤ base + len := h.disjoint.1 b hb

/-- The record before a block in use is on the list. -/
theorem VM.RegionInv.record_mem (h : RegionInv base len s) {b : ℕ × ℕ} (hb : b ∈ s.live) :
    b.1 - sizeofSpaceNode ∈ blockAddrs s.mem (len + 1) base := by
  obtain ⟨bs, hseg, hsp, hlive⟩ := h
  obtain ⟨x, hx, -, rfl⟩ := mem_usedData.mp (hlive.mem_iff.mp hb)
  rw [blockAddrs_eq hseg (hseg.length_lt hsp)]
  exact List.mem_map.mpr ⟨x, hx, (Nat.add_sub_cancel ..).symm⟩

end Live

/-! ### Dirty bytes -/

theorem touch_eq_false {dirty : ℕ → Bool} {a n x : ℕ} :
    touch dirty a n x = false ↔ dirty x = false ∧ x ∉ Set.Ico a (a + n) := by
  simp [touch]

theorem touch_of_notMem {dirty : ℕ → Bool} {a n x : ℕ} (h : x ∉ Set.Ico a (a + n)) :
    touch dirty a n x = dirty x := by
  have : ¬ (a ≤ x ∧ x < a + n) := h
  simp [touch, this]

/-- The bytes of the memory that are not dirty are 0, and the blocks lie in order. -/
structure Sane (E : HeapEnv) (s : OSHeap) : Prop where
  region : RegionInv E.base E.len ⟨s.mem, s.live⟩
  clean : ∀ x ∈ Set.Ico E.base (E.base + E.len), s.dirty x = false → s.mem x = 0

/-- The bytes of `A` are as before. -/
def KeptOn (A : Set ℕ) (s s' : OSHeap) : Prop :=
  ∀ x ∈ A, s'.mem x = s.mem x ∧ s'.dirty x = s.dirty x

variable {E : HeapEnv} {s s' s'' : OSHeap} {M : List ℕ}

/-- A change inside a block in use that keeps the bytes that are not dirty 0. -/
theorem Sane.change (h : Sane E s) {b : ℕ × ℕ} (hb : b ∈ s.live) (hlive : s'.live = s.live)
    (hkept : KeptOn (dataBytes b)ᶜ s s')
    (hclean : ∀ x ∈ dataBytes b, s'.dirty x = false → s'.mem x = 0) : Sane E s' := by
  obtain ⟨bs, hbs⟩ := h.region
  refine ⟨⟨bs, ?_⟩, fun x hx hd => ?_⟩
  · rw [hlive]
    exact RegionBlocks.frame hbs hb fun x hx => (hkept x hx).1
  · by_cases hxb : x ∈ dataBytes b
    · exact hclean x hxb hd
    · rw [(hkept x hxb).1]
      exact h.clean x hx ((hkept x hxb).2 ▸ hd)

/-! ### Allocating -/

/-- What an allocation that succeeds does. -/
structure Allocates (E : HeapEnv) (size ptr : ℕ) (s s' : OSHeap) : Prop where
  sane : Sane E s'
  ne_zero : ptr ≠ 0
  live : s'.live = (ptr, size) :: s.live
  globals : s'.globals = s.globals
  fresh : ∀ b ∈ s.live, b.1 ≠ ptr
  kept : ∀ b ∈ s'.live, KeptOn (dataBytes b) s s'

/-- The bytes that an allocation from the block `b` writes. -/
def cutBytes (b : Block) (size : ℕ) : Set ℕ :=
  b.record ∪ if b.Splits size then (b.rest size).record else ∅

/-- Outside these bytes the memory and the dirty bytes are as before. -/
theorem createSpace_kept {m : Memory} {b : Block} {size : ℕ} (dirty : ℕ → Bool)
    (junk : ℕ → UInt8) (h : Denotes m b) (hsize : size ≤ b.size) {x : ℕ}
    (hx : x ∉ cutBytes b size) :
    (createSpace m b.addr size junk).2 x = m x ∧
      touchAlloc m dirty b.start size x = dirty x := by
  rw [cutBytes, Set.mem_union, not_or] at hx
  have haddr : b.start - sizeofSpaceNode = b.addr := Nat.add_sub_cancel ..
  have hrest (hsplit : sizeofSpaceNode < restSize m b.addr size) :
      x ∉ Set.Ico (b.start + size) (b.start + size + sizeofSpaceNode) := by
    rw [h.restSize hsize] at hsplit
    have hx₂ := hx.2
    rwa [if_pos (show b.Splits size from hsplit)] at hx₂
  refine ⟨createSpace_apply m b.addr size junk hx.1 ?_, ?_⟩
  · rw [h.start]
    exact hrest
  · rw [touchAlloc, haddr]
    split_ifs with hsplit
    · rw [touch_of_notMem (hrest hsplit), touch_of_notMem hx.1]
    · rw [touch_of_notMem hx.1]

/-- Inside them every byte is dirty. -/
theorem touchAlloc_cutBytes {m : Memory} {b : Block} {size : ℕ} (dirty : ℕ → Bool)
    (h : Denotes m b) (hsize : size ≤ b.size) {x : ℕ} (hx : x ∈ cutBytes b size) :
    touchAlloc m dirty b.start size x = true := by
  have haddr : b.start - sizeofSpaceNode = b.addr := Nat.add_sub_cancel ..
  by_contra hfalse
  rw [Bool.not_eq_true, touchAlloc, haddr, h.restSize hsize] at hfalse
  rcases hx with hx | hx
  · split_ifs at hfalse with hsplit
    · exact (touch_eq_false.mp (touch_eq_false.mp hfalse).1).2 hx
    · exact (touch_eq_false.mp hfalse).2 hx
  · split_ifs at hx with hsplit
    · rw [if_pos (show sizeofSpaceNode < b.size - size from hsplit)] at hfalse
      exact (touch_eq_false.mp hfalse).2 hx
    · exact hx

/-- The blocks in use after an allocation do not meet the bytes that it writes. -/
theorem disjoint_cutBytes {base len size : ℕ} {s : Region} {l r : List Block} {b : Block}
    (h : RegionBlocks base len s (l ++ (b.cut size ++ r))) {c : ℕ × ℕ} (hc : c ∈ s.live) :
    Disjoint (cutBytes b size) (dataBytes c) := by
  have hinv : RegionInv base len s := ⟨_, h⟩
  have hrec (x : Block) (hx : x ∈ b.cut size) : Disjoint x.record (dataBytes c) := by
    refine hinv.disjoint_record hc ?_
    rw [blockAddrs_eq h.1 (h.1.length_lt h.2.1)]
    exact List.mem_map_of_mem (List.mem_append_right _ (List.mem_append_left _ hx))
  rw [cutBytes, Set.disjoint_union_left]
  rw [Block.cut] at hrec
  split_ifs at hrec ⊢ with hsplit
  · exact ⟨hrec (b.use size) (by simp), hrec (b.rest size) (by simp)⟩
  · exact ⟨hrec (b.use size) (by simp), Set.empty_disjoint _⟩

theorem Sane.alloc {size ptr : ℕ} {newQueue : Bool} {junk : ℕ → UInt8}
    (hend : E.base + E.len < 2 ^ 64) (h : Sane E s)
    (hok : HeapAllowed E (.alloc size newQueue junk) s)
    (hs : heapStep E (.alloc size newQueue junk) s = some (ptr, s')) :
    (ptr = 0 ∧ s' = s ∧ newQueue = false) ∨
      Allocates E size ptr s s' ∧
        (newQueue = true → ∀ i < 16, s.dirty (ptr + i) = false) := by
  obtain ⟨⟨p, m⟩, hget, hres⟩ := Option.map_eq_some_iff.mp hs
  obtain ⟨rfl, hs'⟩ := Prod.mk.inj hres
  obtain ⟨bs, hbs⟩ := h.region
  have hstep : regionStep E.base E.len ⟨s.mem, s.live⟩ (.alloc size junk) =
      some ⟨m, if p = 0 then s.live else (p, size) :: s.live⟩ := by
    rw [regionStep, hget]
    rfl
  rcases RegionBlocks.alloc hbs hend hok.1 hstep with ⟨-, hfind⟩ |
    ⟨l, b, r, rfl, hfind, hfree, hsize, heq, hbs'⟩
  · rw [getFreeElementFrom, hfind] at hget
    obtain ⟨rfl, rfl⟩ := Prod.mk.inj (Option.some.inj hget)
    refine Or.inl ⟨rfl, hs'.symm.trans (if_pos rfl), ?_⟩
    by_contra hq
    exact (hok.2 (by simpa using hq) 0 hfind).1 rfl
  · obtain ⟨hm, hlive⟩ := Region.mk.inj heq
    have hp : p ≠ 0 := by
      rintro rfl
      rw [if_pos rfl] at hlive
      exact absurd (congrArg List.length hlive) (by simp)
    rw [if_neg hp] at hlive hs'
    obtain rfl : p = b.start := (Prod.mk.inj (List.cons.inj hlive).1).1
    rw [if_neg hp] at hbs'
    obtain ⟨-, -, hden, -⟩ := seg_middle.mp hbs.1
    have hkept : ∀ x ∉ cutBytes b size, s'.mem x = s.mem x ∧ s'.dirty x = s.dirty x := by
      intro x hx
      rw [← hs', hm]
      exact createSpace_kept s.dirty junk hden hsize hx
    have hlive' : s'.live = (b.start, size) :: s.live := by rw [← hs']
    have hregion : RegionInv E.base E.len ⟨s'.mem, s'.live⟩ := by
      rw [← hs']
      exact ⟨_, hbs'⟩
    refine Or.inr ⟨⟨⟨hregion, fun x hx hd => ?_⟩, hp, hlive', by rw [← hs'], fun c hc => ?_,
      fun c hc x hx => hkept x ?_⟩, fun hq i hi => ?_⟩
    · by_cases hxb : x ∈ cutBytes b size
      · have hdirty : s'.dirty x = true := by
          rw [← hs']
          exact touchAlloc_cutBytes s.dirty hden hsize hxb
        rw [hdirty] at hd
        cases hd
      · rw [(hkept x hxb).1]
        exact h.clean x hx ((hkept x hxb).2 ▸ hd)
    · intro heq'
      have hmem : ∃ y ∈ l ++ b :: r, y.free = false ∧ (y.start, y.size) = c :=
        mem_usedData.mp (hbs.2.2.mem_iff.mp hc)
      obtain ⟨y, hy, hyu, rfl⟩ := hmem
      have hyb : y = b := List.inj_on_of_nodup_map hbs.2.1.nodup_addr hy (by simp)
        (Nat.add_right_cancel heq')
      rw [hyb, hfree] at hyu
      cases hyu
    · rw [← hs'] at hc
      exact fun hxb => Set.disjoint_left.mp (disjoint_cutBytes hbs' hc) hxb hx
    · exact (hok.2 hq b.addr hfind).2 i hi

/-! ### Freeing -/

/-- Freeing a block whose `prev` names a dissolved record. -/
theorem regionInv_free_dissolved {base len : ℕ} {t : Region} {b : ℕ × ℕ} (h : RegionInv base len t)
    (hb : b ∈ t.live)
    (hrec : ∀ n ∈ blockAddrs t.mem (len + 1) base,
      prevField.get t.mem (b.1 - sizeofSpaceNode) + sizeofSpaceNode ≤ n ∨
        n + sizeofSpaceNode ≤ prevField.get t.mem (b.1 - sizeofSpaceNode))
    (hmerge : Mergeable (markFree t.mem (b.1 - sizeofSpaceNode))
      (prevField.get t.mem (b.1 - sizeofSpaceNode))) :
    RegionInv base len ⟨removeSpace t.mem b.1, t.live.filter fun c => c.1 ≠ b.1⟩ := by
  obtain ⟨bs, hbs⟩ := h
  obtain ⟨l, x, r, rfl, hptr, hused⟩ := RegionBlocks.exists_block hbs (List.mem_map_of_mem hb)
  obtain ⟨hseg, hsp, hlive⟩ := hbs
  obtain ⟨-, -, hden, -⟩ := seg_middle.mp hseg
  have haddr : x.start - sizeofSpaceNode = x.addr := Nat.add_sub_cancel ..
  rw [blockAddrs_eq hseg (hseg.length_lt hsp)] at hrec
  rw [hptr, haddr] at hrec hmerge
  have hremove : removeSpace t.mem x.start = coalesce (markFree t.mem x.addr) x.addr
      (prevField.get t.mem x.addr) (nextField.get t.mem x.addr) := by
    rw [removeSpace, haddr]
    exact if_neg fun hf => by simp [hden.free.mp hf] at hused
  refine ⟨l ++ x.release :: r, ?_, hsp.release, ?_⟩
  · -- only the dissolved record changes after the block has been marked
    have hframe : Set.EqOn (removeSpace t.mem x.start) (markFree t.mem x.addr)
        (Set.Ico (prevField.get t.mem x.addr)
          (prevField.get t.mem x.addr + sizeofSpaceNode))ᶜ := by
      rw [hremove]
      rcases coalesce_eq (markFree t.mem x.addr) x.addr (prevField.get t.mem x.addr)
        (nextField.get t.mem x.addr) with ⟨-, -, heq⟩ | ⟨-, -, heq⟩ | ⟨hno, -⟩ | ⟨hno, -⟩
      · rw [heq]
        exact absorb_eqOn ..
      · rw [heq]
        exact absorb_eqOn ..
      · exact absurd hmerge hno
      · exact absurd hmerge hno
    rw [hptr]
    refine (hseg.markFree hsp).frame hframe fun c hc => disjoint_Ico (hrec c.addr ?_)
    have hsame : (l ++ x.release :: r).map Block.addr = (l ++ x :: r).map Block.addr := by
      simp [Block.release]
    exact hsame ▸ List.mem_map_of_mem hc
  · rw [hptr, usedData_middle rfl]
    exact perm_filter_usedData hsp hused hlive

/-- The bytes that freeing a block writes. -/
def freeBytes (m : Memory) (ptr : ℕ) : Set ℕ :=
  Set.Ico (ptr - sizeofSpaceNode) (ptr - sizeofSpaceNode + sizeofSpaceNode) ∪
    if Mergeable (markFree m (ptr - sizeofSpaceNode)) (prevField.get m (ptr - sizeofSpaceNode)) then
      Set.Ico (prevField.get m (ptr - sizeofSpaceNode))
        (prevField.get m (ptr - sizeofSpaceNode) + sizeofSpaceNode)
    else ∅

theorem removeSpace_kept (m : Memory) (dirty : ℕ → Bool) {ptr x : ℕ} (hx : x ∉ freeBytes m ptr) :
    removeSpace m ptr x = m x ∧ touchFree m dirty ptr x = dirty x := by
  rw [freeBytes, Set.mem_union, not_or] at hx
  obtain ⟨hx, hprev⟩ := hx
  rw [touchFree]
  split_ifs at hprev ⊢ with hmerge
  · refine ⟨removeSpace_apply m hx fun _ => hprev, ?_⟩
    rw [touch_of_notMem hprev, touch_of_notMem hx]
  · exact ⟨removeSpace_apply m hx fun hm => absurd hm hmerge, touch_of_notMem hx⟩

theorem touchFree_freeBytes (m : Memory) (dirty : ℕ → Bool) {ptr x : ℕ}
    (hx : x ∈ freeBytes m ptr) : touchFree m dirty ptr x = true := by
  by_contra hfalse
  rw [Bool.not_eq_true, touchFree] at hfalse
  rw [freeBytes] at hx
  split_ifs at hx hfalse with hmerge
  · obtain ⟨hn, ha⟩ := touch_eq_false.mp hfalse
    exact hx.elim (touch_eq_false.mp hn).2 ha
  · exact hx.elim (touch_eq_false.mp hfalse).2 id

/-- What freeing a block in use does. -/
structure Frees (E : HeapEnv) (ptr : ℕ) (s s' : OSHeap) : Prop where
  sane : Sane E s'
  live : s'.live = s.live.filter fun b => b.1 ≠ ptr
  globals : s'.globals = s.globals
  kept : ∀ b ∈ s'.live, KeptOn (dataBytes b) s s'

/-- The blocks in use do not meet the bytes that freeing one of them writes. -/
theorem disjoint_freeBytes {b c : ℕ × ℕ} (h : Sane E s) (hb : b ∈ s.live) (hc : c ∈ s.live)
    (hok : HeapAllowed E (.free b.1) s) : Disjoint (freeBytes s.mem b.1) (dataBytes c) := by
  rw [freeBytes, Set.disjoint_union_left]
  refine ⟨h.region.disjoint_record hc (h.region.record_mem hb), ?_⟩
  split_ifs with hmerge
  · rcases hok with hall | ⟨-, hdata⟩
    · exact h.region.disjoint_record hc (hall hmerge).1
    · exact disjoint_Ico (hdata c hc)
  · exact Set.empty_disjoint _

theorem regionInv_free {b : ℕ × ℕ} (h : Sane E s) (hb : b ∈ s.live)
    (hok : HeapAllowed E (.free b.1) s) : RegionInv E.base E.len
      ⟨removeSpace s.mem b.1, s.live.filter fun c => c.1 ≠ b.1⟩ := by
  obtain ⟨bs, hbs⟩ := h.region
  have hallowed (hall : RegionAllowed E.base E.len ⟨s.mem, s.live⟩ (.free b.1)) : RegionInv E.base
      E.len ⟨removeSpace s.mem b.1, s.live.filter fun c => c.1 ≠ b.1⟩ := by
    obtain ⟨_, _, _, bs', -, -, -, -, hbs'⟩ := RegionBlocks.free hbs hall
      (if_pos (List.mem_map_of_mem hb))
    exact ⟨bs', hbs'⟩
  rcases hok with hall | ⟨hrec, -⟩
  · exact hallowed hall
  by_cases hmerge : Mergeable (markFree s.mem (b.1 - sizeofSpaceNode))
      (prevField.get s.mem (b.1 - sizeofSpaceNode))
  · exact regionInv_free_dissolved h.region hb hrec hmerge
  · exact hallowed fun hm => absurd hm hmerge

theorem Sane.free {b : ℕ × ℕ} (h : Sane E s) (hb : b ∈ s.live)
    (hok : HeapAllowed E (.free b.1) s) {u : Unit}
    (hs : heapStep E (.free b.1) s = some (u, s')) : Frees E b.1 s s' := by
  obtain ⟨-, rfl⟩ := Prod.mk.inj (Option.some.inj hs)
  refine ⟨⟨regionInv_free h hb hok, fun x hx hd => ?_⟩, rfl, rfl, fun c hc x hx => ?_⟩
  · dsimp only [OSHeap.remove] at hd ⊢
    by_cases hxb : x ∈ freeBytes s.mem b.1
    · rw [touchFree_freeBytes s.mem s.dirty hxb] at hd
      cases hd
    · obtain ⟨hmem, hkeep⟩ := removeSpace_kept s.mem s.dirty hxb
      rw [hmem]
      exact h.clean x hx (hkeep.symm.trans hd)
  · have hdisj := disjoint_freeBytes h hb (List.mem_of_mem_filter hc) hok
    have hxb : x ∉ freeBytes s.mem b.1 := fun hxb => Set.disjoint_left.mp hdisj hxb hx
    dsimp only [OSHeap.remove]
    exact removeSpace_kept s.mem s.dirty hxb

/-! ### Writing -/

/-- Setting a field inside a block in use. -/
theorem Sane.set {f : Field} {a v : ℕ} {b : ℕ × ℕ} {u : Unit} (h : Sane E s) (hb : b ∈ s.live)
    (hlo : b.1 ≤ a + f.off) (hhi : a + f.off + f.len ≤ b.1 + b.2)
    (hs : heapStep E (.set f a v) s = some (u, s')) :
    Sane E s' ∧ s'.live = s.live ∧ s'.globals = s.globals ∧ s'.mem = f.set s.mem a v ∧
      KeptOn (Set.Ico (a + f.off) (a + f.off + f.len))ᶜ s s' := by
  rw [heapStep] at hs
  split_ifs at hs with ha
  obtain ⟨-, rfl⟩ := Prod.mk.inj (Option.some.inj hs)
  have hkept : KeptOn (Set.Ico (a + f.off) (a + f.off + f.len))ᶜ s
      { s with mem := f.set s.mem a v, dirty := touch s.dirty (a + f.off) f.len } :=
    fun x hx => ⟨store_eqOn _ _ _ _ hx, touch_of_notMem hx⟩
  refine ⟨h.change hb rfl (fun x hx => hkept x fun hxf => hx ?_) fun x hx hd => ?_, rfl, rfl, rfl,
    hkept⟩
  · exact ⟨hlo.trans hxf.1, hxf.2.trans_le hhi⟩
  · obtain ⟨hclean, hxf⟩ := touch_eq_false.mp hd
    obtain ⟨hbase, hlen⟩ := h.region.data_subset hb
    rw [(hkept x hxf).1]
    exact h.clean x ⟨hbase.trans hx.1, hx.2.trans_le hlen⟩ hclean

/-- The bytes of a header. -/
def listBytes (l : ℕ) : Set ℕ := Set.Ico l (l + 20)

theorem setList_eqOn (m : Memory) (l : ℕ) (x : LinkedList) :
    Set.EqOn (setList m l x) m (listBytes l)ᶜ := fun y hy => by
  rw [setList, listNitems.set_eqOn _ _ _ (by decide) hy, listHead.set_eqOn _ _ _ (by decide) hy,
    listTail.set_eqOn _ _ _ (by decide) hy]

/-- A field that is set to 0. -/
theorem set_zero_apply (f : Field) (m : Memory) {a x : ℕ}
    (hx : x ∈ Set.Ico (a + f.off) (a + f.off + f.len)) : f.set m a 0 x = 0 := by
  rw [Field.set, store, if_pos (show a + f.off ≤ x ∧ x < a + f.off + f.len from hx), Nat.zero_div]
  rfl

/-- The first 16 bytes of a header whose pointers are `NULL`. -/
theorem setList_apply_eq_zero {m : Memory} {l x : ℕ} {y : LinkedList} (hhead : y.head = 0)
    (htail : y.tail = 0) (hx : x ∈ Set.Ico l (l + 16)) : setList m l y x = 0 := by
  obtain ⟨hlo, hhi⟩ := hx
  rw [setList, hhead, htail, Field.set, store_eqOn _ _ _ _ (fun h => ?_)]
  · by_cases hx : x < l + 8
    · rw [Field.set, store_eqOn _ _ _ _ (fun h => ?_)]
      · exact set_zero_apply listTail m ⟨hlo, hx⟩
      · have : l + listHead.off ≤ x := h.1
        rw [show listHead.off = 8 from rfl] at this
        omega
    · exact set_zero_apply listHead _ ⟨by rw [show listHead.off = 8 from rfl]; omega, hhi⟩
  · have : l + listNitems.off ≤ x := h.1
    rw [show listNitems.off = 16 from rfl] at this
    omega

/-- A list operation on a header in a block in use. -/
theorem Sane.putList {l : ℕ} {x : LinkedList} {emptied : Bool} (h : Sane E s)
    (hl : (l, sizeofLinkedList) ∈ s.live)
    (hempty : emptied = true → x.head = 0 ∧ x.tail = 0) :
    Sane E (s.putList l x emptied) ∧ KeptOn (listBytes l)ᶜ s (s.putList l x emptied) := by
  have hdirty (y : ℕ) (hy : y ∉ listBytes l) : (s.putList l x emptied).dirty y = s.dirty y := by
    have hy' : ¬ (l ≤ y ∧ y < l + 16) := fun hm => hy ⟨hm.1, hm.2.trans_le (by omega)⟩
    have htouch : touch s.dirty l 20 y = s.dirty y := touch_of_notMem hy
    rw [OSHeap.putList]
    dsimp only
    split_ifs
    · rw [untouch, htouch, decide_eq_false hy', Bool.not_false, Bool.and_true]
    · exact htouch
  have hkept : KeptOn (listBytes l)ᶜ s (s.putList l x emptied) :=
    fun y hy => ⟨setList_eqOn s.mem l x hy, hdirty y hy⟩
  have hsub : listBytes l ⊆ dataBytes (l, sizeofLinkedList) :=
    Set.Ico_subset_Ico_right (Nat.add_le_add_left (show 20 ≤ sizeofLinkedList by decide) l)
  refine ⟨h.change hl rfl (fun y hy => hkept y fun hm => hy (hsub hm)) fun y hy hd => ?_, hkept⟩
  by_cases hm : y ∈ listBytes l
  · -- a byte of the header is not dirty only if the list has been emptied
    rw [OSHeap.putList] at hd
    dsimp only at hd
    have htouch : touch s.dirty l 20 y = true := by
      by_contra hf
      exact (touch_eq_false.mp (by simpa using hf)).2 hm
    split_ifs at hd with hemp
    · rw [untouch, htouch, Bool.true_and, Bool.not_eq_false', decide_eq_true_eq] at hd
      exact setList_apply_eq_zero (hempty hemp).1 (hempty hemp).2 hd
    · rw [htouch] at hd
      cases hd
  · obtain ⟨hbase, hlen⟩ := h.region.data_subset hl
    rw [(hkept y hm).1]
    exact h.clean y ⟨hbase.trans hy.1, hy.2.trans_le hlen⟩ ((hkept y hm).2 ▸ hd)

/-! ### The objects of the library -/

/-- `l->wait`. -/
def waitOf (s : OSHeap) (l : ℕ) : ℕ := lockWait.get s.mem l

/-- The bytes of `l->wait`. -/
def waitBytes (l : ℕ) : Set ℕ := Set.Ico (l + 8) (l + 16)

/-- A block in use that does not belong to a mutex. -/
def Private (M : List ℕ) (s : OSHeap) (b : ℕ × ℕ) : Prop :=
  b ∈ s.live ∧ ∀ l ∈ M, b.1 ≠ l ∧ b.1 ≠ waitOf s l

/-- The mutexes `M` have two blocks each, and the global pointers point to other blocks. -/
structure HeapInv (E : HeapEnv) (M : List ℕ) (s : OSHeap) : Prop where
  sane : Sane E s
  mutex : ∀ l ∈ M, (l, sizeofLock) ∈ s.live ∧ (waitOf s l, sizeofLinkedList) ∈ s.live
  inj : ∀ l ∈ M, ∀ l' ∈ M, waitOf s l = waitOf s l' → l = l'
  globals : ∀ g, s.globals g ≠ 0 → Private M s (s.globals g, g.size)

/-- The state `s'` follows `s`, no block has been freed, and of the blocks in use only the bytes of
`Q` have been written. -/
structure Evolves (E : HeapEnv) (M : List ℕ) (Q : Set ℕ) (s s' : OSHeap) : Prop where
  inv : HeapInv E M s'
  live : s.live ⊆ s'.live
  globals : s'.globals = s.globals
  wait : ∀ l ∈ M, waitOf s' l = waitOf s l
  kept : ∀ b ∈ s.live, KeptOn (dataBytes b \ Q) s s'

/-- A program runs, and its operations are allowed. -/
abbrev HeapRuns (E : HeapEnv) {α : Type} (p : HeapProg α) (s : OSHeap) (a : α) (s' : OSHeap) :
    Prop :=
  Prog.Runs (heapStep E) (HeapAllowed E) p s a s'

section Evolution

variable {Q Q' : Set ℕ} {b : ℕ × ℕ}

theorem HeapInv.evolves (h : HeapInv E M s) (hsane : Sane E s') (hlive : s.live ⊆ s'.live)
    (hglobals : s'.globals = s.globals) (hkept : ∀ b ∈ s.live, KeptOn (dataBytes b \ Q) s s')
    (hwait : ∀ l ∈ M, Disjoint Q (waitBytes l)) : Evolves E M Q s s' := by
  have hsame : ∀ l ∈ M, waitOf s' l = waitOf s l := by
    intro l hl
    refine load_congr fun x hx => (hkept _ (h.mutex l hl).1 x ⟨?_, ?_⟩).1
    · exact ⟨(Nat.le_add_right ..).trans hx.1, hx.2⟩
    · exact fun hq => Set.disjoint_left.mp (hwait l hl) hq hx
  refine ⟨⟨hsane, fun l hl => ?_, fun l hl l' hl' heq => ?_, fun g hg => ?_⟩, hlive, hglobals,
    hsame, hkept⟩
  · rw [hsame l hl]
    exact ⟨hlive (h.mutex l hl).1, hlive (h.mutex l hl).2⟩
  · rw [hsame l hl, hsame l' hl'] at heq
    exact h.inj l hl l' hl' heq
  · rw [hglobals] at hg ⊢
    obtain ⟨hmem, hne⟩ := h.globals g hg
    exact ⟨hlive hmem, fun l hl => ⟨(hne l hl).1, (hsame l hl).symm ▸ (hne l hl).2⟩⟩

theorem Evolves.refl (h : HeapInv E M s) : Evolves E M Q s s :=
  ⟨h, List.Subset.refl _, rfl, fun _ _ => rfl, fun _ _ _ _ => ⟨rfl, rfl⟩⟩

theorem Evolves.trans (h : Evolves E M Q s s') (h' : Evolves E M Q s' s'') :
    Evolves E M Q s s'' where
  inv := h'.inv
  live := List.Subset.trans h.live h'.live
  globals := h'.globals.trans h.globals
  wait l hl := (h'.wait l hl).trans (h.wait l hl)
  kept b hb x hx := by
    obtain ⟨hm, hd⟩ := h.kept b hb x hx
    obtain ⟨hm', hd'⟩ := h'.kept b (h.live hb) x hx
    exact ⟨hm'.trans hm, hd'.trans hd⟩

theorem Evolves.mono (h : Evolves E M Q s s') (hq : Q ⊆ Q') : Evolves E M Q' s s' :=
  ⟨h.inv, h.live, h.globals, h.wait, fun b hb x hx => h.kept b hb x ⟨hx.1, fun hm => hx.2 (hq hm)⟩⟩

theorem Private.evolves (hb : Private M s b) (h : Evolves E M Q s s') : Private M s' b :=
  ⟨h.live hb.1, fun l hl => ⟨(hb.2 l hl).1, (h.wait l hl).symm ▸ (hb.2 l hl).2⟩⟩

/-- A private block does not meet the pointers of the mutexes. -/
theorem Private.disjoint_wait (hb : Private M s b) (h : HeapInv E M s) {l : ℕ} (hl : l ∈ M) :
    Disjoint (dataBytes b) (waitBytes l) := by
  have hdisj := h.sane.region.disjoint_data hb.1 (h.mutex l hl).1 (hb.2 l hl).1
  exact hdisj.mono_right (Set.Ico_subset_Ico_left (Nat.le_add_right ..))

/-- A lock is not the wait list of a mutex: the blocks have different sizes. -/
theorem HeapInv.waitOf_ne (h : HeapInv E M s) {l l' : ℕ} (hl : l ∈ M) (hl' : l' ∈ M) :
    waitOf s l ≠ l' := fun heq => by
  have hsame := h.sane.region.eq_of_fst_eq (h.mutex l hl).2 (h.mutex l' hl').1 heq
  exact absurd (show sizeofLinkedList = sizeofLock from congrArg Prod.snd hsame) (by decide)

/-! ### Operations -/

theorem HeapInv.of_allocates {size p : ℕ} (h : HeapInv E M s) (ha : Allocates E size p s s') :
    Evolves E M ∅ s s' ∧ Private M s' (p, size) := by
  have hlive : s.live ⊆ s'.live := by
    rw [ha.live]
    exact List.subset_cons_self _ _
  have hev : Evolves E M ∅ s s' := h.evolves ha.sane hlive ha.globals
    (fun b hb x hx => ha.kept b (hlive hb) x hx.1) fun _ _ => Set.empty_disjoint _
  refine ⟨hev, by rw [ha.live]; exact List.mem_cons_self, fun l hl => ?_⟩
  rw [hev.wait l hl]
  exact ⟨(ha.fresh _ (h.mutex l hl).1).symm, (ha.fresh _ (h.mutex l hl).2).symm⟩

/-- An allocation for any object. -/
theorem HeapInv.myallocate {size p : ℕ} {junk : ℕ → UInt8} (hend : E.base + E.len < 2 ^ 64)
    (h : HeapInv E M s) (hs : HeapRuns E (Heap.myallocate size junk) s p s') :
    p = 0 ∧ s' = s ∨ Evolves E M ∅ s s' ∧ Allocates E size p s s' ∧ Private M s' (p, size) := by
  obtain ⟨hok, hstep⟩ := Prog.runs_perform.mp hs
  rcases h.sane.alloc hend hok hstep with ⟨hp, hsame, -⟩ | ⟨ha, -⟩
  · exact Or.inl ⟨hp, hsame⟩
  obtain ⟨hev, hpriv⟩ := h.of_allocates ha
  exact Or.inr ⟨hev, ha, hpriv⟩

/-- An allocation for a list that is to be empty. -/
theorem HeapInv.newQueue {p : ℕ} {junk : ℕ → UInt8} (hend : E.base + E.len < 2 ^ 64)
    (h : HeapInv E M s) (hs : HeapRuns E (Heap.newQueue junk) s p s') :
    Evolves E M ∅ s s' ∧ Allocates E sizeofLinkedList p s s' ∧
      Private M s' (p, sizeofLinkedList) ∧ ∀ x ∈ Set.Ico p (p + 16), s'.dirty x = false := by
  obtain ⟨hok, hstep⟩ := Prog.runs_perform.mp hs
  rcases h.sane.alloc hend hok hstep with ⟨-, -, hq⟩ | ⟨ha, hclean⟩
  · cases hq
  obtain ⟨hev, hpriv⟩ := h.of_allocates ha
  refine ⟨hev, ha, hpriv, fun x hx => ?_⟩
  have hdata : x ∈ dataBytes (p, sizeofLinkedList) :=
    Set.Ico_subset_Ico_right (Nat.add_le_add_left (show 16 ≤ sizeofLinkedList by decide) p) hx
  rw [(ha.kept _ hpriv.1 x hdata).2, show x = p + (x - p) by have := hx.1; omega]
  exact hclean rfl (x - p) (by have := hx.2; omega)

/-- The bytes of a field. -/
def fieldBytes (f : Field) (a : ℕ) : Set ℕ := Set.Ico (a + f.off) (a + f.off + f.len)

/-- A field of an object is set. -/
theorem HeapInv.set {f : Field} {a v : ℕ} {u : Unit} (h : HeapInv E M s) (hb : b ∈ s.live)
    (hlo : b.1 ≤ a + f.off) (hhi : a + f.off + f.len ≤ b.1 + b.2)
    (hwait : ∀ l ∈ M, Disjoint (fieldBytes f a) (waitBytes l))
    (hs : HeapRuns E (Heap.set f a v) s u s') :
    Evolves E M (fieldBytes f a) s s' ∧ s'.mem = f.set s.mem a v := by
  obtain ⟨-, hstep⟩ := Prog.runs_perform.mp hs
  obtain ⟨hsane, hlive, hglobals, hmem, hkept⟩ := h.sane.set hb hlo hhi hstep
  exact ⟨h.evolves hsane (hlive ▸ List.Subset.refl _) hglobals (fun b _ x hx => hkept x hx.2) hwait,
    hmem⟩

theorem fieldBytes_subset {f : Field} {a n : ℕ} (hfit : f.off + f.len ≤ n) :
    fieldBytes f a ⊆ dataBytes (a, n) :=
  Set.Ico_subset_Ico (Nat.le_add_right ..) (show a + f.off + f.len ≤ a + n by omega)

/-- A field of a private object is set. -/
theorem HeapInv.setPrivate {f : Field} {a v n : ℕ} {u : Unit} (h : HeapInv E M s)
    (hb : Private M s (a, n)) (hfit : f.off + f.len ≤ n)
    (hs : HeapRuns E (Heap.set f a v) s u s') :
    Evolves E M (fieldBytes f a) s s' ∧ s'.mem = f.set s.mem a v :=
  h.set hb.1 (Nat.le_add_right ..) (show a + f.off + f.len ≤ a + n by omega)
    (fun _ hl => (hb.disjoint_wait h hl).mono_left (fieldBytes_subset hfit)) hs

/-- The state word of a mutex is set. -/
theorem HeapInv.setState {l v : ℕ} {u : Unit} (h : HeapInv E M s) (hl : l ∈ M)
    (hs : HeapRuns E (Heap.set lockState l v) s u s') :
    Evolves E M (fieldBytes lockState l) s s' := by
  refine (h.set (h.mutex l hl).1 (Nat.le_add_right ..) (show l + 0 + 4 ≤ l + 16 by omega)
    (fun l' hl' => ?_) hs).1
  by_cases heq : l = l'
  · rw [heq]
    exact disjoint_Ico (Or.inl (show l' + 0 + 4 ≤ l' + 8 by omega))
  · have hdisj := h.sane.region.disjoint_data (h.mutex l hl).1 (h.mutex l' hl').1 heq
    exact hdisj.mono (fieldBytes_subset (by decide)) (Set.Ico_subset_Ico_left (Nat.le_add_right ..))

theorem get_unchanged {f : Field} {a v : ℕ} (hs : HeapRuns E (Heap.get f a) s v s') :
    s' = s ∧ a ≠ 0 ∧ v = f.get s.mem a := by
  obtain ⟨-, hstep⟩ := Prog.runs_perform.mp hs
  rw [heapStep] at hstep
  split_ifs at hstep with ha
  obtain ⟨hv, hss⟩ := Prod.mk.inj (Option.some.inj hstep)
  exact ⟨hss.symm, ha, hv.symm⟩

theorem getGlobal_unchanged {g : Global} {v : ℕ} (hs : HeapRuns E (Heap.getGlobal g) s v s') :
    s' = s ∧ v = s.globals g := by
  obtain ⟨-, hstep⟩ := Prog.runs_perform.mp hs
  obtain ⟨hv, hss⟩ := Prod.mk.inj (Option.some.inj hstep)
  exact ⟨hss.symm, hv.symm⟩

theorem set_ne_zero {f : Field} {a v : ℕ} {u : Unit} (hs : HeapRuns E (Heap.set f a v) s u s') :
    a ≠ 0 := by
  obtain ⟨-, hstep⟩ := Prog.runs_perform.mp hs
  rw [heapStep] at hstep
  split_ifs at hstep with ha
  exact ha

theorem pushOrdered_ne_zero {l t : ℕ} {u : Unit}
    (hs : HeapRuns E (Heap.pushOrdered l t) s u s') : l ≠ 0 := by
  obtain ⟨-, hstep⟩ := Prog.runs_perform.mp hs
  rw [heapStep] at hstep
  split_ifs at hstep with hl
  exact hl

/-- The header of a list that is in use. -/
def IsQueue (M : List ℕ) (s : OSHeap) (l : ℕ) : Prop :=
  (l, sizeofLinkedList) ∈ s.live ∧ ∀ l' ∈ M, l ≠ l'

/-- A block of the size of a header is not a lock. -/
theorem HeapInv.isQueue_of_mem (h : HeapInv E M s) {l : ℕ} (hl : (l, sizeofLinkedList) ∈ s.live) :
    IsQueue M s l := by
  refine ⟨hl, fun l' hl' heq => ?_⟩
  have hsame := h.sane.region.eq_of_fst_eq hl (h.mutex l' hl').1 heq
  exact absurd (show sizeofLinkedList = sizeofLock from congrArg Prod.snd hsame) (by decide)

theorem IsQueue.evolves {l : ℕ} (hl : IsQueue M s l) (h : Evolves E M Q s s') : IsQueue M s' l :=
  ⟨h.live hl.1, hl.2⟩

theorem HeapInv.isQueue_wait (h : HeapInv E M s) {l : ℕ} (hl : l ∈ M) : IsQueue M s (waitOf s l) :=
  h.isQueue_of_mem (h.mutex l hl).2

theorem HeapInv.isQueue_run (h : HeapInv E M s) (hrun : s.globals .run ≠ 0) :
    IsQueue M s (s.globals .run) :=
  h.isQueue_of_mem (h.globals .run hrun).1

/-- A list operation. -/
theorem HeapInv.putList {l n : ℕ} {x : LinkedList} {emptied : Bool} {m : Nodes ℕ}
    (h : HeapInv E M s) (hl : IsQueue M s l)
    (hempty : emptied = true → x.head = 0 ∧ x.tail = 0) :
    Evolves E M (listBytes l) s
      { s.putList l x emptied with nodes := m, mallocs := n } := by
  obtain ⟨hsane, hkept⟩ := h.sane.putList hl.1 hempty
  refine h.evolves ⟨hsane.region, hsane.clean⟩ (List.Subset.refl _) rfl
    (fun b _ y hy => hkept y hy.2) fun l' hl' => ?_
  have hdisj := h.sane.region.disjoint_data hl.1 (h.mutex l' hl').1 (hl.2 l' hl')
  exact hdisj.mono
    (Set.Ico_subset_Ico_right (Nat.add_le_add_left (show 20 ≤ sizeofLinkedList by decide) l))
    (Set.Ico_subset_Ico_left (Nat.le_add_right ..))

theorem HeapInv.push {l t : ℕ} {u : Unit} (h : HeapInv E M s) (hl : l ≠ 0 → IsQueue M s l)
    (hs : HeapRuns E (Heap.push l t) s u s') : Evolves E M (listBytes l) s s' := by
  obtain ⟨-, hstep⟩ := Prog.runs_perform.mp hs
  rw [heapStep] at hstep
  split_ifs at hstep with hne
  obtain ⟨⟨x, nodes⟩, -, hx⟩ := Option.map_eq_some_iff.mp hstep
  obtain ⟨-, rfl⟩ := Prod.mk.inj hx
  exact h.putList (hl hne) nofun

theorem HeapInv.pushOrdered {l t : ℕ} {u : Unit} (h : HeapInv E M s) (hl : l ≠ 0 → IsQueue M s l)
    (hs : HeapRuns E (Heap.pushOrdered l t) s u s') : Evolves E M (listBytes l) s s' := by
  obtain ⟨-, hstep⟩ := Prog.runs_perform.mp hs
  rw [heapStep] at hstep
  split_ifs at hstep with hne
  obtain ⟨⟨x, nodes⟩, -, hx⟩ := Option.map_eq_some_iff.mp hstep
  obtain ⟨-, rfl⟩ := Prod.mk.inj hx
  exact h.putList (hl hne) nofun

theorem HeapInv.orderByOldest {l : ℕ} {u : Unit} (h : HeapInv E M s) (hl : l ≠ 0 → IsQueue M s l)
    (hs : HeapRuns E (Heap.orderByOldest l) s u s') : Evolves E M (listBytes l) s s' := by
  obtain ⟨-, hstep⟩ := Prog.runs_perform.mp hs
  rw [heapStep] at hstep
  split_ifs at hstep with hne
  obtain ⟨⟨x, nodes, mallocs⟩, -, hx⟩ := Option.map_eq_some_iff.mp hstep
  obtain ⟨-, rfl⟩ := Prod.mk.inj hx
  exact h.putList (hl hne) nofun

theorem HeapInv.pop {l t : ℕ} (h : HeapInv E M s) (hl : l ≠ 0 → IsQueue M s l)
    (hs : HeapRuns E (Heap.pop l) s t s') : Evolves E M (listBytes l) s s' := by
  obtain ⟨-, hstep⟩ := Prog.runs_perform.mp hs
  rw [heapStep] at hstep
  split_ifs at hstep with hne
  obtain ⟨⟨t', x⟩, hpop, hx⟩ := Option.map_eq_some_iff.mp hstep
  obtain ⟨-, rfl⟩ := Prod.mk.inj hx
  refine h.putList (n := s.mallocs) (m := s.nodes) (hl hne) fun hemp => ?_
  have hhead : x.head = 0 := by simpa using hemp
  exact ⟨hhead, LinkedList.pop_tail hpop hhead⟩

end Evolution

/-! ### Global objects -/

/-- The bytes of the objects to which the global pointers point. -/
def globalBytes (s : OSHeap) : Set ℕ :=
  {x | ∃ g, s.globals g ≠ 0 ∧ x ∈ dataBytes (s.globals g, g.size)}

theorem dataBytes_subset_globalBytes {g : Global} (hg : s.globals g ≠ 0) :
    dataBytes (s.globals g, g.size) ⊆ globalBytes s := fun _ hx => ⟨g, hg, hx⟩

theorem HeapInv.setAt {g : Global} {f : Field} {v : ℕ} {u : Unit} (h : HeapInv E M s)
    (hfit : f.off + f.len ≤ g.size) (hs : HeapRuns E (Heap.setAt g f v) s u s') :
    Evolves E M (globalBytes s) s s' := by
  obtain ⟨p, t, hget, hset⟩ := Prog.runs_bind.mp hs
  obtain ⟨rfl, rfl⟩ := getGlobal_unchanged hget
  have hne := set_ne_zero hset
  refine (h.setPrivate (h.globals g hne) hfit hset).1.mono ?_
  exact (fieldBytes_subset hfit).trans (dataBytes_subset_globalBytes hne)

theorem getAt_eq {g : Global} {f : Field} {v : ℕ} (hs : HeapRuns E (Heap.getAt g f) s v s') :
    s' = s ∧ v = f.get s.mem (s.globals g) := by
  obtain ⟨p, t, hget, hread⟩ := Prog.runs_bind.mp hs
  obtain ⟨rfl, rfl⟩ := getGlobal_unchanged hget
  obtain ⟨hsame, -, hv⟩ := get_unchanged hread
  exact ⟨hsame, hv⟩

theorem getAt_unchanged {g : Global} {f : Field} {v : ℕ}
    (hs : HeapRuns E (Heap.getAt g f) s v s') : s' = s := (getAt_eq hs).1

/-- A new global object. -/
theorem HeapInv.allocGlobal {g : Global} {junk : ℕ → UInt8} {u : Unit}
    (hend : E.base + E.len < 2 ^ 64) (h : HeapInv E M s)
    (hs : HeapRuns E (Heap.allocGlobal g junk) s u s') : HeapInv E M s' := by
  obtain ⟨p, t, halloc, hset⟩ := Prog.runs_bind.mp hs
  obtain ⟨-, hstep⟩ := Prog.runs_perform.mp hset
  obtain ⟨-, rfl⟩ := Prod.mk.inj (Option.some.inj hstep)
  have hpriv : HeapInv E M t ∧ (p ≠ 0 → Private M t (p, g.size)) := by
    rcases h.myallocate hend halloc with ⟨rfl, rfl⟩ | ⟨hev, -, hp⟩
    · exact ⟨h, fun h0 => absurd rfl h0⟩
    · exact ⟨hev.inv, fun _ => hp⟩
  obtain ⟨hinv, hp⟩ := hpriv
  refine ⟨⟨hinv.sane.region, hinv.sane.clean⟩, hinv.mutex, hinv.inj, fun g' hg' => ?_⟩
  dsimp only at hg' ⊢
  by_cases heq : g' = g
  · subst heq
    rw [Function.update_self] at hg' ⊢
    exact hp hg'
  · rw [Function.update_of_ne heq] at hg' ⊢
    exact hinv.globals g' hg'

/-! ### The calls that use a mutex -/

section Mutexes

variable {l : ℕ} {u : Unit}

theorem HeapInv.wake (h : HeapInv E M s) (hl : l ≠ 0 → IsQueue M s l)
    (hs : HeapRuns E (Heap.wake l) s u s') : Evolves E M Set.univ s s' := by
  obtain ⟨t, s₁, hpop, hs⟩ := Prog.runs_bind.mp hs
  have h₁ := (h.pop hl hpop).mono (Set.subset_univ _)
  obtain ⟨r, s₂, hget, hpush⟩ := Prog.runs_bind.mp hs
  obtain ⟨rfl, rfl⟩ := getGlobal_unchanged hget
  exact h₁.trans ((h₁.inv.pushOrdered h₁.inv.isQueue_run hpush).mono (Set.subset_univ _))

theorem HeapInv.wakeAll {fuel : ℕ} (h : HeapInv E M s) (hl : l ≠ 0 → IsQueue M s l)
    (hs : HeapRuns E (Heap.wakeAll l fuel) s u s') : Evolves E M Set.univ s s' := by
  induction fuel generalizing s with
  | zero => cases hs.2
  | succ fuel ih =>
    obtain ⟨head, s₁, hget, hrest⟩ := Prog.runs_bind.mp hs
    obtain ⟨rfl, -⟩ := get_unchanged hget
    by_cases hhead : head ≠ 0
    · rw [if_pos hhead] at hrest
      obtain ⟨_, s₂, hwake, hrest⟩ := Prog.runs_bind.mp hrest
      have h₂ := h.wake hl hwake
      exact h₂.trans (ih h₂.inv (fun hne => (hl hne).evolves h₂) hrest)
    · rw [if_neg hhead] at hrest
      obtain ⟨-, rfl⟩ := Prog.runs_pure.mp hrest
      exact Evolves.refl h

theorem HeapInv.blockOn (h : HeapInv E M s) (hl : l ∈ M)
    (hs : HeapRuns E (Heap.blockOn l) s u s') : HeapInv E M s' := by
  obtain ⟨wait, s₁, hget, hs⟩ := Prog.runs_bind.mp hs
  obtain ⟨rfl, -, rfl⟩ := get_unchanged hget
  obtain ⟨self, s₂, hself, hs⟩ := Prog.runs_bind.mp hs
  obtain rfl := getAt_unchanged hself
  obtain ⟨_, s₃, hpush, hs⟩ := Prog.runs_bind.mp hs
  have h₃ := (h.push (fun _ => h.isQueue_wait hl) hpush).inv
  obtain ⟨_, s₄, htimer, hs⟩ := Prog.runs_bind.mp hs
  have h₄ := (h₃.setAt (by decide) htimer).inv
  obtain ⟨run, s₅, hrun, hs⟩ := Prog.runs_bind.mp hs
  obtain ⟨rfl, rfl⟩ := getGlobal_unchanged hrun
  obtain ⟨next, s₆, hpop, hs⟩ := Prog.runs_bind.mp hs
  have h₆ := (h₄.pop h₄.isQueue_run hpop).inv
  exact (h₆.setAt (by decide) hs).inv

theorem HeapInv.myPthreadMutexLock (h : HeapInv E M s) (hl : l ∈ M)
    (hs : HeapRuns E (Heap.myPthreadMutexLock l) s u s') : HeapInv E M s' := by
  obtain ⟨state, s₁, hget, hs⟩ := Prog.runs_bind.mp hs
  obtain ⟨rfl, -, rfl⟩ := get_unchanged hget
  obtain ⟨_, s₂, hset, hs⟩ := Prog.runs_bind.mp hs
  have h₂ := (h.setState hl hset).inv
  split_ifs at hs
  · exact h₂.blockOn hl hs
  · obtain ⟨-, rfl⟩ := Prog.runs_pure.mp hs
    exact h₂

theorem HeapInv.myPthreadMutexUnlock (h : HeapInv E M s) (hl : l ∈ M)
    (hs : HeapRuns E (Heap.myPthreadMutexUnlock l) s u s') : HeapInv E M s' := by
  obtain ⟨wait, s₁, hget, hs⟩ := Prog.runs_bind.mp hs
  obtain ⟨rfl, -, rfl⟩ := get_unchanged hget
  obtain ⟨head, s₂, hhead, hs⟩ := Prog.runs_bind.mp hs
  obtain ⟨rfl, -⟩ := get_unchanged hhead
  obtain ⟨_, s₃, hwake, hset⟩ := Prog.runs_bind.mp hs
  have h₃ : HeapInv E M s₃ := by
    split_ifs at hwake
    · exact (h.wake (fun _ => h.isQueue_wait hl) hwake).inv
    · obtain ⟨-, rfl⟩ := Prog.runs_pure.mp hwake
      exact h
  exact (h₃.setState hl hset).inv

/-- The two blocks of a mutex are freed. -/
theorem HeapInv.of_frees {s₁ s₂ : OSHeap} (h : HeapInv E M s) (hl : l ∈ M)
    (h₁ : Frees E (waitOf s l) s s₁) (h₂ : Frees E l s₁ s₂) :
    HeapInv E (M.filter (· ≠ l)) s₂ := by
  have hmem {b : ℕ × ℕ} : b ∈ s₂.live ↔ b ∈ s.live ∧ b.1 ≠ waitOf s l ∧ b.1 ≠ l := by
    rw [h₂.live, h₁.live, List.mem_filter, List.mem_filter, decide_eq_true_eq, decide_eq_true_eq,
      and_assoc]
  have hwait {l' : ℕ} (hl' : l' ∈ M) (hne : l' ≠ l) : waitOf s₂ l' = waitOf s l' := by
    have hb : (l', sizeofLock) ∈ s₂.live :=
      hmem.mpr ⟨(h.mutex l' hl').1, (h.waitOf_ne hl hl').symm, hne⟩
    have hb₁ : (l', sizeofLock) ∈ s₁.live := by
      rw [h₂.live] at hb
      exact List.mem_of_mem_filter hb
    have hsub : Set.Ico (l' + lockWait.off) (l' + lockWait.off + lockWait.len) ⊆
        dataBytes (l', sizeofLock) := fieldBytes_subset (by decide)
    refine load_congr fun x hx => ?_
    rw [(h₂.kept _ hb x (hsub hx)).1, (h₁.kept _ hb₁ x (hsub hx)).1]
  have hglobals : s₂.globals = s.globals := h₂.globals.trans h₁.globals
  refine ⟨h₂.sane, fun l' hl' => ?_, fun l₁ hl₁ l₂ hl₂ heq => ?_, fun g hg => ?_⟩
  · obtain ⟨hl', hne⟩ := List.mem_filter.mp hl'
    have hne : l' ≠ l := by simpa using hne
    rw [hwait hl' hne]
    refine ⟨hmem.mpr ⟨(h.mutex l' hl').1, (h.waitOf_ne hl hl').symm, hne⟩,
      hmem.mpr ⟨(h.mutex l' hl').2, fun heq => hne (h.inj l' hl' l hl heq), h.waitOf_ne hl' hl⟩⟩
  · obtain ⟨hl₁, hne₁⟩ := List.mem_filter.mp hl₁
    obtain ⟨hl₂, hne₂⟩ := List.mem_filter.mp hl₂
    rw [hwait hl₁ (by simpa using hne₁), hwait hl₂ (by simpa using hne₂)] at heq
    exact h.inj l₁ hl₁ l₂ hl₂ heq
  · rw [hglobals] at hg ⊢
    obtain ⟨hlive, hne⟩ := h.globals g hg
    refine ⟨hmem.mpr ⟨hlive, (hne l hl).2, (hne l hl).1⟩, fun l' hl' => ?_⟩
    obtain ⟨hl', hne'⟩ := List.mem_filter.mp hl'
    rw [hwait hl' (by simpa using hne')]
    exact hne l' hl'

theorem HeapInv.myPthreadMutexDestroy {fuel : ℕ} (h : HeapInv E M s) (hl : l ∈ M)
    (hs : HeapRuns E (Heap.myPthreadMutexDestroy fuel l) s u s') :
    HeapInv E (M.filter (· ≠ l)) s' := by
  obtain ⟨wait, s₁, hget, hs⟩ := Prog.runs_bind.mp hs
  obtain ⟨rfl, -, rfl⟩ := get_unchanged hget
  obtain ⟨_, s₂, hwake, hs⟩ := Prog.runs_bind.mp hs
  have h₂ := h.wakeAll (fun _ => h.isQueue_wait hl) hwake
  obtain ⟨_, s₃, hset, hs⟩ := Prog.runs_bind.mp hs
  have h₃ := h₂.inv.setState hl hset
  have hwait : waitOf s₁ l = waitOf s₃ l := ((h₃.wait l hl).trans (h₂.wait l hl)).symm
  rw [show lockWait.get s₁.mem l = waitOf s₃ l from hwait] at hs
  obtain ⟨_, s₄, hfree, hfree'⟩ := Prog.runs_bind.mp hs
  obtain ⟨hok, hstep⟩ := Prog.runs_perform.mp hfree
  obtain ⟨hok', hstep'⟩ := Prog.runs_perform.mp hfree'
  have hf := h₃.inv.sane.free (h₃.inv.mutex l hl).2 hok hstep
  have hmem : (l, sizeofLock) ∈ s₄.live := by
    rw [hf.live]
    refine List.mem_filter.mpr ⟨(h₃.inv.mutex l hl).1, ?_⟩
    exact decide_eq_true (h₃.inv.waitOf_ne hl hl).symm
  exact h₃.inv.of_frees hl hf (hf.sane.free hmem hok' hstep')

end Mutexes

/-! ### The calls of the running thread -/

section RunningThread

variable {t v : ℕ} {u : Unit} {Q : Set ℕ}

/-- The thread at `t` is running, and its record is in use. -/
structure Running (E : HeapEnv) (M : List ℕ) (t : ℕ) (s : OSHeap) : Prop where
  inv : HeapInv E M s
  ne_zero : s.globals .running ≠ 0
  eq : pointerField.get s.mem (s.globals .running) = t
  record : (t, sizeofSthread) ∈ s.live

/-- The invariant with a running thread holds after the program. -/
abbrev KeepsRunning (E : HeapEnv) (M : List ℕ) (t : ℕ) {α : Type} (p : HeapProg α) : Prop :=
  Prog.Preserves (heapStep E) (HeapAllowed E) (Running E M t) p

/-- The pointer `running` is in a block of a size of its own. -/
theorem Running.disjoint (h : Running E M t s) {b : ℕ × ℕ} (hb : b ∈ s.live)
    (hsize : b.2 ≠ Global.size .running) :
    Disjoint (dataBytes b) (dataBytes (s.globals .running, Global.size .running)) := by
  have hmem := (h.inv.globals .running h.ne_zero).1
  refine h.inv.sane.region.disjoint_data hb hmem fun heq => hsize ?_
  exact congrArg Prod.snd (h.inv.sane.region.eq_of_fst_eq hb hmem heq)

theorem Running.evolves (h : Running E M t s) (hev : Evolves E M Q s s')
    (hq : Disjoint Q (dataBytes (s.globals .running, Global.size .running))) :
    Running E M t s' := by
  refine ⟨hev.inv, hev.globals ▸ h.ne_zero, ?_, hev.live h.record⟩
  rw [hev.globals, ← h.eq]
  refine load_congr fun x hx => (hev.kept _ (h.inv.globals .running h.ne_zero).1 x ⟨hx, ?_⟩).1
  exact fun hm => Set.disjoint_left.mp hq hm hx

theorem Running.isPrivate (h : Running E M t s) : Private M s (t, sizeofSthread) := by
  refine ⟨h.record, fun l hl => ⟨fun heq => ?_, fun heq => ?_⟩⟩
  · have hsame := h.inv.sane.region.eq_of_fst_eq h.record (h.inv.mutex l hl).1 heq
    exact absurd (show sizeofSthread = sizeofLock from congrArg Prod.snd hsame) (by decide)
  · have hsame := h.inv.sane.region.eq_of_fst_eq h.record (h.inv.mutex l hl).2 heq
    exact absurd (show sizeofSthread = sizeofLinkedList from congrArg Prod.snd hsame) (by decide)

/-- A field of the record of the running thread is set. -/
theorem Running.set {f : Field} (h : Running E M t s) (hfit : f.off + f.len ≤ sizeofSthread)
    (hs : HeapRuns E (Heap.set f t v) s u s') : Running E M t s' ∧ s'.mem = f.set s.mem t v := by
  obtain ⟨hev, hmem⟩ := h.inv.setPrivate h.isPrivate hfit hs
  refine ⟨h.evolves hev ?_, hmem⟩
  exact (h.disjoint h.record (show sizeofSthread ≠ 8 by decide)).mono_left (fieldBytes_subset hfit)

theorem keepsRunning_setAt {g : Global} {f : Field} (hfit : f.off + f.len ≤ g.size)
    (hg : g.size ≠ 8) : KeepsRunning E M t (Heap.setAt g f v) := by
  intro s _ s' h hs
  obtain ⟨p, s₁, hget, hset⟩ := Prog.runs_bind.mp hs
  obtain ⟨rfl, rfl⟩ := getGlobal_unchanged hget
  have hblock := h.inv.globals g (set_ne_zero hset)
  refine h.evolves (h.inv.setPrivate hblock hfit hset).1 ?_
  exact (h.disjoint hblock.1 hg).mono_left (fieldBytes_subset hfit)

theorem keepsRunning_getAt (g : Global) (f : Field) : KeepsRunning E M t (Heap.getAt g f) :=
  fun _ _ _ h hs => getAt_unchanged hs ▸ h

theorem Running.getAt (h : Running E M t s)
    (hs : HeapRuns E (Heap.getAt .running pointerField) s v s') : s' = s ∧ t = v := by
  obtain ⟨hsame, hv⟩ := getAt_eq hs
  exact ⟨hsame, (hv.trans h.eq).symm⟩

theorem keepsRunning_maintenance : KeepsRunning E M t Heap.maintenance := by
  refine (keepsRunning_getAt _ _).bind fun n => ?_
  refine (keepsRunning_setAt (by decide) (by decide)).bind fun _ => ?_
  refine (keepsRunning_getAt _ _).bind fun n => ?_
  intro s a s' h hs
  split_ifs at hs
  · -- the header of the run queue is in a block of its own
    obtain ⟨run, s₁, hget, hs⟩ := Prog.runs_bind.mp hs
    obtain ⟨rfl, rfl⟩ := getGlobal_unchanged hget
    obtain ⟨_, s₂, horder, hset⟩ := Prog.runs_bind.mp hs
    have hne : s₁.globals .run ≠ 0 := fun h0 => by
      obtain ⟨-, hstep⟩ := Prog.runs_perform.mp horder
      rw [heapStep, if_pos h0] at hstep
      cases hstep
    have h₂ := h.evolves (h.inv.orderByOldest h.inv.isQueue_run horder)
      ((h.disjoint (h.inv.globals .run hne).1 (show sizeofLinkedList ≠ 8 by decide)).mono_left
        (Set.Ico_subset_Ico_right (Nat.add_le_add_left (show 20 ≤ sizeofLinkedList by decide) _)))
    exact keepsRunning_setAt (by decide) (by decide) _ _ _ h₂ hset
  · obtain ⟨-, rfl⟩ := Prog.runs_pure.mp hs
    exact h

theorem someReady_unchanged {ready : Bool} (hs : HeapRuns E Heap.someReady s ready s') :
    s' = s := by
  obtain ⟨run, s₁, hget, hs⟩ := Prog.runs_bind.mp hs
  obtain ⟨rfl, rfl⟩ := getGlobal_unchanged hget
  obtain ⟨head, s₂, hhead, hpure⟩ := Prog.runs_bind.mp hs
  obtain ⟨rfl, -⟩ := get_unchanged hhead
  exact (Prog.runs_pure.mp hpure).2.symm

theorem HeapInv.runNext (h : HeapInv E M s) (hs : HeapRuns E Heap.runNext s u s') :
    HeapInv E M s' := by
  obtain ⟨run, s₁, hget, hs⟩ := Prog.runs_bind.mp hs
  obtain ⟨rfl, rfl⟩ := getGlobal_unchanged hget
  obtain ⟨next, s₂, hpop, hset⟩ := Prog.runs_bind.mp hs
  exact ((h.pop h.isQueue_run hpop).inv.setAt (by decide) hset).inv

theorem HeapInv.rotate (h : HeapInv E M s) (hs : HeapRuns E Heap.rotate s u s') :
    HeapInv E M s' := by
  obtain ⟨run, s₁, hget, hs⟩ := Prog.runs_bind.mp hs
  obtain ⟨rfl, rfl⟩ := getGlobal_unchanged hget
  obtain ⟨next, s₂, hpop, hs⟩ := Prog.runs_bind.mp hs
  have h₂ := h.pop h.isQueue_run hpop
  obtain ⟨self, s₃, hself, hrest⟩ := Prog.runs_bind.mp hs
  obtain rfl := getAt_unchanged hself
  obtain ⟨_, s₄, hpush, hset⟩ := Prog.runs_bind.mp hrest
  have hqueue (hne : s₁.globals .run ≠ 0) : IsQueue M s₃ (s₁.globals .run) :=
    (h.isQueue_run hne).evolves h₂
  exact ((h₂.inv.pushOrdered hqueue hpush).inv.setAt (by decide) hset).inv

theorem Running.scheduler (h : Running E M t s) (hs : HeapRuns E Heap.scheduler s u s') :
    HeapInv E M s' := by
  obtain ⟨_, s₁, htimer, hs⟩ := Prog.runs_bind.mp hs
  have h₁ := keepsRunning_setAt (by decide) (by decide) _ _ _ h htimer
  obtain ⟨_, s₂, hpass, hs⟩ := Prog.runs_bind.mp hs
  have h₂ := keepsRunning_maintenance _ _ _ h₁ hpass
  obtain ⟨self, s₃, hself, hs⟩ := Prog.runs_bind.mp hs
  obtain ⟨rfl, rfl⟩ := h₂.getAt hself
  obtain ⟨p, s₄, hprio, hs⟩ := Prog.runs_bind.mp hs
  obtain ⟨rfl, -, rfl⟩ := get_unchanged hprio
  obtain ⟨_, s₅, hset, hs⟩ := Prog.runs_bind.mp hs
  have h₅ := (h₂.set (by decide) hset).1
  obtain ⟨ready, s₆, hready, hrest⟩ := Prog.runs_bind.mp hs
  obtain rfl := someReady_unchanged hready
  split_ifs at hrest
  · exact h₅.inv.rotate hrest
  · obtain ⟨-, rfl⟩ := Prog.runs_pure.mp hrest
    exact h₅.inv

theorem Running.myPthreadYield (h : Running E M t s)
    (hs : HeapRuns E Heap.myPthreadYield s u s') : HeapInv E M s' := by
  obtain ⟨self, s₁, hself, hs⟩ := Prog.runs_bind.mp hs
  obtain ⟨rfl, rfl⟩ := h.getAt hself
  obtain ⟨p, s₂, hprio, hs⟩ := Prog.runs_bind.mp hs
  obtain ⟨rfl, -, rfl⟩ := get_unchanged hprio
  obtain ⟨_, s₃, hset, hs⟩ := Prog.runs_bind.mp hs
  have h₃ : Running E M t s₃ := by
    split_ifs at hset
    · exact (h.set (by decide) hset).1
    · obtain ⟨-, rfl⟩ := Prog.runs_pure.mp hset
      exact h
  exact h₃.scheduler hs

theorem Running.threadExit {fuel : ℕ} {res : Option ℕ} (h : Running E M t s)
    (hwait : sthreadWaitJoin.get s.mem t ≠ 0 →
      (sthreadWaitJoin.get s.mem t, sizeofLinkedList) ∈ s.live)
    (hs : HeapRuns E (Heap.threadExit fuel res) s u s') : HeapInv E M s' := by
  obtain ⟨self, s₁, hself, hs⟩ := Prog.runs_bind.mp hs
  obtain ⟨rfl, rfl⟩ := h.getAt hself
  obtain ⟨_, s₂, hset, hs⟩ := Prog.runs_bind.mp hs
  obtain ⟨h₂, hmem₂⟩ := h.set (by decide) hset
  obtain ⟨_, s₃, hres, hs⟩ := Prog.runs_bind.mp hs
  -- the pointer `waitJoin` is as before, and so are the blocks
  obtain ⟨h₃, hsame, hlive⟩ : Running E M t s₃ ∧
      sthreadWaitJoin.get s₃.mem t = sthreadWaitJoin.get s₁.mem t ∧
      s₁.live ⊆ s₃.live := by
    have hsub := (h.inv.setPrivate h.isPrivate (by decide) hset).1.live
    have hkept : sthreadWaitJoin.get s₂.mem t = sthreadWaitJoin.get s₁.mem t := by
      rw [hmem₂, Field.get_set_of_apart (by decide)]
    cases res with
    | none =>
      obtain ⟨-, rfl⟩ := Prog.runs_pure.mp hres
      exact ⟨h₂, hkept, hsub⟩
    | some a =>
      obtain ⟨h₃, hmem₃⟩ := h₂.set (by decide) hres
      refine ⟨h₃, ?_,
        List.Subset.trans hsub (h₂.inv.setPrivate h₂.isPrivate (by decide) hres).1.live⟩
      rw [hmem₃, Field.get_set_of_apart (by decide), hkept]
  obtain ⟨wait, s₄, hget, hs⟩ := Prog.runs_bind.mp hs
  obtain ⟨rfl, -, rfl⟩ := get_unchanged hget
  obtain ⟨_, s₅, hwake, hs⟩ := Prog.runs_bind.mp hs
  have h₅ := h₃.inv.wakeAll (fun hne => h₃.inv.isQueue_of_mem (hlive (by
    rw [hsame] at hne ⊢
    exact hwait hne))) hwake
  obtain ⟨ready, s₆, hready, hrest⟩ := Prog.runs_bind.mp hs
  obtain rfl := someReady_unchanged hready
  split_ifs at hrest
  · obtain ⟨_, s₇, hnext, htimer⟩ := Prog.runs_bind.mp hrest
    exact ((h₅.inv.runNext hnext).setAt (by decide) htimer).inv
  · obtain ⟨-, rfl⟩ := Prog.runs_pure.mp hrest
    exact h₅.inv

theorem HeapInv.myPthreadJoin (h : HeapInv E M s)
    (hwait : sthreadWaitJoin.get s.mem t ≠ 0 →
      (sthreadWaitJoin.get s.mem t, sizeofLinkedList) ∈ s.live)
    (hs : HeapRuns E (Heap.myPthreadJoin t) s u s') : HeapInv E M s' := by
  obtain ⟨finished, s₁, hget, hs⟩ := Prog.runs_bind.mp hs
  obtain ⟨rfl, -, rfl⟩ := get_unchanged hget
  split_ifs at hs
  · obtain ⟨wait, s₂, hget, hs⟩ := Prog.runs_bind.mp hs
    obtain ⟨rfl, -, rfl⟩ := get_unchanged hget
    obtain ⟨self, s₃, hself, hs⟩ := Prog.runs_bind.mp hs
    obtain ⟨rfl, rfl⟩ := getAt_eq hself
    obtain ⟨_, s₄, hpush, hs⟩ := Prog.runs_bind.mp hs
    have h₄ := (h.pushOrdered (fun hne => h.isQueue_of_mem (hwait hne)) hpush).inv
    obtain ⟨ready, s₅, hready, hrest⟩ := Prog.runs_bind.mp hs
    obtain rfl := someReady_unchanged hready
    split_ifs at hrest
    · exact h₄.runNext hrest
    · -- nothing is given back
      obtain ⟨_, _, hrelease, -⟩ := Prog.runs_bind.mp hrest
      exact (Prog.runs_perform.mp hrelease).1.elim
  · obtain ⟨-, rfl⟩ := Prog.runs_pure.mp hs
    exact h

end RunningThread

/-! ### The calls that create a list -/

/-- The list whose header is at `l` is empty, for `empty` and `pop` as well as for `push`. -/
def EmptyQueue (m : Memory) (l : ℕ) : Prop :=
  l ≠ 0 ∧ listTail.get m l = 0 ∧ listHead.get m l = 0

theorem load_eq_zero {m : Memory} {a n : ℕ} (h : ∀ x ∈ Set.Ico a (a + n), m x = 0) :
    load m a n = 0 := by
  induction n generalizing a with
  | zero => rfl
  | succ n ih =>
    rw [load, h a ⟨le_rfl, by omega⟩, ih fun x hx => h x ⟨by have := hx.1; omega, by
      have := hx.2; omega⟩]
    rfl

/-- A header whose first 16 bytes are not dirty. -/
theorem Sane.emptyQueue (h : Sane E s) {l : ℕ} (hl : (l, sizeofLinkedList) ∈ s.live) (hne : l ≠ 0)
    (hclean : ∀ x ∈ Set.Ico l (l + 16), s.dirty x = false) : EmptyQueue s.mem l := by
  obtain ⟨hbase, hlen⟩ := h.region.data_subset hl
  have hsize : sizeofLinkedList = 24 := rfl
  have hzero (x : ℕ) (hx : x ∈ Set.Ico l (l + 16)) : s.mem x = 0 :=
    h.clean x ⟨hbase.trans hx.1, by have := hx.2; dsimp only at hlen; omega⟩ (hclean x hx)
  refine ⟨hne, load_eq_zero fun x hx => hzero x ?_, load_eq_zero fun x hx => hzero x ?_⟩
  · exact ⟨hx.1, by have : x < l + 0 + 8 := hx.2; omega⟩
  · exact ⟨by have : l + 8 ≤ x := hx.1; omega, by have : x < l + 8 + 8 := hx.2; omega⟩

section Creation

variable {Q : Set ℕ} {l t n v : ℕ} {u : Unit}

/-- The header of a new list stays as it is while other bytes are written. -/
theorem Evolves.emptyQueue (h : Evolves E M Q s s') (hl : (l, sizeofLinkedList) ∈ s.live)
    (hne : l ≠ 0) (hclean : ∀ x ∈ Set.Ico l (l + 16), s.dirty x = false)
    (hq : Disjoint Q (dataBytes (l, sizeofLinkedList))) : EmptyQueue s'.mem l := by
  refine h.inv.sane.emptyQueue (h.live hl) hne fun x hx => ?_
  have hdata : x ∈ dataBytes (l, sizeofLinkedList) :=
    Set.Ico_subset_Ico_right (Nat.add_le_add_left (show 16 ≤ sizeofLinkedList by decide) l) hx
  rw [(h.kept _ hl x ⟨hdata, fun hm => Set.disjoint_left.mp hq hm hdata⟩).2]
  exact hclean x hx

/-- A mutex is registered. -/
theorem HeapInv.cons {wait : ℕ} (h : HeapInv E M s) (hl : Private M s (l, sizeofLock))
    (hw : Private M s (wait, sizeofLinkedList)) (heq : waitOf s l = wait)
    (hglobals : ∀ g, s.globals g ≠ 0 → s.globals g ≠ l ∧ s.globals g ≠ wait) :
    HeapInv E (l :: M) s := by
  refine ⟨h.sane, fun l' hl' => ?_, fun l₁ hl₁ l₂ hl₂ hsame => ?_, fun g hg => ?_⟩
  · rcases List.mem_cons.mp hl' with rfl | hl'
    · exact ⟨hl.1, heq ▸ hw.1⟩
    · exact h.mutex l' hl'
  · rcases List.mem_cons.mp hl₁ with rfl | hm₁ <;> rcases List.mem_cons.mp hl₂ with rfl | hm₂
    · rfl
    · exact absurd (heq.symm.trans hsame) (hw.2 l₂ hm₂).2
    · exact absurd (heq.symm.trans hsame.symm) (hw.2 l₁ hm₁).2
    · exact h.inj l₁ hm₁ l₂ hm₂ hsame
  · refine ⟨(h.globals g hg).1, fun l' hl' => ?_⟩
    rcases List.mem_cons.mp hl' with rfl | hl'
    · rw [heq]
      exact hglobals g hg
    · exact (h.globals g hg).2 l' hl'

/-- A new object is none of those to which global pointers point. -/
theorem Allocates.global_ne {size p : ℕ} (ha : Allocates E size p s s') (h : HeapInv E M s)
    (g : Global) : s.globals g ≠ p := by
  by_cases hg : s.globals g = 0
  · rw [hg]
    exact ha.ne_zero.symm
  · exact ha.fresh _ (h.globals g hg).1

theorem HeapInv.myPthreadMutexInit {junk : ℕ → ℕ → UInt8} (hend : E.base + E.len < 2 ^ 64)
    (h : HeapInv E M s) (hs : HeapRuns E (Heap.myPthreadMutexInit junk) s l s') :
    HeapInv E (l :: M) s' ∧ EmptyQueue s'.mem (waitOf s' l) := by
  obtain ⟨p, s₁, halloc, hs⟩ := Prog.runs_bind.mp hs
  obtain ⟨_, s₂, hstate, hs⟩ := Prog.runs_bind.mp hs
  obtain ⟨wait, s₃, hqueue, hs⟩ := Prog.runs_bind.mp hs
  obtain ⟨_, s₄, hset, hs⟩ := Prog.runs_bind.mp hs
  obtain ⟨rfl, rfl⟩ := Prog.runs_pure.mp hs
  rcases h.myallocate hend halloc with ⟨rfl, -⟩ | ⟨h₁, ha₁, hp₁⟩
  · exact absurd rfl (set_ne_zero hstate)
  have h₂ := (h₁.inv.setPrivate hp₁ (by decide) hstate).1
  obtain ⟨h₃, ha₃, hw₃, hclean⟩ := h₂.inv.newQueue hend hqueue
  have hp₃ := (hp₁.evolves h₂).evolves h₃
  obtain ⟨h₄, hmem⟩ := h₃.inv.setPrivate hp₃ (by decide) hset
  have hne : p ≠ wait := ha₃.fresh _ (hp₁.evolves h₂).1
  have hlt : wait < 2 ^ 64 := by
    obtain ⟨-, hhi⟩ := h₃.inv.sane.region.data_subset hw₃.1
    dsimp only at hhi
    omega
  have heq : waitOf s₄ p = wait := by
    rw [waitOf, hmem, Field.get_set_self]
    exact Nat.mod_eq_of_lt hlt
  refine ⟨h₄.inv.cons (hp₃.evolves h₄) (hw₃.evolves h₄) heq fun g hg => ?_, ?_⟩
  · have hglobals : s₄.globals = s.globals := by
      rw [h₄.globals, h₃.globals, h₂.globals, h₁.globals]
    refine ⟨?_, ?_⟩
    · rw [hglobals]
      exact ha₁.global_ne h g
    · rw [h₄.globals, h₃.globals]
      exact ha₃.global_ne h₂.inv g
  · rw [heq]
    refine h₄.emptyQueue hw₃.1 ha₃.ne_zero hclean ?_
    exact (h₃.inv.sane.region.disjoint_data hp₃.1 hw₃.1 hne).mono_left
      (fieldBytes_subset (by decide))

/-! ### Creating a thread -/

/-- The invariant holds after the program. -/
abbrev KeepsInv (E : HeapEnv) (M : List ℕ) {α : Type} (p : HeapProg α) : Prop :=
  Prog.Preserves (heapStep E) (HeapAllowed E) (HeapInv E M) p

theorem keepsInv_setAt {g : Global} {f : Field} (hfit : f.off + f.len ≤ g.size) :
    KeepsInv E M (Heap.setAt g f v) := fun _ _ _ h hs => (h.setAt hfit hs).inv

theorem keepsInv_getAt (g : Global) (f : Field) : KeepsInv E M (Heap.getAt g f) :=
  fun _ _ _ h hs => getAt_unchanged hs ▸ h

theorem keepsInv_getGlobal (g : Global) : KeepsInv E M (Heap.getGlobal g) :=
  fun _ _ _ h hs => (getGlobal_unchanged hs).1 ▸ h

theorem keepsInv_allocGlobal (hend : E.base + E.len < 2 ^ 64) (g : Global) (junk : ℕ → UInt8) :
    KeepsInv E M (Heap.allocGlobal g junk) := fun _ _ _ h hs => h.allocGlobal hend hs

theorem keepsInv_setMyScheduler (hend : E.base + E.len < 2 ^ 64) (junk : ℕ → ℕ → UInt8)
    (action : ℕ) : KeepsInv E M (Heap.setMyScheduler junk action) := by
  refine (keepsInv_setAt (by decide)).bind fun _ => ?_
  refine (keepsInv_allocGlobal hend _ _).bind fun _ => ?_
  refine (keepsInv_allocGlobal hend _ _).bind fun _ => ?_
  refine (keepsInv_setAt (by decide)).bind fun _ => ?_
  refine (keepsInv_setAt (by decide)).bind fun _ => ?_
  refine (keepsInv_setAt (by decide)).bind fun _ => ?_
  refine (keepsInv_setAt (by decide)).bind fun _ => ?_
  exact keepsInv_setAt (by decide)

theorem keepsInv_initOS (hend : E.base + E.len < 2 ^ 64) (junk : ℕ → ℕ → UInt8)
    (now action : ℕ) : KeepsInv E M (Heap.initOS junk now action) := by
  refine (keepsInv_allocGlobal hend _ _).bind fun _ => ?_
  refine (keepsInv_allocGlobal hend _ _).bind fun _ => ?_
  refine (keepsInv_setAt (by decide)).bind fun _ => ?_
  refine (keepsInv_allocGlobal hend _ _).bind fun _ => ?_
  refine (keepsInv_getAt _ _).bind fun id => ?_
  refine (keepsInv_setAt (by decide)).bind fun _ => ?_
  refine (keepsInv_setAt (by decide)).bind fun _ => ?_
  refine (keepsInv_setAt (by decide)).bind fun _ => ?_
  refine (keepsInv_setAt (by decide)).bind fun _ => ?_
  refine (keepsInv_setAt (by decide)).bind fun _ => ?_
  refine (keepsInv_setAt (by decide)).bind fun _ => ?_
  refine (keepsInv_setAt (by decide)).bind fun _ => ?_
  refine (keepsInv_allocGlobal hend _ _).bind fun _ => ?_
  refine (keepsInv_getGlobal _).bind fun main => ?_
  refine (keepsInv_setAt (by decide)).bind fun _ => ?_
  refine (keepsInv_allocGlobal hend _ _).bind fun _ => ?_
  refine (keepsInv_setAt (by decide)).bind fun _ => ?_
  exact keepsInv_setMyScheduler hend junk action

/-- What the creation of the thread `t` writes once its field `waitJoin` has been set: the other
fields of its record, and the objects to which the global pointers point. -/
def threadBytes (s : OSHeap) (t : ℕ) : Set ℕ := Set.Ico t (t + sthreadWaitJoin.off) ∪ globalBytes s

/-- The state `s` evolves into every state that the program reaches from one into which it does. -/
abbrev Continues (E : HeapEnv) (M : List ℕ) (s : OSHeap) (t : ℕ) {α : Type} (p : HeapProg α) :
    Prop :=
  Prog.Preserves (heapStep E) (HeapAllowed E) (Evolves E M (threadBytes s t) s) p

theorem continues_setThread {f : Field} (hp : Private M s (t, sizeofSthread))
    (hfit : f.off + f.len ≤ sthreadWaitJoin.off) : Continues E M s t (Heap.set f t v) := by
  intro s₁ _ s₂ h hs
  have hfit' : f.off + f.len ≤ sizeofSthread := hfit.trans (by decide)
  refine h.trans ((h.inv.setPrivate (hp.evolves h) hfit' hs).1.mono ?_)
  exact (Set.Ico_subset_Ico (Nat.le_add_right ..) (by omega)).trans Set.subset_union_left

theorem globalBytes_eq (h : s'.globals = s.globals) : globalBytes s' = globalBytes s := by
  rw [globalBytes, globalBytes, h]

theorem continues_setAt {g : Global} {f : Field} (hfit : f.off + f.len ≤ g.size) :
    Continues E M s t (Heap.setAt g f v) := by
  intro s₁ _ s₂ h hs
  refine h.trans ((h.inv.setAt hfit hs).mono ?_)
  rw [globalBytes_eq h.globals]
  exact Set.subset_union_right

theorem continues_getAt (g : Global) (f : Field) : Continues E M s t (Heap.getAt g f) :=
  fun _ _ _ h hs => getAt_unchanged hs ▸ h

theorem continues_myallocate (hend : E.base + E.len < 2 ^ 64) (size : ℕ) (junk : ℕ → UInt8) :
    Continues E M s t (Heap.myallocate size junk) := by
  intro s₁ _ s₂ h hs
  rcases h.inv.myallocate hend hs with ⟨-, rfl⟩ | ⟨h', -⟩
  · exact h
  · exact h.trans (h'.mono (Set.empty_subset _))

theorem continues_fillThread (hend : E.base + E.len < 2 ^ 64)
    (hp : Private M s (t, sizeofSthread)) (a : Heap.ThreadArgs) (junk : ℕ → UInt8) :
    Continues E M s t (Heap.fillThread t a junk) := by
  refine (continues_getAt _ _).bind fun id => ?_
  refine (continues_setThread hp (by decide)).bind fun _ => ?_
  refine (continues_setAt (by decide)).bind fun _ => ?_
  refine (continues_setThread hp (by decide)).bind fun _ => ?_
  refine (continues_setThread hp (by decide)).bind fun _ => ?_
  refine (continues_setThread hp (by decide)).bind fun _ => ?_
  refine (continues_setThread hp (by decide)).bind fun _ => ?_
  refine (continues_setThread hp (by decide)).bind fun _ => ?_
  cases a.context with
  | none =>
    intro s₁ _ s₂ h hs
    obtain ⟨-, rfl⟩ := Prog.runs_pure.mp hs
    exact h
  | some c =>
    refine (continues_setThread hp (by decide)).bind fun _ => ?_
    refine (continues_myallocate hend _ _).bind fun _ => ?_
    exact continues_setThread hp (by decide)

theorem continues_pushRun (v : ℕ) : Continues E M s t (do
    let run ← Heap.getGlobal .run
    Heap.pushOrdered run v) := by
  intro s₁ _ s₂ h hs
  obtain ⟨run, s₃, hget, hpush⟩ := Prog.runs_bind.mp hs
  obtain ⟨rfl, rfl⟩ := getGlobal_unchanged hget
  refine h.trans ((h.inv.pushOrdered h.inv.isQueue_run hpush).mono ?_)
  refine Set.Subset.trans ?_ Set.subset_union_right
  rw [← globalBytes_eq h.globals]
  refine Set.Subset.trans ?_ (dataBytes_subset_globalBytes (pushOrdered_ne_zero hpush))
  exact Set.Ico_subset_Ico_right (Nat.add_le_add_left (show 20 ≤ sizeofLinkedList by decide) _)

/-- The thread `t` has been given its list, and its other fields are still to be set. -/
structure FreshThread (E : HeapEnv) (M : List ℕ) (t wait : ℕ) (s : OSHeap) : Prop where
  inv : HeapInv E M s
  thread : Private M s (t, sizeofSthread)
  queue : Private M s (wait, sizeofLinkedList)
  ne_zero : wait ≠ 0
  clean : ∀ x ∈ Set.Ico wait (wait + 16), s.dirty x = false
  waitJoin : sthreadWaitJoin.get s.mem t = wait
  ne : t ≠ wait
  globals : ∀ g, s.globals g ≠ t ∧ s.globals g ≠ wait

theorem HeapInv.createNewThread {a : Heap.ThreadArgs} {junk : ℕ → ℕ → UInt8}
    (hend : E.base + E.len < 2 ^ 64) (h : HeapInv E M s)
    (hs : HeapRuns E (Heap.createNewThread a junk) s t s') :
    ∃ wait s₁, FreshThread E M t wait s₁ ∧ Evolves E M (threadBytes s₁ t) s₁ s' := by
  obtain ⟨p, s₁, halloc, hs⟩ := Prog.runs_bind.mp hs
  obtain ⟨wait, s₂, hqueue, hs⟩ := Prog.runs_bind.mp hs
  obtain ⟨_, s₃, hset, hs⟩ := Prog.runs_bind.mp hs
  obtain ⟨_, s₄, hfill, hs⟩ := Prog.runs_bind.mp hs
  obtain ⟨rfl, rfl⟩ := Prog.runs_pure.mp hs
  rcases h.myallocate hend halloc with ⟨rfl, -⟩ | ⟨h₁, ha₁, hp₁⟩
  · exact absurd rfl (set_ne_zero hset)
  obtain ⟨h₂, ha₂, hw₂, hclean⟩ := h₁.inv.newQueue hend hqueue
  have hp₂ := hp₁.evolves h₂
  obtain ⟨h₃, hmem⟩ := h₂.inv.setPrivate hp₂ (by decide) hset
  have hne : p ≠ wait := ha₂.fresh _ hp₁.1
  have hlt : wait < 2 ^ 64 := by
    obtain ⟨-, hhi⟩ := h₂.inv.sane.region.data_subset hw₂.1
    dsimp only at hhi
    omega
  have hdisj : Disjoint (fieldBytes sthreadWaitJoin p) (dataBytes (wait, sizeofLinkedList)) :=
    (h₂.inv.sane.region.disjoint_data hp₂.1 hw₂.1 hne).mono_left (fieldBytes_subset (by decide))
  have hfresh : FreshThread E M p wait s₃ := by
    refine ⟨h₃.inv, hp₂.evolves h₃, hw₂.evolves h₃, ha₂.ne_zero, fun x hx => ?_, ?_, hne,
      fun g => ⟨?_, ?_⟩⟩
    · have hdata : x ∈ dataBytes (wait, sizeofLinkedList) :=
        Set.Ico_subset_Ico_right (Nat.add_le_add_left (show 16 ≤ sizeofLinkedList by decide) _) hx
      rw [(h₃.kept _ hw₂.1 x ⟨hdata, fun hm => Set.disjoint_left.mp hdisj hm hdata⟩).2]
      exact hclean x hx
    · rw [hmem, Field.get_set_self]
      exact Nat.mod_eq_of_lt hlt
    · rw [h₃.globals, h₂.globals, h₁.globals]
      exact ha₁.global_ne h g
    · rw [h₃.globals, h₂.globals]
      exact ha₂.global_ne h₁.inv g
  refine ⟨wait, s₃, hfresh, ?_⟩
  exact continues_fillThread hend hfresh.thread a (junk 2) s₃ _ s₄ (Evolves.refl h₃.inv) hfill

/-- The header of the list of a new thread, and the pointer to it, are not written. -/
theorem FreshThread.emptyQueue {wait : ℕ} (h : FreshThread E M t wait s)
    (hev : Evolves E M (threadBytes s t) s s') :
    EmptyQueue s'.mem (sthreadWaitJoin.get s'.mem t) := by
  have hregion := h.inv.sane.region
  have hglobal {b : ℕ × ℕ} (hb : b ∈ s.live) (hne : ∀ g, s.globals g ≠ b.1) :
      Disjoint (globalBytes s) (dataBytes b) := by
    rw [Set.disjoint_left]
    rintro x ⟨g, hg, hxg⟩ hxb
    have hdisj := hregion.disjoint_data (h.inv.globals g hg).1 hb (hne g)
    exact Set.disjoint_left.mp hdisj hxg hxb
  have hfield : sthreadWaitJoin.get s'.mem t = wait := by
    have hsub : fieldBytes sthreadWaitJoin t ⊆ dataBytes (t, sizeofSthread) :=
      fieldBytes_subset (by decide)
    rw [← h.waitJoin]
    refine load_congr fun x hx => (hev.kept _ h.thread.1 x ⟨hsub hx, ?_⟩).1
    rintro (hxt | hxg)
    · exact absurd hx.1 (not_le.mpr hxt.2)
    · exact Set.disjoint_left.mp (hglobal h.thread.1 fun g => (h.globals g).1) hxg (hsub hx)
  rw [hfield]
  refine hev.emptyQueue h.queue.1 h.ne_zero h.clean (Set.disjoint_union_left.mpr ⟨?_, ?_⟩)
  · have hdisj := hregion.disjoint_data h.thread.1 h.queue.1 h.ne
    refine hdisj.mono_left (Set.Ico_subset_Ico_right ?_)
    exact Nat.add_le_add_left (show sthreadWaitJoin.off ≤ sizeofSthread by decide) t
  · exact hglobal h.queue.1 fun g => (h.globals g).2

theorem HeapInv.myPthreadCreate {a : Heap.ThreadArgs} {action : ℕ} {junk : ℕ → ℕ → UInt8}
    (hend : E.base + E.len < 2 ^ 64) (h : HeapInv E M s)
    (hs : HeapRuns E (Heap.myPthreadCreate a action junk) s t s') :
    HeapInv E M s' ∧ EmptyQueue s'.mem (sthreadWaitJoin.get s'.mem t) := by
  obtain ⟨run, s₁, hget, hrest⟩ := Prog.runs_bind.mp hs
  have h₁ : HeapInv E M s₁ := (getGlobal_unchanged hget).1 ▸ h
  obtain ⟨_, s₂, hinit, hrest⟩ := Prog.runs_bind.mp hrest
  have h₂ : HeapInv E M s₂ := by
    split_ifs at hinit
    · exact keepsInv_initOS hend _ _ _ _ _ _ h₁ hinit
    · exact (Prog.runs_pure.mp hinit).2 ▸ h₁
  obtain ⟨t', s₃, hcreate, hrest⟩ := Prog.runs_bind.mp hrest
  obtain ⟨wait, s₀, hfresh, hev⟩ := h₂.createNewThread hend hcreate
  obtain ⟨run', s₄, hrun, hrest⟩ := Prog.runs_bind.mp hrest
  obtain ⟨_, s₅, hpush, hret⟩ := Prog.runs_bind.mp hrest
  obtain ⟨rfl, rfl⟩ := Prog.runs_pure.mp hret
  have hev' := continues_pushRun t' s₃ _ s₅ hev (Prog.runs_bind.mpr ⟨run', s₄, hrun, hpush⟩)
  exact ⟨hev'.inv, hfresh.emptyQueue hev'⟩

end Creation

/-! ### Runs -/

/-- What the last call has created has an empty list. -/
def NewQueueEmpty (s : HeapState) : Prop :=
  (∀ l, s.created = some (.mutex l) → EmptyQueue s.heap.mem (waitOf s.heap l)) ∧
    ∀ t, s.created = some (.thread t) → EmptyQueue s.heap.mem (sthreadWaitJoin.get s.heap.mem t)

theorem newQueueEmpty_none {heap : OSHeap} {M : List ℕ} : NewQueueEmpty ⟨heap, M, none⟩ :=
  ⟨nofun, nofun⟩

theorem HeapState.HasRunning.running {s : HeapState} (hr : s.HasRunning)
    (h : HeapInv E s.mutexes s.heap) : Running E s.mutexes s.running s.heap :=
  ⟨h, hr.1, rfl, hr.2.1⟩

/-- The program of a call that is made under a condition and creates nothing. -/
theorem HeapRuns.guarded {c : Prop} [Decidable c] {p : HeapProg Unit} {t t' : OSHeap}
    {M M' : List ℕ} {created created' : Option Created}
    (h : HeapRuns E (if c then p >>= fun _ => pure (M, created) else .fail) t (M', created') t') :
    c ∧ M = M' ∧ created = created' ∧ HeapRuns E p t () t' := by
  obtain ⟨hc, hrun⟩ := Prog.runs_guard.mp h
  obtain ⟨_, _, hp, hret⟩ := Prog.runs_bind.mp hrun
  obtain ⟨heq, rfl⟩ := Prog.runs_pure.mp hret
  obtain ⟨hM, hcreated⟩ := Prod.mk.inj heq
  exact ⟨hc, hM, hcreated, hp⟩

/-- One call. -/
theorem heapInv_heapCallStep {s s' : HeapState} {c : HeapCall} (hend : E.base + E.len < 2 ^ 64)
    (h : HeapInv E s.mutexes s.heap) (hok : HeapCallAllowed E s c)
    (hs : heapCallStep E s c = some s') : HeapInv E s'.mutexes s'.heap ∧ NewQueueEmpty s' := by
  obtain ⟨⟨⟨M, created⟩, heap⟩, hexec, rfl⟩ := Option.map_eq_some_iff.mp hs
  have hrun : HeapRuns E (s.call E c) s.heap (M, created) heap := ⟨hok, hexec⟩
  dsimp only
  cases c with
  | mutexInit junk =>
    obtain ⟨l, t, hinit, hret⟩ := Prog.runs_bind.mp hrun
    obtain ⟨heq, rfl⟩ := Prog.runs_pure.mp hret
    obtain ⟨rfl, rfl⟩ := Prod.mk.inj heq
    obtain ⟨hinv, hempty⟩ := h.myPthreadMutexInit hend hinit
    refine ⟨hinv, fun l' hl' => ?_, nofun⟩
    obtain rfl := Created.mutex.inj (Option.some.inj hl')
    exact hempty
  | lock l =>
    obtain ⟨hl, rfl, rfl, hcall⟩ := hrun.guarded
    exact ⟨h.myPthreadMutexLock hl hcall, newQueueEmpty_none⟩
  | unlock l =>
    obtain ⟨hl, rfl, rfl, hcall⟩ := hrun.guarded
    exact ⟨h.myPthreadMutexUnlock hl hcall, newQueueEmpty_none⟩
  | destroy l =>
    obtain ⟨hl, rfl, rfl, hcall⟩ := hrun.guarded
    exact ⟨h.myPthreadMutexDestroy hl hcall, newQueueEmpty_none⟩
  | create a action junk =>
    obtain ⟨t, s₁, hcreate, hret⟩ := Prog.runs_bind.mp hrun
    obtain ⟨heq, rfl⟩ := Prog.runs_pure.mp hret
    obtain ⟨rfl, rfl⟩ := Prod.mk.inj heq
    obtain ⟨hinv, hempty⟩ := h.myPthreadCreate hend hcreate
    refine ⟨hinv, nofun, fun t' ht' => ?_⟩
    obtain rfl := Created.thread.inj (Option.some.inj ht')
    exact hempty
  | exit res =>
    obtain ⟨hthread, rfl, rfl, hcall⟩ := hrun.guarded
    exact ⟨(hthread.running h).threadExit hthread.2.2 hcall, newQueueEmpty_none⟩
  | join t =>
    obtain ⟨hthread, rfl, rfl, hcall⟩ := hrun.guarded
    exact ⟨h.myPthreadJoin hthread.2 hcall, newQueueEmpty_none⟩
  | yield =>
    obtain ⟨hthread, rfl, rfl, hcall⟩ := hrun.guarded
    exact ⟨(hthread.running h).myPthreadYield hcall, newQueueEmpty_none⟩
  | tick =>
    obtain ⟨hthread, rfl, rfl, hcall⟩ := hrun.guarded
    exact ⟨(hthread.running h).scheduler hcall, newQueueEmpty_none⟩
  | write a v =>
    obtain ⟨⟨b, hb, hlo, hhi, hne⟩, rfl, rfl, hset⟩ := hrun.guarded
    have hpriv : Private s.mutexes s.heap b := ⟨hb, hne⟩
    have hsub : fieldBytes ⟨0, 1⟩ a ⊆ dataBytes b := Set.Ico_subset_Ico hlo hhi
    have hwait (l : ℕ) (hl : l ∈ s.mutexes) : Disjoint (fieldBytes ⟨0, 1⟩ a) (waitBytes l) :=
      (hpriv.disjoint_wait h hl).mono_left hsub
    exact ⟨(h.set hb hlo hhi hwait hset).1.inv, newQueueEmpty_none⟩

/-- The state after `init`, for a memory that was zero: only the record of the one free block is
dirty. -/
def HeapState.init (E : HeapEnv) (m : Memory) : HeapState :=
  ⟨⟨m, fun _ => none, 0, fun _ => 0, [], touch (fun _ => false) E.base sizeofSpaceNode⟩, [], none⟩

theorem heapInv_init {m : Memory} {mem : ℕ} {junk : ℕ → UInt8} (hend : mem + memoryStart < 2 ^ 64)
    (hzero : ∀ x ∈ Set.Ico (mem + osReservedStart) (mem + memoryStart), m x = 0)
    (hbase : E.base = mem + osReservedStart) (hlen : E.len = memoryStart - osReservedStart) :
    HeapInv E [] (HeapState.init E (initOSRegion m mem junk)).heap := by
  have hregion : RegionInv E.base E.len ⟨initOSRegion m mem junk, []⟩ := by
    rw [hbase, hlen]
    exact ⟨_, regionBlocks_init (.os m mem junk hend)⟩
  refine ⟨⟨hregion, fun x hx hd => ?_⟩, nofun, nofun, fun g hg => absurd rfl hg⟩
  · have hd : touch (fun _ => false) E.base sizeofSpaceNode x = false := hd
    obtain ⟨-, hrec⟩ := touch_eq_false.mp hd
    rw [hbase, hlen] at hx
    rw [hbase] at hrec
    have hle : osReservedStart ≤ memoryStart := by decide
    refine (initOSRegion_eqOn m mem junk hrec).trans (hzero x ⟨hx.1, hx.2.trans_le ?_⟩)
    omega

/-- **New queues start empty.** In every run of calls in a memory that was zero, in which allocated
blocks fit, freed ones are joined with the block before them or with none, and the bytes of a new
list's `tail` and `head` are not dirty, the list of a mutex or thread is empty when it has been
created. -/
theorem new_queues_empty (E : HeapEnv) (m : Memory) (mem : ℕ) (junk : ℕ → UInt8)
    (hend : mem + memoryStart < 2 ^ 64)
    (hzero : ∀ x ∈ Set.Ico (mem + osReservedStart) (mem + memoryStart), m x = 0)
    (hbase : E.base = mem + osReservedStart) (hlen : E.len = memoryStart - osReservedStart)
    (calls : List HeapCall) (s : HeapState)
    (hok : RunOk (heapCallStep E) (HeapCallAllowed E)
      (HeapState.init E (initOSRegion m mem junk)) calls)
    (hrun : run (heapCallStep E) (HeapState.init E (initOSRegion m mem junk)) calls = some s) :
    (∀ l, s.created = some (.mutex l) → EmptyQueue s.heap.mem (waitOf s.heap l)) ∧
      ∀ t, s.created = some (.thread t) →
        EmptyQueue s.heap.mem (sthreadWaitJoin.get s.heap.mem t) := by
  have hend' : E.base + E.len < 2 ^ 64 := by
    have hle : osReservedStart ≤ memoryStart := by decide
    rw [hbase, hlen]
    omega
  have hinv : HeapInv E s.mutexes s.heap ∧ NewQueueEmpty s := run_invariant
    (fun _ _ _ hi hok hs => heapInv_heapCallStep hend' hi.1 hok hs)
    ⟨heapInv_init hend hzero hbase hlen, newQueueEmpty_none⟩ hok hrun
  exact hinv.2

/-- The memory of the operating system when `mem` is 4096, and the addresses of the nodes. -/
def smallEnv : HeapEnv := ⟨1004096, 1097152, 10, fun i => 16 + 16 * UInt64.ofNat i⟩

/-- The state after `init` there. -/
def smallHeap : HeapState := HeapState.init smallEnv (initOSRegion (fun _ => 0) 4096 fun _ => 0)

/-- A mutex is destroyed, and another one takes its place. -/
theorem new_queues_empty_recycled :
    ∃ s, run (heapCallStep smallEnv) smallHeap
        [.mutexInit fun _ _ => 0, .lock 1004152, .destroy 1004152, .mutexInit fun _ _ => 0] =
          some s ∧
      s.created = some (.mutex 1004152) ∧ EmptyQueue s.heap.mem (waitOf s.heap 1004152) := by
  have hend : (run (heapCallStep smallEnv) smallHeap
      [.mutexInit fun _ _ => 0, .lock 1004152, .destroy 1004152, .mutexInit fun _ _ => 0]).map
      HeapState.created = some (some (.mutex 1004152)) := by decide +kernel
  obtain ⟨s, hrun, hcreated⟩ := Option.map_eq_some_iff.mp hend
  refine ⟨s, hrun, hcreated, ?_⟩
  exact (new_queues_empty smallEnv (fun _ => 0) 4096 (fun _ => 0) (by decide)
    (fun _ _ => rfl) rfl rfl _ s (by decide +kernel) hrun).1 1004152 hcreated

/-- A mutex is destroyed between the creation of two threads: the list of the second one is where
the lock was, and its `head` is the old pointer `wait`. -/
theorem new_queue_on_destroyed_mutex :
    ∃ s t, run (heapCallStep smallEnv) smallHeap
        [.mutexInit fun _ _ => 0, .create ⟨0, 0, 0, some (0, 0)⟩ 0 fun _ _ => 0, .destroy 1004152,
          .create ⟨0, 0, 0, some (0, 0)⟩ 0 fun _ _ => 0] = some s ∧
      s.created = some (.thread t) ∧
      listHead.get s.heap.mem (sthreadWaitJoin.get s.heap.mem t) ≠ 0 := by
  have hend : (run (heapCallStep smallEnv) smallHeap
      [.mutexInit fun _ _ => 0, .create ⟨0, 0, 0, some (0, 0)⟩ 0 fun _ _ => 0, .destroy 1004152,
        .create ⟨0, 0, 0, some (0, 0)⟩ 0 fun _ _ => 0]).map (fun s =>
          (s.created, listHead.get s.heap.mem (sthreadWaitJoin.get s.heap.mem 1039928))) =
      some (some (.thread 1039928), 1004224) := by decide +kernel
  obtain ⟨s, hrun, hs⟩ := Option.map_eq_some_iff.mp hend
  obtain ⟨hcreated, hhead⟩ := Prod.mk.inj hs
  refine ⟨s, 1039928, hrun, hcreated, ?_⟩
  rw [hhead]
  decide

end OSDesign
