import OSDesign.VM.BlockLinks
import OSDesign.VM.SharedMemory

/-!
# Freeing a block twice

`removeSpace` returns at once when the record in front of the pointer says that the block is free. A
freed block may have been joined with a neighbour, and then its record is not on the list any more,
but its bytes are still there. They stay as long as nothing is allocated: frees write the records of
blocks that were on the list when the block was freed, and owners write their own data. So a second
free of the same pointer is ignored up to the next allocation.

## Main definitions

* `Stale`: the record of a block that was freed, on the list or not.

## Main results

* `double_free_ignored`.
-/

namespace OSDesign.VM

open Transition ByteMemory

variable {base len : ℕ} {m : Memory} {s s' : Region} {n ptr x y size : ℕ} {b : Block}
  {l r bs : List Block}

/-! ### The flag of a record -/

/-- A change of another record, or of another field of the same one. -/
theorem free_of_eqOn {m' : Memory} (heq : Set.EqOn m' m (Set.Ico x (x + sizeofSpaceNode))ᶜ)
    (hself : freeField.get m' x = freeField.get m x) (h : SameOrApart x n) :
    freeField.get m' n = freeField.get m n := by
  rcases h with rfl | h
  · exact hself
  · exact freeField.get_congr (eqOn_of_disjoint heq (disjoint_Ico h)) (by decide)

theorem free_absorb (h : SameOrApart x n) :
    freeField.get (absorb m x size y) n = freeField.get m n := by
  refine free_of_eqOn (absorb_eqOn m x size y) ?_ h
  simp (disch := decide) only [absorb, Field.get_set_of_apart]

/-- The block that is freed is marked as free, and no other one is marked as used. -/
theorem free_markFree (h : SameOrApart x n) (hfree : x = n ∨ freeField.get m n ≠ 0) :
    freeField.get (markFree m x) n ≠ 0 := by
  have hself : freeField.get (markFree m x) x ≠ 0 := by
    simp (disch := decide) only [markFree, Field.get_set_of_apart, Field.get_set_self]
    decide
  rcases h with rfl | h
  · exact hself
  · have hne : x ≠ n := by
      rw [sizeofSpaceNode] at h
      omega
    rw [freeField.get_congr (eqOn_of_disjoint (markFree_eqOn m x) (disjoint_Ico h)) (by decide)]
    exact hfree.resolve_left hne

/-- A block stays marked as free when a block is freed, if the records that are written are its own
or do not meet it. -/
theorem free_removeSpace (hn : SameOrApart (ptr - sizeofSpaceNode) n)
    (hprev : Mergeable (markFree m (ptr - sizeofSpaceNode))
        (prevField.get m (ptr - sizeofSpaceNode)) →
      SameOrApart (prevField.get m (ptr - sizeofSpaceNode)) n)
    (hfree : ptr - sizeofSpaceNode = n ∨ freeField.get m n ≠ 0) :
    freeField.get (removeSpace m ptr) n ≠ 0 := by
  rw [removeSpace]
  dsimp only
  generalize ptr - sizeofSpaceNode = k at hn hprev hfree ⊢
  split_ifs with hk
  · rcases hfree with rfl | hfree
    · exact hk
    · exact hfree
  have hmark := free_markFree hn hfree
  rcases coalesce_eq (markFree m k) k (prevField.get m k) (nextField.get m k) with
    ⟨ha, -, heq⟩ | ⟨ha, -, heq⟩ | ⟨-, -, heq⟩ | ⟨-, -, heq⟩
  · rwa [heq, free_absorb (hprev ha)]
  · rwa [heq, free_absorb (hprev ha)]
  · rwa [heq, free_absorb hn]
  · rwa [heq]

/-! ### Stale records -/

theorem Block.stop_resize (h : b.free = true) (size : ℕ) : (b.resize size).stop = b.stop := by
  rw [Block.stop, Block.stop, Block.resize, h]
  rfl

theorem Block.stop_release_le (b : Block) : b.release.stop ≤ b.stop :=
  Nat.add_le_add_left (Nat.zero_le _) _

/-- Every block that is on the list after a free was there before, at the same place. -/
theorem Joins.origin {P N : Prop} (h : Joins P N b l r bs) {c : Block} (hc : c ∈ bs) :
    ∃ c₀ ∈ l ++ b :: r, c.addr = c₀.addr ∧ c.stop ≤ c₀.stop := by
  -- the blocks that are not written stay as they are
  have hmiddle {l' r' : List Block} {y : Block} (hc : c ∈ l' ++ y :: r')
      (hl : c ∈ l' → c ∈ l ++ b :: r) (hr : c ∈ r' → c ∈ l ++ b :: r)
      (hy : ∃ c₀ ∈ l ++ b :: r, y.addr = c₀.addr ∧ y.stop ≤ c₀.stop) :
      ∃ c₀ ∈ l ++ b :: r, c.addr = c₀.addr ∧ c.stop ≤ c₀.stop := by
    rcases List.mem_append.mp hc with hc | hc
    · exact ⟨c, hl hc, rfl, le_rfl⟩
    rcases List.mem_cons.mp hc with rfl | hc
    · exact hy
    · exact ⟨c, hr hc, rfl, le_rfl⟩
  cases h with
  | both hP hN l r x y hx hy =>
    exact hmiddle hc (by simp +contextual) (by simp +contextual)
      ⟨x, by simp, rfl, (Block.stop_resize hx _).le⟩
  | prev hP hN l r x hx hr =>
    exact hmiddle hc (by simp +contextual) (by simp +contextual)
      ⟨x, by simp, rfl, (Block.stop_resize hx _).le⟩
  | next hP hN l r y hy =>
    exact hmiddle hc (by simp +contextual) (by simp +contextual)
      ⟨b, by simp, rfl, (Block.stop_resize rfl _).trans_le b.stop_release_le⟩
  | none hP hN l r hr =>
    exact hmiddle hc (by simp +contextual) (by simp +contextual)
      ⟨b, by simp, rfl, b.stop_release_le⟩

/-- No block on the list meets the record at `n`, but one that is there itself. -/
def ClearOf (n : ℕ) (bs : List Block) : Prop :=
  ∀ c ∈ bs, c.addr = n ∨ c.stop ≤ n ∨ n + sizeofSpaceNode ≤ c.addr

/-- The record at `n` is marked as free, and no block on the list meets it but the one at `n`. -/
structure Stale (base len n : ℕ) (s : Region) (bs : List Block) : Prop where
  blocks : RegionBlocks base len s bs
  clearOf : ClearOf n bs
  free : freeField.get s.mem n ≠ 0

theorem ClearOf.sameOrApart (h : ClearOf n bs) {c : Block} (hc : c ∈ bs) :
    SameOrApart c.addr n := by
  have := c.addr_lt_stop
  rcases h c hc with h | h | h
  · exact Or.inl h
  · exact Or.inr (Or.inl (by omega))
  · exact Or.inr (Or.inr h)

/-- The record of a block meets no other block on the list. -/
theorem Spaced.clearOf {limit : ℕ} (h : Spaced limit bs) (hb : b ∈ bs) : ClearOf b.addr bs := by
  intro c hc
  have := b.addr_lt_stop
  rcases h.apart hc hb with rfl | hcb | hbc
  · exact Or.inl rfl
  · exact Or.inr (Or.inl hcb)
  · exact Or.inr (Or.inr (by omega))

/-- After a free, the record of the block that was freed is stale, and so is one that was before. -/
theorem RegionBlocks.stale_free (h : RegionBlocks base len s bs) (hn : ClearOf n bs)
    (hfree : ptr - sizeofSpaceNode = n ∨ freeField.get s.mem n ≠ 0)
    (hok : RegionAllowed base len s (.free ptr))
    (hs : regionStep base len s (.free ptr) = some s') : ∃ bs', Stale base len n s' bs' := by
  obtain ⟨l, b, r, bs', rfl, rfl, -, hjoins, hblocks⟩ := h.free hok hs
  have haddr : b.start - sizeofSpaceNode = b.addr := Nat.add_sub_cancel ..
  have hmem : s'.mem = removeSpace s.mem b.start := by
    rw [regionStep] at hs
    split_ifs at hs
    obtain rfl := Option.some.inj hs
    rfl
  have hbs : b ∈ l ++ b :: r := List.mem_append_right l List.mem_cons_self
  refine ⟨bs', hblocks, fun c hc => ?_, ?_⟩
  · obtain ⟨c₀, hc₀, haddr, hstop⟩ := hjoins.origin hc
    rw [haddr]
    exact (hn c₀ hc₀).imp_right (Or.imp_left hstop.trans)
  · rw [hmem]
    refine free_removeSpace (haddr.symm ▸ hn.sameOrApart hbs) (fun hm => ?_) hfree
    rw [haddr] at hm ⊢
    obtain ⟨l', x, rfl, hx⟩ := h.pred hok hm
    rw [hx]
    exact hn.sameOrApart (by simp)

/-- The owner of a block writes no stale record. -/
theorem Stale.write {a : ℕ} {v : UInt8} (h : Stale base len n s bs)
    (hs : regionStep base len s (.write a v) = some s') : Stale base len n s' bs := by
  obtain ⟨-, x, hx, heq⟩ := eqOn_write hs
  refine ⟨h.blocks.write hs, h.clearOf, ?_⟩
  obtain ⟨hseg, -, hlive⟩ := h.blocks
  obtain ⟨c, hc, hused, rfl⟩ := mem_usedData.mp (hlive.mem_iff.mp hx)
  have hstop := Block.stop_used hused
  have hstart : c.start = c.addr + sizeofSpaceNode := rfl
  have hdisj : Disjoint (Set.Ico c.start (c.start + c.size)) (Set.Ico n (n + sizeofSpaceNode)) := by
    rcases h.clearOf c hc with rfl | hc' | hc'
    · exact disjoint_Ico (Or.inr (by omega))
    · exact disjoint_Ico (Or.inl (by omega))
    · exact disjoint_Ico (Or.inr (by omega))
  rw [freeField.get_congr (eqOn_of_disjoint heq hdisj) (by decide)]
  exact h.free

/-! ### Runs -/

/-- The event is an allocation. -/
def RegionEvent.IsAlloc : RegionEvent → Prop
  | .alloc .. => True
  | _ => False

/-- A record stays stale until something is allocated. -/
theorem Stale.run {es : List RegionEvent} (h : Stale base len n s bs)
    (hok : RunOk (regionStep base len) (RegionAllowed base len) s es)
    (hes : ∀ e ∈ es, ¬e.IsAlloc) (hrun : run (regionStep base len) s es = some s') :
    ∃ bs', Stale base len n s' bs' := by
  induction es generalizing s bs with
  | nil =>
    obtain rfl := Option.some.inj hrun
    exact ⟨bs, h⟩
  | cons e es ih =>
    obtain ⟨t, ht, hrest⟩ := Option.bind_eq_some_iff.mp hrun
    have hes' : ∀ e' ∈ es, ¬e'.IsAlloc := fun e' he' => hes e' (List.mem_cons_of_mem e he')
    cases e with
    | alloc size junk => exact absurd trivial (hes _ List.mem_cons_self)
    | free ptr =>
      obtain ⟨bs', h'⟩ := h.blocks.stale_free h.clearOf (Or.inr h.free) hok.1 ht
      exact ih h' (hok.2 t ht) hes' hrest
    | write a v => exact ih (h.write ht) (hok.2 t ht) hes' hrest

/-- **A second free is ignored.** In a page, in the memory of the operating system or in the shared
pages, a block is freed after any allocations, frees and writes, and then there are more frees and
writes but no allocation. To free the same pointer again changes no byte, also when the block has
been joined with others and its record is not on the list any more. -/
theorem double_free_ignored (hinit : RegionInit m base len ∨ SharedInit m base len)
    {es₀ es : List RegionEvent}
    (hok : RunOk (regionStep base len) (RegionAllowed base len) ⟨m, []⟩ (es₀ ++ .free ptr :: es))
    (hrun : run (regionStep base len) ⟨m, []⟩ (es₀ ++ .free ptr :: es) = some s)
    (hes : ∀ e ∈ es, ¬e.IsAlloc) : removeSpace s.mem ptr = s.mem := by
  have hinv : RegionInv base len ⟨m, []⟩ ∧ base + len < 2 ^ 64 := by
    rcases hinit with hinit | hinit
    · exact ⟨⟨_, regionBlocks_init hinit⟩, hinit.end_lt⟩
    · exact ⟨regionInv_shared hinit, hinit.end_lt⟩
  obtain ⟨hok₀, hok⟩ := (runOk_append _).mp hok
  rw [run_append] at hrun
  obtain ⟨s₀, hs₀, hlast⟩ := Option.bind_eq_some_iff.mp hrun
  obtain ⟨s₁, hs₁, hrest⟩ := Option.bind_eq_some_iff.mp hlast
  obtain ⟨bs, hbs⟩ : ∃ bs, RegionBlocks base len s₀ bs :=
    run_invariant (fun _ _ _ hi hok hs => regionInv_step hinv.2 hi hok hs) hinv.1 hok₀ hs₀
  obtain ⟨l, b, r, -, rfl, rfl, -⟩ := hbs.free (hok s₀ hs₀).1 hs₁
  have haddr : b.start - sizeofSpaceNode = b.addr := Nat.add_sub_cancel ..
  have hmem : b ∈ l ++ b :: r := List.mem_append_right l List.mem_cons_self
  obtain ⟨bs₁, h₁⟩ := hbs.stale_free (hbs.2.1.clearOf hmem) (Or.inl haddr) (hok s₀ hs₀).1 hs₁
  obtain ⟨bs', h'⟩ := h₁.run ((hok s₀ hs₀).2 s₁ hs₁) hes hrest
  rw [removeSpace, haddr]
  exact if_pos h'.free

/-- The second of two blocks is freed and then the first one, which is joined with it. The list has
one block, and the second one is freed again. -/
theorem double_free_ignored_joined :
    ∃ s, run (regionStep 4096 4096) ⟨initializeSpace (fun _ => 0) 4096 4096 fun _ => 0, []⟩
        ([.alloc 100 fun _ => 0, .alloc 200 fun _ => 0] ++ .free 4308 :: [.free 4152]) = some s ∧
      blockAddrs s.mem 4097 4096 = [4096] ∧ removeSpace s.mem 4308 = s.mem := by
  have hend : (run (regionStep 4096 4096) ⟨initializeSpace (fun _ => 0) 4096 4096 fun _ => 0, []⟩
      ([.alloc 100 fun _ => 0, .alloc 200 fun _ => 0] ++ .free 4308 :: [.free 4152])).map
      (fun s => blockAddrs s.mem 4097 4096) = some [4096] := by decide +kernel
  obtain ⟨s, hrun, haddrs⟩ := Option.map_eq_some_iff.mp hend
  refine ⟨s, hrun, haddrs, double_free_ignored
    (Or.inl (.page _ 4096 4096 _ (by norm_num) (by decide) (by norm_num))) (by decide +kernel)
      hrun ?_⟩
  intro e he
  rw [List.mem_singleton.mp he]
  exact id

end OSDesign.VM
