import OSDesign.VM.PageMove

/-!
# Memories with the same records

Two memories may differ in the data of the blocks of a list and agree on the records. The functions
of the allocator read nothing but records: on two such memories a search finds the same block
(`Seg.findFreeSpace_congr`), and cutting a block, freeing one, writing in one and moving a page
leave two memories that agree on the records again (`SameBlocks.createSpace`,
`SameBlocks.removeSpace`, `SameBlocks.write`, `SameBlocks.restored`).

For a page that is moved this needs its list to be the one that `restorePointers` finds by the sizes
of the blocks. Of a page without a list, only the positions matter that `restorePointers` visits
(`SameVisited`).

## Main definitions

* `SameBlocks`, `SameVisited`, `Block.shift`.

## Main results

* `SameBlocks.createSpace`, `SameBlocks.removeSpace`, `SameBlocks.restored`, `SameVisited.restored`.
-/

namespace OSDesign.VM

open ByteMemory

variable {m m' : Memory} {p limit : ℕ} {b : Block} {l r bs : List Block}

/-- The bytes of the records of a list. -/
def recordBytes (bs : List Block) : Set ℕ := {x | ∃ b ∈ bs, x ∈ b.record}

theorem Block.record_subset (hb : b ∈ bs) : b.record ⊆ recordBytes bs := fun _ hx => ⟨b, hb, hx⟩

/-- Both memories have the list `bs` from `p` on, with the same records, below `limit`. -/
structure SameBlocks (m m' : Memory) (p limit : ℕ) (bs : List Block) : Prop where
  seg : Seg m p bs 0
  spaced : Spaced limit bs
  agree : Set.EqOn m' m (recordBytes bs)

theorem SameBlocks.record (h : SameBlocks m m' p limit bs) (hb : b ∈ bs) :
    Set.EqOn m' m b.record :=
  h.agree.mono (b.record_subset hb)

theorem SameBlocks.seg' (h : SameBlocks m m' p limit bs) : Seg m' p bs 0 :=
  h.seg.congr fun _ hb => h.record hb

/-- The records lie between the first one and the limit. -/
theorem SameBlocks.recordBytes_subset (h : SameBlocks m m' p limit bs) :
    recordBytes bs ⊆ Set.Ico p limit := by
  rintro x ⟨b, hb, hx⟩
  have hp := h.spaced.le_addr h.seg hb
  have hstop := h.spaced.stop_le b hb
  have hle := b.addr_lt_stop
  have hlo : b.addr ≤ x := hx.1
  have hhi : x < b.addr + sizeofSpaceNode := hx.2
  exact ⟨by omega, by omega⟩

/-- Changes elsewhere do not matter. -/
theorem SameBlocks.frame {m₁ m₁' : Memory} (h : SameBlocks m m' p limit bs)
    (heq : Set.EqOn m₁ m (Set.Ico p limit)) (heq' : Set.EqOn m₁' m' (Set.Ico p limit)) :
    SameBlocks m₁ m₁' p limit bs := by
  have hsub := h.recordBytes_subset
  refine ⟨h.seg.congr fun b hb => heq.mono ((b.record_subset hb).trans hsub), h.spaced,
    fun x hx => ?_⟩
  rw [heq (hsub hx), heq' (hsub hx), h.agree hx]

/-! ### Walking along the list -/

section Walks

/-- The record of a block of the list. -/
theorem Seg.denotes (h : Seg m p bs 0) (hb : b ∈ bs) : Denotes m b := by
  obtain ⟨l, r, rfl⟩ := List.append_of_mem hb
  obtain ⟨-, -, hden, -⟩ := seg_middle.mp h
  exact hden

theorem Denotes.free_eq_false (h : Denotes m b) (hfree : freeField.get m b.addr = 0) :
    b.free = false := by
  by_contra hne
  exact h.free.mpr (by simpa using hne) hfree

/-- A search reads records only. -/
theorem Seg.findFreeSpace_congr (h : Seg m p bs 0) (heq : ∀ b ∈ bs, Set.EqOn m' m b.record)
    (size fuel : ℕ) : findFreeSpace m' size fuel p = findFreeSpace m size fuel p := by
  induction fuel generalizing p bs with
  | zero => rfl
  | succ fuel ih =>
    rw [findFreeSpace, findFreeSpace]
    cases bs with
    | nil => rw [if_pos (show p = 0 from h), if_pos (show p = 0 from h)]
    | cons b bs =>
      obtain ⟨rfl, -, -, hseg⟩ := h
      have hb := heq b List.mem_cons_self
      rw [freeField.get_congr hb (by decide), sizeField.get_congr hb (by decide),
        nextField.get_congr hb (by decide), ih hseg fun c hc => heq c (List.mem_cons_of_mem _ hc)]

/-- A search that ends has found the first block that is large enough. -/
theorem Seg.findFreeSpace_eq_some {size fuel n : ℕ} (h : Seg m p bs 0)
    (hfind : findFreeSpace m size fuel p = some n) :
    n = (firstFit size bs).elim 0 Block.addr := by
  induction fuel generalizing p bs with
  | zero => cases hfind
  | succ fuel ih =>
    rw [findFreeSpace] at hfind
    cases bs with
    | nil =>
      rw [if_pos (show p = 0 from h), Option.some.injEq] at hfind
      exact hfind.symm
    | cons b bs =>
      obtain ⟨rfl, hp, hb, hseg⟩ := h
      have hfound : freeField.get m b.addr ≠ 0 ∧ size ≤ sizeField.get m b.addr ↔
          (b.free && decide (size ≤ b.size)) = true := by
        rw [hb.free, hb.size, Bool.and_eq_true, decide_eq_true_eq]
      rw [if_neg hp] at hfind
      rw [firstFit, List.find?_cons]
      cases hfit : b.free && decide (size ≤ b.size) with
      | true =>
        rw [if_pos (hfound.mpr hfit), Option.some.injEq] at hfind
        exact hfind.symm
      | false =>
        rw [if_neg (fun hyes => by simp [hfound.mp hyes] at hfit)] at hfind
        exact ih hseg hfind

/-- The last record is found by records only, and it is the last one of the list. -/
theorem Seg.getLastElement_eq (h : Seg m p (l ++ [b]) 0)
    (heq : ∀ c ∈ l ++ [b], Set.EqOn m' m c.record) (fuel : ℕ) :
    getLastElement m' fuel p = getLastElement m fuel p ∧
      ∀ e ∈ getLastElement m fuel p, e = b.addr := by
  induction fuel generalizing p l with
  | zero => exact ⟨rfl, fun e he => by cases he⟩
  | succ fuel ih =>
    rw [getLastElement, getLastElement]
    cases l with
    | nil =>
      obtain ⟨rfl, -, -, hnext⟩ := h
      have hnext : nextField.get m b.addr = 0 := hnext
      rw [nextField.get_congr (heq b List.mem_cons_self) (by decide), hnext, if_pos rfl]
      exact ⟨rfl, fun e he => (Option.some.inj he).symm⟩
    | cons c l =>
      obtain ⟨rfl, -, -, hseg⟩ := h
      have hne : nextField.get m c.addr ≠ 0 := by
        cases l with
        | nil => exact hseg.2.1
        | cons d l => exact hseg.2.1
      have hc : Set.EqOn m' m c.record := heq c (List.mem_append_left _ List.mem_cons_self)
      rw [nextField.get_congr hc (by decide), if_neg hne, if_neg hne]
      exact ih hseg fun d hd => heq d (List.mem_cons_of_mem _ hd)

end Walks

/-! ### Cutting a block -/

section Cut

variable {s : Set ℕ} {n size : ℕ}

theorem putFree_congr (h : Set.EqOn m' m s) (pos next prev size : ℕ) (junk : ℕ → UInt8) :
    Set.EqOn (putFree m' pos next prev size junk) (putFree m pos next prev size junk)
      (s ∪ Set.Ico pos (pos + sizeofSpaceNode)) := by
  have hpaste := paste_congr h pos junk sizeofSpaceNode
  rw [putFree, putFree]
  exact pidField.set_congr (startField.set_congr (referenceField.set_congr (sizeField.set_congr
    (prevField.set_congr (nextField.set_congr (orderField.set_congr
      (freeField.set_congr hpaste ..) ..) ..) ..) ..) ..) ..) ..

theorem useBlock_congr (h : Set.EqOn m' m s) (n size : ℕ) :
    Set.EqOn (useBlock m' n size) (useBlock m n size) s :=
  sizeField.set_congr (freeField.set_congr h ..) ..

/-- The bytes that are the same after the block `n` is cut: those that were, and the record of the
rest. -/
def sameAfterCut (m : Memory) (s : Set ℕ) (n size : ℕ) : Set ℕ :=
  if sizeofSpaceNode < restSize m n size then
    s ∪ Set.Ico (startField.get m n + size) (startField.get m n + size + sizeofSpaceNode)
  else s

/-- `createSpace` reads the record of the block only. -/
theorem createSpace_congr (junk : ℕ → UInt8) (size : ℕ) (h : Set.EqOn m' m s)
    (hn : Set.Ico n (n + sizeofSpaceNode) ⊆ s) (hfree : freeField.get m n ≠ 0) :
    Set.EqOn (createSpace m' n size junk).2 (createSpace m n size junk).2
      (sameAfterCut m s n size) := by
  have hrecord := h.mono hn
  have hfree' : freeField.get m' n ≠ 0 := by rwa [freeField.get_congr hrecord (by decide)]
  have hrest : restSize m' n size = restSize m n size := by
    rw [restSize, restSize, sizeField.get_congr hrecord (by decide)]
  have huse := useBlock_congr h n size
  rw [createSpace_of_free m' size junk hfree', createSpace_of_free m size junk hfree, hrest,
    sameAfterCut]
  dsimp only
  split_ifs
  · rw [splitBlock, splitBlock, start_useBlock, start_useBlock, next_useBlock, next_useBlock,
      startField.get_congr hrecord (by decide), nextField.get_congr hrecord (by decide)]
    exact nextField.set_congr (putFree_congr huse ..) ..
  · exact huse

/-- **Cutting a block.** The records of the new list are the same in both memories. -/
theorem SameBlocks.createSpace (junk : ℕ → UInt8) (h : SameBlocks m m' p limit (l ++ b :: r))
    (hlimit : limit < 2 ^ 64) (hfree : b.free = true) (hsize : size ≤ b.size)
    (hfit : b.needs size ≤ limit) (hnext : ∀ c ∈ r, b.needs size ≤ c.addr) :
    ∃ m₁ m₁', createSpace m b.addr size junk = (true, m₁) ∧
      createSpace m' b.addr size junk = (true, m₁') ∧ startField.get m₁ b.addr = b.start ∧
      startField.get m₁' b.addr = b.start ∧
      SameBlocks m₁ m₁' p limit (l ++ (b.cut size ++ r)) ∧
      Set.EqOn m₁ m (Set.Ico p limit)ᶜ ∧ Set.EqOn m₁' m' (Set.Ico p limit)ᶜ := by
  have hb : b ∈ l ++ b :: r := List.mem_append_right l List.mem_cons_self
  obtain ⟨-, -, hden, -⟩ := seg_middle.mp h.seg
  obtain ⟨-, -, hden', -⟩ := seg_middle.mp h.seg'
  obtain ⟨m₁, hm₁, hstart, hseg, hspaced⟩ :=
    seg_createSpace junk h.seg h.spaced hlimit hfree hsize hfit hnext
  obtain ⟨m₁', hm₁', hstart', -, -⟩ :=
    seg_createSpace junk h.seg' h.spaced hlimit hfree hsize hfit hnext
  have hagree := createSpace_congr junk size h.agree (b.record_subset hb) (hden.free.mpr hfree)
  rw [hm₁, hm₁', sameAfterCut, hden.restSize hsize, hden.start] at hagree
  -- the records of the new list are those of the old one and that of the rest
  have hrecords : recordBytes (l ++ (b.cut size ++ r)) ⊆
      if sizeofSpaceNode < b.size - size then
        recordBytes (l ++ b :: r) ∪ Set.Ico (b.start + size) (b.start + size + sizeofSpaceNode)
      else recordBytes (l ++ b :: r) := by
    rintro x ⟨c, hc, hx⟩
    have hold (hc : c ∈ l ++ r) : x ∈ recordBytes (l ++ b :: r) :=
      ⟨c, by rw [List.mem_append] at hc ⊢; exact hc.imp_right (List.mem_cons_of_mem b), hx⟩
    have huse (hc : c = b.use size) : x ∈ recordBytes (l ++ b :: r) := ⟨b, hb, by rwa [hc] at hx⟩
    rw [Block.cut] at hc
    split_ifs at hc ⊢ with hsplit hsplit'
    · simp only [List.mem_append, List.mem_cons, List.not_mem_nil, or_false] at hc
      rcases hc with hc | (hc | rfl) | hc
      · exact Or.inl (hold (List.mem_append_left r hc))
      · exact Or.inl (huse hc)
      · exact Or.inr hx
      · exact Or.inl (hold (List.mem_append_right l hc))
    · exact absurd hsplit hsplit'
    · exact absurd ‹_› hsplit
    · simp only [List.mem_append, List.mem_cons, List.not_mem_nil, or_false] at hc
      rcases hc with hc | hc | hc
      · exact hold (List.mem_append_left r hc)
      · exact huse hc
      · exact hold (List.mem_append_right l hc)
  -- nothing is written outside the region
  have hlo := h.spaced.le_addr h.seg hb
  have houtside (q : Memory) (hq : Denotes q b) :
      Set.EqOn (VM.createSpace q b.addr size junk).2 q (Set.Ico p limit)ᶜ := by
    intro x hx
    have hrecord : x ∉ Set.Ico b.addr (b.addr + sizeofSpaceNode) := fun hin =>
      hx (h.recordBytes_subset ⟨b, hb, hin⟩)
    refine createSpace_apply q b.addr size junk hrecord fun hsplit hin => hx ?_
    rw [hq.start, Set.mem_Ico] at hin
    rw [hq.restSize hsize] at hsplit
    rw [Block.needs, if_pos (show b.Splits size from hsplit)] at hfit
    have : b.start = b.addr + sizeofSpaceNode := rfl
    exact ⟨by omega, by omega⟩
  refine ⟨m₁, m₁', hm₁, hm₁', hstart, hstart', ⟨hseg, hspaced, hagree.mono hrecords⟩, ?_, ?_⟩
  · have := houtside m hden
    rwa [hm₁] at this
  · have := houtside m' hden'
    rwa [hm₁'] at this

/-- The block that a search finds, and the record of the rest if it is cut, end in front of the next
record and of the limit. -/
def Roomy (size limit : ℕ) (bs : List Block) : Prop :=
  ∀ l b r, bs = l ++ b :: r → firstFit size bs = some b →
    b.needs size ≤ limit ∧ ∀ c ∈ r, b.needs size ≤ c.addr

theorem roomy_of_allowed {len : ℕ} {live : List (ℕ × ℕ)} {junk : ℕ → UInt8} (hseg : Seg m p bs 0)
    (hspaced : Spaced (p + len) bs) (hok : RegionAllowed p len ⟨m, live⟩ (.alloc size junk)) :
    Roomy size (p + len) bs := by
  rintro l b r rfl hfirst
  obtain ⟨-, hne, hden, -⟩ := seg_middle.mp hseg
  have hfind := findFreeSpace_eq size hseg (hseg.length_lt hspaced)
  have hneeds : b.needs size ≤ roomEnd p len m b.addr := by
    have := hok b.addr (by rw [hfind, hfirst]; rfl) hne
    rwa [hden.size] at this
  have hroom := roomEnd_le hseg hspaced
  exact ⟨hneeds.trans hroom.1, fun c hc => hneeds.trans (hroom.2 c hc)⟩

/-- What a search finds is the address of a block of the list. -/
theorem Seg.exists_of_find {fuel : ℕ} (h : Seg m p bs 0)
    (hfind : findFreeSpace m size fuel p = some n) (hne : n ≠ 0) :
    ∃ l b r, bs = l ++ b :: r ∧ firstFit size bs = some b ∧ n = b.addr ∧ b.free = true ∧
      size ≤ b.size := by
  have hn := h.findFreeSpace_eq_some hfind
  cases hfirst : firstFit size bs with
  | none =>
    rw [hfirst] at hn
    exact absurd hn hne
  | some b =>
    obtain ⟨hb, l, r, rfl, -⟩ := List.find?_eq_some_iff_append.mp hfirst
    rw [Bool.and_eq_true, decide_eq_true_eq] at hb
    rw [hfirst] at hn
    exact ⟨l, b, r, rfl, rfl, hn, hb.1, hb.2⟩

/-- A request to a region, in both memories. -/
theorem SameBlocks.getFreeElementFrom (h : SameBlocks m m' p limit bs) (hlimit : limit < 2 ^ 64)
    (hroom : Roomy size limit bs) (fuel : ℕ) (junk : ℕ → UInt8) :
    Option.Rel (fun x x' => x.1 = x'.1 ∧ (∃ bs, SameBlocks x.2 x'.2 p limit bs) ∧
        Set.EqOn x.2 m (Set.Ico p limit)ᶜ ∧ Set.EqOn x'.2 m' (Set.Ico p limit)ᶜ)
      (getFreeElementFrom fuel m p size junk) (getFreeElementFrom fuel m' p size junk) := by
  rw [VM.getFreeElementFrom, VM.getFreeElementFrom,
    h.seg.findFreeSpace_congr (fun b hb => h.record hb)]
  cases hfind : findFreeSpace m size fuel p with
  | none => exact .none
  | some n =>
    rw [Option.map_some, Option.map_some]
    refine .some ?_
    by_cases hn : n = 0
    · rw [if_pos hn, if_pos hn]
      exact ⟨rfl, ⟨bs, h⟩, Set.eqOn_refl _ _, Set.eqOn_refl _ _⟩
    · obtain ⟨l, b, r, rfl, hfirst, rfl, hfree, hsize⟩ := h.seg.exists_of_find hfind hn
      obtain ⟨hfit, hnext⟩ := hroom l b r rfl hfirst
      obtain ⟨m₁, m₁', hm₁, hm₁', hstart, hstart', hbs, hout, hout'⟩ :=
        h.createSpace junk hlimit hfree hsize hfit hnext
      rw [if_neg hn, if_neg hn, hm₁, hm₁']
      exact ⟨hstart.trans hstart'.symm, ⟨_, hbs⟩, hout, hout'⟩

end Cut

/-! ### Freeing a block -/

section Free

variable {s : Set ℕ} {n a c : ℕ}

/-- The record at `n` is in the set, if there is one. -/
def RecordIn (s : Set ℕ) (n : ℕ) : Prop := n ≠ 0 → Set.Ico n (n + sizeofSpaceNode) ⊆ s

theorem absorb_congr (h : Set.EqOn m' m s) (x size : ℕ) {y : ℕ}
    (hy : Set.Ico y (y + sizeofSpaceNode) ⊆ s) :
    Set.EqOn (absorb m' x size y) (absorb m x size y) s := by
  have hsize : Set.EqOn (sizeField.set m' x size) (sizeField.set m x size) s :=
    sizeField.set_congr h ..
  rw [absorb, absorb, nextField.get_congr (hsize.mono hy) (by decide)]
  exact nextField.set_congr hsize ..

theorem coalesce_congr (h : Set.EqOn m' m s) (hn : Set.Ico n (n + sizeofSpaceNode) ⊆ s)
    (ha : RecordIn s a) (hc : RecordIn s c) :
    Set.EqOn (coalesce m' n a c) (coalesce m n a c) s := by
  have hget {f : Field} (hf : f.off + f.len ≤ sizeofSpaceNode) {x : ℕ}
      (hx : Set.Ico x (x + sizeofSpaceNode) ⊆ s) : f.get m' x = f.get m x :=
    f.get_congr (h.mono hx) hf
  have hsize := hget (f := sizeField) (by decide) hn
  by_cases ha₀ : a = 0
  · by_cases hc₀ : c = 0
    · simpa [coalesce, ha₀, hc₀] using h
    · have hfree := hget (f := freeField) (by decide) (hc hc₀)
      have hsize' := hget (f := sizeField) (by decide) (hc hc₀)
      simp only [coalesce, ha₀, hc₀, hfree, hsize', ne_eq, not_false_eq_true, and_self, if_true]
      split_ifs
      · exact h
      · exact absorb_congr h _ _ (hc hc₀)
  · have hfree := hget (f := freeField) (by decide) (ha ha₀)
    by_cases hc₀ : c = 0
    · simp only [coalesce, ha₀, hc₀, hfree, hsize, ne_eq, not_false_eq_true, false_and, and_self,
        if_false, if_true]
      split_ifs
      · exact h
      · exact absorb_congr h _ _ hn
    · have hfree' := hget (f := freeField) (by decide) (hc hc₀)
      have hsize' := hget (f := sizeField) (by decide) (hc hc₀)
      simp only [coalesce, ha₀, hc₀, hfree, hfree', hsize, hsize', ne_eq, not_false_eq_true,
        false_and, and_false, and_self, if_false, if_true]
      split_ifs
      · exact absorb_congr h _ _ (hc hc₀)
      · exact absorb_congr h _ _ hn
      · exact absorb_congr h _ _ (hc hc₀)
      · exact h

/-- `removeSpace` reads the record of the block and those that its links name. -/
theorem removeSpace_congr (h : Set.EqOn m' m s) {ptr : ℕ}
    (hn : Set.Ico (ptr - sizeofSpaceNode) (ptr - sizeofSpaceNode + sizeofSpaceNode) ⊆ s)
    (hprev : RecordIn s (prevField.get m (ptr - sizeofSpaceNode)))
    (hnext : RecordIn s (nextField.get m (ptr - sizeofSpaceNode))) :
    Set.EqOn (removeSpace m' ptr) (removeSpace m ptr) s := by
  have hrecord := h.mono hn
  rw [removeSpace, removeSpace]
  dsimp only
  rw [freeField.get_congr hrecord (by decide), prevField.get_congr hrecord (by decide),
    nextField.get_congr hrecord (by decide)]
  split_ifs
  · exact h
  · exact coalesce_congr (pidField.set_congr (freeField.set_congr h ..) ..) hn hprev hnext

/-- The blocks of the list after a block is freed are where blocks were before. -/
theorem Joins.addr_mem {P N : Prop} (h : Joins P N b l r bs) :
    ∀ c ∈ bs, ∃ d ∈ l ++ b :: r, d.addr = c.addr := by
  cases h with
  | both hP hN l r x y hx hy =>
    intro c hc
    simp only [List.mem_append, List.mem_cons] at hc
    rcases hc with hc | rfl | hc
    · exact ⟨c, by simp [hc], rfl⟩
    · exact ⟨x, by simp, rfl⟩
    · exact ⟨c, by simp [hc], rfl⟩
  | prev hP hN l r x hx hr =>
    intro c hc
    simp only [List.mem_append, List.mem_cons] at hc
    rcases hc with hc | rfl | hc
    · exact ⟨c, by simp [hc], rfl⟩
    · exact ⟨x, by simp, rfl⟩
    · exact ⟨c, by simp [hc], rfl⟩
  | next hP hN l r y hy =>
    intro c hc
    simp only [List.mem_append, List.mem_cons] at hc
    rcases hc with hc | rfl | hc
    · exact ⟨c, by simp [hc], rfl⟩
    · exact ⟨b, by simp, rfl⟩
    · exact ⟨c, by simp [hc], rfl⟩
  | none hP hN l r hr =>
    intro c hc
    simp only [List.mem_append, List.mem_cons] at hc
    rcases hc with hc | rfl | hc
    · exact ⟨c, by simp [hc], rfl⟩
    · exact ⟨b, by simp, rfl⟩
    · exact ⟨c, by simp [hc], rfl⟩

/-- **Freeing a block.** The field `prev` of the block is `NULL` or names a record of the list, and
if that one is free, it is the one before the block. Then the records of the new list are the same
in both memories. -/
theorem SameBlocks.removeSpace (h : SameBlocks m m' p limit (l ++ b :: r)) (hused : b.free = false)
    (hmem : prevField.get m b.addr = 0 ∨ prevField.get m b.addr ∈ (l ++ b :: r).map Block.addr)
    (hprev : Mergeable (markFree m b.addr) (prevField.get m b.addr) →
      ∃ l' x, l = l' ++ [x] ∧ prevField.get m b.addr = x.addr) :
    (∃ bs, SameBlocks (removeSpace m b.start) (removeSpace m' b.start) p limit bs) ∧
      Set.EqOn (removeSpace m b.start) m (Set.Ico p limit)ᶜ ∧
      Set.EqOn (removeSpace m' b.start) m' (Set.Ico p limit)ᶜ := by
  have hb : b ∈ l ++ b :: r := List.mem_append_right l List.mem_cons_self
  have haddr : b.start - sizeofSpaceNode = b.addr := Nat.add_sub_cancel ..
  have hrecord := h.record hb
  have hprevIn : RecordIn (recordBytes (l ++ b :: r)) (prevField.get m b.addr) := by
    intro hne
    obtain ⟨c, hc, heq⟩ := List.mem_map.mp (hmem.resolve_left hne)
    rw [← heq]
    exact c.record_subset hc
  have hnextIn : RecordIn (recordBytes (l ++ b :: r)) (nextField.get m b.addr) := by
    intro hne
    obtain ⟨-, -, -, hr⟩ := seg_middle.mp h.seg
    cases r with
    | nil => exact absurd hr hne
    | cons c r =>
      rw [hr.1]
      exact c.record_subset (List.mem_append_right l (List.mem_cons_of_mem b List.mem_cons_self))
  obtain ⟨bs, hseg, hspaced, hjoins⟩ := seg_removeSpace h.seg h.spaced hused hprev
  have hagree : Set.EqOn (VM.removeSpace m' b.start) (VM.removeSpace m b.start)
      (recordBytes (l ++ b :: r)) := by
    refine removeSpace_congr h.agree ?_ ?_ ?_ <;> rw [haddr]
    · exact b.record_subset hb
    · exact hprevIn
    · exact hnextIn
  have hrecords : recordBytes bs ⊆ recordBytes (l ++ b :: r) := by
    rintro x ⟨c, hc, hx⟩
    obtain ⟨d, hd, heq⟩ := hjoins.addr_mem c hc
    exact ⟨d, hd, by rwa [Block.record, heq]⟩
  have hout {x : ℕ} (hx : x ∉ Set.Ico p limit) {n : ℕ}
      (hin : RecordIn (recordBytes (l ++ b :: r)) n)
      (hne : n ≠ 0) : x ∉ Set.Ico n (n + sizeofSpaceNode) := fun hmem =>
    hx (h.recordBytes_subset (hin hne hmem))
  have hbIn : RecordIn (recordBytes (l ++ b :: r)) b.addr := fun _ => b.record_subset hb
  have hbne : b.addr ≠ 0 := (seg_middle.mp h.seg).2.1
  refine ⟨⟨bs, hseg, hspaced, hagree.mono hrecords⟩, fun x hx => ?_, fun x hx => ?_⟩
  · refine removeSpace_apply m ?_ fun hm => ?_ <;> rw [haddr] at *
    · exact hout hx hbIn hbne
    · exact hout hx hprevIn hm.1
  · refine removeSpace_apply m' ?_ fun hm => ?_ <;> rw [haddr] at *
    · exact hout hx hbIn hbne
    · rw [prevField.get_congr hrecord (by decide)] at hm ⊢
      exact hout hx hprevIn hm.1

end Free

/-! ### Writing data -/

/-- **Writing in a block in use.** No record is changed, whatever is written. -/
theorem SameBlocks.write {a : ℕ} (h : SameBlocks m m' p limit bs) (hb : b ∈ bs)
    (hused : b.free = false) (hlo : b.start ≤ a) (hhi : a < b.start + b.size) (v v' : UInt8) :
    SameBlocks (paste m a (fun _ => v) 1) (paste m' a (fun _ => v') 1) p limit bs ∧
      Set.EqOn (paste m a (fun _ => v) 1) m (Set.Ico p limit)ᶜ ∧
      Set.EqOn (paste m' a (fun _ => v') 1) m' (Set.Ico p limit)ᶜ := by
  have hstop := Block.stop_used hused
  have hdata : Set.Ico a (a + 1) ⊆ Set.Ico b.start (b.start + b.size) :=
    Set.Ico_subset_Ico hlo hhi
  have hrecord (c : Block) (hc : c ∈ bs) : Disjoint (Set.Ico a (a + 1)) c.record := by
    refine Disjoint.mono_left hdata ?_
    have hstart : b.start = b.addr + sizeofSpaceNode := rfl
    have := c.addr_lt_stop
    rcases h.spaced.apart hb hc with rfl | hbc | hcb
    · exact disjoint_Ico (Or.inr le_rfl)
    · exact disjoint_Ico (Or.inl (hstop ▸ hbc))
    · exact disjoint_Ico (Or.inr (show c.addr + sizeofSpaceNode ≤ b.start by omega))
  have hsub : Set.Ico a (a + 1) ⊆ Set.Ico p limit := by
    have hle := h.spaced.le_addr h.seg hb
    have hend := h.spaced.stop_le b hb
    refine hdata.trans (Set.Ico_subset_Ico ?_ (by omega))
    exact hle.trans (Nat.le_add_right ..)
  have hkeep (q : Memory) (w : UInt8) (c : Block) (hc : c ∈ bs) :
      Set.EqOn (paste q a (fun _ => w) 1) q c.record :=
    eqOn_of_disjoint (paste_eqOn ..) (hrecord c hc)
  have hout (q : Memory) (w : UInt8) : Set.EqOn (paste q a (fun _ => w) 1) q (Set.Ico p limit)ᶜ :=
    (paste_eqOn ..).mono (Set.compl_subset_compl.mpr hsub)
  refine ⟨⟨h.seg.congr fun c hc => hkeep m v c hc, h.spaced, ?_⟩, hout m v, hout m' v'⟩
  rintro x ⟨c, hc, hx⟩
  rw [hkeep m v c hc hx, hkeep m' v' c hc hx, h.record hc hx]

/-! ### Places in a page -/

section Shift

variable {a size : ℕ}

/-- The block of a page at `a`, its place being counted from the start of the page. -/
def Block.shift (a : ℕ) (b : Block) : Block := ⟨a + b.addr, b.size, b.free⟩

theorem Block.shift_injective (a : ℕ) : Function.Injective (Block.shift a) := by
  rintro ⟨x, size, free⟩ ⟨y, size', free'⟩ h
  obtain ⟨haddr, rfl, rfl⟩ := Block.mk.inj h
  obtain rfl : x = y := Nat.add_left_cancel haddr
  rfl

theorem Block.start_shift (a : ℕ) (b : Block) : (b.shift a).start = a + b.start := Nat.add_assoc ..

theorem Block.stop_shift (a : ℕ) (b : Block) : (b.shift a).stop = a + b.stop := by
  rw [Block.stop, Block.stop, start_shift, Nat.add_assoc]
  rfl

theorem Block.needs_shift (a size : ℕ) (b : Block) :
    (b.shift a).needs size = a + b.needs size := by
  rw [Block.needs, Block.needs, start_shift, Nat.add_assoc, Nat.add_assoc, Nat.add_assoc]
  rfl

theorem spaced_shift : Spaced (a + limit) (bs.map (Block.shift a)) ↔ Spaced limit bs := by
  have hstop (b c : Block) : (b.shift a).stop ≤ (c.shift a).addr ↔ b.stop ≤ c.addr := by
    rw [Block.stop_shift]
    exact Nat.add_le_add_iff_left
  constructor
  · rintro ⟨hpair, hle⟩
    refine ⟨(List.pairwise_map.mp hpair).imp fun h => (hstop ..).mp h, fun b hb => ?_⟩
    have := hle _ (List.mem_map_of_mem hb)
    rw [Block.stop_shift] at this
    omega
  · rintro ⟨hpair, hle⟩
    refine ⟨List.pairwise_map.mpr (hpair.imp fun h => (hstop ..).mpr h), fun c hc => ?_⟩
    obtain ⟨b, hb, rfl⟩ := List.mem_map.mp hc
    rw [Block.stop_shift]
    exact Nat.add_le_add_left (hle b hb) a

/-- Blocks behind `a` are blocks of a page at `a`. -/
theorem exists_shift (h : ∀ b ∈ bs, a ≤ b.addr) :
    ∃ cs : List Block, cs.map (Block.shift a) = bs := by
  refine ⟨bs.map fun b => ⟨b.addr - a, b.size, b.free⟩, ?_⟩
  rw [List.map_map]
  refine (List.map_congr_left fun b hb => ?_).trans (List.map_id bs)
  show (⟨a + (b.addr - a), b.size, b.free⟩ : Block) = b
  rw [Nat.add_sub_cancel' (h b hb)]

theorem firstFit_shift (size : ℕ) (bs : List Block) :
    firstFit size (bs.map (Block.shift a)) = (firstFit size bs).map (Block.shift a) := by
  rw [firstFit, firstFit, List.find?_map]
  rfl

theorem roomy_shift :
    Roomy size (a + limit) (bs.map (Block.shift a)) ↔ Roomy size limit bs := by
  constructor
  · rintro h l b r rfl hfirst
    obtain ⟨hfit, hnext⟩ := h (l.map (Block.shift a)) (b.shift a) (r.map (Block.shift a))
      (by rw [List.map_append, List.map_cons]) (by rw [firstFit_shift, hfirst]; rfl)
    rw [Block.needs_shift] at hfit hnext
    refine ⟨Nat.le_of_add_le_add_left hfit, fun c hc => ?_⟩
    exact Nat.le_of_add_le_add_left (hnext (c.shift a) (List.mem_map_of_mem hc))
  · intro h l b r hsplit hfirst
    obtain ⟨l₀, r₀, rfl, rfl, hr⟩ := List.map_eq_append_iff.mp hsplit
    obtain ⟨b₀, r₁, rfl, rfl, rfl⟩ := List.map_eq_cons_iff.mp hr
    rw [firstFit_shift] at hfirst
    obtain ⟨b₁, hfirst, hshift⟩ := Option.map_eq_some_iff.mp hfirst
    rw [Block.shift_injective a hshift] at hfirst
    obtain ⟨hfit, hnext⟩ := h l₀ b₀ r₁ rfl hfirst
    rw [Block.needs_shift]
    refine ⟨Nat.add_le_add_left hfit a, fun c hc => ?_⟩
    obtain ⟨c₀, hc₀, rfl⟩ := List.mem_map.mp hc
    exact Nat.add_le_add_left (hnext c₀ hc₀) a

end Shift

/-! ### Moving a page -/

section Move

variable {a size : ℕ}

/-- The bytes of the records that `restorePointers` visits in the page at `a`. -/
def visitedBytes (m : Memory) (a size : ℕ) : Set ℕ :=
  {x | ∃ q ∈ visited (view m a) size, x ∈ Set.Ico (a + q) (a + q + sizeofSpaceNode)}

/-- Both memories have the same records where `restorePointers` visits the page at `a`. -/
def SameVisited (m m' : Memory) (a size : ℕ) : Prop := Set.EqOn m' m (visitedBytes m a size)

theorem visitedBytes_subset : visitedBytes m a size ⊆ Set.Ico a (a + size) := by
  rintro x ⟨q, hq, hlo, hhi⟩
  have := lt_of_mem_visitLoop hq
  exact ⟨by omega, by omega⟩

/-- The positions depend on the sizes at these positions only. -/
theorem visitLoop_eq_of_sizes {page page' : Memory} {fuel s : ℕ}
    (h : ∀ q ∈ visitLoop page size fuel s, sizeField.get page' q = sizeField.get page q) :
    visitLoop page' size fuel s = visitLoop page size fuel s := by
  induction fuel generalizing s with
  | zero => rfl
  | succ fuel ih =>
    rw [visitLoop] at h ⊢
    rw [visitLoop]
    split_ifs at h ⊢ with hs
    · rw [h s List.mem_cons_self, ih fun q hq => h q (List.mem_cons_of_mem s hq)]
    · rfl

theorem SameVisited.frame {m₁ m₁' : Memory} (h : SameVisited m m' a size)
    (heq : Set.EqOn m₁ m (Set.Ico a (a + size))) (heq' : Set.EqOn m₁' m' (Set.Ico a (a + size))) :
    SameVisited m₁ m₁' a size := by
  have hvisited : visited (view m₁ a) size = visited (view m a) size := by
    refine visitLoop_congr fun o ho => heq ⟨?_, ?_⟩
    · exact Nat.le_add_right a o
    · exact Nat.add_lt_add_left ho.2 a
  have hbytes : visitedBytes m₁ a size = visitedBytes m a size := by
    rw [visitedBytes, visitedBytes, hvisited]
  intro x hx
  rw [hbytes] at hx
  rw [heq (visitedBytes_subset hx), heq' (visitedBytes_subset hx), h hx]

/-- `restorePointers` reads the sizes at the positions that it visits. -/
theorem restoreLoop_congr {s : Set ℕ} {fuel pos : ℕ} (old : ℕ) (h : Set.EqOn m' m s)
    (hs : ∀ q ∈ visitLoop (view m a) size fuel pos,
      Set.Ico (a + q) (a + q + sizeofSpaceNode) ⊆ s) :
    Set.EqOn (restoreLoop size fuel pos old (a + pos) m')
      (restoreLoop size fuel pos old (a + pos) m) s := by
  induction fuel generalizing pos old m m' with
  | zero => exact nextField.set_congr h ..
  | succ fuel ih =>
    by_cases hpos : pos < size ∧ sizeofSpaceNode < size - pos
    · rw [visitLoop, if_pos hpos] at hs
      have hsize : sizeField.get (view m' a) pos = sizeField.get (view m a) pos := by
        rw [Field.get_view, Field.get_view]
        exact sizeField.get_congr (h.mono (hs pos List.mem_cons_self)) (by decide)
      rw [restoreLoop_succ hpos rfl, restoreLoop_succ hpos rfl, hsize]
      refine ih _ (startField.set_congr (prevField.set_congr (nextField.set_congr h ..) ..) ..)
        fun q hq => hs q (List.mem_cons_of_mem pos ?_)
      rwa [visitLoop_setPointers (by omega)] at hq
    · rw [restoreLoop, restoreLoop, if_neg hpos, if_neg hpos]
      exact nextField.set_congr h ..

variable {m₁ m₁' : Memory} {a' : ℕ}

/-- The positions visited are the same in the new page. -/
theorem Restored.visited_eq (h : Restored m a m₁ a' size) (hsize : sizeofSpaceNode < size) :
    visited (view m₁ a') size = visited (view m a) size := by
  refine visitLoop_eq_of_sizes fun q hq => ?_
  rw [Field.get_view, Field.get_view]
  exact h.get hsize (by decide) (by decide) hq

/-- **Moving a page.** The same page is moved in both memories. -/
theorem SameVisited.restored (h : SameVisited m m' a size) (hsize : sizeofSpaceNode < size)
    (hm : Restored m a m₁ a' size) (hm' : Restored m' a m₁' a' size) :
    SameVisited m₁ m₁' a' size := by
  have hvisited := hm.visited_eq hsize
  obtain ⟨x, hcopy, hrestore⟩ := hm
  obtain ⟨x', hcopy', hrestore'⟩ := hm'
  have hx : visited (view x a') size = visited (view m a) size := by
    rw [visited, visitLoop_congr hcopy, visited]
  have hsub : visitedBytes m₁ a' size ⊆ Set.Ico a' (a' + size) := visitedBytes_subset
  -- the copies agree where the pages did
  have hagree : Set.EqOn x' x (visitedBytes m₁ a' size) := by
    intro y hy
    obtain ⟨o, rfl⟩ := Nat.exists_eq_add_of_le (hsub hy).1
    have ho : o ∈ Set.Ico 0 size := ⟨Nat.zero_le o, Nat.lt_of_add_lt_add_left (hsub hy).2⟩
    have hold : a + o ∈ visitedBytes m a size := by
      obtain ⟨q, hq, hlo, hhi⟩ := hy
      rw [hvisited] at hq
      exact ⟨q, hq, by omega, by omega⟩
    calc x' (a' + o) = m' (a + o) := hcopy' ho
      _ = m (a + o) := h hold
      _ = x (a' + o) := (hcopy ho).symm
  have hrecord (q : ℕ) (hq : q ∈ visitLoop (view x a') size size 0) :
      Set.Ico (a' + q) (a' + q + sizeofSpaceNode) ⊆ visitedBytes m₁ a' size :=
    fun y hy => ⟨q, by rwa [hvisited, ← hx], hy⟩
  have hres := restoreLoop_congr 0 hagree hrecord
  intro y hy
  rw [hrestore (hsub hy), hrestore' (hsub hy)]
  exact hres hy

/-! ### The list of a page that is moved -/

theorem Seg.follows (h : Seg m p bs 0) : Follows m p (bs.map Block.addr) := by
  induction bs generalizing p with
  | nil => exact h
  | cons b bs ih =>
    obtain ⟨hp, hne, -, hseg⟩ := h
    exact ⟨hp, hne, ih hseg⟩

/-- A list of records that are linked, with their sizes and flags, is a list of blocks. -/
theorem Threaded.seg (ha : a ≠ 0) (h : Threaded m a p (bs.map Block.addr))
    (hb : ∀ b ∈ bs, sizeField.get m (a + b.addr) = b.size ∧
      (freeField.get m (a + b.addr) ≠ 0 ↔ b.free = true)) :
    Seg m (headAddress a (bs.map Block.addr)) (bs.map (Block.shift a)) 0 := by
  induction bs generalizing p with
  | nil => rfl
  | cons b bs ih =>
    obtain ⟨hstart, -, hnext, h⟩ := h
    obtain ⟨hsize, hfree⟩ := hb b List.mem_cons_self
    refine ⟨rfl, fun h0 => ha (Nat.eq_zero_of_add_eq_zero_right h0), ⟨hstart, hsize, hfree⟩, ?_⟩
    show Seg m (nextField.get m (a + b.addr)) _ 0
    rw [hnext]
    exact ih h fun c hc => hb c (List.mem_cons_of_mem b hc)

/-- The list of a page is the one found by the sizes. -/
theorem Seg.addr_eq_visited (h : Seg m a (bs.map (Block.shift a)) 0) (ha : a ≠ 0)
    (hsize : sizeofSpaceNode < size) (htiled : Threaded m a 0 (visited (view m a) size)) :
    bs.map Block.addr = visited (view m a) size := by
  have hfollows := htiled.follows ha
  rw [headAddress_visited hsize] at hfollows
  have hmap := h.follows.unique hfollows
  rw [List.map_map] at hmap
  refine List.map_injective_iff.mpr (add_right_injective a) ?_
  rw [List.map_map]
  exact hmap

theorem SameBlocks.sameVisited (h : SameBlocks m m' a limit (bs.map (Block.shift a))) (ha : a ≠ 0)
    (hsize : sizeofSpaceNode < size) (htiled : Threaded m a 0 (visited (view m a) size)) :
    SameVisited m m' a size := by
  refine h.agree.mono ?_
  rintro x ⟨q, hq, hx⟩
  rw [← h.seg.addr_eq_visited ha hsize htiled] at hq
  obtain ⟨b, hb, rfl⟩ := List.mem_map.mp hq
  exact ⟨b.shift a, List.mem_map_of_mem hb, hx⟩

/-- **Moving a list.** A list that is the one found by the sizes arrives in the new page, with the
same records in both memories. -/
theorem SameBlocks.restored (h : SameBlocks m m' a (a + size) (bs.map (Block.shift a)))
    (ha : a ≠ 0) (ha' : a' ≠ 0) (hsize : sizeofSpaceNode < size) (hend : a' + size < 2 ^ 64)
    (htiled : Threaded m a 0 (visited (view m a) size)) (hm : Restored m a m₁ a' size)
    (hm' : Restored m' a m₁' a' size) :
    SameBlocks m₁ m₁' a' (a' + size) (bs.map (Block.shift a')) := by
  have hplaces := h.seg.addr_eq_visited ha hsize htiled
  have hthreaded := hm.threaded hend
  rw [← hplaces] at hthreaded
  have hfields (b : Block) (hb : b ∈ bs) : sizeField.get m₁ (a' + b.addr) = b.size ∧
      (freeField.get m₁ (a' + b.addr) ≠ 0 ↔ b.free = true) := by
    have hq : b.addr ∈ visited (view m a) size := hplaces ▸ List.mem_map_of_mem hb
    have hden := h.seg.denotes (List.mem_map_of_mem hb)
    rw [hm.get hsize (by decide) (by decide) hq, hm.get hsize (by decide) (by decide) hq]
    exact ⟨hden.size, hden.free⟩
  have hhead : headAddress a' (bs.map Block.addr) = a' := by
    rw [hplaces]
    exact headAddress_visited hsize a'
  have hseg := hthreaded.seg ha' hfields
  rw [hhead] at hseg
  refine ⟨hseg, spaced_shift.mpr (spaced_shift.mp h.spaced), ?_⟩
  refine ((h.sameVisited ha hsize htiled).restored hsize hm hm').mono ?_
  rintro x ⟨c, hc, hx⟩
  obtain ⟨b, hb, rfl⟩ := List.mem_map.mp hc
  refine ⟨b.addr, ?_, hx⟩
  rw [hm.visited_eq hsize, ← hplaces]
  exact List.mem_map_of_mem hb

end Move

end OSDesign.VM
