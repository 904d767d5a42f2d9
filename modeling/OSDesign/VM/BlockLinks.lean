import OSDesign.VM.Restoration

/-!
# The links of the block list

`prev` of a block should be the block before it on the list, and no two blocks that follow each
other should be free, since `removeSpace` joins a freed block with its neighbours. But `createSpace`
puts the record of the rest between a block and the next one, and `removeSpace` takes records off
the list, without updating `prev` of the block behind. A freed block whose `prev` is out of date is
then not joined with the block before it (`cut_leaves_stale_prev`).

There is nothing to update when the record that is put or taken is at the end of the list. In the
runs in which this is so the links are right (`links_consistent`).

## Main definitions

* `PrevLinks`, `LinksConsistent`.
* `LinkAllowed`: the steps that change the end of the list only.

## Main results

* `links_consistent`, `cut_leaves_stale_prev`.
-/

namespace OSDesign.VM

open Transition ByteMemory

/-- `prev` of each block is the address of the one before, and `p` for the first. -/
def PrevLinks (m : Memory) : ℕ → List Block → Prop
  | _, [] => True
  | p, b :: bs => prevField.get m b.addr = p ∧ PrevLinks m b.addr bs

/-- The links and flags of the list from `base` on, of at most `len` records. -/
structure LinksConsistent (base len : ℕ) (m : Memory) : Prop where
  first : prevField.get m base = 0
  back : ∀ n ∈ blockAddrs m (len + 1) base, nextField.get m n ≠ 0 →
    prevField.get m (nextField.get m n) = n
  joined : ∀ n ∈ blockAddrs m (len + 1) base, nextField.get m n ≠ 0 →
    freeField.get m n ≠ 0 → freeField.get m (nextField.get m n) = 0

section Lists

variable {m m' : Memory} {p : ℕ} {b : Block} {l r bs : List Block}

theorem PrevLinks.congr (h : PrevLinks m p bs)
    (heq : ∀ b ∈ bs, prevField.get m' b.addr = prevField.get m b.addr) : PrevLinks m' p bs := by
  induction bs generalizing p with
  | nil => trivial
  | cons b bs ih =>
    refine ⟨(heq b List.mem_cons_self).trans h.1, ih h.2 fun c hc => ?_⟩
    exact heq c (List.mem_cons_of_mem _ hc)

/-- The address of the last block, or `p` if there is none. -/
def lastAddr (p : ℕ) (l : List Block) : ℕ := (l.getLast?.map Block.addr).getD p

theorem prevLinks_append : PrevLinks m p (l ++ r) ↔
    PrevLinks m p l ∧ PrevLinks m (lastAddr p l) r := by
  induction l generalizing p with
  | nil => simp [PrevLinks, lastAddr]
  | cons b l ih =>
    have hlast : lastAddr p (b :: l) = lastAddr b.addr l := by
      rw [lastAddr, lastAddr, List.getLast?_cons]
      cases l.getLast? <;> rfl
    rw [List.cons_append, PrevLinks, PrevLinks, ih, hlast, and_assoc]

theorem prevLinks_middle (h : PrevLinks m 0 (l ++ b :: r)) :
    prevField.get m b.addr = lastAddr 0 l :=
  (prevLinks_append.mp h).2.1

/-- What is left of the list when its end is taken off. -/
theorem PrevLinks.left (h : PrevLinks m p (l ++ r)) : PrevLinks m p l := (prevLinks_append.mp h).1

/-- A block in use, or one with another size, has the same links. -/
theorem PrevLinks.setMiddle {b' : Block} (h : PrevLinks m p (l ++ b :: r))
    (haddr : b'.addr = b.addr) :
    PrevLinks m p (l ++ b' :: r) := by
  rw [prevLinks_append] at h ⊢
  rw [PrevLinks] at h ⊢
  rw [haddr]
  exact h

/-- The block that `prev` names, if there is one, is the block before. -/
theorem PrevLinks.pred (h : PrevLinks m 0 (l ++ b :: r)) (hne : prevField.get m b.addr ≠ 0) :
    ∃ l' x, l = l' ++ [x] ∧ prevField.get m b.addr = x.addr := by
  have hprev := prevLinks_middle h
  rcases l.eq_nil_or_concat' with rfl | ⟨l', x, rfl⟩
  · exact absurd hprev hne
  · refine ⟨l', x, rfl, ?_⟩
    rw [hprev, lastAddr, List.getLast?_concat]
    rfl

/-- Joining blocks at the end of the list. -/
theorem Joins.prevLinks {P N : Prop} (hj : Joins P N b l r bs) (h : PrevLinks m 0 (l ++ b :: r))
    (hnext : N → r.tail = []) (hprev : P → ¬ N → r = []) : PrevLinks m 0 bs := by
  cases hj with
  | both hP hN l r x y hx hy =>
    rw [show r = [] from hnext hN]
    exact h.left.setMiddle rfl
  | prev hP hN l r x hx hr =>
    rw [hprev hP hN]
    exact h.left.setMiddle rfl
  | next hP hN l r y hy =>
    rw [show r = [] from hnext hN]
    rw [List.append_cons] at h
    exact h.left.setMiddle rfl
  | none hP hN l r hr => exact h.setMiddle rfl

end Lists

/-! ### The field `prev` -/

section Prev

variable {m : Memory} {n c : ℕ}

/-- The records at `x` and `c` are the same or do not overlap. -/
def SameOrApart (x c : ℕ) : Prop := x = c ∨ x + sizeofSpaceNode ≤ c ∨ c + sizeofSpaceNode ≤ x

/-- Setting another field of a record. -/
theorem prev_set {f : Field} (hf : f.Apart prevField) (hin : f.off + f.len ≤ sizeofSpaceNode)
    (h : SameOrApart n c) (v : ℕ) : prevField.get (f.set m n v) c = prevField.get m c := by
  rcases h with rfl | h
  · exact Field.get_set_of_apart hf ..
  · exact prevField.get_congr (eqOn_of_disjoint (f.set_eqOn m n v hin) (disjoint_Ico h)) (by decide)

theorem prev_markFree (h : SameOrApart n c) :
    prevField.get (markFree m n) c = prevField.get m c := by
  rw [markFree, prev_set (by decide) (by decide) h, prev_set (by decide) (by decide) h]

theorem prev_absorb (h : SameOrApart n c) (size y : ℕ) :
    prevField.get (absorb m n size y) c = prevField.get m c := by
  rw [absorb, prev_set (by decide) (by decide) h, prev_set (by decide) (by decide) h]

/-- `removeSpace` sets no field `prev`. -/
theorem prev_removeSpace {ptr : ℕ} (hn : SameOrApart (ptr - sizeofSpaceNode) c)
    (ha : Mergeable (markFree m (ptr - sizeofSpaceNode))
        (prevField.get m (ptr - sizeofSpaceNode)) →
      SameOrApart (prevField.get m (ptr - sizeofSpaceNode)) c) :
    prevField.get (removeSpace m ptr) c = prevField.get m c := by
  rw [removeSpace]
  dsimp only
  generalize ptr - sizeofSpaceNode = n at hn ha ⊢
  split_ifs
  · rfl
  have hmark : prevField.get (markFree m n) c = prevField.get m c := prev_markFree hn
  rcases coalesce_eq (markFree m n) n (prevField.get m n) (nextField.get m n) with
    ⟨hm, -, heq⟩ | ⟨hm, -, heq⟩ | ⟨-, -, heq⟩ | ⟨-, -, heq⟩
  · rw [heq, prev_absorb (ha hm), hmark]
  · rw [heq, prev_absorb (ha hm), hmark]
  · rw [heq, prev_absorb hn, hmark]
  · rw [heq, hmark]

theorem prev_useBlock (h : SameOrApart n c) (size : ℕ) :
    prevField.get (useBlock m n size) c = prevField.get m c := by
  rw [useBlock, prev_set (by decide) (by decide) h, prev_set (by decide) (by decide) h]

/-- `createSpace` sets `prev` in the record of the rest only. -/
theorem prev_createSpace {size : ℕ} (junk : ℕ → UInt8) (hn : SameOrApart n c)
    (hrest : sizeofSpaceNode < restSize m n size →
      startField.get m n + size + sizeofSpaceNode ≤ c ∨
        c + sizeofSpaceNode ≤ startField.get m n + size) :
    prevField.get (createSpace m n size junk).2 c = prevField.get m c := by
  by_cases hfree : freeField.get m n = 0
  · rw [createSpace, if_pos hfree]
  rw [createSpace_of_free m size junk hfree]
  split_ifs with hcut
  · have hput := putFree_eqOn (useBlock m n size) (startField.get m n + size)
      (nextField.get (useBlock m n size) n) n (restSize m n size) junk
    have hprev := prevField.get_congr (eqOn_of_disjoint hput (disjoint_Ico (hrest hcut)))
      (show _ ≤ sizeofSpaceNode by decide)
    rw [splitBlock, start_useBlock, prev_set (by decide) (by decide) hn, hprev,
      prev_useBlock hn size]
  · exact prev_useBlock hn size

/-- `prev` of the rest is the block that was cut. -/
theorem prev_createSpace_rest {size : ℕ} (junk : ℕ → UInt8) (hfree : freeField.get m n ≠ 0)
    (hn : n < 2 ^ 64) (hcut : sizeofSpaceNode < restSize m n size)
    (hpos : n + sizeofSpaceNode ≤ startField.get m n + size) :
    prevField.get (createSpace m n size junk).2 (startField.get m n + size) = n := by
  rw [createSpace_of_free m size junk hfree, if_pos hcut, splitBlock, start_useBlock,
    prev_set (by decide) (by decide) (Or.inr (Or.inl hpos)), prev_putFree hn]

theorem Spaced.sameOrApart {limit : ℕ} {bs : List Block} {b d : Block} (h : Spaced limit bs)
    (hb : b ∈ bs) (hd : d ∈ bs) : SameOrApart b.addr d.addr := by
  rcases h.apart hb hd with rfl | hbd | hdb
  · exact Or.inl rfl
  · exact Or.inr (Or.inl (b.addr_lt_stop.trans hbd))
  · exact Or.inr (Or.inr (d.addr_lt_stop.trans hdb))

/-- No record of the list is behind the last one. -/
theorem Spaced.record_le_last {limit : ℕ} {l : List Block} {b d : Block}
    (h : Spaced limit (l ++ [b])) (hd : d ∈ l ++ [b]) : d.addr + sizeofSpaceNode ≤ b.start := by
  rcases List.mem_append.mp hd with hd | hd
  · have hstop := (spaced_append.mp h).2.2 d hd b List.mem_cons_self
    exact (d.addr_lt_stop.trans hstop).trans (Nat.le_add_right ..)
  · rw [List.mem_singleton.mp hd]
    exact le_rfl

end Prev

/-! ### Runs -/

variable (base len : ℕ)

/-- The blocks that are handed out fit. A block is cut only at the end of the list, and the blocks
that are joined are the last ones. -/
def LinkAllowed (s : Region) : RegionEvent → Prop
  | .alloc size junk => RegionAllowed base len s (.alloc size junk) ∧
      ∀ n ∈ findFreeSpace s.mem size (len + 1) base, n ≠ 0 →
        sizeofSpaceNode < sizeField.get s.mem n - size → nextField.get s.mem n = 0
  | .free ptr =>
      let n := ptr - sizeofSpaceNode
      (Mergeable (markFree s.mem n) (nextField.get s.mem n) →
        nextField.get s.mem (nextField.get s.mem n) = 0) ∧
      (Mergeable (markFree s.mem n) (prevField.get s.mem n) →
        ¬ Mergeable (markFree s.mem n) (nextField.get s.mem n) → nextField.get s.mem n = 0)
  | .write _ _ => True

instance (s : Region) (e : RegionEvent) : Decidable (LinkAllowed base len s e) := by
  rcases e <;> dsimp only [LinkAllowed] <;> infer_instance

/-- The records form a list of blocks in the region with the right links. -/
def LinkInv (s : Region) : Prop :=
  ∃ bs, RegionBlocks base len s bs ∧ bs ≠ [] ∧ Alternating bs ∧ PrevLinks s.mem 0 bs

variable {base len} {s s' : Region}

/-- Nothing is behind a block whose `next` is `NULL`. -/
theorem Seg.eq_nil {m : Memory} {bs : List Block} (h : Seg m 0 bs 0) : bs = [] := by
  cases bs with
  | nil => rfl
  | cons b bs => exact absurd rfl h.2.1

theorem LinkInv.alloc {size : ℕ} {junk : ℕ → UInt8} (h : LinkInv base len s)
    (hend : base + len < 2 ^ 64) (hok : LinkAllowed base len s (.alloc size junk))
    (hs : regionStep base len s (.alloc size junk) = some s') : LinkInv base len s' := by
  obtain ⟨bs, hbs, hne, halt, hlinks⟩ := h
  rcases hbs.alloc hend hok.1 hs with ⟨rfl, -⟩ | ⟨l, b, r, rfl, hfind, hfree, hsize, hs', hbs'⟩
  · exact ⟨bs, hbs, hne, halt, hlinks⟩
  obtain ⟨hseg, hsp, -⟩ := hbs
  obtain ⟨-, hb, hden, hr⟩ := seg_middle.mp hseg
  have hmid : b ∈ l ++ b :: r := List.mem_append_right _ List.mem_cons_self
  have hmem : s'.mem = (createSpace s.mem b.addr size junk).2 := by rw [hs']
  -- a block is cut only if it is the last one
  have hlast (hcut : b.Splits size) : r = [] := by
    have hnext := hok.2 b.addr hfind hb (by rwa [hden.size])
    rw [hnext] at hr
    exact hr.eq_nil
  have hkeep : ∀ c ∈ l ++ b :: r, prevField.get s'.mem c.addr = prevField.get s.mem c.addr := by
    intro c hc
    rw [hmem]
    refine prev_createSpace junk (hsp.sameOrApart hmid hc) fun hcut => ?_
    rw [hden.restSize hsize] at hcut
    rw [hlast hcut] at hc hsp
    rw [hden.start]
    exact Or.inr ((hsp.record_le_last hc).trans (Nat.le_add_right ..))
  have hlinks' := hlinks.congr hkeep
  refine ⟨_, hbs', ?_, alternating_cut halt hfree, ?_⟩
  · rw [Block.cut]
    split_ifs <;> simp
  · rw [Block.cut]
    split_ifs with hcut
    · obtain rfl := hlast hcut
      have hstart := hden.start
      have hlt : b.addr < 2 ^ 64 := by
        have := hsp.stop_le b hmid
        have := b.addr_lt_stop
        omega
      have hrest := prev_createSpace_rest junk (hden.free.mpr hfree) hlt
        (by rwa [hden.restSize hsize]) (by rw [hstart]; exact Nat.le_add_right ..)
      rw [hstart, ← hmem] at hrest
      obtain ⟨hl, hb', -⟩ := prevLinks_append.mp hlinks'
      exact prevLinks_append.mpr ⟨hl, hb', hrest, trivial⟩
    · exact hlinks'.setMiddle rfl

/-- With the right links, `prev` of a freed block can be followed. -/
theorem RegionBlocks.free_allowed {ptr : ℕ} {bs : List Block} (h : RegionBlocks base len s bs)
    (hlinks : PrevLinks s.mem 0 bs) (hptr : ptr ∈ s.live.map Prod.fst) :
    RegionAllowed base len s (.free ptr) := by
  obtain ⟨l, b, r, rfl, rfl, -⟩ := h.exists_block hptr
  have haddr : b.start - sizeofSpaceNode = b.addr := Nat.add_sub_cancel ..
  obtain ⟨hseg, hsp, -⟩ := h
  rw [RegionAllowed, haddr]
  intro hm
  obtain ⟨l', x, rfl, hx⟩ := hlinks.pred hm.1
  rw [blockAddrs_eq hseg (hseg.length_lt hsp), hx]
  refine ⟨List.mem_map_of_mem (by simp), ?_⟩
  rw [List.append_assoc, List.singleton_append] at hseg
  exact (seg_middle.mp hseg).2.2.2.head.1

theorem LinkInv.free {ptr : ℕ} (h : LinkInv base len s) (hok : LinkAllowed base len s (.free ptr))
    (hs : regionStep base len s (.free ptr) = some s') : LinkInv base len s' := by
  obtain ⟨bs, hbs, -, halt, hlinks⟩ := h
  have hstep := hs
  rw [regionStep] at hstep
  split_ifs at hstep with hptr
  have hmem : s'.mem = removeSpace s.mem ptr := by rw [← Option.some.inj hstep]
  obtain ⟨l, b, r, bs', rfl, rfl, hused, hjoins, hbs'⟩ :=
    hbs.free (hbs.free_allowed hlinks hptr) hs
  have haddr : b.start - sizeofSpaceNode = b.addr := Nat.add_sub_cancel ..
  rw [LinkAllowed, haddr] at hok
  obtain ⟨hseg, hsp, -⟩ := id hbs
  obtain ⟨-, -, -, hr⟩ := seg_middle.mp hseg
  have hmid : b ∈ l ++ b :: r := List.mem_append_right _ List.mem_cons_self
  have hkeep : ∀ c ∈ l ++ b :: r, prevField.get s'.mem c.addr = prevField.get s.mem c.addr := by
    intro c hc
    rw [hmem]
    refine prev_removeSpace ?_ ?_
    · rw [haddr]
      exact hsp.sameOrApart hmid hc
    · rw [haddr]
      intro hm
      obtain ⟨l', x, rfl, hx⟩ := hlinks.pred hm.1
      rw [hx]
      exact hsp.sameOrApart (by simp) hc
  have hlinks' := hlinks.congr hkeep
  refine ⟨bs', hbs', ?_, hjoins.alternating halt fun x hx hf => ?_, ?_⟩
  · cases hjoins <;> simp
  · refine hbs.mergeable_of_prev hx hf ?_
    rw [prevLinks_middle hlinks, lastAddr, hx]
    rfl
  · refine hjoins.prevLinks hlinks' (fun hN => ?_) fun hP hN => ?_
    · cases r with
      | nil => rfl
      | cons y r =>
        obtain ⟨hy, -, -, hr'⟩ := hr
        have hnext := hok.1 hN
        rw [hy] at hnext
        rw [hy, hnext] at hr'
        exact hr'.eq_nil
    · rw [hok.2 hP hN] at hr
      exact hr.eq_nil

theorem prev_init {m : Memory} (h : RegionInit m base len) : prevField.get m base = 0 := by
  cases h with
  | page m base len junk hbase hlen hend => exact prev_putFree (by norm_num)
  | os m mem junk hend =>
    simp (disch := decide) only [initOSRegion, Field.get_set_of_apart, Field.get_set_self]
    rfl

theorem linkInv_step {e : RegionEvent} (hend : base + len < 2 ^ 64) (h : LinkInv base len s)
    (hok : LinkAllowed base len s e) (hs : regionStep base len s e = some s') :
    LinkInv base len s' := by
  cases e with
  | alloc size junk => exact h.alloc hend hok hs
  | free ptr => exact h.free hok hs
  | write a v =>
    obtain ⟨bs, hbs, hne, halt, hlinks⟩ := h
    obtain ⟨-, x, hx, heq⟩ := eqOn_write hs
    refine ⟨bs, hbs.write hs, hne, halt, hlinks.congr fun c hc => ?_⟩
    exact prevField.get_congr (eqOn_of_disjoint heq (hbs.disjoint_record hx hc)) (by decide)

/-- What the right links mean for the records in memory. -/
theorem LinkInv.consistent (h : LinkInv base len s) : LinksConsistent base len s.mem := by
  obtain ⟨bs, ⟨hseg, hsp, -⟩, hne, halt, hlinks⟩ := h
  have haddrs := blockAddrs_eq hseg (hseg.length_lt hsp)
  -- a record on the list and the one behind it
  have hpair : ∀ n ∈ blockAddrs s.mem (len + 1) base, nextField.get s.mem n ≠ 0 →
      ∃ l b c r, bs = (l ++ [b]) ++ c :: r ∧ n = b.addr ∧ nextField.get s.mem n = c.addr := by
    intro n hn hnext
    rw [haddrs] at hn
    obtain ⟨b, hb, rfl⟩ := List.mem_map.mp hn
    obtain ⟨l, r, rfl⟩ := List.append_of_mem hb
    obtain ⟨-, -, -, hr⟩ := seg_middle.mp hseg
    cases r with
    | nil => exact absurd hr hnext
    | cons c r => exact ⟨l, b, c, r, List.append_cons .., rfl, hr.1⟩
  refine ⟨?_, fun n hn hnext => ?_, fun n hn hnext hfree => ?_⟩
  · cases bs with
    | nil => exact absurd rfl hne
    | cons b bs =>
      rw [hseg.1]
      exact hlinks.1
  · obtain ⟨l, b, c, r, rfl, rfl, hc⟩ := hpair n hn hnext
    rw [hc, prevLinks_middle hlinks, lastAddr, List.getLast?_concat]
    rfl
  · obtain ⟨l, b, c, r, rfl, rfl, hc⟩ := hpair n hn hnext
    obtain ⟨-, -, hdc, -⟩ := seg_middle.mp hseg
    obtain ⟨-, -, hbc, -⟩ := alternating_middle.mp halt
    rw [List.append_assoc, List.singleton_append] at hseg
    obtain ⟨-, -, hdb, -⟩ := seg_middle.mp hseg
    have hused := hbc b (by rw [List.getLast?_concat]; rfl) (hdb.free.mp hfree)
    rw [hc]
    by_contra hne
    rw [hdc.free.mp hne] at hused
    cases hused

/-- **Links.** In every run in which the blocks handed out fit, blocks are cut only at the end of
the list and only the last blocks are joined, the links of the list are right and no two blocks that
follow each other are free. -/
theorem links_consistent {m : Memory} (hinit : RegionInit m base len) {es : List RegionEvent}
    (hok : RunOk (regionStep base len) (LinkAllowed base len) ⟨m, []⟩ es)
    (hrun : run (regionStep base len) ⟨m, []⟩ es = some s) : LinksConsistent base len s.mem := by
  have h₀ : LinkInv base len ⟨m, []⟩ :=
    ⟨_, regionBlocks_init hinit, by simp, List.isChain_singleton _, prev_init hinit, trivial⟩
  have hinv : LinkInv base len s := run_invariant
    (fun _ _ _ hi hok hs => linkInv_step hinit.end_lt hi hok hs) h₀ hok hrun
  exact hinv.consistent

/-- Blocks are allocated at the end of a page, one of them is taken again as a whole, and the last
one is freed and joined with the rest of the page. -/
def lastBlockRun : List RegionEvent :=
  [.alloc 100 fun _ => 0, .alloc 200 fun _ => 0, .write 4330 7, .free 4152, .alloc 90 fun _ => 0,
    .free 4308]

/-- The theorem at the end of that run. -/
theorem links_consistent_last_block :
    ∃ s, run (regionStep 4096 4096) ⟨initializeSpace (fun _ => 0) 4096 4096 fun _ => 0, []⟩
        lastBlockRun = some s ∧ s.live = [(4152, 90)] ∧ LinksConsistent 4096 4096 s.mem := by
  have hend : (run (regionStep 4096 4096)
      ⟨initializeSpace (fun _ => 0) 4096 4096 fun _ => 0, []⟩ lastBlockRun).map Region.live =
      some [(4152, 90)] := by decide +kernel
  obtain ⟨s, hrun, hlive⟩ := Option.map_eq_some_iff.mp hend
  exact ⟨s, hrun, hlive, links_consistent
    (.page _ 4096 4096 _ (by norm_num) (by decide) (by norm_num)) (by decide +kernel) hrun⟩

/-- A block of 200 bytes in front of another one is freed and cut: `prev` of the block behind is not
the record of the rest. -/
theorem cut_leaves_stale_prev :
    ∃ s, run (regionStep 4096 4096) ⟨initializeSpace (fun _ => 0) 4096 4096 fun _ => 0, []⟩
        [.alloc 200 fun _ => 0, .alloc 100 fun _ => 0, .free 4152, .alloc 50 fun _ => 0] = some s ∧
      4202 ∈ blockAddrs s.mem 4097 4096 ∧ nextField.get s.mem 4202 = 4352 ∧
      prevField.get s.mem 4352 = 4096 := by
  have hend : (run (regionStep 4096 4096)
      ⟨initializeSpace (fun _ => 0) 4096 4096 fun _ => 0, []⟩
      [.alloc 200 fun _ => 0, .alloc 100 fun _ => 0, .free 4152, .alloc 50 fun _ => 0]).map
      (fun s => (blockAddrs s.mem 4097 4096, nextField.get s.mem 4202, prevField.get s.mem 4352)) =
      some ([4096, 4202, 4352, 4508], 4352, 4096) := by decide +kernel
  obtain ⟨s, hrun, hproj⟩ := Option.map_eq_some_iff.mp hend
  obtain ⟨haddrs, hrest⟩ := Prod.mk.inj hproj
  obtain ⟨hnext, hprev⟩ := Prod.mk.inj hrest
  exact ⟨s, hrun, by rw [haddrs]; decide, hnext, hprev⟩

end OSDesign.VM
