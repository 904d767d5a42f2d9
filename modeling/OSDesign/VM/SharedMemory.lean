import OSDesign.VM.Disjointness

/-!
# The shared pages

`shalloc` takes memory from the last four pages. `init` lays them out with `initializeFreePages`, as
a list with one free block for each page, and `getFreeElementFrom` and `removeSpace` work on this
list as they do on the single block of a page or of the memory of the operating system. So what
`OSDesign.VM.Disjointness` says about those regions holds for the shared pages too, once the loop of
`initializeFreePages` is known to make a proper list.

## Main definitions

* `initializeFreePages`, `SharedInit`.

## Main results

* `shared_disjointness`.
-/

namespace OSDesign.VM

open Transition ByteMemory

/-- `initializeFreePages` for `n` pages from `start` on, where `prev` is the record before. -/
def initializeFreePages (pageSize : ℕ) (junk : ℕ → UInt8) : ℕ → ℕ → ℕ → Memory → Memory
  | 0, _, _, m => m
  | n + 1, start, prev, m =>
    let m := putFree m start 0 prev (pageSize - sizeofSpaceNode) junk
    let m := if prev = 0 then m else nextField.set m prev start
    initializeFreePages pageSize junk n (start + pageSize) start m

/-- A region of `len` bytes at `start`, with room for at least one page, has been laid out by
`initializeFreePages`: as long as there is room for a page, it makes one. -/
inductive SharedInit : Memory → ℕ → ℕ → Prop
  | pages (m : Memory) (pageSize start len : ℕ) (junk : ℕ → UInt8) (hstart : start ≠ 0)
      (hpage : sizeofSpaceNode < pageSize) (hsize : pageSize < 2 ^ 32) (hlen : pageSize ≤ len)
      (hend : start + len < 2 ^ 64) :
      SharedInit (initializeFreePages pageSize junk (len / pageSize) start 0 m) start len

variable {m : Memory} {p pos size limit : ℕ} {b : Block} {l : List Block}

/-- The record of a new free block. -/
theorem denotes_putFree (m : Memory) (next prev : ℕ) (junk : ℕ → UInt8) (hsize : size < 2 ^ 32)
    (hend : pos + sizeofSpaceNode < 2 ^ 64) :
    Denotes (putFree m pos next prev size junk) ⟨pos, size, true⟩ where
  start := start_putFree hend
  size := (size_putFree m pos next prev size junk).trans (Nat.mod_eq_of_lt hsize)
  free := by
    rw [free_putFree]
    exact ⟨fun _ => rfl, fun _ => one_ne_zero⟩

/-- A new free block is linked behind the last one. -/
theorem Seg.link (h : Seg m p (l ++ [b]) 0) (hsp : Spaced pos (l ++ [b])) (hsize : size < 2 ^ 32)
    (hend : pos + sizeofSpaceNode < 2 ^ 64) (junk : ℕ → UInt8) :
    Seg (nextField.set (putFree m pos 0 b.addr size junk) b.addr pos) p
      (l ++ [b] ++ [⟨pos, size, true⟩]) 0 := by
  set m₁ := putFree m pos 0 b.addr size junk with hm₁
  obtain ⟨-, -, hlb⟩ := spaced_append.mp hsp
  obtain ⟨hl, hne, hden, -⟩ := seg_middle.mp h
  have hstart : b.start = b.addr + sizeofSpaceNode := rfl
  have hstop (c : Block) (hc : c ∈ l ++ [b]) : c.start ≤ pos :=
    c.start_le_stop.trans (hsp.stop_le c hc)
  have hbpos := hstop b (List.mem_append_right l List.mem_cons_self)
  have heq₁ : Set.EqOn m₁ m (Set.Ico pos (pos + sizeofSpaceNode))ᶜ := putFree_eqOn ..
  have heq₂ : Set.EqOn (nextField.set m₁ b.addr pos) m₁ b.recordᶜ :=
    nextField.set_eqOn m₁ b.addr pos (show _ ≤ sizeofSpaceNode by decide)
  have hnew : Set.EqOn (nextField.set m₁ b.addr pos) m₁ (Set.Ico pos (pos + sizeofSpaceNode)) :=
    eqOn_of_disjoint heq₂ (disjoint_Ico (Or.inl hbpos))
  have hdenb : Denotes (nextField.set m₁ b.addr pos) b := by
    have hden₁ := hden.congr (eqOn_of_disjoint heq₁ (disjoint_Ico (Or.inr hbpos)))
    refine ⟨?_, ?_, ?_⟩
    · rw [Field.get_set_of_apart (by decide), hden₁.start]
    · rw [Field.get_set_of_apart (by decide), hden₁.size]
    · rw [Field.get_set_of_apart (by decide), hden₁.free]
  have hdennew : Denotes (nextField.set m₁ b.addr pos) ⟨pos, size, true⟩ :=
    (denotes_putFree m 0 b.addr junk hsize hend).congr hnew
  rw [List.append_assoc]
  refine seg_middle.mpr ⟨?_, hne, hdenb, ?_⟩
  · refine hl.congr fun c hc => ?_
    refine (eqOn_of_disjoint heq₂ (disjoint_record_left (hlb c hc b List.mem_cons_self))).trans ?_
    exact eqOn_of_disjoint heq₁ (disjoint_Ico (Or.inr (hstop c (List.mem_append_left _ hc))))
  · rw [next_set (by omega)]
    refine ⟨rfl, by omega, hdennew, ?_⟩
    rw [nextField.get_congr hnew (by decide), hm₁]
    exact next_putFree (by norm_num)

/-- A free block that ends the list. -/
theorem Spaced.concat (hsp : Spaced pos l) (hlimit : pos + sizeofSpaceNode ≤ limit) (size : ℕ) :
    Spaced limit (l ++ [⟨pos, size, true⟩]) := by
  refine spaced_append.mpr ⟨⟨hsp.pairwise, fun c hc => (hsp.stop_le c hc).trans (by omega)⟩, ?_, ?_⟩
  · exact ⟨List.pairwise_singleton _ _, fun c hc => by rw [List.mem_singleton.mp hc]; exact hlimit⟩
  · intro c hc d hd
    rw [List.mem_singleton.mp hd]
    exact hsp.stop_le c hc

/-- The rounds of the loop behind the first one: the list stays a list of free blocks. -/
theorem seg_initializeFreePages {pageSize start : ℕ} (n : ℕ) (junk : ℕ → UInt8)
    (hpage : sizeofSpaceNode < pageSize) (hsize : pageSize < 2 ^ 32) (hseg : Seg m p (l ++ [b]) 0)
    (hsp : Spaced start (l ++ [b])) (hfree : ∀ c ∈ l ++ [b], c.free = true)
    (hend : start + n * pageSize < 2 ^ 64) :
    ∃ bs, Seg (initializeFreePages pageSize junk n start b.addr m) p bs 0 ∧
      Spaced (start + n * pageSize) bs ∧ ∀ c ∈ bs, c.free = true := by
  induction n generalizing m l b start with
  | zero => exact ⟨_, hseg, by rwa [Nat.zero_mul], hfree⟩
  | succ n ih =>
    rw [Nat.succ_mul, Nat.add_comm (n * pageSize), ← Nat.add_assoc] at hend ⊢
    have hb : b.addr ≠ 0 := (seg_middle.mp hseg).2.1
    have hlink := hseg.link hsp (show pageSize - sizeofSpaceNode < 2 ^ 32 by omega) (by omega) junk
    have hsp' := hsp.concat (show start + sizeofSpaceNode ≤ start + pageSize by omega)
      (pageSize - sizeofSpaceNode)
    have hfree' : ∀ c ∈ l ++ [b] ++ [⟨start, pageSize - sizeofSpaceNode, true⟩], c.free = true := by
      intro c hc
      rcases List.mem_append.mp hc with hc | hc
      · exact hfree c hc
      · rw [List.mem_singleton.mp hc]
    rw [initializeFreePages, if_neg hb]
    exact ih hlink hsp' hfree' hend

/-- The shared pages start as a list of free blocks. -/
theorem regionInv_shared {base len : ℕ} (h : SharedInit m base len) :
    RegionInv base len ⟨m, []⟩ := by
  cases h with
  | pages m pageSize _ _ junk hstart hpage hsize hlen hend =>
    obtain ⟨n, hn⟩ : ∃ n, len / pageSize = n + 1 :=
      Nat.exists_eq_succ_of_ne_zero (Nat.div_pos hlen (by omega)).ne'
    have hroom : base + pageSize + n * pageSize ≤ base + len := by
      have hmul := Nat.div_mul_le_self len pageSize
      rw [hn, Nat.succ_mul] at hmul
      omega
    have hseg : Seg (putFree m base 0 0 (pageSize - sizeofSpaceNode) junk) base
        ([] ++ [⟨base, pageSize - sizeofSpaceNode, true⟩]) 0 :=
      ⟨rfl, hstart, denotes_putFree m 0 0 junk (by omega) (by omega), next_putFree (by norm_num)⟩
    have hsp : Spaced (base + pageSize) ([] ++ [⟨base, pageSize - sizeofSpaceNode, true⟩]) :=
      Spaced.concat ⟨List.Pairwise.nil, fun c hc => absurd hc List.not_mem_nil⟩ (by omega) _
    obtain ⟨bs, hbs, hspaced, hfree⟩ := seg_initializeFreePages n junk hpage hsize hseg hsp
      (fun c hc => by rw [List.mem_singleton.mp hc]) (by omega)
    refine ⟨bs, ?_, ⟨hspaced.pairwise, fun c hc => (hspaced.stop_le c hc).trans hroom⟩, ?_⟩
    · rw [hn, initializeFreePages, if_pos rfl]
      exact hbs
    · rw [usedData, List.filter_eq_nil_iff.mpr fun c hc => by simp [hfree c hc]]
      exact List.Perm.refl _

theorem SharedInit.end_lt {base len : ℕ} (h : SharedInit m base len) : base + len < 2 ^ 64 := by
  cases h with
  | pages m pageSize start len junk hstart hpage hsize hlen hend => exact hend

/-- **Shared memory.** In every run of allocations, frees and writes in the shared pages in which
the allocated blocks fit and the field `prev` of freed blocks is right where it is followed, the
data of the blocks in use lie in the shared pages, are pairwise disjoint and do not meet any record.
-/
theorem shared_disjointness {base len : ℕ} (hinit : SharedInit m base len) {s : Region}
    {es : List RegionEvent} (hok : RunOk (regionStep base len) (RegionAllowed base len) ⟨m, []⟩ es)
    (hrun : run (regionStep base len) ⟨m, []⟩ es = some s) :
    (∀ b ∈ s.live, base ≤ b.1 ∧ b.1 + b.2 ≤ base + len) ∧
      s.live.Pairwise (fun b c => b.1 + b.2 ≤ c.1 ∨ c.1 + c.2 ≤ b.1) ∧
      ∀ b ∈ s.live, ∀ n ∈ blockAddrs s.mem (len + 1) base,
        b.1 + b.2 ≤ n ∨ n + sizeofSpaceNode ≤ b.1 := by
  have h := run_invariant (fun _ _ _ hi hok hs => regionInv_step hinit.end_lt hi hok hs)
    (regionInv_shared hinit) hok hrun
  exact h.disjoint

/-- In four pages of 256 bytes, 50 bytes go to the first page and 190 to the second, since the rest
of the first one is too small. The first block is freed and its space is taken again. -/
def sharedRun : List RegionEvent :=
  [.alloc 50 fun _ => 0, .alloc 190 fun _ => 0, .write 4420 7, .free 4152, .alloc 40 fun _ => 0]

theorem shared_disjointness_recycle :
    ∃ s, run (regionStep 4096 1024) ⟨initializeFreePages 256 (fun _ => 0) 4 4096 0 fun _ => 0, []⟩
        sharedRun = some s ∧ s.live = [(4152, 40), (4408, 190)] ∧
      (∀ b ∈ s.live, 4096 ≤ b.1 ∧ b.1 + b.2 ≤ 4096 + 1024) ∧
      s.live.Pairwise (fun b c => b.1 + b.2 ≤ c.1 ∨ c.1 + c.2 ≤ b.1) ∧
      ∀ b ∈ s.live, ∀ n ∈ blockAddrs s.mem (1024 + 1) 4096,
        b.1 + b.2 ≤ n ∨ n + sizeofSpaceNode ≤ b.1 := by
  have hend : (run (regionStep 4096 1024)
      ⟨initializeFreePages 256 (fun _ => 0) 4 4096 0 fun _ => 0, []⟩ sharedRun).map Region.live =
      some [(4152, 40), (4408, 190)] := by decide +kernel
  obtain ⟨s, hrun, hlive⟩ := Option.map_eq_some_iff.mp hend
  refine ⟨s, hrun, hlive, ?_⟩
  exact shared_disjointness (.pages _ 256 4096 1024 _ (by decide) (by decide) (by decide)
    (by decide)
    (by norm_num)) (by decide +kernel) hrun

end OSDesign.VM
