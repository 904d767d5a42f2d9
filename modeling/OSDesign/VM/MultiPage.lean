import Mathlib.Algebra.Order.Floor.Div
import OSDesign.VM.FreePages

/-!
# Blocks that span pages

A process that owns one page and has allocated nothing asks for a block. As long as no page has a
block that is large enough, `getFreeElement` reserves another page and starts again. The block of a
page grows by the page reserved next, but no further: the page behind it is then a continuation, and
a page that is reserved behind a continuation gets a block of its own. So no block is ever larger
than two pages, and a first page that is marked as a continuation does not grow at all.

## Main definitions

* `Fits`: a block that is large enough turns up within a number of rounds.
* `Allocated`: the address of a block in the pages of the process.

## Main results

* `FreeProcess.getFreeElement_iff`: `getFreeElement` returns a block if and only if one turns up.
* `fits_iff`: when that is.
* `allocation_succeeds_iff`.
-/

namespace OSDesign.VM

open ByteMemory ListUpdate

namespace VMState

variable {s s' s₁ : VMState} {pid i size fuel : ℕ} {p : Bool × ℕ} {pages : List (Bool × ℕ)}

/-! ### Pages and their blocks -/

/-- The block of each page ends with the pages, and is not larger than two pages. -/
structure Bounded (pageSize : ℕ) (pages : List (Bool × ℕ)) : Prop where
  inside : ∀ i p, pages[i]? = some p → sizeofSpaceNode + p.2 ≤ (pages.length - i) * pageSize
  two : ∀ p ∈ pages, sizeofSpaceNode + p.2 ≤ 2 * pageSize

/-- A block of `size` bytes turns up before `rounds` searches are over. -/
def Fits (pageSize size : ℕ) : ℕ → List (Bool × ℕ) → List Bool → Prop
  | 0, _, _ => False
  | rounds + 1, pages, fs =>
    (∃ p ∈ pages, size ≤ p.2) ∨
      ∃ d fs', fs = d :: fs' ∧ Fits pageSize size rounds (grow pageSize pages d) fs'

/-- The address is that of a block of `size` bytes that lies in the pages of the process, which are
in place. -/
def Allocated (pid size ptr : ℕ) (s : VMState) : Prop :=
  ∃ n k, ptr = n + sizeofSpaceNode ∧ Denotes s.bytes ⟨n, size, false⟩ ∧ InPlace pid k s.frames ∧
    s.frameAddress 0 ≤ n ∧ ptr + size ≤ s.frameAddress k

/-! ### A block is taken -/

theorem frameAddress_add (s : VMState) {k : ℕ} (h : i ≤ k) :
    s.frameAddress i + (k - i) * s.pageSize = s.frameAddress k := by
  rw [frameAddress, frameAddress, Nat.add_assoc, ← Nat.add_mul, Nat.add_sub_cancel' h]

/-- The block of a page is taken. -/
theorem FreeProcess.cut (h : s.FreeProcess pid pages) (hb : Bounded s.pageSize pages)
    (hp : pages[i]? = some p) (hsize : size ≤ p.2) (junk : ℕ → UInt8) :
    ∃ ptr s', s.cut (s.frameAddress i) size junk = (ptr, s') ∧ ptr ≠ 0 ∧
      s'.Allocated pid size ptr := by
  have hi := (List.getElem?_eq_some_iff.mp hp).1
  have hend := s.frameAddress_add hi.le
  have hinside := hb.inside i p hp
  have hlimit : s.frameAddress pages.length < 2 ^ 64 := by
    have hlen := Nat.mul_le_mul_right s.pageSize h.owns.le_length
    have hin := h.room.inside
    have haddr := h.room.address
    rw [frameAddress]
    omega
  have hsp : Spaced (s.frameAddress pages.length) ([] ++ [⟨s.frameAddress i, p.2, true⟩]) := by
    refine ⟨List.pairwise_singleton _ _, fun b hb => ?_⟩
    obtain rfl := List.mem_singleton.mp hb
    rw [Block.stop, if_pos rfl, Block.start]
    dsimp only
    omega
  have hneeds : (⟨s.frameAddress i, p.2, true⟩ : Block).needs size ≤
      s.frameAddress pages.length := by
    rw [Block.needs, Block.start]
    split_ifs with hcut
    · have hcut : sizeofSpaceNode < p.2 - size := hcut
      dsimp only
      omega
    · dsimp only
      omega
  obtain ⟨m, hcreate, hstart, hseg, -⟩ := seg_createSpace junk (l := []) (h.pageAt i p hp).block hsp
    hlimit rfl hsize hneeds (fun c hc => absurd hc List.not_mem_nil)
  have hden : Denotes m ⟨s.frameAddress i, size, false⟩ := by
    rw [List.nil_append, List.append_nil, Block.cut] at hseg
    split_ifs at hseg
    · exact hseg.2.2.1
    · exact hseg.2.2.1
  refine ⟨s.frameAddress i + sizeofSpaceNode, { s with bytes := m }, ?_, ?_,
    s.frameAddress i, pages.length, rfl, hden, h.inPlace, ?_, ?_⟩
  · rw [VMState.cut, hcreate]
    exact congrArg (·, { s with bytes := m }) hstart
  · have := s.frameAddress_ne_zero i
    omega
  · have := s.frameAddress_add (Nat.zero_le i)
    exact this ▸ Nat.le_add_right ..
  · have : s.frameAddress i + sizeofSpaceNode + size ≤ s.frameAddress pages.length := by omega
    exact this

/-! ### Rounds -/

/-- The last block has grown, and there is a new page. -/
theorem Bounded.concat {pageSize : ℕ} {l : List (Bool × ℕ)} {q r : Bool × ℕ}
    (h : Bounded pageSize (l ++ [p])) (hq : sizeofSpaceNode + q.2 ≤ 2 * pageSize)
    (hr : sizeofSpaceNode + r.2 ≤ pageSize) : Bounded pageSize (l ++ [q] ++ [r]) := by
  have hlen : (l ++ [q] ++ [r]).length = l.length + 2 := by
    rw [List.length_append, List.length_append, List.length_singleton, List.length_singleton]
  refine ⟨fun i x hx => ?_, fun x hx => ?_⟩
  · rcases Nat.lt_trichotomy i l.length with hi | rfl | hi
    · rw [List.append_assoc, List.getElem?_append_left hi] at hx
      have hin := h.inside i x ((List.getElem?_append_left hi).trans hx)
      refine hin.trans (Nat.mul_le_mul_right pageSize ?_)
      rw [hlen, List.length_append, List.length_singleton]
      omega
    · rw [List.append_assoc, List.getElem?_append_right le_rfl, Nat.sub_self] at hx
      obtain rfl := Option.some.inj hx
      rwa [hlen, Nat.add_sub_cancel_left]
    · have hlt := (List.getElem?_eq_some_iff.mp hx).1
      obtain rfl : i = (l ++ [q]).length := by
        rw [List.length_append, List.length_singleton]
        omega
      rw [List.getElem?_concat_length, Option.some.injEq] at hx
      subst hx
      rw [hlen, List.length_append, List.length_singleton, Nat.add_sub_add_left, Nat.one_mul]
      exact hr
  · rw [List.append_assoc, List.mem_append, List.cons_append, List.nil_append, List.mem_pair] at hx
    rcases hx with hx | rfl | rfl
    · exact h.two x (List.mem_append_left _ hx)
    · exact hq
    · omega

theorem Bounded.grow {pageSize : ℕ} {l : List (Bool × ℕ)} (h : Bounded pageSize (l ++ [p]))
    (hlarge : sizeofSpaceNode < pageSize) (d : Bool) :
    Bounded pageSize (grow pageSize (l ++ [p]) d) := by
  have hlast := h.inside l.length p List.getElem?_concat_length
  rw [List.length_append, List.length_singleton, Nat.add_sub_cancel_left, Nat.one_mul] at hlast
  obtain ⟨_ | _, z⟩ := p
  · rw [grow_concat_false]
    refine h.concat ?_ ?_ <;> dsimp only at hlast ⊢ <;> omega
  · rw [grow_concat_true]
    refine h.concat ?_ ?_ <;> dsimp only at hlast ⊢ <;> omega

theorem grow_ne_nil (pageSize : ℕ) (pages : List (Bool × ℕ)) (d : Bool) :
    grow pageSize pages d ≠ [] := by
  rw [grow]
  split <;> exact List.append_ne_nil_of_right_ne_nil _ (List.cons_ne_nil _ _)

/-- **Rounds.** `getFreeElement` returns a block if and only if one turns up. -/
theorem FreeProcess.getFreeElement_iff {rounds : ℕ} {fs : List Bool}
    (hload : s.loadProcessPages pid = some s₁) (h : s₁.FreeProcess pid pages) (hne : pages ≠ [])
    (hb : Bounded s₁.pageSize pages) (hflags : freeFlags s₁.frames = fs)
    (hrounds : rounds ≤ fs.length) (hfuel : 2 ≤ fuel) (junk : ℕ → ℕ → UInt8) :
    (∃ ptr s', s.getFreeElement pid size fuel junk rounds = some (ptr, s') ∧ ptr ≠ 0 ∧
      s'.Allocated pid size ptr) ↔ Fits s₁.pageSize size rounds pages fs := by
  induction rounds generalizing s s₁ pages fs with
  | zero =>
    refine ⟨fun ⟨ptr, s', hs', _⟩ => ?_, fun hfit => hfit.elim⟩
    cases hs'
  | succ rounds ih =>
    obtain ⟨n, s₂, hsearch, hsize₂, h₂, hflags₂, hfound⟩ :=
      FreeProcess.search hload h hne size hfuel
    rw [← hsize₂] at hb
    rw [Fits, getFreeElement, hsearch, Option.bind_some]
    dsimp only
    rcases hfound with ⟨rfl, hsmall⟩ | ⟨i, p, -, hp, hle, rfl⟩
    · rw [if_pos rfl]
      obtain ⟨l, p, rfl⟩ := (List.eq_nil_or_concat' pages).resolve_left hne
      obtain ⟨d, fs', rfl⟩ : ∃ d fs', fs = d :: fs' :=
        List.exists_cons_of_length_pos (Nat.zero_lt_of_lt hrounds)
      have hnone : ¬ ∃ q ∈ l ++ [p], size ≤ q.2 := by
        rintro ⟨q, hq, hle⟩
        obtain ⟨i, hi⟩ := List.mem_iff_getElem?.mp hq
        exact absurd (hsmall i q (Nat.zero_le i) hi) (Nat.not_lt.mpr hle)
      have hlast : p.2 + s₂.pageSize < 2 ^ 32 := by
        have hle := h₂.room.pageSize_le
          (h₂.pageAt l.length p List.getElem?_concat_length).lt_length
        have hp := hb.two p List.mem_concat_self
        have hphys : 3 * physicalSize < 2 ^ 32 := by decide
        omega
      obtain ⟨s₃, hreserve, hsize₃, h₃, hflags₃⟩ := h₂.reserve (hflags₂.trans hflags)
        (fun _ => hlast) (Nat.le_of_lt hfuel) (junk rounds)
      obtain ⟨s₄, hload₄, hclock⟩ := h₃.load (grow_ne_nil _ _ _)
      have hsize₄ : s₄.pageSize = s₂.pageSize := by
        rw [hclock.2]
        exact hsize₃
      have hb₄ := hb.grow h₂.room.layout.large d
      rw [← hsize₄] at hb₄
      have hiff := ih hload₄ (hsize₄ ▸ h₃.clockEq hclock) (grow_ne_nil _ _ _) hb₄
        ((freeFlags_clockEq hclock).trans hflags₃) (Nat.le_of_succ_le_succ hrounds)
      rw [hreserve, Option.bind_some]
      dsimp only
      rw [if_pos rfl, hiff, hsize₄, hsize₂]
      refine ⟨fun hfit => Or.inr ⟨d, fs', rfl, hfit⟩, fun hfit => ?_⟩
      obtain ⟨d', fs'', heq, hfit⟩ := hfit.resolve_left hnone
      obtain ⟨rfl, rfl⟩ := List.cons.inj heq
      exact hfit
    · rw [if_neg (s₂.frameAddress_ne_zero i)]
      obtain ⟨ptr, s', hcut, hptr, halloc⟩ := h₂.cut hb hp hle (junk rounds)
      refine ⟨fun _ => Or.inl ⟨p, List.mem_of_getElem? hp, hle⟩,
        fun _ => ⟨ptr, s', ?_, hptr, halloc⟩⟩
      rw [hcut]

/-! ### When a block turns up -/

section Fits

variable {pageSize rounds : ℕ} {fs : List Bool}

/-- No block is larger than two pages. -/
theorem Fits.size_le (h : Fits pageSize size rounds pages fs) (hb : Bounded pageSize pages)
    (hne : pages ≠ []) (hlarge : sizeofSpaceNode < pageSize) :
    size ≤ 2 * pageSize - sizeofSpaceNode := by
  induction rounds generalizing pages fs with
  | zero => exact h.elim
  | succ rounds ih =>
    rcases h with ⟨p, hp, hle⟩ | ⟨d, fs', -, h⟩
    · have := hb.two p hp
      omega
    · obtain ⟨l, p, rfl⟩ := (List.eq_nil_or_concat' pages).resolve_left hne
      exact ih h (hb.grow hlarge d) (grow_ne_nil _ _ _)

/-- Behind a continuation a page gets a block of its own. While only continuations are added, no
block grows. -/
theorem not_fits_of_flags (hlast : rounds ≤ 1 ∨ ∃ l z, pages = l ++ [(true, z)])
    (hsmall : ∀ p ∈ pages, p.2 < size) (hpage : pageSize - sizeofSpaceNode < size)
    (hflags : ∀ d ∈ fs.take (rounds - 2), d = true) : ¬ Fits pageSize size rounds pages fs := by
  induction rounds generalizing pages fs with
  | zero => exact id
  | succ rounds ih =>
    rintro (⟨p, hp, hle⟩ | ⟨d, fs', rfl, h⟩)
    · exact absurd (hsmall p hp) (Nat.not_lt.mpr hle)
    · cases rounds with
      | zero => exact h
      | succ rounds =>
        obtain ⟨l, z, rfl⟩ := hlast.resolve_left (by omega)
        rw [grow_concat_true] at h
        refine ih ?_ (fun p hp => ?_) (fun d' hd' => ?_) h
        · cases rounds with
          | zero => exact Or.inl le_rfl
          | succ rounds =>
            have hd : d = true := hflags d List.mem_cons_self
            exact Or.inr ⟨_, _, by rw [hd]⟩
        · rcases List.mem_append.mp hp with hp | hp
          · exact hsmall p hp
          · obtain rfl := List.mem_singleton.mp hp
            exact hpage
        · cases rounds with
          | zero => cases hd'
          | succ rounds => exact hflags d' (List.mem_cons_of_mem d hd')

theorem bounded_singleton (d : Bool) (hlarge : sizeofSpaceNode < pageSize) :
    Bounded pageSize [(d, pageSize - sizeofSpaceNode)] := by
  refine ⟨fun i p hp => ?_, fun p hp => ?_⟩
  · cases i with
    | zero =>
      obtain rfl := Option.some.inj hp
      rw [List.length_singleton, Nat.sub_zero, Nat.one_mul]
      exact (Nat.add_sub_cancel' hlarge.le).le
    | succ i => cases hp
  · obtain rfl := List.mem_singleton.mp hp
    dsimp only
    omega

/-- The block of the last page grows. -/
theorem fits_of_last_false {l : List (Bool × ℕ)} {z : ℕ} {d : Bool} (h : size ≤ z + pageSize) :
    Fits pageSize size (rounds + 2) (l ++ [(false, z)]) (d :: fs) := by
  refine Or.inr ⟨d, fs, rfl, Or.inl ⟨(false, z + pageSize), ?_, h⟩⟩
  rw [grow_concat_false]
  exact List.mem_append_left _ List.mem_concat_self

/-- The next page starts a block. -/
theorem fits_of_last_true {l : List (Bool × ℕ)} {z : ℕ} {d : Bool}
    (h : Fits pageSize size rounds (l ++ [(true, z)] ++ [(d, pageSize - sizeofSpaceNode)]) fs) :
    Fits pageSize size (rounds + 1) (l ++ [(true, z)]) (d :: fs) :=
  Or.inr ⟨d, fs, rfl, by rwa [grow_concat_true]⟩

/-- A process with one page gets a block that fits in the page, or one that fits in two pages if a
block can grow soon enough: that of the first page, or that of one of the next two. -/
theorem fits_iff {d f₂ f₃ : Bool} (hlarge : sizeofSpaceNode < pageSize)
    (hfs : size ⌈/⌉ pageSize ≤ fs.length) :
    Fits pageSize size (size ⌈/⌉ pageSize + 2) [(d, pageSize - sizeofSpaceNode)] (f₂ :: f₃ :: fs) ↔
      size ≤ pageSize - sizeofSpaceNode ∨ size ≤ 2 * pageSize - sizeofSpaceNode ∧
        (d = false ∨ f₂ = false ∨ pageSize < size ∧ f₃ = false) := by
  have hceil (k : ℕ) : size ⌈/⌉ pageSize ≤ k ↔ size ≤ pageSize * k :=
    ceilDiv_le_iff_le_mul (Nat.zero_lt_of_lt hlarge)
  generalize size ⌈/⌉ pageSize = c at hceil hfs ⊢
  by_cases hone : size ≤ pageSize - sizeofSpaceNode
  · exact ⟨fun _ => Or.inl hone, fun _ => Or.inl ⟨_, List.mem_singleton_self _, hone⟩⟩
  have hc₁ := hceil 0
  have hc₂ := hceil 1
  have hc₃ := hceil 2
  constructor
  · intro h
    have htwo := h.size_le (bounded_singleton d hlarge) (List.cons_ne_nil _ _) hlarge
    refine Or.inr ⟨htwo, ?_⟩
    by_contra hno
    obtain ⟨hd, hf₂, hf₃⟩ : d = true ∧ f₂ = true ∧ (pageSize < size → f₃ = true) := by
      simpa using hno
    refine not_fits_of_flags (Or.inr ⟨[], _, by rw [hd]; rfl⟩) (fun p hp => ?_) (by omega)
      (fun x hx => ?_) h
    · obtain rfl := List.mem_singleton.mp hp
      dsimp only
      omega
    · -- at most two further pages count, and the second only if the block does not fit in a page
      rw [Nat.add_sub_cancel] at hx
      obtain rfl | rfl | rfl : c = 0 ∨ c = 1 ∨ c = 2 := by omega
      · cases hx
      · exact (List.mem_singleton.mp hx).trans hf₂
      · rcases List.mem_pair.mp hx with rfl | rfl
        · exact hf₂
        · exact hf₃ (by omega)
  · rintro (hle | ⟨htwo, hgrow⟩)
    · exact absurd hle hone
    have hsize : size ≤ pageSize - sizeofSpaceNode + pageSize := by omega
    obtain ⟨c, rfl⟩ : ∃ c', c = c' + 1 := Nat.exists_eq_add_one_of_ne_zero (by omega)
    cases d with
    | false => exact fits_of_last_false (l := []) hsize
    | true =>
      refine fits_of_last_true (l := []) ?_
      cases f₂ with
      | false => exact fits_of_last_false hsize
      | true =>
        obtain ⟨hlt, rfl⟩ : pageSize < size ∧ f₃ = false := by simpa using hgrow
        obtain ⟨c, rfl⟩ : ∃ c', c = c' + 1 := Nat.exists_eq_add_one_of_ne_zero (by omega)
        obtain ⟨f₄, fs, rfl⟩ := List.exists_cons_of_length_pos (Nat.zero_lt_of_lt hfs)
        exact fits_of_last_true (fits_of_last_false hsize)

end Fits

/-! ### The first page -/

theorem length_freeFlags (t : PageTable) : (freeFlags t).length = t.countP (·.free) := by
  rw [freeFlags, List.length_filterMap_eq_countP]
  refine List.countP_congr fun n _ => ?_
  rw [SpaceNode.spare]
  cases n.free <;> simp

/-- An exchange keeps the number of free frames. -/
theorem length_freeFlags_swapPages (i j : ℕ) (t : PageTable) :
    (freeFlags (VM.swapPages i j t)).length = t.countP (·.free) := by
  have hinfo (l : PageTable) : l.countP (·.free) = (l.map SpaceNode.info).countP (·.2.2.1) := by
    rw [List.countP_map]
    rfl
  rw [length_freeFlags, hinfo, hinfo, (perm_swapPages i j t).countP_eq]

/-- The page of the process is brought to the first frame. -/
theorem PageAt.load {f : ℕ} (h : s.PageAt f pid 1 p) (hroom : s.Room)
    (howns : Owns pid 1 s.frames) :
    ∃ s₁, s.loadProcessPages pid = some s₁ ∧ s₁.FreeProcess pid [p] ∧ s₁.pageSize = s.pageSize ∧
      freeFlags s₁.frames = freeFlags (VM.swapPages 0 f s.frames) := by
  obtain ⟨s₀, hs₀⟩ := hroom.layout.exists_swapPages (Nat.zero_lt_of_lt h.lt_length) h.lt_length
  have hat := h.swapPages hroom hs₀
  rw [Equiv.swap_apply_right] at hat
  obtain ⟨s₁, hs₁, hclock⟩ := load_settled hroom.layout howns le_rfl h.holds hs₀
    (fun i hi => absurd hi (Nat.not_lt_zero i)) hat.holds (if_pos rfl)
  have h₀ : s₀.FreeProcess pid [p] := by
    refine ⟨hroom.swapPages hs₀, owns_swapPages howns hs₀, fun i q hq => ?_⟩
    cases i with
    | zero =>
      obtain rfl := Option.some.inj hq
      exact hat
    | succ i => cases hq
  refine ⟨s₁, hs₁, h₀.clockEq hclock, ?_, ?_⟩
  · rw [hclock.2, VMState.withFrames, pageSize_swapPages hs₀]
  · rw [freeFlags_clockEq hclock, frames_swapPages hs₀]

/-- The rounds of `getFreeElement` for a process with one page. -/
theorem PageAt.getFreeElement_iff {f rounds : ℕ} {d : Bool}
    (h : s.PageAt f pid 1 (d, s.pageSize - sizeofSpaceNode)) (hroom : s.Room)
    (howns : Owns pid 1 s.frames) (hrounds : rounds ≤ s.frames.countP (·.free)) (hfuel : 2 ≤ fuel)
    (junk : ℕ → ℕ → UInt8) :
    (∃ ptr s', s.getFreeElement pid size fuel junk rounds = some (ptr, s') ∧ ptr ≠ 0 ∧
      s'.Allocated pid size ptr) ↔
      Fits s.pageSize size rounds [(d, s.pageSize - sizeofSpaceNode)]
        (freeFlags (VM.swapPages 0 f s.frames)) := by
  obtain ⟨s₁, hload, h₁, hsize, hflags⟩ := h.load hroom howns
  rw [← hsize] at h₁ ⊢
  refine h₁.getFreeElement_iff hload (List.cons_ne_nil _ _) (bounded_singleton d ?_) hflags ?_ hfuel
    junk
  · exact h₁.room.layout.large
  · rwa [length_freeFlags_swapPages]

/-- **Allocations over several pages.** A process that owns one page, which is one free block, asks
for `size` bytes, and there are at least `⌈size / pageSize⌉ + 2` free frames. It gets a block of
`size` bytes in its pages, with at most `⌈size / pageSize⌉ + 1` pages reserved, if and only if

* the block fits in the page, or
* it fits in two pages, and the page is not marked as the continuation of another one, or the first
  of the free frames is not, or the second is not and the block does not fit in `pageSize` bytes.

The free frames are those after the page has been exchanged with the first frame, in the order of
the table. -/
theorem allocation_succeeds_iff {f : ℕ} {d : Bool} (hroom : s.Room) (howns : Owns pid 1 s.frames)
    (hpage : s.PageAt f pid 1 (d, s.pageSize - sizeofSpaceNode))
    (hfree : size ⌈/⌉ s.pageSize + 2 ≤ s.frames.countP (·.free)) (hfuel : 2 ≤ fuel)
    (junk : ℕ → ℕ → UInt8) :
    (∃ ptr s', s.getFreeElement pid size fuel junk (size ⌈/⌉ s.pageSize + 2) = some (ptr, s') ∧
      ptr ≠ 0 ∧ s'.Allocated pid size ptr) ↔
      size ≤ s.pageSize - sizeofSpaceNode ∨ size ≤ 2 * s.pageSize - sizeofSpaceNode ∧
        (d = false ∨ (freeFlags (VM.swapPages 0 f s.frames))[0]? = some false ∨
          s.pageSize < size ∧ (freeFlags (VM.swapPages 0 f s.frames))[1]? = some false) := by
  rw [hpage.getFreeElement_iff hroom howns hfree hfuel junk]
  have hlen := length_freeFlags_swapPages 0 f s.frames
  match hflags : freeFlags (VM.swapPages 0 f s.frames) with
  | [] =>
    rw [hflags, List.length_nil] at hlen
    omega
  | [_] =>
    rw [hflags, List.length_singleton] at hlen
    omega
  | f₂ :: f₃ :: fs =>
    rw [hflags, List.length_cons, List.length_cons] at hlen
    rw [fits_iff hroom.layout.large (by omega), List.getElem?_cons_zero, List.getElem?_cons_succ,
      List.getElem?_cons_zero, Option.some.injEq, Option.some.injEq]

/-- Seven frames. The first one belongs to process 3, the second one to process 2, whose page is one
free block, and the others are free. -/
def sevenFrames : VMState :=
  { smallState [(3, 1), (2, 1), (0, 1), (0, 1), (0, 1), (0, 1), (0, 1)] [] with
    bytes := initializeSpace (fun _ => 0) (memoryStart + 4096) 4096 fun _ => 0 }

theorem room_sevenFrames : sevenFrames.Room where
  layout := (layout_smallState _ _).of_maps rfl rfl
  inside := by decide
  address := by decide

theorem pageAt_sevenFrames : sevenFrames.PageAt 1 2 1 (false, 4096 - sizeofSpaceNode) := by
  have haddr : sevenFrames.frameAddress 1 = memoryStart + 4096 := by
    rw [frameAddress, sevenFrames, smallState, Nat.zero_add, Nat.one_mul]
  refine ⟨rfl, ?_, by decide⟩
  rw [haddr]
  exact seg_initializeSpace _ _ (by decide) (by decide) (by decide)

/-- A block of 5000 bytes takes two pages. -/
theorem allocation_succeeds_two_pages :
    ∃ ptr s', sevenFrames.getFreeElement 2 5000 2 (fun _ _ => 0) 4 = some (ptr, s') ∧ ptr ≠ 0 ∧
      s'.Allocated 2 5000 ptr :=
  (allocation_succeeds_iff room_sevenFrames (by decide) pageAt_sevenFrames (by decide) le_rfl
    fun _ _ => 0).mpr (Or.inr ⟨by decide, Or.inl rfl⟩)

/-- A block of 9000 bytes takes three pages. The process does not get it although five frames are
free. -/
theorem third_page_does_not_help :
    sevenFrames.Room ∧ Owns 2 1 sevenFrames.frames ∧
      sevenFrames.PageAt 1 2 1 (false, 4096 - sizeofSpaceNode) ∧
      9000 ⌈/⌉ 4096 + 2 ≤ sevenFrames.frames.countP (·.free) ∧
      ∀ fuel ≥ 2, ¬ ∃ ptr s', sevenFrames.getFreeElement 2 9000 fuel (fun _ _ => 0)
        (9000 ⌈/⌉ 4096 + 2) = some (ptr, s') ∧ ptr ≠ 0 ∧ s'.Allocated 2 9000 ptr := by
  have howns : Owns 2 1 sevenFrames.frames := by decide
  have hfree : 9000 ⌈/⌉ 4096 + 2 ≤ sevenFrames.frames.countP (·.free) := by decide
  refine ⟨room_sevenFrames, howns, pageAt_sevenFrames, hfree, fun fuel hfuel h => ?_⟩
  have hfit := (pageAt_sevenFrames.getFreeElement_iff room_sevenFrames howns hfree hfuel _).mp h
  have hlarge := room_sevenFrames.layout.large
  have hsize := hfit.size_le (bounded_singleton false hlarge) (List.cons_ne_nil _ _) hlarge
  exact absurd hsize (by decide)

end VMState

end OSDesign.VM
