import OSDesign.VM.FreePages
import OSDesign.VM.Loading
import OSDesign.VM.SameBlocks

/-!
# States with the same records

Two states of the memory with the same descriptors are alike if they agree on all records: on those
of the operating system, of the shared pages and of the pages in use, and in the free frames on what
`restorePointers` would take for records (`VMState.Alike`). Pages that are exchanged, loaded and
given out leave the states alike, as long as the list of every page that is moved is the one found
by the sizes of its blocks, and as long as no frame is used that overlaps the shared pages.

What is known about the list of each page is a parameter of the relation, and moves with the page.

## Main definitions

* `VMState.Tiled`, `VMState.AllTiled`, `VMState.lowFrames`, `UsedBefore`.
* `VMState.Sound`, `VMState.Alike`.

## Main results

* `VMState.Alike.swapPages`, `VMState.Alike.loadProcessPages`, `VMState.Alike.getFreePage`.
-/

namespace OSDesign.VM

open ByteMemory

/-! ### Frames in use -/

/-- The frames in use are among the first `M`. -/
def UsedBefore (M : ℕ) (t : PageTable) : Prop := ∀ n ∈ t.drop M, n.free = true

instance (M : ℕ) (t : PageTable) : Decidable (UsedBefore M t) :=
  inferInstanceAs (Decidable (∀ n ∈ t.drop M, n.free = true))

theorem usedBefore_iff {M : ℕ} {t : PageTable} :
    UsedBefore M t ↔ ∀ f n, t[f]? = some n → n.free = false → f < M := by
  constructor
  · intro h f n hn hused
    by_contra hle
    have hmem : n ∈ t.drop M := by
      refine List.mem_iff_getElem?.mpr ⟨f - M, ?_⟩
      rw [List.getElem?_drop, Nat.add_sub_cancel' (Nat.not_lt.mp hle), hn]
    rw [h n hmem] at hused
    cases hused
  · intro h n hn
    obtain ⟨k, hk⟩ := List.mem_iff_getElem?.mp hn
    rw [List.getElem?_drop] at hk
    by_contra hused
    have := h (M + k) n hk (by simpa using hused)
    omega

/-- There is a free frame among the first `M + 1` ones. -/
theorem UsedBefore.findFreePage {M : ℕ} {t : PageTable} (h : UsedBefore M t) (hM : M < t.length) :
    ∃ n q, findFreePage t = some n ∧ n ≤ M ∧ t[n]? = some q ∧ q.free = true ∧
      ∀ a < n, ∀ p, t[a]? = some p → p.free = false := by
  have hget := List.getElem?_eq_getElem hM
  have hfree : t[M].free = true := by
    by_contra hused
    exact absurd (usedBefore_iff.mp h M _ hget (by simpa using hused)) (lt_irrefl M)
  cases hfind : VM.findFreePage t with
  | none =>
    have := findFreePage_eq_none hfind _ (List.getElem_mem hM)
    rw [hfree] at this
    cases this
  | some n =>
    obtain ⟨hlt, hn, hbefore⟩ := List.findIdx?_eq_some_iff_getElem.mp hfind
    refine ⟨n, t[n], rfl, ?_, List.getElem?_eq_getElem hlt, hn, fun a ha p hp => ?_⟩
    · by_contra hle
      exact hbefore M (Nat.not_le.mp hle) hfree
    · obtain ⟨hla, rfl⟩ := List.getElem?_eq_some_iff.mp hp
      simpa using hbefore a ha

/-- The descriptor of a frame before the frame `f` is changed. -/
theorem exists_of_modify {f g : ℕ} {t : PageTable} {n : SpaceNode} {F : SpaceNode → SpaceNode}
    (hn : (t.modify f F)[g]? = some n) :
    ∃ n₀, t[g]? = some n₀ ∧ (g ≠ f → n = n₀) ∧ (g = f → n = F n₀) := by
  rw [List.getElem?_modify] at hn
  obtain ⟨n₀, hn₀, heq⟩ := Option.map_eq_some_iff.mp hn
  refine ⟨n₀, hn₀, fun hne => ?_, fun heq' => ?_⟩
  · rw [if_neg hne.symm] at heq
    exact heq.symm
  · rw [if_pos heq'.symm] at heq
    exact heq.symm

/-- Where the descriptor of a frame was before an exchange. -/
theorem exists_info_of_swapPages {i j f : ℕ} {t : PageTable} {n : SpaceNode} (hi : i < t.length)
    (hj : j < t.length) (hn : (swapPages i j t)[f]? = some n) :
    ∃ n₀, t[Equiv.swap i j f]? = some n₀ ∧ n₀.info = n.info := by
  have hmap := map_swapPages (g := SpaceNode.info) (fun _ _ => rfl) hi hj f
  rw [hn, ← Equiv.swap_apply_def, Option.map_some] at hmap
  exact Option.map_eq_some_iff.mp hmap.symm

/-- A descriptor without its clock and its reference bit. -/
def SpaceNode.settle (n : SpaceNode) : SpaceNode := { n with swapclock := 0, reference := 0 }

/-- The two tables differ in clocks and reference bits only. -/
def SameFrames (t t' : PageTable) : Prop := t'.map SpaceNode.settle = t.map SpaceNode.settle

namespace SameFrames

variable {t t' : PageTable}

theorem trans {t'' : PageTable} (h : SameFrames t t') (h' : SameFrames t' t'') : SameFrames t t'' :=
  Eq.trans h' h

theorem length_eq (h : SameFrames t t') : t'.length = t.length := by
  have hlen := congrArg List.length h
  rwa [List.length_map, List.length_map] at hlen

/-- The descriptor of a frame before the change. -/
theorem exists_node {f : ℕ} {n : SpaceNode} (h : SameFrames t t') (hn : t'[f]? = some n) :
    ∃ n₀, t[f]? = some n₀ ∧ n₀.free = n.free ∧ n₀.pid = n.pid ∧ n₀.order = n.order ∧
      n₀.dataStartsAnotherPage = n.dataStartsAnotherPage := by
  have hmap : (t.map SpaceNode.settle)[f]? = some n.settle := by
    rw [← h, List.getElem?_map, hn, Option.map_some]
  rw [List.getElem?_map] at hmap
  obtain ⟨n₀, hn₀, heq⟩ := Option.map_eq_some_iff.mp hmap
  obtain ⟨hpid, -, hfree, horder, -, -, -, -, hflag, -⟩ := SpaceNode.mk.inj heq
  exact ⟨n₀, hn₀, hfree, hpid, horder, hflag⟩

theorem map_eq {β : Type*} {g : SpaceNode → β} (h : SameFrames t t')
    (hg : ∀ n : SpaceNode, g n.settle = g n) : t'.map g = t.map g := by
  have hmap (l : PageTable) : l.map g = (l.map SpaceNode.settle).map g := by
    rw [List.map_map]
    exact List.map_congr_left fun n _ => (hg n).symm
  rw [hmap t', hmap t, h]

end SameFrames

theorem ClocksOnly.sameFrames {t t' : PageTable} (h : ClocksOnly t t') : SameFrames t t' :=
  h.map_eq fun _ => rfl

theorem sameFrames_setReference (t : PageTable) : SameFrames t (setReference t) := by
  refine ListUpdate.map_modify_eq SpaceNode.settle (fun n => ?_) t 0
  rfl

theorem sameFrames_virtualMemory (pid : ℕ) (t : PageTable) (prot : ℕ → Bool) :
    SameFrames t (virtualMemory pid t prot).1 :=
  map_virtualMemory _ (fun _ => rfl) (fun _ => rfl) pid t prot

theorem exists_free {f : ℕ} {t t' : PageTable} {n : SpaceNode}
    (h : t'.map SpaceNode.free = t.map SpaceNode.free) (hn : t'[f]? = some n) :
    ∃ n₀, t[f]? = some n₀ ∧ n₀.free = n.free := by
  have hmap : (t.map SpaceNode.free)[f]? = some n.free := by
    rw [← h, List.getElem?_map, hn, Option.map_some]
  rw [List.getElem?_map] at hmap
  exact Option.map_eq_some_iff.mp hmap

theorem SpaceNode.pid_of_info {n n' : SpaceNode} (h : n.info = n'.info) : n.pid = n'.pid :=
  congrArg (·.1) h

theorem SpaceNode.order_of_info {n n' : SpaceNode} (h : n.info = n'.info) : n.order = n'.order :=
  congrArg (·.2.1) h

theorem SpaceNode.free_of_info {n n' : SpaceNode} (h : n.info = n'.info) : n.free = n'.free :=
  congrArg (·.2.2.1) h

namespace VMState

/-- The list of the page in the frame `f` is the one found by the sizes of its blocks. -/
def Tiled (s : VMState) (f : ℕ) : Prop :=
  Threaded s.bytes (s.frameAddress f) 0 (visited (s.page f) s.pageSize)

instance (s : VMState) (f : ℕ) : Decidable (s.Tiled f) :=
  inferInstanceAs (Decidable (Threaded _ _ _ _))

/-- This is so for all pages in use. -/
def AllTiled (s : VMState) : Prop :=
  ∀ x ∈ s.frames.zipIdx.filter (fun x => !x.1.free), s.Tiled x.2

instance (s : VMState) : Decidable s.AllTiled :=
  inferInstanceAs (Decidable (∀ x ∈ s.frames.zipIdx.filter (fun x => !x.1.free), s.Tiled x.2))

theorem allTiled_iff {s : VMState} :
    s.AllTiled ↔ ∀ f n, s.frames[f]? = some n → n.free = false → s.Tiled f := by
  constructor
  · intro h f n hn hused
    refine h (n, f) (List.mem_filter.mpr ⟨List.mk_mem_zipIdx_iff_getElem?.mpr hn, ?_⟩)
    rw [hused]; rfl
  · rintro h ⟨n, f⟩ hx
    obtain ⟨hx, hused⟩ := List.mem_filter.mp hx
    exact h f n (List.mk_mem_zipIdx_iff_getElem?.mp hx) (by simpa using hused)

/-- The number of frames that end in front of the shared pages. -/
def lowFrames (s : VMState) : ℕ :=
  min ((sharedMemoryStart s.pageSize - memoryStart) / s.pageSize) s.frames.length

/-- The bytes of a frame. -/
def frameBytes (s : VMState) (f : ℕ) : Set ℕ :=
  Set.Ico (s.frameAddress f) (s.frameAddress f + s.pageSize)

/-- The bytes of the memory of the operating system. -/
def osBytes (s : VMState) : Set ℕ := Set.Ico (s.base + osReservedStart) (s.base + memoryStart)

/-- The bytes of the shared pages. -/
def sharedBytes (s : VMState) : Set ℕ :=
  Set.Ico (s.base + sharedMemoryStart s.pageSize) (s.base + physicalSize)

/-- The frames lie in the memory, those that are free belong to nobody, no page continues a block of
another page, and no frame is in use that overlaps the shared pages. -/
structure Sound (s : VMState) : Prop where
  room : s.Room
  apart : memoryStart ≤ sharedMemoryStart s.pageSize
  unowned : ∀ n ∈ s.frames, n.free = true → n.pid = 0
  unflagged : ∀ n ∈ s.frames, n.dataStartsAnotherPage = false
  low : UsedBefore s.lowFrames s.frames

variable {s s' s₁ s₁' : VMState} {f g i j M : ℕ}

theorem lowFrames_eq {t : PageTable} {m : Memory} (hlen : t.length = s.frames.length) :
    lowFrames { s with frames := t, bytes := m } = s.lowFrames := by
  rw [lowFrames, lowFrames]
  exact congrArg (min _) hlen

theorem disjoint_frames (s : VMState) (hfg : f ≠ g) : Disjoint (s.frameBytes f) (s.frameBytes g) :=
  disjoint_Ico (s.frameAddress_apart hfg)

theorem disjoint_frame_os (s : VMState) (f : ℕ) : Disjoint (s.frameBytes f) s.osBytes := by
  refine disjoint_Ico (Or.inr ?_)
  rw [frameAddress]
  omega

namespace Sound

theorem frame_end (h : s.Sound) (hf : f < s.lowFrames) :
    s.frameAddress f + s.pageSize ≤ s.base + sharedMemoryStart s.pageSize := by
  have hle : (f + 1) * s.pageSize ≤ sharedMemoryStart s.pageSize - memoryStart :=
    Nat.mul_le_of_le_div _ _ _ (hf.trans_le (Nat.min_le_left ..))
  have := h.apart
  rw [Nat.succ_mul] at hle
  rw [frameAddress]
  omega

theorem disjoint_shared (h : s.Sound) (hf : f < s.lowFrames) :
    Disjoint (s.frameBytes f) s.sharedBytes :=
  disjoint_Ico (Or.inl (h.frame_end hf))

theorem disjoint_os_shared (h : s.Sound) : Disjoint s.osBytes s.sharedBytes :=
  disjoint_Ico (Or.inl (Nat.add_le_add_left h.apart _))

theorem used_low (h : s.Sound) {n : SpaceNode} (hn : s.frames[f]? = some n)
    (hused : n.free = false) : f < s.lowFrames :=
  usedBefore_iff.mp h.low f n hn hused

/-- The frames of a process are in use. -/
theorem used_of_pid (h : s.Sound) {pid : ℕ} (hpid : pid ≠ 0) (n : SpaceNode) (hn : n ∈ s.frames)
    (hp : n.pid = pid) : n.free = false := by
  by_contra hf
  exact hpid (hp.symm.trans (h.unowned n hn (by simpa using hf)))

theorem swapPages (h : s.Sound) (hi : i < s.lowFrames) (hj : j < s.lowFrames)
    (hs : s.swapPages i j = some s₁) : s₁.Sound := by
  have hroom := h.room.swapPages hs
  obtain ⟨m, rfl⟩ := swapPages_eq_some hs
  have hlow : lowFrames { s with frames := VM.swapPages i j s.frames, bytes := m } =
      s.lowFrames := lowFrames_eq (length_swapPages i j)
  refine ⟨hroom, h.apart, ?_, ?_, ?_⟩
  · exact forall_swapPages (P := fun n => n.free = true → n.pid = 0)
      (fun _ _ hq => hq) h.unowned i j
  · exact forall_swapPages (P := fun n => n.dataStartsAnotherPage = false) (fun _ _ hq => hq)
      h.unflagged i j
  · rw [hlow]
    refine usedBefore_iff.mpr fun f n hn hused => ?_
    have hlen : s.lowFrames ≤ s.frames.length := Nat.min_le_right ..
    obtain ⟨n₀, hn₀, hinfo⟩ := exists_info_of_swapPages (hi.trans_le hlen) (hj.trans_le hlen) hn
    have hlow₀ := h.used_low hn₀ ((SpaceNode.free_of_info hinfo).trans hused)
    by_cases hfi : f = i
    · exact hfi ▸ hi
    by_cases hfj : f = j
    · exact hfj ▸ hj
    rwa [Equiv.swap_apply_of_ne_of_ne hfi hfj] at hlow₀

/-- Clocks, orders and references may change. -/
theorem withFrames {t : PageTable} (h : s.Sound) (hlen : t.length = s.frames.length)
    (hlay : (s.withFrames t).Layout)
    (hnode : ∀ (f : ℕ) (n : SpaceNode), t[f]? = some n → ∃ n₀ : SpaceNode,
      s.frames[f]? = some n₀ ∧ n₀.free = n.free ∧ n₀.pid = n.pid ∧
        n₀.dataStartsAnotherPage = n.dataStartsAnotherPage) :
    (s.withFrames t).Sound := by
  have hmem {n : SpaceNode} (hn : n ∈ t) : ∃ n₀ ∈ s.frames, n₀.free = n.free ∧ n₀.pid = n.pid ∧
      n₀.dataStartsAnotherPage = n.dataStartsAnotherPage := by
    obtain ⟨f, hf⟩ := List.mem_iff_getElem?.mp hn
    obtain ⟨n₀, hn₀, hsame⟩ := hnode f n hf
    exact ⟨n₀, List.mem_iff_getElem?.mpr ⟨f, hn₀⟩, hsame⟩
  have hlow : (s.withFrames t).lowFrames = s.lowFrames := lowFrames_eq hlen
  refine ⟨h.room.of_layout hlay hlen, h.apart, fun n hn hfree => ?_, fun n hn => ?_, ?_⟩
  · obtain ⟨n₀, hn₀, hf, hp, -⟩ := hmem hn
    rw [← hp]
    exact h.unowned n₀ hn₀ (hf.trans hfree)
  · obtain ⟨n₀, hn₀, -, -, hflag⟩ := hmem hn
    rw [← hflag]
    exact h.unflagged n₀ hn₀
  · rw [hlow]
    refine usedBefore_iff.mpr fun f n hn hused => ?_
    obtain ⟨n₀, hn₀, hf, -⟩ := hnode f n hn
    exact h.used_low hn₀ (hf.trans hused)

/-- One descriptor changes, and bytes do. -/
theorem modify {F : SpaceNode → SpaceNode} {m : Memory} (h : s.Sound)
    (hlay : Layout { s with frames := s.frames.modify f F, bytes := m })
    (hnode : ∀ n, s.frames[f]? = some n → ((F n).free = true → (F n).pid = 0) ∧
      (F n).dataStartsAnotherPage = false ∧ ((F n).free = false → f < s.lowFrames)) :
    Sound { s with frames := s.frames.modify f F, bytes := m } := by
  have hlen : (s.frames.modify f F).length = s.frames.length := List.length_modify ..
  have hmem {n : SpaceNode} (hn : n ∈ s.frames.modify f F) :
      n ∈ s.frames ∨ ∃ n₀, s.frames[f]? = some n₀ ∧ n = F n₀ := by
    obtain ⟨g, hg⟩ := List.mem_iff_getElem?.mp hn
    obtain ⟨n₀, hn₀, hne, heq⟩ := exists_of_modify hg
    by_cases hgf : g = f
    · exact Or.inr ⟨n₀, hgf ▸ hn₀, heq hgf⟩
    · exact Or.inl (hne hgf ▸ List.mem_iff_getElem?.mpr ⟨g, hn₀⟩)
  refine ⟨h.room.of_layout hlay hlen, h.apart, fun n hn hfree => ?_, fun n hn => ?_, ?_⟩
  · rcases hmem hn with hn | ⟨n₀, hn₀, rfl⟩
    · exact h.unowned n hn hfree
    · exact (hnode n₀ hn₀).1 hfree
  · rcases hmem hn with hn | ⟨n₀, hn₀, rfl⟩
    · exact h.unflagged n hn
    · exact (hnode n₀ hn₀).2.1
  · rw [lowFrames_eq hlen]
    refine usedBefore_iff.mpr fun g n hn hused => ?_
    obtain ⟨n₀, hn₀, hne, heq⟩ := exists_of_modify hn
    by_cases hgf : g = f
    · subst hgf
      exact (hnode n₀ hn₀).2.2 (heq rfl ▸ hused)
    · exact h.used_low hn₀ (hne hgf ▸ hused)

end Sound

/-! ### The relation -/

/-- The states have the same descriptors and agree on the records. `Φ f pid order bs` is what is
known about the list `bs` of the page `order` of `pid` in the frame `f`, with places counted from
the start of the page. -/
structure Alike (Φ : ℕ → ℕ → ℤ → List Block → Prop) (s s' : VMState) : Prop where
  eq : s' = { s with bytes := s'.bytes }
  sound : s.Sound
  os : ∃ bs, SameBlocks s.bytes s'.bytes (s.base + osReservedStart) (s.base + memoryStart) bs
  shared : ∃ bs, SameBlocks s.bytes s'.bytes (s.base + sharedMemoryStart s.pageSize)
    (s.base + physicalSize) bs
  used : ∀ f n, s.frames[f]? = some n → n.free = false → ∃ bs,
    SameBlocks s.bytes s'.bytes (s.frameAddress f) (s.frameAddress f + s.pageSize)
      (bs.map (Block.shift (s.frameAddress f))) ∧ Φ f n.pid n.order bs
  spare : ∀ f n, s.frames[f]? = some n → n.free = true → f < s.lowFrames →
    SameVisited s.bytes s'.bytes (s.frameAddress f) s.pageSize

variable {Φ Ψ : ℕ → ℕ → ℤ → List Block → Prop}

/-- What is known about the lists may be weakened. -/
theorem Alike.mono (h : Alike Φ s s') (himp : ∀ f n bs, s.frames[f]? = some n → n.free = false →
    Φ f n.pid n.order bs → Ψ f n.pid n.order bs) : Alike Ψ s s' where
  eq := h.eq
  sound := h.sound
  os := h.os
  shared := h.shared
  used f n hn hused := by
    obtain ⟨bs, hbs, hΦ⟩ := h.used f n hn hused
    exact ⟨bs, hbs, himp f n bs hn hused hΦ⟩
  spare := h.spare

/-- What is known about the lists follows from the memory. -/
theorem Alike.of_lists (h : Alike Φ s s') (hΨ : ∀ f n bs, s.frames[f]? = some n → n.free = false →
    Seg s.bytes (s.frameAddress f) (bs.map (Block.shift (s.frameAddress f))) 0 →
    Spaced (s.frameAddress f + s.pageSize) (bs.map (Block.shift (s.frameAddress f))) →
    Ψ f n.pid n.order bs) : Alike Ψ s s' where
  eq := h.eq
  sound := h.sound
  os := h.os
  shared := h.shared
  used f n hn hused := by
    obtain ⟨bs, hbs, -⟩ := h.used f n hn hused
    exact ⟨bs, hbs, hΨ f n bs hn hused hbs.seg hbs.spaced⟩
  spare := h.spare

/-- Descriptors that say the same about the frames may change. -/
theorem Alike.withFrames {t : PageTable} (h : Alike Φ s s') (hlen : t.length = s.frames.length)
    (hlay : (s.withFrames t).Layout)
    (hnode : ∀ (f : ℕ) (n : SpaceNode), t[f]? = some n → ∃ n₀ : SpaceNode,
      s.frames[f]? = some n₀ ∧ n₀.free = n.free ∧ n₀.pid = n.pid ∧
        n₀.dataStartsAnotherPage = n.dataStartsAnotherPage ∧
        ∀ bs, Φ f n₀.pid n₀.order bs → Ψ f n.pid n.order bs) :
    Alike Ψ (s.withFrames t) (s'.withFrames t) where
  eq := by rw [h.eq]; rfl
  sound := h.sound.withFrames hlen hlay fun f n hn => by
    obtain ⟨n₀, hn₀, hfree, hpid, hflag, -⟩ := hnode f n hn
    exact ⟨n₀, hn₀, hfree, hpid, hflag⟩
  os := h.os
  shared := h.shared
  used f n hn hused := by
    obtain ⟨n₀, hn₀, hfree, -, -, himp⟩ := hnode f n hn
    obtain ⟨bs, hbs, hΦ⟩ := h.used f n₀ hn₀ (hfree.trans hused)
    exact ⟨bs, hbs, himp bs hΦ⟩
  spare f n hn hfree hf := by
    obtain ⟨n₀, hn₀, hfree₀, -⟩ := hnode f n hn
    refine h.spare f n₀ hn₀ (hfree₀.trans hfree) ?_
    rw [lowFrames] at hf ⊢
    rwa [← hlen]

theorem Alike.sameFrames {t : PageTable} (h : Alike Φ s s') (ht : SameFrames s.frames t) :
    Alike Φ (s.withFrames t) (s'.withFrames t) := by
  have hlay : (s.withFrames t).Layout :=
    h.sound.room.layout.of_maps (ht.map_eq fun _ => rfl) (ht.map_eq fun _ => rfl)
  refine h.withFrames ht.length_eq hlay fun f n hn => ?_
  obtain ⟨n₀, hn₀, hfree, hpid, horder, hflag⟩ := ht.exists_node hn
  refine ⟨n₀, hn₀, hfree, hpid, hflag, fun bs hΦ => ?_⟩
  rwa [← hpid, ← horder]

/-! ### Changes in one region -/

/-- The memory of the operating system, with its start and its end. -/
def osRegion (s : VMState) : ℕ × ℕ := (s.base + osReservedStart, s.base + memoryStart)

/-- The shared pages. -/
def sharedRegion (s : VMState) : ℕ × ℕ :=
  (s.base + sharedMemoryStart s.pageSize, s.base + physicalSize)

/-- The page of a frame. -/
def pageRegion (s : VMState) (n : SpaceNode) : ℕ × ℕ :=
  (s.base + n.start, s.base + n.start + s.pageSize)

/-- The regions with a list of blocks: the memory of the operating system, the shared pages, and the
pages in use. -/
def regions (s : VMState) : List (ℕ × ℕ) :=
  s.osRegion :: s.sharedRegion :: (s.frames.filter fun n => !n.free).map s.pageRegion

/-- Nothing is known about the lists. -/
def anyList (_ _ : ℕ) (_ : ℤ) (_ : List Block) : Prop := True

section Regions

variable {r : ℕ × ℕ}

theorem Layout.withBytes (h : s.Layout) (m : Memory) : Layout { s with bytes := m } :=
  ⟨h.contiguous, h.sizes, h.large⟩

theorem Layout.mem_regions (h : s.Layout) : r ∈ s.regions ↔ r = s.osRegion ∨
    r = s.sharedRegion ∨ ∃ f n, s.frames[f]? = some n ∧ n.free = false ∧
        r = (s.frameAddress f, s.frameAddress f + s.pageSize) := by
  rw [regions, List.mem_cons, List.mem_cons, List.mem_map]
  refine or_congr_right (or_congr_right ⟨?_, ?_⟩)
  · rintro ⟨n, hn, rfl⟩
    obtain ⟨hmem, hused⟩ := List.mem_filter.mp hn
    obtain ⟨f, hf⟩ := List.mem_iff_getElem?.mp hmem
    exact ⟨f, n, hf, by simpa using hused, by rw [pageRegion, h.base_add_start hf]⟩
  · rintro ⟨f, n, hf, hused, rfl⟩
    exact ⟨n, List.mem_filter.mpr ⟨List.mem_iff_getElem?.mpr ⟨f, hf⟩, by simpa using hused⟩,
      by rw [pageRegion, h.base_add_start hf]⟩

theorem Alike.region (h : Alike Φ s s') (hr : r ∈ s.regions) :
    ∃ bs, SameBlocks s.bytes s'.bytes r.1 r.2 bs := by
  rcases h.sound.room.layout.mem_regions.mp hr with rfl | rfl | ⟨f, n, hn, hused, rfl⟩
  · exact h.os
  · exact h.shared
  · obtain ⟨bs, hbs, -⟩ := h.used f n hn hused
    exact ⟨_, hbs⟩

theorem Sound.region_end (h : s.Sound) (hr : r ∈ s.regions) : r.2 < 2 ^ 64 := by
  have haddr := h.room.address
  rcases h.room.layout.mem_regions.mp hr with rfl | rfl | ⟨f, n, hn, -, rfl⟩
  · have : memoryStart ≤ physicalSize := by decide
    show s.base + memoryStart < 2 ^ 64
    omega
  · exact haddr
  · exact h.room.frameAddress_lt (List.getElem?_eq_some_iff.mp hn).1

/-- Two regions are the same or do not overlap. -/
theorem Sound.disjoint_regions (h : s.Sound) (hr : r ∈ s.regions) {r' : ℕ × ℕ}
    (hr' : r' ∈ s.regions) : r = r' ∨ Disjoint (Set.Ico r.1 r.2) (Set.Ico r'.1 r'.2) := by
  have hlay := h.room.layout
  rcases hlay.mem_regions.mp hr with rfl | rfl | ⟨f, n, hn, hused, rfl⟩ <;>
    rcases hlay.mem_regions.mp hr' with rfl | rfl | ⟨f', n', hn', hused', rfl⟩
  · exact Or.inl rfl
  · exact Or.inr h.disjoint_os_shared
  · exact Or.inr (s.disjoint_frame_os f').symm
  · exact Or.inr h.disjoint_os_shared.symm
  · exact Or.inl rfl
  · exact Or.inr (h.disjoint_shared (h.used_low hn' hused')).symm
  · exact Or.inr (s.disjoint_frame_os f)
  · exact Or.inr (h.disjoint_shared (h.used_low hn hused))
  · by_cases hff : f = f'
    · exact Or.inl (by rw [hff])
    · exact Or.inr (s.disjoint_frames hff)

/-- Free frames in front of the shared pages do not overlap regions. -/
theorem Sound.disjoint_spare (h : s.Sound) (hr : r ∈ s.regions) {n : SpaceNode}
    (hn : s.frames[f]? = some n) (hfree : n.free = true) (hf : f < s.lowFrames) :
    Disjoint (Set.Ico r.1 r.2) (s.frameBytes f) := by
  rcases h.room.layout.mem_regions.mp hr with rfl | rfl | ⟨f', n', hn', hused', rfl⟩
  · exact (s.disjoint_frame_os f).symm
  · exact (h.disjoint_shared hf).symm
  · refine s.disjoint_frames fun hff => ?_
    rw [hff, hn, Option.some.injEq] at hn'
    rw [← hn', hfree] at hused'
    cases hused'

/-- **Changing one region.** -/
theorem Alike.setRegion (h : Alike Φ s s') (hr : r ∈ s.regions) {m m' : Memory}
    (hm : Set.EqOn m s.bytes (Set.Ico r.1 r.2)ᶜ) (hm' : Set.EqOn m' s'.bytes (Set.Ico r.1 r.2)ᶜ)
    (hbs : ∃ bs, SameBlocks m m' r.1 r.2 bs) :
    Alike anyList { s with bytes := m } { s' with bytes := m' } := by
  have hlay := h.sound.room.layout
  -- every list is the changed one, or does not meet it
  have hlist {r' : ℕ × ℕ} (hr' : r' ∈ s.regions) : ∃ bs, SameBlocks m m' r'.1 r'.2 bs := by
    rcases h.sound.disjoint_regions hr hr' with rfl | hdisj
    · exact hbs
    · obtain ⟨bs, hbs⟩ := h.region hr'
      exact ⟨bs, hbs.frame (eqOn_of_disjoint hm hdisj) (eqOn_of_disjoint hm' hdisj)⟩
  refine ⟨by rw [h.eq], ⟨h.sound.room.of_layout (hlay.withBytes m) rfl, h.sound.apart,
    h.sound.unowned, h.sound.unflagged, h.sound.low⟩, ?_, ?_, fun f n hn hused => ?_,
    fun f n hn hfree hf => ?_⟩
  · exact hlist (hlay.mem_regions.mpr (Or.inl rfl))
  · exact hlist (hlay.mem_regions.mpr (Or.inr (Or.inl rfl)))
  · obtain ⟨bs, hbs⟩ := hlist (hlay.mem_regions.mpr (Or.inr (Or.inr ⟨f, n, hn, hused, rfl⟩)))
    obtain ⟨cs, rfl⟩ := exists_shift fun b hb => hbs.spaced.le_addr hbs.seg hb
    exact ⟨cs, hbs, trivial⟩
  · have hdisj := h.sound.disjoint_spare hr hn hfree hf
    exact (h.spare f n hn hfree hf).frame (eqOn_of_disjoint hm hdisj) (eqOn_of_disjoint hm' hdisj)

end Regions

/-! ### Exchanging two pages -/

/-- Nothing outside the two frames changes. -/
theorem Layout.swapPages_eqOn (h : s.Layout) (hs : s.swapPages i j = some s₁) :
    Set.EqOn s₁.bytes s.bytes (s.frameBytes i ∪ s.frameBytes j)ᶜ := by
  by_cases hij : i = j
  · rw [VMState.swapPages, if_pos hij, Option.some.injEq] at hs
    rw [hs]
    exact Set.eqOn_refl _ _
  · intro x hx
    rw [Set.mem_compl_iff, Set.mem_union, not_or] at hx
    exact h.swapPages_outside hij hs hx.1 hx.2

/-- The page in one of the two frames has been moved there from the other one. -/
theorem Layout.restored_swapPages (h : s.Layout) (hij : i ≠ j) (hs : s.swapPages i j = some s₁)
    (hf : f = i ∨ f = j) :
    Restored s.bytes (s.frameAddress (Equiv.swap i j f)) s₁.bytes (s.frameAddress f)
      s.pageSize := by
  rcases hf with rfl | rfl
  · rw [Equiv.swap_apply_left]
    exact h.restores_left hij hs
  · rw [Equiv.swap_apply_right]
    exact h.restores_right hij hs

/-- A frame that is not one of the two keeps its bytes. -/
theorem Layout.swapPages_frame (h : s.Layout) (hs : s.swapPages i j = some s₁) (hi : f ≠ i)
    (hj : f ≠ j) : Set.EqOn s₁.bytes s.bytes (s.frameBytes f) :=
  eqOn_of_disjoint (h.swapPages_eqOn hs)
    (Set.disjoint_union_left.mpr ⟨s.disjoint_frames hi.symm, s.disjoint_frames hj.symm⟩)

/-- **Exchanging.** Two frames in front of the shared pages are exchanged, and the pages in them are
such that their lists can be moved. -/
theorem Alike.swapPages (h : Alike Φ s s') (hi : i < s.lowFrames) (hj : j < s.lowFrames)
    (htiled : ∀ f n, f = i ∨ f = j → s.frames[f]? = some n → n.free = false → s.Tiled f) :
    ∃ s₁ s₁', s.swapPages i j = some s₁ ∧ s'.swapPages i j = some s₁' ∧
      Alike (fun f => Φ (Equiv.swap i j f)) s₁ s₁' := by
  obtain ⟨m', rfl⟩ : ∃ m', s' = { s with bytes := m' } := ⟨_, h.eq⟩
  by_cases hij : i = j
  · subst hij
    refine ⟨s, { s with bytes := m' }, if_pos rfl, if_pos rfl, ?_⟩
    rw [Equiv.swap_self]
    exact h
  have hlen : s.lowFrames ≤ s.frames.length := Nat.min_le_right ..
  have hi' := hi.trans_le hlen
  have hj' := hj.trans_le hlen
  have hlay := h.sound.room.layout
  have hlay' := hlay.withBytes m'
  obtain ⟨s₁, hs⟩ := hlay.exists_swapPages hi' hj'
  obtain ⟨s₁', hs'⟩ := hlay'.exists_swapPages hi' hj'
  refine ⟨s₁, s₁', hs, hs', ?_⟩
  have hsound := h.sound.swapPages hi hj hs
  -- the bytes outside the frames, and the pages in them, in both states
  have hout := hlay.swapPages_eqOn hs
  have hout' := hlay'.swapPages_eqOn hs'
  have hframe {f : ℕ} (hfi : f ≠ i) (hfj : f ≠ j) := hlay.swapPages_frame hs hfi hfj
  have hframe' {f : ℕ} (hfi : f ≠ i) (hfj : f ≠ j) := hlay'.swapPages_frame hs' hfi hfj
  have hmoved {f : ℕ} (hf : f = i ∨ f = j) := hlay.restored_swapPages hij hs hf
  have hmoved' {f : ℕ} (hf : f = i ∨ f = j) := hlay'.restored_swapPages hij hs' hf
  have hlow : s₁.lowFrames = s.lowFrames := by
    obtain ⟨m, rfl⟩ := swapPages_eq_some hs
    exact lowFrames_eq (length_swapPages i j)
  obtain ⟨m₁, rfl⟩ := swapPages_eq_some hs
  obtain ⟨m₁', rfl⟩ := swapPages_eq_some hs'
  have hswap {f : ℕ} : f = i ∨ f = j → Equiv.swap i j f = i ∨ Equiv.swap i j f = j := by
    rintro (rfl | rfl)
    · exact Or.inr (Equiv.swap_apply_left ..)
    · exact Or.inl (Equiv.swap_apply_right ..)
  refine ⟨rfl, hsound, ?_, ?_, fun f n hn hused => ?_, fun f n hn hfree hf => ?_⟩
  · obtain ⟨bs, hbs⟩ := h.os
    have hdisj : Disjoint (s.frameBytes i ∪ s.frameBytes j) s.osBytes :=
      Set.disjoint_union_left.mpr ⟨s.disjoint_frame_os i, s.disjoint_frame_os j⟩
    exact ⟨bs, hbs.frame (eqOn_of_disjoint hout hdisj) (eqOn_of_disjoint hout' hdisj)⟩
  · obtain ⟨bs, hbs⟩ := h.shared
    have hdisj : Disjoint (s.frameBytes i ∪ s.frameBytes j) s.sharedBytes :=
      Set.disjoint_union_left.mpr ⟨h.sound.disjoint_shared hi, h.sound.disjoint_shared hj⟩
    exact ⟨bs, hbs.frame (eqOn_of_disjoint hout hdisj) (eqOn_of_disjoint hout' hdisj)⟩
  · obtain ⟨n₀, hn₀, hinfo⟩ := exists_info_of_swapPages hi' hj' hn
    have hused₀ := (SpaceNode.free_of_info hinfo).trans hused
    obtain ⟨bs, hbs, hΦ⟩ := h.used _ n₀ hn₀ hused₀
    rw [SpaceNode.pid_of_info hinfo, SpaceNode.order_of_info hinfo] at hΦ
    refine ⟨bs, ?_, hΦ⟩
    by_cases hf : f = i ∨ f = j
    · have hend : s.frameAddress f + s.pageSize < 2 ^ 64 :=
        h.sound.room.frameAddress_lt (by rcases hf with rfl | rfl <;> assumption)
      exact hbs.restored (s.frameAddress_ne_zero _) (s.frameAddress_ne_zero _) hlay.large hend
        (htiled _ n₀ (hswap hf) hn₀ hused₀) (hmoved hf) (hmoved' hf)
    · rw [not_or] at hf
      rw [Equiv.swap_apply_of_ne_of_ne hf.1 hf.2] at hbs
      exact hbs.frame (hframe hf.1 hf.2) (hframe' hf.1 hf.2)
  · obtain ⟨n₀, hn₀, hinfo⟩ := exists_info_of_swapPages hi' hj' hn
    have hfree₀ := (SpaceNode.free_of_info hinfo).trans hfree
    rw [hlow] at hf
    by_cases hfij : f = i ∨ f = j
    · refine SameVisited.restored (h.spare _ n₀ hn₀ hfree₀ ?_) hlay.large (hmoved hfij)
        (hmoved' hfij)
      rcases hswap hfij with heq | heq <;> rw [heq] <;> assumption
    · rw [not_or] at hfij
      rw [Equiv.swap_apply_of_ne_of_ne hfij.1 hfij.2] at hn₀
      exact (h.spare f n₀ hn₀ hfree₀ hf).frame (hframe hfij.1 hfij.2) (hframe' hfij.1 hfij.2)

/-- The list of a frame whose bytes do not change. -/
theorem Tiled.congr {t : PageTable} {m : Memory} (h : s.Tiled f)
    (heq : Set.EqOn m s.bytes (s.frameBytes f)) : Tiled { s with frames := t, bytes := m } f := by
  have hvisited : visited (view m (s.frameAddress f)) s.pageSize = visited (s.page f) s.pageSize :=
    visitLoop_congr fun o ho => heq ⟨Nat.le_add_right .., Nat.add_lt_add_left ho.2 _⟩
  show Threaded m (s.frameAddress f) 0 (visited (view m (s.frameAddress f)) s.pageSize)
  rw [hvisited]
  refine Threaded.congr h fun o ho => heq.mono (Set.Ico_subset_Ico (Nat.le_add_right ..) ?_)
  have := lt_of_mem_visitLoop ho
  omega

/-- The pages that are moved have lists that are found by the sizes. -/
theorem AllTiled.swapPages (h : s.AllTiled) (hroom : s.Room) (hs : s.swapPages i j = some s₁) :
    s₁.AllTiled := by
  by_cases hij : i = j
  · rw [VMState.swapPages, if_pos hij, Option.some.injEq] at hs
    exact hs ▸ h
  obtain ⟨hi, hj⟩ := swapPages_lt hij hs
  have hframe {f : ℕ} (hfi : f ≠ i) (hfj : f ≠ j) := hroom.layout.swapPages_frame hs hfi hfj
  have hmoved {f : ℕ} (hf : f = i ∨ f = j) := hroom.layout.restored_swapPages hij hs hf
  obtain ⟨m₁, rfl⟩ := swapPages_eq_some hs
  refine allTiled_iff.mpr fun f n hn hused => ?_
  obtain ⟨n₀, hn₀, hinfo⟩ := exists_info_of_swapPages hi hj hn
  by_cases hf : f = i ∨ f = j
  · have hlt : f < s.frames.length := by rcases hf with rfl | rfl <;> assumption
    show Threaded m₁ (s.frameAddress f) 0 (visited (view m₁ (s.frameAddress f)) s.pageSize)
    rw [(hmoved hf).visited_eq hroom.layout.large]
    exact (hmoved hf).threaded (hroom.frameAddress_lt hlt)
  · rw [not_or] at hf
    rw [Equiv.swap_apply_of_ne_of_ne hf.1 hf.2] at hn₀
    exact (allTiled_iff.mp h f n₀ hn₀ ((SpaceNode.free_of_info hinfo).trans hused)).congr
      (hframe hf.1 hf.2)

/-! ### Loading pages -/

section Load

variable {pid : ℕ}

/-- The frames in use are among the first `M + 1`, and those that hold pages of `pid` from the page
`o` on among the first `M`. -/
def LoadBound (pid M : ℕ) (o : ℤ) (t : PageTable) : Prop :=
  ∀ f n, t[f]? = some n → n.free = false → f ≤ M ∧ (n.pid = pid → o ≤ n.order → f < M)

theorem exists_of_holds {t : PageTable} {o : ℤ} (h : Holds t f pid o) :
    ∃ n, t[f]? = some n ∧ n.pid = pid ∧ n.order = o ∧ n.free = false := by
  obtain ⟨n, hn, hpage⟩ := Option.map_eq_some_iff.mp h
  exact ⟨n, hn, congrArg (·.1) hpage, congrArg (·.2.1) hpage, congrArg (·.2.2) hpage⟩

/-- The page `o` of the process goes behind a frame in front of the frame `M`. Its later pages do
not come behind it. -/
theorem LoadBound.swapPages {t : PageTable} {o : ℤ} (h : LoadBound pid M o t) (hi : i ≤ M)
    (hi' : i < t.length) (hj : Holds t j pid o) : LoadBound pid M (o + 1) (VM.swapPages i j t) := by
  obtain ⟨q, hq, hqpid, hqorder, hqused⟩ := exists_of_holds hj
  have hjM : j < M := (h j q hq hqused).2 hqpid hqorder.ge
  intro f n hn hused
  obtain ⟨n₀, hn₀, hinfo⟩ := exists_info_of_swapPages hi' hj.lt_length hn
  have hbound := h _ n₀ hn₀ ((SpaceNode.free_of_info hinfo).trans hused)
  rw [SpaceNode.pid_of_info hinfo, SpaceNode.order_of_info hinfo] at hbound
  by_cases hfi : f = i
  · refine ⟨hfi ▸ hi, fun _ horder => ?_⟩
    rw [hfi, Equiv.swap_apply_left, hq, Option.some.injEq] at hn₀
    rw [← SpaceNode.order_of_info hinfo, ← hn₀] at horder
    omega
  by_cases hfj : f = j
  · exact ⟨hfj ▸ hjM.le, fun _ _ => hfj ▸ hjM⟩
  rw [Equiv.swap_apply_of_ne_of_ne hfi hfj] at hbound
  exact ⟨hbound.1, fun hp horder => hbound.2 hp (by omega)⟩

theorem LoadBound.mono {t : PageTable} {o o' : ℤ} (h : LoadBound pid M o t) (ho : o ≤ o') :
    LoadBound pid M o' t :=
  fun f n hn hused => ⟨(h f n hn hused).1, fun hp horder => (h f n hn hused).2 hp (ho.trans horder)⟩

theorem LoadBound.sameFrames {t t' : PageTable} {o : ℤ} (h : LoadBound pid M o t)
    (ht : SameFrames t t') : LoadBound pid M o t' := by
  intro f n hn hused
  obtain ⟨n₀, hn₀, hfree, hpid, horder, -⟩ := ht.exists_node hn
  have hbound := h f n₀ hn₀ (hfree.trans hused)
  rwa [hpid, horder] at hbound

/-- Only the flags `free` of the descriptors matter. -/
theorem AllTiled.withFrames {t : PageTable} (h : s.AllTiled)
    (ht : t.map SpaceNode.free = s.frames.map SpaceNode.free) : (s.withFrames t).AllTiled := by
  refine allTiled_iff.mpr fun f n hn hused => ?_
  obtain ⟨n₀, hn₀, hfree⟩ := exists_free ht hn
  exact allTiled_iff.mp h f n₀ hn₀ (hfree.trans hused)

/-- What the loop of `loadProcessPages` keeps, before the page `o` of the process is moved. -/
structure Loading (Φ : ℕ → ℕ → ℤ → List Block → Prop) (pid M : ℕ) (o : ℤ) (s s' : VMState) :
    Prop where
  alike : Alike Φ s s'
  tiled : s.AllTiled
  lt_low : M < s.lowFrames
  bound : LoadBound pid M o s.frames

theorem Loading.sameFrames {t : PageTable} {o : ℤ} (h : Loading Φ pid M o s s')
    (ht : SameFrames s.frames t) : Loading Φ pid M o (s.withFrames t) (s'.withFrames t) where
  alike := h.alike.sameFrames ht
  tiled := h.tiled.withFrames (ht.map_eq fun _ => rfl)
  lt_low := by
    have := lowFrames_eq (s := s) (m := s.bytes) ht.length_eq
    rw [withFrames, this]
    exact h.lt_low
  bound := h.bound.sameFrames ht

theorem Alike.frames_eq (h : Alike Φ s s') : s'.frames = s.frames := by rw [h.eq]

theorem Alike.pageSize_eq (h : Alike Φ s s') : s'.pageSize = s.pageSize := by rw [h.eq]

theorem Alike.base_eq (h : Alike Φ s s') : s'.base = s.base := by rw [h.eq]

/-- Looking for a page. -/
theorem Loading.findPage {o : ℤ} (h : Loading Φ pid M o s s') (order : ℤ) :
    (s'.findPage pid order).1 = (s.findPage pid order).1 ∧
      Loading Φ pid M o (s.findPage pid order).2 (s'.findPage pid order).2 := by
  have hclocks := h.sameFrames (clocksOnly_findPage pid order s.frames).sameFrames
  rw [VMState.findPage, VMState.findPage, h.alike.frames_eq]
  exact ⟨rfl, hclocks⟩

/-- The frame of the process that is found is in use. -/
theorem Loading.holds_findPage {o order : ℤ} {p : ℕ} (h : Loading Φ pid M o s s') (hpid : pid ≠ 0)
    (hp : (s.findPage pid order).1 = some p) :
    Holds (s.findPage pid order).2.frames p pid order :=
  (holds_congr (map_page_findPage pid order s.frames) p).mpr
    (holds_of_findPage hp fun n hn hpn => h.alike.sound.used_of_pid hpid n hn hpn)

section

variable (hΦ : ∀ f g p o bs, Φ f p o bs → Φ g p o bs)

include hΦ

/-- An exchange of frames whose pages can be moved, when `Φ` does not depend on the frame. -/
theorem Alike.swapPages_of_tiled (h : Alike Φ s s') (htiled : s.AllTiled) (hi : i < s.lowFrames)
    (hj : j < s.lowFrames) :
    ∃ s₁ s₁', s.swapPages i j = some s₁ ∧ s'.swapPages i j = some s₁' ∧ Alike Φ s₁ s₁' ∧
      s₁.AllTiled ∧ s₁.lowFrames = s.lowFrames := by
  obtain ⟨s₁, s₁', hs, hs', h₁⟩ := h.swapPages hi hj fun f n _ => allTiled_iff.mp htiled f n
  refine ⟨s₁, s₁', hs, hs', h₁.mono fun f n bs _ _ hbs => hΦ _ _ _ _ _ hbs,
    htiled.swapPages h.sound.room hs, ?_⟩
  obtain ⟨m, rfl⟩ := swapPages_eq_some hs
  exact lowFrames_eq (length_swapPages i j)

/-- One page is moved behind another one. -/
theorem Loading.makeContiguous {o : ℤ} {p1 p2 : ℕ} (h : Loading Φ pid M o s s') (hp1 : p1 < M)
    (hp2 : Holds s.frames p2 pid o) :
    Option.Rel (Loading Φ pid M (o + 1)) (s.makeContiguous p1 p2) (s'.makeContiguous p1 p2) := by
  rw [VMState.makeContiguous, VMState.makeContiguous, h.alike.frames_eq, h.alike.pageSize_eq]
  split_ifs
  · exact .some ⟨h.alike, h.tiled, h.lt_low, h.bound.mono (by omega)⟩
  cases hc : getContiguousPage s.pageSize p1 s.frames with
  | none => exact .none
  | some c =>
    have hlay := h.alike.sound.room.layout
    obtain rfl := hlay.contiguous.getContiguousPage (Nat.zero_lt_of_lt hlay.large) hc
    have hlt := h.lt_low
    obtain ⟨q, hq, hqpid, hqorder, hqused⟩ := exists_of_holds hp2
    have hp2M : p2 < M := (h.bound p2 q hq hqused).2 hqpid hqorder.ge
    have hlen : s.lowFrames ≤ s.frames.length := Nat.min_le_right ..
    obtain ⟨s₁, s₁', hs, hs', h₁, htiled₁, hlow₁⟩ :=
      h.alike.swapPages_of_tiled hΦ h.tiled (i := p1 + 1) (by omega) (hp2M.trans hlt)
    rw [Option.bind_some, Option.bind_some, hs, hs']
    refine .some ⟨h₁, htiled₁, hlt.trans_eq hlow₁.symm, ?_⟩
    rw [frames_swapPages hs]
    exact h.bound.swapPages (by omega) (by omega) hp2

/-- The loop of `loadProcessPages`. -/
theorem Loading.loadLoop (hpid : pid ≠ 0) (fuel : ℕ) :
    ∀ {p1 : ℕ} {p2 : Option ℕ} {i : ℤ} {s s' : VMState}, Loading Φ pid M (i - 1) s s' → p1 < M →
      (∀ p, p2 = some p → Holds s.frames p pid (i - 1)) →
      Option.Rel (fun t t' => ∃ o, Loading Φ pid M o t t') (s.loadLoop pid fuel p1 p2 i)
        (s'.loadLoop pid fuel p1 p2 i) := by
  induction fuel with
  | zero =>
    intro p1 p2 i s s' h _ _
    cases p2 with
    | none => exact .some ⟨_, h⟩
    | some p => exact .none
  | succ fuel ih =>
    intro p1 p2 i s s' h hp1 hp2
    cases p2 with
    | none => exact .some ⟨_, h⟩
    | some p =>
      have hp := hp2 p rfl
      obtain ⟨q, hq, hqpid, hqorder, hqused⟩ := exists_of_holds hp
      have hpM : p < M := (h.bound p q hq hqused).2 hqpid hqorder.ge
      refine Transition.rel_bind (h.makeContiguous hΦ hp1 hp) fun t t' ht => ?_
      rw [sub_add_cancel] at ht
      obtain ⟨heq, hfind⟩ := ht.findPage i
      rw [heq]
      refine ih (i := i + 1) (by rwa [add_sub_cancel_right]) hpM fun p' hp' => ?_
      rw [add_sub_cancel_right]
      exact ht.holds_findPage hpid hp'

/-- **Loading.** The frames in use are among the first `M`, and there is one more in front of the
shared pages. -/
theorem Alike.loadProcessPages (hpid : pid ≠ 0) (h : Alike Φ s s') (htiled : s.AllTiled)
    (hM : UsedBefore M s.frames) (hlow : M < s.lowFrames) :
    Option.Rel (fun t t' => Alike Φ t t' ∧ t.AllTiled ∧ UsedBefore (M + 1) t.frames)
      (s.loadProcessPages pid) (s'.loadProcessPages pid) := by
  have hload : Loading Φ pid M 1 s s' := by
    refine ⟨h, htiled, hlow, fun f n hn hused => ?_⟩
    have hf := usedBefore_iff.mp hM f n hn hused
    exact ⟨hf.le, fun _ _ => hf⟩
  obtain ⟨heq, hfind⟩ := hload.findPage 1
  rw [VMState.loadProcessPages, VMState.loadProcessPages, heq]
  cases hp : (s.findPage pid 1).1 with
  | none => exact .none
  | some p =>
    have hhold := hload.holds_findPage hpid hp
    obtain ⟨q, hq, hqpid, hqorder, hqused⟩ := exists_of_holds hhold
    have hpM : p < M := (hfind.bound p q hq hqused).2 hqpid hqorder.ge
    have hlen : (s.findPage pid 1).2.lowFrames ≤ (s.findPage pid 1).2.frames.length :=
      Nat.min_le_right ..
    have hlt := hfind.lt_low
    obtain ⟨s₁, s₁', hs, hs', h₁, htiled₁, hlow₁⟩ :=
      hfind.alike.swapPages_of_tiled hΦ hfind.tiled (i := 0) (j := p) (by omega) (by omega)
    rw [Option.bind_some, Option.bind_some, hs, hs', Option.bind_some, Option.bind_some]
    have hbound : LoadBound pid M 2 s₁.frames := by
      rw [frames_swapPages hs]
      exact hfind.bound.swapPages (by omega) (by omega) hhold
    have hload₁ : Loading Φ pid M 2 s₁ s₁' := ⟨h₁, htiled₁, hlt.trans_eq hlow₁.symm, hbound⟩
    obtain ⟨heq₁, hfind₁⟩ := hload₁.findPage 2
    rw [heq₁, h₁.frames_eq]
    have hrel := Loading.loadLoop hΦ hpid s₁.frames.length (i := 3) hfind₁ (Nat.zero_lt_of_lt hpM)
      fun p' hp' => hload₁.holds_findPage hpid hp'
    refine Transition.rel_imp hrel fun t t' hload => ?_
    obtain ⟨o, ht⟩ := hload
    refine ⟨ht.alike, ht.tiled, usedBefore_iff.mpr fun f n hn hused => ?_⟩
    exact Nat.lt_succ_of_le (ht.bound f n hn hused).1

end

end Load

/-- Pages in place are left there. -/
theorem Alike.load_inPlace {pid k : ℕ} (h : Alike Φ s s') (hk : 1 ≤ k)
    (howns : Owns pid k s.frames) (hin : InPlace pid k s.frames) :
    ∃ t, s.loadProcessPages pid = some (s.withFrames t) ∧
      s'.loadProcessPages pid = some (s'.withFrames t) ∧ ClocksOnly s.frames t := by
  have hlast := hin (k - 1) (by omega)
  rw [show ((k - 1 : ℕ) : ℤ) + 1 = k by omega] at hlast
  have hload (m : Memory) : ∃ t, VM.loadProcessPages s.pageSize pid s.frames = some t ∧
      VMState.loadProcessPages pid { s with bytes := m } =
        some (VMState.withFrames { s with bytes := m } t) ∧ ClocksOnly s.frames t := by
    obtain ⟨s₁, hs₁, hclock⟩ := load_settled (s := { s with bytes := m })
      (h.sound.room.layout.withBytes m) howns hk (hin 0 hk) (if_pos rfl)
      (fun i hi => hin i (by omega)) hlast (if_pos rfl)
    obtain ⟨t, m₁, ht, heq⟩ := loadProcessPages_eq_some hs₁
    rw [hclock.2] at hs₁
    have hframes : s₁.frames = t := by rw [heq]
    exact ⟨s₁.frames, by rw [hframes]; exact ht, hs₁, hclock.1⟩
  obtain ⟨t, ht, hs, hclock⟩ := hload s.bytes
  obtain ⟨t', ht', hs', -⟩ := hload s'.bytes
  obtain rfl : t = t' := Option.some.inj (ht.symm.trans ht')
  refine ⟨t, hs, ?_, hclock⟩
  rw [h.eq]
  exact hs'

/-! ### Giving out pages -/

/-- The list of a new page. -/
def freshBlock (pageSize : ℕ) : Block := ⟨0, pageSize - sizeofSpaceNode, true⟩

/-- The frame `f` holds a new page. -/
def newAt (pageSize f : ℕ) (Φ : ℕ → ℕ → ℤ → List Block → Prop) (g p : ℕ) (o : ℤ)
    (bs : List Block) : Prop :=
  if g = f then bs = [freshBlock pageSize] else Φ g p o bs

section Fresh

variable {m m' : Memory} {a size : ℕ}

theorem sameBlocks_initializeSpace (m m' : Memory) (junk : ℕ → UInt8) (ha : a ≠ 0)
    (hlarge : sizeofSpaceNode < size) (hsize : size < 2 ^ 32) (hend : a + size < 2 ^ 64) :
    SameBlocks (initializeSpace m a size junk) (initializeSpace m' a size junk) a (a + size)
      ([freshBlock size].map (Block.shift a)) := by
  refine ⟨seg_initializeSpace m junk ha (by omega) (by omega), ?_, ?_⟩
  · refine spaced_shift.mpr ⟨List.pairwise_singleton _ _, fun b hb => ?_⟩
    rw [List.mem_singleton.mp hb]
    exact hlarge.le
  · have hagree := putFree_congr (Set.eqOn_empty m' m) a 0 0 (size - sizeofSpaceNode) junk
    refine hagree.mono ?_
    rintro x ⟨b, hb, hx⟩
    rw [List.map_singleton, List.mem_singleton] at hb
    rw [hb] at hx
    exact Or.inr hx

/-- The list of a new page is the one found by the sizes. -/
theorem threaded_initializeSpace (m : Memory) (junk : ℕ → UInt8)
    (hlarge : sizeofSpaceNode < size) (hsize : size < 2 ^ 32) (hend : a + size < 2 ^ 64) :
    Threaded (initializeSpace m a size junk) a 0
      (visited (view (initializeSpace m a size junk) a) size) := by
  have hvisited : visited (view (initializeSpace m a size junk) a) size = [0] := by
    have hget : sizeField.get (view (initializeSpace m a size junk) a) 0 =
        size - sizeofSpaceNode := by
      rw [Field.get_view]
      exact (size_putFree ..).trans (Nat.mod_eq_of_lt (by omega))
    obtain ⟨n, rfl⟩ : ∃ n, size = n + 2 := ⟨size - 2, by rw [sizeofSpaceNode] at hlarge; omega⟩
    rw [visited, visitLoop, if_pos ⟨by omega, by omega⟩, hget, visitLoop, if_neg (by omega)]
  rw [hvisited]
  exact ⟨start_putFree (by omega), prev_putFree (by norm_num), next_putFree (by norm_num), trivial⟩

end Fresh

section Take

variable {pid : ℕ} {q : SpaceNode}

/-- **Taking a frame.** It becomes a page with one free block. -/
theorem Alike.takeFrame (h : Alike Φ s s') (hq : s.frames[f]? = some q) (hf : f < s.lowFrames)
    (pid : ℕ) (junk : ℕ → UInt8) :
    ∃ s₁ s₁', s.takeFrame pid f junk = some s₁ ∧ s'.takeFrame pid f junk = some s₁' ∧
      Alike (newAt s.pageSize f Φ) s₁ s₁' ∧
      s₁.Tiled f ∧ (∀ g ≠ f, s.Tiled g → s₁.Tiled g) ∧
      s₁.frames = s.frames.modify f (SpaceNode.take pid) ∧ s₁.lowFrames = s.lowFrames := by
  obtain ⟨m', rfl⟩ : ∃ m', s' = { s with bytes := m' } := ⟨_, h.eq⟩
  have hroom := h.sound.room
  have hlay := hroom.layout
  have hlt := (List.getElem?_eq_some_iff.mp hq).1
  have hend := hroom.frameAddress_lt hlt
  have hsize : s.pageSize < 2 ^ 32 := by
    have := hroom.pageSize_le hlt
    rw [physicalSize] at this
    omega
  set m₁ := initializeSpace s.bytes (s.frameAddress f) s.pageSize junk with hm₁
  set m₁' := initializeSpace m' (s.frameAddress f) s.pageSize junk with hm₁'
  have hs : s.takeFrame pid f junk = some { s with
      frames := s.frames.modify f (SpaceNode.take pid), bytes := m₁ } := by
    rw [VMState.takeFrame, hq, Option.map_some, hlay.base_add_start hq, hlay.size_eq hq]
  have hs' : VMState.takeFrame pid f junk { s with bytes := m' } = some { s with
      frames := s.frames.modify f (SpaceNode.take pid), bytes := m₁' } := by
    have hbase := (hlay.withBytes m').base_add_start (i := f) hq
    rw [VMState.takeFrame]
    dsimp only
    rw [hq, Option.map_some, hlay.base_add_start hq, hlay.size_eq hq]
  -- only the record at the start of the frame is written
  have hout (m : Memory) : Set.EqOn (initializeSpace m (s.frameAddress f) s.pageSize junk) m
      (s.frameBytes f)ᶜ :=
    (putFree_eqOn ..).mono (Set.compl_subset_compl.mpr
      (Set.Ico_subset_Ico le_rfl (Nat.add_le_add_left hlay.large.le _)))
  have hlen : (s.frames.modify f (SpaceNode.take pid)).length = s.frames.length :=
    List.length_modify ..
  have hlow : lowFrames { s with frames := s.frames.modify f (SpaceNode.take pid), bytes := m₁ } =
      s.lowFrames := lowFrames_eq hlen
  have hsound : Sound { s with frames := s.frames.modify f (SpaceNode.take pid), bytes := m₁ } :=
    h.sound.modify (hlay.takeFrame hs) fun n hn =>
      ⟨fun hfree => absurd hfree Bool.false_ne_true,
        h.sound.unflagged n (List.mem_iff_getElem?.mpr ⟨f, hn⟩), fun _ => hf⟩
  refine ⟨_, _, hs, hs', ⟨rfl, hsound, ?_, ?_, fun g n hn hused => ?_, fun g n hn hnfree hg => ?_⟩,
    threaded_initializeSpace s.bytes junk hlay.large hsize hend, fun g hgf htiled => ?_, rfl, hlow⟩
  · obtain ⟨bs, hbs⟩ := h.os
    exact ⟨bs, hbs.frame (eqOn_of_disjoint (hout _) (s.disjoint_frame_os f))
      (eqOn_of_disjoint (hout _) (s.disjoint_frame_os f))⟩
  · obtain ⟨bs, hbs⟩ := h.shared
    exact ⟨bs, hbs.frame (eqOn_of_disjoint (hout _) (h.sound.disjoint_shared hf))
      (eqOn_of_disjoint (hout _) (h.sound.disjoint_shared hf))⟩
  · obtain ⟨n₀, hn₀, hne, -⟩ := exists_of_modify hn
    by_cases hgf : g = f
    · subst hgf
      exact ⟨_, sameBlocks_initializeSpace s.bytes m' junk (s.frameAddress_ne_zero g) hlay.large
        hsize hend, by rw [newAt, if_pos rfl]⟩
    · rw [hne hgf] at hused ⊢
      obtain ⟨bs, hbs, hΦ⟩ := h.used g n₀ hn₀ hused
      have hdisj := s.disjoint_frames (Ne.symm hgf)
      exact ⟨bs, hbs.frame (eqOn_of_disjoint (hout _) hdisj) (eqOn_of_disjoint (hout _) hdisj),
        by rwa [newAt, if_neg hgf]⟩
  · obtain ⟨n₀, hn₀, hne, heq⟩ := exists_of_modify hn
    rw [hlow] at hg
    by_cases hgf : g = f
    · rw [heq hgf] at hnfree
      cases hnfree
    · rw [hne hgf] at hnfree
      have hdisj := s.disjoint_frames (Ne.symm hgf)
      exact (h.spare g n₀ hn₀ hnfree hg).frame (eqOn_of_disjoint (hout _) hdisj)
        (eqOn_of_disjoint (hout _) hdisj)
  · exact htiled.congr (eqOn_of_disjoint (hout _) (s.disjoint_frames (Ne.symm hgf)))

/-- **Giving out a page.** A frame behind those in use is free and in front of the shared pages, and
the page in the first frame can be moved. -/
theorem Alike.getFreePage (hΦ : ∀ f g p o bs, Φ f p o bs → Φ g p o bs) (h : Alike Φ s s')
    (hM : UsedBefore M s.frames) (hlow : M < s.lowFrames)
    (htiled : ∀ n, s.frames[0]? = some n → n.free = false → s.Tiled 0) (pid : ℕ)
    (junk : ℕ → UInt8) :
    ∃ n s₁ s₁', s.getFreePage pid junk = some (true, s₁) ∧
      s'.getFreePage pid junk = some (true, s₁') ∧
      Alike (newAt s.pageSize 0 Φ) s₁ s₁' ∧
      (s.AllTiled → s₁.AllTiled) ∧ n ≤ M ∧ (∃ q, s.frames[n]? = some q ∧ q.free = true) ∧
      s₁.frames = VM.swapPages 0 n (s.frames.modify n (SpaceNode.take pid)) ∧
      s₁.lowFrames = s.lowFrames := by
  have hlen : s.lowFrames ≤ s.frames.length := Nat.min_le_right ..
  obtain ⟨n, q, hfind, hnM, hq, hfree, hbefore⟩ := hM.findFreePage (hlow.trans_le hlen)
  obtain ⟨s₁, s₁', hs₁, hs₁', h₁, hnew, hold, hframes, hlow₁⟩ :=
    h.takeFrame hq (hnM.trans_lt hlow) pid junk
  have htiled₁ (f : ℕ) (p : SpaceNode) (hf : f = 0 ∨ f = n) (hp : s₁.frames[f]? = some p)
      (_ : p.free = false) : s₁.Tiled f := by
    by_cases hfn : f = n
    · rwa [hfn]
    obtain rfl := hf.resolve_right hfn
    rw [hframes] at hp
    obtain ⟨p₀, hp₀, -⟩ := exists_of_modify hp
    exact hold 0 hfn (htiled p₀ hp₀ (hbefore 0 (Nat.pos_of_ne_zero (Ne.symm hfn)) p₀ hp₀))
  obtain ⟨s₂, s₂', hs₂, hs₂', h₂⟩ := h₁.swapPages (i := 0) (j := n) (by omega) (by omega) htiled₁
  refine ⟨n, s₂, s₂', ?_, ?_, h₂.mono fun f p bs _ _ hbs => ?_, fun hall => ?_, hnM,
    ⟨q, hq, hfree⟩, ?_, ?_⟩
  · rw [VMState.getFreePage, getFreePageLoop, hfind]
    dsimp only
    rw [hs₁, Option.bind_some, hs₂, Option.map_some]
  · rw [VMState.getFreePage, getFreePageLoop, h.frames_eq, hfind]
    dsimp only
    rw [hs₁', Option.bind_some, hs₂', Option.map_some]
  · rw [newAt] at hbs ⊢
    by_cases hf : f = 0
    · rw [hf, Equiv.swap_apply_left, if_pos rfl] at hbs
      rwa [if_pos hf]
    · have hne : Equiv.swap 0 n f ≠ n := by
        rw [Ne, Equiv.swap_apply_eq_iff, Equiv.swap_apply_right]
        exact hf
      rw [if_neg hne] at hbs
      rw [if_neg hf]
      exact hΦ _ _ _ _ _ hbs
  · refine AllTiled.swapPages (allTiled_iff.mpr fun f p hp hused => ?_) h₁.sound.room hs₂
    by_cases hfn : f = n
    · rwa [hfn]
    · rw [hframes] at hp
      obtain ⟨p₀, hp₀, hne, -⟩ := exists_of_modify hp
      rw [hne hfn] at hused
      exact hold f hfn (allTiled_iff.mp hall f p₀ hp₀ hused)
  · rw [frames_swapPages hs₂, hframes]
  · obtain ⟨m, rfl⟩ := swapPages_eq_some hs₂
    rw [← hlow₁]
    exact lowFrames_eq (length_swapPages 0 n)

end Take

end VMState

end OSDesign.VM
