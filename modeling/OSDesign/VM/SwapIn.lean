import Mathlib.Tactic
import OSDesign.VM.Reservation

/-!
# Bringing a page back from the swap file

`findPageInSwap` reads the swap file into a copy of its own, looks for the page there and asks
`getFreePage` for a frame. When no frame is free, `getFreePage` moves another page to the swap file,
through another copy; after that `findPageInSwap` writes its own copy back, without that page.

The pages of a state are listed with their bytes, up to the pointers of the block lists in them,
which `swapPages` rewrites.

## Main definitions

* `VMState.findPageInSwap`.
* `fixedBytes`, `VMState.storedPages`: the pages in the frames and in the slots.

## Main results

* `VMState.findPageInSwap_keeps_pages`: no page is lost exactly when a frame is free.
-/

namespace OSDesign.VM

open ByteMemory ListUpdate

/-! ### Pages up to their pointers -/

section FixedBytes

variable {page page' : Memory} {size fuel s : ℕ}

/-- The bytes of a page, with 0 in place of those that `restorePointers` rewrites. -/
def fixedBytes (page : Memory) (size : ℕ) : List UInt8 :=
  (List.range size).map fun o => if Touched page size o then 0 else page o

/-- The positions depend on the sizes at the positions only. -/
theorem visitLoop_eq
    (h : ∀ p ∈ visitLoop page size fuel s, sizeField.get page' p = sizeField.get page p) :
    visitLoop page' size fuel s = visitLoop page size fuel s := by
  induction fuel generalizing s with
  | zero => rfl
  | succ fuel ih =>
    rw [visitLoop] at h ⊢
    rw [visitLoop]
    by_cases hs : s < size ∧ sizeofSpaceNode < size - s
    · rw [if_pos hs] at h
      rw [if_pos hs, if_pos hs, h s List.mem_cons_self,
        ih fun p hp => h p (List.mem_cons_of_mem _ hp)]
    · rw [if_neg hs, if_neg hs]

/-- The size of a record is not rewritten. -/
theorem not_touched_size {p o : ℕ} (hp : p ∈ visited page size)
    (ho : p + sizeField.off ≤ o ∧ o < p + sizeField.off + sizeField.len) :
    ¬ Touched page size o := by
  rintro ⟨q, hq, hqo, hbyte⟩
  rw [IsPointerByte] at hbyte
  have hapart := visitLoop_apart hp hq
  simp only [sizeField, sizeofSpaceNode] at ho hapart
  omega

/-- A page keeps its fixed bytes when no other than pointers are rewritten. -/
theorem fixedBytes_eq (h : ∀ o < size, ¬ Touched page size o → page' o = page o) :
    fixedBytes page' size = fixedBytes page size := by
  have hvisit : visited page' size = visited page size := by
    refine visitLoop_eq fun p hp => load_congr fun o ho => h o ?_ (not_touched_size hp ho)
    have hlt := lt_of_mem_visitLoop hp
    have ho₂ := ho.2
    simp only [sizeField, sizeofSpaceNode] at ho₂ hlt
    omega
  refine List.map_congr_left fun o ho => ?_
  have htouch : Touched page' size o ↔ Touched page size o := by rw [Touched, Touched, hvisit]
  by_cases ht : Touched page size o
  · rw [if_pos (htouch.mpr ht), if_pos ht]
  · rw [if_neg fun h' => ht (htouch.mp h'), if_neg ht, h o (List.mem_range.mp ho) ht]

end FixedBytes

namespace VMState

variable {s s' s₁ : VMState} {pid n : ℕ} {order : ℤ} {junk : ℕ → UInt8}

/-! ### The pages of a state -/

/-- The page in the frame `f`, if the frame is occupied. -/
def framePage (s : VMState) (f : ℕ) : Option ((ℕ × ℤ) × List UInt8) :=
  ((s.frames[f]?).bind SpaceNode.key).map fun key => (key, fixedBytes (s.page f) s.pageSize)

/-- The page in the slot `k`, if the slot is occupied. -/
def slotPage (s : VMState) (k : ℕ) : Option ((ℕ × ℤ) × List UInt8) :=
  ((s.swap[k]?).bind SpaceNode.key).map fun key => (key, fixedBytes (s.slots k) s.pageSize)

/-- The pages in the frames and in the slots. -/
def storedPages (s : VMState) : List ((ℕ × ℤ) × List UInt8) :=
  (List.range s.frames.length).filterMap s.framePage ++
    (List.range s.swap.length).filterMap s.slotPage

/-- The slot holds the page `order` of `pid`. -/
def isStored (pid : ℕ) (order : ℤ) (n : SpaceNode) : Bool :=
  n.pid == pid && n.order == order && !n.free

/-- The end of `findPageInSwap`: the page of the slot `r`, described by `res`, is copied to the
first frame, and `swap` and `slots`, the copy of the swap file that was read in the beginning, is
written back without it. -/
def restore (res : SpaceNode) (r : ℕ) (order : ℤ) (swap : PageTable) (slots : ℕ → Memory)
    (s : VMState) : Option VMState :=
  (s.frames[0]?).map fun temp =>
    { s with
      frames := s.frames.modify 0 fun temp =>
        { temp with
          reference := res.reference
          order := order
          size := res.size
          dataStartsAnotherPage := res.dataStartsAnotherPage
          swapclock := 0 }
      bytes := paste s.bytes (s.base + temp.start) (slots r) res.size
      swap := swap.modify r SpaceNode.release
      slots := slots }

/-- `findPageInSwap`, with the file operations succeeding: the frame with the page, or `none` for
`NULL`. It dereferences the result of `getFreePage` without looking at it. -/
def findPageInSwap (pid : ℕ) (order : ℤ) (junk : ℕ → UInt8) (s : VMState) :
    Option (Option ℕ × VMState) :=
  match s.swap.findIdx? (isStored pid order) with
  | none => some (none, s)
  | some r =>
    (s.swap[r]?).bind fun res =>
      (s.getFreePage pid junk).bind fun (ok, s₁) =>
        if ok then (s₁.restore res r order s.swap s.slots).map fun s => (some 0, s) else none

/-! ### What moves the pages -/

/-- An exchange of frames exchanges their pages. -/
theorem framePage_swapPages {i j : ℕ} (hlay : s.Layout) (hs : s.swapPages i j = some s') (f : ℕ) :
    s'.framePage f = s.framePage (Equiv.swap i j f) := by
  by_cases hij : i = j
  · subst hij
    rw [swapPages, if_pos rfl] at hs
    rw [Equiv.swap_self, Equiv.refl_apply, Option.some.inj hs]
  have hbytes : fixedBytes (s'.page f) s.pageSize =
      fixedBytes (s.page (Equiv.swap i j f)) s.pageSize := by
    refine fixedBytes_eq fun o ho hkeep => ?_
    rw [Equiv.swap_apply_def] at hkeep ⊢
    split_ifs at hkeep ⊢ with hfi hfj
    · rw [hfi]
      exact hlay.swapPages_left hij hs ho hkeep
    · rw [hfj]
      exact hlay.swapPages_right hij hs ho hkeep
    · exact hlay.swapPages_of_ne hij hs ho hfi hfj
  obtain ⟨hi, hj⟩ := swapPages_lt hij hs
  have hkey : (s'.frames[f]?).bind SpaceNode.key =
      (s.frames[Equiv.swap i j f]?).bind SpaceNode.key := by
    obtain ⟨m, rfl⟩ := swapPages_eq_some hs
    have hmap := map_swapPages (g := SpaceNode.key) (fun _ _ => rfl) hi hj f
    rw [Equiv.swap_apply_def]
    have hbind := congrArg (Option.bind · id) hmap
    rwa [Option.bind_map, Option.bind_map] at hbind
  have hsize : s'.pageSize = s.pageSize := by
    obtain ⟨m, rfl⟩ := swapPages_eq_some hs
    rfl
  rw [framePage, framePage, hkey, hsize, hbytes]

/-- Taking a free frame does not change the other pages. -/
theorem framePage_takeFrame {f : ℕ} (hne : f ≠ n) (hlay : s.Layout)
    (hs : s.takeFrame pid n junk = some s') : s'.framePage f = s.framePage f := by
  have hbytes : fixedBytes (s'.page f) s.pageSize = fixedBytes (s.page f) s.pageSize :=
    fixedBytes_eq fun o ho _ => page_takeFrame hne hlay hs ⟨Nat.zero_le o, ho⟩
  obtain ⟨g, -, rfl⟩ := Option.map_eq_some_iff.mp hs
  rw [framePage, framePage, hbytes, List.getElem?_modify_ne _ _ (Ne.symm hne)]

section Restore

variable {res : SpaceNode} {r : ℕ} {swap : PageTable} {slots : ℕ → Memory}

theorem restore_eq_some (hs : s.restore res r order swap slots = some s') :
    s'.swap = swap.modify r SpaceNode.release ∧ s'.slots = slots ∧ s'.pageSize = s.pageSize ∧
      s'.frames.length = s.frames.length := by
  obtain ⟨temp, -, rfl⟩ := Option.map_eq_some_iff.mp hs
  exact ⟨rfl, rfl, rfl, List.length_modify ..⟩

/-- Filling the first frame does not change the other pages. -/
theorem framePage_restore_of_ne {f : ℕ} (hlay : s.Layout) (hsize : res.size = s.pageSize)
    (hs : s.restore res r order swap slots = some s') (hf : f ≠ 0) :
    s'.framePage f = s.framePage f := by
  obtain ⟨temp, htemp, rfl⟩ := Option.map_eq_some_iff.mp hs
  have hapart := s.frameAddress_apart hf
  have hbytes : fixedBytes (view (paste s.bytes (s.base + temp.start) (slots r) res.size)
      (s.frameAddress f)) s.pageSize = fixedBytes (s.page f) s.pageSize := by
    refine fixedBytes_eq fun o ho _ => paste_eqOn _ _ _ _ fun hx => ?_
    rw [hlay.base_add_start htemp, hsize] at hx
    have hx₁ : s.frameAddress 0 ≤ s.frameAddress f + o := hx.1
    have hx₂ : s.frameAddress f + o < s.frameAddress 0 + s.pageSize := hx.2
    omega
  rw [framePage, framePage, ← hbytes, List.getElem?_modify_ne _ _ (Ne.symm hf)]
  rfl

/-- The page of the slot is in the first frame. -/
theorem framePage_restore_zero {temp : SpaceNode} (hlay : s.Layout) (hsize : res.size = s.pageSize)
    (hs : s.restore res r order swap slots = some s') (htemp : s.frames[0]? = some temp)
    (hused : temp.free = false) :
    s'.framePage 0 = some ((temp.pid, order), fixedBytes (slots r) s.pageSize) := by
  rw [restore, htemp, Option.map_some] at hs
  obtain rfl := Option.some.inj hs
  have hbytes : fixedBytes (view (paste s.bytes (s.base + temp.start) (slots r) res.size)
      (s.frameAddress 0)) s.pageSize = fixedBytes (slots r) s.pageSize := by
    refine fixedBytes_eq fun o ho _ => ?_
    rw [view, hlay.base_add_start htemp, hsize]
    exact paste_apply _ ho
  rw [framePage, ← hbytes, List.getElem?_modify, htemp]
  simp only [if_true, Option.map_eq_map, Option.map_some, Option.bind_some, SpaceNode.key, hused]
  rfl

end Restore

/-! ### Swapping in -/

/-- A copy of the swap file without the page of the slot `r`. -/
theorem slotPage_release {r : ℕ} {slot : SpaceNode} (hslot : s.swap[r]? = some slot)
    (hused : slot.free = false) (hswap : s'.swap = s.swap.modify r SpaceNode.release)
    (hslots : s'.slots = s.slots) (hsize : s'.pageSize = s.pageSize) :
    (((slot.pid, slot.order), fixedBytes (s.slots r) s.pageSize) ::
      (List.range s.swap.length).filterMap s'.slotPage).Perm
      ((List.range s.swap.length).filterMap s.slotPage) := by
  have hr := (List.getElem?_eq_some_iff.mp hslot).1
  have hold : s.slotPage r = some ((slot.pid, slot.order), fixedBytes (s.slots r) s.pageSize) := by
    rw [slotPage, hslot]
    simp [SpaceNode.key, hused]
  have hnew : s'.slotPage r = none := by
    rw [slotPage, hswap, List.getElem?_modify, hslot]
    simp [SpaceNode.key, SpaceNode.release]
  have hother (k : ℕ) (hk : k ≠ r) : s'.slotPage k = s.slotPage k := by
    rw [slotPage, slotPage, hswap, hslots, hsize, List.getElem?_modify_ne _ _ (Ne.symm hk)]
  have hp := filterMap_range_perm hr hother
  rwa [hold, hnew] at hp

/-- The frames after a free frame was taken, brought to the front and filled from the slot `r`. -/
theorem framePage_swapIn {res f : SpaceNode} {r : ℕ} {swap : PageTable} {slots : ℕ → Memory}
    (hlay : s.Layout) (hf : s.frames[n]? = some f) (hfree : f.free = true)
    {s₂ : VMState} (htake : s.takeFrame pid n junk = some s₁) (hswap : s₁.swapPages 0 n = some s₂)
    (hs : s₂.restore res r order swap slots = some s') (hsize : res.size = s.pageSize) :
    s'.framePage 0 = some ((pid, order), fixedBytes (slots r) s.pageSize) ∧
      ((List.range s.frames.length).filterMap s'.framePage).Perm
        (((pid, order), fixedBytes (slots r) s.pageSize) ::
          (List.range s.frames.length).filterMap s.framePage) := by
  have hn := (List.getElem?_eq_some_iff.mp hf).1
  have hlay₁ := hlay.takeFrame htake
  have hlay₂ := hlay₁.swapPages hswap
  obtain ⟨q, t, hq, hpid, hused, -⟩ := occupied_takeFrame hf hfree htake hswap
  have hsize₂ : s₂.pageSize = s.pageSize := by
    obtain ⟨m, rfl⟩ := takeFrame_swapPages_pages htake hswap
    rfl
  have hzero : s'.framePage 0 = some ((pid, order), fixedBytes (slots r) s.pageSize) := by
    rw [framePage_restore_zero hlay₂ (hsize.trans hsize₂.symm) hs (by rw [hq]; rfl) hused, hpid,
      hsize₂]
  have hother (i : ℕ) (hi : i ≠ 0) : s'.framePage i = s.framePage (Equiv.swap 0 n i) := by
    rw [framePage_restore_of_ne hlay₂ (hsize.trans hsize₂.symm) hs hi,
      framePage_swapPages hlay₁ hswap, framePage_takeFrame ?_ hlay htake]
    rw [Ne, Equiv.swap_apply_eq_iff, Equiv.swap_apply_right]
    exact hi
  have hnone : s.framePage (Equiv.swap 0 n 0) = none := by
    rw [Equiv.swap_apply_left, framePage, hf]
    simp [SpaceNode.key, hfree]
  have hp := filterMap_range_perm (Nat.zero_lt_of_lt hn) hother
  rw [hnone, hzero] at hp
  refine ⟨hzero, hp.trans (List.Perm.cons _ (filterMap_range_comp_perm fun i => ?_))⟩
  rw [Equiv.swap_apply_def]
  split_ifs <;> omega

theorem isStored_iff {m : SpaceNode} :
    isStored pid order m = true ↔ m.pid = pid ∧ m.order = order ∧ m.free = false := by
  simp [isStored, and_assoc]

/-- The slot that `findPageInSwap` finds. -/
theorem exists_isStored (h : (pid, order) ∈ keys s.swap) :
    ∃ r res, s.swap.findIdx? (isStored pid order) = some r ∧ s.swap[r]? = some res ∧
      res.pid = pid ∧ res.order = order ∧ res.free = false := by
  obtain ⟨m, hm, hkey⟩ := List.mem_filterMap.mp h
  have hstored : isStored pid order m = true := by
    rw [SpaceNode.key] at hkey
    split_ifs at hkey with hfree
    obtain ⟨hpid, horder⟩ := Prod.mk.inj (Option.some.inj hkey)
    exact isStored_iff.mpr ⟨hpid, horder, Bool.eq_false_iff.mpr hfree⟩
  cases hr : s.swap.findIdx? (isStored pid order) with
  | none =>
    rw [List.findIdx?_eq_none_iff.mp hr m hm] at hstored
    cases hstored
  | some r =>
    obtain ⟨hlt, hres, -⟩ := List.findIdx?_eq_some_iff_getElem.mp hr
    exact ⟨r, s.swap[r], rfl, List.getElem?_eq_getElem hlt, isStored_iff.mp hres⟩

/-- With a free frame, the page is brought back and the others are kept. -/
theorem findPageInSwap_of_free {r : ℕ} {res : SpaceNode} (hlay : s.Layout)
    (hn : findFreePage s.frames = some n)
    (hr : s.swap.findIdx? (isStored pid order) = some r) (hres : s.swap[r]? = some res)
    (hpid : res.pid = pid) (horder : res.order = order) (hused : res.free = false)
    (hsize : res.size = s.pageSize) :
    ∃ s', s.findPageInSwap pid order junk = some (some 0, s') ∧
      s'.storedPages.Perm s.storedPages ∧
      s'.framePage 0 = some ((pid, order), fixedBytes (s.slots r) s.pageSize) := by
  obtain ⟨f, hf, hfree⟩ := findFreePage_eq_some hn
  obtain ⟨s₁, s₂, htake, hswap⟩ :=
    hlay.exists_takeFrame pid junk (List.getElem?_eq_some_iff.mp hf).1
  obtain ⟨q, t, hq, -⟩ := occupied_takeFrame hf hfree htake hswap
  obtain ⟨s', hs'⟩ : ∃ s', s₂.restore res r order s.swap s.slots = some s' := by
    rw [restore, hq]
    exact ⟨_, rfl⟩
  obtain ⟨hzero, hframes⟩ := framePage_swapIn hlay hf hfree htake hswap hs' hsize
  have hget : s.getFreePage pid junk = some (true, s₂) := by
    rw [getFreePage, getFreePageLoop, hn]
    dsimp only
    rw [htake, Option.bind_some, hswap]
    rfl
  refine ⟨s', ?_, ?_, hzero⟩
  · rw [findPageInSwap, hr]
    dsimp only
    rw [hres, Option.bind_some, hget, Option.bind_some]
    dsimp only
    rw [if_pos rfl, hs']
    rfl
  · obtain ⟨hswap', hslots', hsize', hlen'⟩ := restore_eq_some hs'
    obtain ⟨m, rfl⟩ := takeFrame_swapPages_pages htake hswap
    have hslots := slotPage_release hres hused hswap' hslots' hsize'
    rw [hpid, horder] at hslots
    rw [storedPages, storedPages, hlen', hswap', List.length_modify]
    dsimp only
    rw [length_takePage pid n s.pages]
    exact (hframes.append_right _).trans (List.perm_middle.symm.trans (hslots.append_left _))

/-- The keys of the pages. -/
theorem map_fst_storedPages (s : VMState) :
    s.storedPages.map Prod.fst = keys s.frames ++ keys s.swap := by
  have hmap (t : PageTable) (b : ℕ → List UInt8) :
      (((List.range t.length).filterMap fun i =>
        ((t[i]?).bind SpaceNode.key).map fun key => (key, b i)).map Prod.fst) = keys t := by
    induction t generalizing b with
    | nil => rfl
    | cons a t ih =>
      rw [List.length_cons, List.range_succ_eq_map, List.filterMap_cons, List.filterMap_map, keys,
        List.filterMap_cons]
      have := ih fun i => b (i + 1)
      cases hkey : a.key with
      | none => simpa [hkey, keys] using this
      | some key => simpa [hkey, keys] using this
  rw [storedPages, List.map_append]
  exact congrArg₂ _ (hmap s.frames _) (hmap s.swap _)

theorem length_storedPages (s : VMState) :
    s.storedPages.length = (keys s.frames).length + (keys s.swap).length := by
  rw [← List.length_map, map_fst_storedPages, List.length_append]

/-- With a full memory, the page that was moved to the swap file is lost. -/
theorem length_findPageInSwap_of_full {r : ℕ} {res : SpaceNode} {f : Option ℕ}
    (hfull : ∀ n ∈ s.frames, n.free = false)
    (hr : s.swap.findIdx? (isStored pid order) = some r) (hres : s.swap[r]? = some res)
    (hused : res.free = false) (hs' : s.findPageInSwap pid order junk = some (f, s')) :
    s'.storedPages.length < s.storedPages.length := by
  rw [findPageInSwap, hr] at hs'
  dsimp only at hs'
  rw [hres, Option.bind_some] at hs'
  obtain ⟨⟨ok, s₁⟩, hget, hs'⟩ := Option.bind_eq_some_iff.mp hs'
  dsimp only at hs'
  split_ifs at hs'
  obtain ⟨s₂, hrestore, h⟩ := Option.map_eq_some_iff.mp hs'
  obtain rfl := (Prod.mk.inj h).2
  obtain ⟨hswap, -, -, hlen⟩ := restore_eq_some hrestore
  have hlen₁ : s₁.frames.length = s.frames.length := length_getFreePage (getFreePage_pages hget)
  -- no more frames can be occupied than before, and one slot less is
  have hframes : (keys s₂.frames).length ≤ (keys s.frames).length := by
    have hall : keys s.frames = s.frames.map fun n => (n.pid, n.order) := by
      refine List.filterMap_eq_map_iff_forall_eq_some.mpr fun n hn => ?_
      rw [SpaceNode.key, hfull n hn]
      rfl
    calc (keys s₂.frames).length ≤ s₂.frames.length := List.length_filterMap_le ..
      _ = s.frames.length := hlen.trans hlen₁
      _ = (keys s.frames).length := by rw [hall, List.length_map]
  have hslots := (keys_modify_perm hres SpaceNode.release).length_eq
  rw [SpaceNode.key, hused, ← hswap] at hslots
  rw [length_storedPages, length_storedPages]
  have hslots' : (keys s₂.swap).length + 1 = (keys s.swap).length := by
    simpa [SpaceNode.key, SpaceNode.release] using hslots
  omega

/-- **Swapping in a page.** For a page in the swap file, `findPageInSwap` keeps all pages and
returns a frame with the page exactly when a frame is free. -/
theorem findPageInSwap_keeps_pages (hlay : s.Layout) (hsizes : ∀ n ∈ s.swap, n.size = s.pageSize)
    (hstored : (pid, order) ∈ keys s.swap) (junk : ℕ → UInt8) :
    (∃ f s' bytes, s.findPageInSwap pid order junk = some (some f, s') ∧
        s'.storedPages.Perm s.storedPages ∧
        (∃ k, s.slotPage k = some ((pid, order), bytes)) ∧
        s'.framePage f = some ((pid, order), bytes)) ↔
      ∃ n ∈ s.frames, n.free = true := by
  obtain ⟨r, res, hr, hres, hpid, horder, hused⟩ := exists_isStored hstored
  have hsize := hsizes res (List.mem_iff_getElem?.mpr ⟨r, hres⟩)
  constructor
  · rintro ⟨f, s', bytes, hs', hperm, -⟩
    by_contra hfree
    have hfull : ∀ n ∈ s.frames, n.free = false := fun n hn =>
      Bool.eq_false_iff.mpr fun h => hfree ⟨n, hn, h⟩
    exact absurd hperm.length_eq (length_findPageInSwap_of_full hfull hr hres hused hs').ne
  · rintro ⟨n, hn, hfree⟩
    cases hfound : findFreePage s.frames with
    | none =>
      rw [findFreePage_eq_none hfound n hn] at hfree
      cases hfree
    | some i =>
      obtain ⟨s', hs', hperm, hzero⟩ :=
        findPageInSwap_of_free hlay hfound hr hres hpid horder hused hsize
      refine ⟨0, s', _, hs', hperm, ⟨r, ?_⟩, hzero⟩
      rw [slotPage, hres]
      simp [SpaceNode.key, hused, hpid, horder]

/-- The page of process 1 is brought back to the free frame. -/
theorem findPageInSwap_keeps_pages_small :
    ∃ f s' bytes, (smallState [(2, 1), (0, 1)] [(1, 1), (2, 2)]).findPageInSwap 1 1 (fun _ => 0) =
        some (some f, s') ∧ s'.framePage f = some ((1, 1), bytes) := by
  have hsizes : ∀ n ∈ (smallState [(2, 1), (0, 1)] [(1, 1), (2, 2)]).swap, n.size = 4096 := by
    decide
  have hstored : (1, 1) ∈ keys (smallState [(2, 1), (0, 1)] [(1, 1), (2, 2)]).swap := by decide
  have hfree : ∃ n ∈ (smallState [(2, 1), (0, 1)] [(1, 1), (2, 2)]).frames, n.free = true := by
    decide
  obtain ⟨f, s', bytes, hs', -, -, hpage⟩ :=
    (findPageInSwap_keeps_pages (layout_smallState _ _) hsizes hstored fun _ => 0).mpr hfree
  exact ⟨f, s', bytes, hs', hpage⟩

/-- The memory is full. The page of process 3 is moved to the swap file to make room for the page of
process 1; after that it is in no frame and in no slot. -/
theorem evicted_page_lost :
    (3, 1) ∈ (smallState [(2, 1), (3, 1)] [(1, 1), (0, 0)]).storedPages.map Prod.fst ∧
      ∃ s', (smallState [(2, 1), (3, 1)] [(1, 1), (0, 0)]).findPageInSwap 1 1 (fun _ => 0) =
          some (some 0, s') ∧
        (3, 1) ∉ s'.storedPages.map Prod.fst ∧
        ¬ s'.storedPages.Perm (smallState [(2, 1), (3, 1)] [(1, 1), (0, 0)]).storedPages := by
  have hbefore :
      (3, 1) ∈ (smallState [(2, 1), (3, 1)] [(1, 1), (0, 0)]).storedPages.map Prod.fst := by
    rw [map_fst_storedPages]
    decide
  have hend : ((smallState [(2, 1), (3, 1)] [(1, 1), (0, 0)]).findPageInSwap 1 1 (fun _ => 0)).map
      (fun x => (x.1, keys x.2.frames ++ keys x.2.swap)) = some (some 0, [(1, 1), (2, 1)]) := by
    decide +kernel
  obtain ⟨⟨f, s'⟩, hs', hproj⟩ := Option.map_eq_some_iff.mp hend
  obtain ⟨rfl, hkeys⟩ := Prod.mk.inj hproj
  have hafter : (3, 1) ∉ s'.storedPages.map Prod.fst := by
    rw [map_fst_storedPages, hkeys]
    decide
  exact ⟨hbefore, s', hs', hafter, fun hperm => hafter ((hperm.map Prod.fst).mem_iff.mpr hbefore)⟩

end VMState

end OSDesign.VM
