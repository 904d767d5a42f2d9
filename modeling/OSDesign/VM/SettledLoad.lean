import OSDesign.VM.Reservation

/-!
# Loading settled pages

When all pages of a process but the last one are in place as soon as its first page has been
exchanged with the first frame, `loadProcessPages` makes two exchanges: this one, and one that
brings the last page to its place (`VMState.load_settled`). In between it only resets clocks.

## Main definitions

* `VMState.ClockEq`: two states that differ in clocks only.

## Main results

* `VMState.load_settled`.
-/

namespace OSDesign.VM

open ByteMemory

/-! ### Clocks -/

section Clocks

variable {t t' : PageTable}

theorem map_touch_swapPages (i j : ℕ) (t : PageTable) :
    (swapPages i j t).map SpaceNode.touch = swapPages i j (t.map SpaceNode.touch) := by
  rw [swapPages, swapPages]
  split_ifs with hij
  · rfl
  · rw [List.getElem?_map, List.getElem?_map]
    cases t[i]? with
    | none => rfl
    | some p =>
      cases t[j]? with
      | none => rfl
      | some q =>
        show ((t.set i (q.withLinks p)).set j (p.withLinks q)).map SpaceNode.touch = _
        rw [List.map_set, List.map_set]
        rfl

theorem ClocksOnly.swapPages (h : ClocksOnly t t') (i j : ℕ) :
    ClocksOnly (swapPages i j t) (swapPages i j t') := by
  rw [ClocksOnly, map_touch_swapPages, map_touch_swapPages, h]

/-- Clocks do not matter when a page is looked for. -/
theorem ClocksOnly.findPage_fst (h : ClocksOnly t t') (pid : ℕ) (order : ℤ) :
    (findPage pid order t').1 = (findPage pid order t).1 := by
  have hfst (l : PageTable) : (findPage pid order l).1 =
      (l.map SpaceNode.touch).findIdx? (SpaceNode.isPage pid order) := by
    rw [List.findIdx?_map]
    show (findPage pid order l).1 = l.findIdx? (SpaceNode.isPage pid order)
    rw [findPage]
    split <;> rename_i heq <;> exact heq.symm
  rw [hfst, hfst, h]

theorem ClocksOnly.getElem? {i : ℕ} {n' : SpaceNode} (h : ClocksOnly t t') (hn : t'[i]? = some n') :
    ∃ n, t[i]? = some n ∧ n.touch = n'.touch := by
  have hget := congrArg (·[i]?) h
  simp only [List.getElem?_map, hn, Option.map_some] at hget
  exact Option.map_eq_some_iff.mp hget.symm

end Clocks

namespace VMState

/-- The states differ in clocks only. -/
def ClockEq (s s' : VMState) : Prop := ClocksOnly s.frames s'.frames ∧ s' = s.withFrames s'.frames

variable {s s' s₁ s₂ : VMState} {pid k : ℕ}

theorem ClockEq.refl (s : VMState) : ClockEq s s := ⟨.refl _, rfl⟩

theorem ClockEq.trans (h : ClockEq s s₁) (h' : ClockEq s₁ s₂) : ClockEq s s₂ :=
  ⟨h.1.trans h'.1, by rw [h'.2, h.2]; rfl⟩

theorem clockEq_findPage (s : VMState) (pid : ℕ) (order : ℤ) :
    ClockEq s (s.findPage pid order).2 :=
  ⟨clocksOnly_findPage .., rfl⟩

/-- Clocks do not matter for an exchange. -/
theorem ClockEq.swapPages {i j : ℕ} (h : ClockEq s s') (hs : s.swapPages i j = some s₁) :
    ∃ s₂, s'.swapPages i j = some s₂ ∧ ClockEq s₁ s₂ := by
  obtain ⟨hclocks, heq⟩ := h
  rw [VMState.swapPages] at hs ⊢
  split_ifs at hs ⊢ with hij
  · obtain rfl := Option.some.inj hs
    exact ⟨s', rfl, hclocks, heq⟩
  · obtain ⟨p1, hp1, hs⟩ := Option.bind_eq_some_iff.mp hs
    obtain ⟨p2, hp2, hs⟩ := Option.bind_eq_some_iff.mp hs
    have hlen : s'.frames.length = s.frames.length := by
      have := congrArg List.length hclocks
      rwa [List.length_map, List.length_map] at this
    have hget {a : ℕ} {p : SpaceNode} (hp : s.frames[a]? = some p) :
        ∃ p', s'.frames[a]? = some p' ∧ p'.start = p.start ∧ p'.size = p.size := by
      have hlt := (List.getElem?_eq_some_iff.mp hp).1
      have hp' := List.getElem?_eq_getElem (show a < s'.frames.length by omega)
      obtain ⟨n, hn, htouch⟩ := hclocks.getElem? hp'
      rw [hp, Option.some.injEq] at hn
      subst hn
      exact ⟨_, hp', (congrArg SpaceNode.start htouch).symm, (congrArg SpaceNode.size htouch).symm⟩
    obtain ⟨p1', hp1', hstart1, hsize1⟩ := hget hp1
    obtain ⟨p2', hp2', hstart2, hsize2⟩ := hget hp2
    obtain ⟨m₁, hm₁, hs⟩ := Option.bind_eq_some_iff.mp hs
    obtain ⟨m₂, hm₂, rfl⟩ := Option.map_eq_some_iff.mp hs
    have hbase : s'.base = s.base := by rw [heq]; rfl
    have hpageSize : s'.pageSize = s.pageSize := by rw [heq]; rfl
    have hbytes : s'.bytes = s.bytes := by rw [heq]; rfl
    refine ⟨{ s' with frames := VM.swapPages i j s'.frames, bytes := m₂ }, ?_,
      hclocks.swapPages i j, ?_⟩
    · rw [hp1', hp2', Option.bind_some, Option.bind_some, hstart1, hstart2, hsize1, hsize2, hbase,
        hpageSize, hbytes, hm₁, Option.bind_some, hm₂, Option.map_some]
    · rw [heq]
      rfl

/-! ### The loop -/

theorem Layout.clockEq (hlay : s.Layout) (h : ClockEq s s') : s'.Layout := by
  rw [h.2]
  exact hlay.clocksOnly h.1

theorem holds_clockEq (h : ClockEq s s') (f : ℕ) (order : ℤ) :
    Holds s'.frames f pid order ↔ Holds s.frames f pid order :=
  holds_congr (h.1.map_eq fun _ => rfl) f

/-- The page goes behind the frame `p1`. -/
theorem Layout.makeContiguous_eq {p1 p2 : ℕ} (hlay : s.Layout) (hne : p1 ≠ p2)
    (hlen : p1 + 1 < s.frames.length) : s.makeContiguous p1 p2 = s.swapPages (p1 + 1) p2 := by
  have hmake := hlay.contiguous.makeContiguous_eq (Nat.zero_lt_of_lt hlay.large) hne hlen
  rw [VM.makeContiguous, if_neg hne] at hmake
  obtain ⟨c, hc, -⟩ := Option.map_eq_some_iff.mp hmake
  obtain rfl := hlay.contiguous.getContiguousPage (Nat.zero_lt_of_lt hlay.large) hc
  rw [makeContiguous, if_neg hne, hc, Option.bind_some]

/-- The loop of `loadProcessPages` with the first `m` pages in place, all pages but the last one
being there: it exchanges the last page with the frame in its place. -/
theorem loadLoop_settled {q m fuel : ℕ} (hlay : s.Layout) (howns : Owns pid k s.frames)
    (hm : 1 ≤ m) (hmk : m < k) (hfuel : k ≤ m + fuel) (hin : InPlace pid (k - 1) s.frames)
    (hq : Holds s.frames q pid k) (hswap : s.swapPages (k - 1) q = some s₂) :
    ∃ s', s.loadLoop pid fuel (m - 1) (s.findPage pid (m + 1)).1 (m + 2) = some s' ∧
      ClockEq s₂ s' := by
  induction fuel generalizing s s₂ m with
  | zero => omega
  | succ fuel ih =>
    have hlen : m < s.frames.length := hmk.trans_le howns.le_length
    obtain ⟨p, hp, hhold⟩ := howns.findPage (o := m + 1) (by omega) (by omega)
    have hne : m - 1 ≠ p := by
      rintro rfl
      have := (hin (m - 1) (by omega)).order_eq hhold
      omega
    have hmake := hlay.makeContiguous_eq hne (by omega)
    rw [Nat.sub_add_cancel hm] at hmake
    rw [show (s.findPage pid (m + 1)).1 = some p from hp, loadLoop, hmake]
    rcases Nat.lt_or_eq_of_le (Nat.succ_le_of_lt hmk) with hlt | heq
    · -- the page is in place
      obtain rfl : p = m := howns.holds_unique hhold (hin m (by omega))
      rw [swapPages, if_pos rfl, Option.bind_some]
      have hclock := clockEq_findPage s pid (p + 2)
      obtain ⟨s₃, hswap₃, hclock₃⟩ := hclock.swapPages hswap
      have hpage := map_page_findPage pid (p + 2) s.frames
      obtain ⟨s', hs', hclock'⟩ := ih (s := (s.findPage pid (p + 2)).2) (m := p + 1)
        (hlay.clockEq hclock) (howns.of_perm (.of_eq hpage)) (by omega) hlt (by omega)
        ((inPlace_congr hpage _).mpr hin) ((holds_clockEq hclock q k).mpr hq) hswap₃
      refine ⟨s', ?_, hclock₃.trans hclock'⟩
      have hfst : ((s.findPage pid (p + 2)).2.findPage pid ((p + 1 : ℕ) + 1)).1 =
          (s.findPage pid (p + 2)).1 := by
        rw [show ((p + 1 : ℕ) : ℤ) + 1 = p + 2 by omega]
        exact hclock.1.findPage_fst pid (p + 2)
      rw [hfst, show ((p + 1 : ℕ) : ℤ) + 2 = p + 2 + 1 by omega, Nat.add_sub_cancel] at hs'
      exact hs'
    · -- the page is the last one
      obtain rfl : m = k - 1 := by omega
      have hpq : p = q := by
        refine howns.holds_unique hhold ?_
        rwa [show ((k - 1 : ℕ) : ℤ) + 1 = k by omega]
      rw [hpq, hswap, Option.bind_some]
      have howns₂ : Owns pid k s₂.frames := by
        obtain ⟨m, rfl⟩ := swapPages_eq_some hswap
        exact howns.of_perm (map_page_swapPages_perm ..)
      have hnone : (s₂.findPage pid ((k - 1 : ℕ) + 2)).1 = none := howns₂.findPage_none (by omega)
      refine ⟨_, ?_, clockEq_findPage s₂ pid ((k - 1 : ℕ) + 2)⟩
      rw [hnone]
      cases fuel <;> rfl

/-- **Loading settled pages.** Once the first page has been exchanged with the first frame, and all
pages but the last one are in place, it remains to exchange the last one with the frame in its
place. -/
theorem load_settled {p q : ℕ} (hlay : s.Layout) (howns : Owns pid k s.frames) (hk : 1 ≤ k)
    (hp : Holds s.frames p pid 1) (hswap : s.swapPages 0 p = some s₁)
    (hin : InPlace pid (k - 1) s₁.frames) (hq : Holds s₁.frames q pid k)
    (hswap₂ : s₁.swapPages (k - 1) q = some s₂) :
    ∃ s', s.loadProcessPages pid = some s' ∧ ClockEq s₂ s' := by
  obtain ⟨p', hp', hhold⟩ := howns.findPage (o := 1) le_rfl (by omega)
  obtain rfl := howns.holds_unique hhold hp
  have hclock := clockEq_findPage s pid 1
  obtain ⟨s₃, hswap₃, hclock₃⟩ := hclock.swapPages hswap
  obtain ⟨s₄, hswap₄, hclock₄⟩ := hclock₃.swapPages hswap₂
  have howns₁ : Owns pid k s₁.frames := by
    obtain ⟨m, rfl⟩ := swapPages_eq_some hswap
    exact howns.of_perm (map_page_swapPages_perm ..)
  have howns₃ : Owns pid k s₃.frames := howns₁.of_perm (.of_eq (hclock₃.1.map_eq fun _ => rfl))
  have hlay₃ : s₃.Layout := (hlay.swapPages hswap).clockEq hclock₃
  have hclock₅ := clockEq_findPage s₃ pid 2
  obtain ⟨s₅, hswap₅, hclock₆⟩ := hclock₅.swapPages hswap₄
  have hstart : s.loadProcessPages pid =
      (s₃.findPage pid 2).2.loadLoop pid s₃.frames.length 0 (s₃.findPage pid 2).1 3 := by
    rw [loadProcessPages, show (s.findPage pid 1).1 = some p' from hp', Option.bind_some, hswap₃,
      Option.bind_some]
  rw [hstart]
  rcases Nat.lt_or_eq_of_le hk with hlt | rfl
  · have hpage := map_page_findPage pid 2 s₃.frames
    have hin₃ := (inPlace_congr (hclock₃.1.map_eq fun _ => rfl) (k - 1)).mpr hin
    obtain ⟨s', hs', hclock'⟩ := loadLoop_settled (s := (s₃.findPage pid 2).2) (m := 1)
      (hlay₃.clockEq hclock₅) (howns₃.of_perm (.of_eq hpage)) le_rfl hlt
      (howns₃.le_length.trans (Nat.le_add_left ..)) ((inPlace_congr hpage _).mpr hin₃)
      ((holds_clockEq hclock₅ q k).mpr ((holds_clockEq hclock₃ q k).mpr hq)) hswap₅
    refine ⟨s', ?_, (hclock₄.trans hclock₆).trans hclock'⟩
    rw [← hs']
    exact congrArg (fun p => (s₃.findPage pid 2).2.loadLoop pid s₃.frames.length 0 p 3)
      (hclock₅.1.findPage_fst pid 2).symm
  · -- there is no other page than the first one
    have hfirst : Holds s₁.frames 0 pid 1 := by
      obtain ⟨m, rfl⟩ := swapPages_eq_some hswap
      exact holds_swapPages_left (Nat.zero_lt_of_lt hp.lt_length) hp
    obtain rfl := howns₁.holds_unique hfirst hq
    rw [swapPages, if_pos rfl, Option.some.injEq] at hswap₂
    subst hswap₂
    have hnone : (s₃.findPage pid 2).1 = none := howns₃.findPage_none (by norm_num)
    refine ⟨_, ?_, hclock₃.trans hclock₅⟩
    rw [hnone]
    cases s₃.frames.length <;> rfl

end VMState

end OSDesign.VM
