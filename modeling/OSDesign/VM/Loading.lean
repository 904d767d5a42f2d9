import Mathlib.Tactic
import OSDesign.VM.Placement

/-!
# Loading the pages of a process

`loadProcessPages` only permutes the pages, and it brings the first two pages of the process to the
first two frames, from any page table (`load_permutes`). The other pages come to their places when
they are settled (`load_in_place`). In general they do not: after the page `i - 1` has been moved,
the loop takes the frame in which it was before for the frame in which it is
(`third_page_misplaced`).

## Main results

* `load_permutes`, `load_in_place`, `third_page_misplaced`.
-/

namespace OSDesign.VM

variable {t t' : PageTable} {pid pageSize : ℕ}

/-! ### The first two pages -/

/-- The rounds of the loop from the second one on leave the first two pages where they are: the page
that is looked for is a later one, and it goes behind a frame that is not the first. -/
theorem holds_loadLoop (hsize : 0 < pageSize) {fuel : ℕ} :
    ∀ {p1 : ℕ} {p2 : Option ℕ} {i : ℤ} {t : PageTable}, Contiguous pageSize t →
      (∀ n ∈ t, n.pid = pid → n.free = false) → Holds t 0 pid 1 → Holds t 1 pid 2 → p1 ≠ 0 → 4 ≤ i →
      (∀ p, p2 = some p → Holds t p pid (i - 1)) →
      loadLoop pageSize pid fuel p1 p2 i t = some t' → Holds t' 0 pid 1 ∧ Holds t' 1 pid 2 := by
  induction fuel with
  | zero =>
    intro p1 p2 i t _ _ h₀ h₁ _ _ _ hload
    cases p2 with
    | none => exact Option.some.inj hload ▸ ⟨h₀, h₁⟩
    | some p => cases hload
  | succ fuel ih =>
    intro p1 p2 i t hcont hused h₀ h₁ hp1 hi hp2 hload
    cases p2 with
    | none => exact Option.some.inj hload ▸ ⟨h₀, h₁⟩
    | some p =>
      obtain ⟨t₁, hmake, hload⟩ := Option.bind_eq_some_iff.mp hload
      have hp := hp2 p rfl
      have hp₀ : p ≠ 0 := by
        rintro rfl
        have := h₀.order_eq hp
        omega
      have hp₁ : p ≠ 1 := by
        rintro rfl
        have := h₁.order_eq hp
        omega
      have hstep : Contiguous pageSize t₁ ∧ (∀ n ∈ t₁, n.pid = pid → n.free = false) ∧
          Holds t₁ 0 pid 1 ∧ Holds t₁ 1 pid 2 := by
        by_cases hne : p1 = p
        · rw [makeContiguous, if_pos hne] at hmake
          obtain rfl := Option.some.inj hmake
          exact ⟨hcont, hused, h₀, h₁⟩
        · obtain ⟨hlen, rfl⟩ := hcont.makeContiguous hsize hne hmake
          refine ⟨hcont.of_place (map_place_swapPages ..),
            forall_swapPages (P := fun n => n.pid = pid → n.free = false)
              (fun _ _ hq => hq) hused _ _,
            (holds_swapPages_of_ne hlen hp.lt_length (by omega) hp₀.symm).mpr h₀,
            (holds_swapPages_of_ne hlen hp.lt_length (by omega) hp₁.symm).mpr h₁⟩
      obtain ⟨hcont₁, hused₁, h₀₁, h₁₁⟩ := hstep
      have hpage := map_page_findPage pid i t₁
      refine ih (hcont₁.of_place (map_place_findPage ..))
        (forall_findPage (P := fun n => n.pid = pid → n.free = false) (fun _ hq => hq) hused₁ pid i)
        ((holds_congr hpage 0).mpr h₀₁) ((holds_congr hpage 1).mpr h₁₁) hp₀ (by omega)
        (fun q hq => (holds_congr hpage q).mpr ?_) hload
      rw [add_sub_cancel_right]
      exact holds_of_findPage hq hused₁

/-- The first round brings the second page to the second frame. -/
theorem holds_loadLoop_second (hsize : 0 < pageSize) {fuel : ℕ} {p2 : Option ℕ}
    (hcont : Contiguous pageSize t) (hused : ∀ n ∈ t, n.pid = pid → n.free = false)
    (h₀ : Holds t 0 pid 1) (hp2 : ∀ p, p2 = some p → Holds t p pid 2)
    (hload : loadLoop pageSize pid fuel 0 p2 3 t = some t') :
    Holds t' 0 pid 1 ∧ (p2 ≠ none → Holds t' 1 pid 2) := by
  cases p2 with
  | none =>
    obtain rfl : t = t' := by cases fuel <;> exact Option.some.inj hload
    exact ⟨h₀, fun hne => absurd rfl hne⟩
  | some p =>
    cases fuel with
    | zero => cases hload
    | succ fuel =>
      obtain ⟨t₁, hmake, hload⟩ := Option.bind_eq_some_iff.mp hload
      have hp := hp2 p rfl
      have hp₀ : 0 ≠ p := by
        rintro rfl
        have := h₀.order_eq hp
        omega
      obtain ⟨hlen, rfl⟩ := hcont.makeContiguous hsize hp₀ hmake
      have hused₁ := forall_swapPages (P := fun n => n.pid = pid → n.free = false)
        (fun _ _ hq => hq) hused (0 + 1) p
      have h₀₁ := (holds_swapPages_of_ne hlen hp.lt_length (by omega) hp₀).mpr h₀
      have h₁₁ : Holds (swapPages (0 + 1) p t) 1 pid 2 := holds_swapPages_left hlen hp
      have hpage := map_page_findPage pid 3 (swapPages (0 + 1) p t)
      obtain ⟨h₀', h₁'⟩ := holds_loadLoop hsize
        ((hcont.of_place (map_place_swapPages ..)).of_place (map_place_findPage ..))
        (forall_findPage (P := fun n => n.pid = pid → n.free = false) (fun _ hq => hq) hused₁ pid 3)
        ((holds_congr hpage 0).mpr h₀₁) ((holds_congr hpage 1).mpr h₁₁) hp₀.symm
        (show (4 : ℤ) ≤ 3 + 1 by omega)
        (fun q hq => (holds_congr hpage q).mpr (holds_of_findPage hq hused₁)) hload
      exact ⟨h₀', fun _ => h₁'⟩

/-- **Loading permutes.** From any page table in which free frames belong to nobody, if
`loadProcessPages` ends, then it has permuted the descriptors and left the frames where they are,
the first frame holds the first page, and the second frame the second page if there is one. -/
theorem load_permutes (hsize : 0 < pageSize) (hcont : Contiguous pageSize t)
    (hfree : ∀ n ∈ t, n.free = true → n.pid = 0) (hpid : 1 ≤ pid)
    (hload : loadProcessPages pageSize pid t = some t') :
    (t'.map SpaceNode.info).Perm (t.map SpaceNode.info) ∧
      t'.map SpaceNode.place = t.map SpaceNode.place ∧
      Holds t' 0 pid 1 ∧ ((pid, 2) ∈ keys t → Holds t' 1 pid 2) := by
  refine ⟨perm_loadProcessPages hload, map_place_loadProcessPages hload, ?_⟩
  have hused (n : SpaceNode) (hn : n ∈ t) (hp : n.pid = pid) : n.free = false := by
    by_contra hf
    have := hfree n hn (by simpa using hf)
    omega
  rw [loadProcessPages] at hload
  split at hload
  · cases hload
  rename_i p t₁ heq
  have hpage : t₁.map SpaceNode.page = t.map SpaceNode.page := by
    rw [← map_page_findPage pid 1 t, heq]
  have hplace : t₁.map SpaceNode.place = t.map SpaceNode.place := by
    rw [← map_place_findPage pid 1 t, heq]
  have hused₁ : ∀ n ∈ t₁, n.pid = pid → n.free = false := by
    have := forall_findPage (P := fun n => n.pid = pid → n.free = false)
      (fun _ hq => hq) hused pid 1
    rwa [heq] at this
  have hp : Holds t₁ p pid 1 :=
    (holds_congr hpage p).mpr (holds_of_findPage (congrArg Prod.fst heq) hused)
  have hlen := Nat.zero_lt_of_lt hp.lt_length
  have hused₂ := forall_swapPages (P := fun n => n.pid = pid → n.free = false)
    (fun _ _ hq => hq) hused₁ 0 p
  have hpage₂ := map_page_findPage pid 2 (swapPages 0 p t₁)
  obtain ⟨h₀, h₁⟩ := holds_loadLoop_second hsize
    (((hcont.of_place hplace).of_place (map_place_swapPages ..)).of_place (map_place_findPage ..))
    (forall_findPage (P := fun n => n.pid = pid → n.free = false) (fun _ hq => hq) hused₂ pid 2)
    ((holds_congr hpage₂ 0).mpr (holds_swapPages_left hlen hp))
    (fun q hq => (holds_congr hpage₂ q).mpr (holds_of_findPage hq hused₂)) hload
  refine ⟨h₀, fun hmem => h₁ fun hnone => (findPage_eq_none hnone).1 ?_⟩
  have hperm : ((swapPages 0 p t₁).map SpaceNode.page).Perm (t.map SpaceNode.page) :=
    (map_page_swapPages_perm 0 p t₁).trans (.of_eq hpage)
  obtain ⟨n, hn, hkey⟩ := List.mem_filterMap.mp hmem
  refine (HasPage.of_perm hperm).mpr ⟨n, hn, ?_⟩
  rw [SpaceNode.key] at hkey
  split_ifs at hkey
  exact Prod.mk.inj (Option.some.inj hkey)

/-- The page table with frames of 4096 bytes that belong to the given processes, with the given
orders; the frames of process 0 are free. -/
def smallTable (pages : List (ℕ × ℤ)) : PageTable :=
  pages.mapIdx fun i x =>
    { freeNode 4096 (memoryStart + i * 4096) 0 x.2 with
      pid := x.1
      free := x.1 == 0
      next := if i + 1 < pages.length then some (i + 1) else none
      prev := if i = 0 then none else some (i - 1) }

theorem contiguous_smallTable (pages : List (ℕ × ℤ)) : Contiguous 4096 (smallTable pages) := by
  intro i n hn
  rw [smallTable, List.getElem?_mapIdx] at hn
  obtain ⟨x, -, rfl⟩ := Option.map_eq_some_iff.mp hn
  rfl

/-- Three pages of process 1 and one of process 2. -/
theorem load_permutes_small :
    ∃ t', loadProcessPages 4096 1 (smallTable [(2, 1), (1, 3), (1, 1), (1, 2)]) = some t' ∧
      Holds t' 0 1 1 ∧ Holds t' 1 1 2 := by
  have hend : (loadProcessPages 4096 1
      (smallTable [(2, 1), (1, 3), (1, 1), (1, 2)])).isSome = true := by decide
  obtain ⟨t', ht'⟩ := Option.isSome_iff_exists.mp hend
  obtain ⟨-, -, h₀, h₁⟩ := load_permutes (by decide) (contiguous_smallTable _) (by decide)
    le_rfl ht'
  exact ⟨t', ht', h₀, h₁ (by decide)⟩

/-! ### All pages -/

/-- **Loading pages in place.** A process that owns the pages `1, ..., k`, whose pages from the
second to the last but one are in place when its first page has been exchanged with the first frame,
has all its pages in place after `loadProcessPages`. -/
theorem load_in_place {k : ℕ} (hsize : 0 < pageSize) (hcont : Contiguous pageSize t) (hk : 1 ≤ k)
    (howns : Owns pid k t) (hset : Settled pid k t) :
    ∃ t', loadProcessPages pageSize pid t = some t' ∧
      ∀ i : ℕ, 1 ≤ i → i ≤ k → Holds t' (i - 1) pid i := by
  obtain ⟨t', hload, hin⟩ := howns.load hcont hsize hk hset
  refine ⟨t', hload, fun i hi hik => ?_⟩
  have hplace := hin (i - 1) (by omega)
  rwa [show ((i - 1 : ℕ) : ℤ) + 1 = i by omega] at hplace

/-- The pages of process 1 come back to their places after its last page and its first page have
been moved. -/
theorem load_in_place_small :
    ∃ t', loadProcessPages 4096 1 (smallTable [(2, 1), (1, 2), (1, 1), (0, 1), (1, 3)]) = some t' ∧
      Holds t' 2 1 3 := by
  have howns : Owns 1 3 (smallTable [(2, 1), (1, 2), (1, 1), (0, 1), (1, 3)]) := by decide
  have hset : Settled 1 3 (smallTable [(2, 1), (1, 2), (1, 1), (0, 1), (1, 3)]) := by decide
  obtain ⟨t', ht', hin⟩ :=
    load_in_place (by decide) (contiguous_smallTable _) (by decide) howns hset
  exact ⟨t', ht', hin 3 (by decide) le_rfl⟩

/-- Process 1 has its pages 1, 3 and 2 in the frames 0, 1 and 3. The page 2 is exchanged with the
page 3; then the loop goes on behind the frame 3, where the page 2 was and where now the page 3 is,
and the page 3 stays there. -/
theorem third_page_misplaced :
    Owns 1 3 (smallTable [(1, 1), (1, 3), (2, 1), (1, 2)]) ∧
      ¬ ∃ t', loadProcessPages 4096 1 (smallTable [(1, 1), (1, 3), (2, 1), (1, 2)]) = some t' ∧
        ∀ i : ℕ, 1 ≤ i → i ≤ 3 → Holds t' (i - 1) 1 i := by
  refine ⟨by decide, fun ⟨t', ht', hin⟩ => ?_⟩
  have hend : ((loadProcessPages 4096 1 (smallTable [(1, 1), (1, 3), (2, 1), (1, 2)])).map fun t' =>
      decide (Holds t' 2 1 3)) = some false := by decide
  rw [ht', Option.map_some, Option.some.injEq, decide_eq_false_iff_not] at hend
  exact hend (hin 3 (by decide) le_rfl)

end OSDesign.VM
