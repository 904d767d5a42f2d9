import OSDesign.VM.Alike

/-!
# Requests of threads in states with the same records

`getFreeElement` loads the pages of the thread, searches their lists, and cuts the block that it has
found; if there is none, it reserves another page and starts again. In two states that are alike all
this goes the same way, as long as the block that is cut leaves room for the record of the rest.

A page is reserved only while the last block of the last page is in use. Otherwise `joinFreeSpace`
makes that block reach into the new page, and the first bytes of the new page, which
`getFreeElement` takes for a record, become data.

## Main definitions

* `VMState.Slack`, `VMState.Movable`: free frames in front of the shared pages.
* `VMState.scan`, `VMState.Searched`, `VMState.Ready`: the search.

## Main results

* `VMState.Alike.getFreeElement_fit`, `VMState.Alike.getFreeElement_grow`.
-/

namespace OSDesign.VM

open ByteMemory Transition

namespace VMState

variable {s s' : VMState} {Φ : ℕ → ℕ → ℤ → List Block → Prop} {pid k r size fuel : ℕ}

/-! ### Free frames -/

/-- The frames from the last `r` ones in front of the shared pages on are free. -/
def Slack (r : ℕ) (s : VMState) : Prop :=
  r ≤ s.lowFrames ∧ UsedBefore (s.lowFrames - r) s.frames

instance (r : ℕ) (s : VMState) : Decidable (s.Slack r) := inferInstanceAs (Decidable (_ ∧ _))

/-- Moreover, the list of every page can be moved. -/
def Movable (r : ℕ) (s : VMState) : Prop := s.AllTiled ∧ s.Slack r

instance (r : ℕ) (s : VMState) : Decidable (s.Movable r) := inferInstanceAs (Decidable (_ ∧ _))

theorem Slack.of_usedBefore {M : ℕ} (hle : M + r = s.lowFrames) (h : UsedBefore M s.frames) :
    s.Slack r := by
  refine ⟨by omega, ?_⟩
  rwa [show s.lowFrames - r = M by omega]

theorem Movable.withFrames {t : PageTable} (h : s.Movable r)
    (ht : t.map SpaceNode.free = s.frames.map SpaceNode.free) : (s.withFrames t).Movable r := by
  have hlen := congrArg List.length ht
  rw [List.length_map, List.length_map] at hlen
  have hlow : (s.withFrames t).lowFrames = s.lowFrames := lowFrames_eq hlen
  refine ⟨h.1.withFrames ht, ?_⟩
  rw [Slack, hlow]
  refine ⟨h.2.1, usedBefore_iff.mpr fun f n hn hused => ?_⟩
  obtain ⟨n₀, hn₀, hfree⟩ := exists_free ht hn
  exact usedBefore_iff.mp h.2.2 f n₀ hn₀ (hfree.trans hused)

/-- Loading permutes the descriptors. -/
theorem load_perm (hload : s.loadProcessPages pid = some s') :
    (s'.frames.map SpaceNode.info).Perm (s.frames.map SpaceNode.info) ∧
      s'.pageSize = s.pageSize ∧ s'.lowFrames = s.lowFrames := by
  obtain ⟨t, m, ht, rfl⟩ := loadProcessPages_eq_some hload
  have hperm := perm_loadProcessPages ht
  have hlen := hperm.length_eq
  rw [List.length_map, List.length_map] at hlen
  exact ⟨hperm, rfl, lowFrames_eq hlen⟩

theorem owns_load (h : Owns pid k s.frames) (hload : s.loadProcessPages pid = some s') :
    Owns pid k s'.frames := by
  refine h.of_perm ?_
  have hperm := (load_perm hload).1.map fun x => (x.1, x.2.1, x.2.2.1)
  rwa [List.map_map, List.map_map] at hperm

/-- Loading takes one frame more. -/
theorem Alike.load_movable (hΦ : ∀ f g p o bs, Φ f p o bs → Φ g p o bs) (hpid : pid ≠ 0)
    (h : Alike Φ s s') (hmov : s.Movable (r + 1)) :
    Option.Rel (fun t t' => Alike Φ t t' ∧ t.Movable r) (s.loadProcessPages pid)
      (s'.loadProcessPages pid) := by
  obtain ⟨htiled, hle, hbefore⟩ := hmov
  have hrel := rel_and (h.loadProcessPages hΦ hpid htiled hbefore (by omega)) fun t ht =>
    (load_perm ht).2.2
  refine rel_imp hrel fun t t' ht => ?_
  obtain ⟨⟨halike, htiled', hbefore'⟩, hlow⟩ := ht
  exact ⟨halike, htiled', .of_usedBefore (by omega) hbefore'⟩

/-! ### Searching -/

/-- The part of `search` behind `loadProcessPages`. -/
def scan (pid size fuel : ℕ) (s : VMState) : Option (ℕ × VMState) :=
  let s := s.withFrames (setReference s.frames)
  (s.frames[0]?).bind fun p =>
    (findFreeSpace s.bytes size fuel (s.base + p.start)).bind fun n =>
      if n ≠ 0 then some (n, s)
      else searchLoop pid size fuel s.frames.length (s.findPage pid 2).1 3 (s.findPage pid 2).2

theorem search_eq (s : VMState) : s.search pid size fuel =
    (s.loadProcessPages pid).bind fun t => t.scan pid size fuel := rfl

/-- What a search in the pages of `pid` from the page `o` on has found: a block in one of them, or 0
if there is none in any of them. -/
structure Searched (pid size fuel : ℕ) (o : ℤ) (n : ℕ) (s : VMState) : Prop where
  found : n ≠ 0 → ∃ f o', Holds s.frames f pid o' ∧
    findFreeSpace s.bytes size fuel (s.frameAddress f) = some n
  missing : n = 0 → ∀ f o', o ≤ o' → Holds s.frames f pid o' →
    findFreeSpace s.bytes size fuel (s.frameAddress f) = some 0

theorem Searched.withFrames {o : ℤ} {n : ℕ} {t : PageTable} (h : Searched pid size fuel o n s)
    (ht : SameFrames s.frames t) : Searched pid size fuel o n (s.withFrames t) := by
  have hholds (f : ℕ) (o' : ℤ) : Holds t f pid o' ↔ Holds s.frames f pid o' :=
    holds_congr (ht.map_eq fun _ => rfl) f
  refine ⟨fun hn => ?_, fun hn f o' ho hf => h.missing hn f o' ho ((hholds f o').mp hf)⟩
  obtain ⟨f, o', hf, hfind⟩ := h.found hn
  exact ⟨f, o', (hholds f o').mpr hf, hfind⟩

theorem Alike.findPage_eq (h : Alike Φ s s') (pid : ℕ) (i : ℤ) :
    (s'.findPage pid i).1 = (s.findPage pid i).1 ∧
      (s'.findPage pid i).2 = s'.withFrames (VM.findPage pid i s.frames).2 := by
  rw [VMState.findPage, VMState.findPage, h.frames_eq]
  exact ⟨rfl, rfl⟩

/-- There is no page to search. -/
theorem searched_of_findPage {i : ℤ} (howns : Owns pid k s.frames) (hi : 1 ≤ i)
    (hp : (s.findPage pid i).1 = none) : Searched pid size fuel i 0 s := by
  refine ⟨fun h0 => absurd rfl h0, fun _ f o' ho hf => ?_⟩
  have hle := (howns.hasPage_iff o').mp hf.hasPage
  obtain ⟨g, hg, -⟩ := howns.findPage hi (by omega)
  cases hp.symm.trans hg

/-- The list of a page of the process. -/
theorem Alike.page {f : ℕ} {o : ℤ} (h : Alike Φ s s') (hf : Holds s.frames f pid o) :
    ∃ bs, SameBlocks s.bytes s'.bytes (s.frameAddress f) (s.frameAddress f + s.pageSize)
      (bs.map (Block.shift (s.frameAddress f))) ∧ Φ f pid o bs := by
  obtain ⟨n, hn, rfl, rfl, hused⟩ := exists_of_holds hf
  exact h.used f n hn hused

/-- A search in one page. -/
theorem Alike.findFreeSpace_eq {f : ℕ} {o : ℤ} (h : Alike Φ s s') (hf : Holds s.frames f pid o)
    (size fuel : ℕ) : findFreeSpace s'.bytes size fuel (s.frameAddress f) =
      findFreeSpace s.bytes size fuel (s.frameAddress f) := by
  obtain ⟨bs, hbs, -⟩ := h.page hf
  exact hbs.seg.findFreeSpace_congr (fun b hb => hbs.record hb) size fuel

/-- The search from the page `i` on goes the same way in both states, and changes clocks only. -/
theorem Alike.searchLoop {rounds : ℕ} : ∀ {s s' : VMState} {i : ℤ}, Alike Φ s s' →
    Owns pid k s.frames → 1 ≤ i →
    Option.Rel (fun x x' => x.1 = x'.1 ∧ Searched pid size fuel i x.1 s ∧
        ∃ t, SameFrames s.frames t ∧ x.2 = s.withFrames t ∧ x'.2 = s'.withFrames t)
      (VMState.searchLoop pid size fuel rounds (s.findPage pid i).1 (i + 1) (s.findPage pid i).2)
      (VMState.searchLoop pid size fuel rounds (s'.findPage pid i).1 (i + 1)
        (s'.findPage pid i).2) := by
  induction rounds with
  | zero =>
    intro s s' i h howns hi
    obtain ⟨hfst, hsnd⟩ := h.findPage_eq pid i
    have hsame := (clocksOnly_findPage pid i s.frames).sameFrames
    rw [hfst, hsnd]
    cases hp : (s.findPage pid i).1 with
    | none => exact .some ⟨rfl, searched_of_findPage howns hi hp, _, hsame, rfl, rfl⟩
    | some f => exact .none
  | succ rounds ih =>
    intro s s' i h howns hi
    obtain ⟨hfst, hsnd⟩ := h.findPage_eq pid i
    have hsame := (clocksOnly_findPage pid i s.frames).sameFrames
    have h₁ := h.sameFrames hsame
    have hback : SameFrames (VM.findPage pid i s.frames).2 s.frames := Eq.symm hsame
    rw [hfst, hsnd, show (s.findPage pid i).2 =
      s.withFrames (VM.findPage pid i s.frames).2 from rfl]
    cases hp : (s.findPage pid i).1 with
    | none => exact .some ⟨rfl, searched_of_findPage howns hi hp, _, hsame, rfl, rfl⟩
    | some f =>
      have hf : Holds s.frames f pid i := holds_of_findPage hp howns.free_eq_false
      have hf₁ : Holds (VM.findPage pid i s.frames).2 f pid i :=
        (holds_congr (hsame.map_eq fun _ => rfl) f).mpr hf
      have hnext :=
        ih (i := i + 1) h₁ (howns.of_perm (.of_eq (hsame.map_eq fun _ => rfl))) (by omega)
      set t₁ := s.withFrames (VM.findPage pid i s.frames).2 with ht₁
      set t₁' := s'.withFrames (VM.findPage pid i s.frames).2 with ht₁'
      obtain ⟨q, hq, -⟩ := exists_of_holds hf₁
      have hq : t₁.frames[f]? = some q := hq
      have haddr : t₁.frameAddress f = s.frameAddress f := rfl
      rw [VMState.searchLoop, VMState.searchLoop, h₁.frames_eq, hq, Option.bind_some,
        Option.bind_some, h₁.base_eq, h₁.sound.room.layout.base_add_start hq,
        h₁.findFreeSpace_eq hf₁, haddr]
      cases hfind : findFreeSpace t₁.bytes size fuel (s.frameAddress f) with
      | none => exact .none
      | some n =>
        rw [Option.bind_some, Option.bind_some]
        by_cases hn : n = 0
        · rw [if_neg (not_not.mpr hn), if_neg (not_not.mpr hn)]
          refine rel_imp hnext fun x x' hx => ?_
          obtain ⟨heq, hsearch, t, ht, hx, hx'⟩ := hx
          have hsearch := hsearch.withFrames hback
          refine ⟨heq, ⟨hsearch.found, fun h0 g o' ho hg => ?_⟩, t, hsame.trans ht, hx, hx'⟩
          rcases eq_or_lt_of_le ho with rfl | hlt
          · rw [howns.holds_unique hg hf]
            exact hn ▸ hfind
          · exact hsearch.missing h0 g o' (by omega) hg
        · rw [if_pos hn, if_pos hn]
          have hsame₁ := hsame.trans (clocksOnly_findPage pid (i + 1) t₁.frames).sameFrames
          refine .some
            ⟨rfl, ⟨fun _ => ⟨f, i, hf, hfind⟩, fun h0 => absurd h0 hn⟩, _, hsame₁, rfl, ?_⟩
          exact (h₁.findPage_eq pid (i + 1)).2

/-- The pages of the process are loaded, in states that are alike, with pages of `P` bytes. -/
structure Ready (Φ : ℕ → ℕ → ℤ → List Block → Prop) (P pid k : ℕ) (s s' : VMState) : Prop where
  alike : Alike Φ s s'
  owns : Owns pid k s.frames
  first : Holds s.frames 0 pid 1
  size : s.pageSize = P

theorem Ready.sameFrames {P : ℕ} {t : PageTable} (h : Ready Φ P pid k s s')
    (ht : SameFrames s.frames t) : Ready Φ P pid k (s.withFrames t) (s'.withFrames t) where
  alike := h.alike.sameFrames ht
  owns := h.owns.of_perm (.of_eq (ht.map_eq fun _ => rfl))
  first := (holds_congr (ht.map_eq fun _ => rfl) 0).mpr h.first
  size := h.size

/-- The search goes the same way in both states, and changes clocks and a reference bit only. -/
theorem Ready.scan {P : ℕ} (h : Ready Φ P pid k s s') :
    Option.Rel (fun x x' => x.1 = x'.1 ∧ Searched pid size fuel 1 x.1 x.2 ∧
        ∃ t, SameFrames s.frames t ∧ x.2 = s.withFrames t ∧ x'.2 = s'.withFrames t)
      (s.scan pid size fuel) (s'.scan pid size fuel) := by
  have href := sameFrames_setReference s.frames
  have hs' : s'.withFrames (setReference s'.frames) = s'.withFrames (setReference s.frames) := by
    rw [h.alike.frames_eq]
  rw [VMState.scan, VMState.scan, hs']
  have h₁ := h.sameFrames href
  set t₁ := s.withFrames (setReference s.frames) with ht₁
  set t₁' := s'.withFrames (setReference s.frames) with ht₁'
  obtain ⟨q, hq, -⟩ := exists_of_holds h₁.first
  have hlay := h₁.alike.sound.room.layout
  rw [h₁.alike.frames_eq, hq, Option.bind_some, Option.bind_some, h₁.alike.base_eq,
    hlay.base_add_start hq, h₁.alike.findFreeSpace_eq h₁.first]
  cases hfind : findFreeSpace t₁.bytes size fuel (t₁.frameAddress 0) with
  | none => exact .none
  | some n =>
    rw [Option.bind_some, Option.bind_some]
    by_cases hn : n = 0
    · rw [if_neg (not_not.mpr hn), if_neg (not_not.mpr hn)]
      refine rel_imp (h₁.alike.searchLoop h₁.owns (i := 2) (by omega)) fun x x' hx => ?_
      obtain ⟨heq, hsearch, t, ht, hx, hx'⟩ := hx
      refine ⟨heq, ?_, t, href.trans ht, hx, hx'⟩
      rw [hx]
      refine Searched.withFrames ⟨hsearch.found, fun h0 g o' ho hg => ?_⟩ ht
      rcases eq_or_lt_of_le ho with rfl | hlt
      · rw [h₁.owns.holds_unique hg h₁.first]
        exact hn ▸ hfind
      · exact hsearch.missing h0 g o' (by omega) hg
    · rw [if_pos hn, if_pos hn]
      exact .some ⟨rfl, ⟨fun _ => ⟨0, 1, h₁.first, hfind⟩, fun h0 => absurd h0 hn⟩, _, href, rfl,
        rfl⟩

/-- The pages are loaded and the lists of all pages can be moved. -/
theorem Alike.load_ready (hΦ : ∀ f g p o bs, Φ f p o bs → Φ g p o bs) (hpid : pid ≠ 0)
    (h : Alike Φ s s') (howns : Owns pid k s.frames) (hmov : s.Movable (r + 1)) :
    Option.Rel (fun t t' => Ready Φ s.pageSize pid k t t' ∧ t.Movable r) (s.loadProcessPages pid)
      (s'.loadProcessPages pid) := by
  have hlay := h.sound.room.layout
  have hfirst (t : VMState) (ht : s.loadProcessPages pid = some t) :
      Owns pid k t.frames ∧ Holds t.frames 0 pid 1 ∧ t.pageSize = s.pageSize := by
    refine ⟨owns_load howns ht, ?_, (load_perm ht).2.1⟩
    obtain ⟨u, m, hu, rfl⟩ := loadProcessPages_eq_some ht
    exact (load_permutes (Nat.zero_lt_of_lt hlay.large) hlay.contiguous h.sound.unowned
      (Nat.one_le_iff_ne_zero.mpr hpid) hu).2.2.1
  refine rel_imp (rel_and (h.load_movable hΦ hpid hmov) hfirst) fun t t' ht => ?_
  obtain ⟨⟨halike, hmov'⟩, howns', hfirst', hsize⟩ := ht
  exact ⟨⟨halike, howns', hfirst', hsize⟩, hmov'⟩

/-- Pages in place need not be moved. -/
theorem Alike.load_ready_inPlace (h : Alike Φ s s') (hk : 1 ≤ k) (howns : Owns pid k s.frames)
    (hin : InPlace pid k s.frames) :
    Option.Rel (Ready Φ s.pageSize pid k) (s.loadProcessPages pid) (s'.loadProcessPages pid) := by
  obtain ⟨t, hs, hs', hclocks⟩ := h.load_inPlace hk howns hin
  have hready : Ready Φ s.pageSize pid k s s' := ⟨h, howns, hin 0 hk, rfl⟩
  rw [hs, hs']
  exact .some (hready.sameFrames hclocks.sameFrames)

/-! ### Cutting the block -/

/-- The same address is returned, and the memories are alike. -/
def SameResult (x x' : ℕ × VMState) : Prop := x.1 = x'.1 ∧ Alike anyList x.2 x'.2

/-- The block that a search has found is cut. -/
theorem Alike.cut {f n : ℕ} {o : ℤ} (junk : ℕ → UInt8) (h : Alike Φ s s')
    (hf : Holds s.frames f pid o)
    (hfind : findFreeSpace s.bytes size fuel (s.frameAddress f) = some n) (hn : n ≠ 0)
    (hroom : ∀ bs, Φ f pid o bs → Roomy size s.pageSize bs) :
    SameResult (s.cut n size junk) (s'.cut n size junk) := by
  obtain ⟨bs, hbs, hΦ⟩ := h.page hf
  obtain ⟨q, hq, -, -, hused⟩ := exists_of_holds hf
  have hr : (s.frameAddress f, s.frameAddress f + s.pageSize) ∈ s.regions :=
    h.sound.room.layout.mem_regions.mpr (Or.inr (Or.inr ⟨f, q, hq, hused, rfl⟩))
  have hroomy := (roomy_shift (a := s.frameAddress f)).mpr (hroom bs hΦ)
  obtain ⟨l, b, r, hsplit, hfirst, rfl, hfree, hsize⟩ := hbs.seg.exists_of_find hfind hn
  obtain ⟨hfit, hnext⟩ := hroomy l b r hsplit hfirst
  rw [hsplit] at hbs
  obtain ⟨m₁, m₁', hm₁, hm₁', hstart, hstart', hbs₁, hout, hout'⟩ :=
    hbs.createSpace junk (h.sound.region_end hr) hfree hsize hfit hnext
  rw [VMState.cut, VMState.cut, hm₁, hm₁']
  exact ⟨hstart.trans hstart'.symm, h.setRegion hr hout hout' ⟨_, hbs₁⟩⟩

/-- A page in which nothing is found has no block that is large enough. -/
theorem Alike.firstFit_eq_none {f : ℕ} {o : ℤ} (h : Alike Φ s s') (hf : Holds s.frames f pid o)
    (hfind : findFreeSpace s.bytes size fuel (s.frameAddress f) = some 0) :
    ∃ bs, Φ f pid o bs ∧ firstFit size bs = none := by
  obtain ⟨bs, hbs, hΦ⟩ := h.page hf
  refine ⟨bs, hΦ, ?_⟩
  have hzero := hbs.seg.findFreeSpace_eq_some hfind
  rw [firstFit_shift] at hzero
  cases hfirst : firstFit size bs with
  | none => rfl
  | some b =>
    rw [hfirst] at hzero
    exact absurd (Nat.eq_zero_of_add_eq_zero_right hzero.symm) (s.frameAddress_ne_zero f)

/-- **A request that can be met.** One of the pages of the process has a block that is large enough,
and a block that is cut leaves room for the record of the rest. -/
theorem Alike.getFreeElement_fit {P : ℕ} {j : ℤ}
    (hload : Option.Rel (Ready Φ P pid k) (s.loadProcessPages pid) (s'.loadProcessPages pid))
    (hj : 1 ≤ j) (hjk : j ≤ k) (hroom : ∀ f o bs, Φ f pid o bs → Roomy size P bs)
    (hfit : ∀ f bs, Φ f pid j bs → firstFit size bs ≠ none) (junk : ℕ → ℕ → UInt8) (rounds : ℕ) :
    Option.Rel SameResult
      (s.getFreeElement pid size fuel junk rounds)
        (s'.getFreeElement pid size fuel junk rounds) := by
  cases rounds with
  | zero => exact .none
  | succ rounds =>
    rw [VMState.getFreeElement, VMState.getFreeElement, search_eq, search_eq, Option.bind_assoc,
      Option.bind_assoc]
    refine rel_bind hload fun t t' ht => rel_bind ht.scan fun x x' hx => ?_
    obtain ⟨n, t₁⟩ := x
    obtain ⟨n', t₁'⟩ := x'
    obtain ⟨rfl, hsearch, u, hu, rfl, rfl⟩ := hx
    have h₁ := ht.sameFrames hu
    dsimp only at hsearch ⊢
    by_cases hn : n = 0
    · -- the page `j` has been searched too
      obtain ⟨f, -, hf⟩ := h₁.owns.findPage hj hjk
      obtain ⟨bs, hΦ, hnone⟩ := h₁.alike.firstFit_eq_none hf (hsearch.missing hn f j hj hf)
      exact absurd hnone (hfit f bs hΦ)
    · obtain ⟨f, o, hf, hfind⟩ := hsearch.found hn
      rw [if_neg hn, if_neg hn]
      exact .some (h₁.alike.cut (junk rounds) hf hfind hn fun bs hΦ => h₁.size ▸ hroom f o bs hΦ)

/-! ### Reserving a page -/

/-- The list ends with a block in use. -/
def EndsUsed (bs : List Block) : Prop := ∀ b ∈ bs.getLast?, b.free = false

/-- The last block of the last page is in use: `joinFreeSpace` changes clocks only. -/
theorem Alike.joinFreeSpace {a : ℕ} (h : Alike Φ s s') (howns : OwnsNew pid k (-1) s.frames)
    (hk : 1 ≤ k) (ha : Holds s.frames a pid k) (hend : ∀ bs, Φ a pid k bs → EndsUsed bs)
    (fuel : ℕ) :
    Option.Rel (fun t t' => ∃ u, ClocksOnly s.frames u ∧ t = s.withFrames u ∧ t' = s'.withFrames u)
      (s.joinFreeSpace pid fuel) (s'.joinFreeSpace pid fuel) := by
  have hlast := howns.getLastProcessPage hk ha
  obtain ⟨last, hget, -⟩ := exists_of_holds ha
  have hflag : last.dataStartsAnotherPage = false :=
    h.sound.unflagged last (List.mem_iff_getElem?.mpr ⟨a, hget⟩)
  have hhead := List.getElem?_eq_getElem (Nat.zero_lt_of_lt ha.lt_length)
  obtain ⟨u, hclocks, hjoin⟩ := joinFreeSpace_eq hlast hget false
  rw [Bool.and_false, if_neg Bool.false_ne_true] at hjoin
  -- the list of the last page, and its last block
  obtain ⟨bs, hbs, hΦ⟩ := h.page ha
  have hne : bs ≠ [] := by
    rintro rfl
    exact s.frameAddress_ne_zero a hbs.seg
  obtain ⟨l, b, rfl⟩ : ∃ l b, bs = l ++ [b] := ⟨_, _, (List.dropLast_append_getLast hne).symm⟩
  have hused : b.free = false := hend _ hΦ b (by rw [List.getLast?_concat]; rfl)
  rw [List.map_append, List.map_singleton] at hbs
  obtain ⟨heq, haddr⟩ := hbs.seg.getLastElement_eq (fun c hc => hbs.record hc) fuel
  have hfree {m : Memory} (hseg : Seg m (s.frameAddress a)
      (l.map (Block.shift (s.frameAddress a)) ++ [b.shift (s.frameAddress a)]) 0) :
      freeField.get m (b.shift (s.frameAddress a)).addr = 0 := by
    by_contra hne
    have hyes : b.free = true :=
      (hseg.denotes (List.mem_append_right _ List.mem_cons_self)).free.mp hne
    rw [hused] at hyes
    cases hyes
  rw [VMState.joinFreeSpace, VMState.joinFreeSpace, lastPage, lastPage, h.frames_eq, hlast,
    Option.bind_some, hget, Option.bind_some, Option.bind_some, hflag, if_neg Bool.false_ne_true,
    if_neg Bool.false_ne_true, h.base_eq, h.sound.room.layout.base_add_start hget, heq]
  cases he : getLastElement s.bytes fuel (s.frameAddress a) with
  | none => exact .none
  | some e =>
    obtain rfl := haddr e he
    rw [Option.bind_some, Option.bind_some, joinElement, joinElement, h.frames_eq, hhead,
      Option.bind_some, Option.bind_some, if_neg (not_not.mpr (hfree hbs.seg)),
      if_neg (not_not.mpr (hfree hbs.seg')), hjoin]
    exact .some ⟨u, hclocks, rfl, rfl⟩

/-- The order of a new page in the first frame is set. -/
theorem Alike.setOrder {P : ℕ} (h : Alike (newAt P 0 Φ) s s') (order : ℤ) :
    Alike (newAt P 0 Φ) (s.withFrames (setOrder order s.frames))
      (s'.withFrames (setOrder order s.frames)) := by
  have hlay : (s.withFrames (VM.setOrder order s.frames)).Layout :=
    h.sound.room.layout.of_maps (map_setOrder (fun _ _ => rfl) _ _)
      (map_setOrder (fun _ _ => rfl) _ _)
  refine h.withFrames (List.length_modify ..) hlay fun f n hn => ?_
  obtain ⟨n₀, hn₀, hne, heq⟩ := exists_of_modify hn
  refine ⟨n₀, hn₀, ?_⟩
  by_cases hf : f = 0
  · rw [heq hf]
    refine ⟨rfl, rfl, rfl, fun bs hbs => ?_⟩
    rw [newAt, if_pos hf] at hbs ⊢
    exact hbs
  · rw [hne hf]
    exact ⟨rfl, rfl, rfl, fun bs hbs => hbs⟩

/-- The process has a new page, its page `k + 1`. -/
def newPage (P pid k : ℕ) (Φ : ℕ → ℕ → ℤ → List Block → Prop) (f p : ℕ) (o : ℤ)
    (bs : List Block) : Prop :=
  if p = pid ∧ o = k + 1 then bs = [freshBlock P] else Φ f p o bs

/-- This does not depend on the frame. -/
theorem newPage_frame {P : ℕ} (hΦ : ∀ f g p o bs, Φ f p o bs → Φ g p o bs) (f g p : ℕ) (o : ℤ)
    (bs : List Block) (hbs : newPage P pid k Φ f p o bs) : newPage P pid k Φ g p o bs := by
  rw [newPage] at hbs ⊢
  split_ifs at hbs ⊢
  · exact hbs
  · exact hΦ f g p o bs hbs

theorem withFrames_withFrames (s : VMState) (t u : PageTable) :
    (s.withFrames t).withFrames u = s.withFrames u := rfl

/-- The frame that holds a page. -/
theorem Sound.holds_of_hasPage {o : ℤ} (h : s.Sound) (hpid : pid ≠ 0)
    (hhas : HasPage s.frames pid o) : ∃ f, Holds s.frames f pid o := by
  obtain ⟨n, hn, hp, ho⟩ := hhas
  obtain ⟨f, hf⟩ := List.mem_iff_getElem?.mp hn
  refine ⟨f, ?_⟩
  rw [Holds, hf, Option.map_some, SpaceNode.page, hp, ho, h.used_of_pid hpid n hn hp]

/-- The new page in the first frame gets another order. -/
theorem OwnsNew.setOrder {order : ℤ} {t : PageTable} (h : OwnsNew pid k order t)
    (hfirst : Holds t 0 pid order) (o : ℤ) :
    OwnsNew pid k o (VM.setOrder o t) ∧ Holds (VM.setOrder o t) 0 pid o := by
  obtain ⟨q, hq, rfl, rfl, hused⟩ := exists_of_holds hfirst
  have hpage (o : ℤ) : ({ q with order := o } : SpaceNode).page = (q.pid, o, false) := by
    rw [SpaceNode.page, hused]
  refine ⟨h.modify hq (hpage q.order) (hpage o), ?_⟩
  rw [Holds, VM.setOrder, List.getElem?_modify_eq, hq]
  exact congrArg some (hpage o)

/-- The new page in the first frame becomes the page `k + 1` of the process. -/
theorem Alike.appendPage {P : ℕ} {order : ℤ} (hpid : pid ≠ 0) (h : Alike (newAt P 0 Φ) s s')
    (howns : OwnsNew pid k order s.frames) (hk : 1 ≤ k) (hfirst : Holds s.frames 0 pid order)
    (hend : ∀ f bs, Φ f pid k bs → EndsUsed bs) (fuel : ℕ) :
    Option.Rel (fun t t' => Alike (newPage P pid k Φ) t t' ∧ Owns pid (k + 1) t.frames ∧
        ∃ u, t = s.withFrames u ∧ u.map SpaceNode.free = s.frames.map SpaceNode.free)
      (s.appendPage pid fuel) (s'.appendPage pid fuel) := by
  -- the new page has the order -1
  have h₁ := h.setOrder (-1)
  obtain ⟨howns₁, hfirst₁⟩ := howns.setOrder hfirst (-1)
  obtain ⟨a, ha⟩ := h₁.sound.holds_of_hasPage hpid ((howns₁.hasPage_iff k (by omega)).mpr le_rfl)
  have ha₀ : a ≠ 0 := by
    rintro rfl
    have := ha.order_eq hfirst₁
    omega
  have hjoin := h₁.joinFreeSpace howns₁ hk ha (fun bs hbs => by
    rw [newAt, if_neg ha₀] at hbs
    exact hend a bs hbs) fuel
  rw [VMState.appendPage, VMState.appendPage, h.frames_eq]
  refine rel_bind hjoin fun t t' ht => ?_
  obtain ⟨u, hu, rfl, rfl⟩ := ht
  -- it gets its number
  have hpages : u.map SpaceNode.page = (VM.setOrder (-1) s.frames).map SpaceNode.page :=
    hu.map_eq fun _ => rfl
  have howns₂ : OwnsNew pid k (-1) u := howns₁.of_perm (.of_eq hpages)
  have ha₂ : Holds u a pid k := (holds_congr hpages a).mpr ha
  obtain ⟨last, hlast, -, hlastorder, -⟩ := exists_of_holds ha₂
  obtain ⟨u', hu', hset⟩ := setLastOrder_eq (howns₂.getLastProcessPage hk ha₂) hlast
  rw [hlastorder] at hset
  have hclocks : ClocksOnly (VM.setOrder (-1) s.frames) u' := hu.trans hu'
  have hpages' : u'.map SpaceNode.page = (VM.setOrder (-1) s.frames).map SpaceNode.page :=
    hclocks.map_eq fun _ => rfl
  obtain ⟨howns₃, hfirst₃⟩ := OwnsNew.setOrder (howns₁.of_perm (.of_eq hpages'))
    ((holds_congr hpages' 0).mpr hfirst₁) (k + 1)
  have h₃ := (h₁.sameFrames hclocks.sameFrames).setOrder (k + 1)
  have hset₂ : setLastOrder pid (s.withFrames u).frames = some (VM.setOrder (k + 1) u') := hset
  have hset₂' : setLastOrder pid (s'.withFrames u).frames = some (VM.setOrder (k + 1) u') := hset
  rw [withFrames_withFrames, withFrames_withFrames, hset₂, hset₂']
  refine .some ⟨h₃.mono fun f n bs hn hused hbs => ?_, howns₃.owns, _, rfl, ?_⟩
  · -- only the first frame has the page `k + 1`
    rw [newPage]
    by_cases hf : f = 0
    · subst hf
      obtain ⟨q, hq, hqpid, hqorder, -⟩ := exists_of_holds hfirst₃
      obtain rfl : n = q := Option.some.inj (hn.symm.trans hq)
      rw [if_pos ⟨hqpid, hqorder⟩]
      rwa [newAt, if_pos rfl] at hbs
    · rw [newAt, if_neg hf] at hbs
      rwa [if_neg]
      rintro ⟨hnpid, hnorder⟩
      refine hf (howns₃.owns.holds_unique ?_ hfirst₃)
      rw [Holds, show (VM.setOrder (k + 1) u')[f]? = some n from hn, Option.map_some,
        SpaceNode.page, hnpid, hnorder, hused]
  · calc (VM.setOrder (k + 1) u').map SpaceNode.free = u'.map SpaceNode.free :=
          map_setOrder (fun _ _ => rfl) _ _
      _ = (VM.setOrder (-1) s.frames).map SpaceNode.free := hclocks.map_eq fun _ => rfl
      _ = s.frames.map SpaceNode.free := map_setOrder (fun _ _ => rfl) _ _

/-- A page is given out, and the lists of all pages can still be moved. -/
theorem Alike.getFreePage_movable (hΦ : ∀ f g p o bs, Φ f p o bs → Φ g p o bs) (h : Alike Φ s s')
    (howns : Owns pid k s.frames) (hmov : s.Movable (r + 1)) (junk : ℕ → UInt8) :
    ∃ s₁ s₁' order, s.getFreePage pid junk = some (true, s₁) ∧
      s'.getFreePage pid junk = some (true, s₁') ∧ Alike (newAt s.pageSize 0 Φ) s₁ s₁' ∧
      s₁.Movable r ∧ OwnsNew pid k order s₁.frames ∧ Holds s₁.frames 0 pid order ∧
      s₁.pageSize = s.pageSize := by
  obtain ⟨htiled, hle, hbefore⟩ := hmov
  have hlen : s.lowFrames ≤ s.frames.length := Nat.min_le_right ..
  obtain ⟨n, s₁, s₁', hs₁, hs₁', h₁, htiled₁, hn, ⟨q, hq, hfree⟩, hframes, hlow⟩ :=
    h.getFreePage hΦ hbefore (by omega) (fun p hp => allTiled_iff.mp htiled 0 p hp) pid junk
  have hlt := (List.getElem?_eq_some_iff.mp hq).1
  have hlt' : n < (s.frames.modify n (SpaceNode.take pid)).length := by rwa [List.length_modify]
  have hused : UsedBefore (s.lowFrames - (r + 1) + 1) s₁.frames := by
    refine usedBefore_iff.mpr fun f p hp hpused => ?_
    rw [hframes] at hp
    obtain ⟨p₁, hp₁, hinfo⟩ := exists_info_of_swapPages (Nat.zero_lt_of_lt hlt') hlt' hp
    obtain ⟨p₀, hp₀, hne, -⟩ := exists_of_modify hp₁
    by_cases hf : f = 0
    · omega
    by_cases hfn : f = n
    · omega
    rw [Equiv.swap_apply_of_ne_of_ne hf hfn] at hp₀ hne
    rw [← SpaceNode.free_of_info hinfo, hne hfn] at hpused
    exact (usedBefore_iff.mp hbefore f p₀ hp₀ hpused).trans (Nat.lt_succ_self _)
  refine ⟨s₁, s₁', q.order, hs₁, hs₁', h₁, ⟨htiled₁ htiled, .of_usedBefore (by omega) hused⟩, ?_,
    ?_, pageSize_getFreePage (getFreePage_pages hs₁)⟩
  · rw [hframes]
    exact (ownsNew_take howns hq hfree).of_perm (map_page_swapPages_perm ..)
  · rw [hframes]
    refine holds_swapPages_left (Nat.zero_lt_of_lt hlt') ?_
    rw [Holds, List.getElem?_modify_eq, hq]
    rfl

/-- **Reserving a page.** The last block of the last page is in use, the lists of all pages can be
moved, and there are free frames. -/
theorem Alike.reserveAnotherPage (hΦ : ∀ f g p o bs, Φ f p o bs → Φ g p o bs) (hpid : pid ≠ 0)
    (h : Alike Φ s s') (howns : Owns pid k s.frames) (hk : 1 ≤ k) (hmov : s.Movable (r + 2))
    (hend : ∀ f bs, Φ f pid k bs → EndsUsed bs) (fuel : ℕ) (junk : ℕ → UInt8) :
    Option.Rel (fun x x' => x.1 = true ∧ x'.1 = true ∧
        Ready (newPage s.pageSize pid k Φ) s.pageSize pid (k + 1) x.2 x'.2 ∧ x.2.Movable r)
      (s.reserveAnotherPage pid fuel junk) (s'.reserveAnotherPage pid fuel junk) := by
  obtain ⟨s₁, s₁', order, hs₁, hs₁', h₁, hmov₁, howns₁, hfirst₁, hsize₁⟩ :=
    h.getFreePage_movable hΦ howns hmov junk
  rw [VMState.reserveAnotherPage, VMState.reserveAnotherPage, hs₁, hs₁', Option.bind_some,
    Option.bind_some]
  dsimp only
  rw [if_pos rfl, if_pos rfl]
  refine rel_bind (h₁.appendPage hpid howns₁ hk hfirst₁ hend fuel) fun t t' ht => ?_
  obtain ⟨h₂, howns₂, u, rfl, hu⟩ := ht
  have hload := h₂.load_ready (newPage_frame hΦ) hpid howns₂ (hmov₁.withFrames hu)
  rw [show (s₁.withFrames u).pageSize = s.pageSize from hsize₁] at hload
  exact rel_map hload fun x x' hx => ⟨rfl, rfl, hx⟩

/-- The list of a new page has room for a block. -/
theorem roomy_fresh {P : ℕ} (hsize : size + sizeofSpaceNode ≤ P) : Roomy size P [freshBlock P] := by
  intro l b r hsplit _
  obtain ⟨rfl, rfl, rfl⟩ : l = [] ∧ b = freshBlock P ∧ r = [] := by
    cases l with
    | nil => simpa [eq_comm] using hsplit
    | cons c l => simp at hsplit
  refine ⟨?_, fun c hc => absurd hc List.not_mem_nil⟩
  have haddr : (freshBlock P).start = sizeofSpaceNode := Nat.zero_add _
  rw [Block.needs, haddr]
  split_ifs with hsplits
  · have : sizeofSpaceNode < P - sizeofSpaceNode - size := hsplits
    omega
  · omega

theorem firstFit_fresh {P : ℕ} (hsize : size + sizeofSpaceNode ≤ P) :
    firstFit size [freshBlock P] = some (freshBlock P) := by
  have hle : size ≤ (freshBlock P).size := Nat.le_sub_of_add_le hsize
  rw [firstFit, List.find?_singleton]
  exact if_pos (decide_eq_true hle)

/-- **A request for which another page may be needed.** The last blocks of the pages of the process
are in use, the lists of all pages can be moved, and there are free frames. -/
theorem Alike.getFreeElement_grow (hΦ : ∀ f g p o bs, Φ f p o bs → Φ g p o bs) (hpid : pid ≠ 0)
    (h : Alike Φ s s') (howns : Owns pid k s.frames) (hk : 1 ≤ k) (hmov : s.Movable 4)
    (hsize : size + sizeofSpaceNode ≤ s.pageSize)
    (hroom : ∀ f o bs, Φ f pid o bs → Roomy size s.pageSize bs)
    (hend : ∀ f bs, Φ f pid k bs → EndsUsed bs) (junk : ℕ → ℕ → UInt8) (rounds : ℕ) :
    Option.Rel SameResult
      (s.getFreeElement pid size fuel junk rounds)
        (s'.getFreeElement pid size fuel junk rounds) := by
  cases rounds with
  | zero => exact .none
  | succ rounds =>
    rw [VMState.getFreeElement, VMState.getFreeElement, search_eq, search_eq, Option.bind_assoc,
      Option.bind_assoc]
    refine rel_bind (h.load_ready hΦ hpid howns hmov) fun t t' ht => ?_
    obtain ⟨ht, hmovt⟩ := ht
    refine rel_bind ht.scan fun x x' hx => ?_
    obtain ⟨n, t₁⟩ := x
    obtain ⟨n', t₁'⟩ := x'
    obtain ⟨rfl, hsearch, u, hu, rfl, rfl⟩ := hx
    have h₁ := ht.sameFrames hu
    have hmov₁ := hmovt.withFrames (hu.map_eq fun _ => rfl)
    dsimp only at hsearch ⊢
    by_cases hn : n = 0
    · rw [if_pos hn, if_pos hn]
      refine rel_bind (h₁.alike.reserveAnotherPage hΦ hpid h₁.owns hk hmov₁ hend fuel (junk rounds))
        fun y y' hy => ?_
      obtain ⟨ok, t₂⟩ := y
      obtain ⟨ok', t₂'⟩ := y'
      obtain ⟨rfl, rfl, h₂, hmov₂⟩ := hy
      dsimp only at h₂ hmov₂ ⊢
      rw [if_pos rfl, if_pos rfl]
      -- the new page has a block that is large enough
      have hload := h₂.alike.load_ready (newPage_frame hΦ) hpid h₂.owns hmov₂
      rw [h₂.size] at hload
      have hP : (t.withFrames u).pageSize = s.pageSize := h₁.size
      rw [hP] at hload
      refine getFreeElement_fit (rel_imp hload fun _ _ hready => hready.1) (j := k + 1) (by omega)
        (by push_cast; omega) (fun f o bs hbs => ?_) (fun f bs hbs => ?_) junk rounds
      · rw [newPage] at hbs
        split_ifs at hbs
        · rw [hbs]
          exact roomy_fresh hsize
        · exact hroom f o bs hbs
      · rw [newPage, if_pos ⟨rfl, rfl⟩] at hbs
        rw [hbs, firstFit_fresh hsize]
        exact Option.some_ne_none _
    · obtain ⟨f, o, hf, hfind⟩ := hsearch.found hn
      rw [if_neg hn, if_neg hn]
      exact .some (h₁.alike.cut (junk rounds) hf hfind hn fun bs hΦ => h₁.size ▸ hroom f o bs hΦ)

end VMState

end OSDesign.VM
