import OSDesign.FS.Consistency

/-!
# Looking up a path

`navPath` returns 0 when the last component of the path is found, whatever became of the others: a
component that is missing before the last one is left out. So it agrees with the walk along the path
on a path whose components but the last are all found, and on a path whose last component is not
found either; on every other path it reports an inode that the path does not lead to.

## Main definitions

* `LookupCorrect`: `navPath` agrees with the walk along the path.

## Main results

* `lookupCorrect_iff`: the paths on which it does.
* `missing_component_skipped`: a path on which it does not.
-/

namespace OSDesign.FS

open ByteMemory Transition

variable {d : Disk} {c : Catalog}

/-- On the path of the components, `navPath` returns 0 with the inodes that the walk reaches, and -1
when a component is missing. -/
def LookupCorrect (d : Disk) (par targ : Inode) (cs : List (List UInt8)) : Prop :=
  (∀ x y, Reserved d x → Reserved d y →
    (navPath d par targ (pathOf cs) = (0, getInode d y, getInode d x) ↔
      walk d 0 cs = some x ∧ walk d 0 cs.dropLast = some y)) ∧
  (walk d 0 cs = none → (navPath d par targ (pathOf cs)).1 = -1)

/-- A reserved inode is known by its contents. -/
theorem Represents.getInode_inj {i j : ℕ} (h : Represents d c) (hi : Reserved d i)
    (hj : Reserved d j) (heq : getInode d i = getInode d j) : i = j := by
  have hi' := h.ino i hi
  rw [FS.ino, heq] at hi'
  exact hi'.symm.trans (h.ino j hj)

/-- Entries lead from reserved inodes to reserved inodes. -/
theorem Represents.reserved_child {N : Set ℕ} {i x : ℕ} {name : List UInt8} (h : Represents d c)
    (hw : c.Wf N) (hi : Reserved d i) (hname : IsComponent name) (hx : child d i name = some x) :
    Reserved d x := by
  rw [← searchDir_eq_child hname.nul_free hname.short] at hx
  have hp := (h.reserved i).mpr hi
  obtain ⟨j, nm, hslot⟩ := h.slot_of_searchDir hw hp hx
  exact (h.reserved x).mp (hw.slot_reserved i hp j x nm hslot)

theorem Represents.reserved_skipWalk {N : Set ℕ} {i : ℕ} {cs : List (List UInt8)}
    (h : Represents d c) (hw : c.Wf N) (hi : Reserved d i) (hcs : ∀ c' ∈ cs, IsComponent c') :
    Reserved d (skipWalk d i cs) := by
  induction cs generalizing i with
  | nil => exact hi
  | cons c' cs ih =>
    refine ih ?_ fun c'' hc'' => hcs c'' (List.mem_cons_of_mem c' hc'')
    cases hx : child d i c' with
    | none => exact hi
    | some x => exact h.reserved_child hw hi (hcs c' List.mem_cons_self) hx

/-- **Path lookup.** On a disk reached from a formatted one, `navPath` is right about a path exactly
when all its components but the last are found in turn, or the last one is not found in the
directory that is reached by leaving out the missing ones. -/
theorem lookupCorrect_iff {d₀ : Disk} {env : Env} {junk : Memory} {calls : List FsCall}
    (hmagic : Superblock.magicnum.get (blockRead d₀ 0) 0 ≠ magic)
    (hrun : run fsStep (sfsInit d₀ env junk) calls = some d) (par targ : Inode)
    {cs : List (List UInt8)} (hne : cs ≠ []) (hcs : ∀ c ∈ cs, IsComponent c)
    (hlen : (pathOf cs).length < 10000) :
    LookupCorrect d par targ cs ↔
      walk d 0 cs.dropLast ≠ none ∨ child d (skipWalk d 0 cs.dropLast) (cs.getLast hne) = none := by
  obtain ⟨cat, hrep, hw⟩ := exists_catalog_of_run hmagic hrun
  have hroot := (hrep.reserved 0).mp hw.root_reserved
  have hlast : IsComponent (cs.getLast hne) := hcs _ (List.getLast_mem hne)
  have hp := hrep.reserved_skipWalk hw hroot fun c' hc' => hcs c' (List.dropLast_subset cs hc')
  have hnav := navPath_pathOf hrep.super par targ hne hcs hlen
  rw [LookupCorrect, walk_eq_bind_getLast d 0 hne]
  cases hfound : child d (skipWalk d 0 cs.dropLast) (cs.getLast hne) with
  | none =>
    -- The last component is not found: `navPath` returns -1, and the walk fails.
    simp only [hfound, Option.isSome_none, Bool.false_eq_true, if_false] at hnav
    have hnone : ((walk d 0 cs.dropLast).bind fun x => child d x (cs.getLast hne)) = none := by
      cases hy : walk d 0 cs.dropLast with
      | none => rfl
      | some y => rw [Option.bind_some, ← skipWalk_of_walk hy, hfound]
    rw [hnone, hnav]
    refine iff_of_true ⟨fun x y _ _ => ⟨fun h => ?_, nofun⟩, fun _ => rfl⟩ (Or.inr rfl)
    exact absurd (congrArg Prod.fst h) (show (-1 : ℤ) ≠ 0 by decide)
  | some x =>
    have hx := hrep.reserved_child hw hp hlast hfound
    simp only [hfound, Option.isSome_some, if_true, Option.getD_some] at hnav
    rw [hnav]
    cases hy : walk d 0 cs.dropLast with
    | none =>
      refine iff_of_false (fun h => ?_) ?_
      · exact absurd (h.2 rfl) (show (0 : ℤ) ≠ -1 by decide)
      · rintro (h | h)
        · exact h rfl
        · exact nomatch h
    | some y =>
      rw [skipWalk_of_walk hy] at hfound hp
      rw [Option.bind_some, hfound, skipWalk_of_walk hy]
      refine iff_of_true ⟨fun x' y' hx' hy' => ⟨fun h => ?_, ?_⟩, nofun⟩ (Or.inl nofun)
      · rw [Prod.mk.injEq, Prod.mk.injEq] at h
        exact ⟨congrArg some (hrep.getInode_inj hx hx' h.2.2),
          congrArg some (hrep.getInode_inj hp hy' h.2.1)⟩
      · rintro ⟨h₁, h₂⟩
        rw [← Option.some.inj h₁, ← Option.some.inj h₂]

/-- The calls after which `/a` is the only entry of the root. -/
def singleCall : List FsCall := [.mkdir pathA ⟨0, 0, 0⟩ 1]

theorem isComponent_of_letter {a : UInt8} (h₁ : slash ≠ a) (h₂ : 0 ≠ a) : IsComponent [a] where
  ne_nil := List.cons_ne_nil a []
  no_slash := List.mem_singleton.not.mpr h₁
  nul_free := List.mem_singleton.not.mpr h₂
  short := show 1 < maxFname by decide

/-- The path `/a/b`, after `/a` and `/a/b` were made. -/
theorem lookupCorrect_iff_nested :
    ∃ d, run fsStep (sfsInit (fun _ => 0) ⟨0, 0, 0⟩ fun _ => 1) nestedCalls = some d ∧
      walk d 0 [[97], [98]] = some 2 ∧
      LookupCorrect d (fun _ => 0) (fun _ => 0) [[97], [98]] := by
  have hend : (run fsStep (sfsInit (fun _ => 0) ⟨0, 0, 0⟩ fun _ => 1) nestedCalls).map
      (fun d => (walk d 0 [[97], [98]], walk d 0 [[97]])) = some (some 2, some 1) := by
    decide +kernel
  obtain ⟨d, hd, hproj⟩ := Option.map_eq_some_iff.mp hend
  obtain ⟨hpath, hdir⟩ := Prod.mk.inj hproj
  have hcs : ∀ c ∈ [[(97 : UInt8)], [98]], IsComponent c := by
    intro c hc
    rcases List.mem_pair.mp hc with rfl | rfl
    · exact isComponent_of_letter (by decide) (by decide)
    · exact isComponent_of_letter (by decide) (by decide)
  refine ⟨d, hd, hpath, ?_⟩
  refine (lookupCorrect_iff (by decide) hd _ _ (List.cons_ne_nil _ _) hcs (by decide)).mpr ?_
  refine Or.inl fun hnone => ?_
  cases hdir.symm.trans hnone

/-- A missing directory is skipped: with `/a` as the only entry of the root, the path `/x/a` is
found. -/
theorem missing_component_skipped :
    ∃ d, run fsStep (sfsInit (fun _ => 0) ⟨0, 0, 0⟩ fun _ => 1) singleCall = some d ∧
      walk d 0 [[120], [97]] = none ∧
        (navPath d (fun _ => 0) (fun _ => 0) (pathOf [[120], [97]])).1 = 0 ∧
      ¬LookupCorrect d (fun _ => 0) (fun _ => 0) [[120], [97]] := by
  have hend : (run fsStep (sfsInit (fun _ => 0) ⟨0, 0, 0⟩ fun _ => 1) singleCall).map
      (fun d => (walk d 0 [[120], [97]],
        (navPath d (fun _ => 0) (fun _ => 0) (pathOf [[120], [97]])).1)) = some (none, 0) := by
    decide +kernel
  obtain ⟨d, hd, hproj⟩ := Option.map_eq_some_iff.mp hend
  rw [Prod.mk.injEq] at hproj
  refine ⟨d, hd, hproj.1, hproj.2, fun h => ?_⟩
  exact absurd (hproj.2.symm.trans (h.2 hproj.1)) (by decide)

end OSDesign.FS
