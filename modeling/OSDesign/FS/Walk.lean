import OSDesign.FS.DiskView
import OSDesign.FS.Operations
import OSDesign.Lib.Transition

/-!
# Walking a path

The reference for looking up a path: from a directory, every component leads to the inode of the
first entry with that name (`child`), and a path leads on from one inode to the next (`walk`).
`navPath` scans the string and the blocks of the directories instead. Its loop does not stop at a
component that is missing; it stays where it is, which is `skipWalk`.

## Main definitions

* `dirList`, `child`, `walk`, `skipWalk`.
* `IsComponent`, `pathOf`: the components of a path and the string.

## Main results

* `searchDir_eq_child`: the search in the blocks finds the entry with the name.
* `navLoop_succ`: one pass of the loop of `navPath`.
* `navLoop_pathOf`, `navPath_pathOf`: what `navPath` computes on a path of components.
-/

namespace OSDesign.FS

open ByteMemory Transition

variable {d : Disk} {i t x : ℕ} {name : List UInt8}

/-! ### The reference -/

/-- The used entries of a directory, in the order of its blocks. -/
def dirList (d : Disk) (i : ℕ) : List (ℕ × List UInt8) :=
  (List.range numDirectPointers).flatMap fun k =>
    if directp d i k = 0 then [] else (List.range dirEntries).filterMap (entry d (directp d i k))

/-- The inode that the name leads to in a directory. -/
def child (d : Disk) (i : ℕ) (name : List UInt8) : Option ℕ :=
  ((dirList d i).find? fun e => e.2 = name).map Prod.fst

/-- The inode that is reached from `i` when every component is found in turn. -/
def walk (d : Disk) : ℕ → List (List UInt8) → Option ℕ := run (child d)

/-- The inode that is reached from `i` when the components that are missing are left out. -/
def skipWalk (d : Disk) : ℕ → List (List UInt8) → ℕ
  | i, [] => i
  | i, c :: cs => skipWalk d ((child d i c).getD i) cs

theorem walk_eq_bind_getLast (d : Disk) (i : ℕ) {cs : List (List UInt8)} (hne : cs ≠ []) :
    walk d i cs = (walk d i cs.dropLast).bind fun x => child d x (cs.getLast hne) := by
  conv_lhs => rw [← List.dropLast_append_getLast hne]
  exact run_concat ..

/-- As long as nothing is missing the two walks are the same. -/
theorem skipWalk_of_walk {cs : List (List UInt8)} (h : walk d i cs = some x) :
    skipWalk d i cs = x := by
  induction cs generalizing i with
  | nil => exact Option.some.inj h
  | cons c cs ih =>
    obtain ⟨y, hy, hrest⟩ := Option.bind_eq_some_iff.mp h
    rw [skipWalk, hy, Option.getD_some, ih hrest]

/-! ### The search in a directory -/

theorem searchBlock_eq {b : ℕ} (hnul : 0 ∉ name) (hlen : name.length < maxFname) :
    searchBlock (blockRead d b) name =
      (((List.range dirEntries).filterMap (entry d b)).find? fun e => e.2 = name).map Prod.fst := by
  have hmem : ∀ k ∈ List.range dirEntries, k < dirEntries := fun k hk => List.mem_range.mp hk
  rw [searchBlock]
  generalize List.range dirEntries = ks at hmem ⊢
  induction ks with
  | nil => rfl
  | cons k ks ih =>
    have hk : k < dirEntries := hmem k List.mem_cons_self
    have hrest := ih fun k' hk' => hmem k' (List.mem_cons_of_mem k hk')
    rw [List.findSome?_cons, List.filterMap_cons]
    by_cases hfree : entryInum d b k = inumFree
    · have hnone : entry d b k = none := entry_of_free fun _ => hfree
      rw [if_neg fun h => h.1 hfree, hnone]
      exact hrest
    · have hsome : entry d b k = some (entryInum d b k, entryName d b k) := if_pos ⟨hk, hfree⟩
      have hstr : strEq (blockRead d b) (MyDir.fnames k) name = true ↔ entryName d b k = name :=
        strEq_iff hnul hlen
      rw [hsome, List.find?_cons]
      by_cases hname : entryName d b k = name
      · rw [if_pos ⟨hfree, hstr.mpr hname⟩, decide_eq_true hname]
        rfl
      · rw [if_neg fun h => hname (hstr.mp h.2), decide_eq_false hname]
        exact hrest

/-- The search in the blocks of a directory finds the entry with the name. -/
theorem searchDir_eq_child (hnul : 0 ∉ name) (hlen : name.length < maxFname) :
    searchDir d (getInode d i) name = child d i name := by
  rw [searchDir, child, dirList, List.find?_flatMap, List.map_findSome?]
  refine congrArg (fun f => List.findSome? f _) (funext fun k => ?_)
  rw [Function.comp_apply]
  by_cases hk : directp d i k = 0
  · rw [if_pos hk]
    exact if_pos hk
  · rw [if_neg hk, ← searchBlock_eq hnul hlen]
    exact if_neg hk

/-- What the search finds is an entry of one of the blocks. -/
theorem searchDir_eq_some (h : searchDir d (getInode d i) name = some x) :
    ∃ k < numDirectPointers, directp d i k ≠ 0 ∧
      ∃ j nm, entry d (directp d i k) j = some (x, nm) := by
  obtain ⟨k, hk, hblock⟩ := List.exists_of_findSome?_eq_some h
  have hptr : directp d i k ≠ 0 := fun h0 => by
    rw [if_pos (show (Inode.directp k).get (getInode d i) 0 = 0 from h0)] at hblock
    exact nomatch hblock
  rw [if_neg (show (Inode.directp k).get (getInode d i) 0 ≠ 0 from hptr)] at hblock
  obtain ⟨j, hj, hentry⟩ := List.exists_of_findSome?_eq_some hblock
  refine ⟨k, List.mem_range.mp hk, hptr, j, entryName d (directp d i k) j, ?_⟩
  by_cases hused : (MyDir.inums j).get (blockRead d (directp d i k)) 0 ≠ inumFree ∧
      strEq (blockRead d (directp d i k)) (MyDir.fnames j) name = true
  · rw [← Option.some.inj ((if_pos hused).symm.trans hentry)]
    exact if_pos ⟨List.mem_range.mp hj, hused.1⟩
  · exact nomatch (if_neg hused).symm.trans hentry

/-! ### The loop of `navPath` -/

/-- The loop ends with the component at `path[i]`. -/
def lastPass (path : List UInt8) (i : ℕ) : Prop :=
  let e := i + (currname path i).length
  charAt path e = 0 ∨ charAt path (e + 1) = 0 ∨
    (charAt path (e + 1) = slash ∧ charAt path (e + 2) = 0)

instance (path : List UInt8) (i : ℕ) : Decidable (lastPass path i) :=
  inferInstanceAs (Decidable (_ ∨ _))

/-- One pass of the loop: in the last pass `flag` says whether the component is found. -/
theorem navLoop_succ (d : Disk) (path : List UInt8) (n i t : ℕ) :
    navLoop d 65 path (n + 1) i (getInode d t) =
      let found := searchDir d (getInode d t) (currname path i)
      if lastPass path i then
        some (getInode d t, getInode d (found.getD t), if found.isSome then 2 else 1)
      else navLoop d 65 path n (i + (currname path i).length + 1) (getInode d (found.getD t)) := by
  rw [navLoop]
  have ht : ∀ found : Option ℕ, (found.elim (getInode d t) fun inum =>
      view (blockRead d (inum / 2 + 65)) (inodeOffset inum)) = getInode d (found.getD t) := by
    rintro (_ | inum)
    · rfl
    · rw [Option.elim_some, Option.getD_some, getInode, Nat.add_comm]
  simp only [ht]
  by_cases hlast : lastPass path i
  · have hcond : (if charAt path (i + (currname path i).length) = 0 then 1 else 0) = 1 ∨
        charAt path (i + (currname path i).length + 1) = 0 ∨
        (charAt path (i + (currname path i).length + 1) = slash ∧
          charAt path (i + (currname path i).length + 1 + 1) = 0) :=
      hlast.imp_left fun h => if_pos h
    rw [if_pos hcond, if_pos hlast, if_neg]
    split_ifs <;> decide
  · have hne : charAt path (i + (currname path i).length) ≠ 0 := fun h => hlast (Or.inl h)
    have hcond : ¬((if charAt path (i + (currname path i).length) = 0 then 1 else 0) = 1 ∨
        charAt path (i + (currname path i).length + 1) = 0 ∨
        (charAt path (i + (currname path i).length + 1) = slash ∧
          charAt path (i + (currname path i).length + 1 + 1) = 0)) := by
      rw [if_neg hne]
      exact fun h => hlast (Or.inr (h.resolve_left (by decide)))
    rw [if_neg hcond, if_neg hlast, if_neg hne, if_pos rfl]

/-! ### Paths of components -/

/-- A component that fits in the arrays for names. -/
structure IsComponent (c : List UInt8) : Prop where
  ne_nil : c ≠ []
  no_slash : slash ∉ c
  nul_free : 0 ∉ c
  short : c.length < maxFname

/-- The string `/c₁/…/cₙ`. -/
def pathOf (cs : List (List UInt8)) : List UInt8 := cs.flatMap (slash :: ·)

theorem charAt_of_lt {path : List UInt8} (h : i < path.length) : charAt path i = path[i] := by
  rw [charAt, List.getD_eq_getElem?_getD, List.getElem?_eq_getElem h, Option.getD_some]

theorem charAt_of_le {path : List UInt8} (h : path.length ≤ i) : charAt path i = 0 := by
  rw [charAt, List.getD_eq_getElem?_getD, List.getElem?_eq_none h, Option.getD_none]

theorem charAt_eq_head {path s : List UInt8} (h : path.drop i = s) : charAt path i = s.headD 0 := by
  rw [charAt, ← h, List.getD_eq_getElem?_getD, List.headD_eq_head?_getD, List.head?_drop]

theorem currname_of_drop {path c rest : List UInt8} (hc : IsComponent c)
    (h : path.drop i = c ++ rest) (hrest : rest.headD 0 = slash ∨ rest.headD 0 = 0) :
    currname path i = c := by
  have hname : ∀ a ∈ c, (a != slash && a != 0) = true := fun a ha => by
    rw [Bool.and_eq_true, bne_iff_ne, bne_iff_ne]
    exact ⟨fun he => hc.no_slash (he ▸ ha), fun he => hc.nul_free (he ▸ ha)⟩
  rw [currname, h, List.takeWhile_append_of_pos hname]
  cases rest with
  | nil => exact List.append_nil c
  | cons a rest =>
    rw [List.takeWhile_cons_of_neg, List.append_nil]
    rcases hrest with hr | hr <;> rw [List.headD_cons] at hr <;> rw [hr] <;> decide

/-- On the components `c, cs` the loop looks `c` up and goes on, whether it is found or not; the
last component decides. -/
theorem navLoop_pathOf {path c : List UInt8} {cs : List (List UInt8)} {n : ℕ}
    (hc : ∀ c' ∈ c :: cs, IsComponent c') (hdrop : path.drop i = c ++ pathOf cs)
    (hn : cs.length < n) :
    navLoop d 65 path n i (getInode d t) =
      let p := skipWalk d t (c :: cs).dropLast
      let found := child d p ((c :: cs).getLast (List.cons_ne_nil c cs))
      some (getInode d p, getInode d (found.getD p), if found.isSome then 2 else 1) := by
  induction cs generalizing c i t n with
  | nil =>
    obtain ⟨n, rfl⟩ := Nat.exists_eq_succ_of_ne_zero (Nat.ne_zero_of_lt hn)
    have hcomp := hc c List.mem_cons_self
    have hname : currname path i = c := currname_of_drop hcomp hdrop (Or.inr rfl)
    have hlast : lastPass path i := by
      refine Or.inl ?_
      rw [hname]
      refine charAt_eq_head (s := []) ?_
      rw [← List.drop_drop, hdrop, List.drop_left]
      rfl
    rw [navLoop_succ, if_pos hlast, hname, searchDir_eq_child hcomp.nul_free hcomp.short]
    rfl
  | cons c' cs ih =>
    obtain ⟨n, rfl⟩ := Nat.exists_eq_succ_of_ne_zero (Nat.ne_zero_of_lt hn)
    have hcomp := hc c List.mem_cons_self
    have hcomp' := hc c' (List.mem_cons_of_mem c List.mem_cons_self)
    have hpath : pathOf (c' :: cs) = slash :: (c' ++ pathOf cs) := List.flatMap_cons
    have hname : currname path i = c := currname_of_drop hcomp hdrop (Or.inl (by rw [hpath]; rfl))
    have hslash : path.drop (i + c.length) = slash :: (c' ++ pathOf cs) := by
      rw [← List.drop_drop, hdrop, List.drop_left, hpath]
    have hnext : path.drop (i + c.length + 1) = c' ++ pathOf cs := by
      rw [← List.drop_drop, hslash, List.drop_succ_cons, List.drop_zero]
    -- The next component starts with a byte that is neither a slash nor the end of the string.
    obtain ⟨a, rest, hcons⟩ := List.exists_cons_of_ne_nil hcomp'.ne_nil
    have hhead : charAt path (i + c.length + 1) = a := by
      rw [charAt_eq_head hnext, hcons]
      rfl
    have ha : a ∈ c' := hcons ▸ List.mem_cons_self
    have hlast : ¬lastPass path i := by
      rw [lastPass, hname, charAt_eq_head hslash, hhead]
      rintro (h | h | h)
      · exact absurd (show slash = 0 from h) (by decide)
      · exact hcomp'.nul_free (h ▸ ha)
      · exact hcomp'.no_slash (h.1 ▸ ha)
    rw [navLoop_succ, if_neg hlast, hname, searchDir_eq_child hcomp.nul_free hcomp.short,
      ih (fun c'' hc'' => hc c'' (List.mem_cons_of_mem c hc'')) hnext (Nat.lt_of_succ_lt_succ hn)]
    rfl

theorem length_le_length_pathOf (cs : List (List UInt8)) : cs.length ≤ (pathOf cs).length := by
  induction cs with
  | nil => exact Nat.zero_le _
  | cons c cs ih =>
    rw [pathOf, List.flatMap_cons, List.length_cons, List.length_append, List.length_cons]
    have : (pathOf cs).length = (cs.flatMap (slash :: ·)).length := rfl
    omega

/-- `navPath` on a path of components leaves out the missing ones and looks the last one up. -/
theorem navPath_pathOf (hs : SuperOk d) (par targ : Inode) {cs : List (List UInt8)} (hne : cs ≠ [])
    (hcs : ∀ c ∈ cs, IsComponent c) (hlen : (pathOf cs).length < 10000) :
    navPath d par targ (pathOf cs) =
      let p := skipWalk d 0 cs.dropLast
      let found := child d p (cs.getLast hne)
      (if found.isSome then 0 else -1, getInode d p, getInode d (found.getD p)) := by
  obtain ⟨c, cs, rfl⟩ := List.exists_cons_of_ne_nil hne
  have hroot : blockRead d 65 = getInode d 0 := by
    rw [getInode_eq]
    rfl
  have hpath : pathOf (c :: cs) = slash :: (c ++ pathOf cs) := List.flatMap_cons
  have hc : 0 < c.length := List.length_pos_iff.mpr (hcs c List.mem_cons_self).ne_nil
  have hshort : ¬((pathOf (c :: cs)).length = 1 ∨ (pathOf (c :: cs)).length = 0) := by
    rw [hpath, List.length_cons, List.length_append]
    omega
  have hpasses : cs.length < 10000 := by
    have := length_le_length_pathOf (c :: cs)
    rw [List.length_cons] at this
    omega
  have hdrop : (pathOf (c :: cs)).drop 1 = c ++ pathOf cs := by
    rw [hpath, List.drop_succ_cons, List.drop_zero]
  simp only [navPath, hs.iList, hroot, if_neg hshort, navLoop_pathOf hcs hdrop hpasses]
  cases child d (skipWalk d 0 (c :: cs).dropLast) ((c :: cs).getLast hne) with
  | none => rfl
  | some x => rfl

end OSDesign.FS
