import OSDesign.FS.CreateLookup
import OSDesign.FS.NameBuffers

/-!
# Listing a directory and looking names up

`sfs_readdir` passes the names of the used entries of a directory to the filler, and `sfs_getattr`
finds a name in a directory by comparing it with those of the used entries. The two agree on every
disk that `sfs_create` and `sfs_mkdir` make of a formatted one: every name in a directory is one
that a path can have as a component.

The path with a name added takes the same way through the loop of `navPath` as the path itself, up
to the pass that was the last one; it does so also when the path has components that are missing or
empty, which the loop passes over.

## Main definitions

* `extend`: a path with a name added.
* `NamesFile`: the call names the new file.

## Main results

* `navLoop_extend`: the lookup of the longer path.
* `readdir_iff_getattr`.
-/

namespace OSDesign.FS

open ByteMemory Transition

variable {d : Disk} {c : Catalog} {i t : ℕ} {path name : List UInt8}

/-! ### The longer path -/

/-- The path with a name added. -/
def extend (path name : List UInt8) : List UInt8 :=
  if path = [slash] then slash :: name else path ++ slash :: name

theorem charAt_append_right (path rest : List UInt8) (k : ℕ) :
    charAt (path ++ rest) (path.length + k) = charAt rest k := by
  rw [charAt, charAt, List.getD_eq_getElem?_getD, List.getD_eq_getElem?_getD,
    List.getElem?_append_right (Nat.le_add_right _ _), Nat.add_sub_cancel_left]

theorem charAt_eq_zero_iff (hnul : 0 ∉ path) (k : ℕ) : charAt path k = 0 ↔ path.length ≤ k := by
  refine ⟨fun hk => ?_, charAt_of_le⟩
  by_contra hlt
  rw [charAt_of_lt (Nat.lt_of_not_le hlt)] at hk
  exact hnul (hk ▸ List.getElem_mem _)

/-- A component of the path is copied from the longer path all the same. -/
theorem currname_extend (hi : i ≤ path.length) (name : List UInt8) :
    currname (path ++ slash :: name) i = currname path i := by
  have hstop : (slash :: name).takeWhile (fun c => c != slash && c != 0) = [] := rfl
  rw [currname, List.drop_append_of_le_length hi, List.takeWhile_append, hstop, List.append_nil]
  split_ifs with hall
  · exact ((List.takeWhile_prefix _).eq_of_length hall).symm
  · rfl

/-- In a path that does not end with a slash the last pass gets to the end. -/
theorem end_of_lastPass (hnul : 0 ∉ path) (hend : path.getLast? ≠ some slash)
    (hlast : lastPass path i) (hi : i ≤ path.length) :
    i + (currname path i).length = path.length := by
  have hle := length_currname_le path i
  have hfinal : ∀ k, k + 1 = path.length → charAt path k ≠ slash := by
    intro k hk hslash
    refine hend ?_
    rw [charAt_of_lt (by omega)] at hslash
    rw [List.getLast?_eq_getElem?, ← hk, Nat.add_sub_cancel, List.getElem?_eq_getElem (by omega),
      hslash]
  rcases components_cases hnul i with ⟨hge, -⟩ | ⟨hslash, -⟩
  · omega
  · have hlt : i + (currname path i).length < path.length :=
      lt_length_of_charAt_ne (by rw [hslash]; decide)
    exfalso
    rcases hlast with h | h | ⟨h, h'⟩
    · rw [hslash] at h
      exact absurd h (by decide)
    · have := (charAt_eq_zero_iff hnul _).mp h
      exact hfinal _ (by omega) hslash
    · have := (charAt_eq_zero_iff hnul _).mp h'
      have hlt' : i + (currname path i).length + 1 < path.length :=
        lt_length_of_charAt_ne (by rw [h]; decide)
      exact hfinal _ (by omega) h

/-- No pass over the components of the path is the last one in the longer path. -/
theorem not_lastPass_extend (hnul : 0 ∉ path) (hname : IsComponent name) (hi : i ≤ path.length) :
    ¬lastPass (path ++ slash :: name) i := by
  have hle := length_currname_le path i
  have hnul' : 0 ∉ path ++ slash :: name := by
    rw [List.mem_append, List.mem_cons, not_or, not_or]
    exact ⟨hnul, by decide, hname.nul_free⟩
  have hpos : 0 < name.length := List.length_pos_iff.mpr hname.ne_nil
  have hlen : (path ++ slash :: name).length = path.length + 1 + name.length := by
    rw [List.length_append, List.length_cons]
    omega
  rw [lastPass, currname_extend hi]
  rintro (h | h | ⟨h, h'⟩)
  · have := (charAt_eq_zero_iff hnul' _).mp h
    omega
  · have := (charAt_eq_zero_iff hnul' _).mp h
    omega
  · -- then the name is behind the slash, and does not begin with one
    have hend := (charAt_eq_zero_iff hnul' _).mp h'
    have he : i + (currname path i).length = path.length := by omega
    rw [he, charAt_append_right] at h
    obtain ⟨a, rest, hcons⟩ := List.exists_cons_of_ne_nil hname.ne_nil
    rw [hcons] at h
    exact hname.no_slash (hcons ▸ h ▸ List.mem_cons_self)

/-- The loop of `navPath` on the longer path looks the name up in the directory to which the path
leads. -/
theorem navLoop_extend (hnul : 0 ∉ path) (hend : path.getLast? ≠ some slash)
    (hname : IsComponent name) {n flag : ℕ} {par targ : Inode} (hi : i < path.length)
    (hloop : navLoop d 65 path n i (getInode d t) = some (par, targ, flag)) :
    ∃ u, targ = getInode d u ∧
      navLoop d 65 (path ++ slash :: name) (n + 1) i (getInode d t) =
        some (getInode d u, getInode d ((child d u name).getD u),
          if (child d u name).isSome then 2 else 1) := by
  induction n generalizing i t with
  | zero => exact nomatch hloop
  | succ n ih =>
    rw [navLoop_succ] at hloop
    rw [navLoop_succ, if_neg (not_lastPass_extend hnul hname hi.le), currname_extend hi.le]
    dsimp only at hloop ⊢
    by_cases hlast : lastPass path i
    · -- the pass that was the last one
      rw [if_pos hlast] at hloop
      simp only [Option.some.injEq, Prod.mk.injEq] at hloop
      refine ⟨_, hloop.2.1.symm, ?_⟩
      rw [end_of_lastPass hnul hend hlast hi.le]
      have hdrop : (path ++ slash :: name).drop (path.length + 1) = name ++ pathOf [] := by
        rw [← List.drop_drop, List.drop_left]
        exact (List.append_nil name).symm
      have hcomp : ∀ c' ∈ [name], IsComponent c' := fun c' hc' => List.mem_singleton.mp hc' ▸ hname
      rw [navLoop_pathOf hcomp hdrop (Nat.succ_pos n)]
      rfl
    · rw [if_neg hlast] at hloop
      exact ih (next_lt_of_not_lastPass hlast) hloop

/-- `navPath` on the longer path finds the name if the directory has it. -/
theorem navPath_extend (hs : SuperOk d) (hnul : 0 ∉ path) (habs : path.head? = some slash)
    (hend : path = [slash] ∨ path.getLast? ≠ some slash) (hlen : path.length < 9000)
    (hname : IsComponent name) {par targ : Inode} (hnav : navPath d 0 0 path = (0, par, targ)) :
    ∃ u, targ = getInode d u ∧
      (navPath d 0 0 (extend path name)).1 = if (child d u name).isSome then 0 else -1 := by
  by_cases hroot : path = [slash]
  · subst hroot
    rw [navPath_of_length_le_one hs 0 0 _ le_rfl] at hnav
    refine ⟨0, (Prod.mk.inj (Prod.mk.inj hnav).2).2.symm, ?_⟩
    have hcomp : ∀ c ∈ [name], IsComponent c := fun c hc => List.mem_singleton.mp hc ▸ hname
    have hpath : extend [slash] name = pathOf [name] := by
      rw [extend, if_pos rfl, pathOf, List.flatMap_singleton]
    have hshort : (pathOf [name]).length < 10000 := by
      have := hname.short
      rw [pathOf, List.flatMap_singleton, List.length_cons]
      rw [maxFname] at this
      omega
    rw [hpath, navPath_pathOf hs 0 0 (List.cons_ne_nil _ _) hcomp hshort]
    rfl
  · have hone : 1 < path.length := by
      obtain ⟨rest, rfl⟩ : ∃ rest, path = slash :: rest := List.head?_eq_some_iff.mp habs
      have : rest ≠ [] := fun hnil => hroot (by rw [hnil])
      rw [List.length_cons]
      exact Nat.succ_lt_succ (List.length_pos_iff.mpr this)
    have hlong : ¬((path ++ slash :: name).length = 1 ∨ (path ++ slash :: name).length = 0) := by
      rw [List.length_append]
      omega
    have hinode : blockRead d 65 = getInode d 0 := by
      rw [getInode_eq]
      rfl
    -- one pass less is allowed for the path, and still enough
    obtain ⟨⟨p, t, flag⟩, hloop⟩ : ∃ r, navLoop d 65 path 9999 1 (getInode d 0) = some r :=
      Option.ne_none_iff_exists'.mp (navLoop_ne_none hone (by omega))
    obtain ⟨u, hu, hext⟩ := navLoop_extend hnul (hend.resolve_left hroot) hname hone hloop
    simp only [navPath, hs.iList, hinode,
      if_neg (show ¬(path.length = 1 ∨ path.length = 0) by omega),
      navLoop_stable hloop] at hnav
    refine ⟨u, (Prod.mk.inj (Prod.mk.inj hnav).2).2.symm.trans hu, ?_⟩
    simp only [extend, if_neg hroot, navPath, hs.iList, hinode, if_neg hlong, hext]
    cases (child d u name).isSome <;> rfl

/-- What `par` and `targ` hold before does not matter when the path is found. -/
theorem navPath_initial {par targ : Inode} (hnav : navPath d 0 0 path = (0, par, targ))
    {par₀ targ₀ : Inode} : navPath d par₀ targ₀ path = (0, par, targ) := by
  rw [navPath] at hnav ⊢
  split_ifs at hnav ⊢
  · exact hnav
  · cases hloop : navLoop d (Superblock.iList.get (blockRead d 0) 0) path 10000 1
        (blockRead d (Superblock.iList.get (blockRead d 0) 0)) with
    | none =>
      simp only [hloop, Prod.mk.injEq] at hnav
      exact absurd hnav.1 (by decide)
    | some r =>
      simp only [hloop] at hnav ⊢
      exact hnav

theorem sfsGetattr_eq_zero_iff : (sfsGetattr d path).1 = 0 ↔ (navPath d 0 0 path).1 ≠ -1 := by
  rw [sfsGetattr]
  rcases navPath d 0 0 path with ⟨ret, par, targ⟩
  dsimp only
  split_ifs with hret
  · exact iff_of_false (by decide) (not_not_intro hret)
  · exact iff_of_true rfl hret

/-! ### The names in a directory -/

/-- `sfs_readdir` reads the names of the entries that `navPath` compares. -/
theorem map_dirList (d : Disk) (i : ℕ) : (dirList d i).map Prod.snd =
    (List.range numDirectPointers).flatMap fun k =>
      if (Inode.directp k).get (getInode d i) 0 = 0 then []
      else blockNames (blockRead d ((Inode.directp k).get (getInode d i) 0)) := by
  have hblock : ∀ b, ((List.range dirEntries).filterMap (entry d b)).map Prod.snd =
      blockNames (blockRead d b) := by
    intro b
    rw [blockNames, List.map_filterMap]
    refine List.filterMap_congr fun j hj => ?_
    by_cases hfree : entryInum d b j = inumFree
    · rw [entry_of_free fun _ => hfree]
      exact (if_neg (not_not_intro hfree)).symm
    · have hentry : entry d b j = some (entryInum d b j, entryName d b j) :=
        if_pos ⟨List.mem_range.mp hj, hfree⟩
      rw [hentry]
      exact (if_pos hfree).symm
  rw [dirList, List.map_flatMap]
  refine congrArg (fun f => List.flatMap f _) (funext fun k => ?_)
  by_cases hptr : directp d i k = 0
  · rw [if_pos hptr]
    exact (if_pos hptr).symm
  · rw [if_neg hptr, hblock]
    exact (if_neg hptr).symm

/-- A name leads somewhere if and only if the directory has it. -/
theorem isSome_child_iff : (child d i name).isSome = true ↔ name ∈ (dirList d i).map Prod.snd := by
  rw [child, Option.isSome_map, List.find?_isSome, List.mem_map]
  simp only [decide_eq_true_eq]

/-- A filler that returns 0 gets all names. -/
theorem fillNames_eq {filler : List (List UInt8) → List UInt8 → ℤ}
    (hfiller : ∀ passed nm, filler passed nm = 0) (passed names : List (List UInt8)) :
    fillNames filler passed names = passed ++ names := by
  induction names generalizing passed with
  | nil => exact (List.append_nil passed).symm
  | cons nm names ih =>
    rw [fillNames, if_neg (not_not_intro (hfiller passed nm)), ih, List.append_assoc]
    rfl

/-! ### Runs -/

/-- The path of the call. -/
def FsCall.bytes : FsCall → List UInt8
  | .create path _ _ => path.bytes
  | .mkdir path _ _ => path.bytes

/-- The call names the new file: its path does not end with a slash. -/
def NamesFile (call : FsCall) : Prop := call.bytes.getLast? ≠ some slash

instance (call : FsCall) : Decidable (NamesFile call) := inferInstanceAs (Decidable (¬_))

/-- Every name in a directory is a component. -/
def ComponentNames (c : Catalog) : Prop :=
  ∀ i ∈ c.reserved, ∀ j x nm, c.slot i j = some (x, nm) → IsComponent nm

theorem isComponent_dot : IsComponent [dot] := ⟨by decide, by decide, by decide, by decide⟩

theorem isComponent_dots : IsComponent [dot, dot] := ⟨by decide, by decide, by decide, by decide⟩

theorem componentNames_rootCatalog (b : ℕ) : ComponentNames (rootCatalog b) := by
  rintro i rfl j x nm hslot
  rw [slot_rootCatalog] at hslot
  by_cases hj : j = 0
  · subst hj
    rw [Function.update_self, Option.some.injEq, Prod.mk.injEq] at hslot
    exact hslot.2 ▸ isComponent_dot
  · rw [Function.update_of_ne hj] at hslot
    exact nomatch hslot

/-- The name of a new file is a component. -/
theorem isComponent_of_lastSlash (path : AbsPath) (hend : path.bytes.getLast? ≠ some slash)
    (hlast : lastSlash path.bytes path.bytes.length = some i) :
    IsComponent (path.bytes.drop ((path.bytes.take i).length + 1)) := by
  obtain ⟨hnul, hshort⟩ := path.name hlast
  obtain ⟨hi, hslash, -⟩ := splitOn_of_lastSlash hlast
  have htake : (path.bytes.take i).length = i := List.length_take_of_le hi.le
  rw [htake] at hnul hshort ⊢
  refine ⟨fun hnil => hend ?_, hslash, hnul, hshort⟩
  -- otherwise the last slash is the last byte
  have hlen : path.bytes.length = i + 1 := by
    have := List.drop_eq_nil_iff.mp hnil
    omega
  have hat := (lastSlash_eq_some hlast).1
  rw [charAt_of_lt hi] at hat
  rw [List.getLast?_eq_getElem?, hlen, Nat.add_sub_cancel, List.getElem?_eq_getElem hi, hat]

theorem ComponentNames.makeNode {type : FileType} {path : AbsPath} {env : Env} {fuel : ℕ} {ret : ℤ}
    {d' : Disk} (hnames : ComponentNames c) (h : Represents d c) (hw : c.Wf ∅)
    (hend : path.bytes.getLast? ≠ some slash)
    (hmk : makeNode type d path.bytes env fuel = some (ret, d')) :
    ∃ c', Represents d' c' ∧ c'.Wf ∅ ∧ ComponentNames c' := by
  rcases h.makeNode_cases hw (fun _ => path.name) hmk with
    ⟨-, rfl⟩ | ⟨-, i, ret₁, p, t, x, c', hlast, -, -, -, -, hx, henters⟩
  · exact ⟨c, h, hw, hnames⟩
  · refine ⟨c', henters.represents, henters.wf, fun q hq j y nm hslot => ?_⟩
    rw [henters.reserved] at hq
    rcases henters.names q hq j y nm hslot with rfl | rfl | rfl | hold
    · exact isComponent_of_lastSlash path hend hlast
    · exact isComponent_dot
    · exact isComponent_dots
    · rcases hq with rfl | hq
      · rw [Catalog.slot_reserve_self] at hold
        exact nomatch hold
      · have hqx : q ≠ x := fun he => hx (he ▸ hq)
        rw [Catalog.slot_reserve_of_ne c hqx] at hold
        exact hnames q hq j y nm hold

/-- The disks reached from a formatted one have a well-formed catalog in which all names are
components. -/
theorem exists_named_catalog_of_run {d₀ : Disk} {env : Env} {junk : Memory} {calls : List FsCall}
    (hmagic : Superblock.magicnum.get (blockRead d₀ 0) 0 ≠ magic)
    (hcalls : RunOk fsStep (fun _ call => NamesFile call) (sfsInit d₀ env junk) calls)
    (hrun : run fsStep (sfsInit d₀ env junk) calls = some d) :
    ∃ c, Represents d c ∧ c.Wf ∅ ∧ ComponentNames c := by
  obtain ⟨b, hinit⟩ := represents_sfsInit env junk hmagic
  have hstep : ∀ d₁ call d₂, (∃ c, Represents d₁ c ∧ c.Wf ∅ ∧ ComponentNames c) → NamesFile call →
      fsStep d₁ call = some d₂ → ∃ c, Represents d₂ c ∧ c.Wf ∅ ∧ ComponentNames c := by
    rintro d₁ call d₂ ⟨c, hrep, hw, hnames⟩ hend hstep
    cases call with
    | create path env fuel =>
      obtain ⟨⟨ret, d'⟩, hmk, rfl⟩ := Option.map_eq_some_iff.mp hstep
      exact hnames.makeNode hrep hw hend hmk
    | mkdir path env fuel =>
      obtain ⟨⟨ret, d'⟩, hmk, rfl⟩ := Option.map_eq_some_iff.mp hstep
      exact hnames.makeNode hrep hw hend hmk
  exact run_invariant hstep ⟨_, hinit, rootCatalog_wf b, componentNames_rootCatalog b⟩ hcalls hrun

/-- The names in a directory of such a disk are components. -/
theorem Represents.isComponent_of_mem (h : Represents d c) (hw : c.Wf ∅) (hnames : ComponentNames c)
    (hi : i ∈ c.reserved) (hmem : name ∈ (dirList d i).map Prod.snd) : IsComponent name := by
  have hres := (h.reserved i).mp hi
  rw [h.dirList_eq hres] at hmem
  split_ifs at hmem with hptr
  · cases hmem
  · obtain ⟨⟨x, nm⟩, hentry, rfl⟩ := List.mem_map.mp hmem
    obtain ⟨j, hj, hentry⟩ := List.mem_filterMap.mp hentry
    refine hnames i hi j x nm ((h.slot_eq_some hw hi).mpr ⟨⟨hres, by decide, hptr⟩, hentry⟩)

/-- On every disk that calls of `sfs_create` and `sfs_mkdir` make of a formatted one, and for every
path that leads to a directory: the names that `sfs_readdir` passes to the filler are the names with
which the path can be extended so that `sfs_getattr` returns 0. -/
theorem readdir_iff_getattr {d₀ : Disk} {env : Env} {junk : Memory} {calls : List FsCall}
    (hmagic : Superblock.magicnum.get (blockRead d₀ 0) 0 ≠ magic)
    (hcalls : RunOk fsStep (fun _ call => NamesFile call) (sfsInit d₀ env junk) calls)
    (hrun : run fsStep (sfsInit d₀ env junk) calls = some d) (path : AbsPath)
    (hend : path.bytes = [slash] ∨ path.bytes.getLast? ≠ some slash)
    (hlen : path.bytes.length < 9000) {par targ : Inode}
    (hnav : navPath d 0 0 path.bytes = (0, par, targ))
    (hdir : isDir (Inode.stMode.get targ 0) = true)
    {filler : List (List UInt8) → List UInt8 → ℤ} (hfiller : ∀ passed nm, filler passed nm = 0)
    (targ₀ : Inode) (name : List UInt8) :
    name ∈ (sfsReaddir d targ₀ path.bytes filler).2 ↔
      (name ≠ [] ∧ name.length ≤ 23 ∧ slash ∉ name ∧ 0 ∉ name) ∧
        (sfsGetattr d (extend path.bytes name)).1 = 0 := by
  obtain ⟨c, hrep, hw, hnames⟩ := exists_named_catalog_of_run hmagic hcalls hrun
  obtain ⟨-, u, -, hu, -, rfl, -⟩ := hrep.navPath hw hnav (by decide)
  have hlist : (sfsReaddir d targ₀ path.bytes filler).2 = (dirList d u).map Prod.snd := by
    rw [sfsReaddir, navPath_initial hnav, map_dirList]
    dsimp only
    rw [hdir, if_neg (by decide), fillNames_eq hfiller, List.nil_append]
  have hlookup : IsComponent name →
      ((sfsGetattr d (extend path.bytes name)).1 = 0 ↔ name ∈ (dirList d u).map Prod.snd) := by
    intro hname
    obtain ⟨v, hv, hret⟩ :=
      navPath_extend hrep.super path.nul_free path.absolute hend hlen hname hnav
    have hchild : child d v name = child d u name := by
      rw [← searchDir_eq_child hname.nul_free hname.short, ← hv,
        searchDir_eq_child hname.nul_free hname.short]
    rw [sfsGetattr_eq_zero_iff, hret, hchild, ← isSome_child_iff]
    split_ifs with hsome
    · exact iff_of_true (by decide) hsome
    · exact iff_of_false (not_not_intro rfl) hsome
  rw [hlist]
  constructor
  · intro hmem
    have hname := hrep.isComponent_of_mem hw hnames hu hmem
    have hshort := hname.short
    rw [maxFname] at hshort
    exact ⟨⟨hname.ne_nil, by omega, hname.no_slash, hname.nul_free⟩, (hlookup hname).mpr hmem⟩
  · rintro ⟨⟨hne, hshort, hslash, hnul⟩, hattr⟩
    exact (hlookup ⟨hne, hslash, hnul, by rw [maxFname]; omega⟩).mp hattr

/-- The root with the directory `/a`. -/
theorem readdir_iff_getattr_root :
    ∃ d, run fsStep (sfsInit (fun _ => 0) ⟨0, 0, 0⟩ fun _ => 1)
        [.mkdir pathA ⟨0, 0, 0⟩ 1] = some d ∧
      (sfsReaddir d 0 [slash] fun _ _ => 0).2 = [[dot], [97]] ∧
      ∀ name, name ∈ (sfsReaddir d 0 [slash] fun _ _ => 0).2 ↔
        (name ≠ [] ∧ name.length ≤ 23 ∧ slash ∉ name ∧ 0 ∉ name) ∧
          (sfsGetattr d (extend [slash] name)).1 = 0 := by
  have hend : (run fsStep (sfsInit (fun _ => 0) ⟨0, 0, 0⟩ fun _ => 1)
      [.mkdir pathA ⟨0, 0, 0⟩ 1]).map (fun d =>
        (isDir (Inode.stMode.get (navPath d 0 0 [slash]).2.2 0),
          (sfsReaddir d 0 [slash] fun _ _ => 0).2)) = some (true, [[dot], [97]]) := by
    decide +kernel
  obtain ⟨d, hd, hproj⟩ := Option.map_eq_some_iff.mp hend
  obtain ⟨hdir, hlist⟩ := Prod.mk.inj hproj
  have hcalls : RunOk fsStep (fun _ call => NamesFile call)
      (sfsInit (fun _ => 0) ⟨0, 0, 0⟩ fun _ => 1) [.mkdir pathA ⟨0, 0, 0⟩ 1] :=
    ⟨by decide, fun _ _ => trivial⟩
  exact ⟨d, hd, hlist, readdir_iff_getattr (by decide) hcalls hd
    ⟨[slash], by decide, by decide, by decide⟩ (Or.inl rfl) (by decide) rfl hdir (fun _ _ => rfl) 0⟩

end OSDesign.FS
