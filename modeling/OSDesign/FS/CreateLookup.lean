import OSDesign.FS.PathLookup

/-!
# Creating a file and looking it up

A path whose components exist in turn leads to a directory. A call of `sfs_create` or `sfs_mkdir`
for a name that the directory does not have reserves an inode and enters it there, after which the
path with the name leads to the new inode, and every path that led somewhere before leads there
still.

## Main definitions

* `absolute`: the string of an absolute path, also for the root.
* `Resolves`: what `navPath` says about a path.

## Main results

* `navPath_absolute`: `navPath` on a path that leads somewhere.
* `Represents.lookup_makeNode`: a call and the lookups after it.
* `create_then_lookup`.
-/

namespace OSDesign.FS

open ByteMemory Transition

variable {d d' : Disk} {c : Catalog} {i t x : ℕ} {cs : List (List UInt8)} {name : List UInt8}

/-! ### Paths -/

/-- The string of the path: `/` or `/c₁/…/cₙ`. -/
def absolute (cs : List (List UInt8)) : List UInt8 := if cs = [] then [slash] else pathOf cs

/-- `navPath` returns 0 for the path, with an inode of the given number and mode. -/
def Resolves (d : Disk) (path : List UInt8) (i mode : ℕ) : Prop :=
  ∀ par targ, ∃ p t, navPath d par targ path = (0, p, t) ∧ Inode.stIno.get t 0 = i ∧
    Inode.stMode.get t 0 = mode

theorem pathOf_append (cs : List (List UInt8)) (name : List UInt8) :
    pathOf (cs ++ [name]) = pathOf cs ++ slash :: name := by
  rw [pathOf, List.flatMap_append, List.flatMap_singleton, pathOf]

theorem lastSlash_eq_of_charAt {path : List UInt8} {n : ℕ} (hi : i ≤ n)
    (hslash : charAt path i = slash) (hafter : ∀ k, i < k → k ≤ n → charAt path k ≠ slash) :
    lastSlash path n = some i := by
  induction n with
  | zero =>
    obtain rfl := Nat.le_zero.mp hi
    exact if_pos hslash
  | succ n ih =>
    rcases Nat.lt_or_eq_of_le hi with hlt | rfl
    · rw [lastSlash, if_neg (hafter (n + 1) hlt le_rfl)]
      exact ih (Nat.le_of_lt_succ hlt) fun k hk hkn => hafter k hk (hkn.trans n.le_succ)
    · exact if_pos hslash

/-- The last slash of a path is the one in front of its last component. -/
theorem lastSlash_pathOf (hname : slash ∉ name) (cs : List (List UInt8)) :
    lastSlash (pathOf (cs ++ [name])) (pathOf (cs ++ [name])).length = some (pathOf cs).length := by
  rw [pathOf_append]
  refine lastSlash_eq_of_charAt ?_ ?_ fun k hk _ hslash => ?_
  · rw [List.length_append]
    exact Nat.le_add_right ..
  · exact charAt_eq_head List.drop_left
  · -- behind the slash there is the name, and then the end of the string
    obtain ⟨n, rfl⟩ := Nat.exists_eq_add_of_lt hk
    have hdrop : (pathOf cs ++ slash :: name).drop ((pathOf cs).length + n + 1) = name.drop n := by
      rw [Nat.add_assoc, ← List.drop_drop, List.drop_left, List.drop_succ_cons]
    rw [charAt_eq_head hdrop, List.headD_eq_head?_getD, List.head?_drop] at hslash
    cases hget : name[n]? with
    | none =>
      rw [hget] at hslash
      exact absurd hslash (by decide)
    | some a =>
      rw [hget, Option.getD_some] at hslash
      exact hname (hslash ▸ List.mem_of_getElem? hget)

/-- `/` and the empty string lead to the root. -/
theorem navPath_of_length_le_one (hs : SuperOk d) (par targ : Inode) (path : List UInt8)
    (hlen : path.length ≤ 1) : navPath d par targ path = (0, getInode d 0, getInode d 0) := by
  rw [navPath, if_pos (by omega), hs.iList, getInode_eq]
  rfl

/-- `navPath` on a path whose components exist in turn. -/
theorem navPath_of_walk (hs : SuperOk d) (par targ : Inode) (hcs : ∀ c ∈ cs, IsComponent c)
    (hlen : (pathOf cs).length < 10000) (hwalk : walk d 0 cs = some t) :
    ∃ p, walk d 0 cs.dropLast = some p ∧
      navPath d par targ (pathOf cs) = (0, getInode d p, getInode d t) := by
  by_cases hne : cs = []
  · subst hne
    obtain rfl := Option.some.inj hwalk
    exact ⟨0, rfl, navPath_of_length_le_one hs par targ (pathOf []) (Nat.zero_le 1)⟩
  · rw [walk_eq_bind_getLast d 0 hne] at hwalk
    obtain ⟨p, hp, hchild⟩ := Option.bind_eq_some_iff.mp hwalk
    refine ⟨p, hp, ?_⟩
    rw [navPath_pathOf hs par targ hne hcs hlen, skipWalk_of_walk hp]
    dsimp only
    rw [hchild]
    rfl

theorem navPath_absolute (hs : SuperOk d) (par targ : Inode) (cs : List (List UInt8)) :
    navPath d par targ (absolute cs) = navPath d par targ (pathOf cs) := by
  rw [absolute]
  split_ifs with hne
  · rw [hne, navPath_of_length_le_one hs par targ [slash] le_rfl]
    exact (navPath_of_length_le_one hs par targ (pathOf []) (Nat.zero_le 1)).symm
  · rfl

theorem length_pathOf_le (cs : List (List UInt8)) : (pathOf cs).length ≤ (absolute cs).length := by
  rw [absolute]
  split_ifs with hne
  · rw [hne]
    exact Nat.zero_le _
  · exact le_rfl

/-! ### Lookups after a call -/

theorem Represents.reserved_walk {N : Set ℕ} (h : Represents d c) (hw : c.Wf N) (hi : Reserved d i)
    (hcs : ∀ c ∈ cs, IsComponent c) (hwalk : walk d i cs = some x) : Reserved d x :=
  skipWalk_of_walk hwalk ▸ h.reserved_skipWalk hw hi hcs

/-- A path whose components exist in turn leads to an inode that knows its number. -/
theorem Represents.resolves {N : Set ℕ} (h : Represents d c) (hw : c.Wf N)
    (hcs : ∀ c ∈ cs, IsComponent c) (hlen : (absolute cs).length < 10000)
    (hwalk : walk d 0 cs = some x) : Resolves d (absolute cs) x (mode d x) := by
  intro par targ
  obtain ⟨p, -, hnav⟩ :=
    navPath_of_walk h.super par targ hcs ((length_pathOf_le cs).trans_lt hlen) hwalk
  have hx := h.reserved_walk hw ((h.reserved 0).mp hw.root_reserved) hcs hwalk
  exact ⟨_, _, (navPath_absolute h.super par targ cs).trans hnav, h.ino x hx, rfl⟩

/-- Where names lead to the same inodes as before, paths do. -/
theorem Represents.walk_mono {N : Set ℕ} (h : Represents d c) (hw : c.Wf N)
    (hchild : ∀ i, Reserved d i → ∀ nm y, child d i nm = some y → child d' i nm = some y)
    (hi : Reserved d i) (hcs : ∀ c ∈ cs, IsComponent c) (hwalk : walk d i cs = some x) :
    walk d' i cs = some x := by
  induction cs generalizing i with
  | nil => exact hwalk
  | cons nm cs ih =>
    obtain ⟨y, hy, hrest⟩ := Option.bind_eq_some_iff.mp hwalk
    have hres := h.reserved_child hw hi (hcs nm List.mem_cons_self) hy
    rw [walk, run_cons, hchild i hi nm y hy, Option.bind_some]
    exact ih hres (fun nm' hnm' => hcs nm' (List.mem_cons_of_mem nm hnm')) hrest

/-- A call that succeeds makes a new inode, which the directory has under the name. -/
theorem Represents.lookup_makeNode {type : FileType} {env : Env} {fuel : ℕ} (h : Represents d c)
    (hw : c.Wf ∅) (hcs : ∀ c ∈ cs, IsComponent c) (hname : IsComponent name) (hdot : name ≠ [dot])
    (hdots : name ≠ [dot, dot]) (hwalk : walk d 0 cs = some t) (habsent : child d t name = none)
    (hlen : (pathOf (cs ++ [name])).length < 255)
    (hmk : FS.makeNode type d (pathOf (cs ++ [name])) env fuel = some (0, d')) :
    ∃ x c', Represents d' c' ∧ c'.Wf ∅ ∧ ¬Reserved d x ∧ Reserved d' x ∧ mode d' x = type.mode ∧
      child d' t name = some x ∧ (∀ i, Reserved d i → mode d' i = mode d i) ∧
      ∀ i, Reserved d i → ∀ nm y, child d i nm = some y → child d' i nm = some y := by
  have hpath := pathOf_append cs name
  have hslash := lastSlash_pathOf hname.no_slash cs
  have htake : (pathOf (cs ++ [name])).take (pathOf cs).length = pathOf cs := by
    rw [hpath, List.take_left]
  have hdrop : (pathOf (cs ++ [name])).drop ((pathOf cs).length + 1) = name := by
    rw [hpath, ← List.drop_drop, List.drop_left]
    rfl
  have hshort : (pathOf cs).length < 10000 := by
    rw [hpath, List.length_append] at hlen
    omega
  have hfile : ∀ i, lastSlash (pathOf (cs ++ [name])) (pathOf (cs ++ [name])).length = some i →
      (pathOf (cs ++ [name])).drop (((pathOf (cs ++ [name])).take i).length + 1) = name := by
    intro i hi
    rw [hslash, Option.some.injEq] at hi
    rw [← hi, htake, hdrop]
  rcases h.makeNode_cases hw (fun i hi => by
      rw [hfile i hi]
      exact ⟨hname.nul_free, hname.short⟩) hmk with
    ⟨hret, -⟩ | ⟨-, i, ret₁, p, t', x, c', hi, hnav, -, ht', hx, hxc, henters⟩
  · exact absurd hret (by decide)
  rw [hfile i hi] at henters
  rw [hslash, Option.some.injEq] at hi
  rw [← hi, htake] at hnav
  have ht := h.reserved_walk hw ((h.reserved 0).mp hw.root_reserved) hcs hwalk
  obtain ⟨p', -, hnav'⟩ := navPath_of_walk h.super 0 0 hcs hshort hwalk
  obtain rfl : t' = t :=
    h.getInode_inj ((h.reserved t').mp ht') ht (congrArg (·.2.2) (hnav.symm.trans hnav'))
  have hfree : ¬Reserved d x := fun hr => hxc ((h.reserved x).mpr hr)
  have hne {i : ℕ} (hi : Reserved d i) : i ≠ x := fun he => hfree (he ▸ hi)
  have hrep₁ := h.reserve hx hfree env type
  have hres₁ {i : ℕ} (hi : i = x ∨ Reserved d i) : i ∈ (c.reserve x).reserved :=
    hi.imp id (h.reserved i).mpr
  have hchild₁ {i : ℕ} (hi : Reserved d i) (nm : List UInt8) :
      (c.reserve x).child i nm = child d i nm := by
    rw [Catalog.child_reserve (hne hi), h.child_eq hw ((h.reserved i).mpr hi)]
  have hchild' {i : ℕ} (hi : Reserved d i) (nm : List UInt8) : child d' i nm = c'.child i nm :=
    henters.represents.child_eq henters.wf (henters.reserved ▸ hres₁ (Or.inr hi)) nm
  refine ⟨x, c', henters.represents, henters.wf, hfree, ?_, ?_, ?_, fun i hi => ?_,
    fun i hi nm y hy => ?_⟩
  · exact (henters.represents.reserved x).mp (henters.reserved ▸ hres₁ (Or.inl rfl))
  · rw [henters.mode x ((hrep₁.reserved x).mp (hres₁ (Or.inl rfl))), mode_eq, stMode_newInode]
  · rw [hchild' ht]
    exact henters.child_new ((hchild₁ ht name).trans habsent) hdot hdots
  · rw [henters.mode i ((hrep₁.reserved i).mp (hres₁ (Or.inr hi)))]
    exact mode_congr (inode_eqOn_reserve hx (hne hi) env type)
  · rw [hchild' hi]
    refine henters.child_old i (hres₁ (Or.inr hi)) nm (fun hit hnm => ?_) y
      ((hchild₁ hi nm).trans hy)
    rw [hit, hnm, habsent] at hy
    exact nomatch hy

/-- The path leads to a new inode of the given type in the directory `t`, and every path leads to
where it led before. -/
def Created (type : FileType) (d d' : Disk) (t : ℕ) (path : List UInt8) : Prop :=
  (∃ x, ¬Reserved d x ∧ Reserved d' x ∧ mode d' x = type.mode ∧
    ∀ par targ, navPath d' par targ path = (0, getInode d' t, getInode d' x)) ∧
  ∀ cs, (∀ c ∈ cs, IsComponent c) → (absolute cs).length < 10000 → ∀ y, walk d 0 cs = some y →
    ∃ mode, Resolves d (absolute cs) y mode ∧ Resolves d' (absolute cs) y mode

theorem Represents.created {type : FileType} {env : Env} {fuel : ℕ} (h : Represents d c)
    (hw : c.Wf ∅) (hcs : ∀ c ∈ cs, IsComponent c) (hname : IsComponent name) (hdot : name ≠ [dot])
    (hdots : name ≠ [dot, dot]) (hwalk : walk d 0 cs = some t) (habsent : child d t name = none)
    (hlen : (pathOf (cs ++ [name])).length < 255)
    (hmk : FS.makeNode type d (pathOf (cs ++ [name])) env fuel = some (0, d')) :
    Created type d d' t (pathOf (cs ++ [name])) := by
  obtain ⟨x, c', hrep', hw', hfree, hres, hmode, hnew, hmodes, hchild⟩ :=
    h.lookup_makeNode hw hcs hname hdot hdots hwalk habsent hlen hmk
  have hroot := (h.reserved 0).mp hw.root_reserved
  refine ⟨⟨x, hfree, hres, hmode, fun par targ => ?_⟩, fun cs' hcs' hlen' y hy => ?_⟩
  · have hcs' : ∀ c ∈ cs ++ [name], IsComponent c := fun c hc => by
      rcases List.mem_append.mp hc with hc | hc
      · exact hcs c hc
      · exact List.mem_singleton.mp hc ▸ hname
    have hwalk' := h.walk_mono hw hchild hroot hcs hwalk
    obtain ⟨p, hp, hnav⟩ := navPath_of_walk hrep'.super par targ hcs' (hlen.trans (by decide))
      (by rw [walk, run_concat, ← walk, hwalk', Option.bind_some, hnew])
    rw [List.dropLast_concat, hwalk', Option.some.injEq] at hp
    rw [hnav, hp]
  · refine ⟨mode d y, h.resolves hw hcs' hlen' hy, ?_⟩
    rw [← hmodes y (h.reserved_walk hw hroot hcs' hy)]
    exact hrep'.resolves hw' hcs' hlen' (h.walk_mono hw hchild hroot hcs' hy)

/-- **Create, then look up.** On a disk reached from a formatted one, the components of the path of
a directory exist in turn, and the directory does not have the name. When `sfs_create` or
`sfs_mkdir` returns 0 for the path with the name, the path leads to a new inode of the right mode in
the directory, and every path leads to the inode that it led to before, with the mode that it had.
-/
theorem create_then_lookup {d₀ : Disk} {env₀ : Env} {junk : Memory} {calls : List FsCall}
    (hmagic : Superblock.magicnum.get (blockRead d₀ 0) 0 ≠ magic)
    (hrun : run fsStep (sfsInit d₀ env₀ junk) calls = some d) (hcs : ∀ c ∈ cs, IsComponent c)
    (hname : IsComponent name) (hdot : name ≠ [dot]) (hdots : name ≠ [dot, dot])
    (hwalk : walk d 0 cs = some t) (habsent : child d t name = none)
    (hlen : (pathOf (cs ++ [name])).length < 255) (env : Env) (fuel : ℕ) (d' : Disk) :
    (sfsCreate d (pathOf (cs ++ [name])) env fuel = some (0, d') →
      Created .file d d' t (pathOf (cs ++ [name]))) ∧
    (sfsMkdir d (pathOf (cs ++ [name])) env fuel = some (0, d') →
      Created .directory d d' t (pathOf (cs ++ [name]))) := by
  obtain ⟨c, hrep, hw⟩ := exists_catalog_of_run hmagic hrun
  exact ⟨hrep.created hw hcs hname hdot hdots hwalk habsent hlen,
    hrep.created hw hcs hname hdot hdots hwalk habsent hlen⟩

/-- The file `/a/b` is created in the directory `/a`. -/
theorem create_then_lookup_nested :
    ∃ d d', run fsStep (sfsInit (fun _ => 0) ⟨0, 0, 0⟩ fun _ => 1) singleCall = some d ∧
      sfsCreate d (pathOf ([[97]] ++ [[98]])) ⟨0, 0, 0⟩ 1 = some (0, d') ∧
      Created .file d d' 1 (pathOf ([[97]] ++ [[98]])) := by
  have hend : (run fsStep (sfsInit (fun _ => 0) ⟨0, 0, 0⟩ fun _ => 1) singleCall).map
      (fun d => (walk d 0 [[97]], child d 1 [98],
        (sfsCreate d (pathOf ([[97]] ++ [[98]])) ⟨0, 0, 0⟩ 1).map Prod.fst)) =
        some (some 1, none, some 0) := by
    decide +kernel
  obtain ⟨d, hd, hproj⟩ := Option.map_eq_some_iff.mp hend
  rw [Prod.mk.injEq, Prod.mk.injEq] at hproj
  obtain ⟨hwalk, habsent, hret⟩ := hproj
  obtain ⟨⟨ret, d'⟩, hcreate, rfl⟩ := Option.map_eq_some_iff.mp hret
  refine ⟨d, d', hd, hcreate, ?_⟩
  have ha : IsComponent [97] := isComponent_of_letter (by decide) (by decide)
  have hb : IsComponent [98] := isComponent_of_letter (by decide) (by decide)
  exact (create_then_lookup (by decide) hd (fun c hc => List.mem_singleton.mp hc ▸ ha) hb
    (by decide) (by decide) hwalk habsent (by decide) ⟨0, 0, 0⟩ 1 d').1 hcreate

end OSDesign.FS
