import OSDesign.FS.Walk

/-!
# The disk and its catalog

A disk represents a catalog when the maps, the first pointers of the reserved inodes and the entries
of the marked blocks say what the catalog says, no reserved inode has a further pointer, and every
reserved inode knows its number. The functions of the file system change the disk as the steps of
the catalog change the catalog.

## Main definitions

* `Represents`.
* `Enters`: a new entry, on the disk and in the catalog.

## Main results

* `Represents.reserve`, `Represents.grow`, `Represents.link`: the writes to the disk are the steps
  of the catalog.
* `Represents.navPath`: a path that is found leads to a reserved inode.
* `Represents.updateDir`: a directory is given a new entry.
* `represents_sfsInit`: the formatted disk represents the catalog of the root.
* `Represents.child_eq`: a name leads to the same inode on the disk and in the catalog.
* `Represents.makeNode_cases`, `Represents.makeNode`: creating a file enters a new inode, and keeps
  a disk with a well-formed catalog.
-/

namespace OSDesign.FS

open ByteMemory

variable {d d' : Disk} {c : Catalog} {b i j p t : ℕ}

/-- The block that the first pointer of an inode leads to. -/
def firstBlock (node : Inode) : Option ℕ :=
  if (Inode.directp 0).get node 0 = 0 then none else some ((Inode.directp 0).get node 0)

/-- The disk represents the catalog. -/
structure Represents (d : Disk) (c : Catalog) : Prop where
  super : SuperOk d
  reserved : ∀ i, i ∈ c.reserved ↔ Reserved d i
  marked : ∀ b, b ∈ c.marked ↔ Marked d b
  ino : ∀ i, Reserved d i → ino d i = i
  block : ∀ i, Reserved d i → c.block i = firstBlock (getInode d i)
  single : ∀ i, Reserved d i → ∀ k, 0 < k → k < numDirectPointers → directp d i k = 0
  entry : ∀ b, Marked d b → c.entry b = entry d b

theorem firstBlock_congr (h : directp d' i 0 = directp d i 0) :
    firstBlock (getInode d' i) = firstBlock (getInode d i) := by
  rw [directp, directp] at h
  rw [firstBlock, firstBlock, h]

theorem firstBlock_eq_none {node : Inode} (h : (Inode.directp 0).get node 0 = 0) :
    firstBlock node = none := if_pos h

theorem firstBlock_eq_some {node : Inode} (h : (Inode.directp 0).get node 0 ≠ 0) :
    firstBlock node = some ((Inode.directp 0).get node 0) := if_neg h

theorem Reserved.lt (h : Reserved d i) : i < 2048 := (reserved_iff.mp h).1

/-- The bytes of an inode. -/
theorem inode_eqOn (h : ∀ x, inodeAddr i ≤ x → x < inodeAddr i + 256 → d' x = d x) :
    Set.EqOn d' d (Set.Ico (inodeAddr i) (inodeAddr i + inodeSize)) :=
  fun x hx => h x hx.1 hx.2

/-! ### The inodes after a step -/

/-- Reserving an inode changes no other one. -/
theorem inode_eqOn_reserve {x : ℕ} (hi : i < 2048) (hne : x ≠ i) (env : Env) (type : FileType) :
    Set.EqOn (newInode (Function.update d (imapAddr i) 1) (inodeAddr i) env type i) d
      (Set.Ico (inodeAddr x) (inodeAddr x + inodeSize)) := by
  have haddr := inodeAddr_def i
  have hmap := imapAddr_def i
  have hxaddr := inodeAddr_def x
  refine inode_eqOn fun y hy₁ hy₂ => ?_
  have hout : y ∉ Set.Ico (inodeAddr i) (inodeAddr i + inodeSize) := fun hy => by
    have hle := hy.1
    have hlt : y < inodeAddr i + 256 := hy.2
    omega
  rw [newInode_eqOn _ _ env type i hout, Function.update_of_ne (by omega)]

/-- A new block changes no inode. -/
theorem inode_eqOn_initDir {x : ℕ} (hb : 1089 ≤ b ∧ b < 31809) (hx : x < 2048) (p : ℕ) :
    Set.EqOn (initDir (Function.update d (dmapAddr b) 1) b t p) d
      (Set.Ico (inodeAddr x) (inodeAddr x + inodeSize)) := by
  have hmap := dmapAddr_def b
  have hxaddr := inodeAddr_def x
  refine inode_eqOn fun y hy₁ hy₂ => ?_
  rw [initDir_apply_of_not_mem (by omega), Function.update_of_ne (by omega)]

/-- A pointer is in its inode. -/
theorem inode_eqOn_directp {x : ℕ} (hne : x ≠ t) (v : ℕ) :
    Set.EqOn ((Inode.directp 0).set d (inodeAddr t) v) d
      (Set.Ico (inodeAddr x) (inodeAddr x + inodeSize)) := by
  have haddr := inodeAddr_def t
  have hxaddr := inodeAddr_def x
  refine inode_eqOn fun y hy₁ hy₂ => (Inode.directp 0).set_eqOn _ _ _ (show _ ≤ 256 by decide) ?_
  rintro ⟨hle, hlt⟩
  omega

/-- Writing a data block changes no inode. -/
theorem inode_eqOn_blockWrite {x : ℕ} (hb : 1089 ≤ b) (hx : x < 2048) (buf : Memory) :
    Set.EqOn (blockWrite d b buf) d (Set.Ico (inodeAddr x) (inodeAddr x + inodeSize)) := by
  have hxaddr := inodeAddr_def x
  exact inode_eqOn fun y hy₁ hy₂ => blockWrite_apply_of_not_mem buf (by omega)

/-! ### The steps -/

/-- Reserving an inode. -/
theorem Represents.reserve (h : Represents d c) (hi : i < 2048) (hfree : ¬Reserved d i) (env : Env)
    (type : FileType) :
    Represents (newInode (Function.update d (imapAddr i) 1) (inodeAddr i) env type i)
      (c.reserve i) := by
  set d' := newInode (Function.update d (imapAddr i) 1) (inodeAddr i) env type i with hd'
  have haddr := inodeAddr_def i
  have hmap := imapAddr_def i
  have hframe : ∀ x, x ≠ imapAddr i → ¬(inodeAddr i ≤ x ∧ x < inodeAddr i + 256) → d' x = d x :=
    fun x hne hx => (newInode_eqOn _ _ env type i hx).trans (Function.update_of_ne hne ..)
  have hself : d' (imapAddr i) = 1 := by
    have hout : imapAddr i ∉ Set.Ico (inodeAddr i) (inodeAddr i + inodeSize) :=
      fun hx => absurd hx.1 (by omega)
    rw [hd', newInode_eqOn _ _ env type i hout, Function.update_self]
  have hres : ∀ x, Reserved d' x ↔ x = i ∨ Reserved d x := fun x => by
    by_cases hx : x = i
    · subst hx
      rw [reserved_iff, hself]
      exact ⟨fun _ => Or.inl rfl, fun _ => ⟨hi, by decide⟩⟩
    · have hxmap := imapAddr_def x
      rw [reserved_iff, reserved_iff]
      refine Iff.trans (and_congr_right fun hlt => ?_) (or_iff_right hx).symm
      rw [hframe _ (by omega) (by omega)]
  have hother :
      ∀ x, Reserved d x → Set.EqOn d' d (Set.Ico (inodeAddr x) (inodeAddr x + inodeSize)) :=
    fun x hx => inode_eqOn_reserve hi (fun he => hfree (he ▸ hx)) env type
  have hptr : ∀ k < numDirectPointers, directp d' i k = 0 := fun k hk => by
    rw [directp_eq, hd', directp_newInode _ _ _ _ _ hk]
  constructor
  · exact h.super.congr fun x hx => hframe x (by omega) (by omega)
  · intro x
    rw [hres, ← h.reserved]
    exact Set.mem_insert_iff
  · intro x
    rw [show x ∈ (c.reserve i).marked ↔ Marked d x from h.marked x, marked_iff, marked_iff]
    refine and_congr_right fun hl => and_congr_right fun hr => ?_
    have := dmapAddr_def x
    rw [hframe _ (by omega) (by omega)]
  · intro x hx
    rcases (hres x).mp hx with rfl | hx
    · rw [ino_eq, hd', stIno_newInode _ _ _ _ hi]
    · rw [ino_congr (hother x hx), h.ino x hx]
  · intro x hx
    rcases (hres x).mp hx with rfl | hx
    · rw [firstBlock_eq_none (hptr 0 (by decide))]
      exact Function.update_self ..
    · have hxi : x ≠ i := fun he => hfree (he ▸ hx)
      rw [firstBlock_congr (directp_congr (by decide) (hother x hx)), ← h.block x hx]
      exact Function.update_of_ne hxi ..
  · intro x hx k hk₀ hk
    rcases (hres x).mp hx with rfl | hx
    · exact hptr k hk
    · rw [directp_congr hk (hother x hx), h.single x hx k hk₀ hk]
  · intro x hx
    obtain ⟨hl, hr, hbyte⟩ := marked_iff.mp hx
    have := dmapAddr_def x
    rw [hframe _ (by omega) (by omega)] at hbyte
    rw [entry_congr_of_block fun y hy₁ hy₂ => hframe y (by omega) (by omega)]
    exact h.entry x (marked_iff.mpr ⟨hl, hr, hbyte⟩)

/-- Setting a pointer of an inode in the block read before is setting it in place. -/
theorem blockWrite_directp (d : Disk) (i v : ℕ) :
    blockWrite d (65 + i / 2)
      ((Inode.directp 0).set (blockRead d (65 + i / 2)) (inodeOffset i) v) =
      (Inode.directp 0).set d (inodeAddr i) v := by
  have hoff : inodeOffset i + inodeSize ≤ 512 := by
    rw [inodeOffset, inodeSize]
    split_ifs <;> omega
  rw [blockWrite, blockSize, Field.paste_set _ inodeSize (by decide) hoff, blockRead, blockSize,
    paste_view, inodeAddr_eq]

/-- A block for a directory. -/
theorem Represents.grow (h : Represents d c) (hb : 1089 ≤ b ∧ b < 31809) (hfree : ¬Marked d b)
    (ht : Reserved d t) (hp : Reserved d p) (hne : t ≠ p) :
    Represents ((Inode.directp 0).set
      (initDir (Function.update d (dmapAddr b) 1) b t p) (inodeAddr t) b) (c.grow t p b) := by
  set d₁ := initDir (Function.update d (dmapAddr b) 1) b t p with hd₁
  set d' := (Inode.directp 0).set d₁ (inodeAddr t) b with hd'
  have haddr := inodeAddr_def t
  have hmap := dmapAddr_def b
  have htlt := ht.lt
  have hset : ∀ x, ¬(inodeAddr t ≤ x ∧ x < inodeAddr t + 256) → d' x = d₁ x := fun x hx =>
    (Inode.directp 0).set_eqOn _ _ _ (show _ ≤ 256 by decide) hx
  have hframe₁ : ∀ x, x ≠ dmapAddr b → ¬(512 * b ≤ x ∧ x < 512 * b + 512) → d₁ x = d x :=
    fun x hne hx => (initDir_apply_of_not_mem hx).trans (Function.update_of_ne hne ..)
  have hframe : ∀ x, x ≠ dmapAddr b → ¬(512 * b ≤ x ∧ x < 512 * b + 512) →
      ¬(inodeAddr t ≤ x ∧ x < inodeAddr t + 256) → d' x = d x :=
    fun x h₁ h₂ h₃ => (hset x h₃).trans (hframe₁ x h₁ h₂)
  have hres : ∀ x, Reserved d' x ↔ Reserved d x := fun x => by
    have hxmap := imapAddr_def x
    rw [reserved_iff, reserved_iff]
    refine and_congr_right fun hlt => ?_
    rw [hframe _ (by omega) (by omega) (by omega)]
  have hself : d' (dmapAddr b) = 1 := by
    rw [hset _ (by omega), hd₁, initDir_apply_of_not_mem (by omega), Function.update_self]
  have hmarked : ∀ x, Marked d' x ↔ x = b ∨ Marked d x := fun x => by
    by_cases hx : x = b
    · subst hx
      rw [marked_iff, hself]
      exact ⟨fun _ => Or.inl rfl, fun _ => ⟨hb.1, hb.2, by decide⟩⟩
    · have hxmap := dmapAddr_def x
      rw [marked_iff, marked_iff]
      refine Iff.trans (and_congr_right fun hl => and_congr_right fun hr => ?_)
        (or_iff_right hx).symm
      rw [hframe _ (by omega) (by omega) (by omega)]
  -- The pointer is changed in the inode of `t`, and no other inode is.
  have hinode : ∀ x, Reserved d x → x ≠ t →
      Set.EqOn d' d (Set.Ico (inodeAddr x) (inodeAddr x + inodeSize)) := fun x hx hxt =>
    (inode_eqOn_directp hxt b).trans (inode_eqOn_initDir hb hx.lt p)
  have hinode₁ : Set.EqOn d₁ d (Set.Ico (inodeAddr t) (inodeAddr t + inodeSize)) :=
    inode_eqOn_initDir hb htlt p
  have hptr : directp d' t 0 = b := by
    rw [directp_eq, hd', Field.get_set_self]
    exact Nat.mod_eq_of_lt (hb.2.trans (by decide))
  constructor
  · exact h.super.congr fun x hx => hframe x (by omega) (by omega) (by omega)
  · intro x
    rw [hres]
    exact h.reserved x
  · intro x
    rw [hmarked, ← h.marked]
    exact Set.mem_insert_iff
  · intro x hx
    rw [hres] at hx
    by_cases hxt : x = t
    · subst hxt
      rw [ino_eq, hd', Field.get_set_of_apart (by decide), ← ino_eq, ino_congr hinode₁, h.ino x hx]
    · rw [ino_congr (hinode x hx hxt), h.ino x hx]
  · intro x hx
    rw [hres] at hx
    by_cases hxt : x = t
    · subst hxt
      have hne : directp d' x 0 ≠ 0 := by omega
      rw [firstBlock_eq_some hne, show (Inode.directp 0).get (getInode d' x) 0 = b from hptr]
      exact Function.update_self ..
    · rw [firstBlock_congr (directp_congr (by decide) (hinode x hx hxt)), ← h.block x hx]
      exact Function.update_of_ne hxt ..
  · intro x hx k hk₀ hk
    rw [hres] at hx
    by_cases hxt : x = t
    · subst hxt
      have hapart : (Inode.directp 0).Apart (Inode.directp k) := Or.inl (by
        simp only [Inode.directp]
        omega)
      rw [directp_eq, hd', Field.get_set_of_apart hapart, ← directp_eq, directp_congr hk hinode₁,
        h.single x hx k hk₀ hk]
    · rw [directp_congr hk (hinode x hx hxt), h.single x hx k hk₀ hk]
  · intro x hx
    rcases (hmarked x).mp hx with rfl | hx
    · have hblock : FS.entry d' x = FS.entry d₁ x :=
        entry_congr_of_block fun y hy₁ hy₂ => hset y (by omega)
      rw [hblock, hd₁, entry_initDir _ _ htlt hp.lt hne]
      exact Function.update_self ..
    · have hxb : x ≠ b := fun he => hfree (he ▸ hx)
      obtain ⟨hl, hr, -⟩ := marked_iff.mp hx
      rw [entry_congr_of_block fun y hy₁ hy₂ => hframe y (by omega) (by omega) (by omega),
        ← h.entry x hx]
      exact Function.update_of_ne hxb ..

/-- A new entry. -/
theorem Represents.link (h : Represents d c) (hb : Marked d b) (hj : j < dirEntries) {x : ℕ}
    (hx : x < 2048) {name : List UInt8} (hnul : 0 ∉ name) (hlen : name.length < maxFname) :
    Represents (blockWrite d b
      (strcpy ((MyDir.inums j).set (blockRead d b) 0 x) (MyDir.fnames j) name))
      (c.link b j x name) := by
  set d' := blockWrite d b
    (strcpy ((MyDir.inums j).set (blockRead d b) 0 x) (MyDir.fnames j) name) with hd'
  obtain ⟨hbl, hbr, -⟩ := marked_iff.mp hb
  have hframe : ∀ y, ¬(512 * b ≤ y ∧ y < 512 * b + 512) → d' y = d y :=
    fun y hy => blockWrite_apply_of_not_mem _ hy
  have hres : ∀ y, Reserved d' y ↔ Reserved d y := fun y => by
    have := imapAddr_def y
    rw [reserved_iff, reserved_iff]
    refine and_congr_right fun hlt => ?_
    rw [hframe _ (by omega)]
  have hmarked : ∀ y, Marked d' y ↔ Marked d y := fun y => by
    have := dmapAddr_def y
    rw [marked_iff, marked_iff]
    refine and_congr_right fun hl => and_congr_right fun hr => ?_
    rw [hframe _ (by omega)]
  have hinode : ∀ y, Reserved d y →
      Set.EqOn d' d (Set.Ico (inodeAddr y) (inodeAddr y + inodeSize)) :=
    fun y hy => inode_eqOn_blockWrite hbl hy.lt _
  constructor
  · exact h.super.congr fun y hy => hframe y (by omega)
  · exact fun y => (h.reserved y).trans (hres y).symm
  · exact fun y => (h.marked y).trans (hmarked y).symm
  · intro y hy
    rw [hres] at hy
    rw [ino_congr (hinode y hy), h.ino y hy]
  · intro y hy
    rw [hres] at hy
    rw [firstBlock_congr (directp_congr (by decide) (hinode y hy))]
    exact h.block y hy
  · intro y hy k hk₀ hk
    rw [hres] at hy
    rw [directp_congr hk (hinode y hy), h.single y hy k hk₀ hk]
  · intro y hy
    rw [hmarked] at hy
    by_cases hyb : y = b
    · subst hyb
      rw [hd', entry_link d y hj hx hnul hlen, ← h.entry y hy]
      exact Function.update_self ..
    · obtain ⟨hl, hr, -⟩ := marked_iff.mp hy
      rw [entry_congr_of_block fun z hz₁ hz₂ => hframe z (by omega), ← h.entry y hy]
      exact Function.update_of_ne hyb ..

/-! ### Looking up a path -/

/-- The search in a reserved directory finds an entry of the catalog. -/
theorem Represents.slot_of_searchDir {N : Set ℕ} {name : List UInt8} {x : ℕ} (h : Represents d c)
    (hw : c.Wf N) (hp : p ∈ c.reserved) (hfound : searchDir d (getInode d p) name = some x) :
    ∃ j nm, c.slot p j = some (x, nm) := by
  obtain ⟨k, hk, hptr, j, nm, hentry⟩ := searchDir_eq_some hfound
  have hres := (h.reserved p).mp hp
  obtain rfl : k = 0 := by
    by_contra hk₀
    exact hptr (h.single p hres k (Nat.pos_of_ne_zero hk₀) hk)
  have hblock : c.block p = some (directp d p 0) := (h.block p hres).trans (firstBlock_eq_some hptr)
  have hmarked := (h.marked _).mp (hw.block_marked p hp _ hblock)
  refine ⟨j, nm, ?_⟩
  rw [Catalog.slot, hblock, Option.bind_some, h.entry _ hmarked, hentry]

theorem map_find?_filterMap (f : ℕ → Option (ℕ × List UInt8)) (name : List UInt8) (ks : List ℕ) :
    ((ks.filterMap f).find? fun e => e.2 = name).map Prod.fst =
      ks.findSome? fun k => (f k).bind fun e => if e.2 = name then some e.1 else none := by
  induction ks with
  | nil => rfl
  | cons k ks ih =>
    rw [List.filterMap_cons, List.findSome?_cons]
    rcases f k with _ | ⟨x, nm⟩
    · exact ih
    · rw [Option.bind_some, List.find?_cons]
      by_cases hname : nm = name
      · rw [if_pos hname, decide_eq_true hname]
        rfl
      · rw [if_neg hname, decide_eq_false hname]
        exact ih

/-- Only the first pointer of an inode leads to entries. -/
theorem Represents.dirList_eq (h : Represents d c) (hi : Reserved d i) :
    dirList d i = if directp d i 0 = 0 then []
      else (List.range dirEntries).filterMap (FS.entry d (directp d i 0)) := by
  have hrest : ((List.range 43).map Nat.succ).flatMap (fun k => if directp d i k = 0 then []
      else (List.range dirEntries).filterMap (FS.entry d (directp d i k))) = [] := by
    refine List.flatMap_eq_nil_iff.mpr fun k hk => if_pos ?_
    obtain ⟨n, hn, rfl⟩ := List.mem_map.mp hk
    exact h.single i hi _ n.succ_pos (Nat.succ_lt_succ (List.mem_range.mp hn))
  rw [dirList, show List.range numDirectPointers = 0 :: (List.range 43).map Nat.succ from
    List.range_succ_eq_map, List.flatMap_cons, hrest, List.append_nil]

/-- A name leads to the same inode on the disk and in the catalog. -/
theorem Represents.child_eq {N : Set ℕ} (h : Represents d c) (hw : c.Wf N) (hi : i ∈ c.reserved)
    (name : List UInt8) : child d i name = c.child i name := by
  have hres := (h.reserved i).mp hi
  rw [child, h.dirList_eq hres, Catalog.child]
  by_cases hptr : directp d i 0 = 0
  · have hnone : c.block i = none := (h.block i hres).trans (firstBlock_eq_none hptr)
    rw [if_pos hptr]
    exact (Catalog.child_of_no_block hnone name).symm
  · have hblock : c.block i = some (directp d i 0) :=
      (h.block i hres).trans (firstBlock_eq_some hptr)
    have hmarked := (h.marked _).mp (hw.block_marked i hi _ hblock)
    rw [if_neg hptr, map_find?_filterMap]
    refine congrArg (fun f => List.findSome? f _) (funext fun j => ?_)
    rw [Catalog.slot, hblock, Option.bind_some, h.entry _ hmarked]

/-- `par` and `targ` are copies of reserved inodes, and `targ` has a block or is entered in `par`.
-/
def Found (d : Disk) (c : Catalog) (par targ : Inode) : Prop :=
  ∃ p t, p ∈ c.reserved ∧ t ∈ c.reserved ∧ par = getInode d p ∧ targ = getInode d t ∧
    (c.block t = none → ∃ k, c.Names p k t)

theorem Represents.navLoop {N : Set ℕ} {path : List UInt8} {n flag : ℕ} {par targ : Inode}
    (h : Represents d c) (hw : c.Wf N) (ht : t ∈ c.reserved)
    (hnav : navLoop d 65 path n i (getInode d t) = some (par, targ, flag)) (hflag : flag ≠ 1) :
    Found d c par targ := by
  induction n generalizing i t with
  | zero => exact nomatch hnav
  | succ n ih =>
    rw [navLoop_succ] at hnav
    cases hfound : searchDir d (getInode d t) (currname path i) with
    | none =>
      simp only [hfound, Option.getD_none, Option.isSome_none, Bool.false_eq_true, if_false] at hnav
      split_ifs at hnav with hlast
      · simp only [Option.some.injEq, Prod.mk.injEq] at hnav
        exact absurd hnav.2.2.symm hflag
      · exact ih ht hnav
    | some x =>
      obtain ⟨j, nm, hslot⟩ := h.slot_of_searchDir hw ht hfound
      obtain ⟨hx, hnames⟩ := hw.of_slot ht hslot
      simp only [hfound, Option.getD_some, Option.isSome_some] at hnav
      split_ifs at hnav with hlast
      · simp only [Option.some.injEq, Prod.mk.injEq] at hnav
        exact ⟨t, x, ht, hx, hnav.1.symm, hnav.2.1.symm, hnames⟩
      · exact ih hx hnav

/-- A path that is found leads to a reserved inode. -/
theorem Represents.navPath {N : Set ℕ} {path : List UInt8} {par₀ targ₀ par targ : Inode} {ret : ℤ}
    (h : Represents d c) (hw : c.Wf N) (hnav : navPath d par₀ targ₀ path = (ret, par, targ))
    (hret : ret ≠ -1) : Found d c par targ := by
  have hroot : blockRead d 65 = getInode d 0 := by
    rw [getInode_eq]
    rfl
  simp only [FS.navPath, h.super.iList, hroot] at hnav
  split_ifs at hnav with hlen
  · obtain ⟨-, rfl, rfl⟩ := Prod.mk.injEq .. ▸ (Prod.mk.injEq .. ▸ hnav)
    exact ⟨0, 0, hw.root_reserved, hw.root_reserved, rfl, rfl, fun hn => absurd hn hw.root_block⟩
  · cases hloop : FS.navLoop d 65 path 10000 1 (getInode d 0) with
    | none =>
      simp only [hloop, Prod.mk.injEq] at hnav
      exact absurd hnav.1.symm hret
    | some r =>
      obtain ⟨p, t, flag⟩ := r
      simp only [hloop, Prod.mk.injEq] at hnav
      obtain ⟨hr, rfl, rfl⟩ := hnav
      refine h.navLoop hw hw.root_reserved hloop fun hf => hret ?_
      rw [← hr, if_pos hf]

/-! ### A new entry in a directory -/

/-- The inode `x` is entered under the name in the directory `t`, which leads from the disk `d` with
the catalog `c` to the disk `d'` with the catalog `c'`. -/
structure Enters (t x : ℕ) (name : List UInt8) (d : Disk) (c : Catalog) (d' : Disk) (c' : Catalog) :
    Prop where
  represents : Represents d' c'
  wf : c'.Wf ∅
  reserved : c'.reserved = c.reserved
  mode : ∀ i, Reserved d i → mode d' i = mode d i
  child_new : c.child t name = none → name ≠ [dot] → name ≠ [dot, dot] → c'.child t name = some x
  child_old : ∀ i ∈ c.reserved, ∀ nm, (i = t → nm ≠ name) → ∀ y, c.child i nm = some y →
    c'.child i nm = some y
  names : ∀ i ∈ c.reserved, ∀ j y nm, c'.slot i j = some (y, nm) →
    nm = name ∨ nm = [dot] ∨ nm = [dot, dot] ∨ c.slot i j = some (y, nm)

/-- In a directory that has a block the loop of `updateDir` finds an unused entry, or goes on. -/
theorem Represents.updateDirLoop {x fuel : ℕ} {name : List UInt8} {par node : Inode} {ret : ℤ}
    (h : Represents d c) (hw : c.Wf {x}) (hx : x ∈ c.reserved) (ht : t ∈ c.reserved)
    (hblock : c.block t = some b) (hnode : firstBlock node = some b) (hnul : 0 ∉ name)
    (hlen : name.length < maxFname)
    (hup : updateDirLoop name par x 0 fuel d node = some (ret, d')) :
    ret = 0 ∧ ∃ c', Enters t x name d c d' c' := by
  have hmarked := (h.marked b).mp (hw.block_marked t ht b hblock)
  have hptr : (Inode.directp 0).get node 0 ≠ 0 := fun h0 => by
    rw [firstBlock_eq_none h0] at hnode
    exact nomatch hnode
  have hb : (Inode.directp 0).get node 0 = b :=
    Option.some.inj ((firstBlock_eq_some hptr).symm.trans hnode)
  have hgrow : growDir d par node 0 = (some node, d) := if_neg hptr
  induction fuel with
  | zero => exact nomatch hup
  | succ fuel ih =>
    simp only [FS.updateDirLoop, hgrow, hb, if_pos (show 0 < numDirectPointers by decide)] at hup
    cases hfree : freeSlot (blockRead d b) with
    | none =>
      simp only [hfree] at hup
      exact ih hup
    | some j =>
      simp only [hfree, Option.some.injEq, Prod.mk.injEq] at hup
      obtain ⟨rfl, rfl⟩ := hup
      obtain ⟨hj, hentry⟩ := freeSlot_eq_some hfree
      have hslot : c.slot t j = none := by
        rw [Catalog.slot, hblock, Option.bind_some, h.entry b hmarked, hentry]
      have hxlt := ((h.reserved x).mp hx).lt
      refine ⟨rfl, c.link b j x name, h.link hmarked hj hxlt hnul hlen,
        hw.link ht hblock hslot hx name, rfl, fun i hi => ?_, fun habsent _ _ => ?_,
        fun i hi nm hne y hy => ?_, fun i hi k y nm hy => ?_⟩
      · exact mode_congr (inode_eqOn_blockWrite (marked_iff.mp hmarked).1 hi.lt _)
      · exact Catalog.child_link_self hblock hj habsent
      · rw [hw.child_link ht hblock hslot hi hne, hy]
      · by_cases hik : (i, k) = (t, j)
        · obtain ⟨rfl, rfl⟩ := Prod.mk.inj hik
          rw [Catalog.slot_link_self hblock, Option.some.injEq, Prod.mk.injEq] at hy
          exact Or.inl hy.2.symm
        · rw [hw.slot_link ht hblock hi hik] at hy
          exact Or.inr (Or.inr (Or.inr hy))

/-- A directory without a block is given one. -/
theorem growDir_of_zero {par node : Inode} (hptr : (Inode.directp 0).get node 0 = 0)
    (hreserve : FS.reserveFreeData d = (some b, Function.update d (dmapAddr b) 1))
    (hnode : Inode.stIno.get node 0 = t) (hpar : Inode.stIno.get par 0 = p) :
    growDir d par node 0 = (some ((Inode.directp 0).set node 0 b),
      (Inode.directp 0).set (initDir (Function.update d (dmapAddr b) 1) b t p)
        (inodeAddr t) b) := by
  simp only [growDir, if_pos hptr, hreserve, hnode, hpar, blockWrite_directp]

theorem directp_set_self {node : Inode} (hb : 1089 ≤ b ∧ b < 31809) :
    (Inode.directp 0).get ((Inode.directp 0).set node 0 b) 0 = b := by
  rw [Field.get_set_self]
  exact Nat.mod_eq_of_lt (hb.2.trans (by decide))

/-- A pass in which the directory has been given a block goes on as one in which it has it. -/
theorem updateDirLoop_grow {x fuel : ℕ} {name : List UInt8} {par node node' : Inode}
    (hgrow : growDir d par node 0 = (some node', d'))
    (hptr : (Inode.directp 0).get node' 0 ≠ 0) :
    updateDirLoop name par x 0 (fuel + 1) d node =
      updateDirLoop name par x 0 (fuel + 1) d' node' := by
  have hgrow' : growDir d' par node' 0 = (some node', d') := if_neg hptr
  have hpos : 0 < numDirectPointers := by decide
  rw [updateDirLoop, updateDirLoop, hgrow, hgrow', if_pos hpos, if_pos hpos]

/-- There is always a block left. -/
theorem Represents.reserveFreeData {N : Set ℕ} (h : Represents d c) (hw : c.Wf N) :
    ∃ b, (1089 ≤ b ∧ b < 31809) ∧ ¬Marked d b ∧
      reserveFreeData d = (some b, Function.update d (dmapAddr b) 1) := by
  refine (reserveFreeData_cases h.super).resolve_left fun hfull => ?_
  obtain ⟨b, hb, hfree⟩ := hw.exists_unmarked (fun i hi => ((h.reserved i).mp hi).lt)
    (show 2048 < (Finset.Ico 1089 31809).card by
      rw [Nat.card_Ico]
      norm_num)
  obtain ⟨hl, hr⟩ := Finset.mem_Ico.mp hb
  exact hfree ((h.marked b).mpr (hfull.2 b hl hr))

/-- A new block for a directory leaves the modes as they are. -/
theorem mode_grow (hb : 1089 ≤ b ∧ b < 31809) (hi : i < 2048) (t p : ℕ) :
    mode ((Inode.directp 0).set (initDir (Function.update d (dmapAddr b) 1) b t p) (inodeAddr t) b)
      i = mode d i := by
  by_cases hit : i = t
  · subst hit
    rw [mode_eq, Field.get_set_of_apart (by decide), ← mode_eq]
    exact mode_congr (inode_eqOn_initDir hb hi p)
  · exact mode_congr ((inode_eqOn_directp hit b).trans (inode_eqOn_initDir hb hi p))

/-- An entry in a directory that was given a block for it. -/
theorem Enters.of_grow {N : Set ℕ} {x : ℕ} {name : List UInt8} {c' : Catalog} {d₁ : Disk}
    (h : Enters t x name d₁ (c.grow t p b) d' c') (hw : c.Wf N) (hb : b ∉ c.marked)
    (hblock : c.block t = none) (hmode : ∀ i, Reserved d i → FS.mode d₁ i = FS.mode d i)
    (hres : ∀ i, Reserved d i → Reserved d₁ i) : Enters t x name d c d' c' := by
  refine ⟨h.represents, h.wf, h.reserved, fun i hi => (h.mode i (hres i hi)).trans (hmode i hi),
    fun _ hdot hdots => h.child_new (Catalog.child_grow_self hdot hdots) hdot hdots,
    fun i hi nm hne y hy => h.child_old i hi nm hne y ?_, fun i hi j y nm hy => ?_⟩
  · by_cases hit : i = t
    · rw [hit, Catalog.child_of_no_block hblock] at hy
      exact nomatch hy
    · rwa [Catalog.child_congr (hw.slot_grow hb hi hit)]
  · rcases h.names i hi j y nm hy with hnm | hnm | hnm | hslot
    · exact Or.inl hnm
    · exact Or.inr (Or.inl hnm)
    · exact Or.inr (Or.inr (Or.inl hnm))
    · by_cases hit : i = t
      · -- the new block has the entries `.` and `..`
        subst hit
        rw [Catalog.slot_grow_self] at hslot
        match j, hslot with
        | 0, hslot => exact Or.inr (Or.inl (Prod.mk.inj (Option.some.inj hslot)).2.symm)
        | 1, hslot => exact Or.inr (Or.inr (Or.inl (Prod.mk.inj (Option.some.inj hslot)).2.symm))
      · rw [hw.slot_grow hb hi hit] at hslot
        exact Or.inr (Or.inr (Or.inr hslot))

/-- A directory is given a new entry, and a block if it has none. -/
theorem Represents.updateDir {x fuel : ℕ} {name : List UInt8} {par node : Inode} {ret : ℤ}
    (h : Represents d c) (hw : c.Wf {x}) (hx : x ∈ c.reserved) (hp : p ∈ c.reserved)
    (ht : t ∈ c.reserved) (hpar : Inode.stIno.get par 0 = p) (hnode : Inode.stIno.get node 0 = t)
    (hblock : c.block t = firstBlock node) (hnames : c.block t = none → ∃ k, c.Names p k t)
    (hnul : 0 ∉ name) (hlen : name.length < maxFname)
    (hup : updateDir d name par node x fuel = some (ret, d')) :
    ret = 0 ∧ ∃ c', Enters t x name d c d' c' := by
  by_cases hptr : (Inode.directp 0).get node 0 = 0
  · rw [firstBlock_eq_none hptr] at hblock
    obtain ⟨k, hk⟩ := hnames hblock
    have hne : t ≠ p := fun he => hk.block_ne_none (he ▸ hblock)
    obtain ⟨b, hb, hfree, hreserve⟩ := h.reserveFreeData hw
    have hrep := h.grow hb hfree ((h.reserved t).mp ht) ((h.reserved p).mp hp) hne
    have hunmarked : b ∉ c.marked := fun hm => hfree ((h.marked b).mp hm)
    have hwf := hw.grow ht hunmarked hblock hk
    have hgrow := growDir_of_zero hptr hreserve hnode hpar
    have hget : (Inode.directp 0).get ((Inode.directp 0).set node 0 b) 0 = b := directp_set_self hb
    have hptr' : (Inode.directp 0).get ((Inode.directp 0).set node 0 b) 0 ≠ 0 := by omega
    have hnode' : firstBlock ((Inode.directp 0).set node 0 b) = some b := by
      rw [firstBlock_eq_some hptr', hget]
    cases fuel with
    | zero => exact nomatch hup
    | succ fuel =>
      rw [FS.updateDir, updateDirLoop_grow hgrow hptr'] at hup
      obtain ⟨hret, c', henters⟩ :=
        hrep.updateDirLoop hwf hx ht (Function.update_self ..) hnode' hnul hlen hup
      exact ⟨hret, c', henters.of_grow hw hunmarked hblock (fun i hi => mode_grow hb hi.lt t p)
        fun i hi => (hrep.reserved i).mp ((h.reserved i).mpr hi)⟩
  · rw [firstBlock_eq_some hptr] at hblock
    exact h.updateDirLoop hw hx ht hblock (firstBlock_eq_some hptr) hnul hlen hup

/-! ### Creating files and directories -/

theorem lastSlash_eq_some {path : List UInt8} {n : ℕ} (h : lastSlash path n = some i) :
    charAt path i = slash ∧ ∀ k, i < k → k ≤ n → charAt path k ≠ slash := by
  induction n with
  | zero =>
    rw [lastSlash] at h
    split_ifs at h with hc
    obtain rfl := Option.some.inj h
    exact ⟨hc, fun k hk hk' => absurd hk (by omega)⟩
  | succ n ih =>
    rw [lastSlash] at h
    split_ifs at h with hc
    · obtain rfl := Option.some.inj h
      exact ⟨hc, fun k hk hk' => absurd hk (by omega)⟩
    · refine ⟨(ih h).1, fun k hk hk' => ?_⟩
      rcases Nat.lt_or_eq_of_le hk' with hk' | rfl
      · exact (ih h).2 k hk (Nat.le_of_lt_succ hk')
      · exact hc

/-- The components of a path are those of the directory and the name behind the last slash. -/
theorem splitOn_of_lastSlash {path : List UInt8} (h : lastSlash path path.length = some i) :
    i < path.length ∧ slash ∉ path.drop (i + 1) ∧
      path.splitOn slash = (path.take i).splitOn slash ++ [path.drop (i + 1)] := by
  obtain ⟨hslash, hafter⟩ := lastSlash_eq_some h
  have hi : i < path.length := by
    by_contra hi
    rw [charAt_of_le (Nat.le_of_not_lt hi)] at hslash
    exact absurd hslash (by decide)
  have hget : path[i] = slash := by rw [← hslash, charAt_of_lt hi]
  have hsplit : path = path.take i ++ slash :: path.drop (i + 1) := by
    rw [← hget, List.getElem_cons_drop, List.take_append_drop]
  have hno : ∀ a ∈ path.drop (i + 1), (a == slash) = false := fun a ha => by
    obtain ⟨k, hk, rfl⟩ := List.mem_iff_getElem.mp ha
    rw [List.length_drop] at hk
    rw [List.getElem_drop, beq_eq_false_iff_ne]
    have := hafter (i + 1 + k) (by omega) (by omega)
    rwa [charAt_of_lt (by omega)] at this
  refine ⟨hi, fun hmem => absurd (hno slash hmem) (by decide), ?_⟩
  conv_lhs => rw [hsplit]
  rw [List.splitOn, List.splitOnP_append_cons _ _ (by exact beq_self_eq_true slash),
    List.splitOnP_eq_singleton hno, List.splitOn]

/-- The name behind the last slash is a component of the path. -/
theorem name_of_lastSlash {path : List UInt8} (hnul : 0 ∉ path)
    (hshort : ∀ c ∈ path.splitOn slash, c.length < maxFname)
    (h : lastSlash path path.length = some i) :
    0 ∉ path.drop ((path.take i).length + 1) ∧
      (path.drop ((path.take i).length + 1)).length < maxFname := by
  obtain ⟨hi, -, hcomp⟩ := splitOn_of_lastSlash h
  rw [List.length_take_of_le hi.le]
  refine ⟨fun h0 => hnul (List.mem_of_mem_drop h0), hshort _ ?_⟩
  rw [hcomp]
  exact List.mem_append_right _ (List.mem_singleton_self _)

theorem AbsPath.name (path : AbsPath) (h : lastSlash path.bytes path.bytes.length = some i) :
    0 ∉ path.bytes.drop ((path.bytes.take i).length + 1) ∧
      (path.bytes.drop ((path.bytes.take i).length + 1)).length < maxFname :=
  name_of_lastSlash path.nul_free path.short h

/-- Once an inode has been reserved, it is entered in the directory that `navPath` has found. -/
theorem Represents.updateDir_reserved {type : FileType} {env : Env} {fuel x : ℕ} {name : List UInt8}
    {ret : ℤ} (h : Represents d c) (hw : c.Wf ∅) (hp : p ∈ c.reserved) (ht : t ∈ c.reserved)
    (hnames : c.block t = none → ∃ k, c.Names p k t) (hx : x < 2048) (hfree : ¬Reserved d x)
    (hnul : 0 ∉ name) (hshort : name.length < maxFname)
    (hup : FS.updateDir (newInode (Function.update d (imapAddr x) 1) (inodeAddr x) env type x) name
      (getInode d p) (getInode d t) x fuel = some (ret, d')) :
    ret = 0 ∧ ∃ c', Enters t x name
      (newInode (Function.update d (imapAddr x) 1) (inodeAddr x) env type x)
        (c.reserve x) d' c' := by
  have hxc : x ∉ c.reserved := fun hm => hfree ((h.reserved x).mp hm)
  have htx : t ≠ x := fun he => hxc (he ▸ ht)
  have hblock : (c.reserve x).block t = firstBlock (getInode d t) :=
    (Function.update_of_ne htx ..).trans (h.block t ((h.reserved t).mp ht))
  have hnames' : (c.reserve x).block t = none → ∃ k, (c.reserve x).Names p k t := fun hn => by
    obtain ⟨k, hk⟩ := hnames ((Function.update_of_ne htx ..).symm.trans hn)
    exact ⟨k, (Catalog.names_reserve hxc).mpr hk⟩
  exact (h.reserve hx hfree env type).updateDir (hw.reserve hxc) (Set.mem_insert ..)
    (Set.mem_insert_of_mem x hp) (Set.mem_insert_of_mem x ht) (h.ino p ((h.reserved p).mp hp))
    (h.ino t ((h.reserved t).mp ht)) hblock hnames' hnul hshort hup

/-- Creating a file or a directory leaves the disk as it is, or reserves an inode and enters it in
the directory that `navPath` finds. -/
theorem Represents.makeNode_cases {type : FileType} {path : List UInt8} {env : Env} {fuel : ℕ}
    {ret : ℤ} (h : Represents d c) (hw : c.Wf ∅)
    (hname : ∀ i, lastSlash path path.length = some i →
      0 ∉ path.drop ((path.take i).length + 1) ∧
        (path.drop ((path.take i).length + 1)).length < maxFname)
    (hmk : makeNode type d path env fuel = some (ret, d')) :
    (ret = -1 ∧ d' = d) ∨ ret = 0 ∧ ∃ i ret₁ p t x c', lastSlash path path.length = some i ∧
      FS.navPath d 0 0 (path.take i) = (ret₁, getInode d p, getInode d t) ∧ ret₁ ≠ -1 ∧
      t ∈ c.reserved ∧ x < 2048 ∧ x ∉ c.reserved ∧
      Enters t x (path.drop ((path.take i).length + 1))
        (newInode (Function.update d (imapAddr x) 1) (inodeAddr x) env type x)
          (c.reserve x) d' c' := by
  have hsame : some ((-1 : ℤ), d) = some (ret, d') → ret = -1 ∧ d' = d := fun he => by
    rw [Option.some.injEq, Prod.mk.injEq] at he
    exact ⟨he.1.symm, he.2.symm⟩
  rw [FS.makeNode] at hmk
  split_ifs at hmk with hlong
  · exact Or.inl (hsame hmk)
  cases hlast : lastSlash path path.length with
  | none =>
    simp only [hlast] at hmk
    exact Or.inl (hsame hmk)
  | some i =>
    obtain ⟨hnul, hshort⟩ := hname i hlast
    rcases hnav : FS.navPath d 0 0 (path.take i) with ⟨ret₁, par, targ⟩
    simp only [hlast, hnav] at hmk
    by_cases hret : ret₁ = -1
    · rw [if_pos hret] at hmk
      exact Or.inl (hsame hmk)
    rw [if_neg hret] at hmk
    obtain ⟨p, t, hp, ht, rfl, rfl, hnames⟩ := h.navPath hw hnav hret
    rcases reserveFreeInode_cases h.super env type with ⟨hres, -⟩ | ⟨x, hx, hfree, hres⟩
    · simp only [hres, if_true] at hmk
      exact Or.inl (hsame hmk)
    · have hx₀ : x ≠ 0 := fun h0 => hfree (h0 ▸ (h.reserved 0).mp hw.root_reserved)
      have hxc : x ∉ c.reserved := fun hm => hfree ((h.reserved x).mp hm)
      simp only [hres, if_neg hx₀] at hmk
      cases hup : FS.updateDir
          (newInode (Function.update d (imapAddr x) 1) (inodeAddr x) env type x)
          (path.drop ((path.take i).length + 1)) (getInode d p) (getInode d t) x fuel with
      | none =>
        simp only [hup] at hmk
        exact nomatch hmk
      | some r =>
        obtain ⟨ret₂, d₂⟩ := r
        simp only [hup, Option.some.injEq, Prod.mk.injEq] at hmk
        obtain ⟨hmk, rfl⟩ := hmk
        obtain ⟨rfl, c', henters⟩ :=
          h.updateDir_reserved hw hp ht hnames hx hfree hnul hshort hup
        exact Or.inr ⟨hmk.symm, i, ret₁, p, t, x, c', rfl, hnav, hret, ht, hx, hxc, henters⟩

/-- Creating a file or a directory keeps a disk with a well-formed catalog. -/
theorem Represents.makeNode {type : FileType} {path : AbsPath} {env : Env} {fuel : ℕ} {ret : ℤ}
    (h : Represents d c) (hw : c.Wf ∅)
    (hmk : makeNode type d path.bytes env fuel = some (ret, d')) :
    ∃ c', Represents d' c' ∧ c'.Wf ∅ := by
  rcases h.makeNode_cases hw (fun _ => path.name) hmk with
    ⟨-, rfl⟩ | ⟨-, i, ret₁, p, t, x, c', -, -, -, -, -, -, henters⟩
  · exact ⟨c, h, hw⟩
  · exact ⟨c', henters.represents, henters.wf⟩

/-! ### The formatted disk -/

/-- The catalog with the root only, whose block is `b`. -/
def rootCatalog (b : ℕ) : Catalog where
  reserved := {0}
  marked := {b}
  block := Function.update (fun _ => none) 0 (some b)
  entry := fun _ => Function.update (fun _ => none) 0 (some (0, [dot]))

theorem slot_rootCatalog (b j : ℕ) :
    (rootCatalog b).slot 0 j = Function.update (fun _ : ℕ => none) 0 (some (0, [dot])) j := rfl

theorem rootCatalog_wf (b : ℕ) : (rootCatalog b).Wf ∅ := by
  have hblock : (rootCatalog b).block 0 = some b := rfl
  have hslot : ∀ j x name, (rootCatalog b).slot 0 j = some (x, name) → j = 0 ∧ x = 0 :=
    fun j x name hj => by
      rw [slot_rootCatalog] at hj
      by_cases h0 : j = 0
      · subst h0
        rw [Function.update_self, Option.some.injEq, Prod.mk.injEq] at hj
        exact ⟨rfl, hj.1.symm⟩
      · rw [Function.update_of_ne h0] at hj
        exact nomatch hj
  constructor
  · exact rfl
  · exact Option.some_ne_none b
  · rintro _ rfl b' hb'
    exact (Option.some.inj (hblock.symm.trans hb')).symm
  · rintro _ rfl _ rfl _ _ _
    rfl
  · rintro _ rfl
    exact ⟨0, rfl, hblock⟩
  · rintro _ rfl j x name hj
    exact (hslot j x name hj).2
  · rintro _ rfl _
    rfl
  · rintro _ rfl _ h0
    exact absurd rfl h0
  · rintro _ rfl h0
    exact absurd rfl h0
  · exact fun x hx => absurd hx (Set.notMem_empty x)

theorem clearMaps_apply (d : Disk) (n x : ℕ) :
    clearMaps d n x =
      if 512 ≤ x ∧ x < 512 * (n + 1) then if x = 512 then 1 else 0 else d x := by
  induction n with
  | zero => rw [clearMaps, if_neg (by omega)]
  | succ n ih =>
    rw [clearMaps]
    by_cases hx : 512 * (n + 1) ≤ x ∧ x < 512 * (n + 1) + 512
    · have hin : 512 ≤ x ∧ x < 512 * (n + 1 + 1) := by omega
      rw [blockWrite, paste, blockSize, if_pos hx, if_pos hin]
      by_cases h0 : x - 512 * (n + 1) = 0
      · rw [h0, Function.update_self]
        exact if_congr (by omega) rfl rfl
      · have h512 : x ≠ 512 := by omega
        rw [Function.update_of_ne h0, if_neg h512]
    · rw [blockWrite_apply_of_not_mem _ hx, ih]
      exact if_congr (by omega) rfl rfl

/-- A field of the root inode after its block is written. -/
theorem get_getInode_root {f : Field} (hf : f.off + f.len ≤ blockSize) (d : Disk) (buf : Memory) :
    f.get (getInode (blockWrite d 65 buf) 0) 0 = f.get buf 0 := by
  rw [getInode, Field.get_view]
  exact Field.get_congr _ (blockRead_blockWrite d 65 buf) hf

/-- `sfs_init` makes the disk of a file system with the root only. -/
theorem represents_sfsInit (env : Env) (junk : Memory)
    (hmagic : Superblock.magicnum.get (blockRead d 0) 0 ≠ magic) :
    ∃ b, Represents (sfsInit d env junk) (rootCatalog b) := by
  set sb := Superblock.dList.set (Superblock.iList.set (Superblock.dmap.set (Superblock.imap.set
    (Superblock.magicnum.set (blockRead d 0) 0 magic) 0 1) 0 5) 0 65) 0 1089 with hsb
  have hiList : Superblock.iList.get sb 0 = 65 := by
    rw [hsb, Field.get_set_of_apart (by decide), Field.get_set_self]
    rfl
  set d₂ := clearMaps (blockWrite d 0 sb) 64 with hd₂
  have hd₂apply : ∀ x, d₂ x = if 512 ≤ x ∧ x < 33280 then if x = 512 then 1 else 0
      else blockWrite d 0 sb x := fun x => clearMaps_apply _ 64 x
  have hsuper : SuperOk d₂ := by
    have hget : ∀ f : Field, f.off + f.len ≤ blockSize →
        f.get (blockRead (blockWrite d 0 sb) 0) 0 = f.get sb 0 :=
      fun f hf => f.get_congr (blockRead_blockWrite d 0 sb) hf
    have hsuper₁ : SuperOk (blockWrite d 0 sb) := by
      constructor <;> rw [hget _ (by decide), hsb] <;>
        simp (disch := decide) only [Field.get_set_of_apart, Field.get_set_self] <;> rfl
    exact hsuper₁.congr fun x hx => (hd₂apply x).trans (if_neg (by omega))
  obtain ⟨b, hb, -, hreserve⟩ := (reserveFreeData_cases hsuper).resolve_left fun hfull => by
    have hmarked := (marked_iff.mp (hfull.2 1089 le_rfl (by decide))).2.2
    rw [hd₂apply, if_pos (by decide), if_neg (by decide)] at hmarked
    exact hmarked rfl
  have hmap := dmapAddr_def b
  set rooti := Inode.indirectp.set ((Inode.directp 0).set (clearDirectp (Inode.used.set
    (Inode.opened.set (Inode.stBlocks.set (Inode.stSize.set (Inode.stNlink.set
      (stamp junk 0 env .directory 0) 0 1) 0 0) 0 1) 0 0) 0 0) 0 1 (numDirectPointers - 1)) 0 b) 0 0
    with hrooti
  set d₄ := initDir (Function.update d₂ (dmapAddr b) 1) b 0 0 with hd₄
  have hinit : sfsInit d env junk = blockWrite d₄ 65 rooti := by
    simp only [sfsInit, if_pos hmagic, ← hsb, hiList, Nat.reduceSub, ← hd₂, hreserve, ← hd₄,
      ← hrooti]
  rw [hinit]
  set d₅ := blockWrite d₄ 65 rooti with hd₅
  have hframe : ∀ x, ¬(33280 ≤ x ∧ x < 33792) → ¬(512 * b ≤ x ∧ x < 512 * b + 512) →
      x ≠ dmapAddr b → d₅ x = d₂ x := fun x h₁ h₂ h₃ => by
    rw [hd₅, blockWrite_apply_of_not_mem _ (by omega), hd₄, initDir_apply_of_not_mem h₂,
      Function.update_of_ne h₃]
  have hres : ∀ x, Reserved d₅ x ↔ x = 0 := fun x => by
    have haddr := imapAddr_def x
    rw [reserved_iff]
    refine ⟨fun ⟨hlt, hne⟩ => ?_, fun h0 => ⟨by omega, ?_⟩⟩
    · rw [hframe _ (by omega) (by omega) (by omega), hd₂apply, if_pos (by omega)] at hne
      by_contra h0
      exact hne (if_neg (by omega))
    · rw [hframe _ (by omega) (by omega) (by omega), hd₂apply, if_pos (by omega), if_pos (by omega)]
      decide
  have hmarked : ∀ x, Marked d₅ x ↔ x = b := fun x => by
    have haddr := dmapAddr_def x
    rw [marked_iff]
    refine ⟨fun ⟨hl, hr, hne⟩ => ?_, fun he => ?_⟩
    · by_contra hxb
      rw [hframe _ (by omega) (by omega) (by omega), hd₂apply, if_pos (by omega)] at hne
      exact hne (if_neg (by omega))
    · subst he
      refine ⟨hb.1, hb.2, ?_⟩
      rw [hd₅, blockWrite_apply_of_not_mem _ (by omega), hd₄, initDir_apply_of_not_mem (by omega),
        Function.update_self]
      decide
  have hptr : directp d₅ 0 0 = b := by
    rw [directp, hd₅, get_getInode_root (by decide), hrooti, Field.get_set_of_apart (by decide),
      Field.get_set_self]
    exact Nat.mod_eq_of_lt (hb.2.trans (by decide))
  refine ⟨b, ?_⟩
  constructor
  · exact hsuper.congr fun x hx => hframe x (by omega) (by omega) (by omega)
  · exact fun x => (hres x).symm
  · exact fun x => (hmarked x).symm
  · intro x hx
    obtain rfl := (hres x).mp hx
    rw [ino, hd₅, get_getInode_root (by decide), hrooti]
    simp (disch := decide) only [Field.get_set_of_apart, get_clearDirectp, stIno_stamp]
  · intro x hx
    obtain rfl := (hres x).mp hx
    have hne : directp d₅ 0 0 ≠ 0 := by omega
    rw [firstBlock_eq_some hne, show (Inode.directp 0).get (getInode d₅ 0) 0 = b from hptr]
    rfl
  · intro x hx k hk₀ hk
    obtain rfl := (hres x).mp hx
    rw [numDirectPointers] at hk
    have hle : (Inode.directp k).off + (Inode.directp k).len ≤ blockSize := by
      simp only [Inode.directp, blockSize]
      omega
    have hapart : Inode.indirectp.Apart (Inode.directp k) := Or.inr (by
      simp only [Inode.directp, Inode.indirectp]
      omega)
    have hapart₀ : (Inode.directp 0).Apart (Inode.directp k) := Or.inl (by
      simp only [Inode.directp]
      omega)
    rw [directp, hd₅, get_getInode_root hle, hrooti, Field.get_set_of_apart hapart,
      Field.get_set_of_apart hapart₀, directp_clearDirectp, if_pos]
    rw [numDirectPointers]
    omega
  · intro x hx
    obtain rfl := (hmarked x).mp hx
    have hblock : entry d₅ x = entry d₄ x := entry_congr_of_block fun y hy₁ hy₂ =>
      blockWrite_apply_of_not_mem _ (by omega)
    rw [hblock, hd₄, entry_initDir_root]
    rfl

end OSDesign.FS
