import OSDesign.FS.CrashRuns

/-!
# How a call ends

On a disk that is reached with crashes a call of `sfs_create` or `sfs_mkdir` ends in one of three
ways, and what the disk holds before decides in which. It returns -1 and leaves the disk as it is
when the path is too long, the directory is not found or no inode is left. Otherwise it does not
return when the sixteen entries of the directory are in use, and returns 0 when they are not. It
never fails for want of a data block.

## Main definitions

* `Refused`, `DirectoryFull`.

## Main results

* `call_outcome`.
-/

namespace OSDesign.FS

open ByteMemory Prog Transition

variable {d d' : Disk} {c : Catalog} {L : Leaks} {b i p t x : ℕ} {env : Env} {type : FileType}
  {name : List UInt8}

/-- The path is too long, its directory is not found, or all inodes are reserved. -/
def Refused (d : Disk) (path : List UInt8) : Prop :=
  255 ≤ path.length ∨
    (∀ i, lastSlash path path.length = some i → (navPath d 0 0 (path.take i)).1 = -1) ∨
    ∀ i < 2048, Reserved d i

/-- The directory of the path has a block without an unused entry. -/
def DirectoryFull (d : Disk) (path : List UInt8) : Prop :=
  ∀ i, lastSlash path path.length = some i →
    ∃ b, firstBlock (navPath d 0 0 (path.take i)).2.2 = some b ∧ freeSlot (blockRead d b) = none

/-! ### Entering a new inode -/

/-- A new inode is not in a data block. -/
theorem freeSlot_addInode (hx : x < 2048) (hb : 1089 ≤ b) :
    freeSlot (blockRead (addInode d env type x) b) = freeSlot (blockRead d b) := by
  have haddr := inodeAddr_def x
  have hmap := imapAddr_def x
  rw [freeSlot_eq, freeSlot_eq, entry_congr_of_block fun y hy _ => ?_]
  exact newInode_update_apply env type (by omega) (by rw [inodeSize]; omega)

theorem freeSlot_setBlock (hb : 1089 ≤ b) (ht : t < 2048) (hp : p < 2048) (hne : t ≠ p) :
    freeSlot (blockRead (setBlock d b t p) b) = some 2 := by
  have haddr := inodeAddr_def t
  have hblock : entry (setBlock d b t p) b = entry (addBlock d b t p) b :=
    entry_congr_of_block fun y hy _ =>
      (Inode.directp 0).set_eqOn _ _ _ (show _ ≤ 256 by decide) fun hmem => by
        have := hmem.2
        omega
  rw [freeSlot_eq, hblock, ← freeSlot_eq, addBlock, freeSlot_initDir _ b ht hp, if_neg hne.symm]

namespace Leaky

theorem block_range (h : Leaky d c L) (ht : t ∈ c.reserved) (hb : c.block t = some b) : 1089 ≤ b :=
  (FS.marked_iff.mp ((h.represents.marked b).mp (h.tree.wf.block_marked t ht b hb))).1

/-- The search for an unused entry of a full directory does not end. -/
theorem updateDir_eq_none (h : Leaky d c L) (hx : x < 2048) (ht : t ∈ c.reserved)
    (hb : firstBlock (getInode d t) = some b) (hfull : freeSlot (blockRead d b) = none)
      (par : Inode)
    (fuel : ℕ) : FS.updateDir (FS.addInode d env type x) name par (getInode d t) x fuel = none := by
  have hrange := h.block_range ht ((h.block_eq ht).trans hb)
  have hptr : directp d t 0 = b := by
    by_cases hzero : directp d t 0 = 0
    · rw [firstBlock_eq_none hzero] at hb
      cases hb
    · rw [firstBlock_eq_some hzero] at hb
      exact Option.some.inj hb
  exact updateDir_of_full hptr (by omega) ((freeSlot_addInode hx hrange).trans hfull)
    name par x fuel

/-- The new inode is entered in a directory that has no block or an unused entry. -/
theorem exists_updateDir (h : Leaky d c L) (hp : p ∈ c.reserved) (ht : t ∈ c.reserved)
    (hnames : c.block t = none → ∃ k, c.Names p k t) (hx : x < 2048) (hfree : ¬Reserved d x)
    (hroom : ∀ b, firstBlock (getInode d t) = some b → freeSlot (blockRead d b) ≠ none)
    (type : FileType) (env : Env) (name : List UInt8) (fuel : ℕ) :
    ∃ d', FS.updateDir (FS.addInode d env type x) name (getInode d p) (getInode d t) x (fuel + 1) =
      some (0, d') := by
  have hblock := h.block_eq ht
  by_cases hptr : directp d t 0 = 0
  · rw [firstBlock_eq_none hptr] at hblock
    obtain ⟨k, hk⟩ := hnames hblock
    obtain ⟨b, hnext, hreserve⟩ := (h.addInode hx hfree env type).reserveFreeData
    have hne : t ≠ p := fun he => hk.block_ne_none (he ▸ hblock)
    have hrange := hnext.range.1
    have hget : (Inode.directp 0).get ((Inode.directp 0).set (getInode d t) 0 b) 0 = b :=
      directp_set_self hnext.range
    have hgrow := growDir_of_zero hptr hreserve (h.ino_eq ht) (h.ino_eq hp)
    rw [FS.updateDir, updateDirLoop_grow hgrow (by omega)]
    exact ⟨_, updateDir_of_freeSlot hget (by omega)
      (freeSlot_setBlock hrange (h.lt ht) (h.lt hp) hne) name _ x fuel⟩
  · have hfirst := firstBlock_eq_some hptr
    obtain ⟨j, hj⟩ := Option.ne_none_iff_exists'.mp (hroom _ hfirst)
    have hrange := h.block_range ht (hblock.trans hfirst)
    exact ⟨_, updateDir_of_freeSlot rfl (by omega) ((freeSlot_addInode hx hrange).trans hj) name _ x
      fuel⟩

/-- A call that is not refused enters the next inode in the directory of its path. -/
theorem makeNode_of_not_refused {path : AbsPath} (h : Leaky d c L) (hgo : ¬Refused d path.bytes)
    (type : FileType) (env : Env) :
    ∃ i p t x, lastSlash path.bytes path.bytes.length = some i ∧
      (FS.navPath d 0 0 (path.bytes.take i)).2.2 = getInode d t ∧ p ∈ c.reserved ∧ t ∈ c.reserved ∧
      (c.block t = none → ∃ k, c.Names p k t) ∧ NextInode d x ∧
      ∀ fuel, FS.makeNode type d path.bytes env fuel =
        (FS.updateDir (FS.addInode d env type x) (path.bytes.drop ((path.bytes.take i).length + 1))
          (getInode d p) (getInode d t) x fuel).map fun r => (if r.1 = -1 then -1 else 0, r.2) := by
  simp only [Refused, not_or, not_forall] at hgo
  obtain ⟨hlen, ⟨i, hlast, hret⟩, j, hj, hfree⟩ := hgo
  rcases hnav : FS.navPath d 0 0 (path.bytes.take i) with ⟨ret, par, targ⟩
  rw [hnav] at hret
  obtain ⟨p, t, hp, ht, rfl, rfl, hnames⟩ := h.navPath hnav hret
  rcases reserveFreeInode_next h.super env type with ⟨-, hall⟩ | ⟨x, hx, hres⟩
  · exact absurd (hall j hj) hfree
  have hx₀ : x ≠ 0 := fun h0 =>
    hx.free (h.reserved_iff.mpr (Or.inl (h0 ▸ h.tree.wf.root_reserved)))
  refine ⟨i, p, t, x, hlast, by rw [hnav], hp, ht, hnames, hx, fun fuel => ?_⟩
  simp only [FS.makeNode, if_neg hlen, hlast, hnav, if_neg hret, hres, if_neg hx₀]
  cases FS.updateDir (FS.addInode d env type x) (path.bytes.drop ((path.bytes.take i).length + 1))
    (getInode d p) (getInode d t) x fuel <;> rfl

theorem makeNode_of_refused {path : AbsPath} (h : Leaky d c L) (hno : Refused d path.bytes)
    (fuel : ℕ) : FS.makeNode type d path.bytes env fuel = some (-1, d) := by
  rw [FS.makeNode]
  split_ifs with hlen
  · rfl
  cases hlast : lastSlash path.bytes path.bytes.length with
  | none => rfl
  | some i =>
    rcases hnav : FS.navPath d 0 0 (path.bytes.take i) with ⟨ret, par, targ⟩
    simp only [hnav]
    by_cases hret : ret = -1
    · rw [if_pos hret]
    rw [if_neg hret]
    rcases hno with hlong | hnone | hall
    · exact absurd hlong hlen
    · exact absurd (by rw [← hnone i hlast, hnav]) hret
    · rcases reserveFreeInode_next h.super env type with ⟨hres, -⟩ | ⟨x, hx, -⟩
      · simp only [hres, if_true]
      · exact absurd (hall x hx.lt) hx.free

end Leaky

/-- **How a call ends.** On a disk that was formatted and then used, with calls cut off at any
point, `sfs_create` and `sfs_mkdir` return -1 and change nothing if the call is refused. If it is
not, they do not return when the directory is full, and otherwise return 0. -/
theorem call_outcome {d₀ : Disk} {env₀ : Env} {junk : Memory} {es : List FsEvent}
    (hm : ¬HasMagic d₀)
    (hrun : run eventStep (sfsInit d₀ env₀ junk) es = some d) (type : FileType) (path : AbsPath)
    (env : Env) :
    (Refused d path.bytes → ∀ fuel, makeNode type d path.bytes env fuel = some (-1, d)) ∧
    (¬Refused d path.bytes → DirectoryFull d path.bytes →
      ∀ fuel, makeNode type d path.bytes env fuel = none) ∧
    (¬Refused d path.bytes → ¬DirectoryFull d path.bytes →
      ∀ fuel, ∃ d', makeNode type d path.bytes env (fuel + 1) = some (0, d')) := by
  obtain ⟨c, L, h, -⟩ := exists_leaky_of_run hm hrun
  refine ⟨h.makeNode_of_refused, fun hgo hfull fuel => ?_, fun hgo hroom fuel => ?_⟩
  · obtain ⟨i, p, t, x, hlast, htarg, -, ht, -, hx, hmake⟩ :=
      h.makeNode_of_not_refused hgo type env
    obtain ⟨b, hb, hslot⟩ := hfull i hlast
    rw [htarg] at hb
    rw [hmake, h.updateDir_eq_none hx.lt ht hb hslot, Option.map_none]
  · obtain ⟨i, p, t, x, hlast, htarg, hp, ht, hnames, hx, hmake⟩ :=
      h.makeNode_of_not_refused hgo type env
    have hfree (b : ℕ) (hb : firstBlock (getInode d t) = some b) :
        freeSlot (blockRead d b) ≠ none := fun hnone => hroom fun i' hlast' => by
      obtain rfl := Option.some.inj (hlast.symm.trans hlast')
      exact ⟨b, htarg ▸ hb, hnone⟩
    obtain ⟨d', hup⟩ := h.exists_updateDir hp ht hnames hx.lt hx.free hfree type env
      (path.bytes.drop ((path.bytes.take i).length + 1)) fuel
    exact ⟨d', by rw [hmake, hup]; rfl⟩

theorem call_outcome_interrupted :
    ∃ d, run eventStep (sfsInit (fun _ => 0) ⟨0, 0, 0⟩ fun _ => 1) interruptedMkdir = some d ∧
      ¬Refused d pathAB.bytes ∧ ¬DirectoryFull d pathAB.bytes ∧
      ∀ fuel, ∃ d', makeNode .file d pathAB.bytes ⟨0, 0, 0⟩ (fuel + 1) = some (0, d') := by
  have hend : (run eventStep (sfsInit (fun _ => 0) ⟨0, 0, 0⟩ fun _ => 1) interruptedMkdir).map
      (fun d => ((navPath d 0 0 [slash, 97]).1, firstBlock (navPath d 0 0 [slash, 97]).2.2,
        d (imapAddr 3))) = some (0, none, 0) := by
    decide +kernel
  obtain ⟨d, hd, hproj⟩ := Option.map_eq_some_iff.mp hend
  obtain ⟨hret, hrest⟩ := Prod.mk.inj hproj
  obtain ⟨hblock, hbyte⟩ := Prod.mk.inj hrest
  have hlast : lastSlash pathAB.bytes pathAB.bytes.length = some 2 := by decide
  have hgo : ¬Refused d pathAB.bytes := by
    rintro (hlong | hnone | hall)
    · exact absurd hlong (by decide)
    · have hfail := hnone 2 hlast
      rw [show pathAB.bytes.take 2 = [slash, 97] from rfl, hret] at hfail
      cases hfail
    · have hone := (reserved_iff.mp (hall 3 (by decide))).2
      rw [hbyte] at hone
      exact absurd hone (by decide)
  have hroom : ¬DirectoryFull d pathAB.bytes := fun hfull => by
    obtain ⟨b, hb, -⟩ := hfull 2 hlast
    rw [show pathAB.bytes.take 2 = [slash, 97] from rfl, hblock] at hb
    cases hb
  exact ⟨d, hd, hgo, hroom, (call_outcome (by decide) hd .file pathAB ⟨0, 0, 0⟩).2.2 hgo hroom⟩

end OSDesign.FS
