import OSDesign.FS.BlockPrograms
import OSDesign.FS.Refinement

/-!
# The disks that an interrupted call leaves behind

A call of `sfs_create` or `sfs_mkdir` writes at most six blocks: the byte of the new inode in the
inode map, the inode, and then, if the directory has no block yet, the byte of a block in the data
map, the block and the pointer to it, and last the entry. A call that is cut off before the last
write leaves one of five disks behind (`CutOff`), or the disk as it was.

A single write of a block is taken to happen as a whole or not at all.

## Main definitions

* `markInode`, `addInode`, `markBlock`, `addBlock`, `setBlock`: the disks between two writes.
* `CutOff`.

## Main results

* `passes_makeNode`: the disks that a call passes through.
-/

namespace OSDesign.FS

open ByteMemory Prog

variable {d d' : Disk} {b x : ℕ} {env : Env} {type : FileType} {name : List UInt8}
  {par node : Inode}

/-! ### The disks between two writes -/

/-- The inode is marked in the inode map. -/
def markInode (d : Disk) (x : ℕ) : Disk := Function.update d (imapAddr x) 1

/-- The inode is marked and written. -/
def addInode (d : Disk) (env : Env) (type : FileType) (x : ℕ) : Disk :=
  newInode (markInode d x) (inodeAddr x) env type x

/-- The block is marked in the data map. -/
def markBlock (d : Disk) (b : ℕ) : Disk := Function.update d (dmapAddr b) 1

/-- The block is marked and written as the directory `t` with parent `p`. -/
def addBlock (d : Disk) (b t p : ℕ) : Disk := initDir (markBlock d b) b t p

/-- The block is marked and written, and `t` points to it. -/
def setBlock (d : Disk) (b t p : ℕ) : Disk :=
  (Inode.directp 0).set (addBlock d b t p) (inodeAddr t) b

/-- The first inode that is not reserved. -/
structure NextInode (d : Disk) (x : ℕ) : Prop where
  lt : x < 2048
  free : ¬Reserved d x
  before : ∀ y < x, Reserved d y

/-- The first data block that is not marked. -/
structure NextBlock (d : Disk) (b : ℕ) : Prop where
  range : 1089 ≤ b ∧ b < 31809
  free : ¬Marked d b
  before : ∀ y, 1089 ≤ y → y < b → Marked d y

/-- The directory `node` needs a block, and `b` is the one it gets. -/
def Grows (d : Disk) (node : Inode) (b : ℕ) : Prop :=
  (Inode.directp 0).get node 0 = 0 ∧ reserveFreeData d = (some b, markBlock d b)

/-- The disks that a call leaves behind when it is cut off between its first and its last write, for
the inode `x` and the directory `node` with parent `par`. -/
inductive CutOff (env : Env) (type : FileType) (d : Disk) (par node : Inode) (x : ℕ) : Disk → Prop
  | inodeMarked : CutOff env type d par node x (markInode d x)
  | inodeWritten : CutOff env type d par node x (addInode d env type x)
  | blockMarked {b : ℕ} (h : Grows (addInode d env type x) node b) :
    CutOff env type d par node x (markBlock (addInode d env type x) b)
  | blockWritten {b : ℕ} (h : Grows (addInode d env type x) node b) :
    CutOff env type d par node x
      (addBlock (addInode d env type x) b (Inode.stIno.get node 0) (Inode.stIno.get par 0))
  | blockSet {b : ℕ} (h : Grows (addInode d env type x) node b) :
    CutOff env type d par node x
      (setBlock (addInode d env type x) b (Inode.stIno.get node 0) (Inode.stIno.get par 0))

/-! ### Reserving -/

/-- The byte that is reserved is the first one that is zero. -/
theorem reserveByte_first {bnum n place j : ℕ} (h : reserveByte d bnum n = some (place, j, d'))
    {a : ℕ}
    (ha : 512 * bnum ≤ a) (ha' : a < 512 * place + j) : d a ≠ 0 := by
  induction n generalizing bnum with
  | zero => cases h
  | succ n ih =>
    rw [reserveByte] at h
    cases hfree : freeByte (blockRead d bnum) with
    | some k =>
      rw [hfree, Option.map_some, Option.some_or, Option.some.injEq, Prod.mk.injEq,
        Prod.mk.injEq] at h
      obtain ⟨rfl, rfl, -⟩ := h
      rw [freeByte, List.find?_range_eq_some] at hfree
      have hbyte := hfree.2.2 (a - 512 * bnum) (by omega)
      rwa [Bool.not_eq_true', beq_eq_false_iff_ne, blockRead_apply, Nat.add_sub_cancel' ha] at hbyte
    | none =>
      rw [hfree, Option.map_none, Option.none_or] at h
      by_cases hin : a < 512 * (bnum + 1)
      · have hbyte := freeByte_eq_none hfree (show a - 512 * bnum < 512 by omega)
        rwa [blockRead_apply, Nat.add_sub_cancel' ha] at hbyte
      · exact ih h (by omega)

theorem reserveFreeData_next (hs : SuperOk d) :
    (reserveFreeData d = (none, d) ∧ ∀ b, 1089 ≤ b → b < 31809 → Marked d b) ∨
    ∃ b, NextBlock d b ∧ reserveFreeData d = (some b, markBlock d b) := by
  refine (reserveFreeData_cases hs).imp_right ?_
  rintro ⟨b, hb, hfree, hres⟩
  refine ⟨b, ⟨hb, hfree, fun y hy hyb => ?_⟩, hres⟩
  simp only [reserveFreeData, hs.dmap, hs.iList, hs.dList, dataStart, Nat.reduceSub] at hres
  rcases reserveByte_cases d 5 60 with ⟨hnone, -⟩ | ⟨place, j, hplace, -, hbyte⟩
  · rw [hnone] at hres
    cases (Prod.mk.inj hres).1
  · rw [hbyte] at hres
    have hb' := Option.some.inj (Prod.mk.inj hres).1
    have haddr := dmapAddr_def y
    exact marked_iff.mpr ⟨hy, by omega, reserveByte_first hbyte (by omega) (by omega)⟩

theorem reserveFreeInode_next (hs : SuperOk d) (env : Env) (type : FileType) :
    (reserveFreeInode d env type = (0, d) ∧ ∀ i < 2048, Reserved d i) ∨
    ∃ x, NextInode d x ∧ reserveFreeInode d env type = (x, addInode d env type x) := by
  refine (reserveFreeInode_cases hs env type).imp_right ?_
  rintro ⟨x, hx, hfree, hres⟩
  refine ⟨x, ⟨hx, hfree, fun y hy => ?_⟩, hres⟩
  simp only [reserveFreeInode, hs.imap, hs.dmap, Nat.reduceSub] at hres
  rcases reserveByte_cases d 1 4 with ⟨hnone, hfull⟩ | ⟨place, j, hplace, -, hbyte⟩
  · refine absurd (reserved_iff.mpr ⟨hx, hfull _ ?_ ?_⟩) hfree <;>
      have := imapAddr_def x <;> omega
  · rw [hbyte] at hres
    have hx' := (Prod.mk.inj hres).1
    have haddr := imapAddr_def y
    exact reserved_iff.mpr ⟨by omega, reserveByte_first hbyte (by omega) (by omega)⟩

theorem passes_reserveByte {bnum n : ℕ}
    (h : Passes diskStep (FSProg.reserveByte bnum n) d d') :
    d' = d ∨ ∃ r, reserveByte d bnum n = some r ∧ d' = r.2.2 := by
  induction n generalizing bnum with
  | zero => exact Or.inl (passes_pure.mp h)
  | succ n ih =>
    rw [FSProg.reserveByte,
      (FSProg.steady_blockRead _).passes_bind (FSProg.exec_blockRead bnum d)] at h
    cases hfree : freeByte (blockRead d bnum) with
    | none =>
      rw [hfree] at h
      rw [reserveByte, hfree]
      exact ih h
    | some j =>
      rw [hfree, Option.elim_some, passes_bind] at h
      rcases h with h | ⟨r, t, hexec, h⟩
      · rcases FSProg.passes_blockWrite.mp h with rfl | rfl
        · exact Or.inl rfl
        · exact Or.inr ⟨_, by rw [reserveByte, hfree]; rfl, rfl⟩
      · rw [FSProg.exec_blockWrite] at hexec
        obtain ⟨-, rfl⟩ := Prod.mk.inj (Option.some.inj hexec)
        obtain rfl := passes_pure.mp h
        exact Or.inr ⟨_, by rw [reserveByte, hfree]; rfl, rfl⟩

theorem passes_reserveFreeData (h : Passes diskStep FSProg.reserveFreeData d d') :
    d' = d ∨ d' = (reserveFreeData d).2 := by
  rw [FSProg.reserveFreeData, (FSProg.steady_blockRead _).passes_bind (FSProg.exec_blockRead 0 d),
    passes_bind] at h
  rcases h with h | ⟨r, t, hexec, h⟩
  · rcases passes_reserveByte h with rfl | ⟨r, hr, rfl⟩
    · exact Or.inl rfl
    · refine Or.inr ?_
      simp only [reserveFreeData, hr]
  · obtain rfl := passes_pure.mp h
    rw [FSProg.exec_reserveByte] at hexec
    obtain ⟨-, rfl⟩ := Prod.mk.inj (Option.some.inj hexec)
    refine Or.inr ?_
    simp only [reserveFreeData]
    rcases reserveByte d _ _ with _ | r <;> rfl

theorem passes_setupInode {imap : ℕ} {r : ℕ × ℕ}
    (h : Passes diskStep (FSProg.setupInode imap env type r) d d') :
    d' = d ∨ d' = newInode d (inodeAddr (512 * (r.1 - imap) + r.2)) env type
      (512 * (r.1 - imap) + r.2) := by
  rw [FSProg.setupInode, (FSProg.steady_blockRead _).passes_bind (FSProg.exec_blockRead _ d),
    passes_bind] at h
  rw [← blockWrite_newInode]
  rcases h with h | ⟨_, t, hexec, h⟩
  · exact FSProg.passes_blockWrite.mp h
  · rw [FSProg.exec_blockWrite] at hexec
    obtain ⟨-, rfl⟩ := Prod.mk.inj (Option.some.inj hexec)
    exact Or.inr (passes_pure.mp h)

theorem passes_reserveFreeInode (hs : SuperOk d)
    (h : Passes diskStep (FSProg.reserveFreeInode env type) d d') :
    d' = d ∨ ∃ x, NextInode d x ∧ (d' = markInode d x ∨ d' = addInode d env type x) := by
  rw [FSProg.reserveFreeInode, (FSProg.steady_blockRead _).passes_bind (FSProg.exec_blockRead 0 d),
    hs.imap, hs.dmap, passes_bind] at h
  have hnext := reserveFreeInode_next hs env type
  simp only [reserveFreeInode, hs.imap, hs.dmap, Nat.reduceSub] at hnext h
  rcases reserveByte_cases d 1 4 with ⟨hnone, -⟩ | ⟨iplace, j, hb, hzero, hsome⟩
  · refine Or.inl ?_
    rcases h with h | ⟨r, t, hexec, h⟩
    · rcases passes_reserveByte h with rfl | ⟨r, hr, -⟩
      · rfl
      · rw [hnone] at hr
        cases hr
    · rw [FSProg.exec_reserveByte, hnone] at hexec
      obtain ⟨rfl, rfl⟩ := Prod.mk.inj (Option.some.inj hexec)
      exact passes_pure.mp h
  · -- The byte that is found is the one of the next inode.
    rw [hsome] at hnext
    rcases hnext with ⟨hfull, hall⟩ | ⟨x, hx, hres⟩
    · have hzero' := hall (512 * (iplace - 1) + j) (by omega)
      have haddr := imapAddr_def (512 * (iplace - 1) + j)
      rw [reserved_iff, show imapAddr (512 * (iplace - 1) + j) =
        512 * iplace + j by omega] at hzero'
      exact absurd hzero hzero'.2
    · have hxj := (Prod.mk.inj hres).1
      have haddr : 512 * iplace + j = imapAddr x := by
        have := imapAddr_def x
        omega
      rw [haddr] at hsome
      rcases h with h | ⟨r, t, hexec, h⟩
      · rcases passes_reserveByte h with rfl | ⟨r, hr, rfl⟩
        · exact Or.inl rfl
        · rw [hsome] at hr
          obtain rfl := Option.some.inj hr
          exact Or.inr ⟨x, hx, Or.inl rfl⟩
      · rw [FSProg.exec_reserveByte, hsome] at hexec
        obtain ⟨rfl, rfl⟩ := Prod.mk.inj (Option.some.inj hexec)
        refine Or.inr ⟨x, hx, (passes_setupInode h).imp_right fun hd' => ?_⟩
        rw [hd', hxj]
        rfl

/-! ### The entry -/

theorem passes_initDir {t p : ℕ} (h : Passes diskStep (FSProg.initDir b t p) d d') :
    d' = d ∨ d' = initDir d b t p := by
  rw [FSProg.initDir, (FSProg.steady_blockRead _).passes_bind (FSProg.exec_blockRead b d)] at h
  exact FSProg.passes_blockWrite.mp h

/-- The block of a directory is marked, written and entered in the inode. -/
theorem passes_growDir (hptr : (Inode.directp 0).get node 0 = 0)
    (hreserve : reserveFreeData d = (some b, markBlock d b))
    (h : Passes diskStep (FSProg.growDir par node 0) d d') :
    d' = d ∨ d' = markBlock d b ∨
      d' = addBlock d b (Inode.stIno.get node 0) (Inode.stIno.get par 0) ∨
      d' = setBlock d b (Inode.stIno.get node 0) (Inode.stIno.get par 0) := by
  rw [FSProg.growDir, if_pos hptr, passes_bind] at h
  rcases h with h | ⟨r, t, hexec, h⟩
  · rcases passes_reserveFreeData h with rfl | rfl
    · exact Or.inl rfl
    · exact Or.inr (Or.inl (by rw [hreserve]))
  · rw [FSProg.exec_reserveFreeData, hreserve] at hexec
    obtain ⟨rfl, rfl⟩ := Prod.mk.inj (Option.some.inj hexec)
    rw [Option.elim_some, FSProg.setPointer, passes_bind] at h
    rcases h with h | ⟨_, t, hexec, h⟩
    · rcases passes_initDir h with rfl | rfl
      · exact Or.inr (Or.inl rfl)
      · exact Or.inr (Or.inr (Or.inl rfl))
    · rw [FSProg.exec_initDir] at hexec
      obtain ⟨-, rfl⟩ := Prod.mk.inj (Option.some.inj hexec)
      rw [(FSProg.steady_blockRead _).passes_bind (FSProg.exec_blockRead _ _), passes_bind,
        FSProg.passes_blockWrite, blockWrite_directp] at h
      rcases h with (rfl | rfl) | ⟨_, t, hexec, h⟩
      · exact Or.inr (Or.inr (Or.inl rfl))
      · exact Or.inr (Or.inr (Or.inr rfl))
      · rw [FSProg.exec_blockWrite, blockWrite_directp] at hexec
        obtain ⟨-, rfl⟩ := Prod.mk.inj (Option.some.inj hexec)
        exact Or.inr (Or.inr (Or.inr (passes_pure.mp h)))

/-- In a directory that has a block the loop makes the entry, and that is its only write. -/
theorem passes_updateDirLoop {fuel : ℕ} (hptr : (Inode.directp 0).get node 0 ≠ 0)
    (h : Passes diskStep (FSProg.updateDirLoop name par x 0 fuel node) d d') :
    d' = d ∨ updateDirLoop name par x 0 fuel d node = some (0, d') := by
  have hpos : 0 < numDirectPointers := by decide
  have hgrow : FSProg.growDir par node 0 = pure (some node) := if_neg hptr
  have hgrow' : growDir d par node 0 = (some node, d) := if_neg hptr
  induction fuel with
  | zero => exact Or.inl (passes_fail.mp h)
  | succ fuel ih =>
    rw [FSProg.updateDirLoop, if_pos hpos, hgrow, (Steady.pure _).passes_bind (exec_pure ..),
      Option.elim_some, FSProg.enter, passes_bind] at h
    rw [updateDirLoop, if_pos hpos, hgrow']
    dsimp only
    simp only [(FSProg.steady_blockRead _).passes_bind (FSProg.exec_blockRead _ d), exec_bind,
      FSProg.exec_blockRead, Option.bind_some] at h
    cases hfree : freeSlot (blockRead d ((Inode.directp 0).get node 0)) with
    | none =>
      rw [hfree, Option.elim_none, passes_pure] at h
      rcases h with rfl | ⟨r, t, hexec, h⟩
      · exact Or.inl rfl
      · obtain ⟨rfl, rfl⟩ := Prod.mk.inj (Option.some.inj hexec)
        exact ih h
    | some j =>
      rw [hfree, Option.elim_some, passes_bind, FSProg.passes_blockWrite] at h
      rcases h with ((rfl | rfl) | ⟨_, t, hexec, h⟩) | ⟨r, t, hexec, h⟩
      · exact Or.inl rfl
      · exact Or.inr rfl
      · rw [FSProg.exec_blockWrite] at hexec
        obtain ⟨-, rfl⟩ := Prod.mk.inj (Option.some.inj hexec)
        obtain rfl := passes_pure.mp h
        exact Or.inr rfl
      · rw [exec_bind, FSProg.exec_blockWrite] at hexec
        obtain ⟨rfl, rfl⟩ := Prod.mk.inj (Option.some.inj hexec)
        obtain rfl := passes_pure.mp h
        exact Or.inr rfl

/-- A directory without a block gets one, unless none is left, and then the entry. -/
theorem passes_updateDir {fuel : ℕ} (hs : SuperOk d)
    (h : Passes diskStep (FSProg.updateDir name par node x fuel) d d') :
    d' = d ∨ updateDir d name par node x fuel = some (0, d') ∨ ∃ b, Grows d node b ∧
      (d' = markBlock d b ∨
        d' = addBlock d b (Inode.stIno.get node 0) (Inode.stIno.get par 0) ∨
        d' = setBlock d b (Inode.stIno.get node 0) (Inode.stIno.get par 0)) := by
  have hpos : 0 < numDirectPointers := by decide
  by_cases hptr : (Inode.directp 0).get node 0 = 0
  swap
  · exact (passes_updateDirLoop hptr h).imp_right Or.inl
  cases fuel with
  | zero => exact Or.inl (passes_fail.mp h)
  | succ fuel =>
    rcases reserveFreeData_cases hs with ⟨hnone, -⟩ | ⟨b, hb, -, hreserve⟩
    · have hgrow : growDir d par node 0 = (none, d) := by
        simp only [growDir, if_pos hptr, hnone]
      rw [FSProg.updateDir, FSProg.updateDirLoop, if_pos hpos, passes_bind] at h
      refine Or.inl ?_
      rcases h with h | ⟨r, t, hexec, h⟩
      · rw [FSProg.growDir, if_pos hptr, passes_bind] at h
        rcases h with h | ⟨r, t, hexec, h⟩
        · rcases passes_reserveFreeData h with rfl | rfl
          · rfl
          · rw [hnone]
        · rw [FSProg.exec_reserveFreeData, hnone] at hexec
          obtain ⟨rfl, rfl⟩ := Prod.mk.inj (Option.some.inj hexec)
          exact passes_pure.mp h
      · rw [FSProg.exec_growDir, hgrow] at hexec
        obtain ⟨rfl, rfl⟩ := Prod.mk.inj (Option.some.inj hexec)
        exact passes_pure.mp h
    · have hgrow : growDir d par node 0 = _ := growDir_of_zero hptr hreserve rfl rfl
      have hget : (Inode.directp 0).get ((Inode.directp 0).set node 0 b) 0 = b :=
        directp_set_self hb
      have hptr' : (Inode.directp 0).get ((Inode.directp 0).set node 0 b) 0 ≠ 0 := by omega
      have hgrow' : FSProg.growDir par ((Inode.directp 0).set node 0 b) 0 =
          pure (some ((Inode.directp 0).set node 0 b)) := if_neg hptr'
      rw [FSProg.updateDir, FSProg.updateDirLoop, if_pos hpos, passes_bind] at h
      rcases h with h | ⟨r, t, hexec, h⟩
      · rcases passes_growDir hptr hreserve h with rfl | hcut
        · exact Or.inl rfl
        · exact Or.inr (Or.inr ⟨b, ⟨hptr, hreserve⟩, hcut⟩)
      · rw [FSProg.exec_growDir, hgrow] at hexec
        obtain ⟨rfl, rfl⟩ := Prod.mk.inj (Option.some.inj hexec)
        -- From here on the pass is one in which the directory has its block.
        have hrest : Passes diskStep (FSProg.updateDirLoop name par x 0 (fuel + 1)
            ((Inode.directp 0).set node 0 b))
            (setBlock d b (Inode.stIno.get node 0) (Inode.stIno.get par 0)) d' := by
          rw [FSProg.updateDirLoop, if_pos hpos, hgrow',
            (Steady.pure _).passes_bind (exec_pure ..)]
          exact h
        rcases passes_updateDirLoop hptr' hrest with rfl | hend
        · exact Or.inr (Or.inr ⟨b, ⟨hptr, hreserve⟩, Or.inr (Or.inr rfl)⟩)
        · exact Or.inr (Or.inl ((updateDirLoop_grow hgrow hptr').trans hend))

/-! ### The whole call -/

theorem SuperOk.addInode (hs : SuperOk d) (env : Env) (type : FileType) (x : ℕ) :
    SuperOk (addInode d env type x) := by
  have haddr := inodeAddr_def x
  have hmap := imapAddr_def x
  refine hs.congr fun y hy => ?_
  have hout : y ∉ Set.Ico (inodeAddr x) (inodeAddr x + inodeSize) := fun h => absurd h.1 (by omega)
  rw [FS.addInode, newInode_eqOn _ _ env type x hout, markInode, Function.update_of_ne (by omega)]

theorem passes_enterNode {fuel : ℕ} (hs : SuperOk d)
    (h : Passes diskStep (FSProg.enterNode name par node fuel x) d d') :
    d' = d ∨ (x ≠ 0 ∧ updateDir d name par node x fuel = some (0, d')) ∨ ∃ b, Grows d node b ∧
      (d' = markBlock d b ∨
        d' = addBlock d b (Inode.stIno.get node 0) (Inode.stIno.get par 0) ∨
        d' = setBlock d b (Inode.stIno.get node 0) (Inode.stIno.get par 0)) := by
  rw [FSProg.enterNode] at h
  split at h
  · exact Or.inl (passes_pure.mp h)
  next hx =>
  rw [(FSProg.steady_getInode _).passes_bind (FSProg.exec_getInode _ _), passes_bind] at h
  have hup : Passes diskStep (FSProg.updateDir name par node x fuel) d d' := by
    rcases h with h | ⟨ret, t, hexec, h⟩
    · exact h
    · obtain rfl := passes_pure.mp h
      exact passes_of_exec hexec
  rcases passes_updateDir hs hup with h | h | h
  · exact Or.inl h
  · exact Or.inr (Or.inl ⟨hx, h⟩)
  · exact Or.inr (Or.inr h)

/-- A call that makes its entry returns 0. -/
theorem makeNode_of_updateDir {path : List UInt8} {fuel i : ℕ} {ret : ℤ}
    (hlong : ¬path.length ≥ 255) (hlast : lastSlash path path.length = some i)
    (hnav : navPath d 0 0 (path.take i) = (ret, par, node)) (hret : ret ≠ -1)
    (hres : reserveFreeInode d env type = (x, addInode d env type x)) (hx : x ≠ 0)
    (hup : updateDir (addInode d env type x) (path.drop ((path.take i).length + 1))
      par node x fuel =
      some (0, d')) : makeNode type d path env fuel = some (0, d') := by
  simp only [makeNode, if_neg hlong, hlast, hnav, if_neg hret, hres, if_neg hx, hup]
  rfl

/-- **The disks a call passes through.** A call that is cut off leaves the disk as it was, or as it
would have left it at its end, or in between: an inode `x` that was not reserved is, and the
directory that `navPath` has found may have a block. -/
theorem passes_makeNode {path : List UInt8} {fuel : ℕ} (hs : SuperOk d)
    (h : Passes diskStep (FSProg.makeNode type path env fuel) d d') :
    d' = d ∨ makeNode type d path env fuel = some (0, d') ∨ ∃ i ret par targ x,
      lastSlash path path.length = some i ∧
      navPath d 0 0 (path.take i) = (ret, par, targ) ∧ ret ≠ -1 ∧
      NextInode d x ∧ CutOff env type d par targ x d' := by
  rw [FSProg.makeNode] at h
  split at h
  · exact Or.inl (passes_pure.mp h)
  next hlong =>
  cases hlast : lastSlash path path.length with
  | none =>
    rw [hlast] at h
    exact Or.inl (passes_pure.mp h)
  | some i =>
    rw [hlast, Option.elim_some, (FSProg.steady_navPath _ _ _).passes_bind
      (FSProg.exec_navPath 0 0 (path.take i) d)] at h
    rcases hnav : navPath d 0 0 (path.take i) with ⟨ret, par, targ⟩
    rw [hnav] at h
    split at h
    · exact Or.inl (passes_pure.mp h)
    next hret =>
    have hcut {x : ℕ} (hx : NextInode d x) (hc : CutOff env type d par targ x d') :
        d' = d ∨ makeNode type d path env fuel = some (0, d') ∨ ∃ i' ret par targ x,
        some i = some i' ∧ navPath d 0 0 (path.take i') = (ret, par, targ) ∧ ret ≠ -1 ∧
        NextInode d x ∧ CutOff env type d par targ x d' :=
      Or.inr (Or.inr ⟨i, ret, par, targ, x, rfl, hnav, hret, hx, hc⟩)
    rw [passes_bind] at h
    rcases h with h | ⟨inum, t, hexec, h⟩
    · rcases passes_reserveFreeInode hs h with rfl | ⟨x, hx, rfl | rfl⟩
      · exact Or.inl rfl
      · exact hcut hx .inodeMarked
      · exact hcut hx .inodeWritten
    · rw [FSProg.exec_reserveFreeInode] at hexec
      rcases reserveFreeInode_next hs env type with ⟨hres, -⟩ | ⟨x, hx, hres⟩
      · rw [hres] at hexec
        obtain ⟨rfl, rfl⟩ := Prod.mk.inj (Option.some.inj hexec)
        exact Or.inl (passes_pure.mp h)
      · rw [hres] at hexec
        obtain ⟨rfl, rfl⟩ := Prod.mk.inj (Option.some.inj hexec)
        rcases passes_enterNode (hs.addInode env type x) h with
          rfl | ⟨hx₀, hup⟩ | ⟨b, hgrows, rfl | rfl | rfl⟩
        · exact hcut hx .inodeWritten
        · exact Or.inr (Or.inl (makeNode_of_updateDir hlong hlast hnav hret hres hx₀ hup))
        · exact hcut hx (.blockMarked hgrows)
        · exact hcut hx (.blockWritten hgrows)
        · exact hcut hx (.blockSet hgrows)

end OSDesign.FS
