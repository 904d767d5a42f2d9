import OSDesign.FS.Walk
import OSDesign.Lib.Crash

/-!
# The functions of the file system as programs

The functions of `OSDesign.FS.Disk` and `OSDesign.FS.Operations` once more, as programs whose
operations are the single calls of `block_read` and `block_write`. A program shows in which order
the blocks are written, and so which disks a call leaves behind when it is cut off. What the
programs compute is what the functions compute.

## Main definitions

* `DiskOp`, `diskStep`: the operations and what they do.
* `FSProg.navPath`, `FSProg.reserveFreeData`, `FSProg.reserveFreeInode`, `FSProg.updateDir`,
  `FSProg.makeNode`, `FSProg.sfsInit`: the programs.

## Main results

* `FSProg.exec_navPath`, `FSProg.exec_makeNode`, `FSProg.exec_sfsInit`: what they compute.
* `FSProg.steady_navPath`: looking up a path writes nothing.
-/

namespace OSDesign.FS

open ByteMemory

/-! ### The operations -/

/-- A call of `block_read` or `block_write`. -/
inductive DiskOp where
  | read (n : ℕ)
  | write (n : ℕ) (buf : Memory)

/-- The results of the operations: what is read. -/
def DiskOp.Result : DiskOp → Type
  | .read _ => Memory
  | .write .. => Unit

/-- What the operations do to the disk. -/
def diskStep : (e : DiskOp) → Disk → Option (e.Result × Disk)
  | .read n, d => some (blockRead d n, d)
  | .write n buf, d => some ((), blockWrite d n buf)

/-- Programs over the disk. -/
abbrev FSProg := Prog DiskOp DiskOp.Result

namespace FSProg

open Prog

/-- `block_read`. -/
def blockRead (n : ℕ) : FSProg Memory := perform (DiskOp.read n)

/-- `block_write`. -/
def blockWrite (n : ℕ) (buf : Memory) : FSProg Unit := perform (DiskOp.write n buf)

@[simp] theorem exec_blockRead (n : ℕ) (d : Disk) :
    exec diskStep (blockRead n) d = some (FS.blockRead d n, d) :=
  exec_perform ..

@[simp] theorem exec_blockWrite (n : ℕ) (buf : Memory) (d : Disk) :
    exec diskStep (blockWrite n buf) d = some ((), FS.blockWrite d n buf) :=
  exec_perform ..

theorem steady_blockRead (n : ℕ) : Steady diskStep (blockRead n) := by
  refine Steady.perform fun d x hx => ?_
  obtain rfl := Option.some.inj hx
  rfl

theorem passes_blockWrite {n : ℕ} {buf : Memory} {d d' : Disk} :
    Passes diskStep (blockWrite n buf) d d' ↔ d' = d ∨ d' = FS.blockWrite d n buf := by
  refine passes_perform.trans (or_congr_right ⟨?_, ?_⟩)
  · rintro ⟨r, hr⟩
    exact (Prod.mk.inj (Option.some.inj hr)).2.symm
  · rintro rfl
    exact ⟨(), rfl⟩

/-! ### Reserving -/

/-- The loop of `reserveFreeData` and `reserveFreeInode` over the blocks of a map. -/
def reserveByte : ℕ → ℕ → FSProg (Option (ℕ × ℕ))
  | _, 0 => pure none
  | bnum, n + 1 => do
    let map ← blockRead bnum
    (freeByte map).elim (reserveByte (bnum + 1) n) fun j => do
      blockWrite bnum (Function.update map j 1)
      pure (some (bnum, j))

/-- `reserveFreeData`. -/
def reserveFreeData : FSProg (Option ℕ) := do
  let s ← blockRead 0
  let dmap := Superblock.dmap.get s 0
  let found ← reserveByte dmap (Superblock.iList.get s 0 - dmap)
  pure (found.map fun x => 512 * (x.1 - dmap) + x.2 + Superblock.dList.get s 0)

/-- The end of `reserveFreeInode`, for the byte `x` of the map. -/
def setupInode (imap : ℕ) (env : Env) (type : FileType) (x : ℕ × ℕ) : FSProg ℕ := do
  let inum := 512 * (x.1 - imap) + x.2
  let ibuff ← blockRead (65 + inum / 2)
  blockWrite (65 + inum / 2) (newInode ibuff (inodeOffset inum) env type inum)
  pure inum

/-- `reserveFreeInode`. -/
def reserveFreeInode (env : Env) (type : FileType) : FSProg ℕ := do
  let s ← blockRead 0
  let imap := Superblock.imap.get s 0
  let found ← reserveByte imap (Superblock.dmap.get s 0 - imap)
  found.elim (pure 0) (setupInode imap env type)

/-- `getInode`. -/
def getInode (inum : ℕ) : FSProg Inode := do
  let buff ← blockRead (65 + inum / 2)
  pure (view buff (inodeOffset inum))

theorem exec_reserveByte (bnum n : ℕ) (d : Disk) :
    exec diskStep (reserveByte bnum n) d =
      some ((FS.reserveByte d bnum n).elim (none, d) fun x => (some (x.1, x.2.1), x.2.2)) := by
  induction n generalizing bnum with
  | zero => rfl
  | succ n ih =>
    rw [reserveByte, exec_bind, exec_blockRead, Option.bind_some, FS.reserveByte]
    dsimp only
    cases freeByte (FS.blockRead d bnum) with
    | some j =>
      simp only [Option.elim_some, exec_bind, exec_blockWrite, Option.bind_some, exec_pure,
        Option.map_some, Option.some_or]
    | none => exact ih (bnum + 1)

theorem exec_reserveFreeData (d : Disk) :
    exec diskStep reserveFreeData d = some (FS.reserveFreeData d) := by
  simp only [reserveFreeData, exec_bind, exec_blockRead, Option.bind_some, exec_reserveByte,
    exec_pure, FS.reserveFreeData]
  rcases FS.reserveByte d _ _ with _ | ⟨bnum, j, d'⟩ <;> rfl

theorem exec_reserveFreeInode (env : Env) (type : FileType) (d : Disk) :
    exec diskStep (reserveFreeInode env type) d = some (FS.reserveFreeInode d env type) := by
  simp only [reserveFreeInode, exec_bind, exec_blockRead, Option.bind_some, exec_reserveByte,
    FS.reserveFreeInode]
  rcases FS.reserveByte d _ _ with _ | ⟨iplace, j, d'⟩
  · rfl
  · simp only [Option.elim_some, setupInode, exec_bind, exec_blockRead, Option.bind_some,
      exec_blockWrite, exec_pure]

theorem exec_getInode (inum : ℕ) (d : Disk) :
    exec diskStep (getInode inum) d = some (FS.getInode d inum, d) := by
  simp only [getInode, exec_bind, exec_blockRead, Option.bind_some, exec_pure, FS.getInode]

theorem steady_getInode (inum : ℕ) : Steady diskStep (getInode inum) :=
  (steady_blockRead _).bind fun _ => Steady.pure _

/-! ### Looking up a path -/

/-- The loop over the blocks of a directory, for the pointers of the list. -/
def searchPointers (t : Inode) (name : List UInt8) : List ℕ → FSProg (Option ℕ)
  | [] => pure none
  | q :: qs =>
    if (Inode.directp q).get t 0 = 0 then searchPointers t name qs
    else do
      let m ← blockRead ((Inode.directp q).get t 0)
      (searchBlock m name).elim (searchPointers t name qs) fun inum => pure (some inum)

/-- The search in a directory. -/
def searchDir (t : Inode) (name : List UInt8) : FSProg (Option ℕ) :=
  searchPointers t name (List.range numDirectPointers)

/-- `t` is set to the inode that was found. -/
def follow (iList : ℕ) (t : Inode) (found : Option ℕ) : FSProg Inode :=
  found.elim (pure t) fun inum => do
    let targibuff ← blockRead (inum / 2 + iList)
    pure (view targibuff (inodeOffset inum))

/-- The loop of `navPath`. -/
def navLoop (iList : ℕ) (path : List UInt8) :
    ℕ → ℕ → Inode → FSProg (Option (Inode × Inode × ℕ))
  | 0, _, _ => pure none
  | n + 1, i, t => do
    let name := currname path i
    let e := i + name.length
    let found ← searchDir t name
    let t' ← follow iList t found
    let flag := if charAt path e = 0 then 1 else 0
    let flag :=
      if flag = 1 ∨ charAt path (e + 1) = 0 ∨
          (charAt path (e + 1) = slash ∧ charAt path (e + 1 + 1) = 0) then
        if found.isSome then 2 else 1
      else flag
    if flag = 0 then navLoop iList path n (e + 1) t' else pure (some (t, t', flag))

/-- `navPath`. -/
def navPath (par targ : Inode) (path : List UInt8) : FSProg (ℤ × Inode × Inode) := do
  let s ← blockRead 0
  let iList := Superblock.iList.get s 0
  let p ← blockRead iList
  let t ← blockRead iList
  if path.length = 1 ∨ path.length = 0 then pure (0, p, t)
  else do
    let r ← navLoop iList path 10000 1 t
    pure (r.elim (-1, par, targ) fun x => (if x.2.2 = 1 then -1 else 0, x.1, x.2.1))

theorem exec_searchPointers (t : Inode) (name : List UInt8) (qs : List ℕ) (d : Disk) :
    exec diskStep (searchPointers t name qs) d =
      some (qs.findSome? (fun q =>
        let bnum := (Inode.directp q).get t 0
        if bnum = 0 then none else searchBlock (FS.blockRead d bnum) name), d) := by
  induction qs with
  | nil => rfl
  | cons q qs ih =>
    rw [searchPointers, List.findSome?_cons]
    by_cases hq : (Inode.directp q).get t 0 = 0
    · simp only [if_pos hq]
      exact ih
    · simp only [if_neg hq, exec_bind, exec_blockRead, Option.bind_some]
      cases searchBlock (FS.blockRead d ((Inode.directp q).get t 0)) name with
      | none => exact ih
      | some inum => rfl

theorem exec_searchDir (t : Inode) (name : List UInt8) (d : Disk) :
    exec diskStep (searchDir t name) d = some (FS.searchDir d t name, d) :=
  exec_searchPointers ..

theorem exec_follow (iList : ℕ) (t : Inode) (found : Option ℕ) (d : Disk) :
    exec diskStep (follow iList t found) d = some (found.elim t fun inum =>
      view (FS.blockRead d (inum / 2 + iList)) (inodeOffset inum), d) := by
  cases found with
  | none => rfl
  | some inum => simp only [follow, Option.elim_some, exec_bind, exec_blockRead, Option.bind_some,
      exec_pure]

theorem exec_navLoop (iList : ℕ) (path : List UInt8) (n i : ℕ) (t : Inode) (d : Disk) :
    exec diskStep (navLoop iList path n i t) d = some (FS.navLoop d iList path n i t, d) := by
  induction n generalizing i t with
  | zero => rfl
  | succ n ih =>
    simp only [navLoop, exec_bind, exec_searchDir, exec_follow, Option.bind_some, exec_ite, ih,
      exec_pure]
    exact (apply_ite (fun r => some (r, d)) _ _ _).symm

theorem exec_navPath (par targ : Inode) (path : List UInt8) (d : Disk) :
    exec diskStep (navPath par targ path) d = some (FS.navPath d par targ path, d) := by
  simp only [navPath, exec_bind, exec_blockRead, Option.bind_some, exec_ite, exec_pure,
    exec_navLoop, FS.navPath]
  split_ifs
  · rfl
  · rcases FS.navLoop d _ path 10000 1 _ with _ | ⟨p, t, flag⟩ <;> rfl

theorem steady_searchPointers (t : Inode) (name : List UInt8) (qs : List ℕ) :
    Steady diskStep (searchPointers t name qs) := by
  induction qs with
  | nil => exact Steady.pure _
  | cons q qs ih =>
    rw [searchPointers]
    refine Steady.ite ih ((steady_blockRead _).bind fun m => ?_)
    cases searchBlock m name with
    | none => exact ih
    | some inum => exact Steady.pure _

theorem steady_follow (iList : ℕ) (t : Inode) (found : Option ℕ) :
    Steady diskStep (follow iList t found) := by
  cases found with
  | none => exact Steady.pure _
  | some inum => exact (steady_blockRead _).bind fun _ => Steady.pure _

theorem steady_navLoop (iList : ℕ) (path : List UInt8) (n i : ℕ) (t : Inode) :
    Steady diskStep (navLoop iList path n i t) := by
  induction n generalizing i t with
  | zero => exact Steady.pure _
  | succ n ih =>
    refine Steady.bind (steady_searchPointers _ _ _) fun found =>
      Steady.bind (steady_follow _ _ _) fun t' => ?_
    exact Steady.ite (ih _ t') (Steady.pure _)

/-- Looking up a path writes nothing. -/
theorem steady_navPath (par targ : Inode) (path : List UInt8) :
    Steady diskStep (navPath par targ path) := by
  refine (steady_blockRead _).bind fun s => (steady_blockRead _).bind fun p =>
    (steady_blockRead _).bind fun t => ?_
  exact Steady.ite (Steady.pure _) (Steady.bind (steady_navLoop _ _ _ _ _) fun _ => Steady.pure _)

/-! ### Directories -/

/-- `initDir`. -/
def initDir (blocknum selfinum parentinum : ℕ) : FSProg Unit := do
  let m ← blockRead blocknum
  let m := (MyDir.inums 0).set m 0 selfinum
  let m := Function.update m (MyDir.fnames 0) dot
  let m := Function.update m (MyDir.fnames 0 + 1) 0
  let m :=
    if selfinum ≠ parentinum then
      let m := (MyDir.inums 1).set m 0 parentinum
      let m := Function.update m (MyDir.fnames 1) dot
      let m := Function.update m (MyDir.fnames 1 + 1) dot
      Function.update m (MyDir.fnames 1 + 2) 0
    else
      (MyDir.inums 1).set m 0 inumFree
  blockWrite blocknum (freeEntries m 2 14)

/-- The pointer to a new block, in the copy of the inode and on the disk. -/
def setPointer (par node : Inode) (i bnum : ℕ) : FSProg (Option Inode) := do
  let ino := Inode.stIno.get node 0
  initDir bnum ino (Inode.stIno.get par 0)
  let ibuff ← blockRead (65 + ino / 2)
  blockWrite (65 + ino / 2) ((Inode.directp i).set ibuff (inodeOffset ino) bnum)
  pure (some ((Inode.directp i).set node 0 bnum))

/-- The first part of the loop body of `updateDir`. -/
def growDir (par node : Inode) (i : ℕ) : FSProg (Option Inode) :=
  if (Inode.directp i).get node 0 = 0 then do
    let bnum ← reserveFreeData
    bnum.elim (pure none) (setPointer par node i)
  else pure (some node)

/-- The second part of the loop body of `updateDir`: the entry is made, unless all are in use. -/
def enter (newname : List UInt8) (newino bnum : ℕ) : FSProg Bool := do
  let m ← blockRead bnum
  (freeSlot m).elim (pure false) fun j => do
    blockWrite bnum (strcpy ((MyDir.inums j).set m 0 newino) (MyDir.fnames j) newname)
    pure true

/-- The loop of `updateDir`, for at most `fuel` passes. A loop that has not ended by then fails. -/
def updateDirLoop (newname : List UInt8) (par : Inode) (newino i : ℕ) :
    ℕ → Inode → FSProg ℤ
  | 0, _ => .fail
  | fuel + 1, node =>
    if i < numDirectPointers then do
      let grown ← growDir par node i
      grown.elim (pure (-1)) fun node => do
        let entered ← enter newname newino ((Inode.directp i).get node 0)
        if entered then pure 0 else updateDirLoop newname par newino i fuel node
    else pure (-1)

/-- `updateDir`. -/
def updateDir (newname : List UInt8) (par node : Inode) (newino fuel : ℕ) : FSProg ℤ :=
  updateDirLoop newname par newino 0 fuel node

theorem exec_initDir (blocknum selfinum parentinum : ℕ) (d : Disk) :
    exec diskStep (initDir blocknum selfinum parentinum) d =
      some ((), FS.initDir d blocknum selfinum parentinum) := by
  simp only [initDir, exec_bind, exec_blockRead, Option.bind_some, exec_blockWrite, FS.initDir]

theorem exec_growDir (par node : Inode) (i : ℕ) (d : Disk) :
    exec diskStep (growDir par node i) d = some (FS.growDir d par node i) := by
  rw [growDir, exec_ite, FS.growDir]
  split
  · rw [exec_bind, exec_reserveFreeData, Option.bind_some]
    rcases FS.reserveFreeData d with ⟨_ | bnum, d₁⟩
    · rfl
    · simp only [Option.elim_some, setPointer, exec_bind, exec_initDir, exec_blockRead,
        exec_blockWrite, Option.bind_some, exec_pure]
  · rfl

theorem exec_updateDirLoop (newname : List UInt8) (par : Inode) (newino i fuel : ℕ) (d : Disk)
    (node : Inode) :
    exec diskStep (updateDirLoop newname par newino i fuel node) d =
      FS.updateDirLoop newname par newino i fuel d node := by
  induction fuel generalizing d node with
  | zero => rfl
  | succ fuel ih =>
    rw [updateDirLoop, exec_ite, FS.updateDirLoop]
    split
    · rw [exec_bind, exec_growDir, Option.bind_some]
      rcases FS.growDir d par node i with ⟨_ | node', d₁⟩
      · rfl
      · simp only [Option.elim_some, enter, exec_bind, exec_blockRead, Option.bind_some]
        cases freeSlot (FS.blockRead d₁ ((Inode.directp i).get node' 0)) with
        | none => exact ih d₁ node'
        | some j => simp only [Option.elim_some, exec_bind, exec_blockWrite, Option.bind_some,
            exec_pure, if_true]
    · rfl

theorem exec_updateDir (newname : List UInt8) (par node : Inode) (newino fuel : ℕ) (d : Disk) :
    exec diskStep (updateDir newname par node newino fuel) d =
      FS.updateDir d newname par node newino fuel :=
  exec_updateDirLoop ..

/-! ### Creating files and directories -/

/-- The end of `sfs_create` and `sfs_mkdir`, after the inode has been reserved. The copy that
`getInode` makes is not used. -/
def enterNode (fn : List UInt8) (par targ : Inode) (fuel inum : ℕ) : FSProg ℤ :=
  if inum = 0 then pure (-1)
  else do
    let _newn ← getInode inum
    let ret ← updateDir fn par targ inum fuel
    pure (if ret = -1 then -1 else 0)

/-- The common body of `sfs_create` and `sfs_mkdir`. -/
def makeNode (type : FileType) (path : List UInt8) (env : Env) (fuel : ℕ) : FSProg ℤ :=
  if path.length ≥ 255 then pure (-1)
  else
    (lastSlash path path.length).elim (pure (-1)) fun i => do
      let r ← navPath 0 0 (path.take i)
      if r.1 = -1 then pure (-1)
      else do
        let inum ← reserveFreeInode env type
        enterNode (path.drop ((path.take i).length + 1)) r.2.1 r.2.2 fuel inum

/-- `sfs_create`. -/
def sfsCreate (path : List UInt8) (env : Env) (fuel : ℕ) : FSProg ℤ := makeNode .file path env fuel

/-- `sfs_mkdir`. -/
def sfsMkdir (path : List UInt8) (env : Env) (fuel : ℕ) : FSProg ℤ :=
  makeNode .directory path env fuel

theorem exec_makeNode (type : FileType) (path : List UInt8) (env : Env) (fuel : ℕ) (d : Disk) :
    exec diskStep (makeNode type path env fuel) d = FS.makeNode type d path env fuel := by
  rw [makeNode, exec_ite, FS.makeNode]
  split
  · rfl
  · cases lastSlash path path.length with
    | none => rfl
    | some i =>
      simp only [Option.elim_some, exec_bind, exec_navPath, Option.bind_some, exec_ite, exec_pure,
        exec_reserveFreeInode, enterNode, exec_getInode, exec_updateDir]
      rcases FS.navPath d 0 0 (path.take i) with ⟨ret, par, targ⟩
      dsimp only
      rcases FS.reserveFreeInode d env type with ⟨inum, d₁⟩
      dsimp only
      rcases FS.updateDir d₁ (path.drop ((path.take i).length + 1)) par targ inum fuel with
        _ | ⟨ret₁, d₂⟩ <;> rfl

/-! ### Formatting the disk -/

/-- The loop of `sfs_init` over the blocks of the maps. -/
def clearMaps : ℕ → FSProg Unit
  | 0 => pure ()
  | n + 1 => do
    clearMaps n
    blockWrite (n + 1) (Function.update (fun _ => 0) 0 (if n + 1 = 1 then 1 else 0))

/-- The root inode of `sfs_init`, without its pointers. -/
def rootInode (env : Env) (junk : Memory) : Memory :=
  let rooti := stamp junk 0 env .directory 0
  let rooti := Inode.stNlink.set rooti 0 1
  let rooti := Inode.stSize.set rooti 0 0
  let rooti := Inode.stBlocks.set rooti 0 1
  let rooti := Inode.opened.set rooti 0 0
  let rooti := Inode.used.set rooti 0 0
  clearDirectp rooti 0 1 (numDirectPointers - 1)

/-- The superblock of `sfs_init`. -/
def newSuperblock (sb : Memory) : Memory :=
  let sb := Superblock.magicnum.set sb 0 magic
  let sb := Superblock.imap.set sb 0 1
  let sb := Superblock.dmap.set sb 0 5
  let sb := Superblock.iList.set sb 0 65
  Superblock.dList.set sb 0 1089

/-- The end of `sfs_init`: the first block and the inode of the root. -/
def makeRoot (i : ℕ) (rooti : Memory) : FSProg Unit := do
  let bnum ← reserveFreeData
  bnum.elim
    (blockWrite i (Inode.indirectp.set ((Inode.directp 0).set rooti 0 (2 ^ 32 - 1)) 0 0))
    fun bnum => do
      initDir bnum 0 0
      blockWrite i (Inode.indirectp.set ((Inode.directp 0).set rooti 0 bnum) 0 0)

/-- `sfs_init`. -/
def sfsInit (env : Env) (junk : Memory) : FSProg Unit := do
  let sb ← blockRead 0
  if Superblock.magicnum.get sb 0 ≠ magic then do
    blockWrite 0 (newSuperblock sb)
    clearMaps (Superblock.iList.get (newSuperblock sb) 0 - 1)
    makeRoot (Superblock.iList.get (newSuperblock sb) 0) (rootInode env junk)
  else pure ()

theorem exec_clearMaps (n : ℕ) (d : Disk) :
    exec diskStep (clearMaps n) d = some ((), FS.clearMaps d n) := by
  induction n with
  | zero => rfl
  | succ n ih => rw [clearMaps, exec_bind, ih, Option.bind_some, exec_blockWrite, FS.clearMaps]

theorem exec_makeRoot (i : ℕ) (rooti : Memory) (d : Disk) :
    exec diskStep (makeRoot i rooti) d = some ((), (FS.reserveFreeData d).1.elim
      (FS.blockWrite (FS.reserveFreeData d).2 i
        (Inode.indirectp.set ((Inode.directp 0).set rooti 0 (2 ^ 32 - 1)) 0 0))
      fun bnum => FS.blockWrite (FS.initDir (FS.reserveFreeData d).2 bnum 0 0) i
        (Inode.indirectp.set ((Inode.directp 0).set rooti 0 bnum) 0 0)) := by
  rw [makeRoot, exec_bind, exec_reserveFreeData, Option.bind_some]
  rcases FS.reserveFreeData d with ⟨_ | bnum, d₁⟩
  · rfl
  · simp only [Option.elim_some, exec_bind, exec_initDir, Option.bind_some, exec_blockWrite]

theorem exec_sfsInit (env : Env) (junk : Memory) (d : Disk) :
    exec diskStep (sfsInit env junk) d = some ((), FS.sfsInit d env junk) := by
  rw [sfsInit, exec_bind, exec_blockRead, Option.bind_some, exec_ite, FS.sfsInit]
  dsimp only
  split_ifs
  · rw [exec_bind, exec_blockWrite, Option.bind_some, exec_bind, exec_clearMaps, Option.bind_some,
      exec_makeRoot]
    simp only [newSuperblock, rootInode]
    rcases FS.reserveFreeData _ with ⟨_ | bnum, d₁⟩ <;> rfl
  · rfl

end FSProg

end OSDesign.FS
