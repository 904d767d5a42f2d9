import OSDesign.FS.CrashRuns

/-!
# Which blocks are accessed

A call finds the blocks that it reads and writes in what the disk holds: in the superblock, in the
pointers of inodes and in the numbers of directory entries. Nothing checks them before the access.
On a disk that was formatted and then used, also with calls that were cut off, they are in range:
inodes and blocks are handed out in order (`OSDesign.FS.CrashRuns`), and there is at most one block
for an inode, so that no block behind the 2048th data block is ever accessed. No call writes the
superblock.

The proof follows the programs of `OSDesign.FS.BlockPrograms`, one lemma for each of them.

## Main definitions

* `InBounds`.

## Main results

* `accesses_in_bounds`.
-/

namespace OSDesign.FS

open ByteMemory Prog Transition

/-- Reads are below block `n`, and writes too, and they do not go to the superblock. -/
def InBounds (n : ℕ) : DiskOp → Disk → Prop
  | .read b, _ => b < n
  | .write b _, _ => 0 < b ∧ b < n

variable {d : Disk} {c : Catalog} {L : Leaks} {n b i t x : ℕ} {env : Env} {type : FileType}
  {name : List UInt8}

namespace FSProg

theorem allowed_blockRead (h : b < n) (d : Disk) : Allowed diskStep (InBounds n) (blockRead b) d :=
  allowed_perform (e := DiskOp.read b) h

theorem allowed_blockWrite (h : 0 < b ∧ b < n) (buf : Memory) (d : Disk) :
    Allowed diskStep (InBounds n) (blockWrite b buf) d :=
  allowed_perform (e := DiskOp.write b buf) h

/-- A block is read and then something is done. -/
theorem allowed_read_bind {α : Type} {k : Memory → FSProg α} (h : b < n)
    (hk : Allowed diskStep (InBounds n) (k (FS.blockRead d b)) d) :
    Allowed diskStep (InBounds n) (blockRead b >>= k) d :=
  allowed_bind_of_exec (allowed_blockRead h d) (exec_blockRead b d) hk

/-- A block is written and then something is done. -/
theorem allowed_write_bind {α : Type} {k : Unit → FSProg α} {buf : Memory} (h : 0 < b ∧ b < n)
    (hk : Allowed diskStep (InBounds n) (k ()) (FS.blockWrite d b buf)) :
    Allowed diskStep (InBounds n) (blockWrite b buf >>= k) d :=
  allowed_bind_of_exec (allowed_blockWrite h buf d) (exec_blockWrite b buf d) hk

/-! ### Reserving -/

theorem allowed_reserveByte (k : ℕ) (hb : 0 < b) (hle : b + k ≤ n) (d : Disk) :
    Allowed diskStep (InBounds n) (reserveByte b k) d := by
  induction k generalizing b with
  | zero => exact allowed_pure _ d
  | succ k ih =>
    refine allowed_read_bind (by omega) ?_
    cases freeByte (FS.blockRead d b) with
    | none => exact ih (Nat.succ_pos b) (by omega)
    | some j => exact allowed_write_bind ⟨hb, by omega⟩ (allowed_pure _ _)

theorem allowed_reserveFreeData (hs : SuperOk d) (hn : 1089 ≤ n) :
    Allowed diskStep (InBounds n) reserveFreeData d := by
  refine allowed_read_bind (by omega) ?_
  dsimp only
  rw [hs.dmap, hs.iList]
  exact allowed_bind (allowed_reserveByte 60 (by decide) (by omega) d) fun _ _ _ => allowed_pure _ _

theorem allowed_reserveFreeInode (hs : SuperOk d) (hn : 1089 ≤ n) (env : Env) (type : FileType) :
    Allowed diskStep (InBounds n) (reserveFreeInode env type) d := by
  refine allowed_read_bind (by omega) ?_
  dsimp only
  rw [hs.imap, hs.dmap]
  have hreserve := allowed_reserveByte 4 (b := 1) (n := n) (by decide) (by omega) d
  have hexec := exec_reserveByte 1 4 d
  rcases reserveByte_cases d 1 4 with ⟨hnone, -⟩ | ⟨place, j, hplace, -, hsome⟩
  · rw [hnone] at hexec
    exact allowed_bind_of_exec hreserve hexec (allowed_pure _ _)
  · rw [hsome] at hexec
    refine allowed_bind_of_exec hreserve hexec ?_
    -- the map has 2048 bytes
    have hinum : 65 + (512 * (place - 1) + j) / 2 < n := by omega
    exact allowed_read_bind hinum (allowed_write_bind ⟨by omega, hinum⟩ (allowed_pure _ _))

theorem allowed_getInode (hi : i < 2048) (hn : 1089 ≤ n) (d : Disk) :
    Allowed diskStep (InBounds n) (getInode i) d :=
  allowed_read_bind (by omega) (allowed_pure _ _)

/-! ### Looking up -/

theorem allowed_searchPointers {node : Inode} {qs : List ℕ}
    (h : ∀ q ∈ qs, (Inode.directp q).get node 0 = 0 ∨ (Inode.directp q).get node 0 < n)
    (name : List UInt8) (d : Disk) :
    Allowed diskStep (InBounds n) (searchPointers node name qs) d := by
  induction qs with
  | nil => exact allowed_pure _ d
  | cons q qs ih =>
    have hrest := ih fun q' hq' => h q' (List.mem_cons_of_mem q hq')
    refine allowed_ite (fun _ => hrest) fun hne => ?_
    refine allowed_read_bind ((h q List.mem_cons_self).resolve_left hne) ?_
    cases searchBlock (FS.blockRead d ((Inode.directp q).get node 0)) name with
    | none => exact hrest
    | some inum => exact allowed_pure _ d

/-! ### Directories -/

theorem allowed_initDir (hb : 0 < b ∧ b < n) (self parent : ℕ) (d : Disk) :
    Allowed diskStep (InBounds n) (initDir b self parent) d :=
  allowed_read_bind hb.2 (allowed_blockWrite hb _ d)

theorem allowed_setPointer {node : Inode} (hnode : Inode.stIno.get node 0 < 2048)
    (hb : 0 < b ∧ b < n) (hn : 1089 ≤ n) (par : Inode) (k : ℕ) (d : Disk) :
    Allowed diskStep (InBounds n) (setPointer par node k b) d := by
  refine allowed_bind (allowed_initDir hb _ _ d) fun _ d' _ => ?_
  exact allowed_read_bind (by omega) (allowed_write_bind ⟨by omega, by omega⟩ (allowed_pure _ _))

theorem allowed_enter (hb : 0 < b ∧ b < n) (name : List UInt8) (x : ℕ) (d : Disk) :
    Allowed diskStep (InBounds n) (enter name x b) d := by
  refine allowed_read_bind hb.2 ?_
  cases freeSlot (FS.blockRead d b) with
  | none => exact allowed_pure _ d
  | some j => exact allowed_write_bind hb (allowed_pure _ _)

/-- The loop in a directory that has a block, also when it does not end. -/
theorem allowed_updateDirLoop {node : Inode} (hptr : (Inode.directp 0).get node 0 = b)
    (hb : 0 < b ∧ b < n) (name : List UInt8) (par : Inode) (x fuel : ℕ) (d : Disk) :
    Allowed diskStep (InBounds n) (updateDirLoop name par x 0 fuel node) d := by
  induction fuel generalizing d with
  | zero => trivial
  | succ fuel ih =>
    have hgrow : growDir par node 0 = pure (some node) := if_neg (by omega)
    rw [updateDirLoop, if_pos (show 0 < numDirectPointers by decide), hgrow]
    refine allowed_bind_of_exec (allowed_pure _ d) (exec_pure ..) ?_
    rw [Option.elim_some, hptr]
    refine allowed_bind (allowed_enter hb name x d) fun entered d' _ => ?_
    exact allowed_ite (fun _ => allowed_pure _ d') fun _ => ih d'

end FSProg

open FSProg

namespace Leaky

/-- The blocks of the catalog are below `n`. -/
def BlocksBelow (n : ℕ) (d : Disk) : Prop := ∀ b, Marked d b → b < n

/-- The pointers of an inode of the catalog. -/
theorem directp_lt (h : Leaky d c L) (hn : BlocksBelow n d) (hi : i ∈ c.reserved) {k : ℕ}
    (hk : k < numDirectPointers) : directp d i k = 0 ∨ directp d i k < n := by
  refine (h.directp_eq hi hk).imp_right ?_
  rintro ⟨-, rfl, hblock⟩
  exact hn _ (h.marked_iff.mpr (Or.inl (h.tree.wf.block_marked i hi _ hblock)))

/-- The step from a directory to what was found in it. -/
theorem allowed_follow (h : Leaky d c L) (hle : 1089 ≤ n) (hi : i ∈ c.reserved)
    (nm : List UInt8) :
    ∃ x ∈ c.reserved,
      Allowed diskStep (InBounds n)
        (FSProg.follow 65 (getInode d i) (searchDir d (getInode d i) nm)) d ∧
      exec diskStep (FSProg.follow 65 (getInode d i) (searchDir d (getInode d i) nm)) d =
        some (getInode d x, d) := by
  rw [exec_follow]
  cases hfound : searchDir d (getInode d i) nm with
  | none => exact ⟨i, hi, allowed_pure _ d, rfl⟩
  | some x =>
    have hx := h.mem_of_searchDir hi hfound
    have hlt := h.lt hx
    refine ⟨x, hx, allowed_read_bind (by omega) (allowed_pure _ d), ?_⟩
    rw [Option.elim_some, Nat.add_comm]
    rfl

theorem allowed_navLoop (h : Leaky d c L) (hn : BlocksBelow n d) (hle : 1089 ≤ n)
    (hi : i ∈ c.reserved) (path : List UInt8) (m k : ℕ) :
    Allowed diskStep (InBounds n) (FSProg.navLoop 65 path m k (getInode d i)) d := by
  induction m generalizing i k with
  | zero => exact allowed_pure _ d
  | succ m ih =>
    have hsearch : Allowed diskStep (InBounds n)
        (FSProg.searchDir (getInode d i) (currname path k)) d :=
      allowed_searchPointers (fun q hq => h.directp_lt hn hi (List.mem_range.mp hq)) _ d
    refine allowed_bind_of_exec hsearch (exec_searchDir ..) ?_
    -- the loop goes on in an inode of the catalog
    obtain ⟨x, hx, hread, hfollow⟩ := h.allowed_follow hle hi (currname path k)
    refine allowed_bind_of_exec hread hfollow ?_
    exact allowed_ite (fun _ => ih hx _) fun _ => allowed_pure _ d

theorem allowed_navPath (h : Leaky d c L) (hn : BlocksBelow n d) (hle : 1089 ≤ n)
    (par targ : Inode) (path : List UInt8) :
    Allowed diskStep (InBounds n) (FSProg.navPath par targ path) d := by
  have hroot : blockRead d 65 = getInode d 0 := by
    rw [getInode_eq]
    rfl
  refine allowed_read_bind (by omega) ?_
  dsimp only
  rw [h.super.iList]
  refine allowed_read_bind (by omega) (allowed_read_bind (by omega) ?_)
  refine allowed_ite (fun _ => allowed_pure _ d) fun _ => ?_
  rw [hroot]
  exact allowed_bind (h.allowed_navLoop hn hle h.tree.wf.root_reserved path 10000 1) fun _ _ _ =>
    allowed_pure _ _

/-- A new inode is entered in a directory, which may get the next free block. -/
theorem allowed_updateDir {p : ℕ} (h : Leaky d c L) (hn : BlocksBelow n d) (hle : 1089 ≤ n)
    (hp : p ∈ c.reserved) (ht : t ∈ c.reserved) (hx : x < 2048) (hfree : ¬Reserved d x)
    (hnew : ∀ b, NextBlock (FS.addInode d env type x) b → b < n) (name : List UInt8) (fuel : ℕ) :
    Allowed diskStep (InBounds n) (FSProg.updateDir name (getInode d p) (getInode d t) x fuel)
      (FS.addInode d env type x) := by
  by_cases hptr : directp d t 0 = 0
  · have h₂ := h.addInode hx hfree env type
    obtain ⟨b, hnext, hreserve⟩ := h₂.reserveFreeData
    have hb : 0 < b ∧ b < n := ⟨by have := hnext.range.1; omega, hnew b hnext⟩
    have hino : Inode.stIno.get (getInode d t) 0 < 2048 := (h.ino_eq ht).trans_lt (h.lt ht)
    cases fuel with
    | zero => trivial
    | succ fuel =>
      rw [FSProg.updateDir, FSProg.updateDirLoop, if_pos (show 0 < numDirectPointers by decide)]
      have hgrow : Allowed diskStep (InBounds n) (FSProg.growDir (getInode d p) (getInode d t) 0)
          (FS.addInode d env type x) := by
        refine allowed_ite (fun _ => ?_) fun hne => absurd hptr hne
        refine allowed_bind_of_exec (allowed_reserveFreeData h₂.super hle)
          ((exec_reserveFreeData _).trans (congrArg some hreserve)) ?_
        exact allowed_setPointer hino hb hle _ 0 _
      refine allowed_bind_of_exec hgrow ((exec_growDir ..).trans (congrArg some
        (growDir_of_zero hptr hreserve (h.ino_eq ht) (h.ino_eq hp)))) ?_
      have hget : (Inode.directp 0).get ((Inode.directp 0).set (getInode d t) 0 b) 0 = b :=
        directp_set_self hnext.range
      rw [Option.elim_some, hget]
      refine allowed_bind (allowed_enter hb name x _) fun entered d₂ _ => ?_
      exact allowed_ite (fun _ => allowed_pure _ d₂) fun _ =>
        allowed_updateDirLoop hget hb name _ x fuel d₂
  · have hlt := (h.directp_lt hn ht (show 0 < numDirectPointers by decide)).resolve_left hptr
    exact allowed_updateDirLoop rfl ⟨Nat.pos_of_ne_zero hptr, hlt⟩ name _ x fuel _

theorem allowed_makeNode (h : Leaky d c L) (hn : BlocksBelow n d) (hle : 1089 ≤ n)
    (hnew : ∀ x b, NextInode d x → NextBlock (FS.addInode d env type x) b → b < n)
    (path : List UInt8) (fuel : ℕ) :
    Allowed diskStep (InBounds n) (FSProg.makeNode type path env fuel) d := by
  refine allowed_ite (fun _ => allowed_pure _ d) fun _ => ?_
  cases lastSlash path path.length with
  | none => exact allowed_pure _ d
  | some i =>
    refine allowed_bind_of_exec (h.allowed_navPath hn hle 0 0 _) (exec_navPath ..) ?_
    rcases hnav : FS.navPath d 0 0 (path.take i) with ⟨ret, par, targ⟩
    refine allowed_ite (fun _ => allowed_pure _ d) fun hret => ?_
    obtain ⟨p, t, hp, ht, rfl, rfl, -⟩ := h.navPath hnav hret
    have hreserve := allowed_reserveFreeInode h.super hle env type
    have hexec := exec_reserveFreeInode env type d
    rcases reserveFreeInode_next h.super env type with ⟨hres, -⟩ | ⟨x, hx, hres⟩
    · rw [hres] at hexec
      exact allowed_bind_of_exec hreserve hexec (allowed_pure _ d)
    · rw [hres] at hexec
      refine allowed_bind_of_exec hreserve hexec ?_
      refine allowed_ite (fun _ => allowed_pure _ _) fun _ => ?_
      refine allowed_bind_of_exec (allowed_getInode hx.lt hle _) (exec_getInode ..) ?_
      refine allowed_bind ?_ fun _ _ _ => allowed_pure _ _
      exact h.allowed_updateDir hn hle hp ht hx.lt hx.free (fun b hb => hnew x b hx hb) _ fuel

end Leaky

/-- The next block behind a dense row of blocks, when an inode has been taken. -/
theorem Dense.nextBlock_le {k m : ℕ} (h : Dense d k m) (hx : x < 2048)
    (hb : NextBlock (addInode d env type x) b) : b ≤ 1089 + m := by
  refine Nat.le_of_not_lt fun hlt => ?_
  have hmarked := hb.before (1089 + m) (Nat.le_add_right ..) hlt
  have hold : Marked d (1089 + m) := (marked_newInode hx env type).mp hmarked
  exact Nat.lt_irrefl _ ((h.block _).mp hold).2

/-- **Accesses are in bounds.** On every disk that was formatted and then used, with calls cut off
at any point and mounts, a further call of `sfs_create` or `sfs_mkdir` and a lookup of any path read
only blocks below 3137, and write only those but not the superblock, up to their end or for as long
as they go on. -/
theorem accesses_in_bounds {d₀ : Disk} {env₀ : Env} {junk : Memory} {es : List FsEvent}
    (hm : ¬HasMagic d₀) (hrun : run eventStep (sfsInit d₀ env₀ junk) es = some d) :
    (∀ call : FsCall, Allowed diskStep (InBounds 3137) call.prog d) ∧
      ∀ par targ path, Allowed diskStep (InBounds 3137) (FSProg.navPath par targ path) d := by
  obtain ⟨b₀, h₀⟩ := exists_leaky_sfsInit env₀ junk hm
  obtain ⟨k, m, hdense, hmk, -⟩ := h₀.dense_run (hasMagic_sfsInit d₀ env₀ junk)
    (dense_sfsInit env₀ junk hm) le_rfl hrun
  obtain ⟨c, L, h, -⟩ := exists_leaky_of_run hm hrun
  have hk : k ≤ 2048 := Nat.le_of_not_lt fun hlt =>
    Nat.lt_irrefl 2048 ((hdense.inode 2048).mpr hlt).lt
  have hn : Leaky.BlocksBelow 3137 d := fun b hb => by
    have := ((hdense.block b).mp hb).2
    omega
  have hnew {env : Env} {type : FileType} (x b : ℕ) (hx : NextInode d x)
      (hb : NextBlock (addInode d env type x) b) : b < 3137 := by
    have hle := hdense.nextBlock_le hx.lt hb
    have hxk := hdense.nextInode hx
    have := hx.lt
    omega
  refine ⟨fun call => ?_, h.allowed_navPath hn (by decide)⟩
  cases call with
  | create path env fuel => exact h.allowed_makeNode hn (by decide) hnew path.bytes fuel
  | mkdir path env fuel => exact h.allowed_makeNode hn (by decide) hnew path.bytes fuel

theorem accesses_in_bounds_interrupted :
    ∃ d, run eventStep (sfsInit (fun _ => 0) ⟨0, 0, 0⟩ fun _ => 1) interruptedMkdir = some d ∧
      ∀ call : FsCall, Allowed diskStep (InBounds 3137) call.prog d := by
  obtain ⟨d, -, hd, -⟩ := exists_run_interrupted
  exact ⟨d, hd, (accesses_in_bounds (by decide) hd).1⟩

end OSDesign.FS
