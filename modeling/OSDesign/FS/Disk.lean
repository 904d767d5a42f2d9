import OSDesign.Lib.MemoryView

/-!
# The disk of the file system

The disk is a file of bytes, read and written in blocks of 512 bytes. Block 0 is the superblock,
blocks 1 to 4 hold the inode map (a byte for each of the 2048 inodes), blocks 5 to 64 the data map
(a byte for each data block), blocks 65 to 1088 the inodes (two in a block), and the data blocks
start at block 1089. A data block holds a directory of 16 entries.

Block reads and writes succeed here. A part of the disk file that was never written reads as zeros.
The layout of the records is the one of a machine with 32-bit `int` and 64-bit `long`.

## Main definitions

* `blockRead`, `blockWrite`.
* `reserveFreeData`, `reserveFreeInode`, `getInode`, `initDir`, `updateDir`.
-/

namespace OSDesign.FS

open ByteMemory

/-- The disk file. -/
abbrev Disk := Memory

/-- A copy of an inode. -/
abbrev Inode := Memory

/-- `BLOCK_SIZE`. -/
def blockSize : ℕ := 512

/-- `NUM_DIRECT_POINTERS`. -/
def numDirectPointers : ℕ := 44

/-- `MAGIC`: marks a disk of this file system. -/
def magic : ℕ := 4511000

/-- `MAX_FNAME`. -/
def maxFname : ℕ := 24

/-- `INUM_FREE`: marks an unused directory entry. -/
def inumFree : ℕ := 568754

/-- The number of entries of a directory block. -/
def dirEntries : ℕ := 16

/-- The size of an inode; a block holds two. -/
def inodeSize : ℕ := 256

/-- `block_read`. -/
def blockRead (d : Disk) (n : ℕ) : Memory := view d (blockSize * n)

/-- `block_write`. -/
def blockWrite (d : Disk) (n : ℕ) (buf : Memory) : Disk := paste d (blockSize * n) buf blockSize

/-! ### Records -/

namespace Superblock

/-- `imap`: the first block of the inode map. -/
def imap : Field := ⟨0, 4⟩

/-- `iList`: the first block of the inodes. -/
def iList : Field := ⟨4, 4⟩

/-- `dmap`: the first block of the data map. -/
def dmap : Field := ⟨8, 4⟩

/-- `dList`: the first data block. -/
def dList : Field := ⟨12, 4⟩

/-- `magicnum`. -/
def magicnum : Field := ⟨16, 4⟩

end Superblock

namespace Inode

/-- `st_mode`. -/
def stMode : Field := ⟨0, 4⟩

/-- `st_ino`. -/
def stIno : Field := ⟨8, 8⟩

/-- `st_uid`. -/
def stUid : Field := ⟨16, 4⟩

/-- `st_gid`. -/
def stGid : Field := ⟨20, 4⟩

/-- `st_atime`. -/
def stAtime : Field := ⟨24, 8⟩

/-- `st_mtime`. -/
def stMtime : Field := ⟨32, 8⟩

/-- `st_ctime`. -/
def stCtime : Field := ⟨40, 8⟩

/-- `st_nlink`. -/
def stNlink : Field := ⟨48, 8⟩

/-- `st_size`. -/
def stSize : Field := ⟨56, 8⟩

/-- `st_blocks`. -/
def stBlocks : Field := ⟨64, 8⟩

/-- `opened`. -/
def opened : Field := ⟨72, 1⟩

/-- `used`. -/
def used : Field := ⟨73, 1⟩

/-- `directp[k]`. -/
def directp (k : ℕ) : Field := ⟨76 + 4 * k, 4⟩

/-- `indirectp`. -/
def indirectp : Field := ⟨252, 4⟩

end Inode

namespace MyDir

/-- `inums[k]`. -/
def inums (k : ℕ) : Field := ⟨8 * k, 8⟩

/-- The offset of `fnames[k]`. -/
def fnames (k : ℕ) : ℕ := 128 + maxFname * k

end MyDir

/-- `DIRECTORY` and `FILE`. -/
inductive FileType
  | directory
  | file
  deriving DecidableEq

/-- Read and write permission for user, group and others. -/
def permissions : ℕ := 0x100 ||| 0x80 ||| 0x20 ||| 0x10 ||| 0x4 ||| 0x2

/-- `st_mode` of a new inode: `S_IFDIR` or `S_IFREG`, with the permissions. -/
def FileType.mode : FileType → ℕ
  | .directory => 0x4000 ||| permissions
  | .file => 0x8000 ||| permissions

/-- What the process calling the file system reads from its environment. -/
structure Env where
  /-- `geteuid()`. -/
  euid : ℕ
  /-- `getegid()`. -/
  egid : ℕ
  /-- `time(NULL)`. -/
  now : ℕ

/-! ### Reserving -/

/-- The first zero byte of a block of one of the maps. -/
def freeByte (buf : Memory) : Option ℕ := (List.range blockSize).find? fun j => buf j == 0

/-- The loop over the `n` blocks of a map from `bnum` on: the first zero byte is set to 1. The block
and the byte in it are returned. -/
def reserveByte (d : Disk) : ℕ → ℕ → Option (ℕ × ℕ × Disk)
  | _, 0 => none
  | bnum, n + 1 =>
    let map := blockRead d bnum
    ((freeByte map).map fun j => (bnum, j, blockWrite d bnum (Function.update map j 1))).or
      (reserveByte d (bnum + 1) n)

/-- `reserveFreeData`: a block number, or `none` for -1. -/
def reserveFreeData (d : Disk) : Option ℕ × Disk :=
  let s := blockRead d 0
  let dmap := Superblock.dmap.get s 0
  match reserveByte d dmap (Superblock.iList.get s 0 - dmap) with
  | some (bnum, j, d) => (some (512 * (bnum - dmap) + j + Superblock.dList.get s 0), d)
  | none => (none, d)

/-- The offset of the inode in its block. -/
def inodeOffset (inum : ℕ) : ℕ := if inum % 2 = 0 then 0 else inodeSize

/-- The fields from `st_mode` to `st_ctime` of a new inode. -/
def stamp (m : Memory) (ti : ℕ) (env : Env) (type : FileType) (inum : ℕ) : Memory :=
  let m := Inode.stMode.set m ti type.mode
  let m := Inode.stIno.set m ti inum
  let m := Inode.stUid.set m ti env.euid
  let m := Inode.stGid.set m ti env.egid
  let m := Inode.stAtime.set m ti env.now
  let m := Inode.stMtime.set m ti env.now
  Inode.stCtime.set m ti env.now

/-- The loop that sets `directp[k]` to 0, for the `n` indices from `k` on. -/
def clearDirectp (m : Memory) (ti : ℕ) : ℕ → ℕ → Memory
  | _, 0 => m
  | k, n + 1 => clearDirectp ((Inode.directp k).set m ti 0) ti (k + 1) n

/-- A new inode at `ti`. The fields `st_nlink`, `st_size` and `st_blocks` are not set. -/
def newInode (m : Memory) (ti : ℕ) (env : Env) (type : FileType) (inum : ℕ) : Memory :=
  let m := stamp m ti env type inum
  let m := Inode.opened.set m ti 0
  let m := Inode.used.set m ti 0
  let m := clearDirectp m ti 0 numDirectPointers
  Inode.indirectp.set m ti 0

/-- `reserveFreeInode`: an inode number, or 0 when there is none. -/
def reserveFreeInode (d : Disk) (env : Env) (type : FileType) : ℕ × Disk :=
  let s := blockRead d 0
  let imap := Superblock.imap.get s 0
  match reserveByte d imap (Superblock.dmap.get s 0 - imap) with
  | some (iplace, j, d) =>
    let inum := 512 * (iplace - imap) + j
    let ibuff := blockRead d (65 + inum / 2)
    (inum, blockWrite d (65 + inum / 2) (newInode ibuff (inodeOffset inum) env type inum))
  | none => (0, d)

/-- `getInode`: a copy of the inode. -/
def getInode (d : Disk) (inum : ℕ) : Inode :=
  view (blockRead d (65 + inum / 2)) (inodeOffset inum)

/-! ### Directories -/

/-- `'.'`. -/
def dot : UInt8 := 46

/-- `'/'`. -/
def slash : UInt8 := 47

/-- The loop that sets `inums[i]` to `INUM_FREE`, for the `n` indices from `i` on. -/
def freeEntries (m : Memory) : ℕ → ℕ → Memory
  | _, 0 => m
  | i, n + 1 => freeEntries ((MyDir.inums i).set m 0 inumFree) (i + 1) n

/-- `initDir`: an empty directory. The entry `..` is only made for a directory that is not its own
parent. -/
def initDir (d : Disk) (blocknum selfinum parentinum : ℕ) : Disk :=
  let m := blockRead d blocknum
  let m := (MyDir.inums 0).set m 0 selfinum
  let m := Function.update m (MyDir.fnames 0) dot
  let m := Function.update m (MyDir.fnames 0 + 1) 0
  let m :=
    if selfinum ≠ parentinum then
      let m := (MyDir.inums 1).set m 0 parentinum
      let m := Function.update m (MyDir.fnames 1) dot
      let m := Function.update m (MyDir.fnames 1 + 1) dot
      Function.update m (MyDir.fnames 1 + 2) 0
    else
      (MyDir.inums 1).set m 0 inumFree
  blockWrite d blocknum (freeEntries m 2 14)

/-- The first unused entry of a directory block. -/
def freeSlot (m : Memory) : Option ℕ :=
  (List.range dirEntries).find? fun j => (MyDir.inums j).get m 0 == inumFree

/-- The first part of the loop body of `updateDir`: a block for `directp[i]`, in the copy `node` of
the inode and on the disk, when there is none. The result is `none` when no block is left. -/
def growDir (d : Disk) (par node : Inode) (i : ℕ) : Option Inode × Disk :=
  if (Inode.directp i).get node 0 = 0 then
    match reserveFreeData d with
    | (none, d) => (none, d)
    | (some bnum, d) =>
      let ino := Inode.stIno.get node 0
      let d := initDir d bnum ino (Inode.stIno.get par 0)
      let ibuff := blockRead d (65 + ino / 2)
      let ibuff := (Inode.directp i).set ibuff (inodeOffset ino) bnum
      (some ((Inode.directp i).set node 0 bnum), blockWrite d (65 + ino / 2) ibuff)
  else (some node, d)

/-- The loop of `updateDir`, for at most `fuel` passes: the value returned and the disk, or `none`
when the loop has not ended by then. The index `i` is the same in every pass. -/
def updateDirLoop (newname : List UInt8) (par : Inode) (newino i : ℕ) :
    ℕ → Disk → Inode → Option (ℤ × Disk)
  | 0, _, _ => none
  | fuel + 1, d, node =>
    if i < numDirectPointers then
      match growDir d par node i with
      | (none, d) => some (-1, d)
      | (some node, d) =>
        let bnum := (Inode.directp i).get node 0
        let m := blockRead d bnum
        match freeSlot m with
        | some j =>
          let m := (MyDir.inums j).set m 0 newino
          some (0, blockWrite d bnum (strcpy m (MyDir.fnames j) newname))
        | none => updateDirLoop newname par newino i fuel d node
    else some (-1, d)

/-- `updateDir`. The index of the loop is not initialised; it is taken to be 0. -/
def updateDir (d : Disk) (newname : List UInt8) (par node : Inode) (newino fuel : ℕ) :
    Option (ℤ × Disk) :=
  updateDirLoop newname par newino 0 fuel d node

end OSDesign.FS
