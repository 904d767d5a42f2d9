import OSDesign.FS.Disk
import OSDesign.Lib.Transition

/-!
# The operations of the file system

`navPath` looks a path up, `sfs_init` formats the disk, and `sfs_create` and `sfs_mkdir` make a new
inode and enter it in its directory. These two differ in the type of the inode only. `sfs_getattr`,
`sfs_opendir` and `sfs_readdir` look a path up and leave the disk as it is.

A path is a list of bytes; the zero behind it is what `charAt` reads at its end. `AbsPath` are the
paths the operations are called with: absolute, with components that fit in the arrays for names.

## Main definitions

* `navPath`, `sfsInit`, `sfsCreate`, `sfsMkdir`, `sfsGetattr`, `sfsOpendir`, `sfsReaddir`.
* `AbsPath`, `FsCall`, `fsStep`: the system of completed calls.
-/

namespace OSDesign.FS

open ByteMemory

/-! ### Looking up a path -/

/-- `path[i]`. -/
def charAt (path : List UInt8) (i : ℕ) : UInt8 := path.getD i 0

/-- The name `currname` that the inner loop of `navPath` copies from `path[i]` on. -/
def currname (path : List UInt8) (i : ℕ) : List UInt8 :=
  (path.drop i).takeWhile fun c => c != slash && c != 0

/-- The loop over the entries of a directory block: the inode number of the first one with the given
name. -/
def searchBlock (m : Memory) (name : List UInt8) : Option ℕ :=
  (List.range dirEntries).findSome? fun k =>
    let inum := (MyDir.inums k).get m 0
    if inum ≠ inumFree ∧ strEq m (MyDir.fnames k) name then some inum else none

/-- The loop over the blocks of a directory. -/
def searchDir (d : Disk) (t : Inode) (name : List UInt8) : Option ℕ :=
  (List.range numDirectPointers).findSome? fun q =>
    let bnum := (Inode.directp q).get t 0
    if bnum = 0 then none else searchBlock (blockRead d bnum) name

/-- The loop of `navPath`, from `path[i]` on, for the remaining `n` passes that `failcounter`
allows; `none` when it is activated. The result is the inodes `p` and `t` and the `flag`. A
component that is not found leaves `t` as it is, and the loop goes on when the component is not the
last one. -/
def navLoop (d : Disk) (iList : ℕ) (path : List UInt8) :
    ℕ → ℕ → Inode → Option (Inode × Inode × ℕ)
  | 0, _, _ => none
  | n + 1, i, t =>
    let p := t
    let name := currname path i
    let i := i + name.length
    let flag := if charAt path i = 0 then 1 else 0
    let i := i + 1
    let found := searchDir d t name
    let t := found.elim t fun inum => view (blockRead d (inum / 2 + iList)) (inodeOffset inum)
    let flag :=
      if flag = 1 ∨ charAt path i = 0 ∨ (charAt path i = slash ∧ charAt path (i + 1) = 0) then
        if found.isSome then 2 else 1
      else flag
    if flag = 0 then navLoop d iList path n i t else some (p, t, flag)

/-- `navPath`: the value returned, and the inodes `par` and `targ`, which it overwrites unless
`failcounter` is activated. -/
def navPath (d : Disk) (par targ : Inode) (path : List UInt8) : ℤ × Inode × Inode :=
  let iList := Superblock.iList.get (blockRead d 0) 0
  let p := blockRead d iList
  let t := blockRead d iList
  if path.length = 1 ∨ path.length = 0 then (0, p, t)
  else
    match navLoop d iList path 10000 1 t with
    | none => (-1, par, targ)
    | some (p, t, flag) => (if flag = 1 then -1 else 0, p, t)

/-! ### Formatting the disk -/

/-- The loop of `sfs_init` that clears the blocks `1, …, n` of the maps and marks the inode of the
root. -/
def clearMaps (d : Disk) : ℕ → Disk
  | 0 => d
  | n + 1 => blockWrite (clearMaps d n) (n + 1)
      (Function.update (fun _ => 0) 0 (if n + 1 = 1 then 1 else 0))

/-- `sfs_init`. An empty disk file reads as zeros and has no magic number either. `junk` is what the
buffer for the block of the root inode holds before. A block number -1 is an error of `block_read`
and `block_write`, and `initDir` then writes nothing. -/
def sfsInit (d : Disk) (env : Env) (junk : Memory) : Disk :=
  let sb := blockRead d 0
  if Superblock.magicnum.get sb 0 ≠ magic then
    let sb := Superblock.magicnum.set sb 0 magic
    let sb := Superblock.imap.set sb 0 1
    let sb := Superblock.dmap.set sb 0 5
    let sb := Superblock.iList.set sb 0 65
    let sb := Superblock.dList.set sb 0 1089
    let d := blockWrite d 0 sb
    let i := Superblock.iList.get sb 0
    let d := clearMaps d (i - 1)
    let rooti := stamp junk 0 env .directory 0
    let rooti := Inode.stNlink.set rooti 0 1
    let rooti := Inode.stSize.set rooti 0 0
    let rooti := Inode.stBlocks.set rooti 0 1
    let rooti := Inode.opened.set rooti 0 0
    let rooti := Inode.used.set rooti 0 0
    let rooti := clearDirectp rooti 0 1 (numDirectPointers - 1)
    match reserveFreeData d with
    | (none, d) =>
      let rooti := (Inode.directp 0).set rooti 0 (2 ^ 32 - 1)
      blockWrite d i (Inode.indirectp.set rooti 0 0)
    | (some bnum, d) =>
      let rooti := (Inode.directp 0).set rooti 0 bnum
      let d := initDir d bnum 0 0
      blockWrite d i (Inode.indirectp.set rooti 0 0)
  else d

/-! ### Creating files and directories -/

/-- The loop that looks for the last `'/'`, from `path[i]` downwards. -/
def lastSlash (path : List UInt8) : ℕ → Option ℕ
  | 0 => if charAt path 0 = slash then some 0 else none
  | i + 1 => if charAt path (i + 1) = slash then some (i + 1) else lastSlash path i

/-- The common body of `sfs_create` and `sfs_mkdir`: the value returned and the disk, or `none` when
the loop of `updateDir` has not ended after `fuel` passes. The inodes that `navPath` fills in are
not read when it fails. -/
def makeNode (type : FileType) (d : Disk) (path : List UInt8) (env : Env) (fuel : ℕ) :
    Option (ℤ × Disk) :=
  if path.length ≥ 255 then some (-1, d)
  else
    match lastSlash path path.length with
    | none => some (-1, d)
    | some i =>
      let currdir := path.take i
      match navPath d 0 0 currdir with
      | (ret, par, targ) =>
        if ret = -1 then some (-1, d)
        else
          match reserveFreeInode d env type with
          | (inum, d) =>
            if inum = 0 then some (-1, d)
            else
              let fn := path.drop (currdir.length + 1)
              match updateDir d fn par targ inum fuel with
              | none => none
              | some (ret, d) => some (if ret = -1 then -1 else 0, d)

/-- `sfs_create`. -/
def sfsCreate (d : Disk) (path : List UInt8) (env : Env) (fuel : ℕ) : Option (ℤ × Disk) :=
  makeNode .file d path env fuel

/-- `sfs_mkdir`. -/
def sfsMkdir (d : Disk) (path : List UInt8) (env : Env) (fuel : ℕ) : Option (ℤ × Disk) :=
  makeNode .directory d path env fuel

/-! ### Attributes and listings -/

/-- The fields that `sfs_getattr` fills in. -/
structure Stat where
  ino : ℕ
  mode : ℕ
  nlink : ℕ
  size : ℕ

/-- `sfs_getattr`: the value returned, which is `-ENOENT` when the path is not found, and the
fields. -/
def sfsGetattr (d : Disk) (path : List UInt8) : ℤ × Option Stat :=
  match navPath d 0 0 path with
  | (ret, _, targ) =>
    if ret = -1 then (-2, none)
    else (0, some ⟨Inode.stIno.get targ 0, Inode.stMode.get targ 0, 1, 512⟩)

/-- `sfs_opendir`. -/
def sfsOpendir (d : Disk) (path : List UInt8) : ℤ :=
  if (navPath d 0 0 path).1 = -1 then -1 else 0

/-- `S_ISDIR`. -/
def isDir (mode : ℕ) : Bool := mode &&& 0xF000 == 0x4000

/-- The names of the used entries of a directory block, as strings. -/
def blockNames (m : Memory) : List (List UInt8) :=
  (List.range dirEntries).filterMap fun j =>
    if (MyDir.inums j).get m 0 ≠ inumFree then some (stringAt m (MyDir.fnames j) maxFname) else none

/-- The names that are passed to the filler, up to the first one for which it does not return 0. The
filler may depend on the names `passed` before. -/
def fillNames (filler : List (List UInt8) → List UInt8 → ℤ) :
    List (List UInt8) → List (List UInt8) → List (List UInt8)
  | passed, [] => passed
  | passed, name :: names =>
    if filler passed name ≠ 0 then passed ++ [name] else fillNames filler (passed ++ [name]) names

/-- `sfs_readdir`: the value returned, and the names passed to the filler. A path that is not found
is not an error; `targ` is what the uninitialised inode holds before. -/
def sfsReaddir (d : Disk) (targ : Inode) (path : List UInt8)
    (filler : List (List UInt8) → List UInt8 → ℤ) : ℤ × List (List UInt8) :=
  match navPath d 0 targ path with
  | (_, _, targ) =>
    if isDir (Inode.stMode.get targ 0) = false then (-1, [])
    else
      (0, fillNames filler [] ((List.range numDirectPointers).flatMap fun i =>
        let bnum := (Inode.directp i).get targ 0
        if bnum = 0 then [] else blockNames (blockRead d bnum)))

/-! ### Runs -/

/-- An absolute path whose components fit in the arrays for names. -/
structure AbsPath where
  bytes : List UInt8
  nul_free : 0 ∉ bytes
  absolute : bytes.head? = some slash
  short : ∀ c ∈ bytes.splitOn slash, c.length < maxFname

/-- A call, with what it reads from the environment and a bound on the passes of its loop. -/
inductive FsCall
  | create (path : AbsPath) (env : Env) (fuel : ℕ)
  | mkdir (path : AbsPath) (env : Env) (fuel : ℕ)

/-- The disk after a completed call. -/
def fsStep (d : Disk) : FsCall → Option Disk
  | .create path env fuel => (sfsCreate d path.bytes env fuel).map Prod.snd
  | .mkdir path env fuel => (sfsMkdir d path.bytes env fuel).map Prod.snd

end OSDesign.FS
