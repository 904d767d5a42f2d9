import OSDesign.FS.Catalog

/-!
# What a disk says

The bytes of the maps, the fields of the inodes and the entries of the directory blocks, and how the
functions that write to the disk change them. A write in a block read before is a change in place,
so each of these functions changes a few ranges of the disk file: a byte of a map, the 256 bytes of
an inode, the 512 bytes of a directory block.

## Main definitions

* `Reserved`, `Marked`: the inode map and the data map.
* `directp`, `ino`, `entry`: the inodes and the directories.

## Main results

* `reserveFreeData_cases`, `reserveFreeInode_cases`: what is reserved, and the disk after it.
* `entry_initDir`, `entry_initDir_root`, `entry_link`: the entries that `initDir` and `updateDir`
  write.
-/

namespace OSDesign.FS

open ByteMemory

variable {d d' : Disk} {b i j k : ℕ}

/-- The number of inodes. -/
def numInodes : ℕ := 2048

/-- The first data block. -/
def dataStart : ℕ := 1089

/-- The number of blocks that the data map has a byte for. -/
def numData : ℕ := 30720

/-- The inode is marked in the inode map. -/
def Reserved (d : Disk) (i : ℕ) : Prop :=
  i < numInodes ∧ blockRead d (1 + i / blockSize) (i % blockSize) ≠ 0

/-- The block is in the data area and marked in the data map. -/
def Marked (d : Disk) (b : ℕ) : Prop :=
  dataStart ≤ b ∧ b < dataStart + numData ∧
    blockRead d (5 + (b - dataStart) / blockSize) ((b - dataStart) % blockSize) ≠ 0

/-- `directp[k]` of the inode. -/
def directp (d : Disk) (i k : ℕ) : ℕ := (Inode.directp k).get (getInode d i) 0

/-- `st_ino` of the inode. -/
def ino (d : Disk) (i : ℕ) : ℕ := Inode.stIno.get (getInode d i) 0

/-- `st_mode` of the inode. -/
def mode (d : Disk) (i : ℕ) : ℕ := Inode.stMode.get (getInode d i) 0

/-- The inode number of the entry `j` of a directory block. -/
def entryInum (d : Disk) (b j : ℕ) : ℕ := (MyDir.inums j).get (blockRead d b) 0

/-- The name of the entry `j` of a directory block. -/
def entryName (d : Disk) (b j : ℕ) : List UInt8 :=
  stringAt (blockRead d b) (MyDir.fnames j) maxFname

/-- The entry `j` of a directory block, if it is used. -/
def entry (d : Disk) (b j : ℕ) : Option (ℕ × List UInt8) :=
  if j < dirEntries ∧ entryInum d b j ≠ inumFree then some (entryInum d b j, entryName d b j)
  else none

/-- The superblock that `sfs_init` writes. -/
structure SuperOk (d : Disk) : Prop where
  imap : Superblock.imap.get (blockRead d 0) 0 = 1
  iList : Superblock.iList.get (blockRead d 0) 0 = 65
  dmap : Superblock.dmap.get (blockRead d 0) 0 = 5
  dList : Superblock.dList.get (blockRead d 0) 0 = dataStart

/-! ### Addresses -/

/-- Where the byte of the inode is in the disk file. -/
def imapAddr (i : ℕ) : ℕ := 512 + i

/-- Where the byte of the data block is in the disk file. -/
def dmapAddr (b : ℕ) : ℕ := 2560 + (b - 1089)

/-- Where the inode is in the disk file. -/
def inodeAddr (i : ℕ) : ℕ := 33280 + 256 * i

theorem imapAddr_def (i : ℕ) : imapAddr i = 512 + i := rfl

theorem dmapAddr_def (b : ℕ) : dmapAddr b = 2560 + (b - 1089) := rfl

theorem inodeAddr_def (i : ℕ) : inodeAddr i = 33280 + 256 * i := rfl

theorem blockRead_apply (d : Disk) (n i : ℕ) : blockRead d n i = d (512 * n + i) := by
  rw [blockRead, view, blockSize]

theorem reserved_iff : Reserved d i ↔ i < 2048 ∧ d (imapAddr i) ≠ 0 := by
  have haddr : 512 * (1 + i / 512) + i % 512 = imapAddr i := by
    have := imapAddr_def i
    omega
  rw [Reserved, blockRead_apply, blockSize, haddr, numInodes]

theorem marked_iff : Marked d b ↔ 1089 ≤ b ∧ b < 31809 ∧ d (dmapAddr b) ≠ 0 := by
  have haddr : 512 * (5 + (b - 1089) / 512) + (b - 1089) % 512 = dmapAddr b := by
    have := dmapAddr_def b
    omega
  rw [Marked, blockRead_apply, blockSize, dataStart, haddr, numData]

theorem inodeAddr_eq (i : ℕ) : 512 * (65 + i / 2) + inodeOffset i = inodeAddr i := by
  rw [inodeOffset, inodeSize, inodeAddr]
  split_ifs <;> omega

theorem getInode_eq (d : Disk) (i : ℕ) : getInode d i = view d (inodeAddr i) := by
  rw [getInode, blockRead, view_view, blockSize, inodeAddr_eq]

theorem directp_eq (d : Disk) (i k : ℕ) :
    directp d i k = (Inode.directp k).get d (inodeAddr i) := by
  rw [directp, getInode_eq, Field.get_view, Nat.add_zero]

theorem ino_eq (d : Disk) (i : ℕ) : ino d i = Inode.stIno.get d (inodeAddr i) := by
  rw [ino, getInode_eq, Field.get_view, Nat.add_zero]

theorem mode_eq (d : Disk) (i : ℕ) : mode d i = Inode.stMode.get d (inodeAddr i) := by
  rw [mode, getInode_eq, Field.get_view, Nat.add_zero]

/-! ### What the parts of the disk depend on -/

theorem SuperOk.congr (hs : SuperOk d) (h : ∀ x < 512, d' x = d x) : SuperOk d' := by
  have hblock : Set.EqOn (blockRead d' 0) (blockRead d 0) (Set.Ico 0 (0 + 512)) :=
    fun x hx => by
      rw [blockRead_apply, blockRead_apply]
      exact h _ (by have := hx.2; omega)
  constructor
  · rw [Field.get_congr _ hblock (by decide), hs.imap]
  · rw [Field.get_congr _ hblock (by decide), hs.iList]
  · rw [Field.get_congr _ hblock (by decide), hs.dmap]
  · rw [Field.get_congr _ hblock (by decide), hs.dList]

theorem reserved_congr (h : d' (imapAddr i) = d (imapAddr i)) : Reserved d' i ↔ Reserved d i := by
  rw [reserved_iff, reserved_iff, h]

theorem marked_congr (h : d' (dmapAddr b) = d (dmapAddr b)) : Marked d' b ↔ Marked d b := by
  rw [marked_iff, marked_iff, h]

theorem directp_congr (hk : k < numDirectPointers)
    (h : Set.EqOn d' d (Set.Ico (inodeAddr i) (inodeAddr i + inodeSize))) :
    directp d' i k = directp d i k := by
  rw [directp_eq, directp_eq]
  refine Field.get_congr _ h ?_
  rw [numDirectPointers] at hk
  simp only [Inode.directp, inodeSize]
  omega

theorem ino_congr (h : Set.EqOn d' d (Set.Ico (inodeAddr i) (inodeAddr i + inodeSize))) :
    ino d' i = ino d i := by
  rw [ino_eq, ino_eq]
  exact Field.get_congr _ h (by decide)

theorem mode_congr (h : Set.EqOn d' d (Set.Ico (inodeAddr i) (inodeAddr i + inodeSize))) :
    mode d' i = mode d i := by
  rw [mode_eq, mode_eq]
  exact Field.get_congr _ h (by decide)

theorem inums_le (hj : j < dirEntries) : (MyDir.inums j).off + (MyDir.inums j).len ≤ blockSize := by
  rw [dirEntries] at hj
  simp only [MyDir.inums, blockSize]
  omega

theorem fnames_le (hj : j < dirEntries) : MyDir.fnames j + maxFname ≤ blockSize := by
  rw [dirEntries] at hj
  simp only [MyDir.fnames, maxFname, blockSize]
  omega

theorem entry_congr (h : Set.EqOn (blockRead d' b) (blockRead d b) (Set.Ico 0 (0 + blockSize))) :
    entry d' b = entry d b := by
  funext j
  by_cases hj : j < dirEntries
  · have hinum : entryInum d' b j = entryInum d b j := Field.get_congr _ h (inums_le hj)
    have hname : entryName d' b j = entryName d b j :=
      stringAt_congr (h.mono (Set.Ico_subset_Ico (Nat.zero_le _) (by have := fnames_le hj; omega)))
    rw [entry, entry, hinum, hname]
  · rw [entry, if_neg fun hn => hj hn.1, entry, if_neg fun hn => hj hn.1]

theorem entry_congr_of_block (h : ∀ x, 512 * b ≤ x → x < 512 * b + 512 → d' x = d x) :
    entry d' b = entry d b :=
  entry_congr fun x hx => by
    have hlt := hx.2
    rw [blockSize] at hlt
    rw [blockRead_apply, blockRead_apply]
    exact h _ (by omega) (by omega)

/-! ### Block reads and writes -/

theorem blockRead_blockWrite (d : Disk) (n : ℕ) (buf : Memory) :
    Set.EqOn (blockRead (blockWrite d n buf) n) buf (Set.Ico 0 (0 + blockSize)) :=
  fun _ hx => paste_apply buf (by simpa using hx.2)

theorem blockWrite_apply_of_not_mem {n x : ℕ} (buf : Memory)
    (hx : ¬(512 * n ≤ x ∧ x < 512 * n + 512)) :
    blockWrite d n buf x = d x := by
  rw [blockWrite, paste, blockSize, if_neg hx]

theorem entryInum_blockWrite (buf : Memory) (hj : j < dirEntries) :
    entryInum (blockWrite d b buf) b j = (MyDir.inums j).get buf 0 :=
  Field.get_congr _ (blockRead_blockWrite d b buf) (inums_le hj)

theorem entryName_blockWrite (buf : Memory) (hj : j < dirEntries) :
    entryName (blockWrite d b buf) b j = stringAt buf (MyDir.fnames j) maxFname :=
  stringAt_congr ((blockRead_blockWrite d b buf).mono
    (Set.Ico_subset_Ico (Nat.zero_le _) (by have := fnames_le hj; omega)))

/-! ### Reserving a byte of a map -/

theorem freeByte_eq_some {buf : Memory} (h : freeByte buf = some j) : j < 512 ∧ buf j = 0 := by
  rw [freeByte, blockSize] at h
  have hmem := List.mem_of_find?_eq_some h
  rw [List.mem_range] at hmem
  have hbyte := List.find?_some h
  rw [beq_iff_eq] at hbyte
  exact ⟨hmem, hbyte⟩

theorem freeByte_eq_none {buf : Memory} (h : freeByte buf = none) (hj : j < 512) : buf j ≠ 0 := by
  rw [freeByte, blockSize] at h
  have := List.find?_eq_none.mp h j (List.mem_range.mpr hj)
  rwa [beq_iff_eq] at this

theorem blockWrite_update (d : Disk) (n : ℕ) {j : ℕ} (hj : j < 512) (v : UInt8) :
    blockWrite d n (Function.update (blockRead d n) j v) = Function.update d (512 * n + j) v := by
  rw [blockWrite, blockSize, paste_update hj, blockRead, blockSize, paste_view]

theorem reserveByte_cases (d : Disk) (bnum n : ℕ) :
    (reserveByte d bnum n = none ∧ ∀ x, 512 * bnum ≤ x → x < 512 * (bnum + n) → d x ≠ 0) ∨
    ∃ b j, (bnum ≤ b ∧ b < bnum + n ∧ j < 512) ∧ d (512 * b + j) = 0 ∧
      reserveByte d bnum n = some (b, j, Function.update d (512 * b + j) 1) := by
  induction n generalizing bnum with
  | zero => exact Or.inl ⟨rfl, fun x hl hr => absurd hl (by omega)⟩
  | succ n ih =>
    cases hfree : freeByte (blockRead d bnum) with
    | some j =>
      obtain ⟨hj, hzero⟩ := freeByte_eq_some hfree
      refine Or.inr ⟨bnum, j, ⟨le_rfl, by omega, hj⟩, blockRead_apply d bnum j ▸ hzero, ?_⟩
      rw [reserveByte, hfree, Option.map_some, Option.some_or, blockWrite_update d bnum hj]
    | none =>
      have hstep : reserveByte d bnum (n + 1) = reserveByte d (bnum + 1) n := by
        rw [reserveByte, hfree, Option.map_none, Option.none_or]
      rcases ih (bnum + 1) with ⟨hnone, hfull⟩ | ⟨b, j, hb, hzero, hsome⟩
      · refine Or.inl ⟨hstep.trans hnone, fun x hl hr => ?_⟩
        by_cases hx : x < 512 * (bnum + 1)
        · have := freeByte_eq_none hfree (show x - 512 * bnum < 512 by omega)
          rwa [blockRead_apply, Nat.add_sub_cancel' hl] at this
        · exact hfull x (by omega) (by omega)
      · exact Or.inr ⟨b, j, ⟨by omega, by omega, hb.2.2⟩, hzero, hstep.trans hsome⟩

theorem reserveFreeData_cases (hs : SuperOk d) :
    (reserveFreeData d = (none, d) ∧ ∀ b, 1089 ≤ b → b < 31809 → Marked d b) ∨
    ∃ b, (1089 ≤ b ∧ b < 31809) ∧ ¬Marked d b ∧
      reserveFreeData d = (some b, Function.update d (dmapAddr b) 1) := by
  rcases reserveByte_cases d 5 60 with ⟨hnone, hfull⟩ | ⟨bnum, j, hb, hzero, hsome⟩
  · refine Or.inl ⟨?_, fun b hl hr => marked_iff.mpr ⟨hl, hr, ?_⟩⟩
    · simp only [reserveFreeData, hs.dmap, hs.iList, Nat.reduceSub, hnone]
    · exact hfull _ (by have := dmapAddr_def b; omega) (by have := dmapAddr_def b; omega)
  · have haddr : dmapAddr (512 * (bnum - 5) + j + 1089) = 512 * bnum + j := by
      have := dmapAddr_def (512 * (bnum - 5) + j + 1089)
      omega
    refine Or.inr ⟨512 * (bnum - 5) + j + 1089, ⟨by omega, by omega⟩, ?_, ?_⟩
    · rw [marked_iff, haddr]
      exact fun h => h.2.2 hzero
    · simp only [reserveFreeData, hs.dmap, hs.iList, hs.dList, Nat.reduceSub, hsome, haddr,
        dataStart]

/-! ### New inodes -/

theorem stamp_eqOn (m : Memory) (a : ℕ) (env : Env) (type : FileType) (i : ℕ) :
    Set.EqOn (stamp m a env type i) m (Set.Ico a (a + inodeSize))ᶜ := by
  intro x hx
  rw [stamp, Inode.stCtime.set_eqOn _ a _ (by decide) hx,
    Inode.stMtime.set_eqOn _ a _ (by decide) hx,
    Inode.stAtime.set_eqOn _ a _ (by decide) hx, Inode.stGid.set_eqOn _ a _ (by decide) hx,
    Inode.stUid.set_eqOn _ a _ (by decide) hx, Inode.stIno.set_eqOn _ a _ (by decide) hx,
    Inode.stMode.set_eqOn _ a _ (by decide) hx]

theorem clearDirectp_eqOn (m : Memory) (a : ℕ) {n : ℕ} (hn : k + n ≤ numDirectPointers) :
    Set.EqOn (clearDirectp m a k n) m (Set.Ico a (a + inodeSize))ᶜ := by
  induction n generalizing m k with
  | zero => exact Set.eqOn_refl ..
  | succ n ih =>
    refine (ih _ (by omega)).trans ((Inode.directp k).set_eqOn m a 0 ?_)
    rw [numDirectPointers] at hn
    simp only [Inode.directp, inodeSize]
    omega

theorem newInode_eqOn (m : Memory) (a : ℕ) (env : Env) (type : FileType) (i : ℕ) :
    Set.EqOn (newInode m a env type i) m (Set.Ico a (a + inodeSize))ᶜ := by
  intro x hx
  rw [newInode, Inode.indirectp.set_eqOn _ a _ (by decide) hx, clearDirectp_eqOn _ a (by decide) hx,
    Inode.used.set_eqOn _ a _ (by decide) hx, Inode.opened.set_eqOn _ a _ (by decide) hx,
    stamp_eqOn m a env type i hx]

/-- The fields in front of the pointers are not changed by the loop that clears these. -/
theorem get_clearDirectp {f : Field} (hf : f.off + f.len ≤ 76) (m : Memory) (a k n : ℕ) :
    f.get (clearDirectp m a k n) a = f.get m a := by
  induction n generalizing m k with
  | zero => rfl
  | succ n ih =>
    rw [clearDirectp, ih, Field.get_set_of_apart (Or.inr ?_)]
    simp only [Inode.directp]
    omega

theorem directp_clearDirectp (m : Memory) (a k₀ n k : ℕ) :
    (Inode.directp k).get (clearDirectp m a k₀ n) a =
      if k₀ ≤ k ∧ k < k₀ + n then 0 else (Inode.directp k).get m a := by
  induction n generalizing m k₀ with
  | zero => rw [clearDirectp, if_neg (by omega)]
  | succ n ih =>
    rw [clearDirectp, ih]
    by_cases hk : k = k₀
    · subst hk
      rw [if_neg (by omega), Field.get_set_self, if_pos (by omega), Nat.zero_mod]
    · rw [Field.get_set_of_apart (by simp only [Field.Apart, Inode.directp]; omega)]
      exact if_congr (by omega) rfl rfl

theorem stIno_stamp (m : Memory) (a : ℕ) (env : Env) (type : FileType) {i : ℕ} (hi : i < 2048) :
    Inode.stIno.get (stamp m a env type i) a = i := by
  simp (disch := decide) only [stamp, Field.get_set_of_apart, Field.get_set_self]
  exact Nat.mod_eq_of_lt (hi.trans (by decide))

theorem stIno_newInode (m : Memory) (a : ℕ) (env : Env) (type : FileType) {i : ℕ} (hi : i < 2048) :
    Inode.stIno.get (newInode m a env type i) a = i := by
  simp (disch := decide) only [newInode, Field.get_set_of_apart, get_clearDirectp,
    stIno_stamp m a env type hi]

theorem stMode_newInode (m : Memory) (a : ℕ) (env : Env) (type : FileType) (i : ℕ) :
    Inode.stMode.get (newInode m a env type i) a = type.mode := by
  simp (disch := decide) only [newInode, stamp, Field.get_set_of_apart, get_clearDirectp,
    Field.get_set_self]
  cases type <;> rfl

theorem directp_newInode (m : Memory) (a : ℕ) (env : Env) (type : FileType) (i : ℕ)
    (hk : k < numDirectPointers) : (Inode.directp k).get (newInode m a env type i) a = 0 := by
  have hapart : Inode.indirectp.Apart (Inode.directp k) := Or.inr (by
    rw [numDirectPointers] at hk
    simp only [Inode.directp, Inode.indirectp]
    omega)
  rw [newInode, Field.get_set_of_apart hapart, directp_clearDirectp,
    if_pos ⟨Nat.zero_le k, by omega⟩]

theorem paste_clearDirectp (d : Disk) (a : ℕ) (buf : Memory) {ti : ℕ} (hti : ti + inodeSize ≤ 512)
    {n : ℕ} (hn : k + n ≤ numDirectPointers) :
    paste d a (clearDirectp buf ti k n) 512 = clearDirectp (paste d a buf 512) (a + ti) k n := by
  induction n generalizing buf k with
  | zero => rfl
  | succ n ih =>
    rw [clearDirectp, ih _ (by omega), clearDirectp, Field.paste_set _ inodeSize ?_ hti]
    rw [numDirectPointers] at hn
    simp only [Inode.directp, inodeSize]
    omega

/-- Writing a new inode in the block read before is writing it in place. -/
theorem blockWrite_newInode (d : Disk) (env : Env) (type : FileType) (i : ℕ) :
    blockWrite d (65 + i / 2) (newInode (blockRead d (65 + i / 2)) (inodeOffset i) env type i) =
      newInode d (inodeAddr i) env type i := by
  have hti : inodeOffset i + inodeSize ≤ 512 := by
    rw [inodeOffset, inodeSize]
    split_ifs <;> omega
  have hbase : paste d (512 * (65 + i / 2)) (blockRead d (65 + i / 2)) 512 = d := paste_view ..
  simp (disch := first | decide | assumption) only [blockWrite, blockSize, newInode, stamp,
    Field.paste_set _ inodeSize, paste_clearDirectp, hbase, inodeAddr_eq]

theorem reserveFreeInode_cases (hs : SuperOk d) (env : Env) (type : FileType) :
    (reserveFreeInode d env type = (0, d) ∧ ∀ i < 2048, Reserved d i) ∨
    ∃ i < 2048, ¬Reserved d i ∧ reserveFreeInode d env type =
      (i, newInode (Function.update d (imapAddr i) 1) (inodeAddr i) env type i) := by
  rcases reserveByte_cases d 1 4 with ⟨hnone, hfull⟩ | ⟨iplace, j, hb, hzero, hsome⟩
  · refine Or.inl ⟨?_, fun i hi => reserved_iff.mpr ⟨hi, ?_⟩⟩
    · simp only [reserveFreeInode, hs.imap, hs.dmap, Nat.reduceSub, hnone]
    · exact hfull _ (by have := imapAddr_def i; omega) (by have := imapAddr_def i; omega)
  · have haddr : imapAddr (512 * (iplace - 1) + j) = 512 * iplace + j := by
      have := imapAddr_def (512 * (iplace - 1) + j)
      omega
    refine Or.inr ⟨512 * (iplace - 1) + j, by omega, ?_, ?_⟩
    · rw [reserved_iff, haddr]
      exact fun h => h.2 hzero
    · simp only [reserveFreeInode, hs.imap, hs.dmap, Nat.reduceSub, hsome, haddr,
        blockWrite_newInode]

/-! ### Directory blocks -/

theorem inums_freeEntries (m : Memory) (i n j : ℕ) :
    (MyDir.inums j).get (freeEntries m i n) 0 =
      if i ≤ j ∧ j < i + n then inumFree else (MyDir.inums j).get m 0 := by
  induction n generalizing m i with
  | zero => rw [freeEntries, if_neg (by omega)]
  | succ n ih =>
    rw [freeEntries, ih]
    by_cases hj : j = i
    · subst hj
      rw [if_neg (by omega), Field.get_set_self, if_pos (by omega)]
      exact Nat.mod_eq_of_lt (show inumFree < 256 ^ 8 by decide)
    · rw [Field.get_set_of_apart (by simp only [Field.Apart, MyDir.inums]; omega)]
      exact if_congr (by omega) rfl rfl

theorem freeEntries_apply (m : Memory) {i n x : ℕ} (hn : i + n ≤ dirEntries) (hx : 128 ≤ x) :
    freeEntries m i n x = m x := by
  induction n generalizing m i with
  | zero => rfl
  | succ n ih =>
    rw [dirEntries] at hn
    rw [freeEntries, ih _ (by rw [dirEntries]; omega)]
    refine store_eqOn _ _ _ _ fun hmem => ?_
    have := hmem.2
    simp only [MyDir.inums] at this
    omega

theorem initDir_apply_of_not_mem {s p x : ℕ} (hx : ¬(512 * b ≤ x ∧ x < 512 * b + 512)) :
    initDir d b s p x = d x :=
  blockWrite_apply_of_not_mem _ hx

theorem stringAt_dot {m : Memory} {a : ℕ} (h₀ : m a = dot) (h₁ : m (a + 1) = 0) :
    stringAt m a maxFname = [dot] := by
  rw [maxFname, stringAt, h₀, if_neg (by decide), stringAt, if_pos h₁]

theorem stringAt_dotdot {m : Memory} {a : ℕ} (h₀ : m a = dot) (h₁ : m (a + 1) = dot)
    (h₂ : m (a + 2) = 0) : stringAt m a maxFname = [dot, dot] := by
  rw [maxFname, stringAt, h₀, if_neg (by decide), stringAt, h₁, if_neg (by decide), stringAt,
    if_pos h₂]

theorem entry_of_used (hj : j < dirEntries) {x : ℕ} {name : List UInt8} (hx : x < 2048)
    (hinum : entryInum d b j = x) (hname : entryName d b j = name) :
    entry d b j = some (x, name) := by
  have hfree : x ≠ inumFree := by
    rw [inumFree]
    omega
  rw [entry, hinum, hname, if_pos ⟨hj, hfree⟩]

theorem entry_of_free (hj : j < dirEntries → entryInum d b j = inumFree) : entry d b j = none :=
  if_neg fun h => h.2 (hj h.1)

theorem freeSlot_eq_some (h : freeSlot (blockRead d b) = some j) :
    j < dirEntries ∧ entry d b j = none := by
  have hmem := List.mem_of_find?_eq_some h
  rw [List.mem_range] at hmem
  have hfree := List.find?_some h
  rw [beq_iff_eq] at hfree
  exact ⟨hmem, entry_of_free fun _ => hfree⟩

/-- The first unused entry is the first one that is none. -/
theorem freeSlot_eq (d : Disk) (b : ℕ) :
    freeSlot (blockRead d b) = (List.range dirEntries).find? fun j => (entry d b j).isNone := by
  rw [freeSlot]
  refine List.find?_congr fun j hj => ?_
  rw [Bool.eq_iff_iff, beq_iff_eq]
  by_cases hfree : entryInum d b j = inumFree
  · rw [entry_of_free fun _ => hfree]
    exact iff_of_true hfree rfl
  · have hentry : entry d b j = some (entryInum d b j, entryName d b j) :=
      if_pos ⟨List.mem_range.mp hj, hfree⟩
    rw [hentry]
    exact iff_of_false hfree Bool.false_ne_true

/-- The block of a directory that is not the root: `.` and `..`. -/
theorem entry_initDir (d : Disk) (b : ℕ) {s p : ℕ} (hs : s < 2048) (hp : p < 2048) (hne : s ≠ p) :
    entry (initDir d b s p) b = Catalog.newDir s p := by
  simp only [initDir, if_pos hne]
  funext j
  match j with
  | 0 =>
    refine entry_of_used (by decide) hs ?_ ?_
    · rw [entryInum_blockWrite _ (by decide), inums_freeEntries, if_neg (by decide)]
      simp (disch := decide) only [Field.get_update, Field.get_set_of_apart, Field.get_set_self]
      exact Nat.mod_eq_of_lt (hs.trans (by decide))
    · rw [entryName_blockWrite _ (by decide)]
      refine stringAt_dot ?_ ?_ <;> rw [freeEntries_apply _ (by decide) (by decide)]
      all_goals rfl
  | 1 =>
    refine entry_of_used (by decide) hp ?_ ?_
    · rw [entryInum_blockWrite _ (by decide), inums_freeEntries, if_neg (by decide)]
      simp (disch := decide) only [Field.get_update, Field.get_set_self]
      exact Nat.mod_eq_of_lt (hp.trans (by decide))
    · rw [entryName_blockWrite _ (by decide)]
      refine stringAt_dotdot ?_ ?_ ?_ <;> rw [freeEntries_apply _ (by decide) (by decide)]
      all_goals rfl
  | j + 2 =>
    refine entry_of_free fun hj => ?_
    rw [entryInum_blockWrite _ hj, inums_freeEntries, if_pos]
    rw [dirEntries] at hj
    omega

/-- The block of a directory that is its own parent: `.` only. -/
theorem entry_initDir_self (d : Disk) (b : ℕ) {s : ℕ} (hs : s < 2048) :
    entry (initDir d b s s) b = Function.update (fun _ : ℕ => none) 0 (some (s, [dot])) := by
  simp only [initDir, ne_eq, not_true_eq_false, if_false]
  funext j
  match j with
  | 0 =>
    refine entry_of_used (by decide) hs ?_ ?_
    · rw [entryInum_blockWrite _ (by decide), inums_freeEntries, if_neg (by decide)]
      simp (disch := decide) only [Field.get_update, Field.get_set_of_apart, Field.get_set_self]
      exact Nat.mod_eq_of_lt (hs.trans (by decide))
    · rw [entryName_blockWrite _ (by decide)]
      refine stringAt_dot ?_ ?_ <;> rw [freeEntries_apply _ (by decide) (by decide)]
      all_goals rfl
  | 1 =>
    refine entry_of_free fun hj => ?_
    rw [entryInum_blockWrite _ hj, inums_freeEntries, if_neg (by decide), Field.get_set_self]
    rfl
  | j + 2 =>
    refine entry_of_free fun hj => ?_
    rw [entryInum_blockWrite _ hj, inums_freeEntries, if_pos]
    rw [dirEntries] at hj
    omega

/-- The block of the root. -/
theorem entry_initDir_root (d : Disk) (b : ℕ) :
    entry (initDir d b 0 0) b = Function.update (fun _ : ℕ => none) 0 (some (0, [dot])) :=
  entry_initDir_self d b (by decide)

/-- The entry that `updateDir` writes; the other entries of the block stay. -/
theorem entry_link (d : Disk) (b : ℕ) {j x : ℕ} {name : List UInt8} (hj : j < dirEntries)
    (hx : x < 2048) (hnul : 0 ∉ name) (hlen : name.length < maxFname) :
    entry (blockWrite d b
        (strcpy ((MyDir.inums j).set (blockRead d b) 0 x) (MyDir.fnames j) name)) b =
      Function.update (entry d b) j (some (x, name)) := by
  have hstr := strcpy_eqOn ((MyDir.inums j).set (blockRead d b) 0 x) (MyDir.fnames j) name
  have hinums : ∀ k < dirEntries, ∀ m : Memory,
      (MyDir.inums k).get (strcpy m (MyDir.fnames j) name) 0 = (MyDir.inums k).get m 0 := by
    intro k hk m
    refine load_congr (eqOn_of_disjoint (strcpy_eqOn m _ name) (disjoint_Ico (Or.inr ?_)))
    rw [dirEntries] at hk
    simp only [MyDir.inums, MyDir.fnames]
    omega
  funext k
  by_cases hkj : k = j
  · subst hkj
    rw [Function.update_self]
    refine entry_of_used hj hx ?_ ?_
    · rw [entryInum_blockWrite _ hj, hinums k hj, Field.get_set_self]
      exact Nat.mod_eq_of_lt (hx.trans (show 2048 < 256 ^ 8 by decide))
    · rw [entryName_blockWrite _ hj, stringAt_strcpy hnul hlen]
  · rw [Function.update_of_ne hkj]
    by_cases hk : k < dirEntries
    · have hinum : entryInum (blockWrite d b
          (strcpy ((MyDir.inums j).set (blockRead d b) 0 x) (MyDir.fnames j) name)) b k =
          entryInum d b k := by
        rw [entryInum_blockWrite _ hk, hinums k hk, Field.get_set_of_apart]
        · rfl
        · simp only [Field.Apart, MyDir.inums]
          omega
      have hname : entryName (blockWrite d b
          (strcpy ((MyDir.inums j).set (blockRead d b) 0 x) (MyDir.fnames j) name)) b k =
          entryName d b k := by
        rw [entryName_blockWrite _ hk]
        refine stringAt_congr ((eqOn_of_disjoint hstr (disjoint_Ico ?_)).trans
          (eqOn_of_disjoint (store_eqOn ..) (disjoint_Ico (Or.inl ?_))))
        · rw [maxFname] at hlen
          simp only [MyDir.fnames, maxFname]
          omega
        · rw [dirEntries] at hj
          simp only [MyDir.inums, MyDir.fnames]
          omega
      rw [entry, entry, hinum, hname]
    · rw [entry, if_neg fun h => hk h.1, entry, if_neg fun h => hk h.1]

end OSDesign.FS
