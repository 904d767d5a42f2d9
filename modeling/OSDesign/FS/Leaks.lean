import OSDesign.FS.CatalogSteps
import OSDesign.FS.CrashStates
import OSDesign.FS.Reserving
import OSDesign.Lib.InPlace

/-!
# Disks with leaked inodes and blocks

An interrupted call can leave an inode or a block marked in its map that nothing leads to. Such a
leaked inode or block is never used or freed later. A disk is described by a catalog and its leaks:
with the bytes of the leaks set to zero in the maps, it represents the catalog.

The writes of the file system change the disk in place and do not touch the bytes of the leaks, so
that they can be made on the disk without leaks as well. This carries the steps of the catalog over
to disks with leaks.

## Main definitions

* `Leaks`, `Leaks.clear`, `Leaky`.

## Main results

* `Leaky.reserved_iff`, `Leaky.marked_iff`: the maps of a disk with leaks.
* `Leaky.markInode`, `Leaky.addInode`, `Leaky.markBlock`, `Leaky.addBlock`, `Leaky.setBlock`: the
  disks of an interrupted call.
* `Leaky.enter`: a new entry.
-/

namespace OSDesign.FS

open ByteMemory

variable {d d' : Disk} {c : Catalog} {b i j p t x : ℕ}

/-! ### Writes in place -/

theorem inPlace_clearDirectp (a k n : ℕ) : InPlace fun m => clearDirectp m a k n := by
  induction n generalizing k with
  | zero => exact inPlace_id
  | succ n ih => exact (ih (k + 1)).comp ((Inode.directp k).inPlace_set a 0)

theorem inPlace_stamp (a : ℕ) (env : Env) (type : FileType) (i : ℕ) :
    InPlace fun m => stamp m a env type i :=
  (Inode.stCtime.inPlace_set a _).comp <| (Inode.stMtime.inPlace_set a _).comp <|
    (Inode.stAtime.inPlace_set a _).comp <| (Inode.stGid.inPlace_set a _).comp <|
    (Inode.stUid.inPlace_set a _).comp <| (Inode.stIno.inPlace_set a _).comp <|
    Inode.stMode.inPlace_set a _

theorem inPlace_newInode (a : ℕ) (env : Env) (type : FileType) (i : ℕ) :
    InPlace fun m => newInode m a env type i :=
  (Inode.indirectp.inPlace_set a _).comp <| (inPlace_clearDirectp a _ _).comp <|
    (Inode.used.inPlace_set a _).comp <| (Inode.opened.inPlace_set a _).comp <|
    inPlace_stamp a env type i

theorem inPlace_freeEntries (i n : ℕ) : InPlace fun m => freeEntries m i n := by
  induction n generalizing i with
  | zero => exact inPlace_id
  | succ n ih => exact (ih (i + 1)).comp ((MyDir.inums i).inPlace_set 0 _)

/-- What `initDir` makes of a block. -/
def emptyDir (s p : ℕ) (m : Memory) : Memory :=
  freeEntries
    (if s ≠ p then
      Function.update (Function.update (Function.update ((MyDir.inums 1).set
        (Function.update (Function.update ((MyDir.inums 0).set m 0 s) (MyDir.fnames 0) dot)
          (MyDir.fnames 0 + 1) 0) 0 p) (MyDir.fnames 1) dot) (MyDir.fnames 1 + 1) dot)
          (MyDir.fnames 1 + 2) 0
    else
      (MyDir.inums 1).set (Function.update (Function.update ((MyDir.inums 0).set m 0 s)
        (MyDir.fnames 0) dot) (MyDir.fnames 0 + 1) 0) 0 inumFree) 2 14

theorem initDir_eq (d : Disk) (b s p : ℕ) :
    initDir d b s p = paste d (blockSize * b) (emptyDir s p (view d (blockSize * b))) blockSize :=
  rfl

theorem inPlace_emptyDir (s p : ℕ) : InPlace (emptyDir s p) := by
  have hself : InPlace fun m => Function.update (Function.update ((MyDir.inums 0).set m 0 s)
      (MyDir.fnames 0) dot) (MyDir.fnames 0 + 1) 0 :=
    (inPlace_update _ _).comp ((inPlace_update _ _).comp ((MyDir.inums 0).inPlace_set 0 s))
  refine (inPlace_freeEntries 2 14).comp (InPlace.ite ?_ ?_)
  · exact (inPlace_update _ _).comp ((inPlace_update _ _).comp ((inPlace_update _ _).comp
      (((MyDir.inums 1).inPlace_set 0 p).comp hself)))
  · exact ((MyDir.inums 1).inPlace_set 0 inumFree).comp hself

theorem inPlace_initDir (b s p : ℕ) : InPlace fun d => initDir d b s p := by
  simp only [initDir_eq]
  exact (inPlace_emptyDir s p).paste_view _ _

/-- The entry `j` of the block `b` becomes the inode `x` under the given name. -/
def addEntry (d : Disk) (b j x : ℕ) (name : List UInt8) : Disk :=
  blockWrite d b (strcpy ((MyDir.inums j).set (blockRead d b) 0 x) (MyDir.fnames j) name)

theorem inPlace_addEntry (b j x : ℕ) (name : List UInt8) : InPlace fun d => addEntry d b j x name :=
  ((inPlace_strcpy _ name).comp ((MyDir.inums j).inPlace_set 0 x)).paste_view (blockSize * b)
    blockSize

/-! ### Writes behind the maps -/

theorem newInode_maps (d : Disk) (x : ℕ) (env : Env) (type : FileType) {a : ℕ} (ha : a < 33280) :
    newInode d (inodeAddr x) env type x a = d a := by
  have := inodeAddr_def x
  exact newInode_eqOn _ _ env type x fun h => absurd h.1 (by omega)

theorem initDir_maps (d : Disk) (s p : ℕ) {a : ℕ} (hb : 1089 ≤ b) (ha : a < 33280) :
    initDir d b s p a = d a :=
  initDir_apply_of_not_mem (by omega)

theorem setPointer_maps (d : Disk) (t v : ℕ) {a : ℕ} (ha : a < 33280) :
    (Inode.directp 0).set d (inodeAddr t) v a = d a := by
  have := inodeAddr_def t
  exact (Inode.directp 0).set_eqOn _ _ _ (show _ ≤ 256 by decide) fun h => absurd h.1 (by omega)

theorem addEntry_maps (d : Disk) (j x : ℕ) (name : List UInt8) {a : ℕ} (hb : 1089 ≤ b)
    (ha : a < 33280) : addEntry d b j x name a = d a :=
  blockWrite_apply_of_not_mem _ (by omega)

/-! ### Leaks -/

/-- Inodes and data blocks that are marked in the maps, and that nothing leads to. -/
structure Leaks where
  inodes : Finset ℕ
  blocks : Finset ℕ

namespace Leaks

variable {L : Leaks} {a : ℕ}

/-- Nothing is leaked. -/
def none : Leaks := ⟨∅, ∅⟩

/-- A further inode is leaked. -/
def addInode (L : Leaks) (x : ℕ) : Leaks := { L with inodes := insert x L.inodes }

/-- A further block is leaked. -/
def addBlock (L : Leaks) (b : ℕ) : Leaks := { L with blocks := insert b L.blocks }

/-- Where the bytes of the leaks are in the maps. -/
def addrs (L : Leaks) : Finset ℕ := L.inodes.image imapAddr ∪ L.blocks.image dmapAddr

/-- The disk without the leaks. -/
def clear (L : Leaks) (d : Disk) : Disk := ByteMemory.clear L.addrs d

/-- The leaks are inodes and data blocks. -/
structure InRange (L : Leaks) : Prop where
  inode : ∀ i ∈ L.inodes, i < 2048
  block : ∀ b ∈ L.blocks, 1089 ≤ b ∧ b < 31809

theorem mem_addrs :
    a ∈ L.addrs ↔ (∃ i ∈ L.inodes, imapAddr i = a) ∨ ∃ b ∈ L.blocks, dmapAddr b = a := by
  rw [addrs, Finset.mem_union, Finset.mem_image, Finset.mem_image]

theorem InRange.addrs (h : L.InRange) (ha : a ∈ L.addrs) : 512 ≤ a ∧ a < 33280 := by
  rcases mem_addrs.mp ha with ⟨i, hi, rfl⟩ | ⟨b, hb, rfl⟩
  · have := h.inode i hi
    have := imapAddr_def i
    omega
  · have := h.block b hb
    have := dmapAddr_def b
    omega

theorem imapAddr_mem (hi : i < 2048) : imapAddr i ∈ L.addrs ↔ i ∈ L.inodes := by
  have haddr := imapAddr_def i
  rw [mem_addrs]
  refine ⟨?_, fun hi => Or.inl ⟨i, hi, rfl⟩⟩
  rintro (⟨x, hx, he⟩ | ⟨b, hb, he⟩)
  · have := imapAddr_def x
    obtain rfl : x = i := by omega
    exact hx
  · have := dmapAddr_def b
    omega

theorem InRange.dmapAddr_mem (h : L.InRange) (hb : 1089 ≤ b) :
    dmapAddr b ∈ L.addrs ↔ b ∈ L.blocks := by
  have haddr := dmapAddr_def b
  rw [mem_addrs]
  refine ⟨?_, fun hb => Or.inr ⟨b, hb, rfl⟩⟩
  rintro (⟨x, hx, he⟩ | ⟨b', hb', he⟩)
  · have := imapAddr_def x
    have := h.inode x hx
    omega
  · have := dmapAddr_def b'
    have := h.block b' hb'
    obtain rfl : b' = b := by omega
    exact hb'

/-- Only the maps are changed. -/
theorem InRange.clear_apply (h : L.InRange) (d : Disk) (ha : a < 512 ∨ 33280 ≤ a) :
    L.clear d a = d a :=
  clear_of_notMem (fun hmem => by have := h.addrs hmem; omega) d

theorem reserved_clear :
    Reserved (L.clear d) i ↔ Reserved d i ∧ i ∉ L.inodes := by
  rw [reserved_iff, reserved_iff, and_assoc]
  refine and_congr_right fun hi => ?_
  by_cases hmem : i ∈ L.inodes
  · rw [clear, clear_of_mem ((imapAddr_mem hi).mpr hmem)]
    exact iff_of_false (fun hne => hne rfl) fun hn => hn.2 hmem
  · rw [clear, clear_of_notMem fun ha => hmem ((imapAddr_mem hi).mp ha)]
    exact (and_iff_left hmem).symm

theorem InRange.marked_clear (h : L.InRange) :
    Marked (L.clear d) b ↔ Marked d b ∧ b ∉ L.blocks := by
  rw [marked_iff, marked_iff, and_assoc, and_assoc]
  refine and_congr_right fun hb => and_congr_right fun _ => ?_
  by_cases hmem : b ∈ L.blocks
  · rw [clear, clear_of_mem ((h.dmapAddr_mem hb).mpr hmem)]
    exact iff_of_false (fun hne => hne rfl) fun hn => hn.2 hmem
  · rw [clear, clear_of_notMem fun ha => hmem ((h.dmapAddr_mem hb).mp ha)]
    exact (and_iff_left hmem).symm

/-- A write in place behind the maps can be made on the disk without the leaks. -/
theorem InRange.clear_comm (h : L.InRange) {w : Disk → Disk} (hw : InPlace w)
    (hmaps : ∀ d, ∀ a < 33280, w d a = d a) (d : Disk) : L.clear (w d) = w (L.clear d) :=
  hw.clear_comm (fun d a ha => hmaps d a (h.addrs ha).2) d

theorem clear_update (ha : a ∉ L.addrs) (d : Disk) (v : UInt8) :
    L.clear (Function.update d a v) = Function.update (L.clear d) a v :=
  (inPlace_update a v).clear_comm
    (fun d y hy => Function.update_of_ne (fun he : y = a => ha (he ▸ hy)) v d) d

theorem clear_addInode (d : Disk) (x : ℕ) (hzero : d (imapAddr x) = 0) :
    (L.addInode x).clear (markInode d x) = L.clear d := by
  rw [clear, markInode, show (L.addInode x).addrs = insert (imapAddr x) L.addrs by
    rw [addrs, addInode, Finset.image_insert, Finset.insert_union]
    rfl]
  exact clear_insert_update hzero 1

theorem clear_addBlock (d : Disk) (b : ℕ) (hzero : d (dmapAddr b) = 0) :
    (L.addBlock b).clear (markBlock d b) = L.clear d := by
  rw [clear, markBlock, show (L.addBlock b).addrs = insert (dmapAddr b) L.addrs by
    rw [addrs, addBlock, Finset.image_insert, Finset.union_insert]
    rfl]
  exact clear_insert_update hzero 1

/-! The writes of the file system. -/

theorem InRange.clear_newInode (h : L.InRange) (d : Disk) (x : ℕ) (env : Env) (type : FileType) :
    L.clear (newInode d (inodeAddr x) env type x) = newInode (L.clear d) (inodeAddr x) env type x :=
  h.clear_comm (inPlace_newInode _ env type x) (fun d _ ha => newInode_maps d x env type ha) d

theorem InRange.clear_initDir (h : L.InRange) (d : Disk) (s p : ℕ) (hb : 1089 ≤ b) :
    L.clear (initDir d b s p) = initDir (L.clear d) b s p :=
  h.clear_comm (inPlace_initDir b s p) (fun d _ ha => initDir_maps d s p hb ha) d

theorem InRange.clear_setPointer (h : L.InRange) (d : Disk) (t v : ℕ) :
    L.clear ((Inode.directp 0).set d (inodeAddr t) v) =
      (Inode.directp 0).set (L.clear d) (inodeAddr t) v :=
  h.clear_comm ((Inode.directp 0).inPlace_set _ v) (fun d _ ha => setPointer_maps d t v ha) d

theorem InRange.clear_addEntry (h : L.InRange) (d : Disk) (j x : ℕ) (name : List UInt8)
    (hb : 1089 ≤ b) : L.clear (addEntry d b j x name) = addEntry (L.clear d) b j x name :=
  h.clear_comm (inPlace_addEntry b j x name) (fun d _ ha => addEntry_maps d j x name hb ha) d

/-- An inode is reserved on the disk without the leaks. -/
theorem InRange.clear_addInode_of_notMem (h : L.InRange) (d : Disk) (env : Env) (type : FileType)
    (hx : x < 2048) (hfree : x ∉ L.inodes) :
    L.clear (FS.addInode d env type x) = FS.addInode (L.clear d) env type x := by
  rw [FS.addInode, h.clear_newInode, markInode,
    clear_update fun ha => hfree ((imapAddr_mem hx).mp ha)]
  rfl

/-- A directory gets a block on the disk without the leaks. -/
theorem InRange.clear_setBlock (h : L.InRange) (d : Disk) (t p : ℕ) (hb : 1089 ≤ b)
    (hfree : b ∉ L.blocks) : L.clear (setBlock d b t p) = setBlock (L.clear d) b t p := by
  rw [setBlock, h.clear_setPointer, FS.addBlock, h.clear_initDir _ _ _ hb, markBlock,
    clear_update fun ha => hfree ((h.dmapAddr_mem hb).mp ha)]
  rfl

end Leaks

/-- The disk has the catalog and the leaks. -/
structure Leaky (d : Disk) (c : Catalog) (L : Leaks) : Prop where
  represents : Represents (L.clear d) c
  tree : c.Tree
  inode_reserved : ∀ i ∈ L.inodes, Reserved d i
  block_marked : ∀ b ∈ L.blocks, Marked d b
  card_le : L.blocks.card ≤ L.inodes.card

theorem reserved_congr_of_maps (hmaps : ∀ a < 33280, d' a = d a) :
    Reserved d' i ↔ Reserved d i := by
  have := imapAddr_def i
  by_cases hi : i < 2048
  · exact reserved_congr (hmaps _ (by omega))
  · exact iff_of_false (fun hr => hi hr.lt) fun hr => hi hr.lt

theorem marked_congr_of_maps (hmaps : ∀ a < 33280, d' a = d a) : Marked d' b ↔ Marked d b := by
  have := dmapAddr_def b
  by_cases hb : b < 31809
  · exact marked_congr (hmaps _ (by omega))
  · exact iff_of_false (fun hm => hb (marked_iff.mp hm).2.1) fun hm => hb (marked_iff.mp hm).2.1

/-- A catalog is not affected by the bytes of inodes and blocks that are not in use. -/
theorem Represents.congr (h : Represents d c) (hmaps : ∀ a < 33280, d' a = d a)
    (hinode : ∀ i, Reserved d i → Set.EqOn d' d (Set.Ico (inodeAddr i) (inodeAddr i + inodeSize)))
    (hblock : ∀ b, Marked d b → FS.entry d' b = FS.entry d b) : Represents d' c := by
  have hres (i : ℕ) : Reserved d' i ↔ Reserved d i := reserved_congr_of_maps hmaps
  have hmarked (b : ℕ) : Marked d' b ↔ Marked d b := marked_congr_of_maps hmaps
  constructor
  · exact h.super.congr fun a ha => hmaps a (by omega)
  · exact fun i => (h.reserved i).trans (hres i).symm
  · exact fun b => (h.marked b).trans (hmarked b).symm
  · intro i hi
    rw [hres] at hi
    rw [ino_congr (hinode i hi), h.ino i hi]
  · intro i hi
    rw [hres] at hi
    rw [firstBlock_congr (directp_congr (by decide) (hinode i hi)), h.block i hi]
  · intro i hi k hk₀ hk
    rw [hres] at hi
    rw [directp_congr hk (hinode i hi), h.single i hi k hk₀ hk]
  · intro b hb
    rw [hmarked] at hb
    rw [hblock b hb, h.entry b hb]

namespace Leaky

variable {L : Leaks} {env : Env} {type : FileType} {name : List UInt8}

theorem inRange (h : Leaky d c L) : L.InRange where
  inode i hi := (h.inode_reserved i hi).lt
  block b hb := by
    obtain ⟨hl, hr, -⟩ := marked_iff.mp (h.block_marked b hb)
    exact ⟨hl, hr⟩

/-- The inode map has the inodes of the catalog and the leaked ones. -/
theorem reserved_iff (h : Leaky d c L) : Reserved d i ↔ i ∈ c.reserved ∨ i ∈ L.inodes := by
  rw [h.represents.reserved, Leaks.reserved_clear]
  constructor
  · exact fun hi => (em (i ∈ L.inodes)).symm.imp_left fun hn => ⟨hi, hn⟩
  · rintro (hi | hi)
    · exact hi.1
    · exact h.inode_reserved i hi

/-- The data map has the blocks of the catalog and the leaked ones. -/
theorem marked_iff (h : Leaky d c L) : Marked d b ↔ b ∈ c.marked ∨ b ∈ L.blocks := by
  rw [h.represents.marked, h.inRange.marked_clear]
  constructor
  · exact fun hb => (em (b ∈ L.blocks)).symm.imp_left fun hn => ⟨hb, hn⟩
  · rintro (hb | hb)
    · exact hb.1
    · exact h.block_marked b hb

theorem super (h : Leaky d c L) : SuperOk d :=
  h.represents.super.congr fun _ ha => (h.inRange.clear_apply d (Or.inl ha)).symm

/-- A write behind the maps that leads to another catalog. -/
theorem rewrite {c' : Catalog} (h : Leaky d c L) (hmaps : ∀ a < 33280, d' a = d a)
    (hrep : Represents (L.clear d') c') (htree : c'.Tree) : Leaky d' c' L where
  represents := hrep
  tree := htree
  inode_reserved i hi := (reserved_congr_of_maps hmaps).mpr (h.inode_reserved i hi)
  block_marked b hb := (marked_congr_of_maps hmaps).mpr (h.block_marked b hb)
  card_le := h.card_le

/-! ### The disks of an interrupted call -/

theorem markInode (h : Leaky d c L) (hx : x < 2048) (hfree : ¬Reserved d x) :
    Leaky (markInode d x) c (L.addInode x) := by
  have hzero : d (imapAddr x) = 0 := by
    by_contra hne
    exact hfree (FS.reserved_iff.mpr ⟨hx, hne⟩)
  have hxL : x ∉ L.inodes := fun hmem => hfree (h.inode_reserved x hmem)
  have hmap := imapAddr_def x
  constructor
  · rw [Leaks.clear_addInode d x hzero]
    exact h.represents
  · exact h.tree
  · intro i hi
    have hmapi := imapAddr_def i
    rw [FS.reserved_iff]
    rcases Finset.mem_insert.mp hi with rfl | hi
    · exact ⟨hx, by rw [FS.markInode, Function.update_self]; decide⟩
    · have hne : i ≠ x := fun he => hxL (he ▸ hi)
      obtain ⟨hlt, hbyte⟩ := FS.reserved_iff.mp (h.inode_reserved i hi)
      exact ⟨hlt, by rwa [FS.markInode, Function.update_of_ne (by omega)]⟩
  · intro b hb
    have hmapb := dmapAddr_def b
    obtain ⟨hl, hr, hbyte⟩ := FS.marked_iff.mp (h.block_marked b hb)
    exact FS.marked_iff.mpr ⟨hl, hr, by rwa [FS.markInode, Function.update_of_ne (by omega)]⟩
  · rw [Leaks.addInode, Finset.card_insert_of_notMem hxL]
    exact h.card_le.trans (Nat.le_succ _)

theorem addInode (h : Leaky d c L) (hx : x < 2048) (hfree : ¬Reserved d x) (env : Env)
    (type : FileType) : Leaky (addInode d env type x) c (L.addInode x) := by
  have h₁ := h.markInode hx hfree
  refine h₁.rewrite (fun a ha => newInode_maps _ x env type ha) ?_ h.tree
  rw [FS.addInode, h₁.inRange.clear_newInode]
  have haddr := inodeAddr_def x
  refine h₁.represents.congr (fun a ha => newInode_maps _ x env type ha) (fun i hi => ?_)
    fun b hb => entry_congr_of_block fun y hy₁ _ => ?_
  · -- the new inode is leaked
    have hix : i ≠ x := fun he =>
      (Leaks.reserved_clear.mp hi).2 (he ▸ Finset.mem_insert_self x L.inodes)
    have hiaddr := inodeAddr_def i
    refine inode_eqOn fun y hy₁ hy₂ => newInode_eqOn _ _ env type x ?_
    rintro ⟨hl, hr⟩
    rw [inodeSize] at hr
    omega
  · have := (FS.marked_iff.mp hb).1
    refine newInode_eqOn _ _ env type x ?_
    rintro ⟨-, hr⟩
    rw [inodeSize] at hr
    omega

theorem markBlock (h : Leaky d c L) (hb : 1089 ≤ b ∧ b < 31809) (hfree : ¬Marked d b)
    (hcard : L.blocks.card < L.inodes.card) : Leaky (markBlock d b) c (L.addBlock b) := by
  have hzero : d (dmapAddr b) = 0 := by
    by_contra hne
    exact hfree (FS.marked_iff.mpr ⟨hb.1, hb.2, hne⟩)
  have hbL : b ∉ L.blocks := fun hmem => hfree (h.block_marked b hmem)
  constructor
  · rw [Leaks.clear_addBlock d b hzero]
    exact h.represents
  · exact h.tree
  · exact fun i hi => reserved_update_dmap.mpr (h.inode_reserved i hi)
  · intro y hy
    exact (marked_update hb).mpr ((Finset.mem_insert.mp hy).imp_right (h.block_marked y))
  · rw [Leaks.addBlock, Finset.card_insert_of_notMem hbL]
    exact hcard

theorem addBlock (h : Leaky d c L) (hb : 1089 ≤ b ∧ b < 31809) (hfree : ¬Marked d b)
    (hcard : L.blocks.card < L.inodes.card) (t p : ℕ) :
    Leaky (addBlock d b t p) c (L.addBlock b) := by
  have h₁ := h.markBlock hb hfree hcard
  refine h₁.rewrite (fun a ha => initDir_maps _ t p hb.1 ha) ?_ h.tree
  rw [FS.addBlock, h₁.inRange.clear_initDir _ _ _ hb.1]
  refine h₁.represents.congr (fun a ha => initDir_maps _ t p hb.1 ha) (fun i hi => ?_)
    fun y hy => entry_congr_of_block fun z hz₁ hz₂ => initDir_apply_of_not_mem ?_
  · have hiaddr := inodeAddr_def i
    have hlt := hi.lt
    exact inode_eqOn fun z hz₁ hz₂ => initDir_apply_of_not_mem (by omega)
  · -- the new block is leaked
    have hyb : y ≠ b := fun he =>
      (h₁.inRange.marked_clear.mp hy).2 (he ▸ Finset.mem_insert_self b L.blocks)
    omega

/-- A directory gets a block. -/
theorem setBlock {k : ℕ} (h : Leaky d c L) (hb : 1089 ≤ b ∧ b < 31809) (hfree : ¬Marked d b)
    (ht : t ∈ c.reserved) (hnone : c.block t = none) (hp : c.Names p k t) :
    Leaky (setBlock d b t p) (c.grow t p b) L := by
  have hbL : b ∉ L.blocks := fun hmem => hfree (h.block_marked b hmem)
  have hbc : b ∉ c.marked := fun hmem => hfree (h.marked_iff.mpr (Or.inl hmem))
  have hmaps (a : ℕ) (ha : a < 33280) : FS.setBlock d b t p a = FS.markBlock d b a :=
    (setPointer_maps _ t b ha).trans (initDir_maps _ t p hb.1 ha)
  have hne : t ≠ p := fun he => hp.block_ne_none (he ▸ hnone)
  have hfree' : ¬Marked (L.clear d) b := fun hm => hbc ((h.represents.marked b).mpr hm)
  constructor
  · rw [h.inRange.clear_setBlock d t p hb.1 hbL]
    exact h.represents.grow hb hfree' ((h.represents.reserved t).mp ht)
      ((h.represents.reserved p).mp hp.1) hne
  · exact h.tree.grow ht hbc hnone hp
  · exact fun i hi => (reserved_congr_of_maps hmaps).mpr
      (reserved_update_dmap.mpr (h.inode_reserved i hi))
  · exact fun y hy => (marked_congr_of_maps hmaps).mpr
      ((marked_update hb).mpr (Or.inr (h.block_marked y hy)))
  · exact h.card_le

/-! ### A new entry -/

/-- The entries of a directory. -/
theorem slot_eq (h : Leaky d c L) (ht : t ∈ c.reserved) (hb : c.block t = some b) (k : ℕ) :
    c.slot t k = FS.entry d b k := by
  have hmarked := (h.represents.marked b).mp (h.tree.wf.block_marked t ht b hb)
  have hrange := (FS.marked_iff.mp hmarked).1
  rw [Catalog.slot, hb, Option.bind_some, h.represents.entry b hmarked]
  refine congrFun (entry_congr_of_block fun y hy₁ _ => ?_) k
  exact h.inRange.clear_apply d (Or.inr (by omega))

/-- The first unused entry of a directory. -/
theorem slot_of_freeSlot (h : Leaky d c L) (ht : t ∈ c.reserved) (hb : c.block t = some b)
    (hj : freeSlot (blockRead d b) = some j) :
    j < dirEntries ∧ c.slot t j = none ∧ ∀ k < j, c.slot t k ≠ none := by
  obtain ⟨hlt, hfree⟩ := freeSlot_eq_some hj
  rw [freeSlot_eq, List.find?_range_eq_some] at hj
  refine ⟨hlt, (h.slot_eq ht hb j).trans hfree, fun k hk hnone => ?_⟩
  have hused := hj.2.2 k hk
  rw [← h.slot_eq ht hb, hnone] at hused
  cases hused

/-- An inode that is marked and written is entered in a directory. -/
theorem enter (h : Leaky d c (L.addInode x)) (hcard : L.blocks.card ≤ L.inodes.card)
    (hrep : Represents (L.clear d) (c.reserve x)) (hx : x ∉ c.reserved) (ht : t ∈ c.reserved)
    (hb : c.block t = some b) (hj : freeSlot (blockRead d b) = some j) (hnul : 0 ∉ name)
    (hlen : name.length < maxFname) :
    Leaky (addEntry d b j x name) ((c.reserve x).link b j x name) L ∧
      c.Step ((c.reserve x).link b j x name) := by
  obtain ⟨hlt, hfree, hfirst⟩ := h.slot_of_freeSlot ht hb hj
  have hbm : b ∈ c.marked := h.tree.wf.block_marked t ht b hb
  have hmarked : Marked (L.clear d) b := (hrep.marked b).mp hbm
  have hrange := (FS.marked_iff.mp hmarked).1
  have hmaps (a : ℕ) (ha : a < 33280) := addEntry_maps d j x name hrange ha
  have hin : L.InRange := ⟨fun i hi => h.inRange.inode i (Finset.mem_insert_of_mem hi),
    h.inRange.block⟩
  have hxlt : x < 2048 := ((hrep.reserved x).mp (Set.mem_insert x c.reserved)).lt
  refine ⟨⟨?_, h.tree.enter ht hx hb hfree hfirst, fun i hi => ?_, fun y hy => ?_, hcard⟩,
    .enter ht hx hb hfree hfirst⟩
  · rw [hin.clear_addEntry d j x name hrange]
    exact hrep.link hmarked hlt hxlt hnul hlen
  · exact (reserved_congr_of_maps hmaps).mpr (h.inode_reserved i (Finset.mem_insert_of_mem hi))
  · exact (marked_congr_of_maps hmaps).mpr (h.block_marked y hy)

/-- A reserved inode on the disk without the other leaks. -/
theorem represents_addInode (h : Leaky d c L) (hx : x < 2048) (hfree : ¬Reserved d x) (env : Env)
    (type : FileType) : Represents (L.clear (FS.addInode d env type x)) (c.reserve x) := by
  have hxL : x ∉ L.inodes := fun hmem => hfree (h.inode_reserved x hmem)
  rw [h.inRange.clear_addInode_of_notMem d env type hx hxL]
  exact h.represents.reserve hx (fun hr => hfree (Leaks.reserved_clear.mp hr).1) env type

/-- There is always a block left. -/
theorem reserveFreeData (h : Leaky d c L) :
    ∃ b, NextBlock d b ∧ reserveFreeData d = (some b, FS.markBlock d b) := by
  refine (reserveFreeData_next h.super).resolve_left fun hfull => ?_
  -- The catalog has at most 2048 blocks, and as many are leaked.
  have hleaked : L.blocks.card ≤ 2048 := by
    refine h.card_le.trans ?_
    rw [← Finset.card_range 2048]
    exact Finset.card_le_card fun i hi => Finset.mem_range.mpr (h.inRange.inode i hi)
  have hroom : 2048 < (Finset.Ico 1089 31809 \ L.blocks).card := by
    have hcard := Finset.le_card_sdiff L.blocks (Finset.Ico 1089 31809)
    rw [Nat.card_Ico] at hcard
    omega
  obtain ⟨b, hb, hfree⟩ :=
    h.tree.wf.exists_unmarked (fun i hi => ((h.represents.reserved i).mp hi).lt) hroom
  obtain ⟨hb, hbL⟩ := Finset.mem_sdiff.mp hb
  obtain ⟨hl, hr⟩ := Finset.mem_Ico.mp hb
  exact (h.marked_iff.mp (hfull.2 b hl hr)).elim hfree hbL

end Leaky

/-- A new inode and a block for a directory. -/
theorem Catalog.reserve_grow (c : Catalog) (hxt : t ≠ x) (p b : ℕ) :
    (c.reserve x).grow t p b = (c.grow t p b).reserve x := by
  simp only [Catalog.reserve, Catalog.grow, Function.update_comm hxt.symm]

end OSDesign.FS
