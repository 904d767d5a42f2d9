import OSDesign.FS.CreateLookup
import OSDesign.FS.DirectoryUpdate
import OSDesign.FS.Leaks

/-!
# Crashes

What `sfs_create` and `sfs_mkdir` do to a disk with leaks, when they end and when they are cut off.
Lookups and listings read the inodes and the blocks of the catalog only, so leaked bytes of the maps
change nothing for them. A call that ends takes the catalog on by one entry. One that is cut off may
leak an inode and a block, and may give its directory a block, but plain names lead where they led.

## Main definitions

* `Keeps`, `Later`: what stays of a disk and of its catalog.
* `Takes`, `Allocates`: which bytes of the maps are set.

## Main results

* `Leaky.navPath_clear`, `Leaky.dirList_clear`: leaks are not seen.
* `Leaky.makeNode`, `Leaky.passes`: a call that ends, and one that is cut off.
-/

namespace OSDesign.FS

open ByteMemory Prog Transition

variable {d d' d'' : Disk} {c c' c'' : Catalog} {L L' : Leaks} {b i j p t x : ℕ} {env : Env}
  {type : FileType} {name : List UInt8}

/-! ### Lookups do not see leaks -/

/-- Behind the maps the disk is as it is without the leaks. -/
theorem Leaks.InRange.view_clear (h : L.InRange) (d : Disk) {a : ℕ} (ha : 33280 ≤ a) :
    view (L.clear d) a = view d a :=
  funext fun y => h.clear_apply d (Or.inr (by omega))

theorem Leaks.InRange.getInode_clear (h : L.InRange) (d : Disk) (i : ℕ) :
    getInode (L.clear d) i = getInode d i := by
  have := inodeAddr_def i
  rw [getInode_eq, getInode_eq, h.view_clear d (by omega)]

theorem Leaks.InRange.blockRead_clear (h : L.InRange) (d : Disk) (hb : 1089 ≤ b) :
    blockRead (L.clear d) b = blockRead d b :=
  h.view_clear d (by rw [blockSize]; omega)

namespace Leaky

/-- The pointers of an inode of the catalog. -/
theorem directp_eq (h : Leaky d c L) (hi : i ∈ c.reserved) {k : ℕ} (hk : k < numDirectPointers) :
    directp d i k = 0 ∨ 1089 ≤ directp d i k ∧ k = 0 ∧ c.block i = some (directp d i 0) := by
  have hres := (h.represents.reserved i).mp hi
  have hget := h.inRange.getInode_clear d i
  by_cases hk₀ : k = 0
  · subst hk₀
    by_cases hptr : directp d i 0 = 0
    · exact Or.inl hptr
    · have hblock := h.represents.block i hres
      rw [hget, firstBlock_eq_some hptr] at hblock
      have hmarked := (h.represents.marked _).mp (h.tree.wf.block_marked i hi _ hblock)
      exact Or.inr ⟨(FS.marked_iff.mp hmarked).1, rfl, hblock⟩
  · refine Or.inl ?_
    have hzero := h.represents.single i hres k (Nat.pos_of_ne_zero hk₀) hk
    rwa [directp, hget] at hzero

theorem block_eq (h : Leaky d c L) (hi : i ∈ c.reserved) :
    c.block i = firstBlock (getInode d i) := by
  rw [h.represents.block i ((h.represents.reserved i).mp hi), h.inRange.getInode_clear]

theorem ino_eq (h : Leaky d c L) (hi : i ∈ c.reserved) : ino d i = i := by
  rw [ino, ← h.inRange.getInode_clear]
  exact h.represents.ino i ((h.represents.reserved i).mp hi)

theorem searchDir_clear (h : Leaky d c L) (hi : i ∈ c.reserved) (nm : List UInt8) :
    searchDir (L.clear d) (getInode (L.clear d) i) nm = searchDir d (getInode d i) nm := by
  rw [h.inRange.getInode_clear, searchDir, searchDir]
  refine ListUpdate.findSome?_congr fun k hk => ?_
  change (if directp d i k = 0 then none
      else searchBlock (blockRead (L.clear d) (directp d i k)) nm) =
    if directp d i k = 0 then none else searchBlock (blockRead d (directp d i k)) nm
  rcases h.directp_eq hi (List.mem_range.mp hk) with hzero | ⟨hge, -, -⟩
  · rw [if_pos hzero, if_pos hzero]
  · rw [h.inRange.blockRead_clear d hge]

/-- The inode that is found in a directory is one of the catalog. -/
theorem mem_of_searchDir {nm : List UInt8} (h : Leaky d c L) (hi : i ∈ c.reserved)
    (hfound : searchDir d (getInode d i) nm = some x) : x ∈ c.reserved := by
  obtain ⟨j, nm', hslot⟩ := h.represents.slot_of_searchDir h.tree.wf hi
    ((h.searchDir_clear hi nm).trans hfound)
  exact (h.tree.wf.of_slot hi hslot).1

theorem navLoop_clear (h : Leaky d c L) (hi : i ∈ c.reserved) (path : List UInt8) (n k : ℕ) :
    navLoop (L.clear d) 65 path n k (getInode (L.clear d) i) =
      navLoop d 65 path n k (getInode d i) := by
  induction n generalizing k i with
  | zero => rfl
  | succ n ih =>
    rw [navLoop_succ, navLoop_succ, h.searchDir_clear hi]
    simp only [h.inRange.getInode_clear]
    have hnext : (searchDir d (getInode d i) (currname path k)).getD i ∈ c.reserved := by
      cases hfound : searchDir d (getInode d i) (currname path k) with
      | none => exact hi
      | some x => exact h.mem_of_searchDir hi hfound
    have hrest := ih hnext (k + (currname path k).length + 1)
    rw [h.inRange.getInode_clear] at hrest
    rw [hrest]

/-- Paths lead to the same inodes with and without the leaks. -/
theorem navPath_clear (h : Leaky d c L) (par targ : Inode) (path : List UInt8) :
    navPath (L.clear d) par targ path = navPath d par targ path := by
  have hroot (d : Disk) : blockRead d 65 = getInode d 0 := by
    rw [getInode_eq]
    rfl
  simp only [navPath, h.super.iList, h.represents.super.iList, hroot]
  rw [h.navLoop_clear h.tree.wf.root_reserved, h.inRange.getInode_clear]

/-- A path that is found leads to an inode of the catalog. -/
theorem navPath {path : List UInt8} {par₀ targ₀ par targ : Inode} {ret : ℤ} (h : Leaky d c L)
    (hnav : navPath d par₀ targ₀ path = (ret, par, targ)) (hret : ret ≠ -1) :
    Found d c par targ := by
  rw [← h.navPath_clear] at hnav
  obtain ⟨p, t, hp, ht, hpar, htarg, hnames⟩ := h.represents.navPath h.tree.wf hnav hret
  rw [h.inRange.getInode_clear] at hpar htarg
  exact ⟨p, t, hp, ht, hpar, htarg, hnames⟩

theorem dirList_clear (h : Leaky d c L) (hi : i ∈ c.reserved) :
    dirList (L.clear d) i = dirList d i := by
  rw [dirList, dirList]
  refine List.flatMap_congr fun k hk => ?_
  have hptr : directp (L.clear d) i k = directp d i k := by
    rw [directp, h.inRange.getInode_clear, directp]
  rw [hptr]
  rcases h.directp_eq hi (List.mem_range.mp hk) with hzero | ⟨hge, -, -⟩
  · rw [if_pos hzero, if_pos hzero]
  · rw [entry_congr_of_block fun y hy _ => h.inRange.clear_apply d (Or.inr (by omega))]

theorem child_eq (h : Leaky d c L) (hi : i ∈ c.reserved) (nm : List UInt8) :
    child d i nm = c.child i nm := by
  rw [← h.represents.child_eq h.tree.wf hi, child, child, h.dirList_clear hi]

end Leaky

/-! ### Later disks -/

/-- The superblock, and the modes of the given inodes, are as before. -/
structure Keeps (s : Set ℕ) (d d' : Disk) : Prop where
  boot : ∀ a < 512, d' a = d a
  mode : ∀ i ∈ s, mode d' i = mode d i

/-- The catalog has grown, and its inodes have kept their modes. -/
structure Later (d : Disk) (c : Catalog) (d' : Disk) (c' : Catalog) : Prop where
  steps : Relation.ReflTransGen Catalog.Step c c'
  keeps : Keeps c.reserved d d'

section Keeps

variable {s : Set ℕ}

theorem Keeps.refl (s : Set ℕ) (d : Disk) : Keeps s d d := ⟨fun _ _ => rfl, fun _ _ => rfl⟩

theorem Keeps.trans {s' : Set ℕ} (h : Keeps s d d') (h' : Keeps s' d' d'') (hs : s ⊆ s') :
    Keeps s d d'' where
  boot a ha := (h'.boot a ha).trans (h.boot a ha)
  mode i hi := (h'.mode i (hs hi)).trans (h.mode i hi)

theorem keeps_markInode (hx : x < 2048) : Keeps s d (markInode d x) where
  boot a ha := Function.update_of_ne (by have := imapAddr_def x; omega) ..
  mode i _ := by
    have hmap := imapAddr_def x
    have haddr := inodeAddr_def i
    exact mode_congr (inode_eqOn fun y hy₁ _ => Function.update_of_ne (by omega) ..)

theorem keeps_addInode (hx : x < 2048) (hs : x ∉ s) (env : Env) (type : FileType) :
    Keeps s d (addInode d env type x) where
  boot a ha := (newInode_maps _ x env type (by omega)).trans ((keeps_markInode (s := s)
    hx).boot a ha)
  mode i hi := mode_congr (inode_eqOn_reserve hx (fun he => hs (he ▸ hi)) env type)

theorem keeps_markBlock (hb : 1089 ≤ b ∧ b < 31809) : Keeps s d (markBlock d b) where
  boot a ha := Function.update_of_ne (by have := dmapAddr_def b; omega) ..
  mode i _ := by
    have hmap := dmapAddr_def b
    have haddr := inodeAddr_def i
    exact mode_congr (inode_eqOn fun y hy₁ _ => Function.update_of_ne (by omega) ..)

theorem keeps_addBlock (hb : 1089 ≤ b ∧ b < 31809) (hs : ∀ i ∈ s, i < 2048) (t p : ℕ) :
    Keeps s d (addBlock d b t p) where
  boot a ha := (initDir_maps _ t p hb.1 (by omega)).trans ((keeps_markBlock (s := s) hb).boot a ha)
  mode i hi := mode_congr (inode_eqOn_initDir hb (hs i hi) p)

theorem keeps_setBlock (hb : 1089 ≤ b ∧ b < 31809) (hs : ∀ i ∈ s, i < 2048) (t p : ℕ) :
    Keeps s d (setBlock d b t p) where
  boot a ha := (setPointer_maps _ t b (by omega)).trans ((keeps_addBlock hb hs t p).boot a ha)
  mode i hi := mode_grow hb (hs i hi) t p

theorem keeps_addEntry (hb : 1089 ≤ b) (hs : ∀ i ∈ s, i < 2048) (j x : ℕ) (name : List UInt8) :
    Keeps s d (addEntry d b j x name) where
  boot a ha := addEntry_maps d j x name hb (by omega)
  mode i hi := mode_congr (inode_eqOn_blockWrite hb (hs i hi) _)

end Keeps

theorem Later.refl (d : Disk) (c : Catalog) : Later d c d c := ⟨.refl, .refl c.reserved d⟩

theorem Later.trans (h : Later d c d' c') (h' : Later d' c' d'' c'') (hc : c.Tree) :
    Later d c d'' c'' :=
  ⟨h.steps.trans h'.steps, h.keeps.trans h'.keeps (hc.steps h.steps).2.reserved⟩

/-! ### What a call takes from the maps -/

/-- The inode `x` is taken, and at most the next block. -/
structure Takes (d d' : Disk) (x : ℕ) : Prop where
  inode : ∀ i, Reserved d' i ↔ i = x ∨ Reserved d i
  block : (∀ y, Marked d' y ↔ Marked d y) ∨
    ∃ b, NextBlock d b ∧ ∀ y, Marked d' y ↔ y = b ∨ Marked d y

/-- Nothing is taken from the maps, or the next inode and at most the next block. -/
def Allocates (d d' : Disk) : Prop := d' = d ∨ ∃ x, NextInode d x ∧ Takes d d' x

theorem Takes.congr (h : Takes d d' x) (hmaps : ∀ a < 33280, d'' a = d' a) : Takes d d'' x where
  inode i := (reserved_congr_of_maps hmaps).trans (h.inode i)
  block := by
    simp only [marked_congr_of_maps hmaps]
    exact h.block

theorem takes_addInode (hx : x < 2048) (env : Env) (type : FileType) :
    Takes d (addInode d env type x) x :=
  ⟨fun _ => reserved_newInode hx env type, Or.inl fun _ => marked_newInode hx env type⟩

theorem takes_markInode (hx : x < 2048) : Takes d (markInode d x) x :=
  (takes_addInode hx ⟨0, 0, 0⟩ .file).congr fun _ ha => (newInode_maps _ x _ _ ha).symm

theorem takes_markBlock (hx : x < 2048) (hb : NextBlock (addInode d env type x) b) :
    Takes d (markBlock (addInode d env type x) b) x := by
  have hmarked (y : ℕ) : Marked (addInode d env type x) y ↔ Marked d y :=
    marked_newInode hx env type
  refine ⟨fun _ => reserved_update_dmap.trans (reserved_newInode hx env type),
    Or.inr ⟨b, ⟨hb.range, fun hm => hb.free ((hmarked b).mpr hm), fun y hy hyb => ?_⟩, fun y => ?_⟩⟩
  · exact (hmarked y).mp (hb.before y hy hyb)
  · exact (marked_update hb.range).trans (or_congr_right (hmarked y))

theorem setBlock_maps (hb : 1089 ≤ b) (t p : ℕ) {a : ℕ} (ha : a < 33280) :
    setBlock d b t p a = markBlock d b a :=
  (setPointer_maps _ t b ha).trans (initDir_maps _ t p hb ha)

/-! ### Calls that end -/

namespace Leaky

theorem lt (h : Leaky d c L) (hi : i ∈ c.reserved) :
    i < 2048 := ((h.represents.reserved i).mp hi).lt

/-- In a directory that has a block `updateDir` uses the first free entry. -/
theorem updateDir_of_block {par node : Inode} {fuel : ℕ} {ret : ℤ} (h : Leaky d c (L.addInode x))
    (hcard : L.blocks.card ≤ L.inodes.card) (hrep : Represents (L.clear d) (c.reserve x))
    (hx : x ∉ c.reserved) (ht : t ∈ c.reserved) (hb : c.block t = some b)
    (hnode : (Inode.directp 0).get node 0 = b) (hnul : 0 ∉ name) (hlen : name.length < maxFname)
    (hup : updateDir d name par node x fuel = some (ret, d')) :
    ret = 0 ∧ (∀ a < 33280, d' a = d a) ∧ ∃ c', Leaky d' c' L ∧ Later d c d' c' := by
  have hrange := (FS.marked_iff.mp ((hrep.marked b).mp (h.tree.wf.block_marked t ht b hb))).1
  have hb₀ : b ≠ 0 := by omega
  cases hfree : freeSlot (blockRead d b) with
  | none =>
    rw [updateDir_of_full hnode hb₀ hfree] at hup
    cases hup
  | some j =>
    cases fuel with
    | zero => cases hup
    | succ fuel =>
      rw [updateDir_of_freeSlot hnode hb₀ hfree] at hup
      obtain ⟨rfl, rfl⟩ := Prod.mk.inj (Option.some.inj hup)
      obtain ⟨hleaky, hstep⟩ := h.enter hcard hrep hx ht hb hfree hnul hlen
      exact ⟨rfl, fun a ha => addEntry_maps d j x name hrange ha, _, hleaky, .single hstep,
        keeps_addEntry hrange (fun i hi => h.lt hi) j x name⟩

/-- A new inode is entered in a directory, which gets a block if it has none. -/
theorem updateDir {fuel : ℕ} {ret : ℤ} (h : Leaky d c L) (hp : p ∈ c.reserved) (ht : t ∈ c.reserved)
    (hnames : c.block t = none → ∃ k, c.Names p k t) (hx : x < 2048) (hfree : ¬Reserved d x)
    (hnul : 0 ∉ name) (hlen : name.length < maxFname)
    (hup : updateDir (FS.addInode d env type x) name (getInode d p) (getInode d t) x fuel =
      some (ret, d')) :
    ret = 0 ∧ Takes d d' x ∧ ∃ c', Leaky d' c' L ∧ Later d c d' c' := by
  have hxc : x ∉ c.reserved := fun hm => hfree (h.reserved_iff.mpr (Or.inl hm))
  have h₂ := h.addInode hx hfree env type
  have hrep₂ := h.represents_addInode hx hfree env type
  have hkeeps₂ : Keeps c.reserved d (FS.addInode d env type x) := keeps_addInode hx hxc env type
  have hblock := h.block_eq ht
  by_cases hptr : directp d t 0 = 0
  · rw [firstBlock_eq_none hptr] at hblock
    obtain ⟨k, hk⟩ := hnames hblock
    obtain ⟨b, hnext, hreserve⟩ := h₂.reserveFreeData
    obtain ⟨hb, hbfree, -⟩ := id hnext
    have h₅ := h₂.setBlock hb hbfree ht hblock hk
    have htx : t ≠ x := fun he => hxc (he ▸ ht)
    have hne : t ≠ p := fun he => hk.block_ne_none (he ▸ hblock)
    have hbL : b ∉ L.blocks := fun hm => hbfree (h₂.block_marked b hm)
    have hrep₅ : Represents (L.clear (FS.setBlock (FS.addInode d env type x) b t p))
        ((c.grow t p b).reserve x) := by
      rw [h.inRange.clear_setBlock _ t p hb.1 hbL, ← c.reserve_grow htx]
      refine hrep₂.grow hb (fun hm => hbfree (h.inRange.marked_clear.mp hm).1)
        ((hrep₂.reserved t).mp (Set.mem_insert_of_mem x ht))
        ((hrep₂.reserved p).mp (Set.mem_insert_of_mem x hp)) hne
    have hgrow := growDir_of_zero hptr hreserve (h.ino_eq ht) (h.ino_eq hp)
    have hget : (Inode.directp 0).get ((Inode.directp 0).set (getInode d t) 0 b) 0 = b :=
      directp_set_self hb
    cases fuel with
    | zero => cases hup
    | succ fuel =>
      rw [FS.updateDir, updateDirLoop_grow hgrow (by omega)] at hup
      obtain ⟨hret, hmaps, c', hleaky, hlater⟩ := h₅.updateDir_of_block h.card_le hrep₅ hxc ht
        (Function.update_self ..) hget hnul hlen hup
      refine ⟨hret, (takes_markBlock hx hnext).congr fun a ha => ?_, c', hleaky,
        hlater.steps.head (.grow ht ?_ hblock hk), ?_⟩
      · exact (hmaps a ha).trans (setBlock_maps hb.1 t p ha)
      · exact fun hm => hbfree (h₂.marked_iff.mpr (Or.inl hm))
      · exact (hkeeps₂.trans (keeps_setBlock hb (fun i hi => h.lt hi) t p) subset_rfl).trans
          hlater.keeps subset_rfl
  · rw [firstBlock_eq_some hptr] at hblock
    obtain ⟨hret, hmaps, c', hleaky, hlater⟩ :=
      h₂.updateDir_of_block h.card_le hrep₂ hxc ht hblock rfl hnul hlen hup
    exact ⟨hret, (takes_addInode hx env type).congr hmaps, c', hleaky, hlater.steps,
      hkeeps₂.trans hlater.keeps subset_rfl⟩

/-- A call that ends has failed and left the disk as it was, or has entered a new inode. -/
theorem makeNode {path : AbsPath} {fuel : ℕ} {ret : ℤ} (h : Leaky d c L)
    (hmk : makeNode type d path.bytes env fuel = some (ret, d')) :
    (ret = -1 ∧ d' = d) ∨
      ret = 0 ∧ (∃ x, NextInode d x ∧ Takes d d' x) ∧ ∃ c', Leaky d' c' L ∧ Later d c d' c' := by
  have hsame : some ((-1 : ℤ), d) = some (ret, d') → ret = -1 ∧ d' = d := fun he => by
    rw [Option.some.injEq, Prod.mk.injEq] at he
    exact ⟨he.1.symm, he.2.symm⟩
  rw [FS.makeNode] at hmk
  split_ifs at hmk with hlong
  · exact Or.inl (hsame hmk)
  cases hlast : lastSlash path.bytes path.bytes.length with
  | none =>
    simp only [hlast] at hmk
    exact Or.inl (hsame hmk)
  | some i =>
    obtain ⟨hnul, hshort⟩ := path.name hlast
    rcases hnav : FS.navPath d 0 0 (path.bytes.take i) with ⟨ret₁, par, targ⟩
    simp only [hlast, hnav] at hmk
    by_cases hret : ret₁ = -1
    · rw [if_pos hret] at hmk
      exact Or.inl (hsame hmk)
    rw [if_neg hret] at hmk
    obtain ⟨p, t, hp, ht, rfl, rfl, hnames⟩ := h.navPath hnav hret
    rcases reserveFreeInode_next h.super env type with ⟨hres, -⟩ | ⟨x, hx, hres⟩
    · simp only [hres, if_true] at hmk
      exact Or.inl (hsame hmk)
    · have hx₀ : x ≠ 0 := fun h0 =>
        hx.free (h.reserved_iff.mpr (Or.inl (h0 ▸ h.tree.wf.root_reserved)))
      simp only [hres, if_neg hx₀] at hmk
      cases hup : FS.updateDir (FS.addInode d env type x)
          (path.bytes.drop ((path.bytes.take i).length + 1)) (getInode d p) (getInode d t)
            x fuel with
      | none =>
        simp only [hup] at hmk
        cases hmk
      | some r =>
        obtain ⟨ret₂, d₂⟩ := r
        obtain ⟨rfl, htakes, c', hleaky, hlater⟩ :=
          h.updateDir hp ht hnames hx.lt hx.free hnul hshort hup
        simp only [hup, Option.some.injEq, Prod.mk.injEq] at hmk
        obtain ⟨hmk, rfl⟩ := hmk
        exact Or.inr ⟨hmk.symm, ⟨x, hx, htakes⟩, c', hleaky, hlater⟩

/-! ### Calls that are cut off -/

/-- A call that is cut off leaks at most an inode and a block, or gives a directory a block. No
plain name leads anywhere else. -/
theorem cutOff (h : Leaky d c L) (hp : p ∈ c.reserved) (ht : t ∈ c.reserved)
    (hnames : c.block t = none → ∃ k, c.Names p k t) (hx : x < 2048) (hfree : ¬Reserved d x)
    (hcut : CutOff env type d (getInode d p) (getInode d t) x d') :
    Takes d d' x ∧
    ∃ c' L', Leaky d' c' L' ∧ L'.inodes.card ≤ L.inodes.card + 1 ∧ Later d c d' c' ∧
      ∀ i ∈ c.reserved, ∀ nm, Catalog.Plain nm → c'.child i nm = c.child i nm := by
  have hxc : x ∉ c.reserved := fun hm => hfree (h.reserved_iff.mpr (Or.inl hm))
  have hxL : x ∉ L.inodes := fun hm => hfree (h.reserved_iff.mpr (Or.inr hm))
  have hlt (i : ℕ) (hi : i ∈ c.reserved) : i < 2048 := h.lt hi
  have hcard : (L.addInode x).inodes.card = L.inodes.card + 1 := Finset.card_insert_of_notMem hxL
  have h₂ := h.addInode hx hfree env type
  have hkeeps₂ : Keeps c.reserved d (FS.addInode d env type x) := keeps_addInode hx hxc env type
  have hroom : (L.addInode x).blocks.card < (L.addInode x).inodes.card :=
    hcard ▸ Nat.lt_succ_of_le h.card_le
  -- The block that is reserved is free.
  have hnext {b : ℕ} (hg : Grows (FS.addInode d env type x) (getInode d t) b) :
      NextBlock (FS.addInode d env type x) b := by
    obtain ⟨b', hb', hreserve⟩ := h₂.reserveFreeData
    obtain ⟨he, -⟩ := Prod.mk.inj (hg.2.symm.trans hreserve)
    obtain rfl := Option.some.inj he
    exact hb'
  have hsame : ∀ i ∈ c.reserved, ∀ nm, Catalog.Plain nm → c.child i nm = c.child i nm :=
    fun _ _ _ _ => rfl
  cases hcut with
  | inodeMarked =>
    exact ⟨takes_markInode hx, c, _, h.markInode hx hfree, hcard.le, ⟨.refl, keeps_markInode hx⟩,
      hsame⟩
  | inodeWritten => exact ⟨takes_addInode hx env type, c, _, h₂, hcard.le, ⟨.refl, hkeeps₂⟩, hsame⟩
  | blockMarked hg =>
    have hb := hnext hg
    exact ⟨takes_markBlock hx hb, c, _, h₂.markBlock hb.range hb.free hroom, hcard.le,
      ⟨.refl, hkeeps₂.trans (keeps_markBlock hb.range) subset_rfl⟩, hsame⟩
  | blockWritten hg =>
    have hb := hnext hg
    exact ⟨(takes_markBlock hx hb).congr fun a ha => initDir_maps _ _ _ hb.range.1 ha, c, _,
      h₂.addBlock hb.range hb.free hroom _ _, hcard.le,
      ⟨.refl, hkeeps₂.trans (keeps_addBlock hb.range hlt _ _) subset_rfl⟩, hsame⟩
  | @blockSet b hg =>
    have hb := hnext hg
    have hnone : c.block t = none := (h.block_eq ht).trans (firstBlock_eq_none hg.1)
    obtain ⟨k, hk⟩ := hnames hnone
    have hbc : b ∉ c.marked := fun hm => hb.free (h₂.marked_iff.mpr (Or.inl hm))
    rw [show Inode.stIno.get (getInode d t) 0 = t from h.ino_eq ht,
      show Inode.stIno.get (getInode d p) 0 = p from h.ino_eq hp]
    refine ⟨(takes_markBlock hx hb).congr fun a ha => setBlock_maps hb.range.1 t p ha, c.grow t p b,
      _,
      h₂.setBlock hb.range hb.free ht hnone hk, hcard.le, ⟨.single (.grow ht hbc hnone hk),
        hkeeps₂.trans (keeps_setBlock hb.range hlt t p) subset_rfl⟩, fun i hi nm hnm => ?_⟩
    by_cases hit : i = t
    · subst hit
      rw [Catalog.child_grow_self hnm.1 hnm.2, Catalog.child_of_no_block hnone]
    · exact Catalog.child_congr (h.tree.wf.slot_grow hbc hi hit) nm

/-- A call that is cut off has ended, or plain names lead where they led. -/
theorem passes {path : AbsPath} {fuel : ℕ} (h : Leaky d c L)
    (hcut : Passes diskStep (FSProg.makeNode type path.bytes env fuel) d d') :
    FS.makeNode type d path.bytes env fuel = some (0, d') ∨ Allocates d d' ∧
    ∃ c' L', Leaky d' c' L' ∧ L'.inodes.card ≤ L.inodes.card + 1 ∧ Later d c d' c' ∧
      ∀ i ∈ c.reserved, ∀ nm, Catalog.Plain nm → c'.child i nm = c.child i nm := by
  rcases passes_makeNode h.super hcut with
    rfl | hend | ⟨i, ret, par, targ, x, -, hnav, hret, hx, hcut⟩
  · exact Or.inr ⟨Or.inl rfl, c, L, h, Nat.le_succ _, .refl d' c, fun _ _ _ _ => rfl⟩
  · exact Or.inl hend
  · obtain ⟨p, t, hp, ht, rfl, rfl, hnames⟩ := h.navPath hnav hret
    obtain ⟨htakes, hcut⟩ := h.cutOff hp ht hnames hx.lt hx.free hcut
    exact Or.inr ⟨Or.inr ⟨x, hx, htakes⟩, hcut⟩

end Leaky

end OSDesign.FS
