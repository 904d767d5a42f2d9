import OSDesign.FS.CreateLookup

/-!
# Adding an entry to a directory

A directory has up to 44 blocks of 16 entries. `updateDir` is to go through the direct pointers and
to put the new entry in the first place that is unused, in a new block where a pointer is zero. But
the index of its loop is never increased: it looks at one block only, for ever if that block is
full. And where that pointer is zero and no data block is left, it gives up, although another block
of the directory may have an unused entry.

So the sixteenth file that is created in the root directory of a new file system never appears, and
the call does not return.

## Main definitions

* `Directory`: a directory of a well-formed disk.
* `HasRoom`, `Entered`, `AddsEntry`: what `updateDir` is to do.
* `Filled`: the root directory with its first entries used.

## Main results

* `adds_entry_iff`: when it does it.
* `sixteenth_entry`: the disk on which it does not.
-/

namespace OSDesign.FS

open ByteMemory Transition

variable {d d' : Disk} {par : Inode} {t x b j n : ℕ} {name : List UInt8}

/-- `t` is the inode of a directory, and `par` one of its parent: the inode knows its number, and
its pointers lead to marked data blocks. -/
structure Directory (d : Disk) (par : Inode) (t : ℕ) : Prop where
  super : SuperOk d
  lt : t < 2048
  ino : ino d t = t
  parent : Inode.stIno.get par 0 < 2048
  block : ∀ k < numDirectPointers, directp d t k ≠ 0 → Marked d (directp d t k)

/-- The pointer `k` has a place for an entry: it leads to a block with an unused entry, or it is
zero and a block can be reserved. -/
def HasRoom (d : Disk) (t k : ℕ) : Prop :=
  if directp d t k = 0 then (reserveFreeData d).1 ≠ none
  else freeSlot (blockRead d (directp d t k)) ≠ none

/-- The entry is in the first unused place of the block of the pointer `k`. In a new block that is
the place behind `.` and `..`, or behind `.` if the directory is its own parent. -/
def Entered (d : Disk) (par : Inode) (t k : ℕ) (name : List UInt8) (x : ℕ) (d' : Disk) : Prop :=
  ∃ b j, (if directp d t k = 0 then
      (reserveFreeData d).1 = some b ∧ j = if Inode.stIno.get par 0 = t then 1 else 2
    else b = directp d t k ∧ freeSlot (blockRead d b) = some j) ∧
    directp d' t k = b ∧ entry d' b j = some (x, name)

/-- `updateDir` ends; it enters the inode in the first place there is, and returns -1 if there is no
place. -/
def AddsEntry (d : Disk) (par : Inode) (t : ℕ) (name : List UInt8) (x : ℕ) : Prop :=
  ∃ fuel ret d', updateDir d name par (getInode d t) x fuel = some (ret, d') ∧
    ((∀ k < numDirectPointers, ¬HasRoom d t k) → ret = -1) ∧
    ∀ k < numDirectPointers, HasRoom d t k → (∀ k' < k, ¬HasRoom d t k') →
      ret = 0 ∧ Entered d par t k name x d'

/-! ### What the loop does -/

/-- With an unused entry in the first block the loop ends in its first pass. -/
theorem updateDir_of_freeSlot {node : Inode} (hptr : (Inode.directp 0).get node 0 = b) (hb : b ≠ 0)
    (hfree : freeSlot (blockRead d b) = some j) (name : List UInt8) (par : Inode) (x n : ℕ) :
    updateDir d name par node x (n + 1) = some (0, blockWrite d b
      (strcpy ((MyDir.inums j).set (blockRead d b) 0 x) (MyDir.fnames j) name)) := by
  have hgrow : growDir d par node 0 = (some node, d) := if_neg (by rw [hptr]; exact hb)
  simp only [updateDir, updateDirLoop, hgrow, hptr, hfree,
    if_pos (show 0 < numDirectPointers by decide)]

/-- With a full first block it does not end. -/
theorem updateDir_of_full {node : Inode} (hptr : (Inode.directp 0).get node 0 = b) (hb : b ≠ 0)
    (hfull : freeSlot (blockRead d b) = none) (name : List UInt8) (par : Inode) (x fuel : ℕ) :
    updateDir d name par node x fuel = none := by
  have hgrow : growDir d par node 0 = (some node, d) := if_neg (by rw [hptr]; exact hb)
  rw [updateDir]
  induction fuel with
  | zero => rfl
  | succ fuel ih =>
    simp only [updateDirLoop, hgrow, hptr, hfull, if_pos (show 0 < numDirectPointers by decide)]
    exact ih

/-- Without a first block and without a data block it returns -1. -/
theorem updateDir_of_no_block {node : Inode} (hptr : (Inode.directp 0).get node 0 = 0)
    (hfull : reserveFreeData d = (none, d)) (name : List UInt8) (par : Inode) (x n : ℕ) :
    updateDir d name par node x (n + 1) = some (-1, d) := by
  have hgrow : growDir d par node 0 = (none, d) := by
    simp only [growDir, if_pos hptr, hfull]
  simp only [updateDir, updateDirLoop, hgrow, if_pos (show 0 < numDirectPointers by decide)]

/-- The first unused entry of a new directory block. -/
theorem freeSlot_initDir (d : Disk) (b : ℕ) {s p : ℕ} (hs : s < 2048) (hp : p < 2048) :
    freeSlot (blockRead (initDir d b s p) b) = some (if p = s then 1 else 2) := by
  rw [freeSlot_eq]
  by_cases hsp : p = s
  · subst hsp
    rw [entry_initDir_self d b hs, if_pos rfl]
    rfl
  · rw [entry_initDir d b hs hp (Ne.symm hsp), if_neg hsp]
    rfl

section Adding

variable (hdir : Directory d par t) (hx : x < 2048) (hnul : 0 ∉ name)
  (hshort : name.length < maxFname)

include hdir hx hnul hshort

/-- The entry goes to the first block. -/
theorem entered_of_freeSlot (hb : directp d t 0 ≠ 0)
    (hfree : freeSlot (blockRead d (directp d t 0)) = some j) :
    Entered d par t 0 name x (blockWrite d (directp d t 0)
      (strcpy ((MyDir.inums j).set (blockRead d (directp d t 0)) 0 x) (MyDir.fnames j) name)) := by
  have hmarked := hdir.block 0 (by decide) hb
  have hj := (freeSlot_eq_some hfree).1
  refine ⟨directp d t 0, j, ?_, ?_, ?_⟩
  · rw [if_neg hb]
    exact ⟨rfl, hfree⟩
  · exact directp_congr (by decide) (inode_eqOn_blockWrite (marked_iff.mp hmarked).1 hdir.lt _)
  · rw [entry_link d _ hj hx hnul hshort, Function.update_self]

/-- The entry goes to a new block. -/
theorem exists_entered_of_zero (hzero : directp d t 0 = 0) (hb : 1089 ≤ b ∧ b < 31809)
    (hreserve : reserveFreeData d = (some b, Function.update d (dmapAddr b) 1)) :
    ∃ d', updateDir d name par (getInode d t) x 1 = some (0, d') ∧ Entered d par t 0 name x d' := by
  obtain ⟨p, hpar⟩ : ∃ p, Inode.stIno.get par 0 = p := ⟨_, rfl⟩
  have hp : p < 2048 := hpar ▸ hdir.parent
  have hgrow := growDir_of_zero hzero hreserve hdir.ino hpar
  have hget : (Inode.directp 0).get ((Inode.directp 0).set (getInode d t) 0 b) 0 = b :=
    directp_set_self hb
  have hb₀ : b ≠ 0 := by omega
  set d₁ := initDir (Function.update d (dmapAddr b) 1) b t p with hd₁
  set d₂ := (Inode.directp 0).set d₁ (inodeAddr t) b with hd₂
  have haddr := inodeAddr_def t
  have hlt := hdir.lt
  -- the pointer is written outside the new block
  have hblock : ∀ y, 512 * b ≤ y → y < 512 * b + 512 → d₂ y = d₁ y := fun y hl hr =>
    (Inode.directp 0).set_eqOn d₁ (inodeAddr t) b (show _ ≤ 256 by decide) (by
      rw [Set.mem_compl_iff, Set.mem_Ico]
      omega)
  have hentry : entry d₂ b = entry d₁ b := entry_congr_of_block hblock
  have hfree : freeSlot (blockRead d₂ b) = some (if p = t then 1 else 2) := by
    rw [freeSlot_eq, hentry, ← freeSlot_eq, hd₁, freeSlot_initDir _ b hdir.lt hp]
  have hj : (if p = t then 1 else 2) < dirEntries := by
    split_ifs <;> decide
  have hup : updateDir d name par (getInode d t) x 1 = some (0, blockWrite d₂ b
      (strcpy ((MyDir.inums (if p = t then 1 else 2)).set (blockRead d₂ b) 0 x)
        (MyDir.fnames (if p = t then 1 else 2)) name)) := by
    rw [updateDir, updateDirLoop_grow hgrow (by rw [hget]; exact hb₀)]
    exact updateDir_of_freeSlot hget hb₀ hfree name par x 0
  refine ⟨_, hup, b, if p = t then 1 else 2, ?_, ?_, ?_⟩
  · rw [if_pos hzero, hreserve, hpar]
    exact ⟨rfl, rfl⟩
  · rw [directp_congr (by decide) (inode_eqOn_blockWrite hb.1 hdir.lt _), directp_eq, hd₂,
      Field.get_set_self]
    exact Nat.mod_eq_of_lt (hb.2.trans (by decide))
  · rw [entry_link d₂ b hj hx hnul hshort, Function.update_self]

omit hdir hx hnul hshort in
/-- The first pointer is the place where there is room in it. -/
theorem addsEntry_of_first {fuel : ℕ} (hroom : HasRoom d t 0)
    (hup : updateDir d name par (getInode d t) x fuel = some (0, d'))
    (hentered : Entered d par t 0 name x d') : AddsEntry d par t name x := by
  refine ⟨fuel, 0, d', hup, fun hnone => absurd hroom (hnone 0 (by decide)), fun k _ _ hmin => ?_⟩
  obtain rfl : k = 0 := by
    by_contra hk
    exact hmin 0 (Nat.pos_of_ne_zero hk) hroom
  exact ⟨rfl, hentered⟩

/-- `updateDir` adds the entry as it should if and only if the first pointer leads to a block with
an unused entry, or it is zero and a block can be reserved or there is no place in the directory at
all. -/
theorem adds_entry_iff :
    AddsEntry d par t name x ↔
      HasRoom d t 0 ∨ directp d t 0 = 0 ∧ ∀ k < numDirectPointers, ¬HasRoom d t k := by
  classical
  constructor
  · rintro ⟨fuel, ret, d', hup, -, hplace⟩
    refine or_iff_not_imp_left.mpr fun hroom => ?_
    by_cases hzero : directp d t 0 = 0
    · refine ⟨hzero, fun k hk hroomk => ?_⟩
      -- the entry should go to the first pointer with a place, but the loop has given up
      have hex : ∃ k, k < numDirectPointers ∧ HasRoom d t k := ⟨k, hk, hroomk⟩
      obtain ⟨hlt, hfirst⟩ := Nat.find_spec hex
      have hret := (hplace _ hlt hfirst fun k' hk' hroom' =>
        Nat.find_min hex hk' ⟨hk'.trans hlt, hroom'⟩).1
      rw [HasRoom, if_pos hzero, not_not] at hroom
      have hfull : reserveFreeData d = (none, d) := by
        rcases reserveFreeData_cases hdir.super with ⟨hnone, -⟩ | ⟨b, -, -, hsome⟩
        · exact hnone
        · rw [hsome] at hroom
          exact nomatch hroom
      cases fuel with
      | zero => exact nomatch hup
      | succ n =>
        rw [updateDir_of_no_block hzero hfull, Option.some.injEq, Prod.mk.injEq] at hup
        rw [← hup.1] at hret
        exact absurd hret (by decide)
    · rw [HasRoom, if_neg hzero, not_not] at hroom
      rw [updateDir_of_full rfl hzero hroom] at hup
      exact nomatch hup
  · intro hcond
    by_cases hzero : directp d t 0 = 0
    · rcases reserveFreeData_cases hdir.super with ⟨hnone, -⟩ | ⟨b, hb, -, hsome⟩
      · have hnoroom : ∀ k < numDirectPointers, ¬HasRoom d t k := by
          refine (hcond.resolve_left fun hroom => ?_).2
          rw [HasRoom, if_pos hzero, hnone] at hroom
          exact hroom rfl
        exact ⟨1, -1, d, updateDir_of_no_block hzero hnone name par x 0, fun _ => rfl,
          fun k hk hroom _ => absurd hroom (hnoroom k hk)⟩
      · have hroom : HasRoom d t 0 := by
          rw [HasRoom, if_pos hzero, hsome]
          exact Option.some_ne_none b
        obtain ⟨d', hup, hentered⟩ := exists_entered_of_zero hdir hx hnul hshort hzero hb hsome
        exact addsEntry_of_first hroom hup hentered
    · have hroom : HasRoom d t 0 := hcond.resolve_right fun h => hzero h.1
      obtain ⟨j, hfree⟩ : ∃ j, freeSlot (blockRead d (directp d t 0)) = some j := by
        rw [HasRoom, if_neg hzero] at hroom
        exact Option.ne_none_iff_exists'.mp hroom
      exact addsEntry_of_first hroom (updateDir_of_freeSlot rfl hzero hfree name par x 0)
        (entered_of_freeSlot hdir hx hnul hshort hzero hfree)

end Adding

/-! ### The root directory, entry after entry -/

/-- The first `n` entries of the root directory are used. -/
structure Filled (d : Disk) (c : Catalog) (b n : ℕ) : Prop where
  represents : Represents d c
  wf : c.Wf ∅
  block : c.block 0 = some b
  used : ∀ j < dirEntries, c.entry b j = none ↔ n ≤ j
  marked : c.marked = {b}
  reserved : ∃ inodes : Finset ℕ, inodes.card ≤ n ∧ ∀ i ∈ c.reserved, i ∈ inodes

namespace Filled

variable {c : Catalog}

theorem marked_block (h : Filled d c b n) : Marked d b :=
  (h.represents.marked b).mp (h.wf.block_marked 0 h.wf.root_reserved b h.block)

theorem reserved_root (h : Filled d c b n) : Reserved d 0 :=
  (h.represents.reserved 0).mp h.wf.root_reserved

theorem directp_root (h : Filled d c b n) : directp d 0 0 = b := by
  have hblock := h.represents.block 0 h.reserved_root
  rw [h.block, firstBlock] at hblock
  split_ifs at hblock
  exact (Option.some.inj hblock).symm

theorem block_ne_zero (h : Filled d c b n) : b ≠ 0 := by
  have := (marked_iff.mp h.marked_block).1
  omega

theorem entry_eq_none (h : Filled d c b n) (hj : j < dirEntries) : entry d b j = none ↔ n ≤ j := by
  rw [← h.represents.entry b h.marked_block]
  exact h.used j hj

theorem freeSlot_of_lt (h : Filled d c b n) (hn : n < dirEntries) :
    freeSlot (blockRead d b) = some n := by
  rw [freeSlot_eq, List.find?_range_eq_some]
  simp only [Option.isNone_iff_eq_none]
  refine ⟨(h.entry_eq_none hn).mpr le_rfl, List.mem_range.mpr hn, fun j hj => ?_⟩
  have hused : entry d b j ≠ none := fun hnone =>
    absurd ((h.entry_eq_none (hj.trans hn)).mp hnone) (Nat.not_le.mpr hj)
  simpa using Option.isSome_iff_ne_none.mpr hused

theorem freeSlot_of_full (h : Filled d c b dirEntries) : freeSlot (blockRead d b) = none := by
  rw [freeSlot_eq, List.find?_eq_none]
  intro j hj hfree
  rw [List.mem_range] at hj
  exact absurd ((h.entry_eq_none hj).mp (Option.isNone_iff_eq_none.mp hfree)) (Nat.not_le.mpr hj)

theorem directory (h : Filled d c b n) : Directory d (getInode d 0) 0 where
  super := h.represents.super
  lt := by decide
  ino := h.represents.ino 0 h.reserved_root
  parent := (h.represents.ino 0 h.reserved_root).trans_lt (by decide)
  block := fun k hk hne => by
    rcases Nat.eq_zero_or_pos k with rfl | hpos
    · rw [h.directp_root]
      exact h.marked_block
    · exact absurd (h.represents.single 0 h.reserved_root k hpos hk) hne

/-- The second pointer of the root has a place: a block can be reserved for it. -/
theorem hasRoom (h : Filled d c b n) : HasRoom d 0 1 := by
  obtain ⟨b', -, -, hreserve⟩ := h.represents.reserveFreeData h.wf
  rw [HasRoom, if_pos (h.represents.single 0 h.reserved_root 1 (by decide) (by decide)), hreserve]
  exact Option.some_ne_none b'

/-- There is an inode that is not reserved. -/
theorem exists_free_inode (h : Filled d c b n) (hn : n < dirEntries) :
    ∃ i < 2048, ¬Reserved d i := by
  by_contra! hall
  obtain ⟨inodes, hcard, hmem⟩ := h.reserved
  have hle : (Finset.range 2048).card ≤ inodes.card := Finset.card_le_card fun i hi =>
    hmem i ((h.represents.reserved i).mpr (hall i (Finset.mem_range.mp hi)))
  rw [Finset.card_range] at hle
  rw [dirEntries] at hn
  omega

/-- The next entry is used for an inode that was not reserved. -/
theorem link (h : Filled d c b n) (hn : n < dirEntries) (hx : x < 2048) (hfree : ¬Reserved d x)
    (hnul : 0 ∉ name) (hshort : name.length < maxFname) (env : Env) (type : FileType) :
    let d₁ := newInode (Function.update d (imapAddr x) 1) (inodeAddr x) env type x
    freeSlot (blockRead d₁ b) = some n ∧ Filled (blockWrite d₁ b
      (strcpy ((MyDir.inums n).set (blockRead d₁ b) 0 x) (MyDir.fnames n) name))
      ((c.reserve x).link b n x name) b (n + 1) := by
  intro d₁
  have hxc : x ∉ c.reserved := fun hm => hfree ((h.represents.reserved x).mp hm)
  have hx₀ : 0 ≠ x := fun h0 => hfree (h0 ▸ h.reserved_root)
  have hrep : Represents d₁ (c.reserve x) := h.represents.reserve hx hfree env type
  have hwf := h.wf.reserve hxc
  have hblock : (c.reserve x).block 0 = some b := (Function.update_of_ne hx₀ ..).trans h.block
  have hroot : 0 ∈ (c.reserve x).reserved := Set.mem_insert_of_mem x h.wf.root_reserved
  have hmarked : Marked d₁ b := (hrep.marked b).mp (hwf.block_marked 0 hroot b hblock)
  have hentry : entry d₁ b = entry d b :=
    (hrep.entry b hmarked).symm.trans (h.represents.entry b h.marked_block)
  refine ⟨?_, hrep.link hmarked hn hx hnul hshort, ?_, hblock, fun j hj => ?_, h.marked, ?_⟩
  · rw [freeSlot_eq, hentry, ← freeSlot_eq, h.freeSlot_of_lt hn]
  · refine hwf.link hroot hblock ?_ (Set.mem_insert ..) name
    rw [Catalog.slot, hblock, Option.bind_some]
    exact (h.used n hn).mpr le_rfl
  · simp only [Catalog.link, Function.update_self]
    by_cases hjn : j = n
    · subst hjn
      rw [Function.update_self]
      exact iff_of_false (Option.some_ne_none _) (by omega)
    · rw [Function.update_of_ne hjn]
      exact (h.used j hj).trans (by omega)
  · obtain ⟨inodes, hcard, hmem⟩ := h.reserved
    refine ⟨insert x inodes, (Finset.card_insert_le x inodes).trans (by omega), ?_⟩
    rintro i (rfl | hi)
    · exact Finset.mem_insert_self i inodes
    · exact Finset.mem_insert_of_mem (hmem i hi)

/-- Creating a file in the root directory uses the next entry. -/
theorem create (h : Filled d c b n) (hn : n < dirEntries) {path : AbsPath}
    (hlen : path.bytes.length < 255) (hroot : lastSlash path.bytes path.bytes.length = some 0)
    (env : Env) (fuel : ℕ) :
    ∃ d' c', sfsCreate d path.bytes env (fuel + 1) = some (0, d') ∧ Filled d' c' b (n + 1) := by
  obtain ⟨hnul, hshort⟩ := path.name hroot
  have hnav := navPath_of_length_le_one h.represents.super 0 0 (path.bytes.take 0) (by simp)
  obtain ⟨i, hi, hfree⟩ := h.exists_free_inode hn
  rcases reserveFreeInode_cases h.represents.super env .file with ⟨-, hall⟩ | ⟨x, hx, hxfree, hres⟩
  · exact absurd (hall i hi) hfree
  have hx₀ : x ≠ 0 := fun h0 => hxfree (h0 ▸ h.reserved_root)
  obtain ⟨hslot, hfilled⟩ := h.link hn hx hxfree hnul hshort env .file
  refine ⟨_, _, ?_, hfilled⟩
  simp only [sfsCreate, makeNode, if_neg (Nat.not_le.mpr hlen), hroot, hnav, hres, if_neg hx₀,
    updateDir_of_freeSlot h.directp_root h.block_ne_zero hslot]
  rfl

/-- Files are created in the root directory until its block is full. -/
theorem run {calls : List FsCall}
    (hcalls : ∀ call ∈ calls, ∃ (path : AbsPath) (env : Env) (fuel : ℕ),
      call = .create path env (fuel + 1) ∧ path.bytes.length < 255 ∧
        lastSlash path.bytes path.bytes.length = some 0) :
    ∀ {d c n}, Filled d c b n → n + calls.length ≤ dirEntries →
      ∃ d' c', Transition.run fsStep d calls = some d' ∧ Filled d' c' b (n + calls.length) := by
  induction calls with
  | nil => exact fun h _ => ⟨_, _, rfl, h⟩
  | cons call calls ih =>
    intro d c n h hle
    rw [List.length_cons] at hle
    obtain ⟨path, env, fuel, rfl, hlen, hroot⟩ := hcalls _ List.mem_cons_self
    obtain ⟨d₁, c₁, hcreate, h₁⟩ := h.create (by omega) hlen hroot env fuel
    obtain ⟨d', c', hrun, h'⟩ :=
      ih (fun call hc => hcalls call (List.mem_cons_of_mem _ hc)) h₁ (by omega)
    refine ⟨d', c', ?_, ?_⟩
    · rw [run_cons, fsStep, hcreate]
      exact hrun
    · rw [List.length_cons]
      have hcomm : n + 1 + calls.length = n + (calls.length + 1) := by omega
      exact hcomm ▸ h'

end Filled

/-- A formatted disk has one entry in its root directory. -/
theorem exists_filled_sfsInit (env : Env) (junk : Memory)
    (hmagic : Superblock.magicnum.get (blockRead d 0) 0 ≠ magic) :
    ∃ b, Filled (sfsInit d env junk) (rootCatalog b) b 1 := by
  obtain ⟨b, hrep⟩ := represents_sfsInit env junk hmagic
  refine ⟨b, hrep, rootCatalog_wf b, rfl, fun j hj => ?_, rfl, {0}, le_rfl, fun i hi => ?_⟩
  · cases j with
    | zero => exact iff_of_false (Option.some_ne_none _) (by decide)
    | succ j => exact iff_of_true rfl (by omega)
  · exact Finset.mem_singleton.mpr hi

/-- The first file in the root directory of a new file system. -/
theorem adds_entry_iff_first :
    AddsEntry (sfsInit (fun _ => 0) ⟨0, 0, 0⟩ fun _ => 1)
      (getInode (sfsInit (fun _ => 0) ⟨0, 0, 0⟩ fun _ => 1) 0) 0 [97] 1 := by
  obtain ⟨b, hb⟩ := exists_filled_sfsInit ⟨0, 0, 0⟩ (fun _ => 1)
    (show Superblock.magicnum.get (blockRead (fun _ => 0) 0) 0 ≠ magic by decide)
  refine (adds_entry_iff hb.directory (by decide) (by decide) (by decide)).mpr (Or.inl ?_)
  rw [HasRoom, hb.directp_root, if_neg hb.block_ne_zero, hb.freeSlot_of_lt (by decide)]
  exact Option.some_ne_none 1

/-- The path of a letter and the slash before it. -/
def letterPath (k : Fin 26) : AbsPath where
  bytes := [slash, 97 + UInt8.ofNat k]
  nul_free := by decide +revert
  absolute := rfl
  short := by decide +revert

theorem lastSlash_letterPath (k : Fin 26) :
    lastSlash (letterPath k).bytes (letterPath k).bytes.length = some 0 := by
  decide +revert

/-- Fifteen files in the root directory, with different names. -/
def fifteenFiles : List FsCall :=
  (List.finRange 15).map fun k => .create (letterPath (k.castLE (by decide))) ⟨0, 0, 0⟩ 1

/-- Fifteen files fill the block of the root directory. For the sixteenth `updateDir` does not
return, although the other pointers of the root are zero and there are data blocks left. -/
theorem sixteenth_entry :
    ∃ d, run fsStep (sfsInit (fun _ => 0) ⟨0, 0, 0⟩ fun _ => 1) fifteenFiles = some d ∧
      Directory d (getInode d 0) 0 ∧ HasRoom d 0 1 ∧
      (∀ fuel, updateDir d [112] (getInode d 0) (getInode d 0) 16 fuel = none) ∧
      ¬AddsEntry d (getInode d 0) 0 [112] 16 := by
  obtain ⟨b, hb⟩ := exists_filled_sfsInit ⟨0, 0, 0⟩ (fun _ => 1)
    (show Superblock.magicnum.get (blockRead (fun _ => 0) 0) 0 ≠ magic by decide)
  have hcalls : ∀ call ∈ fifteenFiles, ∃ (path : AbsPath) (env : Env) (fuel : ℕ),
      call = .create path env (fuel + 1) ∧ path.bytes.length < 255 ∧
        lastSlash path.bytes path.bytes.length = some 0 := by
    intro call hmem
    obtain ⟨k, -, rfl⟩ := List.mem_map.mp hmem
    exact ⟨letterPath (k.castLE (by decide)), ⟨0, 0, 0⟩, 0, rfl, (by decide : 2 < 255),
      lastSlash_letterPath _⟩
  obtain ⟨d, c, hrun, hfilled⟩ := Filled.run hcalls hb (by decide)
  have hfull : Filled d c b dirEntries := hfilled
  have hstuck : ∀ fuel, updateDir d [112] (getInode d 0) (getInode d 0) 16 fuel = none :=
    updateDir_of_full hfull.directp_root hfull.block_ne_zero hfull.freeSlot_of_full [112] _ 16
  refine ⟨d, hrun, hfull.directory, hfull.hasRoom, hstuck, ?_⟩
  rintro ⟨fuel, ret, d', hup, -⟩
  rw [hstuck] at hup
  exact nomatch hup

end OSDesign.FS
