import OSDesign.FS.Consistency

/-!
# Reserving blocks and inodes

`reserveFreeData` and `reserveFreeInode` scan the maps for a byte that is 0. On a disk that
`sfs_init` has formatted, any sequence of these calls hands out every block and every inode once at
most, until the maps are full.

`sfs_create` and `sfs_mkdir` reserve an inode before they enter it in its directory, and do not give
it back. They never have to: the directory needs a new block at most, and there are more data blocks
than inodes. So a call that fails has not changed the disk.

## Main definitions

* `Handed`, `ReserveCall`, `reserveStep`: the disk and the numbers handed out so far.
* `Make`, `makeStep`: calls of `sfs_create` and `sfs_mkdir` on paths whose components fit.

## Main results

* `reservations_sound`: the numbers handed out are different and in range, a call fails when its map
  is full, and what a call changes.
* `failed_make_leaves_disk`: a call of `sfs_create` or `sfs_mkdir` that fails leaves the disk as it
  is.
-/

namespace OSDesign.FS

open ByteMemory Transition

variable {d : Disk} {b i : ℕ}

/-! ### Calls of the two functions -/

/-- A disk, the data blocks handed out with the one of the root, and the inodes handed out. -/
structure Handed where
  disk : Disk
  blocks : List ℕ
  inodes : List ℕ

/-- The two functions. -/
inductive ReserveCall
  | data
  | inode (env : Env) (type : FileType)

/-- One call. A call that fails hands out nothing. -/
def reserveStep (s : Handed) : ReserveCall → Option Handed
  | .data =>
    match reserveFreeData s.disk with
    | (b, d) => some ⟨d, b.toList ++ s.blocks, s.inodes⟩
  | .inode env type =>
    match reserveFreeInode s.disk env type with
    | (i, d) => some ⟨d, s.blocks, if i = 0 then s.inodes else i :: s.inodes⟩

/-- The disk after `sfs_init`. -/
def formatted (d : Disk) (env : Env) (junk : Memory) : Handed :=
  ⟨sfsInit d env junk, [directp (sfsInit d env junk) 0 0], []⟩

/-- The maps mark what has been handed out, the root apart. -/
structure Ledger (s : Handed) : Prop where
  super : SuperOk s.disk
  blocks : s.blocks.Nodup
  marked : ∀ b, b ∈ s.blocks ↔ Marked s.disk b
  inodes : (0 :: s.inodes).Nodup
  reserved : ∀ i, i ∈ 0 :: s.inodes ↔ Reserved s.disk i

theorem ledger_formatted (env : Env) (junk : Memory)
    (hmagic : Superblock.magicnum.get (blockRead d 0) 0 ≠ magic) :
    Ledger (formatted d env junk) := by
  obtain ⟨b, hrep⟩ := represents_sfsInit env junk hmagic
  have hroot : (rootCatalog b).block 0 = some b := rfl
  have hptr : directp (sfsInit d env junk) 0 0 = b := by
    rw [hrep.block 0 ((hrep.reserved 0).mp rfl), firstBlock] at hroot
    split_ifs at hroot
    exact Option.some.inj hroot
  refine ⟨hrep.super, List.nodup_singleton _, fun x => ?_, List.nodup_singleton 0, fun x => ?_⟩
  · rw [formatted, hptr, List.mem_singleton]
    exact hrep.marked x
  · rw [formatted, List.mem_singleton]
    exact hrep.reserved x

/-! ### What the maps say after a call -/

theorem marked_update (hb : 1089 ≤ b ∧ b < 31809) {x : ℕ} :
    Marked (Function.update d (dmapAddr b) 1) x ↔ x = b ∨ Marked d x := by
  have haddr := dmapAddr_def b
  have haddr' := dmapAddr_def x
  rw [marked_iff, marked_iff]
  by_cases hx : x = b
  · subst hx
    rw [Function.update_self]
    exact iff_of_true ⟨hb.1, hb.2, by decide⟩ (Or.inl rfl)
  · constructor
    · rintro ⟨hl, hr, hne⟩
      rw [Function.update_of_ne (by omega)] at hne
      exact Or.inr ⟨hl, hr, hne⟩
    · intro h
      obtain ⟨hl, hr, hne⟩ := h.resolve_left hx
      exact ⟨hl, hr, by rwa [Function.update_of_ne (by omega)]⟩

theorem reserved_update_dmap {x : ℕ} :
    Reserved (Function.update d (dmapAddr b) 1) x ↔ Reserved d x := by
  have haddr := dmapAddr_def b
  have haddr' := imapAddr_def x
  rw [reserved_iff, reserved_iff]
  refine and_congr_right fun hx => ?_
  rw [Function.update_of_ne (by omega)]

/-- A new inode changes a byte of the inode map and the 256 bytes of the inode. -/
theorem newInode_update_apply (env : Env) (type : FileType) {x : ℕ} (hmap : x ≠ imapAddr i)
    (hx : ¬(inodeAddr i ≤ x ∧ x < inodeAddr i + inodeSize)) :
    newInode (Function.update d (imapAddr i) 1) (inodeAddr i) env type i x = d x := by
  rw [newInode_eqOn _ _ env type i (by rwa [Set.mem_compl_iff, Set.mem_Ico]),
    Function.update_of_ne hmap]

theorem reserved_newInode (hi : i < 2048) (env : Env) (type : FileType) {x : ℕ} :
    Reserved (newInode (Function.update d (imapAddr i) 1) (inodeAddr i) env type i) x ↔
      x = i ∨ Reserved d x := by
  have haddr := imapAddr_def i
  have haddr' := imapAddr_def x
  have hinode := inodeAddr_def i
  rw [reserved_iff, reserved_iff]
  by_cases hx : x = i
  · subst hx
    rw [newInode_eqOn _ _ env type x (by rw [Set.mem_compl_iff, Set.mem_Ico]; omega),
      Function.update_self]
    exact iff_of_true ⟨hi, by decide⟩ (Or.inl rfl)
  · rw [or_iff_right hx]
    refine and_congr_right fun hlt => ?_
    rw [newInode_update_apply env type (by omega) (by omega)]

theorem marked_newInode (hi : i < 2048) (env : Env) (type : FileType) {x : ℕ} :
    Marked (newInode (Function.update d (imapAddr i) 1) (inodeAddr i) env type i) x ↔
      Marked d x := by
  have haddr := imapAddr_def i
  have haddr' := dmapAddr_def x
  have hinode := inodeAddr_def i
  rw [marked_iff, marked_iff]
  refine and_congr_right fun hl => and_congr_right fun hr => ?_
  rw [newInode_update_apply env type (by omega) (by omega)]

/-- Every call keeps the ledger. -/
theorem Ledger.step {s : Handed} (h : Ledger s) (call : ReserveCall) :
    ∃ s', reserveStep s call = some s' ∧ Ledger s' := by
  cases call with
  | data =>
    rcases reserveFreeData_cases h.super with ⟨hfull, -⟩ | ⟨b, hb, hfree, hsome⟩
    · exact ⟨s, by simp only [reserveStep, hfull, Option.toList_none, List.nil_append], h⟩
    · have haddr := dmapAddr_def b
      have hsuper : SuperOk (Function.update s.disk (dmapAddr b) 1) := by
        refine h.super.congr fun x hx => ?_
        rw [Function.update_of_ne (by omega)]
      refine ⟨⟨Function.update s.disk (dmapAddr b) 1, b :: s.blocks, s.inodes⟩, ?_, ?_⟩
      · simp only [reserveStep, hsome, Option.toList_some, List.singleton_append]
      · refine ⟨hsuper,
          List.nodup_cons.mpr ⟨fun hm => hfree ((h.marked b).mp hm), h.blocks⟩, fun x => ?_,
          h.inodes, fun x => ?_⟩
        · rw [List.mem_cons, marked_update hb, h.marked]
        · rw [reserved_update_dmap, h.reserved]
  | inode env type =>
    rcases reserveFreeInode_cases h.super env type with ⟨hfull, -⟩ | ⟨i, hi, hfree, hsome⟩
    · exact ⟨s, by simp only [reserveStep, hfull, if_true], h⟩
    · have hnew : i ∉ 0 :: s.inodes := fun hm => hfree ((h.reserved i).mp hm)
      have hi₀ : i ≠ 0 := fun h0 => hnew (h0 ▸ List.mem_cons_self)
      refine ⟨⟨newInode (Function.update s.disk (imapAddr i) 1) (inodeAddr i) env type i, s.blocks,
        i :: s.inodes⟩, ?_, ?_⟩
      · simp only [reserveStep, hsome, if_neg hi₀]
      · have hmap := imapAddr_def i
        have hinode := inodeAddr_def i
        have hperm : (0 :: i :: s.inodes).Perm (i :: 0 :: s.inodes) := List.Perm.swap ..
        refine ⟨h.super.congr fun x hx => newInode_update_apply env type (by omega) (by omega),
          h.blocks, fun x => ?_, ?_, fun x => ?_⟩
        · rw [marked_newInode hi, h.marked]
        · exact hperm.nodup_iff.mpr (List.nodup_cons.mpr ⟨hnew, h.inodes⟩)
        · rw [hperm.mem_iff, List.mem_cons, reserved_newInode hi, h.reserved]

/-! ### What has been handed out -/

/-- The numbers handed out are different and in range, and this is what a further call does. -/
structure SoundReservations (s : Handed) : Prop where
  blocks_nodup : s.blocks.Nodup
  blocks_range : ∀ b ∈ s.blocks, 1089 ≤ b ∧ b ≤ 31808
  inodes_nodup : s.inodes.Nodup
  inodes_range : ∀ i ∈ s.inodes, 1 ≤ i ∧ i ≤ 2047
  data_full : (reserveFreeData s.disk).1 = none ↔
    ∀ b, dataStart ≤ b → b < dataStart + numData → Marked s.disk b
  data_failed : (reserveFreeData s.disk).1 = none → (reserveFreeData s.disk).2 = s.disk
  data_frame : ∀ b, (reserveFreeData s.disk).1 = some b → ∀ x, x ≠ dmapAddr b →
    (reserveFreeData s.disk).2 x = s.disk x
  inode_full : ∀ env type, (reserveFreeInode s.disk env type).1 = 0 ↔
    ∀ i, 1 ≤ i → i < numInodes → i ∈ s.inodes
  inode_failed : ∀ env type, (reserveFreeInode s.disk env type).1 = 0 →
    (reserveFreeInode s.disk env type).2 = s.disk
  inode_frame : ∀ env type i, (reserveFreeInode s.disk env type).1 = i → i ≠ 0 →
    ∀ x, x ≠ imapAddr i → ¬(inodeAddr i ≤ x ∧ x < inodeAddr i + inodeSize) →
      (reserveFreeInode s.disk env type).2 x = s.disk x

theorem Ledger.sound {s : Handed} (h : Ledger s) : SoundReservations s := by
  have hroot := List.nodup_cons.mp h.inodes
  have hreserved : ∀ i, i ≠ 0 → (i ∈ s.inodes ↔ Reserved s.disk i) := fun i hi => by
    rw [← h.reserved, List.mem_cons, or_iff_right hi]
  constructor
  · exact h.blocks
  · intro b hb
    obtain ⟨hl, hr, -⟩ := marked_iff.mp ((h.marked b).mp hb)
    omega
  · exact hroot.2
  · intro i hi
    have hi₀ : i ≠ 0 := fun h0 => hroot.1 (h0 ▸ hi)
    have hlt := ((hreserved i hi₀).mp hi).lt
    omega
  · rcases reserveFreeData_cases h.super with ⟨hcall, hfull⟩ | ⟨b, hb, hfree, hcall⟩
    · rw [hcall]
      exact iff_of_true rfl hfull
    · rw [hcall]
      exact iff_of_false nofun fun hall => hfree (hall b hb.1 hb.2)
  · intro hnone
    rcases reserveFreeData_cases h.super with ⟨hcall, -⟩ | ⟨b, -, -, hcall⟩
    · rw [hcall]
    · rw [hcall] at hnone
      exact nomatch hnone
  · intro b hsome x hx
    rcases reserveFreeData_cases h.super with ⟨hcall, -⟩ | ⟨b', -, -, hcall⟩
    · rw [hcall] at hsome
      exact nomatch hsome
    · rw [hcall] at hsome ⊢
      obtain rfl : b' = b := Option.some.inj hsome
      dsimp only
      rw [Function.update_of_ne hx]
  · intro env type
    rcases reserveFreeInode_cases h.super env type with ⟨hcall, hfull⟩ | ⟨i, hi, hfree, hcall⟩
    · rw [hcall]
      exact iff_of_true rfl fun i hl hr => (hreserved i (by omega)).mpr (hfull i hr)
    · have hi₀ : i ≠ 0 := fun h0 => hfree (h0 ▸ (h.reserved 0).mp List.mem_cons_self)
      rw [hcall]
      exact iff_of_false hi₀ fun hall =>
        hfree ((hreserved i hi₀).mp (hall i (Nat.one_le_iff_ne_zero.mpr hi₀) hi))
  · intro env type hzero
    rcases reserveFreeInode_cases h.super env type with ⟨hcall, -⟩ | ⟨i, hi, hfree, hcall⟩
    · rw [hcall]
    · rw [hcall] at hzero
      obtain rfl : i = 0 := hzero
      exact absurd ((h.reserved 0).mp List.mem_cons_self) hfree
  · intro env type i hcall hi₀ x hmap hx
    rcases reserveFreeInode_cases h.super env type with ⟨hcall', -⟩ | ⟨i', -, -, hcall'⟩
    · rw [hcall'] at hcall
      exact absurd hcall.symm hi₀
    · rw [hcall'] at hcall ⊢
      obtain rfl : i' = i := hcall
      exact newInode_update_apply env type hmap hx

/-- On a formatted disk every sequence of calls hands out different blocks and inodes, in range. A
call fails when nothing is left, and then leaves the disk as it is; otherwise it changes a byte of
its map and, for an inode, the 256 bytes of the inode. -/
theorem reservations_sound (d₀ : Disk) (env : Env) (junk : Memory)
    (hmagic : Superblock.magicnum.get (blockRead d₀ 0) 0 ≠ magic) (calls : List ReserveCall) :
    ∃ s, run reserveStep (formatted d₀ env junk) calls = some s ∧ SoundReservations s := by
  obtain ⟨s, hrun, hledger⟩ := exists_run_of_step (fun s call h => Ledger.step h call)
    (ledger_formatted env junk hmagic) calls
  exact ⟨s, hrun, hledger.sound⟩

/-- Two blocks and an inode are reserved. -/
def threeCalls : List ReserveCall := [.data, .inode ⟨0, 0, 0⟩ .file, .data]

theorem reservations_sound_three :
    ∃ s, run reserveStep (formatted (fun _ => 0) ⟨0, 0, 0⟩ fun _ => 0) threeCalls = some s ∧
      (s.blocks, s.inodes) = ([1091, 1090, 1089], [1]) ∧ SoundReservations s := by
  have hend : (run reserveStep (formatted (fun _ => 0) ⟨0, 0, 0⟩ fun _ => 0) threeCalls).map
      (fun s => (s.blocks, s.inodes)) = some ([1091, 1090, 1089], [1]) := by
    decide +kernel
  obtain ⟨s, hs, hsound⟩ := reservations_sound (fun _ => 0) ⟨0, 0, 0⟩ (fun _ => 0) (by decide)
    threeCalls
  rw [hs] at hend
  exact ⟨s, hs, Option.some.inj hend, hsound⟩

/-! ### Creating files and directories -/

/-- A call of `sfs_create` or `sfs_mkdir`. -/
structure Make where
  type : FileType
  path : List UInt8
  env : Env
  fuel : ℕ

/-- The components of the path fit in the arrays for names. -/
def Make.Fits (m : Make) : Prop := 0 ∉ m.path ∧ ∀ c ∈ m.path.splitOn slash, c.length < maxFname

/-- The disk after a completed call. -/
def makeStep (d : Disk) (m : Make) : Option Disk :=
  (makeNode m.type d m.path m.env m.fuel).map Prod.snd

theorem Make.Fits.name {m : Make} (h : m.Fits) (hi : lastSlash m.path m.path.length = some i) :
    0 ∉ m.path.drop ((m.path.take i).length + 1) ∧
      (m.path.drop ((m.path.take i).length + 1)).length < maxFname :=
  name_of_lastSlash h.1 h.2 hi

/-- The disks reached from a formatted one have a well-formed catalog. -/
theorem exists_catalog_of_makes {d₀ : Disk} {env : Env} {junk : Memory} {calls : List Make}
    (hmagic : Superblock.magicnum.get (blockRead d₀ 0) 0 ≠ magic)
    (hfits : RunOk makeStep (fun _ m => m.Fits) (sfsInit d₀ env junk) calls)
    (hrun : run makeStep (sfsInit d₀ env junk) calls = some d) : ∃ c, Represents d c ∧ c.Wf ∅ := by
  obtain ⟨b, hinit⟩ := represents_sfsInit env junk hmagic
  have hstep : ∀ d₁ (m : Make) d₂, (∃ c, Represents d₁ c ∧ c.Wf ∅) → m.Fits →
      makeStep d₁ m = some d₂ → ∃ c, Represents d₂ c ∧ c.Wf ∅ := by
    rintro d₁ m d₂ ⟨c, hrep, hw⟩ hm hstep
    obtain ⟨⟨ret, d'⟩, hmk, rfl⟩ := Option.map_eq_some_iff.mp hstep
    rcases hrep.makeNode_cases hw (fun _ => hm.name) hmk with
      ⟨-, rfl⟩ | ⟨-, i, ret₁, p, t, x, c', -, -, -, -, -, -, henters⟩
    · exact ⟨c, hrep, hw⟩
    · exact ⟨c', henters.represents, henters.wf⟩
  exact run_invariant hstep ⟨_, hinit, rootCatalog_wf b⟩ hfits hrun

/-- On every disk that calls of `sfs_create` and `sfs_mkdir` make of a formatted one, a further call
that does not return 0 leaves the disk as it is; and once it has reserved an inode, `updateDir` does
not fail. -/
theorem failed_make_leaves_disk {d₀ : Disk} {env : Env} {junk : Memory} {calls : List Make}
    (hmagic : Superblock.magicnum.get (blockRead d₀ 0) 0 ≠ magic)
    (hfits : RunOk makeStep (fun _ m => m.Fits) (sfsInit d₀ env junk) calls)
    (hrun : run makeStep (sfsInit d₀ env junk) calls = some d) (m : Make) (hm : m.Fits) :
    (∀ ret d', makeNode m.type d m.path m.env m.fuel = some (ret, d') → ret ≠ 0 → d' = d) ∧
    ∀ i ret par targ x d₁ ret' d', lastSlash m.path m.path.length = some i →
      navPath d 0 0 (m.path.take i) = (ret, par, targ) → ret ≠ -1 →
      reserveFreeInode d m.env m.type = (x, d₁) → x ≠ 0 →
      updateDir d₁ (m.path.drop ((m.path.take i).length + 1)) par targ x m.fuel = some (ret', d') →
      ret' = 0 := by
  obtain ⟨c, hrep, hw⟩ := exists_catalog_of_makes hmagic hfits hrun
  refine ⟨fun ret d' hmk hret => ?_,
    fun i ret par targ x d₁ ret' d' hlast hnav hret hres hx₀ hup => ?_⟩
  · rcases hrep.makeNode_cases hw (fun _ => hm.name) hmk with ⟨-, hsame⟩ | ⟨hzero, -⟩
    · exact hsame
    · exact absurd hzero hret
  · obtain ⟨p, t, hp, ht, rfl, rfl, hnames⟩ := hrep.navPath hw hnav hret
    obtain ⟨hnul, hshort⟩ := hm.name hlast
    rcases reserveFreeInode_cases hrep.super m.env m.type with ⟨hfull, -⟩ | ⟨x', hx, hfree, hsome⟩
    · rw [hfull] at hres
      exact absurd (Prod.mk.inj hres).1.symm hx₀
    · rw [hsome] at hres
      obtain ⟨rfl, rfl⟩ := Prod.mk.inj hres
      exact (hrep.updateDir_reserved hw hp ht hnames hx hfree hnul hshort hup).1

/-- `/x/b` is created in a file system with the directory `/a`. -/
theorem failed_make_leaves_disk_orphan :
    ∃ d, run makeStep (sfsInit (fun _ => 0) ⟨0, 0, 0⟩ fun _ => 0)
        [⟨.directory, [slash, 97], ⟨0, 0, 0⟩, 1⟩] = some d ∧
      (makeNode .file d [slash, 120, slash, 98] ⟨0, 0, 0⟩ 1).map Prod.fst = some (-1) ∧
      ∀ ret d', makeNode .file d [slash, 120, slash, 98] ⟨0, 0, 0⟩ 1 = some (ret, d') →
        ret ≠ 0 → d' = d := by
  have hend : (run makeStep (sfsInit (fun _ => 0) ⟨0, 0, 0⟩ fun _ => 0)
      [⟨.directory, [slash, 97], ⟨0, 0, 0⟩, 1⟩]).map (fun d =>
        (makeNode .file d [slash, 120, slash, 98] ⟨0, 0, 0⟩ 1).map Prod.fst) =
      some (some (-1)) := by decide +kernel
  obtain ⟨d, hd, hret⟩ := Option.map_eq_some_iff.mp hend
  have hmagic : Superblock.magicnum.get (blockRead (fun _ => 0) 0) 0 ≠ magic := by decide
  have hfits : RunOk makeStep (fun _ m => m.Fits) (sfsInit (fun _ => 0) ⟨0, 0, 0⟩ fun _ => 0)
      [⟨.directory, [slash, 97], ⟨0, 0, 0⟩, 1⟩] := ⟨⟨by decide, by decide⟩, fun _ _ => trivial⟩
  refine ⟨d, hd, hret, ?_⟩
  exact (failed_make_leaves_disk hmagic hfits hd ⟨.file, [slash, 120, slash, 98], ⟨0, 0, 0⟩, 1⟩
    ⟨by decide, by decide⟩).1

end OSDesign.FS
