import OSDesign.FS.Refinement

/-!
# Consistency of the file system

The disk that `sfs_init` formats, and every disk that completed calls of `sfs_create` and
`sfs_mkdir` make of it, is consistent: entries lead to reserved inodes, pointers lead to marked data
blocks, no block is shared, and the entries form a tree with the right entries `.` and `..`.

An entry is given by the inode that owns the block, the pointer and the place in the block. The
entries that `initDir` writes are the first one of a block and, except for the root, the second one.

## Main definitions

* `DirBlock`, `IsDotEntry`, `Consistent`.

## Main results

* `exists_catalog_of_run`: a disk reached from the formatted one has a well-formed catalog.
* `consistent_of_run`: it is consistent.
-/

namespace OSDesign.FS

open ByteMemory Transition

variable {d : Disk} {c : Catalog}

/-- The pointer `k` of the reserved inode `i` leads to a block. -/
def DirBlock (d : Disk) (i k : ℕ) : Prop :=
  Reserved d i ∧ k < numDirectPointers ∧ directp d i k ≠ 0

/-- The entry `j` of a block of the inode `i` is the `.` or `..` that `initDir` writes. -/
def IsDotEntry (i j : ℕ) : Prop := j = 0 ∨ (j = 1 ∧ i ≠ 0)

/-- The entry `j` in the block of the pointer `k` of the inode `i` names `x`. -/
def EntryNames (d : Disk) (i k j x : ℕ) : Prop :=
  DirBlock d i k ∧ j < dirEntries ∧ ¬IsDotEntry i j ∧ entryInum d (directp d i k) j = x

/-- The structures on the disk agree. -/
structure Consistent (d : Disk) : Prop where
  entry_reserved : ∀ i k j, DirBlock d i k → j < dirEntries →
    entryInum d (directp d i k) j ≠ inumFree →
    entryInum d (directp d i k) j < numInodes ∧ Reserved d (entryInum d (directp d i k) j)
  block_marked : ∀ i k, DirBlock d i k → Marked d (directp d i k)
  block_unique : ∀ i k i' k', DirBlock d i k → DirBlock d i' k' →
    directp d i k = directp d i' k' → i = i' ∧ k = k'
  named_once : ∀ x, Reserved d x → x ≠ 0 → ∃! e : ℕ × ℕ × ℕ, EntryNames d e.1 e.2.1 e.2.2 x
  self : ∀ i k, DirBlock d i k →
    entryInum d (directp d i k) 0 = i ∧ entryName d (directp d i k) 0 = [dot]
  parent : ∀ i k, DirBlock d i k → i ≠ 0 →
    entryName d (directp d i k) 1 = [dot, dot] ∧
      ∃ k' j, EntryNames d (entryInum d (directp d i k) 1) k' j i

/-! ### From the catalog to the disk -/

theorem entry_eq_some {b j x : ℕ} {name : List UInt8} :
    entry d b j = some (x, name) ↔
      j < dirEntries ∧ x ≠ inumFree ∧ entryInum d b j = x ∧ entryName d b j = name := by
  rw [entry]
  split_ifs with h
  · rw [Option.some.injEq, Prod.mk.injEq]
    exact ⟨fun hs => ⟨h.1, hs.1 ▸ h.2, hs⟩, fun hs => hs.2.2⟩
  · constructor
    · intro hs
      cases hs
    · rintro ⟨hj, hne, hx, -⟩
      exact absurd ⟨hj, hx ▸ hne⟩ h

/-- Only the first pointer of an inode leads to a block, the one of the catalog. -/
theorem Represents.dirBlock {i k : ℕ} (h : Represents d c) (hb : DirBlock d i k) :
    k = 0 ∧ i ∈ c.reserved ∧ c.block i = some (directp d i 0) := by
  obtain ⟨hi, hk, hptr⟩ := hb
  obtain rfl : k = 0 := by
    by_contra hk₀
    exact hptr (h.single i hi k (Nat.pos_of_ne_zero hk₀) hk)
  exact ⟨rfl, (h.reserved i).mpr hi, (h.block i hi).trans (firstBlock_eq_some hptr)⟩

/-- An entry of the catalog, on the disk. -/
theorem Represents.slot_eq_some {N : Set ℕ} {p j x : ℕ} {name : List UInt8} (h : Represents d c)
    (hw : c.Wf N) (hp : p ∈ c.reserved) :
    c.slot p j = some (x, name) ↔
      DirBlock d p 0 ∧ FS.entry d (directp d p 0) j = some (x, name) := by
  have hres := (h.reserved p).mp hp
  by_cases hptr : directp d p 0 = 0
  · have hnone : c.block p = none := (h.block p hres).trans (firstBlock_eq_none hptr)
    rw [Catalog.slot, hnone, Option.bind_none]
    constructor
    · intro hs
      cases hs
    · exact fun hb => absurd hptr hb.1.2.2
  · have hblock : c.block p = some (directp d p 0) :=
      (h.block p hres).trans (firstBlock_eq_some hptr)
    have hmarked := (h.marked _).mp (hw.block_marked p hp _ hblock)
    rw [Catalog.slot, hblock, Option.bind_some, h.entry _ hmarked]
    exact (and_iff_right ⟨hres, by decide, hptr⟩).symm

/-- Naming in the catalog is naming on the disk. -/
theorem Represents.entryNames_iff {N : Set ℕ} {p k j x : ℕ} (h : Represents d c) (hw : c.Wf N)
    (hx : x < numInodes) : EntryNames d p k j x ↔ k = 0 ∧ c.Names p j x := by
  have hne : x ≠ inumFree := by
    rw [numInodes] at hx
    rw [inumFree]
    omega
  have hdot : ¬IsDotEntry p j ↔ Catalog.Ordinary p j := by
    rw [IsDotEntry, Catalog.Ordinary]
    omega
  constructor
  · rintro ⟨hb, hj, hord, hinum⟩
    obtain ⟨rfl, hp, -⟩ := h.dirBlock hb
    refine ⟨rfl, hp, hdot.mp hord, entryName d (directp d p 0) j, ?_⟩
    exact (h.slot_eq_some hw hp).mpr ⟨hb, entry_eq_some.mpr ⟨hj, hne, hinum, rfl⟩⟩
  · rintro ⟨rfl, hp, hord, name, hslot⟩
    obtain ⟨hb, hentry⟩ := (h.slot_eq_some hw hp).mp hslot
    obtain ⟨hj, -, hinum, -⟩ := entry_eq_some.mp hentry
    exact ⟨hb, hj, hdot.mpr hord, hinum⟩

theorem Represents.consistent (h : Represents d c) (hw : c.Wf ∅) : Consistent d := by
  constructor
  · intro i k j hb hj hused
    obtain ⟨rfl, hi, -⟩ := h.dirBlock hb
    have hslot := (h.slot_eq_some hw hi).mpr ⟨hb, entry_eq_some.mpr ⟨hj, hused, rfl, rfl⟩⟩
    have hres := (h.reserved _).mp (hw.slot_reserved i hi j _ _ hslot)
    exact ⟨hres.1, hres⟩
  · intro i k hb
    obtain ⟨rfl, hi, hblock⟩ := h.dirBlock hb
    exact (h.marked _).mp (hw.block_marked i hi _ hblock)
  · intro i k i' k' hb hb' heq
    obtain ⟨rfl, hi, hblock⟩ := h.dirBlock hb
    obtain ⟨rfl, hi', hblock'⟩ := h.dirBlock hb'
    exact ⟨hw.block_inj i hi i' hi' _ hblock (heq ▸ hblock'), rfl⟩
  · intro x hx hx₀
    obtain ⟨⟨p, j⟩, hnames, huniq⟩ :=
      hw.named x ((h.reserved x).mpr hx) hx₀ (Set.notMem_empty x)
    refine ⟨(p, 0, j), (h.entryNames_iff hw hx.1).mpr ⟨rfl, hnames⟩, ?_⟩
    rintro ⟨p', k', j'⟩ hnames'
    obtain ⟨rfl, hn⟩ := (h.entryNames_iff hw hx.1).mp hnames'
    obtain ⟨rfl, rfl⟩ := Prod.mk.injEq .. ▸ huniq (p', j') hn
    rfl
  · intro i k hb
    obtain ⟨rfl, hi, hblock⟩ := h.dirBlock hb
    have hself := hw.self i hi (hblock ▸ Option.some_ne_none _)
    obtain ⟨-, -, hinum, hname⟩ := entry_eq_some.mp ((h.slot_eq_some hw hi).mp hself).2
    exact ⟨hinum, hname⟩
  · intro i k hb hi₀
    obtain ⟨rfl, hi, hblock⟩ := h.dirBlock hb
    obtain ⟨q, j, hq, hnames⟩ := hw.parent i hi (hblock ▸ Option.some_ne_none _) hi₀
    obtain ⟨-, -, hinum, hname⟩ := entry_eq_some.mp ((h.slot_eq_some hw hi).mp hq).2
    refine ⟨hname, 0, j, ?_⟩
    rw [hinum]
    exact (h.entryNames_iff hw hb.1.1).mpr ⟨rfl, hnames⟩

/-! ### Runs -/

/-- A completed call keeps a disk with a well-formed catalog. -/
theorem exists_catalog_of_step {d' : Disk} {call : FsCall} (h : ∃ c, Represents d c ∧ c.Wf ∅)
    (hstep : fsStep d call = some d') : ∃ c, Represents d' c ∧ c.Wf ∅ := by
  obtain ⟨c, hrep, hw⟩ := h
  cases call with
  | create path env fuel =>
    obtain ⟨⟨ret, d₁⟩, hmk, rfl⟩ := Option.map_eq_some_iff.mp hstep
    exact hrep.makeNode hw hmk
  | mkdir path env fuel =>
    obtain ⟨⟨ret, d₁⟩, hmk, rfl⟩ := Option.map_eq_some_iff.mp hstep
    exact hrep.makeNode hw hmk

/-- The disks reached from a formatted one have a well-formed catalog. -/
theorem exists_catalog_of_run {d₀ : Disk} {env : Env} {junk : Memory} {calls : List FsCall}
    (hmagic : Superblock.magicnum.get (blockRead d₀ 0) 0 ≠ magic)
    (hrun : run fsStep (sfsInit d₀ env junk) calls = some d) : ∃ c, Represents d c ∧ c.Wf ∅ := by
  obtain ⟨b, hinit⟩ := represents_sfsInit env junk hmagic
  exact run_invariant_of_step (fun _ _ _ h hs => exists_catalog_of_step h hs)
    ⟨_, hinit, rootCatalog_wf b⟩ hrun

/-- **Consistency.** From whatever is on a disk without the magic number, formatting it and any
sequence of completed calls of `sfs_create` and `sfs_mkdir` leave a consistent disk. -/
theorem consistent_of_run {d₀ : Disk} {env : Env} {junk : Memory} {calls : List FsCall}
    (hmagic : Superblock.magicnum.get (blockRead d₀ 0) 0 ≠ magic)
    (hrun : run fsStep (sfsInit d₀ env junk) calls = some d) : Consistent d := by
  obtain ⟨c, hrep, hw⟩ := exists_catalog_of_run hmagic hrun
  exact hrep.consistent hw

/-- `/a`. -/
def pathA : AbsPath := ⟨[slash, 97], by decide, by decide, by decide⟩

/-- `/a/b`. -/
def pathAB : AbsPath := ⟨[slash, 97, slash, 98], by decide, by decide, by decide⟩

/-- A directory is made, and a file in it. -/
def nestedCalls : List FsCall := [.mkdir pathA ⟨0, 0, 0⟩ 1, .create pathAB ⟨0, 0, 0⟩ 1]

theorem consistent_of_run_nested :
    ∃ d, run fsStep (sfsInit (fun _ => 0) ⟨0, 0, 0⟩ fun _ => 1) nestedCalls = some d ∧
      (directp d 0 0, directp d 1 0, entryInum d 1090 2) = (1089, 1090, 2) ∧ Consistent d := by
  have hend : (run fsStep (sfsInit (fun _ => 0) ⟨0, 0, 0⟩ fun _ => 1) nestedCalls).map
      (fun d => (directp d 0 0, directp d 1 0, entryInum d 1090 2)) = some (1089, 1090, 2) := by
    decide +kernel
  obtain ⟨d, hd, hproj⟩ := Option.map_eq_some_iff.mp hend
  exact ⟨d, hd, hproj, consistent_of_run (by decide) hd⟩

end OSDesign.FS
