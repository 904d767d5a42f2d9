import OSDesign.FS.Leaks

/-!
# Mounting and formatting

`sfs_init` formats a disk without the magic number and leaves every other disk as it is. It writes
the superblock with the magic number first, then the maps, the block and last the inode of the root.
When it is cut off behind its first write, the next `sfs_init` takes the disk for a formatted one:
the formatting is not completed, and the root inode is what was on the disk before.

## Main definitions

* `HasMagic`.

## Main results

* `sfsInit_of_magic`, `hasMagic_sfsInit`.
* `interrupted_format`: a formatting that is cut off is not completed later.
-/

namespace OSDesign.FS

open ByteMemory Prog

variable {d d' : Disk} {b : ℕ} {env : Env} {junk : Memory}

/-- The disk has the magic number. -/
def HasMagic (d : Disk) : Prop := Superblock.magicnum.get (blockRead d 0) 0 = magic

instance (d : Disk) : Decidable (HasMagic d) := inferInstanceAs (Decidable (_ = _))

theorem HasMagic.congr (hm : HasMagic d) (h : ∀ a < 512, d' a = d a) : HasMagic d' := by
  have hblock : Set.EqOn (blockRead d' 0) (blockRead d 0) (Set.Ico 0 (0 + 512)) := fun x hx => by
    rw [blockRead_apply, blockRead_apply]
    exact h _ (by have := hx.2; omega)
  exact (Field.get_congr _ hblock (by decide)).trans hm

/-- A disk with the magic number is mounted as it is. -/
theorem sfsInit_of_magic (hm : HasMagic d) (env : Env) (junk : Memory) : sfsInit d env junk = d :=
  if_neg (not_not_intro hm)

/-! ### The superblock and the maps -/

/-- The disk with the superblock written. -/
def formatSuper (d : Disk) : Disk := blockWrite d 0 (FSProg.newSuperblock (blockRead d 0))

theorem get_formatSuper (d : Disk) {f : Field} (hf : f.off + f.len ≤ blockSize) :
    f.get (blockRead (formatSuper d) 0) 0 = f.get (FSProg.newSuperblock (blockRead d 0)) 0 :=
  f.get_congr (blockRead_blockWrite d 0 _) hf

theorem hasMagic_formatSuper (d : Disk) : HasMagic (formatSuper d) := by
  rw [HasMagic, get_formatSuper d (by decide), FSProg.newSuperblock]
  simp (disch := decide) only [Field.get_set_of_apart, Field.get_set_self]
  rfl

theorem superOk_formatSuper (d : Disk) : SuperOk (formatSuper d) := by
  constructor <;> rw [get_formatSuper d (by decide), FSProg.newSuperblock] <;>
    simp (disch := decide) only [Field.get_set_of_apart, Field.get_set_self] <;> rfl

theorem formatSuper_apply (d : Disk) {a : ℕ} (ha : 512 ≤ a) : formatSuper d a = d a :=
  blockWrite_apply_of_not_mem _ (by omega)

theorem iList_newSuperblock (sb : Memory) :
    Superblock.iList.get (FSProg.newSuperblock sb) 0 = 65 := by
  rw [FSProg.newSuperblock]
  simp (disch := decide) only [Field.get_set_of_apart, Field.get_set_self]
  rfl

/-- The maps are cleared block by block. -/
theorem passes_clearMaps {n : ℕ} (h : Passes diskStep (FSProg.clearMaps n) d d') :
    ∃ k ≤ n, d' = clearMaps d k := by
  induction n generalizing d' with
  | zero => exact ⟨0, le_rfl, passes_pure.mp h⟩
  | succ n ih =>
    rw [FSProg.clearMaps, passes_bind] at h
    rcases h with h | ⟨_, t, hexec, h⟩
    · obtain ⟨k, hk, rfl⟩ := ih h
      exact ⟨k, hk.trans n.le_succ, rfl⟩
    · rw [FSProg.exec_clearMaps] at hexec
      obtain ⟨-, rfl⟩ := Prod.mk.inj (Option.some.inj hexec)
      rcases FSProg.passes_blockWrite.mp h with rfl | rfl
      · exact ⟨n, n.le_succ, rfl⟩
      · exact ⟨n + 1, le_rfl, rfl⟩

theorem clearMaps_boot (d : Disk) (n : ℕ) {a : ℕ} (ha : a < 512) : clearMaps d n a = d a := by
  rw [clearMaps_apply, if_neg (by omega)]

theorem clearMaps_rest (d : Disk) {n a : ℕ} (hn : n ≤ 64) (ha : 33280 ≤ a) :
    clearMaps d n a = d a := by
  rw [clearMaps_apply, if_neg (by omega)]

/-! ### The root -/

/-- The disk with the superblock and the maps written. -/
def formatMaps (d : Disk) : Disk := clearMaps (formatSuper d) 64

theorem superOk_formatMaps (d : Disk) : SuperOk (formatMaps d) :=
  (superOk_formatSuper d).congr fun _ ha => clearMaps_boot _ 64 ha

/-- The root gets the first data block. -/
theorem reserveFreeData_formatMaps (d : Disk) :
    reserveFreeData (formatMaps d) = (some 1089, markBlock (formatMaps d) 1089) := by
  have hfree : ¬Marked (formatMaps d) 1089 := fun hm => by
    have hbyte := (marked_iff.mp hm).2.2
    rw [formatMaps, clearMaps_apply, if_pos (by decide), if_neg (by decide)] at hbyte
    exact hbyte rfl
  rcases reserveFreeData_next (superOk_formatMaps d) with ⟨-, hfull⟩ | ⟨b, hb, hreserve⟩
  · exact absurd (hfull 1089 le_rfl (by decide)) hfree
  · obtain rfl | hlt := hb.range.1.eq_or_lt
    · exact hreserve
    · exact absurd (hb.before 1089 le_rfl hlt) hfree

/-- The disks between the first and the last write of the formatting. -/
inductive Unformatted (d : Disk) : Disk → Prop
  | maps {k : ℕ} (hk : k ≤ 64) : Unformatted d (clearMaps (formatSuper d) k)
  | blockMarked : Unformatted d (markBlock (formatMaps d) 1089)
  | blockWritten : Unformatted d (addBlock (formatMaps d) 1089 0 0)

/-- Outside the maps and the data blocks only the superblock has been written. -/
theorem Unformatted.eq_of_outside (h : Unformatted d d') {a : ℕ}
    (ha : a < 512 ∨ 33280 ≤ a ∧ a < 33792) : d' a = formatSuper d a := by
  have hmaps {k : ℕ} (hk : k ≤ 64) : clearMaps (formatSuper d) k a = formatSuper d a := by
    rcases ha with ha | ha
    · exact clearMaps_boot _ k ha
    · exact clearMaps_rest _ hk ha.1
  cases h with
  | maps hk => exact hmaps hk
  | blockMarked =>
    have := dmapAddr_def 1089
    rw [markBlock, Function.update_of_ne (by omega)]
    exact hmaps le_rfl
  | blockWritten =>
    have := dmapAddr_def 1089
    rw [addBlock, initDir_apply_of_not_mem (by omega), markBlock, Function.update_of_ne (by omega)]
    exact hmaps le_rfl

theorem exec_makeRoot_formatMaps (d : Disk) (rooti : Memory) :
    exec diskStep (FSProg.makeRoot 65 rooti) (formatMaps d) = some ((),
      blockWrite (addBlock (formatMaps d) 1089 0 0) 65
        (Inode.indirectp.set ((Inode.directp 0).set rooti 0 1089) 0 0)) := by
  rw [FSProg.exec_makeRoot]
  simp only [reserveFreeData_formatMaps]
  rfl

/-- The last part of the formatting. -/
theorem passes_makeRoot {rooti : Memory}
    (h : Passes diskStep (FSProg.makeRoot 65 rooti) (formatMaps d) d') :
    Unformatted d d' ∨ exec diskStep (FSProg.makeRoot 65 rooti) (formatMaps d) = some ((), d') := by
  have hreserve := reserveFreeData_formatMaps d
  have hend := exec_makeRoot_formatMaps d rooti
  rw [FSProg.makeRoot, passes_bind] at h
  rcases h with h | ⟨_, t, hexec, h⟩
  · refine Or.inl ?_
    rcases passes_reserveFreeData h with hd | hd
    · rw [hd]
      exact .maps le_rfl
    · rw [hreserve] at hd
      rw [show d' = markBlock (formatMaps d) 1089 from hd]
      exact .blockMarked
  · rw [FSProg.exec_reserveFreeData, hreserve] at hexec
    obtain ⟨rfl, rfl⟩ := Prod.mk.inj (Option.some.inj hexec)
    rw [Option.elim_some, passes_bind] at h
    rcases h with h | ⟨_, t, hexec, h⟩
    · rcases passes_initDir h with rfl | rfl
      · exact Or.inl .blockMarked
      · exact Or.inl .blockWritten
    · rw [FSProg.exec_initDir] at hexec
      obtain ⟨-, rfl⟩ := Prod.mk.inj (Option.some.inj hexec)
      rcases FSProg.passes_blockWrite.mp h with rfl | rfl
      · exact Or.inl .blockWritten
      · exact Or.inr hend

/-- The disks that the formatting passes through. -/
theorem passes_sfsInit (h : Passes diskStep (FSProg.sfsInit env junk) d d') :
    d' = d ∨ Unformatted d d' ∨ d' = sfsInit d env junk := by
  have hend := FSProg.exec_sfsInit env junk d
  rw [FSProg.sfsInit, (FSProg.steady_blockRead _).passes_bind (FSProg.exec_blockRead 0 d)] at h
  rw [FSProg.sfsInit, exec_bind, FSProg.exec_blockRead, Option.bind_some] at hend
  dsimp only at hend
  split at h
  next hmagic =>
    rw [if_pos hmagic, iList_newSuperblock, exec_bind, FSProg.exec_blockWrite, Option.bind_some,
      exec_bind, FSProg.exec_clearMaps, Option.bind_some] at hend
    rw [iList_newSuperblock, passes_bind, FSProg.passes_blockWrite] at h
    rcases h with (rfl | rfl) | ⟨_, t, hexec, h⟩
    · exact Or.inl rfl
    · exact Or.inr (Or.inl (.maps (Nat.zero_le 64)))
    · rw [FSProg.exec_blockWrite] at hexec
      obtain ⟨-, rfl⟩ := Prod.mk.inj (Option.some.inj hexec)
      rw [passes_bind] at h
      rcases h with h | ⟨_, t, hexec, h⟩
      · obtain ⟨k, hk, rfl⟩ := passes_clearMaps h
        exact Or.inr (Or.inl (.maps hk))
      · rw [FSProg.exec_clearMaps] at hexec
        obtain ⟨-, rfl⟩ := Prod.mk.inj (Option.some.inj hexec)
        rcases passes_makeRoot h with h | h
        · exact Or.inr (Or.inl h)
        · exact Or.inr (Or.inr (Prod.mk.inj (Option.some.inj (h.symm.trans hend))).2)
  next => exact Or.inl (passes_pure.mp h)

/-- The last write of the formatting is the one of the root inode. -/
theorem exists_sfsInit_eq (env : Env) (junk : Memory) (hm : ¬HasMagic d) :
    ∃ buf, sfsInit d env junk = blockWrite (addBlock (formatMaps d) 1089 0 0) 65 buf := by
  have hend := FSProg.exec_sfsInit env junk d
  rw [FSProg.sfsInit, exec_bind, FSProg.exec_blockRead, Option.bind_some] at hend
  dsimp only at hend
  rw [if_pos (show Superblock.magicnum.get (blockRead d 0) 0 ≠ magic from hm), iList_newSuperblock,
    exec_bind, FSProg.exec_blockWrite, Option.bind_some, exec_bind, FSProg.exec_clearMaps,
    Option.bind_some] at hend
  exact ⟨_, (Prod.mk.inj (Option.some.inj (hend.symm.trans (exec_makeRoot_formatMaps d _)))).2⟩

/-- Formatting writes the magic number. -/
theorem hasMagic_sfsInit (d : Disk) (env : Env) (junk : Memory) :
    HasMagic (sfsInit d env junk) := by
  by_cases hm : HasMagic d
  · rw [sfsInit_of_magic hm]
    exact hm
  · obtain ⟨buf, hinit⟩ := exists_sfsInit_eq env junk hm
    rw [hinit]
    refine (hasMagic_formatSuper d).congr fun a ha => ?_
    rw [blockWrite_apply_of_not_mem _ (by omega)]
    exact Unformatted.blockWritten.eq_of_outside (Or.inl ha)

/-- The first data block of a formatted disk is marked. -/
theorem marked_sfsInit (env : Env) (junk : Memory) (hm : ¬HasMagic d) :
    Marked (sfsInit d env junk) 1089 := by
  obtain ⟨buf, hinit⟩ := exists_sfsInit_eq env junk hm
  have haddr := dmapAddr_def 1089
  refine marked_iff.mpr ⟨le_rfl, by decide, ?_⟩
  rw [hinit, blockWrite_apply_of_not_mem _ (by omega), addBlock,
    initDir_maps _ 0 0 le_rfl (by omega),
    markBlock, Function.update_self]
  decide

/-- **Interrupted formatting.** `sfs_init` is cut off after any number of accesses to the disk. It
has not changed the disk, or no later `sfs_init` changes the disk any more, and then the formatting
is complete or the bytes of the root inode are those that were on the disk before. -/
theorem interrupted_format (d : Disk) (env : Env) (junk : Memory) (n : ℕ) :
    let d' := cut diskStep n (FSProg.sfsInit env junk) d
    d' = d ∨ (∀ env' junk', sfsInit d' env' junk' = d') ∧
      (d' = sfsInit d env junk ∨ ∀ a, 33280 ≤ a → a < 33792 → d' a = d a) := by
  intro d'
  rcases passes_sfsInit ⟨n, rfl⟩ with h | h | h
  · exact Or.inl h
  · refine Or.inr ⟨fun env' junk' => sfsInit_of_magic ?_ env' junk', Or.inr fun a ha ha' => ?_⟩
    · exact (hasMagic_formatSuper d).congr fun a ha => h.eq_of_outside (Or.inl ha)
    · exact (h.eq_of_outside (Or.inr ⟨ha, ha'⟩)).trans (formatSuper_apply d (by omega))
  · refine Or.inr ⟨fun env' junk' => sfsInit_of_magic ?_ env' junk', Or.inl h⟩
    rw [show d' = sfsInit d env junk from h]
    exact hasMagic_sfsInit d env junk

end OSDesign.FS
