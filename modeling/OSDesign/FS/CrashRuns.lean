import OSDesign.FS.CrashSafety
import OSDesign.FS.Listing
import OSDesign.FS.Mounting

/-!
# Runs with crashes

The life of a disk: calls of `sfs_create` and `sfs_mkdir` that end, calls that are cut off after any
number of accesses to the disk, and mounts. Every disk that such a run makes of a formatted one has
a catalog and leaks, at most one inode and one block for each call that was cut off, and the catalog
only grows.

## Main definitions

* `FsEvent`, `eventStep`, `cutOffs`.

## Main results

* `leaks_bounded`: a disk is consistent up to as many leaked inodes and blocks as calls were cut
  off.
* `numbers_in_order`: inodes and blocks are handed out in order.
* `interrupted_call_atomic`: a call that is cut off is seen as a whole or not at all.
* `paths_stay`: a path leads to the same inode for ever.
* `listing_grows`: the names in a directory stay in their order, and new ones come behind them.
* `path_unique`: an inode has one path.
-/

namespace OSDesign.FS

open ByteMemory Prog Transition

variable {d d' : Disk} {c c' : Catalog} {L L' : Leaks} {i x : ℕ} {cs : List (List UInt8)}

/-! ### Events -/

/-- The program of a call. -/
def FsCall.prog : FsCall → FSProg ℤ
  | .create path env fuel => FSProg.sfsCreate path.bytes env fuel
  | .mkdir path env fuel => FSProg.sfsMkdir path.bytes env fuel

/-- What happens to a disk. -/
inductive FsEvent
  /-- A call that ends. -/
  | call (call : FsCall)
  /-- A call that is cut off after `n` accesses. -/
  | cutOff (call : FsCall) (n : ℕ)
  /-- `sfs_init`. -/
  | mount (env : Env) (junk : Memory)

/-- The disk after an event. -/
def eventStep (d : Disk) : FsEvent → Option Disk
  | .call call => fsStep d call
  | .cutOff call n => some (cut diskStep n call.prog d)
  | .mount env junk => some (sfsInit d env junk)

/-- The number of calls that are cut off. -/
def cutOffs : List FsEvent → ℕ
  | [] => 0
  | .cutOff .. :: es => cutOffs es + 1
  | _ :: es => cutOffs es

/-! ### One event -/

/-- A call that ends. -/
theorem Leaky.fsStep {call : FsCall} (h : Leaky d c L) (hstep : fsStep d call = some d') :
    Allocates d d' ∧ ∃ c', Leaky d' c' L ∧ Later d c d' c' := by
  have hmake {type : FileType} {path : AbsPath} {env : Env} {fuel : ℕ}
      (hmk : (FS.makeNode type d path.bytes env fuel).map Prod.snd = some d') :
      Allocates d d' ∧ ∃ c', Leaky d' c' L ∧ Later d c d' c' := by
    obtain ⟨⟨ret, d₁⟩, hend, rfl⟩ := Option.map_eq_some_iff.mp hmk
    rcases h.makeNode hend with ⟨-, rfl⟩ | ⟨-, htakes, c', hleaky, hlater⟩
    · exact ⟨Or.inl rfl, c, h, .refl d₁ c⟩
    · exact ⟨Or.inr htakes, c', hleaky, hlater⟩
  cases call with
  | create path env fuel => exact hmake hstep
  | mkdir path env fuel => exact hmake hstep

/-- A call that is cut off has ended, or plain names lead where they led. -/
theorem Leaky.passes_prog {call : FsCall} (h : Leaky d c L)
    (hcut : Passes diskStep call.prog d d') :
    FS.fsStep d call = some d' ∨ Allocates d d' ∧
    ∃ c' L', Leaky d' c' L' ∧ L'.inodes.card ≤ L.inodes.card + 1 ∧ Later d c d' c' ∧
      ∀ i ∈ c.reserved, ∀ nm, Catalog.Plain nm → c'.child i nm = c.child i nm := by
  cases call with
  | create path env fuel =>
    refine (h.passes hcut).imp_left fun hend => ?_
    rw [FS.fsStep, sfsCreate, hend]
    rfl
  | mkdir path env fuel =>
    refine (h.passes hcut).imp_left fun hend => ?_
    rw [FS.fsStep, sfsMkdir, hend]
    rfl

theorem Leaky.event {e : FsEvent} (h : Leaky d c L) (hm : HasMagic d)
    (hstep : eventStep d e = some d') :
    Allocates d d' ∧ ∃ c' L', Leaky d' c' L' ∧ HasMagic d' ∧ Later d c d' c' ∧
      L'.inodes.card ≤ L.inodes.card + cutOffs [e] := by
  have hmagic {c' : Catalog} (hl : Later d c d' c') : HasMagic d' := hm.congr hl.keeps.boot
  cases e with
  | call call =>
    obtain ⟨halloc, c', hleaky, hlater⟩ := h.fsStep hstep
    exact ⟨halloc, c', L, hleaky, hmagic hlater, hlater, le_rfl⟩
  | cutOff call n =>
    rcases h.passes_prog ⟨n, Option.some.inj hstep⟩ with
      hend | ⟨halloc, c', L', hleaky, hcard, hlater, -⟩
    · obtain ⟨halloc, c', hleaky, hlater⟩ := h.fsStep hend
      exact ⟨halloc, c', L, hleaky, hmagic hlater, hlater, Nat.le_succ _⟩
    · exact ⟨halloc, c', L', hleaky, hmagic hlater, hlater, hcard⟩
  | mount env junk =>
    rw [eventStep, sfsInit_of_magic hm] at hstep
    obtain rfl := Option.some.inj hstep
    exact ⟨Or.inl rfl, c, L, h, hm, .refl d c, le_rfl⟩

/-! ### Runs -/

theorem cutOffs_cons (e : FsEvent) (es : List FsEvent) :
    cutOffs (e :: es) = cutOffs [e] + cutOffs es := by
  cases e with
  | call call => exact (Nat.zero_add _).symm
  | cutOff call n => exact Nat.add_comm ..
  | mount env junk => exact (Nat.zero_add _).symm

theorem Leaky.run {es : List FsEvent} (h : Leaky d c L) (hm : HasMagic d)
    (hrun : run eventStep d es = some d') :
    ∃ c' L', Leaky d' c' L' ∧ HasMagic d' ∧ Later d c d' c' ∧
      L'.inodes.card ≤ L.inodes.card + cutOffs es := by
  induction es generalizing d c L with
  | nil =>
    obtain rfl := Option.some.inj hrun
    exact ⟨c, L, h, hm, .refl d c, le_rfl⟩
  | cons e es ih =>
    obtain ⟨d₁, hstep, hrest⟩ := Option.bind_eq_some_iff.mp hrun
    obtain ⟨-, c₁, L₁, h₁, hm₁, hlater₁, hcard₁⟩ := h.event hm hstep
    obtain ⟨c', L', h', hm', hlater, hcard⟩ := ih h₁ hm₁ hrest
    refine ⟨c', L', h', hm', hlater₁.trans hlater h.tree, ?_⟩
    rw [cutOffs_cons]
    omega

theorem tree_rootCatalog (b : ℕ) : (rootCatalog b).Tree := by
  have hslot (j : ℕ) (hj : j ≠ 0) : (rootCatalog b).slot 0 j = none :=
    (slot_rootCatalog b j).trans (Function.update_of_ne hj ..)
  constructor
  · exact rootCatalog_wf b
  · rintro p j ⟨rfl, hord, name, hname⟩
    have hj : j ≠ 0 := by
      rintro rfl
      rcases hord with hord | hord <;> omega
    rw [hslot j hj] at hname
    cases hname
  · rintro x rfl
    exact .root
  · rintro p rfl j k hjk hk
    exact absurd (hslot k (by omega)) hk

/-- A formatted disk has no leaks. -/
theorem exists_leaky_sfsInit (env : Env) (junk : Memory) (hm : ¬HasMagic d) :
    ∃ b, Leaky (sfsInit d env junk) (rootCatalog b) Leaks.none := by
  obtain ⟨b, hrep⟩ := represents_sfsInit env junk hm
  refine ⟨b, ?_, tree_rootCatalog b, fun i hi => ?_, fun b hb => ?_, le_rfl⟩
  · rwa [Leaks.clear, show Leaks.none.addrs = ∅ from rfl, clear_empty]
  · exact absurd hi (Finset.notMem_empty i)
  · exact absurd hb (Finset.notMem_empty b)

/-- Every disk of a run has a catalog and leaks. -/
theorem exists_leaky_of_run {d₀ : Disk} {env : Env} {junk : Memory} {es : List FsEvent}
    (hm : ¬HasMagic d₀) (hrun : Transition.run eventStep (sfsInit d₀ env junk) es = some d) :
    ∃ c L, Leaky d c L ∧ HasMagic d ∧ L.inodes.card ≤ cutOffs es := by
  obtain ⟨b, h₀⟩ := exists_leaky_sfsInit env junk hm
  obtain ⟨c, L, h, hmagic, -, hcard⟩ := h₀.run (hasMagic_sfsInit d₀ env junk) hrun
  exact ⟨c, L, h, hmagic, by rwa [show Leaks.none.inodes.card = 0 from rfl, Nat.zero_add] at hcard⟩

/-- `/a` is made, after a first call was cut off when it had marked an inode. -/
def interruptedMkdir : List FsEvent :=
  [.cutOff (.mkdir pathA ⟨0, 0, 0⟩ 1) 6, .call (.mkdir pathA ⟨0, 0, 0⟩ 1)]

/-- The first `n` inodes are reserved and the first `m` data blocks are marked, and no others. -/
structure Dense (d : Disk) (n m : ℕ) : Prop where
  inode : ∀ i, Reserved d i ↔ i < n
  block : ∀ b, Marked d b ↔ 1089 ≤ b ∧ b < 1089 + m

theorem Dense.nextInode {n m : ℕ} (h : Dense d n m) (hx : NextInode d x) : x = n := by
  have hle : n ≤ x := Nat.le_of_not_lt fun hlt => hx.free ((h.inode x).mpr hlt)
  refine le_antisymm (Nat.le_of_not_lt fun hlt => ?_) hle
  exact Nat.lt_irrefl n ((h.inode n).mp (hx.before n hlt))

theorem Dense.nextBlock {n m b : ℕ} (h : Dense d n m) (hb : NextBlock d b) : b = 1089 + m := by
  have hle : 1089 + m ≤ b :=
    Nat.le_of_not_lt fun hlt => hb.free ((h.block b).mpr ⟨hb.range.1, hlt⟩)
  refine le_antisymm (Nat.le_of_not_lt fun hlt => ?_) hle
  exact Nat.lt_irrefl _ ((h.block (1089 + m)).mp (hb.before _ (Nat.le_add_right ..) hlt)).2

/-- A call takes the next numbers. -/
theorem Dense.takes {n m : ℕ} (h : Dense d n m) (hx : NextInode d x) (ht : Takes d d' x) :
    Dense d' (n + 1) m ∨ Dense d' (n + 1) (m + 1) := by
  have hinode (i : ℕ) : Reserved d' i ↔ i < n + 1 := by
    rw [ht.inode, h.inode, h.nextInode hx]
    omega
  refine ht.block.imp (fun hsame => ⟨hinode, fun y => ?_⟩) ?_
  · rw [hsame, h.block]
  · rintro ⟨b, hb, hnew⟩
    refine ⟨hinode, fun y => ?_⟩
    rw [hnew, h.block, h.nextBlock hb]
    omega

theorem dense_sfsInit (env : Env) (junk : Memory) (hm : ¬HasMagic d) :
    Dense (sfsInit d env junk) 1 1 := by
  obtain ⟨b, hrep⟩ := represents_sfsInit env junk hm
  obtain rfl : 1089 = b := (hrep.marked 1089).mpr (marked_sfsInit env junk hm)
  refine ⟨fun i => ?_, fun y => ?_⟩
  · rw [← hrep.reserved]
    exact Nat.lt_one_iff.symm
  · rw [← hrep.marked]
    exact (show y = 1089 ↔ _ by omega)

/-- Runs take the next numbers. -/
theorem Leaky.dense_run {es : List FsEvent} {n m : ℕ} (h : Leaky d c L) (hm : HasMagic d)
    (hdense : Dense d n m) (hle : m ≤ n) (hrun : Transition.run eventStep d es = some d') :
    ∃ n' m', Dense d' n' m' ∧ m' ≤ n' ∧ n ≤ n' ∧ n' ≤ n + es.length ∧ m ≤ m' := by
  induction es generalizing d c L n m with
  | nil =>
    obtain rfl := Option.some.inj hrun
    exact ⟨n, m, hdense, hle, le_rfl, le_rfl, le_rfl⟩
  | cons e es ih =>
    obtain ⟨d₁, hstep, hrest⟩ := Option.bind_eq_some_iff.mp hrun
    obtain ⟨halloc, c₁, L₁, h₁, hm₁, -⟩ := h.event hm hstep
    obtain ⟨n₁, m₁, hd₁, hle₁, hn₁, hn₁', hm₁'⟩ : ∃ n₁ m₁, Dense d₁ n₁ m₁ ∧ m₁ ≤ n₁ ∧
        n ≤ n₁ ∧ n₁ ≤ n + 1 ∧ m ≤ m₁ := by
      rcases halloc with rfl | ⟨x, hx, htakes⟩
      · exact ⟨n, m, hdense, hle, le_rfl, Nat.le_succ n, le_rfl⟩
      · rcases hdense.takes hx htakes with hd₁ | hd₁
        · exact ⟨n + 1, m, hd₁, by omega, Nat.le_succ n, le_rfl, le_rfl⟩
        · exact ⟨n + 1, m + 1, hd₁, by omega, Nat.le_succ n, le_rfl, Nat.le_succ m⟩
    obtain ⟨n', m', hd', hle', hn', hn'', hm'⟩ := ih h₁ hm₁ hd₁ hle₁ hrest
    refine ⟨n', m', hd', hle', hn₁.trans hn', ?_, hm₁'.trans hm'⟩
    rw [List.length_cons]
    omega

/-- **Numbers in order.** After any calls, calls that are cut off and mounts, the reserved inodes
are the first `n` and the marked data blocks the first `m` ones, at most one for an inode. Whatever
comes then, these stay and the next ones are added, at most one inode for each event: numbers are
handed out in order, without gaps, and none is handed out twice. -/
theorem numbers_in_order {d₀ : Disk} {env : Env} {junk : Memory} {es fs : List FsEvent}
    (hm : ¬HasMagic d₀) (hrun : run eventStep (sfsInit d₀ env junk) es = some d)
    (hrun' : run eventStep d fs = some d') :
    ∃ n m n' m', Dense d n m ∧ m ≤ n ∧ n ≤ es.length + 1 ∧
      Dense d' n' m' ∧ m' ≤ n' ∧ n ≤ n' ∧ n' ≤ n + fs.length ∧ m ≤ m' := by
  obtain ⟨b, h₀⟩ := exists_leaky_sfsInit env junk hm
  obtain ⟨n, m, hdense, hle, -, hn, -⟩ :=
    h₀.dense_run (hasMagic_sfsInit d₀ env junk) (dense_sfsInit env junk hm) le_rfl hrun
  obtain ⟨c, L, h, hmagic, -⟩ := exists_leaky_of_run hm hrun
  obtain ⟨n', m', hdense', hle', hn', hn'', hm'⟩ := h.dense_run hmagic hdense hle hrun'
  exact ⟨n, m, n', m', hdense, hle, by omega, hdense', hle', hn', hn'', hm'⟩

/-- The call that is cut off and the one after it take the inodes 1 and 2. -/
theorem numbers_in_order_interrupted :
    ∃ d d', run eventStep (sfsInit (fun _ => 0) ⟨0, 0, 0⟩ fun _ => 1) (interruptedMkdir.take 1) =
        some d ∧ run eventStep d (interruptedMkdir.drop 1) = some d' ∧
      Reserved d 1 ∧ ¬Reserved d 2 ∧ Reserved d' 2 ∧
      ∃ n m n' m', Dense d n m ∧ m ≤ n ∧ n ≤ 2 ∧
        Dense d' n' m' ∧ m' ≤ n' ∧ n ≤ n' ∧ n' ≤ n + 1 ∧ m ≤ m' := by
  have hend : ((run eventStep (sfsInit (fun _ => 0) ⟨0, 0, 0⟩ fun _ => 1)
      (interruptedMkdir.take 1)).bind fun d => (run eventStep d (interruptedMkdir.drop 1)).map
      fun d' => (d (imapAddr 1), d (imapAddr 2), d' (imapAddr 2))) = some (1, 0, 1) := by
    decide +kernel
  obtain ⟨d, hd, hend⟩ := Option.bind_eq_some_iff.mp hend
  obtain ⟨d', hd', hbytes⟩ := Option.map_eq_some_iff.mp hend
  simp only [Prod.mk.injEq] at hbytes
  obtain ⟨h₁, h₂, h₂'⟩ := hbytes
  refine ⟨d, d', hd, hd', ?_, ?_, ?_, numbers_in_order (by decide) hd hd'⟩
  · rw [reserved_iff, h₁]
    decide
  · rw [reserved_iff, h₂]
    decide
  · rw [reserved_iff, h₂']
    decide

/-! ### A call that is cut off -/

namespace Leaky

/-- The inode reached when missing components are left out. -/
theorem mem_skipWalk (h : Leaky d c L) (hi : i ∈ c.reserved) (cs : List (List UInt8)) :
    skipWalk d i cs ∈ c.reserved := by
  induction cs generalizing i with
  | nil => exact hi
  | cons nm cs ih =>
    refine ih ?_
    rw [h.child_eq hi]
    cases hx : c.child i nm with
    | none => exact hi
    | some y => exact h.tree.wf.reserved_child hi hx

/-- `sfs_getattr` on a path of components. -/
theorem sfsGetattr_absolute (h : Leaky d c L) (hcs : ∀ nm ∈ cs, IsComponent nm)
    (hlen : (absolute cs).length < 10000) :
    sfsGetattr d (absolute cs) =
      (cs.getLast?.elim (some 0) (child d (skipWalk d 0 cs.dropLast))).elim (-2, none)
        fun x => (0, some ⟨x, mode d x, 1, 512⟩) := by
  have hroot := h.tree.wf.root_reserved
  rw [sfsGetattr, navPath_absolute h.super]
  by_cases hne : cs = []
  · subst hne
    rw [navPath_of_length_le_one h.super 0 0 (pathOf []) (Nat.zero_le 1)]
    dsimp only
    rw [if_neg (by decide), show Inode.stIno.get (getInode d 0) 0 = 0 from h.ino_eq hroot]
    rfl
  · have hlen' : (pathOf cs).length < 10000 := (length_pathOf_le cs).trans_lt hlen
    have hp := h.mem_skipWalk hroot cs.dropLast
    simp only [navPath_pathOf h.super 0 0 hne hcs hlen', List.getLast?_eq_some_getLast hne,
      Option.elim_some]
    cases hx : child d (skipWalk d 0 cs.dropLast) (cs.getLast hne) with
    | none => rfl
    | some x =>
      have hxr : x ∈ c.reserved := h.tree.wf.reserved_child hp ((h.child_eq hp _).symm.trans hx)
      rw [Option.isSome_some, if_pos rfl, if_neg (by decide), Option.getD_some,
        show Inode.stIno.get (getInode d x) 0 = x from h.ino_eq hxr]
      rfl

/-- Where plain names lead to the same inodes, paths of plain names do. -/
theorem sfsGetattr_congr (h : Leaky d c L) (h' : Leaky d' c' L') (hlater : Later d c d' c')
    (hchild : ∀ i ∈ c.reserved, ∀ nm, Catalog.Plain nm → c'.child i nm = c.child i nm)
    (hcs : ∀ nm ∈ cs, IsComponent nm ∧ Catalog.Plain nm) (hlen : (absolute cs).length < 10000) :
    sfsGetattr d' (absolute cs) = sfsGetattr d (absolute cs) := by
  have hsub := (h.tree.steps hlater.steps).2.reserved
  have hroot := h.tree.wf.root_reserved
  have hchild' {i : ℕ} (hi : i ∈ c.reserved) {nm : List UInt8} (hnm : Catalog.Plain nm) :
      child d' i nm = child d i nm := by
    rw [h'.child_eq (hsub hi), hchild i hi nm hnm, h.child_eq hi]
  have hskip : ∀ {i : ℕ} {ns : List (List UInt8)}, i ∈ c.reserved → (∀ nm ∈ ns, Catalog.Plain nm) →
      skipWalk d' i ns = skipWalk d i ns := by
    intro i ns hi hns
    induction ns generalizing i with
    | nil => rfl
    | cons nm ns ih =>
      have hnm := hns nm List.mem_cons_self
      rw [skipWalk, skipWalk, hchild' hi hnm]
      refine ih ?_ fun n hn => hns n (List.mem_cons_of_mem nm hn)
      exact h.mem_skipWalk hi [nm]
  have hp : skipWalk d' 0 cs.dropLast = skipWalk d 0 cs.dropLast :=
    hskip hroot fun nm hnm => (hcs nm (List.dropLast_subset cs hnm)).2
  have hpr := h.mem_skipWalk hroot cs.dropLast
  rw [h'.sfsGetattr_absolute (fun nm hnm => (hcs nm hnm).1) hlen,
    h.sfsGetattr_absolute (fun nm hnm => (hcs nm hnm).1) hlen, hp]
  cases hlast : cs.getLast? with
  | none =>
    simp only [Option.elim_none, Option.elim_some, hlater.keeps.mode 0 hroot]
  | some nm =>
    have hnm : nm ∈ cs := List.mem_of_getLast? hlast
    rw [Option.elim_some, Option.elim_some, hchild' hpr (hcs nm hnm).2]
    cases hx : child d (skipWalk d 0 cs.dropLast) nm with
    | none => rfl
    | some x =>
      have hxr : x ∈ c.reserved := h.tree.wf.reserved_child hpr ((h.child_eq hpr _).symm.trans hx)
      rw [Option.elim_some, Option.elim_some, hlater.keeps.mode x hxr]

end Leaky

/-- **All or nothing.** On every disk that is reached with crashes, a call that is cut off after any
number of accesses leaves the disk that it would have left at its end, or one on which `sfs_getattr`
returns the same as before for every path of components other than `.` and `..`. -/
theorem interrupted_call_atomic {d₀ : Disk} {env : Env} {junk : Memory} {es : List FsEvent}
    (hm : ¬HasMagic d₀) (hrun : run eventStep (sfsInit d₀ env junk) es = some d) (call : FsCall)
    (n : ℕ) :
    fsStep d call = some (cut diskStep n call.prog d) ∨
    ∀ cs, (∀ nm ∈ cs, IsComponent nm ∧ Catalog.Plain nm) → (absolute cs).length < 10000 →
      sfsGetattr (cut diskStep n call.prog d) (absolute cs) = sfsGetattr d (absolute cs) := by
  obtain ⟨c, L, h, -⟩ := exists_leaky_of_run hm hrun
  refine (h.passes_prog ⟨n, rfl⟩).imp_right ?_
  rintro ⟨-, c', L', h', -, hlater, hchild⟩ cs hcs hlen
  exact h.sfsGetattr_congr h' hlater hchild hcs hlen

/-- On a disk with the empty directory `/a` a call for `/a/b` is cut off when it has written the
inode and given the directory its block. -/
theorem interrupted_call_atomic_nested :
    ∃ d, run eventStep (sfsInit (fun _ => 0) ⟨0, 0, 0⟩ fun _ => 1)
        [.call (.mkdir pathA ⟨0, 0, 0⟩ 1)] = some d ∧
      mode (cut diskStep 18 (FsCall.create pathAB ⟨0, 0, 0⟩ 1).prog d) 2 = 33206 ∧
      sfsGetattr (cut diskStep 18 (FsCall.create pathAB ⟨0, 0, 0⟩ 1).prog d)
        (absolute [[97], [98]]) = (-2, none) := by
  have hend : (run eventStep (sfsInit (fun _ => 0) ⟨0, 0, 0⟩ fun _ => 1)
      [.call (.mkdir pathA ⟨0, 0, 0⟩ 1)]).map (fun d =>
        (mode (cut diskStep 18 (FsCall.create pathAB ⟨0, 0, 0⟩ 1).prog d) 2,
          (sfsGetattr d (absolute [[97], [98]])).1,
          (sfsGetattr d (absolute [[97], [98]])).2.isNone,
          (fsStep d (.create pathAB ⟨0, 0, 0⟩ 1)).map fun d' => child d' 1 [98],
          child (cut diskStep 18 (FsCall.create pathAB ⟨0, 0, 0⟩ 1).prog d) 1 [98])) =
      some (33206, -2, true, some (some 2), none) := by
    decide +kernel
  obtain ⟨d, hd, hproj⟩ := Option.map_eq_some_iff.mp hend
  simp only [Prod.mk.injEq] at hproj
  obtain ⟨hmode, hret, hnone, hdone, hcut⟩ := hproj
  have hcs : ∀ nm ∈ [[(97 : UInt8)], [98]], IsComponent nm ∧ Catalog.Plain nm := by
    intro nm hnm
    rcases List.mem_pair.mp hnm with rfl | rfl
    · exact ⟨isComponent_of_letter (by decide) (by decide), by decide, by decide⟩
    · exact ⟨isComponent_of_letter (by decide) (by decide), by decide, by decide⟩
  refine ⟨d, hd, hmode, ?_⟩
  rcases interrupted_call_atomic (by decide) hd (.create pathAB ⟨0, 0, 0⟩ 1) 18 with hend | hsame
  · -- the call that has ended has entered the name
    rw [hend, Option.map_some, hcut] at hdone
    cases Option.some.inj hdone
  · rw [hsame [[97], [98]] hcs (by decide)]
    exact Prod.ext hret (Option.isNone_iff_eq_none.mp hnone)

/-! ### What later disks keep -/

namespace Leaky

theorem walk_eq (h : Leaky d c L) (hi : i ∈ c.reserved) (cs : List (List UInt8)) :
    walk d i cs = c.walk i cs := by
  induction cs generalizing i with
  | nil => rfl
  | cons nm cs ih =>
    rw [walk, Catalog.walk, run_cons, run_cons, h.child_eq hi]
    cases hx : c.child i nm with
    | none => rfl
    | some y => exact ih (h.tree.wf.reserved_child hi hx)

/-- A path whose components exist in turn. -/
theorem resolves (h : Leaky d c L) (hcs : ∀ nm ∈ cs, IsComponent nm)
    (hlen : (absolute cs).length < 10000) (hwalk : walk d 0 cs = some x) :
    x ∈ c.reserved ∧ Resolves d (absolute cs) x (mode d x) := by
  have hroot := h.tree.wf.root_reserved
  have hx : x ∈ c.reserved := h.tree.wf.reserved_walk hroot ((h.walk_eq hroot cs).symm.trans hwalk)
  refine ⟨hx, fun par targ => ?_⟩
  obtain ⟨p, -, hnav⟩ :=
    navPath_of_walk h.super par targ hcs ((length_pathOf_le cs).trans_lt hlen) hwalk
  exact ⟨_, _, (navPath_absolute h.super par targ cs).trans hnav, h.ino_eq hx, rfl⟩

/-- The entries of a directory in the order of the catalog. -/
theorem dirList_eq (h : Leaky d c L) (hi : i ∈ c.reserved) :
    dirList d i = (List.range dirEntries).filterMap (c.slot i) := by
  have hres := (h.represents.reserved i).mp hi
  rw [← h.dirList_clear hi, h.represents.dirList_eq hres]
  have hblock := h.represents.block i hres
  by_cases hptr : directp (L.clear d) i 0 = 0
  · rw [firstBlock_eq_none hptr] at hblock
    rw [if_pos hptr]
    refine (List.filterMap_eq_nil_iff.mpr fun j _ => ?_).symm
    rw [Catalog.slot, hblock, Option.bind_none]
  · rw [firstBlock_eq_some hptr] at hblock
    have hmarked := (h.represents.marked _).mp (h.tree.wf.block_marked i hi _ hblock)
    rw [if_neg hptr]
    refine List.filterMap_congr fun j _ => ?_
    rw [Catalog.slot, hblock, Option.bind_some, h.represents.entry _ hmarked]
    rfl

end Leaky

/-- The values of `f`, of which the first ones are there, come first among those of `g`. -/
theorem filterMap_range_grows {α : Type*} {f g : ℕ → Option α}
    (hpacked : ∀ j k, j < k → f k ≠ none → f j ≠ none) (hext : ∀ j e, f j = some e → g j = some e)
    (n : ℕ) : (List.range n).filterMap f <+: (List.range n).filterMap g := by
  induction n with
  | zero => exact List.prefix_rfl
  | succ n ih =>
    rw [List.range_succ, List.filterMap_append, List.filterMap_append]
    cases hn : f n with
    | none =>
      rw [List.filterMap_cons_none hn, List.filterMap_nil, List.append_nil]
      exact ih.trans (List.prefix_append ..)
    | some e =>
      have hsame : (List.range n).filterMap f = (List.range n).filterMap g := by
        refine List.filterMap_congr fun j hj => ?_
        obtain ⟨e', he'⟩ := Option.ne_none_iff_exists'.mp
          (hpacked j n (List.mem_range.mp hj) (hn ▸ Option.some_ne_none e))
        rw [he', hext j e' he']
      rw [hsame, List.filterMap_cons_some hn, List.filterMap_cons_some (hext n e hn)]
      exact List.prefix_rfl

/-- The names that `sfs_readdir` passes to a filler that takes all. -/
theorem sfsReaddir_of_resolves {path : List UInt8} (targ : Inode)
    (hnav : ∃ p, navPath d 0 targ path = (0, p, getInode d x)) (hdir : isDir (mode d x) = true) :
    sfsReaddir d targ path (fun _ _ => 0) = (0, (dirList d x).map Prod.snd) := by
  obtain ⟨p, hnav⟩ := hnav
  rw [sfsReaddir, hnav, map_dirList]
  dsimp only
  rw [show isDir (Inode.stMode.get (getInode d x) 0) = true from hdir, if_neg (by decide),
    fillNames_eq (fun _ _ => rfl), List.nil_append]

/-- **Paths stay.** A path whose components exist in turn leads to the same inode, with the same
mode, after any further calls, calls that are cut off and mounts. -/
theorem paths_stay {d₀ : Disk} {env : Env} {junk : Memory} {es es' : List FsEvent}
    (hm : ¬HasMagic d₀)
    (hrun : run eventStep (sfsInit d₀ env junk) es = some d)
    (hrun' : run eventStep d es' = some d') (hcs : ∀ nm ∈ cs, IsComponent nm)
    (hlen : (absolute cs).length < 10000) (hwalk : walk d 0 cs = some x) :
    ∃ mode, Resolves d (absolute cs) x mode ∧ Resolves d' (absolute cs) x mode := by
  obtain ⟨c, L, h, hmagic, -⟩ := exists_leaky_of_run hm hrun
  obtain ⟨c', L', h', -, hlater, -⟩ := h.run hmagic hrun'
  have hroot := h.tree.wf.root_reserved
  have hext := (h.tree.steps hlater.steps).2
  obtain ⟨hx, hres⟩ := h.resolves hcs hlen hwalk
  have hwalk' : walk d' 0 cs = some x := by
    rw [h'.walk_eq (hext.reserved hroot)]
    exact h.tree.walk_of_extends hext hroot ((h.walk_eq hroot cs).symm.trans hwalk)
  refine ⟨mode d x, hres, ?_⟩
  rw [← hlater.keeps.mode x hx]
  exact (h'.resolves hcs hlen hwalk').2

/-- A call for `/a/b` is cut off when it has given `/a` a block, and repeated after a mount. -/
def interruptedCreate : List FsEvent :=
  [.cutOff (.create pathAB ⟨0, 0, 0⟩ 1) 19, .mount ⟨0, 0, 0⟩ (fun _ => 0),
    .call (.create pathAB ⟨0, 0, 0⟩ 1)]

/-- What the two runs lead to. -/
theorem exists_run_interrupted :
    ∃ d d', run eventStep (sfsInit (fun _ => 0) ⟨0, 0, 0⟩ fun _ => 1) interruptedMkdir = some d ∧
      run eventStep d interruptedCreate = some d' ∧ walk d 0 [[97]] = some 2 ∧
      isDir (mode d 2) = true ∧ walk d' 0 [[97], [98]] = some 4 ∧
      (sfsReaddir d' 0 [slash] fun _ _ => 0).2 = [[dot], [97]] := by
  have hend : ((run eventStep (sfsInit (fun _ => 0) ⟨0, 0, 0⟩ fun _ => 1) interruptedMkdir).bind
      fun d => (run eventStep d interruptedCreate).map fun d' =>
        (walk d 0 [[97]], isDir (mode d 2), walk d' 0 [[97], [98]],
          (sfsReaddir d' 0 [slash] fun _ _ => 0).2)) =
      some (some 2, true, some 4, [[dot], [97]]) := by
    decide +kernel
  obtain ⟨d, hd, hrest⟩ := Option.bind_eq_some_iff.mp hend
  obtain ⟨d', hd', hproj⟩ := Option.map_eq_some_iff.mp hrest
  simp only [Prod.mk.injEq] at hproj
  exact ⟨d, d', hd, hd', hproj⟩

theorem paths_stay_interrupted :
    ∃ d d', run eventStep (sfsInit (fun _ => 0) ⟨0, 0, 0⟩ fun _ => 1) interruptedMkdir = some d ∧
      run eventStep d interruptedCreate = some d' ∧
      ∃ mode, Resolves d (absolute [[97]]) 2 mode ∧ Resolves d' (absolute [[97]]) 2 mode := by
  obtain ⟨d, d', hd, hd', hwalk, -⟩ := exists_run_interrupted
  refine ⟨d, d', hd, hd', paths_stay (by decide) hd hd' (fun nm hnm => ?_) (by decide) hwalk⟩
  obtain rfl := List.mem_singleton.mp hnm
  exact isComponent_of_letter (by decide) (by decide)

/-- **Listings grow at the end.** The names that `sfs_readdir` lists in a directory are the first
ones that it lists there after any further calls, calls that are cut off and mounts. -/
theorem listing_grows {d₀ : Disk} {env : Env} {junk : Memory} {es es' : List FsEvent}
    (hm : ¬HasMagic d₀)
    (hrun : run eventStep (sfsInit d₀ env junk) es = some d)
    (hrun' : run eventStep d es' = some d') (hcs : ∀ nm ∈ cs, IsComponent nm)
    (hlen : (absolute cs).length < 10000) (hwalk : walk d 0 cs = some x)
    (hdir : isDir (mode d x) = true) (targ : Inode) :
    (sfsReaddir d targ (absolute cs) fun _ _ => 0).2 <+:
      (sfsReaddir d' targ (absolute cs) fun _ _ => 0).2 := by
  obtain ⟨c, L, h, hmagic, -⟩ := exists_leaky_of_run hm hrun
  obtain ⟨c', L', h', -, hlater, -⟩ := h.run hmagic hrun'
  have hroot := h.tree.wf.root_reserved
  have hext := (h.tree.steps hlater.steps).2
  have hx := (h.resolves hcs hlen hwalk).1
  have hwalk' : walk d' 0 cs = some x := by
    rw [h'.walk_eq (hext.reserved hroot)]
    exact h.tree.walk_of_extends hext hroot ((h.walk_eq hroot cs).symm.trans hwalk)
  have hnav {d : Disk} (hs : SuperOk d) (hw : walk d 0 cs = some x) :
      ∃ p, navPath d 0 targ (absolute cs) = (0, p, getInode d x) := by
    obtain ⟨p, -, hp⟩ := navPath_of_walk hs 0 targ hcs ((length_pathOf_le cs).trans_lt hlen) hw
    exact ⟨_, (navPath_absolute hs 0 targ cs).trans hp⟩
  rw [sfsReaddir_of_resolves targ (hnav h.super hwalk) hdir,
    sfsReaddir_of_resolves targ (hnav h'.super hwalk') ((hlater.keeps.mode x hx).symm ▸ hdir),
    h.dirList_eq hx, h'.dirList_eq (hext.reserved hx)]
  exact (filterMap_range_grows (h.tree.packed x hx) (hext.slot x hx) dirEntries).map Prod.snd

theorem listing_grows_interrupted :
    ∃ d d', run eventStep (sfsInit (fun _ => 0) ⟨0, 0, 0⟩ fun _ => 1) interruptedMkdir = some d ∧
      run eventStep d interruptedCreate = some d' ∧
      (sfsReaddir d 0 (absolute [[97]]) fun _ _ => 0).2 <+:
        (sfsReaddir d' 0 (absolute [[97]]) fun _ _ => 0).2 := by
  obtain ⟨d, d', hd, hd', hwalk, hdir, -⟩ := exists_run_interrupted
  refine ⟨d, d', hd, hd', listing_grows (by decide) hd hd' (fun nm hnm => ?_) (by decide)
    hwalk hdir 0⟩
  obtain rfl := List.mem_singleton.mp hnm
  exact isComponent_of_letter (by decide) (by decide)

/-- **One path.** Two paths of components other than `.` and `..` that lead to the same inode are
equal. -/
theorem path_unique {d₀ : Disk} {env : Env} {junk : Memory} {es : List FsEvent} (hm : ¬HasMagic d₀)
    (hrun : run eventStep (sfsInit d₀ env junk) es = some d) {cs' : List (List UInt8)}
    (hcs : ∀ nm ∈ cs, Catalog.Plain nm)
    (hcs' : ∀ nm ∈ cs', Catalog.Plain nm) (hwalk : walk d 0 cs = some x)
    (hwalk' : walk d 0 cs' = some x) : cs = cs' := by
  obtain ⟨c, L, h, -⟩ := exists_leaky_of_run hm hrun
  have hroot := h.tree.wf.root_reserved
  rw [h.walk_eq hroot] at hwalk hwalk'
  exact h.tree.walk_inj hcs hcs' hwalk hwalk'

/-- No other path of plain names leads to the inode of `/a`. -/
theorem path_unique_interrupted :
    ∃ d, run eventStep (sfsInit (fun _ => 0) ⟨0, 0, 0⟩ fun _ => 1) interruptedMkdir = some d ∧
      walk d 0 [[97]] = some 2 ∧
      ∀ cs, (∀ nm ∈ cs, Catalog.Plain nm) → walk d 0 cs = some 2 → cs = [[97]] := by
  obtain ⟨d, -, hd, -, hwalk, -⟩ := exists_run_interrupted
  refine ⟨d, hd, hwalk, fun cs hcs hcs' => path_unique (by decide) hd hcs (fun nm hnm => ?_)
    hcs' hwalk⟩
  obtain rfl := List.mem_singleton.mp hnm
  exact ⟨by decide, by decide⟩

end OSDesign.FS
