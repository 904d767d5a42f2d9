import Mathlib.Data.List.TakeWhile
import OSDesign.FS.PathScan
import OSDesign.FS.Refinement

/-!
# The arrays for names

`navPath` copies every component of a path to the array `currname`, `sfs_create` and `sfs_mkdir`
copy the name of the new file to `fn`, and `updateDir` copies it to an entry of the directory. The
arrays have `MAX_FNAME` bytes, and none of the copies looks at the length. `sfs_create` and
`sfs_mkdir` refuse paths of 255 bytes and more, which is not the length that matters.

`nameWrites` lists the indices at which a call writes to these arrays. Which components `navPath`
copies depends on the path only: all of them, up to the pass at which `failcounter` stops the loop,
and except for empty ones at the end (`currname_short_iff`).

## Main definitions

* `components`: the components of a path from an index on.
* `PathCall`, `nameWrites`, `Rejects`, `Guarded`, `Storable`.

## Main results

* `name_buffers_iff`: when a call stays inside the arrays.
-/

namespace OSDesign.FS

open ByteMemory

/-! ### The components that are copied -/

/-- The components of the path from `path[i]` on. -/
def components (path : List UInt8) (i : ℕ) : List (List UInt8) := (path.drop i).splitOn slash

section Components

variable {d : Disk} {iList i n m : ℕ} {path : List UInt8} {t : Inode}

/-- The component that a pass copies is the first one; the others follow behind a slash. -/
theorem components_cases (hnul : 0 ∉ path) (i : ℕ) :
    (path.length ≤ i + (currname path i).length ∧ components path i = [currname path i]) ∨
    charAt path (i + (currname path i).length) = slash ∧
      components path i =
        currname path i :: components path (i + (currname path i).length + 1) := by
  have hsplit : currname path i ++ (path.drop i).dropWhile (fun c => c != slash && c != 0) =
      path.drop i := List.takeWhile_append_dropWhile
  have hno : ∀ a ∈ currname path i, (a == slash) = false := by
    intro a ha
    have := List.mem_takeWhile_imp ha
    rw [Bool.and_eq_true, bne_iff_ne] at this
    exact beq_eq_false_iff_ne.mpr this.1
  cases hrest : (path.drop i).dropWhile fun c => c != slash && c != 0 with
  | nil =>
    rw [hrest, List.append_nil] at hsplit
    refine Or.inl ⟨?_, ?_⟩
    · have := congrArg List.length hsplit
      rw [List.length_drop] at this
      omega
    · rw [components, ← hsplit, List.splitOn, List.splitOnP_eq_singleton hno]
  | cons a rest =>
    rw [hrest] at hsplit
    have hslash : a = slash := by
      have hmem : a ∈ path :=
        List.mem_of_mem_drop (hsplit ▸ List.mem_append_right _ List.mem_cons_self)
      have hne : (path.drop i).dropWhile (fun c => c != slash && c != 0) ≠ [] := by
        rw [hrest]
        exact List.cons_ne_nil a rest
      have hnot := List.head_dropWhile_not _ hne
      simp only [hrest, List.head_cons] at hnot
      rw [Bool.and_eq_false_iff, bne_eq_false_iff_eq, bne_eq_false_iff_eq] at hnot
      exact hnot.resolve_right fun h0 => hnul (h0 ▸ hmem)
    subst hslash
    have hdrop : path.drop (i + (currname path i).length) = slash :: rest := by
      rw [← List.drop_drop, ← hsplit, List.drop_left]
    have hnext : path.drop (i + (currname path i).length + 1) = rest := by
      rw [← List.drop_drop, hdrop, List.drop_succ_cons, List.drop_zero]
    refine Or.inr ⟨charAt_eq_head hdrop, ?_⟩
    rw [components, components, hnext, ← hsplit, List.splitOn,
      List.splitOnP_append_cons _ _ (by exact beq_self_eq_true slash),
      List.splitOnP_eq_singleton hno]
    rfl

/-- Behind the component of the last pass there are only empty ones. -/
theorem eq_nil_of_lastPass (hnul : 0 ∉ path) (h : lastPass path i) {c : List UInt8}
    (hc : c ∈ (components path i).tail) : c = [] := by
  rcases components_cases hnul i with ⟨-, hcomp⟩ | ⟨hslash, hcomp⟩
  · rw [hcomp] at hc
    cases hc
  · rw [hcomp, List.tail_cons] at hc
    have hend : ∀ k, charAt path k = 0 → path.length ≤ k := by
      intro k hk
      by_contra hlt
      rw [charAt_of_lt (Nat.lt_of_not_le hlt)] at hk
      exact hnul (hk ▸ List.getElem_mem _)
    rcases h with h | h | ⟨h, h'⟩
    · rw [hslash] at h
      exact absurd h (by decide)
    · rw [components, List.drop_of_length_le (hend _ h)] at hc
      exact List.mem_singleton.mp hc
    · have hlt : i + (currname path i).length + 1 < path.length :=
        lt_length_of_charAt_ne (by rw [h]; decide)
      have hdrop : path.drop (i + (currname path i).length + 1) = [slash] := by
        rw [charAt_of_lt hlt] at h
        rw [List.drop_eq_getElem_cons hlt, h, List.drop_of_length_le (hend _ h')]
      rw [components, hdrop] at hc
      have hsplit : [slash].splitOn slash = [[], []] := by decide
      rw [hsplit] at hc
      simpa using hc

/-- Behind the component of any other pass the next one follows. -/
theorem components_of_not_lastPass (hnul : 0 ∉ path) (h : ¬lastPass path i) :
    components path i = currname path i :: components path (i + (currname path i).length + 1) := by
  rcases components_cases hnul i with ⟨hend, -⟩ | ⟨-, hcomp⟩
  · exact absurd (next_lt_of_not_lastPass h) (by omega)
  · exact hcomp

theorem head_components (hnul : 0 ∉ path) (i : ℕ) :
    components path i = currname path i :: (components path i).tail := by
  rcases components_cases hnul i with ⟨-, hcomp⟩ | ⟨-, hcomp⟩ <;> rw [hcomp] <;> rfl

/-- The names that `n` passes copy are short if and only if the first `n` components are. -/
theorem currname_short_iff (hnul : 0 ∉ path) (hm : 0 < m) (d : Disk) (iList n i : ℕ) (t : Inode) :
    (∀ k ∈ navPasses d iList path n i t, (currname path k).length < m) ↔
      ∀ c ∈ (components path i).take n, c.length < m := by
  induction n generalizing i t with
  | zero =>
    rw [List.take_zero]
    exact iff_of_true (List.forall_mem_nil _) (List.forall_mem_nil _)
  | succ n ih =>
    rw [head_components hnul i, List.take_succ_cons, List.forall_mem_cons, navPasses]
    split_ifs with hflag
    · rw [components_of_not_lastPass hnul (flag_navPass.mp hflag), List.tail_cons,
        List.forall_mem_cons, next_navPass, ih]
    · have hlast : lastPass path i := not_not.mp (flag_navPass.not.mp hflag)
      rw [List.forall_mem_cons]
      refine and_congr_right fun _ => iff_of_true (List.forall_mem_nil _) fun c hc => ?_
      rw [eq_nil_of_lastPass hnul hlast (List.mem_of_mem_take hc)]
      exact hm

/-- The passes do not suffice when there is a component behind the first `n` that is not empty. -/
theorem navLoop_eq_none (hnul : 0 ∉ path) (d : Disk) (iList n i : ℕ) (t : Inode) {c : List UInt8}
    (hc : c ∈ (components path i).drop n) (hne : c ≠ []) : navLoop d iList path n i t = none := by
  induction n generalizing i t with
  | zero => rfl
  | succ n ih =>
    rw [head_components hnul i, List.drop_succ_cons] at hc
    have hlast : ¬lastPass path i := fun h =>
      hne (eq_nil_of_lastPass hnul h (List.mem_of_mem_drop hc))
    rw [components_of_not_lastPass hnul hlast, List.tail_cons] at hc
    rw [navLoop_eq_navPass, if_pos (flag_navPass.mpr hlast)]
    exact ih _ _ hc

end Components

/-! ### The calls -/

/-- The calls that look a path up. -/
inductive PathCall
  | getattr
  | create
  | mkdir
  | opendir
  | readdir
deriving DecidableEq

/-- What a call finds besides the path: the disk, the environment, what the uninitialised inode of
`sfs_readdir` holds, the filler, and a bound on the passes of `updateDir`. -/
structure Setting where
  disk : Disk
  env : Env
  targ : Inode
  filler : List (List UInt8) → List UInt8 → ℤ
  fuel : ℕ

/-- The indices at which a string of the given length and the zero behind it are written. -/
def copied (name : List UInt8) : List ℕ := List.range (name.length + 1)

/-- The indices at which `navPath` writes to `currname`. -/
def navWrites (d : Disk) (path : List UInt8) : List ℕ :=
  if path.length = 1 ∨ path.length = 0 then []
  else (scanPasses d path).flatMap fun i => copied (currname path i)

/-- The indices at which `sfs_create` and `sfs_mkdir` write to `currname`, to `fn` and to the name
of the entry. -/
def makeWrites (type : FileType) (s : Setting) (path : List UInt8) : List ℕ :=
  if path.length ≥ 255 then []
  else
    match lastSlash path path.length with
    | none => []
    | some i =>
      let currdir := path.take i
      navWrites s.disk currdir ++
        match navPath s.disk 0 0 currdir with
        | (ret, par, targ) =>
          if ret = -1 then []
          else
            match reserveFreeInode s.disk s.env type with
            | (inum, d) =>
              if inum = 0 then []
              else
                let fn := path.drop (currdir.length + 1)
                copied fn ++
                  if (updateDir d fn par targ inum s.fuel).map Prod.fst = some 0 then copied fn
                  else []

/-- The indices at which a call writes to arrays of `MAX_FNAME` bytes. -/
def nameWrites (s : Setting) (path : List UInt8) : PathCall → List ℕ
  | .create => makeWrites .file s path
  | .mkdir => makeWrites .directory s path
  | _ => navWrites s.disk path

/-- The call returns an error. -/
def Rejects (s : Setting) (path : List UInt8) : PathCall → Prop
  | .getattr => (sfsGetattr s.disk path).1 ≠ 0
  | .create => ∃ ret d, sfsCreate s.disk path s.env s.fuel = some (ret, d) ∧ ret ≠ 0
  | .mkdir => ∃ ret d, sfsMkdir s.disk path s.env s.fuel = some (ret, d) ∧ ret ≠ 0
  | .opendir => sfsOpendir s.disk path ≠ 0
  | .readdir => (sfsReaddir s.disk s.targ path s.filler).1 ≠ 0

/-- A component does not fit in the arrays. -/
def TooLong (path : List UInt8) : Prop := ∃ c ∈ path.splitOn slash, maxFname ≤ c.length

/-- The call writes inside the arrays, and returns an error when a component is too long. -/
def Guarded (s : Setting) (path : List UInt8) (call : PathCall) : Prop :=
  (∀ k ∈ nameWrites s path call, k < maxFname) ∧ (TooLong path → Rejects s path call)

/-- The components behind the leading slash that `navPath` gets to are short. -/
def ShortComponents (path : List UInt8) : Prop :=
  ∀ c ∈ (components path 1).take 10000, c.length < maxFname

/-- The condition for `sfs_create` and `sfs_mkdir`: the path is refused for its length; or the
components of the directory are short, and the name is short, the directory is not found or no inode
is left. -/
def MakeStorable (type : FileType) (s : Setting) (path : List UInt8) : Prop :=
  255 ≤ path.length ∨ ∃ i, lastSlash path path.length = some i ∧ ShortComponents (path.take i) ∧
    ((path.drop (i + 1)).length < maxFname ∨ (navPath s.disk 0 0 (path.take i)).1 = -1 ∨
      (reserveFreeInode s.disk s.env type).1 = 0)

/-- The condition for the other calls is that the components are short. If `sfs_readdir` does not
get to a component that is too long, the uninitialised inode must not be that of a directory. -/
def Storable (s : Setting) (path : List UInt8) : PathCall → Prop
  | .create => MakeStorable .file s path
  | .mkdir => MakeStorable .directory s path
  | .readdir => ShortComponents path ∧ (TooLong path → isDir (Inode.stMode.get s.targ 0) = false)
  | _ => ShortComponents path

section Calls

variable {s : Setting} {path : List UInt8} {type : FileType}

theorem forall_copied {name : List UInt8} {m : ℕ} :
    (∀ k ∈ copied name, k < m) ↔ name.length < m := by
  simp only [copied, List.mem_range]
  exact ⟨fun h => h _ (Nat.lt_succ_self _), fun h k hk => lt_of_le_of_lt (Nat.le_of_lt_succ hk) h⟩

/-- `navPath` stays inside `currname` if and only if the components it gets to are short. -/
theorem navWrites_iff (d : Disk) (hnul : 0 ∉ path) :
    (∀ k ∈ navWrites d path, k < maxFname) ↔ ShortComponents path := by
  rw [navWrites]
  split_ifs with hlen
  · -- there are no components
    refine iff_of_true nofun fun c hc => ?_
    rw [components, List.drop_of_length_le (by omega)] at hc
    have hnil : c = [] := List.mem_singleton.mp (List.mem_of_mem_take hc)
    rw [hnil]
    decide
  · rw [ShortComponents,
      ← currname_short_iff hnul (by decide) d (Superblock.iList.get (blockRead d 0) 0)
      10000 1 (blockRead d (Superblock.iList.get (blockRead d 0) 0))]
    simp only [List.mem_flatMap, forall_exists_index, and_imp]
    constructor
    · intro h i hi
      exact forall_copied.mp fun k hk => h k i hi hk
    · intro h k i hi hk
      exact forall_copied.mpr (h i hi) k hk

/-- The components of an absolute path. -/
theorem splitOn_of_absolute (habs : path.head? = some slash) :
    path.splitOn slash = [] :: components path 1 := by
  obtain ⟨rest, rfl⟩ : ∃ rest, path = slash :: rest := List.head?_eq_some_iff.mp habs
  exact List.splitOnP_append_cons [] rest (by exact beq_self_eq_true slash)

theorem tooLong_iff (habs : path.head? = some slash) :
    TooLong path ↔ ∃ c ∈ components path 1, maxFname ≤ c.length := by
  rw [TooLong, splitOn_of_absolute habs]
  constructor
  · rintro ⟨c, hc, hlen⟩
    rcases List.mem_cons.mp hc with rfl | hc
    · exact absurd hlen (by decide)
    · exact ⟨c, hc, hlen⟩
  · rintro ⟨c, hc, hlen⟩
    exact ⟨c, List.mem_cons_of_mem _ hc, hlen⟩

/-- A component that is too long and not among those that `navPath` gets to is behind them. -/
theorem mem_drop_of_tooLong (hshort : ShortComponents path) {c : List UInt8}
    (hc : c ∈ components path 1) (hlen : maxFname ≤ c.length) :
    c ∈ (components path 1).drop 10000 ∧ c ≠ [] := by
  refine ⟨?_, ?_⟩
  · rw [← List.take_append_drop 10000 (components path 1)] at hc
    exact (List.mem_append.mp hc).resolve_left fun ht => absurd (hshort c ht) (Nat.not_lt.mpr hlen)
  · rintro rfl
    exact absurd hlen (by decide)

/-- `navPath` does not get to a component that is too long when `failcounter` stops it before. -/
theorem navPath_of_tooLong (hnul : 0 ∉ path) (habs : path.head? = some slash)
    (hshort : ShortComponents path) (hlong : TooLong path) (d : Disk) (par targ : Inode) :
    navPath d par targ path = (-1, par, targ) := by
  obtain ⟨c, hc, hlen⟩ := (tooLong_iff habs).mp hlong
  obtain ⟨hdrop, hne⟩ := mem_drop_of_tooLong hshort hc hlen
  have hlength : ¬(path.length = 1 ∨ path.length = 0) := by
    intro hle
    rw [components, List.drop_of_length_le (by omega)] at hc
    exact hne (List.mem_singleton.mp hc)
  simp only [navPath, if_neg hlength, navLoop_eq_none hnul d _ 10000 1 _ hdrop hne]

/-- In a path that is not too long for the passes all components are reached. -/
theorem short_of_length_lt (hnul : 0 ∉ path) (hlen : path.length < 10000)
    (hshort : ShortComponents path) : ∀ c ∈ components path 1, c.length < maxFname := by
  intro c hc
  by_contra hlong
  obtain ⟨hdrop, hne⟩ := mem_drop_of_tooLong hshort hc (Nat.not_lt.mp hlong)
  by_cases hone : 1 < path.length
  · have hnone := navLoop_eq_none hnul 0 0 10000 1 0 hdrop hne
    exact navLoop_ne_none hone (by omega) hnone
  · rw [components, List.drop_of_length_le (by omega)] at hc
    exact hne (List.mem_singleton.mp hc)

theorem exists_lastSlash (habs : path.head? = some slash) (n : ℕ) :
    ∃ i, lastSlash path n = some i := by
  have hzero : charAt path 0 = slash := by
    obtain ⟨rest, rfl⟩ : ∃ rest, path = slash :: rest := List.head?_eq_some_iff.mp habs
    rfl
  induction n with
  | zero => exact ⟨0, if_pos hzero⟩
  | succ n ih =>
    rw [lastSlash]
    split_ifs
    · exact ⟨n + 1, rfl⟩
    · exact ih

/-- A path is not too long if its directory and its name are not. -/
theorem not_tooLong_of_lastSlash {i : ℕ} (hnul : 0 ∉ path) (habs : path.head? = some slash)
    (hlen : path.length < 255) (hlast : lastSlash path path.length = some i)
    (hdir : ShortComponents (path.take i)) (hname : (path.drop (i + 1)).length < maxFname) :
    ¬TooLong path := by
  rintro ⟨c, hc, hlong⟩
  obtain ⟨hi, -, hcomp⟩ := splitOn_of_lastSlash hlast
  rw [hcomp] at hc
  rcases List.mem_append.mp hc with hc | hc
  · have hnul' : 0 ∉ path.take i := fun h0 => hnul (List.mem_of_mem_take h0)
    have hshort := short_of_length_lt hnul' (by rw [List.length_take]; omega) hdir
    cases i with
    | zero =>
      rw [List.take_zero] at hc
      rw [List.mem_singleton.mp hc] at hlong
      exact absurd hlong (by decide)
    | succ i =>
      have habs' : (path.take (i + 1)).head? = some slash := by
        rw [List.head?_take, if_neg (Nat.succ_ne_zero i), habs]
      rw [splitOn_of_absolute habs'] at hc
      rcases List.mem_cons.mp hc with rfl | hc
      · exact absurd hlong (by decide)
      · exact absurd (hshort c hc) (Nat.not_lt.mpr hlong)
  · rw [List.mem_singleton.mp hc] at hlong
    omega

/-- `sfs_create` and `sfs_mkdir`. -/
theorem make_guarded_iff (type : FileType) (s : Setting) (hnul : 0 ∉ path)
    (habs : path.head? = some slash) :
    ((∀ k ∈ makeWrites type s path, k < maxFname) ∧ (TooLong path →
        ∃ ret d, makeNode type s.disk path s.env s.fuel = some (ret, d) ∧ ret ≠ 0)) ↔
      MakeStorable type s path := by
  by_cases hlen : path.length ≥ 255
  · refine iff_of_true ⟨?_, fun _ => ⟨-1, s.disk, if_pos hlen, by decide⟩⟩ (Or.inl hlen)
    rw [makeWrites, if_pos hlen]
    exact nofun
  obtain ⟨i, hlast⟩ := exists_lastSlash habs path.length
  have hi := (splitOn_of_lastSlash hlast).1
  have htake : (path.take i).length = i := List.length_take_of_le hi.le
  have hnul' : 0 ∉ path.take i := fun h0 => hnul (List.mem_of_mem_take h0)
  rcases hnav : navPath s.disk 0 0 (path.take i) with ⟨ret, par, targ⟩
  rcases hres : reserveFreeInode s.disk s.env type with ⟨inum, d⟩
  have hstorable : MakeStorable type s path ↔ ShortComponents (path.take i) ∧
      ((path.drop (i + 1)).length < maxFname ∨ ret = -1 ∨ inum = 0) := by
    rw [MakeStorable, or_iff_right (by omega)]
    constructor
    · rintro ⟨k, hk, hdir, hcond⟩
      obtain rfl : i = k := Option.some.inj (hlast.symm.trans hk)
      rw [hnav, hres] at hcond
      exact ⟨hdir, hcond⟩
    · rintro ⟨hdir, hcond⟩
      refine ⟨i, hlast, hdir, ?_⟩
      rw [hnav, hres]
      exact hcond
  rw [hstorable]
  simp only [makeWrites, if_neg hlen, hlast, hnav, hres, htake]
  by_cases hret : ret = -1
  · -- the directory is not found
    have hmake : makeNode type s.disk path s.env s.fuel = some (-1, s.disk) := by
      simp only [makeNode, if_neg hlen, hlast, hnav, if_pos hret]
    simp only [if_pos hret, List.append_nil, navWrites_iff _ hnul']
    refine and_congr_right fun _ => iff_of_true (fun _ => ⟨-1, s.disk, hmake, by decide⟩) ?_
    exact Or.inr (Or.inl hret)
  by_cases hinum : inum = 0
  · -- no inode is left
    have hmake : makeNode type s.disk path s.env s.fuel = some (-1, d) := by
      simp only [makeNode, if_neg hlen, hlast, hnav, if_neg hret, hres, if_pos hinum]
    simp only [if_neg hret, if_pos hinum, List.append_nil, navWrites_iff _ hnul']
    refine and_congr_right fun _ => iff_of_true (fun _ => ⟨-1, d, hmake, by decide⟩) ?_
    exact Or.inr (Or.inr hinum)
  · simp only [hret, hinum, or_false, if_false]
    constructor
    · rintro ⟨hwrites, -⟩
      refine ⟨(navWrites_iff _ hnul').mp fun k hk => hwrites k (List.mem_append_left _ hk), ?_⟩
      exact forall_copied.mp fun k hk =>
        hwrites k (List.mem_append_right _ (List.mem_append_left _ hk))
    · rintro ⟨hdir, hname⟩
      refine ⟨fun k hk => ?_, fun hlong => absurd hlong
        (not_tooLong_of_lastSlash hnul habs (by omega) hlast hdir hname)⟩
      rcases List.mem_append.mp hk with hk | hk
      · exact (navWrites_iff _ hnul').mpr hdir k hk
      · rcases List.mem_append.mp hk with hk | hk
        · exact forall_copied.mpr hname k hk
        · split_ifs at hk
          · exact forall_copied.mpr hname k hk
          · cases hk

end Calls

/-- On every disk a call stays inside the arrays for names, and refuses a path with a component that
does not fit, if and only if the components that it copies fit: those of the path, or, for
`sfs_create` and `sfs_mkdir`, those of the directory and the name, unless the call has failed before
it copies the name. -/
theorem name_buffers_iff (s : Setting) {path : List UInt8} (hnul : 0 ∉ path)
    (habs : path.head? = some slash) (call : PathCall) :
    Guarded s path call ↔ Storable s path call := by
  have hfail : ShortComponents path → TooLong path → ∀ targ,
      navPath s.disk 0 targ path = (-1, 0, targ) :=
    fun hshort hlong targ => navPath_of_tooLong hnul habs hshort hlong s.disk 0 targ
  have hlookup : ∀ P : Prop, (ShortComponents path → TooLong path → P) →
      (((∀ k ∈ navWrites s.disk path, k < maxFname) ∧ (TooLong path → P)) ↔
        ShortComponents path) := by
    intro P hP
    rw [navWrites_iff _ hnul]
    exact and_iff_left_of_imp hP
  cases call with
  | getattr =>
    refine hlookup _ fun hshort hlong => ?_
    rw [Rejects, sfsGetattr, hfail hshort hlong]
    decide
  | create => exact make_guarded_iff .file s hnul habs
  | mkdir => exact make_guarded_iff .directory s hnul habs
  | opendir =>
    refine hlookup _ fun hshort hlong => ?_
    rw [Rejects, sfsOpendir, hfail hshort hlong]
    decide
  | readdir =>
    refine and_congr (navWrites_iff _ hnul) Iff.rfl |>.trans ?_
    refine and_congr_right fun hshort => imp_congr_right fun hlong => ?_
    rw [Rejects, sfsReaddir, hfail hshort hlong]
    dsimp only
    split_ifs with hdir
    · exact iff_of_true (by decide) hdir
    · exact iff_of_false (not_not_intro rfl) hdir

/-- A formatted disk. -/
def formattedSetting : Setting where
  disk := sfsInit (fun _ => 0) ⟨0, 0, 0⟩ fun _ => 0
  env := ⟨0, 0, 0⟩
  targ := fun _ => 0
  filler := fun _ _ => 0
  fuel := 1

/-- `/a` is created. -/
theorem name_buffers_short : Guarded formattedSetting [slash, 97] .create := by
  refine (name_buffers_iff formattedSetting (by decide) rfl .create).mpr (Or.inr ⟨0, rfl, ?_, ?_⟩)
  · unfold ShortComponents
    decide
  · exact Or.inl (by decide)

/-- A name of 24 bytes: the zero behind it is written behind the array, by `sfs_getattr`, which
copies it to `currname`, and by `sfs_create`, which copies it to `fn`. -/
theorem name_buffers_spill :
    ¬Guarded formattedSetting (slash :: List.replicate 24 97) .getattr ∧
      ¬Guarded formattedSetting (slash :: List.replicate 24 97) .create := by
  have hget : 24 ∈ nameWrites formattedSetting (slash :: List.replicate 24 97) .getattr := by
    decide +kernel
  have hcreate : 24 ∈ nameWrites formattedSetting (slash :: List.replicate 24 97) .create := by
    decide +kernel
  exact ⟨fun h => absurd (h.1 24 hget) (by decide), fun h => absurd (h.1 24 hcreate) (by decide)⟩

end OSDesign.FS
