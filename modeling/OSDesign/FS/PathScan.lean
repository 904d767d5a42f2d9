import OSDesign.FS.Walk

/-!
# Scanning a path

`navPath` steps through the string with an index. In every pass it copies a component, steps over
the character behind it, and then looks at one or two characters more, but not behind the end of the
string. The characters that it looks at depend on the path only, not on the disk.

## Main definitions

* `navPass`, `navPasses`: a pass of the loop, and the values of the index at the beginning of the
  passes.
* `passReads`, `pathReads`: the characters of the path that are read.

## Main results

* `path_scan_ends_inside`: there are at most as many passes as the path is long, and no character
  behind the end is read.
* `navLoop_stable`: more passes allowed do not change the result.
-/

namespace OSDesign.FS

open ByteMemory

/-- The variables at the end of a pass: `t`, `i` and `flag`. -/
structure Pass where
  targ : Inode
  next : ℕ
  flag : ℕ

/-- A pass of the loop of `navPath`. -/
def navPass (d : Disk) (iList : ℕ) (path : List UInt8) (i : ℕ) (t : Inode) : Pass :=
  let name := currname path i
  let i := i + name.length
  let flag := if charAt path i = 0 then 1 else 0
  let i := i + 1
  let found := searchDir d t name
  let t := found.elim t fun inum => view (blockRead d (inum / 2 + iList)) (inodeOffset inum)
  let flag :=
    if flag = 1 ∨ charAt path i = 0 ∨ (charAt path i = slash ∧ charAt path (i + 1) = 0) then
      if found.isSome then 2 else 1
    else flag
  ⟨t, i, flag⟩

/-- The values of the index at the beginning of the passes, at most `n`. -/
def navPasses (d : Disk) (iList : ℕ) (path : List UInt8) : ℕ → ℕ → Inode → List ℕ
  | 0, _, _ => []
  | n + 1, i, t =>
    let pass := navPass d iList path i t
    i :: if pass.flag = 0 then navPasses d iList path n pass.next pass.targ else []

/-- The passes that `navPath` makes on a path of length 2 at least. -/
def scanPasses (d : Disk) (path : List UInt8) : List ℕ :=
  let iList := Superblock.iList.get (blockRead d 0) 0
  navPasses d iList path 10000 1 (blockRead d iList)

/-- The characters that the pass from `path[i]` on reads. The inner loop ends with a slash or the
end of the string; behind the end nothing is read, and the second character of the look-ahead is
read when the first one is a slash. -/
def passReads (path : List UInt8) (i : ℕ) : List ℕ :=
  let e := i + (currname path i).length
  List.range' i (e - i + 1) ++
    if charAt path e = 0 then []
    else (e + 1) :: if charAt path (e + 1) = slash then [e + 2] else []

/-- The characters of the path that `navPath` reads, those that `strlen` reads among them. -/
def pathReads (d : Disk) (path : List UInt8) : List ℕ :=
  List.range (path.length + 1) ++
    if path.length = 1 ∨ path.length = 0 then [] else (scanPasses d path).flatMap (passReads path)

section Scan

variable {d : Disk} {iList i n : ℕ} {path : List UInt8} {t : Inode}

/-- The loop of `navPath` is made of its passes. -/
theorem navLoop_eq_navPass (d : Disk) (iList : ℕ) (path : List UInt8) (n i : ℕ) (t : Inode) :
    navLoop d iList path (n + 1) i t =
      if (navPass d iList path i t).flag = 0 then
        navLoop d iList path n (navPass d iList path i t).next (navPass d iList path i t).targ
      else some (t, (navPass d iList path i t).targ, (navPass d iList path i t).flag) := rfl

theorem next_navPass : (navPass d iList path i t).next = i + (currname path i).length + 1 := rfl

/-- Whether a pass is the last one depends on the path only. -/
theorem flag_navPass : (navPass d iList path i t).flag = 0 ↔ ¬lastPass path i := by
  have hflag : (if charAt path (i + (currname path i).length) = 0 then 1 else 0) = 1 ↔
      charAt path (i + (currname path i).length) = 0 := by
    split_ifs with h <;> simp [h]
  simp only [navPass, lastPass, hflag]
  split_ifs with h₁ h₂ h₃
  · exact iff_of_false (by decide) (not_not_intro h₁)
  · exact iff_of_false (by decide) (not_not_intro h₁)
  · exact absurd (Or.inl h₃) h₁
  · exact iff_of_true rfl h₁

theorem length_currname_le (path : List UInt8) (i : ℕ) :
    (currname path i).length ≤ path.length - i := by
  have hle := (List.takeWhile_prefix (fun c => c != slash && c != 0) (l := path.drop i)).length_le
  rwa [List.length_drop] at hle

theorem lt_length_of_charAt_ne (h : charAt path i ≠ 0) : i < path.length := by
  by_contra hle
  exact h (charAt_of_le (Nat.le_of_not_lt hle))

/-- The next pass begins inside the string. -/
theorem next_lt_of_not_lastPass (h : ¬lastPass path i) :
    i + (currname path i).length + 1 < path.length := by
  simp only [lastPass, not_or] at h
  exact lt_length_of_charAt_ne h.2.1

/-- A pass that begins inside the string reads up to the end of the string. -/
theorem passReads_le (hi : i < path.length) {k : ℕ} (hk : k ∈ passReads path i) :
    k ≤ path.length := by
  have hlen := length_currname_le path i
  simp only [passReads, List.mem_append] at hk
  rcases hk with hk | hk
  · have := List.mem_range'_1.mp hk
    omega
  · split_ifs at hk with he hslash
    · cases hk
    · -- two characters more, since the first one is a slash
      have he₁ : i + (currname path i).length + 1 < path.length :=
        lt_length_of_charAt_ne (by rw [hslash]; decide)
      simp only [List.mem_cons, List.not_mem_nil, or_false] at hk
      omega
    · have he₀ := lt_length_of_charAt_ne he
      have := List.mem_singleton.mp hk
      omega

/-- All passes begin inside the string, and there are fewer of them than characters from `path[i]`
on. -/
theorem navPasses_bound (d : Disk) (iList n : ℕ) (t : Inode) (hi : i < path.length) :
    (∀ k ∈ navPasses d iList path n i t, k < path.length) ∧
      (navPasses d iList path n i t).length ≤ path.length - i := by
  induction n generalizing i t with
  | zero => exact ⟨nofun, Nat.zero_le _⟩
  | succ n ih =>
    rw [navPasses]
    split_ifs with hflag
    · have hnext := next_lt_of_not_lastPass (flag_navPass.mp hflag)
      obtain ⟨hmem, hlen⟩ := ih (navPass d iList path i t).targ hnext
      rw [next_navPass]
      refine ⟨fun k hk => ?_, ?_⟩
      · rcases List.mem_cons.mp hk with rfl | hk
        · exact hi
        · exact hmem k hk
      · rw [List.length_cons]
        omega
    · refine ⟨fun k hk => ?_, ?_⟩
      · rwa [List.mem_singleton.mp hk]
      · rw [List.length_singleton]
        omega

/-- The loop ends by itself when as many passes are allowed as there are characters left. -/
theorem navLoop_ne_none (hi : i < path.length) (hn : path.length ≤ i + n) :
    navLoop d iList path n i t ≠ none := by
  induction n generalizing i t with
  | zero => omega
  | succ n ih =>
    rw [navLoop_eq_navPass]
    split_ifs with hflag
    · have hnext := next_lt_of_not_lastPass (flag_navPass.mp hflag)
      rw [next_navPass]
      exact ih hnext (by omega)
    · exact Option.some_ne_none _

/-- More passes allowed do not change the result. -/
theorem navLoop_stable {r : Inode × Inode × ℕ} (h : navLoop d iList path n i t = some r) :
    navLoop d iList path (n + 1) i t = some r := by
  induction n generalizing i t with
  | zero => cases h
  | succ n ih =>
    rw [navLoop_eq_navPass] at h ⊢
    split_ifs at h ⊢ with hflag
    · exact ih h
    · exact h

end Scan

/-- On every disk and every path of length 2 to 9999 the loop of `navPath` ends after at most as
many passes as the path is long, by itself and not by `failcounter`, and `navPath` reads no
character behind the end of the path. -/
theorem path_scan_ends_inside (d : Disk) {path : List UInt8} (hlen : 2 ≤ path.length)
    (hmax : path.length < 10000) :
    (scanPasses d path).length ≤ path.length ∧
      navLoop d (Superblock.iList.get (blockRead d 0) 0) path 10000 1
        (blockRead d (Superblock.iList.get (blockRead d 0) 0)) ≠ none ∧
      ∀ k ∈ pathReads d path, k ≤ path.length := by
  have hone : 1 < path.length := hlen
  obtain ⟨hmem, hcount⟩ := navPasses_bound d (Superblock.iList.get (blockRead d 0) 0) 10000
    (blockRead d (Superblock.iList.get (blockRead d 0) 0)) hone
  refine ⟨hcount.trans (Nat.sub_le _ _), navLoop_ne_none hone (by omega), fun k hk => ?_⟩
  rw [pathReads, if_neg (by omega), List.mem_append] at hk
  rcases hk with hk | hk
  · have := List.mem_range.mp hk
    omega
  · obtain ⟨i, hi, hk⟩ := List.mem_flatMap.mp hk
    exact passReads_le (hmem i hi) hk

/-- The path `//a//`, on an empty disk. -/
theorem path_scan_ends_inside_slashes :
    pathReads (fun _ => 0) [slash, slash, 97, slash, slash] =
        [0, 1, 2, 3, 4, 5, 1, 2, 2, 3, 4, 5] ∧
      ∀ k ∈ pathReads (fun _ => 0) [slash, slash, 97, slash, slash], k ≤ 5 :=
  ⟨by decide +kernel, (path_scan_ends_inside (fun _ => 0) (by decide) (by decide)).2.2⟩

end OSDesign.FS
