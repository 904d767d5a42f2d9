import Mathlib.Tactic
import Mathlib.Data.List.Perm.Basic

/-!
# Lists with changed entries

A list in which one entry is changed, or two are exchanged, up to permutation, and the first value
that a function has on a list.

## Main results

* `ListUpdate.cons_set_perm`, `ListUpdate.cons_modify_perm`: changing one entry.
* `ListUpdate.set_set_perm`: exchanging two entries.
* `ListUpdate.exists_perm_modify`, `ListUpdate.forall_mem_modify`: the other entries stay.
* `ListUpdate.map_modify_eq`: a change that a function does not see.
* `ListUpdate.split_unique`: an entry with a key of its own is in one place only.
* `ListUpdate.filterMap_range_perm`, `ListUpdate.filterMap_range_comp_perm`: the values of a
  function on the places below a bound, when one value is changed or the places are permuted.
* `ListUpdate.findSome?_congr`, `ListUpdate.findSome?_range_eq_some`: the first value of a function.
-/

namespace ListUpdate

variable {α : Type*}

/-- Exchanging one entry for another. -/
theorem cons_set_perm {l : List α} {i : ℕ} {a : α} (h : l[i]? = some a) (b : α) :
    (a :: l.set i b).Perm (b :: l) := by
  induction l generalizing i with
  | nil => simp at h
  | cons x l ih =>
    cases i with
    | zero =>
      obtain rfl : x = a := by simpa using h
      exact List.Perm.swap ..
    | succ i =>
      have h' : l[i]? = some a := by simpa using h
      calc (a :: x :: l.set i b).Perm (x :: a :: l.set i b) := List.Perm.swap ..
        _ |>.Perm (x :: b :: l) := (ih h').cons x
        _ |>.Perm (b :: x :: l) := List.Perm.swap ..

/-- Exchanging two entries. -/
theorem set_set_perm {l : List α} {i j : ℕ} {a b : α} (hi : l[i]? = some a) (hj : l[j]? = some b)
    (hij : i ≠ j) : ((l.set i b).set j a).Perm l := by
  have h₁ := cons_set_perm hi b
  have hj' : (l.set i b)[j]? = some b := by rwa [List.getElem?_set_ne hij]
  have h₂ := cons_set_perm hj' a
  exact (List.perm_cons b).mp (h₂.trans h₁)

theorem modify_eq_set_of_getElem? {l : List α} {i : ℕ} {a : α} (h : l[i]? = some a)
    (f : α → α) : l.modify i f = l.set i (f a) := by
  induction l generalizing i with
  | nil => simp at h
  | cons x l ih =>
    cases i with
    | zero =>
      obtain rfl : x = a := by simpa using h
      rfl
    | succ i =>
      have h' : l[i]? = some a := by simpa using h
      simp [ih h']

/-- Changing one entry. -/
theorem cons_modify_perm {l : List α} {i : ℕ} {a : α} (h : l[i]? = some a) (f : α → α) :
    (a :: l.modify i f).Perm (f a :: l) := by
  rw [modify_eq_set_of_getElem? h]
  exact cons_set_perm h _

/-- A change that a function does not see. -/
theorem map_modify_eq {β : Type*} (g : α → β) {f : α → α} (hf : ∀ a, g (f a) = g a) (l : List α)
    (i : ℕ) : (l.modify i f).map g = l.map g := by
  induction l generalizing i with
  | nil => simp
  | cons x l ih => cases i <;> simp [hf, ih]

/-- A list with a marked entry, before and after that entry is changed. -/
theorem exists_perm_modify {l : List α} {i : ℕ} {a : α} (h : l[i]? = some a) :
    ∃ r : List α, l.Perm (a :: r) ∧ ∀ f : α → α, (l.modify i f).Perm (f a :: r) := by
  induction l generalizing i with
  | nil => simp at h
  | cons x l ih =>
    cases i with
    | zero =>
      obtain rfl : x = a := by simpa using h
      exact ⟨l, List.Perm.refl _, fun f => List.Perm.refl _⟩
    | succ i =>
      obtain ⟨r, hr, hmod⟩ := ih (by simpa using h)
      refine ⟨x :: r, (hr.cons x).trans (List.Perm.swap ..), fun f => ?_⟩
      exact ((hmod f).cons x).trans (List.Perm.swap ..)

/-- What holds of all entries and of the changed one holds of all entries of the changed list. -/
theorem forall_mem_modify {P : α → Prop} {l : List α} {i : ℕ} {f : α → α} (hl : ∀ a ∈ l, P a)
    (hf : ∀ a, l[i]? = some a → P (f a)) : ∀ a ∈ l.modify i f, P a := by
  intro b hb
  obtain ⟨j, hj⟩ := List.mem_iff_getElem?.mp hb
  rw [List.getElem?_modify] at hj
  obtain ⟨a, ha, rfl⟩ := Option.map_eq_some_iff.mp hj
  split_ifs with hij
  · subst hij
    exact hf a ha
  · exact hl a (List.mem_iff_getElem?.mpr ⟨j, ha⟩)

/-- An entry that is the only one with its key can be split off in one way only. -/
theorem split_unique {β : Type*} {f : α → β} {l l' r r' : List α} {x y : α}
    (h : l ++ x :: r = l' ++ y :: r') (hnodup : ((l ++ x :: r).map f).Nodup) (hf : f x = f y) :
    l = l' := by
  induction l generalizing l' with
  | nil =>
    cases l' with
    | nil => rfl
    | cons z l' =>
      rw [List.nil_append, List.cons_append, List.cons.injEq] at h
      rw [List.nil_append, List.map_cons, h.2] at hnodup
      refine absurd ?_ (List.nodup_cons.mp hnodup).1
      exact hf ▸ List.mem_map_of_mem (List.mem_append_right _ List.mem_cons_self)
  | cons z l ih =>
    cases l' with
    | nil =>
      rw [List.nil_append, List.cons_append, List.cons.injEq] at h
      rw [List.cons_append, List.map_cons, h.1] at hnodup
      refine absurd ?_ (List.nodup_cons.mp hnodup).1
      exact hf ▸ List.mem_map_of_mem (List.mem_append_right _ List.mem_cons_self)
    | cons w l' =>
      rw [List.cons_append, List.cons_append, List.cons.injEq] at h
      rw [List.cons_append, List.map_cons] at hnodup
      rw [h.1, ih h.2 (List.nodup_cons.mp hnodup).2]

/-! ### The values of a function below a bound -/

section Range

open scoped List

variable {β : Type*} {g g' : ℕ → Option β} {n : ℕ}

/-- The value at one place is changed. -/
theorem filterMap_range_perm {k : ℕ} (hk : k < n) (h : ∀ i ≠ k, g' i = g i) :
    ((g k).toList ++ (List.range n).filterMap g').Perm
      ((g' k).toList ++ (List.range n).filterMap g) := by
  have hsplit (f : ℕ → Option β) : ((List.range n).filterMap f).Perm
      ((f k).toList ++ ((List.range n).erase k).filterMap f) := by
    refine ((List.perm_cons_erase (List.mem_range.mpr hk)).filterMap f).trans (.of_eq ?_)
    rw [List.filterMap_cons]
    cases f k <;> rfl
  have hrest : ((List.range n).erase k).filterMap g' = ((List.range n).erase k).filterMap g := by
    refine List.filterMap_congr fun i hi => h i ?_
    exact ((List.nodup_range.mem_erase_iff).mp hi).1
  calc _ ~ (g k).toList ++ ((g' k).toList ++ ((List.range n).erase k).filterMap g') :=
        (hsplit g').append_left _
    _ ~ (g' k).toList ++ ((g k).toList ++ ((List.range n).erase k).filterMap g') := by
        rw [← List.append_assoc, ← List.append_assoc]
        exact List.perm_append_comm.append_right _
    _ ~ _ := by
        rw [hrest]
        exact (hsplit g).symm.append_left _

/-- The places are permuted. -/
theorem filterMap_range_comp_perm {σ : Equiv.Perm ℕ} (hσ : ∀ i, σ i < n ↔ i < n) :
    ((List.range n).filterMap fun i => g (σ i)).Perm ((List.range n).filterMap g) := by
  have hperm : ((List.range n).map σ).Perm (List.range n) := by
    refine (List.perm_ext_iff_of_nodup (List.nodup_range.map σ.injective) List.nodup_range).mpr
      fun a => ?_
    rw [List.mem_map, List.mem_range]
    constructor
    · rintro ⟨i, hi, rfl⟩
      exact (hσ i).mpr (List.mem_range.mp hi)
    · intro ha
      refine ⟨σ.symm a, List.mem_range.mpr ((hσ _).mp ?_), σ.apply_symm_apply a⟩
      rwa [σ.apply_symm_apply]
  have := hperm.filterMap g
  rwa [List.filterMap_map] at this

end Range

/-! ### The first value -/

theorem findSome?_congr {β : Type*} {f g : α → Option β} {l : List α} (h : ∀ a ∈ l, f a = g a) :
    l.findSome? f = l.findSome? g := by
  induction l with
  | nil => rfl
  | cons a l ih =>
    rw [List.findSome?_cons, List.findSome?_cons, h a List.mem_cons_self,
      ih fun a' ha' => h a' (List.mem_cons_of_mem a ha')]

theorem findSome?_range_eq_some {f : ℕ → Option α} {n : ℕ} {a : α} :
    (List.range n).findSome? f = some a ↔ ∃ j < n, f j = some a ∧ ∀ k < j, f k = none := by
  induction n with
  | zero => simp
  | succ n ih =>
    rw [List.range_succ, List.findSome?_append, List.findSome?_singleton, Option.or_eq_some_iff, ih,
      List.findSome?_eq_none_iff]
    constructor
    · rintro (⟨j, hj, h⟩ | ⟨hnone, hn⟩)
      · exact ⟨j, hj.trans n.lt_succ_self, h⟩
      · exact ⟨n, n.lt_succ_self, hn, fun k hk => hnone k (List.mem_range.mpr hk)⟩
    · rintro ⟨j, hj, hfj, hk⟩
      rcases Nat.lt_succ_iff_lt_or_eq.mp hj with hj | rfl
      · exact Or.inl ⟨j, hj, hfj, hk⟩
      · exact Or.inr ⟨fun k h => hk k (List.mem_range.mp h), hfj⟩

end ListUpdate
