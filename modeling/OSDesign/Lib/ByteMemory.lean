import Mathlib.Tactic
import Mathlib.Data.Set.Function
import Mathlib.Data.UInt
import Mathlib.Order.CompletePartialOrder
import Mathlib.Order.Interval.Set.Basic

/-!
# Byte-addressed memory

A memory is a function from addresses to bytes. Numbers are stored in little-endian order; a record
is a set of fields, each with an offset and a length, at a base address.

A read depends on the bytes of its range only (`load_congr`), and a write changes no byte outside
its range (`store_eqOn`, `paste_eqOn`, `Field.set_eqOn`). Whatever is known about two ranges that do
not meet follows from these two facts.

## Main definitions

* `ByteMemory.Memory`, `ByteMemory.load`, `ByteMemory.store`, `ByteMemory.paste`,
  `ByteMemory.copy`.
* `ByteMemory.Field`, `ByteMemory.Field.get`, `ByteMemory.Field.set`.

## Main results

* `ByteMemory.load_store_self`, `ByteMemory.load_congr`.
* `ByteMemory.store_congr`, `ByteMemory.paste_congr`.
* `ByteMemory.Field.get_set_self`, `ByteMemory.Field.get_set_of_apart`,
  `ByteMemory.Field.get_congr`.
-/

namespace ByteMemory

/-- A memory of bytes. -/
abbrev Memory := ℕ → UInt8

variable {m m' : Memory} {a b n : ℕ}

/-- The little-endian number in the `n` bytes from `a` on. -/
def load (m : Memory) : ℕ → ℕ → ℕ
  | _, 0 => 0
  | a, n + 1 => (m a).toNat + 256 * load m (a + 1) n

/-- The memory with the `n` low bytes of `v` stored from `a` on. -/
def store (m : Memory) (a n v : ℕ) : Memory := fun x =>
  if a ≤ x ∧ x < a + n then UInt8.ofNat (v / 256 ^ (x - a)) else m x

/-- The memory with `n` bytes written from `a` on. -/
def paste (m : Memory) (a : ℕ) (bytes : ℕ → UInt8) (n : ℕ) : Memory := fun x =>
  if a ≤ x ∧ x < a + n then bytes (x - a) else m x

/-- `memcpy`: `n` bytes from `src` on are copied to `dst`. -/
def copy (m : Memory) (dst src n : ℕ) : Memory := paste m dst (fun i => m (src + i)) n

/-! ### Reading -/

theorem load_congr (h : Set.EqOn m' m (Set.Ico a (a + n))) : load m' a n = load m a n := by
  induction n generalizing a with
  | zero => rfl
  | succ n ih =>
    have hhead : m' a = m a := h ⟨le_rfl, by omega⟩
    have htail : Set.EqOn m' m (Set.Ico (a + 1) (a + 1 + n)) :=
      h.mono (Set.Ico_subset_Ico (by omega) (by omega))
    rw [load, load, hhead, ih htail]

theorem load_lt (m : Memory) (a n : ℕ) : load m a n < 256 ^ n := by
  induction n generalizing a with
  | zero => exact Nat.one_pos
  | succ n ih =>
    have hbyte := (m a).toNat_lt
    have := ih (a + 1)
    rw [load, pow_succ]
    omega

/-! ### Writing -/

theorem store_eqOn (m : Memory) (a n v : ℕ) :
    Set.EqOn (store m a n v) m (Set.Ico a (a + n))ᶜ := fun _ hx => if_neg hx

theorem paste_eqOn (m : Memory) (a : ℕ) (bytes : ℕ → UInt8) (n : ℕ) :
    Set.EqOn (paste m a bytes n) m (Set.Ico a (a + n))ᶜ := fun _ hx => if_neg hx

theorem paste_apply {i : ℕ} (bytes : ℕ → UInt8) (hi : i < n) :
    paste m a bytes n (a + i) = bytes i := by
  rw [paste, if_pos ⟨by omega, by omega⟩, Nat.add_sub_cancel_left]

/-- Memories that agree on a set of bytes agree on it after the same write. -/
theorem store_congr {s : Set ℕ} (h : Set.EqOn m' m s) (a n v : ℕ) :
    Set.EqOn (store m' a n v) (store m a n v) s := by
  intro x hx
  rw [store, store]
  split_ifs
  · rfl
  · exact h hx

/-- After the same bytes are written, the memories agree on these too. -/
theorem paste_congr {s : Set ℕ} (h : Set.EqOn m' m s) (a : ℕ) (bytes : ℕ → UInt8) (n : ℕ) :
    Set.EqOn (paste m' a bytes n) (paste m a bytes n) (s ∪ Set.Ico a (a + n)) := by
  intro x hx
  rw [paste, paste]
  split_ifs with hin
  · rfl
  · exact h (hx.resolve_right hin)

/-- What is stored is read again. -/
theorem load_store_self (m : Memory) (a n v : ℕ) : load (store m a n v) a n = v % 256 ^ n := by
  induction n generalizing a v m with
  | zero => rw [load, pow_zero, Nat.mod_one]
  | succ n ih =>
    have htail : Set.EqOn (store m a (n + 1) v) (store m (a + 1) n (v / 256))
        (Set.Ico (a + 1) (a + 1 + n)) := by
      rintro x ⟨hl, hr⟩
      rw [store, store, if_pos ⟨by omega, by omega⟩, if_pos ⟨hl, hr⟩, Nat.div_div_eq_div_mul,
        ← pow_succ', show x - a = x - (a + 1) + 1 by omega]
    have hhead : (store m a (n + 1) v a).toNat = v % 256 := by
      rw [store, if_pos ⟨le_rfl, by omega⟩, Nat.sub_self, pow_zero, Nat.div_one,
        UInt8.toNat_ofNat']
    rw [load, load_congr htail, ih, hhead, pow_succ', Nat.mod_mul]

/-- Ranges that do not meet. -/
theorem eqOn_of_disjoint {s t : Set ℕ} (h : Set.EqOn m' m sᶜ) (hst : Disjoint s t) :
    Set.EqOn m' m t :=
  h.mono (Set.disjoint_left.mp hst.symm)

theorem disjoint_Ico {c d : ℕ} (h : b ≤ c ∨ d ≤ a) : Disjoint (Set.Ico a b) (Set.Ico c d) := by
  rw [Set.disjoint_left]
  rintro x ⟨ha, hb⟩ ⟨hc, hd⟩
  omega

/-! ### Records -/

/-- A field of a record. -/
structure Field where
  off : ℕ
  len : ℕ

namespace Field

variable (f g : Field)

/-- The value of the field in the record at `a`. -/
def get (m : Memory) (a : ℕ) : ℕ := load m (a + f.off) f.len

/-- The memory with the field of the record at `a` set. -/
def set (m : Memory) (a v : ℕ) : Memory := store m (a + f.off) f.len v

/-- The fields do not overlap. -/
def Apart : Prop := f.off + f.len ≤ g.off ∨ g.off + g.len ≤ f.off

instance : Decidable (f.Apart g) := inferInstanceAs (Decidable (_ ∨ _))

theorem get_lt (m : Memory) (a : ℕ) : f.get m a < 256 ^ f.len := load_lt ..

theorem get_set_self (m : Memory) (a v : ℕ) : f.get (f.set m a v) a = v % 256 ^ f.len :=
  load_store_self ..

theorem get_congr {size : ℕ} (h : Set.EqOn m' m (Set.Ico a (a + size)))
    (hf : f.off + f.len ≤ size) : f.get m' a = f.get m a :=
  load_congr (h.mono (Set.Ico_subset_Ico (by omega) (by omega)))

theorem set_eqOn {size : ℕ} (m : Memory) (a v : ℕ) (hf : f.off + f.len ≤ size) :
    Set.EqOn (f.set m a v) m (Set.Ico a (a + size))ᶜ :=
  (store_eqOn m (a + f.off) f.len v).mono
    (Set.compl_subset_compl.mpr (Set.Ico_subset_Ico (by omega) (by omega)))

theorem set_congr {s : Set ℕ} (h : Set.EqOn m' m s) (a v : ℕ) :
    Set.EqOn (f.set m' a v) (f.set m a v) s :=
  store_congr h ..

variable {f g}

/-- Setting a field leaves the other fields of the record alone. -/
theorem get_set_of_apart (h : f.Apart g) (m : Memory) (a v : ℕ) :
    g.get (f.set m a v) a = g.get m a :=
  load_congr (eqOn_of_disjoint (store_eqOn ..) (disjoint_Ico (by
    rcases h with h | h <;> omega)))

end Field

end ByteMemory
