import OSDesign.VM.Memory

/-!
# The choice of a page to evict

`getVictimPage(pid)` is to return a frame that does not belong to `pid`, and `NULL` if there is
none. With `SWAP_STRATEGY` 0 it goes back from the last frame to the first that belongs to somebody
else. With `SWAP_STRATEGY` 1, which `vm.h` selects, it also stops at a frame whose clock has reached
3, although this frame belongs to `pid`, and it advances the clock of a frame before it looks
whether there is one: in front of the first frame it dereferences `NULL`. The test `n == NULL` that
would start another round comes after that.

So the second strategy does what it is to do exactly if some frame belongs to somebody else and the
clocks of the frames behind the last such frame do not stop it.

## Main definitions

* `victimPage`: `getVictimPage` under either strategy.
* `VictimSafe`: what it is to return.
* `ClocksLow`: the clocks of the frames behind the last foreign one are low.

## Main results

* `victimPage_safe_iff`.
-/

namespace OSDesign.VM

/-- The loop of `getVictimPage` for `SWAP_STRATEGY` 0, when the frames from the position `i` on have
been passed. -/
def naiveLoop (pid : ℕ) (t : PageTable) : ℕ → Option ℕ
  | 0 => none
  | i + 1 => (t[i]?).bind fun n => if n.pid = pid then naiveLoop pid t i else some i

/-- `getVictimPage` for a value of `SWAP_STRATEGY`: the frame, or `none` for `NULL`. -/
def victimPage (strategy pid : ℕ) (t : PageTable) : Option (Option ℕ × PageTable) :=
  if strategy = 0 then some (naiveLoop pid t t.length, t) else VMState.chooseVictim pid t

/-- The call has returned `NULL` if every frame belongs to `pid`, and otherwise a frame that does
not. -/
def VictimSafe (pid : ℕ) (t : PageTable) (r : Option (Option ℕ × PageTable)) : Prop :=
  ∃ v t', r = some (v, t') ∧
    if ∀ n ∈ t, n.pid = pid then v = none else ∃ i n, v = some i ∧ t[i]? = some n ∧ n.pid ≠ pid

/-- Going back from the frame `i`, the first frame that does not belong to `pid` is met before a
clock of 3. The clocks of the frames in front of `i` have advanced by one when they are looked at.
-/
def ClocksLow (pid i : ℕ) (t : PageTable) : Prop :=
  ∃ j ≤ i, (∃ n, t[j]? = some n ∧ n.pid ≠ pid) ∧
    ∀ k, j < k → k ≤ i → ∀ n, t[k]? = some n →
      n.pid = pid ∧ if k = i then n.swapclock < 3 else n.swapclock + 1 < 3

section Naive

variable {pid : ℕ} {t : PageTable}

/-- The first strategy returns a frame of somebody else, or `NULL` if there is none in front of `i`.
-/
theorem naiveLoop_spec {i : ℕ} (hi : i ≤ t.length) :
    (naiveLoop pid t i = none ∧ ∀ j < i, ∀ n, t[j]? = some n → n.pid = pid) ∨
      ∃ j n, naiveLoop pid t i = some j ∧ t[j]? = some n ∧ n.pid ≠ pid := by
  induction i with
  | zero => exact Or.inl ⟨rfl, nofun⟩
  | succ i ih =>
    obtain ⟨n, hn⟩ : ∃ n, t[i]? = some n := ⟨_, List.getElem?_eq_getElem hi⟩
    rw [naiveLoop, hn, Option.bind_some]
    split_ifs with hp
    · refine (ih (Nat.le_of_succ_le hi)).imp_left fun ⟨hnone, hall⟩ => ⟨hnone, fun j hj m hm => ?_⟩
      rcases Nat.lt_succ_iff_lt_or_eq.mp hj with hj | rfl
      · exact hall j hj m hm
      · exact Option.some.inj (hn.symm.trans hm) ▸ hp
    · exact Or.inr ⟨i, n, rfl, hn, hp⟩

/-- The first strategy is safe. -/
theorem victimSafe_naive : VictimSafe pid t (victimPage 0 pid t) := by
  refine ⟨_, t, if_pos rfl, ?_⟩
  rcases @naiveLoop_spec pid t _ le_rfl with ⟨hnone, hall⟩ | ⟨j, n, hj, hn, hp⟩
  · rw [if_pos, hnone]
    intro n hn
    obtain ⟨j, hj⟩ := List.mem_iff_getElem?.mp hn
    obtain ⟨hlt, -⟩ := List.getElem?_eq_some_iff.mp hj
    exact hall j hlt n hj
  · rw [if_neg fun hall => hp (hall n (List.mem_of_getElem? hn))]
    exact ⟨j, n, hj, hn, hp⟩

end Naive

section SecondChance

variable {pid : ℕ}

/-- One step back: the clock of the frame `i` advances. -/
theorem clocksLow_tickClock {i : ℕ} {t : PageTable} {n : SpaceNode} (hn : t[i + 1]? = some n)
    (hp : n.pid = pid) (hclock : n.swapclock < 3) :
    ClocksLow pid i (t.modify i SpaceNode.tickClock) ↔ ClocksLow pid (i + 1) t := by
  have hpid (j : ℕ) : (∃ m, (t.modify i SpaceNode.tickClock)[j]? = some m ∧ m.pid ≠ pid) ↔
      ∃ m, t[j]? = some m ∧ m.pid ≠ pid := by
    rw [getElem?_tickClock]
    split_ifs
    · simp only [Option.map_eq_some_iff, ← exists_and_right, SpaceNode.tickClock]
      rw [exists_comm]
      simp
    · rfl
  constructor
  · rintro ⟨j, hj, hforeign, hrest⟩
    refine ⟨j, Nat.le_succ_of_le hj, (hpid j).mp hforeign, fun k hjk hk m hm => ?_⟩
    rcases Nat.le_succ_iff.mp hk with hk | rfl
    · have hmk := hrest k hjk hk
      rw [getElem?_tickClock, hm] at hmk
      rw [if_neg (by omega)]
      by_cases hik : i = k
      · simpa [hik, SpaceNode.tickClock] using hmk
      · simpa [hik, Ne.symm hik] using hmk
    · obtain rfl := Option.some.inj (hn.symm.trans hm)
      exact ⟨hp, by rwa [if_pos rfl]⟩
  · rintro ⟨j, hj, hforeign, hrest⟩
    have hji : j ≤ i := by
      rcases Nat.le_succ_iff.mp hj with hj | rfl
      · exact hj
      · obtain ⟨m, hm, hne⟩ := hforeign
        exact absurd (Option.some.inj (hn.symm.trans hm) ▸ hp) hne
    refine ⟨j, hji, (hpid j).mpr hforeign, fun k hjk hk m hm => ?_⟩
    rw [getElem?_tickClock] at hm
    split_ifs at hm with hik
    · obtain ⟨m₀, hm₀, rfl⟩ := Option.map_eq_some_iff.mp hm
      have hmk := hrest k hjk (Nat.le_succ_of_le hk) m₀ hm₀
      rw [if_neg (by omega)] at hmk
      rw [if_pos hik.symm]
      exact hmk
    · have hmk := hrest k hjk (Nat.le_succ_of_le hk) m hm
      rw [if_neg (by omega)] at hmk
      rwa [if_neg (Ne.symm hik)]

/-- Nothing is done at a frame of somebody else. -/
theorem clocksLow_of_stop {i : ℕ} {t : PageTable} {n : SpaceNode} (hn : t[i]? = some n)
    (hstop : ¬ (n.pid = pid ∧ n.swapclock < 3)) : ClocksLow pid i t ↔ n.pid ≠ pid := by
  constructor
  · rintro ⟨j, hj, ⟨m, hm, hne⟩, hrest⟩
    rcases Nat.lt_or_eq_of_le hj with hlt | rfl
    · have hni := hrest i hlt le_rfl n hn
      rw [if_pos rfl] at hni
      exact absurd hni hstop
    · rwa [Option.some.inj (hn.symm.trans hm)]
  · intro hne
    exact ⟨i, le_rfl, ⟨n, hn, hne⟩, fun k hik hki => absurd hik (not_lt_of_ge hki)⟩

/-- The second strategy, started at the frame `i`, ends at a frame of somebody else. -/
def EndsForeign (pid i : ℕ) (t : PageTable) : Prop :=
  ∃ j t' n, victimLoop pid i t = some (j, t') ∧ t'[j]? = some n ∧ n.pid ≠ pid

theorem endsForeign_of_stop {i : ℕ} {t : PageTable} {n : SpaceNode} (hn : t[i]? = some n)
    (hstop : ¬ (n.pid = pid ∧ n.swapclock < 3)) : EndsForeign pid i t ↔ ClocksLow pid i t := by
  have hloop : victimLoop pid i t = some (i, t) := by
    rw [victimLoop.eq_def]
    simp only [hn]
    exact if_neg hstop
  rw [EndsForeign, hloop, clocksLow_of_stop hn hstop]
  refine ⟨fun ⟨j, t', m, h, hm, hne⟩ => ?_, fun hne => ⟨i, t, n, rfl, hn, hne⟩⟩
  obtain ⟨rfl, rfl⟩ := Prod.mk.inj (Option.some.inj h)
  rwa [Option.some.inj (hn.symm.trans hm)]

/-- The second strategy ends at a frame of somebody else if and only if the clocks do not stop it.
-/
theorem endsForeign_iff {i : ℕ} {t : PageTable} (hi : i < t.length) :
    EndsForeign pid i t ↔ ClocksLow pid i t := by
  induction i generalizing t with
  | zero =>
    obtain ⟨n, hn⟩ : ∃ n, t[0]? = some n := ⟨_, List.getElem?_eq_getElem hi⟩
    by_cases hc : n.pid = pid ∧ n.swapclock < 3
    · -- the walk dereferences `NULL`
      have hnone : victimLoop pid 0 t = none := by
        rw [victimLoop]
        simp only [hn]
        exact if_pos hc
      rw [EndsForeign, hnone]
      constructor
      · rintro ⟨_, _, _, h, _⟩
        cases h
      · rintro ⟨j, hj, ⟨m, hm, hne⟩, -⟩
        obtain rfl := Nat.le_zero.mp hj
        exact absurd (Option.some.inj (hn.symm.trans hm) ▸ hc.1) hne
    · exact endsForeign_of_stop hn hc
  | succ i ih =>
    obtain ⟨n, hn⟩ : ∃ n, t[i + 1]? = some n := ⟨_, List.getElem?_eq_getElem hi⟩
    by_cases hc : n.pid = pid ∧ n.swapclock < 3
    · have hback :
          victimLoop pid (i + 1) t = victimLoop pid i (t.modify i SpaceNode.tickClock) := by
        rw [victimLoop]
        simp only [hn]
        exact if_pos hc
      have hlen : i < (t.modify i SpaceNode.tickClock).length := by
        rw [List.length_modify]
        exact Nat.lt_of_succ_lt hi
      rw [EndsForeign, hback, ← clocksLow_tickClock hn hc.1 hc.2]
      exact ih hlen
    · exact endsForeign_of_stop hn hc

/-- The second strategy is safe if and only if it ends at a frame of somebody else. -/
theorem victimSafe_chooseVictim_iff {t : PageTable} :
    VictimSafe pid t (VMState.chooseVictim pid t) ↔ EndsForeign pid (t.length - 1) t := by
  have hframe {j : ℕ} {t' : PageTable} (h : getVictimPage pid t = some (j, t')) :
      (∃ n, t'[j]? = some n ∧ n.pid ≠ pid) ↔ ∃ n, t[j]? = some n ∧ n.pid ≠ pid := by
    have hpids := (victimLoop_get h).1.map_eq (g := SpaceNode.pid) fun _ => rfl
    have hget : (t'[j]?).map SpaceNode.pid = (t[j]?).map SpaceNode.pid := by
      rw [← List.getElem?_map, ← List.getElem?_map, hpids]
    have hiff (o : Option SpaceNode) : (∃ n, o = some n ∧ n.pid ≠ pid) ↔
        ∃ q, o.map SpaceNode.pid = some q ∧ q ≠ pid := by
      cases o <;> simp
    rw [hiff, hiff, hget]
  constructor
  · rintro ⟨v, t', hv, hsafe⟩
    obtain ⟨⟨j, t''⟩, hj, heq⟩ := Option.map_eq_some_iff.mp hv
    obtain ⟨rfl, rfl⟩ := Prod.mk.inj heq
    split_ifs at hsafe
    obtain ⟨i, n, hi, hn⟩ := hsafe
    obtain rfl := Option.some.inj hi
    obtain ⟨m, hm⟩ := (hframe hj).mpr ⟨n, hn⟩
    exact ⟨j, t'', m, hj, hm⟩
  · rintro ⟨j, t', n, hj, hn⟩
    obtain ⟨m, hm, hne⟩ := (hframe hj).mp ⟨n, hn⟩
    refine ⟨some j, t', Option.map_eq_some_iff.mpr ⟨_, hj, rfl⟩, ?_⟩
    rw [if_neg fun hall => hne (hall m (List.mem_of_getElem? hm))]
    exact ⟨j, m, rfl, hm, hne⟩

end SecondChance

/-- `getVictimPage` is safe with `SWAP_STRATEGY` 0, and with another value if and only if some frame
belongs to somebody else and the clocks of the frames behind the last such frame are low: below 3 in
the last frame of the list, and below 3 after one increment in the others. -/
theorem victimPage_safe_iff (strategy pid : ℕ) (t : PageTable) (ht : t ≠ []) :
    VictimSafe pid t (victimPage strategy pid t) ↔
      strategy = 0 ∨ ClocksLow pid (t.length - 1) t := by
  by_cases hs : strategy = 0
  · subst hs
    exact iff_of_true victimSafe_naive (Or.inl rfl)
  · have hlast : t.length - 1 < t.length := Nat.sub_lt (List.length_pos_iff.mpr ht) Nat.one_pos
    rw [victimPage, if_neg hs, victimSafe_chooseVictim_iff, endsForeign_iff hlast]
    simp [hs]

/-- The descriptor of a page of `pid` with a clock. -/
def ownedFrame (pid : ℕ) (clock : Int8) : SpaceNode :=
  { freeNode 4096 memoryStart 0 1 with pid := pid, free := false, swapclock := clock }

/-- The first of two frames is the victim, the clock of the second one being 2. -/
theorem victimPage_safe_two_frames :
    VictimSafe 1 [ownedFrame 2 0, ownedFrame 1 2]
      (victimPage 1 1 [ownedFrame 2 0, ownedFrame 1 2]) := by
  refine (victimPage_safe_iff 1 1 _ (List.cons_ne_nil _ _)).mpr (Or.inr ?_)
  refine ⟨0, Nat.zero_le _, ⟨_, rfl, by decide⟩, fun k hk hk' n hn => ?_⟩
  obtain rfl : k = 1 := Nat.le_antisymm hk' hk
  obtain rfl := Option.some.inj hn
  decide

/-- If all frames belong to the process, the configured strategy dereferences `NULL`, and with a
clock of 3 it returns a frame of the process. -/
theorem victimPage_of_own_frames :
    victimPage 1 1 [ownedFrame 1 0] = none ∧
      ¬ VictimSafe 1 [ownedFrame 1 3] (victimPage 1 1 [ownedFrame 1 3]) := by
  have hown : (victimPage 1 1 [ownedFrame 1 3]).map Prod.fst = some (some 0) := by decide
  refine ⟨by decide, fun ⟨v, t, h, hsafe⟩ => ?_⟩
  rw [if_pos (by decide)] at hsafe
  rw [h, hsafe] at hown
  exact absurd hown nofun

end OSDesign.VM
