import LazyLog.DurLog.Flat

/-! # The space check of `AppendEntry`

`waitForPlace` looks at the counters outside the lock, so several threads can pass it on the same
watermark before any of them reserves its range. A thread that has passed and not yet reserved is
*charged* with the size of its entry: the bytes in use and the bytes charged stay together below the size
of the ring (`Charged`). A thread that passes leaves `PAGE_SIZE << 6` bytes free after its own entry,
which covers the entries of the 31 others. -/

namespace LazyLog.DurLog.Space

open LazyLog.Lib.Run LazyLog.Rpc.Entry LazyLog.DurLog.Flat

/-- The two counters, and for each of the `T` appender threads the entry it has passed the check with. -/
structure State (T : ℕ) where
  sequencer : ℕ
  orderedWatermk : ℕ
  passed : Fin T → Option LogEntry

variable {T : ℕ} {rgSize : UInt64}

def Init (s : State T) : Prop :=
  s.sequencer = 0 ∧ s.orderedWatermk = 0 ∧ s.passed = fun _ => none

/-- A thread leaves `waitForPlace`, a thread reserves under `idx_lk_`, the watermark advances. Sequence
numbers stay below `2 ^ 63`. -/
inductive Step (rgSize : UInt64) : State T → State T → Prop
  | exit {s : State T} (t : Fin T) (e : LogEntry) (ht : s.passed t = none)
    (he : getSize e ≤ msgSize)
    (hw : waitForPlaceExits true rgSize.toNat s.sequencer s.orderedWatermk (getSize e) = true) :
    Step rgSize s { s with passed := Function.update s.passed t (some e) }
  | reserve {s : State T} (t : Fin T) (e : LogEntry) (ht : s.passed t = some e)
    (hlt : s.sequencer + getSize e < 2 ^ 63) :
    Step rgSize s
      { s with
        sequencer := s.sequencer + getSize e
        passed := Function.update s.passed t none }
  | advance {s : State T} (w : ℕ) (hw : s.orderedWatermk ≤ w) (hw' : w ≤ s.sequencer) :
    Step rgSize s { s with orderedWatermk := w }

/-- What a thread is charged with. -/
def charge (o : Option LogEntry) : ℕ := o.elim 0 getSize

/-- The bytes the threads are charged with. -/
def State.charged (s : State T) : ℕ := ∑ t, charge (s.passed t)

theorem sub64_of_le {a b : ℕ} (h : b ≤ a) (ha : a < 2 ^ 64) : sub64 a b = a - b := by
  unfold sub64
  rw [show a + 2 ^ 64 - b = a - b + 2 ^ 64 by omega, Nat.add_mod_right, Nat.mod_eq_of_lt (by omega)]

/-- With sane counters the check says that the entry leaves `PAGE_SIZE << 6` bytes free. -/
theorem exits_iff_room {rg seq wm size : ℕ} (hrg : 2 ^ 20 ≤ rg) (hrg' : rg < 2 ^ 64)
    (hw : wm ≤ seq) (hs : seq + size < 2 ^ 64) :
    waitForPlaceExits true rg seq wm size = true ↔ seq + size + 2 ^ 18 < wm + rg := by
  have hp : pageSize <<< 6 = 2 ^ 18 := by decide
  simp only [waitForPlaceExits, mustWait, Bool.not_true, Bool.false_or, Bool.not_eq_true',
    decide_eq_false_iff_not, not_le, hp]
  rw [Nat.mod_eq_of_lt hs, sub64_of_le (by omega) hs, sub64_of_le (by omega) hrg']
  omega

theorem room_of_exits {rg seq wm size : ℕ} (hrg : 2 ^ 20 ≤ rg) (hrg' : rg < 2 ^ 64)
    (hw : wm ≤ seq) (hs : seq + size < 2 ^ 64)
    (h : waitForPlaceExits true rg seq wm size = true) : seq + size + 2 ^ 18 < wm + rg :=
  (exits_iff_room hrg hrg' hw hs).mp h

theorem charged_update (s : State T) (t : Fin T) (o : Option LogEntry) :
    ∑ u, charge (Function.update s.passed t o u) + charge (s.passed t) =
      s.charged + charge o := by
  classical
  have h : (fun u => charge (Function.update s.passed t o u)) =
      Function.update (fun u => charge (s.passed u)) t (charge o) := by
    funext u
    by_cases hu : u = t
    · subst hu; simp
    · simp [Function.update_of_ne hu]
  rw [h, Finset.sum_update_of_mem (Finset.mem_univ t), State.charged,
    ← Finset.add_sum_erase Finset.univ (fun u => charge (s.passed u)) (Finset.mem_univ t),
    Finset.sdiff_singleton_eq_erase]
  omega

/-- At most 31 other threads are charged with at most `msgSize` bytes each. -/
theorem charged_le {s : State T} (hT : T ≤ 32) (hp : ∀ t, charge (s.passed t) ≤ msgSize) {t : Fin T}
    (ht : s.passed t = none) : s.charged ≤ 31 * msgSize := by
  have h0 : charge (s.passed t) = 0 := by rw [ht]; rfl
  have hcard : (Finset.univ.erase t).card ≤ 31 := by
    rw [Finset.card_erase_of_mem (Finset.mem_univ t), Finset.card_univ, Fintype.card_fin]; omega
  calc s.charged = ∑ u ∈ Finset.univ.erase t, charge (s.passed u) := by
        rw [State.charged, ← Finset.add_sum_erase _ _ (Finset.mem_univ t), h0, Nat.zero_add]
    _ ≤ (Finset.univ.erase t).card * msgSize := by
        simpa using Finset.sum_le_card_nsmul (Finset.univ.erase t)
          (fun u => charge (s.passed u)) msgSize fun u _ => hp u
    _ ≤ 31 * msgSize := Nat.mul_le_mul_right _ hcard

/-- **The accounting invariant.** -/
structure Charged (rgSize : UInt64) (s : State T) : Prop where
  watermk_le : s.orderedWatermk ≤ s.sequencer
  sequencer_lt : s.sequencer < 2 ^ 63
  charge_le : ∀ t, charge (s.passed t) ≤ msgSize
  room : s.sequencer + s.charged < s.orderedWatermk + rgSize.toNat

theorem charge_update_le {s : State T} (hp : ∀ t, charge (s.passed t) ≤ msgSize) {t : Fin T}
    {o : Option LogEntry} (ho : charge o ≤ msgSize) (u : Fin T) :
    charge (Function.update s.passed t o u) ≤ msgSize := by
  by_cases hu : u = t
  · subst hu; simpa using ho
  · rw [Function.update_of_ne hu]; exact hp u

theorem Charged.step (hT : T ≤ 32) (hrg : 2 ^ 20 ≤ rgSize.toNat) {s s' : State T}
    (h : Charged rgSize s) (hs : Step rgSize s s') : Charged rgSize s' := by
  obtain ⟨h1, h2, h3, h4⟩ := h
  cases hs with
  | exit t e ht he hw =>
    refine ⟨h1, h2, fun u => charge_update_le h3 (o := some e) he u, ?_⟩
    have hroom := room_of_exits hrg rgSize.toNat_lt h1 (by unfold msgSize at he; omega) hw
    have hothers := charged_le hT h3 ht
    have hsum := charged_update s t (some e)
    rw [ht] at hsum
    simp only [charge, Option.elim_none, Option.elim_some, Nat.add_zero] at hsum
    simp only [State.charged] at hsum hothers ⊢
    unfold charge at hsum hothers ⊢
    -- the entry itself is paid by the check, the others by the bytes it leaves free
    unfold msgSize at hothers
    omega
  | reserve t e ht hlt =>
    refine ⟨by simp only; omega, hlt, fun u => charge_update_le h3 (Nat.zero_le _) u, ?_⟩
    have hsum := charged_update s t none
    rw [ht] at hsum
    simp only [State.charged] at hsum h4 ⊢
    simp only [charge, Option.elim_none, Option.elim_some] at hsum h4 ⊢
    omega
  | advance w hw hw' =>
    refine ⟨hw', h2, h3, ?_⟩
    simp only [State.charged] at h4 ⊢
    omega

/-- **The ring never overwrites unordered records.** With at most 32 appender threads the bytes in use
stay below the size of the ring, and neither subtraction of the check wraps, for any entry. -/
theorem occupancy_lt_rgSize (hT : T ≤ 32) (hrg : 2 ^ 20 ≤ rgSize.toNat) {s : State T}
    (h : Reach Init (Step rgSize) s) :
    s.orderedWatermk ≤ s.sequencer ∧ s.sequencer - s.orderedWatermk < rgSize.toNat ∧
      pageSize <<< 6 ≤ rgSize.toNat ∧
      ∀ e : LogEntry, getSize e ≤ msgSize → s.sequencer + getSize e < 2 ^ 64 ∧
        s.orderedWatermk ≤ (s.sequencer + getSize e) % 2 ^ 64 := by
  have hinv : Charged rgSize s := by
    refine h.invariant ?_ fun s s' _ hi hs => hi.step hT hrg hs
    rintro s ⟨h1, h2, h3⟩
    refine ⟨by omega, by omega, fun t => by rw [h3]; exact Nat.zero_le _, ?_⟩
    rw [State.charged, h1, h2, h3]
    simp only [charge, Option.elim_none, Finset.sum_const_zero]
    omega
  obtain ⟨h1, h2, -, h4⟩ := hinv
  refine ⟨h1, by omega, le_trans (by decide) hrg, fun e he => ?_⟩
  unfold msgSize at he
  rw [Nat.mod_eq_of_lt (by omega)]
  omega

theorem Reach.reserved {s : State T} (h : Reach Init (Step rgSize) s) (t : Fin T) {e : LogEntry}
    (ht : s.passed t = none) (he : getSize e ≤ msgSize)
    (hw : waitForPlaceExits true rgSize.toNat s.sequencer s.orderedWatermk (getSize e) = true)
    (hlt : s.sequencer + getSize e < 2 ^ 63) :
    Reach Init (Step rgSize) { s with sequencer := s.sequencer + getSize e } := by
  have h' := (h.next (.exit t e ht he hw)).next (.reserve t e (Function.update_self ..) hlt)
  rw [Function.update_idem, ← ht, Function.update_eq_self] at h'
  exact h'

/-- An entry with `size` bytes of data. -/
def entryOfSize (size : UInt32) : LogEntry := { (default : LogEntry) with size }

theorem reach_full : ∀ n ≤ 95, Reach Init (Step 1048576) (⟨n * 8192, 0, fun _ => none⟩ : State 2)
  | 0, _ => .start ⟨rfl, rfl, rfl⟩
  | n + 1, hn => by
    have hsize : getSize (entryOfSize 8160) = 8192 := by decide
    have h := Reach.reserved (reach_full n (by omega)) 0 (e := entryOfSize 8160) rfl (by decide)
      ((exits_iff_room (by decide) (by decide) (Nat.zero_le _) (by simp only; omega)).mpr
        (by rw [show (1048576 : UInt64).toNat = 1048576 from rfl]; simp only; omega)) (by simp only; omega)
    rw [hsize, ← Nat.succ_mul] at h
    exact h

/-- **Two threads pass on the same watermark** although only one of the entries leaves `PAGE_SIZE << 6` bytes
free: once the first is reserved the check refuses the second. Both are reserved. -/
theorem occupancy_lt_rgSize_two :
    Reach Init (Step 1048576) (⟨786396, 0, fun _ => some default⟩ : State 2) ∧
      waitForPlaceExits true 1048576 786428 0 (getSize default) = false ∧
      Reach Init (Step 1048576) (⟨786460, 0, fun _ => none⟩ : State 2) ∧
      786460 - 0 < (1048576 : UInt64).toNat := by
  have h₀ := Reach.reserved (reach_full 95 (by decide)) 0 (e := entryOfSize 8124) rfl (by decide) (by decide)
    (by decide)
  have h₁ := h₀.next (.exit 0 default rfl (by decide) (by decide))
  have h₂ := h₁.next (.exit 1 default rfl (by decide) (by decide))
  have h₃ := h₂.next (.reserve 0 default rfl (by decide))
  have h₄ := h₃.next (.reserve 1 default rfl (by decide))
  have hpassed : Function.update (Function.update (fun _ : Fin 2 => (none : Option LogEntry)) 0 (some default)) 1
      (some default) = fun _ => some default := by
    funext t
    fin_cases t <;> rfl
  have hnone : Function.update (Function.update (fun _ : Fin 2 => some (default : LogEntry)) 0 none) 1 none =
      fun _ => none := by
    funext t
    fin_cases t <;> rfl
  simp only [hpassed] at h₂ h₄
  simp only [hnone] at h₄
  exact ⟨h₂, by decide, h₄, (occupancy_lt_rgSize (by decide) (by decide) h₄).2.1⟩

end LazyLog.DurLog.Space
