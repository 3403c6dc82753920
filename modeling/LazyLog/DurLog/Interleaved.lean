import LazyLog.DurLog.DelEntries

/-! # A backup at work, step by step

Calls of `AppendEntry` on many threads, and `delEntriesBackup` on a thread of its own, one request after the other.
Every write of a call to the region is a step here, so that the loop over the ring meets entries that are not
finished. It waits until the flag of an entry is raised. The flag does not say that the overflow of the entry has
been copied to the start of the ring, nor that its request id has been inserted into `reqid_to_seq_map_`.

`Passing P`: what the loop passes satisfies `P`. As long as it passes complete entries only, the ring holds what the
calls have written (`sound_of_reachable`). -/

namespace LazyLog.DurLog.Interleaved

open LazyLog.Lib.Bytes LazyLog.Lib.Tiling LazyLog.Lib.Run LazyLog.Rpc.Entry LazyLog.Rpc.Multi
open LazyLog.DurLog.Flat LazyLog.DurLog.Ranges LazyLog.DurLog.Ring
open LazyLog.DurLog.DelEntries hiding Step

/-! ### The steps -/

/-- One step of a backup. The insertion of a request id takes `lk_`, and is among the steps of `DelEntries`. -/
inductive Step (c : Config) : Backup → Backup → Prop
  | reserve {v : Backup} (e : LogEntry) (he : Admissible e) (hf : e.flags = 0)
    (hocc : v.server.log.sequencer + getSize e < v.server.log.orderedWatermk + c.rgSize) :
    Step c v { v with server := v.server.reserve c e }
  | write {v : Backup} {s' : State} {i : ℕ} {t : Slot} (ht : v.server.slots[i]? = some t) (hst : t.stage ≠ .copied)
    (h : AppendStep c i v.server s') : Step c v { v with server := s' }
  | locked {v v' : Backup} (h : DelEntries.Step c v v') : Step c v v'
  | request {v : Backup} (ids : List ReqID) (hpc : v.gc = .idle) : Step c v { v with gc := .requested ids }
  | reply {v : Backup} {nDel : ℕ} (hpc : v.gc = .replied nDel) : Step c v { v with gc := .idle }

/-- A backup on a region of zeros. -/
def Start (v : Backup) : Prop := v = ⟨⟨.zeroed, []⟩, .idle⟩

/-- The entries that a step takes the loop over the ring past satisfy `P`. -/
def Passing (P : Slot → Prop) (v v' : Backup) : Prop :=
  ∀ t ∈ v.server.slots, v.cursor ≤ t.seq → t.seq < v'.cursor → P t

/-- The states of a backup whose steps all satisfy `A`. -/
def Reachable (c : Config) (A : Backup → Backup → Prop) : Backup → Prop :=
  Reach Start fun v v' => Step c v v' ∧ A v v'

variable {c : Config} {P : Slot → Prop} {v v' : Backup} {ids : List ReqID} {i : ℕ} {t : Slot} {s : State}

theorem passing_of_cursor_eq (h : v'.cursor = v.cursor) : Passing P v v' := by
  intro t _ hle hlt
  omega

theorem Passing.mono {P' : Slot → Prop} (h : Passing P v v') (hP : ∀ t, P t → P' t) : Passing P' v v' :=
  fun t ht hle hlt => hP t (h t ht hle hlt)

/-! ### The entries from the watermark on -/

/-- The entries from the watermark on. -/
def unordered (s : State) : List Slot := s.slots.filter fun t => s.log.orderedWatermk ≤ t.seq

theorem unordered_of_watermk {k : ℕ} (h : Tiled s) (hk : k ≤ s.slots.length)
    (hw : s.log.orderedWatermk = pos entrySize s.entries k) : unordered s = s.slots.drop k := by
  have hsz : ∀ e ∈ s.entries, 0 < entrySize e := fun e _ => entrySize_pos e
  have hbelow : (s.slots.take k).filter (fun t => s.log.orderedWatermk ≤ t.seq) = [] := by
    refine List.filter_eq_nil_iff.mpr fun t ht => ?_
    obtain ⟨i, hi⟩ := List.mem_iff_getElem?.mp ht
    rw [List.getElem?_take] at hi
    split_ifs at hi with hik
    have hlt := pos_strictMono hsz (by simpa [State.entries] using hk) hik
    have hseq := h.seq hi
    simp only [decide_eq_true_eq]
    omega
  have habove : (s.slots.drop k).filter (fun t => s.log.orderedWatermk ≤ t.seq) = s.slots.drop k := by
    refine List.filter_eq_self.mpr fun t ht => ?_
    obtain ⟨i, hi⟩ := List.mem_iff_getElem?.mp ht
    rw [List.getElem?_drop] at hi
    have hle := pos_mono (f := entrySize) (l := s.entries) (Nat.le_add_right k i)
    have hseq := h.seq hi
    simp only [decide_eq_true_eq]
    omega
  unfold unordered
  rw [← List.take_append_drop k s.slots, List.filter_append, hbelow, List.take_append_drop, habove, List.nil_append]

theorem unordered_eq_drop (h : Contents c s) : ∃ k ≤ s.slots.length,
    s.log.orderedWatermk = pos entrySize s.entries k ∧ unordered s = s.slots.drop k := by
  obtain ⟨k, hk, hw, -⟩ := h.settled
  exact ⟨k, hk, hw, unordered_of_watermk h.tiled hk hw⟩

/-! ### What a step keeps -/

theorem appendStep_map {s' : State} (hs : AppendStep c i s s') (ht : s.slots[i]? = some t) (hst : t.stage ≠ .copied) :
    s'.log.reqidToSeqMap = s.log.reqidToSeqMap := by
  cases hs with
  | reserve e he => rfl
  | serialise hu hst' => rfl
  | raiseFlag hu hst' => rfl
  | copyOverflow hu hst' =>
    simp only [State.put, copyOverflow]
    split_ifs <;> rfl
  | insertReqid hu hst' =>
    obtain rfl := Option.some.inj (hu.symm.trans ht)
    exact absurd hst' hst

/-- **One step** keeps the invariant of the loop, if it passes complete entries only. -/
theorem sound_of_step (h : Sound c v) (hs : Step c v v') (hp : Passing (fun t => t.Complete c) v v') :
    Sound c v' := by
  cases hs with
  | reserve e he hf hocc => exact h.reserve he hf hocc
  | write ht hst hstep =>
    refine h.proceed hstep (List.getElem?_eq_some_iff.mp ht).1 fun rid q hq => ?_
    rw [appendStep_map hstep ht hst] at hq
    exact h.noted rid q hq
  | locked hstep =>
    cases hstep with
    | insertReqid ht hst hlk => exact h.insertReqid ht hst
    | note hpc => exact h.note hpc
    | pending hpc => exact h.pending hpc
    | round hpc hle hf =>
      refine h.round hpc hle hf fun t ht hseq => hp t ht ?_ ?_
      · rw [cursor_of_scanning hpc, hseq]
      · rw [cursor_of_scanning rfl, hseq]
        exact lt_delRound c _ _ _ _
    | finish hpc hlt => exact h.finish hpc
  | request ids hpc => exact h.setGc _ (by rw [hpc]; exact id) id rfl
  | reply hpc => exact h.setGc _ (by rw [hpc]; exact id) id rfl

/-- **A run that passes complete entries only.** -/
theorem sound_of_reachable {A : Backup → Backup → Prop} (hA : ∀ v v', A v v' → Passing (fun t => t.Complete c) v v')
    (h : Reachable c A v) : Sound c v := by
  refine h.invariant (P := Sound c) ?_ ?_
  · rintro v rfl
    exact .start c
  · rintro v v' - hinv ⟨hs, ha⟩
    exact sound_of_step hinv hs (hA v v' ha)

/-! ### A whole call of `AppendEntry` -/

theorem step_of_appendStep {s' : State} (hs : AppendStep c i s s') (hi : i < s.slots.length) :
    Step c ⟨s, .idle⟩ ⟨s', .idle⟩ := by
  cases hs with
  | reserve e he => omega
  | serialise ht hst => exact .write ht (by rw [hst]; decide) (.serialise ht hst)
  | raiseFlag ht hst => exact .write ht (by rw [hst]; decide) (.raiseFlag ht hst)
  | copyOverflow ht hst => exact .write ht (by rw [hst]; decide) (.copyOverflow ht hst)
  | insertReqid ht hst => exact .locked (DelEntries.Step.insertReqid (v := ⟨s, .idle⟩) ht hst id)

theorem passing_of_appendStep {s' : State} (hs : AppendStep c i s s') (hi : i < s.slots.length) :
    Passing P ⟨s, .idle⟩ ⟨s', .idle⟩ := by
  obtain ⟨t, st, l, -, rfl, -, -, hw, -⟩ := appendStep_complete hs hi
  exact passing_of_cursor_eq hw

theorem Reachable.append {A : Backup → Backup → Prop} {e : LogEntry} (h : Reachable c A ⟨s, .idle⟩)
    (he : Admissible e) (hf : e.flags = 0) (hocc : s.log.sequencer + getSize e < s.log.orderedWatermk + c.rgSize)
    (hreserve : A ⟨s, .idle⟩ ⟨s.reserve c e, .idle⟩)
    (hproceed : ∀ {s s' : State} {i : ℕ}, AppendStep c i s s' → i < s.slots.length → A ⟨s, .idle⟩ ⟨s', .idle⟩) :
    Reachable c A ⟨append c s e, .idle⟩ := by
  have hrun := append_steps (R := fun s s' => Step c ⟨s, .idle⟩ ⟨s', .idle⟩ ∧ A ⟨s, .idle⟩ ⟨s', .idle⟩) (e := e)
    (fun hs hi => ⟨step_of_appendStep hs hi, hproceed hs hi⟩)
    (.single ⟨Step.reserve (v := ⟨s, .idle⟩) e he hf hocc, hreserve⟩)
  exact h.run (hrun.lift (fun s => (⟨s, .idle⟩ : Backup)) fun _ _ => id)

/-- The backup with the smallest region. -/
def smallBackup : Config := { Config.smallPrimary with isPrimary := false }

end LazyLog.DurLog.Interleaved
