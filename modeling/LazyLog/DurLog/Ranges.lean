import LazyLog.DurLog.Flat

/-! # The ranges of concurrent appends

The ranges reserved by the calls of `AppendEntry` lie end to end from zero to the sequencer (`Tiled`), and
a step of a call writes inside the footprint of its own entry (`appendStep_mem_eq`). As long as the entries
in use fit the ring, footprints are disjoint, so calls do not disturb each other
(`appends_do_not_interfere`). -/

namespace LazyLog.DurLog.Ranges

open LazyLog.Lib.Bytes LazyLog.Lib.Circular LazyLog.Lib.Tiling LazyLog.Lib.Run
open LazyLog.Rpc.Entry LazyLog.Rpc.Multi LazyLog.DurLog.Flat

variable {c : Config} {s s' : State} {i : ℕ}

/-! ### Slots and entries -/

theorem entries_put {t : Slot} (h : s.slots[i]? = some t) (st : Stage) (l : FlatLog) :
    (s.put i t st l).entries = s.entries := by
  obtain ⟨hi, rfl⟩ := List.getElem?_eq_some_iff.mp h
  calc (s.put i s.slots[i] st l).entries
      = (s.slots.map Slot.e).set i s.slots[i].e := by simp [State.entries, State.put, List.map_set]
    _ = (s.slots.set i s.slots[i]).map Slot.e := List.map_set.symm
    _ = s.entries := by rw [List.set_getElem_self]; rfl

theorem slots_put_self {t : Slot} (h : s.slots[i]? = some t) (st : Stage) (l : FlatLog) :
    (s.put i t st l).slots[i]? = some { t with stage := st } := by
  obtain ⟨hi, -⟩ := List.getElem?_eq_some_iff.mp h
  simp [State.put, hi]

theorem slots_put_ne {j : ℕ} (h : j ≠ i) (t : Slot) (st : Stage) (l : FlatLog) :
    (s.put i t st l).slots[j]? = s.slots[j]? := by
  simp [State.put, List.getElem?_set_ne (Ne.symm h)]

theorem slots_put_cases {j : ℕ} {t u : Slot} {st : Stage} {l : FlatLog} (h : s.slots[i]? = some t)
    (hu : (s.put i t st l).slots[j]? = some u) :
    (j = i ∧ u = { t with stage := st }) ∨ (j ≠ i ∧ s.slots[j]? = some u) := by
  by_cases hj : j = i
  · subst hj
    rw [slots_put_self h] at hu
    exact Or.inl ⟨rfl, (Option.some.inj hu).symm⟩
  · rw [slots_put_ne hj] at hu
    exact Or.inr ⟨hj, hu⟩

theorem slots_reserve_cases {j : ℕ} {e : LogEntry} {u : Slot}
    (hu : (s.reserve c e).slots[j]? = some u) :
    (j = s.slots.length ∧
        u = ⟨stamp c s.log.indexer e, s.log.sequencer, s.log.indexer, .reserved⟩) ∨
      s.slots[j]? = some u := by
  simp only [State.reserve] at hu
  by_cases hj : j < s.slots.length
  · rw [List.getElem?_append_left hj] at hu
    exact Or.inr hu
  · rw [List.getElem?_append_right (by omega)] at hu
    obtain ⟨h0, hu'⟩ := List.getElem?_eq_some_iff.mp hu
    simp only [List.length_singleton, Nat.lt_one_iff] at h0
    refine Or.inl ⟨by omega, ?_⟩
    rw [← hu']
    simp

theorem getElem?_entries {t : Slot} (h : s.slots[i]? = some t) : s.entries[i]? = some t.e := by
  simp [State.entries, h]

theorem entries_reserve (c : Config) (s : State) (e : LogEntry) :
    (s.reserve c e).entries = s.entries ++ [stamp c s.log.indexer e] := by
  simp [State.entries, State.reserve]

@[simp] theorem entrySize_stamp (c : Config) (idx : ℕ) (e : LogEntry) :
    entrySize (stamp c idx e) = entrySize e := rfl

theorem Admissible.stamp {e : LogEntry} (h : Admissible e) (c : Config) (idx : ℕ) :
    Admissible (stamp c idx e) := ⟨h.sized, h.fits⟩

/-! ### The ranges tile the log -/

/-- **Ranges end to end.** Slot `i` starts where the entries before it end, and has the index `i`. -/
structure Tiled (s : State) : Prop where
  sequencer : s.log.sequencer = totalSize s.entries
  indexer : s.log.indexer = s.slots.length
  seq : ∀ {i : ℕ} {t : Slot}, s.slots[i]? = some t → t.seq = pos entrySize s.entries i
  idx : ∀ {i : ℕ} {t : Slot}, s.slots[i]? = some t → t.idx = i ∧ t.e.logIdx = UInt64.ofNat i
  admissible : ∀ {i : ℕ} {t : Slot}, s.slots[i]? = some t → Admissible t.e

theorem Tiled.put {t : Slot} (h : Tiled s) (ht : s.slots[i]? = some t) (st : Stage) {l : FlatLog}
    (h1 : l.sequencer = s.log.sequencer) (h2 : l.indexer = s.log.indexer) :
    Tiled (s.put i t st l) := by
  have hcases : ∀ {j : ℕ} {u : Slot}, (s.put i t st l).slots[j]? = some u →
      ∃ v, s.slots[j]? = some v ∧ u.seq = v.seq ∧ u.idx = v.idx ∧ u.e = v.e := by
    intro j u hu
    rcases slots_put_cases ht hu with ⟨rfl, rfl⟩ | ⟨-, hu⟩
    · exact ⟨t, ht, rfl, rfl, rfl⟩
    · exact ⟨u, hu, rfl, rfl, rfl⟩
  refine ⟨?_, ?_, fun hu => ?_, fun hu => ?_, fun hu => ?_⟩
  · rw [entries_put ht]; exact h1.trans h.sequencer
  · simpa [State.put] using h2.trans h.indexer
  · obtain ⟨v, hv, hs, -, -⟩ := hcases hu
    rw [entries_put ht, hs, h.seq hv]
  · obtain ⟨v, hv, -, hi, he⟩ := hcases hu
    rw [hi, he]; exact h.idx hv
  · obtain ⟨v, hv, -, -, he⟩ := hcases hu
    rw [he]; exact h.admissible hv

theorem Tiled.reserve {e : LogEntry} (h : Tiled s) (he : Admissible e) :
    Tiled (s.reserve c e) := by
  have hlen : s.entries.length = s.slots.length := by simp [State.entries]
  have hold : ∀ {j : ℕ} {u : Slot}, s.slots[j]? = some u → j ≤ s.entries.length := by
    intro j u hu
    rw [hlen]; exact (List.getElem?_eq_some_iff.mp hu).1.le
  refine ⟨?_, ?_, fun hu => ?_, fun hu => ?_, fun hu => ?_⟩
  · rw [entries_reserve, totalSize_append, ← h.sequencer]
    simp [State.reserve, Flat.reserve, he.getSize_eq]
  · simp [State.reserve, Flat.reserve, h.indexer]
  · rcases slots_reserve_cases hu with ⟨rfl, rfl⟩ | hu
    · rw [entries_reserve, pos_append_of_le hlen.ge, pos_of_length_le hlen.le]
      exact h.sequencer
    · rw [entries_reserve, pos_append_of_le (hold hu), h.seq hu]
  · rcases slots_reserve_cases hu with ⟨rfl, rfl⟩ | hu
    · exact ⟨h.indexer, by simp [stamp, h.indexer]⟩
    · exact h.idx hu
  · rcases slots_reserve_cases hu with ⟨rfl, rfl⟩ | hu
    · exact Admissible.stamp he c _
    · exact h.admissible hu

theorem copyOverflow_counters (c : Config) (l : FlatLog) (e : LogEntry) (seq : ℕ) :
    (copyOverflow c l e seq).sequencer = l.sequencer ∧
      (copyOverflow c l e seq).indexer = l.indexer ∧
      (copyOverflow c l e seq).orderedWatermk = l.orderedWatermk ∧
      (copyOverflow c l e seq).orderedIdxWatermk = l.orderedIdxWatermk := by
  unfold copyOverflow
  simp only
  split_ifs <;> exact ⟨rfl, rfl, rfl, rfl⟩

theorem insertReqid_counters (c : Config) (l : FlatLog) (e : LogEntry) (seq : ℕ) :
    (insertReqid c l e seq).sequencer = l.sequencer ∧
      (insertReqid c l e seq).indexer = l.indexer ∧
      (insertReqid c l e seq).orderedWatermk = l.orderedWatermk ∧
      (insertReqid c l e seq).mem = l.mem ∧
      (insertReqid c l e seq).orderedIdxWatermk = l.orderedIdxWatermk := by
  unfold insertReqid
  split_ifs <;> exact ⟨rfl, rfl, rfl, rfl, rfl⟩

theorem Tiled.appendStep (h : Tiled s) (hs : AppendStep c i s s') : Tiled s' := by
  cases hs with
  | reserve e he => exact h.reserve he
  | serialise ht => exact h.put ht _ rfl rfl
  | raiseFlag ht => exact h.put ht _ rfl rfl
  | copyOverflow ht =>
    obtain ⟨h1, h2, -⟩ := copyOverflow_counters c s.log _ _
    exact h.put ht _ h1 h2
  | insertReqid ht =>
    obtain ⟨h1, h2, -⟩ := insertReqid_counters c s.log _ _
    exact h.put ht _ h1 h2

theorem Tiled.setWatermk (h : Tiled s) (w wi : ℕ) : Tiled (s.setWatermk w wi) :=
  ⟨h.sequencer, h.indexer, h.seq, h.idx, h.admissible⟩

theorem Tiled.init (h : Init s) : Tiled s := by
  obtain ⟨hf, hn⟩ := h
  refine ⟨?_, ?_, fun hu => ?_, fun hu => ?_, fun hu => ?_⟩
  · rw [hf.sequencer, State.entries, hn]; rfl
  · rw [hf.indexer, hn]; rfl
  all_goals simp [hn] at hu

theorem tiled_of_reach (h : Reach Init (Step c) s) : Tiled s := by
  refine h.invariant (fun s hs => Tiled.init hs) fun s s' _ ht hs => ?_
  cases hs with
  | append h => exact ht.appendStep h
  | setWatermk w wi => exact ht.setWatermk w wi

/-! ### Consequences of the tiling -/

theorem Tiled.end_le_seq (h : Tiled s) {j : ℕ} {t u : Slot} (hij : i < j)
    (ht : s.slots[i]? = some t) (hu : s.slots[j]? = some u) : t.seq + entrySize t.e ≤ u.seq := by
  rw [h.seq ht, h.seq hu]
  exact pos_add_le (getElem?_entries ht) hij

theorem Tiled.end_le_sequencer (h : Tiled s) {t : Slot} (ht : s.slots[i]? = some t) :
    t.seq + entrySize t.e ≤ s.log.sequencer := by
  rw [h.seq ht, h.sequencer]
  exact pos_add_le_total (getElem?_entries ht)

/-- Sequence numbers of 64 bits leave room for less than `2 ^ 63` entries. -/
theorem Tiled.length_lt (h : Tiled s) (hlt : s.log.sequencer < 2 ^ 64) : s.slots.length < 2 ^ 63 := by
  have hle := le_totalSize s.entries
  rw [← h.sequencer, State.entries, List.length_map] at hle
  omega

theorem dvd_pos (es : List LogEntry) (i : ℕ) : 4 ∣ pos entrySize es i := by
  unfold pos
  refine List.dvd_sum fun x hx => ?_
  obtain ⟨e, -, rfl⟩ := List.mem_map.mp hx
  exact entrySize_dvd e

/-! ### A step writes inside the footprint of its entry -/

theorem footprint_setFlag {n seq k x : ℕ} {m : Mem} {flag : UInt16} (hk : metaDataSize ≤ k)
    (hx : ¬ Footprint n seq k x) : setFlag m (seq % n) flag x = m x := by
  unfold setFlag
  refine writeBytes_of_notMem ?_
  by_contra hcon
  simp only [length_leBytes, not_or, not_lt, not_le] at hcon
  refine hx ⟨x - seq % n, ?_, Or.inr (by omega)⟩
  unfold metaDataSize at hk
  omega

theorem footprint_serializer {n seq x : ℕ} {m : Mem} {e : LogEntry}
    (hx : ¬ Footprint n seq (entrySize e) x) : (serializer e m (seq % n)).1 x = m x := by
  rw [serializer_eq]
  refine writeBytes_of_notMem ?_
  by_contra hcon
  have := length_encode_le e
  exact hx ⟨x - seq % n, by omega, Or.inr (by omega)⟩

theorem footprint_copyOverflow {l : FlatLog} {e : LogEntry} {seq x : ℕ}
    (hk : entrySize e ≤ c.rgSize) (hx : ¬ Footprint c.rgSize seq (entrySize e) x) :
    (copyOverflow c l e seq).mem x = l.mem x := by
  unfold copyOverflow
  simp only [serializer_eq]
  have hmod := Nat.mod_lt seq c.rgSize_pos
  split_ifs with h
  · refine blit_of_notMem ?_
    by_contra hcon
    -- address `x` of the copy holds byte `x + rgSize - offset` of the entry
    have hlt : x < seq % c.rgSize + entrySize e - c.rgSize := by omega
    refine hx ⟨x + c.rgSize - seq % c.rgSize, by omega, Or.inl ?_⟩
    rw [add_mod_of_ge (by omega) (by omega)]
    omega
  · rfl

/-- **What a step may write**: it leaves every byte alone that is not in the footprint of its entry. -/
theorem appendStep_mem_eq (h : Tiled s) (hs : AppendStep c i s s') {x : ℕ}
    (hx : ∀ t, s'.slots[i]? = some t → ¬ Footprint c.rgSize t.seq (entrySize t.e) x) :
    s'.log.mem x = s.log.mem x := by
  have hput : ∀ {t : Slot} {st : Stage} {l : FlatLog}, s.slots[i]? = some t →
      (∀ v, (s.put i t st l).slots[i]? = some v →
        ¬ Footprint c.rgSize v.seq (entrySize v.e) x) →
      ¬ Footprint c.rgSize t.seq (entrySize t.e) x :=
    fun {t st l} ht hx => hx { t with stage := st } (slots_put_self ht st l)
  cases hs with
  | reserve e he =>
    have := hx ⟨stamp c s.log.indexer e, s.log.sequencer, s.log.indexer, .reserved⟩
      (by simp [State.reserve])
    exact footprint_setFlag (metaDataSize_le_entrySize e) this
  | serialise ht => exact footprint_serializer (hput ht hx)
  | raiseFlag ht => exact footprint_setFlag (metaDataSize_le_entrySize _) (hput ht hx)
  | copyOverflow ht =>
    have hfit := (h.admissible ht).fits
    have := c.le_rgSize
    exact footprint_copyOverflow (by unfold msgSize at hfit; omega) (hput ht hx)
  | insertReqid ht => rw [State.put, (insertReqid_counters c s.log _ _).2.2.2.1]

theorem copyOverflow_of_not_straddles {l : FlatLog} {t : Slot} (h : ¬ t.Straddles c) :
    copyOverflow c l t.e t.seq = l := by
  unfold copyOverflow
  simp only [serializer_eq]
  exact if_neg h

/-- The entry of a call that takes a step is not complete before it, unless the step leaves the region
alone. -/
theorem appendStep_cases (hs : AppendStep c i s s') :
    (i = s.slots.length ∧ ∃ e, s' = s.reserve c e ∧ Admissible e) ∨
      (∃ t st l, s.slots[i]? = some t ∧ s' = s.put i t st l ∧ ¬ t.Complete c) ∨
      s'.log.mem = s.log.mem := by
  cases hs with
  | reserve e he => exact Or.inl ⟨rfl, e, rfl, he⟩
  | serialise ht hst =>
    exact Or.inr (Or.inl ⟨_, _, _, ht, rfl, by simp [Slot.Complete, Slot.Finished, hst]⟩)
  | raiseFlag ht hst =>
    exact Or.inr (Or.inl ⟨_, _, _, ht, rfl, by simp [Slot.Complete, Slot.Finished, hst]⟩)
  | @copyOverflow s i t ht hst =>
    by_cases hstr : t.Straddles c
    · exact Or.inr (Or.inl ⟨_, _, _, ht, rfl, by simp [Slot.Complete, Slot.Finished, hst, hstr]⟩)
    · exact Or.inr (Or.inr (by rw [State.put, copyOverflow_of_not_straddles hstr]))
  | insertReqid ht => exact Or.inr (Or.inr (insertReqid_counters c s.log _ _).2.2.2.1)

/-- Two entries of a window of the size of the ring have disjoint footprints. -/
theorem Tiled.footprint_disjoint (h : Tiled s) {w j x : ℕ} {t u : Slot} (hij : i ≠ j)
    (ht : s.slots[i]? = some t) (hu : s.slots[j]? = some u) (hw : w ≤ t.seq) (hw' : w ≤ u.seq)
    (hS : s.log.sequencer ≤ w + c.rgSize) (hx : Footprint c.rgSize t.seq (entrySize t.e) x) :
    ¬ Footprint c.rgSize u.seq (entrySize u.e) x := by
  have h1 := h.end_le_sequencer ht
  have h2 := h.end_le_sequencer hu
  refine Lib.Circular.footprint_disjoint c.rgSize_pos hw (by omega) hw' (by omega) ?_ hx
  rcases Nat.lt_or_gt_of_ne hij with hlt | hlt
  · exact Or.inl (h.end_le_seq hlt ht hu)
  · exact Or.inr (h.end_le_seq hlt hu ht)

/-- The bytes of entry `j` survive a step of call `i`, if the watermark has passed neither of them and the
entries above it fit the ring. -/
theorem appendStep_mem_eq_of_window (h : Tiled s) (hs : AppendStep c i s s') {w j x : ℕ} {u : Slot}
    (hji : j ≠ i) (hu : s.slots[j]? = some u) (hw : w ≤ u.seq)
    (hi : ∀ t, s.slots[i]? = some t → ¬ t.Complete c → w ≤ t.seq)
    (hS : s'.log.sequencer ≤ w + c.rgSize) (hx : Footprint c.rgSize u.seq (entrySize u.e) x) :
    s'.log.mem x = s.log.mem x := by
  have h' := h.appendStep hs
  rcases appendStep_cases hs with ⟨rfl, e, rfl, he⟩ | ⟨t, st, l, ht, rfl, hnf⟩ | hm
  · have hu' : (s.reserve c e).slots[j]? = some u := by
      have hj := (List.getElem?_eq_some_iff.mp hu).1
      simp only [State.reserve]
      rwa [List.getElem?_append_left hj]
    refine appendStep_mem_eq h hs fun t ht hxt => ?_
    have hwt : w ≤ t.seq := by
      have h1 := h.end_le_sequencer hu
      rcases slots_reserve_cases ht with ⟨-, rfl⟩ | ht
      · simp only; omega
      · have := (List.getElem?_eq_some_iff.mp ht).1; omega
    exact h'.footprint_disjoint hji hu' ht hw hwt hS hx hxt
  · have hu' : (s.put i t st l).slots[j]? = some u := by rwa [slots_put_ne hji]
    refine appendStep_mem_eq h hs fun v hv hxv => ?_
    have hwv : w ≤ v.seq := by
      rw [slots_put_self ht] at hv
      cases hv
      exact hi t ht hnf
    exact h'.footprint_disjoint hji hu' hv hw hwv hS hx hxv
  · rw [hm]

/-- **Concurrent appends do not interfere.** The reserved ranges lie end to end from `0` to the sequencer,
at multiples of 4, the `i`-th one carrying the index `i`; and while the entries above the watermark fit
the ring and the watermark has passed finished calls only, a step of call `i` changes no byte, in either
view, of another entry at or above the watermark. -/
theorem appends_do_not_interfere (h : Reach Init (Step c) s) :
    (∀ (i : ℕ) (t : Slot), s.slots[i]? = some t → t.idx = i ∧ t.e.logIdx = UInt64.ofNat i ∧ 4 ∣ t.seq ∧
      t.seq + getSize t.e ≤ s.log.sequencer) ∧
    (∀ (i j : ℕ) (t u : Slot), i < j → s.slots[i]? = some t → s.slots[j]? = some u →
      t.seq + getSize t.e ≤ u.seq) ∧
    (∀ x < s.log.sequencer, ∃ (i : ℕ) (t : Slot), s.slots[i]? = some t ∧ t.seq ≤ x ∧ x < t.seq + getSize t.e) ∧
    ∀ i s', AppendStep c i s s' →
      s'.log.sequencer - s'.log.orderedWatermk ≤ c.rgSize →
      (∀ t ∈ s.slots, t.seq < s.log.orderedWatermk → t.Finished) →
      ∀ (j : ℕ) (u : Slot), j ≠ i → s.slots[j]? = some u → s.log.orderedWatermk ≤ u.seq →
        ∀ x, Footprint c.rgSize u.seq (getSize u.e) x → s'.log.mem x = s.log.mem x := by
  have hT := tiled_of_reach h
  refine ⟨fun i t ht => ?_, fun i j t u hij ht hu => ?_, fun x hx => ?_,
    fun i s' hs hocc hwm j u hji hu hw x hx => ?_⟩
  · obtain ⟨h1, h2⟩ := hT.idx ht
    refine ⟨h1, h2, ?_, ?_⟩
    · rw [hT.seq ht]; exact dvd_pos _ _
    · rw [(hT.admissible ht).getSize_eq]; exact hT.end_le_sequencer ht
  · rw [(hT.admissible ht).getSize_eq]; exact hT.end_le_seq hij ht hu
  · rw [hT.sequencer] at hx
    obtain ⟨i, e, he, h1, h2⟩ := exists_tile hx
    obtain ⟨t, ht, rfl⟩ : ∃ t, s.slots[i]? = some t ∧ t.e = e := by
      simpa [State.entries] using he
    rw [← hT.seq ht] at h1 h2
    exact ⟨i, t, ht, h1, by rwa [(hT.admissible ht).getSize_eq]⟩
  · rw [(hT.admissible hu).getSize_eq] at hx
    refine appendStep_mem_eq_of_window hT hs hji hu hw (fun t ht hnf => ?_) ?_ hx
    · by_contra hlt
      exact hnf (Or.inl (hwm t (List.mem_of_getElem? ht) (not_le.mp hlt)))
    · have hwm' : s'.log.orderedWatermk = s.log.orderedWatermk := by
        cases hs with
        | reserve e he => rfl
        | serialise ht => rfl
        | raiseFlag ht => rfl
        | copyOverflow ht => exact (copyOverflow_counters c s.log _ _).2.2.1
        | insertReqid ht => exact (insertReqid_counters c s.log _ _).2.2.1
      omega

/-- Two calls with empty entries have reserved; the first one serialising does not touch the flag of the
second. -/
theorem appends_do_not_interfere_two :
    (serialise .smallPrimary
        (((⟨.zeroed, []⟩ : State).reserve .smallPrimary default).reserve .smallPrimary default).log
        (stamp .smallPrimary 0 default) 0).mem 60 =
      (((⟨.zeroed, []⟩ : State).reserve .smallPrimary default).reserve .smallPrimary default).log.mem
        60 := by
  have he : Admissible default := ⟨rfl, by decide⟩
  have h0 : Reach Init (Step .smallPrimary) ⟨.zeroed, []⟩ := .start ⟨FlatLog.zeroed_fresh, rfl⟩
  have h := (h0.next (.append (.reserve default he))).next (.append (.reserve default he))
  refine (appends_do_not_interfere h).2.2.2 0 _ (.serialise rfl rfl) (by decide)
    (fun _ _ hlt => absurd hlt (Nat.not_lt_zero _)) 1 ⟨stamp .smallPrimary 1 default, 32, 1, .reserved⟩
    (by decide) rfl (by decide) 60 ?_
  exact ⟨28, by decide, Or.inr (by decide)⟩

end LazyLog.DurLog.Ranges
