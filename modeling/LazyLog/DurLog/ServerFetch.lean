import LazyLog.DurLog.Interleaved

/-! # Fetching on a backup (`DurabilityLogFlat::FetchUnorderedEntries`)

The loop takes one entry after the other from the watermark on and goes on by what `Deserializer` returns. For an
entry whose flag is not raised that is zero: the loop stays where it is, and takes the header of the entry again and
again until there are `max_entries_num` of them. -/

namespace LazyLog.DurLog.ServerFetch

open LazyLog.Lib.Bytes LazyLog.Lib.Tiling LazyLog.Lib.Run LazyLog.Rpc.Entry LazyLog.Rpc.Multi
open LazyLog.DurLog.Flat LazyLog.DurLog.Ranges LazyLog.DurLog.Ring LazyLog.DurLog.DelEntries
open LazyLog.DurLog.Interleaved hiding Step Start

/-! ### The function -/

/-- The loop of `FetchUnorderedEntries`, at `s` and with `n` entries taken: the vector after it and `n`. -/
def fetchLoop (c : Config) (l : FlatLog) (maxEntriesNum s n : ℕ) (e : List LogEntry) : List LogEntry × ℕ :=
  if s < l.sequencer then
    let r := deserializer default l.mem (s % c.rgSize)
    if maxEntriesNum ≤ n + 1 then (e ++ [r.1], n + 1)
    else fetchLoop c l maxEntriesNum (s + r.2) (n + 1) (e ++ [r.1])
  else (e, n)
termination_by maxEntriesNum - n

/-- `FetchUnorderedEntries`: the vector after it, and what it returns. -/
def fetchUnorderedEntries (c : Config) (l : FlatLog) (e : List LogEntry) (maxEntriesNum : ℕ) : List LogEntry × ℕ :=
  if c.isPrimary then (e, 0) else fetchLoop c l maxEntriesNum l.orderedWatermk 0 e

/-- **Only finished entries are returned**: those from the watermark on, up to the first one that is not finished or
to `max_entries_num`, and their number. -/
def FetchRight (c : Config) (s : State) (e : List LogEntry) (maxEntriesNum : ℕ) : Prop :=
  fetchUnorderedEntries c s.log e maxEntriesNum =
    (e ++ (((unordered s).takeWhile fun t => t.Flagged).take maxEntriesNum).map Slot.written,
      min maxEntriesNum ((unordered s).takeWhile fun t => t.Flagged).length)

/-- The first `max_entries_num` entries from the watermark on are finished, or all if there are less. -/
def AllFlagged (s : State) (maxEntriesNum : ℕ) : Prop := ∀ t ∈ (unordered s).take maxEntriesNum, t.Flagged

/-! ### Lists -/

section Lists
variable {α : Type*} {p : α → Bool}

theorem takeWhile_take_of_all : ∀ {l : List α} {n : ℕ}, (∀ a ∈ l.take n, p a = true) →
    (l.takeWhile p).take n = l.take n ∧ min n (l.takeWhile p).length = min n l.length
  | [], n, _ => by simp
  | a :: l, 0, _ => by simp
  | a :: l, n + 1, h => by
    rw [List.take_succ_cons] at h
    obtain ⟨h1, h2⟩ := takeWhile_take_of_all (l := l) (n := n) fun b hb => h b (List.mem_cons_of_mem a hb)
    rw [List.takeWhile_cons_of_pos (h a List.mem_cons_self)]
    refine ⟨by rw [List.take_succ_cons, List.take_succ_cons, h1], ?_⟩
    simp only [List.length_cons]
    omega

theorem length_takeWhile_lt : ∀ {l : List α} {n : ℕ} {a : α}, a ∈ l.take n → ¬ p a = true →
    (l.takeWhile p).length < n
  | [], n, a, h, _ => by simp at h
  | b :: l, 0, a, h, _ => by simp at h
  | b :: l, n + 1, a, h, ha => by
    rw [List.take_succ_cons] at h
    by_cases hb : p b = true
    · rcases List.mem_cons.mp h with rfl | h
      · exact absurd hb ha
      · rw [List.takeWhile_cons_of_pos hb, List.length_cons]
        exact Nat.succ_lt_succ (length_takeWhile_lt h ha)
    · rw [List.takeWhile_cons_of_neg hb]
      exact Nat.succ_pos n

end Lists

variable {c : Config} {s : State} {k maxEntriesNum n q : ℕ} {e : List LogEntry}

/-! ### The loop -/

/-- At an entry whose flag is zero the loop stays until its limit. -/
theorem fetchLoop_stuck {l : FlatLog} (hlt : q < l.sequencer) (hf : getFlagFromBuf l.mem (q % c.rgSize) = 0)
    (hn : n < maxEntriesNum) (e : List LogEntry) : (fetchLoop c l maxEntriesNum q n e).2 = maxEntriesNum := by
  obtain ⟨d, hd⟩ := Nat.exists_eq_add_of_lt hn
  induction d generalizing n e with
  | zero =>
    rw [fetchLoop, if_pos hlt, if_pos (by omega), hd]
  | succ d ih =>
    rw [fetchLoop, if_pos hlt, if_neg (by omega)]
    simp only [deserializer_of_flag_zero default hf, Nat.add_zero]
    exact ih (by omega) _ (by omega)

theorem fetchLoop_flagged (h : Contents c s) {t : Slot} (ht : s.slots[k]? = some t)
    (hw : s.log.orderedWatermk ≤ pos entrySize s.entries k) (hf : t.Flagged) :
    fetchLoop c s.log maxEntriesNum (pos entrySize s.entries k) n e =
      if maxEntriesNum ≤ n + 1 then (e ++ [t.written], n + 1)
      else fetchLoop c s.log maxEntriesNum (pos entrySize s.entries (k + 1)) (n + 1) (e ++ [t.written]) := by
  have hseq := h.tiled.seq ht
  have hend := h.tiled.end_le_sequencer ht
  have hsz := entrySize_pos t.e
  have hh := h.holds_of_flagged ht (by omega) hf
  have hd := deserializer_of_holds default hh (h.tiled.admissible ht).sized (show (1 : UInt16) ≠ 0 by decide)
  have hsize : entrySize t.written = entrySize t.e := rfl
  rw [fetchLoop, if_pos (by omega), ← hseq]
  simp only [hd, hsize]
  rw [hseq, ← pos_succ (f := entrySize) (getElem?_entries ht)]

theorem fetchLoop_of_all (h : Contents c s) : ∀ (l : List Slot) {k n : ℕ} {e : List LogEntry}, s.slots.drop k = l →
    s.log.orderedWatermk ≤ pos entrySize s.entries k → n < maxEntriesNum →
    (∀ t ∈ l.take (maxEntriesNum - n), t.Flagged) →
      fetchLoop c s.log maxEntriesNum (pos entrySize s.entries k) n e =
        (e ++ (l.take (maxEntriesNum - n)).map Slot.written, n + min (maxEntriesNum - n) l.length)
  | [], k, n, e, hl, _, _, _ => by
    have hend : pos entrySize s.entries k = s.log.sequencer := by
      rw [h.tiled.sequencer]
      exact pos_of_length_le (by simpa [State.entries] using hl)
    rw [fetchLoop, if_neg (by omega)]
    simp
  | t :: l, k, n, e, hl, hw, hn, hall => by
    have ht : s.slots[k]? = some t := by rw [← List.head?_drop, hl, List.head?_cons]
    have hl' : s.slots.drop (k + 1) = l := by rw [← List.tail_drop, hl, List.tail_cons]
    have hpos := pos_succ (f := entrySize) (getElem?_entries ht)
    obtain ⟨d, hd⟩ := Nat.exists_eq_add_of_lt hn
    have htake : maxEntriesNum - n = (maxEntriesNum - (n + 1)) + 1 := by omega
    rw [htake, List.take_succ_cons] at hall ⊢
    rw [fetchLoop_flagged h ht hw (hall t List.mem_cons_self)]
    split_ifs with hlast
    · rw [Nat.sub_eq_zero_of_le hlast]
      simp
    · rw [fetchLoop_of_all h l hl' (by omega) (by omega) fun u hu => hall u (List.mem_cons_of_mem t hu),
        List.map_cons, List.append_assoc, List.length_cons]
      refine Prod.ext rfl ?_
      simp only
      omega

theorem fetchLoop_of_unfinished (h : Contents c s) : ∀ (l : List Slot) {k n : ℕ} {e : List LogEntry} {t : Slot},
    s.slots.drop k = l → s.log.orderedWatermk ≤ pos entrySize s.entries k → n < maxEntriesNum →
    t ∈ l.take (maxEntriesNum - n) → ¬ t.Flagged →
      (fetchLoop c s.log maxEntriesNum (pos entrySize s.entries k) n e).2 = maxEntriesNum
  | [], k, n, e, t, _, _, _, hmem, _ => by simp at hmem
  | u :: l, k, n, e, t, hl, hw, hn, hmem, hf => by
    have hu : s.slots[k]? = some u := by rw [← List.head?_drop, hl, List.head?_cons]
    have hl' : s.slots.drop (k + 1) = l := by rw [← List.tail_drop, hl, List.tail_cons]
    have hseq := h.tiled.seq hu
    have hend := h.tiled.end_le_sequencer hu
    have hsz := entrySize_pos u.e
    by_cases hfu : u.Flagged
    · have hpos := pos_succ (f := entrySize) (getElem?_entries hu)
      have htake : maxEntriesNum - n = (maxEntriesNum - (n + 1)) + 1 := by omega
      rw [htake, List.take_succ_cons] at hmem
      have hmem' : t ∈ l.take (maxEntriesNum - (n + 1)) := by
        rcases List.mem_cons.mp hmem with rfl | hmem
        · exact absurd hfu hf
        · exact hmem
      rw [fetchLoop_flagged h hu hw hfu]
      split_ifs with hlast
      · simp only
        omega
      · exact fetchLoop_of_unfinished h l hl' (by omega) (by omega) hmem' hf
    · refine fetchLoop_stuck (by omega) ?_ hn e
      rw [← hseq]
      exact h.flag_zero_of_not_flagged hu (by omega) hfu

/-- **What is fetched**, for any contents of the ring. -/
theorem fetchRight_iff (h : Contents c s) (hc : c.isPrimary = false) (hmax : 1 ≤ maxEntriesNum) (e : List LogEntry) :
    FetchRight c s e maxEntriesNum ↔ AllFlagged s maxEntriesNum := by
  obtain ⟨k, -, hw, hun⟩ := unordered_eq_drop h
  have hfetch : fetchUnorderedEntries c s.log e maxEntriesNum =
      fetchLoop c s.log maxEntriesNum (pos entrySize s.entries k) 0 e := by
    unfold fetchUnorderedEntries
    rw [hc, hw]
    rfl
  unfold FetchRight AllFlagged
  rw [hfetch, hun]
  constructor
  · intro heq t ht
    by_contra hf
    have hstuck := fetchLoop_of_unfinished h _ rfl hw.le hmax ht hf (e := e)
    rw [heq] at hstuck
    have hlt := length_takeWhile_lt (p := fun t => t.Flagged) ht (by simpa using hf)
    simp only at hstuck
    omega
  · intro hall
    obtain ⟨h1, h2⟩ := takeWhile_take_of_all (p := fun t => t.Flagged) (l := s.slots.drop k) (n := maxEntriesNum)
      fun t ht => by simpa using hall t ht
    rw [fetchLoop_of_all h _ rfl hw.le hmax hall, h1, h2, Nat.sub_zero, Nat.zero_add]

/-! ### On a backup at work -/

/-- **The fetch on a backup returns finished entries only** exactly if the first `max_entries_num` entries from the
watermark on are finished, in every run in which the loop of a collection passes complete entries only. -/
theorem fetch_returns_finished_iff {v : Backup} (hc : c.isPrimary = false)
    (h : Reachable c (Passing fun t => t.Complete c) v) (hmax : 1 ≤ maxEntriesNum) (e : List LogEntry) :
    FetchRight c v.server e maxEntriesNum ↔ AllFlagged v.server maxEntriesNum :=
  fetchRight_iff (sound_of_reachable (fun _ _ hp => hp) h).contents hc hmax e

/-- Two entries have been appended and a third is reserved: a fetch of two is right, one of three is not. -/
theorem fetch_returns_finished_iff_three : ∃ s, Reachable smallBackup (Passing fun t => t.Complete smallBackup)
    ⟨s, .idle⟩ ∧ (unordered s).length = 3 ∧ FetchRight smallBackup s [] 2 ∧ ¬ FetchRight smallBackup s [] 3 := by
  have h₁ : Reachable smallBackup (Passing fun t => t.Complete smallBackup)
      ⟨append smallBackup ⟨.zeroed, []⟩ default, .idle⟩ :=
    Reachable.append (.start rfl) default_admissible rfl (by decide) (passing_of_cursor_eq rfl) passing_of_appendStep
  have h₂ := Reachable.append h₁ default_admissible rfl (by decide) (passing_of_cursor_eq rfl) passing_of_appendStep
  have h₃ := h₂.next ⟨.reserve default default_admissible rfl (by decide), passing_of_cursor_eq rfl⟩
  refine ⟨_, h₃, by decide, (fetch_returns_finished_iff rfl h₃ (by decide) []).mpr ?_, fun hright => ?_⟩
  · unfold AllFlagged
    decide
  · have hall := (fetch_returns_finished_iff rfl h₃ (by decide) []).mp hright
    unfold AllFlagged at hall
    revert hall
    decide

/-- **An entry that is only reserved is returned twice.** -/
theorem fetch_repeats_unfinished :
    Reachable smallBackup (Passing fun t => t.Complete smallBackup)
        ⟨State.reserve smallBackup ⟨.zeroed, []⟩ default, .idle⟩ ∧
      (fetchUnorderedEntries smallBackup (State.reserve smallBackup ⟨.zeroed, []⟩ default).log [] 2).2 = 2 ∧
      ¬ FetchRight smallBackup (State.reserve smallBackup ⟨.zeroed, []⟩ default) [] 2 := by
  have hreserve : Interleaved.Step smallBackup ⟨⟨.zeroed, []⟩, .idle⟩
      ⟨State.reserve smallBackup ⟨.zeroed, []⟩ default, .idle⟩ :=
    .reserve default default_admissible rfl (by decide)
  have hfetch :
      (fetchUnorderedEntries smallBackup (State.reserve smallBackup ⟨.zeroed, []⟩ default).log [] 2).2 = 2 :=
    fetchLoop_stuck (by decide) (by decide) (by decide) []
  refine ⟨.next (.start rfl) ⟨hreserve, passing_of_cursor_eq rfl⟩, hfetch, fun h => ?_⟩
  rw [h] at hfetch
  revert hfetch
  decide

end LazyLog.DurLog.ServerFetch
