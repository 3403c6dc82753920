import LazyLog.ConsLog.Link
import LazyLog.DurLog.Collections
import LazyLog.DurLog.Snapshot

/-! # The two watermarks

A server keeps its watermark twice, as a byte position and as an index. On the primary both are written from
outside, from the end of a fetched batch; on a backup the collection computes them from the entries that it goes
through. In both cases they name the same record (`SameRecord`): the byte watermark is the start of an entry or
the end of the log, and the index watermark is the number of entries below it. -/

namespace LazyLog.ConsLog.Watermarks

open LazyLog.Lib.Bytes LazyLog.Lib.Tiling LazyLog.Lib.Run
open LazyLog.Rpc.Entry LazyLog.Rpc.Multi LazyLog.ConsLog.Batches LazyLog.ConsLog.Link
open LazyLog.DurLog.Flat LazyLog.DurLog.Ranges LazyLog.DurLog.Ring LazyLog.DurLog.FlatCli
open LazyLog.DurLog.Snapshot (endOf endOf_sentinel)

/-- **The watermarks name the same record.** -/
structure SameRecord (p : State) : Prop where
  boundary : p.log.orderedWatermk = p.log.sequencer ∨ ∃ t ∈ p.slots, t.seq = p.log.orderedWatermk
  le : p.log.orderedWatermk ≤ p.log.sequencer
  count : p.log.orderedIdxWatermk = (p.slots.filter fun t => t.seq < p.log.orderedWatermk).length

variable {c : Config} {p : State}

theorem filter_seq_lt (hT : Tiled p) {k : ℕ} (hk : k ≤ p.slots.length) :
    (p.slots.filter fun t => t.seq < pos entrySize p.entries k) = p.slots.take k := by
  have hlen : p.entries.length = p.slots.length := by simp [State.entries]
  have hbelow : (p.slots.take k).filter (fun t => t.seq < pos entrySize p.entries k) = p.slots.take k := by
    refine List.filter_eq_self.mpr fun t ht => ?_
    obtain ⟨i, hi⟩ := List.mem_iff_getElem?.mp ht
    rw [List.getElem?_take] at hi
    split_ifs at hi with hik
    rw [decide_eq_true_iff, hT.seq hi]
    exact pos_strictMono (fun e _ => entrySize_pos e) (by omega) hik
  have habove : (p.slots.drop k).filter (fun t => t.seq < pos entrySize p.entries k) = [] := by
    refine List.filter_eq_nil_iff.mpr fun t ht => ?_
    obtain ⟨i, hi⟩ := List.mem_iff_getElem?.mp ht
    rw [List.getElem?_drop] at hi
    rw [decide_eq_true_iff, hT.seq hi, not_lt]
    exact pos_mono (Nat.le_add_right _ _)
  conv_lhs => rw [← List.take_append_drop k p.slots, List.filter_append, hbelow, habove, List.append_nil]

theorem sameRecord_of_mark (hT : Tiled p) {k : ℕ} (hk : k ≤ p.slots.length)
    (hw : p.log.orderedWatermk = pos entrySize p.entries k) (hi : p.log.orderedIdxWatermk = k) :
    SameRecord p := by
  refine ⟨?_, ?_, ?_⟩
  · rcases Nat.lt_or_ge k p.slots.length with hlt | hge
    · have ht := List.getElem?_eq_getElem hlt
      exact Or.inr ⟨_, List.mem_of_getElem? ht, by rw [hw, hT.seq ht]⟩
    · rw [hw, hT.sequencer]
      exact Or.inl (pos_of_length_le (by simpa [State.entries] using hge))
  · rw [hw, hT.sequencer]
    exact pos_le_total k
  · rw [hw, hi, filter_seq_lt hT hk, List.length_take, min_eq_left hk]

/-! ### The primary -/

/-- The primary and the client that fetches from it and collects: its buffer, the range of the fetch under way
with the position where it is to begin, the end of the last batch, the batches that are not collected yet, and
whether a write of the watermarks is posted. -/
structure Collector where
  primary : State
  mr : Mem
  fetching : Option ((ℕ × ℕ) × ℕ)
  next : ℕ
  fetched : List (List LogEntry)
  posted : Bool

/-- The watermarks of a batch are put into the buffer. -/
def Collector.stage (c : Config) (s : Collector) (es : List LogEntry) : Mem :=
  stageDelete c s.mr (processFetchedEntries true es []).2

/-- Whole calls of `AppendEntry`, fetches one after the other, and collections in the order fetched. A fetch
begins at the end of the last batch, or anywhere up to the watermark if everything fetched is collected. -/
inductive PrimaryStep (c : Config) : Collector → Collector → Prop
  | append {s : Collector} (e : LogEntry) (he : CanAppend c s.primary e) :
    PrimaryStep c s { s with primary := append c s.primary e }
  | fetchRange {s : Collector} (frm : ℕ) (hpc : s.fetching = none)
    (hfrm : frm = s.next ∨ s.fetched = [] ∧ s.posted = false ∧ frm ≤ s.primary.log.orderedWatermk) :
    PrimaryStep c s { s with fetching := some (getUnorderedRange s.primary.log, frm) }
  | fetchNone {s : Collector} {range : ℕ × ℕ} {frm : ℕ} (maxFetchSize : ℕ)
    (hpc : s.fetching = some (range, frm)) (hnone : ∀ b e, fetchBounds range frm maxFetchSize = some (b, e) →
      readSegments c.rgSize s.primary.log.mem s.mr b e = none) :
    PrimaryStep c s { s with fetching := none }
  | fetchRead {s : Collector} {range : ℕ × ℕ} {frm b e : ℕ} {mr : Mem} (maxFetchSize : ℕ)
    (hpc : s.fetching = some (range, frm)) (hb : fetchBounds range frm maxFetchSize = some (b, e))
    (hread : readSegments c.rgSize s.primary.log.mem s.mr b e = some mr) :
    PrimaryStep c s
      (if (decodeFetched [] mr b e).2 = 0 then { s with mr := mr, fetching := none }
      else
        { s with
          mr := mr
          fetching := none
          next := endOf (decodeFetched [] mr b e).1
          fetched := s.fetched ++ [(decodeFetched [] mr b e).1] })
  | deleteOrderedEntries {s : Collector} {es : List LogEntry} {rest : List (List LogEntry)}
    (hes : s.fetched = es :: rest) (hposted : s.posted = false) :
    PrimaryStep c s
      { s with mr := s.stage c es, fetched := rest, primary := landDelete c (s.stage c es) s.primary }
  | deleteOrderedEntriesAsync {s : Collector} {es : List LogEntry} {rest : List (List LogEntry)}
    (hes : s.fetched = es :: rest) (hposted : s.posted = false) :
    PrimaryStep c s { s with mr := s.stage c es, fetched := rest, posted := true }
  | land {s : Collector} (hposted : s.posted = true) :
    PrimaryStep c s { s with primary := landDelete c s.mr s.primary, posted := false }

/-- The primary has just been started, and nothing has been fetched. -/
def PrimaryStart (s : Collector) : Prop :=
  Init s.primary ∧ s.fetching = none ∧ s.next = 0 ∧ s.fetched = [] ∧ s.posted = false

/-- **The invariant of the primary**: the watermarks are at entry `g`, a posted write takes them to entry `k`,
and the batches fetched are those from entry `k` to entry `f`. -/
structure PrimaryInv (c : Config) (s : Collector) (g k f : ℕ) : Prop where
  primary : Primary c s.primary g
  le : g ≤ k
  idle : s.posted = false → k = g
  staged : s.posted = true → Staged c (recs s.primary) s.mr k
  cut : Cut (recs s.primary) k s.fetched f
  le_length : f ≤ (recs s.primary).length
  next : s.next = pos entrySize (recs s.primary) f
  ranged : ∀ range frm, s.fetching = some (range, frm) →
    Ranged c s.primary f range ∧ max range.1 frm = pos entrySize (recs s.primary) f

variable {s s' : Collector} {g k f : ℕ}

theorem PrimaryInv.start (h : PrimaryStart s) : PrimaryInv c s 0 0 0 := by
  obtain ⟨hinit, hfetching, hnext, hfetched, hposted⟩ := h
  refine ⟨Primary.init hinit, Nat.le_refl _, fun _ => rfl, ?_, ?_, Nat.zero_le _, ?_, ?_⟩
  · intro hp
    rw [hposted] at hp
    cases hp
  · rw [hfetched]
    rfl
  · rw [hnext, pos_zero]
  · intro range frm hr
    rw [hfetching] at hr
    cases hr

theorem PrimaryInv.append {e : LogEntry} (h : PrimaryInv c s g k f) (he : CanAppend c s.primary e) :
    PrimaryInv c { s with primary := append c s.primary e } g k f := by
  have hk := h.cut.le
  have hlen := h.le_length
  refine ⟨h.primary.append he, h.le, h.idle, fun hp => ?_, ?_, ?_, ?_, fun range frm hr => ?_⟩
  · simp only [recs_append]
    exact (h.staged hp).mono (by omega)
  · simp only [recs_append]
    exact h.cut.mono
  · simp only [recs_append, List.length_append]
    omega
  · simp only [recs_append]
    rw [pos_append_of_le hlen]
    exact h.next
  · obtain ⟨h1, h2⟩ := h.ranged range frm hr
    refine ⟨h1.append hlen e, ?_⟩
    simp only [recs_append]
    rw [pos_append_of_le hlen]
    exact h2

theorem PrimaryInv.fetchRange {frm : ℕ} (h : PrimaryInv c s g k f)
    (hfrm : frm = s.next ∨ s.fetched = [] ∧ s.posted = false ∧ frm ≤ s.primary.log.orderedWatermk) :
    PrimaryInv c { s with fetching := some (getUnorderedRange s.primary.log, frm) } g k f := by
  have hgf : g ≤ f := h.le.trans h.cut.le
  have hw : s.primary.log.orderedWatermk ≤ pos entrySize (recs s.primary) f := by
    rw [h.primary.mark]
    exact pos_mono hgf
  refine ⟨h.primary, h.le, h.idle, h.staged, h.cut, h.le_length, h.next, fun range frm' hr => ?_⟩
  cases hr
  refine ⟨h.primary.ranged hgf, ?_⟩
  show max s.primary.log.orderedWatermk frm = _
  rcases hfrm with rfl | ⟨hnil, hposted, hle⟩
  · rw [h.next]
    exact max_eq_right hw
  · have hcut := h.cut
    rw [hnil, h.idle hposted] at hcut
    obtain rfl : g = f := hcut
    rw [max_eq_left hle, h.primary.mark]

theorem PrimaryInv.fetchNone (h : PrimaryInv c s g k f) : PrimaryInv c { s with fetching := none } g k f :=
  ⟨h.primary, h.le, h.idle, h.staged, h.cut, h.le_length, h.next, fun _ _ hr => by cases hr⟩

/-- A fetch adds the batch that it reads, and leaves the words of a posted write in the buffer. -/
theorem PrimaryInv.fetchRead {range : ℕ × ℕ} {frm maxFetchSize b e : ℕ} {mr : Mem} (h : PrimaryInv c s g k f)
    (hpc : s.fetching = some (range, frm)) (hb : fetchBounds range frm maxFetchSize = some (b, e))
    (hread : readSegments c.rgSize s.primary.log.mem s.mr b e = some mr) :
    ∃ f', PrimaryInv c
      (if (decodeFetched [] mr b e).2 = 0 then { s with mr := mr, fetching := none }
      else
        { s with
          mr := mr
          fetching := none
          next := endOf (decodeFetched [] mr b e).1
          fetched := s.fetched ++ [(decodeFetched [] mr b e).1] }) g k f' := by
  obtain ⟨hranged, hmax⟩ := h.ranged range frm hpc
  obtain ⟨hload, hkeep⟩ := h.primary.read (h.le.trans h.cut.le) h.le_length hranged hmax hb hread
  have hstaged : s.posted = true → Staged c (recs s.primary) mr k := fun hp => (h.staged hp).congr hkeep
  split_ifs with h0
  · exact ⟨f, h.primary, h.le, h.idle, hstaged, h.cut, h.le_length, h.next, fun _ _ hr => by cases hr⟩
  · rcases hload.decode with hnone | ⟨n, hn, hfn, hdec⟩
    · rw [hnone] at h0
      exact absurd rfl h0
    · have hpos : pos entrySize (recs s.primary) (f + n) < 2 ^ 64 := by
        have hle := pos_le_total (f := entrySize) (l := recs s.primary) (f + n)
        have htot : s.primary.log.sequencer = ((recs s.primary).map entrySize).sum := h.primary.total
        have hseq := h.primary.seq_lt
        omega
      rw [hdec]
      refine ⟨f + n, h.primary, h.le, h.idle, hstaged, h.cut.append (cut_singleton hn hfn), hfn, ?_,
        fun _ _ hr => by cases hr⟩
      exact endOf_sentinel _ hpos

/-- The batch that is collected next, and what its collection puts into the buffer. -/
theorem PrimaryInv.stage {es : List LogEntry} {rest : List (List LogEntry)} (h : PrimaryInv c s g k f)
    (hes : s.fetched = es :: rest) :
    ∃ n, k + n ≤ (recs s.primary).length ∧ Cut (recs s.primary) (k + n) rest f ∧
      Staged c (recs s.primary) (s.stage c es) (k + n) := by
  have hcut := h.cut
  rw [hes] at hcut
  obtain ⟨n, hn, hkn, rfl, hrest⟩ := hcut
  exact ⟨n, hkn, hrest, (h.primary.stage hn hkn s.mr).1⟩

theorem ranged_landDelete {range : ℕ × ℕ} (h : Ranged c p f range) (mr : Mem) :
    Ranged c (landDelete c mr p) f range := by
  refine ⟨h.le, ?_, ?_, h.room⟩
  · rw [recs_landDelete]
    exact h.begin_le
  · rw [landDelete_sequencer]
    exact h.end_le

theorem PrimaryInv.deleteAsync {es : List LogEntry} {rest : List (List LogEntry)} (h : PrimaryInv c s g k f)
    (hes : s.fetched = es :: rest) :
    ∃ k', PrimaryInv c { s with mr := s.stage c es, fetched := rest, posted := true } g k' f := by
  obtain ⟨n, -, hrest, hstaged⟩ := h.stage hes
  exact ⟨k + n, h.primary, Nat.le_add_right_of_le h.le, (fun hp => by cases hp), fun _ => hstaged, hrest, h.le_length,
    h.next, h.ranged⟩

theorem PrimaryInv.land (h : PrimaryInv c s g k f) (hposted : s.posted = true) :
    PrimaryInv c { s with primary := landDelete c s.mr s.primary, posted := false } k k f := by
  refine ⟨h.primary.land (h.staged hposted) h.le (h.cut.le.trans h.le_length), Nat.le_refl _, fun _ => rfl,
    (fun hp => by cases hp), ?_, ?_, ?_, fun range frm hr => ?_⟩
  · simp only [recs_landDelete]
    exact h.cut
  · simp only [recs_landDelete]
    exact h.le_length
  · simp only [recs_landDelete]
    exact h.next
  · obtain ⟨h1, h2⟩ := h.ranged range frm hr
    simp only [recs_landDelete]
    exact ⟨ranged_landDelete h1 _, h2⟩

/-- The write that is waited for is one that is posted and lands at once. -/
theorem PrimaryInv.delete {es : List LogEntry} {rest : List (List LogEntry)} (h : PrimaryInv c s g k f)
    (hes : s.fetched = es :: rest) (hposted : s.posted = false) :
    ∃ g', g ≤ g' ∧ PrimaryInv c
      { s with mr := s.stage c es, fetched := rest, primary := landDelete c (s.stage c es) s.primary }
      g' g' f := by
  obtain ⟨k', h'⟩ := h.deleteAsync hes
  have hland := h'.land rfl
  dsimp only at hland
  rw [← hposted] at hland
  exact ⟨k', h'.le, hland⟩

/-- **One step of the primary** keeps the invariant, and the watermarks do not go back. -/
theorem PrimaryInv.step (h : PrimaryInv c s g k f) (hs : PrimaryStep c s s') :
    ∃ g' k' f', g ≤ g' ∧ PrimaryInv c s' g' k' f' := by
  cases hs with
  | append e he => exact ⟨g, k, f, Nat.le_refl _, h.append he⟩
  | fetchRange frm hpc hfrm => exact ⟨g, k, f, Nat.le_refl _, h.fetchRange hfrm⟩
  | fetchNone maxFetchSize hpc hnone => exact ⟨g, k, f, Nat.le_refl _, h.fetchNone⟩
  | fetchRead maxFetchSize hpc hb hread =>
    obtain ⟨f', h'⟩ := h.fetchRead hpc hb hread
    exact ⟨g, k, f', Nat.le_refl _, h'⟩
  | deleteOrderedEntries hes hposted =>
    obtain ⟨g', hle, h'⟩ := h.delete hes hposted
    exact ⟨g', g', f, hle, h'⟩
  | deleteOrderedEntriesAsync hes hposted =>
    obtain ⟨k', h'⟩ := h.deleteAsync hes
    exact ⟨g, k', f, Nat.le_refl _, h'⟩
  | land hposted => exact ⟨k, k, f, h.le, h.land hposted⟩

theorem primaryInv_of_reach (h : Reach PrimaryStart (PrimaryStep c) s) : ∃ g k f, PrimaryInv c s g k f := by
  refine h.invariant (P := fun s => ∃ g k f, PrimaryInv c s g k f)
    (fun s hs => ⟨0, 0, 0, PrimaryInv.start hs⟩) fun s s' _ hI hs => ?_
  obtain ⟨g, k, f, hI⟩ := hI
  obtain ⟨g', k', f', -, hI'⟩ := hI.step hs
  exact ⟨g', k', f', hI'⟩

theorem PrimaryInv.sameRecord (h : PrimaryInv c s g k f) : SameRecord s.primary := by
  refine sameRecord_of_mark h.primary.contents.tiled ?_ ?_ h.primary.idxMark
  · rw [← length_recs]
    exact h.primary.le_length
  · rw [h.primary.mark, pos_recs]

theorem PrimaryStep.recs_isPrefix (hs : PrimaryStep c s s') : recs s.primary <+: recs s'.primary := by
  cases hs with
  | append e he =>
    simp only [recs_append]
    exact List.prefix_append _ _
  | fetchRead maxFetchSize hpc hb hread =>
    split_ifs <;> exact List.prefix_rfl
  | deleteOrderedEntries hes hposted | land hposted =>
    simp only [recs_landDelete]
    exact List.prefix_rfl
  | fetchRange | fetchNone | deleteOrderedEntriesAsync => exact List.prefix_rfl

theorem PrimaryInv.mono (h : PrimaryInv c s g k f) (hs : PrimaryStep c s s') :
    s.primary.log.orderedWatermk ≤ s'.primary.log.orderedWatermk := by
  obtain ⟨g', k', f', hle, h'⟩ := h.step hs
  obtain ⟨L, hL⟩ := hs.recs_isPrefix
  have hpos : pos entrySize (recs s.primary ++ L) g = pos entrySize (recs s.primary) g :=
    pos_append_of_le h.primary.le_length
  rw [h.primary.mark, h'.primary.mark, ← hL, ← hpos]
  exact pos_mono hle

/-! ### A backup -/

section Backup
open LazyLog.DurLog.DelEntries LazyLog.DurLog.Collections
open LazyLog.DurLog.Interleaved (Start smallBackup)

variable {v v' : Backup}

/-- Calls of `AppendEntry`, and collections with any requests. The insertion into `reqid_to_seq_map_`, which
needs `lk_`, is a step of its own. -/
inductive BackupStep (c : Config) : Backup → Backup → Prop
  | append {v : Backup} (e : LogEntry) (he : CanAppend c v.server e) :
    BackupStep c v { v with server := appendMem c v.server e }
  | request {v : Backup} (ids : List ReqID) (hpc : v.gc = .idle) :
    BackupStep c v { v with gc := .requested ids }
  | collect {v v' : Backup} (h : Step c v v') : BackupStep c v v'
  | reply {v : Backup} {nDel : ℕ} (hpc : v.gc = .replied nDel) : BackupStep c v { v with gc := .idle }

/-- The collection is not on its way through the ring, or waits there for a flag. -/
def AtRest (c : Config) (v : Backup) : Prop :=
  ¬ v.gc.Locked ∨ ∃ ids maxSeq nDel s, v.gc = .scanning ids maxSeq nDel s ∧ s ≤ maxSeq ∧
    getFlagFromBuf v.server.log.mem (s % c.rgSize) ≠ 1

/-- The index watermark goes with the cursor of the collection. -/
def Marked (v : Backup) : Prop :=
  ∃ k ≤ v.server.slots.length, v.cursor = pos entrySize v.server.entries k ∧
    v.server.log.orderedIdxWatermk = k

/-- **The invariant of a backup.** -/
structure BackupInv (c : Config) (v : Backup) : Prop where
  inv : Inv c (fun _ => True) v
  seq_lt : v.server.log.sequencer < 2 ^ 64
  marked : Marked v

theorem BackupInv.start (h : Start v) : BackupInv c v := by
  rw [h]
  exact ⟨.start c _, by decide, 0, Nat.le_refl _, rfl, rfl⟩

theorem BackupInv.append {e : LogEntry} (h : BackupInv c v) (he : CanAppend c v.server e) :
    BackupInv c { v with server := appendMem c v.server e } := by
  obtain ⟨h1, -, h3, -, -⟩ := appendMem_counters c v.server e
  obtain ⟨k, hk, hcur, hidx⟩ := h.marked
  refine ⟨h.inv.append he, ?_, k, ?_, ?_, ?_⟩
  · rw [h1]
    exact he.seq_lt
  · exact hk.trans (by simp [appendMem])
  · rw [cursor_appendMem, entries_appendMem, pos_append_of_le (by simpa [State.entries] using hk)]
    exact hcur
  · rw [h3]
    exact hidx

theorem BackupInv.setGc (h : BackupInv c v) (gc : GcPc) (hlk : ¬ v.gc.Locked) (hlk' : ¬ gc.Locked)
    (hm : gc.maxSeq = 0) : BackupInv c { v with gc := gc } := by
  obtain ⟨k, hk, hcur, hidx⟩ := h.marked
  refine ⟨h.inv.setGc gc hlk hlk' hm, h.seq_lt, k, hk, ?_, hidx⟩
  rw [← hcur, cursor_of_not_locked hlk]
  exact cursor_of_not_locked (v := { v with gc := gc }) hlk'

/-- Only a round moves the cursor and the index, by the entry that it goes over. -/
theorem Marked.collect (h : Marked v) (hI : Inv c (fun _ => True) v)
    (hlt : v.server.log.sequencer < 2 ^ 64) (hs : Step c v v') : Marked v' := by
  obtain ⟨k, hk, hcur, hidx⟩ := h
  cases hs with
  | @insertReqid i t ht hst hlk =>
    refine ⟨k, by simpa [State.put] using hk, ?_, ?_⟩
    · rw [cursor_insertReqid, entries_put ht]
      exact hcur
    · simp only [State.put, (insertReqid_counters c v.server.log t.e t.seq).2.2.2.2]
      exact hidx
  | @note ids hpc =>
    obtain ⟨m, hm⟩ := noteMaxSeq_log ids v.server.log
    rw [cursor_of_not_locked (by rw [hpc]; exact id)] at hcur
    rw [hm]
    exact ⟨k, hk, hcur, hidx⟩
  | pending hpc =>
    rw [cursor_of_not_locked (by rw [hpc]; exact id)] at hcur
    exact ⟨k, hk, hcur, hidx⟩
  | @round ids _ nDel s hpc hle hf =>
    obtain ⟨j, t, ht, hseq, hh, -⟩ := hI.current hpc hle hf
    have heq := delRound_eq ids nDel (hI.contents.tiled.admissible ht) hh
    have hj := (List.getElem?_eq_some_iff.mp ht).1
    have hlen := hI.contents.tiled.length_lt hlt
    rw [heq]
    refine ⟨j + 1, hj, ?_, ?_⟩
    · show s + entrySize t.e = pos entrySize v.server.entries (j + 1)
      rw [pos_succ (getElem?_entries ht), ← hI.contents.tiled.seq ht, hseq]
    · show (t.e.logIdx + 1).toNat = j + 1
      have hlt64 : j + 1 < UInt64.size := by
        show j + 1 < 2 ^ 64
        omega
      rw [(hI.contents.tiled.idx ht).2, ← UInt64.ofNat_one, ← UInt64.ofNat_add]
      exact UInt64.toNat_ofNat_of_lt' hlt64
  | finish hpc hgt =>
    rw [cursor_of_scanning hpc] at hcur
    exact ⟨k, hk, hcur, hidx⟩

theorem sequencer_of_collect (hs : Step c v v') : v'.server.log.sequencer = v.server.log.sequencer := by
  cases hs with
  | @insertReqid i t ht hst hlk => exact (insertReqid_counters c v.server.log t.e t.seq).1
  | @note ids hpc =>
    obtain ⟨m, hm⟩ := noteMaxSeq_log ids v.server.log
    rw [hm]
  | pending hpc | finish hpc hgt => rfl
  | @round ids _ nDel s hpc hle hf => exact (delRound_counters ids v.server.log nDel s).1

/-- **One step of a backup** keeps the invariant. -/
theorem BackupInv.step (h : BackupInv c v) (hs : BackupStep c v v') : BackupInv c v' := by
  cases hs with
  | append e he => exact h.append he
  | request ids hpc => exact h.setGc _ (by simp [hpc, GcPc.Locked]) (by simp [GcPc.Locked]) rfl
  | collect hs =>
    refine ⟨h.inv.step hs fun _ _ _ _ => trivial, ?_, h.marked.collect h.inv h.seq_lt hs⟩
    rw [sequencer_of_collect hs]
    exact h.seq_lt
  | reply hpc => exact h.setGc _ (by simp [hpc, GcPc.Locked]) (by simp [GcPc.Locked]) rfl

theorem backupInv_of_reach (h : Reach Start (BackupStep c) v) : BackupInv c v :=
  h.invariant (fun _ hv => BackupInv.start hv) fun _ _ _ hI hs => hI.step hs

/-- The watermark only moves when a collection ends, to the cursor. -/
theorem BackupInv.mono (h : BackupInv c v) (hs : BackupStep c v v') :
    v.server.log.orderedWatermk ≤ v'.server.log.orderedWatermk := by
  cases hs with
  | append e he => exact (appendMem_counters c v.server e).2.1.ge
  | request | reply => exact Nat.le_refl _
  | collect hs =>
    cases hs with
    | @insertReqid i t ht hst hlk => exact (insertReqid_counters c v.server.log t.e t.seq).2.2.1.ge
    | @note ids hpc =>
      obtain ⟨m, hm⟩ := noteMaxSeq_log ids v.server.log
      rw [hm]
    | pending => exact Nat.le_refl _
    | @round ids _ nDel s hpc hs hf => exact (delRound_counters ids v.server.log nDel s).2.ge
    | finish hpc hgt =>
      have hle := h.inv.watermk_le
      rwa [cursor_of_scanning hpc] at hle

theorem BackupInv.sameRecord (h : BackupInv c v) (hrest : AtRest c v) : SameRecord v.server := by
  obtain ⟨k, hk, hcur, hidx⟩ := h.marked
  refine sameRecord_of_mark h.inv.contents.tiled hk ?_ hidx
  rw [← hcur]
  rcases hrest with hlk | ⟨ids, maxSeq, nDel, s, hpc, hle, hf⟩
  · exact (cursor_of_not_locked hlk).symm
  · -- nothing has been appended, and both are zero
    have hs : v.cursor = 0 := by
      rw [← (h.inv.nil_of_blocked hpc hle hf).2]
      exact cursor_of_scanning hpc
    have hw := h.inv.watermk_le
    omega

/-! ### The watermarks -/

/-- **The watermarks name the same record**, on the primary in every state and on a backup whenever a collection
is over or waits, and they do not go back. -/
theorem watermarks_name_one_record (c : Config) :
    (∀ s, Reach PrimaryStart (PrimaryStep c) s → SameRecord s.primary ∧
      ∀ s', PrimaryStep c s s' → s.primary.log.orderedWatermk ≤ s'.primary.log.orderedWatermk) ∧
    ∀ v, Reach Start (BackupStep c) v → (AtRest c v → SameRecord v.server) ∧
      ∀ v', BackupStep c v v' → v.server.log.orderedWatermk ≤ v'.server.log.orderedWatermk := by
  constructor
  · intro s hs
    obtain ⟨g, k, f, h⟩ := primaryInv_of_reach hs
    exact ⟨h.sameRecord, fun s' hstep => h.mono hstep⟩
  · intro v hv
    have h := backupInv_of_reach hv
    exact ⟨h.sameRecord, fun v' hstep => h.mono hstep⟩

theorem exists_primary_collected : ∃ s, Reach PrimaryStart (PrimaryStep .smallPrimary) s ∧
    0 < s.primary.log.orderedWatermk := by
  have hinit : Init ⟨.zeroed, []⟩ := ⟨FlatLog.zeroed_fresh, rfl⟩
  have hcan : CanAppend .smallPrimary ⟨.zeroed, []⟩ default :=
    ⟨⟨rfl, by decide⟩, rfl, by decide, by decide⟩
  have h0 : Reach PrimaryStart (PrimaryStep .smallPrimary) ⟨⟨.zeroed, []⟩, fun _ => 0, none, 0, [], false⟩ :=
    .start ⟨hinit, rfl, rfl, rfl, rfl⟩
  have h1 := h0.next (.append default hcan)
  have hprim := (Primary.init hinit).append hcan
  have hrecs := recs_append .smallPrimary ⟨.zeroed, []⟩ default
  generalize append .smallPrimary ⟨.zeroed, []⟩ default = P at h1 hprim hrecs
  have hlen : (recs P).length = 1 := by
    rw [hrecs]
    rfl
  obtain ⟨mr, hb, hread, hdec, hne⟩ := hprim.fetch_all (Nat.le_refl 0) (by omega)
    (show max P.log.orderedWatermk 0 = _ by rw [hprim.mark, Nat.max_zero]) fun _ => 0
  have h2 := h1.next (.fetchRange 0 rfl (Or.inl rfl))
  have h3 := h2.next (.fetchRead 0 rfl hb hread)
  rw [hdec, if_neg hne] at h3
  have h4 := h3.next (.deleteOrderedEntries rfl rfl)
  refine ⟨_, h4, ?_⟩
  have hstaged := (hprim.stage (k := 0) (n := (recs P).length - 0) (by omega) (by omega) mr).1
  have hmark := (hprim.land hstaged (Nat.zero_le _) (by omega)).mark
  rw [recs_landDelete] at hmark
  rw [Nat.sub_zero, hlen] at hmark
  simp only [Collector.stage, Nat.sub_zero, hlen, hmark]
  rw [hrecs]
  decide

theorem reach_append {s : State} {e : LogEntry} (h : Reach Start (BackupStep c) ⟨s, .idle⟩)
    (he : CanAppend c s e) : Reach Start (BackupStep c) ⟨append c s e, .idle⟩ :=
  (h.next (.append e he)).next (.collect (step_append_returned (v := ⟨s, .idle⟩) id e))

theorem reach_collection {s : State} {ids : List ReqID} {l : FlatLog} {n : ℕ}
    (h : Reach Start (BackupStep c) ⟨s, .idle⟩) (heq : delEntriesBackup c ids s.log = some (l, n)) :
    Reach Start (BackupStep c) ⟨⟨l, s.slots⟩, .idle⟩ := by
  obtain ⟨nDel, -, hrun⟩ := delEntriesBackup_steps s.slots heq
  have hcollect := (h.next (.request ids rfl)).run (hrun.lift id fun _ _ hs => .collect hs.1)
  exact hcollect.next (.reply rfl)

/-- An empty entry of a request. -/
def ofRequest (rid : ReqID) : LogEntry := { (default : LogEntry) with clientId := rid.1, clientSeq := rid.2 }

/-- A backup with the entries of two clients. -/
def fourEntries : State :=
  [(7, 1), (8, 5), (8, 6), (7, 2)].foldl (fun s rid => append smallBackup s (ofRequest rid)) ⟨.zeroed, []⟩

theorem reach_fourEntries : Reach Start (BackupStep smallBackup) ⟨fourEntries, .idle⟩ := by
  have h₀ : Reach Start (BackupStep smallBackup) ⟨⟨.zeroed, []⟩, .idle⟩ := .start rfl
  have h₁ := reach_append h₀ (e := ofRequest (7, 1)) ⟨⟨rfl, by decide⟩, rfl, by decide, by decide⟩
  have h₂ := reach_append h₁ (e := ofRequest (8, 5)) ⟨⟨rfl, by decide⟩, rfl, by decide, by decide⟩
  have h₃ := reach_append h₂ (e := ofRequest (8, 6)) ⟨⟨rfl, by decide⟩, rfl, by decide, by decide⟩
  exact reach_append h₃ (e := ofRequest (7, 2)) ⟨⟨rfl, by decide⟩, rfl, by decide, by decide⟩

/-- **Two collections on a backup.** The first names an entry that has been received and one that is unknown; it
passes an entry of a client that it does not name, which is pending from then on. The second names this one and the
next entry of the ring. -/
theorem exists_backup_collected : ∃ v, Reach Start (BackupStep smallBackup) v ∧ v.gc = .idle ∧
    v.server.slots = fourEntries.slots ∧ v.server.log.orderedWatermk = 96 := by
  have h := reach_fourEntries
  have hI := (backupInv_of_reach h).inv
  obtain ⟨wi, heq, -⟩ := call_eq (k := 0) (j := 1) hI [(8, 5), (9, 3)] rfl (by decide) rfl (by decide)
  have h₁ := reach_collection h heq
  obtain ⟨wi', heq', -⟩ := call_eq (k := 2) (j := 2) (backupInv_of_reach h₁).inv [(7, 1), (8, 6)] rfl (by decide) rfl
    rfl
  exact ⟨_, reach_collection h₁ heq', rfl, rfl, rfl⟩

/-- Both have collected entries. -/
theorem watermarks_name_one_record_collected : ∃ s v, Reach PrimaryStart (PrimaryStep .smallPrimary) s ∧
    0 < s.primary.log.orderedWatermk ∧ SameRecord s.primary ∧
    Reach Start (BackupStep smallBackup) v ∧ v.server.log.orderedWatermk = 96 ∧
    v.server.log.orderedIdxWatermk = 3 ∧ SameRecord v.server := by
  obtain ⟨s, hs, hs0⟩ := exists_primary_collected
  obtain ⟨v, hv, hgc, hslots, hw⟩ := exists_backup_collected
  have hrest : AtRest smallBackup v := Or.inl (by rw [hgc]; exact id)
  have hrec := ((watermarks_name_one_record smallBackup).2 v hv).1 hrest
  refine ⟨s, v, hs, hs0, ((watermarks_name_one_record .smallPrimary).1 s hs).1, hv, hw, ?_, hrec⟩
  rw [hrec.count, hw, hslots]
  decide

end Backup

end LazyLog.ConsLog.Watermarks
