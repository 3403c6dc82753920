import LazyLog.ConsLog.Batches

/-! # The consensus log and the primary

What the two modes of the consensus log share: whole calls of `AppendEntry` on the primary, the remote read
of a range into the buffer `mr_` while the primary goes on, and the remote write of the watermarks, which is
staged in the last page of the same buffer ("GC and fetch should not use overlapped region in MR!").

`Primary c p g`: the primary `p` holds its log, complete, and the watermarks stand at entry `g`. A range read
from there on decodes to a batch of the log (`Loaded.decode`). -/

namespace LazyLog.ConsLog.Link

open LazyLog.Lib.Bytes LazyLog.Lib.Circular LazyLog.Lib.Tiling LazyLog.Lib.Run
open LazyLog.Rpc.Entry LazyLog.Rpc.Multi LazyLog.ConsLog.Batches
open LazyLog.DurLog.Flat LazyLog.DurLog.Ranges LazyLog.DurLog.Ring LazyLog.DurLog.FlatCli

variable {c : Config} {p : State} {g f : ℕ}

/-- What the environment sees of a step: the primary appends an entry, a call to the backend starts or
returns. -/
inductive Label
  | tau
  | append (e : LogEntry)
  | appendBatch (es : List LogEntry)
  | appendBatchDone
  | updateGlobalIdx (idx : UInt64)
  | updateGlobalIdxDone

/-! ### The primary -/

/-- The log of a server: its entries in the order of their reservations, as they stand in the region. -/
def recs (p : State) : List LogEntry := p.slots.map Slot.written

/-- The primary holds its log, every entry complete, leaves some space in the ring, and its watermarks are at
entry `g`. -/
structure Primary (c : Config) (p : State) (g : ℕ) : Prop where
  contents : Contents c p
  finished : ∀ t ∈ p.slots, t.Finished
  room : p.log.sequencer + 2 ^ 18 < p.log.orderedWatermk + c.rgSize
  seq_lt : p.log.sequencer < 2 ^ 64
  le_length : g ≤ (recs p).length
  mark : p.log.orderedWatermk = pos entrySize (recs p) g
  idxMark : p.log.orderedIdxWatermk = g

theorem pos_recs (p : State) (k : ℕ) : pos entrySize p.entries k = pos entrySize (recs p) k := by
  simp only [pos, recs, State.entries, ← List.map_take, List.map_map]
  rfl

theorem length_recs (p : State) : (recs p).length = p.slots.length := by simp [recs]

theorem recs_append (c : Config) (p : State) (e : LogEntry) :
    recs (append c p e) = recs p ++ [raised (stamp c p.log.indexer e)] := by
  simp [recs, append, Slot.written]

theorem Primary.init (h : Init p) : Primary c p 0 := by
  have hC := Contents.init (c := c) h
  have hrg := c.le_rgSize
  obtain ⟨hf, hn⟩ := h
  refine ⟨hC, ?_, ?_, ?_, Nat.zero_le _, ?_, hf.orderedIdxWatermk⟩
  · intro t ht
    simp [hn] at ht
  · rw [hf.sequencer, hf.orderedWatermk]
    omega
  · rw [hf.sequencer]
    decide
  · rw [hf.orderedWatermk, pos_zero]

theorem Primary.total (h : Primary c p g) : p.log.sequencer = totalSize (recs p) := by
  have hlen : (recs p).length = p.entries.length := by simp [recs, State.entries]
  have htot := pos_of_length_le (f := entrySize) (l := recs p) (le_refl _)
  rw [← pos_recs, hlen, pos_of_length_le (le_refl _)] at htot
  exact h.contents.tiled.sequencer.trans htot

theorem Primary.append {e : LogEntry} (h : Primary c p g) (he : CanAppend c p e) :
    Primary c (append c p e) g := by
  have hroom := he.room h.contents
  obtain ⟨h1, h2, h3⟩ := append_counters c p e
  have hrun := append_run c p he.admissible he.flags (by omega)
  refine ⟨h.contents.calls hrun, ?_, ?_, ?_, ?_, ?_, ?_⟩
  · intro t ht
    rcases List.mem_append.mp ht with ht | ht
    · exact h.finished t ht
    · rw [List.mem_singleton.mp ht]
      exact Or.inr rfl
  · rw [h1, h2]
    exact hroom
  · rw [h1]
    exact he.seq_lt
  · rw [recs_append, List.length_append]
    exact Nat.le_add_right_of_le h.le_length
  · rw [h2, recs_append, pos_append_of_le h.le_length]
    exact h.mark
  · rw [h3]
    exact h.idxMark

theorem Primary.settled (h : Primary c p g) {k : ℕ} (hk : k ≤ (recs p).length) :
    Settled c p (pos entrySize (recs p) k) := by
  refine ⟨k, by rwa [← length_recs], (pos_recs p k).symm, fun i t _ ht => Or.inl ?_⟩
  exact h.finished t (List.mem_of_getElem? ht)

theorem Primary.advance (h : Primary c p g) {k : ℕ} (hgk : g ≤ k) (hk : k ≤ (recs p).length) :
    Primary c (p.setWatermk (pos entrySize (recs p) k) k) k := by
  have hle : p.log.orderedWatermk ≤ pos entrySize (recs p) k := by
    rw [h.mark]
    exact pos_mono hgk
  refine ⟨h.contents.advance k hle (h.settled hk), h.finished, ?_, h.seq_lt, hk, rfl, rfl⟩
  have hroom := h.room
  simp only [State.setWatermk]
  omega

theorem Primary.length_lt (h : Primary c p g) : (recs p).length < 2 ^ 63 := by
  rw [length_recs]
  exact h.contents.tiled.length_lt h.seq_lt

theorem Primary.indexed (h : Primary c p g) : Indexed (recs p) := by
  intro k e he
  have hk := (List.getElem?_eq_some_iff.mp he).1
  have hlt := h.length_lt
  simp only [recs, List.getElem?_map, Option.map_eq_some_iff] at he
  obtain ⟨t, ht, rfl⟩ := he
  have hidx : t.written.logIdx = UInt64.ofNat k := (h.contents.tiled.idx ht).2
  rw [hidx]
  exact Nat.mod_eq_of_lt (by omega)

theorem Primary.view (h : Primary c p g) (hgf : g ≤ f) :
    (∀ x ∈ (recs p).drop f, Readable x) ∧
      HoldsAll (wrapView c.rgSize p.log.mem) (pos entrySize (recs p) f) ((recs p).drop f) ∧
      p.log.sequencer = pos entrySize (recs p) f + totalSize ((recs p).drop f) := by
  have hc : ∀ t ∈ p.slots, t.Complete c := fun t ht => Or.inl (h.finished t ht)
  have hz : Hidden c p := fun ht _ hnc => absurd (hc _ (List.mem_of_getElem? ht)) hnc
  have hall : ((p.slots.drop f).takeWhile fun t => t.Complete c).map Slot.written =
      (recs p).drop f := by
    rw [recs, ← List.map_drop, List.takeWhile_eq_self_iff.mpr]
    intro t ht
    simpa using hc t (List.mem_of_mem_drop ht)
  have hw : p.log.orderedWatermk ≤ pos entrySize p.entries f := by
    rw [h.mark, pos_recs]
    exact pos_mono hgf
  obtain ⟨h1, h2, -⟩ := h.contents.holdsAll_run hz (p.slots.drop f) f rfl hw
  rw [hall] at h1 h2
  rw [pos_recs] at h2
  refine ⟨h1, h2, ?_⟩
  have hsplit : totalSize (recs p) = totalSize ((recs p).take f) + totalSize ((recs p).drop f) := by
    rw [← totalSize_append, List.take_append_drop]
  rw [h.total, hsplit]
  rfl

/-! ### Reading a range -/

/-- A range found on the primary at some earlier time, to be read from entry `f` on. -/
structure Ranged (c : Config) (p : State) (f : ℕ) (range : ℕ × ℕ) : Prop where
  le : range.1 ≤ range.2
  begin_le : range.1 ≤ pos entrySize (recs p) f
  end_le : range.2 ≤ p.log.sequencer
  room : range.2 + 2 ^ 18 < range.1 + c.rgSize

/-- The buffer holds the bytes from `b` to `e` of the log from entry `f` on. -/
structure Loaded (c : Config) (L : List LogEntry) (mr : Mem) (f b e : ℕ) : Prop where
  le_length : f ≤ L.length
  begin_eq : b = pos entrySize L f
  small : e - b + 2 ^ 18 < c.rgSize
  bytes : ∃ v R, R <+: L.drop f ∧ (∀ i < e - b, mr (0 + i) = v (b + i)) ∧ (∀ x ∈ R, Readable x) ∧
    HoldsAll v b R ∧ e ≤ b + totalSize R

theorem Primary.ranged (h : Primary c p g) (hgf : g ≤ f) : Ranged c p f (getUnorderedRange p.log) := by
  refine ⟨h.contents.settled.le_sequencer h.contents.tiled, ?_, Nat.le_refl _, h.room⟩
  show p.log.orderedWatermk ≤ _
  rw [h.mark]
  exact pos_mono hgf

theorem Ranged.append {range : ℕ × ℕ} (h : Ranged c p f range) (hf : f ≤ (recs p).length)
    (e : LogEntry) : Ranged c (append c p e) f range := by
  obtain ⟨h1, -, -⟩ := append_counters c p e
  refine ⟨h.le, ?_, ?_, h.room⟩
  · rw [recs_append, pos_append_of_le hf]
    exact h.begin_le
  · rw [h1]
    exact Nat.le_add_right_of_le h.end_le

/-- **A range is read**, from entry `f` on. The last pages of the buffer are not touched. -/
theorem Primary.read (h : Primary c p g) (hgf : g ≤ f) (hf : f ≤ (recs p).length) {range : ℕ × ℕ}
    (hr : Ranged c p f range) {frm maxFetchSize b e : ℕ}
    (hmax : max range.1 frm = pos entrySize (recs p) f)
    (hb : fetchBounds range frm maxFetchSize = some (b, e)) {mr mr' : Mem}
    (hread : readSegments c.rgSize p.log.mem mr b e = some mr') :
    Loaded c (recs p) mr' f b e ∧ ∀ x, c.rgSize - 2 ^ 18 ≤ x → mr' x = mr x := by
  obtain ⟨hv1, hv2, hv3⟩ := h.view hgf
  obtain ⟨hle, hbeg, hend, hroom⟩ := hr
  obtain ⟨hfrm, hbm, her, hbe⟩ := fetchBounds_some hb
  rw [hmax] at hbm
  subst hbm
  have hbe := hbe (by rw [← hmax]; exact max_le hle hfrm.le)
  have hne : pos entrySize (recs p) f ≠ e := by
    intro heq
    rw [← heq, readSegments_self] at hread
    cases hread
  obtain ⟨mr₀, h0, hbytes⟩ := readSegments_eq p.log.mem mr (lt_of_le_of_ne hbe hne)
    (show e < pos entrySize (recs p) f + c.rgSize by omega)
  rw [hread] at h0
  cases h0
  refine ⟨⟨hf, rfl, by omega, _, _, List.prefix_rfl, hbytes, hv1, hv2, by omega⟩, fun x hx => ?_⟩
  exact readSegments_of_ge hbe (by omega) hread (by omega)

theorem Loaded.mono {L L' : List LogEntry} {mr : Mem} {b e : ℕ} (h : Loaded c L mr f b e) :
    Loaded c (L ++ L') mr f b e := by
  obtain ⟨hf, hb, hs, v, R, hR, hrest⟩ := h
  refine ⟨?_, ?_, hs, v, R, ?_, hrest⟩
  · rw [List.length_append]
    exact Nat.le_add_right_of_le hf
  · rw [pos_append_of_le hf]
    exact hb
  · rw [List.drop_append_of_le_length hf]
    exact hR.trans (List.prefix_append _ _)

theorem Loaded.congr {L : List LogEntry} {mr mr' : Mem} {b e : ℕ} (h : Loaded c L mr f b e)
    (hmr : ∀ x, x + 2 ^ 18 < c.rgSize → mr' x = mr x) : Loaded c L mr' f b e := by
  obtain ⟨hf, hb, hs, v, R, hR, hbytes, hrest⟩ := h
  refine ⟨hf, hb, hs, v, R, hR, fun i hi => ?_, hrest⟩
  rw [hmr _ (by omega)]
  exact hbytes i hi

/-- **What is read decodes to a batch of the log**, or to nothing. -/
theorem Loaded.decode {L : List LogEntry} {mr : Mem} {b e : ℕ} (h : Loaded c L mr f b e) :
    decodeFetched [] mr b e = ([], 0) ∨ ∃ n, 0 < n ∧ f + n ≤ L.length ∧
      decodeFetched [] mr b e = (batch L f n, pos entrySize L (f + n) - pos entrySize L f) := by
  obtain ⟨hf, rfl, hs, v, R, hR, hbytes, hread, hv, he⟩ := h
  have hrg := c.rgSize_lt
  have hdec := decodeFetched_of_holdsAll hbytes hread hv (fun hlt => absurd hlt (by omega)) (by omega) []
  have hpre := (takeFit_isPrefix (e - pos entrySize L f) R).trans hR
  generalize takeFit (e - pos entrySize L f) R = run at hdec hpre
  by_cases hnil : run = []
  · rw [if_pos hnil] at hdec
    exact Or.inl hdec
  · rw [if_neg hnil, List.nil_append] at hdec
    have hlen : run.length ≤ L.length - f := by simpa using hpre.length_le
    have hrun : run = (L.drop f).take run.length := List.prefix_iff_eq_take.mp hpre
    have hpos : pos entrySize L (f + run.length) = pos entrySize L f + totalSize run := by
      rw [pos_add]
      conv_rhs => rw [hrun]
      rfl
    refine Or.inr ⟨run.length, List.length_pos_iff.mpr hnil, by omega, ?_⟩
    rw [hdec, batch, hpos, Nat.add_sub_cancel_left, ← hrun]

/-- **A fetch without a limit gets everything** from entry `f` on. -/
theorem Primary.fetch_all (h : Primary c p g) (hgf : g ≤ f) (hf : f < (recs p).length) {frm : ℕ}
    (hmax : max p.log.orderedWatermk frm = pos entrySize (recs p) f) (mr : Mem) : ∃ mr',
      fetchBounds (getUnorderedRange p.log) frm 0 =
        some (pos entrySize (recs p) f, p.log.sequencer) ∧
      readSegments c.rgSize p.log.mem mr (pos entrySize (recs p) f) p.log.sequencer = some mr' ∧
      decodeFetched [] mr' (pos entrySize (recs p) f) p.log.sequencer =
        (batch (recs p) f ((recs p).length - f), p.log.sequencer - pos entrySize (recs p) f) ∧
      p.log.sequencer - pos entrySize (recs p) f ≠ 0 := by
  obtain ⟨hread, hv, hseq⟩ := h.view hgf
  have hroom := h.room
  have hrg := c.rgSize_lt
  have hne : (recs p).drop f ≠ [] := by
    rw [← List.length_pos_iff, List.length_drop]
    omega
  have hpos : 0 < totalSize ((recs p).drop f) := by
    obtain ⟨e, es, hes⟩ := List.exists_cons_of_ne_nil hne
    have := entrySize_pos e
    rw [hes, totalSize_cons]
    omega
  have hfrm : frm ≤ pos entrySize (recs p) f := hmax ▸ le_max_right _ _
  have hwm : p.log.orderedWatermk ≤ pos entrySize (recs p) f := hmax ▸ le_max_left _ _
  obtain ⟨mr', hmr', hbytes⟩ := readSegments_eq p.log.mem mr
    (show pos entrySize (recs p) f < p.log.sequencer by omega)
    (show p.log.sequencer < pos entrySize (recs p) f + c.rgSize by omega)
  refine ⟨mr', ?_, hmr', ?_, by omega⟩
  · unfold fetchBounds getUnorderedRange
    rw [if_neg (by omega)]
    simp only [hmax, Nat.lt_irrefl, if_false]
  · have hdec := decodeFetched_of_holdsAll hbytes hread hv (fun hlt => absurd hlt (by omega)) (by omega) []
    have htake : (recs p).drop f = ((recs p).drop f).take ((recs p).length - f) := by
      rw [List.take_of_length_le (by rw [List.length_drop])]
    rw [takeFit_of_le (by omega), if_neg hne, List.nil_append, ← hseq] at hdec
    rw [hdec, batch, ← htake, Nat.add_sub_cancel' hf.le, pos_of_length_le (Nat.le_refl _), h.total]
    have htot := h.total
    congr 1
    omega

/-- With the whole log ordered, `waitForPlace` lets every call through. -/
theorem Primary.canAppend_of_ordered (h : Primary c p g)
    (hall : p.log.orderedIdxWatermk = (recs p).length) {e : LogEntry} (he : Admissible e) (hf : e.flags = 0)
    (hlt : p.log.sequencer + getSize e < 2 ^ 64) : CanAppend c p e := by
  have hseq : p.log.orderedWatermk = p.log.sequencer := by
    rw [h.mark, ← h.idxMark, hall, pos_of_length_le (Nat.le_refl _)]
    exact h.total.symm
  have hrg := c.le_rgSize
  have hsize : getSize e ≤ msgSize := by
    have hlen := he.length_le
    unfold msgSize at hlen
    rw [getSize_eq he.sized (by omega)]
    exact he.fits
  refine ⟨he, hf, ?_, hlt⟩
  rw [DurLog.Space.exits_iff_room hrg (c.rgSize_lt.trans (by decide)) hseq.le hlt, hseq]
  unfold msgSize at hsize
  omega

/-! ### Writing the watermarks -/

/-- `mr_offset_for_gc_`. -/
def mrOffsetForGc (c : Config) : ℕ := c.rgSize - pageSize

/-- `DeleteOrderedEntriesAsync` on the primary puts the two words into the buffer and posts the write. -/
def stageDelete (c : Config) (mr : Mem) (seqs : List ReqID) : Mem :=
  writeBytes (writeBytes mr (mrOffsetForGc c) (leBytes 8 (seqs.getD 0 default).1.toNat))
    (mrOffsetForGc c + 8) (leBytes 8 (seqs.getD 1 default).1.toNat)

/-- The posted write reaches the primary. -/
def landDelete (c : Config) (mr : Mem) (p : State) : State :=
  p.setWatermk (load mr (mrOffsetForGc c) 8) (load mr (mrOffsetForGc c + 8) 8)

theorem landDelete_sequencer (c : Config) (mr : Mem) (p : State) :
    (landDelete c mr p).log.sequencer = p.log.sequencer := by
  unfold landDelete State.setWatermk
  rfl

theorem recs_landDelete (c : Config) (mr : Mem) (p : State) : recs (landDelete c mr p) = recs p := by
  unfold recs landDelete State.setWatermk
  rfl

/-- The words in the buffer say that the log up to entry `k` is ordered. -/
structure Staged (c : Config) (L : List LogEntry) (mr : Mem) (k : ℕ) : Prop where
  mark : load mr (mrOffsetForGc c) 8 = pos entrySize L k
  idxMark : load mr (mrOffsetForGc c + 8) 8 = k

theorem Staged.mono {L L' : List LogEntry} {mr : Mem} {k : ℕ} (h : Staged c L mr k)
    (hk : k ≤ L.length) : Staged c (L ++ L') mr k :=
  ⟨by rw [pos_append_of_le hk]; exact h.mark, h.idxMark⟩

theorem Staged.congr {L : List LogEntry} {mr mr' : Mem} {k : ℕ} (h : Staged c L mr k)
    (hmr : ∀ x, c.rgSize - 2 ^ 18 ≤ x → mr' x = mr x) : Staged c L mr' k := by
  have hrg := c.le_rgSize
  have hoff : c.rgSize - 2 ^ 18 ≤ mrOffsetForGc c := by
    unfold mrOffsetForGc pageSize
    omega
  refine ⟨?_, ?_⟩
  · rw [← h.mark]
    exact load_congr fun i _ => hmr _ (by omega)
  · rw [← h.idxMark]
    exact load_congr fun i _ => hmr _ (by omega)

theorem staged_stageDelete (c : Config) {L : List LogEntry} (mr : Mem) {k : ℕ} {a b : UInt64}
    (ha : a.toNat = pos entrySize L k) (hb : b.toNat = k) :
    Staged c L (stageDelete c mr [(a, 0), (b, 0)]) k := by
  have h1 := holds_writeBytes mr (mrOffsetForGc c) (leBytes 8 a.toNat)
  have h2 := holds_writeBytes (writeBytes mr (mrOffsetForGc c) (leBytes 8 a.toNat))
    (mrOffsetForGc c + 8) (leBytes 8 b.toNat)
  have h1' : Holds (stageDelete c mr [(a, 0), (b, 0)]) (mrOffsetForGc c) (leBytes 8 a.toNat) := by
    refine h1.congr fun i hi => writeBytes_of_notMem (Or.inl ?_)
    rw [length_leBytes] at hi
    omega
  have ha' := a.toNat_lt
  have hb' := b.toNat_lt
  refine ⟨?_, ?_⟩
  · rw [h1'.load, Nat.mod_eq_of_lt (by omega), ha]
  · have h2' : Holds (stageDelete c mr [(a, 0), (b, 0)]) (mrOffsetForGc c + 8)
        (leBytes 8 b.toNat) := h2
    rw [h2'.load, Nat.mod_eq_of_lt (by omega), hb]

/-- **The watermarks of a batch are staged.** -/
theorem Primary.stage (h : Primary c p g) {k n : ℕ} (hn : 0 < n) (hkn : k + n ≤ (recs p).length)
    (mr : Mem) :
    Staged c (recs p)
        (stageDelete c mr (processFetchedEntries true (batch (recs p) k n) []).2) (k + n) ∧
      (processFetchedEntries true (batch (recs p) k n) []).1.toNat + 1 = k + n := by
  have hlen := h.length_lt
  obtain ⟨last, hlast, hids, hnext⟩ := processFetchedEntries_batch h.indexed hn hkn (by omega)
  have hpos : (UInt64.ofNat (pos entrySize (recs p) (k + n))).toNat =
      pos entrySize (recs p) (k + n) := by
    refine Nat.mod_eq_of_lt ?_
    have hle := pos_le_total (f := entrySize) (l := recs p) (k + n)
    have htot : p.log.sequencer = ((recs p).map entrySize).sum := h.total
    have hseq := h.seq_lt
    omega
  rw [hids]
  exact ⟨staged_stageDelete c mr hpos hnext, hlast⟩

/-- Staging does not touch the bytes of a fetch. -/
theorem stageDelete_of_lt {mr : Mem} {seqs : List ReqID} {x : ℕ} (hx : x + 2 ^ 18 < c.rgSize) :
    stageDelete c mr seqs x = mr x := by
  have hoff : x < mrOffsetForGc c := by
    unfold mrOffsetForGc pageSize
    omega
  unfold stageDelete
  rw [writeBytes_of_notMem (Or.inl (by omega)), writeBytes_of_notMem (Or.inl hoff)]

theorem Primary.land {mr : Mem} {k : ℕ} (h : Primary c p g) (hs : Staged c (recs p) mr k)
    (hgk : g ≤ k) (hk : k ≤ (recs p).length) :
    Primary c (landDelete c mr p) k := by
  unfold landDelete
  rw [hs.mark, hs.idxMark]
  exact h.advance hgk hk

/-! ### A primary with two entries -/

theorem canAppend_zeroed : CanAppend .smallPrimary ⟨.zeroed, []⟩ default :=
  ⟨⟨rfl, by decide⟩, rfl, by decide, by decide⟩

/-- The primary after one call of `AppendEntry`. -/
def oneAppend : State := append .smallPrimary ⟨.zeroed, []⟩ default

theorem primary_oneAppend : Primary .smallPrimary oneAppend 0 :=
  (Primary.init ⟨FlatLog.zeroed_fresh, rfl⟩).append canAppend_zeroed

theorem canAppend_oneAppend : CanAppend .smallPrimary oneAppend default :=
  ⟨⟨rfl, by decide⟩, rfl, by decide, by decide⟩

/-- The primary after two calls of `AppendEntry`. -/
def twoAppends : State := append .smallPrimary oneAppend default

theorem primary_twoAppends : Primary .smallPrimary twoAppends 0 := primary_oneAppend.append canAppend_oneAppend

theorem recs_twoAppends : recs twoAppends = [emptyEntry 0, emptyEntry 1] := by
  unfold twoAppends oneAppend
  rw [recs_append, recs_append]
  rfl

theorem pos_twoAppends : pos entrySize (recs twoAppends) 1 = 32 := by
  rw [recs_twoAppends]
  decide

end LazyLog.ConsLog.Link
