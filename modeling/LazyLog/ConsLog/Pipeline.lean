import LazyLog.ConsLog.Spec

/-! # The pipelined consensus log (`ConsensusLog::fetch`, `ConsensusLog::store`)

Two threads over two buffers. The fetcher fills the buffers in turn, running ahead with its own byte cursor
`fetch_begin`; the storer empties them in turn: it gives a buffer to the backend, writes the watermarks of the
primary, clears the buffer and tells the backend the last index. A buffer has a lock and a flag `empty_`; to
wait for its condition variable is to give up the lock and to take it again. As in the simple loop a call of
`AppendEntry` is one step; the answers of the backups to a collection are not part of this system.

The rounds of the two threads are counted by `fetched` and `stored`, the vectors put into and taken out of the
buffers so far: `stored` is a front of `fetched`, and what is between them is in the buffers
(`Buffers`). The two threads together refine the abstract shared log (`simulation`), whose batches are those
that the storer takes out. -/

namespace LazyLog.ConsLog.Pipeline

open LazyLog.Lib.Bytes LazyLog.Lib.Tiling LazyLog.Lib.Run LazyLog.Lib.Transition
open LazyLog.Rpc.Entry LazyLog.ConsLog.Batches LazyLog.ConsLog.Link
open LazyLog.ConsLog.Spec (Phase SharedLog step_append)
open LazyLog.DurLog.Flat LazyLog.DurLog.Ring LazyLog.DurLog.FlatCli

/-! ### The system -/

inductive Thread
  | fetcher
  | storer

/-- `struct PipelineObj`. -/
structure PipelineObj where
  entriesBuf : List LogEntry
  lock : Option Thread
  empty : Bool

/-- Where `fetch` is. -/
inductive FetchPc
  | idle
  | locked
  | ranged (range : ℕ × ℕ)
  | loaded (beginSequence endSequence : ℕ)

/-- Where `store` is. -/
inductive StorePc
  | idle
  | locked
  | appending
  | deleting (lastLogIdx : UInt64)
  | deleted (lastLogIdx : UInt64)
  | updating

/-- The primary, the two threads with their rounds, the buffers, and what has gone through them. -/
structure Sys where
  primary : State
  mr : Mem
  buffers : Fin 2 → PipelineObj
  fetchRound : ℕ
  storeRound : ℕ
  fetchBegin : ℕ
  fetchPc : FetchPc
  storePc : StorePc
  fetched : List (List LogEntry)
  stored : List (List LogEntry)

/-- `buffers_[round % 2]`. -/
def Sys.buf (s : Sys) (round : ℕ) : PipelineObj := s.buffers (Fin.ofNat 2 round)

def Sys.setBuf (s : Sys) (round : ℕ) (b : PipelineObj) : Sys :=
  { s with buffers := Function.update s.buffers (Fin.ofNat 2 round) b }

/-- The lock of a buffer is taken or given up. -/
def Sys.setLock (s : Sys) (round : ℕ) (o : Option Thread) : Sys :=
  s.setBuf round { s.buf round with lock := o }

/-- One step, for the bound `max_fetch_size_`. -/
inductive Step (c : Config) (maxFetchSize : ℕ) : Label → Sys → Sys → Prop
  | append {s : Sys} (e : LogEntry) (he : CanAppend c s.primary e) :
    Step c maxFetchSize (.append e) s { s with primary := append c s.primary e }
  | fetchLock {s : Sys} (hpc : s.fetchPc = .idle) (hl : (s.buf s.fetchRound).lock = none) :
    Step c maxFetchSize .tau s
      { s.setLock s.fetchRound (some .fetcher) with fetchPc := .locked }
  | fetchWait {s : Sys} (hpc : s.fetchPc = .locked) (he : (s.buf s.fetchRound).empty = false) :
    Step c maxFetchSize .tau s { s.setLock s.fetchRound none with fetchPc := .idle }
  | fetchRange {s : Sys} (hpc : s.fetchPc = .locked) (he : (s.buf s.fetchRound).empty = true) :
    Step c maxFetchSize .tau s { s with fetchPc := .ranged (getUnorderedRange s.primary.log) }
  | fetchNothing {s : Sys} {range : ℕ × ℕ} (hpc : s.fetchPc = .ranged range)
    (hn : ∀ b e, fetchBounds range s.fetchBegin maxFetchSize = some (b, e) →
      readSegments c.rgSize s.primary.log.mem s.mr b e = none) :
    Step c maxFetchSize .tau s { s.setLock s.fetchRound none with fetchPc := .idle }
  | fetchRead {s : Sys} {range : ℕ × ℕ} {b e : ℕ} {mr : Mem} (hpc : s.fetchPc = .ranged range)
    (hb : fetchBounds range s.fetchBegin maxFetchSize = some (b, e))
    (hr : readSegments c.rgSize s.primary.log.mem s.mr b e = some mr) :
    Step c maxFetchSize .tau s { s with mr := mr, fetchPc := .loaded b e }
  | fetchNone {s : Sys} {b e : ℕ} {es : List LogEntry} (hpc : s.fetchPc = .loaded b e)
    (hes : decodeFetched (s.buf s.fetchRound).entriesBuf s.mr b e = (es, 0)) :
    Step c maxFetchSize .tau s
      { s.setBuf s.fetchRound ⟨es, none, (s.buf s.fetchRound).empty⟩ with fetchPc := .idle }
  | fetchDone {s : Sys} {b e n : ℕ} {es : List LogEntry} (hpc : s.fetchPc = .loaded b e)
    (hes : decodeFetched (s.buf s.fetchRound).entriesBuf s.mr b e = (es, n)) (hn : n ≠ 0) :
    Step c maxFetchSize .tau s
      { s.setBuf s.fetchRound ⟨es, none, false⟩ with
        fetchBegin := s.fetchBegin + n
        fetchRound := s.fetchRound + 1
        fetchPc := .idle
        fetched := s.fetched ++ [es] }
  | storeLock {s : Sys} (hpc : s.storePc = .idle) (hl : (s.buf s.storeRound).lock = none) :
    Step c maxFetchSize .tau s
      { s.setLock s.storeRound (some .storer) with storePc := .locked }
  | storeWait {s : Sys} (hpc : s.storePc = .locked) (he : (s.buf s.storeRound).empty = true) :
    Step c maxFetchSize .tau s { s.setLock s.storeRound none with storePc := .idle }
  | storeAppend {s : Sys} (hpc : s.storePc = .locked) (he : (s.buf s.storeRound).empty = false) :
    Step c maxFetchSize (.appendBatch (s.buf s.storeRound).entriesBuf) s
      { s with
        storePc := .appending
        stored := s.stored ++ [(s.buf s.storeRound).entriesBuf] }
  | storeDelete {s : Sys} (hpc : s.storePc = .appending) :
    Step c maxFetchSize .appendBatchDone s
      { s with
        mr := stageDelete c s.mr
          (processFetchedEntries true (s.buf s.storeRound).entriesBuf []).2
        storePc := .deleting (processFetchedEntries true (s.buf s.storeRound).entriesBuf []).1 }
  | storeLand {s : Sys} {lastLogIdx : UInt64} (hpc : s.storePc = .deleting lastLogIdx) :
    Step c maxFetchSize .tau s
      { s with primary := landDelete c s.mr s.primary, storePc := .deleted lastLogIdx }
  | storeUpdate {s : Sys} {lastLogIdx : UInt64} (hpc : s.storePc = .deleted lastLogIdx) :
    Step c maxFetchSize (.updateGlobalIdx lastLogIdx) s
      { s.setBuf s.storeRound ⟨[], (s.buf s.storeRound).lock, true⟩ with storePc := .updating }
  | storeDone {s : Sys} (hpc : s.storePc = .updating) :
    Step c maxFetchSize .updateGlobalIdxDone s
      { s.setLock s.storeRound none with storeRound := s.storeRound + 1, storePc := .idle }

/-- Everything has just been started. -/
structure Start (s : Sys) : Prop where
  primary : Init s.primary
  buffers : ∀ i, s.buffers i = ⟨[], none, true⟩
  rounds : s.fetchRound = 0 ∧ s.storeRound = 0 ∧ s.fetchBegin = 0
  pcs : s.fetchPc = .idle ∧ s.storePc = .idle
  empty : s.fetched = [] ∧ s.stored = []

/-- The two threads and the primary. -/
def lts (c : Config) (maxFetchSize : ℕ) : Lts Label Sys := ⟨Start, Step c maxFetchSize⟩

/-! ### The buffers -/

variable {c : Config} {maxFetchSize : ℕ} {a : Label} {s s' : Sys} {g st f d : ℕ}

theorem slot_ne {r q : ℕ} (h : r % 2 ≠ q % 2) : Fin.ofNat 2 r ≠ Fin.ofNat 2 q := by
  intro heq
  have := congrArg Fin.val heq
  simp only [Fin.val_ofNat] at this
  exact h this

theorem slot_eq {r q : ℕ} (h : r % 2 = q % 2) : Fin.ofNat 2 r = Fin.ofNat 2 q := by
  refine Fin.ext ?_
  simpa only [Fin.val_ofNat] using h

theorem buf_setBuf_eq (s : Sys) {r q : ℕ} (b : PipelineObj) (h : r % 2 = q % 2) :
    (s.setBuf q b).buf r = b := by
  unfold Sys.buf Sys.setBuf
  rw [slot_eq h]
  exact Function.update_self _ _ _

theorem buf_setBuf_ne (s : Sys) {r q : ℕ} (b : PipelineObj) (h : r % 2 ≠ q % 2) :
    (s.setBuf q b).buf r = s.buf r := by
  unfold Sys.buf Sys.setBuf
  exact Function.update_of_ne (slot_ne h) _ _

theorem buf_congr (s : Sys) {r q : ℕ} (h : r % 2 = q % 2) : s.buf r = s.buf q := by
  unfold Sys.buf
  rw [slot_eq h]

theorem buf_of_buffers (h : s'.buffers = s.buffers) (r : ℕ) : s'.buf r = s.buf r := congrFun h _

theorem buf_setLock (s : Sys) (q : ℕ) (o : Option Thread) (r : ℕ) :
    ((s.setLock q o).buf r).empty = (s.buf r).empty ∧
      ((s.setLock q o).buf r).entriesBuf = (s.buf r).entriesBuf := by
  unfold Sys.setLock
  by_cases h : r % 2 = q % 2
  · rw [buf_setBuf_eq s _ h, buf_congr s h]
    exact ⟨rfl, rfl⟩
  · rw [buf_setBuf_ne s _ h]
    exact ⟨rfl, rfl⟩

/-- The rounds from `d` on that have been fetched are in the buffers, and the next ones find theirs free. -/
structure Buffers (s : Sys) (d : ℕ) : Prop where
  le : d ≤ s.fetchRound
  le_add : s.fetchRound ≤ d + 2
  full : ∀ r, d ≤ r → r < s.fetchRound →
    (s.buf r).empty = false ∧ s.fetched[r]? = some (s.buf r).entriesBuf
  free : ∀ r, s.fetchRound ≤ r → r < d + 2 → (s.buf r).empty = true ∧ (s.buf r).entriesBuf = []

theorem Buffers.congr (h : Buffers s d) (h1 : s'.fetchRound = s.fetchRound)
    (h2 : s'.fetched = s.fetched) (h3 : ∀ r, (s'.buf r).empty = (s.buf r).empty ∧
      (s'.buf r).entriesBuf = (s.buf r).entriesBuf) : Buffers s' d := by
  obtain ⟨hle, hle', hfull, hfree⟩ := h
  refine ⟨by omega, by omega, ?_, ?_⟩
  · intro r hr hr'
    rw [(h3 r).1, (h3 r).2, h2]
    exact hfull r hr (by omega)
  · intro r hr hr'
    rw [(h3 r).1, (h3 r).2]
    exact hfree r (by omega) hr'

theorem Buffers.of_eq (h : Buffers s d) (h1 : s'.fetchRound = s.fetchRound)
    (h2 : s'.fetched = s.fetched) (h3 : s'.buffers = s.buffers) : Buffers s' d := by
  refine h.congr h1 h2 fun r => ?_
  rw [buf_of_buffers h3]
  exact ⟨rfl, rfl⟩

/-- A buffer found empty by the fetcher is free, one found full by the storer holds its round. -/
theorem Buffers.lt_of_empty (h : Buffers s d) (he : (s.buf s.fetchRound).empty = true) :
    s.fetchRound < d + 2 := by
  by_contra hge
  have hle := h.le_add
  have := (h.full d (Nat.le_refl d) (by omega)).1
  rw [buf_congr s (show d % 2 = s.fetchRound % 2 by omega), he] at this
  cases this

theorem Buffers.lt_of_full (h : Buffers s d) (he : (s.buf d).empty = false) : d < s.fetchRound := by
  by_contra hge
  have hle := h.le
  have := (h.free d (by omega) (by omega)).1
  rw [he] at this
  cases this

theorem Buffers.fill (h : Buffers s d) (hlt : s.fetchRound < d + 2) (hlen : s.fetchRound = s.fetched.length)
    (es : List LogEntry) {s' : Sys} (h1 : s'.fetchRound = s.fetchRound + 1)
    (h2 : s'.fetched = s.fetched ++ [es])
    (h3 : s'.buffers = (s.setBuf s.fetchRound ⟨es, none, false⟩).buffers) : Buffers s' d := by
  obtain ⟨hle, hle', hfull, hfree⟩ := h
  refine ⟨by omega, by omega, ?_, ?_⟩
  · intro r hr hr'
    rw [buf_of_buffers h3, h2]
    by_cases heq : r = s.fetchRound
    · subst heq
      rw [buf_setBuf_eq s _ rfl, hlen]
      simp
    · obtain ⟨he, hes⟩ := hfull r hr (by omega)
      rw [buf_setBuf_ne s _ (by omega), List.getElem?_append_left (by omega)]
      exact ⟨he, hes⟩
  · intro r hr hr'
    rw [buf_of_buffers h3, buf_setBuf_ne s _ (by omega)]
    exact hfree r (by omega) hr'

theorem Buffers.clear (h : Buffers s d) (hlt : d < s.fetchRound) (o : Option Thread) {s' : Sys}
    (h1 : s'.fetchRound = s.fetchRound) (h2 : s'.fetched = s.fetched)
    (h3 : s'.buffers = (s.setBuf d ⟨[], o, true⟩).buffers) : Buffers s' (d + 1) := by
  obtain ⟨hle, hle', hfull, hfree⟩ := h
  refine ⟨by omega, by omega, ?_, ?_⟩
  · intro r hr hr'
    rw [buf_of_buffers h3, h2, buf_setBuf_ne s _ (by omega)]
    exact hfull r (by omega) (by omega)
  · intro r hr hr'
    rw [buf_of_buffers h3]
    by_cases heq : r = d + 2
    · rw [buf_setBuf_eq s _ (by omega)]
      exact ⟨rfl, rfl⟩
    · rw [buf_setBuf_ne s _ (by omega)]
      exact hfree r (by omega) (by omega)

/-! ### The invariant -/

/-- The rounds whose buffer has been cleared: while the last index is being told to the backend the storer
has not counted its round yet. -/
def Sys.cleared (s : Sys) : ℕ :=
  match s.storePc with
  | .updating => s.storeRound + 1
  | _ => s.storeRound

/-- What is known at each place of `fetch`: `f` entries have been fetched. -/
def FetchOk (c : Config) (s : Sys) (f : ℕ) : Prop :=
  match s.fetchPc with
  | .idle | .locked => True
  | .ranged range => s.fetchRound < s.cleared + 2 ∧ Ranged c s.primary f range
  | .loaded b e => s.fetchRound < s.cleared + 2 ∧ Loaded c (recs s.primary) s.mr f b e

/-- What is known at each place of `store`: `g` entries are marked as ordered on the primary, `st` entries
have been given to the backend. -/
def StoreOk (c : Config) (s : Sys) (g st : ℕ) : Prop :=
  match s.storePc with
  | .idle | .locked => s.stored.length = s.storeRound ∧ g = st
  | .appending => s.stored.length = s.storeRound + 1 ∧ g < st ∧
      s.stored[s.storeRound]? = some (batch (recs s.primary) g (st - g))
  | .deleting lastLogIdx => s.stored.length = s.storeRound + 1 ∧ g ≤ st ∧
      Staged c (recs s.primary) s.mr st ∧ lastLogIdx.toNat + 1 = st
  | .deleted lastLogIdx => s.stored.length = s.storeRound + 1 ∧ g = st ∧ lastLogIdx.toNat + 1 = st
  | .updating => s.stored.length = s.storeRound + 1 ∧ g = st

/-- **The invariant of the pipeline.** -/
structure Inv (c : Config) (s : Sys) (g st f : ℕ) : Prop where
  primary : Primary c s.primary g
  fetched : Cut (recs s.primary) 0 s.fetched f
  fetchBegin : s.fetchBegin = pos entrySize (recs s.primary) f
  fetchRound : s.fetchRound = s.fetched.length
  stored : Cut (recs s.primary) 0 s.stored st
  front : s.stored <+: s.fetched
  buffers : Buffers s s.cleared
  fetchOk : FetchOk c s f
  storeOk : StoreOk c s g st

theorem Inv.le_fetched (h : Inv c s g st f) : st ≤ f := by
  obtain ⟨rest, hrest⟩ := h.front
  have hf := h.fetched
  rw [← hrest] at hf
  obtain ⟨j, h1, h2⟩ := hf.split
  rw [h1.unique h.stored] at h2
  exact h2.le

theorem Inv.le_stored (h : Inv c s g st f) : g ≤ st := by
  have hok := h.storeOk
  unfold StoreOk at hok
  cases hpc : s.storePc with
  | idle => rw [hpc] at hok; exact hok.2.le
  | locked => rw [hpc] at hok; exact hok.2.le
  | appending => rw [hpc] at hok; exact hok.2.1.le
  | deleting lastLogIdx => rw [hpc] at hok; exact hok.2.1
  | deleted lastLogIdx => rw [hpc] at hok; exact hok.2.1.le
  | updating => rw [hpc] at hok; exact hok.2.le

theorem Inv.fetched_le (h : Inv c s g st f) : f ≤ (recs s.primary).length :=
  h.fetched.le_length (Nat.zero_le _)

/-! ### Steps of the primary and of the fetcher -/

theorem Inv.append {e : LogEntry} (h : Inv c s g st f) (he : CanAppend c s.primary e) :
    Inv c { s with primary := append c s.primary e } g st f := by
  have hf := h.fetched_le
  have hst := h.le_fetched
  have hgst := h.le_stored
  refine ⟨h.primary.append he, ?_, ?_, h.fetchRound, ?_, h.front, h.buffers.of_eq rfl rfl rfl, ?_, ?_⟩
  · rw [recs_append]
    exact h.fetched.mono
  · rw [recs_append, pos_append_of_le hf]
    exact h.fetchBegin
  · rw [recs_append]
    exact h.stored.mono
  · have hok := h.fetchOk
    unfold FetchOk at hok ⊢
    simp only [recs_append]
    cases hpc : s.fetchPc with
    | idle => trivial
    | locked => trivial
    | ranged range =>
      rw [hpc] at hok
      exact ⟨hok.1, hok.2.append hf e⟩
    | loaded b e =>
      rw [hpc] at hok
      exact ⟨hok.1, hok.2.mono⟩
  · have hok := h.storeOk
    unfold StoreOk at hok ⊢
    simp only [recs_append]
    cases hpc : s.storePc with
    | idle => rw [hpc] at hok; exact hok
    | locked => rw [hpc] at hok; exact hok
    | appending =>
      rw [hpc] at hok
      obtain ⟨h1, h2, h3⟩ := hok
      exact ⟨h1, h2, by rw [batch_append (by omega)]; exact h3⟩
    | deleting lastLogIdx =>
      rw [hpc] at hok
      obtain ⟨h1, h2, h3, h4⟩ := hok
      exact ⟨h1, h2, h3.mono (by omega), h4⟩
    | deleted lastLogIdx => rw [hpc] at hok; exact hok
    | updating => rw [hpc] at hok; exact hok

theorem Inv.fetchMove {pc : FetchPc} {o : Option Thread} (h : Inv c s g st f)
    (hok : FetchOk c { s.setLock s.fetchRound o with fetchPc := pc } f) :
    Inv c { s.setLock s.fetchRound o with fetchPc := pc } g st f :=
  ⟨h.primary, h.fetched, h.fetchBegin, h.fetchRound, h.stored, h.front,
    h.buffers.congr rfl rfl (buf_setLock s _ o), hok, h.storeOk⟩

theorem Inv.fetchRange (h : Inv c s g st f) (he : (s.buf s.fetchRound).empty = true) :
    Inv c { s with fetchPc := .ranged (getUnorderedRange s.primary.log) } g st f := by
  have hgf : g ≤ f := h.le_stored.trans h.le_fetched
  refine ⟨h.primary, h.fetched, h.fetchBegin, h.fetchRound, h.stored, h.front,
    h.buffers.of_eq rfl rfl rfl, ?_, h.storeOk⟩
  exact ⟨h.buffers.lt_of_empty he, h.primary.ranged hgf⟩

theorem Inv.fetchRead {range : ℕ × ℕ} {b e : ℕ} {mr : Mem} (h : Inv c s g st f)
    (hpc : s.fetchPc = .ranged range)
    (hb : fetchBounds range s.fetchBegin maxFetchSize = some (b, e))
    (hr : readSegments c.rgSize s.primary.log.mem s.mr b e = some mr) :
    Inv c { s with mr := mr, fetchPc := .loaded b e } g st f := by
  have hgf : g ≤ f := h.le_stored.trans h.le_fetched
  have hok := h.fetchOk
  unfold FetchOk at hok
  rw [hpc] at hok
  obtain ⟨hround, hrng⟩ := hok
  have hmax : max range.1 s.fetchBegin = pos entrySize (recs s.primary) f := by
    rw [h.fetchBegin]
    exact max_eq_right hrng.begin_le
  obtain ⟨hload, hkeep⟩ := h.primary.read hgf h.fetched_le hrng hmax hb hr
  refine ⟨h.primary, h.fetched, h.fetchBegin, h.fetchRound, h.stored, h.front,
    h.buffers.of_eq rfl rfl rfl, ⟨hround, hload⟩, ?_⟩
  -- the words staged by the storer are not overwritten
  have hst := h.storeOk
  unfold StoreOk at hst ⊢
  cases hspc : s.storePc with
  | deleting lastLogIdx =>
    rw [hspc] at hst
    obtain ⟨h1, h2, h3, h4⟩ := hst
    exact ⟨h1, h2, h3.congr hkeep, h4⟩
  | idle => rw [hspc] at hst; exact hst
  | locked => rw [hspc] at hst; exact hst
  | appending => rw [hspc] at hst; exact hst
  | deleted lastLogIdx => rw [hspc] at hst; exact hst
  | updating => rw [hspc] at hst; exact hst

/-- What the fetcher decodes goes into an empty buffer, so it is nothing or the next batch of the log. -/
theorem Inv.decode {b e n : ℕ} {es : List LogEntry} (h : Inv c s g st f)
    (hpc : s.fetchPc = .loaded b e)
    (hes : decodeFetched (s.buf s.fetchRound).entriesBuf s.mr b e = (es, n)) :
    s.fetchRound < s.cleared + 2 ∧ (s.buf s.fetchRound).entriesBuf = [] ∧
      (es = [] ∧ n = 0 ∨ ∃ m, 0 < m ∧ f + m ≤ (recs s.primary).length ∧
        es = batch (recs s.primary) f m ∧
        s.fetchBegin + n = pos entrySize (recs s.primary) (f + m)) := by
  have hok := h.fetchOk
  unfold FetchOk at hok
  rw [hpc] at hok
  obtain ⟨hround, hload⟩ := hok
  have hempty := (h.buffers.free s.fetchRound (Nat.le_refl _) hround).2
  refine ⟨hround, hempty, ?_⟩
  rw [hempty] at hes
  rcases hload.decode with hdec | ⟨m, hm, hfm, hdec⟩
  · rw [hes] at hdec
    cases hdec
    exact Or.inl ⟨rfl, rfl⟩
  · rw [hes] at hdec
    cases hdec
    refine Or.inr ⟨m, hm, hfm, rfl, ?_⟩
    have hmono := pos_mono (f := entrySize) (l := recs s.primary) (Nat.le_add_right f m)
    rw [h.fetchBegin]
    omega

theorem Inv.fetchNone {b e : ℕ} {es : List LogEntry} (h : Inv c s g st f)
    (hpc : s.fetchPc = .loaded b e)
    (hes : decodeFetched (s.buf s.fetchRound).entriesBuf s.mr b e = (es, 0)) :
    Inv c { s.setBuf s.fetchRound ⟨es, none, (s.buf s.fetchRound).empty⟩ with fetchPc := .idle }
      g st f := by
  obtain ⟨-, hempty, hcase⟩ := h.decode hpc hes
  have hnil : es = (s.buf s.fetchRound).entriesBuf := by
    rw [hempty]
    rcases hcase with ⟨h1, -⟩ | ⟨m, hm, hfm, -, hn⟩
    · exact h1
    · exfalso
      have hlt := pos_strictMono (f := entrySize) (fun x _ => entrySize_pos x) hfm
        (show f < f + m by omega)
      rw [h.fetchBegin] at hn
      omega
  rw [hnil]
  exact h.fetchMove trivial

theorem Inv.fetchDone {b e n : ℕ} {es : List LogEntry} (h : Inv c s g st f)
    (hpc : s.fetchPc = .loaded b e)
    (hes : decodeFetched (s.buf s.fetchRound).entriesBuf s.mr b e = (es, n)) (hn : n ≠ 0) :
    ∃ f', Inv c { s.setBuf s.fetchRound ⟨es, none, false⟩ with
        fetchBegin := s.fetchBegin + n
        fetchRound := s.fetchRound + 1
        fetchPc := .idle
        fetched := s.fetched ++ [es] } g st f' := by
  obtain ⟨hround, -, hcase⟩ := h.decode hpc hes
  rcases hcase with ⟨-, h0⟩ | ⟨m, hm, hfm, rfl, hbeg⟩
  · exact absurd h0 hn
  · refine ⟨f + m, h.primary, h.fetched.append (cut_singleton hm hfm), hbeg, ?_, h.stored,
      h.front.trans (List.prefix_append _ _), ?_, trivial, h.storeOk⟩
    · simp [h.fetchRound]
    · exact h.buffers.fill hround h.fetchRound _ rfl rfl rfl

/-! ### Steps of the storer -/

theorem FetchOk.congr (h : FetchOk c s f) (h1 : s'.fetchPc = s.fetchPc)
    (h2 : s'.fetchRound = s.fetchRound) (h3 : s.cleared ≤ s'.cleared)
    (h4 : recs s'.primary = recs s.primary)
    (h5 : s'.primary.log.sequencer = s.primary.log.sequencer)
    (h6 : ∀ x, x + 2 ^ 18 < c.rgSize → s'.mr x = s.mr x) : FetchOk c s' f := by
  unfold FetchOk at h ⊢
  rw [h1, h2]
  cases hpc : s.fetchPc with
  | idle => trivial
  | locked => trivial
  | ranged range =>
    rw [hpc] at h
    obtain ⟨hround, hrng⟩ := h
    refine ⟨by omega, hrng.le, ?_, ?_, hrng.room⟩
    · rw [h4]; exact hrng.begin_le
    · rw [h5]; exact hrng.end_le
  | loaded b e =>
    rw [hpc] at h
    obtain ⟨hround, hload⟩ := h
    refine ⟨by omega, ?_⟩
    rw [h4]
    exact hload.congr h6

theorem Inv.storeMove {pc : StorePc} {o : Option Thread} (h : Inv c s g st f)
    (hcl : Sys.cleared { s.setLock s.storeRound o with storePc := pc } = s.cleared)
    (hok : StoreOk c { s.setLock s.storeRound o with storePc := pc } g st) :
    Inv c { s.setLock s.storeRound o with storePc := pc } g st f := by
  refine ⟨h.primary, h.fetched, h.fetchBegin, h.fetchRound, h.stored, h.front, ?_, ?_, hok⟩
  · rw [hcl]
    exact h.buffers.congr rfl rfl (buf_setLock s _ o)
  · exact h.fetchOk.congr rfl rfl hcl.ge rfl rfl fun _ _ => rfl

/-- What the storer finds in its buffer: the next batch of the log after those stored. -/
theorem Inv.next_batch (h : Inv c s g st f) (hpc : s.storePc = .locked)
    (he : (s.buf s.storeRound).empty = false) :
    g = st ∧ s.stored.length = s.storeRound ∧ ∃ n, 0 < n ∧ st + n ≤ (recs s.primary).length ∧
      (s.buf s.storeRound).entriesBuf = batch (recs s.primary) st n ∧
      s.stored ++ [(s.buf s.storeRound).entriesBuf] <+: s.fetched := by
  have hok := h.storeOk
  have hbuf := h.buffers
  unfold StoreOk at hok
  rw [hpc] at hok
  obtain ⟨hlen, hg⟩ := hok
  have hcl : s.cleared = s.storeRound := by
    unfold Sys.cleared
    rw [hpc]
  rw [hcl] at hbuf
  obtain ⟨-, hes⟩ := hbuf.full s.storeRound (Nat.le_refl _) (hbuf.lt_of_full he)
  have htake : s.fetched.take s.storeRound = s.stored := by
    rw [← hlen]
    exact (List.prefix_iff_eq_take.mp h.front).symm
  obtain ⟨j, n, hj, hn, hjn, hb, -⟩ := h.fetched.getElem hes
  rw [htake] at hj
  obtain rfl := hj.unique h.stored
  refine ⟨hg, hlen, n, hn, hjn, hb, ?_⟩
  have hsucc : s.fetched.take (s.storeRound + 1) =
      s.stored ++ [(s.buf s.storeRound).entriesBuf] := by
    rw [List.take_add_one, htake, hes]
    rfl
  rw [← hsucc]
  exact List.take_prefix _ _

theorem Inv.storeAppend (h : Inv c s g st f) (hpc : s.storePc = .locked)
    (he : (s.buf s.storeRound).empty = false) :
    ∃ n, 0 < n ∧ st + n ≤ (recs s.primary).length ∧
      (s.buf s.storeRound).entriesBuf = batch (recs s.primary) st n ∧
      Inv c { s with
        storePc := .appending
        stored := s.stored ++ [(s.buf s.storeRound).entriesBuf] } g (st + n) f := by
  obtain ⟨rfl, hlen, n, hn, hgn, hb, hfront⟩ := h.next_batch hpc he
  have hcl : s.cleared = s.storeRound := by
    unfold Sys.cleared
    rw [hpc]
  have hbuf := h.buffers
  rw [hcl] at hbuf
  refine ⟨n, hn, hgn, hb, h.primary, h.fetched, h.fetchBegin, h.fetchRound, ?_, hfront,
    hbuf.of_eq rfl rfl rfl, ?_, ?_⟩
  · rw [hb]
    exact h.stored.append (cut_singleton hn hgn)
  · exact h.fetchOk.congr rfl rfl hcl.le rfl rfl fun _ _ => rfl
  · refine ⟨?_, by omega, ?_⟩
    · simp [hlen]
    · simp only [hb]
      rw [← hlen, List.getElem?_append_right (Nat.le_refl _), Nat.sub_self, Nat.add_sub_cancel_left]
      rfl

theorem Inv.current_batch (h : Inv c s g st f) (hpc : s.storePc = .appending) :
    g < st ∧ (s.buf s.storeRound).entriesBuf = batch (recs s.primary) g (st - g) := by
  have hok := h.storeOk
  have hbuf := h.buffers
  unfold StoreOk at hok
  rw [hpc] at hok
  obtain ⟨hlen, hlt, hlast⟩ := hok
  have hcl : s.cleared = s.storeRound := by
    unfold Sys.cleared
    rw [hpc]
  rw [hcl] at hbuf
  refine ⟨hlt, ?_⟩
  have hle := h.front.length_le
  have hround := h.fetchRound
  obtain ⟨-, hes⟩ := hbuf.full s.storeRound (Nat.le_refl _) (by omega)
  obtain ⟨rest, hrest⟩ := h.front
  rw [← hrest, List.getElem?_append_left (by omega), hlast] at hes
  exact (Option.some.inj hes).symm

theorem Inv.storeDelete (h : Inv c s g st f) (hpc : s.storePc = .appending) :
    Inv c { s with
        mr := stageDelete c s.mr
          (processFetchedEntries true (s.buf s.storeRound).entriesBuf []).2
        storePc := .deleting
          (processFetchedEntries true (s.buf s.storeRound).entriesBuf []).1 } g st f := by
  obtain ⟨hlt, hb⟩ := h.current_batch hpc
  have hst := h.le_fetched.trans h.fetched_le
  have hok := h.storeOk
  unfold StoreOk at hok
  rw [hpc] at hok
  have hcl : s.cleared = s.storeRound := by
    unfold Sys.cleared
    rw [hpc]
  have hbuf := h.buffers
  rw [hcl] at hbuf
  obtain ⟨hstg, hlast⟩ := h.primary.stage (k := g) (show 0 < st - g by omega) (by omega) s.mr
  rw [show g + (st - g) = st by omega] at hstg hlast
  rw [hb]
  have hfetch : FetchOk c { s with
      mr := stageDelete c s.mr (processFetchedEntries true (batch (recs s.primary) g (st - g)) []).2
      storePc := .deleting
        (processFetchedEntries true (batch (recs s.primary) g (st - g)) []).1 } f :=
    h.fetchOk.congr rfl rfl hcl.le rfl rfl fun x hx => stageDelete_of_lt hx
  exact ⟨h.primary, h.fetched, h.fetchBegin, h.fetchRound, h.stored, h.front,
    hbuf.of_eq rfl rfl rfl, hfetch, hok.1, hlt.le, hstg, hlast⟩

theorem Inv.storeLand {lastLogIdx : UInt64} (h : Inv c s g st f)
    (hpc : s.storePc = .deleting lastLogIdx) :
    Inv c { s with primary := landDelete c s.mr s.primary, storePc := .deleted lastLogIdx }
      st st f := by
  have hst := h.le_fetched.trans h.fetched_le
  have hok := h.storeOk
  unfold StoreOk at hok
  rw [hpc] at hok
  obtain ⟨hlen, hle, hstg, hlast⟩ := hok
  have hcl : s.cleared = s.storeRound := by
    unfold Sys.cleared
    rw [hpc]
  have hbuf := h.buffers
  rw [hcl] at hbuf
  have hprim := h.primary.land hstg hle hst
  have hrecs := recs_landDelete c s.mr s.primary
  refine ⟨hprim, ?_, ?_, h.fetchRound, ?_, h.front, hbuf.of_eq rfl rfl rfl, ?_, hlen,
    rfl, hlast⟩
  · rw [hrecs]; exact h.fetched
  · rw [hrecs]; exact h.fetchBegin
  · rw [hrecs]; exact h.stored
  · exact h.fetchOk.congr rfl rfl hcl.le hrecs (landDelete_sequencer c s.mr s.primary) fun _ _ => rfl

theorem Inv.storeUpdate {lastLogIdx : UInt64} (h : Inv c s g st f)
    (hpc : s.storePc = .deleted lastLogIdx) :
    Inv c { s.setBuf s.storeRound ⟨[], (s.buf s.storeRound).lock, true⟩ with storePc := .updating }
      g st f := by
  have hok := h.storeOk
  unfold StoreOk at hok
  rw [hpc] at hok
  obtain ⟨hlen, hg, -⟩ := hok
  have hcl : s.cleared = s.storeRound := by
    unfold Sys.cleared
    rw [hpc]
  have hbuf := h.buffers
  rw [hcl] at hbuf
  have hle := h.front.length_le
  have hround := h.fetchRound
  refine ⟨h.primary, h.fetched, h.fetchBegin, h.fetchRound, h.stored, h.front, ?_, ?_, hlen, hg⟩
  · exact hbuf.clear (by omega) _ rfl rfl rfl
  · refine h.fetchOk.congr rfl rfl ?_ rfl rfl fun _ _ => rfl
    rw [hcl]
    exact Nat.le_succ _

theorem Inv.storeDone (h : Inv c s g st f) (hpc : s.storePc = .updating) :
    Inv c { s.setLock s.storeRound none with storeRound := s.storeRound + 1, storePc := .idle }
      g st f := by
  have hok := h.storeOk
  unfold StoreOk at hok
  rw [hpc] at hok
  have hcl : s.cleared = s.storeRound + 1 := by
    unfold Sys.cleared
    rw [hpc]
  have hbuf := h.buffers
  rw [hcl] at hbuf
  refine ⟨h.primary, h.fetched, h.fetchBegin, h.fetchRound, h.stored, h.front, ?_, ?_, hok⟩
  · exact hbuf.congr rfl rfl (buf_setLock s _ none)
  · exact h.fetchOk.congr rfl rfl hcl.le rfl rfl fun _ _ => rfl

/-! ### Refinement -/

/-- What the storer is doing with its last batch. -/
def StorePc.phase : StorePc → Phase
  | .idle | .locked => .free
  | .appending => .storing
  | .deleting _ | .deleted _ => .marking
  | .updating => .updating

/-- The shared log that the threads work on. -/
def Sys.abs (s : Sys) (g st : ℕ) : SharedLog := ⟨recs s.primary, s.stored, st, g, s.storePc.phase⟩

theorem step_tau (h1 : recs s'.primary = recs s.primary) (h2 : s'.stored = s.stored)
    (h3 : s'.storePc.phase = s.storePc.phase) : Spec.Step .tau (s.abs g st) (s'.abs g st) := by
  unfold Sys.abs
  rw [h1, h2, h3]
  exact .tau

/-- **One step** keeps the invariant, for some counts, and is a step of the shared log. -/
theorem Inv.step (h : Inv c s g st f) (hs : Step c maxFetchSize a s s') :
    ∃ g' st' f', Inv c s' g' st' f' ∧ Spec.Step a (s.abs g st) (s'.abs g' st') := by
  have hok := h.storeOk
  unfold StoreOk at hok
  cases hs with
  | append e he => exact ⟨g, st, f, h.append he, step_append h.primary he⟩
  | fetchLock => exact ⟨g, st, f, h.fetchMove trivial, step_tau rfl rfl rfl⟩
  | fetchWait => exact ⟨g, st, f, h.fetchMove trivial, step_tau rfl rfl rfl⟩
  | fetchRange hpc he => exact ⟨g, st, f, h.fetchRange he, step_tau rfl rfl rfl⟩
  | fetchNothing => exact ⟨g, st, f, h.fetchMove trivial, step_tau rfl rfl rfl⟩
  | fetchRead hpc hb hr => exact ⟨g, st, f, h.fetchRead hpc hb hr, step_tau rfl rfl rfl⟩
  | fetchNone hpc hes => exact ⟨g, st, f, h.fetchNone hpc hes, step_tau rfl rfl rfl⟩
  | fetchDone hpc hes hn =>
    obtain ⟨f', hf'⟩ := h.fetchDone hpc hes hn
    exact ⟨g, st, f', hf', step_tau rfl rfl rfl⟩
  | storeLock hpc =>
    rw [hpc] at hok
    exact ⟨g, st, f, h.storeMove (by unfold Sys.cleared; rw [hpc]; rfl) hok,
      step_tau rfl rfl (by rw [hpc]; rfl)⟩
  | storeWait hpc =>
    rw [hpc] at hok
    exact ⟨g, st, f, h.storeMove (by unfold Sys.cleared; rw [hpc]; rfl) hok,
      step_tau rfl rfl (by rw [hpc]; rfl)⟩
  | storeAppend hpc he =>
    obtain ⟨n, hn, hle, hb, hi⟩ := h.storeAppend hpc he
    refine ⟨g, st + n, f, hi, ?_⟩
    rw [hb]
    exact .appendBatch (s := s.abs g st) (by unfold Sys.abs; rw [hpc]; rfl) hn hle
  | storeDelete hpc =>
    exact ⟨g, st, f, h.storeDelete hpc,
      .appendBatchDone (s := s.abs g st) (by unfold Sys.abs; rw [hpc]; rfl)⟩
  | storeLand hpc =>
    refine ⟨st, st, f, h.storeLand hpc, ?_⟩
    unfold Sys.abs
    rw [recs_landDelete, hpc]
    exact .mark rfl
  | storeUpdate hpc =>
    rw [hpc] at hok
    exact ⟨g, st, f, h.storeUpdate hpc,
      .updateGlobalIdx (s := s.abs g st) (by unfold Sys.abs; rw [hpc]; rfl) hok.2.1 hok.2.2⟩
  | storeDone hpc =>
    exact ⟨g, st, f, h.storeDone hpc,
      .updateGlobalIdxDone (s := s.abs g st) (by unfold Sys.abs; rw [hpc]; rfl)⟩

theorem Inv.of_primary (hp : Primary c s.primary 0) (hb : ∀ i, s.buffers i = ⟨[], none, true⟩)
    (hr : s.fetchRound = 0 ∧ s.storeRound = 0 ∧ s.fetchBegin = 0) (hpc : s.fetchPc = .idle ∧ s.storePc = .idle)
    (he : s.fetched = [] ∧ s.stored = []) : Inv c s 0 0 0 := by
  obtain ⟨hr1, hr2, hr3⟩ := hr
  obtain ⟨hpc1, hpc2⟩ := hpc
  obtain ⟨hf, hst⟩ := he
  have hcl : s.cleared = 0 := by
    unfold Sys.cleared
    rw [hpc2, hr2]
  have hbuf : ∀ r, s.buf r = ⟨[], none, true⟩ := fun r => hb _
  refine ⟨hp, by rw [hf]; rfl, by rw [hr3, pos_zero], by rw [hr1, hf]; rfl, by rw [hst]; rfl,
    by rw [hst]; exact List.nil_prefix, ⟨?_, ?_, ?_, ?_⟩, ?_, ?_⟩
  · omega
  · omega
  · intro r _ hlt
    omega
  · intro r _ _
    rw [hbuf]
    exact ⟨rfl, rfl⟩
  · unfold FetchOk
    rw [hpc1]
    trivial
  · unfold StoreOk
    rw [hpc2, hst, hr2]
    exact ⟨rfl, rfl⟩

theorem Inv.start (h : Start s) : Inv c s 0 0 0 :=
  .of_primary (Primary.init h.primary) h.buffers h.rounds h.pcs h.empty

/-- **The pipelined loops refine the shared log.** -/
theorem simulation (c : Config) (maxFetchSize : ℕ) : Simulation (lts c maxFetchSize) Spec.lts
    fun s x => ∃ g st f, Inv c s g st f ∧ x = s.abs g st := by
  refine ⟨fun s hs => ?_, ?_⟩
  · refine ⟨_, ?_, 0, 0, 0, Inv.start hs, rfl⟩
    show s.abs 0 0 = _
    unfold Sys.abs recs
    rw [hs.primary.2, hs.pcs.2, hs.empty.2]
    rfl
  · rintro a s s' - ⟨g, st, f, hi, rfl⟩ hs
    obtain ⟨g', st', f', hi', hs'⟩ := hi.step hs
    exact ⟨_, hs', g', st', f', hi', rfl⟩

/-! ### A round -/

/-- Nothing is in the buffers, and no thread is at work. -/
def resting (P : State) (mr : Mem) (round fetchBegin : ℕ) (bs : List (List LogEntry)) : Sys :=
  ⟨P, mr, fun _ => ⟨[], none, true⟩, round, round, fetchBegin, .idle, .idle, bs, bs⟩

/-- Only the buffer of the round is in use. -/
def only (round : ℕ) (b : PipelineObj) : Fin 2 → PipelineObj :=
  Function.update (fun _ => ⟨[], none, true⟩) (Fin.ofNat 2 round) b

theorem only_self (round : ℕ) (b : PipelineObj) : only round b (Fin.ofNat 2 round) = b := Function.update_self ..

theorem update_only (round : ℕ) (b b' : PipelineObj) :
    Function.update (only round b) (Fin.ofNat 2 round) b' = only round b' := Function.update_idem ..

theorem only_free (round : ℕ) : only round ⟨[], none, true⟩ = fun _ => ⟨[], none, true⟩ :=
  Function.update_eq_self _ _

/-- The fetcher is at work in its round. -/
def fetching (P : State) (mr : Mem) (round fetchBegin : ℕ) (pc : FetchPc) (bs : List (List LogEntry)) : Sys :=
  ⟨P, mr, only round ⟨[], some .fetcher, true⟩, round, round, fetchBegin, pc, .idle, bs, bs⟩

/-- The storer has the buffer `b` to store. -/
def storing (P : State) (mr : Mem) (round fetchBegin : ℕ) (pc : StorePc) (b : PipelineObj)
    (fs bs : List (List LogEntry)) : Sys :=
  ⟨P, mr, only round b, round + 1, round, fetchBegin, .idle, pc, fs, bs⟩

section Round

variable {P : State} {mr : Mem} {round fb n : ℕ} {es : List LogEntry} {fs bs : List (List LogEntry)} {i : UInt64}

theorem run_fetch (round : ℕ) (bs : List (List LogEntry)) {b e : ℕ} {mr' : Mem}
    (hb : fetchBounds (getUnorderedRange P.log) fb 0 = some (b, e))
    (hread : readSegments c.rgSize P.log.mem mr b e = some mr') (hdec : decodeFetched [] mr' b e = (es, n))
    (hne : n ≠ 0) : Relation.ReflTransGen (Step c 0 .tau) (resting P mr round fb bs)
      (storing P mr' round (fb + n) .idle ⟨es, none, false⟩ (bs ++ [es]) bs) := by
  have h₁ : Step c 0 .tau (resting P mr round fb bs) (fetching P mr round fb .locked bs) := .fetchLock rfl rfl
  have h₂ : Step c 0 .tau (fetching P mr round fb .locked bs)
      (fetching P mr round fb (.ranged (getUnorderedRange P.log)) bs) :=
    .fetchRange rfl (congrArg PipelineObj.empty (only_self ..))
  have h₃ : Step c 0 .tau (fetching P mr round fb (.ranged (getUnorderedRange P.log)) bs)
      (fetching P mr' round fb (.loaded b e) bs) := .fetchRead rfl hb hread
  have h₄ : Step c 0 .tau (fetching P mr' round fb (.loaded b e) bs) ⟨P, mr', Function.update
      (only round ⟨[], some .fetcher, true⟩) (Fin.ofNat 2 round) ⟨es, none, false⟩, round + 1, round, fb + n, .idle,
        .idle, bs ++ [es], bs⟩ :=
    .fetchDone rfl (by simp only [fetching, Sys.buf, only_self]; exact hdec) hne
  rw [update_only] at h₄
  exact .tail (.tail (.tail (.single h₁) h₂) h₃) h₄

theorem step_storeLock : Step c 0 .tau (storing P mr round fb .idle ⟨es, none, false⟩ fs bs)
    (storing P mr round fb .locked ⟨es, some .storer, false⟩ fs bs) := by
  have h : Step c 0 .tau (storing P mr round fb .idle ⟨es, none, false⟩ fs bs)
      ⟨P, mr, Function.update (only round ⟨es, none, false⟩) (Fin.ofNat 2 round)
        { only round ⟨es, none, false⟩ (Fin.ofNat 2 round) with lock := some .storer }, round + 1, round, fb, .idle,
        .locked, fs, bs⟩ := .storeLock rfl (congrArg PipelineObj.lock (only_self ..))
  rwa [only_self, update_only] at h

theorem buf_storing {pc : StorePc} {b : PipelineObj} : (storing P mr round fb pc b fs bs).buf round = b :=
  only_self ..

theorem step_storeAppend : Step c 0 (.appendBatch es) (storing P mr round fb .locked ⟨es, some .storer, false⟩ fs bs)
    (storing P mr round fb .appending ⟨es, some .storer, false⟩ fs (bs ++ [es])) := by
  have h : Step c 0 _ (storing P mr round fb .locked ⟨es, some .storer, false⟩ fs bs) _ :=
    .storeAppend rfl (congrArg PipelineObj.empty buf_storing)
  rwa [show (storing P mr round fb .locked ⟨es, some .storer, false⟩ fs bs).storeRound = round from rfl,
    buf_storing] at h

theorem step_storeDelete : Step c 0 .appendBatchDone
    (storing P mr round fb .appending ⟨es, some .storer, false⟩ fs bs)
    (storing P (stageDelete c mr (processFetchedEntries true es []).2) round fb
      (.deleting (processFetchedEntries true es []).1) ⟨es, some .storer, false⟩ fs bs) := by
  have h : Step c 0 _ (storing P mr round fb .appending ⟨es, some .storer, false⟩ fs bs) _ := .storeDelete rfl
  rwa [show (storing P mr round fb .appending ⟨es, some .storer, false⟩ fs bs).storeRound = round from rfl,
    buf_storing] at h

theorem step_storeLand : Step c 0 .tau (storing P mr round fb (.deleting i) ⟨es, some .storer, false⟩ fs bs)
    (storing (landDelete c mr P) mr round fb (.deleted i) ⟨es, some .storer, false⟩ fs bs) :=
  .storeLand rfl

theorem step_storeUpdate : Step c 0 (.updateGlobalIdx i)
    (storing P mr round fb (.deleted i) ⟨es, some .storer, false⟩ fs bs)
    (storing P mr round fb .updating ⟨[], some .storer, true⟩ fs bs) := by
  have h : Step c 0 _ (storing P mr round fb (.deleted i) ⟨es, some .storer, false⟩ fs bs)
      ⟨P, mr, Function.update (only round ⟨es, some .storer, false⟩) (Fin.ofNat 2 round)
        ⟨[], (only round ⟨es, some .storer, false⟩ (Fin.ofNat 2 round)).lock, true⟩, round + 1, round, fb, .idle,
        .updating, fs, bs⟩ := .storeUpdate rfl
  rwa [only_self, update_only] at h

theorem step_storeDone : Step c 0 .updateGlobalIdxDone
    (storing P mr round fb .updating ⟨[], some .storer, true⟩ bs bs) (resting P mr (round + 1) fb bs) := by
  have h : Step c 0 .updateGlobalIdxDone (storing P mr round fb .updating ⟨[], some .storer, true⟩ bs bs)
      ⟨P, mr, Function.update (only round ⟨[], some .storer, true⟩) (Fin.ofNat 2 round)
        { only round ⟨[], some .storer, true⟩ (Fin.ofNat 2 round) with lock := none }, round + 1, round + 1, fb,
        .idle, .idle, bs, bs⟩ := .storeDone rfl
  rwa [only_self, update_only, only_free] at h

theorem exists_fetch (hp : Primary c P g) (hlt : g < (recs P).length) (mr : Mem) (round : ℕ)
    (bs : List (List LogEntry)) : ∃ mr', Relation.ReflTransGen (Step c 0 .tau)
      (resting P mr round (pos entrySize (recs P) g) bs)
      (storing P mr' round (pos entrySize (recs P) (recs P).length) .idle
        ⟨batch (recs P) g ((recs P).length - g), none, false⟩
        (bs ++ [batch (recs P) g ((recs P).length - g)]) bs) := by
  obtain ⟨mr', hb, hread, hdec, hne⟩ :=
    hp.fetch_all (Nat.le_refl g) hlt (show max P.log.orderedWatermk (pos entrySize (recs P) g) = _ by
      rw [hp.mark, max_self]) mr
  have hend : pos entrySize (recs P) g + (P.log.sequencer - pos entrySize (recs P) g) =
      pos entrySize (recs P) (recs P).length := by
    have hle := pos_le_total (f := entrySize) (l := recs P) g
    rw [pos_of_length_le (Nat.le_refl _), hp.total]
    exact Nat.add_sub_cancel' hle
  have hfetch := run_fetch round bs hb hread hdec hne
  rw [hend] at hfetch
  exact ⟨mr', hfetch⟩

/-- **A round of the two threads** stores all that has not been ordered. -/
theorem exists_round (hp : Primary c P g) (hlt : g < (recs P).length) (mr : Mem) (round : ℕ)
    (bs : List (List LogEntry)) : ∃ mr', Spec.Round (lts c 0) (batch (recs P) g ((recs P).length - g))
        (resting P mr round (pos entrySize (recs P) g) bs)
        (resting (landDelete c mr' P) mr' (round + 1) (pos entrySize (recs P) (recs P).length)
          (bs ++ [batch (recs P) g ((recs P).length - g)])) ∧
      Primary c (landDelete c mr' P) (recs P).length := by
  obtain ⟨mr₁, hfetch⟩ := exists_fetch hp hlt mr round bs
  have hstage := (hp.stage (k := g) (n := (recs P).length - g) (by omega) (by omega) mr₁).1
  rw [Nat.add_sub_cancel' hlt.le] at hstage
  exact ⟨_, ⟨_, _, _, _, _, _, hfetch.tail step_storeLock, step_storeAppend, step_storeDelete,
    .single step_storeLand, step_storeUpdate, step_storeDone⟩, hp.land hstage hlt.le (Nat.le_refl _)⟩

end Round

end LazyLog.ConsLog.Pipeline
