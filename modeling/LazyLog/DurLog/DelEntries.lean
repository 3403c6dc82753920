import LazyLog.DurLog.Ring

/-! # Garbage collection on a backup (`DurabilityLogFlat::delEntriesBackup`)

The consensus log tells a backup, for each client of a batch, the greatest number of its entries in the batch.
The backup goes through its ring from the watermark up to the last of the entries named, deletes those that
are not above the number named for their client and moves the others to `pending_entries_`, which it goes
through first, in the next collection. For a client that is not named the number is zero, as a map with
`operator[]` gives it.

Collection runs next to `AppendEntry`. What the latter does to the region is one step here, the insertion
into `reqid_to_seq_map_` under `lk_` another one.

`Sound c v`: the loop over the ring is at an entry boundary, with complete entries before it, wherever the calls of
`AppendEntry` are. `Inv c S v`, for calls that have written their entries: every entry before the cursor of the
collection is in `pending_entries_`, or satisfies `S`. This is kept as long as what is deleted satisfies `S`. -/

namespace LazyLog.DurLog.DelEntries

open LazyLog.Lib.Bytes LazyLog.Lib.Tiling LazyLog.Rpc.Entry LazyLog.Rpc.Multi
open LazyLog.DurLog.Flat LazyLog.DurLog.Ranges LazyLog.DurLog.Ring

/-! ### The parts of `delEntriesBackup` -/

/-- `cli_id_max_seq_map`, as `operator[]` reads it: zero for a client that is not named. -/
def cliIdMaxSeqMap (ids : List ReqID) : UInt64 → UInt64 :=
  ids.foldl (fun m rid => Function.update m rid.1 rid.2) fun _ => 0

/-- The first critical section of `lk_`: the greatest sequence number of the requests named. `operator[]` adds
a request that it does not find, at zero. -/
def noteMaxSeq (ids : List ReqID) (l : FlatLog) : FlatLog × ℕ :=
  ids.foldl (fun p rid =>
    let seq := (p.1.reqidToSeqMap rid).getD 0
    ({ p.1 with reqidToSeqMap := Function.update p.1.reqidToSeqMap rid (some seq) }, max p.2 seq)) (l, 0)

/-- The loop over `pending_entries_`, and `n_del` after it. -/
def delPending (ids : List ReqID) (l : FlatLog) : FlatLog × ℕ :=
  let kept := l.pendingEntries.filter fun e => cliIdMaxSeqMap ids e.clientId < e.clientSeq
  ({ l with pendingEntries := kept }, l.pendingEntries.length - kept.length)

/-- One round of the loop over the ring, at `s`: the log, `n_del` and `s` after it. -/
def delRound (c : Config) (ids : List ReqID) (l : FlatLog) (nDel s : ℕ) : FlatLog × ℕ × ℕ :=
  let ofst := s % c.rgSize
  let cliId := getClientId l.mem ofst
  let cliSeq := getClientSeq l.mem ofst
  let keep : Bool := cliIdMaxSeqMap ids cliId < cliSeq
  ({ l with
      pendingEntries :=
        if keep then l.pendingEntries ++ [(deserializer default l.mem ofst).1] else l.pendingEntries
      reqidToSeqMap := Function.update l.reqidToSeqMap (cliId, cliSeq) none
      orderedIdxWatermk := (getIdx l.mem ofst + 1).toNat },
    if keep then nDel else nDel + 1, s + getSizeFromBuf l.mem ofst)

/-! ### A backup -/

/-- Where the request for a collection is, and `delEntriesBackup`. -/
inductive GcPc
  | idle
  | requested (ids : List ReqID)
  | noted (ids : List ReqID) (maxSeq : ℕ)
  | scanning (ids : List ReqID) (maxSeq nDel s : ℕ)
  | replied (nDel : ℕ)

/-- A backup server, with its calls of `AppendEntry`, and its collection. -/
structure Backup where
  server : State
  gc : GcPc

/-- The loop over the ring holds `lk_`. -/
def GcPc.Locked : GcPc → Prop
  | .scanning .. => True
  | .idle | .requested _ | .noted .. | .replied _ => False

/-- One step of a backup by itself. -/
inductive Step (c : Config) : Backup → Backup → Prop
  | insertReqid {v : Backup} {i : ℕ} {t : Slot} (ht : v.server.slots[i]? = some t) (hs : t.stage = .copied)
    (hlk : ¬ v.gc.Locked) :
    Step c v { v with server := v.server.put i t .returned (insertReqid c v.server.log t.e t.seq) }
  | note {v : Backup} {ids : List ReqID} (hpc : v.gc = .requested ids) :
    Step c v
      { server := { v.server with log := (noteMaxSeq ids v.server.log).1 }
        gc := .noted ids (noteMaxSeq ids v.server.log).2 }
  | pending {v : Backup} {ids : List ReqID} {maxSeq : ℕ} (hpc : v.gc = .noted ids maxSeq) :
    Step c v
      { server := { v.server with log := (delPending ids v.server.log).1 }
        gc := .scanning ids maxSeq (delPending ids v.server.log).2 v.server.log.orderedWatermk }
  | round {v : Backup} {ids : List ReqID} {maxSeq nDel s : ℕ} (hpc : v.gc = .scanning ids maxSeq nDel s)
    (hs : s ≤ maxSeq) (hf : getFlagFromBuf v.server.log.mem (s % c.rgSize) = 1) :
    Step c v
      { server := { v.server with log := (delRound c ids v.server.log nDel s).1 }
        gc := .scanning ids maxSeq (delRound c ids v.server.log nDel s).2.1
          (delRound c ids v.server.log nDel s).2.2 }
  | finish {v : Backup} {ids : List ReqID} {maxSeq nDel s : ℕ} (hpc : v.gc = .scanning ids maxSeq nDel s)
    (hs : maxSeq < s) :
    Step c v
      { server := v.server.setWatermk s v.server.log.orderedIdxWatermk
        gc := .replied nDel }

/-- A collection with the requests `ids` compares the entry of this request next: it is in
`pending_entries_`, or stands in the ring at `s`, its flag raised. -/
inductive Tests (c : Config) (v : Backup) : List ReqID → ReqID → Prop
  | pending {ids : List ReqID} {maxSeq : ℕ} {e : LogEntry} (hpc : v.gc = .noted ids maxSeq)
    (he : e ∈ v.server.log.pendingEntries) : Tests c v ids e.reqId
  | ring {ids : List ReqID} {maxSeq nDel s : ℕ} (hpc : v.gc = .scanning ids maxSeq nDel s)
    (hs : s ≤ maxSeq) (hf : getFlagFromBuf v.server.log.mem (s % c.rgSize) = 1) :
    Tests c v ids (getClientId v.server.log.mem (s % c.rgSize),
      getClientSeq v.server.log.mem (s % c.rgSize))

/-- The requests of the collection under way. -/
def GcPc.ids : GcPc → List ReqID
  | .requested ids | .noted ids _ | .scanning ids .. => ids
  | .idle | .replied _ => []

/-- `max_seq`, once it is computed. -/
def GcPc.maxSeq : GcPc → ℕ
  | .noted _ maxSeq | .scanning _ maxSeq _ _ => maxSeq
  | .idle | .requested _ | .replied _ => 0

/-- How far the ring has been gone through. -/
def Backup.cursor (v : Backup) : ℕ :=
  match v.gc with
  | .scanning _ _ _ s => s
  | .idle | .requested _ | .noted .. | .replied _ => v.server.log.orderedWatermk

variable {c : Config} {S S' : ReqID → Prop} {v v' : Backup} {ids : List ReqID} {e : LogEntry} {i : ℕ} {t : Slot}

section Cursor

variable {maxSeq nDel s : ℕ}

theorem cursor_of_not_locked : ∀ {v : Backup}, ¬ v.gc.Locked → v.cursor = v.server.log.orderedWatermk
  | ⟨_, .scanning ..⟩, h => absurd trivial h
  | ⟨_, .idle⟩, _ | ⟨_, .requested _⟩, _ | ⟨_, .noted ..⟩, _ | ⟨_, .replied _⟩, _ => rfl

theorem cursor_of_scanning (h : v.gc = .scanning ids maxSeq nDel s) : v.cursor = s := by
  unfold Backup.cursor
  rw [h]

theorem maxSeq_of_noted (h : v.gc = .noted ids maxSeq) : v.gc.maxSeq = maxSeq := by
  rw [h]
  rfl

theorem maxSeq_of_scanning (h : v.gc = .scanning ids maxSeq nDel s) : v.gc.maxSeq = maxSeq := by
  rw [h]
  rfl

end Cursor

/-! ### The requests named -/

/-- The number of the entry is above the number named for its client. -/
def Above (ids : List ReqID) (e : LogEntry) : Prop := cliIdMaxSeqMap ids e.clientId < e.clientSeq

instance (ids : List ReqID) (e : LogEntry) : Decidable (Above ids e) := inferInstanceAs (Decidable (_ < _))

/-- The number found for a client is named for it; a client that is not named has zero. -/
theorem cliIdMaxSeqMap_cases (ids : List ReqID) (id : UInt64) :
    (id, cliIdMaxSeqMap ids id) ∈ ids ∨ id ∉ ids.map Prod.fst ∧ cliIdMaxSeqMap ids id = 0 := by
  unfold cliIdMaxSeqMap
  induction ids using List.reverseRecOn with
  | nil => exact Or.inr ⟨List.not_mem_nil, rfl⟩
  | append_singleton ids rid ih =>
    rw [List.foldl_append, List.foldl_cons, List.foldl_nil]
    rcases eq_or_ne id rid.1 with rfl | hne
    · rw [Function.update_self]
      exact Or.inl (List.mem_append_right _ (List.mem_singleton.mpr rfl))
    · rw [Function.update_of_ne hne]
      rcases ih with hmem | ⟨hno, h0⟩
      · exact Or.inl (List.mem_append_left _ hmem)
      · refine Or.inr ⟨?_, h0⟩
        rw [List.map_append, List.mem_append, List.map_singleton, List.mem_singleton]
        rintro (hmem | heq)
        · exact hno hmem
        · exact hne heq

/-- The entries of a client that is not named are kept, except for one with the number zero. -/
theorem above_of_notMem {ids : List ReqID} {e : LogEntry} (hno : e.clientId ∉ ids.map Prod.fst)
    (hpos : 0 < e.clientSeq) : Above ids e := by
  rcases cliIdMaxSeqMap_cases ids e.clientId with hmem | ⟨-, h0⟩
  · exact absurd (List.mem_map_of_mem hmem) hno
  · unfold Above
    rw [h0]
    exact hpos

/-- The map changes at zero values only, and the maximum is a value of the map. -/
theorem noteMaxSeq_spec (P : ℕ → Prop) (h0 : P 0) (ids : List ReqID) (l : FlatLog)
    (hl : ∀ rid q, l.reqidToSeqMap rid = some q → P q) :
    ∃ m, (noteMaxSeq ids l).1 = { l with reqidToSeqMap := m } ∧ (∀ rid q, m rid = some q → P q) ∧
      P (noteMaxSeq ids l).2 := by
  unfold noteMaxSeq
  induction ids using List.reverseRecOn with
  | nil => exact ⟨_, rfl, hl, h0⟩
  | append_singleton ids rid ih =>
    obtain ⟨m, hm, hval, hmax⟩ := ih
    rw [List.foldl_append, List.foldl_cons, List.foldl_nil]
    simp only [hm]
    have hseq : P ((m rid).getD 0) := by
      cases hq : m rid with
      | none => exact h0
      | some q => exact hval rid q hq
    refine ⟨_, rfl, ?_, ?_⟩
    · intro rid' q hq
      rcases eq_or_ne rid' rid with rfl | hne
      · rw [Function.update_self] at hq
        rw [← Option.some.inj hq]
        exact hseq
      · rw [Function.update_of_ne hne] at hq
        exact hval rid' q hq
    · rcases max_choice (List.foldl _ (l, 0) ids).2 ((m rid).getD 0) with hc | hc
      · rw [hc]
        exact hmax
      · rw [hc]
        exact hseq

theorem noteMaxSeq_log (ids : List ReqID) (l : FlatLog) :
    ∃ m, (noteMaxSeq ids l).1 = { l with reqidToSeqMap := m } := by
  obtain ⟨m, hm, -, -⟩ := noteMaxSeq_spec (fun _ => True) trivial ids l fun _ _ _ => trivial
  exact ⟨m, hm⟩

/-! ### The cursor -/

theorem cursor_congr {s' : State} (hw : s'.log.orderedWatermk = v.server.log.orderedWatermk) :
    Backup.cursor { v with server := s' } = v.cursor := by
  unfold Backup.cursor
  simp only [hw]

theorem cursor_setGc {gc : GcPc} (h : ¬ v.gc.Locked) (h' : ¬ gc.Locked) :
    Backup.cursor { v with gc := gc } = v.cursor :=
  (cursor_of_not_locked (v := { v with gc := gc }) h').trans (cursor_of_not_locked h).symm

theorem appendMem_counters (c : Config) (s : State) (e : LogEntry) :
    (appendMem c s e).log.sequencer = s.log.sequencer + getSize e ∧
      (appendMem c s e).log.orderedWatermk = s.log.orderedWatermk ∧
      (appendMem c s e).log.orderedIdxWatermk = s.log.orderedIdxWatermk ∧
      (appendMem c s e).log.reqidToSeqMap = s.log.reqidToSeqMap ∧
      (appendMem c s e).log.pendingEntries = s.log.pendingEntries := by
  unfold appendMem copyOverflow
  simp only
  split_ifs <;> exact ⟨rfl, rfl, rfl, rfl, rfl⟩

theorem entries_appendMem (c : Config) (s : State) (e : LogEntry) :
    (appendMem c s e).entries = s.entries ++ [stamp c s.log.indexer e] := by
  simp [State.entries, appendMem]

theorem cursor_appendMem (c : Config) (v : Backup) (e : LogEntry) :
    Backup.cursor { v with server := appendMem c v.server e } = v.cursor :=
  cursor_congr (appendMem_counters c v.server e).2.1

theorem cursor_insertReqid (c : Config) (v : Backup) (i : ℕ) (t : Slot) :
    Backup.cursor { v with server := v.server.put i t .returned (insertReqid c v.server.log t.e t.seq) } =
      v.cursor :=
  cursor_congr (insertReqid_counters c v.server.log t.e t.seq).2.2.1

/-! ### The parts of a collection -/

/-- The loop over the ring is not behind the last entry, unless nothing has been appended at all. -/
theorem lt_length_or_nil {s : State} {k q maxSeq : ℕ} (hT : Tiled s) (hq : q = pos entrySize s.entries k)
    (hmax : maxSeq < s.log.sequencer ∨ maxSeq = 0) (hle : q ≤ maxSeq) :
    k < s.slots.length ∨ s.slots = [] ∧ q = 0 := by
  by_cases hlt : k < s.slots.length
  · exact Or.inl hlt
  · -- the cursor is at the end of the log, and the end is not above `max_seq`
    have hend : q = s.log.sequencer := by
      rw [hT.sequencer, hq]
      exact pos_of_length_le (by simpa [State.entries] using hlt)
    obtain rfl : q = 0 := by omega
    refine Or.inr ⟨?_, rfl⟩
    by_contra hne
    obtain ⟨t, ts, hts⟩ := List.exists_cons_of_ne_nil hne
    have hsz := hT.end_le_sequencer (i := 0) (t := t) (by rw [hts]; rfl)
    have := entrySize_pos t.e
    omega

/-- **One round**: the entry is dropped if its number is not above the number named for its client, and
becomes pending otherwise. -/
theorem delRound_eq {l : FlatLog} {t : Slot} {s : ℕ} (ids : List ReqID) (nDel : ℕ) (ht : Admissible t.e)
    (hh : Holds l.mem (s % c.rgSize) (encode t.written)) :
    delRound c ids l nDel s =
      ({ l with
          pendingEntries := if Above ids t.written then l.pendingEntries ++ [t.written] else l.pendingEntries
          reqidToSeqMap := Function.update l.reqidToSeqMap t.e.reqId none
          orderedIdxWatermk := (t.e.logIdx + 1).toNat },
        if Above ids t.written then nDel else nDel + 1, s + entrySize t.e) := by
  obtain ⟨h1, h2⟩ := getReqId_of_holds hh.left
  have hd := deserializer_of_holds default hh ht.sized (show (1 : UInt16) ≠ 0 by decide)
  have hsz : getSizeFromBuf l.mem (s % c.rgSize) = entrySize t.e :=
    (getSizeFromBuf_of_holds hh.left).trans ht.getSize_eq
  unfold delRound
  simp only [h1, h2, getIdx_of_holds hh.left, hd, hsz, decide_eq_true_iff]
  rfl

theorem eq_some_of_update_none {m : ReqID → Option ℕ} {a rid : ReqID} {q : ℕ}
    (h : Function.update m a none rid = some q) : m rid = some q := by
  rcases eq_or_ne rid a with rfl | hne
  · rw [Function.update_self] at h
    cases h
  · rwa [Function.update_of_ne hne] at h

theorem delRound_counters (ids : List ReqID) (l : FlatLog) (nDel s : ℕ) :
    (delRound c ids l nDel s).1.sequencer = l.sequencer ∧
      (delRound c ids l nDel s).1.orderedWatermk = l.orderedWatermk := by
  unfold delRound
  exact ⟨rfl, rfl⟩

/-- An entry takes some place, whatever its size field says. -/
theorem lt_delRound (c : Config) (ids : List ReqID) (l : FlatLog) (nDel s : ℕ) :
    s < (delRound c ids l nDel s).2.2 := by
  unfold delRound getSizeFromBuf align4 metaDataSize flagPos
  simp only
  omega

theorem insertReqid_noted {s : State} {i : ℕ} {t : Slot} (hT : Tiled s)
    (hn : ∀ rid q, s.log.reqidToSeqMap rid = some q → q < s.log.sequencer ∨ q = 0) (ht : s.slots[i]? = some t) :
    ∀ rid q, (insertReqid c s.log t.e t.seq).reqidToSeqMap rid = some q → q < s.log.sequencer ∨ q = 0 := by
  intro rid q hq
  unfold Flat.insertReqid at hq
  split_ifs at hq
  · exact hn rid q hq
  · by_cases heq : rid = t.e.reqId
    · simp only [heq, Function.update_self, Option.some.injEq] at hq
      have hsz := hT.end_le_sequencer ht
      have := entrySize_pos t.e
      omega
    · simp only [Function.update_of_ne heq] at hq
      exact hn rid q hq

/-! ### The loop over the ring -/

/-- **The invariant of the loop**: the ring has its contents, and the loop is at an entry boundary, with complete
entries before it. -/
structure Sound (c : Config) (v : Backup) : Prop where
  contents : Contents c v.server
  empty : v.server.slots = [] → getFlagFromBuf v.server.log.mem 0 = 0
  noted : ∀ rid q, v.server.log.reqidToSeqMap rid = some q → q < v.server.log.sequencer ∨ q = 0
  maxSeq : v.gc.maxSeq < v.server.log.sequencer ∨ v.gc.maxSeq = 0
  watermk_le : v.server.log.orderedWatermk ≤ v.cursor
  settled : Settled c v.server v.cursor

theorem Sound.start (c : Config) : Sound c ⟨⟨.zeroed, []⟩, .idle⟩ := by
  refine ⟨.init ⟨FlatLog.zeroed_fresh, rfl⟩, fun _ => by decide, ?_, Or.inr rfl, Nat.le_refl _, settled_zero c _⟩
  rintro rid q ⟨⟩

theorem Sound.reserve {e : LogEntry} (h : Sound c v) (he : Admissible e) (hf : e.flags = 0)
    (hocc : v.server.log.sequencer + getSize e < v.server.log.orderedWatermk + c.rgSize) :
    Sound c { v with server := v.server.reserve c e } := by
  have hcur : Backup.cursor { v with server := v.server.reserve c e } = v.cursor := cursor_congr rfl
  refine ⟨h.contents.reserve he hf hocc, ?_, ?_, ?_, ?_, ?_⟩
  · intro hnil
    exact absurd (List.append_eq_nil_iff.mp hnil).2 (List.cons_ne_nil _ _)
  · intro rid q hq
    exact (h.noted rid q hq).imp (fun hlt => hlt.trans_le (Nat.le_add_right _ _)) id
  · exact h.maxSeq.imp (fun hlt => hlt.trans_le (Nat.le_add_right _ _)) id
  · rw [hcur]
    exact h.watermk_le
  · rw [hcur]
    exact h.settled.reserve e

theorem Sound.proceed {s' : State} (h : Sound c v) (hs : AppendStep c i v.server s') (hi : i < v.server.slots.length)
    (hn : ∀ rid q, s'.log.reqidToSeqMap rid = some q → q < v.server.log.sequencer ∨ q = 0) :
    Sound c { v with server := s' } := by
  obtain ⟨t, st, l, ht, rfl, hcomp, hseq, hw, -⟩ := appendStep_complete hs hi
  have hcur : Backup.cursor { v with server := v.server.put i t st l } = v.cursor := cursor_congr hw
  refine ⟨h.contents.proceed hs hi, ?_, ?_, ?_, ?_, ?_⟩
  · intro hnil
    have hlen := congrArg List.length hnil
    simp only [State.put, List.length_set, List.length_nil] at hlen
    omega
  · simp only [State.put, hseq]
    exact hn
  · simp only [State.put, hseq]
    exact h.maxSeq
  · rw [hcur]
    simp only [State.put, hw]
    exact h.watermk_le
  · rw [hcur]
    exact h.settled.put ht hcomp

theorem Sound.insertReqid (h : Sound c v) (ht : v.server.slots[i]? = some t) (hst : t.stage = .copied) :
    Sound c { v with server := v.server.put i t .returned (insertReqid c v.server.log t.e t.seq) } := by
  refine h.proceed (.insertReqid ht hst) (List.getElem?_eq_some_iff.mp ht).1 ?_
  exact insertReqid_noted h.contents.tiled h.noted ht

theorem Sound.collect (h : Sound c v) {l : FlatLog} {gc : GcPc} (h1 : l.mem = v.server.log.mem)
    (h2 : l.sequencer = v.server.log.sequencer) (h3 : l.indexer = v.server.log.indexer)
    (h4 : l.orderedWatermk = v.server.log.orderedWatermk)
    (hn : ∀ rid q, l.reqidToSeqMap rid = some q → q < v.server.log.sequencer ∨ q = 0)
    (hm : gc.maxSeq < v.server.log.sequencer ∨ gc.maxSeq = 0)
    (hw : v.server.log.orderedWatermk ≤ Backup.cursor ⟨{ v.server with log := l }, gc⟩)
    (hs : Settled c v.server (Backup.cursor ⟨{ v.server with log := l }, gc⟩)) :
    Sound c ⟨{ v.server with log := l }, gc⟩ := by
  refine ⟨h.contents.congr rfl h1 h2 h3 h4, ?_, ?_, ?_, ?_, hs⟩
  · intro hnil
    simp only [h1]
    exact h.empty hnil
  · simp only [h2]
    exact hn
  · simp only [h2]
    exact hm
  · simp only [h4]
    exact hw

/-- The loop is at an entry, with complete entries before it, unless nothing has been appended at all. -/
theorem Sound.current_or_nil (h : Sound c v) {maxSeq nDel q : ℕ} (hpc : v.gc = .scanning ids maxSeq nDel q)
    (hq : q ≤ maxSeq) :
    (∃ (k : ℕ) (t : Slot), v.server.slots[k]? = some t ∧ t.seq = q ∧ v.server.log.orderedWatermk ≤ t.seq ∧
      ∀ (j : ℕ) (u : Slot), j < k → v.server.slots[j]? = some u → u.Complete c) ∨ v.server.slots = [] ∧ q = 0 := by
  obtain ⟨k, hk, hcur, hcomp⟩ := h.settled
  have hle := h.watermk_le
  have hmax := h.maxSeq
  rw [cursor_of_scanning hpc] at hcur hle
  rw [maxSeq_of_scanning hpc] at hmax
  refine (lt_length_or_nil h.contents.tiled hcur hmax hq).imp (fun hlt => ?_) id
  have ht := List.getElem?_eq_getElem hlt
  have hseq := (h.contents.tiled.seq ht).trans hcur.symm
  exact ⟨k, _, ht, hseq, hle.trans hseq.ge, hcomp⟩

theorem Sound.current (h : Sound c v) {maxSeq nDel q : ℕ} (hpc : v.gc = .scanning ids maxSeq nDel q)
    (hq : q ≤ maxSeq) (hf : getFlagFromBuf v.server.log.mem (q % c.rgSize) = 1) :
    ∃ (k : ℕ) (t : Slot), v.server.slots[k]? = some t ∧ t.seq = q ∧
      Holds v.server.log.mem (q % c.rgSize) (encode t.written) ∧
      ∀ (j : ℕ) (u : Slot), j < k → v.server.slots[j]? = some u → u.Complete c := by
  rcases h.current_or_nil hpc hq with ⟨k, t, ht, rfl, hw, hcomp⟩ | ⟨hnil, rfl⟩
  · refine ⟨k, t, ht, rfl, h.contents.holds_of_flagged ht hw ?_, hcomp⟩
    by_contra hno
    rw [h.contents.flag_zero_of_not_flagged ht hw hno] at hf
    cases hf
  · rw [Nat.zero_mod, h.empty hnil] at hf
    cases hf

theorem Sound.note (h : Sound c v) (hpc : v.gc = .requested ids) :
    Sound c
      { server := { v.server with log := (noteMaxSeq ids v.server.log).1 }
        gc := .noted ids (noteMaxSeq ids v.server.log).2 } := by
  obtain ⟨m, hm, hval, hmax⟩ := noteMaxSeq_spec (fun q => q < v.server.log.sequencer ∨ q = 0)
    (Or.inr rfl) ids v.server.log h.noted
  have hset := h.settled
  rw [cursor_of_not_locked (by rw [hpc]; exact id)] at hset
  rw [hm]
  exact h.collect rfl rfl rfl rfl hval hmax (Nat.le_refl _) hset

theorem Sound.pending (h : Sound c v) {maxSeq : ℕ} (hpc : v.gc = .noted ids maxSeq) :
    Sound c
      { server := { v.server with log := (delPending ids v.server.log).1 }
        gc := .scanning ids maxSeq (delPending ids v.server.log).2 v.server.log.orderedWatermk } := by
  have hmax := h.maxSeq
  rw [maxSeq_of_noted hpc] at hmax
  exact h.collect rfl rfl rfl rfl h.noted hmax (Nat.le_refl _) h.contents.settled

/-- A round passes the entry it is at, which is to be complete. -/
theorem Sound.round (h : Sound c v) {maxSeq nDel q : ℕ} (hpc : v.gc = .scanning ids maxSeq nDel q)
    (hq : q ≤ maxSeq) (hf : getFlagFromBuf v.server.log.mem (q % c.rgSize) = 1)
    (hp : ∀ t ∈ v.server.slots, t.seq = q → t.Complete c) :
    Sound c
      { server := { v.server with log := (delRound c ids v.server.log nDel q).1 }
        gc := .scanning ids maxSeq (delRound c ids v.server.log nDel q).2.1
          (delRound c ids v.server.log nDel q).2.2 } := by
  obtain ⟨k, t, ht, rfl, hh, hcomp⟩ := h.current hpc hq hf
  have heq := delRound_eq ids nDel (h.contents.tiled.admissible ht) hh
  have hmax := h.maxSeq
  have hle := h.watermk_le
  rw [cursor_of_scanning hpc] at hle
  rw [maxSeq_of_scanning hpc] at hmax
  rw [heq]
  refine h.collect rfl rfl rfl rfl (fun rid q hq => h.noted rid q (eq_some_of_update_none hq)) hmax
    (Nat.le_add_right_of_le hle) ?_
  have hpos : pos entrySize v.server.entries (k + 1) = t.seq + entrySize t.e := by
    rw [pos_succ (getElem?_entries ht), ← h.contents.tiled.seq ht]
  refine ⟨k + 1, (List.getElem?_eq_some_iff.mp ht).1, hpos.symm, fun j u hj hu => ?_⟩
  rcases Nat.lt_succ_iff_lt_or_eq.mp hj with hjk | rfl
  · exact hcomp j u hjk hu
  · obtain rfl : t = u := Option.some.inj (ht.symm.trans hu)
    exact hp t (List.mem_of_getElem? ht) rfl

theorem Sound.finish (h : Sound c v) {maxSeq nDel q : ℕ} (hpc : v.gc = .scanning ids maxSeq nDel q) :
    Sound c
      { server := v.server.setWatermk q v.server.log.orderedIdxWatermk
        gc := .replied nDel } := by
  have hle := h.watermk_le
  have hset := h.settled
  rw [cursor_of_scanning hpc] at hle hset
  exact ⟨h.contents.advance _ hle hset, h.empty, h.noted, Or.inr rfl, Nat.le_refl _, hset⟩

theorem Sound.setGc (h : Sound c v) (gc : GcPc) (hlk : ¬ v.gc.Locked) (hlk' : ¬ gc.Locked) (hm : gc.maxSeq = 0) :
    Sound c { v with gc := gc } := by
  have hcur := cursor_setGc hlk hlk'
  refine ⟨h.contents, h.empty, h.noted, Or.inr hm, ?_, ?_⟩
  · rw [hcur]
    exact h.watermk_le
  · rw [hcur]
    exact h.settled

/-! ### What is kept -/

/-- The position `w` is an entry boundary, and an entry before it satisfies `S` or is pending. -/
def Kept (S : ReqID → Prop) (s : State) (w : ℕ) : Prop :=
  ∃ k ≤ s.slots.length, w = pos entrySize s.entries k ∧
    ∀ (i : ℕ) (t : Slot), i < k → s.slots[i]? = some t →
      S t.e.reqId ∨ t.written ∈ s.log.pendingEntries

/-- **The invariant of a backup** whose calls have written their entries. -/
structure Inv (c : Config) (S : ReqID → Prop) (v : Backup) : Prop extends Sound c v where
  finished : ∀ t ∈ v.server.slots, t.Finished
  kept : Kept S v.server v.cursor

theorem Inv.start (c : Config) (S : ReqID → Prop) : Inv c S ⟨⟨.zeroed, []⟩, .idle⟩ := by
  refine ⟨.start c, ?_, 0, Nat.le_refl _, rfl, fun i t hi => absurd hi (Nat.not_lt_zero i)⟩
  intro t ht
  simp at ht

theorem Kept.mono {s : State} {w : ℕ} (h : Kept S s w) (hS : ∀ rid, S rid → S' rid) : Kept S' s w := by
  obtain ⟨k, hk, hw, hkept⟩ := h
  exact ⟨k, hk, hw, fun i t hi ht => (hkept i t hi ht).imp (hS _) id⟩

theorem Inv.mono (h : Inv c S v) (hS : ∀ rid, S rid → S' rid) : Inv c S' v :=
  ⟨h.toSound, h.finished, h.kept.mono hS⟩

theorem Kept.settled {s : State} {w : ℕ} (h : Kept S s w) (hf : ∀ t ∈ s.slots, t.Finished) : Settled c s w := by
  obtain ⟨k, hk, hw, -⟩ := h
  exact ⟨k, hk, hw, fun i t _ ht => Or.inl (hf t (List.mem_of_getElem? ht))⟩

theorem Kept.before {s : State} {w k : ℕ} {t : Slot} (h : Kept S s w) (hT : Tiled s) (ht : s.slots[k]? = some t)
    (hw : t.seq = w) {i : ℕ} {u : Slot} (hi : i < k) (hu : s.slots[i]? = some u) :
    S u.e.reqId ∨ u.written ∈ s.log.pendingEntries := by
  obtain ⟨k', hk', rfl, hkept⟩ := h
  refine hkept i u (hi.trans_le ?_) hu
  by_contra hlt
  have hk : k ≤ s.entries.length := by simpa [State.entries] using (List.getElem?_eq_some_iff.mp ht).1.le
  have hpos := pos_strictMono (f := entrySize) (fun e _ => entrySize_pos e) hk (not_le.mp hlt)
  rw [← hT.seq ht, hw] at hpos
  exact absurd hpos (lt_irrefl _)

theorem Inv.holds (h : Inv c S v) {i : ℕ} {t : Slot} (ht : v.server.slots[i]? = some t)
    (hw : v.server.log.orderedWatermk ≤ t.seq) :
    Holds v.server.log.mem (t.seq % c.rgSize) (encode t.written) :=
  h.contents.holds_of_flagged ht hw (Or.inr (h.finished t (List.mem_of_getElem? ht)))

/-- **An entry is held** by the backup: it lies in the ring, or is pending. -/
def Held (c : Config) (v : Backup) (t : Slot) : Prop :=
  (v.server.log.orderedWatermk ≤ t.seq ∧ t.seq + entrySize t.e ≤ v.server.log.sequencer ∧
    Holds v.server.log.mem (t.seq % c.rgSize) (encode t.written)) ∨
  t.written ∈ v.server.log.pendingEntries

theorem Inv.held (h : Inv c S v) {t : Slot} (ht : t ∈ v.server.slots) (hS : ¬ S t.e.reqId) : Held c v t := by
  obtain ⟨i, hi⟩ := List.mem_iff_getElem?.mp ht
  obtain ⟨k, -, hcur, hkept⟩ := h.kept
  rcases Nat.lt_or_ge i k with hik | hik
  · exact Or.inr ((hkept i t hik hi).resolve_left hS)
  · have hseq : v.server.log.orderedWatermk ≤ t.seq := by
      rw [h.contents.tiled.seq hi]
      exact h.watermk_le.trans (hcur ▸ pos_mono hik)
    exact Or.inl ⟨hseq, h.contents.tiled.end_le_sequencer hi, h.holds hi hseq⟩

/-- `AppendEntry`, as far as the region is concerned. -/
theorem Inv.append (h : Inv c S v) (he : CanAppend c v.server e) :
    Inv c S { v with server := appendMem c v.server e } := by
  have hroom := he.room h.contents
  have hrun := appendMem_run c v.server he.admissible he.flags (by omega)
  obtain ⟨h1, h2, -, h3, h4⟩ := appendMem_counters c v.server e
  have hcur := cursor_appendMem c v e
  have hfin : ∀ t ∈ (appendMem c v.server e).slots, t.Finished := by
    intro t ht
    rcases List.mem_append.mp ht with ht | ht
    · exact h.finished t ht
    · rw [List.mem_singleton.mp ht]
      exact Or.inl rfl
  have hkept : Kept S (appendMem c v.server e) v.cursor := by
    obtain ⟨k, hk, hw, hkept⟩ := h.kept
    refine ⟨k, ?_, ?_, fun i t hi ht => ?_⟩
    · exact hk.trans (by simp [appendMem])
    · rw [entries_appendMem, pos_append_of_le (by simpa [State.entries] using hk)]
      exact hw
    · rw [h4]
      refine hkept i t hi ?_
      rw [← ht]
      exact (List.getElem?_append_left (by omega)).symm
  refine ⟨⟨h.contents.calls hrun, ?_, ?_, ?_, ?_, hcur ▸ hkept.settled hfin⟩, hfin, hcur ▸ hkept⟩
  · intro hnil
    exact absurd (List.append_eq_nil_iff.mp hnil).2 (List.cons_ne_nil _ _)
  · intro rid q hq
    rw [h3] at hq
    have := h.noted rid q hq
    rw [h1]
    omega
  · have := h.maxSeq
    rw [h1]
    show v.gc.maxSeq < _ ∨ v.gc.maxSeq = 0
    omega
  · rw [hcur, h2]
    exact h.watermk_le

/-! ### Collection -/

/-- The loop over the ring waits for a flag only while nothing has been appended. -/
theorem Inv.nil_of_blocked (h : Inv c S v) {maxSeq nDel s : ℕ} (hpc : v.gc = .scanning ids maxSeq nDel s)
    (hs : s ≤ maxSeq) (hf : getFlagFromBuf v.server.log.mem (s % c.rgSize) ≠ 1) :
    v.server.slots = [] ∧ s = 0 := by
  refine (h.current_or_nil hpc hs).resolve_left ?_
  rintro ⟨k, t, ht, rfl, hw, -⟩
  exact hf (getFlagFromBuf_of_holds (h.holds ht hw).left)

theorem Inv.insertReqid (h : Inv c S v) {i : ℕ} {t : Slot} (ht : v.server.slots[i]? = some t)
    (hst : t.stage = .copied) :
    Inv c S { v with server := v.server.put i t .returned (insertReqid c v.server.log t.e t.seq) } := by
  have hpend : (Flat.insertReqid c v.server.log t.e t.seq).pendingEntries = v.server.log.pendingEntries := by
    unfold Flat.insertReqid
    split_ifs <;> rfl
  refine ⟨h.toSound.insertReqid ht hst, ?_, ?_⟩
  · intro u hu
    obtain ⟨j, hj⟩ := List.mem_iff_getElem?.mp hu
    rcases slots_put_cases ht hj with ⟨-, rfl⟩ | ⟨-, hj⟩
    · exact Or.inr rfl
    · exact h.finished u (List.mem_of_getElem? hj)
  · rw [cursor_insertReqid c v i t]
    obtain ⟨k, hk, hw, hkept⟩ := h.kept
    refine ⟨k, by simpa [State.put] using hk, by rw [entries_put ht]; exact hw, fun j u hj hu => ?_⟩
    simp only [State.put, hpend]
    rcases slots_put_cases ht hu with ⟨rfl, rfl⟩ | ⟨-, hu⟩
    · exact hkept j t hj ht
    · exact hkept j u hj hu

theorem Inv.note (h : Inv c S v) (hpc : v.gc = .requested ids) :
    Inv c S
      { server := { v.server with log := (noteMaxSeq ids v.server.log).1 }
        gc := .noted ids (noteMaxSeq ids v.server.log).2 } := by
  obtain ⟨m, hm⟩ := noteMaxSeq_log ids v.server.log
  have hkept := h.kept
  have hsound := h.toSound.note hpc
  rw [cursor_of_not_locked (by rw [hpc]; exact id)] at hkept
  rw [hm] at hsound ⊢
  exact ⟨hsound, h.finished, hkept⟩

theorem Inv.pending (h : Inv c S v) {maxSeq : ℕ} (hpc : v.gc = .noted ids maxSeq)
    (hS : ∀ rid, Tests c v ids rid → rid.2 ≤ cliIdMaxSeqMap ids rid.1 → S rid) :
    Inv c S
      { server := { v.server with log := (delPending ids v.server.log).1 }
        gc := .scanning ids maxSeq (delPending ids v.server.log).2 v.server.log.orderedWatermk } := by
  have hkept := h.kept
  rw [cursor_of_not_locked (by rw [hpc]; exact id)] at hkept
  obtain ⟨k, hk, hw, hkept⟩ := hkept
  refine ⟨h.toSound.pending hpc, h.finished, k, hk, hw, fun i t hi ht => ?_⟩
  rcases hkept i t hi ht with hst | hmem
  · exact Or.inl hst
  · by_cases hlt : cliIdMaxSeqMap ids t.e.clientId < t.e.clientSeq
    · exact Or.inr (List.mem_filter.mpr ⟨hmem, decide_eq_true hlt⟩)
    · have htest : Tests c v ids t.written.reqId := .pending hpc hmem
      exact Or.inl (hS _ htest (UInt64.not_lt.mp hlt))

theorem Inv.round (h : Inv c S v) {maxSeq nDel s : ℕ} (hpc : v.gc = .scanning ids maxSeq nDel s)
    (hs : s ≤ maxSeq) (hf : getFlagFromBuf v.server.log.mem (s % c.rgSize) = 1)
    (hS : ∀ rid, Tests c v ids rid → rid.2 ≤ cliIdMaxSeqMap ids rid.1 → S rid) :
    Inv c S
      { server := { v.server with log := (delRound c ids v.server.log nDel s).1 }
        gc := .scanning ids maxSeq (delRound c ids v.server.log nDel s).2.1
          (delRound c ids v.server.log nDel s).2.2 } := by
  have hsound := h.toSound.round hpc hs hf fun t ht _ => Or.inl (h.finished t ht)
  obtain ⟨k, t, ht, hseq, hh, -⟩ := h.current hpc hs hf
  have heq := delRound_eq ids nDel (h.contents.tiled.admissible ht) hh
  have hkept := h.kept
  rw [cursor_of_scanning hpc] at hkept
  rw [heq] at hsound ⊢
  have hlt := (List.getElem?_eq_some_iff.mp ht).1
  have hpos : pos entrySize v.server.entries (k + 1) = s + entrySize t.e := by
    rw [pos_succ (getElem?_entries ht), ← h.contents.tiled.seq ht, hseq]
  refine ⟨hsound, h.finished, k + 1, hlt, hpos.symm, fun i u hi hu => ?_⟩
  simp only
  have hgrow : ∀ x ∈ v.server.log.pendingEntries, x ∈ if Above ids t.written
      then v.server.log.pendingEntries ++ [t.written] else v.server.log.pendingEntries := by
    intro x hx
    split_ifs
    · exact List.mem_append_left _ hx
    · exact hx
  rcases Nat.lt_succ_iff_lt_or_eq.mp hi with hik | rfl
  · exact (hkept.before h.contents.tiled ht hseq hik hu).imp id (hgrow _)
  · -- the entry of this round
    obtain rfl : t = u := Option.some.inj (ht.symm.trans hu)
    by_cases hlt : Above ids t.written
    · rw [if_pos hlt]
      exact Or.inr (List.mem_append_right _ (List.mem_singleton.mpr rfl))
    · have htest := Tests.ring hpc hs hf
      rw [(getReqId_of_holds hh.left).1, (getReqId_of_holds hh.left).2] at htest
      exact Or.inl (hS _ htest (UInt64.not_lt.mp hlt))

theorem Inv.finish (h : Inv c S v) {maxSeq nDel s : ℕ} (hpc : v.gc = .scanning ids maxSeq nDel s) :
    Inv c S
      { server := v.server.setWatermk s v.server.log.orderedIdxWatermk
        gc := .replied nDel } := by
  have hkept := h.kept
  rw [cursor_of_scanning hpc] at hkept
  exact ⟨h.toSound.finish hpc, h.finished, hkept⟩

theorem Inv.setGc (h : Inv c S v) (gc : GcPc) (hlk : ¬ v.gc.Locked) (hlk' : ¬ gc.Locked)
    (hm : gc.maxSeq = 0) : Inv c S { v with gc := gc } := by
  have hcur := cursor_setGc hlk hlk'
  exact ⟨h.toSound.setGc gc hlk hlk' hm, h.finished, hcur ▸ h.kept⟩

/-- **One step of a backup** keeps the invariant, if what it deletes satisfies `S`. -/
theorem Inv.step (h : Inv c S v) (hs : Step c v v')
    (hS : ∀ ids rid, Tests c v ids rid → rid.2 ≤ cliIdMaxSeqMap ids rid.1 → S rid) : Inv c S v' := by
  cases hs with
  | insertReqid ht hst hlk => exact h.insertReqid ht hst
  | note hpc => exact h.note hpc
  | pending hpc => exact h.pending hpc (hS _)
  | round hpc hle hf => exact h.round hpc hle hf (hS _)
  | finish hpc hlt => exact h.finish hpc

theorem Step.ids_cases (hs : Step c v v') : v'.gc.ids = v.gc.ids ∨ ∃ nDel, v'.gc = .replied nDel := by
  cases hs with
  | insertReqid ht hst hlk => exact Or.inl rfl
  | note hpc | pending hpc | round hpc hle hf => exact Or.inl (by simp only [GcPc.ids, hpc])
  | finish hpc hlt => exact Or.inr ⟨_, rfl⟩

theorem Step.idle (hs : Step c v v') (hpc : v.gc = .idle) : v'.gc = .idle := by
  cases hs with
  | insertReqid ht hst hlk => exact hpc
  | note hpc' | pending hpc' | round hpc' hle hf | finish hpc' hlt =>
    rw [hpc] at hpc'
    cases hpc'

theorem Tests.ids_eq {rid : ReqID} (h : Tests c v ids rid) : v.gc.ids = ids := by
  cases h with
  | pending hpc he => rw [hpc]; rfl
  | ring hpc hs hf => rw [hpc]; rfl

/-! ### A whole call of `AppendEntry` -/

theorem put_appendMem (c : Config) (s : State) (e : LogEntry) :
    (appendMem c s e).put s.slots.length ⟨stamp c s.log.indexer e, s.log.sequencer, s.log.indexer, .copied⟩
      .returned (insertReqid c (appendMem c s e).log (stamp c s.log.indexer e) s.log.sequencer) =
    append c s e := by
  unfold appendMem append appendEntry
  exact put_last rfl

/-- The region first, and then the request id. -/
theorem step_append_returned (hlk : ¬ v.gc.Locked) (e : LogEntry) :
    Step c { v with server := appendMem c v.server e } { v with server := append c v.server e } := by
  have hstep := Step.insertReqid (c := c) (v := { v with server := appendMem c v.server e })
    (getElem?_last (t := ⟨stamp c v.server.log.indexer e, v.server.log.sequencer, v.server.log.indexer,
      .copied⟩)) rfl hlk
  rw [put_appendMem] at hstep
  exact hstep

theorem Inv.append_returned (h : Inv c S v) (he : CanAppend c v.server e) :
    Inv c S { v with server := Ring.append c v.server e } := by
  have hins := (h.append he).insertReqid
    (getElem?_last (t := ⟨stamp c v.server.log.indexer e, v.server.log.sequencer, v.server.log.indexer,
      .copied⟩)) rfl
  rwa [put_appendMem] at hins

theorem append_pendingEntries (c : Config) (s : State) (e : LogEntry) :
    (append c s e).log.pendingEntries = s.log.pendingEntries := by
  unfold append appendEntry insertReqid copyOverflow
  simp only
  split_ifs <;> rfl

theorem append_reqidToSeqMap (c : Config) (s : State) (e : LogEntry) :
    (append c s e).log.reqidToSeqMap = if c.isPrimary then s.log.reqidToSeqMap
      else Function.update s.log.reqidToSeqMap e.reqId (some s.log.sequencer) := by
  unfold append appendEntry insertReqid copyOverflow
  simp only
  split_ifs <;> rfl

/-! ### A whole collection -/

/-- A step of a collection with the requests `ids` that compares nothing but requests in `T`. -/
def StepOn (c : Config) (ids : List ReqID) (T : ReqID → Prop) (v v' : Backup) : Prop :=
  Step c v v' ∧ ∀ ids' rid, Tests c v ids' rid → ids' = ids ∧ T rid

theorem scan_run {maxSeq : ℕ} {T : ReqID → Prop} : ∀ (m : ℕ) {v : Backup} {k nDel : ℕ}, Inv c S v →
    (∀ rid, S rid) → v.gc = .scanning ids maxSeq nDel (pos entrySize v.server.entries k) →
    k + m ≤ v.server.slots.length → (∀ i < m, pos entrySize v.server.entries (k + i) ≤ maxSeq) →
    (∀ i t, k ≤ i → i < k + m → v.server.slots[i]? = some t → T t.e.reqId) →
    ∃ v' nDel', Relation.ReflTransGen (StepOn c ids T) v v' ∧
      v'.gc = .scanning ids maxSeq nDel' (pos entrySize v.server.entries (k + m)) ∧
      v'.server.slots = v.server.slots ∧
      v'.server.log.pendingEntries = v.server.log.pendingEntries ++
        ((((v.server.slots.drop k).take m).map Slot.written).filter fun e => Above ids e)
  | 0, v, k, nDel, _, _, hgc, _, _, _ => ⟨v, nDel, .refl, hgc, rfl, by simp⟩
  | m + 1, v, k, nDel, h, hS, hgc, hk, hle, hT => by
    have hlt : k < v.server.slots.length := by omega
    obtain ⟨t, ht, hcons⟩ : ∃ t, v.server.slots[k]? = some t ∧
        v.server.slots.drop k = t :: v.server.slots.drop (k + 1) :=
      ⟨_, List.getElem?_eq_getElem hlt, List.drop_eq_getElem_cons hlt⟩
    have hseq := h.contents.tiled.seq ht
    have hw := h.watermk_le
    rw [cursor_of_scanning hgc] at hw
    have hh := h.holds ht (hseq ▸ hw)
    rw [hseq] at hh
    have hflag := getFlagFromBuf_of_holds hh.left
    obtain ⟨hid, hnum⟩ := getReqId_of_holds hh.left
    have heq := delRound_eq ids nDel (h.contents.tiled.admissible ht) hh
    -- the round compares the entry at the cursor
    have htests : ∀ ids' rid, Tests c v ids' rid → ids' = ids ∧ T rid := by
      intro ids' rid hts
      cases hts with
      | pending hpc he =>
        rw [hgc] at hpc
        cases hpc
      | ring hpc hs hf =>
        rw [hgc] at hpc
        cases hpc
        rw [hid, hnum]
        exact ⟨rfl, hT k t (Nat.le_refl _) (by omega) ht⟩
    have hround := Step.round (c := c) hgc (hle 0 (by omega)) hflag
    have hinv := h.round hgc (hle 0 (by omega)) hflag fun rid _ _ => hS rid
    rw [heq] at hround hinv
    have hpos := pos_succ (f := entrySize) (getElem?_entries ht)
    obtain ⟨v', nDel', hrun, hgc', hsl, hpend⟩ := scan_run m hinv hS (k := k + 1)
      (show GcPc.scanning _ _ _ _ = GcPc.scanning _ _ _ _ from congrArg _ hpos.symm)
      (show k + 1 + m ≤ v.server.slots.length by omega)
      (fun i hi => by
        have := hle (i + 1) (by omega)
        rwa [show k + (i + 1) = k + 1 + i by omega] at this)
      fun i t hi hi' ht => hT i t (by omega) (by omega) ht
    refine ⟨v', nDel', .head ⟨hround, htests⟩ hrun, ?_, hsl, ?_⟩
    · rw [show k + (m + 1) = k + 1 + m by omega]
      exact hgc'
    · rw [hpend, hcons, List.take_succ_cons, List.map_cons]
      simp only
      by_cases habove : Above ids t.written
      · rw [if_pos habove, List.filter_cons_of_pos (by simpa using habove), List.append_assoc]
        rfl
      · rw [if_neg habove, List.filter_cons_of_neg (by simpa using habove)]

/-- **A collection runs to its end**, which is behind the last entry named: what it has gone through is pending
afterwards if its number is above the one named for its client, and gone otherwise. -/
theorem collect_run {T : ReqID → Prop} (h : Inv c S v) (hS : ∀ rid, S rid) (hgc : v.gc = .requested ids)
    {k j : ℕ} {t : Slot} (hw : v.server.log.orderedWatermk = pos entrySize v.server.entries k) (hkj : k ≤ j)
    (ht : v.server.slots[j]? = some t) (hmax : (noteMaxSeq ids v.server.log).2 = t.seq)
    (hT : ∀ e ∈ v.server.log.pendingEntries, T e.reqId)
    (hT' : ∀ i t, k ≤ i → i ≤ j → v.server.slots[i]? = some t → T t.e.reqId) :
    ∃ v' nDel, Relation.ReflTransGen (StepOn c ids T) v v' ∧ v'.gc = .replied nDel ∧
      v'.server.slots = v.server.slots ∧
      v'.server.log.orderedWatermk = pos entrySize v.server.entries (j + 1) ∧
      v'.server.log.pendingEntries = (v.server.log.pendingEntries.filter fun e => Above ids e) ++
        ((((v.server.slots.drop k).take (j + 1 - k)).map Slot.written).filter fun e => Above ids e) := by
  obtain ⟨m, hm⟩ := noteMaxSeq_log ids v.server.log
  have hnote := Step.note (c := c) hgc
  have hinv := h.note hgc
  rw [hm, hmax] at hnote hinv
  have hpend := Step.pending (c := c)
    (v := ⟨{ v.server with log := { v.server.log with reqidToSeqMap := m } }, .noted ids t.seq⟩) rfl
  have hinv' := hinv.pending rfl fun rid _ _ => hS rid
  have hlt := (List.getElem?_eq_some_iff.mp ht).1
  have hseq := h.contents.tiled.seq ht
  obtain ⟨v', nDel, hrun, hgc', hsl, hp⟩ := scan_run (T := T) (j + 1 - k) hinv' hS (k := k)
    (show GcPc.scanning _ _ _ _ = GcPc.scanning _ _ _ _ from congrArg _ hw)
    (show k + (j + 1 - k) ≤ v.server.slots.length by omega)
    (fun i hi => by
      rw [hseq]
      exact pos_mono (by omega))
    fun i t hi hi' ht => hT' i t hi (by omega) ht
  have hpos := pos_succ (f := entrySize) (getElem?_entries ht)
  have hsz := entrySize_pos t.e
  rw [show k + (j + 1 - k) = j + 1 by omega] at hgc'
  have hend : t.seq < pos entrySize v.server.entries (j + 1) := by omega
  refine ⟨_, nDel, ((hrun.head ⟨hpend, ?_⟩).head ⟨hnote, ?_⟩).tail ⟨.finish hgc' hend, ?_⟩, rfl, hsl, rfl, hp⟩
  · rintro ids' rid (⟨hpc, -⟩ | ⟨hpc, hs, -⟩)
    · rw [hgc'] at hpc
      cases hpc
    · rw [hgc'] at hpc
      cases hpc
      exact absurd hs (Nat.not_le.mpr hend)
  · rintro ids' rid (⟨hpc, he⟩ | ⟨hpc, -, -⟩)
    · cases hpc
      exact ⟨rfl, hT _ he⟩
    · cases hpc
  · rintro ids' rid (⟨hpc, -⟩ | ⟨hpc, -, -⟩)
    · rw [hgc] at hpc
      cases hpc
    · rw [hgc] at hpc
      cases hpc

end LazyLog.DurLog.DelEntries
