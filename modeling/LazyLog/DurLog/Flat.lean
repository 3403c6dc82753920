import LazyLog.Lib.Run
import LazyLog.Lib.Circular
import LazyLog.Lib.Tiling
import LazyLog.Rpc.Multi

/-! # The durability log on a flat memory region (`dur_log/dur_log_flat`)

One server of the sequencing layer. Its entries lie in a ring of `rgSize` bytes that is followed by a
safe region; byte `x` of the log is at the offset `x % rgSize`, and an entry is written contiguously from
its offset on, its overflow then being copied to the start of the ring. Sequence numbers and indices are
natural numbers: the 64-bit counters of the source do not reach their limit here.

`AppendEntry` runs on many threads. Its steps, in source order, are functions of the log (`reserve` under
`idx_lk_`, `serialise`, `raiseFlag`, `copyOverflow`, `insertReqid` under `lk_`); a `Slot` is one call that
has reserved its range, and `AppendStep` interleaves the calls. -/

namespace LazyLog.DurLog.Flat

open LazyLog.Lib.Bytes LazyLog.Lib.Circular LazyLog.Lib.Tiling LazyLog.Lib.Run
open LazyLog.Rpc.Entry LazyLog.Rpc.Multi

/-! ### Constants and configuration -/

/-- `PAGE_SIZE`. -/
def pageSize : ℕ := 4096

/-- `SAFE_RG_SIZE`. -/
def safeRgSize : ℕ := 2 * pageSize

/-- `dur_log.msg_size`, as configured: a request holds one serialised entry. -/
def msgSize : ℕ := 8196

/-- `min_entry_size`. -/
def minEntrySize : ℕ := metaDataSize

/-- What `Initialize` fixes. The size of the region is computed as an `int` from `dur_log.mr_size_m`,
so there are less than 2048 MiB. -/
structure Config where
  mrSizeM : ℕ
  mrSizeM_pos : 0 < mrSizeM
  mrSizeM_lt : mrSizeM < 2048
  isPrimary : Bool
  wait : Bool
  view : UInt16

/-- `rg_size_`. -/
def Config.rgSize (c : Config) : ℕ := c.mrSizeM * 1024 * 1024

/-- `idx_map_elem_cnt_`. -/
def Config.idxMapElemCnt (c : Config) : ℕ := c.rgSize / minEntrySize

theorem Config.le_rgSize (c : Config) : 2 ^ 20 ≤ c.rgSize := by
  have := c.mrSizeM_pos; unfold Config.rgSize; omega

theorem Config.rgSize_lt (c : Config) : c.rgSize < 2 ^ 31 := by
  have := c.mrSizeM_lt; unfold Config.rgSize; omega

theorem Config.rgSize_pos (c : Config) : 0 < c.rgSize := lt_of_lt_of_le (by decide) c.le_rgSize

/-- The primary with the smallest region. -/
def Config.smallPrimary : Config := ⟨1, by decide, by decide, true, true, 0⟩

/-- An entry a server can be sent: the serialised entry fits a request. -/
structure Admissible (e : LogEntry) : Prop where
  sized : e.Sized
  fits : entrySize e ≤ msgSize

theorem default_admissible : Admissible default := ⟨rfl, by decide⟩

theorem Admissible.length_le {e : LogEntry} (h : Admissible e) : e.data.length + 32 ≤ msgSize := by
  have h1 := h.fits
  have h2 := le_align4 e.data.length
  unfold entrySize metaDataSize flagPos at h1
  omega

theorem Admissible.getSize_eq {e : LogEntry} (h : Admissible e) : getSize e = entrySize e := by
  have := h.length_le
  exact LazyLog.Rpc.Entry.getSize_eq h.sized (by unfold msgSize at this; omega)

/-! ### The log -/

/-- The members of `DurabilityLogFlat` that its functions read and write. -/
structure FlatLog where
  mem : Mem
  sequencer : ℕ
  indexer : ℕ
  orderedWatermk : ℕ
  orderedIdxWatermk : ℕ
  idxToSeq : ℕ → ℕ
  reqidToSeqMap : ReqID → Option ℕ
  pendingEntries : List LogEntry

/-- After `Initialize`: the counters are zero, the memory holds anything. -/
structure FlatLog.Fresh (l : FlatLog) : Prop where
  sequencer : l.sequencer = 0
  indexer : l.indexer = 0
  orderedWatermk : l.orderedWatermk = 0
  orderedIdxWatermk : l.orderedIdxWatermk = 0
  reqidToSeqMap : l.reqidToSeqMap = fun _ => none
  pendingEntries : l.pendingEntries = []

/-- The log on a region of zeros, as the mapping delivers it. -/
def FlatLog.zeroed : FlatLog := ⟨fun _ => 0, 0, 0, 0, 0, fun _ => 0, fun _ => none, []⟩

theorem FlatLog.zeroed_fresh : FlatLog.zeroed.Fresh := ⟨rfl, rfl, rfl, rfl, rfl, rfl⟩

/-! ### Waiting for space -/

/-- Unsigned subtraction on 64 bits. -/
def sub64 (a b : ℕ) : ℕ := (a + 2 ^ 64 - b) % 2 ^ 64

/-- The condition under which `waitForPlace` goes on waiting. -/
def mustWait (rgSize sequencer orderedWatermk size : ℕ) : Bool :=
  sub64 rgSize (pageSize <<< 6) ≤ sub64 ((sequencer + size) % 2 ^ 64) orderedWatermk

/-- `waitForPlace` returns. -/
def waitForPlaceExits (wait : Bool) (rgSize sequencer orderedWatermk size : ℕ) : Bool :=
  !wait || !mustWait rgSize sequencer orderedWatermk size

/-! ### The steps of `AppendEntry` -/

/-- The critical section of `idx_lk_`: the flag of the new entry is cleared, the entry gets its sequence
number and index, and the counters advance. -/
def reserve (c : Config) (l : FlatLog) (e : LogEntry) : FlatLog :=
  { l with
    mem := setFlag l.mem (l.sequencer % c.rgSize) 0
    idxToSeq :=
      if c.isPrimary then Function.update l.idxToSeq (l.indexer % c.idxMapElemCnt) l.sequencer
      else l.idxToSeq
    indexer := l.indexer + 1
    sequencer := l.sequencer + getSize e }

/-- `e.log_idx = idx; e.view = view_`. -/
def stamp (c : Config) (idx : ℕ) (e : LogEntry) : LogEntry :=
  { e with logIdx := UInt64.ofNat idx, view := c.view }

/-- `Serializer(e, mem_rg_raw_ + offset)`. -/
def serialise (c : Config) (l : FlatLog) (e : LogEntry) (seq : ℕ) : FlatLog :=
  { l with mem := (serializer e l.mem (seq % c.rgSize)).1 }

/-- `SetFlag(mem_rg_raw_ + offset, 1)`. -/
def raiseFlag (c : Config) (l : FlatLog) (seq : ℕ) : FlatLog :=
  { l with mem := setFlag l.mem (seq % c.rgSize) 1 }

/-- The overflowed data is moved to the beginning; `ety_size` is what `Serializer` returned. -/
def copyOverflow (c : Config) (l : FlatLog) (e : LogEntry) (seq : ℕ) : FlatLog :=
  let offset := seq % c.rgSize
  let etySize := (serializer e l.mem offset).2
  if offset + etySize > c.rgSize then
    { l with mem := blit l.mem 0 l.mem c.rgSize (offset + etySize - c.rgSize) }
  else l

/-- The request id is noted, on a backup only. -/
def insertReqid (c : Config) (l : FlatLog) (e : LogEntry) (seq : ℕ) : FlatLog :=
  if c.isPrimary then l
  else { l with reqidToSeqMap := Function.update l.reqidToSeqMap e.reqId (some seq) }

/-- `AppendEntry` in one go, after `waitForPlace`: the log after it and the sequence number returned. -/
def appendEntry (c : Config) (l : FlatLog) (e : LogEntry) : FlatLog × ℕ :=
  let seq := l.sequencer
  let e' := stamp c l.indexer e
  let l := reserve c l e
  let l := serialise c l e' seq
  let l := raiseFlag c l seq
  let l := copyOverflow c l e' seq
  (insertReqid c l e' seq, seq)

/-! ### Interleaved calls -/

/-- How far a call has come. -/
inductive Stage
  | reserved
  | serialised
  | flagged
  | copied
  | returned
  deriving DecidableEq, Repr

/-- A call of `AppendEntry` that has reserved its range: its local variables and its progress. -/
structure Slot where
  e : LogEntry
  seq : ℕ
  idx : ℕ
  stage : Stage

/-- A server and the calls of `AppendEntry` on it, in the order of their reservations. -/
structure State where
  log : FlatLog
  slots : List Slot

/-- The entries in the order of their reservations, as stamped by the server. -/
def State.entries (s : State) : List LogEntry := s.slots.map Slot.e

/-- Call `i`, in the state `t`, takes a step to the stage `st` that leaves the log `l`. -/
def State.put (s : State) (i : ℕ) (t : Slot) (st : Stage) (l : FlatLog) : State :=
  { log := l, slots := s.slots.set i { t with stage := st } }

/-- A new call reserves its range. -/
def State.reserve (c : Config) (s : State) (e : LogEntry) : State :=
  { log := Flat.reserve c s.log e
    slots := s.slots ++ [⟨stamp c s.log.indexer e, s.log.sequencer, s.log.indexer, .reserved⟩] }

/-- A step of the call `i` of `AppendEntry`. -/
inductive AppendStep (c : Config) : ℕ → State → State → Prop
  | reserve {s : State} (e : LogEntry) (he : Admissible e) :
    AppendStep c s.slots.length s (s.reserve c e)
  | serialise {s : State} {i : ℕ} {t : Slot} (ht : s.slots[i]? = some t) (hs : t.stage = .reserved) :
    AppendStep c i s (s.put i t .serialised (serialise c s.log t.e t.seq))
  | raiseFlag {s : State} {i : ℕ} {t : Slot} (ht : s.slots[i]? = some t)
    (hs : t.stage = .serialised) :
    AppendStep c i s (s.put i t .flagged (raiseFlag c s.log t.seq))
  | copyOverflow {s : State} {i : ℕ} {t : Slot} (ht : s.slots[i]? = some t)
    (hs : t.stage = .flagged) :
    AppendStep c i s (s.put i t .copied (copyOverflow c s.log t.e t.seq))
  | insertReqid {s : State} {i : ℕ} {t : Slot} (ht : s.slots[i]? = some t) (hs : t.stage = .copied) :
    AppendStep c i s (s.put i t .returned (insertReqid c s.log t.e t.seq))

/-- The watermarks are set from outside, by the consensus log or by a collection. -/
def State.setWatermk (s : State) (w wi : ℕ) : State :=
  { s with log := { s.log with orderedWatermk := w, orderedIdxWatermk := wi } }

/-- Calls of `AppendEntry` interleaved in any order with any writes of the watermarks. -/
inductive Step (c : Config) : State → State → Prop
  | append {s s' : State} {i : ℕ} (h : AppendStep c i s s') : Step c s s'
  | setWatermk {s : State} (w wi : ℕ) : Step c s (s.setWatermk w wi)

/-- A server that has just been started. -/
def Init (s : State) : Prop := s.log.Fresh ∧ s.slots = []

/-! ### Progress of an entry -/

/-- The call has written all it writes to the region. -/
def Slot.Finished (t : Slot) : Prop := t.stage = .copied ∨ t.stage = .returned

/-- The call has raised the flag of its entry. -/
def Slot.Flagged (t : Slot) : Prop := t.stage = .flagged ∨ t.Finished

instance (t : Slot) : Decidable t.Flagged := inferInstanceAs (Decidable (_ ∨ _ ∨ _))

/-- The entry crosses the end of the ring. -/
def Slot.Straddles (c : Config) (t : Slot) : Prop := c.rgSize < t.seq % c.rgSize + entrySize t.e

/-- The region holds the entry in both views: the flag is raised, and there is no overflow left to copy. -/
def Slot.Complete (c : Config) (t : Slot) : Prop :=
  t.Finished ∨ t.stage = .flagged ∧ ¬ t.Straddles c

instance (c : Config) (t : Slot) : Decidable (t.Straddles c) := inferInstanceAs (Decidable (_ < _))

instance (c : Config) (t : Slot) : Decidable (t.Complete c) :=
  inferInstanceAs (Decidable ((_ ∨ _) ∨ _ ∧ ¬ _))

/-- An entry once its flag is raised. -/
@[simps] def raised (e : LogEntry) : LogEntry := { e with flags := 1 }

/-- The entry as it stands in the region once its flag is raised. -/
def Slot.written (t : Slot) : LogEntry := raised t.e

end LazyLog.DurLog.Flat
