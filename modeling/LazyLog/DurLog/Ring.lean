import LazyLog.DurLog.Ranges
import LazyLog.DurLog.Space

/-! # What the ring holds

`RingStep` is a server at work: calls of `AppendEntry` interleaved at will, an entry being reserved only
while the entries in use stay below the size of the ring, and the watermark moving to the end of complete
entries. Then every entry at or above the watermark stands in the region as far as its call has come
(`Shows`), and `Contents` is the invariant.

A reader that follows the ring from an entry boundary therefore finds the entries of the log one after the
other, up to the first one that is not complete (`Contents.holdsAll_run`). -/

namespace LazyLog.DurLog.Ring

open LazyLog.Lib.Bytes LazyLog.Lib.Circular LazyLog.Lib.Tiling LazyLog.Lib.Run
open LazyLog.Rpc.Entry LazyLog.Rpc.Multi LazyLog.DurLog.Flat LazyLog.DurLog.Ranges

variable {c : Config} {s s' : State} {i : ℕ}

/-! ### The server at work -/

/-- Calls of `AppendEntry`, at any pace. The handler clears the flags of an entry before it calls
`AppendEntry`. -/
inductive CallStep (c : Config) : State → State → Prop
  | reserve {s : State} (e : LogEntry) (he : Admissible e) (hf : e.flags = 0)
    (hocc : s.log.sequencer + getSize e < s.log.orderedWatermk + c.rgSize) :
    CallStep c s (s.reserve c e)
  | proceed {s s' : State} {i : ℕ} (h : AppendStep c i s s') (hi : i < s.slots.length) :
    CallStep c s s'

/-- The position `w` is an entry boundary, and the entries before it are complete. -/
def Settled (c : Config) (s : State) (w : ℕ) : Prop :=
  ∃ k ≤ s.slots.length, w = pos entrySize s.entries k ∧
    ∀ (i : ℕ) (t : Slot), i < k → s.slots[i]? = some t → t.Complete c

/-- Calls of `AppendEntry` and moves of the watermark. -/
inductive RingStep (c : Config) : State → State → Prop
  | call {s s' : State} (h : CallStep c s s') : RingStep c s s'
  | advance {s : State} (w wi : ℕ) (hle : s.log.orderedWatermk ≤ w) (hw : Settled c s w) :
    RingStep c s (s.setWatermk w wi)

/-- The call of `AppendEntry` for this entry gets past `waitForPlace`. Sequence numbers stay below
`2 ^ 64`. -/
structure CanAppend (c : Config) (p : State) (e : LogEntry) : Prop where
  admissible : Admissible e
  flags : e.flags = 0
  exits : waitForPlaceExits true c.rgSize p.log.sequencer p.log.orderedWatermk (getSize e) = true
  seq_lt : p.log.sequencer + getSize e < 2 ^ 64

/-- A call of `AppendEntry` up to the copy of the overflow: all it does to the region. -/
def appendMem (c : Config) (s : State) (e : LogEntry) : State :=
  let seq := s.log.sequencer
  let e' := stamp c s.log.indexer e
  { log := copyOverflow c (raiseFlag c (serialise c (reserve c s.log e) e' seq) seq) e' seq
    slots := s.slots ++ [⟨e', seq, s.log.indexer, .copied⟩] }

/-- A whole call of `AppendEntry`. -/
def append (c : Config) (s : State) (e : LogEntry) : State :=
  { log := (appendEntry c s.log e).1
    slots := s.slots ++ [⟨stamp c s.log.indexer e, s.log.sequencer, s.log.indexer, .returned⟩] }

theorem put_last {l l' : FlatLog} {ts : List Slot} {t t' : Slot} {st : Stage}
    (ht : t' = { t with stage := st }) :
    State.put ⟨l, ts ++ [t]⟩ ts.length t st l' = ⟨l', ts ++ [t']⟩ := by
  subst ht
  simp [State.put]

theorem getElem?_last {ts : List Slot} {l : FlatLog} {t : Slot} :
    (⟨l, ts ++ [t]⟩ : State).slots[ts.length]? = some t := by
  simp

section Calls
variable {R : State → State → Prop} {e : LogEntry}
  (hproceed : ∀ {s s' : State} {i : ℕ}, AppendStep c i s s' → i < s.slots.length → R s s')
include hproceed

theorem proceed_last {ts : List Slot} {l l' : FlatLog} {t : Slot} {st : Stage}
    (h : AppendStep c ts.length ⟨l, ts ++ [t]⟩ (State.put ⟨l, ts ++ [t]⟩ ts.length t st l')) :
    R ⟨l, ts ++ [t]⟩ ⟨l', ts ++ [{ t with stage := st }]⟩ := by
  rw [put_last rfl] at h
  exact hproceed h (by simp)

/-- A call that has reserved its range goes on: its flag is raised, and the overflow is not copied yet. -/
theorem raiseFlag_steps {s₀ : State} (h1 : Relation.ReflTransGen R s₀ (s.reserve c e)) :
    Relation.ReflTransGen R s₀
      ⟨raiseFlag c (serialise c (reserve c s.log e) (stamp c s.log.indexer e) s.log.sequencer)
          s.log.sequencer,
        s.slots ++ [⟨stamp c s.log.indexer e, s.log.sequencer, s.log.indexer, .flagged⟩]⟩ := by
  have h2 := h1.tail (proceed_last hproceed (.serialise getElem?_last rfl))
  exact h2.tail (proceed_last hproceed (.raiseFlag getElem?_last rfl))

theorem appendMem_steps {s₀ : State} (h1 : Relation.ReflTransGen R s₀ (s.reserve c e)) :
    Relation.ReflTransGen R s₀ (appendMem c s e) := by
  have h3 := raiseFlag_steps hproceed h1
  exact h3.tail (proceed_last hproceed (.copyOverflow getElem?_last rfl))

theorem append_steps {s₀ : State} (h1 : Relation.ReflTransGen R s₀ (s.reserve c e)) :
    Relation.ReflTransGen R s₀ (append c s e) := by
  have h4 := appendMem_steps hproceed h1
  exact h4.tail (proceed_last hproceed (.insertReqid getElem?_last rfl))

end Calls

theorem raiseFlag_run (c : Config) (s : State) {e : LogEntry} (he : Admissible e) (hf : e.flags = 0)
    (hocc : s.log.sequencer + getSize e < s.log.orderedWatermk + c.rgSize) :
    Relation.ReflTransGen (CallStep c) s
      ⟨raiseFlag c (serialise c (reserve c s.log e) (stamp c s.log.indexer e) s.log.sequencer)
          s.log.sequencer,
        s.slots ++ [⟨stamp c s.log.indexer e, s.log.sequencer, s.log.indexer, .flagged⟩]⟩ :=
  raiseFlag_steps CallStep.proceed (.single (.reserve e he hf hocc))

theorem appendMem_run (c : Config) (s : State) {e : LogEntry} (he : Admissible e) (hf : e.flags = 0)
    (hocc : s.log.sequencer + getSize e < s.log.orderedWatermk + c.rgSize) :
    Relation.ReflTransGen (CallStep c) s (appendMem c s e) :=
  appendMem_steps CallStep.proceed (.single (.reserve e he hf hocc))

theorem append_run (c : Config) (s : State) {e : LogEntry} (he : Admissible e) (hf : e.flags = 0)
    (hocc : s.log.sequencer + getSize e < s.log.orderedWatermk + c.rgSize) :
    Relation.ReflTransGen (CallStep c) s (append c s e) :=
  append_steps CallStep.proceed (.single (.reserve e he hf hocc))

theorem ring_run {s' : State} (h : Relation.ReflTransGen (CallStep c) s s') :
    Relation.ReflTransGen (RingStep c) s s' :=
  Relation.ReflTransGen.mono (fun _ _ => .call) _ _ h

theorem append_counters (c : Config) (s : State) (e : LogEntry) :
    (append c s e).log.sequencer = s.log.sequencer + getSize e ∧
      (append c s e).log.orderedWatermk = s.log.orderedWatermk ∧
      (append c s e).log.orderedIdxWatermk = s.log.orderedIdxWatermk := by
  unfold append appendEntry
  simp only [(insertReqid_counters c _ _ _).1, (insertReqid_counters c _ _ _).2.2.1,
    (insertReqid_counters c _ _ _).2.2.2.2, (copyOverflow_counters c _ _ _).1,
    (copyOverflow_counters c _ _ _).2.2.1, (copyOverflow_counters c _ _ _).2.2.2]
  exact ⟨rfl, rfl, rfl⟩

/-! ### One entry in the region -/

/-- What the region shows of an entry, by the stage of its call. -/
def Shows (c : Config) (m : Mem) (t : Slot) : Prop :=
  match t.stage with
  | .reserved => getFlagFromBuf m (t.seq % c.rgSize) = 0
  | .serialised => Holds m (t.seq % c.rgSize) (encode t.e)
  | .flagged => Holds m (t.seq % c.rgSize) (encode t.written)
  | .copied | .returned =>
    Holds m (t.seq % c.rgSize) (encode t.written) ∧
      Holds (wrapView c.rgSize m) t.seq (encode t.written)

theorem length_encode_written_le (t : Slot) : (encode t.written).length ≤ entrySize t.e :=
  length_encode_le t.written

theorem holds_flat_congr {m m' : Mem} {seq k : ℕ} {bs : List UInt8} (hlen : bs.length ≤ k)
    (hm : ∀ x, Footprint c.rgSize seq k x → m' x = m x) (h : Holds m (seq % c.rgSize) bs) :
    Holds m' (seq % c.rgSize) bs :=
  h.congr fun _ hi => hm _ (footprint_flat (by omega))

theorem holds_wrap_congr {m m' : Mem} {seq k : ℕ} {bs : List UInt8} (hlen : bs.length ≤ k)
    (hm : ∀ x, Footprint c.rgSize seq k x → m' x = m x)
    (h : Holds (wrapView c.rgSize m) seq bs) : Holds (wrapView c.rgSize m') seq bs :=
  h.congr fun _ hi => hm _ (footprint_wrap (by omega))

theorem Shows.holds {m : Mem} {t : Slot} (h : Shows c m t) (hf : t.Flagged) :
    Holds m (t.seq % c.rgSize) (encode t.written) := by
  unfold Shows at h
  rcases hf with hst | hst | hst
  · rw [hst] at h
    exact h
  · rw [hst] at h
    exact h.1
  · rw [hst] at h
    exact h.1

theorem Shows.flag_zero {m : Mem} {t : Slot} (h : Shows c m t) (hf : ¬ t.Flagged) (hz : t.e.flags = 0) :
    getFlagFromBuf m (t.seq % c.rgSize) = 0 := by
  unfold Shows at h
  rcases hst : t.stage
  · rw [hst] at h
    exact h
  · rw [hst] at h
    rw [getFlagFromBuf_of_holds (Holds.left h), hz]
  · exact absurd (Or.inl hst) hf
  · exact absurd (Or.inr (Or.inl hst)) hf
  · exact absurd (Or.inr (Or.inr hst)) hf

theorem Shows.congr {m m' : Mem} {t : Slot} (h : Shows c m t)
    (hm : ∀ x, Footprint c.rgSize t.seq (entrySize t.e) x → m' x = m x) : Shows c m' t := by
  have hw := length_encode_written_le t
  have hsz := metaDataSize_le_entrySize t.e
  unfold Shows at h ⊢
  cases hst : t.stage with
  | reserved =>
    rw [hst] at h
    simp only at h ⊢
    rw [← h]
    unfold getFlagFromBuf
    refine congrArg UInt16.ofNat (load_congr fun i hi => ?_)
    rw [Nat.add_assoc]
    exact hm _ (footprint_flat (by unfold metaDataSize at hsz; omega))
  | serialised =>
    rw [hst] at h
    exact holds_flat_congr (length_encode_le t.e) hm h
  | flagged =>
    rw [hst] at h
    exact holds_flat_congr hw hm h
  | copied =>
    rw [hst] at h
    exact ⟨holds_flat_congr hw hm h.1, holds_wrap_congr hw hm h.2⟩
  | returned =>
    rw [hst] at h
    exact ⟨holds_flat_congr hw hm h.1, holds_wrap_congr hw hm h.2⟩

theorem holds_wrap_of_flat {m : Mem} {seq : ℕ} {bs : List UInt8}
    (hlen : seq % c.rgSize + bs.length ≤ c.rgSize) (h : Holds m (seq % c.rgSize) bs) :
    Holds (wrapView c.rgSize m) seq bs := by
  refine h.congr fun i hi => ?_
  rw [← flatView_eq_wrapView m (by omega), flatView_add]

/-- **The overflow copy** completes the wrapped view and leaves the contiguous one as it is. -/
theorem holds_copyOverflow {l : FlatLog} {e : LogEntry} {seq : ℕ} {bs : List UInt8}
    (hk : entrySize e ≤ c.rgSize) (hlen : bs.length ≤ entrySize e)
    (h : Holds l.mem (seq % c.rgSize) bs) :
    Holds (copyOverflow c l e seq).mem (seq % c.rgSize) bs ∧
      Holds (wrapView c.rgSize (copyOverflow c l e seq).mem) seq bs := by
  have hmod := Nat.mod_lt seq c.rgSize_pos
  unfold copyOverflow
  simp only [serializer_eq]
  split_ifs with hov
  · refine ⟨h.congr fun i hi => blit_of_notMem (Or.inr (by omega)), h.congr fun i hi => ?_⟩
    rw [wrapView_add]
    by_cases hin : seq % c.rgSize + i < c.rgSize
    · rw [add_mod_of_lt hin]
      exact blit_of_notMem (Or.inr (by omega))
    · -- the byte lies beyond the end, and the copy brings it to the start of the ring
      obtain ⟨j, hj⟩ := Nat.exists_eq_add_of_le (not_lt.mp hin)
      have hcopy : blit l.mem 0 l.mem c.rgSize (seq % c.rgSize + entrySize e - c.rgSize) (0 + j) =
          l.mem (c.rgSize + j) := blit_add (by omega)
      rw [Nat.zero_add] at hcopy
      rw [add_mod_of_ge (by omega) (by omega), hj, Nat.add_sub_cancel_left]
      exact hcopy
  · exact ⟨h, holds_wrap_of_flat (by omega) h⟩

/-- **A step of a call** takes what the region shows of its own entry to the next stage. -/
theorem appendStep_shows (hT : Tiled s) (hs : AppendStep c i s s') {t t' : Slot}
    (ht : s.slots[i]? = some t) (ht' : s'.slots[i]? = some t') (h : Shows c s.log.mem t) :
    Shows c s'.log.mem t' := by
  have hput : ∀ {u : Slot} {st : Stage} {l : FlatLog}, s.slots[i]? = some u →
      (s.put i u st l).slots[i]? = some t' → u = t ∧ t' = { t with stage := st } := by
    intro u st l hu hu'
    rw [slots_put_self hu] at hu'
    obtain rfl : t = u := Option.some.inj (ht.symm.trans hu)
    exact ⟨rfl, (Option.some.inj hu').symm⟩
  cases hs with
  | reserve e he => simp at ht
  | serialise hu hst =>
    obtain ⟨rfl, rfl⟩ := hput hu ht'
    show Holds (serializer _ s.log.mem _).1 _ _
    rw [serializer_eq]
    exact holds_writeBytes _ _ _
  | raiseFlag hu hst =>
    obtain ⟨rfl, rfl⟩ := hput hu ht'
    unfold Shows at h
    rw [hst] at h
    exact holds_encode_setFlag h 1
  | copyOverflow hu hst =>
    obtain ⟨rfl, rfl⟩ := hput hu ht'
    have hfit := (hT.admissible ht).fits
    have hrg := c.le_rgSize
    unfold Shows at h
    rw [hst] at h
    exact holds_copyOverflow (by unfold msgSize at hfit; omega) (length_encode_written_le _) h
  | insertReqid hu hst =>
    obtain ⟨rfl, rfl⟩ := hput hu ht'
    unfold Shows at h ⊢
    rw [hst] at h
    rw [State.put, (insertReqid_counters c s.log _ _).2.2.2.1]
    exact h

/-! ### Settled positions -/

theorem appendStep_complete (hs : AppendStep c i s s') (hi : i < s.slots.length) :
    ∃ t st l, s.slots[i]? = some t ∧ s' = s.put i t st l ∧
      (t.Complete c → Slot.Complete c { t with stage := st }) ∧
      l.sequencer = s.log.sequencer ∧ l.orderedWatermk = s.log.orderedWatermk ∧
      l.indexer = s.log.indexer ∧ l.orderedIdxWatermk = s.log.orderedIdxWatermk := by
  cases hs with
  | reserve e he => omega
  | serialise ht hst =>
    refine ⟨_, _, _, ht, rfl, fun hc => ?_, rfl, rfl, rfl, rfl⟩
    simp [Slot.Complete, Slot.Finished, hst] at hc
  | raiseFlag ht hst =>
    refine ⟨_, _, _, ht, rfl, fun hc => ?_, rfl, rfl, rfl, rfl⟩
    simp [Slot.Complete, Slot.Finished, hst] at hc
  | copyOverflow ht =>
    obtain ⟨h1, h2, h3, h4⟩ := copyOverflow_counters c s.log _ _
    exact ⟨_, _, _, ht, rfl, fun _ => Or.inl (Or.inl rfl), h1, h3, h2, h4⟩
  | insertReqid ht =>
    obtain ⟨h1, h2, h3, -, h5⟩ := insertReqid_counters c s.log _ _
    exact ⟨_, _, _, ht, rfl, fun _ => Or.inl (Or.inr rfl), h1, h3, h2, h5⟩

theorem callStep_sequencer_le (hs : CallStep c s s') : s.log.sequencer ≤ s'.log.sequencer := by
  cases hs with
  | reserve e => exact Nat.le_add_right _ _
  | proceed hstep hi =>
    obtain ⟨t, st, l, -, rfl, -, hq, -⟩ := appendStep_complete hstep hi
    exact hq.ge

theorem Settled.reserve {w : ℕ} (h : Settled c s w) (e : LogEntry) : Settled c (s.reserve c e) w := by
  obtain ⟨k, hk, hw, hc⟩ := h
  refine ⟨k, by simp only [State.reserve, List.length_append]; omega, ?_, fun j u hj hu => ?_⟩
  · rw [entries_reserve, pos_append_of_le (by simpa [State.entries] using hk)]
    exact hw
  · rcases slots_reserve_cases hu with ⟨rfl, -⟩ | hu
    · omega
    · exact hc j u hj hu

theorem Settled.put {w : ℕ} {t : Slot} {st : Stage} {l : FlatLog} (h : Settled c s w)
    (ht : s.slots[i]? = some t) (hcomp : t.Complete c → Slot.Complete c { t with stage := st }) :
    Settled c (s.put i t st l) w := by
  obtain ⟨k, hk, hw, hc⟩ := h
  refine ⟨k, by simpa [State.put] using hk, by rw [entries_put ht]; exact hw, fun j u hj hu => ?_⟩
  rcases slots_put_cases ht hu with ⟨rfl, rfl⟩ | ⟨-, hu⟩
  · exact hcomp (hc j t hj ht)
  · exact hc j u hj hu

theorem Settled.call {w : ℕ} (h : Settled c s w) (hs : CallStep c s s') : Settled c s' w := by
  cases hs with
  | reserve e => exact h.reserve e
  | proceed hstep hi =>
    obtain ⟨t, st, l, ht, rfl, hcomp, -⟩ := appendStep_complete hstep hi
    exact h.put ht hcomp

theorem Settled.complete {w : ℕ} (h : Settled c s w) (hT : Tiled s) {t : Slot}
    (ht : s.slots[i]? = some t) (hlt : t.seq < w) : t.Complete c := by
  obtain ⟨k, -, rfl, hc⟩ := h
  refine hc i t ?_ ht
  by_contra hge
  have := pos_mono (f := entrySize) (l := s.entries) (not_lt.mp hge)
  rw [hT.seq ht] at hlt
  omega

theorem Settled.le_sequencer {w : ℕ} (h : Settled c s w) (hT : Tiled s) : w ≤ s.log.sequencer := by
  obtain ⟨k, -, rfl, -⟩ := h
  rw [hT.sequencer]
  exact pos_le_total k

theorem settled_zero (c : Config) (s : State) : Settled c s 0 :=
  ⟨0, Nat.zero_le _, pos_zero.symm, fun _ _ h => absurd h (Nat.not_lt_zero _)⟩

/-! ### The invariant -/

/-- **The contents of the ring.** The watermark is settled, and every entry at or above it shows in the
region what its call has written. -/
structure Contents (c : Config) (s : State) : Prop where
  tiled : Tiled s
  flags : ∀ {i : ℕ} {t : Slot}, s.slots[i]? = some t → t.e.flags = 0
  settled : Settled c s s.log.orderedWatermk
  occupancy : s.log.sequencer < s.log.orderedWatermk + c.rgSize
  shows : ∀ {i : ℕ} {t : Slot}, s.slots[i]? = some t → s.log.orderedWatermk ≤ t.seq →
    Shows c s.log.mem t

theorem Contents.holds_of_flagged {t : Slot} (h : Contents c s) (ht : s.slots[i]? = some t)
    (hw : s.log.orderedWatermk ≤ t.seq) (hf : t.Flagged) : Holds s.log.mem (t.seq % c.rgSize) (encode t.written) :=
  (h.shows ht hw).holds hf

theorem Contents.flag_zero_of_not_flagged {t : Slot} (h : Contents c s) (ht : s.slots[i]? = some t)
    (hw : s.log.orderedWatermk ≤ t.seq) (hf : ¬ t.Flagged) : getFlagFromBuf s.log.mem (t.seq % c.rgSize) = 0 :=
  (h.shows ht hw).flag_zero hf (h.flags ht)

theorem CanAppend.room {e : LogEntry} (he : CanAppend c s e) (h : Contents c s) :
    s.log.sequencer + getSize e + 2 ^ 18 < s.log.orderedWatermk + c.rgSize :=
  Space.room_of_exits c.le_rgSize (c.rgSize_lt.trans (by decide)) (h.settled.le_sequencer h.tiled) he.seq_lt he.exits

theorem Contents.init (h : Init s) : Contents c s := by
  have hT := Tiled.init h
  obtain ⟨hf, hn⟩ := h
  have hrg := c.rgSize_pos
  refine ⟨hT, ?_, ?_, ?_, ?_⟩
  · intro i t ht; simp [hn] at ht
  · rw [hf.orderedWatermk]; exact settled_zero c s
  · rw [hf.sequencer, hf.orderedWatermk]; omega
  · intro i t ht; simp [hn] at ht

theorem Contents.reserve {e : LogEntry} (h : Contents c s) (he : Admissible e) (hf : e.flags = 0)
    (hocc : s.log.sequencer + getSize e < s.log.orderedWatermk + c.rgSize) :
    Contents c (s.reserve c e) := by
  have hstep : AppendStep c s.slots.length s (s.reserve c e) := .reserve e he
  refine ⟨h.tiled.reserve he, fun {j u} hu => ?_, h.settled.reserve e, hocc, fun {j u} hu hle => ?_⟩
  · rcases slots_reserve_cases hu with ⟨-, rfl⟩ | hu
    · exact hf
    · exact h.flags hu
  · rcases slots_reserve_cases hu with ⟨-, rfl⟩ | hu
    · exact holds_setFlag _ _ _
    · have hj : j ≠ s.slots.length := by
        have := (List.getElem?_eq_some_iff.mp hu).1; omega
      refine (h.shows hu hle).congr fun x hx => ?_
      refine appendStep_mem_eq_of_window h.tiled hstep hj hu hle (fun t ht => ?_) hocc.le hx
      simp at ht

theorem Contents.put {t : Slot} {st : Stage} {l : FlatLog} (h : Contents c s)
    (ht : s.slots[i]? = some t) (hstep : AppendStep c i s (s.put i t st l))
    (hq : l.sequencer = s.log.sequencer) (hw : l.orderedWatermk = s.log.orderedWatermk)
    (hcomp : t.Complete c → Slot.Complete c { t with stage := st })
    (hshows : Shows c s.log.mem t → Shows c l.mem { t with stage := st }) :
    Contents c (s.put i t st l) := by
  have hocc := h.occupancy
  refine ⟨h.tiled.appendStep hstep, fun {j u} hu => ?_, ?_, ?_, fun {j u} hu hle => ?_⟩
  · rcases slots_put_cases ht hu with ⟨-, rfl⟩ | ⟨-, hu⟩
    · exact (h.flags ht : t.e.flags = 0)
    · exact h.flags hu
  · have := h.settled.put (l := l) ht hcomp
    rwa [← hw] at this
  · simp only [State.put]
    omega
  · have hle' : s.log.orderedWatermk ≤ u.seq := hw ▸ hle
    rcases slots_put_cases ht hu with ⟨-, rfl⟩ | ⟨hji, hu⟩
    · exact hshows (h.shows ht hle')
    · refine (h.shows hu hle').congr fun x hx => ?_
      refine appendStep_mem_eq_of_window h.tiled hstep hji hu hle' (fun v hv hnc => ?_) ?_ hx
      · by_contra hlt
        exact hnc (h.settled.complete h.tiled hv (not_le.mp hlt))
      · simp only [State.put]
        omega

theorem Contents.proceed (h : Contents c s) (hs : AppendStep c i s s') (hi : i < s.slots.length) :
    Contents c s' := by
  obtain ⟨t, st, l, ht, rfl, hcomp, hq, hw, -⟩ := appendStep_complete hs hi
  exact h.put ht hs hq hw hcomp (appendStep_shows h.tiled hs ht (slots_put_self ht st l))

theorem Contents.congr (h : Contents c s) (h1 : s'.slots = s.slots) (h2 : s'.log.mem = s.log.mem)
    (h3 : s'.log.sequencer = s.log.sequencer) (h4 : s'.log.indexer = s.log.indexer)
    (h5 : s'.log.orderedWatermk = s.log.orderedWatermk) : Contents c s' := by
  have he : s'.entries = s.entries := by
    unfold State.entries
    rw [h1]
  obtain ⟨⟨hseq, hidx, hs, hi, ha⟩, hf, hset, hocc, hshows⟩ := h
  refine ⟨⟨?_, ?_, ?_, ?_, ?_⟩, ?_, ?_, ?_, ?_⟩
  · rw [h3, he]; exact hseq
  · rw [h4, h1]; exact hidx
  · rw [h1, he]; exact hs
  · rw [h1]; exact hi
  · rw [h1]; exact ha
  · rw [h1]; exact hf
  · unfold Settled at hset ⊢
    rw [h1, he, h5]
    exact hset
  · rw [h3, h5]; exact hocc
  · rw [h1, h2, h5]; exact hshows

theorem Contents.advance (h : Contents c s) {w : ℕ} (wi : ℕ) (hle : s.log.orderedWatermk ≤ w)
    (hw : Settled c s w) : Contents c (s.setWatermk w wi) := by
  have hocc := h.occupancy
  refine ⟨h.tiled.setWatermk _ _, h.flags, hw, ?_, fun hu hle' => h.shows hu (hle.trans hle')⟩
  simp only [State.setWatermk]
  omega

theorem Contents.call (h : Contents c s) (hs : CallStep c s s') : Contents c s' := by
  cases hs with
  | reserve e he hf hocc => exact h.reserve he hf hocc
  | proceed hstep hi => exact h.proceed hstep hi

theorem Contents.calls (h : Contents c s) (hs : Relation.ReflTransGen (CallStep c) s s') :
    Contents c s' := by
  induction hs with
  | refl => exact h
  | tail _ hcall ih => exact ih.call hcall

theorem contents_of_reach (h : Reach Init (RingStep c) s) : Contents c s := by
  refine h.invariant (fun s hs => Contents.init hs) fun s s' _ hC hs => ?_
  cases hs with
  | call hcall => exact hC.call hcall
  | advance w wi hle hw => exact hC.advance wi hle hw

/-! ### Following the ring -/

theorem Contents.holds_wrap (h : Contents c s) {t : Slot} (ht : s.slots[i]? = some t)
    (hw : s.log.orderedWatermk ≤ t.seq) (hc : t.Complete c) :
    Holds (wrapView c.rgSize s.log.mem) t.seq (encode t.written) := by
  have hsh := h.shows ht hw
  unfold Shows at hsh
  rcases hc with (hst | hst) | ⟨hst, hns⟩
  · rw [hst] at hsh; exact hsh.2
  · rw [hst] at hsh; exact hsh.2
  · rw [hst] at hsh
    have hlen := length_encode_written_le t
    unfold Slot.Straddles at hns
    exact holds_wrap_of_flat (by omega) hsh

theorem getFlagFromBuf_wrapView {m : Mem} {seq : ℕ} (h : seq % c.rgSize + metaDataSize ≤ c.rgSize) :
    getFlagFromBuf (wrapView c.rgSize m) seq = getFlagFromBuf m (seq % c.rgSize) := by
  unfold getFlagFromBuf
  refine congrArg UInt16.ofNat (load_congr fun j hj => ?_)
  unfold metaDataSize at h
  rw [Nat.add_assoc, ← flatView_eq_wrapView _ (by omega), flatView_add, Nat.add_assoc]

/-- An entry that is not complete and does not cross the end of the ring shows the flag zero. -/
theorem Contents.flag_zero (h : Contents c s) {t : Slot} (ht : s.slots[i]? = some t)
    (hw : s.log.orderedWatermk ≤ t.seq) (hc : ¬ t.Complete c) (hns : ¬ t.Straddles c) :
    getFlagFromBuf (wrapView c.rgSize s.log.mem) t.seq = 0 := by
  have hsz := metaDataSize_le_entrySize t.e
  have hns' : t.seq % c.rgSize + metaDataSize ≤ c.rgSize := by
    unfold Slot.Straddles at hns
    omega
  have hsh := h.shows ht hw
  rw [getFlagFromBuf_wrapView hns']
  unfold Shows at hsh
  cases hst : t.stage with
  | reserved => rw [hst] at hsh; exact hsh
  | serialised =>
    rw [hst] at hsh
    rw [getFlagFromBuf_of_holds (Holds.left hsh), h.flags ht]
  | flagged => exact absurd (Or.inr ⟨hst, hns⟩) hc
  | copied => exact absurd (Or.inl (Or.inl hst)) hc
  | returned => exact absurd (Or.inl (Or.inr hst)) hc

/-- The complete entries from slot `k` on, up to the first one that is not complete. -/
def completeRun (c : Config) (s : State) (k : ℕ) : List LogEntry :=
  ((s.slots.drop k).takeWhile fun t => t.Complete c).map Slot.written

/-- The entries that are not complete show the flag zero to a reader of the ring. -/
def Hidden (c : Config) (s : State) : Prop :=
  ∀ {i : ℕ} {t : Slot}, s.slots[i]? = some t → s.log.orderedWatermk ≤ t.seq → ¬ t.Complete c →
    getFlagFromBuf (wrapView c.rgSize s.log.mem) t.seq = 0

theorem readable_written (h : Contents c s) {t : Slot} (ht : s.slots[i]? = some t) :
    Readable t.written := by
  have ha := h.tiled.admissible ht
  have hlen := ha.length_le
  refine ⟨ha.sized, ?_, by simp [Slot.written]⟩
  show t.e.data.length + 3 < 2 ^ 32
  unfold msgSize at hlen
  omega

/-- **A reader of the ring** finds the run of complete entries, and then the end of the log or flag
zero. -/
theorem Contents.holdsAll_run (h : Contents c s) (hz : Hidden c s) : ∀ (l : List Slot) (k : ℕ),
    s.slots.drop k = l → s.log.orderedWatermk ≤ pos entrySize s.entries k →
      (∀ e ∈ (l.takeWhile fun t => t.Complete c).map Slot.written, Readable e) ∧
      HoldsAll (wrapView c.rgSize s.log.mem) (pos entrySize s.entries k)
        ((l.takeWhile fun t => t.Complete c).map Slot.written) ∧
      (pos entrySize s.entries k +
          totalSize ((l.takeWhile fun t => t.Complete c).map Slot.written) < s.log.sequencer →
        getFlagFromBuf (wrapView c.rgSize s.log.mem) (pos entrySize s.entries k +
          totalSize ((l.takeWhile fun t => t.Complete c).map Slot.written)) = 0)
  | [], k, hl, _ => by
    refine ⟨by simp, trivial, fun hlt => ?_⟩
    -- the reader is at the end of the log
    have hk : s.entries.length ≤ k := by simpa [State.entries] using hl
    have hseq : s.log.sequencer = (s.entries.map entrySize).sum := h.tiled.sequencer
    rw [List.takeWhile_nil, List.map_nil, totalSize_nil, pos_of_length_le hk] at hlt
    omega
  | t :: l, k, hl, hw => by
    have ht : s.slots[k]? = some t := by
      rw [← List.head?_drop, hl, List.head?_cons]
    have hl' : s.slots.drop (k + 1) = l := by
      rw [← List.tail_drop, hl, List.tail_cons]
    have hseq := h.tiled.seq ht
    by_cases hc : t.Complete c
    · have hpos : pos entrySize s.entries (k + 1) = pos entrySize s.entries k + entrySize t.e :=
        pos_succ (getElem?_entries ht)
      obtain ⟨h1, h2, h3⟩ := h.holdsAll_run hz l (k + 1) hl' (by omega)
      rw [List.takeWhile_cons_of_pos (by simpa using hc), List.map_cons, totalSize_cons]
      refine ⟨?_, ⟨?_, ?_⟩, ?_⟩
      · intro e he
        rcases List.mem_cons.mp he with rfl | he
        · exact readable_written h ht
        · exact h1 e he
      · rw [← hseq]
        exact h.holds_wrap ht (by omega) hc
      · rw [hpos] at h2; exact h2
      · rw [hpos] at h3
        rwa [← Nat.add_assoc]
    · rw [List.takeWhile_cons_of_neg (by simpa using hc)]
      refine ⟨by simp, trivial, fun _ => ?_⟩
      rw [List.map_nil, totalSize_nil, Nat.add_zero, ← hseq]
      exact hz ht (by omega) hc

end LazyLog.DurLog.Ring
