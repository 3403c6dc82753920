import LazyLog.DurLog.SpecRead

/-! # A speculative read among appends

`SpecReadEntry` takes no lock. Here every load of it is a step of its own, next to calls of `AppendEntry` whose stores
are steps, and moves of the watermark: a read may look an index up while the map goes on, load the sequencer while
entries are reserved, and load an entry piece by piece while it is written or overwritten.

The source leaves margins for that: 64 entries for the map, and `PAGE_SIZE << 6` bytes for the ring. The second one is
compared only if the log is longer than the ring already. `spec_read_margins`: how much may be reserved during a read
whose entry is complete before the value can be wrong, in a log of either kind. An entry whose call is still storing
it is not safe at all, because `Deserializer` loads the size before the flags. -/

namespace LazyLog.DurLog.SpecRace

open Relation (ReflTransGen)
open LazyLog.Lib.Bytes LazyLog.Lib.Circular LazyLog.Lib.Tiling LazyLog.Lib.Run
open LazyLog.Rpc.Entry LazyLog.Rpc.Multi
open LazyLog.DurLog.Flat LazyLog.DurLog.Ranges LazyLog.DurLog.Ring
open LazyLog.DurLog.SpecRead (lowIdx InTheWay inTheWay_iff)

/-! ### The read -/

/-- Where `SpecReadEntry` is: beyond its first comparison, beyond the second one, after the look-up, after the third
comparison, inside `Deserializer` with the bytes loaded so far, or at its end. -/
inductive Pc
  | start
  | low
  | inRange
  | mapped (seq : ℕ)
  | sequenced (seq : ℕ)
  | loading (offset : ℕ) (got : List UInt8)
  | returned (e : LogEntry) (r : ℤ)

/-- A read. The number of entries at the first comparison and at the look-up, `cur_seq`, and how far the call of the
entry had come at the call of `GetIdx`, are a history. -/
structure Reader where
  pc : Pc
  first : ℕ
  atMap : ℕ
  curSeq : ℕ
  seen : Option Stage

/-- The bytes that `Deserializer` has loaded, as a memory. -/
def loaded (got : List UInt8) : Mem := fun x => got.getD x 0

/-- How many bytes `Deserializer` loads: the header and, if the flags are set, as many as its size says. -/
def needed (got : List UInt8) : ℕ :=
  if got.length < metaDataSize then metaDataSize
  else if getFlagFromBuf (loaded got) 0 = 0 then metaDataSize
  else metaDataSize + load (loaded got) 24 4

/-- A step of `SpecReadEntry(idx, e₀)` on the log `l`; `stage` is the stage of the call of the entry. -/
inductive ReadStep (c : Config) (idx : UInt64) (e₀ : LogEntry) (l : FlatLog) (stage : Option Stage) :
    Reader → Reader → Prop
  | first {r : Reader} (hpc : r.pc = .start) (h : lowIdx c l < idx.toNat) :
    ReadStep c idx e₀ l stage r { r with pc := .low, first := l.indexer }
  | tooLow {r : Reader} (hpc : r.pc = .start) (h : idx.toNat ≤ lowIdx c l) :
    ReadStep c idx e₀ l stage r { r with pc := .returned e₀ (-1) }
  | second {r : Reader} (hpc : r.pc = .low) (h : idx.toNat < l.indexer) :
    ReadStep c idx e₀ l stage r { r with pc := .inRange }
  | beyond {r : Reader} (hpc : r.pc = .low) (h : l.indexer ≤ idx.toNat) :
    ReadStep c idx e₀ l stage r { r with pc := .returned e₀ (-2) }
  | lookUp {r : Reader} (hpc : r.pc = .inRange) :
    ReadStep c idx e₀ l stage r
      { r with pc := .mapped (l.idxToSeq (idx.toNat % c.idxMapElemCnt)), atMap := l.indexer }
  | third {r : Reader} {seq : ℕ} (hpc : r.pc = .mapped seq) (h : ¬ InTheWay c l seq) :
    ReadStep c idx e₀ l stage r { r with pc := .sequenced seq, curSeq := l.sequencer }
  | inTheWay {r : Reader} {seq : ℕ} (hpc : r.pc = .mapped seq) (h : InTheWay c l seq) :
    ReadStep c idx e₀ l stage r { r with pc := .returned e₀ (-1) }
  | getIdx {r : Reader} {seq : ℕ} (hpc : r.pc = .sequenced seq) (h : getIdx l.mem (seq % c.rgSize) = idx) :
    ReadStep c idx e₀ l stage r { r with pc := .loading (seq % c.rgSize) [], seen := stage }
  | otherIdx {r : Reader} {seq : ℕ} (hpc : r.pc = .sequenced seq) (h : getIdx l.mem (seq % c.rgSize) ≠ idx) :
    ReadStep c idx e₀ l stage r { r with pc := .returned e₀ 0 }
  | load {r : Reader} {offset : ℕ} {got : List UInt8} (n : ℕ) (hpc : r.pc = .loading offset got)
    (h : got.length + n ≤ needed got) :
    ReadStep c idx e₀ l stage r { r with pc := .loading offset (got ++ readBytes l.mem (offset + got.length) n) }
  | finish {r : Reader} {offset : ℕ} {got : List UInt8} (hpc : r.pc = .loading offset got)
    (h : got.length = needed got) :
    ReadStep c idx e₀ l stage r
      { r with
        pc := .returned (deserializer e₀ (loaded got) 0).1 (Int.bmod (deserializer e₀ (loaded got) 0).2 (2 ^ 32)) }

/-! ### The system -/

/-- Where a call of `AppendEntry` is in the critical section of `idx_lk_`. -/
inductive Phase
  | entered
  | cleared
  | mapped
  | indexed
  deriving DecidableEq

/-- The primary, the calls that have left the critical section, the one that is inside, how many bytes of its entry
each call has stored, and a read. -/
structure Sys where
  log : FlatLog
  slots : List Slot
  entering : Option (LogEntry × Phase)
  stored : ℕ → ℕ
  reader : Reader

/-- The primary without the call in the critical section. -/
def Sys.state (y : Sys) : State := ⟨y.log, y.slots⟩

/-- What a thread outside sees of the log: the call in the critical section may have increased the indexer. -/
def Sys.seen (y : Sys) : FlatLog :=
  match y.entering with
  | some (_, .indexed) => { y.log with indexer := y.log.indexer + 1 }
  | _ => y.log

/-- Where the log ends, with the entry that is being reserved. -/
def Sys.ends (y : Sys) : ℕ :=
  match y.entering with
  | some (e, _) => y.log.sequencer + getSize e
  | none => y.log.sequencer

/-- One step. The bytes in use stay below the size of the ring, and the watermark does not pass an entry whose call
has something to write. -/
inductive Step (c : Config) (idx : UInt64) (e₀ : LogEntry) : Sys → Sys → Prop
  | enter {y : Sys} (e : LogEntry) (he : Admissible e) (hfree : y.entering = none)
    (hfits : y.log.sequencer + getSize e < y.log.orderedWatermk + c.rgSize) :
    Step c idx e₀ y { y with entering := some (e, .entered) }
  | clear {y : Sys} {e : LogEntry} (h : y.entering = some (e, .entered)) :
    Step c idx e₀ y
      { y with
        log := { y.log with mem := setFlag y.log.mem (y.log.sequencer % c.rgSize) 0 }
        entering := some (e, .cleared) }
  | map {y : Sys} {e : LogEntry} (h : y.entering = some (e, .cleared)) :
    Step c idx e₀ y
      { y with
        log := { y.log with
          idxToSeq :=
            if c.isPrimary then Function.update y.log.idxToSeq (y.log.indexer % c.idxMapElemCnt) y.log.sequencer
            else y.log.idxToSeq }
        entering := some (e, .mapped) }
  | index {y : Sys} {e : LogEntry} (h : y.entering = some (e, .mapped)) :
    Step c idx e₀ y { y with entering := some (e, .indexed) }
  | leave {y : Sys} {e : LogEntry} (h : y.entering = some (e, .indexed)) :
    Step c idx e₀ y
      { y with
        log := { y.log with indexer := y.log.indexer + 1, sequencer := y.log.sequencer + getSize e }
        slots := y.slots ++ [⟨stamp c y.log.indexer e, y.log.sequencer, y.log.indexer, .reserved⟩]
        entering := none }
  | store {y : Sys} {i : ℕ} {t : Slot} (n : ℕ) (ht : y.slots[i]? = some t) (hst : t.stage = .reserved)
    (hn : y.stored i + n ≤ (encode t.e).length) :
    Step c idx e₀ y
      { y with
        log := { y.log with
          mem := writeBytes y.log.mem (t.seq % c.rgSize + y.stored i) (((encode t.e).drop (y.stored i)).take n) }
        stored := Function.update y.stored i (y.stored i + n) }
  | serialised {y : Sys} {i : ℕ} {t : Slot} (ht : y.slots[i]? = some t) (hst : t.stage = .reserved)
    (hall : y.stored i = (encode t.e).length) :
    Step c idx e₀ y { y with slots := y.slots.set i { t with stage := .serialised } }
  | proceed {y : Sys} {i : ℕ} {t : Slot} {s : State} (ht : y.slots[i]? = some t) (hst : t.stage ≠ .reserved)
    (h : AppendStep c i y.state s) : Step c idx e₀ y { y with log := s.log, slots := s.slots }
  | setWatermk {y : Sys} (w wi : ℕ) (hle : w ≤ y.log.sequencer) (hfits : y.ends < w + c.rgSize)
    (hcomplete : ∀ t ∈ y.slots, t.seq < w → t.Complete c) :
    Step c idx e₀ y { y with log := { y.log with orderedWatermk := w, orderedIdxWatermk := wi } }
  | read {y : Sys} {r : Reader} (h : ReadStep c idx e₀ y.seen (y.slots[idx.toNat]?.map Slot.stage) y.reader r) :
    Step c idx e₀ y { y with reader := r }

/-- A primary that has just been started, and a read that is about to start. -/
structure Start (y : Sys) : Prop where
  init : Init y.state
  entering : y.entering = none
  stored : y.stored = fun _ => 0
  pc : y.reader.pc = .start

/-! ### What a read is for -/

/-- At most 64 entries were reserved between the first comparison and the look-up. -/
def Reader.Steady (r : Reader) : Prop := r.atMap ≤ r.first + 64

/-- The call of the entry had raised its flag when the read came to its bytes. -/
def Reader.Flagged (r : Reader) : Prop := r.seen = some .flagged ∨ r.seen = some .copied ∨ r.seen = some .returned

/-- **A value is right** if it is the entry of the index. -/
def Right (y : Sys) (idx : ℕ) (e : LogEntry) : Prop := ∃ t, y.slots[idx]? = some t ∧ e = t.written

/-- **Reads tolerate `b` bytes**: those that are in the case `P` and return an entry return the right one, if the log
has not gone on by more than `b` bytes since they loaded the sequencer. -/
def Tolerates (c : Config) (P : Reader → Prop) (b : ℕ) : Prop :=
  ∀ (idx : UInt64) (e₀ : LogEntry) (y : Sys), Reach Start (Step c idx e₀) y → y.log.sequencer < 2 ^ 64 →
    ∀ e r, y.reader.pc = .returned e r → 0 < r → y.reader.Steady → P y.reader → y.ends ≤ y.reader.curSeq + b →
      Right y idx.toNat e

variable {c : Config} {idx : UInt64} {e₀ e : LogEntry} {y y' : Sys} {i : ℕ} {t : Slot}

/-! ### What the region holds -/

/-- How many entries have a place in the map. -/
def Sys.claimed (y : Sys) : ℕ :=
  match y.entering with
  | some (_, .mapped) | some (_, .indexed) => y.slots.length + 1
  | _ => y.slots.length

/-- What the call `i` has put into the region. -/
def content (stored : ℕ → ℕ) (i : ℕ) (t : Slot) : List UInt8 :=
  match t.stage with
  | .reserved => (encode t.e).take (stored i)
  | .serialised => encode t.e
  | .flagged | .copied | .returned => encode t.written

/-- **The invariant**: an entry stands in the region as far as its call has come, and an index in the map, until the
log has gone on by the size of the ring or of the map. -/
structure Ok (c : Config) (y : Sys) : Prop where
  tiled : Tiled y.state
  le : y.log.orderedWatermk ≤ y.log.sequencer
  fits : y.ends < y.log.orderedWatermk + c.rgSize
  complete : ∀ t ∈ y.slots, t.seq < y.log.orderedWatermk → t.Complete c
  admissible : ∀ {e : LogEntry} {ph : Phase}, y.entering = some (e, ph) → Admissible e
  stored : ∀ i, y.slots.length ≤ i → y.stored i = 0
  shown : ∀ {i : ℕ} {t : Slot}, y.slots[i]? = some t → y.ends ≤ t.seq + c.rgSize →
    Holds y.log.mem (t.seq % c.rgSize) (content y.stored i t)
  mapped : c.isPrimary = true → ∀ {i : ℕ}, i < y.claimed → y.claimed ≤ i + c.idxMapElemCnt →
    y.log.idxToSeq (i % c.idxMapElemCnt) = pos entrySize y.state.entries i

theorem ends_of_none (h : y.entering = none) : y.ends = y.log.sequencer := by rw [Sys.ends, h]

theorem ends_of_some {ph : Phase} (h : y.entering = some (e, ph)) : y.ends = y.log.sequencer + getSize e := by
  rw [Sys.ends, h]

theorem ends_congr (h : y'.entering = y.entering) (hl : y'.log.sequencer = y.log.sequencer) : y'.ends = y.ends := by
  unfold Sys.ends
  rw [h, hl]

theorem seen_indexer_congr (h : y'.entering = y.entering) (hl : y'.log.indexer = y.log.indexer) :
    y'.seen.indexer = y.seen.indexer := by
  unfold Sys.seen
  rw [h]
  split
  · exact congrArg (· + 1) hl
  · exact hl

theorem sequencer_le_ends (y : Sys) : y.log.sequencer ≤ y.ends := by
  unfold Sys.ends
  split
  · exact Nat.le_add_right _ _
  · exact Nat.le_refl _

theorem length_content_le (stored : ℕ → ℕ) (i : ℕ) (t : Slot) : (content stored i t).length ≤ entrySize t.e := by
  have h := length_encode_le t.e
  unfold content
  split
  · exact (List.length_take_le' _ _).trans h
  · exact h
  all_goals exact length_encode_written_le t

theorem holds_content_congr {m m' : Mem} {stored : ℕ → ℕ}
    (h : Holds m (t.seq % c.rgSize) (content stored i t))
    (hm : ∀ x, Footprint c.rgSize t.seq (entrySize t.e) x → m' x = m x) :
    Holds m' (t.seq % c.rgSize) (content stored i t) :=
  holds_flat_congr (length_content_le stored i t) hm h

/-- A call that has something to write is in the same window as the entries that stand in the region. -/
theorem Ok.window (h : Ok c y) {u : Slot} (hu : u ∈ y.slots) (hc : ¬ u.Complete c) :
    y.ends - c.rgSize ≤ u.seq := by
  have hfits := h.fits
  by_contra hlt
  exact hc (h.complete u hu (by omega))

theorem Ok.start (h : Start y) : Ok c y := by
  obtain ⟨hinit, hent, hstored, -⟩ := h
  have hT := Tiled.init hinit
  obtain ⟨hf, hn⟩ := hinit
  have hrg := c.rgSize_pos
  have hslots : y.slots = [] := hn
  have hseq : y.log.sequencer = 0 := hf.sequencer
  have hwm : y.log.orderedWatermk = 0 := hf.orderedWatermk
  refine ⟨hT, ?_, ?_, ?_, ?_, ?_, ?_, ?_⟩
  · rw [hwm]
    exact Nat.zero_le _
  · have hends := ends_of_none hent
    omega
  · intro t ht
    simp [hslots] at ht
  · intro e ph he
    rw [hent] at he
    cases he
  · intro i _
    rw [hstored]
  · intro i t ht
    simp [hslots] at ht
  · intro _ i hi
    simp [Sys.claimed, hent, hslots] at hi

/-! ### The steps of a reservation -/

theorem Ok.enter (h : Ok c y) (he : Admissible e) (hfree : y.entering = none)
    (hfits : y.log.sequencer + getSize e < y.log.orderedWatermk + c.rgSize) :
    Ok c { y with entering := some (e, .entered) } := by
  have hends := ends_of_none hfree
  have hclaimed : y.claimed = y.slots.length := by rw [Sys.claimed, hfree]
  refine ⟨h.tiled, h.le, hfits, h.complete, ?_, h.stored, fun ht hle => h.shown ht ?_, fun hp i hi hle => ?_⟩
  · rintro e ph ⟨⟩
    exact he
  · have hle' : y.log.sequencer + getSize e ≤ _ := hle
    omega
  · exact h.mapped hp (hclaimed ▸ hi) (hclaimed ▸ hle)

theorem Ok.clear (h : Ok c y) (hent : y.entering = some (e, .entered)) :
    Ok c { y with
      log := { y.log with mem := setFlag y.log.mem (y.log.sequencer % c.rgSize) 0 }
      entering := some (e, .cleared) } := by
  have hends := ends_of_some hent
  have hclaimed : y.claimed = y.slots.length := by rw [Sys.claimed, hent]
  have hadm := h.admissible hent
  have hT := h.tiled
  have hfits := h.fits
  rw [hends] at hfits
  refine ⟨⟨hT.sequencer, hT.indexer, hT.seq, hT.idx, hT.admissible⟩, h.le, hfits, h.complete, ?_, h.stored,
    fun {j u} hu hle => ?_, fun hp i hi hle => h.mapped hp (hclaimed ▸ hi) (hclaimed ▸ hle)⟩
  · rintro e ph ⟨⟩
    exact hadm
  · have hle' : y.log.sequencer + getSize e ≤ u.seq + c.rgSize := hle
    have hj : j < y.slots.length := (List.getElem?_eq_some_iff.mp hu).1
    have hseq : (y.state.reserve c e).log.sequencer = y.log.sequencer + getSize e := rfl
    refine holds_content_congr (h.shown hu (hends ▸ hle')) fun x hx => ?_
    exact appendStep_mem_eq_of_window (w := y.log.sequencer + getSize e - c.rgSize) hT (.reserve e hadm)
      (show j ≠ y.slots.length by omega) hu (by omega) (fun t ht => by simp at ht) (by omega) hx

theorem pos_length (h : Tiled y.state) : pos entrySize y.state.entries y.slots.length = y.log.sequencer := by
  rw [pos_of_length_le (by simp [Sys.state, State.entries])]
  exact h.sequencer.symm

theorem Ok.map (h : Ok c y) (hent : y.entering = some (e, .cleared)) :
    Ok c { y with
      log := { y.log with
        idxToSeq :=
          if c.isPrimary then Function.update y.log.idxToSeq (y.log.indexer % c.idxMapElemCnt) y.log.sequencer
          else y.log.idxToSeq }
      entering := some (e, .mapped) } := by
  have hends := ends_of_some hent
  have hclaimed : y.claimed = y.slots.length := by rw [Sys.claimed, hent]
  have hadm := h.admissible hent
  have hT := h.tiled
  have hfits := h.fits
  rw [hends] at hfits
  refine ⟨⟨hT.sequencer, hT.indexer, hT.seq, hT.idx, hT.admissible⟩, h.le, hfits, h.complete, ?_, h.stored,
    fun hu hle => h.shown hu (hends ▸ hle), fun hp i hi hle => ?_⟩
  · rintro e ph ⟨⟩
    exact hadm
  · have hidx : y.log.indexer = y.slots.length := hT.indexer
    have hi' : i < y.slots.length + 1 := hi
    have hle' : y.slots.length + 1 ≤ i + c.idxMapElemCnt := hle
    simp only [hp, if_true, hidx]
    rcases Nat.lt_succ_iff_lt_or_eq.mp hi' with hlt | rfl
    · have hne : i % c.idxMapElemCnt ≠ y.slots.length % c.idxMapElemCnt := by
        intro heq
        have := mod_inj_of_window (w := i) (Nat.le_refl i) (by omega) (by omega) (by omega) heq
        omega
      rw [Function.update_of_ne hne]
      exact h.mapped hp (by omega) (by omega)
    · rw [Function.update_self]
      exact (pos_length hT).symm

theorem Ok.index (h : Ok c y) (hent : y.entering = some (e, .mapped)) :
    Ok c { y with entering := some (e, .indexed) } := by
  have hends := ends_of_some hent
  have hclaimed : y.claimed = y.slots.length + 1 := by rw [Sys.claimed, hent]
  have hadm := h.admissible hent
  have hfits := h.fits
  rw [hends] at hfits
  refine ⟨h.tiled, h.le, hfits, h.complete, ?_, h.stored, fun hu hle => h.shown hu (hends ▸ hle),
    fun hp i hi hle => h.mapped hp (hclaimed ▸ hi) (hclaimed ▸ hle)⟩
  rintro e ph ⟨⟩
  exact hadm

theorem Ok.leave (h : Ok c y) (hent : y.entering = some (e, .indexed)) :
    Ok c { y with
      log := { y.log with indexer := y.log.indexer + 1, sequencer := y.log.sequencer + getSize e }
      slots := y.slots ++ [⟨stamp c y.log.indexer e, y.log.sequencer, y.log.indexer, .reserved⟩]
      entering := none } := by
  have hends := ends_of_some hent
  have hclaimed : y.claimed = y.slots.length + 1 := by rw [Sys.claimed, hent]
  have hadm := h.admissible hent
  have hT := h.tiled.reserve (c := c) hadm
  have hfits := h.fits
  rw [hends] at hfits
  refine ⟨⟨hT.sequencer, hT.indexer, hT.seq, hT.idx, hT.admissible⟩, h.le.trans (Nat.le_add_right _ _), hfits,
    fun u hu hlt => ?_, nofun, fun j hj => ?_, fun {j u} hu hle => ?_, fun hp j hj hle => ?_⟩
  · obtain ⟨j, hj⟩ := List.mem_iff_getElem?.mp hu
    rcases slots_reserve_cases (s := y.state) hj with ⟨-, rfl⟩ | hj
    · exact absurd hlt (Nat.not_lt.mpr h.le)
    · exact h.complete u (List.mem_of_getElem? hj) hlt
  · refine h.stored j ?_
    simp only [List.length_append, List.length_singleton] at hj
    omega
  · rcases slots_reserve_cases (s := y.state) hu with ⟨rfl, rfl⟩ | hu
    · have hzero : content y.stored y.slots.length
          ⟨stamp c y.log.indexer e, y.log.sequencer, y.log.indexer, .reserved⟩ = [] := by
        simp [content, h.stored _ (Nat.le_refl _)]
      exact hzero ▸ rfl
    · exact h.shown hu (hends ▸ hle)
  · have hlen : (y.slots ++ [(⟨stamp c y.log.indexer e, y.log.sequencer, y.log.indexer, .reserved⟩ : Slot)]).length =
        y.claimed := by simp [hclaimed]
    have hj' : j < y.claimed := hlen ▸ hj
    have hentries : (y.state.reserve c e).entries = y.state.entries ++ [stamp c y.log.indexer e] :=
      entries_reserve c y.state e
    refine (h.mapped hp hj' (hlen ▸ hle)).trans (Eq.trans ?_ (congrArg (pos entrySize · j) hentries.symm))
    refine (pos_append_of_le ?_).symm
    simp only [Sys.state, State.entries, List.length_map]
    omega

/-! ### The steps of a call outside -/

theorem Ok.disjoint (h : Ok c y) {j x : ℕ} {u : Slot} (ht : y.slots[i]? = some t) (hc : ¬ t.Complete c)
    (hu : y.slots[j]? = some u) (hji : j ≠ i) (hle : y.ends ≤ u.seq + c.rgSize)
    (hx : Footprint c.rgSize u.seq (entrySize u.e) x) : ¬ Footprint c.rgSize t.seq (entrySize t.e) x := by
  have hw := h.window (List.mem_of_getElem? ht) hc
  have hseq := sequencer_le_ends y
  exact h.tiled.footprint_disjoint hji hu ht (w := y.ends - c.rgSize) (by omega) hw
    (show y.log.sequencer ≤ _ by omega) hx

theorem not_complete_of_reserved (h : t.stage = .reserved) : ¬ t.Complete c := by
  simp [Slot.Complete, Slot.Finished, h]

theorem Ok.store {n : ℕ} (h : Ok c y) (ht : y.slots[i]? = some t) (hst : t.stage = .reserved)
    (hn : y.stored i + n ≤ (encode t.e).length) :
    Ok c { y with
      log := { y.log with
        mem := writeBytes y.log.mem (t.seq % c.rgSize + y.stored i) (((encode t.e).drop (y.stored i)).take n) }
      stored := Function.update y.stored i (y.stored i + n) } := by
  have hT := h.tiled
  have hi := (List.getElem?_eq_some_iff.mp ht).1
  have hlen : (((encode t.e).drop (y.stored i)).take n).length = n := by
    rw [List.length_take, List.length_drop]
    omega
  refine ⟨⟨hT.sequencer, hT.indexer, hT.seq, hT.idx, hT.admissible⟩, h.le, h.fits, h.complete, h.admissible,
    fun j hj => ?_, fun {j u} hu hle => ?_, h.mapped⟩
  · have hj' : y.slots.length ≤ j := hj
    exact (Function.update_of_ne (show j ≠ i by omega) _ _).trans (h.stored j hj')
  · have hold := h.shown hu hle
    simp only
    rcases eq_or_ne j i with rfl | hji
    · obtain rfl : t = u := Option.some.inj (ht.symm.trans hu)
      -- the bytes stored before, and those stored now
      have htake : ((encode t.e).take (y.stored j)).length = y.stored j := by
        rw [List.length_take]
        omega
      have hnew : content (Function.update y.stored j (y.stored j + n)) j t =
          (encode t.e).take (y.stored j) ++ ((encode t.e).drop (y.stored j)).take n := by
        simp [content, hst, List.take_add]
      have hcur : content y.stored j t = (encode t.e).take (y.stored j) := by simp [content, hst]
      rw [hcur] at hold
      rw [hnew, holds_append, htake]
      refine ⟨hold.congr fun k hk => writeBytes_of_notMem (Or.inl ?_), holds_writeBytes _ _ _⟩
      rw [htake] at hk
      omega
    · have hsame : content (Function.update y.stored i (y.stored i + n)) j u = content y.stored j u := by
        unfold content
        rw [Function.update_of_ne hji]
      rw [hsame]
      refine holds_content_congr hold fun x hx => writeBytes_of_notMem ?_
      by_contra hcon
      rw [hlen] at hcon
      have hsize := length_encode_le t.e
      exact h.disjoint ht (not_complete_of_reserved hst) hu hji hle hx
        ⟨x - t.seq % c.rgSize, by omega, Or.inr (by omega)⟩

theorem Ok.serialised (h : Ok c y) (ht : y.slots[i]? = some t) (hst : t.stage = .reserved)
    (hall : y.stored i = (encode t.e).length) :
    Ok c { y with slots := y.slots.set i { t with stage := .serialised } } := by
  have hput := h.tiled.put ht .serialised (l := y.log) rfl rfl
  have hlen : (y.slots.set i { t with stage := Stage.serialised }).length = y.slots.length := List.length_set
  have hclaimed : Sys.claimed { y with slots := y.slots.set i { t with stage := Stage.serialised } } = y.claimed := by
    unfold Sys.claimed
    simp only [hlen]
  refine ⟨hput, h.le, h.fits, fun u hu hlt => ?_, h.admissible, fun j hj => h.stored j (hlen ▸ hj),
    fun {j u} hu hle => ?_, fun hp j hj hle => ?_⟩
  · obtain ⟨j, hj⟩ := List.mem_iff_getElem?.mp hu
    rcases slots_put_cases (l := y.log) (s := y.state) ht hj with ⟨-, rfl⟩ | ⟨-, hj⟩
    · exact absurd (h.complete t (List.mem_of_getElem? ht) hlt) (not_complete_of_reserved hst)
    · exact h.complete u (List.mem_of_getElem? hj) hlt
  · rcases slots_put_cases (l := y.log) (s := y.state) ht hu with ⟨rfl, rfl⟩ | ⟨-, hu⟩
    · have hold := h.shown ht hle
      rw [content, hst] at hold
      simp only [hall, List.take_length] at hold
      exact hold
    · exact h.shown hu hle
  · rw [hclaimed] at hj hle
    exact (h.mapped hp hj hle).trans (congrArg (pos entrySize · j) (entries_put (s := y.state) ht _ y.log).symm)

/-- **A step of a call** on what the region shows of its own entry. -/
theorem appendStep_content {s : State} (hT : Tiled y.state) (hs : AppendStep c i y.state s)
    (ht : y.slots[i]? = some t) (hst : t.stage ≠ .reserved) {t' : Slot} (ht' : s.slots[i]? = some t')
    (h : Holds y.log.mem (t.seq % c.rgSize) (content y.stored i t)) :
    Holds s.log.mem (t'.seq % c.rgSize) (content y.stored i t') := by
  have hput : ∀ {u : Slot} {st : Stage} {l : FlatLog}, y.state.slots[i]? = some u →
      (y.state.put i u st l).slots[i]? = some t' → u = t ∧ t' = { t with stage := st } := by
    intro u st l hu hu'
    rw [slots_put_self hu] at hu'
    obtain rfl : t = u := Option.some.inj (ht.symm.trans hu)
    exact ⟨rfl, (Option.some.inj hu').symm⟩
  cases hs with
  | reserve e he =>
    have hlt := (List.getElem?_eq_some_iff.mp ht).1
    exact absurd hlt (Nat.lt_irrefl _)
  | serialise hu hst' =>
    obtain ⟨rfl, -⟩ := hput hu ht'
    exact absurd hst' hst
  | raiseFlag hu hst' =>
    obtain ⟨rfl, rfl⟩ := hput hu ht'
    simp only [content, hst'] at h
    exact holds_encode_setFlag h 1
  | copyOverflow hu hst' =>
    obtain ⟨rfl, rfl⟩ := hput hu ht'
    have hfit := (hT.admissible ht).fits
    have hrg := c.le_rgSize
    simp only [content, hst'] at h
    exact (holds_copyOverflow (by unfold msgSize at hfit; omega) (length_encode_written_le _) h).1
  | insertReqid hu hst' =>
    obtain ⟨rfl, rfl⟩ := hput hu ht'
    simp only [content, hst'] at h
    rw [State.put, (insertReqid_counters c _ _ _).2.2.2.1]
    exact h

theorem Ok.proceed {s : State} (h : Ok c y) (ht : y.slots[i]? = some t) (hst : t.stage ≠ .reserved)
    (hs : AppendStep c i y.state s) : Ok c { y with log := s.log, slots := s.slots } := by
  have hi : i < y.state.slots.length := (List.getElem?_eq_some_iff.mp ht).1
  have hT := h.tiled
  have hmap := SpecRead.appendStep_idxToSeq hs hi
  have hown : ∀ u, s.slots[i]? = some u → Holds y.log.mem (t.seq % c.rgSize) (content y.stored i t) →
      Holds s.log.mem (u.seq % c.rgSize) (content y.stored i u) := fun _ => appendStep_content hT hs ht hst
  obtain ⟨v, st, l, hv, rfl, hcomp, hq, hw, hidx, -⟩ := appendStep_complete hs hi
  obtain rfl : t = v := Option.some.inj (ht.symm.trans hv)
  have hseq : l.sequencer = y.log.sequencer := hq
  have hwm : l.orderedWatermk = y.log.orderedWatermk := hw
  have hle := sequencer_le_ends y
  have hfits := h.fits
  have hends : Sys.ends { y with log := (y.state.put i t st l).log, slots := (y.state.put i t st l).slots } =
      y.ends := ends_congr rfl hseq
  have hlen : (y.state.put i t st l).slots.length = y.slots.length := by simp [State.put, Sys.state]
  have hclaimed : Sys.claimed { y with log := (y.state.put i t st l).log, slots := (y.state.put i t st l).slots } =
      y.claimed := by
    unfold Sys.claimed
    simp only [hlen]
  refine ⟨hT.appendStep hs, ?_, ?_, fun u hu hlt => ?_, h.admissible, fun j hj => h.stored j (hlen ▸ hj),
    fun {j u} hu hle' => ?_, fun hp j hj hle' => ?_⟩
  · show l.orderedWatermk ≤ l.sequencer
    rw [hwm, hseq]
    exact h.le
  · rw [hends]
    show _ < l.orderedWatermk + _
    rw [hwm]
    exact hfits
  · have hlt' : u.seq < y.log.orderedWatermk := hwm ▸ hlt
    obtain ⟨j, hj⟩ := List.mem_iff_getElem?.mp hu
    rcases slots_put_cases (l := l) ht hj with ⟨-, rfl⟩ | ⟨-, hj⟩
    · exact hcomp (h.complete t (List.mem_of_getElem? ht) hlt')
    · exact h.complete u (List.mem_of_getElem? hj) hlt'
  · rw [hends] at hle'
    rcases eq_or_ne j i with rfl | hji
    · refine hown u hu (h.shown ht ?_)
      rw [slots_put_self ht] at hu
      cases hu
      exact hle'
    · have hu' : y.slots[j]? = some u := by
        rw [slots_put_ne hji] at hu
        exact hu
      refine holds_content_congr (h.shown hu' hle') fun x hx => ?_
      exact appendStep_mem_eq_of_window (w := y.ends - c.rgSize) hT hs hji hu' (by omega)
        (fun v hv hnc => h.window (List.mem_of_getElem? hv) hnc) (show l.sequencer ≤ _ by omega) hx
  · rw [hclaimed] at hj hle'
    have hentries := entries_put (s := y.state) ht st l
    have hmap' : l.idxToSeq = y.log.idxToSeq := hmap
    show l.idxToSeq _ = pos entrySize (y.state.put i t st l).entries j
    rw [hmap', hentries]
    exact h.mapped hp hj hle'

theorem Ok.step (h : Ok c y) (hs : Step c idx e₀ y y') : Ok c y' := by
  cases hs with
  | enter e he hfree hfits => exact h.enter he hfree hfits
  | clear hent => exact h.clear hent
  | map hent => exact h.map hent
  | index hent => exact h.index hent
  | leave hent => exact h.leave hent
  | store n ht hst hn => exact h.store ht hst hn
  | serialised ht hst hall => exact h.serialised ht hst hall
  | proceed ht hst hs => exact h.proceed ht hst hs
  | setWatermk w wi hle hfits hcomplete =>
    exact ⟨h.tiled.setWatermk w wi, hle, hfits, hcomplete, h.admissible, h.stored, h.shown, h.mapped⟩
  | read => exact ⟨h.tiled, h.le, h.fits, h.complete, h.admissible, h.stored, h.shown, h.mapped⟩

theorem ok_of_reach (h : Reach Start (Step c idx e₀) y) : Ok c y :=
  h.invariant (fun _ hs => Ok.start hs) fun _ _ _ hI hs => hI.step hs

/-! ### The bytes of an entry -/

theorem holds_loaded (got : List UInt8) : Holds (loaded got) 0 got :=
  holds_iff.mpr fun i _ => by rw [Nat.zero_add]; rfl

theorem holds_header_of_isPrefix {got : List UInt8} (h : got <+: encode e) (hle : metaDataSize ≤ got.length) :
    Holds (loaded got) 0 (header e) := by
  obtain ⟨rest, hrest⟩ : header e <+: got :=
    List.prefix_of_prefix_length_le (List.prefix_append _ _) h (by rw [length_header]; exact hle)
  have hgot := holds_loaded got
  rw [← hrest] at hgot ⊢
  exact hgot.left

/-- **`Deserializer` loads the entry and stops**, if the bytes it gets are those of an entry with a flag. -/
theorem needed_of_isPrefix {got : List UInt8} (h : got <+: encode e) (hs : e.Sized) (hf : e.flags ≠ 0) :
    needed got ≤ (encode e).length ∧ (got.length = needed got → got = encode e) := by
  have hsize : e.size.toNat = e.data.length := hs
  unfold needed
  split_ifs with h1 h2
  · rw [length_encode]
    exact ⟨Nat.le_add_right _ _, fun heq => absurd heq (Nat.ne_of_lt h1)⟩
  · rw [getFlagFromBuf_of_holds (holds_header_of_isPrefix h (not_lt.mp h1))] at h2
    exact absurd h2 hf
  · have hload : load (loaded got) 24 4 = e.size.toNat := by
      have := (holds_header (holds_header_of_isPrefix h (not_lt.mp h1))).2.2.2.1
      rwa [Nat.zero_add] at this
    rw [hload, hsize, ← length_encode]
    exact ⟨Nat.le_refl _, fun heq => h.eq_of_length heq⟩

theorem needed_encode (hs : e.Sized) (hf : e.flags ≠ 0) : needed (encode e) = (encode e).length := by
  have hh : Holds (loaded (encode e)) 0 (header e) := (holds_loaded (encode e)).left
  have hload := (holds_header hh).2.2.2.1
  have hsize : e.size.toNat = e.data.length := hs
  rw [Nat.zero_add] at hload
  unfold needed
  rw [if_neg (by rw [length_encode]; omega), getFlagFromBuf_of_holds hh, if_neg hf, hload, hsize, length_encode]

theorem prefix_load {m : Mem} {offset n : ℕ} {got bs : List UInt8} (h : got <+: bs) (hm : Holds m offset bs)
    (hn : got.length + n ≤ bs.length) : got ++ readBytes m (offset + got.length) n <+: bs := by
  obtain ⟨rest, rfl⟩ := h
  rw [List.length_append] at hn
  have hread : readBytes m (offset + got.length) rest.length = rest := hm.right
  have htake : readBytes m (offset + got.length) n = rest.take n := by
    obtain ⟨k, hk⟩ := Nat.exists_eq_add_of_le (Nat.le_of_add_le_add_left hn)
    rw [hk, readBytes_add] at hread
    rw [← hread, List.take_left' (length_readBytes ..)]
  rw [htake]
  exact List.prefix_append_right_inj got |>.mpr (List.take_prefix n rest)

/-! ### What a read knows -/

/-- What the first comparisons leave to rely on: the place of the entry, if the map has not gone on too far, and the
margin of the ring. -/
structure Guarded (c : Config) (idx : ℕ) (y : Sys) (r : Reader) (seq : ℕ) : Prop where
  idx_pos : 0 < idx
  located : r.Steady → idx ≤ y.slots.length ∧ seq = pos entrySize y.state.entries idx
  margin : r.curSeq ≤ c.rgSize ∨ r.curSeq + 2 ^ 18 < seq + c.rgSize
  dvd : 4 ∣ r.curSeq

/-- The entry stood complete in the region when the read came to it, and still does. -/
def Trusted (c : Config) (idx : ℕ) (y : Sys) (r : Reader) : Prop :=
  r.Steady ∧ r.Flagged ∧ y.ends ≤ pos entrySize y.state.entries idx + c.rgSize

/-- What is known at each place of the read. -/
def PcOk (c : Config) (idx : ℕ) (y : Sys) (r : Reader) : Prop :=
  match r.pc with
  | .start => True
  | .low => (sub64 r.first c.idxMapElemCnt + 64) % 2 ^ 64 < idx ∧ r.first ≤ y.seen.indexer
  | .inRange => 0 < idx ∧ r.first + 64 < idx + c.idxMapElemCnt ∧ idx < y.seen.indexer
  | .mapped seq => 0 < idx ∧ (r.Steady → idx ≤ y.slots.length ∧ seq = pos entrySize y.state.entries idx)
  | .sequenced seq => Guarded c idx y r seq
  | .loading offset got => ∃ seq, offset = seq % c.rgSize ∧ Guarded c idx y r seq ∧
    (r.Flagged → ∃ t, y.slots[idx]? = some t ∧ t.Flagged) ∧
    (Trusted c idx y r → ∃ x, y.state.entries[idx]? = some x ∧ got <+: encode (raised x))
  | .returned e v => 0 < v → ∃ seq, Guarded c idx y r seq ∧
    (Trusted c idx y r → ∃ x, y.state.entries[idx]? = some x ∧ e = raised x)

/-- What the other threads do to the log: it only grows. -/
structure Grows (y y' : Sys) : Prop where
  entries : y.state.entries <+: y'.state.entries
  flagged : ∀ {i : ℕ} {t : Slot}, y.slots[i]? = some t → t.Flagged → ∃ t', y'.slots[i]? = some t' ∧ t'.Flagged
  sequencer : y.log.sequencer ≤ y'.log.sequencer
  ends : y.ends ≤ y'.ends
  indexer : y.seen.indexer ≤ y'.seen.indexer

theorem length_entries (y : Sys) : y.state.entries.length = y.slots.length := by simp [Sys.state, State.entries]

theorem Grows.length (h : Grows y y') : y.slots.length ≤ y'.slots.length := by
  have := h.entries.length_le
  rwa [length_entries, length_entries] at this

theorem Grows.pos_eq (h : Grows y y') {k : ℕ} (hk : k ≤ y.slots.length) :
    pos entrySize y'.state.entries k = pos entrySize y.state.entries k := by
  obtain ⟨rest, hrest⟩ := h.entries
  rw [← hrest]
  exact pos_append_of_le (by rwa [length_entries])

theorem getElem?_of_isPrefix {α : Type*} {xs ys : List α} {x : α} {k : ℕ} (h : xs <+: ys) (hx : xs[k]? = some x) :
    ys[k]? = some x := by
  obtain ⟨rest, rfl⟩ := h
  rw [List.getElem?_append_left (List.getElem?_eq_some_iff.mp hx).1, hx]

section Grow

variable {k seq : ℕ} {r : Reader} (h : Grows y y')
include h

theorem located_grow (hl : r.Steady → k ≤ y.slots.length ∧ seq = pos entrySize y.state.entries k) (hs : r.Steady) :
    k ≤ y'.slots.length ∧ seq = pos entrySize y'.state.entries k := by
  obtain ⟨hle, hseq⟩ := hl hs
  exact ⟨hle.trans h.length, hseq.trans (h.pos_eq hle).symm⟩

theorem Guarded.grow (hg : Guarded c k y r seq) : Guarded c k y' r seq :=
  ⟨hg.idx_pos, located_grow h hg.located, hg.margin, hg.dvd⟩

theorem Trusted.of_grow (hg : Guarded c k y r seq) (ht : Trusted c k y' r) : Trusted c k y r := by
  obtain ⟨hs, hf, hle⟩ := ht
  rw [h.pos_eq (hg.located hs).1] at hle
  exact ⟨hs, hf, h.ends.trans hle⟩

theorem PcOk.grow (hok : PcOk c k y r) : PcOk c k y' r := by
  unfold PcOk at hok ⊢
  cases hpc : r.pc with
  | start => trivial
  | low =>
    rw [hpc] at hok
    exact ⟨hok.1, hok.2.trans h.indexer⟩
  | inRange =>
    rw [hpc] at hok
    exact ⟨hok.1, hok.2.1, hok.2.2.trans_le h.indexer⟩
  | mapped seq =>
    rw [hpc] at hok
    exact ⟨hok.1, located_grow h hok.2⟩
  | sequenced seq =>
    rw [hpc] at hok
    exact hok.grow h
  | loading offset got =>
    rw [hpc] at hok
    obtain ⟨seq, hofs, hg, hf, ht⟩ := hok
    refine ⟨seq, hofs, hg.grow h, fun hflag => ?_, fun htr => ?_⟩
    · obtain ⟨t, ht, hset⟩ := hf hflag
      exact h.flagged ht hset
    · obtain ⟨x, hx, hpre⟩ := ht (Trusted.of_grow h hg htr)
      exact ⟨x, getElem?_of_isPrefix h.entries hx, hpre⟩
  | returned e v =>
    rw [hpc] at hok
    intro hv
    obtain ⟨seq, hg, ht⟩ := hok hv
    refine ⟨seq, hg.grow h, fun htr => ?_⟩
    obtain ⟨x, hx, he⟩ := ht (Trusted.of_grow h hg htr)
    exact ⟨x, getElem?_of_isPrefix h.entries hx, he⟩

end Grow

theorem appendStep_flagged {s : State} (hs : AppendStep c i y.state s) (hi : i < y.slots.length) {j : ℕ} {u : Slot}
    (hu : y.slots[j]? = some u) (hf : u.Flagged) : ∃ u', s.slots[j]? = some u' ∧ u'.Flagged := by
  have hput : ∀ {t : Slot} {st : Stage} {l : FlatLog}, y.state.slots[i]? = some t →
      (t.Flagged → Slot.Flagged { t with stage := st }) →
      ∃ u', (y.state.put i t st l).slots[j]? = some u' ∧ u'.Flagged := by
    intro t st l ht hst
    rcases eq_or_ne j i with rfl | hji
    · obtain rfl : u = t := Option.some.inj (hu.symm.trans ht)
      exact ⟨_, slots_put_self ht st l, hst hf⟩
    · exact ⟨u, (slots_put_ne hji t st l).trans hu, hf⟩
  cases hs with
  | reserve e he => exact absurd hi (Nat.lt_irrefl _)
  | serialise ht hst =>
    refine hput ht fun h => ?_
    simp [Slot.Flagged, Slot.Finished, hst] at h
  | raiseFlag ht hst => exact hput ht fun _ => Or.inl rfl
  | copyOverflow ht hst => exact hput ht fun _ => Or.inr (Or.inl rfl)
  | insertReqid ht hst => exact hput ht fun _ => Or.inr (Or.inr rfl)

/-- **What a step of another thread does.** -/
theorem grows_of_step (hs : Step c idx e₀ y y') : y'.reader = y.reader ∧ Grows y y' ∨
    ∃ r, y' = { y with reader := r } ∧
      ReadStep c idx e₀ y.seen (y.slots[idx.toNat]?.map Slot.stage) y.reader r := by
  have hsame : ∀ {i : ℕ} {t : Slot}, y.slots[i]? = some t → t.Flagged → ∃ t', y.slots[i]? = some t' ∧ t'.Flagged :=
    fun ht hf => ⟨_, ht, hf⟩
  have hrefl := List.prefix_refl y.state.entries
  have hfree : ∀ {e : LogEntry} {ph : Phase}, y.entering = some (e, ph) → ph ≠ .indexed → y.seen = y.log := by
    intro e ph hent hph
    unfold Sys.seen
    rw [hent]
    cases ph <;> first | rfl | exact absurd rfl hph
  cases hs with
  | enter e he hnone hfits =>
    refine Or.inl ⟨rfl, hrefl, hsame, Nat.le_refl _, ?_, ?_⟩
    · exact (ends_of_none hnone).trans_le (Nat.le_add_right _ _)
    · have hseen : y.seen = y.log := by rw [Sys.seen, hnone]
      exact hseen ▸ Nat.le_refl _
  | clear hent =>
    exact Or.inl ⟨rfl, hrefl, hsame, Nat.le_refl _, (ends_of_some hent).le, hfree hent nofun ▸ Nat.le_refl _⟩
  | map hent =>
    exact Or.inl ⟨rfl, hrefl, hsame, Nat.le_refl _, (ends_of_some hent).le, hfree hent nofun ▸ Nat.le_refl _⟩
  | index hent =>
    exact Or.inl ⟨rfl, hrefl, hsame, Nat.le_refl _, (ends_of_some hent).le, hfree hent nofun ▸ Nat.le_succ _⟩
  | @leave e hent =>
    refine Or.inl ⟨rfl, ?_, fun {j t} ht hf => ⟨t, ?_, hf⟩, Nat.le_add_right _ _, (ends_of_some hent).le, ?_⟩
    · have hentries := entries_reserve c y.state e
      exact ⟨[stamp c y.log.indexer e], hentries.symm⟩
    · exact (List.getElem?_append_left (List.getElem?_eq_some_iff.mp ht).1).trans ht
    · have hseen : y.seen.indexer = y.log.indexer + 1 := by rw [Sys.seen, hent]
      exact hseen.le
  | store n ht hst hn =>
    exact Or.inl ⟨rfl, hrefl, hsame, Nat.le_refl _, Nat.le_refl _,
      Nat.le_of_eq (Eq.symm (seen_indexer_congr rfl rfl))⟩
  | @serialised i t ht hst hall =>
    refine Or.inl ⟨rfl, ?_, fun {j u} hu hf => ⟨u, ?_, hf⟩, Nat.le_refl _, Nat.le_refl _, Nat.le_refl _⟩
    · exact (entries_put (s := y.state) ht .serialised y.log) ▸ List.prefix_refl _
    · have hji : j ≠ i := by
        rintro rfl
        obtain rfl : t = u := Option.some.inj (ht.symm.trans hu)
        simp [Slot.Flagged, Slot.Finished, hst] at hf
      exact (slots_put_ne (s := y.state) hji t .serialised y.log).trans hu
  | @proceed i t s ht hst hs =>
    have hi := (List.getElem?_eq_some_iff.mp ht).1
    have hflag := fun {j : ℕ} {u : Slot} => appendStep_flagged hs hi (j := j) (u := u)
    obtain ⟨v, st, l, hv, rfl, -, hq, -, hidx, -⟩ := appendStep_complete hs hi
    refine Or.inl ⟨rfl, (entries_put hv st l) ▸ List.prefix_refl _, hflag, hq.ge, ?_, ?_⟩
    · exact Nat.le_of_eq (Eq.symm (ends_congr rfl hq))
    · exact Nat.le_of_eq (Eq.symm (seen_indexer_congr rfl hidx))
  | setWatermk w wi hle hfits hcomplete =>
    exact Or.inl ⟨rfl, hrefl, hsame, Nat.le_refl _, Nat.le_refl _,
      Nat.le_of_eq (Eq.symm (seen_indexer_congr rfl rfl))⟩
  | read h => exact Or.inr ⟨_, rfl, h⟩

/-! ### The steps of the read -/

theorem seen_eq (y : Sys) : y.seen.mem = y.log.mem ∧ y.seen.idxToSeq = y.log.idxToSeq ∧
    y.seen.sequencer = y.log.sequencer := by
  unfold Sys.seen
  split <;> exact ⟨rfl, rfl, rfl⟩

/-- The map is at most one entry ahead of the indexer, and never behind. -/
theorem Ok.claimed (h : Ok c y) :
    y.seen.indexer ≤ y.claimed ∧ y.claimed ≤ y.seen.indexer + 1 ∧ y.claimed ≤ y.slots.length + 1 := by
  have hidx : y.log.indexer = y.slots.length := h.tiled.indexer
  unfold Sys.seen Sys.claimed
  rcases y.entering with _ | ⟨e, ph⟩
  · simp only
    omega
  · cases ph <;> simp only <;> omega

theorem four_dvd_sequencer (h : Tiled y.state) : 4 ∣ y.log.sequencer := by
  rw [← pos_length h]
  exact dvd_pos _ _

theorem content_of_flagged (h : t.Flagged) (stored : ℕ → ℕ) : content stored i t = encode (raised t.e) := by
  unfold SpecRace.content
  rcases h with h | h | h <;> rw [h] <;> rfl

theorem flagged_of_seen {r : Reader} (h : r.Flagged) (hseen : r.seen = y.slots[i]?.map Slot.stage) :
    ∃ t, y.slots[i]? = some t ∧ t.Flagged := by
  rcases h with h | h | h <;> rw [h] at hseen <;> obtain ⟨t, ht, hst⟩ := Option.map_eq_some_iff.mp hseen.symm
  · exact ⟨t, ht, Or.inl hst⟩
  · exact ⟨t, ht, Or.inr (Or.inl hst)⟩
  · exact ⟨t, ht, Or.inr (Or.inr hst)⟩

/-- **A step of the read.** -/
theorem PcOk.read {r : Reader} (h : PcOk c idx.toNat y y.reader) (hok : Ok c y) (hp : c.isPrimary = true)
    (hlt : y.log.sequencer < 2 ^ 64)
    (hs : ReadStep c idx e₀ y.seen (y.slots[idx.toNat]?.map Slot.stage) y.reader r) : PcOk c idx.toNat y r := by
  have hT := hok.tiled
  have hlen : y.slots.length < 2 ^ 63 := hT.length_lt hlt
  obtain ⟨hmem, hmap, hseq⟩ := seen_eq y
  obtain ⟨hc1, hc2, hc3⟩ := hok.claimed
  have hcnt : c.idxMapElemCnt < 2 ^ 31 := lt_of_le_of_lt (Nat.div_le_self _ _) c.rgSize_lt
  unfold PcOk at h
  cases hs with
  | first hpc hlow => exact ⟨hlow, Nat.le_refl _⟩
  | tooLow | beyond | inTheWay | otherIdx =>
    intro hpos
    omega
  | second hpc hidx =>
    rw [hpc] at h
    obtain ⟨hlow, hfirst⟩ := h
    -- the difference has not wrapped, for then no index would be above it
    have hno : c.idxMapElemCnt ≤ y.reader.first + 64 := by
      by_contra hwrap
      unfold sub64 at hlow
      omega
    unfold sub64 at hlow
    exact ⟨by omega, by show y.reader.first + 64 < _; omega, hidx⟩
  | lookUp hpc =>
    rw [hpc] at h
    obtain ⟨hpos, hfirst, hidx⟩ := h
    refine ⟨hpos, fun hsteady => ?_⟩
    have hsteady' : y.seen.indexer ≤ y.reader.first + 64 := hsteady
    rw [hmap]
    exact ⟨by omega, hok.mapped hp (by omega) (by omega)⟩
  | third hpc hway =>
    rw [hpc] at h
    rw [inTheWay_iff (by rw [hseq]; exact hlt), hseq, not_and_or] at hway
    refine ⟨h.1, h.2, ?_, hseq ▸ four_dvd_sequencer hT⟩
    show y.seen.sequencer ≤ _ ∨ y.seen.sequencer + _ < _
    rw [hseq]
    omega
  | getIdx hpc hidx =>
    rw [hpc] at h
    refine ⟨_, rfl, ⟨h.idx_pos, h.located, h.margin, h.dvd⟩, fun hf => flagged_of_seen hf rfl, fun ht => ?_⟩
    obtain ⟨t, ht, -⟩ := flagged_of_seen (y := y) ht.2.1 rfl
    exact ⟨t.e, getElem?_entries ht, List.nil_prefix⟩
  | @load offset got n hpc hn =>
    rw [hpc] at h
    obtain ⟨seq, rfl, hg, hf, ht⟩ := h
    refine ⟨seq, rfl, ⟨hg.idx_pos, hg.located, hg.margin, hg.dvd⟩, hf, fun htr => ?_⟩
    obtain ⟨x, hx, hpre⟩ := ht htr
    refine ⟨x, hx, ?_⟩
    obtain ⟨hsteady, hflag, hends⟩ := htr
    obtain ⟨t, hslot, hset⟩ := hf hflag
    obtain rfl : x = t.e := Option.some.inj (hx.symm.trans (getElem?_entries (s := y.state) hslot))
    have hpos : t.seq = pos entrySize y.state.entries idx.toNat := hT.seq hslot
    have hholds := hok.shown hslot (by rw [hpos]; exact hends)
    rw [content_of_flagged hset, hpos, ← (hg.located hsteady).2] at hholds
    have hsized : (raised t.e).Sized := (hT.admissible hslot).sized
    have hneed := (needed_of_isPrefix hpre hsized (by simp [raised])).1
    rw [hmem]
    exact prefix_load hpre hholds (hn.trans hneed)
  | @finish offset got hpc hn =>
    rw [hpc] at h
    obtain ⟨seq, rfl, hg, hf, ht⟩ := h
    intro hpos
    refine ⟨seq, ⟨hg.idx_pos, hg.located, hg.margin, hg.dvd⟩, fun htr => ?_⟩
    obtain ⟨x, hx, hpre⟩ := ht htr
    refine ⟨x, hx, ?_⟩
    obtain ⟨t, hslot, -⟩ := hf htr.2.1
    obtain rfl : x = t.e := Option.some.inj (hx.symm.trans (getElem?_entries (s := y.state) hslot))
    have hsized : (raised t.e).Sized := (hT.admissible hslot).sized
    have hgot := (needed_of_isPrefix hpre hsized (by simp [raised])).2 hn
    have hholds := holds_loaded got
    rw [hgot] at hholds ⊢
    rw [deserializer_of_holds e₀ hholds hsized (by simp [raised])]

theorem pcOk_of_reach (h : Reach Start (Step c idx e₀) y) (hp : c.isPrimary = true) (hlt : y.log.sequencer < 2 ^ 64) :
    PcOk c idx.toNat y y.reader := by
  revert hlt
  refine h.invariant (P := fun y => y.log.sequencer < 2 ^ 64 → PcOk c idx.toNat y y.reader) ?_ ?_
  · intro y hs _
    unfold PcOk
    rw [hs.pc]
    trivial
  · intro y y' hr ih hs hlt
    rcases grows_of_step hs with ⟨hread, hgrow⟩ | ⟨r, rfl, hread⟩
    · rw [hread]
      exact (ih (hgrow.sequencer.trans_lt hlt)).grow hgrow
    · have hgrow : Grows y { y with reader := r } :=
        ⟨List.prefix_refl _, fun ht hf => ⟨_, ht, hf⟩, Nat.le_refl _, Nat.le_refl _, Nat.le_refl _⟩
      exact PcOk.grow hgrow ((ih hlt).read (ok_of_reach hr) hp hlt hread)

/-! ### The margins -/

theorem four_dvd_rgSize (c : Config) : 4 ∣ c.rgSize := ⟨c.mrSizeM * 1024 * 256, by unfold Config.rgSize; omega⟩

theorem Ok.four_dvd_ends (h : Ok c y) : 4 ∣ y.ends := by
  have hseq := four_dvd_sequencer h.tiled
  rcases hent : y.entering with _ | ⟨e, ph⟩
  · rwa [ends_of_none hent]
  · rw [ends_of_some hent, (h.admissible hent).getSize_eq]
    exact Nat.dvd_add hseq (entrySize_dvd e)

theorem le_pos_of_pos {es : List LogEntry} {k : ℕ} (hk : 0 < k) (hle : k ≤ es.length) : 32 ≤ pos entrySize es k := by
  have h := le_totalSize (es.take k)
  rw [List.length_take, Nat.min_eq_left hle] at h
  have hpos : pos entrySize es k = totalSize (es.take k) := rfl
  omega

/-- **A read that is given room is right.** -/
theorem right_of_room (h : Reach Start (Step c idx e₀) y) (hp : c.isPrimary = true) (hlt : y.log.sequencer < 2 ^ 64)
    {r : ℤ} (hpc : y.reader.pc = .returned e r) (hpos : 0 < r) (hsteady : y.reader.Steady) (hflag : y.reader.Flagged)
    (hroom : y.reader.curSeq ≤ c.rgSize ∧ y.ends < y.reader.curSeq + 36 ∨
      c.rgSize < y.reader.curSeq ∧ y.ends < y.reader.curSeq + (2 ^ 18 + 8)) : Right y idx.toNat e := by
  have hok := ok_of_reach h
  have hpcOk := pcOk_of_reach h hp hlt
  unfold PcOk at hpcOk
  rw [hpc] at hpcOk
  obtain ⟨seq, hg, htrust⟩ := hpcOk hpos
  obtain ⟨hle, hseq⟩ := hg.located hsteady
  have hstart := le_pos_of_pos hg.idx_pos (by rw [length_entries]; exact hle)
  have hends : y.ends ≤ pos entrySize y.state.entries idx.toNat + c.rgSize := by
    have h1 := hok.four_dvd_ends
    have h2 := hg.dvd
    have h3 := four_dvd_rgSize c
    have h4 := dvd_pos y.state.entries idx.toNat
    have h5 := hg.margin
    omega
  obtain ⟨x, hx, rfl⟩ := htrust ⟨hsteady, hflag, hends⟩
  obtain ⟨t, ht, rfl⟩ : ∃ t, y.slots[idx.toNat]? = some t ∧ t.e = x := by
    simpa [Sys.state, State.entries] using hx
  exact ⟨t, ht, rfl⟩

/-! ### Runs of a call -/

section Runs

variable {l : FlatLog} {ss : List Slot} {stored : ℕ → ℕ} {r : Reader}

theorem set_concat (u u' : Slot) : (ss ++ [u]).set ss.length u' = ss ++ [u'] := by simp

theorem run_reserve (he : Admissible e) (hfits : l.sequencer + getSize e < l.orderedWatermk + c.rgSize) :
    ReflTransGen (Step c idx e₀) ⟨l, ss, none, stored, r⟩
      ⟨reserve c l e, ss ++ [⟨stamp c l.indexer e, l.sequencer, l.indexer, .reserved⟩], none, stored, r⟩ := by
  have h1 : ReflTransGen (Step c idx e₀) ⟨l, ss, none, stored, r⟩ _ := .single (.enter e he rfl hfits)
  have h2 := h1.tail (.clear rfl)
  have h3 := h2.tail (.map rfl)
  have h4 := h3.tail (.index rfl)
  exact h4.tail (.leave rfl)

theorem run_store {n : ℕ} (hst : t.stage = .reserved) (hzero : stored ss.length = 0) (hn : n ≤ (encode t.e).length) :
    ReflTransGen (Step c idx e₀) ⟨l, ss ++ [t], none, stored, r⟩
      ⟨{ l with mem := writeBytes l.mem (t.seq % c.rgSize) ((encode t.e).take n) }, ss ++ [t], none,
        Function.update stored ss.length n, r⟩ := by
  have h1 : ReflTransGen (Step c idx e₀) ⟨l, ss ++ [t], none, stored, r⟩ _ :=
    .single (.store n List.getElem?_concat_length hst (by simp only [hzero, Nat.zero_add]; exact hn))
  simp only [hzero, Nat.add_zero, Nat.zero_add, List.drop_zero] at h1
  exact h1

theorem run_flag {k : ℕ} (hst : t.stage = .reserved) (hk : stored ss.length = k) (hle : k ≤ (encode t.e).length) :
    ReflTransGen (Step c idx e₀) ⟨l, ss ++ [t], none, stored, r⟩
      ⟨raiseFlag c { l with mem := writeBytes l.mem (t.seq % c.rgSize + k) ((encode t.e).drop k) } t.seq,
        ss ++ [{ t with stage := .flagged }], none, Function.update stored ss.length (encode t.e).length, r⟩ := by
  subst hk
  have h1 : ReflTransGen (Step c idx e₀) ⟨l, ss ++ [t], none, stored, r⟩ _ :=
    .single (.store ((encode t.e).length - stored ss.length) List.getElem?_concat_length hst (by simp only; omega))
  have hdrop : ((encode t.e).drop (stored ss.length)).take ((encode t.e).length - stored ss.length) =
      (encode t.e).drop (stored ss.length) := List.take_of_length_le (by rw [List.length_drop])
  have hsum : stored ss.length + ((encode t.e).length - stored ss.length) = (encode t.e).length := by omega
  simp only [hdrop, hsum] at h1
  have h2 := h1.tail (.serialised List.getElem?_concat_length hst (Function.update_self _ _ _))
  simp only [set_concat] at h2
  have hput := AppendStep.raiseFlag (c := c)
    (s := ⟨{ l with
        mem := writeBytes l.mem (t.seq % c.rgSize + stored ss.length) ((encode t.e).drop (stored ss.length)) },
      ss ++ [{ t with stage := .serialised }]⟩) List.getElem?_concat_length rfl
  have h3 := h2.tail (.proceed List.getElem?_concat_length (by rintro ⟨⟩) hput)
  simp only [State.put, set_concat] at h3
  exact h3

theorem run_return (hst : t.stage = .flagged) :
    ReflTransGen (Step c idx e₀) ⟨l, ss ++ [t], none, stored, r⟩
      ⟨insertReqid c (copyOverflow c l t.e t.seq) t.e t.seq, ss ++ [{ t with stage := .returned }], none, stored,
        r⟩ := by
  have hcopy := AppendStep.copyOverflow (c := c) (s := ⟨l, ss ++ [t]⟩) List.getElem?_concat_length hst
  have h1 : ReflTransGen (Step c idx e₀) ⟨l, ss ++ [t], none, stored, r⟩ _ :=
    .single (.proceed List.getElem?_concat_length (by rw [hst]; rintro ⟨⟩) hcopy)
  simp only [State.put, set_concat] at h1
  have hins := AppendStep.insertReqid (c := c)
    (s := ⟨copyOverflow c l t.e t.seq, ss ++ [{ t with stage := .copied }]⟩) List.getElem?_concat_length rfl
  have h2 := h1.tail (.proceed List.getElem?_concat_length (by rintro ⟨⟩) hins)
  simp only [State.put, set_concat] at h2
  exact h2

theorem run_append (he : Admissible e) (hfits : l.sequencer + getSize e < l.orderedWatermk + c.rgSize)
    (hzero : stored ss.length = 0) :
    ∃ stored', ReflTransGen (Step c idx e₀) ⟨l, ss, none, stored, r⟩
      ⟨(append c ⟨l, ss⟩ e).log, (append c ⟨l, ss⟩ e).slots, none, stored', r⟩ := by
  have h1 : ReflTransGen (Step c idx e₀) ⟨l, ss, none, stored, r⟩ _ := run_reserve he hfits
  have h2 := h1.trans (run_flag rfl hzero (Nat.zero_le _))
  have h3 := h2.trans (run_return rfl)
  refine ⟨Function.update stored ss.length (encode (stamp c l.indexer e)).length, ?_⟩
  simp only [append, appendEntry, serialise, serializer_eq]
  exact h3

end Runs

theorem append_mem_eq {s : State} {x : ℕ} (he : Admissible e)
    (hx : ¬ Footprint c.rgSize s.log.sequencer (entrySize e) x) : (append c s e).log.mem x = s.log.mem x := by
  have hfit := he.fits
  have hrg := c.le_rgSize
  have hx' : ¬ Footprint c.rgSize s.log.sequencer (entrySize (stamp c s.log.indexer e)) x := hx
  unfold append appendEntry
  simp only
  rw [(insertReqid_counters c _ _ _).2.2.2.1,
    footprint_copyOverflow (by rw [entrySize_stamp]; unfold msgSize at hfit; omega) hx']
  refine (footprint_setFlag (metaDataSize_le_entrySize e) hx).trans ?_
  refine (footprint_serializer hx').trans ?_
  exact footprint_setFlag (metaDataSize_le_entrySize e) hx

/-! ### A log at rest -/

/-- All calls have returned, and all entries are collected. -/
structure Calm (c : Config) (idx : UInt64) (e₀ : LogEntry) (y : Sys) : Prop where
  reach : Reach Start (Step c idx e₀) y
  entering : y.entering = none
  returned : ∀ t ∈ y.slots, t.stage = .returned
  mark : y.log.orderedWatermk = y.log.sequencer

theorem run_read {r : Reader}
    (h : ReflTransGen (ReadStep c idx e₀ y.seen (y.slots[idx.toNat]?.map Slot.stage)) y.reader r) :
    ReflTransGen (Step c idx e₀) y { y with reader := r } := by
  induction h with
  | refl => exact .refl
  | tail _ hs ih => exact ih.tail (.read hs)

/-- **A log at rest takes an entry**, and is at rest again. -/
theorem Calm.append (h : Calm c idx e₀ y) (he : Admissible e) :
    ∃ y', Calm c idx e₀ y' ∧ y'.reader = y.reader ∧
      y'.slots = y.slots ++ [⟨stamp c y.slots.length e, y.log.sequencer, y.slots.length, .returned⟩] ∧
      y'.log.sequencer = y.log.sequencer + entrySize e ∧ y'.log.mem = (append c y.state e).log.mem := by
  have hok := ok_of_reach h.reach
  have hidx : y.log.indexer = y.slots.length := hok.tiled.indexer
  have hsize := he.getSize_eq
  have hfit := he.fits
  have hrg := c.le_rgSize
  have hmark := h.mark
  unfold msgSize at hfit
  obtain ⟨stored, hrun⟩ : ∃ stored, ReflTransGen (Step c idx e₀) y
      ⟨(Ring.append c y.state e).log, (Ring.append c y.state e).slots, none, stored, y.reader⟩ := by
    have hent := h.entering
    have hzero := hok.stored y.slots.length (Nat.le_refl _)
    obtain ⟨l, ss, ent, st, r⟩ := y
    subst hent
    exact run_append he (by simp only at hmark; omega) hzero
  obtain ⟨hseq, -⟩ := append_counters c y.state e
  have hall : ∀ t ∈ (Ring.append c y.state e).slots, t.stage = .returned := by
    intro t ht
    rcases List.mem_append.mp ht with ht | ht
    · exact h.returned t ht
    · rw [List.mem_singleton.mp ht]
  have hmove : Step c idx e₀
      ⟨(Ring.append c y.state e).log, (Ring.append c y.state e).slots, none, stored, y.reader⟩ _ :=
    .setWatermk (Ring.append c y.state e).log.sequencer (Ring.append c y.state e).slots.length (Nat.le_refl _)
      (Nat.lt_add_of_pos_right c.rgSize_pos) fun t ht _ => Or.inl (Or.inr (hall t ht))
  refine ⟨_, ⟨h.reach.run (hrun.tail hmove), rfl, hall, rfl⟩, rfl, ?_, hseq.trans (congrArg _ hsize), rfl⟩
  rw [← hidx]
  rfl

/-- **A log at rest takes a list of entries.** -/
theorem Calm.appends (h : Calm c idx e₀ y) {es : List LogEntry} (hes : ∀ e ∈ es, Admissible e) :
    ∃ y', Calm c idx e₀ y' ∧ y'.reader = y.reader ∧ y.slots <+: y'.slots ∧
      y'.slots.length = y.slots.length + es.length ∧ y'.log.sequencer = y.log.sequencer + totalSize es ∧
      ∀ {k : ℕ} {e : LogEntry}, es[k]? = some e → ∃ t, y'.slots[y.slots.length + k]? = some t ∧
        t.e = stamp c (y.slots.length + k) e ∧ t.seq = y.log.sequencer + totalSize (es.take k) := by
  induction es generalizing y with
  | nil => exact ⟨y, h, rfl, List.prefix_refl _, rfl, rfl, by simp⟩
  | cons e es ih =>
    obtain ⟨y₁, hcalm, hread, hslots, hseq, -⟩ := h.append (hes e (List.mem_cons_self ..))
    obtain ⟨y₂, hcalm', hread', hpre, hlen, hseq', hat⟩ := ih hcalm fun e he => hes e (List.mem_cons_of_mem _ he)
    have hlen₁ : y₁.slots.length = y.slots.length + 1 := by simp [hslots]
    refine ⟨y₂, hcalm', hread'.trans hread, (hslots ▸ List.prefix_append _ _ : y.slots <+: y₁.slots).trans hpre, ?_,
      ?_, fun {k} {u} hu => ?_⟩
    · rw [hlen, hlen₁, List.length_cons]
      omega
    · rw [hseq', hseq, totalSize_cons, Nat.add_assoc]
    · cases k with
      | zero =>
        obtain rfl : e = u := by simpa using hu
        have hlast : y₁.slots[y.slots.length]? =
            some ⟨stamp c y.slots.length e, y.log.sequencer, y.slots.length, .returned⟩ := by simp [hslots]
        exact ⟨_, getElem?_of_isPrefix hpre hlast, rfl, by simp⟩
      | succ k =>
        obtain ⟨t, ht, he, hs⟩ := hat (k := k) (by simpa using hu)
        rw [hlen₁, Nat.add_assoc, Nat.add_comm 1] at ht he
        refine ⟨t, ht, he, ?_⟩
        rw [hs, hseq, List.take_succ_cons, totalSize_cons, Nat.add_assoc]

/-- A primary with nothing on it, and a read that is about to start. -/
def blank : Sys := ⟨.zeroed, [], none, fun _ => 0, ⟨.start, 0, 0, 0, none⟩⟩

theorem calm_blank (c : Config) (idx : UInt64) (e₀ : LogEntry) : Calm c idx e₀ blank :=
  ⟨.start ⟨⟨FlatLog.zeroed_fresh, rfl⟩, rfl, rfl, rfl⟩, rfl, nofun, rfl⟩

theorem run_begin (h : Reach Start (Step c idx e₀) y) (hent : y.entering = none) (hp : c.isPrimary = true)
    (hpc : y.reader.pc = .start) (hlt : y.log.sequencer < 2 ^ 64) (ht : y.slots[idx.toNat]? = some t)
    (hlow : y.slots.length + 64 < idx.toNat + c.idxMapElemCnt) (hge : c.idxMapElemCnt ≤ y.slots.length + 64)
    (hway : y.log.sequencer ≤ c.rgSize ∨ y.log.sequencer + 2 ^ 18 < t.seq + c.rgSize)
    (hget : getIdx y.log.mem (t.seq % c.rgSize) = idx) :
    ReflTransGen (Step c idx e₀) y { y with
      reader :=
        ⟨.loading (t.seq % c.rgSize) [], y.slots.length, y.slots.length, y.log.sequencer, some t.stage⟩ } := by
  have hok := ok_of_reach h
  have hT := hok.tiled
  have hidx : y.log.indexer = y.slots.length := hT.indexer
  have hlen : y.slots.length < 2 ^ 63 := hT.length_lt hlt
  have hi := (List.getElem?_eq_some_iff.mp ht).1
  have hseen : y.seen = y.log := by rw [Sys.seen, hent]
  have hclaimed : y.claimed = y.slots.length := by rw [Sys.claimed, hent]
  have hmap : y.log.idxToSeq (idx.toNat % c.idxMapElemCnt) = t.seq :=
    (hok.mapped hp (by omega) (by omega)).trans (hT.seq ht).symm
  have hlow' : lowIdx c y.seen < idx.toNat := by
    rw [hseen, SpecRead.lowIdx_eq (by omega), if_pos (by omega)]
    omega
  have hway' : ¬ InTheWay c y.seen t.seq := by
    rw [hseen, inTheWay_iff hlt]
    omega
  have h1 : ReflTransGen (ReadStep c idx e₀ y.seen (y.slots[idx.toNat]?.map Slot.stage)) y.reader _ :=
    .single (.first hpc hlow')
  have h2 := h1.tail (.second rfl (by rw [hseen, hidx]; exact hi))
  have h3 := h2.tail (.lookUp rfl)
  have h4 := h3.tail (.third rfl (by rw [hseen, hmap, ← hseen]; exact hway'))
  have h5 := h4.tail (.getIdx rfl (by rw [hseen, hmap]; exact hget))
  have hrun := run_read h5
  simp only [hseen, hmap, hidx, ht, Option.map_some] at hrun
  exact hrun

theorem Calm.begin (h : Calm c idx e₀ y) (hp : c.isPrimary = true) (hpc : y.reader.pc = .start)
    (hlt : y.log.sequencer < 2 ^ 64) (ht : y.slots[idx.toNat]? = some t)
    (hlow : y.slots.length + 64 < idx.toNat + c.idxMapElemCnt) (hge : c.idxMapElemCnt ≤ y.slots.length + 64)
    (hway : y.log.sequencer ≤ c.rgSize ∨ y.log.sequencer + 2 ^ 18 < t.seq + c.rgSize) :
    Calm c idx e₀ { y with
      reader :=
        ⟨.loading (t.seq % c.rgSize) [], y.slots.length, y.slots.length, y.log.sequencer, some .returned⟩ } := by
  have hok := ok_of_reach h.reach
  have hstage := h.returned t (List.mem_of_getElem? ht)
  have hshown := hok.shown ht (by rw [ends_of_none h.entering]; omega)
  rw [content_of_flagged (Or.inr (Or.inr hstage))] at hshown
  have hget : getIdx y.log.mem (t.seq % c.rgSize) = idx := by
    rw [getIdx_of_holds hshown.left]
    exact (hok.tiled.idx ht).2.trans UInt64.ofNat_toNat
  have hrun := run_begin h.reach h.entering hp hpc hlt ht hlow hge hway hget
  rw [hstage] at hrun
  exact ⟨h.reach.run hrun, h.entering, h.returned, h.mark⟩

theorem run_load {l : FlatLog} {stage : Option Stage} {r : Reader} {offset n : ℕ} {got : List UInt8} {w : LogEntry}
    (hpc : r.pc = .loading offset got) (hle : got.length + n ≤ needed got)
    (hw : got ++ readBytes l.mem (offset + got.length) n = encode w) (hs : w.Sized) (hf : w.flags ≠ 0) :
    ReflTransGen (ReadStep c idx e₀ l stage) r { r with pc := .returned w (Int.bmod (entrySize w) (2 ^ 32)) } := by
  have hload : ReflTransGen (ReadStep c idx e₀ l stage) r _ := .single (.load n hpc hle)
  have hfinish := hload.tail (.finish rfl (by rw [hw, needed_encode hs hf]))
  rwa [hw, deserializer_of_holds e₀ (holds_loaded (encode w)) hs hf] at hfinish

/-! ### The ring goes round -/

/-- An entry with `n` bytes of data, which are ones. -/
def filled (n : ℕ) : LogEntry := { (default : LogEntry) with size := UInt32.ofNat n, data := List.replicate n 1 }

theorem entrySize_filled (n : ℕ) : entrySize (filled n) = 32 + align4 (n + 3) := by
  simp [entrySize, filled, metaDataSize, flagPos]

theorem admissible_filled {n : ℕ} (h : n ≤ 2 ^ 12) : Admissible (filled n) := by
  refine ⟨?_, ?_⟩
  · simp only [LogEntry.Sized, filled, List.length_replicate, UInt32.toNat_ofNat']
    omega
  · rw [entrySize_filled]
    unfold align4 msgSize
    omega

/-- The empty entry at the index `n`, with ones in its first bytes: an entry of another client. -/
def other (c : Config) (n : ℕ) : LogEntry := { raised (stamp c n default) with clientId := 16843009 }

theorem encode_other (c : Config) (n : ℕ) :
    encode (other c n) = [1, 1, 1, 1] ++ (encode (raised (stamp c n default))).drop 4 := by
  have h1 : leBytes 8 (16843009 : UInt64).toNat = [1, 1, 1, 1, 0, 0, 0, 0] := by decide
  have h2 : leBytes 8 (default : LogEntry).clientId.toNat = [0, 0, 0, 0, 0, 0, 0, 0] := by decide
  simp only [encode, header, other, raised, stamp, h1, h2, List.append_assoc, List.cons_append, List.nil_append,
    List.drop_succ_cons, List.drop_zero]

/-- Where the entry before the one at `seq` stands, one round later. -/
theorem mod_of_round {rg seq s : ℕ} (hrg : 0 < rg) (h : s + 32 = seq + rg) (h32 : 32 ≤ seq % rg) :
    s % rg = seq % rg - 32 := by
  have hdiv := Nat.div_add_mod seq rg
  have hs : s = (seq % rg - 32) + rg * (seq / rg + 1) := by
    rw [Nat.mul_add]
    omega
  have hlt : seq % rg - 32 < rg := by
    have := Nat.mod_lt seq hrg
    omega
  rw [hs, Nat.add_mul_mod_self_left, Nat.mod_eq_of_lt hlt]

/-- **An entry is written over the start of an empty one**: the region holds an entry of another client there. -/
theorem Calm.overwrite (h : Calm c idx e₀ y) (ht : y.slots[i]? = some t) (hzero : t.e = stamp c i default)
    (hplace : y.log.sequencer + 32 = t.seq + c.rgSize) (hofs : 32 ≤ t.seq % c.rgSize) :
    ∃ y', Calm c idx e₀ y' ∧ y'.reader = y.reader ∧ y'.log.sequencer = y.log.sequencer + 36 ∧
      y'.slots[i]? = some t ∧
      Holds y'.log.mem (t.seq % c.rgSize) (encode (other c i)) := by
  obtain ⟨y', hcalm, hread, hslots, hseq, hmem⟩ := h.append (admissible_filled (n := 4) (by decide))
  have hok := ok_of_reach h.reach
  have hok' := ok_of_reach hcalm.reach
  have hrg := c.le_rgSize
  have hlast := mod_of_round c.rgSize_pos hplace hofs
  have hmod := Nat.mod_lt t.seq c.rgSize_pos
  have hi := (List.getElem?_eq_some_iff.mp ht).1
  have hsize : entrySize (filled 4) = 36 := entrySize_filled 4
  have hends := ends_of_none hcalm.entering
  have hdvd : 4 ∣ t.seq % c.rgSize :=
    (Nat.dvd_mod_iff (four_dvd_rgSize c)).mpr ((hok.tiled.seq ht) ▸ dvd_pos _ _)
  have hrg4 := four_dvd_rgSize c
  have hnew : Holds y'.log.mem (t.seq % c.rgSize) [1, 1, 1, 1] := by
    have hslot : y'.slots[y.slots.length]? =
        some ⟨stamp c y.slots.length (filled 4), y.log.sequencer, y.slots.length, .returned⟩ := by simp [hslots]
    have hshown := hok'.shown hslot (by simp only; omega)
    rw [content_of_flagged (Or.inr (Or.inr rfl))] at hshown
    have hdata := hshown.right
    rw [length_header, hlast] at hdata
    have haddr : t.seq % c.rgSize - 32 + metaDataSize = t.seq % c.rgSize := by
      unfold metaDataSize flagPos
      omega
    rwa [haddr] at hdata
  have hold : Holds y'.log.mem (t.seq % c.rgSize + 4) ((encode (raised t.e)).drop 4) := by
    have hstage := h.returned t (List.mem_of_getElem? ht)
    have hshown := hok.shown ht (by rw [ends_of_none h.entering]; omega)
    rw [content_of_flagged (Or.inr (Or.inr hstage)), ← List.take_append_drop 4 (encode (raised t.e))] at hshown
    have hlen : (encode (raised t.e)).length = 32 := by rw [hzero]; rfl
    have hright := hshown.right
    rw [List.length_take, hlen] at hright
    refine hright.congr fun k hk => ?_
    rw [hmem]
    refine append_mem_eq (admissible_filled (by decide)) ?_
    rintro ⟨j, hj, hx⟩
    have hk' : k < 28 := by simpa [hlen] using hk
    have hadd : (y.log.sequencer + j) % c.rgSize = y.log.sequencer % c.rgSize + j := add_mod_of_lt (by omega)
    have hx' : t.seq % c.rgSize + 4 + k = (y.log.sequencer + j) % c.rgSize ∨
      t.seq % c.rgSize + 4 + k = y.log.sequencer % c.rgSize + j := hx
    omega
  refine ⟨y', hcalm, hread, hseq, by rw [hslots, List.getElem?_append_left hi, ht], ?_⟩
  rw [encode_other, ← hzero]
  exact holds_append.mpr ⟨hnew, hold⟩

theorem not_tolerates {P : Reader → Prop} {b : ℕ} (h : Reach Start (Step c idx e₀) y) (hent : y.entering = none)
    (hlt : y.log.sequencer < 2 ^ 64) {r : ℤ} (hpc : y.reader.pc = .returned e r) (hpos : 0 < r)
    (hsteady : y.reader.Steady) (hP : P y.reader) (hb : y.log.sequencer ≤ y.reader.curSeq + b)
    (hwrong : ¬ Right y idx.toNat e) : ¬ Tolerates c P b := fun htol =>
  hwrong (htol idx e₀ y h hlt e r hpc hpos hsteady hP (by rwa [ends_of_none hent]))

theorem returned_pos (h : e.data = []) : 0 < Int.bmod (entrySize e) (2 ^ 32) := by
  rw [entrySize, h]
  decide

/-- **A torn read**: it returns a part of another entry. -/
theorem Calm.torn {P : Reader → Prop} {b : ℕ} (h : Calm c idx e₀ y)
    (hpc : y.reader.pc = .loading (t.seq % c.rgSize) []) (ht : y.slots[idx.toNat]? = some t)
    (hzero : t.e = stamp c idx.toNat default) (hplace : y.log.sequencer + 32 = t.seq + c.rgSize)
    (hofs : 32 ≤ t.seq % c.rgSize) (hlt : y.log.sequencer + 36 < 2 ^ 64) (hsteady : y.reader.Steady)
    (hP : ∀ pc, P { y.reader with pc := pc }) (hb : y.log.sequencer + 36 ≤ y.reader.curSeq + b) :
    ¬ Tolerates c P b := by
  obtain ⟨y₁, hcalm, hread, hseq, hslot, hholds⟩ := h.overwrite ht hzero hplace hofs
  have hbytes : [] ++ readBytes y₁.seen.mem (t.seq % c.rgSize + 0) 32 = encode (other c idx.toNat) := by
    rw [(seen_eq y₁).1]
    exact hholds
  have hrun : ReflTransGen (Step c idx e₀) y₁ _ :=
    run_read (run_load (by rw [hread, hpc]) (Nat.le_refl 32) hbytes rfl (by simp [other, raised]))
  rw [hread] at hrun
  refine not_tolerates (hcalm.reach.run hrun) hcalm.entering (hseq.trans_lt hlt) rfl ?_ hsteady (hP _)
    (hseq.trans_le hb) ?_
  · exact returned_pos rfl
  · rintro ⟨u, hu, he⟩
    obtain rfl : t = u := Option.some.inj (hslot.symm.trans hu)
    have hid := congrArg LogEntry.clientId he
    have hwritten : t.written.clientId = t.e.clientId := rfl
    rw [hwritten, hzero] at hid
    have hne : (16843009 : UInt64) ≠ 0 := by decide
    exact hne hid

/-- An entry with `k` bytes of data, after `m` empty ones and before `n` of them. -/
def around (k m n : ℕ) : List LogEntry := List.replicate m default ++ filled k :: List.replicate n default

theorem totalSize_replicate (n : ℕ) : totalSize (List.replicate n default) = 32 * n := by
  induction n with
  | zero => rfl
  | succ n ih =>
    have hone : entrySize default = 32 := rfl
    rw [List.replicate_succ, totalSize_cons, ih, hone]
    omega

theorem length_around (k m n : ℕ) : (around k m n).length = m + n + 1 := by
  simp only [around, List.length_append, List.length_cons, List.length_replicate]
  omega

theorem totalSize_around (k m n : ℕ) : totalSize (around k m n) = 32 * (m + n + 1) + align4 (k + 3) := by
  rw [around, totalSize_append, totalSize_cons, totalSize_replicate, totalSize_replicate, entrySize_filled]
  omega

theorem admissible_of_mem_around {k m n : ℕ} (hk : k ≤ 2 ^ 12) (h : e ∈ around k m n) : Admissible e := by
  simp only [around, List.mem_append, List.mem_cons] at h
  rcases h with h | rfl | h
  · exact List.eq_of_mem_replicate h ▸ default_admissible
  · exact admissible_filled hk
  · exact List.eq_of_mem_replicate h ▸ default_admissible

/-- **A log at rest goes on** by an entry among empty ones. -/
theorem Calm.around (h : Calm c idx e₀ y) {k : ℕ} (m n : ℕ) (hk : k ≤ 2 ^ 12) :
    ∃ y', Calm c idx e₀ y' ∧ y'.reader = y.reader ∧ y.slots <+: y'.slots ∧
      y'.slots.length = y.slots.length + (m + n + 1) ∧
      y'.log.sequencer = y.log.sequencer + 32 * (m + n + 1) + align4 (k + 3) ∧
      ∀ j < m, ∃ t, y'.slots[y.slots.length + j]? = some t ∧ t.e = stamp c (y.slots.length + j) default ∧
        t.seq = y.log.sequencer + 32 * j := by
  obtain ⟨y', hcalm, hread, hpre, hlen, hseq, hat⟩ := h.appends fun e => admissible_of_mem_around (m := m) (n := n) hk
  refine ⟨y', hcalm, hread, hpre, hlen.trans (by rw [length_around]), ?_, fun j hj => ?_⟩
  · rw [hseq, totalSize_around]
    omega
  · have hlt : j < (List.replicate m (default : LogEntry)).length := by rwa [List.length_replicate]
    obtain ⟨t, ht, he, hs⟩ := hat (k := j) (e := default) (by
      rw [SpecRace.around, List.getElem?_append_left hlt, List.getElem?_replicate, if_pos hj])
    refine ⟨t, ht, he, ?_⟩
    rw [hs, SpecRace.around, List.take_append_of_le_length hlt.le, List.take_replicate, totalSize_replicate,
      Nat.min_eq_left hj.le]

theorem exists_calm (c : Config) (idx : UInt64) (e₀ : LogEntry) {k : ℕ} (m n : ℕ) (hk : k ≤ 2 ^ 12) :
    ∃ y, Calm c idx e₀ y ∧ y.reader.pc = .start ∧ y.slots.length = m + n + 1 ∧
      y.log.sequencer = 32 * (m + n + 1) + align4 (k + 3) ∧
      ∀ j < m, ∃ t, y.slots[j]? = some t ∧ t.e = stamp c j default ∧ t.seq = 32 * j := by
  obtain ⟨y, hcalm, hread, -, hlen, hseq, hat⟩ := (calm_blank c idx e₀).around m n hk
  simp only [blank, FlatLog.zeroed, List.length_nil, Nat.zero_add] at hlen hseq hat
  exact ⟨y, hcalm, by rw [hread]; rfl, hlen, hseq, hat⟩

/-- **The margin of the bytes is not compared in a young log**: the ring is full, and the next entry is written over
the one that is read. -/
theorem not_tolerates_young (hp : c.isPrimary = true) {b : ℕ} (hb : 36 ≤ b) :
    ¬ Tolerates c (fun r => r.Flagged ∧ r.curSeq ≤ c.rgSize) b := by
  have hrg := c.le_rgSize
  have hlt := c.rgSize_lt
  have hcnt := SpecRead.idxMapElemCnt_mul c
  obtain ⟨y, hcalm, hpc, hlen, hseq, hat⟩ :=
    exists_calm c 1 default (k := 2048) 2 (c.idxMapElemCnt - 67) (by decide)
  obtain ⟨t, ht, hzero, hts⟩ := hat 1 (by decide)
  have halign : align4 (2048 + 3) = 2048 := rfl
  have hseq' : y.log.sequencer = c.rgSize := by omega
  have hmod : t.seq % c.rgSize = 32 := by rw [hts, Nat.mod_eq_of_lt (by omega)]
  have hidx : (1 : UInt64).toNat = 1 := rfl
  rw [← hidx] at ht hzero
  have hbegin := hcalm.begin hp hpc (by omega) ht (by omega) (by omega) (by omega)
  exact hbegin.torn rfl ht hzero (by simp only; omega) (by omega) (by simp only; omega) (Nat.le_add_right _ _)
    (fun pc => ⟨Or.inr (Or.inr rfl), Nat.le_of_eq hseq'⟩) (by simp only; omega)

/-- **In an old log the margin is what is compared**, and a little more for the part of an entry. -/
theorem not_tolerates_old (hp : c.isPrimary = true) {b : ℕ} (hb : 2 ^ 18 + 8 ≤ b) :
    ¬ Tolerates c (fun r => r.Flagged ∧ c.rgSize < r.curSeq) b := by
  have hrg := c.le_rgSize
  have hlt := c.rgSize_lt
  have hcnt := SpecRead.idxMapElemCnt_mul c
  -- the log has just come round, and the read finds that the entry is far enough from its end
  obtain ⟨y, hcalm, hpc, hlen, hseq, hat⟩ :=
    exists_calm c 8193 default (k := 28) 8194 (c.idxMapElemCnt - 8195) (by decide)
  obtain ⟨t, ht, hzero, hts⟩ := hat 8193 (by decide)
  have halign : align4 (28 + 3) = 28 := rfl
  have hseq' : y.log.sequencer = c.rgSize + 28 := by omega
  have hmod : t.seq % c.rgSize = 32 * 8193 := by rw [hts, Nat.mod_eq_of_lt (by omega)]
  have hidx : (8193 : UInt64).toNat = 8193 := rfl
  rw [← hidx] at ht hzero
  have hbegin := hcalm.begin hp hpc (by omega) ht (by omega) (by omega) (by omega)
  -- it goes on by the margin meanwhile
  obtain ⟨y', hcalm', hread', hpre, -, hgo, -⟩ := hbegin.around (k := 4) 8190 0 (by decide)
  have halign' : align4 (4 + 3) = 4 := rfl
  simp only at hgo
  exact hcalm'.torn (by rw [hread']) (getElem?_of_isPrefix hpre ht) hzero (by omega) (by omega) (by omega)
    (by rw [hread']; exact Nat.le_add_right _ _)
    (fun pc => by rw [hread']; exact ⟨Or.inr (Or.inr rfl), by simp only; omega⟩) (by rw [hread']; simp only; omega)

/-! ### An entry that is being stored -/

/-- The fields before the size, -/
def ids (e : LogEntry) : List UInt8 :=
  leBytes 8 e.clientId.toNat ++ leBytes 8 e.clientSeq.toNat ++ leBytes 8 e.logIdx.toNat

/-- and those after it. -/
def marks (e : LogEntry) : List UInt8 := leBytes 2 e.flags.toNat ++ leBytes 2 e.view.toNat

theorem encode_split (e : LogEntry) : encode e = ids e ++ leBytes 4 e.size.toNat ++ marks e ++ e.data := by
  simp only [encode, header, ids, marks, List.append_assoc]

theorem length_ids (e : LogEntry) : (ids e).length = 24 := by simp [ids]

theorem take_encode (e : LogEntry) : (encode e).take 24 = ids e := by
  rw [encode_split, List.append_assoc, List.append_assoc, List.take_left' (length_ids e)]

theorem holds_split {m : Mem} {buf : ℕ} (h : Holds m buf (encode e)) :
    Holds m (buf + 24) (leBytes 4 e.size.toNat) ∧ Holds m (buf + 28) (marks e) := by
  rw [encode_split] at h
  have hsize := h.left.left.right
  have hmarks := h.left.right
  rw [length_ids] at hsize
  rw [List.length_append, length_ids, length_leBytes] at hmarks
  exact ⟨hsize, hmarks⟩

theorem getIdx_of_ids {m : Mem} {buf : ℕ} (h : Holds m buf (ids e)) : getIdx m buf = e.logIdx := by
  have hload := h.right.load
  have hlt : e.logIdx.toNat < 256 ^ 8 := e.logIdx.toNat_lt
  rw [List.length_append, length_leBytes, length_leBytes, Nat.mod_eq_of_lt hlt] at hload
  rw [getIdx, hload]
  exact UInt64.ofNat_toNat

/-- The entry for a read that has loaded the size before it was stored. -/
def cut (e : LogEntry) : LogEntry := { raised e with size := 0, data := [] }

theorem encode_cut (e : LogEntry) : encode (cut e) = ids e ++ leBytes 4 0 ++ marks (raised e) := by
  rw [encode_split]
  exact List.append_nil _

/-- When the first fields of an entry are stored, the size is still the one that was there before. -/
theorem read_half {l : FlatLog} {u : LogEntry}
    (hstale : readBytes l.mem (l.sequencer % c.rgSize + 24) 4 = leBytes 4 0) :
    readBytes (writeBytes (reserve c l e).mem (l.sequencer % c.rgSize) (ids u)) (l.sequencer % c.rgSize) 28 =
      ids u ++ leBytes 4 0 := by
  have hfirst := holds_writeBytes (reserve c l e).mem (l.sequencer % c.rgSize) (ids u)
  unfold Holds at hfirst
  rw [length_ids] at hfirst
  rw [readBytes_add _ _ 24 4, hfirst, ← hstale]
  refine congrArg (ids u ++ ·) (readBytes_congr fun j hj => ?_)
  rw [writeBytes_of_notMem (by rw [length_ids]; omega)]
  exact writeBytes_of_notMem (by unfold flagPos; omega)

/-- **A size that is out of date**: the read loads it from the place of the new entry, and then the flags of that
one. -/
theorem not_tolerates_cut {l : FlatLog} {ss : List Slot} {stored : ℕ → ℕ} {r : Reader}
    (h : Reach Start (Step c idx e₀) ⟨l, ss, none, stored, r⟩) (hp : c.isPrimary = true) (hpc : r.pc = .start)
    (hlen : ss.length = idx.toNat) (hge : c.idxMapElemCnt ≤ ss.length) (hlt : l.sequencer + 36 < 2 ^ 64)
    (hfits : l.sequencer + 36 < l.orderedWatermk + c.rgSize)
    (hstale : readBytes l.mem (l.sequencer % c.rgSize + 24) 4 = leBytes 4 0) :
    ¬ Tolerates c (fun r => ¬ r.Flagged) 0 := by
  have hrg := c.le_rgSize
  have hcnt := SpecRead.idxMapElemCnt_mul c
  have he : Admissible (filled 4) := admissible_filled (by decide)
  have hsize : getSize (filled 4) = 36 := he.getSize_eq.trans (entrySize_filled 4)
  have hzero := (ok_of_reach h).stored ss.length (Nat.le_refl _)
  -- the index is stored, but not the size
  obtain ⟨t, ht⟩ : ∃ t : Slot, t = ⟨stamp c l.indexer (filled 4), l.sequencer, l.indexer, .reserved⟩ := ⟨_, rfl⟩
  have hts : t.seq = l.sequencer := by rw [ht]
  have hlast : ∀ u : Slot, (ss ++ [u])[idx.toNat]? = some u := fun u => by simp [← hlen]
  have h24le : 24 ≤ (encode t.e).length := by
    rw [length_encode]
    unfold metaDataSize flagPos
    omega
  have hr₁ := h.run (run_reserve he (hsize ▸ hfits))
  rw [← ht] at hr₁
  have hr₂ := hr₁.run (run_store (n := 24) (by rw [ht]) hzero h24le)
  rw [take_encode] at hr₂
  obtain ⟨m, hm⟩ : ∃ m, m = writeBytes (reserve c l (filled 4)).mem (t.seq % c.rgSize) (ids t.e) := ⟨_, rfl⟩
  rw [← hm] at hr₂
  have hgot : readBytes m (t.seq % c.rgSize) 28 = ids t.e ++ leBytes 4 0 := by
    rw [hm, hts]
    exact read_half hstale
  have hget : getIdx m (t.seq % c.rgSize) = idx := by
    rw [getIdx_of_ids (hm ▸ holds_writeBytes _ _ _), ht]
    exact (congrArg UInt64.ofNat ((ok_of_reach h).tiled.indexer.trans hlen)).trans UInt64.ofNat_toNat
  -- the read loads it
  have hr₃ := hr₂.run (run_begin hr₂ rfl hp hpc (by simp only [reserve, hsize]; omega) (hlast t)
    (by simp only [List.length_append, List.length_singleton]; omega)
    (by simp only [List.length_append, List.length_singleton]; omega)
    (by simp only [reserve, hsize, hts]; omega) hget)
  have hr₄ := hr₃.run (run_read (.single (.load 28 rfl (by decide))))
  simp only [Sys.seen, List.nil_append, List.length_nil, Nat.add_zero, hgot] at hr₄
  -- the entry is complete, and the read loads its flags
  have hr₅ := hr₄.run (run_flag (by rw [ht]) (Function.update_self _ _ _) h24le)
  have hshown := (ok_of_reach hr₅).shown (hlast { t with stage := .flagged })
    (by rw [ends_of_none rfl]; simp only [raiseFlag, reserve, hsize, hts]; omega)
  rw [content_of_flagged (Or.inl rfl)] at hshown
  have hmarks := (holds_split hshown).2
  have hlen28 : (ids t.e ++ leBytes 4 0).length = 28 := by rw [List.length_append, length_ids, length_leBytes]
  have hr₆ := hr₅.run (run_read (run_load (n := 4) (w := cut t.e) rfl
    (by rw [hlen28, needed, if_pos (by rw [hlen28]; decide)]; decide)
    ((congrArg (ids t.e ++ leBytes 4 0 ++ ·) hmarks).trans (encode_cut t.e).symm) rfl (by simp [cut, raised])))
  refine not_tolerates hr₆ rfl ?_ rfl ?_ (Nat.le_add_right _ _) ?_ (Nat.le_refl _) ?_
  · simp only [raiseFlag, reserve, hsize]
    omega
  · exact returned_pos rfl
  · simp [Reader.Flagged, ht]
  · rintro ⟨u, hu, heq⟩
    obtain rfl := Option.some.inj ((hlast _).symm.trans hu)
    have hfour := congrArg LogEntry.size heq
    have hwritten : ({ t with stage := .flagged } : Slot).written.size = t.e.size := rfl
    rw [hwritten, ht] at hfour
    have hne : (0 : UInt32) ≠ UInt32.ofNat 4 := by decide
    exact hne hfour

/-- **An entry is not safe while it is stored**, at a place where another entry was. -/
theorem not_tolerates_unflagged (hp : c.isPrimary = true) : ¬ Tolerates c (fun r => ¬ r.Flagged) 0 := by
  have hrg := c.le_rgSize
  have hlt := c.rgSize_lt
  have hcnt := SpecRead.idxMapElemCnt_mul c
  have hidx : (UInt64.ofNat c.idxMapElemCnt).toNat = c.idxMapElemCnt := by
    rw [UInt64.toNat_ofNat']
    omega
  obtain ⟨y, hcalm, hpc, hlen, hseq, hat⟩ :=
    exists_calm c (UInt64.ofNat c.idxMapElemCnt) default (k := 0) (c.idxMapElemCnt - 1) 0 (by decide)
  have halign : align4 (0 + 3) = 0 := rfl
  have hseq' : y.log.sequencer = c.rgSize := by omega
  -- the size of the first entry
  have hstale : readBytes y.log.mem (y.log.sequencer % c.rgSize + 24) 4 = leBytes 4 0 := by
    obtain ⟨t, ht, hzero, hts⟩ := hat 0 (by omega)
    have hstage := hcalm.returned t (List.mem_of_getElem? ht)
    have hshown := (ok_of_reach hcalm.reach).shown ht (by rw [ends_of_none hcalm.entering]; omega)
    rw [content_of_flagged (Or.inr (Or.inr hstage)), hts, Nat.zero_mod, hzero] at hshown
    rw [hseq', Nat.mod_self]
    exact (holds_split hshown).1
  have hmark := hcalm.mark
  have hent := hcalm.entering
  have hreach := hcalm.reach
  obtain ⟨l, ss, ent, stored, r⟩ := y
  subst hent
  simp only at hmark hlen hseq'
  exact not_tolerates_cut hreach hp hpc (by omega) (by omega) (by omega) (by omega) hstale

/-! ### The result -/

/-- **How much room a speculative read has.** If the entry was complete when the read came to its bytes, then the
value is right as long as fewer than 36 bytes, the size of the smallest entry with data, are reserved meanwhile in a
log that has not come round, and fewer than the margin and eight bytes in one that has; with that many it can be
wrong. If the entry was not complete, it can be wrong although nothing is reserved. -/
theorem spec_read_margins (hp : c.isPrimary = true) (b : ℕ) :
    (Tolerates c (fun r => r.Flagged ∧ r.curSeq ≤ c.rgSize) b ↔ b < 36) ∧
      (Tolerates c (fun r => r.Flagged ∧ c.rgSize < r.curSeq) b ↔ b < 2 ^ 18 + 8) ∧
      ¬ Tolerates c (fun r => ¬ r.Flagged) 0 := by
  refine ⟨⟨fun h => ?_, fun hb => ?_⟩, ⟨fun h => ?_, fun hb => ?_⟩, not_tolerates_unflagged hp⟩
  · by_contra hb
    exact not_tolerates_young hp (not_lt.mp hb) h
  · intro idx e₀ y hreach hlt e r hpc hpos hsteady hcase hends
    exact right_of_room hreach hp hlt hpc hpos hsteady hcase.1 (Or.inl ⟨hcase.2, by omega⟩)
  · by_contra hb
    exact not_tolerates_old hp (not_lt.mp hb) h
  · intro idx e₀ y hreach hlt e r hpc hpos hsteady hcase hends
    exact right_of_room hreach hp hlt hpc hpos hsteady hcase.1 (Or.inr ⟨hcase.2, by omega⟩)

/-- The smallest region, at the bounds. -/
theorem spec_read_margins_small :
    Tolerates .smallPrimary (fun r => r.Flagged ∧ r.curSeq ≤ 2 ^ 20) 35 ∧
      ¬ Tolerates .smallPrimary (fun r => r.Flagged ∧ r.curSeq ≤ 2 ^ 20) 36 ∧
      Tolerates .smallPrimary (fun r => r.Flagged ∧ 2 ^ 20 < r.curSeq) (2 ^ 18 + 7) ∧
      ¬ Tolerates .smallPrimary (fun r => r.Flagged ∧ 2 ^ 20 < r.curSeq) (2 ^ 18 + 8) ∧
      ¬ Tolerates .smallPrimary (fun r => ¬ r.Flagged) 0 :=
  ⟨(spec_read_margins rfl 35).1.mpr (by decide), fun h => absurd ((spec_read_margins rfl 36).1.mp h) (by decide),
    (spec_read_margins rfl (2 ^ 18 + 7)).2.1.mpr (by decide),
    fun h => absurd ((spec_read_margins rfl (2 ^ 18 + 8)).2.1.mp h) (by decide), (spec_read_margins rfl 0).2.2⟩

end LazyLog.DurLog.SpecRace
