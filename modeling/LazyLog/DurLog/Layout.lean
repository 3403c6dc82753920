import LazyLog.DurLog.Ranges

/-! # The layout of the region (`DurabilityLogFlat::Initialize`)

The ring, the safe region and the four control words are one allocation:

    | entries | safe region | sequencer | ordered watermk | ordered idx watermk | indexer |

Here the control words are words of the region, so that a write of an entry that is too long changes them. `Flat` has
them as members of their own. It may do so as long as no entry is so long that its size wraps (`Refines.step`): the
offset of an entry is a multiple of 4 below the ring, and the longest entry that is sent just fills the safe region
from there.

Of `AppendEntry` this is what it does to the region: `idx_to_seq_` is another allocation and `reqid_to_seq_map_` a
map. -/

namespace LazyLog.DurLog.Layout

open LazyLog.Lib.Bytes LazyLog.Lib.Run LazyLog.Rpc.Entry LazyLog.Rpc.Multi
open LazyLog.DurLog.Flat LazyLog.DurLog.Ranges

/-! ### The control words -/

/-- Where `sequencer_` is. -/
def sequencerPos (rg : ℕ) : ℕ := rg + safeRgSize

/-- Where `ordered_watermk_` points to. -/
def orderedWatermkPos (rg : ℕ) : ℕ := rg + safeRgSize + 8

/-- Where `ordered_idx_watermk_` points to. -/
def orderedIdxWatermkPos (rg : ℕ) : ℕ := orderedWatermkPos rg + 8

/-- Where `indexer_` is. -/
def indexerPos (rg : ℕ) : ℕ := rg + safeRgSize + 8 + 8 + 8

/-- A `uint64_t` is assigned. -/
def store64 (m : Mem) (a v : ℕ) : Mem := writeBytes m a (leBytes 8 v)

/-- The values of the control words. -/
structure Words where
  sequencer : ℕ
  orderedWatermk : ℕ
  orderedIdxWatermk : ℕ
  indexer : ℕ
  deriving DecidableEq, Repr

/-- The control words of a region. -/
def words (rg : ℕ) (m : Mem) : Words :=
  ⟨load m (sequencerPos rg) 8, load m (orderedWatermkPos rg) 8, load m (orderedIdxWatermkPos rg) 8,
    load m (indexerPos rg) 8⟩

/-! ### Appends on the region -/

/-- The region, and the calls of `AppendEntry` in the order of their reservations. -/
structure State where
  mem : Mem
  slots : List Slot

/-- What a step updates on purpose. -/
inductive Act
  | reserve (e : LogEntry)
  | write
  | setWatermk (w wi : ℕ)

/-- The critical section of `idx_lk_`. The sequence number is taken before the flag is cleared, the index after it. -/
def reserve (rg : ℕ) (view : UInt16) (s : State) (e : LogEntry) : State :=
  let seq := load s.mem (sequencerPos rg) 8
  let m := setFlag s.mem (seq % rg) 0
  let idx := load m (indexerPos rg) 8
  let m := store64 m (indexerPos rg) (idx + 1)
  let m := store64 m (sequencerPos rg) (load m (sequencerPos rg) 8 + getSize e)
  ⟨m, s.slots ++ [⟨{ e with logIdx := UInt64.ofNat idx, view := view }, seq, idx, .reserved⟩]⟩

/-- The length of what `memcpy` moves to the beginning. -/
def overflow (rg : ℕ) (e : LogEntry) (m : Mem) (seq : ℕ) : ℕ := seq % rg + (serializer e m (seq % rg)).2 - rg

/-- The overflowed data is moved to the beginning. -/
def copyOverflow (rg : ℕ) (e : LogEntry) (m : Mem) (seq : ℕ) : Mem :=
  if seq % rg + (serializer e m (seq % rg)).2 > rg then blit m 0 m rg (overflow rg e m seq) else m

/-- Call `i` goes on, to the stage `st`. -/
def State.put (s : State) (i : ℕ) (t : Slot) (st : Stage) (m : Mem) : State :=
  { mem := m, slots := s.slots.set i { t with stage := st } }

/-- A step of a call of `AppendEntry` with an entry that satisfies `A`, or a write of the watermarks. -/
inductive Step (rg : ℕ) (view : UInt16) (A : LogEntry → Prop) : Act → State → State → Prop
  | reserve {s : State} (e : LogEntry) (he : A e) : Step rg view A (.reserve e) s (reserve rg view s e)
  | serialise {s : State} {i : ℕ} {t : Slot} (ht : s.slots[i]? = some t) (hs : t.stage = .reserved) :
    Step rg view A .write s (s.put i t .serialised (serializer t.e s.mem (t.seq % rg)).1)
  | raiseFlag {s : State} {i : ℕ} {t : Slot} (ht : s.slots[i]? = some t) (hs : t.stage = .serialised) :
    Step rg view A .write s (s.put i t .flagged (setFlag s.mem (t.seq % rg) 1))
  | copyOverflow {s : State} {i : ℕ} {t : Slot} (ht : s.slots[i]? = some t) (hs : t.stage = .flagged) :
    Step rg view A .write s (s.put i t .copied (copyOverflow rg t.e s.mem t.seq))
  | setWatermk {s : State} (w wi : ℕ) :
    Step rg view A (.setWatermk w wi) s
      { s with mem := store64 (store64 s.mem (orderedWatermkPos rg) w) (orderedIdxWatermkPos rg) wi }

/-- After `Initialize`. -/
def Init (rg : ℕ) (s : State) : Prop := words rg s.mem = ⟨0, 0, 0, 0⟩ ∧ s.slots = []

/-- An entry that satisfies the assertion of `Serializer` and has the size of a message at most. -/
def Sent (e : LogEntry) : Prop := e.Sized ∧ getSize e ≤ msgSize

/-- An entry of this kind whose size does not wrap when it is rounded up. -/
def SentShort (e : LogEntry) : Prop := Sent e ∧ e.data.length < 2 ^ 32 - 3

/-- The states reached with entries that satisfy `A`. -/
def Reachable (rg : ℕ) (view : UInt16) (A : LogEntry → Prop) (s : State) : Prop :=
  Reach (Init rg) (fun s s' => ∃ a, Step rg view A a s s') s

/-- **The accesses of a call are in bounds**: `SetFlag` and `Serializer` write below the end of the safe region, and
`memcpy` reads in it and writes in the ring. -/
structure InBounds (rg : ℕ) (m : Mem) (t : Slot) : Prop where
  setFlag : t.seq % rg + flagPos + 2 ≤ rg + safeRgSize
  serializer : t.seq % rg + (encode t.e).length ≤ rg + safeRgSize
  memcpySrc : rg + overflow rg t.e m t.seq ≤ rg + safeRgSize
  memcpyDst : overflow rg t.e m t.seq ≤ rg

/-- What a step does to the control words on purpose. -/
def Words.update : Act → Words → Words
  | .reserve e, x =>
    { x with sequencer := (x.sequencer + getSize e) % 2 ^ 64, indexer := (x.indexer + 1) % 2 ^ 64 }
  | .write, x => x
  | .setWatermk w wi, x => { x with orderedWatermk := w % 2 ^ 64, orderedIdxWatermk := wi % 2 ^ 64 }

variable {rg : ℕ} {view : UInt16} {A : LogEntry → Prop} {a : Act} {m m' : Mem} {s s' : State}

/-! ### The bound -/

theorem SentShort.admissible {e : LogEntry} (h : SentShort e) : Admissible e := by
  obtain ⟨⟨hs, hle⟩, hlt⟩ := h
  refine ⟨hs, ?_⟩
  rwa [getSize_eq hs (by omega)] at hle

theorem admissible_stamped {e : LogEntry} (h : Admissible e) (idx : UInt64) (view : UInt16) :
    Admissible { e with logIdx := idx, view := view } := ⟨h.sized, h.fits⟩

/-- The largest offset is four bytes below the end of the ring, and the longest entry is four bytes longer than the
safe region. -/
theorem offset_add_le {seq : ℕ} {e : LogEntry} (hrg : 0 < rg) (h4 : 4 ∣ rg) (hseq : 4 ∣ seq) (he : Admissible e) :
    seq % rg + entrySize e ≤ rg + safeRgSize := by
  have hmod : 4 ∣ seq % rg := (Nat.dvd_mod_iff h4).mpr hseq
  have hlt := Nat.mod_lt seq hrg
  have hfit := he.fits
  have hsafe : safeRgSize = 8192 := rfl
  unfold msgSize at hfit
  omega

theorem inBounds_of_dvd {t : Slot} (hrg : 2 ^ 20 ∣ rg) (hpos : 0 < rg) (hseq : 4 ∣ t.seq) (he : Admissible t.e)
    (m : Mem) : InBounds rg m t := by
  have hle := offset_add_le hpos (Nat.dvd_trans (by decide) hrg) hseq he
  have hmeta := metaDataSize_le_entrySize t.e
  have henc := length_encode_le t.e
  have hrg' := Nat.le_of_dvd hpos hrg
  have hsafe : safeRgSize = 8192 := rfl
  have hover : overflow rg t.e m t.seq ≤ safeRgSize := by
    unfold overflow
    rw [serializer_eq]
    omega
  refine ⟨?_, ?_, ?_, ?_⟩
  · unfold metaDataSize at hmeta
    omega
  · omega
  · omega
  · omega

/-! ### Writes below the control words -/

theorem words_congr (h : ∀ x, rg + safeRgSize ≤ x → m' x = m x) : words rg m' = words rg m := by
  have hload : ∀ p, rg + safeRgSize ≤ p → load m' p 8 = load m p 8 :=
    fun p hp => load_congr fun i _ => h _ (by omega)
  unfold words
  rw [hload (sequencerPos rg) (Nat.le_refl _), hload (orderedWatermkPos rg) (Nat.le_add_right _ _),
    hload (orderedIdxWatermkPos rg) (by unfold orderedIdxWatermkPos orderedWatermkPos; omega),
    hload (indexerPos rg) (by unfold indexerPos; omega)]

theorem words_setFlag {buf : ℕ} {flag : UInt16} (h : buf + flagPos + 2 ≤ rg + safeRgSize) :
    words rg (setFlag m buf flag) = words rg m := by
  refine words_congr fun x hx => writeBytes_of_notMem ?_
  rw [length_leBytes]
  omega

theorem words_serializer {buf : ℕ} {e : LogEntry} (h : buf + (encode e).length ≤ rg + safeRgSize) :
    words rg (serializer e m buf).1 = words rg m := by
  rw [serializer_eq]
  exact words_congr fun x hx => writeBytes_of_notMem (by omega)

theorem words_copyOverflow {e : LogEntry} {seq : ℕ} (h : overflow rg e m seq ≤ rg) :
    words rg (copyOverflow rg e m seq) = words rg m := by
  unfold copyOverflow
  split_ifs
  · exact words_congr fun x hx => blit_of_notMem (by omega)
  · rfl

theorem load_store64 (m : Mem) (a v : ℕ) : load (store64 m a v) a 8 = v % 2 ^ 64 := load_writeBytes m a 8 v

theorem load_store64_of_disjoint {a b : ℕ} (m : Mem) (v : ℕ) (h : a + 8 ≤ b ∨ b + 8 ≤ a) :
    load (store64 m a v) b 8 = load m b 8 :=
  load_writeBytes_of_disjoint m (by rwa [length_leBytes])

theorem positions (rg : ℕ) :
    orderedWatermkPos rg = sequencerPos rg + 8 ∧ orderedIdxWatermkPos rg = sequencerPos rg + 16 ∧
      indexerPos rg = sequencerPos rg + 24 := ⟨rfl, rfl, rfl⟩

theorem words_store_sequencer (m : Mem) (v : ℕ) :
    words rg (store64 m (sequencerPos rg) v) = { words rg m with sequencer := v % 2 ^ 64 } := by
  obtain ⟨h1, h2, h3⟩ := positions rg
  unfold words
  rw [load_store64, load_store64_of_disjoint m v (by omega), load_store64_of_disjoint m v (by omega),
    load_store64_of_disjoint m v (by omega)]

theorem words_store_orderedWatermk (m : Mem) (v : ℕ) :
    words rg (store64 m (orderedWatermkPos rg) v) = { words rg m with orderedWatermk := v % 2 ^ 64 } := by
  obtain ⟨h1, h2, h3⟩ := positions rg
  unfold words
  rw [load_store64, load_store64_of_disjoint m v (by omega), load_store64_of_disjoint m v (by omega),
    load_store64_of_disjoint m v (by omega)]

theorem words_store_orderedIdxWatermk (m : Mem) (v : ℕ) :
    words rg (store64 m (orderedIdxWatermkPos rg) v) = { words rg m with orderedIdxWatermk := v % 2 ^ 64 } := by
  obtain ⟨h1, h2, h3⟩ := positions rg
  unfold words
  rw [load_store64, load_store64_of_disjoint m v (by omega), load_store64_of_disjoint m v (by omega),
    load_store64_of_disjoint m v (by omega)]

theorem words_store_indexer (m : Mem) (v : ℕ) :
    words rg (store64 m (indexerPos rg) v) = { words rg m with indexer := v % 2 ^ 64 } := by
  obtain ⟨h1, h2, h3⟩ := positions rg
  unfold words
  rw [load_store64, load_store64_of_disjoint m v (by omega), load_store64_of_disjoint m v (by omega),
    load_store64_of_disjoint m v (by omega)]

/-! ### Runs -/

/-- **The invariant**: sequence numbers are multiples of 4, and the entries fit a message. -/
structure Inv (rg : ℕ) (s : State) : Prop where
  sequencer : 4 ∣ (words rg s.mem).sequencer
  seq : ∀ t ∈ s.slots, 4 ∣ t.seq
  admissible : ∀ t ∈ s.slots, Admissible t.e

theorem Inv.inBounds (h : Inv rg s) (hrg : 2 ^ 20 ∣ rg) (hpos : 0 < rg) {t : Slot} (ht : t ∈ s.slots) :
    InBounds rg s.mem t :=
  inBounds_of_dvd hrg hpos (h.seq t ht) (h.admissible t ht) s.mem

theorem Inv.words_clearFlag (h : Inv rg s) (hrg : 2 ^ 20 ∣ rg) (hpos : 0 < rg) :
    words rg (setFlag s.mem (load s.mem (sequencerPos rg) 8 % rg) 0) = words rg s.mem := by
  have hle : load s.mem (sequencerPos rg) 8 % rg + entrySize default ≤ rg + safeRgSize :=
    offset_add_le hpos (Nat.dvd_trans (by decide) hrg) h.sequencer ⟨rfl, by decide⟩
  have hmeta := metaDataSize_le_entrySize default
  refine words_setFlag ?_
  unfold metaDataSize at hmeta
  omega

/-- **One step changes the control words by its own update.** -/
theorem Inv.words_step (h : Inv rg s) (hrg : 2 ^ 20 ∣ rg) (hpos : 0 < rg) (hs : Step rg view A a s s') :
    words rg s'.mem = (words rg s.mem).update a := by
  cases hs with
  | reserve e he =>
    have hclear := h.words_clearFlag hrg hpos
    unfold reserve
    simp only
    rw [words_store_sequencer, words_store_indexer, hclear,
      load_store64_of_disjoint _ _ (by unfold indexerPos sequencerPos; omega)]
    have hseq := congrArg Words.sequencer hclear
    have hidx := congrArg Words.indexer hclear
    unfold words at hseq hidx
    simp only at hseq hidx
    rw [hseq, hidx]
    rfl
  | serialise ht hst => exact words_serializer (h.inBounds hrg hpos (List.mem_of_getElem? ht)).serializer
  | raiseFlag ht hst => exact words_setFlag (h.inBounds hrg hpos (List.mem_of_getElem? ht)).setFlag
  | copyOverflow ht hst => exact words_copyOverflow (h.inBounds hrg hpos (List.mem_of_getElem? ht)).memcpyDst
  | setWatermk w wi =>
    rw [words_store_orderedIdxWatermk, words_store_orderedWatermk]
    rfl

theorem mem_slots_put {i : ℕ} {t u : Slot} {st : Stage} (ht : s.slots[i]? = some t)
    (hu : u ∈ (s.put i t st m).slots) : ∃ t' ∈ s.slots, u.e = t'.e ∧ u.seq = t'.seq := by
  rcases List.mem_or_eq_of_mem_set hu with hu | rfl
  · exact ⟨u, hu, rfl, rfl⟩
  · exact ⟨t, List.mem_of_getElem? ht, rfl, rfl⟩

theorem Inv.step (h : Inv rg s) (hrg : 2 ^ 20 ∣ rg) (hpos : 0 < rg) (hA : ∀ e, A e → Admissible e)
    (hs : Step rg view A a s s') : Inv rg s' := by
  have hwords := h.words_step hrg hpos hs
  have hput : ∀ {i : ℕ} {t : Slot} {st : Stage} {m : Mem}, s.slots[i]? = some t →
      words rg m = words rg s.mem → Inv rg (s.put i t st m) := by
    intro i t st m ht hw
    refine ⟨?_, fun u hu => ?_, fun u hu => ?_⟩
    · simp only [State.put, hw]
      exact h.sequencer
    · obtain ⟨t', ht', -, heq⟩ := mem_slots_put ht hu
      rw [heq]
      exact h.seq t' ht'
    · obtain ⟨t', ht', heq, -⟩ := mem_slots_put ht hu
      rw [heq]
      exact h.admissible t' ht'
  cases hs with
  | reserve e he =>
    have hsize : 4 ∣ getSize e := align4_dvd _
    refine ⟨?_, fun u hu => ?_, fun u hu => ?_⟩
    · rw [hwords]
      exact (Nat.dvd_mod_iff (by decide)).mpr (Nat.dvd_add h.sequencer hsize)
    · rcases List.mem_append.mp hu with hu | hu
      · exact h.seq u hu
      · rw [List.mem_singleton.mp hu]
        exact h.sequencer
    · rcases List.mem_append.mp hu with hu | hu
      · exact h.admissible u hu
      · rw [List.mem_singleton.mp hu]
        exact admissible_stamped (hA e he) _ _
  | serialise ht hst => exact hput ht hwords
  | raiseFlag ht hst => exact hput ht hwords
  | copyOverflow ht hst => exact hput ht hwords
  | setWatermk w wi =>
    refine ⟨?_, h.seq, h.admissible⟩
    rw [hwords]
    exact h.sequencer

theorem Inv.init (h : Init rg s) : Inv rg s := by
  obtain ⟨hw, hn⟩ := h
  refine ⟨?_, ?_, ?_⟩
  · rw [hw]
    exact Nat.dvd_zero 4
  · simp [hn]
  · simp [hn]

theorem inv_of_reachable (hrg : 2 ^ 20 ∣ rg) (hpos : 0 < rg) (h : Reachable rg view SentShort s) : Inv rg s := by
  refine h.invariant (fun s hs => Inv.init hs) ?_
  · rintro s s' - hi ⟨a, hs⟩
    exact hi.step hrg hpos (fun e he => he.admissible) hs

/-- **Appends do not corrupt the control words**, in every run in which no entry has `2 ^ 32 - 3` bytes of data or
more: the accesses of all calls are in bounds, and every step changes the control words by its own update only. -/
theorem appends_keep_control_words (hrg : 2 ^ 20 ∣ rg) (hpos : 0 < rg) (h : Reachable rg view SentShort s) :
    (∀ t ∈ s.slots, InBounds rg s.mem t) ∧
      ∀ a s', Step rg view SentShort a s s' → words rg s'.mem = (words rg s.mem).update a := by
  have hinv := inv_of_reachable hrg hpos h
  exact ⟨fun t ht => hinv.inBounds hrg hpos ht, fun a s' hs => hinv.words_step hrg hpos hs⟩

/-- An entry with `d` bytes of data. -/
def sizedEntry (d : ℕ) : LogEntry := ⟨1, 0, 0, UInt32.ofNat d, 0, 0, List.replicate d 1⟩

theorem sizedEntry_sized {d : ℕ} (hd : d ≤ 8164) : (sizedEntry d).Sized := by
  have htoNat : (UInt32.ofNat d).toNat = d := UInt32.toNat_ofNat_of_lt' (Nat.lt_of_le_of_lt hd (by decide))
  exact htoNat.trans List.length_replicate.symm

theorem getSize_sizedEntry {d : ℕ} (h4 : 4 ∣ d) (hd : d ≤ 8164) : getSize (sizedEntry d) = 32 + d := by
  have hlen : (sizedEntry d).data.length = d := List.length_replicate
  rw [getSize_eq (sizedEntry_sized hd) (by rw [hlen]; omega)]
  unfold entrySize align4
  rw [hlen]
  unfold metaDataSize flagPos
  omega

theorem sizedEntry_sentShort {d : ℕ} (h4 : 4 ∣ d) (hd : d ≤ 8164) : SentShort (sizedEntry d) := by
  have hlen : (sizedEntry d).data.length = d := List.length_replicate
  refine ⟨⟨sizedEntry_sized hd, ?_⟩, ?_⟩
  · rw [getSize_sizedEntry h4 hd]
    unfold msgSize
    omega
  · rw [hlen]
    omega

theorem reachable_put (hrg : 2 ^ 20 ∣ rg) (hpos : 0 < rg) (h : Reachable rg view SentShort s) {S : List Slot}
    {t : Slot} (hslots : s.slots = S ++ [t]) {st : Stage} {m : Mem}
    (hs : Step rg view SentShort .write s (s.put S.length t st m)) :
    ∃ s', Reachable rg view SentShort s' ∧ words rg s'.mem = words rg s.mem ∧
      s'.slots = S ++ [{ t with stage := st }] := by
  have hw := (inv_of_reachable hrg hpos h).words_step hrg hpos hs
  simp only [Words.update] at hw
  refine ⟨_, h.next ⟨_, hs⟩, hw, ?_⟩
  simp [State.put, hslots]

theorem exists_flagged (hrg : 2 ^ 20 ∣ rg) (hpos : 0 < rg) (h : Reachable rg view SentShort s) {e : LogEntry}
    (he : SentShort e) :
    ∃ s' t, Reachable rg view SentShort s' ∧ words rg s'.mem = (words rg s.mem).update (.reserve e) ∧
      s'.slots = s.slots ++ [t] ∧ t.stage = .flagged ∧ t.seq = (words rg s.mem).sequencer ∧ t.e.data = e.data := by
  have hr : Step rg view SentShort (.reserve e) s _ := .reserve e he
  have hwr := (inv_of_reachable hrg hpos h).words_step hrg hpos hr
  obtain ⟨t, hslots, hst, hseq, hdata⟩ : ∃ t, (reserve rg view s e).slots = s.slots ++ [t] ∧ t.stage = .reserved ∧
      t.seq = (words rg s.mem).sequencer ∧ t.e.data = e.data := ⟨_, rfl, rfl, rfl, rfl⟩
  have h₁ : Reachable rg view SentShort (reserve rg view s e) := h.next ⟨_, hr⟩
  generalize reserve rg view s e = s₁ at hwr hslots h₁
  obtain ⟨s₂, h₂, hw₂, hslots₂⟩ := reachable_put hrg hpos h₁ hslots (.serialise (by simp [hslots]) hst)
  obtain ⟨s₃, h₃, hw₃, hslots₃⟩ := reachable_put hrg hpos h₂ hslots₂ (.raiseFlag (by simp [hslots₂]) rfl)
  refine ⟨s₃, { t with stage := .flagged }, h₃, ?_, hslots₃, rfl, hseq, hdata⟩
  rw [hw₃, hw₂, hwr]

/-- Calls with 8160 bytes of data each have gone on to the flag. -/
theorem exists_flagged_run : ∀ n ≤ 127, ∃ s, Reachable (2 ^ 20) 0 SentShort s ∧
    words (2 ^ 20) s.mem = ⟨8192 * n, 0, 0, n⟩
  | 0, _ => ⟨⟨fun _ => 0, []⟩, .start ⟨by decide, rfl⟩, by decide⟩
  | n + 1, hn => by
    obtain ⟨s, hs, hw⟩ := exists_flagged_run n (by omega)
    obtain ⟨s', t, hs', hw', -⟩ := exists_flagged (Nat.dvd_refl _) (by decide) hs
      (sizedEntry_sentShort (d := 8160) (by decide) (by decide))
    refine ⟨s', hs', ?_⟩
    rw [hw', hw]
    simp only [Words.update, getSize_sizedEntry (d := 8160) (by decide) (by decide), Words.mk.injEq, true_and]
    omega

/-- **The largest entry, as far back as it can be**: it starts four bytes before the end of the ring and fills the
safe region. It is in bounds, and the copy of its overflow leaves the control words. -/
theorem appends_keep_control_words_largest : ∃ (s s' : State) (t : Slot), Reachable (2 ^ 20) 0 SentShort s ∧
    t ∈ s.slots ∧ t.seq = 2 ^ 20 - 4 ∧ t.e.data.length = 8164 ∧ InBounds (2 ^ 20) s.mem t ∧
    words (2 ^ 20) s.mem = ⟨2 ^ 20 + 8192, 0, 0, 129⟩ ∧
    Step (2 ^ 20) 0 SentShort .write s s' ∧ (∃ u ∈ s'.slots, u.seq = t.seq ∧ u.stage = .copied) ∧
    words (2 ^ 20) s'.mem = ⟨2 ^ 20 + 8192, 0, 0, 129⟩ := by
  obtain ⟨s₀, h₀, hw₀⟩ := exists_flagged_run 127 le_rfl
  obtain ⟨s₁, -, h₁, hw₁, -⟩ := exists_flagged (Nat.dvd_refl _) (by decide) h₀
    (sizedEntry_sentShort (d := 8156) (by decide) (by decide))
  obtain ⟨s, t, h, hw, hslots, hst, hseq, hdata⟩ := exists_flagged (Nat.dvd_refl _) (by decide) h₁
    (sizedEntry_sentShort (d := 8164) (by decide) (by decide))
  have hs₁ : words (2 ^ 20) s₁.mem = ⟨2 ^ 20 - 4, 0, 0, 128⟩ := by
    rw [hw₁, hw₀]
    simp only [Words.update, getSize_sizedEntry (d := 8156) (by decide) (by decide)]
    rfl
  have hs : words (2 ^ 20) s.mem = ⟨2 ^ 20 + 8192, 0, 0, 129⟩ := by
    rw [hw, hs₁]
    simp only [Words.update, getSize_sizedEntry (d := 8164) (by decide) (by decide)]
    rfl
  have ht : t ∈ s.slots := by simp [hslots]
  obtain ⟨hin, hstep⟩ := appends_keep_control_words (Nat.dvd_refl _) (by decide) h
  have hcopy : Step (2 ^ 20) 0 SentShort .write s _ :=
    .copyOverflow (i := s₁.slots.length) (t := t) (by simp [hslots]) hst
  refine ⟨s, _, t, h, ht, ?_, ?_, hin t ht, hs, hcopy, ⟨{ t with stage := .copied }, ?_, rfl, rfl⟩, ?_⟩
  · rw [hseq, hs₁]
  · rw [hdata]
    exact List.length_replicate
  · simp [State.put, hslots]
  · rw [hstep _ _ hcopy, hs]
    rfl

/-! ### The control words as members of their own -/

/-- The region of `s` is that of the log `f`, whose counters are the control words. -/
structure Refines (c : Config) (s : State) (f : Flat.State) : Prop where
  mem : ∀ x < c.rgSize + safeRgSize, f.log.mem x = s.mem x
  words : words c.rgSize s.mem =
    ⟨f.log.sequencer, f.log.orderedWatermk, f.log.orderedIdxWatermk, f.log.indexer⟩
  slots : f.slots = s.slots

/-- The words written fit 64 bits. -/
def NoWrap : Act → Words → Prop
  | .reserve e, x => x.sequencer + getSize e < 2 ^ 64 ∧ x.indexer + 1 < 2 ^ 64
  | .write, _ => True
  | .setWatermk w wi, _ => w < 2 ^ 64 ∧ wi < 2 ^ 64

variable {c : Config} {f : Flat.State}

theorem dvd_rgSize (c : Config) : 2 ^ 20 ∣ c.rgSize := by
  unfold Config.rgSize
  rw [Nat.mul_assoc]
  exact Nat.dvd_mul_left _ _

theorem writeBytes_congr {b x : ℕ} {bs : List UInt8} (h : m' x = m x) :
    writeBytes m' b bs x = writeBytes m b bs x := by
  unfold writeBytes
  rw [h]

theorem store64_of_lt {p v x : ℕ} (hp : rg + safeRgSize ≤ p) (hx : x < rg + safeRgSize) : store64 m p v x = m x :=
  writeBytes_of_notMem (Or.inl (by omega))

theorem Refines.init {s : State} (h : Init c.rgSize s) :
    Refines c s ⟨{ FlatLog.zeroed with mem := s.mem }, []⟩ :=
  ⟨fun _ _ => rfl, h.1, h.2.symm⟩

theorem Refines.put (h : Refines c s f) {i : ℕ} {t : Slot} {st : Stage} {l : FlatLog}
    (hw : Layout.words c.rgSize m = Layout.words c.rgSize s.mem) (hmem : ∀ x < c.rgSize + safeRgSize, l.mem x = m x)
    (h1 : l.sequencer = f.log.sequencer) (h2 : l.orderedWatermk = f.log.orderedWatermk)
    (h3 : l.orderedIdxWatermk = f.log.orderedIdxWatermk) (h4 : l.indexer = f.log.indexer) :
    Refines c (s.put i t st m) (f.put i t st l) := by
  refine ⟨hmem, ?_, ?_⟩
  · simp only [State.put, Flat.State.put, h1, h2, h3, h4]
    rw [hw]
    exact h.words
  · simp only [State.put, Flat.State.put, h.slots]

theorem Refines.copyOverflow (h : Refines c s f) {t : Slot} (hb : InBounds c.rgSize s.mem t) :
    ∀ x < c.rgSize + safeRgSize,
      (Flat.copyOverflow c f.log t.e t.seq).mem x = Layout.copyOverflow c.rgSize t.e s.mem t.seq x := by
  intro x hx
  have hsrc := hb.memcpySrc
  unfold Flat.copyOverflow Layout.copyOverflow
  unfold overflow at hsrc ⊢
  simp only [serializer_eq] at hsrc ⊢
  split_ifs
  · unfold blit
    simp only [Nat.zero_le, true_and, Nat.zero_add, Nat.sub_zero]
    split_ifs
    · exact h.mem _ (by omega)
    · exact h.mem x hx
  · exact h.mem x hx

/-- **The log with members of its own is the region**, step by step, as long as the 64-bit words do not wrap. -/
theorem Refines.step (h : Refines c s f) (hi : Inv c.rgSize s) (hs : Step c.rgSize c.view SentShort a s s')
    (hn : NoWrap a (Layout.words c.rgSize s.mem)) : ∃ f', Flat.Step c f f' ∧ Refines c s' f' := by
  have hrg := dvd_rgSize c
  have hpos := c.rgSize_pos
  have hwords := hi.words_step hrg hpos hs
  have hseq : load s.mem (sequencerPos c.rgSize) 8 = f.log.sequencer := (congrArg Words.sequencer h.words :)
  have hidx : load s.mem (indexerPos c.rgSize) 8 = f.log.indexer := (congrArg Words.indexer h.words :)
  cases hs with
  | reserve e he =>
    obtain ⟨hn1, hn2⟩ := hn
    have hclear : load (setFlag s.mem (load s.mem (sequencerPos c.rgSize) 8 % c.rgSize) 0) (indexerPos c.rgSize) 8 =
        f.log.indexer := (congrArg Words.indexer (hi.words_clearFlag hrg hpos) :).trans hidx
    refine ⟨f.reserve c e, .append (.reserve e he.admissible), ?_, ?_, ?_⟩
    · intro x hx
      simp only [Layout.reserve, Flat.State.reserve, Flat.reserve]
      rw [store64_of_lt (p := sequencerPos c.rgSize) (Nat.le_refl _) hx,
        store64_of_lt (by unfold indexerPos; omega) hx, hseq]
      exact writeBytes_congr (h.mem x hx)
    · rw [h.words] at hn1 hn2 hwords
      rw [hwords]
      simp only [Words.update, Nat.mod_eq_of_lt hn1, Nat.mod_eq_of_lt hn2]
      rfl
    · simp only [Layout.reserve, Flat.State.reserve]
      rw [hclear, hseq, h.slots]
      rfl
  | serialise ht hst =>
    rw [← h.slots] at ht
    refine ⟨_, .append (.serialise ht hst), h.put hwords (fun x hx => ?_) rfl rfl rfl rfl⟩
    simp only [Flat.serialise, serializer_eq]
    exact writeBytes_congr (h.mem x hx)
  | raiseFlag ht hst =>
    rw [← h.slots] at ht
    exact ⟨_, .append (.raiseFlag ht hst), h.put hwords (fun x hx => writeBytes_congr (h.mem x hx)) rfl rfl rfl rfl⟩
  | @copyOverflow _ i t ht hst =>
    have hb := hi.inBounds hrg hpos (List.mem_of_getElem? ht)
    rw [← h.slots] at ht
    obtain ⟨h1, h2, h3, h4⟩ := copyOverflow_counters c f.log t.e t.seq
    exact ⟨_, .append (.copyOverflow ht hst), h.put hwords (h.copyOverflow hb) h1 h3 h4 h2⟩
  | setWatermk w wi =>
    obtain ⟨hn1, hn2⟩ := hn
    refine ⟨f.setWatermk w wi, .setWatermk w wi, ?_, ?_, h.slots⟩
    · intro x hx
      have hp : c.rgSize + safeRgSize ≤ orderedIdxWatermkPos c.rgSize := by
        unfold orderedIdxWatermkPos orderedWatermkPos
        omega
      simp only
      rw [store64_of_lt hp hx, store64_of_lt (p := orderedWatermkPos c.rgSize) (Nat.le_add_right _ _) hx]
      exact h.mem x hx
    · rw [hwords, h.words]
      simp only [Words.update, Nat.mod_eq_of_lt hn1, Nat.mod_eq_of_lt hn2]
      rfl

/-- **Every run on the region is one of the log.** -/
theorem exists_flat_of_reachable {s : State}
    (h : Reach (Init c.rgSize) (fun s s' => ∃ a, Step c.rgSize c.view SentShort a s s' ∧
      NoWrap a (Layout.words c.rgSize s.mem)) s) :
    ∃ f, Reach Flat.Init (Flat.Step c) f ∧ Refines c s f := by
  have hboth : Inv c.rgSize s ∧ ∃ f, Reach Flat.Init (Flat.Step c) f ∧ Refines c s f := by
    refine h.invariant (P := fun s => Inv c.rgSize s ∧ ∃ f, Reach Flat.Init (Flat.Step c) f ∧ Refines c s f) ?_ ?_
    · intro s hs
      refine ⟨.init hs, _, .start ?_, .init hs⟩
      exact ⟨⟨rfl, rfl, rfl, rfl, rfl, rfl⟩, rfl⟩
    · rintro s s' - ⟨hi, f, hf, hr⟩ ⟨a, hs, hn⟩
      obtain ⟨f', hstep, hr'⟩ := hr.step hi hs hn
      exact ⟨hi.step (dvd_rgSize c) c.rgSize_pos (fun e he => he.admissible) hs, f', hf.next hstep, hr'⟩
  exact hboth.2

/-! ### An entry whose size wraps -/

/-- An entry with `2 ^ 32 - 1` bytes of data. `GetSize` is 32. -/
def wrapped : LogEntry := ⟨1, 0, 0, 0xFFFFFFFF, 0, 0, List.replicate (2 ^ 32 - 1) 1⟩

theorem wrapped_sent : Sent wrapped := by
  refine ⟨?_, by decide⟩
  unfold LogEntry.Sized wrapped
  rw [List.length_replicate]
  rfl

/-- The call with this entry has reserved its range. -/
def wrappedState : State := reserve (2 ^ 20) 0 ⟨fun _ => 0, []⟩ wrapped

/-- The data of the entry reaches the sequencer. -/
theorem serializer_wrapped_byte (e : LogEntry) (he : e.data = List.replicate (2 ^ 32 - 1) 1) (m : Mem) :
    (serializer e m 0).1 (sequencerPos (2 ^ 20)) = 1 := by
  have hpos : sequencerPos (2 ^ 20) = 0 + ((header e).length + (2 ^ 20 + 8160)) := by
    rw [length_header]
    rfl
  have hdata : 2 ^ 20 + 8160 < e.data.length := by
    rw [he, List.length_replicate]
    decide
  have hlt : (header e).length + (2 ^ 20 + 8160) < (encode e).length := by
    unfold encode
    rw [List.length_append]
    omega
  rw [serializer_eq, hpos]
  dsimp only
  rw [writeBytes_getD hlt]
  unfold encode
  rw [List.getD_append_right _ _ _ _ (Nat.le_add_right _ _), Nat.add_sub_cancel_left,
    List.getD_eq_getElem _ _ hdata]
  simp only [he, List.getElem_replicate]

theorem wrappedState_slots : ∃ t, wrappedState.slots[0]? = some t ∧ t.stage = .reserved ∧ t.seq = 0 ∧
    t.e.data = List.replicate (2 ^ 32 - 1) 1 :=
  ⟨_, rfl, rfl, show load (fun _ => 0) (sequencerPos (2 ^ 20)) 8 = 0 by decide, rfl⟩

/-- **The entry is serialised over the control words.** -/
theorem wrapped_corrupts_control_words :
    Reachable (2 ^ 20) 0 Sent wrappedState ∧ ∃ t ∈ wrappedState.slots, ¬ InBounds (2 ^ 20) wrappedState.mem t ∧
      ∃ s', Step (2 ^ 20) 0 Sent .write wrappedState s' ∧
        words (2 ^ 20) s'.mem ≠ (words (2 ^ 20) wrappedState.mem).update .write := by
  have h0 : Init (2 ^ 20) ⟨fun _ => 0, []⟩ := ⟨by decide, rfl⟩
  have hres : Step (2 ^ 20) 0 Sent (.reserve wrapped) ⟨fun _ => 0, []⟩ wrappedState := .reserve wrapped wrapped_sent
  have hinv : Inv (2 ^ 20) ⟨fun _ => 0, []⟩ := .init h0
  have hwords : words (2 ^ 20) wrappedState.mem = ⟨32, 0, 0, 1⟩ := by
    rw [hinv.words_step (Nat.dvd_refl _) (by decide) hres, h0.1]
    decide
  obtain ⟨t, ht, hst, hseq, hdata⟩ := wrappedState_slots
  have hlen : t.e.data.length = 2 ^ 32 - 1 := by rw [hdata, List.length_replicate]
  refine ⟨.next (.start h0) ⟨_, hres⟩, t, List.mem_of_getElem? ht, ?_, _, .serialise ht hst, ?_⟩
  · intro hb
    have hle := hb.serializer
    have hsafe : safeRgSize = 8192 := rfl
    rw [length_encode, hlen] at hle
    omega
  · intro heq
    -- the first byte of the sequencer is a byte of the data, and not that of 32
    have hload : load (serializer t.e wrappedState.mem (t.seq % 2 ^ 20)).1 (sequencerPos (2 ^ 20)) 8 = 32 :=
      (congrArg Words.sequencer heq :).trans (congrArg Words.sequencer hwords)
    have hholds := holds_load (serializer t.e wrappedState.mem (t.seq % 2 ^ 20)).1 (sequencerPos (2 ^ 20)) 8
    rw [hload] at hholds
    have hbyte := holds_iff.mp hholds 0 (by decide)
    rw [hseq, Nat.zero_mod, Nat.add_zero, serializer_wrapped_byte t.e hdata] at hbyte
    revert hbyte
    decide

end LazyLog.DurLog.Layout
