import LazyLog.DurLog.Ring
import LazyLog.DurLog.Space

/-! # The speculative read (`DurabilityLogFlat::SpecReadEntry`)

`SpecReadEntry` looks an index up in a circular map of sequence numbers, and reads the entry in place from the
ring. Both are overwritten as the log goes on, the map after `idx_map_elem_cnt_` entries and the ring after
`rg_size_` bytes.

`Intact` is what appends keep: an entry stands in the region as long as the log has gone on by no more than the
ring since it was reserved, whether or not the watermark has passed it, and an index is in the map for
`idx_map_elem_cnt_` entries.

* `spec_read_is_sound`: an entry that is returned is the entry of the index, and its flag was set.
* `spec_read_reports_iff`: when the value returned is the one that the interface promises. -/

namespace LazyLog.DurLog.SpecRead

open LazyLog.Lib.Bytes LazyLog.Lib.Circular LazyLog.Lib.Tiling LazyLog.Lib.Run
open LazyLog.Rpc.Entry LazyLog.Rpc.Multi
open LazyLog.DurLog.Flat LazyLog.DurLog.Ranges LazyLog.DurLog.Ring
open LazyLog.DurLog.Space (sub64_of_le exits_iff_room room_of_exits)

variable {c : Config} {s s' : State} {i : ℕ}

/-! ### `SpecReadEntry` -/

/-- `indexer_->GetCurSeqNonAtm() - idx_map_elem_cnt_ + 64`, on 64 bits. -/
def lowIdx (c : Config) (l : FlatLog) : ℕ := (sub64 l.indexer c.idxMapElemCnt + 64) % 2 ^ 64

/-- The entry at `seq` may be in the way of an append: `cur_seq > rg_size_` and
`seq <= cur_seq - rg_size_ + (PAGE_SIZE << 6)`. -/
def InTheWay (c : Config) (l : FlatLog) (seq : ℕ) : Prop :=
  c.rgSize < l.sequencer ∧ seq ≤ (sub64 l.sequencer c.rgSize + pageSize <<< 6) % 2 ^ 64

instance (c : Config) (l : FlatLog) (seq : ℕ) : Decidable (InTheWay c l seq) :=
  inferInstanceAs (Decidable (_ ∧ _))

/-- `SpecReadEntry(idx, e)`: the entry after it, and the value returned; the length that `Deserializer` returns
is converted to an `int`. -/
def specReadEntry (c : Config) (l : FlatLog) (idx : UInt64) (e : LogEntry) : LogEntry × ℤ :=
  if idx.toNat ≤ lowIdx c l then (e, -1)
  else if l.indexer ≤ idx.toNat then (e, -2)
  else
    let seq := l.idxToSeq (idx.toNat % c.idxMapElemCnt)
    if InTheWay c l seq then (e, -1)
    else
      let offset := seq % c.rgSize
      if getIdx l.mem offset ≠ idx then (e, 0)
      else
        let r := deserializer e l.mem offset
        (r.1, Int.bmod r.2 (2 ^ 32))

/-! ### The log in use -/

/-- Calls of `AppendEntry` at any pace, and moves of the watermark. The bytes in use stay below the size of the
ring, and the watermark does not pass an entry whose call has something to write. -/
inductive UseStep (c : Config) : State → State → Prop
  | reserve {s : State} (e : LogEntry) (he : Admissible e)
    (hfits : s.log.sequencer + getSize e < s.log.orderedWatermk + c.rgSize) : UseStep c s (s.reserve c e)
  | proceed {s s' : State} {i : ℕ} (h : AppendStep c i s s') (hi : i < s.slots.length) : UseStep c s s'
  | setWatermk {s : State} (w wi : ℕ) (hle : w ≤ s.log.sequencer) (hfits : s.log.sequencer < w + c.rgSize)
    (hcomplete : ∀ t ∈ s.slots, t.seq < w → t.Complete c) : UseStep c s (s.setWatermk w wi)

/-- **The invariant**: what the region and the map hold. -/
structure Intact (c : Config) (s : State) : Prop where
  tiled : Tiled s
  le : s.log.orderedWatermk ≤ s.log.sequencer
  fits : s.log.sequencer < s.log.orderedWatermk + c.rgSize
  complete : ∀ t ∈ s.slots, t.seq < s.log.orderedWatermk → t.Complete c
  shows : ∀ {i : ℕ} {t : Slot}, s.slots[i]? = some t → s.log.sequencer ≤ t.seq + c.rgSize →
    Shows c s.log.mem t
  mapped : c.isPrimary = true → ∀ {i : ℕ} {t : Slot}, s.slots[i]? = some t →
    s.log.indexer ≤ i + c.idxMapElemCnt → s.log.idxToSeq (i % c.idxMapElemCnt) = t.seq

theorem Intact.init (h : Init s) : Intact c s := by
  have hT := Tiled.init h
  obtain ⟨hf, hn⟩ := h
  have hrg := c.rgSize_pos
  refine ⟨hT, ?_, ?_, ?_, ?_, ?_⟩
  · rw [hf.orderedWatermk]
    exact Nat.zero_le _
  · rw [hf.sequencer, hf.orderedWatermk]
    omega
  · intro t ht
    simp [hn] at ht
  · intro i t ht
    simp [hn] at ht
  · intro _ i t ht
    simp [hn] at ht

theorem Intact.reserve {e : LogEntry} (h : Intact c s) (he : Admissible e)
    (hfits : s.log.sequencer + getSize e < s.log.orderedWatermk + c.rgSize) : Intact c (s.reserve c e) := by
  have hstep : AppendStep c s.slots.length s (s.reserve c e) := .reserve e he
  have hseq : (s.reserve c e).log.sequencer = s.log.sequencer + getSize e := rfl
  refine ⟨h.tiled.reserve he, ?_, hfits, fun u hu hlt => ?_, fun {j u} hu hle => ?_, fun hp {j u} hu hle => ?_⟩
  · exact h.le.trans (Nat.le_add_right _ _)
  · obtain ⟨j, hj⟩ := List.mem_iff_getElem?.mp hu
    rcases slots_reserve_cases hj with ⟨-, rfl⟩ | hj
    · exact absurd hlt (Nat.not_lt.mpr h.le)
    · exact h.complete u (List.mem_of_getElem? hj) hlt
  · rcases slots_reserve_cases hu with ⟨-, rfl⟩ | hu
    · exact holds_setFlag _ _ _
    · have hj := (List.getElem?_eq_some_iff.mp hu).1
      refine (h.shows hu (by omega)).congr fun x hx => ?_
      exact appendStep_mem_eq_of_window (w := (s.reserve c e).log.sequencer - c.rgSize) h.tiled hstep (by omega) hu
        (by omega) (fun t ht => by simp at ht) (by omega) hx
  · have hidx := h.tiled.indexer
    have hmap : (s.reserve c e).log.idxToSeq =
        Function.update s.log.idxToSeq (s.log.indexer % c.idxMapElemCnt) s.log.sequencer := if_pos hp
    have hle' : s.log.indexer + 1 ≤ j + c.idxMapElemCnt := hle
    rw [hmap]
    rcases slots_reserve_cases hu with ⟨rfl, rfl⟩ | hu
    · rw [hidx, Function.update_self]
    · have hj := (List.getElem?_eq_some_iff.mp hu).1
      have hne : j % c.idxMapElemCnt ≠ s.log.indexer % c.idxMapElemCnt := by
        intro heq
        have := mod_inj_of_window (w := j) (Nat.le_refl j) (by omega) (by omega) (by omega) heq
        omega
      rw [Function.update_of_ne hne]
      exact h.mapped hp hu (by omega)

theorem appendStep_idxToSeq (hs : AppendStep c i s s') (hi : i < s.slots.length) :
    s'.log.idxToSeq = s.log.idxToSeq := by
  cases hs with
  | reserve e he => omega
  | serialise ht => rfl
  | raiseFlag ht => rfl
  | copyOverflow ht =>
    simp only [State.put, copyOverflow]
    split_ifs <;> rfl
  | insertReqid ht =>
    simp only [State.put, insertReqid]
    split_ifs <;> rfl

theorem Intact.proceed (h : Intact c s) (hs : AppendStep c i s s') (hi : i < s.slots.length) :
    Intact c s' := by
  have hmap := appendStep_idxToSeq hs hi
  obtain ⟨t, st, l, ht, rfl, hcomp, hq, hw, hidx, -⟩ := appendStep_complete hs hi
  have hle := h.le
  have hfits := h.fits
  refine ⟨h.tiled.appendStep hs, ?_, ?_, fun u hu hlt => ?_, fun {j u} hu hle' => ?_, fun hp {j u} hu hle' => ?_⟩
  · show l.orderedWatermk ≤ l.sequencer
    omega
  · show l.sequencer < l.orderedWatermk + c.rgSize
    omega
  · have hlt' : u.seq < s.log.orderedWatermk := hw ▸ hlt
    obtain ⟨j, hj⟩ := List.mem_iff_getElem?.mp hu
    rcases slots_put_cases ht hj with ⟨-, rfl⟩ | ⟨-, hj⟩
    · exact hcomp (h.complete t (List.mem_of_getElem? ht) hlt')
    · exact h.complete u (List.mem_of_getElem? hj) hlt'
  · have hle'' : s.log.sequencer ≤ u.seq + c.rgSize := hq ▸ hle'
    rcases slots_put_cases ht hu with ⟨rfl, rfl⟩ | ⟨hji, hu'⟩
    · exact appendStep_shows h.tiled hs ht hu (h.shows ht hle'')
    · refine (h.shows hu' hle'').congr fun x hx => ?_
      refine appendStep_mem_eq_of_window (w := s.log.sequencer - c.rgSize) h.tiled hs hji hu' (by omega)
        (fun v hv hnc => ?_) ?_ hx
      · by_contra hlt
        exact hnc (h.complete v (List.mem_of_getElem? hv) (by omega))
      · show l.sequencer ≤ _
        omega
  · have hle'' : s.log.indexer ≤ j + c.idxMapElemCnt := hidx ▸ hle'
    rw [hmap]
    rcases slots_put_cases ht hu with ⟨rfl, rfl⟩ | ⟨-, hu⟩
    · exact (h.mapped hp ht hle'' : _ = t.seq)
    · exact h.mapped hp hu hle''

theorem Intact.step (h : Intact c s) (hs : UseStep c s s') : Intact c s' := by
  cases hs with
  | reserve e he hfits => exact h.reserve he hfits
  | proceed hstep hi => exact h.proceed hstep hi
  | setWatermk w wi hle hfits hcomplete =>
    exact ⟨h.tiled.setWatermk w wi, hle, hfits, hcomplete, h.shows, h.mapped⟩

theorem Intact.steps (h : Intact c s) (hs : Relation.ReflTransGen (UseStep c) s s') : Intact c s' := by
  induction hs with
  | refl => exact h
  | tail _ hs ih => exact ih.step hs

theorem intact_of_reach (h : Reach Init (UseStep c) s) : Intact c s :=
  h.invariant (fun _ hs => Intact.init hs) fun _ _ _ hI hs => hI.step hs

/-! ### What a read finds -/

/-- The 64-bit difference: from the 64-th entry before the size of the map on it is what it looks like, and
before that it wraps. -/
theorem lowIdx_eq {l : FlatLog} (hlt : l.indexer < 2 ^ 63) : lowIdx c l =
    if c.idxMapElemCnt ≤ l.indexer + 64 then l.indexer + 64 - c.idxMapElemCnt
      else 2 ^ 64 + l.indexer + 64 - c.idxMapElemCnt := by
  have hcnt : c.idxMapElemCnt < 2 ^ 31 := lt_of_le_of_lt (Nat.div_le_self _ _) c.rgSize_lt
  unfold lowIdx sub64
  split_ifs <;> omega

theorem inTheWay_iff {l : FlatLog} (hlt : l.sequencer < 2 ^ 64) (seq : ℕ) :
    InTheWay c l seq ↔ c.rgSize < l.sequencer ∧ seq + c.rgSize ≤ l.sequencer + 2 ^ 18 := by
  have hrg := c.le_rgSize
  have hpage : pageSize <<< 6 = 2 ^ 18 := by decide
  unfold InTheWay
  rw [hpage]
  constructor
  · rintro ⟨h1, h2⟩
    rw [sub64_of_le h1.le hlt, Nat.mod_eq_of_lt (by omega)] at h2
    exact ⟨h1, by omega⟩
  · rintro ⟨h1, h2⟩
    rw [sub64_of_le h1.le hlt, Nat.mod_eq_of_lt (by omega)]
    exact ⟨h1, by omega⟩

theorem Intact.indexer_lt (h : Intact c s) (hlt : s.log.sequencer < 2 ^ 64) : s.log.indexer < 2 ^ 63 := by
  rw [h.tiled.indexer]
  exact h.tiled.length_lt hlt

/-- **A read beyond the guards** looks at the entry of the index, as far as its call has come. -/
theorem Intact.shows_at (h : Intact c s) (hp : c.isPrimary = true) (hlt : s.log.sequencer < 2 ^ 64) {t : Slot}
    (ht : s.slots[i]? = some t) (hlow : lowIdx c s.log < i)
    (hway : ¬ InTheWay c s.log (s.log.idxToSeq (i % c.idxMapElemCnt))) :
    s.log.idxToSeq (i % c.idxMapElemCnt) = t.seq ∧ Shows c s.log.mem t := by
  have hn := h.tiled.indexer
  have hi := (List.getElem?_eq_some_iff.mp ht).1
  have hidx := h.indexer_lt hlt
  rw [lowIdx_eq hidx] at hlow
  have hcnt : c.idxMapElemCnt < 2 ^ 31 := lt_of_le_of_lt (Nat.div_le_self _ _) c.rgSize_lt
  have hseq : s.log.idxToSeq (i % c.idxMapElemCnt) = t.seq := by
    refine h.mapped hp ht ?_
    split_ifs at hlow
    · omega
    · omega
  rw [hseq, inTheWay_iff hlt, not_and_or] at hway
  exact ⟨hseq, h.shows ht (by omega)⟩

/-- **A read of an entry whose flag is set** returns it. -/
theorem Intact.read (h : Intact c s) (hp : c.isPrimary = true) (hlt : s.log.sequencer < 2 ^ 64) {t : Slot}
    {idx : UInt64} (ht : s.slots[idx.toNat]? = some t) (hset : t.Flagged) (hlow : lowIdx c s.log < idx.toNat)
    (hway : ¬ InTheWay c s.log t.seq) (hmap : s.log.indexer ≤ idx.toNat + c.idxMapElemCnt) (e₀ : LogEntry) :
    specReadEntry c s.log idx e₀ = (t.written, (entrySize t.e : ℤ)) := by
  have hn := h.tiled.indexer
  have hi := (List.getElem?_eq_some_iff.mp ht).1
  have hseq := h.mapped hp ht hmap
  obtain ⟨-, hshows⟩ := h.shows_at hp hlt ht hlow (by rwa [hseq])
  have hadm := h.tiled.admissible ht
  have hholds := hshows.holds hset
  have hget : getIdx s.log.mem (t.seq % c.rgSize) = idx := by
    rw [getIdx_of_holds hholds.left]
    exact (h.tiled.idx ht).2.trans UInt64.ofNat_toNat
  have hint : Int.bmod (entrySize t.e : ℤ) (2 ^ 32) = (entrySize t.e : ℤ) := by
    have hfits := hadm.fits
    unfold msgSize at hfits
    exact Int.bmod_eq_of_le (by omega) (by omega)
  unfold specReadEntry
  simp only
  rw [if_neg (by omega), if_neg (by omega), hseq, if_neg hway, if_neg (not_not.mpr hget),
    deserializer_of_holds e₀ hholds hadm.sized (by simp [Slot.written])]
  simp only [show entrySize t.written = entrySize t.e from rfl, hint]

/-! ### A single appender and a collector -/

/-- Whole calls of `AppendEntry`, each after `waitForPlace` has returned, and moves of both watermarks to the
end of an entry. Sequence numbers stay below `2 ^ 64`. -/
inductive GcStep (c : Config) : State → State → Prop
  | append {s : State} (e : LogEntry) (he : Admissible e)
    (hexits : waitForPlaceExits true c.rgSize s.log.sequencer s.log.orderedWatermk (getSize e) = true)
    (hlt : s.log.sequencer + getSize e < 2 ^ 64) : GcStep c s (append c s e)
  | advance {s : State} (k : ℕ) (hk : k ≤ s.slots.length) (hle : s.log.orderedIdxWatermk ≤ k) :
    GcStep c s (s.setWatermk (pos entrySize s.entries k) k)

/-- What holds between the calls. -/
structure Serial (c : Config) (s : State) : Prop where
  intact : Intact c s
  returned : ∀ t ∈ s.slots, t.stage = .returned
  room : s.log.sequencer + 2 ^ 18 < s.log.orderedWatermk + c.rgSize
  seq_lt : s.log.sequencer < 2 ^ 64
  mark : s.log.orderedWatermk = pos entrySize s.entries s.log.orderedIdxWatermk
  mark_le : s.log.orderedIdxWatermk ≤ s.slots.length

theorem Serial.init (h : Init s) : Serial c s := by
  have hI := Intact.init (c := c) h
  obtain ⟨hf, hn⟩ := h
  have hrg := c.le_rgSize
  refine ⟨hI, ?_, ?_, ?_, ?_, ?_⟩
  · intro t ht
    simp [hn] at ht
  · rw [hf.sequencer, hf.orderedWatermk]
    omega
  · rw [hf.sequencer]
    decide
  · rw [hf.orderedWatermk, hf.orderedIdxWatermk, pos_zero]
  · rw [hf.orderedIdxWatermk]
    exact Nat.zero_le _

theorem Intact.append {e : LogEntry} (h : Intact c s) (he : Admissible e)
    (hfits : s.log.sequencer + getSize e < s.log.orderedWatermk + c.rgSize) : Intact c (append c s e) :=
  h.steps (append_steps UseStep.proceed (.single (.reserve e he hfits)))

theorem Serial.append {e : LogEntry} (h : Serial c s) (he : Admissible e)
    (hexits : waitForPlaceExits true c.rgSize s.log.sequencer s.log.orderedWatermk (getSize e) = true)
    (hlt : s.log.sequencer + getSize e < 2 ^ 64) : Serial c (append c s e) := by
  have hrg := c.rgSize_lt
  have hroom := room_of_exits c.le_rgSize (by omega) h.intact.le hlt hexits
  obtain ⟨h1, h2, h3⟩ := append_counters c s e
  have hmark := h.mark_le
  refine ⟨h.intact.append he (by omega), fun t ht => ?_, ?_, ?_, ?_, ?_⟩
  · rcases List.mem_append.mp ht with ht | ht
    · exact h.returned t ht
    · rw [List.mem_singleton.mp ht]
  · rw [h1, h2]
    exact hroom
  · rw [h1]
    exact hlt
  · have hentries : (Ring.append c s e).entries = s.entries ++ [stamp c s.log.indexer e] := by
      simp [State.entries, Ring.append]
    rw [h2, h3, hentries, pos_append_of_le (by simpa [State.entries] using hmark)]
    exact h.mark
  · rw [h3, Ring.append, List.length_append]
    omega

theorem Serial.advance_step {k : ℕ} (h : Serial c s) (hle : s.log.orderedIdxWatermk ≤ k) :
    UseStep c s (s.setWatermk (pos entrySize s.entries k) k) := by
  have hroom := h.room
  have hmono : s.log.orderedWatermk ≤ pos entrySize s.entries k := by
    rw [h.mark]
    exact pos_mono hle
  have htotal : pos entrySize s.entries k ≤ s.log.sequencer := by
    rw [h.intact.tiled.sequencer]
    exact pos_le_total k
  exact .setWatermk _ _ htotal (by omega) fun t ht _ => Or.inl (Or.inr (h.returned t ht))

theorem Serial.advance {k : ℕ} (h : Serial c s) (hk : k ≤ s.slots.length)
    (hle : s.log.orderedIdxWatermk ≤ k) : Serial c (s.setWatermk (pos entrySize s.entries k) k) := by
  have hroom := h.room
  have hmono : s.log.orderedWatermk ≤ pos entrySize s.entries k := by
    rw [h.mark]
    exact pos_mono hle
  refine ⟨h.intact.step (h.advance_step hle), h.returned, ?_, h.seq_lt, rfl, hk⟩
  show s.log.sequencer + 2 ^ 18 < pos entrySize s.entries k + c.rgSize
  omega

theorem serial_of_reach (h : Reach Init (GcStep c) s) : Serial c s := by
  refine h.invariant (fun _ hs => Serial.init hs) fun s s' _ hS hs => ?_
  cases hs with
  | append e he hexits hlt => exact hS.append he hexits hlt
  | advance k hk hle => exact hS.advance hk hle

theorem reach_use_of_reach (h : Reach Init (GcStep c) s) : Reach Init (UseStep c) s := by
  have hboth : Reach Init (UseStep c) s ∧ Serial c s := by
    refine h.invariant (P := fun s => Reach Init (UseStep c) s ∧ Serial c s)
      (fun s hs => ⟨.start hs, Serial.init hs⟩) fun s s' _ ⟨hr, hS⟩ hs => ?_
    have hroom := hS.room
    cases hs with
    | append e he hexits hlt =>
      have hrg := c.rgSize_lt
      have hfits := room_of_exits c.le_rgSize (by omega) hS.intact.le hlt hexits
      exact ⟨hr.run (append_steps UseStep.proceed (.single (.reserve e he (by omega)))), hS.append he hexits hlt⟩
    | advance k hk hle => exact ⟨hr.next (hS.advance_step hle), hS.advance hk hle⟩
  exact hboth.1

/-- A log of `n` entries without data, all but the last collected. -/
theorem exists_log : ∀ n ≤ 2 ^ 32, ∃ s, Reach Init (GcStep .smallPrimary) s ∧ s.slots.length = n ∧
    s.log.sequencer = 32 * n ∧ s.log.orderedIdxWatermk = n - 1 ∧ ∀ t ∈ s.slots, t.e.flags = 0
  | 0, _ => ⟨⟨.zeroed, []⟩, .start ⟨FlatLog.zeroed_fresh, rfl⟩, rfl, rfl, rfl, by simp⟩
  | n + 1, hn => by
    obtain ⟨s, hr, hlen, hseq, hmark, hflags⟩ := exists_log n (by omega)
    have hadv := hr.next (.advance s.slots.length (Nat.le_refl _) (by omega))
    have hS := serial_of_reach hr
    have hwm : pos entrySize s.entries s.slots.length = s.log.sequencer := by
      rw [hS.intact.tiled.sequencer, pos_of_length_le (by simp [State.entries])]
      rfl
    rw [hwm] at hadv
    obtain ⟨h1, -, h3⟩ := append_counters .smallPrimary (s.setWatermk s.log.sequencer s.slots.length) default
    refine ⟨_, hadv.next (.append default ⟨rfl, by decide⟩ ?_ ?_), ?_, ?_, ?_, ?_⟩
    · refine (exits_iff_room (by decide) (by decide) (Nat.le_refl _) ?_).mpr ?_
      · show s.log.sequencer + 32 < 2 ^ 64
        omega
      · show s.log.sequencer + 32 + 2 ^ 18 < s.log.sequencer + 2 ^ 20
        omega
    · show s.log.sequencer + 32 < 2 ^ 64
      omega
    · simp [append, State.setWatermk, hlen]
    · rw [h1]
      show s.log.sequencer + 32 = _
      omega
    · rw [h3]
      exact hlen
    · intro t ht
      rcases List.mem_append.mp ht with ht | ht
      · exact hflags t ht
      · rw [List.mem_singleton.mp ht]
        rfl

theorem idxMapElemCnt_mul (c : Config) : 32 * c.idxMapElemCnt = c.rgSize := by
  unfold Config.idxMapElemCnt Config.rgSize minEntrySize metaDataSize flagPos
  omega

theorem seq_add_le (h : Tiled s) {t : Slot} (ht : s.slots[i]? = some t) :
    t.seq + 32 * (s.slots.length - i) ≤ s.log.sequencer := by
  have hle := le_totalSize (s.entries.drop i)
  have hsplit : totalSize s.entries = totalSize (s.entries.take i) + totalSize (s.entries.drop i) := by
    rw [← totalSize_append, List.take_append_drop]
  have hpos : pos entrySize s.entries i = totalSize (s.entries.take i) := rfl
  have hlen : (s.entries.drop i).length = s.slots.length - i := by simp [State.entries]
  rw [h.seq ht, h.sequencer, hsplit, hpos, ← hlen]
  omega

theorem read_low {idx : UInt64} (e₀ : LogEntry) (hlow : idx.toNat ≤ lowIdx c s.log) :
    (specReadEntry c s.log idx e₀).2 = -1 := by
  unfold specReadEntry
  rw [if_pos hlow]

section Read
variable {idx : UInt64} {t : Slot} (h : Serial c s) (hp : c.isPrimary = true) (e₀ : LogEntry)
include h

theorem Serial.lowIdx_eq : lowIdx c s.log =
    if c.idxMapElemCnt ≤ s.slots.length + 64 then s.slots.length + 64 - c.idxMapElemCnt
      else 2 ^ 64 + s.slots.length + 64 - c.idxMapElemCnt := by
  rw [SpecRead.lowIdx_eq (h.intact.indexer_lt h.seq_lt), h.intact.tiled.indexer]

theorem Serial.read_beyond (hlow : lowIdx c s.log < idx.toNat) (hi : s.slots.length ≤ idx.toNat) :
    (specReadEntry c s.log idx e₀).2 = -2 := by
  have hn := h.intact.tiled.indexer
  unfold specReadEntry
  rw [if_neg (by omega), if_pos (by omega)]

theorem Serial.indexer_le (hlow : lowIdx c s.log < idx.toNat) :
    s.log.indexer ≤ idx.toNat + c.idxMapElemCnt := by
  have hn := h.intact.tiled.indexer
  have hcnt : c.idxMapElemCnt < 2 ^ 31 := lt_of_le_of_lt (Nat.div_le_self _ _) c.rgSize_lt
  rw [h.lowIdx_eq] at hlow
  split_ifs at hlow <;> omega

include hp in
theorem Serial.read_valid (ht : s.slots[idx.toNat]? = some t) (hlow : lowIdx c s.log < idx.toNat)
    (hway : ¬ InTheWay c s.log t.seq) : 0 < (specReadEntry c s.log idx e₀).2 := by
  have hmap := h.indexer_le hlow
  rw [h.intact.read hp h.seq_lt ht (Or.inr (Or.inr (h.returned t (List.mem_of_getElem? ht)))) hlow hway hmap e₀]
  exact Int.natCast_pos.mpr (entrySize_pos t.e)

include hp in
theorem Serial.read_inTheWay (ht : s.slots[idx.toNat]? = some t) (hlow : lowIdx c s.log < idx.toNat)
    (hway : InTheWay c s.log t.seq) : (specReadEntry c s.log idx e₀).2 = -1 := by
  have hn := h.intact.tiled.indexer
  have hi := (List.getElem?_eq_some_iff.mp ht).1
  have hmap := h.indexer_le hlow
  unfold specReadEntry
  simp only
  rw [if_neg (by omega), if_neg (by omega), h.intact.mapped hp ht hmap, if_pos hway]

/-- An entry that has not been collected is out of the way of the appends, and still in the map. -/
theorem Serial.uncollected (ht : s.slots[i]? = some t) (hi : s.log.orderedIdxWatermk ≤ i) :
    ¬ InTheWay c s.log t.seq ∧ s.slots.length + 64 < i + c.idxMapElemCnt := by
  have hroom := h.room
  have hmul := idxMapElemCnt_mul c
  have hseq := seq_add_le h.intact.tiled ht
  have hle : s.log.orderedWatermk ≤ t.seq := by
    rw [h.mark, h.intact.tiled.seq ht]
    exact pos_mono hi
  rw [inTheWay_iff h.seq_lt]
  exact ⟨by omega, by omega⟩

end Read

/-! ### Soundness -/

/-- **Speculative read is sound**: an entry that is returned is the one that was given the index, and its call
had set its flag. -/
theorem spec_read_is_sound (hp : c.isPrimary = true) (h : Reach Init (UseStep c) s)
    (hlt : s.log.sequencer < 2 ^ 64) (hflags : ∀ t ∈ s.slots, t.e.flags = 0) (idx : UInt64)
    (e₀ e : LogEntry) (r : ℤ) (hr : specReadEntry c s.log idx e₀ = (e, r)) (hpos : 0 < r) :
    ∃ t, s.slots[idx.toNat]? = some t ∧ t.idx = idx.toNat ∧ e.clientId = t.e.clientId ∧
      e.clientSeq = t.e.clientSeq ∧ e.data = t.e.data ∧ e.logIdx = idx ∧ t.Flagged := by
  have hI := intact_of_reach h
  have hn := hI.tiled.indexer
  unfold specReadEntry at hr
  simp only at hr
  split_ifs at hr with h1 h2 h3 h4
  · obtain ⟨-, rfl⟩ := hr
    omega
  · obtain ⟨-, rfl⟩ := hr
    omega
  · obtain ⟨-, rfl⟩ := hr
    omega
  · obtain ⟨-, rfl⟩ := hr
    omega
  · obtain ⟨t, ht⟩ : ∃ t, s.slots[idx.toNat]? = some t := ⟨_, List.getElem?_eq_getElem (by omega)⟩
    obtain ⟨hseq, hshows⟩ := hI.shows_at hp hlt ht (not_le.mp h1) h3
    rw [hseq] at hr
    obtain ⟨hidx, hlog⟩ := hI.tiled.idx ht
    have hset : t.Flagged := by
      by_contra hf
      have hzero := deserializer_of_flag_zero e₀ (hshows.flag_zero hf (hflags t (List.mem_of_getElem? ht)))
      rw [hzero] at hr
      obtain ⟨-, rfl⟩ := hr
      simp at hpos
    have hdes := deserializer_of_holds e₀ (hshows.holds hset) (hI.tiled.admissible ht).sized
      (by simp [Slot.written])
    rw [hdes] at hr
    obtain ⟨rfl, -⟩ := hr
    refine ⟨t, ht, hidx, rfl, rfl, rfl, ?_, hset⟩
    exact hlog.trans (UInt64.ofNat_toNat)

/-- The newest of 40000 entries. -/
theorem spec_read_is_sound_newest : ∃ s e r, Reach Init (UseStep .smallPrimary) s ∧ s.slots.length = 40000 ∧
    specReadEntry .smallPrimary s.log 39999 default = (e, r) ∧ 0 < r ∧ e.logIdx = 39999 := by
  obtain ⟨s, hr, hlen, -, hmark, hflags⟩ := exists_log 40000 (by decide)
  have hS := serial_of_reach hr
  obtain ⟨t, ht⟩ : ∃ t, s.slots[39999]? = some t := ⟨_, List.getElem?_eq_getElem (by omega)⟩
  have hlow : lowIdx .smallPrimary s.log < 39999 := by
    rw [hS.lowIdx_eq, hlen]
    decide
  have hpos := hS.read_valid rfl default (show s.slots[(39999 : UInt64).toNat]? = some t from ht) hlow
    (hS.uncollected ht (by omega)).1
  have hreach := reach_use_of_reach hr
  rcases hres : specReadEntry .smallPrimary s.log 39999 default with ⟨e, r⟩
  rw [hres] at hpos
  obtain ⟨-, -, -, -, -, -, hidx, -⟩ :=
    spec_read_is_sound rfl hreach hS.seq_lt hflags 39999 default e r hres hpos
  exact ⟨s, e, r, hreach, hlen, hres, hpos, hidx⟩

/-! ### What the interface promises -/

/-- **What the interface promises** of the value returned for an index: -2 for one that is not there yet, -1 for
one that has been collected, and a length for the others. -/
structure Reports (s : State) (idx : ℕ) (r : ℤ) : Prop where
  beyond : r = -2 ↔ s.slots.length ≤ idx
  collected : r = -1 ↔ idx < s.log.orderedIdxWatermk
  valid : s.log.orderedIdxWatermk ≤ idx → idx < s.slots.length → 0 < r

/-- **When it is what is returned.** An index that has not been collected needs a log of about the size of the
index map, for else `indexer - idx_map_elem_cnt_ + 64` wraps. A collected one has to be so far behind that the
map or the ring is about to overwrite it, or the log so short that the difference wraps. -/
structure FarEnough (c : Config) (s : State) (idx : ℕ) : Prop where
  uncollected : s.log.orderedIdxWatermk ≤ idx → c.idxMapElemCnt ≤ s.slots.length + 64 ∨
    2 ^ 64 + s.slots.length + 64 < idx + c.idxMapElemCnt
  collected : idx < s.log.orderedIdxWatermk → s.slots.length + 64 < c.idxMapElemCnt ∨
    idx + c.idxMapElemCnt ≤ s.slots.length + 64 ∨
    c.rgSize < s.log.sequencer ∧ pos entrySize s.entries idx + c.rgSize ≤ s.log.sequencer + 2 ^ 18

/-! The three kinds of indices. -/

theorem reports_of_collected {idx : ℕ} {r : ℤ} (hle : s.log.orderedIdxWatermk ≤ s.slots.length)
    (hi : idx < s.log.orderedIdxWatermk) : Reports s idx r ↔ r = -1 := by
  constructor
  · intro h
    exact h.collected.mpr hi
  · rintro rfl
    exact ⟨by omega, by omega, by omega⟩

theorem reports_of_valid {idx : ℕ} {r : ℤ} (hle : s.log.orderedIdxWatermk ≤ idx) (hi : idx < s.slots.length) :
    Reports s idx r ↔ 0 < r := by
  constructor
  · intro h
    exact h.valid hle hi
  · intro hr
    exact ⟨by omega, by omega, fun _ _ => hr⟩

theorem reports_of_beyond {idx : ℕ} {r : ℤ} (hle : s.log.orderedIdxWatermk ≤ s.slots.length)
    (hi : s.slots.length ≤ idx) : Reports s idx r ↔ r = -2 := by
  constructor
  · intro h
    exact h.beyond.mpr hi
  · rintro rfl
    exact ⟨by omega, by omega, by omega⟩

section Kinds
variable {idx : UInt64} (h : Serial c s) (hp : c.isPrimary = true) (e₀ : LogEntry)
include h

include hp in
/-- A collected index: -1 unless its entry is still in the map and in the ring. -/
theorem Serial.reports_collected (hc : idx.toNat < s.log.orderedIdxWatermk) :
    Reports s idx.toNat (specReadEntry c s.log idx e₀).2 ↔ FarEnough c s idx.toNat := by
  have hlow := h.lowIdx_eq
  have hmark := h.mark_le
  have hcnt : c.idxMapElemCnt < 2 ^ 31 := lt_of_le_of_lt (Nat.div_le_self _ _) c.rgSize_lt
  obtain ⟨t, ht⟩ : ∃ t, s.slots[idx.toNat]? = some t := ⟨_, List.getElem?_eq_getElem (by omega)⟩
  have hseq := h.intact.tiled.seq ht
  rw [reports_of_collected hmark hc]
  rcases Nat.lt_or_ge (lowIdx c s.log) idx.toNat with hl | hl
  · by_cases hway : InTheWay c s.log t.seq
    · rw [h.read_inTheWay hp e₀ ht hl hway]
      rw [inTheWay_iff h.seq_lt, hseq] at hway
      exact ⟨fun _ => ⟨by omega, fun _ => Or.inr (Or.inr hway)⟩, fun _ => rfl⟩
    · have hr := h.read_valid hp e₀ ht hl hway
      rw [inTheWay_iff h.seq_lt, hseq] at hway
      constructor
      · intro hneg
        omega
      · intro hfar
        rcases hfar.collected hc with h1 | h1 | h1
        · rw [hlow, if_neg (by omega)] at hl
          omega
        · rw [hlow, if_pos (by omega)] at hl
          omega
        · exact absurd h1 hway
  · rw [read_low e₀ hl]
    refine ⟨fun _ => ⟨by omega, fun _ => ?_⟩, fun _ => rfl⟩
    rw [hlow] at hl
    split_ifs at hl with hwrap
    · exact Or.inr (Or.inl (by omega))
    · exact Or.inl (by omega)

include hp in
/-- An index still to be collected: a length unless the difference wraps. -/
theorem Serial.reports_valid (hc : s.log.orderedIdxWatermk ≤ idx.toNat) (hi : idx.toNat < s.slots.length) :
    Reports s idx.toNat (specReadEntry c s.log idx e₀).2 ↔ FarEnough c s idx.toNat := by
  have hlow := h.lowIdx_eq
  have hcnt : c.idxMapElemCnt < 2 ^ 31 := lt_of_le_of_lt (Nat.div_le_self _ _) c.rgSize_lt
  obtain ⟨t, ht⟩ : ∃ t, s.slots[idx.toNat]? = some t := ⟨_, List.getElem?_eq_getElem hi⟩
  obtain ⟨hway, hmap⟩ := h.uncollected ht hc
  rw [reports_of_valid hc hi]
  rcases Nat.lt_or_ge (lowIdx c s.log) idx.toNat with hl | hl
  · refine ⟨fun _ => ⟨fun _ => Or.inl ?_, by omega⟩, fun _ => h.read_valid hp e₀ ht hl hway⟩
    rw [hlow] at hl
    split_ifs at hl with hwrap
    · exact hwrap
    · omega
  · rw [read_low e₀ hl]
    constructor
    · intro hneg
      omega
    · intro hfar
      rcases hfar.uncollected hc with h1 | h1
      · rw [hlow, if_pos h1] at hl
        omega
      · omega

/-- An index beyond the end: -2 unless the difference wraps. -/
theorem Serial.reports_beyond (hi : s.slots.length ≤ idx.toNat) :
    Reports s idx.toNat (specReadEntry c s.log idx e₀).2 ↔ FarEnough c s idx.toNat := by
  have hlow := h.lowIdx_eq
  have hmark := h.mark_le
  have hcnt : c.idxMapElemCnt < 2 ^ 31 := lt_of_le_of_lt (Nat.div_le_self _ _) c.rgSize_lt
  have hmul := idxMapElemCnt_mul c
  have hrg := c.le_rgSize
  rw [reports_of_beyond hmark hi]
  rcases Nat.lt_or_ge (lowIdx c s.log) idx.toNat with hl | hl
  · rw [h.read_beyond e₀ hl hi]
    refine ⟨fun _ => ⟨fun _ => ?_, by omega⟩, fun _ => rfl⟩
    rw [hlow] at hl
    split_ifs at hl with hwrap
    · exact Or.inl hwrap
    · exact Or.inr (by omega)
  · rw [read_low e₀ hl]
    constructor
    · intro hneg
      omega
    · intro hfar
      rw [hlow] at hl
      rcases hfar.uncollected (by omega) with h1 | h1
      · rw [if_pos h1] at hl
        omega
      · split_ifs at hl <;> omega

end Kinds

/-- **Speculative read reports what its interface promises** exactly for the indices that are far enough. -/
theorem spec_read_reports_iff (hp : c.isPrimary = true) (h : Reach Init (GcStep c) s) (idx : UInt64)
    (e₀ : LogEntry) : Reports s idx.toNat (specReadEntry c s.log idx e₀).2 ↔ FarEnough c s idx.toNat := by
  have hS := serial_of_reach h
  rcases Nat.lt_or_ge idx.toNat s.slots.length with hi | hi
  · rcases Nat.lt_or_ge idx.toNat s.log.orderedIdxWatermk with hc | hc
    · exact hS.reports_collected hp e₀ hc
    · exact hS.reports_valid hp e₀ hc hi
  · exact hS.reports_beyond e₀ hi

/-- The newest of 40000 entries, all others being collected. -/
theorem spec_read_reports_iff_newest : ∃ s, Reach Init (GcStep .smallPrimary) s ∧ s.slots.length = 40000 ∧
    Reports s 39999 (specReadEntry .smallPrimary s.log 39999 default).2 := by
  obtain ⟨s, hr, hlen, -, hmark, -⟩ := exists_log 40000 (by decide)
  refine ⟨s, hr, hlen, (spec_read_reports_iff rfl hr 39999 default).mpr ⟨fun _ => Or.inl ?_, fun hlt => ?_⟩⟩
  · rw [hlen]
    decide
  · rw [hmark] at hlt
    exact absurd hlt (by decide)

/-- After one append the index 0 is neither collected nor readable: -1 is returned. -/
theorem spec_read_misses_the_first :
    Reach Init (GcStep .smallPrimary) (append .smallPrimary ⟨.zeroed, []⟩ default) ∧
      ¬ Reports (append .smallPrimary ⟨.zeroed, []⟩ default) 0
        (specReadEntry .smallPrimary (append .smallPrimary ⟨.zeroed, []⟩ default).log 0 default).2 := by
  have hr : Reach Init (GcStep .smallPrimary) ⟨.zeroed, []⟩ := .start ⟨FlatLog.zeroed_fresh, rfl⟩
  refine ⟨hr.next (.append default ⟨rfl, by decide⟩ (by decide) (by decide)), fun h => ?_⟩
  have hlow : (specReadEntry .smallPrimary (append .smallPrimary ⟨.zeroed, []⟩ default).log 0 default).2 = -1 :=
    read_low _ (Nat.zero_le _)
  have hpos := h.valid (Nat.zero_le _) Nat.one_pos
  rw [hlow] at hpos
  exact absurd hpos (by decide)

end LazyLog.DurLog.SpecRead
