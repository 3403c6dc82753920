import LazyLog.DurLog.Interleaved

/-! # A whole call of `delEntriesBackup`

On a log whose entries are all finished a collection runs to its end: it goes from the watermark through the entries
that start at `max_seq` or before it (`passed`). Of these, and of the pending entries, it keeps those above the
numbers named, as pending entries, and deletes the others (`delEntriesBackup_eq`). What it returns is the number of
those deleted, on 32 bits. -/

namespace LazyLog.DurLog.Collections

open LazyLog.Lib.Bytes LazyLog.Lib.Tiling LazyLog.Rpc.Entry LazyLog.Rpc.Multi
open LazyLog.DurLog.Flat hiding Step
open LazyLog.DurLog.Ranges LazyLog.DurLog.Ring LazyLog.DurLog.DelEntries

/-! ### The call -/

/-- The loop over the ring at `s`: the log, `n_del` and `s` after it, nothing if it waits for a flag for good. -/
def delLoop (c : Config) (ids : List ReqID) (maxSeq : ℕ) (l : FlatLog) (nDel s : ℕ) : Option (FlatLog × ℕ × ℕ) :=
  if s ≤ maxSeq then
    if getFlagFromBuf l.mem (s % c.rgSize) = 1 then
      delLoop c ids maxSeq (delRound c ids l nDel s).1 (delRound c ids l nDel s).2.1 (delRound c ids l nDel s).2.2
    else none
  else some (l, nDel, s)
termination_by maxSeq + 1 - s
decreasing_by
  have hlt := lt_delRound c ids l nDel s
  omega

/-- `delEntriesBackup`, with no append in flight: the log after it and what it returns. -/
def delEntriesBackup (c : Config) (ids : List ReqID) (l : FlatLog) : Option (FlatLog × ℕ) :=
  let noted := noteMaxSeq ids l
  let pended := delPending ids noted.1
  (delLoop c ids noted.2 pended.1 pended.2 pended.1.orderedWatermk).map fun r =>
    ({ r.1 with orderedWatermk := r.2.2 }, r.2.1 % 2 ^ 32)

/-- The entries the loop over the ring deletes, from `s` on: those for which `n_del` is increased. -/
def ringDeleted (c : Config) (ids : List ReqID) (maxSeq : ℕ) (l : FlatLog) (s : ℕ) : List LogEntry :=
  if s ≤ maxSeq then
    if getFlagFromBuf l.mem (s % c.rgSize) = 1 then
      let rest := ringDeleted c ids maxSeq l (s + getSizeFromBuf l.mem (s % c.rgSize))
      if cliIdMaxSeqMap ids (getClientId l.mem (s % c.rgSize)) < getClientSeq l.mem (s % c.rgSize) then rest
      else (deserializer default l.mem (s % c.rgSize)).1 :: rest
    else []
  else []
termination_by maxSeq + 1 - s
decreasing_by
  have hlt : s < s + getSizeFromBuf l.mem (s % c.rgSize) := lt_delRound c [] l 0 s
  omega

/-- The entries a call deletes. -/
def deletedBy (c : Config) (ids : List ReqID) (l : FlatLog) : List LogEntry :=
  (l.pendingEntries.filter fun e => ¬ Above ids e) ++
    ringDeleted c ids (noteMaxSeq ids l).2 l l.orderedWatermk

variable {c : Config} {s : State} {ids : List ReqID} {maxSeq : ℕ}

/-! ### The steps of a call -/

/-- A step of a collection while the calls of `AppendEntry` stay as they are. -/
def StepAmong (c : Config) (ts : List Slot) (v v' : Backup) : Prop := Step c v v' ∧ v.server.slots = ts

theorem delLoop_steps {l l' : FlatLog} {nDel nDel' q q' : ℕ} (ts : List Slot)
    (h : delLoop c ids maxSeq l nDel q = some (l', nDel', q')) :
    maxSeq < q' ∧ Relation.ReflTransGen (StepAmong c ts) ⟨⟨l, ts⟩, .scanning ids maxSeq nDel q⟩
      ⟨⟨l', ts⟩, .scanning ids maxSeq nDel' q'⟩ := by
  fun_induction delLoop c ids maxSeq l nDel q with
  | case1 l nDel q hle hf ih =>
    obtain ⟨hlt, hrun⟩ := ih h
    exact ⟨hlt, hrun.head ⟨Step.round (v := ⟨⟨l, ts⟩, .scanning ids maxSeq nDel q⟩) rfl hle hf, rfl⟩⟩
  | case2 l nDel q hle hf => cases h
  | case3 l nDel q hle =>
    cases h
    exact ⟨not_le.mp hle, .refl⟩

/-- **A call is a run of the steps of a collection.** -/
theorem delEntriesBackup_steps {l l' : FlatLog} {n : ℕ} (ts : List Slot)
    (h : delEntriesBackup c ids l = some (l', n)) : ∃ nDel, n = nDel % 2 ^ 32 ∧
      Relation.ReflTransGen (StepAmong c ts) ⟨⟨l, ts⟩, .requested ids⟩ ⟨⟨l', ts⟩, .replied nDel⟩ := by
  unfold delEntriesBackup at h
  obtain ⟨⟨l₁, nDel, q⟩, hloop, heq⟩ := Option.map_eq_some_iff.mp h
  obtain ⟨rfl, rfl⟩ := Prod.mk.injEq _ _ _ _ ▸ heq
  obtain ⟨hlt, hrun⟩ := delLoop_steps ts hloop
  have hnote := Step.note (c := c) (v := ⟨⟨l, ts⟩, .requested ids⟩) rfl
  have hpend := Step.pending (c := c)
    (v := ⟨⟨(noteMaxSeq ids l).1, ts⟩, .noted ids (noteMaxSeq ids l).2⟩) rfl
  have hfinish := Step.finish (c := c) (v := ⟨⟨l₁, ts⟩, .scanning ids _ nDel q⟩) rfl hlt
  exact ⟨nDel, rfl, ((hrun.head ⟨hpend, rfl⟩).head ⟨hnote, rfl⟩).tail ⟨hfinish, rfl⟩⟩

/-! ### What a call does -/

/-- The entries from number `k` on, `m` of them, as the region has them. -/
def passed (s : State) (k m : ℕ) : List LogEntry := ((s.slots.drop k).take m).map Slot.written

theorem passed_succ {k m : ℕ} {t : Slot} (h : s.slots.drop k = t :: s.slots.drop (k + 1)) :
    passed s k (m + 1) = t.written :: passed s (k + 1) m := by
  unfold passed
  rw [h, List.take_succ_cons, List.map_cons]

theorem delPending_eq (ids : List ReqID) (l : FlatLog) :
    delPending ids l = ({ l with pendingEntries := l.pendingEntries.filter fun e => Above ids e },
      (l.pendingEntries.filter fun e => ¬ Above ids e).length) := by
  have hcount := List.length_eq_length_filter_add (l := l.pendingEntries) fun e => decide (Above ids e)
  unfold delPending
  refine Prod.ext rfl ?_
  show l.pendingEntries.length - (l.pendingEntries.filter fun e => decide (Above ids e)).length = _
  simp only [decide_not]
  omega

/-- The requests are erased from the map. -/
def eraseAll (ids : List ReqID) (m : ReqID → Option ℕ) : ReqID → Option ℕ :=
  ids.foldl (fun m rid => Function.update m rid none) m

theorem eraseAll_of_notMem {rid : ReqID} {m : ReqID → Option ℕ} (h : rid ∉ ids) : eraseAll ids m rid = m rid := by
  unfold eraseAll
  induction ids generalizing m with
  | nil => rfl
  | cons r ids ih =>
    rw [List.foldl_cons, ih (List.not_mem_of_not_mem_cons h),
      Function.update_of_ne (List.ne_of_not_mem_cons h)]

theorem eq_some_of_eraseAll {rid : ReqID} {q : ℕ} {m : ReqID → Option ℕ} (h : eraseAll ids m rid = some q) :
    m rid = some q := by
  unfold eraseAll at h
  induction ids generalizing m with
  | nil => exact h
  | cons r ids ih => exact eq_some_of_update_none (ih h)

section Loop
variable (h : Contents c s) (hf : ∀ t ∈ s.slots, t.Flagged)
include h hf

theorem exists_current {k : ℕ} (hk : k < s.slots.length) (hw : s.log.orderedWatermk ≤ pos entrySize s.entries k) :
    ∃ t, s.slots[k]? = some t ∧ s.slots.drop k = t :: s.slots.drop (k + 1) ∧
      Holds s.log.mem (pos entrySize s.entries k % c.rgSize) (encode t.written) ∧ Admissible t.e ∧
      pos entrySize s.entries (k + 1) = pos entrySize s.entries k + entrySize t.e := by
  have ht := List.getElem?_eq_getElem hk
  have hseq := h.tiled.seq ht
  refine ⟨_, ht, List.drop_eq_getElem_cons hk, ?_, h.tiled.admissible ht, pos_succ (getElem?_entries ht)⟩
  rw [← hseq]
  exact h.holds_of_flagged ht (by omega) (hf _ (List.mem_of_getElem? ht))

/-- **The loop over the ring** passes the entries that start at `max_seq` or before it. -/
theorem delLoop_eq (ids : List ReqID) : ∀ (m k nDel : ℕ) {l : FlatLog}, l.mem = s.log.mem →
    s.log.orderedWatermk ≤ pos entrySize s.entries k → k + m ≤ s.slots.length →
    (∀ i < m, pos entrySize s.entries (k + i) ≤ maxSeq) → maxSeq < pos entrySize s.entries (k + m) → ∃ wi,
      delLoop c ids maxSeq l nDel (pos entrySize s.entries k) =
        some ({ l with
            pendingEntries := l.pendingEntries ++ (passed s k m).filter fun e => Above ids e
            reqidToSeqMap := eraseAll ((passed s k m).map LogEntry.reqId) l.reqidToSeqMap
            orderedIdxWatermk := wi },
          nDel + ((passed s k m).filter fun e => ¬ Above ids e).length, pos entrySize s.entries (k + m))
  | 0, k, nDel, l, _, _, _, _, hlt => by
    have hlt' : ¬ pos entrySize s.entries k ≤ maxSeq := not_le.mpr hlt
    rw [delLoop, if_neg hlt']
    exact ⟨l.orderedIdxWatermk, by simp [passed, eraseAll]⟩
  | m + 1, k, nDel, l, hmem, hw, hk, hle, hlt => by
    obtain ⟨t, -, hdrop, hh, hadm, hpos⟩ := exists_current h hf (show k < s.slots.length by omega) hw
    rw [← hmem] at hh
    have hcur : pos entrySize s.entries k ≤ maxSeq := hle 0 (Nat.succ_pos m)
    rw [show k + (m + 1) = k + 1 + m by omega] at hlt ⊢
    obtain ⟨wi, hrest⟩ := delLoop_eq ids m (k + 1) (if Above ids t.written then nDel else nDel + 1)
      (l := { l with
        pendingEntries := if Above ids t.written then l.pendingEntries ++ [t.written] else l.pendingEntries
        reqidToSeqMap := Function.update l.reqidToSeqMap t.e.reqId none
        orderedIdxWatermk := (t.e.logIdx + 1).toNat })
      hmem (hw.trans (pos_mono (Nat.le_succ k))) (by omega)
      (fun i hi => by
        rw [Nat.add_right_comm]
        exact hle (i + 1) (Nat.succ_lt_succ hi)) hlt
    have hflag : getFlagFromBuf l.mem (pos entrySize s.entries k % c.rgSize) = 1 := getFlagFromBuf_of_holds hh.left
    refine ⟨wi, ?_⟩
    rw [delLoop, if_pos hcur, if_pos hflag, delRound_eq ids nDel hadm hh, passed_succ hdrop,
      ← hpos]
    simp only
    rw [hrest]
    by_cases habove : Above ids t.written
    · rw [List.filter_cons_of_pos (by simpa using habove), List.filter_cons_of_neg (by simpa using habove)]
      simp only [if_pos habove, List.append_assoc]
      rfl
    · rw [List.filter_cons_of_neg (by simpa using habove), List.filter_cons_of_pos (by simpa using habove)]
      simp only [if_neg habove, List.length_cons, Nat.add_assoc, Nat.add_comm 1]
      rfl

theorem ringDeleted_eq (ids : List ReqID) : ∀ (m : ℕ) {k : ℕ}, s.log.orderedWatermk ≤ pos entrySize s.entries k →
    k + m ≤ s.slots.length → (∀ i < m, pos entrySize s.entries (k + i) ≤ maxSeq) →
    maxSeq < pos entrySize s.entries (k + m) →
      ringDeleted c ids maxSeq s.log (pos entrySize s.entries k) = (passed s k m).filter fun e => ¬ Above ids e
  | 0, k, _, _, _, hlt => by
    have hlt' : ¬ pos entrySize s.entries k ≤ maxSeq := not_le.mpr hlt
    rw [ringDeleted, if_neg hlt']
    simp [passed]
  | m + 1, k, hw, hk, hle, hlt => by
    obtain ⟨t, -, hdrop, hh, hadm, hpos⟩ := exists_current h hf (show k < s.slots.length by omega) hw
    have hcur : pos entrySize s.entries k ≤ maxSeq := hle 0 (Nat.succ_pos m)
    rw [show k + (m + 1) = k + 1 + m by omega] at hlt
    have hrest := ringDeleted_eq ids m (k := k + 1) (hw.trans (pos_mono (Nat.le_succ k))) (by omega)
      (fun i hi => by
        rw [Nat.add_right_comm]
        exact hle (i + 1) (Nat.succ_lt_succ hi)) hlt
    have hsz : getSizeFromBuf s.log.mem (pos entrySize s.entries k % c.rgSize) = entrySize t.e :=
      (getSizeFromBuf_of_holds hh.left).trans hadm.getSize_eq
    have hd := deserializer_of_holds default hh hadm.sized (show (1 : UInt16) ≠ 0 by decide)
    obtain ⟨h1, h2⟩ := getReqId_of_holds hh.left
    have hflag : getFlagFromBuf s.log.mem (pos entrySize s.entries k % c.rgSize) = 1 :=
      getFlagFromBuf_of_holds hh.left
    rw [ringDeleted, if_pos hcur, if_pos hflag, passed_succ hdrop]
    simp only [h1, h2, hd, hsz, ← hpos, hrest]
    by_cases habove : Above ids t.written
    · rw [List.filter_cons_of_neg (by simpa using habove)]
      exact if_pos habove
    · rw [List.filter_cons_of_pos (by simpa using habove)]
      exact if_neg habove

/-- **A call of `delEntriesBackup` returns**: the pending entries and those it passes are kept if they are above the
numbers named, and deleted otherwise. -/
theorem delEntriesBackup_eq {k : ℕ} (ids : List ReqID) (hk : k ≤ s.slots.length)
    (hw : s.log.orderedWatermk = pos entrySize s.entries k)
    (hn : ∀ rid q, s.log.reqidToSeqMap rid = some q → q < s.log.sequencer ∨ q = 0) (hne : s.slots ≠ []) :
    ∃ m wi, k + m ≤ s.slots.length ∧
      (∀ i < m, pos entrySize s.entries (k + i) ≤ (noteMaxSeq ids s.log).2) ∧
      (noteMaxSeq ids s.log).2 < pos entrySize s.entries (k + m) ∧
      delEntriesBackup c ids s.log =
        some ({ s.log with
            pendingEntries := (s.log.pendingEntries ++ passed s k m).filter fun e => Above ids e
            reqidToSeqMap :=
              eraseAll ((passed s k m).map LogEntry.reqId) (noteMaxSeq ids s.log).1.reqidToSeqMap
            orderedWatermk := pos entrySize s.entries (k + m)
            orderedIdxWatermk := wi },
          ((s.log.pendingEntries ++ passed s k m).filter fun e => ¬ Above ids e).length % 2 ^ 32) ∧
      deletedBy c ids s.log = (s.log.pendingEntries ++ passed s k m).filter fun e => ¬ Above ids e := by
  have hpos : 0 < s.log.sequencer := by
    obtain ⟨t, ts, hts⟩ := List.exists_cons_of_ne_nil hne
    have hend := h.tiled.end_le_sequencer (i := 0) (t := t) (by rw [hts]; rfl)
    have hsz := entrySize_pos t.e
    omega
  obtain ⟨mp, hlog, -, hmax⟩ := noteMaxSeq_spec (fun q => q < s.log.sequencer ∨ q = 0) (Or.inr rfl) ids s.log hn
  have hlt : (noteMaxSeq ids s.log).2 < (s.entries.map entrySize).sum := by
    have hseq : s.log.sequencer = (s.entries.map entrySize).sum := h.tiled.sequencer
    omega
  obtain ⟨m, hm, hle, hgt⟩ := exists_passed hlt (show k ≤ s.entries.length by simpa [State.entries] using hk)
  have hm' : k + m ≤ s.slots.length := by simpa [State.entries] using hm
  obtain ⟨wi, hloop⟩ := delLoop_eq h hf ids m k (delPending ids (noteMaxSeq ids s.log).1).2
    (l := (delPending ids (noteMaxSeq ids s.log).1).1) (by rw [hlog]; rfl) hw.le hm' hle hgt
  have hdel := ringDeleted_eq h hf ids m hw.le hm' hle hgt
  refine ⟨m, wi, hm', hle, hgt, ?_, ?_⟩
  · have hcur : (delPending ids (noteMaxSeq ids s.log).1).1.orderedWatermk = pos entrySize s.entries k := by
      rw [hlog]
      exact hw
    unfold delEntriesBackup
    simp only
    rw [hcur, hloop, Option.map_some, delPending_eq, hlog, List.filter_append, List.filter_append, List.length_append]
  · unfold deletedBy
    rw [hw, hdel, List.filter_append]

end Loop

theorem inv_of_call {l : FlatLog} {n : ℕ} (h : DelEntries.Inv c (fun _ => True) ⟨s, .idle⟩)
    (heq : delEntriesBackup c ids s.log = some (l, n)) : DelEntries.Inv c (fun _ => True) ⟨⟨l, s.slots⟩, .idle⟩ := by
  obtain ⟨nDel, -, hrun⟩ := delEntriesBackup_steps s.slots heq
  have hkeep : ∀ v, Relation.ReflTransGen (StepAmong c s.slots) ⟨s, .requested ids⟩ v →
      DelEntries.Inv c (fun _ => True) v := by
    intro v hv
    induction hv with
    | refl => exact h.setGc (.requested ids) id id rfl
    | tail _ hstep ih => exact ih.step hstep.1 fun _ _ _ _ => trivial
  exact (hkeep _ hrun).setGc .idle id id rfl

/-- **A call on a backup** that has appended something: it returns, and passes what starts at `max_seq` or before. -/
theorem exists_call (h : DelEntries.Inv c (fun _ => True) ⟨s, .idle⟩) (hne : s.slots ≠ []) (ids : List ReqID) :
    ∃ k m l n, s.log.orderedWatermk = pos entrySize s.entries k ∧
      (noteMaxSeq ids s.log).2 < pos entrySize s.entries (k + m) ∧ delEntriesBackup c ids s.log = some (l, n) ∧
      l.sequencer = s.log.sequencer ∧
      l.pendingEntries = ((s.log.pendingEntries ++ passed s k m).filter fun e => Above ids e) := by
  obtain ⟨k, hk, hw, -⟩ := h.contents.settled
  obtain ⟨m, wi, -, -, hgt, heq, -⟩ := delEntriesBackup_eq h.contents
    (fun t ht => Or.inr (h.finished t ht)) ids hk hw h.noted hne
  exact ⟨k, m, _, _, hw, hgt, heq, rfl, rfl⟩

/-- **A call whose last entry is known**: `max_seq` is where entry `j` starts. -/
theorem call_eq {k j : ℕ} {t : Slot} (h : DelEntries.Inv c (fun _ => True) ⟨s, .idle⟩) (ids : List ReqID)
    (hw : s.log.orderedWatermk = pos entrySize s.entries k) (hkj : k ≤ j) (ht : s.slots[j]? = some t)
    (hmax : (noteMaxSeq ids s.log).2 = t.seq) :
    ∃ wi, delEntriesBackup c ids s.log =
        some ({ s.log with
            pendingEntries := (s.log.pendingEntries ++ passed s k (j + 1 - k)).filter fun e => Above ids e
            reqidToSeqMap :=
              eraseAll ((passed s k (j + 1 - k)).map LogEntry.reqId) (noteMaxSeq ids s.log).1.reqidToSeqMap
            orderedWatermk := pos entrySize s.entries (j + 1)
            orderedIdxWatermk := wi },
          ((s.log.pendingEntries ++ passed s k (j + 1 - k)).filter fun e => ¬ Above ids e).length % 2 ^ 32) ∧
      deletedBy c ids s.log =
        (s.log.pendingEntries ++ passed s k (j + 1 - k)).filter fun e => ¬ Above ids e := by
  have hlt := (List.getElem?_eq_some_iff.mp ht).1
  have hlen : s.entries.length = s.slots.length := by simp [State.entries]
  obtain ⟨m, wi, hm, hle, hgt, heq, hdel⟩ := delEntriesBackup_eq h.contents
    (fun t ht => Or.inr (h.finished t ht)) ids (hkj.trans hlt.le) hw h.noted
    (List.ne_nil_of_length_pos (Nat.zero_lt_of_lt hlt))
  -- the loop stops behind entry `j`
  have hseq := h.contents.tiled.seq ht
  simp only [hmax, hseq] at hle hgt
  obtain rfl : m = j + 1 - k := by
    have hjm : j < k + m := by
      by_contra hle'
      exact absurd hgt (Nat.not_lt.mpr (pos_mono (Nat.le_of_not_lt hle')))
    have hmj : ¬ j + 1 - k < m := by
      intro hlt'
      have hpos := pos_strictMono (f := entrySize) (fun e _ => entrySize_pos e)
        (show j + 1 ≤ s.entries.length by omega) (Nat.lt_succ_self j)
      have hle' := hle (j + 1 - k) hlt'
      rw [Nat.add_sub_of_le (by omega)] at hle'
      omega
    omega
  rw [Nat.add_sub_of_le (by omega)] at heq
  exact ⟨wi, heq, hdel⟩

theorem reachable_collect {A : Backup → Backup → Prop} {l : FlatLog} {n : ℕ} (hA : ∀ v v', A v v')
    (h : Interleaved.Reachable c A ⟨s, .idle⟩) (heq : delEntriesBackup c ids s.log = some (l, n)) :
    Interleaved.Reachable c A ⟨⟨l, s.slots⟩, .idle⟩ := by
  obtain ⟨nDel, -, hrun⟩ := delEntriesBackup_steps s.slots heq
  have hlift : Relation.ReflTransGen (fun v v' => Interleaved.Step c v v' ∧ A v v')
      ⟨s, .requested ids⟩ ⟨⟨l, s.slots⟩, .replied nDel⟩ :=
    hrun.lift id fun v v' hs => ⟨.locked hs.1, hA v v'⟩
  exact ((h.next ⟨.request ids rfl, hA _ _⟩).run hlift).next ⟨.reply rfl, hA _ _⟩

end LazyLog.DurLog.Collections
