import LazyLog.DurLog.DelEntries
import LazyLog.DurLog.GcMessage

/-! # What a collection leaves pending

A collection is told the greatest number of each client of a batch. It takes the entries of the batch off the ring,
and out of `pending_entries_`, if they are there when it starts: it goes through the ring up to the last entry that
is named, and with it come all entries of the batch, because a client's entries are in the order of their numbers.
An entry that comes after its batch has been collected is one more entry that the next collection passes, which knows
it only by its client.

`Gone P v`: the entries of the requests in `P` have been appended and passed, and none of them is pending. This holds
of the batches before the one that is being collected, all the time, and of this one in the end (`Progress`). -/

namespace LazyLog.DurLog.Processed

open LazyLog.Lib.Tiling LazyLog.Rpc.Entry LazyLog.Rpc.Multi LazyLog.DurLog.Flat LazyLog.DurLog.Ranges
open LazyLog.DurLog.Ring LazyLog.DurLog.FlatCli LazyLog.DurLog.DelEntries LazyLog.DurLog.GcMessage

/-! ### Where the entries are -/

/-- The entry of the request has the sequence number `q`. -/
def At (v : Backup) (rid : ReqID) (q : ℕ) : Prop := ∃ t ∈ v.server.slots, t.e.reqId = rid ∧ t.seq = q

/-- The entries of a client are in the order of their numbers. -/
def Ordered (v : Backup) : Prop :=
  ∀ ⦃r r' q q'⦄, At v r q → At v r' q' → r.1 = r'.1 → r.2 ≤ r'.2 → q ≤ q'

/-- An entry that the collection has not passed is in the map, if its call of `AppendEntry` has returned. -/
def Noted (v : Backup) : Prop :=
  ∀ t ∈ v.server.slots, t.stage = .returned → v.cursor ≤ t.seq → v.server.log.reqidToSeqMap t.e.reqId = some t.seq

/-- **The entries of these requests are gone**: they have come, and are neither before the collection nor pending. -/
structure Gone (P : ReqID → Prop) (v : Backup) : Prop where
  appended : ∀ rid, P rid → ∃ q, At v rid q
  passed : ∀ rid q, P rid → At v rid q → q < v.cursor
  pending : ∀ e ∈ v.server.log.pendingEntries, ¬ P e.reqId

/-- The collection up to `maxSeq` passes the entries of these requests. -/
structure Reaches (B : ReqID → Prop) (maxSeq : ℕ) (v : Backup) : Prop where
  appended : ∀ rid, B rid → ∃ q, At v rid q
  within : ∀ rid q, B rid → At v rid q → q < v.cursor ∨ q ≤ maxSeq

/-- No request of `B` is above the number named for its client, and that number is the number of one of them. -/
def Covers (ids : List ReqID) (B : ReqID → Prop) : Prop :=
  ∀ rid, B rid → rid.2 ≤ cliIdMaxSeqMap ids rid.1 ∧ (rid.1, cliIdMaxSeqMap ids rid.1) ∈ ids ∧
    B (rid.1, cliIdMaxSeqMap ids rid.1)

/-- The call of `AppendEntry` for this request has returned. -/
def Returned (v : Backup) (rid : ReqID) : Prop := ∃ t ∈ v.server.slots, t.e.reqId = rid ∧ t.stage = .returned

/-- **A collection under way**, of the requests in `B` after those in `P`, told the numbers `ids`. -/
def Progress (ids : List ReqID) (P B : ReqID → Prop) (v : Backup) : Prop :=
  match v.gc with
  | .idle => Gone P v
  | .requested ids' => ids' = ids ∧ Gone P v
  | .noted ids' maxSeq => Covers ids' B ∧ Gone P v ∧ Reaches B maxSeq v
  | .scanning ids' maxSeq _ _ =>
    Covers ids' B ∧ Gone P v ∧ Reaches B maxSeq v ∧ ∀ e ∈ v.server.log.pendingEntries, ¬ B e.reqId
  | .replied _ => Gone (fun rid => P rid ∨ B rid) v

variable {c : Config} {S P B : ReqID → Prop} {v v' : Backup} {ids : List ReqID} {e : LogEntry}

theorem Ordered.unique (h : Ordered v) {rid : ReqID} {q q' : ℕ} (hq : At v rid q) (hq' : At v rid q') : q = q' :=
  Nat.le_antisymm (h hq hq' rfl (UInt64.le_refl _)) (h hq' hq rfl (UInt64.le_refl _))

/-! ### The lookup -/

theorem noteMaxSeq_found (l : FlatLog) {rid : ReqID} {q : ℕ} (hq : l.reqidToSeqMap rid = some q) :
    (noteMaxSeq ids l).1.reqidToSeqMap rid = some q ∧ (rid ∈ ids → q ≤ (noteMaxSeq ids l).2) := by
  unfold noteMaxSeq
  induction ids using List.reverseRecOn with
  | nil => exact ⟨hq, fun h => absurd h List.not_mem_nil⟩
  | append_singleton ids r ih =>
    obtain ⟨hmap, hmax⟩ := ih
    rw [List.foldl_append, List.foldl_cons, List.foldl_nil]
    by_cases heq : rid = r
    · subst heq
      simp only [hmap, Option.getD_some, Function.update_self]
      exact ⟨trivial, fun _ => le_max_right _ _⟩
    · simp only [Function.update_of_ne heq]
      refine ⟨hmap, fun hmem => ?_⟩
      rcases List.mem_append.mp hmem with h | h
      · exact (hmax h).trans (le_max_left _ _)
      · exact absurd (List.mem_singleton.mp h) heq

theorem covers_of_perClientMax {real : List LogEntry} (h : PerClientMax real ids) :
    Covers ids (· ∈ real.map LogEntry.reqId) := by
  rintro rid hrid
  obtain ⟨e, he, rfl⟩ := List.mem_map.mp hrid
  have hclient := (h.clients e.clientId).mpr ⟨e, he, rfl⟩
  rcases cliIdMaxSeqMap_cases ids e.clientId with hmem | ⟨hno, -⟩
  · obtain ⟨⟨x, hx, hid, hseq⟩, hle⟩ := h.max _ _ hmem
    exact ⟨hle e he rfl, hmem, List.mem_map.mpr ⟨x, hx, Prod.ext hid hseq⟩⟩
  · exact absurd hclient hno

/-! ### A backup that goes on -/

/-- What has come stays, and the collection does not go back. -/
structure Onward (v v' : Backup) : Prop where
  stays : ∀ rid q, At v rid q → At v' rid q
  ordered : Ordered v'
  cursor_le : v.cursor ≤ v'.cursor

theorem Gone.onward (h : Gone P v) (ho : Onward v v')
    (hp : ∀ e ∈ v'.server.log.pendingEntries, ¬ P e.reqId) : Gone P v' := by
  refine ⟨fun rid hrid => ?_, fun rid q hrid hq => ?_, hp⟩
  · obtain ⟨q, hq⟩ := h.appended rid hrid
    exact ⟨q, ho.stays rid q hq⟩
  · obtain ⟨q', hq'⟩ := h.appended rid hrid
    obtain rfl := ho.ordered.unique hq (ho.stays rid q' hq')
    exact (h.passed rid q hrid hq').trans_le ho.cursor_le

theorem Reaches.onward {maxSeq : ℕ} (h : Reaches B maxSeq v) (ho : Onward v v') : Reaches B maxSeq v' := by
  refine ⟨fun rid hrid => ?_, fun rid q hrid hq => ?_⟩
  · obtain ⟨q, hq⟩ := h.appended rid hrid
    exact ⟨q, ho.stays rid q hq⟩
  · obtain ⟨q', hq'⟩ := h.appended rid hrid
    obtain rfl := ho.ordered.unique hq (ho.stays rid q' hq')
    exact (h.within rid q hrid hq').imp (fun hlt => hlt.trans_le ho.cursor_le) id

theorem Progress.onward (h : Progress ids P B v) (ho : Onward v v') (hgc : v'.gc = v.gc)
    (hp : v'.server.log.pendingEntries = v.server.log.pendingEntries) : Progress ids P B v' := by
  unfold Progress at h ⊢
  rw [hgc]
  have hgone : ∀ {Q : ReqID → Prop}, Gone Q v → Gone Q v' := fun hg => hg.onward ho (hp ▸ hg.pending)
  split at h
  · exact hgone h
  · exact ⟨h.1, hgone h.2⟩
  · exact ⟨h.1, hgone h.2.1, h.2.2.onward ho⟩
  · exact ⟨h.1, hgone h.2.1, h.2.2.1.onward ho, hp ▸ h.2.2.2⟩
  · exact hgone h

theorem onward_of_entries (ho : Ordered v) (hat : ∀ rid q, At v' rid q ↔ At v rid q) (hcur : v.cursor ≤ v'.cursor) :
    Onward v v' :=
  ⟨fun rid q => (hat rid q).mpr, fun r r' q q' hq hq' => ho ((hat r q).mp hq) ((hat r' q').mp hq'), hcur⟩

/-! ### Appends -/

theorem at_appendMem {rid : ReqID} {q : ℕ} (h : At v rid q) (e : LogEntry) :
    At { v with server := appendMem c v.server e } rid q := by
  obtain ⟨t, ht, hrest⟩ := h
  exact ⟨t, List.mem_append_left _ ht, hrest⟩

theorem at_put {i : ℕ} {t : Slot} {st : Stage} {l : FlatLog} (ht : v.server.slots[i]? = some t) (rid : ReqID)
    (q : ℕ) : At { v with server := v.server.put i t st l } rid q ↔ At v rid q := by
  constructor
  · rintro ⟨u, hu, hr, hq⟩
    obtain ⟨j, hj⟩ := List.mem_iff_getElem?.mp hu
    rcases slots_put_cases ht hj with ⟨-, rfl⟩ | ⟨-, hj⟩
    · exact ⟨t, List.mem_of_getElem? ht, hr, hq⟩
    · exact ⟨u, List.mem_of_getElem? hj, hr, hq⟩
  · rintro ⟨u, hu, hr, hq⟩
    obtain ⟨j, hj⟩ := List.mem_iff_getElem?.mp hu
    by_cases hij : j = i
    · subst hij
      obtain rfl : t = u := Option.some.inj (ht.symm.trans hj)
      exact ⟨_, List.mem_of_getElem? (slots_put_self ht st l), hr, hq⟩
    · exact ⟨u, List.mem_of_getElem? ((slots_put_ne hij t st l).trans hj), hr, hq⟩

theorem onward_appendMem (e : LogEntry) (ho : Ordered { v with server := appendMem c v.server e }) :
    Onward v { v with server := appendMem c v.server e } :=
  ⟨fun _ _ h => at_appendMem h e, ho, (cursor_appendMem c v e).ge⟩

theorem onward_insertReqid {i : ℕ} {t : Slot} (ho : Ordered v) (ht : v.server.slots[i]? = some t) :
    Onward v { v with server := v.server.put i t .returned (insertReqid c v.server.log t.e t.seq) } :=
  onward_of_entries ho (at_put ht) (cursor_insertReqid c v i t).ge

theorem Progress.append (h : Progress ids P B v) (e : LogEntry)
    (ho : Ordered { v with server := appendMem c v.server e }) :
    Progress ids P B { v with server := appendMem c v.server e } :=
  h.onward (onward_appendMem e ho) rfl (appendMem_counters c v.server e).2.2.2.2

theorem Noted.append (h : Noted v) (e : LogEntry) : Noted { v with server := appendMem c v.server e } := by
  intro t ht hst hle
  rw [cursor_appendMem] at hle
  rcases List.mem_append.mp ht with ht | ht
  · rw [(appendMem_counters c v.server e).2.2.2.1]
    exact h t ht hst hle
  · rw [List.mem_singleton.mp ht] at hst
    cases hst

theorem Noted.insertReqid (h : Noted v) (hc : c.isPrimary = false) (ho : Ordered v) {i : ℕ} {t : Slot}
    (ht : v.server.slots[i]? = some t) :
    Noted { v with server := v.server.put i t .returned (insertReqid c v.server.log t.e t.seq) } := by
  have hmap : (Flat.insertReqid c v.server.log t.e t.seq).reqidToSeqMap =
      Function.update v.server.log.reqidToSeqMap t.e.reqId (some t.seq) := by
    unfold Flat.insertReqid
    simp [hc]
  intro u hu hst hle
  rw [cursor_insertReqid] at hle
  show (Flat.insertReqid c v.server.log t.e t.seq).reqidToSeqMap u.e.reqId = some u.seq
  rw [hmap]
  obtain ⟨j, hj⟩ := List.mem_iff_getElem?.mp hu
  rcases slots_put_cases ht hj with ⟨-, rfl⟩ | ⟨-, hj⟩
  · exact Function.update_self ..
  · have hu := List.mem_of_getElem? hj
    by_cases heq : u.e.reqId = t.e.reqId
    · have hseq := ho.unique ⟨u, hu, heq, rfl⟩ ⟨t, List.mem_of_getElem? ht, rfl, rfl⟩
      rw [heq, Function.update_self, hseq]
    · rw [Function.update_of_ne heq]
      exact h u hu hst hle

/-! ### The steps of a collection -/

theorem at_collect {l : FlatLog} {gc : GcPc} (rid : ReqID) (q : ℕ) :
    At ⟨{ v.server with log := l }, gc⟩ rid q ↔ At v rid q := Iff.rfl

/-- **The requests are looked up**: the calls for the batch have returned, so the last one named is above all of it.
-/
theorem Progress.note (h : Progress ids P B v) (hpc : v.gc = .requested ids) (ho : Ordered v) (hn : Noted v)
    (hcov : Covers ids B) (hret : ∀ rid, B rid → Returned v rid) :
    Progress ids P B
      { server := { v.server with log := (noteMaxSeq ids v.server.log).1 }
        gc := .noted ids (noteMaxSeq ids v.server.log).2 } := by
  have hcur : v.cursor = v.server.log.orderedWatermk := cursor_of_not_locked (by rw [hpc]; exact id)
  obtain ⟨m, hm⟩ := noteMaxSeq_log ids v.server.log
  have hon : Onward v
      { server := { v.server with log := (noteMaxSeq ids v.server.log).1 }
        gc := .noted ids (noteMaxSeq ids v.server.log).2 } := by
    refine onward_of_entries ho at_collect ?_
    rw [hcur, hm]
    exact Nat.le_refl _
  unfold Progress at h
  rw [hpc] at h
  refine ⟨hcov, h.2.onward hon ?_, ?_, fun rid q hrid hq => ?_⟩
  · rw [hm]
    exact h.2.pending
  · intro rid hrid
    obtain ⟨t, ht, hr, -⟩ := hret rid hrid
    exact ⟨t.seq, t, ht, hr, rfl⟩
  · obtain ⟨hle, hmem, hB⟩ := hcov rid hrid
    obtain ⟨u, hu, hr, hst⟩ := hret _ hB
    have hqu : q ≤ u.seq := ho hq ⟨u, hu, hr, rfl⟩ rfl hle
    by_cases hlt : u.seq < v.cursor
    · exact Or.inl ((hqu.trans_lt hlt).trans_le hon.cursor_le)
    · have hfound := hn u hu hst (not_lt.mp hlt)
      rw [hr] at hfound
      exact Or.inr (hqu.trans ((noteMaxSeq_found v.server.log hfound).2 hmem))

theorem Noted.note (h : Noted v) (hpc : v.gc = .requested ids) :
    Noted
      { server := { v.server with log := (noteMaxSeq ids v.server.log).1 }
        gc := .noted ids (noteMaxSeq ids v.server.log).2 } := by
  intro t ht hst hle
  refine (noteMaxSeq_found v.server.log (h t ht hst ?_)).1
  obtain ⟨m, hm⟩ := noteMaxSeq_log ids v.server.log
  rw [hm] at hle
  rw [cursor_of_not_locked (by rw [hpc]; exact id)]
  exact hle

/-- **The pending entries** of the batch are deleted. -/
theorem Progress.pending {maxSeq : ℕ} {ids' : List ReqID} (h : Progress ids' P B v) (hpc : v.gc = .noted ids maxSeq)
    (ho : Ordered v) :
    Progress ids' P B
      { server := { v.server with log := (delPending ids v.server.log).1 }
        gc := .scanning ids maxSeq (delPending ids v.server.log).2 v.server.log.orderedWatermk } := by
  have hcur : v.cursor = v.server.log.orderedWatermk := cursor_of_not_locked (by rw [hpc]; exact id)
  have hon : Onward v
      { server := { v.server with log := (delPending ids v.server.log).1 }
        gc := .scanning ids maxSeq (delPending ids v.server.log).2 v.server.log.orderedWatermk } :=
    onward_of_entries ho at_collect hcur.le
  unfold Progress at h
  rw [hpc] at h
  obtain ⟨hcov, hgone, hreach⟩ := h
  refine ⟨hcov, hgone.onward hon fun e he => ?_, hreach.onward hon, fun e he hB => ?_⟩
  · exact hgone.pending e (List.mem_filter.mp he).1
  · have habove : Above ids e := of_decide_eq_true (List.mem_filter.mp he).2
    exact UInt64.not_lt.mpr (hcov e.reqId hB).1 habove

/-- **One round** takes no entry of the batch into `pending_entries_`. -/
theorem Progress.round {maxSeq nDel s : ℕ} {ids' : List ReqID} (h : Progress ids' P B v)
    (hpc : v.gc = .scanning ids maxSeq nDel s) (hs : s ≤ maxSeq)
    (hf : getFlagFromBuf v.server.log.mem (s % c.rgSize) = 1) (hinv : DelEntries.Inv c S v) (ho : Ordered v) :
    Progress ids' P B
      { server := { v.server with log := (delRound c ids v.server.log nDel s).1 }
        gc := .scanning ids maxSeq (delRound c ids v.server.log nDel s).2.1
          (delRound c ids v.server.log nDel s).2.2 } := by
  obtain ⟨k, t, ht, hseq, hh, -⟩ := hinv.current hpc hs hf
  have hcur := cursor_of_scanning hpc
  rw [delRound_eq ids nDel (hinv.contents.tiled.admissible ht) hh]
  unfold Progress at h
  rw [hpc] at h
  obtain ⟨hcov, hgone, hreach, hpend⟩ := h
  have hat : At v t.e.reqId s := ⟨t, List.mem_of_getElem? ht, rfl, hseq⟩
  have hle : v.cursor ≤ s + entrySize t.e := by omega
  -- what becomes pending is above the numbers named, and is not passed yet
  have hnew : ∀ {Q : ReqID → Prop}, (∀ e ∈ v.server.log.pendingEntries, ¬ Q e.reqId) →
      (Above ids t.written → ¬ Q t.e.reqId) → ∀ e ∈ (if Above ids t.written
        then v.server.log.pendingEntries ++ [t.written] else v.server.log.pendingEntries), ¬ Q e.reqId := by
    intro Q hold ht e he
    split_ifs at he with habove
    · rcases List.mem_append.mp he with he | he
      · exact hold e he
      · rw [List.mem_singleton.mp he]
        exact ht habove
    · exact hold e he
  refine ⟨hcov, hgone.onward ?_ (hnew hgone.pending fun _ hP => ?_), hreach.onward ?_,
    hnew hpend fun habove hB => ?_⟩
  · exact onward_of_entries ho at_collect hle
  · have hlt := hgone.passed _ _ hP hat
    omega
  · exact onward_of_entries ho at_collect hle
  · exact UInt64.not_lt.mpr (hcov t.e.reqId hB).1 habove

theorem Noted.round {maxSeq nDel s : ℕ} (h : Noted v) (hpc : v.gc = .scanning ids maxSeq nDel s) (hs : s ≤ maxSeq)
    (hf : getFlagFromBuf v.server.log.mem (s % c.rgSize) = 1) (hinv : DelEntries.Inv c S v) (ho : Ordered v) :
    Noted
      { server := { v.server with log := (delRound c ids v.server.log nDel s).1 }
        gc := .scanning ids maxSeq (delRound c ids v.server.log nDel s).2.1
          (delRound c ids v.server.log nDel s).2.2 } := by
  obtain ⟨k, t, ht, hseq, hh, -⟩ := hinv.current hpc hs hf
  have hcur := cursor_of_scanning hpc
  rw [delRound_eq ids nDel (hinv.contents.tiled.admissible ht) hh]
  intro u hu hst hle
  have hle' : s + entrySize t.e ≤ u.seq := hle
  have hsz := entrySize_pos t.e
  have hne : u.e.reqId ≠ t.e.reqId := by
    intro heq
    have := ho.unique ⟨u, hu, heq, rfl⟩ ⟨t, List.mem_of_getElem? ht, rfl, hseq⟩
    omega
  show Function.update v.server.log.reqidToSeqMap t.e.reqId none u.e.reqId = some u.seq
  rw [Function.update_of_ne hne]
  exact h u hu hst (by omega)

/-- **The end**: the batch is behind the collection. -/
theorem Progress.finish {maxSeq nDel s : ℕ} {ids' : List ReqID} (h : Progress ids' P B v)
    (hpc : v.gc = .scanning ids maxSeq nDel s) (hs : maxSeq < s) :
    Progress ids' P B
      { server := v.server.setWatermk s v.server.log.orderedIdxWatermk
        gc := .replied nDel } := by
  have hcur := cursor_of_scanning hpc
  unfold Progress at h
  rw [hpc] at h
  obtain ⟨hcov, hgone, hreach, hpend⟩ := h
  refine ⟨?_, ?_, ?_⟩
  · rintro rid (hrid | hrid)
    · exact hgone.appended rid hrid
    · exact hreach.appended rid hrid
  · rintro rid q (hrid | hrid) hq
    · exact hcur ▸ hgone.passed rid q hrid hq
    · have := hreach.within rid q hrid hq
      show q < s
      omega
  · rintro e he (hrid | hrid)
    · exact hgone.pending e he hrid
    · exact hpend e he hrid

/-- **One step of a backup** keeps the progress of its collection, if the calls for the batch have returned when it
starts. -/
theorem Progress.step (h : Progress ids P B v) (hs : Step c v v') (hinv : DelEntries.Inv c S v) (ho : Ordered v)
    (hn : Noted v) (hready : v.gc = .requested ids → v'.gc ≠ .requested ids →
      Covers ids B ∧ ∀ rid, B rid → Returned v rid) : Progress ids P B v' := by
  cases hs with
  | insertReqid ht hst hlk =>
    refine h.onward (onward_insertReqid ho ht) rfl ?_
    show (Flat.insertReqid ..).pendingEntries = _
    unfold Flat.insertReqid
    split_ifs <;> rfl
  | note hpc =>
    have heq := h
    unfold Progress at heq
    rw [hpc] at heq
    obtain rfl := heq.1
    obtain ⟨hcov, hret⟩ := hready hpc (by rintro ⟨⟩)
    exact h.note hpc ho hn hcov hret
  | pending hpc => exact h.pending hpc ho
  | round hpc hle hf => exact h.round hpc hle hf hinv ho
  | finish hpc hlt => exact h.finish hpc hlt

theorem Noted.step (h : Noted v) (hc : c.isPrimary = false) (hs : Step c v v') (hinv : DelEntries.Inv c S v)
    (ho : Ordered v) : Noted v' := by
  cases hs with
  | insertReqid ht hst hlk => exact h.insertReqid hc ho ht
  | note hpc => exact h.note hpc
  | pending hpc =>
    intro t ht hst hle
    refine h t ht hst ?_
    rw [cursor_of_not_locked (by rw [hpc]; exact id)]
    exact hle
  | round hpc hle hf => exact h.round hpc hle hf hinv ho
  | finish hpc hlt =>
    intro t ht hst hle
    refine h t ht hst ?_
    rw [cursor_of_scanning hpc]
    exact hle

end LazyLog.DurLog.Processed
