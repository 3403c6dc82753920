import LazyLog.DurLog.Collections

/-! # The map of request ids on a backup (`reqid_to_seq_map_`)

`AppendEntry` inserts the request id of its entry when all else is done, the loop over the ring erases the ids of the
entries it passes, and `delEntriesBackup` looks up the requests named, with an `operator[]` that inserts what it does
not find. So an id stays in the map for good if it is named while it is not there, or if the loop passes its entry
before it is inserted.

If neither happens and no two calls have the same id, the map has exactly the entries in front of the loop whose calls
have returned (`Keys`). -/

namespace LazyLog.DurLog.ReqidMap

open LazyLog.Lib.Bytes LazyLog.Lib.Tiling LazyLog.Lib.Run LazyLog.Rpc.Entry LazyLog.Rpc.Multi
open LazyLog.DurLog.Flat LazyLog.DurLog.Ranges LazyLog.DurLog.Ring
open LazyLog.DurLog.DelEntries hiding Step
open LazyLog.DurLog.Interleaved hiding Step
open LazyLog.DurLog.Collections

/-- **The map has the entries of the ring**: the request ids of the entries from the watermark on, each with the
sequence number of its entry. -/
def KeysRight (v : Backup) : Prop :=
  ∀ rid q, v.server.log.reqidToSeqMap rid = some q ↔
    ∃ t ∈ v.server.slots, v.server.log.orderedWatermk ≤ t.seq ∧ t.e.reqId = rid ∧ t.seq = q

/-- No call of `AppendEntry` is in flight. -/
def Quiet (v : Backup) : Prop := ∀ t ∈ v.server.slots, t.stage = .returned

/-- What the map needs of a step: a new call has a request id of its own, the requests named are in the map when they
are looked up, and the loop over the ring passes entries of calls that have returned. -/
structure Orderly (v v' : Backup) : Prop where
  fresh : ∀ t, v'.server.slots = v.server.slots ++ [t] → t.e.reqId ∉ v.server.entries.map LogEntry.reqId
  found : ∀ ids, v.gc = .requested ids → v'.gc ≠ .requested ids →
    ∀ rid ∈ ids, v.server.log.reqidToSeqMap rid ≠ none
  passed : Passing (fun t => t.stage = .returned) v v'

variable {c : Config} {v v' : Backup} {ids : List ReqID} {i : ℕ} {t : Slot} {s s' : State}

theorem Orderly.passing (h : Orderly v v') : Passing (fun t => t.Complete c) v v' :=
  h.passed.mono fun _ ht => Or.inl (Or.inr ht)

theorem noteMaxSeq_of_found {l : FlatLog} (h : ∀ rid ∈ ids, l.reqidToSeqMap rid ≠ none) :
    (noteMaxSeq ids l).1 = l := by
  unfold noteMaxSeq
  induction ids using List.reverseRecOn with
  | nil => rfl
  | append_singleton ids rid ih =>
    have hl := ih fun r hr => h r (List.mem_append_left _ hr)
    obtain ⟨q, hq⟩ := Option.ne_none_iff_exists'.mp (h rid (List.mem_append_right _ (List.mem_singleton.mpr rfl)))
    rw [List.foldl_append, List.foldl_cons, List.foldl_nil]
    simp only [hl, hq, Option.getD_some]
    rw [← hq, Function.update_eq_self]

/-! ### The invariant -/

/-- The request `rid` is that of an entry in front of the loop over the ring, at `q`, whose call has returned. -/
def Live (v : Backup) (rid : ReqID) (q : ℕ) : Prop :=
  ∃ t ∈ v.server.slots, t.stage = .returned ∧ v.cursor ≤ t.seq ∧ t.e.reqId = rid ∧ t.seq = q

/-- **The invariant.** -/
structure Keys (c : Config) (v : Backup) : Prop where
  inv : Sound c v
  distinct : (v.server.entries.map LogEntry.reqId).Nodup
  passed : ∀ t ∈ v.server.slots, t.seq < v.cursor → t.stage = .returned
  keys : ∀ rid q, v.server.log.reqidToSeqMap rid = some q ↔ Live v rid q

theorem Keys.start (h : Start v) : Keys c v := by
  obtain rfl := h
  refine ⟨.start c, ?_, ?_, ?_⟩
  · exact List.nodup_nil
  · intro t ht
    simp at ht
  · intro rid q
    constructor
    · rintro ⟨⟩
    · rintro ⟨t, ht, -⟩
      simp at ht

theorem Keys.eq_of_reqId (h : Keys c v) {u : Slot} (ht : t ∈ v.server.slots) (hu : u ∈ v.server.slots)
    (hid : t.e.reqId = u.e.reqId) : t = u := by
  obtain ⟨i, hi⟩ := List.mem_iff_getElem?.mp ht
  obtain ⟨j, hj⟩ := List.mem_iff_getElem?.mp hu
  have hi' : (v.server.entries.map LogEntry.reqId)[i]? = some t.e.reqId := by
    rw [List.getElem?_map, getElem?_entries hi]
    rfl
  have hj' : (v.server.entries.map LogEntry.reqId)[j]? = some u.e.reqId := by
    rw [List.getElem?_map, getElem?_entries hj]
    rfl
  have hlt : i < (v.server.entries.map LogEntry.reqId).length := (List.getElem?_eq_some_iff.mp hi').1
  obtain rfl : i = j := (List.getElem?_inj hlt h.distinct).mp (by rw [hi', hj', hid])
  exact Option.some.inj (hi.symm.trans hj)

theorem Keys.congr (h : Keys c v) (hinv : Sound c v') (hent : v'.server.entries = v.server.entries)
    (hcur : v'.cursor = v.cursor) (hmap : v'.server.log.reqidToSeqMap = v.server.log.reqidToSeqMap)
    (hret : ∀ t, t.stage = .returned → (t ∈ v'.server.slots ↔ t ∈ v.server.slots))
    (hpassed : ∀ t ∈ v'.server.slots, t.seq < v.cursor → t.stage = .returned) : Keys c v' := by
  refine ⟨hinv, hent ▸ h.distinct, hcur ▸ hpassed, fun rid q => ?_⟩
  rw [hmap, h.keys]
  unfold Live
  rw [hcur]
  constructor
  · rintro ⟨t, ht, hst, hle⟩
    exact ⟨t, (hret t hst).mpr ht, hst, hle⟩
  · rintro ⟨t, ht, hst, hle⟩
    exact ⟨t, (hret t hst).mp ht, hst, hle⟩

/-! ### Appends -/

theorem Keys.reserve {e : LogEntry} (h : Keys c v) (hinv : Sound c { v with server := v.server.reserve c e })
    (hfresh : e.reqId ∉ v.server.entries.map LogEntry.reqId) :
    Keys c { v with server := v.server.reserve c e } := by
  have hcur : Backup.cursor { v with server := v.server.reserve c e } = v.cursor := cursor_congr rfl
  have hle := h.inv.settled.le_sequencer h.inv.contents.tiled
  refine ⟨hinv, ?_, ?_, fun rid q => ?_⟩
  · simp only [entries_reserve, List.map_append, List.map_singleton]
    exact List.nodup_append'.mpr ⟨h.distinct, List.nodup_singleton _, List.disjoint_singleton.mpr hfresh⟩
  · rw [hcur]
    intro t ht hlt
    rcases List.mem_append.mp ht with ht | ht
    · exact h.passed t ht hlt
    · obtain rfl := List.mem_singleton.mp ht
      exact absurd hlt (not_lt.mpr hle)
  · have hold := h.keys rid q
    simp only [State.reserve, Flat.reserve] at hold ⊢
    rw [hold]
    constructor
    · rintro ⟨t, ht, hrest⟩
      exact ⟨t, List.mem_append_left _ ht, hrest⟩
    · rintro ⟨t, ht, hst, hrest⟩
      rcases List.mem_append.mp ht with ht | ht
      · exact ⟨t, ht, hst, hrest⟩
      · -- the new call has only reserved its range
        obtain rfl := List.mem_singleton.mp ht
        cases hst

theorem appendStep_write (hs : AppendStep c i s s') (ht : s.slots[i]? = some t) (hst : t.stage ≠ .copied) :
    ∃ st l, s' = s.put i t st l ∧ t.stage ≠ .returned ∧ st ≠ .returned ∧ l.orderedWatermk = s.log.orderedWatermk := by
  cases hs with
  | reserve e he => simp at ht
  | serialise hu hst' =>
    obtain rfl := Option.some.inj (hu.symm.trans ht)
    exact ⟨_, _, rfl, by rw [hst']; decide, by decide, rfl⟩
  | raiseFlag hu hst' =>
    obtain rfl := Option.some.inj (hu.symm.trans ht)
    exact ⟨_, _, rfl, by rw [hst']; decide, by decide, rfl⟩
  | copyOverflow hu hst' =>
    obtain rfl := Option.some.inj (hu.symm.trans ht)
    exact ⟨_, _, rfl, by rw [hst']; decide, by decide, (copyOverflow_counters c s.log _ _).2.2.1⟩
  | insertReqid hu hst' =>
    obtain rfl := Option.some.inj (hu.symm.trans ht)
    exact absurd hst' hst

theorem mem_put_of_ne {u : Slot} {st : Stage} {l : FlatLog} (ht : s.slots[i]? = some t) (hu : u ≠ t)
    (hu' : u ≠ { t with stage := st }) : u ∈ (s.put i t st l).slots ↔ u ∈ s.slots := by
  simp only [List.mem_iff_getElem?]
  constructor
  · rintro ⟨j, hj⟩
    rcases slots_put_cases ht hj with ⟨-, rfl⟩ | ⟨-, hj⟩
    · exact absurd rfl hu'
    · exact ⟨j, hj⟩
  · rintro ⟨j, hj⟩
    rcases eq_or_ne j i with rfl | hne
    · exact absurd (Option.some.inj (hj.symm.trans ht)) hu
    · exact ⟨j, by rw [slots_put_ne hne]; exact hj⟩

theorem Keys.write (h : Keys c v) (hinv : Sound c { v with server := s' }) (ht : v.server.slots[i]? = some t)
    (hst : t.stage ≠ .copied) (hs : AppendStep c i v.server s') : Keys c { v with server := s' } := by
  have hmap := appendStep_map hs ht hst
  obtain ⟨st, l, rfl, hret, hret', hw⟩ := appendStep_write hs ht hst
  refine h.congr hinv (entries_put ht st l) (cursor_congr hw) hmap ?_ ?_
  · intro u hu
    refine mem_put_of_ne ht ?_ ?_
    · rintro rfl
      exact hret hu
    · rintro rfl
      exact hret' hu
  · intro u hu hlt
    obtain ⟨j, hj⟩ := List.mem_iff_getElem?.mp hu
    rcases slots_put_cases ht hj with ⟨-, rfl⟩ | ⟨-, hj⟩
    · exact absurd (h.passed t (List.mem_of_getElem? ht) hlt) hret
    · exact h.passed u (List.mem_of_getElem? hj) hlt

/-- **The insertion**: its call returns, and the map has one more request. -/
theorem Keys.insertReqid (h : Keys c v) (hc : c.isPrimary = false) (ht : v.server.slots[i]? = some t)
    (hst : t.stage = .copied) :
    Keys c { v with server := v.server.put i t .returned (insertReqid c v.server.log t.e t.seq) } := by
  have hcur := cursor_insertReqid c v i t
  have hmem := List.mem_of_getElem? ht
  have hmap : (Flat.insertReqid c v.server.log t.e t.seq).reqidToSeqMap =
      Function.update v.server.log.reqidToSeqMap t.e.reqId (some t.seq) := by
    unfold Flat.insertReqid
    rw [hc]
    rfl
  -- the loop has not passed the entry
  have hfront : v.cursor ≤ t.seq := by
    by_contra hlt
    have := h.passed t hmem (not_le.mp hlt)
    rw [hst] at this
    cases this
  have hself : { t with stage := .returned } ∈
      (v.server.put i t .returned (Flat.insertReqid c v.server.log t.e t.seq)).slots :=
    List.mem_of_getElem? (slots_put_self ht _ _)
  have hother : ∀ u : Slot, u.e.reqId ≠ t.e.reqId →
      (u ∈ (v.server.put i t .returned (Flat.insertReqid c v.server.log t.e t.seq)).slots ↔
        u ∈ v.server.slots) := by
    intro u hu
    refine mem_put_of_ne ht ?_ ?_
    · rintro rfl
      exact hu rfl
    · rintro rfl
      exact hu rfl
  refine ⟨h.inv.insertReqid ht hst, ?_, ?_, fun rid q => ?_⟩
  · rw [entries_put ht]
    exact h.distinct
  · rw [hcur]
    intro u hu hlt
    obtain ⟨j, hj⟩ := List.mem_iff_getElem?.mp hu
    rcases slots_put_cases ht hj with ⟨-, rfl⟩ | ⟨-, hj⟩
    · rfl
    · exact h.passed u (List.mem_of_getElem? hj) hlt
  · unfold Live
    rw [hcur]
    show (Flat.insertReqid c v.server.log t.e t.seq).reqidToSeqMap rid = some q ↔ _
    rw [hmap]
    rcases eq_or_ne rid t.e.reqId with rfl | hne
    · rw [Function.update_self, Option.some.injEq]
      constructor
      · rintro rfl
        exact ⟨_, hself, rfl, hfront, rfl, rfl⟩
      · rintro ⟨u, hu, -, -, hid, rfl⟩
        obtain ⟨j, hj⟩ := List.mem_iff_getElem?.mp hu
        rcases slots_put_cases ht hj with ⟨-, rfl⟩ | ⟨-, hj⟩
        · rfl
        · rw [h.eq_of_reqId (List.mem_of_getElem? hj) hmem hid]
    · rw [Function.update_of_ne hne, h.keys]
      constructor
      · rintro ⟨u, hu, hret, hle, rfl, rfl⟩
        exact ⟨u, (hother u hne).mpr hu, hret, hle, rfl, rfl⟩
      · rintro ⟨u, hu, hret, hle, rfl, rfl⟩
        exact ⟨u, (hother u hne).mp hu, hret, hle, rfl, rfl⟩

/-! ### Collection -/

/-- **One round**: the entry is passed, and its request goes out of the map. -/
theorem Keys.round (h : Keys c v) {maxSeq nDel q : ℕ} (hpc : v.gc = .scanning ids maxSeq nDel q) (hq : q ≤ maxSeq)
    (hf : getFlagFromBuf v.server.log.mem (q % c.rgSize) = 1)
    (hinv : Sound c
      { server := { v.server with log := (delRound c ids v.server.log nDel q).1 }
        gc := .scanning ids maxSeq (delRound c ids v.server.log nDel q).2.1
          (delRound c ids v.server.log nDel q).2.2 })
    (hp : Passing (fun t => t.stage = .returned) v
      { server := { v.server with log := (delRound c ids v.server.log nDel q).1 }
        gc := .scanning ids maxSeq (delRound c ids v.server.log nDel q).2.1
          (delRound c ids v.server.log nDel q).2.2 }) :
    Keys c
      { server := { v.server with log := (delRound c ids v.server.log nDel q).1 }
        gc := .scanning ids maxSeq (delRound c ids v.server.log nDel q).2.1
          (delRound c ids v.server.log nDel q).2.2 } := by
  obtain ⟨k, t, ht, rfl, hh, -⟩ := h.inv.current hpc hq hf
  have heq := delRound_eq ids nDel (h.inv.contents.tiled.admissible ht) hh
  have hcur := cursor_of_scanning hpc
  have hmem := List.mem_of_getElem? ht
  have hsz := entrySize_pos t.e
  -- in front of the loop there is the entry of this round, and what is behind its end
  have hfront : ∀ u ∈ v.server.slots, t.seq ≤ u.seq → u = t ∨ t.seq + entrySize t.e ≤ u.seq := by
    intro u hu hle
    obtain ⟨j, hj⟩ := List.mem_iff_getElem?.mp hu
    rcases Nat.lt_trichotomy j k with hlt | rfl | hgt
    · have hend := h.inv.contents.tiled.end_le_seq hlt hj ht
      have hpos := entrySize_pos u.e
      omega
    · exact Or.inl (Option.some.inj (hj.symm.trans ht))
    · exact Or.inr (h.inv.contents.tiled.end_le_seq hgt ht hj)
  rw [heq] at hinv hp ⊢
  refine ⟨hinv, h.distinct, ?_, fun rid q => ?_⟩
  · intro u hu hlt
    rcases Nat.lt_or_ge u.seq t.seq with hbelow | habove
    · exact h.passed u hu (hcur ▸ hbelow)
    · exact hp u hu (hcur ▸ habove) hlt
  · show Function.update v.server.log.reqidToSeqMap t.e.reqId none rid = some q ↔
      ∃ u ∈ v.server.slots, u.stage = .returned ∧ t.seq + entrySize t.e ≤ u.seq ∧ u.e.reqId = rid ∧ u.seq = q
    rcases eq_or_ne rid t.e.reqId with rfl | hne
    · rw [Function.update_self]
      constructor
      · rintro ⟨⟩
      · rintro ⟨u, hu, -, hle, hid, -⟩
        rw [h.eq_of_reqId hu hmem hid] at hle
        omega
    · rw [Function.update_of_ne hne, h.keys]
      unfold Live
      rw [hcur]
      constructor
      · rintro ⟨u, hu, hret, hle, hid, hseq⟩
        rcases hfront u hu hle with rfl | hle
        · exact absurd hid.symm hne
        · exact ⟨u, hu, hret, hle, hid, hseq⟩
      · rintro ⟨u, hu, hret, hle, hid, hseq⟩
        exact ⟨u, hu, hret, by omega, hid, hseq⟩

/-- **One step** keeps the invariant, if it is orderly. -/
theorem Keys.step (h : Keys c v) (hc : c.isPrimary = false) (hs : Interleaved.Step c v v') (ho : Orderly v v') :
    Keys c v' := by
  have hinv := sound_of_step h.inv hs ho.passing
  cases hs with
  | reserve e he hf hocc => exact h.reserve hinv (ho.fresh _ rfl)
  | write ht hst hstep => exact h.write hinv ht hst hstep
  | request ids hpc =>
    have hcur := cursor_setGc (v := v) (by rw [hpc]; exact id) (id : ¬ (GcPc.requested ids).Locked)
    exact h.congr hinv rfl hcur rfl (fun _ _ => Iff.rfl) h.passed
  | reply hpc =>
    have hcur := cursor_setGc (v := v) (by rw [hpc]; exact id) (id : ¬ GcPc.idle.Locked)
    exact h.congr hinv rfl hcur rfl (fun _ _ => Iff.rfl) h.passed
  | locked hstep =>
    cases hstep with
    | insertReqid ht hst hlk => exact h.insertReqid hc ht hst
    | note hpc =>
      have hlog := noteMaxSeq_of_found (ho.found _ hpc (by rintro ⟨⟩))
      rw [hlog] at hinv ⊢
      refine h.congr hinv rfl ?_ rfl (fun _ _ => Iff.rfl) h.passed
      unfold Backup.cursor
      rw [hpc]
    | pending hpc =>
      refine h.congr hinv rfl ?_ rfl (fun _ _ => Iff.rfl) h.passed
      unfold Backup.cursor
      rw [hpc]
    | round hpc hle hf => exact h.round hpc hle hf hinv ho.passed
    | finish hpc hlt =>
      refine h.congr hinv rfl ?_ rfl (fun _ _ => Iff.rfl) h.passed
      unfold Backup.cursor
      rw [hpc]
      rfl

theorem keys_of_reachable (hc : c.isPrimary = false) (h : Reachable c Orderly v) : Keys c v := by
  refine h.invariant (fun v hv => Keys.start hv) ?_
  rintro v v' - hk ⟨hs, ho⟩
  exact hk.step hc hs ho

/-- **The map describes the entries of the ring** whenever no append is in flight and no collection is in its loop
over the ring, in every run of orderly steps. -/
theorem keys_are_live_entries (hc : c.isPrimary = false) (h : Reachable c Orderly v) (hq : Quiet v)
    (hlk : ¬ v.gc.Locked) : KeysRight v := by
  intro rid q
  rw [(keys_of_reachable hc h).keys]
  unfold Live
  rw [cursor_of_not_locked hlk]
  constructor
  · rintro ⟨t, ht, -, hrest⟩
    exact ⟨t, ht, hrest⟩
  · rintro ⟨t, ht, hrest⟩
    exact ⟨t, ht, hq t ht, hrest⟩

theorem orderly_of_appendStep (hs : AppendStep c i s s') (hi : i < s.slots.length) :
    Orderly ⟨s, .idle⟩ ⟨s', .idle⟩ := by
  refine ⟨fun t ht => ?_, by rintro ids ⟨⟩, passing_of_appendStep hs hi⟩
  obtain ⟨u, st, l, -, rfl, -⟩ := appendStep_complete hs hi
  have hlen := congrArg List.length ht
  simp [State.put] at hlen

/-- **A whole call of `AppendEntry`** with a new request id. -/
theorem reachable_append_orderly {e : LogEntry} (h : Reachable c Orderly ⟨s, .idle⟩) (he : Admissible e)
    (hf : e.flags = 0) (hocc : s.log.sequencer + getSize e < s.log.orderedWatermk + c.rgSize)
    (hfresh : e.reqId ∉ s.entries.map LogEntry.reqId) : Reachable c Orderly ⟨append c s e, .idle⟩ := by
  refine Reachable.append h he hf hocc ⟨fun t ht => ?_, by rintro ids ⟨⟩, passing_of_cursor_eq rfl⟩
    orderly_of_appendStep
  obtain rfl : _ = t := List.singleton_inj.mp (List.append_cancel_left ht)
  exact hfresh

theorem orderly_of_step (hq : Quiet v) (hs : DelEntries.Step c v v')
    (hfound : ∀ ids, v.gc = .requested ids → ∀ rid ∈ ids, v.server.log.reqidToSeqMap rid ≠ none) :
    Orderly v v' ∧ v'.server.slots = v.server.slots ∧ ∀ ids, v'.gc ≠ .requested ids := by
  have hslots : v'.server.slots = v.server.slots ∧ ∀ ids, v'.gc ≠ .requested ids := by
    cases hs with
    | insertReqid ht hst =>
      rw [hq _ (List.mem_of_getElem? ht)] at hst
      cases hst
    | note | pending | round | finish => exact ⟨rfl, by rintro ids ⟨⟩⟩
  refine ⟨⟨fun t ht => ?_, fun ids hpc _ => hfound ids hpc, fun t ht _ _ => hq t ht⟩, hslots⟩
  have hlen := congrArg List.length (hslots.1.symm.trans ht)
  simp at hlen

/-- **A whole call of `delEntriesBackup`** with requests that are in the map. -/
theorem reachable_collect_orderly {l : FlatLog} {n : ℕ} (h : Reachable c Orderly ⟨s, .idle⟩) (hq : Quiet ⟨s, .idle⟩)
    (hfound : ∀ rid ∈ ids, s.log.reqidToSeqMap rid ≠ none) (heq : delEntriesBackup c ids s.log = some (l, n)) :
    Reachable c Orderly ⟨⟨l, s.slots⟩, .idle⟩ := by
  have hidle : ∀ gc gc' : GcPc, ∀ s₁ : State, (∀ ids, gc ≠ .requested ids) → ¬ gc.Locked → ¬ gc'.Locked →
      Orderly ⟨s₁, gc⟩ ⟨s₁, gc'⟩ := by
    intro gc gc' s₁ hno hlk hlk'
    refine ⟨fun t ht => ?_, fun ids hpc => absurd hpc (hno ids), passing_of_cursor_eq ?_⟩
    · have hlen := congrArg List.length ht
      simp at hlen
    · exact cursor_setGc (v := ⟨s₁, gc⟩) hlk hlk'
  obtain ⟨nDel, -, hrun⟩ := delEntriesBackup_steps s.slots heq
  -- only the first state of the call looks something up
  have hkeep : ∀ v, Relation.ReflTransGen (StepAmong c s.slots) ⟨s, .requested ids⟩ v → Reachable c Orderly v ∧
      v.server.slots = s.slots ∧
        ∀ ids, v.gc = .requested ids → ∀ rid ∈ ids, v.server.log.reqidToSeqMap rid ≠ none := by
    intro v hv
    induction hv with
    | refl =>
      refine ⟨h.next ⟨.request ids rfl, hidle _ _ s (by rintro ids ⟨⟩) id id⟩, rfl, ?_⟩
      rintro ids ⟨⟩
      exact hfound
    | tail _ hstep ih =>
      obtain ⟨hreach, hsl, hf⟩ := ih
      obtain ⟨hord, hsl', hno⟩ := orderly_of_step (fun t ht => hq t (hsl ▸ ht)) hstep.1 hf
      exact ⟨hreach.next ⟨.locked hstep.1, hord⟩, hsl'.trans hsl, fun ids hpc => absurd hpc (hno ids)⟩
  exact (hkeep _ hrun).1.next ⟨.reply rfl, hidle _ _ _ (by rintro ids ⟨⟩) id id⟩

/-- An entry of a client. -/
def ofClient (clientId : UInt64) : LogEntry := ⟨clientId, 1, 0, 0, 0, 0, []⟩

theorem ofClient_admissible (clientId : UInt64) : Admissible (ofClient clientId) := by
  refine ⟨rfl, ?_⟩
  show metaDataSize + align4 (0 + 3) ≤ msgSize
  decide

/-- The backup after one call of `AppendEntry`. -/
def appended : State := append smallBackup ⟨.zeroed, []⟩ (ofClient 8)

/-- The entries of two clients have been appended, and that of client 8 has been collected: only the request of client
9 is in the map. -/
theorem keys_are_live_entries_collected : ∃ v, Reachable smallBackup Orderly v ∧ v.server.slots.length = 2 ∧
    v.server.log.orderedWatermk = 32 ∧ v.gc = .idle ∧ KeysRight v ∧ v.server.log.reqidToSeqMap (8, 1) = none ∧
      v.server.log.reqidToSeqMap (9, 1) = some 32 := by
  have hcan : CanAppend smallBackup ⟨.zeroed, []⟩ (ofClient 8) :=
    ⟨ofClient_admissible 8, rfl, by decide, by decide⟩
  have hcan' : CanAppend smallBackup appended (ofClient 9) := ⟨ofClient_admissible 9, rfl, by decide, by decide⟩
  have hinv : DelEntries.Inv smallBackup (fun _ => True) ⟨append smallBackup appended (ofClient 9), .idle⟩ :=
    ((DelEntries.Inv.start smallBackup fun _ => True).append_returned hcan).append_returned hcan'
  have h₁ : Reachable smallBackup Orderly ⟨appended, .idle⟩ :=
    reachable_append_orderly (.start rfl) (ofClient_admissible 8) rfl (by decide) List.not_mem_nil
  have h₂ := reachable_append_orderly h₁ (ofClient_admissible 9) rfl (by decide) (by decide)
  have hslots : (append smallBackup appended (ofClient 9)).slots =
      [⟨ofClient 8, 0, 0, .returned⟩, ⟨⟨9, 1, 1, 0, 0, 0, []⟩, 32, 1, .returned⟩] := rfl
  have hfound : (append smallBackup appended (ofClient 9)).log.reqidToSeqMap (8, 1) = some 0 := rfl
  have hwm : (append smallBackup appended (ofClient 9)).log.orderedWatermk = 0 := rfl
  generalize append smallBackup appended (ofClient 9) = s at hinv h₂ hslots hfound hwm
  have hmax : (noteMaxSeq [(8, 1)] s.log).2 = 0 := by
    unfold noteMaxSeq
    simp [hfound]
  obtain ⟨wi, heq, -⟩ := call_eq (k := 0) (j := 0) hinv [(8, 1)] (hwm.trans (pos_zero ..).symm) (Nat.le_refl 0)
    (by rw [hslots]; rfl) hmax
  have hq : Quiet ⟨s, .idle⟩ := by
    intro t ht
    simp only [hslots, List.mem_cons, List.not_mem_nil, or_false] at ht
    rcases ht with rfl | rfl <;> rfl
  have h₃ := reachable_collect_orderly h₂ hq (by
    intro rid hrid
    rw [List.mem_singleton.mp hrid, hfound]
    exact Option.some_ne_none 0) heq
  have hwm' : pos entrySize s.entries (0 + 1) = 32 := by
    rw [State.entries, hslots]
    decide
  have hkeys := keys_are_live_entries rfl h₃ hq id
  refine ⟨_, h₃, by simp only [hslots]; rfl, hwm', rfl, hkeys, ?_, ?_⟩
  · -- the entry of client 8 is behind the watermark
    refine Option.eq_none_iff_forall_ne_some.mpr fun q hq => ?_
    obtain ⟨t, ht, hle, hid, -⟩ := (hkeys _ _).mp hq
    simp only [hslots, hwm', List.mem_cons, List.not_mem_nil, or_false] at ht hle
    rcases ht with rfl | rfl
    · exact absurd hle (by decide)
    · exact absurd hid (by decide)
  · refine (hkeys _ _).mpr ⟨⟨⟨9, 1, 1, 0, 0, 0, []⟩, 32, 1, .returned⟩, ?_, hwm'.le, rfl, rfl⟩
    simp [hslots]

/-! ### A request that is not found -/

/-- What is looked up is in the map afterwards. -/
theorem noteMaxSeq_ne_none {rid : ReqID} (l : FlatLog) (h : rid ∈ ids) :
    (noteMaxSeq ids l).1.reqidToSeqMap rid ≠ none := by
  unfold noteMaxSeq
  induction ids using List.reverseRecOn with
  | nil => simp at h
  | append_singleton ids r ih =>
    rw [List.foldl_append, List.foldl_cons, List.foldl_nil]
    simp only
    rcases eq_or_ne rid r with rfl | hne
    · rw [Function.update_self]
      exact Option.some_ne_none _
    · rw [Function.update_of_ne hne]
      exact ih ((List.mem_append.mp h).resolve_right fun hr => hne (List.mem_singleton.mp hr))

/-- **A request named that no entry has** is in the map after the collection. -/
theorem absent_request_stays {rid : ReqID} (h : Sound c ⟨s, .idle⟩) (hq : Quiet ⟨s, .idle⟩) (hne : s.slots ≠ [])
    (hmem : rid ∈ ids) (habs : ∀ t ∈ s.slots, t.e.reqId ≠ rid) :
    ∃ l n, delEntriesBackup c ids s.log = some (l, n) ∧ l.reqidToSeqMap rid ≠ none := by
  obtain ⟨k, hk, hw, -⟩ := unordered_eq_drop h.contents
  have hf : ∀ t ∈ s.slots, t.Flagged := fun t ht => Or.inr (Or.inr (hq t ht))
  obtain ⟨m, wi, -, -, -, heq, -⟩ := delEntriesBackup_eq h.contents hf ids hk hw h.noted hne
  refine ⟨_, _, heq, ?_⟩
  have hnot : rid ∉ (passed s k m).map LogEntry.reqId := by
    intro hin
    obtain ⟨e, he, rfl⟩ := List.mem_map.mp hin
    obtain ⟨t, ht, rfl⟩ := List.mem_map.mp he
    exact habs t (List.mem_of_mem_drop (List.mem_of_mem_take ht)) rfl
  simp only
  rw [eraseAll_of_notMem hnot]
  exact noteMaxSeq_ne_none s.log hmem

/-- **The request of an entry that never came** is in the map, with no append and no collection under way. -/
theorem map_keeps_absent_request : ∃ v, Reachable smallBackup (fun _ _ => True) v ∧ Quiet v ∧ v.gc = .idle ∧
    v.server.log.reqidToSeqMap (7, 3) ≠ none ∧ ¬ KeysRight v := by
  have hI : Sound smallBackup ⟨appended, .idle⟩ :=
    sound_of_reachable (fun _ _ hp => hp) (Reachable.append (.start rfl) (ofClient_admissible 8) rfl (by decide)
      (passing_of_cursor_eq rfl) passing_of_appendStep)
  have h : Reachable smallBackup (fun _ _ => True) ⟨appended, .idle⟩ :=
    Reachable.append (.start rfl) (ofClient_admissible 8) rfl (by decide) trivial fun _ _ => trivial
  have hq : Quiet ⟨appended, .idle⟩ := fun t ht => by rw [List.mem_singleton.mp ht]
  have habs : ∀ t ∈ appended.slots, t.e.reqId ≠ (7, 3) := by
    intro t ht
    rw [List.mem_singleton.mp ht]
    decide
  obtain ⟨l, n, heq, hkey⟩ := absent_request_stays hI hq (List.cons_ne_nil _ _)
    (show (7, 3) ∈ [(7, 3)] from List.mem_singleton.mpr rfl) habs
  refine ⟨_, reachable_collect (fun _ _ => trivial) h heq, hq, rfl, hkey, fun hk => ?_⟩
  obtain ⟨q, hsome⟩ := Option.ne_none_iff_exists'.mp hkey
  obtain ⟨t, ht, -, hid, -⟩ := (hk _ _).mp hsome
  exact habs t ht hid

end LazyLog.DurLog.ReqidMap
