import LazyLog.DurLog.Collections

/-! # Collections on a backup lose nothing

A backup under complete calls of `AppendEntry` and `delEntriesBackup`, with a record of the entries that have been
deleted and of the sum of what the collections have returned. Every entry appended lies in the ring, is pending or has
been deleted, and only one of these (`Balanced`). The sum is the number of the deleted as long as no collection has
`2 ^ 32` entries to go through, as `n_del` is a `uint32_t`. -/

namespace LazyLog.DurLog.Conservation

open LazyLog.Lib.Bytes LazyLog.Lib.Tiling LazyLog.Lib.Run LazyLog.Rpc.Entry LazyLog.Rpc.Multi
open LazyLog.DurLog.Flat LazyLog.DurLog.Ranges LazyLog.DurLog.Ring LazyLog.DurLog.Collections
open LazyLog.DurLog.DelEntries hiding Step Inv
open LazyLog.DurLog.Interleaved hiding Step Start

/-! ### Whole calls -/

/-- A backup between two calls: the entries deleted so far, the sum of the numbers returned so far, and the requests
of the call just made, if it was a collection. -/
structure Ledger where
  server : State
  deleted : List LogEntry
  returned : ℕ
  last : Option (List ReqID)

/-- One call. A collection is called in a state that satisfies `A`. -/
inductive Call (c : Config) (A : Ledger → Prop) : Ledger → Ledger → Prop
  | append {g : Ledger} (e : LogEntry) (he : Admissible e) (hf : e.flags = 0)
    (hocc : g.server.log.sequencer + getSize e < g.server.log.orderedWatermk + c.rgSize)
    (hfresh : e.reqId ∉ g.server.entries.map LogEntry.reqId) :
    Call c A g { g with server := append c g.server e, last := none }
  | collect {g : Ledger} {l : FlatLog} {n : ℕ} (ids : List ReqID) (hA : A g) (hids : (ids.map Prod.fst).Nodup)
    (hne : g.server.slots ≠ []) (h : delEntriesBackup c ids g.server.log = some (l, n)) :
    Call c A g
      { server := { g.server with log := l }
        deleted := g.deleted ++ deletedBy c ids g.server.log
        returned := g.returned + n
        last := some ids }

/-- A backup on a region of zeros. -/
def Start (g : Ledger) : Prop := g = ⟨⟨.zeroed, []⟩, [], 0, none⟩

/-- There are less than `2 ^ 32` entries in the ring and pending. -/
def Few (g : Ledger) : Prop := (unordered g.server).length + g.server.log.pendingEntries.length < 2 ^ 32

/-- The entry lies in the ring. -/
def InRing (g : Ledger) (t : Slot) : Prop :=
  g.server.log.orderedWatermk ≤ t.seq ∧ t.seq < g.server.log.sequencer

/-- The entry lies in the ring, is pending or has been deleted, and only one of these. -/
def Once (g : Ledger) (t : Slot) : Prop :=
  (InRing g t ∧ t.written ∉ g.server.log.pendingEntries ∧ t.written ∉ g.deleted) ∨
    (¬ InRing g t ∧ t.written ∈ g.server.log.pendingEntries ∧ t.written ∉ g.deleted) ∨
    (¬ InRing g t ∧ t.written ∉ g.server.log.pendingEntries ∧ t.written ∈ g.deleted)

/-- **Nothing is lost and all is counted**, and after a collection no entry that it names is pending. -/
structure Conserved (g : Ledger) : Prop where
  once : ∀ t ∈ g.server.slots, Once g t
  appended : ∀ e ∈ g.server.log.pendingEntries ++ g.deleted, e ∈ g.server.slots.map Slot.written
  nodup : g.deleted.Nodup
  counted : g.returned = g.deleted.length
  named : ∀ ids, g.last = some ids → ∀ rid ∈ ids, ∀ e ∈ g.server.log.pendingEntries,
    e.clientId = rid.1 → rid.2 < e.clientSeq

variable {c : Config} {A : Ledger → Prop} {g g' : Ledger} {ids : List ReqID} {e : LogEntry}

/-- A client has the number that is named for it, if it is named once. -/
theorem cliIdMaxSeqMap_of_mem {rid : ReqID} (hids : (ids.map Prod.fst).Nodup) (h : rid ∈ ids) :
    cliIdMaxSeqMap ids rid.1 = rid.2 := by
  rcases cliIdMaxSeqMap_cases ids rid.1 with hmem | ⟨hno, -⟩
  · exact congrArg Prod.snd (List.inj_on_of_nodup_map hids hmem h rfl)
  · exact absurd (List.mem_map_of_mem h) hno

/-! ### The invariant -/

/-- **The invariant.** -/
structure Balanced (c : Config) (g : Ledger) : Prop where
  contents : Contents c g.server
  quiet : ∀ t ∈ g.server.slots, t.stage = .returned
  noted : ∀ rid q, g.server.log.reqidToSeqMap rid = some q → q < g.server.log.sequencer ∨ q = 0
  distinct : (g.server.entries.map LogEntry.reqId).Nodup
  perm : (g.server.slots.map Slot.written).Perm
    ((unordered g.server).map Slot.written ++ g.server.log.pendingEntries ++ g.deleted)
  above : ∀ ids, g.last = some ids → (ids.map Prod.fst).Nodup ∧ ∀ e ∈ g.server.log.pendingEntries, Above ids e

theorem Balanced.start (h : Start g) : Balanced c g := by
  obtain rfl := h
  refine ⟨.init ⟨FlatLog.zeroed_fresh, rfl⟩, ?_, ?_, List.nodup_nil, List.Perm.refl _, ?_⟩
  · intro t ht
    simp at ht
  · rintro rid q ⟨⟩
  · rintro ids ⟨⟩

theorem Balanced.append (h : Balanced c g) (he : Admissible e) (hf : e.flags = 0)
    (hocc : g.server.log.sequencer + getSize e < g.server.log.orderedWatermk + c.rgSize)
    (hfresh : e.reqId ∉ g.server.entries.map LogEntry.reqId) :
    Balanced c { g with server := Ring.append c g.server e, last := none } := by
  obtain ⟨hseq, hw, -⟩ := append_counters c g.server e
  have hle := h.contents.settled.le_sequencer h.contents.tiled
  have hpos : 0 < getSize e := by
    rw [he.getSize_eq]
    exact entrySize_pos e
  refine ⟨h.contents.calls (append_run c g.server he hf hocc), ?_, ?_, ?_, ?_, ?_⟩
  · intro t ht
    rcases List.mem_append.mp ht with ht | ht
    · exact h.quiet t ht
    · rw [List.mem_singleton.mp ht]
  · intro rid q hq
    simp only [append_reqidToSeqMap] at hq
    rw [hseq]
    split_ifs at hq
    · have := h.noted rid q hq
      omega
    · rcases eq_or_ne rid e.reqId with rfl | hne
      · rw [Function.update_self, Option.some.injEq] at hq
        omega
      · rw [Function.update_of_ne hne] at hq
        have := h.noted rid q hq
        omega
  · have hent : (Ring.append c g.server e).entries = g.server.entries ++ [stamp c g.server.log.indexer e] := by
      simp [State.entries, Ring.append]
    simp only [hent, List.map_append, List.map_singleton]
    exact List.nodup_append'.mpr ⟨h.distinct, List.nodup_singleton _, List.disjoint_singleton.mpr hfresh⟩
  · have hun : unordered (Ring.append c g.server e) = unordered g.server ++
        [⟨stamp c g.server.log.indexer e, g.server.log.sequencer, g.server.log.indexer, .returned⟩] := by
      unfold unordered
      rw [hw]
      simp only [Ring.append, List.filter_append]
      rw [List.filter_cons_of_pos (by simpa using hle), List.filter_nil]
    simp only [hun, append_pendingEntries]
    refine List.perm_iff_count.mpr fun x => ?_
    have hcount := h.perm.count_eq x
    simp only [Ring.append, List.map_append, List.count_append] at hcount ⊢
    omega
  · rintro ids ⟨⟩

theorem Balanced.flagged (h : Balanced c g) {t : Slot} (ht : t ∈ g.server.slots) : t.Flagged :=
  Or.inr (Or.inr (h.quiet t ht))

/-- **A collection** moves what it goes through. -/
theorem Balanced.collect {l : FlatLog} {n : ℕ} (h : Balanced c g) (hids : (ids.map Prod.fst).Nodup)
    (hne : g.server.slots ≠ []) (heq : delEntriesBackup c ids g.server.log = some (l, n)) :
    Balanced c
        { server := { g.server with log := l }
          deleted := g.deleted ++ deletedBy c ids g.server.log
          returned := g.returned + n
          last := some ids } ∧
      (deletedBy c ids g.server.log).length ≤ (unordered g.server).length + g.server.log.pendingEntries.length ∧
      n = (deletedBy c ids g.server.log).length % 2 ^ 32 := by
  obtain ⟨k, hk, hw, hun⟩ := unordered_eq_drop h.contents
  obtain ⟨m, wi, hm, -, -, hcall, hdel⟩ :=
    delEntriesBackup_eq h.contents (fun _ => h.flagged) ids hk hw h.noted hne
  rw [heq, Option.some.injEq, Prod.mk.injEq] at hcall
  obtain ⟨hl, hn⟩ := hcall
  have hpend : l.pendingEntries =
      (g.server.log.pendingEntries ++ passed g.server k m).filter fun e => Above ids e := by
    rw [hl]
  have hw' : l.orderedWatermk = pos entrySize g.server.entries (k + m) := by rw [hl]
  have hset : Settled c g.server l.orderedWatermk :=
    ⟨k + m, hm, hw', fun i t _ ht => Or.inl (Or.inr (h.quiet t (List.mem_of_getElem? ht)))⟩
  have hle : g.server.log.orderedWatermk ≤ l.orderedWatermk := by
    rw [hw, hw']
    exact pos_mono (Nat.le_add_right k m)
  have hcont : Contents c { g.server with log := l } :=
    (h.contents.advance wi hle hset).congr rfl (by rw [hl]; rfl) (by rw [hl]; rfl) (by rw [hl]; rfl) rfl
  have hun' : unordered { g.server with log := l } = g.server.slots.drop (k + m) :=
    unordered_of_watermk hcont.tiled hm hw'
  -- the entries from the watermark on are those passed and those from the new watermark on
  have hsplit : (unordered g.server).map Slot.written =
      passed g.server k m ++ (g.server.slots.drop (k + m)).map Slot.written := by
    rw [hun, passed, ← List.map_append, ← List.drop_drop, List.take_append_drop]
  have hlen : (deletedBy c ids g.server.log).length ≤
      (unordered g.server).length + g.server.log.pendingEntries.length := by
    have hfilter := List.length_filter_le (fun e => decide ¬ Above ids e)
      (g.server.log.pendingEntries ++ passed g.server k m)
    have hsum := congrArg List.length hsplit
    rw [hdel]
    simp only [List.length_append, List.length_map] at hfilter hsum ⊢
    omega
  refine ⟨⟨hcont, h.quiet, ?_, h.distinct, ?_, ?_⟩, hlen, by rw [hdel, hn]⟩
  · obtain ⟨mp, hlog, hval, -⟩ := noteMaxSeq_spec (fun q => q < g.server.log.sequencer ∨ q = 0) (Or.inr rfl) ids
      g.server.log h.noted
    intro rid q hq
    simp only [hl] at hq ⊢
    have hq' := eq_some_of_eraseAll hq
    rw [hlog] at hq'
    exact hval rid q hq'
  · refine List.perm_iff_count.mpr fun x => ?_
    have hcount := h.perm.count_eq x
    have hkept := (List.filter_append_perm (fun e => decide (Above ids e))
      (g.server.log.pendingEntries ++ passed g.server k m)).count_eq x
    simp only [hun', hpend, hdel, hsplit, List.count_append, decide_not] at hcount hkept ⊢
    omega
  · intro ids' hids'
    obtain rfl := Option.some.inj hids'
    refine ⟨hids, fun x hx => ?_⟩
    rw [hpend] at hx
    simpa using (List.mem_filter.mp hx).2

/-- **One call** keeps the invariant. -/
theorem Balanced.call (h : Balanced c g) (hs : Call c A g g') : Balanced c g' := by
  cases hs with
  | append e he hf hocc hfresh => exact h.append he hf hocc hfresh
  | collect ids hA hids hne heq => exact (h.collect hids hne heq).1

theorem balanced_of_reach (h : Reach Start (Call c A) g) : Balanced c g :=
  h.invariant (fun _ hg => Balanced.start hg) fun _ _ _ hb hs => hb.call hs

/-- **What the collections return** is the number of the deleted, if each has few entries to go through. -/
theorem counted_of_reach (h : Reach Start (Call c Few) g) : g.returned = g.deleted.length := by
  refine h.invariant (P := fun g => g.returned = g.deleted.length) ?_ ?_
  · rintro g rfl
    rfl
  · rintro g g' hr hcount hs
    cases hs with
    | append e he hf hocc hfresh => exact hcount
    | collect ids hA hids hne heq =>
      obtain ⟨-, hlen, hn⟩ := (balanced_of_reach hr).collect hids hne heq
      unfold Few at hA
      simp only [List.length_append]
      rw [hcount, hn, Nat.mod_eq_of_lt (by omega)]

/-! ### Every entry is in one place -/

theorem Balanced.written_nodup (h : Balanced c g) : (g.server.slots.map Slot.written).Nodup := by
  have hid : (g.server.slots.map Slot.written).map LogEntry.reqId = g.server.entries.map LogEntry.reqId := by
    simp only [State.entries, List.map_map]
    rfl
  exact List.Nodup.of_map LogEntry.reqId (hid ▸ h.distinct)

theorem Balanced.inRing_iff (h : Balanced c g) {t : Slot} (ht : t ∈ g.server.slots) :
    InRing g t ↔ t.written ∈ (unordered g.server).map Slot.written := by
  constructor
  · rintro ⟨hle, -⟩
    exact List.mem_map_of_mem (List.mem_filter.mpr ⟨ht, by simpa using hle⟩)
  · intro hmem
    obtain ⟨u, hu, heq⟩ := List.mem_map.mp hmem
    obtain ⟨hu, hle⟩ := List.mem_filter.mp hu
    obtain rfl := List.inj_on_of_nodup_map h.written_nodup hu ht heq
    obtain ⟨i, hi⟩ := List.mem_iff_getElem?.mp hu
    have hend := h.contents.tiled.end_le_sequencer hi
    have hsz := entrySize_pos u.e
    exact ⟨by simpa using hle, by omega⟩

theorem Balanced.once (h : Balanced c g) {t : Slot} (ht : t ∈ g.server.slots) : Once g t := by
  have hmem := h.perm.mem_iff.mp (List.mem_map_of_mem (f := Slot.written) ht)
  have hnodup := h.perm.nodup_iff.mp h.written_nodup
  obtain ⟨h12, -, hd3⟩ := List.nodup_append'.mp hnodup
  obtain ⟨-, -, hd2⟩ := List.nodup_append'.mp h12
  unfold Once
  rw [h.inRing_iff ht]
  rcases List.mem_append.mp hmem with hmem | hmem
  · have hno := fun hdel => hd3 hmem hdel
    rcases List.mem_append.mp hmem with hring | hpend
    · exact Or.inl ⟨hring, fun hpend => hd2 hring hpend, hno⟩
    · exact Or.inr (Or.inl ⟨fun hring => hd2 hring hpend, hpend, hno⟩)
  · exact Or.inr (Or.inr ⟨fun hring => hd3 (List.mem_append_left _ hring) hmem,
      fun hpend => hd3 (List.mem_append_right _ hpend) hmem, hmem⟩)

/-! ### Rounds of two clients -/

/-- The entry of a client in a round. -/
def ofRound (clientId : UInt64) (n : ℕ) : LogEntry := ⟨clientId, UInt64.ofNat (n + 1), 0, 0, 0, 0, []⟩

theorem entrySize_ofRound (clientId : UInt64) (n : ℕ) : entrySize (ofRound clientId n) = 32 := by
  show metaDataSize + align4 (0 + 3) = 32
  decide

theorem ofRound_admissible (clientId : UInt64) (n : ℕ) : Admissible (ofRound clientId n) :=
  ⟨rfl, by rw [entrySize_ofRound]; decide⟩

theorem getSize_ofRound (clientId : UInt64) (n : ℕ) : getSize (ofRound clientId n) = 32 :=
  (ofRound_admissible clientId n).getSize_eq.trans (entrySize_ofRound clientId n)

theorem toNat_clientSeq_ofRound (clientId : UInt64) {n : ℕ} (hn : n < 2 ^ 32) :
    (ofRound clientId n).clientSeq.toNat = n + 1 :=
  UInt64.toNat_ofNat_of_lt' (show n + 1 < 2 ^ 64 by omega)

/-- After `n` rounds: each has appended an entry of client 1 and one of client 2 and collected the latter. -/
structure Rounds (A : Ledger → Prop) (n : ℕ) (g : Ledger) : Prop where
  reach : Reach Start (Call smallBackup A) g
  length : g.server.slots.length = 2 * n
  nothing : g.server.log.orderedWatermk = g.server.log.sequencer
  clientSeq : ∀ e ∈ g.server.entries, e.clientSeq.toNat ≤ n
  pending : g.server.log.pendingEntries.length = n
  client1 : ∀ e ∈ g.server.log.pendingEntries, e.clientId = 1 ∧ 0 < e.clientSeq.toNat ∧ e.clientSeq.toNat ≤ n
  deleted : g.deleted.length = n
  returned : g.returned = n

theorem Rounds.start : Rounds A 0 ⟨⟨.zeroed, []⟩, [], 0, none⟩ :=
  ⟨.start rfl, rfl, rfl, by simp [State.entries], rfl, by simp [FlatLog.zeroed], rfl, rfl⟩

/-- The backup `s` after the two appends of a round. -/
structure TwoMore (A : Ledger → Prop) (n : ℕ) (g : Ledger) (s : State) (t₁ t₂ : Slot) : Prop where
  reach : Reach Start (Call smallBackup A) { g with server := s, last := none }
  slots : s.slots = g.server.slots ++ [t₁, t₂]
  reqId₁ : t₁.e.reqId = (ofRound 1 n).reqId
  reqId₂ : t₂.e.reqId = (ofRound 2 n).reqId
  seq₁ : t₁.seq = s.log.orderedWatermk
  seq₂ : t₂.seq = s.log.orderedWatermk + 32
  sequencer : s.log.sequencer = s.log.orderedWatermk + 64
  pending : s.log.pendingEntries = g.server.log.pendingEntries
  noted : s.log.reqidToSeqMap (ofRound 2 n).reqId = some (s.log.orderedWatermk + 32)

theorem Rounds.appends {n : ℕ} (h : Rounds A n g) (hn : n < 2 ^ 32) : ∃ s t₁ t₂, TwoMore A n g s t₁ t₂ := by
  have hrg := smallBackup.le_rgSize
  obtain ⟨hseq₁, hw₁, -⟩ := append_counters smallBackup g.server (ofRound 1 n)
  obtain ⟨hseq₂, hw₂, -⟩ := append_counters smallBackup (append smallBackup g.server (ofRound 1 n)) (ofRound 2 n)
  have hnothing := h.nothing
  rw [getSize_ofRound] at hseq₁ hseq₂
  -- the numbers of the round are above those of the rounds before
  have hfresh : ∀ clientId, (ofRound clientId n).reqId ∉ g.server.entries.map LogEntry.reqId := by
    intro clientId hmem
    obtain ⟨e, he, heq⟩ := List.mem_map.mp hmem
    have hle := h.clientSeq e he
    rw [show e.clientSeq = (ofRound clientId n).clientSeq from congrArg Prod.snd heq,
      toNat_clientSeq_ofRound clientId hn] at hle
    omega
  have h1 := h.reach.next (.append (ofRound 1 n) (ofRound_admissible 1 n) rfl
    (by rw [getSize_ofRound]; omega) (hfresh 1))
  have hfresh₂ : (ofRound 2 n).reqId ∉
      (append smallBackup g.server (ofRound 1 n)).entries.map LogEntry.reqId := by
    have hent : (append smallBackup g.server (ofRound 1 n)).entries =
        g.server.entries ++ [stamp smallBackup g.server.log.indexer (ofRound 1 n)] := by
      simp [State.entries, append]
    simp only [hent, List.map_append, List.mem_append, not_or]
    refine ⟨hfresh 2, fun hmem => ?_⟩
    have hid := congrArg Prod.fst (List.mem_singleton.mp hmem)
    exact absurd hid (show (2 : UInt64) ≠ 1 by decide)
  have h2 := h1.next (.append (ofRound 2 n) (ofRound_admissible 2 n) rfl
    (by rw [getSize_ofRound]; simp only [hseq₁, hw₁]; omega) hfresh₂)
  refine ⟨_, _, _, h2, List.append_assoc _ _ _, rfl, rfl, ?_, ?_, ?_, ?_, ?_⟩
  · simp only [hw₂, hw₁]
    exact h.nothing.symm
  · simp only [hw₂, hw₁, hseq₁, hnothing]
  · simp only [hw₂, hw₁, hseq₂, hseq₁, hnothing]
  · rw [append_pendingEntries, append_pendingEntries]
  · rw [append_reqidToSeqMap, hw₂, hw₁, hseq₁, hnothing]
    exact Function.update_self _ _ _

theorem above_singleton {clientId clientSeq : UInt64} (hne : e.clientId ≠ clientId) (hpos : 0 < e.clientSeq.toNat) :
    Above [(clientId, clientSeq)] e :=
  above_of_notMem (fun hmem => hne (List.mem_singleton.mp hmem)) (UInt64.lt_iff_toNat_lt.mpr hpos)

theorem not_above_singleton {clientSeq : UInt64} (hle : e.clientSeq ≤ clientSeq) :
    ¬ Above [(e.clientId, clientSeq)] e := by
  have hids : ([(e.clientId, clientSeq)].map Prod.fst).Nodup := List.nodup_singleton e.clientId
  have hmem : (e.clientId, clientSeq) ∈ [(e.clientId, clientSeq)] := List.mem_singleton.mpr rfl
  have hnum : cliIdMaxSeqMap [(e.clientId, clientSeq)] e.clientId = clientSeq := cliIdMaxSeqMap_of_mem hids hmem
  unfold Above
  rw [hnum]
  exact UInt64.not_lt.mpr hle

theorem TwoMore.passed {n m k : ℕ} {s : State} {t₁ t₂ : Slot} (h : TwoMore A n g s t₁ t₂) (hT : Tiled s)
    (hk : k = g.server.slots.length) (hm : k + m ≤ s.slots.length)
    (hgt : (noteMaxSeq [(ofRound 2 n).reqId] s.log).2 < pos entrySize s.entries (k + m)) :
    pos entrySize s.entries k = s.log.orderedWatermk ∧ k + m = s.slots.length ∧
      Collections.passed s k m = [t₁.written, t₂.written] := by
  subst hk
  have hmax : (noteMaxSeq [(ofRound 2 n).reqId] s.log).2 = s.log.orderedWatermk + 32 := by
    unfold noteMaxSeq
    simp [h.noted]
  have hlen : s.slots.length = g.server.slots.length + 2 := by
    rw [h.slots]
    simp
  have h1 : s.slots[g.server.slots.length]? = some t₁ := by
    rw [h.slots]
    simp
  have h2 : s.slots[g.server.slots.length + 1]? = some t₂ := by
    rw [h.slots]
    simp
  have hpos₁ := (hT.seq h1).symm.trans h.seq₁
  have hpos₂ := (hT.seq h2).symm.trans h.seq₂
  rw [hmax] at hgt
  -- the second entry starts at `max_seq`, so that the loop ends behind it
  obtain rfl : m = 2 := by
    by_contra hne
    have hle : g.server.slots.length + m ≤ g.server.slots.length + 1 := by omega
    have hmono := pos_mono (f := entrySize) (l := s.entries) hle
    omega
  refine ⟨hpos₁, hlen.symm, ?_⟩
  unfold Collections.passed
  rw [h.slots, List.drop_left]
  rfl

section TwoMore

variable {n : ℕ} {s : State} {t₁ t₂ : Slot} (h : Rounds A n g) (hs : TwoMore A n g s t₁ t₂) (hn : n < 2 ^ 32)
include h hs hn

theorem TwoMore.clientSeq : ∀ e ∈ s.entries, e.clientSeq.toNat ≤ n + 1 := by
  intro e he
  have hent : s.entries = g.server.entries ++ [t₁.e, t₂.e] := by
    simp [State.entries, hs.slots]
  rw [hent] at he
  rcases List.mem_append.mp he with he | he
  · exact (h.clientSeq e he).trans (Nat.le_succ n)
  · rcases List.mem_cons.mp he with rfl | he
    · rw [show t₁.e.clientSeq = (ofRound 1 n).clientSeq from congrArg Prod.snd hs.reqId₁,
        toNat_clientSeq_ofRound 1 hn]
    · rw [List.mem_singleton.mp he, show t₂.e.clientSeq = (ofRound 2 n).clientSeq from congrArg Prod.snd hs.reqId₂,
        toNat_clientSeq_ofRound 2 hn]

theorem TwoMore.client1 : ∀ e ∈ g.server.log.pendingEntries ++ [t₁.written],
    e.clientId = 1 ∧ 0 < e.clientSeq.toNat ∧ e.clientSeq.toNat ≤ n + 1 := by
  intro e he
  rcases List.mem_append.mp he with he | he
  · obtain ⟨hid, hpos, hle⟩ := h.client1 e he
    exact ⟨hid, hpos, hle.trans (Nat.le_succ n)⟩
  · obtain rfl := List.mem_singleton.mp he
    have hnum : t₁.written.clientSeq = (ofRound 1 n).clientSeq := congrArg Prod.snd hs.reqId₁
    rw [hnum, toNat_clientSeq_ofRound 1 hn]
    exact ⟨congrArg Prod.fst hs.reqId₁, Nat.succ_pos n, Nat.le_refl _⟩

/-- The entry of client 1 is kept with the pending ones, that of client 2 is deleted. -/
theorem TwoMore.filter_above :
    (s.log.pendingEntries ++ [t₁.written, t₂.written]).filter (fun e => Above [(ofRound 2 n).reqId] e) =
      g.server.log.pendingEntries ++ [t₁.written] ∧
    (s.log.pendingEntries ++ [t₁.written, t₂.written]).filter (fun e => ¬ Above [(ofRound 2 n).reqId] e) =
      [t₂.written] := by
  have hkeep : ∀ e ∈ g.server.log.pendingEntries ++ [t₁.written], Above [(ofRound 2 n).reqId] e := by
    intro e he
    obtain ⟨hid, hpos, -⟩ := hs.client1 h hn e he
    exact above_singleton (by rw [hid]; exact show (1 : UInt64) ≠ 2 by decide) hpos
  have hdrop : ¬ Above [(ofRound 2 n).reqId] t₂.written := by
    have hid : (ofRound 2 n).reqId = (t₂.written.clientId, t₂.written.clientSeq) := hs.reqId₂.symm
    rw [hid]
    exact not_above_singleton (UInt64.le_refl _)
  have hsplit : s.log.pendingEntries ++ [t₁.written, t₂.written] =
      (g.server.log.pendingEntries ++ [t₁.written]) ++ [t₂.written] := by
    rw [hs.pending, List.append_assoc]
    rfl
  rw [hsplit]
  constructor
  · rw [List.filter_append, List.filter_eq_self.mpr (fun e he => by simpa using hkeep e he),
      List.filter_cons_of_neg (by simpa using hdrop), List.filter_nil, List.append_nil]
  · rw [List.filter_append, List.filter_eq_nil_iff.mpr (fun e he => by simpa using hkeep e he),
      List.filter_cons_of_pos (by simpa using hdrop), List.filter_nil, List.nil_append]

end TwoMore

theorem Rounds.next {n : ℕ} (h : Rounds A n g) (hn : n < 2 ^ 32)
    (hA : ∀ s t₁ t₂, TwoMore A n g s t₁ t₂ → A { g with server := s, last := none }) :
    ∃ g', Rounds A (n + 1) g' := by
  obtain ⟨s, t₁, t₂, hs⟩ := h.appends hn
  have hb := balanced_of_reach hs.reach
  have hsl := hs.slots
  have hk : g.server.slots.length ≤ s.slots.length := by
    rw [hsl]
    simp
  have ht₁ : s.slots[g.server.slots.length]? = some t₁ := by
    rw [hsl]
    simp
  have hw : s.log.orderedWatermk = pos entrySize s.entries g.server.slots.length :=
    hs.seq₁.symm.trans (hb.contents.tiled.seq ht₁)
  have hne : s.slots ≠ [] := by
    rw [hsl]
    simp
  obtain ⟨m, wi, hm, -, hgt, heq, hdel⟩ := delEntriesBackup_eq hb.contents (fun _ => hb.flagged)
    [(ofRound 2 n).reqId] hk hw hb.noted hne
  obtain ⟨-, hend, hpassed⟩ := hs.passed hb.contents.tiled rfl hm hgt
  obtain ⟨habove, hnot⟩ := hs.filter_above h hn
  have hnums := hs.clientSeq h hn
  rw [hpassed, habove, hnot] at heq
  rw [hpassed, hnot] at hdel
  refine ⟨_, hs.reach.next (.collect [(ofRound 2 n).reqId] (hA s t₁ t₂ hs)
    (List.nodup_singleton (ofRound 2 n).clientId) hne heq), ?_, ?_, hnums, ?_, hs.client1 h hn, ?_, ?_⟩
  · simp [hsl, h.length, Nat.mul_succ]
  · show pos entrySize s.entries (g.server.slots.length + m) = s.log.sequencer
    rw [hend, hb.contents.tiled.sequencer]
    exact pos_of_length_le (by simp [State.entries])
  · simp [h.pending]
  · simp [hdel, h.deleted]
  · simp [h.returned]

/-- A collection in a round has the two new entries to go through, and what the rounds before have left. -/
theorem TwoMore.few {n : ℕ} {s : State} {t₁ t₂ : Slot} (h : Rounds Few n g) (hs : TwoMore Few n g s t₁ t₂)
    (hn : n < 2 ^ 30) : Few { g with server := s, last := none } := by
  have hlen : s.slots.length = 2 * n + 2 := by
    rw [hs.slots, List.length_append, h.length]
    rfl
  have hle : (unordered s).length ≤ s.slots.length := List.length_filter_le ..
  unfold Few
  simp only [hs.pending, h.pending]
  omega

theorem exists_rounds_few : ∀ n, n ≤ 2 ^ 30 → ∃ g, Rounds Few n g
  | 0, _ => ⟨_, Rounds.start⟩
  | n + 1, hn => by
    obtain ⟨g, hg⟩ := exists_rounds_few n (Nat.le_of_succ_le hn)
    exact hg.next (by omega) fun _ _ _ hs => hs.few hg hn

/-! ### Conservation -/

/-- **Collections conserve the entries and count them**, in every run in which less than `2 ^ 32` entries are in the
ring and pending whenever a collection is called. -/
theorem collections_conserve (h : Reach Start (Call c Few) g) : Conserved g := by
  have hb := balanced_of_reach h
  refine ⟨fun t ht => hb.once ht, fun e he => ?_, ?_, counted_of_reach h, fun ids hlast rid hrid e he hid => ?_⟩
  · refine hb.perm.mem_iff.mpr ?_
    rw [List.append_assoc]
    exact List.mem_append_right _ he
  · exact (List.nodup_append'.mp (hb.perm.nodup_iff.mp hb.written_nodup)).2.1
  · obtain ⟨hids, habove⟩ := hb.above ids hlast
    have hlt := habove e he
    unfold Above at hlt
    rwa [hid, cliIdMaxSeqMap_of_mem hids hrid] at hlt

/-- Two entries have been collected, and two of the other client are pending. -/
theorem collections_conserve_two : ∃ g, Conserved g ∧ g.server.slots.length = 4 ∧
    g.server.log.pendingEntries.length = 2 ∧ g.deleted.length = 2 ∧ g.returned = 2 := by
  obtain ⟨g, hg⟩ := exists_rounds_few 2 (by decide)
  exact ⟨g, collections_conserve hg.reach, hg.length, hg.pending, hg.deleted, hg.returned⟩

/-! ### A number of deleted entries that does not fit -/

theorem exists_rounds : ∀ n, n ≤ 2 ^ 32 → ∃ g, Rounds (fun _ => True) n g
  | 0, _ => ⟨_, Rounds.start⟩
  | n + 1, hn => by
    obtain ⟨g, hg⟩ := exists_rounds n (Nat.le_of_succ_le hn)
    exact hg.next hn fun _ _ _ _ => trivial

/-- **After `2 ^ 32` rounds one collection deletes all that is pending**, and returns zero. -/
theorem collections_miscount : ∃ g, Reach Start (Call smallBackup fun _ => True) g ∧ g.returned = 2 ^ 32 ∧
    g.deleted.length = 2 ^ 32 + 2 ^ 32 ∧ ¬ Conserved g := by
  obtain ⟨g, hg⟩ := exists_rounds (2 ^ 32) (Nat.le_refl _)
  have hb := balanced_of_reach hg.reach
  have hlen := hb.perm.length_eq
  simp only [List.length_map, List.length_append, hg.pending] at hlen
  have hne : g.server.slots ≠ [] := by
    intro hnil
    rw [hnil, List.length_nil] at hlen
    omega
  obtain ⟨k, hk, hw, -⟩ := unordered_eq_drop hb.contents
  obtain ⟨m, wi, hm, -, -, heq, hdel⟩ := delEntriesBackup_eq hb.contents (fun _ => hb.flagged)
    [(1, UInt64.ofNat (2 ^ 32))] hk hw hb.noted hne
  -- the ring is empty, so that nothing is passed
  obtain rfl : k = g.server.slots.length := by
    by_contra hlt
    have hpos := pos_strictMono (f := entrySize) (l := g.server.entries) (fun e _ => entrySize_pos e)
      (show g.server.slots.length ≤ g.server.entries.length by simp [State.entries]) (lt_of_le_of_ne hk hlt)
    have hend : g.server.log.sequencer = pos entrySize g.server.entries g.server.slots.length := by
      rw [hb.contents.tiled.sequencer]
      exact (pos_of_length_le (by simp [State.entries])).symm
    have hnothing := hg.nothing
    omega
  have hpassed : passed g.server g.server.slots.length m = [] := by
    unfold passed
    rw [List.drop_length, List.take_nil, List.map_nil]
  have hall : (g.server.log.pendingEntries ++ passed g.server g.server.slots.length m).filter
      (fun e => ¬ Above [(1, UInt64.ofNat (2 ^ 32))] e) = g.server.log.pendingEntries := by
    rw [hpassed, List.append_nil]
    refine List.filter_eq_self.mpr fun e he => ?_
    obtain ⟨hid, -, hle⟩ := hg.client1 e he
    have hnot : ¬ Above [(e.clientId, UInt64.ofNat (2 ^ 32))] e :=
      not_above_singleton (UInt64.le_iff_toNat_le.mpr hle)
    rw [hid] at hnot
    simpa using hnot
  rw [hall, hg.pending] at heq
  rw [hall] at hdel
  have hdeleted : (g.deleted ++ deletedBy smallBackup [(1, UInt64.ofNat (2 ^ 32))] g.server.log).length =
      2 ^ 32 + 2 ^ 32 := by
    rw [hdel, List.length_append, hg.deleted, hg.pending]
  refine ⟨_, hg.reach.next (.collect [(1, UInt64.ofNat (2 ^ 32))] trivial (List.nodup_singleton 1) hne heq), ?_,
    hdeleted, fun hcons => ?_⟩
  · simp only [hg.returned, Nat.mod_self, Nat.add_zero]
  · have hcount := hcons.counted
    simp only [hdeleted, hg.returned, Nat.mod_self, Nat.add_zero] at hcount
    omega

end LazyLog.DurLog.Conservation
