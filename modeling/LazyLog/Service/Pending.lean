import LazyLog.DurLog.Processed
import LazyLog.Service.Runs

/-! # Pending entries are unordered

A backup keeps in `pending_entries_` what a collection passes and does not delete. It should be unordered: in no batch
that the backup has been told about. A request for a collection may overtake an append of its batch, though. The entry
then comes after its batch has been collected, and the next collection passes it; if that one does not name its client
the entry becomes pending, ordered as it is. -/

namespace LazyLog.Service.Pending

open LazyLog.Lib.Streams LazyLog.Lib.Tiling LazyLog.Lib.Transition LazyLog.Rpc.Entry
open LazyLog.DurLog LazyLog.DurLog.Flat LazyLog.DurLog.Ranges LazyLog.DurLog.Ring LazyLog.DurLog.FlatCli
open LazyLog.DurLog.DelEntries LazyLog.DurLog.GcMessage LazyLog.DurLog.Processed LazyLog.DurLog.Collections
open LazyLog.ConsLog LazyLog.ConsLog.Batches LazyLog.ConsLog.Link
open LazyLog.ConsLog.Spec (SharedLog)
open LazyLog.Client LazyLog.Client.LazyLogCli
open LazyLog.Service.Appends (withClients ids clients_of_reachable)
open LazyLog.Service.Collection LazyLog.Service.Runs

/-- When a collection has replied, no pending entry is in a batch given to `AppendBatch`: the last one is that of the
collection, and the others have been collected before. -/
def PendingUnordered (n : ℕ) (stored : List (List LogEntry)) (w : Backups) : Prop :=
  ∀ b < n, ∀ nDel, (w.backup b).gc = .replied nDel →
    ∀ e ∈ (w.backup b).server.log.pendingEntries, e.reqId ∉ storedIds stored

/-- A backup starts to collect a batch only when its calls of `AppendEntry` for the batch have returned. The client id
0 of the sentinel is no client's. -/
def Prompt (n : ℕ) (w w' : Backups) : Prop :=
  ∀ b < n, ∀ ids, (w.backup b).gc = .requested ids → (w'.backup b).gc ≠ .requested ids →
    ∀ e ∈ w.entries.dropLast, e.clientId ≠ 0 ∧ Returned (w.backup b) e.reqId

variable {c : Config} {n : ℕ} {x x' : SharedLog} {t t' : Clients} {w : Backups} {v v' : Backup}

/-! ### One backup -/

/-- The entries of a client come to a backup in the order of their numbers. -/
theorem ordered_of_counted {l : List LogEntry} {cnt : UInt64 → ℕ} (hT : Tiled v.server)
    (hids : ids v.server.entries = ids l)
    (hc : Counted LogEntry.clientId (fun e => e.clientSeq.toNat) l cnt) : Ordered v := by
  have hpair : (ids v.server.entries).Pairwise fun r r' => r.1 = r'.1 → r.2.toNat < r'.2.toNat := by
    rw [hids]
    exact List.pairwise_map.mpr hc.pairwise
  rintro r r' q q' ⟨t, ht, rfl, rfl⟩ ⟨u, hu, rfl, rfl⟩ hid hle
  obtain ⟨i, hi⟩ := List.mem_iff_getElem?.mp ht
  obtain ⟨j, hj⟩ := List.mem_iff_getElem?.mp hu
  rw [hT.seq hi, hT.seq hj]
  refine pos_mono (not_lt.mp fun hji => ?_)
  obtain ⟨hi', hti⟩ := List.getElem?_eq_some_iff.mp (Appends.getElem?_ids (getElem?_entries hi))
  obtain ⟨hj', htj⟩ := List.getElem?_eq_some_iff.mp (Appends.getElem?_ids (getElem?_entries hj))
  have hlt := List.pairwise_iff_getElem.mp hpair j i hj' hi' hji
  rw [hti, htj] at hlt
  exact absurd (hlt hid.symm) (not_lt.mpr (UInt64.le_iff_toNat_le.mp hle))

theorem progress_idle {P B : ReqID → Prop} {ids : List ReqID} (h : v.gc = .idle) :
    Progress ids P B v ↔ Gone P v := by
  unfold Progress
  rw [h]

theorem gone_setGc {P : ReqID → Prop} {gc : GcPc} (hg : Gone P v) (h : ¬ v.gc.Locked) (h' : ¬ gc.Locked) :
    Gone P { v with gc := gc } :=
  ⟨hg.appended, fun rid q hrid hq => (hg.passed rid q hrid hq).trans_eq (cursor_setGc h h').symm, hg.pending⟩

theorem noted_setGc {gc : GcPc} (hn : Noted v) (h : ¬ v.gc.Locked) (h' : ¬ gc.Locked) :
    Noted { v with gc := gc } :=
  fun t ht hst hle => hn t ht hst ((cursor_setGc h h').ge.trans hle)

theorem covers_batch {L : List LogEntry} {k m : ℕ} (hid : ∀ e ∈ (batch L k m).dropLast, e.clientId ≠ 0) :
    Covers (processFetchedEntries false (batch L k m) []).2 (· ∈ ids (batch L k m).dropLast) := by
  rw [dropLast_batch] at hid ⊢
  exact covers_of_perClientMax (processFetchedEntries_perClientMax hid _)

/-! ### The invariant -/

/-- The batches whose collections are over. -/
def collected (x : SharedLog) : List (List LogEntry) :=
  match x.phase with
  | .free | .updating => x.stored
  | .storing | .marking => x.stored.dropLast

/-- **What is known of a backup**, with the entries `order` that the clients have seen it append. -/
structure Server (c : Config) (order : List LogEntry) (v : Backup) : Prop where
  inv : DelEntries.Inv (asBackup c) (fun _ => True) v
  noted : Noted v
  order : ids v.server.entries = ids order

/-- **The invariant**: the batches before the one that is worked on are gone from every backup, and its collection
makes progress. -/
structure Inv (c : Config) (n : ℕ) (x : SharedLog) (t : Clients) (w : Backups) : Prop where
  server : ∀ b < n, Server c (t.order (.backup b)) (w.backup b)
  current : x.phase = .storing ∨ x.phase = .marking → x.stored.getLast? = some w.entries
  idle : x.phase ≠ .marking → ∀ b < n, (w.backup b).gc = .idle
  progress : ∀ b < n, Progress (processFetchedEntries false w.entries []).2 (· ∈ storedIds (collected x))
    (· ∈ ids w.entries.dropLast) (w.backup b)

theorem Inv.start (c : Config) (n : ℕ) :
    Inv c n ⟨[], [], 0, 0, .free⟩ ⟨fun _ => ⟨0, none⟩, fun _ => [], []⟩
      ⟨fun _ => ⟨⟨.zeroed, []⟩, .idle⟩, []⟩ := by
  refine ⟨fun b _ => ⟨.start _ _, ?_, rfl⟩, ?_, fun _ b _ => rfl, fun b _ => ⟨?_, ?_, ?_⟩⟩
  · rintro t ⟨⟩
  · rintro (h | h) <;> cases h
  · rintro rid ⟨⟩
  · rintro rid q ⟨⟩
  · rintro e ⟨⟩

theorem Server.ordered {order : List LogEntry} {cnt : UInt64 → ℕ} (h : Server c order v)
    (hc : Counted LogEntry.clientId (fun e => e.clientSeq.toNat) order cnt) : Ordered v :=
  ordered_of_counted h.inv.contents.tiled h.order hc

theorem Server.setGc {order : List LogEntry} {gc : GcPc} (h : Server c order v) (hlk : ¬ v.gc.Locked)
    (hlk' : ¬ gc.Locked) (hm : gc.maxSeq = 0) : Server c order { v with gc := gc } :=
  ⟨h.inv.setGc gc hlk hlk' hm, noted_setGc h.noted hlk hlk', h.order⟩

theorem step_entries (hs : DelEntries.Step c v v') : v'.server.entries = v.server.entries := by
  cases hs with
  | insertReqid ht hst hlk => exact entries_put ht _ _
  | note | pending | round | finish =>
    unfold State.entries
    rfl

theorem Server.step {order : List LogEntry} {cnt : UInt64 → ℕ} (h : Server c order v)
    (hc : Counted LogEntry.clientId (fun e => e.clientSeq.toNat) order cnt)
    (hs : DelEntries.Step (asBackup c) v v') : Server c order v' := by
  refine ⟨h.inv.step hs fun _ _ _ _ => trivial, h.noted.step rfl hs h.inv (h.ordered hc), ?_⟩
  rw [step_entries hs]
  exact h.order

theorem Server.append {order : List LogEntry} {e : LogEntry} (h : Server c order v)
    (he : CanAppend (asBackup c) v.server e) :
    Server c (order ++ [e]) { v with server := appendMem (asBackup c) v.server e } := by
  refine ⟨h.inv.append he, h.noted.append e, ?_⟩
  have hold := h.order
  unfold ids at hold ⊢
  rw [entries_appendMem, List.map_append, List.map_append, hold]
  rfl

theorem Inv.log (h : Inv c n x t w) (hst : x'.stored = x.stored) (hp : x'.phase = x.phase)
    (ht : ∀ b, t'.order (.backup b) = t.order (.backup b)) : Inv c n x' t' w := by
  have hcol : collected x' = collected x := by
    unfold collected
    rw [hst, hp]
  refine ⟨fun b hb => ?_, ?_, ?_, ?_⟩
  · rw [ht b]
    exact h.server b hb
  · rw [hst, hp]
    exact h.current
  · rw [hp]
    exact h.idle
  · rw [hcol]
    exact h.progress

theorem Inv.update (h : Inv c n x t w) {b : ℕ} (ht : ∀ b' ≠ b, t'.order (.backup b') = t.order (.backup b'))
    (hv : b < n → Server c (t'.order (.backup b)) v)
    (hidle : b < n → (w.backup b).gc = .idle → v.gc = .idle)
    (hprog : b < n → Progress (processFetchedEntries false w.entries []).2 (· ∈ storedIds (collected x))
      (· ∈ ids w.entries.dropLast) v) : Inv c n x t' (w.set b v) := by
  unfold Backups.set
  refine ⟨?_, h.current, ?_, ?_⟩
  · intro b' hb'
    simp only
    by_cases heq : b' = b
    · subst heq
      rw [Function.update_self]
      exact hv hb'
    · rw [Function.update_of_ne heq, ht b' heq]
      exact h.server b' hb'
  · intro hph b' hb'
    simp only
    by_cases heq : b' = b
    · subst heq
      rw [Function.update_self]
      exact hidle hb' (h.idle hph b' hb')
    · rw [Function.update_of_ne heq]
      exact h.idle hph b' hb'
  · intro b' hb'
    simp only
    by_cases heq : b' = b
    · subst heq
      rw [Function.update_self]
      exact hprog hb'
    · rw [Function.update_of_ne heq]
      exact h.progress b' hb'

section Steps
variable (h : Inv c n x t w)
include h

theorem Inv.step (hr : (withClients Spec.lts n).Reachable (x, t)) {b : ℕ}
    (hs : DelEntries.Step (asBackup c) (w.backup b) v) (hprompt : Prompt n w (w.set b v)) :
    Inv c n x t (w.set b v) := by
  refine h.update (fun _ _ => rfl) (fun hb => ?_) (fun _ => hs.idle) fun hb => ?_
  · exact (h.server b hb).step ((clients_of_reachable hr).order hb) hs
  · have hsrv := h.server b hb
    refine (h.progress b hb).step hs hsrv.inv (hsrv.ordered ((clients_of_reachable hr).order hb)) hsrv.noted
      fun hreq hgo => ?_
    have hready := hprompt b hb _ hreq (by rwa [Backups.set_backup])
    -- a collection is asked for while its batch is the last one stored
    have hph : x.phase = .marking := by
      by_contra hne
      rw [h.idle hne b hb] at hreq
      cases hreq
    obtain ⟨k, m, hbatch⟩ : ∃ k m, w.entries = batch x.log k m := by
      have hlast := h.current (Or.inr hph)
      rw [List.getLast?_eq_getElem?] at hlast
      obtain ⟨k, m, -, -, -, heq, -⟩ := (Spec.inv_of_reachable hr.fst).stored.getElem hlast
      exact ⟨k, m, heq⟩
    refine ⟨?_, ?_⟩
    · rw [hbatch] at hready ⊢
      exact covers_batch fun e he => (hready e he).1
    · rintro rid hrid
      obtain ⟨e, he, rfl⟩ := List.mem_map.mp hrid
      exact (hready e he).2

theorem Inv.append (hr : (withClients Spec.lts n).Reachable (x, t')) {b : ℕ} {e : LogEntry}
    (he : CanAppend (asBackup c) (w.backup b).server e)
    (ht : t'.order (.backup b) = t.order (.backup b) ++ [e])
    (ht' : ∀ b' ≠ b, t'.order (.backup b') = t.order (.backup b')) :
    Inv c n x t' (w.set b { w.backup b with server := appendMem (asBackup c) (w.backup b).server e }) := by
  have hsrv : b < n → Server c (t'.order (.backup b))
      { w.backup b with server := appendMem (asBackup c) (w.backup b).server e } := by
    intro hb
    rw [ht]
    exact (h.server b hb).append he
  refine h.update ht' hsrv (fun _ => id) fun hb => ?_
  exact (h.progress b hb).append e ((hsrv hb).ordered ((clients_of_reachable hr).order hb))

theorem Inv.appendBatch (hp : x.phase = .free) (es : List LogEntry) (g : ℕ) :
    Inv c n { x with stored := x.stored ++ [es], given := g, phase := .storing } t { w with entries := es } := by
  have hidle := h.idle (by rw [hp]; rintro ⟨⟩)
  refine ⟨h.server, fun _ => List.getLast?_concat, fun _ => hidle, fun b hb => ?_⟩
  have hgone := (progress_idle (hidle b hb)).mp (h.progress b hb)
  refine (progress_idle (hidle b hb)).mpr ?_
  unfold collected at hgone ⊢
  rw [hp] at hgone
  simp only [List.dropLast_concat]
  exact hgone

theorem Inv.deleteOrderedEntries (hp : x.phase = .storing) :
    Inv c n { x with phase := .marking } t
      { w with
        backup := fun b =>
          if b < n then { w.backup b with gc := .requested (processFetchedEntries false w.entries []).2 }
          else w.backup b } := by
  have hidle := h.idle (by rw [hp]; rintro ⟨⟩)
  have hlk : ∀ b < n, ¬ (w.backup b).gc.Locked := by
    intro b hb
    rw [hidle b hb]
    exact id
  refine ⟨fun b hb => ?_, fun _ => h.current (Or.inl hp), fun hph => absurd rfl hph, fun b hb => ?_⟩
  · simp only [if_pos hb]
    exact (h.server b hb).setGc (hlk b hb) id rfl
  · have hgone := (progress_idle (hidle b hb)).mp (h.progress b hb)
    unfold collected at hgone
    rw [hp] at hgone
    simp only [if_pos hb]
    exact ⟨rfl, gone_setGc hgone (hlk b hb) id⟩

/-- When a collection has replied, everything that is stored is gone. -/
theorem Inv.gone {b nDel : ℕ} (hb : b < n) (hgc : (w.backup b).gc = .replied nDel) :
    Gone (· ∈ storedIds x.stored) (w.backup b) := by
  have hph : x.phase = .marking := by
    by_contra hne
    rw [h.idle hne b hb] at hgc
    cases hgc
  have hprog := h.progress b hb
  unfold Progress at hprog
  rw [hgc] at hprog
  obtain ⟨prev, hprev⟩ := List.getLast?_eq_some_iff.mp (h.current (Or.inr hph))
  have hall : ∀ rid, rid ∈ storedIds x.stored ↔
      rid ∈ storedIds (collected x) ∨ rid ∈ ids w.entries.dropLast := by
    intro rid
    unfold collected
    rw [hph, hprev, storedIds_concat, List.mem_append]
    simp only [List.dropLast_concat]
  exact ⟨fun rid hrid => hprog.appended rid ((hall rid).mp hrid),
    fun rid q hrid => hprog.passed rid q ((hall rid).mp hrid),
    fun e he hrid => hprog.pending e he ((hall e.reqId).mp hrid)⟩

theorem Inv.allDeletionCompleted (hr : ∀ b < n, ∃ nDel, (w.backup b).gc = .replied nDel) :
    Inv c n { x with phase := .updating } t
      { w with backup := fun b => if b < n then { w.backup b with gc := .idle } else w.backup b } := by
  refine ⟨fun b hb => ?_, ?_, fun _ b hb => ?_, fun b hb => ?_⟩
  · obtain ⟨nDel, hgc⟩ := hr b hb
    simp only [if_pos hb]
    exact (h.server b hb).setGc (by rw [hgc]; exact id) id rfl
  · rintro (hph | hph) <;> cases hph
  · simp only [if_pos hb]
  · obtain ⟨nDel, hgc⟩ := hr b hb
    simp only [if_pos hb]
    exact (progress_idle rfl).mpr (gone_setGc (h.gone hb hgc) (by rw [hgc]; exact id) id)

theorem Inv.updateGlobalIdxDone (hp : x.phase = .updating) : Inv c n { x with phase := .free } t w := by
  refine ⟨h.server, ?_, fun _ => h.idle (by rw [hp]; rintro ⟨⟩), fun b hb => ?_⟩
  · rintro (hph | hph) <;> cases hph
  · have hprog := h.progress b hb
    unfold collected at hprog ⊢
    rw [hp] at hprog
    exact hprog

end Steps

/-- **Every run in which the collections are prompt** keeps the invariant. -/
theorem inv_of_reachable
    (h : ((withBackups Spec.lts c n).guard fun y y' => Prompt n y.2 y'.2).Reachable ((x, t), w)) :
    Inv c n x t w := by
  refine h.invariant (P := fun y => Inv c n y.1.1 y.1.2 y.2) ?_ ?_
  · rintro ⟨⟨x, t⟩, w⟩ ⟨⟨hx, ht⟩, hw⟩
    obtain rfl : x = _ := hx
    obtain rfl : t = _ := ht
    obtain rfl : w = _ := hw
    exact .start c n
  · rintro l ⟨⟨x, t⟩, w⟩ ⟨⟨x', t'⟩, w'⟩ hr ih ⟨hprompt, hs⟩
    have hfst : (withClients Spec.lts n).Reachable (x, t) := hr.of_guard.fst
    have hfst' : (withClients Spec.lts n).Reachable (x', t') := (hr.of_guard.next hs).fst
    cases ServiceStep.of_step hs with
    | other hst hp ht => exact ih.log hst hp ht
    | appendBatch k m g hp => exact ih.appendBatch hp _ g
    | deleteOrderedEntries hp => exact ih.deleteOrderedEntries hp
    | allDeletionCompleted hall => exact ih.allDeletionCompleted hall
    | updateGlobalIdxDone hp => exact ih.updateGlobalIdxDone hp
    | append b e he ht hne => exact ih.append hfst' he ht hne
    | step b hb => exact ih.step hfst hb hprompt

theorem pendingUnordered_of_simulation {σ : Type} {A : Lts Label σ} {R : σ → SharedLog → Prop}
    (stored : σ → List (List LogEntry)) (hsim : Simulation A Spec.lts R)
    (hst : ∀ s x, R s x → x.stored = stored s) {s : σ}
    (h : ((withBackups A c n).guard fun y y' => Prompt n y.2 y'.2).Reachable ((s, t), w)) :
    PendingUnordered n (stored s) w := by
  have hcli := hsim.sync (LazyLogCli.lts n) Appends.link fun b => ∀ e, b ≠ .append .primary e
  have hall := (hcli.sync (backupsLts c n) link (· = .tau)).guard
    (P := fun y y' => Prompt n y.2 y'.2) (Q := fun y y' => Prompt n y.2 y'.2) (by
      rintro ⟨y, w⟩ ⟨y', w'⟩ ⟨z, w₁⟩ ⟨z', w₁'⟩ ⟨-, rfl⟩ ⟨-, rfl⟩ hP
      exact hP)
  obtain ⟨⟨⟨x, t'⟩, w'⟩, hx, ⟨hR, rfl⟩, rfl⟩ := hall.reachable h
  intro b hb nDel hgc e he
  rw [← hst s x hR]
  exact ((inv_of_reachable hx).gone hb hgc).pending e he

/-! ### A collection that passes an entry -/

/-- **An entry becomes pending** if the next collection names a request behind it and no number of its client that is
as high as its own. -/
theorem exists_pending {s : State} {e e' : LogEntry} {ids : List ReqID} (hc : c.isPrimary = false)
    (h : DelEntries.Inv c (fun _ => True) ⟨s, .idle⟩) (he : CanAppend c s e) (he' : CanAppend c (append c s e) e')
    (hmem : e'.reqId ∈ ids) (habove : Above ids e) :
    ∃ l n, delEntriesBackup c ids (append c (append c s e) e').log = some (l, n) ∧
      ∃ x ∈ l.pendingEntries, x.reqId = e.reqId := by
  have hinv : DelEntries.Inv c (fun _ => True) ⟨append c (append c s e) e', .idle⟩ :=
    (h.append_returned he).append_returned he'
  have hT : Tiled (append c (append c s e) e') := hinv.contents.tiled
  obtain ⟨hseq, hwm, -⟩ := append_counters c s e
  obtain ⟨-, hwm', -⟩ := append_counters c (append c s e) e'
  -- the two entries stand at the end
  obtain ⟨t, ht, htr, hts⟩ : ∃ t : Slot, (append c (append c s e) e').slots[s.slots.length]? = some t ∧
      t.e.reqId = e.reqId ∧ t.seq = s.log.sequencer :=
    ⟨⟨stamp c s.log.indexer e, s.log.sequencer, s.log.indexer, .returned⟩, by simp [append], rfl, rfl⟩
  obtain ⟨u, hu, hus⟩ : ∃ u : Slot, (append c (append c s e) e').slots[s.slots.length + 1]? = some u ∧
      u.seq = (append c s e).log.sequencer :=
    ⟨⟨stamp c (append c s e).log.indexer e', (append c s e).log.sequencer, (append c s e).log.indexer, .returned⟩,
      by simp [append], rfl⟩
  have hfound : (append c (append c s e) e').log.reqidToSeqMap e'.reqId = some u.seq := by
    rw [append_reqidToSeqMap, hc, hus]
    exact Function.update_self ..
  obtain ⟨k, m, l, n, hw, hgt, hcall, -, hpend⟩ := exists_call hinv (List.ne_nil_of_mem (List.mem_of_getElem? ht)) ids
  have hmax := (noteMaxSeq_found (append c (append c s e) e').log hfound).2 hmem
  rw [hT.seq hu] at hmax
  have hsucc := pos_succ (f := entrySize) (getElem?_entries ht)
  have hsz := entrySize_pos t.e
  have hle : k ≤ s.slots.length := by
    by_contra hlt
    have hmono := pos_mono (f := entrySize) (l := (append c (append c s e) e').entries)
      (show s.slots.length + 1 ≤ k from not_le.mp hlt)
    have hws : s.log.orderedWatermk ≤ s.log.sequencer := h.contents.settled.le_sequencer h.contents.tiled
    have htq := hT.seq ht
    omega
  have hlt : s.slots.length + 1 < k + m := by
    by_contra hge
    have hmono := pos_mono (f := entrySize) (l := (append c (append c s e) e').entries) (not_lt.mp hge)
    omega
  refine ⟨l, n, hcall, t.written, ?_, htr⟩
  have hpassed : t.written ∈ passed (append c (append c s e) e') k m := by
    refine List.mem_map_of_mem (List.mem_of_getElem? (i := s.slots.length - k) ?_)
    rw [List.getElem?_take, if_pos (by omega), List.getElem?_drop, Nat.add_sub_cancel' hle]
    exact ht
  have hkept : Above ids t.written := by
    have hid : t.written.clientId = e.clientId := congrArg Prod.fst htr
    have hnum : t.written.clientSeq = e.clientSeq := congrArg Prod.snd htr
    unfold Above at habove ⊢
    rwa [hid, hnum]
  rw [hpend]
  exact List.mem_filter.mpr ⟨List.mem_append_right _ hpassed, decide_eq_true hkept⟩

/-! ### A collection that is prompt -/

/-- **Pending entries are unordered**, in both modes of the consensus log, in every run in which the backups start to
collect a batch only when they have appended it. -/
theorem pending_entries_are_unordered (c : Config) (maxFetchSize n : ℕ) :
    (∀ s t w, ((withBackups (FetchAndStore.lts c maxFetchSize) c n).guard
        fun y y' => Prompt n y.2 y'.2).Reachable ((s, t), w) → PendingUnordered n s.stored w) ∧
    ∀ s t w, ((withBackups (Pipeline.lts c maxFetchSize) c n).guard
        fun y y' => Prompt n y.2 y'.2).Reachable ((s, t), w) → PendingUnordered n s.stored w := by
  constructor
  · intro s t w h
    refine pendingUnordered_of_simulation FetchAndStore.Loop.stored (FetchAndStore.simulation c maxFetchSize) ?_ h
    rintro s x ⟨g, st, -, rfl⟩
    rfl
  · intro s t w h
    refine pendingUnordered_of_simulation Pipeline.Sys.stored (Pipeline.simulation c maxFetchSize) ?_ h
    rintro s x ⟨g, st, f, -, rfl⟩
    rfl

theorem canAppend_ahead (c : Config) :
    CanAppend c (append c ⟨.zeroed, []⟩ (entry 8 0)) (entry 8 1) ∧
      CanAppend c (append c (append c ⟨.zeroed, []⟩ (entry 8 0)) (entry 8 1)) (entry 7 0) := by
  have hinv := (DelEntries.Inv.start c fun _ => True).append_returned (canAppend_zeroed c 8 0)
  have hseq : (append c ⟨.zeroed, []⟩ (entry 8 0)).log.sequencer = 32 := by
    rw [(append_counters ..).1, getSize_entry]
    rfl
  have hcan := canAppend_entry hinv.contents (by simp only [hseq]; decide) 8 1
  refine ⟨hcan, canAppend_entry (hinv.append_returned hcan).contents ?_ 7 0⟩
  rw [(append_counters ..).1, getSize_entry, hseq]
  decide

/-- The primary has the first entries of clients 8 and 7. The backup also has the second entry of client 8, ahead of
that of client 7. -/
theorem exists_ahead {G : Backups → Backups → Prop} (hG : AtRequests G) : ∃ t w,
    Idle .smallPrimary G ((⟨append .smallPrimary (append .smallPrimary ⟨.zeroed, []⟩ (entry 8 0)) (entry 7 0),
      fun _ => 0, .idle, []⟩, t), w) ∧
    w.backup 0 = ⟨append (asBackup .smallPrimary) (append (asBackup .smallPrimary)
      (append (asBackup .smallPrimary) ⟨.zeroed, []⟩ (entry 8 0)) (entry 8 1)) (entry 7 0), .idle⟩ := by
  obtain ⟨hcan₂, hcan₄⟩ := canAppend_ahead (asBackup .smallPrimary)
  obtain ⟨t₁, h₁, ht₁⟩ := (idle_start .smallPrimary G).call hG 8 rfl (canAppend_zeroed _ 8 0) (canAppend_zeroed _ 8 0)
  -- the second request of client 8 comes to the backup
  obtain ⟨t₂, hs₂, ht₂, -⟩ := invoke_step 1 (show t₁.clients 8 = ⟨1, none⟩ by rw [ht₁, Function.update_self])
    (admissible_empty 8 1)
  have h₂ := h₁.left hG (.right (by rintro e ⟨⟩) hs₂) rfl
  obtain ⟨t₃, h₃, ht₃⟩ := h₂.arrive hG 8 (by rw [ht₂, Function.update_self]) rfl (by
    rw [Backups.set_backup]
    exact hcan₂)
  rw [Backups.set_backup, Backups.set_set] at h₃
  -- a call of client 7
  obtain ⟨t₄, h₄, -⟩ := h₃.call hG 7 (show t₃.clients 7 = ⟨0, none⟩ by
    rw [ht₃, ht₂, ht₁, Function.update_of_ne (by decide), Function.update_of_ne (by decide),
      Function.update_of_ne (by decide)]) (canAppend_second _ 8 7) (by
    rw [Backups.set_backup]
    exact hcan₄)
  exact ⟨t₄, _, h₄, by rw [Backups.set_backup, Backups.set_backup]⟩

/-- The primary's two entries are stored and collected, and the backup keeps the entry that is ahead pending. -/
theorem pending_entries_are_unordered_ahead : ∃ s t w nDel,
    ((withBackups (FetchAndStore.lts .smallPrimary 0) .smallPrimary 1).guard
      fun y y' => Prompt 1 y.2 y'.2).Reachable ((s, t), w) ∧ storedIds s.stored = [(8, 0), (7, 0)] ∧
      (w.backup 0).gc = .replied nDel ∧ (∃ e ∈ (w.backup 0).server.log.pendingEntries, e.reqId = (8, 1)) ∧
      PendingUnordered 1 s.stored w := by
  have hG : AtRequests (Prompt 1) := by
    intro w w' hno b hb ids hreq
    obtain rfl : b = 0 := by omega
    exact absurd hreq (hno ids)
  obtain ⟨t, w, h, hw⟩ := exists_ahead hG
  have hrecs : recs (append .smallPrimary (append .smallPrimary ⟨.zeroed, []⟩ (entry 8 0)) (entry 7 0)) =
      [⟨8, 0, 0, 0, 1, 0, []⟩, ⟨7, 0, 1, 0, 1, 0, []⟩] := by
    rw [recs_append, recs_append]
    rfl
  have hbatch : nextBatch ⟨append .smallPrimary (append .smallPrimary ⟨.zeroed, []⟩ (entry 8 0)) (entry 7 0),
      fun _ => 0, .idle, []⟩ = batch [⟨8, 0, 0, 0, 1, 0, []⟩, ⟨7, 0, 1, 0, 1, 0, []⟩] 0 2 := by
    unfold nextBatch
    rw [hrecs]
    rfl
  have hids : (processFetchedEntries false (batch [⟨8, 0, 0, 0, 1, 0, []⟩, ⟨7, 0, 1, 0, 1, 0, []⟩] 0 2) []).2 =
      [(7, 0), (8, 0)] := by decide
  obtain ⟨s, idx, hs, -, -, hst⟩ := h.order hG rfl (by
    simp only [hrecs]
    decide)
  simp only [hbatch] at hs hst
  obtain ⟨hcan₂, hcan₄⟩ := canAppend_ahead (asBackup .smallPrimary)
  have hinv := (DelEntries.Inv.start (asBackup .smallPrimary) fun _ => True).append_returned (canAppend_zeroed _ 8 0)
  obtain ⟨l, n, hcall, e, he, her⟩ := exists_pending rfl hinv hcan₂ hcan₄
    (show ((7 : UInt64), (0 : UInt64)) ∈ [(7, 0), (8, 0)] by decide)
    (show Above [(7, 0), (8, 0)] ⟨8, 1, 0, 0, 0, 0, []⟩ by decide)
  have hv : (Backups.requested w (batch [⟨8, 0, 0, 0, 1, 0, []⟩, ⟨7, 0, 1, 0, 1, 0, []⟩] 0 2)).backup 0 =
      { w.backup 0 with gc := .requested [(7, 0), (8, 0)] } := by
    rw [Backups.requested, hids]
    rfl
  rw [hw] at hv
  obtain ⟨nDel, hend⟩ := reachable_collect hs hv rfl hcall (by
    intro v₁ v₂ hsl b hb ids _ _ e he
    obtain rfl : b = 0 := by omega
    rw [Backups.set_backup]
    -- both entries of the batch have been appended
    have he' : e ∈ [(⟨8, 0, 0, 0, 1, 0, []⟩ : LogEntry), ⟨7, 0, 1, 0, 1, 0, []⟩] := he
    unfold Returned
    rw [hsl]
    rcases List.mem_cons.mp he' with rfl | he'
    · exact ⟨show (8 : UInt64) ≠ 0 by decide, _, List.mem_append_left _ (List.mem_append_left _
        (List.mem_singleton.mpr rfl)), rfl, rfl⟩
    · obtain rfl := List.mem_singleton.mp he'
      exact ⟨show (7 : UInt64) ≠ 0 by decide, _, List.mem_append_right _ (List.mem_singleton.mpr rfl), rfl, rfl⟩)
  refine ⟨s, t, _, nDel, hend, ?_, by rw [Backups.set_backup], ⟨e, by rw [Backups.set_backup]; exact he, her⟩,
    (pending_entries_are_unordered .smallPrimary 0 1).1 s t _ hend⟩
  rw [hst, storedIds_concat]
  rfl

/-! ### A collection that overtakes an append -/

/-- A batch of one entry names the request of the entry, and no other client. -/
theorem processFetchedEntries_singleton {x : LogEntry} {p : ℕ} (hx : x.clientId ≠ 0) :
    x.reqId ∈ (processFetchedEntries false [x, sentinel p] []).2 ∧
      ∀ id ∈ (processFetchedEntries false [x, sentinel p] []).2.map Prod.fst, id = x.clientId := by
  have hreal : ∀ e ∈ [x], e.clientId ≠ 0 := by
    intro e he
    rw [List.mem_singleton.mp he]
    exact hx
  have hmax := processFetchedEntries_perClientMax hreal p
  have hmem : ∀ y ∈ [x], y = x := fun y hy => List.mem_singleton.mp hy
  constructor
  · obtain ⟨⟨id, q⟩, hr, rfl⟩ := List.mem_map.mp ((hmax.clients x.clientId).mpr ⟨x, List.mem_singleton.mpr rfl, rfl⟩)
    obtain ⟨⟨y, hy, -, rfl⟩, -⟩ := hmax.max _ _ hr
    rw [hmem y hy] at hr
    exact hr
  · intro id hid
    obtain ⟨y, hy, rfl⟩ := (hmax.clients id).mp hid
    rw [hmem y hy]

/-- **An ordered entry is pending.** Client 7 appends twice. The backup has only the first entry when both are stored
and it is asked to collect them. Then the second one comes, and after it an entry of client 8, which is stored and
collected, too. -/
theorem pending_entry_is_ordered : ∃ s t w,
    (withBackups (FetchAndStore.lts .smallPrimary 0) .smallPrimary 1).Reachable ((s, t), w) ∧
      ¬ PendingUnordered 1 s.stored w := by
  have hG : AtRequests fun _ _ => True := fun _ _ _ => trivial
  have hinv₁ := (DelEntries.Inv.start (asBackup .smallPrimary) fun _ => True).append_returned (canAppend_zeroed _ 7 0)
  obtain ⟨t₁, h₁, ht₁⟩ := (idle_start .smallPrimary fun _ _ => True).call hG 7 rfl (canAppend_zeroed _ 7 0)
    (canAppend_zeroed _ 7 0)
  obtain ⟨t₂, h₂, ht₂⟩ := h₁.call_primary hG 7 (by rw [ht₁, Function.update_self]) (h₁.canAppend (by decide) 7 1)
  -- both entries of client 7 are stored, and the backup collects them with only one there
  have hrecs : ids (recs (append .smallPrimary (append .smallPrimary ⟨.zeroed, []⟩ (entry 7 0)) (entry 7 1))) =
      [(7, 0), (7, 1)] := by
    rw [recs_append, recs_append]
    rfl
  have hseq :
      (append .smallPrimary (append .smallPrimary ⟨.zeroed, []⟩ (entry 7 0)) (entry 7 1)).log.sequencer = 64 := by
    rw [(append_counters ..).1, (append_counters ..).1, getSize_entry, getSize_entry]
    rfl
  generalize append .smallPrimary (append .smallPrimary ⟨.zeroed, []⟩ (entry 7 0)) (entry 7 1) = P at h₂ hrecs hseq
  have hlen : (recs P).length = 2 := by
    rw [← List.length_map LogEntry.reqId]
    exact congrArg List.length hrecs
  obtain ⟨s₃, idx₃, h₃, hpc₃, hp₃, hst₃⟩ := h₂.order hG rfl (by simp [hlen])
  obtain ⟨k, m, l₁, r, -, -, hcall₁, hlseq, -⟩ := exists_call hinv₁ (List.cons_ne_nil _ _)
    (processFetchedEntries false (nextBatch ⟨P, fun _ => 0, .idle, []⟩) []).2
  obtain ⟨nDel, h₄⟩ := reachable_collect h₃ rfl rfl hcall₁ fun _ _ _ => trivial
  obtain ⟨s₅, w₅, h₅, hpc₅, hst₅, hrecs₅, hseq₅, hw₅⟩ := reachable_close hG h₄ hpc₃ (by rw [Backups.set_backup])
  rw [Backups.set_backup] at hw₅
  have hinv₅ := inv_of_call hinv₁ hcall₁
  have hlseq₅ : l₁.sequencer = 32 := hlseq.trans (by decide)
  -- the second entry comes, and an entry of client 8
  have hcan := canAppend_entry hinv₅.contents (by simp only [hlseq₅]; decide) 7 1
  have hcan' := canAppend_entry (hinv₅.append_returned hcan).contents (by
    rw [(append_counters ..).1, getSize_entry, hlseq₅]
    decide) 8 0
  obtain ⟨t₆, h₆, ht₆⟩ := h₅.arrive hG 7 (by rw [ht₂, Function.update_self]) rfl (by rw [hw₅]; exact hcan)
  rw [hw₅] at h₆
  obtain ⟨t₇, h₇, -⟩ := h₆.call hG 8 (show t₆.clients 8 = ⟨0, none⟩ by
    rw [ht₆, ht₂, ht₁, Function.update_of_ne (by decide), Function.update_of_ne (by decide),
      Function.update_of_ne (by decide)]) (h₆.canAppend (by rw [hseq₅, hp₃]; simp only [hseq]; decide) 8 0) (by
    rw [Backups.set_backup]
    exact hcan')
  rw [Backups.set_backup, Backups.set_set] at h₇
  -- it is stored and collected
  have hfirst : s₅.stored.flatMap List.dropLast = recs P := by
    rw [hst₅, hst₃]
    simp [nextBatch, dropLast_batch]
  have hrecs₇ : recs (append .smallPrimary s₅.primary (entry 8 0)) =
      recs P ++ [raised (stamp .smallPrimary s₅.primary.log.indexer (entry 8 0))] := by
    rw [recs_append, hrecs₅, hp₃]
  obtain ⟨s₈, idx₈, h₈, -, -, hst₈⟩ := h₇.order hG hpc₅ (by
    simp only [hfirst, hrecs₇]
    simp)
  obtain ⟨p, hbatch⟩ : ∃ p, nextBatch { s₅ with primary := append .smallPrimary s₅.primary (entry 8 0) } =
      [raised (stamp .smallPrimary s₅.primary.log.indexer (entry 8 0)), sentinel p] := by
    refine ⟨pos entrySize (recs (append .smallPrimary s₅.primary (entry 8 0))) ((recs P).length + 1), ?_⟩
    unfold nextBatch batch
    simp only [hfirst, hrecs₇, List.length_append, List.length_singleton, Nat.add_sub_cancel_left, List.drop_left]
    rfl
  obtain ⟨hnamed, hothers⟩ := processFetchedEntries_singleton (p := p)
    (show (raised (stamp .smallPrimary s₅.primary.log.indexer (entry 8 0))).clientId ≠ 0 from
      show (8 : UInt64) ≠ 0 by decide)
  rw [← hbatch] at hnamed hothers
  obtain ⟨l, n, hcall, e, he, her⟩ := exists_pending rfl hinv₅ hcan hcan' hnamed
    (above_of_notMem (fun hmem => absurd (hothers _ hmem) (show (7 : UInt64) ≠ 8 by decide))
      (show (0 : UInt64) < 1 by decide))
  obtain ⟨nDel', h₉⟩ := reachable_collect h₈ rfl rfl hcall fun _ _ _ => trivial
  refine ⟨s₈, t₇, _, h₉.of_guard, fun hun => ?_⟩
  refine hun 0 Nat.one_pos nDel' (by rw [Backups.set_backup]) e (by rw [Backups.set_backup]; exact he) ?_
  rw [hst₈, storedIds_concat, her]
  refine List.mem_append_left _ ?_
  unfold storedIds
  rw [hfirst, hrecs]
  decide

end LazyLog.Service.Pending
