import LazyLog.DurLog.Collections
import LazyLog.Service.Collection

/-! # Runs of the service

What the whole service can do when it is left alone for a while: a client's call goes through, on the primary and on
the backup, the consensus log orders everything that the primary has, and a collection runs to its end. The runs are
taken with the simple loop of the consensus log and one backup, and with only those steps that meet a condition `G`.
The condition is one that concerns the start of a collection, so it holds as long as none is asked for. -/

namespace LazyLog.Service.Runs

open LazyLog.Lib.Transition LazyLog.Rpc.Entry LazyLog.Rpc.Multi
open LazyLog.DurLog LazyLog.DurLog.Flat LazyLog.DurLog.Ring LazyLog.DurLog.FlatCli LazyLog.DurLog.DelEntries
open LazyLog.DurLog.Collections
open LazyLog.ConsLog LazyLog.ConsLog.Batches LazyLog.ConsLog.Link
open LazyLog.Client LazyLog.Client.LazyLogCli
open LazyLog.Service.Appends (withClients)
open LazyLog.Service.Collection

variable {k : ℕ} {t : Clients} {id : UInt64} {requests : DlServer → Request}

/-! ### The service -/

/-- The simple loop with one backup, as long as its steps meet the condition. -/
def service (c : Config) (G : Backups → Backups → Prop) :
    Lts ((Label ⊕ Act) ⊕ BackupAct) ((FetchAndStore.Loop × Clients) × Backups) :=
  (withBackups (FetchAndStore.lts c 0) c 1).guard fun y y' => G y.2 y'.2

/-- The condition concerns steps from a state in which a collection is asked for. -/
def AtRequests (G : Backups → Backups → Prop) : Prop :=
  ∀ w w' : Backups, (∀ ids, (w.backup 0).gc ≠ .requested ids) → G w w'

/-- The state is reached, and no collection is under way. -/
def Idle (c : Config) (G : Backups → Backups → Prop) (y : (FetchAndStore.Loop × Clients) × Backups) : Prop :=
  (service c G).Reachable y ∧ (y.2.backup 0).gc = .idle

variable {c : Config} {G : Backups → Backups → Prop} {s s' : FetchAndStore.Loop} {w w' : Backups}
  {y y' : FetchAndStore.Loop × Clients} {l : Label ⊕ Act} {e : LogEntry}

theorem AtRequests.of_idle (hG : AtRequests G) (h : (w.backup 0).gc = .idle) (w' : Backups) : G w w' := by
  refine hG w w' fun ids hreq => ?_
  rw [h] at hreq
  cases hreq

theorem idle_start (c : Config) (G : Backups → Backups → Prop) :
    Idle c G ((⟨⟨.zeroed, []⟩, fun _ => 0, .idle, []⟩, ⟨fun _ => ⟨0, none⟩, fun _ => [], []⟩),
      ⟨fun _ => ⟨⟨.zeroed, []⟩, .idle⟩, []⟩) :=
  ⟨.start ⟨⟨⟨⟨FlatLog.zeroed_fresh, rfl⟩, rfl, rfl⟩, rfl⟩, rfl⟩, rfl⟩

section Idle
variable (hG : AtRequests G)
include hG

theorem Idle.left (h : Idle c G (y, w)) (hs : (withClients (FetchAndStore.lts c 0) 1).step l y y')
    (hl : link l = none) : Idle c G (y', w) :=
  ⟨h.1.next ⟨hG.of_idle h.2 w, .left hl hs⟩, h.2⟩

theorem Idle.call_primary (h : Idle c G ((s, t), w)) (id : UInt64) (ht : t.clients id = ⟨k, none⟩)
    (hp : CanAppend c s.primary (entry id k)) : ∃ t',
      Idle c G (({ s with primary := append c s.primary (entry id k) }, t'), w) ∧
        t'.clients = Function.update t.clients id
          (calling id k [] (Function.update (fun _ => .sent) .primary .appended)) := by
  obtain ⟨t₁, hs₁, ht₁, -⟩ := invoke_step 1 ht (admissible_empty id k)
  have h₁ := h.left hG (.right (by rintro e ⟨⟩) hs₁) rfl
  have hcall : t₁.clients id = calling id k [] fun _ => .sent := by rw [ht₁, Function.update_self]
  obtain ⟨t₂, hs₂, ht₂, -⟩ := append_step .primary hcall trivial rfl rfl
  have h₂ := h₁.left hG (.both rfl (.append _ hp) hs₂) rfl
  refine ⟨t₂, h₂, ?_⟩
  rw [ht₂, ht₁, Function.update_idem]

theorem Idle.arrive (h : Idle c G ((s, t), w)) (id : UInt64)
    (ht : t.clients id = calling id k [] requests) (hr : requests (.backup 0) = .sent)
    (hb : CanAppend (asBackup c) (w.backup 0).server (entry id k)) : ∃ t',
      Idle c G ((s, t'), w.set 0 ⟨append (asBackup c) (w.backup 0).server (entry id k), .idle⟩) ∧
        t'.clients = Function.update t.clients id
          (calling id k [] (Function.update requests (.backup 0) .appended)) := by
  obtain ⟨hreach, hgc⟩ := h
  obtain ⟨t₁, hs₁, ht₁, -⟩ := append_step (.backup 0) ht Nat.one_pos hr rfl
  have h₁ := hreach.next ⟨hG.of_idle hgc _, .both rfl (.right (by rintro e ⟨⟩) hs₁) (.append 0 _ hb)⟩
  have hstep := step_append_returned (c := asBackup c) (v := w.backup 0)
    (by rw [hgc]; exact fun h => h) (entry id k)
  have h₂ := h₁.next ⟨hG.of_idle (by rw [Backups.set_backup]; exact hgc) _, .right rfl (backupsStep_set 1 w 0 hstep)⟩
  rw [hgc] at h₂
  exact ⟨t₁, ⟨h₂, by rw [Backups.set_backup]⟩, ht₁⟩

/-- **A whole call** of a client. -/
theorem Idle.call (h : Idle c G ((s, t), w)) (id : UInt64) (ht : t.clients id = ⟨k, none⟩)
    (hp : CanAppend c s.primary (entry id k)) (hb : CanAppend (asBackup c) (w.backup 0).server (entry id k)) :
    ∃ t', Idle c G (({ s with primary := append c s.primary (entry id k) }, t'),
        w.set 0 ⟨append (asBackup c) (w.backup 0).server (entry id k), .idle⟩) ∧
      t'.clients = Function.update t.clients id ⟨k + 1, none⟩ := by
  obtain ⟨t₁, h₁, ht₁⟩ := h.call_primary hG id ht hp
  obtain ⟨t₂, h₂, ht₂⟩ := h₁.arrive hG id (by rw [ht₁, Function.update_self]) rfl hb
  rw [ht₁, Function.update_idem] at ht₂
  -- both servers answer
  obtain ⟨t₃, hs₃, ht₃, -⟩ := reply_step 1 .primary (s := t₂) (by rw [ht₂, Function.update_self]) rfl
  have h₃ := h₂.left hG (.right (by rintro e ⟨⟩) hs₃) rfl
  rw [ht₂, Function.update_idem] at ht₃
  obtain ⟨t₄, hs₄, ht₄, -⟩ := reply_step 1 (.backup 0) (s := t₃) (by rw [ht₃, Function.update_self]) rfl
  rw [ht₃, Function.update_idem] at ht₄
  have hslot : (⟨stamp (asBackup c) (w.backup 0).server.log.indexer (entry id k), (w.backup 0).server.log.sequencer,
      (w.backup 0).server.log.indexer, .returned⟩ : Slot) ∈
        ((w.set 0 ⟨append (asBackup c) (w.backup 0).server (entry id k), .idle⟩).backup 0).server.slots := by
    rw [Backups.set_backup]
    exact List.mem_append_right _ (List.mem_singleton.mpr rfl)
  have h₄ := h₃.1.next ⟨hG.of_idle h₃.2 _, .both rfl (.right (by rintro e ⟨⟩) hs₄) (.reply 0 hslot rfl)⟩
  obtain ⟨t₅, hs₅, ht₅, -⟩ := ret_step (s := t₄) (by rw [ht₄, Function.update_self]) (n := 1) (by
    rintro (_ | b) hv
    · rfl
    · obtain rfl : b = 0 := Nat.lt_one_iff.mp hv
      rfl)
  rw [ht₄, Function.update_idem] at ht₅
  exact ⟨t₅, Idle.left hG ⟨h₄, h₃.2⟩ (.right (by rintro e ⟨⟩) hs₅) rfl, ht₅⟩

end Idle

/-! ### Ordering -/

theorem exists_inv (h : (service c G).Reachable ((s, t), w)) : ∃ g st, FetchAndStore.Inv c s g st := by
  have hs : (FetchAndStore.lts c 0).Reachable s := h.of_guard.fst.fst
  obtain ⟨x, -, g, st, hinv, -⟩ := (FetchAndStore.simulation c 0).reachable hs
  exact ⟨g, st, hinv⟩

theorem Idle.canAppend (h : Idle c G ((s, t), w)) (hseq : s.primary.log.sequencer ≤ 2 ^ 16) (id : UInt64) (k : ℕ) :
    CanAppend c s.primary (entry id k) := by
  obtain ⟨g, st, hinv⟩ := exists_inv h.1
  exact canAppend_entry hinv.primary.contents hseq id k

theorem length_stored {g st : ℕ} (h : FetchAndStore.Inv c s g st) : (s.stored.flatMap List.dropLast).length = st := by
  have hle := h.stored.le_length (Nat.zero_le _)
  rw [h.stored.flatMap_dropLast, List.length_take, List.length_drop]
  omega

/-- The next batch: all that the primary has. -/
def nextBatch (s : FetchAndStore.Loop) : List LogEntry :=
  batch (recs s.primary) (s.stored.flatMap List.dropLast).length
    ((recs s.primary).length - (s.stored.flatMap List.dropLast).length)

/-- The backup is asked to collect the batch. -/
def Backups.requested (w : Backups) (es : List LogEntry) : Backups :=
  { backup := fun b =>
      if b < 1 then { w.backup b with gc := .requested (processFetchedEntries false es []).2 } else w.backup b
    entries := es }

/-- **All that the primary has is stored**, and the backup is asked to collect it. -/
theorem Idle.order (hG : AtRequests G) (h : Idle c G ((s, t), w)) (hpc : s.pc = .idle)
    (hlt : (s.stored.flatMap List.dropLast).length < (recs s.primary).length) : ∃ s' idx,
      (service c G).Reachable ((s', t), Backups.requested w (nextBatch s)) ∧ s'.pc = .deleting idx ∧
        s'.primary = s.primary ∧ s'.stored = s.stored ++ [nextBatch s] := by
  obtain ⟨g, st, hinv⟩ := exists_inv h.1
  have hst := length_stored hinv
  have hg : g = st := by
    have hok := hinv.pcOk
    unfold FetchAndStore.PcOk at hok
    rwa [hpc] at hok
  unfold nextBatch
  rw [hst, ← hg] at hlt ⊢
  obtain ⟨mr, hb, hread, hdec, hne⟩ := hinv.primary.fetch_all (Nat.le_refl g) hlt
    (show max s.primary.log.orderedWatermk 0 = _ by rw [hinv.primary.mark, Nat.max_zero]) s.mr
  have h₁ := h.left hG (.left rfl (.range hpc)) rfl
  have h₂ := h₁.left hG (.left rfl (.read rfl hb hread)) rfl
  have h₃ := h₂.1.next ⟨hG.of_idle h₂.2 _, .both rfl (.left rfl (.appendBatch rfl hdec hne)) (.appendBatch _)⟩
  have hgo : ∀ w', G { w with entries := batch (recs s.primary) g ((recs s.primary).length - g) } w' :=
    hG.of_idle h.2
  have h₄ := h₃.next ⟨hgo _, .both rfl (.left rfl (.delete rfl)) .deleteOrderedEntries⟩
  exact ⟨_, _, h₄, rfl, rfl, rfl⟩

/-- **A collection runs to its end.** -/
theorem reachable_collect {v : Backup} {ids : List ReqID} {l : FlatLog} {m : ℕ}
    (h : (service c G).Reachable (y, w)) (hw : w.backup 0 = v) (hgc : v.gc = .requested ids)
    (hcall : delEntriesBackup (asBackup c) ids v.server.log = some (l, m))
    (hgo : ∀ v₁ v₂, v₁.server.slots = v.server.slots → G (w.set 0 v₁) (w.set 0 v₂)) :
    ∃ nDel, (service c G).Reachable (y, w.set 0 ⟨⟨l, v.server.slots⟩, .replied nDel⟩) := by
  obtain ⟨nDel, -, hrun⟩ := delEntriesBackup_steps v.server.slots hcall
  rw [← hgc] at hrun
  exact ⟨nDel, reachable_of_run h hw hrun fun v₁ v₂ hstep =>
    ⟨.inr .tau, hgo v₁ v₂ hstep.2, .right rfl (backupsStep_set 1 w 0 hstep.1)⟩⟩

/-- **The round ends** when the backup has replied. -/
theorem reachable_close (hG : AtRequests G) {idx : UInt64} {nDel : ℕ} (h : (service c G).Reachable ((s, t), w))
    (hpc : s.pc = .deleting idx) (hgc : (w.backup 0).gc = .replied nDel) : ∃ s' w', Idle c G ((s', t), w') ∧
      s'.pc = .idle ∧ s'.stored = s.stored ∧ recs s'.primary = recs s.primary ∧
        s'.primary.log.sequencer = s.primary.log.sequencer ∧ (w'.backup 0).server = (w.backup 0).server := by
  have hgo : ∀ w', G w w' := by
    refine fun w' => hG w w' fun ids hreq => ?_
    rw [hgc] at hreq
    cases hreq
  have h₁ := h.next ⟨hgo w, .left rfl (.left rfl (.land hpc))⟩
  have hr : ∀ b < 1, ∃ nDel, (w.backup b).gc = .replied nDel := by
    intro b hb
    obtain rfl : b = 0 := by omega
    exact ⟨nDel, hgc⟩
  have h₂ := h₁.next ⟨hgo _, .both rfl (.left rfl (.update rfl)) (.allDeletionCompleted hr)⟩
  have h₃ := Idle.left hG ⟨h₂, rfl⟩ (.left rfl (.done rfl)) rfl
  exact ⟨_, _, h₃, rfl, rfl, recs_landDelete c s.mr s.primary, landDelete_sequencer c s.mr s.primary, rfl⟩

end LazyLog.Service.Runs
