import LazyLog.ConsLog.Drain
import LazyLog.DurLog.Rest
import LazyLog.Service.Stall

/-! # Every call can return

A call of a client waits for the primary and for every backup. On the primary there may be no room for its entry:
then the consensus log has to order what is there, and for this it waits for the collections of the backups; a
collection waits for an entry, if the backup has none, and the answer of a backup waits for `lk_`. None of these waits
is for good as long as no entry is larger than the bound of a fetch: if the backups have room for the entry, the
servers can go on, whatever they are doing, until the call returns. No other client has to do anything for it. A call
of `AppendEntry` is one step, and a request is not held up behind one that waits for room on the same thread. -/

namespace LazyLog.Service.Returns

open Relation (ReflTransGen)
open LazyLog.Lib.Transition LazyLog.Rpc.Entry
open LazyLog.DurLog LazyLog.DurLog.Flat LazyLog.DurLog.Ring LazyLog.DurLog.FlatCli
open LazyLog.DurLog.DelEntries LazyLog.DurLog.Rest
open LazyLog.ConsLog LazyLog.ConsLog.Link
open LazyLog.ConsLog.Progress (Fits OwnStep Drains)
open LazyLog.ConsLog.Spec (SharedLog)
open LazyLog.Client LazyLog.Client.LazyLogCli
open LazyLog.Service.Appends (withClients ids clients_of_reachable)
open LazyLog.Service.Collection LazyLog.Service.Stall

variable {σ : Type} {A : Lts Label σ} {R : σ → SharedLog → Prop} {prim : σ → State} {c : Config}
  {maxFetchSize n : ℕ} {id : UInt64} {call : Call} {s s' : σ} {t t' : Clients} {w w' : Backups} {x x' : SharedLog}

/-- A step of the servers, or of a message of the call of this client: the other clients do nothing, and no call is
made. -/
def ForCall (A : Lts Label σ) (c : Config) (n : ℕ) (id : UInt64) (y y' : (σ × Clients) × Backups) : Prop :=
  ∃ a, (withBackups A c n).step a y y' ∧ (∀ i ≠ id, y'.1.2.clients i = y.1.2.clients i) ∧
    (y'.1.2.hist = y.1.2.hist ∨ ∃ e, y'.1.2.hist = y.1.2.hist ++ [.returned e])

/-- The call returns after finitely many of them. -/
def CanReturn (A : Lts Label σ) (c : Config) (n : ℕ) (id : UInt64) (call : Call) (y : (σ × Clients) × Backups) :
    Prop :=
  ∃ y', ReflTransGen (ForCall A c n id) y y' ∧ y'.1.2.hist = y.1.2.hist ++ [.returned call.entry]

/-- Nothing is in the way of the call for good: what the primary `p` has fits the bound of a fetch, and the backups
that do not have the entry yet have room for it. -/
structure Clear (c : Config) (maxFetchSize n : ℕ) (p : State) (w : Backups) (call : Call) : Prop where
  fits : ∀ e ∈ recs p, Fits maxFetchSize e
  seq_lt : p.log.sequencer + getSize call.entry < 2 ^ 64
  room : ∀ b < n, call.requests (.backup b) = .sent →
    CanAppend (asBackup c) (w.backup b).server { call.entry with flags := 0 }

theorem reachable_of_run {y y' : (σ × Clients) × Backups} (h : (withBackups A c n).Reachable y)
    (hrun : ReflTransGen (ForCall A c n id) y y') : (withBackups A c n).Reachable y' := by
  induction hrun with
  | refl => exact h
  | tail _ hs ih =>
    obtain ⟨a, hs, -⟩ := hs
    exact ih.next hs

theorem exists_spec (hsim : Simulation A Spec.lts R) (h : (withBackups A c n).Reachable ((s, t), w)) :
    ∃ x, R s x ∧ (withBackups Spec.lts c n).Reachable ((x, t), w) := by
  have hall := (hsim.sync (LazyLogCli.lts n) Appends.link fun b => ∀ e, b ≠ .append .primary e).sync
    (backupsLts c n) link (· = .tau)
  obtain ⟨⟨⟨x, t'⟩, w'⟩, hx, ⟨hR, rfl⟩, rfl⟩ := hall.reachable h
  exact ⟨x, hR, hx⟩

/-! ### The backups -/

/-- A step of a collection does not end it for the consensus log. -/
theorem ne_idle_of_step {v v' : Backup} (h : v.gc ≠ .idle) (hs : DelEntries.Step c v v') : v'.gc ≠ .idle := by
  cases hs with
  | insertReqid ht hst hlk => exact h
  | note | pending | round | finish => rintro ⟨⟩

theorem ne_idle_of_reachable (h : (withBackups Spec.lts c n).Reachable ((x, t), w)) (hp : x.phase = .marking) :
    ∀ b < n, (w.backup b).gc ≠ .idle := by
  refine h.invariant (P := fun y => y.1.1.phase = .marking → ∀ b < n, (y.2.backup b).gc ≠ .idle) ?_ ?_ hp
  · rintro ⟨⟨x, t⟩, w⟩ ⟨⟨hx, -⟩, -⟩ hp
    obtain rfl : x = _ := hx
    cases hp
  · rintro l ⟨⟨x, t⟩, w⟩ ⟨⟨x', t'⟩, w'⟩ - ih hs hp b' hb'
    cases ServiceStep.of_step hs with
    | other hst hph ht => exact ih (hph ▸ hp) b' hb'
    | appendBatch | allDeletionCompleted | updateGlobalIdxDone => cases hp
    | deleteOrderedEntries hph =>
      simp only [if_pos hb']
      rintro ⟨⟩
    | append b e he ht hne =>
      rcases eq_or_ne b' b with rfl | hbb
      · rw [Backups.set_backup]
        exact ih hp b' hb'
      · rw [set_backup_of_ne w hbb]
        exact ih hp b' hb'
    | step b hstep =>
      rcases eq_or_ne b' b with rfl | hbb
      · rw [Backups.set_backup]
        exact ne_idle_of_step (ih hp b' hb') hstep
      · rw [set_backup_of_ne w hbb]
        exact ih hp b' hb'

theorem run_of_backup {b : ℕ} {v v' : Backup} (hv : w.backup b = v)
    (hrun : ReflTransGen (DelEntries.Step (asBackup c)) v v') :
    ReflTransGen (ForCall A c n id) ((s, t), w) ((s, t), w.set b v') := by
  induction hrun with
  | refl =>
    have heq : w.set b v = w := by
      unfold Backups.set
      rw [← hv, Function.update_eq_self]
    rw [heq]
  | tail _ hs ih => exact ih.tail ⟨.inr .tau, .right rfl (backupsStep_set n w b hs), fun _ _ => rfl, Or.inl rfl⟩

theorem entries_of_run {v v' : Backup} (hrun : ReflTransGen (DelEntries.Step c) v v') :
    v'.server.entries = v.server.entries := by
  induction hrun with
  | refl => rfl
  | tail _ hs ih => rw [Pending.step_entries hs, ih]

/-- Every backup has appended something. -/
def Filled (n : ℕ) (w : Backups) : Prop := ∀ b < n, (w.backup b).server.entries ≠ []

theorem slots_ne_nil {v : Backup} (h : v.server.entries ≠ []) : v.server.slots ≠ [] := by
  intro hnil
  refine h ?_
  unfold State.entries
  rw [hnil]
  rfl

/-- **The backups come to rest**, one after the other. -/
theorem exists_rest_below (id : UInt64) (hsim : Simulation A Spec.lts R)
    (h : (withBackups A c n).Reachable ((s, t), w)) (hfill : Filled n w) :
    ∀ m ≤ n, ∃ w', ReflTransGen (ForCall A c n id) ((s, t), w) ((s, t), w') ∧ Filled n w' ∧
      ∀ b < m, AtRest (w'.backup b)
  | 0, _ => ⟨w, .refl, hfill, fun b hb => absurd hb (Nat.not_lt_zero b)⟩
  | m + 1, hm => by
    obtain ⟨w₁, hrun₁, hfill₁, hrest₁⟩ := exists_rest_below id hsim h hfill m (by omega)
    obtain ⟨x, -, hx⟩ := exists_spec hsim (reachable_of_run h hrun₁)
    obtain ⟨v, hrun, hrest⟩ := exists_rest ((sound_of_reachable hx).server m hm).inv
      fun _ => slots_ne_nil (hfill₁ m hm)
    refine ⟨w₁.set m v, hrun₁.trans (run_of_backup rfl hrun), fun b hb => ?_, fun b hb => ?_⟩
    · rcases eq_or_ne b m with rfl | hne
      · rw [Backups.set_backup, entries_of_run hrun]
        exact hfill₁ b hb
      · rw [set_backup_of_ne w₁ hne]
        exact hfill₁ b hb
    · rcases eq_or_ne b m with rfl | hne
      · rw [Backups.set_backup]
        exact hrest
      · rw [set_backup_of_ne w₁ hne]
        exact hrest₁ b (by omega)

/-! ### The consensus log -/

theorem forCall_left {a : Label} (hs : A.step a s s') (ha : ∀ e, a ≠ .append e) (hl : link (.inl a) = none) :
    ForCall A c n id ((s, t), w) ((s', t), w) := by
  refine ⟨.inl (.inl a), .left hl (.left ?_ hs), fun _ _ => rfl, Or.inl rfl⟩
  cases a with
  | append e => exact absurd rfl (ha e)
  | _ => rfl

theorem forCall_both {a : Label} {l : BackupAct} (hs : A.step a s s') (ha : ∀ e, a ≠ .append e)
    (hl : link (.inl a) = some l) (hw : BackupsStep c n l w w') :
    ForCall A c n id ((s, t), w) ((s', t), w') := by
  refine ⟨.inl (.inl a), .both hl (.left ?_ hs) hw, fun _ _ => rfl, Or.inl rfl⟩
  cases a with
  | append e => exact absurd rfl (ha e)
  | _ => rfl

/-- **A step of the consensus log can be taken**, after steps of the backups for it to return from its wait. -/
theorem exists_run_of_own (id : UInt64) (hsim : Simulation A Spec.lts R)
    (h : (withBackups A c n).Reachable ((s, t), w)) (hfill : Filled n w) (hs : OwnStep A s s') :
    ∃ w', ReflTransGen (ForCall A c n id) ((s, t), w) ((s', t), w') ∧ Filled n w' := by
  obtain ⟨a, hs, ha⟩ := hs
  cases a with
  | append e => exact absurd rfl (ha e)
  | tau => exact ⟨w, .single (forCall_left hs ha rfl), hfill⟩
  | updateGlobalIdxDone => exact ⟨w, .single (forCall_left hs ha rfl), hfill⟩
  | appendBatch es => exact ⟨_, .single (forCall_both hs ha rfl (.appendBatch es)), hfill⟩
  | appendBatchDone =>
    refine ⟨_, .single (forCall_both hs ha rfl .deleteOrderedEntries), fun b hb => ?_⟩
    simp only [if_pos hb]
    exact hfill b hb
  | updateGlobalIdx idx =>
    obtain ⟨w₁, hrun, hfill₁, hrest⟩ := exists_rest_below id hsim h hfill n (Nat.le_refl n)
    obtain ⟨x, hR, hx⟩ := exists_spec hsim (reachable_of_run h hrun)
    obtain ⟨x', hs', -⟩ := hsim.step hR hs
    have hp : x.phase = .marking := by
      cases hs' with
      | updateGlobalIdx hp ho hidx => exact hp
    have hall : ∀ b < n, ∃ nDel, (w₁.backup b).gc = .replied nDel := by
      intro b hb
      have hidle := ne_idle_of_reachable hx hp b hb
      have hdone := (hrest b hb).replied
      cases hgc : (w₁.backup b).gc with
      | idle => exact absurd hgc hidle
      | requested | noted | scanning =>
        rw [hgc] at hdone
        exact absurd trivial hdone
      | replied nDel => exact ⟨nDel, rfl⟩
    refine ⟨_, hrun.tail (forCall_both hs ha rfl (.allDeletionCompleted hall)), fun b hb => ?_⟩
    simp only [if_pos hb]
    exact hfill₁ b hb

theorem exists_run_of_owns (id : UInt64) (hsim : Simulation A Spec.lts R)
    (h : (withBackups A c n).Reachable ((s, t), w)) (hfill : Filled n w) (hs : ReflTransGen (OwnStep A) s s') :
    ∃ w', ReflTransGen (ForCall A c n id) ((s, t), w) ((s', t), w') ∧ Filled n w' := by
  induction hs with
  | refl => exact ⟨w, .refl, hfill⟩
  | tail _ hs ih =>
    obtain ⟨w₁, hrun₁, hfill₁⟩ := ih
    obtain ⟨w₂, hrun₂, hfill₂⟩ := exists_run_of_own id hsim (reachable_of_run h hrun₁) hfill₁ hs
    exact ⟨w₂, hrun₁.trans hrun₂, hfill₂⟩

/-! ### The messages of a call -/

/-- The call of the client is for the entry `e`, and everything else of the clients is as it was. -/
structure At (id : UInt64) (e : LogEntry) (requests : DlServer → Request) (t t' : Clients) : Prop where
  call : ∃ k : Call, (t'.clients id).call = some k ∧ k.entry = e ∧ k.requests = requests
  others : ∀ i ≠ id, t'.clients i = t.clients i
  hist : t'.hist = t.hist

theorem at_self (h : (t.clients id).call = some call) : At id call.entry call.requests t t :=
  ⟨⟨call, h, rfl, rfl⟩, fun _ _ => rfl, rfl⟩

theorem At.trans {e : LogEntry} {rq rq' : DlServer → Request} {t'' : Clients} (h : At id e rq t t')
    (h' : At id e rq' t' t'') : At id e rq' t t'' :=
  ⟨h'.call, fun i hi => (h'.others i hi).trans (h.others i hi), h'.hist.trans h.hist⟩

theorem exists_append {srv : DlServer} (hc : (t.clients id).call = some call) (ht : LazyLogCli.Inv n t)
    (hv : srv.Valid n) (hr : call.requests srv = .sent) : ∃ t',
      LazyLogCli.Step n (.append srv { call.entry with flags := 0 }) t t' ∧
        At id call.entry (Function.update call.requests srv .appended) t t' := by
  obtain ⟨-, -, -, hsized, hflags⟩ := ht.call hc
  refine ⟨_, step_append id srv hc hv hr hsized hflags,
    ⟨{ call with requests := Function.update call.requests srv .appended }, ?_, rfl, rfl⟩, ?_, rfl⟩
  · simp only [Function.update_self]
  · exact fun i hi => Function.update_of_ne hi _ _

theorem exists_reply {srv : DlServer} (hc : (t.clients id).call = some call) (hr : call.requests srv = .appended) :
    ∃ t', LazyLogCli.Step n (.reply srv call.entry.reqId) t t' ∧
      At id call.entry (Function.update call.requests srv .complete) t t' := by
  refine ⟨_, .reply id srv hc hr,
    ⟨{ call with requests := Function.update call.requests srv .complete }, ?_, rfl, rfl⟩, ?_, rfl⟩
  · simp only [Function.update_self]
  · exact fun i hi => Function.update_of_ne hi _ _

/-- The entry of a call fits a request. -/
theorem admissible_of_reachable (h : (LazyLogCli.lts n).Reachable t) (hc : (t.clients id).call = some call) :
    Admissible call.entry := by
  refine h.invariant (P := fun t => ∀ id call, (t.clients id).call = some call → Admissible call.entry) ?_ ?_ id
    call hc
  · rintro t rfl id call ⟨⟩
  · rintro a t t' - ih hs id' call' hc'
    -- only the client that takes the step can have another call than before
    have hupdate : ∀ {id : UInt64} {k : LazyLogClient}, (∀ call, k.call = some call → Admissible call.entry) →
        (Function.update t.clients id k id').call = some call' → Admissible call'.entry := by
      intro id k hk hc'
      rcases eq_or_ne id' id with rfl | hne
      · rw [Function.update_self] at hc'
        exact hk call' hc'
      · rw [Function.update_of_ne hne] at hc'
        exact ih id' call' hc'
    cases hs with
    | invoke id mode data hno hadm =>
      refine hupdate (fun call hcall => ?_) hc'
      cases hcall
      exact hadm
    | append id srv buf hc hv hr | reply id srv hc hr =>
      refine hupdate (fun call hcall => ?_) hc'
      cases hcall
      have hold := ih id _ hc
      exact hold
    | ret id hc hr =>
      refine hupdate (fun call hcall => ?_) hc'
      cases hcall

/-! ### The requests and the answers -/

theorem exists_known (hsim : Simulation A Spec.lts R) (h : (withBackups A c n).Reachable ((s, t), w)) :
    LazyLogCli.Inv n t ∧ ∀ b < n, Pending.Server c (t.order (.backup b)) (w.backup b) := by
  obtain ⟨x, -, hx⟩ := exists_spec hsim h
  exact ⟨clients_of_reachable hx.fst, (sound_of_reachable hx).server⟩

theorem mem_ids_of_arrived (hsim : Simulation A Spec.lts R) (h : (withBackups A c n).Reachable ((s, t), w))
    (hc : (t.clients id).call = some call) {b : ℕ} (hb : b < n) (hr : call.requests (.backup b) ≠ .sent) :
    call.entry.reqId ∈ ids (w.backup b).server.entries := by
  obtain ⟨ht, hsrv⟩ := exists_known hsim h
  rw [(hsrv b hb).order]
  exact List.mem_map.mpr ⟨_, ht.arrived hc (show DlServer.Valid n (.backup b) from hb) hr, rfl⟩

/-- **The request arrives at the backups**, one after the other. -/
theorem exists_arrived (hsim : Simulation A Spec.lts R) (h : (withBackups A c n).Reachable ((s, t), w))
    (hc : (t.clients id).call = some call)
    (hroom : ∀ b < n, call.requests (.backup b) = .sent →
      CanAppend (asBackup c) (w.backup b).server { call.entry with flags := 0 }) :
    ∀ m ≤ n, ∃ t' w' rq, ReflTransGen (ForCall A c n id) ((s, t), w) ((s, t'), w') ∧ At id call.entry rq t t' ∧
      rq .primary = call.requests .primary ∧ (∀ b < m, rq (.backup b) ≠ .sent) ∧
      ∀ b, m ≤ b → rq (.backup b) = call.requests (.backup b) ∧ w'.backup b = w.backup b
  | 0, _ => ⟨t, w, call.requests, .refl, at_self hc, rfl, fun b hb => absurd hb (Nat.not_lt_zero b),
      fun _ _ => ⟨rfl, rfl⟩⟩
  | m + 1, hm => by
    obtain ⟨t₁, w₁, rq, hrun, hat, hprim, hbelow, habove⟩ := exists_arrived hsim h hc hroom m (by omega)
    obtain ⟨hrq, hw⟩ := habove m (Nat.le_refl m)
    by_cases hr : rq (.backup m) = .sent
    · obtain ⟨k, hk, hke, rfl⟩ := hat.call
      have hcan := hroom m hm (hrq ▸ hr)
      rw [← hw, ← hke] at hcan
      obtain ⟨ht₁, -⟩ := exists_known hsim (reachable_of_run h hrun)
      obtain ⟨t₂, hs, hat₂⟩ := exists_append hk ht₁ (show DlServer.Valid n (.backup m) from hm) hr
      have hstep : ForCall A c n id ((s, t₁), w₁) ((s, t₂), _) :=
        ⟨.inl (.inr _), .both rfl (.right (by rintro e ⟨⟩) hs) (.append m _ hcan), hat₂.others, Or.inl hat₂.hist⟩
      rw [hke] at hat₂
      refine ⟨t₂, _, _, hrun.tail hstep, hat.trans hat₂, ?_, fun b hb => ?_, fun b hb => ⟨?_, ?_⟩⟩
      · rw [Function.update_of_ne (by rintro ⟨⟩)]
        exact hprim
      · rcases eq_or_ne b m with rfl | hne
        · rw [Function.update_self]
          rintro ⟨⟩
        · rw [Function.update_of_ne (by rintro ⟨⟩; exact hne rfl)]
          exact hbelow b (by omega)
      · rw [Function.update_of_ne (by rintro ⟨⟩; omega)]
        exact (habove b (by omega)).1
      · rw [set_backup_of_ne w₁ (show b ≠ m by omega)]
        exact (habove b (by omega)).2
    · refine ⟨t₁, w₁, rq, hrun, hat, hprim, fun b hb => ?_, fun b hb => habove b (by omega)⟩
      rcases eq_or_ne b m with rfl | hne
      · exact hr
      · exact hbelow b (by omega)

/-- **The backups answer**, one after the other. -/
theorem exists_answered (hsim : Simulation A Spec.lts R) (h : (withBackups A c n).Reachable ((s, t), w))
    (hc : (t.clients id).call = some call) (hrest : ∀ b < n, AtRest (w.backup b))
    (hsent : ∀ b < n, call.requests (.backup b) ≠ .sent) :
    ∀ m ≤ n, ∃ t' rq, ReflTransGen (ForCall A c n id) ((s, t), w) ((s, t'), w) ∧ At id call.entry rq t t' ∧
      rq .primary = call.requests .primary ∧ (∀ b < m, rq (.backup b) = .complete) ∧
      ∀ b, m ≤ b → rq (.backup b) = call.requests (.backup b)
  | 0, _ => ⟨t, call.requests, .refl, at_self hc, rfl, fun b hb => absurd hb (Nat.not_lt_zero b), fun _ _ => rfl⟩
  | m + 1, hm => by
    obtain ⟨t₁, rq, hrun, hat, hprim, hbelow, habove⟩ := exists_answered hsim h hc hrest hsent m (by omega)
    have hrq := habove m (Nat.le_refl m)
    obtain ⟨k, hk, hke, rfl⟩ := hat.call
    by_cases hr : k.requests (.backup m) = .complete
    · refine ⟨t₁, k.requests, hrun, hat, hprim, fun b hb => ?_, fun b hb => habove b (by omega)⟩
      rcases eq_or_ne b m with rfl | hne
      · exact hr
      · exact hbelow b (by omega)
    · have hns : k.requests (.backup m) ≠ .sent := hrq ▸ hsent m hm
      have happ : k.requests (.backup m) = .appended := by
        cases hst : k.requests (.backup m) with
        | sent => exact absurd hst hns
        | appended => rfl
        | complete => exact absurd hst hr
      obtain ⟨t₂, hs, hat₂⟩ := exists_reply (n := n) hk happ
      -- the call of `AppendEntry` for the entry has returned
      obtain ⟨e, he, hid⟩ := List.mem_map.mp (mem_ids_of_arrived hsim (reachable_of_run h hrun) hk hm hns)
      obtain ⟨u, hu, rfl⟩ := List.mem_map.mp he
      have hreply : BackupsStep c n (.reply m k.entry.reqId) w w := hid ▸ .reply m hu ((hrest m hm).returned u hu)
      have hstep : ForCall A c n id ((s, t₁), w) ((s, t₂), w) :=
        ⟨.inl (.inr _), .both rfl (.right (by rintro e ⟨⟩) hs) hreply, hat₂.others, Or.inl hat₂.hist⟩
      rw [hke] at hat₂
      refine ⟨t₂, _, hrun.tail hstep, hat.trans hat₂, ?_, fun b hb => ?_, fun b hb => ?_⟩
      · rw [Function.update_of_ne (by rintro ⟨⟩)]
        exact hprim
      · rcases eq_or_ne b m with rfl | hne
        · rw [Function.update_self]
        · rw [Function.update_of_ne (by rintro ⟨⟩; exact hne rfl)]
          exact hbelow b (by omega)
      · rw [Function.update_of_ne (by rintro ⟨⟩; omega)]
        exact habove b (by omega)

theorem exists_primary (hsim : Simulation A Spec.lts R) (h : (withBackups A c n).Reachable ((s, t), w))
    (hc : (t.clients id).call = some call)
    (happ : ∃ s', A.step (.append { call.entry with flags := 0 }) s s') : ∃ s' t' rq,
      ReflTransGen (ForCall A c n id) ((s, t), w) ((s', t'), w) ∧ At id call.entry rq t t' ∧
        rq .primary ≠ .sent ∧ ∀ b, rq (.backup b) = call.requests (.backup b) := by
  by_cases hr : call.requests .primary = .sent
  · obtain ⟨s', hA⟩ := happ
    obtain ⟨ht, -⟩ := exists_known hsim h
    obtain ⟨t', hs, hat⟩ := exists_append hc ht (show DlServer.Valid n .primary from trivial) hr
    have hstep : ForCall A c n id ((s, t), w) ((s', t'), w) :=
      ⟨.inl (.inl _), .left rfl (.both rfl hA hs), hat.others, Or.inl hat.hist⟩
    refine ⟨s', t', _, .single hstep, hat, ?_, fun b => Function.update_of_ne (by rintro ⟨⟩) _ _⟩
    rw [Function.update_self]
    rintro ⟨⟩
  · exact ⟨s, t, call.requests, .refl, at_self hc, hr, fun _ => rfl⟩

theorem exists_returned (hc : (t.clients id).call = some call) (hp : call.requests .primary ≠ .sent)
    (hb : ∀ b < n, call.requests (.backup b) = .complete) : ∃ t',
      ReflTransGen (ForCall A c n id) ((s, t), w) ((s, t'), w) ∧ t'.hist = t.hist ++ [.returned call.entry] := by
  -- the answer of the primary
  obtain ⟨t₁, rq, hrun, hat, hall⟩ : ∃ t₁ rq, ReflTransGen (ForCall A c n id) ((s, t), w) ((s, t₁), w) ∧
      At id call.entry rq t t₁ ∧ ∀ srv : DlServer, srv.Valid n → rq srv = .complete := by
    cases hst : call.requests .primary with
    | sent => exact absurd hst hp
    | appended =>
      obtain ⟨t₁, hs, hat⟩ := exists_reply (n := n) hc hst
      refine ⟨t₁, _, .single ⟨.inl (.inr _), .left rfl (.right (by rintro e ⟨⟩) hs), hat.others, Or.inl hat.hist⟩,
        hat, ?_⟩
      rintro (_ | b) hv
      · rw [Function.update_self]
      · rw [Function.update_of_ne (by rintro ⟨⟩)]
        exact hb b hv
    | complete =>
      refine ⟨t, call.requests, .refl, at_self hc, ?_⟩
      rintro (_ | b) hv
      · exact hst
      · exact hb b hv
  obtain ⟨k, hk, hke, rfl⟩ := hat.call
  have hstep := LazyLogCli.Step.ret (n := n) id hk (Call.returns_of_complete hall)
  refine ⟨_, hrun.tail ⟨.inl (.inr .tau), .left rfl (.right (by rintro e ⟨⟩) hstep), fun i hi => ?_, ?_⟩, ?_⟩
  · exact Function.update_of_ne hi _ _
  · exact Or.inr ⟨_, rfl⟩
  · simp only [hat.hist, hke]

/-! ### The whole call -/

theorem canReturn_of_drains (hd : Drains c maxFetchSize A prim R)
    (happ : ∀ s e, CanAppend c (prim s) e → ∃ s', A.step (.append e) s s')
    (h : (withBackups A c n).Reachable ((s, t), w)) (hc : (t.clients id).call = some call)
    (hclear : Clear c maxFetchSize n (prim s) w call) : CanReturn A c n id call ((s, t), w) := by
  have hsim := hd.simulation
  have hs : A.Reachable s := h.fst.fst
  -- the backups get the entry, so that none of them is empty
  obtain ⟨t₁, w₁, rq₁, hrun₁, hat₁, -, hsent₁, -⟩ := exists_arrived hsim h hc hclear.room n (Nat.le_refl n)
  have h₁ := reachable_of_run h hrun₁
  obtain ⟨k₁, hk₁, hke₁, rfl⟩ := hat₁.call
  have hfill : Filled n w₁ := by
    intro b hb hnil
    have hmem := mem_ids_of_arrived hsim h₁ hk₁ hb (hsent₁ b hb)
    rw [hnil] at hmem
    cases hmem
  -- the consensus log orders everything, and the backups come to rest
  obtain ⟨s₂, hown, hdone⟩ := hd.drains hs hclear.fits
  obtain ⟨w₂, hrun₂, hfill₂⟩ := exists_run_of_owns id hsim h₁ hfill hown
  have h₂ := reachable_of_run h₁ hrun₂
  obtain ⟨w₃, hrun₃, -, hrest⟩ := exists_rest_below id hsim h₂ hfill₂ n (Nat.le_refl n)
  have h₃ := reachable_of_run h₂ hrun₃
  -- the primary has room
  have hcan : CanAppend c (prim s₂) { k₁.entry with flags := 0 } := by
    obtain ⟨x, hx, hR⟩ := hd.exists_spec (Progress.reachable_of_own hs hown)
    obtain ⟨x₀, -, hR₀⟩ := hd.exists_spec hs
    obtain ⟨hphase, hall⟩ := hdone x hR
    have hadm : Admissible k₁.entry := admissible_of_reachable h₁.fst.snd hk₁
    refine (hd.primary hR).canAppend_of_ordered ?_ ⟨hadm.sized, hadm.fits⟩ rfl ?_
    · rw [(hd.primary hR).idxMark, hx.ordered_eq (Or.inl hphase), hall, hd.log_eq hR]
    · have hlt := hclear.seq_lt
      rw [(hd.primary hR₀).total, ← hd.recs_eq hs hown, ← (hd.primary hR).total, ← hke₁] at hlt
      exact hlt
  obtain ⟨s₄, t₄, rq₄, hrun₄, hat₄, hp₄, hb₄⟩ := exists_primary hsim h₃ hk₁ (happ s₂ _ hcan)
  have h₄ := reachable_of_run h₃ hrun₄
  obtain ⟨k₄, hk₄, hke₄, rfl⟩ := hat₄.call
  obtain ⟨t₅, rq₅, hrun₅, hat₅, hp₅, hb₅, -⟩ := exists_answered hsim h₄ hk₄ hrest
    (fun b hb => (hb₄ b).symm ▸ hsent₁ b hb) n (Nat.le_refl n)
  obtain ⟨k₅, hk₅, hke₅, rfl⟩ := hat₅.call
  obtain ⟨t₆, hrun₆, hhist⟩ := exists_returned (A := A) (s := s₄) (w := w₃) hk₅ (hp₅.symm ▸ hp₄) hb₅
  refine ⟨((s₄, t₆), w₃), ((((hrun₁.trans hrun₂).trans hrun₃).trans hrun₄).trans hrun₅).trans hrun₆, ?_⟩
  simp only [hhist, hat₅.hist, hat₄.hist, hat₁.hist, hke₅, hke₄, hke₁]

/-- **Every call can return**, in both modes of the consensus log, whatever the servers and the other clients are
doing: if what the primary has fits the bound of a fetch and the backups without the entry have room for it, then the
servers can go on, with the messages of this call only, until it returns. -/
theorem every_call_can_return (c : Config) (maxFetchSize n : ℕ) :
    (∀ y, (withBackups (FetchAndStore.lts c maxFetchSize) c n).Reachable y →
      ∀ id call, (y.1.2.clients id).call = some call → Clear c maxFetchSize n y.1.1.primary y.2 call →
        CanReturn (FetchAndStore.lts c maxFetchSize) c n id call y) ∧
    ∀ y, (withBackups (Pipeline.lts c maxFetchSize) c n).Reachable y →
      ∀ id call, (y.1.2.clients id).call = some call → Clear c maxFetchSize n y.1.1.primary y.2 call →
        CanReturn (Pipeline.lts c maxFetchSize) c n id call y :=
  ⟨fun _ h _ _ hc hclear => canReturn_of_drains (Progress.drains c maxFetchSize) (fun _ e he => ⟨_, .append e he⟩) h
      hc hclear,
    fun _ h _ _ hc hclear => canReturn_of_drains (Drain.drains c maxFetchSize) (fun _ e he => ⟨_, .append e he⟩) h
      hc hclear⟩

/-- A client makes its first call, with one backup. -/
theorem every_call_can_return_first : ∃ y k,
    (withBackups (FetchAndStore.lts .smallPrimary 0) .smallPrimary 1).Reachable y ∧
      (y.1.2.clients 7).call = some k ∧ CanReturn (FetchAndStore.lts .smallPrimary 0) .smallPrimary 1 7 k y := by
  have hfresh : (⟨fun _ => ⟨0, none⟩, fun _ => [], []⟩ : Clients).clients 7 = ⟨0, none⟩ := rfl
  obtain ⟨t, hs, ht, -⟩ := invoke_step 1 hfresh (admissible_empty _ _)
  have h := (Runs.idle_start .smallPrimary fun _ _ => True).left (fun _ _ _ => trivial)
    (.right (by rintro e ⟨⟩) hs) rfl
  have hc : (t.clients 7).call = some ⟨.all, constructLogEntry 7 0 [], fun _ => .sent⟩ := by
    rw [ht, Function.update_self]
    rfl
  refine ⟨_, _, h.1.of_guard, hc, (every_call_can_return .smallPrimary 0 1).1 _ h.1.of_guard 7 _ hc ⟨?_, ?_, ?_⟩⟩
  · rintro e ⟨⟩
  · exact show 0 + getSize (constructLogEntry 7 0 []) < 2 ^ 64 by decide
  · exact fun _ _ _ => Collection.canAppend_zeroed _ 7 0

end LazyLog.Service.Returns
