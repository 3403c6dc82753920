import LazyLog.DurLog.DelEntries
import LazyLog.Service.Appends

/-! # Garbage collection in the service

The backups run next to the clients and the consensus log. A request of a client is appended by the backup it
is sent to and answered when `AppendEntry` has returned; on every server `AppendEntry` is one step, `waitForPlace`
included, and requests are taken in any order. When a batch is stored the consensus log sends every
backup the requests that `ProcessFetchedEntries` makes of it, and goes on when all of them have replied.

What a collection names is stored, and with an entry of a client all earlier ones of that client are. So the
only unordered entries that a collection can delete are the first entries of clients it does not name, for
which the number looked up is zero (`Safe`). -/

namespace LazyLog.Service.Collection

open LazyLog.Lib.Streams LazyLog.Lib.Tiling LazyLog.Lib.Transition LazyLog.Rpc.Entry LazyLog.Rpc.Multi
open LazyLog.DurLog LazyLog.DurLog.Flat LazyLog.DurLog.Ring LazyLog.DurLog.FlatCli LazyLog.DurLog.DelEntries
open LazyLog.ConsLog LazyLog.ConsLog.Batches LazyLog.ConsLog.Link
open LazyLog.ConsLog.Spec (SharedLog)
open LazyLog.Client LazyLog.Client.LazyLogCli
open LazyLog.Service.Appends (withClients ids content_of_reachable clients_of_reachable ids_eq_of_content)

/-! ### The backups -/

/-- The backups by their number, and the batch that is being stored. -/
structure Backups where
  backup : ℕ → Backup
  entries : List LogEntry

/-- Backup `b` changes. -/
def Backups.set (w : Backups) (b : ℕ) (v : Backup) : Backups :=
  { w with backup := Function.update w.backup b v }

/-- What the others see of a step. -/
inductive BackupAct
  | tau
  | append (b : ℕ) (e : LogEntry)
  | reply (b : ℕ) (rid : ReqID)
  | appendBatch (es : List LogEntry)
  | deleteOrderedEntries
  | allDeletionCompleted

/-- The configuration of the backups. -/
def asBackup (c : Config) : Config := { c with isPrimary := false }

/-- One step of `n` backups. -/
inductive BackupsStep (c : Config) (n : ℕ) : BackupAct → Backups → Backups → Prop
  | step {w : Backups} {v : Backup} (b : ℕ) (hs : DelEntries.Step (asBackup c) (w.backup b) v) :
    BackupsStep c n .tau w (w.set b v)
  | append {w : Backups} (b : ℕ) (e : LogEntry) (he : CanAppend (asBackup c) (w.backup b).server e) :
    BackupsStep c n (.append b e) w
      (w.set b { w.backup b with server := appendMem (asBackup c) (w.backup b).server e })
  | reply {w : Backups} {t : Slot} (b : ℕ) (ht : t ∈ (w.backup b).server.slots) (hs : t.stage = .returned) :
    BackupsStep c n (.reply b t.e.reqId) w w
  | appendBatch {w : Backups} (es : List LogEntry) :
    BackupsStep c n (.appendBatch es) w { w with entries := es }
  | deleteOrderedEntries {w : Backups} :
    BackupsStep c n .deleteOrderedEntries w
      { w with
        backup := fun b =>
          if b < n then { w.backup b with gc := .requested (processFetchedEntries false w.entries []).2 }
          else w.backup b }
  | allDeletionCompleted {w : Backups} (hr : ∀ b < n, ∃ nDel, (w.backup b).gc = .replied nDel) :
    BackupsStep c n .allDeletionCompleted w
      { w with backup := fun b => if b < n then { w.backup b with gc := .idle } else w.backup b }

/-- Every backup has just been started, on a region of zeros. -/
def BackupsStart (w : Backups) : Prop := w = ⟨fun _ => ⟨⟨.zeroed, []⟩, .idle⟩, []⟩

/-- The backups. -/
def backupsLts (c : Config) (n : ℕ) : Lts BackupAct Backups := ⟨BackupsStart, BackupsStep c n⟩

/-- The steps that the backups take part in. -/
def link : Label ⊕ Act → Option BackupAct
  | .inl (.appendBatch es) => some (.appendBatch es)
  | .inl .appendBatchDone => some .deleteOrderedEntries
  | .inl (.updateGlobalIdx _) => some .allDeletionCompleted
  | .inr (.append (.backup b) e) => some (.append b e)
  | .inr (.reply (.backup b) rid) => some (.reply b rid)
  | .inl .tau | .inl (.append _) | .inl .updateGlobalIdxDone => none
  | .inr .tau | .inr (.append .primary _) | .inr (.reply .primary _) => none

/-- A consensus log, the clients and `n` backups. -/
def withBackups {σ : Type} (A : Lts Label σ) (c : Config) (n : ℕ) :
    Lts ((Label ⊕ Act) ⊕ BackupAct) ((σ × Clients) × Backups) :=
  (withClients A n).sync (backupsLts c n) link (· = .tau)

/-! ### The condition -/

/-- The requests in the batches given to `AppendBatch`. -/
def storedIds (stored : List (List LogEntry)) : List ReqID := ids (stored.flatMap List.dropLast)

/-- An entry with the number zero that a collection tests, of a client that it does not name, is stored. -/
def Safe (c : Config) (n : ℕ) (stored : List (List LogEntry)) (w : Backups) : Prop :=
  ∀ b < n, ∀ ids rid, Tests (asBackup c) (w.backup b) ids rid → rid.2 = 0 → rid.1 ∉ ids.map Prod.fst →
    rid ∈ storedIds stored

variable {c : Config} {n : ℕ} {x : SharedLog} {t : Clients} {w w' : Backups} {a : BackupAct}
  {stored : List (List LogEntry)}

theorem Backups.set_set (w : Backups) (b : ℕ) (v v' : Backup) : (w.set b v).set b v' = w.set b v' := by
  unfold Backups.set
  rw [Function.update_idem]

theorem Backups.set_backup (w : Backups) (b : ℕ) (v : Backup) : (w.set b v).backup b = v := by
  unfold Backups.set
  exact Function.update_self b v w.backup

theorem backupsStep_set (n : ℕ) (w : Backups) (b : ℕ) {v v' : Backup}
    (hs : DelEntries.Step (asBackup c) v v') : BackupsStep c n .tau (w.set b v) (w.set b v') := by
  have hstep := BackupsStep.step (n := n) (w := w.set b v) b (by rwa [Backups.set_backup])
  rwa [Backups.set_set] at hstep

/-! ### What a collection names -/

theorem mem_maxSeqForClient {es : List LogEntry} {q : ReqID} (h : q ∈ maxSeqForClient es) : q ∈ ids es := by
  unfold maxSeqForClient at h
  induction es using List.reverseRecOn with
  | nil => cases h
  | append_singleton es e ih =>
    rw [List.foldl_append, List.foldl_cons, List.foldl_nil] at h
    unfold ids at ih ⊢
    rw [List.map_append, List.map_singleton, List.mem_append, List.mem_singleton]
    exact (mem_raiseMax h).imp ih id

/-- The requests named are those of entries of the batch; the sentinel is none of them. -/
theorem mem_processFetchedEntries {L : List LogEntry} {k m : ℕ} {q : ReqID}
    (h : q ∈ (processFetchedEntries false (batch L k m) []).2) : q ∈ ids (batch L k m).dropLast := by
  unfold processFetchedEntries at h
  simp only [Bool.false_eq_true, if_false, List.nil_append] at h
  obtain ⟨hmem, hne⟩ := List.mem_filter.mp h
  have hq := mem_maxSeqForClient hmem
  rw [dropLast_batch]
  unfold batch ids at hq
  rw [List.map_append, List.mem_append] at hq
  rcases hq with hq | hq
  · exact hq
  · rw [List.map_singleton, List.mem_singleton] at hq
    rw [hq] at hne
    exact absurd rfl (of_decide_eq_true hne)

/-! ### What is stored -/

theorem storedIds_concat (stored : List (List LogEntry)) (es : List LogEntry) :
    storedIds (stored ++ [es]) = storedIds stored ++ ids es.dropLast := by
  unfold storedIds ids
  rw [List.flatMap_append, List.flatMap_singleton, List.map_append]

/-- **With an entry of a client, all earlier ones of it are stored.** -/
theorem storedIds_downward (h : (withClients Spec.lts n).Reachable (x, t)) {id q q' : UInt64}
    (hq : (id, q) ∈ storedIds x.stored) (hle : q' ≤ q) : (id, q') ∈ storedIds x.stored := by
  have hflat : x.stored.flatMap List.dropLast = x.log.take x.given := by
    simpa using (Spec.inv_of_reachable h.fst).stored.flatMap_dropLast
  have hids : storedIds x.stored = ids ((t.order .primary).take x.given) := by
    unfold storedIds
    rw [hflat]
    unfold ids
    rw [List.map_take, List.map_take]
    exact congrArg (List.take x.given) (ids_eq_of_content (content_of_reachable h))
  obtain ⟨c', hc'⟩ := ((clients_of_reachable h).order (show DlServer.Valid n .primary from trivial)).take x.given
  rw [hids] at hq ⊢
  obtain ⟨e, he, hr⟩ := List.mem_map.mp hq
  have hlt := hc'.num_lt he
  rw [show e.clientId = id from congrArg Prod.fst hr, show e.clientSeq = q from congrArg Prod.snd hr] at hlt
  obtain ⟨y, hy, hid, hnum⟩ := hc'.exists_mem (lt_of_le_of_lt (UInt64.le_iff_toNat_le.mp hle) hlt)
  exact List.mem_map.mpr ⟨y, hy, Prod.ext hid (UInt64.toNat_inj.mp hnum)⟩

/-! ### The invariant -/

/-- **The invariant**: every backup keeps what is not stored, and the collections name what is stored. They are
over when the next batch is worked on. -/
structure Inv (c : Config) (n : ℕ) (x : SharedLog) (w : Backups) : Prop where
  backup : ∀ b < n, DelEntries.Inv (asBackup c) (· ∈ storedIds x.stored) (w.backup b)
  named : ∀ b < n, ∀ rid ∈ (w.backup b).gc.ids, rid ∈ storedIds x.stored
  entries : ∀ rid ∈ (processFetchedEntries false w.entries []).2, rid ∈ storedIds x.stored
  idle : x.phase ≠ .marking → ∀ b < n, (w.backup b).gc = .idle

theorem Inv.start (c : Config) (n : ℕ) :
    Inv c n ⟨[], [], 0, 0, .free⟩ ⟨fun _ => ⟨⟨.zeroed, []⟩, .idle⟩, []⟩ := by
  refine ⟨fun b _ => .start _ _, ?_, ?_, fun _ b _ => rfl⟩
  · rintro b - rid ⟨⟩
  · rintro rid ⟨⟩

theorem Inv.log {x' : SharedLog} (h : Inv c n x w) (hst : x'.stored = x.stored)
    (hp : x'.phase ≠ .marking → x.phase ≠ .marking) : Inv c n x' w := by
  refine ⟨?_, ?_, ?_, fun hph => h.idle (hp hph)⟩
  · rw [hst]
    exact h.backup
  · rw [hst]
    exact h.named
  · rw [hst]
    exact h.entries

theorem Inv.update (h : Inv c n x w) {b : ℕ} {v : Backup}
    (hv : b < n → DelEntries.Inv (asBackup c) (· ∈ storedIds x.stored) v)
    (hids : v.gc.ids = (w.backup b).gc.ids ∨ ∃ nDel, v.gc = .replied nDel)
    (hidle : (w.backup b).gc = .idle → v.gc = .idle) :
    Inv c n x (w.set b v) := by
  unfold Backups.set
  refine ⟨?_, ?_, h.entries, ?_⟩
  · intro b' hb'
    simp only
    rcases eq_or_ne b' b with rfl | hne
    · rw [Function.update_self]
      exact hv hb'
    · rw [Function.update_of_ne hne]
      exact h.backup b' hb'
  · intro b' hb' rid hrid
    simp only at hrid
    rcases eq_or_ne b' b with rfl | hne
    · rw [Function.update_self] at hrid
      rcases hids with heq | ⟨nDel, heq⟩
      · exact h.named b' hb' rid (heq ▸ hrid)
      · rw [heq] at hrid
        cases hrid
    · rw [Function.update_of_ne hne] at hrid
      exact h.named b' hb' rid hrid
  · intro hph b' hb'
    simp only
    rcases eq_or_ne b' b with rfl | hne
    · rw [Function.update_self]
      exact hidle (h.idle hph b' hb')
    · rw [Function.update_of_ne hne]
      exact h.idle hph b' hb'

/-- **What a collection deletes is stored.** -/
theorem Inv.deleted (h : Inv c n x w) (hr : (withClients Spec.lts n).Reachable (x, t))
    (hsafe : Safe c n x.stored w) {b : ℕ} (hb : b < n) {ids : List ReqID} {rid : ReqID}
    (ht : Tests (asBackup c) (w.backup b) ids rid) (hle : rid.2 ≤ cliIdMaxSeqMap ids rid.1) :
    rid ∈ storedIds x.stored := by
  rcases cliIdMaxSeqMap_cases ids rid.1 with hmem | ⟨hno, h0⟩
  · have hst : (rid.1, cliIdMaxSeqMap ids rid.1) ∈ storedIds x.stored := by
      refine h.named b hb _ ?_
      rw [ht.ids_eq]
      exact hmem
    exact storedIds_downward hr hst hle
  · rw [h0] at hle
    exact hsafe b hb ids rid ht (UInt64.le_zero_iff.mp hle) hno

theorem Inv.step (h : Inv c n x w) (hr : (withClients Spec.lts n).Reachable (x, t))
    (hsafe : Safe c n x.stored w) {b : ℕ} {v : Backup}
    (hs : DelEntries.Step (asBackup c) (w.backup b) v) :
    Inv c n x (w.set b v) := by
  refine h.update (fun hb => ?_) hs.ids_cases fun hidle => ?_
  · exact (h.backup b hb).step hs fun ids rid ht hle => h.deleted hr hsafe hb ht hle
  · exact hs.idle hidle

theorem Inv.append (h : Inv c n x w) {b : ℕ} {e : LogEntry}
    (he : CanAppend (asBackup c) (w.backup b).server e) :
    Inv c n x (w.set b { w.backup b with server := appendMem (asBackup c) (w.backup b).server e }) :=
  h.update (fun hb => (h.backup b hb).append he) (Or.inl rfl) id

theorem Inv.appendBatch (h : Inv c n x w) (hp : x.phase = .free) (k m g : ℕ) :
    Inv c n
      { x with stored := x.stored ++ [batch x.log k m], given := g, phase := .storing }
      { w with entries := batch x.log k m } := by
  have hgrow : ∀ rid, rid ∈ storedIds x.stored → rid ∈ storedIds (x.stored ++ [batch x.log k m]) := by
    intro rid hrid
    rw [storedIds_concat]
    exact List.mem_append_left _ hrid
  refine ⟨?_, ?_, ?_, ?_⟩
  · exact fun b hb => (h.backup b hb).mono hgrow
  · exact fun b hb rid hrid => hgrow rid (h.named b hb rid hrid)
  · intro rid hrid
    simp only at hrid ⊢
    rw [storedIds_concat]
    exact List.mem_append_right _ (mem_processFetchedEntries hrid)
  · intro _
    exact h.idle (by rw [hp]; rintro ⟨⟩)

theorem Inv.deleteOrderedEntries (h : Inv c n x w) (hp : x.phase = .storing) :
    Inv c n { x with phase := .marking }
      { w with
        backup := fun b =>
          if b < n then { w.backup b with gc := .requested (processFetchedEntries false w.entries []).2 }
          else w.backup b } := by
  refine ⟨?_, ?_, h.entries, fun hph => absurd rfl hph⟩
  · intro b hb
    simp only [if_pos hb]
    have hidle := h.idle (by rw [hp]; rintro ⟨⟩) b hb
    exact (h.backup b hb).setGc _ (by rw [hidle]; exact id) id rfl
  · intro b hb rid hrid
    simp only [if_pos hb] at hrid
    exact h.entries rid hrid

theorem Inv.allDeletionCompleted (h : Inv c n x w) {phase : Spec.Phase}
    (hr : ∀ b < n, ∃ nDel, (w.backup b).gc = .replied nDel) :
    Inv c n { x with phase := phase }
      { w with backup := fun b => if b < n then { w.backup b with gc := .idle } else w.backup b } := by
  refine ⟨?_, ?_, h.entries, ?_⟩
  · intro b hb
    simp only [if_pos hb]
    obtain ⟨nDel, hgc⟩ := hr b hb
    exact (h.backup b hb).setGc _ (by rw [hgc]; exact id) id rfl
  · intro b hb rid hrid
    simp only [if_pos hb] at hrid
    cases hrid
  · intro _ b hb
    simp only [if_pos hb]

/-! ### The steps of the whole -/

/-- What a step can do to the batches, to what the backups have appended and to the backups. -/
inductive ServiceStep (c : Config) (n : ℕ) (x : SharedLog) (t : Clients) (w : Backups) :
    SharedLog → Clients → Backups → Prop
  | other {x' : SharedLog} {t' : Clients} (hst : x'.stored = x.stored) (hp : x'.phase = x.phase)
    (ht : ∀ b, t'.order (.backup b) = t.order (.backup b)) : ServiceStep c n x t w x' t' w
  | appendBatch (k m g : ℕ) (hp : x.phase = .free) :
    ServiceStep c n x t w
      { x with stored := x.stored ++ [batch x.log k m], given := g, phase := .storing } t
      { w with entries := batch x.log k m }
  | deleteOrderedEntries (hp : x.phase = .storing) :
    ServiceStep c n x t w { x with phase := .marking } t
      { w with
        backup := fun b =>
          if b < n then { w.backup b with gc := .requested (processFetchedEntries false w.entries []).2 }
          else w.backup b }
  | allDeletionCompleted (hr : ∀ b < n, ∃ nDel, (w.backup b).gc = .replied nDel) :
    ServiceStep c n x t w { x with phase := .updating } t
      { w with backup := fun b => if b < n then { w.backup b with gc := .idle } else w.backup b }
  | updateGlobalIdxDone (hp : x.phase = .updating) : ServiceStep c n x t w { x with phase := .free } t w
  | append {t' : Clients} (b : ℕ) (e : LogEntry) (he : CanAppend (asBackup c) (w.backup b).server e)
    (ht : t'.order (.backup b) = t.order (.backup b) ++ [e])
    (hne : ∀ b' ≠ b, t'.order (.backup b') = t.order (.backup b')) :
    ServiceStep c n x t w x t'
      (w.set b { w.backup b with server := appendMem (asBackup c) (w.backup b).server e })
  | step {v : Backup} (b : ℕ) (hs : DelEntries.Step (asBackup c) (w.backup b) v) :
    ServiceStep c n x t w x t (w.set b v)

theorem ServiceStep.left {l : Label ⊕ Act} {x' : SharedLog} {t' : Clients} (hl : link l = none)
    (hs : (withClients Spec.lts n).step l (x, t) (x', t')) : ServiceStep c n x t w x' t' w := by
  cases hs with
  | @left a _ _ _ hla hx =>
    cases hx with
    | tau => exact .other rfl rfl fun _ => rfl
    | append hrec hlt => exact .other rfl rfl fun _ => rfl
    | mark hp => exact .other rfl rfl fun _ => rfl
    | updateGlobalIdxDone hp => exact .updateGlobalIdxDone hp
    | appendBatch | appendBatchDone | updateGlobalIdx => cases hl
  | @both a act _ _ _ _ hla hx he =>
    -- the primary appends
    cases hx with
    | append hrec hlt =>
      cases hla
      exact .other rfl rfl fun b => LazyLogCli.Step.order_eq he (by rintro e' ⟨⟩)
    | tau | appendBatch | appendBatchDone | mark | updateGlobalIdx | updateGlobalIdxDone => cases hla
  | @right act _ _ _ ho he =>
    refine .other rfl rfl fun b => LazyLogCli.Step.order_eq he ?_
    rintro e rfl
    cases hl

theorem ServiceStep.both {l : Label ⊕ Act} {x' : SharedLog} {t' : Clients} (hl : link l = some a)
    (hs : (withClients Spec.lts n).step l (x, t) (x', t')) (hw : BackupsStep c n a w w') :
    ServiceStep c n x t w x' t' w' := by
  cases hs with
  | @left a _ _ _ hla hx =>
    cases hx with
    | appendBatch hp hn hle =>
      cases hl
      cases hw with
      | appendBatch => exact .appendBatch _ _ _ hp
    | appendBatchDone hp =>
      cases hl
      cases hw with
      | deleteOrderedEntries => exact .deleteOrderedEntries hp
    | updateGlobalIdx hp ho hidx =>
      cases hl
      cases hw with
      | allDeletionCompleted hr => exact .allDeletionCompleted hr
    | tau | append | mark | updateGlobalIdxDone => cases hl
  | @both a act _ _ _ _ hla hx he =>
    cases a with
    | append e => cases hl
    | tau | appendBatch | appendBatchDone | updateGlobalIdx | updateGlobalIdxDone => cases hla
  | @right act _ _ _ ho he =>
    cases hw with
    | append b e hcan =>
      obtain rfl : act = .append (.backup b) e := by
        rcases act with _ | ⟨_ | _, _⟩ | ⟨_ | _, _⟩ <;> cases hl
        rfl
      refine .append b e hcan he.order_append fun b' hne => LazyLogCli.Step.order_eq he ?_
      rintro e' ⟨⟩
      exact hne rfl
    | reply b ht hst =>
      refine .other rfl rfl fun b' => LazyLogCli.Step.order_eq he ?_
      rintro e' rfl
      cases hl
    | step | appendBatch | deleteOrderedEntries | allDeletionCompleted =>
      rcases act with _ | ⟨_ | _, _⟩ | ⟨_ | _, _⟩ <;> cases hl

/-- **Every step is one of these.** -/
theorem ServiceStep.of_step {l : (Label ⊕ Act) ⊕ BackupAct} {x' : SharedLog} {t' : Clients}
    (hs : (withBackups Spec.lts c n).step l ((x, t), w) ((x', t'), w')) : ServiceStep c n x t w x' t' w' := by
  cases hs with
  | left hl hs => exact .left hl hs
  | both hl hs hw => exact .both hl hs hw
  | right ho hw =>
    cases hw with
    | step b hs => exact .step b hs
    | append | reply | appendBatch | deleteOrderedEntries | allDeletionCompleted => cases ho

/-- **Every run whose states are safe** keeps the invariant. -/
theorem inv_of_reachable
    (h : ((withBackups Spec.lts c n).restrict fun y => Safe c n y.1.1.stored y.2).Reachable ((x, t), w)) :
    Inv c n x w := by
  refine h.invariant (P := fun y => Inv c n y.1.1 y.2) ?_ ?_
  · rintro ⟨⟨x, t⟩, w⟩ ⟨⟨hx, -⟩, hw⟩
    obtain rfl : x = _ := hx
    obtain rfl : w = _ := hw
    exact .start c n
  · rintro l ⟨⟨x, t⟩, w⟩ ⟨⟨x', t'⟩, w'⟩ hr ih ⟨hsafe, hs⟩
    have hfst : (withClients Spec.lts n).Reachable (x, t) := hr.of_restrict.fst
    cases ServiceStep.of_step hs with
    | other hst hp ht => exact ih.log hst fun hne => hp ▸ hne
    | appendBatch k m g hp => exact ih.appendBatch hp k m g
    | deleteOrderedEntries hp => exact ih.deleteOrderedEntries hp
    | allDeletionCompleted hall => exact ih.allDeletionCompleted hall
    | updateGlobalIdxDone hp =>
      refine ih.log rfl fun _ => ?_
      rw [hp]
      rintro ⟨⟩
    | append b e he => exact ih.append he
    | step b hb => exact ih.step hfst hsafe hb

/-! ### Unordered entries -/

/-- Every entry that a backup has appended and that is in no batch given to `AppendBatch` is held by it. -/
def Retained (c : Config) (n : ℕ) (stored : List (List LogEntry)) (w : Backups) : Prop :=
  ∀ b < n, ∀ t ∈ (w.backup b).server.slots, t.e.reqId ∉ storedIds stored → Held (asBackup c) (w.backup b) t

theorem Inv.retained (h : Inv c n x w) : Retained c n x.stored w :=
  fun b hb _ ht hno => (h.backup b hb).held ht hno

/-- The entries are held next to whatever refines the abstract consensus log. -/
theorem retained_of_simulation {σ : Type} {A : Lts Label σ} {R : σ → SharedLog → Prop}
    (stored : σ → List (List LogEntry)) (hsim : Simulation A Spec.lts R)
    (hst : ∀ s x, R s x → x.stored = stored s) {s : σ}
    (h : ((withBackups A c n).restrict fun y => Safe c n (stored y.1.1) y.2).Reachable ((s, t), w)) :
    Retained c n (stored s) w := by
  have hcli := hsim.sync (LazyLogCli.lts n) Appends.link fun b => ∀ e, b ≠ .append .primary e
  have hall := (hcli.sync (backupsLts c n) link (· = .tau)).restrict
    (P := fun y => Safe c n (stored y.1.1) y.2) (Q := fun y => Safe c n y.1.1.stored y.2) (by
      rintro ⟨⟨s, t⟩, w⟩ ⟨⟨x, t'⟩, w'⟩ ⟨⟨hR, rfl⟩, rfl⟩ hP
      rw [hst s x hR]
      exact hP)
  obtain ⟨⟨⟨x, t'⟩, w'⟩, hx, ⟨hR, rfl⟩, rfl⟩ := hall.reachable h
  have hret := (inv_of_reachable hx).retained
  rw [hst s x hR] at hret
  exact hret

/-! ### Two runs

Two clients append their first entries. The backup has both of them, the primary only that of client 8, which is
stored and collected. The runs differ in the order in which the entries come to the backup. -/

/-- The request of the first entry of a client has not arrived at the server. -/
def Sent (t : Clients) (id : UInt64) (srv : DlServer) : Prop :=
  ∃ call, (t.clients id).call = some call ∧ call.entry = constructLogEntry id 0 [] ∧
    call.requests srv = .sent

/-- Entry number `k` of a client, without data, as a server appends it. -/
def entry (id : UInt64) (k : ℕ) : LogEntry := { constructLogEntry id k [] with flags := 0 }

theorem exists_sent (n : ℕ) {i j : UInt64} (hij : i ≠ j) : ∃ t₁ t₂,
    LazyLogCli.Step n .tau ⟨fun _ => ⟨0, none⟩, fun _ => [], []⟩ t₁ ∧ LazyLogCli.Step n .tau t₁ t₂ ∧
      ∀ srv, Sent t₂ i srv ∧ Sent t₂ j srv := by
  refine ⟨_, _, .invoke i .all [] rfl (admissible_empty i _),
    .invoke j .all [] ?_ (admissible_empty j _), fun srv => ⟨?_, ?_⟩⟩
  · simp only [Function.update_of_ne hij.symm]
  · refine ⟨⟨.all, constructLogEntry i 0 [], fun _ => .sent⟩, ?_, rfl, rfl⟩
    simp only [Function.update_of_ne hij, Function.update_self]
  · refine ⟨⟨.all, constructLogEntry j 0 [], fun _ => .sent⟩, ?_, rfl, rfl⟩
    simp only [Function.update_of_ne hij.symm, Function.update_self]

theorem Sent.append {id : UInt64} {srv : DlServer} (h : Sent t id srv) (hv : srv.Valid n) : ∃ t',
    LazyLogCli.Step n (.append srv (entry id 0)) t t' ∧
      ∀ id' srv', id' ≠ id ∨ srv' ≠ srv → Sent t id' srv' → Sent t' id' srv' := by
  obtain ⟨call, hc, he, hr⟩ := h
  have hstep := step_append (n := n) id srv hc hv hr (by rw [he]; rfl)
    (by rw [he]; exact show (1 : UInt16) ≠ 0 by decide)
  rw [he] at hstep
  refine ⟨_, hstep, ?_⟩
  rintro id' srv' hne ⟨call', hc', he', hr'⟩
  rcases eq_or_ne id' id with rfl | hid
  · obtain rfl : call = call' := Option.some.inj (hc.symm.trans hc')
    refine ⟨{ call with requests := Function.update call.requests srv .appended }, ?_, he', ?_⟩
    · simp only [Function.update_self, he]
    · simp only [Function.update_of_ne (hne.resolve_left fun h => h rfl)]
      exact hr'
  · refine ⟨call', ?_, he', hr'⟩
    simp only [Function.update_of_ne hid]
    exact hc'

/-- The simple loop with one backup, as long as its states are safe. -/
def safeLts : Lts ((Label ⊕ Act) ⊕ BackupAct) ((FetchAndStore.Loop × Clients) × Backups) :=
  (withBackups (FetchAndStore.lts .smallPrimary 0) .smallPrimary 1).restrict
    fun y => Safe .smallPrimary 1 y.1.1.stored y.2

/-- The state is reached before any collection is asked for. -/
def Quiet (y : (FetchAndStore.Loop × Clients) × Backups) : Prop :=
  safeLts.Reachable y ∧ ∀ b, (y.2.backup b).gc = .idle

theorem safe_of_idle (h : ∀ b, (w.backup b).gc = .idle) : Safe c n stored w := by
  rintro b - ids rid (⟨hpc, -⟩ | ⟨hpc, -, -⟩)
  · rw [h b] at hpc
    cases hpc
  · rw [h b] at hpc
    cases hpc

section Quiet

variable {y y' : FetchAndStore.Loop × Clients} {l : Label ⊕ Act} {e : LogEntry}

theorem Quiet.left (h : Quiet (y, w)) (hs : (withClients (FetchAndStore.lts .smallPrimary 0) 1).step l y y')
    (hl : link l = none) : Quiet (y', w) :=
  ⟨h.1.next ⟨safe_of_idle h.2, .left hl hs⟩, h.2⟩

theorem Quiet.appendBatch (h : Quiet (y, w)) {es : List LogEntry}
    (hs : (withClients (FetchAndStore.lts .smallPrimary 0) 1).step (.inl (.appendBatch es)) y y') :
    Quiet (y', { w with entries := es }) :=
  ⟨h.1.next ⟨safe_of_idle h.2, .both rfl hs (.appendBatch es)⟩, h.2⟩

theorem Quiet.append (h : Quiet (y, w))
    (hs : (withClients (FetchAndStore.lts .smallPrimary 0) 1).step (.inr (.append (.backup 0) e)) y y')
    (he : CanAppend (asBackup .smallPrimary) (w.backup 0).server e) :
    Quiet (y', w.set 0
      { w.backup 0 with server := append (asBackup .smallPrimary) (w.backup 0).server e }) := by
  obtain ⟨h0, hgc⟩ := h
  have hidle : ∀ v : Backup, v.gc = .idle → ∀ b, ((w.set 0 v).backup b).gc = .idle := by
    intro v hv b
    rcases eq_or_ne b 0 with rfl | hne
    · rw [Backups.set_backup]
      exact hv
    · exact (congrArg Backup.gc (Function.update_of_ne hne v w.backup)).trans (hgc b)
  have h1 := h0.next ⟨safe_of_idle hgc, .both rfl hs (.append 0 e he)⟩
  have hstep := step_append_returned (c := asBackup .smallPrimary) (v := w.backup 0)
    (by rw [hgc]; exact id) e
  have h2 := h1.next ⟨safe_of_idle (hidle _ (hgc 0)), .right rfl (backupsStep_set 1 w 0 hstep)⟩
  exact ⟨h2, hidle _ (hgc 0)⟩

end Quiet

theorem getSize_entry (id : UInt64) (k : ℕ) : getSize (entry id k) = 32 :=
  show align4 (metaDataSize + ((UInt32.ofNat 0).toNat + 3) % 2 ^ 32) = 32 by decide

theorem canAppend_entry {s : State} (h : Contents c s) (hseq : s.log.sequencer ≤ 2 ^ 16) (id : UInt64) (k : ℕ) :
    CanAppend c s (entry id k) := by
  have hrg := c.le_rgSize
  have hrg' := c.rgSize_lt
  have hw := h.settled.le_sequencer h.tiled
  refine ⟨⟨(admissible_empty id k).sized, (admissible_empty id k).fits⟩, rfl, ?_, ?_⟩
  · rw [getSize_entry, Space.exits_iff_room hrg (by omega) hw (by omega)]
    omega
  · rw [getSize_entry]
    omega

theorem canAppend_zeroed (c : Config) (id : UInt64) (k : ℕ) : CanAppend c ⟨.zeroed, []⟩ (entry id k) :=
  canAppend_entry (DelEntries.Inv.start c fun _ => True).contents (Nat.zero_le _) id k

theorem canAppend_second (c : Config) (i j : UInt64) :
    CanAppend c (append c ⟨.zeroed, []⟩ (entry i 0)) (entry j 0) := by
  refine canAppend_entry
    ((DelEntries.Inv.start c fun _ => True).append_returned (canAppend_zeroed c i 0)).contents ?_ j 0
  rw [(append_counters ..).1, getSize_entry]
  decide

/-- The backup with the first entries of two clients. -/
def twoEntries (i j : UInt64) : State :=
  append (asBackup .smallPrimary) (append (asBackup .smallPrimary) ⟨.zeroed, []⟩ (entry i 0)) (entry j 0)

/-- The clients have sent their first entries, and the backup has appended both of them. -/
theorem exists_appended {i j : UInt64} (hij : i ≠ j) : ∃ t w,
    Quiet ((⟨⟨.zeroed, []⟩, fun _ => 0, .idle, []⟩, t), w) ∧ w.backup 0 = ⟨twoEntries i j, .idle⟩ ∧
      Sent t i .primary ∧ Sent t j .primary := by
  obtain ⟨t₁, t₂, hs1, hs2, hsent⟩ := exists_sent 1 hij
  have h0 : Quiet ((⟨⟨.zeroed, []⟩, fun _ => 0, .idle, []⟩, ⟨fun _ => ⟨0, none⟩, fun _ => [], []⟩),
      ⟨fun _ => ⟨⟨.zeroed, []⟩, .idle⟩, []⟩) :=
    ⟨.start ⟨⟨⟨⟨FlatLog.zeroed_fresh, rfl⟩, rfl, rfl⟩, rfl⟩, rfl⟩, fun _ => rfl⟩
  have h1 := h0.left (.right (by rintro e ⟨⟩) hs1) rfl
  have h2 := h1.left (.right (by rintro e ⟨⟩) hs2) rfl
  obtain ⟨t₃, hs3, hkeep3⟩ := (hsent (.backup 0)).1.append (show 0 < 1 by decide)
  have h3 := h2.append (.right (by rintro e ⟨⟩) hs3) (canAppend_zeroed _ i 0)
  obtain ⟨t₄, hs4, hkeep4⟩ := (hkeep3 j (.backup 0) (Or.inl hij.symm) (hsent _).2).append
    (show 0 < 1 by decide)
  have h4 := h3.append (.right (by rintro e ⟨⟩) hs4) (by
    rw [Backups.set_backup]
    exact canAppend_second _ i j)
  rw [Backups.set_set, Backups.set_backup] at h4
  refine ⟨t₄, _, h4, Backups.set_backup _ _ _, ?_, ?_⟩
  · exact hkeep4 i .primary (Or.inl hij) (hkeep3 i .primary (Or.inr (by rintro ⟨⟩)) (hsent _).1)
  · exact hkeep4 j .primary (Or.inr (by rintro ⟨⟩)) (hkeep3 j .primary (Or.inl hij.symm) (hsent _).2)

/-- The entry of client 8 is stored, and the backup is asked for the collection. -/
theorem exists_requested {i j : UInt64} (hij : i ≠ j) (h8 : 8 = i ∨ 8 = j) : ∃ s t w,
    safeLts.Reachable ((s, t), w) ∧ storedIds s.stored = [(8, 0)] ∧
      w.backup 0 = ⟨twoEntries i j, .requested [(8, 0)]⟩ := by
  obtain ⟨t, w, h0, hw, hi, hj⟩ := exists_appended hij
  have hsent : Sent t 8 .primary := by
    rcases h8 with rfl | rfl
    · exact hi
    · exact hj
  obtain ⟨t', hs, -⟩ := hsent.append (show DlServer.Valid 1 .primary from trivial)
  have hcan := canAppend_zeroed .smallPrimary 8 0
  have h1 := h0.left (.both rfl (.append _ hcan) hs) rfl
  have hprim := (Primary.init (c := .smallPrimary) ⟨FlatLog.zeroed_fresh, rfl⟩).append hcan
  have hrecs := recs_append .smallPrimary ⟨.zeroed, []⟩ (entry 8 0)
  generalize append .smallPrimary ⟨.zeroed, []⟩ (entry 8 0) = P at h1 hprim hrecs
  have hlen : (recs P).length = 1 := by
    rw [hrecs]
    rfl
  obtain ⟨mr, hb, hread, hdec, hne⟩ := hprim.fetch_all (Nat.le_refl 0) (by omega)
    (show max P.log.orderedWatermk 0 = _ by rw [hprim.mark, Nat.max_zero]) fun _ => 0
  have h2 := h1.left (.left rfl (.range rfl)) rfl
  have h3 := h2.left (.left rfl (.read rfl hb hread)) rfl
  have h4 := h3.appendBatch (.left rfl (.appendBatch rfl hdec hne))
  have h5 := h4.1.next ⟨safe_of_idle h4.2, .both rfl (.left rfl (.delete rfl)) .deleteOrderedEntries⟩
  refine ⟨_, _, _, h5, ?_, ?_⟩
  · show storedIds ([] ++ [batch (recs P) 0 ((recs P).length - 0)]) = _
    rw [storedIds_concat, dropLast_batch, hlen, hrecs]
    rfl
  · have hids : (processFetchedEntries false (batch (recs P) 0 ((recs P).length - 0)) []).2 = [(8, 0)] := by
      rw [hlen, hrecs]
      decide
    show Backup.mk (w.backup 0).server (.requested _) = _
    rw [hw, hids]

theorem reachable_of_run {L : Lts ((Label ⊕ Act) ⊕ BackupAct) ((FetchAndStore.Loop × Clients) × Backups)}
    {r : Backup → Backup → Prop} {y : FetchAndStore.Loop × Clients} {v v' : Backup} (h : L.Reachable (y, w))
    (hw : w.backup 0 = v) (hrun : Relation.ReflTransGen r v v')
    (hL : ∀ v v', r v v' → ∃ a, L.step a (y, w.set 0 v) (y, w.set 0 v')) :
    L.Reachable (y, w.set 0 v') := by
  induction hrun with
  | refl =>
    rw [← hw]
    unfold Backups.set
    rwa [Function.update_eq_self]
  | tail _ hstep ih =>
    obtain ⟨a, ha⟩ := hL _ _ hstep
    exact ih.next ha

theorem twoEntries_spec (i j : UInt64) :
    DelEntries.Inv (asBackup .smallPrimary) (fun _ => True) ⟨twoEntries i j, .requested [(8, 0)]⟩ ∧
      (∃ t₀ t₁, (twoEntries i j).slots = [t₀, t₁] ∧ t₀.e.reqId = (i, 0) ∧ t₁.e.reqId = (j, 0) ∧
        t₀.seq = 0 ∧ t₁.seq = 32 ∧ t₀.e.data = [] ∧ t₁.e.data = []) ∧
      (twoEntries i j).log.orderedWatermk = 0 ∧ (twoEntries i j).log.pendingEntries = [] := by
  obtain ⟨hseq, hwm, -⟩ := append_counters (asBackup .smallPrimary) ⟨.zeroed, []⟩ (entry i 0)
  obtain ⟨-, hwm', -⟩ := append_counters (asBackup .smallPrimary)
    (append (asBackup .smallPrimary) ⟨.zeroed, []⟩ (entry i 0)) (entry j 0)
  have hp := append_pendingEntries (asBackup .smallPrimary) ⟨.zeroed, []⟩ (entry i 0)
  have hp' := append_pendingEntries (asBackup .smallPrimary)
    (append (asBackup .smallPrimary) ⟨.zeroed, []⟩ (entry i 0)) (entry j 0)
  have hseq' : (append (asBackup .smallPrimary) ⟨.zeroed, []⟩ (entry i 0)).log.sequencer = 32 := by
    rw [hseq, getSize_entry]
    rfl
  have hslots : (twoEntries i j).slots =
      [⟨stamp (asBackup .smallPrimary) 0 (entry i 0), 0, 0, .returned⟩,
        ⟨stamp (asBackup .smallPrimary) (append (asBackup .smallPrimary) ⟨.zeroed, []⟩
          (entry i 0)).log.indexer (entry j 0), 32, (append (asBackup .smallPrimary) ⟨.zeroed, []⟩
          (entry i 0)).log.indexer, .returned⟩] := by
    rw [← hseq']
    rfl
  refine ⟨?_, ⟨_, _, hslots, rfl, rfl, rfl, rfl, rfl, rfl⟩, hwm'.trans hwm, hp'.trans hp⟩
  · have h0 := (DelEntries.Inv.start (asBackup .smallPrimary) fun _ => True).setGc (.requested [(8, 0)]) id id rfl
    have h1 := h0.append_returned (canAppend_zeroed _ i 0)
    exact h1.append_returned (canAppend_second _ i j)

/-- **Backups keep unordered entries**, in both modes of the consensus log, in every run in which the
collections test no first entry of a client they do not name, unless it is stored. -/
theorem unordered_entries_are_held (c : Config) (maxFetchSize n : ℕ) :
    (∀ s t w, ((withBackups (FetchAndStore.lts c maxFetchSize) c n).restrict
        fun y => Safe c n y.1.1.stored y.2).Reachable ((s, t), w) → Retained c n s.stored w) ∧
    ∀ s t w, ((withBackups (Pipeline.lts c maxFetchSize) c n).restrict
        fun y => Safe c n y.1.1.stored y.2).Reachable ((s, t), w) → Retained c n s.stored w := by
  constructor
  · intro s t w h
    refine retained_of_simulation FetchAndStore.Loop.stored (FetchAndStore.simulation c maxFetchSize) ?_ h
    rintro s x ⟨g, st, -, rfl⟩
    rfl
  · intro s t w h
    refine retained_of_simulation Pipeline.Sys.stored (Pipeline.simulation c maxFetchSize) ?_ h
    rintro s x ⟨g, st, f, -, rfl⟩
    rfl

/-- The entry of client 8 comes to the backup first. The collection ends behind it, and the entry of client 7,
which is not stored, stays in the ring. -/
theorem unordered_entries_are_held_first : ∃ s t w, safeLts.Reachable ((s, t), w) ∧
    (∃ nDel, (w.backup 0).gc = .replied nDel) ∧
    (∃ u ∈ (w.backup 0).server.slots, u.e.reqId = (7, 0) ∧ u.e.reqId ∉ storedIds s.stored) ∧
    Retained .smallPrimary 1 s.stored w := by
  obtain ⟨s, t, w, h, hst, hw⟩ := exists_requested (i := 8) (j := 7) (by decide) (Or.inl rfl)
  obtain ⟨hinv, ⟨t₀, t₁, hsl, hr0, hr1, hs0, -⟩, hwm, hp⟩ := twoEntries_spec 8 7
  obtain ⟨v, nDel, hrun, hgc, hsl', -⟩ := collect_run (T := fun rid => rid = (8, 0)) (k := 0) (j := 0) (t := t₀)
    hinv (fun _ => trivial) rfl hwm (Nat.le_refl 0) (by rw [hsl]; rfl) (by
      rw [hs0]
      simp only [noteMaxSeq]
      decide)
    (by simp only [hp]; rintro e ⟨⟩) fun i u _ hi hu => by
      obtain rfl : i = 0 := by omega
      simp only [hsl] at hu
      rw [← Option.some.inj hu, hr0]
  have hreach := reachable_of_run h hw hrun fun v v' hstep =>
    ⟨.inr .tau, ⟨fun b hb ids rid htest _ hno => by
      obtain rfl : b = 0 := by omega
      rw [Backups.set_backup] at htest
      obtain ⟨rfl, rfl⟩ := hstep.2 ids rid htest
      exact absurd (List.mem_cons_self ..) hno, .right rfl (backupsStep_set 1 w 0 hstep.1)⟩⟩
  refine ⟨s, t, _, hreach, ⟨nDel, ?_⟩, ⟨t₁, ?_, hr1, ?_⟩, ?_⟩
  · rw [Backups.set_backup, hgc]
  · rw [Backups.set_backup, hsl', hsl]
    exact List.mem_cons_of_mem _ (List.mem_cons_self ..)
  · rw [hst, hr1]
    decide
  · exact (unordered_entries_are_held .smallPrimary 0 1).1 s t _ hreach

/-- **An unordered entry is lost.** The entry of client 7 comes to the backup first. The collection names
client 8 only, takes zero as the number for client 7, and deletes its entry. -/
theorem collection_drops_unordered : ∃ s t w,
    (withBackups (FetchAndStore.lts .smallPrimary 0) .smallPrimary 1).Reachable ((s, t), w) ∧
      ¬ Retained .smallPrimary 1 s.stored w := by
  obtain ⟨s, t, w, h, hst, hw⟩ := exists_requested (i := 7) (j := 8) (by decide) (Or.inr rfl)
  obtain ⟨hinv, ⟨t₀, t₁, hsl, hr0, hr1, hs0, hs1, hd0, hd1⟩, hwm, hp⟩ := twoEntries_spec 7 8
  obtain ⟨v, nDel, hrun, -, hsl', hwm', hp'⟩ := collect_run (T := fun _ => True) (k := 0) (j := 1) (t := t₁)
    hinv (fun _ => trivial) rfl hwm (Nat.zero_le 1) (by rw [hsl]; rfl) (by
      rw [hs1]
      simp only [noteMaxSeq]
      decide)
    (fun _ _ => trivial) fun _ _ _ _ _ => trivial
  have hreach := reachable_of_run h.of_restrict hw hrun fun v v' hstep =>
    ⟨.inr .tau, .right rfl (backupsStep_set 1 w 0 hstep.1)⟩
  refine ⟨s, t, _, hreach, fun hret => ?_⟩
  have hheld := hret 0 (by decide) t₀ (by
    rw [Backups.set_backup, hsl', hsl]
    exact List.mem_cons_self ..) (by
    rw [hst, hr0]
    decide)
  rw [Backups.set_backup] at hheld
  rcases hheld with ⟨hle, -⟩ | hmem
  · have hpos : pos entrySize (twoEntries 7 8).entries 2 = 64 := by
      simp only [State.entries, hsl, pos, entrySize, hd0, hd1, List.map, List.take]
      decide
    rw [hwm', hpos, hs0] at hle
    omega
  · rw [hp', hp, List.filter_nil, List.nil_append] at hmem
    have habove : cliIdMaxSeqMap [(8, 0)] t₀.e.clientId < t₀.e.clientSeq :=
      of_decide_eq_true (List.mem_filter.mp hmem).2
    rw [show t₀.e.clientSeq = 0 from congrArg Prod.snd hr0] at habove
    exact UInt64.not_lt_zero habove

end LazyLog.Service.Collection
