import LazyLog.ConsLog.Progress
import LazyLog.Service.Pending

/-! # A backup that lags for good

A collection moves the watermark of a backup as far as the requests it names are found in `reqid_to_seq_map_`. A
request may come to the backup after the collection that names it, and no later collection names it again. As long as
there is room, a later entry that comes in time takes the watermark past it. If the ring is full of such entries
nothing moves any more: no entry can be appended to the backup, what later collections name is not found, and no call
of a client for another entry returns, because clients wait for every server. As `AppendEntry` is one step, no call is
past `waitForPlace` without its reservation when the ring is full. -/

namespace LazyLog.Service.Stall

open Relation (ReflTransGen)
open LazyLog.Lib.Streams LazyLog.Lib.Tiling LazyLog.Lib.Transition LazyLog.Rpc.Entry LazyLog.Rpc.Multi
open LazyLog.DurLog LazyLog.DurLog.Flat LazyLog.DurLog.Ranges LazyLog.DurLog.Ring LazyLog.DurLog.FlatCli
open LazyLog.DurLog.DelEntries LazyLog.DurLog.Processed
open LazyLog.ConsLog LazyLog.ConsLog.Batches LazyLog.ConsLog.Link
open LazyLog.ConsLog.Spec (SharedLog Phase)
open LazyLog.Client LazyLog.Client.LazyLogCli
open LazyLog.Service.Appends (withClients ids clients_of_reachable content_of_reachable ids_eq_of_content nodup_ids)
open LazyLog.Service.Collection LazyLog.Service.Runs
open LazyLog.Service.Pending (Server step_entries)

variable {c : Config} {n b : ℕ} {x x' : SharedLog} {t t' : Clients} {w w' : Backups} {v v' : Backup}
  {P : ReqID → Prop}

/-! ### The map -/

/-- What the map has for a request is zero, or the place of its entry. -/
def MapOk (v : Backup) : Prop := ∀ rid q, v.server.log.reqidToSeqMap rid = some q → q = 0 ∨ At v rid q

/-- The lookup adds zeros, and the maximum is zero or what the map has for a request named. -/
theorem noteMaxSeq_cases (names : List ReqID) (l : FlatLog) :
    ∃ m, (noteMaxSeq names l).1 = { l with reqidToSeqMap := m } ∧
      (∀ rid q, m rid = some q → q = 0 ∨ l.reqidToSeqMap rid = some q) ∧
      ((noteMaxSeq names l).2 = 0 ∨ ∃ rid ∈ names, l.reqidToSeqMap rid = some (noteMaxSeq names l).2) := by
  unfold noteMaxSeq
  induction names using List.reverseRecOn with
  | nil => exact ⟨_, rfl, fun _ _ => Or.inr, Or.inl rfl⟩
  | append_singleton names r ih =>
    obtain ⟨m, hm, hmap, hmax⟩ := ih
    rw [List.foldl_append, List.foldl_cons, List.foldl_nil]
    simp only [hm]
    have hseq : (m r).getD 0 = 0 ∨ l.reqidToSeqMap r = some ((m r).getD 0) := by
      cases hq : m r with
      | none => exact Or.inl rfl
      | some q => exact hmap r q hq
    refine ⟨_, rfl, fun rid q hq => ?_, ?_⟩
    · rcases eq_or_ne rid r with rfl | hne
      · rw [Function.update_self] at hq
        rw [← Option.some.inj hq]
        exact hseq
      · rw [Function.update_of_ne hne] at hq
        exact hmap rid q hq
    · rcases max_choice (List.foldl _ (l, 0) names).2 ((m r).getD 0) with hc | hc
      · rw [hc]
        exact hmax.imp id fun ⟨rid, hmem, hrid⟩ => ⟨rid, List.mem_append_left _ hmem, hrid⟩
      · rw [hc]
        exact hseq.imp id fun h => ⟨r, List.mem_append_right _ (List.mem_singleton_self r), h⟩

theorem map_of_delRound (names : List ReqID) (l : FlatLog) (nDel s : ℕ) {q : ℕ} {rid : ReqID}
    (h : (delRound c names l nDel s).1.reqidToSeqMap rid = some q) : l.reqidToSeqMap rid = some q := by
  have hmap : (delRound c names l nDel s).1.reqidToSeqMap = Function.update l.reqidToSeqMap
      (getClientId l.mem (s % c.rgSize), getClientSeq l.mem (s % c.rgSize)) none := rfl
  rw [hmap] at h
  exact eq_some_of_update_none h

theorem MapOk.step (h : MapOk v) (hs : DelEntries.Step c v v') : MapOk v' := by
  cases hs with
  | @insertReqid i u ht hst hlk =>
    intro rid q hq
    rw [at_put ht]
    have hq' : (insertReqid c v.server.log u.e u.seq).reqidToSeqMap rid = some q := hq
    unfold insertReqid at hq'
    split_ifs at hq'
    · exact h rid q hq'
    · rcases eq_or_ne rid u.e.reqId with rfl | hne
      · simp only [Function.update_self] at hq'
        exact Or.inr ⟨u, List.mem_of_getElem? ht, rfl, Option.some.inj hq'⟩
      · simp only [Function.update_of_ne hne] at hq'
        exact h rid q hq'
  | @note names hpc =>
    obtain ⟨m, hm, hmap, -⟩ := noteMaxSeq_cases names v.server.log
    intro rid q hq
    rw [hm] at hq
    rcases hmap rid q hq with h0 | hq
    · exact Or.inl h0
    · exact h rid q hq
  | pending hpc => exact h
  | @round names maxSeq nDel s hpc hs hf =>
    intro rid q hq
    exact (h rid q (map_of_delRound names v.server.log nDel s hq)).imp id (at_collect rid q).mpr
  | finish hpc hs => exact h

theorem MapOk.append (h : MapOk v) (e : LogEntry) : MapOk { v with server := appendMem c v.server e } := by
  intro rid q hq
  rw [(appendMem_counters c v.server e).2.2.2.1] at hq
  exact (h rid q hq).imp id fun hat => at_appendMem hat e

/-! ### One backup -/

/-- Nothing has changed in the ring. -/
structure Unmoved (v v' : Backup) : Prop where
  entries : v'.server.entries = v.server.entries
  watermk : v'.server.log.orderedWatermk = v.server.log.orderedWatermk
  sequencer : v'.server.log.sequencer = v.server.log.sequencer

theorem Unmoved.trans {v'' : Backup} (h : Unmoved v v') (h' : Unmoved v' v'') : Unmoved v v'' :=
  ⟨h'.entries.trans h.entries, h'.watermk.trans h.watermk, h'.sequencer.trans h.sequencer⟩

/-- The requests of all entries in the ring satisfy `P`, and no collection names one of those. -/
structure Lagging (P : ReqID → Prop) (v : Backup) : Prop where
  moved : 0 < v.server.log.orderedWatermk
  ring : ∀ rid q, At v rid q → v.server.log.orderedWatermk ≤ q → P rid
  map : MapOk v
  named : ∀ rid ∈ v.gc.ids, ¬ P rid
  maxSeq_lt : v.gc.maxSeq < v.server.log.orderedWatermk
  cursor_eq : v.cursor = v.server.log.orderedWatermk

/-- **What a collection names is not found in the ring.** -/
theorem Lagging.noteMaxSeq_lt (h : Lagging P v) {names : List ReqID} (hno : ∀ rid ∈ names, ¬ P rid) :
    (noteMaxSeq names v.server.log).2 < v.server.log.orderedWatermk := by
  obtain ⟨-, -, -, h0 | ⟨rid, hmem, hrid⟩⟩ := noteMaxSeq_cases names v.server.log
  · rw [h0]
    exact h.moved
  · rcases h.map rid _ hrid with h0 | hat
    · rw [h0]
      exact h.moved
    · exact not_le.mp fun hle => hno rid hmem (h.ring rid _ hat hle)

theorem Lagging.setGc (h : Lagging P v) (gc : GcPc) (hno : ∀ rid ∈ gc.ids, ¬ P rid) (hm : gc.maxSeq = 0)
    (hlk : ¬ gc.Locked) : Lagging P { v with gc := gc } := by
  refine ⟨h.moved, h.ring, h.map, hno, ?_, cursor_of_not_locked hlk⟩
  rw [hm]
  exact h.moved

/-- **A step of the backup leaves the ring as it is.** -/
theorem Lagging.step (h : Lagging P v) (hs : DelEntries.Step c v v') : Lagging P v' ∧ Unmoved v v' := by
  have hmap := h.map.step hs
  have hent := step_entries hs
  have hids := h.named
  have hlt := h.maxSeq_lt
  have hcur := h.cursor_eq
  cases hs with
  | @insertReqid i u ht hst hlk =>
    obtain ⟨h1, -, h3, -⟩ := insertReqid_counters c v.server.log u.e u.seq
    refine ⟨⟨?_, ?_, hmap, hids, ?_, ?_⟩, hent, h3, h1⟩
    · exact h3 ▸ h.moved
    · intro rid q hat hle
      exact h.ring rid q ((at_put ht rid q).mp hat) (h3 ▸ hle)
    · exact h3 ▸ hlt
    · rw [cursor_insertReqid, hcur]
      exact h3.symm
  | @note names hpc =>
    rw [hpc] at hids
    obtain ⟨m, hm, -, -⟩ := noteMaxSeq_cases names v.server.log
    have hw : (noteMaxSeq names v.server.log).1.orderedWatermk = v.server.log.orderedWatermk := by rw [hm]
    have hsq : (noteMaxSeq names v.server.log).1.sequencer = v.server.log.sequencer := by rw [hm]
    have hnew := h.noteMaxSeq_lt hids
    refine ⟨⟨hw ▸ h.moved, fun rid q hat hle => h.ring rid q hat (hw ▸ hle), hmap, hids, hw.symm ▸ hnew, rfl⟩,
      hent, hw, hsq⟩
  | pending hpc =>
    rw [hpc] at hids hlt
    exact ⟨⟨h.moved, h.ring, hmap, hids, hlt, rfl⟩, hent, rfl, rfl⟩
  | round hpc hs hf =>
    rw [hpc] at hlt
    rw [cursor_of_scanning hpc] at hcur
    exact absurd hs (by rw [hcur]; exact not_le.mpr hlt)
  | @finish names maxSeq nDel s hpc hs =>
    rw [cursor_of_scanning hpc] at hcur
    subst hcur
    exact ⟨⟨h.moved, h.ring, hmap, by rintro rid ⟨⟩, h.moved, rfl⟩, hent, rfl, rfl⟩

/-! ### The service -/

/-- What holds of the backups in every run. -/
structure Sound (c : Config) (n : ℕ) (x : SharedLog) (t : Clients) (w : Backups) : Prop where
  server : ∀ b < n, Server c (t.order (.backup b)) (w.backup b)
  map : ∀ b < n, MapOk (w.backup b)
  idle : x.phase ≠ .marking → ∀ b < n, (w.backup b).gc = .idle

theorem sound_start (c : Config) (n : ℕ) :
    Sound c n ⟨[], [], 0, 0, .free⟩ ⟨fun _ => ⟨0, none⟩, fun _ => [], []⟩
      ⟨fun _ => ⟨⟨.zeroed, []⟩, .idle⟩, []⟩ := by
  refine ⟨fun b _ => ⟨.start _ _, ?_, rfl⟩, fun b _ => ?_, fun _ b _ => rfl⟩
  · rintro t ⟨⟩
  · rintro rid q ⟨⟩

theorem set_backup_of_ne {b' : ℕ} (w : Backups) (hne : b' ≠ b) (v : Backup) :
    (w.set b v).backup b' = w.backup b' := by
  unfold Backups.set
  exact Function.update_of_ne hne v w.backup

theorem Sound.set (h : Sound c n x t w) (ht : ∀ b' ≠ b, t'.order (.backup b') = t.order (.backup b'))
    (hv : b < n → Server c (t'.order (.backup b)) v ∧ MapOk v) (hidle : (w.backup b).gc = .idle → v.gc = .idle) :
    Sound c n x t' (w.set b v) := by
  have hcases : ∀ b', b' = b ∧ (w.set b v).backup b' = v ∨ b' ≠ b ∧ (w.set b v).backup b' = w.backup b' := by
    intro b'
    rcases eq_or_ne b' b with rfl | hne
    · exact Or.inl ⟨rfl, Backups.set_backup w b' v⟩
    · exact Or.inr ⟨hne, set_backup_of_ne w hne v⟩
  refine ⟨fun b' hb' => ?_, fun b' hb' => ?_, fun hp b' hb' => ?_⟩
  · rcases hcases b' with ⟨rfl, heq⟩ | ⟨hne, heq⟩
    · rw [heq]
      exact (hv hb').1
    · rw [heq, ht b' hne]
      exact h.server b' hb'
  · rcases hcases b' with ⟨rfl, heq⟩ | ⟨hne, heq⟩
    · rw [heq]
      exact (hv hb').2
    · rw [heq]
      exact h.map b' hb'
  · rcases hcases b' with ⟨rfl, heq⟩ | ⟨hne, heq⟩
    · rw [heq]
      exact hidle (h.idle hp b' hb')
    · rw [heq]
      exact h.idle hp b' hb'

/-- **One step** keeps it. -/
theorem Sound.step (h : Sound c n x t w) (hr : (withClients Spec.lts n).Reachable (x, t))
    (hs : ServiceStep c n x t w x' t' w') : Sound c n x' t' w' := by
  cases hs with
  | other hst hp ht =>
    refine ⟨fun b hb => ?_, h.map, fun hph => h.idle (hp ▸ hph)⟩
    rw [ht b]
    exact h.server b hb
  | appendBatch k m g hp => exact ⟨h.server, h.map, fun _ => h.idle (by rw [hp]; rintro ⟨⟩)⟩
  | deleteOrderedEntries hp =>
    have hidle := h.idle (by rw [hp]; rintro ⟨⟩)
    refine ⟨fun b hb => ?_, fun b hb => ?_, fun hph => absurd rfl hph⟩
    · simp only [if_pos hb]
      exact (h.server b hb).setGc (by rw [hidle b hb]; exact id) id rfl
    · simp only [if_pos hb]
      exact h.map b hb
  | allDeletionCompleted hall =>
    refine ⟨fun b hb => ?_, fun b hb => ?_, fun _ b hb => by simp only [if_pos hb]⟩
    · simp only [if_pos hb]
      obtain ⟨nDel, hgc⟩ := hall b hb
      exact (h.server b hb).setGc (by rw [hgc]; exact id) id rfl
    · simp only [if_pos hb]
      exact h.map b hb
  | updateGlobalIdxDone hp => exact ⟨h.server, h.map, fun _ => h.idle (by rw [hp]; rintro ⟨⟩)⟩
  | append b e he ht hne =>
    refine h.set hne (fun hb => ⟨?_, (h.map b hb).append e⟩) id
    rw [ht]
    exact (h.server b hb).append he
  | step b hs =>
    refine h.set (fun _ _ => rfl) (fun hb => ⟨?_, (h.map b hb).step hs⟩) hs.idle
    exact (h.server b hb).step ((clients_of_reachable hr).order (show DlServer.Valid n (.backup b) from hb)) hs

theorem sound_of_reachable (h : (withBackups Spec.lts c n).Reachable ((x, t), w)) : Sound c n x t w := by
  refine h.invariant (P := fun y => Sound c n y.1.1 y.1.2 y.2) ?_ ?_
  · rintro ⟨⟨x, t⟩, w⟩ ⟨⟨hx, ht⟩, hw⟩
    obtain rfl : x = _ := hx
    obtain rfl : t = _ := ht
    obtain rfl : w = _ := hw
    exact sound_start c n
  · rintro l ⟨⟨x, t⟩, w⟩ ⟨⟨x', t'⟩, w'⟩ hr ih hs
    exact ih.step hr.fst (ServiceStep.of_step hs)

/-- **Nothing is stored twice.** -/
theorem storedIds_nodup (h : (withClients Spec.lts n).Reachable (x, t)) : (storedIds x.stored).Nodup := by
  have hflat : x.stored.flatMap List.dropLast = x.log.take x.given := by
    simpa using (Spec.inv_of_reachable h.fst).stored.flatMap_dropLast
  have hnd : (ids x.log).Nodup := by
    rw [ids_eq_of_content (content_of_reachable h)]
    exact nodup_ids ((clients_of_reachable h).order (show DlServer.Valid n .primary from trivial))
  unfold storedIds
  rw [hflat]
  unfold ids at hnd ⊢
  rw [List.map_take]
  exact hnd.sublist (List.take_sublist _ _)

/-- The backup has appended everything in its ring too late: it is stored already. -/
structure Behind (stored : List (List LogEntry)) (v : Backup) : Prop where
  moved : 0 < v.server.log.orderedWatermk
  ordered : ∀ u ∈ v.server.slots, v.server.log.orderedWatermk ≤ u.seq → u.e.reqId ∈ storedIds stored

/-- Besides, the ring has no room for an entry. -/
structure Stalled (c : Config) (stored : List (List LogEntry)) (v : Backup) : Prop extends Behind stored v where
  full : v.server.log.orderedWatermk + c.rgSize ≤ v.server.log.sequencer + minEntrySize + 2 ^ 18

theorem Sound.lagging (h : Sound c n x t w) (hb : b < n) (hp : x.phase = .free)
    (hbe : Behind x.stored (w.backup b)) : Lagging (· ∈ storedIds x.stored) (w.backup b) := by
  have hgc := h.idle (by rw [hp]; rintro ⟨⟩) b hb
  refine ⟨hbe.moved, ?_, h.map b hb, ?_, ?_, cursor_of_not_locked (by rw [hgc]; exact id)⟩
  · rintro rid q ⟨u, hu, rfl, rfl⟩ hle
    exact hbe.ordered u hu hle
  · rw [hgc]
    rintro rid ⟨⟩
  · rw [hgc]
    exact hbe.moved

theorem minEntrySize_le {e : LogEntry} (he : Admissible e) : minEntrySize ≤ getSize e := by
  rw [he.getSize_eq]
  unfold entrySize minEntrySize
  exact Nat.le_add_right _ _

/-- **A full ring takes no entry.** -/
theorem not_canAppend (hw : v.server.log.orderedWatermk ≤ v.server.log.sequencer)
    (hfull : v.server.log.orderedWatermk + c.rgSize ≤ v.server.log.sequencer + minEntrySize + 2 ^ 18)
    {e : LogEntry} : ¬ CanAppend (asBackup c) v.server e := by
  intro he
  have hrg := (asBackup c).le_rgSize
  have hrg' := (asBackup c).rgSize_lt
  have hmin := minEntrySize_le he.admissible
  have hroom := Space.room_of_exits hrg (by omega) hw he.seq_lt he.exits
  have heq : (asBackup c).rgSize = c.rgSize := rfl
  omega

/-- What is kept once backup `b` has stalled as `v₀`, with the requests `P` stored by then. -/
structure Stuck (P : ReqID → Prop) (v₀ : Backup) (b : ℕ) (x : SharedLog) (w : Backups) : Prop where
  lagging : Lagging P (w.backup b)
  unmoved : Unmoved v₀ (w.backup b)
  stored : ∀ rid, P rid → rid ∈ storedIds x.stored
  batch : x.phase = .storing → ∀ rid ∈ (processFetchedEntries false w.entries []).2, ¬ P rid

/-- **One step** of the service leaves the stalled backup as it is. -/
theorem Stuck.step {v₀ : Backup} (h : Stuck P v₀ b x w) (hb : b < n)
    (hno : ∀ e, ¬ CanAppend (asBackup c) (w.backup b).server e)
    (hr : (withClients Spec.lts n).Reachable (x', t')) (hs : ServiceStep c n x t w x' t' w') :
    Stuck P v₀ b x' w' := by
  cases hs with
  | other hst hp ht =>
    refine ⟨h.lagging, h.unmoved, ?_, fun hph => h.batch (hp ▸ hph)⟩
    rw [hst]
    exact h.stored
  | appendBatch k m g hp =>
    have hnd := storedIds_nodup hr
    rw [storedIds_concat] at hnd
    refine ⟨h.lagging, h.unmoved, fun rid hrid => ?_, fun _ rid hrid hP => ?_⟩
    · rw [storedIds_concat]
      exact List.mem_append_left _ (h.stored rid hrid)
    · exact List.disjoint_of_nodup_append hnd (h.stored rid hP) (mem_processFetchedEntries hrid)
  | deleteOrderedEntries hp =>
    refine ⟨?_, ?_, h.stored, by rintro ⟨⟩⟩
    · simp only [if_pos hb]
      exact h.lagging.setGc _ (h.batch hp) rfl id
    · simp only [if_pos hb]
      exact ⟨h.unmoved.entries, h.unmoved.watermk, h.unmoved.sequencer⟩
  | allDeletionCompleted hall =>
    refine ⟨?_, ?_, h.stored, by rintro ⟨⟩⟩
    · simp only [if_pos hb]
      exact h.lagging.setGc _ (by rintro rid ⟨⟩) rfl id
    · simp only [if_pos hb]
      exact ⟨h.unmoved.entries, h.unmoved.watermk, h.unmoved.sequencer⟩
  | updateGlobalIdxDone hp => exact ⟨h.lagging, h.unmoved, h.stored, by rintro ⟨⟩⟩
  | append b' e he ht hne =>
    rcases eq_or_ne b b' with rfl | hbb
    · exact absurd he (hno e)
    · refine ⟨?_, ?_, h.stored, h.batch⟩
      · rw [set_backup_of_ne w hbb]
        exact h.lagging
      · rw [set_backup_of_ne w hbb]
        exact h.unmoved
  | step b' hs =>
    rcases eq_or_ne b b' with rfl | hbb
    · obtain ⟨hlag, hun⟩ := h.lagging.step hs
      refine ⟨?_, ?_, h.stored, h.batch⟩
      · rw [Backups.set_backup]
        exact hlag
      · rw [Backups.set_backup]
        exact h.unmoved.trans hun
    · refine ⟨?_, ?_, h.stored, h.batch⟩
      · rw [set_backup_of_ne w hbb]
        exact h.lagging
      · rw [set_backup_of_ne w hbb]
        exact h.unmoved

theorem Sound.watermk_le (h : Sound c n x t w) (hb : b < n) :
    (w.backup b).server.log.orderedWatermk ≤ (w.backup b).server.log.sequencer :=
  (h.server b hb).inv.contents.settled.le_sequencer (h.server b hb).inv.contents.tiled

/-! ### Runs -/

/-- A step of anything in the service. -/
def AnyStep {σ : Type} (A : Lts Label σ) (c : Config) (n : ℕ) (y y' : (σ × Clients) × Backups) : Prop :=
  ∃ a, (withBackups A c n).step a y y'

/-- Whatever happens, the ring of the backup stays as it is, and a call that returns is one for an entry that the
backup has already. -/
def StallsFor {σ : Type} (A : Lts Label σ) (c : Config) (n b : ℕ) (y : (σ × Clients) × Backups) : Prop :=
  ∀ y', ReflTransGen (AnyStep A c n) y y' → Unmoved (y.2.backup b) (y'.2.backup b) ∧
    (∀ e, ¬ CanAppend (asBackup c) (y'.2.backup b).server e) ∧
    ∀ e, Mark.returned e ∈ y'.1.2.hist → e.reqId ∈ ids (y.2.backup b).server.entries

variable {σ : Type} {A : Lts Label σ} {R : σ → SharedLog → Prop}

theorem stallsFor_of_simulation (stored : σ → List (List LogEntry)) (phase : σ → Phase)
    (hsim : Simulation A Spec.lts R) (hst : ∀ s x, R s x → x.stored = stored s)
    (hph : ∀ s x, R s x → x.phase = phase s) {y : (σ × Clients) × Backups}
    (h : (withBackups A c n).Reachable y) (hb : b < n) (hp : phase y.1.1 = .free)
    (hstall : Stalled c (stored y.1.1) (y.2.backup b)) : StallsFor A c n b y := by
  have hall := (hsim.sync (LazyLogCli.lts n) Appends.link fun b => ∀ e, b ≠ .append .primary e).sync
    (backupsLts c n) link (· = .tau)
  obtain ⟨⟨⟨x, t⟩, w⟩, hx, ⟨hR, ht⟩, hw⟩ := hall.reachable h
  obtain rfl : y.2 = w := hw
  have hfree : x.phase = .free := (hph _ _ hR).trans hp
  have hlag := (sound_of_reachable hx).lagging hb hfree (by rw [hst _ _ hR]; exact hstall.toBehind)
  have hle := (sound_of_reachable hx).watermk_le hb
  have hfull := hstall.full
  have hstuck : Stuck (· ∈ storedIds x.stored) (y.2.backup b) b x y.2 :=
    ⟨hlag, ⟨rfl, rfl, rfl⟩, fun _ => id, by rw [hfree]; rintro ⟨⟩⟩
  generalize (· ∈ storedIds x.stored) = P at hstuck
  -- the run is one of the abstract service, which stays stuck
  have hrun : ∀ y', ReflTransGen (AnyStep A c n) y y' → ∃ z' : (SharedLog × Clients) × Backups,
      (withBackups Spec.lts c n).Reachable z' ∧ ((R y'.1.1 z'.1.1 ∧ y'.1.2 = z'.1.2) ∧ y'.2 = z'.2) ∧
        Stuck P (y.2.backup b) b z'.1.1 z'.2 := by
    intro y' hrun
    induction hrun with
    | refl => exact ⟨_, hx, ⟨⟨hR, ht⟩, rfl⟩, hstuck⟩
    | tail _ hs ih =>
      obtain ⟨a, hs⟩ := hs
      obtain ⟨⟨⟨x₁, t₁⟩, w₁⟩, hz, hR₁, hst₁⟩ := ih
      obtain ⟨⟨⟨x₂, t₂⟩, w₂⟩, hs₂, hR₂⟩ := hall.step hR₁ hs
      have hz₂ := hz.next hs₂
      refine ⟨_, hz₂, hR₂, hst₁.step hb (fun e => ?_) hz₂.fst (ServiceStep.of_step hs₂)⟩
      refine not_canAppend ?_ ?_
      · rw [hst₁.unmoved.watermk, hst₁.unmoved.sequencer]
        exact hle
      · rw [hst₁.unmoved.watermk, hst₁.unmoved.sequencer]
        exact hfull
  intro y' hy'
  obtain ⟨⟨⟨x', t'⟩, w'⟩, hz, ⟨⟨-, ht'⟩, hw'⟩, hstuck'⟩ := hrun y' hy'
  obtain rfl : y'.1.2 = t' := ht'
  obtain rfl : y'.2 = w' := hw'
  refine ⟨hstuck'.unmoved, fun e => not_canAppend ?_ ?_, fun e he => ?_⟩
  · exact (sound_of_reachable hz).watermk_le hb
  · rw [hstuck'.unmoved.watermk, hstuck'.unmoved.sequencer]
    exact hfull
  · have hmem := ((clients_of_reachable hz.fst).returned he).2 (.backup b) hb
    have horder := ((sound_of_reachable hz).server b hb).order
    rw [← hstuck'.unmoved.entries, horder]
    exact List.mem_map.mpr ⟨_, hmem, rfl⟩

/-! ### How a backup stalls -/

/-- A collection that finds nothing in the ring leaves it as it is. -/
theorem delEntriesBackup_of_lt {names : List ReqID} {l : FlatLog} (h : (noteMaxSeq names l).2 < l.orderedWatermk) :
    ∃ l' r, Collections.delEntriesBackup c names l = some (l', r) ∧ l'.orderedWatermk = l.orderedWatermk ∧
      l'.sequencer = l.sequencer := by
  obtain ⟨m, hm, -, -⟩ := noteMaxSeq_cases names l
  have hw : (delPending names (noteMaxSeq names l).1).1.orderedWatermk = l.orderedWatermk := by
    rw [hm]
    rfl
  unfold Collections.delEntriesBackup
  simp only
  rw [hw, Collections.delLoop, if_neg (not_le.mpr h)]
  refine ⟨_, _, rfl, rfl, ?_⟩
  rw [hm]
  rfl

theorem lt_watermk_of_call {names : List ReqID} {l l' : FlatLog} {r : ℕ}
    (h : Collections.delEntriesBackup c names l = some (l', r)) : (noteMaxSeq names l).2 < l'.orderedWatermk := by
  unfold Collections.delEntriesBackup at h
  obtain ⟨⟨l₁, nDel, q⟩, hloop, heq⟩ := Option.map_eq_some_iff.mp h
  obtain ⟨rfl, rfl⟩ := Prod.mk.injEq _ _ _ _ ▸ heq
  exact (Collections.delLoop_steps [] hloop).1

theorem flatMap_nextBatch {s : FetchAndStore.Loop} {g st : ℕ} (h : FetchAndStore.Inv c s g st) :
    (s.stored ++ [nextBatch s]).flatMap List.dropLast = recs s.primary := by
  have hold : s.stored.flatMap List.dropLast = (recs s.primary).take st := by
    simpa using h.stored.flatMap_dropLast
  unfold nextBatch
  rw [length_stored h, List.flatMap_append, List.flatMap_singleton, dropLast_batch, hold, ← List.length_drop,
    List.take_length, List.take_append_drop]

theorem exists_sound {m : ℕ} {s : FetchAndStore.Loop}
    (h : (withBackups (FetchAndStore.lts c m) c n).Reachable ((s, t), w)) :
    ∃ x, Sound c n x t w ∧ x.stored = s.stored ∧ x.phase = s.pc.phase ∧ (storedIds s.stored).Nodup := by
  have hall := ((FetchAndStore.simulation c m).sync (LazyLogCli.lts n) Appends.link
    fun b => ∀ e, b ≠ .append .primary e).sync (backupsLts c n) link (· = .tau)
  obtain ⟨⟨⟨x, t'⟩, w'⟩, hx, ⟨⟨g, st, -, rfl⟩, rfl⟩, rfl⟩ := hall.reachable h
  exact ⟨_, sound_of_reachable hx, rfl, rfl, storedIds_nodup hx.fst⟩

/-- `j` clients have appended an entry each. All of them are stored, and the backup has collected only the first. -/
structure Late (c : Config) (j : ℕ) (s : FetchAndStore.Loop) (t : Clients) (w : Backups) : Prop where
  idle : Idle c (fun _ _ => True) ((s, t), w)
  pc : s.pc = .idle
  all : s.stored.flatMap List.dropLast = recs s.primary
  fresh : ∀ id : UInt64, j < id.toNat → t.clients id = ⟨0, none⟩
  primary : s.primary.log.sequencer = 32 * j
  moved : 0 < (w.backup 0).server.log.orderedWatermk
  watermk_le : (w.backup 0).server.log.orderedWatermk ≤ 32
  sequencer : (w.backup 0).server.log.sequencer = 32 * j
  ordered : ∀ u ∈ (w.backup 0).server.slots, u.e.reqId ∈ storedIds s.stored

theorem exists_late_one (c : Config) : ∃ s t w, Late c 1 s t w := by
  have hG : AtRequests fun _ _ => True := fun _ _ _ => trivial
  have hcan := canAppend_zeroed c 1 0
  have hcan' := canAppend_zeroed (asBackup c) 1 0
  obtain ⟨t₁, h₁, ht₁⟩ := (idle_start c fun _ _ => True).call hG 1 rfl hcan hcan'
  have hrecs := recs_append c ⟨.zeroed, []⟩ (entry 1 0)
  have hinv := (DelEntries.Inv.start (asBackup c) fun _ => True).append_returned hcan'
  obtain ⟨g, st, hloop⟩ := exists_inv h₁.1
  have hflat := flatMap_nextBatch hloop
  obtain ⟨s₂, idx, h₂, hpc₂, hp₂, hst₂⟩ := h₁.order hG rfl (by simp [hrecs])
  rw [← hst₂] at hflat
  obtain ⟨k, m, l, r, -, -, hcall, hlseq, -⟩ := Collections.exists_call hinv (List.cons_ne_nil _ _)
    (processFetchedEntries false (nextBatch ⟨append c ⟨.zeroed, []⟩ (entry 1 0), fun _ => 0, .idle, []⟩) []).2
  obtain ⟨nDel, h₃⟩ := Runs.reachable_collect h₂ rfl rfl hcall fun _ _ _ => trivial
  obtain ⟨s₄, w₄, h₄, hpc₄, hst₄, hrecs₄, hseq₄, hw₄⟩ := reachable_close hG h₃ hpc₂ (by rw [Backups.set_backup])
  rw [Backups.set_backup] at hw₄
  have hl : l.sequencer = 32 := hlseq.trans ((append_counters ..).1.trans (by rw [getSize_entry]; rfl))
  have hle := (Collections.inv_of_call hinv hcall).contents
  refine ⟨s₄, t₁, w₄, h₄, hpc₄, ?_, fun id hid => ?_, ?_, ?_, ?_, ?_, ?_⟩
  · rw [hst₄, hrecs₄, hp₂]
    exact hflat
  · rw [ht₁, Function.update_of_ne]
    rintro rfl
    exact absurd hid (by decide)
  · rw [hseq₄, hp₂]
    exact (append_counters ..).1.trans (by rw [getSize_entry]; rfl)
  · rw [hw₄]
    exact (Nat.zero_le _).trans_lt (lt_watermk_of_call hcall)
  · rw [hw₄]
    exact (hle.settled.le_sequencer hle.tiled).trans_eq hl
  · rw [hw₄]
    exact hl
  · intro u hu
    rw [hw₄] at hu
    obtain rfl : u = _ := List.mem_singleton.mp hu
    unfold storedIds
    rw [hst₄, hflat, hrecs]
    exact List.mem_singleton.mpr rfl

theorem Late.canAppend {j : ℕ} {s : FetchAndStore.Loop} (h : Late c j s t w) (hj : j < 2 ^ 31) (id : UInt64) :
    CanAppend c s.primary (entry id 0) := by
  obtain ⟨g, st, hinv⟩ := exists_inv h.idle.1
  have hg : g = st := by
    have hok := hinv.pcOk
    unfold FetchAndStore.PcOk at hok
    rwa [h.pc] at hok
  have hmark : s.primary.log.orderedIdxWatermk = (recs s.primary).length := by
    rw [hinv.primary.idxMark, hg, ← length_stored hinv, h.all]
  refine hinv.primary.canAppend_of_ordered hmark
    ⟨(admissible_empty id 0).sized, (admissible_empty id 0).fits⟩ rfl ?_
  rw [h.primary, getSize_entry]
  omega

/-- **The next client's entry comes to the backup after it has been collected.** -/
theorem Late.next {j : ℕ} {s : FetchAndStore.Loop} (h : Late c j s t w)
    (hj : 32 * (j + 1) + 2 ^ 18 ≤ c.rgSize) : ∃ s' t' w', Late c (j + 1) s' t' w' := by
  have hG : AtRequests fun _ _ => True := fun _ _ _ => trivial
  have hrg := c.le_rgSize
  have hrg' := c.rgSize_lt
  obtain ⟨id, hid⟩ : ∃ id : UInt64, id.toNat = j + 1 := ⟨.ofNat (j + 1), UInt64.toNat_ofNat_of_lt' (by
    show j + 1 < 2 ^ 64
    omega)⟩
  obtain ⟨t₁, h₁, ht₁⟩ := h.idle.call_primary hG id (h.fresh id (by omega)) (h.canAppend (by omega) id)
  have hrecs := recs_append c s.primary (entry id 0)
  obtain ⟨g, st, hloop⟩ := exists_inv h₁.1
  have hflat := flatMap_nextBatch hloop
  obtain ⟨s₂, idx, h₂, hpc₂, hp₂, hst₂⟩ := h₁.order hG h.pc (by
    simp only [h.all, hrecs, List.length_append, List.length_singleton]
    omega)
  rw [← hst₂] at hflat
  -- the collection names the new request, which the backup does not have
  obtain ⟨x, hsound, hxst, hxph, -⟩ := exists_sound h.idle.1.of_guard
  have hlag := hsound.lagging Nat.one_pos (by rw [hxph, h.pc]; rfl) ⟨h.moved, fun u hu _ => by
    rw [hxst]
    exact h.ordered u hu⟩
  obtain ⟨-, -, -, -, hnd⟩ := exists_sound h₂.of_guard
  rw [hst₂, storedIds_concat] at hnd
  have hlt := hlag.noteMaxSeq_lt fun rid hrid hold => by
    rw [hxst] at hold
    exact List.disjoint_of_nodup_append hnd hold (mem_processFetchedEntries hrid)
  obtain ⟨l, r, hcall, hlw, hls⟩ := delEntriesBackup_of_lt (c := asBackup c) hlt
  obtain ⟨nDel, h₃⟩ := Runs.reachable_collect h₂ rfl rfl hcall fun _ _ _ => trivial
  obtain ⟨s₄, w₄, h₄, hpc₄, hst₄, hrecs₄, hseq₄, hw₄⟩ := reachable_close hG h₃ hpc₂ (by rw [Backups.set_backup])
  rw [Backups.set_backup] at hw₄
  have hlw₄ : (w₄.backup 0).server.log.orderedWatermk = (w.backup 0).server.log.orderedWatermk := by
    rw [hw₄]
    exact hlw
  have hls₄ : (w₄.backup 0).server.log.sequencer = 32 * j := by
    rw [hw₄]
    exact hls.trans h.sequencer
  have hmoved := h.moved
  have hle := hsound.watermk_le Nat.one_pos
  rw [h.sequencer] at hle
  obtain ⟨t₅, h₅, ht₅⟩ := h₄.arrive hG id (by rw [ht₁, Function.update_self]) rfl (by
    refine ⟨⟨(admissible_empty id 0).sized, (admissible_empty id 0).fits⟩, rfl, ?_, ?_⟩
    · have heq : (asBackup c).rgSize = c.rgSize := rfl
      rw [getSize_entry, hls₄, hlw₄, heq, Space.exits_iff_room hrg (by omega) hle (by omega)]
      omega
    · rw [getSize_entry, hls₄]
      omega)
  obtain ⟨hseq₅, hwm₅, -⟩ := append_counters (asBackup c) (w₄.backup 0).server (entry id 0)
  refine ⟨s₄, t₅, _, h₅, hpc₄, ?_, fun id' hid' => ?_, ?_, ?_, ?_, ?_, ?_⟩
  · rw [hst₄, hrecs₄, hp₂]
    exact hflat
  · have hne : id' ≠ id := by
      rintro rfl
      omega
    rw [ht₅, ht₁, Function.update_of_ne hne, Function.update_of_ne hne]
    exact h.fresh id' (by omega)
  · rw [hseq₄, hp₂]
    refine (append_counters ..).1.trans ?_
    rw [getSize_entry, h.primary]
    omega
  · rw [Backups.set_backup, hwm₅, hlw₄]
    exact hmoved
  · rw [Backups.set_backup, hwm₅, hlw₄]
    exact h.watermk_le
  · rw [Backups.set_backup, hseq₅, hls₄, getSize_entry]
    omega
  · intro u hu
    rw [Backups.set_backup] at hu
    rcases List.mem_append.mp (show u ∈ (w₄.backup 0).server.slots ++ _ from hu) with hu | hu
    · rw [hw₄] at hu
      rw [hst₄, hst₂, storedIds_concat]
      exact List.mem_append_left _ (h.ordered u hu)
    · obtain rfl : u = _ := List.mem_singleton.mp hu
      unfold storedIds
      rw [hst₄, hflat, hrecs]
      exact List.mem_map.mpr ⟨_, List.mem_append_right _ (List.mem_singleton.mpr rfl), rfl⟩

/-- **The service can stall**, whatever the size of the ring. -/
theorem exists_stalled (c : Config) : ∃ y, (withBackups (FetchAndStore.lts c 0) c 1).Reachable y ∧
    y.1.1.pc.phase = .free ∧ Stalled c y.1.1.stored (y.2.backup 0) := by
  have hlate : ∀ j, 32 * (j + 1) + 2 ^ 18 ≤ c.rgSize → ∃ s t w, Late c (j + 1) s t w := by
    intro j
    induction j with
    | zero => exact fun _ => exists_late_one c
    | succ j ih =>
      intro hj
      obtain ⟨s, t, w, h⟩ := ih (by omega)
      exact h.next hj
  obtain ⟨j, hj⟩ : ∃ j, 32 * (j + 1) + 2 ^ 18 = c.rgSize := by
    refine ⟨(c.rgSize - 2 ^ 18) / 32 - 1, ?_⟩
    have hpos := c.mrSizeM_pos
    unfold Config.rgSize
    omega
  obtain ⟨s, t, w, h⟩ := hlate j hj.le
  refine ⟨((s, t), w), h.idle.1.of_guard, by simp only [h.pc]; rfl, ⟨⟨h.moved, fun u hu _ => h.ordered u hu⟩, ?_⟩⟩
  have hle := h.watermk_le
  have hseq := h.sequencer
  have hmin : minEntrySize = 32 := rfl
  simp only
  omega

/-! ### The whole service -/

/-- **A backup whose ring is full of ordered entries stalls the service for good**, in both modes of the consensus
log: whatever the clients, the consensus log and the backups do from then on, the ring stays as it is, the backup
takes no entry, and no call of a client returns but for the entries that the backup has. -/
theorem full_backup_stalls_the_service (c : Config) (maxFetchSize n b : ℕ) (hb : b < n) :
    (∀ y, (withBackups (FetchAndStore.lts c maxFetchSize) c n).Reachable y → y.1.1.pc.phase = .free →
      Stalled c y.1.1.stored (y.2.backup b) → StallsFor (FetchAndStore.lts c maxFetchSize) c n b y) ∧
    ∀ y, (withBackups (Pipeline.lts c maxFetchSize) c n).Reachable y → y.1.1.storePc.phase = .free →
      Stalled c y.1.1.stored (y.2.backup b) → StallsFor (Pipeline.lts c maxFetchSize) c n b y := by
  constructor
  · intro y h hp hst
    refine stallsFor_of_simulation FetchAndStore.Loop.stored (fun s => s.pc.phase)
      (FetchAndStore.simulation c maxFetchSize) ?_ ?_ h hb hp hst
    · rintro s x ⟨g, st, -, rfl⟩
      rfl
    · rintro s x ⟨g, st, -, rfl⟩
      rfl
  · intro y h hp hst
    refine stallsFor_of_simulation Pipeline.Sys.stored (fun s => s.storePc.phase)
      (Pipeline.simulation c maxFetchSize) ?_ ?_ h hb hp hst
    · rintro s x ⟨g, st, f, -, rfl⟩
      rfl
    · rintro s x ⟨g, st, f, -, rfl⟩
      rfl

/-- With the smallest ring and one backup. -/
theorem full_backup_stalls_the_service_small : ∃ y,
    (withBackups (FetchAndStore.lts .smallPrimary 0) .smallPrimary 1).Reachable y ∧ y.1.1.pc.phase = .free ∧
      Stalled .smallPrimary y.1.1.stored (y.2.backup 0) ∧
      StallsFor (FetchAndStore.lts .smallPrimary 0) .smallPrimary 1 0 y := by
  obtain ⟨y, h, hp, hst⟩ := exists_stalled .smallPrimary
  exact ⟨y, h, hp, hst, (full_backup_stalls_the_service .smallPrimary 0 1 0 Nat.one_pos).1 y h hp hst⟩

end LazyLog.Service.Stall
