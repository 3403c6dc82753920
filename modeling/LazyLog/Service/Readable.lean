import LazyLog.ConsLog.Drain
import LazyLog.Service.Linear
import LazyLog.Storage.Completion

/-! # What is acknowledged can be read

A client gets its answer when the servers of the sequencing layer have the entry, before it has a place in the
storage; a reader waits until the entry is there, on every server of its shard, and the index has been told to the
shards. From every state of the service the servers can get there by themselves, whatever they are doing: in both
modes the consensus log orders all of the log (`Drains`), and each of its calls comes to an end (`Completion`). A call
of `AppendEntry` is one step, and the backups of the sequencing layer answer the collections. -/

namespace LazyLog.Service.Readable

open Relation (ReflTransGen)
open LazyLog.Lib.Bytes LazyLog.Lib.Transition LazyLog.Rpc.Entry LazyLog.DurLog.Flat LazyLog.DurLog.Ring
open LazyLog.DurLog.FlatCli LazyLog.ConsLog LazyLog.ConsLog.Batches LazyLog.ConsLog.Link
open LazyLog.ConsLog.Progress (Fits OwnStep Drains)
open LazyLog.ConsLog.Spec (SharedLog)
open LazyLog.Client LazyLog.Client.LazyLogCli
open LazyLog.Storage LazyLog.Storage.ShardServer LazyLog.Storage.Replication LazyLog.Storage.Reads
open LazyLog.Storage.NaiveBackend (shardStripes_read)
open LazyLog.Storage.Store (Cluster sendRound)
open LazyLog.Service.Tail (TailOk withStorage)
open LazyLog.Service.Appends (content)
open LazyLog.Service.Linear (service readData)

variable {c : Config} {maxFetchSize n : ℕ} {k : Striping} {r : ℕ → ℕ} {x x' : SharedLog} {s s' : Cluster}

/-! ### The calls in progress -/

/-- The index that a shard has, or is about to get, is that of the last entry before `m`. -/
def Told (m : ℕ) (v : Shard) : Prop :=
  match v.updating with
  | some idx => idx.toNat + 1 = m
  | none => v.primary.globalIndex.toNat + 1 = m

/-- What the storage is doing for the shared log, at each phase. -/
structure CallOk (k : Striping) (x : SharedLog) (s : Cluster) : Prop where
  storing : x.phase = .storing → s.pc ≠ .idle
  updating : x.phase = .updating → s.updating = true ∧ ∀ sh < k.shardNum, Told x.given (s.shards sh)
  free : x.phase = .free → 0 < x.given → ∀ sh < k.shardNum,
    (s.shards sh).updating = none ∧ Told x.given (s.shards sh)

theorem index_of_shardStep {m : ℕ} {v v' : Shard} (h : ShardStep k m v v') :
    (v'.updating = v.updating ∧ v'.primary.globalIndex = v.primary.globalIndex) ∨
      ∃ idx, v.updating = some idx ∧ v'.updating = none ∧ v'.primary.globalIndex = idx := by
  cases h with
  | replicate | repAdd | finish => exact Or.inl ⟨rfl, rfl⟩
  | add => exact Or.inl ⟨rfl, (storeBatch_indices _ _ _ _ _).2⟩
  | updateGlobal hu => exact Or.inr ⟨_, hu, rfl, rfl⟩
  | readLoad base rd hfree =>
    refine Or.inl ⟨rfl, ?_⟩
    unfold ShardServer.readLoad
    split
    · rfl
    · exact (loadFromDiskToCache_indices _ _ _ _).2

theorem Told.congr {m : ℕ} {v v' : Shard} (h : Told m v) (h1 : v'.updating = v.updating)
    (h2 : v'.primary.globalIndex = v.primary.globalIndex) : Told m v' := by
  unfold Told at h ⊢
  rw [h1, h2]
  exact h

theorem Told.step {m j : ℕ} {v v' : Shard} (h : Told m v) (hs : ShardStep k j v v') : Told m v' := by
  rcases index_of_shardStep hs with ⟨h1, h2⟩ | ⟨idx, h1, h2, h3⟩
  · exact h.congr h1 h2
  · unfold Told at h ⊢
    rw [h1] at h
    rw [h2, h3]
    exact h

theorem sendRound_index (k : Striping) (es : List LogEntry) (round : ℕ × ℕ) (bufs : ℕ → Mem)
    (shards : ℕ → Shard) (sh : ℕ) : (sendRound k es round bufs shards sh).updating = (shards sh).updating ∧
      (sendRound k es round bufs shards sh).primary = (shards sh).primary := by
  unfold sendRound
  split <;> exact ⟨rfl, rfl⟩

theorem CallOk.right (h : CallOk k x s) (hs : Store.Step k r .tau s s') : CallOk k x s' := by
  cases hs with
  | send bufs hpc =>
    have hidx := sendRound_index k
    refine ⟨fun _ => by rintro ⟨⟩, fun hp => ⟨(h.updating hp).1, fun sh hsh => ?_⟩, fun hp hg sh hsh => ?_⟩
    · obtain ⟨h1, h2⟩ := hidx _ _ bufs s.shards sh
      exact ((h.updating hp).2 sh hsh).congr h1 (by rw [h2])
    · obtain ⟨h1, h2⟩ := hidx _ _ bufs s.shards sh
      obtain ⟨hnone, htold⟩ := h.free hp hg sh hsh
      exact ⟨h1.trans hnone, htold.congr h1 (by rw [h2])⟩
  | wait hpc hall =>
    refine ⟨fun _ => by rintro ⟨⟩, fun hp => ⟨(h.updating hp).1, fun sh hsh => ?_⟩, fun hp hg sh hsh => ?_⟩
    · exact ((h.updating hp).2 sh hsh).congr rfl rfl
    · obtain ⟨hnone, htold⟩ := h.free hp hg sh hsh
      exact ⟨hnone, htold.congr rfl rfl⟩
  | @shard _ sh' v hsh' hs =>
    refine ⟨h.storing, fun hp => ⟨(h.updating hp).1, fun sh hsh => ?_⟩, fun hp hg sh hsh => ?_⟩
    · have hold := (h.updating hp).2 sh hsh
      simp only
      rcases eq_or_ne sh sh' with rfl | hne
      · rw [Function.update_self]
        exact hold.step hs
      · rw [Function.update_of_ne hne]
        exact hold
    · have hold := h.free hp hg sh hsh
      simp only
      rcases eq_or_ne sh sh' with rfl | hne
      · rw [Function.update_self]
        refine ⟨?_, hold.2.step hs⟩
        rcases index_of_shardStep hs with ⟨h1, -⟩ | ⟨idx, h1, -, -⟩
        · exact h1.trans hold.1
        · rw [hold.1] at h1
          cases h1
      · rw [Function.update_of_ne hne]
        exact hold

theorem CallOk.left {a : Label} (h : CallOk k x s) (hs : Spec.Step a x x') (hl : Tail.link a = none) :
    CallOk k x' s := by
  cases hs with
  | tau => exact h
  | append hrec hlt => exact ⟨h.storing, h.updating, h.free⟩
  | mark hp => exact ⟨h.storing, h.updating, h.free⟩
  | appendBatch | appendBatchDone | updateGlobalIdx | updateGlobalIdxDone => cases hl

theorem CallOk.both {a : Label} {b : Store.Event} (h : CallOk k x s) (hs : Spec.Step a x x')
    (hl : Tail.link a = some b) (he : Store.Step k r b s s') : CallOk k x' s' := by
  cases hs with
  | tau | append | mark => cases hl
  | appendBatch hp hn hle =>
    cases hl
    cases he with
    | appendBatch hpc hb => exact ⟨fun _ => by rintro ⟨⟩, nofun, nofun⟩
  | appendBatchDone hp =>
    cases hl
    exact ⟨nofun, nofun, nofun⟩
  | updateGlobalIdx hp ho hidx =>
    cases hl
    cases he with
    | updateGlobalIdx _ hu => exact ⟨nofun, fun _ => ⟨rfl, fun _ _ => hidx⟩, nofun⟩
  | updateGlobalIdxDone hp =>
    cases hl
    cases he with
    | updateGlobalIdxDone hu hall =>
      exact ⟨nofun, nofun, fun _ _ sh hsh => ⟨hall sh hsh, (h.updating hp).2 sh hsh⟩⟩

theorem callOk_of_reachable (h : (withStorage Spec.lts k r).Reachable (x, s)) : CallOk k x s := by
  refine h.invariant (P := fun y => CallOk k y.1 y.2) ?_ ?_
  · rintro ⟨x, s⟩ ⟨hx, -⟩
    obtain rfl : x = _ := hx
    exact ⟨nofun, nofun, fun _ hg => absurd hg (Nat.lt_irrefl 0)⟩
  · rintro b y y' - ih hs
    cases hs with
    | left hl hs => exact ih.left hs hl
    | both hl hs he => exact ih.both hs hl he
    | right ho he =>
      obtain rfl := ho
      exact ih.right he

/-! ### The servers go on by themselves -/

/-- A step of the servers: no client takes part. -/
def Own : (Label ⊕ Act) ⊕ Store.Event → Prop
  | .inl (.inl a) => ∀ e, a ≠ .append e
  | .inl (.inr _) => False
  | .inr _ => True

variable {σ : Type} {A : Lts Label σ} {prim : σ → State} {R : σ → SharedLog → Prop}

/-- A step of the consensus log or of the storage. -/
def ServerStep (A : Lts Label σ) (n : ℕ) (k : Striping) (r : ℕ → ℕ) (y y' : (σ × Clients) × Cluster) : Prop :=
  ∃ a, (service A n k r).step a y y' ∧ Own a

variable {y y' : (σ × Clients) × Cluster} {l l' : σ} {t : Clients}

theorem reachable_of_server (h : (service A n k r).Reachable y) (hs : ReflTransGen (ServerStep A n k r) y y') :
    (service A n k r).Reachable y' := by
  induction hs with
  | refl => exact h
  | tail _ hs ih =>
    obtain ⟨a, hs, -⟩ := hs
    exact ih.next hs

theorem run_of_tau (hs : ReflTransGen (Completion.Tau k r) s s') :
    ReflTransGen (ServerStep A n k r) ((l, t), s) ((l, t), s') := by
  induction hs with
  | refl => exact .refl
  | tail _ hs ih => exact ih.tail ⟨.inr .tau, .right rfl hs, trivial⟩

theorem exists_spec (hsim : Simulation A Spec.lts R) (h : (service A n k r).Reachable ((l, t), s)) :
    ∃ x f u, R l x ∧ Spec.Inv x ∧ TailOk k r x s f u ∧ CallOk k x s := by
  obtain ⟨⟨x, s'⟩, hx, hR, heq⟩ := (hsim.sync _ _ _).reachable (Linear.reachable_withStorage h)
  obtain rfl : s = s' := heq
  obtain ⟨hspec, f, u, hok⟩ := Tail.tailOk_of_reachable hx
  exact ⟨x, f, u, hR, hspec, hok, callOk_of_reachable hx⟩

theorem serverStep_left {a : Label} (hs : A.step a l l') (ha : ∀ e, a ≠ .append e) (hl : Tail.link a = none) :
    ServerStep A n k r ((l, t), s) ((l', t), s) := by
  refine ⟨.inl (.inl a), .left hl (.left ?_ hs), ha⟩
  cases a with
  | append e => exact absurd rfl (ha e)
  | _ => rfl

theorem serverStep_both {a : Label} {b : Store.Event} (hs : A.step a l l') (ha : ∀ e, a ≠ .append e)
    (hl : Tail.link a = some b) (he : Store.Step k r b s s') :
    ServerStep A n k r ((l, t), s) ((l', t), s') := by
  refine ⟨.inl (.inl a), .both hl (.left ?_ hs) he, ha⟩
  cases a with
  | append e => exact absurd rfl (ha e)
  | _ => rfl

/-- **A step of the consensus log can be taken**, after steps of the storage for it to return from a call. -/
theorem exists_server_run (hsim : Simulation A Spec.lts R) (h : (service A n k r).Reachable ((l, t), s))
    (hs : OwnStep A l l') : ∃ s', ReflTransGen (ServerStep A n k r) ((l, t), s) ((l', t), s') := by
  obtain ⟨a, hs, ha⟩ := hs
  obtain ⟨x, f, u, hR, hspec, hok, hcall⟩ := exists_spec hsim h
  obtain ⟨x', hs', -⟩ := hsim.step hR hs
  cases hs' with
  | tau => exact ⟨s, .single (serverStep_left hs ha rfl)⟩
  | append hx hlt => exact absurd rfl (ha _)
  | mark hp => exact ⟨s, .single (serverStep_left hs ha rfl)⟩
  | appendBatch hp hn hle =>
    exact ⟨_, .single (serverStep_both hs ha rfl
      (.appendBatch (hok.idle (by rw [hp]; rintro ⟨⟩)) (hok.batch hspec hn hle)))⟩
  | appendBatchDone hp =>
    obtain ⟨s₁, es, hrun, hpc⟩ := Completion.append_completes hok.inv (hcall.storing hp)
    exact ⟨_, (run_of_tau hrun).tail (serverStep_both hs ha rfl (.appendBatchDone hpc))⟩
  | updateGlobalIdx hp ho hidx =>
    exact ⟨_, .single (serverStep_both hs ha rfl (.updateGlobalIdx _ (hok.free (by rw [hp]; rintro ⟨⟩))))⟩
  | updateGlobalIdxDone hp =>
    obtain ⟨s₁, hrun, hup, hall⟩ := Completion.update_completes k r s
    exact ⟨_, (run_of_tau hrun).tail
      (serverStep_both hs ha rfl (.updateGlobalIdxDone (hup.trans (hcall.updating hp).1) hall))⟩

/-- **What the consensus log can do alone, it can do with the storage.** -/
theorem exists_server_run_of_own (hsim : Simulation A Spec.lts R) (h : (service A n k r).Reachable ((l, t), s))
    (hs : ReflTransGen (OwnStep A) l l') :
    ∃ s', ReflTransGen (ServerStep A n k r) ((l, t), s) ((l', t), s') := by
  induction hs with
  | refl => exact ⟨s, .refl⟩
  | tail _ hs ih =>
    obtain ⟨s₁, hrun⟩ := ih
    obtain ⟨s', hrun'⟩ := exists_server_run hsim (reachable_of_server h hrun) hs
    exact ⟨s', hrun.trans hrun'⟩

/-! ### The reads -/

/-- The server of an index answers every read with the data. -/
def Answers (k : Striping) (s : Cluster) (idx : UInt64) (data : List UInt8) : Prop :=
  ∀ resp, ∃ response, readEntry k (s.shards (idx.toNat % k.shardNum)).primary idx resp = some response ∧
    ∀ buf, readData response buf = data

/-- **Everything ordered can be read** when the consensus log has no call in progress. -/
theorem read_of_free {f u : ℕ} (hspec : Spec.Inv x) (hok : TailOk k r x s f u) (hcall : CallOk k x s)
    (hphase : x.phase = .free) {i : ℕ} (hi : i < x.given) {e : LogEntry} (he : x.log[i]? = some e) (resp : Mem) :
    readEntry k (s.shards ((UInt64.ofNat i).toNat % k.shardNum)).primary (UInt64.ofNat i) resp =
      some (writeBytes resp 0 (encode e), entrySize e) := by
  have hf : f = x.given := hok.given_eq hspec (by rw [hphase]; rintro ⟨⟩)
  have hlen : s.log.length = x.given := hok.length_eq hspec
  have hst := hspec.given_le
  have hle := hspec.length_le
  have hfu := hok.inv.le
  have hu := hok.inv.le_length
  have hidx : (UInt64.ofNat i).toNat = i := toNat_ofNat (by omega)
  have hsh := Nat.mod_lt i k.shard_pos
  obtain ⟨z, hz, hv⟩ := (hok.inv.shards _ hsh).primary
  obtain ⟨w, hw, hrep, -⟩ := (hok.inv.shards _ hsh).replicated hfu
  obtain ⟨hnone, htold⟩ := hcall.free hphase (by omega) _ hsh
  unfold Told at htold
  rw [hnone] at htold
  have hglobal : (s.shards (i % k.shardNum)).primary.globalIndex.toNat + 1 = x.given := htold
  have hget : s.log[i]? = some e := by
    rw [hok.log, List.getElem?_take_of_lt hi]
    exact he
  have hread : readEntry k (s.shards (i % k.shardNum)).primary (UInt64.ofNat i) resp =
      some (writeBytes resp 0 (encode e), entrySize e) ↔ _ := hv.readEntry_eq_some
  have hstripe := shardStripes_read (k := k) (show z ≤ s.log.length by omega) (show i < z by omega)
  rw [hidx] at hread ⊢
  exact hread.mpr ⟨e, hstripe.trans hget, hrep.le i (by omega) rfl, by omega, serializer_eq e resp 0⟩

theorem exists_recs (hsim : Simulation A Spec.lts R) (h : (service A n k r).Reachable ((l, t), s)) {e : LogEntry}
    (he : Mark.returned e ∈ t.hist) :
    ∃ (x : SharedLog) (i : ℕ) (z : LogEntry), R l x ∧ x.log[i]? = some z ∧ content z = content e := by
  obtain ⟨⟨x, t'⟩, hx, hR, heq⟩ := (hsim.sync _ _ _).reachable h.fst
  obtain rfl : t = t' := heq
  have hmem := ((Appends.clients_of_reachable hx).returned he).2 .primary trivial
  have hcontent : content e ∈ x.log.map content := by
    have hlog : x.log.map content = (t.order .primary).map content := Appends.content_of_reachable hx
    rw [hlog]
    exact List.mem_map.mpr ⟨_, hmem, rfl⟩
  obtain ⟨z, hz, hc⟩ := List.mem_map.mp hcontent
  obtain ⟨i, hi⟩ := List.mem_iff_getElem?.mp hz
  exact ⟨x, i, z, hR, hi, hc⟩

/-- The servers by themselves can get to a state in which the server of the entry's index answers with its data. -/
def BecomesReadable (A : Lts Label σ) (prim : σ → State) (n : ℕ) (k : Striping) (r : ℕ → ℕ)
    (y : (σ × Clients) × Cluster) (e : LogEntry) : Prop :=
  ∃ y', ReflTransGen (ServerStep A n k r) y y' ∧ y'.1.2 = y.1.2 ∧ ∃ (idx : UInt64) (x : LogEntry),
    (recs (prim y'.1.1))[idx.toNat]? = some x ∧ x.reqId = e.reqId ∧ Answers k y'.2 idx e.data

/-- **The servers by themselves can order all of the log**, if the consensus log can, and then each entry can be
read. -/
theorem exists_all_readable (hd : Drains c maxFetchSize A prim R) (h : (service A n k r).Reachable ((l, t), s))
    (hfit : ∀ x ∈ recs (prim l), Fits maxFetchSize x) : ∃ l' s',
      ReflTransGen (ServerStep A n k r) ((l, t), s) ((l', t), s') ∧ recs (prim l') = recs (prim l) ∧
        (prim l').log.orderedIdxWatermk = (recs (prim l)).length ∧
        ∀ (i : ℕ) (e : LogEntry), (recs (prim l))[i]? = some e → (UInt64.ofNat i).toNat = i ∧ e.Sized ∧ e.flags ≠ 0 ∧
          ∀ resp, readEntry k (s'.shards ((UInt64.ofNat i).toNat % k.shardNum)).primary (UInt64.ofNat i) resp =
            some (writeBytes resp 0 (encode e), entrySize e) := by
  obtain ⟨l', hrun, hdone⟩ := hd.drains h.fst.fst hfit
  obtain ⟨s', hrun'⟩ := exists_server_run_of_own hd.simulation h hrun
  obtain ⟨x, f, u, hR, hspec, hok, hcall⟩ := exists_spec hd.simulation (reachable_of_server h hrun')
  obtain ⟨hphase, hall⟩ := hdone x hR
  have hrecs := hd.recs_eq h.fst.fst hrun
  have hlog : x.log = recs (prim l) := (hd.log_eq hR).trans hrecs
  have hle := hspec.length_le
  refine ⟨l', s', hrun', hrecs, ?_, fun i e hi => ?_⟩
  · rw [(hd.primary hR).idxMark, hspec.ordered_eq (Or.inl hphase), hall, hlog]
  · rw [← hlog] at hi
    have hlt := (List.getElem?_eq_some_iff.mp hi).1
    have hmem := List.mem_of_getElem? hi
    exact ⟨toNat_ofNat (by omega), hspec.sized e hmem, hspec.flagged e hmem,
      read_of_free hspec hok hcall hphase (by omega) hi⟩

/-- **An append that has returned can be read** if the consensus log can order the whole log. -/
theorem becomesReadable_of_drains (hd : Drains c maxFetchSize A prim R) (h : (service A n k r).Reachable y)
    (hfit : ∀ x ∈ recs (prim y.1.1), Fits maxFetchSize x) {e : LogEntry} (he : Mark.returned e ∈ y.1.2.hist) :
    BecomesReadable A prim n k r y e := by
  obtain ⟨⟨l, t⟩, s⟩ := y
  obtain ⟨x, i, z, hR, hi, hz⟩ := exists_recs hd.simulation h he
  rw [hd.log_eq hR] at hi
  obtain ⟨l', s', hrun, hrecs, -, hread⟩ := exists_all_readable hd h hfit
  obtain ⟨hidx, hs, hf, hread⟩ := hread i z hi
  refine ⟨_, hrun, rfl, UInt64.ofNat i, z, ?_, congrArg Prod.fst hz, fun resp => ?_⟩
  · rw [hidx, hrecs]
    exact hi
  · have hcar : Linear.Carries (writeBytes resp 0 (encode z), entrySize z) z :=
      ⟨holds_writeBytes resp 0 _, rfl, hs, hf⟩
    have hdata : z.data = e.data := congrArg Prod.snd hz
    rw [← hdata]
    exact ⟨_, hread resp, hcar.readData⟩

/-- **An append that has returned can be read**, from every state of the service, by steps of the servers alone and
in both modes of the consensus log: if no entry is larger than the bound of a fetch, the consensus log, the primaries
of the shards and their backups can go on, from whatever they are doing, to a state in which the server of its index
answers with its data. -/
theorem acknowledged_append_becomes_readable (c : Config) (maxFetchSize n : ℕ) (k : Striping) (r : ℕ → ℕ) :
    (∀ y, (service (FetchAndStore.lts c maxFetchSize) n k r).Reachable y →
      (∀ x ∈ recs y.1.1.primary, Fits maxFetchSize x) → ∀ e, Mark.returned e ∈ y.1.2.hist →
        BecomesReadable (FetchAndStore.lts c maxFetchSize) FetchAndStore.Loop.primary n k r y e) ∧
    ∀ y, (service (Pipeline.lts c maxFetchSize) n k r).Reachable y →
      (∀ x ∈ recs y.1.1.primary, Fits maxFetchSize x) → ∀ e, Mark.returned e ∈ y.1.2.hist →
        BecomesReadable (Pipeline.lts c maxFetchSize) Pipeline.Sys.primary n k r y e :=
  ⟨fun _ h hfit _ he => becomesReadable_of_drains (Progress.drains c maxFetchSize) h hfit he,
    fun _ h hfit _ he => becomesReadable_of_drains (Drain.drains c maxFetchSize) h hfit he⟩

/-! ### Calls of two clients -/

theorem reachable_call (h : (service A 0 k r).Reachable ((l, t), s)) {id : UInt64} {m : ℕ} {data : List UInt8}
    (ht : t.clients id = ⟨m, none⟩) (he : Admissible (constructLogEntry id m data))
    (hs : A.step (.append { constructLogEntry id m data with flags := 0 }) l l') : ∃ t',
      (service A 0 k r).Reachable ((l', t'), s) ∧ t'.clients = Function.update t.clients id ⟨m + 1, none⟩ ∧
        t'.hist = t.hist ++ [.invoked (constructLogEntry id m data), .returned (constructLogEntry id m data)] := by
  obtain ⟨t₁, hs₁, hc₁, hh₁⟩ := invoke_step 0 ht he
  have h₁ := h.next (.left rfl (.right (by rintro e ⟨⟩) hs₁))
  obtain ⟨t₂, hs₂, hc₂, hh₂⟩ := append_step (s := t₁) (n := 0) .primary (by rw [hc₁, Function.update_self]) trivial
    rfl he.sized
  rw [hc₁, Function.update_idem] at hc₂
  have h₂ := h₁.next (.left rfl (.both rfl hs hs₂))
  obtain ⟨t₃, hs₃, hc₃, hh₃⟩ := reply_step (s := t₂) 0 .primary (by rw [hc₂, Function.update_self])
    (Function.update_self ..)
  rw [hc₂, Function.update_idem] at hc₃
  have h₃ := h₂.next (.left rfl (.right (by rintro e ⟨⟩) hs₃))
  obtain ⟨t₄, hs₄, hc₄, hh₄⟩ := ret_step (s := t₃) (n := 0) (by rw [hc₃, Function.update_self]) (by
    rintro (_ | b) hv
    · exact Function.update_self ..
    · exact absurd hv (Nat.not_lt_zero b))
  rw [hc₃, Function.update_idem] at hc₄
  refine ⟨t₄, h₃.next (.left rfl (.right (by rintro e ⟨⟩) hs₄)), hc₄, ?_⟩
  rw [hh₄, hh₃, hh₂, hh₁, List.append_assoc]
  rfl

/-- Client 8 appends while the entry of client 7 is being stored, and both entries can be read in the end. -/
theorem acknowledged_append_becomes_readable_two :
    ∃ y, (service (Pipeline.lts .smallPrimary 0) 0 twoShards fun _ => 1).Reachable y ∧
      y.1.1.storePc = .appending ∧ y.1.1.stored.length = 1 ∧
      ∀ e ∈ [constructLogEntry 7 0 [42], constructLogEntry 8 0 [43]], Mark.returned e ∈ y.1.2.hist ∧
        BecomesReadable (Pipeline.lts .smallPrimary 0) Pipeline.Sys.primary 0 twoShards (fun _ => 1) y e := by
  have h₀ : (service (Pipeline.lts .smallPrimary 0) 0 twoShards fun _ => 1).Reachable
      ((Pipeline.resting ⟨.zeroed, []⟩ (fun _ => 0) 0 0 [], ⟨fun _ => ⟨0, none⟩, fun _ => [], []⟩),
        ⟨fun _ => ⟨Server.empty, fun _ => Server.empty, .idle, fun _ => .idle, none, false, false⟩, .idle, false, [],
          []⟩) :=
    .start ⟨⟨⟨⟨FlatLog.zeroed_fresh, rfl⟩, fun _ => rfl, ⟨rfl, rfl, rfl⟩, ⟨rfl, rfl⟩, ⟨rfl, rfl⟩⟩, rfl⟩,
      ⟨fun _ => rfl, rfl, rfl, rfl, rfl⟩⟩
  obtain ⟨e₇, he₇⟩ : ∃ e₇, e₇ = { constructLogEntry 7 0 [42] with flags := 0 } := ⟨_, rfl⟩
  have hcan : CanAppend .smallPrimary ⟨.zeroed, []⟩ e₇ := by
    subst he₇
    exact ⟨⟨rfl, by decide⟩, rfl, by decide, by decide⟩
  have hcan' : CanAppend .smallPrimary (append .smallPrimary ⟨.zeroed, []⟩ e₇)
      { constructLogEntry 8 0 [43] with flags := 0 } := by
    subst he₇
    exact ⟨⟨rfl, by decide⟩, rfl, by decide, by decide⟩
  have hprim := (Primary.init (c := .smallPrimary) ⟨FlatLog.zeroed_fresh, rfl⟩).append hcan
  have hlen : (recs (append .smallPrimary ⟨.zeroed, []⟩ e₇)).length = 1 := by
    rw [recs_append]
    rfl
  have hstep : Pipeline.Step .smallPrimary 0 (.append e₇) (Pipeline.resting ⟨.zeroed, []⟩ (fun _ => 0) 0 0 [])
      (Pipeline.resting (append .smallPrimary ⟨.zeroed, []⟩ e₇) (fun _ => 0) 0 0 []) := .append e₇ hcan
  rw [he₇] at hstep
  obtain ⟨t₁, h₁, hc₁, hh₁⟩ := reachable_call h₀ rfl
    (show Admissible (constructLogEntry 7 0 [42]) from ⟨rfl, by decide⟩) hstep
  rw [← he₇] at h₁
  generalize append .smallPrimary ⟨.zeroed, []⟩ e₇ = P at h₁ hcan' hprim hlen
  -- the entry of client 7 is fetched and given to the storage
  obtain ⟨mr, hfetch⟩ := Pipeline.exists_fetch hprim (by omega) (fun _ => 0) 0 []
  have hrun : ReflTransGen (OwnStep (Pipeline.lts .smallPrimary 0)) _ _ :=
    ReflTransGen.mono (fun _ _ hs => ⟨_, hs, by rintro e ⟨⟩⟩) _ _ (hfetch.tail Pipeline.step_storeLock)
  obtain ⟨s₂, hserver⟩ := exists_server_run_of_own (Pipeline.simulation .smallPrimary 0) h₁
    (hrun.tail ⟨_, Pipeline.step_storeAppend, by rintro e ⟨⟩⟩)
  obtain ⟨t₃, h₃, -, hh₃⟩ := reachable_call (reachable_of_server h₁ hserver) (show t₁.clients 8 = ⟨0, none⟩ by
    rw [hc₁, Function.update_of_ne (by decide)]) (show Admissible (constructLogEntry 8 0 [43]) from ⟨rfl, by decide⟩)
    (.append _ hcan')
  refine ⟨_, h₃, rfl, rfl, fun e he => ?_⟩
  have hret : Mark.returned e ∈ t₃.hist := by
    rw [hh₃, hh₁]
    rcases List.mem_cons.mp he with rfl | he
    · simp
    · simp [List.mem_singleton.mp he]
  exact ⟨hret, (acknowledged_append_becomes_readable .smallPrimary 0 0 twoShards fun _ => 1).2 _ h₃
    (fun _ _ => Or.inl rfl) e hret⟩

end LazyLog.Service.Readable
