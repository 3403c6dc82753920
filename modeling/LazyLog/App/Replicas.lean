import LazyLog.App.KvStore
import LazyLog.Service.Readable

/-! # The replicas of the key-value store (`KVTransport`)

Each server of the key-value store has a thread that plays the log of the service into its own store: it asks the
primary for the ordered tail, and reads the entries up to it from the shard servers. Inserts go into the log through
any client. All of this runs next to the clients, the consensus log and the storage, with `AppendEntry` of a server as
one step.

An entry below the ordered tail is on its shard server, so what a replica plays is the log. Its store is therefore at
any time the one that a front of the log makes, a front that only grows (`replicas_follow_the_log`): the replicas
differ in how far they are and in nothing else. -/

namespace LazyLog.App.Replicas

open LazyLog.Lib.Bytes LazyLog.Lib.Run LazyLog.Lib.Transition LazyLog.Rpc.Entry
open LazyLog.DurLog.Flat LazyLog.DurLog.Ring LazyLog.DurLog.FlatCli
open LazyLog.ConsLog LazyLog.ConsLog.Batches LazyLog.ConsLog.Link
open LazyLog.ConsLog.Spec (SharedLog)
open LazyLog.Client LazyLog.Client.LazyLogCli
open LazyLog.Storage LazyLog.Storage.ShardServer LazyLog.Storage.Reads
open LazyLog.Storage.Store (Cluster)
open LazyLog.Service
open LazyLog.Service.Linear (service readData)
open LazyLog.App.KvStore
open Relation (ReflTransGen)

/-! ### The system -/

/-- Where `playlog_func` is: before the next `GetTail`, in a pass for a tail at the entry `i`, or in an entry that it
cannot parse. -/
inductive PlayPc
  | idle
  | playing (tail i : ℕ)
  | crashed (tail i : ℕ)

/-- A replica: `kv_store_`, `next_idx_` and its thread. -/
structure Replica where
  kvStore : Store
  nextIdx : ℕ
  pc : PlayPc

/-- How many entries of the log have been played. -/
def Replica.applied (p : Replica) : ℕ :=
  match p.pc with
  | .idle => p.nextIdx
  | .playing _ i | .crashed _ i => i

/-- The service and the replicas. -/
structure Sys (σ : Type) where
  service : (σ × Clients) × Cluster
  replicas : ℕ → Replica

def Sys.set {σ : Type} (s : Sys σ) (i : ℕ) (p : Replica) : Sys σ :=
  { s with replicas := Function.update s.replicas i p }

/-- One step; `ordered` is the ordered tail that the primary answers to `GetTail`. -/
inductive Step {σ : Type} (A : Lts Label σ) (ordered : σ → ℕ) (n : ℕ) (k : Striping) (r : ℕ → ℕ) :
    Sys σ → Sys σ → Prop
  | service {s : Sys σ} {a : (Label ⊕ Act) ⊕ Store.Event} {y : (σ × Clients) × Cluster}
    (h : (service A n k r).step a s.service y) : Step A ordered n k r s { s with service := y }
  | getTail {s : Sys σ} (i : ℕ) (hpc : (s.replicas i).pc = .idle) :
    Step A ordered n k r s
      (s.set i { s.replicas i with pc := .playing (ordered s.service.1.1) (s.replicas i).nextIdx })
  | play {s : Sys σ} (i : ℕ) {tail j : ℕ} {kvStore : Store} {response : Mem × ℕ} (resp m : Mem)
    (hpc : (s.replicas i).pc = .playing tail j) (hj : j < tail)
    (hr : readEntry k (s.service.2.shards ((UInt64.ofNat j).toNat % k.shardNum)).primary (UInt64.ofNat j) resp =
      some response)
    (hfit : response.2 ≤ pageSize)
    (hplay : playEntry (s.replicas i).kvStore (readData response m) = some kvStore) :
    Step A ordered n k r s (s.set i { s.replicas i with kvStore := kvStore, pc := .playing tail (j + 1) })
  | crash {s : Sys σ} (i : ℕ) {tail j : ℕ} {response : Mem × ℕ} (resp m : Mem)
    (hpc : (s.replicas i).pc = .playing tail j) (hj : j < tail)
    (hr : readEntry k (s.service.2.shards ((UInt64.ofNat j).toNat % k.shardNum)).primary (UInt64.ofNat j) resp =
      some response)
    (hfit : response.2 ≤ pageSize) (hplay : playEntry (s.replicas i).kvStore (readData response m) = none) :
    Step A ordered n k r s (s.set i { s.replicas i with pc := .crashed tail j })
  | endPass {s : Sys σ} (i : ℕ) {tail j : ℕ} (hpc : (s.replicas i).pc = .playing tail j) (hj : ¬ j < tail) :
    Step A ordered n k r s (s.set i { s.replicas i with nextIdx := tail, pc := .idle })

/-- Everything has just been started. -/
structure Start {σ : Type} (A : Lts Label σ) (n : ℕ) (k : Striping) (r : ℕ → ℕ) (s : Sys σ) : Prop where
  service : (Linear.service A n k r).start s.service
  replicas : ∀ i, s.replicas i = ⟨fun _ => none, 0, .idle⟩

variable {σ : Type} {A : Lts Label σ} {ordered : σ → ℕ} {n : ℕ} {k : Striping} {r : ℕ → ℕ} {rs : List Insert}
  {p : Replica} {t t' : ℕ}

theorem reachable_service {s : Sys σ} (h : Reach (Start A n k r) (Step A ordered n k r) s) :
    (service A n k r).Reachable s.service := by
  refine h.invariant (P := fun s => (service A n k r).Reachable s.service) (fun s hs => .start hs.service) ?_
  rintro s s' - ih hs
  cases hs with
  | service h => exact ih.next h
  | getTail | play | crash | endPass => exact ih

/-! ### How far a replica is -/

/-- A replica is not ahead of the ordered tail `t`. -/
def Behind (t : ℕ) (p : Replica) : Prop :=
  match p.pc with
  | .idle => p.nextIdx ≤ t
  | .playing tail i | .crashed tail i => p.nextIdx ≤ i ∧ i ≤ tail ∧ tail ≤ t

theorem Behind.mono (h : Behind t p) (hle : t ≤ t') : Behind t' p := by
  unfold Behind at h ⊢
  cases hpc : p.pc with
  | idle =>
    rw [hpc] at h
    exact h.trans hle
  | playing tail i | crashed tail i =>
    rw [hpc] at h
    exact ⟨h.1, h.2.1, h.2.2.trans hle⟩

theorem Behind.applied_le (h : Behind t p) : p.applied ≤ t := by
  unfold Behind at h
  unfold Replica.applied
  cases hpc : p.pc with
  | idle =>
    rw [hpc] at h
    exact h
  | playing tail i | crashed tail i =>
    rw [hpc] at h
    exact h.2.1.trans h.2.2

theorem spec_step_mono {a : Label} {x x' : SharedLog} (hi : Spec.Inv x) (hs : Spec.Step a x x') :
    x.log <+: x'.log ∧ x.ordered ≤ x'.ordered := by
  cases hs with
  | append hx hlt => exact ⟨List.prefix_append _ _, le_rfl⟩
  | mark hp => exact ⟨List.prefix_rfl, hi.ordered_le⟩
  | tau | appendBatch | appendBatchDone | updateGlobalIdx | updateGlobalIdxDone => exact ⟨List.prefix_rfl, le_rfl⟩

theorem service_step_mono {a : (Label ⊕ Act) ⊕ Store.Event} {y y' : (SharedLog × Clients) × Cluster}
    (hi : Spec.Inv y.1.1) (h : (service Spec.lts n k r).step a y y') :
    y.1.1.log <+: y'.1.1.log ∧ y.1.1.ordered ≤ y'.1.1.ordered := by
  cases h with
  | left hl hs | both hl hs _ =>
    cases hs with
    | left _ hs | both _ hs _ => exact spec_step_mono hi hs
    | right => exact ⟨List.prefix_rfl, le_rfl⟩
  | right => exact ⟨List.prefix_rfl, le_rfl⟩

section Spec

variable {s s' : Sys SharedLog}

theorem spec_inv (h : Reach (Start Spec.lts n k r) (Step Spec.lts SharedLog.ordered n k r) s) :
    Spec.Inv s.service.1.1 := Spec.inv_of_reachable (reachable_service h).fst.fst

theorem forall_set {Q : Replica → Prop} (h : ∀ i, Q (s.replicas i)) {j : ℕ} {p : Replica} (hp : Q p) (i : ℕ) :
    Q ((s.set j p).replicas i) := by
  unfold Sys.set
  dsimp only
  rw [Function.update_apply]
  split
  · exact hp
  · exact h i

/-- **No replica is ahead of the ordered tail.** -/
theorem behind_of_reach (h : Reach (Start Spec.lts n k r) (Step Spec.lts SharedLog.ordered n k r) s) (i : ℕ) :
    Behind s.service.1.1.ordered (s.replicas i) := by
  refine h.invariant (P := fun s => ∀ i, Behind s.service.1.1.ordered (s.replicas i)) (fun s hs i => ?_) ?_ i
  · rw [hs.replicas]
    exact Nat.zero_le _
  · intro s s' hr ih hs
    cases hs with
    | service h => exact fun i => (ih i).mono (service_step_mono (spec_inv hr) h).2
    | getTail i hpc =>
      have hb := ih i
      unfold Behind at hb
      rw [hpc] at hb
      exact forall_set ih ⟨le_rfl, hb, le_rfl⟩
    | play i resp m hpc hj hread hfit hplay =>
      have hb := ih i
      unfold Behind at hb
      rw [hpc] at hb
      exact forall_set ih ⟨hb.1.trans (Nat.le_succ _), hj, hb.2.2⟩
    | crash i resp m hpc hj hread hfit hplay =>
      have hb := ih i
      unfold Behind at hb
      rw [hpc] at hb
      exact forall_set ih hb
    | endPass i hpc hj =>
      have hb := ih i
      unfold Behind at hb
      rw [hpc] at hb
      exact forall_set ih hb.2.2

theorem applied_le_of_step (hr : Reach (Start Spec.lts n k r) (Step Spec.lts SharedLog.ordered n k r) s)
    (hs : Step Spec.lts SharedLog.ordered n k r s s') (i : ℕ) :
    (s.replicas i).applied ≤ (s'.replicas i).applied := by
  have hset : ∀ {j : ℕ} {p : Replica}, (s.replicas j).applied ≤ p.applied →
      (s.replicas i).applied ≤ ((s.set j p).replicas i).applied := by
    intro j p hle
    unfold Sys.set
    dsimp only
    rw [Function.update_apply]
    split
    · next hij => rwa [hij]
    · exact le_rfl
  cases hs with
  | service => exact le_rfl
  | getTail j hpc =>
    refine hset ?_
    unfold Replica.applied
    rw [hpc]
  | play j resp m hpc =>
    refine hset ?_
    unfold Replica.applied
    rw [hpc]
    exact Nat.le_succ _
  | crash j resp m hpc =>
    refine hset ?_
    unfold Replica.applied
    rw [hpc]
  | endPass j hpc hj =>
    have hb := behind_of_reach hr j
    unfold Behind at hb
    rw [hpc] at hb
    refine hset ?_
    unfold Replica.applied
    rw [hpc]
    exact hb.2.1

/-! ### What a replica has -/

/-- **A replica follows the requests**: its thread goes on, and its store is the one that the requests it has played
make, with the last value of each key. -/
structure Follows (rs : List Insert) (p : Replica) : Prop where
  going : ∀ tail i, p.pc ≠ .crashed tail i
  le : p.applied ≤ rs.length
  store : p.kvStore = foldInserts (rs.take p.applied)
  last : LastValues (rs.take p.applied) p.kvStore

/-- The log was made of the requests. -/
def LogOf (rs : List Insert) (L : List LogEntry) : Prop := List.Forall₂ Logged rs (L.map LogEntry.data)

theorem LogOf.length_eq {L : List LogEntry} (h : LogOf rs L) : rs.length = L.length := by
  rw [List.Forall₂.length_eq h, List.length_map]

theorem LogOf.take {L L' : List LogEntry} (h : LogOf rs L') (hL : L <+: L') : LogOf (rs.take L.length) L := by
  obtain ⟨rest, rfl⟩ := hL
  unfold LogOf at h ⊢
  rw [List.map_append] at h
  have htake := List.forall₂_take L.length h
  rwa [List.take_left' (List.length_map _)] at htake

theorem Follows.of_take (h : Follows (rs.take t) p) (ht : p.applied ≤ t) : Follows rs p := by
  obtain ⟨hgo, hle, hstore, hlast⟩ := h
  rw [List.take_take, min_eq_left ht] at hstore hlast
  exact ⟨hgo, hle.trans (List.length_take_le' _ _), hstore, hlast⟩

theorem Follows.of_store (hgo : ∀ tail i, p.pc ≠ .crashed tail i) (hle : p.applied ≤ rs.length)
    (hstore : p.kvStore = foldInserts (rs.take p.applied)) : Follows rs p :=
  ⟨hgo, hle, hstore, hstore ▸ lastValues_foldInserts _⟩

/-- **What is read below the tail is the log.** -/
theorem read_eq (h : Reach (Start Spec.lts n k r) (Step Spec.lts SharedLog.ordered n k r) s) {j : ℕ}
    (hj : j < s.service.1.1.log.length) {resp m : Mem} {response : Mem × ℕ}
    (hr : readEntry k (s.service.2.shards ((UInt64.ofNat j).toNat % k.shardNum)).primary (UInt64.ofNat j) resp =
      some response) : ∃ e, s.service.1.1.log[j]? = some e ∧ readData response m = e.data := by
  have hserv := reachable_service h
  have hlen := (spec_inv h).length_le
  have hidx : (UInt64.ofNat j).toNat = j := by
    rw [UInt64.toNat_ofNat']
    exact Nat.mod_eq_of_lt (by omega)
  obtain ⟨e, hcar, he⟩ := Linear.exists_carries hserv.snd _ hr
  have hlog := Linear.getElem?_of_storage hserv he
  rw [hidx] at hlog
  exact ⟨e, hlog, hcar.readData m⟩

theorem playEntry_next {L : List LogEntry} (hlog : LogOf rs L) {j : ℕ} {e : LogEntry} (he : L[j]? = some e) :
    playEntry (foldInserts (rs.take j)) e.data = some (foldInserts (rs.take (j + 1))) := by
  have hj : j < L.length := (List.getElem?_eq_some_iff.mp he).1
  have hrs : j < rs.length := hlog.length_eq.ge.trans_lt' hj
  have hlogged : Logged rs[j] e.data := by
    have hget := List.Forall₂.get hlog hrs (by rwa [List.length_map])
    rw [List.get_eq_getElem, List.get_eq_getElem, List.getElem_map] at hget
    rwa [(List.getElem?_eq_some_iff.mp he).2] at hget
  rw [playEntry_logged hlogged, List.take_succ_eq_append_getElem hrs, foldInserts_concat]

/-- **The next entry of a pass** is the next request, and it can be played. -/
theorem playEntry_of_reach (h : Reach (Start Spec.lts n k r) (Step Spec.lts SharedLog.ordered n k r) s)
    (hlog : LogOf rs s.service.1.1.log) {i tail j : ℕ} (hf : Follows rs (s.replicas i))
    (hpc : (s.replicas i).pc = .playing tail j) (hj : j < tail) {resp m : Mem} {response : Mem × ℕ}
    (hr : readEntry k (s.service.2.shards ((UInt64.ofNat j).toNat % k.shardNum)).primary (UInt64.ofNat j) resp =
      some response) :
    j + 1 ≤ rs.length ∧
      playEntry (s.replicas i).kvStore (readData response m) = some (foldInserts (rs.take (j + 1))) := by
  have hb := behind_of_reach h i
  unfold Behind at hb
  rw [hpc] at hb
  have hlen : j < s.service.1.1.log.length := by
    have := (spec_inv h).ordered_le
    have := (spec_inv h).given_le
    omega
  obtain ⟨e, he, hdata⟩ := read_eq h hlen hr (m := m)
  have hstore := hf.store
  unfold Replica.applied at hstore
  rw [hpc] at hstore
  rw [hdata, hstore, playEntry_next hlog he, hlog.length_eq]
  exact ⟨hlen, rfl⟩

/-- **Every replica follows the log.** -/
theorem follows_of_reach (h : Reach (Start Spec.lts n k r) (Step Spec.lts SharedLog.ordered n k r) s)
    (hlog : LogOf rs s.service.1.1.log) (i : ℕ) : Follows rs (s.replicas i) := by
  refine h.invariant (P := fun s => ∀ rs, LogOf rs s.service.1.1.log → ∀ i, Follows rs (s.replicas i))
    (fun s hs rs _ i => ?_) ?_ rs hlog i
  · rw [hs.replicas]
    exact .of_store (by rintro tail i ⟨⟩) (Nat.zero_le _) rfl
  · intro s s' hr ih hs rs hlog
    cases hs with
    | service h =>
      have hle : ∀ i, (s.replicas i).applied ≤ s.service.1.1.log.length := fun i =>
        (behind_of_reach hr i).applied_le.trans ((spec_inv hr).ordered_le.trans (spec_inv hr).given_le)
      exact fun i => (ih _ (hlog.take (service_step_mono (spec_inv hr) h).1) i).of_take (hle i)
    | getTail i hpc =>
      obtain ⟨-, hle, hstore, -⟩ := ih rs hlog i
      unfold Replica.applied at hle hstore
      rw [hpc] at hle hstore
      exact forall_set (ih rs hlog) (.of_store (by rintro tail i ⟨⟩) hle hstore)
    | play i resp m hpc hj hread hfit hplay =>
      obtain ⟨hle, heq⟩ := playEntry_of_reach hr hlog (ih rs hlog i) hpc hj hread (m := m)
      rw [heq] at hplay
      exact forall_set (ih rs hlog) (.of_store (by rintro tail i ⟨⟩) hle (Option.some.inj hplay).symm)
    | crash i resp m hpc hj hread hfit hplay =>
      have heq := (playEntry_of_reach hr hlog (ih rs hlog i) hpc hj hread (m := m)).2
      rw [heq] at hplay
      cases hplay
    | @endPass i tail j hpc hj =>
      have hb := behind_of_reach hr i
      unfold Behind at hb
      rw [hpc] at hb
      obtain rfl : j = tail := by omega
      obtain ⟨-, hle, hstore, -⟩ := ih rs hlog i
      unfold Replica.applied at hle hstore
      rw [hpc] at hle hstore
      exact forall_set (ih rs hlog) (.of_store (by rintro tail i ⟨⟩) hle hstore)

end Spec

/-! ### The consensus log -/

section Simulation

variable {R : σ → SharedLog → Prop} (hsim : Simulation A Spec.lts R) (hord : ∀ y x, R y x → ordered y = x.ordered)
include hsim hord

/-- **A step next to a consensus log** is one next to the shared log. -/
theorem exists_spec_step {s s' : Sys σ} {x : SharedLog} (hR : R s.service.1.1 x)
    (hs : Step A ordered n k r s s') : ∃ x', R s'.service.1.1 x' ∧
      Step Spec.lts SharedLog.ordered n k r ⟨((x, s.service.1.2), s.service.2), s.replicas⟩
        ⟨((x', s'.service.1.2), s'.service.2), s'.replicas⟩ := by
  have hsim' := (hsim.sync (LazyLogCli.lts n) Appends.link fun b => ∀ e, b ≠ .append .primary e).sync
    (Store.lts k r) Linear.link (· = .tau)
  obtain ⟨⟨⟨y, t⟩, c⟩, replicas⟩ := s
  cases hs with
  | @service a y' h =>
    obtain ⟨⟨⟨x', t'⟩, c'⟩, hstep, ⟨hR', rfl⟩, rfl⟩ := hsim'.step (t := ((x, t), c)) ⟨⟨hR, rfl⟩, rfl⟩ h
    exact ⟨x', hR', .service hstep⟩
  | getTail i hpc =>
    refine ⟨x, hR, ?_⟩
    have hstep : Step Spec.lts SharedLog.ordered n k r ⟨((x, t), c), replicas⟩ _ := .getTail i hpc
    have hx : ordered y = x.ordered := hord y x hR
    rw [← hx] at hstep
    exact hstep
  | play i resp m hpc hj hr hfit hplay => exact ⟨x, hR, .play i resp m hpc hj hr hfit hplay⟩
  | crash i resp m hpc hj hr hfit hplay => exact ⟨x, hR, .crash i resp m hpc hj hr hfit hplay⟩
  | endPass i hpc hj => exact ⟨x, hR, .endPass i hpc hj⟩

theorem exists_spec {s : Sys σ} (h : Reach (Start A n k r) (Step A ordered n k r) s) :
    ∃ x, R s.service.1.1 x ∧ Reach (Start Spec.lts n k r) (Step Spec.lts SharedLog.ordered n k r)
      ⟨((x, s.service.1.2), s.service.2), s.replicas⟩ := by
  refine h.invariant (P := fun s => ∃ x, R s.service.1.1 x ∧ Reach (Start Spec.lts n k r)
    (Step Spec.lts SharedLog.ordered n k r) ⟨((x, s.service.1.2), s.service.2), s.replicas⟩) ?_ ?_
  · rintro ⟨⟨⟨y, t⟩, c⟩, replicas⟩ ⟨⟨⟨hy, ht⟩, hc⟩, hr⟩
    obtain ⟨x, hx, hR⟩ := hsim.start y hy
    exact ⟨x, hR, .start ⟨⟨⟨hx, ht⟩, hc⟩, hr⟩⟩
  · rintro s s' - ⟨x, hR, hx⟩ hs
    obtain ⟨x', hR', hstep⟩ := exists_spec_step hsim hord hR hs
    exact ⟨x', hR', hx.next hstep⟩

theorem applied_le_of_run {s s' : Sys σ} (h : Reach (Start A n k r) (Step A ordered n k r) s)
    (hrun : ReflTransGen (Step A ordered n k r) s s') (i : ℕ) :
    (s.replicas i).applied ≤ (s'.replicas i).applied := by
  have hboth : Reach (Start A n k r) (Step A ordered n k r) s' ∧
      (s.replicas i).applied ≤ (s'.replicas i).applied := by
    induction hrun with
    | refl => exact ⟨h, le_rfl⟩
    | tail _ hs ih =>
      obtain ⟨x, hR, hx⟩ := exists_spec hsim hord ih.1
      obtain ⟨x', -, hstep⟩ := exists_spec_step hsim hord hR hs
      exact ⟨ih.1.next hs, ih.2.trans (applied_le_of_step hx hstep i)⟩
  exact hboth.2

end Simulation

/-- The ordered tail of the primary. -/
def tailOf (p : State) : ℕ := p.log.orderedIdxWatermk

/-- **The replicas of the key-value store follow the log**, in both modes of the consensus log, whatever the clients,
the consensus log, the storage and the other replicas do. If the entries of the log were appended for the requests
`rs`, in this order, then the store of every replica is what a front of them makes, with the last value of each of
their keys and no other keys; and the front grows as long as the replica runs, so that its reads never go back. -/
theorem replicas_follow_the_log (c : Config) (maxFetchSize n : ℕ) (k : Striping) (r : ℕ → ℕ) :
    (∀ (s : Sys FetchAndStore.Loop) (rs : List Insert),
      Reach (Start (FetchAndStore.lts c maxFetchSize) n k r)
        (Step (FetchAndStore.lts c maxFetchSize) (fun y => tailOf y.primary) n k r) s →
      LogOf rs (recs s.service.1.1.primary) → ∀ i, Follows rs (s.replicas i) ∧
        ∀ s', ReflTransGen (Step (FetchAndStore.lts c maxFetchSize) (fun y => tailOf y.primary) n k r) s s' →
          (s.replicas i).applied ≤ (s'.replicas i).applied) ∧
    ∀ (s : Sys Pipeline.Sys) (rs : List Insert),
      Reach (Start (Pipeline.lts c maxFetchSize) n k r)
        (Step (Pipeline.lts c maxFetchSize) (fun y => tailOf y.primary) n k r) s →
      LogOf rs (recs s.service.1.1.primary) → ∀ i, Follows rs (s.replicas i) ∧
        ∀ s', ReflTransGen (Step (Pipeline.lts c maxFetchSize) (fun y => tailOf y.primary) n k r) s s' →
          (s.replicas i).applied ≤ (s'.replicas i).applied := by
  have hloop : ∀ (y : FetchAndStore.Loop) (x : SharedLog),
      (∃ g st, FetchAndStore.Inv c y g st ∧ x = y.abs g st) → tailOf y.primary = x.ordered := by
    rintro y _ ⟨g, st, hi, rfl⟩
    exact hi.primary.idxMark
  have hpipe : ∀ (y : Pipeline.Sys) (x : SharedLog),
      (∃ g st f, Pipeline.Inv c y g st f ∧ x = y.abs g st) → tailOf y.primary = x.ordered := by
    rintro y _ ⟨g, st, f, hi, rfl⟩
    exact hi.primary.idxMark
  constructor
  · intro s rs h hlog i
    refine ⟨?_, fun s' hrun => applied_le_of_run (FetchAndStore.simulation c maxFetchSize) hloop h hrun i⟩
    obtain ⟨x, ⟨g, st, -, rfl⟩, hx⟩ := exists_spec (FetchAndStore.simulation c maxFetchSize) hloop h
    exact follows_of_reach hx hlog i
  · intro s rs h hlog i
    refine ⟨?_, fun s' hrun => applied_le_of_run (Pipeline.simulation c maxFetchSize) hpipe h hrun i⟩
    obtain ⟨x, ⟨g, st, f, -, rfl⟩, hx⟩ := exists_spec (Pipeline.simulation c maxFetchSize) hpipe h
    exact follows_of_reach hx hlog i

/-! ### Two inserts and two replicas -/

theorem reach_of_service {y : (σ × Clients) × Cluster} (h : (service A n k r).Reachable y) :
    Reach (Start A n k r) (Step A ordered n k r) ⟨y, fun _ => ⟨fun _ => none, 0, .idle⟩⟩ := by
  refine h.invariant (P := fun y => Reach (Start A n k r) (Step A ordered n k r)
    ⟨y, fun _ => ⟨fun _ => none, 0, .idle⟩⟩) (fun y hy => .start ⟨hy, fun _ => rfl⟩) ?_
  intro a y y' _ ih hs
  exact ih.next (.service hs)

theorem reach_play {s : Sys σ} (h : Reach (Start A n k r) (Step A ordered n k r) s) (i : ℕ) {tail j : ℕ}
    {e : LogEntry} {q : Insert} (hpc : (s.replicas i).pc = .playing tail j) (hj : j < tail)
    (hread : ∀ resp, readEntry k (s.service.2.shards ((UInt64.ofNat j).toNat % k.shardNum)).primary (UInt64.ofNat j)
      resp = some (writeBytes resp 0 (encode e), entrySize e)) (hs : e.Sized) (hf : e.flags ≠ 0)
    (hfit : entrySize e ≤ pageSize) (hq : Logged q e.data) :
    Reach (Start A n k r) (Step A ordered n k r)
      (s.set i ⟨Function.update (s.replicas i).kvStore q.key (some q.value), (s.replicas i).nextIdx,
        .playing tail (j + 1)⟩) := by
  have hcar : Linear.Carries (writeBytes (fun _ => 0) 0 (encode e), entrySize e) e :=
    ⟨holds_writeBytes _ 0 _, rfl, hs, hf⟩
  have hplay : playEntry (s.replicas i).kvStore
      (readData (writeBytes (fun _ => 0) 0 (encode e), entrySize e) fun _ => 0) =
        some (Function.update (s.replicas i).kvStore q.key (some q.value)) := by
    rw [hcar.readData]
    exact playEntry_logged hq _
  exact h.next (.play i (fun _ => 0) (fun _ => 0) hpc hj (hread _) hfit hplay)

theorem oneKey_short : ([97] : List UInt8).length < 2 ^ 32 := by decide

/-- A request with the key `a`, and its payload. -/
def insertOf (v : UInt8) : Insert := ⟨[97], [v], oneKey_short⟩

def payloadOf (v : UInt8) : List UInt8 := (insertOf v).request ++ [kvInsert]

theorem logged_insertOf (v : UInt8) : Logged (insertOf v) (payloadOf v) := by
  have hbuf := holds_writeBytes (fun _ => 0) 0 (insertOf v).request
  exact ⟨_, hbuf, (insertHandler_eq hbuf).symm⟩

theorem exists_two_inserts : ∃ y,
    (service (FetchAndStore.lts .smallPrimary 0) 0 twoShards fun _ => 0).Reachable y ∧
      recs y.1.1.primary = [⟨7, 0, 0, 7, 1, 0, payloadOf 1⟩, ⟨7, 1, 1, 7, 1, 0, payloadOf 2⟩] ∧
      tailOf y.1.1.primary = 2 ∧ ∀ (i : ℕ) (e : LogEntry), (recs y.1.1.primary)[i]? = some e →
        ∀ resp, readEntry twoShards (y.2.shards ((UInt64.ofNat i).toNat % twoShards.shardNum)).primary
          (UInt64.ofNat i) resp = some (writeBytes resp 0 (encode e), entrySize e) := by
  have h₀ := Linear.reachable_service Linear.reach_fresh
  obtain ⟨t₁, h₁, hc₁, -⟩ := Readable.reachable_call h₀ (show _ = LazyLogClient.mk 0 none from rfl)
    (show Admissible (constructLogEntry 7 0 (payloadOf 1)) from ⟨rfl, by decide⟩)
    (.append _ ⟨⟨rfl, by decide⟩, rfl, by decide, by decide⟩)
  obtain ⟨t₂, h₂, -, -⟩ := Readable.reachable_call h₁
    (show t₁.clients 7 = ⟨1, none⟩ by rw [hc₁, Function.update_self])
    (show Admissible (constructLogEntry 7 1 (payloadOf 2)) from ⟨rfl, by decide⟩)
    (.append _ ⟨⟨rfl, by decide⟩, rfl, by decide, by decide⟩)
  obtain ⟨l, s, hrun, hrecs, hmark, hread⟩ :=
    Readable.exists_all_readable (Progress.drains .smallPrimary 0) h₂ fun _ _ => Or.inl rfl
  have hlog := hrecs.trans ((recs_append ..).trans (congrArg (· ++ _) (recs_append ..)))
  refine ⟨_, Readable.reachable_of_server h₂ hrun, hlog, ?_, fun i e hi => ?_⟩
  · exact hmark.trans (congrArg List.length (hrecs.symm.trans hlog))
  · rw [hrecs] at hi
    exact (hread i e hi).2.2.2

/-- Two requests with one key have been appended. A replica that has played both has the second value, one that has
played the first has the first. -/
theorem replicas_follow_the_log_two : ∃ s : Sys FetchAndStore.Loop,
    Reach (Start (FetchAndStore.lts .smallPrimary 0) 0 twoShards fun _ => 0)
      (Step (FetchAndStore.lts .smallPrimary 0) (fun y => tailOf y.primary) 0 twoShards fun _ => 0) s ∧
      (s.replicas 0).applied = 2 ∧ (s.replicas 1).applied = 1 ∧
      Follows [insertOf 1, insertOf 2] (s.replicas 0) ∧ Follows [insertOf 1, insertOf 2] (s.replicas 1) ∧
      (s.replicas 0).kvStore [97] = some [2] ∧ (s.replicas 1).kvStore [97] = some [1] := by
  obtain ⟨y, hy, hrecs, htail, hread⟩ := exists_two_inserts
  have hsecond : 1 < tailOf y.1.1.primary := by
    rw [htail]
    decide
  have hfirst : 0 < tailOf y.1.1.primary := Nat.zero_lt_of_lt hsecond
  have hread₀ := hread 0 _ (by rw [hrecs]; rfl)
  have hread₁ := hread 1 _ (by rw [hrecs]; rfl)
  have hlog : LogOf [insertOf 1, insertOf 2] (recs y.1.1.primary) := by
    unfold LogOf
    rw [hrecs]
    exact .cons (logged_insertOf 1) (.cons (logged_insertOf 2) .nil)
  have h₀ : Reach (Start (FetchAndStore.lts .smallPrimary 0) 0 twoShards fun _ => 0)
      (Step (FetchAndStore.lts .smallPrimary 0) (fun y => tailOf y.primary) 0 twoShards fun _ => 0) _ :=
    reach_of_service hy
  have h₁ := h₀.next (.getTail 0 rfl)
  have h₂ := reach_play h₁ 0 rfl hfirst hread₀ rfl (by decide) (by decide) (logged_insertOf 1)
  have h₃ := reach_play h₂ 0 rfl hsecond hread₁ rfl (by decide) (by decide) (logged_insertOf 2)
  have h₄ := h₃.next (.getTail 1 rfl)
  have h₅ := reach_play h₄ 1 rfl hfirst hread₀ rfl (by decide) (by decide) (logged_insertOf 1)
  have hfollow := (replicas_follow_the_log .smallPrimary 0 0 twoShards fun _ => 0).1 _ _ h₅ hlog
  refine ⟨_, h₅, rfl, rfl, (hfollow 0).1, (hfollow 1).1, ?_, ?_⟩
  · rw [(hfollow 0).1.store]
    rfl
  · rw [(hfollow 1).1.store]
    rfl

end LazyLog.App.Replicas
