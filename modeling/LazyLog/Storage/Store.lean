import LazyLog.Lib.Transition
import LazyLog.Storage.Replication

/-! # The backend and its shards

`NaiveBackend` drives the shards: a call of `AppendBatch` goes through its rounds, sends the requests of a
round and waits for the answers before the next one; a call of `UpdateGlobalIdx` sends every shard the index
and waits. The calls are made one after the other, as the consensus log does, and the batches follow on from
each other; calls of the two kinds may overlap.

`Inv k r s f u`: the round in progress takes every shard from entry `f` to entry `u` of the log. -/

namespace LazyLog.Storage.Store

open LazyLog.Lib.Bytes LazyLog.Lib.Stride LazyLog.Lib.Windows LazyLog.Lib.Run LazyLog.Lib.Transition
open LazyLog.Rpc.Entry LazyLog.Rpc.Multi
open LazyLog.Storage.ShardServer LazyLog.Storage.NaiveBackend LazyLog.Storage.Replication

/-! ### The system -/

/-- What the consensus log sees of a step: its calls start and return. -/
inductive Event
  | tau
  | appendBatch (es : List LogEntry)
  | appendBatchDone
  | updateGlobalIdx (idx : UInt64)
  | updateGlobalIdxDone

/-- Where `AppendBatch` is: the batch, and the rounds to go. -/
inductive BackendPc
  | idle
  | sending (es : List LogEntry) (todo : List (ℕ × ℕ))
  | waiting (es : List LogEntry) (todo : List (ℕ × ℕ))

/-- The backend and the shards. The last two fields are a history: the entries given to `AppendBatch`, and the
indices given to `UpdateGlobalIdx`. -/
structure Cluster where
  shards : ℕ → Shard
  pc : BackendPc
  updating : Bool
  log : List LogEntry
  issued : List UInt64

/-- The vector `es` is the batch `xs` that follows on from the log `L`, with or without an entry of index zero
at its end. Indices stay below `2 ^ 63`. -/
structure Batch (L es xs : List LogEntry) : Prop where
  eq : es = xs ∨ ∃ x, x.logIdx = 0 ∧ es = xs ++ [x]
  ne_nil : xs ≠ []
  indexed : ∀ (j : ℕ) (e : LogEntry), xs[j]? = some e → e.logIdx.toNat = L.length + j
  sized : ∀ e ∈ xs, e.Sized
  flagged : ∀ e ∈ xs, e.flags ≠ 0
  le : L.length + xs.length ≤ 2 ^ 63

/-- The requests of a round are sent. A request stays on its way for any time, so that it makes no difference
that they are sent one after the other. -/
def sendRound (k : Striping) (es : List LogEntry) (round : ℕ × ℕ) (bufs : ℕ → Mem)
    (shards : ℕ → Shard) : ℕ → Shard := fun sh =>
  match (requests k (startIdx es) round).find? fun r => r.shardId = sh with
  | none => shards sh
  | some r =>
    let m := multiSerializer es r.frm r.upTo k.shardNum (bufs sh) 0
    { shards sh with pc := .requested ⟨m.1, m.2.2⟩ }

/-- One step of a backend whose shard `sh` has `r sh` backups. -/
inductive Step (k : Striping) (r : ℕ → ℕ) : Event → Cluster → Cluster → Prop
  | appendBatch {s : Cluster} {es xs : List LogEntry} (hpc : s.pc = .idle) (hb : Batch s.log es xs) :
    Step k r (.appendBatch es) s
      { s with pc := .sending es (rounds k (startIdx es) (endIdx es)), log := s.log ++ xs }
  | send {s : Cluster} {es : List LogEntry} {round : ℕ × ℕ} {todo : List (ℕ × ℕ)} (bufs : ℕ → Mem)
    (hpc : s.pc = .sending es (round :: todo)) :
    Step k r .tau s
      { s with pc := .waiting es todo, shards := sendRound k es round bufs s.shards }
  | wait {s : Cluster} {es : List LogEntry} {todo : List (ℕ × ℕ)} (hpc : s.pc = .waiting es todo)
    (hall : ∀ sh < k.shardNum, (s.shards sh).pc = .idle ∨ (s.shards sh).pc = .replied) :
    Step k r .tau s
      { s with pc := .sending es todo, shards := fun sh => { s.shards sh with pc := .idle } }
  | appendBatchDone {s : Cluster} {es : List LogEntry} (hpc : s.pc = .sending es []) :
    Step k r .appendBatchDone s { s with pc := .idle }
  | updateGlobalIdx {s : Cluster} (idx : UInt64) (hu : s.updating = false) :
    Step k r (.updateGlobalIdx idx) s
      { s with
        updating := true
        issued := idx :: s.issued
        shards := fun sh => { s.shards sh with updating := some idx } }
  | updateGlobalIdxDone {s : Cluster} (hu : s.updating = true)
    (hall : ∀ sh < k.shardNum, (s.shards sh).updating = none) :
    Step k r .updateGlobalIdxDone s { s with updating := false }
  | shard {s : Cluster} {sh : ℕ} {s' : Shard} (hsh : sh < k.shardNum)
    (h : ShardStep k (r sh) (s.shards sh) s') :
    Step k r .tau s { s with shards := Function.update s.shards sh s' }

/-- Everything has just been started. -/
structure Start (s : Cluster) : Prop where
  shards : ∀ sh, s.shards sh =
    ⟨Server.empty, fun _ => Server.empty, .idle, fun _ => .idle, none, false, false⟩
  pc : s.pc = .idle
  updating : s.updating = false
  history : s.log = [] ∧ s.issued = []

/-- The backend and its shards. -/
def lts (k : Striping) (r : ℕ → ℕ) : Lts Event Cluster := ⟨Start, Step k r⟩

variable {k : Striping} {r : ℕ → ℕ} {a : Event} {s s' : Cluster} {f u sh : ℕ} {L es xs : List LogEntry}

/-! ### Batches -/

theorem Batch.isLog (h : Batch L es xs) (hL : IsLog L) : IsLog (L ++ xs) := by
  refine ⟨?_, ?_, ?_⟩
  · intro i e he
    rcases Nat.lt_or_ge i L.length with hi | hi
    · rw [List.getElem?_append_left hi] at he
      exact hL.indexed i e he
    · rw [List.getElem?_append_right hi] at he
      rw [h.indexed _ e he]
      omega
  · exact List.forall_mem_append.mpr ⟨hL.sized, h.sized⟩
  · exact List.forall_mem_append.mpr ⟨hL.flagged, h.flagged⟩

theorem Batch.prefix_eq (h : Batch L es xs) : ∃ tail, es = xs ++ tail := by
  rcases h.eq with rfl | ⟨x, -, rfl⟩
  · exact ⟨[], by simp⟩
  · exact ⟨[x], rfl⟩

theorem Batch.startIdx_eq (h : Batch L es xs) : startIdx es = L.length := by
  obtain ⟨tail, rfl⟩ := h.prefix_eq
  obtain ⟨x, xs, rfl⟩ := List.exists_cons_of_ne_nil h.ne_nil
  exact h.indexed 0 x rfl

/-- Whether or not an entry of index zero ends the batch, `end_idx` is its last index. -/
theorem Batch.endIdx_eq (h : Batch L es xs) : endIdx es + 1 = L.length + xs.length := by
  have hlen := List.length_pos_iff.mpr h.ne_nil
  obtain ⟨e, he⟩ : ∃ e, xs[xs.length - 1]? = some e := ⟨_, List.getElem?_eq_getElem (by omega)⟩
  have hidx := h.indexed _ e he
  unfold endIdx
  rcases h.eq with rfl | ⟨x, hx, rfl⟩
  · have hlast : es.getLastD default = e := by
      rw [List.getLastD_eq_getLast?, List.getLast?_eq_getElem?, he]
      rfl
    simp only [hlast, hidx]
    rw [if_neg (by omega)]
    omega
  · have hlast : (xs ++ [x]).getLastD default = x := by simp [List.getLastD_eq_getLast?]
    have hget : (xs ++ [x]).getD (xs.length + 1 - 2) default = e := by
      rw [List.getD_eq_getElem?_getD, List.getElem?_append_left (by omega),
        show xs.length + 1 - 2 = xs.length - 1 by omega, he]
      rfl
    simp only [hlast, hx, List.length_append, List.length_singleton]
    rw [if_pos ⟨by omega, rfl⟩, hget, hidx]
    omega

/-- The vector is the rest of the log from some entry at or before `x` on, with something after it. -/
def From (L es : List LogEntry) (x : ℕ) : Prop :=
  ∃ tail, startIdx es ≤ x ∧ es = L.drop (startIdx es) ++ tail

/-- **What a request of the round carries**, from places of the batch to indices of the log. -/
theorem From.carries {t : ℕ} (h : From L es f) (ht : t < L.length) (hft : f ≤ t)
    (hbase : k.base f = k.base t) (hsh : sh < k.shardNum) (buf : Mem) :
    Carries k L sh f (t + 1)
      ⟨(multiSerializer es (nextIdx k.shardNum sh f - startIdx es) (t - startIdx es) k.shardNum buf 0).1,
        (multiSerializer es (nextIdx k.shardNum sh f - startIdx es) (t - startIdx es) k.shardNum buf
          0).2.2⟩ := by
  obtain ⟨tail, hle, hes⟩ := h
  have hpos := k.shard_pos
  have hnext := le_nextIdx (i := sh) (u := f) hpos
  generalize startIdx es = st at hle hes ⊢
  subst hes
  have hshare : stride (L.drop st ++ tail) k.shardNum (nextIdx k.shardNum sh f - st) (t - st + 1) =
      share k L sh f (t + 1) := by
    rw [stride_append_left hpos (by rw [List.length_drop]; omega),
      show t - st + 1 = t + 1 - st by omega, stride_drop hpos (by omega) (by omega)]
    rfl
  have hlt : count k.shardNum (nextIdx k.shardNum sh f - st) (t - st + 1) < 2 ^ 32 := by
    have h1 := length_shardStripes_le k L sh (t + 1) (k.base f)
    rw [shardStripes_round hsh hft hbase ht, Function.update_self, List.length_append] at h1
    have h2 := congrArg List.length hshare
    rw [length_stride] at h2
    have h3 := k.stripe_lt
    unfold share at h2
    omega
  obtain ⟨m', h1, h2⟩ := multiSerializer_eq (L.drop st ++ tail) (nextIdx k.shardNum sh f - st) (t - st)
    hpos buf 0 hlt
  rw [hshare] at h1 h2
  rw [h1]
  exact ⟨h2, rfl⟩

/-! ### The invariant -/

/-- No request is on its way or being handled. -/
def Quiet (k : Striping) (s : Cluster) : Prop := ∀ sh < k.shardNum, (s.shards sh).pc = .idle

/-- What is known at each place of `AppendBatch`. -/
def PcOk (k : Striping) (s : Cluster) (f u : ℕ) : Prop :=
  match s.pc with
  | .idle => f = u ∧ u = s.log.length ∧ Quiet k s
  | .sending es todo => f = u ∧ Cover k.big u todo s.log.length ∧ Quiet k s ∧ From s.log es u
  | .waiting es todo => Cover k.big u todo s.log.length ∧ From s.log es f

/-- **The invariant of the storage**: the round in progress is from `f` to `u`. -/
structure Inv (k : Striping) (r : ℕ → ℕ) (s : Cluster) (f u : ℕ) : Prop where
  isLog : IsLog s.log
  le : f ≤ u
  le_length : u ≤ s.log.length
  shards : ∀ sh < k.shardNum, ShardOk k s.log (r sh) sh f u (s.shards sh)
  pcOk : PcOk k s f u

theorem shardOk_append {n x : ℕ} {v : Shard} (h : ShardOk k L n sh x x v) (hpc : v.pc = .idle)
    (hx : x ≤ L.length) (xs : List LogEntry) : ShardOk k (L ++ xs) n sh x x v := by
  unfold ShardOk at h ⊢
  rw [hpc] at h ⊢
  obtain ⟨hu, ⟨hv, hbs⟩, hrep⟩ := h
  refine ⟨hu, ⟨?_, ?_⟩, hrep⟩
  · rwa [shardStripes_append hx]
  · rwa [shardStripes_append hx]

theorem Inv.appendBatch (h : Inv k r s f u) (hpc : s.pc = .idle) (hb : Batch s.log es xs) :
    Inv k r { s with pc := .sending es (rounds k (startIdx es) (endIdx es)), log := s.log ++ xs } f u := by
  have hok := h.pcOk
  unfold PcOk at hok
  rw [hpc] at hok
  obtain ⟨rfl, hlen, hq⟩ := hok
  have hpos := List.length_pos_iff.mpr hb.ne_nil
  have hend := hb.endIdx_eq
  refine ⟨hb.isLog h.isLog, Nat.le_refl _, ?_, fun sh hsh => ?_, rfl, ?_, hq, ?_⟩
  · rw [List.length_append]
    omega
  · exact shardOk_append (h.shards sh hsh) (hq sh hsh) h.le_length xs
  · have hcov := cover_rounds (k := k) (show startIdx es ≤ endIdx es by rw [hb.startIdx_eq]; omega)
    rw [hend, ← List.length_append] at hcov
    rwa [hb.startIdx_eq, ← hlen] at hcov ⊢
  · obtain ⟨tail, htail⟩ := hb.prefix_eq
    refine ⟨tail, by rw [hb.startIdx_eq, hlen], ?_⟩
    rw [hb.startIdx_eq, List.drop_left]
    exact htail

theorem Inv.send {round : ℕ × ℕ} {todo : List (ℕ × ℕ)} (h : Inv k r s f u)
    (hpc : s.pc = .sending es (round :: todo)) (bufs : ℕ → Mem) :
    Inv k r { s with pc := .waiting es todo, shards := sendRound k es round bufs s.shards } u
      (round.2 + 1) := by
  have hok := h.pcOk
  unfold PcOk at hok
  rw [hpc] at hok
  obtain ⟨rfl, hcov, hq, hfrom⟩ := hok
  obtain ⟨f', t⟩ := round
  obtain ⟨rfl, hft, hdiv, hcov'⟩ := hcov
  simp only at hft hdiv hcov' h hfrom ⊢
  have hbase : k.base f' = k.base t := congrArg (· * k.big) hdiv
  have hlt : t < s.log.length := hcov'.le
  obtain ⟨tail, hstart, hes⟩ := hfrom
  refine ⟨h.isLog, by omega, hlt, fun sh hsh => ?_, hcov', tail, hstart, hes⟩
  have hrest := h.shards sh hsh
  have hidle := hq sh hsh
  unfold ShardOk at hrest
  rw [hidle] at hrest
  obtain ⟨-, hall, hrep⟩ := hrest
  show ShardOk k s.log (r sh) sh f' (t + 1) (sendRound k es (f', t) bufs s.shards sh)
  cases hfind : (requests k (startIdx es) (f', t)).find? fun q => q.shardId = sh with
  | none =>
    -- no request for the shard, so no entry either
    have hnext : t < nextIdx k.shardNum sh f' := by
      by_contra hle
      obtain ⟨q, hq1, hq2⟩ := exists_request (startIdx es) hsh (not_lt.mp hle)
      have := List.find?_eq_none.mp hfind q hq1
      simp [hq2] at this
    have hsend : sendRound k es (f', t) bufs s.shards sh = s.shards sh := by
      unfold sendRound
      rw [hfind]
    rw [hsend]
    unfold ShardOk
    rw [hidle]
    exact ⟨hnext, hall, hrep⟩
  | some q =>
    obtain ⟨hnext, hfrm, hupTo⟩ := mem_requests hstart hsh (List.mem_of_find?_eq_some hfind)
      (by simpa using List.find?_some hfind)
    have hcar := From.carries ⟨tail, hstart, hes⟩ hlt hft hbase hsh (bufs sh)
    have hsend : sendRound k es (f', t) bufs s.shards sh = { s.shards sh with
        pc := .requested ⟨(multiSerializer es q.frm q.upTo k.shardNum (bufs sh) 0).1,
          (multiSerializer es q.frm q.upTo k.shardNum (bufs sh) 0).2.2⟩ } := by
      unfold sendRound
      rw [hfind]
    rw [hsend, hfrm, hupTo]
    exact ⟨⟨h.isLog, by omega, hbase, hlt⟩, hcar, ⟨hall.primary, hall.backup⟩, hrep.congr rfl rfl⟩

/-- A shard that has answered, or had nothing to do, has come to the end of the round. -/
theorem shardOk_wait {n : ℕ} {v : Shard} (h : ShardOk k L n sh f u v) (hfu : f ≤ u)
    (hpc : v.pc = .idle ∨ v.pc = .replied) :
    ShardOk k L n sh u u { v with pc := .idle } := by
  unfold ShardOk at h
  rcases hpc with hpc | hpc
  · rw [hpc] at h
    obtain ⟨hnext, hall, hrep⟩ := h
    refine ⟨le_nextIdx k.shard_pos, ⟨?_, ?_⟩, ?_, ?_, hrep.zero⟩
    · rw [shardStripes_skip hfu hnext]
      exact hall.primary
    · rw [shardStripes_skip hfu hnext]
      exact hall.backup
    · intro idx hidx hmod
      refine hrep.le idx ?_ hmod
      by_contra hge
      have heq : idx = sh + idx / k.shardNum * k.shardNum := by
        rw [← hmod, Nat.mod_add_div']
      have := nextIdx_le (i := sh) (u := f) (j := idx / k.shardNum) k.shard_pos (by omega)
      omega
    · intro hset
      exact lt_of_lt_of_le (hrep.lt hset) hfu
  · rw [hpc] at h
    obtain ⟨hall, hrep⟩ := h
    exact ⟨le_nextIdx k.shard_pos, ⟨hall.primary, hall.backup⟩, hrep.congr rfl rfl⟩

theorem Inv.wait {todo : List (ℕ × ℕ)} (h : Inv k r s f u) (hpc : s.pc = .waiting es todo)
    (hall : ∀ sh < k.shardNum, (s.shards sh).pc = .idle ∨ (s.shards sh).pc = .replied) :
    Inv k r { s with pc := .sending es todo, shards := fun sh => { s.shards sh with pc := .idle } }
      u u := by
  have hok := h.pcOk
  unfold PcOk at hok
  rw [hpc] at hok
  obtain ⟨hcov, tail, hstart, hes⟩ := hok
  refine ⟨h.isLog, Nat.le_refl _, h.le_length, fun sh hsh => ?_, rfl, hcov, fun _ _ => rfl, tail,
    hstart.trans h.le, hes⟩
  exact shardOk_wait (h.shards sh hsh) h.le (hall sh hsh)

theorem Inv.shard {v : Shard} (h : Inv k r s f u) (hsh : sh < k.shardNum)
    (hstep : ShardStep k (r sh) (s.shards sh) v) :
    Inv k r { s with shards := Function.update s.shards sh v } f u := by
  have hquiet : Quiet k s → Quiet k { s with shards := Function.update s.shards sh v } := by
    intro hq sh' hsh'
    show (Function.update s.shards sh v sh').pc = .idle
    rcases eq_or_ne sh' sh with rfl | hne
    · rw [Function.update_self]
      exact hstep.pc_idle (hq sh' hsh')
    · rw [Function.update_of_ne hne]
      exact hq sh' hsh'
  refine ⟨h.isLog, h.le, h.le_length, fun sh' hsh' => ?_, ?_⟩
  · show ShardOk k s.log (r sh') sh' f u (Function.update s.shards sh v sh')
    rcases eq_or_ne sh' sh with rfl | hne
    · rw [Function.update_self]
      exact (h.shards sh' hsh').step hsh hstep
    · rw [Function.update_of_ne hne]
      exact h.shards sh' hsh'
  · have hok := h.pcOk
    unfold PcOk at hok ⊢
    cases hpc : s.pc with
    | idle =>
      rw [hpc] at hok
      exact ⟨hok.1, hok.2.1, hquiet hok.2.2⟩
    | sending es todo =>
      rw [hpc] at hok
      exact ⟨hok.1, hok.2.1, hquiet hok.2.2.1, hok.2.2.2⟩
    | waiting es todo =>
      rw [hpc] at hok
      exact hok

/-- **One step** keeps the invariant, for the round it leaves in progress; rounds go forward. -/
theorem Inv.step (h : Inv k r s f u) (hs : Step k r a s s') : ∃ f' u', f ≤ f' ∧ Inv k r s' f' u' := by
  cases hs with
  | appendBatch hpc hb => exact ⟨f, u, Nat.le_refl f, h.appendBatch hpc hb⟩
  | send bufs hpc => exact ⟨u, _, h.le, h.send hpc bufs⟩
  | wait hpc hall => exact ⟨u, u, h.le, h.wait hpc hall⟩
  | appendBatchDone hpc =>
    have hok := h.pcOk
    unfold PcOk at hok
    rw [hpc] at hok
    obtain ⟨hfu, hcov, hq, -⟩ := hok
    exact ⟨f, u, Nat.le_refl f, h.isLog, h.le, h.le_length, h.shards, hfu, hcov, hq⟩
  | updateGlobalIdx idx hu =>
    refine ⟨f, u, Nat.le_refl f, h.isLog, h.le, h.le_length, fun sh hsh => ?_, h.pcOk⟩
    exact (h.shards sh hsh).congr rfl rfl rfl (fun _ hx => hx) rfl rfl
  | updateGlobalIdxDone hu hall =>
    exact ⟨f, u, Nat.le_refl f, h.isLog, h.le, h.le_length, h.shards, h.pcOk⟩
  | shard hsh hstep => exact ⟨f, u, Nat.le_refl f, h.shard hsh hstep⟩

theorem Inv.start (h : Start s) : Inv k r s 0 0 := by
  obtain ⟨hsh, hpc, -, hlog, -⟩ := h
  refine ⟨?_, Nat.le_refl _, Nat.zero_le _, fun sh _ => ?_, ?_⟩
  · rw [hlog]
    exact ⟨fun i e he => by simp at he, by simp, by simp⟩
  · rw [hsh]
    refine ⟨Nat.zero_le _, ⟨?_, fun b _ => ⟨rfl, ?_⟩⟩, fun idx h => by omega, ?_, fun _ => rfl⟩
    · rw [shardStripes_zero]
      exact stores_empty
    · rw [shardStripes_zero]
      exact stores_empty
    · rintro ⟨⟩
  · unfold PcOk
    rw [hpc]
    refine ⟨rfl, by rw [hlog]; rfl, fun sh _ => ?_⟩
    rw [hsh]

theorem inv_of_reach (h : Reach Start (fun s s' => ∃ a, Step k r a s s') s) :
    ∃ f u, Inv k r s f u := by
  refine h.invariant (P := fun s => ∃ f u, Inv k r s f u) (fun s hs => ⟨0, 0, Inv.start hs⟩) ?_
  rintro s s' - ⟨f, u, hi⟩ ⟨a, hs⟩
  obtain ⟨f', u', -, hi'⟩ := hi.step hs
  exact ⟨f', u', hi'⟩

/-! ### The indices of `UpdateGlobalIdx` -/

/-- `global_index_` is the first value, or has been issued. -/
structure GlobalOk (issued : List UInt64) (v : Shard) : Prop where
  zero : v.globalSet = false → v.primary.globalIndex = 0
  mem : v.globalSet = true → v.primary.globalIndex ∈ issued
  onWay : ∀ idx, v.updating = some idx → idx ∈ issued

theorem GlobalOk.step {n : ℕ} {v v' : Shard} {issued : List UInt64} (h : GlobalOk issued v)
    (hs : ShardStep k n v v') : GlobalOk issued v' := by
  obtain ⟨hz, hm, hw⟩ := h
  cases hs with
  | replicate bufs hpc => exact ⟨hz, hm, hw⟩
  | @add req p fd hpc hp hfree =>
    have hadd := (storeBatch_indices k v.primary (requestBase k req.buf) req.buf p).2
    exact ⟨by rw [hadd]; exact hz, by rw [hadd]; exact hm, hw⟩
  | repAdd hb hpc hp hfree => exact ⟨hz, hm, hw⟩
  | finish hpc hall => exact ⟨hz, hm, hw⟩
  | updateGlobal hu =>
    refine ⟨?_, fun _ => hw _ hu, ?_⟩
    · rintro ⟨⟩
    · rintro idx ⟨⟩
  | readLoad base rd hfree =>
    have hread : (readLoad k v.primary base rd).globalIndex = v.primary.globalIndex := by
      unfold ShardServer.readLoad
      split
      · rfl
      · exact (loadFromDiskToCache_indices _ _ _ _).2
    exact ⟨by rw [hread]; exact hz, by rw [hread]; exact hm, hw⟩

theorem globalOk_of_reach (h : Reach Start (fun s s' => ∃ a, Step k r a s s') s) :
    ∀ sh, GlobalOk s.issued (s.shards sh) := by
  refine h.invariant (P := fun s => ∀ sh, GlobalOk s.issued (s.shards sh)) (fun s hs sh => ?_) ?_
  · rw [hs.shards]
    exact ⟨fun _ => rfl, by rintro ⟨⟩, by rintro idx ⟨⟩⟩
  · rintro s s' - hi ⟨a, hs⟩ sh
    obtain ⟨hz, hm, hw⟩ := hi sh
    cases hs with
    | appendBatch hpc hb => exact ⟨hz, hm, hw⟩
    | send bufs hpc =>
      show GlobalOk s.issued (sendRound _ _ _ _ _ _)
      unfold sendRound
      split <;> exact ⟨hz, hm, hw⟩
    | wait hpc hall => exact ⟨hz, hm, hw⟩
    | appendBatchDone hpc => exact ⟨hz, hm, hw⟩
    | updateGlobalIdx idx hu =>
      refine ⟨hz, fun hset => List.mem_cons_of_mem _ (hm hset), ?_⟩
      rintro idx' ⟨⟩
      exact List.mem_cons_self ..
    | updateGlobalIdxDone hu hall => exact ⟨hz, hm, hw⟩
    | @shard _ sh' v hsh hstep =>
      show GlobalOk s.issued (Function.update s.shards sh' v sh)
      rcases eq_or_ne sh sh' with rfl | hne
      · rw [Function.update_self]
        exact (hi sh).step hstep
      · rw [Function.update_of_ne hne]
        exact hi sh

end LazyLog.Storage.Store
