import LazyLog.ConsLog.Order
import LazyLog.Storage.Reads

/-! # The ordered tail and the storage

The pipelined consensus log calls the backend: its steps that start a call or see it return are taken
together with the storage, everything else goes on independently. What is proved here is proved of the
abstract shared log in the same place, and holds of the pipeline because it refines it.

The storage is behind the shared log by the batch being stored, at most: `TailOk` links the round of the
storage, the batches given to it, the entries marked as ordered and the indices issued. -/

namespace LazyLog.Service.Tail

open LazyLog.Lib.Bytes LazyLog.Lib.Transition LazyLog.Rpc.Entry LazyLog.DurLog.Flat LazyLog.DurLog.Ring
open LazyLog.DurLog.FlatCli LazyLog.ConsLog LazyLog.ConsLog.Batches LazyLog.ConsLog.Link
open LazyLog.ConsLog.Spec (SharedLog)
open LazyLog.Storage LazyLog.Storage.ShardServer LazyLog.Storage.Replication LazyLog.Storage.Reads
open LazyLog.Storage.Store (Cluster Event Batch BackendPc)

/-! ### The system -/

/-- The calls of the consensus log are calls of the backend. -/
def link : Label → Option Event
  | .tau | .append _ => none
  | .appendBatch es => some (.appendBatch es)
  | .appendBatchDone => some .appendBatchDone
  | .updateGlobalIdx idx => some (.updateGlobalIdx idx)
  | .updateGlobalIdxDone => some .updateGlobalIdxDone

/-- A consensus log and the storage. -/
def withStorage {σ : Type} (A : Lts Label σ) (k : Striping) (r : ℕ → ℕ) : Lts (Label ⊕ Event) (σ × Cluster) :=
  A.sync (Store.lts k r) link (· = .tau)

variable {c : Config} {maxFetchSize : ℕ} {k : Striping} {r : ℕ → ℕ} {a : Label} {x x' : SharedLog}
  {s s' : Cluster} {f u n : ℕ} {es xs : List LogEntry}

/-! ### The invariant -/

/-- What the storage knows of the shared log, at each phase. -/
structure TailOk (k : Striping) (r : ℕ → ℕ) (x : SharedLog) (s : Cluster) (f u : ℕ) : Prop where
  inv : Store.Inv k r s f u
  ordered_le : x.ordered ≤ f
  log : s.log = x.log.take x.given
  idle : x.phase ≠ .storing → s.pc = .idle
  free : x.phase ≠ .updating → s.updating = false
  issued : ∀ v ∈ s.issued, v.toNat < x.ordered

theorem TailOk.length_eq (h : TailOk k r x s f u) (hx : Spec.Inv x) : s.log.length = x.given := by
  rw [h.log, List.length_take]
  exact min_eq_left hx.given_le

/-- When no batch is being stored, all that was given to the storage is there. -/
theorem TailOk.given_eq (h : TailOk k r x s f u) (hx : Spec.Inv x) (hp : x.phase ≠ .storing) :
    f = x.given := by
  have hok := h.inv.pcOk
  unfold Store.PcOk at hok
  rw [h.idle hp] at hok
  rw [hok.1, hok.2.1, h.length_eq hx]

theorem TailOk.batch (h : TailOk k r x s f u) (hx : Spec.Inv x) (hn : 0 < n)
    (hle : x.given + n ≤ x.log.length) :
    Batch s.log (batch x.log x.given n) ((x.log.drop x.given).take n) := by
  have hlen := h.length_eq hx
  have hmem : ∀ {e}, e ∈ (x.log.drop x.given).take n → e ∈ x.log := fun he =>
    List.mem_of_mem_drop (List.mem_of_mem_take he)
  refine ⟨Or.inr ⟨_, rfl, rfl⟩, ?_, ?_, fun e he => hx.sized e (hmem he),
    fun e he => hx.flagged e (hmem he), ?_⟩
  · rw [← List.length_pos_iff, List.length_take, List.length_drop]
    omega
  · intro j e he
    rw [List.getElem?_take] at he
    split_ifs at he
    rw [List.getElem?_drop] at he
    rw [hx.indexed _ e he, hlen]
  · have := hx.length_le
    rw [List.length_take, List.length_drop]
    omega

/-- The end entry of a batch is not stored: its index is not the next one. -/
theorem eq_take_of_batch (h : Batch s.log (batch x.log x.given n) xs) (hle : x.given + n ≤ x.log.length)
    (hn : 0 < n) : xs = (x.log.drop x.given).take n := by
  rcases h.eq with heq | ⟨y, -, heq⟩
  · have hlast : xs[n]? = some (sentinel (LazyLog.Lib.Tiling.pos entrySize x.log (x.given + n))) := by
      rw [← heq]
      unfold Batches.batch
      rw [List.getElem?_append_right (by simp), List.length_take, List.length_drop,
        min_eq_left (by omega), Nat.sub_self]
      rfl
    have hzero := h.indexed n _ hlast
    have : (sentinel (LazyLog.Lib.Tiling.pos entrySize x.log (x.given + n))).logIdx.toNat = 0 := rfl
    omega
  · unfold Batches.batch at heq
    exact (List.append_inj' heq rfl).1.symm

/-! ### Steps -/

theorem TailOk.left (h : TailOk k r x s f u) (hx : Spec.Inv x) (hs : Spec.Step a x x')
    (hl : link a = none) : TailOk k r x' s f u := by
  cases hs with
  | tau => exact h
  | append hrec hlt =>
    refine ⟨h.inv, h.ordered_le, ?_, h.idle, h.free, h.issued⟩
    rw [List.take_append_of_le_length hx.given_le]
    exact h.log
  | mark hp =>
    have hf := h.given_eq hx (by rw [hp]; rintro ⟨⟩)
    exact ⟨h.inv, hf.ge, h.log, h.idle, h.free,
      fun v hv => lt_of_lt_of_le (h.issued v hv) hx.ordered_le⟩
  | appendBatch => cases hl
  | appendBatchDone => cases hl
  | updateGlobalIdx => cases hl
  | updateGlobalIdxDone => cases hl

theorem TailOk.both {b : Event} (h : TailOk k r x s f u) (hs : Spec.Step a x x')
    (hl : link a = some b) (he : Store.Step k r b s s') : ∃ f' u', TailOk k r x' s' f' u' := by
  obtain ⟨f', u', hff, hinv⟩ := h.inv.step he
  have hord := h.ordered_le.trans hff
  cases hs with
  | tau => cases hl
  | append => cases hl
  | mark => cases hl
  | appendBatch hp hn hle =>
    cases hl
    cases he with
    | appendBatch hpc hb =>
      obtain rfl := eq_take_of_batch hb hle hn
      refine ⟨f', u', hinv, hord, ?_, fun hne => absurd rfl hne, fun _ => ?_, h.issued⟩
      · simp only [h.log]
        exact (List.take_add ..).symm
      · exact h.free (by rw [hp]; rintro ⟨⟩)
  | appendBatchDone hp =>
    cases hl
    cases he with
    | appendBatchDone hpc =>
      exact ⟨f', u', hinv, hord, h.log, fun _ => rfl, fun _ => h.free (by rw [hp]; rintro ⟨⟩), h.issued⟩
  | @updateGlobalIdx _ idx hp ho hidx =>
    cases hl
    cases he with
    | updateGlobalIdx _ hu =>
      refine ⟨f', u', hinv, hord, h.log, fun _ => h.idle (by rw [hp]; rintro ⟨⟩),
        fun hne => absurd rfl hne, ?_⟩
      intro v hv
      rcases List.mem_cons.mp hv with rfl | hv
      · simp only
        omega
      · exact h.issued v hv
  | updateGlobalIdxDone hp =>
    cases hl
    cases he with
    | updateGlobalIdxDone hu hall =>
      exact ⟨f', u', hinv, hord, h.log, fun _ => h.idle (by rw [hp]; rintro ⟨⟩), fun _ => rfl, h.issued⟩

theorem TailOk.right (h : TailOk k r x s f u) (he : Store.Step k r .tau s s') :
    ∃ f' u', TailOk k r x s' f' u' := by
  obtain ⟨f', u', hff, hinv⟩ := h.inv.step he
  have hord := h.ordered_le.trans hff
  cases he with
  | send bufs hpc =>
    refine ⟨f', u', hinv, hord, h.log, fun hp => ?_, h.free, h.issued⟩
    rw [h.idle hp] at hpc
    cases hpc
  | wait hpc hall =>
    refine ⟨f', u', hinv, hord, h.log, fun hp => ?_, h.free, h.issued⟩
    rw [h.idle hp] at hpc
    cases hpc
  | shard hsh hstep => exact ⟨f', u', hinv, hord, h.log, h.idle, h.free, h.issued⟩

/-- **The invariant of the shared log and the storage.** -/
theorem tailOk_of_reachable (h : (withStorage Spec.lts k r).Reachable (x, s)) :
    Spec.Inv x ∧ ∃ f u, TailOk k r x s f u := by
  refine ⟨Spec.inv_of_reachable h.fst, ?_⟩
  refine h.invariant (P := fun y => ∃ f u, TailOk k r y.1 y.2 f u) ?_ ?_
  · rintro ⟨x, s⟩ ⟨hx, hs⟩
    obtain rfl : x = _ := hx
    refine ⟨0, 0, Store.Inv.start hs, Nat.le_refl _, hs.history.1, fun _ => hs.pc, fun _ => hs.updating, ?_⟩
    intro v hv
    rw [hs.history.2] at hv
    cases hv
  · rintro b y y' hr ⟨f, u, hok⟩ hs
    have hx := Spec.inv_of_reachable hr.fst
    cases hs with
    | left hl hs => exact ⟨f, u, hok.left hx hs hl⟩
    | both hl hs he => exact hok.both hs hl he
    | right ho he =>
      obtain rfl := ho
      exact hok.right he

/-! ### The storage takes every call -/

theorem exists_tailOk {p : Pipeline.Sys}
    (h : (withStorage (Pipeline.lts c maxFetchSize) k r).Reachable (p, s)) :
    ∃ g st f u, (∃ f', Pipeline.Inv c p g st f') ∧ Spec.Inv (p.abs g st) ∧
      TailOk k r (p.abs g st) s f u := by
  obtain ⟨⟨x, s⟩, hx, ⟨g, st, f', hI, rfl⟩, rfl⟩ :=
    ((Pipeline.simulation c maxFetchSize).sync _ _ _).reachable h
  obtain ⟨hspec, f, u, hok⟩ := tailOk_of_reachable hx
  exact ⟨g, st, f, u, ⟨f', hI⟩, hspec, hok⟩

/-- **No call is refused**: the storage is ready for each batch and each index when the consensus log has
it. So the steps taken together restrict the order of the calls only, as the source does. -/
theorem call_accepted {p p' : Pipeline.Sys}
    (h : (withStorage (Pipeline.lts c maxFetchSize) k r).Reachable (p, s))
    (hs : Pipeline.Step c maxFetchSize a p p') {b : Event} (hl : link a = some b) :
    (∃ s', Store.Step k r b s s') ∨ b = .appendBatchDone ∨ b = .updateGlobalIdxDone := by
  obtain ⟨g, st, f, u, ⟨f', hI⟩, hspec, hok⟩ := exists_tailOk h
  obtain ⟨g', st', f'', -, hs'⟩ := hI.step hs
  generalize p.abs g st = x, p'.abs g' st' = x' at hspec hok hs'
  cases hs' with
  | tau => cases hl
  | append => cases hl
  | mark => cases hl
  | appendBatch hp hn hle =>
    cases hl
    exact Or.inl ⟨_, .appendBatch (hok.idle (by rw [hp]; rintro ⟨⟩)) (hok.batch hspec hn hle)⟩
  | appendBatchDone =>
    cases hl
    exact Or.inr (Or.inl rfl)
  | updateGlobalIdx hp ho hidx =>
    cases hl
    exact Or.inl ⟨_, .updateGlobalIdx _ (hok.free (by rw [hp]; rintro ⟨⟩))⟩
  | updateGlobalIdxDone =>
    cases hl
    exact Or.inr (Or.inr rfl)

/-! ### Rounds -/

theorem reach_pipeline {p p' : Pipeline.Sys}
    (h : (withStorage (Pipeline.lts c maxFetchSize) k r).Reachable (p, s))
    (hrun : Relation.ReflTransGen (Pipeline.Step c maxFetchSize .tau) p p') :
    (withStorage (Pipeline.lts c maxFetchSize) k r).Reachable (p', s) := by
  induction hrun with
  | refl => exact h
  | tail _ hs ih => exact ih.left hs rfl

theorem reach_storage {p : Pipeline.Sys}
    (h : (withStorage (Pipeline.lts c maxFetchSize) k r).Reachable (p, s))
    (hrun : Relation.ReflTransGen (Completion.Tau k r) s s') :
    (withStorage (Pipeline.lts c maxFetchSize) k r).Reachable (p, s') := by
  induction hrun with
  | refl => exact h
  | tail _ hs ih => exact ih.right hs rfl

/-- **A round of the threads can go on with the storage to its end.** -/
theorem reach_round {p p' : Pipeline.Sys}
    (h : (withStorage (Pipeline.lts c maxFetchSize) k r).Reachable (p, s))
    (hr : Spec.Round (Pipeline.lts c maxFetchSize) es p p') :
    ∃ s', (withStorage (Pipeline.lts c maxFetchSize) k r).Reachable (p', s') := by
  obtain ⟨p₁, p₂, p₃, p₄, p₅, idx, hfetch, hgive, hret, hmark, hidx, hend⟩ := hr
  have h₁ := reach_pipeline h hfetch
  -- the batch is accepted, and `AppendBatch` returns
  obtain ⟨s₁, hs₁⟩ : ∃ s₁, Store.Step k r (.appendBatch es) s s₁ := by
    rcases call_accepted h₁ hgive rfl with hs | hs | hs
    · exact hs
    · cases hs
    · cases hs
  have h₂ := h₁.both hgive hs₁ rfl
  have hbusy : s₁.pc ≠ .idle := by
    cases hs₁
    rintro ⟨⟩
  obtain ⟨f, u, hinv⟩ := Store.inv_of_reach h₂.snd
  obtain ⟨s₂, es', hrun, hpc⟩ := Completion.append_completes hinv hbusy
  have h₃ := (reach_storage h₂ hrun).both hret (.appendBatchDone hpc) rfl
  have h₄ := reach_pipeline h₃ hmark
  -- so is the index, and `UpdateGlobalIdx` returns
  obtain ⟨s₃, hs₃⟩ : ∃ s₃, Store.Step k r (.updateGlobalIdx idx) _ s₃ := by
    rcases call_accepted h₄ hidx rfl with hs | hs | hs
    · exact hs
    · cases hs
    · cases hs
  have h₅ := h₄.both hidx hs₃ rfl
  have hup : s₃.updating = true := by
    cases hs₃
    rfl
  obtain ⟨s₄, hrun', hup', hall⟩ := Completion.update_completes k r s₃
  exact ⟨_, (reach_storage h₅ hrun').both hend (.updateGlobalIdxDone (hup'.trans hup) hall) rfl⟩

/-! ### The tail -/

/-- **The ordered tail never runs ahead of storage.** Every index below `*ordered_idx_watermk_` is on every
server of its shard, at its position in the cache, and covered by `replicated_index_`; every index given to
`UpdateGlobalIdx`, and every `global_index_` set from one, is below `*ordered_idx_watermk_`. -/
theorem ordered_tail_is_stored {p : Pipeline.Sys}
    (h : (withStorage (Pipeline.lts c maxFetchSize) k r).Reachable (p, s)) :
    (∀ idx < p.primary.log.orderedIdxWatermk,
      (∀ i : Option ℕ, (∀ b ∈ i, b < r (idx % k.shardNum)) → ∃ es e,
        (server (s.shards (idx % k.shardNum)) i).entriesCacheSet (k.base idx) = some es ∧
          es[(idx - k.base idx) / k.shardNum]? = some e ∧ (recs p.primary)[idx]? = some e) ∧
      idx ≤ (s.shards (idx % k.shardNum)).primary.replicatedIndex.toNat) ∧
    (∀ v ∈ s.issued, v.toNat < p.primary.log.orderedIdxWatermk) ∧
    ∀ sh, (s.shards sh).globalSet = true →
      (s.shards sh).primary.globalIndex.toNat < p.primary.log.orderedIdxWatermk := by
  obtain ⟨g, st, f, u, ⟨f', hI⟩, hspec, hok⟩ := exists_tailOk h
  have hmark : p.primary.log.orderedIdxWatermk = g := hI.primary.idxMark
  have hissued : ∀ v ∈ s.issued, v.toNat < g := hok.issued
  have hgf : g ≤ f := hok.ordered_le
  have hfu := hok.inv.le
  have hlen := hok.inv.le_length
  rw [hmark]
  refine ⟨fun idx hidx => ?_, hissued, fun sh hset => ?_⟩
  · have hshard := hok.inv.shards _ (Nat.mod_lt idx k.shard_pos)
    refine ⟨fun i hi => ?_, ?_⟩
    · obtain ⟨y, hy, hv⟩ := exists_stores hshard hi
      obtain ⟨es, e, hes, hget, he⟩ := cached_of_stores hv (by omega) (by omega)
      refine ⟨es, e, hes, hget, ?_⟩
      rw [hok.log, List.getElem?_take] at he
      split_ifs at he
      exact he
    · obtain ⟨y, hfy, hrep, -⟩ := hshard.replicated hfu
      exact hrep.le idx (by omega) rfl
  · exact hissued _ ((Store.globalOk_of_reach h.snd sh).mem hset)

/-- Three entries go through the pipeline and the two shards, in two batches. -/
theorem exists_two_batches : ∃ p s,
    (withStorage (Pipeline.lts .smallPrimary 0) twoShards fun _ => 1).Reachable (p, s) ∧
      recs p.primary = [emptyEntry 0, emptyEntry 1, emptyEntry 2] ∧
      p.primary.log.orderedIdxWatermk = 3 ∧ p.stored.length = 2 := by
  have h₀ : (withStorage (Pipeline.lts .smallPrimary 0) twoShards fun _ => 1).Reachable
      (Pipeline.resting ⟨.zeroed, []⟩ (fun _ => 0) 0 0 [],
        ⟨fun _ => ⟨Server.empty, fun _ => Server.empty, .idle, fun _ => .idle, none, false, false⟩, .idle,
          false, [], []⟩) :=
    .start ⟨⟨⟨FlatLog.zeroed_fresh, rfl⟩, fun _ => rfl, ⟨rfl, rfl, rfl⟩, ⟨rfl, rfl⟩, rfl, rfl⟩,
      ⟨fun _ => rfl, rfl, rfl, rfl, rfl⟩⟩
  have h₁ := h₀.left (.append default Link.canAppend_zeroed) rfl
  have h₂ := h₁.left (.append default canAppend_oneAppend) rfl
  obtain ⟨mr, hround, hp⟩ := Pipeline.exists_round primary_twoAppends
    (by rw [recs_twoAppends]; decide) (fun _ => 0) 0 []
  obtain ⟨s₂, h₃⟩ := reach_round h₂ hround
  obtain ⟨hcan, hrecs⟩ := Order.append_ordered hp
  have h₄ := h₃.left (.append default hcan) rfl
  obtain ⟨mr', hround', hp'⟩ := Pipeline.exists_round (hp.append hcan) (by rw [hrecs]; decide) mr 1 _
  obtain ⟨s₄, h₅⟩ := reach_round h₄ hround'
  refine ⟨_, s₄, h₅, (recs_landDelete ..).trans hrecs, hp'.idxMark.trans ?_, rfl⟩
  rw [hrecs]
  rfl

/-- Each of the three entries is on the backup of its shard. -/
theorem ordered_tail_is_stored_two : ∃ (p : Pipeline.Sys) (s : Cluster),
    p.primary.log.orderedIdxWatermk = 3 ∧ p.stored.length = 2 ∧ ∀ idx < 3, ∃ es,
      ((s.shards (idx % 2)).backups 0).entriesCacheSet (twoShards.base idx) = some es ∧
        es[(idx - twoShards.base idx) / 2]? = some (emptyEntry (UInt64.ofNat idx)) := by
  obtain ⟨p, s, hs, hrecs, hmark, hlen⟩ := exists_two_batches
  refine ⟨p, s, hmark, hlen, fun idx hidx => ?_⟩
  obtain ⟨hcache, -⟩ := (ordered_tail_is_stored hs).1 idx (by omega)
  obtain ⟨es, e, hes, hget, he⟩ := hcache (some 0) fun b hb => by cases hb; decide
  have hentry : [emptyEntry 0, emptyEntry 1, emptyEntry 2][idx]? = some (emptyEntry (UInt64.ofNat idx)) := by
    interval_cases idx
    · rfl
    · rfl
    · rfl
  rw [hrecs, hentry] at he
  cases he
  exact ⟨es, hes, hget⟩

end LazyLog.Service.Tail
