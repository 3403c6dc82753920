import LazyLog.Storage.Completion

/-! # Reads

What the readers of a shard may rely on. The stripes of every server, primary or backup, are those of the log,
filed by position, and a file that is full is left alone; so a read of an index that is answered returns the
entry of this index.

Whether that entry is stable, that is, on every backup and below an issued index, is decided by the two indices
of the primary, `replicated_index_` and `global_index_`. Both start at zero, which is also the index of an
entry. -/

namespace LazyLog.Storage.Reads

open LazyLog.Lib.Bytes LazyLog.Lib.Stride LazyLog.Lib.Run LazyLog.Rpc.Entry LazyLog.Rpc.Multi Relation
open LazyLog.Storage.ShardServer LazyLog.Storage.NaiveBackend LazyLog.Storage.Replication
open LazyLog.Storage.Store

variable {k : Striping} {r : ℕ → ℕ} {s s' : Cluster} {f u sh n b : ℕ} {L : List LogEntry}

/-- The storage, at any time. -/
def StoreReach (k : Striping) (r : ℕ → ℕ) : Cluster → Prop :=
  Reach Start fun s s' => ∃ a, Step k r a s s'

/-- A server of a shard: the primary, or a backup. -/
def server (v : Shard) : Option ℕ → Server
  | none => v.primary
  | some b => v.backups b

/-! ### Full stripes -/

theorem exists_stores {v : Shard} (h : ShardOk k L n sh f u v) {i : Option ℕ} (hi : ∀ b ∈ i, b < n) :
    ∃ x, (x = f ∨ x = u) ∧ Stores k (shardStripes k L sh x) (server v i) := by
  cases i with
  | none => exact h.primary
  | some b => exact h.backup (hi b rfl)

theorem cached_of_stores {v : Server} {x idx : ℕ}
    (hv : Stores k (shardStripes k L (idx % k.shardNum) x) v) (hx : x ≤ L.length) (hidx : idx < x) :
    ∃ es e, v.entriesCacheSet (k.base idx) = some es ∧
      es[(idx - k.base idx) / k.shardNum]? = some e ∧ L[idx]? = some e := by
  obtain ⟨e, he⟩ : ∃ e, L[idx]? = some e := ⟨_, List.getElem?_eq_getElem (by omega)⟩
  have hget := shardStripes_read (k := k) hx hidx
  rw [he] at hget
  have hne : shardStripes k L (idx % k.shardNum) x (k.base idx) ≠ [] := by
    intro hnil
    rw [hnil] at hget
    cases hget
  exact ⟨_, e, by rw [hv.cache, present_of_ne hne], hget, he⟩

/-- The stripe is full. -/
def Full (k : Striping) (v : Server) (b : ℕ) : Prop :=
  ∃ es, v.entriesCacheSet b = some es ∧ es.length = k.stripeUnitSize

/-- The stripe and its file are as before. -/
def Kept (v v' : Server) (b : ℕ) : Prop :=
  v'.entriesCacheSet b = v.entriesCacheSet b ∧ v'.files.data b = v.files.data b

theorem kept_storeBatch {req : MsgBuffer} {v : Server} {p : Opens} {fd : ℕ} (hc : Carries k L sh f u req)
    (ha : Active k L sh f u) (hsh : sh < k.shardNum) (hv : Stores k (shardStripes k L sh f) v)
    (hp : p.wr = some fd) (hfree : v.files.fds fd = none) (hfull : Full k v b) :
    Kept v (storeBatch k v (requestBase k req.buf) req.buf p) b := by
  have hlt := length_shardStripes_lt (L := L) hsh ha.base_eq (by have := ha.next_lt; omega)
  have hne : b ≠ k.base f := by
    rintro rfl
    obtain ⟨es, hes, hlen⟩ := hfull
    rw [hv.cache] at hes
    unfold present at hes
    split_ifs at hes
    cases hes
    omega
  have hL := ha.le_length
  have hnext := ha.next_lt
  have hround := shardStripes_round (L := L) hsh ha.le ha.base_eq (by omega)
  rw [show u - 1 + 1 = u by omega] at hround
  constructor
  · rw [(hc.store ha hsh hv hp hfree).cache, hv.cache, hround]
    unfold present
    rw [Function.update_of_ne hne]
  · rw [hc.requestBase_eq ha]
    exact hv.storeBatch_data hlt hp hfree req.buf hne

theorem kept_shardStep {v v' : Shard} (h : ShardOk k L n sh f u v) (hsh : sh < k.shardNum)
    (hs : ShardStep k n v v') {i : Option ℕ} (hfull : Full k (server v i) b) :
    Kept (server v i) (server v' i) b := by
  have hok := h
  unfold ShardOk at hok
  cases hs with
  | replicate bufs hpc => cases i <;> exact ⟨rfl, rfl⟩
  | add hpc hp hfree =>
    cases i with
    | none =>
      rw [hpc] at hok
      obtain ⟨ha, hc, hv, -, -⟩ := hok
      exact kept_storeBatch hc ha hsh hv hp hfree hfull
    | some b => exact ⟨rfl, rfl⟩
  | @repAdd b' req p fd hb hpc hp hfree =>
    cases i with
    | none => exact ⟨rfl, rfl⟩
    | some b'' =>
      show Kept (v.backups b'') (Function.update v.backups b' _ b'') b
      rcases eq_or_ne b'' b' with rfl | hne
      · rw [Function.update_self]
        obtain ⟨ha, hc, hv⟩ := h.busy hb hpc
        exact kept_storeBatch hc ha hsh hv hp hfree hfull
      · rw [Function.update_of_ne hne]
        exact ⟨rfl, rfl⟩
  | finish hpc hall => cases i <;> exact ⟨rfl, rfl⟩
  | updateGlobal hu => cases i <;> exact ⟨rfl, rfl⟩
  | readLoad base rd hfree =>
    obtain ⟨x, -, hv⟩ := h.primary
    rw [hv.readLoad]
    cases i <;> exact ⟨rfl, rfl⟩

theorem kept_step {a : Event} (h : StoreReach k r s) (hs : Step k r a s s') (hsh : sh < k.shardNum)
    {i : Option ℕ} (hfull : Full k (server (s.shards sh) i) b) :
    Kept (server (s.shards sh) i) (server (s'.shards sh) i) b := by
  obtain ⟨f, u, hI⟩ := inv_of_reach h
  cases hs with
  | appendBatch hpc hb => exact ⟨rfl, rfl⟩
  | send bufs hpc =>
    show Kept _ (server (sendRound _ _ _ _ _ sh) i) b
    unfold sendRound
    split <;> cases i <;> exact ⟨rfl, rfl⟩
  | wait hpc hall => cases i <;> exact ⟨rfl, rfl⟩
  | appendBatchDone hpc => exact ⟨rfl, rfl⟩
  | updateGlobalIdx idx hu => cases i <;> exact ⟨rfl, rfl⟩
  | updateGlobalIdxDone hu hall => exact ⟨rfl, rfl⟩
  | @shard _ sh' v hsh' hstep =>
    show Kept _ (server (Function.update s.shards sh' v sh) i) b
    rcases eq_or_ne sh sh' with rfl | hne
    · rw [Function.update_self]
      exact kept_shardStep (hI.shards sh hsh) hsh hstep hfull
    · rw [Function.update_of_ne hne]
      exact ⟨rfl, rfl⟩

/-- **A full stripe stays as it is**, in the cache and on disk, to the end of every run. -/
theorem kept_run (h : StoreReach k r s)
    (hrun : ReflTransGen (fun s s' => ∃ a, Step k r a s s') s s') (hsh : sh < k.shardNum)
    {i : Option ℕ} (hfull : Full k (server (s.shards sh) i) b) :
    Kept (server (s.shards sh) i) (server (s'.shards sh) i) b := by
  induction hrun with
  | refl => exact ⟨rfl, rfl⟩
  | @tail s₁ s₂ hrun hs ih =>
    obtain ⟨a, hs⟩ := hs
    obtain ⟨es, hes, hlen⟩ := hfull
    have hnext := kept_step (h.run hrun) hs hsh ⟨es, ih.1.trans hes, hlen⟩
    exact ⟨hnext.1.trans ih.1, hnext.2.trans ih.2⟩

/-! ### The first entry -/

/-- Two shards, stripes of four entries. -/
def twoShards : Striping := ⟨4, 2, oneShard.stripe_pos, oneShard.stripe_lt, by decide, by decide⟩

/-- Empty entries with the `m` indices from `i` on. -/
def numbered (i m : ℕ) : List LogEntry := (List.range' i m).map fun j => emptyEntry (UInt64.ofNat j)

theorem batch_numbered {m : ℕ} (hm : 0 < m) (hle : L.length + m ≤ 2 ^ 63) :
    Batch L (numbered L.length m) (numbered L.length m) := by
  have hlen : (numbered L.length m).length = m := by simp [numbered]
  refine ⟨Or.inl rfl, List.ne_nil_of_length_pos (by omega), fun j e he => ?_, ?_, ?_, by omega⟩
  · unfold numbered at he
    rw [List.getElem?_map, Option.map_eq_some_iff] at he
    obtain ⟨i, hi, rfl⟩ := he
    obtain ⟨hj, rfl⟩ := List.getElem?_eq_some_iff.mp hi
    rw [List.length_range'] at hj
    rw [List.getElem_range', one_mul]
    exact Nat.mod_eq_of_lt (show L.length + j < 2 ^ 64 by omega)
  · intro e he
    obtain ⟨i, -, rfl⟩ := List.mem_map.mp he
    rfl
  · intro e he
    obtain ⟨i, -, rfl⟩ := List.mem_map.mp he
    exact (by decide : (1 : UInt16) ≠ 0)

/-- The first entry is on the primary of its shard while the request to the backup is on its way. -/
theorem exists_added : ∃ s, StoreReach twoShards (fun _ => 1) s ∧ s.log = [emptyEntry 0] ∧ s.issued = [] ∧
    s.updating = false ∧ (∃ base, (s.shards 0).pc = .added base) ∧
    (∃ req, (s.shards 0).reps 0 = .requested req) ∧ (s.shards 0).backups 0 = Server.empty := by
  have h0 : StoreReach twoShards (fun _ => 1)
      ⟨fun _ => ⟨Server.empty, fun _ => Server.empty, .idle, fun _ => .idle, none, false, false⟩, .idle,
        false, [], []⟩ := .start ⟨fun _ => rfl, rfl, rfl, rfl, rfl⟩
  have h1 := h0.next ⟨_, .appendBatch rfl (batch_numbered (L := []) (m := 1) (by decide) (by decide))⟩
  have h2 := h1.next ⟨_, .send (fun _ _ => 0) (show _ = BackendPc.sending _ ((0, 0) :: []) from rfl)⟩
  have h3 := h2.next
    ⟨_, .shard (show 0 < twoShards.shardNum by decide) (.replicate (fun _ _ => 0) rfl)⟩
  have h4 := h3.next
    ⟨_, .shard (show 0 < twoShards.shardNum by decide) (.add (p := ⟨3, some 3⟩) rfl rfl rfl)⟩
  exact ⟨_, h4, rfl, rfl, rfl, ⟨_, rfl⟩, ⟨_, rfl⟩, rfl⟩

theorem read_first (hlog : s.log = [emptyEntry 0]) {x : ℕ} (hx : 0 < x) (hx' : x ≤ 1)
    (hv : Stores twoShards (shardStripes twoShards s.log 0 x) (s.shards 0).primary) :
    ∃ out, readEntry twoShards (s.shards 0).primary 0 (fun _ => 0) = some out := by
  have hget : (shardStripes twoShards s.log 0 x (twoShards.base 0))[(0 - twoShards.base 0) / 2]? =
      s.log[0]? := shardStripes_read (by rw [hlog]; exact hx') hx
  exact ⟨_, hv.readEntry_eq_some.mpr
    ⟨emptyEntry 0, hget.trans (by rw [hlog]; rfl), Nat.zero_le _, Nat.zero_le _, rfl⟩⟩

/-- A read of the first entry is answered before the backup has the entry. -/
theorem exists_read_added : ∃ s out, StoreReach twoShards (fun _ => 1) s ∧ s.log = [emptyEntry 0] ∧
    readEntry twoShards (s.shards 0).primary 0 (fun _ => 0) = some out ∧
    (s.shards 0).backups 0 = Server.empty ∧ s.issued = [] := by
  obtain ⟨s, hs, hlog, hissued, -, ⟨base, hpc⟩, -, hbackup⟩ := exists_added
  obtain ⟨f, u, hI⟩ := inv_of_reach hs
  have hok := hI.shards 0 (by decide)
  unfold ShardOk at hok
  rw [hpc] at hok
  obtain ⟨ha, -, hv, -, -⟩ := hok
  have hlt := ha.next_lt
  have hle := hI.le_length
  rw [hlog] at hle
  obtain ⟨out, hout⟩ := read_first hlog (by omega) hle hv
  exact ⟨s, out, hs, hlog, hout, hbackup, hissued⟩

/-- The read is answered, too, once both indices are set. -/
theorem exists_read_set : ∃ s out, StoreReach twoShards (fun _ => 1) s ∧
    readEntry twoShards (s.shards 0).primary 0 (fun _ => 0) = some out ∧
    (s.shards 0).replicatedSet = true ∧ (s.shards 0).globalSet = true := by
  obtain ⟨s, hs, hlog, hissued, hupd, ⟨base, hpc⟩, ⟨req, hreq⟩, hbackup⟩ := exists_added
  have h1 := hs.next ⟨_, .shard (show 0 < twoShards.shardNum by decide)
    (.repAdd (p := ⟨3, some 3⟩) (show 0 < 1 by decide) hreq rfl (by rw [hbackup]; rfl))⟩
  have h2 := h1.next ⟨_, .shard (show 0 < twoShards.shardNum by decide)
    (.finish hpc fun b hb => by rw [Nat.lt_one_iff.mp hb]; rfl)⟩
  have h3 := h2.next ⟨_, .updateGlobalIdx 0 hupd⟩
  have h4 := h3.next ⟨_, .shard (show 0 < twoShards.shardNum by decide) (.updateGlobal rfl)⟩
  obtain ⟨s', hs', hlog', hpc', hrep, hglb⟩ : ∃ s', StoreReach twoShards (fun _ => 1) s' ∧
      s'.log = [emptyEntry 0] ∧ (s'.shards 0).pc = .replied ∧ (s'.shards 0).replicatedSet = true ∧
      (s'.shards 0).globalSet = true := ⟨_, h4, hlog, rfl, rfl, rfl⟩
  obtain ⟨f, u, hI⟩ := inv_of_reach hs'
  have hok := hI.shards 0 (by decide)
  unfold ShardOk at hok
  rw [hpc'] at hok
  obtain ⟨hall, hy⟩ := hok
  have hlt := hy.lt hrep
  have hle := hI.le_length
  rw [hlog'] at hle
  obtain ⟨out, hout⟩ := read_first hlog' (by omega) hle hall.primary
  exact ⟨s', out, hs', hout, hrep, hglb⟩

/-! ### Batches -/

theorem reach_batch (h : StoreReach k r s) (hpc : s.pc = .idle) {es xs : List LogEntry} (hb : Batch s.log es xs) :
    ∃ s', StoreReach k r s' ∧ s'.pc = .idle ∧ s'.log = s.log ++ xs ∧ s'.updating = s.updating := by
  have h₁ := h.next ⟨_, .appendBatch hpc hb⟩
  obtain ⟨f, u, hI⟩ := inv_of_reach h₁
  obtain ⟨s₂, es₂, hrun, hpc₂⟩ := Completion.append_completes hI (by rintro ⟨⟩)
  obtain ⟨hlog, hup, -⟩ := Completion.history_run hrun
  have h₂ := h₁.run (ReflTransGen.mono (fun _ _ hs => ⟨_, hs⟩) _ _ hrun)
  exact ⟨_, h₂.next ⟨_, .appendBatchDone hpc₂⟩, rfl, hlog, hup⟩

theorem reach_update (h : StoreReach twoShards r s) (hu : s.updating = false) (idx : UInt64) :
    ∃ s', StoreReach twoShards r s' ∧ s'.pc = s.pc ∧ s'.log = s.log ∧ s'.updating = false ∧
      ∀ sh < twoShards.shardNum, (s'.shards sh).primary.globalIndex = idx := by
  have h₁ := h.next ⟨_, .updateGlobalIdx idx hu⟩
  have h₂ := h₁.next ⟨_, .shard (show 0 < twoShards.shardNum by decide) (.updateGlobal rfl)⟩
  have h₃ := h₂.next ⟨_, .shard (show 1 < twoShards.shardNum by decide) (.updateGlobal rfl)⟩
  have h₄ := h₃.next ⟨_, .updateGlobalIdxDone rfl fun sh hsh => by
    rcases (show sh = 0 ∨ sh = 1 from Nat.le_one_iff_eq_zero_or_eq_one.mp (Nat.lt_succ_iff.mp hsh)) with rfl | rfl <;>
      rfl⟩
  refine ⟨_, h₄, rfl, rfl, rfl, fun sh hsh => ?_⟩
  rcases Nat.le_one_iff_eq_zero_or_eq_one.mp (Nat.lt_succ_iff.mp hsh) with rfl | rfl <;> rfl

/-- Between two batches every index is answered that the primary of its shard has been told. -/
theorem read_of_idle (h : StoreReach k r s) (hpc : s.pc = .idle) {idx : UInt64} (hlt : idx.toNat < s.log.length)
    (hg : idx.toNat ≤ (s.shards (idx.toNat % k.shardNum)).primary.globalIndex.toNat) (resp : Mem) :
    ∃ out, readEntry k (s.shards (idx.toNat % k.shardNum)).primary idx resp = some out := by
  obtain ⟨f, u, hI⟩ := inv_of_reach h
  have hok := hI.pcOk
  unfold PcOk at hok
  rw [hpc] at hok
  obtain ⟨rfl, hlen, -⟩ := hok
  have hshard := hI.shards _ (Nat.mod_lt idx.toNat k.shard_pos)
  obtain ⟨x, hx, hv⟩ := hshard.primary
  obtain ⟨y, hy, hrep, -⟩ := hshard.replicated (Nat.le_refl f)
  obtain ⟨e, he⟩ : ∃ e, s.log[idx.toNat]? = some e := ⟨_, List.getElem?_eq_getElem hlt⟩
  have hget := shardStripes_read (k := k) (show x ≤ s.log.length by omega) (show idx.toNat < x by omega)
  exact ⟨_, hv.readEntry_eq_some.mpr ⟨e, hget.trans he, hrep.le _ (by omega) rfl, hg, rfl⟩⟩

/-! ### A read returns the entry of its index -/

/-- **A shard read returns the record of that index.** On every server of a shard a stripe holds the entries
of the log in their places, never more than `stripe_unit_size_` of them; its file is closed exactly when it has
them all, and not written after that. A read that is answered decodes to the entry of its index. -/
theorem shard_read_returns_index (h : StoreReach k r s) :
    (∀ sh < k.shardNum, ∀ i : Option ℕ, (∀ b ∈ i, b < r sh) → ∀ (b : ℕ) (es : List LogEntry),
      (server (s.shards sh) i).entriesCacheSet b = some es →
        (∀ (j : ℕ) (e : LogEntry), es[j]? = some e → e.logIdx.toNat = b + sh + j * k.shardNum) ∧
        es.length ≤ k.stripeUnitSize ∧
        ((server (s.shards sh) i).files.Closed b ↔ es.length = k.stripeUnitSize) ∧
        (es.length = k.stripeUnitSize →
          ∀ s', ReflTransGen (fun s s' => ∃ a, Step k r a s s') s s' →
            (server (s'.shards sh) i).files.data b = (server (s.shards sh) i).files.data b)) ∧
    ∀ (idx : UInt64) (resp m : Mem) (len : ℕ),
      readEntry k (s.shards (idx.toNat % k.shardNum)).primary idx resp = some (m, len) →
        ∃ e, deserializer default m 0 = (e, len) ∧ e.logIdx = idx ∧ s.log[idx.toNat]? = some e := by
  obtain ⟨f, u, hI⟩ := inv_of_reach h
  have hlen : ∀ {x}, x = f ∨ x = u → x ≤ s.log.length := by
    rintro x (rfl | rfl)
    · exact hI.le.trans hI.le_length
    · exact hI.le_length
  constructor
  · intro sh hsh i hi b es hes
    obtain ⟨x, hx, hv⟩ := exists_stores (hI.shards sh hsh) hi
    have hcache := hes
    rw [hv.cache] at hcache
    unfold present at hcache
    split_ifs at hcache with hne
    cases hcache
    have hle := length_shardStripes_le k s.log sh x b
    refine ⟨?_, hle, ?_, ?_⟩
    · intro j e he
      exact hI.isLog.indexed _ e (getElem?_shardStripes (hlen hx) he).2
    · rw [hv.closed_iff hne]
      omega
    · intro hfull s' hrun
      exact (kept_run h hrun hsh ⟨_, hes, hfull⟩).2
  · intro idx resp m len hread
    obtain ⟨x, hx, hv⟩ := (hI.shards _ (Nat.mod_lt idx.toNat k.shard_pos)).primary
    obtain ⟨e, he, -, -, hser⟩ := hv.readEntry_eq_some.mp hread
    have hidx : idx.toNat < x := by
      have hpos := (getElem?_shardStripes (hlen hx) he).1
      have := shardStripes_pos k idx.toNat
      omega
    rw [shardStripes_read (hlen hx) hidx] at he
    have hmem := List.mem_of_getElem? he
    rw [serializer_eq] at hser
    cases hser
    refine ⟨e, ?_, ?_, he⟩
    · exact deserializer_of_holds default (holds_writeBytes resp 0 _) (hI.isLog.sized e hmem)
        (hI.isLog.flagged e hmem)
    · exact UInt64.toNat_inj.mp (hI.isLog.indexed _ e he)

/-- A batch of two entries and one of one entry, over two shards: all three are read back. -/
theorem shard_read_returns_index_two : ∃ s : Cluster, StoreReach twoShards (fun _ => 1) s ∧
    s.log = [emptyEntry 0, emptyEntry 1, emptyEntry 2] ∧
    ∀ idx ∈ [(0 : UInt64), 1, 2], ∃ m len,
      readEntry twoShards (s.shards (idx.toNat % 2)).primary idx (fun _ => 0) = some (m, len) ∧
        deserializer default m 0 = (emptyEntry idx, len) := by
  have h₀ : StoreReach twoShards (fun _ => 1)
      ⟨fun _ => ⟨Server.empty, fun _ => Server.empty, .idle, fun _ => .idle, none, false, false⟩, .idle,
        false, [], []⟩ := .start ⟨fun _ => rfl, rfl, rfl, rfl, rfl⟩
  obtain ⟨s₁, h₁, hpc₁, hlog₁, hup₁⟩ := reach_batch h₀ rfl (batch_numbered (m := 2) (by decide) (by decide))
  have hlen₁ : s₁.log = [emptyEntry 0, emptyEntry 1] := hlog₁
  obtain ⟨s₂, h₂, hpc₂, hlog₂, hup₂, -⟩ := reach_update h₁ hup₁ 1
  have hb : Batch s₂.log (numbered s₂.log.length 1) (numbered s₂.log.length 1) := by
    refine batch_numbered (by decide) ?_
    rw [hlog₂, hlen₁]
    decide
  obtain ⟨s₃, h₃, hpc₃, hlog₃, hup₃⟩ := reach_batch h₂ (hpc₂.trans hpc₁) hb
  obtain ⟨s, h, hpc, hlog, -, hglb⟩ := reach_update h₃ (hup₃.trans hup₂) 2
  have hall : s.log = [emptyEntry 0, emptyEntry 1, emptyEntry 2] := by
    rw [hlog, hlog₃, hlog₂, hlen₁]
    rfl
  refine ⟨s, h, hall, fun idx hidx => ?_⟩
  obtain ⟨hle, hentry⟩ : idx.toNat ≤ 2 ∧
      [emptyEntry 0, emptyEntry 1, emptyEntry 2][idx.toNat]? = some (emptyEntry idx) := by
    simp only [List.mem_cons, List.not_mem_nil, or_false] at hidx
    rcases hidx with rfl | rfl | rfl
    · exact ⟨by decide, rfl⟩
    · exact ⟨by decide, rfl⟩
    · exact ⟨by decide, rfl⟩
  have hlt : idx.toNat < s.log.length := by
    rw [hall]
    exact Nat.lt_succ_of_le hle
  obtain ⟨⟨m, len⟩, hread⟩ := read_of_idle h (hpc.trans hpc₃) hlt
    (by rw [hglb _ (Nat.mod_lt _ twoShards.shard_pos)]; exact hle) fun _ => 0
  obtain ⟨e, hdec, -, he⟩ := (shard_read_returns_index h).2 idx _ m len hread
  rw [hall, hentry] at he
  cases he
  exact ⟨m, len, hread, hdec⟩

/-! ### Which reads are stable -/

/-- **A shard exposes stable records only**, once its primary has set both indices, and in any case for an
index that is not zero. -/
theorem read_is_stable (h : StoreReach k r s) (hsh : sh < k.shardNum) {idx : UInt64}
    (hidx : idx.toNat % k.shardNum = sh)
    (hset : idx ≠ 0 ∨ ((s.shards sh).replicatedSet = true ∧ (s.shards sh).globalSet = true))
    {resp : Mem} {out : Mem × ℕ} (hread : readEntry k (s.shards sh).primary idx resp = some out) :
    (∀ b < r sh, ∃ es e, ((s.shards sh).backups b).entriesCacheSet (k.base idx.toNat) = some es ∧
        es[(idx.toNat - k.base idx.toNat) / k.shardNum]? = some e ∧ e.logIdx = idx) ∧
      ∃ g ∈ s.issued, idx ≤ g := by
  obtain ⟨f, u, hI⟩ := inv_of_reach h
  have hglobal := globalOk_of_reach h sh
  obtain ⟨x₀, -, hv⟩ := (hI.shards sh hsh).primary
  obtain ⟨e₀, -, hrep, hglb, -⟩ := hv.readEntry_eq_some.mp hread
  obtain ⟨y, -, hy, hbs⟩ := (hI.shards sh hsh).replicated hI.le
  -- an index that has not been set is zero, and lets only the index zero through
  have hzero : ∀ x : UInt64, x = 0 → idx.toNat ≤ x.toNat → idx = 0 := by
    rintro x rfl hle
    exact UInt64.toNat_inj.mp (Nat.le_zero.mp hle)
  have hrepSet : (s.shards sh).replicatedSet = true := by
    rcases hset with hne | hset
    · by_contra hunset
      exact hne (hzero _ (hy.zero (by simpa using hunset)) hrep)
    · exact hset.1
  have hglbSet : (s.shards sh).globalSet = true := by
    rcases hset with hne | hset
    · by_contra hunset
      exact hne (hzero _ (hglobal.zero (by simpa using hunset)) hglb)
    · exact hset.2
  constructor
  · intro b hb
    obtain ⟨x, hyx, hx, hvb⟩ := hbs b hb
    have hlt : idx.toNat < x := lt_of_le_of_lt hrep (lt_of_lt_of_le (hy.lt hrepSet) hyx)
    have hxlen : x ≤ s.log.length := by
      have := hI.le
      have := hI.le_length
      omega
    rw [← hidx] at hvb
    obtain ⟨es, e, hes, hget, he⟩ := cached_of_stores hvb hxlen hlt
    rw [hidx] at hes
    exact ⟨es, e, hes, hget, UInt64.toNat_inj.mp (hI.isLog.indexed _ e he)⟩
  · exact ⟨_, hglobal.mem hglbSet, UInt64.le_iff_toNat_le.mpr hglb⟩

/-- The first entry, once both indices are set. -/
theorem read_is_stable_first : ∃ s : Cluster, (∃ es e,
    ((s.shards 0).backups 0).entriesCacheSet 0 = some es ∧ es[0]? = some e ∧ e.logIdx = 0) ∧
      ∃ g ∈ s.issued, 0 ≤ g := by
  obtain ⟨s, out, hs, hread, hrep, hglb⟩ := exists_read_set
  obtain ⟨hbs, hg⟩ := read_is_stable hs (show 0 < twoShards.shardNum by decide)
    (show (0 : UInt64).toNat % twoShards.shardNum = 0 from rfl) (Or.inr ⟨hrep, hglb⟩) hread
  exact ⟨s, hbs 0 (by decide), hg⟩

/-- **The first entry is exposed too early**: a read of index zero is answered although the backup has nothing
and no index has been issued. -/
theorem read_of_unreplicated_first : ∃ s : Cluster, StoreReach twoShards (fun _ => 1) s ∧
    (∃ out, readEntry twoShards (s.shards 0).primary 0 (fun _ => 0) = some out) ∧
      ((s.shards 0).backups 0).entriesCacheSet 0 = none ∧ s.issued = [] := by
  obtain ⟨s, out, hs, -, hread, hbackup, hissued⟩ := exists_read_added
  exact ⟨s, hs, ⟨out, hread⟩, by rw [hbackup]; rfl, hissued⟩

end LazyLog.Storage.Reads
