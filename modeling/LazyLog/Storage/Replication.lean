import LazyLog.Storage.NaiveBackend

/-! # A shard: its primary and its backups

A request of the backend is handled by `AppendBatchHandler` on the primary of the shard: it passes the request
on to the backups, adds it to its own cache, waits for every backup and then sets `replicated_index_`. Each
backup handles its copy with `ReplicateBatchHandler`. Requests and answers take any time, so that these steps
interleave in every way, and with `UpdateGlobalIdxHandler` and readers.

While a round of the backend takes the log from entry `f` to entry `u`, every server of the shard is either
where the round found it or where it leaves it: `ShardOk` says which, at each place of the handler. -/

namespace LazyLog.Storage.Replication

open LazyLog.Lib.Bytes LazyLog.Lib.Stride LazyLog.Rpc.Entry LazyLog.Rpc.Multi
open LazyLog.Storage.ShardServer LazyLog.Storage.NaiveBackend

/-! ### The handlers -/

/-- Where the request to the primary is, and `AppendBatchHandler`. -/
inductive AppendPc
  | idle
  | requested (req : MsgBuffer)
  | replicating (req : MsgBuffer)
  | added (base : ℕ)
  | replied

/-- Where the request to a backup is. -/
inductive ReplicatePc
  | idle
  | requested (req : MsgBuffer)
  | replied

/-- The servers of a shard, the requests to them, and a request of `UpdateGlobalIdx`. The last two fields are
a history: whether the primary has set its indices since it was started. -/
structure Shard where
  primary : Server
  backups : ℕ → Server
  pc : AppendPc
  reps : ℕ → ReplicatePc
  updating : Option UInt64
  replicatedSet : Bool
  globalSet : Bool

/-- `ReplicateBatchAsync` copies the request into the message buffer of its client. -/
def replicateBatch (req : MsgBuffer) (buf : Mem) : MsgBuffer := ⟨blit buf 0 req.buf 0 req.size, req.size⟩

/-- One step of a shard with `r` backups. Files can be created. -/
inductive ShardStep (k : Striping) (r : ℕ) : Shard → Shard → Prop
  | replicate {s : Shard} {req : MsgBuffer} (bufs : ℕ → Mem) (hpc : s.pc = .requested req) :
    ShardStep k r s
      { s with pc := .replicating req, reps := fun b => .requested (replicateBatch req (bufs b)) }
  | add {s : Shard} {req : MsgBuffer} {p : Opens} {fd : ℕ} (hpc : s.pc = .replicating req)
    (hp : p.wr = some fd) (hfree : s.primary.files.fds fd = none) :
    ShardStep k r s
      { s with
        primary := storeBatch k s.primary (requestBase k req.buf) req.buf p
        pc := .added (requestBase k req.buf) }
  | repAdd {s : Shard} {b : ℕ} {req : MsgBuffer} {p : Opens} {fd : ℕ} (hb : b < r)
    (hpc : s.reps b = .requested req) (hp : p.wr = some fd) (hfree : (s.backups b).files.fds fd = none) :
    ShardStep k r s
      { s with
        backups := Function.update s.backups b
          (storeBatch k (s.backups b) (requestBase k req.buf) req.buf p)
        reps := Function.update s.reps b .replied }
  | finish {s : Shard} {base : ℕ} (hpc : s.pc = .added base) (hall : ∀ b < r, s.reps b = .replied) :
    ShardStep k r s
      { s with
        primary := setReplicatedIndex s.primary base
        pc := .replied
        reps := fun _ => .idle
        replicatedSet := true }
  | updateGlobal {s : Shard} {idx : UInt64} (hu : s.updating = some idx) :
    ShardStep k r s
      { s with primary := updateGlobalIdx s.primary idx, updating := none, globalSet := true }
  | readLoad {s : Shard} (base rd : ℕ) (hfree : s.primary.files.fds rd = none) :
    ShardStep k r s { s with primary := readLoad k s.primary base rd }

/-! ### A log -/

variable {k : Striping} {L : List LogEntry} {r sh f u : ℕ} {v : Server} {req : MsgBuffer} {s s' : Shard}

/-- What the backend gets is a log: entry `i` has the index `i`, and every entry can be stored. -/
structure IsLog (L : List LogEntry) : Prop where
  indexed : ∀ (i : ℕ) (e : LogEntry), L[i]? = some e → e.logIdx.toNat = i
  sized : ∀ e ∈ L, e.Sized
  flagged : ∀ e ∈ L, e.flags ≠ 0

/-- A round from `f` to `u` with an entry for the shard. -/
structure Active (k : Striping) (L : List LogEntry) (sh f u : ℕ) : Prop where
  isLog : IsLog L
  next_lt : nextIdx k.shardNum sh f < u
  base_eq : k.base f = k.base (u - 1)
  le_length : u ≤ L.length

/-- The entries of the round for the shard. -/
def share (k : Striping) (L : List LogEntry) (sh f u : ℕ) : List LogEntry :=
  stride L k.shardNum (nextIdx k.shardNum sh f) u

/-- The request carries them. -/
structure Carries (k : Striping) (L : List LogEntry) (sh f u : ℕ) (req : MsgBuffer) : Prop where
  numbered : Numbered req.buf 0 (share k L sh f u)
  size : req.size = 4 + totalSize (share k L sh f u)

theorem mem_stride {x : LogEntry} {i : ℕ} (hu : u ≤ L.length)
    (h : x ∈ stride L k.shardNum i u) : x ∈ L := by
  obtain ⟨j, hj⟩ := List.mem_iff_getElem?.mp h
  rw [getElem?_stride k.shard_pos hu] at hj
  split_ifs at hj
  exact List.mem_of_getElem? hj

theorem Active.le (h : Active k L sh f u) : f ≤ u - 1 := by
  have := le_nextIdx (i := sh) (u := f) k.shard_pos
  have := h.next_lt
  omega

theorem Active.share_eq (h : Active k L sh f u) : ∃ e es, share k L sh f u = e :: es ∧
    e.logIdx.toNat = nextIdx k.shardNum sh f ∧ e ∈ L := by
  have hlt := h.next_lt
  have hL := h.le_length
  unfold share
  refine ⟨_, _, stride_cons k.shard_pos hlt, ?_, ?_⟩
  · rw [List.getD_eq_getElem _ _ (by omega)]
    exact h.isLog.indexed _ _ (List.getElem?_eq_getElem (by omega))
  · rw [List.getD_eq_getElem _ _ (by omega)]
    exact List.getElem_mem _

theorem Carries.requestBase_eq (hc : Carries k L sh f u req) (ha : Active k L sh f u) :
    requestBase k req.buf = k.base f := by
  obtain ⟨e, es, hes, hidx, he⟩ := ha.share_eq
  have hbody := hc.numbered.body
  rw [hes] at hbody
  have hdec := deserializer_of_holds default hbody.1 (ha.isLog.sized e he) (ha.isLog.flagged e he)
  have h1 := k.base_le f
  have h2 := le_nextIdx (i := sh) (u := f) k.shard_pos
  have h3 := k.lt_base_add (u - 1)
  have h4 := ha.next_lt
  rw [← ha.base_eq] at h3
  unfold requestBase
  rw [show (4 : ℕ) = 0 + 4 from rfl, hdec, hidx]
  exact Striping.base_eq (k.big_dvd_base f) (by omega) (by omega)

theorem Carries.replicate (hc : Carries k L sh f u req) (buf : Mem) :
    Carries k L sh f u (replicateBatch req buf) := by
  have hcopy : ∀ i < req.size, (replicateBatch req buf).buf i = req.buf i := by
    intro i hi
    have hblit : blit buf 0 req.buf 0 req.size (0 + i) = req.buf (0 + i) := blit_add hi
    rwa [Nat.zero_add] at hblit
  have hsize := hc.size
  refine ⟨⟨?_, ?_⟩, hc.size⟩
  · rw [← hc.numbered.num]
    exact load_congr fun i hi => by simpa only [Nat.zero_add] using hcopy i (by omega)
  · exact hc.numbered.body.congr fun i hi => hcopy _ (by omega)

/-- The entries of the round for the shard can be stored, and there is one. -/
structure Storable (es : List LogEntry) : Prop where
  sized : ∀ e ∈ es, e.Sized
  flagged : ∀ e ∈ es, e.flags ≠ 0
  ne_nil : es ≠ []

theorem Active.storable (ha : Active k L sh f u) : Storable (share k L sh f u) := by
  obtain ⟨e, es, hes, -, -⟩ := ha.share_eq
  refine ⟨?_, ?_, ?_⟩
  · exact fun e he => ha.isLog.sized e (mem_stride ha.le_length he)
  · exact fun e he => ha.isLog.flagged e (mem_stride ha.le_length he)
  · rw [hes]
    exact List.cons_ne_nil _ _

theorem Active.stripes (ha : Active k L sh f u) (hsh : sh < k.shardNum) :
    shardStripes k L sh u = Function.update (shardStripes k L sh f) (k.base f)
        (shardStripes k L sh f (k.base f) ++ share k L sh f u) ∧
      (shardStripes k L sh f (k.base f)).length < k.stripeUnitSize := by
  have hlt := ha.next_lt
  have hL := ha.le_length
  have hround := shardStripes_round (L := L) hsh ha.le ha.base_eq (by omega)
  rw [show u - 1 + 1 = u by omega] at hround
  exact ⟨hround, length_shardStripes_lt hsh ha.base_eq (by omega)⟩

theorem exists_carries {f u : ℕ} (ha : Active k L sh f u)
    (hlt : count k.shardNum (nextIdx k.shardNum sh f) u < 2 ^ 32) : ∃ req, Carries k L sh f u req := by
  have hu := ha.next_lt
  rw [← Nat.sub_add_cancel (show 1 ≤ u by omega)] at hlt
  obtain ⟨m, -, hm⟩ := multiSerializer_eq L (nextIdx k.shardNum sh f) (u - 1) k.shard_pos (fun _ => 0) 0 hlt
  rw [Nat.sub_add_cancel (show 1 ≤ u by omega)] at hm
  exact ⟨⟨m, _⟩, hm, rfl⟩

/-- **A server handles the request**: it comes from where the round found it to where it leaves it. -/
theorem Carries.store (hc : Carries k L sh f u req) (ha : Active k L sh f u) (hsh : sh < k.shardNum)
    (hv : Stores k (shardStripes k L sh f) v) {p : Opens} {fd : ℕ} (hp : p.wr = some fd)
    (hfree : v.files.fds fd = none) : Stores k (shardStripes k L sh u)
      (storeBatch k v (requestBase k req.buf) req.buf p) := by
  obtain ⟨hround, hlt⟩ := ha.stripes hsh
  obtain ⟨hs, hf, hne⟩ := ha.storable
  rw [hc.requestBase_eq ha, hround]
  exact hv.storeBatch hlt hp hfree hc.numbered hs hf hne

/-! ### The invariant of a shard -/

/-- `replicated_index_` is at the last entry of the shard before `y`, or has its first value. -/
structure Replicated (k : Striping) (sh y : ℕ) (s : Shard) : Prop where
  le : ∀ idx < y, idx % k.shardNum = sh → idx ≤ s.primary.replicatedIndex.toNat
  lt : s.replicatedSet = true → s.primary.replicatedIndex.toNat < y
  zero : s.replicatedSet = false → s.primary.replicatedIndex = 0

/-- All servers of the shard have the log up to `x`, and no request is on its way to a backup. -/
structure AllAt (k : Striping) (L : List LogEntry) (r sh x : ℕ) (s : Shard) : Prop where
  primary : Stores k (shardStripes k L sh x) s.primary
  backup : ∀ b < r, s.reps b = .idle ∧ Stores k (shardStripes k L sh x) (s.backups b)

/-- A backup has yet to add its request, or has added it. -/
def BackupOk (k : Striping) (L : List LogEntry) (sh f u : ℕ) (pc : ReplicatePc) (v : Server) : Prop :=
  match pc with
  | .idle => False
  | .requested req => Carries k L sh f u req ∧ Stores k (shardStripes k L sh f) v
  | .replied => Stores k (shardStripes k L sh u) v

/-- **The invariant of a shard** in a round from `f` to `u`, at each place of `AppendBatchHandler`. -/
def ShardOk (k : Striping) (L : List LogEntry) (r sh f u : ℕ) (s : Shard) : Prop :=
  match s.pc with
  | .idle => u ≤ nextIdx k.shardNum sh f ∧ AllAt k L r sh f s ∧ Replicated k sh f s
  | .requested req =>
    Active k L sh f u ∧ Carries k L sh f u req ∧ AllAt k L r sh f s ∧ Replicated k sh f s
  | .replicating req => Active k L sh f u ∧ Carries k L sh f u req ∧
      Stores k (shardStripes k L sh f) s.primary ∧
      (∀ b < r, BackupOk k L sh f u (s.reps b) (s.backups b)) ∧ Replicated k sh f s
  | .added base => Active k L sh f u ∧ base = k.base f ∧
      Stores k (shardStripes k L sh u) s.primary ∧
      (∀ b < r, BackupOk k L sh f u (s.reps b) (s.backups b)) ∧ Replicated k sh f s
  | .replied => AllAt k L r sh u s ∧ Replicated k sh u s

theorem ShardOk.primary (h : ShardOk k L r sh f u s) :
    ∃ x, (x = f ∨ x = u) ∧ Stores k (shardStripes k L sh x) s.primary := by
  unfold ShardOk at h
  cases hpc : s.pc with
  | idle => rw [hpc] at h; exact ⟨f, Or.inl rfl, h.2.1.primary⟩
  | requested req => rw [hpc] at h; exact ⟨f, Or.inl rfl, h.2.2.1.primary⟩
  | replicating req => rw [hpc] at h; exact ⟨f, Or.inl rfl, h.2.2.1⟩
  | added base => rw [hpc] at h; exact ⟨u, Or.inr rfl, h.2.2.1⟩
  | replied => rw [hpc] at h; exact ⟨u, Or.inr rfl, h.1.primary⟩

theorem BackupOk.stores {pc : ReplicatePc} (h : BackupOk k L sh f u pc v) :
    ∃ x, (x = f ∨ x = u) ∧ Stores k (shardStripes k L sh x) v := by
  cases pc with
  | idle => exact h.elim
  | requested req => exact ⟨f, Or.inl rfl, h.2⟩
  | replied => exact ⟨u, Or.inr rfl, h⟩

theorem ShardOk.backup (h : ShardOk k L r sh f u s) {b : ℕ} (hb : b < r) :
    ∃ x, (x = f ∨ x = u) ∧ Stores k (shardStripes k L sh x) (s.backups b) := by
  unfold ShardOk at h
  cases hpc : s.pc with
  | idle => rw [hpc] at h; exact ⟨f, Or.inl rfl, (h.2.1.backup b hb).2⟩
  | requested req => rw [hpc] at h; exact ⟨f, Or.inl rfl, (h.2.2.1.backup b hb).2⟩
  | replicating req => rw [hpc] at h; exact (h.2.2.2.1 b hb).stores
  | added base => rw [hpc] at h; exact (h.2.2.2.1 b hb).stores
  | replied => rw [hpc] at h; exact ⟨u, Or.inr rfl, (h.1.backup b hb).2⟩

/-- What `replicated_index_` counts is on every backup, and reaches the begin of the round. -/
theorem ShardOk.replicated (h : ShardOk k L r sh f u s) (hfu : f ≤ u) :
    ∃ y, f ≤ y ∧ Replicated k sh y s ∧ ∀ b < r,
      ∃ x, y ≤ x ∧ (x = f ∨ x = u) ∧ Stores k (shardStripes k L sh x) (s.backups b) := by
  have hf : ∀ b < r, ∃ x, f ≤ x ∧ (x = f ∨ x = u) ∧
      Stores k (shardStripes k L sh x) (s.backups b) := by
    intro b hb
    obtain ⟨x, hx, hv⟩ := h.backup hb
    exact ⟨x, by omega, hx, hv⟩
  unfold ShardOk at h
  cases hpc : s.pc with
  | idle => rw [hpc] at h; exact ⟨f, Nat.le_refl f, h.2.2, hf⟩
  | requested req => rw [hpc] at h; exact ⟨f, Nat.le_refl f, h.2.2.2, hf⟩
  | replicating req => rw [hpc] at h; exact ⟨f, Nat.le_refl f, h.2.2.2.2, hf⟩
  | added base => rw [hpc] at h; exact ⟨f, Nat.le_refl f, h.2.2.2.2, hf⟩
  | replied =>
    rw [hpc] at h
    exact ⟨u, hfu, h.2, fun b hb => ⟨u, Nat.le_refl u, Or.inr rfl, (h.1.backup b hb).2⟩⟩

/-- The last entry of the stripe of the round is the last entry of the shard. -/
theorem replicated_setReplicatedIndex (ha : Active k L sh f u) (hsh : sh < k.shardNum)
    (hv : Stores k (shardStripes k L sh u) v) :
    (∀ idx < u, idx % k.shardNum = sh →
        idx ≤ (setReplicatedIndex v (k.base f)).replicatedIndex.toNat) ∧
      (setReplicatedIndex v (k.base f)).replicatedIndex.toNat < u := by
  have hpos := k.shard_pos
  have hlt := ha.next_lt
  have hL := ha.le_length
  have hdvd := k.big_dvd_base f
  have h1 := k.base_le f
  have h2 := le_nextIdx (i := sh) (u := f) hpos
  have h3 := k.lt_base_add (u - 1)
  rw [← ha.base_eq] at h3
  have hlen : (shardStripes k L sh u (k.base f)).length = count k.shardNum (k.base f + sh) u := by
    unfold shardStripes
    rw [if_pos hdvd, length_stride, min_eq_left (by omega)]
  -- the next index of the shard is one of the stripe, so the stripe has an entry
  have hcount : 0 < count k.shardNum (k.base f + sh) u := by
    rw [count_pos hpos]
    rw [← nextIdx_base hdvd h1 hsh] at hlt
    unfold nextIdx at hlt
    omega
  obtain ⟨j, hj⟩ : ∃ j, count k.shardNum (k.base f + sh) u = j + 1 :=
    ⟨count k.shardNum (k.base f + sh) u - 1, by omega⟩
  obtain ⟨e, he⟩ : ∃ e, (shardStripes k L sh u (k.base f))[j]? = some e :=
    ⟨_, List.getElem?_eq_getElem (by omega)⟩
  have hne : shardStripes k L sh u (k.base f) ≠ [] := List.ne_nil_of_length_pos (by omega)
  have hlast : (setReplicatedIndex v (k.base f)).replicatedIndex = e.logIdx := by
    unfold setReplicatedIndex
    simp only [hv.cache, present_of_ne hne, Option.getD_some]
    rw [List.getLastD_eq_getLast?, List.getLast?_eq_getElem?, hlen, hj, Nat.add_sub_cancel, he]
    rfl
  obtain ⟨hidx, heL⟩ := getElem?_shardStripes hL he
  rw [hlast, ha.isLog.indexed _ _ heL]
  refine ⟨fun idx hi hmod => ?_, hidx⟩
  rcases Nat.lt_or_ge idx (k.base f + sh) with hle | hge
  · omega
  · obtain ⟨q, hq⟩ := Striping.dvd_of_big_dvd hdvd
    have hmod' : (idx - (k.base f + sh)) % k.shardNum = 0 := by
      rw [← Nat.sub_sub, hq, ← hmod]
      rw [hq] at hge
      have := Nat.sub_mul_mod (x := idx) (k := q) (n := k.shardNum) (by omega)
      rw [← this]
      exact Nat.sub_mod_eq_zero_of_mod_eq (Nat.mod_mod _ _).symm
    obtain ⟨i, hi'⟩ := Nat.dvd_of_mod_eq_zero hmod'
    have hlt' : i < j + 1 := by
      rw [← hj, lt_count hpos, Nat.mul_comm i, ← hi']
      omega
    have := Nat.mul_le_mul_right k.shardNum (Nat.le_of_lt_succ hlt')
    rw [Nat.mul_comm] at hi'
    omega

theorem Replicated.congr {y : ℕ} (h : Replicated k sh y s)
    (h1 : s'.primary.replicatedIndex = s.primary.replicatedIndex)
    (h2 : s'.replicatedSet = s.replicatedSet) : Replicated k sh y s' := by
  obtain ⟨hle, hlt, hzero⟩ := h
  rw [← h1, ← h2] at *
  exact ⟨hle, hlt, hzero⟩

theorem ShardOk.congr (h : ShardOk k L r sh f u s) (h1 : s'.pc = s.pc) (h2 : s'.reps = s.reps)
    (h3 : s'.backups = s.backups)
    (h4 : ∀ x, Stores k (shardStripes k L sh x) s.primary → Stores k (shardStripes k L sh x) s'.primary)
    (h5 : s'.primary.replicatedIndex = s.primary.replicatedIndex)
    (h6 : s'.replicatedSet = s.replicatedSet) : ShardOk k L r sh f u s' := by
  have hall : ∀ {x}, AllAt k L r sh x s → AllAt k L r sh x s' := by
    intro x hx
    refine ⟨h4 x hx.primary, ?_⟩
    rw [h2, h3]
    exact hx.backup
  unfold ShardOk at h ⊢
  rw [h1]
  cases hpc : s.pc with
  | idle =>
    rw [hpc] at h
    exact ⟨h.1, hall h.2.1, h.2.2.congr h5 h6⟩
  | requested req =>
    rw [hpc] at h
    exact ⟨h.1, h.2.1, hall h.2.2.1, h.2.2.2.congr h5 h6⟩
  | replicating req =>
    rw [hpc] at h
    obtain ⟨ha, hc, hv, hb, hrep⟩ := h
    exact ⟨ha, hc, h4 f hv, by rw [h2, h3]; exact hb, hrep.congr h5 h6⟩
  | added base =>
    rw [hpc] at h
    obtain ⟨ha, hbase, hv, hb, hrep⟩ := h
    exact ⟨ha, hbase, h4 u hv, by rw [h2, h3]; exact hb, hrep.congr h5 h6⟩
  | replied =>
    rw [hpc] at h
    exact ⟨hall h.1, h.2.congr h5 h6⟩

theorem AllAt.not_requested {x b : ℕ} (h : AllAt k L r sh x s) (hb : b < r) :
    s.reps b ≠ .requested req := by
  rw [(h.backup b hb).1]
  rintro ⟨⟩

/-- While a request is on its way to a backup, the handler waits for the backups. -/
theorem ShardOk.waits {b : ℕ} (h : ShardOk k L r sh f u s) (hb : b < r) (hpc : s.reps b = .requested req) :
    (∃ req', s.pc = .replicating req') ∨ ∃ base, s.pc = .added base := by
  unfold ShardOk at h
  cases hc : s.pc with
  | idle => rw [hc] at h; exact absurd hpc (h.2.1.not_requested hb)
  | requested req => rw [hc] at h; exact absurd hpc (h.2.2.1.not_requested hb)
  | replicating req => exact Or.inl ⟨req, rfl⟩
  | added base => exact Or.inr ⟨base, rfl⟩
  | replied => rw [hc] at h; exact absurd hpc (h.1.not_requested hb)

theorem ShardOk.busy {b : ℕ} (h : ShardOk k L r sh f u s) (hb : b < r)
    (hpc : s.reps b = .requested req) : Active k L sh f u ∧ Carries k L sh f u req ∧
      Stores k (shardStripes k L sh f) (s.backups b) := by
  have hwaits := h.waits hb hpc
  unfold ShardOk at h
  rcases hwaits with ⟨req', hc⟩ | ⟨base, hc⟩
  all_goals
    rw [hc] at h
    have hok := h.2.2.2.1 b hb
    rw [hpc] at hok
    exact ⟨h.1, hok⟩

theorem ShardOk.repAdd {b : ℕ} {p : Opens} {fd : ℕ} (h : ShardOk k L r sh f u s) (hsh : sh < k.shardNum)
    (hb : b < r) (hpc : s.reps b = .requested req) (hp : p.wr = some fd)
    (hfree : (s.backups b).files.fds fd = none) : ShardOk k L r sh f u
      { s with
        backups := Function.update s.backups b
          (storeBatch k (s.backups b) (requestBase k req.buf) req.buf p)
        reps := Function.update s.reps b .replied } := by
  obtain ⟨ha, hreq, hv⟩ := h.busy hb hpc
  have hadd := hreq.store ha hsh hv hp hfree
  have hstep : (∀ b < r, BackupOk k L sh f u (s.reps b) (s.backups b)) →
      ∀ b' < r, BackupOk k L sh f u (Function.update s.reps b .replied b')
        (Function.update s.backups b
          (storeBatch k (s.backups b) (requestBase k req.buf) req.buf p) b') := by
    intro hbs b' hb'
    rcases eq_or_ne b' b with rfl | hne
    · rw [Function.update_self, Function.update_self]
      exact hadd
    · rw [Function.update_of_ne hne, Function.update_of_ne hne]
      exact hbs b' hb'
  have hwaits := h.waits hb hpc
  unfold ShardOk at h ⊢
  rcases hwaits with ⟨req', hc⟩ | ⟨base, hc⟩
  · rw [hc] at h
    simp only [hc]
    obtain ⟨-, hreq, hv, hbs, hrep⟩ := h
    exact ⟨ha, hreq, hv, hstep hbs, hrep.congr rfl rfl⟩
  · rw [hc] at h
    simp only [hc]
    obtain ⟨-, hbase, hv, hbs, hrep⟩ := h
    exact ⟨ha, hbase, hv, hstep hbs, hrep.congr rfl rfl⟩

/-- **One step of a shard** keeps its invariant. -/
theorem ShardOk.step (h : ShardOk k L r sh f u s) (hsh : sh < k.shardNum) (hs : ShardStep k r s s') :
    ShardOk k L r sh f u s' := by
  have hok := h
  unfold ShardOk at hok
  cases hs with
  | replicate bufs hpc =>
    rw [hpc] at hok
    obtain ⟨ha, hc, hall, hrep⟩ := hok
    exact ⟨ha, hc, hall.primary, fun b hb => ⟨hc.replicate (bufs b), (hall.backup b hb).2⟩,
      hrep.congr rfl rfl⟩
  | @add req p fd hpc hp hfree =>
    rw [hpc] at hok
    obtain ⟨ha, hc, hv, hbs, hrep⟩ := hok
    exact ⟨ha, hc.requestBase_eq ha, hc.store ha hsh hv hp hfree, hbs,
      hrep.congr (storeBatch_indices _ _ _ _ _).1 rfl⟩
  | repAdd hb hpc hp hfree => exact h.repAdd hsh hb hpc hp hfree
  | finish hpc hall =>
    rw [hpc] at hok
    obtain ⟨ha, rfl, hv, hbs, -⟩ := hok
    obtain ⟨h1, h2⟩ := replicated_setReplicatedIndex ha hsh hv
    refine ⟨⟨hv.setReplicatedIndex _, fun b hb => ⟨rfl, ?_⟩⟩, h1, fun _ => h2, ?_⟩
    · have := hbs b hb
      rwa [hall b hb] at this
    · rintro ⟨⟩
  | updateGlobal hu => exact h.congr rfl rfl rfl (fun x hx => hx.updateGlobalIdx _) rfl rfl
  | readLoad base rd hfree =>
    obtain ⟨x, -, hv⟩ := h.primary
    rw [hv.readLoad]
    exact h

theorem ShardStep.pc_idle (hs : ShardStep k r s s') (h : s.pc = .idle) : s'.pc = .idle := by
  cases hs with
  | replicate bufs hpc => rw [h] at hpc; cases hpc
  | add hpc hp hfree => rw [h] at hpc; cases hpc
  | repAdd hb hpc hp hfree => exact h
  | finish hpc hall => rw [h] at hpc; cases hpc
  | updateGlobal hu => exact h
  | readLoad base rd hfree => exact h

/-! ### A small log -/

/-- A log of two entries, of different sizes. -/
def twoSizes : List LogEntry := [⟨7, 1, 0, 0, 1, 0, []⟩, ⟨7, 2, 1, 1, 1, 0, [5]⟩]

theorem isLog_twoSizes : IsLog twoSizes := by
  refine ⟨?_, by decide, by decide⟩
  rintro (_ | _ | i) e he
  · cases he
    rfl
  · cases he
    rfl
  · simp [twoSizes] at he

end LazyLog.Storage.Replication
