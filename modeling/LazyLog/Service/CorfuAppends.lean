import LazyLog.Service.CorfuReads

/-! # Concurrent appends in the `CORFU` build (`AppendEntryAll`, `GetGSN`)

A client gets the index of its entry from the counter `gsn_` of the primary, and then stores the entry in the three
groups of shard servers, one after the other. Any number of clients do so next to each other, so that the groups get
their entries in different orders; others may take whole ranges of indices with `GetGSN(batchSize)`. A shard server
handles one append at a time.

As long as the counter has not gone round, no index is given out twice. Then an entry that is in one group is in
those before it, an append that is made after another one has returned gets a larger index, and an entry whose append
has returned can be read from every group (`appends_are_replicated`). -/

namespace LazyLog.Service.CorfuAppends

open LazyLog.Lib.Bytes LazyLog.Lib.Run LazyLog.Rpc.Entry
open LazyLog.Storage.ShardServer (Striping oneShard)
open LazyLog.Storage.Corfu
open LazyLog.Client.LazyLogCli (constructLogEntry)
open LazyLog.Service.CorfuReads (Group NaiveReadBackend.readEntry NaiveReadBackend.appendBatch Readable firstSize)

/-! ### The counter -/

/-- `DurabilityLog::GetGSN(batchSize)`: the index, and the counter. -/
def DurabilityLog.getGSN (gsn batchSize : UInt64) : UInt64 × UInt64 := (gsn, gsn + batchSize)

/-- The response with an index, and its size. -/
def gsnResponse (gsn : UInt64) (resp : Mem) : Mem × ℕ := (writeBytes resp 0 (leBytes 8 gsn.toNat), 8)

/-- `GetGSNHandler`: the response, and the counter. -/
def getGSNHandler (gsn : UInt64) (resp : Mem) : (Mem × ℕ) × UInt64 :=
  let r := DurabilityLog.getGSN gsn 1
  (gsnResponse r.1 resp, r.2)

/-- `GetGSNBatchHandler`. -/
def getGSNBatchHandler (gsn : UInt64) (req resp : Mem) : (Mem × ℕ) × UInt64 :=
  let batchSize := UInt64.ofNat (load req 0 8)
  let r := DurabilityLog.getGSN gsn batchSize
  (gsnResponse r.1 resp, r.2)

/-- `DurabilityLogERPCCli::getGSN`, from the response on; `resp` is what was in the client's buffer before. -/
def DurabilityLogERPCCli.getGSN (response : Mem × ℕ) (resp : Mem) : UInt64 :=
  if response.2 < 8 then UInt64.ofNat (2 ^ 64 - 1)
  else UInt64.ofNat (load (writeBytes resp 0 (readBytes response.1 0 response.2)) 0 8)

/-- The request of `DurabilityLogERPCCli::getGSNBatch`. -/
def DurabilityLogERPCCli.gsnBatchRequest (batchSize : UInt64) (req : Mem) : Mem :=
  writeBytes req 0 (leBytes 8 batchSize.toNat)

theorem ofNat_load {m : Mem} {x : UInt64} (h : Holds m 0 (leBytes 8 x.toNat)) : UInt64.ofNat (load m 0 8) = x := by
  rw [h.load, Nat.mod_eq_of_lt (show x.toNat < 256 ^ 8 from x.toNat_lt), UInt64.ofNat_toNat]

theorem getGSN_gsnResponse (gsn : UInt64) (m resp : Mem) :
    DurabilityLogERPCCli.getGSN (gsnResponse gsn m) resp = gsn := by
  have hsize : ¬ (gsnResponse gsn m).2 < 8 := Nat.lt_irrefl 8
  unfold DurabilityLogERPCCli.getGSN
  rw [if_neg hsize]
  refine ofNat_load ?_
  exact (holds_writeBytes _ _ _).of_readBytes (holds_writeBytes _ _ _) (Nat.le_refl _)

theorem getGSNBatchHandler_request (gsn batchSize : UInt64) (req resp : Mem) :
    getGSNBatchHandler gsn (DurabilityLogERPCCli.gsnBatchRequest batchSize req) resp =
      (gsnResponse gsn resp, gsn + batchSize) := by
  unfold getGSNBatchHandler DurabilityLogERPCCli.gsnBatchRequest DurabilityLog.getGSN
  rw [ofNat_load (holds_writeBytes _ _ _)]

/-! ### The system -/

deriving instance DecidableEq for CorfuReads.Group

/-- The groups in the order in which `AppendEntryAll` stores the entry in them. -/
def groups : List Group := [.rdCli, .backup, .backup2]

/-- Where `AppendEntryAll` is: it asks for an index, or has to store the entry in the groups that are left. It goes
with the entries whose appends had returned when it was called. -/
inductive Pc
  | idle
  | asking (e : LogEntry) (before : List LogEntry)
  | writing (todo : List Group) (e : LogEntry) (before : List LogEntry)

/-- `seq_`, and the call of the client. -/
structure LazyLogClient where
  seq : ℕ
  pc : Pc

/-- The counter of the primary, the shard servers of each group and the clients by their id. The other fields are a
history: how many indices have been given out, the entries in the order in which each group has got them, and the
entries whose appends have returned, each with those that had returned when it was called. -/
structure Sys where
  gsn : UInt64
  servers : Group → ℕ → Server
  clients : UInt64 → LazyLogClient
  issued : ℕ
  written : Group → List LogEntry
  returned : List (LogEntry × List LogEntry)

/-- A client goes on. -/
def Sys.setPc (s : Sys) (id : UInt64) (pc : Pc) : Sys :=
  { s with clients := Function.update s.clients id { s.clients id with pc := pc } }

/-- One step: a client calls `AppendEntryAll` with a payload that `size` can count; it gets its index; it stores the
entry in the next group, where `fd` is the number that `open` returns on the server; it returns. And somebody gets a
range of indices. -/
inductive Step (k : Striping) : Sys → Sys → Prop
  | call {s : Sys} (id : UInt64) (data : List UInt8) (hpc : (s.clients id).pc = .idle)
    (hsize : (constructLogEntry id (s.clients id).seq data).Sized) :
    Step k s
      { s with
        clients := Function.update s.clients id ⟨(s.clients id).seq + 1,
          .asking (constructLogEntry id (s.clients id).seq data) (s.returned.map Prod.fst)⟩ }
  | getGSN {s : Sys} {e : LogEntry} {before : List LogEntry} (id : UInt64) (m resp : Mem)
    (hpc : (s.clients id).pc = .asking e before) :
    Step k s
      { s.setPc id (.writing groups
          { e with logIdx := DurabilityLogERPCCli.getGSN (getGSNHandler s.gsn m).1 resp } before) with
        gsn := (getGSNHandler s.gsn m).2
        issued := s.issued + 1 }
  | appendBatch {s : Sys} {g : Group} {todo : List Group} {e : LogEntry} {before : List LogEntry} (id : UInt64)
    (req : Mem) (fd : ℕ) (hpc : (s.clients id).pc = .writing (g :: todo) e before)
    (hfree : (s.servers g (e.logIdx.toNat % k.shardNum)).files.fds fd = none) :
    Step k s
      { s.setPc id (.writing todo e before) with
        servers := Function.update s.servers g (NaiveReadBackend.appendBatch k (s.servers g) e req fd)
        written := Function.update s.written g (s.written g ++ [e]) }
  | ret {s : Sys} {e : LogEntry} {before : List LogEntry} (id : UInt64)
    (hpc : (s.clients id).pc = .writing [] e before) :
    Step k s { s.setPc id .idle with returned := s.returned ++ [(e, before)] }
  | getGSNBatch {s : Sys} (batchSize : UInt64) (req m : Mem) :
    Step k s
      { s with
        gsn := (getGSNBatchHandler s.gsn (DurabilityLogERPCCli.gsnBatchRequest batchSize req) m).2
        issued := s.issued + batchSize.toNat }

/-- Everything has just been started. -/
structure Start (s : Sys) : Prop where
  gsn : s.gsn = 0
  issued : s.issued = 0
  fdSet : ∀ g sh b, (s.servers g sh).entriesFdSet b = none
  counts : ∀ g sh b, (s.servers g sh).cacheSizeAtomic b = 0
  size : ∀ g sh, (s.servers g sh).entrySize = 0
  clients : ∀ id, (s.clients id).pc = .idle
  written : ∀ g, s.written g = []
  returned : s.returned = []

/-! ### The invariant -/

variable {k : Striping} {s s' : Sys} {e e' : LogEntry} {todo : List Group} {before : List LogEntry} {g : Group}
  {id : UInt64}

/-- A group by itself, with the entries it has got, as if it were all three groups. -/
def alone (s : Sys) (g : Group) : CorfuReads.Sys := ⟨fun _ => s.servers g, s.written g⟩

/-- An entry that has an index is in the groups that are done, and its index is in none of those that are left. -/
structure Pending (s : Sys) (todo : List Group) (e : LogEntry) (before : List LogEntry) : Prop where
  entry : e.Sized ∧ e.flags = 1
  below : e.logIdx.toNat < s.issued
  suffix : todo <:+ groups
  done : ∀ g, g ∉ todo → e ∈ s.written g
  left : ∀ g ∈ todo, ∀ x ∈ s.written g, x.logIdx ≠ e.logIdx
  returned : ∀ p ∈ s.returned, p.1.logIdx ≠ e.logIdx
  before : ∀ x ∈ before, x.logIdx < e.logIdx

/-- What is known of a call. -/
def CallOk (s : Sys) : Pc → Prop
  | .idle => True
  | .asking e before => (e.Sized ∧ e.flags = 1) ∧ ∀ x ∈ before, x.logIdx.toNat < s.issued
  | .writing todo e before => Pending s todo e before

/-- The index of the entry that a client is storing. -/
def Pc.index : Pc → Option UInt64
  | .writing _ e _ => some e.logIdx
  | .idle | .asking _ _ => none

/-- **The invariant**, as long as the counter has not gone round. -/
structure Inv (k : Striping) (s : Sys) : Prop where
  gsn : s.gsn = UInt64.ofNat s.issued
  group : ∀ g, CorfuReads.Inv k (alone s g)
  below : ∀ g, ∀ e ∈ s.written g, e.logIdx.toNat < s.issued
  chain : s.written .backup2 ⊆ s.written .backup ∧ s.written .backup ⊆ s.written .rdCli
  calls : ∀ id, CallOk s (s.clients id).pc
  apart : ∀ id id' x, (s.clients id).pc.index = some x → (s.clients id').pc.index = some x → id = id'
  returned : ∀ p ∈ s.returned, (∀ g, p.1 ∈ s.written g) ∧ ∀ x ∈ p.2, x.logIdx < p.1.logIdx
  distinct : (s.returned.map fun p => p.1.logIdx).Nodup

theorem inv_of_start (h : Start s) : Inv k s := by
  obtain ⟨hgsn, hissued, hfd, hcounts, hsize, hcl, hw, hr⟩ := h
  refine ⟨by rw [hgsn, hissued]; rfl, fun g => ?_, fun g e he => ?_, ?_, fun id => ?_, fun id id' x hx => ?_,
    fun p hp => ?_, by rw [hr]; exact List.nodup_nil⟩
  · exact CorfuReads.inv_of_start ⟨fun _ => hfd g, fun _ => hcounts g, fun _ => hsize g, hw g⟩
  · rw [hw] at he
    exact absurd he List.not_mem_nil
  · rw [hw, hw, hw]
    exact ⟨fun _ h => h, fun _ h => h⟩
  · rw [hcl]
    trivial
  · rw [hcl] at hx
    cases hx
  · rw [hr] at hp
    exact absurd hp List.not_mem_nil

/-! ### The steps -/

theorem CallOk.mono {pc : Pc} (h : CallOk s pc) (hle : s.issued ≤ s'.issued) (hw : s'.written = s.written)
    (hr : s'.returned = s.returned) : CallOk s' pc := by
  cases pc with
  | idle => trivial
  | asking e before => exact ⟨h.1, fun x hx => (h.2 x hx).trans_le hle⟩
  | writing todo e before =>
    obtain ⟨hent, hbelow, hsuf, hdone, hleft, hret, hbef⟩ := h
    refine ⟨hent, hbelow.trans_le hle, hsuf, ?_, ?_, ?_, hbef⟩
    · rw [hw]
      exact hdone
    · rw [hw]
      exact hleft
    · rw [hr]
      exact hret

theorem pc_setPc (s : Sys) (id id' : UInt64) (pc : Pc) :
    ((s.setPc id pc).clients id').pc = if id' = id then pc else (s.clients id').pc := by
  unfold Sys.setPc
  dsimp only
  rw [Function.update_apply]
  split <;> rfl

theorem apart_of_pc (id : UInt64) (pc : Pc)
    (h : ∀ id id' x, (s.clients id).pc.index = some x → (s.clients id').pc.index = some x → id = id')
    (hpc : ∀ id', (s'.clients id').pc = if id' = id then pc else (s.clients id').pc)
    (hx : ∀ x, pc.index = some x → ∀ id', id' ≠ id → (s.clients id').pc.index ≠ some x) :
    ∀ id id' x, (s'.clients id).pc.index = some x → (s'.clients id').pc.index = some x → id = id' := by
  intro i j x hi hj
  rw [hpc] at hi hj
  split_ifs at hi hj with hii hjj hjj
  · rw [hii, hjj]
  · exact absurd hj (hx x hi j hjj)
  · exact absurd hi (hx x hj i hii)
  · exact h i j x hi hj

theorem toNat_gsn (h : s.gsn = UInt64.ofNat s.issued) (hlt : s.issued < 2 ^ 64) : s.gsn.toNat = s.issued := by
  rw [h, UInt64.toNat_ofNat', Nat.mod_eq_of_lt hlt]

theorem mem_groups (g : Group) : g ∈ groups := by
  cases g <;> decide

/-- **A client calls** `AppendEntryAll`. -/
theorem Inv.call (h : Inv k s) {data : List UInt8} (hpc : (s.clients id).pc = .idle)
    (hsize : (constructLogEntry id (s.clients id).seq data).Sized) :
    Inv k { s with
      clients := Function.update s.clients id ⟨(s.clients id).seq + 1,
        .asking (constructLogEntry id (s.clients id).seq data) (s.returned.map Prod.fst)⟩ } := by
  obtain ⟨hgsn, hgroup, hbelow, hchain, hcalls, hapart, hret, hnd⟩ := h
  refine ⟨hgsn, hgroup, hbelow, hchain, fun id' => ?_, ?_, hret, hnd⟩
  · by_cases hid : id' = id
    · subst hid
      dsimp only
      rw [Function.update_self]
      refine ⟨⟨hsize, rfl⟩, fun x hx => ?_⟩
      obtain ⟨p, hp, rfl⟩ := List.mem_map.mp hx
      exact hbelow .rdCli _ ((hret p hp).1 _)
    · dsimp only
      rw [Function.update_of_ne hid]
      exact (hcalls id').mono le_rfl rfl rfl
  · refine apart_of_pc id (.asking (constructLogEntry id (s.clients id).seq data) (s.returned.map Prod.fst)) hapart
      (fun id' => ?_) (by rintro x ⟨⟩)
    dsimp only
    rw [Function.update_apply]
    split <;> rfl

/-- **A client gets its index**, which nobody has got before. -/
theorem Inv.getGSN (h : Inv k s) (hlt : s.issued < 2 ^ 64) (hpc : (s.clients id).pc = .asking e before) :
    Inv k { s.setPc id (.writing groups { e with logIdx := s.gsn } before) with
      gsn := s.gsn + 1
      issued := s.issued + 1 } := by
  obtain ⟨hgsn, hgroup, hbelow, hchain, hcalls, hapart, hret, hnd⟩ := h
  have hidx := toNat_gsn hgsn hlt
  have hnew : ∀ g, ∀ x ∈ s.written g, x.logIdx < s.gsn := fun g x hx => by
    rw [UInt64.lt_iff_toNat_lt, hidx]
    exact hbelow g x hx
  have hok := hcalls id
  rw [hpc] at hok
  refine ⟨?_, hgroup, fun g x hx => Nat.lt_succ_of_lt (hbelow g x hx), hchain, fun id' => ?_, ?_, hret, hnd⟩
  · show s.gsn + 1 = UInt64.ofNat (s.issued + 1)
    rw [hgsn, UInt64.ofNat_add]
    rfl
  · show CallOk _ ((s.setPc id _).clients id').pc
    rw [pc_setPc]
    split_ifs with hid
    · refine ⟨hok.1, ?_, List.suffix_refl _, fun g hg => absurd (mem_groups g) hg, fun g _ x hx => ?_,
        fun p hp => ?_, fun x hx => ?_⟩
      · show s.gsn.toNat < s.issued + 1
        omega
      · exact UInt64.ne_of_lt (hnew g x hx)
      · exact UInt64.ne_of_lt (hnew .rdCli _ ((hret p hp).1 _))
      · show x.logIdx < s.gsn
        rw [UInt64.lt_iff_toNat_lt, hidx]
        exact hok.2 x hx
    · exact (hcalls id').mono (Nat.le_succ _) rfl rfl
  · refine apart_of_pc id _ hapart (pc_setPc s id · _) fun x hx id' _ hx' => ?_
    -- an index that is being used is below the counter
    obtain rfl : s.gsn = x := Option.some.inj hx
    have hok' := hcalls id'
    cases hpc' : (s.clients id').pc with
    | idle | asking =>
      rw [hpc'] at hx'
      cases hx'
    | writing todo e' before' =>
      rw [hpc'] at hx' hok'
      have hb := hok'.below
      have heq : e'.logIdx = s.gsn := Option.some.inj hx'
      rw [heq] at hb
      omega

/-- **Somebody gets a range of indices.** -/
theorem Inv.getGSNBatch (h : Inv k s) (batchSize : UInt64) :
    Inv k { s with gsn := s.gsn + batchSize, issued := s.issued + batchSize.toNat } := by
  obtain ⟨hgsn, hgroup, hbelow, hchain, hcalls, hapart, hret, hnd⟩ := h
  refine ⟨?_, hgroup, fun g x hx => Nat.lt_add_right _ (hbelow g x hx), hchain, fun id' => ?_, hapart, hret, hnd⟩
  · show s.gsn + batchSize = UInt64.ofNat (s.issued + batchSize.toNat)
    rw [hgsn, UInt64.ofNat_add, UInt64.ofNat_toNat]
  · exact (hcalls id').mono (Nat.le_add_right _ _) rfl rfl

theorem suffix_cases (h : g :: todo <:+ groups) : g = .rdCli ∧ todo = [.backup, .backup2] ∨
    g = .backup ∧ todo = [.backup2] ∨ g = .backup2 ∧ todo = [] := by
  simp only [groups, List.suffix_cons_iff, List.cons.injEq, List.suffix_nil] at h
  rcases h with ⟨rfl, rfl⟩ | ⟨rfl, rfl⟩ | ⟨rfl, rfl⟩ | h
  · exact Or.inl ⟨rfl, rfl⟩
  · exact Or.inr (Or.inl ⟨rfl, rfl⟩)
  · exact Or.inr (Or.inr ⟨rfl, rfl⟩)
  · cases h

theorem mem_written_update {x : LogEntry} {g' : Group} :
    x ∈ Function.update s.written g (s.written g ++ [e]) g' ↔ x ∈ s.written g' ∨ g' = g ∧ x = e := by
  rw [Function.update_apply]
  split_ifs with hg
  · subst hg
    simp
  · simp [hg]

theorem CallOk.appendBatch {pc : Pc} {servers : Group → ℕ → Server} {clients : UInt64 → LazyLogClient}
    (h : CallOk s pc) (hne : ∀ x, pc.index = some x → e.logIdx ≠ x) :
    CallOk { s with
      servers := servers
      clients := clients
      written := Function.update s.written g (s.written g ++ [e]) } pc := by
  cases pc with
  | idle => trivial
  | asking e before => exact h
  | writing todo e' before =>
    obtain ⟨hent, hbelow, hsuf, hdone, hleft, hret, hbef⟩ := h
    refine ⟨hent, hbelow, hsuf, fun g' hg' => ?_, fun g' hg' x hx => ?_, hret, hbef⟩
    · exact mem_written_update.mpr (Or.inl (hdone g' hg'))
    · rcases mem_written_update.mp hx with hx | ⟨-, rfl⟩
      · exact hleft g' hg' x hx
      · exact hne _ rfl

theorem Pending.appendBatch {servers : Group → ℕ → Server} {clients : UInt64 → LazyLogClient}
    (h : Pending s (g :: todo) e before) :
    Pending { s with
      servers := servers
      clients := clients
      written := Function.update s.written g (s.written g ++ [e]) } todo e before := by
  obtain ⟨hent, hbelow, hsuf, hdone, hleft, hret, hbef⟩ := h
  have hnot : g ∉ todo := by
    rcases suffix_cases hsuf with ⟨rfl, rfl⟩ | ⟨rfl, rfl⟩ | ⟨rfl, rfl⟩ <;> decide
  refine ⟨hent, hbelow, (List.suffix_cons g todo).trans hsuf, fun g' hg' => ?_, fun g' hg' x hx => ?_, hret, hbef⟩
  · refine mem_written_update.mpr ?_
    by_cases hg : g' = g
    · exact Or.inr ⟨hg, rfl⟩
    · exact Or.inl (hdone g' (List.not_mem_cons_of_ne_of_not_mem hg hg'))
  · rcases mem_written_update.mp hx with hx | ⟨rfl, -⟩
    · exact hleft g' (List.mem_cons_of_mem g hg') x hx
    · exact absurd hg' hnot

theorem alone_appendBatch (h : ∀ g, CorfuReads.Inv k (alone s g)) (hP : Pending s (g :: todo) e before) (req : Mem)
    {fd : ℕ} (hfree : (s.servers g (e.logIdx.toNat % k.shardNum)).files.fds fd = none)
    {clients : UInt64 → LazyLogClient} (g' : Group) :
    CorfuReads.Inv k (alone { s with
      servers := Function.update s.servers g (NaiveReadBackend.appendBatch k (s.servers g) e req fd)
      clients := clients
      written := Function.update s.written g (s.written g ++ [e]) } g') := by
  unfold alone
  dsimp only
  by_cases hg : g' = g
  · subst hg
    rw [Function.update_self, Function.update_self]
    exact (h g').appendEntryAll hP.entry.1 hP.entry.2 (hP.left g' List.mem_cons_self) (fun _ => req)
      (fun _ => hfree)
  · rw [Function.update_of_ne hg, Function.update_of_ne hg]
    exact h g'

/-- **A client stores its entry in the next group.** -/
theorem Inv.appendBatch (h : Inv k s) (hpc : (s.clients id).pc = .writing (g :: todo) e before) (req : Mem) {fd : ℕ}
    (hfree : (s.servers g (e.logIdx.toNat % k.shardNum)).files.fds fd = none) :
    Inv k { s.setPc id (.writing todo e before) with
      servers := Function.update s.servers g (NaiveReadBackend.appendBatch k (s.servers g) e req fd)
      written := Function.update s.written g (s.written g ++ [e]) } := by
  obtain ⟨hgsn, hgroup, hbelow, hchain, hcalls, hapart, hret, hnd⟩ := h
  have hP : Pending s (g :: todo) e before := by
    have := hcalls id
    rwa [hpc] at this
  have hindex : (s.clients id).pc.index = some e.logIdx := by
    rw [hpc]
    rfl
  refine ⟨hgsn, alone_appendBatch hgroup hP req hfree, fun g' x hx => ?_, ?_, fun id' => ?_, ?_,
    fun p hp => ⟨fun g' => mem_written_update.mpr (Or.inl ((hret p hp).1 g')), (hret p hp).2⟩, hnd⟩
  · rcases mem_written_update.mp hx with hx | ⟨-, rfl⟩
    · exact hbelow g' x hx
    · exact hP.below
  · -- the entry is in the groups before this one
    constructor
    · intro x hx
      refine mem_written_update.mpr ?_
      rcases mem_written_update.mp hx with hx | ⟨rfl, rfl⟩
      · exact Or.inl (hchain.1 hx)
      · refine Or.inl (hP.done _ ?_)
        rcases suffix_cases hP.suffix with ⟨h0, -⟩ | ⟨h0, -⟩ | ⟨-, rfl⟩
        · cases h0
        · cases h0
        · decide
    · intro x hx
      refine mem_written_update.mpr ?_
      rcases mem_written_update.mp hx with hx | ⟨rfl, rfl⟩
      · exact Or.inl (hchain.2 hx)
      · refine Or.inl (hP.done _ ?_)
        rcases suffix_cases hP.suffix with ⟨h0, -⟩ | ⟨-, rfl⟩ | ⟨h0, -⟩
        · cases h0
        · decide
        · cases h0
  · show CallOk _ ((s.setPc id _).clients id').pc
    rw [pc_setPc]
    split_ifs with hid
    · exact hP.appendBatch
    · refine (hcalls id').appendBatch fun x hx heq => hid ?_
      exact hapart id' id x hx (by rw [hindex, heq])
  · refine apart_of_pc id _ hapart (pc_setPc s id · _) fun x hx id' hid hx' => hid ?_
    exact hapart id' id x hx' (hindex.trans hx)

/-- **A client returns.** -/
theorem Inv.ret (h : Inv k s) (hpc : (s.clients id).pc = .writing [] e before) :
    Inv k { s.setPc id .idle with returned := s.returned ++ [(e, before)] } := by
  obtain ⟨hgsn, hgroup, hbelow, hchain, hcalls, hapart, hret, hnd⟩ := h
  have hP : Pending s [] e before := by
    have := hcalls id
    rwa [hpc] at this
  have hindex : (s.clients id).pc.index = some e.logIdx := by
    rw [hpc]
    rfl
  refine ⟨hgsn, hgroup, hbelow, hchain, fun id' => ?_, ?_, ?_, ?_⟩
  · show CallOk _ ((s.setPc id _).clients id').pc
    rw [pc_setPc]
    split_ifs with hid
    · trivial
    · have hok := hcalls id'
      cases hpc' : (s.clients id').pc with
      | idle => trivial
      | asking e' before' =>
        rw [hpc'] at hok
        exact hok
      | writing todo e' before' =>
        rw [hpc'] at hok
        obtain ⟨hent, hb, hsuf, hdone, hleft, hr, hbef⟩ := hok
        refine ⟨hent, hb, hsuf, hdone, hleft, ?_, hbef⟩
        refine List.forall_mem_append.mpr ⟨hr, List.forall_mem_singleton.mpr fun heq => hid ?_⟩
        have hindex' : (s.clients id').pc.index = some e.logIdx := by
          rw [hpc']
          exact congrArg some heq.symm
        exact hapart id' id _ hindex' hindex
  · exact apart_of_pc id .idle hapart (pc_setPc s id · _) (by rintro x ⟨⟩)
  · refine List.forall_mem_append.mpr ⟨hret, List.forall_mem_singleton.mpr ⟨fun g => ?_, hP.before⟩⟩
    exact hP.done g List.not_mem_nil
  · show ((s.returned ++ [(e, before)]).map _).Nodup
    rw [List.map_append, List.map_singleton, ← List.concat_eq_append]
    refine hnd.concat fun hmem => ?_
    obtain ⟨p, hp, heq⟩ := List.mem_map.mp hmem
    exact hP.returned p hp heq

/-! ### Runs -/

/-- **One step** keeps the invariant, unless it takes the counter round. -/
theorem Inv.step (h : Inv k s) (hs : Step k s s') (hissued : s'.issued ≤ 2 ^ 64) : Inv k s' := by
  cases hs with
  | call id data hpc hsize => exact h.call hpc hsize
  | getGSN id m resp hpc =>
    have hresp : DurabilityLogERPCCli.getGSN (getGSNHandler s.gsn m).1 resp = s.gsn := getGSN_gsnResponse ..
    rw [hresp]
    exact h.getGSN hissued hpc
  | appendBatch id req fd hpc hfree => exact h.appendBatch hpc req hfree
  | ret id hpc => exact h.ret hpc
  | getGSNBatch batchSize req m =>
    rw [getGSNBatchHandler_request]
    exact h.getGSNBatch batchSize

theorem issued_le (hs : Step k s s') : s.issued ≤ s'.issued := by
  cases hs with
  | call | appendBatch | ret => exact le_rfl
  | getGSN => exact Nat.le_succ _
  | getGSNBatch => exact Nat.le_add_right _ _

theorem inv_of_reach (h : Reach Start (Step k) s) (hissued : s.issued ≤ 2 ^ 64) : Inv k s := by
  refine h.invariant (P := fun s => s.issued ≤ 2 ^ 64 → Inv k s) (fun _ hs _ => inv_of_start hs) ?_ hissued
  intro s s' _ ih hs hle
  exact (ih ((issued_le hs).trans hle)).step hs hle

theorem Inv.subset_rdCli (h : Inv k s) (g : Group) : s.written g ⊆ s.written .rdCli := by
  cases g with
  | rdCli => exact fun _ hx => hx
  | backup => exact h.chain.2
  | backup2 => exact fun _ hx => h.chain.2 (h.chain.1 hx)

/-- **The appends of the `CORFU` build are replicated**, whatever the clients do next to each other, as long as fewer
than 2⁶⁴ indices have been asked for and the entries of a shard have one length. An entry whose append has returned
is read as it was appended from each of the three groups; no two of them have one index, and those that had returned
when an append was called have smaller indices than its entry. A group has nothing that the one before it has not. -/
theorem appends_are_replicated (h : Reach Start (Step k) s) (hissued : s.issued ≤ 2 ^ 64)
    (hsize : ∀ e ∈ s.written .rdCli, ∀ e' ∈ s.written .rdCli,
      e'.logIdx.toNat % k.shardNum = e.logIdx.toNat % k.shardNum → entrySize e' = entrySize e) :
    (∀ p ∈ s.returned, ∀ g m, NaiveReadBackend.readEntry k (s.servers g) p.1.logIdx m default = (true, p.1)) ∧
      (s.returned.map fun p => p.1.logIdx).Nodup ∧
      (∀ p ∈ s.returned, ∀ x ∈ p.2, x.logIdx < p.1.logIdx) ∧
      s.written .backup2 ⊆ s.written .backup ∧ s.written .backup ⊆ s.written .rdCli := by
  have hinv := inv_of_reach h hissued
  refine ⟨fun p hp g m => ?_, hinv.distinct, fun p hp => (hinv.returned p hp).2, hinv.chain⟩
  have hmem := (hinv.returned p hp).1
  refine (hinv.group g).readEntry (hmem g) ?_ g m default
  refine CorfuReads.readable_of_sameSize (hinv.group g).distinct (hmem g) fun e' he' hsh => ?_
  exact hsize _ (hmem .rdCli) e' (hinv.subset_rdCli g he') hsh

/-! ### Three clients -/

/-- The state is reached, and the servers have not opened a descriptor from `n` on. -/
structure Ready (k : Striping) (s : Sys) (n : ℕ) : Prop where
  reach : Reach Start (Step k) s
  free : ∀ g sh fd, n ≤ fd → (s.servers g sh).files.fds fd = none

/-- The client has come to `pc`, and the others are where they were. -/
def Moved (s s' : Sys) (id : UInt64) (pc : Pc) : Prop :=
  ∀ id', (s'.clients id').pc = if id' = id then pc else (s.clients id').pc

theorem Moved.trans {s'' : Sys} {pc pc' : Pc} (h : Moved s s' id pc) (h' : Moved s' s'' id pc') :
    Moved s s'' id pc' := by
  intro id'
  rw [h' id', h id']
  split_ifs <;> rfl

theorem Moved.self {pc : Pc} (h : Moved s s' id pc) : (s'.clients id).pc = pc := (h id).trans (if_pos rfl)

theorem Moved.other {pc : Pc} {id' : UInt64} (h : Moved s s' id pc) (hne : id' ≠ id) :
    (s'.clients id').pc = (s.clients id').pc := (h id').trans (if_neg hne)

theorem Ready.begin {n : ℕ} {data : List UInt8} (h : Ready k s n) (hpc : (s.clients id).pc = .idle)
    (hdata : data.length < 2 ^ 32) : ∃ s' e, Ready k s' n ∧
      Moved s s' id (.writing groups e (s.returned.map Prod.fst)) ∧ e.data = data ∧ s'.written = s.written ∧
        s'.returned = s.returned ∧ s'.issued = s.issued + 1 := by
  have hcall := h.reach.next (.call id data hpc (Nat.mod_eq_of_lt hdata))
  have hasking := congrArg LazyLogClient.pc (Function.update_self id (⟨(s.clients id).seq + 1,
    .asking (constructLogEntry id (s.clients id).seq data) (s.returned.map Prod.fst)⟩ : LazyLogClient) s.clients)
  have hgsn := hcall.next (.getGSN id (fun _ => 0) (fun _ => 0) hasking)
  refine ⟨_, { constructLogEntry id (s.clients id).seq data with
    logIdx := DurabilityLogERPCCli.getGSN (getGSNHandler s.gsn fun _ => 0).1 fun _ => 0 }, ⟨hgsn, h.free⟩,
    fun id' => ?_, rfl, rfl, rfl, rfl⟩
  refine (pc_setPc _ id id' _).trans ?_
  split_ifs with hid
  · rfl
  · exact congrArg LazyLogClient.pc (Function.update_of_ne hid _ _)

theorem Ready.write {n : ℕ} (h : Ready k s n) (hpc : (s.clients id).pc = .writing (g :: todo) e before) :
    ∃ s', Ready k s' (n + 1) ∧ Moved s s' id (.writing todo e before) ∧
      s'.written = Function.update s.written g (s.written g ++ [e]) ∧ s'.returned = s.returned ∧
        s'.issued = s.issued := by
  have hstep := h.reach.next (.appendBatch id (fun _ => 0) n hpc (h.free g _ n (Nat.le_refl n)))
  refine ⟨_, ⟨hstep, fun g' sh fd hle => ?_⟩, (pc_setPc s id · _), rfl, rfl, rfl⟩
  have hold := h.free g' sh fd (by omega)
  simp only [Function.update_apply]
  split_ifs with hg
  · subst hg
    unfold NaiveReadBackend.appendBatch
    simp only [Function.update_apply]
    split_ifs with hsh
    · subst hsh
      exact CorfuReads.fds_appendEntryHandler (by omega) hold
    · exact hold
  · exact hold

theorem Ready.finish : ∀ (todo : List Group) {s : Sys} {n : ℕ}, Ready k s n →
    (s.clients id).pc = .writing todo e before → ∃ s' m, Ready k s' m ∧ Moved s s' id .idle ∧
      (∀ g, s'.written g = s.written g ++ List.replicate (todo.count g) e) ∧
        s'.returned = s.returned ++ [(e, before)] ∧ s'.issued = s.issued
  | [], s, n, h, hpc =>
    ⟨_, n, ⟨h.reach.next (.ret id hpc), h.free⟩, (pc_setPc s id · _), fun _ => (List.append_nil _).symm, rfl, rfl⟩
  | g :: todo, s, n, h, hpc => by
    obtain ⟨s₁, h₁, hm₁, hw₁, hr₁, hi₁⟩ := h.write hpc
    obtain ⟨s₂, m, h₂, hm₂, hw₂, hr₂, hi₂⟩ := Ready.finish todo h₁ hm₁.self
    refine ⟨s₂, m, h₂, hm₁.trans hm₂, fun g' => ?_, by rw [hr₂, hr₁], hi₂.trans hi₁⟩
    rw [hw₂, hw₁, Function.update_apply]
    split_ifs with hg
    · subst hg
      rw [List.count_cons_self, List.append_assoc, List.replicate_succ]
      rfl
    · rw [List.count_cons_of_ne (Ne.symm hg)]

/-- Everything has just been started. -/
def fresh : Sys where
  gsn := 0
  servers := CorfuReads.empty.servers
  clients _ := ⟨0, .idle⟩
  issued := 0
  written _ := []
  returned := []

theorem ready_fresh (k : Striping) : Ready k fresh 0 :=
  ⟨.start ⟨rfl, rfl, fun _ _ _ => rfl, fun _ _ _ => rfl, fun _ _ => rfl, fun _ => rfl, fun _ => rfl, rfl⟩,
    fun _ _ _ _ => rfl⟩

/-- Clients 7 and 8 append next to each other, so that two groups have their entries in different orders; client 9
appends when both have returned. -/
theorem appends_are_replicated_three : ∃ s e₇ e₈ e₉, Reach Start (Step oneShard) s ∧ s.issued = 3 ∧
    e₇.data = [5] ∧ e₈.data = [6] ∧ e₉.data = [4] ∧ s.written .rdCli = [e₈, e₇, e₉] ∧
    s.written .backup = [e₇, e₈, e₉] ∧ s.returned = [(e₇, []), (e₈, []), (e₉, [e₇, e₈])] ∧
    e₇.logIdx < e₉.logIdx ∧ e₈.logIdx < e₉.logIdx ∧ e₇.logIdx ≠ e₈.logIdx ∧
    ∀ e ∈ [e₇, e₈, e₉], ∀ g, NaiveReadBackend.readEntry oneShard (s.servers g) e.logIdx
      ⟨fun _ => 0, fun _ => 0⟩ default = (true, e) := by
  have h₀ := ready_fresh oneShard
  obtain ⟨s₁, e₇, h₁, hm₁, hd₇, hw₁, hr₁, hi₁⟩ := h₀.begin (show (fresh.clients 7).pc = _ from rfl)
    (show [(5 : UInt8)].length < _ by decide)
  obtain ⟨s₂, e₈, h₂, hm₂, hd₈, hw₂, hr₂, hi₂⟩ := h₁.begin (hm₁.other (show (8 : UInt64) ≠ 7 by decide))
    (show [(6 : UInt8)].length < _ by decide)
  -- client 8 is the first in the first group only
  obtain ⟨s₃, h₃, hm₃, hw₃, hr₃, hi₃⟩ := h₂.write hm₂.self
  obtain ⟨s₄, _, h₄, hm₄, hw₄, hr₄, hi₄⟩ := h₃.finish groups
    ((hm₃.other (show (7 : UInt64) ≠ 8 by decide)).trans ((hm₂.other (by decide)).trans hm₁.self))
  obtain ⟨s₅, _, h₅, hm₅, hw₅, hr₅, hi₅⟩ := h₄.finish _ ((hm₄.other (by decide)).trans hm₃.self)
  have hidle : (s₅.clients 9).pc = .idle := by
    rw [hm₅.other (by decide), hm₄.other (by decide), hm₃.other (by decide), hm₂.other (by decide),
      hm₁.other (by decide)]
    rfl
  obtain ⟨s₆, e₉, h₆, hm₆, hd₉, hw₆, hr₆, hi₆⟩ := h₅.begin hidle (show [(4 : UInt8)].length < _ by decide)
  obtain ⟨s, _, h, -, hw, hr, hi⟩ := h₆.finish groups hm₆.self
  have hissued : s.issued = 3 := by
    rw [hi, hi₆, hi₅, hi₄, hi₃, hi₂, hi₁]
    rfl
  have hfirst : s.written .rdCli = [e₈, e₇, e₉] := by
    rw [hw, hw₆, hw₅, hw₄, hw₃, hw₂, hw₁]
    rfl
  have hsecond : s.written .backup = [e₇, e₈, e₉] := by
    rw [hw, hw₆, hw₅, hw₄, hw₃, hw₂, hw₁]
    rfl
  have hreturned : s.returned = [(e₇, []), (e₈, []), (e₉, [e₇, e₈])] := by
    rw [hr, hr₆, hr₅, hr₄, hr₃, hr₂, hr₁]
    rfl
  have hsize : ∀ e ∈ s.written .rdCli, entrySize e = 36 := by
    rw [hfirst]
    unfold entrySize
    simp only [List.forall_mem_cons, hd₇, hd₈, hd₉]
    decide
  obtain ⟨hread, hnodup, hbefore, -⟩ := appends_are_replicated h.reach (by rw [hissued]; decide)
    fun e he e' he' _ => (hsize e' he').trans (hsize e he).symm
  rw [hreturned] at hread hnodup hbefore
  refine ⟨s, e₇, e₈, e₉, h.reach, hissued, hd₇, hd₈, hd₉, hfirst, hsecond, hreturned, ?_, ?_, ?_, ?_⟩
  · exact hbefore (e₉, [e₇, e₈]) (by simp) e₇ (by simp)
  · exact hbefore (e₉, [e₇, e₈]) (by simp) e₈ (by simp)
  · simp only [List.map_cons, List.nodup_cons, List.mem_cons, not_or] at hnodup
    exact hnodup.1.1
  · simp only [List.forall_mem_cons] at hread ⊢
    exact ⟨fun g => hread.1 g _, fun g => hread.2.1 g _, fun g => hread.2.2.1 g _, by simp⟩

end LazyLog.Service.CorfuAppends
