import LazyLog.Storage.ShardServer

/-! # A data file that cannot be created (`ShardServer::addToEntryCache`)

`addToEntryCache` puts a new stripe into the cache before it opens the data file, and returns if `open` fails. The
handlers go on as if the batch had been added: a backup replies that it is stored, and the primary takes the last
entry of an empty vector. The next batch for the stripe finds it in the cache and is added at its start, with
descriptor 0. -/

namespace LazyLog.Storage.FailedOpen

open LazyLog.Lib.Bytes LazyLog.Lib.Disk LazyLog.Rpc.Entry LazyLog.Rpc.Multi LazyLog.Storage.ShardServer

/-! ### The handlers -/

/-- `enum Status`, as far as `ReplicateBatchHandler` uses it. -/
inductive Status
  | ok
  | error
  deriving DecidableEq, Repr

/-- `entries_cache_set_[base_idx].back()`, nothing if it is read past the end of an empty vector. -/
def back (v : Server) (base : ℕ) : Option LogEntry := ((v.entriesCacheSet base).getD []).getLast?

/-- `AppendBatchHandler`, without the backups: the server after it and the response, nothing if it reads past the end
of a vector. -/
def appendBatchHandler (k : Striping) (v : Server) (buf : Mem) (o : Opens) : Option (Server × Int) :=
  let base := requestBase k buf
  let v := storeBatch k v base buf o
  match back v base with
  | none => none
  | some e => some ({ v with replicatedIndex := e.logIdx }, 0)

/-- `ReplicateBatchHandler`: the server after it and the response. `writeFromCacheToDisk` returns zero. -/
def replicateBatchHandler (k : Striping) (v : Server) (buf : Mem) (o : Opens) : Server × Status :=
  (storeBatch k v (requestBase k buf) buf o, .ok)

/-- With an entry in the vector the end of `AppendBatchHandler` is that of `ShardServer`. -/
theorem appendBatchHandler_eq {k : Striping} {v : Server} {buf : Mem} {o : Opens} {r : Server × Int}
    (h : appendBatchHandler k v buf o = some r) :
    r.1 = setReplicatedIndex (storeBatch k v (requestBase k buf) buf o) (requestBase k buf) := by
  unfold appendBatchHandler back at h
  simp only at h
  split at h
  · cases h
  · rename_i e he
    rw [← Option.some.inj h]
    unfold setReplicatedIndex
    rw [List.getLastD_eq_getLast?, he]
    rfl

/-! ### A clean rejection -/

/-- The members a request may change are as they were. -/
structure SameMembers (v v' : Server) : Prop where
  entriesCacheSet : v'.entriesCacheSet = v.entriesCacheSet
  cacheSize : v'.cacheSize = v.cacheSize
  entriesFdSet : v'.entriesFdSet = v.entriesFdSet
  replicatedIndex : v'.replicatedIndex = v.replicatedIndex

/-- An `APPEND_BATCH` request is rejected: nothing is read past the end of a vector, the members are left as they
were, and the response is not success. -/
def AppendRejected (k : Striping) (v : Server) (buf : Mem) (o : Opens) : Prop :=
  ∃ v' res, appendBatchHandler k v buf o = some (v', res) ∧ SameMembers v v' ∧ res ≠ 0

/-- A `REP_BATCH` request is rejected. -/
def ReplicateRejected (k : Striping) (v : Server) (buf : Mem) (o : Opens) : Prop :=
  SameMembers v (replicateBatchHandler k v buf o).1 ∧ (replicateBatchHandler k v buf o).2 ≠ .ok

/-! ### Requests -/

/-- The request with one empty entry. -/
def oneEntry (i : UInt64) : Mem := (multiSerializer [emptyEntry i] 0 0 1 (fun _ => 0) 0).1

theorem numbered_oneEntry (i : UInt64) : Numbered (oneEntry i) 0 [emptyEntry i] := by
  obtain ⟨m', h, hnum⟩ := multiSerializer_eq [emptyEntry i] 0 0 (show 0 < 1 by decide) (fun _ => 0) 0 (by decide)
  unfold oneEntry
  rw [h]
  exact hnum

theorem requestBase_oneEntry (k : Striping) (i : UInt64) : requestBase k (oneEntry i) = k.base i.toNat := by
  have hh := (numbered_oneEntry i).body.1
  rw [Nat.zero_add] at hh
  unfold requestBase
  rw [deserializer_of_holds default hh rfl (show (1 : UInt16) ≠ 0 by decide)]
  rfl

variable {k : Striping} {v : Server} {buf : Mem} {o : Opens} {b : ℕ}

/-! ### What happens instead -/

/-- **The stripe stays registered**, with no entries. -/
theorem storeBatch_of_failed (hc : v.entriesCacheSet b = none) (hd : v.files.data b = none) (ho : o.wr = none)
    (buf : Mem) :
    storeBatch k v b buf o =
      { v with
        entriesCacheSet := Function.update v.entriesCacheSet b (some [])
        cacheSize := Function.update v.cacheSize b (some 0) } := by
  have hadd : addToEntryCache k v b buf o =
      { v with
        entriesCacheSet := Function.update v.entriesCacheSet b (some [])
        cacheSize := Function.update v.cacheSize b (some 0) } := by
    unfold addToEntryCache openStripe loadFromDiskToCache
    simp only [hc, hd, ho]
  have hpos := k.stripe_pos
  unfold storeBatch
  rw [hadd]
  simp only [Function.update_self, Option.getD_some, List.length_nil]
  rw [if_neg (by omega)]

/-- The primary reads past the end of an empty vector. -/
theorem appendBatchHandler_of_failed (hc : v.entriesCacheSet (requestBase k buf) = none)
    (hd : v.files.data (requestBase k buf) = none) (ho : o.wr = none) : appendBatchHandler k v buf o = none := by
  unfold appendBatchHandler back
  simp only [storeBatch_of_failed hc hd ho, Function.update_self, Option.getD_some, List.getLast?_nil]

/-- **A failed open is never a clean rejection**, of either request. -/
theorem failed_open_never_rejected (hc : v.entriesCacheSet (requestBase k buf) = none)
    (hd : v.files.data (requestBase k buf) = none) (ho : o.wr = none) :
    ¬ AppendRejected k v buf o ∧ ¬ ReplicateRejected k v buf o := by
  constructor
  · rintro ⟨v', res, h, -, -⟩
    rw [appendBatchHandler_of_failed hc hd ho] at h
    cases h
  · rintro ⟨hsame, -⟩
    have hcache := congrFun hsame.entriesCacheSet (requestBase k buf)
    unfold replicateBatchHandler at hcache
    simp only [storeBatch_of_failed hc hd ho, Function.update_self, hc] at hcache
    cases hcache

/-- A server that has just been started is sent entry 0 and cannot create the file. -/
theorem failed_open_never_rejected_first :
    ¬ AppendRejected oneShard .empty (oneEntry 0) ⟨3, none⟩ ∧
      ¬ ReplicateRejected oneShard .empty (oneEntry 0) ⟨3, none⟩ :=
  failed_open_never_rejected rfl rfl rfl

/-- **The next batch is added at the start of the stripe**, with descriptor 0. -/
theorem storeBatch_after_failed {es : List LogEntry} {buf' : Mem} (buf : Mem) (o' : Opens)
    (hc : v.entriesCacheSet b = none) (hd : v.files.data b = none) (hfd : v.entriesFdSet b = none)
    (ho : o.wr = none) (hm : Numbered buf' 0 es) (hs : ∀ e ∈ es, e.Sized) (hf : ∀ e ∈ es, e.flags ≠ 0)
    (hlt : es.length < k.stripeUnitSize) :
    (storeBatch k (storeBatch k v b buf o) b buf' o').entriesCacheSet b = some es ∧
      (storeBatch k (storeBatch k v b buf o) b buf' o').entriesFdSet b = some 0 ∧
      (storeBatch k (storeBatch k v b buf o) b buf' o').replicatedIndex = v.replicatedIndex ∧
      (storeBatch k (storeBatch k v b buf o) b buf' o').globalIndex = v.globalIndex := by
  rw [storeBatch_of_failed hc hd ho]
  unfold storeBatch addToEntryCache openStripe addEntries
  simp only [Function.update_self, hfd, Option.getD_some, Option.getD_none, multiDeserializer_eq hm hs hf,
    List.nil_append]
  rw [if_neg (by omega)]
  simp only [Function.update_self, and_self]

/-! ### A wrong read -/

/-- A server is sent entry 0 and cannot create the file, and is then sent entry 1: no rejection, and a read of index 0
returns entry 1. -/
theorem failed_open_wrong_read :
    ¬ AppendRejected oneShard .empty (oneEntry 0) ⟨3, none⟩ ∧
      ¬ ReplicateRejected oneShard .empty (oneEntry 0) ⟨3, none⟩ ∧
      ∀ resp, readEntry oneShard
        (replicateBatchHandler oneShard (replicateBatchHandler oneShard .empty (oneEntry 0) ⟨3, none⟩).1
          (oneEntry 1) ⟨3, some 4⟩).1 0 resp = some (serializer (emptyEntry 1) resp 0) := by
  have h0 : requestBase oneShard (oneEntry 0) = 0 := requestBase_oneEntry oneShard 0
  have h1 : requestBase oneShard (oneEntry 1) = 0 := requestBase_oneEntry oneShard 1
  refine ⟨?_, ?_, fun resp => ?_⟩
  · rintro ⟨v', res, h, -, -⟩
    rw [appendBatchHandler_of_failed rfl rfl rfl] at h
    cases h
  · rintro ⟨hsame, -⟩
    have hcache := congrFun hsame.entriesCacheSet 0
    unfold replicateBatchHandler at hcache
    simp only [h0, storeBatch_of_failed (v := Server.empty) (b := 0) (o := ⟨3, none⟩) rfl rfl rfl,
      Function.update_self] at hcache
    cases hcache
  · obtain ⟨hc, -, hr, hg⟩ := storeBatch_after_failed (k := oneShard) (v := .empty) (b := 0)
      (o := ⟨3, none⟩) (oneEntry 0) ⟨3, some 4⟩ rfl rfl rfl rfl (numbered_oneEntry 1) (by decide) (by decide)
      (by decide)
    unfold replicateBatchHandler
    rw [h0, h1]
    unfold readEntry
    have hbase : oneShard.base (0 : UInt64).toNat = 0 := rfl
    simp only [hbase, hc, hr, hg]
    rfl

end LazyLog.Storage.FailedOpen
