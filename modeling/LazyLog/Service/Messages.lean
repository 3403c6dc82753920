import LazyLog.Rpc.RoundTrip
import LazyLog.DurLog.GcMessage
import LazyLog.DurLog.ServerFetch
import LazyLog.Storage.ShardServer

/-! # The buffers of the messages

The serialisers are given no bound, and the buffers they write to have sizes of their own: `dur_log.msg_size` for the
request of a collection, 2048 bytes for each entry in the response to a fetch, one page for the response to a read.
Here is what each message needs: the request grows with the number of clients of the batch, the responses with the
sizes of the entries. -/

namespace LazyLog.Service.Messages

open LazyLog.Lib.Bytes LazyLog.Rpc.Entry LazyLog.Rpc.Multi LazyLog.Rpc.RoundTrip LazyLog.Rpc.ReqIds
open LazyLog.DurLog.Flat LazyLog.DurLog.FlatCli LazyLog.DurLog.GcMessage LazyLog.DurLog.ServerFetch
open LazyLog.Storage.ShardServer

/-! ### The functions -/

/-- A message: the size of the buffer it is written to, and its length. -/
structure Message where
  allocated : ℕ
  length : ℕ

/-- **The message fits its buffer.** -/
def Message.Fits (msg : Message) : Prop := msg.length ≤ msg.allocated

instance (msg : Message) : Decidable msg.Fits := inferInstanceAs (Decidable (msg.length ≤ msg.allocated))

/-- `DurabilityLogERPCCli::DeleteOrderedEntriesAsync`: `req_` has `dur_log.msg_size` bytes. -/
def deleteOrderedEntriesAsync (reqIds : List ReqID) (m : Mem) (buf : ℕ) : Message :=
  ⟨msgSize, (reqIdSerializer reqIds m buf).2⟩

/-- The request to a backup for a fetched batch, which ends with the sentinel. -/
def delOrderedEntriesRequest (es : List LogEntry) (m : Mem) (buf : ℕ) : Message :=
  deleteOrderedEntriesAsync (processFetchedEntries false es []).2 m buf

/-- The response of `FetchUnorderedEntriesHandler` for entries and their number; `num * 2048` has 32 bits. -/
def fetchResponse (fetched : List LogEntry × ℕ) (m : Mem) (buf : ℕ) : Message :=
  ⟨fetched.2 * 2048 % 2 ^ 32, (multiSerializerAll fetched.1 m buf).2⟩

/-- `ERPCDurLogTransport::FetchUnorderedEntriesHandler`. -/
def fetchUnorderedEntriesHandler (c : Config) (l : FlatLog) (maxEntriesNum : ℕ) (m : Mem) (buf : ℕ) : Message :=
  fetchResponse (DurLog.ServerFetch.fetchUnorderedEntries c l [] maxEntriesNum) m buf

/-- The response of `ReadEntryHandler` for an entry; `resp_` of the client has one page. -/
def readEntryResponse (e : LogEntry) (resp : Mem) : Message := ⟨pageSize, (serializer e resp 0).2⟩

/-! ### The responses of the handlers -/

theorem fetchLoop_snd (c : Config) (l : FlatLog) (maxEntriesNum s n : ℕ) (e : List LogEntry) :
    e.length = n → (fetchLoop c l maxEntriesNum s n e).2 = (fetchLoop c l maxEntriesNum s n e).1.length := by
  fun_induction fetchLoop c l maxEntriesNum s n e with
  | case1 s n e hs r hn =>
    intro h
    rw [List.length_append, h, List.length_singleton]
  | case2 s n e hs r hn ih =>
    intro h
    exact ih (by rw [List.length_append, h, List.length_singleton])
  | case3 s n e hs => exact Eq.symm

/-- The handler of a fetch responds with a list of entries and its length. -/
theorem fetchUnorderedEntriesHandler_eq (c : Config) (l : FlatLog) (maxEntriesNum : ℕ) (m : Mem) (buf : ℕ) :
    ∃ es, fetchUnorderedEntriesHandler c l maxEntriesNum m buf = fetchResponse (es, es.length) m buf := by
  refine ⟨(DurLog.ServerFetch.fetchUnorderedEntries c l [] maxEntriesNum).1, congrArg (fetchResponse · m buf) ?_⟩
  refine Prod.ext rfl ?_
  unfold DurLog.ServerFetch.fetchUnorderedEntries
  split_ifs
  · rfl
  · exact fetchLoop_snd c l maxEntriesNum _ 0 [] rfl

/-- The handler of a read responds with an entry of the stripe. -/
theorem readEntry_response {k : Striping} {v : Server} {idx : UInt64} {resp : Mem} {r : Mem × ℕ}
    (h : readEntry k v idx resp = some r) :
    ∃ es, v.entriesCacheSet (k.base idx.toNat) = some es ∧ ∃ e ∈ es, readEntryResponse e resp = ⟨pageSize, r.2⟩ := by
  unfold readEntry at h
  dsimp only at h
  split at h
  · cases h
  · rename_i es hes
    split_ifs at h with hwait
    obtain rfl := Option.some.inj h
    have hlt : (idx.toNat - k.base idx.toNat) / k.shardNum < es.length := by
      by_contra hge
      exact hwait (Or.inl (Nat.le_of_not_lt hge))
    refine ⟨es, hes, _, ?_, rfl⟩
    rw [List.getD_eq_getElem _ _ hlt]
    exact List.getElem_mem hlt

/-! ### The lengths -/

/-- The clients of a batch: their ids other than 0, each once. -/
def clients (es : List LogEntry) : List UInt64 := (es.map LogEntry.clientId).dedup.filter (· ≠ 0)

theorem length_encodeIds (ids : List ReqID) : (encodeIds ids).length = 16 * ids.length := by
  induction ids with
  | nil => rfl
  | cons rid ids ih =>
    simp only [encodeIds, List.length_append, length_leBytes, List.length_cons, ih]
    omega

/-- **The request of a collection** has an id for each client. -/
theorem delOrderedEntriesRequest_length (es : List LogEntry) (p : ℕ) (m : Mem) (buf : ℕ) :
    (delOrderedEntriesRequest (es ++ [sentinel p]) m buf).length = 4 + 16 * (clients es).length := by
  obtain ⟨hasc, hkeys, -⟩ := maxSeqForClient_spec (es ++ [sentinel p])
  -- the ids sent and the clients are the same, each once
  have hperm : (((maxSeqForClient (es ++ [sentinel p])).filter fun r => r.1 ≠ 0).map Prod.fst).Perm (clients es) := by
    refine (List.perm_ext_iff_of_nodup (KeysAscend.nodup (hasc.sublist List.filter_sublist))
      ((List.nodup_dedup _).filter _)).mpr fun id => ?_
    have hid := hkeys id
    simp only [List.mem_append, List.mem_singleton, or_and_right, exists_or, exists_eq_left] at hid
    simp only [List.mem_map, List.mem_filter, List.mem_dedup, decide_eq_true_iff]
    constructor
    · rintro ⟨r, ⟨hr, hne⟩, rfl⟩
      refine ⟨(hid.mp ⟨r, hr, rfl⟩).resolve_right fun h0 => hne h0.symm, hne⟩
    · rintro ⟨he, hne⟩
      obtain ⟨r, hr, rfl⟩ := hid.mpr (Or.inl he)
      exact ⟨r, ⟨hr, hne⟩, rfl⟩
  have hlen := hperm.length_eq
  rw [List.length_map] at hlen
  unfold delOrderedEntriesRequest deleteOrderedEntriesAsync processFetchedEntries
  simp only [Bool.false_eq_true, if_false, List.nil_append, reqIdSerializer_eq, List.length_append, length_leBytes,
    length_encodeIds, hlen]

theorem fetchResponse_length (fetched : List LogEntry × ℕ) (m : Mem) (buf : ℕ) :
    (fetchResponse fetched m buf).length = 4 + totalSize fetched.1 := by
  obtain ⟨m', h, -⟩ := serializerLoop_eq buf fetched.1 (writeBytes m buf (leBytes 4 fetched.1.length)) 4
  exact congrArg Prod.snd h

theorem readEntryResponse_length (e : LogEntry) (resp : Mem) : (readEntryResponse e resp).length = entrySize e :=
  congrArg Prod.snd (serializer_eq e resp 0)

/-! ### Which messages fit -/

theorem delOrderedEntriesRequest_fits_iff (es : List LogEntry) (p : ℕ) (m : Mem) (buf : ℕ) :
    (delOrderedEntriesRequest (es ++ [sentinel p]) m buf).Fits ↔ (clients es).length ≤ 512 := by
  unfold Message.Fits
  rw [delOrderedEntriesRequest_length]
  change 4 + 16 * (clients es).length ≤ 8196 ↔ _
  omega

theorem fetchResponse_fits_iff (es : List LogEntry) (m : Mem) (buf : ℕ) :
    (fetchResponse (es, es.length) m buf).Fits ↔ 4 + totalSize es ≤ es.length * 2048 % 2 ^ 32 := by
  unfold Message.Fits
  rw [fetchResponse_length]
  rfl

theorem readEntryResponse_fits_iff (e : LogEntry) (resp : Mem) :
    (readEntryResponse e resp).Fits ↔ e.data.length ≤ 4064 := by
  unfold Message.Fits
  rw [readEntryResponse_length]
  change 32 + (e.data.length + 3) / 4 * 4 ≤ 4096 ↔ _
  omega

/-- **Which messages fit their buffers.** The request of a collection does if the batch has at most 512 clients, the
response to a fetch if the entries and the four bytes in front of them take at most 2048 bytes for each entry, the
response to a read if the entry has at most 4064 bytes of data; and none of them otherwise. -/
theorem messages_fit_iff (es : List LogEntry) (e : LogEntry) (p : ℕ) (m : Mem) (buf : ℕ) :
    ((delOrderedEntriesRequest (es ++ [sentinel p]) m buf).Fits ↔ (clients es).length ≤ 512) ∧
      ((fetchResponse (es, es.length) m buf).Fits ↔ 4 + totalSize es ≤ es.length * 2048 % 2 ^ 32) ∧
      ((readEntryResponse e m).Fits ↔ e.data.length ≤ 4064) :=
  ⟨delOrderedEntriesRequest_fits_iff es p m buf, fetchResponse_fits_iff es m buf, readEntryResponse_fits_iff e m⟩

/-- An entry of client `i + 1`. -/
def entryOf (i : ℕ) : LogEntry := { (default : LogEntry) with clientId := UInt64.ofNat (i + 1) }

theorem toNat_entryOf {i : ℕ} (hi : i < 513) : (entryOf i).clientId.toNat = i + 1 :=
  UInt64.toNat_ofNat_of_lt' (Nat.lt_of_lt_of_le (Nat.succ_lt_succ hi) (by decide))

/-- One entry of each of 513 clients. -/
def manyClients : List LogEntry := (List.range 513).map entryOf

theorem length_clients_manyClients : (clients manyClients).length = 513 := by
  have hnodup : (manyClients.map LogEntry.clientId).Nodup := by
    unfold manyClients
    rw [List.map_map]
    refine List.nodup_range.map_on fun i hi j hj heq => ?_
    have htoNat : (entryOf i).clientId.toNat = (entryOf j).clientId.toNat := congrArg UInt64.toNat heq
    rw [toNat_entryOf (List.mem_range.mp hi), toNat_entryOf (List.mem_range.mp hj)] at htoNat
    exact Nat.succ.inj htoNat
  have hne : ∀ id ∈ manyClients.map LogEntry.clientId, decide (id ≠ 0) = true := by
    intro id hid
    obtain ⟨e, he, rfl⟩ := List.mem_map.mp hid
    obtain ⟨i, hi, rfl⟩ := List.mem_map.mp he
    refine decide_eq_true fun h0 => ?_
    have htoNat := toNat_entryOf (List.mem_range.mp hi)
    rw [h0] at htoNat
    exact absurd htoNat (Nat.succ_ne_zero i).symm
  unfold clients
  rw [hnodup.dedup, List.filter_eq_self.mpr hne, List.length_map]
  exact (List.length_map _).trans List.length_range

theorem entrySize_entryOf (i : ℕ) : entrySize (entryOf i) = 32 := by
  change metaDataSize + align4 (0 + 3) = 32
  decide

theorem totalSize_map_entryOf (is : List ℕ) : totalSize (is.map entryOf) = 32 * is.length := by
  induction is with
  | nil => rfl
  | cons i is ih =>
    rw [List.map_cons, totalSize_cons, ih, entrySize_entryOf, List.length_cons]
    omega

/-- The largest entry that the log admits. -/
def largeEntry : LogEntry :=
  { (default : LogEntry) with clientId := 1, size := 8164, flags := 1, data := List.replicate 8164 0 }

theorem largeEntry_admissible : Admissible largeEntry := by
  have hlen : largeEntry.data.length = 8164 := List.length_replicate
  refine ⟨hlen.symm, ?_⟩
  unfold entrySize
  rw [hlen]
  decide

/-- `cons_log.max_fetch_size` of the configuration. -/
def maxFetchSize : ℕ := 4194304

/-- **Messages that do not fit**, for entries that the log admits: a batch of 513 clients, and one large entry. -/
theorem messages_do_not_fit :
    ((∀ e ∈ manyClients, Admissible e) ∧ totalSize manyClients ≤ maxFetchSize ∧
      ¬ (delOrderedEntriesRequest (manyClients ++ [sentinel (totalSize manyClients)]) (fun _ => 0) 0).Fits) ∧
    Admissible largeEntry ∧ ¬ (fetchResponse ([largeEntry], 1) (fun _ => 0) 0).Fits ∧
      ¬ (readEntryResponse largeEntry fun _ => 0).Fits := by
  have hlen : largeEntry.data.length = 8164 := List.length_replicate
  refine ⟨⟨fun e he => ?_, ?_, ?_⟩, largeEntry_admissible, ?_, ?_⟩
  · obtain ⟨i, -, rfl⟩ := List.mem_map.mp he
    exact ⟨rfl, by rw [entrySize_entryOf]; decide⟩
  · unfold manyClients
    rw [totalSize_map_entryOf, List.length_range]
    decide
  · rw [delOrderedEntriesRequest_fits_iff, length_clients_manyClients]
    decide
  · have hfits := fetchResponse_fits_iff [largeEntry] (fun _ => 0) 0
    refine fun h => absurd (hfits.mp h) ?_
    rw [totalSize_cons]
    unfold entrySize
    rw [hlen]
    decide
  · rw [readEntryResponse_fits_iff, hlen]
    decide

end LazyLog.Service.Messages
