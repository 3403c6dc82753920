import LazyLog.Storage.Corfu
import LazyLog.Client.LazyLogCli

/-! # Appends and reads in the `CORFU` build

`AppendEntryAll` gets an index from the primary and stores the entry on the shard server of the index, in each of
three groups of shard servers. The server writes it to the place of the index in the file of the stripe, where the
places are as long as *this* entry; `ReadEntryHandler` looks for it there as if they were as long as `entry_size_`,
the length of the first entry that the server has been given.

So a read finds its entry if the read begins at the entry and is not too short for it, and no later entry has been
written over it (`Readable`); this is so when all entries of the shard have the same length. That an index has no
entry is never reported: `NaiveReadBackend::ReadEntry` drops the result of the shard client and returns `true`. -/

namespace LazyLog.Service.CorfuReads

open LazyLog.Lib LazyLog.Lib.Bytes LazyLog.Lib.Disk LazyLog.Lib.Run LazyLog.Rpc.Entry
open LazyLog.Storage.ShardServer (Striping oneShard)
open LazyLog.Storage.Corfu
open LazyLog.Client.LazyLogCli (constructLogEntry)
open LazyLog.Lib.Threads (pc_put_self put_put)

/-! ### The shard server -/

/-- `addToEntryCacheAsync`, with no other handler next to it; `fd` is the number that `open` returns. -/
def addToEntryCacheAsync (k : Striping) (v : Server) (buf : Mem) (fd : ℕ) : Server :=
  match v.entriesFdSet (baseIdx k buf) with
  | none => countEntry k (pwriteEntry k (createFile v (baseIdx k buf) fd) buf fd) buf
  | some fd' => countEntry k (pwriteEntry k v buf fd') buf

/-- `AppendEntryHandler`. -/
def appendEntryHandler (k : Striping) (v : Server) (buf : Mem) (fd : ℕ) : Server :=
  let v' := addToEntryCacheAsync k v buf fd
  if k.stripeUnitSize ≤ v'.cacheSizeAtomic (baseIdx k buf) then writeFromCacheToDisk v' (baseIdx k buf) else v'

section Alone

variable {ι : Type*} [DecidableEq ι] {k : Striping} {bufs : ι → Mem} {C : Server → ℕ → Prop} {i : ι}

theorem run_from_write (x : Storage.Corfu.Sys ι) (v : Server) (fd : ℕ) :
    let v' := countEntry k (pwriteEntry k v (bufs i) fd) (bufs i)
    Relation.ReflTransGen (Storage.Corfu.Step k bufs C i) (x.put i v (.write fd))
      (x.put i (if k.stripeUnitSize ≤ v'.cacheSizeAtomic (baseIdx k (bufs i))
        then writeFromCacheToDisk v' (baseIdx k (bufs i)) else v') .responded) := by
  intro v'
  have hwrite : Storage.Corfu.Step k bufs C i (x.put i v (.write fd)) _ := .pwrite (pc_put_self ..)
  have hcount : Storage.Corfu.Step k bufs C i (x.put i (pwriteEntry k v (bufs i) fd) .count) _ :=
    .fetchAdd (pc_put_self ..)
  rw [put_put] at hwrite hcount
  refine .head hwrite (.head hcount ?_)
  by_cases hle : k.stripeUnitSize ≤ v'.cacheSizeAtomic (baseIdx k (bufs i))
  · have hfull : Storage.Corfu.Step k bufs C i (x.put i v' .test) _ := .full (pc_put_self ..) hle
    have hclose : Storage.Corfu.Step k bufs C i (x.put i v' .closing) _ := .close (pc_put_self ..)
    rw [put_put] at hfull hclose
    rw [if_pos hle]
    exact .head hfull (.single hclose)
  · have hdone : Storage.Corfu.Step k bufs C i (x.put i v' .test) _ :=
      .notFull (pc_put_self ..) (Nat.lt_of_not_le hle)
    rw [put_put] at hdone
    rw [if_neg hle]
    exact .single hdone

/-- **A handler by itself** is a run of the handlers next to each other. -/
theorem run_appendEntryHandler {x : Storage.Corfu.Sys ι} {fd : ℕ} (hpc : x.pc i = .start)
    (hC : ∀ v b, v.entriesFdSet b = none → C v b) (hfree : x.shared.files.fds fd = none) :
    Relation.ReflTransGen (Storage.Corfu.Step k bufs C i) x
      (x.put i (appendEntryHandler k x.shared (bufs i) fd) .responded) := by
  unfold appendEntryHandler addToEntryCacheAsync
  cases hfd : x.shared.entriesFdSet (baseIdx k (bufs i)) with
  | none =>
    have hmissed : Storage.Corfu.Step k bufs C i x _ := .missed hpc hfd
    have hcreate : Storage.Corfu.Step k bufs C i (x.put i x.shared .missed) _ :=
      .create (pc_put_self ..) (hC _ _ hfd) hfd hfree
    rw [put_put] at hcreate
    exact .head hmissed (.head hcreate (run_from_write x _ fd))
  | some fd' => exact .head (.found hpc hfd) (run_from_write x _ fd')

end Alone

/-- `sizeof(Status)`. -/
def statusSize : ℕ := 4

/-- The response `Status::NOENT`, and its size. -/
def noent (resp : Mem) : Mem × ℕ := (writeBytes resp 0 (leBytes statusSize 2), statusSize)

/-- What `ReadEntryHandler` reads from the file of a stripe: through the descriptor in `entries_fd_set_` or, if there
is none, from the file, which it opens and closes again; nothing if there is no such file. -/
def preadEntry (v : Server) (base localCacheIdx : ℕ) : Option (List UInt8) :=
  match v.entriesFdSet base with
  | none => (v.files.data (some base)).map fun bytes => readAt bytes (v.entrySize * localCacheIdx) v.entrySize
  | some fd => some (v.files.pread fd v.entrySize (v.entrySize * localCacheIdx))

/-- `ReadEntryHandler`. A read that is too short leaves the rest of the response buffer as it was. -/
def readEntryHandler (k : Striping) (v : Server) (idx : UInt64) (resp : Mem) : Mem × ℕ :=
  let base := k.base idx.toNat
  let localCacheIdx := (idx.toNat - base) / k.shardNum
  match preadEntry v base localCacheIdx with
  | none => noent resp
  | some bs =>
    let buf := writeBytes resp 0 bs
    let d := deserializer default buf 0
    if d.1.flags ≠ 1 then noent buf else (buf, d.2)

/-! ### The client -/

/-- `ShardClient::ReadEntry`, from the response on; `resp` is what was in the client's buffer before. -/
def ShardClient.readEntry (response : Mem × ℕ) (resp : Mem) (e : LogEntry) : Bool × LogEntry :=
  if response.2 ≤ statusSize then (false, e)
  else (true, (deserializer e (writeBytes resp 0 (readBytes response.1 0 response.2)) 0).1)

/-- The buffers for a response, on the server and on the client, with what they have in them. -/
structure Buffers where
  server : Mem
  client : Mem

/-- `NaiveReadBackend::ReadEntry`. The result of the shard client is dropped. -/
def NaiveReadBackend.readEntry (k : Striping) (servers : ℕ → Server) (idx : UInt64) (m : Buffers) (e : LogEntry) :
    Bool × LogEntry :=
  let shardId := idx.toNat % k.shardNum
  let r := ShardClient.readEntry (readEntryHandler k (servers shardId) idx m.server) m.client e
  (true, r.2)

/-- `NaiveReadBackend::AppendBatch`, with the one entry it sends; `req` is what was in the request buffer. -/
def NaiveReadBackend.appendBatch (k : Striping) (servers : ℕ → Server) (e : LogEntry) (req : Mem) (fd : ℕ) :
    ℕ → Server :=
  let shardId := e.logIdx.toNat % k.shardNum
  Function.update servers shardId (appendEntryHandler k (servers shardId) (serializer e req 0).1 fd)

/-- The groups of shard servers: those of `be_rd_cli_`, `be_rd_cli_backup_` and `be_rd_cli_backup_2_`. -/
inductive Group
  | rdCli
  | backup
  | backup2

/-- The shard servers of each group, and the entries that have been appended. -/
structure Sys where
  servers : Group → ℕ → Server
  appended : List LogEntry

/-- `LazyLogClient::AppendEntryAll`, with the entry that has its `log_idx`. -/
def LazyLogClient.appendEntryAll (k : Striping) (s : Sys) (e : LogEntry) (req : Group → Mem) (fd : Group → ℕ) :
    Sys where
  servers g := NaiveReadBackend.appendBatch k (s.servers g) e (req g) (fd g)
  appended := s.appended ++ [e]

/-- `LazyLogClient::ReadEntry`: its result, and `data`. -/
def LazyLogClient.readEntry (k : Striping) (s : Sys) (idx : UInt64) (m : Buffers) : Bool × List UInt8 :=
  let r := NaiveReadBackend.readEntry k (s.servers .rdCli) idx m default
  (r.1, r.2.data)

/-- The servers have been started and nothing has been appended. -/
structure Start (s : Sys) : Prop where
  fdSet : ∀ g sh b, (s.servers g sh).entriesFdSet b = none
  counts : ∀ g sh b, (s.servers g sh).cacheSizeAtomic b = 0
  size : ∀ g sh, (s.servers g sh).entrySize = 0
  appended : s.appended = []

/-- An append: of any payload that `size` can count, with an index that no entry has got from `GetGSN` before. -/
inductive Step (k : Striping) : Sys → Sys → Prop
  | appendEntryAll {s : Sys} (clientId : UInt64) (seq : ℕ) (data : List UInt8) (gsn : UInt64) (req : Group → Mem)
    (fd : Group → ℕ) (hsize : (constructLogEntry clientId seq data).Sized)
    (hgsn : ∀ e ∈ s.appended, e.logIdx ≠ gsn)
    (hfree : ∀ g, (s.servers g (gsn.toNat % k.shardNum)).files.fds (fd g) = none) :
    Step k s
      (LazyLogClient.appendEntryAll k s { constructLogEntry clientId seq data with logIdx := gsn } req fd)

/-- **A read is right**: it returns the payload that was appended under the index, and `false` if there is none. -/
structure ReadsRight (k : Striping) (s : Sys) (idx : UInt64) (m : Buffers) : Prop where
  present : ∀ e ∈ s.appended, e.logIdx = idx → LazyLogClient.readEntry k s idx m = (true, e.data)
  absent : (∀ e ∈ s.appended, e.logIdx ≠ idx) → (LazyLogClient.readEntry k s idx m).1 = false

/-! ### Entries in files -/

/-- The entries that go to one file: those of a stripe on a shard. -/
def fileEntries (k : Striping) (sh b : ℕ) (es : List LogEntry) : List LogEntry :=
  es.filter fun e => e.logIdx.toNat % k.shardNum = sh ∧ stripe k e = b

/-- The length of the first entry of a shard, zero if there is none. -/
def firstSize (k : Striping) (sh : ℕ) (es : List LogEntry) : ℕ :=
  ((es.find? fun e => e.logIdx.toNat % k.shardNum = sh).map entrySize).getD 0

/-- Where an entry begins in its file. -/
def startOf (k : Striping) (e : LogEntry) : ℕ := entrySize e * place k e

/-- Two entries of a file do not overlap. -/
def Apart (k : Striping) (e e' : LogEntry) : Prop :=
  startOf k e + entrySize e ≤ startOf k e' ∨ startOf k e' + entrySize e' ≤ startOf k e

/-- The entry is in the list, and none after it overlaps it. -/
def Kept (k : Striping) (es : List LogEntry) (e : LogEntry) : Prop :=
  ∃ l₁ l₂, es = l₁ ++ e :: l₂ ∧ ∀ e' ∈ l₂, Apart k e e'

/-- **An entry can be read**: what the server reads for its index begins at the entry and covers it, and nothing has
been written over it. -/
structure Readable (k : Striping) (es : List LogEntry) (e : LogEntry) : Prop where
  start : firstSize k (e.logIdx.toNat % k.shardNum) es * place k e = startOf k e
  covers : entrySize e ≤ firstSize k (e.logIdx.toNat % k.shardNum) es
  kept : Kept k (fileEntries k (e.logIdx.toNat % k.shardNum) (stripe k e) es) e

variable {k : Striping} {s s' : Sys} {v v' : Server} {es : List LogEntry} {e e' : LogEntry} {buf resp : Mem}
  {sh b fd : ℕ} {bytes : List UInt8}

theorem mem_fileEntries : e ∈ fileEntries k sh b es ↔
    e ∈ es ∧ e.logIdx.toNat % k.shardNum = sh ∧ stripe k e = b := by
  unfold fileEntries
  rw [List.mem_filter, decide_eq_true_iff]

theorem fileEntries_append (k : Striping) (e : LogEntry) (es : List LogEntry) :
    fileEntries k (e.logIdx.toNat % k.shardNum) (stripe k e) (es ++ [e]) =
      fileEntries k (e.logIdx.toNat % k.shardNum) (stripe k e) es ++ [e] := by
  unfold fileEntries
  rw [List.filter_append, List.filter_singleton]
  simp

theorem fileEntries_append_of_ne (h : ¬(e.logIdx.toNat % k.shardNum = sh ∧ stripe k e = b)) :
    fileEntries k sh b (es ++ [e]) = fileEntries k sh b es := by
  unfold fileEntries
  rw [List.filter_append, List.filter_singleton, decide_eq_false h]
  exact List.append_nil _

theorem firstSize_append (k : Striping) (e : LogEntry) (es : List LogEntry) :
    firstSize k (e.logIdx.toNat % k.shardNum) (es ++ [e]) =
      if firstSize k (e.logIdx.toNat % k.shardNum) es = 0 then entrySize e
      else firstSize k (e.logIdx.toNat % k.shardNum) es := by
  unfold firstSize
  rw [List.find?_append]
  cases hf : es.find? fun x => x.logIdx.toNat % k.shardNum = e.logIdx.toNat % k.shardNum with
  | none => simp
  | some f => simp [(entrySize_pos f).ne']

theorem firstSize_append_of_ne (h : e.logIdx.toNat % k.shardNum ≠ sh) :
    firstSize k sh (es ++ [e]) = firstSize k sh es := by
  unfold firstSize
  rw [List.find?_append, List.find?_singleton, decide_eq_false h]
  simp

theorem not_kept_nil : ¬ Kept k [] e := by
  rintro ⟨l₁, l₂, heq, -⟩
  simp at heq

theorem Kept.append (h : Kept k (es ++ [e']) e) : e = e' ∨ Kept k es e ∧ Apart k e e' := by
  obtain ⟨l₁, l₂, heq, hall⟩ := h
  rcases List.eq_nil_or_concat l₂ with rfl | ⟨l, x, rfl⟩
  · exact Or.inl (List.append_inj_right' heq rfl |> List.singleton_inj.mp).symm
  · rw [List.concat_eq_append, ← List.cons_append, ← List.append_assoc] at heq
    obtain ⟨hes, hx⟩ := List.append_inj' heq rfl
    cases hx
    refine Or.inr ⟨⟨l₁, l, hes, fun y hy => hall y ?_⟩, hall e' ?_⟩
    · simp [hy]
    · simp

/-- A file has room for the entries that go to it, since their places differ. -/
theorem length_fileEntries_le (k : Striping) (sh b : ℕ) (h : (es.map LogEntry.logIdx).Nodup) :
    (fileEntries k sh b es).length ≤ k.stripeUnitSize := by
  have hnd : ((fileEntries k sh b es).map (place k)).Nodup := by
    refine List.Nodup.map_on (fun x hx y hy hp => ?_) (h.of_map.filter _)
    obtain ⟨hx, hxs, hxb⟩ := mem_fileEntries.mp hx
    obtain ⟨hy, hys, hyb⟩ := mem_fileEntries.mp hy
    exact List.inj_on_of_nodup_map h hx hy (logIdx_eq_of_place (hxs.trans hys.symm) (hxb.trans hyb.symm) hp)
  have hsub : (fileEntries k sh b es).map (place k) ⊆ List.range k.stripeUnitSize := by
    intro p hp
    obtain ⟨x, -, rfl⟩ := List.mem_map.mp hp
    exact List.mem_range.mpr (place_lt k x)
  have hle := (List.subperm_of_subset hnd hsub).length_le
  rwa [List.length_map, List.length_range] at hle

/-- **Entries of one length can be read**, if they have different indices. -/
theorem readable_of_sameSize (hnd : (es.map LogEntry.logIdx).Nodup) (he : e ∈ es)
    (hsize : ∀ e' ∈ es, e'.logIdx.toNat % k.shardNum = e.logIdx.toNat % k.shardNum → entrySize e' = entrySize e) :
    Readable k es e := by
  have hfirst : firstSize k (e.logIdx.toNat % k.shardNum) es = entrySize e := by
    unfold firstSize
    cases hf : es.find? fun x => x.logIdx.toNat % k.shardNum = e.logIdx.toNat % k.shardNum with
    | none => simpa using List.find?_eq_none.mp hf e he
    | some f => exact hsize f (List.mem_of_find?_eq_some hf) (by simpa using List.find?_some hf)
  refine ⟨by rw [hfirst]; rfl, hfirst.ge, ?_⟩
  obtain ⟨l₁, l₂, rfl⟩ := List.append_of_mem he
  have hmem : ∀ e' ∈ l₂, e' ∈ l₁ ++ e :: l₂ := fun e' he' => by simp [he']
  refine ⟨fileEntries k (e.logIdx.toNat % k.shardNum) (stripe k e) l₁,
    fileEntries k (e.logIdx.toNat % k.shardNum) (stripe k e) l₂, ?_, fun e' he' => ?_⟩
  · unfold fileEntries
    rw [List.filter_append, List.filter_cons, if_pos (by simp)]
  · obtain ⟨he', hsh, hb⟩ := mem_fileEntries.mp he'
    have hne : place k e ≠ place k e' := by
      intro hp
      have hidx := logIdx_eq_of_place hsh.symm hb.symm hp
      rw [List.map_append, List.map_cons, List.nodup_append] at hnd
      have hnot := (List.nodup_cons.mp hnd.2.1).1
      rw [hidx] at hnot
      exact hnot (List.mem_map_of_mem he')
    unfold Apart startOf
    rw [hsize e' (hmem e' he') hsh]
    exact disjoint_places hne _

/-! ### The file of a stripe -/

/-- The entry is in the file. -/
structure Stored (k : Striping) (e : LogEntry) (bytes : List UInt8) : Prop where
  le : startOf k e + entrySize e ≤ bytes.length
  holds : Holds (fun x => bytes.getD x 0) (startOf k e) (encode e)

/-- The file of the stripe has every entry that nothing has been written over. -/
def StoresKept (k : Striping) (es : List LogEntry) (v : Server) (b : ℕ) : Prop :=
  ∃ bytes, v.files.data (some b) = some bytes ∧ ∀ e, Kept k es e → Stored k e bytes

/-- The file of the stripe is open and has the entries `es`. -/
structure Opened (k : Striping) (es : List LogEntry) (v : Server) (b fd : ℕ) : Prop where
  fdSet : v.entriesFdSet b = some fd
  desc : ∃ offset, v.files.fds fd = some ⟨some b, true, offset⟩
  count : v.cacheSizeAtomic b = es.length
  stores : StoresKept k es v b

/-- **The phases of a stripe** with the entries `es`: nothing has been written; its file is open, and not full; its
file is full, and closed. -/
inductive Phase (k : Striping) (es : List LogEntry) (v : Server) (b : ℕ) : Prop
  | fresh (hes : es = []) (hfd : v.entriesFdSet b = none)
  | opened {fd : ℕ} (h : Opened k es v b fd) (hlt : es.length < k.stripeUnitSize)
  | closed (hfd : v.entriesFdSet b = none) (hlen : es.length = k.stripeUnitSize) (hstores : StoresKept k es v b)

theorem StoresKept.frame (h : StoresKept k es v b) (hv : SameOn v v' b) : StoresKept k es v' b := by
  obtain ⟨bytes, hdata, hall⟩ := h
  exact ⟨bytes, hv.data.trans hdata, hall⟩

/-- **Frame.** An append to another file leaves the phase of a stripe. -/
theorem Phase.frame (h : Phase k es v b) (hv : SameOn v v' b) : Phase k es v' b := by
  rcases h with ⟨hes, hfd⟩ | ⟨⟨hfd, ⟨offset, hdesc⟩, hcount, hstores⟩, hlt⟩ | ⟨hfd, hlen, hstores⟩
  · exact .fresh hes (hv.fdSet.trans hfd)
  · have hdesc' := (hv.desc _ _ hdesc).trans hdesc
    exact .opened ⟨hv.fdSet.trans hfd, ⟨offset, hdesc'⟩, hv.count.trans hcount, hstores.frame hv⟩ hlt
  · exact .closed (hv.fdSet.trans hfd) hlen (hstores.frame hv)

theorem opened_createFile (k : Striping) (v : Server) (b fd : ℕ) : Opened k [] (createFile v b fd) b fd where
  fdSet := Function.update_self ..
  desc := ⟨0, Function.update_self ..⟩
  count := Function.update_self ..
  stores := ⟨[], Function.update_self .., fun _ h => absurd h not_kept_nil⟩

/-- **The write** stores its entry, and leaves those that it does not overlap. -/
theorem Stored.overwrite (hbuf : Holds buf 0 (encode e')) (hkept : Kept k (es ++ [e']) e)
    (hall : ∀ e, Kept k es e → Stored k e bytes) :
    Stored k e (overwrite bytes (startOf k e') (readBytes buf 0 (entrySize e'))) := by
  rcases hkept.append with rfl | ⟨hold, hapart⟩
  · constructor
    · rw [length_overwrite, length_readBytes]
      exact le_max_right _ _
    · exact (holds_overwrite _ _ _).of_readBytes hbuf (length_encode_le e)
  · obtain ⟨hle, hholds⟩ := hall e hold
    constructor
    · rw [length_overwrite]
      exact hle.trans (le_max_left _ _)
    · refine holds_overwrite_of_disjoint hholds ?_
      have hlen := length_encode_le e
      unfold Apart at hapart
      rw [length_readBytes]
      omega

section Append

variable (hd : deserializer default buf 0 = (e, entrySize e))
include hd

theorem Opened.append (h : Opened k es v (stripe k e) fd) (hbuf : Holds buf 0 (encode e)) :
    Opened k (es ++ [e]) (countEntry k (pwriteEntry k v buf fd) buf) (stripe k e) fd := by
  obtain ⟨hfd, ⟨offset, hdesc⟩, hcount, ⟨bytes, hdata, hall⟩⟩ := h
  have hv := files_pwriteEntry (k := k) hd hdesc hdata
  refine ⟨hfd, ⟨offset, ?_⟩, ?_, ⟨_, ?_, fun e' hkept => Stored.overwrite hbuf hkept hall⟩⟩
  · unfold countEntry
    rw [hv]
    exact hdesc
  · unfold countEntry
    rw [baseIdx_eq hd, List.length_append, ← hcount]
    exact Function.update_self ..
  · unfold countEntry
    rw [hv]
    exact Function.update_self ..

theorem Opened.sameOn_append (h : Opened k es v (stripe k e) fd) (hb : b ≠ stripe k e) :
    SameOn v (countEntry k (pwriteEntry k v buf fd) buf) b := by
  obtain ⟨-, ⟨offset, hdesc⟩, -, ⟨bytes, hdata, -⟩⟩ := h
  exact (sameOn_pwriteEntry hb hd hdesc hdata).trans (sameOn_countEntry hb (baseIdx_eq hd))

/-- **`addToEntryCacheAsync`** of a stripe that is not full. -/
theorem Phase.addToEntryCacheAsync (h : Phase k es v (stripe k e)) (hbuf : Holds buf 0 (encode e))
    (hlt : es.length < k.stripeUnitSize) (hfree : v.files.fds fd = none) :
    (∃ fd', Opened k (es ++ [e]) (addToEntryCacheAsync k v buf fd) (stripe k e) fd') ∧
      ∀ b, b ≠ stripe k e → SameOn v (addToEntryCacheAsync k v buf fd) b := by
  unfold CorfuReads.addToEntryCacheAsync
  rw [baseIdx_eq hd]
  rcases h with ⟨rfl, hnone⟩ | ⟨ho, -⟩ | ⟨-, hlen, -⟩
  · have ho := opened_createFile k v (stripe k e) fd
    rw [hnone]
    refine ⟨⟨fd, ho.append hd hbuf⟩, fun b hb => ?_⟩
    exact (sameOn_createFile hb hfree).trans (ho.sameOn_append hd hb)
  · rw [ho.fdSet]
    exact ⟨⟨_, ho.append hd hbuf⟩, fun b hb => ho.sameOn_append hd hb⟩
  · exact absurd hlt (by omega)

/-- **`AppendEntryHandler`** of a stripe that is not full. -/
theorem Phase.appendEntryHandler (h : Phase k es v (stripe k e)) (hbuf : Holds buf 0 (encode e))
    (hlt : es.length < k.stripeUnitSize) (hfree : v.files.fds fd = none) :
    Phase k (es ++ [e]) (appendEntryHandler k v buf fd) (stripe k e) ∧
      ∀ b, b ≠ stripe k e → SameOn v (appendEntryHandler k v buf fd) b := by
  obtain ⟨⟨fd', ho⟩, hsame⟩ := h.addToEntryCacheAsync hd hbuf hlt hfree
  unfold CorfuReads.appendEntryHandler
  rw [baseIdx_eq hd]
  dsimp only
  have hlen : (es ++ [e]).length = es.length + 1 := List.length_append
  split_ifs with hle
  · -- the stripe is full
    obtain ⟨hfd, ⟨offset, hdesc⟩, hcount, hstores⟩ := ho
    refine ⟨.closed ?_ (by omega) ?_, fun b hb => ?_⟩
    · rw [writeFromCacheToDisk_eq hfd]
      exact Function.update_self ..
    · rw [writeFromCacheToDisk_eq hfd]
      exact hstores
    · exact (hsame b hb).trans (sameOn_writeFromCacheToDisk hb hfd hdesc)
  · have hcount := ho.count
    exact ⟨.opened ho (by omega), hsame⟩

theorem entrySize_appendEntryHandler (k : Striping) (v : Server) (fd : ℕ) :
    (appendEntryHandler k v buf fd).entrySize = if v.entrySize = 0 then entrySize e else v.entrySize := by
  have hadd : (CorfuReads.addToEntryCacheAsync k v buf fd).entrySize =
      if v.entrySize = 0 then entrySize e else v.entrySize := by
    unfold CorfuReads.addToEntryCacheAsync
    split <;> simp only [countEntry, pwriteEntry, createFile, hd]
  rw [← hadd]
  unfold CorfuReads.appendEntryHandler writeFromCacheToDisk
  dsimp only
  split_ifs
  · split <;> rfl
  · rfl

end Append

/-! ### Runs -/

theorem servers_appendEntryAll (k : Striping) (s : Sys) (e : LogEntry) (req : Group → Mem) (fd : Group → ℕ)
    (g : Group) : (LazyLogClient.appendEntryAll k s e req fd).servers g (e.logIdx.toNat % k.shardNum) =
      appendEntryHandler k (s.servers g (e.logIdx.toNat % k.shardNum)) (serializer e (req g) 0).1 (fd g) :=
  Function.update_self ..

theorem servers_appendEntryAll_of_ne (hsh : sh ≠ e.logIdx.toNat % k.shardNum) (s : Sys) (req : Group → Mem)
    (fd : Group → ℕ) (g : Group) : (LazyLogClient.appendEntryAll k s e req fd).servers g sh = s.servers g sh :=
  Function.update_of_ne hsh _ _

/-- **The invariant.** -/
structure Inv (k : Striping) (s : Sys) : Prop where
  entries : ∀ e ∈ s.appended, e.Sized ∧ e.flags = 1
  distinct : (s.appended.map LogEntry.logIdx).Nodup
  size : ∀ g sh, (s.servers g sh).entrySize = firstSize k sh s.appended
  phase : ∀ g sh b, Phase k (fileEntries k sh b s.appended) (s.servers g sh) b

theorem inv_of_start (h : Start s) : Inv k s := by
  obtain ⟨hfd, -, hsize, happ⟩ := h
  constructor
  · rw [happ]
    exact fun _ he => absurd he List.not_mem_nil
  · rw [happ]
    exact List.nodup_nil
  · intro g sh
    rw [hsize, happ]
    rfl
  · intro g sh b
    rw [happ]
    exact .fresh rfl (hfd g sh b)

/-- **One append** keeps the invariant. -/
theorem Inv.appendEntryAll (h : Inv k s) (hs : e.Sized) (hf : e.flags = 1)
    (hidx : ∀ x ∈ s.appended, x.logIdx ≠ e.logIdx) (req : Group → Mem) {fd : Group → ℕ}
    (hfree : ∀ g, (s.servers g (e.logIdx.toNat % k.shardNum)).files.fds (fd g) = none) :
    Inv k (LazyLogClient.appendEntryAll k s e req fd) := by
  have hnd : ((s.appended ++ [e]).map LogEntry.logIdx).Nodup := by
    rw [List.map_append, List.map_singleton, ← List.concat_eq_append]
    refine h.distinct.concat fun hmem => ?_
    obtain ⟨x, hx, heq⟩ := List.mem_map.mp hmem
    exact hidx x hx heq
  have hroom := length_fileEntries_le k (e.logIdx.toNat % k.shardNum) (stripe k e) hnd
  rw [fileEntries_append, List.length_append] at hroom
  have hbuf : ∀ g, Holds (serializer e (req g) 0).1 0 (encode e) := by
    intro g
    rw [serializer_eq]
    exact holds_writeBytes _ _ _
  have hd : ∀ g, deserializer default (serializer e (req g) 0).1 0 = (e, entrySize e) := by
    intro g
    exact deserializer_of_holds default (hbuf g) hs (by rw [hf]; decide)
  have hphase := fun g => (h.phase g _ _).appendEntryHandler (hd g) (hbuf g) hroom (hfree g)
  refine ⟨List.forall_mem_append.mpr ⟨h.entries, List.forall_mem_singleton.mpr ⟨hs, hf⟩⟩, hnd, fun g sh => ?_,
    fun g sh b => ?_⟩
  · show _ = firstSize k sh (s.appended ++ [e])
    by_cases hsh : sh = e.logIdx.toNat % k.shardNum
    · subst hsh
      rw [servers_appendEntryAll, entrySize_appendEntryHandler (hd g), firstSize_append, h.size]
    · rw [servers_appendEntryAll_of_ne hsh, firstSize_append_of_ne (Ne.symm hsh), h.size]
  · show Phase k (fileEntries k sh b (s.appended ++ [e])) _ b
    by_cases hsh : sh = e.logIdx.toNat % k.shardNum
    · subst hsh
      rw [servers_appendEntryAll]
      by_cases hb : b = stripe k e
      · subst hb
        rw [fileEntries_append]
        exact (hphase g).1
      · rw [fileEntries_append_of_ne fun heq => hb heq.2.symm]
        exact (h.phase g _ b).frame ((hphase g).2 b hb)
    · rw [servers_appendEntryAll_of_ne hsh, fileEntries_append_of_ne fun heq => hsh heq.1.symm]
      exact h.phase g sh b

theorem inv_of_reach (h : Reach Start (Step k) s) : Inv k s := by
  refine Reach.invariant (P := fun s => Inv k s) (fun _ hs => inv_of_start hs) ?_ h
  rintro s s' - hinv ⟨clientId, seq, data, gsn, req, fd, hsize, hgsn, hfree⟩
  exact hinv.appendEntryAll (e := { constructLogEntry clientId seq data with logIdx := gsn }) hsize rfl hgsn req hfree

/-! ### Reads -/

/-- The file is read in the same way whether it is open or closed. -/
theorem Phase.preadEntry (h : Phase k es v b) (hkept : Kept k es e) (p : ℕ) :
    ∃ bytes, Stored k e bytes ∧ preadEntry v b p = some (readAt bytes (v.entrySize * p) v.entrySize) := by
  unfold CorfuReads.preadEntry
  rcases h with ⟨rfl, -⟩ | ⟨⟨hfd, ⟨offset, hdesc⟩, -, ⟨bytes, hdata, hall⟩⟩, -⟩ | ⟨hfd, -, ⟨bytes, hdata, hall⟩⟩
  · exact absurd hkept not_kept_nil
  · refine ⟨bytes, hall e hkept, ?_⟩
    rw [hfd]
    exact congrArg some (Files.pread_eq hdesc hdata _ _)
  · refine ⟨bytes, hall e hkept, ?_⟩
    rw [hfd]
    simp only [hdata, Option.map_some]

/-- The handler responds with an entry that is kept, if it reads enough bytes from where the entry begins. -/
theorem Phase.readEntryHandler (h : Phase k es v (stripe k e)) (hkept : Kept k es e) (hs : e.Sized)
    (hf : e.flags = 1) (hstart : v.entrySize * place k e = startOf k e) (hle : entrySize e ≤ v.entrySize)
    (resp : Mem) :
    ∃ buf, readEntryHandler k v e.logIdx resp = (buf, entrySize e) ∧ Holds buf 0 (encode e) := by
  obtain ⟨bytes, hst, hread⟩ := h.preadEntry hkept (place k e)
  have hlen := length_encode_le e
  have hbuf : Holds (writeBytes resp 0 (readAt bytes (v.entrySize * place k e) v.entrySize)) 0 (encode e) := by
    rw [hstart]
    have hin := hst.le
    exact holds_readAt hst.holds (by omega) (by omega) resp
  refine ⟨_, ?_, hbuf⟩
  unfold CorfuReads.readEntryHandler
  unfold stripe at hread
  dsimp only
  rw [← place, hread]
  dsimp only
  rw [deserializer_of_holds default hbuf hs (by rw [hf]; decide)]
  exact if_neg (not_not.mpr hf)

theorem ShardClient.readEntry_of_holds {m : Mem} (hbuf : Holds buf 0 (encode e)) (hs : e.Sized) (hf : e.flags ≠ 0)
    (e₀ : LogEntry) : ShardClient.readEntry (buf, entrySize e) m e₀ = (true, e) := by
  have hcopy : Holds (writeBytes m 0 (readBytes buf 0 (entrySize e))) 0 (encode e) :=
    (holds_writeBytes _ _ _).of_readBytes hbuf (length_encode_le e)
  have hsize : ¬ entrySize e ≤ statusSize := by
    have := metaDataSize_le_entrySize e
    unfold metaDataSize flagPos at this
    unfold statusSize
    omega
  unfold ShardClient.readEntry
  rw [if_neg hsize, deserializer_of_holds e₀ hcopy hs hf]

/-- **An entry that can be read is read**, from any of the groups. -/
theorem Inv.readEntry (h : Inv k s) (he : e ∈ s.appended) (hr : Readable k s.appended e) (g : Group) (m : Buffers)
    (e₀ : LogEntry) : NaiveReadBackend.readEntry k (s.servers g) e.logIdx m e₀ = (true, e) := by
  obtain ⟨hs, hf⟩ := h.entries e he
  have hsize := h.size g (e.logIdx.toNat % k.shardNum)
  obtain ⟨hstart, hle, hkept⟩ := hr
  rw [← hsize] at hstart hle
  obtain ⟨buf, heq, hbuf⟩ := (h.phase g _ _).readEntryHandler hkept hs hf hstart hle m.server
  unfold NaiveReadBackend.readEntry
  dsimp only
  rw [heq, ShardClient.readEntry_of_holds hbuf hs (by rw [hf]; decide)]

theorem Inv.eq_of_logIdx (h : Inv k s) (he : e ∈ s.appended) (he' : e' ∈ s.appended) (heq : e.logIdx = e'.logIdx) :
    e = e' :=
  List.inj_on_of_nodup_map h.distinct he he' heq

/-- **A read of the `CORFU` build is right if an entry has been appended under the index that can be read**, and it
is never right if none has been appended: the client does not learn that there is none. -/
theorem corfu_read_right (h : Reach Start (Step k) s) (idx : UInt64) (m : Buffers) :
    ((∃ e ∈ s.appended, e.logIdx = idx ∧ Readable k s.appended e) → ReadsRight k s idx m) ∧
      (ReadsRight k s idx m → ∃ e ∈ s.appended, e.logIdx = idx) := by
  have hinv := inv_of_reach h
  constructor
  · rintro ⟨e, he, rfl, hr⟩
    constructor
    · intro e' he' heq
      rw [hinv.eq_of_logIdx he' he heq]
      unfold LazyLogClient.readEntry
      rw [hinv.readEntry he hr .rdCli m default]
    · exact fun hnone => absurd rfl (hnone e he)
  · intro hright
    by_contra hnone
    have hfalse := hright.absent fun e he heq => hnone ⟨e, he, heq⟩
    cases hfalse

/-- A descriptor that is not open stays so, but for the one that `open` returns. -/
theorem fds_appendEntryHandler {fd' : ℕ} (hne : fd' ≠ fd) (h : v.files.fds fd' = none) :
    (appendEntryHandler k v buf fd).files.fds fd' = none := by
  have hadd : (CorfuReads.addToEntryCacheAsync k v buf fd).files.fds fd' = none := by
    unfold CorfuReads.addToEntryCacheAsync
    split
    · simp only [countEntry, pwriteEntry, Files.fds_pwrite]
      exact (Function.update_of_ne hne _ _).trans h
    · simp only [countEntry, pwriteEntry, Files.fds_pwrite]
      exact h
  unfold CorfuReads.appendEntryHandler
  dsimp only
  split_ifs
  · unfold writeFromCacheToDisk
    split
    · exact hadd
    · next fd₀ _ =>
      by_cases hfd : fd' = fd₀
      · subst hfd
        exact Function.update_self ..
      · exact (Function.update_of_ne hfd _ _).trans hadd
  · exact hadd

/-- The servers, started with no files. -/
def empty : Sys where
  servers _ _ := ⟨fun _ => none, fun _ => 0, 0, ⟨fun _ => none, fun _ => none⟩⟩
  appended := []

/-- The system after an append under the index 0 and one under the index 1, from zeroed buffers. -/
def twoAppends (data₀ data₁ : List UInt8) : Sys :=
  LazyLogClient.appendEntryAll oneShard
    (LazyLogClient.appendEntryAll oneShard empty { constructLogEntry 7 1 data₀ with logIdx := 0 } (fun _ _ => 0)
      fun _ => 3)
    { constructLogEntry 7 2 data₁ with logIdx := 1 } (fun _ _ => 0) fun _ => 4

theorem reach_twoAppends {data₀ data₁ : List UInt8} (h₀ : data₀.length < 2 ^ 32) (h₁ : data₁.length < 2 ^ 32) :
    Reach Start (Step oneShard) (twoAppends data₀ data₁) := by
  have hempty : Reach Start (Step oneShard) empty :=
    .start ⟨fun _ _ _ => rfl, fun _ _ _ => rfl, fun _ _ => rfl, rfl⟩
  have hsize : ∀ {seq : ℕ} {data : List UInt8}, data.length < 2 ^ 32 → (constructLogEntry 7 seq data).Sized :=
    fun hlt => Nat.mod_eq_of_lt hlt
  refine (hempty.next (.appendEntryAll 7 1 data₀ 0 _ _ (hsize h₀) ?_ ?_)).next
    (.appendEntryAll 7 2 data₁ 1 _ _ (hsize h₁) ?_ ?_)
  · exact fun _ he => absurd he List.not_mem_nil
  · exact fun _ => rfl
  · intro e he
    cases List.mem_singleton.mp he
    exact (by decide : (0 : UInt64) ≠ 1)
  · intro g
    have hserver : ((LazyLogClient.appendEntryAll oneShard empty _ (fun _ _ => 0) fun _ => 3).servers g 0) = _ :=
      servers_appendEntryAll oneShard empty { constructLogEntry 7 1 data₀ with logIdx := 0 } _ _ g
    refine (congrArg (fun v => v.files.fds 4) hserver).trans ?_
    exact fds_appendEntryHandler (by decide) rfl

/-- Two entries of one length, and a read of the second. -/
theorem corfu_read_right_two : ∃ s, Reach Start (Step oneShard) s ∧
    ReadsRight oneShard s 1 ⟨fun _ => 0, fun _ => 0⟩ := by
  refine ⟨twoAppends [1] [2], reach_twoAppends (by decide) (by decide), ?_⟩
  refine (corfu_read_right (reach_twoAppends (by decide) (by decide)) 1 _).1 ?_
  refine ⟨{ constructLogEntry 7 2 [2] with logIdx := 1 }, by decide, rfl, ?_⟩
  exact readable_of_sameSize (by decide) (by decide) (by decide)

/-- **Two reads that are not right.** The first entry has 32 bytes and the second 36, so the second is at 36 and is
looked for at 32: what is there has the flag of an entry, and no data. The index 7, which has not been appended, is
read as well. -/
theorem corfu_read_wrong : Reach Start (Step oneShard) (twoAppends [] [1]) ∧
    ¬ ReadsRight oneShard (twoAppends [] [1]) 1 ⟨fun _ => 0, fun _ => 0⟩ ∧
    ¬ ReadsRight oneShard (twoAppends [] [1]) 7 ⟨fun _ => 0, fun _ => 0⟩ := by
  refine ⟨reach_twoAppends (by decide) (by decide), fun h => ?_, fun h => ?_⟩
  · have hread := h.present { constructLogEntry 7 2 [1] with logIdx := 1 } (by decide) rfl
    exact absurd hread (by decide +kernel)
  · have hread := h.absent (by decide)
    cases hread

end LazyLog.Service.CorfuReads
