import LazyLog.Lib.Run
import LazyLog.Lib.Tiling
import LazyLog.Rpc.Offsets
import LazyLog.Storage.Replication

/-! # A shard server without a cache (`cons_log/storage/shard_server_wo_opt`)

`ShardServerUnoptimized` keeps the offsets of the entries in their data files instead of the entries, and reads
from disk. It does to its files what `ShardServer` does (`Server.asCached`), so that what is known of the latter,
`Stores`, holds of its files as well; `Keeps` adds that the offsets, sizes and counts are those of the stripes.

Fed with the same requests, the two servers answer reads alike. -/

namespace LazyLog.Storage.Unoptimized

open LazyLog.Lib.Bytes LazyLog.Lib.Disk LazyLog.Lib.Stride LazyLog.Lib.Run LazyLog.Lib.Tiling
open LazyLog.Rpc.Entry LazyLog.Rpc.Multi LazyLog.Rpc.Offsets
open LazyLog.Storage.ShardServer (Striping Opens Encodes Backed Stores present present_of_ne present_update
  requestBase oneShard)
open LazyLog.Storage.NaiveBackend LazyLog.Storage.Replication

/-! ### The server -/

/-- The static fields of `ShardServerUnoptimized`, and the data files. `cache_size_` and `num_entries_` are read
with `operator[]` only, which gives zero for a stripe that is not there. -/
structure Server where
  gsnToFileOffsetMap : ℕ → Option OffsetMap
  entriesFdSet : ℕ → Option ℕ
  cacheSize : ℕ → ℕ
  numEntries : ℕ → ℕ
  replicatedIndex : UInt64
  files : Files ℕ

/-- A server that has just been started, on an empty folder and with the default index. -/
def Server.empty : Server where
  gsnToFileOffsetMap _ := none
  entriesFdSet _ := none
  cacheSize _ := 0
  numEntries _ := 0
  replicatedIndex := 0
  files := ⟨fun _ => none, fun _ => none⟩

/-- `loadFromDiskToCache`, and whether it returns zero. -/
def loadFromDiskToCache (k : Striping) (w : Server) (base rd : ℕ) : Server × Bool :=
  match w.files.data base with
  | none => (w, false)
  | some bytes =>
    let w := { w with files := w.files.openRead base rd }
    if bytes = [] then (w, false)
    else
      let r := processAndBuildMapSize ∅ (fun i => bytes.getD i 0) 0 bytes.length 0
      let w := { w with
        gsnToFileOffsetMap := Function.update w.gsnToFileOffsetMap base (some r.1)
        cacheSize := Function.update w.cacheSize base r.2.1
        numEntries := Function.update w.numEntries base (w.numEntries base + r.2.2) }
      if k.stripeUnitSize ≤ bytes.length then ({ w with files := w.files.close rd }, true) else (w, true)

/-- The first part of `processEntriesAndBuildMap`: the stripe is there, and `fd` is the descriptor to write to. -/
def openStripe (k : Striping) (w : Server) (base : ℕ) (o : Opens) : Server × Option ℕ :=
  match w.gsnToFileOffsetMap base with
  | some _ =>
    let fd := (w.entriesFdSet base).getD 0
    ({ w with entriesFdSet := Function.update w.entriesFdSet base (some fd) }, some fd)
  | none =>
    match loadFromDiskToCache k w base o.rd with
    | (w, true) => (w, some 0)
    | (w, false) =>
      let w := { w with
        gsnToFileOffsetMap := Function.update w.gsnToFileOffsetMap base (some ∅)
        cacheSize := Function.update w.cacheSize base 0
        numEntries := Function.update w.numEntries base 0 }
      match o.wr with
      | none => (w, none)
      | some fd =>
        ({ w with
          files := w.files.create base fd
          entriesFdSet := Function.update w.entriesFdSet base (some fd) }, some fd)

/-- The offsets of a request are added to the map and its bytes to the file. -/
def addOffsetsOf (w : Server) (base fd : ℕ) (buf : Mem) : Server :=
  let r := processAndBuildMap ((w.gsnToFileOffsetMap base).getD ∅) buf 0 (w.cacheSize base)
  let batchLen := r.2 - 4
  { w with
    gsnToFileOffsetMap := Function.update w.gsnToFileOffsetMap base (some r.1)
    cacheSize := Function.update w.cacheSize base (w.cacheSize base + batchLen)
    numEntries := Function.update w.numEntries base (w.numEntries base + load buf 0 4)
    files := w.files.write fd (readBytes buf 4 batchLen) }

/-- `processEntriesAndBuildMap`. -/
def processEntriesAndBuildMap (k : Striping) (w : Server) (base : ℕ) (buf : Mem) (o : Opens) : Server :=
  match openStripe k w base o with
  | (w, none) => w
  | (w, some fd) => addOffsetsOf w base fd buf

/-- `writeFromCacheToDisk`. -/
def writeFromCacheToDisk (w : Server) (base : ℕ) : Server :=
  match w.entriesFdSet base with
  | none => w
  | some fd => { w with files := w.files.close fd }

/-- What `AppendBatchHandler` does under the write lock, and `ReplicateBatchHandler` on a backup. -/
def storeBatch (k : Striping) (w : Server) (base : ℕ) (buf : Mem) (o : Opens) : Server :=
  let w := processEntriesAndBuildMap k w base buf o
  if k.stripeUnitSize ≤ w.numEntries base then writeFromCacheToDisk w base else w

/-- The end of `AppendBatchHandler`: the last key of the map. -/
def setReplicatedIndex (w : Server) (base : ℕ) : Server :=
  { w with replicatedIndex := ((w.gsnToFileOffsetMap base).getD ∅).maxKey?.getD 0 }

/-- `readEntryFromDisk`: the buffer after it, and the number of bytes read, if the file can be opened. -/
def readEntryFromDisk (w : Server) (base fileOffset : ℕ) (buf : Mem) (len : ℕ) : Mem × Option ℕ :=
  match w.files.data base with
  | none => (buf, none)
  | some bytes =>
    let bs := (bytes.drop fileOffset).take len
    (writeBytes buf 0 bs, some bs.length)

/-- What `ReadEntryHandler` does under the write lock when it has not found the stripe. -/
def readLoad (k : Striping) (w : Server) (base rd : ℕ) : Server :=
  match w.gsnToFileOffsetMap base with
  | some _ => w
  | none => (loadFromDiskToCache k w base rd).1

/-- What `ReadEntryHandler` does under the read lock: the response and its length, or nothing if it has to wait.
`offset_map[idx]` adds an index that is not in the map, at zero. The length sent is the one computed, however
much `pread` reads. -/
def readEntry (k : Striping) (w : Server) (idx : UInt64) (resp : Mem) : Server × Option (Mem × ℕ) :=
  let base := k.base idx.toNat
  let localCacheIdx := (idx.toNat - base) / k.shardNum
  match w.gsnToFileOffsetMap base with
  | none => (w, none)
  | some offsetMap =>
    if w.numEntries base ≤ localCacheIdx ∨ w.replicatedIndex < idx then (w, none)
    else
      let offset := offsetMap[idx]?.getD 0
      let len := match offsetMap[idx + UInt64.ofNat k.shardNum]? with
        | some next => next - offset
        | none => w.cacheSize base - offset
      let w := match offsetMap[idx]? with
        | some _ => w
        | none =>
          { w with gsnToFileOffsetMap := Function.update w.gsnToFileOffsetMap base (some (offsetMap.insert idx 0)) }
      (w, some ((readEntryFromDisk w base offset resp len).1, len))

/-! ### What a server keeps -/

variable {k : Striping} {f : ℕ → List LogEntry} {w : Server} {b fd : ℕ} {es : List LogEntry} {p : Opens}

/-- The server as one with the stripes `g` in its cache. -/
def Server.asCached (w : Server) (g : ℕ → Option (List LogEntry)) : ShardServer.Server :=
  ⟨g, w.entriesFdSet, fun _ => none, 0, 0, w.files⟩

/-- The two servers have the same files, and the same descriptors of them. -/
structure SameFiles (w : Server) (v : ShardServer.Server) : Prop where
  files : w.files = v.files
  fds : w.entriesFdSet = v.entriesFdSet

/-- Offsets, sizes and counts are those of the stripes `f`. -/
structure Counted (f : ℕ → List LogEntry) (w : Server) : Prop where
  offsets : ∀ b, w.gsnToFileOffsetMap b = (present f b).map offsetsOf
  size : ∀ b, w.cacheSize b = totalSize (f b)
  num : ∀ b, w.numEntries b = (f b).length

/-- **The server keeps the stripes `f`** in its files, and their offsets. -/
structure Keeps (k : Striping) (f : ℕ → List LogEntry) (w : Server) : Prop extends Counted f w where
  stores : Stores k f (w.asCached (present f))

theorem keeps_empty : Keeps k (fun _ => []) Server.empty := by
  refine ⟨⟨fun _ => rfl, fun _ => rfl, fun _ => rfl⟩, ?_⟩
  obtain ⟨-, h2, h3, h4, h5⟩ := ShardServer.stores_empty (k := k)
  exact ⟨rfl, h2, h3, h4, h5⟩

theorem SameFiles.stores {v : ShardServer.Server} (h : SameFiles w v) (hv : Stores k f v) :
    Stores k f (w.asCached (present f)) := by
  obtain ⟨hc, hm, hf, ho, hn⟩ := hv
  refine ⟨rfl, ?_, ?_, ?_, ?_⟩
  · rw [← h.files] at hm
    exact hm
  · rw [← h.files] at hf
    exact hf
  · rw [← h.files, ← h.fds] at ho
    exact ho
  · rw [← h.files, ← h.fds] at hn
    exact hn

/-- The first part of `processEntriesAndBuildMap` opens the file that the server with a cache opens. -/
theorem Keeps.openStripe (h : Keeps k f w) {v' : ShardServer.Server} (hp : p.wr = some fd) {fd' : ℕ}
    (hv : ShardServer.openStripe k (w.asCached (present f)) b p = (v', some fd')) :
    ∃ w', openStripe k w b p = (w', some fd') ∧ SameFiles w' v' ∧
      w'.gsnToFileOffsetMap = Function.update w.gsnToFileOffsetMap b (some (offsetsOf (f b))) ∧
      w'.cacheSize = w.cacheSize ∧ w'.numEntries = w.numEntries := by
  have hoff := h.offsets b
  unfold Unoptimized.openStripe
  unfold ShardServer.openStripe at hv
  by_cases hb : f b = []
  · have hnone : present f b = none := if_pos hb
    have hdata : w.files.data b = none := h.stores.missing b hnone
    have hload : loadFromDiskToCache k w b p.rd = (w, false) := by
      unfold loadFromDiskToCache
      rw [hdata]
    have hload' : ShardServer.loadFromDiskToCache k (w.asCached (present f)) b p.rd =
        (w.asCached (present f), false) := by
      unfold ShardServer.loadFromDiskToCache Server.asCached
      simp only [hdata]
    have hc : (w.asCached (present f)).entriesCacheSet b = none := hnone
    have hsize : Function.update w.cacheSize b 0 = w.cacheSize := by
      rw [Function.update_eq_self_iff, h.size b, hb]
      rfl
    have hnum : Function.update w.numEntries b 0 = w.numEntries := by
      rw [Function.update_eq_self_iff, h.num b, hb]
      rfl
    rw [hnone] at hoff
    simp only [hc, hload', hp] at hv
    obtain ⟨rfl, hfd⟩ := Prod.mk.inj hv
    cases hfd
    simp only [hoff, Option.map_none, hload, hp, hsize, hnum, hb]
    exact ⟨_, rfl, ⟨rfl, rfl⟩, rfl, rfl, rfl⟩
  · have hsome : present f b = some (f b) := present_of_ne hb
    have hc : (w.asCached (present f)).entriesCacheSet b = some (f b) := hsome
    rw [hsome] at hoff
    simp only [hc] at hv
    obtain ⟨rfl, hfd⟩ := Prod.mk.inj hv
    cases hfd
    simp only [hoff, Option.map_some]
    refine ⟨_, rfl, ⟨rfl, rfl⟩, ?_, rfl, rfl⟩
    rw [eq_comm, Function.update_eq_self_iff, hoff]
    rfl

theorem SameFiles.writeFromCacheToDisk {v : ShardServer.Server} (h : SameFiles w v) (b : ℕ) :
    SameFiles (writeFromCacheToDisk w b) (ShardServer.writeFromCacheToDisk v b) := by
  unfold Unoptimized.writeFromCacheToDisk ShardServer.writeFromCacheToDisk
  rw [h.fds]
  cases v.entriesFdSet b with
  | none => exact h
  | some fd => exact ⟨congrArg (Files.close · fd) h.files, rfl⟩

theorem Counted.writeFromCacheToDisk (h : Counted f w) (b : ℕ) : Counted f (writeFromCacheToDisk w b) := by
  unfold Unoptimized.writeFromCacheToDisk
  cases w.entriesFdSet b with
  | none => exact h
  | some fd => exact ⟨h.offsets, h.size, h.num⟩

section Request
variable {buf : Mem} (hm : Numbered buf 0 es) (hs : ∀ e ∈ es, e.Sized) (hf : ∀ e ∈ es, e.flags ≠ 0)

include hm hs hf

theorem SameFiles.addOffsetsOf {v : ShardServer.Server} (h : SameFiles w v) (b fd : ℕ) :
    SameFiles (addOffsetsOf w b fd buf) (ShardServer.addEntries v b fd buf) := by
  unfold Unoptimized.addOffsetsOf ShardServer.addEntries
  simp only [multiDeserializer_eq hm hs hf, processAndBuildMap_eq hm hs hf, h.files]
  exact ⟨rfl, h.fds⟩

theorem Counted.addOffsetsOf {w' : Server} (h : Counted f w) (hne : es ≠ []) (fd : ℕ)
    (hmap : w'.gsnToFileOffsetMap = Function.update w.gsnToFileOffsetMap b (some (offsetsOf (f b))))
    (hsize : w'.cacheSize = w.cacheSize) (hnum : w'.numEntries = w.numEntries) :
    Counted (Function.update f b (f b ++ es)) (addOffsetsOf w' b fd buf) := by
  unfold Unoptimized.addOffsetsOf
  simp only [processAndBuildMap_eq hm hs hf, hmap, hsize, hnum, Function.update_self, Function.update_idem,
    Option.getD_some, Nat.add_sub_cancel_left, hm.num, h.size b, h.num b, ← offsetsOf_append, ← totalSize_append,
    ← List.length_append]
  refine ⟨fun b' => ?_, fun b' => ?_, fun b' => ?_⟩
  · rw [← present_update (by simp [hne])]
    rcases eq_or_ne b' b with rfl | hb
    · simp
    · simpa [Function.update_of_ne hb] using h.offsets b'
  · rcases eq_or_ne b' b with rfl | hb
    · simp
    · simpa [Function.update_of_ne hb] using h.size b'
  · rcases eq_or_ne b' b with rfl | hb
    · simp
    · simpa [Function.update_of_ne hb] using h.num b'

/-- **A batch is added at the end of its stripe.** -/
theorem Keeps.storeBatch (h : Keeps k f w) (hlt : (f b).length < k.stripeUnitSize) (hp : p.wr = some fd)
    (hfree : w.files.fds fd = none) (hne : es ≠ []) :
    Keeps k (Function.update f b (f b ++ es)) (storeBatch k w b buf p) := by
  have hstores := h.stores.storeBatch hlt hp hfree hm hs hf hne
  obtain ⟨v', fd', hv, -, hback, -⟩ := h.stores.openStripe hlt hp hfree
  obtain ⟨w', hw, hsame, hmap, hsize, hnum⟩ := h.openStripe hp hv
  have hcache : ((ShardServer.addEntries v' b fd' buf).entriesCacheSet b).getD [] = f b ++ es := by
    simp only [ShardServer.addEntries, hback.cache, Function.update_self, Option.getD_some,
      multiDeserializer_eq hm hs hf]
  have hadd := hsame.addOffsetsOf hm hs hf b fd'
  have hcount := h.toCounted.addOffsetsOf hm hs hf hne fd' hmap hsize hnum
  have hlen := hcount.num b
  rw [Function.update_self] at hlen
  unfold ShardServer.storeBatch ShardServer.addToEntryCache at hstores
  unfold Unoptimized.storeBatch processEntriesAndBuildMap
  rw [hv] at hstores
  simp only [hcache] at hstores
  rw [hw]
  simp only [hlen]
  -- the file is full for both servers, or for none
  split_ifs at hstores ⊢
  · exact ⟨hcount.writeFromCacheToDisk b, (hadd.writeFromCacheToDisk b).stores hstores⟩
  · exact ⟨hcount, hadd.stores hstores⟩

end Request

theorem Keeps.setReplicatedIndex (h : Keeps k f w) (b : ℕ) : Keeps k f (setReplicatedIndex w b) :=
  ⟨⟨h.offsets, h.size, h.num⟩, h.stores⟩

theorem Keeps.readLoad (h : Keeps k f w) (b rd : ℕ) : readLoad k w b rd = w := by
  unfold Unoptimized.readLoad
  cases hc : w.gsnToFileOffsetMap b with
  | some map => rfl
  | none =>
    rw [h.offsets b, Option.map_eq_none_iff] at hc
    have hdata : w.files.data b = none := h.stores.missing b hc
    unfold loadFromDiskToCache
    rw [hdata]

/-! ### Reading -/

variable {e : LogEntry} {i j : ℕ}

/-- The entries of a stripe have the indices of their shard, from `a` on. -/
structure Filed (k : Striping) (a : ℕ) (es : List LogEntry) : Prop where
  length_le : es.length ≤ k.stripeUnitSize
  logIdx : ∀ {j : ℕ} {e : LogEntry}, es[j]? = some e → e.logIdx.toNat = a + j * k.shardNum

theorem Filed.ascending {a : ℕ} (h : Filed k a es) : Ascending es := by
  refine List.pairwise_iff_getElem.mpr fun i j hi hj hij => ?_
  rw [UInt64.lt_iff_toNat_lt, h.logIdx (List.getElem?_eq_getElem hi), h.logIdx (List.getElem?_eq_getElem hj)]
  have := (Nat.mul_lt_mul_right k.shard_pos).mpr hij
  omega

/-- The index one step further, which does not wrap within a stripe. -/
theorem Filed.logIdx_eq_iff {a : ℕ} (h : Filed k a es) {x : LogEntry} (hj : es[j]? = some e)
    (hx : es[i]? = some x) : x.logIdx = e.logIdx + UInt64.ofNat k.shardNum ↔ i = j + 1 := by
  have hn : (UInt64.ofNat k.shardNum).toNat = k.shardNum :=
    Nat.mod_eq_of_lt (k.shard_lt.trans (by decide))
  have hlt := x.logIdx.toNat_lt
  rw [← UInt64.toNat_inj, UInt64.toNat_add, hn, h.logIdx hj, h.logIdx hx, Nat.add_assoc, ← Nat.add_one_mul]
  rw [h.logIdx hx] at hlt
  constructor
  · intro heq
    have hsmall : (j + 1) * k.shardNum < 2 ^ 62 := by
      have hj' := (List.getElem?_eq_some_iff.mp hj).1
      calc (j + 1) * k.shardNum ≤ k.stripeUnitSize * k.shardNum :=
            Nat.mul_le_mul_right _ (hj'.trans_le h.length_le)
        _ < 2 ^ 31 * 2 ^ 31 := Nat.mul_lt_mul'' k.stripe_lt k.shard_lt
    have hcase : a + (j + 1) * k.shardNum < 2 ^ 64 := by
      by_contra hge
      omega
    rw [Nat.mod_eq_of_lt hcase] at heq
    exact Nat.eq_of_mul_eq_mul_right k.shard_pos (Nat.add_left_cancel heq)
  · rintro rfl
    exact (Nat.mod_eq_of_lt hlt).symm

theorem holds_read {bytes : List UInt8} (h : Encodes bytes es) (he : es[j]? = some e) (resp : Mem) :
    Holds (writeBytes resp 0 ((bytes.drop (pos entrySize es j)).take (entrySize e))) 0 (encode e) := by
  have hlen := length_encode_le e
  have hle : pos entrySize es j + entrySize e ≤ bytes.length := by
    rw [h.length]
    exact pos_add_le_total he
  refine (h.holds.getElem he).congr fun i hi => ?_
  rw [writeBytes_getD (by rw [List.length_take, List.length_drop]; omega), List.getD_eq_getElem?_getD,
    List.getElem?_take_of_lt (by omega), List.getElem?_drop, ← List.getD_eq_getElem?_getD, Nat.zero_add]
  rfl

theorem len_eq {a : ℕ} (hfiled : Filed k a es) (he : es[j]? = some e) :
    (match (offsetsOf es)[e.logIdx + UInt64.ofNat k.shardNum]? with
      | some next => next - pos entrySize es j
      | none => totalSize es - pos entrySize es j) = entrySize e := by
  have hpos := pos_succ (f := entrySize) he
  rcases Nat.lt_or_ge (j + 1) es.length with hlt | hge
  · have hnext := List.getElem?_eq_getElem hlt
    rw [← (hfiled.logIdx_eq_iff he hnext).mpr rfl, getElem?_offsetsOf hfiled.ascending hnext]
    show pos entrySize es (j + 1) - pos entrySize es j = _
    omega
  · have hnone : (offsetsOf es)[e.logIdx + UInt64.ofNat k.shardNum]? = none := by
      unfold offsetsOf
      rw [getElem?_addOffsets_of_notMem, Std.TreeMap.getElem?_emptyc]
      intro x hx heq
      obtain ⟨i, hi⟩ := List.mem_iff_getElem?.mp hx
      have hi' := (List.getElem?_eq_some_iff.mp hi).1
      have := (hfiled.logIdx_eq_iff he hi).mp heq
      omega
    rw [hnone]
    show totalSize es - pos entrySize es j = _
    rw [show totalSize es = pos entrySize es (j + 1) from (pos_of_length_le hge).symm]
    omega

/-- **A read of an index that is there** sends the bytes of its entry. -/
theorem Keeps.readEntry_eq (h : Keeps k f w) {a : ℕ} (hfiled : Filed k a (f (k.base e.logIdx.toNat)))
    (he : (f (k.base e.logIdx.toNat))[(e.logIdx.toNat - k.base e.logIdx.toNat) / k.shardNum]? = some e)
    (hrep : e.logIdx ≤ w.replicatedIndex) (resp : Mem) :
    ∃ m', readEntry k w e.logIdx resp = (w, some (m', entrySize e)) ∧ Holds m' 0 (encode e) := by
  have hj := (List.getElem?_eq_some_iff.mp he).1
  have hoff := h.offsets (k.base e.logIdx.toNat)
  have hsize := h.size (k.base e.logIdx.toNat)
  have hnum := h.num (k.base e.logIdx.toNat)
  have hb : f (k.base e.logIdx.toNat) ≠ [] :=
    List.ne_nil_of_length_pos ((Nat.zero_le _).trans_lt hj)
  obtain ⟨bytes, hdata, henc⟩ := h.stores.file _ _ (present_of_ne hb)
  have hdata' : w.files.data (k.base e.logIdx.toNat) = some bytes := hdata
  rw [present_of_ne hb, Option.map_some] at hoff
  have hget := getElem?_offsetsOf hfiled.ascending he
  have hlen := len_eq hfiled he
  have hholds := holds_read henc he resp
  unfold readEntry
  simp only [hoff, hsize, hnum]
  rw [if_neg (by rw [not_or, not_le, UInt64.not_lt]; exact ⟨hj, hrep⟩)]
  refine ⟨_, ?_, hholds⟩
  simp only [hget, Option.getD_some]
  unfold readEntryFromDisk
  rw [hdata']
  exact congrArg (fun n => (w, some (writeBytes resp 0 ((bytes.drop _).take n), n))) hlen

/-! ### The two servers side by side -/

variable {L : List LogEntry} {sh : ℕ}

/-- Both kinds of server, and how much of the log has been given to the backend. -/
structure Pair where
  upTo : ℕ
  opt : ShardServer.Server
  wo : Server

/-- The requests of the shard `sh` for the log `L` go to both servers, whose descriptors may differ. A round of the
backend may have no entry for the shard. -/
inductive PairStep (k : Striping) (L : List LogEntry) (sh : ℕ) : Pair → Pair → Prop
  | skip {s : Pair} {t : ℕ} (hle : s.upTo ≤ t) (hnext : t ≤ nextIdx k.shardNum sh s.upTo) (hL : t ≤ L.length) :
    PairStep k L sh s { s with upTo := t }
  | append {s : Pair} {u : ℕ} {req : MsgBuffer} {p q : Opens} {fd fd' : ℕ} (ha : Active k L sh s.upTo u)
    (hc : Carries k L sh s.upTo u req) (hp : p.wr = some fd) (hfree : s.opt.files.fds fd = none)
    (hq : q.wr = some fd') (hfree' : s.wo.files.fds fd' = none) :
    PairStep k L sh s
      { upTo := u
        opt := ShardServer.setReplicatedIndex
          (ShardServer.storeBatch k s.opt (requestBase k req.buf) req.buf p) (requestBase k req.buf)
        wo := setReplicatedIndex (storeBatch k s.wo (requestBase k req.buf) req.buf q) (requestBase k req.buf) }
  | updateGlobalIdx {s : Pair} (idx : UInt64) :
    PairStep k L sh s { s with opt := ShardServer.updateGlobalIdx s.opt idx }
  | readLoad {s : Pair} (base rd : ℕ) (hfree : s.opt.files.fds rd = none) :
    PairStep k L sh s { s with opt := ShardServer.readLoad k s.opt base rd }
  | readLoadWo {s : Pair} (base rd : ℕ) (hfree : s.wo.files.fds rd = none) :
    PairStep k L sh s { s with wo := readLoad k s.wo base rd }

/-- Both servers have just been started. -/
def PairStart (s : Pair) : Prop := s = ⟨0, ShardServer.Server.empty, Server.empty⟩

/-- **The invariant**: both servers have the stripes of the log. -/
structure PairInv (k : Striping) (L : List LogEntry) (sh : ℕ) (s : Pair) : Prop where
  le_length : s.upTo ≤ L.length
  opt : Stores k (shardStripes k L sh s.upTo) s.opt
  wo : Keeps k (shardStripes k L sh s.upTo) s.wo
  same : s.wo.replicatedIndex = s.opt.replicatedIndex
  lt : sh < s.upTo → s.opt.replicatedIndex.toNat < s.upTo

variable {s s' : Pair}

theorem filed_shardStripes (hL : IsLog L) {x : ℕ} (hx : x ≤ L.length) (b : ℕ) :
    Filed k (b + sh) (shardStripes k L sh x b) := by
  refine ⟨length_shardStripes_le k L sh x b, fun he => ?_⟩
  obtain ⟨-, hget⟩ := getElem?_shardStripes hx he
  exact hL.indexed _ _ hget

theorem PairInv.start (h : PairStart s) : PairInv k L sh s := by
  rw [h]
  refine ⟨Nat.zero_le _, ?_, ?_, rfl, fun hlt => absurd hlt (Nat.not_lt_zero _)⟩
  · rw [shardStripes_zero]
    exact ShardServer.stores_empty
  · rw [shardStripes_zero]
    exact keeps_empty

theorem replicatedIndex_eq {v : ShardServer.Server} (hv : Stores k f v) (hw : Keeps k f w) {a : ℕ}
    (hfiled : Filed k a (f b)) :
    (setReplicatedIndex w b).replicatedIndex = (ShardServer.setReplicatedIndex v b).replicatedIndex := by
  have hmap : ((present f b).map offsetsOf).getD ∅ = offsetsOf (f b) := by
    unfold present
    split_ifs with hb
    · rw [hb]
      rfl
    · rfl
  have hcache : (present f b).getD [] = f b := by
    unfold present
    split_ifs with hb
    · exact hb.symm
    · rfl
  unfold setReplicatedIndex ShardServer.setReplicatedIndex
  simp only [hw.offsets, hv.cache, hmap, hcache, maxKey?_offsetsOf hfiled.ascending, List.getLastD_eq_getLast?]
  rcases (f b).getLast? with _ | e
  · rfl
  · rfl

/-- **A request is handled by both servers.** -/
theorem PairInv.append {u : ℕ} {req : MsgBuffer} {p q : Opens} {fd fd' : ℕ} (h : PairInv k L sh s)
    (hsh : sh < k.shardNum) (ha : Active k L sh s.upTo u) (hc : Carries k L sh s.upTo u req) (hp : p.wr = some fd)
    (hfree : s.opt.files.fds fd = none) (hq : q.wr = some fd') (hfree' : s.wo.files.fds fd' = none) :
    PairInv k L sh
      { upTo := u
        opt := ShardServer.setReplicatedIndex
          (ShardServer.storeBatch k s.opt (requestBase k req.buf) req.buf p) (requestBase k req.buf)
        wo := setReplicatedIndex (storeBatch k s.wo (requestBase k req.buf) req.buf q) (requestBase k req.buf) } := by
  have hL := ha.le_length
  have hopt := hc.store ha hsh h.opt hp hfree
  have hwo : Keeps k (shardStripes k L sh u) (storeBatch k s.wo (requestBase k req.buf) req.buf q) := by
    obtain ⟨hround, hlt⟩ := ha.stripes hsh
    obtain ⟨hs, hf, hne⟩ := ha.storable
    rw [hc.requestBase_eq ha, hround]
    exact h.wo.storeBatch hc.numbered hs hf hlt hq hfree' hne
  refine ⟨hL, hopt.setReplicatedIndex _, hwo.setReplicatedIndex _, ?_, fun _ => ?_⟩
  · exact replicatedIndex_eq hopt hwo (filed_shardStripes ha.isLog hL _)
  · rw [hc.requestBase_eq ha] at hopt ⊢
    exact (replicated_setReplicatedIndex ha hsh hopt).2

/-- **One step** keeps the invariant. -/
theorem PairInv.step (h : PairInv k L sh s) (hsh : sh < k.shardNum) (hs : PairStep k L sh s s') :
    PairInv k L sh s' := by
  cases hs with
  | @skip t hle hnext hL =>
    have hskip := shardStripes_skip (L := L) hle hnext
    refine ⟨hL, ?_, ?_, h.same, fun hlt => ?_⟩
    · simp only [hskip]
      exact h.opt
    · simp only [hskip]
      exact h.wo
    · -- the first index of the shard is not skipped
      have hfirst : sh < s.upTo := by
        by_contra hge
        have := nextIdx_le (i := sh) (u := s.upTo) (j := 0) k.shard_pos (by omega)
        rw [Nat.zero_mul, Nat.add_zero] at this
        have hlt' : sh < t := hlt
        omega
      exact (h.lt hfirst).trans_le hle
  | append ha hc hp hfree hq hfree' => exact h.append hsh ha hc hp hfree hq hfree'
  | updateGlobalIdx idx => exact ⟨h.le_length, h.opt.updateGlobalIdx idx, h.wo, h.same, h.lt⟩
  | readLoad base rd hfree =>
    rw [h.opt.readLoad]
    exact h
  | readLoadWo base rd hfree =>
    rw [h.wo.readLoad]
    exact h

theorem pairInv_of_reach (hsh : sh < k.shardNum) (h : Reach PairStart (PairStep k L sh) s) : PairInv k L sh s :=
  h.invariant (fun _ hs => PairInv.start hs) fun _ _ _ hI hs => hI.step hsh hs

/-! ### They answer alike -/

/-- The server with a cache has an entry `e` for the index, which it serialises once `global_index_` lets it. The
other one sends as many bytes, and both responses decode to `e`. -/
def Alike (k : Striping) (v : ShardServer.Server) (w : Server) (idx : UInt64) : Prop :=
  ∃ es e, v.entriesCacheSet (k.base idx.toNat) = some es ∧
    es[(idx.toNat - k.base idx.toNat) / k.shardNum]? = some e ∧
    ∀ resp resp' e₀, (idx ≤ v.globalIndex → ShardServer.readEntry k v idx resp = some (serializer e resp 0)) ∧
      deserializer e₀ (serializer e resp 0).1 0 = (e, (serializer e resp 0).2) ∧
      ∃ m', readEntry k w idx resp' = (w, some (m', (serializer e resp 0).2)) ∧
        deserializer e₀ m' 0 = (e, (serializer e resp 0).2)

theorem PairInv.alike (h : PairInv k L sh s) (hL : IsLog L) {idx : UInt64} (hmod : idx.toNat % k.shardNum = sh)
    (hidx : idx ≤ s.opt.replicatedIndex) (hlt : sh < s.upTo) : Alike k s.opt s.wo idx := by
  subst hmod
  have hidx' := UInt64.le_iff_toNat_le.mp hidx
  have hup := h.lt hlt
  have hlen := h.le_length
  obtain ⟨e, he⟩ : ∃ e, L[idx.toNat]? = some e := ⟨_, List.getElem?_eq_getElem (by omega)⟩
  obtain rfl : e.logIdx = idx := UInt64.toNat_inj.mp (hL.indexed _ _ he)
  have hsized := hL.sized e (List.mem_of_getElem? he)
  have hflag := hL.flagged e (List.mem_of_getElem? he)
  have hget := (shardStripes_read (k := k) hlen (by omega)).trans he
  have hne : shardStripes k L (e.logIdx.toNat % k.shardNum) s.upTo (k.base e.logIdx.toNat) ≠ [] := by
    intro hnil
    rw [hnil] at hget
    cases hget
  refine ⟨_, e, by rw [h.opt.cache, present_of_ne hne], hget, fun resp resp' e₀ => ⟨fun hglb => ?_, ?_, ?_⟩⟩
  · exact h.opt.readEntry_eq_some.mpr ⟨e, hget, hidx', UInt64.le_iff_toNat_le.mp hglb, rfl⟩
  · rw [serializer_eq]
    exact deserializer_of_holds e₀ (holds_writeBytes _ _ _) hsized hflag
  · obtain ⟨m', hread, hholds⟩ := h.wo.readEntry_eq (filed_shardStripes hL hlen _) hget
      (by rw [h.same]; exact hidx) resp'
    rw [serializer_eq]
    exact ⟨m', hread, deserializer_of_holds e₀ hholds hsized hflag⟩

/-- Nothing has come to the shard yet, and both servers let a reader wait. -/
theorem PairInv.wait (h : PairInv k L sh s) (hle : s.upTo ≤ sh) (idx : UInt64) (resp : Mem) :
    ShardServer.readEntry k s.opt idx resp = none ∧ readEntry k s.wo idx resp = (s.wo, none) := by
  have hnone : present (shardStripes k L sh s.upTo) (k.base idx.toNat) = none := by
    refine if_pos ?_
    unfold shardStripes
    split_ifs
    · exact stride_of_le k.shard_pos (by omega)
    · rfl
  constructor
  · unfold ShardServer.readEntry
    simp only [h.opt.cache, hnone]
  · unfold readEntry
    simp only [h.wo.offsets, hnone, Option.map_none]

/-- The map of every data file is the one that a single pass over the file builds. -/
theorem PairInv.offsets_eq (h : PairInv k L sh s) (hL : IsLog L) (b : ℕ) : s.wo.gsnToFileOffsetMap b =
    (s.wo.files.data b).map fun bytes =>
      (processAndBuildMapSize ∅ (fun i => bytes.getD i 0) 0 bytes.length 0).1 := by
  have hoff := h.wo.offsets b
  rw [hoff]
  by_cases hb : shardStripes k L sh s.upTo b = []
  · have hnone : present (shardStripes k L sh s.upTo) b = none := if_pos hb
    have hdata : s.wo.files.data b = none := h.wo.stores.missing b hnone
    rw [hnone, hdata]
    rfl
  · obtain ⟨bytes, hdata, henc⟩ := h.wo.stores.file b _ (present_of_ne hb)
    have hdata' : s.wo.files.data b = some bytes := hdata
    have hmem : ∀ e ∈ shardStripes k L sh s.upTo b, e ∈ L := by
      intro e he
      obtain ⟨j, hj⟩ := List.mem_iff_getElem?.mp he
      exact List.mem_of_getElem? (getElem?_shardStripes h.le_length hj).2
    rw [present_of_ne hb, hdata', Option.map_some, Option.map_some,
      processAndBuildMapSize_eq (fun e he => hL.sized e (hmem e he)) (fun e he => hL.flagged e (hmem e he))
        henc.holds henc.length.symm]

/-- **The two kinds of server answer reads alike**, up to their replicated indices, and the offsets collected
request by request are those of the files. -/
theorem servers_answer_alike (hL : IsLog L) (hsh : sh < k.shardNum)
    (h : Reach PairStart (PairStep k L sh) s) :
    (∀ idx : UInt64, idx.toNat % k.shardNum = sh → idx ≤ s.opt.replicatedIndex → idx ≤ s.wo.replicatedIndex →
      (sh < s.upTo → Alike k s.opt s.wo idx) ∧
      (s.upTo ≤ sh → ∀ resp, ShardServer.readEntry k s.opt idx resp = none ∧
        readEntry k s.wo idx resp = (s.wo, none))) ∧
    ∀ b, s.wo.gsnToFileOffsetMap b = (s.wo.files.data b).map fun bytes =>
      (processAndBuildMapSize ∅ (fun i => bytes.getD i 0) 0 bytes.length 0).1 := by
  have hI := pairInv_of_reach hsh h
  refine ⟨fun idx hmod hidx _ => ⟨hI.alike hL hmod hidx, fun hle => hI.wait hle idx⟩, hI.offsets_eq hL⟩

/-- The two entries come in two requests, and the first one is read. -/
theorem servers_answer_alike_twoSizes : ∃ s, Reach PairStart (PairStep oneShard twoSizes 0) s ∧
    s.upTo = 2 ∧ Alike oneShard s.opt s.wo 0 := by
  have ha : Active oneShard twoSizes 0 0 1 := ⟨isLog_twoSizes, by decide, by decide, by decide⟩
  have ha' : Active oneShard twoSizes 0 1 2 := ⟨isLog_twoSizes, by decide, by decide, by decide⟩
  obtain ⟨req, hc⟩ := exists_carries ha (by decide)
  obtain ⟨req', hc'⟩ := exists_carries ha' (by decide)
  have h0 : Reach PairStart (PairStep oneShard twoSizes 0) _ := .start rfl
  have h1 := h0.next (.append (p := ⟨3, some 3⟩) (q := ⟨3, some 3⟩) ha hc rfl rfl rfl rfl)
  have hfree : (ShardServer.storeBatch oneShard ShardServer.Server.empty (requestBase oneShard req.buf) req.buf
      ⟨3, some 3⟩).files.fds 4 = none := by
    rw [hc.requestBase_eq ha]
    unfold ShardServer.storeBatch
    dsimp only
    split_ifs <;> rfl
  have hfree' : (storeBatch oneShard Server.empty (requestBase oneShard req.buf) req.buf
      ⟨3, some 3⟩).files.fds 4 = none := by
    rw [hc.requestBase_eq ha]
    unfold storeBatch
    dsimp only
    split_ifs <;> rfl
  have h2 := h1.next (.append (p := ⟨3, some 4⟩) (q := ⟨3, some 4⟩) ha' hc' rfl hfree rfl hfree')
  have hread := (servers_answer_alike isLog_twoSizes (by decide) h2).1 0 rfl UInt64.zero_le UInt64.zero_le
  exact ⟨_, h2, rfl, hread.1 Nat.two_pos⟩

end LazyLog.Storage.Unoptimized
