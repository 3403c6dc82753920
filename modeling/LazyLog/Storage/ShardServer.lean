import LazyLog.Lib.Disk
import LazyLog.Rpc.Multi

/-! # A shard server (`cons_log/storage/shard_server`)

The functions of `ShardServer` (not `CORFU`) on the state of one server process: the stripes it has in its
cache, the descriptors of their data files, the two indices, and the files. A primary and a backup run the
same code on a batch (`storeBatch`).

`Stores k f v`: the server `v` holds the stripes `f`, in its cache and in its data files, and has exactly the
files of the stripes open that are not full. A batch for a stripe is added at its end
(`Stores.storeBatch`). -/

namespace LazyLog.Storage.ShardServer

open LazyLog.Lib.Bytes LazyLog.Lib.Disk LazyLog.Rpc.Entry LazyLog.Rpc.Multi

/-! ### The server -/

/-- How the log is striped, as in the properties of the servers and of the consensus log. Both numbers are
read with `std::stoi`. -/
structure Striping where
  stripeUnitSize : ℕ
  shardNum : ℕ
  stripe_pos : 0 < stripeUnitSize
  stripe_lt : stripeUnitSize < 2 ^ 31
  shard_pos : 0 < shardNum
  shard_lt : shardNum < 2 ^ 31

/-- One shard, stripes of four entries. -/
def oneShard : Striping := ⟨4, 1, by decide, by decide, Nat.one_pos, by decide⟩

/-- `big_stripe_unit_size`. -/
def Striping.big (k : Striping) : ℕ := k.stripeUnitSize * k.shardNum

/-- `base_idx` of an index. -/
def Striping.base (k : Striping) (idx : ℕ) : ℕ := idx / k.big * k.big

theorem Striping.big_pos (k : Striping) : 0 < k.big := Nat.mul_pos k.stripe_pos k.shard_pos

theorem Striping.base_le (k : Striping) (idx : ℕ) : k.base idx ≤ idx := Nat.div_mul_le_self _ _

theorem Striping.lt_base_add (k : Striping) (idx : ℕ) : idx < k.base idx + k.big :=
  Nat.lt_div_mul_add k.big_pos

theorem Striping.big_dvd_base (k : Striping) (idx : ℕ) : k.big ∣ k.base idx := Nat.dvd_mul_left _ _

theorem Striping.dvd_of_big_dvd {k : Striping} {b : ℕ} (h : k.big ∣ b) : k.shardNum ∣ b :=
  (Nat.dvd_mul_left _ _).trans h

theorem Striping.base_eq {k : Striping} {b idx : ℕ} (h : k.big ∣ b) (h1 : b ≤ idx) (h2 : idx < b + k.big) :
    k.base idx = b := by
  obtain ⟨q, rfl⟩ := h
  unfold Striping.base
  rw [Nat.div_eq_of_lt_le (k := q) (by rwa [Nat.mul_comm]) (by rw [Nat.succ_mul, Nat.mul_comm q]; exact h2),
    Nat.mul_comm]

theorem Striping.add_big_le {k : Striping} {b b' : ℕ} (h : k.big ∣ b) (h' : k.big ∣ b') (hlt : b < b') :
    b + k.big ≤ b' := by
  obtain ⟨q, rfl⟩ := h
  obtain ⟨q', rfl⟩ := h'
  rw [← Nat.mul_succ]
  exact Nat.mul_le_mul_left _ (Nat.lt_of_mul_lt_mul_left hlt)

/-- The static fields of `ShardServer`, and the data files by the `base_idx` in their path. -/
structure Server where
  entriesCacheSet : ℕ → Option (List LogEntry)
  entriesFdSet : ℕ → Option ℕ
  cacheSize : ℕ → Option ℕ
  replicatedIndex : UInt64
  globalIndex : UInt64
  files : Files ℕ

/-- A server that has just been started, on an empty folder and with the default indices. -/
def Server.empty : Server where
  entriesCacheSet _ := none
  entriesFdSet _ := none
  cacheSize _ := none
  replicatedIndex := 0
  globalIndex := 0
  files := ⟨fun _ => none, fun _ => none⟩

/-- What `open` returns: the descriptor of a file opened for reading, and that of a file created, if it can
be. -/
structure Opens where
  rd : ℕ
  wr : Option ℕ

/-- `loadFromDiskToCache`, and whether it returns zero. `open` fails if there is no file; `mmap` fails if it
is empty, and leaves the descriptor open. The source compares the length in bytes with the number of entries
of a stripe. -/
def loadFromDiskToCache (k : Striping) (v : Server) (base rd : ℕ) : Server × Bool :=
  match v.files.data base with
  | none => (v, false)
  | some bytes =>
    let v := { v with files := v.files.openRead base rd }
    if bytes = [] then (v, false)
    else
      let es := (multiDeserializerSize [] (fun i => bytes.getD i 0) 0 bytes.length).1
      let v := { v with entriesCacheSet := Function.update v.entriesCacheSet base (some es) }
      if bytes.length < k.stripeUnitSize then
        ({ v with
          cacheSize := Function.update v.cacheSize base (some bytes.length)
          entriesFdSet := Function.update v.entriesFdSet base (some rd) }, true)
      else ({ v with files := v.files.close rd }, true)

/-- The first part of `addToEntryCache`: the stripe is in the cache, and `fd` is the descriptor to write to.
It is `none` if the file cannot be created; a stripe loaded from disk leaves `fd` at zero. -/
def openStripe (k : Striping) (v : Server) (base : ℕ) (o : Opens) : Server × Option ℕ :=
  match v.entriesCacheSet base with
  | some _ =>
    let fd := (v.entriesFdSet base).getD 0
    ({ v with entriesFdSet := Function.update v.entriesFdSet base (some fd) }, some fd)
  | none =>
    match loadFromDiskToCache k v base o.rd with
    | (v, true) => (v, some 0)
    | (v, false) =>
      let v := { v with
        entriesCacheSet := Function.update v.entriesCacheSet base (some [])
        cacheSize := Function.update v.cacheSize base (some 0) }
      match o.wr with
      | none => (v, none)
      | some fd =>
        ({ v with
          files := v.files.create base fd
          entriesFdSet := Function.update v.entriesFdSet base (some fd) }, some fd)

/-- The entries of a request are added to the cache and its bytes to the file. -/
def addEntries (v : Server) (base fd : ℕ) (buf : Mem) : Server :=
  let r := multiDeserializer ((v.entriesCacheSet base).getD []) buf 0
  let batchLen := r.2 - 4
  { v with
    entriesCacheSet := Function.update v.entriesCacheSet base (some r.1)
    cacheSize := Function.update v.cacheSize base (some ((v.cacheSize base).getD 0 + batchLen))
    files := v.files.write fd (readBytes buf 4 batchLen) }

/-- `addToEntryCache`. -/
def addToEntryCache (k : Striping) (v : Server) (base : ℕ) (buf : Mem) (o : Opens) : Server :=
  match openStripe k v base o with
  | (v, none) => v
  | (v, some fd) => addEntries v base fd buf

/-- `writeFromCacheToDisk` closes the file; its descriptor stays in `entries_fd_set_`. -/
def writeFromCacheToDisk (v : Server) (base : ℕ) : Server :=
  match v.entriesFdSet base with
  | none => v
  | some fd => { v with files := v.files.close fd }

/-- The `base_idx` of a request: that of its first entry. -/
def requestBase (k : Striping) (buf : Mem) : ℕ := k.base (deserializer default buf 4).1.logIdx.toNat

/-- What `AppendBatchHandler` does under the write lock, and `ReplicateBatchHandler` on a backup. -/
def storeBatch (k : Striping) (v : Server) (base : ℕ) (buf : Mem) (o : Opens) : Server :=
  let v := addToEntryCache k v base buf o
  if k.stripeUnitSize ≤ ((v.entriesCacheSet base).getD []).length then writeFromCacheToDisk v base
  else v

/-- The end of `AppendBatchHandler`. -/
def setReplicatedIndex (v : Server) (base : ℕ) : Server :=
  { v with replicatedIndex := (((v.entriesCacheSet base).getD []).getLastD default).logIdx }

/-- `UpdateGlobalIdxHandler`. -/
def updateGlobalIdx (v : Server) (globalIdx : UInt64) : Server := { v with globalIndex := globalIdx }

/-- What `ReadEntryHandler` does under the write lock when it has not found the stripe in the cache. -/
def readLoad (k : Striping) (v : Server) (base rd : ℕ) : Server :=
  match v.entriesCacheSet base with
  | some _ => v
  | none => (loadFromDiskToCache k v base rd).1

/-- What `ReadEntryHandler` does under the read lock: the response and its length, or nothing if it has to
wait. -/
def readEntry (k : Striping) (v : Server) (idx : UInt64) (resp : Mem) : Option (Mem × ℕ) :=
  let base := k.base idx.toNat
  let localCacheIdx := (idx.toNat - base) / k.shardNum
  match v.entriesCacheSet base with
  | none => none
  | some es =>
    if es.length ≤ localCacheIdx ∨ v.replicatedIndex < idx ∨ v.globalIndex < idx then none
    else some (serializer (es.getD localCacheIdx default) resp 0)

/-! ### What a server holds -/

variable {k : Striping} {v : Server} {b fd : ℕ} {es : List LogEntry}

/-- The bytes of a file are those of the entries. -/
structure Encodes (bytes : List UInt8) (es : List LogEntry) : Prop where
  length : bytes.length = totalSize es
  holds : HoldsAll (fun i => bytes.getD i 0) 0 es

/-- The stripes `g` are in the cache and in the data files, and exactly the files of `o` are open, each at its
end. -/
structure Backed (g : ℕ → Option (List LogEntry)) (o : ℕ → Prop) (v : Server) : Prop where
  cache : v.entriesCacheSet = g
  missing : ∀ b, g b = none → v.files.data b = none
  file : ∀ b es, g b = some es → ∃ bytes, v.files.data b = some bytes ∧ Encodes bytes es
  opened : ∀ b, o b → ∃ es fd, g b = some es ∧ v.entriesFdSet b = some fd ∧
    v.files.fds fd = some ⟨b, true, totalSize es⟩
  only : ∀ fd d, v.files.fds fd = some d → o d.name ∧ v.entriesFdSet d.name = some fd

variable {g : ℕ → Option (List LogEntry)} {o : ℕ → Prop}

theorem Backed.openStripe_cached (h : Backed g o v) (hb : o b) (p : Opens) :
    ∃ fd, openStripe k v b p = (v, some fd) ∧ v.entriesFdSet b = some fd := by
  obtain ⟨es, fd, hg, hfd, -⟩ := h.opened b hb
  have hself : Function.update v.entriesFdSet b (some fd) = v.entriesFdSet := by
    rw [← hfd, Function.update_eq_self]
  have hc : v.entriesCacheSet b = some es := by rw [h.cache, hg]
  refine ⟨fd, ?_, hfd⟩
  unfold openStripe
  simp only [hc, hfd, Option.getD_some, hself]

theorem Backed.openStripe_new (h : Backed g o v) (hb : g b = none) {p : Opens} (hp : p.wr = some fd)
    (hfree : v.files.fds fd = none) : ∃ v', openStripe k v b p = (v', some fd) ∧
      v'.entriesFdSet b = some fd ∧
      Backed (Function.update g b (some [])) (fun b' => b' = b ∨ o b') v' ∧
      ∀ b' ≠ b, v'.files.data b' = v.files.data b' := by
  have hload : loadFromDiskToCache k v b p.rd = (v, false) := by
    unfold loadFromDiskToCache
    rw [h.missing b hb]
  have hno : ¬ o b := by
    intro hob
    obtain ⟨es, -, hg, -⟩ := h.opened b hob
    rw [hb] at hg
    cases hg
  unfold openStripe
  rw [h.cache, hb]
  simp only [hload, hp]
  refine ⟨_, rfl, Function.update_self _ _ _, ⟨?_, ?_, ?_, ?_, ?_⟩, ?_⟩
  · simp only [h.cache]
  · intro b' hb'
    rcases eq_or_ne b' b with rfl | hne
    · simp at hb'
    · rw [Function.update_of_ne hne] at hb'
      simp only [Files.create, Function.update_of_ne hne]
      exact h.missing b' hb'
  · intro b' es hb'
    rcases eq_or_ne b' b with rfl | hne
    · rw [Function.update_self] at hb'
      cases hb'
      exact ⟨[], by simp [Files.create], rfl, trivial⟩
    · rw [Function.update_of_ne hne] at hb'
      simp only [Files.create, Function.update_of_ne hne]
      exact h.file b' es hb'
  · intro b' hb'
    rcases eq_or_ne b' b with rfl | hne
    · exact ⟨[], fd, by simp, by simp, by simp [Files.create]⟩
    · obtain ⟨es, fd', hg, hfd', hd⟩ := h.opened b' (hb'.resolve_left hne)
      have hfd : fd' ≠ fd := by
        rintro rfl
        rw [hfree] at hd
        cases hd
      refine ⟨es, fd', ?_, ?_, ?_⟩
      · rwa [Function.update_of_ne hne]
      · simpa only [Function.update_of_ne hne] using hfd'
      · simpa only [Files.create, Function.update_of_ne hfd] using hd
  · intro fd' d hd
    simp only [Files.create] at hd
    rcases eq_or_ne fd' fd with rfl | hne
    · rw [Function.update_self] at hd
      cases hd
      exact ⟨Or.inl rfl, by simp⟩
    · rw [Function.update_of_ne hne] at hd
      obtain ⟨ho, hfd'⟩ := h.only fd' d hd
      have hdb : d.name ≠ b := fun heq => hno (heq ▸ ho)
      exact ⟨Or.inr ho, by simpa only [Function.update_of_ne hdb] using hfd'⟩
  · intro b' hne
    simp only [Files.create, Function.update_of_ne hne]

theorem Encodes.append {bytes bs : List UInt8} {es es' : List LogEntry} (h : Encodes bytes es)
    (h' : Encodes bs es') : Encodes (bytes ++ bs) (es ++ es') := by
  refine ⟨by rw [List.length_append, totalSize_append, h.length, h'.length], ?_⟩
  refine holdsAll_append.mpr ⟨h.holds.congr fun i hi => ?_, h'.holds.congr fun i hi => ?_⟩
  · rw [← h.length] at hi
    exact List.getD_append _ _ _ _ (by omega)
  · show (bytes ++ bs).getD (0 + totalSize es + i) 0 = bs.getD (0 + i) 0
    rw [List.getD_append_right _ _ _ _ (by rw [h.length]; omega), h.length]
    congr 1
    omega

theorem encodes_body {buf : Mem} (h : Numbered buf 0 es) : Encodes (readBytes buf 4 (totalSize es)) es := by
  refine ⟨length_readBytes _ _ _, h.body.congr fun i hi => ?_⟩
  show (readBytes buf 4 (totalSize es)).getD (0 + i) 0 = buf (0 + 4 + i)
  rw [Nat.zero_add, Nat.zero_add, List.getD_eq_getElem _ _ (by rw [length_readBytes]; exact hi)]
  simp [readBytes]

theorem Backed.addEntries {old : List LogEntry} (h : Backed g o v) (hb : o b) (hg : g b = some old)
    (hfd : v.entriesFdSet b = some fd) {buf : Mem} (hm : Numbered buf 0 es)
    (hs : ∀ e ∈ es, e.Sized) (hf : ∀ e ∈ es, e.flags ≠ 0) :
    Backed (Function.update g b (some (old ++ es))) o (addEntries v b fd buf) := by
  obtain ⟨old', fd', hg', hfd', hd⟩ := h.opened b hb
  rw [hg] at hg'
  rw [hfd] at hfd'
  cases hg'
  cases hfd'
  obtain ⟨bytes, hdata, henc⟩ := h.file b old hg
  rw [← henc.length] at hd
  have hbody := encodes_body hm
  unfold ShardServer.addEntries
  simp only [h.cache, hg, Option.getD_some, multiDeserializer_eq hm hs hf, Nat.add_sub_cancel_left,
    Files.write_end hd hdata]
  refine ⟨rfl, ?_, ?_, ?_, ?_⟩
  · intro b' hb'
    rcases eq_or_ne b' b with rfl | hne
    · simp at hb'
    · rw [Function.update_of_ne hne] at hb'
      simp only [Function.update_of_ne hne]
      exact h.missing b' hb'
  · intro b' es' hb'
    rcases eq_or_ne b' b with rfl | hne
    · rw [Function.update_self] at hb'
      cases hb'
      exact ⟨_, Function.update_self _ _ _, henc.append hbody⟩
    · rw [Function.update_of_ne hne] at hb'
      simp only [Function.update_of_ne hne]
      exact h.file b' es' hb'
  · intro b' hb'
    rcases eq_or_ne b' b with rfl | hne
    · refine ⟨old ++ es, fd, by simp, hfd, ?_⟩
      simp only [Function.update_self]
      rw [henc.length, hbody.length, totalSize_append]
    · obtain ⟨es', fd', hg', hfd', hd'⟩ := h.opened b' hb'
      have hne' : fd' ≠ fd := by
        rintro rfl
        exact hne (congrArg Desc.name (Option.some.inj (hd'.symm.trans hd)))
      refine ⟨es', fd', ?_, hfd', ?_⟩
      · rwa [Function.update_of_ne hne]
      · simpa only [Function.update_of_ne hne'] using hd'
  · intro fd' d hd'
    rcases eq_or_ne fd' fd with rfl | hne
    · simp only [Function.update_self] at hd'
      cases hd'
      exact ⟨hb, hfd⟩
    · simp only [Function.update_of_ne hne] at hd'
      exact h.only fd' d hd'

theorem Backed.close (h : Backed g o v) (hb : o b) :
    Backed g (fun b' => b' ≠ b ∧ o b') (writeFromCacheToDisk v b) := by
  obtain ⟨es, fd, hg, hfd, hd⟩ := h.opened b hb
  unfold writeFromCacheToDisk
  rw [hfd]
  refine ⟨h.cache, h.missing, h.file, ?_, ?_⟩
  · rintro b' ⟨hne, hb'⟩
    obtain ⟨es', fd', hg', hfd', hd'⟩ := h.opened b' hb'
    have hne' : fd' ≠ fd := by
      rintro rfl
      exact hne (congrArg Desc.name (Option.some.inj (hd'.symm.trans hd)))
    exact ⟨es', fd', hg', hfd', by simpa only [Files.close, Function.update_of_ne hne'] using hd'⟩
  · intro fd' d hd'
    simp only [Files.close] at hd'
    rcases eq_or_ne fd' fd with rfl | hne
    · simp at hd'
    · rw [Function.update_of_ne hne] at hd'
      obtain ⟨ho, hfd'⟩ := h.only fd' d hd'
      refine ⟨⟨?_, ho⟩, hfd'⟩
      rintro rfl
      rw [hfd] at hfd'
      cases hfd'
      exact hne rfl

theorem Backed.congr {o' : ℕ → Prop} (h : Backed g o v) (ho : ∀ b, o b ↔ o' b) : Backed g o' v :=
  ⟨h.cache, h.missing, h.file, fun b hb => h.opened b ((ho b).mpr hb),
    fun fd d hd => ⟨(ho _).mp (h.only fd d hd).1, (h.only fd d hd).2⟩⟩

/-! ### Stripes -/

variable {f : ℕ → List LogEntry}

/-- A stripe is there once it has an entry. -/
def present (f : ℕ → List LogEntry) (b : ℕ) : Option (List LogEntry) :=
  if f b = [] then none else some (f b)

/-- The server holds the stripes `f`; the files of those that are not full are open. -/
def Stores (k : Striping) (f : ℕ → List LogEntry) (v : Server) : Prop :=
  Backed (present f) (fun b => f b ≠ [] ∧ (f b).length < k.stripeUnitSize) v

theorem present_of_ne (h : f b ≠ []) : present f b = some (f b) := if_neg h

theorem present_update (h : es ≠ []) :
    Function.update (present f) b (some es) = present (Function.update f b es) := by
  funext b'
  unfold present
  rcases eq_or_ne b' b with rfl | hne
  · simp [h]
  · simp [Function.update_of_ne hne]

/-- After the first part of `addToEntryCache` the stripe is there, empty perhaps, and its file is open. -/
theorem Stores.openStripe (h : Stores k f v) (hlt : (f b).length < k.stripeUnitSize) {p : Opens}
    (hp : p.wr = some fd) (hfree : v.files.fds fd = none) :
    ∃ v' fd', openStripe k v b p = (v', some fd') ∧ v'.entriesFdSet b = some fd' ∧
      Backed (Function.update (present f) b (some (f b)))
        (fun b' => b' = b ∨ f b' ≠ [] ∧ (f b').length < k.stripeUnitSize) v' ∧
      ∀ b' ≠ b, v'.files.data b' = v.files.data b' := by
  by_cases hb : f b = []
  · obtain ⟨v', h1, h2, h3, h4⟩ := Backed.openStripe_new (k := k) h (if_pos hb) hp hfree
    refine ⟨v', fd, h1, h2, ?_, h4⟩
    rwa [hb]
  · obtain ⟨fd', h1, h2⟩ := Backed.openStripe_cached (k := k) h ⟨hb, hlt⟩ p
    refine ⟨v, fd', h1, h2, ?_, fun _ _ => rfl⟩
    rw [← present_of_ne hb, Function.update_eq_self]
    refine Backed.congr h fun b' => ⟨Or.inr, ?_⟩
    rintro (rfl | hb')
    · exact ⟨hb, hlt⟩
    · exact hb'

/-- **A batch is added at the end of its stripe**, on a primary and on a backup alike. -/
theorem Stores.storeBatch (h : Stores k f v) (hlt : (f b).length < k.stripeUnitSize) {p : Opens}
    (hp : p.wr = some fd) (hfree : v.files.fds fd = none) {buf : Mem} (hm : Numbered buf 0 es)
    (hs : ∀ e ∈ es, e.Sized) (hf : ∀ e ∈ es, e.flags ≠ 0) (hne : es ≠ []) :
    Stores k (Function.update f b (f b ++ es)) (storeBatch k v b buf p) := by
  obtain ⟨v', fd', h1, h2, h3, -⟩ := h.openStripe hlt hp hfree
  have h4 := h3.addEntries (Or.inl rfl) (Function.update_self _ _ _) h2 hm hs hf
  rw [Function.update_idem, present_update (by simp [hne])] at h4
  have hadd : addToEntryCache k v b buf p = addEntries v' b fd' buf := by
    unfold addToEntryCache
    rw [h1]
  have hlen : ((addEntries v' b fd' buf).entriesCacheSet b).getD [] = f b ++ es := by
    rw [h4.cache, present_of_ne (by simp [hne])]
    simp
  unfold ShardServer.storeBatch
  rw [hadd]
  simp only [hlen]
  split_ifs with hfull
  · refine Backed.congr (h4.close (Or.inl rfl)) fun b' => ?_
    rcases eq_or_ne b' b with rfl | hb'
    · simp only [Function.update_self, ne_eq, not_true_eq_false, false_and, false_iff, not_and, not_lt]
      exact fun _ => hfull
    · simp [hb']
  · refine Backed.congr h4 fun b' => ?_
    rcases eq_or_ne b' b with rfl | hb'
    · simp only [Function.update_self, true_or, true_iff]
      exact ⟨by simp [hne], by omega⟩
    · simp [hb']

theorem Stores.storeBatch_data (h : Stores k f v) (hlt : (f b).length < k.stripeUnitSize) {p : Opens}
    (hp : p.wr = some fd) (hfree : v.files.fds fd = none) (buf : Mem) {b' : ℕ} (hne : b' ≠ b) :
    (ShardServer.storeBatch k v b buf p).files.data b' = v.files.data b' := by
  obtain ⟨v', fd', h1, h2, h3, h4⟩ := h.openStripe hlt hp hfree
  have hwrite : (addToEntryCache k v b buf p).files.data b' = v.files.data b' := by
    unfold addToEntryCache
    rw [h1, ← h4 b' hne]
    refine Files.write_data_of_ne (fun d hd _ hname => hne ?_) _
    obtain ⟨es, fd'', -, hfd'', hd''⟩ := h3.opened b (Or.inl rfl)
    rw [h2] at hfd''
    cases hfd''
    rw [hd] at hd''
    cases hd''
    exact hname.symm
  unfold ShardServer.storeBatch writeFromCacheToDisk
  simp only
  split_ifs
  · split <;> exact hwrite
  · exact hwrite

theorem loadFromDiskToCache_indices (k : Striping) (v : Server) (b rd : ℕ) :
    (loadFromDiskToCache k v b rd).1.replicatedIndex = v.replicatedIndex ∧
      (loadFromDiskToCache k v b rd).1.globalIndex = v.globalIndex := by
  unfold loadFromDiskToCache
  split
  · exact ⟨rfl, rfl⟩
  · split_ifs <;> exact ⟨rfl, rfl⟩

theorem storeBatch_indices (k : Striping) (v : Server) (b : ℕ) (buf : Mem) (p : Opens) :
    (storeBatch k v b buf p).replicatedIndex = v.replicatedIndex ∧
      (storeBatch k v b buf p).globalIndex = v.globalIndex := by
  have hload := loadFromDiskToCache_indices k v b p.rd
  have hopen : (openStripe k v b p).1.replicatedIndex = v.replicatedIndex ∧
      (openStripe k v b p).1.globalIndex = v.globalIndex := by
    unfold openStripe
    split
    · exact ⟨rfl, rfl⟩
    · split
      · next heq => rw [heq] at hload; exact hload
      · next heq =>
        rw [heq] at hload
        split <;> exact hload
  have hadd : (addToEntryCache k v b buf p).replicatedIndex = v.replicatedIndex ∧
      (addToEntryCache k v b buf p).globalIndex = v.globalIndex := by
    unfold addToEntryCache
    split
    · next heq => rw [heq] at hopen; exact hopen
    · next heq => rw [heq] at hopen; exact hopen
  unfold ShardServer.storeBatch writeFromCacheToDisk
  simp only
  split_ifs
  · split <;> exact hadd
  · exact hadd

theorem Stores.setReplicatedIndex (h : Stores k f v) (b : ℕ) : Stores k f (setReplicatedIndex v b) :=
  ⟨h.cache, h.missing, h.file, h.opened, h.only⟩

theorem Stores.updateGlobalIdx (h : Stores k f v) (idx : UInt64) : Stores k f (updateGlobalIdx v idx) :=
  ⟨h.cache, h.missing, h.file, h.opened, h.only⟩

theorem stores_empty : Stores k (fun _ => []) Server.empty :=
  ⟨rfl, fun _ _ => rfl, fun b es h => by simp [present] at h, fun b h => absurd rfl h.1,
    fun fd d h => by cases h⟩

/-- A reader finds nothing on disk that is not in the cache. -/
theorem Stores.readLoad (h : Stores k f v) (b rd : ℕ) : readLoad k v b rd = v := by
  unfold ShardServer.readLoad
  cases hc : v.entriesCacheSet b with
  | some es => rfl
  | none =>
    rw [h.cache] at hc
    unfold loadFromDiskToCache
    rw [h.missing b hc]

theorem Stores.closed_iff (h : Stores k f v) (hb : f b ≠ []) :
    v.files.Closed b ↔ k.stripeUnitSize ≤ (f b).length := by
  constructor
  · intro hc
    by_contra hlt
    obtain ⟨es, fd, -, -, hd⟩ := h.opened b ⟨hb, not_le.mp hlt⟩
    exact hc fd _ hd rfl
  · rintro hle fd d hd rfl
    exact absurd (h.only fd d hd).1.2 (not_lt.mpr hle)

/-- **What a read returns.** -/
theorem Stores.readEntry_eq_some (h : Stores k f v) {idx : UInt64} {resp : Mem} {r : Mem × ℕ} :
    readEntry k v idx resp = some r ↔
      ∃ e, (f (k.base idx.toNat))[(idx.toNat - k.base idx.toNat) / k.shardNum]? = some e ∧
        idx.toNat ≤ v.replicatedIndex.toNat ∧ idx.toNat ≤ v.globalIndex.toNat ∧
        serializer e resp 0 = r := by
  unfold readEntry
  simp only [h.cache, UInt64.lt_iff_toNat_lt]
  generalize (idx.toNat - k.base idx.toNat) / k.shardNum = j
  by_cases hb : f (k.base idx.toNat) = []
  · simp [present, hb]
  · simp only [present_of_ne hb]
    split_ifs with hc
    · constructor
      · rintro ⟨⟩
      · rintro ⟨e, he, h1, h2, -⟩
        have := (List.getElem?_eq_some_iff.mp he).1
        omega
    · have hlt : j < (f (k.base idx.toNat)).length := by omega
      rw [List.getD_eq_getElem _ _ hlt, List.getElem?_eq_getElem hlt]
      constructor
      · rintro ⟨⟩
        exact ⟨_, rfl, by omega, by omega, rfl⟩
      · rintro ⟨e, he, -, -, rfl⟩
        cases he
        rfl

end LazyLog.Storage.ShardServer
