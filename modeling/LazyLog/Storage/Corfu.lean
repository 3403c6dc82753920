import Mathlib.Data.Fintype.Card
import LazyLog.Lib.Run
import LazyLog.Lib.Threads
import LazyLog.Storage.NaiveBackend

/-! # Appends to a shard server in the `CORFU` build

Each thread of the server handles `AppendEntry` by itself. It looks for the descriptor of the stripe under the
shared lock, and if it finds none again under the exclusive lock, where it creates the file; it writes the entry to
its place in the file and counts it, and the one that finds the count at the size of the stripe closes the file.

Of two handlers that both miss the descriptor under the shared lock, the second finds it under the exclusive lock,
but does not take it: its descriptor stays zero. As long as this does not happen, every entry that has been written
is in the file of its stripe (`Lossless`). -/

namespace LazyLog.Storage.Corfu

open LazyLog.Lib LazyLog.Lib.Bytes LazyLog.Lib.Disk LazyLog.Lib.Run LazyLog.Rpc.Entry
open LazyLog.Lib.Threads (pc_put)
open LazyLog.Storage.ShardServer (Striping oneShard)
open LazyLog.Storage.NaiveBackend (shardStripes_pos)

/-! ### The handler -/

/-- The static fields of `ShardServer` that the handler uses, and the files: the data file of a stripe, by its
`base_idx`, or another one. `cache_size_atomic_` is read with `operator[]` only. -/
structure Server where
  entriesFdSet : ℕ → Option ℕ
  cacheSizeAtomic : ℕ → ℕ
  entrySize : ℕ
  files : Files (Option ℕ)

/-- `base_idx` of a request. -/
def baseIdx (k : Striping) (buf : Mem) : ℕ := k.base (deserializer default buf 0).1.logIdx.toNat

/-- `local_idx` of a request. -/
def localIdx (k : Striping) (buf : Mem) : ℕ :=
  ((deserializer default buf 0).1.logIdx.toNat - baseIdx k buf) / k.shardNum

/-- The file of a stripe is created, under the exclusive lock. -/
def createFile (v : Server) (base fd : ℕ) : Server :=
  { v with
    cacheSizeAtomic := Function.update v.cacheSizeAtomic base 0
    files := v.files.create (some base) fd
    entriesFdSet := Function.update v.entriesFdSet base (some fd) }

/-- The entry is written to its place, through the descriptor that the handler has. -/
def pwriteEntry (k : Striping) (v : Server) (buf : Mem) (fd : ℕ) : Server :=
  let entryLen := (deserializer default buf 0).2
  { v with files := v.files.pwrite fd (entryLen * localIdx k buf) (readBytes buf 0 entryLen) }

/-- The end of `addToEntryCacheAsync`. -/
def countEntry (k : Striping) (v : Server) (buf : Mem) : Server :=
  { v with
    entrySize := if v.entrySize = 0 then (deserializer default buf 0).2 else v.entrySize
    cacheSizeAtomic := Function.update v.cacheSizeAtomic (baseIdx k buf) (v.cacheSizeAtomic (baseIdx k buf) + 1) }

/-- `writeFromCacheToDisk`. -/
def writeFromCacheToDisk (v : Server) (base : ℕ) : Server :=
  match v.entriesFdSet base with
  | none => v
  | some fd =>
    { v with
      files := v.files.close fd
      entriesFdSet := Function.update v.entriesFdSet base none
      cacheSizeAtomic := Function.update v.cacheSizeAtomic base 0 }

/-- Where a handler is: before the check under the shared lock; past it, without a descriptor; before the `pwrite`,
the `fetch_add`, the `load`, and `writeFromCacheToDisk`. -/
inductive Pc
  | start
  | missed
  | write (fd : ℕ)
  | count
  | test
  | closing
  | responded

/-- The server, and its handlers. -/
abbrev Sys (ι : Type*) := Threads.Sys ι Server Pc

variable {ι : Type*}

/-- A server that has just been started: no data file is open. The files may be there. -/
structure Start (s : Sys ι) : Prop where
  fdSet : ∀ b, s.shared.entriesFdSet b = none
  counts : ∀ b, s.shared.cacheSizeAtomic b = 0
  closed : ∀ fd d, s.shared.files.fds fd = some d → d.name = none
  pc : ∀ i, s.pc i = .start

section Steps

variable [DecidableEq ι]

/-- A step of the handler `i`. It enters the exclusive section if `C` holds of the server and the stripe. -/
inductive Step (k : Striping) (bufs : ι → Mem) (C : Server → ℕ → Prop) (i : ι) : Sys ι → Sys ι → Prop
  | found {s : Sys ι} {fd : ℕ} (hpc : s.pc i = .start)
    (hfd : s.shared.entriesFdSet (baseIdx k (bufs i)) = some fd) :
    Step k bufs C i s (s.put i s.shared (.write fd))
  | missed {s : Sys ι} (hpc : s.pc i = .start) (hfd : s.shared.entriesFdSet (baseIdx k (bufs i)) = none) :
    Step k bufs C i s (s.put i s.shared .missed)
  | create {s : Sys ι} {fd : ℕ} (hpc : s.pc i = .missed) (hC : C s.shared (baseIdx k (bufs i)))
    (hfd : s.shared.entriesFdSet (baseIdx k (bufs i)) = none) (hfree : s.shared.files.fds fd = none) :
    Step k bufs C i s (s.put i (createFile s.shared (baseIdx k (bufs i)) fd) (.write fd))
  | created {s : Sys ι} {fd : ℕ} (hpc : s.pc i = .missed) (hC : C s.shared (baseIdx k (bufs i)))
    (hfd : s.shared.entriesFdSet (baseIdx k (bufs i)) = some fd) :
    Step k bufs C i s (s.put i s.shared (.write 0))
  | pwrite {s : Sys ι} {fd : ℕ} (hpc : s.pc i = .write fd) :
    Step k bufs C i s (s.put i (pwriteEntry k s.shared (bufs i) fd) .count)
  | fetchAdd {s : Sys ι} (hpc : s.pc i = .count) :
    Step k bufs C i s (s.put i (countEntry k s.shared (bufs i)) .test)
  | full {s : Sys ι} (hpc : s.pc i = .test)
    (hle : k.stripeUnitSize ≤ s.shared.cacheSizeAtomic (baseIdx k (bufs i))) :
    Step k bufs C i s (s.put i s.shared .closing)
  | notFull {s : Sys ι} (hpc : s.pc i = .test)
    (hlt : s.shared.cacheSizeAtomic (baseIdx k (bufs i)) < k.stripeUnitSize) :
    Step k bufs C i s (s.put i s.shared .responded)
  | close {s : Sys ι} (hpc : s.pc i = .closing) :
    Step k bufs C i s (s.put i (writeFromCacheToDisk s.shared (baseIdx k (bufs i))) .responded)

/-- The handlers interleaved. -/
def HandlerReach (k : Striping) (bufs : ι → Mem) (C : Server → ℕ → Prop) : Sys ι → Prop :=
  Reach Start fun s s' => ∃ i, Step k bufs C i s s'

theorem Step.mono {k : Striping} {bufs : ι → Mem} {C C' : Server → ℕ → Prop} {i : ι} {s s' : Sys ι}
    (hC : ∀ v b, C v b → C' v b) (h : Step k bufs C i s s') : Step k bufs C' i s s' := by
  rcases h with ⟨hpc, hfd⟩ | ⟨hpc, hfd⟩ | ⟨hpc, hc, hfd, hfree⟩ | ⟨hpc, hc, hfd⟩ | hpc | hpc | ⟨hpc, hle⟩ |
    ⟨hpc, hlt⟩ | hpc
  · exact .found hpc hfd
  · exact .missed hpc hfd
  · exact .create hpc (hC _ _ hc) hfd hfree
  · exact .created hpc (hC _ _ hc) hfd
  · exact .pwrite hpc
  · exact .fetchAdd hpc
  · exact .full hpc hle
  · exact .notFull hpc hlt
  · exact .close hpc

end Steps

/-- The stripe of an entry. -/
def stripe (k : Striping) (e : LogEntry) : ℕ := k.base e.logIdx.toNat

/-- The place of an entry in its stripe. -/
def place (k : Striping) (e : LogEntry) : ℕ := (e.logIdx.toNat - k.base e.logIdx.toNat) / k.shardNum

/-- The requests: entries `E` of one size and with different indices, all of the shard `sh`. -/
structure Requests (k : Striping) (sh sz : ℕ) (E : ι → LogEntry) (bufs : ι → Mem) : Prop where
  holds : ∀ i, Holds (bufs i) 0 (encode (E i))
  sized : ∀ i, (E i).Sized
  flagged : ∀ i, (E i).flags ≠ 0
  size : ∀ i, entrySize (E i) = sz
  shard : ∀ i, (E i).logIdx.toNat % k.shardNum = sh
  distinct : Function.Injective fun i => (E i).logIdx

/-- The `pwrite` of the handler is done. -/
def Pc.Written : Pc → Prop
  | .start | .missed | .write _ => False
  | .count | .test | .closing | .responded => True

/-- **Nothing is lost**: an entry that has been written is in the file of its stripe, at its place, and a handler
that is about to write has the descriptor of that file. -/
structure Lossless (k : Striping) (sz : ℕ) (E : ι → LogEntry) (s : Sys ι) : Prop where
  stored : ∀ i, (s.pc i).Written → ∃ bytes, s.shared.files.data (some (stripe k (E i))) = some bytes ∧
    sz * place k (E i) + sz ≤ bytes.length ∧
    Holds (fun x => bytes.getD x 0) (sz * place k (E i)) (encode (E i))
  directed : ∀ i fd, s.pc i = .write fd → ∃ d, s.shared.files.fds fd = some d ∧ d.name = some (stripe k (E i))

/-! ### Requests and places -/

variable {k : Striping} {sh sz : ℕ} {E : ι → LogEntry} {bufs : ι → Mem} {i j : ι} {s s' : Sys ι} {b fd : ℕ}

section Decoded

variable {buf : Mem} {e : LogEntry} {n : ℕ}

theorem baseIdx_eq (hd : deserializer default buf 0 = (e, n)) : baseIdx k buf = stripe k e := by
  unfold baseIdx
  rw [hd]
  rfl

theorem localIdx_eq (hd : deserializer default buf 0 = (e, n)) : localIdx k buf = place k e := by
  unfold localIdx
  rw [hd, baseIdx_eq hd]
  rfl

theorem files_pwriteEntry (hd : deserializer default buf 0 = (e, n)) {v : Server} {offset : ℕ} {bytes : List UInt8}
    (hdesc : v.files.fds fd = some ⟨some b, true, offset⟩) (hdata : v.files.data (some b) = some bytes) :
    (pwriteEntry k v buf fd).files =
      { v.files with
        data := Function.update v.files.data (some b)
          (some (overwrite bytes (n * place k e) (readBytes buf 0 n))) } := by
  unfold pwriteEntry
  rw [hd, localIdx_eq hd]
  exact Files.pwrite_eq hdesc hdata _ _

end Decoded

theorem Requests.deserializer_eq (h : Requests k sh sz E bufs) (i : ι) :
    deserializer default (bufs i) 0 = (E i, sz) := by
  rw [deserializer_of_holds default (h.holds i) (h.sized i) (h.flagged i), h.size i]

theorem Requests.baseIdx_eq (h : Requests k sh sz E bufs) (i : ι) : baseIdx k (bufs i) = stripe k (E i) :=
  Corfu.baseIdx_eq (h.deserializer_eq i)

/-- A stripe of a shard has one index for each place. -/
theorem logIdx_eq_of_place {e e' : LogEntry} (hsh : e.logIdx.toNat % k.shardNum = e'.logIdx.toNat % k.shardNum)
    (hb : stripe k e = stripe k e') (hp : place k e = place k e') : e.logIdx = e'.logIdx := by
  have h1 := shardStripes_pos k e.logIdx.toNat
  have h2 := shardStripes_pos k e'.logIdx.toNat
  unfold stripe at hb
  unfold place at hp
  rw [hb] at h1 hp
  rw [hp, hsh] at h1
  exact UInt64.toNat_inj.mp (h1.symm.trans h2)

theorem Requests.place_ne (h : Requests k sh sz E bufs) (hne : i ≠ j) (hb : stripe k (E i) = stripe k (E j)) :
    place k (E i) ≠ place k (E j) := by
  intro hp
  have hsh := (h.shard i).trans (h.shard j).symm
  exact hne (h.distinct (logIdx_eq_of_place hsh hb hp))

theorem place_lt (k : Striping) (e : LogEntry) : place k e < k.stripeUnitSize := by
  unfold place
  rw [Nat.div_lt_iff_lt_mul k.shard_pos]
  have h1 := k.base_le e.logIdx.toNat
  have h2 := k.lt_base_add e.logIdx.toNat
  unfold Striping.big at h2
  omega

/-- The handler has counted its entry. -/
def Pc.Counted : Pc → Prop
  | .start | .missed | .write _ | .count => False
  | .test | .closing | .responded => True

instance : DecidablePred Pc.Counted := fun pc => by
  cases pc <;> unfold Pc.Counted <;> infer_instance

theorem Pc.Counted.written {pc : Pc} (h : pc.Counted) : pc.Written := by
  cases pc
  all_goals first | exact h | trivial

variable [Fintype ι]

/-- The handlers that have counted an entry of the stripe. -/
def counted (k : Striping) (E : ι → LogEntry) (s : Sys ι) (b : ℕ) : Finset ι :=
  Finset.univ.filter fun i => stripe k (E i) = b ∧ (s.pc i).Counted

theorem mem_counted : i ∈ counted k E s b ↔ stripe k (E i) = b ∧ (s.pc i).Counted := by
  unfold counted
  rw [Finset.mem_filter, and_iff_right (Finset.mem_univ i)]

/-- **The count is at the size of the stripe** only when every handler of the stripe has counted. -/
theorem Requests.all_counted (h : Requests k sh sz E bufs) (hle : k.stripeUnitSize ≤ (counted k E s b).card)
    (hi : stripe k (E i) = b) : (s.pc i).Counted := by
  have hsub : counted k E s b ⊆ Finset.univ.filter fun i => stripe k (E i) = b := by
    intro j hj
    exact Finset.mem_filter.mpr ⟨Finset.mem_univ _, (mem_counted.mp hj).1⟩
  have hcard : (Finset.univ.filter fun i => stripe k (E i) = b).card ≤ k.stripeUnitSize := by
    rw [← Finset.card_range k.stripeUnitSize]
    refine Finset.card_le_card_of_injOn (fun i => place k (E i)) (fun i _ => ?_) fun i hi j hj hp => ?_
    · exact Finset.mem_coe.mpr (Finset.mem_range.mpr (place_lt k (E i)))
    · by_contra hne
      have hi' := (Finset.mem_filter.mp (Finset.mem_coe.mp hi)).2
      have hj' := (Finset.mem_filter.mp (Finset.mem_coe.mp hj)).2
      exact h.place_ne hne (hi'.trans hj'.symm) hp
  have heq := Finset.eq_of_subset_of_card_le hsub (hcard.trans hle)
  have hmem : i ∈ counted k E s b := by
    rw [heq]
    exact Finset.mem_filter.mpr ⟨Finset.mem_univ _, hi⟩
  exact (mem_counted.mp hmem).2

/-! ### The phases of a stripe -/

/-- What has been written of a stripe is in its file. -/
def Stored (k : Striping) (sz : ℕ) (E : ι → LogEntry) (s : Sys ι) (b : ℕ) : Prop :=
  ∀ i, stripe k (E i) = b → (s.pc i).Written → ∃ bytes, s.shared.files.data (some b) = some bytes ∧
    sz * place k (E i) + sz ≤ bytes.length ∧
    Holds (fun x => bytes.getD x 0) (sz * place k (E i)) (encode (E i))

/-- **The phases of a stripe**, in the runs in which no handler finds a descriptor under the exclusive lock: no
handler is past the creation of the file; the file is open; every handler has counted and the file is closed. -/
inductive Phase (k : Striping) (E : ι → LogEntry) (s : Sys ι) (b : ℕ) : Prop
  | fresh (hfd : s.shared.entriesFdSet b = none) (hcount : s.shared.cacheSizeAtomic b = 0)
    (hpc : ∀ i, stripe k (E i) = b → s.pc i = .start ∨ s.pc i = .missed)
  | opened {fd offset : ℕ} {bytes : List UInt8} (hfd : s.shared.entriesFdSet b = some fd)
    (hdesc : s.shared.files.fds fd = some ⟨some b, true, offset⟩)
    (hdata : s.shared.files.data (some b) = some bytes)
    (hcount : s.shared.cacheSizeAtomic b = (counted k E s b).card)
    (hwrite : ∀ i fd', stripe k (E i) = b → s.pc i = .write fd' → fd' = fd)
    (hclosing : ∀ i j, stripe k (E i) = b → stripe k (E j) = b → s.pc i = .closing → (s.pc j).Counted)
  | closed (hfd : s.shared.entriesFdSet b = none) (hcount : s.shared.cacheSizeAtomic b = 0)
    (hpc : ∀ i, stripe k (E i) = b → (s.pc i).Counted)

/-- **The invariant.** -/
def Inv (k : Striping) (sz : ℕ) (E : ι → LogEntry) (s : Sys ι) : Prop := ∀ b, Stored k sz E s b ∧ Phase k E s b

theorem Phase.of_write (h : Phase k E s (stripe k (E i))) (hpc : s.pc i = .write fd) :
    s.shared.entriesFdSet (stripe k (E i)) = some fd ∧
      (∃ offset, s.shared.files.fds fd = some ⟨some (stripe k (E i)), true, offset⟩) ∧
      ∃ bytes, s.shared.files.data (some (stripe k (E i))) = some bytes := by
  rcases h with ⟨-, -, hall⟩ | ⟨hfd, hdesc, hdata, -, hwrite, -⟩ | ⟨-, -, hall⟩
  · have hi := hall i rfl
    rw [hpc] at hi
    rcases hi with hi | hi <;> cases hi
  · rw [hwrite i fd rfl hpc]
    exact ⟨hfd, ⟨_, hdesc⟩, ⟨_, hdata⟩⟩
  · have hi := hall i rfl
    rw [hpc] at hi
    exact hi.elim

/-- A stripe without a descriptor whose handlers have not all counted: none is past the creation of the file. -/
theorem Phase.of_none (h : Phase k E s (stripe k (E i))) (hnone : s.shared.entriesFdSet (stripe k (E i)) = none)
    (hn : ¬(s.pc i).Counted) : s.shared.cacheSizeAtomic (stripe k (E i)) = 0 ∧
      ∀ j, stripe k (E j) = stripe k (E i) → s.pc j = .start ∨ s.pc j = .missed := by
  rcases h with ⟨-, hcount, hall⟩ | ⟨hfd, -, -, -, -, -⟩ | ⟨-, -, hall⟩
  · exact ⟨hcount, hall⟩
  · cases hnone.symm.trans hfd
  · exact absurd (hall i rfl) hn

theorem Phase.data_of_some (h : Phase k E s b) (hsome : s.shared.entriesFdSet b = some fd) :
    ∃ bytes, s.shared.files.data (some b) = some bytes := by
  rcases h with ⟨hfd, -, -⟩ | ⟨-, -, hdata, -, -, -⟩ | ⟨hfd, -, -⟩
  · cases hsome.symm.trans hfd
  · exact ⟨_, hdata⟩
  · cases hsome.symm.trans hfd

theorem Inv.lossless (h : Inv k sz E s) : Lossless k sz E s := by
  constructor
  · exact fun i hw => (h _).1 i rfl hw
  · intro i fd hpc
    obtain ⟨-, ⟨offset, hd⟩, -⟩ := (h _).2.of_write hpc
    exact ⟨_, hd, rfl⟩

theorem inv_of_start (h : Start s) : Inv k sz E s := by
  intro b
  constructor
  · intro i _ hw
    rw [h.pc i] at hw
    exact hw.elim
  · exact .fresh (h.fdSet b) (h.counts b) fun i _ => Or.inl (h.pc i)

/-! ### One handler moves -/

variable [DecidableEq ι] {v : Server} {pc : Pc}

omit [Fintype ι] in
theorem pc_put_of_stripe_ne (hj : stripe k (E j) = b) (hb : b ≠ stripe k (E i)) :
    (s.put i v pc).pc j = s.pc j := by
  rw [pc_put, if_neg]
  rintro rfl
  exact hb hj.symm

theorem counted_put (hc : pc.Counted ↔ (s.pc i).Counted) (b : ℕ) :
    counted k E (s.put i v pc) b = counted k E s b := by
  ext j
  rw [mem_counted, mem_counted, pc_put]
  split_ifs with hji
  · rw [hji, hc]
  · rfl

theorem counted_put_of_ne (hb : b ≠ stripe k (E i)) : counted k E (s.put i v pc) b = counted k E s b := by
  ext j
  rw [mem_counted, mem_counted]
  refine and_congr_right fun hj => ?_
  rw [pc_put_of_stripe_ne hj hb]

theorem card_counted_put (hc : pc.Counted) (hn : ¬(s.pc i).Counted) :
    (counted k E (s.put i v pc) (stripe k (E i))).card = (counted k E s (stripe k (E i))).card + 1 := by
  have heq : counted k E (s.put i v pc) (stripe k (E i)) = insert i (counted k E s (stripe k (E i))) := by
    ext j
    rw [mem_counted, Finset.mem_insert, mem_counted, pc_put]
    split_ifs with hji
    · rw [hji]
      exact ⟨fun _ => Or.inl rfl, fun _ => ⟨rfl, hc⟩⟩
    · exact ⟨Or.inr, fun hj => hj.resolve_left hji⟩
  rw [heq, Finset.card_insert_of_notMem]
  exact fun hmem => hn (mem_counted.mp hmem).2

/-- The server is as before on a stripe. -/
structure SameOn (v v' : Server) (b : ℕ) : Prop where
  fdSet : v'.entriesFdSet b = v.entriesFdSet b
  count : v'.cacheSizeAtomic b = v.cacheSizeAtomic b
  data : v'.files.data (some b) = v.files.data (some b)
  desc : ∀ fd offset, v.files.fds fd = some ⟨some b, true, offset⟩ → v'.files.fds fd = v.files.fds fd

theorem SameOn.rfl (v : Server) (b : ℕ) : SameOn v v b := ⟨Eq.refl _, Eq.refl _, Eq.refl _, fun _ _ _ => Eq.refl _⟩

theorem SameOn.trans {v v' v'' : Server} (h : SameOn v v' b) (h' : SameOn v' v'' b) : SameOn v v'' b := by
  refine ⟨h'.fdSet.trans h.fdSet, h'.count.trans h.count, h'.data.trans h.data, fun fd offset hd => ?_⟩
  have hd' := h.desc fd offset hd
  exact (h'.desc fd offset (hd'.trans hd)).trans hd'

theorem writeFromCacheToDisk_eq (hfd : v.entriesFdSet b = some fd) : writeFromCacheToDisk v b =
    { v with
      files := v.files.close fd
      entriesFdSet := Function.update v.entriesFdSet b none
      cacheSizeAtomic := Function.update v.cacheSizeAtomic b 0 } := by
  unfold writeFromCacheToDisk
  rw [hfd]

section Others

variable {b' : ℕ} (hb : b ≠ b')
include hb

theorem sameOn_createFile (hfree : v.files.fds fd = none) : SameOn v (createFile v b' fd) b := by
  refine ⟨Function.update_of_ne hb _ _, Function.update_of_ne hb _ _, ?_, fun fd' offset hd => ?_⟩
  · exact Function.update_of_ne (fun heq => hb (Option.some.inj heq)) _ _
  · refine Function.update_of_ne ?_ _ _
    rintro rfl
    rw [hfree] at hd
    cases hd

theorem sameOn_pwriteEntry {buf : Mem} {e : LogEntry} {n offset : ℕ} {bytes : List UInt8}
    (hd : deserializer default buf 0 = (e, n)) (hdesc : v.files.fds fd = some ⟨some b', true, offset⟩)
    (hdata : v.files.data (some b') = some bytes) : SameOn v (pwriteEntry k v buf fd) b := by
  have hv := files_pwriteEntry (k := k) hd hdesc hdata
  refine ⟨rfl, rfl, ?_, fun fd' _ _ => by rw [hv]⟩
  rw [hv]
  exact Function.update_of_ne (fun heq => hb (Option.some.inj heq)) _ _

theorem sameOn_countEntry {buf : Mem} (hbase : baseIdx k buf = b') : SameOn v (countEntry k v buf) b := by
  refine ⟨rfl, ?_, rfl, fun _ _ _ => rfl⟩
  unfold countEntry
  rw [hbase]
  exact Function.update_of_ne hb _ _

theorem sameOn_writeFromCacheToDisk {offset : ℕ} (hfd : v.entriesFdSet b' = some fd)
    (hdesc : v.files.fds fd = some ⟨some b', true, offset⟩) : SameOn v (writeFromCacheToDisk v b') b := by
  rw [writeFromCacheToDisk_eq hfd]
  refine ⟨Function.update_of_ne hb _ _, Function.update_of_ne hb _ _, rfl, fun fd' offset hd => ?_⟩
  refine Function.update_of_ne ?_ _ _
  rintro rfl
  rw [hdesc] at hd
  cases hd
  exact hb rfl

end Others

omit [Fintype ι] in
theorem Stored.frame (h : Stored k sz E s b) (hb : b ≠ stripe k (E i)) (hv : SameOn s.shared v b) :
    Stored k sz E (s.put i v pc) b := by
  intro j hj hw
  rw [pc_put_of_stripe_ne hj hb] at hw
  obtain ⟨bytes, hdata, hlen, hholds⟩ := h j hj hw
  exact ⟨bytes, hv.data.trans hdata, hlen, hholds⟩

/-- **Frame.** A step of a handler of one stripe leaves the phase of the others. -/
theorem Phase.frame (h : Phase k E s b) (hb : b ≠ stripe k (E i)) (hv : SameOn s.shared v b) :
    Phase k E (s.put i v pc) b := by
  rcases h with ⟨hfd, hcount, hall⟩ | ⟨hfd, hdesc, hdata, hcount, hwrite, hclosing⟩ | ⟨hfd, hcount, hall⟩
  · refine .fresh (hv.fdSet.trans hfd) (hv.count.trans hcount) fun j hj => ?_
    rw [pc_put_of_stripe_ne hj hb]
    exact hall j hj
  · refine .opened (hv.fdSet.trans hfd) ((hv.desc _ _ hdesc).trans hdesc) (hv.data.trans hdata) ?_ ?_ ?_
    · rw [counted_put_of_ne hb]
      exact hv.count.trans hcount
    · intro j fd' hj
      rw [pc_put_of_stripe_ne hj hb]
      exact hwrite j fd' hj
    · intro j j' hj hj'
      rw [pc_put_of_stripe_ne hj hb, pc_put_of_stripe_ne hj' hb]
      exact hclosing j j' hj hj'
  · refine .closed (hv.fdSet.trans hfd) (hv.count.trans hcount) fun j hj => ?_
    rw [pc_put_of_stripe_ne hj hb]
    exact hall j hj

theorem Inv.put (h : Inv k sz E s) (hv : ∀ b, b ≠ stripe k (E i) → SameOn s.shared v b)
    (hstored : Stored k sz E (s.put i v pc) (stripe k (E i)))
    (hphase : Phase k E (s.put i v pc) (stripe k (E i))) : Inv k sz E (s.put i v pc) := by
  intro b
  by_cases hb : b = stripe k (E i)
  · rw [hb]
    exact ⟨hstored, hphase⟩
  · exact ⟨(h b).1.frame hb (hv b hb), (h b).2.frame hb (hv b hb)⟩

omit [Fintype ι] in
theorem Stored.put (h : Stored k sz E s b) (hw : pc.Written → (s.pc i).Written)
    (hdata : v.files.data = s.shared.files.data) : Stored k sz E (s.put i v pc) b := by
  intro j hj hwj
  rw [pc_put] at hwj
  have hold : (s.pc j).Written := by
    split_ifs at hwj with hji
    · rw [hji]
      exact hw hwj
    · exact hwj
  obtain ⟨bytes, hbytes, hlen, hholds⟩ := h j hj hold
  exact ⟨bytes, (congrFun hdata _).trans hbytes, hlen, hholds⟩

/-! ### The steps -/

theorem Phase.move (h : Phase k E s (stripe k (E i))) (hsome : s.shared.entriesFdSet (stripe k (E i)) = some fd)
    (hn : ¬(s.pc i).Counted) (hpc : pc ≠ .closing) (hwr : ∀ fd', pc = .write fd' → fd' = fd)
    (hset : v.entriesFdSet = s.shared.entriesFdSet) (hfds : v.files.fds = s.shared.files.fds)
    (hfile : ∃ bytes, v.files.data (some (stripe k (E i))) = some bytes)
    (hnum : s.shared.cacheSizeAtomic (stripe k (E i)) = (counted k E s (stripe k (E i))).card →
      v.cacheSizeAtomic (stripe k (E i)) = (counted k E (s.put i v pc) (stripe k (E i))).card) :
    Phase k E (s.put i v pc) (stripe k (E i)) := by
  rcases h with ⟨hfd, -, -⟩ | ⟨hfd, hdesc, -, hcount, hwrite, hclosing⟩ | ⟨hfd, -, -⟩
  · rw [hsome] at hfd
    cases hfd
  · cases hsome.symm.trans hfd
    obtain ⟨bytes, hbytes⟩ := hfile
    refine .opened ((congrFun hset _).trans hfd) ((congrFun hfds _).trans hdesc) hbytes (hnum hcount) ?_ ?_
    · intro j fd' hj
      rw [pc_put]
      split_ifs with hji
      · exact hwr fd'
      · exact hwrite j fd' hj
    · intro j j' hj hj' hcl
      rw [pc_put] at hcl
      split_ifs at hcl with hji
      · exact absurd hcl hpc
      -- no handler closes the file before this one has counted
      · exact absurd (hclosing j i hj rfl hcl) hn
  · rw [hsome] at hfd
    cases hfd

omit [Fintype ι] [DecidableEq ι] in
theorem disjoint_places {a b : ℕ} (hab : a ≠ b) (sz : ℕ) : sz * a + sz ≤ sz * b ∨ sz * b + sz ≤ sz * a := by
  rcases Nat.lt_or_gt_of_ne hab with hlt | hlt
  · exact Or.inl (by rw [← Nat.mul_succ]; exact Nat.mul_le_mul_left sz hlt)
  · exact Or.inr (by rw [← Nat.mul_succ]; exact Nat.mul_le_mul_left sz hlt)

omit [Fintype ι] in
/-- **The write** puts the entry to its place, and leaves the others where they are. -/
theorem Requests.stored_pwrite (h : Requests k sh sz E bufs) (hst : Stored k sz E s (stripe k (E i)))
    {bytes : List UInt8} (hold : s.shared.files.data (some (stripe k (E i))) = some bytes)
    (hnew : v.files.data (some (stripe k (E i))) =
      some (overwrite bytes (sz * place k (E i)) (readBytes (bufs i) 0 sz))) :
    Stored k sz E (s.put i v .count) (stripe k (E i)) := by
  intro j hj hw
  refine ⟨_, hnew, ?_⟩
  rw [length_overwrite, length_readBytes]
  have hsize : (encode (E j)).length ≤ sz := (length_encode_le (E j)).trans_eq (h.size j)
  by_cases hji : j = i
  · subst hji
    exact ⟨le_max_right _ _, (holds_overwrite _ _ _).of_readBytes (h.holds j) hsize⟩
  · rw [pc_put, if_neg hji] at hw
    obtain ⟨bytes', hbytes', hlen, hholds⟩ := hst j hj hw
    cases hold.symm.trans hbytes'
    refine ⟨hlen.trans (le_max_left _ _), holds_overwrite_of_disjoint hholds ?_⟩
    have hdis := disjoint_places (h.place_ne hji hj) sz
    rw [length_readBytes]
    omega

theorem Inv.found (h : Inv k sz E s) (hpc : s.pc i = .start)
    (hfd : s.shared.entriesFdSet (stripe k (E i)) = some fd) : Inv k sz E (s.put i s.shared (.write fd)) := by
  have hn : ¬(s.pc i).Counted := by rw [hpc]; exact id
  refine h.put (fun b _ => .rfl _ b) ((h _).1.put False.elim rfl) ?_
  refine (h _).2.move hfd hn Pc.noConfusion (fun fd' heq => ?_) rfl rfl ?_ fun hnum => ?_
  · cases heq
    rfl
  · exact (h _).2.data_of_some hfd
  · rw [counted_put (iff_of_false id hn)]
    exact hnum

theorem Inv.missed (h : Inv k sz E s) (hpc : s.pc i = .start)
    (hfd : s.shared.entriesFdSet (stripe k (E i)) = none) : Inv k sz E (s.put i s.shared .missed) := by
  refine h.put (fun b _ => .rfl _ b) ((h _).1.put False.elim rfl) ?_
  obtain ⟨hcount, hall⟩ := (h _).2.of_none (i := i) hfd (by rw [hpc]; exact id)
  refine .fresh hfd hcount fun j hj => ?_
  rw [pc_put]
  split_ifs with hji
  · exact Or.inr rfl
  · exact hall j hj

theorem Inv.create (h : Inv k sz E s) (hpc : s.pc i = .missed)
    (hfd : s.shared.entriesFdSet (stripe k (E i)) = none) (hfree : s.shared.files.fds fd = none) :
    Inv k sz E (s.put i (createFile s.shared (stripe k (E i)) fd) (.write fd)) := by
  obtain ⟨hcount, hall⟩ := (h _).2.of_none (i := i) hfd (by rw [hpc]; exact id)
  have hpcs : ∀ j, stripe k (E j) = stripe k (E i) →
      ¬((s.put i (createFile s.shared (stripe k (E i)) fd) (.write fd)).pc j).Written := by
    intro j hj
    rw [pc_put]
    split_ifs with hji
    · exact id
    · rcases hall j hj with hp | hp <;> rw [hp] <;> exact id
  refine h.put (fun b hb => sameOn_createFile hb hfree) (fun j hj hw => absurd hw (hpcs j hj)) ?_
  refine .opened (Function.update_self ..) (Function.update_self ..) (Function.update_self ..) ?_ ?_ ?_
  · -- no handler of the stripe has counted
    rw [Finset.card_eq_zero.mpr]
    · exact Function.update_self ..
    · refine Finset.eq_empty_of_forall_notMem fun j hj => ?_
      obtain ⟨hj, hc⟩ := mem_counted.mp hj
      exact hpcs j hj hc.written
  · intro j fd' hj
    rw [pc_put]
    split_ifs with hji
    · intro heq
      cases heq
      rfl
    · rcases hall j hj with hp | hp <;> rw [hp] <;> exact Pc.noConfusion
  · intro j j' hj _ hcl
    refine absurd ?_ (hpcs j hj)
    rw [hcl]
    trivial

theorem Requests.inv_pwrite (hreq : Requests k sh sz E bufs) (h : Inv k sz E s) (hpc : s.pc i = .write fd) :
    Inv k sz E (s.put i (pwriteEntry k s.shared (bufs i) fd) .count) := by
  have hn : ¬(s.pc i).Counted := by rw [hpc]; exact id
  obtain ⟨hfd, ⟨offset, hdesc⟩, ⟨bytes, hdata⟩⟩ := (h _).2.of_write hpc
  have hd := hreq.deserializer_eq i
  have hv := files_pwriteEntry (k := k) hd hdesc hdata
  have hnew : (pwriteEntry k s.shared (bufs i) fd).files.data (some (stripe k (E i))) =
      some (overwrite bytes (sz * place k (E i)) (readBytes (bufs i) 0 sz)) := by
    rw [hv]
    exact Function.update_self ..
  refine h.put (fun b hb => sameOn_pwriteEntry hb hd hdesc hdata) (hreq.stored_pwrite (h _).1 hdata hnew) ?_
  refine (h _).2.move hfd hn Pc.noConfusion (fun _ => Pc.noConfusion) rfl ?_ ⟨_, hnew⟩ fun hnum => ?_
  · rw [hv]
  · rw [counted_put (iff_of_false id hn)]
    exact hnum

theorem Requests.inv_fetchAdd (hreq : Requests k sh sz E bufs) (h : Inv k sz E s) (hpc : s.pc i = .count) :
    Inv k sz E (s.put i (countEntry k s.shared (bufs i)) .test) := by
  have hn : ¬(s.pc i).Counted := by rw [hpc]; exact id
  have hbase := hreq.baseIdx_eq i
  refine h.put (fun b hb => sameOn_countEntry hb hbase) ((h _).1.put (fun _ => by rw [hpc]; trivial) rfl) ?_
  obtain ⟨fd, hfd⟩ : ∃ fd, s.shared.entriesFdSet (stripe k (E i)) = some fd := by
    by_contra hnone
    have hnone := Option.eq_none_iff_forall_ne_some.mpr fun fd hfd => hnone ⟨fd, hfd⟩
    rcases ((h _).2.of_none hnone hn).2 i rfl with hp | hp <;> cases hpc.symm.trans hp
  refine (h _).2.move hfd hn Pc.noConfusion (fun _ => Pc.noConfusion) rfl rfl ?_ fun hnum => ?_
  · exact (h _).2.data_of_some hfd
  · have hc : Pc.test.Counted := trivial
    rw [card_counted_put hc hn, ← hnum]
    unfold countEntry
    rw [hbase]
    exact Function.update_self ..

theorem Inv.move_counted (h : Inv k sz E s) (hc : (s.pc i).Counted) (hpc : pc.Counted)
    (hcl : pc = .closing → ∀ j, stripe k (E j) = stripe k (E i) → (s.pc j).Counted) :
    Inv k sz E (s.put i s.shared pc) := by
  have hput : ∀ j, (s.pc j).Counted → ((s.put i s.shared pc).pc j).Counted := by
    intro j hj
    rw [pc_put]
    split_ifs with hji
    · exact hpc
    · exact hj
  refine h.put (fun b _ => .rfl _ b) ((h _).1.put (fun _ => hc.written) rfl) ?_
  rcases (h _).2 with ⟨-, -, hall⟩ | ⟨hfd, hdesc, hdata, hcount, hwrite, hclosing⟩ | ⟨hfd, hcount, hall⟩
  · rcases hall i rfl with hp | hp <;> rw [hp] at hc <;> exact hc.elim
  · refine .opened hfd hdesc hdata ?_ ?_ ?_
    · rw [counted_put (iff_of_true hpc hc)]
      exact hcount
    · intro j fd' hj heq
      rw [pc_put] at heq
      split_ifs at heq with hji
      · rw [heq] at hpc
        exact hpc.elim
      · exact hwrite j fd' hj heq
    · intro j j' hj hj' heq
      rw [pc_put] at heq
      refine hput j' ?_
      split_ifs at heq with hji
      · exact hcl heq j' hj'
      · exact hclosing j j' hj hj' heq
  · exact .closed hfd hcount fun j hj => hput j (hall j hj)

theorem Requests.inv_full (hreq : Requests k sh sz E bufs) (h : Inv k sz E s) (hpc : s.pc i = .test)
    (hle : k.stripeUnitSize ≤ s.shared.cacheSizeAtomic (stripe k (E i))) :
    Inv k sz E (s.put i s.shared .closing) := by
  refine h.move_counted (by rw [hpc]; trivial) trivial fun _ j hj => ?_
  rcases (h _).2 with ⟨-, hcount, -⟩ | ⟨-, -, -, hcount, -, -⟩ | ⟨-, hcount, -⟩
  · exact absurd (hle.trans_eq hcount) (Nat.not_le.mpr k.stripe_pos)
  · exact hreq.all_counted (hle.trans_eq hcount) hj
  · exact absurd (hle.trans_eq hcount) (Nat.not_le.mpr k.stripe_pos)

theorem Inv.close (h : Inv k sz E s) (hpc : s.pc i = .closing) :
    Inv k sz E (s.put i (writeFromCacheToDisk s.shared (stripe k (E i))) .responded) := by
  have hc : (s.pc i).Counted := by rw [hpc]; trivial
  have hnone : s.shared.entriesFdSet (stripe k (E i)) = none →
      Inv k sz E (s.put i (writeFromCacheToDisk s.shared (stripe k (E i))) .responded) := by
    intro hfd
    unfold writeFromCacheToDisk
    rw [hfd]
    exact h.move_counted hc trivial Pc.noConfusion
  rcases (h _).2 with ⟨hfd, -, -⟩ | ⟨hfd, hdesc, -, -, -, hclosing⟩ | ⟨hfd, -, -⟩
  · exact hnone hfd
  · refine h.put (fun b hb => sameOn_writeFromCacheToDisk hb hfd hdesc) ((h _).1.put (fun _ => hc.written) ?_) ?_
    · rw [writeFromCacheToDisk_eq hfd]
      rfl
    · rw [writeFromCacheToDisk_eq hfd]
      refine .closed (Function.update_self ..) (Function.update_self ..) fun j hj => ?_
      rw [pc_put]
      split_ifs with hji
      · trivial
      · exact hclosing i j rfl hj hpc
  · exact hnone hfd

/-- **One step** keeps the invariant, if the handler that enters the exclusive section finds no descriptor. -/
theorem Requests.inv_step (h : Requests k sh sz E bufs) (hinv : Inv k sz E s)
    (hs : Step k bufs (fun v b => v.entriesFdSet b = none) i s s') : Inv k sz E s' := by
  have hbase := h.baseIdx_eq i
  rcases hs with ⟨hpc, hfd⟩ | ⟨hpc, hfd⟩ | ⟨hpc, -, hfd, hfree⟩ | ⟨-, hC, hfd⟩ | hpc | hpc | ⟨hpc, hle⟩ |
    ⟨hpc, -⟩ | hpc
  · exact hinv.found hpc (hbase ▸ hfd)
  · exact hinv.missed hpc (hbase ▸ hfd)
  · rw [hbase] at hfd ⊢
    exact hinv.create hpc hfd hfree
  · cases hC.symm.trans hfd
  · exact h.inv_pwrite hinv hpc
  · exact h.inv_fetchAdd hinv hpc
  · exact h.inv_full hinv hpc (hbase ▸ hle)
  · exact hinv.move_counted (by rw [hpc]; trivial) trivial Pc.noConfusion
  · rw [hbase]
    exact hinv.close hpc

theorem Requests.inv_of_reach (h : Requests k sh sz E bufs)
    (hrun : HandlerReach k bufs (fun v b => v.entriesFdSet b = none) s) : Inv k sz E s := by
  refine Reach.invariant (P := fun s => Inv k sz E s) (fun _ hs => inv_of_start hs) ?_ hrun
  rintro s s' - hinv ⟨i, hs⟩
  exact h.inv_step hinv hs

/-! ### Two handlers of one stripe -/

/-- Two entries without data. -/
def pair (i : Fin 2) : LogEntry := ⟨7, 1, UInt64.ofNat i, 0, 1, 0, []⟩

/-- Their requests. -/
def pairBufs (i : Fin 2) : Mem := writeBytes (fun _ => 0) 0 (encode (pair i))

theorem requests_pair : Requests oneShard 0 32 pair pairBufs where
  holds i := holds_writeBytes _ _ _
  sized := by decide
  flagged := by decide
  size := by decide
  shard := by decide
  distinct := by decide

theorem stripe_pair (i : Fin 2) : stripe oneShard (pair i) = 0 := by
  revert i
  decide

theorem baseIdx_pair (i : Fin 2) : baseIdx oneShard (pairBufs i) = 0 :=
  (requests_pair.baseIdx_eq i).trans (stripe_pair i)

/-- Both handlers have missed the descriptor, and the first has created the file. -/
theorem exists_raced : ∃ s, HandlerReach oneShard pairBufs (fun v b => v.entriesFdSet b = none) s ∧
    s.pc 0 = .write 3 ∧ s.pc 1 = .missed ∧ s.shared.entriesFdSet 0 = some 3 ∧ s.shared.cacheSizeAtomic 0 = 0 ∧
    s.shared.files.data (some 0) = some [] ∧ s.shared.files.fds 3 = some ⟨some 0, true, 0⟩ ∧
    s.shared.files.fds 0 = some ⟨none, true, 0⟩ := by
  let s₀ : Sys (Fin 2) := ⟨⟨fun _ => none, fun _ => 0, 0, ⟨fun _ => none,
    fun fd => if fd = 0 then some ⟨none, true, 0⟩ else none⟩⟩, fun _ => .start⟩
  have h0 : Start s₀ := by
    refine ⟨fun _ => rfl, fun _ => rfl, fun fd d hd => ?_, fun _ => rfl⟩
    by_cases hfd : fd = 0
    · subst hfd
      cases hd
      rfl
    · have hnone : s₀.shared.files.fds fd = none := if_neg hfd
      cases hnone.symm.trans hd
  have h1 : HandlerReach oneShard pairBufs (fun v b => v.entriesFdSet b = none) s₀ := .start h0
  have h2 := h1.next ⟨0, .missed rfl rfl⟩
  have h3 := h2.next ⟨1, .missed rfl rfl⟩
  have h4 := h3.next ⟨0, .create rfl rfl rfl (rfl : s₀.shared.files.fds 3 = none)⟩
  rw [baseIdx_pair 0] at h4
  exact ⟨_, h4, rfl, rfl, rfl, rfl, rfl, rfl, rfl⟩

/-- **No append is lost as long as no handler finds a descriptor under the exclusive lock**, and each time one does,
it writes its entry elsewhere: it has descriptor 0, which is not that of a data file. -/
theorem lossless_iff_none (h : Requests k sh sz E bufs)
    (hrun : HandlerReach k bufs (fun v b => v.entriesFdSet b = none) s) :
    Lossless k sz E s ∧ ∀ i s', s.pc i = .missed → Step k bufs (fun _ _ => True) i s s' →
      (∀ d, s.shared.files.fds 0 = some d → d.name = none) →
      (Lossless k sz E s' ↔ s.shared.entriesFdSet (baseIdx k (bufs i)) = none) := by
  have hinv := h.inv_of_reach hrun
  refine ⟨hinv.lossless, fun i s' hpc hs h0 => ?_⟩
  constructor
  · intro hl
    rcases hs with ⟨hpc', -⟩ | ⟨hpc', -⟩ | ⟨-, -, hfd, -⟩ | ⟨-, -, -⟩ | hpc' | hpc' | ⟨hpc', -⟩ | ⟨hpc', -⟩ | hpc'
    case create => exact hfd
    case created =>
      obtain ⟨d, hd, hname⟩ := hl.directed i 0 (by rw [pc_put, if_pos rfl])
      rw [h0 d hd] at hname
      cases hname
    all_goals cases hpc.symm.trans hpc'
  · intro hnone
    refine (h.inv_step (i := i) hinv ?_).lossless
    rcases hs with ⟨hpc', -⟩ | ⟨hpc', -⟩ | ⟨-, -, hfd, hfree⟩ | ⟨-, -, hfd⟩ | hpc' | hpc' | ⟨hpc', -⟩ | ⟨hpc', -⟩ |
      hpc'
    case create => exact .create hpc hfd hfd hfree
    case created => cases hnone.symm.trans hfd
    all_goals cases hpc.symm.trans hpc'

/-- The first handler of a stripe creates the file; the second has missed, and finds it. -/
theorem lossless_iff_none_raced : ∃ s s', HandlerReach oneShard pairBufs (fun v b => v.entriesFdSet b = none) s ∧
    s.pc 1 = .missed ∧ Step oneShard pairBufs (fun _ _ => True) 1 s s' ∧ Lossless oneShard 32 pair s ∧
    ¬ Lossless oneShard 32 pair s' := by
  obtain ⟨s, hs, -, hpc1, hset, -, -, -, hfd0⟩ := exists_raced
  have hfd : s.shared.entriesFdSet (baseIdx oneShard (pairBufs 1)) = some 3 := by
    rw [baseIdx_pair]
    exact hset
  have hstep : Step oneShard pairBufs (fun _ _ => True) 1 s _ := .created hpc1 trivial hfd
  obtain ⟨hl, hiff⟩ := lossless_iff_none requests_pair hs
  refine ⟨s, _, hs, hpc1, hstep, hl, fun hl' => ?_⟩
  have hnone := (hiff 1 _ hpc1 hstep fun d hd => by cases hfd0.symm.trans hd; rfl).mp hl'
  cases hnone.symm.trans hfd

/-- **The second entry is lost.** Both handlers have missed the descriptor, the first creates the file and the second
finds it; both respond, and the file has the 32 bytes of the first entry only. -/
theorem second_append_is_lost : ∃ s, HandlerReach oneShard pairBufs (fun _ _ => True) s ∧
    (∀ i, s.pc i = .responded) ∧ (∃ bytes, s.shared.files.data (some 0) = some bytes ∧ bytes.length = 32) ∧
    ¬ Lossless oneShard 32 pair s := by
  obtain ⟨s, hs, hpc0, hpc1, hset, hcount, hdata, hfd3, hfd0⟩ := exists_raced
  have hall : HandlerReach oneShard pairBufs (fun _ _ => True) s :=
    hs.map id (fun _ h => h) fun _ _ _ _ ⟨i, h⟩ => .single ⟨i, h.mono fun _ _ _ => trivial⟩
  have hfd : s.shared.entriesFdSet (baseIdx oneShard (pairBufs 1)) = some 3 := by
    rw [baseIdx_pair]
    exact hset
  have h1 := hall.next ⟨1, .created hpc1 trivial hfd⟩
  have h2 := h1.next ⟨0, .pwrite hpc0⟩
  have h3 := h2.next ⟨1, .pwrite rfl⟩
  have h4 := h3.next ⟨0, .fetchAdd rfl⟩
  have h5 := h4.next ⟨1, .fetchAdd rfl⟩
  have hlt : ∀ v : Server, v.cacheSizeAtomic 0 = 0 → ∀ i,
      (countEntry oneShard (countEntry oneShard v (pairBufs 0)) (pairBufs 1)).cacheSizeAtomic
        (baseIdx oneShard (pairBufs i)) < oneShard.stripeUnitSize := by
    intro v hv i
    simp only [countEntry, baseIdx_pair, Function.update_self, hv]
    decide
  have h6 := h5.next ⟨0, .notFull rfl (hlt _ hcount 0)⟩
  have h7 := h6.next ⟨1, .notFull rfl (hlt _ hcount 1)⟩
  -- the first write goes to the file, the second to descriptor 0
  have hv := files_pwriteEntry (k := oneShard) (requests_pair.deserializer_eq 0) hfd3 hdata
  have hfile : (pwriteEntry oneShard (pwriteEntry oneShard s.shared (pairBufs 0) 3) (pairBufs 1) 0).files.data
      (some 0) = some (overwrite [] (32 * place oneShard (pair 0)) (readBytes (pairBufs 0) 0 32)) := by
    refine (Files.pwrite_data_of_ne (fun d hd => ?_) _ _).trans ?_
    · rw [hv] at hd
      cases hfd0.symm.trans hd
      nofun
    · simp only [hv, Function.update_self]
  refine ⟨_, h7, ?_, ⟨_, hfile, ?_⟩, fun hl => ?_⟩
  · intro i
    fin_cases i <;> rfl
  · rw [length_overwrite, length_readBytes]
    rfl
  · obtain ⟨bytes, hbytes, hlen, -⟩ := hl.stored 1 trivial
    cases hfile.symm.trans hbytes
    rw [length_overwrite, length_readBytes] at hlen
    exact absurd hlen (by decide)

end LazyLog.Storage.Corfu
