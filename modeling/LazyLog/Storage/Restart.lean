import LazyLog.Lib.Run
import LazyLog.Rpc.RoundTrip
import LazyLog.Storage.Replication

/-! # Restarts of a shard server

A server that is started again has lost its cache and its descriptors, and finds the data files. A stripe comes
back into the cache when a reader or a request asks for it, through `loadFromDiskToCache`, which opens the file for
reading only, and after which `addToEntryCache` has no descriptor to write to. So the files hold what has been
received (`Survives`) as long as every request finds its stripe new, or open for writing (`CanWrite`), and a
request that does not is lost. -/

namespace LazyLog.Storage.Restart

open LazyLog.Lib.Bytes LazyLog.Lib.Disk LazyLog.Lib.Stride LazyLog.Lib.Run
open LazyLog.Rpc.Entry LazyLog.Rpc.Multi LazyLog.Rpc.RoundTrip
open LazyLog.Storage.ShardServer LazyLog.Storage.NaiveBackend LazyLog.Storage.Replication

/-! ### Runs with restarts -/

/-- The server is started again, with indices from the properties. -/
def restart (v : Server) (replicatedIndex globalIndex : UInt64) : Server :=
  { Server.empty with
    replicatedIndex := replicatedIndex
    globalIndex := globalIndex
    files := ⟨v.files.data, fun _ => none⟩ }

/-- Every `open` of a request returns a descriptor that is not open. -/
structure Fresh (fs : Files ℕ) (p : Opens) (fd : ℕ) : Prop where
  rd : fs.fds p.rd = none
  wr : p.wr = some fd
  free : fs.fds fd = none
  ne : fd ≠ p.rd

/-- A server of the shard `sh`, and how much of the log has been given to the backend. -/
structure Run where
  upTo : ℕ
  server : Server

/-- Requests, the ends of their handlers, readers and restarts. A request is taken if `C` holds of the server and
the stripe. -/
inductive RunStep (k : Striping) (L : List LogEntry) (sh : ℕ) (C : Server → ℕ → Prop) : Run → Run → Prop
  | skip {s : Run} {t : ℕ} (hle : s.upTo ≤ t) (hnext : t ≤ nextIdx k.shardNum sh s.upTo) (hL : t ≤ L.length) :
    RunStep k L sh C s { s with upTo := t }
  | append {s : Run} {u fd : ℕ} {req : MsgBuffer} {p : Opens} (ha : Active k L sh s.upTo u)
    (hc : Carries k L sh s.upTo u req) (hp : Fresh s.server.files p fd)
    (hC : C s.server (requestBase k req.buf)) :
    RunStep k L sh C s ⟨u, storeBatch k s.server (requestBase k req.buf) req.buf p⟩
  | setReplicatedIndex {s : Run} (base : ℕ) :
    RunStep k L sh C s { s with server := setReplicatedIndex s.server base }
  | updateGlobalIdx {s : Run} (idx : UInt64) :
    RunStep k L sh C s { s with server := updateGlobalIdx s.server idx }
  | readLoad {s : Run} (base rd : ℕ) (hfree : s.server.files.fds rd = none) :
    RunStep k L sh C s { s with server := readLoad k s.server base rd }
  | restart {s : Run} (r g : UInt64) : RunStep k L sh C s { s with server := restart s.server r g }

/-- The server has been started for the first time. -/
def RunStart (s : Run) : Prop := s = ⟨0, Server.empty⟩

/-- The bytes of the data file of a stripe, none if it is not there. -/
def fileBytes (v : Server) (b : ℕ) : List UInt8 := (v.files.data b).getD []

/-- **The files survive**: each has the entries received for its stripe, and what is in the cache is what the file
decodes to. -/
structure Survives (f : ℕ → List LogEntry) (v : Server) : Prop where
  files : ∀ b, Encodes (fileBytes v b) (f b)
  cache : ∀ b es, v.entriesCacheSet b = some es →
    es = (multiDeserializerSize [] (fun i => (fileBytes v b).getD i 0) 0 (fileBytes v b).length).1

/-- The stripe has no file yet, or `entries_fd_set_` has a descriptor that is open for writing it. -/
def CanWrite (v : Server) (b : ℕ) : Prop :=
  v.files.data b = none ∨ ∃ fd offset, v.entriesFdSet b = some fd ∧ v.files.fds fd = some ⟨b, true, offset⟩

/-! ### The invariant -/

variable {k : Striping} {L : List LogEntry} {sh : ℕ} {f : ℕ → List LogEntry} {v : Server} {b fd : ℕ}
  {es : List LogEntry} {p : Opens} {buf : Mem} {s s' : Run}

/-- **The invariant** of the runs in which every request can be written. -/
structure Inv (f : ℕ → List LogEntry) (v : Server) : Prop where
  sized : ∀ b, ∀ e ∈ f b, e.Sized
  flagged : ∀ b, ∀ e ∈ f b, e.flags ≠ 0
  missing : ∀ b, f b = [] → v.files.data b = none
  file : ∀ b, f b ≠ [] → ∃ bytes, v.files.data b = some bytes ∧ Encodes bytes (f b)
  cache : ∀ b es, v.entriesCacheSet b = some es → es = f b ∧ es ≠ []
  writable : ∀ fd b offset, v.files.fds fd = some ⟨b, true, offset⟩ →
    v.entriesFdSet b = some fd ∧ v.entriesCacheSet b = some (f b) ∧ offset = totalSize (f b)

theorem Inv.encodes (h : Inv f v) (b : ℕ) : Encodes (fileBytes v b) (f b) := by
  unfold fileBytes
  by_cases hb : f b = []
  · rw [h.missing b hb, hb]
    exact ⟨rfl, trivial⟩
  · obtain ⟨bytes, hdata, henc⟩ := h.file b hb
    rw [hdata]
    exact henc

theorem Inv.decode (h : Inv f v) (b : ℕ) :
    multiDeserializerSize [] (fun i => (fileBytes v b).getD i 0) 0 (fileBytes v b).length =
      (f b, totalSize (f b)) := by
  rw [(h.encodes b).length]
  exact multiDeserializerSize_eq (h.sized b) (h.flagged b) (h.encodes b).holds

theorem Inv.survives (h : Inv f v) : Survives f v := by
  refine ⟨h.encodes, fun b es hes => ?_⟩
  rw [h.decode b]
  exact (h.cache b es hes).1

theorem inv_empty : Inv (fun _ => []) Server.empty := by
  refine ⟨?_, ?_, fun _ _ => rfl, fun _ hb => absurd rfl hb, ?_, ?_⟩
  · rintro b e ⟨⟩
  · rintro b e ⟨⟩
  · rintro b es ⟨⟩
  · rintro fd b offset ⟨⟩

theorem Inv.restart (h : Inv f v) (r g : UInt64) : Inv f (restart v r g) := by
  refine ⟨h.sized, h.flagged, h.missing, h.file, ?_, ?_⟩
  · rintro b es ⟨⟩
  · rintro fd b offset ⟨⟩

theorem Inv.setReplicatedIndex (h : Inv f v) (b : ℕ) : Inv f (setReplicatedIndex v b) :=
  ⟨h.sized, h.flagged, h.missing, h.file, h.cache, h.writable⟩

theorem Inv.updateGlobalIdx (h : Inv f v) (idx : UInt64) : Inv f (updateGlobalIdx v idx) :=
  ⟨h.sized, h.flagged, h.missing, h.file, h.cache, h.writable⟩

/-- **What `loadFromDiskToCache` does** with a file that is not empty. Whether it keeps the file open or not, no
descriptor is open for writing that was not before. -/
theorem loadFromDiskToCache_eq {bytes : List UInt8} (rd : ℕ) (hdata : v.files.data b = some bytes)
    (hne : bytes ≠ []) :
    ∃ v', loadFromDiskToCache k v b rd = (v', true) ∧ v'.files.data = v.files.data ∧
      v'.entriesCacheSet = Function.update v.entriesCacheSet b
        (some (multiDeserializerSize [] (fun i => bytes.getD i 0) 0 bytes.length).1) ∧
      (∀ fd b' offset, v'.files.fds fd = some ⟨b', true, offset⟩ → v.files.fds fd = some ⟨b', true, offset⟩) ∧
      ∀ b' ≠ b, v'.entriesFdSet b' = v.entriesFdSet b' := by
  have hread : ∀ fd b' offset, (v.files.openRead b rd).fds fd = some ⟨b', true, offset⟩ →
      v.files.fds fd = some ⟨b', true, offset⟩ := by
    intro fd b' offset hfd
    unfold Files.openRead at hfd
    rcases eq_or_ne fd rd with rfl | hne
    · simp at hfd
    · simpa only [Function.update_of_ne hne] using hfd
  unfold loadFromDiskToCache
  rw [hdata]
  simp only [if_neg hne]
  split_ifs
  · exact ⟨_, rfl, rfl, rfl, hread, fun b' hb' => Function.update_of_ne hb' _ _⟩
  · refine ⟨_, rfl, rfl, rfl, fun fd b' offset hfd => ?_, fun _ _ => rfl⟩
    unfold Files.close at hfd
    rcases eq_or_ne fd rd with rfl | hne
    · simp at hfd
    · simp only [Function.update_of_ne hne] at hfd
      exact hread fd b' offset hfd

theorem Inv.bytes (h : Inv f v) {bytes : List UInt8} (hdata : v.files.data b = some bytes) :
    f b ≠ [] ∧ bytes ≠ [] ∧ fileBytes v b = bytes := by
  have hfb : f b ≠ [] := by
    intro hb
    rw [h.missing b hb] at hdata
    cases hdata
  have hbytes : fileBytes v b = bytes := by
    unfold fileBytes
    rw [hdata]
    rfl
  refine ⟨hfb, ?_, hbytes⟩
  obtain ⟨e, es, hes⟩ := List.exists_cons_of_ne_nil hfb
  have hlen := (h.encodes b).length
  have hpos := entrySize_pos e
  rw [hbytes, hes, totalSize_cons] at hlen
  exact List.ne_nil_of_length_pos (by omega)

theorem Inv.readLoad (h : Inv f v) (b rd : ℕ) : Inv f (readLoad k v b rd) := by
  unfold ShardServer.readLoad
  cases hb : v.entriesCacheSet b with
  | some es => exact h
  | none =>
    cases hdata : v.files.data b with
    | none =>
      unfold loadFromDiskToCache
      rw [hdata]
      exact h
    | some bytes =>
      obtain ⟨hfb, hne, hbytes⟩ := h.bytes hdata
      obtain ⟨v', hload, h1, h2, h3, h4⟩ := loadFromDiskToCache_eq (k := k) rd hdata hne
      have hdec := h.decode b
      rw [hbytes] at hdec
      rw [hdec] at h2
      simp only [hload]
      refine ⟨h.sized, h.flagged, ?_, ?_, ?_, ?_⟩
      · rw [h1]
        exact h.missing
      · rw [h1]
        exact h.file
      · intro b' es hes
        rw [h2] at hes
        rcases eq_or_ne b' b with rfl | hb'
        · rw [Function.update_self, Option.some.injEq] at hes
          exact ⟨hes.symm, hes ▸ hfb⟩
        · rw [Function.update_of_ne hb'] at hes
          exact h.cache b' es hes
      · intro fd b' offset hfd
        obtain ⟨w1, w2, w3⟩ := h.writable fd b' offset (h3 fd b' offset hfd)
        have hb' : b' ≠ b := by
          rintro rfl
          rw [hb] at w2
          cases w2
        rw [h2, h4 b' hb', Function.update_of_ne hb']
        exact ⟨w1, w2, w3⟩

/-! ### A request that can be written -/

/-- The state between the two parts of `addToEntryCache`: the stripe is there, empty perhaps, and its file is open
at its end. -/
structure Ready (f : ℕ → List LogEntry) (b fd : ℕ) (v : Server) : Prop where
  sized : ∀ b, ∀ e ∈ f b, e.Sized
  flagged : ∀ b, ∀ e ∈ f b, e.flags ≠ 0
  missing : ∀ b' ≠ b, f b' = [] → v.files.data b' = none
  file : ∀ b', b' = b ∨ f b' ≠ [] → ∃ bytes, v.files.data b' = some bytes ∧ Encodes bytes (f b')
  cache : ∀ b' es, v.entriesCacheSet b' = some es → es = f b' ∧ (b' ≠ b → es ≠ [])
  writable : ∀ fd b offset, v.files.fds fd = some ⟨b, true, offset⟩ →
    v.entriesFdSet b = some fd ∧ v.entriesCacheSet b = some (f b) ∧ offset = totalSize (f b)
  opened : v.files.fds fd = some ⟨b, true, totalSize (f b)⟩

/-- The stripe has no file yet, and one is created. -/
theorem Inv.openStripe_new (h : Inv f v) (hb : v.files.data b = none) (hp : Fresh v.files p fd) :
    ∃ v', openStripe k v b p = (v', some fd) ∧ Ready f b fd v' := by
  have hfb : f b = [] := by
    by_contra hne
    obtain ⟨bytes, hdata, -⟩ := h.file b hne
    rw [hb] at hdata
    cases hdata
  have hc : v.entriesCacheSet b = none := by
    rw [Option.eq_none_iff_forall_ne_some]
    intro es hes
    obtain ⟨rfl, hne⟩ := h.cache b es hes
    exact hne hfb
  have hload : loadFromDiskToCache k v b p.rd = (v, false) := by
    unfold loadFromDiskToCache
    rw [hb]
  unfold openStripe
  simp only [hc, hload, hp.wr]
  refine ⟨_, rfl, h.sized, h.flagged, ?_, ?_, ?_, ?_, ?_⟩
  · intro b' hne hfb'
    simp only [Files.create, Function.update_of_ne hne]
    exact h.missing b' hfb'
  · intro b' hb'
    rcases eq_or_ne b' b with rfl | hne
    · exact ⟨[], by simp [Files.create], by rw [hfb]; exact ⟨rfl, trivial⟩⟩
    · simp only [Files.create, Function.update_of_ne hne]
      exact h.file b' (hb'.resolve_left hne)
  · intro b' es hes
    rcases eq_or_ne b' b with rfl | hne
    · simp only [Function.update_self, Option.some.injEq] at hes
      exact ⟨by rw [← hes, hfb], fun hne => absurd rfl hne⟩
    · simp only [Function.update_of_ne hne] at hes
      exact ⟨(h.cache b' es hes).1, fun _ => (h.cache b' es hes).2⟩
  · intro fd' b' offset hfd
    simp only [Files.create] at hfd
    rcases eq_or_ne fd' fd with rfl | hne
    · simp only [Function.update_self, Option.some.injEq, Desc.mk.injEq, true_and] at hfd
      obtain ⟨rfl, rfl⟩ := hfd
      simp [hfb]
    · rw [Function.update_of_ne hne] at hfd
      obtain ⟨w1, w2, w3⟩ := h.writable fd' b' offset hfd
      have hb' : b' ≠ b := by
        rintro rfl
        rw [hc] at w2
        cases w2
      simp only [Function.update_of_ne hb']
      exact ⟨w1, w2, w3⟩
  · simp [Files.create, hfb]

theorem Inv.openStripe_open (h : Inv f v) {offset : ℕ} (hfd : v.entriesFdSet b = some fd)
    (hd : v.files.fds fd = some ⟨b, true, offset⟩) (p : Opens) :
    openStripe k v b p = (v, some fd) ∧ Ready f b fd v := by
  obtain ⟨-, hc, hoff⟩ := h.writable fd b offset hd
  have hself : Function.update v.entriesFdSet b (some fd) = v.entriesFdSet := by
    rw [← hfd, Function.update_eq_self]
  have hfb := (h.cache b _ hc).2
  constructor
  · unfold openStripe
    simp only [hc, hfd, Option.getD_some, hself]
  · refine ⟨h.sized, h.flagged, fun b' _ => h.missing b', ?_, ?_, h.writable, hoff ▸ hd⟩
    · rintro b' (rfl | hb')
      · exact h.file b' hfb
      · exact h.file b' hb'
    · exact fun b' es hes => ⟨(h.cache b' es hes).1, fun _ => (h.cache b' es hes).2⟩

/-- **What the second part of `addToEntryCache` does**: the entries are added to the cache and their bytes to the
file. -/
theorem Ready.addEntries_eq (h : Ready f b fd v) (hm : Numbered buf 0 es) (hes : Storable es) :
    ∃ bytes, Encodes bytes (f b ++ es) ∧
      (addEntries v b fd buf).files.data = Function.update v.files.data b (some bytes) ∧
      (addEntries v b fd buf).files.fds =
        Function.update v.files.fds fd (some ⟨b, true, totalSize (f b ++ es)⟩) ∧
      (addEntries v b fd buf).entriesCacheSet = Function.update v.entriesCacheSet b (some (f b ++ es)) ∧
      (addEntries v b fd buf).entriesFdSet = v.entriesFdSet := by
  obtain ⟨bytes, hdata, henc⟩ := h.file b (Or.inl rfl)
  obtain ⟨-, hc, -⟩ := h.writable fd b _ h.opened
  have hd := h.opened
  rw [← henc.length] at hd
  have hbody := encodes_body hm
  refine ⟨_, henc.append hbody, ?_⟩
  unfold ShardServer.addEntries
  simp only [hc, Option.getD_some, multiDeserializer_eq hm hes.sized hes.flagged, Nat.add_sub_cancel_left,
    Files.write_end hd hdata, henc.length, hbody.length, totalSize_append, and_self]

theorem forall_mem_update_append {P : LogEntry → Prop} (h : ∀ b, ∀ e ∈ f b, P e) (hes : ∀ e ∈ es, P e)
    (b b' : ℕ) : ∀ e ∈ Function.update f b (f b ++ es) b', P e := by
  rcases eq_or_ne b' b with rfl | hb'
  · rw [Function.update_self]
    exact List.forall_mem_append.mpr ⟨h b', hes⟩
  · rw [Function.update_of_ne hb']
    exact h b'

theorem Ready.addEntries (h : Ready f b fd v) (hm : Numbered buf 0 es) (hes : Storable es) :
    Inv (Function.update f b (f b ++ es)) (addEntries v b fd buf) := by
  obtain ⟨hfd, -, -⟩ := h.writable fd b _ h.opened
  obtain ⟨bytes, henc, h1, h2, h3, h4⟩ := h.addEntries_eq hm hes
  obtain ⟨hs, hf, hne⟩ := hes
  have hne' : f b ++ es ≠ [] := by simp [hne]
  refine ⟨forall_mem_update_append h.sized hs b, forall_mem_update_append h.flagged hf b, ?_, ?_, ?_, ?_⟩
  · intro b' hb
    rcases eq_or_ne b' b with rfl | hb'
    · rw [Function.update_self] at hb
      exact absurd hb hne'
    · rw [Function.update_of_ne hb'] at hb
      rw [h1, Function.update_of_ne hb']
      exact h.missing b' hb' hb
  · intro b' hb
    rcases eq_or_ne b' b with rfl | hb'
    · rw [h1, Function.update_self, Function.update_self]
      exact ⟨bytes, rfl, henc⟩
    · rw [Function.update_of_ne hb'] at hb ⊢
      rw [h1, Function.update_of_ne hb']
      exact h.file b' (Or.inr hb)
  · intro b' es' hes'
    rw [h3] at hes'
    rcases eq_or_ne b' b with rfl | hb'
    · rw [Function.update_self, Option.some.injEq] at hes'
      rw [Function.update_self, ← hes']
      exact ⟨rfl, hne'⟩
    · rw [Function.update_of_ne hb'] at hes' ⊢
      exact ⟨(h.cache b' es' hes').1, (h.cache b' es' hes').2 hb'⟩
  · intro fd' b' offset hfd'
    rw [h2] at hfd'
    rw [h3, h4]
    rcases eq_or_ne fd' fd with rfl | hnefd
    · rw [Function.update_self, Option.some.injEq, Desc.mk.injEq] at hfd'
      obtain ⟨rfl, -, rfl⟩ := hfd'
      rw [Function.update_self, Function.update_self]
      exact ⟨hfd, rfl, rfl⟩
    · rw [Function.update_of_ne hnefd] at hfd'
      obtain ⟨w1, w2, w3⟩ := h.writable fd' b' offset hfd'
      have hb' : b' ≠ b := by
        rintro rfl
        rw [hfd] at w1
        exact hnefd (Option.some.inj w1).symm
      rw [Function.update_of_ne hb', Function.update_of_ne hb']
      exact ⟨w1, w2, w3⟩

theorem Inv.close (h : Inv f v) (b : ℕ) : Inv f (writeFromCacheToDisk v b) := by
  unfold writeFromCacheToDisk
  cases v.entriesFdSet b with
  | none => exact h
  | some fd =>
    refine ⟨h.sized, h.flagged, h.missing, h.file, h.cache, fun fd' b' offset hfd => ?_⟩
    simp only [Files.close] at hfd
    rcases eq_or_ne fd' fd with rfl | hne
    · simp at hfd
    · rw [Function.update_of_ne hne] at hfd
      exact h.writable fd' b' offset hfd

/-- **A request that can be written** is added to the file of its stripe. -/
theorem Inv.storeBatch (h : Inv f v) (hb : CanWrite v b) (hp : Fresh v.files p fd) (hm : Numbered buf 0 es)
    (hes : Storable es) : Inv (Function.update f b (f b ++ es)) (storeBatch k v b buf p) := by
  have hadd : Inv (Function.update f b (f b ++ es)) (addToEntryCache k v b buf p) := by
    unfold addToEntryCache
    rcases hb with hnew | ⟨fd', offset, hfd, hd⟩
    · obtain ⟨v', hopen, hready⟩ := h.openStripe_new (k := k) hnew hp
      rw [hopen]
      exact hready.addEntries hm hes
    · obtain ⟨hopen, hready⟩ := h.openStripe_open (k := k) hfd hd p
      rw [hopen]
      exact hready.addEntries hm hes
  unfold ShardServer.storeBatch
  simp only
  split_ifs
  · exact hadd.close b
  · exact hadd

/-! ### A request that cannot be written -/

/-- **The request is lost**: the file of its stripe stays as it is. -/
theorem Inv.data_of_not_canWrite (h : Inv f v) (hb : ¬ CanWrite v b) (buf : Mem) (p : Opens) :
    (ShardServer.storeBatch k v b buf p).files.data b = v.files.data b := by
  unfold CanWrite at hb
  rw [not_or] at hb
  obtain ⟨hsome, hno⟩ := hb
  obtain ⟨bytes, hdata⟩ := Option.ne_none_iff_exists'.mp hsome
  have hclosed : ∀ fd offset, v.files.fds fd ≠ some ⟨b, true, offset⟩ := fun fd offset hd =>
    hno ⟨fd, offset, (h.writable fd b offset hd).1, hd⟩
  -- whatever descriptor it writes to, it is not one of the file
  have hopen : ∃ v' fd', openStripe k v b p = (v', some fd') ∧ v'.files.data b = v.files.data b ∧
      ∀ d, v'.files.fds fd' = some d → d.writable = true → d.name ≠ b := by
    unfold openStripe
    cases hc : v.entriesCacheSet b with
    | some es =>
      refine ⟨_, _, rfl, rfl, ?_⟩
      rintro ⟨name, _, offset⟩ hd rfl rfl
      exact hclosed _ offset hd
    | none =>
      obtain ⟨-, hne, -⟩ := h.bytes hdata
      obtain ⟨v', hload, h1, -, h3, -⟩ := loadFromDiskToCache_eq (k := k) p.rd hdata hne
      rw [hload]
      refine ⟨v', 0, rfl, by rw [h1], ?_⟩
      rintro ⟨name, _, offset⟩ hd rfl rfl
      exact hclosed 0 offset (h3 0 _ offset hd)
  obtain ⟨v', fd', hopen, hkeep, hwr⟩ := hopen
  have hwrite : (addToEntryCache k v b buf p).files.data b = v.files.data b := by
    unfold addToEntryCache
    rw [hopen, ← hkeep]
    exact Files.write_data_of_ne hwr _
  unfold ShardServer.storeBatch writeFromCacheToDisk
  simp only
  split_ifs
  · split <;> exact hwrite
  · exact hwrite

/-- A request to a stripe that cannot be written is missing in its file. -/
theorem Inv.not_survives (h : Inv f v) (hb : ¬ CanWrite v b) (buf : Mem) (p : Opens) (hes : es ≠ []) :
    ¬ Survives (Function.update f b (f b ++ es)) (ShardServer.storeBatch k v b buf p) := by
  intro hsurv
  have hlen := (hsurv.files b).length
  have hbytes : fileBytes (ShardServer.storeBatch k v b buf p) b = fileBytes v b := by
    unfold fileBytes
    rw [h.data_of_not_canWrite hb buf p]
  obtain ⟨e, es', rfl⟩ := List.exists_cons_of_ne_nil hes
  have hpos := entrySize_pos e
  rw [hbytes, (h.encodes b).length, Function.update_self, totalSize_append, totalSize_cons] at hlen
  omega

/-! ### Runs -/

/-- **One step** keeps the invariant, if its request can be written. -/
theorem Inv.step (h : Inv (shardStripes k L sh s.upTo) s.server) (hsh : sh < k.shardNum)
    (hs : RunStep k L sh CanWrite s s') : Inv (shardStripes k L sh s'.upTo) s'.server := by
  cases hs with
  | skip hle hnext hL =>
    rw [shardStripes_skip hle hnext]
    exact h
  | append ha hc hp hC =>
    rw [(ha.stripes hsh).1]
    rw [hc.requestBase_eq ha] at hC ⊢
    exact h.storeBatch hC hp hc.numbered ha.storable
  | setReplicatedIndex base => exact h.setReplicatedIndex base
  | updateGlobalIdx idx => exact h.updateGlobalIdx idx
  | readLoad base rd hfree => exact h.readLoad base rd
  | restart r g => exact h.restart r g

theorem inv_of_reach (hsh : sh < k.shardNum) (h : Reach RunStart (RunStep k L sh CanWrite) s) :
    Inv (shardStripes k L sh s.upTo) s.server := by
  refine Reach.invariant (P := fun s => Inv (shardStripes k L sh s.upTo) s.server) ?_ ?_ h
  · intro s hs
    rw [hs, shardStripes_zero]
    exact inv_empty
  · intro s s' _ hI hs
    exact hI.step hsh hs

/-- **Data files survive restarts** in every run in which every request can be written, and no longer: the next
request is on disk if and only if it can be written. -/
theorem files_survive_iff_canWrite (hsh : sh < k.shardNum) (h : Reach RunStart (RunStep k L sh CanWrite) s) :
    Survives (shardStripes k L sh s.upTo) s.server ∧
    ∀ {u fd : ℕ} {req : MsgBuffer} {p : Opens}, Active k L sh s.upTo u → Carries k L sh s.upTo u req →
      Fresh s.server.files p fd →
      (Survives (shardStripes k L sh u) (storeBatch k s.server (requestBase k req.buf) req.buf p) ↔
        CanWrite s.server (requestBase k req.buf)) := by
  have hI := inv_of_reach hsh h
  refine ⟨hI.survives, fun {u fd req p} ha hc hp => ⟨fun hsurv => ?_, fun hC => ?_⟩⟩
  · by_contra hC
    rw [(ha.stripes hsh).1] at hsurv
    rw [hc.requestBase_eq ha] at hC hsurv
    exact hI.not_survives hC req.buf p ha.storable.ne_nil hsurv
  · exact (hI.step hsh (.append ha hc hp hC)).survives

theorem exists_restarted : ∃ s, Reach RunStart (RunStep oneShard twoSizes 0 CanWrite) s ∧ s.upTo = 1 ∧
    s.server.entriesFdSet 0 = none ∧ ∀ fd, s.server.files.fds fd = none := by
  have ha : Active oneShard twoSizes 0 0 1 := ⟨isLog_twoSizes, by decide, by decide, by decide⟩
  obtain ⟨req, hc⟩ := exists_carries ha (by decide)
  have h0 : Reach RunStart (RunStep oneShard twoSizes 0 CanWrite) ⟨0, Server.empty⟩ := .start rfl
  have hp : Fresh Server.empty.files ⟨3, some 4⟩ 4 := ⟨rfl, rfl, rfl, by decide⟩
  have h1 := h0.next (.append ha hc hp (Or.inl rfl))
  exact ⟨_, h1.next (.restart 0 0), rfl, rfl, fun _ => rfl⟩

/-- A restart in the middle of a stripe. -/
theorem files_survive_iff_canWrite_restarted : ∃ s, Reach RunStart (RunStep oneShard twoSizes 0 CanWrite) s ∧
    s.upTo = 1 ∧ Survives (shardStripes oneShard twoSizes 0 s.upTo) s.server := by
  obtain ⟨s, hs, hup, -⟩ := exists_restarted
  exact ⟨s, hs, hup, (files_survive_iff_canWrite (by decide) hs).1⟩

/-- **The second entry of a stripe is lost** if the server is restarted before it comes: the file still has the 32
bytes of the first entry only. -/
theorem restart_loses_the_second : ∃ s, Reach RunStart (RunStep oneShard twoSizes 0 fun _ _ => True) s ∧
    s.upTo = 2 ∧ (fileBytes s.server 0).length = 32 ∧
      ¬ Survives (shardStripes oneShard twoSizes 0 s.upTo) s.server := by
  obtain ⟨s, hs, hup, hset, hfds⟩ := exists_restarted
  have hI := inv_of_reach (by decide) hs
  rw [hup] at hI
  have ha : Active oneShard twoSizes 0 s.upTo 2 := hup ▸ ⟨isLog_twoSizes, by decide, by decide, by decide⟩
  obtain ⟨req, hc⟩ := exists_carries ha (by rw [hup]; decide)
  have hbase : requestBase oneShard req.buf = 0 := by
    rw [hc.requestBase_eq ha, hup]
    rfl
  have hp : Fresh s.server.files ⟨3, some 4⟩ 4 := ⟨hfds _, rfl, hfds _, by decide⟩
  have hall : Reach RunStart (RunStep oneShard twoSizes 0 fun _ _ => True) s := by
    refine hs.map id (fun _ h => h) fun s s' _ _ h => .single ?_
    cases h with
    | skip hle hnext hL => exact .skip hle hnext hL
    | append ha hc hp hC => exact .append ha hc hp trivial
    | setReplicatedIndex base => exact .setReplicatedIndex base
    | updateGlobalIdx idx => exact .updateGlobalIdx idx
    | readLoad base rd hfree => exact .readLoad base rd hfree
    | restart r g => exact .restart r g
  have hno : ¬ CanWrite s.server 0 := by
    obtain ⟨bytes, hdata, -⟩ := hI.file 0 (by decide)
    rintro (hnone | ⟨fd, offset, hfd, -⟩)
    · rw [hdata] at hnone
      cases hnone
    · rw [hset] at hfd
      cases hfd
  refine ⟨_, hall.next (.append ha hc hp trivial), rfl, ?_, ?_⟩
  · rw [hbase]
    unfold fileBytes
    rw [hI.data_of_not_canWrite hno]
    exact (hI.encodes 0).length
  · have hstripes := (ha.stripes (by decide)).1
    rw [hup] at hstripes
    rw [hbase, hstripes]
    exact hI.not_survives hno req.buf _ (hup ▸ ha.storable.ne_nil)

end LazyLog.Storage.Restart
