import LazyLog.Lib.Run
import LazyLog.Lib.Threads
import LazyLog.Storage.ShardServer

/-! # Readers that wait on a shard server

The threads of the primary of a shard (not `CORFU`). `ReadEntryHandler` waits on `cache_write_cv_` when it can not
load the stripe, or when the entry is not there yet or its index is above one of the two indices; `AppendBatchHandler`
changes the cache in one critical section and `replicated_index_` in a second, after the backups have acknowledged,
and notifies then; `UpdateGlobalIdxHandler` and a reader that has loaded a stripe notify after the one that they have.

A step is a critical section of `cache_rw_lock_`, with the `wait` that it may end in, or a `notify_all`. In every
state reached, a reader that waits though it could go on has its notification ahead (`wakeUp_ahead`). -/

namespace LazyLog.Storage.WakeUps

open LazyLog.Lib LazyLog.Lib.Bytes LazyLog.Lib.Run LazyLog.Rpc.Entry LazyLog.Storage.ShardServer
open LazyLog.Lib.Threads (NoMissed noMissed_notifyAll pc_put pc_notifyAll)

/-! ### The handlers -/

/-- Where a thread is. A reader is before the shared lock, past it without the stripe, before `notify_all`, before
the shared lock again, or waits; `AppendBatchHandler` is before its first critical section or before its second;
`UpdateGlobalIdxHandler` is before the one it has; both notify at the end. -/
inductive Pc
  | idle
  | locking (idx : UInt64)
  | loading (idx : UInt64)
  | notifyLoaded (idx : UInt64)
  | relocking (idx : UInt64) (loaded : Bool)
  | waiting (idx : UInt64)
  | append (buf : Mem)
  | replicating (base : ℕ)
  | update (globalIdx : UInt64)
  | notifying

/-- The second check of `ReadEntryHandler`, and what comes after it. -/
def checkGuard (k : Striping) (v : Server) (idx : UInt64) (resp : Mem) : Pc :=
  match readEntry k v idx resp with
  | none => .waiting idx
  | some _ => .idle

/-- `ReadEntryHandler` from the head of its loop, under the shared lock. -/
def checkCache (k : Striping) (v : Server) (idx : UInt64) (resp : Mem) : Pc :=
  match v.entriesCacheSet (k.base idx.toNat) with
  | none => .loading idx
  | some _ => checkGuard k v idx resp

/-- Where `ReadEntryHandler` goes from the section under the exclusive lock. -/
def afterLoad (k : Striping) (v : Server) (idx : UInt64) (rd : ℕ) : Pc :=
  match v.entriesCacheSet (k.base idx.toNat) with
  | some _ => .relocking idx true
  | none =>
    if (loadFromDiskToCache k v (k.base idx.toNat) rd).2 then .notifyLoaded idx else .relocking idx false

/-- `entries_cache_set_[base]`, which puts an empty vector there if there is none. -/
def touch (v : Server) (base : ℕ) : Server :=
  { v with
    entriesCacheSet := Function.update v.entriesCacheSet base (some ((v.entriesCacheSet base).getD [])) }

/-- `ReadEntryHandler` under the shared lock that it takes again. -/
def checkAgain (k : Striping) (v : Server) (idx : UInt64) (loaded : Bool) (resp : Mem) : Server × Pc :=
  if loaded = false ∧ v.entriesCacheSet (k.base idx.toNat) = none then (v, .waiting idx)
  else (touch v (k.base idx.toNat), checkGuard k (touch v (k.base idx.toNat)) idx resp)

/-- `notify_all`, for one thread: a reader that waits goes to the head of its loop. -/
def Pc.wake : Pc → Pc
  | .waiting idx => .locking idx
  | pc => pc

/-! ### Steps -/

/-- The server, and its threads. -/
abbrev Sys (ι : Type*) := Threads.Sys ι Server Pc

variable {ι : Type*} [DecidableEq ι]

/-- A step of the thread `i`. The backups may acknowledge at any time, and a wait may end by itself. -/
inductive Step (k : Striping) (i : ι) : Sys ι → Sys ι → Prop
  | read {s : Sys ι} (hpc : s.pc i = .idle) (idx : UInt64) : Step k i s (s.put i s.shared (.locking idx))
  | check {s : Sys ι} {idx : UInt64} (hpc : s.pc i = .locking idx) (resp : Mem) :
    Step k i s (s.put i s.shared (checkCache k s.shared idx resp))
  | load {s : Sys ι} {idx : UInt64} (hpc : s.pc i = .loading idx) (rd : ℕ) :
    Step k i s (s.put i (readLoad k s.shared (k.base idx.toNat) rd) (afterLoad k s.shared idx rd))
  | notifyLoaded {s : Sys ι} {idx : UInt64} (hpc : s.pc i = .notifyLoaded idx) :
    Step k i s (s.notifyAll i Pc.wake (.relocking idx true))
  | checkAgain {s : Sys ι} {idx : UInt64} {loaded : Bool} (hpc : s.pc i = .relocking idx loaded) (resp : Mem) :
    Step k i s (s.put i (checkAgain k s.shared idx loaded resp).1 (checkAgain k s.shared idx loaded resp).2)
  | wake {s : Sys ι} {idx : UInt64} (hpc : s.pc i = .waiting idx) : Step k i s (s.put i s.shared (.locking idx))
  | append {s : Sys ι} (hpc : s.pc i = .idle) (buf : Mem) : Step k i s (s.put i s.shared (.append buf))
  | store {s : Sys ι} {buf : Mem} (hpc : s.pc i = .append buf) (o : Opens) :
    Step k i s (s.put i (storeBatch k s.shared (requestBase k buf) buf o) (.replicating (requestBase k buf)))
  | replicated {s : Sys ι} {base : ℕ} (hpc : s.pc i = .replicating base) :
    Step k i s (s.put i (setReplicatedIndex s.shared base) .notifying)
  | update {s : Sys ι} (hpc : s.pc i = .idle) (globalIdx : UInt64) :
    Step k i s (s.put i s.shared (.update globalIdx))
  | setGlobal {s : Sys ι} {globalIdx : UInt64} (hpc : s.pc i = .update globalIdx) :
    Step k i s (s.put i (updateGlobalIdx s.shared globalIdx) .notifying)
  | notify {s : Sys ι} (hpc : s.pc i = .notifying) : Step k i s (s.notifyAll i Pc.wake .idle)

/-- The threads interleaved, from a server in any state. -/
def ThreadReach (k : Striping) : Sys ι → Prop :=
  Reach (fun s => ∀ i, s.pc i = .idle) fun s s' => ∃ i, Step k i s s'

/-! ### Readers that could go on -/

/-- The stripe of `idx` is in the cache and the guard of its reader is met. -/
def Satisfied (k : Striping) (v : Server) (idx : UInt64) : Prop :=
  ∃ es, v.entriesCacheSet (k.base idx.toNat) = some es ∧
    (idx.toNat - k.base idx.toNat) / k.shardNum < es.length ∧ idx ≤ v.replicatedIndex ∧ idx ≤ v.globalIndex

/-- The thread waits though it could go on. -/
def Ready (k : Striping) : Pc → Server → Prop
  | .waiting idx, v => Satisfied k v idx
  | _, _ => False

/-- The thread has changed the state, and has its `notify_all` ahead. -/
def Pc.Owes : Pc → Prop
  | .notifyLoaded _ | .replicating _ | .notifying => True
  | _ => False

variable {k : Striping} {v : Server} {idx : UInt64} {i : ι} {s s' : Sys ι}

theorem not_satisfied_of_readEntry {resp : Mem} (h : readEntry k v idx resp = none) : ¬Satisfied k v idx := by
  rintro ⟨es, hes, hlen, hrep, hglob⟩
  unfold readEntry at h
  simp only [hes] at h
  rw [if_neg] at h
  · cases h
  · rintro (hlen' | hlt | hlt)
    · exact absurd hlen (Nat.not_lt.mpr hlen')
    · exact absurd hrep (UInt64.not_le.mpr hlt)
    · exact absurd hglob (UInt64.not_le.mpr hlt)

theorem not_ready_checkGuard (resp : Mem) : ¬Ready k (checkGuard k v idx resp) v := by
  unfold checkGuard
  split
  · next heq => exact not_satisfied_of_readEntry heq
  · exact id

theorem not_ready_checkCache (resp : Mem) : ¬Ready k (checkCache k v idx resp) v := by
  unfold checkCache
  split
  · exact id
  · exact not_ready_checkGuard resp

theorem not_ready_checkAgain (loaded : Bool) (resp : Mem) :
    ¬Ready k (checkAgain k v idx loaded resp).2 (checkAgain k v idx loaded resp).1 := by
  unfold checkAgain
  split_ifs with h
  · rintro ⟨es, hes, -⟩
    cases h.2.symm.trans hes
  · exact not_ready_checkGuard resp

/-- An empty vector meets no guard. -/
theorem satisfied_of_touch {base : ℕ} (h : Satisfied k (touch v base) idx) : Satisfied k v idx := by
  obtain ⟨es, hes, hlen, hrep, hglob⟩ := h
  refine ⟨es, ?_, hlen, hrep, hglob⟩
  unfold touch at hes
  by_cases hb : k.base idx.toNat = base
  · simp only [hb, Function.update_self, Option.some.injEq] at hes
    rw [hb]
    rcases hv : v.entriesCacheSet base with _ | es'
    · rw [hv] at hes
      subst hes
      exact absurd hlen (Nat.not_lt_zero _)
    · rw [hv] at hes
      exact congrArg some hes
  · simpa only [Function.update_of_ne hb] using hes

theorem ready_of_checkAgain {loaded : Bool} {resp : Mem} {pc : Pc}
    (h : Ready k pc (checkAgain k v idx loaded resp).1) : Ready k pc v := by
  unfold checkAgain at h
  split_ifs at h with hc
  · exact h
  · cases pc
    case waiting idx' => exact satisfied_of_touch h
    all_goals exact h

/-- A load that fails leaves the cache and the indices. -/
theorem satisfied_of_load_failed {base rd : ℕ} (hfail : (loadFromDiskToCache k v base rd).2 = false)
    (h : Satisfied k (loadFromDiskToCache k v base rd).1 idx) : Satisfied k v idx := by
  unfold loadFromDiskToCache at h hfail
  rcases hdata : v.files.data base with _ | bytes
  · rw [hdata] at h
    exact h
  · rw [hdata] at h hfail
    by_cases hnil : bytes = []
    · simp only [if_pos hnil] at h
      exact h
    · simp only [if_neg hnil] at hfail
      split_ifs at hfail

/-! ### The invariant -/

theorem not_ready_wake (pc : Pc) (v : Server) : ¬Ready k pc.wake v := by
  cases pc <;> exact id

theorem noMissed_load (h : NoMissed (Ready k) Pc.Owes s) (hpc : s.pc i = .loading idx) (rd : ℕ) :
    NoMissed (Ready k) Pc.Owes
      (s.put i (readLoad k s.shared (k.base idx.toNat) rd) (afterLoad k s.shared idx rd)) := by
  have hno : (s.pc i).Owes → False := by
    rw [hpc]
    exact id
  unfold readLoad afterLoad
  rcases hc : s.shared.entriesCacheSet (k.base idx.toNat) with _ | es
  · simp only
    split_ifs with hload
    · exact .put_owes trivial
    · refine h.put (fun pc hr => ?_) id (fun ho => (hno ho).elim)
      cases pc
      case waiting idx' => exact satisfied_of_load_failed (Bool.eq_false_of_not_eq_true hload) hr
      all_goals exact hr
  · exact h.put (fun _ => id) id (fun ho => (hno ho).elim)

/-- **One step** misses no notification. -/
theorem noMissed_step (h : NoMissed (Ready k) Pc.Owes s) (hs : Step k i s s') : NoMissed (Ready k) Pc.Owes s' := by
  have keep : ∀ pc', ¬(s.pc i).Owes → ¬Ready k pc' s.shared →
      NoMissed (Ready k) Pc.Owes (s.put i s.shared pc') :=
    fun pc' hno hpc' => h.put (fun _ => id) hpc' fun ho => absurd ho hno
  rcases hs with ⟨hpc, -⟩ | ⟨hpc, resp⟩ | ⟨hpc, rd⟩ | hpc | ⟨hpc, resp⟩ | hpc | ⟨hpc, -⟩ | ⟨hpc, -⟩ | hpc | ⟨hpc, -⟩ |
    hpc | hpc
  · exact keep _ (by rw [hpc]; exact id) id
  · exact keep _ (by rw [hpc]; exact id) (not_ready_checkCache resp)
  · exact noMissed_load h hpc rd
  · exact noMissed_notifyAll (fun pc => not_ready_wake pc _) id
  · refine h.put (fun _ => ready_of_checkAgain) (not_ready_checkAgain _ resp) fun ho => ?_
    rw [hpc] at ho
    exact ho.elim
  · exact keep _ (by rw [hpc]; exact id) id
  · exact keep _ (by rw [hpc]; exact id) id
  · exact .put_owes trivial
  · exact .put_owes trivial
  · exact keep _ (by rw [hpc]; exact id) id
  · exact .put_owes trivial
  · exact noMissed_notifyAll (fun pc => not_ready_wake pc _) id

/-- A thread that owes a notification does so until it has notified: no reader waits then. -/
theorem owes_until_notified (hs : Step k i s s') (ho : (s.pc i).Owes) :
    (s'.pc i).Owes ∨ ∀ j idx, s'.pc j ≠ .waiting idx := by
  have hnotify : ∀ pc, (∀ idx, pc ≠ .waiting idx) → ∀ j idx, (s.notifyAll i Pc.wake pc).pc j ≠ .waiting idx := by
    intro pc hpc j idx
    rw [pc_notifyAll]
    split_ifs with hji
    · exact hpc idx
    · cases s.pc j <;> exact Pc.noConfusion
  cases hs with
  | notifyLoaded hpc => exact Or.inr (hnotify _ fun _ => Pc.noConfusion)
  | notify hpc => exact Or.inr (hnotify _ fun _ => Pc.noConfusion)
  | replicated hpc => exact Or.inl (by rw [pc_put, if_pos rfl]; trivial)
  | store hpc => exact Or.inl (by rw [pc_put, if_pos rfl]; trivial)
  | setGlobal hpc => exact Or.inl (by rw [pc_put, if_pos rfl]; trivial)
  | _ hpc => rw [hpc] at ho; exact ho.elim

/-- Two entries are there and replicated, and the global index is that of the first. -/
def twoEntries : Server :=
  { Server.empty with
    entriesCacheSet := fun _ => some [default, { (default : LogEntry) with logIdx := 1 }]
    replicatedIndex := 1 }

/-- **No reader misses its wake-up**: if a reader waits, its stripe is in the cache and its guard is met, then some
thread that has changed the state has its `notify_all` ahead. -/
theorem wakeUp_ahead (hrun : ThreadReach k s) (hpc : s.pc i = .waiting idx) (hsat : Satisfied k s.shared idx) :
    ∃ j, (s.pc j).Owes := by
  have hinv : NoMissed (Ready k) Pc.Owes s := by
    refine Reach.invariant (P := fun s => NoMissed (Ready k) Pc.Owes s) (fun s h0 j hj => ?_) ?_ hrun
    · rw [h0 j] at hj
      exact hj.elim
    · rintro s s' - h ⟨i, hs⟩
      exact noMissed_step h hs
  refine hinv i ?_
  rw [hpc]
  exact hsat

/-- A reader of the second entry waits, and the global index has been set, but not notified. -/
theorem wakeUp_ahead_global : ∃ s : Sys (Fin 2), ThreadReach oneShard s ∧ s.pc 0 = .waiting 1 ∧
    Satisfied oneShard s.shared 1 ∧ ∃ j, (s.pc j).Owes := by
  have h0 : ThreadReach oneShard (⟨twoEntries, fun _ => .idle⟩ : Sys (Fin 2)) := .start fun _ => rfl
  have h1 := h0.next ⟨0, .read rfl 1⟩
  have h2 := h1.next ⟨0, .check rfl fun _ => 0⟩
  have h3 := h2.next ⟨1, .update rfl 1⟩
  have h4 := h3.next ⟨1, .setGlobal rfl⟩
  have hsat : Satisfied oneShard (updateGlobalIdx twoEntries 1) 1 := ⟨_, rfl, by decide, by decide, by decide⟩
  exact ⟨_, h4, rfl, hsat, wakeUp_ahead (i := 0) h4 rfl hsat⟩

end LazyLog.Storage.WakeUps
