import LazyLog.ConsLog.Pipeline

/-! # How the pipelined threads sleep, and how they end (`ERPCConsLogTransport::Initialize`, `Finalize`)

The two threads of the pipeline call `fetch` and `store` in loops that end when `run_` is cleared. In `fetch` a thread
sleeps on `cv_empty_` while its buffer is full, in `store` on `cv_full_` while it is empty; the storer wakes up after
a second even if nobody notifies it, and then gives up if `run_` has been cleared. The fetcher does not look at
`run_` while it is in `fetch`.

The storer also waits for others: `AppendBatch` and `UpdateGlobalIdx` return when the backend has answered, and
`allDeletionCompleted` is polled until every backup of the durability layer has. Who has not answered yet is in
`owed`. The reads and writes of the primary's memory are one-sided and need no answer; they are steps of the thread
that makes them. `AppendEntry` on the primary is one step, as in the pipeline.

As long as `run_` is set a thread sleeps only if the other one has something to do (`Inv.fetcher_asleep`,
`Inv.storer_asleep`), so that the threads get as far as the answers allow (`pipeline_is_never_stuck`). At the end this
is no longer so: once the storer has left its loop nobody empties a buffer any more, and a fetcher that is in `fetch`
with a full buffer never comes back (`finalize_returns_iff`). -/

namespace LazyLog.ConsLog.Shutdown

open LazyLog.Lib.Bytes LazyLog.Lib.Run LazyLog.Lib.Tiling LazyLog.Rpc.Entry
open LazyLog.DurLog.Flat LazyLog.DurLog.Ring LazyLog.DurLog.FlatCli LazyLog.ConsLog.Batches LazyLog.ConsLog.Link
open LazyLog.ConsLog.Pipeline (Thread PipelineObj FetchPc StorePc)
open Relation (ReflTransGen)

/-! ### The threads -/

/-- Where the loop around `fetch` is: before the next test of `run_`, in `fetch`, asleep in `fetch`, at its end. -/
inductive Fetcher
  | outside
  | inside
  | asleep
  | left

/-- Where the loop around `store` is. A thread that is woken has to take the lock again, and looks at `run` then. -/
inductive Storer
  | outside
  | inside
  | asleep
  | woken
  | left

/-- Those the storer waits for: the storage backend and the backups of the durability layer. -/
inductive Peer (δ : Type*)
  | backend
  | server (d : δ)

variable {δ : Type*}

/-- The pipeline, `run_`, the two loops, and who has not answered the storer yet. -/
structure Sys (δ : Type*) where
  pipe : Pipeline.Sys
  run : Bool
  fetcher : Fetcher
  storer : Storer
  owed : List (Peer δ)

/-- Who takes a step: one of the threads, the clock that ends a sleep, one that answers the storer, or somebody
else. -/
inductive Who (δ : Type*)
  | fetcher
  | storer
  | timer
  | peer (x : Peer δ)
  | other

/-- A step of `fetch`: one that leaves the storer where it is. -/
structure FetchMove (c : Config) (maxFetchSize : ℕ) (p p' : Pipeline.Sys) : Prop where
  step : Pipeline.Step c maxFetchSize .tau p p'
  storer : p'.storePc = p.storePc

/-- A step of `store`. -/
structure StoreMove (c : Config) (maxFetchSize : ℕ) (p p' : Pipeline.Sys) : Prop where
  step : ∃ a, Pipeline.Step c maxFetchSize a p p'
  storer : p'.storePc ≠ p.storePc

def Fetcher.notify : Fetcher → Fetcher
  | .asleep => .inside
  | x => x

def Storer.notify : Storer → Storer
  | .asleep => .woken
  | x => x

/-- `cv_full_.notify_one()` of the buffer that `fetch` has filled, if it has filled one. -/
def notifyFull (p p' : Pipeline.Sys) (x : Storer) : Storer :=
  if p'.fetchRound ≠ p.fetchRound ∧ p.fetchRound % 2 = p.storeRound % 2 then x.notify else x

/-- `cv_empty_.notify_one()` of the buffer that `store` has emptied, if it has emptied one. -/
def notifyEmpty (p p' : Pipeline.Sys) (x : Fetcher) : Fetcher :=
  match p'.storePc with
  | .updating => if p.fetchRound % 2 = p.storeRound % 2 then x.notify else x
  | _ => x

/-- Who has to answer before the storer gets on, from the place that it has come to. -/
def owes (backups : List δ) (owed : List (Peer δ)) : StorePc → List (Peer δ)
  | .appending | .updating => [.backend]
  | .deleting _ => backups.map .server
  -- the write on the primary has landed, the backups have been asked before that
  | .deleted _ => owed
  | .idle | .locked => []

/-- The places which the storer does not leave before everybody has answered. -/
def Waits : StorePc → Prop
  | .appending | .deleted _ | .updating => True
  | .idle | .locked | .deleting _ => False

/-- One step, with the backups that `dur_cli_` has next to the primary. -/
inductive Step (c : Config) (backups : List δ) (maxFetchSize : ℕ) : Who δ → Sys δ → Sys δ → Prop
  | append {s : Sys δ} {e : LogEntry} {p : Pipeline.Sys} (hp : Pipeline.Step c maxFetchSize (.append e) s.pipe p) :
    Step c backups maxFetchSize .other s { s with pipe := p }
  | answer {s : Sys δ} {x : Peer δ} {l₁ l₂ : List (Peer δ)} (hx : s.owed = l₁ ++ x :: l₂) :
    Step c backups maxFetchSize (.peer x) s { s with owed := l₁ ++ l₂ }
  | stop {s : Sys δ} : Step c backups maxFetchSize .other s { s with run := false }
  | fetchCall {s : Sys δ} (h : s.fetcher = .outside) (hr : s.run = true) :
    Step c backups maxFetchSize .fetcher s { s with fetcher := .inside }
  | fetchLeave {s : Sys δ} (h : s.fetcher = .outside) (hr : s.run = false) :
    Step c backups maxFetchSize .fetcher s { s with fetcher := .left }
  | fetchGo {s : Sys δ} {p : Pipeline.Sys} (h : s.fetcher = .inside) (hp : FetchMove c maxFetchSize s.pipe p)
    (hpc : p.fetchPc ≠ .idle) : Step c backups maxFetchSize .fetcher s { s with pipe := p }
  | fetchSleep {s : Sys δ} {p : Pipeline.Sys} (h : s.fetcher = .inside) (hp : FetchMove c maxFetchSize s.pipe p)
    (hpc : s.pipe.fetchPc = .locked) (hpc' : p.fetchPc = .idle) :
    Step c backups maxFetchSize .fetcher s { s with pipe := p, fetcher := .asleep }
  | fetchWake {s : Sys δ} (h : s.fetcher = .asleep) :
    Step c backups maxFetchSize .timer s { s with fetcher := .inside }
  | fetchReturn {s : Sys δ} {p : Pipeline.Sys} (h : s.fetcher = .inside) (hp : FetchMove c maxFetchSize s.pipe p)
    (hpc : s.pipe.fetchPc ≠ .locked) (hpc' : p.fetchPc = .idle) :
    Step c backups maxFetchSize .fetcher s
      { s with pipe := p, fetcher := .outside, storer := notifyFull s.pipe p s.storer }
  | storeCall {s : Sys δ} (h : s.storer = .outside) (hr : s.run = true) :
    Step c backups maxFetchSize .storer s { s with storer := .inside }
  | storeLeave {s : Sys δ} (h : s.storer = .outside) (hr : s.run = false) :
    Step c backups maxFetchSize .storer s { s with storer := .left }
  | storeGo {s : Sys δ} {p : Pipeline.Sys} (h : s.storer = .inside) (hp : StoreMove c maxFetchSize s.pipe p)
    (hpc : p.storePc ≠ .idle) (hw : Waits s.pipe.storePc → s.owed = []) :
    Step c backups maxFetchSize .storer s
      { s with pipe := p, fetcher := notifyEmpty s.pipe p s.fetcher, owed := owes backups s.owed p.storePc }
  | storeSleep {s : Sys δ} {p : Pipeline.Sys} (h : s.storer = .inside) (hp : StoreMove c maxFetchSize s.pipe p)
    (hpc : s.pipe.storePc = .locked) (hpc' : p.storePc = .idle) :
    Step c backups maxFetchSize .storer s { s with pipe := p, storer := .asleep }
  | storeWake {s : Sys δ} (h : s.storer = .asleep) : Step c backups maxFetchSize .timer s { s with storer := .woken }
  | storeAgain {s : Sys δ} {p : Pipeline.Sys} (h : s.storer = .woken) (hr : s.run = true)
    (hp : StoreMove c maxFetchSize s.pipe p) (hpc' : p.storePc = .locked) :
    Step c backups maxFetchSize .storer s { s with pipe := p, storer := .inside }
  | storeGiveUp {s : Sys δ} (h : s.storer = .woken) (hr : s.run = false)
    (hl : (s.pipe.buf s.pipe.storeRound).lock = none) :
    Step c backups maxFetchSize .storer s { s with storer := .outside }
  | storeReturn {s : Sys δ} {p : Pipeline.Sys} (h : s.storer = .inside) (hp : StoreMove c maxFetchSize s.pipe p)
    (hpc : s.pipe.storePc ≠ .locked) (hpc' : p.storePc = .idle) (ho : s.owed = []) :
    Step c backups maxFetchSize .storer s { s with pipe := p, storer := .outside }

/-- The threads have been started. -/
structure Start (s : Sys δ) : Prop where
  pipe : Pipeline.Start s.pipe
  run : s.run = true
  fetcher : s.fetcher = .outside
  storer : s.storer = .outside
  owed : s.owed = []

/-- One step of somebody. -/
def Next (c : Config) (backups : List δ) (maxFetchSize : ℕ) (s s' : Sys δ) : Prop :=
  ∃ who, Step c backups maxFetchSize who s s'

/-- The threads, at any time. -/
def Reached (c : Config) (backups : List δ) (maxFetchSize : ℕ) : Sys δ → Prop :=
  Reach Start (Next c backups maxFetchSize)

variable {c : Config} {backups : List δ} {maxFetchSize : ℕ} {p p' : Pipeline.Sys} {s s' : Sys δ} {who : Who δ}

/-! ### The pipeline underneath -/

theorem Step.pipe_cases (h : Step c backups maxFetchSize who s s') :
    s'.pipe = s.pipe ∨ ∃ a, Pipeline.Step c maxFetchSize a s.pipe s'.pipe := by
  cases h with
  | append hp => exact Or.inr ⟨_, hp⟩
  | fetchGo h hp => exact Or.inr ⟨_, hp.step⟩
  | fetchSleep h hp => exact Or.inr ⟨_, hp.step⟩
  | fetchReturn h hp => exact Or.inr ⟨_, hp.step⟩
  | storeGo h hp => exact Or.inr hp.step
  | storeSleep h hp => exact Or.inr hp.step
  | storeAgain h hr hp => exact Or.inr hp.step
  | storeReturn h hp => exact Or.inr hp.step
  | answer | stop | fetchCall | fetchLeave | fetchWake | storeCall | storeLeave | storeWake | storeGiveUp =>
    exact Or.inl rfl

/-- **The threads run the pipeline**, so that all that is known of it holds here. -/
theorem reachable_pipe (h : Reached c backups maxFetchSize s) : (Pipeline.lts c maxFetchSize).Reachable s.pipe := by
  refine h.invariant (P := fun s => (Pipeline.lts c maxFetchSize).Reachable s.pipe) (fun s hs => .start hs.pipe) ?_
  rintro s s' - ih ⟨who, hs⟩
  rcases hs.pipe_cases with heq | ⟨a, hp⟩
  · rw [heq]
    exact ih
  · exact ih.next hp

/-! ### The locks -/

/-- Whether a thread is between taking and giving up a lock. -/
def Busy (p : Pipeline.Sys) : Thread → Prop
  | .fetcher => p.fetchPc ≠ .idle
  | .storer => p.storePc ≠ .idle

/-- The round a thread is at. -/
def round (p : Pipeline.Sys) : Thread → ℕ
  | .fetcher => p.fetchRound
  | .storer => p.storeRound

/-- The lock of a buffer is held by the thread that is busy with it. -/
def Locks (p : Pipeline.Sys) : Prop :=
  ∀ t r, (p.buf r).lock = some t ↔ Busy p t ∧ r % 2 = round p t % 2

theorem Locks.congr (h : Locks p) (hl : ∀ r, (p'.buf r).lock = (p.buf r).lock) (hb : ∀ t, Busy p' t ↔ Busy p t)
    (hr : round p' = round p) : Locks p' := by
  intro t r
  rw [hl r, hb t, hr]
  exact h t r

theorem Locks.take (h : Locks p) (t : Thread) (hl : (p.buf (round p t)).lock = none)
    (hp : p'.buffers = (p.setLock (round p t) (some t)).buffers) (hb : Busy p' t) (hr : round p' = round p)
    (hu : ∀ u, u ≠ t → (Busy p' u ↔ Busy p u)) : Locks p' := by
  intro u r
  rw [Pipeline.buf_of_buffers hp, hr]
  by_cases hq : r % 2 = round p t % 2
  · -- nobody had the buffer, so that only the thread itself is busy with it
    have hnone : ¬ (Busy p u ∧ r % 2 = round p u % 2) := by
      rw [← h u r, Pipeline.buf_congr p hq, hl]
      rintro ⟨⟩
    rw [Pipeline.Sys.setLock, Pipeline.buf_setBuf_eq p _ hq]
    by_cases hut : u = t
    · subst hut
      exact ⟨fun _ => ⟨hb, hq⟩, fun _ => rfl⟩
    · rw [hu u hut]
      exact ⟨fun heq => absurd (Option.some.inj heq).symm hut, fun hx => absurd hx hnone⟩
  · rw [Pipeline.Sys.setLock, Pipeline.buf_setBuf_ne p _ hq, h u r]
    by_cases hut : u = t
    · subst hut
      exact ⟨fun hx => absurd hx.2 hq, fun hx => absurd hx.2 hq⟩
    · rw [hu u hut]

theorem Locks.give (h : Locks p) (t : Thread) (ht : Busy p t) {b : PipelineObj} (hl : b.lock = none)
    (hp : p'.buffers = (p.setBuf (round p t) b).buffers) (hb : ¬ Busy p' t)
    (hu : ∀ u, u ≠ t → (Busy p' u ↔ Busy p u) ∧ round p' u = round p u) : Locks p' := by
  intro u r
  have hmine : (p.buf (round p t)).lock = some t := (h t _).mpr ⟨ht, rfl⟩
  rw [Pipeline.buf_of_buffers hp]
  by_cases hut : u = t
  · subst hut
    refine ⟨fun heq => ?_, fun hx => absurd hx.1 hb⟩
    by_cases hq : r % 2 = round p u % 2
    · rw [Pipeline.buf_setBuf_eq p _ hq, hl] at heq
      cases heq
    · rw [Pipeline.buf_setBuf_ne p _ hq] at heq
      exact absurd ((h u r).mp heq).2 hq
  · rw [(hu u hut).1, (hu u hut).2]
    by_cases hq : r % 2 = round p t % 2
    · rw [Pipeline.buf_setBuf_eq p _ hq, hl]
      refine ⟨by rintro ⟨⟩, fun hx => ?_⟩
      have hother := (h u r).mpr hx
      rw [Pipeline.buf_congr p hq, hmine] at hother
      exact absurd (Option.some.inj hother).symm hut
    · rw [Pipeline.buf_setBuf_ne p _ hq]
      exact h u r

theorem Locks.free (h : Locks p) (hf : p.fetchPc = .idle) (hs : p.storePc = .idle) (r : ℕ) :
    (p.buf r).lock = none := by
  refine Option.eq_none_iff_forall_ne_some.mpr fun t ht => ?_
  have hbusy := ((h t r).mp ht).1
  cases t with
  | fetcher => exact hbusy hf
  | storer => exact hbusy hs

theorem lock_of_buffers (h : p'.buffers = p.buffers) (r : ℕ) : (p'.buf r).lock = (p.buf r).lock := by
  rw [Pipeline.buf_of_buffers h]

theorem empty_of_buffers (h : p'.buffers = p.buffers) (r : ℕ) : (p'.buf r).empty = (p.buf r).empty := by
  rw [Pipeline.buf_of_buffers h]

theorem lock_setBuf (p : Pipeline.Sys) (q r : ℕ) (es : List LogEntry) (e : Bool) :
    ((p.setBuf q ⟨es, (p.buf q).lock, e⟩).buf r).lock = (p.buf r).lock := by
  by_cases hq : r % 2 = q % 2
  · rw [Pipeline.buf_setBuf_eq p _ hq, Pipeline.buf_congr p hq]
  · rw [Pipeline.buf_setBuf_ne p _ hq]

theorem locks_of_start (h : Pipeline.Start p) : Locks p := by
  rintro t r
  have hl : (p.buf r).lock = none := by
    rw [Pipeline.Sys.buf, h.buffers]
  rw [hl]
  refine ⟨by rintro ⟨⟩, fun hx => ?_⟩
  cases t with
  | fetcher => exact absurd h.pcs.1 hx.1
  | storer => exact absurd h.pcs.2 hx.1

theorem Locks.keep (h : Locks p) (hl : ∀ r, (p'.buf r).lock = (p.buf r).lock)
    (hf : p'.fetchPc = .idle ↔ p.fetchPc = .idle) (hs : p'.storePc = .idle ↔ p.storePc = .idle)
    (hr : p'.fetchRound = p.fetchRound ∧ p'.storeRound = p.storeRound) : Locks p' := by
  refine h.congr hl ?_ (funext ?_)
  · rintro (_ | _)
    · exact not_congr hf
    · exact not_congr hs
  · rintro (_ | _)
    · exact hr.1
    · exact hr.2

theorem Locks.fetchGive (h : Locks p) (ht : p.fetchPc ≠ .idle) {b : PipelineObj} (hl : b.lock = none)
    (hp : p'.buffers = (p.setBuf p.fetchRound b).buffers) (hb : p'.fetchPc = .idle) (hs : p'.storePc = p.storePc)
    (hr : p'.storeRound = p.storeRound) : Locks p' := by
  refine h.give .fetcher ht hl hp (not_not_intro hb) ?_
  rintro (_ | _) hu
  · exact absurd rfl hu
  · exact ⟨by unfold Busy; rw [hs], hr⟩

theorem Locks.storeGive (h : Locks p) (ht : p.storePc ≠ .idle) {b : PipelineObj} (hl : b.lock = none)
    (hp : p'.buffers = (p.setBuf p.storeRound b).buffers) (hb : p'.storePc = .idle) (hf : p'.fetchPc = p.fetchPc)
    (hr : p'.fetchRound = p.fetchRound) : Locks p' := by
  refine h.give .storer ht hl hp (not_not_intro hb) ?_
  rintro (_ | _) hu
  · exact ⟨by unfold Busy; rw [hf], hr⟩
  · exact absurd rfl hu

theorem Locks.step {a : Label} (h : Locks p) (hs : Pipeline.Step c maxFetchSize a p p') : Locks p' := by
  cases hs with
  | append e he => exact h.keep (lock_of_buffers rfl) Iff.rfl Iff.rfl ⟨rfl, rfl⟩
  | fetchLock hpc hl =>
    refine h.take .fetcher hl rfl (by rintro ⟨⟩) (by ext (_ | _) <;> rfl) ?_
    rintro (_ | _) hu
    · exact absurd rfl hu
    · exact Iff.rfl
  | fetchWait hpc he => exact h.fetchGive (by rw [hpc]; rintro ⟨⟩) rfl rfl rfl rfl rfl
  | fetchRange hpc he =>
    exact h.keep (lock_of_buffers rfl) ⟨by rintro ⟨⟩, fun h0 => by rw [hpc] at h0; cases h0⟩ Iff.rfl ⟨rfl, rfl⟩
  | fetchNothing hpc hn => exact h.fetchGive (by rw [hpc]; rintro ⟨⟩) rfl rfl rfl rfl rfl
  | fetchRead hpc hb hr =>
    exact h.keep (lock_of_buffers rfl) ⟨by rintro ⟨⟩, fun h0 => by rw [hpc] at h0; cases h0⟩ Iff.rfl ⟨rfl, rfl⟩
  | fetchNone hpc hes => exact h.fetchGive (by rw [hpc]; rintro ⟨⟩) rfl rfl rfl rfl rfl
  | fetchDone hpc hes hn => exact h.fetchGive (by rw [hpc]; rintro ⟨⟩) rfl rfl rfl rfl rfl
  | storeLock hpc hl =>
    refine h.take .storer hl rfl (by rintro ⟨⟩) (by ext (_ | _) <;> rfl) ?_
    rintro (_ | _) hu
    · exact Iff.rfl
    · exact absurd rfl hu
  | storeWait hpc he => exact h.storeGive (by rw [hpc]; rintro ⟨⟩) rfl rfl rfl rfl rfl
  | storeAppend hpc he =>
    exact h.keep (lock_of_buffers rfl) Iff.rfl ⟨by rintro ⟨⟩, fun h0 => by rw [hpc] at h0; cases h0⟩ ⟨rfl, rfl⟩
  | storeDelete hpc =>
    exact h.keep (lock_of_buffers rfl) Iff.rfl ⟨by rintro ⟨⟩, fun h0 => by rw [hpc] at h0; cases h0⟩ ⟨rfl, rfl⟩
  | storeLand hpc =>
    exact h.keep (lock_of_buffers rfl) Iff.rfl ⟨by rintro ⟨⟩, fun h0 => by rw [hpc] at h0; cases h0⟩ ⟨rfl, rfl⟩
  | storeUpdate hpc =>
    refine h.keep (fun r => ?_) Iff.rfl ⟨by rintro ⟨⟩, fun h0 => by rw [hpc] at h0; cases h0⟩ ⟨rfl, rfl⟩
    exact lock_setBuf p p.storeRound r [] true
  | storeDone hpc => exact h.storeGive (by rw [hpc]; rintro ⟨⟩) rfl rfl rfl rfl rfl

/-- **The buffers are locked one thread at a time**, by the one that is busy with them. -/
theorem locks_of_reachable (h : (Pipeline.lts c maxFetchSize).Reachable p) : Locks p :=
  h.invariant (fun _ hs => locks_of_start hs) (fun _ _ _ _ ih hs => ih.step hs)

/-! ### What one thread's step does to the other -/

/-- What a step of the fetcher changes for the storer: if it ends a round, the buffer of that round. -/
structure FetchEffect (p p' : Pipeline.Sys) : Prop where
  storeRound : p'.storeRound = p.storeRound
  empty : ∀ r, ¬ (p'.fetchRound ≠ p.fetchRound ∧ p.fetchRound % 2 = r % 2) → (p'.buf r).empty = (p.buf r).empty
  busy : p'.fetchPc ≠ .idle → p'.fetchRound = p.fetchRound
  wait : p.fetchPc = .locked → p'.fetchPc = .idle → (p'.buf p'.fetchRound).empty = false

/-- What a step of the storer changes for the fetcher: if it clears a buffer, that buffer. -/
structure StoreEffect (p p' : Pipeline.Sys) : Prop where
  fetchRound : p'.fetchRound = p.fetchRound
  fetchPc : p'.fetchPc = p.fetchPc
  empty : ∀ r, ¬ (p'.storePc = .updating ∧ r % 2 = p.storeRound % 2) → (p'.buf r).empty = (p.buf r).empty
  wait : p.storePc = .locked → p'.storePc = .idle → (p'.buf p'.storeRound).empty = true

theorem empty_setLock (p : Pipeline.Sys) (q r : ℕ) (o : Option Thread) :
    ((p.setLock q o).buf r).empty = (p.buf r).empty := (Pipeline.buf_setLock p q o r).1

theorem FetchMove.effect (h : FetchMove c maxFetchSize p p') : FetchEffect p p' := by
  obtain ⟨hs, hst⟩ := h
  cases hs with
  | fetchLock hpc hl =>
    exact ⟨rfl, fun r _ => empty_setLock p p.fetchRound r _, fun _ => rfl, fun _ h0 => by cases h0⟩
  | fetchWait hpc he =>
    refine ⟨rfl, fun r _ => empty_setLock p p.fetchRound r _, fun _ => rfl, fun _ _ => ?_⟩
    exact (empty_setLock p p.fetchRound p.fetchRound none).trans he
  | fetchRange hpc he => exact ⟨rfl, fun _ _ => rfl, fun _ => rfl, fun _ h0 => by cases h0⟩
  | fetchNothing hpc hn =>
    refine ⟨rfl, fun r _ => empty_setLock p p.fetchRound r _, fun _ => rfl, fun h0 _ => ?_⟩
    rw [hpc] at h0
    cases h0
  | fetchRead hpc hb hr => exact ⟨rfl, fun _ _ => rfl, fun _ => rfl, fun _ h0 => by cases h0⟩
  | @fetchNone _ b e es hpc hes =>
    refine ⟨rfl, fun r _ => ?_, fun _ => rfl, fun h0 _ => ?_⟩
    · by_cases hq : r % 2 = p.fetchRound % 2
      · exact (congrArg PipelineObj.empty (Pipeline.buf_setBuf_eq p _ hq)).trans
          (congrArg PipelineObj.empty (Pipeline.buf_congr p hq)).symm
      · exact congrArg PipelineObj.empty (Pipeline.buf_setBuf_ne p _ hq)
    · rw [hpc] at h0
      cases h0
  | @fetchDone _ b e n es hpc hes hn =>
    refine ⟨rfl, fun r hr => ?_, fun h0 => absurd rfl h0, fun h0 _ => ?_⟩
    · have hq : r % 2 ≠ p.fetchRound % 2 := fun hq => hr ⟨Nat.succ_ne_self _, hq.symm⟩
      exact congrArg PipelineObj.empty (Pipeline.buf_setBuf_ne p _ hq)
    · rw [hpc] at h0
      cases h0
  | storeLock hpc | storeWait hpc | storeLand hpc =>
    rw [hpc] at hst
    cases hst

theorem storeEffect_primary (q : State) (mr : Mem) (pc : StorePc) (hpc : pc ≠ .idle) :
    StoreEffect p { p with primary := q, mr := mr, storePc := pc } :=
  ⟨rfl, rfl, fun r _ => empty_of_buffers rfl r, fun _ h0 => absurd h0 hpc⟩

theorem StoreMove.effect (h : StoreMove c maxFetchSize p p') : StoreEffect p p' := by
  obtain ⟨⟨a, hs⟩, hst⟩ := h
  cases hs with
  | storeLock hpc hl =>
    exact ⟨rfl, rfl, fun r _ => empty_setLock p p.storeRound r _, fun _ h0 => by cases h0⟩
  | storeWait hpc he =>
    refine ⟨rfl, rfl, fun r _ => empty_setLock p p.storeRound r _, fun _ _ => ?_⟩
    exact (empty_setLock p p.storeRound p.storeRound none).trans he
  | storeAppend hpc he => exact ⟨rfl, rfl, fun _ _ => rfl, fun _ h0 => by cases h0⟩
  | storeDelete hpc => exact storeEffect_primary _ _ _ (by rintro ⟨⟩)
  | storeLand hpc => exact storeEffect_primary _ _ _ (by rintro ⟨⟩)
  | storeUpdate hpc =>
    refine ⟨rfl, rfl, fun r hr => ?_, fun _ h0 => by cases h0⟩
    have hq : r % 2 ≠ p.storeRound % 2 := fun hq => hr ⟨rfl, hq⟩
    exact congrArg PipelineObj.empty (Pipeline.buf_setBuf_ne p _ hq)
  | storeDone hpc =>
    refine ⟨rfl, rfl, fun r _ => empty_setLock p p.storeRound r _, fun h0 _ => ?_⟩
    rw [hpc] at h0
    cases h0
  | append | fetchLock | fetchWait | fetchRange | fetchNothing | fetchRead | fetchNone | fetchDone =>
    exact absurd rfl hst

/-! ### Nobody sleeps for nothing -/

/-- Where the threads are, and that each of them sleeps only for a reason. -/
structure Inv (s : Sys δ) : Prop where
  fetcher_idle : s.fetcher ≠ .inside → s.pipe.fetchPc = .idle
  storer_idle : s.storer ≠ .inside → s.pipe.storePc = .idle
  fetcher_asleep : s.fetcher = .asleep → (s.pipe.buf s.pipe.fetchRound).empty = false
  storer_asleep : s.storer = .asleep → (s.pipe.buf s.pipe.storeRound).empty = true
  fetcher_left : s.fetcher = .left → s.run = false
  storer_left : s.storer = .left → s.run = false
  owed_nil : s.pipe.storePc = .idle ∨ s.pipe.storePc = .locked → s.owed = []

theorem inv_of_start (h : Start s) : Inv s := by
  obtain ⟨hp, hr, hf, hst, ho⟩ := h
  refine ⟨fun _ => hp.pcs.1, fun _ => hp.pcs.2, fun h0 => ?_, fun h0 => ?_, fun h0 => ?_, fun h0 => ?_, fun _ => ho⟩
  · rw [hf] at h0; cases h0
  · rw [hst] at h0; cases h0
  · rw [hf] at h0; cases h0
  · rw [hst] at h0; cases h0

theorem Inv.append (h : Inv s) (q : State) : Inv { s with pipe := { s.pipe with primary := q } } :=
  ⟨h.fetcher_idle, h.storer_idle, h.fetcher_asleep, h.storer_asleep, h.fetcher_left, h.storer_left, h.owed_nil⟩

theorem notifyFull_cases (p p' : Pipeline.Sys) (x : Storer) : notifyFull p p' x = x.notify ∨
    notifyFull p p' x = x ∧ ¬ (p'.fetchRound ≠ p.fetchRound ∧ p.fetchRound % 2 = p.storeRound % 2) := by
  unfold notifyFull
  split
  · exact Or.inl rfl
  · next hn => exact Or.inr ⟨rfl, hn⟩

theorem notifyEmpty_cases (p p' : Pipeline.Sys) (x : Fetcher) : notifyEmpty p p' x = x.notify ∨
    notifyEmpty p p' x = x ∧ ¬ (p'.storePc = .updating ∧ p.fetchRound % 2 = p.storeRound % 2) := by
  unfold notifyEmpty
  split
  · split
    · exact Or.inl rfl
    · next hn => exact Or.inr ⟨rfl, fun hx => hn hx.2⟩
  · next hpc => exact Or.inr ⟨rfl, fun hx => hpc hx.1⟩

theorem notifyFull_idle {x : Storer} (h : notifyFull p p' x ≠ .inside) : x ≠ .inside := by
  rintro rfl
  rcases notifyFull_cases p p' .inside with h' | ⟨h', -⟩ <;> exact h h'

theorem notifyEmpty_idle {x : Fetcher} (h : notifyEmpty p p' x ≠ .inside) : x ≠ .inside := by
  rintro rfl
  rcases notifyEmpty_cases p p' .inside with h' | ⟨h', -⟩ <;> exact h h'

theorem notifyFull_left {x : Storer} (h : notifyFull p p' x = .left) : x = .left := by
  rcases notifyFull_cases p p' x with h' | ⟨h', -⟩
  · rw [h'] at h
    cases x <;> first | rfl | cases h
  · rw [← h', h]

theorem notifyEmpty_left {x : Fetcher} (h : notifyEmpty p p' x = .left) : x = .left := by
  rcases notifyEmpty_cases p p' x with h' | ⟨h', -⟩
  · rw [h'] at h
    cases x <;> first | rfl | cases h
  · rw [← h', h]

/-- A storer that sleeps on has not been notified, so that its buffer is as before. -/
theorem notifyFull_asleep {x : Storer} (h : notifyFull p p' x = .asleep) :
    x = .asleep ∧ ¬ (p'.fetchRound ≠ p.fetchRound ∧ p.fetchRound % 2 = p.storeRound % 2) := by
  rcases notifyFull_cases p p' x with h' | ⟨h', hn⟩
  · rw [h'] at h
    cases x <;> cases h
  · exact ⟨by rw [← h', h], hn⟩

/-- A fetcher that sleeps on has not been notified, so that its buffer is as before. -/
theorem notifyEmpty_asleep {x : Fetcher} (h : notifyEmpty p p' x = .asleep) :
    x = .asleep ∧ ¬ (p'.storePc = .updating ∧ p.fetchRound % 2 = p.storeRound % 2) := by
  rcases notifyEmpty_cases p p' x with h' | ⟨h', hn⟩
  · rw [h'] at h
    cases x <;> cases h
  · exact ⟨by rw [← h', h], hn⟩

theorem FetchEffect.storer_empty (h : FetchEffect p p')
    (hn : ¬ (p'.fetchRound ≠ p.fetchRound ∧ p.fetchRound % 2 = p.storeRound % 2)) :
    (p'.buf p'.storeRound).empty = (p.buf p.storeRound).empty := by
  rw [h.storeRound]
  exact h.empty _ hn

theorem StoreEffect.fetcher_empty (h : StoreEffect p p')
    (hn : ¬ (p'.storePc = .updating ∧ p.fetchRound % 2 = p.storeRound % 2)) :
    (p'.buf p'.fetchRound).empty = (p.buf p.fetchRound).empty := by
  rw [h.fetchRound]
  exact h.empty _ hn

theorem FetchMove.fetchRound_eq (h : FetchMove c maxFetchSize p p') (hpc : p.fetchPc = .locked) :
    p'.fetchRound = p.fetchRound := by
  obtain ⟨hs, hst⟩ := h
  cases hs with
  | fetchDone hpc' =>
    rw [hpc] at hpc'
    cases hpc'
  | fetchLock | fetchWait | fetchRange | fetchNothing | fetchRead | fetchNone | storeLock | storeWait | storeLand =>
    rfl

theorem owed_nil_of_storer (hs : p'.storePc = p.storePc) {owed : List (Peer δ)}
    (h : p.storePc = .idle ∨ p.storePc = .locked → owed = []) :
    p'.storePc = .idle ∨ p'.storePc = .locked → owed = [] := by
  rw [hs]
  exact h

theorem Inv.step (h : Inv s) (hs : Step c backups maxFetchSize who s s') : Inv s' := by
  obtain ⟨hfi, hsi, hfa, hsa, hfl, hsl, hon⟩ := h
  cases hs with
  | append hp =>
    cases hp with
    | append e he => exact Inv.append ⟨hfi, hsi, hfa, hsa, hfl, hsl, hon⟩ _
  | answer hx =>
    refine ⟨hfi, hsi, hfa, hsa, hfl, hsl, fun h0 => ?_⟩
    have := hon h0
    rw [hx] at this
    simp at this
  | stop => exact ⟨hfi, hsi, hfa, hsa, fun _ => rfl, fun _ => rfl, hon⟩
  | fetchCall h hr =>
    have hpc := hfi (by rw [h]; rintro ⟨⟩)
    exact ⟨fun _ => hpc, hsi, by rintro ⟨⟩, hsa, by rintro ⟨⟩, hsl, hon⟩
  | fetchLeave h hr =>
    have hpc := hfi (by rw [h]; rintro ⟨⟩)
    exact ⟨fun _ => hpc, hsi, by rintro ⟨⟩, hsa, fun _ => hr, hsl, hon⟩
  | @fetchGo _ p h hp hpc =>
    have he := hp.effect
    refine ⟨fun h0 => absurd h h0, fun h0 => hp.storer.trans (hsi h0), fun h0 => ?_, fun h0 => ?_, hfl, hsl,
      owed_nil_of_storer hp.storer hon⟩
    · rw [h] at h0
      cases h0
    · exact (he.storer_empty fun hx => hx.1 (he.busy hpc)).trans (hsa h0)
  | @fetchSleep _ p h hp hpc hpc' =>
    have he := hp.effect
    refine ⟨fun _ => hpc', fun h0 => hp.storer.trans (hsi h0), fun _ => he.wait hpc hpc', fun h0 => ?_,
      by rintro ⟨⟩, hsl, owed_nil_of_storer hp.storer hon⟩
    exact (he.storer_empty fun hx => hx.1 (hp.fetchRound_eq hpc)).trans (hsa h0)
  | fetchWake h =>
    have hpc := hfi (by rw [h]; rintro ⟨⟩)
    exact ⟨fun _ => hpc, hsi, by rintro ⟨⟩, hsa, by rintro ⟨⟩, hsl, hon⟩
  | @fetchReturn _ p h hp hpc hpc' =>
    have he := hp.effect
    refine ⟨fun _ => hpc', fun h0 => hp.storer.trans (hsi (notifyFull_idle h0)), by rintro ⟨⟩, fun h0 => ?_,
      by rintro ⟨⟩, fun h0 => hsl (notifyFull_left h0), owed_nil_of_storer hp.storer hon⟩
    obtain ⟨hx, hn⟩ := notifyFull_asleep h0
    exact (he.storer_empty hn).trans (hsa hx)
  | storeCall h hr =>
    have hpc := hsi (by rw [h]; rintro ⟨⟩)
    exact ⟨hfi, fun _ => hpc, hfa, by rintro ⟨⟩, hfl, by rintro ⟨⟩, hon⟩
  | storeLeave h hr =>
    have hpc := hsi (by rw [h]; rintro ⟨⟩)
    exact ⟨hfi, fun _ => hpc, hfa, by rintro ⟨⟩, hfl, fun _ => hr, hon⟩
  | @storeGo _ p h hp hpc hw =>
    have he := hp.effect
    refine ⟨fun h0 => he.fetchPc.trans (hfi (notifyEmpty_idle h0)), fun h0 => absurd h h0, fun h0 => ?_,
      fun h0 => ?_, fun h0 => hfl (notifyEmpty_left h0), hsl, fun h0 => ?_⟩
    · obtain ⟨hx, hn⟩ := notifyEmpty_asleep h0
      exact (he.fetcher_empty hn).trans (hfa hx)
    · rw [h] at h0
      cases h0
    · have hl : p.storePc = .locked := h0.resolve_left hpc
      simp only [hl, owes]
  | @storeSleep _ p h hp hpc hpc' =>
    have he := hp.effect
    refine ⟨fun h0 => he.fetchPc.trans (hfi h0), fun _ => hpc', fun h0 => ?_, fun _ => he.wait hpc hpc', hfl,
      by rintro ⟨⟩, fun _ => hon (Or.inr hpc)⟩
    exact (he.fetcher_empty fun hx => by rw [hpc'] at hx; cases hx.1).trans (hfa h0)
  | storeWake h =>
    have hpc := hsi (by rw [h]; rintro ⟨⟩)
    exact ⟨hfi, fun _ => hpc, hfa, by rintro ⟨⟩, hfl, by rintro ⟨⟩, hon⟩
  | @storeAgain _ p h hr hp hpc' =>
    have he := hp.effect
    have hidle := hsi (by rw [h]; rintro ⟨⟩)
    refine ⟨fun h0 => he.fetchPc.trans (hfi h0), fun h0 => absurd rfl h0, fun h0 => ?_, by rintro ⟨⟩, hfl,
      by rintro ⟨⟩, fun _ => hon (Or.inl hidle)⟩
    exact (he.fetcher_empty fun hx => by rw [hpc'] at hx; cases hx.1).trans (hfa h0)
  | storeGiveUp h hr hl =>
    have hpc := hsi (by rw [h]; rintro ⟨⟩)
    exact ⟨hfi, fun _ => hpc, hfa, by rintro ⟨⟩, hfl, by rintro ⟨⟩, hon⟩
  | @storeReturn _ p h hp hpc hpc' ho =>
    have he := hp.effect
    refine ⟨fun h0 => he.fetchPc.trans (hfi h0), fun _ => hpc', fun h0 => ?_, by rintro ⟨⟩, hfl, by rintro ⟨⟩,
      fun _ => ho⟩
    exact (he.fetcher_empty fun hx => by rw [hpc'] at hx; cases hx.1).trans (hfa h0)

theorem inv_of_reached (h : Reached c backups maxFetchSize s) : Inv s :=
  h.invariant (fun _ hs => inv_of_start hs) (fun _ _ _ ih ⟨_, hs⟩ => ih.step hs)

/-! ### Where the rounds are -/

theorem exists_inv (h : Reached c backups maxFetchSize s) : ∃ g st f, Pipeline.Inv c s.pipe g st f := by
  obtain ⟨x, -, g, st, f, hi, -⟩ := (Pipeline.simulation c maxFetchSize).reachable (reachable_pipe h)
  exact ⟨g, st, f, hi⟩

theorem fetchRound_eq_of_empty {d : ℕ} (h : Pipeline.Buffers p d) (he : (p.buf d).empty = true) :
    p.fetchRound = d := by
  by_contra hne
  have hlt : d < p.fetchRound := lt_of_le_of_ne h.le (Ne.symm hne)
  have := (h.full d le_rfl hlt).1
  rw [he] at this
  cases this

theorem fetchRound_eq_of_full {d : ℕ} (h : Pipeline.Buffers p d) (he : (p.buf p.fetchRound).empty = false) :
    p.fetchRound = d + 2 := by
  by_contra hne
  have hlt : p.fetchRound < d + 2 := lt_of_le_of_ne h.le_add hne
  have := (h.free p.fetchRound le_rfl hlt).1
  rw [he] at this
  cases this

theorem cleared_of_idle (h : p.storePc = .idle) : p.cleared = p.storeRound := by
  unfold Pipeline.Sys.cleared
  rw [h]

/-! ### The threads at work -/

/-- A step of one of the two threads, or an answer of somebody in `A`: no clock and nobody else takes part. -/
def ThreadStep (c : Config) (backups : List δ) (maxFetchSize : ℕ) (A : Set (Peer δ)) (s s' : Sys δ) : Prop :=
  Step c backups maxFetchSize .fetcher s s' ∨ Step c backups maxFetchSize .storer s s' ∨
    ∃ x ∈ A, Step c backups maxFetchSize (.peer x) s s'

/-- Some steps of the two threads and of those in `A` lead to a state with a property. -/
def Leads (c : Config) (backups : List δ) (maxFetchSize : ℕ) (A : Set (Peer δ)) (s : Sys δ) (P : Sys δ → Prop) :
    Prop :=
  ∃ s', ReflTransGen (ThreadStep c backups maxFetchSize A) s s' ∧ P s'

variable {A : Set (Peer δ)} {P : Sys δ → Prop}

theorem ThreadStep.next (h : ThreadStep c backups maxFetchSize A s s') : Next c backups maxFetchSize s s' := by
  rcases h with h | h | ⟨x, -, h⟩
  · exact ⟨_, h⟩
  · exact ⟨_, h⟩
  · exact ⟨_, h⟩

theorem Leads.refl (h : P s) : Leads c backups maxFetchSize A s P := ⟨s, .refl, h⟩

theorem Leads.head (hs : ThreadStep c backups maxFetchSize A s s') (h : Leads c backups maxFetchSize A s' P) :
    Leads c backups maxFetchSize A s P := by
  obtain ⟨t, ht, hP⟩ := h
  exact ⟨t, .head hs ht, hP⟩

theorem Leads.fetcher (hs : Step c backups maxFetchSize .fetcher s s') (h : Leads c backups maxFetchSize A s' P) :
    Leads c backups maxFetchSize A s P := .head (Or.inl hs) h

theorem Leads.storer (hs : Step c backups maxFetchSize .storer s s') (h : Leads c backups maxFetchSize A s' P) :
    Leads c backups maxFetchSize A s P := .head (Or.inr (Or.inl hs)) h

theorem Step.answer_head {x : Peer δ} {l : List (Peer δ)} (hx : s.owed = x :: l) :
    Step c backups maxFetchSize (.peer x) s { s with owed := l } :=
  @Step.answer _ c backups maxFetchSize s x [] l hx

theorem Leads.answers (hA : ∀ x ∈ s.owed, x ∈ A) (h : Leads c backups maxFetchSize A { s with owed := [] } P) :
    Leads c backups maxFetchSize A s P := by
  obtain ⟨l, hl⟩ : ∃ l, s.owed = l := ⟨_, rfl⟩
  induction l generalizing s with
  | nil =>
    have hs : { s with owed := [] } = s := by rw [← hl]
    rwa [hs] at h
  | cons x l ih =>
    have hx : x ∈ A := hA x (by rw [hl]; exact List.mem_cons_self)
    have hrest : ∀ y ∈ l, y ∈ A := fun y hy => hA y (by rw [hl]; exact List.mem_cons_of_mem x hy)
    exact .head (Or.inr (Or.inr ⟨x, hx, .answer_head hl⟩)) (ih hrest h rfl)

/-- The storer is done with the round. -/
def Stored (r : ℕ) (s : Sys δ) : Prop := s.pipe.storeRound = r + 1

/-- The storer is in the round and waits for somebody who is not in `A`. -/
def Waiting (A : Set (Peer δ)) (r : ℕ) (s : Sys δ) : Prop := s.pipe.storeRound = r ∧ ∃ x ∈ s.owed, x ∉ A

/-- The storer gets as far with the round as the answers of those in `A` allow. -/
def Settles (c : Config) (backups : List δ) (maxFetchSize : ℕ) (A : Set (Peer δ)) (r : ℕ) (s : Sys δ) : Prop :=
  Leads c backups maxFetchSize A s fun t => Stored r t ∨ Waiting A r t

variable {r : ℕ}

theorem Settles.answers (hr : s.pipe.storeRound = r) (h : Settles c backups maxFetchSize A r { s with owed := [] }) :
    Settles c backups maxFetchSize A r s := by
  by_cases hA : ∀ x ∈ s.owed, x ∈ A
  · exact Leads.answers hA h
  · push Not at hA
    exact .refl (Or.inr ⟨hr, hA⟩)

/-- The storer goes on with its round, when everybody has answered or there is nobody to wait for. -/
theorem Settles.go {a : Label} (hr : s.pipe.storeRound = r) (h : s.storer = .inside)
    (hs : Pipeline.Step c maxFetchSize a s.pipe p) (hpc : p.storePc ≠ s.pipe.storePc) (hidle : p.storePc ≠ .idle)
    (hnext : ∀ t : Sys δ, t.pipe = p → t.storer = .inside → Settles c backups maxFetchSize A r t) :
    Settles c backups maxFetchSize A r s :=
  Settles.answers hr (.storer (.storeGo h ⟨⟨a, hs⟩, hpc⟩ hidle fun _ => rfl) (hnext _ rfl h))

theorem settles_of_updating (hr : s.pipe.storeRound = r) (h : s.storer = .inside)
    (hpc : s.pipe.storePc = .updating) : Settles c backups maxFetchSize A r s := by
  have hmove : StoreMove c maxFetchSize s.pipe _ := ⟨⟨_, .storeDone hpc⟩, by rw [hpc]; rintro ⟨⟩⟩
  refine Settles.answers hr (.storer (.storeReturn h hmove (by rw [hpc]; rintro ⟨⟩) rfl rfl) ?_)
  exact .refl (Or.inl (congrArg (· + 1) hr))

theorem settles_of_deleted {x : UInt64} (hr : s.pipe.storeRound = r) (h : s.storer = .inside)
    (hpc : s.pipe.storePc = .deleted x) : Settles c backups maxFetchSize A r s := by
  refine Settles.go hr h (.storeUpdate hpc) (by rw [hpc]; rintro ⟨⟩) (by rintro ⟨⟩) fun t hp ht => ?_
  exact settles_of_updating (by rw [hp]; exact hr) ht (by rw [hp])

theorem settles_of_deleting {x : UInt64} (hr : s.pipe.storeRound = r) (h : s.storer = .inside)
    (hpc : s.pipe.storePc = .deleting x) : Settles c backups maxFetchSize A r s := by
  refine Settles.go hr h (.storeLand hpc) (by rw [hpc]; rintro ⟨⟩) (by rintro ⟨⟩) fun t hp ht => ?_
  exact settles_of_deleted (by rw [hp]; exact hr) ht (by rw [hp])

theorem settles_of_appending (hr : s.pipe.storeRound = r) (h : s.storer = .inside)
    (hpc : s.pipe.storePc = .appending) : Settles c backups maxFetchSize A r s := by
  refine Settles.go hr h (.storeDelete hpc) (by rw [hpc]; rintro ⟨⟩) (by rintro ⟨⟩) fun t hp ht => ?_
  exact settles_of_deleting (by rw [hp]; exact hr) ht (by rw [hp])

theorem settles_of_locked (hr : s.pipe.storeRound = r) (h : s.storer = .inside) (hpc : s.pipe.storePc = .locked)
    (he : (s.pipe.buf s.pipe.storeRound).empty = false) : Settles c backups maxFetchSize A r s := by
  refine Settles.go hr h (.storeAppend hpc he) (by rw [hpc]; rintro ⟨⟩) (by rintro ⟨⟩) fun t hp ht => ?_
  exact settles_of_appending (by rw [hp]; exact hr) ht (by rw [hp])

theorem settles_of_free (hI : Inv s) (hrun : s.run = true) (hr : s.pipe.storeRound = r)
    (hpc : s.pipe.storePc = .idle) (hl : (s.pipe.buf s.pipe.storeRound).lock = none)
    (he : (s.pipe.buf s.pipe.storeRound).empty = false) : Settles c backups maxFetchSize A r s := by
  have he' := (empty_setLock s.pipe s.pipe.storeRound s.pipe.storeRound (some .storer)).trans he
  have hlock : Pipeline.Step c maxFetchSize .tau s.pipe _ := .storeLock hpc hl
  have hne : StorePc.locked ≠ s.pipe.storePc := by
    rw [hpc]
    rintro ⟨⟩
  cases h : s.storer with
  | outside =>
    have hgo : Step c backups maxFetchSize .storer { s with storer := .inside } _ :=
      .storeGo rfl ⟨⟨_, hlock⟩, hne⟩ (by rintro ⟨⟩) (by rw [hpc]; rintro ⟨⟩)
    exact .storer (.storeCall h hrun) (.storer hgo (settles_of_locked hr rfl rfl he'))
  | inside =>
    refine Settles.go hr h hlock hne (by rintro ⟨⟩) fun t hp ht => ?_
    exact settles_of_locked (by rw [hp]; exact hr) ht (by rw [hp]) (by rw [hp]; exact he')
  | woken => exact .storer (.storeAgain h hrun ⟨⟨_, hlock⟩, hne⟩ rfl) (settles_of_locked hr rfl rfl he')
  | asleep =>
    rw [hI.storer_asleep h] at he
    cases he
  | left =>
    rw [hI.storer_left h] at hrun
    cases hrun

theorem Inv.fetcher_inside (h : Inv s) (hpc : s.pipe.fetchPc ≠ .idle) : s.fetcher = .inside := by
  by_contra hne
  exact hpc (h.fetcher_idle hne)

theorem Inv.storer_inside (h : Inv s) (hpc : s.pipe.storePc ≠ .idle) : s.storer = .inside := by
  by_contra hne
  exact hpc (h.storer_idle hne)

/-- A fetcher that holds the lock of the storer's full buffer has only just taken it, and is about to wait. -/
theorem fetchPc_eq_locked {g st f : ℕ} (hi : Pipeline.Inv c p g st f) (hlt : p.cleared < p.fetchRound)
    (hpc : p.fetchPc ≠ .idle) (hq : p.cleared % 2 = p.fetchRound % 2) : p.fetchPc = .locked := by
  have hok := hi.fetchOk
  unfold Pipeline.FetchOk at hok
  cases h : p.fetchPc with
  | idle => exact absurd h hpc
  | locked => rfl
  | ranged range =>
    rw [h] at hok
    have := hok.1
    omega
  | loaded b e =>
    rw [h] at hok
    have := hok.1
    omega

/-- **A fetched batch is stored** as far as the answers allow. -/
theorem stores_next (h : Reached c backups maxFetchSize s) (hr : s.run = true)
    (hlt : s.pipe.storeRound < s.pipe.fetchRound) : Settles c backups maxFetchSize A s.pipe.storeRound s := by
  have hI := inv_of_reached h
  have hL := locks_of_reachable (reachable_pipe h)
  obtain ⟨g, st, f, hi⟩ := exists_inv h
  cases hpc : s.pipe.storePc with
  | idle =>
    have hcl := cleared_of_idle hpc
    have hbuf := hi.buffers
    rw [hcl] at hbuf
    have he := (hbuf.full _ le_rfl hlt).1
    cases hl : (s.pipe.buf s.pipe.storeRound).lock with
    | none => exact settles_of_free hI hr rfl hpc hl he
    | some t =>
      cases t with
      | storer => exact absurd hpc ((hL .storer _).mp hl).1
      | fetcher =>
        -- the fetcher finds its buffer full and gives up the lock
        obtain ⟨hbusy, hround⟩ := (hL .fetcher _).mp hl
        have hq : s.pipe.storeRound % 2 = s.pipe.fetchRound % 2 := hround
        have hlock := fetchPc_eq_locked hi (by rw [hcl]; exact hlt) hbusy (by rw [hcl]; exact hq)
        have hef : (s.pipe.buf s.pipe.fetchRound).empty = false := by
          rw [← Pipeline.buf_congr s.pipe hq]
          exact he
        have hmove : FetchMove c maxFetchSize s.pipe _ := ⟨.fetchWait hlock hef, rfl⟩
        have hs : Step c backups maxFetchSize .fetcher s _ := .fetchSleep (hI.fetcher_inside hbusy) hmove hlock rfl
        refine Leads.fetcher hs (settles_of_free (hI.step hs) hr rfl hpc ?_ ?_)
        · exact congrArg PipelineObj.lock (Pipeline.buf_setBuf_eq s.pipe _ hq)
        · exact (empty_setLock s.pipe _ _ none).trans he
  | locked =>
    have hcl : s.pipe.cleared = s.pipe.storeRound := by
      unfold Pipeline.Sys.cleared
      rw [hpc]
    have hbuf := hi.buffers
    rw [hcl] at hbuf
    exact settles_of_locked rfl (hI.storer_inside (by rw [hpc]; rintro ⟨⟩)) hpc (hbuf.full _ le_rfl hlt).1
  | appending => exact settles_of_appending rfl (hI.storer_inside (by rw [hpc]; rintro ⟨⟩)) hpc
  | deleting x => exact settles_of_deleting rfl (hI.storer_inside (by rw [hpc]; rintro ⟨⟩)) hpc
  | deleted x => exact settles_of_deleted rfl (hI.storer_inside (by rw [hpc]; rintro ⟨⟩)) hpc
  | updating => exact settles_of_updating rfl (hI.storer_inside (by rw [hpc]; rintro ⟨⟩)) hpc

/-- The fetcher has a free buffer and has asked the primary what there is. -/
def Asking (s : Sys δ) : Prop := s.pipe.fetchPc ≠ .idle ∧ s.pipe.fetchPc ≠ .locked

theorem asks_of_locked (h : s.fetcher = .inside) (hpc : s.pipe.fetchPc = .locked)
    (he : (s.pipe.buf s.pipe.fetchRound).empty = true) : Leads c backups maxFetchSize A s Asking :=
  .fetcher (.fetchGo h ⟨.fetchRange hpc he, rfl⟩ (by rintro ⟨⟩)) (.refl ⟨by rintro ⟨⟩, by rintro ⟨⟩⟩)

theorem asks_of_free (hI : Inv s) (hr : s.run = true) (hpc : s.pipe.fetchPc = .idle)
    (hl : (s.pipe.buf s.pipe.fetchRound).lock = none) (he : (s.pipe.buf s.pipe.fetchRound).empty = true) :
    Leads c backups maxFetchSize A s Asking := by
  have hmove : FetchMove c maxFetchSize s.pipe _ := ⟨.fetchLock hpc hl, rfl⟩
  have he' := (empty_setLock s.pipe s.pipe.fetchRound s.pipe.fetchRound (some .fetcher)).trans he
  cases h : s.fetcher with
  | outside =>
    exact .fetcher (.fetchCall h hr) (.fetcher (.fetchGo rfl hmove (by rintro ⟨⟩)) (asks_of_locked rfl rfl he'))
  | inside => exact .fetcher (.fetchGo h hmove (by rintro ⟨⟩)) (asks_of_locked h rfl he')
  | asleep =>
    rw [hI.fetcher_asleep h] at he
    cases he
  | left =>
    rw [hI.fetcher_left h] at hr
    cases hr

theorem storePc_of_level {g st f : ℕ} (hi : Pipeline.Inv c p g st f) (hle : p.fetchRound ≤ p.storeRound) :
    p.storePc = .idle ∨ p.storePc = .locked := by
  have hlen := hi.front.length_le
  rw [← hi.fetchRound] at hlen
  have hok := hi.storeOk
  unfold Pipeline.StoreOk at hok
  cases hpc : p.storePc with
  | idle => exact Or.inl rfl
  | locked => exact Or.inr rfl
  | appending | deleting | deleted | updating =>
    rw [hpc] at hok
    have := hok.1
    omega

/-- **If there is nothing to store the primary is asked**, by the two threads alone. -/
theorem asks_next (h : Reached c backups maxFetchSize s) (hr : s.run = true)
    (hle : s.pipe.fetchRound ≤ s.pipe.storeRound) : Leads c backups maxFetchSize A s Asking := by
  have hI := inv_of_reached h
  have hL := locks_of_reachable (reachable_pipe h)
  obtain ⟨g, st, f, hi⟩ := exists_inv h
  have hst := storePc_of_level hi hle
  have hcl : s.pipe.cleared = s.pipe.storeRound := by
    unfold Pipeline.Sys.cleared
    rcases hst with hst | hst <;> rw [hst]
  have hbuf := hi.buffers
  rw [hcl] at hbuf
  have heq : s.pipe.fetchRound = s.pipe.storeRound := le_antisymm hle hbuf.le
  have he := (hbuf.free _ le_rfl (by omega)).1
  cases hpc : s.pipe.fetchPc with
  | idle =>
    cases hl : (s.pipe.buf s.pipe.fetchRound).lock with
    | none => exact asks_of_free hI hr hpc hl he
    | some t =>
      cases t with
      | fetcher => exact absurd hpc ((hL .fetcher _).mp hl).1
      | storer =>
        -- the storer finds its buffer empty and gives up the lock
        have hbusy := ((hL .storer _).mp hl).1
        have hlock := hst.resolve_left hbusy
        have hes : (s.pipe.buf s.pipe.storeRound).empty = true := by
          rw [← heq]
          exact he
        have hmove : StoreMove c maxFetchSize s.pipe _ :=
          ⟨⟨_, .storeWait hlock hes⟩, by rw [hlock]; rintro ⟨⟩⟩
        have hs : Step c backups maxFetchSize .storer s _ := .storeSleep (hI.storer_inside hbusy) hmove hlock rfl
        refine .storer hs (asks_of_free (hI.step hs) hr hpc ?_ ?_)
        · exact congrArg PipelineObj.lock (Pipeline.buf_setBuf_eq s.pipe _ (congrArg (· % 2) heq))
        · exact (empty_setLock s.pipe _ _ none).trans he
  | locked => exact asks_of_locked (hI.fetcher_inside (by rw [hpc]; rintro ⟨⟩)) hpc he
  | ranged range => exact .refl ⟨by rw [hpc]; rintro ⟨⟩, by rw [hpc]; rintro ⟨⟩⟩
  | loaded b e => exact .refl ⟨by rw [hpc]; rintro ⟨⟩, by rw [hpc]; rintro ⟨⟩⟩

/-! ### Who is waited for -/

/-- A storer that has only asked for the deletion waits for the write on the primary to land. -/
theorem StoreMove.of_deleting {x : UInt64} (h : StoreMove c maxFetchSize p p') (hpc : p.storePc = .deleting x) :
    p'.storePc = .deleted x ∧ p'.storeRound = p.storeRound := by
  obtain ⟨⟨a, hs⟩, hst⟩ := h
  cases hs with
  | storeLand hpc' =>
    rw [hpc] at hpc'
    cases hpc'
    exact ⟨rfl, rfl⟩
  | storeLock hpc' | storeWait hpc' | storeAppend hpc' | storeDelete hpc' | storeUpdate hpc' | storeDone hpc' =>
    rw [hpc] at hpc'
    cases hpc'
  | append | fetchLock | fetchWait | fetchRange | fetchNothing | fetchRead | fetchNone | fetchDone =>
    exact absurd rfl hst

/-- Whoever takes a step, a storer that waits for `x` does not end its round before `x` has answered. -/
theorem Step.of_owed {x : Peer δ} (hI : Inv s) (hx : x ∈ s.owed) (hwho : who ≠ .peer x)
    (hs : Step c backups maxFetchSize who s s') : x ∈ s'.owed ∧ s'.pipe.storeRound = s.pipe.storeRound := by
  have hne : s.owed ≠ [] := List.ne_nil_of_mem hx
  cases hs with
  | append hp =>
    cases hp with
    | append e he => exact ⟨hx, rfl⟩
  | @answer _ y l₁ l₂ hy =>
    have hxy : x ≠ y := by
      rintro rfl
      exact hwho rfl
    rw [hy, List.mem_append, List.mem_cons] at hx
    exact ⟨List.mem_append.mpr (hx.imp_right fun h => h.resolve_left hxy), rfl⟩
  | stop | fetchCall | fetchLeave | fetchWake | storeCall | storeLeave | storeWake | storeGiveUp => exact ⟨hx, rfl⟩
  | fetchGo h hp | fetchSleep h hp | fetchReturn h hp => exact ⟨hx, hp.effect.storeRound⟩
  | @storeGo _ p h hp hpc hw =>
    cases hst : s.pipe.storePc with
    | idle => exact absurd (hI.owed_nil (Or.inl hst)) hne
    | locked => exact absurd (hI.owed_nil (Or.inr hst)) hne
    | appending | deleted | updating => exact absurd (hw (by rw [hst]; trivial)) hne
    | deleting i =>
      obtain ⟨hdel, hround⟩ := hp.of_deleting hst
      refine ⟨?_, hround⟩
      simp only [hdel, owes]
      exact hx
  | storeSleep h hp hpc => exact absurd (hI.owed_nil (Or.inr hpc)) hne
  | storeAgain h => exact absurd (hI.owed_nil (Or.inl (hI.storer_idle (by rw [h]; rintro ⟨⟩)))) hne
  | storeReturn h hp hpc hpc' ho => exact absurd ho hne

/-- One step of somebody other than `x`. -/
def Without (c : Config) (backups : List δ) (maxFetchSize : ℕ) (x : Peer δ) (s s' : Sys δ) : Prop :=
  ∃ who, who ≠ .peer x ∧ Step c backups maxFetchSize who s s'

theorem storeRound_of_owed {x : Peer δ} (hI : Inv s) (hx : x ∈ s.owed)
    (hs : ReflTransGen (Without c backups maxFetchSize x) s s') :
    Inv s' ∧ x ∈ s'.owed ∧ s'.pipe.storeRound = s.pipe.storeRound := by
  induction hs with
  | refl => exact ⟨hI, hx, rfl⟩
  | tail _ hstep ih =>
    obtain ⟨who, hwho, hstep⟩ := hstep
    obtain ⟨hI', hx', hround⟩ := ih
    obtain ⟨hx'', hround'⟩ := hstep.of_owed hI' hx' hwho
    exact ⟨hI'.step hstep, hx'', hround'.trans hround⟩

/-! ### A run -/

theorem Reached.step (h : Reached c backups maxFetchSize s) (hs : Step c backups maxFetchSize who s s') :
    Reached c backups maxFetchSize s' :=
  h.next ⟨who, hs⟩

theorem reached_fetch {g st f : ℕ} (h : Reached c backups 0 s) (hr : s.run = true) (hf : s.fetcher = .outside)
    (hst : s.storer = .outside) (hlt : s.pipe.fetchRound < s.pipe.storeRound + 2)
    (hi : Pipeline.Inv c s.pipe g st f) (hlen : f < (recs s.pipe.primary).length) :
    ∃ s', Reached c backups 0 s' ∧ s'.run = true ∧ s'.fetcher = .outside ∧ s'.storer = .outside ∧
      s'.pipe.fetchRound = s.pipe.fetchRound + 1 ∧ s'.pipe.storeRound = s.pipe.storeRound ∧
      s'.pipe.primary = s.pipe.primary := by
  have hI := inv_of_reached h
  have hfi := hI.fetcher_idle (by rw [hf]; rintro ⟨⟩)
  have hsi := hI.storer_idle (by rw [hst]; rintro ⟨⟩)
  have hbuf := hi.buffers
  rw [cleared_of_idle hsi] at hbuf
  obtain ⟨hempty, hnil⟩ := hbuf.free _ le_rfl hlt
  have hl := (locks_of_reachable (reachable_pipe h)).free hfi hsi s.pipe.fetchRound
  have hgf : g ≤ f := hi.le_stored.trans hi.le_fetched
  have hmax : max s.pipe.primary.log.orderedWatermk s.pipe.fetchBegin =
      pos entrySize (recs s.pipe.primary) f := by
    rw [hi.primary.mark, hi.fetchBegin]
    exact max_eq_right (pos_mono hgf)
  obtain ⟨mr, hbounds, hread, hdec, hne⟩ := hi.primary.fetch_all hgf hlen hmax s.pipe.mr
  have hb := Pipeline.buf_setLock s.pipe s.pipe.fetchRound (some .fetcher) s.pipe.fetchRound
  rw [show [] = ((s.pipe.setLock s.pipe.fetchRound (some .fetcher)).buf s.pipe.fetchRound).entriesBuf by
    rw [hb.2, hnil]] at hdec
  have h₁ := h.step (.fetchCall hf hr)
  have h₂ := h₁.step (.fetchGo rfl ⟨.fetchLock hfi hl, rfl⟩ (by rintro ⟨⟩))
  have h₃ := h₂.step (.fetchGo rfl ⟨.fetchRange rfl (hb.1.trans hempty), rfl⟩ (by rintro ⟨⟩))
  have h₄ := h₃.step (.fetchGo rfl ⟨.fetchRead rfl hbounds hread, rfl⟩ (by rintro ⟨⟩))
  have h₅ := h₄.step (.fetchReturn rfl ⟨.fetchDone rfl hdec hne, rfl⟩ (by rintro ⟨⟩) rfl)
  refine ⟨_, h₅, hr, rfl, ?_, rfl, rfl, rfl⟩
  show notifyFull _ _ s.storer = .outside
  rw [hst]
  unfold notifyFull
  split <;> rfl

theorem reached_round (h : Reached c backups 0 s) (hr : s.run = true) (hf : s.fetcher = .outside)
    (hst : s.storer = .outside) (hlt : s.pipe.fetchRound < s.pipe.storeRound + 2) {e : LogEntry}
    (he : CanAppend c s.pipe.primary e) :
    ∃ s', Reached c backups 0 s' ∧ s'.run = true ∧ s'.fetcher = .outside ∧ s'.storer = .outside ∧
      s'.pipe.fetchRound = s.pipe.fetchRound + 1 ∧ s'.pipe.storeRound = s.pipe.storeRound ∧
      s'.pipe.primary = append c s.pipe.primary e := by
  obtain ⟨g, st, f, hi⟩ := exists_inv h
  have hp : Pipeline.Step c 0 (.append e) s.pipe _ := .append e he
  have hlen : f < (recs (append c s.pipe.primary e)).length := by
    rw [recs_append, List.length_append]
    exact Nat.lt_succ_of_le hi.fetched_le
  exact reached_fetch (h.step (.append hp)) hr hf hst hlt (hi.append he) hlen

/-- The threads have been started on an empty primary. -/
def fresh : Sys ℕ :=
  ⟨⟨⟨.zeroed, []⟩, fun _ => 0, fun _ => ⟨[], none, true⟩, 0, 0, 0, .idle, .idle, [], []⟩, true, .outside, .outside,
    []⟩

theorem start_fresh : Start fresh :=
  ⟨⟨⟨FlatLog.zeroed_fresh, rfl⟩, fun _ => rfl, ⟨rfl, rfl, rfl⟩, ⟨rfl, rfl⟩, rfl, rfl⟩, rfl, rfl, rfl, rfl⟩

/-- Two entries have been fetched, one by one, and the fetcher sleeps before the first buffer. -/
theorem exists_asleep : ∃ s, Reached .smallPrimary [1, 2] 0 s ∧ s.run = true ∧ s.fetcher = .asleep ∧
    s.storer = .outside ∧ s.pipe.storeRound < s.pipe.fetchRound := by
  have h₀ : Reached .smallPrimary [1, 2] 0 fresh := .start start_fresh
  obtain ⟨s₁, h₁, hr₁, hf₁, hst₁, hround₁, hstore₁, hprim₁⟩ :=
    reached_round h₀ rfl rfl rfl (by decide) (e := default) ⟨⟨rfl, by decide⟩, rfl, by decide, by decide⟩
  have hcan : CanAppend .smallPrimary s₁.pipe.primary default := by
    rw [hprim₁]
    exact ⟨⟨rfl, by decide⟩, rfl, by decide, by decide⟩
  obtain ⟨s, h, hr, hf, hst, hround, hstore, -⟩ :=
    reached_round h₁ hr₁ hf₁ hst₁ (by rw [hround₁, hstore₁]; decide) hcan
  rw [hround₁] at hround
  rw [hstore₁] at hstore
  have hrounds : s.pipe.fetchRound = 2 ∧ s.pipe.storeRound = 0 := ⟨hround, hstore⟩
  have hI := inv_of_reached h
  have hfi := hI.fetcher_idle (by rw [hf]; rintro ⟨⟩)
  have hsi := hI.storer_idle (by rw [hst]; rintro ⟨⟩)
  have hl := (locks_of_reachable (reachable_pipe h)).free hfi hsi s.pipe.fetchRound
  have hfull : (s.pipe.buf s.pipe.fetchRound).empty = false := by
    obtain ⟨g, st, f, hi⟩ := exists_inv h
    have hbuf := hi.buffers
    rw [cleared_of_idle hsi] at hbuf
    rw [Pipeline.buf_congr s.pipe (show s.pipe.fetchRound % 2 = s.pipe.storeRound % 2 by omega)]
    exact (hbuf.full _ le_rfl (by omega)).1
  have hfull' := (empty_setLock s.pipe s.pipe.fetchRound s.pipe.fetchRound (some .fetcher)).trans hfull
  have h₂ := h.step (.fetchCall hf hr)
  have h₃ := h₂.step (.fetchGo rfl ⟨.fetchLock hfi hl, rfl⟩ (by rintro ⟨⟩))
  have h₄ := h₃.step (.fetchSleep rfl ⟨.fetchWait rfl hfull', rfl⟩ rfl rfl)
  exact ⟨_, h₄, hr, rfl, hst, show s.pipe.storeRound < s.pipe.fetchRound by omega⟩

/-- The storer has asked for the deletion of the first of the two entries, and one of two backups has answered. -/
theorem exists_owed : ∃ s, Reached .smallPrimary [1, 2] 0 s ∧ s.run = true ∧ s.owed = [.server 2] := by
  obtain ⟨s, h, hr, hf, hst, hlt⟩ := exists_asleep
  have hI := inv_of_reached h
  have hfi := hI.fetcher_idle (by rw [hf]; rintro ⟨⟩)
  have hsi := hI.storer_idle (by rw [hst]; rintro ⟨⟩)
  have hl := (locks_of_reachable (reachable_pipe h)).free hfi hsi s.pipe.storeRound
  have hfull : (s.pipe.buf s.pipe.storeRound).empty = false := by
    obtain ⟨g, st, f, hi⟩ := exists_inv h
    have hbuf := hi.buffers
    rw [cleared_of_idle hsi] at hbuf
    exact (hbuf.full _ le_rfl hlt).1
  have hfull' := (empty_setLock s.pipe s.pipe.storeRound s.pipe.storeRound (some .storer)).trans hfull
  have h₁ := h.step (.storeCall hst hr)
  have h₂ := h₁.step (.storeGo rfl ⟨⟨_, .storeLock hsi hl⟩, by rw [hsi]; rintro ⟨⟩⟩ (by rintro ⟨⟩)
    (by rw [hsi]; rintro ⟨⟩))
  have h₃ := h₂.step (.storeGo rfl ⟨⟨_, .storeAppend rfl hfull'⟩, by rintro ⟨⟩⟩ (by rintro ⟨⟩) (by rintro ⟨⟩))
  have h₄ := h₃.step (.answer_head rfl)
  have h₅ := h₄.step (.storeGo rfl ⟨⟨_, .storeDelete rfl⟩, by rintro ⟨⟩⟩ (by rintro ⟨⟩) fun _ => rfl)
  have h₆ := h₅.step (.answer_head rfl)
  exact ⟨_, h₆, hr, rfl⟩

/-! ### The pipeline goes on -/

/-- **The pipeline waits for nobody but the backend and the backups** while `run_` is set, however the threads, the
answers and the appends are interleaved. A thread that has been notified is awake: the buffer of one that is asleep is
still full or still empty, so that never both of them sleep. If a batch has been fetched, the two threads and the
answers of those in `A`, without the second after which the storer wakes up by itself, can store it, or get to where
the storer waits for somebody outside `A`; if none has been fetched, the threads alone can ask the primary for one.
And as long as somebody who is waited for does not answer, the storer does not get to the end of its round. -/
theorem pipeline_is_never_stuck (h : Reached c backups maxFetchSize s) (hr : s.run = true) :
    (s.fetcher = .asleep → (s.pipe.buf s.pipe.fetchRound).empty = false ∧
      s.pipe.storeRound < s.pipe.fetchRound) ∧
    (s.storer = .asleep → (s.pipe.buf s.pipe.storeRound).empty = true ∧
      s.pipe.fetchRound = s.pipe.storeRound) ∧
    (s.pipe.storeRound < s.pipe.fetchRound → ∀ A, Leads c backups maxFetchSize A s fun t =>
      Stored s.pipe.storeRound t ∨ Waiting A s.pipe.storeRound t) ∧
    (s.pipe.fetchRound ≤ s.pipe.storeRound → Leads c backups maxFetchSize ∅ s Asking) ∧
    ∀ x ∈ s.owed, ∀ t, ReflTransGen (Without c backups maxFetchSize x) s t →
      t.pipe.storeRound = s.pipe.storeRound := by
  have hI := inv_of_reached h
  obtain ⟨g, st, f, hi⟩ := exists_inv h
  refine ⟨fun ha => ?_, fun ha => ?_, fun hlt A => stores_next h hr hlt, asks_next h hr,
    fun x hx t ht => (storeRound_of_owed hI hx ht).2.2⟩
  · have he := hI.fetcher_asleep ha
    have hround := fetchRound_eq_of_full hi.buffers he
    have hcl : s.pipe.storeRound ≤ s.pipe.cleared := by
      unfold Pipeline.Sys.cleared
      split <;> omega
    exact ⟨he, by omega⟩
  · have he := hI.storer_asleep ha
    have hbuf := hi.buffers
    rw [cleared_of_idle (hI.storer_idle (by rw [ha]; rintro ⟨⟩))] at hbuf
    exact ⟨he, fetchRound_eq_of_empty hbuf he⟩

/-- Two buffers are full and the fetcher is asleep: with all answers the storer stores the first one. And when the
second backup has not answered yet, it never does without that answer. -/
theorem pipeline_is_never_stuck_full :
    (∃ s, Reached .smallPrimary [1, 2] 0 s ∧ s.run = true ∧ s.fetcher = .asleep ∧
      Leads .smallPrimary [1, 2] 0 .univ s (Stored s.pipe.storeRound)) ∧
    ∃ s, Reached .smallPrimary [1, 2] 0 s ∧ s.run = true ∧ s.owed = [.server 2] ∧
      ∀ t, ReflTransGen (Without .smallPrimary [1, 2] 0 (.server 2)) s t →
        t.pipe.storeRound = s.pipe.storeRound := by
  refine ⟨?_, ?_⟩
  · obtain ⟨s, h, hr, hf, -, hlt⟩ := exists_asleep
    obtain ⟨t, ht, hst⟩ := (pipeline_is_never_stuck h hr).2.2.1 hlt .univ
    have hstored : Stored s.pipe.storeRound t := by
      rcases hst with hst | ⟨-, x, -, hx⟩
      · exact hst
      · exact absurd (Set.mem_univ x) hx
    exact ⟨s, h, hr, hf, t, ht, hstored⟩
  · obtain ⟨s, h, hr, ho⟩ := exists_owed
    refine ⟨s, h, hr, ho, (pipeline_is_never_stuck h hr).2.2.2.2 _ ?_⟩
    rw [ho]
    exact List.mem_singleton_self _

/-! ### The end -/

/-- The fetcher is in `fetch` and has not got past its wait for a buffer that is full. -/
structure Trapped (s : Sys δ) : Prop where
  fetcher : s.fetcher = .inside ∨ s.fetcher = .asleep
  fetchPc : s.pipe.fetchPc = .idle ∨ s.pipe.fetchPc = .locked
  full : (s.pipe.buf s.pipe.fetchRound).empty = false

theorem FetchMove.of_full (h : FetchMove c maxFetchSize p p') (hpc : p.fetchPc = .idle ∨ p.fetchPc = .locked)
    (he : (p.buf p.fetchRound).empty = false) :
    (p'.fetchPc = .idle ∨ p'.fetchPc = .locked) ∧ (p'.buf p'.fetchRound).empty = false ∧
      (p'.fetchPc = .idle → p.fetchPc = .locked) := by
  obtain ⟨hs, hst⟩ := h
  cases hs with
  | fetchLock =>
    exact ⟨Or.inr rfl, (empty_setLock p p.fetchRound p.fetchRound _).trans he, by rintro ⟨⟩⟩
  | fetchWait hpc' =>
    exact ⟨Or.inl rfl, (empty_setLock p p.fetchRound p.fetchRound _).trans he, fun _ => hpc'⟩
  | fetchRange hpc' he' =>
    rw [he] at he'
    cases he'
  | fetchNothing hpc' | fetchRead hpc' | fetchNone hpc' | fetchDone hpc' => rw [hpc'] at hpc; simp at hpc
  | storeLock hpc' | storeWait hpc' | storeLand hpc' =>
    rw [hpc'] at hst
    cases hst

theorem Trapped.append (h : Trapped s) (q : State) : Trapped { s with pipe := { s.pipe with primary := q } } :=
  ⟨h.fetcher, h.fetchPc, h.full⟩

/-- **Without the storer a trapped fetcher stays where it is**, whoever takes a step. -/
theorem Trapped.step (h : Trapped s) (hst : s.storer = .left) (hs : Step c backups maxFetchSize who s s') :
    Trapped s' ∧ s'.storer = .left := by
  cases hs with
  | append hp =>
    cases hp with
    | append e he => exact ⟨h.append _, hst⟩
  | answer | stop => exact ⟨⟨h.fetcher, h.fetchPc, h.full⟩, hst⟩
  | fetchCall hout | fetchLeave hout =>
    have := h.fetcher
    rw [hout] at this
    simp at this
  | fetchGo hin hp hpc =>
    obtain ⟨hpc', hfull, -⟩ := hp.of_full h.fetchPc h.full
    exact ⟨⟨Or.inl hin, hpc', hfull⟩, hst⟩
  | fetchSleep hin hp hpc hidle =>
    obtain ⟨hpc', hfull, -⟩ := hp.of_full h.fetchPc h.full
    exact ⟨⟨Or.inr rfl, hpc', hfull⟩, hst⟩
  | fetchWake hin => exact ⟨⟨Or.inl rfl, h.fetchPc, h.full⟩, hst⟩
  | fetchReturn hin hp hpc hidle =>
    obtain ⟨-, -, hlocked⟩ := hp.of_full h.fetchPc h.full
    exact absurd (hlocked hidle) hpc
  | storeCall hout | storeLeave hout | storeGo hout | storeSleep hout | storeWake hout | storeAgain hout
  | storeGiveUp hout | storeReturn hout =>
    rw [hst] at hout
    cases hout

theorem Trapped.run (h : Trapped s) (hst : s.storer = .left) (hs : ReflTransGen (Next c backups maxFetchSize) s s') :
    Trapped s' := by
  have hboth : Trapped s' ∧ s'.storer = .left := by
    induction hs with
    | refl => exact ⟨h, hst⟩
    | tail _ hstep ih =>
      obtain ⟨who, hstep⟩ := hstep
      exact ih.1.step ih.2 hstep
  exact hboth.1

/-- The fetch thread has ended, so that it can be joined. -/
def Ended (s : Sys δ) : Prop := s.fetcher = .left

theorem ends_of_outside (h : s.fetcher = .outside) (hr : s.run = false) : Leads c backups maxFetchSize A s Ended :=
  .fetcher (.fetchLeave h hr) (.refl rfl)

theorem ends_of_loaded {b e : ℕ} (h : s.fetcher = .inside) (hr : s.run = false)
    (hpc : s.pipe.fetchPc = .loaded b e) : Leads c backups maxFetchSize A s Ended := by
  have hne : s.pipe.fetchPc ≠ .locked := by
    rw [hpc]
    rintro ⟨⟩
  obtain ⟨es, n, hes⟩ : ∃ es n, decodeFetched (s.pipe.buf s.pipe.fetchRound).entriesBuf s.pipe.mr b e = (es, n) :=
    ⟨_, _, rfl⟩
  by_cases hn : n = 0
  · subst hn
    exact .fetcher (.fetchReturn h ⟨.fetchNone hpc hes, rfl⟩ hne rfl) (ends_of_outside rfl hr)
  · exact .fetcher (.fetchReturn h ⟨.fetchDone hpc hes hn, rfl⟩ hne rfl) (ends_of_outside rfl hr)

theorem ends_of_ranged {range : ℕ × ℕ} (h : s.fetcher = .inside) (hr : s.run = false)
    (hpc : s.pipe.fetchPc = .ranged range) : Leads c backups maxFetchSize A s Ended := by
  have hne : s.pipe.fetchPc ≠ .locked := by
    rw [hpc]
    rintro ⟨⟩
  by_cases hread : ∃ b e mr, fetchBounds range s.pipe.fetchBegin maxFetchSize = some (b, e) ∧
      readSegments c.rgSize s.pipe.primary.log.mem s.pipe.mr b e = some mr
  · obtain ⟨b, e, mr, hb, hmr⟩ := hread
    exact .fetcher (.fetchGo h ⟨.fetchRead hpc hb hmr, rfl⟩ (by rintro ⟨⟩)) (ends_of_loaded h hr rfl)
  · have hnone : ∀ b e, fetchBounds range s.pipe.fetchBegin maxFetchSize = some (b, e) →
        readSegments c.rgSize s.pipe.primary.log.mem s.pipe.mr b e = none := by
      intro b e hb
      rw [Option.eq_none_iff_forall_not_mem]
      exact fun mr hmr => hread ⟨b, e, mr, hb, hmr⟩
    exact .fetcher (.fetchReturn h ⟨.fetchNothing hpc hnone, rfl⟩ hne rfl) (ends_of_outside rfl hr)

theorem ends_of_locked (h : s.fetcher = .inside) (hr : s.run = false) (hpc : s.pipe.fetchPc = .locked)
    (he : (s.pipe.buf s.pipe.fetchRound).empty = true) : Leads c backups maxFetchSize A s Ended :=
  .fetcher (.fetchGo h ⟨.fetchRange hpc he, rfl⟩ (by rintro ⟨⟩)) (ends_of_ranged h hr rfl)

theorem ends_of_not_trapped (h : Reached c backups maxFetchSize s) (hst : s.storer = .left) (hT : ¬ Trapped s) :
    Leads c backups maxFetchSize A s Ended := by
  have hI := inv_of_reached h
  have hL := locks_of_reachable (reachable_pipe h)
  have hr := hI.storer_left hst
  have hempty (hpc : s.pipe.fetchPc = .idle ∨ s.pipe.fetchPc = .locked) (hin : s.fetcher = .inside) :
      (s.pipe.buf s.pipe.fetchRound).empty = true :=
    Bool.eq_true_of_not_eq_false fun he => hT ⟨Or.inl hin, hpc, he⟩
  cases hf : s.fetcher with
  | outside => exact ends_of_outside hf hr
  | left => exact .refl hf
  | asleep =>
    have hidle := hI.fetcher_idle (by rw [hf]; rintro ⟨⟩)
    exact absurd ⟨Or.inr hf, Or.inl hidle, hI.fetcher_asleep hf⟩ hT
  | inside =>
    cases hpc : s.pipe.fetchPc with
    | idle =>
      -- nobody holds a lock: the storer has left
      have hl := hL.free hpc (hI.storer_idle (by rw [hst]; rintro ⟨⟩)) s.pipe.fetchRound
      have he := (empty_setLock s.pipe s.pipe.fetchRound _ (some .fetcher)).trans (hempty (Or.inl hpc) hf)
      exact .fetcher (.fetchGo hf ⟨.fetchLock hpc hl, rfl⟩ (by rintro ⟨⟩)) (ends_of_locked hf hr rfl he)
    | locked => exact ends_of_locked hf hr hpc (hempty (Or.inr hpc) hf)
    | ranged range => exact ends_of_ranged hf hr hpc
    | loaded b e => exact ends_of_loaded hf hr hpc

/-- **`Finalize` returns unless the fetcher is trapped.** Once the storer has left its loop, the fetch thread can be
joined exactly if it is not in `fetch` before a full buffer, and if it is, then no step of anybody helps. In both
cases what the backend has been given is the log of the primary up to the index watermark of the primary. -/
theorem finalize_returns_iff (h : Reached c backups maxFetchSize s) (hst : s.storer = .left) :
    ((∃ s', ReflTransGen (Next c backups maxFetchSize) s s' ∧ Ended s') ↔ ¬ Trapped s) ∧
      s.pipe.stored.flatMap List.dropLast = (recs s.pipe.primary).take s.pipe.primary.log.orderedIdxWatermk := by
  refine ⟨⟨?_, fun hT => ?_⟩, ?_⟩
  · rintro ⟨s', hs, hend⟩ hT
    have hin := (hT.run hst hs).fetcher
    unfold Ended at hend
    rw [hend] at hin
    simp at hin
  · obtain ⟨s', hs, hend⟩ := ends_of_not_trapped (A := ∅) h hst hT
    exact ⟨s', ReflTransGen.mono (fun _ _ => ThreadStep.next) _ _ hs, hend⟩
  · obtain ⟨g, st, f, hi⟩ := exists_inv h
    have hok := hi.storeOk
    unfold Pipeline.StoreOk at hok
    rw [(inv_of_reached h).storer_idle (by rw [hst]; rintro ⟨⟩)] at hok
    have hflat := hi.stored.flatMap_dropLast
    rw [hflat, hi.primary.idxMark, hok.2]
    rfl

/-- **A fetcher that cannot be joined.** `run_` is cleared while both buffers are full and the storer is between two
calls of `store`. -/
theorem finalize_returns_iff_trapped : ∃ s, Reached .smallPrimary [1, 2] 0 s ∧ s.storer = .left ∧ Trapped s ∧
    ¬ ∃ s', ReflTransGen (Next .smallPrimary [1, 2] 0) s s' ∧ Ended s' := by
  obtain ⟨s, h, hr, hf, hst, hlt⟩ := exists_asleep
  have hI := inv_of_reached h
  have hT : Trapped s := ⟨Or.inr hf, Or.inl (hI.fetcher_idle (by rw [hf]; rintro ⟨⟩)), hI.fetcher_asleep hf⟩
  have h₁ := (h.step .stop).step (.storeLeave hst rfl)
  have hT' : Trapped { s with run := false, storer := .left } := ⟨hT.fetcher, hT.fetchPc, hT.full⟩
  exact ⟨_, h₁, rfl, hT', fun hend => (finalize_returns_iff h₁ rfl).1.mp hend hT'⟩

end LazyLog.ConsLog.Shutdown
