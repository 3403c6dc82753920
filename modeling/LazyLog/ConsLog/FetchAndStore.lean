import LazyLog.ConsLog.Spec

/-! # The simple loop of the consensus log (`ConsensusLog::fetchAndStore`)

One thread fetches from the primary, gives the entries to the backend, writes the watermarks of the primary and
tells the backend the last index, over and over; the primary appends at any time in between. The backend is
left open: its calls start and return at steps with a label. A call of `AppendEntry` is one step, from `waitForPlace`
to the copy across the end of the ring; what a fetch can see of a call in between is the matter of `Snapshot`.

The loop refines the abstract shared log, step by step (`simulation`). -/

namespace LazyLog.ConsLog.FetchAndStore

open LazyLog.Lib.Bytes LazyLog.Lib.Tiling LazyLog.Lib.Run LazyLog.Lib.Transition
open LazyLog.Rpc.Entry LazyLog.ConsLog.Batches LazyLog.ConsLog.Link
open LazyLog.ConsLog.Spec (Phase SharedLog step_append)
open LazyLog.DurLog.Flat LazyLog.DurLog.Ring LazyLog.DurLog.FlatCli

/-! ### The system -/

/-- Where `fetchAndStore` is. -/
inductive Pc
  | idle
  | ranged (range : ℕ × ℕ)
  | loaded (beginSequence endSequence : ℕ)
  | appending (entries : List LogEntry)
  | deleting (lastLogIdx : UInt64)
  | deleted (lastLogIdx : UInt64)
  | updating

/-- The primary, the thread and its buffer, and the vectors given to `AppendBatch` so far. -/
structure Loop where
  primary : State
  mr : Mem
  pc : Pc
  stored : List (List LogEntry)

/-- One step, for the bound `max_fetch_size_`. -/
inductive Step (c : Config) (maxFetchSize : ℕ) : Label → Loop → Loop → Prop
  | append {s : Loop} (e : LogEntry) (he : CanAppend c s.primary e) :
    Step c maxFetchSize (.append e) s { s with primary := append c s.primary e }
  | range {s : Loop} (hpc : s.pc = .idle) :
    Step c maxFetchSize .tau s { s with pc := .ranged (getUnorderedRange s.primary.log) }
  | nothing {s : Loop} {range : ℕ × ℕ} (hpc : s.pc = .ranged range)
    (hn : ∀ b e, fetchBounds range 0 maxFetchSize = some (b, e) →
      readSegments c.rgSize s.primary.log.mem s.mr b e = none) :
    Step c maxFetchSize .tau s { s with pc := .idle }
  | read {s : Loop} {range : ℕ × ℕ} {b e : ℕ} {mr : Mem} (hpc : s.pc = .ranged range)
    (hb : fetchBounds range 0 maxFetchSize = some (b, e))
    (hr : readSegments c.rgSize s.primary.log.mem s.mr b e = some mr) :
    Step c maxFetchSize .tau s { s with mr := mr, pc := .loaded b e }
  | decodeNone {s : Loop} {b e : ℕ} (hpc : s.pc = .loaded b e)
    (h0 : (decodeFetched [] s.mr b e).2 = 0) : Step c maxFetchSize .tau s { s with pc := .idle }
  | appendBatch {s : Loop} {b e n : ℕ} {es : List LogEntry} (hpc : s.pc = .loaded b e)
    (hes : decodeFetched [] s.mr b e = (es, n)) (hn : n ≠ 0) :
    Step c maxFetchSize (.appendBatch es) s
      { s with pc := .appending es, stored := s.stored ++ [es] }
  | delete {s : Loop} {es : List LogEntry} (hpc : s.pc = .appending es) :
    Step c maxFetchSize .appendBatchDone s
      { s with
        mr := stageDelete c s.mr (processFetchedEntries true es []).2
        pc := .deleting (processFetchedEntries true es []).1 }
  | land {s : Loop} {lastLogIdx : UInt64} (hpc : s.pc = .deleting lastLogIdx) :
    Step c maxFetchSize .tau s
      { s with primary := landDelete c s.mr s.primary, pc := .deleted lastLogIdx }
  | update {s : Loop} {lastLogIdx : UInt64} (hpc : s.pc = .deleted lastLogIdx) :
    Step c maxFetchSize (.updateGlobalIdx lastLogIdx) s { s with pc := .updating }
  | done {s : Loop} (hpc : s.pc = .updating) :
    Step c maxFetchSize .updateGlobalIdxDone s { s with pc := .idle }

/-- Everything has just been started. -/
def Start (s : Loop) : Prop := Init s.primary ∧ s.pc = .idle ∧ s.stored = []

/-- The loop and the primary. -/
def lts (c : Config) (maxFetchSize : ℕ) : Lts Label Loop := ⟨Start, Step c maxFetchSize⟩

variable {c : Config} {maxFetchSize : ℕ} {a : Label} {s s' : Loop} {g st : ℕ}

/-! ### The invariant -/

/-- What is known at each place of the loop: `g` entries are marked as ordered on the primary, `st` entries
have been given to the backend. -/
def PcOk (c : Config) (s : Loop) (g st : ℕ) : Prop :=
  match s.pc with
  | .idle => g = st
  | .ranged range =>
    g = st ∧ range.1 = pos entrySize (recs s.primary) g ∧ Ranged c s.primary g range
  | .loaded b e => g = st ∧ Loaded c (recs s.primary) s.mr g b e
  | .appending es => g < st ∧ es = batch (recs s.primary) g (st - g)
  | .deleting lastLogIdx => g ≤ st ∧ Staged c (recs s.primary) s.mr st ∧ lastLogIdx.toNat + 1 = st
  | .deleted lastLogIdx => g = st ∧ lastLogIdx.toNat + 1 = st
  | .updating => g = st

/-- The invariant of the loop. -/
structure Inv (c : Config) (s : Loop) (g st : ℕ) : Prop where
  primary : Primary c s.primary g
  stored : Cut (recs s.primary) 0 s.stored st
  pcOk : PcOk c s g st

theorem Inv.append {e : LogEntry} (h : Inv c s g st) (he : CanAppend c s.primary e) :
    Inv c { s with primary := append c s.primary e } g st := by
  have hg := h.primary.le_length
  have hst := h.stored.le_length (Nat.zero_le _)
  refine ⟨h.primary.append he, ?_, ?_⟩
  · rw [recs_append]
    exact h.stored.mono
  · have hpc := h.pcOk
    unfold PcOk at hpc ⊢
    simp only [recs_append]
    cases hc : s.pc with
    | idle => rw [hc] at hpc; exact hpc
    | ranged range =>
      rw [hc] at hpc
      obtain ⟨h1, h2, h3⟩ := hpc
      exact ⟨h1, by rw [pos_append_of_le hg]; exact h2, h3.append hg e⟩
    | loaded b e =>
      rw [hc] at hpc
      exact ⟨hpc.1, hpc.2.mono⟩
    | appending es =>
      rw [hc] at hpc
      obtain ⟨h1, h2⟩ := hpc
      exact ⟨h1, by rw [batch_append (by omega)]; exact h2⟩
    | deleting lastLogIdx =>
      rw [hc] at hpc
      obtain ⟨h1, h2, h3⟩ := hpc
      exact ⟨h1, h2.mono hst, h3⟩
    | deleted lastLogIdx => rw [hc] at hpc; exact hpc
    | updating => rw [hc] at hpc; exact hpc

/-! ### Refinement -/

/-- What the loop is doing with its last batch. -/
def Pc.phase : Pc → Phase
  | .idle | .ranged _ | .loaded _ _ => .free
  | .appending _ => .storing
  | .deleting _ | .deleted _ => .marking
  | .updating => .updating

/-- The shared log that the loop works on. -/
def Loop.abs (s : Loop) (g st : ℕ) : SharedLog := ⟨recs s.primary, s.stored, st, g, s.pc.phase⟩

theorem step_tau (h1 : recs s'.primary = recs s.primary) (h2 : s'.stored = s.stored)
    (h3 : s'.pc.phase = s.pc.phase) : Spec.Step .tau (s.abs g st) (s'.abs g st) := by
  unfold Loop.abs
  rw [h1, h2, h3]
  exact .tau

/-- **One step** keeps the invariant, for some counts, and is a step of the shared log. -/
theorem Inv.step (h : Inv c s g st) (hs : Step c maxFetchSize a s s') :
    ∃ g' st', Inv c s' g' st' ∧ Spec.Step a (s.abs g st) (s'.abs g' st') := by
  have hprim := h.primary
  have hcut := h.stored
  have hst := hcut.le_length (Nat.zero_le _)
  have hpcok := h.pcOk
  unfold PcOk at hpcok
  cases hs with
  | append e he => exact ⟨g, st, h.append he, step_append hprim he⟩
  | range hpc =>
    rw [hpc] at hpcok
    exact ⟨g, st, ⟨hprim, hcut, hpcok, hprim.mark, hprim.ranged (Nat.le_refl g)⟩,
      step_tau rfl rfl (by rw [hpc]; rfl)⟩
  | nothing hpc hn =>
    rw [hpc] at hpcok
    exact ⟨g, st, ⟨hprim, hcut, hpcok.1⟩, step_tau rfl rfl (by rw [hpc]; rfl)⟩
  | @read _ range b e mr hpc hb hr =>
    rw [hpc] at hpcok
    obtain ⟨h1, h2, h3⟩ := hpcok
    have hmax : max range.1 0 = pos entrySize (recs s.primary) g := by rw [Nat.max_zero, h2]
    obtain ⟨hload, -⟩ := hprim.read (Nat.le_refl g) hprim.le_length h3 hmax hb hr
    exact ⟨g, st, ⟨hprim, hcut, h1, hload⟩, step_tau rfl rfl (by rw [hpc]; rfl)⟩
  | decodeNone hpc h0 =>
    rw [hpc] at hpcok
    exact ⟨g, st, ⟨hprim, hcut, hpcok.1⟩, step_tau rfl rfl (by rw [hpc]; rfl)⟩
  | @appendBatch _ b e n es hpc hes hn =>
    rw [hpc] at hpcok
    obtain ⟨rfl, hload⟩ := hpcok
    rcases hload.decode with hdec | ⟨m, hm, hgm, hdec⟩
    · rw [hes] at hdec
      cases hdec
      exact absurd rfl hn
    · rw [hes] at hdec
      cases hdec
      refine ⟨g, g + m, ⟨hprim, hcut.append (cut_singleton hm hgm), ?_, ?_⟩, ?_⟩
      · omega
      · simp only
        rw [Nat.add_sub_cancel_left]
      · exact .appendBatch (s := s.abs g g) (by unfold Loop.abs; rw [hpc]; rfl) hm hgm
  | @delete _ es hpc =>
    rw [hpc] at hpcok
    obtain ⟨hlt, rfl⟩ := hpcok
    obtain ⟨hstg, hlast⟩ := hprim.stage (k := g) (show 0 < st - g by omega) (by omega) s.mr
    rw [show g + (st - g) = st by omega] at hstg hlast
    exact ⟨g, st, ⟨hprim, hcut, hlt.le, hstg, hlast⟩,
      .appendBatchDone (s := s.abs g st) (by unfold Loop.abs; rw [hpc]; rfl)⟩
  | land hpc =>
    rw [hpc] at hpcok
    obtain ⟨hle, hstg, hlast⟩ := hpcok
    have hprim' := hprim.land hstg hle hst
    have hrecs := recs_landDelete c s.mr s.primary
    refine ⟨st, st, ⟨hprim', by rw [hrecs]; exact hcut, rfl, hlast⟩, ?_⟩
    unfold Loop.abs
    rw [hrecs, hpc]
    exact .mark rfl
  | update hpc =>
    rw [hpc] at hpcok
    exact ⟨g, st, ⟨hprim, hcut, hpcok.1⟩,
      .updateGlobalIdx (s := s.abs g st) (by unfold Loop.abs; rw [hpc]; rfl) hpcok.1 hpcok.2⟩
  | done hpc =>
    rw [hpc] at hpcok
    exact ⟨g, st, ⟨hprim, hcut, hpcok⟩,
      .updateGlobalIdxDone (s := s.abs g st) (by unfold Loop.abs; rw [hpc]; rfl)⟩

theorem Inv.start (h : Start s) : Inv c s 0 0 := by
  obtain ⟨h0, hpc, hst⟩ := h
  refine ⟨Primary.init h0, by rw [hst]; rfl, ?_⟩
  unfold PcOk
  rw [hpc]

/-- **The simple loop refines the shared log.** -/
theorem simulation (c : Config) (maxFetchSize : ℕ) : Simulation (lts c maxFetchSize) Spec.lts
    fun s x => ∃ g st, Inv c s g st ∧ x = s.abs g st := by
  refine ⟨fun s hs => ?_, ?_⟩
  · refine ⟨_, ?_, 0, 0, Inv.start hs, rfl⟩
    obtain ⟨h0, hpc, hst⟩ := hs
    show s.abs 0 0 = _
    unfold Loop.abs recs
    rw [h0.2, hpc, hst]
    rfl
  · rintro a s s' - ⟨g, st, hi, rfl⟩ hs
    obtain ⟨g', st', hi', hs'⟩ := hi.step hs
    exact ⟨_, hs', g', st', hi', rfl⟩

/-- **A round of the loop** that is not bounded stores all that has not been ordered. -/
theorem exists_round {P : State} {S : List (List LogEntry)} (hp : Primary c P g) (hlt : g < (recs P).length)
    (mr : Mem) : ∃ mr', Spec.Round (lts c 0) (batch (recs P) g ((recs P).length - g)) ⟨P, mr, .idle, S⟩
        ⟨landDelete c mr' P, mr', .idle, S ++ [batch (recs P) g ((recs P).length - g)]⟩ ∧
      Primary c (landDelete c mr' P) (recs P).length := by
  obtain ⟨mr₁, hb, hread, hdec, hne⟩ :=
    hp.fetch_all (Nat.le_refl g) hlt (show max P.log.orderedWatermk 0 = _ by rw [hp.mark, Nat.max_zero]) mr
  have hstage := (hp.stage (k := g) (n := (recs P).length - g) (by omega) (by omega) mr₁).1
  rw [Nat.add_sub_cancel' hlt.le] at hstage
  generalize batch (recs P) g ((recs P).length - g) = es at hdec hstage ⊢
  have h₁ : Step c 0 .tau ⟨P, mr, .idle, S⟩ ⟨P, mr, .ranged (getUnorderedRange P.log), S⟩ := .range rfl
  have h₂ : Step c 0 .tau ⟨P, mr, .ranged (getUnorderedRange P.log), S⟩ ⟨P, mr₁, .loaded _ _, S⟩ := .read rfl hb hread
  have h₃ : Step c 0 (.appendBatch es) ⟨P, mr₁, .loaded _ _, S⟩ ⟨P, mr₁, .appending es, S ++ [es]⟩ :=
    .appendBatch rfl hdec hne
  have h₄ : Step c 0 .appendBatchDone ⟨P, mr₁, .appending es, S ++ [es]⟩
      ⟨P, stageDelete c mr₁ (processFetchedEntries true es []).2, .deleting (processFetchedEntries true es []).1,
        S ++ [es]⟩ := .delete rfl
  generalize stageDelete c mr₁ (processFetchedEntries true es []).2 = mr₂ at h₄ hstage
  generalize (processFetchedEntries true es []).1 = i at h₄
  have h₅ : Step c 0 .tau ⟨P, mr₂, .deleting i, S ++ [es]⟩ ⟨landDelete c mr₂ P, mr₂, .deleted i, S ++ [es]⟩ :=
    .land rfl
  have h₆ : Step c 0 (.updateGlobalIdx i) ⟨landDelete c mr₂ P, mr₂, .deleted i, S ++ [es]⟩
      ⟨landDelete c mr₂ P, mr₂, .updating, S ++ [es]⟩ := .update rfl
  have h₇ : Step c 0 .updateGlobalIdxDone ⟨landDelete c mr₂ P, mr₂, .updating, S ++ [es]⟩
      ⟨landDelete c mr₂ P, mr₂, .idle, S ++ [es]⟩ := .done rfl
  exact ⟨mr₂, ⟨_, _, _, _, _, i, .tail (.single h₁) h₂, h₃, h₄, .single h₅, h₆, h₇⟩,
    hp.land hstage hlt.le (Nat.le_refl _)⟩

end LazyLog.ConsLog.FetchAndStore
