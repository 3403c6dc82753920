import LazyLog.ConsLog.Link
import LazyLog.Lib.Transition

/-! # What the consensus log does, in the abstract

The shared log is a list that grows at its end. The consensus log cuts batches off its front and works on one
batch at a time: it gives the batch to the backend, marks it as ordered once it is stored, and then tells the
backend the last index. No bytes, no buffers and no cursors are left here; both modes of the consensus log
are shown to refine this system, and what concerns the order of the log is proved of it. -/

namespace LazyLog.ConsLog.Spec

open LazyLog.Lib.Transition LazyLog.Rpc.Entry LazyLog.ConsLog.Batches LazyLog.ConsLog.Link
open LazyLog.DurLog.Flat LazyLog.DurLog.Ring

/-! ### The system -/

/-- What is being done with the last batch: nothing any more, it is being stored, it is stored and being
marked, the backend is being told. -/
inductive Phase
  | free
  | storing
  | marking
  | updating

/-- The log, the batches given to the backend, how many entries they have, and how many are marked. -/
structure SharedLog where
  log : List LogEntry
  stored : List (List LogEntry)
  given : ℕ
  ordered : ℕ
  phase : Phase

/-- The entry `x` stands in the log, at the place `idx`, for the entry `e` that was sent. -/
structure Records (idx : ℕ) (e x : LogEntry) : Prop where
  reqId : x.reqId = e.reqId
  data : x.data = e.data
  logIdx : x.logIdx.toNat = idx
  sized : x.Sized
  flagged : x.flags ≠ 0

/-- One step. -/
inductive Step : Label → SharedLog → SharedLog → Prop
  | tau {s : SharedLog} : Step .tau s s
  | append {s : SharedLog} {e x : LogEntry} (hx : Records s.log.length e x)
    (hlt : s.log.length < 2 ^ 63) : Step (.append e) s { s with log := s.log ++ [x] }
  | appendBatch {s : SharedLog} {n : ℕ} (hp : s.phase = .free) (hn : 0 < n)
    (hle : s.given + n ≤ s.log.length) :
    Step (.appendBatch (batch s.log s.given n)) s
      { s with
        stored := s.stored ++ [batch s.log s.given n]
        given := s.given + n
        phase := .storing }
  | appendBatchDone {s : SharedLog} (hp : s.phase = .storing) :
    Step .appendBatchDone s { s with phase := .marking }
  | mark {s : SharedLog} (hp : s.phase = .marking) : Step .tau s { s with ordered := s.given }
  | updateGlobalIdx {s : SharedLog} {idx : UInt64} (hp : s.phase = .marking)
    (ho : s.ordered = s.given) (hidx : idx.toNat + 1 = s.given) :
    Step (.updateGlobalIdx idx) s { s with phase := .updating }
  | updateGlobalIdxDone {s : SharedLog} (hp : s.phase = .updating) :
    Step .updateGlobalIdxDone s { s with phase := .free }

/-- Nothing has been appended. -/
def Start (s : SharedLog) : Prop := s = ⟨[], [], 0, 0, .free⟩

/-- The abstract system. -/
def lts : Lts Label SharedLog := ⟨Start, Step⟩

variable {a : Label} {s s' : SharedLog} {e : LogEntry}

theorem Step.log_eq (hs : Step a s s') (ha : ∀ e, a ≠ .append e) : s'.log = s.log := by
  cases hs with
  | append hx hlt => exact absurd rfl (ha _)
  | tau | appendBatch | appendBatchDone | mark | updateGlobalIdx | updateGlobalIdxDone => rfl

theorem Step.log_append (hs : Step (.append e) s s') :
    ∃ x, Records s.log.length e x ∧ s'.log = s.log ++ [x] := by
  cases hs with
  | append hx hlt => exact ⟨_, hx, rfl⟩

/-! ### The invariant -/

/-- **The invariant**: entry `k` of the log has the index `k`, the batches cut the log up to `given`, and what
is marked has been given to the backend; all of it, unless a batch is being stored. -/
structure Inv (s : SharedLog) : Prop where
  indexed : Indexed s.log
  sized : ∀ x ∈ s.log, x.Sized
  flagged : ∀ x ∈ s.log, x.flags ≠ 0
  length_le : s.log.length ≤ 2 ^ 63
  stored : Cut s.log 0 s.stored s.given
  ordered_le : s.ordered ≤ s.given
  ordered_eq : s.phase = .free ∨ s.phase = .updating → s.ordered = s.given

theorem Inv.given_le (h : Inv s) : s.given ≤ s.log.length := h.stored.le_length (Nat.zero_le _)

theorem Inv.append {x : LogEntry} (h : Inv s) (hx : Records s.log.length e x)
    (hlt : s.log.length < 2 ^ 63) : Inv { s with log := s.log ++ [x] } := by
  refine ⟨?_, ?_, ?_, ?_, h.stored.mono, h.ordered_le, h.ordered_eq⟩
  · intro k y hy
    rcases Nat.lt_or_ge k s.log.length with hk | hk
    · rw [List.getElem?_append_left hk] at hy
      exact h.indexed k y hy
    · obtain ⟨hk', -⟩ := List.getElem?_eq_some_iff.mp hy
      rw [List.length_append, List.length_singleton] at hk'
      obtain rfl : k = s.log.length := by omega
      rw [List.getElem?_concat_length] at hy
      rw [← Option.some.inj hy]
      exact hx.logIdx
  · exact List.forall_mem_append.mpr ⟨h.sized, List.forall_mem_singleton.mpr hx.sized⟩
  · exact List.forall_mem_append.mpr ⟨h.flagged, List.forall_mem_singleton.mpr hx.flagged⟩
  · rw [List.length_append, List.length_singleton]
    exact hlt

/-- **One step** keeps the invariant. -/
theorem Inv.step (h : Inv s) (hs : Step a s s') : Inv s' := by
  cases hs with
  | tau => exact h
  | append hx hlt => exact h.append hx hlt
  | appendBatch hp hn hle =>
    have ho := h.ordered_le
    refine ⟨h.indexed, h.sized, h.flagged, h.length_le, h.stored.append (cut_singleton hn hle), ?_, ?_⟩
    · simp only
      omega
    · rintro (hph | hph) <;> cases hph
  | appendBatchDone hp =>
    refine ⟨h.indexed, h.sized, h.flagged, h.length_le, h.stored, h.ordered_le, ?_⟩
    rintro (hph | hph) <;> cases hph
  | mark hp =>
    exact ⟨h.indexed, h.sized, h.flagged, h.length_le, h.stored, Nat.le_refl _, fun _ => rfl⟩
  | updateGlobalIdx hp ho hidx =>
    exact ⟨h.indexed, h.sized, h.flagged, h.length_le, h.stored, h.ordered_le, fun _ => ho⟩
  | updateGlobalIdxDone hp =>
    exact ⟨h.indexed, h.sized, h.flagged, h.length_le, h.stored, h.ordered_le,
      fun _ => h.ordered_eq (Or.inr hp)⟩

theorem inv_of_reachable (h : lts.Reachable s) : Inv s := by
  refine h.invariant (fun s hs => ?_) fun a s s' _ hi hs => hi.step hs
  obtain rfl : s = _ := hs
  refine ⟨?_, ?_, ?_, Nat.zero_le _, rfl, Nat.le_refl _, fun _ => rfl⟩
  · intro k x hx
    simp at hx
  · simp
  · simp

theorem Inv.ordered (h : Inv s) : Ordered s.log s.stored := h.stored.ordered h.indexed

/-! ### The primary -/

theorem step_append {c : Config} {p : State} {g st : ℕ} {e : LogEntry} {stored : List (List LogEntry)}
    {phase : Phase} (h : Primary c p g) (he : CanAppend c p e) :
    Step (.append e) ⟨recs p, stored, st, g, phase⟩ ⟨recs (append c p e), stored, st, g, phase⟩ := by
  have hlt := h.length_lt
  have hidx : p.log.indexer = (recs p).length := by rw [length_recs, h.contents.tiled.indexer]
  rw [recs_append]
  refine .append ⟨rfl, rfl, ?_, he.admissible.sized, show (1 : UInt16) ≠ 0 by decide⟩ hlt
  show (UInt64.ofNat p.log.indexer).toNat = (recs p).length
  rw [hidx]
  exact Nat.mod_eq_of_lt (by omega)

/-! ### Rounds -/

/-- A whole round of a consensus log: it gives the backend the vector `es`, and tells it the last index. -/
structure Round {σ : Type*} (A : Lts Label σ) (es : List LogEntry) (s s' : σ) : Prop where
  steps : ∃ s₁ s₂ s₃ s₄ s₅ idx, Relation.ReflTransGen (A.step .tau) s s₁ ∧ A.step (.appendBatch es) s₁ s₂ ∧
    A.step .appendBatchDone s₂ s₃ ∧ Relation.ReflTransGen (A.step .tau) s₃ s₄ ∧
    A.step (.updateGlobalIdx idx) s₄ s₅ ∧ A.step .updateGlobalIdxDone s₅ s'

theorem Round.reachable {σ : Type*} {A : Lts Label σ} {es : List LogEntry} {s s' : σ} (h : Round A es s s')
    (hs : A.Reachable s) : A.Reachable s' := by
  obtain ⟨s₁, s₂, s₃, s₄, s₅, idx, h₁, h₂, h₃, h₄, h₅, h₆⟩ := h
  have hrun : ∀ {x y : σ}, A.Reachable x → Relation.ReflTransGen (A.step .tau) x y → A.Reachable y :=
    fun hx hxy => Lib.Run.Reach.run hx (Relation.ReflTransGen.mono (fun _ _ hs => ⟨_, hs⟩) _ _ hxy)
  exact (((hrun (((hrun hs h₁).next h₂).next h₃) h₄).next h₅).next h₆)

end LazyLog.ConsLog.Spec
