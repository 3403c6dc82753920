import Mathlib.Data.Nat.Notation
import Mathlib.Logic.Relation

/-! # Runs of a step relation

`Reach init step s`: the state `s` is reached from some initial state by finitely many steps. An
invariant is proved once, from the initial states and from one step (`Reach.invariant`); the step may
use that the state before it is reached, so invariants can be proved one after the other. A step of one
system that is a run of another carries reachability over (`Reach.map`).

`Inevitably step P s`: however the steps are taken from `s`, they end, and where they end `P` holds. A rank that
every step lowers, and an invariant without other dead ends, give this (`Inevitably.of_rank`). -/

namespace LazyLog.Lib.Run

open Relation

variable {σ τ : Type*}

/-- The states reached from an initial state by finitely many steps. -/
def Reach (init : σ → Prop) (step : σ → σ → Prop) (s : σ) : Prop :=
  ∃ s₀, init s₀ ∧ ReflTransGen step s₀ s

variable {init : σ → Prop} {step : σ → σ → Prop}

theorem Reach.start {s : σ} (h : init s) : Reach init step s := ⟨s, h, .refl⟩

theorem Reach.next {s s' : σ} (h : Reach init step s) (hs : step s s') : Reach init step s' := by
  obtain ⟨s₀, h0, hr⟩ := h
  exact ⟨s₀, h0, hr.tail hs⟩

theorem Reach.run {s s' : σ} (h : Reach init step s) (hr : ReflTransGen step s s') :
    Reach init step s' := by
  obtain ⟨s₀, h0, hr0⟩ := h
  exact ⟨s₀, h0, hr0.trans hr⟩

/-- **The invariant rule.** What holds initially and is kept by every step from a reached state holds
of every reached state. -/
theorem Reach.invariant {P : σ → Prop} (h0 : ∀ s, init s → P s)
    (hstep : ∀ s s', Reach init step s → P s → step s s' → P s') {s : σ}
    (h : Reach init step s) : P s := by
  obtain ⟨s₀, hi, hr⟩ := h
  induction hr with
  | refl => exact h0 s₀ hi
  | tail hr hs ih => exact hstep _ _ ⟨s₀, hi, hr⟩ ih hs

/-- **Transfer.** If `f` sends initial states to initial states and each step from a reached state to a
run of the other system, it sends reached states to reached states. -/
theorem Reach.map {init' : τ → Prop} {step' : τ → τ → Prop} (f : σ → τ)
    (h0 : ∀ s, init s → init' (f s))
    (hstep : ∀ s s', Reach init step s → Reach init' step' (f s) → step s s' →
      ReflTransGen step' (f s) (f s')) {s : σ} (h : Reach init step s) :
    Reach init' step' (f s) :=
  h.invariant (P := fun s => Reach init' step' (f s)) (fun s hs => .start (h0 s hs))
    fun s s' hr ih hs => ih.run (hstep s s' hr ih hs)

/-! ### Runs that end -/

/-- Whatever steps are taken, they lead to a state without a step, and it satisfies `P`. -/
inductive Inevitably (step : σ → σ → Prop) (P : σ → Prop) : σ → Prop
  | done {s : σ} (h : P s) (hend : ∀ s', ¬ step s s') : Inevitably step P s
  | next {s : σ} (hex : ∃ s', step s s') (h : ∀ s', step s s' → Inevitably step P s') : Inevitably step P s

variable {P : σ → Prop} {s : σ}

theorem Inevitably.of_rank {I : σ → Prop} (rank : σ → ℕ)
    (hstep : ∀ s s', I s → step s s' → I s' ∧ rank s' < rank s)
    (hend : ∀ s, I s → (∀ s', ¬ step s s') → P s) (h : I s) : Inevitably step P s := by
  induction hn : rank s using Nat.strongRecOn generalizing s with
  | _ n ih =>
    by_cases hex : ∃ s', step s s'
    · refine .next hex fun s' hs => ?_
      obtain ⟨hI, hlt⟩ := hstep s s' h hs
      exact ih _ (hn ▸ hlt) hI rfl
    · have hno := not_exists.mp hex
      exact .done (hend s h hno) hno

theorem Inevitably.exists_run (h : Inevitably step P s) : ∃ s', ReflTransGen step s s' ∧ P s' := by
  induction h with
  | done h _ => exact ⟨_, .refl, h⟩
  | next hex _ ih =>
    obtain ⟨s₁, hs⟩ := hex
    obtain ⟨s', hrun, hP⟩ := ih s₁ hs
    exact ⟨s', hrun.head hs, hP⟩

end LazyLog.Lib.Run
