import LazyLog.Lib.Run
import Mathlib.Logic.Function.Basic

/-! # Linearizable objects

A sequential object has a state, and each of its operations may take the state to another one and give a result.
Processes use the atomic object concurrently: a process invokes an operation, the operation takes effect at one
instant, and it returns. What is seen from outside are the invocations and the returns, in the order of time.

A history is linearizable (`Linearizable`) if the atomic object has it. A system has linearizable histories if each
of its states stands for one of the atomic object and each of its steps for a run of it (`linearizable_of_map`). The
order in which the operations take effect is then the order of the atomic object; it respects time because an
operation takes effect between its invocation and its return. -/

namespace LazyLog.Lib.Objects

open Relation LazyLog.Lib.Run

/-- A sequential object: `apply op res s s'` if `op` may take `s` to `s'` with the result `res`. -/
structure Object (ω ρ σ : Type*) where
  start : σ
  apply : ω → ρ → σ → σ → Prop

/-- What is seen of a process. -/
inductive Event (ι ω ρ : Type*)
  | invoked (i : ι) (op : ω)
  | returned (i : ι) (res : ρ)

/-- Where a process is: in no operation, in one that has taken no effect yet, in one that has. -/
inductive Call (ω ρ : Type*)
  | idle
  | pending (op : ω)
  | done (res : ρ)

/-- The object and its processes, and what has been seen. -/
structure Atomic (ι ω ρ σ : Type*) where
  state : σ
  calls : ι → Call ω ρ
  hist : List (Event ι ω ρ)

variable {ι ω ρ σ τ : Type*} [DecidableEq ι]

/-- One step of the atomic object. -/
inductive Atomic.Step (O : Object ω ρ σ) : Atomic ι ω ρ σ → Atomic ι ω ρ σ → Prop
  | invoke {a : Atomic ι ω ρ σ} (i : ι) (op : ω) (h : a.calls i = .idle) :
    Step O a
      { a with calls := Function.update a.calls i (.pending op), hist := a.hist ++ [.invoked i op] }
  | effect {a : Atomic ι ω ρ σ} (i : ι) {op : ω} {res : ρ} {s : σ} (h : a.calls i = .pending op)
    (hs : O.apply op res a.state s) :
    Step O a { a with state := s, calls := Function.update a.calls i (.done res) }
  | ret {a : Atomic ι ω ρ σ} (i : ι) {res : ρ} (h : a.calls i = .done res) :
    Step O a { a with calls := Function.update a.calls i .idle, hist := a.hist ++ [.returned i res] }

/-- Nothing has been seen. -/
def Atomic.Start (O : Object ω ρ σ) (a : Atomic ι ω ρ σ) : Prop := a = ⟨O.start, fun _ => .idle, []⟩

/-- **The history is one of the atomic object.** -/
def Linearizable (O : Object ω ρ σ) (hist : List (Event ι ω ρ)) : Prop :=
  ∃ a : Atomic ι ω ρ σ, Reach (Atomic.Start O) (Atomic.Step O) a ∧ a.hist = hist

/-- **States that stand for states of the atomic object have linearizable histories.** -/
theorem linearizable_of_map {O : Object ω ρ σ} {init : τ → Prop} {step : τ → τ → Prop} (f : τ → Atomic ι ω ρ σ)
    (h0 : ∀ s, init s → Atomic.Start O (f s))
    (hstep : ∀ s s', Reach init step s → step s s' → ReflTransGen (Atomic.Step O) (f s) (f s')) {s : τ}
    (h : Reach init step s) : Linearizable O (f s).hist :=
  ⟨f s, h.map f h0 fun s s' hr _ hs => hstep s s' hr hs, rfl⟩

end LazyLog.Lib.Objects
