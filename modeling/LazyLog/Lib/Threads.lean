import Mathlib.Logic.Function.Basic
import Mathlib.Tactic.SplitIfs

/-! # Threads over a shared state

A state that is shared and a program counter for each thread. A step moves one thread and may change the shared
state (`Sys.put`), or wakes every thread that sleeps (`Sys.notifyAll`).

For threads that sleep until a condition on the shared state holds: `NoMissed ready owes` says that if a sleeping
thread could go on, some thread owes a notification. It is kept by a step after which the thread that moves owes one
(`NoMissed.put_owes`), by one that makes no condition true (`NoMissed.put`), and by a notification
(`noMissed_notifyAll`). -/

namespace LazyLog.Lib.Threads

/-- The shared state, and where each thread is. -/
structure Sys (ι σ π : Type*) where
  shared : σ
  pc : ι → π

variable {ι σ π : Type*} [DecidableEq ι]

/-- The thread `i` has come to `pc`, and the shared state is `v`. -/
def Sys.put (s : Sys ι σ π) (i : ι) (v : σ) (pc : π) : Sys ι σ π := ⟨v, Function.update s.pc i pc⟩

/-- The thread `i` has come to `pc`, and every other thread is woken. -/
def Sys.notifyAll (s : Sys ι σ π) (i : ι) (wake : π → π) (pc : π) : Sys ι σ π :=
  ⟨s.shared, Function.update (wake ∘ s.pc) i pc⟩

theorem pc_put (s : Sys ι σ π) (i : ι) (v : σ) (pc : π) (j : ι) :
    (s.put i v pc).pc j = if j = i then pc else s.pc j := Function.update_apply ..

theorem pc_put_self (s : Sys ι σ π) (i : ι) (v : σ) (pc : π) : (s.put i v pc).pc i = pc := Function.update_self ..

theorem put_put (s : Sys ι σ π) (i : ι) (v v' : σ) (pc pc' : π) : (s.put i v pc).put i v' pc' = s.put i v' pc' :=
  congrArg (Sys.mk v') (Function.update_idem ..)

theorem pc_notifyAll (s : Sys ι σ π) (i : ι) (wake : π → π) (pc : π) (j : ι) :
    (s.notifyAll i wake pc).pc j = if j = i then pc else wake (s.pc j) := Function.update_apply ..

/-! ### No missed notification -/

/-- If a thread sleeps and could go on, some thread owes a notification. -/
def NoMissed (ready : π → σ → Prop) (owes : π → Prop) (s : Sys ι σ π) : Prop :=
  ∀ i, ready (s.pc i) s.shared → ∃ j, owes (s.pc j)

variable {ready : π → σ → Prop} {owes : π → Prop} {s : Sys ι σ π} {i : ι} {v : σ} {pc : π}

theorem NoMissed.put_owes (ho : owes pc) : NoMissed ready owes (s.put i v pc) := by
  intro j _
  refine ⟨i, ?_⟩
  rw [pc_put, if_pos rfl]
  exact ho

theorem NoMissed.put (h : NoMissed ready owes s) (hv : ∀ pc, ready pc v → ready pc s.shared) (hpc : ¬ready pc v)
    (ho : owes (s.pc i) → owes pc) : NoMissed ready owes (s.put i v pc) := by
  intro j hj
  rw [pc_put] at hj
  split_ifs at hj with hji
  · exact absurd hj hpc
  · obtain ⟨j', hj'⟩ := h j (hv _ hj)
    by_cases hi : j' = i
    · subst hi
      refine ⟨j', ?_⟩
      rw [pc_put, if_pos rfl]
      exact ho hj'
    · refine ⟨j', ?_⟩
      rw [pc_put, if_neg hi]
      exact hj'

theorem noMissed_notifyAll {wake : π → π} (hw : ∀ pc, ¬ready (wake pc) s.shared) (hpc : ¬ready pc s.shared) :
    NoMissed ready owes (s.notifyAll i wake pc) := by
  intro j hj
  rw [pc_notifyAll] at hj
  split_ifs at hj with hji
  · exact absurd hj hpc
  · exact absurd hj (hw _)

end LazyLog.Lib.Threads
