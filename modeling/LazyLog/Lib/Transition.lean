import LazyLog.Lib.Run

/-! # Labelled systems, their composition and simulation

A system takes labelled steps from its initial states. Two systems run side by side in `A.sync E link own`:
a step of `A` whose label is linked to a label of `E` is taken by both at once, the other steps of `A` by `A`
alone, and `E` takes the steps of its own.

A forward simulation matches every step of one system by a step of another with the same label. It carries
over to reached states (`Simulation.reachable`) and to compositions (`Simulation.sync`), so that what is
proved of the more abstract system in some environment holds of the other in the same environment. -/

namespace LazyLog.Lib.Transition

open Relation LazyLog.Lib.Run

/-- A labelled system. -/
structure Lts (α σ : Type*) where
  start : σ → Prop
  step : α → σ → σ → Prop

variable {α β σ τ ε : Type*}

/-- The states reached, whatever the labels. -/
def Lts.Reachable (A : Lts α σ) : σ → Prop := Reach A.start fun s s' => ∃ a, A.step a s s'

/-! ### Composition -/

/-- One step of two systems side by side. -/
inductive SyncStep (A : Lts α σ) (E : Lts β ε) (link : α → Option β) (own : β → Prop) :
    α ⊕ β → σ × ε → σ × ε → Prop
  | left {a : α} {s s' : σ} {e : ε} (hl : link a = none) (hs : A.step a s s') :
    SyncStep A E link own (.inl a) (s, e) (s', e)
  | both {a : α} {b : β} {s s' : σ} {e e' : ε} (hl : link a = some b) (hs : A.step a s s')
    (he : E.step b e e') : SyncStep A E link own (.inl a) (s, e) (s', e')
  | right {b : β} {s : σ} {e e' : ε} (ho : own b) (he : E.step b e e') :
    SyncStep A E link own (.inr b) (s, e) (s, e')

/-- Two systems side by side. -/
def Lts.sync (A : Lts α σ) (E : Lts β ε) (link : α → Option β) (own : β → Prop) :
    Lts (α ⊕ β) (σ × ε) where
  start x := A.start x.1 ∧ E.start x.2
  step := SyncStep A E link own

/-- The system, as long as its states meet a condition: it takes no step from a state that does not. -/
def Lts.restrict (A : Lts α σ) (P : σ → Prop) : Lts α σ where
  start := A.start
  step a s s' := P s ∧ A.step a s s'

/-- The system, with only those of its steps that meet a condition. -/
def Lts.guard (A : Lts α σ) (P : σ → σ → Prop) : Lts α σ where
  start := A.start
  step a s s' := P s s' ∧ A.step a s s'

variable {A : Lts α σ} {B : Lts α τ} {E : Lts β ε} {link : α → Option β} {own : β → Prop}

theorem Lts.Reachable.start {s : σ} (h : A.start s) : A.Reachable s := Reach.start h

theorem Lts.Reachable.next {a : α} {s s' : σ} (h : A.Reachable s) (hs : A.step a s s') :
    A.Reachable s' := Reach.next h ⟨a, hs⟩

/-- **The invariant rule** for a labelled system. -/
theorem Lts.Reachable.invariant {P : σ → Prop} {s : σ} (h : A.Reachable s)
    (h0 : ∀ s, A.start s → P s)
    (hstep : ∀ a s s', A.Reachable s → P s → A.step a s s' → P s') : P s :=
  Reach.invariant h0 (fun s s' hr hp ⟨a, hs⟩ => hstep a s s' hr hp hs) h

theorem Lts.Reachable.left {a : α} {s s' : σ} {e : ε} (h : (A.sync E link own).Reachable (s, e))
    (hs : A.step a s s') (hl : link a = none) : (A.sync E link own).Reachable (s', e) :=
  h.next (.left hl hs)

theorem Lts.Reachable.both {a : α} {b : β} {s s' : σ} {e e' : ε}
    (h : (A.sync E link own).Reachable (s, e)) (hs : A.step a s s') (he : E.step b e e')
    (hl : link a = some b) : (A.sync E link own).Reachable (s', e') :=
  h.next (.both hl hs he)

theorem Lts.Reachable.right {b : β} {s : σ} {e e' : ε} (h : (A.sync E link own).Reachable (s, e))
    (he : E.step b e e') (ho : own b) : (A.sync E link own).Reachable (s, e') :=
  h.next (.right ho he)

theorem Lts.Reachable.fst {x : σ × ε} (h : (A.sync E link own).Reachable x) : A.Reachable x.1 := by
  refine h.invariant (P := fun x => A.Reachable x.1) (fun x hx => .start hx.1) ?_
  rintro a x x' - ih hs
  cases hs with
  | left hl hs => exact ih.next hs
  | both hl hs he => exact ih.next hs
  | right ho he => exact ih

theorem Lts.Reachable.snd {x : σ × ε} (h : (A.sync E link own).Reachable x) : E.Reachable x.2 := by
  refine h.invariant (P := fun x => E.Reachable x.2) (fun x hx => .start hx.2) ?_
  rintro a x x' - ih hs
  cases hs with
  | left hl hs => exact ih
  | both hl hs he => exact ih.next he
  | right ho he => exact ih.next he

theorem Lts.Reachable.of_restrict {P : σ → Prop} {s : σ} (h : (A.restrict P).Reachable s) :
    A.Reachable s :=
  h.invariant (fun _ hs => .start hs) fun _ _ _ _ ih hs => ih.next hs.2

theorem Lts.Reachable.of_guard {P : σ → σ → Prop} {s : σ} (h : (A.guard P).Reachable s) : A.Reachable s :=
  h.invariant (fun _ hs => .start hs) fun _ _ _ _ ih hs => ih.next hs.2

/-! ### Simulation -/

/-- A forward simulation of `A` by `B`. -/
structure Simulation (A : Lts α σ) (B : Lts α τ) (R : σ → τ → Prop) : Prop where
  start : ∀ s, A.start s → ∃ t, B.start t ∧ R s t
  step : ∀ {a s s' t}, R s t → A.step a s s' → ∃ t', B.step a t t' ∧ R s' t'

variable {R : σ → τ → Prop}

/-- **Reached states are simulated by reached states.** -/
theorem Simulation.reachable (h : Simulation A B R) {s : σ} (hs : A.Reachable s) :
    ∃ t, B.Reachable t ∧ R s t := by
  refine hs.invariant (P := fun s => ∃ t, B.Reachable t ∧ R s t) (fun s h0 => ?_) ?_
  · obtain ⟨t, ht, hR⟩ := h.start s h0
    exact ⟨t, .start ht, hR⟩
  · rintro a s s' - ⟨t, ht, hR⟩ hs
    obtain ⟨t', ht', hR'⟩ := h.step hR hs
    exact ⟨t', ht.next ht', hR'⟩

theorem Simulation.restrict (h : Simulation A B R) {P : σ → Prop} {Q : τ → Prop}
    (hPQ : ∀ s t, R s t → P s → Q t) : Simulation (A.restrict P) (B.restrict Q) R := by
  refine ⟨h.start, ?_⟩
  rintro a s s' t hR ⟨hP, hs⟩
  obtain ⟨t', ht', hR'⟩ := h.step hR hs
  exact ⟨t', ⟨hPQ s t hR hP, ht'⟩, hR'⟩

theorem Simulation.guard (h : Simulation A B R) {P : σ → σ → Prop} {Q : τ → τ → Prop}
    (hPQ : ∀ s s' t t', R s t → R s' t' → P s s' → Q t t') : Simulation (A.guard P) (B.guard Q) R := by
  refine ⟨h.start, ?_⟩
  rintro a s s' t hR ⟨hP, hs⟩
  obtain ⟨t', ht', hR'⟩ := h.step hR hs
  exact ⟨t', ⟨hPQ s s' t t' hR hR' hP, ht'⟩, hR'⟩

/-- **Simulation is kept by composition** with the same environment. -/
theorem Simulation.sync (h : Simulation A B R) (E : Lts β ε) (link : α → Option β) (own : β → Prop) :
    Simulation (A.sync E link own) (B.sync E link own) fun x y => R x.1 y.1 ∧ x.2 = y.2 := by
  refine ⟨?_, ?_⟩
  · rintro ⟨s, e⟩ ⟨hs, he⟩
    obtain ⟨t, ht, hR⟩ := h.start s hs
    exact ⟨(t, e), ⟨ht, he⟩, hR, rfl⟩
  · rintro a x x' ⟨t, e⟩ ⟨hR, he⟩ hs
    cases hs with
    | left hl hs =>
      obtain ⟨t', ht', hR'⟩ := h.step hR hs
      obtain rfl := he
      exact ⟨_, .left hl ht', hR', rfl⟩
    | both hl hs hstep =>
      obtain ⟨t', ht', hR'⟩ := h.step hR hs
      obtain rfl := he
      exact ⟨_, .both hl ht' hstep, hR', rfl⟩
    | right ho hstep =>
      obtain rfl := he
      exact ⟨_, .right ho hstep, hR, rfl⟩

end LazyLog.Lib.Transition
