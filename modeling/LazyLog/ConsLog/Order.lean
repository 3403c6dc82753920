import LazyLog.ConsLog.FetchAndStore
import LazyLog.ConsLog.Pipeline

/-! # Exactly once, in order

In either mode of the consensus log the vectors given to the backend cut the log of the primary from its
front: nothing is stored twice, nothing is left out, and every entry comes at its index. -/

namespace LazyLog.ConsLog.Order

open LazyLog.Lib.Run LazyLog.Lib.Bytes LazyLog.Rpc.Entry
open LazyLog.DurLog.Flat LazyLog.DurLog.Ring LazyLog.DurLog.FlatCli
open LazyLog.ConsLog.Batches LazyLog.ConsLog.Link

/-- The loop of `fetchAndStore` and the primary, at any time. -/
def LoopReach (c : Config) (maxFetchSize : ℕ) : FetchAndStore.Loop → Prop :=
  Reach FetchAndStore.Start fun s s' => ∃ a, FetchAndStore.Step c maxFetchSize a s s'

/-- The two pipelined loops and the primary, at any time. -/
def PipelineReach (c : Config) (maxFetchSize : ℕ) : Pipeline.Sys → Prop :=
  Reach Pipeline.Start fun s s' => ∃ a, Pipeline.Step c maxFetchSize a s s'

/-- **Ordering is exactly-once and gap-free, in both modes.** -/
theorem stored_in_order_exactly_once (c : Config) (maxFetchSize : ℕ) :
    (∀ s, LoopReach c maxFetchSize s → Ordered (recs s.primary) s.stored) ∧
      ∀ s, PipelineReach c maxFetchSize s → Ordered (recs s.primary) s.stored := by
  refine ⟨fun s hs => ?_, fun s hs => ?_⟩
  · obtain ⟨x, hx, g, st, -, rfl⟩ := (FetchAndStore.simulation c maxFetchSize).reachable hs
    exact (Spec.inv_of_reachable hx).ordered
  · obtain ⟨x, hx, g, st, f, -, rfl⟩ := (Pipeline.simulation c maxFetchSize).reachable hs
    exact (Spec.inv_of_reachable hx).ordered

/-! ### Two batches -/

theorem append_ordered {mr : Mem} (hp : Primary .smallPrimary (landDelete .smallPrimary mr twoAppends) 2) :
    CanAppend .smallPrimary (landDelete .smallPrimary mr twoAppends) default ∧
      recs (append .smallPrimary (landDelete .smallPrimary mr twoAppends) default) =
        [emptyEntry 0, emptyEntry 1, emptyEntry 2] := by
  have hrecs : recs (landDelete .smallPrimary mr twoAppends) = [emptyEntry 0, emptyEntry 1] := recs_landDelete ..
  have hseq : (landDelete .smallPrimary mr twoAppends).log.sequencer = 64 := by
    rw [hp.total, hrecs]
    decide
  refine ⟨hp.canAppend_of_ordered ?_ ⟨rfl, by decide⟩ rfl ?_, ?_⟩
  · rw [hp.idxMark, hrecs]
    rfl
  · rw [hseq]
    decide
  · rw [recs_append, hrecs]
    rfl

theorem exists_loop_two : ∃ s, LoopReach .smallPrimary 0 s ∧
    s.stored = [[emptyEntry 0, emptyEntry 1, sentinel 64], [emptyEntry 2, sentinel 96]] := by
  have h₀ : LoopReach .smallPrimary 0 ⟨⟨.zeroed, []⟩, fun _ => 0, .idle, []⟩ :=
    .start ⟨⟨FlatLog.zeroed_fresh, rfl⟩, rfl, rfl⟩
  have h₂ : LoopReach .smallPrimary 0 ⟨twoAppends, fun _ => 0, .idle, []⟩ :=
    (h₀.next ⟨_, .append default canAppend_zeroed⟩).next ⟨_, .append default canAppend_oneAppend⟩
  obtain ⟨mr, hround, hp⟩ :=
    FetchAndStore.exists_round (S := []) primary_twoAppends (by rw [recs_twoAppends]; decide) fun _ => 0
  obtain ⟨hcan, hrecs⟩ := append_ordered hp
  have h₃ := (hround.reachable h₂).next (.append default hcan)
  obtain ⟨mr', hround', -⟩ := FetchAndStore.exists_round (hp.append hcan) (by rw [hrecs]; decide) mr
  refine ⟨_, hround'.reachable h₃, ?_⟩
  rw [hrecs]
  rfl

theorem exists_pipeline_two : ∃ s, PipelineReach .smallPrimary 0 s ∧
    s.stored = [[emptyEntry 0, emptyEntry 1, sentinel 64], [emptyEntry 2, sentinel 96]] := by
  have h₀ : PipelineReach .smallPrimary 0 (Pipeline.resting ⟨.zeroed, []⟩ (fun _ => 0) 0 0 []) :=
    .start ⟨⟨FlatLog.zeroed_fresh, rfl⟩, fun _ => rfl, ⟨rfl, rfl, rfl⟩, ⟨rfl, rfl⟩, rfl, rfl⟩
  have h₂ : PipelineReach .smallPrimary 0 (Pipeline.resting twoAppends (fun _ => 0) 0 0 []) :=
    (h₀.next ⟨_, .append default canAppend_zeroed⟩).next ⟨_, .append default canAppend_oneAppend⟩
  obtain ⟨mr, hround, hp⟩ :=
    Pipeline.exists_round primary_twoAppends (by rw [recs_twoAppends]; decide) (fun _ => 0) 0 []
  obtain ⟨hcan, hrecs⟩ := append_ordered hp
  have h₃ := (hround.reachable h₂).next (.append default hcan)
  obtain ⟨mr', hround', -⟩ := Pipeline.exists_round (hp.append hcan) (by rw [hrecs]; decide) mr 1 _
  refine ⟨_, hround'.reachable h₃, ?_⟩
  rw [hrecs]
  rfl

/-- Three entries are stored in two batches, in each of the modes. -/
theorem stored_in_order_exactly_once_two : ∃ (s : FetchAndStore.Loop) (s' : Pipeline.Sys),
    s.stored = [[emptyEntry 0, emptyEntry 1, sentinel 64], [emptyEntry 2, sentinel 96]] ∧
      Ordered (recs s.primary) s.stored ∧ s'.stored = s.stored ∧ Ordered (recs s'.primary) s'.stored := by
  obtain ⟨s, hs, hst⟩ := exists_loop_two
  obtain ⟨s', hs', hst'⟩ := exists_pipeline_two
  obtain ⟨hloop, hpipe⟩ := stored_in_order_exactly_once .smallPrimary 0
  exact ⟨s, s', hst, hloop s hs, hst'.trans hst.symm, hpipe s' hs'⟩

end LazyLog.ConsLog.Order
