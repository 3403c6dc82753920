import LazyLog.Storage.Store

/-! # The calls of the backend return

`AppendBatch` waits for the shards of a round, a shard waits for its backups, and every server has to open a file
for the stripe. From whatever place a call is at, the servers can bring it to its end without the consensus log:
`append_completes` for `AppendBatch`, `update_completes` for `UpdateGlobalIdx`. There is always a descriptor to
open a file with: a server has the files of unfinished stripes open, one each (`exists_free`). -/

namespace LazyLog.Storage.Completion

open Relation
open LazyLog.Lib.Bytes LazyLog.Lib.Run LazyLog.Lib.Transition LazyLog.Rpc.Entry LazyLog.Rpc.Multi
open LazyLog.Storage.ShardServer LazyLog.Storage.NaiveBackend LazyLog.Storage.Replication
open LazyLog.Storage.Store

variable {k : Striping} {L es : List LogEntry} {n sh f u x : ℕ} {v v' : Shard} {r : ℕ → ℕ} {s s' : Cluster}

/-! ### A descriptor -/

theorem le_of_shardStripes_ne {b : ℕ} (hx : x ≤ L.length) (hb : shardStripes k L sh x b ≠ []) : b < x := by
  obtain ⟨e, rest, he⟩ := List.exists_cons_of_ne_nil hb
  have hlt := (getElem?_shardStripes hx (show (shardStripes k L sh x b)[0]? = some e by rw [he]; rfl)).1
  omega

/-- **A server has a descriptor left.** -/
theorem exists_free {w : Server} (h : Stores k (shardStripes k L sh x) w) (hx : x ≤ L.length) :
    ∃ fd, w.files.fds fd = none := by
  by_contra hall
  push Not at hall
  -- the open files have stripes before `x` as their names, and a stripe has one descriptor
  have hsub : Finset.range (x + 1) ⊆ (Finset.range x).image fun b => (w.entriesFdSet b).getD 0 := by
    intro fd _
    obtain ⟨d, hd⟩ := Option.ne_none_iff_exists'.mp (hall fd)
    obtain ⟨⟨hne, -⟩, hfd⟩ := h.only fd d hd
    refine Finset.mem_image.mpr ⟨d.name, Finset.mem_range.mpr (le_of_shardStripes_ne hx hne), ?_⟩
    rw [hfd]
    rfl
  have hcard := (Finset.card_le_card hsub).trans Finset.card_image_le
  rw [Finset.card_range, Finset.card_range] at hcard
  omega

/-! ### A shard -/

theorem shardOk_run (h : ShardOk k L n sh f u v) (hsh : sh < k.shardNum)
    (hrun : ReflTransGen (ShardStep k n) v v') : ShardOk k L n sh f u v' := by
  induction hrun with
  | refl => exact h
  | tail _ hs ih => exact ih.step hsh hs

theorem backups_complete (h : ShardOk k L n sh f u v) (hsh : sh < k.shardNum) {base : ℕ}
    (hpc : v.pc = .added base) : ∀ m ≤ n, ∃ v', ReflTransGen (ShardStep k n) v v' ∧ v'.pc = .added base ∧
      ∀ b < m, v'.reps b = .replied
  | 0, _ => ⟨v, .refl, hpc, fun b hb => absurd hb (Nat.not_lt_zero b)⟩
  | m + 1, hm => by
    obtain ⟨v₁, hrun, hpc₁, hdone⟩ := backups_complete h hsh hpc m (by omega)
    have hok := shardOk_run h hsh hrun
    unfold ShardOk at hok
    rw [hpc₁] at hok
    obtain ⟨ha, -, -, hbs, -⟩ := hok
    have hb := hbs m hm
    have hlast : ∀ w : Shard, (∀ b, b ≠ m → w.reps b = v₁.reps b) → w.reps m = .replied →
        ∀ b < m + 1, w.reps b = .replied := by
      intro w hw hwm b hlt
      rcases eq_or_ne b m with rfl | hne
      · exact hwm
      · rw [hw b hne]
        exact hdone b (by omega)
    unfold BackupOk at hb
    cases hrep : v₁.reps m with
    | idle => rw [hrep] at hb; exact hb.elim
    | replied => exact ⟨v₁, hrun, hpc₁, hlast v₁ (fun _ _ => rfl) hrep⟩
    | requested req =>
      rw [hrep] at hb
      have hle := ha.le
      have hlen := ha.le_length
      obtain ⟨fd, hfree⟩ := exists_free hb.2 (by omega)
      have hstep : ShardStep k n v₁ _ := .repAdd (p := ⟨fd, some fd⟩) hm hrep rfl hfree
      exact ⟨_, hrun.tail hstep, hpc₁,
        hlast _ (fun b hne => Function.update_of_ne hne _ _) (Function.update_self _ _ _)⟩

theorem completes_of_added (h : ShardOk k L n sh f u v) (hsh : sh < k.shardNum) {base : ℕ}
    (hpc : v.pc = .added base) : ∃ v', ReflTransGen (ShardStep k n) v v' ∧ v'.pc = .replied := by
  obtain ⟨v₁, hrun, hpc₁, hdone⟩ := backups_complete h hsh hpc n (Nat.le_refl n)
  exact ⟨_, hrun.tail (.finish hpc₁ hdone), rfl⟩

theorem completes_of_replicating (h : ShardOk k L n sh f u v) (hsh : sh < k.shardNum) {req : MsgBuffer}
    (hpc : v.pc = .replicating req) : ∃ v', ReflTransGen (ShardStep k n) v v' ∧ v'.pc = .replied := by
  have hok := h
  unfold ShardOk at hok
  rw [hpc] at hok
  obtain ⟨ha, -, hv, -, -⟩ := hok
  have hle := ha.le
  have hlen := ha.le_length
  obtain ⟨fd, hfree⟩ := exists_free hv (by omega)
  have hstep : ShardStep k n v _ := .add (p := ⟨fd, some fd⟩) hpc rfl hfree
  obtain ⟨v', hrun, hdone⟩ := completes_of_added (h.step hsh hstep) hsh rfl
  exact ⟨v', .head hstep hrun, hdone⟩

/-- **A shard comes to the end of its request**, from every place of `AppendBatchHandler`. -/
theorem shard_completes (h : ShardOk k L n sh f u v) (hsh : sh < k.shardNum) :
    ∃ v', ReflTransGen (ShardStep k n) v v' ∧ (v'.pc = .idle ∨ v'.pc = .replied) := by
  cases hpc : v.pc with
  | idle => exact ⟨v, .refl, Or.inl hpc⟩
  | replied => exact ⟨v, .refl, Or.inr hpc⟩
  | added base =>
    obtain ⟨v', hrun, hdone⟩ := completes_of_added h hsh hpc
    exact ⟨v', hrun, Or.inr hdone⟩
  | replicating req =>
    obtain ⟨v', hrun, hdone⟩ := completes_of_replicating h hsh hpc
    exact ⟨v', hrun, Or.inr hdone⟩
  | requested req =>
    have hstep : ShardStep k n v _ := .replicate (fun _ _ => 0) hpc
    obtain ⟨v', hrun, hdone⟩ := completes_of_replicating (h.step hsh hstep) hsh rfl
    exact ⟨v', .head hstep hrun, Or.inr hdone⟩

/-! ### `AppendBatch` -/

/-- A step of the storage by itself. -/
def Tau (k : Striping) (r : ℕ → ℕ) (s s' : Cluster) : Prop := Store.Step k r .tau s s'

theorem run_shard (hsh : sh < k.shardNum) (hrun : ReflTransGen (ShardStep k (r sh)) (s.shards sh) v) :
    ReflTransGen (Tau k r) s { s with shards := Function.update s.shards sh v } := by
  induction hrun with
  | refl => rw [Function.update_eq_self]
  | @tail w w' _ hs ih =>
    have hw : ShardStep k (r sh) (Function.update s.shards sh w sh) w' := by
      rw [Function.update_self]
      exact hs
    have hstep : Tau k r { s with shards := Function.update s.shards sh w } _ := .shard hsh hw
    rw [Function.update_idem] at hstep
    exact ih.tail hstep

theorem history_run (hrun : ReflTransGen (Tau k r) s s') :
    s'.log = s.log ∧ s'.updating = s.updating ∧ s'.issued = s.issued := by
  induction hrun with
  | refl => exact ⟨rfl, rfl, rfl⟩
  | tail _ hs ih =>
    cases hs with
    | send | wait | shard => exact ih

theorem inv_run (h : Inv k r s f u) (hrun : ReflTransGen (Tau k r) s s') : ∃ f' u', Inv k r s' f' u' := by
  induction hrun with
  | refl => exact ⟨f, u, h⟩
  | tail _ hs ih =>
    obtain ⟨f', u', hi⟩ := ih
    obtain ⟨f'', u'', -, hi'⟩ := hi.step hs
    exact ⟨f'', u'', hi'⟩

theorem round_completes (h : Inv k r s f u) : ∀ m ≤ k.shardNum, ∃ s', ReflTransGen (Tau k r) s s' ∧
    s'.pc = s.pc ∧ ∀ sh < m, (s'.shards sh).pc = .idle ∨ (s'.shards sh).pc = .replied
  | 0, _ => ⟨s, .refl, rfl, fun sh hsh => absurd hsh (Nat.not_lt_zero sh)⟩
  | m + 1, hm => by
    obtain ⟨s₁, hrun, hpc, hdone⟩ := round_completes h m (by omega)
    obtain ⟨f', u', hi⟩ := inv_run h hrun
    obtain ⟨v, hv, hpcv⟩ := shard_completes (hi.shards m hm) hm
    refine ⟨_, hrun.trans (run_shard hm hv), hpc, fun sh hsh => ?_⟩
    simp only
    rcases eq_or_ne sh m with rfl | hne
    · rw [Function.update_self]
      exact hpcv
    · rw [Function.update_of_ne hne]
      exact hdone sh (by omega)

theorem completes_of_waiting : ∀ (todo : List (ℕ × ℕ)) {s : Cluster} {f u : ℕ}, Inv k r s f u →
    s.pc = .waiting es todo → ∃ s', ReflTransGen (Tau k r) s s' ∧ s'.pc = .sending es []
  | todo, s, f, u, h, hpc => by
    obtain ⟨s₁, hrun, hpc₁, hdone⟩ := round_completes h k.shardNum (Nat.le_refl _)
    have hwait : Tau k r s₁ _ := .wait (hpc₁.trans hpc) hdone
    cases todo with
    | nil => exact ⟨_, hrun.tail hwait, rfl⟩
    | cons round todo =>
      obtain ⟨f', u', hi⟩ := inv_run h (hrun.tail hwait)
      have hsend : Tau k r _ _ := .send (s := { s₁ with
        pc := .sending es (round :: todo)
        shards := fun sh => { s₁.shards sh with pc := .idle } }) (fun _ _ => 0) rfl
      obtain ⟨f'', u'', -, hi'⟩ := hi.step hsend
      obtain ⟨s', hrun', hdone'⟩ := completes_of_waiting todo hi' rfl
      exact ⟨s', ((hrun.tail hwait).tail hsend).trans hrun', hdone'⟩

/-- **`AppendBatch` comes to its end.** -/
theorem append_completes (h : Inv k r s f u) (hpc : s.pc ≠ .idle) :
    ∃ s' es, ReflTransGen (Tau k r) s s' ∧ s'.pc = .sending es [] := by
  cases hc : s.pc with
  | idle => exact absurd hc hpc
  | waiting es todo =>
    obtain ⟨s', hrun, hdone⟩ := completes_of_waiting todo h hc
    exact ⟨s', es, hrun, hdone⟩
  | sending es todo =>
    cases todo with
    | nil => exact ⟨s, es, .refl, hc⟩
    | cons round todo =>
      have hsend : Tau k r s _ := .send (fun _ _ => 0) hc
      obtain ⟨f', u', -, hi⟩ := h.step hsend
      obtain ⟨s', hrun, hdone⟩ := completes_of_waiting todo hi rfl
      exact ⟨s', es, .head hsend hrun, hdone⟩

/-! ### `UpdateGlobalIdx` -/

theorem shard_updates (k : Striping) (n : ℕ) (v : Shard) :
    ∃ v', ReflTransGen (ShardStep k n) v v' ∧ v'.updating = none := by
  cases hu : v.updating with
  | none => exact ⟨v, .refl, hu⟩
  | some idx => exact ⟨_, .single (.updateGlobal hu), rfl⟩

theorem updates_complete (k : Striping) (r : ℕ → ℕ) (s : Cluster) : ∀ m ≤ k.shardNum,
    ∃ s', ReflTransGen (Tau k r) s s' ∧ s'.updating = s.updating ∧ ∀ sh < m, (s'.shards sh).updating = none
  | 0, _ => ⟨s, .refl, rfl, fun sh hsh => absurd hsh (Nat.not_lt_zero sh)⟩
  | m + 1, hm => by
    obtain ⟨s₁, hrun, hup, hdone⟩ := updates_complete k r s m (by omega)
    obtain ⟨v, hv, hnone⟩ := shard_updates k (r m) (s₁.shards m)
    refine ⟨_, hrun.trans (run_shard hm hv), hup, fun sh hsh => ?_⟩
    simp only
    rcases eq_or_ne sh m with rfl | hne
    · rw [Function.update_self]
      exact hnone
    · rw [Function.update_of_ne hne]
      exact hdone sh (by omega)

/-- **`UpdateGlobalIdx` comes to its end.** -/
theorem update_completes (k : Striping) (r : ℕ → ℕ) (s : Cluster) : ∃ s', ReflTransGen (Tau k r) s s' ∧
    s'.updating = s.updating ∧ ∀ sh < k.shardNum, (s'.shards sh).updating = none :=
  updates_complete k r s k.shardNum (Nat.le_refl _)

end LazyLog.Storage.Completion
