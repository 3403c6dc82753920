import LazyLog.DurLog.Collections

/-! # A backup comes to rest

A collection holds `lk_` while it goes over the ring, and waits there until the flag of the next entry is raised. A
call of `AppendEntry` takes `lk_` as well, but only for the insertion of its request id, when its flag is raised
already. So the two never wait for each other: however the threads that are inside are scheduled, their steps end, and
then every call has returned and the collection has replied.

There is one exception. The sequence number zero stands for a request that is not found, and it is the place of the
first entry, too. On a backup that has appended nothing a collection waits for an entry to come. -/

namespace LazyLog.DurLog.Rest

open Relation (ReflTransGen)
open LazyLog.Lib.Tiling LazyLog.Lib.Run LazyLog.Rpc.Entry LazyLog.Rpc.Multi
open LazyLog.DurLog.Flat LazyLog.DurLog.Ranges LazyLog.DurLog.Ring
open LazyLog.DurLog.DelEntries hiding Step
open LazyLog.DurLog.Interleaved

/-- A step of a thread that is inside: a call of `AppendEntry` that has reserved its range, or the collection. -/
inductive Inside (c : Config) : Backup → Backup → Prop
  | write {v : Backup} {s' : State} {i : ℕ} {t : Slot} (ht : v.server.slots[i]? = some t) (hst : t.stage ≠ .copied)
    (h : AppendStep c i v.server s') : Inside c v { v with server := s' }
  | locked {v v' : Backup} (h : DelEntries.Step c v v') : Inside c v v'

/-- It passes complete entries only. -/
def Moves (c : Config) (v v' : Backup) : Prop := Inside c v v' ∧ Passing (fun t => t.Complete c) v v'

/-- A collection has been asked for, and has not replied. -/
def Underway : GcPc → Prop
  | .requested _ | .noted .. | .scanning .. => True
  | .idle | .replied _ => False

/-- Every call of `AppendEntry` has returned, and no collection is under way. -/
structure AtRest (v : Backup) : Prop where
  returned : ∀ t ∈ v.server.slots, t.stage = .returned
  replied : ¬ Underway v.gc

variable {c : Config} {v v' : Backup} {s s' : State} {i : ℕ} {t : Slot}

theorem Inside.step (h : Inside c v v') : Step c v v' := by
  cases h with
  | write ht hst h => exact .write ht hst h
  | locked h => exact .locked h

/-! ### The work that is left -/

/-- The steps before a call. -/
def stepsLeft : Stage → ℕ
  | .reserved => 4
  | .serialised => 3
  | .flagged => 2
  | .copied => 1
  | .returned => 0

/-- What is before a collection, with the end of the log at `q`. -/
def gcLeft (q : ℕ) : GcPc → ℕ
  | .requested _ => q + 4
  | .noted .. => q + 3
  | .scanning _ _ _ s => q + 2 - s
  | .idle | .replied _ => 0

def callsLeft (s : State) : ℕ := (s.slots.map fun t => stepsLeft t.stage).sum

def rank (v : Backup) : ℕ := callsLeft v.server + gcLeft v.server.log.sequencer v.gc

theorem callsLeft_put (ht : s.slots[i]? = some t) (st : Stage) (l : FlatLog) :
    callsLeft (s.put i t st l) + stepsLeft t.stage = callsLeft s + stepsLeft st := by
  obtain ⟨hi, rfl⟩ := List.getElem?_eq_some_iff.mp ht
  unfold callsLeft State.put
  simp only [List.map_set, List.sum_set, List.length_map, if_pos hi]
  have hsplit : (s.slots.map fun t => stepsLeft t.stage).sum =
      ((s.slots.map fun t => stepsLeft t.stage).take i).sum + stepsLeft s.slots[i].stage +
        ((s.slots.map fun t => stepsLeft t.stage).drop (i + 1)).sum := by
    rw [← List.sum_take_add_sum_drop (s.slots.map fun t => stepsLeft t.stage) i,
      List.drop_eq_getElem_cons (by simpa using hi), List.sum_cons, List.getElem_map, Nat.add_assoc]
  omega

theorem callsLeft_put_lt {st : Stage} (ht : s.slots[i]? = some t) (h : stepsLeft st < stepsLeft t.stage)
    (l : FlatLog) : callsLeft (s.put i t st l) < callsLeft s := by
  have heq := callsLeft_put ht st l
  omega

theorem callsLeft_lt (hs : AppendStep c i s s') (hi : i < s.slots.length) :
    callsLeft s' < callsLeft s ∧ s'.log.sequencer = s.log.sequencer := by
  cases hs with
  | reserve e he => omega
  | serialise ht hst => exact ⟨callsLeft_put_lt ht (by rw [hst]; decide) _, rfl⟩
  | raiseFlag ht hst => exact ⟨callsLeft_put_lt ht (by rw [hst]; decide) _, rfl⟩
  | copyOverflow ht hst =>
    exact ⟨callsLeft_put_lt ht (by rw [hst]; decide) _, (copyOverflow_counters c s.log _ _).1⟩
  | insertReqid ht hst =>
    exact ⟨callsLeft_put_lt ht (by rw [hst]; decide) _, (insertReqid_counters c s.log _ _).1⟩

/-- **Every step leaves less to do.** -/
theorem rank_lt (h : Sound c v) (hs : Inside c v v') : rank v' < rank v := by
  cases hs with
  | write ht hst hstep =>
    obtain ⟨hlt, hseq⟩ := callsLeft_lt hstep (List.getElem?_eq_some_iff.mp ht).1
    unfold rank
    simp only [hseq]
    omega
  | locked hstep =>
    cases hstep with
    | insertReqid ht hst hlk =>
      obtain ⟨hlt, hseq⟩ := callsLeft_lt (.insertReqid (c := c) ht hst) (List.getElem?_eq_some_iff.mp ht).1
      unfold rank
      simp only [hseq]
      omega
    | @note ids hpc =>
      obtain ⟨m, hm, -, -⟩ := noteMaxSeq_spec (fun _ => True) trivial ids v.server.log fun _ _ _ => trivial
      unfold rank
      rw [hpc, hm]
      simp only [callsLeft, gcLeft]
      omega
    | pending hpc =>
      unfold rank delPending
      rw [hpc]
      simp only [callsLeft, gcLeft]
      omega
    | @round ids maxSeq nDel s hpc hle hf =>
      have hlt := lt_delRound c ids v.server.log nDel s
      have hmax := h.maxSeq
      rw [maxSeq_of_scanning hpc] at hmax
      unfold rank
      rw [hpc]
      simp only [callsLeft, gcLeft, (delRound_counters ids v.server.log nDel s).1]
      omega
    | @finish ids maxSeq nDel s hpc hlt =>
      have hle := h.settled.le_sequencer h.contents.tiled
      rw [cursor_of_scanning hpc] at hle
      unfold rank
      rw [hpc]
      simp only [callsLeft, gcLeft, State.setWatermk]
      omega

/-! ### Where nobody moves -/

theorem exists_write (ht : v.server.slots[i]? = some t) (hf : ¬ t.Finished) : ∃ v', Moves c v v' := by
  have hi := (List.getElem?_eq_some_iff.mp ht).1
  have hgo : ∀ s', AppendStep c i v.server s' → ∃ v', Moves c v v' := by
    intro s' hs
    have hstep := Inside.write (v := v) ht (fun hst => hf (Or.inl hst)) hs
    obtain ⟨u, st, l, -, rfl, -, -, hw, -⟩ := appendStep_complete hs hi
    exact ⟨_, hstep, passing_of_cursor_eq (cursor_congr hw)⟩
  rcases hst : t.stage
  · exact hgo _ (.serialise ht hst)
  · exact hgo _ (.raiseFlag ht hst)
  · exact hgo _ (.copyOverflow ht hst)
  · exact absurd (Or.inl hst) hf
  · exact absurd (Or.inr hst) hf

/-- With everything written, a collection can go on, but on a backup that has appended nothing. -/
theorem exists_locked (h : Sound c v) (hfin : ∀ t ∈ v.server.slots, t.Finished) (hgc : Underway v.gc)
    (hne : v.server.slots ≠ []) : ∃ v', Moves c v v' := by
  have hpass : ∀ v', Passing (fun t => t.Complete c) v v' := fun v' t ht _ _ => Or.inl (hfin t ht)
  rcases hpc : v.gc with _ | ids | ⟨ids, maxSeq⟩ | ⟨ids, maxSeq, nDel, q⟩ | nDel
  · rw [hpc] at hgc
    exact hgc.elim
  · exact ⟨_, .locked (.note hpc), hpass _⟩
  · exact ⟨_, .locked (.pending hpc), hpass _⟩
  · rcases lt_or_ge maxSeq q with hlt | hle
    · exact ⟨_, .locked (.finish hpc hlt), hpass _⟩
    · -- the entry at `q` has been written, so its flag is raised
      obtain ⟨k, -, hcur, -⟩ := h.settled
      have hw := h.watermk_le
      have hmax := h.maxSeq
      rw [cursor_of_scanning hpc] at hcur hw
      rw [maxSeq_of_scanning hpc] at hmax
      rcases lt_length_or_nil h.contents.tiled hcur hmax hle with hk | ⟨hnil, -⟩
      · have ht := List.getElem?_eq_getElem hk
        have hseq := h.contents.tiled.seq ht
        rw [← hcur] at hseq
        have hh := h.contents.holds_of_flagged ht (by omega)
          (Or.inr (hfin _ (List.getElem_mem hk)))
        rw [hseq] at hh
        exact ⟨_, .locked (.round hpc hle (getFlagFromBuf_of_holds hh.left)), hpass _⟩
      · exact absurd hnil hne
  · rw [hpc] at hgc
    exact hgc.elim

/-- **Where nobody moves, the backup is at rest**, or it has appended nothing. -/
theorem atRest_of_stuck (h : Sound c v) (hne : Underway v.gc → v.server.slots ≠ []) (hno : ∀ v', ¬ Moves c v v') :
    AtRest v := by
  have hstop : ¬ ∃ v', Moves c v v' := not_exists.mpr hno
  have hfin : ∀ t ∈ v.server.slots, t.Finished := by
    intro t ht
    obtain ⟨i, hi⟩ := List.mem_iff_getElem?.mp ht
    by_contra hf
    exact hstop (exists_write hi hf)
  have hgc : ¬ Underway v.gc := fun hgc => hstop (exists_locked h hfin hgc (hne hgc))
  refine ⟨fun t ht => ?_, hgc⟩
  obtain ⟨i, hi⟩ := List.mem_iff_getElem?.mp ht
  -- no one holds the lock
  have hlk : ¬ v.gc.Locked := by
    intro hlk
    rcases hpc : v.gc with _ | ids | ⟨ids, maxSeq⟩ | ⟨ids, maxSeq, nDel, q⟩ | nDel <;> rw [hpc] at hlk hgc
    · exact hlk
    · exact hlk
    · exact hlk
    · exact hgc trivial
    · exact hlk
  refine (hfin t ht).resolve_left fun hst => hstop ⟨_, .locked (.insertReqid hi hst hlk), ?_⟩
  exact passing_of_cursor_eq (cursor_insertReqid c v i t)

/-! ### Runs -/

theorem Inside.keeps (h : Inside c v v') :
    (v'.server.slots = [] ↔ v.server.slots = []) ∧ (Underway v'.gc → Underway v.gc) := by
  have hput : ∀ {i : ℕ} {t : Slot} {st : Stage} {l : FlatLog},
      (v.server.put i t st l).slots = [] ↔ v.server.slots = [] := by
    intro i t st l
    unfold State.put
    exact List.set_eq_nil_iff i _
  cases h with
  | write ht hst hstep =>
    obtain ⟨t, st, l, -, rfl, -⟩ := appendStep_complete hstep (List.getElem?_eq_some_iff.mp ht).1
    exact ⟨hput, id⟩
  | locked hstep =>
    cases hstep with
    | insertReqid ht hst hlk => exact ⟨hput, id⟩
    | note hpc | pending hpc | round hpc hle hf =>
      rw [hpc]
      exact ⟨Iff.rfl, fun _ => trivial⟩
    | finish hpc hlt => exact ⟨Iff.rfl, False.elim⟩

theorem inevitably_atRest (h : Sound c v) (hne : Underway v.gc → v.server.slots ≠ []) :
    Inevitably (Moves c) AtRest v := by
  refine Inevitably.of_rank (I := fun v => Sound c v ∧ (Underway v.gc → v.server.slots ≠ [])) rank ?_ ?_ ⟨h, hne⟩
  · rintro v v' ⟨h, hne⟩ hs
    obtain ⟨hslots, hgc⟩ := hs.1.keeps
    refine ⟨⟨sound_of_step h hs.1.step hs.2, fun hu hnil => hne (hgc hu) (hslots.mp hnil)⟩, rank_lt h hs.1⟩
  · rintro v ⟨h, hne⟩ hno
    exact atRest_of_stuck h hne hno

/-- On a backup that has appended nothing a collection does not end. -/
theorem underway_of_empty (h : Sound c v) (hs : Moves c v v') (hnil : v.server.slots = []) : Underway v'.gc := by
  obtain ⟨hs, -⟩ := hs
  cases hs with
  | write ht hst hstep =>
    rw [hnil] at ht
    cases ht
  | locked hstep =>
    cases hstep with
    | insertReqid ht hst hlk =>
      rw [hnil] at ht
      cases ht
    | note hpc | pending hpc | round hpc hle hf => trivial
    | finish hpc hlt =>
      -- the loop is at the start, which is not above `max_seq`
      have hle := h.settled.le_sequencer h.contents.tiled
      have hseq : v.server.log.sequencer = 0 := by
        rw [h.contents.tiled.sequencer]
        simp [State.entries, hnil, totalSize]
      rw [cursor_of_scanning hpc] at hle
      omega

theorem not_atRest_of_empty (h : Sound c v) (hnil : v.server.slots = []) (hgc : Underway v.gc)
    (hrun : ReflTransGen (Moves c) v v') : ¬ AtRest v' := by
  have hkeep : Sound c v' ∧ v'.server.slots = [] ∧ Underway v'.gc := by
    induction hrun with
    | refl => exact ⟨h, hnil, hgc⟩
    | tail _ hs ih =>
      obtain ⟨h, hnil, -⟩ := ih
      exact ⟨sound_of_step h hs.1.step hs.2, hs.1.keeps.1.mpr hnil, underway_of_empty h hs hnil⟩
  exact fun hrest => hrest.replied hkeep.2.2

/-- **A backup comes to rest, however its threads are scheduled**, exactly if it has appended an entry or no
collection is under way: after finitely many steps every call of `AppendEntry` that is inside has returned, and the
collection has replied. -/
theorem backup_comes_to_rest_iff (h : Reachable c (Passing fun t => t.Complete c) v) :
    Inevitably (Moves c) AtRest v ↔ (Underway v.gc → v.server.slots ≠ []) := by
  have hinv : Sound c v := sound_of_reachable (fun _ _ => id) h
  refine ⟨fun hin hgc hnil => ?_, inevitably_atRest hinv⟩
  obtain ⟨v', hrun, hrest⟩ := hin.exists_run
  exact not_atRest_of_empty hinv hnil hgc hrun hrest

/-- A collection is asked for before anything has been appended, and then a call reserves its range. -/
theorem backup_comes_to_rest_iff_first : ∃ v, Reachable smallBackup (Passing fun t => t.Complete smallBackup) v ∧
    v.gc = .requested [(7, 0)] ∧ ¬ Inevitably (Moves smallBackup) AtRest v ∧
      Inevitably (Moves smallBackup) AtRest { v with server := v.server.reserve smallBackup default } := by
  have h₀ : Reachable smallBackup (Passing fun t => t.Complete smallBackup) ⟨⟨.zeroed, []⟩, .idle⟩ := Reach.start rfl
  have h₁ := h₀.next ⟨.request [(7, 0)] rfl, passing_of_cursor_eq rfl⟩
  have h₂ := h₁.next ⟨.reserve default default_admissible rfl (by decide), passing_of_cursor_eq rfl⟩
  refine ⟨_, h₁, rfl, fun hin => ?_, (backup_comes_to_rest_iff h₂).mpr fun _ => List.cons_ne_nil _ _⟩
  exact (backup_comes_to_rest_iff h₁).mp hin trivial rfl

/-! ### With everything written -/

theorem locked_of_inside (h : ∀ t ∈ v.server.slots, t.Finished) (hs : Inside c v v') : DelEntries.Step c v v' := by
  cases hs with
  | @write s' i t ht hst hstep =>
    have hret : t.stage = .returned := (h t (List.mem_of_getElem? ht)).resolve_left hst
    have hno : ∀ {u : Slot} {st : Stage}, v.server.slots[i]? = some u → u.stage = st → st = .returned := by
      intro u st hu hst
      obtain rfl := Option.some.inj (ht.symm.trans hu)
      exact hst.symm.trans hret
    cases hstep with
    | reserve e he => exact absurd (List.getElem?_eq_some_iff.mp ht).1 (Nat.lt_irrefl _)
    | serialise hu hst | raiseFlag hu hst | copyOverflow hu hst | insertReqid hu hst => cases hno hu hst
  | locked h => exact h

/-- **A backup whose calls have written their entries can come to rest.** -/
theorem exists_rest (h : DelEntries.Inv c (fun _ => True) v) (hne : Underway v.gc → v.server.slots ≠ []) :
    ∃ v', ReflTransGen (DelEntries.Step c) v v' ∧ AtRest v' := by
  obtain ⟨v', hrun, hrest⟩ := (inevitably_atRest h.toSound hne).exists_run
  have hlift : ReflTransGen (DelEntries.Step c) v v' ∧ DelEntries.Inv c (fun _ => True) v' := by
    clear hrest
    induction hrun with
    | refl => exact ⟨.refl, h⟩
    | tail _ hs ih =>
      obtain ⟨hrun, hinv⟩ := ih
      have hstep := locked_of_inside hinv.finished hs.1
      exact ⟨hrun.tail hstep, hinv.step hstep fun _ _ _ _ => trivial⟩
  exact ⟨v', hlift.1, hrest⟩

end LazyLog.DurLog.Rest
