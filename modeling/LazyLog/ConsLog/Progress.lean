import LazyLog.ConsLog.FetchAndStore

/-! # The consensus log empties the log

Appends wait in `waitForPlace` until the consensus log has moved the watermark of the primary. A fetch decodes at
most `max_fetch_size` bytes, and an entry that is cut off by the bound is not decoded: entries that are larger than
the bound are never fetched, and everything behind them stays unordered. If every entry fits, the consensus log by
itself orders the whole log from any place it is at, and then no append waits. A call of `AppendEntry` is one step,
so that no entry stays reserved and unwritten, and the backend and the backups are taken to answer.

What follows from the two facts is the same in both modes of the consensus log (`Drains.outlook`). They are proved
here for the simple loop (`drains`), where a round that finds an entry that fits moves the watermark. -/

namespace LazyLog.ConsLog.Progress

open Relation (ReflTransGen)
open LazyLog.Lib.Bytes LazyLog.Lib.Tiling LazyLog.Lib.Run LazyLog.Lib.Transition
open LazyLog.Rpc.Entry LazyLog.Rpc.Multi LazyLog.ConsLog.Batches LazyLog.ConsLog.Link
open LazyLog.ConsLog.Spec (Phase SharedLog)
open LazyLog.ConsLog.FetchAndStore
open LazyLog.DurLog LazyLog.DurLog.Flat LazyLog.DurLog.Ring LazyLog.DurLog.FlatCli

variable {c : Config} {maxFetchSize : ℕ}

/-! ### What a bounded fetch decodes -/

/-- The bound, if there is one, lets the entry through. -/
def Fits (maxFetchSize : ℕ) (e : LogEntry) : Prop := maxFetchSize = 0 ∨ entrySize e ≤ maxFetchSize

theorem le_of_mem_takeFit {room : ℕ} {es : List LogEntry} {x : LogEntry} (hx : x ∈ takeFit room es) :
    entrySize x ≤ room := by
  have hmem : entrySize x ∈ (takeFit room es).map entrySize := List.mem_map_of_mem hx
  exact (List.single_le_sum (fun _ _ => Nat.zero_le _) _ hmem).trans (totalSize_takeFit_le room es)

theorem takeFit_ne_nil {room : ℕ} {es : List LogEntry} {x : LogEntry} (hx : es.head? = some x)
    (hfit : entrySize x ≤ room) : takeFit room es ≠ [] := by
  obtain ⟨xs, rfl⟩ := List.head?_eq_some_iff.mp hx
  rw [takeFit, if_pos hfit]
  exact List.cons_ne_nil _ _

theorem fetchBounds_le {range : ℕ × ℕ} {frm b e : ℕ}
    (h : fetchBounds range frm maxFetchSize = some (b, e)) : maxFetchSize = 0 ∨ e ≤ b + maxFetchSize := by
  unfold fetchBounds at h
  split_ifs at h with h1 h2
  · cases h
    exact Or.inr (min_le_right _ _)
  · exact Or.inl (by omega)

theorem le_of_mem_decode {L : List LogEntry} {mr : Mem} {f b e n : ℕ} {es : List LogEntry}
    (h : Loaded c L mr f b e) (hes : decodeFetched [] mr b e = (es, n)) {x : LogEntry}
    (hx : x ∈ es.dropLast) : entrySize x ≤ e - b := by
  obtain ⟨-, -, hs, v, R, -, hbytes, hread, hv, he⟩ := h
  have hrg := c.rgSize_lt
  have hdec := decodeFetched_of_holdsAll hbytes hread hv (fun hlt => absurd hlt (by omega)) (by omega) []
  rw [hes] at hdec
  split_ifs at hdec with hnil
  · cases hdec
    cases hx
  · cases hdec
    rw [List.nil_append, List.dropLast_concat] at hx
    exact le_of_mem_takeFit hx

/-- The entries of the vectors handed on fit, and what has been read since, if anything, is bounded. -/
structure Fitting (maxFetchSize : ℕ) (batches : List (List LogEntry)) (read : Option (ℕ × ℕ)) : Prop where
  fits : ∀ x ∈ batches.flatMap List.dropLast, Fits maxFetchSize x
  bounded : ∀ b e, read = some (b, e) → maxFetchSize = 0 ∨ e ≤ b + maxFetchSize

section Fitting

variable {batches : List (List LogEntry)} {read : Option (ℕ × ℕ)} {L es : List LogEntry} {b e : ℕ}

theorem Fitting.nil (maxFetchSize : ℕ) : Fitting maxFetchSize [] none :=
  ⟨fun _ hx => absurd hx List.not_mem_nil, by rintro b e ⟨⟩⟩

theorem Fitting.drop (h : Fitting maxFetchSize batches read) : Fitting maxFetchSize batches none :=
  ⟨h.fits, by rintro b e ⟨⟩⟩

theorem Fitting.load {range : ℕ × ℕ} {frm : ℕ} (h : Fitting maxFetchSize batches read)
    (hb : fetchBounds range frm maxFetchSize = some (b, e)) : Fitting maxFetchSize batches (some (b, e)) := by
  refine ⟨h.fits, fun b' e' he => ?_⟩
  cases he
  exact fetchBounds_le hb

/-- **What is decoded and handed on fits.** -/
theorem Fitting.handOn {mr : Mem} {f n : ℕ} (h : Fitting maxFetchSize batches (some (b, e)))
    (hload : Loaded c L mr f b e) (hes : decodeFetched [] mr b e = (es, n)) :
    Fitting maxFetchSize (batches ++ [es]) none := by
  refine ⟨fun x hx => ?_, by rintro b e ⟨⟩⟩
  simp only [List.flatMap_append, List.flatMap_singleton, List.mem_append] at hx
  rcases hx with hx | hx
  · exact h.fits x hx
  · have hle := le_of_mem_decode hload hes hx
    have hb := h.bounded b e rfl
    unfold Fits
    omega

theorem Fitting.of_mem_take {f st : ℕ} (h : Fitting maxFetchSize batches read) (hcut : Cut L 0 batches f)
    (hst : st ≤ f) {x : LogEntry} (hx : x ∈ L.take st) : Fits maxFetchSize x := by
  refine h.fits x ?_
  rw [hcut.flatMap_dropLast, List.drop_zero, Nat.sub_zero]
  exact (List.take_subset_take_left _ hst) hx

end Fitting

theorem decode_ne_zero {L : List LogEntry} {mr : Mem} {f b e : ℕ} (h : Loaded c L mr f b e) {x : LogEntry}
    (hx : L[f]? = some x) (hfit : entrySize x ≤ e - b) : (decodeFetched [] mr b e).2 ≠ 0 := by
  obtain ⟨-, -, hs, v, R, hR, hbytes, hread, hv, he⟩ := h
  have hrg := c.rgSize_lt
  have hpos := entrySize_pos x
  have hdec := decodeFetched_of_holdsAll hbytes hread hv (fun hlt => absurd hlt (by omega)) (by omega) []
  have hhead : R.head? = some x := by
    obtain ⟨rest, hrest⟩ := hR
    cases R with
    | nil => rw [totalSize_nil] at he; omega
    | cons y R' =>
      have hy : (L.drop f).head? = some y := by rw [← hrest]; rfl
      rw [List.head?_drop, hx] at hy
      exact hy.symm
  have hne := takeFit_ne_nil hhead hfit
  rw [if_neg hne] at hdec
  obtain ⟨y, ys, hys⟩ := List.exists_cons_of_ne_nil hne
  have := entrySize_pos y
  rw [hdec, hys, totalSize_cons]
  simp only
  omega

/-- **A bounded fetch gets something** from entry `f` on, if that entry fits. -/
theorem exists_fetch {p : State} {g f frm : ℕ} (h : Primary c p g) (hgf : g ≤ f)
    (hmax : max p.log.orderedWatermk frm = pos entrySize (recs p) f) {x : LogEntry}
    (hx : (recs p)[f]? = some x) (hfit : Fits maxFetchSize x) (mr : Mem) : ∃ b e mr',
      fetchBounds (getUnorderedRange p.log) frm maxFetchSize = some (b, e) ∧
      readSegments c.rgSize p.log.mem mr b e = some mr' ∧ (decodeFetched [] mr' b e).2 ≠ 0 := by
  have hf := (List.getElem?_eq_some_iff.mp hx).1
  have hpos := entrySize_pos x
  have hroom := h.room
  have hdrop : (recs p).drop f = x :: (recs p).drop (f + 1) := by
    rw [List.drop_eq_getElem_cons hf, (List.getElem?_eq_some_iff.mp hx).2]
  obtain ⟨-, -, hseq⟩ := h.view hgf
  rw [hdrop, totalSize_cons] at hseq
  have hfrm : frm ≤ pos entrySize (recs p) f := hmax ▸ le_max_right _ _
  have hwm : p.log.orderedWatermk ≤ pos entrySize (recs p) f := hmax ▸ le_max_left _ _
  cases hb : fetchBounds (getUnorderedRange p.log) frm maxFetchSize with
  | none =>
    unfold fetchBounds getUnorderedRange at hb
    split_ifs at hb
    omega
  | some be =>
    obtain ⟨b, e⟩ := be
    have hbegin := (fetchBounds_some hb).2.1
    have hend := (fetchBounds_some hb).2.2.1
    unfold getUnorderedRange at hbegin hend
    simp only at hbegin hend
    rw [hmax] at hbegin
    have hsize : entrySize x ≤ e - b := by
      unfold fetchBounds getUnorderedRange at hb
      unfold Fits at hfit
      rw [if_neg (by omega)] at hb
      simp only [hmax] at hb
      cases hb
      split_ifs <;> omega
    obtain ⟨mr', hmr', -⟩ := readSegments_eq p.log.mem mr
      (show b < e by omega) (show e < b + c.rgSize by omega)
    obtain ⟨hload, -⟩ := h.read hgf hf.le (h.ranged hgf) hmax hb hmr'
    exact ⟨b, e, mr', rfl, hmr', decode_ne_zero hload hx hsize⟩

theorem lt_of_cut {L : List LogEntry} {k f : ℕ} {es : List LogEntry} (h : Cut L k [es] f) : k < f := by
  obtain ⟨n, hn, -, -, rfl⟩ := h
  omega

/-! ### Both modes -/

section Modes

variable {σ : Type*} {A : Lts Label σ} {prim : σ → State} {R : σ → SharedLog → Prop} {s s' : σ}

/-- A step of the consensus log, or of the network for it: nothing is appended. -/
def OwnStep (A : Lts Label σ) (s s' : σ) : Prop := ∃ a, A.step a s s' ∧ ∀ e, a ≠ .append e

theorem reachable_of_own (h : A.Reachable s) (hs : ReflTransGen (OwnStep A) s s') : A.Reachable s' := by
  induction hs with
  | refl => exact h
  | tail _ hs ih =>
    obtain ⟨a, hs, -⟩ := hs
    exact ih.next hs

theorem recs_eq_of_own (hsim : Simulation A Spec.lts R) (hlog : ∀ s x, R s x → x.log = recs (prim s))
    (hs : A.Reachable s) (hrun : ReflTransGen (OwnStep A) s s') : recs (prim s') = recs (prim s) := by
  induction hrun with
  | refl => rfl
  | tail hrun hstep ih =>
    obtain ⟨a, hstep, ha⟩ := hstep
    obtain ⟨x, -, hR⟩ := hsim.reachable (reachable_of_own hs hrun)
    obtain ⟨x', hx', hR'⟩ := hsim.step hR hstep
    rw [← ih, ← hlog _ _ hR, ← hlog _ _ hR']
    exact Spec.Step.log_eq hx' ha

/-- A mode of the consensus log: it refines the shared log, only what fits is given to the backend, and if
everything fits it goes on by itself until it has nothing left to do. -/
structure Drains (c : Config) (maxFetchSize : ℕ) (A : Lts Label σ) (prim : σ → State)
    (R : σ → SharedLog → Prop) : Prop where
  simulation : Simulation A Spec.lts R
  log_eq : ∀ {s x}, R s x → x.log = recs (prim s)
  primary : ∀ {s x}, R s x → Primary c (prim s) x.ordered
  fits : ∀ {s x}, A.Reachable s → R s x → ∀ e ∈ x.log.take x.given, Fits maxFetchSize e
  drains : ∀ {s}, A.Reachable s → (∀ e ∈ recs (prim s), Fits maxFetchSize e) → ∃ s',
    ReflTransGen (OwnStep A) s s' ∧ ∀ x, R s' x → x.phase = .free ∧ x.given = x.log.length

theorem Drains.exists_spec (h : Drains c maxFetchSize A prim R) (hs : A.Reachable s) :
    ∃ x, Spec.Inv x ∧ R s x := by
  obtain ⟨x, hx, hR⟩ := h.simulation.reachable hs
  exact ⟨x, Spec.inv_of_reachable hx, hR⟩

theorem Drains.recs_eq (h : Drains c maxFetchSize A prim R) (hs : A.Reachable s)
    (hrun : ReflTransGen (OwnStep A) s s') : recs (prim s') = recs (prim s) :=
  recs_eq_of_own h.simulation (fun _ _ => h.log_eq) hs hrun

theorem Drains.fits_of_lt (h : Drains c maxFetchSize A prim R) (hs : A.Reachable s) {i : ℕ} {e : LogEntry}
    (he : (recs (prim s))[i]? = some e) (hi : i < (prim s).log.orderedIdxWatermk) : Fits maxFetchSize e := by
  obtain ⟨x, hx, hR⟩ := h.exists_spec hs
  have hle := hx.ordered_le
  rw [(h.primary hR).idxMark] at hi
  have htake : (x.log.take x.given)[i]? = some e := by
    rw [List.getElem?_take_of_lt (by omega), h.log_eq hR]
    exact he
  exact h.fits hs hR e (List.mem_of_getElem? htake)

/-- What is behind an entry that is not ordered stays in the ring. -/
theorem sequencer_lt_of_le {p : State} {g i : ℕ} (h : Primary c p g) (hi : p.log.orderedIdxWatermk ≤ i) :
    p.log.sequencer + 2 ^ 18 < pos entrySize (recs p) i + c.rgSize := by
  have hroom := h.room
  have hmono : pos entrySize (recs p) p.log.orderedIdxWatermk ≤ pos entrySize (recs p) i := pos_mono hi
  rw [h.idxMark, ← h.mark] at hmono
  omega

/-- What is to be expected of the log in a state. An entry that is larger than the bound is not marked as ordered,
and the ring holds the appends behind it to its size. The consensus log by itself can order all of the log exactly
if every entry of it fits, and then no append waits. -/
structure Outlook (c : Config) (maxFetchSize : ℕ) (A : Lts Label σ) (prim : σ → State) (s : σ) : Prop where
  blocked : ∀ i e, (recs (prim s))[i]? = some e → ¬ Fits maxFetchSize e →
    (prim s).log.orderedIdxWatermk ≤ i ∧
      (prim s).log.sequencer + 2 ^ 18 < pos entrySize (recs (prim s)) i + c.rgSize
  drains_iff : (∃ s', ReflTransGen (OwnStep A) s s' ∧
      (prim s').log.orderedIdxWatermk = (recs (prim s)).length) ↔ ∀ e ∈ recs (prim s), Fits maxFetchSize e
  room : ∀ s', ReflTransGen (OwnStep A) s s' → (prim s').log.orderedIdxWatermk = (recs (prim s)).length →
    ∀ e, Admissible e → e.flags = 0 → (prim s').log.sequencer + getSize e < 2 ^ 64 → CanAppend c (prim s') e

theorem Drains.exists_ordered (h : Drains c maxFetchSize A prim R) (hs : A.Reachable s)
    (hfit : ∀ e ∈ recs (prim s), Fits maxFetchSize e) : ∃ s', ReflTransGen (OwnStep A) s s' ∧
      (prim s').log.orderedIdxWatermk = (recs (prim s)).length := by
  obtain ⟨s', hrun, hdone⟩ := h.drains hs hfit
  obtain ⟨x, hx, hR⟩ := h.exists_spec (reachable_of_own hs hrun)
  obtain ⟨hphase, hall⟩ := hdone x hR
  refine ⟨s', hrun, ?_⟩
  rw [(h.primary hR).idxMark, hx.ordered_eq (Or.inl hphase), hall, h.log_eq hR, h.recs_eq hs hrun]

theorem Drains.outlook (h : Drains c maxFetchSize A prim R) (hs : A.Reachable s) :
    Outlook c maxFetchSize A prim s := by
  refine ⟨fun i e he hfit => ?_, ⟨?_, h.exists_ordered hs⟩, fun s' hrun hall e he hf hlt => ?_⟩
  · have hle : (prim s).log.orderedIdxWatermk ≤ i := by
      by_contra hlt
      exact hfit (h.fits_of_lt hs he (not_le.mp hlt))
    obtain ⟨x, -, hR⟩ := h.exists_spec hs
    exact ⟨hle, sequencer_lt_of_le (h.primary hR) hle⟩
  · rintro ⟨s', hrun, hall⟩ e he
    obtain ⟨i, hi, hget⟩ := List.mem_iff_getElem.mp he
    have hidx : (recs (prim s'))[i]? = some e := by
      rw [h.recs_eq hs hrun, List.getElem?_eq_getElem hi, hget]
    exact h.fits_of_lt (reachable_of_own hs hrun) hidx (by omega)
  · obtain ⟨x, -, hR⟩ := h.exists_spec (reachable_of_own hs hrun)
    refine (h.primary hR).canAppend_of_ordered ?_ he hf hlt
    rw [h.recs_eq hs hrun]
    exact hall

end Modes

/-! ### The simple loop stores only what fits -/

variable {s s' : Loop} {g st : ℕ}

/-- The bounds of what the loop has read and not decoded yet. -/
def unread : Pc → Option (ℕ × ℕ)
  | .loaded b e => some (b, e)
  | .idle | .ranged _ | .appending _ | .deleting _ | .deleted _ | .updating => none

theorem fitting_step {a : Label} (h : Fitting maxFetchSize s.stored (unread s.pc)) (hi : Inv c s g st)
    (hs : Step c maxFetchSize a s s') : Fitting maxFetchSize s'.stored (unread s'.pc) := by
  cases hs with
  | append e he => exact h
  | range | nothing | decodeNone | delete | land | update | done => exact h.drop
  | read hpc hb hr => exact h.load hb
  | appendBatch hpc hes hn =>
    have hpcok := hi.pcOk
    unfold PcOk at hpcok
    rw [hpc] at h hpcok
    exact h.handOn hpcok.2 hes

theorem exists_inv (h : (lts c maxFetchSize).Reachable s) :
    ∃ g st, Inv c s g st ∧ Fitting maxFetchSize s.stored (unread s.pc) := by
  refine h.invariant (P := fun s => ∃ g st, Inv c s g st ∧ Fitting maxFetchSize s.stored (unread s.pc))
    (fun s h0 => ?_) ?_
  · refine ⟨0, 0, Inv.start h0, ?_⟩
    rw [h0.2.1, h0.2.2]
    exact .nil maxFetchSize
  · rintro a s s' - ⟨g, st, hi, hf⟩ hs
    obtain ⟨g', st', hi', -⟩ := hi.step hs
    exact ⟨g', st', hi', fitting_step hf hi hs⟩

/-! ### The simple loop by itself -/

theorem recs_eq (h : (lts c maxFetchSize).Reachable s) (hrun : ReflTransGen (OwnStep (lts c maxFetchSize)) s s') :
    recs s'.primary = recs s.primary := by
  refine recs_eq_of_own (FetchAndStore.simulation c maxFetchSize) ?_ h hrun
  rintro s x ⟨g, st, -, rfl⟩
  rfl

/-- The loop can go back to where it starts, with these vectors stored in the meantime. -/
def Returns (c : Config) (maxFetchSize : ℕ) (s : Loop) (bs : List (List LogEntry)) : Prop :=
  ∃ s', ReflTransGen (OwnStep (lts c maxFetchSize)) s s' ∧ s'.pc = .idle ∧ s'.stored = s.stored ++ bs

theorem Returns.of_idle (hpc : s.pc = .idle) : Returns c maxFetchSize s [] :=
  ⟨s, .refl, hpc, (List.append_nil _).symm⟩

theorem Returns.of_step {a : Label} {bs : List (List LogEntry)} (h : Returns c maxFetchSize s' bs)
    (hs : Step c maxFetchSize a s s') (ha : ∀ e, a ≠ .append e) (hst : s'.stored = s.stored) :
    Returns c maxFetchSize s bs := by
  obtain ⟨t, hrun, hpc, hbs⟩ := h
  exact ⟨t, .head ⟨a, hs, ha⟩ hrun, hpc, by rw [hbs, hst]⟩

theorem returns_of_updating (hpc : s.pc = .updating) : Returns c maxFetchSize s [] :=
  (Returns.of_idle rfl).of_step (.done hpc) (by rintro e ⟨⟩) rfl

theorem returns_of_deleted {i : UInt64} (hpc : s.pc = .deleted i) : Returns c maxFetchSize s [] :=
  (returns_of_updating rfl).of_step (.update hpc) (by rintro e ⟨⟩) rfl

theorem returns_of_deleting {i : UInt64} (hpc : s.pc = .deleting i) : Returns c maxFetchSize s [] :=
  (returns_of_deleted rfl).of_step (.land hpc) (by rintro e ⟨⟩) rfl

theorem returns_of_appending {es : List LogEntry} (hpc : s.pc = .appending es) :
    Returns c maxFetchSize s [] :=
  (returns_of_deleting rfl).of_step (.delete hpc) (by rintro e ⟨⟩) rfl

theorem returns_of_decode {b e : ℕ} (hpc : s.pc = .loaded b e) (hn : (decodeFetched [] s.mr b e).2 ≠ 0) :
    Returns c maxFetchSize s [(decodeFetched [] s.mr b e).1] := by
  obtain ⟨t, hrun, ht, hst⟩ : Returns c maxFetchSize
      { s with
        pc := .appending (decodeFetched [] s.mr b e).1
        stored := s.stored ++ [(decodeFetched [] s.mr b e).1] } [] := returns_of_appending rfl
  rw [List.append_nil] at hst
  exact ⟨t, .head ⟨_, .appendBatch hpc rfl hn, by rintro e ⟨⟩⟩ hrun, ht, hst⟩

theorem returns_of_loaded {b e : ℕ} (hpc : s.pc = .loaded b e) : ∃ bs, Returns c maxFetchSize s bs := by
  by_cases h0 : (decodeFetched [] s.mr b e).2 = 0
  · exact ⟨[], (Returns.of_idle rfl).of_step (.decodeNone hpc h0) (by rintro e ⟨⟩) rfl⟩
  · exact ⟨_, returns_of_decode hpc h0⟩

theorem returns_of_ranged {range : ℕ × ℕ} (hpc : s.pc = .ranged range) :
    ∃ bs, Returns c maxFetchSize s bs := by
  by_cases hr : ∃ b e mr, fetchBounds range 0 maxFetchSize = some (b, e) ∧
      readSegments c.rgSize s.primary.log.mem s.mr b e = some mr
  · obtain ⟨b, e, mr, hb, hmr⟩ := hr
    obtain ⟨bs, h⟩ : ∃ bs, Returns c maxFetchSize { s with mr := mr, pc := .loaded b e } bs :=
      returns_of_loaded rfl
    exact ⟨bs, h.of_step (.read hpc hb hmr) (by rintro e ⟨⟩) rfl⟩
  · refine ⟨[], (Returns.of_idle rfl).of_step (.nothing hpc fun b e hb => ?_) (by rintro e ⟨⟩) rfl⟩
    rw [Option.eq_none_iff_forall_ne_some]
    exact fun mr hmr => hr ⟨b, e, mr, hb, hmr⟩

/-- **The loop is never stuck**: from every place it comes back to where it starts. -/
theorem exists_returns (c : Config) (maxFetchSize : ℕ) (s : Loop) : ∃ bs, Returns c maxFetchSize s bs := by
  cases hpc : s.pc with
  | idle => exact ⟨[], .of_idle hpc⟩
  | ranged range => exact returns_of_ranged hpc
  | loaded b e => exact returns_of_loaded hpc
  | appending es => exact ⟨[], returns_of_appending hpc⟩
  | deleting i => exact ⟨[], returns_of_deleting hpc⟩
  | deleted i => exact ⟨[], returns_of_deleted hpc⟩
  | updating => exact ⟨[], returns_of_updating hpc⟩

theorem exists_round (h : Inv c s g st) (hpc : s.pc = .idle) {x : LogEntry}
    (hx : (recs s.primary)[g]? = some x) (hfit : Fits maxFetchSize x) :
    ∃ es, Returns c maxFetchSize s [es] := by
  have hmax : max s.primary.log.orderedWatermk 0 = pos entrySize (recs s.primary) g := by
    rw [Nat.max_zero]
    exact h.primary.mark
  obtain ⟨b, e, mr, hb, hmr, hn⟩ := exists_fetch h.primary (Nat.le_refl g) hmax hx hfit s.mr
  have hload : Returns c maxFetchSize { s with mr := mr, pc := .loaded b e } [(decodeFetched [] mr b e).1] :=
    returns_of_decode rfl hn
  have hread : Returns c maxFetchSize { s with pc := .ranged (getUnorderedRange s.primary.log) } _ :=
    hload.of_step (.read rfl hb hmr) (by rintro e ⟨⟩) rfl
  exact ⟨_, hread.of_step (.range hpc) (by rintro e ⟨⟩) rfl⟩

theorem marked_of_idle (h : Inv c s g st) (hpc : s.pc = .idle) : s.primary.log.orderedIdxWatermk = st := by
  have hpcok := h.pcOk
  unfold PcOk at hpcok
  rw [hpc] at hpcok
  exact h.primary.idxMark.trans hpcok

/-- **A round moves the watermark** if the first unordered entry fits. -/
theorem exists_advance (h : (lts c maxFetchSize).Reachable s) (hpc : s.pc = .idle) {x : LogEntry}
    (hx : (recs s.primary)[s.primary.log.orderedIdxWatermk]? = some x) (hfit : Fits maxFetchSize x) :
    ∃ s', ReflTransGen (OwnStep (lts c maxFetchSize)) s s' ∧ s'.pc = .idle ∧
      s.primary.log.orderedIdxWatermk < s'.primary.log.orderedIdxWatermk := by
  obtain ⟨g, st, hi, -⟩ := exists_inv h
  rw [hi.primary.idxMark] at hx
  obtain ⟨es, t, hrun, ht, hst⟩ := exists_round hi hpc hx hfit
  obtain ⟨g', st', hi', -⟩ := exists_inv (reachable_of_own h hrun)
  refine ⟨t, hrun, ht, ?_⟩
  have hcut := hi'.stored
  rw [recs_eq h hrun, hst] at hcut
  obtain ⟨j, h1, h2⟩ := hcut.split
  rw [marked_of_idle hi hpc, marked_of_idle hi' ht, hi.stored.unique h1]
  exact lt_of_cut h2

theorem exists_drained_of_idle : ∀ (n : ℕ) {s : Loop}, (lts c maxFetchSize).Reachable s → s.pc = .idle →
    (∀ x ∈ recs s.primary, Fits maxFetchSize x) →
    (recs s.primary).length - s.primary.log.orderedIdxWatermk ≤ n →
    ∃ s', ReflTransGen (OwnStep (lts c maxFetchSize)) s s' ∧ s'.pc = .idle ∧
      s'.primary.log.orderedIdxWatermk = (recs s.primary).length
  | n, s, h, hpc, hfit, hn => by
    obtain ⟨g, st, hi, -⟩ := exists_inv h
    have hle := hi.primary.le_length
    have hmark := hi.primary.idxMark
    rcases Nat.lt_or_ge s.primary.log.orderedIdxWatermk (recs s.primary).length with hlt | hge
    · cases n with
      | zero => omega
      | succ n =>
        have hx := List.getElem?_eq_getElem hlt
        obtain ⟨t, hrun, ht, hlt'⟩ := exists_advance h hpc hx (hfit _ (List.getElem_mem hlt))
        have hrecs := recs_eq h hrun
        obtain ⟨t', hrun', hpc', hdone⟩ := exists_drained_of_idle n (reachable_of_own h hrun) ht
          (by rw [hrecs]; exact hfit) (by rw [hrecs]; omega)
        exact ⟨t', hrun.trans hrun', hpc', by rw [hdone, hrecs]⟩
    · exact ⟨s, .refl, hpc, by omega⟩

/-- **The loop empties the log** if every entry fits. -/
theorem exists_drained (h : (lts c maxFetchSize).Reachable s)
    (hfit : ∀ x ∈ recs s.primary, Fits maxFetchSize x) :
    ∃ s', ReflTransGen (OwnStep (lts c maxFetchSize)) s s' ∧ s'.pc = .idle ∧
      s'.primary.log.orderedIdxWatermk = (recs s.primary).length := by
  obtain ⟨bs, t, hrun, ht, -⟩ := exists_returns c maxFetchSize s
  have hrecs := recs_eq h hrun
  obtain ⟨t', hrun', hpc, hdone⟩ := exists_drained_of_idle _ (reachable_of_own h hrun) ht
    (by rw [hrecs]; exact hfit) (Nat.le_refl _)
  exact ⟨t', hrun.trans hrun', hpc, by rw [hdone, hrecs]⟩

/-- **The simple loop empties the log.** -/
theorem drains (c : Config) (maxFetchSize : ℕ) : Drains c maxFetchSize (lts c maxFetchSize) Loop.primary
    fun s x => ∃ g st, Inv c s g st ∧ x = s.abs g st := by
  refine ⟨FetchAndStore.simulation c maxFetchSize, ?_, ?_, ?_, ?_⟩
  · rintro s x ⟨g, st, -, rfl⟩
    rfl
  · rintro s x ⟨g, st, hi, rfl⟩
    exact hi.primary
  · rintro s x hs ⟨g, st, hi, rfl⟩ e he
    obtain ⟨g', st', -, hf⟩ := exists_inv hs
    exact hf.of_mem_take hi.stored (Nat.le_refl _) he
  · intro s hs hfit
    obtain ⟨s', hrun, hpc, hall⟩ := exists_drained hs hfit
    refine ⟨s', hrun, ?_⟩
    rintro x ⟨g, st, hi, rfl⟩
    unfold Loop.abs
    rw [hpc, recs_eq hs hrun, ← hall, marked_of_idle hi hpc]
    exact ⟨rfl, rfl⟩

end LazyLog.ConsLog.Progress
