import LazyLog.ConsLog.Progress
import LazyLog.ConsLog.Shutdown

/-! # The pipelined consensus log empties the log

The two threads hand vectors over through two buffers, and each holds the lock of the buffer it works on. Each can
finish what it is doing (`exists_fetcher_rest`, `exists_storer_rest`); then no lock is held, a full buffer can be
stored (`exists_store`), and if both are empty and the next entry fits, one can be filled (`exists_fill`). Every round
of the storer orders at least one entry, so that the number of rounds is bounded by the length of the log. -/

namespace LazyLog.ConsLog.Drain

open Relation (ReflTransGen)
open LazyLog.Lib.Bytes LazyLog.Lib.Tiling LazyLog.Lib.Transition
open LazyLog.Rpc.Entry LazyLog.ConsLog.Batches LazyLog.ConsLog.Link LazyLog.ConsLog.Pipeline
open LazyLog.ConsLog.Progress (Fits Fitting OwnStep Drains Outlook reachable_of_own)
open LazyLog.ConsLog.Shutdown (locks_of_reachable cleared_of_idle)
open LazyLog.DurLog LazyLog.DurLog.Flat LazyLog.DurLog.Ring LazyLog.DurLog.FlatCli

variable {c : Config} {maxFetchSize : ℕ} {s s' : Sys} {g st f : ℕ}

/-! ### Only what fits is fetched -/

/-- The bounds of what the fetcher has read and not decoded yet. -/
def unread : FetchPc → Option (ℕ × ℕ)
  | .loaded b e => some (b, e)
  | .idle | .locked | .ranged _ => none

theorem fitting_step {a : Label} (h : Fitting maxFetchSize s.fetched (unread s.fetchPc)) (hi : Inv c s g st f)
    (hs : Step c maxFetchSize a s s') : Fitting maxFetchSize s'.fetched (unread s'.fetchPc) := by
  cases hs with
  | append | storeLock | storeWait | storeAppend | storeDelete | storeLand | storeUpdate | storeDone => exact h
  | fetchLock | fetchWait | fetchRange | fetchNothing | fetchNone => exact h.drop
  | fetchRead hpc hb hr => exact h.load hb
  | fetchDone hpc hes hn =>
    have hok := hi.fetchOk
    unfold FetchOk at hok
    rw [hpc] at h hok
    -- the buffer that is filled was empty
    rw [(hi.buffers.free _ (Nat.le_refl _) hok.1).2] at hes
    exact h.handOn hok.2 hes

theorem exists_inv (h : (lts c maxFetchSize).Reachable s) :
    ∃ g st f, Inv c s g st f ∧ Fitting maxFetchSize s.fetched (unread s.fetchPc) := by
  refine h.invariant (P := fun s => ∃ g st f, Inv c s g st f ∧ Fitting maxFetchSize s.fetched (unread s.fetchPc))
    (fun s h0 => ?_) ?_
  · refine ⟨0, 0, 0, Inv.start h0, ?_⟩
    rw [h0.pcs.1, h0.empty.1]
    exact .nil maxFetchSize
  · rintro a s s' - ⟨g, st, f, hi, hf⟩ hs
    obtain ⟨g', st', f', hi', -⟩ := hi.step hs
    exact ⟨g', st', f', hi', fitting_step hf hi hs⟩

/-! ### Each thread can finish -/

/-- The threads can get from one state to the other by themselves. -/
def Runs (c : Config) (maxFetchSize : ℕ) : Sys → Sys → Prop := ReflTransGen (OwnStep (lts c maxFetchSize))

theorem Runs.of_step {a : Label} {t : Sys} (hs : Step c maxFetchSize a s s') (ha : ∀ e, a ≠ .append e)
    (h : Runs c maxFetchSize s' t) : Runs c maxFetchSize s t := .head ⟨a, hs, ha⟩ h

theorem Runs.tau {t : Sys} (hs : Step c maxFetchSize .tau s s') (h : Runs c maxFetchSize s' t) :
    Runs c maxFetchSize s t := .of_step hs (by rintro e ⟨⟩) h

/-- The fetcher can give up its buffer. -/
def FetcherRests (c : Config) (maxFetchSize : ℕ) (s : Sys) : Prop :=
  ∃ s', Runs c maxFetchSize s s' ∧ s'.fetchPc = .idle

theorem FetcherRests.tau (hs : Step c maxFetchSize .tau s s') (h : FetcherRests c maxFetchSize s') :
    FetcherRests c maxFetchSize s := by
  obtain ⟨t, hrun, ht⟩ := h
  exact ⟨t, .tau hs hrun, ht⟩

theorem FetcherRests.of_idle (hpc : s.fetchPc = .idle) : FetcherRests c maxFetchSize s := ⟨s, .refl, hpc⟩

theorem fetcherRests_of_loaded {b e : ℕ} (hpc : s.fetchPc = .loaded b e) : FetcherRests c maxFetchSize s := by
  cases hes : decodeFetched (s.buf s.fetchRound).entriesBuf s.mr b e with
  | mk es n =>
    rcases Nat.eq_zero_or_pos n with rfl | hn
    · exact .tau (.fetchNone hpc hes) (.of_idle rfl)
    · exact .tau (.fetchDone hpc hes hn.ne') (.of_idle rfl)

theorem fetcherRests_of_ranged {range : ℕ × ℕ} (hpc : s.fetchPc = .ranged range) :
    FetcherRests c maxFetchSize s := by
  by_cases hr : ∃ b e mr, fetchBounds range s.fetchBegin maxFetchSize = some (b, e) ∧
      readSegments c.rgSize s.primary.log.mem s.mr b e = some mr
  · obtain ⟨b, e, mr, hb, hmr⟩ := hr
    exact .tau (.fetchRead hpc hb hmr) (fetcherRests_of_loaded rfl)
  · refine .tau (.fetchNothing hpc fun b e hb => ?_) (.of_idle rfl)
    rw [Option.eq_none_iff_forall_ne_some]
    exact fun mr hmr => hr ⟨b, e, mr, hb, hmr⟩

/-- **The fetcher is never stuck with a buffer.** -/
theorem exists_fetcher_rest (c : Config) (maxFetchSize : ℕ) (s : Sys) : FetcherRests c maxFetchSize s := by
  cases hpc : s.fetchPc with
  | idle => exact .of_idle hpc
  | locked =>
    cases he : (s.buf s.fetchRound).empty with
    | false => exact .tau (.fetchWait hpc he) (.of_idle rfl)
    | true => exact .tau (.fetchRange hpc he) (fetcherRests_of_ranged rfl)
  | ranged range => exact fetcherRests_of_ranged hpc
  | loaded b e => exact fetcherRests_of_loaded hpc

/-- The storer can end its round, with the fetcher where it was. -/
def RoundEnds (c : Config) (maxFetchSize : ℕ) (s : Sys) : Prop :=
  ∃ s', Runs c maxFetchSize s s' ∧ s'.storePc = .idle ∧ s'.fetchPc = s.fetchPc ∧
    s'.storeRound = s.storeRound + 1

theorem RoundEnds.of_step {a : Label} (h : RoundEnds c maxFetchSize s') (hs : Step c maxFetchSize a s s')
    (ha : ∀ e, a ≠ .append e) (hf : s'.fetchPc = s.fetchPc) (hr : s'.storeRound = s.storeRound) :
    RoundEnds c maxFetchSize s := by
  obtain ⟨t, hrun, ht, htf, htr⟩ := h
  exact ⟨t, .of_step hs ha hrun, ht, htf.trans hf, by rw [htr, hr]⟩

theorem roundEnds_of_updating (hpc : s.storePc = .updating) : RoundEnds c maxFetchSize s :=
  ⟨_, .of_step (.storeDone hpc) (by rintro e ⟨⟩) .refl, rfl, rfl, rfl⟩

theorem roundEnds_of_deleted {i : UInt64} (hpc : s.storePc = .deleted i) : RoundEnds c maxFetchSize s :=
  (roundEnds_of_updating rfl).of_step (.storeUpdate hpc) (by rintro e ⟨⟩) rfl rfl

theorem roundEnds_of_deleting {i : UInt64} (hpc : s.storePc = .deleting i) : RoundEnds c maxFetchSize s :=
  (roundEnds_of_deleted rfl).of_step (.storeLand hpc) (by rintro e ⟨⟩) rfl rfl

theorem roundEnds_of_appending (hpc : s.storePc = .appending) : RoundEnds c maxFetchSize s :=
  (roundEnds_of_deleting rfl).of_step (.storeDelete hpc) (by rintro e ⟨⟩) rfl rfl

theorem roundEnds_of_full (hpc : s.storePc = .locked) (he : (s.buf s.storeRound).empty = false) :
    RoundEnds c maxFetchSize s :=
  (roundEnds_of_appending rfl).of_step (.storeAppend hpc he) (by rintro e ⟨⟩) rfl rfl

theorem RoundEnds.rest (h : RoundEnds c maxFetchSize s) :
    ∃ s', Runs c maxFetchSize s s' ∧ s'.storePc = .idle ∧ s'.fetchPc = s.fetchPc := by
  obtain ⟨t, hrun, ht, hf, -⟩ := h
  exact ⟨t, hrun, ht, hf⟩

/-- **The storer is never stuck with a buffer.** -/
theorem exists_storer_rest (c : Config) (maxFetchSize : ℕ) (s : Sys) :
    ∃ s', Runs c maxFetchSize s s' ∧ s'.storePc = .idle ∧ s'.fetchPc = s.fetchPc := by
  cases hpc : s.storePc with
  | idle => exact ⟨s, .refl, hpc, rfl⟩
  | locked =>
    cases he : (s.buf s.storeRound).empty with
    | true => exact ⟨_, .tau (.storeWait hpc he) .refl, rfl, rfl⟩
    | false => exact (roundEnds_of_full hpc he).rest
  | appending => exact (roundEnds_of_appending hpc).rest
  | deleting i => exact (roundEnds_of_deleting hpc).rest
  | deleted i => exact (roundEnds_of_deleted hpc).rest
  | updating => exact (roundEnds_of_updating hpc).rest

/-! ### A round -/

/-- No thread has a buffer. -/
def Resting (s : Sys) : Prop := s.fetchPc = .idle ∧ s.storePc = .idle

theorem exists_resting (c : Config) (maxFetchSize : ℕ) (s : Sys) :
    ∃ s', Runs c maxFetchSize s s' ∧ Resting s' := by
  obtain ⟨t, hrun, ht⟩ := exists_fetcher_rest c maxFetchSize s
  obtain ⟨t', hrun', ht', hf⟩ := exists_storer_rest c maxFetchSize t
  exact ⟨t', hrun.trans hrun', hf.trans ht, ht'⟩

/-- **A full buffer is stored.** -/
theorem exists_store (h : (lts c maxFetchSize).Reachable s) (hrest : Resting s) (hlt : s.storeRound < s.fetchRound) :
    ∃ s', Runs c maxFetchSize s s' ∧ Resting s' ∧ s'.storeRound = s.storeRound + 1 := by
  obtain ⟨hf, hst⟩ := hrest
  obtain ⟨g, st, f, hi, -⟩ := exists_inv h
  have hbuf := hi.buffers
  rw [cleared_of_idle hst] at hbuf
  have hl := (locks_of_reachable h).free hf hst s.storeRound
  have he := (buf_setLock s s.storeRound (some .storer) s.storeRound).1.trans
    (hbuf.full _ (Nat.le_refl _) hlt).1
  obtain ⟨t, hrun, ht, htf, htr⟩ : RoundEnds c maxFetchSize
      { s.setLock s.storeRound (some .storer) with storePc := .locked } := roundEnds_of_full rfl he
  exact ⟨t, .tau (.storeLock hst hl) hrun, ⟨htf.trans hf, ht⟩, htr⟩

/-- **An empty buffer is filled** if the next entry fits. -/
theorem exists_fill (h : (lts c maxFetchSize).Reachable s) (hrest : Resting s) (hi : Inv c s g st f)
    (hle : s.fetchRound ≤ s.storeRound) {x : LogEntry} (hx : (recs s.primary)[f]? = some x)
    (hfit : Fits maxFetchSize x) : ∃ s', Runs c maxFetchSize s s' ∧ Resting s' ∧
      s'.storeRound = s.storeRound ∧ s'.fetchRound = s.fetchRound + 1 := by
  obtain ⟨hf, hst⟩ := hrest
  have hbuf := hi.buffers
  rw [cleared_of_idle hst] at hbuf
  obtain ⟨hempty, hnil⟩ := hbuf.free _ (Nat.le_refl _) (show s.fetchRound < s.storeRound + 2 by omega)
  have hl := (locks_of_reachable h).free hf hst s.fetchRound
  have hgf : g ≤ f := hi.le_stored.trans hi.le_fetched
  have hmax : max s.primary.log.orderedWatermk s.fetchBegin = pos entrySize (recs s.primary) f := by
    rw [hi.primary.mark, hi.fetchBegin]
    exact max_eq_right (pos_mono hgf)
  obtain ⟨b, e, mr, hbounds, hread, hne⟩ := Progress.exists_fetch hi.primary hgf hmax hx hfit s.mr
  have hb := buf_setLock s s.fetchRound (some .fetcher) s.fetchRound
  rw [← hnil, ← hb.2] at hne
  exact ⟨_, .tau (.fetchLock hf hl) (.tau (.fetchRange rfl (hb.1.trans hempty))
    (.tau (.fetchRead rfl hbounds hread) (.tau (.fetchDone rfl rfl hne) .refl))), ⟨rfl, hst⟩, rfl, rfl⟩

theorem add_length_le_of_cut {L : List LogEntry} {j : ℕ} : ∀ {bs : List (List LogEntry)} {k : ℕ}, Cut L k bs j →
    k + bs.length ≤ j
  | [], k, h => Nat.le_of_eq h
  | b :: bs, k, h => by
    obtain ⟨n, hn, -, -, h⟩ := h
    have := add_length_le_of_cut h
    rw [List.length_cons]
    omega

theorem recs_eq (h : (lts c maxFetchSize).Reachable s) (hrun : Runs c maxFetchSize s s') :
    recs s'.primary = recs s.primary := by
  refine Progress.recs_eq_of_own (Pipeline.simulation c maxFetchSize) ?_ h hrun
  rintro s x ⟨g, st, f, -, rfl⟩
  rfl

theorem marked_of_resting (h : Inv c s g st f) (hrest : Resting s) : s.stored.length = s.storeRound ∧ g = st := by
  have hok := h.storeOk
  unfold StoreOk at hok
  rw [hrest.2] at hok
  exact hok

theorem fetched_eq_of_level (h : Inv c s g st f) (hrest : Resting s) (hle : s.fetchRound ≤ s.storeRound) :
    f = st := by
  obtain ⟨hlen, -⟩ := marked_of_resting h hrest
  have heq : s.stored = s.fetched := h.front.eq_of_length_le (by rw [← h.fetchRound]; omega)
  have hcut := h.stored
  rw [heq] at hcut
  exact h.fetched.unique hcut

/-- **The threads end another round** as long as something is not ordered and everything fits. -/
theorem exists_round (h : (lts c maxFetchSize).Reachable s) (hrest : Resting s) (hi : Inv c s g st f)
    (hfit : ∀ x ∈ recs s.primary, Fits maxFetchSize x) (hlt : st < (recs s.primary).length) :
    ∃ s', Runs c maxFetchSize s s' ∧ Resting s' ∧ s'.storeRound = s.storeRound + 1 := by
  rcases Nat.lt_or_ge s.storeRound s.fetchRound with hfull | hle
  · exact exists_store h hrest hfull
  · obtain rfl := fetched_eq_of_level hi hrest hle
    have hx := List.getElem?_eq_getElem hlt
    obtain ⟨t, hrun, ht, hr, hr'⟩ := exists_fill h hrest hi hle hx (hfit _ (List.getElem_mem hlt))
    have hbuf := hi.buffers.le
    rw [cleared_of_idle hrest.2] at hbuf
    obtain ⟨t', hrun', ht', hr''⟩ := exists_store (reachable_of_own h hrun) ht (by omega)
    exact ⟨t', hrun.trans hrun', ht', by omega⟩

theorem exists_drained_of_resting : ∀ (n : ℕ) {s : Sys}, (lts c maxFetchSize).Reachable s → Resting s →
    (∀ x ∈ recs s.primary, Fits maxFetchSize x) → (recs s.primary).length - s.storeRound ≤ n →
    ∃ s', Runs c maxFetchSize s s' ∧ Resting s' ∧
      ∀ g st f, Inv c s' g st f → st = (recs s'.primary).length
  | n, s, h, hrest, hfit, hn => by
    obtain ⟨g, st, f, hi, -⟩ := exists_inv h
    have hle := hi.stored.le_length (Nat.zero_le _)
    rcases Nat.lt_or_ge st (recs s.primary).length with hlt | hge
    · cases n with
      | zero =>
        have hrounds := add_length_le_of_cut hi.stored
        have hlen := (marked_of_resting hi hrest).1
        omega
      | succ n =>
        obtain ⟨t, hrun, ht, hr⟩ := exists_round h hrest hi hfit hlt
        have hrecs := recs_eq h hrun
        obtain ⟨t', hrun', ht', hdone⟩ := exists_drained_of_resting n (reachable_of_own h hrun) ht
          (by rw [hrecs]; exact hfit) (by rw [hrecs]; omega)
        exact ⟨t', hrun.trans hrun', ht', hdone⟩
    · refine ⟨s, .refl, hrest, fun g' st' f' hi' => ?_⟩
      rw [hi'.stored.unique hi.stored]
      omega

/-- **The pipelined threads empty the log.** -/
theorem drains (c : Config) (maxFetchSize : ℕ) : Drains c maxFetchSize (lts c maxFetchSize) Sys.primary
    fun s x => ∃ g st f, Inv c s g st f ∧ x = s.abs g st := by
  refine ⟨Pipeline.simulation c maxFetchSize, ?_, ?_, ?_, ?_⟩
  · rintro s x ⟨g, st, f, -, rfl⟩
    rfl
  · rintro s x ⟨g, st, f, hi, rfl⟩
    exact hi.primary
  · rintro s x hs ⟨g, st, f, hi, rfl⟩ e he
    obtain ⟨g', st', f', -, hf⟩ := exists_inv hs
    exact hf.of_mem_take hi.fetched hi.le_fetched he
  · intro s hs hfit
    obtain ⟨t, hrun, ht⟩ := exists_resting c maxFetchSize s
    obtain ⟨t', hrun', ht', hdone⟩ := exists_drained_of_resting _ (reachable_of_own hs hrun) ht
      (by rw [recs_eq hs hrun]; exact hfit) (Nat.le_refl _)
    refine ⟨t', hrun.trans hrun', ?_⟩
    rintro x ⟨g, st, f, hi, rfl⟩
    unfold Sys.abs
    rw [ht'.2]
    exact ⟨rfl, hdone g st f hi⟩

/-! ### Both modes -/

/-- **The bound of a fetch decides whether the log moves on**, in both modes of the consensus log. In every state
reached, an entry that is larger than the bound is not marked as ordered, and the ring holds the appends behind it to
its size for good. The consensus log by itself can order all of the log exactly if every entry of it fits, and then no
append waits. -/
theorem log_drains_iff_entries_fit (c : Config) (maxFetchSize : ℕ) :
    (∀ s, (FetchAndStore.lts c maxFetchSize).Reachable s →
      Outlook c maxFetchSize (FetchAndStore.lts c maxFetchSize) FetchAndStore.Loop.primary s) ∧
    ∀ s, (Pipeline.lts c maxFetchSize).Reachable s →
      Outlook c maxFetchSize (Pipeline.lts c maxFetchSize) Pipeline.Sys.primary s :=
  ⟨fun _ h => (Progress.drains c maxFetchSize).outlook h, fun _ h => (drains c maxFetchSize).outlook h⟩

/-- One entry, and a bound of sixteen bytes. -/
theorem log_drains_iff_entries_fit_sixteen : ∃ s : Sys, (lts .smallPrimary 16).Reachable s ∧
    (recs s.primary).length = 1 ∧
    ¬ ∃ s', ReflTransGen (OwnStep (lts .smallPrimary 16)) s s' ∧ s'.primary.log.orderedIdxWatermk = 1 := by
  have h0 : (lts .smallPrimary 16).Reachable
      ⟨⟨.zeroed, []⟩, fun _ => 0, fun _ => ⟨[], none, true⟩, 0, 0, 0, .idle, .idle, [], []⟩ :=
    .start ⟨⟨FlatLog.zeroed_fresh, rfl⟩, fun _ => rfl, ⟨rfl, rfl, rfl⟩, ⟨rfl, rfl⟩, ⟨rfl, rfl⟩⟩
  have hcan : CanAppend .smallPrimary ⟨.zeroed, []⟩ default :=
    ⟨⟨rfl, by decide⟩, rfl, by decide, by decide⟩
  have h1 := h0.next (.append default hcan)
  have hrecs := recs_append .smallPrimary ⟨.zeroed, []⟩ default
  refine ⟨_, h1, by rw [hrecs]; rfl, fun hdrain => ?_⟩
  have hout := (log_drains_iff_entries_fit .smallPrimary 16).2 _ h1
  have hfit := hout.drains_iff.mp (by rw [hrecs]; exact hdrain)
  have hmem := hfit _ (by rw [hrecs]; exact List.mem_append_right _ (List.mem_singleton_self _))
  rcases hmem with h | h
  · cases h
  · exact absurd h (by decide)

end LazyLog.ConsLog.Drain
