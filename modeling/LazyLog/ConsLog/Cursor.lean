import LazyLog.ConsLog.Pipeline

/-! # The cursor of the pipelined fetch (`fetch_begin`)

`fetch` has a byte cursor of its own, which starts at zero and moves on by the length of what was fetched. But
`FetchUnorderedEntries` begins at the watermark of the primary if that is further on. A consensus log that is
started with a watermark of zero finds the cursor at the end of every batch. With any other watermark the cursor is
behind from the first batch on, and entries that are fetched but not marked yet are fetched again. -/

namespace LazyLog.ConsLog.Cursor

open LazyLog.Lib.Bytes LazyLog.Lib.Tiling LazyLog.Lib.Transition LazyLog.Rpc.Entry
open LazyLog.ConsLog.Batches LazyLog.ConsLog.Link LazyLog.ConsLog.Pipeline
open LazyLog.DurLog.Flat hiding Step
open LazyLog.DurLog.Ring LazyLog.DurLog.FlatCli

/-! ### The system with its history -/

/-- `client_seq` of the sentinel of the last batch. -/
def endSequence (fetched : List (List LogEntry)) : ℕ :=
  ((fetched.getLastD []).getLastD default).clientSeq.toNat

/-- The history has `fetch_begin` and the sentinel for each `fetch` that stored a batch. -/
def note (s s' : Sys) (hist : List (ℕ × ℕ)) : List (ℕ × ℕ) :=
  if s'.fetched.length = s.fetched.length then hist else hist ++ [(s'.fetchBegin, endSequence s'.fetched)]

/-- The consensus log has just been started, and the primary has the watermark `w`. -/
structure Started (c : Config) (w : ℕ) (s : Sys) : Prop where
  primary : ∃ g, Primary c s.primary g
  watermk : s.primary.log.orderedWatermk = w
  buffers : ∀ i, s.buffers i = ⟨[], none, true⟩
  rounds : s.fetchRound = 0 ∧ s.storeRound = 0 ∧ s.fetchBegin = 0
  pcs : s.fetchPc = .idle ∧ s.storePc = .idle
  empty : s.fetched = [] ∧ s.stored = []

/-- The two threads and the primary, from a watermark `w` on, with the history. -/
def historyLts (c : Config) (maxFetchSize w : ℕ) : Lts Label (Sys × List (ℕ × ℕ)) where
  start y := Started c w y.1 ∧ y.2 = []
  step a y y' := Step c maxFetchSize a y.1 y'.1 ∧ y'.2 = note y.1 y'.1 y.2

/-- **The cursor agrees with what was fetched**, after each `fetch` that stored a batch, and no entry is in two
batches. -/
structure Agrees (fetched : List (List LogEntry)) (hist : List (ℕ × ℕ)) : Prop where
  cursor : ∀ p ∈ hist, p.1 = p.2
  once : ((fetched.flatMap List.dropLast).map LogEntry.logIdx).Nodup

variable {c : Config} {maxFetchSize w g st f : ℕ} {a : Label} {s s' : Sys} {hist : List (ℕ × ℕ)}
  {L : List LogEntry} {bs : List (List LogEntry)}

/-! ### Batches and their end -/

theorem endSequence_concat (bs : List (List LogEntry)) (k n : ℕ) (hlt : pos entrySize L (k + n) < 2 ^ 64) :
    endSequence (bs ++ [batch L k n]) = pos entrySize L (k + n) := by
  unfold endSequence batch
  simp only [List.getLastD_concat]
  exact Nat.mod_eq_of_lt hlt

theorem endSequence_of_cut (h : Cut L 0 bs f) (hne : bs ≠ []) (hlt : pos entrySize L f < 2 ^ 64) :
    endSequence bs = pos entrySize L f := by
  obtain ⟨front, es, rfl⟩ := (List.eq_nil_or_concat bs).resolve_left hne
  rw [List.concat_eq_append] at h ⊢
  obtain ⟨j, -, n, -, -, rfl, rfl⟩ := h.split
  exact endSequence_concat front j n hlt

theorem Indexed.nodup (h : Indexed L) : (L.map LogEntry.logIdx).Nodup := by
  refine List.Nodup.of_map UInt64.toNat ?_
  rw [List.map_map]
  have hrange : L.map (UInt64.toNat ∘ LogEntry.logIdx) = List.range L.length := by
    refine List.ext_getElem (by simp) fun i h₁ h₂ => ?_
    rw [List.getElem_map, List.getElem_range]
    exact h i _ (List.getElem?_eq_getElem (by simpa using h₁))
  rw [hrange]
  exact List.nodup_range

theorem pos_lt_of_primary {p : State} (h : Primary c p g) (k : ℕ) : pos entrySize (recs p) k < 2 ^ 64 := by
  have hle := pos_le_total (f := entrySize) (l := recs p) k
  have htot : p.log.sequencer = ((recs p).map entrySize).sum := h.total
  have hseq := h.seq_lt
  omega

/-! ### A watermark of zero -/

theorem fetchBegin_eq (h : Pipeline.Inv c s g st f) (hne : s.fetched ≠ []) :
    s.fetchBegin = endSequence s.fetched := by
  rw [endSequence_of_cut h.fetched hne (pos_lt_of_primary h.primary f)]
  exact h.fetchBegin

theorem once_of_inv (h : Pipeline.Inv c s g st f) :
    ((s.fetched.flatMap List.dropLast).map LogEntry.logIdx).Nodup := by
  have hflat : s.fetched.flatMap List.dropLast = (recs s.primary).take f := by simpa using h.fetched.flatMap_dropLast
  rw [hflat, List.map_take]
  exact (Indexed.nodup h.primary.indexed).sublist (List.take_sublist _ _)

theorem fetched_cases (hs : Step c maxFetchSize a s s') :
    s'.fetched = s.fetched ∨ ∃ es, s'.fetched = s.fetched ++ [es] := by
  cases hs with
  | fetchDone hpc hes hn => exact Or.inr ⟨_, rfl⟩
  | append | fetchLock | fetchWait | fetchRange | fetchNothing | fetchRead | fetchNone | storeLock | storeWait
  | storeAppend | storeDelete | storeLand | storeUpdate | storeDone => exact Or.inl rfl

theorem note_of_eq (h : s'.fetched = s.fetched) : note s s' hist = hist := by
  unfold note
  rw [h, if_pos rfl]

theorem note_of_concat {es : List LogEntry} (h : s'.fetched = s.fetched ++ [es]) :
    note s s' hist = hist ++ [(s'.fetchBegin, endSequence s'.fetched)] := by
  unfold note
  rw [h, if_neg (by simp)]

/-- **Started at zero, the cursor agrees.** -/
theorem agrees_of_zero (h : (historyLts c maxFetchSize 0).Reachable (s, hist)) : Agrees s.fetched hist := by
  have hinv : (∃ g st f, Pipeline.Inv c s g st f) ∧ ∀ p ∈ hist, p.1 = p.2 := by
    refine h.invariant (P := fun y => (∃ g st f, Pipeline.Inv c y.1 g st f) ∧ ∀ p ∈ y.2, p.1 = p.2) ?_ ?_
    · rintro ⟨s, hist⟩ ⟨⟨⟨g, hp⟩, hw, hb, hr, hpc, he⟩, rfl⟩
      -- no entry is marked: entries take some place
      obtain rfl : g = 0 := by
        by_contra hg
        have hlt := pos_strictMono (f := entrySize) (fun x _ => entrySize_pos x) hp.le_length (Nat.pos_of_ne_zero hg)
        have hmark := hp.mark
        omega
      exact ⟨⟨0, 0, 0, .of_primary hp hb hr hpc he⟩, fun p hmem => absurd hmem List.not_mem_nil⟩
    · rintro a ⟨s, hist⟩ ⟨s', hist'⟩ - ⟨⟨g, st, f, hi⟩, hall⟩ ⟨hs, hnote⟩
      obtain ⟨g', st', f', hi', -⟩ := hi.step hs
      refine ⟨⟨g', st', f', hi'⟩, ?_⟩
      rcases fetched_cases hs with heq | ⟨es, heq⟩
      · rw [hnote, note_of_eq heq]
        exact hall
      · rw [hnote, note_of_concat heq]
        intro p hp
        rcases List.mem_append.mp hp with hp | hp
        · exact hall p hp
        · rw [List.mem_singleton.mp hp]
          exact fetchBegin_eq hi' (by rw [heq]; simp)
  obtain ⟨⟨g, st, f, hi⟩, hall⟩ := hinv
  exact ⟨hall, once_of_inv hi⟩

/-! ### Any watermark, up to the first batch -/

/-- What is known at each place of the first `fetch`. -/
def Fetching (c : Config) (s : Sys) (g : ℕ) : Prop :=
  match s.fetchPc with
  | .idle | .locked => True
  | .ranged range => range.1 = pos entrySize (recs s.primary) g ∧ Ranged c s.primary g range
  | .loaded b e => Loaded c (recs s.primary) s.mr g b e

/-- **Nothing has been fetched**: the buffers are empty, the storer waits, and the watermark is still `w`, after entry
`g`. -/
structure Early (c : Config) (s : Sys) (g w : ℕ) : Prop where
  primary : Primary c s.primary g
  watermk : s.primary.log.orderedWatermk = w
  fetched : s.fetched = []
  fetchBegin : s.fetchBegin = 0
  buffers : ∀ r, (s.buf r).empty = true ∧ (s.buf r).entriesBuf = []
  storing : s.storePc = .idle ∨ s.storePc = .locked
  fetching : Fetching c s g

theorem Early.append {e : LogEntry} (h : Early c s g w) (he : CanAppend c s.primary e) :
    Early c { s with primary := append c s.primary e } g w := by
  refine ⟨h.primary.append he, ?_, h.fetched, h.fetchBegin, h.buffers, h.storing, ?_⟩
  · rw [(append_counters c s.primary e).2.1]
    exact h.watermk
  have hf := h.fetching
  have hle := h.primary.le_length
  unfold Fetching at hf ⊢
  simp only [recs_append]
  split at hf
  · trivial
  · trivial
  · exact ⟨by rw [pos_append_of_le hle]; exact hf.1, hf.2.append hle e⟩
  · exact hf.mono

theorem Early.lock (h : Early c s g w) (r : ℕ) (o : Option Thread) {fpc : FetchPc} {spc : StorePc}
    (hs : spc = .idle ∨ spc = .locked) (hf : Fetching c { s.setLock r o with fetchPc := fpc, storePc := spc } g) :
    Early c { s.setLock r o with fetchPc := fpc, storePc := spc } g w := by
  refine ⟨h.primary, h.watermk, h.fetched, h.fetchBegin, fun q => ?_, hs, hf⟩
  obtain ⟨h1, h2⟩ := buf_setLock s r o q
  obtain ⟨h3, h4⟩ := h.buffers q
  exact ⟨h1.trans h3, h2.trans h4⟩

theorem Early.read {range : ℕ × ℕ} {b e : ℕ} {mr : Mem} (h : Early c s g w) (hpc : s.fetchPc = .ranged range)
    (hb : fetchBounds range s.fetchBegin maxFetchSize = some (b, e))
    (hr : readSegments c.rgSize s.primary.log.mem s.mr b e = some mr) :
    Early c { s with mr := mr, fetchPc := .loaded b e } g w := by
  have hf := h.fetching
  unfold Fetching at hf
  rw [hpc] at hf
  have hmax : max range.1 s.fetchBegin = pos entrySize (recs s.primary) g := by
    rw [h.fetchBegin, Nat.max_zero]
    exact hf.1
  obtain ⟨hload, -⟩ := h.primary.read (Nat.le_refl g) h.primary.le_length hf.2 hmax hb hr
  exact ⟨h.primary, h.watermk, h.fetched, h.fetchBegin, h.buffers, h.storing, hload⟩

/-- What the first `fetch` decodes: nothing, or a batch from the watermark on. -/
theorem Early.decode {b e n : ℕ} {es : List LogEntry} (h : Early c s g w) (hpc : s.fetchPc = .loaded b e)
    (hes : decodeFetched (s.buf s.fetchRound).entriesBuf s.mr b e = (es, n)) :
    es = [] ∧ n = 0 ∨ ∃ m, 0 < m ∧ es = batch (recs s.primary) g m ∧
      n + w = pos entrySize (recs s.primary) (g + m) ∧ 0 < n := by
  have hload := h.fetching
  unfold Fetching at hload
  rw [hpc] at hload
  rw [(h.buffers s.fetchRound).2] at hes
  rcases Loaded.decode hload with hdec | ⟨m, hm, hgm, hdec⟩
  · rw [hes] at hdec
    exact Or.inl (Prod.mk.inj hdec)
  · rw [hes] at hdec
    obtain ⟨rfl, rfl⟩ := Prod.mk.inj hdec
    have hlt := pos_strictMono (f := entrySize) (fun x _ => entrySize_pos x) hgm (show g < g + m by omega)
    refine Or.inr ⟨m, hm, rfl, ?_, by omega⟩
    have hmark := h.primary.mark
    have hw := h.watermk
    omega

/-- **One step before the first batch**, or the step that fetches it: the cursor is behind by the watermark. -/
theorem Early.step (h : Early c s g w) (hs : Step c maxFetchSize a s s') :
    Early c s' g w ∨ ∃ es, s'.fetched = s.fetched ++ [es] ∧ s'.fetchBegin + w = endSequence s'.fetched := by
  -- the storer is not past its wait
  have hwaits : ∀ {spc : StorePc}, s.storePc = spc → spc = .idle ∨ spc = .locked := fun hpc => hpc ▸ h.storing
  cases hs with
  | append e he => exact Or.inl (h.append he)
  | fetchLock => exact Or.inl (h.lock _ _ h.storing trivial)
  | fetchWait => exact Or.inl (h.lock _ _ h.storing trivial)
  | fetchRange =>
    exact Or.inl ⟨h.primary, h.watermk, h.fetched, h.fetchBegin, h.buffers, h.storing, h.primary.mark,
      h.primary.ranged (Nat.le_refl g)⟩
  | fetchNothing => exact Or.inl (h.lock _ _ h.storing trivial)
  | fetchRead hpc hb hr => exact Or.inl (h.read hpc hb hr)
  | @fetchNone _ b e es hpc hes =>
    have hnil : es = (s.buf s.fetchRound).entriesBuf := by
      rw [(h.buffers s.fetchRound).2]
      rcases h.decode hpc hes with ⟨hes, -⟩ | ⟨m, -, -, -, hlt⟩
      · exact hes
      · exact absurd hlt (Nat.lt_irrefl 0)
    rw [hnil]
    exact Or.inl (h.lock _ _ h.storing trivial)
  | @fetchDone _ b e n es hpc hes hn =>
    rcases h.decode hpc hes with ⟨-, h0⟩ | ⟨m, -, rfl, hend, -⟩
    · exact absurd h0 hn
    · refine Or.inr ⟨_, rfl, ?_⟩
      simp only [endSequence_concat s.fetched g m (pos_lt_of_primary h.primary _), h.fetchBegin, Nat.zero_add]
      exact hend
  | storeLock => exact Or.inl (h.lock _ _ (Or.inr rfl) h.fetching)
  | storeWait => exact Or.inl (h.lock _ _ (Or.inl rfl) h.fetching)
  | storeAppend hpc he =>
    rw [(h.buffers s.storeRound).1] at he
    cases he
  | storeDelete hpc | storeLand hpc | storeUpdate hpc | storeDone hpc =>
    rcases hwaits hpc with heq | heq <;> cases heq

theorem Early.of_started (h : Started c w s) : ∃ g, Early c s g w := by
  obtain ⟨⟨g, hp⟩, hw, hb, hr, hpc, he⟩ := h
  refine ⟨g, hp, hw, he.1, hr.2.2, fun r => ?_, Or.inl hpc.2, ?_⟩
  · unfold Sys.buf
    rw [hb]
    exact ⟨rfl, rfl⟩
  · unfold Fetching
    rw [hpc.1]
    trivial

/-- **Started elsewhere, the cursor is wrong from the first batch on.** -/
theorem exists_disagreement (h : (historyLts c maxFetchSize w).Reachable (s, hist)) (hw : w ≠ 0) (hne : hist ≠ []) :
    ∃ p ∈ hist, p.1 ≠ p.2 := by
  have hinv : (hist = [] ∧ ∃ g, Early c s g w) ∨ ∃ p ∈ hist, p.1 ≠ p.2 := by
    refine h.invariant (P := fun y => (y.2 = [] ∧ ∃ g, Early c y.1 g w) ∨ ∃ p ∈ y.2, p.1 ≠ p.2) ?_ ?_
    · rintro ⟨s, hist⟩ ⟨hs, rfl⟩
      exact Or.inl ⟨rfl, Early.of_started hs⟩
    · rintro a ⟨s, hist⟩ ⟨s', hist'⟩ - ih ⟨hs, hnote⟩
      rcases ih with ⟨hnil, g, hearly⟩ | ⟨p, hp, hpne⟩
      · rcases hearly.step hs with hearly' | ⟨es, heq, hcur⟩
        · have hsame : s'.fetched = s.fetched := hearly'.fetched.trans hearly.fetched.symm
          refine Or.inl ⟨?_, g, hearly'⟩
          rw [hnote, note_of_eq hsame]
          exact hnil
        · refine Or.inr ⟨(s'.fetchBegin, endSequence s'.fetched), ?_, fun hpair => ?_⟩
          · rw [hnote, note_of_concat heq]
            exact List.mem_append_right _ (List.mem_singleton.mpr rfl)
          · have hbehind : s'.fetchBegin + w = endSequence s'.fetched := hcur
            have hpair' : s'.fetchBegin = endSequence s'.fetched := hpair
            omega
      · refine Or.inr ⟨p, ?_, hpne⟩
        rcases fetched_cases hs with heq | ⟨es, heq⟩
        · rw [hnote, note_of_eq heq]
          exact hp
        · rw [hnote, note_of_concat heq]
          exact List.mem_append_left _ hp
  exact hinv.resolve_left fun h0 => hne h0.1

/-! ### A fetch that goes through -/

theorem reachable_step (h : (historyLts c maxFetchSize w).Reachable (s, hist)) (hs : Step c maxFetchSize a s s')
    (heq : s'.fetched = s.fetched) : (historyLts c maxFetchSize w).Reachable (s', hist) :=
  h.next (a := a) ⟨hs, (note_of_eq heq).symm⟩

theorem reachable_stored {es : List LogEntry} (h : (historyLts c maxFetchSize w).Reachable (s, hist))
    (hs : Step c maxFetchSize a s s') (heq : s'.fetched = s.fetched ++ [es]) :
    (historyLts c maxFetchSize w).Reachable (s', hist ++ [(s'.fetchBegin, endSequence s'.fetched)]) :=
  h.next (a := a) ⟨hs, (note_of_concat heq).symm⟩

/-- **A whole `fetch`** of what the primary has from entry `f` on. -/
theorem reachable_fetch (h : (historyLts c 0 w).Reachable (s, hist)) (hp : Primary c s.primary g) (hgf : g ≤ f)
    (hf : f < (recs s.primary).length) (hpc : s.fetchPc = .idle) (hb : s.buf s.fetchRound = ⟨[], none, true⟩)
    (hmax : max s.primary.log.orderedWatermk s.fetchBegin = pos entrySize (recs s.primary) f) : ∃ s',
      (historyLts c 0 w).Reachable (s', hist ++ [(s'.fetchBegin, endSequence s'.fetched)]) ∧
        s'.primary = s.primary ∧ s'.fetchRound = s.fetchRound + 1 ∧ s'.fetchPc = .idle ∧
        s'.fetchBegin = s.fetchBegin + (s.primary.log.sequencer - pos entrySize (recs s.primary) f) ∧
        s'.fetched = s.fetched ++ [batch (recs s.primary) f ((recs s.primary).length - f)] ∧
        s'.buf (s.fetchRound + 1) = s.buf (s.fetchRound + 1) := by
  obtain ⟨mr, hbounds, hread, hdec, hne⟩ := hp.fetch_all hgf hf hmax s.mr
  have hbuf : (s.setLock s.fetchRound (some .fetcher)).buf s.fetchRound = ⟨[], some .fetcher, true⟩ := by
    unfold Sys.setLock
    rw [buf_setBuf_eq s _ rfl, hb]
  have h₁ := reachable_step h (.fetchLock hpc (by rw [hb])) rfl
  have h₂ := reachable_step h₁ (.fetchRange rfl (congrArg PipelineObj.empty hbuf)) rfl
  have h₃ := reachable_step h₂ (.fetchRead rfl hbounds hread) rfl
  rw [show [] = ((s.setLock s.fetchRound (some .fetcher)).buf s.fetchRound).entriesBuf by rw [hbuf]] at hdec
  have h₄ := reachable_stored h₃ (.fetchDone rfl hdec hne) rfl
  refine ⟨_, h₄, rfl, rfl, rfl, rfl, rfl, ?_⟩
  -- the buffer of the next round is the other one
  have hother : (s.fetchRound + 1) % 2 ≠ s.fetchRound % 2 := by omega
  exact (buf_setBuf_ne _ _ hother).trans (buf_setBuf_ne s _ hother)

/-- The consensus log starts on this primary. -/
def started (p : State) : Sys := ⟨p, fun _ => 0, fun _ => ⟨[], none, true⟩, 0, 0, 0, .idle, .idle, [], []⟩

theorem reachable_started {p : State} (maxFetchSize : ℕ) (hp : Primary c p g) (hw : p.log.orderedWatermk = w) :
    (historyLts c maxFetchSize w).Reachable (started p, []) :=
  .start ⟨⟨⟨g, hp⟩, hw, fun _ => rfl, ⟨rfl, rfl, rfl⟩, ⟨rfl, rfl⟩, rfl, rfl⟩, rfl⟩

theorem exists_oneOrdered : ∃ p, Primary .smallPrimary p 1 ∧ (recs p).length = 2 ∧
    pos entrySize (recs p) 1 = 32 ∧ p.log.orderedWatermk = 32 ∧ p.log.sequencer = 64 := by
  have htwo := primary_twoAppends
  have hpos := pos_twoAppends
  have hlen : (recs twoAppends).length = 2 := by
    rw [recs_twoAppends]
    rfl
  have hseq : twoAppends.log.sequencer = 64 := by
    rw [htwo.total, recs_twoAppends]
    decide
  generalize twoAppends = p at htwo hlen hpos hseq
  exact ⟨_, htwo.advance (Nat.zero_le 1) (by omega), hlen, hpos, hpos, hseq⟩

/-- **The cursor of the pipelined fetch agrees with what it has fetched** exactly if the primary has the watermark
zero when the consensus log starts. -/
theorem fetch_begin_agrees_iff (h : (historyLts c maxFetchSize w).Reachable (s, hist)) (hne : hist ≠ []) :
    Agrees s.fetched hist ↔ w = 0 := by
  constructor
  · intro hag
    by_contra hw
    obtain ⟨p, hp, hpne⟩ := exists_disagreement h hw hne
    exact hpne (hag.cursor p hp)
  · rintro rfl
    exact agrees_of_zero h

/-- Two batches, from a primary with nothing ordered; the second entry comes when the first has been fetched. -/
theorem fetch_begin_agrees_iff_two : ∃ s hist, (historyLts .smallPrimary 0 0).Reachable (s, hist) ∧
    s.fetched.length = 2 ∧ hist.length = 2 ∧ Agrees s.fetched hist := by
  have h₀ := reachable_started 0 primary_oneAppend (show oneAppend.log.orderedWatermk = 0 by decide)
  obtain ⟨s₁, h₁, hp₁, hround₁, hpc₁, hbegin₁, hfetched₁, hbuf₁⟩ :=
    reachable_fetch h₀ primary_oneAppend (Nat.le_refl 0) (by decide) rfl rfl (by decide)
  have hcan : CanAppend .smallPrimary s₁.primary default := by
    rw [hp₁]
    exact canAppend_oneAppend
  have h₂ := reachable_step h₁ (.append default hcan) rfl
  rw [show append .smallPrimary s₁.primary default = twoAppends by rw [hp₁]; rfl] at h₂
  have hcur : s₁.fetchBegin = 32 := by
    rw [hbegin₁]
    decide
  have hbuf : s₁.buffers (Fin.ofNat 2 s₁.fetchRound) = ⟨[], none, true⟩ := by
    rw [hround₁]
    exact hbuf₁
  obtain ⟨s₂, h₃, -, -, -, -, hfetched₂, -⟩ := reachable_fetch h₂ primary_twoAppends (Nat.zero_le 1)
    (by rw [recs_twoAppends]; decide) hpc₁ hbuf (by
      simp only [hcur, pos_twoAppends, primary_twoAppends.mark, pos_zero]
      rfl)
  refine ⟨s₂, _, h₃, ?_, by simp, (fetch_begin_agrees_iff h₃ (by simp)).mpr rfl⟩
  simp [hfetched₂, hfetched₁, started]

/-- **An entry is in two batches.** The primary has two entries and the first one is ordered when the consensus log
starts. The second one is fetched twice, before it is marked. -/
theorem fetch_begin_falls_behind : ∃ s hist es, (historyLts .smallPrimary 0 32).Reachable (s, hist) ∧ hist ≠ [] ∧
    s.fetched = [es, es] ∧ es.dropLast ≠ [] ∧ ¬ Agrees s.fetched hist := by
  obtain ⟨p, hprim, hlen, hpos, hwm, hseq⟩ := exists_oneOrdered
  have h₀ := reachable_started 0 hprim hwm
  obtain ⟨s₁, h₁, rfl, hround₁, hpc₁, hbegin₁, hfetched₁, hbuf₁⟩ := reachable_fetch h₀ hprim (Nat.le_refl 1)
    (show 1 < (recs p).length by omega) rfl rfl (show max p.log.orderedWatermk 0 = _ by rw [hwm]; exact hpos.symm)
  -- the cursor is at 32 now, where the watermark still is
  have hcur : s₁.fetchBegin = 32 := by
    rw [hbegin₁]
    show 0 + (s₁.primary.log.sequencer - pos entrySize (recs s₁.primary) 1) = 32
    omega
  obtain ⟨s₂, h₂, -, -, -, -, hfetched₂, -⟩ := reachable_fetch h₁ hprim (Nat.le_refl 1) (by omega) hpc₁
    (by rw [hround₁]; exact hbuf₁) (by rw [hwm, hcur]; exact hpos.symm)
  rw [hfetched₁] at hfetched₂
  refine ⟨s₂, _, _, h₂, by simp, hfetched₂, ?_, fun hag => ?_⟩
  · refine List.ne_nil_of_length_pos ?_
    rw [dropLast_batch, List.length_take, List.length_drop]
    show 0 < min ((recs s₁.primary).length - 1) ((recs s₁.primary).length - 1)
    rw [hlen]
    decide
  · obtain ⟨q, hq, hne⟩ := exists_disagreement h₂ (by decide) (by simp)
    exact hne (hag.cursor q hq)

end LazyLog.ConsLog.Cursor
