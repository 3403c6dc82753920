import LazyLog.DurLog.FlatCli

/-! # Fetching while appends are under way

The consensus log fetches from the primary, as an atomic snapshot of its region, between any two steps of
any number of calls of `AppendEntry`, and writes the ends of the fetched runs back as the watermark.

The flag of an entry is raised before its overflow is copied to the start of the ring, and it is cleared
and raised through the contiguous view, whereas the fetch reads the wrapped one. So a record that straddles
the end of the ring can be fetched half-written (`fetch_half_written`). As long as every such record shows
the flag zero to the fetch, in the wrapped view, fetched entries are the appended ones
(`fetch_returns_appended`).

The same record is what keeps the fetch from refining the list of unordered entries in every state without a
straddling record of flag zero (`fetch_unrefined`): it has to be complete in both views, or not to straddle
(`fetch_refines_unordered`). -/

namespace LazyLog.DurLog.Snapshot

open LazyLog.Lib.Bytes LazyLog.Lib.Circular LazyLog.Lib.Tiling LazyLog.Lib.Run
open LazyLog.Rpc.Entry LazyLog.Rpc.Multi
open LazyLog.DurLog.Flat LazyLog.DurLog.Ranges LazyLog.DurLog.Ring LazyLog.DurLog.FlatCli

/-! ### The system -/

/-- The primary, and the vectors that the fetches have returned. -/
structure Sys where
  primary : State
  fetched : List (List LogEntry)

/-- The end sequence that a fetched vector passes out. -/
def endOf (es : List LogEntry) : ℕ := (es.getLastD default).clientSeq.toNat

/-- Where a fetch may start: anywhere up to the watermark, or at the end of a fetched run. -/
def Sys.Origin (s : Sys) (frm : ℕ) : Prop :=
  frm ≤ s.primary.log.orderedWatermk ∨ ∃ es ∈ s.fetched, frm = endOf es

/-- A fetch on a snapshot of the primary; what it returns is kept. -/
def Sys.fetch (c : Config) (s : Sys) (mr : Mem) (frm maxFetchSize : ℕ) : Sys :=
  let r := fetchUnorderedEntries c.rgSize s.primary.log mr [] frm maxFetchSize
  if r.2 = 0 then s else { s with fetched := r.1 :: s.fetched }

/-- The watermarks computed from a fetched vector are written to the primary. -/
def Sys.collect (s : Sys) (es : List LogEntry) : Sys :=
  { s with primary := deleteOrderedEntries s.primary (processFetchedEntries true es []).2 }

/-- Calls of `AppendEntry`, fetches from states that meet `P`, and collections in the order of the log. -/
inductive Step (c : Config) (P : State → Prop) : Sys → Sys → Prop
  | call {s : Sys} {p : State} (h : CallStep c s.primary p) (hlt : p.log.sequencer < 2 ^ 64) :
    Step c P s { s with primary := p }
  | fetch {s : Sys} (mr : Mem) (frm maxFetchSize : ℕ) (hfrm : s.Origin frm) (hP : P s.primary) :
    Step c P s (s.fetch c mr frm maxFetchSize)
  | collect {s : Sys} {es : List LogEntry} (hes : es ∈ s.fetched)
    (hle : s.primary.log.orderedWatermk ≤ endOf es) : Step c P s (s.collect es)

/-- The primary has just been started, and nothing has been fetched. -/
def Start (s : Sys) : Prop := Init s.primary ∧ s.fetched = []

/-- Every record above the watermark that straddles the end of the ring and whose overflow has not been
copied yet shows the flag zero in the wrapped view. -/
def StraddlersHidden (c : Config) (s : State) : Prop :=
  ∀ t ∈ s.slots, s.log.orderedWatermk ≤ t.seq → t.Straddles c → ¬ t.Finished →
    getFlagFromBuf (wrapView c.rgSize s.log.mem) t.seq = 0

variable {c : Config} {P : State → Prop} {s s' : Sys}

/-! ### The invariant -/

/-- The primary has its contents, and every fetched end is settled. -/
structure Inv (c : Config) (s : Sys) : Prop where
  contents : Contents c s.primary
  seq_lt : s.primary.log.sequencer < 2 ^ 64
  ends : ∀ es ∈ s.fetched, Settled c s.primary (endOf es)

theorem hidden_of_straddlersHidden {p : State} (h : Contents c p) (hs : StraddlersHidden c p) :
    Hidden c p := by
  intro i t ht hw hc
  by_cases hstr : t.Straddles c
  · exact hs t (List.mem_of_getElem? ht) hw hstr fun hf => hc (Or.inl hf)
  · exact h.flag_zero ht hw hc hstr

theorem Inv.settled_max (h : Inv c s) {frm : ℕ} (hfrm : s.Origin frm) :
    Settled c s.primary (max s.primary.log.orderedWatermk frm) := by
  rcases le_total frm s.primary.log.orderedWatermk with hle | hle
  · rw [max_eq_left hle]
    exact h.contents.settled
  · rcases hfrm with hfrm | ⟨es, hes, rfl⟩
    · rw [max_eq_left hfrm]
      exact h.contents.settled
    · rw [max_eq_right hle]
      exact h.ends es hes

/-- **One fetch.** It returns the longest run of complete entries from the begin on. -/
theorem Inv.fetch_eq (h : Inv c s) (hs : StraddlersHidden c s.primary) {frm : ℕ}
    (hfrm : s.Origin frm) (mr : Mem) (maxFetchSize : ℕ) :
    fetchUnorderedEntries c.rgSize s.primary.log mr [] frm maxFetchSize =
      if longestRun c s.primary (max s.primary.log.orderedWatermk frm) maxFetchSize = [] then ([], 0)
      else (longestRun c s.primary (max s.primary.log.orderedWatermk frm) maxFetchSize ++
          [sentinel (max s.primary.log.orderedWatermk frm +
            totalSize (longestRun c s.primary (max s.primary.log.orderedWatermk frm) maxFetchSize))],
        totalSize (longestRun c s.primary (max s.primary.log.orderedWatermk frm) maxFetchSize)) := by
  have hfrm' : frm ≤ s.primary.log.orderedWatermk ∨
      ∃ j ≤ s.primary.slots.length, frm = pos entrySize s.primary.entries j := by
    rcases hfrm with hfrm | ⟨es, hes, rfl⟩
    · exact Or.inl hfrm
    · obtain ⟨k, hk, hpos, -⟩ := h.ends es hes
      exact Or.inr ⟨k, hk, hpos⟩
  have := fetchUnorderedEntries_eq h.contents (hidden_of_straddlersHidden h.contents hs) hfrm' mr []
    maxFetchSize
  simpa only [List.nil_append] using this

theorem endOf_sentinel (es : List LogEntry) {e : ℕ} (he : e < 2 ^ 64) :
    endOf (es ++ [sentinel e]) = e := by
  unfold endOf sentinel
  simpa using he

theorem Inv.fetch (h : Inv c s) (hs : StraddlersHidden c s.primary) {frm : ℕ} (hfrm : s.Origin frm)
    (mr : Mem) (maxFetchSize : ℕ) : Inv c (s.fetch c mr frm maxFetchSize) := by
  have hset := settled_longestRun h.contents.tiled (h.settled_max hfrm) maxFetchSize
  have hlt := (hset.le_sequencer h.contents.tiled).trans_lt h.seq_lt
  unfold Sys.fetch
  simp only [h.fetch_eq hs hfrm mr maxFetchSize]
  by_cases hnil : longestRun c s.primary (max s.primary.log.orderedWatermk frm) maxFetchSize = []
  · rw [if_pos hnil]
    exact h
  · rw [if_neg hnil]
    simp only
    split_ifs with h0
    · exact h
    · refine ⟨h.contents, h.seq_lt, fun es hes => ?_⟩
      rcases List.mem_cons.mp hes with rfl | hes
      · rw [endOf_sentinel _ hlt]
        exact hset
      · exact h.ends es hes

theorem fetch_primary (c : Config) (s : Sys) (mr : Mem) (frm maxFetchSize : ℕ) :
    (s.fetch c mr frm maxFetchSize).primary = s.primary := by
  unfold Sys.fetch
  dsimp only
  split_ifs <;> rfl

theorem collect_primary (s : Sys) (es : List LogEntry) : ∃ wi,
    (s.collect es).primary = s.primary.setWatermk (endOf es) wi := ⟨_, rfl⟩

theorem Inv.step (h : Inv c s) (hs : Step c (StraddlersHidden c) s s') : Inv c s' := by
  cases hs with
  | call hcall hlt =>
    exact ⟨h.contents.call hcall, hlt, fun es hes => (h.ends es hes).call hcall⟩
  | fetch mr frm maxFetchSize hfrm hP => exact h.fetch hP hfrm mr maxFetchSize
  | @collect es hes hle =>
    obtain ⟨wi, hwi⟩ := collect_primary s es
    refine ⟨?_, ?_, fun es' hes' => ?_⟩
    · rw [hwi]; exact h.contents.advance wi hle (h.ends es hes)
    · rw [hwi]; exact h.seq_lt
    · rw [hwi]; exact h.ends es' hes'

theorem inv_of_reach (h : Reach Start (Step c (StraddlersHidden c)) s) : Inv c s := by
  refine h.invariant (fun s hs => ?_) fun s s' _ hi hs => hi.step hs
  obtain ⟨h0, h1⟩ := hs
  refine ⟨Contents.init h0, ?_, fun es hes => ?_⟩
  · rw [h0.1.sequencer]; decide
  · rw [h1] at hes; simp at hes

/-! ### A ring that is nearly full -/

theorem Step.mono (hs : Step c P s s') : Step c (fun _ => True) s s' := by
  cases hs with
  | call h hlt => exact .call h hlt
  | fetch mr frm maxFetchSize hfrm _ => exact .fetch mr frm maxFetchSize hfrm trivial
  | collect hes hle => exact .collect hes hle

theorem calls_run {p p' : State} (f : List (List LogEntry))
    (h : Relation.ReflTransGen (CallStep c) p p') (hlt : p'.log.sequencer < 2 ^ 64) :
    Relation.ReflTransGen (Step c P) ⟨p, f⟩ ⟨p', f⟩ := by
  induction h with
  | refl => exact .refl
  | tail _ hcall ih =>
    exact (ih ((callStep_sequencer_le hcall).trans_lt hlt)).tail (.call hcall hlt)

/-- The entries of the run: each takes 52 bytes. -/
def testEntry (i : ℕ) : LogEntry :=
  ⟨42, UInt64.ofNat i, 0, 20, 0, 0,
    [84, 104, 105, 115, 32, 105, 115, 32, 97, 32, 116, 101, 115, 116, 32, 101, 110, 116, 114, 121]⟩

theorem entrySize_testEntry (i : ℕ) : entrySize (testEntry i) = 52 := by
  simp [entrySize, testEntry, align4, metaDataSize, flagPos]

theorem testEntry_admissible (i : ℕ) : Admissible (testEntry i) :=
  ⟨rfl, by rw [entrySize_testEntry]; decide⟩

theorem getSize_testEntry (i : ℕ) : getSize (testEntry i) = 52 := by
  rw [(testEntry_admissible i).getSize_eq, entrySize_testEntry]

/-- The slot of the next entry, at a stage of its call. -/
def nextSlot (p : State) (i : ℕ) (st : Stage) : Slot :=
  ⟨stamp .smallPrimary p.log.indexer (testEntry i), p.log.sequencer, p.log.indexer, st⟩

theorem entrySize_nextSlot (p : State) (i : ℕ) (st : Stage) : entrySize (nextSlot p i st).e = 52 :=
  entrySize_testEntry i

theorem totalSize_nextSlot (p : State) (i : ℕ) (st : Stage) : totalSize [(nextSlot p i st).written] = 52 :=
  entrySize_testEntry i

theorem setFlag_zero {m : Mem} {buf : ℕ} {flag : UInt16} : setFlag m buf flag 0 = m 0 :=
  writeBytes_of_notMem (Or.inl (by unfold flagPos; omega))

theorem serializer_zero {m : Mem} {buf : ℕ} {e : LogEntry} (hb : 0 < buf) :
    (serializer e m buf).1 0 = m 0 := by
  rw [serializer_eq]
  exact writeBytes_of_notMem (Or.inl hb)

theorem appendEntry_mem_zero {l : FlatLog} {e : LogEntry} (hb : 0 < l.sequencer % c.rgSize)
    (hns : l.sequencer % c.rgSize + entrySize e ≤ c.rgSize) :
    (appendEntry c l e).1.mem 0 = l.mem 0 := by
  have hcopy : ∀ l' : FlatLog,
      copyOverflow c l' (stamp c l.indexer e) l.sequencer = l' := by
    intro l'
    refine copyOverflow_of_not_straddles (t := ⟨stamp c l.indexer e, l.sequencer, 0, .flagged⟩) ?_
    simpa [Slot.Straddles] using hns
  unfold appendEntry
  simp only [(insertReqid_counters c _ _ _).2.2.2.1, hcopy]
  simp only [raiseFlag, serialise, reserve, setFlag_zero, serializer_zero hb]

/-- All entries of the log have been appended, fetched and collected; the ring starts with byte 42. -/
structure Filled (n : ℕ) (s : Sys) : Prop where
  reach : Reach Start (Step .smallPrimary (StraddlersHidden .smallPrimary)) s
  length : s.primary.slots.length = n
  sequencer : s.primary.log.sequencer = 52 * n
  orderedWatermk : s.primary.log.orderedWatermk = 52 * n
  finished : ∀ t ∈ s.primary.slots, t.Finished
  first : 0 < n → s.primary.log.mem 0 = 42

theorem Filled.room {n : ℕ} (h : Filled n s) (i : ℕ) :
    s.primary.log.sequencer + getSize (testEntry i) <
      s.primary.log.orderedWatermk + Config.smallPrimary.rgSize := by
  rw [h.sequencer, h.orderedWatermk, getSize_testEntry]
  exact Nat.add_lt_add_left (by decide) _

theorem Filled.append_run {n : ℕ} (h : Filled n s) (hn : n ≤ 20164) :
    Relation.ReflTransGen (Step .smallPrimary P) s ⟨append .smallPrimary s.primary (testEntry n), s.fetched⟩ := by
  have hcnt := append_counters .smallPrimary s.primary (testEntry n)
  refine calls_run s.fetched (Ring.append_run .smallPrimary s.primary (testEntry_admissible n) rfl (h.room n)) ?_
  rw [hcnt.1, h.sequencer, getSize_testEntry]
  omega

theorem Filled.append_reach {n : ℕ} (h : Filled n s) (hn : n ≤ 20164) :
    Reach Start (Step .smallPrimary (StraddlersHidden .smallPrimary))
      ⟨append .smallPrimary s.primary (testEntry n), s.fetched⟩ := h.reach.run (h.append_run hn)

theorem Filled.append_first {n : ℕ} (h : Filled n s) (hn : n < 20164) :
    (append .smallPrimary s.primary (testEntry n)).log.mem 0 = 42 := by
  have hseq := h.sequencer
  have hcnt := append_counters .smallPrimary s.primary (testEntry n)
  rcases Nat.eq_zero_or_pos n with rfl | hpos
  · have hC := (inv_of_reach (h.append_reach hn.le)).contents
    have hlen : s.primary.slots = [] := List.length_eq_zero_iff.mp h.length
    have hsh := hC.shows (i := 0) (t := nextSlot s.primary 0 .returned) (by simp [Ring.append, nextSlot, hlen])
      (by rw [hcnt.2.1, h.orderedWatermk]; exact hseq.ge)
    have h0 := holds_iff.mp hsh.1 0 (by simp [metaDataSize])
    simp only [nextSlot] at h0
    rw [hseq, Nat.mul_zero, Nat.zero_mod] at h0
    rw [Ring.append]
    exact h0.trans (by simp [encode, header, leBytes, Slot.written, stamp, testEntry])
  · have hmod : s.primary.log.sequencer % Config.smallPrimary.rgSize = 52 * n := by
      rw [hseq]; exact Nat.mod_eq_of_lt (show 52 * n < 1048576 by omega)
    have hkeep := appendEntry_mem_zero (c := .smallPrimary) (l := s.primary.log) (e := testEntry n)
      (by omega) (by
        rw [hmod, entrySize_testEntry]
        exact (show 52 * n + 52 ≤ 1048576 by omega))
    exact hkeep.trans (h.first hpos)

theorem Filled.finished_append {n : ℕ} (h : Filled n s) (i : ℕ) :
    ∀ u ∈ (Ring.append .smallPrimary s.primary (testEntry i)).slots, u.Finished := by
  intro u hu
  rcases List.mem_append.mp hu with hu | hu
  · exact h.finished u hu
  · rw [List.mem_singleton.mp hu]
    exact Or.inr rfl

/-- The next entry is appended and fetched: the fetch finds nothing else. -/
theorem Filled.fetch {n : ℕ} (h : Filled n s) (hn : n ≤ 20164) {p : State}
    (hp : p = Ring.append .smallPrimary s.primary (testEntry n)) :
    fetchUnorderedEntries Config.smallPrimary.rgSize p.log (fun _ => 0) [] 0 0 =
      ([(nextSlot s.primary n .returned).written] ++ [sentinel (52 * n + 52)], 52) := by
  have hreach := h.append_reach hn
  obtain ⟨-, hcw, -⟩ := append_counters .smallPrimary s.primary (testEntry n)
  have hfin := h.finished_append n
  rw [← hp] at hreach hcw hfin
  have hI := inv_of_reach hreach
  have hslots : p.slots = s.primary.slots ++ nextSlot s.primary n .returned :: [] := by rw [hp]; rfl
  have hw : p.log.orderedWatermk = (nextSlot s.primary n .returned).seq :=
    (hcw.trans h.orderedWatermk).trans h.sequencer.symm
  have hrun : longestRun .smallPrimary p (nextSlot s.primary n .returned).seq 0 = _ :=
    longestRun_singleton hI.contents.tiled hslots (Or.inl (Or.inr rfl)) nofun
  have hsz := totalSize_nextSlot s.primary n .returned
  have hseq : (nextSlot s.primary n .returned).seq = 52 * n := h.sequencer
  have hfetch := hI.fetch_eq (fun u hu _ _ hnf => absurd (hfin u hu) hnf) (Or.inl (Nat.zero_le _)) (fun _ => 0) 0
  simp only [Nat.max_zero, hw, hrun, hsz] at hfetch
  rwa [if_neg (List.cons_ne_nil _ _), hseq] at hfetch

theorem Filled.collect_run {n : ℕ} (h : Filled n s) (hn : n < 20164) : ∃ s', Filled (n + 1) s' ∧
    Relation.ReflTransGen (Step .smallPrimary (StraddlersHidden .smallPrimary))
      ⟨append .smallPrimary s.primary (testEntry n), s.fetched⟩ s' := by
  have hreach := h.append_reach hn.le
  have hmem := h.append_first hn
  obtain ⟨hcs, hcw, -⟩ := append_counters .smallPrimary s.primary (testEntry n)
  rw [getSize_testEntry, h.sequencer] at hcs
  rw [h.orderedWatermk] at hcw
  have hfin := h.finished_append n
  have hfetch := h.fetch hn.le rfl
  have hlen : (Ring.append .smallPrimary s.primary (testEntry n)).slots.length = n + 1 := by
    simp [Ring.append, h.length]
  generalize (nextSlot s.primary n .returned).written = x at hfetch
  generalize Ring.append .smallPrimary s.primary (testEntry n) = p at *
  have hs2 : Sys.fetch .smallPrimary ⟨p, s.fetched⟩ (fun _ => 0) 0 0 =
      ⟨p, ([x] ++ [sentinel (52 * n + 52)]) :: s.fetched⟩ := by
    simp only [Sys.fetch, hfetch]
    rfl
  have h2 : Step .smallPrimary (StraddlersHidden .smallPrimary) ⟨p, s.fetched⟩ _ :=
    .fetch (fun _ => 0) 0 0 (Or.inl (Nat.zero_le _)) fun u hu _ _ hnf => absurd (hfin u hu) hnf
  rw [hs2] at h2
  have hend : endOf ([x] ++ [sentinel (52 * n + 52)]) = 52 * (n + 1) := by
    rw [endOf_sentinel _ (by omega)]; omega
  have hrun := (Relation.ReflTransGen.single h2).tail
    (.collect (List.mem_cons_self ..) (by rw [hend, hcw]; omega))
  obtain ⟨wi, hwi⟩ := collect_primary ⟨p, ([x] ++ [sentinel (52 * n + 52)]) :: s.fetched⟩
    ([x] ++ [sentinel (52 * n + 52)])
  refine ⟨_, ⟨hreach.run hrun, ?_, ?_, ?_, ?_, fun _ => ?_⟩, hrun⟩
  · rw [hwi]; exact hlen
  · rw [hwi]; simp only [State.setWatermk]; omega
  · rw [hwi]; exact hend
  · rw [hwi]; exact hfin
  · rw [hwi]; exact hmem

theorem exists_filled : ∀ n, n ≤ 20164 → ∃ s, Filled n s
  | 0, _ => by
    refine ⟨⟨⟨.zeroed, []⟩, []⟩, .start ⟨⟨FlatLog.zeroed_fresh, rfl⟩, rfl⟩, rfl, rfl, rfl, ?_, ?_⟩
    · intro t ht; simp at ht
    · intro h; exact absurd h (Nat.lt_irrefl 0)
  | n + 1, hn => by
    obtain ⟨s, hs⟩ := exists_filled n (by omega)
    obtain ⟨s', hs', -⟩ := hs.collect_run (by omega)
    exact ⟨s', hs'⟩

/-! ### Fetched entries -/

/-- **Fetched entries are the appended ones**, in every run in which the straddling records are hidden
whenever a fetch is made: entry `i` of the vector returned equals, in all its fields and its data, the entry
appended at its sequence number. -/
theorem fetch_returns_appended (h : Reach Start (Step c (StraddlersHidden c)) s)
    (hs : StraddlersHidden c s.primary) {frm : ℕ} (hfrm : s.Origin frm) (mr : Mem)
    (maxFetchSize : ℕ) {es : List LogEntry} {n : ℕ}
    (hes : fetchUnorderedEntries c.rgSize s.primary.log mr [] frm maxFetchSize = (es, n)) {i : ℕ}
    {e : LogEntry} (he : es[i]? = some e) (hi : i + 1 < es.length) :
    ∃ t ∈ s.primary.slots,
      t.seq = max s.primary.log.orderedWatermk frm + totalSize (es.take i) ∧ e = t.written := by
  have hI := inv_of_reach h
  obtain ⟨k, hk, hpos, -⟩ := hI.settled_max hfrm
  obtain ⟨m, hm, hrun, -, -⟩ := longestRun_slots (c := c) hI.contents.tiled hk maxFetchSize
  rw [hI.fetch_eq hs hfrm mr maxFetchSize, hpos] at hes
  rw [hpos]
  generalize longestRun c s.primary (pos entrySize s.primary.entries k) maxFetchSize = run at *
  by_cases hnil : run = []
  · rw [if_pos hnil] at hes
    cases hes
    simp at he
  · rw [if_neg hnil] at hes
    cases hes
    have hlen : i < run.length := by simpa using hi
    have hrlen : run.length ≤ m := by rw [hrun]; simp
    rw [List.getElem?_append_left hlen, hrun, List.getElem?_map, List.getElem?_take,
      if_pos (by omega), List.getElem?_drop, Option.map_eq_some_iff] at he
    obtain ⟨t, ht, rfl⟩ := he
    refine ⟨t, List.mem_of_getElem? ht, ?_, rfl⟩
    have htake : run.take i = ((s.primary.slots.drop k).take i).map Slot.written := by
      rw [hrun, ← List.map_take, List.take_take, min_eq_left (by omega)]
    rw [List.take_append_of_le_length hlen.le, htake, pos_add_totalSize]
    exact hI.contents.tiled.seq ht

/-- An entry is appended right before the end of the ring, and a call has reserved the range across it. The flag of
this range is zero, and the fetch returns the entry as it was appended. -/
theorem fetch_returns_appended_straddler : ∃ (s : Sys) (u : Slot) (es : List LogEntry) (e : LogEntry),
    u ∈ s.primary.slots ∧ u.Straddles .smallPrimary ∧ u.stage = .reserved ∧
      fetchUnorderedEntries Config.smallPrimary.rgSize s.primary.log (fun _ => 0) [] 0 0 = (es, 52) ∧
      es[0]? = some e ∧ ∃ t ∈ s.primary.slots, t.seq = 1048476 ∧ e = t.written := by
  obtain ⟨s, hs⟩ := exists_filled 20163 (by omega)
  have hreach := hs.append_reach (by omega)
  obtain ⟨hcs, hcw, -⟩ := append_counters .smallPrimary s.primary (testEntry 20163)
  have hfin := hs.finished_append 20163
  have htseq : (nextSlot s.primary 20163 .returned).seq = 1048476 := hs.sequencer
  have ht : (nextSlot s.primary 20163 .returned).Finished := Or.inr rfl
  have hsz := totalSize_nextSlot s.primary 20163 .returned
  have hslots : (Ring.append .smallPrimary s.primary (testEntry 20163)).slots =
      s.primary.slots ++ [nextSlot s.primary 20163 .returned] := rfl
  rw [getSize_testEntry, hs.sequencer] at hcs
  rw [hs.orderedWatermk] at hcw
  generalize Ring.append .smallPrimary s.primary (testEntry 20163) = p at hreach hcs hcw hfin hslots
  generalize nextSlot s.primary 20163 .returned = t at htseq ht hsz hslots
  have hroom : p.log.sequencer + getSize (testEntry 20164) < p.log.orderedWatermk + Config.smallPrimary.rgSize := by
    rw [hcs, hcw, getSize_testEntry]
    decide
  have hnext := hreach.next (.call (.reserve (testEntry 20164) (testEntry_admissible _) rfl hroom) (by
    show p.log.sequencer + getSize (testEntry 20164) < 2 ^ 64
    rw [hcs, getSize_testEntry]
    decide))
  have hC := (inv_of_reach hnext).contents
  have hslots' : (p.reserve .smallPrimary (testEntry 20164)).slots =
      s.primary.slots ++ t :: [nextSlot p 20164 .reserved] := by
    show p.slots ++ [nextSlot p 20164 .reserved] = _
    rw [hslots, List.append_assoc]
    rfl
  have hu : (nextSlot p 20164 .reserved).seq = 1048528 := hcs
  have hhidden : StraddlersHidden .smallPrimary (p.reserve .smallPrimary (testEntry 20164)) := by
    rintro v hv hwv - hnf
    have hlast : v = nextSlot p 20164 .reserved := by
      rcases List.mem_append.mp hv with hv | hv
      · exact absurd (hfin v hv) hnf
      · exact List.mem_singleton.mp hv
    rw [hlast, getFlagFromBuf_wrapView (by rw [hu]; decide)]
    exact hC.shows (i := p.slots.length) (t := nextSlot p 20164 .reserved) (by simp [State.reserve, nextSlot])
      (hlast ▸ hwv)
  have hw : (p.reserve .smallPrimary (testEntry 20164)).log.orderedWatermk = t.seq := hcw.trans htseq.symm
  have hrun : longestRun .smallPrimary (p.reserve .smallPrimary (testEntry 20164)) t.seq 0 = [t.written] :=
    longestRun_singleton hC.tiled hslots' (Or.inl ht) (by rintro u ⟨⟩ ((h | h) | ⟨h, -⟩) <;> cases h)
  have hfetch := (inv_of_reach hnext).fetch_eq hhidden (Or.inl (Nat.zero_le _)) (fun _ => 0) 0
  simp only [Nat.max_zero, hw, hrun, hsz] at hfetch
  rw [if_neg (List.cons_ne_nil _ _)] at hfetch
  obtain ⟨v, hv, hvseq, hvt⟩ := fetch_returns_appended hnext hhidden (Or.inl (Nat.zero_le _)) (fun _ => 0) 0
    hfetch (i := 0) rfl (by simp)
  refine ⟨_, nextSlot p 20164 .reserved, _, t.written, ?_, ?_, rfl, hfetch, rfl, v, hv, ?_, hvt⟩
  · simp [State.reserve, nextSlot]
  · unfold Slot.Straddles
    rw [hu, entrySize_nextSlot]
    decide
  · rw [hvseq]
    simp [hw, htseq]

/-! ### The list of unordered entries -/

/-- Without the vectors that have been fetched, a run is one of the server at work. -/
theorem ring_of_reach (h : Reach Start (Step c (StraddlersHidden c)) s) : Reach Init (RingStep c) s.primary := by
  refine h.map Sys.primary (fun _ h0 => h0.1) fun s s' hr _ hs => ?_
  cases hs with
  | call hcall hlt => exact .single (.call hcall)
  | fetch mr frm maxFetchSize hfrm hP =>
    rw [fetch_primary]
  | @collect es hes hle =>
    obtain ⟨wi, hwi⟩ := collect_primary s es
    rw [hwi]
    exact .single (.advance _ wi hle ((inv_of_reach hr).ends es hes))

/-- **The remote fetch refines the list of unordered entries.** In every state of a server at work in which
no incomplete entry crosses the end of the ring, a fetch from an entry boundary returns the longest run of
complete entries from there on that fits, followed by one entry with the end sequence, and its size; if
there is no such entry it returns zero and leaves the vector alone. -/
theorem fetch_refines_unordered {p : State} (h : Reach Init (RingStep c) p)
    (hns : ∀ t ∈ p.slots, ¬ t.Complete c → ¬ t.Straddles c) {frm : ℕ}
    (hfrm : frm ≤ p.log.orderedWatermk ∨ ∃ j ≤ p.slots.length, frm = pos entrySize p.entries j)
    (mr : Mem) (es : List LogEntry) (maxFetchSize : ℕ) :
    fetchUnorderedEntries c.rgSize p.log mr es frm maxFetchSize =
      if longestRun c p (max p.log.orderedWatermk frm) maxFetchSize = [] then (es, 0)
      else (es ++ longestRun c p (max p.log.orderedWatermk frm) maxFetchSize ++
          [sentinel (max p.log.orderedWatermk frm +
            totalSize (longestRun c p (max p.log.orderedWatermk frm) maxFetchSize))],
        totalSize (longestRun c p (max p.log.orderedWatermk frm) maxFetchSize)) := by
  have hC := contents_of_reach h
  refine fetchUnorderedEntries_eq hC (fun ht hw hc => ?_) hfrm mr es maxFetchSize
  exact hC.flag_zero ht hw hc (hns _ (List.mem_of_getElem? ht) hc)

/-- A call across the end of the ring has returned, and one behind it. The fetch has room for the first entry only. -/
theorem fetch_refines_unordered_wrapped : ∃ (p : State) (t u : Slot), Reach Init (RingStep .smallPrimary) p ∧
    t ∈ p.slots ∧ t.Straddles .smallPrimary ∧ u ∈ p.slots ∧ u.Complete .smallPrimary ∧ u.seq = 1048580 ∧
      fetchUnorderedEntries Config.smallPrimary.rgSize p.log (fun _ => 7) [] 0 60 =
        ([t.written, sentinel 1048580], 52) := by
  obtain ⟨s, hs⟩ := exists_filled 20164 le_rfl
  obtain ⟨hcs, hcw, -⟩ := append_counters .smallPrimary s.primary (testEntry 20164)
  have h₁ := (ring_of_reach hs.reach).run
    (ring_run (append_run .smallPrimary s.primary (testEntry_admissible 20164) rfl (hs.room 20164)))
  have hfin := hs.finished_append 20164
  have hslots : (Ring.append .smallPrimary s.primary (testEntry 20164)).slots =
      s.primary.slots ++ [nextSlot s.primary 20164 .returned] := rfl
  have htseq : (nextSlot s.primary 20164 .returned).seq = 1048528 := hs.sequencer
  have hte := entrySize_nextSlot s.primary 20164 .returned
  have htc : (nextSlot s.primary 20164 .returned).Finished := Or.inr rfl
  rw [getSize_testEntry, hs.sequencer] at hcs
  rw [hs.orderedWatermk] at hcw
  generalize nextSlot s.primary 20164 .returned = t at hslots htseq hte htc
  generalize hp : Ring.append .smallPrimary s.primary (testEntry 20164) = p at h₁ hfin hslots hcs hcw
  have h₂ := h₁.run (ring_run (append_run .smallPrimary p (testEntry_admissible 20165) rfl (by
    rw [hcs, hcw, getSize_testEntry]
    decide)))
  obtain ⟨-, hcw₂, -⟩ := append_counters .smallPrimary p (testEntry 20165)
  have hslots₂ : (Ring.append .smallPrimary p (testEntry 20165)).slots =
      s.primary.slots ++ t :: [nextSlot p 20165 .returned] := by
    show p.slots ++ [nextSlot p 20165 .returned] = _
    rw [hslots, List.append_assoc]
    rfl
  have hueq : (nextSlot p 20165 .returned).seq = 1048580 := hcs
  have hue := entrySize_nextSlot p 20165 .returned
  have huc : (nextSlot p 20165 .returned).Finished := Or.inr rfl
  generalize nextSlot p 20165 .returned = u at hslots₂ hueq hue huc
  generalize Ring.append .smallPrimary p (testEntry 20165) = q at h₂ hcw₂ hslots₂
  have hall : ∀ v ∈ q.slots, v.Finished := by
    intro v hv
    rw [hslots₂, List.append_cons, ← hslots] at hv
    rcases List.mem_append.mp hv with hv | hv
    · exact hfin v hv
    · exact List.mem_singleton.mp hv ▸ huc
  have hrun : longestRun .smallPrimary q 1048528 60 = [t.written] := by
    have ht : t.Complete .smallPrimary := Or.inl htc
    have hu : u.Complete .smallPrimary := Or.inl huc
    have hts : entrySize t.written = 52 := hte
    have hus : entrySize u.written = 52 := hue
    rw [← htseq, longestRun_of_slots (contents_of_reach h₂).tiled hslots₂, if_neg (by decide),
      List.takeWhile_cons_of_pos (by simpa using ht),
      List.takeWhile_cons_of_pos (by simpa using hu), List.takeWhile_nil]
    simp [takeFit, hts, hus]
  have hfetch := fetch_refines_unordered h₂ (fun v hv hc => absurd (Or.inl (hall v hv)) hc)
    (Or.inl (Nat.zero_le _)) (fun _ => 7) [] 60
  have hw : q.log.orderedWatermk = 1048528 := hcw₂.trans hcw
  have hsz : totalSize [t.written] = 52 := hte
  simp only [Nat.max_zero, hw, hrun, hsz, List.nil_append] at hfetch
  rw [if_neg (List.cons_ne_nil _ _)] at hfetch
  refine ⟨q, t, u, h₂, by simp [hslots₂], ?_, by simp [hslots₂], Or.inl huc, hueq, hfetch⟩
  unfold Slot.Straddles
  rw [htseq, hte]
  decide

/-! ### A half-written record is fetched -/

/-- A record that starts 48 bytes before the end of the ring and whose overflow has not been copied: its
last four bytes are read from the start of the ring. -/
theorem decodeFetched_half {m mr : Mem} {e : LogEntry} (he : e.size = 20) (hf : e.flags ≠ 0)
    (h : Holds m 1048528 (header e))
    (hmr : ∀ i < 1048580 - 1048528, mr (0 + i) = wrapView 1048576 m (1048528 + i)) :
    ∃ x : LogEntry, decodeFetched [] mr 1048528 1048580 = ([x, sentinel 1048580], 52) ∧
      x.data.getD 16 0 = m 0 := by
  have hhead : Holds mr (0 + 0) (header e) := by
    refine h.congr fun i hi => ?_
    rw [length_header] at hi
    unfold metaDataSize flagPos at hi
    rw [Nat.add_zero, hmr i (by omega), wrapView_add, Nat.mod_eq_of_lt (by omega)]
  have hsize : getSizeFromBuf mr (0 + 0) = 52 := by
    rw [getSizeFromBuf_of_holds hhead, getSize, he]
    rfl
  have hdec : deserializer default mr (0 + 0) =
      ({ e with data := readBytes mr (0 + 0 + metaDataSize) 20 }, 52) := by
    rw [deserializer_of_holds_header default hhead hf, he]
    rfl
  refine ⟨{ e with data := readBytes mr (0 + 0 + metaDataSize) 20 }, ?_, ?_⟩
  · unfold decodeFetched multiDeserializerMaxSize
    have hloop : multiDeserializerMaxSizeLoop mr 0 (1048580 - 1048528) 0 [] =
        ([{ e with data := readBytes mr (0 + 0 + metaDataSize) 20 }], 52) := by
      rw [multiDeserializerMaxSizeLoop, if_pos (by decide), if_neg (by decide), hsize,
        if_neg (by decide)]
      simp only [hdec]
      rw [if_neg (by decide), multiDeserializerMaxSizeLoop, if_neg (by decide)]
      rfl
    simp only [hloop]
    rfl
  · have hbyte := hmr 48 (by omega)
    rw [wrapView_add] at hbyte
    have hget : (readBytes mr (0 + 0 + metaDataSize) 20).getD 16 0 = mr (0 + 48) := by
      simp [readBytes, metaDataSize, flagPos]
    show (readBytes mr (0 + 0 + metaDataSize) 20).getD 16 0 = m 0
    rw [hget, hbyte]

/-- On a ring of one mebibyte, 20164 entries of 52 bytes have been appended, fetched and collected. The next one
starts 48 bytes before the end; its flag is raised, and its overflow is not copied yet. A fetch returns it with the
byte that the ring starts with in its data. -/
theorem exists_half_written : ∃ (s : Sys) (t : Slot) (e : LogEntry),
    Reach Start (Step .smallPrimary (StraddlersHidden .smallPrimary)) s ∧
      (∃ S, s.primary.slots = S ++ [t] ∧ ∀ u ∈ S, ¬ u.Straddles .smallPrimary) ∧
      s.primary.log.orderedWatermk = 1048528 ∧ t.seq = 1048528 ∧
      getFlagFromBuf s.primary.log.mem (t.seq % Config.smallPrimary.rgSize) = 1 ∧
      fetchUnorderedEntries Config.smallPrimary.rgSize s.primary.log (fun _ => 0) [] 0 0 =
        ([e, sentinel 1048580], 52) ∧
      e.data ≠ t.e.data := by
  obtain ⟨s, hs⟩ := exists_filled 20164 le_rfl
  have hseq : s.primary.log.sequencer = 1048528 := hs.sequencer
  have hrun := raiseFlag_run .smallPrimary s.primary (testEntry_admissible 20164) rfl (hs.room 20164)
  obtain ⟨l, hl⟩ : ∃ l, l = raiseFlag .smallPrimary (serialise .smallPrimary
      (reserve .smallPrimary s.primary.log (testEntry 20164))
      (stamp .smallPrimary s.primary.log.indexer (testEntry 20164)) s.primary.log.sequencer)
      s.primary.log.sequencer := ⟨_, rfl⟩
  rw [← hl] at hrun
  have hlq : l.sequencer = 1048580 := by
    rw [hl]
    show s.primary.log.sequencer + getSize (testEntry 20164) = 1048580
    rw [hseq, getSize_testEntry]
  have hlw : l.orderedWatermk = 1048528 := by
    rw [hl]
    exact hs.orderedWatermk
  have hl0 : l.mem 0 = 42 := by
    rw [hl, ← hs.first (by omega)]
    simp only [raiseFlag, serialise, reserve, hseq]
    rw [setFlag_zero, serializer_zero (by decide), setFlag_zero]
  have hreach := hs.reach.run (calls_run s.fetched hrun (by rw [hlq]; decide))
  have hC := (inv_of_reach hreach).contents
  have htq : (nextSlot s.primary 20164 .flagged).seq = 1048528 := hseq
  have hhold : Holds l.mem 1048528 (encode (nextSlot s.primary 20164 .flagged).written) := by
    have hshow := hC.shows (i := s.primary.slots.length) (t := nextSlot s.primary 20164 .flagged)
      (by simp [nextSlot]) (by rw [hlw, htq])
    have hmod : (nextSlot s.primary 20164 .flagged).seq % Config.smallPrimary.rgSize = 1048528 := by
      rw [htq]
      rfl
    exact hmod ▸ hshow
  obtain ⟨mr, hread, hmr⟩ := readSegments_eq (e := 1048580) (b := 1048528) l.mem (fun _ => 0)
    (by decide) (show 1048580 < 1048528 + Config.smallPrimary.rgSize by decide)
  obtain ⟨x, hx, hx0⟩ := decodeFetched_half (e := (nextSlot s.primary 20164 .flagged).written) rfl
    (by simp [Slot.written]) hhold.left hmr
  refine ⟨_, nextSlot s.primary 20164 .flagged, x, hreach, ⟨s.primary.slots, rfl, fun u hu => ?_⟩, hlw, htq, ?_, ?_,
    ?_⟩
  · -- the entries before it end where it starts
    obtain ⟨i, hi⟩ := List.mem_iff_getElem?.mp hu
    have hend := (inv_of_reach hs.reach).contents.tiled.end_le_sequencer hi
    have hpos := entrySize_pos u.e
    have hrg : Config.smallPrimary.rgSize = 1048576 := rfl
    unfold Slot.Straddles
    rw [hrg, Nat.mod_eq_of_lt (by omega)]
    omega
  · rw [htq]
    exact getFlagFromBuf_of_holds (hhold.left)
  · unfold fetchUnorderedEntries fetchBounds getUnorderedRange
    simp only [hlq, hlw]
    rw [if_neg (by decide)]
    simp only [Nat.max_zero, lt_irrefl, if_false, hread, hx]
  · intro heq
    have hdat : (nextSlot s.primary 20164 .flagged).e.data = (testEntry 20164).data := rfl
    rw [heq, hl0, hdat] at hx0
    revert hx0
    decide

/-- **A half-written record is fetched**, with data that was never appended. -/
theorem fetch_half_written : ∃ s, Reach Start (Step .smallPrimary fun _ => True) s ∧ s.Origin 0 ∧
    ∃ t ∈ s.primary.slots, ∃ e : LogEntry,
      t.seq = max s.primary.log.orderedWatermk 0 ∧
      fetchUnorderedEntries Config.smallPrimary.rgSize s.primary.log (fun _ => 0) [] 0 0 =
        ([e, sentinel 1048580], 52) ∧
      e ≠ t.written ∧ e.data ≠ t.e.data := by
  obtain ⟨s, t, e, hreach, ⟨S, hslots, -⟩, hw, hseq, -, hfetch, hdata⟩ := exists_half_written
  refine ⟨s, hreach.map id (fun _ h => h) (fun _ _ _ _ h => .single h.mono), Or.inl (Nat.zero_le _), t,
    by simp [hslots], e, ?_, hfetch, fun heq => hdata (by rw [heq]; rfl), hdata⟩
  rw [hw, hseq]
  rfl

/-- **No entry of flag zero straddles the end of the ring, and yet the fetch is wrong**: the straddling entry has its
flag, and the fetch returns other data for it. -/
theorem fetch_unrefined : ∃ p, Reach Init (RingStep .smallPrimary) p ∧
    p.log.sequencer < p.log.orderedWatermk + Config.smallPrimary.rgSize ∧
    (∀ u ∈ p.slots, u.Straddles .smallPrimary →
      getFlagFromBuf p.log.mem (u.seq % Config.smallPrimary.rgSize) = 1) ∧
    ∃ t ∈ p.slots, ∃ e : LogEntry, t.seq = p.log.orderedWatermk ∧
      fetchUnorderedEntries Config.smallPrimary.rgSize p.log (fun _ => 0) [] 0 0 = ([e, sentinel 1048580], 52) ∧
      e ≠ t.written := by
  obtain ⟨s, t, e, hreach, ⟨S, hslots, hS⟩, hw, hseq, hflag, hfetch, hdata⟩ := exists_half_written
  refine ⟨s.primary, ring_of_reach hreach, (inv_of_reach hreach).contents.occupancy, fun u hu hstr => ?_, t,
    by simp [hslots], e, hseq.trans hw.symm, hfetch, fun heq => hdata (by rw [heq]; rfl)⟩
  rw [hslots] at hu
  rcases List.mem_append.mp hu with hu | hu
  · exact absurd hstr (hS u hu)
  · exact List.mem_singleton.mp hu ▸ hflag

end LazyLog.DurLog.Snapshot
