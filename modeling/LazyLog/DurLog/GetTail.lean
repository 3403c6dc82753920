import LazyLog.DurLog.Snapshot

/-! # The two tails (`ERPCDurLogTransport::GetNumDurEntryHandler`)

`LazyLogClient::GetTail` asks the primary for the number of durable and of ordered entries. The handler loads the one
after the other, the durable number first, while calls of `AppendEntry` go on and the consensus log writes the
watermarks.

Neither number ever decreases. But an entry that is appended and collected between the two loads counts as ordered and
not as durable: the pair is well-formed exactly if the watermark at the second load is not beyond the sequencer at the
first one (`Uncollected`). -/

namespace LazyLog.DurLog.GetTail

open LazyLog.Lib.Bytes LazyLog.Lib.Tiling LazyLog.Lib.Run LazyLog.Rpc.Entry LazyLog.Rpc.Multi
open LazyLog.DurLog.Flat LazyLog.DurLog.Ranges LazyLog.DurLog.Ring LazyLog.DurLog.FlatCli
open LazyLog.DurLog.Snapshot hiding Step Start Sys

/-! ### The functions -/

/-- `DurabilityLogFlat::GetNumDurEntry`. -/
def getNumDurEntry (l : FlatLog) : ℕ := l.indexer

/-- `DurabilityLogFlat::GetNumOrderedEntry`. -/
def getNumOrderedEntry (l : FlatLog) : ℕ := l.orderedIdxWatermk

/-- `GetNumDurEntryHandler` up to the first load: the response. -/
def loadDur (l : FlatLog) (resp : Mem) : Mem := writeBytes resp 0 (leBytes 8 (getNumDurEntry l))

/-- The rest of `GetNumDurEntryHandler`. The view does not change. -/
def loadOrdered (c : Config) (l : FlatLog) (resp : Mem) : Mem :=
  writeBytes (writeBytes resp 8 (leBytes 8 (getNumOrderedEntry l))) 16 (leBytes 2 c.view.toNat)

/-- What `GetTail` returns. -/
structure Tail where
  durable : ℕ
  ordered : ℕ
  view : ℕ
  deriving DecidableEq

/-- `DurabilityLogERPCCli::GetNumDurEntry`, on the response. -/
def readTail (resp : Mem) : Tail := ⟨load resp 0 8, load resp 8 8, load resp 16 2⟩

/-! ### The system -/

/-- A call of `GetNumDurEntryHandler` between its two loads: the response, and where the sequencer was at the first
load, which is a history. -/
structure Handler where
  resp : Mem
  sequencer : ℕ

/-- The primary with the consensus log, and the clients: the handler of a client's call, and what its calls of
`GetTail` have returned. -/
structure Sys (κ : Type*) where
  server : Snapshot.Sys
  handler : κ → Option Handler
  tails : κ → List Tail

variable {κ : Type*}

/-- Everything has just been started. -/
def Start (x : Sys κ) : Prop := Snapshot.Start x.server ∧ x.handler = (fun _ => none) ∧ x.tails = fun _ => []

/-- One step. A fetch finds the straddling records hidden; at the second load `G` holds of the primary and of the
sequencer at the first load. -/
inductive Step [DecidableEq κ] (c : Config) (G : State → ℕ → Prop) : Sys κ → Sys κ → Prop
  | server {x : Sys κ} {v : Snapshot.Sys} (h : Snapshot.Step c (StraddlersHidden c) x.server v) :
    Step c G x { x with server := v }
  | getTail {x : Sys κ} (k : κ) (buf : Mem) (hk : x.handler k = none) :
    Step c G x { x with
      handler := Function.update x.handler k
        (some ⟨loadDur x.server.primary.log buf, x.server.primary.log.sequencer⟩) }
  | respond {x : Sys κ} {r : Handler} (k : κ) (hk : x.handler k = some r) (hG : G x.server.primary r.sequencer) :
    Step c G x
      { x with
        handler := Function.update x.handler k none
        tails := Function.update x.tails k (x.tails k ++ [readTail (loadOrdered c x.server.primary.log r.resp)]) }

/-! ### What the tails are for -/

/-- **The range from the ordered to the durable tail is one.** -/
def WellFormed (x : Sys κ) : Prop := ∀ k, ∀ t ∈ x.tails k, t.ordered ≤ t.durable

/-- No component is less. -/
structure Tail.Le (t t' : Tail) : Prop where
  durable : t.durable ≤ t'.durable
  ordered : t.ordered ≤ t'.ordered
  view : t.view ≤ t'.view

/-- **The tails of a client do not go back.** -/
def NonDecreasing (x : Sys κ) : Prop := ∀ k, (x.tails k).Pairwise Tail.Le

/-- Nothing is collected of what came after the first load: the watermark is not beyond the sequencer that there was
then. -/
def Uncollected (p : State) (sequencer : ℕ) : Prop := p.log.orderedWatermk ≤ sequencer

/-! ### The watermarks of the primary -/

variable {c : Config} {p p' : State} {s s' : Snapshot.Sys}

/-- `w` is where entry `i` starts. -/
structure Mark (p : State) (w i : ℕ) : Prop where
  le : i ≤ p.slots.length
  eq : w = pos entrySize p.entries i

/-- The index that the collection of a batch writes. -/
def idxOf (es : List LogEntry) : ℕ := ((processFetchedEntries true es []).2.getD 1 default).1.toNat

/-- The watermarks agree, and so do those that the collections of the batches write. -/
structure Marks (s : Snapshot.Sys) : Prop where
  current : Mark s.primary s.primary.log.orderedWatermk s.primary.log.orderedIdxWatermk
  fetched : ∀ es ∈ s.fetched, Mark s.primary (endOf es) (idxOf es)

theorem Mark.call {w i : ℕ} (h : Mark p w i) (hs : CallStep c p p') : Mark p' w i := by
  cases hs with
  | reserve e he hf hocc =>
    refine ⟨?_, ?_⟩
    · simp only [State.reserve, List.length_append]
      exact Nat.le_add_right_of_le h.le
    · rw [entries_reserve, pos_append_of_le (by simpa [State.entries] using h.le)]
      exact h.eq
  | proceed hstep hi =>
    obtain ⟨t, st, l, ht, rfl, -⟩ := appendStep_complete hstep hi
    refine ⟨by simpa [State.put] using h.le, ?_⟩
    rw [entries_put ht]
    exact h.eq

theorem callStep_log (hs : CallStep c p p') : p.log.indexer ≤ p'.log.indexer ∧
    p'.log.orderedWatermk = p.log.orderedWatermk ∧ p'.log.orderedIdxWatermk = p.log.orderedIdxWatermk := by
  cases hs with
  | reserve e he hf hocc => exact ⟨Nat.le_succ _, rfl, rfl⟩
  | proceed hstep hi =>
    obtain ⟨t, st, l, -, rfl, -, -, hw, hidx, hwi⟩ := appendStep_complete hstep hi
    exact ⟨hidx.ge, hw, hwi⟩

theorem Mark.index_le_iff {w w' i j : ℕ} (h : Mark p w i) (h' : Mark p w' j) : i ≤ j ↔ w ≤ w' := by
  constructor
  · intro hle
    rw [h.eq, h'.eq]
    exact pos_mono hle
  · intro hle
    by_contra hlt
    have hpos := pos_strictMono (f := entrySize) (fun e _ => entrySize_pos e)
      (show i ≤ p.entries.length by simpa [State.entries] using h.le) (Nat.lt_of_not_le hlt)
    rw [← h.eq, ← h'.eq] at hpos
    omega

theorem mark_sequencer (hT : Tiled p) : Mark p p.log.sequencer p.log.indexer := by
  refine ⟨hT.indexer.le, ?_⟩
  rw [hT.sequencer, pos_of_length_le]
  · rfl
  · rw [hT.indexer]
    simp [State.entries]

theorem mark_of_run (hT : Tiled p) (hlt : p.log.sequencer < 2 ^ 64) {k n : ℕ} (hn : k + (n + 1) ≤ p.slots.length) :
    Mark p (endOf (((p.slots.drop k).take (n + 1)).map Slot.written ++
        [sentinel (pos entrySize p.entries (k + (n + 1)))]))
      (idxOf (((p.slots.drop k).take (n + 1)).map Slot.written ++
        [sentinel (pos entrySize p.entries (k + (n + 1)))])) := by
  have hpos : pos entrySize p.entries (k + (n + 1)) < 2 ^ 64 := by
    have hle := pos_le_total (f := entrySize) (l := p.entries) (k + (n + 1))
    have htot : p.log.sequencer = (p.entries.map entrySize).sum := hT.sequencer
    omega
  have hlen := hT.length_lt hlt
  -- the last entry of the run
  obtain ⟨t, ht⟩ : ∃ t, p.slots[k + n]? = some t := ⟨_, List.getElem?_eq_getElem (by omega)⟩
  have hrun : ((p.slots.drop k).take (n + 1)).map Slot.written =
      ((p.slots.drop k).take n).map Slot.written ++ [t.written] := by
    rw [List.take_add_one, List.getElem?_drop, ht, List.map_append]
    rfl
  have hidx : t.written.logIdx = UInt64.ofNat (k + n) := (hT.idx ht).2
  have hword : (UInt64.ofNat (k + n) + 1).toNat = k + (n + 1) := by
    have hone : (1 : UInt64).toNat = 1 := rfl
    rw [UInt64.toNat_add, UInt64.toNat_ofNat', hone]
    omega
  have hi : idxOf (((p.slots.drop k).take (n + 1)).map Slot.written ++
      [sentinel (pos entrySize p.entries (k + (n + 1)))]) = k + (n + 1) := by
    unfold idxOf
    rw [hrun, processFetchedEntries_primary, hidx]
    exact hword
  rw [hi, endOf_sentinel _ hpos]
  exact ⟨hn, rfl⟩

theorem Marks.fetch (h : Marks s) (hI : Inv c s) (hs : StraddlersHidden c s.primary) {frm : ℕ}
    (hfrm : s.Origin frm) (mr : Mem) (maxFetchSize : ℕ) : Marks (s.fetch c mr frm maxFetchSize) := by
  have hT := hI.contents.tiled
  obtain ⟨k, hk, hpos, -⟩ := hI.settled_max hfrm
  obtain ⟨n, hn, hrun, hend, -⟩ := longestRun_slots (c := c) hT hk maxFetchSize
  unfold Sys.fetch
  simp only [hI.fetch_eq hs hfrm mr maxFetchSize, hpos, hend]
  by_cases hnil : longestRun c s.primary (pos entrySize s.primary.entries k) maxFetchSize = []
  · rw [if_pos hnil]
    exact h
  rw [if_neg hnil]
  simp only
  split_ifs with h0
  · exact h
  refine ⟨h.current, fun es hes => ?_⟩
  rcases List.mem_cons.mp hes with rfl | hes
  · obtain ⟨m, rfl⟩ : ∃ m, n = m + 1 := by
      refine Nat.exists_eq_succ_of_ne_zero fun hz => hnil ?_
      rw [hrun, hz, List.take_zero]
      rfl
    rw [hrun]
    exact mark_of_run hT hI.seq_lt hn
  · exact h.fetched es hes

theorem Marks.step (h : Marks s) (hI : Inv c s) (hs : Snapshot.Step c (StraddlersHidden c) s s') : Marks s' := by
  cases hs with
  | call hcall hlt =>
    obtain ⟨-, hw, hwi⟩ := callStep_log hcall
    refine ⟨?_, fun es hes => (h.fetched es hes).call hcall⟩
    simp only [hw, hwi]
    exact h.current.call hcall
  | fetch mr frm maxFetchSize hfrm hP => exact h.fetch hI hP hfrm mr maxFetchSize
  | collect hes hle =>
    have hmark := h.fetched _ hes
    refine ⟨⟨hmark.le, hmark.eq⟩, fun es' hes' => ?_⟩
    have hmark' := h.fetched es' hes'
    exact ⟨hmark'.le, hmark'.eq⟩

/-- **Neither number ever decreases.** -/
theorem Marks.mono (h : Marks s) (hs : Snapshot.Step c (StraddlersHidden c) s s') :
    s.primary.log.indexer ≤ s'.primary.log.indexer ∧
      s.primary.log.orderedIdxWatermk ≤ s'.primary.log.orderedIdxWatermk := by
  cases hs with
  | call hcall hlt =>
    obtain ⟨hidx, -, hwi⟩ := callStep_log hcall
    exact ⟨hidx, hwi.ge⟩
  | fetch mr frm maxFetchSize hfrm hP =>
    rw [fetch_primary]
    exact ⟨Nat.le_refl _, Nat.le_refl _⟩
  | collect hes hle => exact ⟨Nat.le_refl _, (h.current.index_le_iff (h.fetched _ hes)).mpr hle⟩

/-! ### The response -/

theorem load_loadDur (l : FlatLog) (resp : Mem) : load (loadDur l resp) 0 8 = getNumDurEntry l % 2 ^ 64 :=
  load_writeBytes resp 0 8 _

/-- **The client gets what the handler has loaded.** -/
theorem readTail_loadOrdered (c : Config) (l : FlatLog) (resp : Mem) :
    readTail (loadOrdered c l resp) = ⟨load resp 0 8, getNumOrderedEntry l % 2 ^ 64, c.view.toNat⟩ := by
  have hview : c.view.toNat % 2 ^ 16 = c.view.toNat := Nat.mod_eq_of_lt c.view.toNat_lt
  unfold readTail loadOrdered
  rw [load_writeBytes_of_disjoint _ (Or.inr (by decide)), load_writeBytes_of_disjoint _ (Or.inr (by decide)),
    load_writeBytes_of_disjoint _ (Or.inr (by decide)), load_writeBytes, load_writeBytes]
  exact congrArg (Tail.mk _ _) hview

/-! ### The invariant -/

variable {G : State → ℕ → Prop} {x x' : Sys κ}

/-- **The invariant**: the tails delivered are not above the present ones, and those of a client come one after the
other. -/
structure TailInv (c : Config) (x : Sys κ) : Prop where
  server : Inv c x.server
  marks : Marks x.server
  pending : ∀ {k r}, x.handler k = some r → Mark x.server.primary r.sequencer (load r.resp 0 8) ∧
    ∀ t ∈ x.tails k, t.durable ≤ load r.resp 0 8
  delivered : ∀ {k}, ∀ t ∈ x.tails k, t.durable ≤ x.server.primary.log.indexer ∧
    t.ordered ≤ x.server.primary.log.orderedIdxWatermk ∧ t.view = c.view.toNat
  sorted : NonDecreasing x

theorem TailInv.lt (h : TailInv c x) : x.server.primary.log.indexer < 2 ^ 64 ∧
    x.server.primary.log.orderedIdxWatermk < 2 ^ 64 := by
  have hlen := h.server.contents.tiled.length_lt h.server.seq_lt
  have hidx := h.server.contents.tiled.indexer
  have hle := h.marks.current.le
  omega

theorem TailInv.readTail_eq (h : TailInv c x) (resp : Mem) : readTail (loadOrdered c x.server.primary.log resp) =
    ⟨load resp 0 8, x.server.primary.log.orderedIdxWatermk, c.view.toNat⟩ := by
  have hword : getNumOrderedEntry x.server.primary.log % 2 ^ 64 = x.server.primary.log.orderedIdxWatermk :=
    Nat.mod_eq_of_lt h.lt.2
  rw [readTail_loadOrdered, hword]

theorem TailInv.start (h : Start x) : TailInv c x := by
  obtain ⟨hserver, hhandler, htails⟩ := h
  refine ⟨inv_of_reach (.start hserver), ⟨⟨?_, ?_⟩, ?_⟩, fun {k r} hk => ?_, fun {k} t ht => ?_, fun k => ?_⟩
  · rw [hserver.1.1.orderedIdxWatermk]
    exact Nat.zero_le _
  · rw [hserver.1.1.orderedWatermk, hserver.1.1.orderedIdxWatermk, pos_zero]
  · rw [hserver.2]
    exact nofun
  · rw [hhandler] at hk
    cases hk
  · rw [htails] at ht
    cases ht
  · rw [htails]
    exact .nil

theorem Mark.server {w i : ℕ} (h : Mark s.primary w i) (hs : Snapshot.Step c (StraddlersHidden c) s s') :
    Mark s'.primary w i := by
  cases hs with
  | call hcall hlt => exact h.call hcall
  | fetch mr frm maxFetchSize hfrm hP =>
    rw [fetch_primary]
    exact h
  | collect hes hle => exact ⟨h.le, h.eq⟩

theorem TailInv.serverStep (h : TailInv c x) {v : Snapshot.Sys}
    (hs : Snapshot.Step c (StraddlersHidden c) x.server v) : TailInv c { x with server := v } := by
  obtain ⟨hdur, hord⟩ := h.marks.mono hs
  refine ⟨h.server.step hs, h.marks.step h.server hs, fun {k r} hk => ?_, fun {k} t ht => ?_, h.sorted⟩
  · obtain ⟨h1, h2⟩ := h.pending hk
    exact ⟨h1.server hs, h2⟩
  · obtain ⟨h1, h2, h3⟩ := h.delivered t ht
    exact ⟨h1.trans hdur, h2.trans hord, h3⟩

theorem TailInv.getTail [DecidableEq κ] (h : TailInv c x) (k : κ) (buf : Mem) :
    TailInv c { x with
      handler := Function.update x.handler k
        (some ⟨loadDur x.server.primary.log buf, x.server.primary.log.sequencer⟩) } := by
  refine ⟨h.server, h.marks, fun {k' r} hk => ?_, h.delivered, h.sorted⟩
  dsimp only at hk
  rcases eq_or_ne k' k with rfl | hne
  · rw [Function.update_self] at hk
    obtain rfl := Option.some.inj hk
    have hload : load (loadDur x.server.primary.log buf) 0 8 = x.server.primary.log.indexer :=
      (load_loadDur _ _).trans (Nat.mod_eq_of_lt h.lt.1)
    rw [hload]
    exact ⟨mark_sequencer h.server.contents.tiled, fun t ht => (h.delivered t ht).1⟩
  · rw [Function.update_of_ne hne] at hk
    exact h.pending hk

theorem TailInv.respond [DecidableEq κ] (h : TailInv c x) {k : κ} {r : Handler} (hk : x.handler k = some r) :
    TailInv c { x with
      handler := Function.update x.handler k none
      tails := Function.update x.tails k (x.tails k ++ [readTail (loadOrdered c x.server.primary.log r.resp)]) } := by
  obtain ⟨hmark, hbefore⟩ := h.pending hk
  have hdur : load r.resp 0 8 ≤ x.server.primary.log.indexer := by
    rw [h.server.contents.tiled.indexer]
    exact hmark.le
  have htail := h.readTail_eq r.resp
  refine ⟨h.server, h.marks, fun {k' r'} hk' => ?_, fun {k'} t ht => ?_, fun k' => ?_⟩
  · dsimp only at hk' ⊢
    rcases eq_or_ne k' k with rfl | hne
    · rw [Function.update_self] at hk'
      cases hk'
    · rw [Function.update_of_ne hne] at hk' ⊢
      exact h.pending hk'
  · dsimp only at ht ⊢
    rcases eq_or_ne k' k with rfl | hne
    · rw [Function.update_self, htail] at ht
      rcases List.mem_append.mp ht with ht | ht
      · exact h.delivered t ht
      · obtain rfl := List.mem_singleton.mp ht
        exact ⟨hdur, Nat.le_refl _, rfl⟩
    · rw [Function.update_of_ne hne] at ht
      exact h.delivered t ht
  · dsimp only
    rcases eq_or_ne k' k with rfl | hne
    · rw [Function.update_self, htail]
      refine List.pairwise_append.mpr ⟨h.sorted k', List.pairwise_singleton _ _, fun t ht t' ht' => ?_⟩
      obtain rfl := List.mem_singleton.mp ht'
      obtain ⟨-, hord, hview⟩ := h.delivered t ht
      exact ⟨hbefore t ht, hord, hview.le⟩
    · rw [Function.update_of_ne hne]
      exact h.sorted k'

theorem tailInv_of_reach [DecidableEq κ] (h : Reach Start (Step c G) x) : TailInv c x := by
  refine h.invariant (fun _ => TailInv.start) fun x x' _ hinv hs => ?_
  cases hs with
  | server hserver => exact hinv.serverStep hserver
  | getTail k buf hk => exact hinv.getTail k buf
  | respond k hk hG => exact hinv.respond hk

/-! ### The pair -/

/-- **When the pair is well-formed.** Both numbers count the entries below a position. -/
theorem TailInv.ordered_le_iff (h : TailInv c x) {k : κ} {r : Handler} (hk : x.handler k = some r) :
    x.server.primary.log.orderedIdxWatermk ≤ load r.resp 0 8 ↔ Uncollected x.server.primary r.sequencer :=
  h.marks.current.index_le_iff (h.pending hk).1

theorem wellFormed_of_reach [DecidableEq κ] (hG : ∀ p q, G p q → Uncollected p q)
    (h : Reach Start (Step c G) x) : WellFormed x := by
  refine h.invariant (P := WellFormed) (fun x hx k t ht => ?_) fun x x' hr hwf hs => ?_
  · rw [hx.2.2] at ht
    cases ht
  have hinv := tailInv_of_reach hr
  cases hs with
  | server hserver => exact hwf
  | getTail k buf hk => exact hwf
  | @respond r k hk hg =>
    intro k' t ht
    dsimp only at ht
    rcases eq_or_ne k' k with rfl | hne
    · rw [Function.update_self, hinv.readTail_eq] at ht
      rcases List.mem_append.mp ht with ht | ht
      · exact hwf k' t ht
      · obtain rfl := List.mem_singleton.mp ht
        exact (hinv.ordered_le_iff hk).mpr (hG _ _ hg)
    · rw [Function.update_of_ne hne] at ht
      exact hwf k' t ht

/-- **The tails that `GetTail` returns.** In every run those of a client do not go back. A pair is well-formed exactly
if the watermark at the second load is not beyond the sequencer at the first; so all pairs are in a run in which this
holds at every second load. -/
theorem get_tail_consistent [DecidableEq κ] (h : Reach Start (Step c G) x) :
    NonDecreasing x ∧ ((∀ p q, G p q → Uncollected p q) → WellFormed x) ∧
      ∀ k r, x.handler k = some r →
        ((readTail (loadOrdered c x.server.primary.log r.resp)).ordered ≤
          (readTail (loadOrdered c x.server.primary.log r.resp)).durable ↔
            Uncollected x.server.primary r.sequencer) := by
  have hinv := tailInv_of_reach h
  refine ⟨hinv.sorted, fun hG => wellFormed_of_reach hG h, fun k r hk => ?_⟩
  rw [hinv.readTail_eq]
  exact hinv.ordered_le_iff hk

/-! ### Two runs -/

/-- A primary and a client between two calls of `GetTail`. -/
def idle (s : Snapshot.Sys) (tails : List Tail) : Sys Unit := ⟨s, fun _ => none, fun _ => tails⟩

theorem server_run {κ : Type*} [DecidableEq κ] {s s' : Snapshot.Sys} (handler : κ → Option Handler)
    (tails : κ → List Tail) (h : Relation.ReflTransGen (Snapshot.Step c (StraddlersHidden c)) s s') :
    Relation.ReflTransGen (Step c G) ⟨s, handler, tails⟩ ⟨s', handler, tails⟩ :=
  h.lift (fun s => (⟨s, handler, tails⟩ : Sys κ)) fun _ _ hs => .server hs

/-- A call of `GetTail`, with steps of the primary between its two loads. -/
theorem reach_getTail {tails : List Tail} (h : Reach Start (Step c G) (idle s tails))
    (hrun : Relation.ReflTransGen (Snapshot.Step c (StraddlersHidden c)) s s')
    (hG : G s'.primary s.primary.log.sequencer) :
    Reach Start (Step c G) (idle s' (tails ++
      [⟨s.primary.log.indexer, s'.primary.log.orderedIdxWatermk, c.view.toNat⟩])) := by
  have hlt : s.primary.log.indexer < 2 ^ 64 := (tailInv_of_reach h).lt.1
  have hload := (h.next (.getTail () (fun _ => 0) rfl)).run (server_run _ _ hrun)
  have htail := (tailInv_of_reach hload).readTail_eq (loadDur s.primary.log fun _ => 0)
  have hdone := hload.next (.respond () rfl hG)
  rw [load_loadDur, getNumDurEntry, Nat.mod_eq_of_lt hlt] at htail
  convert hdone using 2
  · rfl
  · rfl
  · exact funext fun _ => congrArg (fun t => tails ++ [t]) htail.symm

theorem tail_of_filled {n : ℕ} (h : Filled n s) (hm : Marks s) :
    s.primary.log.indexer = n ∧ s.primary.log.orderedIdxWatermk = n := by
  have hT := (inv_of_reach h.reach).contents.tiled
  have hend := mark_sequencer hT
  have hidx : s.primary.log.indexer = n := hT.indexer.trans h.length
  have hw : s.primary.log.orderedWatermk = s.primary.log.sequencer := h.orderedWatermk.trans h.sequencer.symm
  have h1 := (hm.current.index_le_iff hend).mpr hw.le
  have h2 := (hend.index_le_iff hm.current).mpr hw.ge
  omega

theorem tail_of_filled_append {n : ℕ} (h : Filled n s) (hn : n ≤ 20164) (hm : Marks s) :
    (Ring.append .smallPrimary s.primary (testEntry n)).log.indexer = n + 1 ∧
      (Ring.append .smallPrimary s.primary (testEntry n)).log.orderedIdxWatermk = n := by
  have hidx : (Ring.append .smallPrimary s.primary (testEntry n)).log.indexer = _ :=
    (inv_of_reach (h.append_reach hn)).contents.tiled.indexer
  refine ⟨hidx.trans ?_, ?_⟩
  · simp [Ring.append, h.length]
  · rw [(append_counters _ _ _).2.2]
    exact (tail_of_filled h hm).2

/-- **Two calls.** One entry has been collected and a second one appended, which is collected between the two loads of
the first call. Before the next call a third entry is appended. -/
theorem get_tail_consistent_two : ∃ x : Sys Unit, Reach Start (Step .smallPrimary Uncollected) x ∧
    x.tails () = [⟨2, 2, 0⟩, ⟨3, 2, 0⟩] ∧ WellFormed x ∧ NonDecreasing x := by
  obtain ⟨s₁, hs₁⟩ := exists_filled 1 (by decide)
  obtain ⟨s₂, hs₂, hcollect⟩ := hs₁.collect_run (by decide)
  obtain ⟨s₀, hstart, hrun⟩ := hs₁.reach
  have h0 : Reach Start (Step .smallPrimary Uncollected) (idle s₀ []) := .start ⟨hstart, rfl, rfl⟩
  have h1 : Reach Start (Step .smallPrimary Uncollected) (idle s₁ []) := h0.run (server_run _ _ hrun)
  have h2 : Reach Start (Step .smallPrimary Uncollected) (idle ⟨_, s₁.fetched⟩ []) :=
    h1.run (server_run _ _ (hs₁.append_run (by decide)))
  have h3 := reach_getTail h2 hcollect (by
    unfold Uncollected
    rw [(append_counters _ _ _).1, hs₁.sequencer, hs₂.orderedWatermk, getSize_testEntry])
  have hm₁ := (tailInv_of_reach h1).marks
  have hm₂ := (tailInv_of_reach h3).marks
  rw [(tail_of_filled hs₂ hm₂).2, (tail_of_filled_append hs₁ (by decide) hm₁).1] at h3
  have h4 : Reach Start (Step .smallPrimary Uncollected) (idle ⟨_, s₂.fetched⟩ _) :=
    h3.run (server_run _ _ (hs₂.append_run (by decide)))
  have h5 := reach_getTail h4 .refl (by
    unfold Uncollected
    rw [(append_counters _ _ _).1, (append_counters _ _ _).2.1, hs₂.sequencer, hs₂.orderedWatermk]
    exact Nat.le_add_right _ _)
  obtain ⟨hidx, hord⟩ := tail_of_filled_append hs₂ (by decide) hm₂
  rw [hidx, hord] at h5
  obtain ⟨hsorted, hwf, -⟩ := get_tail_consistent h5
  exact ⟨_, h5, rfl, hwf fun _ _ h => h, hsorted⟩

/-- **The first entry is appended, fetched and collected between the two loads**: the ordered tail is 1, and the
durable tail 0. -/
theorem get_tail_inconsistent : ∃ x : Sys Unit, Reach Start (Step .smallPrimary fun _ _ => True) x ∧
    x.tails () = [⟨0, 1, 0⟩] ∧ ¬ WellFormed x := by
  obtain ⟨s, hs⟩ := exists_filled 1 (by decide)
  obtain ⟨s₀, hstart, hrun⟩ := hs.reach
  have h0 : Reach Start (Step .smallPrimary fun _ _ => True) (idle s₀ []) := .start ⟨hstart, rfl, rfl⟩
  have h1 := reach_getTail h0 hrun trivial
  rw [(tail_of_filled hs (tailInv_of_reach h1).marks).2, hstart.1.1.indexer] at h1
  exact ⟨_, h1, rfl, fun hwf => absurd (hwf () _ (List.mem_singleton.mpr rfl)) (by decide)⟩

end LazyLog.DurLog.GetTail
