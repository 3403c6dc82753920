import LazyLog.DurLog.Ring
import Mathlib.Data.List.TakeWhile

/-! # The consensus log's side of the primary (`dur_log/dur_log_flat_cli`)

The consensus log reads the primary's region remotely. `FetchUnorderedEntries` reads the two range words,
cuts the range down, reads the bytes of one or two segments of the ring into its own buffer `mr_` and
decodes them; each of these is a function here, so that other steps may come between the reads. A buffer
keeps whatever it held where nothing is read to, and the results hold for any such contents.

On a ring with `Contents`, where the entries that are not complete show the flag zero, a fetch returns the
longest run of complete entries that fits (`fetchUnorderedEntries_eq`). -/

namespace LazyLog.DurLog.FlatCli

open LazyLog.Lib.Bytes LazyLog.Lib.Circular LazyLog.Lib.Tiling LazyLog.Lib.Run
open LazyLog.Rpc.Entry LazyLog.Rpc.Multi
open LazyLog.DurLog.Flat LazyLog.DurLog.Ranges LazyLog.DurLog.Ring

/-! ### The functions -/

/-- `getUnorderedRange`: begin and end of the unordered range. -/
def getUnorderedRange (l : FlatLog) : ℕ × ℕ := (l.orderedWatermk, l.sequencer)

/-- The sequence numbers to read, for the range found; nothing if `from` is not below its end. -/
def fetchBounds (range : ℕ × ℕ) (frm maxFetchSize : ℕ) : Option (ℕ × ℕ) :=
  if range.2 ≤ frm then none
  else
    let beginSequence := max range.1 frm
    some (beginSequence,
      if 0 < maxFetchSize then min range.2 (beginSequence + maxFetchSize) else range.2)

theorem fetchBounds_some {range : ℕ × ℕ} {frm maxFetchSize b e : ℕ}
    (h : fetchBounds range frm maxFetchSize = some (b, e)) :
    frm < range.2 ∧ b = max range.1 frm ∧ e ≤ range.2 ∧ (b ≤ range.2 → b ≤ e) := by
  unfold fetchBounds at h
  by_cases hfrm : range.2 ≤ frm
  · rw [if_pos hfrm] at h
    cases h
  · rw [if_neg hfrm] at h
    cases h
    refine ⟨not_le.mp hfrm, rfl, ?_, ?_⟩
    · split_ifs <;> omega
    · intro hb
      split_ifs <;> omega

/-- The remote read of a range into the buffer `mr`: one segment, two segments if the range is wrapped,
and nothing if both ends have the same offset. -/
def readSegments (rgSize : ℕ) (mem mr : Mem) (beginSequence endSequence : ℕ) : Option Mem :=
  let beginOfst := beginSequence % rgSize
  let endOfst := endSequence % rgSize
  if beginOfst < endOfst then some (blit mr 0 mem beginOfst (endSequence - beginSequence))
  else if endOfst < beginOfst then
    some (blit (blit mr 0 mem beginOfst (rgSize - beginOfst)) (rgSize - beginOfst) mem 0 endOfst)
  else none

/-- The entry that passes the end sequence out of a fetch. -/
def sentinel (endSequence : ℕ) : LogEntry :=
  { (default : LogEntry) with clientSeq := UInt64.ofNat endSequence }

/-- The entries read are decoded and followed by the end sequence; the size returned is a `uint32_t`. -/
def decodeFetched (es : List LogEntry) (mr : Mem) (beginSequence endSequence : ℕ) :
    List LogEntry × ℕ :=
  let r := multiDeserializerMaxSize es mr 0 (endSequence - beginSequence)
  if r.2 = 0 then (r.1, 0) else (r.1 ++ [sentinel (beginSequence + r.2)], r.2 % 2 ^ 32)

/-- `FetchUnorderedEntries(es, from, max_fetch_size)` on a snapshot of the primary: the vector after it
and the size returned. -/
def fetchUnorderedEntries (rgSize : ℕ) (l : FlatLog) (mr : Mem) (es : List LogEntry)
    (frm maxFetchSize : ℕ) : List LogEntry × ℕ :=
  match fetchBounds (getUnorderedRange l) frm maxFetchSize with
  | none => (es, 0)
  | some (beginSequence, endSequence) =>
    match readSegments rgSize l.mem mr beginSequence endSequence with
    | none => (es, 0)
    | some mr => decodeFetched es mr beginSequence endSequence

/-- `maxSeqForClient[client_id]` is raised to the sequence number, in a `std::map`: a list sorted by the
client id. -/
def raiseMax : List ReqID → ReqID → List ReqID
  | [], r => [r]
  | (clientId, clientSeq) :: m, r =>
    if r.1 < clientId then r :: (clientId, clientSeq) :: m
    else if r.1 = clientId then (clientId, if clientSeq < r.2 then r.2 else clientSeq) :: m
    else (clientId, clientSeq) :: raiseMax m r

/-- `maxSeqForClient`, before the entry of the sentinel's client id is erased. -/
def maxSeqForClient (es : List LogEntry) : List ReqID := es.foldl (fun m e => raiseMax m e.reqId) []

/-- `ProcessFetchedEntries`: the index returned and the ids appended to `req_ids`. The vector ends with
the sentinel, and there is an entry before it. -/
def processFetchedEntries (isPrimary : Bool) (es : List LogEntry) (reqIds : List ReqID) :
    UInt64 × List ReqID :=
  let last := es.getD (es.length - 2) default
  (last.logIdx,
    if isPrimary then reqIds ++ [((es.getLastD default).clientSeq, 0), (last.logIdx + 1, 0)]
    else reqIds ++ (maxSeqForClient es).filter fun r => r.1 ≠ 0)

/-- `DeleteOrderedEntries` on the primary: the two watermark words are written. -/
def deleteOrderedEntries (s : State) (seqs : List ReqID) : State :=
  s.setWatermk (seqs.getD 0 default).1.toNat (seqs.getD 1 default).1.toNat

theorem mem_raiseMax {m : List ReqID} {r q : ReqID} (h : q ∈ raiseMax m r) : q ∈ m ∨ q = r := by
  induction m with
  | nil => exact Or.inr (List.mem_singleton.mp h)
  | cons p m ih =>
    obtain ⟨clientId, clientSeq⟩ := p
    unfold raiseMax at h
    split_ifs at h with h1 h2 h3
    · rcases List.mem_cons.mp h with rfl | h
      · exact Or.inr rfl
      · exact Or.inl h
    · rcases List.mem_cons.mp h with rfl | h
      · exact Or.inr (Prod.ext h2.symm rfl)
      · exact Or.inl (List.mem_cons_of_mem _ h)
    · exact Or.inl h
    · rcases List.mem_cons.mp h with rfl | h
      · exact Or.inl (List.mem_cons_self ..)
      · exact (ih h).imp (List.mem_cons_of_mem _) id

theorem processFetchedEntries_primary (es : List LogEntry) (x : LogEntry) (e : ℕ) :
    processFetchedEntries true (es ++ [x] ++ [sentinel e]) [] =
      (x.logIdx, [(UInt64.ofNat e, 0), (x.logIdx + 1, 0)]) := by
  have hx : (es ++ [x] ++ [sentinel e]).getD ((es ++ [x] ++ [sentinel e]).length - 2) default = x := by
    simp
  unfold processFetchedEntries
  simp only [hx, if_true, List.nil_append]
  simp [sentinel]

/-! ### Reading the ring -/

theorem readSegments_eq {rgSize b e : ℕ} (mem mr : Mem) (hbe : b < e) (he : e < b + rgSize) :
    ∃ mr', readSegments rgSize mem mr b e = some mr' ∧
      ∀ i < e - b, mr' (0 + i) = wrapView rgSize mem (b + i) := by
  obtain ⟨n, rfl⟩ := Nat.exists_eq_add_of_lt hbe
  have hmod := Nat.mod_lt b (show 0 < rgSize by omega)
  unfold readSegments
  by_cases hin : b % rgSize + (n + 1) < rgSize
  · -- one segment
    have hend : (b + n + 1) % rgSize = b % rgSize + (n + 1) := by
      rw [Nat.add_assoc]; exact add_mod_of_lt hin
    simp only [hend]
    rw [if_pos (by omega)]
    refine ⟨_, rfl, fun i hi => ?_⟩
    rw [blit_add hi, ← flatView_eq_wrapView mem (by omega), flatView_add]
  · -- the range reaches the end of the ring
    have hend : (b + n + 1) % rgSize = b % rgSize + (n + 1) - rgSize := by
      rw [Nat.add_assoc]; exact add_mod_of_ge (by omega) (not_lt.mp hin)
    simp only [hend]
    rw [if_neg (by omega), if_pos (by omega)]
    refine ⟨_, rfl, fun i hi => ?_⟩
    by_cases hi' : b % rgSize + i < rgSize
    · rw [blit_of_notMem (Or.inl (by omega)), blit_add (by omega), ← flatView_eq_wrapView mem hi', flatView_add]
    · obtain ⟨j, rfl⟩ := Nat.exists_eq_add_of_le (show rgSize - b % rgSize ≤ i by omega)
      rw [Nat.zero_add, blit_add (by omega), wrapView_add, add_mod_of_ge (by omega) (by omega)]
      congr 1
      omega

theorem readSegments_of_ge {rgSize b e x : ℕ} {mem mr mr' : Mem} (hbe : b ≤ e) (he : e < b + rgSize)
    (h : readSegments rgSize mem mr b e = some mr') (hx : e - b ≤ x) : mr' x = mr x := by
  obtain ⟨n, rfl⟩ := Nat.exists_eq_add_of_le hbe
  have hmod := Nat.mod_lt b (show 0 < rgSize by omega)
  unfold readSegments at h
  simp only at h
  split_ifs at h with h1 h2
  · cases h
    exact blit_of_notMem (Or.inr (by omega))
  · cases h
    have hin : rgSize ≤ b % rgSize + n := by
      by_contra hin
      rw [add_mod_of_lt (not_le.mp hin)] at h2
      omega
    have hend : (b + n) % rgSize = b % rgSize + n - rgSize := add_mod_of_ge (by omega) hin
    rw [blit_of_notMem (Or.inr (by omega)), blit_of_notMem (Or.inr (by omega))]

theorem length_decodeFetched_le (es : List LogEntry) (mr : Mem) (b e : ℕ) :
    metaDataSize * (decodeFetched es mr b e).1.length ≤ metaDataSize * (es.length + 1) + (e - b) := by
  have hle := length_multiDeserializerMaxSizeLoop_le mr 0 (e - b) 0 es
  unfold decodeFetched multiDeserializerMaxSize
  dsimp only
  split_ifs
  · rw [Nat.mul_succ]
    dsimp only
    omega
  · rw [List.length_append, List.length_singleton, Nat.mul_succ, Nat.mul_succ]
    omega

/-- **A fetch returns few entries**, whatever the bytes are that it reads: it reads less than a ring, and an entry
takes `metaDataSize` bytes at least. -/
theorem length_fetchUnorderedEntries_le {rgSize : ℕ} {l : FlatLog} (hocc : l.sequencer < l.orderedWatermk + rgSize)
    (mr : Mem) (es : List LogEntry) (frm maxFetchSize : ℕ) :
    metaDataSize * (fetchUnorderedEntries rgSize l mr es frm maxFetchSize).1.length ≤
      metaDataSize * (es.length + 1) + rgSize := by
  have hes : metaDataSize * es.length ≤ metaDataSize * (es.length + 1) + rgSize := by
    rw [Nat.mul_succ]
    omega
  unfold fetchUnorderedEntries
  split
  · exact hes
  · next b e hb =>
    obtain ⟨-, hmax, he, -⟩ := fetchBounds_some hb
    have hb' : b = max l.orderedWatermk frm := hmax
    have he' : e ≤ l.sequencer := he
    split
    · exact hes
    · next mr' hread =>
      have hle := length_decodeFetched_le es mr' b e
      rw [Nat.mul_succ] at hle ⊢
      omega

variable {c : Config} {s : State} {k : ℕ}

theorem readSegments_self (rgSize b : ℕ) (mem mr : Mem) : readSegments rgSize mem mr b b = none := by
  simp [readSegments]

theorem totalSize_completeRun_le (h : Tiled s) (k : ℕ) :
    pos entrySize s.entries k + totalSize (completeRun c s k) ≤ s.log.sequencer := by
  have hmap : totalSize (completeRun c s k) =
      totalSize (((s.slots.drop k).takeWhile fun t => t.Complete c).map Slot.e) := by
    simp only [totalSize, completeRun, List.map_map]
    rfl
  have hsub : totalSize (((s.slots.drop k).takeWhile fun t => t.Complete c).map Slot.e) ≤
      totalSize (s.entries.drop k) := by
    unfold totalSize State.entries
    rw [← List.map_drop]
    exact ((List.takeWhile_sublist _).map _ |>.map _).sum_le_sum fun _ _ => Nat.zero_le _
  have hall : s.log.sequencer = pos entrySize s.entries k + totalSize (s.entries.drop k) := by
    have hadd := pos_add (f := entrySize) (l := s.entries) k s.entries.length
    have htail : pos entrySize (s.entries.drop k) s.entries.length = totalSize (s.entries.drop k) :=
      pos_of_length_le (by simp)
    rw [pos_of_length_le (by omega), htail] at hadd
    exact h.sequencer.trans hadd
  omega

/-- **The bytes of a range, decoded**: if entries `R` stand from `b` on in the memory the bytes come from,
followed by the end of the range or by flag zero, the longest run of them that fits is found. -/
theorem decodeFetched_of_holdsAll {v mr : Mem} {b e : ℕ} {R : List LogEntry}
    (hmr : ∀ i < e - b, mr (0 + i) = v (b + i)) (hR : ∀ x ∈ R, Readable x) (hv : HoldsAll v b R)
    (hend : b + totalSize R < e → getFlagFromBuf v (b + totalSize R) = 0) (hlt : e - b < 2 ^ 32)
    (es : List LogEntry) :
    decodeFetched es mr b e =
      if takeFit (e - b) R = [] then (es, 0)
      else (es ++ takeFit (e - b) R ++ [sentinel (b + totalSize (takeFit (e - b) R))],
        totalSize (takeFit (e - b) R)) := by
  have hdec := multiDeserializerMaxSizeLoop_eq hmr R 0 es hR hv fun h => hend (by omega)
  have hle := totalSize_takeFit_le (e - b) R
  rw [Nat.sub_zero, Nat.zero_add] at hdec
  unfold decodeFetched multiDeserializerMaxSize
  simp only [hdec]
  by_cases hnil : takeFit (e - b) R = []
  · rw [if_pos hnil, hnil]
    simp
  · have hpos : totalSize (takeFit (e - b) R) ≠ 0 := by
      obtain ⟨x, xs, hx⟩ := List.exists_cons_of_ne_nil hnil
      have := entrySize_pos x
      rw [hx, totalSize_cons]
      omega
    rw [if_neg hpos, if_neg hnil, Nat.mod_eq_of_lt (by omega)]

/-! ### The fetch -/

theorem dropWhile_eq_drop {α : Type*} {p : α → Bool} : ∀ {l : List α} {k : ℕ},
    (∀ j a, j < k → l[j]? = some a → p a = true) → (∀ a, l[k]? = some a → p a = false) →
      l.dropWhile p = l.drop k
  | [], k, _, _ => by simp
  | a :: l, 0, _, h0 => by
    rw [List.dropWhile_cons_of_neg (by simp [h0 a rfl]), List.drop_zero]
  | a :: l, k + 1, hlt, h0 => by
    rw [List.dropWhile_cons_of_pos (hlt 0 a (by omega) rfl), List.drop_succ_cons]
    exact dropWhile_eq_drop (fun j b hj hb => hlt (j + 1) b (by omega) (by simpa using hb))
      fun b hb => h0 b (by simpa using hb)

/-- The longest run of consecutive complete entries from the sequence number `b` on that takes at most
`maxFetchSize` bytes, or any number of bytes if this is zero. -/
def longestRun (c : Config) (s : State) (b maxFetchSize : ℕ) : List LogEntry :=
  let run := ((s.slots.dropWhile fun t => t.seq < b).takeWhile fun t => t.Complete c).map Slot.written
  if maxFetchSize = 0 then run else takeFit maxFetchSize run

theorem longestRun_pos (h : Tiled s) (hk : k ≤ s.slots.length) (maxFetchSize : ℕ) :
    longestRun c s (pos entrySize s.entries k) maxFetchSize =
      if maxFetchSize = 0 then completeRun c s k else takeFit maxFetchSize (completeRun c s k) := by
  have hlen : s.entries.length = s.slots.length := by simp [State.entries]
  have hdrop : (s.slots.dropWhile fun t => t.seq < pos entrySize s.entries k) = s.slots.drop k := by
    refine dropWhile_eq_drop (fun j t hj ht => ?_) fun t ht => ?_
    · have hlt := pos_strictMono (f := entrySize) (fun e _ => entrySize_pos e)
        (show k ≤ s.entries.length by omega) hj
      rw [decide_eq_true_eq, h.seq ht]
      exact hlt
    · rw [decide_eq_false_iff_not, h.seq ht]
      exact lt_irrefl _
  unfold longestRun completeRun
  rw [hdrop]

theorem longestRun_of_slots (h : Tiled s) {S L : List Slot} {t : Slot} (hs : s.slots = S ++ t :: L)
    (maxFetchSize : ℕ) :
    longestRun c s t.seq maxFetchSize =
      if maxFetchSize = 0 then ((t :: L).takeWhile fun t => t.Complete c).map Slot.written
      else takeFit maxFetchSize (((t :: L).takeWhile fun t => t.Complete c).map Slot.written) := by
  have ht : s.slots[S.length]? = some t := by
    rw [hs]
    simp
  rw [h.seq ht, longestRun_pos h (by rw [hs, List.length_append]; omega), completeRun, hs, List.drop_left]

theorem longestRun_singleton (h : Tiled s) {S L : List Slot} {t : Slot} (hs : s.slots = S ++ t :: L)
    (ht : t.Complete c) (hL : ∀ u ∈ L.head?, ¬ u.Complete c) : longestRun c s t.seq 0 = [t.written] := by
  have hrest : (L.takeWhile fun t => t.Complete c) = [] := by
    cases L with
    | nil => rfl
    | cons u L => exact List.takeWhile_cons_of_neg (by simpa using hL u rfl)
  rw [longestRun_of_slots h hs, if_pos rfl, List.takeWhile_cons_of_pos (by simpa using ht), hrest]
  rfl

theorem pos_add_totalSize (s : State) (k n : ℕ) :
    pos entrySize s.entries k + totalSize (((s.slots.drop k).take n).map Slot.written) =
      pos entrySize s.entries (k + n) := by
  rw [pos_add]
  simp only [totalSize, pos, State.entries, ← List.map_drop, ← List.map_take, List.map_map]
  rfl

/-- The run is a segment of the slots, all of them complete, and it ends at an entry boundary. -/
theorem longestRun_slots (h : Tiled s) (hk : k ≤ s.slots.length) (maxFetchSize : ℕ) :
    ∃ n, k + n ≤ s.slots.length ∧
      longestRun c s (pos entrySize s.entries k) maxFetchSize =
        ((s.slots.drop k).take n).map Slot.written ∧
      pos entrySize s.entries k +
          totalSize (longestRun c s (pos entrySize s.entries k) maxFetchSize) =
        pos entrySize s.entries (k + n) ∧
      ∀ (i : ℕ) (t : Slot), k ≤ i → i < k + n → s.slots[i]? = some t → t.Complete c := by
  obtain ⟨L, hL⟩ : ∃ L, L = (s.slots.drop k).takeWhile fun t => t.Complete c := ⟨_, rfl⟩
  have hpre : longestRun c s (pos entrySize s.entries k) maxFetchSize <+: L.map Slot.written := by
    rw [longestRun_pos h hk, hL]
    split_ifs
    · exact List.prefix_rfl
    · exact takeFit_isPrefix _ _
  generalize longestRun c s (pos entrySize s.entries k) maxFetchSize = run at hpre ⊢
  have hLpre : L = (s.slots.drop k).take L.length := by
    rw [hL]; exact List.prefix_iff_eq_take.mp (List.takeWhile_prefix _)
  have hn : run.length ≤ L.length := by simpa using hpre.length_le
  have hLlen : L.length ≤ s.slots.length - k := by
    rw [hLpre]; simp
  have hrun : run = ((s.slots.drop k).take run.length).map Slot.written := by
    conv_lhs => rw [List.prefix_iff_eq_take.mp hpre, ← List.map_take, hLpre, List.take_take]
    rw [min_eq_left hn]
  refine ⟨run.length, by omega, hrun, ?_, fun i t hki hi ht => ?_⟩
  · conv_lhs => rw [hrun]
    exact pos_add_totalSize s k run.length
  · have hmem : t ∈ L := by
      rw [hLpre]
      refine List.mem_of_getElem? (i := i - k) ?_
      rw [List.getElem?_take, if_pos (by omega), List.getElem?_drop, Nat.add_sub_cancel' hki]
      exact ht
    rw [hL] at hmem
    simpa using List.mem_takeWhile_imp hmem

theorem settled_longestRun (hT : Tiled s) {b : ℕ} (hs : Settled c s b) (maxFetchSize : ℕ) :
    Settled c s (b + totalSize (longestRun c s b maxFetchSize)) := by
  obtain ⟨k, hk, rfl, hc⟩ := hs
  obtain ⟨n, hn, -, hpos, hcn⟩ := longestRun_slots (c := c) hT hk maxFetchSize
  refine ⟨k + n, hn, hpos, fun i t hi ht => ?_⟩
  by_cases hik : i < k
  · exact hc i t hik ht
  · exact hcn i t (by omega) hi ht

theorem boundary_max (h : Contents c s) {frm : ℕ}
    (hfrm : frm ≤ s.log.orderedWatermk ∨ ∃ j ≤ s.slots.length, frm = pos entrySize s.entries j) :
    ∃ k ≤ s.slots.length, max s.log.orderedWatermk frm = pos entrySize s.entries k := by
  obtain ⟨k, hk, hwk, -⟩ := h.settled
  rcases le_total frm s.log.orderedWatermk with hle | hle
  · exact ⟨k, hk, by rw [max_eq_left hle, hwk]⟩
  · rcases hfrm with hfrm | ⟨j, hj, hfj⟩
    · exact ⟨k, hk, by rw [max_eq_left hfrm, hwk]⟩
    · exact ⟨j, hj, by rw [max_eq_right hle, hfj]⟩

theorem longestRun_nil (h : Tiled s) {k : ℕ} (hk : k ≤ s.slots.length)
    (hend : s.log.sequencer ≤ pos entrySize s.entries k) (maxFetchSize : ℕ) :
    longestRun c s (pos entrySize s.entries k) maxFetchSize = [] := by
  have htot := totalSize_completeRun_le (c := c) h k
  have hcr : completeRun c s k = [] := by
    rcases hcase : completeRun c s k with - | ⟨x, xs⟩
    · rfl
    · have := entrySize_pos x
      rw [hcase, totalSize_cons] at htot
      omega
  rw [longestRun_pos h hk, hcr]
  simp [takeFit]

theorem takeFit_eq_longestRun (h : Tiled s) {k : ℕ} (hk : k ≤ s.slots.length) (maxFetchSize : ℕ) :
    takeFit ((if 0 < maxFetchSize then min s.log.sequencer (pos entrySize s.entries k + maxFetchSize)
        else s.log.sequencer) - pos entrySize s.entries k) (completeRun c s k) =
      longestRun c s (pos entrySize s.entries k) maxFetchSize := by
  have htot := totalSize_completeRun_le (c := c) h k
  rw [longestRun_pos h hk]
  by_cases hF : maxFetchSize = 0
  · rw [if_pos hF, if_neg (by omega), takeFit_of_le (by omega)]
  · rw [if_neg hF, if_pos (by omega),
      show min s.log.sequencer (pos entrySize s.entries k + maxFetchSize) - pos entrySize s.entries k =
        min (s.log.sequencer - pos entrySize s.entries k) maxFetchSize by omega,
      takeFit_min _ (by omega)]

/-- **What a fetch returns** on a ring whose incomplete entries are hidden. -/
theorem fetchUnorderedEntries_eq (h : Contents c s) (hz : Hidden c s) {frm : ℕ}
    (hfrm : frm ≤ s.log.orderedWatermk ∨ ∃ j ≤ s.slots.length, frm = pos entrySize s.entries j)
    (mr : Mem) (es : List LogEntry) (maxFetchSize : ℕ) :
    fetchUnorderedEntries c.rgSize s.log mr es frm maxFetchSize =
      if longestRun c s (max s.log.orderedWatermk frm) maxFetchSize = [] then (es, 0)
      else (es ++ longestRun c s (max s.log.orderedWatermk frm) maxFetchSize ++
          [sentinel (max s.log.orderedWatermk frm +
            totalSize (longestRun c s (max s.log.orderedWatermk frm) maxFetchSize))],
        totalSize (longestRun c s (max s.log.orderedWatermk frm) maxFetchSize)) := by
  obtain ⟨k, hk, hmax⟩ := boundary_max h hfrm
  have htot := totalSize_completeRun_le (c := c) h.tiled k
  have hw : s.log.orderedWatermk ≤ pos entrySize s.entries k := hmax ▸ le_max_left _ _
  have hf : frm ≤ pos entrySize s.entries k := hmax ▸ le_max_right _ _
  have hocc := h.occupancy
  rw [hmax]
  by_cases hend : s.log.sequencer ≤ pos entrySize s.entries k
  · -- nothing lies at or above the begin
    rw [if_pos (longestRun_nil h.tiled hk hend maxFetchSize)]
    unfold fetchUnorderedEntries fetchBounds getUnorderedRange
    simp only [hmax]
    by_cases hfs : s.log.sequencer ≤ frm
    · rw [if_pos hfs]
    · have hb : pos entrySize s.entries k = s.log.sequencer := by omega
      have he : (if 0 < maxFetchSize then min s.log.sequencer (s.log.sequencer + maxFetchSize)
          else s.log.sequencer) = s.log.sequencer := by
        split_ifs <;> omega
      rw [if_neg hfs, hb]
      simp only [he, readSegments_self]
  · have hfs : ¬ s.log.sequencer ≤ frm := by omega
    obtain ⟨e, hedef⟩ : ∃ e, e = if 0 < maxFetchSize then
        min s.log.sequencer (pos entrySize s.entries k + maxFetchSize) else s.log.sequencer :=
      ⟨_, rfl⟩
    have hes : e ≤ s.log.sequencer := by rw [hedef]; split_ifs <;> omega
    have hbe : pos entrySize s.entries k < e := by rw [hedef]; split_ifs <;> omega
    obtain ⟨mr', hread, hmr⟩ := readSegments_eq s.log.mem mr hbe
      (show e < pos entrySize s.entries k + c.rgSize by omega)
    have hfit : takeFit (e - pos entrySize s.entries k) (completeRun c s k) =
        longestRun c s (pos entrySize s.entries k) maxFetchSize := by
      rw [hedef]
      exact takeFit_eq_longestRun h.tiled hk maxFetchSize
    obtain ⟨h1, h2, h3⟩ := h.holdsAll_run hz (s.slots.drop k) k rfl hw
    have hlt := c.rgSize_lt
    rw [← hfit, ← decodeFetched_of_holdsAll (R := completeRun c s k) hmr h1 h2
      (fun hlt => h3 (hlt.trans_le hes)) (by omega) es]
    unfold fetchUnorderedEntries fetchBounds getUnorderedRange
    simp only [hmax]
    rw [if_neg hfs]
    simp only [← hedef, hread]

end LazyLog.DurLog.FlatCli
