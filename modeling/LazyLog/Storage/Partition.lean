import LazyLog.Lib.Windows
import LazyLog.Storage.NaiveBackend

/-! # Striping is a partition (`NaiveBackend::AppendBatch`)

`AppendBatch` with its loops on 64-bit words, as the requests that it issues between two calls of
`waitForAllShards`. As long as the index after the last stripe does not wrap, the loops go through the windows
of the batch and issue the requests of each (`appendBatch_eq`), which deal the window out to the shards; the
rounds of the storage model are the same (`appendBatch_rounds`).

`striping_is_a_partition`: the requests of a batch hold every index of it once, an index at its own shard. -/

namespace LazyLog.Storage.Partition

open LazyLog.Lib.Stride LazyLog.Lib.Windows LazyLog.Rpc.Entry
open LazyLog.Storage.ShardServer LazyLog.Storage.NaiveBackend

/-! ### The loops -/

/-- The inner loop: a request for each shard, until `stripe_from > to`. -/
def shardLoop (shardNum start frm upTo : UInt64) : List Request :=
  ((List.range shardNum.toNat).takeWhile fun s => frm + UInt64.ofNat s ≤ upTo).map fun s =>
    let stripeFrom := frm + UInt64.ofNat s
    ⟨(stripeFrom % shardNum).toNat, (stripeFrom - start).toNat, (upTo - start).toNat⟩

/-- The outer loop, from `i` on: the requests of each round. A round ends with `waitForAllShards(tokens)` and
`tokens.clear()`. -/
def stripeLoop (big shardNum start stop last : UInt64) : ℕ → UInt64 → Option (List (List Request))
  | 0, _ => none
  | fuel + 1, i =>
    if i ≤ last then
      let frm := if i < start then start else i
      let upTo := if i + big - 1 > stop then stop else i + big - 1
      (stripeLoop big shardNum start stop last fuel (i + big)).map fun rounds =>
        shardLoop shardNum start frm upTo :: rounds
    else some []

/-- `NaiveBackend::AppendBatch`: the requests of each round, and the value returned. -/
def appendBatch (stripeUnitSize shardNum : UInt64) (es : List LogEntry) (fuel : ℕ) :
    Option (List (List Request) × UInt64) :=
  let start := (es.headD default).logIdx
  let last := (es.getLastD default).logIdx
  let stop := if 1 < es.length ∧ last = 0 then (es.getD (es.length - 2) default).logIdx else last
  let big := stripeUnitSize * shardNum
  (stripeLoop big shardNum start stop (stop / big * big) fuel (start / big * big)).map fun rounds =>
    (rounds, stop)

/-- The indices of the entries that a request takes from the batch, as `MultiSerializer` selects them. -/
def Request.indices (es : List LogEntry) (shardNum : ℕ) (r : Request) : List ℕ :=
  (stride es shardNum r.frm (r.upTo + 1)).map fun e => e.logIdx.toNat

/-! ### What the loops issue -/

/-- The requests of a window. -/
def requestsOf (n start : ℕ) (w : ℕ × ℕ) : List Request :=
  (List.range (min n (w.2 + 1 - w.1))).map fun s => ⟨(w.1 + s) % n, w.1 + s - start, w.2 - start⟩

variable {big shardNum start stop last i : UInt64}

theorem toNat_add_ofNat {a : UInt64} {s : ℕ} (h : a.toNat + s < 2 ^ 64) :
    (a + UInt64.ofNat s).toNat = a.toNat + s := by
  rw [UInt64.toNat_add, UInt64.toNat_ofNat', Nat.mod_eq_of_lt (a := s) (by omega), Nat.mod_eq_of_lt h]

/-- **The inner loop** on a window within the batch. -/
theorem shardLoop_eq {frm upTo : UInt64} (hf : start ≤ frm) (hle : frm ≤ upTo)
    (hov : upTo.toNat + shardNum.toNat < 2 ^ 64) :
    shardLoop shardNum start frm upTo =
      requestsOf shardNum.toNat start.toNat (frm.toNat, upTo.toNat) := by
  have hle' := UInt64.le_iff_toNat_le.mp hle
  have htake : (List.range shardNum.toNat).takeWhile (fun s => frm + UInt64.ofNat s ≤ upTo) =
      List.range (min shardNum.toNat (upTo.toNat + 1 - frm.toNat)) := by
    refine takeWhile_range fun s hs => ?_
    rw [decide_eq_true_iff, UInt64.le_iff_toNat_le, toNat_add_ofNat (by omega)]
    omega
  unfold shardLoop requestsOf
  rw [htake]
  refine List.map_congr_left fun s hs => ?_
  have hs' := List.mem_range.mp hs
  have hadd : (frm + UInt64.ofNat s).toNat = frm.toNat + s := toNat_add_ofNat (by omega)
  have hsub : start ≤ frm + UInt64.ofNat s := by
    rw [UInt64.le_iff_toNat_le, hadd]
    exact (UInt64.le_iff_toNat_le.mp hf).trans (Nat.le_add_right _ _)
  simp only [UInt64.toNat_mod, UInt64.toNat_sub_of_le _ _ hsub, hadd,
    UInt64.toNat_sub_of_le _ _ (UInt64.le_trans hf hle)]

/-- **The outer loop** goes through the windows from `i` on. The last index it computes is that of the stripe
after `stop`. -/
theorem stripeLoop_eq (hbig : 0 < big.toNat) (hnum : shardNum.toNat ≤ big.toNat) (hle : start ≤ stop)
    (hov : stop.toNat + big.toNat < 2 ^ 64) : ∀ (fuel : ℕ) (i : UInt64),
      i.toNat ≤ stop.toNat + big.toNat → start.toNat < i.toNat + big.toNat →
      stop.toNat / big.toNat * big.toNat < i.toNat + fuel * big.toNat →
      stripeLoop big shardNum start stop (stop / big * big) (fuel + 1) i =
        some ((windowsFrom big.toNat start.toNat stop.toNat i.toNat).map
          (requestsOf shardNum.toNat start.toNat))
  | fuel, i, hi, hstart, hfuel => by
    have hdiv := Nat.div_mul_le_self stop.toNat big.toNat
    have hlast : (stop / big * big).toNat = stop.toNat / big.toNat * big.toNat := by
      rw [UInt64.toNat_mul, UInt64.toNat_div, Nat.mod_eq_of_lt (by omega)]
    have hle' := UInt64.le_iff_toNat_le.mp hle
    rw [stripeLoop]
    by_cases hgo : i ≤ stop / big * big
    · have hgo' := UInt64.le_iff_toNat_le.mp hgo
      rw [hlast] at hgo'
      obtain ⟨n, rfl⟩ : ∃ n, fuel = n + 1 := by
        refine ⟨fuel - 1, ?_⟩
        rcases Nat.eq_zero_or_pos fuel with rfl | hpos
        · omega
        · omega
      have hnext : (i + big).toNat = i.toNat + big.toNat := by
        rw [UInt64.toNat_add, Nat.mod_eq_of_lt (by omega)]
      have hend : (i + big - 1).toNat = i.toNat + big.toNat - 1 := by
        rw [UInt64.toNat_sub_of_le _ _ (by rw [UInt64.le_iff_toNat_le, hnext]; show 1 ≤ _; omega), hnext]
        rfl
      have hfrm : (if i < start then start else i).toNat = max i.toNat start.toNat := by
        split_ifs with h <;> rw [UInt64.lt_iff_toNat_lt] at h <;> omega
      have hup : (if i + big - 1 > stop then stop else i + big - 1).toNat =
          min (i.toNat + big.toNat - 1) stop.toNat := by
        split_ifs with h
        · have := UInt64.lt_iff_toNat_lt.mp h
          omega
        · have h' : ¬ stop.toNat < (i + big - 1).toNat := fun hc => h (UInt64.lt_iff_toNat_lt.mpr hc)
          omega
      have hrest := stripeLoop_eq hbig hnum hle hov n (i + big) (by omega) (by omega)
        (by rw [hnext]; rw [Nat.succ_mul] at hfuel; omega)
      rw [if_pos hgo]
      simp only
      rw [hrest, windowsFrom_cons hbig hgo', Option.map_some, List.map_cons, hnext,
        shardLoop_eq (by rw [UInt64.le_iff_toNat_le, hfrm]; omega)
          (by rw [UInt64.le_iff_toNat_le, hfrm, hup]; omega) (by rw [hup]; omega), hfrm, hup]
    · have hgo' : ¬ i.toNat ≤ stop.toNat / big.toNat * big.toNat := by
        rw [← hlast]
        exact fun hc => hgo (UInt64.le_iff_toNat_le.mpr hc)
      rw [if_neg hgo, windowsFrom_of_lt hbig (by omega)]
      rfl

/-! ### A batch -/

/-- The vector `es` has the entries `real`, of consecutive indices from `start` on, and possibly one more of
index zero at its end. -/
structure Consecutive (es real : List LogEntry) (start : ℕ) : Prop where
  eq : es = real ∨ ∃ x, x.logIdx = 0 ∧ es = real ++ [x]
  ne_nil : real ≠ []
  indexed : ∀ (j : ℕ) (e : LogEntry), real[j]? = some e → e.logIdx.toNat = start + j

section Batch
variable {es real : List LogEntry} {n : ℕ}

theorem Consecutive.logIdx {j : ℕ} (h : Consecutive es real n) (hj : j < real.length) :
    (es.getD j default).logIdx.toNat = n + j := by
  have hreal := h.indexed j real[j] (List.getElem?_eq_getElem hj)
  rcases h.eq with rfl | ⟨x, -, rfl⟩
  · rw [List.getD_eq_getElem _ _ hj, hreal]
  · rw [List.getD_append _ _ _ _ hj, List.getD_eq_getElem _ _ hj, hreal]

theorem Consecutive.start_eq (h : Consecutive es real n) : (es.headD default).logIdx.toNat = n := by
  have h0 := h.logIdx (List.length_pos_iff.mpr h.ne_nil)
  rcases es with _ | ⟨e, es⟩
  · rcases h.eq with rfl | ⟨x, -, heq⟩
    · exact absurd rfl h.ne_nil
    · simp at heq
  · exact h0

/-- `end_idx` is the index of the last entry, with or without the entry after it. -/
theorem Consecutive.stop_eq (h : Consecutive es real n) :
    (if 1 < es.length ∧ (es.getLastD default).logIdx = 0 then (es.getD (es.length - 2) default).logIdx
      else (es.getLastD default).logIdx).toNat = n + (real.length - 1) := by
  have hpos := List.length_pos_iff.mpr h.ne_nil
  have hlast := h.logIdx (show real.length - 1 < real.length by omega)
  rcases h.eq with rfl | ⟨x, hx, rfl⟩
  · have hgetLast : es.getLastD default = es.getD (es.length - 1) default := by
      rw [List.getLastD_eq_getLast?, List.getLast?_eq_getElem?, List.getD_eq_getElem?_getD]
    rw [hgetLast, if_neg, hlast]
    rintro ⟨h1, h2⟩
    rw [h2] at hlast
    have : (0 : UInt64).toNat = 0 := rfl
    omega
  · have hgetLast : (real ++ [x]).getLastD default = x := by simp
    have hlen : (real ++ [x]).length - 2 = real.length - 1 := by simp
    rw [hgetLast, if_pos ⟨by simp; omega, hx⟩, hlen, hlast]

end Batch

/-- **What `AppendBatch` issues**: the requests of the windows of the batch. -/
theorem appendBatch_eq {stripeUnitSize : UInt64} {es real : List LogEntry} {n : ℕ}
    (h : Consecutive es real n) (hstripe : 1 ≤ stripeUnitSize) (hshard : 1 ≤ shardNum)
    (hov : n + (real.length - 1) + stripeUnitSize.toNat * shardNum.toNat < 2 ^ 64) {fuel : ℕ}
    (hfuel : n + real.length < fuel) :
    ∃ r : UInt64, r.toNat = n + (real.length - 1) ∧ appendBatch stripeUnitSize shardNum es fuel =
      some ((windows (stripeUnitSize.toNat * shardNum.toNat) n (n + (real.length - 1))).map
        (requestsOf shardNum.toNat n), r) := by
  have hstart := h.start_eq
  have hstop := h.stop_eq
  have hpos := List.length_pos_iff.mpr h.ne_nil
  have h1 : 1 ≤ stripeUnitSize.toNat := UInt64.le_iff_toNat_le.mp hstripe
  have h2 : 1 ≤ shardNum.toNat := UInt64.le_iff_toNat_le.mp hshard
  have hbig : (stripeUnitSize * shardNum).toNat = stripeUnitSize.toNat * shardNum.toNat := by
    rw [UInt64.toNat_mul, Nat.mod_eq_of_lt (by omega)]
  have hle := Nat.le_mul_of_pos_left shardNum.toNat h1
  unfold appendBatch
  simp only
  generalize (es.headD default).logIdx = start at hstart ⊢
  generalize (if 1 < es.length ∧ (es.getLastD default).logIdx = 0 then
    (es.getD (es.length - 2) default).logIdx else (es.getLastD default).logIdx) = stop at hstop ⊢
  refine ⟨stop, hstop, ?_⟩
  rw [← hbig] at hov hle ⊢
  rw [← hstop] at hov ⊢
  subst hstart
  generalize stripeUnitSize * shardNum = big at hov hle ⊢
  have hdiv := Nat.div_mul_le_self start.toNat big.toNat
  have hfirst : (start / big * big).toNat = start.toNat / big.toNat * big.toNat := by
    rw [UInt64.toNat_mul, UInt64.toNat_div, Nat.mod_eq_of_lt (by omega)]
  have hlt := Nat.lt_div_mul_add (a := start.toNat) (b := big.toNat) (by omega)
  obtain ⟨fuel, rfl⟩ : ∃ m, fuel = m + 1 := ⟨fuel - 1, by omega⟩
  have hend := Nat.div_mul_le_self stop.toNat big.toNat
  have hmul := Nat.le_mul_of_pos_right fuel (show 0 < big.toNat by omega)
  rw [stripeLoop_eq (by omega) hle (UInt64.le_iff_toNat_le.mpr (by omega)) hov fuel _ (by omega) (by omega)
    (by omega), hfirst]
  rfl

/-- The rounds of the storage model are those that the loops go through. -/
theorem appendBatch_rounds {k : Striping} {es real : List LogEntry} {n : ℕ} (h : Consecutive es real n)
    (hov : n + (real.length - 1) + k.big < 2 ^ 64) {fuel : ℕ} (hfuel : n + real.length < fuel) :
    ∃ r, appendBatch (UInt64.ofNat k.stripeUnitSize) (UInt64.ofNat k.shardNum) es fuel =
      some ((rounds k n (n + (real.length - 1))).map (requests k n), r) := by
  have h1 : (UInt64.ofNat k.stripeUnitSize).toNat = k.stripeUnitSize := by
    rw [UInt64.toNat_ofNat', Nat.mod_eq_of_lt (k.stripe_lt.trans (by decide))]
  have h2 : (UInt64.ofNat k.shardNum).toNat = k.shardNum := by
    rw [UInt64.toNat_ofNat', Nat.mod_eq_of_lt (k.shard_lt.trans (by decide))]
  have hreq : requests k n = requestsOf k.shardNum n := by
    funext w
    unfold requests requestsOf
    rw [takeWhile_range (m := w.2 + 1 - w.1) fun s _ => by simp; omega]
  obtain ⟨r, -, hr⟩ := @appendBatch_eq (UInt64.ofNat k.shardNum) (UInt64.ofNat k.stripeUnitSize) es real n h
    (by rw [UInt64.le_iff_toNat_le, h1]; exact k.stripe_pos)
    (by rw [UInt64.le_iff_toNat_le, h2]; exact k.shard_pos) (by rw [h1, h2]; exact hov) fuel hfuel
  rw [h1, h2] at hr
  exact ⟨r, by rw [rounds_eq_windows, hreq]; exact hr⟩

/-! ### The partition -/

/-- **What the requests of a batch are to be**, between the indices `start` and `stop`: `rounds` are the
requests between the calls of `waitForAllShards`, `idxs` the indices of the entries of a request. -/
structure Striped (big shardNum start stop : ℕ) (idxs : Request → List ℕ) (rounds : List (List Request)) :
    Prop where
  once : (rounds.flatten.flatMap idxs).Perm (List.range' start (stop + 1 - start))
  shard : ∀ r ∈ rounds.flatten, ∀ x ∈ idxs r, r.shardId = x % shardNum
  stripe : ∀ r ∈ rounds.flatten, ∃ b, big ∣ b ∧ ∀ x ∈ idxs r, b ≤ x ∧ x < b + big
  ascends : ∀ r ∈ rounds.flatten, (idxs r).IsChain fun x y => y = x + shardNum
  ordered : rounds.flatten.Pairwise fun r r' => r.shardId = r'.shardId →
    ∀ x ∈ idxs r, ∀ y ∈ idxs r', x < y
  distinct : ∀ round ∈ rounds, (round.map Request.shardId).Nodup
  tokens : ∀ round ∈ rounds, round.length ≤ shardNum

section Windows
variable {es real : List LogEntry} {n m b : ℕ} {w : ℕ × ℕ} {ws : List (ℕ × ℕ)} {r : Request}

theorem Consecutive.indices_request {s : ℕ} (h : Consecutive es real n) (hm : 0 < m) (hf : n ≤ w.1)
    (hle : w.1 ≤ w.2) (ht : w.2 < n + real.length) :
    Request.indices es m ⟨(w.1 + s) % m, w.1 + s - n, w.2 - n⟩ = indices m (w.1 + s) (w.2 + 1) := by
  have hshift : indices m (w.1 + s) (w.2 + 1) =
      (indices m (w.1 + s - n) (w.2 - n + 1)).map fun j => n + j := by
    rw [map_add_indices]
    congr 1 <;> omega
  unfold Request.indices
  rw [stride_eq_map_indices, List.map_map, hshift]
  refine List.map_congr_left fun j hj => h.logIdx ?_
  have hlt : j < w.2 - n + 1 := ((mem_indices hm).mp hj).2.1
  omega

theorem Consecutive.map_indices (h : Consecutive es real n) (hm : 0 < m) (hf : n ≤ w.1) (hle : w.1 ≤ w.2)
    (ht : w.2 < n + real.length) : (requestsOf m n w).map (Request.indices es m) = deal m w := by
  unfold requestsOf deal
  rw [List.map_map]
  exact List.map_congr_left fun s _ => h.indices_request hm hf hle ht

theorem nodup_shardId : ((requestsOf m n w).map Request.shardId).Nodup := by
  unfold requestsOf
  rw [List.map_map]
  refine List.Nodup.map_on (fun s hs s' hs' heq => ?_) List.nodup_range
  have hlt := List.mem_range.mp hs
  have hlt' := List.mem_range.mp hs'
  have hmod : s % m = s' % m := Nat.ModEq.add_left_cancel' w.1 heq
  rwa [Nat.mod_eq_of_lt (by omega), Nat.mod_eq_of_lt (by omega)] at hmod

theorem length_requestsOf_le : (requestsOf m n w).length ≤ m := by
  unfold requestsOf
  rw [List.length_map, List.length_range]
  exact min_le_left _ _

theorem Consecutive.mem_flatten (h : Consecutive es real n) (hm : 0 < m)
    (hc : Cover b n ws (n + real.length)) (hr : r ∈ (ws.map (requestsOf m n)).flatten) :
    ∃ w ∈ ws, w.1 / b = w.2 / b ∧ ∃ s, r.shardId = (w.1 + s) % m ∧
      Request.indices es m r = indices m (w.1 + s) (w.2 + 1) := by
  obtain ⟨round, hround, hr⟩ := List.mem_flatten.mp hr
  obtain ⟨w, hw, rfl⟩ := List.mem_map.mp hround
  obtain ⟨s, -, rfl⟩ := List.mem_map.mp hr
  obtain ⟨hf, hle, hdiv, ht⟩ := hc.mem hw
  exact ⟨w, hw, hdiv, s, rfl, h.indices_request hm hf hle ht⟩

theorem mem_indices_of_mem {x : ℕ} (h : Consecutive es real n) (hm : 0 < m) (hf : n ≤ w.1)
    (hle : w.1 ≤ w.2) (ht : w.2 < n + real.length) (hr : r ∈ requestsOf m n w)
    (hx : x ∈ Request.indices es m r) : w.1 ≤ x ∧ x ≤ w.2 := by
  rw [← mem_flatten_deal hm, ← h.map_indices hm hf hle ht]
  exact List.mem_flatten.mpr ⟨_, List.mem_map_of_mem hr, hx⟩

/-- **The requests of the windows** are as they are to be. -/
theorem Consecutive.striped (h : Consecutive es real n) (hm : 0 < m) (hb : 0 < b)
    (hc : Cover b n ws (n + real.length)) :
    Striped b m n (n + (real.length - 1)) (Request.indices es m) (ws.map (requestsOf m n)) := by
  have hpos := List.length_pos_iff.mpr h.ne_nil
  refine ⟨?_, ?_, ?_, ?_, ?_, ?_, ?_⟩
  · have hdeal : (ws.map (requestsOf m n)).flatten.map (Request.indices es m) = ws.flatMap (deal m) := by
      rw [List.map_flatten, List.map_map, List.flatMap_def]
      congr 1
      refine List.map_congr_left fun w hw => ?_
      obtain ⟨hf, hle, -, ht⟩ := hc.mem hw
      exact h.map_indices hm hf hle ht
    rw [List.flatMap_def, hdeal, show n + (real.length - 1) + 1 = n + real.length by omega]
    exact hc.perm_deal hm
  · intro r hr x hx
    obtain ⟨w, -, -, s, hid, hidx⟩ := h.mem_flatten hm hc hr
    rw [hidx] at hx
    rw [hid, ((mem_indices hm).mp hx).2.2]
  · intro r hr
    obtain ⟨w, -, hdiv, s, -, hidx⟩ := h.mem_flatten hm hc hr
    refine ⟨w.1 / b * b, Nat.dvd_mul_left _ _, fun x hx => ?_⟩
    rw [hidx] at hx
    obtain ⟨h1, h2, -⟩ := (mem_indices hm).mp hx
    have h3 := Nat.div_mul_le_self w.1 b
    have h4 := Nat.lt_div_mul_add (a := w.2) hb
    rw [← hdiv] at h4
    exact ⟨by omega, by omega⟩
  · intro r hr
    obtain ⟨w, -, -, s, -, hidx⟩ := h.mem_flatten hm hc hr
    rw [hidx]
    exact isChain_indices _ _ _
  · rw [List.pairwise_flatten]
    constructor
    · -- in one round the shards differ
      intro round hround
      obtain ⟨w, -, rfl⟩ := List.mem_map.mp hround
      have hnodup := nodup_shardId (n := n) (m := m) (w := w)
      rw [List.Nodup, List.pairwise_map] at hnodup
      exact hnodup.imp fun hne heq => absurd heq hne
    · -- a later round has larger indices
      rw [List.pairwise_map]
      refine hc.pairwise.imp_of_mem fun {w w'} hw hw' hlt r hr r' hr' _ x hx y hy => ?_
      obtain ⟨hf, hle, -, ht⟩ := hc.mem hw
      obtain ⟨hf', hle', -, ht'⟩ := hc.mem hw'
      have h1 := mem_indices_of_mem h hm hf hle ht hr hx
      have h2 := mem_indices_of_mem h hm hf' hle' ht' hr' hy
      omega
  · intro round hround
    obtain ⟨w, -, rfl⟩ := List.mem_map.mp hround
    exact nodup_shardId
  · intro round hround
    obtain ⟨w, -, rfl⟩ := List.mem_map.mp hround
    exact length_requestsOf_le

end Windows

/-- **Striping is a partition**: for a batch of consecutive indices, `AppendBatch` ends, returns the last of
them, and its requests are as they are to be. -/
theorem striping_is_a_partition (stripeUnitSize shardNum : UInt64) (hstripe : 1 ≤ stripeUnitSize)
    (hshard : 1 ≤ shardNum) (es real : List LogEntry) (start : ℕ) (h : Consecutive es real start)
    (hov : start + (real.length - 1) + stripeUnitSize.toNat * shardNum.toNat < 2 ^ 64) :
    ∃ rounds r, (∃ fuel₀, ∀ fuel ≥ fuel₀,
        appendBatch stripeUnitSize shardNum es fuel = some (rounds, r)) ∧
      r.toNat = start + (real.length - 1) ∧
      Striped (stripeUnitSize.toNat * shardNum.toNat) shardNum.toNat start (start + (real.length - 1))
        (Request.indices es shardNum.toNat) rounds := by
  have hpos := List.length_pos_iff.mpr h.ne_nil
  have h1 : 0 < stripeUnitSize.toNat := UInt64.le_iff_toNat_le.mp hstripe
  have h2 : 0 < shardNum.toNat := UInt64.le_iff_toNat_le.mp hshard
  have hb := Nat.mul_pos h1 h2
  have hc := @cover_windows _ start (start + (real.length - 1)) hb (Nat.le_add_right _ _)
  rw [show start + (real.length - 1) + 1 = start + real.length by omega] at hc
  obtain ⟨r, hr, heq⟩ := appendBatch_eq h hstripe hshard hov (Nat.lt_succ_self (start + real.length))
  refine ⟨_, r, ⟨start + real.length + 1, fun fuel hfuel => ?_⟩, hr, h.striped h2 hb hc⟩
  obtain ⟨r', hr', heq'⟩ := appendBatch_eq h hstripe hshard hov (show start + real.length < fuel by omega)
  rw [heq', UInt64.toNat_inj.mp (hr'.trans hr.symm)]

/-- The entries of indices 3, 4 and 5, and the entry after them that marks the end of the batch. -/
def twoStripes : List LogEntry :=
  [⟨7, 1, 3, 0, 1, 0, []⟩, ⟨7, 2, 4, 0, 1, 0, []⟩, ⟨7, 3, 5, 0, 1, 0, []⟩, default]

/-- They lie in two stripes of four. -/
theorem striping_is_a_partition_twoStripes :
    ∃ rounds r, (∃ fuel₀, ∀ fuel ≥ fuel₀, appendBatch 2 2 twoStripes fuel = some (rounds, r)) ∧
      r.toNat = 5 ∧ Striped 4 2 3 5 (Request.indices twoStripes 2) rounds := by
  have hindexed : ∀ (j : ℕ) (e : LogEntry), (twoStripes.take 3)[j]? = some e → e.logIdx.toNat = 3 + j
    | 0, _, rfl => rfl
    | 1, _, rfl => rfl
    | 2, _, rfl => rfl
  exact striping_is_a_partition 2 2 (by decide) (by decide) twoStripes (twoStripes.take 3) 3
    ⟨Or.inr ⟨default, rfl, rfl⟩, by decide, hindexed⟩ (by decide)

end LazyLog.Storage.Partition
