import LazyLog.Lib.Windows
import LazyLog.Storage.ShardServer

/-! # The backend (`cons_log/storage/naive_backend`)

`NaiveBackend::AppendBatch` deals a batch out to the shards: it goes through the big stripes that the batch
touches (`rounds`), and in each sends every shard its entries of that stripe, one request a shard
(`requests`), before it waits for all of them. A shard server, for its part, files a request under the big
stripe of its first entry, at the end of what it has.

`shardStripes k L sh x` is what the shard `sh` should hold after the first `x` entries of the log `L`. The two
agree: a round from `f` to `t` takes every shard from `shardStripes k L sh f` to `shardStripes k L sh (t + 1)`,
whether it has a request for the shard (`shardStripes_round`) or not (`shardStripes_skip`). -/

namespace LazyLog.Storage.NaiveBackend

open LazyLog.Lib.Bytes LazyLog.Lib.Stride LazyLog.Lib.Windows LazyLog.Rpc.Entry LazyLog.Rpc.Multi
open LazyLog.Storage.ShardServer

/-! ### `AppendBatch` -/

/-- `start_idx`. -/
def startIdx (es : List LogEntry) : ℕ := (es.headD default).logIdx.toNat

/-- `end_idx`: the index of the last entry, or of the one before it if the last has index zero. -/
def endIdx (es : List LogEntry) : ℕ :=
  let last := (es.getLastD default).logIdx.toNat
  if 1 < es.length ∧ last = 0 then (es.getD (es.length - 2) default).logIdx.toNat else last

/-- The outer loop: `from` and `to` in each big stripe from `first_base_idx` to `last_base_idx`. Indices stay
far below `2 ^ 64`, so that nothing wraps. -/
def rounds (k : Striping) (start stop : ℕ) : List (ℕ × ℕ) :=
  (List.range (count k.big (k.base start) (k.base stop + 1))).map fun r =>
    let i := k.base start + r * k.big
    (max i start, min (i + k.big - 1) stop)

/-- A call of `AppendBatchAsync`: the shard, and the places in the batch from where and to where its entries
are taken, `shard_num_` apart. -/
structure Request where
  shardId : ℕ
  frm : ℕ
  upTo : ℕ

/-- The inner loop, for the `from` and `to` of a stripe. -/
def requests (k : Striping) (start : ℕ) (round : ℕ × ℕ) : List Request :=
  ((List.range k.shardNum).takeWhile fun s => round.1 + s ≤ round.2).map fun s =>
    ⟨(round.1 + s) % k.shardNum, round.1 + s - start, round.2 - start⟩

variable {k : Striping} {L : List LogEntry} {sh x b f t start stop : ℕ}

/-! ### Rounds -/

theorem rounds_eq_windows (k : Striping) (start stop : ℕ) : rounds k start stop = windows k.big start stop := by
  unfold rounds windows windowsFrom indices
  rw [List.map_map]
  rfl

/-- **The rounds of a batch** take the log from its first to its last entry, each within a big stripe. -/
theorem cover_rounds (h : start ≤ stop) : Cover k.big start (rounds k start stop) (stop + 1) := by
  rw [rounds_eq_windows]
  exact cover_windows k.big_pos h

/-! ### Requests -/

/-- The request that a round has for a shard, if any: its entries are those from the next index of the shard
on. -/
theorem mem_requests {r : Request} (hf : start ≤ f) (hsh : sh < k.shardNum)
    (hr : r ∈ requests k start (f, t)) (hid : r.shardId = sh) :
    nextIdx k.shardNum sh f ≤ t ∧ r.frm = nextIdx k.shardNum sh f - start ∧ r.upTo = t - start := by
  obtain ⟨s, hs, rfl⟩ := List.mem_map.mp hr
  have hlt := List.mem_range.mp ((List.takeWhile_prefix _).subset hs)
  have hle : f + s ≤ t := by simpa using List.mem_takeWhile_imp hs
  have heq : f + s = nextIdx k.shardNum sh f :=
    eq_nextIdx k.shard_pos (by omega) (Nat.le_add_right f s) (by omega)
      (by rw [Nat.mod_eq_of_lt hsh]; exact hid)
  exact ⟨heq ▸ hle, by rw [← heq], rfl⟩

theorem exists_request (start : ℕ) (hsh : sh < k.shardNum) (hle : nextIdx k.shardNum sh f ≤ t) :
    ∃ r ∈ requests k start (f, t), r.shardId = sh := by
  have h1 := le_nextIdx (i := sh) (u := f) k.shard_pos
  have h2 := nextIdx_lt (i := sh) (u := f) k.shard_pos (by omega)
  refine ⟨_, List.mem_map.mpr ⟨nextIdx k.shardNum sh f - f, ?_, rfl⟩, ?_⟩
  · rw [takeWhile_range (m := t + 1 - f) (fun s _ => by simp; omega), List.mem_range]
    omega
  · simp only
    rw [Nat.add_sub_cancel' h1, nextIdx_mod, Nat.mod_eq_of_lt hsh]

/-! ### What a shard should hold -/

/-- The stripes of the shard `sh` after the first `x` entries of the log. -/
def shardStripes (k : Striping) (L : List LogEntry) (sh x b : ℕ) : List LogEntry :=
  if k.big ∣ b then stride L k.shardNum (b + sh) (min x (b + k.big)) else []

theorem shardStripes_zero : shardStripes k L sh 0 = fun _ => [] := by
  funext b
  unfold shardStripes
  split_ifs
  · exact stride_of_le k.shard_pos (by omega)
  · rfl

theorem shardStripes_append {L' : List LogEntry} (hx : x ≤ L.length) :
    shardStripes k (L ++ L') sh x = shardStripes k L sh x := by
  funext b
  unfold shardStripes
  rw [stride_append_left k.shard_pos (by omega)]

theorem nextIdx_base (hb : k.big ∣ b) (hbf : b ≤ f) (hsh : sh < k.shardNum) :
    nextIdx k.shardNum (b + sh) f = nextIdx k.shardNum sh f := by
  obtain ⟨q, hq⟩ := Striping.dvd_of_big_dvd hb
  refine eq_nextIdx k.shard_pos (by omega) (le_nextIdx k.shard_pos)
    (nextIdx_lt k.shard_pos (by omega)) ?_
  rw [nextIdx_mod, hq, Nat.mul_add_mod]

/-- **A round that has no entry for the shard.** -/
theorem shardStripes_skip (hft : f ≤ t) (h : t ≤ nextIdx k.shardNum sh f) :
    shardStripes k L sh t = shardStripes k L sh f := by
  funext b
  unfold shardStripes
  split_ifs with hb
  · unfold stride
    obtain ⟨q, rfl⟩ := Striping.dvd_of_big_dvd hb
    rw [count_congr k.shard_pos fun j => ?_]
    constructor
    · intro hlt
      by_contra hge
      -- an index of the shard at or above `f` is at or above the next one
      have heq : k.shardNum * q + sh + j * k.shardNum = sh + (q + j) * k.shardNum := by ring
      have := nextIdx_le (i := sh) (u := f) (j := q + j) k.shard_pos (by omega)
      omega
    · intro hlt
      omega
  · rfl

/-- **A round with entries for the shard** adds them to the stripe of the round. -/
theorem shardStripes_round (hsh : sh < k.shardNum) (hft : f ≤ t) (hbase : k.base f = k.base t)
    (hL : t < L.length) : shardStripes k L sh (t + 1) =
      Function.update (shardStripes k L sh f) (k.base f) (shardStripes k L sh f (k.base f) ++
        stride L k.shardNum (nextIdx k.shardNum sh f) (t + 1)) := by
  have hb0 := k.big_dvd_base f
  have h1 := k.base_le f
  have h2 := k.lt_base_add t
  rw [← hbase] at h2
  funext b
  rcases eq_or_ne b (k.base f) with rfl | hne
  · rw [Function.update_self]
    unfold shardStripes
    rw [if_pos hb0, if_pos hb0, min_eq_left (by omega), min_eq_left (by omega),
      ← nextIdx_base hb0 h1 hsh, stride_append k.shard_pos (by omega) (by omega)]
  · rw [Function.update_of_ne hne]
    unfold shardStripes
    split_ifs with hb
    · rcases Nat.lt_or_gt_of_ne hne with hlt | hlt
      · have := Striping.add_big_le hb hb0 hlt
        rw [min_eq_right (by omega), min_eq_right (by omega)]
      · have := Striping.add_big_le hb0 hb hlt
        rw [stride_of_le k.shard_pos (by omega), stride_of_le k.shard_pos (by omega)]
    · rfl

theorem length_shardStripes_lt (hsh : sh < k.shardNum) (hbase : k.base f = k.base t)
    (h : nextIdx k.shardNum sh f ≤ t) : (shardStripes k L sh f (k.base f)).length < k.stripeUnitSize := by
  have hb0 := k.big_dvd_base f
  have h1 := k.base_le f
  have h2 := k.lt_base_add t
  have h3 := k.lt_base_add f
  rw [← hbase] at h2
  unfold shardStripes
  rw [if_pos hb0, length_stride, min_eq_left (by omega)]
  rw [← nextIdx_base hb0 h1 hsh] at h
  unfold nextIdx Striping.big at *
  exact Nat.lt_of_mul_lt_mul_right (a := k.shardNum) (by omega)

theorem length_shardStripes_le (k : Striping) (L : List LogEntry) (sh x b : ℕ) :
    (shardStripes k L sh x b).length ≤ k.stripeUnitSize := by
  unfold shardStripes
  split_ifs
  · rw [length_stride, count_le_iff k.shard_pos]
    unfold Striping.big
    omega
  · exact Nat.zero_le _

theorem getElem?_shardStripes {j : ℕ} {e : LogEntry} (hx : x ≤ L.length)
    (h : (shardStripes k L sh x b)[j]? = some e) :
    b + sh + j * k.shardNum < x ∧ L[b + sh + j * k.shardNum]? = some e := by
  unfold shardStripes at h
  split_ifs at h
  · rw [getElem?_stride k.shard_pos (by omega)] at h
    split_ifs at h with hlt
    exact ⟨by omega, h⟩
  · simp at h

theorem shardStripes_pos (k : Striping) (idx : ℕ) :
    k.base idx + idx % k.shardNum + (idx - k.base idx) / k.shardNum * k.shardNum = idx := by
  have h1 := k.base_le idx
  obtain ⟨q, hq⟩ := Striping.dvd_of_big_dvd (k.big_dvd_base idx)
  have hmod : (idx - k.base idx) % k.shardNum = idx % k.shardNum := by
    rw [hq]
    exact Nat.sub_mul_mod (by omega)
  have := Nat.mod_add_div' (idx - k.base idx) k.shardNum
  omega

/-- **The reader finds an index where the writer put it.** -/
theorem shardStripes_read {idx : ℕ} (hx : x ≤ L.length) (hidx : idx < x) :
    (shardStripes k L (idx % k.shardNum) x (k.base idx))[(idx - k.base idx) / k.shardNum]? =
      L[idx]? := by
  have h2 := k.lt_base_add idx
  unfold shardStripes
  rw [if_pos (k.big_dvd_base idx), getElem?_stride k.shard_pos (by omega), shardStripes_pos,
    if_pos (by omega)]

end LazyLog.Storage.NaiveBackend
