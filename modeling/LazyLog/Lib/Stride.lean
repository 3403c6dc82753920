import Mathlib.Data.List.GetD
import Mathlib.Tactic

/-! # Every `n`-th item of a list

`stride l n i u`: the items of `l` at the indices `i, i + n, i + 2 * n, …` below `u`. There are
`count n i u` of them. A list is dealt out to `n` hands by the strides that start at `0, …, n - 1`; dealing on
where an earlier deal ended continues each hand (`stride_append`), from the hand's first index at or above
the end (`nextIdx`). -/

namespace LazyLog.Lib.Stride

variable {α : Type*} [Inhabited α] {l l' : List α} {n i j k u u' : ℕ}

/-! ### Counting -/

/-- How many of the indices `i, i + n, i + 2 * n, …` are below `u`. -/
def count (n i u : ℕ) : ℕ := (u - i + (n - 1)) / n

theorem lt_count (hn : 0 < n) : j < count n i u ↔ i + j * n < u := by
  unfold count
  rw [← Nat.succ_le_iff, Nat.le_div_iff_mul_le hn, Nat.succ_mul]
  omega

theorem count_le_iff (hn : 0 < n) : count n i u ≤ j ↔ u ≤ i + j * n := by
  rw [← not_lt, lt_count hn, not_lt]

theorem count_of_le (hn : 0 < n) (h : u ≤ i) : count n i u = 0 :=
  Nat.le_zero.mp ((count_le_iff hn).mpr (by omega))

theorem count_pos (hn : 0 < n) : 0 < count n i u ↔ i < u := by
  rw [lt_count hn, Nat.zero_mul, Nat.add_zero]

theorem count_cons (hn : 0 < n) (h : i < u) : count n i u = count n (i + n) u + 1 := by
  refine Nat.le_antisymm ?_ ?_
  · rw [count_le_iff hn, Nat.succ_mul]
    have := (count_le_iff (i := i + n) (u := u) hn).mp (Nat.le_refl _)
    omega
  · rw [Nat.succ_le_iff]
    rcases Nat.eq_zero_or_pos (count n (i + n) u) with h0 | hpos
    · rw [h0]
      exact (count_pos hn).mpr h
    · have := (lt_count hn).mp (Nat.sub_lt hpos Nat.one_pos : _ < count n (i + n) u)
      rw [lt_count hn]
      obtain ⟨m, hm⟩ : ∃ m, count n (i + n) u = m + 1 := ⟨count n (i + n) u - 1, by omega⟩
      rw [hm, Nat.add_sub_cancel] at this
      rw [hm, Nat.succ_mul]
      omega

theorem count_congr {i' : ℕ} (hn : 0 < n) (h : ∀ j, i + j * n < u ↔ i' + j * n < u') :
    count n i u = count n i' u' := by
  refine Nat.le_antisymm ?_ ?_
  · by_contra hlt
    exact absurd ((lt_count hn).mpr ((h _).mp ((lt_count hn).mp (not_le.mp hlt)))) (lt_irrefl _)
  · by_contra hlt
    exact absurd ((lt_count hn).mpr ((h _).mpr ((lt_count hn).mp (not_le.mp hlt)))) (lt_irrefl _)

/-- The first index at or above `u` that belongs to the hand `i`. -/
def nextIdx (n i u : ℕ) : ℕ := i + count n i u * n

theorem le_nextIdx (hn : 0 < n) : u ≤ nextIdx n i u := (count_le_iff hn).mp (Nat.le_refl _)

theorem nextIdx_lt (hn : 0 < n) (h : i < u + n) : nextIdx n i u < u + n := by
  unfold nextIdx
  rcases Nat.eq_zero_or_pos (count n i u) with h0 | hpos
  · rw [h0]; omega
  · have := (lt_count hn).mp (Nat.sub_lt hpos Nat.one_pos : count n i u - 1 < count n i u)
    obtain ⟨m, hm⟩ : ∃ m, count n i u = m + 1 := ⟨count n i u - 1, by omega⟩
    rw [hm, Nat.add_sub_cancel] at this
    rw [hm, Nat.succ_mul]
    omega

theorem nextIdx_mod : nextIdx n i u % n = i % n := by
  unfold nextIdx
  rw [Nat.mul_comm, Nat.add_mul_mod_self_left]

theorem nextIdx_le (hn : 0 < n) (h : u ≤ i + j * n) : nextIdx n i u ≤ i + j * n :=
  Nat.add_le_add_left (Nat.mul_le_mul_right n ((count_le_iff hn).mpr h)) i

theorem eq_nextIdx (hn : 0 < n) (h : i < u + n) {x : ℕ} (h1 : u ≤ x) (h2 : x < u + n)
    (h3 : x % n = i % n) : x = nextIdx n i u := by
  have hle := le_nextIdx (i := i) (u := u) hn
  have hlt := nextIdx_lt hn h
  have hmod := h3.trans (nextIdx_mod (n := n) (i := i) (u := u)).symm
  have hx := Nat.div_add_mod x n
  have hy := Nat.div_add_mod (nextIdx n i u) n
  rw [hmod] at hx
  generalize nextIdx n i u = y at *
  rcases Nat.lt_trichotomy (x / n) (y / n) with h' | h' | h'
  · have := Nat.mul_le_mul_left n (Nat.succ_le_of_lt h')
    rw [Nat.mul_succ] at this
    omega
  · rw [h'] at hx
    omega
  · have := Nat.mul_le_mul_left n (Nat.succ_le_of_lt h')
    rw [Nat.mul_succ] at this
    omega

/-! ### Strides -/

/-- The items at the indices `i, i + n, i + 2 * n, …` below `u`. -/
def stride (l : List α) (n i u : ℕ) : List α :=
  (List.range (count n i u)).map fun j => l.getD (i + j * n) default

@[simp] theorem length_stride : (stride l n i u).length = count n i u := by simp [stride]

theorem getElem?_stride (hn : 0 < n) (hu : u ≤ l.length) :
    (stride l n i u)[j]? = if i + j * n < u then l[i + j * n]? else none := by
  unfold stride
  rw [List.getElem?_map]
  split_ifs with h
  · rw [List.getElem?_range ((lt_count hn).mpr h), List.getElem?_eq_getElem (by omega), Option.map_some,
      List.getD_eq_getElem _ _ (by omega)]
  · rw [List.getElem?_eq_none (by rw [List.length_range]; exact (count_le_iff hn).mpr (not_lt.mp h))]
    rfl

theorem stride_of_le (hn : 0 < n) (h : u ≤ i) : stride l n i u = [] := by
  unfold stride
  rw [count_of_le hn h]
  rfl

theorem stride_cons (hn : 0 < n) (h : i < u) :
    stride l n i u = l.getD i default :: stride l n (i + n) u := by
  unfold stride
  rw [count_cons hn h, List.range_succ_eq_map, List.map_cons, List.map_map]
  congr 1
  · simp
  · refine List.map_congr_left fun j _ => ?_
    simp only [Function.comp, Nat.succ_mul]
    rw [show i + (j * n + n) = i + n + j * n by omega]

/-- **Dealing on**: a stride to `u` is continued, from its next index, by a stride to `u'`. -/
theorem stride_append (hn : 0 < n) (h : u ≤ u') (hu : u' ≤ l.length) :
    stride l n i u ++ stride l n (nextIdx n i u) u' = stride l n i u' := by
  refine List.ext_getElem? fun j => ?_
  have hidx : ∀ q, nextIdx n i u + q * n = i + (count n i u + q) * n := by
    intro q
    unfold nextIdx
    rw [Nat.add_mul, Nat.add_assoc]
  rcases Nat.lt_or_ge j (count n i u) with hj | hj
  · have hlt := (lt_count hn).mp hj
    rw [List.getElem?_append_left (by rwa [length_stride]), getElem?_stride hn (by omega),
      getElem?_stride hn hu, if_pos hlt, if_pos (by omega)]
  · rw [List.getElem?_append_right (by rwa [length_stride]), length_stride, getElem?_stride hn hu,
      getElem?_stride hn hu, hidx, Nat.add_sub_cancel' hj]

theorem stride_drop (hn : 0 < n) (hk : k ≤ i) (hu : u ≤ l.length) :
    stride (l.drop k) n (i - k) (u - k) = stride l n i u := by
  refine List.ext_getElem? fun j => ?_
  rw [getElem?_stride hn (by rw [List.length_drop]; omega), getElem?_stride hn hu, List.getElem?_drop,
    show k + (i - k + j * n) = i + j * n by omega]
  by_cases h : i + j * n < u
  · rw [if_pos h, if_pos (by omega)]
  · rw [if_neg h, if_neg (by omega)]

theorem stride_append_left (hn : 0 < n) (hu : u ≤ l.length) :
    stride (l ++ l') n i u = stride l n i u := by
  refine List.ext_getElem? fun j => ?_
  rw [getElem?_stride hn (by rw [List.length_append]; omega), getElem?_stride hn hu]
  split_ifs with h
  · rw [List.getElem?_append_left (by omega)]
  · rfl

end LazyLog.Lib.Stride
