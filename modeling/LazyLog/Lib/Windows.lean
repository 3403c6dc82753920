import LazyLog.Lib.Stride

/-! # Cutting an interval at multiples, and dealing it out

The interval from `start` to `stop` is cut at the multiples of `b` into *windows* (`windows`); each window is
dealt out to `n` hands, a hand taking every `n`-th number from its first on (`deal`).

* `cover_windows`: the windows follow each other from `start` to `stop`, each between two multiples.
* `Cover.perm_deal`: the hands of all windows hold every number of the interval once.
* `Cover.pairwise`: the windows come in ascending order. -/

namespace LazyLog.Lib.Windows

open LazyLog.Lib.Stride

variable {n b i j u x y start stop : ℕ} {w : ℕ × ℕ} {ws : List (ℕ × ℕ)}

/-! ### The numbers of a hand -/

/-- The numbers `i, i + n, i + 2 * n, …` below `u`. -/
def indices (n i u : ℕ) : List ℕ := (List.range (count n i u)).map fun j => i + j * n

theorem indices_of_le (hn : 0 < n) (h : u ≤ i) : indices n i u = [] := by
  unfold indices
  rw [count_of_le hn h]
  rfl

theorem indices_cons (hn : 0 < n) (h : i < u) : indices n i u = i :: indices n (i + n) u := by
  unfold indices
  rw [count_cons hn h, List.range_succ_eq_map, List.map_cons, List.map_map, Nat.zero_mul, Nat.add_zero]
  congr 1
  refine List.map_congr_left fun j _ => ?_
  simp only [Function.comp, Nat.succ_mul]
  omega

theorem mem_indices (hn : 0 < n) : x ∈ indices n i u ↔ i ≤ x ∧ x < u ∧ x % n = i % n := by
  unfold indices
  rw [List.mem_map]
  constructor
  · rintro ⟨j, hj, rfl⟩
    exact ⟨Nat.le_add_right _ _, (lt_count hn).mp (List.mem_range.mp hj), Nat.add_mul_mod_self_right _ _ _⟩
  · rintro ⟨hle, hlt, hmod⟩
    obtain ⟨j, hj⟩ := (Nat.modEq_iff_dvd' hle).mp hmod.symm
    have hx : i + j * n = x := by
      rw [Nat.mul_comm]
      omega
    exact ⟨j, List.mem_range.mpr ((lt_count hn).mpr (by omega)), hx⟩

theorem isChain_indices (n i u : ℕ) : (indices n i u).IsChain fun x y => y = x + n := by
  unfold indices
  rw [List.isChain_iff_getElem]
  intro j hj
  simp only [List.getElem_map, List.getElem_range, Nat.succ_mul]
  omega

theorem nodup_indices (hn : 0 < n) : (indices n i u).Nodup := by
  refine List.Nodup.map_on (fun j _ j' _ h => ?_) List.nodup_range
  exact Nat.eq_of_mul_eq_mul_right hn (by omega)

theorem map_add_indices (c n i u : ℕ) :
    (indices n i u).map (fun j => c + j) = indices n (c + i) (c + u) := by
  unfold indices count
  rw [List.map_map, Nat.add_sub_add_left]
  refine List.map_congr_left fun j _ => ?_
  simp only [Function.comp]
  omega

theorem stride_eq_map_indices {α : Type*} [Inhabited α] (l : List α) (n i u : ℕ) :
    stride l n i u = (indices n i u).map fun j => l.getD j default := by
  unfold stride indices
  rw [List.map_map]
  rfl

theorem takeWhile_range {p : ℕ → Bool} {m : ℕ} : ∀ {n : ℕ}, (∀ s < n, p s = true ↔ s < m) →
    (List.range n).takeWhile p = List.range (min n m)
  | 0, _ => by simp
  | n + 1, hp => by
    rw [List.range_succ, List.takeWhile_append, takeWhile_range fun s hs => hp s (by omega), List.length_range,
      List.length_range]
    by_cases h : n < m
    · rw [if_pos (by omega), List.takeWhile_cons_of_pos ((hp n (by omega)).mpr h), List.takeWhile_nil,
        min_eq_left (by omega), List.range_succ]
    · rw [List.takeWhile_cons_of_neg (by rw [hp n (by omega)]; exact h), List.append_nil]
      split_ifs with hc
      · rw [min_eq_right (by omega), show n = m by omega]
      · rw [min_eq_right (by omega), min_eq_right (by omega)]

/-! ### Windows -/

/-- The windows from the multiple `i` of `b` on. -/
def windowsFrom (b start stop i : ℕ) : List (ℕ × ℕ) :=
  (indices b i (stop / b * b + 1)).map fun i => (max i start, min (i + b - 1) stop)

/-- **The windows** of an interval. -/
def windows (b start stop : ℕ) : List (ℕ × ℕ) := windowsFrom b start stop (start / b * b)

theorem windowsFrom_of_lt (hb : 0 < b) (h : stop / b * b < i) : windowsFrom b start stop i = [] := by
  unfold windowsFrom
  rw [indices_of_le hb (by omega)]
  rfl

theorem windowsFrom_cons (hb : 0 < b) (h : i ≤ stop / b * b) : windowsFrom b start stop i =
    (max i start, min (i + b - 1) stop) :: windowsFrom b start stop (i + b) := by
  unfold windowsFrom
  rw [indices_cons hb (by omega), List.map_cons]

/-- The windows follow each other from `x` to `y`, each between two multiples of `b`. -/
def Cover (b : ℕ) : ℕ → List (ℕ × ℕ) → ℕ → Prop
  | x, [], y => x = y
  | x, w :: ws, y => w.1 = x ∧ w.1 ≤ w.2 ∧ w.1 / b = w.2 / b ∧ Cover b (w.2 + 1) ws y

theorem cover_windowsFrom (hb : 0 < b) (hle : start ≤ stop) {i : ℕ} (hi : b ∣ i)
    (hstart : start < i + b) (hstop : i ≤ stop) :
    Cover b (max i start) (windowsFrom b start stop i) (stop + 1) := by
  obtain ⟨q, rfl⟩ := hi
  have hdiv : ∀ {z}, b * q ≤ z → z < b * q + b → z / b = q := fun h1 h2 =>
    Nat.div_eq_of_lt_le (by rwa [Nat.mul_comm]) (by rwa [Nat.succ_mul, Nat.mul_comm])
  have hq : b * q ≤ stop / b * b := by
    rw [Nat.mul_comm b]
    exact Nat.mul_le_mul_right b ((Nat.le_div_iff_mul_le hb).mpr (by rwa [Nat.mul_comm]))
  rw [windowsFrom_cons hb hq]
  rcases Nat.lt_or_ge stop (b * q + b) with hlast | hmore
  · -- the last window
    have hmin : min (b * q + b - 1) stop = stop := by omega
    have hend : stop / b * b < b * q + b := by
      have := Nat.div_mul_le_self stop b
      omega
    rw [windowsFrom_of_lt hb hend, hmin]
    refine ⟨rfl, by simp only; omega, ?_, rfl⟩
    simp only
    rw [hdiv (by omega) (by omega), hdiv hstop hlast]
  · have hmin : min (b * q + b - 1) stop = b * q + b - 1 := by omega
    have hrest := cover_windowsFrom hb hle (Nat.dvd_add (Nat.dvd_mul_right b q) (dvd_refl b)) (by omega) hmore
    rw [hmin]
    refine ⟨rfl, by simp only; omega, ?_, ?_⟩
    · simp only
      rw [hdiv (by omega) (by omega), hdiv (by omega) (by omega)]
    · simp only
      rwa [show b * q + b - 1 + 1 = max (b * q + b) start by omega]
termination_by stop - i

/-- **The windows cover the interval.** -/
theorem cover_windows (hb : 0 < b) (h : start ≤ stop) :
    Cover b start (windows b start stop) (stop + 1) := by
  have h1 := Nat.div_mul_le_self start b
  have hcov := cover_windowsFrom hb h (Nat.dvd_mul_left b _) (Nat.lt_div_mul_add hb) (h1.trans h)
  rwa [max_eq_right h1] at hcov

theorem Cover.le : ∀ {ws : List (ℕ × ℕ)} {x : ℕ}, Cover b x ws y → x ≤ y
  | [], _, h => Nat.le_of_eq h
  | w :: ws, x, h => by
    obtain ⟨h1, h2, -, h3⟩ := h
    have := h3.le
    omega

theorem Cover.mem : ∀ {ws : List (ℕ × ℕ)} {x : ℕ}, Cover b x ws y → w ∈ ws →
    x ≤ w.1 ∧ w.1 ≤ w.2 ∧ w.1 / b = w.2 / b ∧ w.2 < y
  | v :: ws, x, h, hw => by
    obtain ⟨h1, h2, h3, h4⟩ := h
    rcases List.mem_cons.mp hw with rfl | hw
    · exact ⟨h1.ge, h2, h3, h4.le⟩
    · obtain ⟨h5, h6⟩ := h4.mem hw
      exact ⟨by omega, h6⟩

/-! ### Dealing -/

/-- The hands of a window: one for each of its first `n` numbers. -/
def deal (n : ℕ) (w : ℕ × ℕ) : List (List ℕ) :=
  (List.range (min n (w.2 + 1 - w.1))).map fun s => indices n (w.1 + s) (w.2 + 1)

theorem mem_flatten_deal (hn : 0 < n) : x ∈ (deal n w).flatten ↔ w.1 ≤ x ∧ x ≤ w.2 := by
  unfold deal
  simp only [List.mem_flatten, List.mem_map, List.mem_range]
  constructor
  · rintro ⟨_, ⟨s, -, rfl⟩, hx⟩
    obtain ⟨h1, h2, -⟩ := (mem_indices hn).mp hx
    omega
  · rintro ⟨h1, h2⟩
    have hmod := Nat.mod_lt (x - w.1) hn
    have hle := Nat.mod_le (x - w.1) n
    refine ⟨_, ⟨(x - w.1) % n, by omega, rfl⟩, (mem_indices hn).mpr ⟨by omega, by omega, ?_⟩⟩
    rw [Nat.add_mod_mod, Nat.add_sub_cancel' h1]

theorem nodup_flatten_deal (hn : 0 < n) : (deal n w).flatten.Nodup := by
  rw [List.nodup_flatten]
  unfold deal
  constructor
  · intro l hl
    obtain ⟨s, -, rfl⟩ := List.mem_map.mp hl
    exact nodup_indices hn
  · rw [List.pairwise_map]
    refine List.Pairwise.imp_of_mem (fun {s s'} hs hs' hne => ?_) List.nodup_range
    intro x hx hx'
    have h1 := ((mem_indices hn).mp hx).2.2.symm.trans ((mem_indices hn).mp hx').2.2
    have h2 : s % n = s' % n := Nat.ModEq.add_left_cancel' w.1 h1
    have hlt := List.mem_range.mp hs
    have hlt' := List.mem_range.mp hs'
    rw [Nat.mod_eq_of_lt (by omega), Nat.mod_eq_of_lt (by omega)] at h2
    exact hne h2

/-- **Dealing a window** gives every number of it once. -/
theorem perm_deal (hn : 0 < n) : (deal n w).flatten.Perm (List.range' w.1 (w.2 + 1 - w.1)) := by
  refine (List.perm_ext_iff_of_nodup (nodup_flatten_deal hn) List.nodup_range').mpr fun x => ?_
  rw [mem_flatten_deal hn, List.mem_range'_1]
  omega

/-- **Dealing all windows** gives every number of the interval once. -/
theorem Cover.perm_deal (hn : 0 < n) : ∀ {ws : List (ℕ × ℕ)} {x : ℕ}, Cover b x ws y →
    (ws.flatMap (deal n)).flatten.Perm (List.range' x (y - x))
  | [], x, h => by
    rw [h, Nat.sub_self]
    exact List.Perm.refl _
  | w :: ws, x, h => by
    obtain ⟨rfl, h2, -, h4⟩ := h
    have hle := h4.le
    have hsplit : List.range' w.1 (y - w.1) =
        List.range' w.1 (w.2 + 1 - w.1) ++ List.range' (w.2 + 1) (y - (w.2 + 1)) := by
      have h5 := List.range'_append_1 (s := w.1) (m := w.2 + 1 - w.1) (n := y - (w.2 + 1))
      rw [show w.1 + (w.2 + 1 - w.1) = w.2 + 1 by omega] at h5
      rw [h5]
      congr 1
      omega
    rw [List.flatMap_cons, List.flatten_append, hsplit]
    exact (Windows.perm_deal hn).append (h4.perm_deal hn)

theorem Cover.pairwise : ∀ {ws : List (ℕ × ℕ)} {x : ℕ}, Cover b x ws y →
    ws.Pairwise fun w w' => w.2 < w'.1
  | [], _, _ => List.Pairwise.nil
  | _ :: _, _, ⟨_, _, _, h⟩ => List.Pairwise.cons (fun _ hw => (h.mem hw).1) h.pairwise

end LazyLog.Lib.Windows
