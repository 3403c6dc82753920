import Mathlib.Data.List.GetD
import Mathlib.Tactic

/-! # Blocks laid end to end

The items of a list `l` laid one after the other, the item `a` taking `f a` places: `pos f l i` is the
place where item `i` starts, and the place after the last item for `i = l.length`. -/

namespace LazyLog.Lib.Tiling

variable {α : Type*} {f : α → ℕ} {l l' : List α}

/-- Where item `i` starts. -/
def pos (f : α → ℕ) (l : List α) (i : ℕ) : ℕ := ((l.take i).map f).sum

@[simp] theorem pos_zero : pos f l 0 = 0 := by simp [pos]

theorem pos_of_length_le {i : ℕ} (h : l.length ≤ i) : pos f l i = (l.map f).sum := by
  rw [pos, List.take_of_length_le h]

theorem pos_append_of_le {i : ℕ} (h : i ≤ l.length) : pos f (l ++ l') i = pos f l i := by
  rw [pos, List.take_append_of_le_length h, pos]

theorem pos_succ {i : ℕ} {a : α} (h : l[i]? = some a) : pos f l (i + 1) = pos f l i + f a := by
  obtain ⟨hi, rfl⟩ := List.getElem?_eq_some_iff.mp h
  simp only [pos]
  rw [List.take_add_one, List.getElem?_eq_getElem hi, List.map_append, List.sum_append]
  simp

theorem pos_add (i k : ℕ) : pos f l (i + k) = pos f l i + pos f (l.drop i) k := by
  simp only [pos]
  rw [List.take_add, List.map_append, List.sum_append]

theorem pos_mono {i j : ℕ} (h : i ≤ j) : pos f l i ≤ pos f l j := by
  obtain ⟨k, rfl⟩ := Nat.exists_eq_add_of_le h
  rw [pos_add]
  exact Nat.le_add_right _ _

theorem pos_le_total (i : ℕ) : pos f l i ≤ (l.map f).sum := by
  rw [← pos_of_length_le (f := f) (le_max_right i l.length)]
  exact pos_mono (le_max_left _ _)

theorem pos_add_le {i j : ℕ} {a : α} (h : l[i]? = some a) (hij : i < j) :
    pos f l i + f a ≤ pos f l j := by
  rw [← pos_succ h]
  exact pos_mono hij

theorem pos_add_le_total {i : ℕ} {a : α} (h : l[i]? = some a) :
    pos f l i + f a ≤ (l.map f).sum := by
  rw [← pos_succ h]
  exact pos_le_total _

theorem pos_strictMono (hf : ∀ a ∈ l, 0 < f a) {i j : ℕ} (hj : j ≤ l.length) (hij : i < j) :
    pos f l i < pos f l j := by
  have hi : i < l.length := by omega
  have h := List.getElem?_eq_getElem hi
  have := pos_add_le (f := f) h hij
  have := hf _ (List.getElem_mem hi)
  omega

/-- **The items tile the places.** -/
theorem exists_tile {x : ℕ} (h : x < (l.map f).sum) :
    ∃ i a, l[i]? = some a ∧ pos f l i ≤ x ∧ x < pos f l i + f a := by
  induction l using List.reverseRecOn with
  | nil => simp at h
  | append_singleton l a ih =>
    rw [List.map_append, List.sum_append] at h
    by_cases hx : x < (l.map f).sum
    · obtain ⟨i, b, hb, h1, h2⟩ := ih hx
      have hi : i < l.length := (List.getElem?_eq_some_iff.mp hb).1
      refine ⟨i, b, ?_, ?_, ?_⟩
      · rwa [List.getElem?_append_left hi]
      · rwa [pos_append_of_le hi.le]
      · rwa [pos_append_of_le hi.le]
    · refine ⟨l.length, a, by simp, ?_, ?_⟩
      · rw [pos_append_of_le le_rfl, pos_of_length_le le_rfl]; omega
      · rw [pos_append_of_le le_rfl, pos_of_length_le le_rfl]; simpa using h

/-- From item `k` on, `m` items start at `x` or before it, and the place after them is beyond `x`. -/
theorem exists_passed {k x : ℕ} (h : x < (l.map f).sum) (hk : k ≤ l.length) :
    ∃ m, k + m ≤ l.length ∧ (∀ i < m, pos f l (k + i) ≤ x) ∧ x < pos f l (k + m) := by
  obtain ⟨j, a, hj, hle, hlt⟩ := exists_tile h
  rw [← pos_succ hj] at hlt
  have hj' := (List.getElem?_eq_some_iff.mp hj).1
  rcases Nat.lt_or_ge j k with hjk | hkj
  · exact ⟨0, hk, fun i hi => absurd hi (Nat.not_lt_zero i), hlt.trans_le (pos_mono hjk)⟩
  · refine ⟨j + 1 - k, by omega, fun i hi => (pos_mono (by omega)).trans hle, ?_⟩
    rwa [Nat.add_sub_cancel' (by omega)]

end LazyLog.Lib.Tiling
