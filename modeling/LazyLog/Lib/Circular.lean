import LazyLog.Lib.Bytes

/-! # A circular buffer with an overflow area

Positions grow without bound and live at their residue modulo the size `n` of the buffer. A block
that starts near the end of the buffer is first written *contiguously*, beyond the end into an
overflow area, and then its overflow is copied to the start of the buffer. So a block has two views:
`wrapView` (position `x` at the address `x % n`) and `flatView` (the block that starts at `q` at the
addresses `q % n, q % n + 1, …`). The `Footprint` of a block is the set of the addresses of both.

Blocks that are disjoint and lie in one window of `n` positions have disjoint footprints
(`footprint_disjoint`): at most one of them crosses the end of the buffer. -/

namespace LazyLog.Lib.Circular

open LazyLog.Lib.Bytes

/-! ### Residues in a window -/

theorem mod_inj_of_window {n w x y : ℕ} (hx : w ≤ x) (hx' : x < w + n) (hy : w ≤ y)
    (hy' : y < w + n) (h : x % n = y % n) : x = y := by
  have hdx := Nat.div_add_mod x n
  have hdy := Nat.div_add_mod y n
  rcases Nat.lt_trichotomy (x / n) (y / n) with hlt | heq | hlt
  · have : n * (x / n + 1) ≤ n * (y / n) := Nat.mul_le_mul_left n hlt
    rw [Nat.mul_add, Nat.mul_one] at this
    omega
  · rw [heq] at hdx; omega
  · have : n * (y / n + 1) ≤ n * (x / n) := Nat.mul_le_mul_left n hlt
    rw [Nat.mul_add, Nat.mul_one] at this
    omega

theorem add_mod_of_lt {n q i : ℕ} (h : q % n + i < n) : (q + i) % n = q % n + i := by
  rw [Nat.add_mod, Nat.mod_eq_of_lt (a := i) (by omega), Nat.mod_eq_of_lt h]

theorem add_mod_of_ge {n q i : ℕ} (hi : i < n) (h : n ≤ q % n + i) :
    (q + i) % n = q % n + i - n := by
  have hq : q % n < n := Nat.mod_lt _ (by omega)
  rw [Nat.add_mod, Nat.mod_eq_of_lt (a := i) hi, Nat.mod_eq_sub_mod h, Nat.mod_eq_of_lt (by omega)]

/-- Two blocks one after the other in a window of `n` positions do not both cross the end. -/
theorem not_both_cross {n w a p b q : ℕ} (hn : 0 < n) (ha : w ≤ a) (hab : a + p ≤ b)
    (hb : b + q ≤ w + n) (hca : n < a % n + p) : b % n + q ≤ n := by
  by_contra hcb
  have hda := Nat.div_add_mod a n
  have hdb := Nat.div_add_mod b n
  have hma : a % n < n := Nat.mod_lt _ hn
  have hmb : b % n < n := Nat.mod_lt _ hn
  have hlt : a / n < b / n := by
    by_contra hle
    have h1 : n * (b / n) ≤ n * (a / n) := Nat.mul_le_mul_left n (by omega)
    omega
  -- the end that `b` crosses is a whole lap after the one that `a` crosses
  have : n * (a / n + 1) ≤ n * (b / n) := Nat.mul_le_mul_left n hlt
  rw [Nat.mul_add, Nat.mul_one] at this
  omega

/-! ### The two views and the footprint -/

/-- The memory by position: `x` at its residue. -/
def wrapView (n : ℕ) (m : Mem) : Mem := fun x => m (x % n)

/-- The memory by position, contiguously from the block start `q` on. -/
def flatView (n : ℕ) (m : Mem) (q : ℕ) : Mem := fun x => m (q % n + (x - q))

theorem wrapView_add (n : ℕ) (m : Mem) (q i : ℕ) : wrapView n m (q + i) = m ((q + i) % n) := rfl

theorem flatView_add (n : ℕ) (m : Mem) (q i : ℕ) : flatView n m q (q + i) = m (q % n + i) := by
  unfold flatView; rw [Nat.add_sub_cancel_left]

theorem flatView_eq_wrapView {n q i : ℕ} (m : Mem) (h : q % n + i < n) :
    flatView n m q (q + i) = wrapView n m (q + i) := by
  rw [flatView_add, wrapView_add, add_mod_of_lt h]

/-- The addresses of the block of `k` bytes at the position `q`, in either view. -/
def Footprint (n q k x : ℕ) : Prop := ∃ i < k, x = (q + i) % n ∨ x = q % n + i

theorem footprint_wrap {n q k i : ℕ} (hi : i < k) : Footprint n q k ((q + i) % n) :=
  ⟨i, hi, Or.inl rfl⟩

theorem footprint_flat {n q k i : ℕ} (hi : i < k) : Footprint n q k (q % n + i) :=
  ⟨i, hi, Or.inr rfl⟩

/-- An address of a footprint is in the buffer, at the residue of a position of the block, or beyond
the end, and then the block crosses it. -/
theorem Footprint.cases {n q k x : ℕ} (h : Footprint n q k x) (hn : 0 < n) :
    (x < n ∧ ∃ i < k, x = (q + i) % n) ∨ (n ≤ x ∧ x < q % n + k) := by
  obtain ⟨i, hi, rfl | rfl⟩ := h
  · exact Or.inl ⟨Nat.mod_lt _ hn, i, hi, rfl⟩
  · by_cases hlt : q % n + i < n
    · exact Or.inl ⟨hlt, i, hi, (add_mod_of_lt hlt).symm⟩
    · exact Or.inr ⟨by omega, by omega⟩

/-- **Disjoint blocks of one window have disjoint footprints.** -/
theorem footprint_disjoint {n w a p b q x : ℕ} (hn : 0 < n) (ha : w ≤ a) (ha' : a + p ≤ w + n)
    (hb : w ≤ b) (hb' : b + q ≤ w + n) (hab : a + p ≤ b ∨ b + q ≤ a)
    (hx : Footprint n a p x) : ¬ Footprint n b q x := by
  intro hy
  rcases hx.cases hn with ⟨hlt, i, hi, hxi⟩ | ⟨hge, hxa⟩
  · rcases hy.cases hn with ⟨-, j, hj, hxj⟩ | ⟨hge, -⟩
    · have := mod_inj_of_window (n := n) (w := w) (x := a + i) (y := b + j) (by omega) (by omega)
        (by omega) (by omega) (by omega)
      omega
    · omega
  · rcases hy.cases hn with ⟨hlt, -⟩ | ⟨-, hxb⟩
    · omega
    · rcases hab with hab | hab
      · have := not_both_cross hn ha hab hb' (by omega); omega
      · have := not_both_cross hn hb hab ha' (by omega); omega

end LazyLog.Lib.Circular
