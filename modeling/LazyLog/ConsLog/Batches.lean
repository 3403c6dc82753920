import LazyLog.DurLog.FlatCli

/-! # The log cut into batches

What the consensus log does with the log `L` of the primary, in the abstract: it cuts `L` from the front into
batches, each a nonempty segment of `L` followed by the entry that carries the end sequence. `Cut L k bs f`
says that the vectors `bs` are such batches, from entry `k` to entry `f`.

Whoever passes on the batches of a cut from zero therefore passes on a front of the log, every entry once and
in its place (`Cut.flatMap_dropLast`). -/

namespace LazyLog.ConsLog.Batches

open LazyLog.Lib.Tiling LazyLog.Rpc.Entry LazyLog.Rpc.Multi LazyLog.DurLog.FlatCli

variable {L L' : List LogEntry} {k n f : ℕ} {bs bs' : List (List LogEntry)}

/-- The `n` entries from entry `k` on, followed by their end sequence. -/
def batch (L : List LogEntry) (k n : ℕ) : List LogEntry :=
  (L.drop k).take n ++ [sentinel (pos entrySize L (k + n))]

/-- The vectors cut the log from entry `k` to entry `f`. -/
def Cut (L : List LogEntry) : ℕ → List (List LogEntry) → ℕ → Prop
  | k, [], f => k = f
  | k, es :: bs, f => ∃ n, 0 < n ∧ k + n ≤ L.length ∧ es = batch L k n ∧ Cut L (k + n) bs f

/-- Entry `k` of the log has the index `k`. -/
def Indexed (L : List LogEntry) : Prop :=
  ∀ (k : ℕ) (e : LogEntry), L[k]? = some e → e.logIdx.toNat = k

/-! ### One batch -/

theorem batch_append (h : k + n ≤ L.length) : batch (L ++ L') k n = batch L k n := by
  unfold batch
  rw [pos_append_of_le h, List.drop_append_of_le_length (by omega),
    List.take_append_of_le_length (by rw [List.length_drop]; omega)]

theorem dropLast_batch : (batch L k n).dropLast = (L.drop k).take n := by
  unfold batch
  exact List.dropLast_concat

theorem batch_eq_concat (hn : 0 < n) (h : k + n ≤ L.length) : ∃ es x, L[k + n - 1]? = some x ∧
    batch L k n = es ++ [x] ++ [sentinel (pos entrySize L (k + n))] := by
  obtain ⟨m, rfl⟩ : ∃ m, n = m + 1 := ⟨n - 1, by omega⟩
  obtain ⟨x, hx⟩ : ∃ x, L[k + m]? = some x := ⟨_, List.getElem?_eq_getElem (by omega)⟩
  refine ⟨(L.drop k).take m, x, hx, ?_⟩
  unfold batch
  rw [List.take_add_one, List.getElem?_drop, hx]
  rfl

/-- What the primary is told about a batch: its end sequence and the index after its last entry. -/
theorem processFetchedEntries_batch (hL : Indexed L) (hn : 0 < n) (h : k + n ≤ L.length)
    (hlt : k + n < 2 ^ 64) : ∃ last : UInt64, last.toNat + 1 = k + n ∧
      processFetchedEntries true (batch L k n) [] =
        (last, [(UInt64.ofNat (pos entrySize L (k + n)), 0), (last + 1, 0)]) ∧
      (last + 1).toNat = k + n := by
  obtain ⟨es, x, hx, hb⟩ := batch_eq_concat hn h
  have hi := hL _ _ hx
  refine ⟨x.logIdx, by omega, by rw [hb, processFetchedEntries_primary], ?_⟩
  rw [UInt64.toNat_add, hi]
  show (k + n - 1 + 1) % 2 ^ 64 = k + n
  rw [Nat.mod_eq_of_lt (by omega)]
  omega

/-! ### Cuts -/

theorem Cut.append : ∀ {bs : List (List LogEntry)} {k j : ℕ}, Cut L k bs j → Cut L j bs' f →
    Cut L k (bs ++ bs') f
  | [], _, _, h, h' => by
    cases h
    exact h'
  | es :: bs, k, j, h, h' => by
    obtain ⟨n, hn, hk, hes, hrest⟩ := h
    exact ⟨n, hn, hk, hes, hrest.append h'⟩

theorem Cut.split : ∀ {bs : List (List LogEntry)} {k : ℕ}, Cut L k (bs ++ bs') f →
    ∃ j, Cut L k bs j ∧ Cut L j bs' f
  | [], k, h => ⟨k, rfl, h⟩
  | es :: bs, k, h => by
    obtain ⟨n, hn, hk, hes, hrest⟩ := h
    obtain ⟨j, h1, h2⟩ := hrest.split
    exact ⟨j, ⟨n, hn, hk, hes, h1⟩, h2⟩

theorem Cut.unique : ∀ {bs : List (List LogEntry)} {k f f' : ℕ}, Cut L k bs f → Cut L k bs f' → f = f'
  | [], _, _, _, h, h' => h.symm.trans h'
  | es :: bs, k, f, f', h, h' => by
    obtain ⟨n, hn, hk, hes, hrest⟩ := h
    obtain ⟨n', hn', hk', hes', hrest'⟩ := h'
    have hlen := congrArg List.length (hes.symm.trans hes')
    simp only [batch, List.length_append, List.length_take, List.length_drop,
      List.length_singleton] at hlen
    obtain rfl : n = n' := by omega
    exact hrest.unique hrest'

theorem Cut.mono : ∀ {bs : List (List LogEntry)} {k : ℕ}, Cut L k bs f → Cut (L ++ L') k bs f
  | [], _, h => h
  | es :: bs, k, h => by
    obtain ⟨n, hn, hk, hes, hrest⟩ := h
    refine ⟨n, hn, ?_, ?_, hrest.mono⟩
    · rw [List.length_append]; omega
    · rw [batch_append hk, hes]

theorem Cut.le : ∀ {bs : List (List LogEntry)} {k : ℕ}, Cut L k bs f → k ≤ f
  | [], _, h => by
    cases h
    exact Nat.le_refl _
  | es :: bs, k, h => by
    obtain ⟨n, -, -, -, hrest⟩ := h
    have := hrest.le
    omega

theorem Cut.le_length : ∀ {bs : List (List LogEntry)} {k : ℕ}, Cut L k bs f → k ≤ L.length →
    f ≤ L.length
  | [], _, h, hk => by
    cases h
    exact hk
  | es :: bs, k, h, _ => by
    obtain ⟨n, -, hk, -, hrest⟩ := h
    exact hrest.le_length hk

/-- **The batches of a cut are the log**, from its begin to its end. -/
theorem Cut.flatMap_dropLast : ∀ {bs : List (List LogEntry)} {k : ℕ}, Cut L k bs f →
    bs.flatMap List.dropLast = (L.drop k).take (f - k)
  | [], k, h => by
    cases h
    simp
  | es :: bs, k, h => by
    obtain ⟨n, hn, hk, rfl, hrest⟩ := h
    have hle := hrest.le
    rw [List.flatMap_cons, hrest.flatMap_dropLast, dropLast_batch, ← List.drop_drop,
      show f - k = n + (f - (k + n)) by omega, List.take_add]

theorem cut_singleton (hn : 0 < n) (hk : k + n ≤ L.length) : Cut L k [batch L k n] (k + n) :=
  ⟨n, hn, hk, rfl, rfl⟩

theorem Cut.getElem {r : ℕ} {es : List LogEntry} (h : Cut L k bs f) (hr : bs[r]? = some es) :
    ∃ j n, Cut L k (bs.take r) j ∧ 0 < n ∧ j + n ≤ L.length ∧ es = batch L j n ∧
      Cut L k (bs.take (r + 1)) (j + n) := by
  obtain ⟨hlt, rfl⟩ := List.getElem?_eq_some_iff.mp hr
  have hsplit : bs = bs.take r ++ (bs[r] :: bs.drop (r + 1)) := by
    rw [← List.drop_eq_getElem_cons hlt, List.take_append_drop]
  have htake : bs.take (r + 1) = bs.take r ++ [bs[r]] := by
    rw [List.take_add_one, List.getElem?_eq_getElem hlt]; rfl
  rw [hsplit] at h
  obtain ⟨j, h1, n, hn, hj, hes, -⟩ := h.split
  refine ⟨j, n, h1, hn, hj, hes, ?_⟩
  rw [htake, hes]
  exact h1.append (cut_singleton hn hj)

/-! ### Exactly once and in order -/

/-- The vectors given to the backend, their end entries dropped, are a front of the log, entry `k` of it with
the index `k`; each vector has an entry, and its indices follow on from those of the vectors before it. -/
structure Ordered (L : List LogEntry) (stored : List (List LogEntry)) : Prop where
  front : stored.flatMap List.dropLast <+: L
  indexed : ∀ (k : ℕ) (e : LogEntry), (stored.flatMap List.dropLast)[k]? = some e →
    e.logIdx.toNat = k
  consecutive : ∀ (i : ℕ) (es : List LogEntry), stored[i]? = some es → es.dropLast ≠ [] ∧
    ∀ (j : ℕ) (e : LogEntry), es.dropLast[j]? = some e →
      e.logIdx.toNat = ((stored.take i).flatMap List.dropLast).length + j

theorem Cut.ordered (h : Cut L 0 bs f) (hL : Indexed L) : Ordered L bs := by
  have hflat : bs.flatMap List.dropLast = L.take f := by simpa using h.flatMap_dropLast
  refine ⟨?_, ?_, ?_⟩
  · rw [hflat]
    exact List.take_prefix f L
  · intro k e he
    rw [hflat, List.getElem?_take] at he
    split_ifs at he
    exact hL k e he
  · intro i es hi
    obtain ⟨j, n, hj, hn, hjn, rfl, -⟩ := h.getElem hi
    have hflat' : (bs.take i).flatMap List.dropLast = L.take j := by simpa using hj.flatMap_dropLast
    rw [dropLast_batch]
    refine ⟨?_, ?_⟩
    · rw [← List.length_pos_iff, List.length_take, List.length_drop]
      omega
    · intro q e he
      rw [List.getElem?_take] at he
      split_ifs at he
      rw [List.getElem?_drop] at he
      rw [hL _ e he, hflat', List.length_take, min_eq_left (by omega)]

end LazyLog.ConsLog.Batches
