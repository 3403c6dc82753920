import Mathlib.Data.List.Nodup

/-! # Sources that number their items

A list holds the items of many sources, interleaved. `Counted key num l c`: in the list `l` the items of each
source `k` carry the numbers `0, 1, …, c k - 1`, in this order. Then no two items of the list have the same
source and number, and with an item the list has all earlier ones of its source before it, which is why the
fronts of the list are counted, too (`Counted.take`). -/

namespace LazyLog.Lib.Streams

variable {α κ : Type*} [DecidableEq κ] {key : α → κ} {num : α → ℕ} {l : List α} {c : κ → ℕ} {x : α}

/-- The items of one source. -/
def stream (key : α → κ) (k : κ) (l : List α) : List α := l.filter fun x => key x = k

/-- The items of each source are numbered from zero on. -/
def Counted (key : α → κ) (num : α → ℕ) (l : List α) (c : κ → ℕ) : Prop :=
  ∀ k, (stream key k l).map num = List.range (c k)

theorem mem_stream {k : κ} : x ∈ stream key k l ↔ x ∈ l ∧ key x = k := by
  unfold stream
  rw [List.mem_filter, decide_eq_true_iff]

theorem stream_append (k : κ) (l l' : List α) :
    stream key k (l ++ l') = stream key k l ++ stream key k l' := List.filter_append ..

theorem counted_nil : Counted key num ([] : List α) fun _ => 0 := fun _ => rfl

theorem Counted.length_eq (h : Counted key num l c) (k : κ) : (stream key k l).length = c k := by
  rw [← List.length_map num, h k, List.length_range]

theorem Counted.le_length (h : Counted key num l c) (k : κ) : c k ≤ l.length := by
  rw [← h.length_eq k]
  exact List.length_filter_le _ _

theorem Counted.num_lt (h : Counted key num l c) (hx : x ∈ l) : num x < c (key x) := by
  have hmem : num x ∈ (stream key (key x) l).map num :=
    List.mem_map_of_mem (mem_stream.mpr ⟨hx, rfl⟩)
  rw [h (key x)] at hmem
  exact List.mem_range.mp hmem

theorem Counted.exists_mem (h : Counted key num l c) {k : κ} {n : ℕ} (hn : n < c k) :
    ∃ x ∈ l, key x = k ∧ num x = n := by
  have hmem : n ∈ (stream key k l).map num := by
    rw [h k]
    exact List.mem_range.mpr hn
  obtain ⟨x, hx, hnum⟩ := List.mem_map.mp hmem
  obtain ⟨hl, hkey⟩ := mem_stream.mp hx
  exact ⟨x, hl, hkey, hnum⟩

theorem Counted.concat (h : Counted key num l c) (hx : num x = c (key x)) :
    Counted key num (l ++ [x]) (Function.update c (key x) (c (key x) + 1)) := by
  intro k
  rw [stream_append, List.map_append, h k]
  unfold stream
  rcases eq_or_ne k (key x) with rfl | hne
  · rw [Function.update_self, List.range_succ, List.filter_cons_of_pos (by simp), hx.symm]
    rfl
  · rw [Function.update_of_ne hne, List.filter_cons_of_neg (by simpa using hne.symm)]
    exact List.append_nil _

theorem Counted.take (h : Counted key num l c) (i : ℕ) : ∃ c', Counted key num (l.take i) c' := by
  refine ⟨fun k => (stream key k (l.take i)).length, fun k => ?_⟩
  have hpre : (stream key k (l.take i)).map num <+: List.range (c k) := by
    rw [← h k]
    exact ((List.take_prefix i l).filter _).map num
  have heq := List.prefix_iff_eq_take.mp hpre
  have hle := hpre.length_le
  rw [List.length_map, List.length_range] at hle
  rw [heq, List.take_range, List.length_map, Nat.min_eq_left hle]

/-- **The items of one source are in the order of their numbers.** -/
theorem Counted.pairwise (h : Counted key num l c) : l.Pairwise fun x y => key x = key y → num x < num y := by
  refine List.pairwise_iff_forall_sublist.mpr fun {x y} hsub hkey => ?_
  have hstream : [x, y].Sublist (stream key (key y) l) := by
    have hfilter := hsub.filter fun z => key z = key y
    rwa [List.filter_cons_of_pos (by simpa using hkey), List.filter_cons_of_pos (by simp), List.filter_nil] at hfilter
  have hnum : [num x, num y].Sublist (List.range (c (key y))) := by
    rw [← h (key y)]
    exact hstream.map num
  exact List.pairwise_iff_forall_sublist.mp List.pairwise_lt_range hnum

/-- **Source and number tell the items apart.** -/
theorem Counted.nodup (h : Counted key num l c) : (l.map fun x => (key x, num x)).Nodup := by
  refine List.pairwise_map.mpr (h.pairwise.imp fun {x y} hlt heq => ?_)
  obtain ⟨hkey, hnum⟩ := Prod.mk.inj heq
  exact Nat.ne_of_lt (hlt hkey) hnum

end LazyLog.Lib.Streams
