import LazyLog.Rpc.Multi

/-! # Offsets of entries (`ProcessAndBuildMap` of `rpc/log_entry`)

A server without a cache keeps, for each data file, a map from the indices of the entries to their offsets in the
file. It is extended request by request, or built in one pass over a file. Both add the entries one after the
other (`addOffsets`), so that it does not matter how a file came about. -/

namespace LazyLog.Rpc.Offsets

open LazyLog.Lib.Bytes LazyLog.Rpc.Entry LazyLog.Rpc.Multi

/-- `std::map<uint64_t, uint64_t>`. -/
abbrev OffsetMap := Std.TreeMap UInt64 ℕ

/-- The loop of the numbered `ProcessAndBuildMap`, with `n` entries to go. -/
def processAndBuildMapLoop (m : Mem) (buf currFileOffset : ℕ) :
    ℕ → ℕ → LogEntry → OffsetMap → OffsetMap × ℕ
  | 0, offset, _, map => (map, offset)
  | n + 1, offset, dummy, map =>
    let r := deserializer dummy m (buf + offset)
    if r.2 = 0 then (map, offset)
    else
      processAndBuildMapLoop m buf currFileOffset n (offset + r.2) r.1
        (map.insert r.1.logIdx (currFileOffset + offset - 4))

/-- `ProcessAndBuildMap(map, buf, curr_file_offset)`: the map after it, and the length it returns. -/
def processAndBuildMap (map : OffsetMap) (m : Mem) (buf currFileOffset : ℕ) : OffsetMap × ℕ :=
  processAndBuildMapLoop m buf currFileOffset (load m buf 4) 4 default map

/-- The loop of `ProcessAndBuildMap(map, buf, size, curr_file_offset)`. -/
def processAndBuildMapSizeLoop (m : Mem) (buf size currFileOffset offset num : ℕ) (dummy : LogEntry)
    (map : OffsetMap) : OffsetMap × ℕ × ℕ :=
  if offset < size then
    let r := deserializer dummy m (buf + offset)
    if r.2 = 0 then (map, offset, num)
    else
      processAndBuildMapSizeLoop m buf size currFileOffset (offset + r.2) (num + 1) r.1
        (map.insert r.1.logIdx (currFileOffset + offset))
  else (map, offset, num)
termination_by size - offset
decreasing_by
  have : (deserializer dummy m (buf + offset)).2 ≠ 0 := ‹_›
  omega

/-- `ProcessAndBuildMap(map, buf, size, curr_file_offset)`: the map after it, and the pair it returns. -/
def processAndBuildMapSize (map : OffsetMap) (m : Mem) (buf size currFileOffset : ℕ) : OffsetMap × ℕ × ℕ :=
  processAndBuildMapSizeLoop m buf size currFileOffset 0 0 default map

/-! ### What they compute -/

/-- The entries `es` are added, the first one at `offset`. -/
def addOffsets (map : OffsetMap) : ℕ → List LogEntry → OffsetMap
  | _, [] => map
  | offset, e :: es => addOffsets (map.insert e.logIdx offset) (offset + entrySize e) es

/-- The map of a file with these entries. -/
def offsetsOf (es : List LogEntry) : OffsetMap := addOffsets ∅ 0 es

theorem addOffsets_append : ∀ (es es' : List LogEntry) (map : OffsetMap) (offset : ℕ),
    addOffsets map offset (es ++ es') = addOffsets (addOffsets map offset es) (offset + totalSize es) es'
  | [], _, _, _ => rfl
  | e :: es, es', map, offset => by
    rw [List.cons_append, totalSize_cons, ← Nat.add_assoc]
    exact addOffsets_append es es' _ _

theorem offsetsOf_append (es es' : List LogEntry) :
    offsetsOf (es ++ es') = addOffsets (offsetsOf es) (totalSize es) es' := by
  unfold offsetsOf
  rw [addOffsets_append, Nat.zero_add]

theorem processAndBuildMapLoop_eq {m : Mem} {buf c : ℕ} : ∀ (es : List LogEntry) (offset : ℕ) (dummy : LogEntry)
    (map : OffsetMap), 4 ≤ offset → (∀ e ∈ es, e.Sized) → (∀ e ∈ es, e.flags ≠ 0) →
    HoldsAll m (buf + offset) es →
      processAndBuildMapLoop m buf c es.length offset dummy map =
        (addOffsets map (c + (offset - 4)) es, offset + totalSize es)
  | [], offset, dummy, map, _, _, _, _ => rfl
  | e :: es, offset, dummy, map, h4, hs, hf, hm => by
    rw [List.length_cons, processAndBuildMapLoop]
    simp only [deserializer_of_holds dummy hm.1 (hs e List.mem_cons_self) (hf e List.mem_cons_self)]
    rw [if_neg (entrySize_pos e).ne', processAndBuildMapLoop_eq es (offset + entrySize e) e _ (by omega)
      (fun x hx => hs x (List.mem_cons_of_mem _ hx)) (fun x hx => hf x (List.mem_cons_of_mem _ hx))
      (by rw [← Nat.add_assoc]; exact hm.2), totalSize_cons, Nat.add_assoc]
    rw [addOffsets, Nat.add_sub_assoc h4, Nat.sub_add_comm h4, Nat.add_assoc]

/-- **A request extends the map** by its entries, from the end of the file on. -/
theorem processAndBuildMap_eq {m : Mem} {buf : ℕ} {es : List LogEntry} (h : Numbered m buf es)
    (hs : ∀ e ∈ es, e.Sized) (hf : ∀ e ∈ es, e.flags ≠ 0) (map : OffsetMap) (c : ℕ) :
    processAndBuildMap map m buf c = (addOffsets map c es, 4 + totalSize es) := by
  unfold processAndBuildMap
  rw [h.num, processAndBuildMapLoop_eq es 4 _ _ (Nat.le_refl _) hs hf h.body, Nat.sub_self, Nat.add_zero]

theorem processAndBuildMapSizeLoop_eq {m : Mem} {buf size c : ℕ} : ∀ (es : List LogEntry) (offset num : ℕ)
    (dummy : LogEntry) (map : OffsetMap), (∀ e ∈ es, e.Sized) → (∀ e ∈ es, e.flags ≠ 0) →
    HoldsAll m (buf + offset) es → offset + totalSize es = size →
      processAndBuildMapSizeLoop m buf size c offset num dummy map =
        (addOffsets map (c + offset) es, size, num + es.length)
  | [], offset, num, dummy, map, _, _, _, hsize => by
    rw [totalSize_nil] at hsize
    rw [processAndBuildMapSizeLoop, if_neg (by omega), ← hsize]
    rfl
  | e :: es, offset, num, dummy, map, hs, hf, hm, hsize => by
    have hpos := entrySize_pos e
    rw [totalSize_cons] at hsize
    rw [processAndBuildMapSizeLoop, if_pos (by omega)]
    simp only [deserializer_of_holds dummy hm.1 (hs e List.mem_cons_self) (hf e List.mem_cons_self)]
    rw [if_neg hpos.ne', processAndBuildMapSizeLoop_eq es (offset + entrySize e) (num + 1) e _
      (fun x hx => hs x (List.mem_cons_of_mem _ hx)) (fun x hx => hf x (List.mem_cons_of_mem _ hx))
      (by rw [← Nat.add_assoc]; exact hm.2) (by omega), List.length_cons]
    rw [addOffsets, Nat.add_assoc c, Nat.add_assoc num, Nat.add_comm 1]

/-- **One pass over a file** builds the map of its entries. -/
theorem processAndBuildMapSize_eq {m : Mem} {buf size : ℕ} {es : List LogEntry} (hs : ∀ e ∈ es, e.Sized)
    (hf : ∀ e ∈ es, e.flags ≠ 0) (hm : HoldsAll m buf es) (hsize : totalSize es = size) :
    processAndBuildMapSize ∅ m buf size 0 = (offsetsOf es, size, es.length) := by
  unfold processAndBuildMapSize
  rw [processAndBuildMapSizeLoop_eq es 0 0 _ _ hs hf hm (by omega), Nat.zero_add, Nat.zero_add]
  rfl

/-! ### Looking up an index -/

/-- The indices of the entries go up. -/
def Ascending (es : List LogEntry) : Prop := es.Pairwise fun e e' => e.logIdx < e'.logIdx

theorem getElem?_insert_offset (map : OffsetMap) (i i' : UInt64) (offset : ℕ) :
    (map.insert i offset)[i']? = if i = i' then some offset else map[i']? := by
  rw [Std.TreeMap.getElem?_insert]
  simp only [Std.compare_eq_iff_eq]

theorem getElem?_addOffsets_of_notMem {i : UInt64} : ∀ {es : List LogEntry} {map : OffsetMap} {offset : ℕ},
    (∀ e ∈ es, e.logIdx ≠ i) → (addOffsets map offset es)[i]? = map[i]?
  | [], _, _, _ => rfl
  | e :: es, map, offset, h => by
    rw [addOffsets, getElem?_addOffsets_of_notMem fun x hx => h x (List.mem_cons_of_mem _ hx), getElem?_insert_offset,
      if_neg (h e List.mem_cons_self)]

theorem Ascending.ne_of_mem {es es' : List LogEntry} {e : LogEntry} (h : Ascending (es ++ e :: es')) :
    ∀ x ∈ es', x.logIdx ≠ e.logIdx := by
  intro x hx heq
  have hlt := (List.pairwise_cons.mp (List.pairwise_append.mp h).2.1).1 x hx
  rw [heq] at hlt
  exact UInt64.lt_irrefl _ hlt

/-- **An entry is found at the size of those before it.** -/
theorem getElem?_offsetsOf {es : List LogEntry} {e : LogEntry} {j : ℕ} (h : Ascending es)
    (he : es[j]? = some e) : (offsetsOf es)[e.logIdx]? = some (totalSize (es.take j)) := by
  obtain ⟨hj, rfl⟩ := List.getElem?_eq_some_iff.mp he
  have hsplit : es = es.take j ++ es[j] :: es.drop (j + 1) := by
    rw [← List.drop_eq_getElem_cons hj, List.take_append_drop]
  generalize es[j] = e at hsplit
  rw [hsplit] at h
  have hafter := h.ne_of_mem
  conv_lhs => rw [hsplit]
  rw [offsetsOf_append, addOffsets, getElem?_addOffsets_of_notMem hafter, getElem?_insert_offset, if_pos rfl]

theorem offsetsOf_concat (es : List LogEntry) (e : LogEntry) :
    offsetsOf (es ++ [e]) = (offsetsOf es).insert e.logIdx (totalSize es) := offsetsOf_append es [e]

/-- **The greatest index** is that of the last entry. -/
theorem maxKey?_offsetsOf {es : List LogEntry} (h : Ascending es) :
    (offsetsOf es).maxKey? = es.getLast?.map LogEntry.logIdx := by
  induction es using List.reverseRecOn with
  | nil => exact Std.TreeMap.maxKey?_emptyc
  | append_singleton es e ih =>
    obtain ⟨h1, -, h3⟩ := List.pairwise_append.mp h
    rw [offsetsOf_concat, Std.TreeMap.maxKey?_insert, ih h1, List.getLast?_concat, Option.map_some]
    cases hlast : es.getLast? with
    | none => rfl
    | some x =>
      have hlt := h3 x (List.mem_of_getLast? hlast) e List.mem_cons_self
      simp only [Option.map_some, Option.elim_some, Std.isLE_compare]
      rw [if_pos (UInt64.le_of_lt hlt)]

end LazyLog.Rpc.Offsets
