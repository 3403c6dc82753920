import Mathlib.Data.List.TakeWhile
import LazyLog.Lib.Stride
import LazyLog.Rpc.Entry

/-! # Sequences of entries (`rpc/log_entry`)

The serialisers and deserialisers of vectors of entries. A vector is a list; `es.emplace_back()`
followed by `Deserializer(es.back(), …)` appends what `deserializer` makes of a default entry.

`HoldsAll m a es` says that the entries `es` stand one after the other in `m` from the address `a` on.
Each decoder is characterised on a memory of this kind: the numbered one reads all of them, the bounded
one the longest run that fits (`takeFit`). -/

namespace LazyLog.Rpc.Multi

open LazyLog.Lib.Bytes LazyLog.Lib.Stride LazyLog.Rpc.Entry

/-! ### The functions -/

/-- The loop of the strided `MultiSerializer`, at the index `i`, the offset and the count reached. An
interval of zero never ends in the source and is not modelled. -/
def multiSerializerLoop (es : List LogEntry) (upTo itrv buf : ℕ) (i offset num : ℕ) (m : Mem) :
    Mem × ℕ × ℕ × ℕ :=
  if _h : 0 < itrv ∧ i ≤ upTo then
    let p := serializer (es.getD i default) m (buf + offset)
    multiSerializerLoop es upTo itrv buf (i + itrv) (offset + p.2) (num + 1) p.1
  else (m, i, offset, num)
termination_by upTo + 1 - i

/-- `MultiSerializer(es, from, to, itrv, buf)`: the memory after it, the new value of `to`, and the
length it returns. -/
def multiSerializer (es : List LogEntry) (frm upTo itrv : ℕ) (m : Mem) (buf : ℕ) : Mem × ℕ × ℕ :=
  let r := multiSerializerLoop es upTo itrv buf frm 4 0 m
  (writeBytes r.1 buf (leBytes 4 r.2.2.2), r.2.1 - itrv, r.2.2.1)

/-- The loop of the numbered `MultiDeserializer`, with `n` entries to go. -/
def multiDeserializerLoop (m : Mem) (buf : ℕ) : ℕ → ℕ → List LogEntry → List LogEntry × ℕ
  | 0, offset, es => (es, offset)
  | n + 1, offset, es =>
    let r := deserializer default m (buf + offset)
    if r.2 = 0 then (es, offset) else multiDeserializerLoop m buf n (offset + r.2) (es ++ [r.1])

/-- `MultiDeserializer(es, buf)`. -/
def multiDeserializer (es : List LogEntry) (m : Mem) (buf : ℕ) : List LogEntry × ℕ :=
  multiDeserializerLoop m buf (load m buf 4) 4 es

/-- The loop of `MultiDeserializer(es, buf, size)`. -/
def multiDeserializerSizeLoop (m : Mem) (buf size offset : ℕ) (es : List LogEntry) :
    List LogEntry × ℕ :=
  if offset < size then
    let r := deserializer default m (buf + offset)
    if r.2 = 0 then (es, offset) else multiDeserializerSizeLoop m buf size (offset + r.2) (es ++ [r.1])
  else (es, offset)
termination_by size - offset
decreasing_by
  have : (deserializer default m (buf + offset)).2 ≠ 0 := ‹_›
  omega

/-- `MultiDeserializer(es, buf, size)`. -/
def multiDeserializerSize (es : List LogEntry) (m : Mem) (buf size : ℕ) : List LogEntry × ℕ :=
  multiDeserializerSizeLoop m buf size 0 es

/-- The loop of `MultiDeserializerMaxSize`. -/
def multiDeserializerMaxSizeLoop (m : Mem) (buf maxSize offset : ℕ) (es : List LogEntry) :
    List LogEntry × ℕ :=
  if offset < maxSize then
    if maxSize - offset < metaDataSize then (es, offset)
    else if maxSize - offset < getSizeFromBuf m (buf + offset) then (es, offset)
    else
      let r := deserializer default m (buf + offset)
      if r.2 = 0 then (es, offset)
      else multiDeserializerMaxSizeLoop m buf maxSize (offset + r.2) (es ++ [r.1])
  else (es, offset)
termination_by maxSize - offset
decreasing_by
  have : (deserializer default m (buf + offset)).2 ≠ 0 := ‹_›
  omega

/-- `MultiDeserializerMaxSize`. -/
def multiDeserializerMaxSize (es : List LogEntry) (m : Mem) (buf maxSize : ℕ) :
    List LogEntry × ℕ :=
  multiDeserializerMaxSizeLoop m buf maxSize 0 es

/-! ### Entries in a memory -/

/-- The bytes a sequence of entries takes. -/
def totalSize (es : List LogEntry) : ℕ := (es.map entrySize).sum

/-- The sum of `GetSize` over a sequence. -/
def sumSize (es : List LogEntry) : ℕ := (es.map getSize).sum

@[simp] theorem totalSize_nil : totalSize [] = 0 := rfl

@[simp] theorem totalSize_cons (e : LogEntry) (es : List LogEntry) :
    totalSize (e :: es) = entrySize e + totalSize es := by simp [totalSize]

@[simp] theorem totalSize_append (es es' : List LogEntry) :
    totalSize (es ++ es') = totalSize es + totalSize es' := by simp [totalSize]

theorem le_totalSize : ∀ es : List LogEntry, 32 * es.length ≤ totalSize es
  | [] => Nat.le_refl _
  | e :: es => by
    have h1 := le_totalSize es
    have h2 : 32 ≤ entrySize e := metaDataSize_le_entrySize e
    rw [totalSize_cons, List.length_cons]
    omega

/-- The entries stand one after the other from the address `a` on. -/
def HoldsAll (m : Mem) : ℕ → List LogEntry → Prop
  | _, [] => True
  | a, e :: es => Holds m a (encode e) ∧ HoldsAll m (a + entrySize e) es

theorem HoldsAll.congr {m m' : Mem} : ∀ {es : List LogEntry} {a a' : ℕ}, HoldsAll m a es →
    (∀ i < totalSize es, m' (a' + i) = m (a + i)) → HoldsAll m' a' es
  | [], _, _, _, _ => trivial
  | e :: es, a, a', h, hm => by
    have hle := length_encode_le e
    rw [totalSize_cons] at hm
    refine ⟨h.1.congr fun i hi => hm i (by omega), h.2.congr fun i hi => ?_⟩
    have := hm (entrySize e + i) (by omega)
    rwa [← Nat.add_assoc, ← Nat.add_assoc] at this

theorem holdsAll_append {m : Mem} : ∀ {es es' : List LogEntry} {a : ℕ},
    HoldsAll m a (es ++ es') ↔ HoldsAll m a es ∧ HoldsAll m (a + totalSize es) es'
  | [], es', a => by simp [HoldsAll]
  | e :: es, es', a => by
    rw [List.cons_append, totalSize_cons, ← Nat.add_assoc]
    simp only [HoldsAll]
    rw [holdsAll_append, and_assoc]

theorem HoldsAll.getElem {m : Mem} {a i : ℕ} {es : List LogEntry} {e : LogEntry}
    (h : HoldsAll m a es) (he : es[i]? = some e) :
    Holds m (a + totalSize (es.take i)) (encode e) := by
  obtain ⟨hi, rfl⟩ := List.getElem?_eq_some_iff.mp he
  rw [← List.take_append_drop i es, List.drop_eq_getElem_cons hi] at h
  exact (holdsAll_append.mp h).2.1

/-- An entry the decoders read back: sized, not too long for the size arithmetic, flags not zero. -/
structure Readable (e : LogEntry) : Prop where
  sized : e.Sized
  short : e.data.length + 3 < 2 ^ 32
  flagged : e.flags ≠ 0

/-! ### Writing and reading a numbered sequence -/

/-- **The loop of the strided serialiser** writes the selected entries one after the other. -/
theorem multiSerializerLoop_eq (es : List LogEntry) (upTo : ℕ) {itrv : ℕ} (buf : ℕ) (hn : 0 < itrv)
    (i offset num : ℕ) (m : Mem) :
    ∃ m', multiSerializerLoop es upTo itrv buf i offset num m =
        (m', nextIdx itrv i (upTo + 1), offset + totalSize (stride es itrv i (upTo + 1)),
          num + count itrv i (upTo + 1)) ∧
      HoldsAll m' (buf + offset) (stride es itrv i (upTo + 1)) ∧ ∀ x < buf + offset, m' x = m x := by
  rw [multiSerializerLoop]
  by_cases hi : i ≤ upTo
  · obtain ⟨m', h1, h2, h3⟩ := multiSerializerLoop_eq es upTo buf hn (i + itrv)
      (offset + entrySize (es.getD i default)) (num + 1)
      (writeBytes m (buf + offset) (encode (es.getD i default)))
    have hlen := length_encode_le (es.getD i default)
    have hcons := stride_cons (l := es) hn (show i < upTo + 1 by omega)
    have hcount := count_cons hn (show i < upTo + 1 by omega)
    refine ⟨m', ?_, ?_, ?_⟩
    · rw [dif_pos ⟨hn, hi⟩]
      simp only [serializer_eq]
      rw [h1, hcons, totalSize_cons, hcount]
      unfold nextIdx
      rw [hcount, Nat.succ_mul]
      simp only [Prod.mk.injEq, true_and]
      omega
    · rw [hcons]
      refine ⟨(holds_writeBytes m (buf + offset) _).congr fun x hx => h3 _ (by omega), ?_⟩
      rwa [Nat.add_assoc]
    · intro x hx
      rw [h3 x (by omega), writeBytes_of_notMem (Or.inl hx)]
  · have hle : upTo + 1 ≤ i := by omega
    refine ⟨m, ?_, ?_, fun _ _ => rfl⟩
    · rw [dif_neg (by omega), stride_of_le hn hle]
      unfold nextIdx
      rw [count_of_le hn hle]
      simp
    · rw [stride_of_le hn hle]
      trivial
termination_by upTo + 1 - i

/-- What a numbered sequence looks like in a buffer. -/
structure Numbered (m : Mem) (buf : ℕ) (es : List LogEntry) : Prop where
  num : load m buf 4 = es.length
  body : HoldsAll m (buf + 4) es

/-- **The strided serialiser** writes the selected entries with their number, and leaves `to` at the last
selected index. -/
theorem multiSerializer_eq (es : List LogEntry) (frm upTo : ℕ) {itrv : ℕ} (hn : 0 < itrv) (m : Mem)
    (buf : ℕ) (hlt : count itrv frm (upTo + 1) < 2 ^ 32) :
    ∃ m', multiSerializer es frm upTo itrv m buf = (m', nextIdx itrv frm (upTo + 1) - itrv,
        4 + totalSize (stride es itrv frm (upTo + 1))) ∧
      Numbered m' buf (stride es itrv frm (upTo + 1)) := by
  obtain ⟨m', h1, h2, -⟩ := multiSerializerLoop_eq es upTo buf hn frm 4 0 m
  rw [Nat.zero_add] at h1
  refine ⟨writeBytes m' buf (leBytes 4 (count itrv frm (upTo + 1))), ?_, ?_, ?_⟩
  · simp only [multiSerializer, h1]
  · rw [(holds_writeBytes m' buf _).load, length_stride]
    exact Nat.mod_eq_of_lt hlt
  · refine h2.congr fun i _ => writeBytes_of_notMem (Or.inr ?_)
    rw [length_leBytes]
    omega

theorem multiDeserializerLoop_eq {m : Mem} {buf : ℕ} : ∀ (es : List LogEntry) (offset : ℕ)
    (acc : List LogEntry), (∀ e ∈ es, e.Sized) → HoldsAll m (buf + offset) es →
      multiDeserializerLoop m buf es.length offset acc =
        (acc ++ es.takeWhile (fun e => e.flags ≠ 0),
          offset + totalSize (es.takeWhile fun e => e.flags ≠ 0))
  | [], offset, acc, _, _ => by simp [multiDeserializerLoop]
  | e :: es, offset, acc, hes, hm => by
    rw [List.length_cons, multiDeserializerLoop]
    by_cases hf : e.flags = 0
    · have hzero : (deserializer default m (buf + offset)).2 = 0 :=
        deserializer_of_flag_zero _ ((getFlagFromBuf_of_holds hm.1.left).trans hf)
      simp [hzero, hf]
    · simp only [deserializer_of_holds default hm.1 (hes e (by simp)) hf]
      rw [if_neg (entrySize_pos e).ne',
        multiDeserializerLoop_eq es (offset + entrySize e) (acc ++ [e])
          (fun e' he' => hes e' (by simp [he'])) (by rw [← Nat.add_assoc]; exact hm.2),
        List.takeWhile_cons_of_pos (by simpa using hf), totalSize_cons]
      simp [Nat.add_assoc]

/-- **The numbered decoder** on a sequence all of whose flags are set. -/
theorem multiDeserializer_eq {m : Mem} {buf : ℕ} {es : List LogEntry} (h : Numbered m buf es)
    (hs : ∀ e ∈ es, e.Sized) (hf : ∀ e ∈ es, e.flags ≠ 0) (acc : List LogEntry) :
    multiDeserializer acc m buf = (acc ++ es, 4 + totalSize es) := by
  have hall : es.takeWhile (fun e => e.flags ≠ 0) = es :=
    List.takeWhile_eq_self_iff.mpr fun e he => by simpa using hf e he
  unfold multiDeserializer
  rw [h.num, multiDeserializerLoop_eq es 4 acc hs h.body, hall]

/-! ### The bounded decoder -/

/-- The longest run from the front that takes at most `room` bytes. -/
def takeFit : ℕ → List LogEntry → List LogEntry
  | _, [] => []
  | room, e :: es => if entrySize e ≤ room then e :: takeFit (room - entrySize e) es else []

theorem totalSize_takeFit_le : ∀ (room : ℕ) (es : List LogEntry),
    totalSize (takeFit room es) ≤ room
  | _, [] => Nat.zero_le _
  | room, e :: es => by
    unfold takeFit
    split_ifs with h
    · have := totalSize_takeFit_le (room - entrySize e) es
      rw [totalSize_cons]; omega
    · exact Nat.zero_le _

theorem takeFit_of_le : ∀ {room : ℕ} {es : List LogEntry}, totalSize es ≤ room → takeFit room es = es
  | _, [], _ => rfl
  | room, e :: es, h => by
    rw [totalSize_cons] at h
    rw [takeFit, if_pos (by omega), takeFit_of_le (by omega)]

theorem takeFit_min : ∀ {n : ℕ} (room : ℕ) {es : List LogEntry}, totalSize es ≤ n →
    takeFit (min n room) es = takeFit room es
  | _, _, [], _ => rfl
  | n, room, e :: es, h => by
    rw [totalSize_cons] at h
    unfold takeFit
    by_cases hfit : entrySize e ≤ room
    · rw [if_pos (by omega), if_pos hfit, ← Nat.sub_min_sub_right, takeFit_min _ (by omega)]
    · rw [if_neg (by omega), if_neg hfit]

theorem takeFit_eq : ∀ (room : ℕ) (es : List LogEntry), ∃ rest, es = takeFit room es ++ rest ∧
    ∀ e ∈ rest.head?, room < totalSize (takeFit room es) + entrySize e
  | _, [] => ⟨[], rfl, by simp⟩
  | room, e :: es => by
    unfold takeFit
    split_ifs with h
    · obtain ⟨rest, h1, h2⟩ := takeFit_eq (room - entrySize e) es
      refine ⟨rest, by rw [List.cons_append, ← h1], fun e' he' => ?_⟩
      have := h2 e' he'
      rw [totalSize_cons]; omega
    · refine ⟨e :: es, rfl, fun e' he' => ?_⟩
      cases he'
      rw [totalSize_nil]; omega

theorem takeFit_isPrefix (room : ℕ) (es : List LogEntry) : takeFit room es <+: es := by
  obtain ⟨rest, h, -⟩ := takeFit_eq room es
  exact ⟨rest, h.symm⟩

theorem metaDataSize_le_deserializer {e : LogEntry} {m : Mem} {buf : ℕ} (h : (deserializer e m buf).2 ≠ 0) :
    metaDataSize ≤ (deserializer e m buf).2 := by
  unfold deserializer at h ⊢
  dsimp only at h ⊢
  split_ifs at h ⊢
  · exact absurd rfl h
  · exact Nat.le_add_right _ _

/-- The bounded decoder reads an entry for every `metaDataSize` bytes at most, whatever the bytes are. -/
theorem length_multiDeserializerMaxSizeLoop_le (m : Mem) (buf maxSize offset : ℕ) (es : List LogEntry) :
    metaDataSize * (multiDeserializerMaxSizeLoop m buf maxSize offset es).1.length ≤
      metaDataSize * es.length + (maxSize - offset) := by
  fun_induction multiDeserializerMaxSizeLoop m buf maxSize offset es with
  | case4 offset es hlt hmeta hsize r hr ih =>
    have hle : metaDataSize ≤ r.2 := metaDataSize_le_deserializer hr
    rw [List.length_append, List.length_singleton, Nat.mul_succ] at ih
    omega
  | case1 | case2 | case3 | case5 => exact Nat.le_add_right _ _

/-- The bounded decoder stops at the end of the buffer, and at a record that shows flag zero. -/
theorem multiDeserializerMaxSizeLoop_stop {b v : Mem} {buf a maxSize : ℕ}
    (hb : ∀ i < maxSize, b (buf + i) = v (a + i)) (offset : ℕ) (acc : List LogEntry)
    (hend : offset < maxSize → getFlagFromBuf v (a + offset) = 0) :
    multiDeserializerMaxSizeLoop b buf maxSize offset acc = (acc, offset) := by
  rw [multiDeserializerMaxSizeLoop]
  simp only
  split_ifs with h1 h2 h3 h4
  · rfl
  · rfl
  · rfl
  · exfalso
    refine h4 (deserializer_of_flag_zero _ ?_)
    have hl : load b (buf + offset + flagPos) 2 = load v (a + offset + flagPos) 2 := by
      refine load_congr fun i hi => ?_
      have := hb (offset + flagPos + i) (by unfold metaDataSize at h2; omega)
      rwa [← Nat.add_assoc, ← Nat.add_assoc, ← Nat.add_assoc, ← Nat.add_assoc] at this
    unfold getFlagFromBuf at hend ⊢
    rw [hl]
    exact hend h1
  · rfl

/-- **The bounded decoder** on a buffer whose first `maxSize` bytes are those of `v` from `a` on: if the
entries `es` stand there and are followed by the end of the buffer or by a record that shows flag zero,
it reads the longest run of them that fits. -/
theorem multiDeserializerMaxSizeLoop_eq {b v : Mem} {buf a maxSize : ℕ}
    (hb : ∀ i < maxSize, b (buf + i) = v (a + i)) :
    ∀ (es : List LogEntry) (offset : ℕ) (acc : List LogEntry), (∀ e ∈ es, Readable e) →
      HoldsAll v (a + offset) es →
      (offset + totalSize es < maxSize → getFlagFromBuf v (a + offset + totalSize es) = 0) →
      multiDeserializerMaxSizeLoop b buf maxSize offset acc =
        (acc ++ takeFit (maxSize - offset) es,
          offset + totalSize (takeFit (maxSize - offset) es))
  | [], offset, acc, _, _, hend => by
    simp only [takeFit, totalSize_nil, List.append_nil, Nat.add_zero] at hend ⊢
    exact multiDeserializerMaxSizeLoop_stop hb offset acc hend
  | e :: es, offset, acc, hes, hv, hend => by
    obtain ⟨hsz, hsh, hfl⟩ := hes e (by simp)
    have hsize := getSize_eq hsz hsh
    have hlen := length_encode_le e
    have hmeta := metaDataSize_le_entrySize e
    have hag : ∀ i, offset + i < maxSize → b (buf + offset + i) = v (a + offset + i) := by
      intro i hi
      have := hb (offset + i) hi
      rwa [← Nat.add_assoc, ← Nat.add_assoc] at this
    rw [multiDeserializerMaxSizeLoop]
    by_cases h1 : maxSize - offset < metaDataSize
    · -- not even a header is left
      have hno : takeFit (maxSize - offset) (e :: es) = [] := by
        unfold takeFit; rw [if_neg (by omega)]
      rw [hno]
      split_ifs <;> simp
    · have h0 : offset < maxSize := by unfold metaDataSize flagPos at h1; omega
      have hhead : Holds b (buf + offset) (header e) := by
        refine hv.1.left.congr fun i hi => hag i ?_
        rw [length_header] at hi; omega
      have hgs : getSizeFromBuf b (buf + offset) = entrySize e := by
        rw [getSizeFromBuf_of_holds hhead, hsize]
      rw [if_pos h0, if_neg h1, hgs]
      by_cases h2 : maxSize - offset < entrySize e
      · rw [if_pos h2]
        unfold takeFit; rw [if_neg (by omega)]; simp
      · have hhold : Holds b (buf + offset) (encode e) :=
          hv.1.congr fun i hi => hag i (by omega)
        rw [if_neg h2]
        simp only [deserializer_of_holds default hhold hsz hfl]
        rw [if_neg (entrySize_pos e).ne',
          multiDeserializerMaxSizeLoop_eq hb es (offset + entrySize e) (acc ++ [e])
            (fun e' he' => hes e' (by simp [he'])) (by rw [← Nat.add_assoc]; exact hv.2)
            (by
              intro h
              rw [totalSize_cons] at hend
              simpa only [← Nat.add_assoc] using hend (by omega))]
        have htake : takeFit (maxSize - offset) (e :: es) =
            e :: takeFit (maxSize - (offset + entrySize e)) es := by
          rw [takeFit, if_pos (by omega), Nat.sub_sub]
        rw [htake, totalSize_cons]
        simp [Nat.add_assoc]

end LazyLog.Rpc.Multi
