import LazyLog.Rpc.Multi

/-! # Decoding undoes encoding (`rpc/log_entry`)

The two other serialisers of a vector of entries, the whole vector and a range of it, and what the decoders
and the accessors make of a buffer that a serialiser has filled.

* `Body m a sel`: the entries `sel` can be read from the address `a` on, by the unnumbered decoder as a
  sequence and by the accessors each at its own offset.
* `Numbered.decodes`: the numbered decoder on top of it.
* `decoding_undoes_encoding`: every serialiser leaves such a buffer, for the entries it selects. -/

namespace LazyLog.Rpc.RoundTrip

open LazyLog.Lib.Bytes LazyLog.Lib.Stride LazyLog.Rpc.Entry LazyLog.Rpc.Multi

/-! ### The functions -/

/-- The loop `offset += Serializer(e, buf + offset)` over a sequence of entries. -/
def serializerLoop (buf : ℕ) : List LogEntry → Mem × ℕ → Mem × ℕ
  | [], p => p
  | e :: es, p =>
    let r := serializer e p.1 (buf + p.2)
    serializerLoop buf es (r.1, p.2 + r.2)

/-- `MultiSerializer(es, buf)`: the memory after it, and the length it returns. -/
def multiSerializerAll (es : List LogEntry) (m : Mem) (buf : ℕ) : Mem × ℕ :=
  serializerLoop buf es (writeBytes m buf (leBytes 4 es.length), 4)

/-- `MultiSerializer(es, from, num, buf, wo_num)`. -/
def multiSerializerRange (es : List LogEntry) (frm num : ℕ) (m : Mem) (buf : ℕ) (woNum : Bool) :
    Mem × ℕ :=
  serializerLoop buf ((List.range num).map fun i => es.getD (frm + i) default)
    (if woNum then (m, 0) else (writeBytes m buf (leBytes 4 num), 4))

/-! ### What a filled buffer gives back -/

/-- The entries before the first whose flags are zero. -/
def flagged (es : List LogEntry) : List LogEntry := es.takeWhile fun e => e.flags ≠ 0

/-- The accessors read the entry `e` in place. -/
structure ReadsBack (m : Mem) (a : ℕ) (e : LogEntry) : Prop where
  size : getSizeFromBuf m a = getSize e
  clientId : getClientId m a = e.clientId
  clientSeq : getClientSeq m a = e.clientSeq
  logIdx : getIdx m a = e.logIdx
  flags : getFlagFromBuf m a = e.flags

/-- The entries `sel` can be read from the address `a` on. -/
structure Body (m : Mem) (a : ℕ) (sel : List LogEntry) : Prop where
  decode : ∀ acc, multiDeserializerSize acc m a (sumSize sel) =
    (acc ++ flagged sel, sumSize (flagged sel))
  reads : ∀ i e, sel[i]? = some e → ReadsBack m (a + sumSize (sel.take i)) e

/-- The same, with their number in front. -/
structure Decodes (m : Mem) (buf : ℕ) (sel : List LogEntry) : Prop where
  decode : ∀ acc, multiDeserializer acc m buf = (acc ++ flagged sel, 4 + sumSize (flagged sel))
  body : Body m (buf + 4) sel

/-- An entry whose size field is its length, short enough for the arithmetic on it. -/
structure Encodable (e : LogEntry) : Prop where
  sized : e.Sized
  short : e.data.length ≤ 2 ^ 32 - 4

theorem sumSize_eq {es : List LogEntry} (h : ∀ e ∈ es, Encodable e) : sumSize es = totalSize es := by
  unfold sumSize totalSize
  congr 1
  refine List.map_congr_left fun e he => ?_
  have hshort := (h e he).short
  exact getSize_eq (h e he).sized (by omega)

theorem readsBack_of_holds {m : Mem} {a : ℕ} {e : LogEntry} (h : Holds m a (header e)) :
    ReadsBack m a e := by
  obtain ⟨hid, hseq⟩ := getReqId_of_holds h
  exact ⟨getSizeFromBuf_of_holds h, hid, hseq, getIdx_of_holds h, getFlagFromBuf_of_holds h⟩

/-- The loop of the unnumbered decoder, stopped by the end of the buffer or by a flag that is zero. -/
theorem multiDeserializerSizeLoop_eq {m : Mem} {buf : ℕ} : ∀ (es : List LogEntry) (offset : ℕ)
    (acc : List LogEntry), (∀ e ∈ es, e.Sized) → HoldsAll m (buf + offset) es →
      multiDeserializerSizeLoop m buf (offset + totalSize es) offset acc =
        (acc ++ flagged es, offset + totalSize (flagged es))
  | [], offset, acc, _, _ => by
    rw [multiDeserializerSizeLoop]
    simp [flagged]
  | e :: es, offset, acc, hes, hm => by
    have hpos := entrySize_pos e
    rw [multiDeserializerSizeLoop, totalSize_cons, if_pos (by omega)]
    by_cases hf : e.flags = 0
    · have hzero : (deserializer default m (buf + offset)).2 = 0 :=
        deserializer_of_flag_zero _ ((getFlagFromBuf_of_holds hm.1.left).trans hf)
      simp [hzero, hf, flagged]
    · have hcons : flagged (e :: es) = e :: flagged es :=
        List.takeWhile_cons_of_pos (by simpa using hf)
      simp only [deserializer_of_holds default hm.1 (hes e (by simp)) hf]
      rw [if_neg hpos.ne', ← Nat.add_assoc,
        multiDeserializerSizeLoop_eq es (offset + entrySize e) (acc ++ [e])
          (fun e' he' => hes e' (by simp [he'])) (by rw [← Nat.add_assoc]; exact hm.2),
        hcons, totalSize_cons]
      simp [Nat.add_assoc]

/-- **The unnumbered decoder** on a sequence all of whose flags are set. -/
theorem multiDeserializerSize_eq {m : Mem} {buf : ℕ} {es : List LogEntry} (hs : ∀ e ∈ es, e.Sized)
    (hf : ∀ e ∈ es, e.flags ≠ 0) (h : HoldsAll m buf es) :
    multiDeserializerSize [] m buf (totalSize es) = (es, totalSize es) := by
  have hall : flagged es = es := List.takeWhile_eq_self_iff.mpr fun e he => by simpa using hf e he
  have hloop := @multiDeserializerSizeLoop_eq m buf es 0 [] hs h
  rwa [hall, Nat.zero_add, List.nil_append] at hloop

theorem flagged_subset {es : List LogEntry} {e : LogEntry} (h : e ∈ flagged es) : e ∈ es :=
  (List.takeWhile_prefix _).subset h

/-- **Entries that stand one after the other can be read.** -/
theorem body_of_holdsAll {m : Mem} {a : ℕ} {sel : List LogEntry} (henc : ∀ e ∈ sel, Encodable e)
    (h : HoldsAll m a sel) : Body m a sel := by
  have hsize := sumSize_eq henc
  have hflagged := sumSize_eq fun e he => henc e (flagged_subset he)
  constructor
  · intro acc
    have hloop := @multiDeserializerSizeLoop_eq m a sel 0 acc (fun e he => (henc e he).sized) h
    unfold multiDeserializerSize
    rw [hsize, hflagged]
    simpa using hloop
  · intro i e he
    have htake : sumSize (sel.take i) = totalSize (sel.take i) :=
      sumSize_eq fun e' he' => henc e' (List.mem_of_mem_take he')
    rw [htake]
    exact readsBack_of_holds (h.getElem he).left

theorem decodes_of_numbered {m : Mem} {buf : ℕ} {sel : List LogEntry} (henc : ∀ e ∈ sel, Encodable e)
    (h : Numbered m buf sel) : Decodes m buf sel := by
  have hflagged := sumSize_eq fun e he => henc e (flagged_subset he)
  refine ⟨fun acc => ?_, body_of_holdsAll henc h.body⟩
  unfold multiDeserializer
  rw [h.num, multiDeserializerLoop_eq sel 4 acc (fun e he => (henc e he).sized) h.body, hflagged]
  rfl

/-! ### What the serialisers leave -/

/-- **The loop over a sequence** writes its entries one after the other, and nothing before them. -/
theorem serializerLoop_eq (buf : ℕ) : ∀ (es : List LogEntry) (m : Mem) (offset : ℕ),
    ∃ m', serializerLoop buf es (m, offset) = (m', offset + totalSize es) ∧
      HoldsAll m' (buf + offset) es ∧ ∀ x < buf + offset, m' x = m x
  | [], m, offset => ⟨m, rfl, trivial, fun _ _ => rfl⟩
  | e :: es, m, offset => by
    obtain ⟨m', h1, h2, h3⟩ := serializerLoop_eq buf es (writeBytes m (buf + offset) (encode e))
      (offset + entrySize e)
    have hlen := length_encode_le e
    refine ⟨m', ?_, ⟨?_, ?_⟩, ?_⟩
    · rw [serializerLoop, totalSize_cons, ← Nat.add_assoc, ← h1]
      simp only [serializer_eq]
    · exact (holds_writeBytes m (buf + offset) _).congr fun x hx => h3 _ (by omega)
    · rwa [Nat.add_assoc]
    · intro x hx
      rw [h3 x (by omega), writeBytes_of_notMem (Or.inl hx)]

theorem serializerLoop_numbered {es : List LogEntry} (hlen : es.length < 2 ^ 32) (m : Mem) (buf : ℕ) :
    ∃ m', serializerLoop buf es (writeBytes m buf (leBytes 4 es.length), 4) =
        (m', 4 + totalSize es) ∧ Numbered m' buf es := by
  obtain ⟨m', h1, h2, h3⟩ := serializerLoop_eq buf es (writeBytes m buf (leBytes 4 es.length)) 4
  refine ⟨m', h1, ?_, h2⟩
  have hnum : load m' buf 4 = load (writeBytes m buf (leBytes 4 es.length)) buf 4 :=
    load_congr fun i hi => h3 _ (by omega)
  rw [hnum, (holds_writeBytes m buf _).load]
  exact Nat.mod_eq_of_lt hlen

theorem map_range_getD {es : List LogEntry} {frm num : ℕ} (h : frm + num ≤ es.length) :
    ((List.range num).map fun i => es.getD (frm + i) default) = (es.drop frm).take num := by
  refine List.ext_getElem (by simp; omega) fun i h1 h2 => ?_
  simp only [List.length_map, List.length_range] at h1
  simp only [List.getElem_map, List.getElem_range, List.getElem_take, List.getElem_drop]
  exact List.getD_eq_getElem _ _ (by omega)

/-- The last of the indices `frm, frm + itrv, …` up to `upTo`. -/
structure LastIdx (frm upTo itrv last : ℕ) : Prop where
  selected : ∃ k, last = frm + k * itrv
  le : last ≤ upTo
  next : upTo < last + itrv

theorem lastIdx_nextIdx {frm upTo itrv : ℕ} (hn : 0 < itrv) (h : frm ≤ upTo) :
    LastIdx frm upTo itrv (nextIdx itrv frm (upTo + 1) - itrv) := by
  have hle := le_nextIdx (i := frm) (u := upTo + 1) hn
  have hlt := nextIdx_lt (i := frm) (u := upTo + 1) hn (by omega)
  have hpos := (count_pos hn).mpr (show frm < upTo + 1 by omega)
  obtain ⟨k, hk⟩ : ∃ k, count itrv frm (upTo + 1) = k + 1 := ⟨_, (Nat.succ_pred_eq_of_pos hpos).symm⟩
  have hnext : nextIdx itrv frm (upTo + 1) = frm + k * itrv + itrv := by
    unfold nextIdx
    rw [hk, Nat.succ_mul, Nat.add_assoc]
  rw [hnext] at hle hlt ⊢
  rw [Nat.add_sub_cancel]
  exact ⟨⟨k, rfl⟩, by omega, by omega⟩

theorem mem_of_mem_stride {es : List LogEntry} {frm u itrv : ℕ} {e : LogEntry} (hn : 0 < itrv)
    (hu : u ≤ es.length) (h : e ∈ stride es itrv frm u) : e ∈ es := by
  obtain ⟨j, hj⟩ := List.mem_iff_getElem?.mp h
  rw [getElem?_stride hn hu] at hj
  split_ifs at hj with hlt
  exact List.mem_of_getElem? hj

/-- **Decoding undoes encoding**, whatever stood in the buffer before. Each serialiser returns the size of
what it writes, and leaves a buffer from which the decoders take the selected entries up to the first whose
flags are zero, and the accessors the fields of each of them; the strided one leaves `to` at the last
selected index. -/
theorem decoding_undoes_encoding (es : List LogEntry) (m : Mem) (buf : ℕ) (hlen : es.length < 2 ^ 32)
    (henc : ∀ e ∈ es, e.Sized ∧ e.data.length ≤ 2 ^ 32 - 4) :
    (∃ m', multiSerializerAll es m buf = (m', 4 + sumSize es) ∧ Decodes m' buf es) ∧
    (∀ frm num, frm + num ≤ es.length →
      (∃ m', multiSerializerRange es frm num m buf false =
          (m', 4 + sumSize ((es.drop frm).take num)) ∧ Decodes m' buf ((es.drop frm).take num)) ∧
      ∃ m', multiSerializerRange es frm num m buf true = (m', sumSize ((es.drop frm).take num)) ∧
        Body m' buf ((es.drop frm).take num)) ∧
    ∀ frm upTo itrv, 0 < itrv → frm ≤ upTo → upTo < es.length →
      ∃ m' last, multiSerializer es frm upTo itrv m buf =
          (m', last, 4 + sumSize (stride es itrv frm (upTo + 1))) ∧
        Decodes m' buf (stride es itrv frm (upTo + 1)) ∧ LastIdx frm upTo itrv last := by
  have hall : ∀ e ∈ es, Encodable e := fun e he => ⟨(henc e he).1, (henc e he).2⟩
  refine ⟨?_, fun frm num h => ?_, fun frm upTo itrv hn hle hup => ?_⟩
  · obtain ⟨m', h1, h2⟩ := serializerLoop_numbered hlen m buf
    exact ⟨m', by rw [sumSize_eq hall]; exact h1, decodes_of_numbered hall h2⟩
  · have hsel : ∀ e ∈ (es.drop frm).take num, Encodable e := fun e he =>
      hall e (List.mem_of_mem_drop (List.mem_of_mem_take he))
    have hnum : ((es.drop frm).take num).length = num := by
      rw [List.length_take, List.length_drop]
      omega
    unfold multiSerializerRange
    rw [map_range_getD h, sumSize_eq hsel]
    constructor
    · obtain ⟨m', h1, h2⟩ := serializerLoop_numbered (by rw [hnum]; omega) m buf
      rw [hnum] at h1
      exact ⟨m', h1, decodes_of_numbered hsel h2⟩
    · obtain ⟨m', h1, h2, -⟩ := serializerLoop_eq buf ((es.drop frm).take num) m 0
      rw [Nat.zero_add] at h1
      exact ⟨m', h1, body_of_holdsAll hsel h2⟩
  · have hsel : ∀ e ∈ stride es itrv frm (upTo + 1), Encodable e := fun e he =>
      hall e (mem_of_mem_stride hn hup he)
    have hcount : count itrv frm (upTo + 1) < 2 ^ 32 := by
      refine lt_of_le_of_lt ((count_le_iff hn).mpr ?_) hlen
      have := Nat.le_mul_of_pos_right es.length hn
      omega
    obtain ⟨m', h1, h2⟩ := multiSerializer_eq es frm upTo hn m buf hcount
    exact ⟨m', _, by rw [sumSize_eq hsel]; exact h1, decodes_of_numbered hsel h2, lastIdx_nextIdx hn hle⟩

/-- Three entries: of three bytes of data, of none, and of one byte with flags zero. -/
def threeEntries : List LogEntry :=
  [⟨7, 1, 40, 3, 1, 2, [9, 8, 7]⟩, ⟨7, 2, 41, 0, 1, 2, []⟩, ⟨7, 3, 42, 1, 0, 2, [5]⟩]

/-- They take 36, 32 and 36 bytes; the decoder stops at the third. -/
theorem decoding_undoes_encoding_three :
    (∃ m', multiSerializerAll threeEntries (fun _ => 255) 5 = (m', 108) ∧
      multiDeserializer [] m' 5 = (threeEntries.take 2, 72)) ∧
    ∃ m', multiSerializer threeEntries 0 2 2 (fun _ => 255) 5 = (m', 2, 76) := by
  obtain ⟨⟨m', h1, h2⟩, -, h3⟩ := decoding_undoes_encoding threeEntries (fun _ => 255) 5 (by decide)
    (by decide)
  obtain ⟨m'', last, h4, -, ⟨k, hk⟩, hle, hlt⟩ := h3 0 2 2 (by decide) (by decide) (by decide)
  have hlast : last = 2 := by omega
  subst hlast
  exact ⟨⟨m', h1, h2.decode []⟩, m'', h4⟩

end LazyLog.Rpc.RoundTrip
