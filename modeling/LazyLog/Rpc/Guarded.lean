import LazyLog.Rpc.Multi

/-! # Decoders on a buffer of known length (`rpc/log_entry`)

The decoders once more, with every access to the buffer guarded: a call that reaches the address `limit` is `none`,
and any other call is that of `Rpc.Entry` and `Rpc.Multi`.

`MultiDeserializerMaxSize` compares what is left of the buffer with `GetSizeFromBuf`, which rounds the size field up
on 32 bits, and then calls `Deserializer`, which rounds it up on 64 bits. The two agree unless the field is
`2 ^ 32 - 3` or more, so the comparison protects the buffer unless it comes to a record of this kind
(`SizesExact`). -/

namespace LazyLog.Rpc.Guarded

open LazyLog.Lib.Bytes LazyLog.Rpc.Entry LazyLog.Rpc.Multi

/-! ### The functions -/

/-- `GetSizeFromBuf`. -/
def getSizeFromBufWithin (limit : ℕ) (m : Mem) (buf : ℕ) : Option ℕ := do
  let size ← loadWithin limit m (buf + (8 + 8 + 8)) 4
  return align4 (metaDataSize + (size + 3) % 2 ^ 32)

/-- The fields that `Deserializer` reads first. -/
def readHeaderWithin (limit : ℕ) (e : LogEntry) (m : Mem) (buf : ℕ) : Option LogEntry := do
  let clientId ← loadWithin limit m buf 8
  let clientSeq ← loadWithin limit m (buf + 8) 8
  let logIdx ← loadWithin limit m (buf + 16) 8
  let size ← loadWithin limit m (buf + 24) 4
  let flags ← loadWithin limit m (buf + 28) 2
  let view ← loadWithin limit m (buf + 30) 2
  return { e with
    clientId := UInt64.ofNat clientId
    clientSeq := UInt64.ofNat clientSeq
    logIdx := UInt64.ofNat logIdx
    size := UInt32.ofNat size
    flags := UInt16.ofNat flags
    view := UInt16.ofNat view }

/-- `Deserializer`. -/
def deserializerWithin (limit : ℕ) (e : LogEntry) (m : Mem) (buf : ℕ) : Option (LogEntry × ℕ) := do
  let e ← readHeaderWithin limit e m buf
  if e.flags = 0 then return (e, 0)
  let data ← readWithin limit m (buf + metaDataSize) e.size.toNat
  return ({ e with data := data }, metaDataSize + align4 (data.length + 3))

/-- The loop of `MultiDeserializerMaxSize`. -/
def multiDeserializerMaxSizeWithinLoop (limit : ℕ) (m : Mem) (buf maxSize offset : ℕ) (es : List LogEntry) :
    Option (List LogEntry × ℕ) :=
  if offset < maxSize then
    if maxSize - offset < metaDataSize then some (es, offset)
    else
      match getSizeFromBufWithin limit m (buf + offset) with
      | none => none
      | some size =>
        if maxSize - offset < size then some (es, offset)
        else
          match deserializerWithin limit default m (buf + offset) with
          | none => none
          | some r =>
            if r.2 = 0 then some (es, offset)
            else multiDeserializerMaxSizeWithinLoop limit m buf maxSize (offset + r.2) (es ++ [r.1])
  else some (es, offset)
termination_by maxSize - offset

/-- `MultiDeserializerMaxSize`. -/
def multiDeserializerMaxSizeWithin (limit : ℕ) (es : List LogEntry) (m : Mem) (buf maxSize : ℕ) :
    Option (List LogEntry × ℕ) :=
  multiDeserializerMaxSizeWithinLoop limit m buf maxSize 0 es

/-! ### Guarded calls and calls -/

variable {limit buf maxSize offset : ℕ} {m : Mem} {e : LogEntry} {acc : List LogEntry}

theorem getSizeFromBufWithin_of_le (h : buf + metaDataSize ≤ limit) :
    getSizeFromBufWithin limit m buf = some (getSizeFromBuf m buf) := by
  unfold metaDataSize flagPos at h
  unfold getSizeFromBufWithin
  rw [loadWithin_of_le m (by omega)]
  rfl

theorem readHeaderWithin_of_le (h : buf + metaDataSize ≤ limit) :
    readHeaderWithin limit e m buf = some (readHeader e m buf) := by
  unfold metaDataSize flagPos at h
  unfold readHeaderWithin
  rw [loadWithin_of_le m (by omega), loadWithin_of_le m (by omega), loadWithin_of_le m (by omega),
    loadWithin_of_le m (by omega), loadWithin_of_le m (by omega), loadWithin_of_le m (by omega)]
  rfl

/-- The last field of the header is the first one to be cut off. -/
theorem readHeaderWithin_of_lt (h : limit < buf + metaDataSize) : readHeaderWithin limit e m buf = none := by
  unfold metaDataSize flagPos at h
  unfold readHeaderWithin
  rw [loadWithin_of_lt (a := buf + 30) m (by omega)]
  simp

theorem deserializerWithin_header (h : limit < buf + metaDataSize) : deserializerWithin limit e m buf = none := by
  unfold deserializerWithin
  rw [readHeaderWithin_of_lt h]
  rfl

theorem deserializerWithin_unflagged (h : buf + metaDataSize ≤ limit) (hf : getFlagFromBuf m buf = 0) :
    deserializerWithin limit e m buf = some (deserializer e m buf) := by
  have hf' : (readHeader e m buf).flags = 0 := hf
  unfold deserializerWithin deserializer
  simp [readHeaderWithin_of_le h, hf']

/-- What the size field says, for `Deserializer`. -/
def sizeField (m : Mem) (buf : ℕ) : ℕ := load m (buf + (8 + 8 + 8)) 4

theorem readHeader_size (e : LogEntry) (m : Mem) (buf : ℕ) : (readHeader e m buf).size.toNat = sizeField m buf := by
  have hlt : load m (buf + 24) 4 < 2 ^ 32 := load_lt m (buf + 24) 4
  exact Nat.mod_eq_of_lt hlt

theorem deserializerWithin_of_le (h : buf + metaDataSize + sizeField m buf ≤ limit) :
    deserializerWithin limit e m buf = some (deserializer e m buf) := by
  by_cases hf : (readHeader e m buf).flags = 0
  · exact deserializerWithin_unflagged (by omega) hf
  · unfold deserializerWithin deserializer
    rw [readHeaderWithin_of_le (by omega)]
    simp [hf, readHeader_size, readWithin_of_le m h]

theorem deserializerWithin_data (h : limit < buf + metaDataSize + sizeField m buf)
    (hf : getFlagFromBuf m buf ≠ 0) : deserializerWithin limit e m buf = none := by
  have hf' : (readHeader e m buf).flags ≠ 0 := hf
  rcases Nat.lt_or_ge limit (buf + metaDataSize) with hlt | hle
  · exact deserializerWithin_header hlt
  · unfold deserializerWithin
    rw [readHeaderWithin_of_le hle]
    simp [hf', readHeader_size, readWithin_of_lt m h]

theorem deserializerWithin_eq_some {r : LogEntry × ℕ} (h : deserializerWithin limit e m buf = some r) :
    deserializer e m buf = r := by
  rcases Nat.lt_or_ge limit (buf + metaDataSize) with hlt | hle
  · rw [deserializerWithin_header hlt] at h
    cases h
  · by_cases hf : getFlagFromBuf m buf = 0
    · rw [deserializerWithin_unflagged hle hf] at h
      exact Option.some.inj h
    · rcases Nat.lt_or_ge limit (buf + metaDataSize + sizeField m buf) with hd | hd
      · rw [deserializerWithin_data hd hf] at h
        cases h
      · rw [deserializerWithin_of_le hd] at h
        exact Option.some.inj h

/-! ### What is decoded -/

/-- The entry that stands at an address, if its flags are not zero. -/
def entryAt (m : Mem) (buf : ℕ) : LogEntry :=
  { readHeader default m buf with data := readBytes m (buf + metaDataSize) (sizeField m buf) }

theorem entryAt_sized (m : Mem) (buf : ℕ) : (entryAt m buf).Sized := by
  unfold LogEntry.Sized entryAt
  rw [length_readBytes]
  exact readHeader_size default m buf

theorem entrySize_entryAt (m : Mem) (buf : ℕ) :
    entrySize (entryAt m buf) = metaDataSize + align4 (sizeField m buf + 3) := by
  unfold entrySize entryAt
  rw [length_readBytes]

/-- **The decoder trusts the size field.** -/
theorem deserializer_eq_entryAt (hf : getFlagFromBuf m buf ≠ 0) :
    deserializer default m buf = (entryAt m buf, entrySize (entryAt m buf)) := by
  have hf' : (readHeader default m buf).flags ≠ 0 := hf
  unfold deserializer
  simp only [if_neg hf', readHeader_size, length_readBytes, entrySize_entryAt]
  rfl

theorem holds_header_entryAt (m : Mem) (buf : ℕ) : Holds m buf (header (entryAt m buf)) := by
  have c1 : (UInt64.ofNat (load m buf 8)).toNat = load m buf 8 := Nat.mod_eq_of_lt (load_lt m buf 8)
  have c2 : (UInt64.ofNat (load m (buf + 8) 8)).toNat = load m (buf + 8) 8 :=
    Nat.mod_eq_of_lt (load_lt m (buf + 8) 8)
  have c3 : (UInt64.ofNat (load m (buf + 16) 8)).toNat = load m (buf + 16) 8 :=
    Nat.mod_eq_of_lt (load_lt m (buf + 16) 8)
  have c4 : (UInt32.ofNat (load m (buf + 24) 4)).toNat = load m (buf + 24) 4 :=
    Nat.mod_eq_of_lt (load_lt m (buf + 24) 4)
  have c5 : (UInt16.ofNat (load m (buf + 28) 2)).toNat = load m (buf + 28) 2 :=
    Nat.mod_eq_of_lt (load_lt m (buf + 28) 2)
  have c6 : (UInt16.ofNat (load m (buf + 30) 2)).toNat = load m (buf + 30) 2 :=
    Nat.mod_eq_of_lt (load_lt m (buf + 30) 2)
  unfold header entryAt readHeader
  simp only [c1, c2, c3, c4, c5, c6, holds_append, List.length_append, length_leBytes, Nat.reduceAdd]
  exact ⟨⟨⟨⟨⟨holds_load m _ 8, holds_load m _ 8⟩, holds_load m _ 8⟩, holds_load m _ 4⟩, holds_load m _ 2⟩,
    holds_load m _ 2⟩

theorem holds_entryAt (m : Mem) (buf : ℕ) : Holds m buf (encode (entryAt m buf)) := by
  refine holds_append.mpr ⟨holds_header_entryAt m buf, ?_⟩
  rw [length_header]
  unfold Holds entryAt
  rw [length_readBytes]

/-! ### The two sizes -/

/-- `GetSize` is never more than what the entry takes, -/
theorem getSize_le_entrySize (h : e.Sized) : getSize e ≤ entrySize e := by
  have hs : e.size.toNat = e.data.length := h
  unfold getSize entrySize align4 metaDataSize flagPos
  rw [hs]
  have := Nat.mod_le (e.data.length + 3) (2 ^ 32)
  omega

/-- and less if the size wraps. -/
theorem getSize_eq_iff (h : e.Sized) : getSize e = entrySize e ↔ e.data.length + 3 < 2 ^ 32 := by
  refine ⟨fun heq => ?_, getSize_eq h⟩
  have hs : e.size.toNat = e.data.length := h
  have hlt := e.size.toNat_lt
  unfold getSize entrySize align4 metaDataSize flagPos at heq
  rw [hs] at heq hlt
  omega

theorem getSizeFromBuf_eq_getSize (m : Mem) (buf : ℕ) : getSizeFromBuf m buf = getSize (entryAt m buf) :=
  getSizeFromBuf_of_holds (holds_header_entryAt m buf)

theorem sumSize_le : ∀ {es : List LogEntry}, (∀ e ∈ es, e.Sized) → sumSize es ≤ totalSize es
  | [], _ => Nat.le_refl _
  | e :: es, h => by
    have h1 := getSize_le_entrySize (h e List.mem_cons_self)
    have h2 := sumSize_le fun x hx => h x (List.mem_cons_of_mem _ hx)
    unfold sumSize at h2 ⊢
    rw [List.map_cons, List.sum_cons, totalSize_cons]
    omega

/-! ### The loop -/

theorem maxSizeLoop_of_no_header (limit : ℕ) (m : Mem) (buf : ℕ) (acc : List LogEntry)
    (h : maxSize < offset + metaDataSize) :
    multiDeserializerMaxSizeLoop m buf maxSize offset acc = (acc, offset) ∧
      multiDeserializerMaxSizeWithinLoop limit m buf maxSize offset acc = some (acc, offset) := by
  rw [multiDeserializerMaxSizeLoop, multiDeserializerMaxSizeWithinLoop]
  by_cases h0 : offset < maxSize
  · rw [if_pos h0, if_pos h0, if_pos (by omega), if_pos (by omega)]
    exact ⟨rfl, rfl⟩
  · rw [if_neg h0, if_neg h0]
    exact ⟨rfl, rfl⟩

section Header

variable (hh : offset + metaDataSize ≤ maxSize)

include hh

theorem maxSizeLoop_of_no_room (acc : List LogEntry) (h : maxSize < offset + getSizeFromBuf m (buf + offset)) :
    multiDeserializerMaxSizeLoop m buf maxSize offset acc = (acc, offset) ∧
      multiDeserializerMaxSizeWithinLoop (buf + maxSize) m buf maxSize offset acc = some (acc, offset) := by
  have h0 : offset < maxSize := by unfold metaDataSize flagPos at hh; omega
  have hlt : maxSize - offset < getSizeFromBuf m (buf + offset) := by omega
  constructor
  · rw [multiDeserializerMaxSizeLoop, if_pos h0, if_neg (by omega), if_pos hlt]
  · rw [multiDeserializerMaxSizeWithinLoop, if_pos h0, if_neg (by omega), getSizeFromBufWithin_of_le (by omega)]
    simp only [if_pos hlt]

variable (hr : offset + getSizeFromBuf m (buf + offset) ≤ maxSize)

include hr

theorem maxSizeLoop_of_unflagged (acc : List LogEntry) (hf : getFlagFromBuf m (buf + offset) = 0) :
    multiDeserializerMaxSizeLoop m buf maxSize offset acc = (acc, offset) ∧
      multiDeserializerMaxSizeWithinLoop (buf + maxSize) m buf maxSize offset acc = some (acc, offset) := by
  have h0 : offset < maxSize := by unfold metaDataSize flagPos at hh; omega
  have hge : ¬ maxSize - offset < getSizeFromBuf m (buf + offset) := by omega
  have hz := deserializer_of_flag_zero default hf
  constructor
  · rw [multiDeserializerMaxSizeLoop, if_pos h0, if_neg (by omega), if_neg hge]
    simp only [hz, if_true]
  · rw [multiDeserializerMaxSizeWithinLoop, if_pos h0, if_neg (by omega), getSizeFromBufWithin_of_le (by omega)]
    simp only [if_neg hge]
    rw [deserializerWithin_unflagged (by omega) hf]
    simp only [hz, if_true]

theorem maxSizeLoop_of_flagged (acc : List LogEntry) (hf : getFlagFromBuf m (buf + offset) ≠ 0) :
    multiDeserializerMaxSizeLoop m buf maxSize offset acc =
        multiDeserializerMaxSizeLoop m buf maxSize (offset + entrySize (entryAt m (buf + offset)))
          (acc ++ [entryAt m (buf + offset)]) ∧
      multiDeserializerMaxSizeWithinLoop (buf + maxSize) m buf maxSize offset acc =
        if buf + offset + metaDataSize + sizeField m (buf + offset) ≤ buf + maxSize then
          multiDeserializerMaxSizeWithinLoop (buf + maxSize) m buf maxSize
            (offset + entrySize (entryAt m (buf + offset))) (acc ++ [entryAt m (buf + offset)])
        else none := by
  have h0 : offset < maxSize := by unfold metaDataSize flagPos at hh; omega
  have hpos := entrySize_pos (entryAt m (buf + offset))
  constructor
  · rw [multiDeserializerMaxSizeLoop, if_pos h0, if_neg (by omega), if_neg (by omega)]
    simp only [deserializer_eq_entryAt hf, if_neg hpos.ne']
  · rw [multiDeserializerMaxSizeWithinLoop, if_pos h0, if_neg (by omega), getSizeFromBufWithin_of_le (by omega)]
    simp only [if_neg (show ¬ maxSize - offset < getSizeFromBuf m (buf + offset) by omega)]
    by_cases hd : buf + offset + metaDataSize + sizeField m (buf + offset) ≤ buf + maxSize
    · rw [if_pos hd, deserializerWithin_of_le hd]
      simp only [deserializer_eq_entryAt hf, if_neg hpos.ne']
    · rw [if_neg hd, deserializerWithin_data (Nat.not_le.mp hd) hf]

end Header

/-- **What the loop appends** stands in the buffer, entry after entry. -/
theorem maxSizeLoop_spec (m : Mem) (buf maxSize offset : ℕ) (acc : List LogEntry) : ∃ new,
    multiDeserializerMaxSizeLoop m buf maxSize offset acc = (acc ++ new, offset + totalSize new) ∧
      HoldsAll m (buf + offset) new ∧ ∀ e ∈ new, e.Sized := by
  have hstop : ∃ new, (acc, offset) = (acc ++ new, offset + totalSize new) ∧
      HoldsAll m (buf + offset) new ∧ ∀ e ∈ new, e.Sized :=
    ⟨[], by simp, trivial, by simp⟩
  rcases Nat.lt_or_ge maxSize (offset + metaDataSize) with hh | hh
  · rw [(maxSizeLoop_of_no_header 0 m buf acc hh).1]
    exact hstop
  rcases Nat.lt_or_ge maxSize (offset + getSizeFromBuf m (buf + offset)) with hr | hr
  · rw [(maxSizeLoop_of_no_room hh _ hr).1]
    exact hstop
  by_cases hf : getFlagFromBuf m (buf + offset) = 0
  · rw [(maxSizeLoop_of_unflagged hh hr _ hf).1]
    exact hstop
  · have hpos := entrySize_pos (entryAt m (buf + offset))
    have hlt : offset < maxSize := by unfold metaDataSize flagPos at hh; omega
    obtain ⟨new, heq, hall, hsz⟩ := maxSizeLoop_spec m buf maxSize
      (offset + entrySize (entryAt m (buf + offset))) (acc ++ [entryAt m (buf + offset)])
    refine ⟨entryAt m (buf + offset) :: new, ?_, ⟨holds_entryAt m _, ?_⟩, ?_⟩
    · rw [(maxSizeLoop_of_flagged hh hr _ hf).1, heq, totalSize_cons, List.append_assoc, Nat.add_assoc]
      rfl
    · rwa [Nat.add_assoc]
    · intro e he
      rcases List.mem_cons.mp he with rfl | he
      · exact entryAt_sized m _
      · exact hsz e he
termination_by maxSize - offset

theorem maxSizeWithinLoop_eq_some {offset : ℕ} {acc : List LogEntry} {r : List LogEntry × ℕ}
    (h : multiDeserializerMaxSizeWithinLoop (buf + maxSize) m buf maxSize offset acc = some r) :
    multiDeserializerMaxSizeLoop m buf maxSize offset acc = r := by
  rcases Nat.lt_or_ge maxSize (offset + metaDataSize) with hh | hh
  · obtain ⟨h1, h2⟩ := maxSizeLoop_of_no_header (buf + maxSize) m buf acc hh
    exact h1.trans (Option.some.inj (h2.symm.trans h))
  rcases Nat.lt_or_ge maxSize (offset + getSizeFromBuf m (buf + offset)) with hr | hr
  · obtain ⟨h1, h2⟩ := maxSizeLoop_of_no_room hh acc hr
    exact h1.trans (Option.some.inj (h2.symm.trans h))
  by_cases hf : getFlagFromBuf m (buf + offset) = 0
  · obtain ⟨h1, h2⟩ := maxSizeLoop_of_unflagged hh hr acc hf
    exact h1.trans (Option.some.inj (h2.symm.trans h))
  · obtain ⟨h1, h2⟩ := maxSizeLoop_of_flagged hh hr acc hf
    have hpos := entrySize_pos (entryAt m (buf + offset))
    have hlt : offset < maxSize := by unfold metaDataSize flagPos at hh; omega
    rw [h2] at h
    split_ifs at h with hd
    exact h1.trans (maxSizeWithinLoop_eq_some h)
termination_by maxSize - offset

/-! ### The condition -/

/-- The offsets of the records that `MultiDeserializerMaxSize` comes to from an offset on, each by the size that
`GetSizeFromBuf` gives for the one before. -/
inductive ComesTo (m : Mem) (buf maxSize offset : ℕ) : ℕ → Prop
  | start : ComesTo m buf maxSize offset offset
  | next {o : ℕ} (ho : ComesTo m buf maxSize offset o) (hh : o + metaDataSize ≤ maxSize)
    (hr : o + getSizeFromBuf m (buf + o) ≤ maxSize) (hf : getFlagFromBuf m (buf + o) ≠ 0) :
    ComesTo m buf maxSize offset (o + getSizeFromBuf m (buf + o))

/-- No record it comes to has flags and a size field that wraps when it is rounded up. -/
def SizesExact (m : Mem) (buf maxSize offset : ℕ) : Prop :=
  ∀ o, ComesTo m buf maxSize offset o → o + metaDataSize ≤ maxSize → getFlagFromBuf m (buf + o) ≠ 0 →
    sizeField m (buf + o) < 2 ^ 32 - 3

theorem ComesTo.head {o : ℕ} (hh : offset + metaDataSize ≤ maxSize)
    (hr : offset + getSizeFromBuf m (buf + offset) ≤ maxSize) (hf : getFlagFromBuf m (buf + offset) ≠ 0)
    (h : ComesTo m buf maxSize (offset + getSizeFromBuf m (buf + offset)) o) :
    ComesTo m buf maxSize offset o := by
  induction h with
  | start => exact .next .start hh hr hf
  | next _ hh' hr' hf' ih => exact .next ih hh' hr' hf'

theorem entryAt_exact_iff (m : Mem) (buf : ℕ) :
    getSizeFromBuf m buf = entrySize (entryAt m buf) ↔ sizeField m buf < 2 ^ 32 - 3 := by
  rw [getSizeFromBuf_eq_getSize, getSize_eq_iff (entryAt_sized m buf)]
  unfold entryAt
  rw [length_readBytes]
  omega

/-- **`MultiDeserializerMaxSize` stays in the buffer**: it reads below its end only and returns an offset in it, and
the entries it appends stand there one after the other and take this many bytes. -/
def StaysInBounds (es : List LogEntry) (m : Mem) (buf maxSize : ℕ) : Prop :=
  multiDeserializerMaxSizeWithin (buf + maxSize) es m buf maxSize = some (multiDeserializerMaxSize es m buf maxSize) ∧
    (multiDeserializerMaxSize es m buf maxSize).2 ≤ maxSize ∧
    ∃ new, (multiDeserializerMaxSize es m buf maxSize).1 = es ++ new ∧ HoldsAll m buf new ∧
      sumSize new = (multiDeserializerMaxSize es m buf maxSize).2

/-- If the sizes are exact, what `GetSizeFromBuf` leaves room for is all that is read. -/
theorem SizesExact.maxSizeLoop {offset : ℕ} (h : SizesExact m buf maxSize offset) (hle : offset ≤ maxSize)
    (acc : List LogEntry) : ∃ new,
    multiDeserializerMaxSizeWithinLoop (buf + maxSize) m buf maxSize offset acc =
        some (acc ++ new, offset + sumSize new) ∧
      offset + sumSize new ≤ maxSize := by
  have hnil : offset + sumSize [] = offset := rfl
  rcases Nat.lt_or_ge maxSize (offset + metaDataSize) with hh | hh
  · refine ⟨[], ?_, hle⟩
    rw [(maxSizeLoop_of_no_header _ _ _ _ hh).2, hnil, List.append_nil]
  rcases Nat.lt_or_ge maxSize (offset + getSizeFromBuf m (buf + offset)) with hr | hr
  · refine ⟨[], ?_, hle⟩
    rw [(maxSizeLoop_of_no_room hh _ hr).2, hnil, List.append_nil]
  by_cases hf : getFlagFromBuf m (buf + offset) = 0
  · refine ⟨[], ?_, hle⟩
    rw [(maxSizeLoop_of_unflagged hh hr _ hf).2, hnil, List.append_nil]
  · have hsize := (entryAt_exact_iff m (buf + offset)).mpr (h offset .start hh hf)
    have hget := getSizeFromBuf_eq_getSize m (buf + offset)
    have hpos := entrySize_pos (entryAt m (buf + offset))
    have hdata : buf + offset + metaDataSize + sizeField m (buf + offset) ≤ buf + maxSize := by
      have := le_align4 (sizeField m (buf + offset))
      rw [hsize, entrySize_entryAt] at hr
      omega
    have hnext : SizesExact m buf maxSize (offset + entrySize (entryAt m (buf + offset))) := by
      intro o ho
      rw [← hsize] at ho
      exact h o (ho.head hh hr hf)
    obtain ⟨new, heq, hend⟩ := hnext.maxSizeLoop (by omega) (acc ++ [entryAt m (buf + offset)])
    have hsum : sumSize (entryAt m (buf + offset) :: new) =
        entrySize (entryAt m (buf + offset)) + sumSize new := by
      rw [← hsize, hget]
      exact List.sum_cons
    refine ⟨entryAt m (buf + offset) :: new, ?_, by omega⟩
    rw [(maxSizeLoop_of_flagged hh hr _ hf).2, if_pos hdata, heq, hsum, List.append_assoc, Nat.add_assoc]
    rfl
termination_by maxSize - offset

/-- The loop is guarded without loss at an offset, and appends entries whose sizes are those of `GetSize`. -/
def ExactFrom (m : Mem) (buf maxSize offset : ℕ) : Prop :=
  ∃ acc new, multiDeserializerMaxSizeWithinLoop (buf + maxSize) m buf maxSize offset acc =
    some (acc ++ new, offset + sumSize new)

theorem ExactFrom.next (h : ExactFrom m buf maxSize offset) (hh : offset + metaDataSize ≤ maxSize)
    (hr : offset + getSizeFromBuf m (buf + offset) ≤ maxSize) (hf : getFlagFromBuf m (buf + offset) ≠ 0) :
    getSizeFromBuf m (buf + offset) = entrySize (entryAt m (buf + offset)) ∧
      ExactFrom m buf maxSize (offset + entrySize (entryAt m (buf + offset))) := by
  obtain ⟨acc, new, hloop⟩ := h
  rw [(maxSizeLoop_of_flagged hh hr _ hf).2] at hloop
  split_ifs at hloop with hd
  obtain ⟨rest, hspec, -, hsz⟩ := maxSizeLoop_spec m buf maxSize
    (offset + entrySize (entryAt m (buf + offset))) (acc ++ [entryAt m (buf + offset)])
  rw [maxSizeWithinLoop_eq_some hloop, List.append_assoc] at hspec
  obtain ⟨hnew, hoff⟩ := Prod.mk.injEq .. ▸ hspec
  obtain rfl : new = entryAt m (buf + offset) :: rest := List.append_cancel_left hnew
  have hcons : sumSize (entryAt m (buf + offset) :: rest) =
      getSize (entryAt m (buf + offset)) + sumSize rest := List.sum_cons
  -- the sums agree, and no `GetSize` is more than what the entry takes
  have h1 := getSize_le_entrySize (entryAt_sized m (buf + offset))
  have h2 := sumSize_le hsz
  rw [hcons] at hoff hloop
  refine ⟨?_, acc ++ [entryAt m (buf + offset)], rest, ?_⟩
  · rw [getSizeFromBuf_eq_getSize]
    omega
  · rw [hloop, List.append_assoc, show getSize (entryAt m (buf + offset)) = entrySize (entryAt m (buf + offset)) by
      omega, Nat.add_assoc]
    rfl

theorem ExactFrom.comesTo {o : ℕ} (h : ExactFrom m buf maxSize offset) (ho : ComesTo m buf maxSize offset o) :
    ExactFrom m buf maxSize o := by
  induction ho with
  | start => exact h
  | next _ hh hr hf ih =>
    obtain ⟨hsize, hnext⟩ := ih.next hh hr hf
    rwa [hsize]

theorem ExactFrom.sizesExact (h : ExactFrom m buf maxSize offset) : SizesExact m buf maxSize offset := by
  intro o ho hh hf
  by_contra hlt
  -- a size that wraps leaves the header, for which there is room
  have hr : o + getSizeFromBuf m (buf + o) ≤ maxSize := by
    have hload := load_lt m (buf + o + (8 + 8 + 8)) 4
    unfold sizeField at hlt
    unfold getSizeFromBuf align4
    unfold metaDataSize flagPos at hh ⊢
    omega
  exact hlt ((entryAt_exact_iff m (buf + o)).mp ((h.comesTo ho).next hh hr hf).1)

/-- **The bounded decoder stays in bounds** on a buffer, whatever is in it, exactly if it comes to no record with
flags whose size field is `2 ^ 32 - 3` or more. -/
theorem multiDeserializerMaxSize_staysInBounds_iff (es : List LogEntry) (m : Mem) (buf maxSize : ℕ) :
    StaysInBounds es m buf maxSize ↔ SizesExact m buf maxSize 0 := by
  constructor
  · rintro ⟨hguard, -, new, hnew, -, hsum⟩
    refine ExactFrom.sizesExact ⟨es, new, ?_⟩
    rw [hsum, Nat.zero_add, ← hnew]
    exact hguard
  · intro h
    obtain ⟨new, heq, hend⟩ := h.maxSizeLoop (Nat.zero_le _) es
    have hcall : multiDeserializerMaxSize es m buf maxSize = (es ++ new, 0 + sumSize new) :=
      maxSizeWithinLoop_eq_some heq
    obtain ⟨new', hspec, hall, -⟩ := maxSizeLoop_spec m buf maxSize 0 es
    have hsame : es ++ new = es ++ new' := congrArg Prod.fst (hcall.symm.trans hspec)
    obtain rfl := List.append_cancel_left hsame
    unfold StaysInBounds
    rw [hcall]
    exact ⟨heq, hend, new, rfl, hall, (Nat.zero_add _).symm⟩

/-- A header with flags and the greatest size there is, in a memory of zeros. -/
def overlongRecord : Mem := writeBytes (fun _ => 0) 0 (header ⟨1, 0, 0, 0xFFFFFFFF, 1, 0, []⟩)

/-- In a buffer of 32 bytes with this header the decoder reads four gigabytes of data. -/
theorem multiDeserializerMaxSize_overlong : ¬ StaysInBounds [] overlongRecord 0 32 := by
  have hh : Holds overlongRecord 0 (header ⟨1, 0, 0, 0xFFFFFFFF, 1, 0, []⟩) := holds_writeBytes _ _ _
  have hflag : getFlagFromBuf overlongRecord (0 + 0) = 1 := getFlagFromBuf_of_holds hh
  have hget : getSizeFromBuf overlongRecord (0 + 0) = 32 := getSizeFromBuf_of_holds hh
  have hfield : sizeField overlongRecord (0 + 0) = 2 ^ 32 - 1 := (holds_header hh).2.2.2.1
  rintro ⟨hguard, -, -⟩
  unfold multiDeserializerMaxSizeWithin at hguard
  rw [(maxSizeLoop_of_flagged (by decide) (by rw [hget]) _ (by rw [hflag]; decide)).2, hfield, if_neg (by decide)]
    at hguard
  cases hguard

end LazyLog.Rpc.Guarded
