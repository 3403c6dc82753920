import LazyLog.Lib.Bytes

/-! # The log entry and its format (`rpc/log_entry`)

A record of the log, its serialised form and the accessors that read a field in place. A buffer is a
memory and an address in it. Lengths and offsets are natural numbers; the arithmetic on `e.size`, a
`uint32_t`, wraps as in the source.

`encode e` is what `serializer` writes: six header fields of 32 bytes in all and the data. The record
takes `entrySize e` bytes of the buffer, the data being padded to 4 bytes; the padding is not written. -/

namespace LazyLog.Rpc.Entry

open LazyLog.Lib.Bytes

/-! ### Records -/

/-- `struct LogEntry`. -/
structure LogEntry where
  clientId : UInt64
  clientSeq : UInt64
  logIdx : UInt64
  size : UInt32
  flags : UInt16
  view : UInt16
  data : List UInt8
  deriving DecidableEq, Repr

/-- The default constructor of `LogEntry`. -/
instance : Inhabited LogEntry := ⟨⟨0, 0, 0, 0, 0, 0, []⟩⟩

/-- An entry without data, as it stands in the log at an index. -/
def emptyEntry (i : UInt64) : LogEntry := { (default : LogEntry) with logIdx := i, flags := 1 }

/-- `LogEntry::ReqID`. -/
abbrev ReqID := UInt64 × UInt64

/-- The request id of an entry. -/
def LogEntry.reqId (e : LogEntry) : ReqID := (e.clientId, e.clientSeq)

/-- What `Serializer` asserts: the size field is the length of the data. -/
def LogEntry.Sized (e : LogEntry) : Prop := e.size.toNat = e.data.length

instance (e : LogEntry) : Decidable e.Sized := inferInstanceAs (Decidable (_ = _))

/-! ### Sizes -/

/-- `FlagPos`: where the flags stand in the header. -/
def flagPos : ℕ := 8 + 8 + 8 + 4

/-- `MetaDataSize`: the length of the header. -/
def metaDataSize : ℕ := flagPos + 2 + 2

/-- `x & (~3)`. -/
def align4 (x : ℕ) : ℕ := x / 4 * 4

/-- `GetSize`. In C++ `+` binds tighter than `&`, and `e.size + 3` is computed on 32 bits. -/
def getSize (e : LogEntry) : ℕ := align4 (metaDataSize + (e.size.toNat + 3) % 2 ^ 32)

/-- `GetSizeFromBuf`. -/
def getSizeFromBuf (m : Mem) (buf : ℕ) : ℕ :=
  align4 (metaDataSize + (load m (buf + (8 + 8 + 8)) 4 + 3) % 2 ^ 32)

/-- `GetClientId`. -/
def getClientId (m : Mem) (buf : ℕ) : UInt64 := UInt64.ofNat (load m buf 8)

/-- `GetClientSeq`. -/
def getClientSeq (m : Mem) (buf : ℕ) : UInt64 := UInt64.ofNat (load m (buf + 8) 8)

/-- `GetIdx`. -/
def getIdx (m : Mem) (buf : ℕ) : UInt64 := UInt64.ofNat (load m (buf + (8 + 8)) 8)

/-- `GetFlagFromBuf`. -/
def getFlagFromBuf (m : Mem) (buf : ℕ) : UInt16 := UInt16.ofNat (load m (buf + flagPos) 2)

/-- `SetFlag`. -/
def setFlag (m : Mem) (buf : ℕ) (flag : UInt16) : Mem :=
  writeBytes m (buf + flagPos) (leBytes 2 flag.toNat)

/-! ### One entry -/

/-- `SERIALIZE_FIELD`: a field of `w` bytes at the running offset. -/
def serializeField (buf w v : ℕ) (p : Mem × ℕ) : Mem × ℕ :=
  (writeBytes p.1 (buf + p.2) (leBytes w v), p.2 + w)

/-- `Serializer`: the memory after it, and the offset it returns. -/
def serializer (e : LogEntry) (m : Mem) (buf : ℕ) : Mem × ℕ :=
  let p := serializeField buf 8 e.clientId.toNat (m, 0)
  let p := serializeField buf 8 e.clientSeq.toNat p
  let p := serializeField buf 8 e.logIdx.toNat p
  let p := serializeField buf 4 e.size.toNat p
  let p := serializeField buf 2 e.flags.toNat p
  let p := serializeField buf 2 e.view.toNat p
  (writeBytes p.1 (buf + p.2) e.data, p.2 + align4 (e.data.length + 3))

/-- The header fields `Deserializer` reads, written over those of `e`. -/
def readHeader (e : LogEntry) (m : Mem) (buf : ℕ) : LogEntry :=
  { e with
    clientId := UInt64.ofNat (load m buf 8)
    clientSeq := UInt64.ofNat (load m (buf + 8) 8)
    logIdx := UInt64.ofNat (load m (buf + 16) 8)
    size := UInt32.ofNat (load m (buf + 24) 4)
    flags := UInt16.ofNat (load m (buf + 28) 2)
    view := UInt16.ofNat (load m (buf + 30) 2) }

/-- `Deserializer`: the entry after it, and the offset it returns. An entry whose flags are zero
keeps its old data, and the offset is zero. -/
def deserializer (e : LogEntry) (m : Mem) (buf : ℕ) : LogEntry × ℕ :=
  let e := readHeader e m buf
  if e.flags = 0 then (e, 0)
  else
    let e := { e with data := readBytes m (buf + metaDataSize) e.size.toNat }
    (e, metaDataSize + align4 (e.data.length + 3))

/-! ### The format -/

/-- The header as bytes. -/
def header (e : LogEntry) : List UInt8 :=
  leBytes 8 e.clientId.toNat ++ leBytes 8 e.clientSeq.toNat ++ leBytes 8 e.logIdx.toNat ++
    leBytes 4 e.size.toNat ++ leBytes 2 e.flags.toNat ++ leBytes 2 e.view.toNat

/-- The serialised entry, without its padding. -/
def encode (e : LogEntry) : List UInt8 := header e ++ e.data

/-- The bytes an entry takes in a buffer, padding included. -/
def entrySize (e : LogEntry) : ℕ := metaDataSize + align4 (e.data.length + 3)

theorem align4_dvd (x : ℕ) : 4 ∣ align4 x := Nat.dvd_mul_left 4 _

theorem le_align4 (x : ℕ) : x ≤ align4 (x + 3) := by unfold align4; omega

@[simp] theorem length_header (e : LogEntry) : (header e).length = metaDataSize := by
  simp [header, metaDataSize, flagPos]

@[simp] theorem length_encode (e : LogEntry) :
    (encode e).length = metaDataSize + e.data.length := by
  simp [encode]

theorem entrySize_dvd (e : LogEntry) : 4 ∣ entrySize e :=
  Nat.dvd_add (by decide) (align4_dvd _)

theorem length_encode_le (e : LogEntry) : (encode e).length ≤ entrySize e := by
  rw [length_encode]; unfold entrySize; have := le_align4 e.data.length; omega

theorem metaDataSize_le_entrySize (e : LogEntry) : metaDataSize ≤ entrySize e :=
  Nat.le_add_right _ _

theorem entrySize_pos (e : LogEntry) : 0 < entrySize e :=
  lt_of_lt_of_le (by decide) (metaDataSize_le_entrySize e)

/-- The size computed from the size field is what the entry takes, as long as `e.size + 3` does not
wrap. -/
theorem getSize_eq {e : LogEntry} (h : e.Sized) (hlt : e.data.length + 3 < 2 ^ 32) :
    getSize e = entrySize e := by
  unfold getSize entrySize
  rw [h, Nat.mod_eq_of_lt hlt]
  unfold align4 metaDataSize flagPos
  omega

theorem serializeField_eq (buf w v : ℕ) (m : Mem) (bs : List UInt8) :
    serializeField buf w v (writeBytes m buf bs, bs.length) =
      (writeBytes m buf (bs ++ leBytes w v), (bs ++ leBytes w v).length) := by
  simp [serializeField, writeBytes_append]

/-- **What `Serializer` does**: it writes `encode e` and returns the size of the entry. -/
theorem serializer_eq (e : LogEntry) (m : Mem) (buf : ℕ) :
    serializer e m buf = (writeBytes m buf (encode e), entrySize e) := by
  have h0 : (m, 0) = (writeBytes m buf [], ([] : List UInt8).length) := by
    refine Prod.ext (funext fun x => ?_) rfl
    exact (writeBytes_of_notMem (by simp; omega)).symm
  unfold serializer
  simp only [h0, serializeField_eq, List.nil_append, writeBytes_append]
  refine Prod.ext ?_ ?_
  · simp only [encode, header]
  · simp [entrySize, metaDataSize, flagPos]

/-! ### Reading what was written -/

theorem holds_header {m : Mem} {buf : ℕ} {e : LogEntry} (h : Holds m buf (header e)) :
    load m buf 8 = e.clientId.toNat ∧ load m (buf + 8) 8 = e.clientSeq.toNat ∧
      load m (buf + 16) 8 = e.logIdx.toNat ∧ load m (buf + 24) 4 = e.size.toNat ∧
      load m (buf + 28) 2 = e.flags.toNat ∧ load m (buf + 30) 2 = e.view.toNat := by
  unfold header at h
  have h6 := h.right.load
  have h5 := h.left.right.load
  have h4 := h.left.left.right.load
  have h3 := h.left.left.left.right.load
  have h2 := h.left.left.left.left.right.load
  have h1 := h.left.left.left.left.left.load
  simp only [List.length_append, length_leBytes, Nat.reduceAdd] at h1 h2 h3 h4 h5 h6
  have c1 := e.clientId.toNat_lt
  have c2 := e.clientSeq.toNat_lt
  have c3 := e.logIdx.toNat_lt
  have c4 := e.size.toNat_lt
  have c5 := e.flags.toNat_lt
  have c6 := e.view.toNat_lt
  refine ⟨?_, ?_, ?_, ?_, ?_, ?_⟩ <;> omega

theorem readHeader_of_holds {m : Mem} {buf : ℕ} {e : LogEntry} (e₀ : LogEntry)
    (h : Holds m buf (header e)) : readHeader e₀ m buf = { e with data := e₀.data } := by
  obtain ⟨h1, h2, h3, h4, h5, h6⟩ := holds_header h
  unfold readHeader
  rw [h1, h2, h3, h4, h5, h6]
  simp

theorem getSizeFromBuf_of_holds {m : Mem} {buf : ℕ} {e : LogEntry} (h : Holds m buf (header e)) :
    getSizeFromBuf m buf = getSize e := by
  obtain ⟨-, -, -, h4, -, -⟩ := holds_header h
  unfold getSizeFromBuf getSize
  rw [h4]

theorem getFlagFromBuf_of_holds {m : Mem} {buf : ℕ} {e : LogEntry} (h : Holds m buf (header e)) :
    getFlagFromBuf m buf = e.flags := by
  obtain ⟨-, -, -, -, h5, -⟩ := holds_header h
  unfold getFlagFromBuf
  rw [show buf + flagPos = buf + 28 from rfl, h5]
  simp

theorem getReqId_of_holds {m : Mem} {buf : ℕ} {e : LogEntry} (h : Holds m buf (header e)) :
    getClientId m buf = e.clientId ∧ getClientSeq m buf = e.clientSeq := by
  obtain ⟨h1, h2, -, -, -, -⟩ := holds_header h
  unfold getClientId getClientSeq
  rw [h1, h2]
  exact ⟨UInt64.ofNat_toNat, UInt64.ofNat_toNat⟩

theorem getIdx_of_holds {m : Mem} {buf : ℕ} {e : LogEntry} (h : Holds m buf (header e)) :
    getIdx m buf = e.logIdx := by
  obtain ⟨-, -, h3, -, -, -⟩ := holds_header h
  unfold getIdx
  rw [h3]
  exact UInt64.ofNat_toNat

/-- A decoder trusts the header: it takes as many bytes of data as the header says. -/
theorem deserializer_of_holds_header {m : Mem} {buf : ℕ} {e : LogEntry} (e₀ : LogEntry)
    (h : Holds m buf (header e)) (hf : e.flags ≠ 0) :
    deserializer e₀ m buf =
      ({ e with data := readBytes m (buf + metaDataSize) e.size.toNat },
        metaDataSize + align4 (e.size.toNat + 3)) := by
  unfold deserializer
  simp only [readHeader_of_holds e₀ h, if_neg hf, length_readBytes]

/-- **Decoding undoes encoding**, for an entry whose flags are not zero. -/
theorem deserializer_of_holds {m : Mem} {buf : ℕ} {e : LogEntry} (e₀ : LogEntry)
    (h : Holds m buf (encode e)) (hs : e.Sized) (hf : e.flags ≠ 0) :
    deserializer e₀ m buf = (e, entrySize e) := by
  have hd : readBytes m (buf + metaDataSize) e.data.length = e.data := by
    have := h.right
    rwa [length_header] at this
  have hs' : e.size.toNat = e.data.length := hs
  rw [deserializer_of_holds_header e₀ h.left hf, hs', hd]
  rfl

theorem deserializer_of_flag_zero {m : Mem} {buf : ℕ} (e₀ : LogEntry)
    (h : getFlagFromBuf m buf = 0) : (deserializer e₀ m buf).2 = 0 := by
  have hf : (readHeader e₀ m buf).flags = 0 := h
  unfold deserializer
  simp [hf]

theorem holds_encode_setFlag {m : Mem} {buf : ℕ} {e : LogEntry} (h : Holds m buf (encode e))
    (flag : UInt16) : Holds (setFlag m buf flag) buf (encode { e with flags := flag }) := by
  have hflag := holds_writeBytes m (buf + flagPos) (leBytes 2 flag.toNat)
  have hrest : ∀ {a : ℕ} {bs : List UInt8}, Holds m a bs →
      (a + bs.length ≤ buf + flagPos ∨ buf + flagPos + 2 ≤ a) → Holds (setFlag m buf flag) a bs := by
    intro a bs hb ha
    refine hb.congr fun i hi => ?_
    unfold setFlag
    refine writeBytes_of_notMem ?_
    rw [length_leBytes]
    omega
  unfold encode header at h ⊢
  rw [holds_append, holds_append, holds_append] at h ⊢
  simp only [List.length_append, length_leBytes] at h ⊢
  -- the fields before the flags, the flags, the view and the data
  obtain ⟨⟨⟨hfields, -⟩, hview⟩, hdata⟩ := h
  refine ⟨⟨⟨hrest hfields (Or.inl ?_), hflag⟩, hrest hview (Or.inr ?_)⟩, hrest hdata (Or.inr ?_)⟩
  all_goals simp [flagPos]

theorem holds_setFlag (m : Mem) (buf : ℕ) (flag : UInt16) :
    getFlagFromBuf (setFlag m buf flag) buf = flag := by
  unfold getFlagFromBuf setFlag
  rw [(holds_writeBytes m (buf + flagPos) (leBytes 2 flag.toNat)).load]
  have := flag.toNat_lt
  rw [Nat.mod_eq_of_lt (by omega)]
  simp

/-! ### Messages -/

/-- A message buffer of the network. -/
structure MsgBuffer where
  buf : Mem
  size : ℕ

/-- A buffer after `Serializer` and `resize_msg_buffer`. -/
def MsgBuffer.fill (req : MsgBuffer) (e : LogEntry) : MsgBuffer :=
  ⟨(serializer e req.buf 0).1, (serializer e req.buf 0).2⟩

/-- The buffer holds the entry. -/
structure MsgBuffer.Carries (b : MsgBuffer) (e : LogEntry) : Prop where
  size : b.size = entrySize e
  holds : Holds b.buf 0 (encode e)

theorem MsgBuffer.carries_fill (req : MsgBuffer) (e : LogEntry) : (req.fill e).Carries e := by
  unfold MsgBuffer.fill
  rw [serializer_eq]
  exact ⟨rfl, holds_writeBytes req.buf 0 _⟩

end LazyLog.Rpc.Entry
