import LazyLog.Storage.Partition

/-! # The Kafka backend (`cons_log/storage/kafka_backend`)

`KafkaBackend::AppendBatch` hands the entries of a batch to a producer, each with the shard of its index as the
partition. The producer delivers what was produced before a flush (`delivered`).

It finds the last entry of the batch as the native backend does, before the entry of index zero if there is one,
but then uses it as the end of its loop: what it hands over are all entries but the last
(`handed_dropLast`), while it returns the index of the last. So there is no batch that it stores as the native
backend does (`kafka_never_stores_the_batch`). -/

namespace LazyLog.Storage.KafkaBackend

open LazyLog.Lib.Bytes LazyLog.Rpc.Entry LazyLog.Storage.NaiveBackend LazyLog.Storage.Partition

/-! ### `AppendBatch` -/

/-- A message: its partition and its payload. -/
abbrev Message := UInt64 × List UInt8

/-- What `AppendBatch` asks of the producer. -/
inductive Call
  | produce (msg : Message)
  | flush
  deriving DecidableEq

/-- The loop over the entries, with `buf_` and `stripe_count`. -/
def produceLoop (stripeUnitSize shardNum : UInt64) : List LogEntry → Mem → UInt64 → List Call
  | [], _, _ => []
  | e :: es, buf, stripeCount =>
    let r := serializer e buf 0
    let produce := Call.produce (e.logIdx % shardNum, readBytes r.1 0 r.2)
    if stripeCount + 1 ≥ stripeUnitSize * shardNum then
      produce :: .flush :: produceLoop stripeUnitSize shardNum es r.1 0
    else produce :: produceLoop stripeUnitSize shardNum es r.1 (stripeCount + 1)

/-- The place that the iterator `end` points to. -/
def endPos (es : List LogEntry) : ℕ :=
  if 1 < es.length ∧ (es.getD (es.length - 1) default).logIdx = 0 then es.length - 2 else es.length - 1

/-- `KafkaBackend::AppendBatch`: the calls of the producer, and the value returned. The loop runs from
`es.begin()` while `it != end`. -/
def kafkaAppendBatch (stripeUnitSize shardNum : UInt64) (es : List LogEntry) (buf : Mem) :
    List Call × UInt64 :=
  (produceLoop stripeUnitSize shardNum (es.take (endPos es)) buf 0 ++ [.flush],
    (es.getD (endPos es) default).logIdx)

/-- The messages that are delivered: those produced before a flush. -/
def delivered : List Call → List Message
  | [] => []
  | .produce msg :: cs => if Call.flush ∈ cs then msg :: delivered cs else delivered cs
  | .flush :: cs => delivered cs

/-! ### What is handed over -/

/-- The message carries the entry, to the shard of its index. -/
structure Carries (shardNum : UInt64) (msg : Message) (e : LogEntry) : Prop where
  shard : msg.1 = e.logIdx % shardNum
  size : msg.2.length = entrySize e
  payload : msg.2.take (encode e).length = encode e

/-- The messages carry the entries, each as often as it is there. -/
def Handed (shardNum : UInt64) (msgs : List Message) (entries : List LogEntry) : Prop :=
  ∃ l : List LogEntry, l.Perm entries ∧ List.Forall₂ (Carries shardNum) msgs l

/-- **The same log**: the entries of the batch are handed over, and both backends return the index of the
last. -/
structure SameLog (stripeUnitSize shardNum : UInt64) (es real : List LogEntry) (buf : Mem) : Prop where
  handed : Handed shardNum (delivered (kafkaAppendBatch stripeUnitSize shardNum es buf).1) real
  returned : (kafkaAppendBatch stripeUnitSize shardNum es buf).2 = (real.getLastD default).logIdx
  native : ∀ fuel rounds r, appendBatch stripeUnitSize shardNum es fuel = some (rounds, r) →
    r = (real.getLastD default).logIdx

theorem carries_serializer (shardNum : UInt64) (e : LogEntry) (buf : Mem) :
    Carries shardNum (e.logIdx % shardNum, readBytes (serializer e buf 0).1 0 (serializer e buf 0).2) e := by
  have hle := length_encode_le e
  have hholds : readBytes (writeBytes buf 0 (encode e)) 0 (encode e).length = encode e :=
    holds_writeBytes buf 0 (encode e)
  refine ⟨rfl, ?_, ?_⟩
  · rw [serializer_eq, length_readBytes]
  · obtain ⟨pad, hpad⟩ : ∃ pad, entrySize e = (encode e).length + pad := ⟨_, (Nat.add_sub_cancel' hle).symm⟩
    simp only [serializer_eq]
    rw [hpad, readBytes_add, hholds, List.take_left]

/-- **The loop** followed by a flush hands over its entries in order. -/
theorem forall₂_delivered (stripeUnitSize shardNum : UInt64) : ∀ (es : List LogEntry) (buf : Mem)
    (stripeCount : UInt64), List.Forall₂ (Carries shardNum)
      (delivered (produceLoop stripeUnitSize shardNum es buf stripeCount ++ [.flush])) es
  | [], _, _ => List.Forall₂.nil
  | e :: es, buf, stripeCount => by
    have hcarries := carries_serializer shardNum e buf
    rw [produceLoop]
    split_ifs
    · rw [List.cons_append, List.cons_append, delivered, if_pos (by simp), delivered]
      exact List.Forall₂.cons hcarries (forall₂_delivered stripeUnitSize shardNum es _ _)
    · rw [List.cons_append, delivered, if_pos (by simp)]
      exact List.Forall₂.cons hcarries (forall₂_delivered stripeUnitSize shardNum es _ _)

section Batch
variable {es real : List LogEntry} {n : ℕ}

theorem endPos_eq (h : Consecutive es real n) : endPos es = real.length - 1 := by
  have hpos := List.length_pos_iff.mpr h.ne_nil
  have hlast := h.logIdx (show real.length - 1 < real.length by omega)
  unfold endPos
  rcases h.eq with rfl | ⟨x, hx, rfl⟩
  · rw [if_neg]
    rintro ⟨h1, h2⟩
    rw [h2] at hlast
    have hzero : (0 : UInt64).toNat = 0 := rfl
    omega
  · have hget : (real ++ [x]).getD ((real ++ [x]).length - 1) default = x := by simp
    rw [hget, if_pos ⟨by simp; omega, hx⟩]
    simp

theorem take_endPos (h : Consecutive es real n) : es.take (endPos es) = real.dropLast := by
  rw [endPos_eq h, List.dropLast_eq_take]
  rcases h.eq with rfl | ⟨x, -, rfl⟩
  · rfl
  · exact List.take_append_of_le_length (Nat.sub_le _ _)

/-- **What the Kafka backend does**: it hands over all entries but the last, and returns the index of the
last. -/
theorem handed_dropLast (h : Consecutive es real n) (stripeUnitSize shardNum : UInt64) (buf : Mem) :
    Handed shardNum (delivered (kafkaAppendBatch stripeUnitSize shardNum es buf).1) real.dropLast ∧
      (kafkaAppendBatch stripeUnitSize shardNum es buf).2.toNat = n + (real.length - 1) := by
  have hpos := List.length_pos_iff.mpr h.ne_nil
  unfold kafkaAppendBatch
  constructor
  · rw [take_endPos h]
    exact ⟨_, List.Perm.refl _, forall₂_delivered stripeUnitSize shardNum _ buf 0⟩
  · rw [endPos_eq h]
    exact h.logIdx (by omega)

theorem Handed.length_eq {shardNum : UInt64} {msgs : List Message} {entries : List LogEntry}
    (h : Handed shardNum msgs entries) : msgs.length = entries.length := by
  obtain ⟨l, hperm, hall⟩ := h
  rw [hall.length_eq, hperm.length_eq]

end Batch

/-- **The Kafka backend never stores the batch as the native backend does**: the last entry is missing. -/
theorem kafka_never_stores_the_batch (stripeUnitSize shardNum : UInt64) (es real : List LogEntry) (start : ℕ)
    (h : Consecutive es real start) (buf : Mem) : ¬ SameLog stripeUnitSize shardNum es real buf := by
  intro hsame
  have hpos := List.length_pos_iff.mpr h.ne_nil
  have h1 := (handed_dropLast h stripeUnitSize shardNum buf).1.length_eq
  have h2 := hsame.handed.length_eq
  rw [List.length_dropLast] at h1
  omega

/-- The batch of two stripes: the entry of index 5 is missing. -/
theorem kafka_never_stores_the_batch_twoStripes :
    ¬ SameLog 2 2 twoStripes (twoStripes.take 3) (fun _ => 0) := by
  have hindexed : ∀ (j : ℕ) (e : LogEntry), (twoStripes.take 3)[j]? = some e → e.logIdx.toNat = 3 + j
    | 0, _, rfl => rfl
    | 1, _, rfl => rfl
    | 2, _, rfl => rfl
  exact kafka_never_stores_the_batch 2 2 twoStripes (twoStripes.take 3) 3
    ⟨Or.inr ⟨default, rfl, rfl⟩, by decide, hindexed⟩ _

/-- A batch of one entry, of index 0: nothing is produced, and 0 is returned. -/
theorem kafka_drops_the_only_entry :
    (kafkaAppendBatch 1 1 [⟨7, 1, 0, 0, 1, 0, []⟩] (fun _ => 0)).2 = 0 ∧
      ¬ SameLog 1 1 [⟨7, 1, 0, 0, 1, 0, []⟩] [⟨7, 1, 0, 0, 1, 0, []⟩] (fun _ => 0) := by
  refine ⟨rfl, fun hsame => ?_⟩
  have hlen := hsame.handed.length_eq
  exact absurd hlen (by decide)

end LazyLog.Storage.KafkaBackend
