import LazyLog.Rpc.Entry

/-! # Request ids in a message (`ReqIdSerializer`, `ReqIdDeserializer` of `rpc/log_entry`)

A message with request ids is their number, a `uint32_t`, and two words for each of them. All of them are written, and
as many are read as the number says: it is the number of ids on 32 bits. -/

namespace LazyLog.Rpc.ReqIds

open LazyLog.Lib.Bytes LazyLog.Rpc.Entry

/-- `ReqIdSerializer`: the memory after it, and the offset it returns. -/
def reqIdSerializer (ids : List ReqID) (m : Mem) (buf : ℕ) : Mem × ℕ :=
  ids.foldl (fun p rid => serializeField buf 8 rid.2.toNat (serializeField buf 8 rid.1.toNat p))
    (writeBytes m buf (leBytes 4 ids.length), 4)

/-- The loop of `ReqIdDeserializer`, with `n` ids to go. -/
def reqIdDeserializerLoop (m : Mem) (buf : ℕ) : ℕ → ℕ → List ReqID → List ReqID × ℕ
  | 0, offset, ids => (ids, offset)
  | n + 1, offset, ids =>
    reqIdDeserializerLoop m buf n (offset + 8 + 8)
      (ids ++ [(UInt64.ofNat (load m (buf + offset) 8), UInt64.ofNat (load m (buf + (offset + 8)) 8))])

/-- `ReqIdDeserializer`: the ids after it, and the offset it returns. -/
def reqIdDeserializer (ids : List ReqID) (m : Mem) (buf : ℕ) : List ReqID × ℕ :=
  reqIdDeserializerLoop m buf (load m buf 4) 4 ids

/-! ### What is written -/

/-- The words of the ids. -/
def encodeIds : List ReqID → List UInt8
  | [] => []
  | rid :: ids => leBytes 8 rid.1.toNat ++ leBytes 8 rid.2.toNat ++ encodeIds ids

theorem foldl_serializeField (m : Mem) (buf : ℕ) : ∀ (ids : List ReqID) (bs : List UInt8),
    ids.foldl (fun p rid => serializeField buf 8 rid.2.toNat (serializeField buf 8 rid.1.toNat p))
        (writeBytes m buf bs, bs.length) =
      (writeBytes m buf (bs ++ encodeIds ids), (bs ++ encodeIds ids).length)
  | [], bs => by simp [encodeIds]
  | rid :: ids, bs => by
    rw [List.foldl_cons, serializeField_eq, serializeField_eq, foldl_serializeField m buf ids]
    simp only [encodeIds, List.append_assoc]

theorem reqIdSerializer_eq (ids : List ReqID) (m : Mem) (buf : ℕ) :
    reqIdSerializer ids m buf = (writeBytes m buf (leBytes 4 ids.length ++ encodeIds ids),
      (leBytes 4 ids.length ++ encodeIds ids).length) := by
  unfold reqIdSerializer
  rw [← foldl_serializeField m buf ids (leBytes 4 ids.length), length_leBytes]

/-! ### What is read -/

theorem ofNat_load {m : Mem} {a : ℕ} {x : UInt64} (h : Holds m a (leBytes 8 x.toNat)) :
    UInt64.ofNat (load m a 8) = x := by
  have hlt : x.toNat < 256 ^ 8 := x.toNat_lt
  rw [h.load, Nat.mod_eq_of_lt hlt]
  exact UInt64.ofNat_toNat

theorem reqIdDeserializerLoop_eq {m : Mem} {buf : ℕ} : ∀ (n : ℕ) (ids acc : List ReqID) (offset : ℕ),
    n ≤ ids.length → Holds m (buf + offset) (encodeIds ids) →
      reqIdDeserializerLoop m buf n offset acc = (acc ++ ids.take n, offset + 16 * n)
  | 0, ids, acc, offset, _, _ => by simp [reqIdDeserializerLoop]
  | n + 1, [], acc, offset, hn, _ => absurd hn (by simp)
  | n + 1, rid :: ids, acc, offset, hn, h => by
    unfold encodeIds at h
    have h1 := h.left.left
    have h2 := h.left.right
    have h3 := h.right
    simp only [List.length_append, length_leBytes, Nat.reduceAdd] at h2 h3
    rw [reqIdDeserializerLoop, ofNat_load h1, ← Nat.add_assoc, ofNat_load h2,
      reqIdDeserializerLoop_eq n ids _ (offset + 8 + 8) (Nat.le_of_succ_le_succ hn) h3, List.take_succ_cons,
      List.append_assoc]
    refine Prod.ext rfl ?_
    simp only
    omega

/-- **What is read of what was written**: as many ids as the number says. -/
theorem reqIdDeserializer_reqIdSerializer (ids : List ReqID) (m : Mem) (buf : ℕ) :
    (reqIdDeserializer [] (reqIdSerializer ids m buf).1 buf).1 = ids.take (ids.length % 2 ^ 32) := by
  have h := holds_writeBytes m buf (leBytes 4 ids.length ++ encodeIds ids)
  have hnum : load (writeBytes m buf (leBytes 4 ids.length ++ encodeIds ids)) buf 4 = ids.length % 2 ^ 32 :=
    h.left.load
  have hids := h.right
  rw [length_leBytes] at hids
  unfold reqIdDeserializer
  rw [reqIdSerializer_eq, hnum, reqIdDeserializerLoop_eq _ ids [] 4 (Nat.mod_le _ _) hids, List.nil_append]

end LazyLog.Rpc.ReqIds
