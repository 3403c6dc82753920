import LazyLog.Lib.Bytes

/-! # The key-value store over the log (`app/ll_kv`)

An insert request is the length of its key, the key and the value. `InsertHandler` appends it to the log as it came,
with the opcode behind it. `playlog_func` asks for the ordered tail again and again, and each time plays the entries
from `next_idx_` up to the tail into `kv_store_`.

A payload is parsed from both ends: the opcode is its last byte, and the key begins at its fifth. So a payload that
was logged for a request gives the request back, whatever bytes the key and the value have (`playEntry_logged`), and
after the pass for a tail the store is the fold of the requests below it (`playlogFunc_concat`). -/

namespace LazyLog.App.KvStore

open LazyLog.Lib.Bytes

/-! ### The functions -/

/-- `KV_INSERT`. -/
def kvInsert : UInt8 := 41

/-- `InsertHandler`: the payload that it appends to the log. The opcode is written behind the request, into its
buffer. -/
def insertHandler (buf : Mem) (dataSize : ℕ) : List UInt8 :=
  readBytes (writeBytes buf dataSize [kvInsert]) 0 (dataSize + 1)

/-- The bytes of a `std::string`. -/
def bytesOf (data : List UInt8) : Mem := fun x => data.getD x 0

/-- `DeserializeKey`, on a buffer of `size` bytes; it fails if it reads beyond them. -/
def deserializeKey (size : ℕ) (p : Mem) : Option (List UInt8) := do
  let len ← loadWithin size p 0 4
  readWithin size p 4 len

/-- `kv_store_`. -/
abbrev Store := List UInt8 → Option (List UInt8)

/-- The body of the loop in `playlog_func`. It fails on a payload that is too short for its opcode or its key; an
opcode that is not known is logged and skipped. -/
def playEntry (kvStore : Store) (data : List UInt8) : Option Store := do
  let op ← data.getLast?
  if op = kvInsert then
    let key ← deserializeKey data.length (bytesOf data)
    let offset := key.length + 4
    return Function.update kvStore key (some ((data.drop offset).take (data.length - offset - 1)))
  else return kvStore

/-- The loop from `i` on, with `n` entries to go. -/
def playLoop (readEntry : ℕ → List UInt8) : ℕ → ℕ → Store → Option Store
  | 0, _, kvStore => some kvStore
  | n + 1, i, kvStore => do
    let kvStore ← playEntry kvStore (readEntry i)
    playLoop readEntry n (i + 1) kvStore

/-- The static fields of `KVTransport` that the thread writes. -/
structure Player where
  kvStore : Store
  nextIdx : ℕ

/-- Before the first pass. -/
def Player.start : Player := ⟨fun _ => none, 0⟩

/-- What a pass finds: the ordered tail, and what `ReadEntry` gives. -/
structure Pass where
  tail : ℕ
  readEntry : ℕ → List UInt8

/-- One pass of `playlog_func`. -/
def playPass (s : Player) (p : Pass) : Option Player := do
  let kvStore ← playLoop p.readEntry (p.tail - s.nextIdx) s.nextIdx s.kvStore
  return ⟨kvStore, p.tail⟩

/-- `playlog_func`, after some passes. -/
def playlogFunc (passes : List Pass) : Option Player := passes.foldlM playPass .start

/-- `ReadHandler`: the response, which starts with the status. -/
def readHandler (kvStore : Store) (buf : Mem) (dataSize : ℕ) : Option (List UInt8) := do
  let key ← deserializeKey dataSize buf
  match kvStore key with
  | some value => return leBytes 4 0 ++ value
  | none => return leBytes 4 2

/-! ### Requests and the store they make -/

/-- An insert request. The length of the key has 32 bits. -/
structure Insert where
  key : List UInt8
  value : List UInt8
  short : key.length < 2 ^ 32

/-- The request as it is sent. -/
def Insert.request (r : Insert) : List UInt8 := leBytes 4 r.key.length ++ r.key ++ r.value

/-- The payload is logged for the request: it comes in some buffer. -/
def Logged (r : Insert) (payload : List UInt8) : Prop :=
  ∃ buf, Holds buf 0 r.request ∧ payload = insertHandler buf r.request.length

/-- The requests one after the other. -/
def foldInserts (rs : List Insert) : Store :=
  rs.foldl (fun kvStore r => Function.update kvStore r.key (some r.value)) fun _ => none

/-- **The keys of the requests, each with the value of its last occurrence.** -/
structure LastValues (rs : List Insert) (kvStore : Store) : Prop where
  keys : ∀ key, (∃ value, kvStore key = some value) ↔ ∃ r ∈ rs, r.key = key
  last : ∀ front r back, rs = front ++ r :: back → (∀ r' ∈ back, r'.key ≠ r.key) → kvStore r.key = some r.value

theorem foldInserts_concat (rs : List Insert) (r : Insert) :
    foldInserts (rs ++ [r]) = Function.update (foldInserts rs) r.key (some r.value) := by
  unfold foldInserts
  rw [List.foldl_append, List.foldl_cons, List.foldl_nil]

theorem lastValues_foldInserts (rs : List Insert) : LastValues rs (foldInserts rs) := by
  induction rs using List.reverseRecOn with
  | nil =>
    refine ⟨fun key => ?_, fun front r back h => ?_⟩
    · simp [foldInserts]
    · simp at h
  | append_singleton rs r ih =>
    rw [foldInserts_concat]
    refine ⟨fun key => ?_, fun front r' back h hback => ?_⟩
    · by_cases hkey : key = r.key
      · subst hkey
        simp
      · rw [Function.update_of_ne hkey, ih.keys]
        simp [Ne.symm hkey]
    · -- the last request is `r'` itself, or has another key
      rcases List.eq_nil_or_concat back with rfl | ⟨back', r'', rfl⟩
      · obtain ⟨-, rfl⟩ := List.append_singleton_inj.mp h
        rw [Function.update_self]
      · rw [List.concat_eq_append] at h hback
        rw [← List.cons_append, ← List.append_assoc] at h
        obtain ⟨rfl, rfl⟩ := List.append_singleton_inj.mp h
        have hne : r.key ≠ r'.key := hback r (by simp)
        rw [Function.update_of_ne hne.symm]
        exact ih.last front r' back' rfl fun x hx => hback x (by simp [hx])

/-! ### One payload -/

theorem holds_bytesOf (data : List UInt8) : Holds (bytesOf data) 0 data := by
  refine holds_iff.mpr fun i _ => ?_
  rw [Nat.zero_add]
  rfl

theorem insertHandler_eq {buf : Mem} {req : List UInt8} (h : Holds buf 0 req) :
    insertHandler buf req.length = req ++ [kvInsert] := by
  have hreq : Holds (writeBytes buf req.length [kvInsert]) 0 req :=
    h.congr fun i hi => writeBytes_of_notMem (Or.inl (by omega))
  have hop := holds_writeBytes buf req.length [kvInsert]
  unfold insertHandler
  rw [readBytes_add, Nat.zero_add, hreq]
  exact congrArg _ hop

/-- **The key of a request** is found in front of whatever follows it. -/
theorem deserializeKey_of_holds {p : Mem} {r : Insert} {size : ℕ} (h : Holds p 0 r.request)
    (hsize : r.request.length ≤ size) : deserializeKey size p = some r.key := by
  unfold Insert.request at h hsize
  simp only [List.length_append, length_leBytes] at hsize
  have hlen : load p 0 4 = r.key.length := by
    rw [h.left.left.load]
    exact Nat.mod_eq_of_lt r.short
  have hkey := h.left.right
  rw [length_leBytes, Nat.zero_add] at hkey
  unfold deserializeKey
  rw [loadWithin_of_le p (by omega), Option.bind_eq_bind, Option.bind_some, hlen, readWithin_of_le p (by omega)]
  exact congrArg some hkey

/-- **Playing what was logged** is the insert that was asked for. -/
theorem playEntry_logged {r : Insert} {payload : List UInt8} (h : Logged r payload) (kvStore : Store) :
    playEntry kvStore payload = some (Function.update kvStore r.key (some r.value)) := by
  obtain ⟨buf, hbuf, rfl⟩ := h
  rw [insertHandler_eq hbuf]
  have hkey : deserializeKey (r.request ++ [kvInsert]).length (bytesOf (r.request ++ [kvInsert])) = some r.key :=
    deserializeKey_of_holds (holds_bytesOf _).left (by simp)
  -- between the key and the opcode there is the value
  have hvalue : ((r.request ++ [kvInsert]).drop (r.key.length + 4)).take
      ((r.request ++ [kvInsert]).length - (r.key.length + 4) - 1) = r.value := by
    have hfront : (leBytes 4 r.key.length ++ r.key).length = r.key.length + 4 := by
      rw [List.length_append, length_leBytes, Nat.add_comm]
    have hlen : (r.request ++ [kvInsert]).length - (r.key.length + 4) - 1 = r.value.length := by
      unfold Insert.request
      simp only [List.length_append, length_leBytes, List.length_singleton]
      omega
    rw [hlen, ← hfront]
    unfold Insert.request
    rw [List.append_assoc _ r.value, List.drop_left, List.take_left]
  unfold playEntry
  simp only [List.getLast?_concat, hkey, Option.bind_eq_bind, Option.bind_some, if_true, hvalue]
  rfl

/-! ### Passes -/

variable {rs : List Insert} {log : List (List UInt8)}

/-- **The loop** plays the requests that it passes. -/
theorem playLoop_eq {readEntry : ℕ → List UInt8} (hlog : List.Forall₂ Logged rs log) :
    ∀ n i, i + n ≤ log.length → (∀ j < i + n, log[j]? = some (readEntry j)) →
      playLoop readEntry n i (foldInserts (rs.take i)) = some (foldInserts (rs.take (i + n)))
  | 0, i, _, _ => rfl
  | n + 1, i, hle, hread => by
    have hi : i < rs.length := by
      have := hlog.length_eq
      omega
    have hlogged : Logged rs[i] (readEntry i) := by
      have hget := List.getElem?_eq_some_iff.mp (hread i (by omega))
      rw [← hget.2]
      exact hlog.get hi hget.1
    have hnext : foldInserts (rs.take (i + 1)) =
        Function.update (foldInserts (rs.take i)) rs[i].key (some rs[i].value) := by
      rw [List.take_succ_eq_append_getElem hi, foldInserts_concat]
    rw [playLoop, playEntry_logged hlogged, Option.bind_eq_bind, Option.bind_some, ← hnext,
      playLoop_eq hlog n (i + 1) (by omega) fun j hj => hread j (by omega), Nat.add_assoc, Nat.add_comm 1 n]

/-- The reads of a pass are those of the log below its tail. -/
structure Pass.Reads (p : Pass) (log : List (List UInt8)) : Prop where
  le : p.tail ≤ log.length
  read : ∀ i < p.tail, log[i]? = some (p.readEntry i)

/-- **One pass**, from any tail that is not above. -/
theorem playPass_eq (hlog : List.Forall₂ Logged rs log) {p : Pass} (hp : p.Reads log) {t : ℕ} (ht : t ≤ p.tail) :
    playPass ⟨foldInserts (rs.take t), t⟩ p = some ⟨foldInserts (rs.take p.tail), p.tail⟩ := by
  have hsum : t + (p.tail - t) = p.tail := Nat.add_sub_cancel' ht
  have hloop := playLoop_eq hlog (p.tail - t) t (by rw [hsum]; exact hp.le) (by rw [hsum]; exact hp.read)
  rw [hsum] at hloop
  unfold playPass
  simp only [hloop]
  rfl

/-- **All passes**: what they leave depends on the last tail only. -/
theorem playlogFunc_concat (hlog : List.Forall₂ Logged rs log) (passes : List Pass) (p : Pass)
    (hreads : ∀ q ∈ passes ++ [p], q.Reads log) (hmono : (passes ++ [p]).Pairwise fun q q' => q.tail ≤ q'.tail) :
    playlogFunc (passes ++ [p]) = some ⟨foldInserts (rs.take p.tail), p.tail⟩ := by
  induction passes using List.reverseRecOn generalizing p with
  | nil =>
    have hfirst := playPass_eq hlog (hreads p (by simp)) (Nat.zero_le _)
    unfold playlogFunc
    rw [List.nil_append, List.foldlM_cons]
    exact (congrArg (· >>= _) hfirst).trans rfl
  | append_singleton passes q ih =>
    obtain ⟨hfront, -, hle⟩ := List.pairwise_append.mp hmono
    have hq := ih q (fun x hx => hreads x (List.mem_append_left _ hx)) hfront
    have hlast := playPass_eq hlog (hreads p (by simp)) (hle q (by simp) p (List.mem_singleton.mpr rfl))
    unfold playlogFunc at hq ⊢
    rw [List.foldlM_append, hq, Option.bind_eq_bind, Option.bind_some, List.foldlM_cons]
    exact (congrArg (· >>= _) hlast).trans rfl

/-! ### Reads -/

/-- **A read of a key gets its last value**, -/
theorem readHandler_of_last {kvStore : Store} (h : LastValues rs kvStore) {front back : List Insert} {r q : Insert}
    (hrs : rs = front ++ r :: back) (hback : ∀ r' ∈ back, r'.key ≠ r.key) {buf : Mem} (hq : Holds buf 0 q.request)
    (hkey : q.key = r.key) : readHandler kvStore buf q.request.length = some (leBytes 4 0 ++ r.value) := by
  unfold readHandler
  rw [deserializeKey_of_holds hq (Nat.le_refl _), Option.bind_eq_bind, Option.bind_some, hkey,
    h.last front r back hrs hback]
  rfl

/-- and a read of a key that no request has gets the status 2. -/
theorem readHandler_of_absent {kvStore : Store} (h : LastValues rs kvStore) {q : Insert} {buf : Mem}
    (hq : Holds buf 0 q.request) (hno : ∀ r ∈ rs, r.key ≠ q.key) :
    readHandler kvStore buf q.request.length = some (leBytes 4 2) := by
  have hnone : kvStore q.key = none := by
    refine Option.eq_none_iff_forall_ne_some.mpr fun value hv => ?_
    obtain ⟨r, hr, heq⟩ := (h.keys q.key).mp ⟨value, hv⟩
    exact hno r hr heq
  unfold readHandler
  rw [deserializeKey_of_holds hq (Nat.le_refl _), Option.bind_eq_bind, Option.bind_some, hnone]
  rfl

/-- **The store is the fold of its log.** After the pass for a tail, `next_idx_` is the tail, and the store has the
keys of the requests below it with their last values, however the passes before it have split the log. -/
theorem kv_store_is_fold_of_log (hlog : List.Forall₂ Logged rs log) (passes : List Pass) (p : Pass)
    (hreads : ∀ q ∈ passes ++ [p], q.Reads log) (hmono : (passes ++ [p]).Pairwise fun q q' => q.tail ≤ q'.tail) :
    ∃ s, playlogFunc (passes ++ [p]) = some s ∧ s.nextIdx = p.tail ∧ s.kvStore = foldInserts (rs.take p.tail) ∧
      LastValues (rs.take p.tail) s.kvStore :=
  ⟨_, playlogFunc_concat hlog passes p hreads hmono, rfl, rfl, lastValues_foldInserts _⟩

/-- Two requests with the same key. The second value is the byte of the opcode. -/
def twoInserts : List Insert := [⟨[97], [1], by decide⟩, ⟨[97], [41], by decide⟩]

/-- The log of the two requests. -/
def twoPayloads : List (List UInt8) := twoInserts.map fun r => r.request ++ [kvInsert]

/-- Played in two passes, they leave the second value. -/
theorem kv_store_is_fold_of_log_two : ∃ s,
    playlogFunc [⟨1, fun i => twoPayloads.getD i []⟩, ⟨2, fun i => twoPayloads.getD i []⟩] = some s ∧
      s.nextIdx = 2 ∧ s.kvStore [97] = some [41] := by
  have hlogged : ∀ r : Insert, Logged r (r.request ++ [kvInsert]) := by
    intro r
    have hbuf := holds_writeBytes (fun _ => 0) 0 r.request
    exact ⟨_, hbuf, (insertHandler_eq hbuf).symm⟩
  have hlog : List.Forall₂ Logged twoInserts twoPayloads := .cons (hlogged _) (.cons (hlogged _) .nil)
  obtain ⟨s, hs, hnext, -, hlast⟩ := kv_store_is_fold_of_log hlog [⟨1, fun i => twoPayloads.getD i []⟩]
    ⟨2, fun i => twoPayloads.getD i []⟩ (by
      intro q hq
      rcases List.mem_cons.mp hq with rfl | hq
      · exact ⟨by decide, by decide⟩
      · obtain rfl := List.mem_singleton.mp hq
        exact ⟨by decide, by decide⟩) (by simp)
  exact ⟨s, hs, hnext, hlast.last [⟨[97], [1], by decide⟩] ⟨[97], [41], by decide⟩ [] rfl nofun⟩

end LazyLog.App.KvStore
