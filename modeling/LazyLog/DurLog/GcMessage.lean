import LazyLog.Rpc.ReqIds
import LazyLog.DurLog.FlatCli

/-! # What a collection is told (`DurabilityLogFlatCli::ProcessFetchedEntries`)

The entries of a batch come with the sentinel, which has the client id 0 and the end sequence as its number. A backup
is told the greatest number of each client of the batch, the primary the new watermarks. The ids go through a message
whose count has 32 bits; a fetch returns less than `2 ^ 26` entries, so that this is enough. -/

namespace LazyLog.DurLog.GcMessage

open LazyLog.Lib.Bytes LazyLog.Lib.Run LazyLog.Rpc.Entry LazyLog.Rpc.ReqIds
open LazyLog.DurLog.Flat LazyLog.DurLog.Ring LazyLog.DurLog.FlatCli

/-! ### The map of the maxima -/

/-- The keys of a `std::map` go up. -/
def KeysAscend (m : List ReqID) : Prop := m.Pairwise fun p q => p.1 < q.1

/-- `q` is the greatest number of client `id` in the entries. -/
def IsMaxSeq (es : List LogEntry) (id q : UInt64) : Prop :=
  (∃ e ∈ es, e.clientId = id ∧ e.clientSeq = q) ∧ ∀ e ∈ es, e.clientId = id → e.clientSeq ≤ q

theorem fst_mem_raiseMax {m : List ReqID} {r : ReqID} {id : UInt64} :
    (∃ p ∈ raiseMax m r, p.1 = id) ↔ (∃ p ∈ m, p.1 = id) ∨ r.1 = id := by
  induction m with
  | nil => simp [raiseMax]
  | cons p m ih =>
    obtain ⟨clientId, clientSeq⟩ := p
    unfold raiseMax
    split_ifs with h1 h2 h3
    · simp only [List.exists_mem_cons_iff]
      exact or_comm
    · simp only [List.exists_mem_cons_iff, h2]
      exact ⟨Or.inl, fun h => h.elim (fun h => h) Or.inl⟩
    · simp only [List.exists_mem_cons_iff, h2]
      exact ⟨Or.inl, fun h => h.elim (fun h => h) Or.inl⟩
    · simp only [List.exists_mem_cons_iff, ih]
      exact or_assoc.symm

theorem KeysAscend.raiseMax {m : List ReqID} (h : KeysAscend m) (r : ReqID) : KeysAscend (raiseMax m r) := by
  induction m with
  | nil => exact List.pairwise_singleton _ _
  | cons p m ih =>
    obtain ⟨clientId, clientSeq⟩ := p
    obtain ⟨hp, hm⟩ := List.pairwise_cons.mp h
    unfold FlatCli.raiseMax
    split_ifs with h1 h2 h3
    · refine List.pairwise_cons.mpr ⟨fun q hq => ?_, h⟩
      rcases List.mem_cons.mp hq with rfl | hq
      · exact h1
      · exact UInt64.lt_trans h1 (hp q hq)
    · exact List.pairwise_cons.mpr ⟨hp, hm⟩
    · exact List.pairwise_cons.mpr ⟨hp, hm⟩
    · refine List.pairwise_cons.mpr ⟨fun q hq => ?_, ih hm⟩
      -- the new key is not below this one
      rcases fst_mem_raiseMax.mp ⟨q, hq, rfl⟩ with ⟨p, hpm, hpq⟩ | hr
      · exact hpq ▸ hp p hpm
      · rw [← hr]
        exact UInt64.lt_of_le_of_ne (UInt64.not_lt.mp h1) (Ne.symm h2)

theorem KeysAscend.nodup {m : List ReqID} (h : KeysAscend m) : (m.map Prod.fst).Nodup :=
  List.pairwise_map.mpr (h.imp fun hlt => UInt64.ne_of_lt hlt)

theorem KeysAscend.unique {m : List ReqID} (h : KeysAscend m) {id q q' : UInt64} (hq : (id, q) ∈ m)
    (hq' : (id, q') ∈ m) : q = q' :=
  congrArg Prod.snd (List.inj_on_of_nodup_map h.nodup hq hq' rfl)

theorem KeysAscend.le_of_mem_raiseMax {m : List ReqID} (h : KeysAscend m) {r : ReqID} {id q : UInt64}
    (hq : (id, q) ∈ FlatCli.raiseMax m r) : (id = r.1 → r.2 ≤ q) ∧ ∀ q', (id, q') ∈ m → q' ≤ q := by
  induction m with
  | nil =>
    obtain rfl := List.mem_singleton.mp hq
    exact ⟨fun _ => UInt64.le_refl _, fun q' hq' => absurd hq' List.not_mem_nil⟩
  | cons p m ih =>
    obtain ⟨clientId, clientSeq⟩ := p
    obtain ⟨hp, hm⟩ := List.pairwise_cons.mp h
    have hold : (id, q) ∈ (clientId, clientSeq) :: m → ∀ q', (id, q') ∈ (clientId, clientSeq) :: m → q' ≤ q :=
      fun hq q' hq' => h.unique hq' hq ▸ UInt64.le_refl _
    unfold FlatCli.raiseMax at hq
    split_ifs at hq with h1 h2 h3
    · -- a new key, below all others
      have hno : ∀ q', (r.1, q') ∉ (clientId, clientSeq) :: m := by
        intro q' hq'
        rcases List.mem_cons.mp hq' with heq | hq'
        · exact UInt64.ne_of_lt h1 (congrArg Prod.fst heq)
        · exact UInt64.lt_irrefl _ (UInt64.lt_trans h1 (hp (r.1, q') hq'))
      rcases List.mem_cons.mp hq with rfl | hq
      · exact ⟨fun _ => UInt64.le_refl _, fun q' hq' => absurd hq' (hno q')⟩
      · exact ⟨fun heq => absurd (heq ▸ hq) (hno q), hold hq⟩
    · rcases List.mem_cons.mp hq with heq | hq
      · cases heq
        refine ⟨fun _ => UInt64.le_refl _, fun q' hq' => ?_⟩
        rw [h.unique hq' List.mem_cons_self]
        exact UInt64.le_of_lt h3
      · refine ⟨fun heq => ?_, hold (List.mem_cons_of_mem _ hq)⟩
        exact absurd (hp _ hq) (by rw [heq, h2]; exact UInt64.lt_irrefl _)
    · rcases List.mem_cons.mp hq with heq | hq
      · cases heq
        exact ⟨fun _ => UInt64.not_lt.mp h3, hold List.mem_cons_self⟩
      · refine ⟨fun heq => ?_, hold (List.mem_cons_of_mem _ hq)⟩
        exact absurd (hp _ hq) (by rw [heq, h2]; exact UInt64.lt_irrefl _)
    · rcases List.mem_cons.mp hq with heq | hrest
      · cases heq
        exact ⟨fun heq => absurd heq.symm h2, hold List.mem_cons_self⟩
      · obtain ⟨hr, hmax⟩ := ih hm hrest
        refine ⟨hr, fun q' hq' => ?_⟩
        rcases List.mem_cons.mp hq' with heq | hq'
        · -- the first key is not among those behind it
          cases heq
          rcases fst_mem_raiseMax.mp ⟨_, hrest, rfl⟩ with ⟨p, hpm, hpq⟩ | heq
          · exact absurd (hp p hpm) (by rw [hpq]; exact UInt64.lt_irrefl _)
          · exact absurd heq h2
        · exact hmax q' hq'

/-- **The map of the maxima.** -/
theorem maxSeqForClient_spec (es : List LogEntry) :
    KeysAscend (maxSeqForClient es) ∧
      (∀ id, (∃ p ∈ maxSeqForClient es, p.1 = id) ↔ ∃ e ∈ es, e.clientId = id) ∧
      ∀ id q, (id, q) ∈ maxSeqForClient es → IsMaxSeq es id q := by
  induction es using List.reverseRecOn with
  | nil => exact ⟨.nil, by simp [maxSeqForClient], by simp [maxSeqForClient]⟩
  | append_singleton es e ih =>
    obtain ⟨hasc, hkeys, hmax⟩ := ih
    have hfold : maxSeqForClient (es ++ [e]) = raiseMax (maxSeqForClient es) e.reqId := by
      unfold maxSeqForClient
      rw [List.foldl_append, List.foldl_cons, List.foldl_nil]
    rw [hfold]
    refine ⟨hasc.raiseMax _, fun id => ?_, fun id q hq => ⟨?_, fun x hx hid => ?_⟩⟩
    · rw [fst_mem_raiseMax, hkeys]
      simp only [List.mem_append, List.mem_singleton, or_and_right, exists_or, exists_eq_left]
      rfl
    · rcases mem_raiseMax hq with hq | hq
      · obtain ⟨x, hx, hxq⟩ := (hmax id q hq).1
        exact ⟨x, List.mem_append_left _ hx, hxq⟩
      · exact ⟨e, List.mem_append_right _ (List.mem_singleton.mpr rfl), (congrArg Prod.fst hq).symm,
          (congrArg Prod.snd hq).symm⟩
    · obtain ⟨hr, hold⟩ := hasc.le_of_mem_raiseMax hq
      rcases List.mem_append.mp hx with hx | hx
      · subst hid
        obtain ⟨⟨id', q'⟩, hp, rfl⟩ := (hkeys x.clientId).mpr ⟨x, hx, rfl⟩
        exact UInt64.le_trans ((hmax _ q' hp).2 x hx rfl) (hold q' hp)
      · obtain rfl := List.mem_singleton.mp hx
        exact hr hid.symm

/-! ### The message -/

/-- **The greatest number of each client**, and nothing else. -/
structure PerClientMax (real : List LogEntry) (ids : List ReqID) : Prop where
  nodup : (ids.map Prod.fst).Nodup
  clients : ∀ id, id ∈ ids.map Prod.fst ↔ ∃ e ∈ real, e.clientId = id
  max : ∀ id q, (id, q) ∈ ids → IsMaxSeq real id q

/-- The ids that a server gets out of the message. -/
def received (isPrimary : Bool) (es : List LogEntry) (m : Mem) (buf : ℕ) : List ReqID :=
  (reqIdDeserializer [] (reqIdSerializer (processFetchedEntries isPrimary es []).2 m buf).1 buf).1

variable {real : List LogEntry}

/-- The sentinel has no part in the maxima. -/
theorem processFetchedEntries_perClientMax (hid : ∀ e ∈ real, e.clientId ≠ 0) (p : ℕ) :
    PerClientMax real (processFetchedEntries false (real ++ [sentinel p]) []).2 := by
  obtain ⟨hasc, hkeys, hmax⟩ := maxSeqForClient_spec (real ++ [sentinel p])
  have hids : (processFetchedEntries false (real ++ [sentinel p]) []).2 =
      (maxSeqForClient (real ++ [sentinel p])).filter fun r => r.1 ≠ 0 := by
    unfold processFetchedEntries
    simp only [Bool.false_eq_true, if_false, List.nil_append]
  rw [hids]
  refine ⟨?_, fun id => ?_, fun id q hq => ?_⟩
  · exact KeysAscend.nodup (hasc.sublist List.filter_sublist)
  · simp only [List.mem_map, List.mem_filter, decide_eq_true_iff]
    constructor
    · rintro ⟨r, ⟨hr, hne⟩, rfl⟩
      obtain ⟨e, he, heq⟩ := (hkeys r.1).mp ⟨r, hr, rfl⟩
      rcases List.mem_append.mp he with he | he
      · exact ⟨e, he, heq⟩
      · rw [List.mem_singleton.mp he] at heq
        exact absurd heq.symm hne
    · rintro ⟨e, he, rfl⟩
      obtain ⟨r, hr, heq⟩ := (hkeys e.clientId).mpr ⟨e, List.mem_append_left _ he, rfl⟩
      exact ⟨r, ⟨hr, heq ▸ hid e he⟩, heq⟩
  · obtain ⟨hq, hne⟩ := List.mem_filter.mp hq
    have hne' : id ≠ 0 := of_decide_eq_true hne
    obtain ⟨⟨e, he, hide, hseq⟩, hle⟩ := hmax id q hq
    refine ⟨?_, fun x hx => hle x (List.mem_append_left _ hx)⟩
    rcases List.mem_append.mp he with he | he
    · exact ⟨e, he, hide, hseq⟩
    · rw [List.mem_singleton.mp he] at hide
      exact absurd hide.symm hne'

theorem PerClientMax.length_eq {ids : List ReqID} (h : PerClientMax real ids) :
    ids.length = (real.map LogEntry.clientId).dedup.length := by
  rw [← List.length_map Prod.fst]
  refine ((List.perm_ext_iff_of_nodup h.nodup (List.nodup_dedup _)).mpr fun id => ?_).length_eq
  rw [h.clients, List.mem_dedup, List.mem_map]

/-- **A backup gets the maxima** exactly if their number fits 32 bits. -/
theorem perClientMax_received_iff (hid : ∀ e ∈ real, e.clientId ≠ 0) (p : ℕ) (m : Mem) (buf : ℕ) :
    PerClientMax real (received false (real ++ [sentinel p]) m buf) ↔
      (real.map LogEntry.clientId).dedup.length < 2 ^ 32 := by
  have hsent := processFetchedEntries_perClientMax hid p
  have hlen := hsent.length_eq
  unfold received
  rw [reqIdDeserializer_reqIdSerializer]
  constructor
  · intro h
    have hlen' := h.length_eq
    rw [List.length_take] at hlen'
    have := Nat.mod_lt (processFetchedEntries false (real ++ [sentinel p]) []).2.length
      (show 0 < 2 ^ 32 by decide)
    omega
  · intro h
    rw [List.take_of_length_le (Nat.mod_eq_of_lt (hlen ▸ h)).ge]
    exact hsent

/-- **The collection is told what it has to know**: a backup the maxima of the batch, the primary the end sequence and
the next index; and the index returned is that of the last entry. -/
structure MessageRight (front : List LogEntry) (last : LogEntry) (p : ℕ) (m : Mem) (buf : ℕ) : Prop where
  backup : PerClientMax (front ++ [last]) (received false (front ++ [last] ++ [sentinel p]) m buf)
  primary : (processFetchedEntries true (front ++ [last] ++ [sentinel p]) []).2 =
    [((sentinel p).clientSeq, 0), (last.logIdx + 1, 0)]
  returned : ∀ isPrimary, (processFetchedEntries isPrimary (front ++ [last] ++ [sentinel p]) []).1 = last.logIdx

theorem messageRight_iff {front : List LogEntry} {last : LogEntry} (hid : ∀ e ∈ front ++ [last], e.clientId ≠ 0)
    (p : ℕ) (m : Mem) (buf : ℕ) :
    MessageRight front last p m buf ↔ ((front ++ [last]).map LogEntry.clientId).dedup.length < 2 ^ 32 := by
  have hprim := processFetchedEntries_primary front last p
  rw [← perClientMax_received_iff hid p m buf]
  refine ⟨fun h => h.backup, fun h => ⟨h, ?_, fun isPrimary => ?_⟩⟩
  · rw [hprim]
    rfl
  · exact congrArg Prod.fst hprim

/-- **The message of a collection is right** for every batch that a fetch returns, from whatever bytes the ring holds,
as long as the log occupies less than the ring. -/
theorem gc_message_right {c : Config} {l : FlatLog} (hocc : l.sequencer < l.orderedWatermk + c.rgSize) {mr : Mem}
    {frm maxFetchSize p : ℕ} {front : List LogEntry} {last : LogEntry}
    (hfetch : (fetchUnorderedEntries c.rgSize l mr [] frm maxFetchSize).1 = front ++ [last] ++ [sentinel p])
    (hid : ∀ e ∈ front ++ [last], e.clientId ≠ 0) (m : Mem) (buf : ℕ) : MessageRight front last p m buf := by
  have hlen := length_fetchUnorderedEntries_le hocc mr [] frm maxFetchSize
  have hclients := (List.dedup_sublist ((front ++ [last]).map LogEntry.clientId)).length_le
  have hrg := c.rgSize_lt
  rw [hfetch, List.length_append, List.length_singleton, List.length_nil] at hlen
  rw [List.length_map] at hclients
  refine (messageRight_iff hid p m buf).mpr ?_
  unfold metaDataSize flagPos at hlen
  omega

/-- Three empty entries of two clients, the numbers of the first client out of order. -/
def threeAppends : State :=
  append .smallPrimary
    (append .smallPrimary (append .smallPrimary ⟨.zeroed, []⟩ ⟨3, 8, 0, 0, 0, 0, []⟩) ⟨2, 1, 0, 0, 0, 0, []⟩)
    ⟨3, 7, 0, 0, 0, 0, []⟩

theorem reach_threeAppends : Reach Init (RingStep .smallPrimary) threeAppends := by
  have h0 : Reach Init (RingStep .smallPrimary) ⟨.zeroed, []⟩ := .start ⟨FlatLog.zeroed_fresh, rfl⟩
  have h1 := h0.run (ring_run (append_run .smallPrimary _ (e := ⟨3, 8, 0, 0, 0, 0, []⟩) ⟨rfl, by decide⟩ rfl
    (by decide)))
  have h2 := h1.run (ring_run (append_run .smallPrimary _ (e := ⟨2, 1, 0, 0, 0, 0, []⟩) ⟨rfl, by decide⟩ rfl
    (by decide)))
  exact h2.run (ring_run (append_run .smallPrimary _ ⟨rfl, by decide⟩ rfl (by decide)))

/-- They are fetched, and the message names both clients. -/
theorem gc_message_right_three :
    (fetchUnorderedEntries Config.smallPrimary.rgSize threeAppends.log (fun _ => 0) [] 0 0).1 =
        [⟨3, 8, 0, 0, 1, 0, []⟩, ⟨2, 1, 1, 0, 1, 0, []⟩] ++ [⟨3, 7, 2, 0, 1, 0, []⟩] ++ [sentinel 96] ∧
      MessageRight [⟨3, 8, 0, 0, 1, 0, []⟩, ⟨2, 1, 1, 0, 1, 0, []⟩] ⟨3, 7, 2, 0, 1, 0, []⟩ 96 (fun _ => 0) 0 := by
  have hC := contents_of_reach reach_threeAppends
  have hall : ∀ t ∈ threeAppends.slots, t.Complete .smallPrimary := by decide
  have hfetch := fetchUnorderedEntries_eq hC (fun ht _ hc => absurd (hall _ (List.mem_of_getElem? ht)) hc)
    (Or.inl (Nat.zero_le _)) (fun _ => 0) [] 0
  have hrun : longestRun .smallPrimary threeAppends (max threeAppends.log.orderedWatermk 0) 0 =
      [⟨3, 8, 0, 0, 1, 0, []⟩, ⟨2, 1, 1, 0, 1, 0, []⟩, ⟨3, 7, 2, 0, 1, 0, []⟩] := by decide
  rw [hrun, if_neg (List.cons_ne_nil _ _)] at hfetch
  have hes := congrArg Prod.fst hfetch
  exact ⟨hes, gc_message_right hC.occupancy hes (by decide) (fun _ => 0) 0⟩

end LazyLog.DurLog.GcMessage
