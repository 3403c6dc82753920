import LazyLog.Client.LazyLogCli
import LazyLog.ConsLog.FetchAndStore
import LazyLog.ConsLog.Pipeline

/-! # The log as the clients see it

The clients and a consensus log run side by side: an append on the primary is taken by both, and everything
else goes on independently, the appends on the backups included. The shared log has the entries in the order in
which the primary has appended them (`content_of_reachable`), and the batches cut it from its front; so the
order of the calls in time is the order of the log. -/

namespace LazyLog.Service.Appends

open LazyLog.Lib.Streams LazyLog.Lib.Transition LazyLog.Rpc.Entry LazyLog.DurLog.Flat LazyLog.DurLog.Ring
open LazyLog.ConsLog LazyLog.ConsLog.Batches LazyLog.ConsLog.Link
open LazyLog.ConsLog.Spec (SharedLog)
open LazyLog.Client LazyLog.Client.LazyLogCli

/-! ### The system -/

/-- The appends of the clients to the primary are those the consensus log sees. -/
def link : Label → Option Act
  | .append e => some (.append .primary e)
  | .tau | .appendBatch _ | .appendBatchDone | .updateGlobalIdx _ | .updateGlobalIdxDone => none

/-- A consensus log and the clients, with `n` backups. -/
def withClients {σ : Type} (A : Lts Label σ) (n : ℕ) : Lts (Label ⊕ Act) (σ × Clients) :=
  A.sync (LazyLogCli.lts n) link fun b => ∀ e, b ≠ .append .primary e

variable {n : ℕ} {x : SharedLog} {t : Clients} {L : List LogEntry} {bs : List (List LogEntry)}
  {e e' : LogEntry}

/-! ### The order of the log -/

/-- What an entry is to its client. -/
def content (e : LogEntry) : ReqID × List UInt8 := (e.reqId, e.data)

/-- **The shared log is the append order of the primary.** -/
theorem content_of_reachable (h : (withClients Spec.lts n).Reachable (x, t)) :
    x.log.map content = (t.order .primary).map content := by
  refine h.invariant (P := fun y => y.1.log.map content = (y.2.order .primary).map content) ?_ ?_
  · rintro ⟨x, t⟩ ⟨hx, ht⟩
    obtain rfl : x = _ := hx
    obtain rfl : t = _ := ht
    rfl
  · rintro b y y' - ih hs
    cases hs with
    | @left a _ _ _ hl hs =>
      have hlog := Spec.Step.log_eq hs fun e ha => by
        rw [ha] at hl
        cases hl
      simp only [hlog]
      exact ih
    | @both a b _ _ _ _ hl hs he =>
      -- both append the entry, and it keeps its request id and data
      obtain ⟨e, rfl⟩ : ∃ e, a = .append e := by
        cases a <;> simp [link] at hl ⊢
      cases hl
      obtain ⟨x, hrec, hlog⟩ := Spec.Step.log_append hs
      simp only [hlog, LazyLogCli.Step.order_append he, List.map_append, List.map_singleton, ih]
      rw [content, hrec.reqId, hrec.data]
      rfl
    | right ho he =>
      have hord := LazyLogCli.Step.order_eq he ho
      simp only [hord]
      exact ih

/-- The clients are in order: the primary never has more than `2 ^ 63` entries. -/
theorem clients_of_reachable (h : (withClients Spec.lts n).Reachable (x, t)) : LazyLogCli.Inv n t := by
  refine LazyLogCli.inv_of_reachable h.snd ?_
  have hlen := congrArg List.length (content_of_reachable h)
  rw [List.length_map, List.length_map] at hlen
  rw [← hlen]
  exact (Spec.inv_of_reachable h.fst).length_le

/-- The requests of a list of entries. -/
def ids (l : List LogEntry) : List ReqID := l.map LogEntry.reqId

theorem getElem?_ids {i : ℕ} (h : L[i]? = some e) : (ids L)[i]? = some e.reqId := by
  rw [ids, List.getElem?_map, h]
  rfl

theorem index_unique {i j : ℕ} (hnd : (ids L).Nodup) (hi : L[i]? = some e) (hj : L[j]? = some e')
    (h : e.reqId = e'.reqId) : i = j := by
  have hlt := (List.getElem?_eq_some_iff.mp (getElem?_ids hi)).1
  refine (List.getElem?_inj hlt hnd).mp ?_
  rw [getElem?_ids hi, getElem?_ids hj, h]

theorem ids_eq_of_content {l l' : List LogEntry} (h : l.map content = l'.map content) : ids l = ids l' := by
  have := congrArg (List.map Prod.fst) h
  rwa [List.map_map, List.map_map] at this

theorem nodup_ids {c : UInt64 → ℕ}
    (h : Counted LogEntry.clientId (fun e => e.clientSeq.toNat) L c) : (ids L).Nodup := by
  have hn := h.nodup
  refine List.Nodup.of_map (fun r : ReqID => (r.1, r.2.toNat)) ?_
  unfold ids
  rw [List.map_map]
  exact hn

/-- With a batch, everything that is before one of its entries has been given to the backend. -/
theorem exists_batch_of_lt {f q i j : ℕ} {es : List LogEntry} {y : LogEntry} (hcut : Cut L 0 bs f)
    (hq : bs[q]? = some es) (hnd : (ids L).Nodup) (he' : e'.reqId ∈ ids es.dropLast) (hj : L[j]? = some y)
    (hy : y.reqId = e'.reqId) (hij : i ≤ j) (hi : (ids L)[i]? = some e.reqId) :
    ∃ q' ≤ q, ∃ es', bs[q']? = some es' ∧ e.reqId ∈ ids es'.dropLast := by
  obtain ⟨k, m, -, hm, hkm, rfl, hcut'⟩ := hcut.getElem hq
  -- the place of the entry in the log is a place of its batch
  have hjlt : j < k + m := by
    rw [dropLast_batch] at he'
    obtain ⟨y', hy', hr'⟩ := List.mem_map.mp he'
    obtain ⟨d, hd⟩ := List.mem_iff_getElem?.mp hy'
    rw [List.getElem?_take] at hd
    split_ifs at hd with hdm
    rw [List.getElem?_drop] at hd
    have := index_unique hnd hd hj (hr'.trans hy.symm)
    omega
  have hflat : (bs.take (q + 1)).flatMap List.dropLast = L.take (k + m) := by
    simpa using hcut'.flatMap_dropLast
  have hmem : e.reqId ∈ ids ((bs.take (q + 1)).flatMap List.dropLast) := by
    rw [hflat, ids, List.map_take]
    refine List.mem_of_getElem? (i := i) ?_
    rw [List.getElem?_take, if_pos (by omega)]
    exact hi
  obtain ⟨z, hz, hzr⟩ := List.mem_map.mp hmem
  obtain ⟨es', hes', hz'⟩ := List.mem_flatMap.mp hz
  obtain ⟨q', hq'⟩ := List.mem_iff_getElem?.mp hes'
  rw [List.getElem?_take] at hq'
  split_ifs at hq' with hlt
  exact ⟨q', by omega, es', hq', List.mem_map.mpr ⟨z, hz', hzr⟩⟩

/-! ### What the clients rely on -/

/-- The log keeps what was acknowledged: an entry whose call has returned is in the append order of every
server and has one index in the log; one whose call has returned before another call was made has a smaller
index and is stored in the same or an earlier batch. -/
structure RealTime (n : ℕ) (log : List LogEntry) (stored : List (List LogEntry)) (t : Clients) : Prop where
  everywhere : ∀ e, Mark.returned e ∈ t.hist → ∀ srv : DlServer, srv.Valid n →
    { e with flags := 0 } ∈ t.order srv
  once : ∀ e, Mark.returned e ∈ t.hist → ∃ idx x, log[idx]? = some x ∧ x.reqId = e.reqId ∧
    x.data = e.data ∧ x.logIdx.toNat = idx ∧
    ∀ (idx' : ℕ) (x' : LogEntry), log[idx']? = some x' → x'.reqId = e.reqId → idx' = idx
  before : ∀ e e', [Mark.returned e, Mark.invoked e'].Sublist t.hist →
    Before log e.reqId e'.reqId ∧ ∀ (q : ℕ) (es : List LogEntry), stored[q]? = some es →
      e'.reqId ∈ ids es.dropLast → ∃ q' ≤ q, ∃ es', stored[q']? = some es' ∧ e.reqId ∈ ids es'.dropLast

theorem exists_of_returned (h : (withClients Spec.lts n).Reachable (x, t))
    (he : Mark.returned e ∈ t.hist) :
    ∃ (idx : ℕ) (y : LogEntry), x.log[idx]? = some y ∧ y.reqId = e.reqId ∧ y.data = e.data := by
  have hmem : content e ∈ x.log.map content := by
    rw [content_of_reachable h]
    exact List.mem_map.mpr ⟨_, ((clients_of_reachable h).returned he).2 .primary trivial, rfl⟩
  obtain ⟨y, hy, heq⟩ := List.mem_map.mp hmem
  obtain ⟨idx, hidx⟩ := List.mem_iff_getElem?.mp hy
  exact ⟨idx, y, hidx, congrArg Prod.fst heq, congrArg Prod.snd heq⟩

theorem before_of_sublist (h : (withClients Spec.lts n).Reachable (x, t))
    (hsub : [Mark.returned e, Mark.invoked e'].Sublist t.hist) : Before x.log e.reqId e'.reqId := by
  intro i j y z hy hz hyr hzr
  have hi := getElem?_ids hy
  have hj := getElem?_ids hz
  rw [ids_eq_of_content (content_of_reachable h), ids, List.getElem?_map,
    Option.map_eq_some_iff] at hi hj
  obtain ⟨y', hy', hyr'⟩ := hi
  obtain ⟨z', hz', hzr'⟩ := hj
  exact (clients_of_reachable h).before hsub .primary trivial i j y' z' hy' hz' (hyr'.trans hyr)
    (hzr'.trans hzr)

theorem realTime_of_reachable (h : (withClients Spec.lts n).Reachable (x, t)) :
    RealTime n x.log x.stored t := by
  have hx := Spec.inv_of_reachable h.fst
  have ht := clients_of_reachable h
  have hnd : (ids x.log).Nodup := by
    rw [ids_eq_of_content (content_of_reachable h)]
    exact nodup_ids (ht.order (show DlServer.Valid n .primary from trivial))
  refine ⟨fun e he => (ht.returned he).2, fun e he => ?_,
    fun e e' hsub => ⟨before_of_sublist h hsub, ?_⟩⟩
  · obtain ⟨idx, y, hidx, hr, hd⟩ := exists_of_returned h he
    exact ⟨idx, y, hidx, hr, hd, hx.indexed _ y hidx, fun idx' y' hy' hr' =>
      index_unique hnd hy' hidx (hr'.trans hr.symm)⟩
  · intro q es hq hmem
    obtain ⟨i, y, hy, hyr, -⟩ := exists_of_returned h (hsub.subset (List.mem_cons_self ..))
    -- the entry of the later call is somewhere in the log
    obtain ⟨j, z, hz, hzr⟩ : ∃ (j : ℕ) (z : LogEntry), x.log[j]? = some z ∧ z.reqId = e'.reqId := by
      obtain ⟨k, m, -, -, -, rfl, -⟩ := hx.stored.getElem hq
      rw [dropLast_batch] at hmem
      obtain ⟨z, hz, hzr⟩ := List.mem_map.mp hmem
      obtain ⟨j, hj⟩ := List.mem_iff_getElem?.mp (List.mem_of_mem_drop (List.mem_of_mem_take hz))
      exact ⟨j, z, hj, hzr⟩
    have hij := before_of_sublist h hsub i j y z hy hz hyr hzr
    exact exists_batch_of_lt hx.stored hq hnd hmem hz hzr hij.le (by rw [getElem?_ids hy, hyr])

/-- **The log respects the order of the calls and has every acknowledged entry at one index**, in both modes
of the consensus log. -/
theorem appends_are_real_time (c : Config) (maxFetchSize n : ℕ) :
    (∀ s t, (withClients (FetchAndStore.lts c maxFetchSize) n).Reachable (s, t) →
      RealTime n (recs s.primary) s.stored t) ∧
    ∀ s t, (withClients (Pipeline.lts c maxFetchSize) n).Reachable (s, t) →
      RealTime n (recs s.primary) s.stored t := by
  constructor
  · intro s t h
    obtain ⟨⟨x, t⟩, hx, ⟨g, st, -, rfl⟩, rfl⟩ :=
      ((FetchAndStore.simulation c maxFetchSize).sync _ _ _).reachable h
    exact realTime_of_reachable hx
  · intro s t h
    obtain ⟨⟨x, t⟩, hx, ⟨g, st, f, -, rfl⟩, rfl⟩ :=
      ((Pipeline.simulation c maxFetchSize).sync _ _ _).reachable h
    exact realTime_of_reachable hx

/-- A client appends, another one appends after it, and both entries are given to the backend. -/
theorem appends_are_real_time_two : ∃ (s : FetchAndStore.Loop) (t : Clients) (e e' : LogEntry),
    [Mark.returned e, Mark.invoked e'].Sublist t.hist ∧ s.stored.length = 1 ∧
      RealTime 1 (recs s.primary) s.stored t := by
  have h0 : (withClients (FetchAndStore.lts .smallPrimary 0) 1).Reachable
      (⟨⟨.zeroed, []⟩, fun _ => 0, .idle, []⟩, ⟨fun _ => ⟨0, none⟩, fun _ => [], []⟩) :=
    .start ⟨⟨⟨FlatLog.zeroed_fresh, rfl⟩, rfl, rfl⟩, rfl⟩
  have h1 := h0.right (.invoke 7 .all [] rfl ⟨rfl, by decide⟩) (by rintro e ⟨⟩)
  have hcan : CanAppend .smallPrimary ⟨.zeroed, []⟩
      { constructLogEntry 7 0 [] with flags := 0 } := ⟨⟨rfl, by decide⟩, rfl, by decide, by decide⟩
  have h2 := h1.both (.append _ hcan) (step_append 7 .primary rfl trivial rfl rfl (by decide)) rfl
  have h3 := h2.right (step_append 7 (.backup 0) rfl (show 0 < 1 by decide) rfl rfl (by decide))
    (by rintro e ⟨⟩)
  have h4 := h3.right (.reply 7 .primary rfl rfl) (by rintro e ⟨⟩)
  have h5 := h4.right (.reply 7 (.backup 0) rfl rfl) (by rintro e ⟨⟩)
  have h6 := h5.right (.ret 7 rfl rfl) (by rintro e ⟨⟩)
  have h7 := h6.right (.invoke 8 .quorum [] rfl ⟨rfl, by decide⟩) (by rintro e ⟨⟩)
  -- the first entry is on the primary, and there is room for the second one
  obtain ⟨P, hP⟩ : ∃ P, P = append .smallPrimary ⟨.zeroed, []⟩
    { constructLogEntry 7 0 [] with flags := 0 } := ⟨_, rfl⟩
  have hprim : Primary .smallPrimary P 0 :=
    hP ▸ (Primary.init ⟨FlatLog.zeroed_fresh, rfl⟩).append hcan
  obtain ⟨hseq, hwm, -⟩ := append_counters .smallPrimary ⟨.zeroed, []⟩
    { constructLogEntry 7 0 [] with flags := 0 }
  rw [← hP] at h7 hseq hwm
  have hcan' : CanAppend .smallPrimary P { constructLogEntry 8 0 [] with flags := 0 } := by
    refine ⟨⟨rfl, by decide⟩, rfl, ?_, ?_⟩
    · rw [hseq, hwm]
      decide
    · rw [hseq]
      decide
  have h8 := h7.both (.append _ hcan') (step_append 8 .primary rfl trivial rfl rfl (by decide)) rfl
  have hprim' := hprim.append hcan'
  have hlen : (recs (append .smallPrimary P { constructLogEntry 8 0 [] with flags := 0 })).length = 2 := by
    rw [recs_append, hP, recs_append]
    rfl
  obtain ⟨P', hP'⟩ : ∃ P', P' = append .smallPrimary P { constructLogEntry 8 0 [] with flags := 0 } := ⟨_, rfl⟩
  rw [← hP'] at h8 hprim' hlen
  obtain ⟨mr, hb, hread, hdec, hne⟩ := hprim'.fetch_all (Nat.le_refl 0) (by omega)
    (show max P'.log.orderedWatermk 0 = _ by rw [hprim'.mark, Nat.max_zero]) fun _ => 0
  have h9 := h8.left (.range rfl) rfl
  have h10 := h9.left (.read rfl hb hread) rfl
  have h11 := h10.left (.appendBatch rfl hdec hne) rfl
  refine ⟨_, _, constructLogEntry 7 0 [], constructLogEntry 8 0 [], ?_, rfl,
    (appends_are_real_time .smallPrimary 0 1).1 _ _ h11⟩
  show List.Sublist _ [Mark.invoked _, Mark.returned _, Mark.invoked _]
  exact .cons _ (List.Sublist.refl _)

end LazyLog.Service.Appends
