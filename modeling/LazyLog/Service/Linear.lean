import LazyLog.Lib.Objects
import LazyLog.Service.Appends
import LazyLog.Service.CorfuReads
import LazyLog.Service.Tail

/-! # The service is a linearizable log

The clients, the consensus log, the storage and threads that read run side by side. A client appends through the
servers of the sequencing layer and knows nothing of the consensus log; a reader asks the shard server of an index,
which answers from its cache, and knows nothing of the clients. What they see of each other is a log: the history of
all calls is one of an atomic object that is a list, to which an append adds an entry at the end and of which a read
returns one.

A call of `AppendEntry` on a server is one step. An append takes effect when the primary has appended the entry, long
before it has a place in the storage; a read takes effect when the server answers it. -/

namespace LazyLog.Service.Linear

open LazyLog.Lib.Bytes LazyLog.Lib.Run LazyLog.Lib.Transition LazyLog.Lib.Objects LazyLog.Rpc.Entry
open LazyLog.DurLog.Flat LazyLog.DurLog.Ring LazyLog.DurLog.FlatCli
open LazyLog.ConsLog LazyLog.ConsLog.Batches LazyLog.ConsLog.Link
open LazyLog.ConsLog.Spec (SharedLog)
open LazyLog.Client LazyLog.Client.LazyLogCli
open LazyLog.Storage LazyLog.Storage.ShardServer LazyLog.Storage.Replication LazyLog.Storage.Reads
open LazyLog.Storage.NaiveBackend (shardStripes_pos shardStripes_read getElem?_shardStripes)
open LazyLog.Storage.Store (Cluster)
open LazyLog.Service.Appends (withClients content)
open LazyLog.Service.CorfuReads (ShardClient.readEntry ShardClient.readEntry_of_holds)
open Relation (ReflTransGen)

/-! ### The log as an object -/

/-- An append of a request with its data, or a read of an index. -/
inductive Op
  | append (x : ReqID × List UInt8)
  | read (idx : UInt64)

/-- The request id, or the data. -/
inductive Res
  | appended (rid : ReqID)
  | value (data : List UInt8)

/-- What an operation does to the log. -/
inductive Applies : Op → Res → List (ReqID × List UInt8) → List (ReqID × List UInt8) → Prop
  | append (x : ReqID × List UInt8) (log : List (ReqID × List UInt8)) :
    Applies (.append x) (.appended x.1) log (log ++ [x])
  | read {idx : UInt64} {x : ReqID × List UInt8} {log : List (ReqID × List UInt8)}
    (h : log[idx.toNat]? = some x) : Applies (.read idx) (.value x.2) log log

/-- The log. -/
def log : Object Op Res (List (ReqID × List UInt8)) := ⟨[], Applies⟩

/-- Who calls: a client that appends, or a thread that reads. -/
inductive Proc
  | client (id : UInt64)
  | reader (i : ℕ)
  deriving DecidableEq

/-! ### The system -/

/-- The calls of the consensus log are calls of the storage, also when clients run next to it. -/
def link : Label ⊕ Act → Option Store.Event := Sum.elim Tail.link fun _ => none

/-- A consensus log, the clients with `n` backups, and the storage. -/
def service {σ : Type} (A : Lts Label σ) (n : ℕ) (k : Striping) (r : ℕ → ℕ) :
    Lts ((Label ⊕ Act) ⊕ Store.Event) ((σ × Clients) × Cluster) :=
  (withClients A n).sync (Store.lts k r) link (· = .tau)

/-- Where a call of `ReadEntry` is: the response has come out of the server's buffer. -/
inductive ReadPc
  | idle
  | asked (idx : UInt64)
  | answered (response : Mem × ℕ)

/-- The service with its readers, and what has been seen of the calls. -/
structure Sys (σ : Type) where
  service : (σ × Clients) × Cluster
  readers : ℕ → ReadPc
  hist : List (Event Proc Op Res)

/-- What is seen of a call to append. -/
def event : Mark → Event Proc Op Res
  | .invoked e => .invoked (.client e.clientId) (.append (content e))
  | .returned e => .returned (.client e.clientId) (.appended e.reqId)

/-- The calls made and returned by a step of the clients. -/
def news (t t' : Clients) : List (Event Proc Op Res) := (t'.hist.drop t.hist.length).map event

/-- `LazyLogClient::ReadEntry`, from the response on: the data. -/
def readData (response : Mem × ℕ) (resp : Mem) : List UInt8 := (ShardClient.readEntry response resp default).2.data

/-- One step. A response has to fit the buffer of the shard client. -/
inductive Step {σ : Type} (A : Lts Label σ) (n : ℕ) (k : Striping) (r : ℕ → ℕ) : Sys σ → Sys σ → Prop
  | service {s : Sys σ} {a : (Label ⊕ Act) ⊕ Store.Event} {y : (σ × Clients) × Cluster}
    (h : (Linear.service A n k r).step a s.service y) :
    Step A n k r s { s with service := y, hist := s.hist ++ news s.service.1.2 y.1.2 }
  | ask {s : Sys σ} (i : ℕ) (idx : UInt64) (h : s.readers i = .idle) :
    Step A n k r s
      { s with
        readers := Function.update s.readers i (.asked idx)
        hist := s.hist ++ [.invoked (.reader i) (.read idx)] }
  | answer {s : Sys σ} (i : ℕ) (idx : UInt64) (resp : Mem) {response : Mem × ℕ} (h : s.readers i = .asked idx)
    (hr : readEntry k (s.service.2.shards (idx.toNat % k.shardNum)).primary idx resp = some response) :
    Step A n k r s { s with readers := Function.update s.readers i (.answered response) }
  | ret {s : Sys σ} (i : ℕ) {response : Mem × ℕ} (resp : Mem) (h : s.readers i = .answered response)
    (hfit : response.2 ≤ pageSize) :
    Step A n k r s
      { s with
        readers := Function.update s.readers i .idle
        hist := s.hist ++ [.returned (.reader i) (.value (readData response resp))] }

/-- Everything has just been started. -/
structure Start {σ : Type} (A : Lts Label σ) (n : ℕ) (k : Striping) (r : ℕ → ℕ) (s : Sys σ) : Prop where
  service : (Linear.service A n k r).start s.service
  readers : s.readers = fun _ => .idle
  hist : s.hist = []

variable {σ : Type} {A : Lts Label σ} {n : ℕ} {k : Striping} {r : ℕ → ℕ} {t t' : Clients} {x x' : SharedLog}
  {s s' : Sys SharedLog} {e : LogEntry} {a : Label} {b : Act}

/-! ### The calls -/

/-- What a call to append is to the log. -/
def callStatus (call : LazyLogCli.Call) : Call Op Res :=
  if call.requests .primary = .sent then .pending (.append (content call.entry))
  else .done (.appended call.entry.reqId)

/-- What a client is to the log. -/
def clientStatus (c : LazyLogClient) : Call Op Res :=
  match c.call with
  | none => .idle
  | some call => callStatus call

/-- What a read is to the log. -/
def ReadPc.status : ReadPc → Call Op Res
  | .idle => .idle
  | .asked idx => .pending (.read idx)
  | .answered response => .done (.value (readData response fun _ => 0))

/-- What the calls are to the log. -/
def status (t : Clients) (readers : ℕ → ReadPc) : Proc → Call Op Res
  | .client id => clientStatus (t.clients id)
  | .reader i => (readers i).status

/-- **The atomic log that a state stands for.** -/
def Sys.abs (s : Sys SharedLog) : Atomic Proc Op Res (List (ReqID × List UInt8)) where
  state := s.service.1.1.log.map content
  calls := status s.service.1.2 s.readers
  hist := s.hist

theorem status_update_client {id : UInt64} {c : LazyLogClient} (h : t'.clients = Function.update t.clients id c)
    (readers : ℕ → ReadPc) :
    status t' readers = Function.update (status t readers) (.client id) (clientStatus c) := by
  funext p
  cases p with
  | client id' =>
    simp only [status, h]
    rcases eq_or_ne id' id with rfl | hne
    · rw [Function.update_self, Function.update_self]
    · rw [Function.update_of_ne hne, Function.update_of_ne fun heq => hne (Proc.client.inj heq)]
      rfl
  | reader i => exact (Function.update_of_ne (by rintro ⟨⟩) _ _).symm

theorem status_update_reader (t : Clients) (readers : ℕ → ReadPc) (i : ℕ) (pc : ReadPc) :
    status t (Function.update readers i pc) = Function.update (status t readers) (.reader i) pc.status := by
  funext p
  cases p with
  | client id => exact (Function.update_of_ne (by rintro ⟨⟩) _ _).symm
  | reader j =>
    simp only [status]
    rcases eq_or_ne j i with rfl | hne
    · rw [Function.update_self, Function.update_self]
    · rw [Function.update_of_ne hne, Function.update_of_ne fun heq => hne (Proc.reader.inj heq)]
      rfl

theorem status_of_eq {id : UInt64} {c : LazyLogClient} (h : t'.clients = Function.update t.clients id c)
    (hc : clientStatus c = clientStatus (t.clients id)) (readers : ℕ → ReadPc) :
    status t' readers = status t readers := by
  rw [status_update_client h, hc]
  exact Function.update_eq_self _ _

theorem news_of_hist (h : t'.hist = t.hist) : news t t' = [] := by
  unfold news
  rw [h, List.drop_length]
  rfl

theorem news_of_append {m : Mark} (h : t'.hist = t.hist ++ [m]) : news t t' = [event m] := by
  unfold news
  rw [h, List.drop_left]
  rfl

section Client

variable {id : UInt64} {c : LazyLogClient} (hc : t'.clients = Function.update t.clients id c)
  (L : List (ReqID × List UInt8)) (readers : ℕ → ReadPc) (H : List (Event Proc Op Res))
include hc

theorem run_of_status_eq (hh : t'.hist = t.hist)
    (hs : clientStatus c = clientStatus (t.clients id)) :
    ReflTransGen (Atomic.Step log) ⟨L, status t readers, H⟩ ⟨L, status t' readers, H ++ news t t'⟩ := by
  rw [news_of_hist hh, List.append_nil, status_of_eq hc hs]

theorem run_of_invoked (hh : t'.hist = t.hist ++ [.invoked e]) (hid : e.clientId = id)
    (h0 : clientStatus (t.clients id) = .idle)
    (h1 : clientStatus c = .pending (.append (content e))) :
    ReflTransGen (Atomic.Step log) ⟨L, status t readers, H⟩ ⟨L, status t' readers, H ++ news t t'⟩ := by
  rw [news_of_append hh, status_update_client hc, h1, event, hid]
  exact .single (.invoke (Proc.client id) _ h0)

theorem run_of_returned (hh : t'.hist = t.hist ++ [.returned e]) (hid : e.clientId = id)
    (h0 : clientStatus (t.clients id) = .done (.appended e.reqId))
    (h1 : clientStatus c = .idle) :
    ReflTransGen (Atomic.Step log) ⟨L, status t readers, H⟩ ⟨L, status t' readers, H ++ news t t'⟩ := by
  rw [news_of_append hh, status_update_client hc, h1, event, hid]
  exact .single (.ret (Proc.client id) h0)

theorem run_of_effect (hh : t'.hist = t.hist)
    (h0 : clientStatus (t.clients id) = .pending (.append (content e)))
    (h1 : clientStatus c = .done (.appended e.reqId)) :
    ReflTransGen (Atomic.Step log) ⟨L, status t readers, H⟩
      ⟨L ++ [content e], status t' readers, H ++ news t t'⟩ := by
  rw [news_of_hist hh, List.append_nil, status_update_client hc, h1]
  exact .single (.effect (Proc.client id) h0 (Applies.append _ L))

end Client

theorem clientStatus_of_none {c : LazyLogClient} (h : c.call = none) : clientStatus c = .idle := by
  unfold clientStatus
  rw [h]

theorem clientStatus_of_some {c : LazyLogClient} {call : LazyLogCli.Call} (h : c.call = some call) :
    clientStatus c = callStatus call := by
  unfold clientStatus
  rw [h]

theorem callStatus_congr {call : LazyLogCli.Call} {requests : DlServer → Request}
    (h : requests .primary = .sent ↔ call.requests .primary = .sent) :
    callStatus { call with requests := requests } = callStatus call := by
  unfold callStatus
  simp only [h]

/-- **A step of the clients**, but for an append on the primary, changes nothing or is a call or a return. -/
theorem run_of_client (h : LazyLogCli.Step n b t t') (hinv : LazyLogCli.Inv n t) (hb : ∀ e, b ≠ .append .primary e)
    (L : List (ReqID × List UInt8)) (readers : ℕ → ReadPc) (H : List (Event Proc Op Res)) :
    ReflTransGen (Atomic.Step log) ⟨L, status t readers, H⟩ ⟨L, status t' readers, H ++ news t t'⟩ := by
  cases h with
  | invoke id mode data hc he => exact run_of_invoked rfl _ _ _ rfl rfl (clientStatus_of_none hc) rfl
  | append id srv buf hc hv hr =>
    have hne : DlServer.primary ≠ srv := by
      rintro rfl
      exact hb _ rfl
    refine run_of_status_eq rfl _ _ _ rfl ?_
    refine Eq.trans (callStatus_congr ?_) (clientStatus_of_some hc).symm
    rw [Function.update_of_ne hne]
  | @reply _ call id srv hc hr =>
    refine run_of_status_eq rfl _ _ _ rfl ?_
    refine Eq.trans (callStatus_congr ?_) (clientStatus_of_some hc).symm
    by_cases hsrv : DlServer.primary = srv
    · subst hsrv
      rw [Function.update_self, hr]
      exact ⟨nofun, nofun⟩
    · rw [Function.update_of_ne hsrv]
  | ret id hc hr =>
    have hdone := Call.complete_of_returns hr (show DlServer.Valid n .primary from trivial)
    refine run_of_returned rfl _ _ _ rfl (hinv.call hc).2.1 ?_ rfl
    rw [clientStatus_of_some hc]
    refine if_neg ?_
    rw [hdone]
    exact nofun

/-- **An append on the primary** is where the call takes effect. -/
theorem run_of_append (h : LazyLogCli.Step n (.append .primary e) t t') (hinv : LazyLogCli.Inv n t)
    (L : List (ReqID × List UInt8)) (readers : ℕ → ReadPc) (H : List (Event Proc Op Res)) :
    ReflTransGen (Atomic.Step log) ⟨L, status t readers, H⟩
      ⟨L ++ [content e], status t' readers, H ++ news t t'⟩ := by
  cases h with
  | @append _ call id srv buf hc hv hr =>
    obtain ⟨-, -, -, hsized, hflags⟩ := hinv.call hc
    rw [appendEntryHandler_serializer hsized hflags]
    refine run_of_effect rfl _ _ _ rfl ?_ ?_
    · rw [clientStatus_of_some hc]
      exact if_pos hr
    · show callStatus { call with requests := Function.update call.requests .primary .appended } = _
      refine if_neg (show Function.update call.requests .primary .appended .primary ≠ .sent from ?_)
      rw [Function.update_self]
      exact nofun

/-! ### The reads -/

/-- The response carries an entry. -/
structure Carries (response : Mem × ℕ) (e : LogEntry) : Prop where
  holds : Holds response.1 0 (encode e)
  size : response.2 = entrySize e
  sized : e.Sized
  flagged : e.flags ≠ 0

/-- The client takes the data out of the response, whatever was in its buffer. -/
theorem Carries.readData {response : Mem × ℕ} (h : Carries response e) (resp : Mem) :
    readData response resp = e.data := by
  obtain ⟨buf, len⟩ := response
  obtain ⟨hbuf, rfl, hs, hf⟩ := h
  unfold Linear.readData
  rw [ShardClient.readEntry_of_holds hbuf hs hf]

/-- **A read that is answered** gets the entry of its index in the log of the storage. -/
theorem exists_carries {c : Cluster} (h : StoreReach k r c) (idx : UInt64) {resp : Mem} {response : Mem × ℕ}
    (hr : readEntry k (c.shards (idx.toNat % k.shardNum)).primary idx resp = some response) :
    ∃ e, Carries response e ∧ c.log[idx.toNat]? = some e := by
  obtain ⟨f, u, hI⟩ := Store.inv_of_reach h
  obtain ⟨y, hy, hv⟩ := (hI.shards _ (Nat.mod_lt idx.toNat k.shard_pos)).primary
  obtain ⟨e, he, -, -, hser⟩ := hv.readEntry_eq_some.mp hr
  have hle : y ≤ c.log.length := by
    have := hI.le
    have := hI.le_length
    rcases hy with rfl | rfl <;> omega
  have hidx : idx.toNat < y := by
    have hpos := (getElem?_shardStripes hle he).1
    have := shardStripes_pos k idx.toNat
    omega
  rw [shardStripes_read hle hidx] at he
  have hmem := List.mem_of_getElem? he
  rw [serializer_eq] at hser
  cases hser
  exact ⟨e, ⟨holds_writeBytes resp 0 _, rfl, hI.isLog.sized e hmem, hI.isLog.flagged e hmem⟩, he⟩

/-! ### The steps -/

theorem reachable_service {s : Sys σ} (h : Reach (Start A n k r) (Step A n k r) s) :
    (service A n k r).Reachable s.service := by
  refine h.invariant (P := fun s => (service A n k r).Reachable s.service) (fun s hs => .start hs.service) ?_
  rintro s s' - ih hs
  cases hs with
  | service h => exact ih.next h
  | ask => exact ih
  | answer => exact ih
  | ret => exact ih

theorem reachable_withStorage {y : (σ × Clients) × Cluster} (h : (service A n k r).Reachable y) :
    (Tail.withStorage A k r).Reachable (y.1.1, y.2) := by
  refine h.invariant (P := fun y => (Tail.withStorage A k r).Reachable (y.1.1, y.2))
    (fun y hy => .start ⟨hy.1.1, hy.2⟩) ?_
  rintro a y y' - ih hs
  cases hs with
  | left hl hs =>
    cases hs with
    | left _ hs => exact ih.next (.left hl hs)
    | both _ hs _ => exact ih.next (.left hl hs)
    | right => exact ih
  | both hl hs he =>
    cases hs with
    | left _ hs => exact ih.next (.both hl hs he)
    | both _ hs _ => exact ih.next (.both hl hs he)
    | right => cases hl
  | right ho he => exact ih.next (.right ho he)

theorem getElem?_of_storage {y : (SharedLog × Clients) × Cluster} (h : (service Spec.lts n k r).Reachable y) {i : ℕ}
    (hi : y.2.log[i]? = some e) : y.1.1.log[i]? = some e := by
  obtain ⟨-, f, u, hok⟩ := Tail.tailOk_of_reachable (reachable_withStorage h)
  rw [hok.log, List.getElem?_take] at hi
  split_ifs at hi
  exact hi

/-- **A step of the service** is seen by the log only in what the clients do. -/
theorem run_of_service {y y' : (SharedLog × Clients) × Cluster} {a : (Label ⊕ Act) ⊕ Store.Event}
    (h : (service Spec.lts n k r).step a y y') (hr : (withClients Spec.lts n).Reachable y.1)
    (readers : ℕ → ReadPc) (H : List (Event Proc Op Res)) :
    ReflTransGen (Atomic.Step log) ⟨y.1.1.log.map content, status y.1.2 readers, H⟩
      ⟨y'.1.1.log.map content, status y'.1.2 readers, H ++ news y.1.2 y'.1.2⟩ := by
  have hinv := Appends.clients_of_reachable hr
  -- the shared log alone changes only by an append
  have hquiet : ∀ {a x x'}, Spec.Step a x x' → (∀ e, a ≠ .append e) → ∀ t,
      ReflTransGen (Atomic.Step log) ⟨x.log.map content, status t readers, H⟩
        ⟨x'.log.map content, status t readers, H ++ news t t⟩ := by
    intro a x x' hs ha t
    rw [hs.log_eq ha, news_of_hist rfl, List.append_nil]
  cases h with
  | left hl hs =>
    cases hs with
    | @left a _ _ _ hl' hs => exact hquiet hs (by rintro e rfl; cases hl') _
    | @both a b _ _ _ _ hl' hs he =>
      obtain ⟨e, rfl⟩ : ∃ e, a = .append e := by
        cases a <;> simp [Appends.link] at hl' ⊢
      cases hl'
      obtain ⟨x, hrec, hlog⟩ := Spec.Step.log_append hs
      have hcontent : content x = content e := Prod.ext hrec.reqId hrec.data
      simp only [hlog, List.map_append, List.map_singleton, hcontent]
      exact run_of_append he hinv _ readers H
    | right ho he => exact run_of_client he hinv ho _ readers H
  | both hl hs he =>
    cases hs with
    | @left a _ _ _ hl' hs => exact hquiet hs (by rintro e rfl; cases hl') _
    | @both a b _ _ _ _ hl' hs he =>
      obtain ⟨e, rfl⟩ : ∃ e, a = .append e := by
        cases a <;> simp [Appends.link] at hl' ⊢
      cases hl
    | right ho he => cases hl
  | right ho he =>
    rw [news_of_hist rfl, List.append_nil]

/-- The answers on their way carry entries. -/
def AllCarry (readers : ℕ → ReadPc) : Prop := ∀ i response, readers i = .answered response → ∃ e, Carries response e

theorem AllCarry.update {readers : ℕ → ReadPc} (h : AllCarry readers) (i : ℕ) {pc : ReadPc}
    (hpc : ∀ response, pc = .answered response → ∃ e, Carries response e) :
    AllCarry (Function.update readers i pc) := by
  intro j response hj
  rw [Function.update_apply] at hj
  split_ifs at hj
  · exact hpc response hj
  · exact h j response hj

theorem allCarry_of_reach {s : Sys σ} (h : Reach (Start A n k r) (Step A n k r) s) : AllCarry s.readers := by
  refine h.invariant (P := fun s => AllCarry s.readers) ?_ ?_
  · intro s hs i response hi
    rw [hs.readers] at hi
    cases hi
  · intro s s' hr ih hs
    cases hs with
    | service h => exact ih
    | ask i idx h => exact ih.update i nofun
    | answer i idx resp h hread =>
      refine ih.update i ?_
      rintro response ⟨⟩
      obtain ⟨e, he, -⟩ := exists_carries (reachable_service hr).snd idx hread
      exact ⟨e, he⟩
    | ret i resp h hfit => exact ih.update i nofun

/-- **One step** is a run of the atomic log. -/
theorem run_of_step (hr : Reach (Start Spec.lts n k r) (Step Spec.lts n k r) s)
    (hs : Step Spec.lts n k r s s') : ReflTransGen (Atomic.Step log) s.abs s'.abs := by
  have hserv := reachable_service hr
  cases hs with
  | service h => exact run_of_service h hserv.fst s.readers s.hist
  | ask i idx h =>
    unfold Sys.abs
    rw [status_update_reader]
    refine .single (.invoke (Proc.reader i) _ ?_)
    simp only [status, h]
    rfl
  | @answer i idx resp response h hread =>
    obtain ⟨e, hcar, he⟩ := exists_carries hserv.snd idx hread
    have hlog := getElem?_of_storage hserv he
    unfold Sys.abs
    rw [status_update_reader, ReadPc.status, hcar.readData]
    have happly : Applies (.read idx) (.value (content e).2) (s.service.1.1.log.map content)
        (s.service.1.1.log.map content) := by
      refine .read ?_
      rw [List.getElem?_map, hlog]
      rfl
    refine .single (.effect (Proc.reader i) ?_ happly)
    simp only [status, h]
    rfl
  | @ret i response resp h hfit =>
    obtain ⟨e, hcar⟩ := allCarry_of_reach hr i response h
    unfold Sys.abs
    rw [status_update_reader, hcar.readData]
    refine .single (.ret (Proc.reader i) ?_)
    simp only [status, h, ReadPc.status, hcar.readData]

theorem start_abs (h : Start Spec.lts n k r s) : Atomic.Start log s.abs := by
  obtain ⟨⟨⟨hx, ht⟩, -⟩, hr, hh⟩ := h
  have hlog : s.service.1.1 = _ := hx
  have hcli : s.service.1.2 = _ := ht
  unfold Sys.abs Atomic.Start
  rw [hlog, hcli, hr, hh]
  refine congrArg (Atomic.mk _ · []) (funext fun p => ?_)
  cases p <;> rfl

/-- **What a consensus log shows, the shared log shows**, to the same clients, storage and readers. -/
theorem exists_spec {R : σ → SharedLog → Prop} (hsim : Simulation A Spec.lts R) {s : Sys σ}
    (h : Reach (Start A n k r) (Step A n k r) s) :
    ∃ x, Reach (Start Spec.lts n k r) (Step Spec.lts n k r) ⟨((x, s.service.1.2), s.service.2), s.readers, s.hist⟩ ∧
      R s.service.1.1 x := by
  have hsim' := (hsim.sync (LazyLogCli.lts n) Appends.link fun b => ∀ e, b ≠ .append .primary e).sync
    (Store.lts k r) link (· = .tau)
  refine h.invariant (P := fun s => ∃ x, Reach (Start Spec.lts n k r) (Step Spec.lts n k r)
    ⟨((x, s.service.1.2), s.service.2), s.readers, s.hist⟩ ∧ R s.service.1.1 x) ?_ ?_
  · rintro ⟨⟨⟨y, t⟩, c⟩, readers, hist⟩ ⟨⟨⟨hy, ht⟩, hc⟩, hr, hh⟩
    obtain ⟨x, hx, hR⟩ := hsim.start y hy
    exact ⟨x, .start ⟨⟨⟨hx, ht⟩, hc⟩, hr, hh⟩, hR⟩
  · rintro ⟨⟨⟨y, t⟩, c⟩, readers, hist⟩ s' - ⟨x, hx, hR⟩ hs
    cases hs with
    | @service a y' h =>
      obtain ⟨⟨⟨x', t'⟩, c'⟩, hstep, ⟨hR', rfl⟩, rfl⟩ := hsim'.step (t := ((x, t), c)) ⟨⟨hR, rfl⟩, rfl⟩ h
      exact ⟨x', hx.next (.service hstep), hR'⟩
    | ask i idx h => exact ⟨x, hx.next (.ask i idx h), hR⟩
    | answer i idx resp h hread => exact ⟨x, hx.next (.answer i idx resp h hread), hR⟩
    | ret i resp h hfit => exact ⟨x, hx.next (.ret i resp h hfit), hR⟩

theorem linearizable_of_simulation {R : σ → SharedLog → Prop} (hsim : Simulation A Spec.lts R) {s : Sys σ}
    (h : Reach (Start A n k r) (Step A n k r) s) : Linearizable log s.hist := by
  obtain ⟨x, hx, -⟩ := exists_spec hsim h
  exact linearizable_of_map Sys.abs (fun _ => start_abs) (fun _ _ => run_of_step) hx

/-- **The service is a linearizable log**, in both modes of the consensus log: whatever the clients, the consensus
log, the storage and the readers do next to each other, the calls and returns that are seen are those of one list, to
which every append adds its entry at one instant during the call, and of which every read that returns has got the
entry at its index at one instant during the call. -/
theorem service_is_linearizable (c : Config) (maxFetchSize n : ℕ) (k : Striping) (r : ℕ → ℕ) :
    (∀ s, Reach (Start (FetchAndStore.lts c maxFetchSize) n k r) (Step (FetchAndStore.lts c maxFetchSize) n k r) s →
      Linearizable log s.hist) ∧
    ∀ s, Reach (Start (Pipeline.lts c maxFetchSize) n k r) (Step (Pipeline.lts c maxFetchSize) n k r) s →
      Linearizable log s.hist :=
  ⟨fun _ h => linearizable_of_simulation (FetchAndStore.simulation c maxFetchSize) h,
    fun _ h => linearizable_of_simulation (Pipeline.simulation c maxFetchSize) h⟩

/-! ### An append and a read -/

/-- The service, just started. -/
def fresh : Sys FetchAndStore.Loop :=
  ⟨((⟨⟨.zeroed, []⟩, fun _ => 0, .idle, []⟩, ⟨fun _ => ⟨0, none⟩, fun _ => [], []⟩),
    ⟨fun _ => ⟨Server.empty, fun _ => Server.empty, .idle, fun _ => .idle, none, false, false⟩, .idle, false, [],
      []⟩), fun _ => .idle, []⟩

theorem reach_fresh : Reach (Start (FetchAndStore.lts .smallPrimary 0) 0 twoShards fun _ => 0)
    (Step (FetchAndStore.lts .smallPrimary 0) 0 twoShards fun _ => 0) fresh :=
  .start ⟨⟨⟨⟨⟨FlatLog.zeroed_fresh, rfl⟩, rfl, rfl⟩, rfl⟩, ⟨fun _ => rfl, rfl, rfl, rfl, rfl⟩⟩, rfl, rfl⟩

theorem step_quiet {s : Sys σ} {a : (Label ⊕ Act) ⊕ Store.Event} {y : (σ × Clients) × Cluster}
    (h : (service A n k r).step a s.service y) (hh : y.1.2.hist = s.service.1.2.hist) :
    Step A n k r s { s with service := y } := by
  have hs : Step A n k r s _ := .service h
  rwa [news_of_hist hh, List.append_nil] at hs

/-- The first entry of a client, as the consensus log gives it to the storage. -/
theorem batch_single {data : List UInt8} (hs : (constructLogEntry 7 0 data).Sized) :
    Store.Batch [] (batch [constructLogEntry 7 0 data] 0 (1 - 0)) [constructLogEntry 7 0 data] := by
  refine ⟨Or.inr ⟨_, rfl, rfl⟩, by simp, ?_, ?_, ?_, show 0 + 1 ≤ 2 ^ 63 by decide⟩
  · rintro (_ | j) e he
    · cases he
      rfl
    · simp at he
  · intro e he
    cases List.mem_singleton.mp he
    exact hs
  · intro e he
    cases List.mem_singleton.mp he
    exact (by decide : (1 : UInt16) ≠ 0)

theorem exists_marked (data : List UInt8) (he : Admissible (constructLogEntry 7 0 data))
    (hcan : CanAppend .smallPrimary ⟨.zeroed, []⟩ { constructLogEntry 7 0 data with flags := 0 }) :
    ∃ y, Reach (Start (FetchAndStore.lts .smallPrimary 0) 0 twoShards fun _ => 0)
      (Step (FetchAndStore.lts .smallPrimary 0) 0 twoShards fun _ => 0)
      ⟨y, fun _ => .idle,
        [.invoked (.client 7) (.append ((7, 0), data)), .returned (.client 7) (.appended (7, 0))]⟩ ∧
      recs y.1.1.primary = [constructLogEntry 7 0 data] ∧ y.1.1.primary.log.orderedIdxWatermk = 1 := by
  have h1 := reach_fresh.next (.service (.left rfl (.right (by rintro e ⟨⟩) (.invoke 7 .all data rfl he))))
  have h2 := h1.next (.service (.left rfl (.both rfl (.append _ hcan)
    (step_append 7 .primary rfl trivial rfl he.sized (by decide : (1 : UInt16) ≠ 0)))))
  have h3 := h2.next (.service (.left rfl (.right (by rintro e ⟨⟩) (.reply 7 .primary rfl rfl))))
  have h4 := h3.next (.service (.left rfl (.right (by rintro e ⟨⟩) (.ret 7 rfl rfl))))
  obtain ⟨P, hP⟩ : ∃ P, P = append .smallPrimary ⟨.zeroed, []⟩ { constructLogEntry 7 0 data with flags := 0 } :=
    ⟨_, rfl⟩
  have hprim : Primary .smallPrimary P 0 := hP ▸ (Primary.init ⟨FlatLog.zeroed_fresh, rfl⟩).append hcan
  have hrecs : recs P = [constructLogEntry 7 0 data] := by
    rw [hP, recs_append]
    rfl
  obtain ⟨t, h4⟩ : ∃ t, Reach (Start (FetchAndStore.lts .smallPrimary 0) 0 twoShards fun _ => 0)
      (Step (FetchAndStore.lts .smallPrimary 0) 0 twoShards fun _ => 0)
      ⟨((⟨P, fun _ => 0, .idle, []⟩, t), fresh.service.2), fun _ => .idle,
        [.invoked (.client 7) (.append ((7, 0), data)), .returned (.client 7) (.appended (7, 0))]⟩ := by
    subst hP
    exact ⟨_, h4⟩
  obtain ⟨mr, hb, hread, hdec, hne⟩ := hprim.fetch_all (Nat.le_refl 0) (by rw [hrecs]; exact Nat.one_pos)
    (show max P.log.orderedWatermk 0 = _ by rw [hprim.mark, Nat.max_zero]) fun _ => 0
  have h5 := h4.next (step_quiet (.left rfl (.left rfl (.range rfl))) rfl)
  have h6 := h5.next (step_quiet (.left rfl (.left rfl (.read rfl hb hread))) rfl)
  rw [hrecs] at hdec
  have h7 := h6.next (step_quiet
    (.both rfl (.left rfl (.appendBatch rfl hdec hne)) (.appendBatch rfl (batch_single he.sized))) rfl)
  -- the storage adds it on the server of its shard
  have hbatch := batch_single he.sized
  have hend : NaiveBackend.endIdx (batch [constructLogEntry 7 0 data] 0 (1 - 0)) = 0 := Nat.succ.inj hbatch.endIdx_eq
  have hrounds : NaiveBackend.rounds twoShards (NaiveBackend.startIdx (batch [constructLogEntry 7 0 data] 0 (1 - 0)))
      (NaiveBackend.endIdx (batch [constructLogEntry 7 0 data] 0 (1 - 0))) = [(0, 0)] := by
    rw [hbatch.startIdx_eq, hend]
    rfl
  have h8 := h7.next
    (step_quiet (.right rfl (.send (fun _ _ => 0) (congrArg (Store.BackendPc.sending _) hrounds))) rfl)
  have h9 := h8.next (step_quiet (.right rfl
    (.shard (show 0 < twoShards.shardNum by decide) (.replicate (fun _ _ => 0) rfl))) rfl)
  have h10 := h9.next (step_quiet (.right rfl
    (.shard (show 0 < twoShards.shardNum by decide) (.add (p := ⟨3, some 3⟩) rfl rfl rfl))) rfl)
  have h11 := h10.next (step_quiet (.right rfl (.shard (show 0 < twoShards.shardNum by decide)
    (.finish rfl fun b hb => absurd hb (Nat.not_lt_zero b)))) rfl)
  have h12 := h11.next (step_quiet (.right rfl (.wait rfl fun sh hsh => by
    by_cases h : sh = 0
    · rw [h]
      exact Or.inr rfl
    · rw [show sh = 1 from Nat.le_antisymm (Nat.lt_succ_iff.mp hsh) (Nat.pos_of_ne_zero h)]
      exact Or.inl rfl)) rfl)
  -- the call returns, and the entry is marked
  have h13 := h12.next (step_quiet (.both rfl (.left rfl (.delete rfl)) (.appendBatchDone rfl)) rfl)
  have h14 := h13.next (step_quiet (.left rfl (.left rfl (.land rfl))) rfl)
  refine ⟨_, h14, (recs_landDelete _ _ P).trans hrecs, ?_⟩
  obtain ⟨x, -, g, st, hi, -⟩ := exists_spec (FetchAndStore.simulation .smallPrimary 0) h14
  have hg : g = st := hi.pcOk.1
  have hflat : [constructLogEntry 7 0 data] = (recs (landDelete .smallPrimary _ P)).take st :=
    hi.stored.flatMap_dropLast
  have hst := congrArg List.length hflat
  rw [List.length_take, min_eq_left (hi.stored.le_length (Nat.zero_le _))] at hst
  rw [hi.primary.idxMark, hg]
  exact hst.symm

/-- If the first entry is marked, it is on its server, which answers a read of it. -/
theorem exists_response {y : (FetchAndStore.Loop × Clients) × Cluster} {c : Config} {maxFetchSize : ℕ}
    (h : (service (FetchAndStore.lts c maxFetchSize) n k r).Reachable y)
    (hmark : 0 < y.1.1.primary.log.orderedIdxWatermk) (resp : Mem) :
    ∃ response e, readEntry k (y.2.shards ((0 : UInt64).toNat % k.shardNum)).primary 0 resp = some response ∧
      (recs y.1.1.primary)[0]? = some e ∧ response.2 = entrySize e := by
  obtain ⟨⟨x, s⟩, hx, ⟨g, st, hi, rfl⟩, heq⟩ :=
    ((FetchAndStore.simulation c maxFetchSize).sync _ _ _).reachable (reachable_withStorage h)
  obtain rfl : y.2 = s := heq
  obtain ⟨-, f, u, hok⟩ := Tail.tailOk_of_reachable hx
  have hgf : y.1.1.primary.log.orderedIdxWatermk ≤ f := hi.primary.idxMark.trans_le hok.ordered_le
  have hfu := hok.inv.le
  have hlen := hok.inv.le_length
  obtain ⟨z, hz, hv⟩ := (hok.inv.shards _ (Nat.mod_lt (0 : UInt64).toNat k.shard_pos)).primary
  have hget := shardStripes_read (k := k) (show z ≤ y.2.log.length by omega)
    (show (0 : UInt64).toNat < z from Nat.lt_of_lt_of_le hmark (by omega))
  obtain ⟨e, he⟩ : ∃ e, y.2.log[(0 : UInt64).toNat]? = some e :=
    ⟨_, List.getElem?_eq_getElem (show 0 < y.2.log.length by omega)⟩
  have hrecs : y.2.log[0]? = some e := he
  rw [hok.log, List.getElem?_take] at hrecs
  split_ifs at hrecs
  exact ⟨_, e, hv.readEntry_eq_some.mpr ⟨e, hget.trans he, Nat.zero_le _, Nat.zero_le _, serializer_eq e resp 0⟩,
    hrecs, rfl⟩

/-- A client appends an entry, and a thread reads it. -/
theorem service_is_linearizable_first : ∃ (s : Sys FetchAndStore.Loop) (data : List UInt8),
    s.hist = [.invoked (.client 7) (.append ((7, 0), [])), .returned (.client 7) (.appended (7, 0)),
      .invoked (.reader 0) (.read 0), .returned (.reader 0) (.value data)] ∧ Linearizable log s.hist := by
  obtain ⟨y, h, hrecs, hmark⟩ :=
    exists_marked [] ⟨rfl, by decide⟩ ⟨⟨rfl, by decide⟩, rfl, by decide, by decide⟩
  have hserv := reachable_service h
  obtain ⟨response, e, hresp, he, hsize⟩ := exists_response hserv (by rw [hmark]; exact Nat.one_pos) fun _ => 0
  have hfit : response.2 ≤ pageSize := by
    rw [hrecs] at he
    cases he
    rw [hsize]
    decide
  have h1 := h.next (.ask 0 0 rfl)
  have h2 := h1.next (.answer 0 0 _ rfl hresp)
  have h3 := h2.next (.ret 0 (fun _ => 0) rfl hfit)
  exact ⟨_, _, rfl, (service_is_linearizable .smallPrimary 0 0 twoShards fun _ => 0).1 _ h3⟩

end LazyLog.Service.Linear
