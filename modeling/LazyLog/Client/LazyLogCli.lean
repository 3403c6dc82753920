import LazyLog.Lib.Streams
import LazyLog.Lib.Transition
import LazyLog.DurLog.Flat

/-! # The clients (`client/lazylog_cli`)

Any number of clients, told apart by their `client_id_`, append through `AppendEntryQuorum` or
`AppendEntryAll`. A call numbers its entry, sends it to every server of the sequencing layer and returns when
enough of the answers are there; requests and answers take any time. `maj_threshold_` being the number of the
servers, either function returns only when all of them have answered, so a client has one entry on its way at
most.

The entries of a client therefore come to every server in the order of their numbers (`Inv.order`), and an
entry whose call has returned is on every server before an entry whose call is made later
(`Inv.before`). -/

namespace LazyLog.Client.LazyLogCli

open LazyLog.Lib.Bytes LazyLog.Lib.Streams LazyLog.Lib.Transition LazyLog.Rpc.Entry
open LazyLog.DurLog.Flat (Admissible msgSize)

/-! ### The functions -/

/-- A server of the sequencing layer. -/
inductive DlServer
  | primary
  | backup (b : ℕ)
  deriving DecidableEq

/-- The server is there, with `n` backups. -/
def DlServer.Valid (n : ℕ) : DlServer → Prop
  | .primary => True
  | .backup b => b < n

/-- The keys of `dur_clis_`, with `n` backups. -/
def dlServers (n : ℕ) : List DlServer := .primary :: (List.range n).map .backup

theorem mem_dlServers {n : ℕ} {srv : DlServer} : srv ∈ dlServers n ↔ srv.Valid n := by
  unfold dlServers
  cases srv with
  | primary => simp [DlServer.Valid]
  | backup b => simp [DlServer.Valid]

theorem nodup_dlServers (n : ℕ) : (dlServers n).Nodup := by
  unfold dlServers
  refine List.nodup_cons.mpr ⟨by simp, List.nodup_range.map fun a b h => ?_⟩
  cases h
  rfl

/-- `constructLogEntry`; `seq` is what `seq_.GetNextSeq()` counts. -/
def constructLogEntry (clientId : UInt64) (seq : ℕ) (data : List UInt8) : LogEntry :=
  { (default : LogEntry) with
    clientId := clientId
    clientSeq := UInt64.ofNat seq
    logIdx := 0
    size := UInt32.ofNat data.length
    flags := 1
    data := data }

theorem admissible_empty (id : UInt64) (seq : ℕ) : Admissible (constructLogEntry id seq []) :=
  ⟨rfl, show metaDataSize + align4 3 ≤ msgSize by decide⟩

/-- `quorumCompleted`, on the tokens of the primary and of the other servers. -/
def quorumCompleted (priToken : Bool) (tokens : List Bool) (majThreshold : ℕ) : Bool :=
  if !priToken then false else majThreshold ≤ tokens.count true + 1

/-- `allCompleted`. -/
def allCompleted (tokens : List Bool) : Bool := tokens.all id

/-- What `AppendEntryHandler` of a server makes of a request. -/
def appendEntryHandler (req : Mem) : LogEntry := { (deserializer default req 0).1 with flags := 0 }

/-! ### The system -/

/-- Where the request to a server is: on its way, appended and answered, its token complete. -/
inductive Request
  | sent
  | appended
  | complete
  deriving DecidableEq

/-- `AppendEntryQuorum` or `AppendEntryAll`. -/
inductive Mode
  | quorum
  | all

/-- A call that has not returned. -/
structure Call where
  mode : Mode
  entry : LogEntry
  requests : DlServer → Request

/-- `seq_`, and the call of the client. -/
structure LazyLogClient where
  seq : ℕ
  call : Option Call

/-- A call is made or returns. -/
inductive Mark
  | invoked (e : LogEntry)
  | returned (e : LogEntry)

/-- The clients by their id. The other fields are a history: the entries appended by each server, in the order
of their appends, and the calls in the order of time. -/
structure Clients where
  clients : UInt64 → LazyLogClient
  order : DlServer → List LogEntry
  hist : List Mark

/-- The condition of the loop in the call: `maj_threshold_` is the number of the servers. -/
def Call.returns (n : ℕ) (call : Call) : Bool :=
  let priToken : Bool := call.requests .primary = .complete
  let tokens : List Bool := (List.range n).map fun b => call.requests (.backup b) = .complete
  match call.mode with
  | .quorum => quorumCompleted priToken tokens (n + 1)
  | .all => allCompleted (priToken :: tokens)

/-- What a server sees of a step: it appends an entry, or has answered the request. -/
inductive Act
  | tau
  | append (srv : DlServer) (e : LogEntry)
  | reply (srv : DlServer) (rid : ReqID)

/-- One step, with `n` backups. An entry fits a request. When a call returns nothing of it is left on its way
(`Call.complete_of_returns`). -/
inductive Step (n : ℕ) : Act → Clients → Clients → Prop
  | invoke {s : Clients} (id : UInt64) (mode : Mode) (data : List UInt8)
    (hc : (s.clients id).call = none)
    (he : Admissible (constructLogEntry id (s.clients id).seq data)) :
    Step n .tau s
      { s with
        clients := Function.update s.clients id ⟨(s.clients id).seq + 1,
          some ⟨mode, constructLogEntry id (s.clients id).seq data, fun _ => .sent⟩⟩
        hist := s.hist ++ [.invoked (constructLogEntry id (s.clients id).seq data)] }
  | append {s : Clients} {call : Call} (id : UInt64) (srv : DlServer) (buf : Mem)
    (hc : (s.clients id).call = some call) (hv : srv.Valid n) (hr : call.requests srv = .sent) :
    Step n (.append srv (appendEntryHandler (serializer call.entry buf 0).1)) s
      { s with
        clients := Function.update s.clients id { s.clients id with
          call := some { call with requests := Function.update call.requests srv .appended } }
        order := Function.update s.order srv
          (s.order srv ++ [appendEntryHandler (serializer call.entry buf 0).1]) }
  | reply {s : Clients} {call : Call} (id : UInt64) (srv : DlServer)
    (hc : (s.clients id).call = some call) (hr : call.requests srv = .appended) :
    Step n (.reply srv call.entry.reqId) s
      { s with
        clients := Function.update s.clients id { s.clients id with
          call := some { call with requests := Function.update call.requests srv .complete } } }
  | ret {s : Clients} {call : Call} (id : UInt64) (hc : (s.clients id).call = some call)
    (hr : call.returns n = true) :
    Step n .tau s
      { s with
        clients := Function.update s.clients id { s.clients id with call := none }
        hist := s.hist ++ [.returned call.entry] }

/-- Everything has just been started. -/
def Start (s : Clients) : Prop := s = ⟨fun _ => ⟨0, none⟩, fun _ => [], []⟩

/-- The clients and the messages to `n` backups and the primary. -/
def lts (n : ℕ) : Lts Act Clients := ⟨Start, Step n⟩

variable {n : ℕ} {a : Act} {s s' : Clients} {id : UInt64} {call : Call} {srv : DlServer} {e : LogEntry}

theorem Step.order_eq (hs : Step n a s s') (ha : ∀ e, a ≠ .append srv e) : s'.order srv = s.order srv := by
  cases hs with
  | append id srv' buf hc hv hr =>
    have hne : srv ≠ srv' := by
      rintro rfl
      exact ha _ rfl
    exact Function.update_of_ne hne _ _
  | invoke | reply | ret => rfl

theorem Step.order_append (hs : Step n (.append srv e) s s') : s'.order srv = s.order srv ++ [e] := by
  cases hs with
  | append id srv buf hc hv hr => exact Function.update_self _ _ _

/-! ### Calls -/

/-- The request arrives as it was sent, its flags cleared. -/
theorem appendEntryHandler_serializer (he : e.Sized) (hf : e.flags ≠ 0) (buf : Mem) :
    appendEntryHandler (serializer e buf 0).1 = { e with flags := 0 } := by
  unfold appendEntryHandler
  rw [serializer_eq, deserializer_of_holds default (holds_writeBytes buf 0 _) he hf]

theorem step_append (id : UInt64) (srv : DlServer) (hc : (s.clients id).call = some call)
    (hv : srv.Valid n) (hr : call.requests srv = .sent) (hs : call.entry.Sized) (hf : call.entry.flags ≠ 0) :
    Step n (.append srv { call.entry with flags := 0 }) s
      { s with
        clients := Function.update s.clients id { s.clients id with
          call := some { call with requests := Function.update call.requests srv .appended } }
        order := Function.update s.order srv (s.order srv ++ [{ call.entry with flags := 0 }]) } := by
  have hstep := Step.append id srv (fun _ => 0) hc hv hr
  rwa [appendEntryHandler_serializer hs hf] at hstep

/-- **A call returns only when every server has answered.** -/
theorem Call.complete_of_returns (h : call.returns n = true) (hv : srv.Valid n) :
    call.requests srv = .complete := by
  have hall : call.requests .primary = .complete ∧
      ∀ b < n, call.requests (.backup b) = .complete := by
    unfold Call.returns at h
    cases hm : call.mode with
    | quorum =>
      rw [hm] at h
      simp only [quorumCompleted] at h
      split_ifs at h with hp
      refine ⟨by simpa using hp, fun b hb => ?_⟩
      -- as many tokens are complete as there are backups
      have hcount := of_decide_eq_true h
      have hlen := List.count_le_length (a := true)
        (l := (List.range n).map fun b => decide (call.requests (.backup b) = .complete))
      rw [List.length_map, List.length_range] at hlen
      have heq := List.count_eq_length.mp (show List.count true
        ((List.range n).map fun b => decide (call.requests (.backup b) = .complete)) = _ by
          rw [List.length_map, List.length_range]; omega)
      have := heq _ (List.mem_map_of_mem (List.mem_range.mpr hb))
      exact of_decide_eq_true this.symm
    | all =>
      rw [hm] at h
      simp only [allCompleted, List.all_cons, List.all_map, Bool.and_eq_true, List.all_eq_true] at h
      refine ⟨of_decide_eq_true h.1, fun b hb => ?_⟩
      exact of_decide_eq_true (h.2 b (List.mem_range.mpr hb))
  cases srv with
  | primary => exact hall.1
  | backup b => exact hall.2 b hv

theorem Call.returns_of_complete (h : ∀ srv : DlServer, srv.Valid n → call.requests srv = .complete) :
    call.returns n = true := by
  have hp : decide (call.requests .primary = .complete) = true := decide_eq_true (h .primary trivial)
  have hb : ∀ q ∈ (List.range n).map fun b => decide (call.requests (.backup b) = .complete), q = true := by
    intro q hq
    obtain ⟨b, hb, rfl⟩ := List.mem_map.mp hq
    exact decide_eq_true (h (.backup b) (List.mem_range.mp hb))
  unfold Call.returns
  cases call.mode with
  | quorum =>
    have hcount := List.count_eq_length.mpr fun q hq => (hb q hq).symm
    rw [List.length_map, List.length_range] at hcount
    simp [quorumCompleted, hp, hcount]
  | all =>
    simp only [allCompleted, hp, List.all_cons, id_eq, Bool.true_and, List.all_eq_true]
    exact hb

/-! ### The invariant -/

/-- The calls of a client that have returned. -/
def LazyLogClient.finished (c : LazyLogClient) : ℕ :=
  match c.call with
  | none => c.seq
  | some _ => c.seq - 1

/-- The entries of a client that a server has appended. -/
def LazyLogClient.appended (c : LazyLogClient) (srv : DlServer) : ℕ :=
  match c.call with
  | none => c.seq
  | some call => if call.requests srv = .sent then c.seq - 1 else c.seq

/-- Wherever both are in the list, the first request comes before the second. -/
def Before (l : List LogEntry) (r r' : ReqID) : Prop :=
  ∀ (i j : ℕ) (x y : LogEntry), l[i]? = some x → l[j]? = some y → x.reqId = r → y.reqId = r' → i < j

/-- **The invariant of the clients.** -/
structure Inv (n : ℕ) (s : Clients) : Prop where
  call : ∀ {id : UInt64} {call : Call}, (s.clients id).call = some call →
    0 < (s.clients id).seq ∧ call.entry.clientId = id ∧
      call.entry.clientSeq = UInt64.ofNat ((s.clients id).seq - 1) ∧ call.entry.Sized ∧
      call.entry.flags ≠ 0
  order : ∀ {srv : DlServer}, srv.Valid n →
    Counted LogEntry.clientId (fun e => e.clientSeq.toNat) (s.order srv) fun id =>
      (s.clients id).appended srv
  arrived : ∀ {id : UInt64} {call : Call} {srv : DlServer}, (s.clients id).call = some call →
    srv.Valid n → call.requests srv ≠ .sent → { call.entry with flags := 0 } ∈ s.order srv
  returned : ∀ {e : LogEntry}, Mark.returned e ∈ s.hist →
    e.clientSeq.toNat < (s.clients e.clientId).finished ∧
      ∀ srv : DlServer, srv.Valid n → { e with flags := 0 } ∈ s.order srv
  before : ∀ {e e' : LogEntry}, [Mark.returned e, Mark.invoked e'].Sublist s.hist →
    ∀ srv : DlServer, srv.Valid n → Before (s.order srv) e.reqId e'.reqId

theorem LazyLogClient.finished_le (c : LazyLogClient) (srv : DlServer) : c.finished ≤ c.appended srv := by
  unfold LazyLogClient.finished LazyLogClient.appended
  cases c.call with
  | none => exact Nat.le_refl _
  | some call =>
    simp only
    split_ifs <;> omega

theorem Inv.finished_le_length (h : Inv n s) (id : UInt64) :
    (s.clients id).finished ≤ (s.order .primary).length :=
  ((s.clients id).finished_le _).trans ((h.order (show DlServer.Valid n .primary from trivial)).le_length id)

theorem toNat_ofNat {m : ℕ} (h : m ≤ 2 ^ 63) : (UInt64.ofNat m).toNat = m :=
  Nat.mod_eq_of_lt (by omega)

theorem Before.concat {l : List LogEntry} {r r' : ReqID} (h : Before l r r') (he : e.reqId ≠ r) :
    Before (l ++ [e]) r r' := by
  intro i j x y hx hy hxr hyr
  have hi : i < l.length := by
    by_contra hge
    rw [List.getElem?_append_right (not_lt.mp hge), List.getElem?_singleton] at hx
    split_ifs at hx
    cases hx
    exact he hxr
  rcases Nat.lt_or_ge j l.length with hj | hj
  · rw [List.getElem?_append_left hi] at hx
    rw [List.getElem?_append_left hj] at hy
    exact h i j x y hx hy hxr hyr
  · omega

theorem pair_sublist_concat {α : Type} {l : List α} {a b c : α} (h : [a, b].Sublist (l ++ [c])) :
    [a, b].Sublist l ∨ a ∈ l ∧ b = c := by
  obtain ⟨l₁, l₂, heq, h1, h2⟩ := List.sublist_append_iff.mp h
  rcases List.sublist_singleton.mp h2 with rfl | rfl
  · rw [List.append_nil] at heq
    rw [heq]
    exact Or.inl h1
  · obtain ⟨rfl, hbc⟩ := List.append_inj' (show [a] ++ [b] = l₁ ++ [c] from heq) rfl
    exact Or.inr ⟨List.singleton_sublist.mp h1, List.head_eq_of_cons_eq hbc⟩

/-! ### Steps -/

section Update

variable {c : LazyLogClient}

theorem appended_update (h : c.appended srv = (s.clients id).appended srv) :
    (fun i => (Function.update s.clients id c i).appended srv) = fun i => (s.clients i).appended srv := by
  funext i
  rcases eq_or_ne i id with rfl | hne
  · rw [Function.update_self]
    exact h
  · rw [Function.update_of_ne hne]

theorem finished_update (h : (s.clients id).finished ≤ c.finished) (i : UInt64) :
    (s.clients i).finished ≤ (Function.update s.clients id c i).finished := by
  rcases eq_or_ne i id with rfl | hne
  · rw [Function.update_self]
    exact h
  · rw [Function.update_of_ne hne]

end Update

theorem Inv.invoke (h : Inv n s) (hlen : (s.order .primary).length ≤ 2 ^ 63)
    (hc : (s.clients id).call = none) (mode : Mode) (data : List UInt8)
    (he : Admissible (constructLogEntry id (s.clients id).seq data)) :
    Inv n { s with
      clients := Function.update s.clients id ⟨(s.clients id).seq + 1,
        some ⟨mode, constructLogEntry id (s.clients id).seq data, fun _ => .sent⟩⟩
      hist := s.hist ++ [.invoked (constructLogEntry id (s.clients id).seq data)] } := by
  have hseq : (s.clients id).finished = (s.clients id).seq := by
    unfold LazyLogClient.finished
    rw [hc]
  have happ : ∀ srv, (s.clients id).appended srv = (s.clients id).seq := by
    intro srv
    unfold LazyLogClient.appended
    rw [hc]
  refine ⟨?_, ?_, ?_, ?_, ?_⟩
  · intro i call hcall
    simp only at hcall ⊢
    rcases eq_or_ne i id with rfl | hne
    · rw [Function.update_self] at hcall ⊢
      cases hcall
      exact ⟨Nat.succ_pos _, rfl, rfl, he.sized, show (1 : UInt16) ≠ 0 by decide⟩
    · rw [Function.update_of_ne hne] at hcall ⊢
      exact h.call hcall
  · intro srv hv
    simp only
    rw [appended_update]
    · exact h.order hv
    · rw [happ]
      simp [LazyLogClient.appended]
  · intro i call srv hcall hv hr
    simp only at hcall ⊢
    rcases eq_or_ne i id with rfl | hne
    · rw [Function.update_self] at hcall
      cases hcall
      exact absurd rfl hr
    · rw [Function.update_of_ne hne] at hcall
      exact h.arrived hcall hv hr
  · intro e hmem
    rcases List.mem_append.mp hmem with hmem | hmem
    · obtain ⟨h1, h2⟩ := h.returned hmem
      exact ⟨lt_of_lt_of_le h1 (finished_update (by rw [hseq]; rfl) _), h2⟩
    · cases List.mem_singleton.mp hmem
  · intro e e' hsub srv hv
    rcases pair_sublist_concat hsub with hsub | ⟨-, hnew⟩
    · exact h.before hsub srv hv
    · -- the new entry is nowhere yet
      cases hnew
      intro i j x y _ hy _ hyr
      have hlt := (h.order hv).num_lt (List.mem_of_getElem? hy)
      have hid : y.clientId = id := congrArg Prod.fst hyr
      have hnum : y.clientSeq = UInt64.ofNat (s.clients id).seq := congrArg Prod.snd hyr
      have hle := h.finished_le_length id
      simp only [hid, hnum, happ] at hlt
      rw [toNat_ofNat (by omega)] at hlt
      omega

theorem Inv.call_seq (h : Inv n s) (hlen : (s.order .primary).length ≤ 2 ^ 63)
    (hc : (s.clients id).call = some call) : (s.clients id).finished = (s.clients id).seq - 1 ∧
      call.entry.clientSeq.toNat = (s.clients id).seq - 1 := by
  have hfin : (s.clients id).finished = (s.clients id).seq - 1 := by
    unfold LazyLogClient.finished
    rw [hc]
  have hle := h.finished_le_length id
  refine ⟨hfin, ?_⟩
  rw [(h.call hc).2.2.1, toNat_ofNat (by omega)]

theorem Inv.order_append (h : Inv n s) (hlen : (s.order .primary).length ≤ 2 ^ 63)
    (hc : (s.clients id).call = some call) (hr : call.requests srv = .sent) (hv : srv.Valid n) :
    Counted LogEntry.clientId (fun e => e.clientSeq.toNat) (s.order srv ++ [{ call.entry with flags := 0 }])
      fun i => (Function.update s.clients id { s.clients id with
        call := some { call with requests := Function.update call.requests srv .appended } } i).appended srv := by
  obtain ⟨hpos, hid, -⟩ := h.call hc
  have happ : (s.clients id).appended srv = (s.clients id).seq - 1 := by
    unfold LazyLogClient.appended
    rw [hc]
    exact if_pos hr
  have hnext := (h.order hv).concat (x := { call.entry with flags := 0 })
    (by simp only [hid, happ, (h.call_seq hlen hc).2])
  convert hnext using 1
  funext i
  simp only [hid]
  rcases eq_or_ne i id with rfl | hne
  · rw [Function.update_self, Function.update_self, happ]
    simp only [LazyLogClient.appended, Function.update_self, reduceCtorEq, if_false]
    omega
  · rw [Function.update_of_ne hne, Function.update_of_ne hne]

theorem Inv.before_append (h : Inv n s) (hlen : (s.order .primary).length ≤ 2 ^ 63)
    (hc : (s.clients id).call = some call) {e' : LogEntry}
    (hsub : [Mark.returned e, Mark.invoked e'].Sublist s.hist) (hv : srv.Valid n) :
    Before (s.order srv ++ [{ call.entry with flags := 0 }]) e.reqId e'.reqId := by
  obtain ⟨hpos, hid, -⟩ := h.call hc
  obtain ⟨hfin, hseq⟩ := h.call_seq hlen hc
  refine (h.before hsub srv hv).concat ?_
  intro heq
  have hid' : call.entry.clientId = e.clientId := congrArg Prod.fst heq
  have hnum' : call.entry.clientSeq = e.clientSeq := congrArg Prod.snd heq
  have hlt := (h.returned (hsub.subset (List.mem_cons_self ..))).1
  rw [← hid', ← hnum', hid, hseq, hfin] at hlt
  omega

theorem Inv.append (h : Inv n s) (hlen : (s.order .primary).length ≤ 2 ^ 63)
    (hc : (s.clients id).call = some call) (hr : call.requests srv = .sent) (buf : Mem) :
    Inv n { s with
      clients := Function.update s.clients id { s.clients id with
        call := some { call with requests := Function.update call.requests srv .appended } }
      order := Function.update s.order srv
        (s.order srv ++ [appendEntryHandler (serializer call.entry buf 0).1]) } := by
  have hcall := h.call hc
  rw [appendEntryHandler_serializer hcall.2.2.2.1 hcall.2.2.2.2]
  have hgrow : ∀ {srv' x}, x ∈ s.order srv' → x ∈ Function.update s.order srv
      (s.order srv ++ [{ call.entry with flags := 0 }]) srv' := by
    intro srv' x hx
    rcases eq_or_ne srv' srv with rfl | hne
    · rw [Function.update_self]
      exact List.mem_append_left _ hx
    · rw [Function.update_of_ne hne]
      exact hx
  refine ⟨?_, ?_, ?_, ?_, ?_⟩
  · intro i call' hc'
    simp only at hc' ⊢
    rcases eq_or_ne i id with rfl | hne
    · rw [Function.update_self] at hc' ⊢
      cases hc'
      exact hcall
    · rw [Function.update_of_ne hne] at hc' ⊢
      exact h.call hc'
  · intro srv' hv
    simp only
    rcases eq_or_ne srv' srv with rfl | hne
    · rw [Function.update_self]
      exact h.order_append hlen hc hr hv
    · rw [Function.update_of_ne hne, appended_update]
      · exact h.order hv
      · simp only [LazyLogClient.appended, hc, Function.update_of_ne hne]
  · intro i call' srv' hc' hv hr'
    simp only at hc' ⊢
    rcases eq_or_ne i id with rfl | hne
    · rw [Function.update_self] at hc'
      cases hc'
      rcases eq_or_ne srv' srv with rfl | hne
      · rw [Function.update_self]
        exact List.mem_append_right _ (List.mem_singleton.mpr rfl)
      · simp only [Function.update_of_ne hne] at hr'
        have hold := h.arrived hc hv hr'
        exact hgrow hold
    · rw [Function.update_of_ne hne] at hc'
      exact hgrow (h.arrived hc' hv hr')
  · intro e hmem
    obtain ⟨h1, h2⟩ := h.returned hmem
    refine ⟨lt_of_lt_of_le h1 (finished_update ?_ _), fun srv' hv => hgrow (h2 srv' hv)⟩
    rw [(h.call_seq hlen hc).1]
    rfl
  · intro e e' hsub srv' hv
    simp only
    rcases eq_or_ne srv' srv with rfl | hne
    · rw [Function.update_self]
      exact h.before_append hlen hc hsub hv
    · rw [Function.update_of_ne hne]
      exact h.before hsub srv' hv

theorem Inv.reply (h : Inv n s) (hc : (s.clients id).call = some call)
    (hr : call.requests srv = .appended) :
    Inv n { s with
      clients := Function.update s.clients id { s.clients id with
        call := some { call with requests := Function.update call.requests srv .complete } } } := by
  have hsent : ∀ srv', Function.update call.requests srv .complete srv' = .sent ↔
      call.requests srv' = .sent := by
    intro srv'
    rcases eq_or_ne srv' srv with rfl | hne
    · rw [Function.update_self, hr]
      exact ⟨by rintro ⟨⟩, by rintro ⟨⟩⟩
    · rw [Function.update_of_ne hne]
  refine ⟨?_, ?_, ?_, ?_, h.before⟩
  · intro i call' hcall
    simp only at hcall ⊢
    rcases eq_or_ne i id with rfl | hne
    · rw [Function.update_self] at hcall ⊢
      cases hcall
      have hold := h.call hc
      exact hold
    · rw [Function.update_of_ne hne] at hcall ⊢
      exact h.call hcall
  · intro srv' hv
    simp only
    rw [appended_update]
    · exact h.order hv
    · simp only [LazyLogClient.appended, hc, hsent]
  · intro i call' srv' hcall hv hr'
    simp only at hcall ⊢
    rcases eq_or_ne i id with rfl | hne
    · rw [Function.update_self] at hcall
      cases hcall
      have hold := h.arrived hc hv fun hs => hr' ((hsent srv').mpr hs)
      exact hold
    · rw [Function.update_of_ne hne] at hcall
      exact h.arrived hcall hv hr'
  · intro e hmem
    obtain ⟨h1, h2⟩ := h.returned hmem
    refine ⟨lt_of_lt_of_le h1 (finished_update ?_ _), h2⟩
    simp only [LazyLogClient.finished, hc, Nat.le_refl]

theorem Inv.ret (h : Inv n s) (hlen : (s.order .primary).length ≤ 2 ^ 63)
    (hc : (s.clients id).call = some call) (hr : call.returns n = true) :
    Inv n { s with
      clients := Function.update s.clients id { s.clients id with call := none }
      hist := s.hist ++ [.returned call.entry] } := by
  obtain ⟨hpos, hid, -⟩ := h.call hc
  obtain ⟨hfin, hseq⟩ := h.call_seq hlen hc
  have hsent : ∀ {srv : DlServer}, srv.Valid n → call.requests srv ≠ .sent := by
    intro srv hv
    rw [Call.complete_of_returns hr hv]
    rintro ⟨⟩
  refine ⟨?_, ?_, ?_, ?_, ?_⟩
  · intro i call' hcall
    simp only at hcall ⊢
    rcases eq_or_ne i id with rfl | hne
    · rw [Function.update_self] at hcall
      cases hcall
    · rw [Function.update_of_ne hne] at hcall ⊢
      exact h.call hcall
  · intro srv hv
    simp only
    rw [appended_update]
    · exact h.order hv
    · simp only [LazyLogClient.appended, hc, if_neg (hsent hv)]
  · intro i call' srv hcall hv hr'
    simp only at hcall ⊢
    rcases eq_or_ne i id with rfl | hne
    · rw [Function.update_self] at hcall
      cases hcall
    · rw [Function.update_of_ne hne] at hcall
      exact h.arrived hcall hv hr'
  · intro e hmem
    rcases List.mem_append.mp hmem with hmem | hmem
    · obtain ⟨h1, h2⟩ := h.returned hmem
      refine ⟨lt_of_lt_of_le h1 (finished_update ?_ _), h2⟩
      rw [hfin]
      exact Nat.sub_le _ _
    · cases List.mem_singleton.mp hmem
      refine ⟨?_, fun srv hv => h.arrived hc hv (hsent hv)⟩
      simp only [hid, Function.update_self, hseq, LazyLogClient.finished]
      omega
  · intro e e' hsub srv hv
    rcases pair_sublist_concat hsub with hsub | ⟨-, hnew⟩
    · exact h.before hsub srv hv
    · cases hnew

/-- **One step** keeps the invariant. -/
theorem Inv.step (h : Inv n s) (hlen : (s.order .primary).length ≤ 2 ^ 63) (hs : Step n a s s') :
    Inv n s' := by
  cases hs with
  | invoke id mode data hc he => exact h.invoke hlen hc mode data he
  | append id srv buf hc hv hr => exact h.append hlen hc hr buf
  | reply id srv hc hr => exact h.reply hc hr
  | ret id hc hr => exact h.ret hlen hc hr

theorem Step.length_le (hs : Step n a s s') : (s.order srv).length ≤ (s'.order srv).length := by
  by_cases ha : ∃ e, a = .append srv e
  · obtain ⟨e, rfl⟩ := ha
    rw [hs.order_append, List.length_append]
    exact Nat.le_add_right _ _
  · rw [hs.order_eq fun e he => ha ⟨e, he⟩]

/-- The numbers do not wrap around as long as the primary has no more than `2 ^ 63` entries. -/
theorem inv_of_reachable (h : (lts n).Reachable s) (hlen : (s.order .primary).length ≤ 2 ^ 63) :
    Inv n s := by
  refine h.invariant (P := fun s => (s.order .primary).length ≤ 2 ^ 63 → Inv n s) ?_ ?_ hlen
  · rintro s hs -
    obtain rfl : s = _ := hs
    refine ⟨?_, fun _ => counted_nil, ?_, ?_, ?_⟩
    · rintro id call ⟨⟩
    · rintro id call srv ⟨⟩
    · rintro e ⟨⟩
    · rintro e e' ⟨⟩
  · intro a s s' _ ih hs hlen'
    have hle : (s.order .primary).length ≤ (s'.order .primary).length := Step.length_le hs
    exact (ih (hle.trans hlen')).step (hle.trans hlen') hs

/-! ### The steps of a call -/

/-- A client in the call for its entry number `k`. -/
def calling (id : UInt64) (k : ℕ) (data : List UInt8) (requests : DlServer → Request) : LazyLogClient :=
  ⟨k + 1, some ⟨.all, constructLogEntry id k data, requests⟩⟩

section Calling
variable {k : ℕ} {data : List UInt8} {requests : DlServer → Request}

theorem call_of_calling (h : s.clients id = calling id k data requests) :
    (s.clients id).call = some ⟨.all, constructLogEntry id k data, requests⟩ := by
  rw [h]
  rfl

theorem invoke_step (n : ℕ) (h : s.clients id = ⟨k, none⟩) (he : Admissible (constructLogEntry id k data)) : ∃ s',
    Step n .tau s s' ∧ s'.clients = Function.update s.clients id (calling id k data fun _ => .sent) ∧
      s'.hist = s.hist ++ [.invoked (constructLogEntry id k data)] := by
  have hk : (s.clients id).seq = k := by rw [h]
  unfold calling
  rw [← hk] at he ⊢
  exact ⟨_, .invoke id .all data (by rw [h]) he, rfl, rfl⟩

theorem append_step (srv : DlServer) (h : s.clients id = calling id k data requests) (hv : srv.Valid n)
    (hr : requests srv = .sent) (hs : (constructLogEntry id k data).Sized) : ∃ s',
      Step n (.append srv { constructLogEntry id k data with flags := 0 }) s s' ∧
        s'.clients = Function.update s.clients id (calling id k data (Function.update requests srv .appended)) ∧
        s'.hist = s.hist := by
  have hstep := step_append (n := n) id srv (call_of_calling h) hv hr hs (show (1 : UInt16) ≠ 0 by decide)
  refine ⟨_, hstep, ?_, rfl⟩
  simp only [h]
  rfl

theorem reply_step (n : ℕ) (srv : DlServer) (h : s.clients id = calling id k data requests)
    (hr : requests srv = .appended) : ∃ s',
      Step n (.reply srv (constructLogEntry id k data).reqId) s s' ∧
        s'.clients = Function.update s.clients id (calling id k data (Function.update requests srv .complete)) ∧
        s'.hist = s.hist := by
  have hstep := Step.reply (n := n) id srv (call_of_calling h) hr
  refine ⟨_, hstep, ?_, rfl⟩
  simp only [h]
  rfl

theorem ret_step (h : s.clients id = calling id k data requests)
    (hr : ∀ srv : DlServer, srv.Valid n → requests srv = .complete) : ∃ s',
      Step n .tau s s' ∧ s'.clients = Function.update s.clients id ⟨k + 1, none⟩ ∧
        s'.hist = s.hist ++ [.returned (constructLogEntry id k data)] := by
  have hstep := Step.ret (n := n) id (call_of_calling h) (Call.returns_of_complete hr)
  refine ⟨_, hstep, ?_, rfl⟩
  simp only [h]
  rfl

end Calling

end LazyLog.Client.LazyLogCli
