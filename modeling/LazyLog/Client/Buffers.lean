import LazyLog.Client.LazyLogCli

/-! # The requests of a client and their buffers (`dur_log_erpc_cli`, `client/lazylog_cli`)

A connection to a server has one request buffer. `AppendEntryAsync` serializes into it, gives it its size and hands it
to the network by reference; the next call writes it again. The tokens of `AppendEntryQuorum` go through a queue of
each connection, from which one look takes one token.

When the network reads a buffer is not for this code to say, so the network is a parameter: a relation between what a
buffer has held since the request was made and the message that the server gets. All that is assumed of it is that the
size and every byte of the message were in the buffer at some time in between (`Network.Delivers`): it may copy the
buffer at once, read it when it sends the request, or read its parts at different times. A request is handled once,
and its token gets complete inside `RunERPCOnce` after that.

`Sys.abs` forgets buffers and queues and gives the clients of `LazyLogCli`. A call returns only when every server has
answered, `maj_threshold_` being their number; so a request arrives with its own entry (`Connection.Busy`), and the
map sends reached states to reached states. -/

namespace LazyLog.Client.Buffers

open Relation LazyLog.Lib.Bytes LazyLog.Lib.Run LazyLog.Lib.Transition
open LazyLog.Rpc.Entry LazyLog.Client.LazyLogCli
open LazyLog.DurLog.Flat (Admissible)

/-! ### The network -/

/-- Whether a request can arrive as the message `m`, if its buffer has held these contents since it was made. -/
def Network := List MsgBuffer → MsgBuffer → Prop

/-- What is assumed of the network: size and bytes of a message were in the buffer since the request was made. -/
structure Network.Delivers (net : Network) : Prop where
  size : ∀ {bufs : List MsgBuffer} {m : MsgBuffer}, net bufs m → ∃ b ∈ bufs, m.size = b.size
  byte : ∀ {bufs : List MsgBuffer} {m : MsgBuffer}, net bufs m → ∀ i < m.size, ∃ b ∈ bufs, m.buf i = b.buf i

/-! ### A connection -/

/-- `DurabilityLogERPCCli`: `req_`, the requests handed to the network so far, by their calls, the contents of `req_`
since each of them was made, and the tokens in `pending_reqs_`. -/
structure Connection where
  req : MsgBuffer
  requests : ℕ → Option Request
  seen : ℕ → List MsgBuffer
  pendingReqs : List ℕ

/-- `RPCToken::Complete`. -/
def Connection.complete (cn : Connection) (k : ℕ) : Bool := cn.requests k = some .complete

/-- `AppendEntryAsync`, with the token of call `k`. The requests made before see the new contents, too. -/
def Connection.appendEntryAsync (cn : Connection) (e : LogEntry) (k : ℕ) : Connection :=
  { cn with
    req := cn.req.fill e
    requests := Function.update cn.requests k (some .sent)
    seen := Function.update (fun j => cn.seen j ++ [cn.req.fill e]) k [cn.req.fill e] }

/-- `AddPendingReq`. -/
def Connection.addPendingReq (cn : Connection) (k : ℕ) : Connection :=
  { cn with pendingReqs := cn.pendingReqs ++ [k] }

/-- `CheckPendingReq`, after its `RunERPCOnce`. -/
def Connection.checkPendingReq (cn : Connection) : Connection :=
  match cn.pendingReqs with
  | [] => cn
  | k :: ks => if cn.complete k then { cn with pendingReqs := ks } else cn

/-- What the first loop of a call does with a connection. -/
def Connection.send (cn : Connection) (mode : Mode) (e : LogEntry) (k : ℕ) : Connection :=
  match mode with
  | .quorum => (cn.appendEntryAsync e k).addPendingReq k
  | .all => cn.appendEntryAsync e k

/-- What a round of the second loop does with a connection. -/
def Connection.check (cn : Connection) : Mode → Connection
  | .quorum => cn.checkPendingReq
  | .all => cn

/-! ### The system -/

/-- Where a client is: `todo` are the connections still to come in the loop. -/
inductive Pc
  | idle
  | sending (mode : Mode) (e : LogEntry) (todo : List DlServer)
  | looping (mode : Mode) (e : LogEntry) (todo : List DlServer)

/-- A client: `seq_`, its place and its connections. The call going on is number `seq - 1`. -/
structure Cli where
  seq : ℕ
  pc : Pc
  conns : DlServer → Connection

/-- The condition of the second loop; `maj_threshold_` is the number of the servers. -/
def Cli.returns (clis : List DlServer) (mode : Mode) (cli : Cli) : Bool :=
  match mode with
  | .quorum =>
    quorumCompleted ((cli.conns .primary).complete (cli.seq - 1))
      ((clis.filter (· ≠ .primary)).map fun srv => (cli.conns srv).complete (cli.seq - 1)) clis.length
  | .all => allCompleted (clis.map fun srv => (cli.conns srv).complete (cli.seq - 1))

/-- A connection is replaced. -/
def Cli.set (cli : Cli) (srv : DlServer) (cn : Connection) : Cli :=
  { cli with conns := Function.update cli.conns srv cn }

/-- The client is in `RunERPCOnce`; `CheckPendingReq` does not get there with an empty queue. -/
def Cli.RunsOnce (cli : Cli) : Prop :=
  ∃ mode e srv todo, cli.pc = .looping mode e (srv :: todo) ∧
    (mode = .quorum → (cli.conns srv).pendingReqs ≠ [])

/-- A step of a client inside a call; `clis` is the order of `dur_clis_`. -/
inductive Move (clis : List DlServer) : Cli → Cli → Prop
  | send {cli : Cli} {mode : Mode} {e : LogEntry} {srv : DlServer} {todo : List DlServer}
    (hpc : cli.pc = .sending mode e (srv :: todo)) :
    Move clis cli
      { cli.set srv ((cli.conns srv).send mode e (cli.seq - 1)) with pc := .sending mode e todo }
  | loop {cli : Cli} {mode : Mode} {e : LogEntry} (hpc : cli.pc = .sending mode e []) :
    Move clis cli { cli with pc := .looping mode e clis }
  | check {cli : Cli} {mode : Mode} {e : LogEntry} {srv : DlServer} {todo : List DlServer}
    (hpc : cli.pc = .looping mode e (srv :: todo)) :
    Move clis cli
      { cli.set srv ((cli.conns srv).check mode) with pc := .looping mode e todo }
  | again {cli : Cli} {mode : Mode} {e : LogEntry} (hpc : cli.pc = .looping mode e [])
    (hr : cli.returns clis mode = false) :
    Move clis cli { cli with pc := .looping mode e clis }

/-- The clients by their id; the appends of each server and the calls in the order of time are a history. -/
structure Sys where
  clients : UInt64 → Cli
  order : DlServer → List LogEntry
  hist : List Mark

/-- A client is replaced. -/
def Sys.set (s : Sys) (id : UInt64) (cli : Cli) : Sys :=
  { s with clients := Function.update s.clients id cli }

/-- One step. A server handles a request with the message that the network gives it. -/
inductive Step (net : Network) (clis : List DlServer) : Sys → Sys → Prop
  | invoke {s : Sys} (id : UInt64) (mode : Mode) (data : List UInt8) (hpc : (s.clients id).pc = .idle)
    (he : Admissible (constructLogEntry id (s.clients id).seq data)) :
    Step net clis s
      { s.set id { s.clients id with
          seq := (s.clients id).seq + 1
          pc := .sending mode (constructLogEntry id (s.clients id).seq data) clis } with
        hist := s.hist ++ [.invoked (constructLogEntry id (s.clients id).seq data)] }
  | move {s : Sys} {cli : Cli} (id : UInt64) (hm : Move clis (s.clients id) cli) :
    Step net clis s (s.set id cli)
  | append {s : Sys} (id : UInt64) (srv : DlServer) (k : ℕ) (m : MsgBuffer)
    (hr : ((s.clients id).conns srv).requests k = some .sent)
    (hm : net (((s.clients id).conns srv).seen k) m) :
    Step net clis s
      { s.set id ((s.clients id).set srv { (s.clients id).conns srv with
          requests := Function.update ((s.clients id).conns srv).requests k (some .appended) }) with
        order := Function.update s.order srv
          (s.order srv ++ [appendEntryHandler m.buf]) }
  | reply {s : Sys} (id : UInt64) (srv : DlServer) (k : ℕ)
    (hr : ((s.clients id).conns srv).requests k = some .appended) (hrun : (s.clients id).RunsOnce) :
    Step net clis s
      (s.set id ((s.clients id).set srv { (s.clients id).conns srv with
        requests := Function.update ((s.clients id).conns srv).requests k (some .complete) }))
  | ret {s : Sys} {mode : Mode} {e : LogEntry} (id : UInt64) (hpc : (s.clients id).pc = .looping mode e [])
    (hr : (s.clients id).returns clis mode = true) :
    Step net clis s
      { s.set id { s.clients id with pc := .idle } with hist := s.hist ++ [.returned e] }

/-- Everything has just been started. -/
def Start (s : Sys) : Prop :=
  (∀ id, (s.clients id).seq = 0 ∧ (s.clients id).pc = .idle ∧
    ∀ srv, ((s.clients id).conns srv).requests = (fun _ => none) ∧
      ((s.clients id).conns srv).pendingReqs = []) ∧
  s.order = (fun _ => []) ∧ s.hist = []

/-! ### What the clients do, without the buffers -/

/-- The call going on. -/
def Cli.call (cli : Cli) : Option Call :=
  match cli.pc with
  | .idle => none
  | .sending mode e _ | .looping mode e _ =>
    some ⟨mode, e, fun srv => ((cli.conns srv).requests (cli.seq - 1)).getD .sent⟩

/-- The client without its buffers. -/
def Cli.abs (cli : Cli) : LazyLogClient := ⟨cli.seq, cli.call⟩

/-- The clients without their buffers. -/
def Sys.abs (s : Sys) : Clients := ⟨fun id => (s.clients id).abs, s.order, s.hist⟩

variable {n : ℕ} {net : Network} {clis : List DlServer} {s s' : Sys} {cli cli' : Cli} {cn : Connection}
  {e : LogEntry} {k m b : ℕ} {id : UInt64} {srv : DlServer} {mode : Mode}

/-! ### Messages -/

/-- **A message of a buffer that holds one entry** all the time carries this entry. -/
theorem Network.Delivers.carries (hnet : net.Delivers) {bufs : List MsgBuffer} {msg : MsgBuffer}
    (h : net bufs msg) (hb : ∀ b ∈ bufs, b.Carries e) : msg.Carries e := by
  obtain ⟨b, hmem, hsize⟩ := hnet.size h
  have hsize' : msg.size = entrySize e := hsize.trans (hb b hmem).size
  refine ⟨hsize', holds_iff.mpr fun i hi => ?_⟩
  have hlt : 0 + i < msg.size := by
    have := length_encode_le e
    omega
  obtain ⟨b, hmem, hbyte⟩ := hnet.byte h (0 + i) hlt
  rw [hbyte]
  exact holds_iff.mp (hb b hmem).holds i hi

theorem appendEntryHandler_of_carries {b : MsgBuffer} (h : b.Carries e) (he : e.Sized) (hf : e.flags ≠ 0) :
    appendEntryHandler b.buf = { e with flags := 0 } := by
  unfold appendEntryHandler
  rw [deserializer_of_holds default h.holds he hf]

/-! ### Connections between calls and in a call -/

/-- Requests from `m` on are not made yet, and the queue holds at most `b` tokens of requests that are. -/
structure Connection.Tidy (cn : Connection) (m b : ℕ) : Prop where
  fresh : ∀ j, m ≤ j → cn.requests j = none
  sorted : cn.pendingReqs.Pairwise (· < ·)
  pending : ∀ j ∈ cn.pendingReqs, cn.requests j ≠ none
  length : cn.pendingReqs.length ≤ b

/-- The network has nothing to do for the request. -/
def Connection.Quiet (cn : Connection) (j : ℕ) : Prop :=
  cn.requests j = none ∨ cn.requests j = some .complete

/-- A connection between two calls. -/
structure Connection.Rest (cn : Connection) (m : ℕ) : Prop extends cn.Tidy m 1 where
  quiet : ∀ j, cn.Quiet j

/-- A connection in call `k` for entry `e`: other requests are done with, and the buffer has held the entry since
the request was made. -/
structure Connection.Busy (cn : Connection) (e : LogEntry) (k b : ℕ) : Prop extends cn.Tidy (k + 1) b where
  quiet : ∀ j, j ≠ k → cn.Quiet j
  holds : cn.requests k ≠ none → ∀ b ∈ cn.seen k, b.Carries e

theorem Connection.Tidy.mono (h : cn.Tidy m b) {b' : ℕ} (hb : b ≤ b') : cn.Tidy m b' :=
  ⟨h.fresh, h.sorted, h.pending, h.length.trans hb⟩

theorem Connection.Busy.mono (h : cn.Busy e k b) {b' : ℕ} (hb : b ≤ b') : cn.Busy e k b' :=
  ⟨h.toTidy.mono hb, h.quiet, h.holds⟩

theorem Connection.Rest.busy (h : cn.Rest k) (e : LogEntry) : cn.Busy e k 1 :=
  ⟨⟨fun j hj => h.fresh j (by omega), h.sorted, h.pending, h.length⟩, fun j _ => h.quiet j,
    fun hk => absurd (h.fresh k (Nat.le_refl k)) hk⟩

theorem Connection.Busy.rest (h : cn.Busy e k 1) (hk : cn.Quiet k) : cn.Rest (k + 1) := by
  refine ⟨h.toTidy, fun j => ?_⟩
  rcases eq_or_ne j k with rfl | hne
  · exact hk
  · exact h.quiet j hne

theorem Connection.Busy.appendEntryAsync (h : cn.Busy e k b) : (cn.appendEntryAsync e k).Busy e k b := by
  refine ⟨⟨fun j hj => ?_, h.sorted, fun j hj => ?_, h.length⟩, fun j hne => ?_, fun _ b hb => ?_⟩
  · exact (Function.update_of_ne (by omega) _ _).trans (h.fresh j hj)
  · rcases eq_or_ne j k with rfl | hne
    · simp [Connection.appendEntryAsync]
    · simp only [Connection.appendEntryAsync, Function.update_of_ne hne]
      exact h.pending j hj
  · unfold Connection.Quiet
    simp only [Connection.appendEntryAsync, Function.update_of_ne hne]
    exact h.quiet j hne
  · simp only [Connection.appendEntryAsync, Function.update_self, List.mem_singleton] at hb
    rw [hb]
    exact MsgBuffer.carries_fill _ e

theorem Connection.Busy.addPendingReq (h : cn.Busy e k b) (hk : cn.requests k ≠ none)
    (hnew : k ∉ cn.pendingReqs) : (cn.addPendingReq k).Busy e k (b + 1) := by
  refine ⟨⟨h.fresh, ?_, ?_, ?_⟩, h.quiet, h.holds⟩
  · refine List.pairwise_append.mpr ⟨h.sorted, List.pairwise_singleton _ _, fun i hi j hj => ?_⟩
    rw [List.mem_singleton.mp hj]
    by_contra hle
    refine h.pending i hi (h.fresh i ?_)
    have hne : i ≠ k := fun heq => hnew (heq ▸ hi)
    omega
  · intro j hj
    rcases List.mem_append.mp hj with hj | hj
    · exact h.pending j hj
    · rw [List.mem_singleton.mp hj]
      exact hk
  · simp only [Connection.addPendingReq, List.length_append, List.length_singleton]
    exact Nat.succ_le_succ h.length

/-- The tokens a connection can have at most when it has been sent to. -/
def Mode.bound : Mode → ℕ
  | .quorum => 2
  | .all => 1

theorem Connection.Busy.send (h : cn.Busy e k 1) (hk : cn.requests k = none) :
    (cn.send mode e k).Busy e k (Mode.bound mode) := by
  cases mode with
  | quorum =>
    refine h.appendEntryAsync.addPendingReq ?_ fun hmem => h.pending k hmem hk
    simp [Connection.appendEntryAsync]
  | all => exact h.appendEntryAsync

/-- **One look takes the token of an earlier call.** -/
theorem Connection.Busy.checkPendingReq (h : cn.Busy e k 2) : cn.checkPendingReq.Busy e k 1 := by
  have hlen := h.length
  have hsort := h.sorted
  have hpend := h.pending
  unfold Connection.checkPendingReq
  cases hq : cn.pendingReqs with
  | nil => exact ⟨⟨h.fresh, hsort, hpend, by rw [hq]; exact Nat.zero_le _⟩, h.quiet, h.holds⟩
  | cons i is =>
    rw [hq] at hlen hsort hpend
    simp only
    by_cases hc : cn.complete i = true
    · rw [if_pos hc]
      exact ⟨⟨h.fresh, (List.pairwise_cons.mp hsort).2, fun j hj => hpend j (List.mem_cons_of_mem _ hj),
        Nat.le_of_succ_le_succ hlen⟩, h.quiet, h.holds⟩
    · rw [if_neg hc]
      refine ⟨⟨h.fresh, h.sorted, h.pending, ?_⟩, h.quiet, h.holds⟩
      cases is with
      | nil => rw [hq]; exact Nat.le_refl _
      | cons j js =>
        -- the first of two tokens is of an earlier call, whose request has been answered
        have hij : i < j := (List.pairwise_cons.mp hsort).1 j (List.mem_cons_self ..)
        have hj : j ≤ k := by
          by_contra hlt
          exact hpend j (List.mem_cons_of_mem _ (List.mem_cons_self ..)) (h.fresh j (by omega))
        rcases h.quiet i (by omega) with hi | hi
        · exact absurd hi (hpend i (List.mem_cons_self ..))
        · exact absurd (decide_eq_true hi) hc

theorem Connection.Busy.check (h : cn.Busy e k (Mode.bound mode)) : (cn.check mode).Busy e k 1 := by
  cases mode with
  | quorum => exact h.checkPendingReq
  | all => exact h

theorem Connection.Busy.eq_of_requests (h : cn.Busy e k b) {j : ℕ} {r : Request}
    (hr : cn.requests j = some r) (hne : r ≠ .complete) : j = k := by
  by_contra hjk
  rcases h.quiet j hjk with hj | hj
  · rw [hr] at hj
    cases hj
  · rw [hr] at hj
    cases hj
    exact hne rfl

theorem Connection.Busy.update (h : cn.Busy e k b) (hk : cn.requests k ≠ none) (r : Request) :
    Connection.Busy { cn with requests := Function.update cn.requests k (some r) } e k b := by
  refine ⟨⟨fun j hj => ?_, h.sorted, fun j hj => ?_, h.length⟩, fun j hne => ?_, fun _ => h.holds hk⟩
  · exact (Function.update_of_ne (by omega) _ _).trans (h.fresh j hj)
  · rcases eq_or_ne j k with rfl | hne
    · simp
    · simp only [Function.update_of_ne hne]
      exact h.pending j hj
  · unfold Connection.Quiet
    simp only [Function.update_of_ne hne]
    exact h.quiet j hne

/-! ### The invariant of a client -/

/-- What is known of the connections at each place of a call. -/
def Cli.Inv (clis : List DlServer) (cli : Cli) : Prop :=
  match cli.pc with
  | .idle => ∀ srv, (cli.conns srv).Rest cli.seq
  | .sending mode e todo =>
    0 < cli.seq ∧ (e.Sized ∧ e.flags ≠ 0) ∧ todo <:+ clis ∧
      (∀ srv ∈ todo, (cli.conns srv).requests (cli.seq - 1) = none) ∧
      ∀ srv, (cli.conns srv).Busy e (cli.seq - 1) (if srv ∈ clis ∧ srv ∉ todo then Mode.bound mode else 1)
  | .looping mode e todo =>
    0 < cli.seq ∧ (e.Sized ∧ e.flags ≠ 0) ∧ todo <:+ clis ∧
      ∀ srv, (cli.conns srv).Busy e (cli.seq - 1) (if srv ∈ todo then Mode.bound mode else 1)

theorem one_le_bound (mode : Mode) : 1 ≤ Mode.bound mode := by
  cases mode <;> decide

/-- **A step inside a call** keeps the invariant. -/
theorem Cli.Inv.move (hnd : clis.Nodup) (h : cli.Inv clis) (hm : Move clis cli cli') :
    cli'.Inv clis := by
  unfold Cli.Inv at h
  cases hm with
  | @send mode e srv todo hpc =>
    rw [hpc] at h
    obtain ⟨hpos, hent, hsuf, hnone, hbusy⟩ := h
    have hnd' : (srv :: todo).Nodup := hnd.sublist hsuf.sublist
    refine ⟨hpos, hent, (List.suffix_cons _ _).trans hsuf, fun srv' hmem => ?_, fun srv' => ?_⟩
    · have hne : srv' ≠ srv := by
        rintro rfl
        exact (List.nodup_cons.mp hnd').1 hmem
      simp only [Cli.set, Function.update_of_ne hne]
      exact hnone srv' (List.mem_cons_of_mem _ hmem)
    · simp only [Cli.set]
      rcases eq_or_ne srv' srv with rfl | hne
      · rw [Function.update_self, if_pos ⟨hsuf.mem (List.mem_cons_self ..), (List.nodup_cons.mp hnd').1⟩]
        have hcn := hbusy srv'
        rw [if_neg fun hh => hh.2 (List.mem_cons_self ..)] at hcn
        exact hcn.send (hnone srv' (List.mem_cons_self ..))
      · rw [Function.update_of_ne hne]
        have hcn := hbusy srv'
        simp only [List.mem_cons, hne, false_or] at hcn
        exact hcn
  | loop hpc =>
    rw [hpc] at h
    obtain ⟨hpos, hent, -, -, hbusy⟩ := h
    refine ⟨hpos, hent, List.suffix_rfl, fun srv => ?_⟩
    have hcn := hbusy srv
    simp only [List.not_mem_nil, not_false_iff, and_true] at hcn
    exact hcn
  | @check mode e srv todo hpc =>
    rw [hpc] at h
    obtain ⟨hpos, hent, hsuf, hbusy⟩ := h
    have hnd' : (srv :: todo).Nodup := hnd.sublist hsuf.sublist
    refine ⟨hpos, hent, (List.suffix_cons _ _).trans hsuf, fun srv' => ?_⟩
    simp only [Cli.set]
    rcases eq_or_ne srv' srv with rfl | hne
    · rw [Function.update_self, if_neg (List.nodup_cons.mp hnd').1]
      have hcn := hbusy srv'
      rw [if_pos (List.mem_cons_self ..)] at hcn
      exact hcn.check
    · rw [Function.update_of_ne hne]
      have hcn := hbusy srv'
      simp only [List.mem_cons, hne, false_or] at hcn
      exact hcn
  | @again mode e hpc hr =>
    rw [hpc] at h
    obtain ⟨hpos, hent, -, hbusy⟩ := h
    refine ⟨hpos, hent, List.suffix_rfl, fun srv => (hbusy srv).mono ?_⟩
    have := one_le_bound mode
    rw [if_neg List.not_mem_nil]
    split_ifs <;> omega

theorem Cli.Inv.abs_move (h : cli.Inv clis) (hm : Move clis cli cli') : cli'.abs = cli.abs := by
  unfold Cli.Inv at h
  cases hm with
  | @send mode e srv todo hpc =>
    rw [hpc] at h
    obtain ⟨-, -, -, hnone, -⟩ := h
    unfold Cli.abs Cli.call
    rw [hpc]
    simp only [Cli.set, LazyLogClient.mk.injEq, Option.some.injEq, Call.mk.injEq, true_and]
    funext srv'
    rcases eq_or_ne srv' srv with rfl | hne
    · rw [Function.update_self, hnone srv' (List.mem_cons_self ..)]
      cases mode <;> simp [Connection.send, Connection.appendEntryAsync, Connection.addPendingReq]
    · rw [Function.update_of_ne hne]
  | loop hpc | again hpc hr =>
    unfold Cli.abs Cli.call
    rw [hpc]
  | @check mode e srv todo hpc =>
    unfold Cli.abs Cli.call
    rw [hpc]
    simp only [Cli.set, LazyLogClient.mk.injEq, Option.some.injEq, Call.mk.injEq, true_and]
    funext srv'
    rcases eq_or_ne srv' srv with rfl | hne
    · rw [Function.update_self]
      cases mode with
      | quorum =>
        simp only [Connection.check, Connection.checkPendingReq]
        split <;> [rfl; (split <;> rfl)]
      | all => rfl
    · rw [Function.update_of_ne hne]

theorem Cli.Inv.request (h : cli.Inv clis) {r : Request} (hr : (cli.conns srv).requests k = some r)
    (hne : r ≠ .complete) : k = cli.seq - 1 ∧
      ∃ mode e, cli.call = some ⟨mode, e, fun srv => ((cli.conns srv).requests (cli.seq - 1)).getD .sent⟩ ∧
        e.Sized ∧ e.flags ≠ 0 ∧ ∀ b ∈ (cli.conns srv).seen k, b.Carries e := by
  have hsome : (cli.conns srv).requests k ≠ none := by
    rw [hr]
    rintro ⟨⟩
  unfold Cli.Inv at h
  unfold Cli.call
  cases hpc : cli.pc with
  | idle =>
    rw [hpc] at h
    rcases (h srv).quiet k with hq | hq
    · exact absurd hq hsome
    · rw [hr] at hq
      cases hq
      exact absurd rfl hne
  | sending mode e todo =>
    rw [hpc] at h
    obtain ⟨-, ⟨hs, hf⟩, -, -, hbusy⟩ := h
    obtain rfl := (hbusy srv).eq_of_requests hr hne
    exact ⟨rfl, mode, e, rfl, hs, hf, (hbusy srv).holds hsome⟩
  | looping mode e todo =>
    rw [hpc] at h
    obtain ⟨-, ⟨hs, hf⟩, -, hbusy⟩ := h
    obtain rfl := (hbusy srv).eq_of_requests hr hne
    exact ⟨rfl, mode, e, rfl, hs, hf, (hbusy srv).holds hsome⟩

theorem Cli.Inv.update (h : cli.Inv clis) {r : Request} (hr : (cli.conns srv).requests k = some r)
    (hne : r ≠ .complete) (r' : Request) :
    (cli.set srv { cli.conns srv with
      requests := Function.update (cli.conns srv).requests k (some r') }).Inv clis := by
  obtain ⟨rfl, -⟩ := h.request hr hne
  have hsome : (cli.conns srv).requests (cli.seq - 1) ≠ none := by
    rw [hr]
    rintro ⟨⟩
  have hbusy : ∀ {e : LogEntry} {b : ℕ} (srv' : DlServer), (cli.conns srv').Busy e (cli.seq - 1) b →
      (Function.update cli.conns srv { cli.conns srv with
        requests := Function.update (cli.conns srv).requests (cli.seq - 1) (some r') } srv').Busy e
          (cli.seq - 1) b := by
    intro e b srv' hb
    rcases eq_or_ne srv' srv with rfl | hne
    · rw [Function.update_self]
      exact hb.update hsome r'
    · rw [Function.update_of_ne hne]
      exact hb
  unfold Cli.Inv at h ⊢
  simp only [Cli.set]
  cases hpc : cli.pc with
  | idle =>
    rw [hpc] at h
    rcases (h srv).quiet (cli.seq - 1) with hq | hq
    · exact absurd hq hsome
    · rw [hr] at hq
      cases hq
      exact absurd rfl hne
  | sending mode e todo =>
    rw [hpc] at h
    obtain ⟨hpos, hent, hsuf, hnone, hb⟩ := h
    refine ⟨hpos, hent, hsuf, fun srv' hmem => ?_, fun srv' => hbusy srv' (hb srv')⟩
    have hne : srv' ≠ srv := by
      rintro rfl
      exact hsome (hnone srv' hmem)
    rw [Function.update_of_ne hne]
    exact hnone srv' hmem
  | looping mode e todo =>
    rw [hpc] at h
    obtain ⟨hpos, hent, hsuf, hb⟩ := h
    exact ⟨hpos, hent, hsuf, fun srv' => hbusy srv' (hb srv')⟩

theorem Cli.abs_update {call : Call} (hc : cli.call = some call)
    (hcall : call.requests = fun srv => ((cli.conns srv).requests (cli.seq - 1)).getD .sent) (r : Request) :
    (cli.set srv { cli.conns srv with
      requests := Function.update (cli.conns srv).requests (cli.seq - 1) (some r) }).abs =
    { cli.abs with call := some { call with requests := Function.update call.requests srv r } } := by
  unfold Cli.call at hc
  unfold Cli.abs Cli.call
  simp only [Cli.set]
  have hreq : (fun srv' => ((Function.update cli.conns srv { cli.conns srv with
      requests := Function.update (cli.conns srv).requests (cli.seq - 1) (some r) } srv').requests
        (cli.seq - 1)).getD .sent) = Function.update call.requests srv r := by
    funext srv'
    rcases eq_or_ne srv' srv with rfl | hne
    · simp only [Function.update_self, Option.getD_some]
    · rw [Function.update_of_ne hne, Function.update_of_ne hne, hcall]
  cases hpc : cli.pc with
  | idle => rw [hpc] at hc; cases hc
  | sending mode e todo | looping mode e todo =>
    rw [hpc] at hc
    cases hc
    simp only [hreq]

/-! ### A call returns when every server has answered -/

theorem length_clis (hclis : clis.Perm (dlServers n)) : clis.length = n + 1 := by
  rw [hclis.length_eq, dlServers, List.length_cons, List.length_map, List.length_range]

theorem length_backups (hclis : clis.Perm (dlServers n)) : (clis.filter (· ≠ .primary)).length = n := by
  rw [(hclis.filter _).length_eq]
  unfold dlServers
  rw [List.filter_cons_of_neg (by simp), List.filter_eq_self.mpr (by simp), List.length_map,
    List.length_range]

theorem complete_of_returns (hclis : clis.Perm (dlServers n))
    (h : cli.returns clis mode = true) (hsrv : srv ∈ clis) :
    (cli.conns srv).complete (cli.seq - 1) = true := by
  unfold Cli.returns at h
  cases mode with
  | quorum =>
    unfold quorumCompleted at h
    simp only at h
    split_ifs at h with hp
    rcases eq_or_ne srv .primary with rfl | hne
    · simpa using hp
    · have hmem : srv ∈ clis.filter (· ≠ .primary) := List.mem_filter.mpr ⟨hsrv, by simpa using hne⟩
      have hcount := of_decide_eq_true h
      have hclen := length_clis hclis
      have hlen := List.count_le_length (a := true)
        (l := (clis.filter (· ≠ .primary)).map fun srv => (cli.conns srv).complete (cli.seq - 1))
      rw [List.length_map, length_backups hclis] at hlen
      have heq := List.count_eq_length.mp (show List.count true ((clis.filter (· ≠ .primary)).map fun srv =>
        (cli.conns srv).complete (cli.seq - 1)) = _ by rw [List.length_map, length_backups hclis]; omega)
      exact (heq _ (List.mem_map_of_mem hmem)).symm
  | all =>
    simp only [allCompleted, List.all_map, List.all_eq_true] at h
    exact h srv hsrv

/-! ### The refinement -/

/-- Every client is in order. -/
def Inv (clis : List DlServer) (s : Sys) : Prop :=
  ∀ id, (s.clients id).Inv clis ∧
    ∀ srv, srv ∉ clis → ∀ j, ((s.clients id).conns srv).requests j = none

theorem Inv.set (h : Inv clis s) (hcli : cli.Inv clis)
    (hout : ∀ srv, srv ∉ clis → ∀ j, (cli.conns srv).requests j = none) : Inv clis (s.set id cli) := by
  intro i
  simp only [Sys.set]
  rcases eq_or_ne i id with rfl | hne
  · rw [Function.update_self]
    exact ⟨hcli, hout⟩
  · rw [Function.update_of_ne hne]
    exact h i

/-- The state without buffers when a client has changed. -/
theorem abs_set (s : Sys) (id : UInt64) (cli : Cli) (order : DlServer → List LogEntry) (hist : List Mark) :
    Sys.abs ⟨(s.set id cli).clients, order, hist⟩ = ⟨Function.update s.abs.clients id cli.abs, order, hist⟩ := by
  have hclients : (fun i => ((s.set id cli).clients i).abs) =
      Function.update (fun i => (s.clients i).abs) id cli.abs := by
    funext i
    simp only [Sys.set]
    rcases eq_or_ne i id with rfl | hne
    · rw [Function.update_self, Function.update_self]
    · rw [Function.update_of_ne hne, Function.update_of_ne hne]
  exact congrArg (fun clients => (⟨clients, order, hist⟩ : Clients)) hclients

theorem abs_set_clients (s : Sys) (id : UInt64) (cli : Cli) :
    (s.set id cli).abs = { s.abs with clients := Function.update s.abs.clients id cli.abs } :=
  abs_set s id cli s.order s.hist

theorem Cli.Inv.invoke (h : cli.Inv clis) (hpc : cli.pc = .idle) (he : e.Sized) (hf : e.flags ≠ 0) (mode : Mode) :
    Cli.Inv clis { cli with seq := cli.seq + 1, pc := .sending mode e clis } ∧
      Cli.abs { cli with seq := cli.seq + 1, pc := .sending mode e clis } =
        ⟨cli.seq + 1, some ⟨mode, e, fun _ => .sent⟩⟩ := by
  unfold Cli.Inv at h
  rw [hpc] at h
  have hfresh : ∀ srv, (cli.conns srv).requests cli.seq = none := fun srv => (h srv).fresh _ (Nat.le_refl _)
  refine ⟨⟨Nat.succ_pos _, ⟨he, hf⟩, List.suffix_rfl, fun srv _ => hfresh srv, fun srv => ?_⟩, ?_⟩
  · rw [if_neg fun hh => hh.2 hh.1]
    exact (h srv).busy _
  · unfold Cli.abs Cli.call
    simp only [LazyLogClient.mk.injEq, Option.some.injEq, Call.mk.injEq, true_and]
    funext srv
    rw [Nat.add_sub_cancel, hfresh srv]
    rfl

theorem Cli.Inv.ret (hclis : clis.Perm (dlServers n)) (h : cli.Inv clis) (hpc : cli.pc = .looping mode e [])
    (hr : cli.returns clis mode = true) (hout : ∀ srv, srv ∉ clis → ∀ j, (cli.conns srv).requests j = none) :
    Cli.Inv clis { cli with pc := .idle } := by
  unfold Cli.Inv at h
  rw [hpc] at h
  obtain ⟨hpos, -, -, hbusy⟩ := h
  intro srv
  have hquiet : (cli.conns srv).Quiet (cli.seq - 1) := by
    by_cases hsrv : srv ∈ clis
    · exact Or.inr (of_decide_eq_true (complete_of_returns hclis hr hsrv))
    · exact Or.inl (hout srv hsrv _)
  have hb := hbusy srv
  rw [if_neg List.not_mem_nil] at hb
  have hrest := hb.rest hquiet
  rwa [Nat.sub_add_cancel hpos] at hrest

theorem Cli.returns_abs (hclis : clis.Perm (dlServers n)) (hr : cli.returns clis mode = true) :
    Call.returns n ⟨mode, e, fun srv => ((cli.conns srv).requests (cli.seq - 1)).getD .sent⟩ = true := by
  refine Call.returns_of_complete fun srv hv => ?_
  have hsrv := hclis.mem_iff.mpr (mem_dlServers.mpr hv)
  have hcomplete : (cli.conns srv).requests (cli.seq - 1) = some .complete :=
    of_decide_eq_true (complete_of_returns hclis hr hsrv)
  simp only [hcomplete, Option.getD_some]

theorem requests_move (hm : Move clis cli cli') (hcli : cli.Inv clis)
    (hout : ∀ srv, srv ∉ clis → ∀ j, (cli.conns srv).requests j = none) :
    ∀ srv, srv ∉ clis → ∀ j, (cli'.conns srv).requests j = none := by
  intro srv hsrv j
  unfold Cli.Inv at hcli
  cases hm with
  | @send mode e srv' todo hpc =>
    rw [hpc] at hcli
    have hne : srv ≠ srv' := by
      rintro rfl
      exact hsrv (hcli.2.2.1.mem (List.mem_cons_self ..))
    simp only [Cli.set, Function.update_of_ne hne]
    exact hout srv hsrv j
  | @check mode e srv' todo hpc =>
    rw [hpc] at hcli
    have hne : srv ≠ srv' := by
      rintro rfl
      exact hsrv (hcli.2.2.1.mem (List.mem_cons_self ..))
    simp only [Cli.set, Function.update_of_ne hne]
    exact hout srv hsrv j
  | loop | again => exact hout srv hsrv j

theorem requests_update {r : Request} (hr : (cli.conns srv).requests k = some r)
    (hout : ∀ srv, srv ∉ clis → ∀ j, (cli.conns srv).requests j = none) (r' : Request) :
    srv ∈ clis ∧ ∀ srv', srv' ∉ clis → ∀ j, ((cli.set srv { cli.conns srv with
      requests := Function.update (cli.conns srv).requests k (some r') }).conns srv').requests j = none := by
  have hmem : srv ∈ clis := by
    by_contra hmem
    rw [hout srv hmem k] at hr
    cases hr
  refine ⟨hmem, fun srv' hsrv' j => ?_⟩
  have hne : srv' ≠ srv := by
    rintro rfl
    exact hsrv' hmem
  simp only [Cli.set, Function.update_of_ne hne]
  exact hout srv' hsrv' j

/-- **One step** keeps the invariant, and is at most one step without the buffers. -/
theorem Inv.step (hnet : net.Delivers) (hclis : clis.Perm (dlServers n)) (h : Inv clis s)
    (hs : Step net clis s s') :
    Inv clis s' ∧ (s'.abs = s.abs ∨ ∃ a, LazyLogCli.Step n a s.abs s'.abs) := by
  have hnd : clis.Nodup := hclis.nodup_iff.mpr (nodup_dlServers n)
  cases hs with
  | invoke id mode data hpc he =>
    obtain ⟨hcli, hout⟩ := h id
    obtain ⟨hinv, habs⟩ := hcli.invoke hpc he.sized (show (1 : UInt16) ≠ 0 by decide) mode
    refine ⟨h.set hinv hout, Or.inr ⟨.tau, ?_⟩⟩
    have hcall : ((s.clients id).abs).call = none := by
      unfold Cli.abs Cli.call
      rw [hpc]
    rw [abs_set, habs]
    exact LazyLogCli.Step.invoke (s := s.abs) id mode data hcall he
  | move id hm =>
    obtain ⟨hcli, hout⟩ := h id
    refine ⟨h.set (hcli.move hnd hm) (requests_move hm hcli hout), Or.inl ?_⟩
    rw [abs_set_clients, hcli.abs_move hm]
    exact congrArg (fun clients => { s.abs with clients := clients }) (Function.update_eq_self id s.abs.clients)
  | append id srv k m hr hm =>
    obtain ⟨hcli, hout⟩ := h id
    obtain ⟨rfl, mode, e, hcall, hsz, hfl, hseen⟩ := hcli.request hr (by rintro ⟨⟩)
    obtain ⟨hmem, hout'⟩ := requests_update hr hout .appended
    refine ⟨h.set (hcli.update hr (by rintro ⟨⟩) .appended) hout', Or.inr ⟨.append srv { e with flags := 0 }, ?_⟩⟩
    rw [abs_set, Cli.abs_update hcall rfl .appended, appendEntryHandler_of_carries (hnet.carries hm hseen) hsz hfl]
    exact LazyLogCli.step_append (s := s.abs) id srv hcall (mem_dlServers.mp (hclis.mem_iff.mp hmem))
      (by simp only [hr, Option.getD_some]) hsz hfl
  | reply id srv k hr hrun =>
    obtain ⟨hcli, hout⟩ := h id
    obtain ⟨rfl, mode, e, hcall, -⟩ := hcli.request hr (by rintro ⟨⟩)
    obtain ⟨hmem, hout'⟩ := requests_update hr hout .complete
    refine ⟨h.set (hcli.update hr (by rintro ⟨⟩) .complete) hout', Or.inr ⟨.reply srv e.reqId, ?_⟩⟩
    rw [abs_set_clients, Cli.abs_update hcall rfl .complete]
    exact LazyLogCli.Step.reply (s := s.abs) id srv hcall (by simp only [hr, Option.getD_some])
  | @ret mode e id hpc hr =>
    obtain ⟨hcli, hout⟩ := h id
    refine ⟨h.set (hcli.ret hclis hpc hr hout) hout, Or.inr ⟨.tau, ?_⟩⟩
    have hcall : ((s.clients id).abs).call = some ⟨mode, e, fun srv =>
        (((s.clients id).conns srv).requests ((s.clients id).seq - 1)).getD .sent⟩ := by
      unfold Cli.abs Cli.call
      rw [hpc]
    rw [abs_set]
    exact LazyLogCli.Step.ret (s := s.abs) id hcall (Cli.returns_abs hclis hr)

theorem Inv.start (h : Start s) : Inv clis s := by
  intro id
  obtain ⟨hseq, hpc, hconn⟩ := h.1 id
  refine ⟨?_, fun srv _ j => congrFun (hconn srv).1 j⟩
  unfold Cli.Inv
  rw [hpc]
  intro srv
  obtain ⟨hreq, hpend⟩ := hconn srv
  refine ⟨⟨fun j _ => congrFun hreq j, ?_, ?_, ?_⟩, fun j => Or.inl (congrFun hreq j)⟩
  · rw [hpend]
    exact List.Pairwise.nil
  · rw [hpend]
    exact fun j hj => absurd hj List.not_mem_nil
  · rw [hpend]
    exact Nat.zero_le _

theorem abs_start (h : Start s) : s.abs = ⟨fun _ => ⟨0, none⟩, fun _ => [], []⟩ := by
  obtain ⟨hcli, hord, hhist⟩ := h
  unfold Sys.abs
  rw [hord, hhist]
  simp only [Clients.mk.injEq, and_true]
  funext id
  obtain ⟨hseq, hpc, -⟩ := hcli id
  unfold Cli.abs Cli.call
  rw [hseq, hpc]

theorem inv_of_reach (hnet : net.Delivers) (hclis : clis.Perm (dlServers n))
    (h : Reach Start (Step net clis) s) : Inv clis s :=
  h.invariant (P := Inv clis) (fun _ h0 => Inv.start h0) fun _ _ _ hi hs => (hi.step hnet hclis hs).1

/-- **The buffers and queues do not matter.** -/
theorem reachable_abs (hnet : net.Delivers) (hclis : clis.Perm (dlServers n))
    (h : Reach Start (Step net clis) s) : (LazyLogCli.lts n).Reachable s.abs := by
  refine h.map Sys.abs (fun s h0 => abs_start h0) fun s s' hr _ hs => ?_
  rcases ((inv_of_reach hnet hclis hr).step hnet hclis hs).2 with heq | hstep
  · rw [heq]
  · exact .single hstep

theorem length_pendingReqs (h : Inv clis s) (id : UInt64) (srv : DlServer) :
    ((s.clients id).conns srv).pendingReqs.length ≤ 2 := by
  have hcli := (h id).1
  unfold Cli.Inv at hcli
  have hbound : ∀ mode, Mode.bound mode ≤ 2 := by
    intro mode
    cases mode <;> decide
  cases hpc : (s.clients id).pc with
  | idle =>
    rw [hpc] at hcli
    exact (hcli srv).length.trans (by decide)
  | sending mode e todo =>
    rw [hpc] at hcli
    refine (hcli.2.2.2.2 srv).length.trans ?_
    split_ifs <;> [exact hbound mode; decide]
  | looping mode e todo =>
    rw [hpc] at hcli
    refine (hcli.2.2.2 srv).length.trans ?_
    split_ifs <;> [exact hbound mode; decide]

/-! ### A call -/

theorem run_send : ∀ (todo : List DlServer) {s : Sys}, todo.Nodup → (s.clients id).pc = .sending .quorum e todo →
    ∃ s', ReflTransGen (Step net clis) s s' ∧ s'.order = s.order ∧
      (s'.clients id).seq = (s.clients id).seq ∧ (s'.clients id).pc = .looping .quorum e clis ∧
      ∀ srv, (s'.clients id).conns srv =
        if srv ∈ todo then ((s.clients id).conns srv).send .quorum e ((s.clients id).seq - 1)
        else (s.clients id).conns srv
  | [], s, _, hpc => by
    refine ⟨_, .single (.move id (.loop hpc)), rfl, ?_⟩
    simp [Sys.set]
  | srv :: todo, s, hnd, hpc => by
    obtain ⟨hsrv, hnd⟩ := List.nodup_cons.mp hnd
    have hstep : Step net clis s _ := .move id (.send hpc)
    generalize hcli : ({ (s.clients id).set srv (((s.clients id).conns srv).send .quorum e
      ((s.clients id).seq - 1)) with pc := .sending .quorum e todo } : Cli) = cli at hstep
    obtain ⟨s', hrun, hord, hseq, hpc', hconn⟩ := run_send todo hnd
      (show ((s.set id cli).clients id).pc = .sending .quorum e todo by
        simp only [Sys.set, Function.update_self, ← hcli])
    refine ⟨s', .head hstep hrun, hord, ?_, hpc', fun srv' => ?_⟩
    · rw [hseq]
      simp only [Sys.set, Function.update_self, ← hcli, Cli.set]
    · rw [hconn srv']
      simp only [Sys.set, Function.update_self, ← hcli, Cli.set, List.mem_cons]
      rcases eq_or_ne srv' srv with rfl | hne
      · rw [if_neg hsrv, if_pos (Or.inl rfl), Function.update_self]
      · rw [Function.update_of_ne hne]
        simp only [hne, false_or]

theorem run_invoke (net : Network) (hnd : clis.Nodup) (hpc : (s.clients id).pc = .idle) {data : List UInt8}
    (he : Admissible (constructLogEntry id (s.clients id).seq data)) :
    ∃ s', ReflTransGen (Step net clis) s s' ∧ s'.order = s.order ∧
      (s'.clients id).seq = (s.clients id).seq + 1 ∧
      (s'.clients id).pc = .looping .quorum (constructLogEntry id (s.clients id).seq data) clis ∧
      ∀ srv ∈ clis, (s'.clients id).conns srv =
        ((s.clients id).conns srv).send .quorum (constructLogEntry id (s.clients id).seq data)
          (s.clients id).seq := by
  have hstep : Step net clis s _ := .invoke id .quorum data hpc he
  generalize hs₁ : ({ s.set id { s.clients id with
      seq := (s.clients id).seq + 1
      pc := .sending .quorum (constructLogEntry id (s.clients id).seq data) clis } with
    hist := s.hist ++ [.invoked (constructLogEntry id (s.clients id).seq data)] } : Sys) = s₁ at hstep
  have hcli : s₁.clients id = { s.clients id with
      seq := (s.clients id).seq + 1
      pc := .sending .quorum (constructLogEntry id (s.clients id).seq data) clis } := by
    rw [← hs₁]
    simp only [Sys.set, Function.update_self]
  obtain ⟨s', hrun, hord, hseq, hpc', hconn⟩ := run_send clis hnd
    (show (s₁.clients id).pc = .sending .quorum (constructLogEntry id (s.clients id).seq data) clis by rw [hcli])
  refine ⟨s', .head hstep hrun, hord.trans (by rw [← hs₁]; rfl), by rw [hseq, hcli], hpc', fun srv hsrv => ?_⟩
  rw [hconn srv, if_pos hsrv, hcli]
  rfl

/-- The request of call `k` is with the network, and can arrive as the entry. -/
structure Arrives (net : Network) (cn : Connection) (k : ℕ) (e : LogEntry) : Prop where
  sent : cn.requests k = some .sent
  arrives : ∃ m, net (cn.seen k) m ∧ appendEntryHandler m.buf = { e with flags := 0 }

theorem arrives_send (hnet : ∀ b, net [b] b) (hs : e.Sized) (hf : e.flags ≠ 0) :
    Arrives net (cn.send .quorum e k) k e := by
  have hfill := appendEntryHandler_of_carries (MsgBuffer.carries_fill cn.req e) hs hf
  refine ⟨Function.update_self .., cn.req.fill e, ?_, hfill⟩
  simp only [Connection.send, Connection.appendEntryAsync, Connection.addPendingReq, Function.update_self]
  exact hnet _

/-- What the answers of the servers in `l` to call `k` for the entry `e` change. -/
structure Answered (id : UInt64) (k : ℕ) (e : LogEntry) (l : List DlServer) (s s' : Sys) : Prop where
  seq : (s'.clients id).seq = (s.clients id).seq
  pc : (s'.clients id).pc = (s.clients id).pc
  pending : ∀ srv, ((s'.clients id).conns srv).pendingReqs = ((s.clients id).conns srv).pendingReqs
  done : ∀ srv ∈ l, ((s'.clients id).conns srv).requests k = some .complete ∧
    s'.order srv = s.order srv ++ [{ e with flags := 0 }]
  rest : ∀ srv ∉ l, s'.order srv = s.order srv ∧ (s'.clients id).conns srv = (s.clients id).conns srv

theorem Answered.runsOnce {l : List DlServer} (h : Answered id k e l s s') (hrun : (s.clients id).RunsOnce) :
    (s'.clients id).RunsOnce := by
  obtain ⟨mode, e, srv, todo, hpc, hq⟩ := hrun
  refine ⟨mode, e, srv, todo, h.pc.trans hpc, fun hm => ?_⟩
  rw [h.pending]
  exact hq hm

theorem run_answer_one (hrun : (s.clients id).RunsOnce) (hr : Arrives net ((s.clients id).conns srv) k e) :
    ∃ s', ReflTransGen (Step net clis) s s' ∧ Answered id k e [srv] s s' := by
  obtain ⟨hsent, m, hm, hent⟩ := hr
  have happ : Step net clis s _ := .append id srv k m hsent hm
  rw [hent] at happ
  generalize hs₁ : ({ s.set id ((s.clients id).set srv { (s.clients id).conns srv with
    requests := Function.update ((s.clients id).conns srv).requests k (some .appended) }) with
      order := Function.update s.order srv (s.order srv ++ [{ e with flags := 0 }]) } : Sys) = s₁ at happ
  have hcli : s₁.clients id = (s.clients id).set srv { (s.clients id).conns srv with
      requests := Function.update ((s.clients id).conns srv).requests k (some .appended) } := by
    rw [← hs₁]
    simp only [Sys.set, Function.update_self]
  have hord : s₁.order = Function.update s.order srv (s.order srv ++ [{ e with flags := 0 }]) := by rw [← hs₁]
  have hr' : ((s₁.clients id).conns srv).requests k = some .appended := by
    rw [hcli]
    simp [Cli.set]
  have hrun' : (s₁.clients id).RunsOnce := by
    obtain ⟨mode, e, srv', todo, hpc, hq⟩ := hrun
    refine ⟨mode, e, srv', todo, by rw [hcli]; exact hpc, fun hmode => ?_⟩
    rw [hcli]
    simp only [Cli.set]
    rcases eq_or_ne srv' srv with rfl | hne
    · rw [Function.update_self]
      exact hq hmode
    · rw [Function.update_of_ne hne]
      exact hq hmode
  have hrep : Step net clis s₁ _ := .reply id srv k hr' hrun'
  refine ⟨_, .tail (.single happ) hrep, ?_⟩
  simp only [Sys.set]
  rw [hcli]
  refine ⟨?_, ?_, ?_, ?_, ?_⟩
  · simp [Cli.set]
  · simp [Cli.set]
  · intro srv'
    simp only [Cli.set, Function.update_self]
    rcases eq_or_ne srv' srv with rfl | hne
    · simp
    · rw [Function.update_of_ne hne, Function.update_of_ne hne]
  · intro srv' hmem
    obtain rfl := List.mem_singleton.mp hmem
    simp [Cli.set, hord]
  · intro srv' hmem
    have hne : srv' ≠ srv := fun h => hmem (List.mem_singleton.mpr h)
    rw [hord]
    simp [Cli.set, hne]

theorem run_answer : ∀ {l : List DlServer}, l.Nodup → (s.clients id).RunsOnce →
    (∀ srv ∈ l, Arrives net ((s.clients id).conns srv) k e) →
    ∃ s', ReflTransGen (Step net clis) s s' ∧ Answered id k e l s s'
  | [], _, _, _ => ⟨s, .refl, rfl, rfl, fun _ => rfl, fun _ h => absurd h List.not_mem_nil, fun _ _ => ⟨rfl, rfl⟩⟩
  | srv :: l, hnd, hrun, hsent => by
    obtain ⟨hsrv, hnd⟩ := List.nodup_cons.mp hnd
    obtain ⟨s₁, hrun₁, h₁⟩ := run_answer hnd hrun fun srv' hmem => hsent srv' (List.mem_cons_of_mem _ hmem)
    obtain ⟨hord, hconn⟩ := h₁.rest srv hsrv
    obtain ⟨s₂, hrun₂, h₂⟩ : ∃ s₂, ReflTransGen (Step net clis) s₁ s₂ ∧ Answered id k e [srv] s₁ s₂ := by
      refine run_answer_one (h₁.runsOnce hrun) ?_
      rw [hconn]
      exact hsent srv (List.mem_cons_self ..)
    refine ⟨s₂, hrun₁.trans hrun₂, h₂.seq.trans h₁.seq, h₂.pc.trans h₁.pc,
      fun srv' => (h₂.pending srv').trans (h₁.pending srv'), fun srv' hmem => ?_, fun srv' hmem => ?_⟩
    · rcases List.mem_cons.mp hmem with rfl | hmem'
      · rw [← hord]
        exact h₂.done srv' (List.mem_singleton_self _)
      · have hne : srv' ≠ srv := by
          rintro rfl
          exact hsrv hmem'
        obtain ⟨ho, hc⟩ := h₂.rest srv' fun h => hne (List.mem_singleton.mp h)
        rw [ho, hc]
        exact h₁.done srv' hmem'
    · have hne : srv' ∉ [srv] := fun h => hmem (List.mem_cons.mpr (Or.inl (List.mem_singleton.mp h)))
      obtain ⟨ho, hc⟩ := h₂.rest srv' hne
      obtain ⟨ho', hc'⟩ := h₁.rest srv' fun h => hmem (List.mem_cons_of_mem _ h)
      exact ⟨ho.trans ho', hc.trans hc'⟩

theorem run_check : ∀ (todo : List DlServer) {s : Sys}, (s.clients id).pc = .looping .quorum e todo →
    ∃ s', ReflTransGen (Step net clis) s s' ∧ s'.order = s.order ∧
      (s'.clients id).seq = (s.clients id).seq ∧ (s'.clients id).pc = .looping .quorum e [] ∧
      ∀ srv, ((s'.clients id).conns srv).requests = ((s.clients id).conns srv).requests
  | [], s, hpc => ⟨s, .refl, rfl, rfl, hpc, fun _ => rfl⟩
  | srv :: todo, s, hpc => by
    have hstep : Step net clis s _ := .move id (.check hpc)
    generalize hcli : ({ (s.clients id).set srv (((s.clients id).conns srv).check .quorum) with
      pc := .looping .quorum e todo } : Cli) = cli at hstep
    obtain ⟨s', hrun, hord, hseq, hpc', hconn⟩ := run_check todo
      (show ((s.set id cli).clients id).pc = .looping .quorum e todo by
        simp only [Sys.set, Function.update_self, ← hcli])
    refine ⟨s', .head hstep hrun, hord, ?_, hpc', fun srv' => ?_⟩
    · rw [hseq]
      simp only [Sys.set, Function.update_self, ← hcli, Cli.set]
    · rw [hconn srv']
      simp only [Sys.set, Function.update_self, ← hcli, Cli.set]
      rcases eq_or_ne srv' srv with rfl | hne
      · rw [Function.update_self]
        simp only [Connection.check, Connection.checkPendingReq]
        split <;> [rfl; (split <;> rfl)]
      · rw [Function.update_of_ne hne]

theorem returns_of_complete (hclis : clis.Perm (dlServers n))
    (h : ∀ srv ∈ clis, (cli.conns srv).complete (cli.seq - 1) = true) : cli.returns clis .quorum = true := by
  have hp := h .primary (hclis.mem_iff.mpr (mem_dlServers.mpr trivial))
  have hcount := List.count_eq_length (a := true)
    (l := (clis.filter (· ≠ .primary)).map fun srv => (cli.conns srv).complete (cli.seq - 1)) |>.mpr fun q hq => by
      obtain ⟨srv, hsrv, rfl⟩ := List.mem_map.mp hq
      exact (h srv (List.mem_filter.mp hsrv).1).symm
  rw [List.length_map, length_backups hclis] at hcount
  unfold Cli.returns quorumCompleted
  simp only [hp, hcount, length_clis hclis, Bool.not_true, Bool.false_eq_true, if_false, le_refl, decide_true]

/-- **A whole call**, if the network delivers a request whose buffer does not change. -/
theorem run_call (hnet : ∀ b, net [b] b) (hclis : clis.Perm (dlServers n)) (hpc : (s.clients id).pc = .idle)
    {data : List UInt8} (he : Admissible (constructLogEntry id (s.clients id).seq data)) :
    ∃ s', ReflTransGen (Step net clis) s s' ∧ (s'.clients id).seq = (s.clients id).seq + 1 ∧
      (s'.clients id).pc = .idle ∧
      ∀ srv ∈ clis, s'.order srv = s.order srv ++
        [{ constructLogEntry id (s.clients id).seq data with flags := 0 }] := by
  have hnd : clis.Nodup := hclis.nodup_iff.mpr (nodup_dlServers n)
  obtain ⟨s₁, hrun₁, hord₁, hseq₁, hpc₁, hconn₁⟩ := run_invoke net hnd hpc he
  have harr : ∀ srv ∈ clis, Arrives net ((s₁.clients id).conns srv) (s.clients id).seq
      (constructLogEntry id (s.clients id).seq data) := by
    intro srv hsrv
    rw [hconn₁ srv hsrv]
    exact arrives_send hnet he.sized (show (1 : UInt16) ≠ 0 by decide)
  have honce : (s₁.clients id).RunsOnce := by
    have hprim : DlServer.primary ∈ clis := hclis.mem_iff.mpr (mem_dlServers.mpr trivial)
    obtain ⟨srv, todo, htodo⟩ := List.exists_cons_of_ne_nil (List.ne_nil_of_mem hprim)
    refine ⟨.quorum, _, srv, todo, by rw [hpc₁, htodo], fun _ => ?_⟩
    rw [hconn₁ srv (by rw [htodo]; exact List.mem_cons_self ..)]
    simp [Connection.send, Connection.addPendingReq]
  obtain ⟨s₂, hrun₂, h₂⟩ : ∃ s₂, ReflTransGen (Step net clis) s₁ s₂ ∧
      Answered id (s.clients id).seq (constructLogEntry id (s.clients id).seq data) clis s₁ s₂ :=
    run_answer hnd honce harr
  obtain ⟨s₃, hrun₃, hord₃, hseq₃, hpc₃, hreq₃⟩ : ∃ s₃, ReflTransGen (Step net clis) s₂ s₃ ∧ _ :=
    run_check clis (h₂.pc.trans hpc₁)
  have hseq : (s₃.clients id).seq = (s.clients id).seq + 1 := by rw [hseq₃, h₂.seq, hseq₁]
  have hret : (s₃.clients id).returns clis .quorum = true := by
    refine returns_of_complete hclis fun srv hsrv => decide_eq_true ?_
    rw [hreq₃, hseq, Nat.add_sub_cancel]
    exact (h₂.done srv hsrv).1
  have hlast : Step net clis s₃ _ := .ret id hpc₃ hret
  refine ⟨_, ((hrun₁.trans hrun₂).trans hrun₃).tail hlast, ?_, ?_, fun srv hsrv => ?_⟩
  · simp only [Sys.set, Function.update_self]
    exact hseq
  · simp only [Sys.set, Function.update_self]
  · simp only [Sys.set]
    rw [hord₃, (h₂.done srv hsrv).2, hord₁]

/-! ### The requests keep their entries -/

/-- **A request arrives with the entry of its call**, whenever the network reads the buffer. The clients as they are
programmed, with one request buffer for each connection that the next call writes again, do what they would do if
every request had a buffer of its own. No queue of tokens gets longer than two. -/
theorem requests_keep_entries (hnet : net.Delivers) (hclis : clis.Perm (dlServers n))
    (h : Reach Start (Step net clis) s) :
    (LazyLogCli.lts n).Reachable s.abs ∧
    (∀ id srv k m, ((s.clients id).conns srv).requests k = some .sent →
      net (((s.clients id).conns srv).seen k) m → ∃ call, (s.clients id).call = some call ∧
        appendEntryHandler m.buf = { call.entry with flags := 0 }) ∧
    ∀ id srv, ((s.clients id).conns srv).pendingReqs.length ≤ 2 := by
  have hI := inv_of_reach hnet hclis h
  refine ⟨reachable_abs hnet hclis h, fun id srv k m hr hm => ?_, length_pendingReqs hI⟩
  obtain ⟨-, mode, e, hcall, hs, hf, hseen⟩ := (hI id).1.request hr (by rintro ⟨⟩)
  exact ⟨_, hcall, appendEntryHandler_of_carries (hnet.carries hm hseen) hs hf⟩

/-- A network that reads the buffer when the request is handled. -/
def readLate : Network := fun bufs m => bufs.getLast? = some m

theorem delivers_readLate : readLate.Delivers where
  size h := ⟨_, List.mem_of_getLast? h, rfl⟩
  byte h _ _ := ⟨_, List.mem_of_getLast? h, rfl⟩

/-- The clients have just been started. -/
def fresh : Sys :=
  ⟨fun _ => ⟨0, .idle, fun _ => ⟨⟨fun _ => 0, 0⟩, fun _ => none, fun _ => [], []⟩⟩, fun _ => [], []⟩

/-- Two calls of one client, through the same three buffers. -/
theorem requests_keep_entries_late : ∃ s, Reach Start (Step readLate [.backup 0, .primary, .backup 1]) s ∧
    (s.clients 7).seq = 2 ∧ (s.clients 7).pc = .idle ∧
    (∀ srv ∈ [DlServer.backup 0, .primary, .backup 1], s.order srv =
      [{ constructLogEntry 7 0 [5] with flags := 0 }, { constructLogEntry 7 1 [6, 8] with flags := 0 }]) ∧
    (LazyLogCli.lts 2).Reachable s.abs := by
  have hclis : [DlServer.backup 0, .primary, .backup 1].Perm (dlServers 2) := by decide
  have hself : ∀ b, readLate [b] b := fun _ => rfl
  have he₁ : Admissible (constructLogEntry 7 (fresh.clients 7).seq [5]) := ⟨rfl, by decide⟩
  have he₂ : Admissible (constructLogEntry 7 1 [6, 8]) := ⟨rfl, by decide⟩
  have h₀ : Reach Start (Step readLate [.backup 0, .primary, .backup 1]) fresh :=
    .start ⟨fun _ => ⟨rfl, rfl, fun _ => ⟨rfl, rfl⟩⟩, rfl, rfl⟩
  obtain ⟨s₁, hrun₁, hseq₁, hpc₁, hord₁⟩ := run_call hself hclis (s := fresh) rfl he₁
  have hone : (s₁.clients 7).seq = 1 := hseq₁
  rw [← hone] at he₂
  obtain ⟨s₂, hrun₂, hseq₂, hpc₂, hord₂⟩ := run_call hself hclis hpc₁ he₂
  rw [hone] at hseq₂ hord₂
  have h₂ := (h₀.run hrun₁).run hrun₂
  refine ⟨s₂, h₂, hseq₂, hpc₂, fun srv hsrv => ?_, (requests_keep_entries delivers_readLate hclis h₂).1⟩
  rw [hord₂ srv hsrv, hord₁ srv hsrv]
  rfl

end LazyLog.Client.Buffers
