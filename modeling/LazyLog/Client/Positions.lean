import LazyLog.DurLog.Ring
import LazyLog.Client.LazyLogCli

/-! # The numbers that `AppendEntry` returns (`client/lazylog_cli`)

`LazyLogClient::AppendEntry` goes from one server to the next, in any order. Each server answers with the place of the
entry in bytes, and the client divides it by 40: the number of the primary comes first, the others follow in the order
of their answers.

A server gives an entry its place and its index together, so the place is the sum of the sizes of the entries before
it (`Placed`). It gives the index exactly if these take 40 bytes each on average, rounded down (`ByForty`). -/

namespace LazyLog.Client.Positions

open LazyLog.Lib.Bytes LazyLog.Lib.Tiling LazyLog.Lib.Run LazyLog.Rpc.Entry LazyLog.DurLog.Flat LazyLog.DurLog.Ranges
open LazyLog.DurLog.Ring (appendStep_complete append append_steps append_counters getElem?_last)
open LazyLog.Client.LazyLogCli hiding Step Start Call Inv

/-! ### The system -/

/-- A number of `sequence_nums`: the server, its call of `AppendEntry`, and the number. -/
structure Answer where
  srv : DlServer
  slot : ℕ
  num : ℕ

/-- `sequence_nums` with one number more. -/
def addAnswer (sequenceNums : List Answer) (a : Answer) : List Answer :=
  if a.srv = .primary then a :: sequenceNums else sequenceNums ++ [a]

/-- A call of `LazyLogClient::AppendEntry`: the servers that have not answered, and the call of `AppendEntry` on the
first of them when the request is there. -/
structure Call where
  entry : LogEntry
  durServs : List DlServer
  slot : Option ℕ
  sequenceNums : List Answer

/-- A call that has returned. -/
structure Returned where
  entry : LogEntry
  sequenceNums : List Answer

/-- The servers, and the clients. The calls that have returned are a history. -/
structure Sys (κ : Type*) where
  servers : DlServer → State
  calls : κ → Option Call
  returned : List Returned

/-- A server at work: calls of `AppendEntry` for entries of any size, at any pace, and writes of the watermarks. -/
inductive ServerStep (c : Config) : State → State → Prop
  | reserve {v : State} (e : LogEntry) : ServerStep c v (v.reserve c e)
  | proceed {v v' : State} {i : ℕ} (h : AppendStep c i v v') (hi : i < v.slots.length) : ServerStep c v v'
  | setWatermk {v : State} (w wi : ℕ) : ServerStep c v (v.setWatermk w wi)

variable {κ : Type*}

/-- Everything has just been started. -/
def Start (s : Sys κ) : Prop :=
  (∀ srv, DurLog.Flat.Init (s.servers srv)) ∧ s.calls = (fun _ => none) ∧ s.returned = []

/-- One step. The servers take steps of their own: calls go on, and others append. An entry satisfies the assertion of
`Serializer`. -/
inductive Step [DecidableEq κ] (c : DlServer → Config) (n : ℕ) : Sys κ → Sys κ → Prop
  | server {s : Sys κ} {v : State} (srv : DlServer) (h : ServerStep (c srv) (s.servers srv) v) :
    Step c n s { s with servers := Function.update s.servers srv v }
  | invoke {s : Sys κ} (k : κ) (clientId : UInt64) (seq : ℕ) (data : List UInt8) (durServs : List DlServer)
    (hc : s.calls k = none) (hsize : (constructLogEntry clientId seq data).Sized)
    (hperm : durServs.Perm (dlServers n)) :
    Step c n s { s with
      calls := Function.update s.calls k (some ⟨constructLogEntry clientId seq data, durServs, none, []⟩) }
  | append {s : Sys κ} {call : Call} {srv : DlServer} {rest : List DlServer} (k : κ) (buf : Mem)
    (hc : s.calls k = some call) (hsrv : call.durServs = srv :: rest) (hslot : call.slot = none) :
    Step c n s { s with
      servers := Function.update s.servers srv
        ((s.servers srv).reserve (c srv) (appendEntryHandler (serializer call.entry buf 0).1))
      calls := Function.update s.calls k (some { call with slot := some (s.servers srv).slots.length }) }
  | answer {s : Sys κ} {call : Call} {srv : DlServer} {rest : List DlServer} {i : ℕ} {t : Slot} (k : κ)
    (hc : s.calls k = some call) (hsrv : call.durServs = srv :: rest) (hslot : call.slot = some i)
    (ht : (s.servers srv).slots[i]? = some t) (hst : t.stage = .returned) :
    Step c n s { s with
      calls := Function.update s.calls k (some { call with
        durServs := rest, slot := none, sequenceNums := addAnswer call.sequenceNums ⟨srv, i, t.seq / 40⟩ }) }
  | ret {s : Sys κ} {call : Call} (k : κ) (hc : s.calls k = some call) (hdone : call.durServs = []) :
    Step c n s { s with
      calls := Function.update s.calls k none
      returned := s.returned ++ [⟨call.entry, call.sequenceNums⟩] }

/-! ### What the numbers are for -/

/-- The answers of a call that has returned: one of each server, the primary's first, and each for the entry of the
call, which has the index `a.slot` there. -/
structure Answers (c : DlServer → Config) (n : ℕ) (s : Sys κ) (r : Returned) : Prop where
  servers : (r.sequenceNums.map Answer.srv).Perm (dlServers n)
  first : (r.sequenceNums.map Answer.srv).head? = some .primary
  placed : ∀ a ∈ r.sequenceNums, ∃ t, (s.servers a.srv).slots[a.slot]? = some t ∧ t.idx = a.slot ∧
    t.e = stamp (c a.srv) t.idx { r.entry with flags := 0 }

/-- **The numbers are the indices** that the servers gave the entry. -/
def Reports (s : Sys κ) : Prop := ∀ r ∈ s.returned, ∀ a ∈ r.sequenceNums, a.num = a.slot

/-- The entries before each of these take 40 bytes on average, rounded down. -/
def ByForty (s : Sys κ) : Prop := ∀ r ∈ s.returned, ∀ a ∈ r.sequenceNums,
  40 * a.slot ≤ pos getSize (s.servers a.srv).entries a.slot ∧
    pos getSize (s.servers a.srv).entries a.slot < 40 * (a.slot + 1)

/-! ### A server -/

variable {cfg : Config} {v v' : State}

/-- **Place and index go together.** -/
structure Placed (v : State) : Prop where
  sequencer : v.log.sequencer = (v.entries.map getSize).sum
  indexer : v.log.indexer = v.slots.length
  seq : ∀ {i : ℕ} {t : Slot}, v.slots[i]? = some t → t.seq = pos getSize v.entries i
  idx : ∀ {i : ℕ} {t : Slot}, v.slots[i]? = some t → t.idx = i

theorem length_entries (v : State) : v.entries.length = v.slots.length := List.length_map _

theorem Placed.init (h : DurLog.Flat.Init v) : Placed v := by
  obtain ⟨hf, hn⟩ := h
  refine ⟨?_, ?_, fun ht => ?_, fun ht => ?_⟩
  · rw [hf.sequencer, State.entries, hn]
    rfl
  · rw [hf.indexer, hn]
    rfl
  · simp [hn] at ht
  · simp [hn] at ht

theorem Placed.reserve (h : Placed v) (e : LogEntry) : Placed (v.reserve cfg e) := by
  have hlen := length_entries v
  refine ⟨?_, ?_, fun ht => ?_, fun ht => ?_⟩
  · rw [entries_reserve, List.map_append, List.sum_append, ← h.sequencer]
    rfl
  · simp [State.reserve, DurLog.Flat.reserve, h.indexer]
  · rcases slots_reserve_cases ht with ⟨rfl, rfl⟩ | hold
    · rw [entries_reserve, pos_append_of_le hlen.ge, pos_of_length_le hlen.le]
      exact h.sequencer
    · have hi := (List.getElem?_eq_some_iff.mp hold).1
      rw [entries_reserve, pos_append_of_le (by omega), h.seq hold]
  · rcases slots_reserve_cases ht with ⟨rfl, rfl⟩ | hold
    · exact h.indexer
    · exact h.idx hold

theorem Placed.put (h : Placed v) {i : ℕ} {t : Slot} (ht : v.slots[i]? = some t) (st : Stage) {l : FlatLog}
    (hseq : l.sequencer = v.log.sequencer) (hidx : l.indexer = v.log.indexer) : Placed (v.put i t st l) := by
  refine ⟨?_, ?_, fun {j u} hu => ?_, fun {j u} hu => ?_⟩
  · rw [entries_put ht]
    exact hseq.trans h.sequencer
  · simpa [State.put] using hidx.trans h.indexer
  · rw [entries_put ht]
    rcases slots_put_cases ht hu with ⟨rfl, rfl⟩ | ⟨-, hu⟩
    · have hold := h.seq ht
      exact hold
    · exact h.seq hu
  · rcases slots_put_cases ht hu with ⟨rfl, rfl⟩ | ⟨-, hu⟩
    · have hold := h.idx ht
      exact hold
    · exact h.idx hu

theorem Placed.step (h : Placed v) (hs : ServerStep cfg v v') : Placed v' := by
  cases hs with
  | reserve e => exact h.reserve e
  | proceed hstep hi =>
    obtain ⟨t, st, l, ht, rfl, -, hseq, -, hidx, -⟩ := appendStep_complete hstep hi
    exact h.put ht st hseq hidx
  | setWatermk w wi => exact ⟨h.sequencer, h.indexer, h.seq, h.idx⟩

/-- What a call has been given stays. -/
def Grows (v v' : State) : Prop :=
  ∀ (i : ℕ) (t : Slot), v.slots[i]? = some t →
    ∃ t' : Slot, v'.slots[i]? = some t' ∧ t'.e = t.e ∧ t'.seq = t.seq ∧ t'.idx = t.idx

theorem ServerStep.grows (hs : ServerStep cfg v v') : Grows v v' := by
  intro i t ht
  cases hs with
  | reserve e => exact ⟨t, (List.getElem?_append_left (List.getElem?_eq_some_iff.mp ht).1).trans ht, rfl, rfl, rfl⟩
  | @proceed _ j hstep hj =>
    obtain ⟨u, st, l, hu, rfl, -⟩ := appendStep_complete hstep hj
    rcases eq_or_ne i j with rfl | hne
    · obtain rfl := Option.some.inj (ht.symm.trans hu)
      exact ⟨_, slots_put_self hu st l, rfl, rfl, rfl⟩
    · exact ⟨t, (slots_put_ne hne u st l).trans ht, rfl, rfl, rfl⟩
  | setWatermk w wi => exact ⟨t, ht, rfl, rfl, rfl⟩

theorem Grows.rfl : Grows v v := fun _ t ht => ⟨t, ht, Eq.refl _, Eq.refl _, Eq.refl _⟩

/-! ### The invariant -/

variable {c : DlServer → Config} {n : ℕ} {s s' : Sys κ} {servers servers' : DlServer → State} {call : Call}

/-- The server has given the entry a place. -/
def Held (c : DlServer → Config) (servers : DlServer → State) (e : LogEntry) (srv : DlServer) (i : ℕ) : Prop :=
  ∃ t, (servers srv).slots[i]? = some t ∧ t.e = stamp (c srv) t.idx { e with flags := 0 }

/-- The server has answered with this place. -/
def Answered (c : DlServer → Config) (servers : DlServer → State) (e : LogEntry) (a : Answer) : Prop :=
  ∃ t, (servers a.srv).slots[a.slot]? = some t ∧ t.e = stamp (c a.srv) t.idx { e with flags := 0 } ∧
    a.num = t.seq / 40

/-- The primary is in front once it is there. -/
def PrimaryFirst (sequenceNums : List Answer) : Prop :=
  .primary ∈ sequenceNums.map Answer.srv → (sequenceNums.map Answer.srv).head? = some .primary

/-- A call on its way. -/
structure CallInv (c : DlServer → Config) (n : ℕ) (servers : DlServer → State) (call : Call) : Prop where
  sized : call.entry.Sized
  flags : call.entry.flags ≠ 0
  perm : (call.sequenceNums.map Answer.srv ++ call.durServs).Perm (dlServers n)
  first : PrimaryFirst call.sequenceNums
  slot : ∀ {i srv rest}, call.slot = some i → call.durServs = srv :: rest → Held c servers call.entry srv i
  answers : ∀ a ∈ call.sequenceNums, Answered c servers call.entry a

/-- A call that has returned. -/
structure ReturnedInv (c : DlServer → Config) (n : ℕ) (servers : DlServer → State) (r : Returned) : Prop where
  perm : (r.sequenceNums.map Answer.srv).Perm (dlServers n)
  first : PrimaryFirst r.sequenceNums
  answers : ∀ a ∈ r.sequenceNums, Answered c servers r.entry a

/-- **The invariant.** -/
structure Inv (c : DlServer → Config) (n : ℕ) (s : Sys κ) : Prop where
  placed : ∀ srv, Placed (s.servers srv)
  calls : ∀ {k call}, s.calls k = some call → CallInv c n s.servers call
  returned : ∀ r ∈ s.returned, ReturnedInv c n s.servers r

theorem Held.mono (hg : ∀ srv, Grows (servers srv) (servers' srv)) {e : LogEntry} {srv : DlServer} {i : ℕ}
    (h : Held c servers e srv i) : Held c servers' e srv i := by
  obtain ⟨t, ht, he⟩ := h
  obtain ⟨t', ht', he', -, hidx⟩ := hg srv _ _ ht
  exact ⟨t', ht', by rw [he', hidx, he]⟩

theorem Answered.mono (hg : ∀ srv, Grows (servers srv) (servers' srv)) {e : LogEntry} {a : Answer}
    (h : Answered c servers e a) : Answered c servers' e a := by
  obtain ⟨t, ht, he, hnum⟩ := h
  obtain ⟨t', ht', he', hseq, hidx⟩ := hg a.srv _ _ ht
  exact ⟨t', ht', by rw [he', hidx, he], by rw [hseq, hnum]⟩

theorem CallInv.mono (hg : ∀ srv, Grows (servers srv) (servers' srv)) (h : CallInv c n servers call) :
    CallInv c n servers' call :=
  ⟨h.sized, h.flags, h.perm, h.first, fun hi hsrv => (h.slot hi hsrv).mono hg,
    fun a ha => (h.answers a ha).mono hg⟩

theorem ReturnedInv.mono (hg : ∀ srv, Grows (servers srv) (servers' srv)) {r : Returned}
    (h : ReturnedInv c n servers r) : ReturnedInv c n servers' r :=
  ⟨h.perm, h.first, fun a ha => (h.answers a ha).mono hg⟩

theorem grows_update {srv : DlServer} (h : Grows (servers srv) v) (srv' : DlServer) :
    Grows (servers srv') (Function.update servers srv v srv') := by
  rcases eq_or_ne srv' srv with rfl | hne
  · rw [Function.update_self]
    exact h
  · rw [Function.update_of_ne hne]
    exact .rfl

theorem Inv.server (h : Inv c n s) {srv : DlServer} (hs : ServerStep (c srv) (s.servers srv) v) :
    Inv c n { s with servers := Function.update s.servers srv v } := by
  have hg := grows_update hs.grows
  refine ⟨fun srv' => ?_, fun hc => (h.calls hc).mono hg, fun r hr => (h.returned r hr).mono hg⟩
  rcases eq_or_ne srv' srv with rfl | hne
  · dsimp only
    rw [Function.update_self]
    exact (h.placed srv').step hs
  · dsimp only
    rw [Function.update_of_ne hne]
    exact h.placed srv'

theorem Inv.updateCall [DecidableEq κ] (h : Inv c n s) (k : κ) {o : Option Call}
    (hcall : ∀ {call}, o = some call → CallInv c n s.servers call) :
    Inv c n { s with calls := Function.update s.calls k o } := by
  refine ⟨h.placed, fun {k' call'} hc => ?_, h.returned⟩
  dsimp only at hc
  rcases eq_or_ne k' k with rfl | hne
  · rw [Function.update_self] at hc
    exact hcall hc
  · rw [Function.update_of_ne hne] at hc
    exact h.calls hc

theorem Inv.setCall [DecidableEq κ] (h : Inv c n s) (k : κ) (hcall : CallInv c n s.servers call) :
    Inv c n { s with calls := Function.update s.calls k (some call) } := by
  refine h.updateCall k fun {call'} heq => ?_
  obtain rfl := Option.some.inj heq
  exact hcall

theorem PrimaryFirst.addAnswer {nums : List Answer} (h : PrimaryFirst nums) (a : Answer) :
    PrimaryFirst (addAnswer nums a) := by
  unfold PrimaryFirst Positions.addAnswer at *
  split_ifs with hp
  · intro _
    rw [List.map_cons, List.head?_cons, hp]
  · intro hmem
    rw [List.map_append, List.mem_append] at hmem
    have hold : DlServer.primary ∈ nums.map Answer.srv := by
      refine hmem.resolve_right fun hnew => ?_
      exact hp (List.mem_singleton.mp hnew).symm
    rw [List.map_append, List.head?_append, h hold]
    rfl

theorem mem_addAnswer {nums : List Answer} {a b : Answer} : b ∈ addAnswer nums a ↔ b ∈ nums ∨ b = a := by
  unfold addAnswer
  split_ifs
  · rw [List.mem_cons, or_comm]
  · rw [List.mem_append, List.mem_singleton]

theorem perm_addAnswer (nums : List Answer) (a : Answer) : (addAnswer nums a).Perm (nums ++ [a]) := by
  unfold addAnswer
  split_ifs
  · exact (List.perm_append_singleton a nums).symm
  · exact .refl _

theorem CallInv.answer (h : CallInv c n servers call) {srv : DlServer} {rest : List DlServer} {i : ℕ} {t : Slot}
    (hsrv : call.durServs = srv :: rest) (hslot : call.slot = some i) (ht : (servers srv).slots[i]? = some t) :
    CallInv c n servers { call with
      durServs := rest, slot := none, sequenceNums := addAnswer call.sequenceNums ⟨srv, i, t.seq / 40⟩ } := by
  refine ⟨h.sized, h.flags, ?_, h.first.addAnswer _, nofun, fun a ha => ?_⟩
  · have hperm := h.perm
    rw [hsrv] at hperm
    refine List.Perm.trans ?_ hperm
    have hmap := ((perm_addAnswer call.sequenceNums ⟨srv, i, t.seq / 40⟩).map Answer.srv).append_right rest
    rwa [List.map_append, List.append_assoc] at hmap
  · rcases mem_addAnswer.mp ha with ha | rfl
    · exact h.answers a ha
    · obtain ⟨t', ht', he⟩ := h.slot hslot hsrv
      obtain rfl := Option.some.inj (ht.symm.trans ht')
      exact ⟨t, ht, he, rfl⟩

/-- **One step keeps the invariant.** -/
theorem Step.inv [DecidableEq κ] (hs : Step c n s s') (h : Inv c n s) : Inv c n s' := by
  cases hs with
  | server srv hserver => exact h.server hserver
  | invoke k clientId seq data durServs hc hsize hperm =>
    refine h.setCall k ⟨hsize, ?_, hperm, nofun, nofun, nofun⟩
    exact (by decide : (1 : UInt16) ≠ 0)
  | @append call srv rest k buf hc hsrv hslot =>
    have hserver : ServerStep (c srv) (s.servers srv) _ :=
      .reserve (appendEntryHandler (serializer call.entry buf 0).1)
    have hcall := (h.calls hc).mono (grows_update hserver.grows)
    refine (h.server hserver).setCall k ⟨hcall.sized, hcall.flags, hcall.perm, hcall.first, ?_, hcall.answers⟩
    -- the new call on the server is the last one
    intro i srv' rest' hi hsrv'
    obtain rfl := Option.some.inj hi
    obtain ⟨rfl, -⟩ := List.cons.inj (hsrv.symm.trans hsrv')
    have hentry := appendEntryHandler_serializer hcall.sized hcall.flags buf
    refine ⟨⟨_, (s.servers srv).log.sequencer, (s.servers srv).log.indexer, .reserved⟩, ?_,
      congrArg (stamp (c srv) _) hentry⟩
    dsimp only
    rw [Function.update_self]
    exact List.getElem?_concat_length
  | answer k hc hsrv hslot ht hst => exact h.setCall k ((h.calls hc).answer hsrv hslot ht)
  | @ret call k hc hdone =>
    have hcall := h.calls hc
    have hperm := hcall.perm
    rw [hdone, List.append_nil] at hperm
    refine ⟨h.placed, (h.updateCall k (o := none) nofun).calls, List.forall_mem_append.mpr ⟨h.returned, ?_⟩⟩
    exact List.forall_mem_singleton.mpr ⟨hperm, hcall.first, hcall.answers⟩

theorem inv_start (h : Start s) : Inv c n s := by
  obtain ⟨hservers, hcalls, hret⟩ := h
  refine ⟨fun srv => .init (hservers srv), fun {k call} hc => ?_, fun r hr => ?_⟩
  · rw [hcalls] at hc
    cases hc
  · rw [hret] at hr
    cases hr

theorem inv_of_reach [DecidableEq κ] (h : Reach Start (Step c n) s) : Inv c n s :=
  h.invariant (fun _ => inv_start) fun _ _ _ hinv hs => hs.inv hinv

/-! ### The numbers -/

theorem Inv.answers (h : Inv c n s) {r : Returned} (hr : r ∈ s.returned) : Answers c n s r := by
  have hret := h.returned r hr
  refine ⟨hret.perm, hret.first (hret.perm.mem_iff.mpr List.mem_cons_self), fun a ha => ?_⟩
  obtain ⟨t, ht, he, -⟩ := hret.answers a ha
  exact ⟨t, ht, (h.placed a.srv).idx ht, he⟩

theorem Inv.num_eq (h : Inv c n s) {r : Returned} (hr : r ∈ s.returned) {a : Answer} (ha : a ∈ r.sequenceNums) :
    a.num = pos getSize (s.servers a.srv).entries a.slot / 40 := by
  obtain ⟨t, ht, -, hnum⟩ := (h.returned r hr).answers a ha
  rw [hnum, (h.placed a.srv).seq ht]

/-- **The numbers that `AppendEntry` returns.** In every run each call returns one number of each server, that of the
primary first; and the numbers are the indices that the servers gave the entries exactly if the entries before each of
them take 40 bytes on average, rounded down. -/
theorem append_reports_positions_iff [DecidableEq κ] (h : Reach Start (Step c n) s) :
    (∀ r ∈ s.returned, Answers c n s r) ∧ (Reports s ↔ ByForty s) := by
  have hinv := inv_of_reach h
  refine ⟨fun r hr => hinv.answers hr, forall₂_congr fun r hr => forall₂_congr fun a ha => ?_⟩
  rw [hinv.num_eq hr ha]
  omega

/-! ### Whole calls, without backups -/

/-- The system after a whole call on the primary. -/
def appended (c : DlServer → Config) (s : Sys κ) (clientId : UInt64) (seq : ℕ) (data : List UInt8) : Sys κ :=
  let e := constructLogEntry clientId seq data
  let v := s.servers .primary
  { servers := Function.update s.servers .primary (append (c .primary) v { e with flags := 0 })
    calls := s.calls
    returned := s.returned ++ [⟨e, [⟨.primary, v.slots.length, v.log.sequencer / 40⟩]⟩] }

/-- The system while client `k` is in a call, the primary being in the state `v`. -/
def during [DecidableEq κ] (s : Sys κ) (k : κ) (v : State) (call : Call) : Sys κ :=
  ⟨Function.update s.servers .primary v, Function.update s.calls k (some call), s.returned⟩

section During
variable [DecidableEq κ] {k : κ}

theorem during_servers : (during s k v call).servers .primary = v := by
  simp [during]

theorem during_calls : (during s k v call).calls k = some call := by
  simp [during]

theorem step_during (h : ServerStep (c .primary) v v') : Step c n (during s k v call) (during s k v' call) := by
  have hstep := Step.server (n := n) (s := during s k v call) .primary (by rwa [during_servers])
  unfold during at hstep ⊢
  rwa [Function.update_idem] at hstep

theorem reach_appended (hr : Reach Start (Step c 0) s) (hk : s.calls k = none) {clientId : UInt64} {seq : ℕ}
    {data : List UInt8} (hsize : (constructLogEntry clientId seq data).Sized) :
    Reach Start (Step c 0) (appended c s clientId seq data) := by
  generalize hv : s.servers .primary = v
  have hinvoke : Reach Start (Step c 0)
      (during s k v ⟨constructLogEntry clientId seq data, [.primary], none, []⟩) := by
    have hstep := hr.next (.invoke k clientId seq data [.primary] hk hsize (.refl _))
    unfold during
    rwa [← hv, Function.update_eq_self]
  have happend : Reach Start (Step c 0) (during s k
      (v.reserve (c .primary) { constructLogEntry clientId seq data with flags := 0 })
      ⟨constructLogEntry clientId seq data, [.primary], some v.slots.length, []⟩) := by
    have hstep := hinvoke.next (.append k (fun _ => 0) during_calls rfl rfl)
    rw [during_servers, appendEntryHandler_serializer hsize (by decide : (1 : UInt16) ≠ 0)] at hstep
    unfold during at hstep ⊢
    rwa [Function.update_idem, Function.update_idem] at hstep
  have hdone := happend.run ((append_steps ServerStep.proceed .refl).lift (during s k · _) fun _ _ => step_during)
  have hanswer := hdone.next (.answer k during_calls rfl rfl (by rw [during_servers]; exact getElem?_last) rfl)
  have hret := hanswer.next (.ret k (Function.update_self ..) rfl)
  have hcalls : Function.update s.calls k none = s.calls := by rw [← hk, Function.update_eq_self]
  unfold during at hret
  unfold appended
  rw [hv]
  simpa [hcalls, addAnswer] using hret

end During

/-- A primary that has just been started, and a client. -/
def alone : Sys Unit := ⟨fun _ => ⟨.zeroed, []⟩, fun _ => none, []⟩

/-- Two calls with the same data. -/
def twoAppends (data : List UInt8) : Sys Unit :=
  appended (fun _ => .smallPrimary) (appended (fun _ => .smallPrimary) alone 1 0 data) 1 1 data

theorem reach_twoAppends {data : List UInt8} (hlen : data.length < 2 ^ 32) :
    Reach Start (Step (fun _ => .smallPrimary) 0) (twoAppends data) := by
  have hsize : ∀ seq, (constructLogEntry 1 seq data).Sized := fun seq => Nat.mod_eq_of_lt hlen
  have hstart : Reach Start (Step (fun _ => .smallPrimary) 0) alone :=
    .start ⟨fun _ => ⟨FlatLog.zeroed_fresh, rfl⟩, rfl, rfl⟩
  exact reach_appended (k := ()) (reach_appended (k := ()) hstart rfl (hsize 0)) rfl (hsize 1)

/-- Entries of 8 bytes of data take 40 bytes. -/
theorem append_reports_positions_iff_eight : Reports (twoAppends (List.replicate 8 0)) := by
  refine (append_reports_positions_iff (reach_twoAppends (by decide))).2.mpr fun r hr a ha => ?_
  rcases List.mem_append.mp hr with hr | hr
  · obtain rfl := List.mem_singleton.mp hr
    obtain rfl := List.mem_singleton.mp ha
    decide
  · obtain rfl := List.mem_singleton.mp hr
    obtain rfl := List.mem_singleton.mp ha
    decide

/-- **Entries without data take 32 bytes**: the second one has the index 1, and the number returned is 0. -/
theorem twoAppends_not_reports :
    Reach Start (Step (fun _ => .smallPrimary) 0) (twoAppends []) ∧ ¬ Reports (twoAppends []) := by
  refine ⟨reach_twoAppends (by decide), fun h => ?_⟩
  have hnum := h _ (List.mem_append_right _ (List.mem_singleton.mpr rfl)) _ (List.mem_singleton.mpr rfl)
  exact absurd hnum (by decide)

end LazyLog.Client.Positions
