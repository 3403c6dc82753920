import LazyLog.Lib.Run
import LazyLog.Client.LazyLogCli

/-! # Client ids and request ids (`client/lazylog_cli`)

A `LazyLogClient` takes its id from a counter of its process and adds the address of its host in `Initialize`. The
address is shifted by six bits as a number of 32 bits, so that its upper six bits are lost, and each host has 64 ids
before those of the next address begin.

The ids tell the clients apart exactly if the ranges of ids that the hosts use do not meet (`Room`), and then the
request ids tell the entries apart, as long as no client makes more than `2 ^ 64` of them. -/

namespace LazyLog.Client.ClientIds

open LazyLog.Lib.Run LazyLog.Lib.Streams LazyLog.Rpc.Entry LazyLog.Client.LazyLogCli

/-! ### The processes -/

/-- A `LazyLogClient`: `client_id_`, what `seq_` has counted, and whether `Initialize` has been called. -/
structure Obj where
  clientId : UInt64
  seq : ℕ
  initialized : Bool

/-- A client process: `global_cli_id_`, and its clients in the order of their construction. -/
structure Process where
  globalCliId : UInt64
  objs : List Obj

/-- A process that has just been started. -/
def Process.start : Process := ⟨1, []⟩

/-- The default constructor of `LazyLogClient`. -/
def Process.construct (p : Process) : Process :=
  { globalCliId := p.globalCliId + 1, objs := p.objs ++ [⟨p.globalCliId, 0, false⟩] }

/-- `Initialize`; `addr` is `ntohl(addr.s_addr)`, which has 32 bits when it is shifted. -/
def Obj.initializeClient (o : Obj) (addr : UInt32) : Obj :=
  { o with clientId := o.clientId + (addr <<< 6).toUInt64, initialized := true }

/-- An entry that has been constructed: the host and the place of its client, its number, and the entry. -/
structure Made (ι : Type*) where
  client : ι × ℕ
  num : ℕ
  entry : LogEntry

/-- The processes by their hosts. The entries are a history. -/
structure Sys (ι : Type*) where
  procs : ι → Process
  made : List (Made ι)

variable {ι : Type*}

/-- All processes have just been started. -/
def Start (s : Sys ι) : Prop := s = ⟨fun _ => .start, []⟩

/-- The client at a place of a host. -/
def Sys.obj (s : Sys ι) (c : ι × ℕ) : Option Obj := (s.procs c.1).objs[c.2]?

/-- How far the client at a place has counted. -/
def Sys.seqOf (s : Sys ι) (c : ι × ℕ) : ℕ := (s.obj c).elim 0 Obj.seq

variable {addr : ι → UInt32} {s s' : Sys ι} {c : ι × ℕ} {o o' : Obj}

theorem seqOf_eq (h : s.obj c = some o) : s.seqOf c = o.seq := by
  unfold Sys.seqOf
  rw [h]
  rfl

theorem lt_of_obj (h : s.obj c = some o) : c.2 < (s.procs c.1).objs.length :=
  (List.getElem?_eq_some_iff.mp h).1

theorem objs_ne_nil (h : s.obj c = some o) : (s.procs c.1).objs ≠ [] :=
  List.ne_nil_of_length_pos (Nat.zero_lt_of_lt (lt_of_obj h))

theorem exists_obj {h : ι} {k : ℕ} (hk : k < (s.procs h).objs.length) : ∃ o, s.obj (h, k) = some o :=
  ⟨_, List.getElem?_eq_getElem hk⟩

variable [DecidableEq ι]

/-- The processes when the client at a place has changed. -/
def Sys.setObj (s : Sys ι) (c : ι × ℕ) (o : Obj) : ι → Process :=
  Function.update s.procs c.1 { s.procs c.1 with objs := (s.procs c.1).objs.set c.2 o }

/-- One step of a process. -/
inductive Step (addr : ι → UInt32) : Sys ι → Sys ι → Prop
  | construct {s : Sys ι} (h : ι) :
    Step addr s { s with procs := Function.update s.procs h (s.procs h).construct }
  | initializeClient {s : Sys ι} {o : Obj} (c : ι × ℕ) (ho : s.obj c = some o) (hi : o.initialized = false) :
    Step addr s { s with procs := s.setObj c (o.initializeClient (addr c.1)) }
  | constructLogEntry {s : Sys ι} {o : Obj} (c : ι × ℕ) (data : List UInt8) (ho : s.obj c = some o)
    (hi : o.initialized = true) :
    Step addr s
      { procs := s.setObj c { o with seq := o.seq + 1 }
        made := s.made ++ [⟨c, o.seq, constructLogEntry o.clientId o.seq data⟩] }

/-! ### What the ids are for -/

/-- The client has been initialized. -/
def Sys.Ready (s : Sys ι) (c : ι × ℕ) (o : Obj) : Prop := s.obj c = some o ∧ o.initialized = true

/-- **Request ids identify appends**: no two clients have the same id, none has the id 0, and no two entries have the
same request id. -/
structure Identified (s : Sys ι) : Prop where
  distinct : ∀ {c c' o o'}, s.Ready c o → s.Ready c' o' → o.clientId = o'.clientId → c = c'
  nonzero : ∀ {c o}, s.Ready c o → o.clientId ≠ 0
  reqIds : (s.made.map fun m => m.entry.reqId).Nodup

/-- What the shift leaves of an address: its lower 26 bits. -/
def low (addr : UInt32) : ℕ := addr.toNat % 2 ^ 26

/-- **The ranges of ids do not meet.** A host has 64 ids up to the next address, by the lower bits; the ids do not
wrap, nor do the numbers of the entries. -/
structure Room (addr : ι → UInt32) (s : Sys ι) : Prop where
  apart : ∀ {h h'}, h ≠ h' → (s.procs h).objs ≠ [] → (s.procs h').objs ≠ [] → low (addr h) ≤ low (addr h') →
    (s.procs h).objs.length ≤ 64 * (low (addr h') - low (addr h))
  inRange : ∀ {h}, (s.procs h).objs ≠ [] → (s.procs h).objs.length + 64 * low (addr h) < 2 ^ 64
  seqs : ∀ {c} {o : Obj}, s.obj c = some o → o.seq ≤ 2 ^ 64

/-! ### The ids -/

/-- The id of client `k` of a host. -/
def idOf (addr : UInt32) (k : ℕ) : UInt64 := UInt64.ofNat (k + 1) + (addr <<< 6).toUInt64

theorem toNat_shift (addr : UInt32) : (addr <<< 6).toUInt64.toNat = 64 * low addr := by
  have hsh : (addr <<< 6).toNat = addr.toNat <<< 6 % 2 ^ 32 := by
    rw [UInt32.toNat_shiftLeft]
    rfl
  rw [UInt32.toNat_toUInt64, hsh, Nat.shiftLeft_eq]
  unfold low
  omega

theorem toNat_idOf (addr : UInt32) (k : ℕ) : (idOf addr k).toNat = (k + 1 + 64 * low addr) % 2 ^ 64 := by
  unfold idOf
  rw [UInt64.toNat_add, toNat_shift, UInt64.toNat_ofNat', Nat.mod_add_mod]

theorem toNat_idOf_of_lt {addr : UInt32} {k : ℕ} (h : k + 1 + 64 * low addr < 2 ^ 64) :
    (idOf addr k).toNat = k + 1 + 64 * low addr := by
  rw [toNat_idOf, Nat.mod_eq_of_lt h]

theorem low_lt (addr : UInt32) : low addr < 2 ^ 26 := Nat.mod_lt _ (by decide)

/-! ### The invariant -/

/-- The ids are those of the places, and the entries are numbered by their clients. -/
structure Inv (addr : ι → UInt32) (s : Sys ι) : Prop where
  counter : ∀ h, (s.procs h).globalCliId = UInt64.ofNat ((s.procs h).objs.length + 1)
  ids : ∀ {c o}, s.obj c = some o →
    o.clientId = if o.initialized then idOf (addr c.1) c.2 else UInt64.ofNat (c.2 + 1)
  counted : Counted Made.client Made.num s.made s.seqOf
  made : ∀ m ∈ s.made, (∃ o, s.Ready m.client o) ∧
    m.entry.reqId = (idOf (addr m.client.1) m.client.2, UInt64.ofNat m.num)

theorem obj_setObj (h : s.obj c = some o) (o' : Obj) (made : List (Made ι)) :
    Sys.obj ⟨s.setObj c o', made⟩ = Function.update s.obj c (some o') := by
  funext d
  unfold Sys.obj Sys.setObj
  dsimp only
  rcases eq_or_ne d c with rfl | hne
  · rw [Function.update_self, Function.update_self]
    exact List.getElem?_set_self (lt_of_obj h)
  rw [Function.update_of_ne hne]
  rcases eq_or_ne d.1 c.1 with heq | hne'
  · have hidx : c.2 ≠ d.2 := fun h2 => hne (Prod.ext heq h2.symm)
    rw [heq, Function.update_self, List.getElem?_set_ne hidx]
  · rw [Function.update_of_ne hne']

theorem obj_construct (s : Sys ι) (h : ι) :
    Sys.obj ⟨Function.update s.procs h (s.procs h).construct, s.made⟩ =
      Function.update s.obj (h, (s.procs h).objs.length) (some ⟨(s.procs h).globalCliId, 0, false⟩) := by
  funext d
  unfold Sys.obj
  dsimp only
  rcases eq_or_ne d (h, (s.procs h).objs.length) with rfl | hne
  · rw [Function.update_self, Function.update_self]
    exact List.getElem?_concat_length
  rw [Function.update_of_ne hne]
  rcases eq_or_ne d.1 h with heq | hne'
  · have hidx : d.2 ≠ (s.procs h).objs.length := fun h2 => hne (Prod.ext heq h2)
    rw [heq, Function.update_self]
    unfold Process.construct
    rcases Nat.lt_or_gt_of_ne hidx with hlt | hgt
    · exact List.getElem?_append_left hlt
    · rw [List.getElem?_eq_none (by simpa using hgt), List.getElem?_eq_none hgt.le]
  · rw [Function.update_of_ne hne']

theorem Ready.clientId_eq (hinv : Inv addr s) (h : s.Ready c o) : o.clientId = idOf (addr c.1) c.2 := by
  rw [hinv.ids h.1, if_pos h.2]

theorem inv_start (h : Start s) : Inv addr s := by
  obtain rfl := h
  refine ⟨fun h => rfl, fun {c o} ho => ?_, counted_nil, nofun⟩
  simp [Sys.obj, Process.start] at ho

/-- What a step does: the client at one place is new or changes. -/
structure Changes (addr : ι → UInt32) (s s' : Sys ι) (c : ι × ℕ) (o' : Obj) : Prop where
  obj : s'.obj = Function.update s.obj c (some o')
  counter : ∀ h, (s'.procs h).globalCliId = UInt64.ofNat ((s'.procs h).objs.length + 1)
  id : o'.clientId = if o'.initialized then idOf (addr c.1) c.2 else UInt64.ofNat (c.2 + 1)
  stays : ∀ o, s.Ready c o → o'.initialized = true

/-- The client at the place makes an entry, or none is made. -/
def Numbers (addr : ι → UInt32) (s s' : Sys ι) (c : ι × ℕ) (o' : Obj) : Prop :=
  (s'.made = s.made ∧ o'.seq = s.seqOf c) ∨
    ∃ e : LogEntry, s'.made = s.made ++ [⟨c, s.seqOf c, e⟩] ∧ o'.seq = s.seqOf c + 1 ∧ o'.initialized = true ∧
      e.reqId = (idOf (addr c.1) c.2, UInt64.ofNat (s.seqOf c))

theorem counter_construct {p : Process} (h : p.globalCliId = UInt64.ofNat (p.objs.length + 1)) :
    p.construct.globalCliId = UInt64.ofNat (p.construct.objs.length + 1) := by
  unfold Process.construct
  rw [List.length_append, h, List.length_singleton, UInt64.ofNat_add (p.objs.length + 1) 1]
  rfl

theorem counter_update (hinv : Inv addr s) {h : ι} {p : Process}
    (hp : p.globalCliId = UInt64.ofNat (p.objs.length + 1)) (h' : ι) :
    (Function.update s.procs h p h').globalCliId =
      UInt64.ofNat ((Function.update s.procs h p h').objs.length + 1) := by
  rcases eq_or_ne h' h with rfl | hne
  · rw [Function.update_self, hp]
  · rw [Function.update_of_ne hne]
    exact hinv.counter h'

theorem counter_setObj (hinv : Inv addr s) (c : ι × ℕ) (o : Obj) (h : ι) :
    (s.setObj c o h).globalCliId = UInt64.ofNat ((s.setObj c o h).objs.length + 1) := by
  refine counter_update hinv ?_ h
  rw [List.length_set]
  exact hinv.counter c.1

theorem Step.changes (hs : Step addr s s') (hinv : Inv addr s) :
    ∃ c o', Changes addr s s' c o' ∧ Numbers addr s s' c o' := by
  cases hs with
  | construct h =>
    have hfree : s.obj (h, (s.procs h).objs.length) = none := List.getElem?_eq_none (Nat.le_refl _)
    refine ⟨_, _, ⟨obj_construct s h, counter_update hinv (counter_construct (hinv.counter h)), hinv.counter h,
      fun o ho => ?_⟩, Or.inl ⟨rfl, ?_⟩⟩
    · exact absurd (hfree.symm.trans ho.1) (Option.some_ne_none o).symm
    · unfold Sys.seqOf
      rw [hfree]
      rfl
  | initializeClient c ho hi =>
    refine ⟨c, _, ⟨obj_setObj ho _ _, counter_setObj hinv c _, ?_, fun _ _ => rfl⟩, Or.inl ⟨rfl, ?_⟩⟩
    · have hid := hinv.ids ho
      rw [hi, if_neg Bool.false_ne_true] at hid
      unfold Obj.initializeClient
      rw [hid, if_pos rfl]
      rfl
    · rw [seqOf_eq ho]
      rfl
  | @constructLogEntry o c data ho hi =>
    have hid := hinv.ids ho
    refine ⟨c, _, ⟨obj_setObj ho _ _, counter_setObj hinv c _, hid, fun _ _ => hi⟩,
      Or.inr ⟨LazyLogCli.constructLogEntry o.clientId o.seq data, ?_, ?_, hi, ?_⟩⟩
    · rw [seqOf_eq ho]
    · rw [seqOf_eq ho]
    · rw [hi, if_pos rfl] at hid
      rw [seqOf_eq ho, ← hid]
      rfl

theorem Changes.seqOf_eq (h : Changes addr s s' c o') : s'.seqOf = Function.update s.seqOf c o'.seq := by
  funext d
  unfold Sys.seqOf
  rw [h.obj]
  rcases eq_or_ne d c with rfl | hne
  · rw [Function.update_self, Function.update_self]
    rfl
  · rw [Function.update_of_ne hne, Function.update_of_ne hne]

theorem Changes.ready (h : Changes addr s s' c o') {d : ι × ℕ} (hd : ∃ o, s.Ready d o) : ∃ o, s'.Ready d o := by
  obtain ⟨o, ho⟩ := hd
  rcases eq_or_ne d c with rfl | hne
  · exact ⟨o', by rw [h.obj, Function.update_self], h.stays o ho⟩
  · exact ⟨o, by rw [h.obj, Function.update_of_ne hne, ho.1], ho.2⟩

/-- **One step keeps the invariant.** -/
theorem Step.inv (hs : Step addr s s') (hinv : Inv addr s) : Inv addr s' := by
  obtain ⟨c, o', hch, hnum⟩ := hs.changes hinv
  have hids : ∀ {d o}, s'.obj d = some o →
      o.clientId = if o.initialized then idOf (addr d.1) d.2 else UInt64.ofNat (d.2 + 1) := fun {d o} ho => by
    rw [hch.obj] at ho
    rcases eq_or_ne d c with rfl | hne
    · rw [Function.update_self] at ho
      obtain rfl := Option.some.inj ho
      exact hch.id
    · rw [Function.update_of_ne hne] at ho
      exact hinv.ids ho
  rcases hnum with ⟨hmade, hseq⟩ | ⟨e, hmade, hseq, hi, he⟩
  · refine ⟨hch.counter, hids, ?_, fun m hm => ?_⟩
    · rw [hmade, hch.seqOf_eq, hseq, Function.update_eq_self]
      exact hinv.counted
    · obtain ⟨hready, hid⟩ := hinv.made m (hmade ▸ hm)
      exact ⟨hch.ready hready, hid⟩
  · refine ⟨hch.counter, hids, ?_, fun m hm => ?_⟩
    · rw [hmade, hch.seqOf_eq, hseq]
      exact hinv.counted.concat rfl
    · rw [hmade] at hm
      rcases List.mem_append.mp hm with hm | hm
      · obtain ⟨hready, hid⟩ := hinv.made m hm
        exact ⟨hch.ready hready, hid⟩
      · obtain rfl := List.mem_singleton.mp hm
        exact ⟨⟨o', by rw [hch.obj, Function.update_self], hi⟩, he⟩

theorem inv_of_reach (h : Reach Start (Step addr) s) : Inv addr s :=
  h.invariant (fun _ => inv_start) fun _ _ _ hinv hs => hs.inv hinv

/-! ### The ids tell the clients apart exactly if there is room -/

theorem Room.toNat_clientId (hroom : Room addr s) (hinv : Inv addr s) (h : s.Ready c o) :
    o.clientId.toNat = c.2 + 1 + 64 * low (addr c.1) := by
  have hk := lt_of_obj h.1
  have hr := hroom.inRange (objs_ne_nil h.1)
  rw [Ready.clientId_eq hinv h]
  exact toNat_idOf_of_lt (by omega)

omit [DecidableEq ι] in
theorem Room.lt (hroom : Room addr s) {c' : ι × ℕ} (h : s.obj c = some o) (h' : s.obj c' = some o')
    (hne : c.1 ≠ c'.1) (hle : low (addr c.1) ≤ low (addr c'.1)) :
    c.2 + 64 * low (addr c.1) < 64 * low (addr c'.1) := by
  have hk := lt_of_obj h
  have hapart := hroom.apart hne (objs_ne_nil h) (objs_ne_nil h') hle
  omega

theorem Room.distinct (hroom : Room addr s) (hinv : Inv addr s) {c' : ι × ℕ} (h : s.Ready c o) (h' : s.Ready c' o')
    (heq : o.clientId = o'.clientId) : c = c' := by
  have hid := congrArg UInt64.toNat heq
  rw [hroom.toNat_clientId hinv h, hroom.toNat_clientId hinv h'] at hid
  by_cases hne : c.1 = c'.1
  · rw [hne] at hid
    exact Prod.ext hne (by omega)
  exfalso
  rcases Nat.le_total (low (addr c.1)) (low (addr c'.1)) with hle | hle
  · have := hroom.lt h.1 h'.1 hne hle
    omega
  · have := hroom.lt h'.1 h.1 (Ne.symm hne) hle
    omega

/-- **With room, the request ids identify.** -/
theorem Room.identified (hroom : Room addr s) (hinv : Inv addr s) : Identified s := by
  refine ⟨hroom.distinct hinv, fun {c o} h h0 => ?_, List.pairwise_map.mpr ?_⟩
  · have hid := hroom.toNat_clientId hinv h
    rw [h0] at hid
    change 0 = _ at hid
    omega
  · -- entries with one request id are of one client and have one number
    refine (List.pairwise_map.mp hinv.counted.nodup).imp_of_mem fun {m m'} hm hm' hne heq => ?_
    obtain ⟨⟨o, ho⟩, hid⟩ := hinv.made m hm
    obtain ⟨⟨o', ho'⟩, hid'⟩ := hinv.made m' hm'
    rw [hid, hid'] at heq
    obtain ⟨hcli, hnum⟩ := Prod.mk.inj heq
    have hclient : m.client = m'.client :=
      hroom.distinct hinv ho ho' (by rw [Ready.clientId_eq hinv ho, Ready.clientId_eq hinv ho', hcli])
    have hlt : ∀ x ∈ s.made, x.num < 2 ^ 64 := fun x hx => by
      obtain ⟨⟨ox, hox⟩, -⟩ := hinv.made x hx
      have hnum := hinv.counted.num_lt hx
      have hseq := seqOf_eq hox.1
      have := hroom.seqs hox.1
      omega
    have hnat := congrArg UInt64.toNat hnum
    rw [UInt64.toNat_ofNat', UInt64.toNat_ofNat', Nat.mod_eq_of_lt (hlt m hm), Nat.mod_eq_of_lt (hlt m' hm')] at hnat
    exact hne (Prod.ext hclient hnat)

/-- **Without room they do not.** The client that reaches the first id of another host has that id, the one that
wraps has the id 0, and the entry after `2 ^ 64` others has the request id of the first. -/
theorem Identified.room (hid : Identified s) (hinv : Inv addr s)
    (hall : ∀ {c o}, s.obj c = some o → o.initialized = true) : Room addr s := by
  refine ⟨fun {h h'} hne hobjs hobjs' hle => ?_, fun {h} hobjs => ?_, fun {c o} ho => ?_⟩
  · by_contra hlt
    obtain ⟨o, ho⟩ := exists_obj (Nat.lt_of_not_le hlt)
    obtain ⟨o', ho'⟩ := exists_obj (List.length_pos_of_ne_nil hobjs')
    have heq : o.clientId = o'.clientId := by
      rw [Ready.clientId_eq hinv ⟨ho, hall ho⟩, Ready.clientId_eq hinv ⟨ho', hall ho'⟩, ← UInt64.toNat_inj,
        toNat_idOf, toNat_idOf]
      congr 1
      dsimp only
      omega
    exact hne (congrArg Prod.fst (hid.distinct ⟨ho, hall ho⟩ ⟨ho', hall ho'⟩ heq))
  · by_contra hlt
    have hlow := low_lt (addr h)
    have hk : 2 ^ 64 - 64 * low (addr h) - 1 < (s.procs h).objs.length := by omega
    obtain ⟨o, ho⟩ := exists_obj hk
    refine hid.nonzero ⟨ho, hall ho⟩ ?_
    rw [Ready.clientId_eq hinv ⟨ho, hall ho⟩, ← UInt64.toNat_inj, toNat_idOf]
    have hwrap : 2 ^ 64 - 64 * low (addr h) - 1 + 1 + 64 * low (addr h) = 2 ^ 64 := by omega
    exact (congrArg (· % 2 ^ 64) hwrap).trans (Nat.mod_self _)
  · by_contra hlt
    have hseq := seqOf_eq ho
    obtain ⟨m, hm, hclient, hnum⟩ := hinv.counted.exists_mem (k := c) (n := 0) (by omega)
    obtain ⟨m', hm', hclient', hnum'⟩ := hinv.counted.exists_mem (k := c) (n := 2 ^ 64) (by omega)
    have heq : m.entry.reqId = m'.entry.reqId := by
      rw [(hinv.made m hm).2, (hinv.made m' hm').2, hclient, hclient', hnum, hnum']
      rfl
    have hm_eq := List.inj_on_of_nodup_map hid.reqIds hm hm' heq
    rw [hm_eq, hnum'] at hnum
    exact absurd hnum (by decide)

/-- **Request ids identify appends exactly if there is room.** In every run the clients have different ids other than
0, and their entries different request ids, if the ranges of ids do not meet; once all clients are initialized, only
then. -/
theorem request_ids_identify_iff_room (h : Reach Start (Step addr) s) :
    (Room addr s → Identified s) ∧
      ((∀ c o, s.obj c = some o → o.initialized = true) → (Identified s ↔ Room addr s)) := by
  have hinv := inv_of_reach h
  refine ⟨fun hroom => hroom.identified hinv, fun hall => ⟨fun hid => ?_, fun hroom => hroom.identified hinv⟩⟩
  exact hid.room hinv fun {c o} => hall c o

/-! ### Two hosts -/

theorem reach_initialized (hr : Reach Start (Step addr) s) {h : ι} {g : UInt64} {objs : List Obj}
    (hp : s.procs h = ⟨g, objs⟩) :
    Reach Start (Step addr)
      ⟨Function.update s.procs h ⟨g + 1, objs ++ [⟨g + (addr h <<< 6).toUInt64, 0, true⟩]⟩, s.made⟩ := by
  have hnew := hr.next (.construct h)
  have hobj : Sys.obj ⟨Function.update s.procs h (s.procs h).construct, s.made⟩ (h, objs.length) =
      some ⟨g, 0, false⟩ := by
    simp [Sys.obj, hp, Process.construct]
  have hinit := hnew.next (.initializeClient (h, objs.length) hobj rfl)
  convert hinit using 2
  simp [Sys.setObj, Function.update_idem, hp, Process.construct, Obj.initializeClient]

/-- The processes of two hosts. -/
def pair (p q : Process) : Bool → Process
  | false => p
  | true => q

theorem update_pair_false (p q p' : Process) : Function.update (pair p q) false p' = pair p' q := by
  funext h
  cases h <;> rfl

theorem update_pair_true (p q q' : Process) : Function.update (pair p q) true q' = pair p q' := by
  funext h
  cases h <;> rfl

theorem start_pair : Start ⟨pair .start .start, []⟩ := by
  refine congrArg (Sys.mk · []) (funext fun h => ?_)
  cases h <;> rfl

/-- `10.0.0.1` and `10.0.0.2`. -/
def nearHosts : Bool → UInt32
  | false => 0x0A000001
  | true => 0x0A000002

/-- Two clients of the first host and one of the second have made two entries, one, and one. -/
def threeClients : Sys Bool :=
  ⟨pair ⟨3, [⟨0x80000041, 2, true⟩, ⟨0x80000042, 1, true⟩]⟩ ⟨2, [⟨0x80000081, 1, true⟩]⟩,
    [⟨(false, 0), 0, constructLogEntry 0x80000041 0 []⟩, ⟨(true, 0), 0, constructLogEntry 0x80000081 0 []⟩,
      ⟨(false, 1), 0, constructLogEntry 0x80000042 0 []⟩, ⟨(false, 0), 1, constructLogEntry 0x80000041 1 []⟩]⟩

theorem reach_threeClients : Reach Start (Step nearHosts) threeClients := by
  have h₁ : Reach Start (Step nearHosts) _ := reach_initialized (.start start_pair) (h := false) rfl
  rw [update_pair_false] at h₁
  have h₂ := reach_initialized h₁ (h := true) rfl
  rw [update_pair_true] at h₂
  have h₃ := reach_initialized h₂ (h := false) rfl
  rw [update_pair_false] at h₃
  have h₄ := h₃.next (.constructLogEntry (false, 0) [] rfl rfl)
  rw [Sys.setObj, update_pair_false] at h₄
  have h₅ := h₄.next (.constructLogEntry (true, 0) [] rfl rfl)
  rw [Sys.setObj, update_pair_true] at h₅
  have h₆ := h₅.next (.constructLogEntry (false, 1) [] rfl rfl)
  rw [Sys.setObj, update_pair_false] at h₆
  have h₇ := h₆.next (.constructLogEntry (false, 0) [] rfl rfl)
  rw [Sys.setObj, update_pair_false] at h₇
  exact h₇

theorem room_threeClients : Room nearHosts threeClients := by
  refine ⟨?_, ?_, ?_⟩
  · rintro (_ | _) (_ | _) hne - - hle
    · exact absurd rfl hne
    · decide
    · revert hle
      decide
    · exact absurd rfl hne
  · rintro (_ | _) - <;> decide
  · rintro ⟨_ | _, k⟩ o ho
    · match k with
      | 0 | 1 =>
        cases ho
        decide
    · match k with
      | 0 =>
        cases ho
        decide

/-- There is room on two hosts with neighbouring addresses, for three clients and their entries. -/
theorem request_ids_identify_iff_room_near : Function.Injective nearHosts ∧ Room nearHosts threeClients ∧
    Identified threeClients :=
  ⟨by decide, room_threeClients, (request_ids_identify_iff_room reach_threeClients).1 room_threeClients⟩

/-- `10.0.0.1` and `14.0.0.1`, which differ in the upper six bits only. -/
def twoHosts : Bool → UInt32
  | false => 0x0A000001
  | true => 0x0E000001

/-- The first client of each host has made an entry. -/
def twoClients : Sys Bool :=
  ⟨pair ⟨2, [⟨0x80000041, 1, true⟩]⟩ ⟨2, [⟨0x80000041, 1, true⟩]⟩,
    [⟨(false, 0), 0, constructLogEntry 0x80000041 0 []⟩, ⟨(true, 0), 0, constructLogEntry 0x80000041 0 []⟩]⟩

theorem reach_twoClients : Reach Start (Step twoHosts) twoClients := by
  have h₁ : Reach Start (Step twoHosts) _ := reach_initialized (.start start_pair) (h := false) rfl
  rw [update_pair_false] at h₁
  have h₂ := h₁.next (.constructLogEntry (false, 0) [] rfl rfl)
  rw [Sys.setObj, update_pair_false] at h₂
  have h₃ := reach_initialized h₂ (h := true) rfl
  rw [update_pair_true] at h₃
  have h₄ := h₃.next (.constructLogEntry (true, 0) [] rfl rfl)
  rw [Sys.setObj, update_pair_true] at h₄
  exact h₄

/-- **Two hosts with different addresses whose clients have one id**, and whose entries have one request id. -/
theorem twoClients_not_identified : Function.Injective twoHosts ∧ Reach Start (Step twoHosts) twoClients ∧
    ¬ (twoClients.made.map fun m => m.entry.reqId).Nodup ∧ ¬ Identified twoClients := by
  have hdup : ¬ (twoClients.made.map fun m => m.entry.reqId).Nodup := by decide
  exact ⟨by decide, reach_twoClients, hdup, fun h => hdup h.reqIds⟩

end LazyLog.Client.ClientIds
