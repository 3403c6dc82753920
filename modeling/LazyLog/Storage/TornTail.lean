import LazyLog.Rpc.Guarded
import LazyLog.Storage.Unoptimized

/-! # A data file with a torn tail (`loadFromDiskToCache`)

A crash or a short write leaves a front of a data file, of any length. Both loaders go through the file and test only
that an entry starts before its end. So a file that ends between two entries is loaded as it should be, and of an
entry that is cut the loader reads what is behind the end, or takes the entry for complete if only its padding is
missing. -/

namespace LazyLog.Storage.TornTail

open LazyLog.Lib.Bytes LazyLog.Rpc.Entry LazyLog.Rpc.Multi LazyLog.Rpc.Offsets LazyLog.Rpc.Guarded
open LazyLog.Storage.ShardServer (Encodes)

/-! ### The decoders, with guarded access -/

/-- The loop of `MultiDeserializer(es, buf, size)`. -/
def multiDeserializerSizeWithinLoop (limit : ℕ) (m : Mem) (buf size offset : ℕ) (es : List LogEntry) :
    Option (List LogEntry × ℕ) :=
  if offset < size then
    match deserializerWithin limit default m (buf + offset) with
    | none => none
    | some r =>
      if r.2 = 0 then some (es, offset)
      else multiDeserializerSizeWithinLoop limit m buf size (offset + r.2) (es ++ [r.1])
  else some (es, offset)
termination_by size - offset

/-- `MultiDeserializer(es, buf, size)`. -/
def multiDeserializerSizeWithin (limit : ℕ) (es : List LogEntry) (m : Mem) (buf size : ℕ) :
    Option (List LogEntry × ℕ) :=
  multiDeserializerSizeWithinLoop limit m buf size 0 es

/-- The loop of `ProcessAndBuildMap(map, buf, size, curr_file_offset)`. -/
def processAndBuildMapSizeWithinLoop (limit : ℕ) (m : Mem) (buf size currFileOffset offset num : ℕ)
    (dummy : LogEntry) (map : OffsetMap) : Option (OffsetMap × ℕ × ℕ) :=
  if offset < size then
    match deserializerWithin limit dummy m (buf + offset) with
    | none => none
    | some r =>
      if r.2 = 0 then some (map, offset, num)
      else
        processAndBuildMapSizeWithinLoop limit m buf size currFileOffset (offset + r.2) (num + 1) r.1
          (map.insert r.1.logIdx (currFileOffset + offset))
  else some (map, offset, num)
termination_by size - offset

/-- `ProcessAndBuildMap(map, buf, size, curr_file_offset)`. -/
def processAndBuildMapSizeWithin (limit : ℕ) (map : OffsetMap) (m : Mem) (buf size currFileOffset : ℕ) :
    Option (OffsetMap × ℕ × ℕ) :=
  processAndBuildMapSizeWithinLoop limit m buf size currFileOffset 0 0 default map

variable {limit buf size : ℕ} {m : Mem}

theorem multiDeserializerSizeWithinLoop_eq_some {offset : ℕ} {es : List LogEntry} {r : List LogEntry × ℕ}
    (h : multiDeserializerSizeWithinLoop limit m buf size offset es = some r) :
    multiDeserializerSizeLoop m buf size offset es = r := by
  rw [multiDeserializerSizeWithinLoop] at h
  rw [multiDeserializerSizeLoop]
  by_cases h0 : offset < size
  · rw [if_pos h0] at h ⊢
    cases hd : deserializerWithin limit default m (buf + offset) with
    | none =>
      rw [hd] at h
      cases h
    | some p =>
      rw [hd] at h
      simp only [deserializerWithin_eq_some hd] at h ⊢
      by_cases hz : p.2 = 0
      · rw [if_pos hz] at h ⊢
        exact Option.some.inj h
      · rw [if_neg hz] at h ⊢
        exact multiDeserializerSizeWithinLoop_eq_some h
  · rw [if_neg h0] at h ⊢
    exact Option.some.inj h
termination_by size - offset

theorem processAndBuildMapSizeWithinLoop_eq_some {c offset num : ℕ} {dummy : LogEntry} {map : OffsetMap}
    {r : OffsetMap × ℕ × ℕ}
    (h : processAndBuildMapSizeWithinLoop limit m buf size c offset num dummy map = some r) :
    processAndBuildMapSizeLoop m buf size c offset num dummy map = r := by
  rw [processAndBuildMapSizeWithinLoop] at h
  rw [processAndBuildMapSizeLoop]
  by_cases h0 : offset < size
  · rw [if_pos h0] at h ⊢
    cases hd : deserializerWithin limit dummy m (buf + offset) with
    | none =>
      rw [hd] at h
      cases h
    | some p =>
      rw [hd] at h
      simp only [deserializerWithin_eq_some hd] at h ⊢
      by_cases hz : p.2 = 0
      · rw [if_pos hz] at h ⊢
        exact Option.some.inj h
      · rw [if_neg hz] at h ⊢
        exact processAndBuildMapSizeWithinLoop_eq_some h
  · rw [if_neg h0] at h ⊢
    exact Option.some.inj h
termination_by size - offset

/-! ### Complete entries -/

theorem deserializerWithin_of_holds {a : ℕ} {e : LogEntry} (e₀ : LogEntry) (h : Holds m a (encode e))
    (hs : e.Sized) (hf : e.flags ≠ 0) (hle : a + (metaDataSize + e.data.length) ≤ limit) :
    deserializerWithin limit e₀ m a = some (e, entrySize e) := by
  have hfield : sizeField m a = e.data.length := (holds_header h.left).2.2.2.1.trans hs
  rw [deserializerWithin_of_le (by omega), deserializer_of_holds e₀ h hs hf]

/-- **The loop goes through complete entries.** -/
theorem multiDeserializerSizeWithinLoop_complete : ∀ (es : List LogEntry) (offset : ℕ) (acc : List LogEntry),
    (∀ e ∈ es, e.Sized) → (∀ e ∈ es, e.flags ≠ 0) → HoldsAll m (buf + offset) es → offset + totalSize es ≤ size →
    multiDeserializerSizeWithinLoop (buf + size) m buf size offset acc =
      multiDeserializerSizeWithinLoop (buf + size) m buf size (offset + totalSize es) (acc ++ es)
  | [], offset, acc, _, _, _, _ => by rw [totalSize_nil, Nat.add_zero, List.append_nil]
  | e :: es, offset, acc, hs, hf, hm, hle => by
    have hpos := entrySize_pos e
    have hlen := length_encode_le e
    rw [length_encode] at hlen
    rw [totalSize_cons] at hle ⊢
    rw [multiDeserializerSizeWithinLoop, if_pos (by omega),
      deserializerWithin_of_holds default hm.1 (hs e List.mem_cons_self) (hf e List.mem_cons_self) (by omega)]
    simp only [if_neg hpos.ne']
    rw [multiDeserializerSizeWithinLoop_complete es _ _ (fun x hx => hs x (List.mem_cons_of_mem _ hx))
      (fun x hx => hf x (List.mem_cons_of_mem _ hx)) (by rw [← Nat.add_assoc]; exact hm.2) (by omega),
      Nat.add_assoc, List.append_assoc]
    rfl

theorem processAndBuildMapSizeWithinLoop_complete {c : ℕ} : ∀ (es : List LogEntry) (offset num : ℕ)
    (dummy : LogEntry) (map : OffsetMap), (∀ e ∈ es, e.Sized) → (∀ e ∈ es, e.flags ≠ 0) →
    HoldsAll m (buf + offset) es → offset + totalSize es ≤ size → ∃ dummy',
    processAndBuildMapSizeWithinLoop (buf + size) m buf size c offset num dummy map =
      processAndBuildMapSizeWithinLoop (buf + size) m buf size c (offset + totalSize es) (num + es.length) dummy'
        (addOffsets map (c + offset) es)
  | [], offset, num, dummy, map, _, _, _, _ => ⟨dummy, rfl⟩
  | e :: es, offset, num, dummy, map, hs, hf, hm, hle => by
    have hpos := entrySize_pos e
    have hlen := length_encode_le e
    rw [length_encode] at hlen
    rw [totalSize_cons] at hle ⊢
    obtain ⟨dummy', hrest⟩ := processAndBuildMapSizeWithinLoop_complete es (offset + entrySize e) (num + 1) e
      (map.insert e.logIdx (c + offset))
      (fun x hx => hs x (List.mem_cons_of_mem _ hx)) (fun x hx => hf x (List.mem_cons_of_mem _ hx))
      (by rw [← Nat.add_assoc]; exact hm.2) (by omega)
    refine ⟨dummy', ?_⟩
    rw [processAndBuildMapSizeWithinLoop, if_pos (by omega),
      deserializerWithin_of_holds dummy hm.1 (hs e List.mem_cons_self) (hf e List.mem_cons_self) (by omega)]
    simp only [if_neg hpos.ne']
    rw [hrest, addOffsets, List.length_cons, Nat.add_assoc, Nat.add_assoc num, Nat.add_comm 1, Nat.add_assoc c]

/-! ### A cut entry -/

/-- **A cut entry**: the decoder reads behind the cut, or only the padding is missing and it returns the entry. -/
theorem deserializerWithin_cut {a : ℕ} {e : LogEntry} {v : Mem} (e₀ : LogEntry) (buf n : ℕ)
    (h : Holds v a (encode e)) (hm : ∀ i < n, m (buf + i) = v (a + i)) (hs : e.Sized) (hf : e.flags ≠ 0) :
    deserializerWithin (buf + n) e₀ m buf = none ∨
      deserializerWithin (buf + n) e₀ m buf = some (e, entrySize e) := by
  rcases Nat.lt_or_ge n metaDataSize with hlt | hhead
  · exact Or.inl (deserializerWithin_header (by omega))
  · have hh : Holds m buf (header e) := h.left.congr fun i hi => hm i (by rw [length_header] at hi; omega)
    have hfield : sizeField m buf = e.data.length := (holds_header hh).2.2.2.1.trans hs
    rcases Nat.lt_or_ge n (metaDataSize + e.data.length) with hlt | hdata
    · refine Or.inl (deserializerWithin_data (by omega) ?_)
      rwa [getFlagFromBuf_of_holds hh]
    · have hh' : Holds m buf (encode e) := h.congr fun i hi => hm i (by rw [length_encode] at hi; omega)
      exact Or.inr (deserializerWithin_of_holds e₀ hh' hs hf (by omega))

/-- The loop in front of a cut entry does not end at it. -/
theorem multiDeserializerSizeWithinLoop_cut {offset : ℕ} {e : LogEntry} (acc : List LogEntry) (hlt : offset < size)
    (hcut : size < offset + entrySize e)
    (hd : deserializerWithin (buf + size) default m (buf + offset) = none ∨
      deserializerWithin (buf + size) default m (buf + offset) = some (e, entrySize e)) :
    ∀ r, multiDeserializerSizeWithinLoop (buf + size) m buf size offset acc = some r → size < r.2 := by
  intro r hr
  have hpos := entrySize_pos e
  rw [multiDeserializerSizeWithinLoop, if_pos hlt] at hr
  rcases hd with hd | hd
  · rw [hd] at hr
    cases hr
  · rw [hd] at hr
    simp only [if_neg hpos.ne'] at hr
    rw [multiDeserializerSizeWithinLoop, if_neg (by omega)] at hr
    rw [← Option.some.inj hr]
    exact hcut

theorem processAndBuildMapSizeWithinLoop_cut {c offset num : ℕ} {e dummy : LogEntry} {map : OffsetMap}
    (hlt : offset < size) (hcut : size < offset + entrySize e)
    (hd : deserializerWithin (buf + size) dummy m (buf + offset) = none ∨
      deserializerWithin (buf + size) dummy m (buf + offset) = some (e, entrySize e)) :
    ∀ r, processAndBuildMapSizeWithinLoop (buf + size) m buf size c offset num dummy map = some r →
      size < r.2.1 := by
  intro r hr
  have hpos := entrySize_pos e
  rw [processAndBuildMapSizeWithinLoop, if_pos hlt] at hr
  rcases hd with hd | hd
  · rw [hd] at hr
    cases hr
  · rw [hd] at hr
    simp only [if_neg hpos.ne'] at hr
    rw [processAndBuildMapSizeWithinLoop, if_neg (by omega)] at hr
    rw [← Option.some.inj hr]
    exact hcut

/-! ### Loading a front of a file -/

/-- The first `size` bytes of a file with these entries are in the buffer. -/
structure Front (es : List LogEntry) (bytes : List UInt8) (m : Mem) (buf size : ℕ) : Prop where
  encodes : Encodes bytes es
  sized : ∀ e ∈ es, e.Sized
  flagged : ∀ e ∈ es, e.flags ≠ 0
  size_le : size ≤ bytes.length
  holds : Holds m buf (bytes.take size)

/-- The file ends between two entries. -/
def BetweenEntries (es : List LogEntry) (size : ℕ) : Prop := ∃ k, size = totalSize (es.take k)

/-- **`MultiDeserializer` tolerates the tail**: it reads nothing behind it, and yields the entries that are complete
and their total size. -/
def MultiDeserializerTolerates (es acc : List LogEntry) (m : Mem) (buf size : ℕ) : Prop :=
  multiDeserializerSizeWithin (buf + size) acc m buf size = some (multiDeserializerSize acc m buf size) ∧
    multiDeserializerSize acc m buf size = (acc ++ takeFit size es, totalSize (takeFit size es))

/-- **`ProcessAndBuildMap` tolerates the tail.** -/
def ProcessAndBuildMapTolerates (es : List LogEntry) (map : OffsetMap) (m : Mem) (buf size c : ℕ) : Prop :=
  processAndBuildMapSizeWithin (buf + size) map m buf size c = some (processAndBuildMapSize map m buf size c) ∧
    processAndBuildMapSize map m buf size c =
      (addOffsets map c (takeFit size es), totalSize (takeFit size es), (takeFit size es).length)

variable {es : List LogEntry} {bytes : List UInt8}

theorem Front.byte (h : Front es bytes m buf size) {i : ℕ} (hi : i < size) : m (buf + i) = bytes.getD i 0 := by
  have hlen : (bytes.take size).length = size := by
    rw [List.length_take]
    exact Nat.min_eq_left h.size_le
  rw [holds_iff.mp h.holds i (by omega), List.getD_eq_getElem _ _ (by omega),
    List.getD_eq_getElem _ _ (by have := h.size_le; omega), List.getElem_take]

/-- What the buffer has of the complete entries, and what the decoder makes of the next one if the file does not end
behind them. -/
theorem Front.split (h : Front es bytes m buf size) :
    HoldsAll m buf (takeFit size es) ∧
      (size = totalSize (takeFit size es) ∨ ∃ e, totalSize (takeFit size es) < size ∧
        size < totalSize (takeFit size es) + entrySize e ∧
        ∀ e₀, deserializerWithin (buf + size) e₀ m (buf + totalSize (takeFit size es)) = none ∨
          deserializerWithin (buf + size) e₀ m (buf + totalSize (takeFit size es)) = some (e, entrySize e)) := by
  obtain ⟨rest, hes, hnext⟩ := takeFit_eq size es
  have hle := totalSize_takeFit_le size es
  have hall := h.encodes.holds
  have hlen := h.encodes.length
  rw [hes, holdsAll_append, Nat.zero_add] at hall
  constructor
  · refine hall.1.congr fun i hi => ?_
    rw [Nat.zero_add]
    exact h.byte (by omega)
  · rcases Nat.lt_or_ge (totalSize (takeFit size es)) size with hlt | hge
    · cases rest with
      | nil =>
        have hsz := h.size_le
        rw [hlen, hes, List.append_nil] at hsz
        omega
      | cons e rest =>
        have he : e ∈ es := by
          rw [hes]
          exact List.mem_append_right _ List.mem_cons_self
        refine Or.inr ⟨e, hlt, hnext e rfl, fun e₀ => ?_⟩
        have hcut := deserializerWithin_cut (m := m) e₀ (buf + totalSize (takeFit size es))
          (size - totalSize (takeFit size es)) hall.2.1
          (fun i hi => by
            rw [Nat.add_assoc]
            exact h.byte (by omega)) (h.sized e he) (h.flagged e he)
        rwa [Nat.add_assoc, Nat.add_sub_cancel' hle] at hcut
    · exact Or.inl (by omega)

theorem takeFit_append : ∀ es rest : List LogEntry, takeFit (totalSize es) (es ++ rest) = es
  | [], [] => rfl
  | [], e :: rest => by
    have hpos := entrySize_pos e
    rw [totalSize_nil, List.nil_append, takeFit, if_neg (by omega)]
  | e :: es, rest => by
    rw [totalSize_cons, List.cons_append, takeFit, if_pos (Nat.le_add_right _ _), Nat.add_sub_cancel_left,
      takeFit_append es rest]

theorem betweenEntries_iff (es : List LogEntry) (size : ℕ) :
    BetweenEntries es size ↔ size = totalSize (takeFit size es) := by
  constructor
  · rintro ⟨k, rfl⟩
    have h := takeFit_append (es.take k) (es.drop k)
    rw [List.take_append_drop] at h
    rw [h]
  · intro h
    refine ⟨(takeFit size es).length, ?_⟩
    rw [← List.prefix_iff_eq_take.mp (takeFit_isPrefix size es)]
    exact h

theorem Front.multiDeserializer (h : Front es bytes m buf size) (acc : List LogEntry) :
    MultiDeserializerTolerates es acc m buf size ↔ size = totalSize (takeFit size es) := by
  obtain ⟨hall, hcases⟩ := h.split
  have hfit := totalSize_takeFit_le size es
  have hmem : ∀ e ∈ takeFit size es, e ∈ es := fun e he => (takeFit_isPrefix size es).subset he
  have hroom : 0 + totalSize (takeFit size es) ≤ size := by omega
  have hthrough := multiDeserializerSizeWithinLoop_complete (takeFit size es) 0 acc
    (fun e he => h.sized e (hmem e he)) (fun e he => h.flagged e (hmem e he)) hall hroom
  rw [Nat.zero_add] at hthrough
  constructor
  · rintro ⟨hguard, hcall⟩
    rcases hcases with heq | ⟨e, hlt, hcut, hd⟩
    · exact heq
    · exfalso
      have hend := multiDeserializerSizeWithinLoop_cut (acc ++ takeFit size es) hlt hcut (hd _) _
        (hthrough.symm.trans hguard)
      rw [hcall] at hend
      exact absurd hend (by simpa using hfit)
  · intro heq
    have hguard : multiDeserializerSizeWithin (buf + size) acc m buf size =
        some (acc ++ takeFit size es, totalSize (takeFit size es)) := by
      unfold multiDeserializerSizeWithin
      rw [hthrough, multiDeserializerSizeWithinLoop, if_neg (by omega)]
    have hcall := multiDeserializerSizeWithinLoop_eq_some hguard
    exact ⟨hguard.trans (congrArg some hcall.symm), hcall⟩

theorem Front.processAndBuildMap (h : Front es bytes m buf size) (map : OffsetMap) (c : ℕ) :
    ProcessAndBuildMapTolerates es map m buf size c ↔ size = totalSize (takeFit size es) := by
  obtain ⟨hall, hcases⟩ := h.split
  have hfit := totalSize_takeFit_le size es
  have hmem : ∀ e ∈ takeFit size es, e ∈ es := fun e he => (takeFit_isPrefix size es).subset he
  have hroom : 0 + totalSize (takeFit size es) ≤ size := by omega
  obtain ⟨dummy, hthrough⟩ := processAndBuildMapSizeWithinLoop_complete (c := c) (takeFit size es) 0 0
    default map (fun e he => h.sized e (hmem e he))
    (fun e he => h.flagged e (hmem e he)) hall hroom
  rw [Nat.zero_add, Nat.zero_add, Nat.add_zero] at hthrough
  constructor
  · rintro ⟨hguard, hcall⟩
    rcases hcases with heq | ⟨e, hlt, hcut, hd⟩
    · exact heq
    · exfalso
      have hend := processAndBuildMapSizeWithinLoop_cut hlt hcut (hd _) _ (hthrough.symm.trans hguard)
      rw [hcall] at hend
      exact absurd hend (by simpa using hfit)
  · intro heq
    have hguard : processAndBuildMapSizeWithin (buf + size) map m buf size c =
        some (addOffsets map c (takeFit size es), totalSize (takeFit size es), (takeFit size es).length) := by
      unfold processAndBuildMapSizeWithin
      rw [hthrough, processAndBuildMapSizeWithinLoop, if_neg (by omega)]
    have hcall := processAndBuildMapSizeWithinLoop_eq_some hguard
    exact ⟨hguard.trans (congrArg some hcall.symm), hcall⟩

/-- **A front of a data file is loaded as it should be**, by either loader, exactly if it ends between two
entries. -/
theorem torn_tail_tolerated_iff (h : Front es bytes m buf size) (acc : List LogEntry) (map : OffsetMap) (c : ℕ) :
    MultiDeserializerTolerates es acc m buf size ∧ ProcessAndBuildMapTolerates es map m buf size c ↔
      BetweenEntries es size := by
  rw [h.multiDeserializer acc, h.processAndBuildMap map c, betweenEntries_iff, and_self]

/-- An entry with one byte of data. -/
def oneByte : LogEntry := ⟨1, 0, 0, 1, 1, 0, [7]⟩

/-- Its file: the header, the data and the padding. -/
def oneByteFile : List UInt8 := encode oneByte ++ [0, 0, 0]

theorem front_of_file (hb : Encodes bytes es) (hs : ∀ e ∈ es, e.Sized ∧ e.flags ≠ 0) (h : size ≤ bytes.length) :
    Front es bytes (fun i => (bytes.take size).getD i 0) 0 size := by
  refine ⟨hb, fun e he => (hs e he).1, fun e he => (hs e he).2, h, holds_iff.mpr fun i hi => ?_⟩
  rw [Nat.zero_add]

theorem front_oneByte {size : ℕ} (h : size ≤ 36) :
    Front [oneByte] oneByteFile (fun i => (oneByteFile.take size).getD i 0) 0 size :=
  front_of_file ⟨by decide, ⟨rfl, trivial⟩⟩ (by decide) h

/-- A second entry, and the file with both. -/
def nextByte : LogEntry := ⟨1, 1, 1, 1, 1, 0, [8]⟩

def twoBytesFile : List UInt8 := oneByteFile ++ (encode nextByte ++ [0, 0, 0])

theorem encodes_twoBytes : Encodes twoBytesFile [oneByte, nextByte] :=
  (front_oneByte (Nat.le_refl 36)).encodes.append ⟨by decide, ⟨rfl, trivial⟩⟩

/-- The file of two entries is cut between them, and the first one is loaded. -/
theorem torn_tail_tolerated_between :
    MultiDeserializerTolerates [oneByte, nextByte] [] (fun i => (twoBytesFile.take 36).getD i 0) 0 36 ∧
      ProcessAndBuildMapTolerates [oneByte, nextByte] ∅ (fun i => (twoBytesFile.take 36).getD i 0) 0 36 0 ∧
      takeFit 36 [oneByte, nextByte] = [oneByte] ∧ twoBytesFile.length = 72 := by
  have hfront : Front [oneByte, nextByte] twoBytesFile (fun i => (twoBytesFile.take 36).getD i 0) 0 36 :=
    front_of_file encodes_twoBytes (by decide) (by decide)
  obtain ⟨hm, hp⟩ := (torn_tail_tolerated_iff hfront [] ∅ 0).mpr ⟨1, by decide⟩
  exact ⟨hm, hp, by decide, by decide⟩

theorem not_tolerates_oneByte {size : ℕ} (hle : size ≤ 36) (hne : size ≠ totalSize (takeFit size [oneByte])) :
    ¬ MultiDeserializerTolerates [oneByte] [] (fun i => (oneByteFile.take size).getD i 0) 0 size ∧
      ¬ ProcessAndBuildMapTolerates [oneByte] ∅ (fun i => (oneByteFile.take size).getD i 0) 0 size 0 := by
  constructor
  · exact fun ht => hne (((front_oneByte hle).multiDeserializer []).mp ht)
  · exact fun ht => hne (((front_oneByte hle).processAndBuildMap ∅ 0).mp ht)

/-- Cut in the header, the data or the padding it is not. -/
theorem torn_tail_not_tolerated :
    (¬ MultiDeserializerTolerates [oneByte] [] (fun i => (oneByteFile.take 20).getD i 0) 0 20 ∧
      ¬ ProcessAndBuildMapTolerates [oneByte] ∅ (fun i => (oneByteFile.take 20).getD i 0) 0 20 0) ∧
    (¬ MultiDeserializerTolerates [oneByte] [] (fun i => (oneByteFile.take 32).getD i 0) 0 32 ∧
      ¬ ProcessAndBuildMapTolerates [oneByte] ∅ (fun i => (oneByteFile.take 32).getD i 0) 0 32 0) ∧
    (¬ MultiDeserializerTolerates [oneByte] [] (fun i => (oneByteFile.take 34).getD i 0) 0 34 ∧
      ¬ ProcessAndBuildMapTolerates [oneByte] ∅ (fun i => (oneByteFile.take 34).getD i 0) 0 34 0) := by
  refine ⟨?_, ?_, ?_⟩
  · exact not_tolerates_oneByte (by decide) (by decide)
  · exact not_tolerates_oneByte (by decide) (by decide)
  · exact not_tolerates_oneByte (by decide) (by decide)

end LazyLog.Storage.TornTail
