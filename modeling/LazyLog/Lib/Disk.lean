import Mathlib.Data.List.GetD
import Mathlib.Logic.Function.Basic
import Mathlib.Tactic
import LazyLog.Lib.Bytes

/-! # Files and descriptors

The files of a process, by name, and its table of open descriptors. A descriptor has a file, a mode and a
position; a write through a descriptor that is not open for writing does nothing, and a read gets what the file
has of the bytes asked for. Which number `open` returns is up to the system.

What a write leaves in a file, and what a read of it puts into a memory, is said with `Holds`
(`holds_overwrite`, `holds_overwrite_of_disjoint`, `holds_readAt`). -/

namespace LazyLog.Lib.Disk

open LazyLog.Lib.Bytes

/-- An open descriptor. -/
structure Desc (ν : Type*) where
  name : ν
  writable : Bool
  offset : ℕ

/-- The files that exist, and the open descriptors. -/
structure Files (ν : Type*) where
  data : ν → Option (List UInt8)
  fds : ℕ → Option (Desc ν)

variable {ν : Type*} [DecidableEq ν]

/-- `open(name, O_RDONLY)` of a file that exists. -/
def Files.openRead (fs : Files ν) (name : ν) (fd : ℕ) : Files ν :=
  { fs with fds := Function.update fs.fds fd (some ⟨name, false, 0⟩) }

/-- `open(name, O_RDWR | O_CREAT | O_TRUNC)`. -/
def Files.create (fs : Files ν) (name : ν) (fd : ℕ) : Files ν where
  data := Function.update fs.data name (some [])
  fds := Function.update fs.fds fd (some ⟨name, true, 0⟩)

/-- The bytes of a file after a write at a position; a gap before it reads as zero. -/
def overwrite (old : List UInt8) (offset : ℕ) (bs : List UInt8) : List UInt8 :=
  (old ++ List.replicate (offset - old.length) 0).take offset ++ bs ++ old.drop (offset + bs.length)

/-- `write(fd, …)`. -/
def Files.write (fs : Files ν) (fd : ℕ) (bs : List UInt8) : Files ν :=
  match fs.fds fd with
  | some ⟨name, true, offset⟩ =>
    { data := Function.update fs.data name ((fs.data name).map fun old => overwrite old offset bs)
      fds := Function.update fs.fds fd (some ⟨name, true, offset + bs.length⟩) }
  | _ => fs

/-- `pwrite(fd, …, offset)`, which leaves the position of the descriptor alone. -/
def Files.pwrite (fs : Files ν) (fd offset : ℕ) (bs : List UInt8) : Files ν :=
  match fs.fds fd with
  | some ⟨name, true, _⟩ =>
    { fs with data := Function.update fs.data name ((fs.data name).map fun old => overwrite old offset bs) }
  | _ => fs

/-- The bytes that a read at a position gets: fewer than it asks for, if the file ends before. -/
def readAt (bytes : List UInt8) (offset n : ℕ) : List UInt8 := (bytes.drop offset).take n

/-- `pread(fd, …, n, offset)`. -/
def Files.pread (fs : Files ν) (fd n offset : ℕ) : List UInt8 :=
  match fs.fds fd with
  | some d => readAt ((fs.data d.name).getD []) offset n
  | none => []

/-- `close(fd)`. -/
def Files.close (fs : Files ν) (fd : ℕ) : Files ν :=
  { fs with fds := Function.update fs.fds fd none }

/-- No descriptor of the file is open. -/
def Files.Closed (fs : Files ν) (name : ν) : Prop := ∀ fd d, fs.fds fd = some d → d.name ≠ name

theorem overwrite_length (old bs : List UInt8) : overwrite old old.length bs = old ++ bs := by
  unfold overwrite
  rw [Nat.sub_self, List.replicate_zero, List.append_nil, List.take_length, List.drop_of_length_le (by omega),
    List.append_nil]

theorem length_overwrite (old : List UInt8) (offset : ℕ) (bs : List UInt8) :
    (overwrite old offset bs).length = max old.length (offset + bs.length) := by
  unfold overwrite
  simp only [List.length_append, List.length_take, List.length_replicate, List.length_drop]
  omega

theorem getD_overwrite (old : List UInt8) (offset : ℕ) (bs : List UInt8) (x : ℕ) :
    (overwrite old offset bs).getD x 0 =
      if offset ≤ x ∧ x < offset + bs.length then bs.getD (x - offset) 0 else old.getD x 0 := by
  have hfront : ((old ++ List.replicate (offset - old.length) 0).take offset).length = offset := by
    simp only [List.length_take, List.length_append, List.length_replicate]
    omega
  unfold overwrite
  rcases Nat.lt_or_ge x offset with hlt | hge
  · rw [if_neg (by omega), List.append_assoc, List.getD_append _ _ _ _ (by omega), List.getD_eq_getElem?_getD,
      List.getElem?_take_of_lt hlt, ← List.getD_eq_getElem?_getD]
    rcases Nat.lt_or_ge x old.length with hx | hx
    · rw [List.getD_append _ _ _ _ hx]
    · rw [List.getD_append_right _ _ _ _ hx, List.getD_replicate _ (by omega), List.getD_eq_default _ _ hx]
  · rw [List.append_assoc, List.getD_append_right _ _ _ _ (by omega), hfront]
    rcases Nat.lt_or_ge x (offset + bs.length) with hx | hx
    · rw [if_pos ⟨hge, hx⟩, List.getD_append _ _ _ _ (by omega)]
    · rw [if_neg (by omega), List.getD_append_right _ _ _ _ (by omega), List.getD_eq_getElem?_getD,
        List.getElem?_drop, ← List.getD_eq_getElem?_getD]
      congr 1
      omega

theorem holds_overwrite (old bs : List UInt8) (offset : ℕ) :
    Holds (fun x => (overwrite old offset bs).getD x 0) offset bs := by
  rw [holds_iff]
  intro i hi
  rw [getD_overwrite, if_pos (by omega), Nat.add_sub_cancel_left]

theorem holds_overwrite_of_disjoint {old cs : List UInt8} {a : ℕ} (h : Holds (fun x => old.getD x 0) a cs)
    {offset : ℕ} {bs : List UInt8} (hdis : a + cs.length ≤ offset ∨ offset + bs.length ≤ a) :
    Holds (fun x => (overwrite old offset bs).getD x 0) a cs := by
  refine h.congr fun i hi => ?_
  rw [getD_overwrite, if_neg (by omega)]

theorem getD_readAt {bytes : List UInt8} {offset n i : ℕ} (hi : i < n) :
    (readAt bytes offset n).getD i 0 = bytes.getD (offset + i) 0 := by
  unfold readAt
  rw [List.getD_eq_getElem?_getD, List.getElem?_take_of_lt hi, List.getElem?_drop, ← List.getD_eq_getElem?_getD]

theorem holds_readAt {bytes cs : List UInt8} {offset n : ℕ} (h : Holds (fun x => bytes.getD x 0) offset cs)
    (hlen : offset + cs.length ≤ bytes.length) (hn : cs.length ≤ n) (m : Mem) :
    Holds (writeBytes m 0 (readAt bytes offset n)) 0 cs := by
  refine h.congr fun i hi => ?_
  have hlt : i < (readAt bytes offset n).length := by
    unfold readAt
    rw [List.length_take, List.length_drop]
    omega
  rw [writeBytes_getD hlt, getD_readAt (by omega)]

theorem Files.write_data_of_ne {fs : Files ν} {fd : ℕ} {name : ν}
    (h : ∀ d, fs.fds fd = some d → d.writable = true → d.name ≠ name) (bs : List UInt8) :
    (fs.write fd bs).data name = fs.data name := by
  unfold Files.write
  split
  · next heq => exact Function.update_of_ne (h _ heq rfl).symm _ _
  · rfl

theorem Files.pwrite_data_of_ne {fs : Files ν} {fd : ℕ} {name : ν}
    (h : ∀ d, fs.fds fd = some d → d.name ≠ name) (offset : ℕ) (bs : List UInt8) :
    (fs.pwrite fd offset bs).data name = fs.data name := by
  unfold Files.pwrite
  split
  · next heq => exact Function.update_of_ne (h _ heq).symm _ _
  · rfl

theorem Files.write_end {fs : Files ν} {fd : ℕ} {name : ν} {old : List UInt8}
    (hfd : fs.fds fd = some ⟨name, true, old.length⟩) (hdata : fs.data name = some old)
    (bs : List UInt8) : fs.write fd bs =
      { data := Function.update fs.data name (some (old ++ bs))
        fds := Function.update fs.fds fd (some ⟨name, true, old.length + bs.length⟩) } := by
  unfold Files.write
  rw [hfd]
  simp only [hdata, Option.map_some, overwrite_length]

theorem Files.pwrite_eq {fs : Files ν} {fd position : ℕ} {name : ν} {old : List UInt8}
    (hfd : fs.fds fd = some ⟨name, true, position⟩) (hdata : fs.data name = some old) (offset : ℕ)
    (bs : List UInt8) : fs.pwrite fd offset bs =
      { fs with data := Function.update fs.data name (some (overwrite old offset bs)) } := by
  unfold Files.pwrite
  rw [hfd]
  simp only [hdata, Option.map_some]

theorem Files.fds_pwrite (fs : Files ν) (fd offset : ℕ) (bs : List UInt8) :
    (fs.pwrite fd offset bs).fds = fs.fds := by
  unfold Files.pwrite
  split <;> rfl

omit [DecidableEq ν] in
theorem Files.pread_eq {fs : Files ν} {fd : ℕ} {d : Desc ν} {bytes : List UInt8} (hfd : fs.fds fd = some d)
    (hdata : fs.data d.name = some bytes) (n offset : ℕ) : fs.pread fd n offset = readAt bytes offset n := by
  unfold Files.pread
  rw [hfd]
  simp only [hdata, Option.getD_some]

end LazyLog.Lib.Disk
