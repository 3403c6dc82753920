import Mathlib.Data.List.GetD
import Mathlib.Tactic

/-! # Bytes and flat memory

Little-endian words (`leBytes`, `leNat`) and a byte memory read and written in blocks. `Holds m a bs`
says that the bytes of `m` from the address `a` on are `bs`; a memory is a function, so a *view* of a
memory (a part of it seen through another numbering of its addresses) is again a memory, and every
lemma on `Holds` applies to it. -/

namespace LazyLog.Lib.Bytes

/-! ### Little-endian words -/

/-- The `w` bytes of `n`, least significant first; what does not fit is dropped. -/
def leBytes : ℕ → ℕ → List UInt8
  | 0, _ => []
  | w + 1, n => UInt8.ofNat n :: leBytes w (n / 256)

/-- The number written by little-endian bytes. -/
def leNat (bs : List UInt8) : ℕ := bs.foldr (fun b n => b.toNat + 256 * n) 0

@[simp] theorem length_leBytes (w n : ℕ) : (leBytes w n).length = w := by
  induction w generalizing n with
  | zero => rfl
  | succ w ih => simp [leBytes, ih]

theorem leNat_leBytes (w n : ℕ) : leNat (leBytes w n) = n % 256 ^ w := by
  induction w generalizing n with
  | zero => simp [leBytes, leNat, Nat.mod_one]
  | succ w ih =>
    have h : leNat (leBytes (w + 1) n) = (UInt8.ofNat n).toNat + 256 * leNat (leBytes w (n / 256)) :=
      rfl
    rw [h, ih, UInt8.toNat_ofNat', show (2 : ℕ) ^ 8 = 256 from rfl, Nat.pow_succ', Nat.mod_mul]

/-! ### Blocks of memory -/

/-- A byte memory; an address that is not written keeps whatever it held. -/
abbrev Mem := ℕ → UInt8

/-- The `n` bytes from the address `a` on. -/
def readBytes (m : Mem) (a n : ℕ) : List UInt8 := (List.range n).map fun i => m (a + i)

/-- Write the block `bs` at the address `a`. -/
def writeBytes (m : Mem) (a : ℕ) (bs : List UInt8) : Mem := fun x =>
  if a ≤ x ∧ x < a + bs.length then bs.getD (x - a) 0 else m x

/-- Copy `n` bytes of the memory `s`, from `src` on, to the address `dst` of `d`. -/
def blit (d : Mem) (dst : ℕ) (s : Mem) (src n : ℕ) : Mem := fun x =>
  if dst ≤ x ∧ x < dst + n then s (src + (x - dst)) else d x

/-- The word of `w` bytes at the address `a`. -/
def load (m : Mem) (a w : ℕ) : ℕ := leNat (readBytes m a w)

/-- The bytes of `m` from the address `a` on are `bs`. -/
def Holds (m : Mem) (a : ℕ) (bs : List UInt8) : Prop := readBytes m a bs.length = bs

@[simp] theorem length_readBytes (m : Mem) (a n : ℕ) : (readBytes m a n).length = n := by
  simp [readBytes]

theorem readBytes_congr {m m' : Mem} {a a' n : ℕ} (h : ∀ i < n, m (a + i) = m' (a' + i)) :
    readBytes m a n = readBytes m' a' n := by
  refine List.map_congr_left fun i hi => ?_
  exact h i (List.mem_range.mp hi)

theorem readBytes_add (m : Mem) (a n k : ℕ) :
    readBytes m a (n + k) = readBytes m a n ++ readBytes m (a + n) k := by
  unfold readBytes
  rw [List.range_add, List.map_append, List.map_map]
  congr 1
  refine List.map_congr_left fun i _ => ?_
  simp [Nat.add_assoc]

theorem writeBytes_of_notMem {m : Mem} {a x : ℕ} {bs : List UInt8}
    (h : x < a ∨ a + bs.length ≤ x) : writeBytes m a bs x = m x := by
  unfold writeBytes
  rw [if_neg (by omega)]

theorem writeBytes_getD {m : Mem} {a i : ℕ} {bs : List UInt8} (h : i < bs.length) :
    writeBytes m a bs (a + i) = bs.getD i 0 := by
  unfold writeBytes
  rw [if_pos (by omega), Nat.add_sub_cancel_left]

theorem blit_of_notMem {d s : Mem} {dst src n x : ℕ} (h : x < dst ∨ dst + n ≤ x) :
    blit d dst s src n x = d x := by
  unfold blit
  rw [if_neg (by omega)]

theorem blit_add {d s : Mem} {dst src n i : ℕ} (h : i < n) :
    blit d dst s src n (dst + i) = s (src + i) := by
  unfold blit
  rw [if_pos (by omega), Nat.add_sub_cancel_left]

theorem writeBytes_append (m : Mem) (a : ℕ) (bs cs : List UInt8) :
    writeBytes (writeBytes m a bs) (a + bs.length) cs = writeBytes m a (bs ++ cs) := by
  funext x
  unfold writeBytes
  simp only [List.length_append]
  by_cases h1 : a + bs.length ≤ x ∧ x < a + bs.length + cs.length
  · rw [if_pos h1, if_pos (by omega), List.getD_append_right _ _ _ _ (by omega)]
    congr 1
    omega
  · rw [if_neg h1]
    by_cases h2 : a ≤ x ∧ x < a + bs.length
    · rw [if_pos h2, if_pos (by omega), List.getD_append _ _ _ _ (by omega)]
    · rw [if_neg h2, if_neg (by omega)]

/-! ### What a memory holds -/

theorem holds_iff {m : Mem} {a : ℕ} {bs : List UInt8} :
    Holds m a bs ↔ ∀ i < bs.length, m (a + i) = bs.getD i 0 := by
  unfold Holds
  constructor
  · intro h i hi
    rw [← h, List.getD_eq_getElem _ _ (by simpa using hi)]
    simp [readBytes]
  · intro h
    refine List.ext_getElem (by simp) fun i h1 h2 => ?_
    rw [← List.getD_eq_getElem _ 0 h2, ← h i h2]
    simp [readBytes]

theorem Holds.congr {m m' : Mem} {a a' : ℕ} {bs : List UInt8} (h : Holds m a bs)
    (hm : ∀ i < bs.length, m' (a' + i) = m (a + i)) : Holds m' a' bs := by
  unfold Holds at h ⊢
  rw [← h, length_readBytes]
  exact readBytes_congr hm

theorem holds_writeBytes (m : Mem) (a : ℕ) (bs : List UInt8) : Holds (writeBytes m a bs) a bs :=
  holds_iff.mpr fun _ hi => writeBytes_getD hi

theorem Holds.of_readBytes {m m' : Mem} {a a' n : ℕ} {bs : List UInt8} (h : Holds m a (readBytes m' a' n))
    (hbs : Holds m' a' bs) (hle : bs.length ≤ n) : Holds m a bs := by
  refine hbs.congr fun i hi => ?_
  rw [holds_iff.mp h i (by rw [length_readBytes]; omega), List.getD_eq_getElem _ _ (by simp; omega)]
  simp [readBytes]

theorem holds_append {m : Mem} {a : ℕ} {bs cs : List UInt8} :
    Holds m a (bs ++ cs) ↔ Holds m a bs ∧ Holds m (a + bs.length) cs := by
  unfold Holds
  rw [List.length_append, readBytes_add]
  constructor
  · intro h
    exact List.append_inj h (by simp)
  · rintro ⟨h1, h2⟩
    rw [h1, h2]

theorem Holds.left {m : Mem} {a : ℕ} {bs cs : List UInt8} (h : Holds m a (bs ++ cs)) :
    Holds m a bs := (holds_append.mp h).1

theorem Holds.right {m : Mem} {a : ℕ} {bs cs : List UInt8} (h : Holds m a (bs ++ cs)) :
    Holds m (a + bs.length) cs := (holds_append.mp h).2

theorem Holds.load {m : Mem} {a w n : ℕ} (h : Holds m a (leBytes w n)) :
    load m a w = n % 256 ^ w := by
  unfold Holds at h
  rw [length_leBytes] at h
  unfold LazyLog.Lib.Bytes.load
  rw [h, leNat_leBytes]

theorem load_congr {m m' : Mem} {a a' w : ℕ} (h : ∀ i < w, m (a + i) = m' (a' + i)) :
    load m a w = load m' a' w := by
  unfold load
  rw [readBytes_congr h]

theorem leBytes_leNat : ∀ bs : List UInt8, leBytes bs.length (leNat bs) = bs
  | [] => rfl
  | b :: bs => by
    have hb := b.toNat_lt
    have hn : leNat (b :: bs) = b.toNat + 256 * leNat bs := rfl
    rw [List.length_cons, leBytes, hn, show (b.toNat + 256 * leNat bs) / 256 = leNat bs by omega, leBytes_leNat bs]
    congr 1
    refine UInt8.toNat_inj.mp ?_
    rw [UInt8.toNat_ofNat']
    omega

theorem holds_load (m : Mem) (a w : ℕ) : Holds m a (leBytes w (load m a w)) := by
  have h := leBytes_leNat (readBytes m a w)
  rw [length_readBytes] at h
  unfold Holds load
  rw [h, length_readBytes]

theorem load_lt (m : Mem) (a w : ℕ) : load m a w < 256 ^ w := by
  have h := leNat_leBytes w (load m a w)
  have hb := leBytes_leNat (readBytes m a w)
  rw [length_readBytes] at hb
  unfold load at h ⊢
  rw [hb] at h
  rw [h]
  exact Nat.mod_lt _ (Nat.pow_pos (by decide))

theorem load_writeBytes_of_disjoint {a b w : ℕ} {bs : List UInt8} (m : Mem)
    (h : a + bs.length ≤ b ∨ b + w ≤ a) : load (writeBytes m a bs) b w = load m b w :=
  load_congr fun i hi => writeBytes_of_notMem (by omega)

theorem load_writeBytes (m : Mem) (a w v : ℕ) : load (writeBytes m a (leBytes w v)) a w = v % 256 ^ w :=
  (holds_writeBytes m a (leBytes w v)).load

/-! ### Guarded access

An access to a buffer that ends at the address `limit`. It fails if it reaches the limit. -/

/-- The `n` bytes from the address `a` on, all below the limit. -/
def readWithin (limit : ℕ) (m : Mem) (a n : ℕ) : Option (List UInt8) :=
  if a + n ≤ limit then some (readBytes m a n) else none

/-- The word of `w` bytes at the address `a`, all below the limit. -/
def loadWithin (limit : ℕ) (m : Mem) (a w : ℕ) : Option ℕ := (readWithin limit m a w).map leNat

theorem readWithin_of_le {limit a n : ℕ} (m : Mem) (h : a + n ≤ limit) :
    readWithin limit m a n = some (readBytes m a n) := if_pos h

theorem readWithin_of_lt {limit a n : ℕ} (m : Mem) (h : limit < a + n) : readWithin limit m a n = none :=
  if_neg (Nat.not_le.mpr h)

theorem loadWithin_of_le {limit a w : ℕ} (m : Mem) (h : a + w ≤ limit) :
    loadWithin limit m a w = some (load m a w) := by
  unfold loadWithin
  rw [readWithin_of_le m h]
  rfl

theorem loadWithin_of_lt {limit a w : ℕ} (m : Mem) (h : limit < a + w) : loadWithin limit m a w = none := by
  unfold loadWithin
  rw [readWithin_of_lt m h]
  rfl

end LazyLog.Lib.Bytes
