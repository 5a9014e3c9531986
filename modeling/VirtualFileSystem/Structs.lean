import Mathlib.Tactic
import Mathlib.Data.List.TakeWhile
import VirtualFileSystem.Lib.ByteImage

/-!
# Data model (`structs.h`)

A filesystem is the three mapped files `file_data`, `dir_table` and `hash_data`, the heap of
`file_t` records, the two arrays of pointers to them and the counters.  Machine integers are
naturals or integers; a conversion that can lose bits is written out (`toU32`, `toU64`, `toI32`,
`toI64`).  An operation that may stop the program returns in `Run`: a failed `assert`, an access
outside a mapping, a signed overflow and an endless loop are the four faults.
-/

namespace Vfs

open FlatImage

/-! ## Constants -/

/-- `MAX_FILE_DATA_LEN`, also the offset of newly created zero size files. -/
def maxFileDataLen : ℕ := 4294967296
/-- `MAX_FILE_DATA_LEN_MINUS_ONE`. -/
def maxFileDataLenMinusOne : ℕ := 4294967295
def blockLen : ℕ := 256
def maxNumFiles : ℕ := 65536
def nameLen : ℕ := 64
def offsetLen : ℕ := 4
def metaLen : ℕ := 72
def hashLen : ℕ := 16

/-! ## Machine integers -/

def toU32 (x : ℤ) : ℕ := (x % 2 ^ 32).toNat
def toU64 (x : ℤ) : ℕ := (x % 2 ^ 64).toNat
def toI32 (x : ℤ) : ℤ := Int.bmod x (2 ^ 32)
def toI64 (x : ℤ) : ℤ := Int.bmod x (2 ^ 64)

theorem toU32_of_lt {n : ℕ} (h : n < 2 ^ 32) : toU32 n = n := by unfold toU32; omega

theorem toU32_lt (x : ℤ) : toU32 x < 2 ^ 32 := by unfold toU32; omega

theorem toU64_of_lt {n : ℕ} (h : n < 2 ^ 64) : toU64 n = n := by unfold toU64; omega

theorem toU64_of_nonneg {x : ℤ} (h0 : 0 ≤ x) (h : x < 2 ^ 64) : toU64 x = x.toNat := by
  unfold toU64; omega

theorem toI32_of_bounds {x : ℤ} (h0 : -2 ^ 31 ≤ x) (h : x < 2 ^ 31) : toI32 x = x := by
  unfold toI32; rw [Int.bmod_def]; omega

theorem toI64_of_bounds {x : ℤ} (h0 : -2 ^ 63 ≤ x) (h : x < 2 ^ 63) : toI64 x = x := by
  unfold toI64; rw [Int.bmod_def]; omega

theorem toI64_of_wrapped {x : ℤ} (h0 : 2 ^ 63 ≤ x) (h : x < 2 ^ 64 + 2 ^ 63) :
    toI64 x = x - 2 ^ 64 := by
  unfold toI64; rw [Int.bmod_def]; omega

/-- An unsigned value that is not negative as a signed one is kept. -/
theorem toI32_of_nonneg {x : ℤ} (h0 : -1 ≤ x) (h : x < 2 ^ 32) (hs : 0 ≤ toI32 x) :
    toI32 x = x := by
  unfold toI32 at *
  rw [Int.bmod_def] at *
  omega

theorem toI64_of_nonneg {n : ℕ} (h : n < 2 ^ 64) (h0 : 0 ≤ toI64 n) : toI64 n = n := by
  unfold toI64 at *
  rw [Int.bmod_def] at *
  omega

theorem toI64_of_lt {n : ℕ} (h : n < 2 ^ 63) : toI64 n = n := toI64_of_bounds (by omega) (by omega)

/-! ## Runs that may stop -/

/-- What stops the program. -/
inductive Fault
  | assertion
  | outOfBounds
  | signedOverflow
  | diverges
  deriving DecidableEq, Repr

abbrev Run := Except Fault

def Run.assert (p : Prop) [Decidable p] : Run Unit :=
  if p then .ok () else .error .assertion

/-- The `int32_t` product `x * y`, whose overflow is undefined. -/
def mulI32 (x y : ℤ) : Run ℤ :=
  if -2 ^ 31 ≤ x * y ∧ x * y < 2 ^ 31 then .ok (x * y) else .error .signedOverflow

/-- The `int32_t` sum `x + y`, whose overflow is undefined. -/
def addI32 (x y : ℤ) : Run ℤ :=
  if -2 ^ 31 ≤ x + y ∧ x + y < 2 ^ 31 then .ok (x + y) else .error .signedOverflow

/-- Reading `n` bytes at address `a` of a mapping. -/
def memRead (m : List UInt8) (a : ℤ) (n : ℕ) : Run (List UInt8) :=
  if 0 ≤ a ∧ a + n ≤ m.length then .ok (slice m a.toNat n) else .error .outOfBounds

/-- Writing `bs` at address `a` of a mapping. -/
def memWrite (m : List UInt8) (a : ℤ) (bs : List UInt8) : Run (List UInt8) :=
  if 0 ≤ a ∧ a + bs.length ≤ m.length then .ok (splice m a.toNat bs) else .error .outOfBounds

theorem Run.bind_eq_ok {α β : Type} {x : Run α} {f : α → Run β} {b : β} :
    (x >>= f) = .ok b ↔ ∃ a, x = .ok a ∧ f a = .ok b := by
  cases x with
  | error e => simp [bind, Except.bind]
  | ok a => simp [bind, Except.bind]

@[simp] theorem Run.ok_bind {α β : Type} (a : α) (f : α → Run β) :
    ((Except.ok a : Run α) >>= f) = f a := rfl

@[simp] theorem Run.pure_eq {α : Type} (a : α) : (pure a : Run α) = .ok a := rfl

/-- The run completes with a result that satisfies `P`. -/
def Run.Holds {α : Type} (x : Run α) (P : α → Prop) : Prop :=
  match x with
  | .ok a => P a
  | .error _ => False

instance {α : Type} (x : Run α) (P : α → Prop) [DecidablePred P] : Decidable (x.Holds P) :=
  match x with
  | .ok a => inferInstanceAs (Decidable (P a))
  | .error _ => .isFalse id

theorem Run.holds_iff {α : Type} {x : Run α} {P : α → Prop} :
    Run.Holds x P ↔ ∃ a, x = .ok a ∧ P a := by
  cases x with
  | error e => simp [Run.Holds]
  | ok a => simp [Run.Holds]

theorem Run.assert_eq_ok {p : Prop} [Decidable p] {u : Unit} : Run.assert p = .ok u ↔ p := by
  unfold Run.assert
  split_ifs with h <;> simp [h]

theorem Run.assert_of {p : Prop} [Decidable p] (h : p) : Run.assert p = .ok () := if_pos h

theorem memRead_eq_ok {m : List UInt8} {a : ℤ} {n : ℕ} {bs : List UInt8} :
    memRead m a n = .ok bs ↔ (0 ≤ a ∧ a + n ≤ m.length) ∧ bs = slice m a.toNat n := by
  unfold memRead
  split_ifs with h
  · simp [h, eq_comm]
  · simp [h]

theorem memWrite_eq_ok {m : List UInt8} {a : ℤ} {bs m' : List UInt8} :
    memWrite m a bs = .ok m' ↔ (0 ≤ a ∧ a + bs.length ≤ m.length) ∧ m' = splice m a.toNat bs := by
  unfold memWrite
  split_ifs with h
  · simp [h, eq_comm]
  · simp [h]

theorem memWrite_length {m : List UInt8} {a : ℤ} {bs m' : List UInt8}
    (hr : memWrite m a bs = .ok m') : m'.length = m.length := by
  obtain ⟨hb, rfl⟩ := memWrite_eq_ok.mp hr
  exact length_splice (by omega)

theorem memRead_of {m : List UInt8} {a n : ℕ} (h : a + n ≤ m.length) :
    memRead m a n = .ok (slice m a n) := by
  rw [memRead_eq_ok]; exact ⟨by omega, rfl⟩

theorem memWrite_of {m : List UInt8} {a : ℕ} {bs : List UInt8} (h : a + bs.length ≤ m.length) :
    memWrite m a bs = .ok (splice m a bs) := by
  rw [memWrite_eq_ok]; exact ⟨by omega, rfl⟩

theorem mulI32_of {x y : ℤ} (h0 : -2 ^ 31 ≤ x * y) (h : x * y < 2 ^ 31) :
    mulI32 x y = .ok (x * y) := if_pos ⟨h0, h⟩

theorem mulI32_eq {x y z : ℤ} (h : mulI32 x y = .ok z) : z = x * y := by
  unfold mulI32 at h
  split_ifs at h
  exact (Except.ok.inj h).symm

theorem addI32_of {x y : ℤ} (h0 : -2 ^ 31 ≤ x + y) (h : x + y < 2 ^ 31) :
    addI32 x y = .ok (x + y) := if_pos ⟨h0, h⟩

/-! ## Little-endian integers -/

/-- The four bytes of a `uint32_t`. -/
def le32 (n : ℕ) : List UInt8 :=
  [UInt8.ofNat n, UInt8.ofNat (n / 2 ^ 8), UInt8.ofNat (n / 2 ^ 16), UInt8.ofNat (n / 2 ^ 24)]

/-- The integer stored little-endian in `bs`. -/
def leVal (bs : List UInt8) : ℕ := bs.foldr (fun b acc => b.toNat + 2 ^ 8 * acc) 0

@[simp] theorem length_le32 (n : ℕ) : (le32 n).length = 4 := rfl

theorem leVal_le32 {n : ℕ} (h : n < 2 ^ 32) : leVal (le32 n) = n := by
  simp only [leVal, le32, List.foldr, UInt8.toNat_ofNat']
  omega

theorem leVal_lt (bs : List UInt8) : leVal bs < 2 ^ (8 * bs.length) := by
  induction bs with
  | nil => simp [leVal]
  | cons b bs ih =>
    have hb := b.toNat_lt
    have hpow : 2 ^ (8 * (b :: bs).length) = 2 ^ 8 * 2 ^ (8 * bs.length) := by
      rw [List.length_cons, ← Nat.pow_add]
      congr 1
      omega
    rw [hpow]
    show b.toNat + 2 ^ 8 * leVal bs < _
    omega

/-! ## Strings -/

/-- A C string: the bytes before its terminator. -/
structure CString where
  bytes : List UInt8
  nul_free : (0 : UInt8) ∉ bytes
  deriving DecidableEq

/-- The string of one byte. -/
def CString.ofByte (b : UInt8) (h : 0 ≠ b) : CString := ⟨[b], by simpa using h⟩

theorem nul_ne_97 : (0 : UInt8) ≠ 97 := by decide

theorem nul_ne_98 : (0 : UInt8) ≠ 98 := by decide

theorem nul_ne_99 : (0 : UInt8) ≠ 99 := by decide

theorem nul_ne_100 : (0 : UInt8) ≠ 100 := by decide

/-- The string in `char name[NAME_LEN]`. -/
structure FileName where
  bytes : List UInt8
  nul_free : (0 : UInt8) ∉ bytes
  length_lt : bytes.length < nameLen
  deriving DecidableEq

theorem FileName.ext {a b : FileName} (h : a.bytes = b.bytes) : a = b := by
  cases a; cases b; cases h; rfl

/-- The first 63 bytes of a string, as `strncpy` and the terminator leave them in a name field. -/
def CString.toFileName (s : CString) : FileName where
  bytes := s.bytes.take (nameLen - 1)
  nul_free := fun h => s.nul_free (List.mem_of_mem_take h)
  length_lt := by rw [List.length_take]; unfold nameLen; omega

/-- The string at the start of a field: its bytes up to the first NUL, at most 63. -/
def FileName.ofField (field : List UInt8) : FileName where
  bytes := (field.take (nameLen - 1)).takeWhile (· ≠ 0)
  nul_free := fun h => by simpa using List.mem_takeWhile_imp h
  length_lt := by
    have := (List.takeWhile_prefix (fun b : UInt8 => decide (b ≠ 0))
      (l := field.take (nameLen - 1))).length_le
    rw [List.length_take] at this
    unfold nameLen at *; omega

/-- `strncmp`: the difference of the first bytes that differ, zero if there are none. -/
def strncmp : List UInt8 → List UInt8 → ℕ → ℤ
  | _, _, 0 => 0
  | [], [], _ + 1 => 0
  | [], y :: _, _ + 1 => -(y.toNat : ℤ)
  | x :: _, [], _ + 1 => x.toNat
  | x :: xs, y :: ys, n + 1 => if x = y then strncmp xs ys n else (x.toNat : ℤ) - y.toNat

/-! ## `file_t` -/

/-- The address of a `file_t` on the heap. -/
abbrev Ptr := ℕ

/-- The key and kind of an array. -/
inductive ArrType
  | offset
  | name
  deriving DecidableEq, Repr

/-- `file_t`. -/
structure FileT where
  name : FileName
  offset : ℕ
  length : ℕ
  index : ℕ
  oIndex : ℤ
  nIndex : ℤ

/-- The position of a file in the array of the given kind: `o_index` or `n_index`. -/
def FileT.pos (t : ArrType) (f : FileT) : ℤ :=
  match t with
  | .offset => f.oIndex
  | .name => f.nIndex

def FileT.setPos (t : ArrType) (v : ℤ) (f : FileT) : FileT :=
  match t with
  | .offset => { f with oIndex := v }
  | .name => { f with nIndex := v }

section Pos

variable (t : ArrType) (v : ℤ) (f : FileT)

@[simp] theorem FileT.setPos_pos : (f.setPos t v).pos t = v := by cases t <;> rfl
@[simp] theorem FileT.setPos_name : (f.setPos t v).name = f.name := by cases t <;> rfl
@[simp] theorem FileT.setPos_offset : (f.setPos t v).offset = f.offset := by cases t <;> rfl
@[simp] theorem FileT.setPos_length : (f.setPos t v).length = f.length := by cases t <;> rfl
@[simp] theorem FileT.setPos_index : (f.setPos t v).index = f.index := by cases t <;> rfl
@[simp] theorem FileT.setPos_self : f.setPos t (f.pos t) = f := by cases t <;> rfl
@[simp] theorem FileT.setPos_setPos (w : ℤ) : (f.setPos t v).setPos t w = f.setPos t w := by
  cases t <;> rfl
@[simp] theorem FileT.setPos_offset_nIndex : (f.setPos .offset v).nIndex = f.nIndex := rfl
@[simp] theorem FileT.setPos_name_oIndex : (f.setPos .name v).oIndex = f.oIndex := rfl

end Pos

/-- The heap of `file_t` records. -/
abbrev Heap := Ptr → FileT

/-- Replacing the record at `p`. -/
def Heap.set (h : Heap) (p : Ptr) (f : FileT) : Heap := fun q => if q = p then f else h q

@[simp] theorem Heap.set_self (h : Heap) (p : Ptr) (f : FileT) : h.set p f p = f := if_pos rfl

theorem Heap.set_of_ne (h : Heap) {p q : Ptr} (f : FileT) (hq : q ≠ p) : h.set p f q = h q :=
  if_neg hq

/-! ## `arr_t` and `filesys_t` -/

/-- `arr_t`: `size` is the length of the list. -/
structure Arr where
  capacity : ℕ
  type : ArrType
  list : List Ptr

def Arr.size (a : Arr) : ℕ := a.list.length

/-- `filesys_t`, with the heap it points into.  `live` lists the records allocated and not yet
freed; `next` is the address the next allocation returns. -/
structure Filesys where
  heap : Heap
  next : Ptr
  live : List Ptr
  file : List UInt8
  dir : List UInt8
  hash : List UInt8
  oList : Arr
  nList : Arr
  used : ℤ
  indexLen : ℕ
  indexCount : ℤ
  index : List UInt8
  treeLen : ℤ
  leafOffset : ℤ

/-- `file_data_len`, the length of the mapping. -/
def Filesys.fileDataLen (s : Filesys) : ℕ := s.file.length

/-- The array of the given kind. -/
def Filesys.arr (t : ArrType) (s : Filesys) : Arr :=
  match t with
  | .offset => s.oList
  | .name => s.nList

/-- Replacing the array of the given kind and the heap. -/
def Filesys.setArr (t : ArrType) (a : Arr) (h : Heap) (s : Filesys) : Filesys :=
  match t with
  | .offset => { s with oList := a, heap := h }
  | .name => { s with nList := a, heap := h }

end Vfs
