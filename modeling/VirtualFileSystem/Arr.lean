import VirtualFileSystem.Structs
import VirtualFileSystem.Lib.Bisect

/-!
# Sorted arrays of files (`arr.c`)

The arrays hold pointers; the heap is passed and returned because inserting and removing rewrite
the `o_index` or `n_index` of every element they displace.  A shift works on the buffer with the
slot behind the last element, one element at a time, as the loops of the source do.
-/

namespace Vfs

/-- `cmp_key`. -/
def cmpKey (a b : FileT) (t : ArrType) : ℤ :=
  match t with
  | .offset =>
    if a.offset < b.offset then -1
    else if a.offset > b.offset then 1
    else if b.length > 0 then 0
    -- newly created zero size files redirect the search to the left, resized ones to the right
    else if b.offset ≥ maxFileDataLen then -1
    else 1
  | .name => strncmp a.name.bytes b.name.bytes (nameLen - 1)

/-- `arr_init`. -/
def arrInit (capacity : ℤ) (t : ArrType) : Run Arr := do
  Run.assert (0 ≤ capacity ∧ capacity ≤ maxNumFiles)
  pure ⟨capacity.toNat, t, []⟩

/-- One step of a shift: add `d` to the stored position of the element at `i` and copy it to `j`. -/
def shiftStep (t : ArrType) (d : ℤ) (i j : ℕ) (st : List Ptr × Heap) : List Ptr × Heap :=
  let p := st.1.getD i 0
  (st.1.set j p, st.2.set p ((st.2 p).setPos t ((st.2 p).pos t + d)))

/-- The loop of `arr_rshift` over `start + n - 1, …, start`. -/
def rshiftLoop (t : ArrType) (start : ℕ) : ℕ → List Ptr × Heap → List Ptr × Heap
  | 0, st => st
  | n + 1, st => rshiftLoop t start n (shiftStep t 1 (start + n) (start + n + 1) st)

/-- `arr_rshift`. -/
def arrRshift (t : ArrType) (start stop : ℕ) (st : List Ptr × Heap) : List Ptr × Heap :=
  rshiftLoop t start (stop + 1 - start) st

/-- The loop of `arr_lshift` over `i, …, i + n - 1`. -/
def lshiftLoop (t : ArrType) : ℕ → ℕ → List Ptr × Heap → List Ptr × Heap
  | _, 0, st => st
  | i, n + 1, st => lshiftLoop t (i + 1) n (shiftStep t (-1) i (i - 1) st)

/-- `arr_lshift`. -/
def arrLshift (t : ArrType) (start stop : ℕ) (st : List Ptr × Heap) : List Ptr × Heap :=
  lshiftLoop t start (stop + 1 - start) st

/-- `arr_insert`. -/
def arrInsert (index : ℤ) (file : Ptr) (arr : Arr) (heap : Heap) : Run (Arr × Heap) := do
  Run.assert (0 ≤ index ∧ index ≤ arr.size)
  Run.assert (arr.size < arr.capacity)
  -- the buffer with the slot behind the last element, whose content is never read
  let buf := arr.list ++ [0]
  let st := if index < arr.size then arrRshift arr.type index.toNat (arr.size - 1) (buf, heap)
    else (buf, heap)
  pure ({ arr with list := st.1.set index.toNat file },
    st.2.set file ((st.2 file).setPos arr.type index))

/-- `arr_get_index`. -/
def arrGetIndex (file : FileT) (arr : Arr) (heap : Heap) (insert : Bool) : Run ℤ :=
  if arr.size = 0 then
    .ok (if insert then 0 else -1)
  else if insert ∧ arr.type = .offset ∧ file.length = 0 then
    .ok arr.size
  else
    let probe (m : ℕ) : Option ℤ := arr.list[m]?.map fun p => cmpKey file (heap p) arr.type
    match bisect probe insert (arr.size + 1) 0 (arr.size - 1) with
    | some r => .ok r
    | none => .error .diverges

/-- `arr_sorted_insert`. -/
def arrSortedInsert (file : Ptr) (arr : Arr) (heap : Heap) : Run (ℤ × Arr × Heap) := do
  Run.assert (arr.size < arr.capacity)
  let index ← arrGetIndex (heap file) arr heap true
  if index < 0 then
    pure (-1, arr, heap)
  else
    let (arr, heap) ← arrInsert index file arr heap
    pure (index, arr, heap)

/-- `arr_get`. -/
def arrGet (index : ℤ) (arr : Arr) : Run Ptr := do
  Run.assert (0 ≤ index ∧ index < arr.size)
  pure (arr.list.getD index.toNat 0)

/-- `arr_remove`. -/
def arrRemove (index : ℤ) (arr : Arr) (heap : Heap) : Run (Ptr × Arr × Heap) := do
  Run.assert (0 ≤ index ∧ index < arr.size)
  let f ← arrGet index arr
  let st := if index < (arr.size : ℤ) - 1 then
      arrLshift arr.type (index.toNat + 1) (arr.size - 1) (arr.list, heap)
    else (arr.list, heap)
  pure (f, { arr with list := st.1.take (arr.size - 1) },
    st.2.set f ((st.2 f).setPos arr.type (-1)))

/-- The key check of `arr_get_by_key` and `arr_remove_by_key`. -/
def validKey (key : FileT) (arr : Arr) (fileDataLen : ℕ) : Prop :=
  match arr.type with
  | .offset => key.offset < fileDataLen
  | .name => key.name.bytes ≠ []

instance (key : FileT) (arr : Arr) (fileDataLen : ℕ) :
    Decidable (validKey key arr fileDataLen) := by
  unfold validKey; cases arr.type <;> infer_instance

/-- `arr_get_by_key`. -/
def arrGetByKey (key : FileT) (arr : Arr) (heap : Heap) (fileDataLen : ℕ) : Run (Option Ptr) :=
  if ¬ validKey key arr fileDataLen then pure none
  else do
    let index ← arrGetIndex key arr heap false
    if index < 0 then pure none
    else do
      let p ← arrGet index arr
      pure (some p)

/-- `arr_remove_by_key`. -/
def arrRemoveByKey (key : FileT) (arr : Arr) (heap : Heap) (fileDataLen : ℕ) :
    Run (Option Ptr × Arr × Heap) :=
  if ¬ validKey key arr fileDataLen then pure (none, arr, heap)
  else do
    match ← arrGetByKey key arr heap fileDataLen with
    | none => pure (none, arr, heap)
    | some p =>
      let (_, arr, heap) ← arrRemove ((heap p).pos arr.type) arr heap
      pure (some p, arr, heap)

end Vfs
