import VirtualFileSystem.Helper
import VirtualFileSystem.Hash

/-!
# The filesystem (`myfilesystem.c`)

Each call is one atomic function on the state: the lock is held from its first to its last access
and `msync` does not change what the mappings hold.  Allocation is taken to succeed.  A call
returns its code with the new state.
-/

namespace Vfs

open FlatImage

/-! ## The arrays of a filesystem -/

/-- `arr_sorted_insert` into an array of the filesystem; the callers ignore its result. -/
def sortedInsert (t : ArrType) (p : Ptr) (s : Filesys) : Run Filesys := do
  let (_, arr, heap) ← arrSortedInsert p (s.arr t) s.heap
  pure (s.setArr t arr heap)

/-- `arr_remove` from an array of the filesystem. -/
def removeAt (t : ArrType) (index : ℤ) (s : Filesys) : Run Filesys := do
  let (_, arr, heap) ← arrRemove index (s.arr t) s.heap
  pure (s.setArr t arr heap)

/-- A key with only its name set, as the calls look files up. -/
def nameKey (name : CString) : FileT := ⟨name.toFileName, 0, 0, 0, -1, -1⟩

/-- `arr_get_by_key` on `n_list`. -/
def lookup (name : CString) (s : Filesys) : Run (Option Ptr) :=
  arrGetByKey (nameKey name) s.nList s.heap s.fileDataLen

/-! ## `init_fs` -/

/-- The loop of `init_fs` over the entries `i, …, i + n - 1` of `dir_table`. -/
def initLoop : ℕ → ℕ → Filesys → Run Filesys
  | _, 0, s => pure s
  | i, n + 1, s => do
    let name ← memRead s.dir ((metaLen * i : ℕ) : ℤ) (nameLen - 1)
    if name.headD 0 ≠ 0 then do
      let lengthBytes ← memRead s.dir ((metaLen * i + (nameLen + offsetLen) : ℕ) : ℤ) 4
      let length := leVal lengthBytes
      let offset ← (if length = 0 then pure maxFileDataLen else do
        let offsetBytes ← memRead s.dir ((metaLen * i + nameLen : ℕ) : ℤ) 4
        pure (leVal offsetBytes) : Run ℕ)
      let (p, s) := fileInit (FileName.ofField name) offset length i s
      let s ← sortedInsert .offset p s
      let s ← sortedInsert .name p s
      initLoop (i + 1) n { s with
        used := toI64 (s.used + (s.heap p).length)
        index := s.index.set i 1
        indexCount := s.indexCount + 1 }
    else initLoop (i + 1) n s

/-- The state `init_fs` builds before it reads the directory. -/
def initState (file dir hash : List UInt8) (oList nList : Arr) : Filesys where
  heap := fun _ => ⟨⟨[], by simp, by simp [nameLen]⟩, 0, 0, 0, -1, -1⟩
  next := 0
  live := []
  file := file
  dir := dir
  hash := hash
  oList := oList
  nList := nList
  used := 0
  indexLen := oList.capacity
  indexCount := 0
  index := List.replicate oList.capacity 0
  treeLen := toI32 (hash.length / hashLen : ℕ)
  leafOffset := (toI32 (hash.length / hashLen : ℕ)).tdiv 2

/-- `init_fs` on the contents of the three files; mapping an empty file fails. -/
def initFs (file dir hash : List UInt8) : Run Filesys := do
  Run.assert (file ≠ [] ∧ dir ≠ [] ∧ hash ≠ [])
  let oList ← arrInit (toI32 (dir.length / metaLen : ℕ)) .offset
  let nList ← arrInit (toI32 (dir.length / metaLen : ℕ)) .name
  initLoop 0 oList.capacity (initState file dir hash oList nList)

/-! ## Repacking -/

/-- `repack_move`: the new offset is passed in 32 bits. -/
def repackMove (p : Ptr) (newOffset : ℕ) (s : Filesys) : Run Filesys := do
  let new := toU32 newOffset
  let f := s.heap p
  let file ← (if f.length > 0 then do
      let data ← memRead s.file f.offset f.length
      memWrite s.file new data
    else pure s.file : Run (List UInt8))
  let s := updateFileOffset new p { s with file := file }
  updateDirOffset (s.heap p) s

/-- The loop of `repack_helper` over the elements behind `prev`. -/
def repackLoop : Ptr → List Ptr → ℤ → Filesys → Run (ℤ × Filesys)
  | _, [], hashOffset, s => pure (hashOffset, s)
  | prev, p :: ps, hashOffset, s =>
    let start := (s.heap p).offset
    let endPrev := toU64 ((s.heap prev).offset + (s.heap prev).length)
    if start ≥ maxFileDataLen then pure (hashOffset, s)
    else if start > endPrev then do
      let s ← repackMove p endPrev s
      let hashOffset := if hashOffset < 0 ∧ (s.heap p).length ≠ 0 then ((s.heap p).offset : ℤ)
        else hashOffset
      repackLoop p ps hashOffset s
    else repackLoop p ps hashOffset s

/-- `repack_helper`: the offset of the first byte modified, or `-1`. -/
def repackHelper (s : Filesys) : Run (ℤ × Filesys) :=
  match s.oList.list with
  | [] => pure (-1, s)
  | p :: ps =>
    if s.used ≤ 0 then pure (-1, s)
    else if (s.heap p).offset > 0 then do
      let s ← repackMove p 0 s
      repackLoop p ps (if (s.heap p).length ≠ 0 then 0 else -1) s
    else repackLoop p ps (-1) s

/-- `repack`. -/
def repack (s : Filesys) : Run Filesys := do
  let (hashOffset, s) ← repackHelper s
  if hashOffset ≥ 0 then computeHashBlockRange hashOffset (s.used - hashOffset) s else pure s

/-! ## Allocation -/

/-- `new_file_index`. -/
def newFileIndex (s : Filesys) : Run ℕ :=
  match s.index.findIdx? (· = 0) with
  | some i => pure i
  | none => .error .assertion

/-- The loop of `new_file_offset`: the end of the first file followed by a large enough gap, or
the last non-zero size file. -/
def gapLoop (length : ℕ) (s : Filesys) : ℕ → Ptr → Option Ptr → Run (ℕ ⊕ Ptr)
  | _, prev, none => pure (.inr prev)
  | 0, _, some _ => .error .diverges
  | fuel + 1, prev, some curr =>
    let start := (s.heap curr).offset
    let endPrev := toU64 ((s.heap prev).offset + (s.heap prev).length)
    if toU64 (start - endPrev) ≥ length then pure (.inl endPrev)
    else gapLoop length s fuel curr (findNextNonzeroFile ((s.heap curr).oIndex + 1) s.oList s.heap)

/-- The search of `new_file_offset` for room without repacking. -/
def findGap (length : ℕ) (s : Filesys) : Run (Option ℕ) :=
  match findNextNonzeroFile 0 s.oList s.heap with
  | none => pure (some 0)
  | some first =>
    if (s.heap first).offset ≥ length then pure (some 0)
    else do
      match ← gapLoop length s s.oList.size first
          (findNextNonzeroFile ((s.heap first).oIndex + 1) s.oList s.heap) with
      | .inl offset => pure (some offset)
      | .inr last =>
        let endLast := toU64 ((s.heap last).offset + (s.heap last).length)
        if toU64 (s.fileDataLen - endLast) ≥ length then pure (some endLast) else pure none

/-- `new_file_offset`; `hashOffset` is the variable the pointer argument refers to. -/
def newFileOffset (length : ℕ) (hashOffset : ℤ) (s : Filesys) : Run (ℕ × ℤ × Filesys) := do
  Run.assert (length ≤ s.fileDataLen)
  Run.assert (toU64 (s.used + length) ≤ s.fileDataLen)
  if length = 0 then pure (maxFileDataLen, hashOffset, s)
  else do
    match ← findGap length s with
    | some offset => pure (offset, hashOffset, s)
    | none => do
      let (hashOffset, s) ← repackHelper s
      pure (toU64 s.used, hashOffset, s)

/-! ## Calls -/

/-- `write_null_byte` on `file_data`. -/
def writeNullFile (offset count : ℤ) (s : Filesys) : Run Filesys := do
  let file ← writeNullByte s.file offset count
  pure { s with file := file }

/-- What `create_file` does once the name is new and there is room. -/
def createFileAt (filename : CString) (length : ℕ) (s : Filesys) : Run Filesys := do
  let index ← newFileIndex s
  let (offset, hashOffset, s) ← newFileOffset length (-1) s
  let (p, s) := fileInit filename.toFileName offset (toU32 length) index s
  let s ← sortedInsert .offset p s
  let s ← sortedInsert .name p s
  let s ← writeDirFile (s.heap p) s
  let s := { s with index := s.index.set index 1, indexCount := s.indexCount + 1 }
  if length > 0 then do
    let s ← writeNullFile (toI64 offset) (toI64 length) s
    let s := { s with used := toI64 (s.used + length) }
    if hashOffset ≥ 0 then computeHashBlockRange hashOffset (s.used - hashOffset) s
    else computeHashBlockRange (toI64 offset) (toI64 length) s
  else pure s

/-- `create_file`. -/
def createFile (filename : CString) (length : ℕ) (s : Filesys) : Run (ℤ × Filesys) := do
  match ← lookup filename s with
  | some _ => pure (1, s)
  | none =>
    if toU64 (s.used + length) > s.fileDataLen ∨ s.indexCount ≥ s.indexLen then pure (2, s)
    else do
      let s ← createFileAt filename length s
      pure (0, s)

/-- Growing a zero size file that was never moved into `file_data`. -/
def growNewFile (p : Ptr) (length : ℕ) (s : Filesys) : Run (ℤ × Filesys) := do
  let s ← removeAt .offset (s.heap p).oIndex s
  let (hashOffset, s) ← (match findNextNonzeroFile 0 s.oList s.heap with
    | some next =>
      if (s.heap next).offset < length then do
        let (hashOffset, s) ← repackHelper s
        pure (hashOffset, updateFileOffset (toU64 s.used) p s)
      else pure (-1, updateFileOffset 0 p s)
    | none => pure (-1, updateFileOffset 0 p s) : Run (ℤ × Filesys))
  let s ← updateDirOffset (s.heap p) s
  let s ← sortedInsert .offset p s
  pure (hashOffset, s)

/-- `repack_required` for a file with an offset in `file_data`. -/
def repackRequired (p : Ptr) (length : ℕ) (s : Filesys) : Prop :=
  match findNextNonzeroFile ((s.heap p).oIndex + 1) s.oList s.heap with
  | some next => toU64 ((s.heap next).offset - (s.heap p).offset) < length
  | none => toU64 (s.fileDataLen - (s.heap p).offset) < length

instance (p : Ptr) (length : ℕ) (s : Filesys) : Decidable (repackRequired p length s) := by
  unfold repackRequired; split <;> infer_instance

/-- Taking a file out, repacking the others and appending it behind them with its first `copy`
bytes. -/
def relocateFile (p : Ptr) (copy : ℕ) (s : Filesys) : Run (ℤ × Filesys) := do
  let oldLength := (s.heap p).length
  let temp ← memRead s.file (s.heap p).offset copy
  let s ← removeAt .offset (s.heap p).oIndex s
  let (hashOffset, s) ← repackHelper s
  let file ← memWrite s.file (s.used - oldLength) temp
  let s := updateFileOffset (toU64 (s.used - oldLength)) p { s with file := file }
  let s ← updateDirOffset (s.heap p) s
  let s ← sortedInsert .offset p s
  pure (hashOffset, s)

/-- The room `resize_file_helper` finds for a file whose length increases. -/
def makeRoom (p : Ptr) (length copy : ℕ) (s : Filesys) : Run (ℤ × Filesys) :=
  if (s.heap p).offset ≥ maxFileDataLen then growNewFile p length s
  else if repackRequired p length s then relocateFile p copy s
  else pure (-1, s)

/-- `resize_file_helper`: the offset of the first byte repacked, or `-1`. -/
def resizeFileHelper (p : Ptr) (length copy : ℕ) (s : Filesys) : Run (ℤ × Filesys) := do
  let oldLength := (s.heap p).length
  let (hashOffset, s) ←
    (if length > oldLength then makeRoom p length copy s else pure (-1, s) : Run (ℤ × Filesys))
  if length ≠ oldLength then do
    let s := updateFileLength length p s
    let s ← updateDirLength (s.heap p) s
    pure (hashOffset, { s with used := toI64 (s.used + (length - oldLength)) })
  else pure (hashOffset, s)

/-- What `resize_file` does to a file of another length once there is room. -/
def resizeFileAt (p : Ptr) (length : ℕ) (s : Filesys) : Run Filesys := do
  let oldLength := (s.heap p).length
  let (hashOffset, s) ← resizeFileHelper p length oldLength s
  if length > oldLength then do
    let offset := (s.heap p).offset
    let s ← writeNullFile (toI64 (offset + oldLength)) (toI64 (length - oldLength)) s
    if hashOffset ≥ 0 then
      computeHashBlockRange hashOffset (toI64 (offset + length - hashOffset)) s
    else
      computeHashBlockRange (toI64 (offset + oldLength)) (toI64 (length - oldLength)) s
  else pure s

/-- `resize_file`. -/
def resizeFile (filename : CString) (length : ℕ) (s : Filesys) : Run (ℤ × Filesys) := do
  match ← lookup filename s with
  | none => pure (1, s)
  | some p =>
    if toU64 (s.used + length - (s.heap p).length) > s.fileDataLen then pure (2, s)
    else if length = (s.heap p).length then pure (0, s)
    else do
      let s ← resizeFileAt p length s
      pure (0, s)

/-- `delete_file`. -/
def deleteFile (filename : CString) (s : Filesys) : Run (ℤ × Filesys) := do
  match ← lookup filename s with
  | none => pure (1, s)
  | some p =>
    let f := s.heap p
    let s := { s with
      used := s.used - f.length
      index := s.index.set f.index 0
      indexCount := s.indexCount - 1 }
    let s ← removeAt .offset (s.heap p).oIndex s
    let s ← removeAt .name (s.heap p).nIndex s
    let dir ← writeNullByte s.dir ((metaLen * f.index : ℕ) : ℤ) 1
    pure (0, freeFile p { s with dir := dir })

/-- `rename_file`. -/
def renameFile (oldname newname : CString) (s : Filesys) : Run (ℤ × Filesys) := do
  match ← lookup oldname s with
  | none => pure (1, s)
  | some p =>
    if oldname = newname then pure (0, s)
    else do
      match ← lookup newname s with
      | some _ => pure (1, s)
      | none => do
        let s := updateFileName newname p s
        let s ← updateDirName (s.heap p) s
        pure (0, s)

/-- `read_file`: the code and the bytes copied to the buffer. -/
def readFile (filename : CString) (offset count : ℕ) (s : Filesys) : Run (ℤ × List UInt8) := do
  match ← lookup filename s with
  | none => pure (1, [])
  | some p =>
    let f := s.heap p
    if toU64 (offset + count) > f.length then pure (2, [])
    else do
      let bad ← verifyHashRange (toI64 (f.offset + offset)) (toI64 count) s
      if bad ≠ 0 then pure (3, [])
      else if count = 0 then pure (0, [])
      else do
        -- the address wraps at 64 bits, as the sum passed to the verification does
        let data ← memRead s.file (toU64 (f.offset + offset)) count
        pure (0, data)

/-- What `write_file` does with a non-empty buffer once there is room. -/
def writeFileAt (p : Ptr) (offset count : ℕ) (buf : List UInt8) (s : Filesys) : Run Filesys := do
  let (hashOffset, s) ← (if toU64 (offset + count) > (s.heap p).length then
      resizeFileHelper p (toU64 (offset + count)) offset s
    else pure (-1, s) : Run (ℤ × Filesys))
  -- the result of the helper is kept in 32 bits
  let hashOffset := toI32 hashOffset
  let data ← memRead buf 0 count
  let file ← memWrite s.file (((s.heap p).offset + offset : ℕ) : ℤ) data
  let s := { s with file := file }
  if hashOffset ≥ 0 then computeHashBlockRange hashOffset (s.used - hashOffset) s
  else computeHashBlockRange (toI64 ((s.heap p).offset + offset)) (toI64 count) s

/-- `write_file`. -/
def writeFile (filename : CString) (offset count : ℕ) (buf : List UInt8) (s : Filesys) :
    Run (ℤ × Filesys) := do
  match ← lookup filename s with
  | none => pure (1, s)
  | some p =>
    if offset > (s.heap p).length then pure (2, s)
    else if toU64 (s.used + offset + count - (s.heap p).length) > s.fileDataLen then pure (3, s)
    else if count = 0 then pure (0, s)
    else do
      let s ← writeFileAt p offset count buf s
      pure (0, s)

/-- `file_size`. -/
def fileSize (filename : CString) (s : Filesys) : Run ℤ := do
  match ← lookup filename s with
  | none => pure (-1)
  | some p => pure (s.heap p).length

end Vfs
