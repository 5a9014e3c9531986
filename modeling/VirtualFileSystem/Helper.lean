import VirtualFileSystem.Arr

/-!
# Helpers (`helper.c`, `helper.h`)

Allocation of `file_t` records, the field updates in memory and in `dir_table`, the search for the
next non-zero size file, and null bytes.  An entry of `dir_table` is 72 bytes: a 64-byte name
field, a 32-bit offset and a 32-bit length.
-/

namespace Vfs

/-- `file_init`: a fresh record that is in no array yet. -/
def fileInit (name : FileName) (offset length index : ℕ) (s : Filesys) : Ptr × Filesys :=
  (s.next, { s with
    heap := s.heap.set s.next ⟨name, offset, length, index, -1, -1⟩
    next := s.next + 1
    live := s.next :: s.live })

/-- `free_file`. -/
def freeFile (p : Ptr) (s : Filesys) : Filesys := { s with live := s.live.erase p }

/-- `update_file_name`. -/
def updateFileName (name : CString) (p : Ptr) (s : Filesys) : Filesys :=
  { s with heap := s.heap.set p { s.heap p with name := name.toFileName } }

/-- `update_file_offset`. -/
def updateFileOffset (offset : ℕ) (p : Ptr) (s : Filesys) : Filesys :=
  { s with heap := s.heap.set p { s.heap p with offset := offset } }

/-- `update_file_length`: the length is stored in 32 bits. -/
def updateFileLength (length : ℕ) (p : Ptr) (s : Filesys) : Filesys :=
  { s with heap := s.heap.set p { s.heap p with length := toU32 length } }

/-- Writing bytes at `o` within the `dir_table` entry of a file. -/
def writeDir (f : FileT) (o : ℕ) (bs : List UInt8) (s : Filesys) : Run Filesys := do
  let dir ← memWrite s.dir ((metaLen * f.index + o : ℕ) : ℤ) bs
  pure { s with dir := dir }

/-- `update_dir_name`: the name and its terminator. -/
def updateDirName (f : FileT) (s : Filesys) : Run Filesys :=
  writeDir f 0 (f.name.bytes ++ [0]) s

/-- `update_dir_length`. -/
def updateDirLength (f : FileT) (s : Filesys) : Run Filesys :=
  writeDir f (nameLen + offsetLen) (le32 f.length) s

/-- `update_dir_offset`: zero for newly created zero size files. -/
def updateDirOffset (f : FileT) (s : Filesys) : Run Filesys :=
  if f.offset ≥ maxFileDataLen then writeDir f nameLen (List.replicate 4 0) s
  else writeDir f nameLen (le32 f.offset) s

/-- `write_dir_file`. -/
def writeDirFile (f : FileT) (s : Filesys) : Run Filesys := do
  let s ← updateDirName f s
  let s ← updateDirOffset f s
  updateDirLength f s

/-- The loop of `find_next_nonzero_file` over the elements from the start index on. -/
def findNextNonzero (heap : Heap) : List Ptr → Option Ptr
  | [] => none
  | p :: ps =>
    if (heap p).offset ≥ maxFileDataLen then none
    else if (heap p).length > 0 then some p
    else findNextNonzero heap ps

/-- `find_next_nonzero_file`.  The callers pass a position of the array plus one or zero. -/
def findNextNonzeroFile (index : ℤ) (arr : Arr) (heap : Heap) : Option Ptr :=
  findNextNonzero heap (arr.list.drop index.toNat)

/-- `write_null_byte` on a mapping. -/
def writeNullByte (f : List UInt8) (offset count : ℤ) : Run (List UInt8) :=
  if count ≤ 0 then pure f
  else do
    Run.assert (count < maxFileDataLen ∧ 0 ≤ offset ∧ offset < maxFileDataLen)
    memWrite f offset (List.replicate count.toNat 0)

/-- `pwrite` of some bytes to an open file: nothing is written at a negative offset, and a gap in
front of the bytes reads as null bytes. -/
def pwrite (f : List UInt8) (offset : ℤ) (bs : List UInt8) : List UInt8 :=
  if offset < 0 then f else FlatImage.put 0 f offset.toNat bs

/-- The loop of `pwrite_null_byte`, after `i` turns. -/
def pwriteNulls (f : List UInt8) (offset : ℤ) : ℕ → List UInt8
  | 0 => f
  | i + 1 => pwrite (pwriteNulls f offset i) (offset + i) [0]

/-- `pwrite_null_byte` on the file behind the descriptor. -/
def pwriteNullByte (fd offset count : ℤ) (f : List UInt8) : Run (ℤ × List UInt8) :=
  if count ≤ 0 then pure (0, f)
  else do
    Run.assert (0 ≤ fd ∧ count ≤ maxFileDataLen ∧ offset ≤ maxFileDataLen)
    pure (count, pwriteNulls f offset count.toNat)

end Vfs
