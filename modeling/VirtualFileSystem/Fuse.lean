import VirtualFileSystem.GrowingWrite
import VirtualFileSystem.Lib.Interleave

/-!
# The FUSE handlers (`myfuse.c`)

A handler is a program over the filesystem: the calls it makes, each under the lock, and the
unlocked reads of `used`.  The handlers that list files or fill a `struct stat` are in `Daemon`.  A
path begins with a slash, and what follows is the name of the file.
-/

namespace Vfs

open FlatImage Interleave

/-! ## Accesses and replies -/

/-- One access of a handler.  `file_data_len` never changes, so `file_data_len - used` is one read
of `used`. -/
inductive Access
  | call (c : Call)
  | space

def Access.exec : Access → Filesys → Run (Answer × Filesys)
  | .call c, s => Vfs.exec c s
  | .space, s => pure ((toU64 (s.fileDataLen - s.used), []), s)

/-- The `int` a handler returns, and the buffer of a read as it leaves it. -/
structure Reply where
  code : ℤ
  buf : List UInt8
  deriving DecidableEq, Repr

abbrev Handler := Prog Access Answer Fault Reply

def reply (code : ℤ) (buf : List UInt8) : Handler := .done ⟨code, buf⟩

/-! ## Error numbers -/

def enoent : ℤ := 2
def eio : ℤ := 5
def eexist : ℤ := 17
def eisdir : ℤ := 21
def einval : ℤ := 22
def enospc : ℤ := 28

/-! ## Paths -/

/-- `strcmp(path, "/") == 0`. -/
def isRoot (path : CString) : Prop := path.bytes = [47]

instance (path : CString) : Decidable (isRoot path) := by unfold isRoot; infer_instance

/-- The copy of `path + 1`.  The copy of an empty path would stay uninitialised. -/
def copyName (path : CString) (k : CString → Handler) : Handler :=
  match path with
  | ⟨[], _⟩ => .fail .outOfBounds
  | ⟨_ :: name, h⟩ => k ⟨name, fun h0 => h (List.mem_cons_of_mem _ h0)⟩

/-- The checks a handler makes of its path before it copies the name. -/
def onFile (path : Option CString) (buf : List UInt8) (k : CString → Handler) : Handler :=
  match path with
  | none => reply (-einval) buf
  | some path => if isRoot path then reply (-eisdir) buf else copyName path k

/-- The path of the file of the given name. -/
def CString.path (name : CString) : CString :=
  ⟨47 :: name.bytes, by simpa using name.nul_free⟩

/-! ## Handlers -/

/-- `myfuse_unlink`. -/
def myfuseUnlink (path : Option CString) : Handler :=
  onFile path [] fun name => .step (.call (.delete name)) fun ret =>
    if ret.1 = 1 then reply (-enoent) [] else reply 0 []

/-- `myfuse_rename`: both paths are checked before a name is copied. -/
def myfuseRename (oldpath newpath : Option CString) : Handler :=
  match oldpath, newpath with
  | some oldpath, some newpath =>
    if isRoot oldpath ∨ isRoot newpath then reply (-eisdir) []
    else copyName oldpath fun old => copyName newpath fun new =>
      .step (.call (.rename old new)) fun ret =>
        if ret.1 = 1 then reply (-enoent) [] else reply 0 []
  | _, _ => reply (-einval) []

/-- `myfuse_truncate`. -/
def myfuseTruncate (path : Option CString) (length : ℤ) : Handler :=
  if length < 0 then reply (-einval) []
  else onFile path [] fun name => .step (.call (.resize name (toU64 length))) fun ret =>
    if ret.1 = 1 then reply (-enoent) []
    else if ret.1 = 2 then reply (-enospc) []
    else reply 0 []

/-- `myfuse_open`. -/
def myfuseOpen (path : Option CString) : Handler :=
  onFile path [] fun name => .step (.call (.size name)) fun size =>
    if size.1 < 0 then reply (-enoent) [] else reply 0 []

/-- `myfuse_create`. -/
def myfuseCreate (path : Option CString) : Handler :=
  onFile path [] fun name => .step (.call (.create name 0)) fun ret =>
    if ret.1 = 1 then reply (-eexist) []
    else if ret.1 = 2 then reply (-enospc) []
    else reply 0 []

/-- The `int64_t` difference `x - y`, whose overflow is undefined. -/
def subI64 (x y : ℤ) : Run ℤ :=
  if -2 ^ 63 ≤ x - y ∧ x - y < 2 ^ 63 then .ok (x - y) else .error .signedOverflow

/-- What `myfuse_read` does with the bytes up to the end of the file; of the codes of `read_file`
only the one for invalid hashes is passed on. -/
def fetchBytes (name : CString) (offset : ℤ) (readLength : ℕ) (buf : List UInt8) : Handler :=
  .step (.call (.read name (toU64 offset) readLength)) fun ret =>
    .lift (memWrite buf 0 ret.2) fun buf =>
      if ret.1 = 3 then reply (-eio) buf else reply (toI32 readLength) buf

/-- `myfuse_read`. -/
def myfuseRead (path : Option CString) (buf : Option (List UInt8)) (length : ℕ) (offset : ℤ) :
    Handler :=
  match buf with
  | none => reply (-einval) []
  | some buf => onFile path buf fun name => .step (.call (.size name)) fun fSize =>
    if fSize.1 < 0 then reply (-enoent) buf
    else if offset ≥ fSize.1 then reply 0 buf
    else .lift (subI64 fSize.1 offset) fun left =>
      -- the lengths are compared as `size_t` values
      if length > toU64 left then fetchBytes name offset (toU64 left) buf
      else fetchBytes name offset length buf

/-- What `myfuse_write` does once the number of bytes is decided; the code of `write_file` is
ignored. -/
def storeBytes (name : CString) (offset : ℤ) (writeLength : ℕ) (buf : List UInt8) : Handler :=
  .lift (memRead buf 0 writeLength) fun temp =>
    .step (.call (.write name (toU64 offset) writeLength temp)) fun _ =>
      reply (toI32 writeLength) []

/-- `myfuse_write`: `used` is read once for the comparison, and again for the clamped length. -/
def myfuseWrite (path : Option CString) (buf : Option (List UInt8)) (length : ℕ) (offset : ℤ) :
    Handler :=
  match buf with
  | none => reply (-einval) []
  | some buf => onFile path [] fun name => .step (.call (.size name)) fun fSize =>
    if fSize.1 < 0 then reply (-enoent) []
    else if offset > fSize.1 then reply (-einval) []
    else .step .space fun space =>
      if (toU64 (offset + length - fSize.1) : ℤ) > space.1 then
        .step .space fun space => storeBytes name offset space.1.toNat buf
      else storeBytes name offset length buf

end Vfs
