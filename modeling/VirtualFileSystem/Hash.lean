import VirtualFileSystem.Structs

/-!
# The hash tree (`fletcher` and the hashing part of `myfilesystem.c`)

`hash_data` is a perfect binary tree in heap order, 16 bytes a node; leaf `leaf_offset + b` hashes
the 256-byte block `b` of `file_data`, an inner node the hashes of its two children.
-/

namespace Vfs

open FlatImage

/-! ## `fletcher` -/

/-- The four accumulators. -/
structure Accum where
  a : ℕ
  b : ℕ
  c : ℕ
  d : ℕ
  deriving DecidableEq

/-- One iteration of the loop, on the word `w`. -/
def Accum.step (s : Accum) (w : ℕ) : Accum :=
  let a := toU64 (s.a + w) % maxFileDataLenMinusOne
  let b := toU64 (s.b + a) % maxFileDataLenMinusOne
  let c := toU64 (s.c + b) % maxFileDataLenMinusOne
  let d := toU64 (s.d + c) % maxFileDataLenMinusOne
  ⟨a, b, c, d⟩

/-- `buff[i]`, the `i`-th 32-bit word of the buffer; past the last whole word, its bytes padded
with null bytes. -/
def word (buf : List UInt8) (i : ℕ) : ℕ := leVal (cell 4 buf i)

/-- The loop over the words `i, …, i + n - 1`. -/
def fletcherLoop (buf : List UInt8) : ℕ → ℕ → Accum → Accum
  | _, 0, s => s
  | i, n + 1, s => fletcherLoop buf (i + 1) n (s.step (word buf i))

/-- `fletcher`. -/
def fletcher (buf : List UInt8) : List UInt8 :=
  let size := buf.length / 4
  let rem := buf.length % 4
  let s := fletcherLoop buf 0 size ⟨0, 0, 0, 0⟩
  let s := if rem ≠ 0 then s.step (word buf size) else s
  le32 s.a ++ le32 s.b ++ le32 s.c ++ le32 s.d

@[simp] theorem length_fletcher (buf : List UInt8) : (fletcher buf).length = hashLen := by
  simp [fletcher, hashLen]

/-! ## Tree indices -/

/-- `p_index`. -/
def pIndex (n : ℤ) : ℤ := if n.tmod 2 = 1 then n.tdiv 2 else n.tdiv 2 - 1

def lcIndex (n : ℤ) : ℤ := 2 * n + 1
def rcIndex (n : ℤ) : ℤ := 2 * n + 2

/-- Reading the hash of a node. -/
def readNode (n : ℤ) (s : Filesys) : Run (List UInt8) := do
  let a ← mulI32 n hashLen
  memRead s.hash a hashLen

/-- Writing the hash of a node. -/
def writeNode (n : ℤ) (h : List UInt8) (s : Filesys) : Run Filesys := do
  let a ← mulI32 n hashLen
  let hash ← memWrite s.hash a h
  pure { s with hash := hash }

/-- The hash of the concatenated hashes of the children of a node. -/
def hashChildren (n : ℤ) (s : Filesys) : Run (List UInt8) := do
  let l ← readNode (lcIndex n) s
  let r ← readNode (rcIndex n) s
  pure (fletcher (l ++ r))

/-- `hash_node`. -/
def hashNode (n : ℤ) (s : Filesys) : Run (List UInt8) :=
  if n < s.leafOffset then hashChildren n s
  else do
    let a ← mulI32 (n - s.leafOffset) blockLen
    let block ← memRead s.file a blockLen
    pure (fletcher block)

/-! ## Computing hashes -/

/-- The loop of `compute_hash_tree`. -/
def hashTreeLoop : ℕ → ℤ → ℤ → ℤ → Filesys → Run Filesys
  | 0, _, _, _, _ => .error .diverges
  | fuel + 1, n, count, level, s =>
    if level > 0 then do
      let h ← hashNode n s
      let s ← writeNode n h s
      if count + 1 < level then hashTreeLoop fuel (n + 1) (count + 1) level s
      else hashTreeLoop fuel (level.tdiv 2 - 1) 0 (level.tdiv 2) s
    else pure s

/-- `compute_hash_tree`: each node of the tree is hashed once. -/
def computeHashTree (s : Filesys) : Run Filesys :=
  hashTreeLoop (2 * (s.leafOffset + 1).toNat + 2) s.leafOffset 0 (s.leafOffset + 1) s

/-- The loop of `compute_hash_block_helper` from node `n` to the root. -/
def climb : ℕ → ℤ → Filesys → Run Filesys
  | 0, _, _ => .error .diverges
  | fuel + 1, n, s =>
    if pIndex n ≥ 0 then do
      let h ← hashChildren (pIndex n) s
      let s ← writeNode (pIndex n) h s
      climb fuel (pIndex n) s
    else pure s

/-- `compute_hash_block_helper`. -/
def computeHashBlockHelper (blockOffset : ℕ) (s : Filesys) : Run Filesys := do
  let n := toI32 (s.leafOffset + blockOffset)
  let block ← memRead s.file (toU64 (blockOffset * blockLen)) blockLen
  let s ← writeNode n (fletcher block) s
  climb (n.toNat + 1) n s

/-- The loop of `compute_hash_block_range` over `n` blocks from `i` on. -/
def hashBlocks : ℤ → ℕ → Filesys → Run Filesys
  | _, 0, s => pure s
  | i, n + 1, s => do
    let s ← computeHashBlockHelper (toU64 i) s
    hashBlocks (i + 1) n s

/-- `compute_hash_block_range`. -/
def computeHashBlockRange (offset length : ℤ) (s : Filesys) : Run Filesys :=
  if length ≤ 0 then pure s
  else
    let first := offset.tdiv blockLen
    let last := (offset + length - 1).tdiv blockLen
    hashBlocks first (last - first + 1).toNat s

/-- `compute_hash_block`. -/
def computeHashBlock (blockOffset : ℕ) (s : Filesys) : Run Filesys :=
  computeHashBlockHelper blockOffset s

/-! ## Verifying hashes -/

/-- The loop of `verify_hash_range` from node `n` to the root. -/
def verifyPath : ℕ → ℤ → Filesys → Run Bool
  | 0, _, _ => .error .diverges
  | fuel + 1, n, s =>
    if n ≥ 0 then do
      let h ← hashNode n s
      let stored ← readNode n s
      if h ≠ stored then pure false else verifyPath fuel (pIndex n) s
    else pure true

/-- The loop of `verify_hash_range` over `n` blocks from `i` on. -/
def verifyBlocks : ℤ → ℕ → Filesys → Run ℤ
  | _, 0, _ => pure 0
  | i, n + 1, s => do
    let leaf ← addI32 s.leafOffset i
    if ← verifyPath (leaf.toNat + 2) leaf s then verifyBlocks (i + 1) n s else pure 1

/-- `verify_hash_range`. -/
def verifyHashRange (offset length : ℤ) (s : Filesys) : Run ℤ :=
  if length ≤ 0 then pure 0
  else
    let first := offset.tdiv blockLen
    let last := (offset + length - 1).tdiv blockLen
    verifyBlocks (toI32 first) (last - toI32 first + 1).toNat s

end Vfs
