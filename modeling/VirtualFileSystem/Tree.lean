import VirtualFileSystem.Lib.HashTree
import VirtualFileSystem.Live

/-!
# The hash tree of a filesystem

On a perfect tree hashing blocks completes, stores the hash of each block in its leaf and keeps
every inner node the hash of its children; verification of a coherent tree finds no difference.
-/

namespace Vfs

open FlatImage HashTree

/-- `file_data` holds `2 ^ k` blocks and `hash_data` the tree over them. -/
structure Perfect (k : ℕ) (s : Filesys) : Prop where
  file : s.file.length = blockLen * 2 ^ k
  hash : s.hash.length = hashLen * (2 ^ (k + 1) - 1)
  leafOffset : s.leafOffset = 2 ^ k - 1

/-- The hash stored at a node. -/
def node (s : Filesys) (n : ℕ) : List UInt8 := cell hashLen s.hash n

/-- A block of `file_data`. -/
def block (s : Filesys) (b : ℕ) : List UInt8 := cell blockLen s.file b

/-- The node of a block. -/
def leaf (k b : ℕ) : ℕ := 2 ^ k - 1 + b

/-- The hash of the hashes of two children. -/
def hashPair (l r : List UInt8) : List UInt8 := fletcher (l ++ r)

@[simp] theorem length_hashPair (l r : List UInt8) : (hashPair l r).length = hashLen :=
  length_fletcher _

/-- Every inner node stores the hash of its children. -/
def InnerOk (k : ℕ) (s : Filesys) : Prop := Inner hashPair (2 ^ k - 1) (node s)

/-- The leaf of the block stores its hash. -/
def LeafOk (k b : ℕ) (s : Filesys) : Prop := node s (leaf k b) = fletcher (block s b)

/-- The whole tree is right. -/
structure Coherent (k : ℕ) (s : Filesys) : Prop where
  inner : InnerOk k s
  leaves : ∀ b < 2 ^ k, LeafOk k b s

section Perfect

variable {k n b : ℕ} {s s' : Filesys}

theorem Perfect.congr (hp : Perfect k s) (hsh : Shape s s') : Perfect k s' :=
  ⟨hsh.file.trans hp.file, hsh.hash.trans hp.hash, hsh.leafOffset.trans hp.leafOffset⟩

theorem two_pow_le_of_le {k : ℕ} (hk : k ≤ 24) : 2 ^ k ≤ 16777216 :=
  Nat.pow_le_pow_right (by omega) hk

theorem Perfect.fileDataLen (hp : Perfect k s) : s.fileDataLen = 256 * 2 ^ k := hp.file

theorem Perfect.leafOffset_eq (hp : Perfect k s) : s.leafOffset = ((2 ^ k - 1 : ℕ) : ℤ) := by
  have := Nat.one_le_two_pow (n := k)
  rw [hp.leafOffset, Nat.cast_sub this]
  push_cast
  rfl

theorem Perfect.fileDataLen_le (hp : Perfect k s) (hk : k ≤ 24) : s.fileDataLen ≤ 2 ^ 32 := by
  have := two_pow_le_of_le hk
  rw [hp.fileDataLen]
  omega

theorem Perfect.fileDataLen_le31 (hp : Perfect k s) (hk : k ≤ 23) : s.fileDataLen ≤ 2 ^ 31 := by
  have : 2 ^ k ≤ 2 ^ 23 := Nat.pow_le_pow_right (by omega) hk
  rw [hp.fileDataLen]
  omega

/-- The bytes of a node lie in `hash_data`. -/
theorem Perfect.node_le (hp : Perfect k s) (hn : n < 2 ^ (k + 1) - 1) :
    hashLen * n + hashLen ≤ s.hash.length := by
  rw [hp.hash]
  calc hashLen * n + hashLen = hashLen * (n + 1) := by ring
    _ ≤ hashLen * (2 ^ (k + 1) - 1) := Nat.mul_le_mul_left _ (by omega)

theorem Perfect.block_le (hp : Perfect k s) (hb : b < 2 ^ k) :
    blockLen * b + blockLen ≤ s.file.length := by
  rw [hp.file]
  calc blockLen * b + blockLen = blockLen * (b + 1) := by ring
    _ ≤ blockLen * 2 ^ k := Nat.mul_le_mul_left _ hb

theorem leaf_lt (hb : b < 2 ^ k) : leaf k b < 2 ^ (k + 1) - 1 := by
  unfold leaf
  rw [pow_succ]
  omega

theorem readNode_of (hp : Perfect k s) (hk : k ≤ 24) (hn : n < 2 ^ (k + 1) - 1) :
    readNode n s = .ok (node s n) := by
  have h2 := two_pow_le_of_le hk
  have hin := hp.node_le hn
  rw [pow_succ] at hn
  unfold readNode
  rw [mulI32_of (by unfold hashLen; omega) (by unfold hashLen; omega), Run.ok_bind,
    show (n : ℤ) * (hashLen : ℕ) = ((hashLen * n : ℕ) : ℤ) by push_cast; ring]
  exact memRead_of hin

theorem node_splice {h : List UInt8} (hh : h.length = hashLen)
    (hin : hashLen * n + hashLen ≤ s.hash.length) :
    node { s with hash := splice s.hash (hashLen * n) h } = Function.update (node s) n h := by
  funext m
  have hz : 0 + h.length ≤ hashLen := by rw [hh, Nat.zero_add]
  by_cases hm : m = n
  · subst hm
    rw [Function.update_self]
    have := cell_splice_self hz hin
    rw [Nat.add_zero] at this
    show cell hashLen (splice s.hash (hashLen * m) h) m = h
    rw [this]
    have hc := length_cell (l := s.hash) hin
    simp [splice, hh, hc]
  · rw [Function.update_of_ne hm]
    exact cell_splice_of_ne hz hin hm

theorem writeNode_of {h : List UInt8} (hp : Perfect k s) (hk : k ≤ 24)
    (hn : n < 2 ^ (k + 1) - 1) (hh : h.length = hashLen) :
    ∃ s', writeNode n h s = .ok s' ∧ HashFrame s s' := by
  have h2 := two_pow_le_of_le hk
  have hin := hp.node_le hn
  rw [pow_succ] at hn
  have hw : writeNode n h s = .ok { s with hash := splice s.hash (hashLen * n) h } := by
    unfold writeNode
    rw [mulI32_of (by unfold hashLen; omega) (by unfold hashLen; omega), Run.ok_bind,
      show (n : ℤ) * (hashLen : ℕ) = ((hashLen * n : ℕ) : ℤ) by push_cast; ring,
      memWrite_of (by rw [hh]; exact hin)]
    rfl
  exact ⟨_, hw, writeNode_frame hw⟩

theorem hashChildren_of (hp : Perfect k s) (hk : k ≤ 24) (hn : n < 2 ^ k - 1) :
    hashChildren n s = .ok (hashPair (node s (2 * n + 1)) (node s (2 * n + 2))) := by
  have hl : lcIndex n = ((2 * n + 1 : ℕ) : ℤ) := by unfold lcIndex; push_cast; ring
  have hr : rcIndex n = ((2 * n + 2 : ℕ) : ℤ) := by unfold rcIndex; push_cast; ring
  have hb : 2 * n + 2 < 2 ^ (k + 1) - 1 := by
    rw [pow_succ]
    omega
  unfold hashChildren
  rw [hl, hr, readNode_of hp hk (by omega), readNode_of hp hk hb]
  rfl

theorem pIndex_succ (n : ℕ) : pIndex ((n + 1 : ℕ) : ℤ) = ((n / 2 : ℕ) : ℤ) := by
  have h1 : ((n + 1 : ℕ) : ℤ).tmod 2 = (((n + 1) % 2 : ℕ) : ℤ) := rfl
  have h2 : ((n + 1 : ℕ) : ℤ).tdiv 2 = (((n + 1) / 2 : ℕ) : ℤ) := rfl
  unfold pIndex
  rw [h1, h2]
  split_ifs with h
  · omega
  · omega

theorem pIndex_zero : pIndex ((0 : ℕ) : ℤ) = -1 := by decide

theorem readNode_post {h : List UInt8} (hr : readNode n s = .ok h) : h = node s n := by
  obtain ⟨a, ha, hr⟩ := Run.bind_eq_ok.mp hr
  obtain ⟨-, rfl⟩ := memRead_eq_ok.mp hr
  obtain rfl := mulI32_eq ha
  rw [show (n : ℤ) * (hashLen : ℕ) = ((hashLen * n : ℕ) : ℤ) by push_cast; ring]
  rfl

/-- A completed write of a node changes its hash and no other. -/
theorem writeNode_post {h : List UInt8} (hh : h.length = hashLen)
    (hr : writeNode n h s = .ok s') : node s' = Function.update (node s) n h := by
  obtain ⟨a, ha, hr⟩ := Run.bind_eq_ok.mp hr
  obtain rfl := mulI32_eq ha
  obtain ⟨hash, hw, hr⟩ := Run.bind_eq_ok.mp hr
  obtain rfl := Except.ok.inj hr
  rw [show (n : ℤ) * (hashLen : ℕ) = ((hashLen * n : ℕ) : ℤ) by push_cast; ring] at hw
  obtain ⟨hin, rfl⟩ := memWrite_eq_ok.mp hw
  exact node_splice hh (by omega)

theorem hashChildren_post {h : List UInt8} (hr : hashChildren n s = .ok h) :
    h = hashPair (node s (2 * n + 1)) (node s (2 * n + 2)) := by
  have hl : lcIndex n = ((2 * n + 1 : ℕ) : ℤ) := by unfold lcIndex; push_cast; ring
  have hrc : rcIndex n = ((2 * n + 2 : ℕ) : ℤ) := by unfold rcIndex; push_cast; ring
  unfold hashChildren at hr
  rw [hl, hrc] at hr
  obtain ⟨l, h1, hr⟩ := Run.bind_eq_ok.mp hr
  obtain ⟨r, h2, hr⟩ := Run.bind_eq_ok.mp hr
  obtain rfl := Except.ok.inj hr
  rw [readNode_post h1, readNode_post h2]
  rfl

/-- From a node to the root: every node over it is recomputed. -/
theorem climb_rebuilt : ∀ (fuel n : ℕ) (s s' : Filesys), climb fuel n s = .ok s' →
    Rebuilt hashPair (node s) {n} (node s) (node s') := by
  intro fuel
  induction fuel with
  | zero =>
    intro n s s' hr
    exact absurd hr (by simp [climb])
  | succ fuel ih =>
    intro n s s' hr
    unfold climb at hr
    cases n with
    | zero =>
      rw [pIndex_zero] at hr
      obtain rfl := Except.ok.inj hr
      exact rebuilt_root _
    | succ n =>
      rw [pIndex_succ, if_pos (Int.natCast_nonneg _)] at hr
      obtain ⟨h, hh, hr⟩ := Run.bind_eq_ok.mp hr
      obtain rfl := hashChildren_post hh
      obtain ⟨s₁, hw, hr⟩ := Run.bind_eq_ok.mp hr
      have hlen := length_hashPair (node s (2 * (n / 2) + 1)) (node s (2 * (n / 2) + 2))
      exact (ih (n / 2) s₁ s' hr).parent (writeNode_post hlen hw)

theorem climb_total (hk : k ≤ 24) : ∀ (fuel n : ℕ) (s : Filesys), n < fuel →
    n < 2 ^ (k + 1) - 1 → Perfect k s → ∃ s', climb fuel n s = .ok s' := by
  intro fuel
  induction fuel with
  | zero =>
    intro n s hn
    omega
  | succ fuel ih =>
    intro n s hfuel hn hp
    unfold climb
    cases n with
    | zero =>
      rw [pIndex_zero]
      exact ⟨s, rfl⟩
    | succ n =>
      have hlt : n / 2 < 2 ^ k - 1 := by
        rw [pow_succ] at hn
        omega
      obtain ⟨s₁, hw, hf⟩ := writeNode_of (n := n / 2) hp hk (by omega)
        (length_fletcher (node s (2 * (n / 2) + 1) ++ node s (2 * (n / 2) + 2)))
      obtain ⟨s', hc⟩ := ih (n / 2) s₁ (by omega) (by omega) (hp.congr hf.kept.shape)
      refine ⟨s', ?_⟩
      rw [pIndex_succ, if_pos (Int.natCast_nonneg _), hashChildren_of hp hk hlt, Run.ok_bind]
      unfold hashPair
      rw [hw, Run.ok_bind, hc]

/-- The hash a leaf has to store. -/
def leafHash (k : ℕ) (s : Filesys) (n : ℕ) : List UInt8 := fletcher (block s (n - (2 ^ k - 1)))

@[simp] theorem leafHash_leaf (k b : ℕ) (s : Filesys) :
    leafHash k s (leaf k b) = fletcher (block s b) := by
  unfold leafHash leaf
  rw [Nat.add_sub_cancel_left]

/-- The leaves of the blocks in `B` were set to their hashes and every node over one of them was
recomputed. -/
structure BlocksHashed (k : ℕ) (B : Set ℕ) (s s' : Filesys) : Prop where
  frame : HashFrame s s'
  tree : Rebuilt hashPair (leafHash k s) (leaf k '' B) (node s) (node s')

/-- The leaf of the block is right, and so is every node over it. -/
def Verified (k b : ℕ) (s : Filesys) : Prop :=
  LeafOk k b s ∧ ∀ m, Over m (leaf k b) → NodeOk hashPair (node s) m

theorem leaf_bounds {B : Set ℕ} (hB : ∀ b ∈ B, b < 2 ^ k) :
    ∀ n ∈ leaf k '' B, 2 ^ k - 1 ≤ n ∧ n ≤ 2 * (2 ^ k - 1) := by
  rintro _ ⟨b, hb, rfl⟩
  have := hB b hb
  unfold leaf
  omega

theorem BlocksHashed.refl (k : ℕ) (s : Filesys) : BlocksHashed k ∅ s s where
  frame := HashFrame.refl s
  tree := by
    rw [Set.image_empty]
    exact Rebuilt.refl _ _

theorem HashFrame.block_eq (hf : HashFrame s s') (b : ℕ) : block s' b = block s b := by
  unfold block
  rw [hf.eq]

theorem HashFrame.leafHash_eq (hf : HashFrame s s') : leafHash k s' = leafHash k s := by
  funext n
  exact congrArg fletcher (hf.block_eq _)

section Blocks

variable {B C : Set ℕ} {s₁ s'' : Filesys}

theorem BlocksHashed.trans (h1 : BlocksHashed k B s s₁) (h2 : BlocksHashed k C s₁ s')
    (hB : ∀ b ∈ B, b < 2 ^ k) (hC : ∀ b ∈ C, b < 2 ^ k) : BlocksHashed k (B ∪ C) s s' where
  frame := h1.frame.trans h2.frame
  tree := by
    have htree := h1.tree.trans h2.tree (leaf_bounds hB) (leaf_bounds hC)
      fun n _ _ => congrFun h1.frame.leafHash_eq.symm n
    rwa [h1.frame.leafHash_eq, ← Set.image_union] at htree

/-- Hashing again after a change of the image that the blocks hashed again cover. -/
theorem BlocksHashed.over {m : List UInt8} (h1 : BlocksHashed k B s s₁)
    (h2 : BlocksHashed k C { s₁ with file := m } s') (hB : ∀ b ∈ B, b < 2 ^ k)
    (hC : ∀ b ∈ C, b < 2 ^ k) (hsame : ∀ b ∉ C, cell blockLen m b = block s b) :
    BlocksHashed k (B ∪ C) { s with file := m } s' where
  frame := by
    refine ⟨?_, h2.frame.hash_length.trans h1.frame.hash_length⟩
    rw [h2.frame.eq, h1.frame.eq]
  tree := by
    have hvw : ∀ n ∈ leaf k '' B, n ∉ leaf k '' C →
        leafHash k s n = leafHash k { s₁ with file := m } n := by
      rintro _ ⟨b, -, rfl⟩ hn
      rw [leafHash_leaf, leafHash_leaf]
      exact congrArg fletcher (hsame b fun hb => hn ⟨b, hb, rfl⟩).symm
    have htree := h1.tree.trans h2.tree (leaf_bounds hB) (leaf_bounds hC) hvw
    rwa [← Set.image_union] at htree

theorem BlocksHashed.leafOk (h : BlocksHashed k B s s') (hb : b ∈ B) : LeafOk k b s' := by
  unfold LeafOk
  rw [h.tree.leaf _ ⟨b, hb, rfl⟩, leafHash_leaf, h.frame.block_eq]

theorem BlocksHashed.verified (h : BlocksHashed k B s s') (hb : b ∈ B) : Verified k b s' :=
  ⟨h.leafOk hb, h.tree.path _ ⟨b, hb, rfl⟩⟩

theorem BlocksHashed.inner (h : BlocksHashed k B s s') (hB : ∀ b ∈ B, b < 2 ^ k)
    (hi : InnerOk k s) : InnerOk k s' := fun m hm =>
  h.tree.nodeOk (fun n hn => (leaf_bounds hB n hn).1) hm (hi m hm)

/-- A leaf that was not hashed is kept. -/
theorem BlocksHashed.leaf_same (h : BlocksHashed k B s s') (hB : ∀ b ∈ B, b < 2 ^ k)
    (hb : b ∉ B) : node s' (leaf k b) = node s (leaf k b) := by
  apply h.tree.same
  · rintro ⟨c, hc, he⟩
    exact hb (Nat.add_left_cancel he ▸ hc)
  · intro n hn ho
    have := (leaf_bounds hB n hn).2
    have := ho.le_half
    unfold leaf at this
    omega

/-- The blocks hashed determine the tree. -/
theorem BlocksHashed.unique (h1 : BlocksHashed k B s s') (h2 : BlocksHashed k B s s'')
    (hB : ∀ b ∈ B, b < 2 ^ k) : s' = s'' := by
  have hnode := h1.tree.unique h2.tree fun n hn => (leaf_bounds hB n hn).2
  have hhash : s'.hash = s''.hash := eq_of_cell_eq (by decide) fun n => congrFun hnode n
  rw [h1.frame.eq, h2.frame.eq, hhash]

end Blocks

theorem Perfect.leafIndex (hp : Perfect k s) (hk : k ≤ 30) (hb : b < 2 ^ k) :
    toI32 (s.leafOffset + b) = (leaf k b : ℕ) := by
  have h2 : 2 ^ k ≤ 2 ^ 30 := Nat.pow_le_pow_right (by omega) hk
  rw [hp.leafOffset_eq]
  unfold leaf
  push_cast
  exact toI32_of_bounds (by omega) (by omega)

theorem blockAddr (hk : k ≤ 30) (hb : b < 2 ^ k) :
    toU64 ((b : ℤ) * blockLen) = ((blockLen * b : ℕ) : ℤ) := by
  have h2 : 2 ^ k ≤ 2 ^ 30 := Nat.pow_le_pow_right (by omega) hk
  rw [show (b : ℤ) * (blockLen : ℕ) = ((blockLen * b : ℕ) : ℤ) by push_cast; ring,
    toU64_of_lt (by unfold blockLen; omega)]

theorem computeHashBlockHelper_hashed (hp : Perfect k s) (hk : k ≤ 30) (hb : b < 2 ^ k)
    (hr : computeHashBlockHelper b s = .ok s') : BlocksHashed k {b} s s' := by
  refine ⟨computeHashBlockHelper_frame hr, ?_⟩
  unfold computeHashBlockHelper at hr
  rw [hp.leafIndex hk hb, blockAddr hk hb, memRead_of (hp.block_le hb), Run.ok_bind] at hr
  obtain ⟨s₁, hw, hr⟩ := Run.bind_eq_ok.mp hr
  have hnode := writeNode_post (length_fletcher _) hw
  have hc := climb_rebuilt _ _ _ _ hr
  rw [Set.image_singleton]
  refine ⟨?_, hc.path, fun m hm ho => ?_⟩
  · rintro _ rfl
    rw [hc.leaf _ rfl, hnode, Function.update_self, leafHash_leaf]
    rfl
  · rw [hc.same m hm ho, hnode, Function.update_of_ne hm]

theorem computeHashBlockHelper_total (hp : Perfect k s) (hk : k ≤ 24) (hb : b < 2 ^ k) :
    ∃ s', computeHashBlockHelper b s = .ok s' := by
  obtain ⟨s₁, hw, hf⟩ := writeNode_of hp hk (leaf_lt hb) (length_fletcher (block s b))
  obtain ⟨s', hc⟩ := climb_total hk (leaf k b + 1) (leaf k b) s₁ (by omega) (leaf_lt hb)
    (hp.congr hf.kept.shape)
  refine ⟨s', ?_⟩
  unfold computeHashBlockHelper
  rw [hp.leafIndex (by omega) hb, blockAddr (by omega) hb, memRead_of (hp.block_le hb), Run.ok_bind]
  show (writeNode (leaf k b) (fletcher (block s b)) s >>= _) = _
  rw [hw, Run.ok_bind]
  exact hc

theorem hashBlocks_hashed (hk : k ≤ 30) : ∀ (n i : ℕ) (s s' : Filesys), Perfect k s →
    i + n ≤ 2 ^ k → hashBlocks i n s = .ok s' → BlocksHashed k (Set.Ico i (i + n)) s s' := by
  intro n
  induction n with
  | zero =>
    intro i s s' hp hin hr
    obtain rfl := Except.ok.inj hr
    rw [Nat.add_zero, Set.Ico_self]
    exact BlocksHashed.refl k s
  | succ n ih =>
    intro i s s' hp hin hr
    have h2 : 2 ^ k ≤ 2 ^ 30 := Nat.pow_le_pow_right (by omega) hk
    unfold hashBlocks at hr
    rw [toU64_of_lt (by omega)] at hr
    obtain ⟨s₁, h1, hr⟩ := Run.bind_eq_ok.mp hr
    have hh := computeHashBlockHelper_hashed hp hk (by omega) h1
    have hrest := ih (i + 1) s₁ s' (hp.congr hh.frame.kept.shape) (by omega) (by exact_mod_cast hr)
    have hunion : Set.Ico i (i + (n + 1)) = {i} ∪ Set.Ico (i + 1) (i + 1 + n) := by
      ext b
      simp only [Set.mem_Ico, Set.mem_union, Set.mem_singleton_iff]
      omega
    rw [hunion]
    refine hh.trans hrest ?_ ?_
    · rintro b rfl
      omega
    · rintro b ⟨-, hb⟩
      omega

theorem hashBlocks_total (hk : k ≤ 24) : ∀ (n i : ℕ) (s : Filesys), Perfect k s →
    i + n ≤ 2 ^ k → ∃ s', hashBlocks i n s = .ok s' := by
  intro n
  induction n with
  | zero =>
    intro i s _ _
    exact ⟨s, rfl⟩
  | succ n ih =>
    intro i s hp hin
    have h2 := two_pow_le_of_le hk
    obtain ⟨s₁, h1⟩ := computeHashBlockHelper_total (b := i) hp hk (by omega)
    obtain ⟨s', h3⟩ := ih (i + 1) s₁ (hp.congr (computeHashBlockHelper_frame h1).kept.shape)
      (by omega)
    refine ⟨s', ?_⟩
    unfold hashBlocks
    rw [toU64_of_lt (by omega), h1, Run.ok_bind]
    exact_mod_cast h3

/-- The block has bytes in `[o, o + l)`. -/
def Touches (o l b : ℕ) : Prop := blockLen * b < o + l ∧ o < blockLen * b + blockLen

theorem tdiv_natCast (a b : ℕ) : (a : ℤ).tdiv b = ((a / b : ℕ) : ℤ) := rfl

/-- The blocks with bytes in the range. -/
def touched (o l : ℕ) : Set ℕ := {b | 0 < l ∧ Touches o l b}

/-- The blocks a range inside `file_data` touches are the successive ones the code computes. -/
theorem touched_eq (hp : Perfect k s) {o l : ℕ} (hl : 0 < l) (hin : o + l ≤ s.file.length) :
    ∃ i n : ℕ, (o : ℤ).tdiv blockLen = i ∧
      (((o : ℤ) + l - 1).tdiv blockLen - (o : ℤ).tdiv blockLen + 1).toNat = n ∧
      i + n ≤ 2 ^ k ∧ touched o l = Set.Ico i (i + n) := by
  have hlast : (o : ℤ) + l - 1 = ((o + l - 1 : ℕ) : ℤ) := by omega
  have hmono := Nat.div_le_div_right (c := blockLen) (show o ≤ o + l - 1 by omega)
  have hfile := hp.file
  have hlt : (o + l - 1) / blockLen < 2 ^ k := by
    rw [Nat.div_lt_iff_lt_mul (by decide), Nat.mul_comm, ← hfile]
    omega
  refine ⟨o / blockLen, (o + l - 1) / blockLen - o / blockLen + 1, rfl, ?_, by omega, ?_⟩
  · rw [hlast, tdiv_natCast, tdiv_natCast]
    omega
  · ext b
    unfold touched Touches blockLen at *
    simp only [Set.mem_ofPred_eq, Set.mem_Ico]
    omega

theorem touched_lt (hp : Perfect k s) {o l : ℕ} (hin : o + l ≤ s.file.length) :
    ∀ b ∈ touched o l, b < 2 ^ k := by
  rintro b ⟨hl, hb⟩
  obtain ⟨i, n, -, -, hle, heq⟩ := touched_eq hp hl hin
  have : b ∈ Set.Ico i (i + n) := heq ▸ ⟨hl, hb⟩
  exact this.2.trans_le hle

theorem touched_zero (o : ℕ) : touched o 0 = ∅ := by
  ext b
  simp [touched]

/-- The blocks of a range inside `file_data` are rehashed, no others. -/
theorem computeHashBlockRange_hashed (hp : Perfect k s) (hk : k ≤ 30) {o l : ℕ}
    (hin : o + l ≤ s.file.length) (hr : computeHashBlockRange o l s = .ok s') :
    BlocksHashed k (touched o l) s s' := by
  unfold computeHashBlockRange at hr
  rcases Nat.eq_zero_or_pos l with rfl | hl
  · rw [if_pos (by simp)] at hr
    obtain rfl := Except.ok.inj hr
    rw [touched_zero]
    exact BlocksHashed.refl k s
  · obtain ⟨i, n, hi, hn, hle, heq⟩ := touched_eq hp hl hin
    rw [if_neg (by omega)] at hr
    dsimp only at hr
    rw [hn, hi] at hr
    rw [heq]
    exact hashBlocks_hashed hk n i s s' hp hle hr

theorem computeHashBlockRange_of (hp : Perfect k s) (hk : k ≤ 24) {o l : ℕ}
    (hin : o + l ≤ s.file.length) : ∃ s', computeHashBlockRange o l s = .ok s' := by
  unfold computeHashBlockRange
  rcases Nat.eq_zero_or_pos l with rfl | hl
  · exact ⟨s, if_pos (by simp)⟩
  · obtain ⟨i, n, hi, hn, hle, -⟩ := touched_eq hp hl hin
    rw [if_neg (by omega)]
    dsimp only
    rw [hn, hi]
    exact hashBlocks_total hk n i s hp hle

/-- A range of no bytes is left alone. -/
theorem computeHashBlockRange_nonpos {o l : ℤ} (hl : l ≤ 0) (s : Filesys) :
    computeHashBlockRange o l s = .ok s := if_pos hl

/-! ## Verification -/

theorem hashNode_of (hp : Perfect k s) (hk : k ≤ 24) (hn : n < 2 ^ (k + 1) - 1)
    (hn31 : n < 2 ^ k - 1 + 2 ^ 23) :
    hashNode n s = .ok (if n < 2 ^ k - 1 then hashPair (node s (2 * n + 1)) (node s (2 * n + 2))
      else fletcher (block s (n - (2 ^ k - 1)))) := by
  have h2 := two_pow_le_of_le hk
  have hpos := Nat.one_le_two_pow (n := k)
  unfold hashNode
  rw [hp.leafOffset_eq]
  by_cases hlt : n < 2 ^ k - 1
  · rw [if_pos (by omega), if_pos hlt]
    exact hashChildren_of hp hk hlt
  · rw [pow_succ] at hn
    rw [if_neg (by omega), if_neg hlt,
      show (n : ℤ) - ((2 ^ k - 1 : ℕ) : ℤ) = ((n - (2 ^ k - 1) : ℕ) : ℤ) by omega,
      mulI32_of (by unfold blockLen; omega) (by unfold blockLen; omega), Run.ok_bind,
      show ((n - (2 ^ k - 1) : ℕ) : ℤ) * (blockLen : ℕ) =
        ((blockLen * (n - (2 ^ k - 1)) : ℕ) : ℤ) by push_cast; ring,
      memRead_of (hp.block_le (by omega))]
    rfl

/-- What a node hash that was computed is; the address of its block fits 31 bits. -/
theorem hashNode_post (hp : Perfect k s) {h : List UInt8} (hr : hashNode n s = .ok h) :
    h = (if n < 2 ^ k - 1 then hashPair (node s (2 * n + 1)) (node s (2 * n + 2))
      else fletcher (block s (n - (2 ^ k - 1)))) ∧ n < 2 ^ k - 1 + 2 ^ 23 := by
  have hpos := Nat.one_le_two_pow (n := k)
  unfold hashNode at hr
  rw [hp.leafOffset_eq] at hr
  by_cases hlt : n < 2 ^ k - 1
  · rw [if_pos (by omega)] at hr
    rw [if_pos hlt]
    exact ⟨hashChildren_post hr, by omega⟩
  · rw [if_neg (by omega),
      show (n : ℤ) - ((2 ^ k - 1 : ℕ) : ℤ) = ((n - (2 ^ k - 1) : ℕ) : ℤ) by omega] at hr
    rw [if_neg hlt]
    obtain ⟨a, ha, hr⟩ := Run.bind_eq_ok.mp hr
    obtain ⟨blk, hblk, hr⟩ := Run.bind_eq_ok.mp hr
    obtain rfl := Except.ok.inj hr
    obtain ⟨-, rfl⟩ := memRead_eq_ok.mp hblk
    have ha' := mulI32_eq ha
    have hlt31 : ((n - (2 ^ k - 1) : ℕ) : ℤ) * (blockLen : ℕ) < 2 ^ 31 := by
      unfold mulI32 at ha
      split_ifs at ha with hb
      exact hb.2
    unfold blockLen at hlt31
    refine ⟨?_, by omega⟩
    rw [ha', mul_comm, ← Nat.cast_mul, Int.toNat_natCast]
    rfl

/-- On a coherent tree each node stores the hash that is computed for it. -/
theorem Coherent.node_eq (hc : Coherent k s) (hn : n < 2 ^ (k + 1) - 1) :
    (if n < 2 ^ k - 1 then hashPair (node s (2 * n + 1)) (node s (2 * n + 2))
      else fletcher (block s (n - (2 ^ k - 1)))) = node s n := by
  by_cases hlt : n < 2 ^ k - 1
  · rw [if_pos hlt]
    exact (hc.inner n hlt).symm
  · have hb : n - (2 ^ k - 1) < 2 ^ k := by
      rw [pow_succ] at hn
      omega
    have := hc.leaves _ hb
    unfold LeafOk leaf at this
    rw [if_neg hlt, ← this]
    congr 1
    omega

/-- The node stores the hash that is computed for it. -/
def Right (k : ℕ) (s : Filesys) (n : ℕ) : Prop :=
  (if n < 2 ^ k - 1 then hashPair (node s (2 * n + 1)) (node s (2 * n + 2))
    else fletcher (block s (n - (2 ^ k - 1)))) = node s n

theorem right_of_lt (hn : n < 2 ^ k - 1) : Right k s n ↔ NodeOk hashPair (node s) n := by
  unfold Right NodeOk
  rw [if_pos hn, eq_comm]

theorem right_leaf : Right k s (leaf k b) ↔ LeafOk k b s := by
  unfold Right LeafOk
  rw [if_neg (by unfold leaf; omega), eq_comm]
  unfold leaf
  rw [Nat.add_sub_cancel_left]

/-- Climbing to the root finds every node right, or one that is not. -/
theorem verifyPath_spec (hp : Perfect k s) (hk : k ≤ 24) : ∀ (fuel n : ℕ), n + 1 < fuel →
    n < 2 ^ (k + 1) - 1 → n < 2 ^ k - 1 + 2 ^ 23 → ∃ r, verifyPath fuel n s = .ok r ∧
      (r = true ↔ Right k s n ∧ ∀ m, Over m n → Right k s m) := by
  intro fuel
  induction fuel with
  | zero =>
    intro n hn
    omega
  | succ fuel ih =>
    intro n hfuel hn hn31
    simp only [verifyPath]
    rw [if_pos (Int.natCast_nonneg n), hashNode_of hp hk hn hn31, Run.ok_bind,
      readNode_of hp hk hn, Run.ok_bind]
    by_cases he : Right k s n
    · have heq := he
      unfold Right at heq
      rw [if_neg (not_not.mpr heq)]
      cases n with
      | zero =>
        obtain ⟨fuel, rfl⟩ : ∃ m, fuel = m + 1 := ⟨fuel - 1, by omega⟩
        rw [pIndex_zero]
        refine ⟨true, by simp [verifyPath], iff_of_true rfl ⟨he, fun m hm => ?_⟩⟩
        exact absurd hm not_over_zero
      | succ n =>
        rw [pIndex_succ]
        obtain ⟨r, hr, hiff⟩ := ih (n / 2) (by omega) (by omega) (by omega)
        refine ⟨r, hr, hiff.trans ?_⟩
        constructor
        · rintro ⟨h1, h2⟩
          refine ⟨he, fun m hm => ?_⟩
          rcases over_succ.mp hm with rfl | hm
          · exact h1
          · exact h2 m hm
        · rintro ⟨-, h2⟩
          exact ⟨h2 _ (.parent n), fun m hm => h2 m (.up hm)⟩
    · have hne := he
      unfold Right at hne
      rw [if_pos hne]
      exact ⟨false, rfl, iff_of_false Bool.false_ne_true fun h => he h.1⟩

theorem verified_iff (hb : b < 2 ^ k) : Verified k b s ↔
    Right k s (leaf k b) ∧ ∀ m, Over m (leaf k b) → Right k s m := by
  unfold Verified
  rw [right_leaf]
  refine and_congr_right fun _ => forall_congr' fun m => imp_congr_right fun hm => ?_
  rw [right_of_lt]
  have := hm.le_half
  unfold leaf at this
  omega

theorem verifyBlocks_spec (hp : Perfect k s) (hk : k ≤ 24) : ∀ (n i : ℕ), i + n ≤ 2 ^ k →
    i + n ≤ 2 ^ 23 → ∃ r, verifyBlocks i n s = .ok r ∧ (r = 0 ∨ r = 1) ∧
      (r = 0 ↔ ∀ b ∈ Set.Ico i (i + n), Verified k b s) := by
  intro n
  induction n with
  | zero =>
    intro i _ _
    refine ⟨0, rfl, Or.inl rfl, iff_of_true rfl ?_⟩
    rintro b ⟨h1, h2⟩
    omega
  | succ n ih =>
    intro i hin h23
    have h2 := two_pow_le_of_le hk
    have hleaf : addI32 s.leafOffset i = .ok ((leaf k i : ℕ) : ℤ) := by
      rw [hp.leafOffset_eq, addI32_of (by omega) (by omega)]
      unfold leaf
      push_cast
      rfl
    obtain ⟨r, hr, hgood⟩ := verifyPath_spec hp hk (leaf k i + 2) (leaf k i) (by omega)
      (leaf_lt (by omega)) (by unfold leaf; omega)
    rw [← verified_iff (by omega)] at hgood
    unfold verifyBlocks
    rw [hleaf, Run.ok_bind, Int.toNat_natCast, hr, Run.ok_bind]
    cases r with
    | true =>
      obtain ⟨r, hr, hor, hiff⟩ := ih (i + 1) (by omega) (by omega)
      refine ⟨r, by exact_mod_cast hr, hor, hiff.trans ?_⟩
      constructor
      · rintro h b ⟨h1, h2⟩
        rcases Nat.eq_or_lt_of_le h1 with rfl | h1
        · exact hgood.mp rfl
        · exact h b ⟨h1, by omega⟩
      · rintro h b ⟨h1, h2⟩
        exact h b ⟨by omega, by omega⟩
    | false =>
      refine ⟨1, rfl, Or.inr rfl, iff_of_false one_ne_zero fun h => ?_⟩
      exact Bool.false_ne_true (hgood.mpr (h i ⟨le_rfl, by omega⟩))

/-- Verifying a range inside `file_data` completes, and returns 0 when every block it touches is
right up to the root. -/
theorem verifyHashRange_spec (hp : Perfect k s) (hk : k ≤ 24) {o l : ℕ}
    (hin : o + l ≤ s.file.length) (h31 : 0 < l → o + l ≤ 2 ^ 31) :
    ∃ r, verifyHashRange o l s = .ok r ∧ (r = 0 ∨ r = 1) ∧
      (r = 0 ↔ ∀ b ∈ touched o l, Verified k b s) := by
  unfold verifyHashRange
  rcases Nat.eq_zero_or_pos l with rfl | hl
  · refine ⟨0, if_pos (by simp), Or.inl rfl, iff_of_true rfl ?_⟩
    rw [touched_zero]
    exact fun b hb => absurd hb (Set.notMem_empty b)
  · have h2 := two_pow_le_of_le hk
    obtain ⟨i, n, hi, hn, hle, heq⟩ := touched_eq hp hl hin
    have hpos : 0 < n := by
      have hmem : o / blockLen ∈ touched o l := by
        unfold touched Touches blockLen
        simp only [Set.mem_ofPred_eq]
        omega
      rw [heq] at hmem
      have := hmem.1
      have := hmem.2
      omega
    have hle23 : i + n ≤ 2 ^ 23 := by
      have hmem : i + n - 1 ∈ touched o l := by
        rw [heq]
        exact ⟨by omega, by omega⟩
      have hlast := hmem.2.1
      have := h31 hl
      unfold blockLen at hlast
      omega
    rw [if_neg (by omega)]
    dsimp only
    rw [hi, toI32_of_bounds (by omega) (by omega), ← hi, hn, hi, heq]
    exact verifyBlocks_spec hp hk n i hle hle23

theorem Coherent.verified (hc : Coherent k s) (hb : b < 2 ^ k) : Verified k b s := by
  refine ⟨hc.leaves b hb, fun m hm => hc.inner m ?_⟩
  have := hm.le_half
  unfold leaf at this
  omega

/-- Verification finds nothing in a coherent tree. -/
theorem Coherent.verifies (hc : Coherent k s) (hp : Perfect k s) (hk : k ≤ 24) {o l : ℕ}
    (hin : o + l ≤ s.file.length) (h31 : 0 < l → o + l ≤ 2 ^ 31) :
    verifyHashRange o l s = .ok 0 := by
  obtain ⟨r, hr, -, hiff⟩ := verifyHashRange_spec hp hk hin h31
  obtain rfl := hiff.mpr fun b hb => hc.verified (touched_lt hp hin b hb)
  exact hr

end Perfect

end Vfs
