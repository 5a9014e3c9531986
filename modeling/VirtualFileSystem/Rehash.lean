import VirtualFileSystem.Bytes
import VirtualFileSystem.Admission

/-!
# Keeping the hash tree coherent

Every call rehashes a range of `file_data`.  The tree is coherent after a call exactly when each
block outside that range still has the hash it had.  Creating and repacking change bytes inside
their range only; a relocation that finds the other files already packed also puts the first bytes
of the file in front of it.
-/

namespace Vfs

open FlatImage Extents

/-- Hashing the bytes from `lo` up to `hi` computes the hash of block `b` anew. -/
def Hashed (lo hi : ℤ) (b : ℕ) : Prop :=
  lo < hi ∧ ((blockLen * b : ℕ) : ℤ) < hi ∧ lo < ((blockLen * b + blockLen : ℕ) : ℤ)

instance (lo hi : ℤ) (b : ℕ) : Decidable (Hashed lo hi b) := by unfold Hashed; infer_instance

/-! ## One range -/

section Range

variable {k : ℕ} {s s₁ s' : Filesys} {b c : ℤ}

theorem Coherent.congr (hc : Coherent k s) (hblock : ∀ blk, block s' blk = block s blk)
    (hhash : s'.hash = s.hash) : Coherent k s' := by
  have hnode : node s' = node s := by
    unfold node
    rw [hhash]
  refine ⟨?_, fun blk hb => ?_⟩
  · unfold InnerOk
    rw [hnode]
    exact hc.inner
  · unfold LeafOk
    rw [hnode, hblock]
    exact hc.leaves blk hb

theorem block_of_file (hfile : s'.file = s.file) (blk : ℕ) : block s' blk = block s blk := by
  unfold block
  rw [hfile]

/-- Hashing a range that ends inside `file_data` hashes its blocks. -/
theorem range_hashed (hp : Perfect k s) (hk : k ≤ 30) (hb : 0 ≤ b)
    (hin : b + c ≤ s.file.length) (hr : computeHashBlockRange b c s = .ok s') :
    BlocksHashed k {blk | Hashed b (b + c) blk} s s' := by
  rcases le_or_gt c 0 with hc | hc
  · rw [computeHashBlockRange_nonpos hc] at hr
    obtain rfl := Except.ok.inj hr
    have hempty : {blk | Hashed b (b + c) blk} = ∅ :=
      Set.eq_empty_of_forall_notMem fun blk h => absurd h.1 (by omega)
    rw [hempty]
    exact BlocksHashed.refl k s
  · obtain ⟨o, rfl⟩ := Int.eq_ofNat_of_zero_le hb
    obtain ⟨l, rfl⟩ := Int.eq_ofNat_of_zero_le hc.le
    have htouched : {blk | Hashed o (o + l) blk} = touched o l := by
      ext blk
      show Hashed o (o + l) blk ↔ 0 < l ∧ Touches o l blk
      unfold Hashed Touches
      omega
    rw [htouched]
    exact computeHashBlockRange_hashed hp hk (by omega) hr

theorem hashed_lt (hp : Perfect k s) (hin : b + c ≤ s.file.length) :
    ∀ blk ∈ {blk | Hashed b (b + c) blk}, blk < 2 ^ k := by
  rintro blk ⟨-, h, -⟩
  have hfile := hp.file
  unfold blockLen at *
  omega

/-- After the hashing of some blocks the tree is coherent if and only if every other block has the
hash it had in a coherent tree with the same nodes. -/
theorem BlocksHashed.coherent_iff {B : Set ℕ} (hh : BlocksHashed k B s₁ s')
    (hlt : ∀ blk ∈ B, blk < 2 ^ k) (hc : Coherent k s) (hhash : s₁.hash = s.hash) :
    Coherent k s' ↔ ∀ blk < 2 ^ k, blk ∉ B → fletcher (block s₁ blk) = fletcher (block s blk) := by
  have hnode : node s₁ = node s := by
    unfold node
    rw [hhash]
  have hinner : InnerOk k s₁ := by
    unfold InnerOk
    rw [hnode]
    exact hc.inner
  have hout : ∀ blk, blk ∉ B → node s' (leaf k blk) = node s (leaf k blk) :=
    fun blk h => (hh.leaf_same hlt h).trans (congrFun hnode _)
  constructor
  · intro hc' blk hblk h
    have h1 := hc'.leaves blk hblk
    have h2 := hc.leaves blk hblk
    unfold LeafOk at h1 h2
    rw [hout blk h, hh.frame.block_eq] at h1
    exact h1.symm.trans h2
  · intro h
    refine ⟨hh.inner hlt hinner, fun blk hblk => ?_⟩
    by_cases hin' : blk ∈ B
    · exact hh.leafOk hin'
    · unfold LeafOk
      rw [hout blk hin', hh.frame.block_eq, h blk hblk hin']
      exact hc.leaves blk hblk

theorem rehash_coherent_iff (hc : Coherent k s) (hp : Perfect k s₁) (hk : k ≤ 30)
    (hhash : s₁.hash = s.hash) (hb : 0 ≤ b) (hin : b + c ≤ s₁.file.length)
    (hr : computeHashBlockRange b c s₁ = .ok s') :
    Coherent k s' ↔ ∀ blk < 2 ^ k, ¬ Hashed b (b + c) blk →
      fletcher (block s₁ blk) = fletcher (block s blk) :=
  (range_hashed hp hk hb hin hr).coherent_iff (hashed_lt hp hin) hc hhash

/-- Bytes that agree in a block give it one hash. -/
theorem block_congr {blk : ℕ} (h : ∀ i, blockLen * blk ≤ i → i < blockLen * blk + blockLen →
    s₁.file[i]? = s.file[i]?) : block s₁ blk = block s blk := cell_congr h

/-- A block that is not hashed holds no byte written inside the range. -/
theorem cell_splice_of_not_hashed {m bs : List UInt8} {a blk : ℕ} {lo hi : ℤ}
    (hin : a + bs.length ≤ m.length) (hlo : lo ≤ a) (hhi : ((a + bs.length : ℕ) : ℤ) ≤ hi)
    (hh : ¬ Hashed lo hi blk) : cell blockLen (splice m a bs) blk = cell blockLen m blk := by
  rcases Nat.eq_zero_or_pos bs.length with h0 | h0
  · rw [List.length_eq_zero_iff.mp h0, splice_nil]
  · apply slice_splice_of_disjoint hin
    unfold Hashed at hh
    push Not at hh
    by_cases h1 : ((blockLen * blk : ℕ) : ℤ) < hi
    · have := hh (by omega) h1
      left
      omega
    · right
      omega

/-- On a coherent tree the climb from any node finds nothing. -/
theorem verifyPath_coherent (hp : Perfect k s) (hc : Coherent k s) :
    ∀ (fuel : ℕ) (n : ℤ) (r : Bool), verifyPath fuel n s = .ok r → r = true := by
  intro fuel
  induction fuel with
  | zero =>
    intro n r hr
    cases hr
  | succ fuel ih =>
    intro n r hr
    simp only [verifyPath] at hr
    by_cases hn : n ≥ 0
    · rw [if_pos hn] at hr
      obtain ⟨h, hh, hr⟩ := Run.bind_eq_ok.mp hr
      obtain ⟨stored, hs, hr⟩ := Run.bind_eq_ok.mp hr
      obtain ⟨m, rfl⟩ := Int.eq_ofNat_of_zero_le hn
      -- the node was read, so it is one of the tree
      have hm : m < 2 ^ (k + 1) - 1 := by
        obtain ⟨a, ha, hs⟩ := Run.bind_eq_ok.mp hs
        unfold mulI32 at ha
        split_ifs at ha
        obtain rfl := Except.ok.inj ha
        obtain ⟨⟨-, hle⟩, -⟩ := memRead_eq_ok.mp hs
        rw [hp.hash] at hle
        unfold hashLen at hle
        generalize 2 ^ (k + 1) = n at hle ⊢
        omega
      rw [(hashNode_post hp hh).1, readNode_post hs, if_neg (not_not.mpr (hc.node_eq hm))] at hr
      exact ih _ r hr
    · rw [if_neg hn] at hr
      exact (Except.ok.inj hr).symm

theorem verifyBlocks_coherent (hp : Perfect k s) (hc : Coherent k s) :
    ∀ (n : ℕ) (i r : ℤ), verifyBlocks i n s = .ok r → r = 0 := by
  intro n
  induction n with
  | zero => exact fun i r hr => (Except.ok.inj hr).symm
  | succ n ih =>
    intro i r hr
    obtain ⟨leaf, -, hr⟩ := Run.bind_eq_ok.mp hr
    obtain ⟨ok, hok, hr⟩ := Run.bind_eq_ok.mp hr
    rw [verifyPath_coherent hp hc _ _ ok hok, if_pos rfl] at hr
    exact ih _ r hr

theorem verifyHashRange_coherent (hp : Perfect k s) (hc : Coherent k s) {o l r : ℤ}
    (hr : verifyHashRange o l s = .ok r) : r = 0 := by
  unfold verifyHashRange at hr
  split_ifs at hr
  · exact (Except.ok.inj hr).symm
  · exact verifyBlocks_coherent hp hc _ _ r hr

/-- On a coherent tree no call of `read_file` returns 3. -/
theorem Coherent.readFile (hc : Coherent k s) (hp : Perfect k s) {name : CString}
    {offset count : ℕ} {a : ℤ × List UInt8} (hr : readFile name offset count s = .ok a) :
    a.1 ≠ 3 := by
  unfold Vfs.readFile at hr
  obtain ⟨q, -, hr⟩ := Run.bind_eq_ok.mp hr
  cases q with
  | none =>
    obtain rfl := Except.ok.inj hr
    decide
  | some p =>
    dsimp only at hr
    by_cases hgt : toU64 (offset + count) > (s.heap p).length
    · rw [if_pos hgt] at hr
      obtain rfl := Except.ok.inj hr
      decide
    rw [if_neg hgt] at hr
    obtain ⟨bad, hbad, hr⟩ := Run.bind_eq_ok.mp hr
    rw [if_neg (not_not.mpr (verifyHashRange_coherent hp hc hbad))] at hr
    by_cases h0 : count = 0
    · rw [if_pos h0] at hr
      obtain rfl := Except.ok.inj hr
      decide
    · rw [if_neg h0] at hr
      obtain ⟨data, -, hr⟩ := Run.bind_eq_ok.mp hr
      obtain rfl := Except.ok.inj hr
      show (0 : ℤ) ≠ 3
      decide

end Range

/-! ## Calls that change bytes inside their range -/

section Inside

variable {w k o : ℕ} {s s₁ s' : Filesys} {p : Ptr} {length : ℕ} {ho : ℤ}

/-- Blocks that a repack touches behind where it began are hashed. -/
theorem repackHelper_block (hs : Arranged s)
    (h0 : s.used ≤ 0 → ∀ p ∈ s.oList.list, (s.heap p).length = 0)
    (hroomy : Roomy 0 (exts s.heap s.oList.list)) (hr : repackHelper s = .ok (ho, s')) {hi : ℤ}
    {blk : ℕ} (hhi : (totalLength s.heap s.oList.list : ℤ) ≤ hi)
    (hh : 0 ≤ ho → ¬ Hashed ho hi blk) : block s' blk = block s blk := by
  apply block_congr
  intro i h1 h2
  apply repackHelper_frame_file hs h0 hroomy hr
  by_cases hneg : 0 ≤ ho
  · have hlt := repackHelper_lt hs h0 hr hneg
    have hh := hh hneg
    unfold Hashed at hh
    push Not at hh
    by_cases h3 : ((blockLen * blk : ℕ) : ℤ) < hi
    · have := hh (by omega) h3
      left
      omega
    · right
      omega
  · left
    intro h
    exact absurd h hneg

theorem Arranged.total_le (har : Arranged s) : totalLength s.heap s.oList.list ≤ s.fileDataLen := by
  have hle := total_le_of_inside har.lined (above_zero _) (fun x hx hpos => by
    obtain ⟨q, hq, rfl⟩ := List.mem_map.mp hx
    exact har.inside q hq hpos) (Nat.zero_le s.fileDataLen)
  rwa [total_exts, Nat.zero_add] at hle

/-- Repacking keeps the tree coherent: the range hashed holds every byte that changed. -/
theorem repack_coherent (hm : Mirror w s) (hL : Layout s) (har : Arranged s) (hp : Perfect k s)
    (hk : k ≤ 30) (hc : Coherent k s) (hroomy : Roomy 0 (exts s.heap s.oList.list))
    (hr : repack s = .ok s') : Coherent k s' := by
  have hused := hL.total_eq hm
  have hle := har.total_le
  obtain ⟨ho, s₁, h1, h2⟩ := repack_post hr
  have hf := repackHelper_frame h1
  have hfile : s₁.file.length = s.fileDataLen := hf.file_length
  have hblock : ∀ blk, (0 ≤ ho → ¬ Hashed ho s.used blk) → block s₁ blk = block s blk :=
    fun blk => repackHelper_block har (hL.empty_of_used hm) hroomy h1 (by omega)
  rcases h2 with ⟨hge, h2⟩ | ⟨hneg, rfl⟩
  · rw [hf.used] at h2
    refine (rehash_coherent_iff hc (hp.congr hf.kept.shape) hk hf.hash hge (by omega) h2).mpr
      fun blk _ hh => ?_
    rw [add_sub_cancel] at hh
    rw [hblock blk fun _ => hh]
  · exact hc.congr (fun blk => hblock blk fun h => absurd h (by omega)) hf.hash

theorem sortedInsert_eq {t : ArrType} (hr : sortedInsert t p s = .ok s') :
    ∃ arr h, s' = s.setArr t arr h := by
  obtain ⟨⟨_, arr, h⟩, -, hr⟩ := Run.bind_eq_ok.mp hr
  exact ⟨arr, h, (Except.ok.inj hr).symm⟩

/-- What hashing sees of a state. -/
structure SameImage (s s' : Filesys) : Prop where
  file : s'.file = s.file
  hash : s'.hash = s.hash
  used : s'.used = s.used
  leafOffset : s'.leafOffset = s.leafOffset

theorem SameImage.trans {t : Filesys} (h1 : SameImage s t) (h2 : SameImage t s') :
    SameImage s s' :=
  ⟨h2.file.trans h1.file, h2.hash.trans h1.hash, h2.used.trans h1.used,
    h2.leafOffset.trans h1.leafOffset⟩

theorem SameImage.perfect (h : SameImage s s') (hp : Perfect k s) : Perfect k s' := by
  refine ⟨?_, ?_, ?_⟩
  · rw [h.file]
    exact hp.file
  · rw [h.hash]
    exact hp.hash
  · rw [h.leafOffset]
    exact hp.leafOffset

theorem sortedInsert_sameImage {t : ArrType} (hr : sortedInsert t p s = .ok s') :
    SameImage s s' := by
  obtain ⟨arr, h, rfl⟩ := sortedInsert_eq hr
  cases t with
  | offset => exact ⟨rfl, rfl, rfl, rfl⟩
  | name => exact ⟨rfl, rfl, rfl, rfl⟩

theorem writeDirFile_sameImage {f : FileT} (hr : writeDirFile f s = .ok s') : SameImage s s' := by
  obtain ⟨d₁, d₂, -, -, -, -, rfl⟩ := writeDirFile_post hr
  exact ⟨rfl, rfl, rfl, rfl⟩

/-- A place for a new file is inside, and behind the first byte a repack moved; outside the range
from there to the end of the file no block changed. -/
theorem newFileOffset_place (hm : Mirror w s) (hL : Layout s) (hfdl : s.fileDataLen ≤ 2 ^ 31)
    (hsafe : 0 < length → findGap length s = .ok none → Roomy 0 (exts s.heap s.oList.list))
    (hpos : 0 < length) (hr : newFileOffset length (-1) s = .ok (o, ho, s₁)) :
    o + length ≤ s.fileDataLen ∧ (0 ≤ ho → ho ≤ o ∧ (o : ℤ) = s.used) ∧ ∀ blk,
      (0 ≤ ho → ¬ Hashed ho (s.used + length) blk) → block s₁ blk = block s blk := by
  have hs := hL.searchable hm (by omega)
  have hused := hL.total_eq hm
  have hle := hL.used_le hm (by omega)
  have hf := newFileOffset_frame hr
  obtain ⟨⟨hlen, hsum⟩, hcase⟩ := newFileOffset_post hr
  rw [toU64_of_nonneg (by omega) (by omega)] at hsum
  rcases hcase with ⟨rfl, rfl, ⟨h0, -⟩ | ⟨-, hgap⟩⟩ | ⟨-, hgap, hrep, rfl⟩
  · omega
  · obtain ⟨r, hr', hfree⟩ := findGap_spec hs hlen
    obtain rfl : some o = r := Except.ok.inj (hgap.symm.trans hr')
    exact ⟨(hfree o rfl).2, by omega, fun _ _ => rfl⟩
  · have hlt := repackHelper_lt hs.arranged (hL.empty_of_used hm) hrep
    rw [hf.used, toU64_of_nonneg (by omega) (by omega)]
    exact ⟨by omega, by omega, fun blk =>
      repackHelper_block hs.arranged (hL.empty_of_used hm) (hsafe hpos hgap) hrep (by omega)⟩

/-- Creating keeps the tree coherent: the bytes a repack moved and the null bytes are hashed. -/
theorem createFileAt_coherent {name : CString} (hm : Mirror w s) (hL : Layout s)
    (hp : Perfect k s) (hk : k ≤ 23) (hc : Coherent k s)
    (hsafe : 0 < length → findGap length s = .ok none → Roomy 0 (exts s.heap s.oList.list))
    (hr : createFileAt name length s = .ok s') : Perfect k s' ∧ Coherent k s' := by
  have hk31 := hp.fileDataLen_le31 hk
  have hused := hL.total_eq hm
  have hle := hL.used_le hm (by omega)
  obtain ⟨i, o, ho, s₁, s₂, s₃, s₄, -, hoff, h2, h3, h4, h⟩ := createFileAt_post hr
  have hf := newFileOffset_frame hoff
  have hsame : SameImage s₁ { s₄ with
      index := s₄.index.set i 1, indexCount := s₄.indexCount + 1 } := by
    have hinit : SameImage s₁ (fileInit name.toFileName o (toU32 length) i s₁).2 :=
      ⟨rfl, rfl, rfl, rfl⟩
    exact (((hinit.trans (sortedInsert_sameImage h2)).trans (sortedInsert_sameImage h3)).trans
      (writeDirFile_sameImage h4)).trans ⟨rfl, rfl, rfl, rfl⟩
  generalize ({ s₄ with index := s₄.index.set i 1, indexCount := s₄.indexCount + 1 } : Filesys) = t
    at h hsame
  rcases h with ⟨rfl, rfl⟩ | ⟨hpos, s₅, h5, h6⟩
  · -- nothing was placed
    rcases (newFileOffset_post hoff).2 with ⟨rfl, -⟩ | ⟨h0, -⟩
    · exact ⟨hsame.perfect hp, hc.congr (block_of_file hsame.file) hsame.hash⟩
    · exact absurd h0 (by omega)
  obtain ⟨hin, hho, hblock⟩ := newFileOffset_place hm hL hk31 hsafe hpos hoff
  have hfile₁ : s₁.file.length = s.fileDataLen := hf.file_length
  rw [toI64_of_lt (show o < 2 ^ 63 by omega), toI64_of_lt (show length < 2 ^ 63 by omega)]
    at h5 h6
  have hsplice : o + (List.replicate length (0 : UInt8)).length ≤ s₁.file.length := by
    rw [List.length_replicate]
    omega
  have hused₅ : toI64 (s₅.used + length) = s.used + length := by
    rw [writeNullFile_used h5, hsame.used, hf.used, toI64_of_bounds (by omega) (by omega)]
  obtain ⟨hfile₅, hhash₅, hp₅⟩ : s₅.file = splice s₁.file o (List.replicate length 0) ∧
      s₅.hash = s.hash ∧ Perfect k s₅ := by
    rcases writeNullFile_post h5 with ⟨h0, -⟩ | ⟨-, -, -, -, rfl⟩
    · omega
    · have hp' := hsame.perfect (hp.congr hf.kept.shape)
      refine ⟨by rw [hsame.file]; rfl, hsame.hash.trans hf.hash, ⟨?_, hp'.hash, hp'.leafOffset⟩⟩
      rw [hsame.file]
      exact (length_splice hsplice).trans (hfile₁.trans hp.file)
  have hp₆ : Perfect k { s₅ with used := toI64 (s₅.used + length) } :=
    ⟨hp₅.file, hp₅.hash, hp₅.leafOffset⟩
  refine ⟨hp₆.congr (hashEither_frame h6).kept.shape, ?_⟩
  have hlen₅ : s₅.file.length = s.fileDataLen := hp₅.file.trans hp.file.symm
  have hcell : ∀ (blk : ℕ) (lo hi : ℤ), lo ≤ o → (o + length : ℕ) ≤ hi → ¬ Hashed lo hi blk →
      block { s₅ with used := toI64 (s₅.used + length) } blk = block s₁ blk := by
    intro blk lo hi hlo hhi hh
    show cell blockLen s₅.file blk = _
    rw [hfile₅]
    exact cell_splice_of_not_hashed hsplice hlo (by rwa [List.length_replicate]) hh
  rcases h6 with ⟨hge, h6⟩ | ⟨hneg, h6⟩
  · obtain ⟨hlo, ho_eq⟩ := hho hge
    rw [hused₅] at h6 hcell hp₆
    refine (rehash_coherent_iff hc hp₆ (by omega) hhash₅ hge (by
      show _ ≤ (s₅.file.length : ℤ)
      omega) h6).mpr fun blk _ hh => ?_
    rw [add_sub_cancel] at hh
    rw [hcell blk ho (s.used + length) hlo (by omega) hh, hblock blk fun _ => hh]
  · refine (rehash_coherent_iff hc hp₆ (by omega) hhash₅ (Int.natCast_nonneg o) (by
      show _ ≤ (s₅.file.length : ℤ)
      omega) h6).mpr fun blk _ hh => ?_
    rw [hcell blk o (o + length) le_rfl (by omega) hh, hblock blk fun h => absurd h (by omega)]

end Inside

/-! ## Growing -/

/-- Where the hashing after a relocation starts: the first byte repacked, or behind the bytes of the
file that were copied. -/
def growStart (p : Ptr) (copy : ℕ) (s : Filesys) : ℤ :=
  match firstMoved 0 (exts s.heap (others p s)) with
  | some h => h
  | none => ((totalLength s.heap (others p s) + copy : ℕ) : ℤ)

/-- Where it stops: the new end of the file, as a signed 64-bit number. -/
def growStop (p : Ptr) (length : ℕ) (s : Filesys) : ℤ :=
  toI64 ((totalLength s.heap (others p s) + length : ℕ) : ℤ)

/-- The relocation gives no block outside the hashed range another hash. -/
def Rehashed (k : ℕ) (p : Ptr) (length copy : ℕ) (s : Filesys) : Prop :=
  ∀ blk < 2 ^ k, ¬ Hashed (growStart p copy s) (growStop p length s) blk →
    fletcher (cell blockLen (relocated p copy s) blk) = fletcher (block s blk)

instance (k : ℕ) (p : Ptr) (length copy : ℕ) (s : Filesys) :
    Decidable (Rehashed k p length copy s) := by
  unfold Rehashed; infer_instance

section Growth

variable {w k : ℕ} {s s₁ s₂ s' : Filesys} {p : Ptr} {length copy a : ℕ} {ho b c : ℤ}
  {bs : List UInt8}

theorem Relocated.growStart_eq (hrel : Relocated p copy s ho s₁) :
    growStart p copy s = if 0 ≤ ho then ho else (s₁.heap p).offset + copy := by
  unfold growStart
  rw [hrel.hashOffset, hrel.place]
  cases firstMoved 0 (exts s.heap (others p s)) with
  | none => rw [if_neg (by decide)]; push_cast; rfl
  | some h => exact (if_pos (Int.natCast_nonneg h)).symm

theorem growStart_le (p : Ptr) (copy : ℕ) (s : Filesys) :
    growStart p copy s ≤ (totalLength s.heap (others p s) + copy : ℕ) := by
  unfold growStart
  cases hf : firstMoved 0 (exts s.heap (others p s)) with
  | none => exact le_rfl
  | some h =>
    have := firstMoved_lt hf
    rw [total_exts] at this
    show (h : ℤ) ≤ _
    omega

theorem Relocated.growStop_of_wrapped (hrel : Relocated p copy s ho s₁)
    (h0 : 2 ^ 63 ≤ (s₁.heap p).offset + length)
    (h : (s₁.heap p).offset + length < 2 ^ 64 + 2 ^ 63) :
    growStop p length s = (((s₁.heap p).offset + length : ℕ) : ℤ) - 2 ^ 64 := by
  unfold growStop
  rw [← hrel.place, toI64_of_wrapped (by omega) (by omega)]

/-- After a relocation, more bytes put behind the copied ones inside the range, and its hashing,
the tree is coherent if and only if the relocation changed no hash outside the range. -/
theorem Relocated.coherent_iff (himg : Relocated p copy s ho s₁) (hc : Coherent k s)
    (hhash : s₂.hash = s.hash)
    (hfile : s₂.file = splice s₁.file ((s₁.heap p).offset + copy) bs)
    (hlen : (s₁.heap p).offset + copy + bs.length ≤ s₁.file.length)
    (hbs : bs = [] ∨ (((s₁.heap p).offset + copy + bs.length : ℕ) : ℤ) ≤ growStop p length s)
    (hh : BlocksHashed k {blk | Hashed (growStart p copy s) (growStop p length s) blk} s₂ s')
    (hlt : ∀ blk ∈ {blk | Hashed (growStart p copy s) (growStop p length s) blk}, blk < 2 ^ k) :
    Coherent k s' ↔ Rehashed k p length copy s := by
  rw [hh.coherent_iff hlt hc hhash]
  refine forall_congr' fun blk => imp_congr_right fun _ => imp_congr_right fun hout => ?_
  have hcell : block s₂ blk = cell blockLen (relocated p copy s) blk := by
    unfold block
    rw [hfile, ← himg.file]
    rcases hbs with rfl | hbs
    · rw [splice_nil]
    · refine cell_splice_of_not_hashed hlen ?_ hbs hout
      rw [himg.place]
      exact growStart_le p copy s
  rw [hcell]

/-- A length beyond `file_data` needs a relocation. -/
theorem relocates_of_large (hm : Mirror w s) (hL : Layout s) (hfdl : s.fileDataLen ≤ 2 ^ 32)
    (hp : p ∈ s.live) (hlen : 2 ^ 32 < length) (hothers : 0 < totalLength s.heap (others p s)) :
    Relocates p length s := by
  unfold Relocates
  by_cases hge : (s.heap p).offset ≥ maxFileDataLen
  · rw [if_pos hge]
    have hsub : (others p s).Sublist s.oList.list := List.erase_sublist
    cases hf : findNextNonzero s.heap (others p s) with
    | none =>
      have hzero := findNextNonzero_eq_none (hL.lined.sublist hsub).sorted
        (fun q hq => hL.sentinelEmpty hfdl q (hsub.mem hq)) hf
      have : totalLength s.heap (others p s) = 0 :=
        List.sum_eq_zero fun n hn => by
          obtain ⟨q, hq, rfl⟩ := List.mem_map.mp hn
          exact hzero q hq
      omega
    | some q =>
      obtain ⟨A, B, -, -, -, hlt⟩ := findNextNonzero_eq_some hf
      show (s.heap q).offset < length
      unfold maxFileDataLen at hlt
      omega
  · rw [if_neg hge]
    by_contra hreq
    obtain ⟨A, B, hAB⟩ := List.append_of_mem (hL.mem hp)
    have := (inPlace_room hm hL hfdl hAB (not_le.mp hge) hreq).1
    omega

/-- What `resize_file_helper` leaves of a growing file: the relocated bytes or those before, its
place, and the old hashes. -/
theorem resizeFileHelper_image (hm : Mirror w s) (hL : Layout s) (hfdl : s.fileDataLen ≤ 2 ^ 32)
    (hp : p ∈ s.live) (hcopy : copy ≤ (s.heap p).length) (hgrow : (s.heap p).length < length)
    (hr : resizeFileHelper p length copy s = .ok (ho, s₁)) :
    s₁.hash = s.hash ∧ ((Relocates p length s ∧ Relocated p copy s ho s₁) ∨
      (¬ Relocates p length s ∧ s₁.file = s.file ∧ ho = -1)) := by
  rcases resizeFileHelper_post hr with ⟨he, -⟩ | ⟨-, s₀, ⟨hlt, -⟩ | ⟨-, hroom⟩, -, rfl⟩
  · omega
  · omega
  have hoff : (((setLength p length (s.heap p).length (splice s₀.dir
      (metaLen * (s₀.heap p).index + (nameLen + offsetLen)) (le32 (toU32 length))) s₀)).heap
        p).offset = (s₀.heap p).offset := by
    simp [setLength]
  obtain ⟨hhash, hcase⟩ := makeRoom_image hm hL hfdl hp hcopy hroom
  refine ⟨hhash, ?_⟩
  rcases hcase with ⟨hrel, hfile, hplace, hho⟩ | ⟨hrel, hfile, hho⟩
  · exact Or.inl ⟨hrel, hfile, hoff.trans hplace, hho⟩
  · exact Or.inr ⟨hrel, hfile, hho⟩

/-- Growing with a sum that wraps: the file is relocated without null bytes, and the hashed range
ends in front of the packed files. -/
theorem resizeFileAt_coherent_wrapped (hm : Mirror w s) (hL : Layout s) (hpf : Perfect k s)
    (hk : k ≤ 23) (hc : Coherent k s) (hp : p ∈ s.live) (hlen : length < 2 ^ 64)
    (hwrap : 2 ^ 64 ≤ s.used + length - (s.heap p).length) (hr : resizeFileAt p length s = .ok s') :
    Relocates p length s ∧
      (Coherent k s' ↔ Rehashed k p length (s.heap p).length s) := by
  have hk31 := hpf.fileDataLen_le31 hk
  have hfdl : s.file.length = s.fileDataLen := rfl
  have hle := hL.used_le hm (by omega)
  have hlen32 := hm.counted.length_lt p hp
  have hothers : (totalLength s.heap (others p s) : ℤ) = s.used - (s.heap p).length :=
    hL.total_erase hm hp
  have hrel : Relocates p length s :=
    relocates_of_large hm hL (by omega) hp (by omega) (by omega)
  refine ⟨hrel, ?_⟩
  obtain ⟨ho, s₁, h1, ⟨hle', -⟩ | ⟨-, s₂, h2, h3⟩⟩ := resizeFileAt_post hr
  · omega
  obtain ⟨hhash, hcase⟩ := resizeFileHelper_image hm hL (by omega) hp le_rfl (by omega) h1
  have himg : Relocated p (s.heap p).length s ho s₁ := (hcase.resolve_right fun h => h.1 hrel).2
  have hho : ho = -1 ∨ 0 ≤ ho ∧ ho < s.file.length := by
    obtain ⟨ho', s₁', h1', hho, -⟩ :=
      @resizeFileHelper_total _ s p length _ hm hL (by omega) hp (le_refl (s.heap p).length)
    obtain ⟨rfl, rfl⟩ := Prod.mk.inj (Except.ok.inj (h1.symm.trans h1'))
    exact hho
  have hk₁ := (resizeFileHelper_liveOk hm.liveOk hp h1).2
  have hfile₁ : s₁.file.length = s.fileDataLen := hk₁.shape.file
  have hplace := himg.place
  have hneg2 : (length : ℤ) - (s.heap p).length - 2 ^ 64 ≤ 0 := by omega
  have hin : (((s₁.heap p).offset + length : ℕ) : ℤ) - 2 ^ 64 ≤ s₁.file.length := by omega
  have e1 : toI64 ((s₁.heap p).offset + (s.heap p).length) =
      (((s₁.heap p).offset + (s.heap p).length : ℕ) : ℤ) :=
    toI64_of_bounds (by omega) (by omega)
  have e2 : toI64 ((length : ℤ) - (s.heap p).length) = length - (s.heap p).length - 2 ^ 64 := by
    clear e1
    exact toI64_of_wrapped (by omega) (by omega)
  have e3 : 0 ≤ ho → toI64 ((s₁.heap p).offset + length - ho) =
      (s₁.heap p).offset + length - ho - 2 ^ 64 := by
    clear e1 e2
    intro h
    exact toI64_of_wrapped (by omega) (by omega)
  have hstop : growStop p length s = (((s₁.heap p).offset + length : ℕ) : ℤ) - 2 ^ 64 := by
    clear e1 e2 e3
    exact himg.growStop_of_wrapped (by omega) (by omega)
  rw [e1, e2] at h2 h3
  have hnull : s₂ = s₁ := by
    rcases writeNullFile_post h2 with ⟨-, h⟩ | ⟨h0, -⟩
    · exact h
    · exact absurd h0 hneg2.not_gt
  subst hnull
  have hcoh : ∀ b c : ℤ, 0 ≤ b → b = growStart p (s.heap p).length s →
      b + c = (((s₂.heap p).offset + length : ℕ) : ℤ) - 2 ^ 64 →
      computeHashBlockRange b c s₂ = .ok s' →
      (Coherent k s' ↔ Rehashed k p length (s.heap p).length s) := by
    clear e1 e2 e3
    intro b c hb hstart hbc hr'
    have hp₂ := hpf.congr hk₁.shape
    have hle₂ : b + c ≤ s₂.file.length := hbc.trans_le hin
    have hlt := hashed_lt (b := b) (c := c) hp₂ hle₂
    have hh := range_hashed hp₂ (by omega) hb hle₂ hr'
    rw [hbc, ← hstop, hstart] at hh hlt
    have hfile : s₂.file = splice s₂.file ((s₂.heap p).offset + (s.heap p).length) [] :=
      (splice_nil _ _).symm
    refine himg.coherent_iff hc hhash hfile ?_ (Or.inl rfl) hh hlt
    simp only [List.length_nil]
    omega
  rcases h3 with ⟨hge, h3⟩ | ⟨hneg, h3⟩
  · rw [e3 hge] at h3
    exact hcoh _ _ hge (by rw [himg.growStart_eq, if_pos hge]) (by push_cast; ring) h3
  · exact hcoh _ _ (Int.natCast_nonneg _) (by rw [himg.growStart_eq, if_neg hneg.not_ge]; rfl)
      (by push_cast; ring) h3

end Growth

end Vfs
