import VirtualFileSystem.GrowingWrite

/-!
# Offsets beyond 2 GiB

`hash_node` multiplies the number of a block by 256 in `int32_t`, `compute_hash_block_helper` in
`size_t`; `write_file` keeps the 64-bit result of `resize_file_helper` in an `int32_t`.  The widths
make no difference up to `2 ^ 31` bytes of `file_data`; `file_data` may have `2 ^ 32`.
-/

namespace Vfs

open FlatImage Extents

/-! ## The expressions -/

/-- The address `hash_node` reads for the leaf `n`. -/
def leafAddress (n : ℤ) (s : Filesys) : Run ℤ := mulI32 (n - s.leafOffset) blockLen

/-- The address `compute_hash_block_helper` reads for a block. -/
def blockAddress (blockOffset : ℕ) : ℕ := toU64 (blockOffset * blockLen)

/-- The offset and the length `write_file` passes to `compute_hash_block_range`, when
`resize_file_helper` returned `ho`. -/
def rehashRange (ho : ℤ) (p : Ptr) (offset count : ℕ) (s : Filesys) : ℤ × ℤ :=
  let hashOffset := toI32 ho
  if hashOffset ≥ 0 then (hashOffset, s.used - hashOffset)
  else (toI64 ((s.heap p).offset + offset), toI64 count)

section Expressions

variable {n ho : ℤ} {b offset count : ℕ} {p : Ptr} {s : Filesys} {buf : List UInt8}

theorem hashNode_of_leaf (hn : ¬ n < s.leafOffset) : hashNode n s = (do
    let a ← leafAddress n s
    let block ← memRead s.file a blockLen
    pure (fletcher block)) := if_neg hn

/-- `compute_hash_block_helper` hashes what lies at `blockAddress`. -/
theorem computeHashBlockHelper_eq (b : ℕ) (s : Filesys) : computeHashBlockHelper b s = (do
    let block ← memRead s.file (blockAddress b) blockLen
    let t ← writeNode (toI32 (s.leafOffset + b)) (fletcher block) s
    climb ((toI32 (s.leafOffset + b)).toNat + 1) (toI32 (s.leafOffset + b)) t) := rfl

/-- A growing write hashes `rehashRange`. -/
theorem writeFileAt_of_grows (hg : (s.heap p).length < toU64 (offset + count)) :
    writeFileAt p offset count buf s = (do
      let (ho, t) ← resizeFileHelper p (toU64 (offset + count)) offset s
      let data ← memRead buf 0 count
      let file ← memWrite t.file (((t.heap p).offset + offset : ℕ) : ℤ) data
      let range := rehashRange ho p offset count t
      computeHashBlockRange range.1 range.2 { t with file := file }) := by
  unfold writeFileAt
  rw [if_pos hg]
  refine congrArg _ (funext fun ⟨ho, t⟩ => ?_)
  dsimp only
  refine congrArg _ (funext fun data => congrArg _ (funext fun file => ?_))
  by_cases h : toI32 ho ≥ 0
  · simp only [rehashRange, if_pos h]
  · simp only [rehashRange, if_neg h]

end Expressions

/-! ## The leaves -/

section Leaves

variable {k b : ℕ} {s : Filesys}

theorem mulI32_wide {x y : ℤ} (h : 2 ^ 31 ≤ x * y) : mulI32 x y = .error .signedOverflow := by
  unfold mulI32
  rw [if_neg (by omega)]

theorem Perfect.leafAddress (hp : Perfect k s) : leafAddress (leaf k b) s = mulI32 b blockLen := by
  have hsub : ((leaf k b : ℕ) : ℤ) - s.leafOffset = b := by
    rw [hp.leafOffset_eq]
    unfold leaf
    omega
  unfold Vfs.leafAddress
  rw [hsub]

theorem leafAddress_of_lt (hp : Perfect k s) (hb : b < 2 ^ 23) :
    leafAddress (leaf k b) s = .ok (blockAddress b) := by
  have hlt : (b : ℤ) * 256 < 2 ^ 31 := by omega
  have hmul : ((blockAddress b : ℕ) : ℤ) = b * blockLen := by
    unfold blockAddress
    rw [blockAddr (by decide : 23 ≤ 30) hb, Nat.cast_mul, mul_comm]
  rw [hp.leafAddress, hmul]
  exact mulI32_of (le_trans (by norm_num) (by positivity : (0 : ℤ) ≤ b * blockLen)) hlt

theorem leafAddress_wide (hp : Perfect k s) (hb : 2 ^ 23 ≤ b) :
    leafAddress (leaf k b) s = .error .signedOverflow := by
  have hge : 2 ^ 31 ≤ (b : ℤ) * 256 := by omega
  rw [hp.leafAddress]
  exact mulI32_wide hge

/-- The two addresses of a block agree in the first 2 GiB. -/
theorem leafAddress_iff (hp : Perfect k s) :
    leafAddress (leaf k b) s = .ok (blockAddress b) ↔ b < 2 ^ 23 := by
  refine ⟨fun h => ?_, leafAddress_of_lt hp⟩
  by_contra hb
  rw [leafAddress_wide hp (by omega)] at h
  cases h

/-- What lies at the address is the block. -/
theorem memRead_blockAddress (hp : Perfect k s) (hk : k ≤ 24) (hb : b < 2 ^ k) :
    memRead s.file (blockAddress b) blockLen = .ok (block s b) := by
  unfold blockAddress
  rw [blockAddr (by omega) hb]
  exact memRead_of (hp.block_le hb)

/-- So `hash_node` hashes the block if it lies in the first 2 GiB, and overflows if not. -/
theorem hashNode_leaf (hp : Perfect k s) (hk : k ≤ 24) (hb : b < 2 ^ k) :
    hashNode (leaf k b) s = if b < 2 ^ 23 then .ok (fletcher (block s b))
      else .error .signedOverflow := by
  rw [hashNode_of_leaf (by rw [hp.leafOffset_eq]; unfold leaf; omega)]
  split_ifs with h23
  · rw [leafAddress_of_lt hp h23, Run.ok_bind, memRead_blockAddress hp hk hb]
    rfl
  · rw [leafAddress_wide hp (by omega)]
    rfl

end Leaves

/-! ## The reports -/

/-- `write_file` grows the file. -/
structure GrowingWrite (p : Ptr) (offset count : ℕ) (s : Filesys) : Prop where
  live : p ∈ s.live
  inside : offset ≤ (s.heap p).length
  grows : (s.heap p).length < toU64 (offset + count)

/-- The range hashed is the one `resize_file_helper` reports, if it reports one. -/
def ReportKept (p : Ptr) (offset count : ℕ) (s : Filesys) : Prop :=
  ∀ ho s₁, resizeFileHelper p (toU64 (offset + count)) offset s = .ok (ho, s₁) → 0 ≤ ho →
    rehashRange ho p offset count s₁ = (ho, s₁.used - ho)

/-- Repacking the files other than `p` moves none of them, or a byte in the first 2 GiB. -/
def MovesLow (p : Ptr) (s : Filesys) : Prop :=
  Packed 0 (exts s.heap (others p s)) ∨ ∃ i < 2 ^ 31, Free i (exts s.heap (others p s))

section Reports

variable {k offset count : ℕ} {p : Ptr} {s : Filesys} {ho : ℤ}

theorem toI32_wide {x : ℤ} (h0 : 2 ^ 31 ≤ x) (h : x < 2 ^ 32) : toI32 x = x - 2 ^ 32 := by
  unfold toI32
  rw [Int.bmod_def]
  omega

/-- A report survives the `int32_t` if it lies in the first 2 GiB. -/
theorem rehashRange_eq_iff (h0 : 0 ≤ ho) (hlt : ho < (s.heap p).offset)
    (hend : (s.heap p).offset + offset < 2 ^ 63) (hp : (s.heap p).offset ≤ 2 ^ 32) :
    rehashRange ho p offset count s = (ho, s.used - ho) ↔ ho < 2 ^ 31 := by
  unfold rehashRange
  dsimp only
  constructor
  · intro h
    by_contra hwide
    rw [toI32_wide (by omega) (by omega), if_neg (by omega),
      toI64_of_bounds (by omega) (by omega)] at h
    have := (Prod.mk.inj h).1
    omega
  · intro h
    rw [toI32_of_bounds (by omega) h, if_pos h0]

theorem movesLow_of_packed (hw : WellFormed s) (hfdl : s.fileDataLen ≤ 2 ^ 32)
    (hf : firstMoved 0 (exts s.heap (others p s)) = none) : MovesLow p s := by
  obtain ⟨hlined, hroomy, -⟩ := hw.layout.others_slide hw.sentinel hfdl p
  exact Or.inl ((firstMoved_eq_none_iff_packed hlined (above_zero _) hroomy).mp hf)

theorem movesLow_iff {h : ℕ} (hw : WellFormed s) (hfdl : s.fileDataLen ≤ 2 ^ 32)
    (hf : firstMoved 0 (exts s.heap (others p s)) = some h) : MovesLow p s ↔ h < 2 ^ 31 := by
  obtain ⟨hlined, hroomy, -⟩ := hw.layout.others_slide hw.sentinel hfdl p
  unfold MovesLow
  rw [← firstMoved_eq_none_iff_packed hlined (above_zero _) hroomy, hf,
    or_iff_right (Option.some_ne_none h), firstMoved_lt_iff hlined (above_zero _) hroomy hf]

/-- Up to 2 GiB a relocation moves a byte that lies there. -/
theorem movesLow_of_le (hw : WellFormed s) (hfdl : s.fileDataLen ≤ 2 ^ 31) : MovesLow p s := by
  cases hf : firstMoved 0 (exts s.heap (others p s)) with
  | none => exact movesLow_of_packed hw (by omega) hf
  | some h =>
    rw [movesLow_iff hw (by omega) hf]
    obtain ⟨hlined, -, hins⟩ := hw.layout.others_slide hw.sentinel (by omega) p
    have hlt := firstMoved_lt hf
    have hle := total_le_of_inside hlined (above_zero _) hins (Nat.zero_le _)
    unfold Filesys.fileDataLen at hfdl
    omega

/-- A growing write hashes the range reported to it unless the first byte that the repack moves
lies behind 2 GiB. -/
theorem reportKept_iff (hw : WellFormed s) (hp : Perfect k s) (hk : k ≤ 24)
    (hg : GrowingWrite p offset count s) : ReportKept p offset count s ↔
      (Relocates p (toU64 (offset + count)) s → MovesLow p s) := by
  have hfdl := hp.fileDataLen_le hk
  obtain ⟨ho, s₁, hr, -, -, hplace⟩ := @resizeFileHelper_total _ s p (toU64 (offset + count)) offset
    hw.mirror hw.layout hfdl hg.live hg.inside
  have hoff := (hplace hg.grows).1
  have hlen := hw.mirror.counted.length_lt p hg.live
  have hin := hg.inside
  obtain ⟨-, hcase⟩ :=
    resizeFileHelper_image hw.mirror hw.layout hfdl hg.live hg.inside hg.grows hr
  have hkept : ReportKept p offset count s ↔
      (0 ≤ ho → rehashRange ho p offset count s₁ = (ho, s₁.used - ho)) := by
    refine ⟨fun h => h ho s₁ hr, fun h ho' s' hr' => ?_⟩
    obtain ⟨rfl, rfl⟩ := Prod.mk.inj (Except.ok.inj (hr.symm.trans hr'))
    exact h
  rw [hkept]
  rcases hcase with ⟨hrel, himg⟩ | ⟨hrel, -, rfl⟩
  · rw [imp_iff_right hrel]
    have hstart := himg.hashOffset
    cases hf : firstMoved 0 (exts s.heap (others p s)) with
    | none =>
      rw [hf] at hstart
      refine iff_of_true (fun h0 => ?_) (movesLow_of_packed hw hfdl hf)
      rw [hstart] at h0
      exact absurd h0 (by decide)
    | some h =>
      rw [hf] at hstart
      change ho = (h : ℤ) at hstart
      have h0 : 0 ≤ ho := by omega
      rw [imp_iff_right h0, rehashRange_eq_iff h0 (himg.hashOffset_lt h0) (by omega) (by omega),
        movesLow_iff hw hfdl hf]
      omega
  · exact iff_of_true (fun h => absurd h (by decide)) fun h => absurd h hrel

end Reports

/-! ## Both -/

/-- The addresses of every block and every range reported to `write_file` survive the widths. -/
structure Survives (k : ℕ) (s : Filesys) : Prop where
  leaves : ∀ b < 2 ^ k, leafAddress (leaf k b) s = .ok (blockAddress b)
  reports : ∀ p offset count, GrowingWrite p offset count s → ReportKept p offset count s

section Survives

variable {k : ℕ} {s : Filesys}

theorem survives_iff (hw : WellFormed s) (hp : Perfect k s) (hk : k ≤ 24) :
    Survives k s ↔ k ≤ 23 := by
  constructor
  · intro h
    have hpos := Nat.two_pow_pos k
    have hlast := (leafAddress_iff hp).mp (h.leaves (2 ^ k - 1) (by omega))
    have hle : 2 ^ k ≤ 2 ^ 23 := by omega
    exact (Nat.pow_le_pow_iff_right (by decide)).mp hle
  · intro h23
    have hpow : 2 ^ k ≤ 2 ^ 23 := Nat.pow_le_pow_right (by decide) h23
    exact ⟨fun b hb => leafAddress_of_lt hp (by omega), fun p offset count hg =>
      (reportKept_iff hw hp hk hg).mpr fun _ => movesLow_of_le hw (hp.fileDataLen_le31 h23)⟩

/-- The widths do no harm up to `2 ^ 31` bytes; beyond, they do at the blocks from `2 ^ 31` on, and
at the relocations that move bytes from `2 ^ 31` on only. -/
theorem offsets_survive (hw : WellFormed s) (hp : Perfect k s) (hk : k ≤ 24) :
    (Survives k s ↔ k ≤ 23) ∧
    (∀ b < 2 ^ k, (leafAddress (leaf k b) s = .ok (blockAddress b) ↔ b < 2 ^ 23)) ∧
    ∀ p offset count, GrowingWrite p offset count s → (ReportKept p offset count s ↔
      (Relocates p (toU64 (offset + count)) s → MovesLow p s)) :=
  ⟨survives_iff hw hp hk, fun _ _ => leafAddress_iff hp, fun _ _ _ hg => reportKept_iff hw hp hk hg⟩

end Survives

set_option maxRecDepth 20000 in
/-- Four blocks, and a write to `a` that moves it behind `c`. -/
theorem offsets_survive_two : ∃ s ho s₁, initFs (zeros 1024) gapsDir (zeros 112) = .ok s ∧
    Survives 2 s ∧ Relocates 0 6 s ∧ resizeFileHelper 0 6 1 s = .ok (ho, s₁) ∧ 0 ≤ ho ∧
    rehashRange ho 0 1 5 s₁ = (ho, s₁.used - ho) := by
  obtain ⟨s, hinit, ⟨h1, h2, h3⟩, hrel, hg, hrun⟩ := Run.holds_iff.mp
    (show Run.Holds (initFs (zeros 1024) gapsDir (zeros 112)) (fun s =>
      (s.file.length = 1024 ∧ s.hash.length = 112 ∧ s.leafOffset = 3) ∧ Relocates 0 6 s ∧
        (0 ∈ s.live ∧ 1 ≤ (s.heap 0).length ∧ (s.heap 0).length < toU64 ((1 : ℕ) + (5 : ℕ))) ∧
        Run.Holds (resizeFileHelper 0 6 1 s) fun r => 0 ≤ r.1) by decide +kernel)
  obtain ⟨⟨ho, s₁⟩, hr, h0⟩ := Run.holds_iff.mp hrun
  have hw := gapsDir_wellFormed (by decide) hinit
  have hsurvives := (offsets_survive (k := 2) hw ⟨h1, h2, h3⟩ (by decide)).1.mpr (by decide)
  exact ⟨s, ho, s₁, hinit, hsurvives, hrel, hr, h0,
    hsurvives.reports 0 1 5 ⟨hg.1, hg.2.1, hg.2.2⟩ ho s₁ hr h0⟩

/-- A directory with `a` on the first `2 ^ 31` bytes, `b` on one byte behind a gap, and an empty
file `c`. -/
def wideDir : List UInt8 :=
  [97] ++ zeros 67 ++ [0, 0, 0, 128] ++ [98] ++ zeros 63 ++ [0, 1, 0, 128, 1, 0, 0, 0] ++
    [99] ++ zeros 71

theorem relocates_of_first {p q : Ptr} {length : ℕ} {s : Filesys}
    (hge : (s.heap p).offset ≥ maxFileDataLen)
    (hq : findNextNonzero s.heap (others p s) = some q) (hlt : (s.heap q).offset < length) :
    Relocates p length s := by
  unfold Relocates
  rw [if_pos hge, hq]
  exact hlt

section Wide

variable {file hash : List UInt8} {s : Filesys}

set_option maxRecDepth 20000 in
theorem wideDir_wellFormed (hfile : file.length = 2 ^ 32)
    (hinit : initFs file wideDir hash = .ok s) : WellFormed s := by
  refine initFs_wellFormed ?_ ?_ ?_ hinit
  · unfold DistinctNames
    decide +kernel
  · rw [hfile]
    unfold ExtentsInside
    decide +kernel
  · decide +kernel

set_option maxRecDepth 20000 in
/-- Growing `c` moves `b` to the end of `a`. -/
theorem wideDir_moves (hne : file ≠ [] ∧ hash ≠ []) :
    Run.Holds (initFs file wideDir hash) fun s =>
      2 ∈ s.live ∧ (s.heap 2).length = 0 ∧ Relocates 2 1 s ∧
        firstMoved 0 (exts s.heap (others 2 s)) = some (2 ^ 31) := by
  obtain ⟨s, hinit, hlive, hlen, hmax, ⟨q, hq, h0⟩, hmoved⟩ := Run.holds_iff.mp
    (show Run.Holds (initFs [0] wideDir [0]) (fun s => 2 ∈ s.live ∧ (s.heap 2).length = 0 ∧
      (s.heap 2).offset = maxFileDataLen ∧
      (∃ q ∈ findNextNonzero s.heap (others 2 s), (s.heap q).offset < 1) ∧
      firstMoved 0 (exts s.heap (others 2 s)) = some (2 ^ 31)) by decide +kernel)
  exact Run.holds_iff.mpr ⟨_, initFs_over hne hinit, hlive, hlen,
    relocates_of_first hmax.ge (Option.mem_def.mp hq) h0, hmoved⟩

end Wide

/-- Over `2 ^ 32` null bytes the address of block `2 ^ 23` overflows in `hash_node`, and a write of
one byte to `c` loses the report. -/
theorem offsets_survive_fails : ∃ s,
    initFs (zeros (blockLen * 2 ^ 24)) wideDir (zeros (hashLen * (2 ^ 25 - 1))) = .ok s ∧
      WellFormed s ∧ Perfect 24 s ∧ ¬ Survives 24 s ∧
      leafAddress (leaf 24 (2 ^ 23)) s = .error .signedOverflow ∧
      ∃ p, GrowingWrite p 0 1 s ∧ ¬ ReportKept p 0 1 s := by
  obtain ⟨file, hfile⟩ : ∃ file, file = zeros (blockLen * 2 ^ 24) := ⟨_, rfl⟩
  obtain ⟨hash, hhash⟩ : ∃ hash, hash = zeros (hashLen * (2 ^ 25 - 1)) := ⟨_, rfl⟩
  have hlen : file.length = blockLen * 2 ^ 24 := by rw [hfile, length_zeros]
  have hhlen : hash.length = hashLen * (2 ^ (24 + 1) - 1) := by rw [hhash, length_zeros]
  have hne : file ≠ [] ∧ hash ≠ [] := by
    constructor
    · exact List.ne_nil_of_length_pos (by rw [hlen]; norm_num [blockLen])
    · exact List.ne_nil_of_length_pos (by rw [hhlen]; norm_num [hashLen])
  rw [← hfile, ← hhash]
  obtain ⟨s, hinit, hlive, hzero, hrel, hmoved⟩ := Run.holds_iff.mp (wideDir_moves hne)
  have hw := wideDir_wellFormed hlen hinit
  have hp : Perfect 24 s := initFs_perfect (by decide) hlen hhlen hinit
  have hwide := leafAddress_wide hp (le_refl (2 ^ 23))
  have hg : GrowingWrite 2 0 1 s := ⟨hlive, by omega, by rw [hzero]; decide⟩
  refine ⟨s, hinit, hw, hp, fun hs => ?_, hwide, 2, hg, fun hkept => ?_⟩
  · rw [hs.leaves (2 ^ 23) (by norm_num)] at hwide
    cases hwide
  · have hlow : MovesLow 2 s := (reportKept_iff hw hp (le_refl 24) hg).mp hkept hrel
    rw [movesLow_iff hw (hp.fileDataLen_le (le_refl 24)) hmoved] at hlow
    exact absurd hlow (lt_irrefl _)

end Vfs
