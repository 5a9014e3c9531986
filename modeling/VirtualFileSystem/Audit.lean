import VirtualFileSystem.Incremental
import VirtualFileSystem.Session

/-!
# What verification decides

Verifying a byte of each block decides whether the whole tree is right.  Whoever trusts the root
alone can trust what is read: images that were exchanged behind it are noticed, or show two inputs
of the hash function with one value.
-/

namespace Vfs

open FlatImage HashTree

section Audit

variable {k b : ℕ} {s s' : Filesys} {ranges : List (ℕ × ℕ)}

/-- The tree is right if every block verifies. -/
theorem coherent_iff_verified : Coherent k s ↔ ∀ b < 2 ^ k, Verified k b s := by
  constructor
  · exact fun hc b hb => hc.verified hb
  · intro hv
    refine ⟨fun n hn => ?_, fun b hb => (hv b hb).1⟩
    -- every inner node is over the leaf of a block
    obtain ⟨m, h1, h2, hover⟩ := exists_over_leaf hn
    have hb : m - (2 ^ k - 1) < 2 ^ k := by omega
    refine (hv _ hb).2 n ?_
    unfold leaf
    rwa [show 2 ^ k - 1 + (m - (2 ^ k - 1)) = m by omega]

/-- **The audit.**  Ranges that touch every block verify together just if the whole tree is right,
and just if hashing it anew, or any of its blocks, changes nothing. -/
theorem audit (hp : Perfect k s) (hk : k ≤ 23)
    (hin : ∀ r ∈ ranges, r.1 + r.2 ≤ s.file.length)
    (hcover : ∀ b < 2 ^ k, ∃ r ∈ ranges, b ∈ touched r.1 r.2) :
    [Coherent k s, ∀ r ∈ ranges, verifyHashRange (r.1 : ℕ) (r.2 : ℕ) s = .ok 0,
      computeHashTree s = .ok s, ∀ b < 2 ^ k, computeHashBlock b s = .ok s].TFAE := by
  have hfdl : s.file.length ≤ 2 ^ 31 := hp.fileDataLen_le31 hk
  have hspec : ∀ r ∈ ranges, verifyHashRange (r.1 : ℕ) (r.2 : ℕ) s = .ok 0 ↔
      ∀ b ∈ touched r.1 r.2, Verified k b s := by
    intro r hr
    have hle := hin r hr
    obtain ⟨code, hcode, -, hiff⟩ := verifyHashRange_spec hp (by omega) hle fun _ => by omega
    rw [hcode, ← hiff]
    exact ⟨fun h => Except.ok.inj h, fun h => by rw [h]⟩
  tfae_have 1 → 2 := fun hc r hr =>
    (hspec r hr).mpr fun b hb => hc.verified (touched_lt hp (hin r hr) b hb)
  tfae_have 2 → 1 := by
    refine fun h => coherent_iff_verified.mpr fun b hb => ?_
    obtain ⟨r, hr, hmem⟩ := hcover b hb
    exact (hspec r hr).mp (h r hr) b hmem
  tfae_have 1 → 3 := fun hc => hc.computeHashTree hp hk
  tfae_have 3 → 1 := by
    intro h
    obtain ⟨t, ht, -, hc⟩ := computeHashTree_right hp hk
    obtain rfl := Except.ok.inj (h.symm.trans ht)
    exact hc
  tfae_have 1 → 4 := fun hc b hb => hc.computeHashBlock hp hk hb
  tfae_have 4 → 1 := by
    refine fun h => coherent_iff_verified.mpr fun b hb => ?_
    obtain ⟨t, ht, hh⟩ := computeHashBlocks_hashed hk [b] s hp fun x hx => by
      rwa [List.mem_singleton.mp hx]
    obtain ⟨t', ht', hnil⟩ := Run.bind_eq_ok.mp ht
    obtain rfl : t' = t := Except.ok.inj hnil
    obtain rfl := Except.ok.inj ((h b hb).symm.trans ht')
    exact hh.verified (List.mem_singleton_self b)
  tfae_finish

end Audit

set_option maxRecDepth 20000 in
/-- A tree hashed anew passes an audit of a few bytes of each block. -/
theorem audit_two : ∃ t, computeHashTree twoBlocks = .ok t ∧
    (∀ r ∈ [(255, 1), (300, 7)], verifyHashRange ((r.1 : ℕ) : ℤ) ((r.2 : ℕ) : ℤ) t = .ok 0) ∧
    computeHashTree t = .ok t := by
  have hp : Perfect 1 twoBlocks := ⟨by decide, by decide, by decide⟩
  obtain ⟨t, hr, hf, hc⟩ := computeHashTree_right hp (by decide)
  have hp' : Perfect 1 t := hp.congr hf.kept.shape
  have haudit := @audit 1 t [(255, 1), (300, 7)] hp' (by decide) (by rw [hp'.file]; decide)
    fun b hb => by
      obtain rfl | rfl : b = 0 ∨ b = 1 := by omega
      · exact ⟨(255, 1), by decide, by decide, by decide, by decide⟩
      · exact ⟨(300, 7), by decide, by decide, by decide, by decide⟩
  exact ⟨t, hr, (haudit.out 0 1).mp hc, (haudit.out 0 2).mp hc⟩

/-! ## A trusted root -/

/-- Different data have one hash: the contents of the block, or what is stored under a node of its
path. -/
inductive Forged (k b : ℕ) (s s' : Filesys) : Prop
  | block (hne : block s' b ≠ block s b) (h : fletcher (block s' b) = fletcher (block s b))
  | node {m : ℕ} (hm : Over m (leaf k b)) (h : Collides hashPair (node s) (node s') m)

section Root

variable {k b o l offset count : ℕ} {s s' : Filesys} {file dir hash file' hash' : List UInt8}
  {name : CString}

/-- A block that verifies under one root is the same, or forged. -/
theorem Verified.bound (hv : Verified k b s) (hv' : Verified k b s')
    (hroot : node s 0 = node s' 0) : block s' b = block s b ∨ Forged k b s s' := by
  rcases eq_or_collides hroot (leaf k b) hv.2 hv'.2 with hleaf | ⟨m, hm, hc⟩
  · have hhash : fletcher (block s' b) = fletcher (block s b) := by
      rw [← show node s' (leaf k b) = _ from hv'.1, ← hleaf]
      exact hv.1
    by_cases hne : block s' b = block s b
    · exact Or.inl hne
    · exact Or.inr (.block hne hhash)
  · exact Or.inr (.node hm hc)

/-- Bytes are the same where the blocks are. -/
theorem slice_eq_of_blocks (h : ∀ b ∈ touched o l, block s' b = block s b) :
    slice s'.file o l = slice s.file o l := by
  refine slice_eq_slice_iff.mpr fun i hi => ?_
  have hmem : (o + i) / blockLen ∈ touched o l := by
    unfold touched Touches blockLen
    simp only [Set.mem_ofPred_eq]
    omega
  have hcell := congrArg (fun bs => bs[(o + i) % blockLen]?) (h _ hmem)
  dsimp only [block, cell] at hcell
  have hlt : (o + i) % blockLen < blockLen := Nat.mod_lt _ (by decide)
  rwa [getElem?_slice, getElem?_slice, if_pos hlt, if_pos hlt, Nat.div_add_mod] at hcell

/-- **The root binds the images.**  Two right trees of one size with one root are over the same
contents and the same in every node, or show a forgery. -/
theorem root_binds (hp : Perfect k s) (hp' : Perfect k s') (hc : Coherent k s)
    (hc' : Coherent k s') (hroot : node s 0 = node s' 0) :
    s'.file = s.file ∧ s'.hash = s.hash ∨ ∃ b < 2 ^ k, Forged k b s s' := by
  by_cases hall : ∀ b < 2 ^ k, block s' b = block s b
  · have hfile : s'.file = s.file := by
      refine eq_of_cell_eq (w := blockLen) (by decide) fun b => ?_
      rcases Nat.lt_or_ge b (2 ^ k) with hb | hb
      · exact hall b hb
      · -- both images end before the block
        have hle : blockLen * 2 ^ k ≤ blockLen * b := Nat.mul_le_mul_left _ hb
        refine cell_congr fun x hx _ => ?_
        rw [List.getElem?_eq_none (by rw [hp'.file]; omega),
          List.getElem?_eq_none (by rw [hp.file]; omega)]
    exact Or.inl ⟨hfile, hc.unique hc' hp hp' hfile⟩
  · push Not at hall
    obtain ⟨b, hb, hne⟩ := hall
    exact Or.inr ⟨b, hb, ((hc.verified hb).bound (hc'.verified hb) hroot).resolve_left hne⟩

/-- `twoBlocks` with bytes 255 in the second block. -/
def onesBlock : Filesys := { twoBlocks with file := zeros 256 ++ List.replicate 256 255 }

set_option maxRecDepth 20000 in
/-- A block of bytes 255 has the hash of a block of null bytes. -/
theorem root_binds_ones : ∃ s s', computeHashTree twoBlocks = .ok s ∧
    computeHashTree onesBlock = .ok s' ∧ ∃ b < 2 ^ 1, Forged 1 b s s' := by
  have hp : Perfect 1 twoBlocks := ⟨by decide, by decide, by decide⟩
  have hp' : Perfect 1 onesBlock := ⟨by decide, by decide, by decide⟩
  obtain ⟨s, hr, hf, hc⟩ := computeHashTree_right hp (by decide)
  obtain ⟨s', hr', hf', hc'⟩ := computeHashTree_right hp' (by decide)
  obtain ⟨t, ht, t', ht', hroot, hne⟩ : ∃ t, computeHashTree twoBlocks = .ok t ∧
      ∃ t', computeHashTree onesBlock = .ok t' ∧ node t 0 = node t' 0 ∧ t'.file ≠ t.file := by
    obtain ⟨t, ht, h⟩ := Run.holds_iff.mp (show Run.Holds (computeHashTree twoBlocks) (fun t =>
      Run.Holds (computeHashTree onesBlock) fun t' => node t 0 = node t' 0 ∧ t'.file ≠ t.file)
      by decide +kernel)
    exact ⟨t, ht, Run.holds_iff.mp h⟩
  obtain rfl := Except.ok.inj (hr.symm.trans ht)
  obtain rfl := Except.ok.inj (hr'.symm.trans ht')
  exact ⟨s, s', hr, hr', (root_binds (hp.congr hf.kept.shape) (hp'.congr hf'.kept.shape) hc hc'
    hroot).resolve_left fun h => hne h.1⟩

/-- A read inside the file returns its bytes just if the blocks it touches verify. -/
theorem readFile_verifies {p : Ptr} (hp : Perfect k s) (hk : k ≤ 23)
    (hl : lookup name s = .ok (some p)) (hin : offset + count ≤ (s.heap p).length)
    (hlen : (s.heap p).length < 2 ^ 32)
    (hroom : count ≠ 0 → (s.heap p).offset + offset + count ≤ s.file.length) :
    readFile name offset count s = .ok (0, slice s.file ((s.heap p).offset + offset) count) ∧
        (∀ b ∈ touched ((s.heap p).offset + offset) count, Verified k b s) ∨
      readFile name offset count s = .ok (3, []) ∧
        ¬ ∀ b ∈ touched ((s.heap p).offset + offset) count, Verified k b s := by
  have hfdl : s.file.length ≤ 2 ^ 31 := hp.fileDataLen_le31 hk
  rcases Nat.eq_zero_or_pos count with rfl | hpos
  · -- nothing is verified for an empty range, wherever the file lies
    left
    refine ⟨?_, fun b hb => absurd hb.1 (lt_irrefl 0)⟩
    have hv : ∀ o, verifyHashRange o (toI64 ((0 : ℕ) : ℤ)) s = .ok 0 := fun o => by
      unfold verifyHashRange
      rw [if_pos (by decide)]
      rfl
    unfold readFile
    rw [hl, Run.ok_bind]
    dsimp only
    rw [toU64_add, Nat.mod_eq_of_lt (by omega), if_neg hin.not_gt, hv, Run.ok_bind,
      if_neg (by decide), if_pos rfl, slice_zero]
    rfl
  have hroom := hroom hpos.ne'
  by_cases hv : ∀ b ∈ touched ((s.heap p).offset + offset) count, Verified k b s
  · exact Or.inl ⟨readFile_of_verified hp (by omega) hl hin hroom (by omega) hv, hv⟩
  · refine Or.inr ⟨?_, hv⟩
    obtain ⟨r, hr, -, hiff⟩ := verifyHashRange_spec hp (by omega) hroom fun _ => by omega
    have hrange : toI64 (((s.heap p).offset : ℤ) + offset) =
        (((s.heap p).offset + offset : ℕ) : ℤ) := by
      exact_mod_cast toI64_of_lt (n := (s.heap p).offset + offset) (by omega)
    unfold readFile
    rw [hl, Run.ok_bind]
    dsimp only
    rw [toU64_add, Nat.mod_eq_of_lt (by omega), if_neg hin.not_gt, hrange,
      toI64_of_lt (by omega), hr, Run.ok_bind, if_pos (mt hiff.mp hv)]
    rfl

/-- A read inside a file of a well-formed state is inside the image. -/
theorem WellFormed.read_room {p : Ptr} (hw : WellFormed s) (hp : p ∈ s.live)
    (hin : offset + count ≤ (s.heap p).length) (h0 : count ≠ 0) :
    (s.heap p).offset + offset + count ≤ s.file.length := by
  rcases hw.layout.range p hp with ⟨-, h⟩ | h
  · omega
  · have : s.fileDataLen = s.file.length := rfl
    omega

/-- A read on other images with one root. -/
theorem readFile_bound (hw : WellFormed s) (hp : Perfect k s) (hk : k ≤ 23) (hc : Coherent k s)
    {treeLen leafOffset : ℤ} (hs' : s' = s.over file' hash' treeLen leafOffset)
    (hp' : Perfect k s') (hroot : node s 0 = node s' 0) (ho : offset < 2 ^ 63)
    (hcount : count < 2 ^ 63) :
    readFile name offset count s' = .ok (3, []) ∨
      readFile name offset count s' = readFile name offset count s ∨
      ∃ p b, lookup name s = .ok (some p) ∧ b ∈ touched ((s.heap p).offset + offset) count ∧
        Forged k b s s' := by
  have hlen : s'.file.length = s.file.length := hp'.file.trans hp.file.symm
  have hheap : s'.heap = s.heap := by rw [hs']; rfl
  have hl' : lookup name s' = lookup name s := by
    have hfdl : s'.fileDataLen = s.fileDataLen := hlen
    unfold lookup
    rw [hfdl, hs']
    rfl
  obtain ⟨q, hl⟩ := lookup_total name s
  rw [hl] at hl'
  cases q with
  | none =>
    refine Or.inr (Or.inl ?_)
    unfold readFile
    rw [hl, hl', Run.ok_bind, Run.ok_bind]
  | some p =>
    have hlive := (hw.mirror.liveOk.lookup hl).1
    have hfile := hw.mirror.counted.length_lt p hlive
    by_cases hgt : (s.heap p).length < offset + count
    · refine Or.inr (Or.inl ?_)
      unfold readFile
      rw [hl, hl', Run.ok_bind, Run.ok_bind]
      dsimp only
      rw [toU64_add, Nat.mod_eq_of_lt (by omega), hheap, if_pos hgt, if_pos hgt]
    have hin : offset + count ≤ (s.heap p).length := Nat.le_of_not_gt hgt
    have hroom := hw.read_room hlive hin
    have h := readFile_verifies hp hk hl hin hfile hroom
    have h' := readFile_verifies hp' hk hl' (by rw [hheap]; exact hin) (by rw [hheap]; exact hfile)
      (by rw [hheap, hlen]; exact hroom)
    rw [hheap] at h'
    rcases h' with ⟨hr', hv'⟩ | ⟨hr', -⟩
    · rcases h with ⟨hr, hv⟩ | ⟨-, hnot⟩
      · rw [hr, hr']
        by_cases hall : ∀ b ∈ touched ((s.heap p).offset + offset) count, block s' b = block s b
        · exact Or.inr (Or.inl (by rw [slice_eq_of_blocks hall]))
        · push Not at hall
          obtain ⟨b, hb, hne⟩ := hall
          exact Or.inr (Or.inr ⟨p, b, hl, hb,
            ((hv b hb).bound (hv' b hb) hroot).resolve_left hne⟩)
      · exact absurd (fun b hb => hc.verified (touched_lt hp
          (hroom fun h0 => lt_irrefl 0 (h0 ▸ hb.1)) b hb)) hnot
    · exact Or.inl hr'

/-- **A trusted root.**  Whatever became of the other hashes and of the contents, a read on images
with the directory and the root of right ones returns what it did before, or 3, or shows two inputs
of the hash function with one value among the contents and the stored hashes of its blocks. -/
theorem mounted_authentic (h : ValidImages k file dir hash) (hr : initFs file dir hash = .ok s)
    (hc : Coherent k s) (hr' : initFs file' dir hash' = .ok s')
    (hfile : file'.length = file.length) (hhash : hash'.length = hash.length)
    (hroot : hash'.take hashLen = hash.take hashLen) (ho : offset < 2 ^ 63)
    (hcount : count < 2 ^ 63) :
    readFile name offset count s' = .ok (3, []) ∨
      readFile name offset count s' = readFile name offset count s ∨
      ∃ p b, lookup name s = .ok (some p) ∧ b ∈ touched ((s.heap p).offset + offset) count ∧
        Forged k b s s' := by
  have hk := h.depth
  obtain ⟨s₀, m, hr₀, hw, -, hp, -⟩ := h.mount
  obtain rfl := Except.ok.inj (hr.symm.trans hr₀)
  have hp' : Perfect k s' :=
    initFs_perfect (by omega) (hfile.trans h.fileLen) (hhash.trans h.hashLen) hr'
  obtain ⟨⟨hfile0, -, hhash0⟩, -⟩ := initFs_post hr'
  have hover := Except.ok.inj (hr'.symm.trans (initFs_over ⟨hfile0, hhash0⟩ hr))
  obtain ⟨-, -, -, hs, -⟩ := initFs_scanned hr
  obtain ⟨-, -, -, hs', -⟩ := initFs_scanned hr'
  refine readFile_bound hw hp hk hc hover hp' ?_ ho hcount
  show slice s.hash 0 hashLen = slice s'.hash 0 hashLen
  rw [hs, hs']
  exact hroot.symm

/-- The contents of the block have the hash they had. -/
def Intact (s s' : Filesys) (b : ℕ) : Prop := fletcher (block s' b) = fletcher (block s b)

/-- Over other contents a block verifies just if it is intact. -/
theorem verified_iff_intact (hc : Coherent k s) (hhash : s'.hash = s.hash) (hb : b < 2 ^ k) :
    Verified k b s' ↔ Intact s s' b := by
  have hnode : node s' = node s := by
    unfold node
    rw [hhash]
  obtain ⟨hleaf, hpath⟩ := hc.verified hb
  unfold LeafOk at hleaf
  unfold Verified LeafOk Intact
  rw [hnode, hleaf]
  exact ⟨fun h => h.1.symm, fun h => ⟨h.symm, hpath⟩⟩

/-- **Damage and repair.**  Whatever was written to `file_data` from outside, a read is refused
exactly if it touches a block whose hash changed, and returns what is there now otherwise.  Hashing
some blocks anew, in any order, makes the tree right exactly if no other block was changed so. -/
theorem damage_repaired (hw : WellFormed s) (hp : Perfect k s) (hk : k ≤ 23) (hc : Coherent k s)
    (hlen : file.length = s.file.length) (hs' : s' = { s with file := file }) :
    (∀ (name : CString) (p : Ptr) (offset count : ℕ), lookup name s = .ok (some p) →
      offset + count ≤ (s.heap p).length →
      readFile name offset count s' = .ok (0, slice file ((s.heap p).offset + offset) count) ∧
          (∀ b ∈ touched ((s.heap p).offset + offset) count, Intact s s' b) ∨
        readFile name offset count s' = .ok (3, []) ∧
          ∃ b ∈ touched ((s.heap p).offset + offset) count, ¬ Intact s s' b) ∧
    ∀ bs : List ℕ, (∀ b ∈ bs, b < 2 ^ k) → ∃ t, computeHashBlocks bs s' = .ok t ∧
      t.file = file ∧ (Coherent k t ↔ ∀ b < 2 ^ k, b ∉ bs → Intact s s' b) := by
  have hp' : Perfect k s' := by
    rw [hs']
    exact ⟨hlen.trans hp.file, hp.hash, hp.leafOffset⟩
  have hhash : s'.hash = s.hash := by rw [hs']
  refine ⟨fun name p offset count hl hin => ?_, fun bs hbs => ?_⟩
  · have hlive := (hw.mirror.liveOk.lookup hl).1
    have hroom := hw.read_room hlive hin
    have hl' : lookup name s' = .ok (some p) := by
      have hfdl : s'.fileDataLen = s.fileDataLen := by rw [hs']; exact hlen
      rw [← hl]
      unfold lookup
      rw [hfdl, hs']
    have hheap : s'.heap = s.heap := by rw [hs']
    have hfile : s'.file = file := by rw [hs']
    have h' := readFile_verifies hp' hk hl' (by rw [hheap]; exact hin)
      (by rw [hheap]; exact hw.mirror.counted.length_lt p hlive)
      (by rw [hheap, hfile, hlen]; exact hroom)
    rw [hheap, hfile] at h'
    have hiff : ∀ b ∈ touched ((s.heap p).offset + offset) count,
        (Verified k b s' ↔ Intact s s' b) := fun b hb =>
      verified_iff_intact hc hhash (touched_lt hp (hroom fun h0 => lt_irrefl 0 (h0 ▸ hb.1)) b hb)
    rcases h' with ⟨hr, hv⟩ | ⟨hr, hnot⟩
    · exact Or.inl ⟨hr, fun b hb => (hiff b hb).mp (hv b hb)⟩
    · push Not at hnot
      obtain ⟨b, hb, hnv⟩ := hnot
      exact Or.inr ⟨hr, b, hb, fun h => hnv ((hiff b hb).mpr h)⟩
  · obtain ⟨t, hr, hh⟩ := computeHashBlocks_hashed hk bs s' hp' hbs
    refine ⟨t, hr, ?_, hh.coherent_iff hbs hc hhash⟩
    rw [hh.frame.eq, hs']

end Root

set_option maxRecDepth 20000 in
/-- The byte of the file `a` is changed. -/
theorem mounted_authentic_changed : ∃ s s', initFs (zeros 256) soloDir (zeros 16) = .ok s ∧
    initFs (zeros 5 ++ 1 :: zeros 250) soloDir (zeros 16) = .ok s' ∧
    (readFile (.ofByte 97 (by decide)) 0 1 s' = .ok (3, []) ∨
      readFile (.ofByte 97 (by decide)) 0 1 s' = readFile (.ofByte 97 (by decide)) 0 1 s ∨
      ∃ p b, lookup (.ofByte 97 (by decide)) s = .ok (some p) ∧
        b ∈ touched ((s.heap p).offset + 0) 1 ∧ Forged 0 b s s') := by
  obtain ⟨s, m, hr, -⟩ := soloDir_valid.mount
  obtain ⟨-, hfile, -, hhash, -⟩ := initFs_scanned hr
  have hover := @initFs_over (zeros 5 ++ 1 :: zeros 250) soloDir (zeros 16) (zeros 256) (zeros 16) s
    ⟨by decide, by decide⟩ hr
  exact ⟨s, _, hr, hover, mounted_authentic soloDir_valid hr (coherent_of_zeros hfile hhash) hover
    (by decide) rfl rfl (by decide) (by decide)⟩

set_option maxRecDepth 20000 in
/-- With its byte changed the file `a` is not read until the block is hashed anew. -/
theorem damage_repaired_changed : ∃ s t, initFs (zeros 256) soloDir (zeros 16) = .ok s ∧
    readFile (.ofByte 97 (by decide)) 0 1 { s with file := zeros 5 ++ 1 :: zeros 250 } =
      .ok (3, []) ∧
    computeHashBlocks [0] { s with file := zeros 5 ++ 1 :: zeros 250 } = .ok t ∧
    Coherent 0 t := by
  obtain ⟨s, hr, hs⟩ := solo_mounted
  obtain ⟨s₁, hr₁, hl₁⟩ := Run.holds_iff.mp
    (show Run.Holds (initFs (zeros 256) soloDir (zeros 16)) (fun s =>
      Run.Holds (lookup (.ofByte 97 (by decide)) s) fun r => ∃ p ∈ s.live, r = some p ∧
        (s.heap p).offset = 5 ∧ (s.heap p).length = 1) by decide +kernel)
  obtain rfl := Except.ok.inj (hr.symm.trans hr₁)
  obtain ⟨r, hl, p, -, rfl, hoff, hlen⟩ := Run.holds_iff.mp hl₁
  obtain ⟨-, hfile, -, -, -⟩ := initFs_scanned hr
  obtain ⟨hreads, hrepairs⟩ := damage_repaired hs.healthy.wellFormed hs.healthy.sound.perfect
    (by decide) hs.healthy.sound.coherent
    (show (zeros 5 ++ 1 :: zeros 250).length = s.file.length by rw [hfile]; rfl) rfl
  obtain ⟨t, ht, -, hiff⟩ := hrepairs [0] (by decide)
  have hright : Coherent 0 t := hiff.mpr fun b hb hne => by
    obtain rfl : b = 0 := by omega
    exact absurd List.mem_cons_self hne
  refine ⟨s, t, hr, ?_, ht, hright⟩
  rcases hreads _ p 0 1 hl (by omega) with ⟨-, hintact⟩ | ⟨hrefused, -⟩
  · have h0 := hintact 0 (by rw [hoff]; exact ⟨by decide, by decide, by decide⟩)
    unfold Intact block at h0
    rw [hfile] at h0
    exact absurd h0 (show fletcher (cell blockLen (zeros 5 ++ 1 :: zeros 250) 0) ≠
      fletcher (cell blockLen (zeros 256) 0) by decide +kernel)
  · exact hrefused

end Vfs
