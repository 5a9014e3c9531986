import VirtualFileSystem.FullHash
import VirtualFileSystem.Fletcher

/-!
# Tampering

The accumulators of `fletcher` are chained sums modulo `2 ^ 32 - 1`, so a block is determined, up to
switches of a word between 0 and `2 ^ 32 - 1`, by its hash and all but four consecutive words.  A
corruption of that size changes a hash that is compared on the way to the root.
-/

namespace Vfs

open FlatImage HashTree

/-! ## Equal hashes -/

section Fletcher

variable {buf buf' : List UInt8} {x y i n : ℕ}

theorem le32_injective (hx : x < 2 ^ 32) (hy : y < 2 ^ 32) (h : le32 x = le32 y) : x = y := by
  rw [← leVal_le32 hx, ← leVal_le32 hy, h]

/-- Equal hashes of whole words come from equal accumulators. -/
theorem fletcher_residue (hlen : buf.length = 4 * n) (hlen' : buf'.length = 4 * n)
    (h : fletcher buf = fletcher buf') :
    residue (fletcherLoop buf 0 n ⟨0, 0, 0, 0⟩) = residue (fletcherLoop buf' 0 n ⟨0, 0, 0, 0⟩) := by
  have hzero : Reduced ⟨0, 0, 0, 0⟩ := ⟨by decide, by decide, by decide, by decide⟩
  obtain ⟨-, hr⟩ := fletcherLoop_run buf n 0 _ hzero
  obtain ⟨-, hr'⟩ := fletcherLoop_run buf' n 0 _ hzero
  have hfl : ∀ b : List UInt8, b.length = 4 * n → fletcher b =
      le32 (fletcherLoop b 0 n ⟨0, 0, 0, 0⟩).a ++ le32 (fletcherLoop b 0 n ⟨0, 0, 0, 0⟩).b ++
        le32 (fletcherLoop b 0 n ⟨0, 0, 0, 0⟩).c ++ le32 (fletcherLoop b 0 n ⟨0, 0, 0, 0⟩).d := by
    intro b hb
    unfold fletcher
    dsimp only
    rw [hb, Nat.mul_div_cancel_left n (by decide), Nat.mul_mod_right, if_neg (by decide)]
  have hM : maxFileDataLenMinusOne ≤ 2 ^ 32 := by decide
  rw [hfl buf hlen, hfl buf' hlen'] at h
  obtain ⟨h, hd⟩ := List.append_inj h rfl
  obtain ⟨h, hc⟩ := List.append_inj h rfl
  obtain ⟨ha, hb⟩ := List.append_inj h rfl
  unfold residue
  rw [le32_injective (hr.a.trans_le hM) (hr'.a.trans_le hM) ha,
    le32_injective (hr.b.trans_le hM) (hr'.b.trans_le hM) hb,
    le32_injective (hr.c.trans_le hM) (hr'.c.trans_le hM) hc,
    le32_injective (hr.d.trans_le hM) (hr'.d.trans_le hM) hd]

/-- The word is kept, or switches between 0 and `2 ^ 32 - 1`. -/
def Switch (x y : ℕ) : Prop :=
  x = y ∨ x = 0 ∧ y = maxFileDataLenMinusOne ∨ x = maxFileDataLenMinusOne ∧ y = 0

instance (x y : ℕ) : Decidable (Switch x y) := by unfold Switch; infer_instance

theorem switch_of_residue (hx : x < 2 ^ 32) (hy : y < 2 ^ 32)
    (h : (x : ZMod maxFileDataLenMinusOne) = y) : Switch x y := by
  have hmod := (ZMod.natCast_eq_natCast_iff' x y _).mp h
  unfold Switch
  unfold maxFileDataLenMinusOne at hmod ⊢
  omega

/-- Buffers that differ in four consecutive words at most have different hashes, unless each word
switches at most. -/
theorem fletcher_window (hlen : buf.length = 4 * n) (hlen' : buf'.length = 4 * n) (hi : i + 4 ≤ n)
    (hsame : ∀ j, j < i ∨ i + 4 ≤ j → word buf' j = word buf j)
    (h : fletcher buf = fletcher buf') (j : ℕ) : Switch (word buf j) (word buf' j) := by
  rcases Nat.lt_or_ge j i with hj | hj
  · exact Or.inl (hsame j (Or.inl hj)).symm
  rcases Nat.lt_or_ge j (i + 4) with hj' | hj'
  swap
  · exact Or.inl (hsame j (Or.inr hj')).symm
  have hzero : Reduced ⟨0, 0, 0, 0⟩ := ⟨by decide, by decide, by decide, by decide⟩
  have hres := fletcher_residue hlen hlen' h
  rw [(fletcherLoop_run buf n 0 _ hzero).1, (fletcherLoop_run buf' n 0 _ hzero).1] at hres
  -- front, window and back of the words
  have hsplit : ∀ b : List UInt8,
      words b 0 n = words b 0 i ++ words b i 4 ++ words b (i + 4) (n - (i + 4)) := by
    intro b
    unfold words
    rw [← List.map_append, ← List.map_append]
    congr 1
    have h1 := @List.range'_append_1 0 i 4
    have h2 := @List.range'_append_1 0 (i + 4) (n - (i + 4))
    rw [Nat.zero_add] at h1 h2
    rw [h1, h2]
    congr 1
    omega
  have hfront : words buf' 0 i = words buf 0 i := by
    apply List.map_congr_left
    intro j hj
    rw [hsame j (Or.inl (by simpa using (List.mem_range'_1.mp hj).2))]
  have hback : words buf' (i + 4) (n - (i + 4)) = words buf (i + 4) (n - (i + 4)) := by
    apply List.map_congr_left
    intro j hj
    rw [hsame j (Or.inr (List.mem_range'_1.mp hj).1)]
  rw [hsplit buf, hsplit buf', hfront, hback] at hres
  have hwin : words buf i 4 = words buf' i 4 :=
    ChainedSum.run_window (by simp [words]) (by simp [words]) hres
  have hword := List.map_inj_left.mp hwin j (List.mem_range'_1.mpr ⟨hj, hj'⟩)
  exact switch_of_residue (word_lt buf j) (word_lt buf' j) hword

/-- The word of a range of whole words. -/
theorem word_slice {l : List UInt8} {a j : ℕ} (hj : j < n) :
    word (slice l (4 * a) (4 * n)) j = word l (a + j) := by
  unfold word cell
  rw [slice_slice _ (show 4 * j + 4 ≤ 4 * n by omega), Nat.mul_add]

/-- A list that differs in four consecutive words of a hashed range at most, and has the hash of
that range, differs in switches only. -/
theorem switches_of_range {l l' : List UInt8} {a : ℕ} (hin : 4 * (a + n) ≤ l.length)
    (hlen : l'.length = l.length) (hi : i + 4 ≤ n)
    (hsame : ∀ z, z < 4 * (a + i) ∨ 4 * (a + i) + 16 ≤ z → l'[z]? = l[z]?)
    (h : fletcher (slice l (4 * a) (4 * n)) = fletcher (slice l' (4 * a) (4 * n))) (j : ℕ) :
    Switch (word l j) (word l' j) := by
  by_cases hj : a ≤ j ∧ j < a + n
  · obtain ⟨j, rfl⟩ := Nat.exists_eq_add_of_le hj.1
    have hjn : j < n := by omega
    rw [← word_slice hjn, ← word_slice hjn]
    refine fletcher_window (length_slice_of_le (by omega)) (length_slice_of_le (by omega)) hi ?_ h j
    intro j hj
    unfold word
    refine congrArg leVal (cell_congr fun z h1 h2 => ?_)
    rw [getElem?_slice, getElem?_slice]
    split_ifs with hz
    · exact hsame _ (by omega)
    · rfl
  · left
    unfold word
    exact congrArg leVal (cell_congr fun z h1 h2 => (hsame z (by omega)).symm)

end Fletcher

/-! ## Corruptions -/

/-- Every 32-bit word is kept or switches between 0 and `2 ^ 32 - 1`. -/
def OnlySwitches (s s' : Filesys) : Prop :=
  ∀ j, Switch (word s.file j) (word s'.file j) ∧ Switch (word s.hash j) (word s'.hash j)

/-- The nodes compared for a block. -/
def OnPath (k b m : ℕ) : Prop := m = leaf k b ∨ Over m (leaf k b)

/-- The two children of one node. -/
def Sibling (m n : ℕ) : Prop := ∃ q, m = 2 * q + 1 ∧ n = 2 * q + 2 ∨ m = 2 * q + 2 ∧ n = 2 * q + 1

/-- A corruption confined to at most four consecutive words of a block the range touches, or to one
stored hash on the path of such a block or beside it. -/
inductive Tampered (k o l : ℕ) (s : Filesys) : Filesys → Prop
  | block {b i m : ℕ} {file : List UInt8} (hb : b ∈ touched o l) (hm : m ≤ 4) (hi : i + m ≤ 64)
      (hlen : file.length = s.file.length)
      (hsame : ∀ z, z < blockLen * b + 4 * i ∨ blockLen * b + 4 * (i + m) ≤ z →
        file[z]? = s.file[z]?) : Tampered k o l s { s with file := file }
  | node {b m n : ℕ} {hash : List UInt8} (hb : b ∈ touched o l) (hpath : OnPath k b m)
      (hn : n = m ∨ Sibling m n) (hlen : hash.length = s.hash.length)
      (hsame : ∀ z, z < hashLen * n ∨ hashLen * n + hashLen ≤ z → hash[z]? = s.hash[z]?) :
      Tampered k o l s { s with hash := hash }

section Tamper

variable {k o l b n m i : ℕ} {s s' : Filesys} {file hash : List UInt8}

/-- A block that verifies after the corruption of its words differs in switches only. -/
theorem block_switches (hp : Perfect k s) (hc : Coherent k s) (hb : b < 2 ^ k) (hm : m ≤ 4)
    (hi : i + m ≤ 64) (hlen : file.length = s.file.length)
    (hsame : ∀ z, z < blockLen * b + 4 * i ∨ blockLen * b + 4 * (i + m) ≤ z →
      file[z]? = s.file[z]?) (hv : Verified k b { s with file := file }) (j : ℕ) :
    Switch (word s.file j) (word file j) := by
  have hblock := hp.block_le hb
  have hhash : fletcher (block s b) = fletcher (cell blockLen file b) :=
    (hc.leaves b hb).symm.trans hv.1
  have e : blockLen * b = 4 * (64 * b) := by
    unfold blockLen
    omega
  unfold block cell at hhash
  rw [e] at hhash hsame hblock
  -- any window of four words around the corrupted ones
  refine @switches_of_range (min i 60) 64 s.file file (64 * b) ?_ hlen (by omega) ?_ hhash j
  · unfold blockLen at hblock
    omega
  · intro z hz
    exact hsame z (by omega)

/-- The nodes other than the corrupted one. -/
theorem node_of_ne
    (hsame : ∀ z, z < hashLen * n ∨ hashLen * n + hashLen ≤ z → hash[z]? = s.hash[z]?)
    {x : ℕ} (hx : x ≠ n) : node { s with hash := hash } x = node s x := by
  refine cell_congr fun z h1 h2 => hsame z ?_
  unfold hashLen at *
  omega

/-- A corrupted node on the path does not verify. -/
theorem hash_eq_of_verified (hc : Coherent k s) (hb : b < 2 ^ k) (hpath : OnPath k b n)
    (hsame : ∀ z, z < hashLen * n ∨ hashLen * n + hashLen ≤ z → hash[z]? = s.hash[z]?)
    (hv : Verified k b { s with hash := hash }) : hash = s.hash := by
  have hn : node { s with hash := hash } n = node s n := by
    rcases hpath with rfl | hover
    · exact hv.1.trans (hc.leaves b hb).symm
    · have hlt : n < 2 ^ k - 1 := by
        have := hover.le_half
        have := leaf_lt hb
        rw [pow_succ] at this
        omega
      have hok := hv.2 n hover
      unfold NodeOk at hok
      rw [hok, node_of_ne hsame (by omega), node_of_ne hsame (by omega)]
      exact (hc.inner n hlt).symm
  refine eq_of_cell_eq (show 0 < hashLen by decide) fun x => ?_
  by_cases hx : x = n
  · rw [hx]
    exact hn
  · exact node_of_ne hsame hx

/-- A parent that verifies after the corruption of one child differs in switches only. -/
theorem sibling_switches (hp : Perfect k s) (hc : Coherent k s) (hb : b < 2 ^ k)
    (hpath : OnPath k b m) (hsib : Sibling m n) (hlen : hash.length = s.hash.length)
    (hsame : ∀ z, z < hashLen * n ∨ hashLen * n + hashLen ≤ z → hash[z]? = s.hash[z]?)
    (hv : Verified k b { s with hash := hash }) (j : ℕ) : Switch (word s.hash j) (word hash j) := by
  obtain ⟨q, hq⟩ := hsib
  have hover : Over q (leaf k b) := by
    have hqm : Over q m := by
      rcases hq with ⟨rfl, -⟩ | ⟨rfl, -⟩
      · exact (over_children q).1
      · exact (over_children q).2
    rcases hpath with rfl | hpath
    · exact hqm
    · exact hqm.trans hpath
  have hlt : q < 2 ^ k - 1 := by
    have := hover.le_half
    have := leaf_lt hb
    rw [pow_succ] at this
    omega
  have hin := @Perfect.node_le k (2 * q + 2) s hp (by
    rw [pow_succ]
    omega)
  have hok := hv.2 q hover
  unfold NodeOk at hok
  rw [node_of_ne hsame (show q ≠ n by omega)] at hok
  have hhash := (hc.inner q hlt).symm.trans hok
  -- the two children lie side by side
  have hpair : ∀ u : Filesys, hashPair (node u (2 * q + 1)) (node u (2 * q + 2)) =
      fletcher (slice u.hash (4 * (4 * (2 * q + 1))) (4 * 8)) := by
    intro u
    unfold hashPair node cell
    rw [show hashLen * (2 * q + 2) = hashLen * (2 * q + 1) + hashLen by ring, slice_append_slice]
    congr 2
    unfold hashLen
    omega
  rw [hpair, hpair] at hhash
  unfold hashLen at *
  refine @switches_of_range (4 * (n - (2 * q + 1))) 8 s.hash hash (4 * (2 * q + 1)) (by omega) hlen
    (by omega) (fun z hz => hsame z (by omega)) hhash j

theorem switch_refl (x : ℕ) : Switch x x := Or.inl rfl

/-- A corruption that verifies differs in switches only. -/
theorem Tampered.switches (ht : Tampered k o l s s') (hp : Perfect k s) (hc : Coherent k s)
    (hin : o + l ≤ s.file.length) (hv : ∀ b ∈ touched o l, Verified k b s') :
    OnlySwitches s s' := by
  cases ht with
  | block hb hm hi hlen hsame =>
    exact fun j => ⟨block_switches hp hc (touched_lt hp hin _ hb) hm hi hlen hsame (hv _ hb) j,
      switch_refl _⟩
  | node hb hpath hn hlen hsame =>
    have hb' := touched_lt hp hin _ hb
    rcases hn with rfl | hsib
    · have heq := hash_eq_of_verified hc hb' hpath hsame (hv _ hb)
      intro j
      rw [heq]
      exact ⟨switch_refl _, switch_refl _⟩
    · exact fun j => ⟨switch_refl _, sibling_switches hp hc hb' hpath hsib hlen hsame (hv _ hb) j⟩

theorem Tampered.perfect (ht : Tampered k o l s s') (hp : Perfect k s) : Perfect k s' := by
  cases ht with
  | block hb hm hi hlen hsame => exact ⟨hlen.trans hp.file, hp.hash, hp.leafOffset⟩
  | node hb hpath hn hlen hsame => exact ⟨hp.file, hlen.trans hp.hash, hp.leafOffset⟩

theorem Tampered.file_length (ht : Tampered k o l s s') : s'.file.length = s.file.length := by
  cases ht with
  | block hb hm hi hlen hsame => exact hlen
  | node hb hpath hn hlen hsame => rfl

/-- **Tampering is detected.**  After a corruption of a coherent state in a block of the range or
beside its path, the range does not verify and a read of it returns 3, unless words have switched
only. -/
theorem tampering_detected (hp : Perfect k s) (hk : k ≤ 23) (hc : Coherent k s)
    (hin : o + l ≤ s.file.length) (ht : Tampered k o l s s') (hsw : ¬ OnlySwitches s s') :
    (∃ r, verifyHashRange o l s' = .ok r ∧ r ≠ 0) ∧
    ∀ name p offset, lookup name s' = .ok (some p) → o = (s'.heap p).offset + offset →
      offset + l ≤ (s'.heap p).length → readFile name offset l s' = .ok (3, []) := by
  have hp' := ht.perfect hp
  have hfdl := hp'.fileDataLen_le31 hk
  have hfile := ht.file_length
  have hfile' : s'.file.length = s'.fileDataLen := rfl
  have hin' : o + l ≤ s'.file.length := by omega
  obtain ⟨r, hr, -, hiff⟩ := verifyHashRange_spec hp' (by omega) hin' fun _ => by omega
  have hne : r ≠ 0 := fun h0 => hsw (ht.switches hp hc hin (hiff.mp h0))
  refine ⟨⟨r, hr, hne⟩, fun name p offset hl ho hle => ?_⟩
  have hsum : offset + l < 2 ^ 64 := by omega
  have hstart : (s'.heap p).offset + offset < 2 ^ 63 := by omega
  have hcount : l < 2 ^ 63 := by omega
  have h64 : toU64 ((offset : ℤ) + l) = offset + l := by
    exact_mod_cast toU64_of_lt hsum
  have hrange : toI64 (((s'.heap p).offset : ℤ) + offset) = (o : ℤ) := by
    rw [ho]
    exact_mod_cast toI64_of_lt hstart
  unfold readFile
  rw [hl, Run.ok_bind]
  dsimp only
  rw [h64, if_neg hle.not_gt, hrange, toI64_of_lt hcount, hr, Run.ok_bind, if_pos hne]
  rfl

end Tamper

/-- Four blocks with the bytes of `twoFiles` in the first. -/
def fourBlocks : List UInt8 := [1, 2] ++ zeros 1022

set_option maxRecDepth 20000 in
/-- The byte of `b` changed, and the stored hash beside the path of its block: neither is read. -/
theorem tampering_detected_four : ∃ s₀ s, initFs fourBlocks twoFiles (zeros 112) = .ok s₀ ∧
    computeHashTree s₀ = .ok s ∧ readFile (.ofByte 98 nul_ne_98) 0 1 s = .ok (0, [2]) ∧
    readFile (.ofByte 98 nul_ne_98) 0 1 { s with file := s.file.set 1 9 } = .ok (3, []) ∧
    readFile (.ofByte 98 nul_ne_98) 0 1 { s with hash := s.hash.set 40 9 } = .ok (3, []) := by
  obtain ⟨s₀, hinit, ⟨h1, h2, h3⟩, hrun⟩ := Run.holds_iff.mp
    (show Run.Holds (initFs fourBlocks twoFiles (zeros 112)) (fun s₀ =>
      (s₀.file.length = 1024 ∧ s₀.hash.length = 112 ∧ s₀.leafOffset = 3) ∧
      Run.Holds (computeHashTree s₀) fun s =>
        (Run.Holds (readFile (.ofByte 98 nul_ne_98) 0 1 s) (· = (0, [2])) ∧
          (1 = (s.heap 1).offset + 0 ∧ 0 + 1 ≤ (s.heap 1).length)) ∧
        (Run.Holds (lookup (.ofByte 98 nul_ne_98) { s with file := s.file.set 1 9 })
            (· = some 1) ∧ ¬ Switch (word s.file 0) (word (s.file.set 1 9) 0)) ∧
        Run.Holds (lookup (.ofByte 98 nul_ne_98) { s with hash := s.hash.set 40 9 })
            (· = some 1) ∧ ¬ Switch (word s.hash 10) (word (s.hash.set 40 9) 10))
      by decide +kernel)
  obtain ⟨s, htree, ⟨hread, hoff, hlen⟩, ⟨hfound, hfile⟩, hfound', hhash⟩ :=
    Run.holds_iff.mp hrun
  obtain ⟨_, hread, rfl⟩ := Run.holds_iff.mp hread
  obtain ⟨_, hfound, rfl⟩ := Run.holds_iff.mp hfound
  obtain ⟨_, hfound', rfl⟩ := Run.holds_iff.mp hfound'
  have hp₀ : Perfect 2 s₀ := ⟨h1, h2, h3⟩
  obtain ⟨t, ht, hf, hc⟩ := computeHashTree_right hp₀ (by decide)
  obtain rfl := Except.ok.inj (htree.symm.trans ht)
  have hp : Perfect 2 s := hp₀.congr hf.kept.shape
  have hin : 1 + 1 ≤ s.file.length := by
    rw [hp.file]
    decide
  have htouched : 0 ∈ touched 1 1 := ⟨by decide, by decide, by decide⟩
  have hpath : OnPath 2 0 1 := Or.inr (.parent 2)
  refine ⟨s₀, s, hinit, htree, hread, ?_, ?_⟩
  · have hblock : Tampered 2 1 1 s { s with file := s.file.set 1 9 } :=
      .block (i := 0) (m := 1) htouched (by decide) (by decide) List.length_set fun z hz =>
        List.getElem?_set_ne (by unfold blockLen at hz; omega)
    exact (tampering_detected hp (by decide) hc hin hblock fun h => hfile (h 0).1).2 _ 1 0 hfound
      hoff hlen
  · have hnode : Tampered 2 1 1 s { s with hash := s.hash.set 40 9 } :=
      .node (n := 2) htouched hpath (Or.inr ⟨0, Or.inl ⟨rfl, rfl⟩⟩) List.length_set fun z hz =>
        List.getElem?_set_ne (by unfold hashLen at hz; omega)
    exact (tampering_detected hp (by decide) hc hin hnode fun h => hhash (h 10).2).2 _ 1 0 hfound'
      hoff hlen

end Vfs
