import VirtualFileSystem.Tamper

/-!
# Incremental hashing

Each call of `compute_hash_block_helper` recomputes the nodes over its leaf from whatever the
siblings hold.  The calls of a sequence still agree on one tree, whatever was stored before: the one
in which the leaves of these blocks are set and all nodes over them recomputed.
-/

namespace Vfs

open FlatImage HashTree

section Incremental

variable {k b : ℕ} {s t : Filesys} {B : Set ℕ}

/-- Nodes off the paths of the hashed blocks are kept. -/
theorem BlocksHashed.off_path (h : BlocksHashed k B s t) {n : ℕ}
    (hn : ∀ b ∈ B, ¬ OnPath k b n) : node t n = node s n := by
  apply h.tree.same
  · rintro ⟨b, hb, rfl⟩
    exact hn b hb (Or.inl rfl)
  · rintro _ ⟨b, hb, rfl⟩ ho
    exact hn b hb (Or.inr ho)

/-- What was right up to the root stays right, although nodes on the way may change. -/
theorem BlocksHashed.keeps_verified (h : BlocksHashed k B s t) (hB : ∀ b ∈ B, b < 2 ^ k)
    (hb : b < 2 ^ k) (hv : Verified k b s) : Verified k b t := by
  by_cases hmem : b ∈ B
  · exact h.verified hmem
  · refine ⟨?_, fun m hm => h.tree.nodeOk (fun n hn => (leaf_bounds hB n hn).1) ?_ (hv.2 m hm)⟩
    · unfold LeafOk
      rw [h.leaf_same hB hmem, h.frame.block_eq]
      exact hv.1
    · have := hm.le_half
      unfold leaf at this
      omega

theorem touched_block (b : ℕ) : touched (blockLen * b) blockLen = {b} := by
  ext c
  unfold touched Touches blockLen
  simp only [Set.mem_ofPred_eq, Set.mem_singleton_iff]
  omega

/-- A block verifies alone when it is right up to the root. -/
theorem verifyHashRange_block (hp : Perfect k s) (hk : k ≤ 23) (hb : b < 2 ^ k) :
    verifyHashRange ((blockLen * b : ℕ) : ℤ) blockLen s = .ok 0 ↔ Verified k b s := by
  have hle := hp.block_le hb
  have h31 := hp.fileDataLen_le31 hk
  obtain ⟨r, hr, -, hiff⟩ := verifyHashRange_spec hp (by omega) hle
    fun _ => hle.trans h31
  rw [touched_block] at hiff
  rw [hr, Except.ok.injEq, hiff]
  exact ⟨fun h => h b rfl, by rintro h _ rfl; exact h⟩

/-- Hashing the blocks of a list one by one depends on the set of these blocks only, keeps every
node off their paths, and makes every range verify whose blocks were hashed or verified before. -/
theorem computeHashBlocks_local (hp : Perfect k s) (hk : k ≤ 23) {bs : List ℕ}
    (hbs : ∀ b ∈ bs, b < 2 ^ k) :
    ∃ t, computeHashBlocks bs s = .ok t ∧ HashFrame s t ∧
      (∀ cs : List ℕ, (∀ b, b ∈ cs ↔ b ∈ bs) → computeHashBlocks cs s = .ok t) ∧
      (∀ n, (∀ b ∈ bs, ¬ OnPath k b n) → node t n = node s n) ∧
      ∀ o l : ℤ, l ≤ 0 ∨ 0 ≤ o ∧ o + l ≤ s.file.length →
        (∀ b : ℕ, (blockLen * b : ℕ) < o + l → o < (blockLen * b + blockLen : ℕ) →
          b ∈ bs ∨ verifyHashRange ((blockLen * b : ℕ) : ℤ) blockLen s = .ok 0) →
        verifyHashRange o l t = .ok 0 := by
  obtain ⟨t, ht, hh⟩ := computeHashBlocks_hashed hk bs s hp hbs
  refine ⟨t, ht, hh.frame, fun cs hcs => ?_, fun n hn => hh.off_path hn, fun o l hol hall => ?_⟩
  · obtain ⟨t', ht', hh'⟩ := computeHashBlocks_hashed hk cs s hp fun b hb => hbs b ((hcs b).mp hb)
    have hset : {b | b ∈ cs} = {b | b ∈ bs} := by
      ext b
      exact hcs b
    rw [hset] at hh'
    rw [ht', hh'.unique hh hbs]
  rcases le_or_gt l 0 with hl | hl
  · exact if_pos hl
  obtain ⟨h0, hin⟩ := hol.resolve_left hl.not_ge
  obtain ⟨o, rfl⟩ := Int.eq_ofNat_of_zero_le h0
  obtain ⟨l, rfl⟩ := Int.eq_ofNat_of_zero_le hl.le
  have hpt := hp.congr hh.frame.kept.shape
  have hlen : t.file.length = s.file.length := by rw [hh.frame.heap_file.2]
  have h31 := hpt.fileDataLen_le31 hk
  obtain ⟨r, hr, -, hiff⟩ := verifyHashRange_spec hpt (o := o) (l := l) (by omega)
    (by omega) (fun _ => by unfold Filesys.fileDataLen at h31; omega)
  rw [hr, hiff.mpr fun b hb => ?_]
  have hb2 := touched_lt hpt (by omega) b hb
  rcases hall b (by exact_mod_cast hb.2.1) (by exact_mod_cast hb.2.2) with hmem | hv
  · exact hh.verified hmem
  · exact hh.keeps_verified hbs hb2 ((verifyHashRange_block hp hk hb2).mp hv)

end Incremental

/-- An incoherent tree over two blocks, the second one hashed twice. -/
theorem computeHashBlocks_local_two :
    ∃ t, computeHashBlocks [1, 0, 1] twoBlocks = .ok t ∧ HashFrame twoBlocks t ∧
      (∀ cs : List ℕ, (∀ b, b ∈ cs ↔ b ∈ [1, 0, 1]) → computeHashBlocks cs twoBlocks = .ok t) ∧
      (∀ n, (∀ b ∈ [1, 0, 1], ¬ OnPath 1 b n) → node t n = node twoBlocks n) ∧
      ∀ o l : ℤ, l ≤ 0 ∨ 0 ≤ o ∧ o + l ≤ twoBlocks.file.length →
        (∀ b : ℕ, (blockLen * b : ℕ) < o + l → o < (blockLen * b + blockLen : ℕ) →
          b ∈ [1, 0, 1] ∨
            verifyHashRange ((blockLen * b : ℕ) : ℤ) blockLen twoBlocks = .ok 0) →
        verifyHashRange o l t = .ok 0 :=
  computeHashBlocks_local ⟨length_zeros 512, List.length_replicate, rfl⟩ (by decide) (by decide)

end Vfs
