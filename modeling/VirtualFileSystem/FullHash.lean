import VirtualFileSystem.Rehash

/-!
# Hashing everything

`compute_hash_tree` goes through the tree level by level, `compute_hash_block` climbs from one leaf
to the root.  A coherent tree is determined by the image, so both end in the same hashes when every
block has been visited, in whatever order.
-/

namespace Vfs

open FlatImage HashTree

/-! ## Coherent trees -/

section Unique

variable {k n : ℕ} {s s' t : Filesys}

/-- Over one image there is one coherent tree. -/
theorem Coherent.unique (hc : Coherent k s) (hc' : Coherent k s') (hp : Perfect k s)
    (hp' : Perfect k s') (hfile : s'.file = s.file) : s'.hash = s.hash := by
  apply eq_of_cell_eq (show 0 < hashLen by decide)
  apply congrFun
  show node s' = node s
  refine @eq_of_nodeOk _ hashPair (2 ^ k - 1) _ _ fun n => ?_
  rcases lt_or_ge n (2 ^ k - 1) with hlt | hge
  · exact Or.inr ⟨hlt, hc'.inner n hlt, hc.inner n hlt⟩
  left
  rcases lt_or_ge n (2 ^ (k + 1) - 1) with hlt | hout
  · obtain ⟨b, rfl⟩ : ∃ b, n = leaf k b := ⟨n - (2 ^ k - 1), by unfold leaf; omega⟩
    have hb : b < 2 ^ k := by
      rw [pow_succ] at hlt
      unfold leaf at hlt
      omega
    rw [hc'.leaves b hb, hc.leaves b hb, block_of_file hfile]
  · -- behind the last node both arrays end
    have hnil : ∀ u : Filesys, Perfect k u → node u n = [] := fun u hu => by
      apply List.length_eq_zero_iff.mp
      unfold node cell
      rw [length_slice, hu.hash]
      have := Nat.mul_le_mul_left hashLen hout
      omega
    rw [hnil s hp, hnil s' hp']

theorem coherent_of_right (h : ∀ n < 2 ^ (k + 1) - 1, Right k s n) : Coherent k s where
  inner := fun n hn => (right_of_lt hn).mp (h n (by
    rw [pow_succ]
    omega))
  leaves := fun b hb => right_leaf.mp (h _ (leaf_lt hb))

/-- With every block hashed the tree is coherent, whatever it held before. -/
theorem BlocksHashed.coherent {B : Set ℕ} (h : BlocksHashed k B s s')
    (hB : ∀ b < 2 ^ k, b ∈ B) : Coherent k s' where
  inner := fun n hn => by
    obtain ⟨m, h1, h2, ho⟩ := exists_over_leaf hn
    refine h.tree.path m ⟨m - (2 ^ k - 1), hB _ ?_, ?_⟩ n ho
    · omega
    · unfold leaf
      omega
  leaves := fun b hb => h.leafOk (hB b hb)

end Unique

/-! ## Level by level -/

section Levels

variable {k n : ℕ} {s s' t : Filesys}

/-- What the level loop has left behind at position `c` of the level of `2 ^ j` nodes. -/
def Done (j c x : ℕ) : Prop := 2 ^ (j + 1) - 1 ≤ x ∨ 2 ^ j - 1 ≤ x ∧ x < 2 ^ j - 1 + c

/-- Hashing a node makes it right, and leaves the nodes right that are not its parent. -/
theorem hashNode_right (hp : Perfect k s) (hk : k ≤ 23) (hn : n < 2 ^ (k + 1) - 1) :
    ∃ h s', hashNode n s = .ok h ∧ writeNode n h s = .ok s' ∧ HashFrame s s' ∧ Right k s' n ∧
      ∀ x, x ≠ n → 2 * x + 1 ≠ n → 2 * x + 2 ≠ n → Right k s x → Right k s' x := by
  have hlen : (if n < 2 ^ k - 1 then hashPair (node s (2 * n + 1)) (node s (2 * n + 2))
      else fletcher (block s (n - (2 ^ k - 1)))).length = hashLen := by
    split_ifs
    · exact length_hashPair _ _
    · exact length_fletcher _
  obtain ⟨s', hw, hf⟩ := writeNode_of hp (by omega) hn hlen
  have hnode := writeNode_post hlen hw
  have h2 : 2 ^ k ≤ 2 ^ 23 := Nat.pow_le_pow_right (by decide) hk
  refine ⟨_, s', hashNode_of hp (by omega) hn (by rw [pow_succ] at hn; omega), hw, hf, ?_,
    fun x hx h1 h2 hr => ?_⟩
  · unfold Right
    rw [hnode, Function.update_self, Function.update_of_ne (by omega),
      Function.update_of_ne (by omega), hf.block_eq]
  · unfold Right at hr ⊢
    rw [hnode, Function.update_of_ne h1, Function.update_of_ne h2, Function.update_of_ne hx,
      hf.block_eq]
    exact hr

/-- The level loop ends, with every node right. -/
theorem hashTreeLoop_right (hk : k ≤ 23) : ∀ (fuel j c : ℕ) (s : Filesys), Perfect k s → j ≤ k →
    c < 2 ^ j → 2 * 2 ^ j ≤ fuel + c →
    (∀ x < 2 ^ (k + 1) - 1, Done j c x → Right k s x) →
    ∃ t, hashTreeLoop fuel ((2 ^ j - 1 + c : ℕ) : ℤ) c ((2 ^ j : ℕ) : ℤ) s = .ok t ∧
      HashFrame s t ∧ ∀ x < 2 ^ (k + 1) - 1, Right k t x := by
  intro fuel
  induction fuel with
  | zero =>
    intro j c s _ _ hc hfuel
    omega
  | succ fuel ih =>
    intro j c s hp hj hc hfuel hdone
    have hjk : 2 ^ (j + 1) ≤ 2 ^ (k + 1) := Nat.pow_le_pow_right (by decide) (by omega)
    have hpow : 2 ^ (j + 1) = 2 * 2 ^ j := pow_succ' 2 j
    have hn : 2 ^ j - 1 + c < 2 ^ (k + 1) - 1 := by omega
    obtain ⟨h, s', hh, hw, hf, hself, hkeep⟩ := hashNode_right hp hk hn
    have hp' := hp.congr hf.kept.shape
    -- what was right is below the node just written
    have hdone' : ∀ x < 2 ^ (k + 1) - 1, Done j (c + 1) x → Right k s' x := by
      intro x hx hd
      by_cases hxn : x = 2 ^ j - 1 + c
      · rw [hxn]
        exact hself
      · have hd' : Done j c x := by
          unfold Done at hd ⊢
          omega
        refine hkeep x hxn ?_ ?_ (hdone x hx hd')
        · unfold Done at hd'
          omega
        · unfold Done at hd'
          omega
    unfold hashTreeLoop
    rw [if_pos (by omega), hh, Run.ok_bind, hw, Run.ok_bind]
    rcases Nat.lt_or_ge (c + 1) (2 ^ j) with hlt | hge
    · -- the next node of the level
      rw [if_pos (by exact_mod_cast hlt)]
      obtain ⟨t, ht, hft, hright⟩ := ih j (c + 1) s' hp' hj hlt (by omega) hdone'
      exact ⟨t, by rw [← ht]; push_cast; rfl, hf.trans hft, hright⟩
    · rw [if_neg (by exact_mod_cast hge.not_gt)]
      have hlast : c + 1 = 2 ^ j := by omega
      cases j with
      | zero =>
        -- the root was the last node
        obtain ⟨fuel, rfl⟩ : ∃ f, fuel = f + 1 := ⟨fuel - 1, by omega⟩
        refine ⟨s', rfl, hf, fun x hx => hdone' x hx ?_⟩
        unfold Done
        omega
      | succ j =>
        -- the level above
        have hhalf : (((2 ^ (j + 1) : ℕ) : ℤ)).tdiv 2 = ((2 ^ j : ℕ) : ℤ) := by
          rw [pow_succ', show ((2 * 2 ^ j : ℕ) : ℤ) = 2 * ((2 ^ j : ℕ) : ℤ) by push_cast; rfl]
          exact Int.mul_tdiv_cancel_left _ (by decide)
        have hpos : 0 < 2 ^ j := Nat.two_pow_pos j
        obtain ⟨t, ht, hft, hright⟩ := ih j 0 s' hp' (by omega) hpos (by omega) (by
          intro x hx hd
          apply hdone' x hx
          unfold Done at hd ⊢
          omega)
        have hnext : ((2 ^ j - 1 + 0 : ℕ) : ℤ) = ((2 ^ j : ℕ) : ℤ) - 1 := by omega
        rw [hnext, Nat.cast_zero] at ht
        exact ⟨t, by rw [hhalf]; exact ht, hf.trans hft, hright⟩

theorem computeHashTree_right (hp : Perfect k s) (hk : k ≤ 23) :
    ∃ t, computeHashTree s = .ok t ∧ HashFrame s t ∧ Coherent k t := by
  have hpos : 0 < 2 ^ k := Nat.two_pow_pos k
  have hlo := hp.leafOffset_eq
  obtain ⟨t, ht, hf, hright⟩ := hashTreeLoop_right hk (2 * (s.leafOffset + 1).toNat + 2) k 0 s hp
    le_rfl hpos (by omega) (by
      intro x hx hd
      unfold Done at hd
      omega)
  refine ⟨t, ?_, hf, coherent_of_right hright⟩
  unfold computeHashTree
  have hfirst : ((2 ^ k - 1 + 0 : ℕ) : ℤ) = s.leafOffset := by omega
  have hwidth : ((2 ^ k : ℕ) : ℤ) = s.leafOffset + 1 := by omega
  rw [hfirst, hwidth] at ht
  exact ht

end Levels

/-! ## Block by block -/

section Agree

variable {k : ℕ} {s s' t : Filesys}

/-- `compute_hash_block` on every block of a list, in its order. -/
def computeHashBlocks : List ℕ → Filesys → Run Filesys
  | [], s => pure s
  | b :: bs, s => do
    let s ← computeHashBlock b s
    computeHashBlocks bs s

theorem computeHashBlocks_hashed (hk : k ≤ 23) : ∀ (bs : List ℕ) (s : Filesys), Perfect k s →
    (∀ b ∈ bs, b < 2 ^ k) →
    ∃ t, computeHashBlocks bs s = .ok t ∧ BlocksHashed k {b | b ∈ bs} s t := by
  intro bs
  induction bs with
  | nil =>
    intro s _ _
    refine ⟨s, rfl, ?_⟩
    have := BlocksHashed.refl k s
    rwa [show {b : ℕ | b ∈ ([] : List ℕ)} = ∅ by ext b; simp]
  | cons b bs ih =>
    intro s hp hbs
    have hb := hbs b List.mem_cons_self
    obtain ⟨s₁, h1⟩ := computeHashBlockHelper_total hp (by omega) hb
    have hh1 := computeHashBlockHelper_hashed hp (by omega) hb h1
    obtain ⟨t, h2, hh2⟩ := ih s₁ (hp.congr hh1.frame.kept.shape)
      fun c hc => hbs c (List.mem_cons_of_mem _ hc)
    refine ⟨t, ?_, ?_⟩
    · unfold computeHashBlocks computeHashBlock
      rw [h1]
      exact h2
    · have hset : {c | c ∈ b :: bs} = {b} ∪ {c | c ∈ bs} := by
        ext c
        exact List.mem_cons
      rw [hset]
      refine hh1.trans hh2 ?_ fun c hc => hbs c (List.mem_cons_of_mem _ hc)
      rintro c rfl
      exact hb

/-- What hashing the whole image leaves. -/
structure FullyHashed (k : ℕ) (s t : Filesys) : Prop where
  frame : HashFrame s t
  coherent : Coherent k t
  unique : ∀ t', HashFrame s t' → Coherent k t' → t' = t
  verifies : ∀ o l : ℤ, l ≤ 0 ∨ 0 ≤ o ∧ o + l ≤ s.file.length → verifyHashRange o l t = .ok 0

/-- **Full and incremental hashing.**  The pass over the levels ends and leaves what hashing the
blocks one by one leaves, in any order: the one coherent tree, on which every range verifies. -/
theorem computeHashTree_agrees (hp : Perfect k s) (hk : k ≤ 23) :
    ∃ t, computeHashTree s = .ok t ∧ FullyHashed k s t ∧
      ∀ bs : List ℕ, bs.Perm (List.range (2 ^ k)) → computeHashBlocks bs s = .ok t := by
  obtain ⟨t, ht, hf, hc⟩ := computeHashTree_right hp hk
  have hpt := hp.congr hf.kept.shape
  have hunique : ∀ t', HashFrame s t' → Coherent k t' → t' = t := by
    intro t' hf' hc'
    have hhash : t'.hash = t.hash := hc.unique hc' hpt (hp.congr hf'.kept.shape)
      (hf'.heap_file.2.trans hf.heap_file.2.symm)
    rw [hf'.eq, hf.eq, hhash]
  refine ⟨t, ht, ⟨hf, hc, hunique, fun o l hol => ?_⟩, fun bs hbs => ?_⟩
  · rcases le_or_gt l 0 with hl | hl
    · exact if_pos hl
    · obtain ⟨h0, hin⟩ := hol.resolve_left hl.not_ge
      obtain ⟨o, rfl⟩ := Int.eq_ofNat_of_zero_le h0
      obtain ⟨l, rfl⟩ := Int.eq_ofNat_of_zero_le hl.le
      have h31 := hp.fileDataLen_le31 hk
      have hin' : o + l ≤ s.file.length := by exact_mod_cast hin
      have hfile : s.file.length = s.fileDataLen := rfl
      refine hc.verifies hpt (by omega) ?_ fun _ => by omega
      rw [hf.kept.shape.file]
      exact hin'
  · have hmem : ∀ b, b ∈ bs ↔ b < 2 ^ k := fun b => by rw [hbs.mem_iff, List.mem_range]
    obtain ⟨t', ht', hh⟩ := computeHashBlocks_hashed hk bs s hp fun b hb => (hmem b).mp hb
    rw [ht', hunique t' hh.frame (hh.coherent fun b hb => (hmem b).mpr hb)]

end Agree

/-- A state of two blocks, whose three nodes hold arbitrary bytes. -/
def twoBlocks : Filesys :=
  { initState (zeros 512) [] (List.replicate 48 7) ⟨0, .offset, []⟩ ⟨0, .name, []⟩ with
    treeLen := 3, leafOffset := 1 }

theorem computeHashTree_agrees_two : ∃ t, computeHashTree twoBlocks = .ok t ∧
    FullyHashed 1 twoBlocks t ∧
    ∀ bs : List ℕ, bs.Perm (List.range (2 ^ 1)) → computeHashBlocks bs twoBlocks = .ok t :=
  computeHashTree_agrees ⟨length_zeros 512, List.length_replicate, rfl⟩ (by decide)

end Vfs
