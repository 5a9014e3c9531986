import VirtualFileSystem.Session

/-!
# Formatting

The images of an empty filesystem are files that null bytes were written to, one byte at a time
(`pwriteNullByte`).  Whatever the files held, as long as none was too long, mounting them gives a
filesystem without files, and every session under the contract can start there.
-/

namespace Vfs

open FlatImage Extents ByteStore

section Format

variable {k n : ℕ} {f g : List UInt8} {fd offset count : ℤ}

theorem length_pwriteNulls (f : List UInt8) (offset : ℤ) (n : ℕ) :
    (pwriteNulls f offset n).length = if n = 0 then f.length else max f.length (offset + n).toNat
      := by
  induction n with
  | zero => rfl
  | succ n ih =>
    show (pwrite (pwriteNulls f offset n) (offset + n) [0]).length = _
    unfold pwrite
    rw [if_neg n.succ_ne_zero]
    by_cases h0 : offset + n < 0
    · rw [if_pos h0, ih]
      split_ifs <;> omega
    · rw [if_neg h0, length_put, ih, List.length_singleton]
      split_ifs <;> omega

/-- What the loop leaves at each position: null where it has been, and in the gap it jumped. -/
theorem getElem?_pwriteNulls (f : List UInt8) (offset : ℤ) (n j : ℕ) :
    (pwriteNulls f offset n)[j]? =
      if 0 < n ∧ (j : ℤ) < offset + n ∧ (offset ≤ j ∨ f.length ≤ j) then some 0 else f[j]? := by
  induction n with
  | zero => rw [if_neg (by omega)]; rfl
  | succ n ih =>
    show (pwrite (pwriteNulls f offset n) (offset + n) [0])[j]? = _
    have hlen := length_pwriteNulls f offset n
    unfold pwrite
    by_cases h0 : offset + n < 0
    · rw [if_pos h0, ih, if_neg (by omega), if_neg (by omega)]
    · rw [if_neg h0, getElem?_put, List.length_singleton]
      by_cases hj : (offset + n).toNat ≤ j ∧ j < (offset + n).toNat + 1
      · rw [if_pos hj, if_pos (by omega), show j - (offset + n).toNat = 0 by omega]
        rfl
      · rw [if_neg hj]
        -- Only the first turn can jump a gap.
        by_cases hgap : (pwriteNulls f offset n).length ≤ j ∧ j < (offset + n).toNat
        · rw [if_pos hgap]
          split_ifs at hlen with hn
          · rw [if_pos (by omega)]
          · omega
        · rw [if_neg hgap, ih]
          refine if_congr ?_ rfl rfl
          split_ifs at hlen <;> omega

/-- The call completes on what it accepts, whatever the file holds. -/
theorem pwriteNullByte_eq (hfd : 0 ≤ fd) (hc : count ≤ maxFileDataLen)
    (ho : offset ≤ maxFileDataLen) :
    pwriteNullByte fd offset count f =
      .ok (if count ≤ 0 then 0 else count, pwriteNulls f offset count.toNat) := by
  unfold pwriteNullByte
  by_cases h0 : count ≤ 0
  · rw [if_pos h0, if_pos h0, Int.toNat_of_nonpos h0]
    rfl
  · rw [if_neg h0, if_neg h0, Run.assert_of ⟨hfd, hc, ho⟩]
    rfl

/-- Inside a file it does what `writeNullByte` does to a mapping of the file. -/
theorem pwriteNullByte_inside {a n : ℕ} (hfd : 0 ≤ fd) (h : a + n ≤ f.length)
    (hn : n < maxFileDataLen) (ha : a < maxFileDataLen) :
    ∃ g, pwriteNullByte fd a n f = .ok ((n : ℤ), g) ∧ writeNullByte f a n = .ok g := by
  have hsplice : pwriteNulls f a n = splice f a (List.replicate n 0) := by
    refine List.ext_getElem? fun j => ?_
    rw [getElem?_pwriteNulls, getElem?_splice (by rwa [List.length_replicate]),
      List.length_replicate]
    by_cases hj : a ≤ j ∧ j < a + n
    · rw [if_pos (by omega), if_pos hj, List.getElem?_replicate, if_pos (by omega)]
    · rw [if_neg (by omega), if_neg hj]
  have hcount : (if (n : ℤ) ≤ 0 then (0 : ℤ) else n) = n := by split_ifs <;> omega
  refine ⟨splice f a (List.replicate n 0), ?_, ?_⟩
  · rw [pwriteNullByte_eq hfd (by omega) (by omega), Int.toNat_natCast, hsplice, hcount]
  · unfold writeNullByte
    by_cases h0 : (n : ℤ) ≤ 0
    · rw [if_pos h0]
      obtain rfl : n = 0 := by omega
      rw [List.replicate_zero, splice_nil]
      rfl
    · rw [if_neg h0, Run.assert_of (by omega), Run.ok_bind, Int.toNat_natCast,
        memWrite_of (by rwa [List.length_replicate])]

/-- A file that was not longer becomes null bytes. -/
theorem pwriteNulls_zeros (h : f.length ≤ n) : pwriteNulls f 0 n = zeros n := by
  refine List.ext_getElem? fun j => ?_
  unfold zeros
  rw [getElem?_pwriteNulls, List.getElem?_replicate]
  by_cases hj : j < n
  · rw [if_pos (by omega), if_pos hj]
  · rw [if_neg (by omega), if_neg hj, List.getElem?_eq_none (by omega)]

/-- `gen_blank_files` with the sizes as parameters: null bytes over the three files. -/
def genBlankFiles (fileFd dirFd hashFd fileLen dirLen hashLen : ℤ) (file dir hash : List UInt8) :
    Run (List UInt8 × List UInt8 × List UInt8) := do
  let (_, file) ← pwriteNullByte fileFd 0 fileLen file
  let (_, dir) ← pwriteNullByte dirFd 0 dirLen dir
  let (_, hash) ← pwriteNullByte hashFd 0 hashLen hash
  pure (file, dir, hash)

/-- **Formatting.**  Files that are not longer than the images become, whatever they held, the
images of a filesystem without files.  It needs no hashes computed: every session under the
contract completes there and answers as a reference store does that starts without files. -/
theorem format_session {fileFd dirFd hashFd : ℤ} {file dir hash : List UInt8}
    (hfds : 0 ≤ fileFd ∧ 0 ≤ dirFd ∧ 0 ≤ hashFd) (hk : k ≤ 23) (hn0 : 0 < n)
    (hn : n ≤ maxNumFiles) (hfile : file.length ≤ blockLen * 2 ^ k)
    (hdir : dir.length ≤ metaLen * n) (hhash : hash.length ≤ hashLen * (2 ^ (k + 1) - 1)) :
    ∃ file' dir' hash' s, genBlankFiles fileFd dirFd hashFd (blockLen * 2 ^ k : ℕ)
        (metaLen * n : ℕ) (hashLen * (2 ^ (k + 1) - 1) : ℕ) file dir hash =
          .ok (file', dir', hash') ∧
      initFs file' dir' hash' = .ok s ∧ Leaves k s ⟨Store.empty _ (blockLen * 2 ^ k) n, true⟩ ∧
      ∀ as, Trace.Along Action.record Action.Allowed as
          ⟨Store.empty _ (blockLen * 2 ^ k) n, true⟩ →
        ∃ bs s' l, Trace.run Action.exec as s = .ok (bs, s') ∧
          Trace.run Action.record as ⟨Store.empty _ (blockLen * 2 ^ k) n, true⟩ = .ok (bs, l) ∧
          Leaves k s' l := by
  obtain ⟨s, hr, hs⟩ := blank_mounted hk hn0 hn
  have hpow : 2 ^ k ≤ 2 ^ 23 := Nat.pow_le_pow_right (by norm_num) hk
  have hpow' : 2 ^ (k + 1) = 2 * 2 ^ k := by ring
  have hformat : genBlankFiles fileFd dirFd hashFd (blockLen * 2 ^ k : ℕ) (metaLen * n : ℕ)
      (hashLen * (2 ^ (k + 1) - 1) : ℕ) file dir hash =
        .ok (zeros (blockLen * 2 ^ k), zeros (metaLen * n),
          zeros (hashLen * (2 ^ (k + 1) - 1))) := by
    have hmax : (0 : ℤ) ≤ maxFileDataLen := by decide
    unfold genBlankFiles
    rw [pwriteNullByte_eq hfds.1 ?_ hmax, pwriteNullByte_eq hfds.2.1 ?_ hmax,
      pwriteNullByte_eq hfds.2.2 ?_ hmax]
    · simp only [Int.toNat_natCast, Run.ok_bind, pwriteNulls_zeros hfile, pwriteNulls_zeros hdir,
        pwriteNulls_zeros hhash, Run.pure_eq]
    all_goals
      unfold maxFileDataLen
    · unfold hashLen
      omega
    · unfold maxNumFiles at hn
      unfold metaLen
      omega
    · unfold blockLen
      omega
  refine ⟨_, _, _, s, hformat, hr, hs.leaves hk, fun as ha => ?_⟩
  obtain ⟨bs, s', l, hrun, hrec, hs'⟩ := hs.session hk ha
  exact ⟨bs, s', l, hrun, hrec, hs'.leaves hk⟩

end Format

/-- A file is written, and read after a remount. -/
def firstSession : List Action :=
  [.call (.create (.ofByte 98 nul_ne_98) 0), .call (.write (.ofByte 98 nul_ne_98) 0 2 [1, 2]),
    .remount, .call (.read (.ofByte 98 nul_ne_98) 0 2)]

set_option maxRecDepth 20000 in
/-- Files of other bytes, all too short but the last, are formatted and used. -/
theorem format_session_first : ∃ file dir hash s bs s' l,
    genBlankFiles 3 4 5 256 216 16 [1, 2, 3] [] (List.replicate 16 9) = .ok (file, dir, hash) ∧
    initFs file dir hash = .ok s ∧ Trace.run Action.exec firstSession s = .ok (bs, s') ∧
    bs.getLast? = some (0, [1, 2]) ∧ Leaves 0 s' l := by
  obtain ⟨file, dir, hash, s, hformat, hr, -, hrun⟩ :=
    @format_session 0 3 3 4 5 [1, 2, 3] [] (List.replicate 16 9) (by decide) (by decide)
      (by decide) (by decide) (by decide) (by decide) (by decide)
  obtain ⟨bs, s', l, hex, hrec, hleaves⟩ := hrun firstSession (by decide +kernel)
  refine ⟨file, dir, hash, s, bs, s', l, hformat, hr, hex, ?_, hleaves⟩
  obtain ⟨x, hx, hlast⟩ := Run.holds_iff.mp
    (show Run.Holds (Trace.run Action.record firstSession
        ⟨Store.empty _ (blockLen * 2 ^ 0) 3, true⟩)
      (fun x => x.1.getLast? = some (0, [1, 2])) by decide +kernel)
  obtain rfl := Except.ok.inj (hrec.symm.trans hx)
  exact hlast

end Vfs
