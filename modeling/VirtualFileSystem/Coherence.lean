import VirtualFileSystem.Creation
import VirtualFileSystem.GrowingWrite
import VirtualFileSystem.FullHash

/-!
# Which calls keep the hash tree coherent

A relocation hashes from the first byte that the repack of the other files moved.  If they already
lie side by side nothing of them moves, and hashing starts behind the bytes that the growing file
took along: the blocks these bytes filled keep the hash of what they held before.
-/

namespace Vfs

open FlatImage Extents

/-! ## Growing -/

/-- The blocks filled with bytes of `p` that moved behind the packed others have their old hash. -/
def CarriedHashed (k : ℕ) (p : Ptr) (copy : ℕ) (s : Filesys) : Prop :=
  ∀ blk < 2 ^ k, blockLen * blk + blockLen ≤ totalLength s.heap (others p s) + copy →
    fletcher (cell blockLen (splice s.file (totalLength s.heap (others p s))
      (slice s.file (s.heap p).offset copy)) blk) = fletcher (block s blk)

instance (k : ℕ) (p : Ptr) (copy : ℕ) (s : Filesys) : Decidable (CarriedHashed k p copy s) := by
  unfold CarriedHashed; infer_instance

/-- Growing `p` to `length` with its first `copy` bytes leaves no block with another hash than the
one stored.  Where the sum of the lengths wraps, nothing less than that is known. -/
def GrowHashed (k : ℕ) (p : Ptr) (length copy : ℕ) (s : Filesys) : Prop :=
  Relocates p length s →
    if s.used + length ≤ s.fileDataLen + (s.heap p).length then
      Packed 0 (exts s.heap (others p s)) → CarriedHashed k p copy s
    else Rehashed k p length copy s

instance (k : ℕ) (p : Ptr) (length copy : ℕ) (s : Filesys) :
    Decidable (GrowHashed k p length copy s) := by
  unfold GrowHashed; infer_instance

section Growth

variable {w k : ℕ} {s s₁ s' : Filesys} {p : Ptr} {length copy offset : ℕ} {ho : ℤ}
  {bs buf : List UInt8}

theorem growStart_of_moved {h : ℕ} (hf : firstMoved 0 (exts s.heap (others p s)) = some h)
    (copy : ℕ) : growStart p copy s = h := by
  unfold growStart
  rw [hf]

theorem growStart_of_packed (hf : firstMoved 0 (exts s.heap (others p s)) = none) (copy : ℕ) :
    growStart p copy s = ((totalLength s.heap (others p s) + copy : ℕ) : ℤ) := by
  unfold growStart
  rw [hf]

theorem growStop_of_fits (h : totalLength s.heap (others p s) + length < 2 ^ 63) :
    growStop p length s = ((totalLength s.heap (others p s) + length : ℕ) : ℤ) := toI64_of_lt h

/-- Behind the bytes taken along, and in front of the first byte moved, a relocation leaves a block
as it is. -/
theorem cell_relocated (hL : Layout s) (he : EmptyAtSentinel s) (hfdl : s.fileDataLen ≤ 2 ^ 32)
    (hin : totalLength s.heap (others p s) + copy ≤ s.file.length) {blk : ℕ}
    (hblk : ∀ i, blockLen * blk ≤ i → i < blockLen * blk + blockLen →
      totalLength s.heap (others p s) + copy ≤ i ∨
        (i < totalLength s.heap (others p s) ∧
          ∀ h, firstMoved 0 (exts s.heap (others p s)) = some h → i < h)) :
    cell blockLen (relocated p copy s) blk = block s blk := by
  obtain ⟨hl, hroomy, hins⟩ := hL.others_slide he hfdl p
  obtain ⟨hlen, hframe, -⟩ := slideImage_spec _ 0 s.file hl (above_zero _) hroomy hins
  rw [total_exts] at hframe
  have hslice : (slice s.file (s.heap p).offset copy).length ≤ copy := by
    rw [length_slice]
    exact min_le_left _ _
  apply cell_congr
  intro i h1 h2
  have hi := hblk i h1 h2
  unfold relocated
  rw [getElem?_splice (by omega), if_neg (by omega)]
  apply hframe
  rcases hi with hi | hi
  · right; left
    omega
  · right; right
    exact hi.2

/-- Nothing moves where the others are packed. -/
theorem relocated_of_packed (hL : Layout s) (he : EmptyAtSentinel s)
    (hfdl : s.fileDataLen ≤ 2 ^ 32) (hf : firstMoved 0 (exts s.heap (others p s)) = none)
    (copy : ℕ) : relocated p copy s = splice s.file (totalLength s.heap (others p s))
      (slice s.file (s.heap p).offset copy) := by
  obtain ⟨hl, hroomy, hins⟩ := hL.others_slide he hfdl p
  obtain ⟨-, hframe, -⟩ := slideImage_spec _ 0 s.file hl (above_zero _) hroomy hins
  have hsame : slideImage 0 (exts s.heap (others p s)) s.file = s.file := by
    refine List.ext_getElem? fun i => hframe i (Or.inr (Or.inr fun h hh => ?_))
    rw [hf] at hh
    cases hh
  unfold relocated
  rw [hsame]

/-- Where the sum fits, a relocation that moves another file hashes every byte it changes; one that
does not leaves out the bytes taken along. -/
theorem rehashed_iff (hm : Mirror w s) (hL : Layout s) (he : EmptyAtSentinel s)
    (hpf : Perfect k s) (hk : k ≤ 23) (hp : p ∈ s.live) (hcopy : copy ≤ (s.heap p).length)
    (hgrow : (s.heap p).length < length)
    (hroom : s.used + length ≤ s.fileDataLen + (s.heap p).length) :
    Rehashed k p length copy s ↔
      (Packed 0 (exts s.heap (others p s)) → CarriedHashed k p copy s) := by
  have hfdl := hpf.fileDataLen_le31 hk
  have htotal : (totalLength s.heap (others p s) : ℤ) = s.used - (s.heap p).length :=
    hL.total_erase hm hp
  have hused := hL.used_le hm (by omega)
  have hin : totalLength s.heap (others p s) + copy ≤ s.file.length := by
    unfold Filesys.fileDataLen at *
    omega
  have hstop := @growStop_of_fits s p length (by omega)
  obtain ⟨hl, hroomy, -⟩ := hL.others_slide he (by omega) p
  rw [← firstMoved_eq_none_iff_packed hl (above_zero _) hroomy]
  unfold Rehashed
  rw [hstop]
  clear hstop
  cases hf : firstMoved 0 (exts s.heap (others p s)) with
  | some h =>
    have hlt := firstMoved_lt hf
    rw [total_exts] at hlt
    rw [growStart_of_moved hf]
    refine iff_of_true (fun blk _ hh => ?_) fun h => absurd h (Option.some_ne_none _)
    rw [cell_relocated hL he (by omega) hin]
    intro i h1 h2
    unfold Hashed at hh
    push Not at hh
    by_cases h3 : ((blockLen * blk : ℕ) : ℤ) < (totalLength s.heap (others p s) + length : ℕ)
    · have := hh (by omega) h3
      right
      refine ⟨by omega, fun h' hh' => ?_⟩
      obtain rfl := Option.some_inj.mp (hf.symm.trans hh')
      omega
    · left
      omega
  | none =>
    rw [growStart_of_packed hf, imp_iff_right rfl]
    unfold CarriedHashed
    refine forall_congr' fun blk => imp_congr_right fun _ => ?_
    rw [relocated_of_packed hL he (by omega) hf]
    refine ⟨fun h hle => h fun hh => ?_, fun h hh => ?_⟩
    · have := hh.2.2
      omega
    by_cases hle : blockLen * blk + blockLen ≤ totalLength s.heap (others p s) + copy
    · exact h hle
    · -- the block lies behind the end of the file
      unfold Hashed at hh
      push Not at hh
      rw [← relocated_of_packed hL he (by omega) hf,
        cell_relocated hL he (by omega) hin fun i h1 h2 => Or.inl ?_]
      by_contra hlt
      have := hh (by omega) (by omega)
      omega

/-- A growing call keeps the tree coherent if and only if its relocation leaves no block with
another hash. -/
theorem Grew.coherent_iff (hg : Grew k p length copy bs s ho s₁ s') (hm : Mirror w s)
    (hL : Layout s) (hpf : Perfect k s) (hk : k ≤ 23) (hc : Coherent k s) (hp : p ∈ s.live)
    (hcopy : copy ≤ (s.heap p).length) (hgrow : (s.heap p).length < length)
    (hbs : copy + bs.length = length) :
    Coherent k s' ↔ (Relocates p length s → Rehashed k p length copy s) := by
  have hfdl := hpf.fileDataLen_le31 hk
  have hkept := (resizeFileHelper_liveOk hm.liveOk hp hg.helper).2
  have hfile : s₁.file.length = s.fileDataLen := hkept.shape.file
  have hroom := hg.room
  obtain ⟨hhash, hcase⟩ := resizeFileHelper_image hm hL (by omega) hp hcopy hgrow hg.helper
  have hlt : ∀ blk ∈ {blk | Hashed (hashFrom ho p copy s₁)
      (((s₁.heap p).offset + length : ℕ) : ℤ) blk}, blk < 2 ^ k := by
    have := @hashed_lt k s₁ (hashFrom ho p copy s₁)
      (((s₁.heap p).offset + length : ℕ) - hashFrom ho p copy s₁) (hpf.congr hkept.shape) (by omega)
    rwa [add_sub_cancel] at this
  have hin : (s₁.heap p).offset + copy + bs.length ≤ s₁.file.length := by omega
  have hend : (((s₁.heap p).offset + copy + bs.length : ℕ) : ℤ) ≤
      (((s₁.heap p).offset + length : ℕ) : ℤ) := by omega
  rcases hcase with ⟨hrel, himg⟩ | ⟨hrel, hsame, rfl⟩
  · rw [imp_iff_right hrel]
    have hstart : hashFrom ho p copy s₁ = growStart p copy s := by
      rw [himg.growStart_eq]
      unfold hashFrom
      rw [Nat.cast_add]
    have hstop : (((s₁.heap p).offset + length : ℕ) : ℤ) = growStop p length s := by
      have hplace := himg.place
      rw [growStop_of_fits (by omega), hplace]
    obtain ⟨t, htfile, hthash, hh⟩ : ∃ t : Filesys,
        t.file = splice s₁.file ((s₁.heap p).offset + copy) bs ∧ t.hash = s.hash ∧
        BlocksHashed k {blk | Hashed (hashFrom ho p copy s₁)
          (((s₁.heap p).offset + length : ℕ) : ℤ) blk} t s' :=
      ⟨{ s₁ with file := splice s₁.file ((s₁.heap p).offset + copy) bs }, rfl, hhash, hg.hashed⟩
    rw [hstart, hstop] at hh hlt
    exact himg.coherent_iff hc hthash htfile hin (Or.inr (hend.trans_eq hstop)) hh hlt
  · -- in place, or at the start of `file_data`
    refine iff_of_true ?_ fun h => absurd h hrel
    refine (hg.hashed.coherent_iff hlt hc hhash).mpr fun blk _ hh => ?_
    have hcell := @cell_splice_of_not_hashed s₁.file bs ((s₁.heap p).offset + copy) blk
      (hashFrom (-1) p copy s₁) (((s₁.heap p).offset + length : ℕ) : ℤ) hin le_rfl hend hh
    show fletcher (cell blockLen (splice s₁.file _ bs) blk) = _
    rw [hcell, hsame]
    rfl

/-- With every empty file at the sentinel, only the bytes taken along can be left out. -/
theorem growHashed_iff (hm : Mirror w s) (hL : Layout s) (he : EmptyAtSentinel s)
    (hpf : Perfect k s) (hk : k ≤ 23) (hp : p ∈ s.live) (hcopy : copy ≤ (s.heap p).length)
    (hgrow : (s.heap p).length < length) :
    GrowHashed k p length copy s ↔ (Relocates p length s → Rehashed k p length copy s) := by
  unfold GrowHashed
  refine imp_congr_right fun _ => ?_
  by_cases hroom : s.used + length ≤ s.fileDataLen + (s.heap p).length
  · rw [if_pos hroom]
    exact (rehashed_iff hm hL he hpf hk hp hcopy hgrow hroom).symm
  · rw [if_neg hroom]

/-- Resizing keeps the tree coherent if and only if a relocation leaves no block with another
hash. -/
theorem resizeFileAt_coherent_iff (hm : Mirror w s) (hL : Layout s) (hpf : Perfect k s)
    (hk : k ≤ 23) (hc : Coherent k s) (hp : p ∈ s.live) (hlen : length < 2 ^ 64)
    (hadm : toU64 (s.used + length - (s.heap p).length) ≤ s.fileDataLen)
    (hr : resizeFileAt p length s = .ok s') :
    Coherent k s' ↔ ((s.heap p).length < length → Relocates p length s →
      Rehashed k p length (s.heap p).length s) := by
  have hfdl := hpf.fileDataLen_le31 hk
  have hused := hL.used_le hm (by omega)
  have hle := hm.length_le_used hp
  rcases le_or_gt length (s.heap p).length with hshrink | hgrow
  · -- no byte changes
    refine iff_of_true ?_ fun h => absurd h hshrink.not_gt
    obtain ⟨ho, s₁, h1, ⟨-, rfl⟩ | ⟨hlt, -⟩⟩ := resizeFileAt_post hr
    · rcases resizeFileHelper_post h1 with ⟨-, rfl, -⟩ | ⟨-, s₂, ⟨-, rfl, -⟩ | ⟨hlt, -⟩, -, rfl⟩
      · exact hc
      · exact hc.congr (fun _ => rfl) rfl
      · omega
    · omega
  rw [imp_iff_right hgrow]
  by_cases hfit : s.used + length - (s.heap p).length < 2 ^ 64
  · have hroom : s.used + length ≤ s.fileDataLen + (s.heap p).length := by
      rw [toU64_of_nonneg (by omega) hfit] at hadm
      omega
    obtain ⟨ho, s₁, hg⟩ := resizeFileAt_grew hm hL hpf hk hp hgrow hroom hr
    exact hg.coherent_iff hm hL hpf hk hc hp le_rfl hgrow (by rw [length_zeros]; omega)
  · obtain ⟨hrel, hiff⟩ := resizeFileAt_coherent_wrapped hm hL hpf hk hc hp hlen (by omega) hr
    rw [imp_iff_right hrel]
    exact hiff

/-- Writing keeps the tree coherent if and only if a relocation leaves no block with another
hash. -/
theorem writeFileAt_coherent_iff {count : ℕ} (hm : Mirror w s) (hL : Layout s) (hpf : Perfect k s)
    (hk : k ≤ 23) (hc : Coherent k s) (hp : p ∈ s.live) (hoff : offset ≤ (s.heap p).length)
    (hpos : 0 < count)
    (hadm : toU64 (s.used + offset + count - (s.heap p).length) ≤ s.fileDataLen)
    (hr : writeFileAt p offset count buf s = .ok s') :
    Coherent k s' ↔ ((s.heap p).length < offset + count → Relocates p (offset + count) s →
      Rehashed k p (offset + count) offset s) := by
  have hfdl := hpf.fileDataLen_le31 hk
  have hlen := hm.counted.length_lt p hp
  obtain ⟨ho, s₁, hcase, hbuf, hin, -⟩ := writeFileAt_post hr
  have hcount : count ≤ s.fileDataLen := by
    have hfile : s₁.file.length = s.fileDataLen := by
      rcases hcase with ⟨-, -, rfl⟩ | ⟨-, h1⟩
      · rfl
      · exact (resizeFileHelper_liveOk hm.liveOk hp h1).2.shape.file
    omega
  rw [← writeFileAt_take hbuf] at hr
  obtain ⟨data, hdata⟩ : ∃ data : List UInt8, data = buf.take count := ⟨_, rfl⟩
  obtain rfl : data.length = count := by
    rw [hdata]
    exact List.length_take_of_le hbuf
  rw [← hdata] at hr
  rcases le_or_gt (offset + data.length) (s.heap p).length with hinside | hgrow
  · -- the bytes written are hashed
    refine iff_of_true ?_ fun h => absurd h hinside.not_gt
    have hroom := (hL.inRange (by omega) p hp).2 (by omega)
    obtain ⟨s'', hr', hh⟩ := writeFileAt_inside hpf hk hinside hroom
    obtain rfl : s' = s'' := Except.ok.inj (hr.symm.trans hr')
    rw [touched_eq_hashed] at hh
    have hfile : s.file.length = s.fileDataLen := rfl
    have hlt := @hashed_lt k s ((s.heap p).offset + offset : ℕ) data.length hpf (by omega)
    rw [← Nat.cast_add] at hlt
    refine (hh.coherent_iff hlt hc rfl).mpr fun blk _ hout => ?_
    have hcell := @cell_splice_of_not_hashed s.file data ((s.heap p).offset + offset) blk
      ((s.heap p).offset + offset : ℕ) ((s.heap p).offset + offset + data.length : ℕ) (by omega)
      le_rfl le_rfl hout
    show fletcher (cell blockLen (splice s.file _ data) blk) = _
    rw [hcell]
    rfl
  · have hroom : s.used + (offset + data.length : ℕ) ≤ s.fileDataLen + (s.heap p).length := by
      apply admitted_le hm hp (by omega)
      rwa [Nat.cast_add, ← add_assoc]
    obtain ⟨ho, s₁, hg⟩ := writeFileAt_grew hm hL hpf hk hp hoff (by omega) hgrow hroom hr
    rw [imp_iff_right hgrow]
    exact hg.coherent_iff hm hL hpf hk hc hp hoff hgrow rfl

end Growth

/-! ## Calls -/

/-- The arguments of the call are 64-bit numbers. -/
def Call.Sized : Call → Prop
  | .create _ length | .resize _ length => length < 2 ^ 64
  | .write _ offset count _ | .read _ offset count => offset < 2 ^ 64 ∧ count < 2 ^ 64
  | .delete _ | .rename _ _ | .repack | .size _ => True

/-- Where the call makes a file grow, `P` holds of the file, its new length and the number of bytes
in front of the new ones. -/
def Call.Grows (P : Ptr → ℕ → ℕ → Prop) : Call → Filesys → Prop
  | .resize name length, s => ∀ p ∈ s.live, lookup name s = .ok (some p) →
      (s.heap p).length < length → P p length (s.heap p).length
  | .write name offset count _, s => ∀ p ∈ s.live, lookup name s = .ok (some p) →
      offset ≤ (s.heap p).length → (s.heap p).length < offset + count → P p (offset + count) offset
  | _, _ => True

/-- No relocation leaves a block with another hash than the one stored. -/
def Call.Rehashes (k : ℕ) (c : Call) (s : Filesys) : Prop :=
  c.Grows (fun p length copy => Relocates p length s → Rehashed k p length copy s) s

/-- Calls after which every stored hash is right: all but those that grow a file and take bytes of
it along to blocks they do not hash. -/
def Call.HashSafe (k : ℕ) (c : Call) (s : Filesys) : Prop :=
  c.Grows (fun p length copy => GrowHashed k p length copy s) s

/-- A call that repacks all files has room to. -/
def Call.RepackSafe : Call → Filesys → Prop
  | .create name length, s => CreatesSafely name length s
  | .repack, s => Roomy 0 (exts s.heap s.oList.list)
  | _, _ => True

instance decidableLookup (name : CString) (s : Filesys) (p : Ptr) :
    Decidable (lookup name s = .ok (some p)) :=
  match h : lookup name s with
  | .ok r => decidable_of_iff (r = some p) ⟨fun he => by rw [he], fun he => Except.ok.inj he⟩
  | .error _ => .isFalse fun he => nomatch he

instance decidableGrows (P : Ptr → ℕ → ℕ → Prop) [∀ p l n, Decidable (P p l n)] :
    ∀ (c : Call) (s : Filesys), Decidable (c.Grows P s)
  | .resize name length, s => inferInstanceAs (Decidable (∀ p ∈ s.live,
      lookup name s = .ok (some p) → (s.heap p).length < length → P p length (s.heap p).length))
  | .write name offset count _, s => inferInstanceAs (Decidable (∀ p ∈ s.live,
      lookup name s = .ok (some p) → offset ≤ (s.heap p).length →
        (s.heap p).length < offset + count → P p (offset + count) offset))
  | .create _ _, _ | .delete _, _ | .rename _ _, _ | .repack, _ | .read _ _ _, _ | .size _, _ =>
    .isTrue trivial

instance (k : ℕ) (c : Call) (s : Filesys) : Decidable (c.Rehashes k s) := by
  unfold Call.Rehashes; infer_instance

instance (k : ℕ) (c : Call) (s : Filesys) : Decidable (c.HashSafe k s) := by
  unfold Call.HashSafe; infer_instance

/-- The tree is coherent, and no read finds anything wrong. -/
structure Trusted (k : ℕ) (s : Filesys) : Prop where
  coherent : Coherent k s
  read : ∀ name offset count a, readFile name offset count s = .ok a → a.1 ≠ 3

section Calls

variable {w k : ℕ} {s s' : Filesys} {c : Call} {data : List UInt8}

theorem Coherent.trusted (hc : Coherent k s) (hpf : Perfect k s) : Trusted k s where
  coherent := hc
  read := fun _ _ _ _ hr => hc.readFile hpf hr

theorem Call.grows_congr {P Q : Ptr → ℕ → ℕ → Prop} (h : ∀ p ∈ s.live, ∀ length copy,
    copy ≤ (s.heap p).length → (s.heap p).length < length → (P p length copy ↔ Q p length copy)) :
    c.Grows P s ↔ c.Grows Q s := by
  cases c with
  | resize name length =>
    exact forall₂_congr fun p hp => forall₂_congr fun _ hlt => h p hp _ _ le_rfl hlt
  | write name offset count buf =>
    exact forall₂_congr fun p hp => forall₃_congr fun _ hoff hlt => h p hp _ _ hoff hlt
  | create name length => exact Iff.rfl
  | delete name => exact Iff.rfl
  | rename old new => exact Iff.rfl
  | repack => exact Iff.rfl
  | read name offset count => exact Iff.rfl
  | size name => exact Iff.rfl

/-- A successful call keeps the shape of the tree, and the tree coherent if and only if its
relocation leaves no block with another hash. -/
theorem exec_rehashed (hm : Mirror w s) (hL : Layout s) (hpf : Perfect k s) (hk : k ≤ 23)
    (hc : Coherent k s) (hsize : c.Sized) (hsafe : c.RepackSafe s)
    (hr : exec c s = .ok ((0, data), s')) :
    Perfect k s' ∧ (Coherent k s' ↔ c.Rehashes k s) := by
  have hfdl := hpf.fileDataLen_le31 hk
  have hkept : ∀ t : Filesys, t.file = s.file → t.hash = s.hash → t.leafOffset = s.leafOffset →
      Perfect k t ∧ Coherent k t := by
    intro t h1 h2 h3
    refine ⟨⟨?_, ?_, ?_⟩, hc.congr (block_of_file h1) h2⟩
    · rw [h1]
      exact hpf.file
    · rw [h2]
      exact hpf.hash
    · rw [h3]
      exact hpf.leafOffset
  have hsame : s' = s → Perfect k s' ∧ Coherent k s' := by
    rintro rfl
    exact ⟨hpf, hc⟩
  cases c with
  | create name length =>
    suffices h : Perfect k s' ∧ Coherent k s' from ⟨h.1, iff_of_true h.2 trivial⟩
    rcases createFile_post (code_post hr).1 with ⟨h0, -⟩ | ⟨h0, -⟩ | ⟨-, hl, hroom, hat⟩
    · cases h0
    · cases h0
    push Not at hroom
    have hle := hL.used_le hm (by omega)
    have hused := hL.total_eq hm
    refine createFileAt_coherent hm hL hpf hk hc (fun hpos hgap => ?_) hat
    have hsize' : length < 2 ^ 64 := hsize
    have hsafe' : CreatesSafely name length s := hsafe
    unfold CreatesSafely at hsafe'
    rw [hl, hgap] at hsafe'
    obtain ⟨i, o, ho, s₁, -, -, -, -, hoff, -⟩ := createFileAt_post hat
    have hlen := (newFileOffset_post hoff).1.1
    have hfit := hroom.1
    rw [toU64_of_nonneg (by omega) (by omega)] at hfit
    exact hsafe' hpos (by omega) hroom.2
  | resize name length =>
    rcases resizeFile_post (code_post hr).1 with ⟨h0, -⟩ | ⟨p, hl, ⟨h0, -⟩ | ⟨-, hadm, hcase⟩⟩
    · cases h0
    · cases h0
    have hp := (hm.liveOk.lookup hl).1
    have hgrows : (Call.resize name length).Rehashes k s ↔ ((s.heap p).length < length →
        Relocates p length s → Rehashed k p length (s.heap p).length s) := by
      refine ⟨fun h => h p hp hl, fun h q _ hq => ?_⟩
      obtain rfl : p = q := Option.some_inj.mp (Except.ok.inj (hl.symm.trans hq))
      exact h
    rw [hgrows]
    rcases hcase with ⟨hlen, h⟩ | ⟨-, hat⟩
    · exact ⟨(hsame h).1, iff_of_true (hsame h).2 fun hlt => absurd hlt (by omega)⟩
    · exact ⟨hpf.congr (resizeFileAt_liveOk hm.liveOk hp hat).2.shape,
        resizeFileAt_coherent_iff hm hL hpf hk hc hp hsize hadm hat⟩
  | write name offset count buf =>
    rcases writeFile_post (code_post hr).1 with
      ⟨h0, -⟩ | ⟨p, hl, ⟨h0, -⟩ | ⟨h0, -⟩ | ⟨-, hoff, hadm, hcase⟩⟩
    · cases h0
    · cases h0
    · cases h0
    have hp := (hm.liveOk.lookup hl).1
    have hgrows : (Call.write name offset count buf).Rehashes k s ↔
        ((s.heap p).length < offset + count → Relocates p (offset + count) s →
          Rehashed k p (offset + count) offset s) := by
      refine ⟨fun h => h p hp hl hoff, fun h q _ hq _ => ?_⟩
      obtain rfl : p = q := Option.some_inj.mp (Except.ok.inj (hl.symm.trans hq))
      exact h
    rw [hgrows]
    rcases hcase with ⟨h0, h⟩ | ⟨h0, hat⟩
    · exact ⟨(hsame h).1, iff_of_true (hsame h).2 fun hlt => absurd hlt (by omega)⟩
    · exact ⟨hpf.congr (writeFileAt_liveOk hm.liveOk hp hat).2.shape,
        writeFileAt_coherent_iff hm hL hpf hk hc hp hoff (by omega) hadm hat⟩
  | delete name =>
    suffices h : Perfect k s' ∧ Coherent k s' from ⟨h.1, iff_of_true h.2 trivial⟩
    rcases deleteFile_steps hm.liveOk (code_post hr).1 with ⟨h0, -⟩ | ⟨-, p, -, hd⟩
    · cases h0
    · rw [hd.eq]
      exact hkept _ rfl rfl rfl
  | rename old new =>
    suffices h : Perfect k s' ∧ Coherent k s' from ⟨h.1, iff_of_true h.2 trivial⟩
    rcases renameFile_post (code_post hr).1 with ⟨h, -⟩ | ⟨-, -, p, -, -, -, rfl⟩
    · exact hsame h
    · exact hkept _ rfl rfl rfl
  | repack =>
    have hat := (exec_repack_post hr).2
    have hs := (hL.searchable hm (by omega)).arranged
    exact ⟨hpf.congr (repack_liveOk hm.liveOk hat).2.shape,
      iff_of_true (repack_coherent hm hL hs hpf (by omega) hc hsafe hat) trivial⟩
  | read name offset count =>
    have h := hsame (exec_read_post hr).1
    exact ⟨h.1, iff_of_true h.2 trivial⟩
  | size name =>
    have h := hsame (exec_size_post hr).1
    exact ⟨h.1, iff_of_true h.2 trivial⟩

/-- Empty files at the sentinel leave room for every repack. -/
theorem Layout.repackSafe (hL : Layout s) (he : EmptyAtSentinel s) (hfdl : s.fileDataLen ≤ 2 ^ 32)
    (c : Call) : c.RepackSafe s := by
  have hroomy : Roomy 0 (exts s.heap s.oList.list) :=
    roomy_of_ranked _ _ (List.pairwise_map.mpr (hL.ranked he (hL.addressable hfdl)))
  cases c with
  | create name length =>
    show CreatesSafely name length s
    unfold CreatesSafely
    split
    · exact fun _ _ _ => hroomy
    · trivial
  | repack => exact hroomy
  | resize _ _ => trivial
  | write _ _ _ _ => trivial
  | delete _ => trivial
  | rename _ _ => trivial
  | read _ _ _ => trivial
  | size _ => trivial

/-- **Coherence.**  From a coherent tree over files laid out in order, a successful call leaves a
coherent tree, on which every read verifies, exactly when it hashes all blocks it changes. -/
theorem exec_trusted_iff (hm : Mirror w s) (hL : Layout s) (he : EmptyAtSentinel s)
    (hpf : Perfect k s) (hk : k ≤ 23) (hc : Coherent k s) (hsize : c.Sized)
    (hr : exec c s = .ok ((0, data), s')) : Trusted k s' ↔ c.HashSafe k s := by
  have hfdl := hpf.fileDataLen_le31 hk
  obtain ⟨hpf', hiff⟩ := exec_rehashed hm hL hpf hk hc hsize (hL.repackSafe he (by omega) c) hr
  have hsafe : c.HashSafe k s ↔ c.Rehashes k s :=
    Call.grows_congr fun p hp _ _ hcopy hgrow => growHashed_iff hm hL he hpf hk hp hcopy hgrow
  rw [hsafe, ← hiff]
  exact ⟨fun h => h.coherent, fun h => h.trusted hpf'⟩

end Calls

/-- A file of 300 bytes behind a gap of 10. -/
def gapFile : List UInt8 := zeros 10 ++ List.replicate 502 7

def gapFileDir : List UInt8 := [97] ++ zeros 63 ++ [10, 0, 0, 0, 44, 1, 0, 0]

/-- The tree over `gapFile` as `compute_hash_tree` leaves it. -/
theorem gapFile_hashed {s₀ s : Filesys} (hinit : initFs gapFile gapFileDir (zeros 48) = .ok s₀)
    (hpf : Perfect 1 s₀) (htree : computeHashTree s₀ = .ok s) :
    Mirror (nameLen - 1) s ∧ Layout s ∧ EmptyAtSentinel s ∧ Perfect 1 s ∧ Coherent 1 s := by
  have hw : WellFormed s₀ := by
    refine initFs_wellFormed ?_ ?_ ?_ hinit
    · unfold DistinctNames
      decide +kernel
    · unfold ExtentsInside
      decide +kernel
    · decide +kernel
  obtain ⟨t, ht, hf, hc⟩ := computeHashTree_right hpf (by decide)
  obtain rfl : s = t := Except.ok.inj (htree.symm.trans ht)
  refine ⟨hf.mirror hw.mirror, hf.layout hw.layout, fun p hp h0 => ?_, hpf.congr hf.kept.shape, hc⟩
  rw [hf.heap_file.1] at h0 ⊢
  exact hw.sentinel p (hf.kept.live ▸ hp) h0

set_option maxRecDepth 20000 in
/-- Growing the file by writing all of it anew takes no byte along. -/
theorem exec_trusted_iff_gap : ∃ s₀ s s', initFs gapFile gapFileDir (zeros 48) = .ok s₀ ∧
    computeHashTree s₀ = .ok s ∧
    exec (.write (.ofByte 97 (by decide)) 0 510 (List.replicate 510 1)) s = .ok ((0, []), s') ∧
    Trusted 1 s' := by
  obtain ⟨s₀, hinit, ⟨h1, h2, h3⟩, hrun⟩ := Run.holds_iff.mp
    (show Run.Holds (initFs gapFile gapFileDir (zeros 48)) (fun s₀ =>
      (s₀.file.length = 512 ∧ s₀.hash.length = 48 ∧ s₀.leafOffset = 1) ∧
      Run.Holds (computeHashTree s₀) fun s =>
        (Call.write (.ofByte 97 (by decide)) 0 510 (List.replicate 510 1)).HashSafe 1 s ∧
        Run.Holds (exec (.write (.ofByte 97 (by decide)) 0 510 (List.replicate 510 1)) s) fun r =>
          r.1 = (0, [])) by decide +kernel)
  obtain ⟨s, htree, hsafe, hrun⟩ := Run.holds_iff.mp hrun
  obtain ⟨⟨a, s'⟩, hr, rfl⟩ := Run.holds_iff.mp hrun
  obtain ⟨hm, hL, he, hpf, hc⟩ := gapFile_hashed hinit ⟨h1, h2, h3⟩ htree
  have hsize : (Call.write (.ofByte 97 (by decide)) 0 510 (List.replicate 510 1)).Sized :=
    ⟨by decide, by decide⟩
  exact ⟨s₀, s, s', hinit, htree, hr,
    (exec_trusted_iff hm hL he hpf (by decide) hc hsize hr).mpr hsafe⟩

set_option maxRecDepth 20000 in
/-- Growing the file keeps its 300 bytes and moves them to the start of `file_data`, and the first
byte can no longer be read. -/
theorem exec_trusted_fails : ¬ ∀ (w k : ℕ) (s s' : Filesys) (c : Call) (data : List UInt8),
    Mirror w s → Layout s → EmptyAtSentinel s → Perfect k s → k ≤ 23 → Coherent k s → c.Sized →
    exec c s = .ok ((0, data), s') → Trusted k s' := by
  intro h
  obtain ⟨s₀, hinit, ⟨h1, h2, h3⟩, hrun⟩ := Run.holds_iff.mp
    (show Run.Holds (initFs gapFile gapFileDir (zeros 48)) (fun s₀ =>
      (s₀.file.length = 512 ∧ s₀.hash.length = 48 ∧ s₀.leafOffset = 1) ∧
      Run.Holds (computeHashTree s₀) fun s =>
        Run.Holds (exec (.resize (.ofByte 97 (by decide)) 510) s) fun r => r.1 = (0, []) ∧
          Run.Holds (readFile (.ofByte 97 (by decide)) 0 1 r.2) fun a => a.1 = 3)
      by decide +kernel)
  obtain ⟨s, htree, hrun⟩ := Run.holds_iff.mp hrun
  obtain ⟨⟨a, s'⟩, hr, rfl, hread⟩ := Run.holds_iff.mp hrun
  obtain ⟨a, hread, ha⟩ := Run.holds_iff.mp hread
  obtain ⟨hm, hL, he, hpf, hc⟩ := gapFile_hashed hinit ⟨h1, h2, h3⟩ htree
  have hsize : (Call.resize (.ofByte 97 (by decide)) 510).Sized := by
    show 510 < 2 ^ 64
    decide
  exact (h _ 1 s s' _ [] hm hL he hpf (by decide) hc hsize hr).read _ _ _ a hread ha

end Vfs
