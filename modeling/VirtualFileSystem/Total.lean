import VirtualFileSystem.LayoutRun
import VirtualFileSystem.Tree

/-!
# Every step completes

On a state with a right layout and a mirrored directory no assertion of a step fires and no access
leaves a mapping, once the admission check of the call has passed: the steps of allocation,
repacking, growth and hashing are total.
-/

namespace Vfs

open FlatImage Extents

/-! ## Repacking -/

/-- The bytes and the directory entry of each of these files are inside the mappings. -/
def Reachable (s : Filesys) (l : List Ptr) : Prop :=
  ∀ p ∈ l, metaLen * (s.heap p).index + metaLen ≤ s.dir.length ∧
    (0 < (s.heap p).length → (s.heap p).offset + (s.heap p).length ≤ s.file.length)

section Repack

variable {s s' : Filesys} {p : Ptr} {l : List Ptr} {new : ℕ} {ho : ℤ}

theorem updateDirOffset_total {f : FileT}
    (hdir : metaLen * f.index + metaLen ≤ s.dir.length) : ∃ s', updateDirOffset f s = .ok s' := by
  rw [updateDirOffset_eq]
  refine ⟨_, writeDir_eq_ok.mpr ⟨?_, rfl⟩⟩
  rw [length_dirOffsetBytes]
  unfold nameLen metaLen at *
  omega

/-- A move to a lower offset completes. -/
theorem repackMove_total (hr : Reachable s l) (hp : p ∈ l) (hnew : toU32 new ≤ (s.heap p).offset) :
    ∃ s', repackMove p new s = .ok s' := by
  obtain ⟨hdir, hfile⟩ := hr p hp
  have hmove : ∃ file, (if (s.heap p).length > 0 then do
      let data ← memRead s.file (s.heap p).offset (s.heap p).length
      memWrite s.file (toU32 new) data
    else pure s.file : Run (List UInt8)) = .ok file := by
    by_cases h0 : (s.heap p).length > 0
    · have hin := hfile h0
      rw [if_pos h0, memRead_of hin, Run.ok_bind]
      refine ⟨_, memWrite_of ?_⟩
      rw [length_slice_of_le hin]
      omega
    · rw [if_neg h0]
      exact ⟨s.file, rfl⟩
  obtain ⟨file, hf⟩ := hmove
  unfold repackMove
  simp only
  rw [hf, Run.ok_bind]
  apply updateDirOffset_total
  simpa [updateFileOffset] using hdir

theorem repackMove_reachable (hr : Reachable s l) (hp : p ∈ l)
    (hnew : toU32 new ≤ (s.heap p).offset) (hm : repackMove p new s = .ok s') :
    Reachable s' l ∧ s'.file.length = s.file.length := by
  obtain ⟨file, rfl, hdir, h0, h1⟩ := repackMove_post hm
  have hlen : file.length = s.file.length := by
    rcases Nat.eq_zero_or_pos (s.heap p).length with hz | hz
    · rw [h0 hz]
    · obtain ⟨⟨hb1, hb2⟩, rfl⟩ := h1 hz
      exact length_splice (by rw [length_slice_of_le hb1]; exact hb2)
  have hdlen : (splice s.dir (metaLen * (s.heap p).index + nameLen)
      (le32 (toU32 new))).length = s.dir.length := length_splice (by simpa using hdir)
  refine ⟨?_, hlen⟩
  intro q hq
  obtain ⟨h2, h3⟩ := hr q hq
  simp only [hlen, hdlen]
  by_cases hqp : q = p
  · subst hqp
    rw [Heap.set_self]
    exact ⟨h2, fun h => by have := h3 h; simp only; omega⟩
  · rw [Heap.set_of_ne _ _ hqp]
    exact ⟨h2, h3⟩

/-- The loop completes, and what it returns is the offset it was given or one in `file_data`. -/
theorem repackLoop_total : ∀ (ps : List Ptr) (prev : Ptr) (ho : ℤ) (s : Filesys), Reachable s l →
    (∀ p ∈ ps, p ∈ l) → ∃ ho' s', repackLoop prev ps ho s = .ok (ho', s') ∧
      (ho' = ho ∨ 0 ≤ ho' ∧ ho' < s.file.length) := by
  intro ps
  induction ps with
  | nil => exact fun prev ho s _ _ => ⟨ho, s, rfl, Or.inl rfl⟩
  | cons p ps ih =>
    intro prev ho s hr hsub
    have hp := hsub p List.mem_cons_self
    have hps : ∀ q ∈ ps, q ∈ l := fun q hq => hsub q (List.mem_cons_of_mem _ hq)
    simp only [repackLoop]
    by_cases h1 : (s.heap p).offset ≥ maxFileDataLen
    · rw [if_pos h1]
      exact ⟨ho, s, rfl, Or.inl rfl⟩
    rw [if_neg h1]
    by_cases h2 : (s.heap p).offset > toU64 ((s.heap prev).offset + (s.heap prev).length)
    · rw [if_pos h2]
      have hle : toU32 (toU64 ((s.heap prev).offset + (s.heap prev).length) : ℕ) ≤
          (s.heap p).offset := by
        unfold toU32
        omega
      obtain ⟨s₁, hm⟩ := repackMove_total hr hp hle
      obtain ⟨hr₁, hlen⟩ := repackMove_reachable hr hp hle hm
      rw [hm, Run.ok_bind]
      obtain ⟨ho', s', hl, hb⟩ := ih p (if ho < 0 ∧ (s₁.heap p).length ≠ 0 then
        ((s₁.heap p).offset : ℤ) else ho) s₁ hr₁ hps
      refine ⟨ho', s', hl, ?_⟩
      rw [hlen] at hb
      split_ifs at hb with hc
      · -- the file moved is not empty, so it lies in `file_data`
        have hin := (hr₁ p hp).2 (Nat.pos_of_ne_zero hc.2)
        right
        omega
      · exact hb
    · rw [if_neg h2]
      exact ih p ho s hr hps

/-- A repack of reachable files completes; the offset it returns, if any, is in `file_data`. -/
theorem repackHelper_total (hr : Reachable s s.oList.list) :
    ∃ ho s', repackHelper s = .ok (ho, s') ∧ (ho = -1 ∨ 0 ≤ ho ∧ ho < s.file.length) := by
  unfold repackHelper
  cases hl : s.oList.list with
  | nil => exact ⟨-1, s, rfl, Or.inl rfl⟩
  | cons p ps =>
    rw [hl] at hr
    simp only
    have hp : p ∈ p :: ps := List.mem_cons_self
    have hps : ∀ q ∈ ps, q ∈ p :: ps := fun q hq => List.mem_cons_of_mem _ hq
    by_cases h1 : s.used ≤ 0
    · rw [if_pos h1]
      exact ⟨-1, s, rfl, Or.inl rfl⟩
    rw [if_neg h1]
    by_cases h2 : (s.heap p).offset > 0
    · rw [if_pos h2]
      have hle : toU32 (0 : ℕ) ≤ (s.heap p).offset := by simp [toU32]
      obtain ⟨s₁, hm⟩ := repackMove_total hr hp hle
      obtain ⟨hr₁, hlen⟩ := repackMove_reachable hr hp hle hm
      rw [hm, Run.ok_bind]
      obtain ⟨ho', s', hloop, hb⟩ :=
        repackLoop_total ps p (if (s₁.heap p).length ≠ 0 then 0 else -1) s₁ hr₁ hps
      refine ⟨ho', s', hloop, ?_⟩
      rw [hlen] at hb
      split_ifs at hb with hc
      · have hin := (hr₁ p hp).2 (Nat.pos_of_ne_zero hc)
        right
        omega
      · exact hb
    · rw [if_neg h2]
      exact repackLoop_total ps p _ s hr hps

end Repack

/-! ## Allocation -/

section Allocate

variable {w k : ℕ} {s s₁ s' : Filesys} {p : Ptr} {length o : ℕ} {ho : ℤ}

theorem Mirror.entry_le (hm : Mirror w s) (hp : p ∈ s.live) :
    metaLen * (s.heap p).index + metaLen ≤ s.dir.length :=
  metaLen_mul_le hm.dir.size (hm.dir.bound p hp)

theorem Layout.reachable (hL : Layout s) (hm : Mirror w s) (hfdl : s.fileDataLen ≤ 2 ^ 32) :
    Reachable s s.oList.list := fun p hp =>
  ⟨hm.entry_le (hL.live hp), (hL.inRange hfdl p (hL.live hp)).2⟩

/-- With room in the directory there is a free slot. -/
theorem newFileIndex_total (hc : Counted s) (hroom : s.indexCount < s.indexLen) :
    ∃ i, newFileIndex s = .ok i := by
  have hlt : s.live.length < s.indexLen := by
    have := hc.count
    omega
  have hfree : ∃ b ∈ s.index, b = 0 := by
    by_contra hcon
    -- otherwise every slot is taken, by distinct files
    have hsub : (List.range s.indexLen).Subperm (s.live.map fun p => (s.heap p).index) := by
      refine List.nodup_range.subperm fun i hi => ?_
      rcases hc.slot i (List.mem_range.mp hi) with ⟨-, p, hp, rfl⟩ | ⟨h0, -⟩
      · exact List.mem_map_of_mem hp
      · exact absurd ⟨0, List.mem_of_getElem? h0, rfl⟩ hcon
    have := hsub.length_le
    rw [List.length_range, List.length_map] at this
    omega
  unfold newFileIndex
  cases hf : s.index.findIdx? (· = 0) with
  | some i => exact ⟨i, rfl⟩
  | none =>
    obtain ⟨b, hb, hb0⟩ := hfree
    rw [List.findIdx?_eq_none_iff] at hf
    simpa [hb0] using hf b hb

theorem newFileOffset_total (hm : Mirror w s) (hL : Layout s) (hfdl : s.fileDataLen ≤ 2 ^ 32)
    (hroom : s.used + length ≤ s.fileDataLen) (ho : ℤ) :
    ∃ o ho' s', newFileOffset length ho s = .ok (o, ho', s') ∧
      (ho' = ho ∨ ho' = -1 ∨ 0 ≤ ho' ∧ ho' < s.file.length) ∧
      (0 < length → o + length ≤ s.fileDataLen) := by
  have hused := hL.total_eq hm
  unfold newFileOffset
  rw [Run.assert_of (by omega), Run.ok_bind, Run.assert_of, Run.ok_bind]
  · by_cases h0 : length = 0
    · rw [if_pos h0]
      exact ⟨_, _, _, rfl, Or.inl rfl, by omega⟩
    rw [if_neg h0]
    obtain ⟨r, hr, hfree⟩ := findGap_spec (hL.searchable hm hfdl) (show length ≤ _ by omega)
    rw [hr, Run.ok_bind]
    cases r with
    | some o => exact ⟨_, _, _, rfl, Or.inl rfl, fun _ => (hfree o rfl).2⟩
    | none =>
      obtain ⟨ho', s', hrep, hho⟩ := repackHelper_total (hL.reachable hm hfdl)
      have hused' : s'.used = s.used := (repackHelper_frame hrep).used
      simp only [hrep, Run.ok_bind]
      refine ⟨_, _, _, rfl, Or.inr hho, fun _ => ?_⟩
      rw [hused', toU64_of_nonneg (by omega) (by omega)]
      omega
  · rw [toU64_of_nonneg (by omega) (by omega)]
    omega

theorem writeDirFile_total {f : FileT} (hdir : metaLen * f.index + metaLen ≤ s.dir.length) :
    ∃ s', writeDirFile f s = .ok s' := by
  have hname := f.name.length_lt
  unfold writeDirFile updateDirName updateDirLength
  have h1 : writeDir f 0 (f.name.bytes ++ [0]) s = .ok { s with
      dir := splice s.dir (metaLen * f.index + 0) (f.name.bytes ++ [0]) } := by
    refine writeDir_eq_ok.mpr ⟨?_, rfl⟩
    simp only [List.length_append, List.length_singleton]
    unfold nameLen metaLen at *
    omega
  have hlen : (splice s.dir (metaLen * f.index + 0) (f.name.bytes ++ [0])).length =
      s.dir.length := by
    apply length_splice
    simp only [List.length_append, List.length_singleton]
    unfold nameLen metaLen at *
    omega
  rw [h1, Run.ok_bind]
  obtain ⟨s₂, h2⟩ := updateDirOffset_total (f := f) (s := { s with
    dir := splice s.dir (metaLen * f.index + 0) (f.name.bytes ++ [0]) }) (by rw [hlen]; exact hdir)
  rw [h2, Run.ok_bind]
  rw [updateDirOffset_eq] at h2
  obtain ⟨hb, rfl⟩ := writeDir_eq_ok.mp h2
  refine ⟨_, writeDir_eq_ok.mpr ⟨?_, rfl⟩⟩
  show _ ≤ (splice _ _ _).length
  rw [length_splice hb, hlen, length_le32]
  unfold nameLen offsetLen metaLen at *
  omega

theorem writeNullFile_total {b c : ℤ} (hb : 0 ≤ b) (hin : 0 < c → b + c ≤ s.file.length)
    (hc : c < 2 ^ 32) (hfdl : s.fileDataLen ≤ 2 ^ 32) : ∃ s', writeNullFile b c s = .ok s' := by
  unfold writeNullFile writeNullByte
  unfold Filesys.fileDataLen at hfdl
  by_cases h0 : c ≤ 0
  · rw [if_pos h0]
    exact ⟨_, rfl⟩
  · have hin := hin (by omega)
    rw [if_neg h0, Run.assert_of (by unfold maxFileDataLen; omega), Run.ok_bind]
    have hw : memWrite s.file b (List.replicate c.toNat 0) =
        .ok (splice s.file b.toNat (List.replicate c.toNat 0)) := by
      rw [memWrite_eq_ok, List.length_replicate]
      exact ⟨by omega, rfl⟩
    rw [hw]
    exact ⟨_, rfl⟩

/-- Hashing a range that ends inside `file_data` completes. -/
theorem computeHashBlockRange_total (hp : Perfect k s) (hk : k ≤ 24) {b c : ℤ} (hb : 0 ≤ b)
    (hin : b + c ≤ s.file.length) :
    ∃ s', computeHashBlockRange b c s = .ok s' ∧ s'.used = s.used := by
  rcases le_or_gt c 0 with hc | hc
  · exact ⟨s, computeHashBlockRange_nonpos hc s, rfl⟩
  · obtain ⟨b, rfl⟩ := Int.eq_ofNat_of_zero_le hb
    obtain ⟨c, rfl⟩ := Int.eq_ofNat_of_zero_le hc.le
    obtain ⟨s', hr⟩ := computeHashBlockRange_of (o := b) (l := c) hp hk (by omega)
    exact ⟨s', hr, by rw [(computeHashBlockRange_frame hr).eq]⟩

end Allocate

/-! ## Creating -/

section Create

variable {w k : ℕ} {s : Filesys} {length : ℕ}

/-- A creation completes once the name is new and there are room and a slot. -/
theorem createFileAt_total {name : CString} (hm : Mirror w s) (hL : Layout s) (hp : Perfect k s)
    (hk : k ≤ 24) (hne : name.bytes ≠ []) (hl : lookup name s = .ok none)
    (hroom : s.used + length ≤ s.fileDataLen) (hlen : length < 2 ^ 32)
    (hslot : s.indexCount < s.indexLen) :
    ∃ s', createFileAt name length s = .ok s' ∧ s'.used = s.used + length := by
  have hfdl : s.fileDataLen ≤ 2 ^ 32 := by
    have := two_pow_le_of_le hk
    rw [hp.fileDataLen]
    omega
  obtain ⟨i, hi⟩ := newFileIndex_total hm.counted hslot
  obtain ⟨o, ho, s₁, hoff, hho, hin⟩ := newFileOffset_total hm hL hfdl hroom (-1)
  have hf := newFileOffset_frame hoff
  have hs₁ := hf.liveOk hm.liveOk
  have hlive : s₁.live.length < s₁.indexLen := by
    have hcount := hm.counted.count
    rw [hf.kept.live, hf.kept.shape.indexLen]
    omega
  obtain ⟨s₂, s₃, h2, h3⟩ := register_total hs₁ hlive name.toFileName o (toU32 length) i
  have hsearch := insert_of_lookup_none hm.liveOk hf hne hl o (toU32 length) i
  have hreg := registered_post hs₁ hsearch h2 h3
  have hilt : i < s.indexLen := by
    rw [← hm.counted.index_length]
    exact (List.getElem?_eq_some_iff.mp (newFileIndex_post hi)).1
  have hentry : metaLen * (s₃.heap s₁.next).index + metaLen ≤ s₃.dir.length := by
    have hdir : s₃.dir = s₁.dir := by rw [hreg.eq]
    rw [hreg.new.2.2.2, hdir, hf.dir_length]
    exact metaLen_mul_le hm.dir.size hilt
  obtain ⟨s₄, h4⟩ := writeDirFile_total hentry
  have hcr := created_post hs₁ hsearch h2 h3 h4
  unfold createFileAt
  rw [hi, Run.ok_bind, hoff, Run.ok_bind]
  dsimp only [fileInit] at h2 ⊢
  rw [h2, Run.ok_bind, h3, Run.ok_bind, h4, Run.ok_bind]
  by_cases h0 : length > 0
  · have hin := hin h0
    have hused := hL.total_eq hm
    rw [if_pos h0, toI64_of_lt (show o < 2 ^ 63 by omega),
      toI64_of_lt (show length < 2 ^ 63 by omega)]
    have hp₄ := hp.congr (hf.kept.shape.trans hcr.shape)
    have hfile : ({ s₄ with index := s₄.index.set i 1
                            indexCount := s₄.indexCount + 1 } : Filesys).file.length =
        s.fileDataLen := (hf.kept.shape.trans hcr.shape).file
    obtain ⟨s₅, h5⟩ := @writeNullFile_total _ (o : ℤ) (length : ℤ) (Int.natCast_nonneg o)
      (fun _ => by rw [hfile]; exact_mod_cast hin) (by omega)
      (show Filesys.fileDataLen _ ≤ _ from hfile.trans_le hfdl)
    rw [h5, Run.ok_bind]
    have hs₅ := writeNullFile_liveOk hcr.liveOk h5
    have hp₅ : Perfect k { s₅ with used := toI64 (s₅.used + length) } :=
      hp₄.congr (hs₅.2.shape.trans (Kept.used _ s₅).shape)
    have hfile₅ : s₅.file.length = s.fileDataLen := hs₅.2.shape.file.trans hfile
    have hused₅ : s₅.used = s.used :=
      (writeNullFile_used h5).trans (hcr.used.trans hf.used)
    have hadd : toI64 (s₅.used + length) = s.used + length := by
      rw [hused₅, toI64_of_bounds (by omega) (by omega)]
    rw [hadd] at hp₅
    rw [hadd]
    by_cases hneg : ho ≥ 0
    · rw [if_pos hneg]
      apply computeHashBlockRange_total hp₅ hk hneg
      show _ ≤ ((s₅.file.length : ℕ) : ℤ)
      omega
    · rw [if_neg hneg]
      apply computeHashBlockRange_total hp₅ hk (Int.natCast_nonneg o)
      show _ ≤ ((s₅.file.length : ℕ) : ℤ)
      omega
  · rw [if_neg h0]
    refine ⟨_, rfl, (hcr.used.trans hf.used).trans ?_⟩
    omega

end Create

/-! ## Growing -/

section Grow

variable {w k : ℕ} {s s₁ s₂ s' : Filesys} {p : Ptr} {length copy o : ℕ} {ho : ℤ}

/-- What the growth of a file returns: an offset in `file_data` or `-1`, and a place in `file_data`,
with room when the sum of the lengths fits. -/
structure GrownIn (p : Ptr) (length : ℕ) (s : Filesys) (ho : ℤ) (s' : Filesys) : Prop where
  hashOffset : ho = -1 ∨ 0 ≤ ho ∧ ho < s.file.length
  start_le : (s'.heap p).offset ≤ s.fileDataLen
  room : s.used + length ≤ s.fileDataLen + (s.heap p).length →
    (s'.heap p).offset + length ≤ s.fileDataLen
  used : s'.used = s.used

theorem Reachable.takenOut (hr : Reachable s s.oList.list) (ht : TakenOut p s s₁) :
    Reachable s₁ s₁.oList.list := by
  intro q hq
  rw [ht.list] at hq
  have hsame := ht.posOnly.same q
  have hdir : s₁.dir = s.dir := by rw [ht.eq]
  have hfile : s₁.file = s.file := by rw [ht.eq]
  rw [hsame.2.1, hsame.2.2.1, hsame.2.2.2, hdir, hfile]
  exact hr q (List.mem_of_mem_erase hq)

/-- A file that is out of the array is put back. -/
theorem place_total (hs : LiveOk s) (hp : p ∈ s.live) (hpo : p ∉ s.oList.list)
    (hdir : metaLen * (s.heap p).index + metaLen ≤ s.dir.length)
    (hroom : s.live.length ≤ s.indexLen) (o : ℕ) : ∃ s₁ s',
      updateDirOffset ((updateFileOffset o p s).heap p) (updateFileOffset o p s) = .ok s₁ ∧
      sortedInsert .offset p s₁ = .ok s' ∧ Placed p o s s' := by
  have hentry : metaLen * ((updateFileOffset o p s).heap p).index + metaLen ≤
      (updateFileOffset o p s).dir.length := by simpa [updateFileOffset] using hdir
  obtain ⟨s₁, h1⟩ := updateDirOffset_total hentry
  have hok : ArrOk .offset (updateFileOffset o p s) :=
    hs.offsets.congr rfl rfl (fun q => (offsetOnly_set s.heap p o).pos .offset q) rfl
  have h1' := h1
  rw [updateDirOffset_eq, writeDir_eq_ok] at h1'
  have hok₁ : ArrOk .offset s₁ := by
    rw [h1'.2]
    exact hok.congr rfl rfl (fun _ => rfl) rfl
  have hlist : s₁.oList = s.oList := by rw [h1'.2]; rfl
  have hcap : s₁.oList.list.length < s₁.oList.capacity := by
    have hlt := hs.offsets.length_lt hp hpo
    have hc : s.oList.capacity = s.indexLen := hs.offsets.capacity
    rw [hlist, hc]
    exact hlt.trans_le hroom
  obtain ⟨s', h2⟩ := sortedInsert_total hok₁ (show p ∉ s₁.oList.list by rwa [hlist]) hcap
  exact ⟨s₁, s', h1, h2, placed_post hs.offsets hp hpo h1 h2⟩

/-- A file taken out is put back after a repack of the others, whatever bytes were copied. -/
theorem TakenOut.putBack_total (ht : TakenOut p s s₁) (hm : Mirror w s) (hp : p ∈ s.live)
    (hf : RepackFrame s₁ s₂) (file : List UInt8) (o : ℕ) :
    ∃ s₃ s', updateDirOffset ((updateFileOffset o p { s₂ with file := file }).heap p)
        (updateFileOffset o p { s₂ with file := file }) = .ok s₃ ∧
      sortedInsert .offset p s₃ = .ok s' ∧ Placed p o { s₂ with file := file } s' := by
  have hlive : s₂.live = s.live := hf.kept.live.trans ht.kept.live
  have hidx : (s₂.heap p).index = (s.heap p).index :=
    (hf.offsetOnly.index p).trans (ht.kept.index p)
  have hdir : s₂.dir.length = s.dir.length := hf.dir_length.trans ht.kept.shape.dir
  have hlen : s₂.indexLen = s.indexLen := hf.kept.shape.indexLen.trans ht.kept.shape.indexLen
  have hlist : s₂.oList = s₁.oList := by rw [hf.eq]
  apply place_total ((hf.liveOk (ht.liveOk hm.liveOk)).file file)
  · show p ∈ s₂.live
    rwa [hlive]
  · show p ∉ s₂.oList.list
    rw [hlist]
    exact ht.not_mem hm.liveOk.offsets
  · show metaLen * (s₂.heap p).index + metaLen ≤ s₂.dir.length
    rw [hidx, hdir]
    exact hm.entry_le hp
  · show s₂.live.length ≤ s₂.indexLen
    rw [hlive, hlen]
    exact hm.counted.live_le

theorem takenOut_total (hm : Mirror w s) (hL : Layout s) (hp : p ∈ s.live) :
    ∃ s₁, removeAt .offset (s.heap p).oIndex s = .ok s₁ ∧ TakenOut p s s₁ := by
  obtain ⟨arr, h, hrem, hremoved⟩ := removeAt_of hm.liveOk.offsets (hL.mem hp)
  exact ⟨_, hrem, takenOut_of_removed hm.liveOk.offsets hremoved⟩

/-- Growing a file that was never moved into `file_data` completes. -/
theorem growNewFile_total (hm : Mirror w s) (hL : Layout s) (hfdl : s.fileDataLen ≤ 2 ^ 32)
    (hp : p ∈ s.live) (hge : (s.heap p).offset ≥ maxFileDataLen) :
    ∃ ho s', growNewFile p length s = .ok (ho, s') ∧ GrownIn p length s ho s' := by
  have h0 : (s.heap p).length = 0 := hL.sentinelEmpty hfdl p (hL.mem hp) hge
  have hused := hL.total_eq hm
  have hle := hL.used_le hm hfdl
  obtain ⟨s₁, hrem, ht⟩ := takenOut_total hm hL hp
  -- the place is the start of `file_data`, or behind the repacked files
  have hkeep : ∃ s₃ s', updateDirOffset ((updateFileOffset 0 p s₁).heap p)
      (updateFileOffset 0 p s₁) = .ok s₃ ∧ sortedInsert .offset p s₃ = .ok s' ∧
      GrownIn p length s (-1) s' := by
    obtain ⟨s₃, s', h3, h4, hpl⟩ := ht.putBack_total hm hp (RepackFrame.refl s₁) s₁.file 0
    have hstart : (s'.heap p).offset = 0 := hpl.same_self.2.1
    refine ⟨s₃, s', h3, h4, Or.inl rfl, by omega, fun _ => by omega, ?_⟩
    rw [hpl.eq]
    exact ht.used
  unfold growNewFile
  rw [hrem, Run.ok_bind]
  cases hn : findNextNonzeroFile 0 s₁.oList s₁.heap with
  | none =>
    obtain ⟨s₃, s', h3, h4, hg⟩ := hkeep
    simp only [Run.pure_eq, Run.ok_bind, h3, h4]
    exact ⟨_, _, rfl, hg⟩
  | some q =>
    simp only
    by_cases hlt : (s₁.heap q).offset < length
    · obtain ⟨ho, s₂, hrep, hho⟩ := repackHelper_total ((hL.reachable hm hfdl).takenOut ht)
      have hf := repackHelper_frame hrep
      have hused₂ : s₂.used = s.used := hf.used.trans ht.used
      obtain ⟨s₃, s', h3, h4, hpl⟩ := ht.putBack_total hm hp hf s₂.file (toU64 s₂.used)
      rw [if_pos hlt, hrep]
      simp only [Run.pure_eq, Run.ok_bind, h3, h4]
      have hstart : ((s'.heap p).offset : ℤ) = s.used := by
        rw [hpl.same_self.2.1]
        show ((toU64 s₂.used : ℕ) : ℤ) = _
        rw [hused₂, toU64_of_nonneg (by omega) (by omega)]
        omega
      refine ⟨_, _, rfl, ?_, by omega, fun _ => by omega, ?_⟩
      · rwa [ht.kept.shape.file] at hho
      · rw [hpl.eq]
        exact hused₂
    · obtain ⟨s₃, s', h3, h4, hg⟩ := hkeep
      rw [if_neg hlt]
      simp only [Run.pure_eq, Run.ok_bind, h3, h4]
      exact ⟨_, _, rfl, hg⟩

/-- Relocating a file with no more bytes than it has completes. -/
theorem relocateFile_total (hm : Mirror w s) (hL : Layout s) (hfdl : s.fileDataLen ≤ 2 ^ 32)
    (hp : p ∈ s.live) (hlt : (s.heap p).offset < maxFileDataLen)
    (hcopy : copy ≤ (s.heap p).length) :
    ∃ ho s', relocateFile p copy s = .ok (ho, s') ∧ GrownIn p length s ho s' := by
  have hin : (s.heap p).offset + (s.heap p).length ≤ s.fileDataLen := by
    rcases hL.range p hp with ⟨h, -⟩ | h
    · omega
    · exact h
  have hused : (totalLength s.heap (s.oList.list.erase p) : ℤ) = s.used - (s.heap p).length :=
    hL.total_erase hm hp
  have hle := hL.used_le hm hfdl
  obtain ⟨s₁, hrem, ht⟩ := takenOut_total hm hL hp
  obtain ⟨ho, s₂, hrep, hho⟩ := repackHelper_total ((hL.reachable hm hfdl).takenOut ht)
  have hf := repackHelper_frame hrep
  have hfile : s₂.file.length = s.fileDataLen := hf.file_length.trans ht.kept.shape.file
  have hread : memRead s.file (s.heap p).offset copy =
      .ok (slice s.file (s.heap p).offset copy) := by
    apply memRead_of
    unfold Filesys.fileDataLen at hin
    omega
  have htemp : (slice s.file (s.heap p).offset copy).length = copy := by
    apply length_slice_of_le
    unfold Filesys.fileDataLen at hin
    omega
  generalize slice s.file (s.heap p).offset copy = temp at hread htemp
  have hstart : s₂.used - (s.heap p).length =
      (totalLength s.heap (s.oList.list.erase p) : ℤ) := by
    rw [hf.used, ht.used, hused]
  have hwrite : memWrite s₂.file (s₂.used - (s.heap p).length) temp =
      .ok (splice s₂.file (totalLength s.heap (s.oList.list.erase p)) temp) := by
    rw [hstart]
    apply memWrite_of
    omega
  generalize splice s₂.file (totalLength s.heap (s.oList.list.erase p)) temp = file at hwrite
  obtain ⟨s₃, s', h3, h4, hpl⟩ := ht.putBack_total hm hp hf file
    (toU64 (s₂.used - (s.heap p).length))
  have hplace : ((s'.heap p).offset : ℤ) = s.used - (s.heap p).length := by
    rw [hpl.same_self.2.1]
    show ((toU64 (s₂.used - (s.heap p).length) : ℕ) : ℤ) = _
    rw [hstart, toU64_of_nonneg (by omega) (by omega)]
    omega
  refine ⟨ho, s', ?_, ?_, by omega, fun _ => by omega, ?_⟩
  · unfold relocateFile
    simp only [hread, hrem, hrep, hwrite, h3, h4, Run.pure_eq, Run.ok_bind]
  · rwa [ht.kept.shape.file] at hho
  · rw [hpl.eq]
    exact hf.used.trans ht.used

/-- Growing a file completes, at a place in `file_data`. -/
theorem makeRoom_total (hm : Mirror w s) (hL : Layout s) (hfdl : s.fileDataLen ≤ 2 ^ 32)
    (hp : p ∈ s.live) (hcopy : copy ≤ (s.heap p).length) :
    ∃ ho s', makeRoom p length copy s = .ok (ho, s') ∧ GrownIn p length s ho s' := by
  unfold makeRoom
  by_cases hge : (s.heap p).offset ≥ maxFileDataLen
  · rw [if_pos hge]
    exact growNewFile_total hm hL hfdl hp hge
  rw [if_neg hge]
  by_cases hreq : repackRequired p length s
  · rw [if_pos hreq]
    exact relocateFile_total hm hL hfdl hp (not_le.mp hge) hcopy
  · rw [if_neg hreq]
    obtain ⟨A, B, hAB⟩ := List.append_of_mem (hL.mem hp)
    have hroom := (inPlace_room hm hL hfdl hAB (not_le.mp hge) hreq).1
    exact ⟨-1, s, rfl, Or.inl rfl, by omega, fun _ => hroom, rfl⟩

theorem resizeFileHelper_total (hm : Mirror w s) (hL : Layout s) (hfdl : s.fileDataLen ≤ 2 ^ 32)
    (hp : p ∈ s.live) (hcopy : copy ≤ (s.heap p).length) :
    ∃ ho s', resizeFileHelper p length copy s = .ok (ho, s') ∧
      (ho = -1 ∨ 0 ≤ ho ∧ ho < s.file.length) ∧
      s'.used = toI64 (s.used + (length - (s.heap p).length)) ∧
      ((s.heap p).length < length → (s'.heap p).offset ≤ s.fileDataLen ∧
        (s.used + length ≤ s.fileDataLen + (s.heap p).length →
          (s'.heap p).offset + length ≤ s.fileDataLen)) := by
  have hused := hL.total_eq hm
  have hle := hL.used_le hm hfdl
  have hput : ∀ s₁, Kept s s₁ → ∃ s₂,
      updateDirLength ((updateFileLength length p s₁).heap p) (updateFileLength length p s₁) =
        .ok s₂ ∧ (s₂.heap p).offset = (s₁.heap p).offset ∧ s₂.used = s₁.used := by
    intro s₁ hk
    have hle : metaLen * (s₁.heap p).index + metaLen ≤ s₁.dir.length := by
      rw [hk.index, hk.shape.dir]
      exact hm.entry_le hp
    refine ⟨_, writeDir_eq_ok.mpr ⟨?_, rfl⟩, ?_, rfl⟩
    · simp only [updateFileLength, Heap.set_self, length_le32]
      unfold metaLen nameLen offsetLen at *
      omega
    · simp [updateFileLength]
  unfold resizeFileHelper
  dsimp only
  by_cases hgt : length > (s.heap p).length
  · obtain ⟨ho, s₁, h1, hg⟩ := @makeRoom_total w s p length copy hm hL hfdl hp hcopy
    obtain ⟨s₂, h2, ho₂, hu₂⟩ := hput s₁ (makeRoom_liveOk hm.liveOk hp h1).2
    rw [if_pos hgt, h1, Run.ok_bind]
    simp only [if_pos hgt.ne', h2, Run.ok_bind]
    refine ⟨ho, _, rfl, hg.hashOffset, ?_, fun _ => ?_⟩
    · show toI64 _ = _
      rw [hu₂, hg.used]
    · show (s₂.heap p).offset ≤ _ ∧ (_ → (s₂.heap p).offset + length ≤ _)
      rw [ho₂]
      exact ⟨hg.start_le, hg.room⟩
  · rw [if_neg hgt, Run.pure_eq, Run.ok_bind]
    by_cases hne : length ≠ (s.heap p).length
    · obtain ⟨s₂, h2, -, hu₂⟩ := hput s (Kept.refl s)
      simp only [if_pos hne, h2, Run.ok_bind]
      refine ⟨-1, _, rfl, Or.inl rfl, ?_, fun h => absurd h hgt⟩
      show toI64 _ = _
      rw [hu₂]
    · simp only [if_neg hne]
      refine ⟨-1, s, rfl, Or.inl rfl, ?_, fun h => absurd h hgt⟩
      rw [toI64_of_bounds (by omega) (by omega)]
      omega

theorem resizeFileAt_total (hm : Mirror w s) (hL : Layout s) (hpf : Perfect k s) (hk : k ≤ 24)
    (hp : p ∈ s.live) (hlen : length < 2 ^ 32 + (s.heap p).length)
    (hroom : s.used + length ≤ s.fileDataLen + (s.heap p).length) :
    ∃ s', resizeFileAt p length s = .ok s' ∧ s'.used = s.used + length - (s.heap p).length := by
  have hfdl := hpf.fileDataLen_le hk
  obtain ⟨ho, s₁, h1, hho, hused₁, hin⟩ :=
    @resizeFileHelper_total _ s p length _ hm hL hfdl hp (le_refl (s.heap p).length)
  replace hused₁ : s₁.used = s.used + length - (s.heap p).length := by
    have hused := hL.total_eq hm
    have hle := hL.used_le hm hfdl
    have hold : (s.heap p).length ≤ totalLength s.heap s.oList.list :=
      length_le_totalLength (hL.mem hp)
    rw [hused₁, toI64_of_bounds (by omega) (by omega)]
    omega
  unfold resizeFileAt
  dsimp only
  rw [h1, Run.ok_bind]
  by_cases hgt : length > (s.heap p).length
  · replace hin := (hin hgt).2 hroom
    obtain ⟨hs₁, hk₁⟩ := resizeFileHelper_liveOk hm.liveOk hp h1
    have hfile : s₁.file.length = s.fileDataLen := hk₁.shape.file
    have hfdl' : s.file.length = s.fileDataLen := rfl
    have e1 : toI64 ((s₁.heap p).offset + (s.heap p).length) =
        (s₁.heap p).offset + (s.heap p).length := toI64_of_bounds (by omega) (by omega)
    have e2 : toI64 ((length : ℤ) - (s.heap p).length) = length - (s.heap p).length :=
      toI64_of_bounds (by omega) (by omega)
    simp only [if_pos hgt]
    rw [e1, e2]
    obtain ⟨s₂, h2⟩ := @writeNullFile_total s₁ ((s₁.heap p).offset + (s.heap p).length)
      (length - (s.heap p).length) (by omega) (fun _ => by omega) (by omega)
      (hfile.trans_le hfdl)
    have hk₂ := (writeNullFile_liveOk hs₁ h2).2
    have hp₂ : Perfect k s₂ := (hpf.congr hk₁.shape).congr hk₂.shape
    have hfile₂ : s₂.file.length = s.fileDataLen := hk₂.shape.file.trans hfile
    rw [h2, Run.ok_bind, ← hused₁, ← writeNullFile_used h2]
    by_cases hneg : ho ≥ 0
    · rw [if_pos hneg, toI64_of_bounds (by omega) (by omega)]
      exact computeHashBlockRange_total hp₂ hk hneg (by omega)
    · rw [if_neg hneg]
      exact computeHashBlockRange_total hp₂ hk (by omega) (by omega)
  · simp only [if_neg hgt]
    exact ⟨s₁, rfl, hused₁⟩

/-- A sum that wraps passes the check, and the change of the length completes as well: the counts
of null bytes and of bytes to hash are negative. -/
theorem resizeFileAt_total_wrapped (hm : Mirror w s) (hL : Layout s) (hpf : Perfect k s)
    (hk : k ≤ 24) (hp : p ∈ s.live) (hlen : length < 2 ^ 64)
    (hwrap : 2 ^ 64 ≤ s.used + length - (s.heap p).length) :
    ∃ s', resizeFileAt p length s = .ok s' := by
  have hfdl := hpf.fileDataLen_le hk
  have hle := hL.used_le hm hfdl
  have hold := hm.counted.length_lt p hp
  obtain ⟨ho, s₁, h1, hho, -, hin⟩ :=
    @resizeFileHelper_total _ s p length _ hm hL hfdl hp (le_refl (s.heap p).length)
  replace hin := (hin (by omega)).1
  have hgt : length > (s.heap p).length := by omega
  have hk₁ := (resizeFileHelper_liveOk hm.liveOk hp h1).2
  have hfile : s₁.file.length = s.fileDataLen := hk₁.shape.file
  have hfdl' : s.file.length = s.fileDataLen := rfl
  have e1 : toI64 ((s₁.heap p).offset + (s.heap p).length) =
      (s₁.heap p).offset + (s.heap p).length := toI64_of_bounds (by omega) (by omega)
  have e2 : toI64 ((length : ℤ) - (s.heap p).length) = length - (s.heap p).length - 2 ^ 64 :=
    toI64_of_wrapped (by omega) (by omega)
  have hnull : writeNullFile ((s₁.heap p).offset + (s.heap p).length)
      (length - (s.heap p).length - 2 ^ 64) s₁ = .ok s₁ := by
    unfold writeNullFile writeNullByte
    rw [if_pos (by omega)]
    rfl
  have hp₁ : Perfect k s₁ := hpf.congr hk₁.shape
  unfold resizeFileAt
  dsimp only
  rw [h1, Run.ok_bind]
  simp only [if_pos hgt]
  rw [e1, e2, hnull, Run.ok_bind]
  by_cases hneg : ho ≥ 0
  · rw [if_pos hneg, toI64_of_wrapped (by omega) (by omega)]
    obtain ⟨s', hr, -⟩ := computeHashBlockRange_total hp₁ hk hneg
      (show ho + (((s₁.heap p).offset : ℤ) + length - ho - 2 ^ 64) ≤ s₁.file.length by omega)
    exact ⟨s', hr⟩
  · rw [if_neg hneg]
    obtain ⟨s', hr, -⟩ := computeHashBlockRange_total hp₁ hk
      (show (0 : ℤ) ≤ (s₁.heap p).offset + (s.heap p).length by omega)
      (show ((s₁.heap p).offset : ℤ) + (s.heap p).length +
        (length - (s.heap p).length - 2 ^ 64) ≤ s₁.file.length by omega)
    exact ⟨s', hr⟩

/-- A write completes; `file_data_len` is at most `2 ^ 31`, as the offset of the first byte
repacked is kept in 32 bits. -/
theorem writeFileAt_total {offset count : ℕ} {buf : List UInt8} (hm : Mirror w s) (hL : Layout s)
    (hpf : Perfect k s) (hk : k ≤ 24) (hp : p ∈ s.live) (hoff : offset ≤ (s.heap p).length)
    (hbuf : count ≤ buf.length) (hpos : 0 < count) (hlt : offset + count < 2 ^ 64)
    (hroom : s.used + (offset + count : ℕ) ≤ s.fileDataLen + (s.heap p).length) :
    ∃ s', writeFileAt p offset count buf s = .ok s' := by
  have hfdl := hpf.fileDataLen_le hk
  have hfdl' : s.file.length = s.fileDataLen := rfl
  have hused := hL.total_eq hm
  have hold : (s.heap p).length ≤ totalLength s.heap s.oList.list :=
    length_le_totalLength (hL.mem hp)
  have hsum : toU64 ((offset : ℤ) + count) = offset + count := by
    rw [toU64_of_nonneg (by omega) (by omega)]
    omega
  -- the place of the bytes, and the offset of the first byte repacked
  have hplace : ∃ ho s₁, (if toU64 ((offset : ℤ) + count) > (s.heap p).length then
        resizeFileHelper p (toU64 ((offset : ℤ) + count)) offset s
      else pure (-1, s) : Run (ℤ × Filesys)) = .ok (ho, s₁) ∧
      (ho = -1 ∨ 0 ≤ ho ∧ ho < s.file.length) ∧
      (s₁.heap p).offset + (offset + count) ≤ s.fileDataLen ∧ Shape s s₁ ∧
      (0 ≤ ho → s₁.used ≤ s.fileDataLen) := by
    rw [hsum]
    by_cases hgt : offset + count > (s.heap p).length
    · obtain ⟨ho, s₁, h1, hho, hused₁, hin⟩ :=
        @resizeFileHelper_total _ s p (offset + count) _ hm hL (by omega) hp hoff
      rw [toI64_of_bounds (by omega) (by omega)] at hused₁
      rw [if_pos hgt]
      exact ⟨ho, s₁, h1, hho, (hin hgt).2 hroom,
        (resizeFileHelper_liveOk hm.liveOk hp h1).2.shape, fun _ => by omega⟩
    · rw [if_neg hgt]
      refine ⟨-1, s, rfl, Or.inl rfl, ?_, Shape.refl s, by omega⟩
      rcases hL.range p hp with ⟨-, h⟩ | h
      · omega
      · omega
  obtain ⟨ho, s₁, h1, hho, hin, hsh, hused₁⟩ := hplace
  have hfile : s₁.file.length = s.fileDataLen := hsh.file
  have hdata : memRead buf 0 count = .ok (slice buf 0 count) :=
    @memRead_of buf 0 count (by omega)
  have hdlen : (slice buf 0 count).length = count := length_slice_of_le (by omega)
  have hwrite : memWrite s₁.file (((s₁.heap p).offset + offset : ℕ) : ℤ) (slice buf 0 count) =
      .ok (splice s₁.file ((s₁.heap p).offset + offset) (slice buf 0 count)) :=
    memWrite_of (by omega)
  have hlen := memWrite_length hwrite
  generalize splice s₁.file ((s₁.heap p).offset + offset) (slice buf 0 count) = file at hwrite hlen
  have hpf₁ : Perfect k { s₁ with file := file } :=
    (hpf.congr hsh).congr (Kept.file hlen).shape
  unfold writeFileAt
  rw [h1, Run.ok_bind]
  simp only [hdata, hwrite, Run.ok_bind]
  by_cases hneg : toI32 ho ≥ 0
  · -- from `2 ^ 31` on the offset would be negative in 32 bits
    have e1 : toI32 ho = ho := toI32_of_nonneg (by omega) (by omega) hneg
    rw [if_pos hneg, e1]
    rw [e1] at hneg
    have := hused₁ hneg
    obtain ⟨s', h2, -⟩ := computeHashBlockRange_total hpf₁ (by omega) hneg
      (show ho + (s₁.used - ho) ≤ (file.length : ℤ) by omega)
    exact ⟨s', h2⟩
  · rw [if_neg hneg, toI64_of_bounds (by omega) (by omega), toI64_of_bounds (by omega) (by omega)]
    obtain ⟨s', h2, -⟩ := computeHashBlockRange_total hpf₁ (by omega)
      (show (0 : ℤ) ≤ (s₁.heap p).offset + offset by omega)
      (show ((s₁.heap p).offset : ℤ) + offset + count ≤ (file.length : ℤ) by omega)
    exact ⟨s', h2⟩

end Grow

end Vfs
