import VirtualFileSystem.Total
import VirtualFileSystem.Reopen

/-!
# All or nothing

In a well-formed state every call either refuses, with a non-zero code and nothing changed, or runs
to completion.  The admission checks at the top of a call are what the steps below them need.
-/

namespace Vfs

open FlatImage Extents

/-! ## Well-formed states -/

/-- Empty files are at the sentinel offset. -/
def EmptyAtSentinel (s : Filesys) : Prop :=
  ∀ p ∈ s.live, (s.heap p).length = 0 → (s.heap p).offset = maxFileDataLen

/-- The states `init_fs` builds from a directory of distinct names and disjoint extents inside
`file_data`: both arrays hold each live file once at its recorded position, in order of names and
of offsets, empty files are at the sentinel offset, and the directory and the counters agree. -/
structure WellFormed (s : Filesys) : Prop where
  mirror : Mirror (nameLen - 1) s
  layout : Layout s
  names : NameSorted s.heap s.nList.list
  sentinel : EmptyAtSentinel s

section WellFormed

variable {s s₀ : Filesys} {file dir hash : List UInt8}

theorem WellFormed.nameIndex (hw : WellFormed s) : NameIndex s :=
  hw.mirror.liveOk.nameIndex hw.names

/-- The offset of every file with bytes fits the 32-bit field it is read from. -/
def Addressable (s : Filesys) : Prop :=
  ∀ p ∈ s.live, 0 < (s.heap p).length → (s.heap p).offset < maxFileDataLen

theorem Layout.addressable (hL : Layout s) (hfdl : s.fileDataLen ≤ 2 ^ 32) : Addressable s := by
  intro p hp hpos
  have := (hL.inRange hfdl p hp).2 hpos
  unfold maxFileDataLen
  omega

theorem WellFormed.addressable (hw : WellFormed s) (hfdl : s.fileDataLen ≤ 2 ^ 32) :
    Addressable s := hw.layout.addressable hfdl

/-- Files with bytes come before empty ones in `o_list`. -/
theorem Layout.ranked (hL : Layout s) (he : EmptyAtSentinel s) (ha : Addressable s) :
    s.oList.list.Pairwise fun p q => 0 < (s.heap q).length → 0 < (s.heap p).length := by
  refine hL.lined.rel.imp_of_mem ?_
  intro p q hp hq hpq hpos
  by_contra h0
  have hp' := hL.live hp
  have hoff := he p hp' (Nat.eq_zero_of_not_pos h0)
  have hlt := ha q (hL.live hq) hpos
  have hle : (s.heap p).offset ≤ (s.heap q).offset := hpq.1
  omega

theorem WellFormed.ranked (hw : WellFormed s) (ha : Addressable s) :
    s.oList.list.Pairwise fun p q => 0 < (s.heap q).length → 0 < (s.heap p).length :=
  hw.layout.ranked hw.sentinel ha

/-- Empty files at the sentinel offset leave room for every repack. -/
theorem WellFormed.roomy_of (hw : WellFormed s) (ha : Addressable s) :
    Roomy 0 (exts s.heap s.oList.list) :=
  roomy_of_ranked _ _ (List.pairwise_map.mpr (hw.ranked ha))

theorem WellFormed.roomy (hw : WellFormed s) (hfdl : s.fileDataLen ≤ 2 ^ 32) :
    Roomy 0 (exts s.heap s.oList.list) := hw.roomy_of (hw.addressable hfdl)

theorem OffsetsLoaded.layout (hL : OffsetsLoaded s) (hin : InRange s)
    (hd : ∀ p ∈ s.live, ∀ q ∈ s.live, p ≠ q → (s.heap p).length ≠ 0 → (s.heap q).length ≠ 0 →
      (s.heap p).offset + (s.heap p).length ≤ (s.heap q).offset ∨
        (s.heap q).offset + (s.heap q).length ≤ (s.heap p).offset)
    (hnd : s.oList.list.Nodup) : Layout s where
  perm := hL.perm
  lined := by
    refine List.pairwise_map.mpr ((hL.ranked.and hnd).imp_of_mem ?_)
    rintro p q hp hq ⟨hr, hne⟩
    have hp' := hL.perm.mem_iff.mp hp
    have hq' := hL.perm.mem_iff.mp hq
    rcases Nat.eq_zero_or_pos (s.heap q).length with h0 | h0
    · refine ⟨?_, fun _ h => absurd h0 (Nat.pos_iff_ne_zero.mp h)⟩
      show (s.heap p).offset ≤ (s.heap q).offset
      rw [hL.empty q hq' h0]
      exact hL.le hp'
    · obtain ⟨hp0, hlt⟩ := hr (Nat.pos_iff_ne_zero.mp h0)
      refine ⟨hlt.le, fun _ _ => ?_⟩
      show (s.heap p).offset + (s.heap p).length ≤ (s.heap q).offset
      rcases hd p hp' q hq' hne hp0 (Nat.pos_iff_ne_zero.mp h0) with h | h
      · exact h
      · omega
  range := fun p hp => by
    rcases Nat.eq_zero_or_pos (s.heap p).length with h0 | h0
    · exact Or.inl ⟨hL.empty p hp h0, h0⟩
    · exact Or.inr ((hin p hp).2 h0)

/-- `init_fs` loads the used entries of the directory. -/
theorem initFs_loaded (hd : DistinctNames (dir.length / metaLen) dir)
    (hx : ExtentsDisjoint (dir.length / metaLen) dir) (hr : initFs file dir hash = .ok s₀) :
    ∃ n, ExtentsDisjoint n dir ∧ s₀.dir = dir ∧ Loaded (nameLen - 1) n s₀ ∧ OffsetsLoaded s₀ := by
  obtain ⟨-, n, hn, hsize, hr⟩ := initFs_post hr
  have hle : n ≤ dir.length / metaLen :=
    (Nat.le_div_iff_mul_le (by decide)).mpr (by rw [Nat.mul_comm]; exact hsize)
  have hd' : DirOk (nameLen - 1) n dir :=
    dirOk_of hsize (fun i hi j hj => hd i (hi.trans_le hle) j (hj.trans_le hle)) (Or.inl rfl)
  have hx' : ExtentsDisjoint n dir := fun i hi j hj => hx i (hi.trans_le hle) j (hj.trans_le hle)
  obtain ⟨s', hr', hdir, -, hl, hL⟩ := initLoop_induct (n := n)
    (s := initState file dir hash ⟨n, .offset, []⟩ ⟨n, .name, []⟩)
    (I := fun _ t => OffsetsLoaded t) rfl hd'
    (fun i s₁ s₂ hi hdir hl hL hls =>
      hls.offsetsLoaded hl hL (show ExtentsDisjoint n s₁.dir from hdir ▸ hx') hi)
    n 0 _ (Nat.zero_add n) rfl (Shape.refl _) (initState_loaded hn)
    ⟨List.Perm.nil, List.Pairwise.nil, by simp [initState], by simp [initState]⟩
  obtain rfl : s₀ = s' := Except.ok.inj (hr.symm.trans hr')
  exact ⟨n, hx', hdir, hl, hL⟩

theorem initFs_perfect {k : ℕ} (hk : k ≤ 24) (hfile : file.length = blockLen * 2 ^ k)
    (hhash : hash.length = hashLen * (2 ^ (k + 1) - 1)) (hr : initFs file dir hash = .ok s₀) :
    Perfect k s₀ := by
  rw [← initFs_images hr]
  refine ⟨hfile, hhash, ?_⟩
  have hpow : 2 ^ (k + 1) = 2 * 2 ^ k := by ring
  have hle := two_pow_le_of_le hk
  have hpos : 0 < 2 ^ k := Nat.two_pow_pos k
  have hnodes : hash.length / hashLen = 2 ^ (k + 1) - 1 := by
    rw [hhash]
    exact Nat.mul_div_cancel_left _ (by decide)
  unfold Filesys.over
  dsimp only
  rw [hnodes, toI32_of_bounds (by omega) (by omega), Int.tdiv_eq_ediv_of_nonneg (by omega), hpow,
    Nat.cast_sub (by omega)]
  push_cast
  omega

/-- `init_fs` builds a well-formed state. -/
theorem initFs_wellFormed (hd : DistinctNames (dir.length / metaLen) dir)
    (he : ExtentsInside (dir.length / metaLen) dir file.length)
    (hx : ExtentsDisjoint (dir.length / metaLen) dir)
    (hr : initFs file dir hash = .ok s₀) : WellFormed s₀ := by
  obtain ⟨hm, hin, -⟩ := initFs_mirror hd (Or.inl rfl) he hr
  obtain ⟨n, hx', hdir, hl, hL⟩ := initFs_loaded hd hx hr
  refine ⟨hm, hL.layout hin ?_ hl.liveOk.offsets.nodup, hl.sorted, hL.empty⟩
  -- the extents are those of the entries
  intro p hp q hq hne h0 h1
  have hlp := (hl.dir.entry p hp).length
  have hlq := (hl.dir.entry q hq).length
  have hup := hl.used p hp
  have huq := hl.used q hq
  rw [hdir] at hlp hlq hup huq
  rw [hL.stored p hp h0, hL.stored q hq h1, hdir, ← hlp, ← hlq]
  exact hx' _ (hl.dir.bound p hp) _ (hl.dir.bound q hq)
    (fun h => hne (hl.dir.inj p hp q hq h)) hup huq (hlp.symm ▸ h0) (hlq.symm ▸ h1)

/-- The offsets `init_fs` reads have 32 bits. -/
theorem initFs_addressable (hd : DistinctNames (dir.length / metaLen) dir)
    (hx : ExtentsDisjoint (dir.length / metaLen) dir) (hr : initFs file dir hash = .ok s₀) :
    Addressable s₀ := by
  obtain ⟨n, -, -, -, hL⟩ := initFs_loaded hd hx hr
  intro p hp hpos
  rw [hL.stored p hp hpos.ne']
  exact entryOffset_lt _

end WellFormed

/-! ## Calls that do not allocate -/

section Calls

variable {w k : ℕ} {s : Filesys} {p : Ptr} {name new : CString}

/-- Deleting a file that was found completes. -/
theorem deleteFile_found (hm : Mirror w s) (hL : Layout s) (hl : lookup name s = .ok (some p)) :
    ∃ s', deleteFile name s = .ok (0, s') := by
  obtain ⟨hp, -⟩ := hm.liveOk.lookup hl
  have hentry := hm.entry_le hp
  have hidx : (s.heap p).index < maxNumFiles :=
    (hm.dir.bound p hp).trans_le hm.counted.indexLen_le
  -- the counters do not matter to the arrays
  let s₀ : Filesys := { s with
    used := s.used - (s.heap p).length
    index := s.index.set (s.heap p).index 0
    indexCount := s.indexCount - 1 }
  have ho : ArrOk .offset s₀ := hm.liveOk.offsets.congr rfl rfl (fun _ => rfl) rfl
  have hn : ArrOk .name s₀ := hm.liveOk.names.congr rfl rfl (fun _ => rfl) rfl
  obtain ⟨arr, h, h1, hrem⟩ := removeAt_of (t := .offset) ho (hL.mem hp)
  have hpos : PosOnly s.oList.type s.heap h := hrem.posOnly
  rw [show s.oList.type = .offset from hm.liveOk.offsets.type_eq] at hpos
  have hn₁ : ArrOk .name (s₀.setArr .offset arr h) := hn.of_posOnly (by decide) hpos
  obtain ⟨arr', h', h2, -⟩ := removeAt_of (t := .name) hn₁ (hm.liveOk.perm.mem_iff.mpr hp)
  unfold deleteFile
  rw [hl, Run.ok_bind]
  dsimp only
  rw [show (s.heap p).oIndex = (s₀.heap p).pos .offset from rfl, h1, Run.ok_bind]
  rw [show ∀ t : Filesys, (t.heap p).nIndex = (t.heap p).pos .name from fun _ => rfl, h2,
    Run.ok_bind]
  have hwrite : writeNullByte (((s₀.setArr .offset arr h).setArr .name arr' h').dir)
      ((metaLen * (s.heap p).index : ℕ) : ℤ) 1 =
        .ok (splice s.dir (metaLen * (s.heap p).index) [0]) := by
    unfold writeNullByte
    rw [if_neg (by decide), Run.assert_of, Run.ok_bind]
    · apply memWrite_of
      show metaLen * (s.heap p).index + 1 ≤ s.dir.length
      unfold metaLen at *
      omega
    · unfold maxFileDataLen metaLen maxNumFiles at *
      omega
  rw [hwrite]
  exact ⟨_, rfl⟩

/-- Deleting completes. -/
theorem deleteFile_total (hm : Mirror w s) (hL : Layout s) (name : CString) :
    ∃ r s', deleteFile name s = .ok (r, s') ∧ (r ≠ 0 → s' = s) := by
  obtain ⟨r, hl⟩ := lookup_total name s
  cases r with
  | none =>
    unfold deleteFile
    rw [hl]
    exact ⟨1, s, rfl, fun _ => rfl⟩
  | some p =>
    obtain ⟨s', hr⟩ := deleteFile_found hm hL hl
    exact ⟨0, s', hr, fun h => absurd rfl h⟩

/-- Renaming completes. -/
theorem renameFile_total (hm : Mirror w s) (name new : CString) :
    ∃ r s', renameFile name new s = .ok (r, s') ∧ (r ≠ 0 → s' = s) := by
  unfold renameFile
  obtain ⟨r, hl⟩ := lookup_total name s
  rw [hl, Run.ok_bind]
  cases r with
  | none => exact ⟨1, s, rfl, fun _ => rfl⟩
  | some p =>
    dsimp only
    by_cases he : name = new
    · rw [if_pos he]
      exact ⟨0, s, rfl, fun _ => rfl⟩
    rw [if_neg he]
    obtain ⟨r, hl'⟩ := lookup_total new s
    rw [hl', Run.ok_bind]
    cases r with
    | some q => exact ⟨1, s, rfl, fun _ => rfl⟩
    | none =>
      obtain ⟨hp, -⟩ := hm.liveOk.lookup hl
      have hentry := hm.entry_le hp
      have hlen := new.toFileName.length_lt
      obtain ⟨s', hdir⟩ : ∃ s', updateDirName ((updateFileName new p s).heap p)
          (updateFileName new p s) = .ok s' := by
        refine ⟨_, writeDir_eq_ok.mpr ⟨?_, rfl⟩⟩
        simp only [updateFileName, Heap.set_self, List.length_append, List.length_singleton]
        unfold metaLen nameLen at *
        omega
      dsimp only
      rw [hdir, Run.ok_bind]
      exact ⟨0, s', rfl, fun h => absurd rfl h⟩

/-- Reading completes. -/
theorem readFile_total (hm : Mirror w s) (hL : Layout s) (hpf : Perfect k s) (hk : k ≤ 23)
    (name : CString) {offset count : ℕ} (ho : offset < 2 ^ 63) (hc : count < 2 ^ 63) :
    ∃ a, readFile name offset count s = .ok a := by
  unfold readFile
  obtain ⟨r, hl⟩ := lookup_total name s
  rw [hl, Run.ok_bind]
  cases r with
  | none => exact ⟨_, rfl⟩
  | some p =>
    dsimp only
    obtain ⟨hp, -⟩ := hm.liveOk.lookup hl
    have hk31 := hpf.fileDataLen_le31 hk
    have hlen := hm.counted.length_lt p hp
    have hsum : toU64 ((offset : ℤ) + count) = offset + count := by
      rw [toU64_of_nonneg (by omega) (by omega)]
      omega
    rw [hsum]
    by_cases hgt : offset + count > (s.heap p).length
    · rw [if_pos hgt]
      exact ⟨_, rfl⟩
    rw [if_neg hgt]
    rcases Nat.eq_zero_or_pos count with rfl | hpos
    · have hv : ∀ b, verifyHashRange b (toI64 ((0 : ℕ) : ℤ)) s = .ok 0 := fun b => by
        unfold verifyHashRange
        rw [if_pos (by decide)]
        rfl
      rw [hv, Run.ok_bind, if_neg (by decide), if_pos rfl]
      exact ⟨_, rfl⟩
    · have hin : (s.heap p).offset + (s.heap p).length ≤ s.fileDataLen := by
        rcases hL.range p hp with ⟨-, h⟩ | h
        · omega
        · exact h
      obtain ⟨r, hv, -, -⟩ := verifyHashRange_spec (o := (s.heap p).offset + offset) (l := count)
        hpf (by omega) (by unfold Filesys.fileDataLen at hin; omega) (fun _ => by omega)
      have e1 : toI64 ((s.heap p).offset + offset) = ((s.heap p).offset + offset : ℕ) := by
        rw [toI64_of_bounds (by omega) (by omega)]
        rfl
      have e2 : toU64 ((s.heap p).offset + offset) = (s.heap p).offset + offset := by
        rw [toU64_of_nonneg (by omega) (by omega)]
        omega
      rw [e1, e2, toI64_of_lt (by omega), hv, Run.ok_bind]
      by_cases h0 : r ≠ 0
      · rw [if_pos h0]
        exact ⟨_, rfl⟩
      · rw [if_neg h0, if_neg hpos.ne', memRead_of (by unfold Filesys.fileDataLen at hin; omega)]
        exact ⟨_, rfl⟩

theorem repack_total (hm : Mirror w s) (hL : Layout s) (hpf : Perfect k s) (hk : k ≤ 24) :
    ∃ s', repack s = .ok s' := by
  have hfdl := hpf.fileDataLen_le hk
  obtain ⟨ho, s₁, h1, hho⟩ := repackHelper_total (hL.reachable hm hfdl)
  have hf := repackHelper_frame h1
  have hle := hL.used_le hm hfdl
  have hfile : s₁.file.length = s.fileDataLen := hf.file_length
  unfold repack
  rw [h1, Run.ok_bind]
  dsimp only
  by_cases hneg : ho ≥ 0
  · rw [if_pos hneg, hf.used]
    obtain ⟨s', h2, -⟩ := computeHashBlockRange_total (hpf.congr hf.kept.shape) hk hneg
      (show ho + (s.used - ho) ≤ s₁.file.length by omega)
    exact ⟨s', h2⟩
  · rw [if_neg hneg]
    exact ⟨s₁, rfl⟩

end Calls

/-! ## Calls that check the space -/

section Space

variable {w k : ℕ} {s : Filesys}

/-- Creating completes. -/
theorem createFile_total (hm : Mirror w s) (hL : Layout s) (hpf : Perfect k s) (hk : k ≤ 23)
    {name : CString} (hne : name.bytes ≠ []) {length : ℕ} (hlen : length < 2 ^ 63) :
    ∃ r s', createFile name length s = .ok (r, s') ∧ (r ≠ 0 → s' = s) := by
  have hk31 := hpf.fileDataLen_le31 hk
  have hle := hL.used_le hm (by omega)
  have hused := hL.total_eq hm
  unfold createFile
  obtain ⟨r, hl⟩ := lookup_total name s
  rw [hl, Run.ok_bind]
  cases r with
  | some p => exact ⟨1, s, rfl, fun _ => rfl⟩
  | none =>
    have hsum : toU64 (s.used + length) = (s.used + length).toNat :=
      toU64_of_nonneg (by omega) (by omega)
    dsimp only
    rw [hsum]
    by_cases hfull : (s.used + length).toNat > s.fileDataLen ∨ s.indexCount ≥ s.indexLen
    · rw [if_pos hfull]
      exact ⟨2, s, rfl, fun _ => rfl⟩
    · obtain ⟨s', hr, -⟩ := createFileAt_total hm hL hpf (by omega) hne hl
        (show s.used + length ≤ s.fileDataLen by omega) (by omega) (by omega)
      rw [if_neg hfull, hr]
      exact ⟨0, s', rfl, fun h => absurd rfl h⟩

/-- Resizing completes. -/
theorem resizeFile_total (hm : Mirror w s) (hL : Layout s) (hpf : Perfect k s) (hk : k ≤ 23)
    (name : CString) {length : ℕ} (hlen : length < 2 ^ 64) :
    ∃ r s', resizeFile name length s = .ok (r, s') ∧ (r ≠ 0 → s' = s) := by
  have hk31 := hpf.fileDataLen_le31 hk
  have hle := hL.used_le hm (by omega)
  have hused := hL.total_eq hm
  unfold resizeFile
  obtain ⟨r, hl⟩ := lookup_total name s
  rw [hl, Run.ok_bind]
  cases r with
  | none => exact ⟨1, s, rfl, fun _ => rfl⟩
  | some p =>
    obtain ⟨hp, -⟩ := hm.liveOk.lookup hl
    have hold : (s.heap p).length ≤ totalLength s.heap s.oList.list :=
      length_le_totalLength (hL.mem hp)
    dsimp only
    by_cases hfull : toU64 (s.used + length - (s.heap p).length) > s.fileDataLen
    · rw [if_pos hfull]
      exact ⟨2, s, rfl, fun _ => rfl⟩
    rw [if_neg hfull]
    by_cases he : length = (s.heap p).length
    · rw [if_pos he]
      exact ⟨0, s, rfl, fun _ => rfl⟩
    · obtain ⟨s', hr⟩ : ∃ s', resizeFileAt p length s = .ok s' := by
        by_cases hwrap : s.used + length - (s.heap p).length < 2 ^ 64
        · rw [toU64_of_nonneg (by omega) hwrap] at hfull
          obtain ⟨s', hr, -⟩ := resizeFileAt_total hm hL hpf (by omega) hp
            (show length < 2 ^ 32 + (s.heap p).length by omega) (by omega)
          exact ⟨s', hr⟩
        · exact resizeFileAt_total_wrapped hm hL hpf (by omega) hp hlen (by omega)
      rw [if_neg he, hr]
      exact ⟨0, s', rfl, fun h => absurd rfl h⟩

/-- Writing completes. -/
theorem writeFile_total (hm : Mirror w s) (hL : Layout s) (hpf : Perfect k s) (hk : k ≤ 23)
    (name : CString) {offset count : ℕ} {buf : List UInt8} (ho : offset < 2 ^ 63)
    (hc : count < 2 ^ 63) (hbuf : count ≤ buf.length) :
    ∃ r s', writeFile name offset count buf s = .ok (r, s') ∧ (r ≠ 0 → s' = s) := by
  have hk31 := hpf.fileDataLen_le31 hk
  have hle := hL.used_le hm (by omega)
  have hused := hL.total_eq hm
  unfold writeFile
  obtain ⟨r, hl⟩ := lookup_total name s
  rw [hl, Run.ok_bind]
  cases r with
  | none => exact ⟨1, s, rfl, fun _ => rfl⟩
  | some p =>
    obtain ⟨hp, -⟩ := hm.liveOk.lookup hl
    have hold : (s.heap p).length ≤ totalLength s.heap s.oList.list :=
      length_le_totalLength (hL.mem hp)
    dsimp only
    by_cases hgap : offset > (s.heap p).length
    · rw [if_pos hgap]
      exact ⟨2, s, rfl, fun _ => rfl⟩
    have hsum : toU64 (s.used + offset + count - (s.heap p).length) =
        (s.used + offset + count - (s.heap p).length).toNat :=
      toU64_of_nonneg (by omega) (by omega)
    rw [if_neg hgap, hsum]
    by_cases hfull : (s.used + offset + count - (s.heap p).length).toNat > s.fileDataLen
    · rw [if_pos hfull]
      exact ⟨3, s, rfl, fun _ => rfl⟩
    rw [if_neg hfull]
    by_cases h0 : count = 0
    · rw [if_pos h0]
      exact ⟨0, s, rfl, fun _ => rfl⟩
    · obtain ⟨s', hr⟩ := writeFileAt_total hm hL hpf (by omega) hp (not_lt.mp hgap) hbuf
        (Nat.pos_of_ne_zero h0) (by omega) (by push_cast; omega)
      rw [if_neg h0, hr]
      exact ⟨0, s', rfl, fun h => absurd rfl h⟩

end Space

/-! ## Every call -/

/-- Numeric arguments below `2 ^ 63`, and a write buffer that holds its bytes. -/
def Call.InBounds : Call → Prop
  | .create _ length | .resize _ length => length < 2 ^ 63
  | .write _ offset count buf => offset < 2 ^ 63 ∧ count < 2 ^ 63 ∧ count ≤ buf.length
  | .read _ offset count => offset < 2 ^ 63 ∧ count < 2 ^ 63
  | .delete _ | .rename _ _ | .repack | .size _ => True

instance decidableInBounds : ∀ c : Call, Decidable c.InBounds
  | .create _ _ | .resize _ _ => inferInstanceAs (Decidable (_ < _))
  | .write _ _ _ _ => inferInstanceAs (Decidable (_ ∧ _ ∧ _))
  | .read _ _ _ => inferInstanceAs (Decidable (_ ∧ _))
  | .delete _ | .rename _ _ | .repack | .size _ => .isTrue trivial

section Exec

variable {w k : ℕ} {s : Filesys}

/-- A call that returns a code only. -/
theorem code_total {m : Run (ℤ × Filesys)} (h : ∃ r s', m = .ok (r, s') ∧ (r ≠ 0 → s' = s)) :
    ∃ a s', (do let (r, t) ← m; pure ((r, []), t) : Run (Answer × Filesys)) = .ok (a, s') ∧
      (a.1 ≠ 0 → s' = s) := by
  obtain ⟨r, s', rfl, h⟩ := h
  exact ⟨_, _, rfl, h⟩

/-- A call on a state with a right layout completes, and refuses without a change. -/
theorem exec_total {c : Call} (hm : Mirror w s) (hL : Layout s) (hpf : Perfect k s) (hk : k ≤ 23)
    (hn : c.Named) (hb : c.InBounds) :
    ∃ a s', exec c s = .ok (a, s') ∧ (a.1 ≠ 0 → s' = s) := by
  cases c with
  | create name length =>
    exact code_total (createFile_total hm hL hpf hk (hn name (by simp [Call.names])) hb)
  | resize name length =>
    exact code_total (resizeFile_total hm hL hpf hk name (hb.trans (by decide)))
  | write name offset count buf =>
    exact code_total (writeFile_total hm hL hpf hk name hb.1 hb.2.1 hb.2.2)
  | delete name => exact code_total (deleteFile_total hm hL name)
  | rename old new => exact code_total (renameFile_total hm old new)
  | repack =>
    obtain ⟨s', hr⟩ := repack_total hm hL hpf (by omega)
    refine ⟨(0, []), s', ?_, fun h => absurd rfl h⟩
    show (repack s >>= fun s => pure ((0, []), s) : Run (Answer × Filesys)) = _
    rw [hr]
    rfl
  | read name offset count =>
    obtain ⟨a, hr⟩ := readFile_total hm hL hpf hk name hb.1 hb.2
    refine ⟨a, s, ?_, fun _ => rfl⟩
    show (readFile name offset count s >>= fun x => pure ((x.1, x.2), s) : Run _) = _
    rw [hr]
    rfl
  | size name =>
    obtain ⟨r, hl⟩ := lookup_total name s
    show ∃ a s', (fileSize name s >>= fun r => pure ((r, []), s) : Run (Answer × Filesys)) =
      .ok (a, s') ∧ _
    unfold fileSize
    rw [hl]
    cases r with
    | none => exact ⟨_, s, rfl, fun _ => rfl⟩
    | some p => exact ⟨_, s, rfl, fun _ => rfl⟩

end Exec

/-- **All or nothing.**  On a well-formed state with at most `2 ^ 31` bytes and a perfect tree, a
call completes, with no assertion failing and every access inside its mapping; with a non-zero code
it leaves the state as it was. -/
theorem exec_allOrNothing {k : ℕ} {s : Filesys} {c : Call} (hw : WellFormed s)
    (hpf : Perfect k s) (hfdl : s.fileDataLen ≤ 2 ^ 31) (hn : c.Named) (hb : c.InBounds) :
    ∃ a s', exec c s = .ok (a, s') ∧ (a.1 ≠ 0 → s' = s) := by
  have hk : k ≤ 23 := by
    by_contra hcon
    have : 2 ^ 24 ≤ 2 ^ k := Nat.pow_le_pow_right (by omega) (by omega)
    rw [hpf.fileDataLen] at hfdl
    omega
  exact exec_total hw.mirror hw.layout hpf hk hn hb

set_option maxRecDepth 20000 in
/-- A directory with the file `a` of ten bytes, and a write that grows it. -/
theorem exec_allOrNothing_write : ∃ s a s',
    initFs (zeros 256) ([97] ++ zeros 67 ++ [10, 0, 0, 0] ++ zeros 72) (zeros 16) = .ok s ∧
      exec (.write (.ofByte 97 (by decide)) 5 6 [1, 2, 3, 4, 5, 6]) s = .ok (a, s') ∧
      (a.1 ≠ 0 → s' = s) := by
  obtain ⟨s, hinit, hfile, hhash, hleaf⟩ := Run.holds_iff.mp
    (show Run.Holds (initFs (zeros 256) ([97] ++ zeros 67 ++ [10, 0, 0, 0] ++ zeros 72) (zeros 16))
      (fun s => s.file.length = 256 ∧ s.hash.length = 16 ∧ s.leafOffset = 0) by decide +kernel)
  have hw : WellFormed s := by
    apply initFs_wellFormed _ _ _ hinit
    · unfold DistinctNames
      decide +kernel
    · unfold ExtentsInside
      decide +kernel
    · decide +kernel
  have hpf : Perfect 0 s := ⟨hfile, hhash, hleaf⟩
  have hfdl : s.fileDataLen ≤ 2 ^ 31 := by
    unfold Filesys.fileDataLen
    omega
  obtain ⟨a, s', hr, h⟩ := exec_allOrNothing hw hpf hfdl
    (c := .write (.ofByte 97 (by decide)) 5 6 [1, 2, 3, 4, 5, 6]) (by decide) (by decide)
  exact ⟨s, a, s', hinit, hr, h⟩

end Vfs
