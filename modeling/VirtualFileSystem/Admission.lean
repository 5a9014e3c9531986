import VirtualFileSystem.AllOrNothing

/-!
# Admission of a new length

`create_file` and `resize_file` compare a 64-bit sum with `file_data_len`.  The comparison is exact
unless the sum wraps; and a length of `2 ^ 32`, which one file alone may pass with, is stored in 32
bits as zero.
-/

namespace Vfs

open FlatImage Extents

/-! ## What an exact admission is -/

/-- A live file has the name. -/
def NameTaken (name : CString) (s : Filesys) : Prop :=
  ∃ p ∈ s.live, (s.heap p).name = name.toFileName

/-- After a call that returned `0`: `file_size` answers with the length, and the files fit. -/
def Accounted (name : CString) (length : ℕ) (s : Filesys) : Prop :=
  fileSize name s = .ok length ∧ s.used = totalLength s.heap s.live ∧ s.used ≤ s.fileDataLen

/-- `create_file` returns 2 exactly when the name is new and the sum of the lengths exceeds
`file_data_len` or the directory is full. -/
structure CreateExact (name : CString) (length : ℕ) (s : Filesys) : Prop where
  refuses : (∃ s', createFile name length s = .ok (2, s')) ↔
    ¬ NameTaken name s ∧ (s.fileDataLen < s.used + length ∨ s.indexLen ≤ s.live.length)
  accepts : ∀ s', createFile name length s = .ok (0, s') → Accounted name length s'

/-- `resize_file` returns 2 exactly when the file exists and the sum of the lengths exceeds
`file_data_len`. -/
structure ResizeExact (name : CString) (length : ℕ) (s : Filesys) : Prop where
  refuses : (∃ s', resizeFile name length s = .ok (2, s')) ↔
    ∃ p ∈ s.live, (s.heap p).name = name.toFileName ∧
      s.fileDataLen < s.used - (s.heap p).length + length
  accepts : ∀ s', resizeFile name length s = .ok (0, s') → Accounted name length s'

/-- The sum of the lengths is below `2 ^ 64`, unless a file of the name or a full directory keeps
it from mattering. -/
def CreateFits (name : CString) (length : ℕ) (s : Filesys) : Prop :=
  NameTaken name s ∨ s.indexLen ≤ s.live.length ∨ s.used + length < 2 ^ 64

/-- The sum of the lengths is below `2 ^ 64`, and not a non-empty file that is alone in
`file_data` of `2 ^ 32` bytes is to fill it. -/
def ResizeFits (name : CString) (length : ℕ) (s : Filesys) : Prop :=
  ∀ p ∈ s.live, (s.heap p).name = name.toFileName →
    s.used - (s.heap p).length + length < 2 ^ 64 ∧
    ¬ (length = 2 ^ 32 ∧ s.fileDataLen = 2 ^ 32 ∧ 0 < (s.heap p).length ∧
      s.used = (s.heap p).length)

section Admission

variable {k : ℕ} {s s' : Filesys} {name : CString} {length : ℕ} {p : Ptr}

theorem WellFormed.lookup_some (hw : WellFormed s) (hne : name.bytes ≠ []) (hp : p ∈ s.live)
    (hn : (s.heap p).name = name.toFileName) : lookup name s = .ok (some p) :=
  (hw.nameIndex.lookup_eq_some hne).mpr ⟨hp, hn⟩

theorem WellFormed.lookup_none (hw : WellFormed s) (hne : name.bytes ≠ []) :
    lookup name s = .ok none ↔ ¬ NameTaken name s := by
  rw [hw.nameIndex.lookup_eq_none hne]
  unfold NameTaken
  push Not
  rfl

/-- The file at a live record with the name answers `file_size`. -/
theorem NameIndex.fileSize (hi : NameIndex s) (hne : name.bytes ≠ []) (hp : p ∈ s.live)
    (hn : (s.heap p).name = name.toFileName) : fileSize name s = .ok (s.heap p).length := by
  unfold Vfs.fileSize
  rw [(hi.lookup_eq_some hne).mpr ⟨hp, hn⟩]
  rfl

/-- What a completed creation leaves: the new record, and the old sum plus its length. -/
theorem createFileAt_created (hs : LiveOk s) (hne : name.bytes ≠ [])
    (hl : lookup name s = .ok none) (hlen : length < 2 ^ 62)
    (hr : createFileAt name length s = .ok s') :
    length < 2 ^ 32 ∧ s'.used = (if length = 0 then s.used else toI64 (s.used + length)) ∧
      ∃ p ∈ s'.live, (s'.heap p).name = name.toFileName ∧ (s'.heap p).length = toU32 length := by
  obtain ⟨i, o, ho, s₁, s₂, -, -, hf, hcr, h⟩ := createFileAt_steps hs hne hl hr
  have hnew : ∃ p ∈ s₂.live, (s₂.heap p).name = name.toFileName ∧
      (s₂.heap p).length = toU32 length := by
    obtain ⟨s₃, hreg, heq⟩ := hcr.registered
    refine ⟨s₁.next, ?_, ?_, ?_⟩
    · rw [heq]
      show s₁.next ∈ s₃.live
      rw [hreg.eq]
      exact List.mem_cons_self
    · rw [heq]
      exact hreg.new.1
    · rw [heq]
      exact hreg.new.2.2.1
  rcases h with ⟨rfl, rfl⟩ | ⟨hpos, s₃, h3, h4⟩
  · exact ⟨by decide, hcr.used.trans hf.used, hnew⟩
  · have hc : length < 2 ^ 32 := by
      rcases writeNullFile_post h3 with ⟨h, -⟩ | ⟨-, h, -⟩
      · rw [toI64_of_lt (by omega)] at h
        omega
      · rw [toI64_of_lt (by omega)] at h
        unfold maxFileDataLen at h
        omega
    have hused₃ : s₃.used = s.used := (writeNullFile_used h3).trans (hcr.used.trans hf.used)
    have h3' : s₃.live = s₂.live ∧ s₃.heap = s₂.heap := by
      rcases writeNullFile_post h3 with ⟨-, rfl⟩ | ⟨-, -, -, -, rfl⟩
      · exact ⟨rfl, rfl⟩
      · exact ⟨rfl, rfl⟩
    have hframe := hashEither_frame h4
    refine ⟨hc, ?_, ?_⟩
    · rw [hframe.eq, if_neg hpos.ne', ← hused₃]
    · rw [hframe.eq]
      show ∃ p ∈ s₃.live, (s₃.heap p).name = _ ∧ (s₃.heap p).length = _
      rw [h3'.1, h3'.2]
      exact hnew

/-- A completed creation whose sum does not wrap is accounted for. -/
theorem createFile_accounted (hw : WellFormed s) (hfdl : s.fileDataLen ≤ 2 ^ 32)
    (hne : name.bytes ≠ []) (hsum : s.used + length < 2 ^ 64)
    (hr : createFile name length s = .ok (0, s')) : Accounted name length s' := by
  have hexec : exec (.create name length) s = .ok ((0, []), s') := by
    show (createFile name length s >>= fun x => pure ((x.1, []), x.2) : Run _) = _
    rw [hr]
    rfl
  have hnamed : (Call.create name length).Named := by simpa [Call.Named, Call.names] using hne
  have hused := hw.layout.total_eq hw.mirror
  rcases createFile_post hr with ⟨h, -⟩ | ⟨h, -⟩ | ⟨-, hl, hadm, hat⟩
  · exact absurd h (by decide)
  · exact absurd h (by decide)
  rw [toU64_of_nonneg (by omega) hsum] at hadm
  obtain ⟨hlt, hused', p, hp, hn, hplen⟩ :=
    createFileAt_created hw.mirror.liveOk hne hl (by omega) hat
  have hs' := exec_nameSorted hw.mirror.liveOk hw.names hnamed trivial hexec
  obtain ⟨hm', -⟩ := createFileAt_mirror (by decide) hw.mirror (hw.layout.inRange hfdl) hfdl hlt
    hne hl (by omega) hat
  have hfile : s'.fileDataLen = s.fileDataLen :=
    (exec_liveOk hw.mirror.liveOk hnamed hexec).2.shape.file
  refine ⟨?_, hm'.counted.used, ?_⟩
  · rw [(hs'.1.nameIndex hs'.2).fileSize hne hp hn, hplen, toU32_of_lt hlt]
  · rw [hused', hfile]
    split_ifs with h0
    · omega
    · rw [toI64_of_bounds (by omega) (by omega)]
      omega

theorem createFile_exact (hw : WellFormed s) (hfdl : s.fileDataLen ≤ 2 ^ 32)
    (hne : name.bytes ≠ []) (hlen : length < 2 ^ 64) :
    CreateExact name length s ↔ CreateFits name length s := by
  have hused := hw.layout.total_eq hw.mirror
  have hle := hw.layout.used_le hw.mirror hfdl
  have hcount := hw.mirror.counted.count
  -- a refusal is decided by the two checks
  have hrefuse : (∃ s', createFile name length s = .ok (2, s')) ↔ ¬ NameTaken name s ∧
      (toU64 (s.used + length) > s.fileDataLen ∨ s.indexCount ≥ s.indexLen) := by
    rw [← hw.lookup_none hne]
    constructor
    · rintro ⟨s', hr⟩
      rcases createFile_post hr with ⟨h, -⟩ | ⟨-, -, h⟩ | ⟨h, -⟩
      · exact absurd h (by decide)
      · exact h
      · exact absurd h (by decide)
    · rintro ⟨hl, hfull⟩
      refine ⟨s, ?_⟩
      unfold createFile
      rw [hl, Run.ok_bind]
      dsimp only
      rw [if_pos hfull]
      rfl
  constructor
  · intro hex
    by_contra hcon
    unfold CreateFits at hcon
    push Not at hcon
    obtain ⟨hnew, hfree, hwrap⟩ := hcon
    obtain ⟨-, hbad⟩ := hrefuse.mp (hex.refuses.mpr ⟨hnew, Or.inl (by omega)⟩)
    have hsum : toU64 (s.used + length) = s.used + length - 2 ^ 64 := by
      unfold toU64
      omega
    omega
  · intro hfits
    refine ⟨hrefuse.trans (and_congr_right fun hnew => ?_), fun s' hr => ?_⟩
    · rcases hfits with h | h | h
      · exact absurd h hnew
      · exact iff_of_true (Or.inr (by omega)) (Or.inr h)
      · rw [toU64_of_nonneg (by omega) h]
        omega
    · rcases hfits with h | h | h
      · rcases createFile_post hr with ⟨h', -⟩ | ⟨h', -⟩ | ⟨-, hl, -⟩
        · exact absurd h' (by decide)
        · exact absurd h' (by decide)
        · exact absurd h ((hw.lookup_none hne).mp hl)
      · rcases createFile_post hr with ⟨h', -⟩ | ⟨h', -⟩ | ⟨-, -, hadm, -⟩
        · exact absurd h' (by decide)
        · exact absurd h' (by decide)
        · omega
      · exact createFile_accounted hw hfdl hne h hr

/-- What a completed change of a length leaves: the record with the length in 32 bits, and the
count of null bytes was below `2 ^ 32`. -/
theorem resizeFileAt_resized (hs : LiveOk s) (hp : p ∈ s.live) (hne : length ≠ (s.heap p).length)
    (hr : resizeFileAt p length s = .ok s') :
    ((s.heap p).length < length → toI64 (length - (s.heap p).length) < 2 ^ 32) ∧ p ∈ s'.live ∧
      (s'.heap p).name = (s.heap p).name ∧ (s'.heap p).length = toU32 length ∧
      ∃ ho s₁, resizeFileHelper p length (s.heap p).length s = .ok (ho, s₁) ∧
        s'.used = s₁.used := by
  obtain ⟨ho, s₁, h1, h⟩ := resizeFileAt_post hr
  obtain ⟨-, hk₁⟩ := resizeFileHelper_liveOk hs hp h1
  have hlen₁ : (s₁.heap p).length = toU32 length := by
    rcases resizeFileHelper_post h1 with ⟨he, -⟩ | ⟨-, s₀, -, -, rfl⟩
    · exact absurd he hne
    · simp [setLength]
  have hp₁ : p ∈ s₁.live := hk₁.live ▸ hp
  rcases h with ⟨hle, rfl⟩ | ⟨hgt, s₂, h2, h3⟩
  · exact ⟨fun h => absurd h hle.not_gt, hp₁, hk₁.name p, hlen₁, ho, _, h1, rfl⟩
  · have hframe := hashEither_frame h3
    rw [hframe.eq]
    show _ ∧ p ∈ s₂.live ∧ (s₂.heap p).name = _ ∧ (s₂.heap p).length = _ ∧
      ∃ ho s₁, resizeFileHelper p length (s.heap p).length s = .ok (ho, s₁) ∧ s₂.used = s₁.used
    rcases writeNullFile_post h2 with ⟨hc, rfl⟩ | ⟨-, hc, -, -, rfl⟩
    · exact ⟨fun _ => by omega, hp₁, hk₁.name p, hlen₁, ho, _, h1, rfl⟩
    · exact ⟨fun _ => hc, hp₁, hk₁.name p, hlen₁, ho, s₁, h1, rfl⟩

theorem resizeFile_exec (hr : resizeFile name length s = .ok (0, s')) :
    exec (.resize name length) s = .ok ((0, []), s') := by
  show (resizeFile name length s >>= fun x => pure ((x.1, []), x.2) : Run _) = _
  rw [hr]
  rfl

/-- After a completed change of a length, `file_size` reads it back in 32 bits. -/
theorem resizeFileAt_fileSize (hw : WellFormed s) (hne : name.bytes ≠ [])
    (hl : lookup name s = .ok (some p)) (hlen : length ≠ (s.heap p).length)
    (hat : resizeFileAt p length s = .ok s') (hr : resizeFile name length s = .ok (0, s')) :
    fileSize name s' = .ok (toU32 length : ℕ) := by
  have hnamed : (Call.resize name length).Named := by simpa [Call.Named, Call.names] using hne
  obtain ⟨hp, hn⟩ := hw.mirror.liveOk.lookup hl
  obtain ⟨-, hp', hn', hl', -⟩ := resizeFileAt_resized hw.mirror.liveOk hp hlen hat
  have hs' := exec_nameSorted hw.mirror.liveOk hw.names hnamed trivial (resizeFile_exec hr)
  rw [(hs'.1.nameIndex hs'.2).fileSize hne hp' (hn'.trans hn), hl']

/-- A completed `resize_file` whose sum does not wrap is accounted for. -/
theorem resizeFile_accounted (hw : WellFormed s) (hfdl : s.fileDataLen ≤ 2 ^ 32)
    (hne : name.bytes ≠ []) (hfits : ResizeFits name length s)
    (hr : resizeFile name length s = .ok (0, s')) : Accounted name length s' := by
  have hnamed : (Call.resize name length).Named := by simpa [Call.Named, Call.names] using hne
  have hused := hw.layout.total_eq hw.mirror
  have hle := hw.layout.used_le hw.mirror hfdl
  rcases resizeFile_post hr with ⟨h, -⟩ | ⟨p, hl, ⟨h, -⟩ | ⟨-, hadm, hcase⟩⟩
  · exact absurd h (by decide)
  · exact absurd h (by decide)
  obtain ⟨hp, hn⟩ := hw.mirror.liveOk.lookup hl
  obtain ⟨hsum, hfull⟩ := hfits p hp hn
  have hold : (s.heap p).length ≤ totalLength s.heap s.oList.list :=
    length_le_totalLength (hw.layout.mem hp)
  rw [toU64_of_nonneg (by omega) (by omega)] at hadm
  rcases hcase with ⟨rfl, rfl⟩ | ⟨hlen, hat⟩
  · exact ⟨hw.nameIndex.fileSize hne hp hn, hw.mirror.counted.used, hle⟩
  · obtain ⟨hc, -, -, -, ho, s₁, h1, hused₁⟩ := resizeFileAt_resized hw.mirror.liveOk hp hlen hat
    have hlt : length < 2 ^ 32 := by
      by_contra hcon
      have hc := hc (by omega)
      rw [toI64_of_bounds (by omega) (by omega)] at hc
      omega
    have hfile : s'.fileDataLen = s.fileDataLen :=
      (exec_liveOk hw.mirror.liveOk hnamed (resizeFile_exec hr)).2.shape.file
    obtain ⟨hm', -⟩ := resizeFileAt_mirror (by decide) hw.mirror (hw.layout.inRange hfdl) hp hfdl
      hlt hat
    refine ⟨?_, hm'.counted.used, ?_⟩
    · rw [resizeFileAt_fileSize hw hne hl hlen hat hr, toU32_of_lt hlt]
    · obtain ⟨ho', s₂, h2, -, hused₂, -⟩ := @resizeFileHelper_total _ s p length _ hw.mirror
        hw.layout hfdl hp (le_refl (s.heap p).length)
      obtain ⟨-, rfl⟩ := Prod.mk.inj (Except.ok.inj (h1.symm.trans h2))
      rw [hused₁, hused₂, hfile, toI64_of_bounds (by omega) (by omega)]
      omega

theorem resizeFile_exact (hw : WellFormed s) (hfdl : s.fileDataLen ≤ 2 ^ 32)
    (hne : name.bytes ≠ []) (hlen : length < 2 ^ 64) :
    (ResizeFits name length s → ResizeExact name length s) ∧
    (k ≤ 24 → Perfect k s → ResizeExact name length s → ResizeFits name length s) := by
  have hused := hw.layout.total_eq hw.mirror
  have hle := hw.layout.used_le hw.mirror hfdl
  -- a refusal is decided by the check
  have hrefuse : (∃ s', resizeFile name length s = .ok (2, s')) ↔
      ∃ p ∈ s.live, (s.heap p).name = name.toFileName ∧
        toU64 (s.used + length - (s.heap p).length) > s.fileDataLen := by
    constructor
    · rintro ⟨s', hr⟩
      rcases resizeFile_post hr with ⟨h, -⟩ | ⟨p, hl, ⟨-, -, h⟩ | ⟨h, -⟩⟩
      · exact absurd h (by decide)
      · obtain ⟨hp, hn⟩ := hw.mirror.liveOk.lookup hl
        exact ⟨p, hp, hn, h⟩
      · exact absurd h (by decide)
    · rintro ⟨p, hp, hn, h⟩
      refine ⟨s, ?_⟩
      unfold resizeFile
      rw [hw.lookup_some hne hp hn, Run.ok_bind]
      dsimp only
      rw [if_pos h]
      rfl
  have hold : ∀ p ∈ s.live, (s.heap p).length ≤ totalLength s.heap s.oList.list :=
    fun p hp => length_le_totalLength (hw.layout.mem hp)
  constructor
  · intro hfits
    refine ⟨hrefuse.trans ?_, fun s' hr => resizeFile_accounted hw hfdl hne hfits hr⟩
    refine exists_congr fun p => and_congr_right fun hp => and_congr_right fun hn => ?_
    have := hold p hp
    have := (hfits p hp hn).1
    rw [toU64_of_nonneg (by omega) (by omega)]
    omega
  · intro hk hpf hex p hp hn
    have hop := hold p hp
    refine ⟨?_, ?_⟩
    · by_contra hwrap
      -- the check passes with the wrapped sum
      obtain ⟨q, hq, hqn, hbad⟩ := hrefuse.mp (hex.refuses.mpr ⟨p, hp, hn, by omega⟩)
      have hsame : q = p := by
        have h1 := hw.lookup_some hne hp hn
        have h2 := hw.lookup_some hne hq hqn
        exact Option.some_inj.mp (Except.ok.inj (h2.symm.trans h1))
      subst hsame
      have hsum : toU64 (s.used + length - (s.heap q).length) =
          s.used + length - (s.heap q).length - 2 ^ 64 := by
        unfold toU64
        omega
      omega
    · rintro ⟨rfl, hfull, hpos, hall⟩
      -- the file is stored with length zero
      have hl := hw.lookup_some hne hp hn
      have hne' : 2 ^ 32 ≠ (s.heap p).length := by
        have := hw.mirror.counted.length_lt p hp
        omega
      obtain ⟨s', hat, -⟩ := resizeFileAt_total hw.mirror hw.layout hpf hk hp
        (show 2 ^ 32 < 2 ^ 32 + (s.heap p).length by omega) (by push_cast; omega)
      have hr : resizeFile name (2 ^ 32) s = .ok (0, s') := by
        unfold resizeFile
        rw [hl, Run.ok_bind]
        dsimp only
        rw [if_neg, if_neg hne', hat]
        · rfl
        · rw [toU64_of_nonneg (by push_cast; omega) (by push_cast; omega)]
          push_cast
          omega
      have hsize := (hex.accepts s' hr).1
      rw [resizeFileAt_fileSize hw hne hl hne' hat hr] at hsize
      exact absurd (Except.ok.inj hsize) (by decide)

end Admission

/-- **Admission.**  On a well-formed state `create_file` is exact if and only if its sum does not
wrap or does not matter; `resize_file` is exact if its sum does not wrap and the length is not
stored as zero, and, where its hashing completes, only then. -/
theorem admission_exact {s : Filesys} {name : CString} {length : ℕ} (hw : WellFormed s)
    (hfdl : s.fileDataLen ≤ 2 ^ 32) (hne : name.bytes ≠ []) (hlen : length < 2 ^ 64) :
    (CreateExact name length s ↔ CreateFits name length s) ∧
    (ResizeFits name length s → ResizeExact name length s) ∧
    ∀ k ≤ 24, Perfect k s → ResizeExact name length s → ResizeFits name length s :=
  ⟨createFile_exact hw hfdl hne hlen, (resizeFile_exact (k := 0) hw hfdl hne hlen).1,
    fun k hk => (resizeFile_exact (k := k) hw hfdl hne hlen).2 hk⟩

instance (name : CString) (s : Filesys) : Decidable (NameTaken name s) := by
  unfold NameTaken; infer_instance

instance (name : CString) (length : ℕ) (s : Filesys) : Decidable (CreateFits name length s) := by
  unfold CreateFits; infer_instance

instance (name : CString) (length : ℕ) (s : Filesys) : Decidable (ResizeFits name length s) := by
  unfold ResizeFits; infer_instance

/-- A directory with the files `a` and `b` of one byte each, at the offsets 0 and 1. -/
def twoFiles : List UInt8 :=
  [97] ++ zeros 67 ++ [1, 0, 0, 0] ++ [98] ++ zeros 63 ++ [1, 0, 0, 0, 1, 0, 0, 0]

set_option maxRecDepth 20000 in
theorem twoFiles_wellFormed {file hash : List UInt8} {s : Filesys} (hlen : file.length = 256)
    (hinit : initFs file twoFiles hash = .ok s) : WellFormed s := by
  refine initFs_wellFormed ?_ ?_ ?_ hinit
  · unfold DistinctNames
    decide +kernel
  · rw [hlen]
    unfold ExtentsInside
    decide +kernel
  · decide +kernel

set_option maxRecDepth 20000 in
/-- Both calls on the file `b` with a length of five. -/
theorem admission_exact_two : ∃ s, initFs (zeros 256) twoFiles (zeros 16) = .ok s ∧
    CreateExact (.ofByte 98 (by decide)) 5 s ∧ ResizeExact (.ofByte 98 (by decide)) 5 s := by
  obtain ⟨s, hinit, hfile, hcreate, hresize⟩ := Run.holds_iff.mp
    (show Run.Holds (initFs (zeros 256) twoFiles (zeros 16)) (fun s => s.fileDataLen = 256 ∧
      CreateFits (.ofByte 98 (by decide)) 5 s ∧ ResizeFits (.ofByte 98 (by decide)) 5 s)
      by decide +kernel)
  obtain ⟨h1, h2, -⟩ := @admission_exact s (.ofByte 98 (by decide)) 5
    (twoFiles_wellFormed rfl hinit) (by omega) (by decide) (by decide)
  exact ⟨s, hinit, h1.mpr hcreate, h2 hresize⟩

set_option maxRecDepth 20000 in
/-- With two files of one byte, `resize_file` of one to `2 ^ 64 - 1` bytes returns 0. -/
theorem admission_fails : ¬ ∀ (s : Filesys) (name : CString) (length : ℕ), WellFormed s →
    s.fileDataLen ≤ 2 ^ 32 → name.bytes ≠ [] → length < 2 ^ 64 →
    CreateExact name length s ∧ ResizeExact name length s := by
  intro h
  obtain ⟨s, hinit, hfile, hrun⟩ := Run.holds_iff.mp
    (show Run.Holds (initFs (zeros 256) twoFiles (zeros 16)) (fun s => s.fileDataLen = 256 ∧
      Run.Holds (resizeFile (.ofByte 98 (by decide)) (2 ^ 64 - 1) s) fun r => r.1 = 0 ∧
        Run.Holds (fileSize (.ofByte 98 (by decide)) r.2) (· = 2 ^ 32 - 1)) by decide +kernel)
  obtain ⟨⟨r, s'⟩, hr, rfl, hsize⟩ := Run.holds_iff.mp hrun
  obtain ⟨n, hn, rfl⟩ := Run.holds_iff.mp hsize
  obtain ⟨-, hex⟩ := h s (.ofByte 98 (by decide)) (2 ^ 64 - 1) (twoFiles_wellFormed rfl hinit)
    (by omega) (by decide) (by decide)
  have := (hex.accepts s' hr).1
  rw [hn] at this
  exact absurd (Except.ok.inj this) (by decide)

end Vfs
