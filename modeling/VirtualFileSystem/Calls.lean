import VirtualFileSystem.Steps

/-!
# What a completed call did

One inversion lemma for each call and for each part of one: the branch taken, the steps run and
the states between them.  Every invariant is proved from these lemmas and from those of `Steps`.
-/

namespace Vfs

open FlatImage

/-! ## Looking up names -/

section Lookup

variable {name : CString} {s : Filesys}

theorem validKey_name (ht : s.nList.type = .name) :
    validKey (nameKey name) s.nList s.fileDataLen ↔ name.toFileName.bytes ≠ [] := by
  unfold validKey
  rw [ht]
  rfl

/-- A non-empty string has a non-empty file name. -/
theorem toFileName_ne_nil (h : name.bytes ≠ []) : name.toFileName.bytes ≠ [] := by
  intro he
  have : name.bytes.take (nameLen - 1) = [] := he
  rcases List.take_eq_nil_iff.mp this with h' | h'
  · simp [nameLen] at h'
  · exact h h'

theorem lookup_some {p : Ptr} (ht : s.nList.type = .name) (hr : lookup name s = .ok (some p)) :
    p ∈ s.nList.list ∧ (s.heap p).name = name.toFileName := by
  unfold lookup arrGetByKey at hr
  by_cases hv : ¬ validKey (nameKey name) s.nList s.fileDataLen
  · rw [if_pos hv] at hr
    cases hr
  · rw [if_neg hv] at hr
    obtain ⟨r, hr', hr⟩ := Run.bind_eq_ok.mp hr
    split_ifs at hr with hneg
    · cases hr
    · obtain ⟨q, hget, hr⟩ := Run.bind_eq_ok.mp hr
      obtain ⟨_, _, hget⟩ := Run.bind_eq_ok.mp hget
      obtain ⟨p', hp', hc⟩ := arrGetIndex_sound hr' (by omega)
      have hq : p' = q := by
        have := Except.ok.inj hget
        rw [List.getD_eq_getElem?_getD, hp'] at this
        exact this
      obtain rfl : q = p := Option.some_inj.mp (Except.ok.inj hr)
      subst hq
      refine ⟨List.mem_of_getElem? hp', ?_⟩
      rw [ht] at hc
      exact (nameCmp_eq_zero.mp hc).symm

theorem lookup_none (ht : s.nList.type = .name) (hn : name.bytes ≠ [])
    (hr : lookup name s = .ok none) :
    arrGetIndex (nameKey name) s.nList s.heap false = .ok (-1) := by
  unfold lookup arrGetByKey at hr
  rw [if_neg (not_not.mpr ((validKey_name ht).mpr (toFileName_ne_nil hn)))] at hr
  obtain ⟨r, hr', hr⟩ := Run.bind_eq_ok.mp hr
  obtain ⟨r', hr2, hb⟩ := @arrGetIndex_total (nameKey name) s.nList s.heap false
  obtain rfl : r = r' := Except.ok.inj (hr'.symm.trans hr2)
  split_ifs at hr with hneg
  · rcases hb with rfl | hb
    · exact hr'
    · omega
  · obtain ⟨q, _, hr⟩ := Run.bind_eq_ok.mp hr
    cases hr

theorem lookup_total (name : CString) (s : Filesys) : ∃ r, lookup name s = .ok r := by
  unfold lookup arrGetByKey
  by_cases hv : validKey (nameKey name) s.nList s.fileDataLen
  · rw [if_neg (not_not.mpr hv)]
    obtain ⟨r, hr, hb⟩ := @arrGetIndex_total (nameKey name) s.nList s.heap false
    rw [hr]
    simp only [Run.ok_bind]
    by_cases hneg : r < 0
    · rw [if_pos hneg]
      exact ⟨none, rfl⟩
    · rw [if_neg hneg]
      have hlt : 0 ≤ r ∧ r < s.nList.size := by
        rcases hb with rfl | hb
        · omega
        · exact ⟨by omega, hb.2.2 rfl⟩
      unfold arrGet
      rw [Run.assert_of hlt]
      exact ⟨_, rfl⟩
  · rw [if_pos hv]
    exact ⟨none, rfl⟩

end Lookup

/-! ## Creating -/

theorem createFile_post {name : CString} {length : ℕ} {s s' : Filesys} {r : ℤ}
    (hr : createFile name length s = .ok (r, s')) :
    (r = 1 ∧ s' = s ∧ ∃ p, lookup name s = .ok (some p)) ∨
    (r = 2 ∧ s' = s ∧ lookup name s = .ok none ∧
      (toU64 (s.used + length) > s.fileDataLen ∨ s.indexCount ≥ s.indexLen)) ∨
    (r = 0 ∧ lookup name s = .ok none ∧
      ¬ (toU64 (s.used + length) > s.fileDataLen ∨ s.indexCount ≥ s.indexLen) ∧
      createFileAt name length s = .ok s') := by
  unfold createFile at hr
  obtain ⟨q, hq, hr⟩ := Run.bind_eq_ok.mp hr
  cases q with
  | some p =>
    obtain ⟨rfl, rfl⟩ := Prod.mk.inj (Except.ok.inj hr)
    exact Or.inl ⟨rfl, rfl, p, hq⟩
  | none =>
    dsimp only at hr
    split_ifs at hr with hc
    · obtain ⟨rfl, rfl⟩ := Prod.mk.inj (Except.ok.inj hr)
      exact Or.inr (Or.inl ⟨rfl, rfl, hq, hc⟩)
    · obtain ⟨s₁, h1, hr⟩ := Run.bind_eq_ok.mp hr
      obtain ⟨rfl, rfl⟩ := Prod.mk.inj (Except.ok.inj hr)
      exact Or.inr (Or.inr ⟨rfl, hq, hc, h1⟩)

theorem newFileIndex_post {s : Filesys} {i : ℕ} (hr : newFileIndex s = .ok i) :
    s.index[i]? = some 0 := by
  unfold newFileIndex at hr
  split at hr
  · rename_i j hj
    obtain rfl := Except.ok.inj hr
    obtain ⟨hlt, hz, -⟩ := List.findIdx?_eq_some_iff_getElem.mp hj
    rw [List.getElem?_eq_getElem hlt]
    simpa using hz
  · cases hr

theorem writeDirFile_post {f : FileT} {s s' : Filesys} (hr : writeDirFile f s = .ok s') :
    ∃ d₁ d₂, metaLen * f.index + (f.name.bytes.length + 1) ≤ s.dir.length ∧
      metaLen * f.index + (nameLen + offsetLen) + 4 ≤ s.dir.length ∧
      d₁ = splice s.dir (metaLen * f.index) (f.name.bytes ++ [0]) ∧
      d₂ = splice d₁ (metaLen * f.index + nameLen) (dirOffsetBytes f.offset) ∧
      s' = { s with
        dir := splice d₂ (metaLen * f.index + (nameLen + offsetLen)) (le32 f.length) } := by
  unfold writeDirFile at hr
  obtain ⟨s₁, h1, hr⟩ := Run.bind_eq_ok.mp hr
  obtain ⟨s₂, h2, hr⟩ := Run.bind_eq_ok.mp hr
  obtain ⟨hb1, rfl⟩ := writeDir_eq_ok.mp h1
  rw [updateDirOffset_eq] at h2
  obtain ⟨hb2, rfl⟩ := writeDir_eq_ok.mp h2
  obtain ⟨hb3, rfl⟩ := writeDir_eq_ok.mp hr
  simp only [List.length_append, List.length_singleton, length_dirOffsetBytes, length_le32,
    Nat.add_zero] at hb1 hb2 hb3
  rw [length_splice (by simpa using hb1)] at hb2
  rw [length_splice (by rw [length_splice (by simpa using hb1)]; simpa using hb2),
    length_splice (by simpa using hb1)] at hb3
  exact ⟨_, _, hb1, hb3, rfl, rfl, rfl⟩

/-- The steps of a completed creation: a slot, a place, the record in both arrays, its directory
entry, then the zero bytes and their hashes. -/
theorem createFileAt_post {name : CString} {length : ℕ} {s s' : Filesys}
    (hr : createFileAt name length s = .ok s') :
    ∃ i o ho s₁ s₂ s₃ s₄, newFileIndex s = .ok i ∧
      newFileOffset length (-1) s = .ok (o, ho, s₁) ∧
      sortedInsert .offset s₁.next (fileInit name.toFileName o (toU32 length) i s₁).2 = .ok s₂ ∧
      sortedInsert .name s₁.next s₂ = .ok s₃ ∧
      writeDirFile (s₃.heap s₁.next) s₃ = .ok s₄ ∧
      ((length = 0 ∧ s' = { s₄ with
          index := s₄.index.set i 1, indexCount := s₄.indexCount + 1 }) ∨
        (0 < length ∧ ∃ s₅, writeNullFile (toI64 o) (toI64 length) { s₄ with
            index := s₄.index.set i 1, indexCount := s₄.indexCount + 1 } = .ok s₅ ∧
          ((0 ≤ ho ∧ computeHashBlockRange ho (toI64 (s₅.used + length) - ho)
              { s₅ with used := toI64 (s₅.used + length) } = .ok s') ∨
            (ho < 0 ∧ computeHashBlockRange (toI64 o) (toI64 length)
              { s₅ with used := toI64 (s₅.used + length) } = .ok s')))) := by
  unfold createFileAt at hr
  obtain ⟨i, hi, hr⟩ := Run.bind_eq_ok.mp hr
  obtain ⟨⟨o, ho, s₁⟩, ho', hr⟩ := Run.bind_eq_ok.mp hr
  obtain ⟨s₂, h2, hr⟩ := Run.bind_eq_ok.mp hr
  obtain ⟨s₃, h3, hr⟩ := Run.bind_eq_ok.mp hr
  obtain ⟨s₄, h4, hr⟩ := Run.bind_eq_ok.mp hr
  refine ⟨i, o, ho, s₁, s₂, s₃, s₄, hi, ho', h2, h3, h4, ?_⟩
  by_cases hl : length > 0
  · rw [if_pos hl] at hr
    obtain ⟨s₅, h5, hr⟩ := Run.bind_eq_ok.mp hr
    refine Or.inr ⟨hl, s₅, h5, ?_⟩
    by_cases hho : ho ≥ 0
    · rw [if_pos hho] at hr
      exact Or.inl ⟨hho, hr⟩
    · rw [if_neg hho] at hr
      exact Or.inr ⟨by omega, hr⟩
  · rw [if_neg hl] at hr
    exact Or.inl ⟨by omega, (Except.ok.inj hr).symm⟩

/-! ## Growing -/

/-- Growing a zero size file at the sentinel offset: out of the offset array, a place at `0` or
behind the repacked files, and in again. -/
theorem growNewFile_post {p : Ptr} {length : ℕ} {s s' : Filesys} {ho : ℤ}
    (hr : growNewFile p length s = .ok (ho, s')) :
    ∃ s₁ s₂ s₃ o, removeAt .offset (s.heap p).oIndex s = .ok s₁ ∧
      ((ho = -1 ∧ s₂ = s₁ ∧ o = 0 ∧ (∀ q, findNextNonzeroFile 0 s₁.oList s₁.heap = some q →
          length ≤ (s₁.heap q).offset)) ∨
        (repackHelper s₁ = .ok (ho, s₂) ∧ o = toU64 s₂.used ∧
          ∃ q, findNextNonzeroFile 0 s₁.oList s₁.heap = some q ∧
            (s₁.heap q).offset < length)) ∧
      updateDirOffset ((updateFileOffset o p s₂).heap p) (updateFileOffset o p s₂) = .ok s₃ ∧
      sortedInsert .offset p s₃ = .ok s' := by
  unfold growNewFile at hr
  obtain ⟨s₁, h1, hr⟩ := Run.bind_eq_ok.mp hr
  obtain ⟨⟨ho₁, sx⟩, h2, hr⟩ := Run.bind_eq_ok.mp hr
  obtain ⟨s₃, h3, hr⟩ := Run.bind_eq_ok.mp hr
  obtain ⟨s₄, h4, hr⟩ := Run.bind_eq_ok.mp hr
  obtain ⟨rfl, rfl⟩ := Prod.mk.inj (Except.ok.inj hr)
  cases hf : findNextNonzeroFile 0 s₁.oList s₁.heap with
  | none =>
    rw [hf] at h2
    obtain ⟨rfl, rfl⟩ := Prod.mk.inj (Except.ok.inj h2)
    exact ⟨s₁, s₁, s₃, 0, h1, Or.inl ⟨rfl, rfl, rfl, by simp [hf]⟩, h3, h4⟩
  | some q =>
    rw [hf] at h2
    dsimp only at h2
    split_ifs at h2 with hlt
    · obtain ⟨⟨ho₂, s₂⟩, hrep, h2⟩ := Run.bind_eq_ok.mp h2
      obtain ⟨rfl, rfl⟩ := Prod.mk.inj (Except.ok.inj h2)
      exact ⟨s₁, s₂, s₃, _, h1, Or.inr ⟨hrep, rfl, q, hf, hlt⟩, h3, h4⟩
    · obtain ⟨rfl, rfl⟩ := Prod.mk.inj (Except.ok.inj h2)
      refine ⟨s₁, s₁, s₃, 0, h1, Or.inl ⟨rfl, rfl, rfl, ?_⟩, h3, h4⟩
      intro q' hq'
      obtain rfl := Option.some_inj.mp (hf.symm.trans hq')
      omega

/-- Relocating a file: its first bytes saved, the others repacked, the bytes put behind them. -/
theorem relocateFile_post {p : Ptr} {copy : ℕ} {s s' : Filesys} {ho : ℤ}
    (hr : relocateFile p copy s = .ok (ho, s')) :
    ∃ s₁ s₂ s₃ temp file, memRead s.file (s.heap p).offset copy = .ok temp ∧
      removeAt .offset (s.heap p).oIndex s = .ok s₁ ∧ repackHelper s₁ = .ok (ho, s₂) ∧
      memWrite s₂.file (s₂.used - (s.heap p).length) temp = .ok file ∧
      updateDirOffset
          ((updateFileOffset (toU64 (s₂.used - (s.heap p).length)) p
            { s₂ with file := file }).heap p)
          (updateFileOffset (toU64 (s₂.used - (s.heap p).length)) p { s₂ with file := file }) =
        .ok s₃ ∧
      sortedInsert .offset p s₃ = .ok s' := by
  unfold relocateFile at hr
  obtain ⟨temp, h0, hr⟩ := Run.bind_eq_ok.mp hr
  obtain ⟨s₁, h1, hr⟩ := Run.bind_eq_ok.mp hr
  obtain ⟨⟨ho₁, s₂⟩, h2, hr⟩ := Run.bind_eq_ok.mp hr
  obtain ⟨file, h3, hr⟩ := Run.bind_eq_ok.mp hr
  obtain ⟨s₃, h4, hr⟩ := Run.bind_eq_ok.mp hr
  obtain ⟨s₄, h5, hr⟩ := Run.bind_eq_ok.mp hr
  obtain ⟨rfl, rfl⟩ := Prod.mk.inj (Except.ok.inj hr)
  exact ⟨s₁, s₂, s₃, temp, file, h0, h1, h2, h3, h4, h5⟩

/-- The state `resize_file_helper` leaves once it has found room and the length differs. -/
def setLength (p : Ptr) (length oldLength : ℕ) (dir : List UInt8) (s : Filesys) : Filesys :=
  { s with
    heap := s.heap.set p { s.heap p with length := toU32 length }
    dir := dir
    used := toI64 (s.used + (length - oldLength)) }

theorem resizeFileHelper_post {p : Ptr} {length copy : ℕ} {s s' : Filesys} {ho : ℤ}
    (hr : resizeFileHelper p length copy s = .ok (ho, s')) :
    (length = (s.heap p).length ∧ s' = s ∧ ho = -1) ∨
    (length ≠ (s.heap p).length ∧ ∃ s₁,
      ((length < (s.heap p).length ∧ s₁ = s ∧ ho = -1) ∨
        ((s.heap p).length < length ∧ makeRoom p length copy s = .ok (ho, s₁))) ∧
      metaLen * (s₁.heap p).index + (nameLen + offsetLen) + 4 ≤ s₁.dir.length ∧
      s' = setLength p length (s.heap p).length (splice s₁.dir
        (metaLen * (s₁.heap p).index + (nameLen + offsetLen)) (le32 (toU32 length))) s₁) := by
  unfold resizeFileHelper at hr
  obtain ⟨⟨ho₁, s₁⟩, h1, hr⟩ := Run.bind_eq_ok.mp hr
  dsimp only at hr
  by_cases hne : length = (s.heap p).length
  · rw [if_neg (by omega)] at h1
    rw [if_neg (by omega)] at hr
    obtain ⟨rfl, rfl⟩ := Prod.mk.inj (Except.ok.inj h1)
    obtain ⟨rfl, rfl⟩ := Prod.mk.inj (Except.ok.inj hr)
    exact Or.inl ⟨hne, rfl, rfl⟩
  · rw [if_pos hne] at hr
    obtain ⟨s₂, h2, hr⟩ := Run.bind_eq_ok.mp hr
    obtain ⟨hb, rfl⟩ := writeDir_eq_ok.mp h2
    obtain ⟨rfl, rfl⟩ := Prod.mk.inj (Except.ok.inj hr)
    refine Or.inr ⟨hne, s₁, ?_, ?_, ?_⟩
    · by_cases hgt : length > (s.heap p).length
      · rw [if_pos hgt] at h1
        exact Or.inr ⟨hgt, h1⟩
      · rw [if_neg hgt] at h1
        obtain ⟨rfl, rfl⟩ := Prod.mk.inj (Except.ok.inj h1)
        exact Or.inl ⟨by omega, rfl, rfl⟩
    · simpa [updateFileLength] using hb
    · simp [setLength, updateFileLength]

theorem makeRoom_post {p : Ptr} {length copy : ℕ} {s s' : Filesys} {ho : ℤ}
    (hr : makeRoom p length copy s = .ok (ho, s')) :
    ((s.heap p).offset ≥ maxFileDataLen ∧ growNewFile p length s = .ok (ho, s')) ∨
    ((s.heap p).offset < maxFileDataLen ∧ repackRequired p length s ∧
      relocateFile p copy s = .ok (ho, s')) ∨
    ((s.heap p).offset < maxFileDataLen ∧ ¬ repackRequired p length s ∧ ho = -1 ∧ s' = s) := by
  unfold makeRoom at hr
  split_ifs at hr with h1 h2
  · exact Or.inl ⟨h1, hr⟩
  · exact Or.inr (Or.inl ⟨by omega, h2, hr⟩)
  · obtain ⟨rfl, rfl⟩ := Prod.mk.inj (Except.ok.inj hr)
    exact Or.inr (Or.inr ⟨by omega, h2, rfl, rfl⟩)

theorem resizeFile_post {name : CString} {length : ℕ} {s s' : Filesys} {r : ℤ}
    (hr : resizeFile name length s = .ok (r, s')) :
    (r = 1 ∧ s' = s ∧ lookup name s = .ok none) ∨
    ∃ p, lookup name s = .ok (some p) ∧
      ((r = 2 ∧ s' = s ∧ toU64 (s.used + length - (s.heap p).length) > s.fileDataLen) ∨
        (r = 0 ∧ toU64 (s.used + length - (s.heap p).length) ≤ s.fileDataLen ∧
          ((length = (s.heap p).length ∧ s' = s) ∨
            (length ≠ (s.heap p).length ∧ resizeFileAt p length s = .ok s')))) := by
  unfold resizeFile at hr
  obtain ⟨q, hq, hr⟩ := Run.bind_eq_ok.mp hr
  cases q with
  | none =>
    obtain ⟨rfl, rfl⟩ := Prod.mk.inj (Except.ok.inj hr)
    exact Or.inl ⟨rfl, rfl, hq⟩
  | some p =>
    refine Or.inr ⟨p, hq, ?_⟩
    dsimp only at hr
    split_ifs at hr with h1 h2
    · obtain ⟨rfl, rfl⟩ := Prod.mk.inj (Except.ok.inj hr)
      exact Or.inl ⟨rfl, rfl, h1⟩
    · obtain ⟨rfl, rfl⟩ := Prod.mk.inj (Except.ok.inj hr)
      exact Or.inr ⟨rfl, by omega, Or.inl ⟨h2, rfl⟩⟩
    · obtain ⟨s₁, h3, hr⟩ := Run.bind_eq_ok.mp hr
      obtain ⟨rfl, rfl⟩ := Prod.mk.inj (Except.ok.inj hr)
      exact Or.inr ⟨rfl, by omega, Or.inr ⟨h2, h3⟩⟩

theorem resizeFileAt_post {p : Ptr} {length : ℕ} {s s' : Filesys}
    (hr : resizeFileAt p length s = .ok s') :
    ∃ ho s₁, resizeFileHelper p length (s.heap p).length s = .ok (ho, s₁) ∧
      ((length ≤ (s.heap p).length ∧ s' = s₁) ∨
        ((s.heap p).length < length ∧ ∃ s₂,
          writeNullFile (toI64 ((s₁.heap p).offset + (s.heap p).length))
            (toI64 (length - (s.heap p).length)) s₁ = .ok s₂ ∧
          ((0 ≤ ho ∧ computeHashBlockRange ho (toI64 ((s₁.heap p).offset + length - ho)) s₂ =
              .ok s') ∨
            (ho < 0 ∧ computeHashBlockRange (toI64 ((s₁.heap p).offset + (s.heap p).length))
              (toI64 (length - (s.heap p).length)) s₂ = .ok s')))) := by
  unfold resizeFileAt at hr
  obtain ⟨⟨ho, s₁⟩, h1, hr⟩ := Run.bind_eq_ok.mp hr
  refine ⟨ho, s₁, h1, ?_⟩
  dsimp only at hr
  by_cases hgt : length > (s.heap p).length
  · rw [if_pos hgt] at hr
    obtain ⟨s₂, h2, hr⟩ := Run.bind_eq_ok.mp hr
    refine Or.inr ⟨hgt, s₂, h2, ?_⟩
    split_ifs at hr with hho
    · exact Or.inl ⟨hho, hr⟩
    · exact Or.inr ⟨by omega, hr⟩
  · rw [if_neg hgt] at hr
    exact Or.inl ⟨by omega, (Except.ok.inj hr).symm⟩

/-! ## Writing, deleting, renaming -/

theorem writeFile_post {name : CString} {offset count : ℕ} {buf : List UInt8} {s s' : Filesys}
    {r : ℤ} (hr : writeFile name offset count buf s = .ok (r, s')) :
    (r = 1 ∧ s' = s ∧ lookup name s = .ok none) ∨
    ∃ p, lookup name s = .ok (some p) ∧
      ((r = 2 ∧ s' = s ∧ offset > (s.heap p).length) ∨
        (r = 3 ∧ s' = s ∧ offset ≤ (s.heap p).length ∧
          toU64 (s.used + offset + count - (s.heap p).length) > s.fileDataLen) ∨
        (r = 0 ∧ offset ≤ (s.heap p).length ∧
          toU64 (s.used + offset + count - (s.heap p).length) ≤ s.fileDataLen ∧
          ((count = 0 ∧ s' = s) ∨ (0 < count ∧ writeFileAt p offset count buf s = .ok s')))) := by
  unfold writeFile at hr
  obtain ⟨q, hq, hr⟩ := Run.bind_eq_ok.mp hr
  cases q with
  | none =>
    obtain ⟨rfl, rfl⟩ := Prod.mk.inj (Except.ok.inj hr)
    exact Or.inl ⟨rfl, rfl, hq⟩
  | some p =>
    refine Or.inr ⟨p, hq, ?_⟩
    dsimp only at hr
    split_ifs at hr with h1 h2 h3
    · obtain ⟨rfl, rfl⟩ := Prod.mk.inj (Except.ok.inj hr)
      exact Or.inl ⟨rfl, rfl, h1⟩
    · obtain ⟨rfl, rfl⟩ := Prod.mk.inj (Except.ok.inj hr)
      exact Or.inr (Or.inl ⟨rfl, rfl, by omega, h2⟩)
    · obtain ⟨rfl, rfl⟩ := Prod.mk.inj (Except.ok.inj hr)
      exact Or.inr (Or.inr ⟨rfl, by omega, by omega, Or.inl ⟨h3, rfl⟩⟩)
    · obtain ⟨s₁, h4, hr⟩ := Run.bind_eq_ok.mp hr
      obtain ⟨rfl, rfl⟩ := Prod.mk.inj (Except.ok.inj hr)
      exact Or.inr (Or.inr ⟨rfl, by omega, by omega, Or.inr ⟨by omega, h4⟩⟩)

theorem writeFileAt_post {p : Ptr} {offset count : ℕ} {buf : List UInt8} {s s' : Filesys}
    (hr : writeFileAt p offset count buf s = .ok s') :
    ∃ ho s₁, ((toU64 (offset + count) ≤ (s.heap p).length ∧ ho = -1 ∧ s₁ = s) ∨
        ((s.heap p).length < toU64 (offset + count) ∧
          resizeFileHelper p (toU64 (offset + count)) offset s = .ok (ho, s₁))) ∧
      count ≤ buf.length ∧ (s₁.heap p).offset + offset + count ≤ s₁.file.length ∧
      ((0 ≤ toI32 ho ∧ computeHashBlockRange (toI32 ho) (s₁.used - toI32 ho) { s₁ with
          file := splice s₁.file ((s₁.heap p).offset + offset) (buf.take count) } = .ok s') ∨
        (toI32 ho < 0 ∧ computeHashBlockRange (toI64 ((s₁.heap p).offset + offset))
          (toI64 count) { s₁ with
            file := splice s₁.file ((s₁.heap p).offset + offset) (buf.take count) } =
          .ok s')) := by
  unfold writeFileAt at hr
  obtain ⟨⟨ho, s₁⟩, h1, hr⟩ := Run.bind_eq_ok.mp hr
  refine ⟨ho, s₁, ?_, ?_⟩
  · split_ifs at h1 with hc
    · exact Or.inr ⟨hc, h1⟩
    · obtain ⟨rfl, rfl⟩ := Prod.mk.inj (Except.ok.inj h1)
      exact Or.inl ⟨by omega, rfl, rfl⟩
  dsimp only at hr
  obtain ⟨data, hd, hr⟩ := Run.bind_eq_ok.mp hr
  obtain ⟨file, hw, hr⟩ := Run.bind_eq_ok.mp hr
  obtain ⟨hb1, rfl⟩ := memRead_eq_ok.mp hd
  obtain ⟨hb2, rfl⟩ := memWrite_eq_ok.mp hw
  have hdata : slice buf (0 : ℤ).toNat count = buf.take count := by simp [slice]
  rw [hdata] at hr hb2
  rw [List.length_take] at hb2
  refine ⟨by omega, by omega, ?_⟩
  rw [Int.toNat_natCast] at hr
  split_ifs at hr with hho
  · exact Or.inl ⟨hho, hr⟩
  · exact Or.inr ⟨by omega, hr⟩

/-- A completed deletion: both arrays give the file up, its entry gets a NUL name. -/
theorem deleteFile_post {name : CString} {s s' : Filesys} {r : ℤ}
    (hr : deleteFile name s = .ok (r, s')) :
    (r = 1 ∧ s' = s ∧ lookup name s = .ok none) ∨
    (r = 0 ∧ ∃ p s₁ s₂, lookup name s = .ok (some p) ∧
      removeAt .offset (s.heap p).oIndex { s with
        used := s.used - (s.heap p).length
        index := s.index.set (s.heap p).index 0
        indexCount := s.indexCount - 1 } = .ok s₁ ∧
      removeAt .name (s₁.heap p).nIndex s₁ = .ok s₂ ∧
      metaLen * (s.heap p).index + 1 ≤ s₂.dir.length ∧
      s' = freeFile p { s₂ with dir := splice s₂.dir (metaLen * (s.heap p).index) [0] }) := by
  unfold deleteFile at hr
  obtain ⟨q, hq, hr⟩ := Run.bind_eq_ok.mp hr
  cases q with
  | none =>
    obtain ⟨rfl, rfl⟩ := Prod.mk.inj (Except.ok.inj hr)
    exact Or.inl ⟨rfl, rfl, hq⟩
  | some p =>
    dsimp only at hr
    obtain ⟨s₁, h1, hr⟩ := Run.bind_eq_ok.mp hr
    obtain ⟨s₂, h2, hr⟩ := Run.bind_eq_ok.mp hr
    obtain ⟨dir, h3, hr⟩ := Run.bind_eq_ok.mp hr
    obtain ⟨rfl, rfl⟩ := Prod.mk.inj (Except.ok.inj hr)
    unfold writeNullByte at h3
    rw [if_neg (by omega)] at h3
    obtain ⟨_, _, h3⟩ := Run.bind_eq_ok.mp h3
    obtain ⟨hb, rfl⟩ := memWrite_eq_ok.mp h3
    have h1' : List.replicate (1 : ℤ).toNat (0 : UInt8) = [0] := rfl
    rw [h1', List.length_singleton] at hb
    refine Or.inr ⟨rfl, p, s₁, s₂, hq, h1, h2, by omega, ?_⟩
    rw [h1', Int.toNat_natCast]

theorem renameFile_post {oldname newname : CString} {s s' : Filesys} {r : ℤ}
    (hr : renameFile oldname newname s = .ok (r, s')) :
    (s' = s ∧ ((r = 1 ∧ lookup oldname s = .ok none) ∨
      ∃ p, lookup oldname s = .ok (some p) ∧
        ((r = 0 ∧ oldname = newname) ∨
          (r = 1 ∧ oldname ≠ newname ∧ ∃ q, lookup newname s = .ok (some q))))) ∨
    (r = 0 ∧ oldname ≠ newname ∧ ∃ p, lookup oldname s = .ok (some p) ∧
      lookup newname s = .ok none ∧
      metaLen * (s.heap p).index + (newname.toFileName.bytes.length + 1) ≤ s.dir.length ∧
      s' = { s with
        heap := s.heap.set p { s.heap p with name := newname.toFileName }
        dir := splice s.dir (metaLen * (s.heap p).index) (newname.toFileName.bytes ++ [0]) }) := by
  unfold renameFile at hr
  obtain ⟨q, hq, hr⟩ := Run.bind_eq_ok.mp hr
  cases q with
  | none =>
    obtain ⟨rfl, rfl⟩ := Prod.mk.inj (Except.ok.inj hr)
    exact Or.inl ⟨rfl, Or.inl ⟨rfl, hq⟩⟩
  | some p =>
    dsimp only at hr
    split_ifs at hr with he
    · obtain ⟨rfl, rfl⟩ := Prod.mk.inj (Except.ok.inj hr)
      exact Or.inl ⟨rfl, Or.inr ⟨p, hq, Or.inl ⟨rfl, he⟩⟩⟩
    · obtain ⟨q', hq', hr⟩ := Run.bind_eq_ok.mp hr
      cases q' with
      | some q' =>
        obtain ⟨rfl, rfl⟩ := Prod.mk.inj (Except.ok.inj hr)
        exact Or.inl ⟨rfl, Or.inr ⟨p, hq, Or.inr ⟨rfl, he, q', hq'⟩⟩⟩
      | none =>
        dsimp only at hr
        obtain ⟨s₁, h1, hr⟩ := Run.bind_eq_ok.mp hr
        obtain ⟨rfl, rfl⟩ := Prod.mk.inj (Except.ok.inj hr)
        obtain ⟨hb, rfl⟩ := writeDir_eq_ok.mp h1
        refine Or.inr ⟨rfl, he, p, hq, hq', ?_, ?_⟩
        · simpa [updateFileName] using hb
        · simp [updateFileName]

theorem repack_post {s s' : Filesys} (hr : repack s = .ok s') :
    ∃ ho s₁, repackHelper s = .ok (ho, s₁) ∧
      ((0 ≤ ho ∧ computeHashBlockRange ho (s₁.used - ho) s₁ = .ok s') ∨ (ho < 0 ∧ s' = s₁)) := by
  unfold repack at hr
  obtain ⟨⟨ho, s₁⟩, h1, hr⟩ := Run.bind_eq_ok.mp hr
  refine ⟨ho, s₁, h1, ?_⟩
  dsimp only at hr
  split_ifs at hr with hho
  · exact Or.inl ⟨hho, hr⟩
  · exact Or.inr ⟨by omega, (Except.ok.inj hr).symm⟩

/-- Behind the move a repack only hashes. -/
theorem repack_frame {s s' : Filesys} (hr : repack s = .ok s') :
    ∃ ho s₁, repackHelper s = .ok (ho, s₁) ∧ HashFrame s₁ s' := by
  obtain ⟨ho, s₁, h1, ⟨-, h2⟩ | ⟨-, rfl⟩⟩ := repack_post hr
  · exact ⟨ho, s₁, h1, computeHashBlockRange_frame h2⟩
  · exact ⟨ho, s', h1, HashFrame.refl s'⟩

end Vfs
