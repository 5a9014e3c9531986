import VirtualFileSystem.Layout
import VirtualFileSystem.MirrorRun

/-!
# The layout over runs

From null images the offset array holds every live file once and in order, and the files of
non-zero size lie apart inside `file_data`, in every state reached by calls that grow files and
repack safely.
-/

namespace Vfs

open FlatImage Extents

/-! ## Calls -/

/-- The call grows a file from a length not below `low` to `length`, and does so safely. -/
def GrowsSafely (name : CString) (low length : ℕ) (s : Filesys) : Prop :=
  match lookup name s with
  | .ok (some p) => low ≤ (s.heap p).length → (s.heap p).length < length →
      s.used + length ≤ s.fileDataLen + (s.heap p).length → GrowSafe p length s
  | _ => True

/-- A file of non-zero size that finds no gap has a repack with room. -/
def CreatesSafely (name : CString) (length : ℕ) (s : Filesys) : Prop :=
  match lookup name s, findGap length s with
  | .ok none, .ok none => 0 < length → s.used + length ≤ s.fileDataLen →
      s.indexCount < s.indexLen → Roomy 0 (exts s.heap s.oList.list)
  | _, _ => True

/-- The call grows files and repacks safely. -/
def Call.LayoutSafe : Call → Filesys → Prop
  | .create name length, s => CreatesSafely name length s
  | .resize name length, s => GrowsSafely name 0 length s
  | .write name offset count _, s => GrowsSafely name offset (offset + count) s
  | .repack, s => Roomy 0 (exts s.heap s.oList.list)
  | _, _ => True

instance (name : CString) (low length : ℕ) (s : Filesys) :
    Decidable (GrowsSafely name low length s) := by
  unfold GrowsSafely
  split <;> infer_instance

instance (name : CString) (length : ℕ) (s : Filesys) :
    Decidable (CreatesSafely name length s) := by
  unfold CreatesSafely
  split <;> infer_instance

instance decidableLayoutSafe : ∀ (c : Call) (s : Filesys), Decidable (c.LayoutSafe s)
  | .create name length, s => inferInstanceAs (Decidable (CreatesSafely name length s))
  | .resize name length, s => inferInstanceAs (Decidable (GrowsSafely name 0 length s))
  | .write name offset count _, s =>
    inferInstanceAs (Decidable (GrowsSafely name offset (offset + count) s))
  | .repack, s => inferInstanceAs (Decidable (Roomy 0 (exts s.heap s.oList.list)))
  | .delete _, _ | .rename _ _, _ | .read _ _ _, _ | .size _, _ => .isTrue trivial

section Calls

variable {w : ℕ} {s s' s₁ : Filesys} {p : Ptr} {length o : ℕ} {ho ho' : ℤ}

/-- The admission checks, without wrap-around. -/
theorem admitted_le (hm : Mirror w s) (hp : p ∈ s.live) (hlen : length < 2 ^ 63 + 2 ^ 32)
    (hadm : toU64 (s.used + length - (s.heap p).length) ≤ s.fileDataLen) :
    s.used + length ≤ s.fileDataLen + (s.heap p).length := by
  have hused := hm.counted.used
  have hle := length_le_totalLength (h := s.heap) hp
  have hbound := hm.counted.totalLength_le
  rw [toU64_of_nonneg (by omega) (by omega)] at hadm
  omega

theorem PackedBy.layout (hpk : PackedBy s s') (hf : RepackFrame s s') (hL : Layout s)
    (hm : Mirror w s) (hle : s.used ≤ s.fileDataLen) : Layout s' := by
  have hlist : s'.oList.list = s.oList.list := by rw [hf.eq]
  have hlive : s'.live = s.live := hf.kept.live
  have hfile : s'.fileDataLen = s.fileDataLen := hf.file_length
  refine ⟨?_, ?_, fun q hq => ?_⟩
  · rw [hlist, hlive]
    exact hL.perm
  · rw [hlist]
    exact hpk.lined
  · rw [hlive] at hq
    rw [hfile, hf.offsetOnly.length]
    have htotal := hL.total_eq hm
    have hoff := hf.offset_le q
    rcases hpk.start_le q (hL.mem hq) with h | ⟨-, h⟩
    · have hr := hL.range q hq
      omega
    · rw [h]
      exact hL.range q hq

/-- A repack with room keeps the layout. -/
theorem repackHelper_layout (hm : Mirror w s) (hL : Layout s) (hfdl : s.fileDataLen ≤ 2 ^ 32)
    (hle : s.used ≤ s.fileDataLen) (hroomy : Roomy 0 (exts s.heap s.oList.list))
    (hr : repackHelper s = .ok (ho, s')) : Layout s' ∧ (0 < s.used → PackedBy s s') := by
  have hlen : ∀ q ∈ s.oList.list, (s.heap q).length < 2 ^ 32 :=
    fun q hq => hm.counted.length_lt q (hL.live hq)
  have hpk : 0 < s.used → PackedBy s s' := fun hu =>
    repackHelper_packedBy hm.liveOk.offsets.nodup hlen hL.lined (hL.sentinelEmpty hfdl)
      (by have := hL.total_eq hm; unfold maxFileDataLen; omega) hroomy hu hr
  refine ⟨?_, hpk⟩
  rcases le_or_gt s.used 0 with hu | hu
  · rcases repackHelper_slid hm.liveOk.offsets.nodup hlen hr with ⟨-, rfl, -⟩ | ⟨h, -⟩
    · exact hL
    · omega
  · exact (hpk hu).layout (repackHelper_frame hr) hL hm hle

/-- If no gap was found, there is a file of non-zero size. -/
theorem exists_of_findGap_none (hg : findGap length s = .ok none) :
    ∃ q ∈ s.oList.list, 0 < (s.heap q).length := by
  unfold findGap findNextNonzeroFile at hg
  simp only [Int.toNat_zero, List.drop_zero] at hg
  cases hf : findNextNonzero s.heap s.oList.list with
  | none =>
    rw [hf] at hg
    cases hg
  | some q =>
    obtain ⟨A, B, hl, -, h0, -⟩ := findNextNonzero_eq_some hf
    exact ⟨q, by rw [hl]; simp, h0⟩

/-- `new_file_offset` returns the sentinel offset or free room. -/
theorem newFileOffset_free (hm : Mirror w s) (hL : Layout s) (hfdl : s.fileDataLen ≤ 2 ^ 32)
    (hroom : s.used + length ≤ s.fileDataLen)
    (hsafe : 0 < length → findGap length s = .ok none → Roomy 0 (exts s.heap s.oList.list))
    (hr : newFileOffset length ho s = .ok (o, ho', s')) :
    Layout s' ∧ FreeAt s'.heap s'.oList.list o length ∧
      ((length = 0 ∧ o = maxFileDataLen) ∨ (0 < length ∧ o + length ≤ s.fileDataLen)) := by
  have hused := hL.total_eq hm
  obtain ⟨-, ⟨rfl, -, ⟨rfl, rfl⟩ | ⟨hpos, hgap⟩⟩ | ⟨hpos, hgap, hrep, rfl⟩⟩ :=
    newFileOffset_post hr
  · refine ⟨hL, fun q hq h0 => Or.inl ?_, Or.inl ⟨rfl, rfl⟩⟩
    have := (hL.inRange hfdl q (hL.live hq)).2 h0
    unfold maxFileDataLen
    omega
  · obtain ⟨r, hr', hfree⟩ := findGap_spec (hL.searchable hm hfdl)
      (show length ≤ _ by omega)
    obtain rfl : some o = r := by
      have := hgap.symm.trans hr'
      exact Except.ok.inj this
    obtain ⟨h1, h2⟩ := hfree o rfl
    exact ⟨hL, h1, Or.inr ⟨hpos, h2⟩⟩
  · obtain ⟨q, hq, hq0⟩ := exists_of_findGap_none hgap
    have hle := length_le_totalLength (h := s.heap) hq
    obtain ⟨hL', hpk⟩ := repackHelper_layout hm hL hfdl (by omega) (hsafe hpos hgap) hrep
    have hf := repackHelper_frame hrep
    have ho' : toU64 s'.used = totalLength s.heap s.oList.list := by
      rw [hf.used, hused]
      exact toU64_of_lt (by omega)
    refine ⟨hL', fun r hr h0 => Or.inl ?_, Or.inr ⟨hpos, by omega⟩⟩
    rw [ho']
    rw [hf.eq] at hr
    exact (hpk (by omega)).stop_le r hr h0

/-- A new file takes its place. -/
theorem Registered.layout {name : FileName} {i : ℕ} (hreg : Registered name o length i s s')
    (hs : LiveOk s) (hL : Layout s) (hfdl : s.fileDataLen ≤ 2 ^ 32)
    (hfree : FreeAt s.heap s.oList.list o length)
    (ho : (length = 0 ∧ o = maxFileDataLen) ∨ (0 < length ∧ o + length ≤ s.fileDataLen)) :
    Layout s' := by
  have hlive := hreg.live
  have hfile : s'.fileDataLen = s.fileDataLen := by rw [hreg.eq]; rfl
  have htype : s.oList.type = .offset := hs.offsets.type_eq
  have hfresh : ∀ q ∈ s.live, q ≠ s.next := fun q hq => (hs.fresh q hq).ne
  have hsame : ∀ q ∈ s.oList.list, (s'.heap q).offset = (s.heap q).offset ∧
      (s'.heap q).length = (s.heap q).length := fun q hq => by
    have := hreg.old q (hfresh q (hL.live hq))
    exact ⟨this.2.1, this.2.2.1⟩
  have hnew : (s'.heap s.next).offset = o ∧ (s'.heap s.next).length = length :=
    ⟨hreg.new.2.1, hreg.new.2.2.1⟩
  have hpart : ∃ j : ℕ, s'.oList.list = insertAt s.oList.list j s.next ∧
      Lined s'.heap (insertAt s.oList.list j s.next) := by
    rcases ho with ⟨h0, ho⟩ | ⟨h0, ho⟩
    · have hget := arrGetIndex_of_empty (f := ⟨name, o, length, i, -1, -1⟩) (h := s.heap)
        htype h0
      refine ⟨_, hreg.oList hget, lined_append hL.lined hsame (fun q hq => ?_) ?_⟩
      · rw [hnew.1, ho]
        exact (hL.inRange hfdl q (hL.live hq)).1
      · rw [hnew.1, hnew.2]
        exact hfree
    · obtain ⟨k, -, hget, h1, h2⟩ := arrGetIndex_offset (f := ⟨name, o, length, i, -1, -1⟩)
        htype hL.lined.sorted (by show o < _; unfold maxFileDataLen; omega) h0
        (fun q hq hq0 => by
          show (s.heap q).offset ≠ o
          have := hfree q hq hq0
          omega)
      refine ⟨k, hreg.oList hget, lined_insertAt hL.lined hsame ?_ ?_ ?_⟩
      · rw [hnew.1]
        exact h1
      · rw [hnew.1]
        exact h2
      · rw [hnew.1, hnew.2]
        exact hfree
  obtain ⟨j, hl, hlined⟩ := hpart
  refine ⟨?_, by rw [hl]; exact hlined, fun q hq => ?_⟩
  · rw [hl, hlive]
    exact (insertAt_perm _ _ _).trans (hL.perm.cons _)
  · rw [hfile]
    rw [hlive] at hq
    rcases List.mem_cons.mp hq with rfl | hq
    · rw [hnew.1, hnew.2]
      rcases ho with ⟨h0, ho⟩ | ⟨-, ho⟩
      · exact Or.inl ⟨ho, h0⟩
      · exact Or.inr ho
    · rw [(hsame q (hL.mem hq)).1, (hsame q (hL.mem hq)).2]
      exact hL.range q hq

theorem HashFrame.layout (hf : HashFrame s s') (hL : Layout s) : Layout s' := by
  rw [hf.eq]
  exact hL.congr rfl rfl rfl fun _ _ => ⟨rfl, rfl⟩

theorem writeNullFile_layout {b c : ℤ} (hL : Layout s) (hr : writeNullFile b c s = .ok s') :
    Layout s' := by
  rcases writeNullFile_post hr with ⟨-, rfl⟩ | ⟨h1, -, h2, h3, rfl⟩
  · exact hL
  · refine hL.congr rfl rfl ?_ fun _ _ => ⟨rfl, rfl⟩
    refine length_splice ?_
    rw [List.length_replicate]
    omega

theorem createFileAt_layout {name : CString} (hm : Mirror w s) (hL : Layout s)
    (hfdl : s.fileDataLen ≤ 2 ^ 32) (hlen : length < 2 ^ 32) (hne : name.bytes ≠ [])
    (hl : lookup name s = .ok none) (hroom : s.used + length ≤ s.fileDataLen)
    (hsafe : 0 < length → findGap length s = .ok none → Roomy 0 (exts s.heap s.oList.list))
    (hr : createFileAt name length s = .ok s') : Layout s' := by
  obtain ⟨i, o, ho, s₁, s₂, -, hnew, hf, hcr, hrest⟩ := createFileAt_steps hm.liveOk hne hl hr
  obtain ⟨hL₁, hfree, hplace⟩ := newFileOffset_free hm hL hfdl hroom hsafe hnew
  have hfile : s₁.fileDataLen = s.fileDataLen := hf.file_length
  rw [toU32_of_lt hlen] at hcr
  obtain ⟨s₃, hreg, he⟩ := hcr.registered
  have hL₂ : Layout s₂ := by
    have := hreg.layout (hf.liveOk hm.liveOk) hL₁ (hfile ▸ hfdl) hfree (hfile ▸ hplace)
    rw [he]
    exact this.congr rfl rfl rfl fun _ _ => ⟨rfl, rfl⟩
  rcases hrest with ⟨-, rfl⟩ | ⟨-, s₄, h4, h5⟩
  · exact hL₂
  have hL₄ : Layout { s₄ with used := toI64 (s₄.used + length) } :=
    (writeNullFile_layout hL₂ h4).congr rfl rfl rfl fun _ _ => ⟨rfl, rfl⟩
  exact (hashEither_frame h5).layout hL₄

theorem resizeFileAt_layout (hm : Mirror w s) (hL : Layout s) (hfdl : s.fileDataLen ≤ 2 ^ 32)
    (hp : p ∈ s.live) (hlen : length < 2 ^ 32)
    (hroom : s.used + length ≤ s.fileDataLen + (s.heap p).length)
    (hsafe : (s.heap p).length < length → GrowSafe p length s)
    (hr : resizeFileAt p length s = .ok s') : Layout s' := by
  obtain ⟨ho, s₁, h1, h2⟩ := resizeFileAt_post hr
  have hL₁ := resizeFileHelper_layout hm hL hfdl hp hlen hroom hsafe h1
  rcases h2 with ⟨-, rfl⟩ | ⟨-, s₂, h2, h3⟩
  · exact hL₁
  · exact (hashEither_frame h3).layout (writeNullFile_layout hL₁ h2)

theorem writeFileAt_layout {offset count : ℕ} {buf : List UInt8} (hm : Mirror w s)
    (hL : Layout s) (hfdl : s.fileDataLen ≤ 2 ^ 32) (hp : p ∈ s.live)
    (hfit : offset + count ≤ s.fileDataLen → offset + count < 2 ^ 32)
    (hadm : toU64 (s.used + offset + count - (s.heap p).length) ≤ s.fileDataLen)
    (hsafe : (s.heap p).length < offset + count →
      s.used + (offset + count : ℕ) ≤ s.fileDataLen + (s.heap p).length →
      GrowSafe p (offset + count) s)
    (hr : writeFileAt p offset count buf s = .ok s') : Layout s' := by
  obtain ⟨ho, s₁, h1, hcount, hb, h2⟩ := writeFileAt_post hr
  have hL₁ : Layout s₁ := by
    rcases h1 with ⟨-, -, rfl⟩ | ⟨hgt, h1⟩
    · exact hL
    have hfile := (resizeFileHelper_liveOk hm.liveOk hp h1).2.shape.file
    have hle : offset + count ≤ s.fileDataLen := by
      unfold Filesys.fileDataLen
      omega
    have hlt := hfit hle
    have hsum : toU64 (offset + count) = offset + count := by
      exact_mod_cast toU64_of_lt (n := offset + count) (by omega)
    rw [hsum] at h1 hgt
    have hroom := admitted_le hm hp (show offset + count < 2 ^ 63 + 2 ^ 32 by omega)
      (by push_cast; rw [← add_assoc]; exact hadm)
    exact resizeFileHelper_layout hm hL hfdl hp hlt hroom (fun h => hsafe h hroom) h1
  have hL₂ : Layout { s₁ with
      file := splice s₁.file ((s₁.heap p).offset + offset) (buf.take count) } := by
    refine hL₁.congr rfl rfl (length_splice ?_) fun _ _ => ⟨rfl, rfl⟩
    rw [List.length_take]
    omega
  exact (hashEither_frame h2).layout hL₂

theorem Deleted.layout (hd : Deleted p s s') (hL : Layout s) : Layout s' := by
  have hlist : s'.oList.list = s.oList.list.erase p := by rw [hd.oList]
  have hlive : s'.live = s.live.erase p := by rw [hd.eq]
  have hfile : s'.fileDataLen = s.fileDataLen := by rw [hd.eq]; rfl
  refine ⟨?_, ?_, fun q hq => ?_⟩
  · rw [hlist, hlive]
    exact hL.perm.erase p
  · rw [hlist]
    exact (hL.lined.sublist List.erase_sublist).congr fun q _ =>
      ⟨(hd.same q).2.1, (hd.same q).2.2.1⟩
  · rw [hlive] at hq
    rw [(hd.same q).2.1, (hd.same q).2.2.1, hfile]
    exact hL.range q (List.mem_of_mem_erase hq)

/-- One step lemma: safe calls keep the layout. -/
theorem exec_layout {c : Call} {a : Answer} (hm : Mirror w s) (hL : Layout s)
    (hfdl : s.fileDataLen ≤ 2 ^ 32) (hc : c.Named) (hfit : c.Fits32 s.fileDataLen)
    (hsafe : c.LayoutSafe s) (hr : exec c s = .ok (a, s')) : Layout s' := by
  cases exec_effect hm.liveOk hr with
  | idle => exact hL
  | @create name length _ _ hl hadm hat =>
    rw [not_or, not_lt] at hadm
    have hfit' : length < 2 ^ 32 := hfit
    have hroom : s.used + length ≤ s.fileDataLen := by
      have hused := hm.counted.used
      have hbound := hm.counted.totalLength_le
      rw [toU64_of_nonneg (by omega) (by omega)] at hadm
      omega
    refine createFileAt_layout hm hL hfdl hfit (hc name (by simp [Call.names])) hl hroom
      (fun h0 hgap => ?_) hat
    simp only [Call.LayoutSafe, CreatesSafely, hl, hgap] at hsafe
    exact hsafe h0 hroom (by omega)
  | @resize name length p _ _ hl hadm hat =>
    have hp := (hm.liveOk.lookup hl).1
    have hfit' : length < 2 ^ 32 := hfit
    have hroom := admitted_le hm hp (by omega) hadm
    simp only [Call.LayoutSafe, GrowsSafely, hl] at hsafe
    exact resizeFileAt_layout hm hL hfdl hp hfit hroom
      (fun hlt => hsafe (Nat.zero_le _) hlt hroom) hat
  | write hl hoff hadm hat =>
    simp only [Call.LayoutSafe, GrowsSafely, hl] at hsafe
    exact writeFileAt_layout hm hL hfdl (hm.liveOk.lookup hl).1 hfit hadm
      (fun hlt hroom => hsafe hoff hlt hroom) hat
  | delete hl hd => exact hd.layout hL
  | @rename old new p _ hl hnew hb =>
    refine hL.congr rfl rfl rfl fun q _ => ?_
    by_cases hq : q = p
    · subst hq
      simp
    · simp [Heap.set_of_ne _ _ hq]
  | repack hat =>
    obtain ⟨ho, s₁, h1, hhash⟩ := repack_frame hat
    obtain ⟨hL₁, -⟩ := repackHelper_layout hm hL hfdl (hL.used_le hm hfdl) hsafe h1
    exact hhash.layout hL₁

end Calls

/-! ## Runs -/

section Runs

variable {file dir hash : List UInt8} {s₀ s : Filesys} {cs : List Call} {as : List Answer}

/-- No entry of a null directory is in use. -/
theorem not_used_of_zero (hzero : ∀ b ∈ dir, b = 0) (i : ℕ) : ¬ Used (entry dir i) := by
  unfold Used
  cases he : entry dir i with
  | nil => simp
  | cons b bs =>
    have hb : b ∈ slice dir (metaLen * i) metaLen := by
      have : b ∈ entry dir i := by rw [he]; exact List.mem_cons_self
      exact this
    simpa using hzero b (mem_of_mem_slice hb)

/-- The layout and the mirror of null images. -/
theorem initFs_zero_layout (hzero : ∀ b ∈ dir, b = 0) (hinit : initFs file dir hash = .ok s₀) :
    Mirror (nameLen - 1) s₀ ∧ Layout s₀ ∧ s₀.file.length = file.length := by
  have hfree : ∀ i, ¬ Used (entry dir i) := not_used_of_zero hzero
  obtain ⟨hm, -, hfile⟩ := initFs_mirror (w := nameLen - 1)
    (fun i _ _ _ hu => absurd hu (hfree i)) (Or.inl rfl) (fun i _ hu => absurd hu (hfree i)) hinit
  refine ⟨hm, ?_, hfile⟩
  obtain ⟨n, -, -, rfl⟩ := initFs_zero hzero hinit
  refine ⟨List.Perm.nil, List.Pairwise.nil, fun p hp => ?_⟩
  cases hp

/-- Safe calls on null images keep the layout and the mirror. -/
theorem layout_run (hfdl : file.length ≤ 2 ^ 32) (hzero : ∀ b ∈ dir, b = 0)
    (hinit : initFs file dir hash = .ok s₀) (hnamed : ∀ c ∈ cs, c.Named)
    (hfit : ∀ c ∈ cs, c.Fits32 file.length) (hsafe : Trace.Along exec Call.LayoutSafe cs s₀)
    (hrun : Trace.run exec cs s₀ = .ok (as, s)) :
    Mirror (nameLen - 1) s ∧ Layout s ∧ s.fileDataLen ≤ 2 ^ 32 := by
  obtain ⟨hm₀, hL₀, hfile₀⟩ := initFs_zero_layout hzero hinit
  have hnamed' : Trace.Along exec (fun c _ => c.Named) cs s₀ :=
    Trace.along_of_forall (fun _ _ h => h) cs s₀ hnamed
  have hfit' : Trace.Along exec (fun c _ => c.Fits32 file.length) cs s₀ :=
    Trace.along_of_forall (fun _ _ h => h) cs s₀ hfit
  have hI := Trace.run_induct
    (I := fun s => Mirror (nameLen - 1) s ∧ Layout s ∧ s.file.length = file.length)
    (fun c s a s' hI hP hr => by
      obtain ⟨hm, hL, hlen⟩ := hI
      obtain ⟨⟨hc, hf⟩, hsafe⟩ := hP
      have hle : s.fileDataLen ≤ 2 ^ 32 := by unfold Filesys.fileDataLen; omega
      have hf' : c.Fits32 s.fileDataLen := by unfold Filesys.fileDataLen; rw [hlen]; exact hf
      refine ⟨(exec_mirror (by decide) hm (hL.inRange hle) hle hc hf' hr).1,
        exec_layout hm hL hle hc hf' hsafe hr, ?_⟩
      exact (exec_liveOk hm.liveOk hc hr).2.shape.file.trans hlen)
    cs s₀ s as ⟨hm₀, hL₀, hfile₀⟩ ((hnamed'.and hfit').and hsafe) hrun
  refine ⟨hI.1, hI.2.1, ?_⟩
  unfold Filesys.fileDataLen
  omega

end Runs

/-- Every file of non-zero size lies inside `file_data`, and no two of them overlap. -/
structure ExtentsApart (s : Filesys) : Prop where
  inside : ∀ p ∈ s.live, 0 < (s.heap p).length →
    (s.heap p).offset + (s.heap p).length ≤ s.fileDataLen
  apart : ∀ p ∈ s.live, ∀ q ∈ s.live, p ≠ q → 0 < (s.heap p).length → 0 < (s.heap q).length →
    (s.heap p).offset + (s.heap p).length ≤ (s.heap q).offset ∨
      (s.heap q).offset + (s.heap q).length ≤ (s.heap p).offset

/-- The offset array holds every live file once, at the position it stores, in the order of the
offsets, and the files at the sentinel offset have size zero. -/
structure OffsetIndex (s : Filesys) : Prop where
  nodup : s.oList.list.Nodup
  mem_iff : ∀ p, p ∈ s.oList.list ↔ p ∈ s.live
  position : ∀ (i : ℕ) p, s.oList.list[i]? = some p → (s.heap p).oIndex = i
  sorted : OffsetSorted s.heap s.oList.list
  sentinel : ∀ p ∈ s.live, (s.heap p).offset ≤ maxFileDataLen ∧
    ((s.heap p).offset = maxFileDataLen → (s.heap p).length = 0)

theorem Layout.extentsApart {s : Filesys} (hL : Layout s) (hfdl : s.fileDataLen ≤ 2 ^ 32) :
    ExtentsApart s where
  inside := fun p hp h0 => (hL.inRange hfdl p hp).2 h0
  apart := fun _ hp _ hq hne h0 h1 => hL.lined.apart (hL.mem hp) (hL.mem hq) hne h0 h1

/-- **Extents over runs.**  From null images, safe calls keep the files inside `file_data` and
apart. -/
theorem extentsApart_run {file dir hash : List UInt8} {s₀ s : Filesys} {cs : List Call}
    {as : List Answer} (hfdl : file.length ≤ 2 ^ 32) (hzero : ∀ b ∈ dir, b = 0)
    (hinit : initFs file dir hash = .ok s₀) (hnamed : ∀ c ∈ cs, c.Named)
    (hfit : ∀ c ∈ cs, c.Fits32 file.length) (hsafe : Trace.Along exec Call.LayoutSafe cs s₀)
    (hrun : Trace.run exec cs s₀ = .ok (as, s)) : ExtentsApart s := by
  obtain ⟨hm, hL, hle⟩ := layout_run hfdl hzero hinit hnamed hfit hsafe hrun
  exact hL.extentsApart hle

/-- Calls that move, empty, reuse and repack extents. -/
def shuffleCalls : List Call :=
  [.create (.ofByte 97 (by decide)) 2, .create (.ofByte 98 (by decide)) 0,
    .write (.ofByte 98 (by decide)) 0 1 [7], .resize (.ofByte 97 (by decide)) 0,
    .create (.ofByte 99 (by decide)) 1, .repack, .resize (.ofByte 99 (by decide)) 3]

set_option maxRecDepth 20000 in
/-- On null images of one block and three entries these calls complete and are safe. -/
theorem shuffleCalls_safe : ∃ s₀ as s, initFs (zeros 256) (zeros 216) (zeros 16) = .ok s₀ ∧
    Trace.Along exec Call.LayoutSafe shuffleCalls s₀ ∧
    Trace.run exec shuffleCalls s₀ = .ok (as, s) := by
  obtain ⟨s₀, hinit, hsafe, hrun⟩ := Run.holds_iff.mp
    (show Run.Holds (initFs (zeros 256) (zeros 216) (zeros 16)) (fun s₀ =>
      Trace.Along exec Call.LayoutSafe shuffleCalls s₀ ∧
        Run.Holds (Trace.run exec shuffleCalls s₀) fun _ => True) by decide +kernel)
  obtain ⟨⟨as, s⟩, hr, -⟩ := Run.holds_iff.mp hrun
  exact ⟨s₀, as, s, hinit, hsafe, hr⟩

/-- The extents after the calls of `shuffleCalls`. -/
theorem extentsApart_run_shuffle : ∃ s₀ as s,
    initFs (zeros 256) (zeros 216) (zeros 16) = .ok s₀ ∧
      Trace.run exec shuffleCalls s₀ = .ok (as, s) ∧ ExtentsApart s := by
  obtain ⟨s₀, as, s, hinit, hsafe, hrun⟩ := shuffleCalls_safe
  exact ⟨s₀, as, s, hinit, hrun, extentsApart_run (by rw [length_zeros]; norm_num)
    (fun _ => eq_zero_of_mem_zeros) hinit (by decide +kernel) (by decide +kernel) hsafe hrun⟩

set_option maxRecDepth 20000 in
/-- A file of size zero keeps its offset inside the file that grows over it; a repack then moves
the file behind it onto that one. -/
theorem extentsApart_fails : ¬ ∀ (file dir hash : List UInt8) (s₀ s : Filesys) (cs : List Call)
    (as : List Answer), file.length ≤ 2 ^ 32 → (∀ b ∈ file, b = 0) → (∀ b ∈ dir, b = 0) →
    (∀ b ∈ hash, b = 0) → initFs file dir hash = .ok s₀ → (∀ c ∈ cs, c.Named) →
    (∀ c ∈ cs, c.Fits file.length) → Trace.run exec cs s₀ = .ok (as, s) → ExtentsApart s := by
  intro h
  obtain ⟨s₀, hinit, hrun⟩ := Run.holds_iff.mp
    (show Run.Holds (initFs (zeros 256) (zeros 216) (zeros 16)) (fun s₀ =>
      Run.Holds (Trace.run exec [.create (.ofByte 97 (by decide)) 2,
        .create (.ofByte 98 (by decide)) 1, .create (.ofByte 99 (by decide)) 1,
        .resize (.ofByte 98 (by decide)) 0, .resize (.ofByte 97 (by decide)) 3, .repack] s₀)
        fun r => ∃ p ∈ r.2.live, ∃ q ∈ r.2.live, p ≠ q ∧ 0 < (r.2.heap p).length ∧
          0 < (r.2.heap q).length ∧
          ¬ ((r.2.heap p).offset + (r.2.heap p).length ≤ (r.2.heap q).offset ∨
            (r.2.heap q).offset + (r.2.heap q).length ≤ (r.2.heap p).offset))
      by decide +kernel)
  obtain ⟨⟨as, s⟩, hr, p, hp, q, hq, hne, h0, h1, hbad⟩ := Run.holds_iff.mp hrun
  refine hbad ((h _ _ _ s₀ s _ as ?_ ?_ ?_ ?_ hinit ?_ ?_ hr).apart p hp q hq hne h0 h1)
  · rw [length_zeros]
    norm_num
  · exact fun _ => eq_zero_of_mem_zeros
  · exact fun _ => eq_zero_of_mem_zeros
  · exact fun _ => eq_zero_of_mem_zeros
  · decide +kernel
  · decide +kernel

/-- **The offset index over runs.**  From null images, safe calls keep the offset array complete
and in order. -/
theorem offsetIndex_run {file dir hash : List UInt8} {s₀ s : Filesys} {cs : List Call}
    {as : List Answer} (hfdl : file.length ≤ 2 ^ 32) (hzero : ∀ b ∈ dir, b = 0)
    (hinit : initFs file dir hash = .ok s₀) (hnamed : ∀ c ∈ cs, c.Named)
    (hfit : ∀ c ∈ cs, c.Fits32 file.length) (hsafe : Trace.Along exec Call.LayoutSafe cs s₀)
    (hrun : Trace.run exec cs s₀ = .ok (as, s)) : OffsetIndex s := by
  obtain ⟨hm, hL, hle⟩ := layout_run hfdl hzero hinit hnamed hfit hsafe hrun
  refine ⟨hm.liveOk.offsets.nodup, fun p => hL.perm.mem_iff, hm.liveOk.offsets.idxOk,
    hL.lined.sorted, fun p hp => ⟨(hL.inRange hle p hp).1, fun he => ?_⟩⟩
  exact hL.sentinelEmpty hle p (hL.mem hp) he.ge

/-- The offset array after the calls of `shuffleCalls`. -/
theorem offsetIndex_run_shuffle : ∃ s₀ as s,
    initFs (zeros 256) (zeros 216) (zeros 16) = .ok s₀ ∧
      Trace.run exec shuffleCalls s₀ = .ok (as, s) ∧ OffsetIndex s := by
  obtain ⟨s₀, as, s, hinit, hsafe, hrun⟩ := shuffleCalls_safe
  exact ⟨s₀, as, s, hinit, hrun, offsetIndex_run (by rw [length_zeros]; norm_num)
    (fun _ => eq_zero_of_mem_zeros) hinit (by decide +kernel) (by decide +kernel) hsafe hrun⟩

set_option maxRecDepth 20000 in
/-- A new file that grows into the room at the start is put at the end of the array. -/
theorem offsetIndex_fails : ¬ ∀ (file dir hash : List UInt8) (s₀ s : Filesys) (cs : List Call)
    (as : List Answer), file.length ≤ 2 ^ 32 → (∀ b ∈ file, b = 0) → (∀ b ∈ dir, b = 0) →
    (∀ b ∈ hash, b = 0) → initFs file dir hash = .ok s₀ → (∀ c ∈ cs, c.Named) →
    (∀ c ∈ cs, c.Fits file.length) → Trace.run exec cs s₀ = .ok (as, s) → OffsetIndex s := by
  intro h
  obtain ⟨s₀, hinit, hrun⟩ := Run.holds_iff.mp
    (show Run.Holds (initFs (zeros 256) (zeros 216) (zeros 16)) (fun s₀ =>
      Run.Holds (Trace.run exec [.create (.ofByte 97 (by decide)) 1,
        .create (.ofByte 98 (by decide)) 1, .create (.ofByte 99 (by decide)) 0,
        .delete (.ofByte 97 (by decide)), .resize (.ofByte 99 (by decide)) 1] s₀)
        fun r => ¬ OffsetSorted r.2.heap r.2.oList.list) by decide +kernel)
  obtain ⟨⟨as, s⟩, hr, hbad⟩ := Run.holds_iff.mp hrun
  refine hbad (h _ _ _ s₀ s _ as ?_ ?_ ?_ ?_ hinit ?_ ?_ hr).sorted
  · rw [length_zeros]
    norm_num
  · exact fun _ => eq_zero_of_mem_zeros
  · exact fun _ => eq_zero_of_mem_zeros
  · exact fun _ => eq_zero_of_mem_zeros
  · decide +kernel
  · decide +kernel

end Vfs
