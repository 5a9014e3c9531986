import VirtualFileSystem.Total

/-!
# The bytes of the files

What the steps do to `file_data`: a repack slides the files together, a relocation puts the first
bytes of one file behind the others.  A file whose extent no step writes to keeps its bytes.
-/

namespace Vfs

open FlatImage Extents

/-- The bytes of a file. -/
def bytesOf (s : Filesys) (p : Ptr) : List UInt8 :=
  slice s.file (s.heap p).offset (s.heap p).length

/-! ## Repacking -/

section Repack

variable {w : ℕ} {s s₁ s' : Filesys} {p : Ptr} {ho : ℤ}

/-- What a repack relies on: the files of the array are in order and apart, and their bytes lie in
`file_data`. -/
structure Arranged (s : Filesys) : Prop where
  idxOk : IdxOk .offset s.heap s.oList.list
  lined : Lined s.heap s.oList.list
  sentinel : SentinelEmpty s.heap s.oList.list
  inside : ∀ p ∈ s.oList.list, 0 < (s.heap p).length →
    (s.heap p).offset + (s.heap p).length ≤ s.fileDataLen
  length_lt : ∀ p ∈ s.oList.list, (s.heap p).length < 2 ^ 32

theorem Searchable.arranged (hs : Searchable s) : Arranged s :=
  ⟨hs.idxOk, hs.lined, hs.sentinel, hs.inside, hs.length_lt⟩

/-- The files behind the movable ones are empty. -/
theorem Arranged.movable (hs : Arranged s) : ∃ hi, s.oList.list = movable s ++ hi ∧
    ∀ x ∈ exts s.heap hi, x.len = 0 := by
  obtain ⟨hi, hsplit, hhi⟩ := movable_split hs.lined.sorted
  refine ⟨hi, hsplit, ?_⟩
  intro x hx
  obtain ⟨q, hq, rfl⟩ := List.mem_map.mp hx
  exact hs.sentinel q (by rw [hsplit]; exact List.mem_append_right _ hq) (hhi q hq)

/-- A repack slides the bytes of the files together and returns where it began. -/
theorem repackHelper_image (hs : Arranged s)
    (h0 : s.used ≤ 0 → ∀ p ∈ s.oList.list, (s.heap p).length = 0)
    (hr : repackHelper s = .ok (ho, s')) :
    s'.file = slideImage 0 (exts s.heap s.oList.list) s.file ∧
      ho = hashStart (firstMoved 0 (exts s.heap s.oList.list)) := by
  rcases repackHelper_slid hs.idxOk.nodup hs.length_lt hr with ⟨hidle, hsame, rfl⟩ | ⟨-, hslid, rfl⟩
  · have hempty : ∀ x ∈ exts s.heap s.oList.list, x.len = 0 := by
      intro x hx
      obtain ⟨q, hq, rfl⟩ := List.mem_map.mp hx
      rcases hidle with hl | hu
      · rw [hl] at hq
        cases hq
      · exact h0 hu q hq
    rw [slideImage_empty _ 0 _ hempty, firstMoved_empty _ 0 hempty, hsame]
    exact ⟨rfl, rfl⟩
  · obtain ⟨hi, hsplit, hempty⟩ := hs.movable
    have hsplit' : exts s.heap s.oList.list = exts s.heap (Vfs.movable s) ++ exts s.heap hi := by
      rw [hsplit]
      exact exts_append _ _ _
    rw [hsplit', slideImage_append_empty hempty, firstMoved_append_empty hempty]
    exact ⟨hslid.file, rfl⟩

/-- A repack begins in front of the end of the packed files. -/
theorem repackHelper_lt (hs : Arranged s)
    (h0 : s.used ≤ 0 → ∀ p ∈ s.oList.list, (s.heap p).length = 0)
    (hr : repackHelper s = .ok (ho, s')) (hho : 0 ≤ ho) :
    ho < totalLength s.heap s.oList.list := by
  obtain ⟨-, rfl⟩ := repackHelper_image hs h0 hr
  cases hfm : firstMoved 0 (exts s.heap s.oList.list) with
  | none =>
    rw [hfm] at hho
    exact absurd hho (by decide)
  | some b =>
    have := firstMoved_lt hfm
    rw [total_exts, Nat.zero_add] at this
    show (b : ℤ) < _
    exact_mod_cast this

/-- With room a repack keeps the bytes of every file. -/
theorem repackHelper_bytesOf (hs : Arranged s)
    (hroomy : Roomy 0 (exts s.heap s.oList.list)) (hr : repackHelper s = .ok (ho, s'))
    (hp : p ∈ s.oList.list) : bytesOf s' p = bytesOf s p := by
  have hok : ExtentsOk s :=
    ⟨hs.lined.sorted, fun p hp q hq hne => hs.lined.apart hp hq hne, hs.inside⟩
  have hroomy' : Roomy 0 (exts s.heap (movable s)) := by
    obtain ⟨hi, hsplit, -⟩ := movable_split hs.lined.sorted
    rw [hsplit, exts_append] at hroomy
    exact hroomy.of_append
  have hkept := (repackHelper_contentsKept_iff hs.idxOk.nodup hs.length_lt hok hr).mpr
    (Or.inr hroomy')
  unfold bytesOf
  rcases Nat.eq_zero_or_pos (s.heap p).length with h0 | h0
  · rw [(repackHelper_frame hr).offsetOnly.length p, h0, slice_zero, slice_zero]
  · exact (hkept.bytes p hp h0).2

/-- Bytes in front of where a repack began, and behind the packed files, stay. -/
theorem repackHelper_frame_file (hs : Arranged s)
    (h0 : s.used ≤ 0 → ∀ p ∈ s.oList.list, (s.heap p).length = 0)
    (hroomy : Roomy 0 (exts s.heap s.oList.list)) (hr : repackHelper s = .ok (ho, s')) {i : ℕ}
    (hi : (0 ≤ ho → (i : ℤ) < ho) ∨ totalLength s.heap s.oList.list ≤ i) :
    s'.file[i]? = s.file[i]? := by
  obtain ⟨hfile, hho⟩ := repackHelper_image hs h0 hr
  have hin : Inside s.file.length (exts s.heap s.oList.list) := by
    intro x hx hpos
    obtain ⟨q, hq, rfl⟩ := List.mem_map.mp hx
    exact hs.inside q hq hpos
  obtain ⟨-, hframe, -⟩ := slideImage_spec _ 0 s.file hs.lined (above_zero _) hroomy hin
  rw [hfile]
  apply hframe
  rcases hi with hi | hi
  · right; right
    intro h hh
    have hstart : ho = h := by rw [hho, hh]; rfl
    rw [hstart] at hi
    exact_mod_cast hi (Int.natCast_nonneg h)
  · right; left
    rw [total_exts]
    omega

theorem TakenOut.searchable (ht : TakenOut p s s₁) (hm : Mirror w s) (hL : Layout s)
    (hfdl : s.fileDataLen ≤ 2 ^ 32) : Searchable s₁ := by
  have hlist := ht.list
  have hoff := ht.posOnly.offset
  have hlen := ht.posOnly.length
  have hs := hL.searchable hm hfdl
  have hsub : ∀ q ∈ s₁.oList.list, q ∈ s.oList.list := fun q hq =>
    List.mem_of_mem_erase (hlist ▸ hq)
  have hfile : s₁.fileDataLen = s.fileDataLen := ht.kept.shape.file
  refine ⟨ht.arrOk.idxOk, ?_, ?_, ?_, ?_, ?_⟩
  · rw [hlist]
    exact (hL.lined.sublist List.erase_sublist).congr fun q _ => ⟨hoff q, hlen q⟩
  · intro q hq
    rw [hoff, hlen]
    exact hs.sentinel q (hsub q hq)
  · intro q hq
    rw [hoff, hlen, hfile]
    exact hs.inside q (hsub q hq)
  · intro q hq
    rw [hlen]
    exact hs.length_lt q (hsub q hq)
  · rw [hfile]
    exact hfdl

/-- Files whose lengths add up to nothing are empty. -/
theorem Layout.empty_of_used (hL : Layout s) (hm : Mirror w s) (h0 : s.used ≤ 0) :
    ∀ p ∈ s.oList.list, (s.heap p).length = 0 := by
  intro p hp
  have hle := length_le_totalLength (h := s.heap) hp
  have hused := hL.total_eq hm
  omega

theorem TakenOut.exts (ht : TakenOut p s s₁) :
    Vfs.exts s₁.heap s₁.oList.list = Vfs.exts s.heap (s.oList.list.erase p) := by
  rw [ht.list]
  exact exts_congr fun q _ => ⟨ht.posOnly.offset q, ht.posOnly.length q⟩

theorem TakenOut.empty_of_used (ht : TakenOut p s s₁) (hL : Layout s) (hm : Mirror w s)
    (h0 : s₁.used ≤ 0) : ∀ q ∈ s₁.oList.list, (s₁.heap q).length = 0 := by
  intro q hq
  rw [ht.posOnly.length]
  rw [ht.list] at hq
  exact hL.empty_of_used hm (by rwa [ht.used] at h0) q (List.mem_of_mem_erase hq)

end Repack

/-! ## Growing -/

/-- The files without `p`. -/
def others (p : Ptr) (s : Filesys) : List Ptr := s.oList.list.erase p

/-- Growing `p` repacks the others and puts `p` behind them. -/
def Relocates (p : Ptr) (length : ℕ) (s : Filesys) : Prop :=
  if (s.heap p).offset ≥ maxFileDataLen then
    match findNextNonzero s.heap (others p s) with
    | some q => (s.heap q).offset < length
    | none => False
  else repackRequired p length s

instance (p : Ptr) (length : ℕ) (s : Filesys) : Decidable (Relocates p length s) := by
  unfold Relocates
  by_cases h : (s.heap p).offset ≥ maxFileDataLen
  · rw [if_pos h]
    cases findNextNonzero s.heap (others p s) with
    | some q => exact inferInstanceAs (Decidable (_ < _))
    | none => exact .isFalse id
  · rw [if_neg h]
    infer_instance

/-- `file_data` with the other files side by side and the first `copy` bytes of `p` behind them. -/
def relocated (p : Ptr) (copy : ℕ) (s : Filesys) : List UInt8 :=
  splice (slideImage 0 (exts s.heap (others p s)) s.file) (totalLength s.heap (others p s))
    (slice s.file (s.heap p).offset copy)

/-- What a relocation leaves, and where it began to change bytes. -/
structure Relocated (p : Ptr) (copy : ℕ) (s : Filesys) (ho : ℤ) (s' : Filesys) : Prop where
  file : s'.file = relocated p copy s
  place : (s'.heap p).offset = totalLength s.heap (others p s)
  hashOffset : ho = hashStart (firstMoved 0 (exts s.heap (others p s)))

section Grow

variable {w : ℕ} {s s₁ s₂ s' : Filesys} {p : Ptr} {length copy : ℕ} {ho : ℤ}

theorem Placed.file {o : ℕ} (h : Placed p o s s') : s'.file = s.file ∧ s'.hash = s.hash := by
  rw [h.eq]
  exact ⟨rfl, rfl⟩

theorem TakenOut.file (h : TakenOut p s s') : s'.file = s.file ∧ s'.hash = s.hash := by
  rw [h.eq]
  exact ⟨rfl, rfl⟩

theorem RepackFrame.hash (h : RepackFrame s s') : s'.hash = s.hash := by rw [h.eq]

theorem growNewFile_image (hm : Mirror w s) (hL : Layout s) (hfdl : s.fileDataLen ≤ 2 ^ 32)
    (hp : p ∈ s.live) (hge : (s.heap p).offset ≥ maxFileDataLen)
    (hcopy : copy ≤ (s.heap p).length) (hr : growNewFile p length s = .ok (ho, s')) :
    s'.hash = s.hash ∧ ((Relocates p length s ∧ Relocated p copy s ho s') ∨
      (¬ Relocates p length s ∧ s'.file = s.file ∧ ho = -1)) := by
  have h0 : (s.heap p).length = 0 := hL.sentinelEmpty hfdl p (hL.mem hp) hge
  have htotal := hL.total_erase hm hp
  have hle := hL.used_le hm hfdl
  obtain ⟨s₁, s₂, o, ht, hcase, hpl⟩ := growNewFile_steps hm.liveOk hp hr
  have hsame : ∀ q, (s₁.heap q).offset = (s.heap q).offset := ht.posOnly.offset
  unfold Relocates
  rw [if_pos hge]
  have hnext : findNextNonzero s.heap (others p s) = findNextNonzeroFile 0 s₁.oList s₁.heap :=
    (findNext_takenOut ht).symm
  rcases hcase with ⟨rfl, rfl, rfl, hnone⟩ | ⟨hrep, hf, rfl, q, hq, hlt⟩
  · refine ⟨hpl.file.2.trans ht.file.2, Or.inr ⟨?_, hpl.file.1.trans ht.file.1, rfl⟩⟩
    rw [hnext]
    split
    · rename_i q hq
      have := hnone q hq
      rw [hsame] at this
      omega
    · exact id
  · obtain ⟨hfile, rfl⟩ := repackHelper_image (ht.searchable hm hL hfdl).arranged
      (ht.empty_of_used hL hm) hrep
    rw [ht.exts] at hfile ⊢
    refine ⟨hpl.file.2.trans (hf.hash.trans ht.file.2), Or.inl ⟨?_, ?_, ?_, rfl⟩⟩
    · rw [hnext, hq]
      rwa [hsame] at hlt
    · -- no byte is copied
      have hc : copy = 0 := by omega
      unfold relocated
      rw [hpl.file.1, hfile, ht.file.1, hc, slice_zero, splice_nil]
      rfl
    · rw [hpl.same_self.2.1]
      show toU64 s₂.used = totalLength s.heap (s.oList.list.erase p)
      rw [hf.used, ht.used, toU64_of_nonneg (by omega) (by omega)]
      omega

theorem relocateFile_image (hm : Mirror w s) (hL : Layout s) (hfdl : s.fileDataLen ≤ 2 ^ 32)
    (hp : p ∈ s.live) (hr : relocateFile p copy s = .ok (ho, s')) :
    s'.hash = s.hash ∧ Relocated p copy s ho s' := by
  have htotal := hL.total_erase hm hp
  have hle := hL.used_le hm hfdl
  obtain ⟨s₁, s₂, temp, file, htemp, ht, hrep, hf, hwrite, hpl⟩ :=
    relocateFile_steps hm.liveOk hp hr
  obtain ⟨hfile, rfl⟩ := repackHelper_image (ht.searchable hm hL hfdl).arranged
    (ht.empty_of_used hL hm) hrep
  rw [ht.exts] at hfile ⊢
  have hstart : s₂.used - (s.heap p).length = totalLength s.heap (others p s) := by
    rw [hf.used, ht.used]
    exact htotal.symm
  rw [hstart] at hwrite hpl
  obtain ⟨-, rfl⟩ := memWrite_eq_ok.mp hwrite
  obtain ⟨-, rfl⟩ := memRead_eq_ok.mp htemp
  refine ⟨hpl.file.2.trans (hf.hash.trans ht.file.2), ?_, ?_, rfl⟩
  · rw [hpl.file.1]
    show splice s₂.file _ _ = _
    rw [hfile, ht.file.1]
    rfl
  · rw [hpl.same_self.2.1]
    show toU64 ((totalLength s.heap (others p s) : ℕ) : ℤ) = _
    unfold others at *
    rw [toU64_of_lt (by omega)]

/-- The bytes after room was made: the relocated ones, or those before. -/
theorem makeRoom_image (hm : Mirror w s) (hL : Layout s) (hfdl : s.fileDataLen ≤ 2 ^ 32)
    (hp : p ∈ s.live) (hcopy : copy ≤ (s.heap p).length)
    (hr : makeRoom p length copy s = .ok (ho, s')) :
    s'.hash = s.hash ∧ ((Relocates p length s ∧ Relocated p copy s ho s') ∨
      (¬ Relocates p length s ∧ s'.file = s.file ∧ ho = -1)) := by
  rcases makeRoom_post hr with ⟨hge, hr⟩ | ⟨hlt, hreq, hr⟩ | ⟨hlt, hreq, rfl, rfl⟩
  · exact growNewFile_image hm hL hfdl hp hge hcopy hr
  · obtain ⟨hhash, hrel⟩ := relocateFile_image hm hL hfdl hp hr
    refine ⟨hhash, Or.inl ⟨?_, hrel⟩⟩
    unfold Relocates
    rwa [if_neg hlt.not_ge]
  · refine ⟨rfl, Or.inr ⟨?_, rfl, rfl⟩⟩
    unfold Relocates
    rwa [if_neg hlt.not_ge]

end Grow

end Vfs
