import VirtualFileSystem.Room

/-!
# The layout of the files

The layout is right if the offset array holds every live file once, its extents are lined up, and
every file is inside `file_data` or empty at the sentinel offset.  Growing a file keeps it right
unless one of the defects of `resize_file_helper` is met: a file of size zero that is put at the
end of the array though its new offset is not the last, or that grows in place from an offset it
kept, or a repack without room.
-/

namespace Vfs

open FlatImage Extents

/-- Every live file is once in the offset array, whose extents are lined up and in range. -/
structure Layout (s : Filesys) : Prop where
  perm : s.oList.list.Perm s.live
  lined : Lined s.heap s.oList.list
  range : ∀ p ∈ s.live, ((s.heap p).offset = maxFileDataLen ∧ (s.heap p).length = 0) ∨
    (s.heap p).offset + (s.heap p).length ≤ s.fileDataLen

section Layout

variable {w : ℕ} {s s' : Filesys} {p : Ptr}

theorem Layout.mem (hL : Layout s) (hp : p ∈ s.live) : p ∈ s.oList.list := hL.perm.mem_iff.mpr hp

theorem Layout.live (hL : Layout s) (hp : p ∈ s.oList.list) : p ∈ s.live := hL.perm.mem_iff.mp hp

theorem Layout.congr (hL : Layout s) (hlist : s'.oList.list = s.oList.list)
    (hlive : s'.live = s.live) (hfile : s'.file.length = s.file.length)
    (hh : ∀ q ∈ s.live, (s'.heap q).offset = (s.heap q).offset ∧
      (s'.heap q).length = (s.heap q).length) : Layout s' where
  perm := by rw [hlist, hlive]; exact hL.perm
  lined := by rw [hlist]; exact hL.lined.congr fun q hq => hh q (hL.live hq)
  range := by
    rw [hlive]
    intro q hq
    unfold Filesys.fileDataLen
    rw [(hh q hq).1, (hh q hq).2, hfile]
    exact hL.range q hq

theorem Layout.sentinelEmpty (hL : Layout s) (hfdl : s.fileDataLen ≤ 2 ^ 32) :
    SentinelEmpty s.heap s.oList.list := by
  intro p hp hge
  rcases hL.range p (hL.live hp) with h | h
  · exact h.2
  · unfold maxFileDataLen at hge
    omega

theorem Layout.inRange (hL : Layout s) (hfdl : s.fileDataLen ≤ 2 ^ 32) : InRange s := by
  intro p hp
  unfold maxFileDataLen
  rcases hL.range p hp with ⟨h1, h2⟩ | h
  · unfold maxFileDataLen at h1
    exact ⟨by omega, fun h0 => by omega⟩
  · exact ⟨by omega, fun _ => h⟩

theorem Layout.searchable (hL : Layout s) (hm : Mirror w s) (hfdl : s.fileDataLen ≤ 2 ^ 32) :
    Searchable s where
  idxOk := hm.liveOk.offsets.idxOk
  lined := hL.lined
  sentinel := hL.sentinelEmpty hfdl
  inside := fun p hp h0 => (hL.inRange hfdl p (hL.live hp)).2 h0
  length_lt := fun p hp => hm.counted.length_lt p (hL.live hp)
  fileDataLen_le := hfdl

/-- The sum of the lengths along the offset array is the space used. -/
theorem Layout.total_eq (hL : Layout s) (hm : Mirror w s) :
    s.used = totalLength s.heap s.oList.list := by
  rw [hm.counted.used, totalLength_perm hL.perm]

theorem Layout.used_le (hL : Layout s) (hm : Mirror w s) (hfdl : s.fileDataLen ≤ 2 ^ 32) :
    s.used ≤ s.fileDataLen := by
  have hin : Inside s.fileDataLen (exts s.heap s.oList.list) := by
    intro x hx h0
    obtain ⟨p, hp, rfl⟩ := List.mem_map.mp hx
    exact (hL.inRange hfdl p (hL.live hp)).2 h0
  have := total_le_of_inside hL.lined (above_zero _) hin (Nat.zero_le _)
  rw [hL.total_eq hm, ← total_exts]
  omega

/-- The files without one of them. -/
theorem Layout.total_erase (hL : Layout s) (hm : Mirror w s) (hp : p ∈ s.live) :
    (totalLength s.heap (s.oList.list.erase p) : ℤ) = s.used - (s.heap p).length := by
  rw [hL.total_eq hm, ← totalLength_erase (hL.mem hp)]
  push_cast
  ring

end Layout

/-! ## Safe growth -/

/-- The new place of a file of size zero, which goes to the end of the array, is behind all
others; a repack has room; and a file that grows in place from an offset it kept is clear of the
extents in front of it. -/
def GrowSafe (p : Ptr) (length : ℕ) (s : Filesys) : Prop :=
  let rest := s.oList.list.erase p
  let f := s.heap p
  if f.offset ≥ maxFileDataLen then
    match findNextNonzero s.heap rest with
    | some q => (s.heap q).offset < length ∧ Roomy 0 (exts s.heap rest) ∧
        ∀ r ∈ rest, (s.heap r).offset < maxFileDataLen
    | none => ∀ r ∈ rest, (s.heap r).offset = 0
  else if repackRequired p length s then
    Roomy 0 (exts s.heap rest) ∧ (f.length = 0 →
      if s.used ≤ 0 then ∀ r ∈ rest, (s.heap r).offset = 0
      else ∀ r ∈ rest, (s.heap r).offset < maxFileDataLen)
  else f.length = 0 → ∀ r ∈ rest, 0 < (s.heap r).length → (s.heap r).offset ≤ f.offset →
    (s.heap r).offset + (s.heap r).length ≤ f.offset

instance (p : Ptr) (length : ℕ) (s : Filesys) : Decidable (GrowSafe p length s) := by
  unfold GrowSafe
  have : ∀ o : Option Ptr, Decidable (match o with
      | some q => (s.heap q).offset < length ∧ Roomy 0 (exts s.heap (s.oList.list.erase p)) ∧
          ∀ r ∈ s.oList.list.erase p, (s.heap r).offset < maxFileDataLen
      | none => ∀ r ∈ s.oList.list.erase p, (s.heap r).offset = 0) := by
    intro o
    cases o <;> infer_instance
  infer_instance

/-- What growing leaves: the array is lined up for the length the file is going to have. -/
structure Grown (p : Ptr) (length : ℕ) (s : Filesys) : Prop where
  perm : s.oList.list.Perm s.live
  lined : ∀ h : Heap, (∀ q ∈ s.live, q ≠ p → (h q).offset = (s.heap q).offset ∧
      (h q).length = (s.heap q).length) →
    (h p).offset = (s.heap p).offset → (h p).length = length → Lined h s.oList.list
  room : (s.heap p).offset + length ≤ s.fileDataLen
  range : ∀ q ∈ s.live, q ≠ p →
    ((s.heap q).offset = maxFileDataLen ∧ (s.heap q).length = 0) ∨
      (s.heap q).offset + (s.heap q).length ≤ s.fileDataLen

section Growth

variable {w : ℕ} {s s₁ s₂ s' : Filesys} {p : Ptr} {length copy o : ℕ} {ho : ℤ}

/-- The other files, lined up and clear of the place a file is going to take. -/
structure PlaceFree (p : Ptr) (o length : ℕ) (s : Filesys) : Prop where
  perm : (p :: s.oList.list).Perm s.live
  lined : Lined s.heap s.oList.list
  free : FreeAt s.heap s.oList.list o length
  room : o + length ≤ s.fileDataLen
  range : ∀ q ∈ s.live, q ≠ p →
    ((s.heap q).offset = maxFileDataLen ∧ (s.heap q).length = 0) ∨
      (s.heap q).offset + (s.heap q).length ≤ s.fileDataLen

theorem PlaceFree.file (hf : PlaceFree p o length s) {file : List UInt8}
    (hlen : file.length = s.file.length) : PlaceFree p o length { s with file := file } := by
  have hfile : ({ s with file := file } : Filesys).fileDataLen = s.fileDataLen := hlen
  refine ⟨hf.perm, hf.lined, hf.free, ?_, ?_⟩
  · rw [hfile]
    exact hf.room
  · rw [hfile]
    exact hf.range

/-- A file that is put into free room can grow there, wherever the search puts it. -/
theorem Placed.grown (hpl : Placed p o s s') (hs : LiveOk s) (hf : PlaceFree p o length s)
    (hpos : 0 < length) (hfdl : s.fileDataLen ≤ 2 ^ 32)
    (hend : (s.heap p).length = 0 → ∀ q ∈ s.oList.list, (s.heap q).offset ≤ o) :
    Grown p length s' := by
  have hlive : s'.live = s.live := hpl.kept.live
  have hfile : s'.fileDataLen = s.fileDataLen := hpl.kept.shape.file
  have hself : (s'.heap p).offset = o := hpl.same_self.2.1
  have hnd : (p :: s.oList.list).Nodup := hf.perm.nodup_iff.mpr hs.nodup
  have hne : ∀ q ∈ s.oList.list, q ≠ p := fun q hq he =>
    (List.nodup_cons.mp hnd).1 (he ▸ hq)
  have hsub : ∀ q ∈ s.oList.list, q ∈ s.live := fun q hq =>
    hf.perm.subset (List.mem_cons_of_mem _ hq)
  have htype : s.oList.type = .offset := hs.offsets.type_eq
  have hroom := hf.room
  -- the position splits the others by their offsets
  have hpart : ∃ i : ℕ, s'.oList.list = insertAt s.oList.list i p ∧
      (∀ (j : ℕ) q, j < i → s.oList.list[j]? = some q → (s.heap q).offset ≤ o) ∧
      (∀ (j : ℕ) q, i ≤ j → s.oList.list[j]? = some q → o < (s.heap q).offset) := by
    rcases Nat.eq_zero_or_pos (s.heap p).length with h0 | h0
    · have hget := arrGetIndex_of_empty (f := { s.heap p with offset := o }) (h := s.heap)
        htype h0
      rcases hpl.search with ⟨-, hi⟩ | ⟨i, hl, hi⟩
      · have := hget.symm.trans hi
        simp at this
      · have hii : ((s.oList.list.length : ℕ) : ℤ) = i := Except.ok.inj (hget.symm.trans hi)
        obtain rfl : s.oList.list.length = i := by exact_mod_cast hii
        refine ⟨_, by rw [hl], fun j q _ hq => hend h0 q (List.mem_of_getElem? hq), ?_⟩
        intro j q hj hq
        rw [List.getElem?_eq_none hj] at hq
        cases hq
    · obtain ⟨i, -, hget, h1, h2⟩ := arrGetIndex_offset (f := { s.heap p with offset := o })
        htype hf.lined.sorted (by show o < _; unfold maxFileDataLen; omega) h0
        (fun q hq hq0 => by
          show (s.heap q).offset ≠ o
          have := hf.free q hq hq0
          omega)
      rcases hpl.search with ⟨-, hi⟩ | ⟨i', hl, hi⟩
      · have := hget.symm.trans hi
        simp at this
      · have hii : (i : ℤ) = i' := Except.ok.inj (hget.symm.trans hi)
        obtain rfl : i = i' := by exact_mod_cast hii
        exact ⟨i, by rw [hl], h1, h2⟩
  obtain ⟨i, hl, h1, h2⟩ := hpart
  refine ⟨?_, fun h hh ho' hl' => ?_, ?_, fun q hq hqp => ?_⟩
  · rw [hl, hlive]
    exact (insertAt_perm _ _ _).trans hf.perm
  · rw [hl]
    rw [hself] at ho'
    refine lined_insertAt hf.lined (fun q hq => ?_) ?_ ?_ ?_
    · have hsame := hpl.same_of_ne (hne q hq)
      rw [← hsame.2.1, ← hsame.2.2.1]
      exact hh q (hlive ▸ hsub q hq) (hne q hq)
    · rw [ho']; exact h1
    · rw [ho']; exact h2
    · rw [ho', hl']; exact hf.free
  · rw [hself, hfile]
    exact hroom
  · have hsame := hpl.same_of_ne hqp
    rw [hsame.2.1, hsame.2.2.1, hfile]
    exact hf.range q (hlive ▸ hq) hqp

theorem TakenOut.total (ht : TakenOut p s s₁) :
    totalLength s₁.heap s₁.oList.list = totalLength s.heap (s.oList.list.erase p) := by
  rw [ht.list]
  exact totalLength_congr fun q _ => ht.posOnly.length q

/-- The array without a file, before anything moves. -/
theorem TakenOut.placeFree (ht : TakenOut p s s₁) (hL : Layout s) (hp : p ∈ s.live)
    (hfree : FreeAt s.heap (s.oList.list.erase p) o length) (hroom : o + length ≤ s.fileDataLen) :
    PlaceFree p o length s₁ := by
  have hlist : s₁.oList.list = s.oList.list.erase p := ht.list
  have hlive : s₁.live = s.live := ht.kept.live
  have hfile : s₁.fileDataLen = s.fileDataLen := ht.kept.shape.file
  refine ⟨?_, ?_, ?_, ?_, ?_⟩
  · rw [hlist, hlive]
    exact (List.perm_cons_erase (hL.mem hp)).symm.trans hL.perm
  · rw [hlist]
    exact (hL.lined.sublist List.erase_sublist).congr fun q _ =>
      ⟨ht.posOnly.offset q, ht.posOnly.length q⟩
  · rw [hlist]
    intro q hq
    rw [ht.posOnly.offset, ht.posOnly.length]
    exact hfree q hq
  · rw [hfile]
    exact hroom
  · rw [hlive]
    intro q hq _
    rw [ht.posOnly.offset, ht.posOnly.length, hfile]
    exact hL.range q hq

/-- The array without a file, packed. -/
theorem TakenOut.packedBy (ht : TakenOut p s s₁) (hm : Mirror w s) (hL : Layout s)
    (hfdl : s.fileDataLen ≤ 2 ^ 32) (hp : p ∈ s.live) (hle : s.used ≤ s.fileDataLen)
    (hroomy : Roomy 0 (exts s.heap (s.oList.list.erase p))) (hused : 0 < s.used)
    (hr : repackHelper s₁ = .ok (ho, s₂)) : PackedBy s₁ s₂ := by
  have hlist : s₁.oList.list = s.oList.list.erase p := ht.list
  have hoff := ht.posOnly.offset
  have hlen := ht.posOnly.length
  have hsub : ∀ q ∈ s₁.oList.list, q ∈ s.oList.list := fun q hq =>
    List.mem_of_mem_erase (hlist ▸ hq)
  refine repackHelper_packedBy ht.arrOk.nodup (fun q hq => ?_) ?_ (fun q hq => ?_) ?_ ?_ ?_ hr
  · rw [hlen]
    exact hm.counted.length_lt q (hL.live (hsub q hq))
  · rw [hlist]
    exact (hL.lined.sublist List.erase_sublist).congr fun q _ => ⟨hoff q, hlen q⟩
  · rw [hoff, hlen]
    exact hL.sentinelEmpty hfdl q (hsub q hq)
  · have htotal := hL.total_erase hm hp
    rw [hlist, totalLength_congr fun q _ => hlen q]
    unfold maxFileDataLen
    omega
  · rw [hlist, exts_congr fun q _ => ⟨hoff q, hlen q⟩]
    exact hroomy
  · rw [ht.used]
    exact hused

/-- Behind the packed files there is room. -/
theorem PackedBy.placeFree (hpk : PackedBy s₁ s₂) (hf : RepackFrame s₁ s₂) (ht : TakenOut p s s₁)
    (hL : Layout s) (hp : p ∈ s.live) (htotal : totalLength s₁.heap s₁.oList.list = o)
    (hroom : o + length ≤ s.fileDataLen) : PlaceFree p o length s₂ := by
  have hlist : s₂.oList.list = s₁.oList.list := by rw [hf.eq]
  have hlist₁ : s₁.oList.list = s.oList.list.erase p := ht.list
  have hlive : s₂.live = s.live := hf.kept.live.trans ht.kept.live
  have hfile : s₂.fileDataLen = s.fileDataLen := hf.file_length.trans ht.kept.shape.file
  refine ⟨?_, ?_, ?_, ?_, ?_⟩
  · rw [hlist, hlist₁, hlive]
    exact (List.perm_cons_erase (hL.mem hp)).symm.trans hL.perm
  · rw [hlist]
    exact hpk.lined
  · rw [hlist]
    intro q hq h0
    left
    rw [← htotal]
    exact hpk.stop_le q hq h0
  · rw [hfile]
    exact hroom
  · rw [hlive]
    intro q hq hqp
    have hqm : q ∈ s₁.oList.list := by
      rw [hlist₁]
      exact (List.mem_erase_of_ne hqp).mpr (hL.mem hq)
    have hlen : (s₂.heap q).length = (s.heap q).length :=
      (hf.offsetOnly.length q).trans (ht.posOnly.length q)
    have hoff : (s₂.heap q).offset ≤ (s.heap q).offset :=
      (hf.offset_le q).trans (ht.posOnly.offset q).le
    rw [hlen, hfile]
    rcases hpk.start_le q hqm with hle | ⟨-, he⟩
    · right
      rcases hL.range q hq with h | h
      · omega
      · omega
    · rw [he, ht.posOnly.offset]
      exact hL.range q hq

theorem findNext_takenOut (ht : TakenOut p s s₁) :
    findNextNonzeroFile 0 s₁.oList s₁.heap = findNextNonzero s.heap (s.oList.list.erase p) := by
  unfold findNextNonzeroFile
  rw [ht.list]
  simp only [Int.toNat_zero, List.drop_zero]
  exact findNextNonzero_congr fun q _ => ht.posOnly.same q

theorem growNewFile_grown (hm : Mirror w s) (hL : Layout s) (hfdl : s.fileDataLen ≤ 2 ^ 32)
    (hp : p ∈ s.live) (hge : (s.heap p).offset ≥ maxFileDataLen) (hpos : 0 < length)
    (hroom : s.used + length ≤ s.fileDataLen + (s.heap p).length)
    (hsafe : GrowSafe p length s) (hr : growNewFile p length s = .ok (ho, s')) :
    Grown p length s' := by
  have hzero : (s.heap p).length = 0 := hL.sentinelEmpty hfdl p (hL.mem hp) hge
  obtain ⟨s₁, s₂, o, ht, hcase, hpl⟩ := growNewFile_steps hm.liveOk hp hr
  simp only [GrowSafe, if_pos hge] at hsafe
  have hl₁ := ht.liveOk hm.liveOk
  have hfile : s₁.fileDataLen = s.fileDataLen := ht.kept.shape.file
  have htotal := hL.total_erase hm hp
  have hused := hL.total_eq hm
  rcases hcase with ⟨-, rfl, rfl, hnext⟩ | ⟨hrep, hf, ho', q, hq, hlt⟩
  · -- nothing but files of size zero at offset zero: the file takes the start
    rw [findNext_takenOut ht] at hnext
    cases hfn : findNextNonzero s.heap (s.oList.list.erase p) with
    | some q =>
      rw [hfn] at hsafe
      have := hnext q hfn
      rw [ht.posOnly.offset] at this
      exact absurd hsafe.1 (by omega)
    | none =>
      rw [hfn] at hsafe
      have hsub := List.erase_sublist (a := p) (l := s.oList.list)
      have h0 := findNextNonzero_eq_none (hL.lined.sublist hsub).sorted
        (fun q hq => hL.sentinelEmpty hfdl q (hsub.subset hq)) hfn
      refine hpl.grown hl₁ (ht.placeFree hL hp ?_ (by omega)) hpos (hfile ▸ hfdl) ?_
      · intro q hq hq0
        exact absurd (h0 q hq) hq0.ne'
      · intro _ q hq
        rw [ht.posOnly.offset]
        rw [ht.list] at hq
        exact (hsafe q hq).le
  · rw [findNext_takenOut ht] at hq
    rw [hq] at hsafe
    obtain ⟨-, hroomy, hlow⟩ := hsafe
    obtain ⟨A, B, hsplit, -, hq0, -⟩ := findNextNonzero_eq_some hq
    have hqm : q ∈ s.oList.list.erase p := by rw [hsplit]; simp
    have hpos' : 0 < s.used := by
      have := length_le_totalLength (h := s.heap) hqm
      omega
    have hpk := ht.packedBy hm hL hfdl hp (by omega) hroomy hpos' hrep
    have ho : totalLength s₁.heap s₁.oList.list = o := by
      rw [ht.total, ho', hf.used, ht.used]
      rw [toU64_of_nonneg (by omega) (by omega)]
      omega
    have hplace : PlaceFree p o length s₂ := by
      refine hpk.placeFree hf ht hL hp ho ?_
      rw [ht.total] at ho
      omega
    have hfile₂ : s₂.fileDataLen = s.fileDataLen := hf.file_length.trans hfile
    refine hpl.grown (hf.liveOk hl₁) hplace hpos (hfile₂ ▸ hfdl) fun _ r hr => ?_
    have hr' : r ∈ s₁.oList.list := by rwa [hf.eq] at hr
    rcases hpk.start_le r hr' with h | ⟨h, -⟩
    · omega
    · rw [ht.posOnly.offset] at h
      rw [ht.list] at hr'
      have := hlow r hr'
      omega

theorem relocateFile_grown (hm : Mirror w s) (hL : Layout s) (hfdl : s.fileDataLen ≤ 2 ^ 32)
    (hp : p ∈ s.live) (hlt : (s.heap p).offset < maxFileDataLen) (hreq : repackRequired p length s)
    (hgrow : (s.heap p).length < length)
    (hroom : s.used + length ≤ s.fileDataLen + (s.heap p).length)
    (hsafe : GrowSafe p length s) (hr : relocateFile p copy s = .ok (ho, s')) :
    Grown p length s' := by
  have hpos : 0 < length := by omega
  obtain ⟨s₁, s₂, temp, file, -, ht, hrep, hf, hw, hpl⟩ := relocateFile_steps hm.liveOk hp hr
  simp only [GrowSafe, if_neg hlt.not_ge, if_pos hreq] at hsafe
  obtain ⟨hroomy, hend⟩ := hsafe
  have hl₁ := ht.liveOk hm.liveOk
  have hl₂ := hf.liveOk hl₁
  have hfile : file.length = s₂.file.length := memWrite_length hw
  have hfile₂ : s₂.fileDataLen = s.fileDataLen := hf.file_length.trans ht.kept.shape.file
  have htotal := hL.total_erase hm hp
  have ho' : toU64 (s₂.used - (s.heap p).length) =
      totalLength s.heap (s.oList.list.erase p) := by
    rw [hf.used, ht.used, ← htotal]
    rw [toU64_of_nonneg (by omega) (by omega)]
    omega
  have hlenp : (s₂.heap p).length = (s.heap p).length :=
    (hf.offsetOnly.length p).trans (ht.posOnly.length p)
  have ho₁ : totalLength s₁.heap s₁.oList.list = toU64 (s₂.used - (s.heap p).length) := by
    rw [ht.total, ho']
  rcases le_or_gt s.used 0 with hu | hu
  · -- every file is empty: nothing moves
    have hz : totalLength s.heap (s.oList.list.erase p) = 0 := by omega
    have hp0 : (s.heap p).length = 0 := by omega
    have hs₂ : s₂ = s₁ := by
      rcases repackHelper_slid ht.arrOk.nodup (fun q hq => by
        rw [ht.posOnly.length]
        rw [ht.list] at hq
        exact hm.counted.length_lt q (hL.live (List.mem_of_mem_erase hq))) hrep with
        ⟨-, h, -⟩ | ⟨h, -⟩
      · exact h
      · rw [ht.used] at h
        omega
    subst hs₂
    have hplace : PlaceFree p 0 length s₂ := by
      refine ht.placeFree hL hp (fun q hq hq0 => ?_) (by omega)
      have := length_le_totalLength (h := s.heap) hq
      omega
    rw [ho', hz] at hpl
    refine hpl.grown (hl₁.file _) (hplace.file hfile) hpos ?_ ?_
    · unfold Filesys.fileDataLen at *
      simp only [hfile]
      omega
    · intro _ q hq
      show (s₂.heap q).offset ≤ 0
      rw [ht.posOnly.offset]
      have hq' : q ∈ s.oList.list.erase p := by
        have : q ∈ s₂.oList.list := hq
        rwa [ht.list] at this
      have := hend hp0
      rw [if_pos hu] at this
      exact (this q hq').le
  · have hpk := ht.packedBy hm hL hfdl hp (by omega) hroomy hu hrep
    have hplace : PlaceFree p (toU64 (s₂.used - (s.heap p).length)) length s₂ :=
      hpk.placeFree hf ht hL hp ho₁ (by rw [ho']; omega)
    refine hpl.grown (hl₂.file _) (hplace.file hfile) hpos ?_ ?_
    · unfold Filesys.fileDataLen at *
      simp only [hfile]
      omega
    · intro h0 q hq
      have h0 : (s.heap p).length = 0 := hlenp.symm.trans h0
      have hq₁ : q ∈ s₁.oList.list := by
        have : q ∈ s₂.oList.list := hq
        rwa [hf.eq] at this
      have hlow := hend h0
      rw [if_neg (by omega)] at hlow
      rcases hpk.start_le q hq₁ with h | ⟨h, -⟩
      · rwa [← ho₁]
      · rw [ht.posOnly.offset] at h
        rw [ht.list] at hq₁
        have := hlow q hq₁
        omega

/-- If no repack is required, nothing behind the file starts before its new end. -/
theorem inPlace_room {A B : List Ptr} (hm : Mirror w s) (hL : Layout s)
    (hfdl : s.fileDataLen ≤ 2 ^ 32) (hl : s.oList.list = A ++ p :: B)
    (hlt : (s.heap p).offset < maxFileDataLen) (hreq : ¬ repackRequired p length s) :
    (s.heap p).offset + length ≤ s.fileDataLen ∧
      ∀ q ∈ B, 0 < (s.heap q).length → (s.heap p).offset + length ≤ (s.heap q).offset := by
  have hp : p ∈ s.live := hL.live (by rw [hl]; simp)
  have hrel := hL.lined.rel
  rw [hl] at hrel
  obtain ⟨hpB, -⟩ := List.pairwise_cons.mp (List.pairwise_append.mp hrel).2.1
  have hBsub : B.Sublist s.oList.list := by
    rw [hl, List.append_cons]
    exact List.sublist_append_right _ _
  have hle : (s.heap p).offset ≤ s.fileDataLen := by
    rcases hL.range p hp with ⟨h, -⟩ | h
    · omega
    · omega
  unfold repackRequired findNextNonzeroFile at hreq
  rw [drop_oIndex hm.liveOk.offsets.idxOk hl] at hreq
  cases hf : findNextNonzero s.heap B with
  | none =>
    rw [hf] at hreq
    simp only [gapAfter_eq hle hfdl, not_lt] at hreq
    have h0 := findNextNonzero_eq_none (hL.lined.sublist hBsub).sorted
      (fun q hq => hL.sentinelEmpty hfdl q (hBsub.subset hq)) hf
    exact ⟨by omega, fun q hq hq0 => absurd (h0 q hq) hq0.ne'⟩
  | some next =>
    obtain ⟨C, D, hCD, -, hn0, hnmax⟩ := findNextNonzero_eq_some hf
    have hnm : next ∈ B := by rw [hCD]; simp
    have hnext := findNextNonzero_le (hL.lined.sublist hBsub) hf
    have hpn := (hpB next hnm).1
    have hin := (hL.inRange hfdl next (hL.live (hBsub.subset hnm))).2 hn0
    simp only [ext_start] at hpn
    rw [hf] at hreq
    simp only [gapAfter_eq hpn (by omega), not_lt] at hreq
    refine ⟨by omega, fun q hq hq0 => ?_⟩
    have := hnext q hq hq0
    omega

/-- A file that grows in place stays clear of its neighbours. -/
theorem inPlace_grown (hm : Mirror w s) (hL : Layout s) (hfdl : s.fileDataLen ≤ 2 ^ 32)
    (hp : p ∈ s.live) (hlt : (s.heap p).offset < maxFileDataLen)
    (hreq : ¬ repackRequired p length s) (hsafe : GrowSafe p length s) :
    Grown p length s := by
  simp only [GrowSafe, if_neg hlt.not_ge, if_neg hreq] at hsafe
  obtain ⟨A, B, hl⟩ := List.append_of_mem (hL.mem hp)
  have hnd : (A ++ p :: B).Nodup := hl ▸ hm.liveOk.offsets.nodup
  have hpA : p ∉ A := fun h => (List.nodup_append.mp hnd).2.2 p h p List.mem_cons_self rfl
  have hpB : p ∉ B := (List.nodup_cons.mp (List.nodup_append.mp hnd).2.1).1
  have hrest : ∀ q ∈ A, q ∈ s.oList.list.erase p := fun q hq =>
    (List.mem_erase_of_ne fun h : q = p => hpA (h ▸ hq)).mpr (by rw [hl]; simp [hq])
  have hrel := hL.lined.rel
  rw [hl] at hrel
  obtain ⟨hA, hpB', hAp⟩ := List.pairwise_append.mp hrel
  obtain ⟨hpB', hB⟩ := List.pairwise_cons.mp hpB'
  have hBsub : B.Sublist s.oList.list := by
    rw [hl, List.append_cons]
    exact List.sublist_append_right _ _
  -- nothing in front reaches past its start, nothing behind starts before its new end
  have hfront : ∀ q ∈ A, 0 < (s.heap q).length →
      (s.heap q).offset + (s.heap q).length ≤ (s.heap p).offset := by
    intro q hq h0
    have hbefore := hAp q hq p List.mem_cons_self
    rcases Nat.eq_zero_or_pos (s.heap p).length with hz | hz
    · exact hsafe hz q (hrest q hq) h0 hbefore.1
    · exact hbefore.2 h0 hz
  have hbehind := inPlace_room hm hL hfdl hl hlt hreq
  refine ⟨hL.perm, fun h hh ho hlen => ?_, hbehind.1, fun q hq _ => hL.range q hq⟩
  have hhA : ∀ q ∈ A, (h q).offset = (s.heap q).offset ∧ (h q).length = (s.heap q).length :=
    fun q hq => hh q (hL.live (by rw [hl]; simp [hq])) fun he => hpA (he ▸ hq)
  have hhB : ∀ q ∈ B, (h q).offset = (s.heap q).offset ∧ (h q).length = (s.heap q).length :=
    fun q hq => hh q (hL.live (by rw [hl]; simp [hq])) fun he => hpB (he ▸ hq)
  have hAl : Lined s.heap A := hL.lined.sublist (by rw [hl]; exact List.sublist_append_left _ _)
  rw [hl]
  refine List.pairwise_map.mpr (List.pairwise_append.mpr
    ⟨(hAl.congr hhA).rel, List.pairwise_cons.mpr ⟨fun q hq => ?_,
      ((hL.lined.sublist hBsub).congr hhB).rel⟩, fun a ha b hb => ?_⟩)
  · unfold Extent.Before Extent.stop
    simp only [ext_start, ext_len, ho, hlen, (hhB q hq).1, (hhB q hq).2]
    exact ⟨(hpB' q hq).1, fun _ h0 => hbehind.2 q hq h0⟩
  · rcases List.mem_cons.mp hb with rfl | hb
    · unfold Extent.Before Extent.stop
      simp only [ext_start, ext_len, ho, (hhA a ha).1, (hhA a ha).2]
      exact ⟨(hAp a ha b List.mem_cons_self).1, fun h0 _ => hfront a ha h0⟩
    · have := hAp a ha b (List.mem_cons_of_mem _ hb)
      unfold Extent.Before Extent.stop at *
      simpa only [ext_start, ext_len, (hhA a ha).1, (hhA a ha).2, (hhB b hb).1, (hhB b hb).2]
        using this

theorem makeRoom_grown (hm : Mirror w s) (hL : Layout s) (hfdl : s.fileDataLen ≤ 2 ^ 32)
    (hp : p ∈ s.live) (hlt : (s.heap p).length < length)
    (hroom : s.used + length ≤ s.fileDataLen + (s.heap p).length)
    (hsafe : GrowSafe p length s) (hr : makeRoom p length copy s = .ok (ho, s')) :
    Grown p length s' := by
  have hpos : 0 < length := by omega
  rcases makeRoom_post hr with ⟨hge, hr⟩ | ⟨hlo, hreq, hr⟩ | ⟨hlo, hreq, -, rfl⟩
  · exact growNewFile_grown hm hL hfdl hp hge hpos hroom hsafe hr
  · exact relocateFile_grown hm hL hfdl hp hlo hreq hlt hroom hsafe hr
  · exact inPlace_grown hm hL hfdl hp hlo hreq hsafe

theorem Grown.setLength (hg : Grown p length s) (hlen : length < 2 ^ 32) (old : ℕ)
    (dir : List UInt8) : Layout (setLength p length old dir s) := by
  have hself : (Vfs.setLength p length old dir s).heap p = { s.heap p with length := length } := by
    show s.heap.set p _ p = _
    rw [Heap.set_self, toU32_of_lt hlen]
  have hne : ∀ q, q ≠ p → (Vfs.setLength p length old dir s).heap q = s.heap q :=
    fun q hq => Heap.set_of_ne _ _ hq
  refine ⟨hg.perm, ?_, fun q hq => ?_⟩
  · refine hg.lined _ (fun q _ hq => ?_) ?_ ?_
    · rw [hne q hq]
      exact ⟨rfl, rfl⟩
    · rw [hself]
    · rw [hself]
  · by_cases hqp : q = p
    · subst hqp
      right
      rw [hself]
      exact hg.room
    · rw [hne q hqp]
      exact hg.range q hq hqp

/-- A file that shrinks keeps its place. -/
theorem Layout.setLength (hL : Layout s) (hp : p ∈ s.live) (hlt : length < (s.heap p).length)
    (hlen : length < 2 ^ 32) (dir : List UInt8) :
    Layout (setLength p length (s.heap p).length dir s) := by
  have hself : (Vfs.setLength p length (s.heap p).length dir s).heap p =
      { s.heap p with length := length } := by
    show s.heap.set p _ p = _
    rw [Heap.set_self, toU32_of_lt hlen]
  have hne : ∀ q, q ≠ p → (Vfs.setLength p length (s.heap p).length dir s).heap q = s.heap q :=
    fun q hq => Heap.set_of_ne _ _ hq
  have hsmall : ∀ q, ((Vfs.setLength p length (s.heap p).length dir s).heap q).offset =
      (s.heap q).offset ∧
      ((Vfs.setLength p length (s.heap p).length dir s).heap q).length ≤ (s.heap q).length := by
    intro q
    by_cases hqp : q = p
    · subst hqp
      rw [hself]
      exact ⟨rfl, hlt.le⟩
    · rw [hne q hqp]
      exact ⟨rfl, le_rfl⟩
  refine ⟨hL.perm, ?_, fun q hq => ?_⟩
  · refine List.pairwise_map.mpr (hL.lined.rel.imp fun {a b} hab => ?_)
    have ha := hsmall a
    have hb := hsmall b
    unfold Extent.Before Extent.stop at *
    simp only [ext_start, ext_len] at *
    refine ⟨by omega, fun h0 h1 => ?_⟩
    have := hab.2 (by omega) (by omega)
    omega
  · by_cases hqp : q = p
    · subst hqp
      right
      have hr := hL.range q hp
      rw [hself]
      show (s.heap q).offset + length ≤ s.fileDataLen
      omega
    · rw [hne q hqp]
      exact hL.range q hq

/-- `resize_file_helper` keeps the layout if growing is safe. -/
theorem resizeFileHelper_layout (hm : Mirror w s) (hL : Layout s) (hfdl : s.fileDataLen ≤ 2 ^ 32)
    (hp : p ∈ s.live) (hlen : length < 2 ^ 32)
    (hroom : s.used + length ≤ s.fileDataLen + (s.heap p).length)
    (hsafe : (s.heap p).length < length → GrowSafe p length s)
    (hr : resizeFileHelper p length copy s = .ok (ho, s')) : Layout s' := by
  rcases resizeFileHelper_post hr with ⟨-, rfl, -⟩ | ⟨-, s₁, hcase, -, rfl⟩
  · exact hL
  rcases hcase with ⟨hlt, rfl, -⟩ | ⟨hlt, hr⟩
  · exact hL.setLength hp hlt hlen _
  · exact (makeRoom_grown hm hL hfdl hp hlt hroom (hsafe hlt) hr).setLength hlen _ _

end Growth

end Vfs
