import VirtualFileSystem.ReadBack

/-!
# Creating a file

The whole call in a well-formed state: which code it returns, what the new file holds, that the
others keep their bytes wherever a repack has put them, and that the result is well-formed and
coherent again.
-/

namespace Vfs

open FlatImage Extents

/-- The state has one more file, of that name and of `length` null bytes, and the others keep their
name, length and bytes. -/
structure Added (name : FileName) (length : ℕ) (s s' : Filesys) : Prop where
  new : ∃ p, p ∉ s.live ∧ s'.live = p :: s.live ∧ (s'.heap p).name = name ∧
    (s'.heap p).length = length ∧ bytesOf s' p = zeros length
  name : ∀ q ∈ s.live, (s'.heap q).name = (s.heap q).name
  length : ∀ q ∈ s.live, (s'.heap q).length = (s.heap q).length
  bytes : ∀ q ∈ s.live, bytesOf s' q = bytesOf s q

section Create

variable {w k length o : ℕ} {s s₁ s' : Filesys} {name : CString} {ho ho' : ℤ}

/-- Where room is found, no file has lost its bytes. -/
theorem newFileOffset_bytes (hm : Mirror w s) (hL : Layout s) (hfdl : s.fileDataLen ≤ 2 ^ 32)
    (hsafe : 0 < length → findGap length s = .ok none → Roomy 0 (exts s.heap s.oList.list))
    (hr : newFileOffset length ho s = .ok (o, ho', s₁)) :
    ∀ q ∈ s.live, bytesOf s₁ q = bytesOf s q := by
  intro q hq
  obtain ⟨-, ⟨rfl, -⟩ | ⟨hpos, hgap, hrep, -⟩⟩ := newFileOffset_post hr
  · rfl
  · exact repackHelper_bytesOf (hL.searchable hm hfdl).arranged (hsafe hpos hgap) hrep (hL.mem hq)

/-- Empty files are still at the sentinel. -/
theorem newFileOffset_empty (hw : WellFormed s) (hfdl : s.fileDataLen ≤ 2 ^ 32)
    (hr : newFileOffset length ho s = .ok (o, ho', s₁)) :
    ∀ q ∈ s.live, (s₁.heap q).length = 0 → (s₁.heap q).offset = maxFileDataLen := by
  intro q hq h0
  obtain ⟨-, ⟨rfl, -⟩ | ⟨-, -, hrep, -⟩⟩ := newFileOffset_post hr
  · exact hw.sentinel q hq h0
  · rw [(repackHelper_frame hrep).offsetOnly.length] at h0
    exact (repackHelper_compacted hw (hw.addressable hfdl) hrep).empty q (hw.layout.mem hq) h0

/-- The record of the new file, and its null bytes at `o`, in the state `s₁` the search for room
left. -/
structure Zeroed (name : FileName) (length o : ℕ) (s s₁ s' : Filesys) : Prop where
  frame : RepackFrame s s₁
  fresh : s₁.next ∉ s.live
  live : s'.live = s₁.next :: s.live
  new : (s'.heap s₁.next).name = name ∧ (s'.heap s₁.next).offset = o ∧
    (s'.heap s₁.next).length = length
  old : ∀ q ∈ s.live, (s'.heap q).Same (s₁.heap q)
  file : s'.file = splice s₁.file o (zeros length)
  names : NameSorted s.heap s.nList.list → NameSorted s'.heap s'.nList.list

theorem createFileAt_zeroed (hs : LiveOk s) (hne : name.bytes ≠ [])
    (hl : lookup name s = .ok none) (hlen : length < 2 ^ 32) (hfdl : s.fileDataLen ≤ 2 ^ 32)
    (hplace : ∀ o ho s₁, newFileOffset length (-1) s = .ok (o, ho, s₁) →
      (length = 0 ∧ o = maxFileDataLen) ∨ (0 < length ∧ o + length ≤ s.fileDataLen))
    (hr : createFileAt name length s = .ok s') :
    ∃ o ho s₁, newFileOffset length (-1) s = .ok (o, ho, s₁) ∧
      Zeroed name.toFileName length o s s₁ s' := by
  obtain ⟨i, o, ho, s₁, s₂, -, hnew, hf, hcr, hrest⟩ := createFileAt_steps hs hne hl hr
  rw [toU32_of_lt hlen] at hcr
  have hs₁ := hf.liveOk hs
  have hlive₁ : s₁.live = s.live := hf.kept.live
  obtain ⟨s₃, hreg, he⟩ := hcr.registered
  have hfile : s₂.file = s₁.file := by
    rw [he]
    show s₃.file = s₁.file
    rw [hreg.eq]
  obtain ⟨hheap, hlive, hnl, hfile'⟩ : s'.heap = s₂.heap ∧ s'.live = s₂.live ∧
      s'.nList = s₂.nList ∧ s'.file = splice s₁.file o (zeros length) := by
    rcases hrest with ⟨rfl, rfl⟩ | ⟨hpos, s₃, h3, h4⟩
    · exact ⟨rfl, rfl, rfl, by rw [hfile]; exact (splice_nil _ _).symm⟩
    have hin : o + length ≤ s.fileDataLen := by
      rcases hplace o ho s₁ hnew with ⟨h0, -⟩ | ⟨-, h⟩
      · omega
      · exact h
    obtain rfl := writeNullFile_splice (by omega) hpos (by omega) h3
    obtain ⟨t, ht, hheap, hlive, hnl, hfile'⟩ : ∃ t : Filesys, HashFrame t s' ∧
        t.heap = s₂.heap ∧ t.live = s₂.live ∧ t.nList = s₂.nList ∧
        t.file = splice s₂.file o (zeros length) :=
      ⟨_, hashEither_frame h4, rfl, rfl, rfl, rfl⟩
    refine ⟨ht.heap_file.1.trans hheap, ht.kept.live.trans hlive, ht.kept.nList.trans hnl, ?_⟩
    rw [ht.heap_file.2, hfile', hfile]
  have hheap₃ : s'.heap = s₃.heap := by rw [hheap, he]
  have hfresh : s₁.next ∉ s.live := fun h =>
    absurd (hs₁.fresh s₁.next (hlive₁ ▸ h)) (lt_irrefl _)
  have hnew' := hheap₃ ▸ hreg.new
  refine ⟨o, ho, s₁, hnew, hf, hfresh, ?_, ⟨hnew'.1, hnew'.2.1, hnew'.2.2.1⟩, fun q hq => ?_,
    hfile', fun hn => ?_⟩
  · rw [hlive, he]
    show s₃.live = _
    rw [hreg.eq, ← hlive₁]
  · rw [hheap₃]
    exact hreg.old q fun h => hfresh (h ▸ hq)
  · rw [hnl, hheap]
    exact hcr.nameSorted hs₁ (hf.kept.nameSorted hn)

/-- The new file holds null bytes, and the others what they held. -/
theorem createFileAt_added {w : ℕ} (hm : Mirror w s) (hL : Layout s) (hfdl : s.fileDataLen ≤ 2 ^ 32)
    (hne : name.bytes ≠ []) (hl : lookup name s = .ok none) (hlen : length < 2 ^ 32)
    (hroom : s.used + length ≤ s.fileDataLen)
    (hsafe : 0 < length → findGap length s = .ok none → Roomy 0 (exts s.heap s.oList.list))
    (hr : createFileAt name length s = .ok s') : Added name.toFileName length s s' := by
  have hfree := fun {o ho s₁} =>
    @newFileOffset_free _ s s₁ length o (-1) ho hm hL hfdl hroom hsafe
  obtain ⟨o, ho, s₁, hnew, hz⟩ :=
    createFileAt_zeroed hm.liveOk hne hl hlen hfdl (fun _ _ _ h => (hfree h).2.2) hr
  obtain ⟨hL₁, hfree₁, hplace⟩ := hfree hnew
  have hbytes := newFileOffset_bytes hm hL hfdl hsafe hnew
  have hfile₁ : s₁.file.length = s.fileDataLen := hz.frame.file_length
  have hlive₁ : s₁.live = s.live := hz.frame.kept.live
  refine ⟨⟨s₁.next, hz.fresh, hz.live, hz.new.1, hz.new.2.2, ?_⟩,
    fun q hq => (hz.old q hq).1.trans (hz.frame.offsetOnly.name q),
    fun q hq => (hz.old q hq).2.2.1.trans (hz.frame.offsetOnly.length q), fun q hq => ?_⟩
  · -- the new file holds what was written
    unfold bytesOf
    rw [hz.new.2.1, hz.new.2.2, hz.file]
    rcases hplace with ⟨rfl, -⟩ | ⟨-, hin⟩
    · rw [slice_zero]
      rfl
    · have := @slice_splice_self _ s₁.file o (zeros length) (by rw [length_zeros]; omega)
      rwa [length_zeros] at this
  · -- the null bytes lie in a free place
    rw [← hbytes q hq]
    have hold := hz.old q hq
    rcases Nat.eq_zero_or_pos (s₁.heap q).length with h0 | h0
    · rw [bytesOf_empty h0, bytesOf_empty (hold.2.2.1.trans h0)]
    · unfold bytesOf
      rw [hold.2.1, hold.2.2.1, hz.file]
      rcases hplace with ⟨rfl, -⟩ | ⟨-, hin⟩
      · rw [show zeros 0 = [] from rfl, splice_nil]
      · refine slice_splice_of_disjoint (by rw [length_zeros]; omega) ?_
        rw [length_zeros]
        exact hfree₁ q (hL₁.mem (hlive₁ ▸ hq)) h0

theorem createFileAt_wellFormed (hw : WellFormed s) (hfdl : s.fileDataLen ≤ 2 ^ 32)
    (hne : name.bytes ≠ []) (hl : lookup name s = .ok none) (hlen : length < 2 ^ 32)
    (hroom : s.used + length ≤ s.fileDataLen) (hslot : s.indexCount < s.indexLen)
    (hr : createFileAt name length s = .ok s') : WellFormed s' := by
  have hsafe : 0 < length → findGap length s = .ok none → Roomy 0 (exts s.heap s.oList.list) :=
    fun _ _ => hw.roomy hfdl
  have hplace := fun o ho s₁ h =>
    (@newFileOffset_free _ s s₁ length o (-1) ho hw.mirror hw.layout hfdl hroom hsafe h).2.2
  obtain ⟨o, ho, s₁, hnew, hz⟩ := createFileAt_zeroed hw.mirror.liveOk hne hl hlen hfdl hplace hr
  refine ⟨?_, ?_, hz.names hw.names, fun q hq h0 => ?_⟩
  · exact (createFileAt_mirror ⟨le_rfl, Nat.sub_le _ _⟩ hw.mirror (hw.layout.inRange hfdl) hfdl hlen
      hne hl hslot hr).1
  · exact createFileAt_layout hw.mirror hw.layout hfdl hlen hne hl hroom hsafe hr
  · rw [hz.live, List.mem_cons] at hq
    rcases hq with rfl | hq
    · rw [hz.new.2.2] at h0
      rw [hz.new.2.1]
      rcases hplace o ho s₁ hnew with ⟨-, h⟩ | ⟨h, -⟩
      · exact h
      · exact absurd h0 h.ne'
    · rw [(hz.old q hq).2.2.1] at h0
      rw [(hz.old q hq).2.1]
      exact newFileOffset_empty hw hfdl hnew q hq h0

/-- What `create_file` does from start to end. -/
structure CreateSpec (k : ℕ) (name : CString) (length : ℕ) (s : Filesys) (r : ℤ) (s' : Filesys) :
    Prop where
  code : r = 0 ∨ r = 1 ∨ r = 2
  exists_iff : r = 1 ↔ NameTaken name s
  full_iff : r = 2 ↔ ¬ NameTaken name s ∧
    (s.fileDataLen < s.used + length ∨ s.indexLen ≤ s.live.length)
  refused : r ≠ 0 → s' = s
  added : r = 0 → Added name.toFileName length s s'
  wellFormed : WellFormed s'
  coherent : Coherent k s'

/-- **Creating.**  From a well-formed coherent state the call completes with the code its checks
say, the new file holds null bytes and the others their own, and the state is well-formed and
coherent again. -/
theorem createFile_spec (hw : WellFormed s) (hpf : Perfect k s) (hk : k ≤ 23) (hc : Coherent k s)
    (hne : name.bytes ≠ []) (hlen : length < 2 ^ 32) :
    ∃ r s', createFile name length s = .ok (r, s') ∧ CreateSpec k name length s r s' := by
  have hfdl := hpf.fileDataLen_le31 hk
  have hused := hw.layout.total_eq hw.mirror
  have hle := hw.layout.used_le hw.mirror (by omega)
  have hcount := hw.mirror.counted.count
  obtain ⟨r, hl⟩ := lookup_total name s
  unfold createFile
  rw [hl, Run.ok_bind]
  cases r with
  | some p =>
    have ht : NameTaken name s := ⟨p, hw.mirror.liveOk.lookup hl⟩
    exact ⟨1, s, rfl, by decide, iff_of_true rfl ht, iff_of_false (by decide) fun h => h.1 ht,
      fun _ => rfl, fun h => absurd h (by decide), hw, hc⟩
  | none =>
    have hnt := (hw.lookup_none hne).mp hl
    have hsum : toU64 (s.used + length) > s.fileDataLen ↔ s.fileDataLen < s.used + length := by
      rw [toU64_of_nonneg (by omega) (by omega)]
      omega
    dsimp only
    split_ifs with hfull
    · refine ⟨2, s, rfl, by decide, iff_of_false (by decide) hnt, iff_of_true rfl ⟨hnt, ?_⟩,
        fun _ => rfl, fun h => absurd h (by decide), hw, hc⟩
      exact hfull.imp hsum.mp fun h => by omega
    · have hroom : s.used + length ≤ s.fileDataLen := by
        by_contra h
        exact hfull (Or.inl (hsum.mpr (by omega)))
      have hslot : s.indexCount < s.indexLen := by
        by_contra h
        exact hfull (Or.inr (by omega))
      obtain ⟨s', hr, -⟩ := createFileAt_total hw.mirror hw.layout hpf (by omega) hne hl hroom hlen
        hslot
      have hadded := createFileAt_added hw.mirror hw.layout (by omega) hne hl hlen hroom
        (fun _ _ => hw.roomy (by omega)) hr
      have hw' := createFileAt_wellFormed hw (by omega) hne hl hlen hroom hslot hr
      rw [hr]
      refine ⟨0, s', rfl, by decide, iff_of_false (by decide) hnt, iff_of_false (by decide) ?_,
        fun h => absurd rfl h, fun _ => hadded, hw', ?_⟩
      · rintro ⟨-, h | h⟩
        · omega
        · omega
      · exact (createFileAt_coherent hw.mirror hw.layout hpf hk hc
          (fun _ _ => hw.roomy (by omega)) hr).2

end Create

/-- `gapDir` with a free entry. -/
def slotDir : List UInt8 := gapDir ++ zeros 72

set_option maxRecDepth 20000 in
theorem slotDir_wellFormed {s : Filesys}
    (hinit : initFs (zeros 256) slotDir (zeros 16) = .ok s) : WellFormed s := by
  refine initFs_wellFormed ?_ ?_ ?_ hinit
  · unfold DistinctNames
    decide +kernel
  · unfold ExtentsInside
    decide +kernel
  · decide +kernel

set_option maxRecDepth 20000 in
/-- A file that fits once the file behind the gap has moved. -/
theorem createFile_spec_slot : ∃ s, initFs (zeros 256) slotDir (zeros 16) = .ok s ∧
    ∃ r s', createFile (.ofByte 99 (by decide)) 251 s = .ok (r, s') ∧
      CreateSpec 0 (.ofByte 99 (by decide)) 251 s r s' := by
  obtain ⟨s, hinit, ⟨h1, h2, h3⟩, hleaf⟩ := Run.holds_iff.mp
    (show Run.Holds (initFs (zeros 256) slotDir (zeros 16)) (fun s =>
      (s.file.length = 256 ∧ s.hash.length = 16 ∧ s.leafOffset = 0) ∧
        node s 0 = fletcher (block s 0)) by decide +kernel)
  have hc : Coherent 0 s := by
    refine ⟨fun n hn => absurd hn (Nat.not_lt_zero n), fun b hb => ?_⟩
    obtain rfl : b = 0 := by omega
    exact hleaf
  exact ⟨s, hinit, createFile_spec (slotDir_wellFormed hinit) ⟨h1, h2, h3⟩ (by decide) hc
    (by decide) (by norm_num)⟩

end Vfs
