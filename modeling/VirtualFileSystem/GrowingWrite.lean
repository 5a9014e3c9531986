import VirtualFileSystem.ReadBack

/-!
# A growing write is a resize and a write

Writing past the end takes along only the bytes in front of the buffer and hashes once; resizing
first takes all old bytes along, fills with null bytes and hashes them, and the write then hashes
its own range again.  The intermediate bytes are overwritten, and the tree depends on the last image
only, so both ways end in the same state.
-/

namespace Vfs

open FlatImage Extents

/-! ## The bytes taken along -/

section Copy

variable {s t t' : Filesys} {p : Ptr} {length copy copy' : ℕ} {ho ho' : ℤ}

/-- How many bytes are taken along makes a difference to the image only. -/
theorem relocateFile_copy (h : relocateFile p copy s = .ok (ho, t))
    (h' : relocateFile p copy' s = .ok (ho', t')) :
    ho' = ho ∧ t' = { t with file := t'.file } := by
  obtain ⟨s₁, s₂, s₃, temp, file, -, h1, h2, -, h4, h5⟩ := relocateFile_post h
  obtain ⟨s₁', s₂', s₃', temp', file', -, h1', h2', -, h4', h5'⟩ := relocateFile_post h'
  obtain rfl : s₁ = s₁' := Except.ok.inj (h1.symm.trans h1')
  obtain ⟨rfl, rfl⟩ := Prod.mk.inj (Except.ok.inj (h2.symm.trans h2'))
  refine ⟨rfl, ?_⟩
  rw [updateDirOffset_eq] at h4 h4'
  obtain ⟨-, rfl⟩ := writeDir_eq_ok.mp h4
  obtain ⟨-, rfl⟩ := writeDir_eq_ok.mp h4'
  unfold sortedInsert at h5 h5'
  obtain ⟨⟨r, arr, h⟩, hins, h5⟩ := Run.bind_eq_ok.mp h5
  obtain ⟨⟨r', arr', h'⟩, hins', h5'⟩ := Run.bind_eq_ok.mp h5'
  obtain ⟨rfl, rfl, rfl⟩ : r = r' ∧ arr = arr' ∧ h = h' := by
    have := Except.ok.inj (hins.symm.trans hins')
    simpa only [Prod.mk.injEq] using this
  obtain rfl := Except.ok.inj h5
  obtain rfl := Except.ok.inj h5'
  rfl

theorem makeRoom_copy (h : makeRoom p length copy s = .ok (ho, t))
    (h' : makeRoom p length copy' s = .ok (ho', t')) :
    ho' = ho ∧ t' = { t with file := t'.file } := by
  rcases makeRoom_post h with ⟨hge, h⟩ | ⟨hlt, hreq, h⟩ | ⟨hlt, hreq, rfl, rfl⟩ <;>
    rcases makeRoom_post h' with ⟨hge', h'⟩ | ⟨hlt', hreq', h'⟩ | ⟨hlt', hreq', rfl, rfl⟩
  · obtain ⟨rfl, rfl⟩ := Prod.mk.inj (Except.ok.inj (h.symm.trans h'))
    exact ⟨rfl, rfl⟩
  · omega
  · omega
  · omega
  · exact relocateFile_copy h h'
  · exact absurd hreq hreq'
  · omega
  · exact absurd hreq' hreq
  · exact ⟨rfl, rfl⟩

theorem resizeFileHelper_copy (hgrow : (s.heap p).length < length)
    (h : resizeFileHelper p length copy s = .ok (ho, t))
    (h' : resizeFileHelper p length copy' s = .ok (ho', t')) :
    ho' = ho ∧ t' = { t with file := t'.file } := by
  rcases resizeFileHelper_post h with ⟨he, -⟩ | ⟨-, s₁, ⟨hlt, -⟩ | ⟨-, h1⟩, -, rfl⟩
  · omega
  · omega
  rcases resizeFileHelper_post h' with ⟨he, -⟩ | ⟨-, s₂, ⟨hlt, -⟩ | ⟨-, h2⟩, -, rfl⟩
  · omega
  · omega
  obtain ⟨rfl, hs⟩ := makeRoom_copy h1 h2
  refine ⟨rfl, ?_⟩
  rw [hs]
  rfl

end Copy

/-! ## The images -/

section Image

variable {w k : ℕ} {s s₁ s₁' s' t : Filesys} {p : Ptr}
  {length copy offset : ℕ} {ho ho' : ℤ}

/-- What a repack of the other files relies on. -/
theorem Layout.others_slide (hL : Layout s) (he : EmptyAtSentinel s)
    (hfdl : s.fileDataLen ≤ 2 ^ 32) (p : Ptr) :
    Lined s.heap (others p s) ∧ Roomy 0 (exts s.heap (others p s)) ∧
      Inside s.file.length (exts s.heap (others p s)) := by
  have hsub : (others p s).Sublist s.oList.list := List.erase_sublist
  refine ⟨hL.lined.sublist hsub, ?_, ?_⟩
  · exact roomy_of_ranked _ _
      (List.pairwise_map.mpr ((hL.ranked he (hL.addressable hfdl)).sublist hsub))
  · intro x hx h0
    obtain ⟨q, hq, rfl⟩ := List.mem_map.mp hx
    exact (hL.inRange hfdl q (hL.live (hsub.subset hq))).2 h0

/-- Relocations differ in the bytes taken along only. -/
theorem relocated_outside (hw : WellFormed s) (hfdl : s.fileDataLen ≤ 2 ^ 32) (hp : p ∈ s.live)
    (hcopy : copy ≤ (s.heap p).length) {i : ℕ}
    (hi : i < totalLength s.heap (others p s) + copy ∨
      totalLength s.heap (others p s) + (s.heap p).length ≤ i) :
    (relocated p (s.heap p).length s)[i]? = (relocated p copy s)[i]? := by
  have hx := hw.layout.extentsApart hfdl
  obtain ⟨hlined, hroomy, hinside⟩ := hw.layout.others_slide hw.sentinel hfdl p
  have hlen := (slideImage_spec _ 0 s.file hlined (above_zero _) hroomy hinside).1
  have htotal : (totalLength s.heap (others p s) : ℤ) = s.used - (s.heap p).length :=
    hw.layout.total_erase hw.mirror hp
  have hle := hw.layout.used_le hw.mirror hfdl
  have hfile : s.file.length = s.fileDataLen := rfl
  have hl := bytesOf_length hx hp
  unfold relocated
  rw [← take_bytesOf hcopy, ← take_bytesOf le_rfl,
    getElem?_splice (by rw [List.length_take]; omega),
    getElem?_splice (by rw [List.length_take]; omega)]
  simp only [List.length_take, List.getElem?_take]
  split_ifs <;> first | rfl | omega

/-- Where the two ways of growing agree before anything is written behind the old bytes. -/
theorem grown_outside (hw : WellFormed s) (hfdl : s.fileDataLen ≤ 2 ^ 32) (hp : p ∈ s.live)
    (hcopy : copy ≤ (s.heap p).length) (hgrow : (s.heap p).length < length)
    (h : resizeFileHelper p length copy s = .ok (ho, s₁))
    (h' : resizeFileHelper p length (s.heap p).length s = .ok (ho', s₁')) {i : ℕ}
    (hi : i < (s₁.heap p).offset + copy ∨ (s₁.heap p).offset + (s.heap p).length ≤ i) :
    s₁'.file[i]? = s₁.file[i]? := by
  obtain ⟨-, hcase⟩ := resizeFileHelper_image hw.mirror hw.layout hfdl hp hcopy hgrow h
  obtain ⟨-, hcase'⟩ := resizeFileHelper_image hw.mirror hw.layout hfdl hp le_rfl hgrow h'
  rcases hcase with ⟨hrel, himg⟩ | ⟨hrel, hsame, -⟩
  · obtain ⟨-, himg'⟩ := hcase'.resolve_right fun h => h.1 hrel
    rw [himg.place] at hi
    rw [himg.file, himg'.file]
    exact relocated_outside hw hfdl hp hcopy hi
  · obtain ⟨-, hsame', -⟩ := hcase'.resolve_left fun h => hrel h.1
    rw [hsame, hsame']

/-- A resize that extends the file. -/
theorem resizeFileAt_grew (hm : Mirror w s) (hL : Layout s) (hpf : Perfect k s) (hk : k ≤ 23)
    (hp : p ∈ s.live)
    (hgrow : (s.heap p).length < length)
    (hroom : s.used + length ≤ s.fileDataLen + (s.heap p).length)
    (hr : resizeFileAt p length s = .ok t) :
    ∃ ho s₁, Grew k p length (s.heap p).length (zeros (length - (s.heap p).length)) s ho s₁ t := by
  have hk31 := hpf.fileDataLen_le31 hk
  have hle := hm.length_le hp hroom
  obtain ⟨ho, s₁, h1, ⟨hle', -⟩ | ⟨-, s₂, h2, h3⟩⟩ := resizeFileAt_post hr
  · omega
  obtain ⟨hstart, hin⟩ := resizeFileHelper_start hm hL (by omega) hp le_rfl hgrow
    hroom h1
  have hk₁ := (resizeFileHelper_liveOk hm.liveOk hp h1).2
  have hfile₁ : s₁.file.length = s.fileDataLen := hk₁.shape.file
  have e1 : ((s₁.heap p).offset : ℤ) + (s.heap p).length =
      (((s₁.heap p).offset + (s.heap p).length : ℕ) : ℤ) := by
    rw [Nat.cast_add]
  have e2 : (length : ℤ) - (s.heap p).length = ((length - (s.heap p).length : ℕ) : ℤ) := by
    rw [Nat.cast_sub hgrow.le]
  rw [e1, e2] at h2 h3
  have hnull := writeNullFile_splice (by omega) (by omega) (by omega) h2
  have hsplice : (splice s₁.file ((s₁.heap p).offset + (s.heap p).length)
      (zeros (length - (s.heap p).length))).length = s₁.file.length :=
    length_splice (by rw [length_zeros]; omega)
  have hpf₂ : Perfect k s₂ := by
    rw [hnull]
    exact (hpf.congr hk₁.shape).congr (Kept.file hsplice).shape
  have hfile₂ : s₂.file.length = s₁.file.length := by
    rw [hnull]
    exact hsplice
  have hhashed : BlocksHashed k
      {blk | Hashed (hashFrom ho p (s.heap p).length s₁)
        (((s₁.heap p).offset + length : ℕ) : ℤ) blk}
      s₂ t := by
    unfold hashFrom
    rcases h3 with ⟨h0, h3⟩ | ⟨hneg, h3⟩
    · have hlt := (hstart.resolve_left (by omega)).2.1
      rw [toI64_of_bounds (by omega) (by omega)] at h3
      have := range_hashed hpf₂ (by omega) h0 (by omega) h3
      rw [if_pos h0, Nat.cast_add]
      rwa [add_sub_cancel] at this
    · rw [toI64_of_lt (by omega), toI64_of_lt (by omega)] at h3
      have := range_hashed hpf₂ (by omega) (by omega) (by omega) h3
      rw [if_neg (by omega), show (s₁.heap p).offset + length =
        (s₁.heap p).offset + (s.heap p).length + (length - (s.heap p).length) by omega]
      rwa [← Nat.cast_add] at this
  rw [hnull] at hhashed
  exact ⟨ho, s₁, h1, hstart.imp_right fun h => ⟨h.1, h.2.1⟩, hin, hhashed⟩

theorem hashed_union (lo lo' hi : ℤ) :
    {b | Hashed lo hi b} ∪ {b | Hashed lo' hi b} = {b | Hashed (min lo lo') hi b} := by
  ext b
  constructor
  · rintro (h | h)
    · exact h.mono (min_le_left lo lo')
    · exact h.mono (min_le_right lo lo')
  · intro h
    rcases min_choice lo lo' with he | he
    · left
      rwa [Set.mem_ofPred_eq, he] at h
    · right
      rwa [Set.mem_ofPred_eq, he] at h

variable {buf : List UInt8}

/-- Writing over the end in one call or in two. -/
theorem writeFileAt_resized (hw : WellFormed s) (hpf : Perfect k s) (hk : k ≤ 23) (hp : p ∈ s.live)
    (hoff : offset ≤ (s.heap p).length) (hcount : buf.length < 2 ^ 63)
    (hgrow : (s.heap p).length < offset + buf.length)
    (hroom : s.used + (offset + buf.length : ℕ) ≤ s.fileDataLen + (s.heap p).length)
    (hr : writeFileAt p offset buf.length buf s = .ok s')
    (hr' : resizeFileAt p (offset + buf.length) s = .ok t) :
    writeFileAt p offset buf.length buf t = .ok s' ∧
      (t.heap p).length = offset + buf.length := by
  have hfdl := hpf.fileDataLen_le31 hk
  have hle := hw.mirror.length_le hp hroom
  obtain ⟨ho, s₁, hg⟩ := writeFileAt_grew hw.mirror hw.layout hpf hk hp hoff hcount hgrow hroom hr
  obtain ⟨ho', s₁', hg'⟩ := resizeFileAt_grew hw.mirror hw.layout hpf hk hp hgrow hroom hr'
  obtain ⟨rfl, hs₁⟩ := resizeFileHelper_copy hgrow hg.helper hg'.helper
  obtain ⟨-, -, hl, -⟩ := resizeFileHelper_roomAt (by unfold nameLen; omega) hw.mirror hw.layout
    (by omega) hp (by omega) hgrow hroom hoff
    (hw.growClear (hw.addressable (by omega)) hp _) hg.helper
  have hkept := (resizeFileAt_liveOk hw.mirror.liveOk hp hr').2
  have hpt := hpf.congr hkept.shape
  have hk₁ := (resizeFileHelper_liveOk hw.mirror.liveOk hp hg.helper).2
  have hheap₁ : s₁'.heap = s₁.heap := by rw [hs₁]
  have hheap : t.heap = s₁.heap := hg'.hashed.frame.heap_file.1.trans hheap₁
  have hfile : t.file = splice s₁'.file ((s₁.heap p).offset + (s.heap p).length)
      (zeros (offset + buf.length - (s.heap p).length)) := by
    rw [hg'.hashed.frame.heap_file.2, hheap₁]
  have hfdl₁ : s₁'.file.length = s₁.file.length := by
    rw [(resizeFileHelper_liveOk hw.mirror.liveOk hp hg'.helper).2.shape.file, hk₁.shape.file]
  have hroom₁ := hg.room
  have hlt : (t.heap p).length = offset + buf.length := by rw [hheap, hl]
  have hin : (t.heap p).offset + (t.heap p).length ≤ t.file.length := by
    rw [hlt, hheap, hkept.shape.file, ← hk₁.shape.file]
    exact hroom₁
  obtain ⟨t', ht', hover⟩ := @writeFileAt_inside k t p offset buf hpt hk hlt.ge hin
  refine ⟨?_, hlt⟩
  rw [ht']
  congr 1
  -- behind the kept bytes both images hold the buffer
  have himage : splice t.file ((t.heap p).offset + offset) buf =
      splice s₁.file ((s₁.heap p).offset + offset) buf := by
    rw [hheap]
    apply splice_congr
    intro i hi
    have hout : i < (s₁.heap p).offset + offset ∨
        (s₁.heap p).offset + (s.heap p).length ≤ i := by omega
    rw [hfile, getElem?_splice (by rw [length_zeros]; omega), length_zeros, if_neg (by omega)]
    exact grown_outside hw (by omega) hp hoff hgrow hg.helper hg'.helper hout
  have hoff₁ : (t.heap p).offset = (s₁.heap p).offset := by rw [hheap]
  rw [himage, hoff₁, touched_eq_hashed] at hover
  have hblk : ∀ lo, 0 ≤ lo → ∀ b ∈ {b | Hashed lo
      (((s₁.heap p).offset + offset + buf.length : ℕ) : ℤ) b}, b < 2 ^ k := fun lo h0 => by
    have := @hashed_lt k s₁ lo (((s₁.heap p).offset + offset + buf.length : ℕ) - lo)
      (hpf.congr hk₁.shape) (by omega)
    rwa [show lo + (((s₁.heap p).offset + offset + buf.length : ℕ) - lo) =
      (((s₁.heap p).offset + offset + buf.length : ℕ) : ℤ) by ring] at this
  have hstart' : 0 ≤ hashFrom ho' p (s.heap p).length s₁' := by
    unfold hashFrom
    split_ifs <;> omega
  have hfrom : min (hashFrom ho' p (s.heap p).length s₁')
      (((s₁.heap p).offset + offset : ℕ) : ℤ) = hashFrom ho' p offset s₁ := by
    have := hg.start
    unfold hashFrom
    rw [hheap₁]
    split_ifs <;> omega
  have h1 := hg'.hashed
  have h2 := hg.hashed
  rw [hheap₁, ← add_assoc] at h1
  rw [← add_assoc] at h2
  have hboth := h1.over hover (hblk _ hstart') (hblk _ (by omega)) fun b hb => ?_
  · rw [hashed_union, hfrom, hs₁] at hboth
    exact hboth.unique h2 (hblk _ (by rw [← hfrom]; omega))
  · -- a block the buffer does not touch holds what the resize left
    rw [← himage, hheap, hfile]
    exact cell_splice_of_not_hashed (by rw [← hfile, hkept.shape.file, ← hk₁.shape.file]; omega)
      le_rfl le_rfl hb

end Image

/-! ## `write_file` and `resize_file` -/

section Calls

variable {k length offset : ℕ} {s s' t : Filesys} {p : Ptr} {name : CString} {buf : List UInt8}

theorem writeFile_of (hl : lookup name s = .ok (some p)) (hoff : offset ≤ (s.heap p).length)
    (hpos : 0 < buf.length) (hused : (s.heap p).length ≤ s.used)
    (hroom : s.used + (offset + buf.length : ℕ) ≤ s.fileDataLen + (s.heap p).length)
    (hfdl : s.fileDataLen < 2 ^ 64) (hat : writeFileAt p offset buf.length buf s = .ok s') :
    writeFile name offset buf.length buf s = .ok (0, s') := by
  have hcheck : ¬ toU64 (s.used + offset + buf.length - (s.heap p).length) > s.fileDataLen := by
    rw [toU64_of_nonneg (by omega) (by omega)]
    omega
  unfold writeFile
  rw [hl, Run.ok_bind]
  dsimp only
  rw [if_neg (by omega), if_neg hcheck, if_neg (by omega), hat]
  rfl

theorem resizeFile_of (hl : lookup name s = .ok (some p)) (hne : length ≠ (s.heap p).length)
    (hused : (s.heap p).length ≤ s.used)
    (hroom : s.used + length ≤ s.fileDataLen + (s.heap p).length)
    (hfdl : s.fileDataLen < 2 ^ 64) (hat : resizeFileAt p length s = .ok t) :
    resizeFile name length s = .ok (0, t) := by
  have hcheck : ¬ toU64 (s.used + length - (s.heap p).length) > s.fileDataLen := by
    rw [toU64_of_nonneg (by omega) (by omega)]
    omega
  unfold resizeFile
  rw [hl, Run.ok_bind]
  dsimp only
  rw [if_neg hcheck, if_neg hne, hat]
  rfl

/-- **Growing writes.**  A write that ends behind the file succeeds exactly when a resize to that
end does, and leaves the very state that the resize and the same write after it leave. -/
theorem writeFile_resized (hw : WellFormed s) (hpf : Perfect k s) (hk : k ≤ 23)
    (hl : lookup name s = .ok (some p)) (hoff : offset ≤ (s.heap p).length)
    (hcount : buf.length < 2 ^ 62) (hgrow : (s.heap p).length < offset + buf.length) :
    ((∃ s', writeFile name offset buf.length buf s = .ok (0, s')) ↔
      ∃ t, resizeFile name (offset + buf.length) s = .ok (0, t)) ∧
    ∀ s' t, writeFile name offset buf.length buf s = .ok (0, s') →
      resizeFile name (offset + buf.length) s = .ok (0, t) →
      writeFile name offset buf.length buf t = .ok (0, s') := by
  have hfdl := hpf.fileDataLen_le31 hk
  have hp := (hw.mirror.liveOk.lookup hl).1
  have hlen := hw.mirror.counted.length_lt p hp
  have hused := hw.mirror.length_le_used hp
  have hwrite : ∀ s', writeFile name offset buf.length buf s = .ok (0, s') →
      s.used + (offset + buf.length : ℕ) ≤ s.fileDataLen + (s.heap p).length ∧
        writeFileAt p offset buf.length buf s = .ok s' := by
    intro s' hr
    rcases writeFile_post hr with ⟨-, -, hl'⟩ | ⟨q, hl', hcase⟩
    · cases hl.symm.trans hl'
    obtain rfl : p = q := Option.some_inj.mp (Except.ok.inj (hl.symm.trans hl'))
    rcases hcase with ⟨h0, -⟩ | ⟨h0, -⟩ | ⟨-, -, hadm, ⟨h0, -⟩ | ⟨-, hat⟩⟩
    · cases h0
    · cases h0
    · omega
    · refine ⟨admitted_le hw.mirror hp (by omega) ?_, hat⟩
      rwa [Nat.cast_add, ← add_assoc]
  have hresize : ∀ t, resizeFile name (offset + buf.length) s = .ok (0, t) →
      s.used + (offset + buf.length : ℕ) ≤ s.fileDataLen + (s.heap p).length ∧
        resizeFileAt p (offset + buf.length) s = .ok t := by
    intro t hr
    rcases resizeFile_post hr with ⟨-, -, hl'⟩ | ⟨q, hl', hcase⟩
    · cases hl.symm.trans hl'
    obtain rfl : p = q := Option.some_inj.mp (Except.ok.inj (hl.symm.trans hl'))
    rcases hcase with ⟨h0, -⟩ | ⟨-, hadm, ⟨h0, -⟩ | ⟨-, hat⟩⟩
    · cases h0
    · omega
    · exact ⟨admitted_le hw.mirror hp (by omega) hadm, hat⟩
  refine ⟨⟨?_, ?_⟩, fun s' t hr hr' => ?_⟩
  · rintro ⟨s', hr⟩
    obtain ⟨hroom, -⟩ := hwrite s' hr
    have hle := hw.mirror.length_le hp hroom
    obtain ⟨t, ht, -⟩ := resizeFileAt_total hw.mirror hw.layout hpf (by omega) hp (by omega) hroom
    exact ⟨t, resizeFile_of hl hgrow.ne' hused hroom (by omega) ht⟩
  · rintro ⟨t, hr⟩
    obtain ⟨hroom, -⟩ := hresize t hr
    obtain ⟨s', hs'⟩ := writeFileAt_total hw.mirror hw.layout hpf (by omega) hp hoff le_rfl
      (by omega) (by omega) hroom
    exact ⟨s', writeFile_of hl hoff (by omega) hused hroom (by omega) hs'⟩
  · obtain ⟨hroom, hat⟩ := hwrite s' hr
    obtain ⟨-, hat'⟩ := hresize t hr'
    have hle := hw.mirror.length_le hp hroom
    obtain ⟨hagain, hlt⟩ := writeFileAt_resized hw hpf hk hp hoff (by omega) hgrow hroom hat hat'
    obtain ⟨hst, hkept⟩ := resizeFileAt_liveOk hw.mirror.liveOk hp hat'
    obtain ⟨t', ht', htused⟩ :=
      resizeFileAt_total hw.mirror hw.layout hpf (by omega) hp (by omega) hroom
    obtain rfl : t = t' := Except.ok.inj (hat'.symm.trans ht')
    have hfile : t.fileDataLen = s.fileDataLen := hkept.shape.file
    exact writeFile_of (hw.lookup_kept hst hkept hl) (by omega) (by omega) (by omega) (by omega)
      (by omega) hagain

end Calls

set_option maxRecDepth 20000 in
/-- The file behind the gap of `gapDir` grows past the end of the image unless it moves. -/
theorem writeFile_resized_gap : ∃ s, initFs (zeros 256) gapDir (zeros 16) = .ok s ∧
    ((∃ s', writeFile (.ofByte 97 (by decide)) 1 252 (zeros 252) s = .ok (0, s')) ↔
      ∃ t, resizeFile (.ofByte 97 (by decide)) (1 + 252) s = .ok (0, t)) ∧
    ∀ s' t, writeFile (.ofByte 97 (by decide)) 1 252 (zeros 252) s = .ok (0, s') →
      resizeFile (.ofByte 97 (by decide)) (1 + 252) s = .ok (0, t) →
      writeFile (.ofByte 97 (by decide)) 1 252 (zeros 252) t = .ok (0, s') := by
  obtain ⟨s, hinit, ⟨h1, h2, h3⟩, hlook⟩ := Run.holds_iff.mp
    (show Run.Holds (initFs (zeros 256) gapDir (zeros 16)) (fun s =>
      (s.file.length = 256 ∧ s.hash.length = 16 ∧ s.leafOffset = 0) ∧
      Run.Holds (lookup (.ofByte 97 (by decide)) s) fun r =>
        ∃ p ∈ s.live, r = some p ∧ (s.heap p).length = 1) by decide +kernel)
  obtain ⟨r, hl, p, -, rfl, hlen⟩ := Run.holds_iff.mp hlook
  have hbuf : (zeros 252).length = 252 := length_zeros 252
  have := @writeFile_resized 0 1 s p (.ofByte 97 (by decide)) (zeros 252)
    (gapDir_wellFormed hinit) ⟨h1, h2, h3⟩ (by decide) hl (by omega) (by rw [hbuf]; norm_num)
    (by rw [hbuf]; omega)
  rw [hbuf] at this
  exact ⟨s, hinit, this⟩

end Vfs
