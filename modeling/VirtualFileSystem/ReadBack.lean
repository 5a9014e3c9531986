import VirtualFileSystem.Contents

/-!
# Writing and reading back

A write replaces the bytes in its range, lets the file grow behind them and leaves the others as
they are.  The blocks it touches are hashed after the last byte is in place, so a read of the same
range verifies, whatever the hashes were before.
-/

namespace Vfs

open FlatImage Extents

section Grew

variable {w k : ℕ} {s s₁ s' : Filesys} {p : Ptr} {length copy offset : ℕ} {ho : ℤ}
  {bs buf : List UInt8}

/-- The first byte hashed after a file has grown behind its first `copy` bytes. -/
def hashFrom (ho : ℤ) (p : Ptr) (copy : ℕ) (s₁ : Filesys) : ℤ :=
  if 0 ≤ ho then ho else (((s₁.heap p).offset + copy : ℕ) : ℤ)

/-- A growing call: room for `length` bytes, `bs` behind the first `copy`, and everything from the
first byte moved to the end of the file hashed. -/
structure Grew (k : ℕ) (p : Ptr) (length copy : ℕ) (bs : List UInt8) (s : Filesys) (ho : ℤ)
    (s₁ s' : Filesys) : Prop where
  helper : resizeFileHelper p length copy s = .ok (ho, s₁)
  start : ho = -1 ∨ 0 ≤ ho ∧ ho < (s₁.heap p).offset
  room : (s₁.heap p).offset + length ≤ s₁.file.length
  hashed : BlocksHashed k
    {blk | Hashed (hashFrom ho p copy s₁) (((s₁.heap p).offset + length : ℕ) : ℤ) blk}
    { s₁ with file := splice s₁.file ((s₁.heap p).offset + copy) bs } s'

theorem Relocated.hashOffset_lt (h : Relocated p copy s ho s₁) (h0 : 0 ≤ ho) :
    ho < (s₁.heap p).offset := by
  have hho := h.hashOffset
  rw [h.place]
  cases hf : firstMoved 0 (exts s.heap (others p s)) with
  | none =>
    rw [hf] at hho
    change ho = -1 at hho
    omega
  | some x =>
    rw [hf] at hho
    have := firstMoved_lt hf
    rw [total_exts] at this
    change ho = (x : ℤ) at hho
    omega

/-- What `resize_file_helper` reports for a file that grows, and where it leaves it. -/
theorem resizeFileHelper_start (hm : Mirror w s) (hL : Layout s) (hfdl : s.fileDataLen ≤ 2 ^ 32)
    (hp : p ∈ s.live) (hcopy : copy ≤ (s.heap p).length) (hgrow : (s.heap p).length < length)
    (hroom : s.used + length ≤ s.fileDataLen + (s.heap p).length)
    (hr : resizeFileHelper p length copy s = .ok (ho, s₁)) :
    (ho = -1 ∨ 0 ≤ ho ∧ ho < (s₁.heap p).offset ∧
        s₁.used = (((s₁.heap p).offset + length : ℕ) : ℤ)) ∧
      (s₁.heap p).offset + length ≤ s₁.file.length := by
  obtain ⟨-, hcase⟩ := resizeFileHelper_image hm hL hfdl hp hcopy hgrow hr
  have hfile : s₁.file.length = s.fileDataLen :=
    (resizeFileHelper_liveOk hm.liveOk hp hr).2.shape.file
  obtain ⟨ho', s₁', hr', hho, hused, hplace⟩ :=
    @resizeFileHelper_total _ s p length _ hm hL hfdl hp hcopy
  obtain ⟨rfl, rfl⟩ := Prod.mk.inj (Except.ok.inj (hr.symm.trans hr'))
  have hin := (hplace hgrow).2 hroom
  refine ⟨?_, by omega⟩
  rcases hcase with ⟨-, himg⟩ | ⟨-, -, rfl⟩
  · refine hho.imp_right fun h => ⟨h.1, himg.hashOffset_lt h.1, ?_⟩
    have htotal := hL.total_erase hm hp
    have hused0 := hL.used_le hm hfdl
    have hplace := himg.place
    unfold others at hplace
    rw [hused, toI64_of_bounds (by omega) (by omega)]
    omega
  · exact Or.inl rfl

theorem Mirror.length_le (hm : Mirror w s) (hp : p ∈ s.live)
    (hroom : s.used + length ≤ s.fileDataLen + (s.heap p).length) : length ≤ s.fileDataLen := by
  have := hm.length_le_used hp
  omega

/-- A write reads `count` bytes of the buffer. -/
theorem writeFileAt_take {count : ℕ} (hle : count ≤ buf.length) :
    writeFileAt p offset count (buf.take count) s = writeFileAt p offset count buf s := by
  have hread : memRead (buf.take count) 0 count = memRead buf 0 count := by
    have htake : (buf.take count).length = count := List.length_take_of_le hle
    have h1 := @memRead_of (buf.take count) 0 count (by omega)
    have h2 := @memRead_of buf 0 count (by omega)
    refine h1.trans (Eq.trans ?_ h2.symm)
    simp [slice]
  unfold writeFileAt
  rw [hread]

/-- A write behind the end of the file. -/
theorem writeFileAt_grew (hm : Mirror w s) (hL : Layout s) (hpf : Perfect k s) (hk : k ≤ 23)
    (hp : p ∈ s.live)
    (hoff : offset ≤ (s.heap p).length) (hcount : buf.length < 2 ^ 63)
    (hgrow : (s.heap p).length < offset + buf.length)
    (hroom : s.used + (offset + buf.length : ℕ) ≤ s.fileDataLen + (s.heap p).length)
    (hr : writeFileAt p offset buf.length buf s = .ok s') :
    ∃ ho s₁, Grew k p (offset + buf.length) offset buf s ho s₁ s' := by
  have hk31 := hpf.fileDataLen_le31 hk
  have hle := hm.length_le hp hroom
  have h64 : toU64 ((offset : ℤ) + buf.length) = offset + buf.length := by
    exact_mod_cast toU64_of_lt (n := offset + buf.length) (by omega)
  obtain ⟨ho, s₁, hcase, -, -, hhash⟩ := writeFileAt_post hr
  rw [h64] at hcase
  obtain ⟨-, h1⟩ := hcase.resolve_left fun h => absurd h.1 (by omega)
  obtain ⟨hstart, hin⟩ := resizeFileHelper_start hm hL (by omega) hp hoff hgrow
    hroom h1
  have hk₁ := (resizeFileHelper_liveOk hm.liveOk hp h1).2
  have hfile₁ : s₁.file.length = s.fileDataLen := hk₁.shape.file
  have hsplice : (splice s₁.file ((s₁.heap p).offset + offset) buf).length = s₁.file.length :=
    length_splice (by omega)
  have hpf₁ : Perfect k { s₁ with file := splice s₁.file ((s₁.heap p).offset + offset) buf } :=
    (hpf.congr hk₁.shape).congr (Kept.file hsplice).shape
  rw [List.take_length] at hhash
  refine ⟨ho, s₁, h1, hstart.imp_right fun h => ⟨h.1, h.2.1⟩, hin, ?_⟩
  rcases hstart with rfl | ⟨h0, hlt, hused⟩
  · rcases hhash with ⟨h, -⟩ | ⟨-, hhash⟩
    · exact absurd h (by decide)
    · rw [toI64_of_bounds (by omega) (by omega), toI64_of_bounds (by omega) (by omega)] at hhash
      have := range_hashed hpf₁ (by omega) (by omega) (by rw [hsplice]; omega) hhash
      unfold hashFrom
      rw [if_neg (by decide)]
      simp only [Nat.cast_add, ← add_assoc]
      exact this
  · have h32 : toI32 ho = ho := toI32_of_bounds (by omega) (by omega)
    rw [h32] at hhash
    rcases hhash with ⟨-, hhash⟩ | ⟨h, -⟩
    · have := range_hashed hpf₁ (by omega) h0 (by rw [hsplice]; omega) hhash
      unfold hashFrom
      rw [if_pos h0, ← hused]
      rwa [show ho + (s₁.used - ho) = s₁.used by ring] at this
    · omega

/-- A write inside the file. -/
theorem writeFileAt_inside (hpf : Perfect k s) (hk : k ≤ 23)
    (hin : offset + buf.length ≤ (s.heap p).length)
    (hroom : (s.heap p).offset + (s.heap p).length ≤ s.file.length) :
    ∃ s', writeFileAt p offset buf.length buf s = .ok s' ∧
      BlocksHashed k (touched ((s.heap p).offset + offset) buf.length)
        { s with file := splice s.file ((s.heap p).offset + offset) buf } s' := by
  have hk31 := hpf.fileDataLen_le31 hk
  have hfile : s.file.length = s.fileDataLen := rfl
  have h64 : toU64 ((offset : ℤ) + buf.length) = offset + buf.length := by
    exact_mod_cast toU64_of_lt (n := offset + buf.length) (by omega)
  have hsplice : (splice s.file ((s.heap p).offset + offset) buf).length = s.file.length :=
    length_splice (by omega)
  have hpf' := hpf.congr (Kept.file hsplice).shape
  have hin' : (s.heap p).offset + offset + buf.length ≤
      (splice s.file ((s.heap p).offset + offset) buf).length := by omega
  obtain ⟨s', hhash⟩ := computeHashBlockRange_of hpf' (by omega) hin'
  refine ⟨s', ?_, computeHashBlockRange_hashed hpf' (by omega) hin' hhash⟩
  have hread : memRead buf 0 buf.length = .ok buf :=
    memRead_eq_ok.mpr ⟨⟨le_rfl, by omega⟩, (slice_all buf).symm⟩
  have hwrite := @memWrite_of s.file ((s.heap p).offset + offset) buf (by omega)
  unfold writeFileAt
  rw [h64, if_neg (by omega), Run.pure_eq, Run.ok_bind]
  dsimp only
  rw [hread, Run.ok_bind, hwrite, Run.ok_bind, if_neg (by decide), ← Nat.cast_add,
    toI64_of_lt (by omega), toI64_of_lt (by omega)]
  exact hhash

theorem Hashed.mono {lo lo' hi : ℤ} {b : ℕ} (h : Hashed lo hi b) (hlo : lo' ≤ lo) :
    Hashed lo' hi b :=
  ⟨hlo.trans_lt h.1, h.2.1, hlo.trans_lt h.2.2⟩

theorem touched_eq_hashed (a n : ℕ) : touched a n = {b | Hashed a ((a + n : ℕ) : ℤ) b} := by
  ext b
  constructor
  · rintro ⟨hn, h1, h2⟩
    exact ⟨by omega, by exact_mod_cast h1, by exact_mod_cast h2⟩
  · rintro ⟨hn, h1, h2⟩
    exact ⟨by omega, by exact_mod_cast h1, by exact_mod_cast h2⟩

theorem hashFrom_le (hstart : ho = -1 ∨ 0 ≤ ho ∧ ho < (s₁.heap p).offset) :
    hashFrom ho p copy s₁ ≤ (((s₁.heap p).offset + copy : ℕ) : ℤ) := by
  unfold hashFrom
  split_ifs <;> omega

/-- After a write the file holds the buffer between the bytes before and behind it. -/
theorem writeFileAt_bytes (hw : w ≤ nameLen) (hm : Mirror w s) (hL : Layout s)
    (hfdl : s.fileDataLen ≤ 2 ^ 32) (hp : p ∈ s.live) (hoff : offset ≤ (s.heap p).length)
    (hpos : 0 < buf.length) (hlen : offset + buf.length < 2 ^ 32)
    (hroom : s.used + (offset + buf.length : ℕ) ≤ s.fileDataLen + (s.heap p).length)
    (hclear : (s.heap p).length < offset + buf.length → GrowClear p (offset + buf.length) s)
    (hr : writeFileAt p offset buf.length buf s = .ok s') :
    Stored p (splice (bytesOf s p) offset buf) s s' ∧ ExtentsApart s' := by
  have hx := hL.extentsApart hfdl
  have hkept := (writeFileAt_liveOk hm.liveOk hp hr).2
  have hbytes := bytesOf_length hx hp
  have h64 : toU64 ((offset : ℤ) + buf.length) = offset + buf.length := by
    exact_mod_cast toU64_of_lt (n := offset + buf.length) (by omega)
  obtain ⟨ho, s₁, hcase, -, -, hhash⟩ := writeFileAt_post hr
  rw [h64] at hcase
  rw [List.take_length] at hhash
  have hframe : HashFrame
      { s₁ with file := splice s₁.file ((s₁.heap p).offset + offset) buf } s' :=
    hashEither_frame hhash
  rcases hcase with ⟨hin, -, rfl⟩ | ⟨hgrow, h1⟩
  · -- the file keeps its length and its place
    obtain ⟨hheap, hfile⟩ := hframe.heap_file
    have hat := hL.roomAt hfdl hp (by omega) le_rfl
    obtain ⟨hothers, hself⟩ := @RoomAt.write s₁ s' p _ _ _ hat hin hheap hfile
    refine ⟨⟨hkept.live, hkept.name, ?_, ?_, fun q _ _ => by rw [hheap], hothers⟩, ?_⟩
    · rw [hheap, length_splice (by omega)]
      exact hbytes.symm
    · unfold bytesOf at *
      rw [hheap] at hself ⊢
      exact hself
    · refine @RoomAt.extentsApart s' p (s₁.heap p).length ?_ (by rw [hheap])
      refine hat.congr hkept.live hkept.shape.file (by rw [hheap]) fun q _ _ => ?_
      unfold ext
      rw [hheap]
  · -- the file ends with the buffer
    obtain ⟨hat, hcopied, hl, hother⟩ := resizeFileHelper_roomAt hw hm hL hfdl hp hlen
      hgrow hroom hoff (hclear hgrow) h1
    have hk₁ := (resizeFileHelper_liveOk hm.liveOk hp h1).2
    have hsplice : splice (bytesOf s p) offset buf = (bytesOf s p).take offset ++ buf := by
      unfold splice
      rw [List.drop_of_length_le (by omega), List.append_nil]
    rw [hsplice]
    exact stored_append hx hp hoff rfl hkept hat hcopied hl hother hk₁.live rfl hframe

/-- After a write every block the buffer lies in verifies. -/
theorem writeFileAt_stored (hw : WellFormed s) (hpf : Perfect k s) (hk : k ≤ 23) (hp : p ∈ s.live)
    (hoff : offset ≤ (s.heap p).length) (hpos : 0 < buf.length) (hcount : buf.length < 2 ^ 63)
    (hroom : s.used + (offset + buf.length : ℕ) ≤ s.fileDataLen + (s.heap p).length)
    (hr : writeFileAt p offset buf.length buf s = .ok s') :
    Stored p (splice (bytesOf s p) offset buf) s s' ∧ ExtentsApart s' ∧
      ∀ b ∈ touched ((s'.heap p).offset + offset) buf.length, Verified k b s' := by
  have hfdl := hpf.fileDataLen_le31 hk
  have hle := hw.mirror.length_le hp hroom
  have hold := hw.mirror.counted.length_lt p hp
  obtain ⟨hstored, hx⟩ := writeFileAt_bytes (Nat.sub_le _ _) hw.mirror hw.layout (by omega) hp hoff
    hpos (by omega) hroom (fun _ => hw.growClear (hw.addressable (by omega)) hp _) hr
  refine ⟨hstored, hx, fun b hb => ?_⟩
  rcases le_or_gt (offset + buf.length) (s.heap p).length with hin | hgrow
  · obtain ⟨s'', hr', hhashed⟩ := writeFileAt_inside hpf hk hin
      ((hw.layout.extentsApart (by omega)).inside p hp (by omega))
    obtain rfl : s' = s'' := Except.ok.inj (hr.symm.trans hr')
    rw [hhashed.frame.heap_file.1] at hb
    exact hhashed.verified hb
  · obtain ⟨ho, s₁, hg⟩ := writeFileAt_grew hw.mirror hw.layout hpf hk hp hoff hcount hgrow hroom hr
    refine hg.hashed.verified ?_
    have hheap : s'.heap = s₁.heap := hg.hashed.frame.heap_file.1
    rw [hheap, touched_eq_hashed, add_assoc] at hb
    exact hb.mono (hashFrom_le hg.start)

end Grew

/-! ## `read_file` and `write_file` -/

section ReadBack

variable {k : ℕ} {s s' : Filesys} {p : Ptr} {name : CString} {offset count : ℕ} {buf : List UInt8}

theorem ne_nil_of_lookup (ht : s.nList.type = .name) (hl : lookup name s = .ok (some p)) :
    name.bytes ≠ [] := by
  intro hnil
  have hv : ¬ validKey (nameKey name) s.nList s.fileDataLen := by
    rw [validKey_name ht]
    intro h
    apply h
    show name.bytes.take (nameLen - 1) = []
    rw [hnil, List.take_nil]
  unfold lookup arrGetByKey at hl
  rw [if_pos hv] at hl
  cases hl

theorem WellFormed.lookup_kept (hw : WellFormed s) (hs' : LiveOk s') (hk : Kept s s')
    (hl : lookup name s = .ok (some p)) : lookup name s' = .ok (some p) := by
  obtain ⟨hp, hname⟩ := hw.mirror.liveOk.lookup hl
  have hne := ne_nil_of_lookup hw.mirror.liveOk.names.type_eq hl
  refine ((hs'.nameIndex (hk.nameSorted hw.names)).lookup_eq_some hne).mpr ⟨?_, ?_⟩
  · rw [hk.live]
    exact hp
  · rw [hk.name]
    exact hname

/-- A read inside the file whose blocks verify returns the bytes. -/
theorem readFile_of_verified (hpf : Perfect k s) (hk : k ≤ 24) (hl : lookup name s = .ok (some p))
    (hin : offset + count ≤ (s.heap p).length)
    (hroom : (s.heap p).offset + offset + count ≤ s.file.length)
    (h31 : (s.heap p).offset + offset + count ≤ 2 ^ 31)
    (hv : ∀ b ∈ touched ((s.heap p).offset + offset) count, Verified k b s) :
    readFile name offset count s = .ok (0, slice s.file ((s.heap p).offset + offset) count) := by
  have h64 : toU64 ((offset : ℤ) + count) = offset + count := by
    exact_mod_cast toU64_of_lt (n := offset + count) (by omega)
  have haddr : toU64 (((s.heap p).offset : ℤ) + offset) = (s.heap p).offset + offset := by
    exact_mod_cast toU64_of_lt (n := (s.heap p).offset + offset) (by omega)
  have hrange : toI64 (((s.heap p).offset : ℤ) + offset) =
      (((s.heap p).offset + offset : ℕ) : ℤ) := by
    exact_mod_cast toI64_of_lt (n := (s.heap p).offset + offset) (by omega)
  obtain ⟨r, hr, -, hiff⟩ := verifyHashRange_spec hpf hk hroom fun _ => h31
  obtain rfl : r = 0 := hiff.mpr hv
  unfold readFile
  rw [hl]
  simp only [Run.ok_bind]
  rw [h64, if_neg (by omega), hrange, toI64_of_lt (show count < 2 ^ 63 by omega), hr]
  simp only [Run.ok_bind, ne_eq, not_true_eq_false, if_false]
  split_ifs with h0
  · rw [h0, slice_zero]
    rfl
  · rw [haddr, memRead_of hroom]
    rfl

/-- **Writing.**  A write that succeeds puts the buffer between the bytes before its range and
those behind it and leaves every other file its length and bytes; a read of the same range returns
the buffer. -/
theorem writeFile_contents (hw : WellFormed s) (hpf : Perfect k s) (hk : k ≤ 23) (hne : buf ≠ [])
    (hcount : buf.length < 2 ^ 63) (hr : writeFile name offset buf.length buf s = .ok (0, s')) :
    ∃ p ∈ s.live, (s.heap p).name = name.toFileName ∧ offset ≤ (s.heap p).length ∧
      Stored p ((bytesOf s p).take offset ++ buf ++ (bytesOf s p).drop (offset + buf.length)) s s' ∧
      readFile name offset buf.length s' = .ok (0, buf) := by
  rcases writeFile_post hr with ⟨h0, -⟩ | ⟨p, hl, ⟨h0, -⟩ | ⟨h0, -⟩ | ⟨-, hoff, hadm, hcase⟩⟩
  · cases h0
  · cases h0
  · cases h0
  have hpos := List.length_pos_iff.mpr hne
  obtain ⟨h0, -⟩ | ⟨-, hat⟩ := hcase
  · omega
  obtain ⟨hp, hname⟩ := hw.mirror.liveOk.lookup hl
  have hlen := hw.mirror.counted.length_lt p hp
  have hroom : s.used + (offset + buf.length : ℕ) ≤ s.fileDataLen + (s.heap p).length := by
    apply admitted_le hw.mirror hp (by omega)
    rw [Nat.cast_add, ← add_assoc]
    exact hadm
  obtain ⟨hstored, hx, hv⟩ := writeFileAt_stored hw hpf hk hp hoff hpos hcount hroom hat
  obtain ⟨hs', hkept⟩ := writeFileAt_liveOk hw.mirror.liveOk hp hat
  refine ⟨p, hp, hname, hoff, hstored, ?_⟩
  have hold := bytesOf_length (hw.layout.extentsApart (by
    have := hpf.fileDataLen_le31 hk
    omega)) hp
  have hsize : offset + buf.length ≤ (s'.heap p).length := by
    rw [hstored.size]
    unfold splice
    simp only [List.length_append, List.length_take, List.length_drop]
    omega
  have hin : (s'.heap p).offset + (s'.heap p).length ≤ s'.file.length :=
    hx.inside p (hkept.live ▸ hp) (by omega)
  have hfdl : s'.file.length ≤ 2 ^ 31 := (hpf.congr hkept.shape).fileDataLen_le31 hk
  rw [readFile_of_verified (hpf.congr hkept.shape) (by omega) (hw.lookup_kept hs' hkept hl) hsize
    (by omega) (by omega) hv]
  -- the range lies behind the bytes before it
  have hself : slice (bytesOf s' p) offset buf.length = buf := by
    rw [hstored.self]
    unfold slice splice
    rw [List.append_assoc, List.drop_append_of_le_length (by rw [List.length_take]; omega),
      List.drop_of_length_le (by rw [List.length_take]; omega), List.nil_append,
      List.take_left']
    rfl
  unfold bytesOf at hself
  rw [slice_slice _ hsize] at hself
  rw [hself]

end ReadBack

set_option maxRecDepth 20000 in
/-- A write over the last byte of `a` and on would reach `c`: `c` moves to the start, and `a` behind
it with the byte in front of the write. -/
theorem writeFile_contents_gap : ∃ s s', initFs gapsFile gapsDir (zeros 16) = .ok s ∧
    writeFile (.ofByte 97 (by decide)) 1 5 [7, 8, 9, 10, 11] s = .ok (0, s') ∧
    s'.file.take 8 = [3, 4, 1, 7, 8, 9, 10, 11] ∧
    ∃ p ∈ s.live, (s.heap p).name = (CString.ofByte 97 (by decide)).toFileName ∧
      1 ≤ (s.heap p).length ∧
      Stored p ((bytesOf s p).take 1 ++ [7, 8, 9, 10, 11] ++ (bytesOf s p).drop (1 + 5)) s s' ∧
      readFile (.ofByte 97 (by decide)) 1 5 s' = .ok (0, [7, 8, 9, 10, 11]) := by
  obtain ⟨s, hinit, ⟨h1, h2, h3⟩, hrun⟩ := Run.holds_iff.mp
    (show Run.Holds (initFs gapsFile gapsDir (zeros 16)) (fun s =>
      (s.file.length = 256 ∧ s.hash.length = 16 ∧ s.leafOffset = 0) ∧
      Run.Holds (writeFile (.ofByte 97 (by decide)) 1 5 [7, 8, 9, 10, 11] s) fun r =>
        r.1 = 0 ∧ r.2.file.take 8 = [3, 4, 1, 7, 8, 9, 10, 11]) by decide +kernel)
  obtain ⟨⟨r, s'⟩, hr, rfl, hbytes⟩ := Run.holds_iff.mp hrun
  exact ⟨s, s', hinit, hr, hbytes, writeFile_contents (k := 0)
    (gapsDir_wellFormed (by decide) hinit) ⟨h1, h2, h3⟩ (by decide) (by decide) (by decide) hr⟩

end Vfs
