import VirtualFileSystem.Directory
import VirtualFileSystem.Init

/-!
# The directory mirrors memory

`Counted`: the slots, `index_count` and `used` describe the live files.  `Mirror`: the entries of
`dir_table` do, too.  Every step that writes a field of a file in memory and in its entry keeps
`Mirror`, so every call does; the offsets in the directory are offsets of extents inside
`file_data` (`InRange`) because every call writes to the whole extent it hands out.
-/

namespace Vfs

open FlatImage

/-! ## Counters -/

/-- The sum of the lengths of the files. -/
def totalLength (h : Heap) (L : List Ptr) : ℕ := (L.map fun p => (h p).length).sum

section TotalLength

variable {h h' : Heap} {L : List Ptr} {p : Ptr}

theorem totalLength_cons : totalLength h (p :: L) = (h p).length + totalLength h L := rfl

theorem totalLength_congr (hh : ∀ q ∈ L, (h' q).length = (h q).length) :
    totalLength h' L = totalLength h L := by
  unfold totalLength
  rw [List.map_congr_left hh]

theorem totalLength_perm {L' : List Ptr} (hp : L.Perm L') : totalLength h L = totalLength h L' :=
  (hp.map _).sum_eq

theorem totalLength_erase (hp : p ∈ L) :
    (h p).length + totalLength h (L.erase p) = totalLength h L :=
  List.sum_map_erase (fun q => (h q).length) hp

/-- Changing the length of one file changes the sum by the difference. -/
theorem totalLength_set (hL : L.Nodup) (hp : p ∈ L)
    (hh : ∀ q ∈ L, q ≠ p → (h' q).length = (h q).length) :
    totalLength h' L + (h p).length = totalLength h L + (h' p).length := by
  have he : totalLength h' (L.erase p) = totalLength h (L.erase p) :=
    totalLength_congr fun q hq => hh q (List.mem_of_mem_erase hq) (hL.mem_erase_iff.mp hq).1
  rw [← totalLength_erase (h := h') hp, ← totalLength_erase (h := h) hp, he]
  omega

theorem length_le_totalLength (hp : p ∈ L) : (h p).length ≤ totalLength h L := by
  rw [← totalLength_erase (h := h) hp]
  exact Nat.le_add_right _ _

theorem totalLength_le {b : ℕ} (hb : ∀ q ∈ L, (h q).length ≤ b) :
    totalLength h L ≤ L.length * b := by
  have := List.sum_le_card_nsmul (L.map fun q => (h q).length) b (by
    intro x hx
    obtain ⟨q, hq, rfl⟩ := List.mem_map.mp hx
    exact hb q hq)
  simpa [totalLength] using this

end TotalLength

/-- The slots and the counters describe the live files. -/
structure Counted (s : Filesys) : Prop where
  indexLen_le : s.indexLen ≤ maxNumFiles
  index_length : s.index.length = s.indexLen
  slot : ∀ i < s.indexLen, (s.index[i]? = some 1 ∧ ∃ p ∈ s.live, (s.heap p).index = i) ∨
    (s.index[i]? = some 0 ∧ ∀ p ∈ s.live, (s.heap p).index ≠ i)
  count : s.indexCount = s.live.length
  live_le : s.live.length ≤ s.indexLen
  used : s.used = totalLength s.heap s.live
  length_lt : ∀ p ∈ s.live, (s.heap p).length < 2 ^ 32

section Counted

variable {s s' : Filesys} {p : Ptr}

theorem Counted.totalLength_le (hc : Counted s) : totalLength s.heap s.live ≤ 2 ^ 48 := by
  have h1 := Vfs.totalLength_le (h := s.heap) (L := s.live) (b := 2 ^ 32)
    fun q hq => (hc.length_lt q hq).le
  have h2 := hc.live_le.trans hc.indexLen_le
  unfold maxNumFiles at h2
  omega

theorem Counted.congr (hc : Counted s) (hlive : s'.live = s.live) (hlen : s'.indexLen = s.indexLen)
    (hindex : s'.index = s.index) (hcount : s'.indexCount = s.indexCount)
    (hused : s'.used = s.used)
    (hh : ∀ q ∈ s.live, (s'.heap q).length = (s.heap q).length ∧
      (s'.heap q).index = (s.heap q).index) : Counted s' where
  indexLen_le := by rw [hlen]; exact hc.indexLen_le
  index_length := by rw [hindex, hlen]; exact hc.index_length
  slot := by
    intro i hi
    rw [hindex, hlive]
    rw [hlen] at hi
    refine (hc.slot i hi).imp (fun h => ⟨h.1, ?_⟩) (fun h => ⟨h.1, ?_⟩)
    · obtain ⟨p, hp, hpi⟩ := h.2
      exact ⟨p, hp, (hh p hp).2.trans hpi⟩
    · intro p hp
      rw [(hh p hp).2]
      exact h.2 p hp
  count := by rw [hcount, hlive]; exact hc.count
  live_le := by rw [hlive, hlen]; exact hc.live_le
  used := by
    rw [hused, hlive, totalLength_congr fun q hq => (hh q hq).1]
    exact hc.used
  length_lt := by
    intro p hp
    rw [hlive] at hp
    rw [(hh p hp).1]
    exact hc.length_lt p hp

end Counted

/-! ## The invariant -/

/-- The arrays, the counters and the directory describe the live files. -/
structure Mirror (w : ℕ) (s : Filesys) : Prop where
  liveOk : LiveOk s
  counted : Counted s
  dir : DirInv w s.live s.heap s.dir s.indexLen

theorem Mirror.length_le_used {w : ℕ} {s : Filesys} {p : Ptr} (hm : Mirror w s)
    (hp : p ∈ s.live) : ((s.heap p).length : ℤ) ≤ s.used := by
  rw [hm.counted.used]
  exact_mod_cast length_le_totalLength hp

/-- Offsets are at most the sentinel, and extents lie inside `file_data`. -/
def InRange (s : Filesys) : Prop :=
  ∀ p ∈ s.live, (s.heap p).offset ≤ maxFileDataLen ∧
    (0 < (s.heap p).length → (s.heap p).offset + (s.heap p).length ≤ s.fileDataLen)

section Steps

variable {w : ℕ} {s s' : Filesys} {p : Ptr}

theorem Mirror.congr (hm : Mirror w s) (hl : LiveOk s') (hlive : s'.live = s.live)
    (hdir : s'.dir = s.dir) (hlen : s'.indexLen = s.indexLen) (hindex : s'.index = s.index)
    (hcount : s'.indexCount = s.indexCount) (hused : s'.used = s.used)
    (hh : ∀ q ∈ s.live, (s'.heap q).Same (s.heap q)) : Mirror w s' where
  liveOk := hl
  counted := hm.counted.congr hlive hlen hindex hcount hused
    fun q hq => ⟨(hh q hq).2.2.1, (hh q hq).2.2.2⟩
  dir := by
    rw [hlive, hdir, hlen]
    exact hm.dir.congr hh

/-- A new offset, in memory and in the directory entry. -/
theorem Mirror.setOffset (hw : w ≤ nameLen) (hm : Mirror w s) (hp : p ∈ s.live) (o : ℕ) :
    Mirror w { s with
      heap := s.heap.set p { s.heap p with offset := o }
      dir := splice s.dir (metaLen * (s.heap p).index + nameLen) (dirOffsetBytes o) } where
  liveOk := by
    have hpos := (offsetOnly_set s.heap p o).pos
    exact ⟨hm.liveOk.offsets.congr rfl rfl (hpos _) rfl, hm.liveOk.names.congr rfl rfl (hpos _) rfl,
      hm.liveOk.perm, hm.liveOk.fresh⟩
  counted := by
    have hoff := offsetOnly_set s.heap p o
    exact hm.counted.congr rfl rfl rfl rfl rfl fun q _ => ⟨hoff.length q, hoff.index q⟩
  dir := by
    have hin := hm.dir.bound p hp
    exact hm.dir.update hp rfl (by rw [length_dirOffsetBytes]; decide)
      ((hm.dir.entry p hp).setOffset hw (entry_length hm.dir.size hin) o)

theorem Mirror.file (hm : Mirror w s) (file : List UInt8) : Mirror w { s with file := file } :=
  hm.congr (hm.liveOk.file file) rfl rfl rfl rfl rfl rfl fun _ _ => FileT.Same.refl _

theorem HashFrame.mirror (hf : HashFrame s s') (hm : Mirror w s) : Mirror w s' := by
  refine hm.congr (hf.liveOk hm.liveOk) ?_ ?_ ?_ ?_ ?_ ?_ fun q _ => ?_ <;> rw [hf.eq]
  exact FileT.Same.refl _

theorem repackHelper_mirror {ho : ℤ} (hw : w ≤ nameLen) (hm : Mirror w s)
    (hr : repackHelper s = .ok (ho, s')) : Mirror w s' := by
  have hI : Mirror w s' ∧ s'.oList = s.oList := by
    refine repackHelper_induct (I := fun t => Mirror w t ∧ t.oList = s.oList) ⟨hm, rfl⟩ ?_ hr
    rintro s₁ p new s₂ ⟨hm₁, ho₁⟩ hp - hmove
    obtain ⟨file, rfl, -⟩ := repackMove_post hmove
    have hpl : p ∈ s₁.live := hm₁.liveOk.offsets.mem_live p (by rw [arr_offset, ho₁]; exact hp)
    have hbytes : dirOffsetBytes (toU32 new) = le32 (toU32 new) :=
      if_neg (toU32_lt new).not_ge
    have := (hm₁.setOffset hw hpl (toU32 new)).file file
    rw [hbytes] at this
    exact ⟨this, ho₁⟩
  exact hI.1

theorem TakenOut.mirror (ht : TakenOut p s s') (hm : Mirror w s) : Mirror w s' := by
  refine hm.congr (ht.liveOk hm.liveOk) ?_ ?_ ?_ ?_ ?_ ?_ fun q _ => ht.posOnly.same q <;>
    rw [ht.eq]

theorem Placed.mirror {o : ℕ} (h : Placed p o s s') (hw : w ≤ nameLen) (hm : Mirror w s)
    (hp : p ∈ s.live) : Mirror w s' := by
  refine (hm.setOffset hw hp o).congr (h.liveOk hm.liveOk) ?_ h.dir ?_ ?_ ?_ ?_
    fun q _ => h.posOnly.same q <;> rw [h.eq]

/-- A new length, in memory and in the directory entry, accounted for in `used`. -/
theorem Mirror.setLength (hw : w ≤ nameLen) (hm : Mirror w s) (hp : p ∈ s.live) {length : ℕ}
    (hlen : length < 2 ^ 32) :
    Mirror w (Vfs.setLength p length (s.heap p).length (splice s.dir
      (metaLen * (s.heap p).index + (nameLen + offsetLen)) (le32 (toU32 length))) s) := by
  have hin := hm.dir.bound p hp
  have hdir := metaLen_mul_le hm.dir.size hin
  have hsplice : (splice s.dir (metaLen * (s.heap p).index + (nameLen + offsetLen))
      (le32 (toU32 length))).length = s.dir.length := by
    refine length_splice ?_
    rw [length_le32]
    unfold metaLen nameLen offsetLen at *
    omega
  have hne : ∀ q, q ≠ p →
      (s.heap.set p { s.heap p with length := toU32 length }) q = s.heap q :=
    fun q hq => Heap.set_of_ne _ _ hq
  refine ⟨setLength_liveOk hm.liveOk _ hsplice, ?_, ?_⟩
  · have hc := hm.counted
    have hsum := @totalLength_set s.heap (s.heap.set p { s.heap p with length := toU32 length })
      s.live p hm.liveOk.nodup hp fun q _ hq => by rw [hne q hq]
    rw [Heap.set_self, toU32_of_lt hlen] at hsum
    have hidx : ∀ q, ((s.heap.set p { s.heap p with length := toU32 length }) q).index =
        (s.heap q).index := by
      intro q
      by_cases hq : q = p
      · subst hq; rw [Heap.set_self]
      · rw [hne q hq]
    refine ⟨hc.indexLen_le, hc.index_length, fun i hi => ?_, hc.count, hc.live_le, ?_,
      fun q hq => ?_⟩
    · show (_ ∧ ∃ q ∈ s.live, _) ∨ _
      simp only [Vfs.setLength, hidx]
      exact hc.slot i hi
    · have h48 := hc.totalLength_le
      show toI64 (s.used + (length - (s.heap p).length)) = _
      rw [hc.used]
      have hle : (s.heap p).length ≤ totalLength s.heap s.live := length_le_totalLength hp
      simp only [Vfs.setLength, toU32_of_lt hlen] at hsum ⊢
      rw [toI64_of_bounds (by omega) (by omega)]
      omega
    · by_cases hqp : q = p
      · subst hqp
        simp only [Vfs.setLength, Heap.set_self]
        exact toU32_lt _
      · simp only [Vfs.setLength]
        rw [hne q hqp]
        exact hc.length_lt q hq
  · exact hm.dir.update hp rfl (by rw [length_le32]; decide)
      ((hm.dir.entry p hp).setLength hw (entry_length hm.dir.size hin) (toU32_lt _))

end Steps

/-! ## Growing -/

section Grow

variable {w : ℕ} {s s' : Filesys} {p : Ptr} {length copy : ℕ} {ho : ℤ}

/-- Making room for one file keeps all lengths and moves the others to lower offsets only. -/
structure RoomMade (p : Ptr) (s s' : Filesys) : Prop where
  shape : Shape s s'
  live : s'.live = s.live
  length : ∀ q, (s'.heap q).length = (s.heap q).length
  offset_le : ∀ q, q ≠ p → (s'.heap q).offset ≤ (s.heap q).offset
  offset_lt : (s'.heap p).offset ≤ 2 ^ 48

theorem TakenOut.used (ht : TakenOut p s s') : s'.used = s.used := by rw [ht.eq]

theorem RepackFrame.used (hf : RepackFrame s s') : s'.used = s.used := by rw [hf.eq]

/-- Taking the file out, repacking the others and putting it back makes room. -/
theorem Placed.roomMade {s₁ s₂ s₃ : Filesys} {o : ℕ} (hpl : Placed p o s₃ s') (ht : TakenOut p s s₁)
    (hf : RepackFrame s₁ s₂) (hk : Kept s₂ s₃) (hheap : s₃.heap = s₂.heap) (ho : o ≤ 2 ^ 48) :
    RoomMade p s s' where
  shape := ((ht.kept.shape.trans hf.kept.shape).trans hk.shape).trans hpl.kept.shape
  live := ((hpl.kept.live.trans hk.live).trans hf.kept.live).trans ht.kept.live
  length q := by rw [hpl.length, hheap, hf.offsetOnly.length, ht.posOnly.length]
  offset_le q hq := by
    rw [(hpl.same_of_ne hq).2.1, hheap, ← ht.posOnly.offset]
    exact hf.offset_le q
  offset_lt := by
    rw [hpl.same_self.2.1]
    exact ho

theorem growNewFile_mirror (hw : w ≤ nameLen) (hm : Mirror w s) (hp : p ∈ s.live)
    (hr : growNewFile p length s = .ok (ho, s')) : Mirror w s' ∧ RoomMade p s s' := by
  obtain ⟨s₁, s₂, o, ht, h2, hpl⟩ := growNewFile_steps hm.liveOk hp hr
  have hm₁ := ht.mirror hm
  have h48 := hm.counted.totalLength_le
  obtain ⟨hm₂, hf, ho⟩ : Mirror w s₂ ∧ RepackFrame s₁ s₂ ∧ o ≤ 2 ^ 48 := by
    rcases h2 with ⟨-, rfl, rfl, -⟩ | ⟨hrep, hf, rfl, -⟩
    · exact ⟨hm₁, RepackFrame.refl _, by omega⟩
    · refine ⟨repackHelper_mirror hw hm₁ hrep, hf, ?_⟩
      rw [hf.used, ht.used, hm.counted.used, toU64_of_lt (by omega)]
      exact h48
  have hp₂ : p ∈ s₂.live := by rw [hf.kept.live, ht.kept.live]; exact hp
  exact ⟨hpl.mirror hw hm₂ hp₂, hpl.roomMade ht hf (Kept.refl s₂) rfl ho⟩

theorem relocateFile_mirror (hw : w ≤ nameLen) (hm : Mirror w s) (hp : p ∈ s.live)
    (hr : relocateFile p copy s = .ok (ho, s')) : Mirror w s' ∧ RoomMade p s s' := by
  obtain ⟨s₁, s₂, temp, file, -, ht, hrep, hf, hwr, hpl⟩ := relocateFile_steps hm.liveOk hp hr
  have hm₂ := (repackHelper_mirror hw (ht.mirror hm) hrep).file file
  have hp₂ : p ∈ s₂.live := by rw [hf.kept.live, ht.kept.live]; exact hp
  have hk := Kept.file (s := s₂) (memWrite_length hwr)
  refine ⟨hpl.mirror hw hm₂ hp₂, hpl.roomMade ht hf hk rfl ?_⟩
  have h48 := hm.counted.totalLength_le
  have hle := length_le_totalLength (h := s.heap) hp
  show toU64 (s₂.used - _) ≤ _
  rw [hf.used, ht.used, hm.counted.used, toU64_of_nonneg (by omega) (by omega)]
  omega

theorem makeRoom_mirror (hw : w ≤ nameLen) (hm : Mirror w s) (hin : InRange s) (hp : p ∈ s.live)
    (hr : makeRoom p length copy s = .ok (ho, s')) : Mirror w s' ∧ RoomMade p s s' := by
  rcases makeRoom_post hr with ⟨-, hr⟩ | ⟨-, -, hr⟩ | ⟨-, -, rfl, rfl⟩
  · exact growNewFile_mirror hw hm hp hr
  · exact relocateFile_mirror hw hm hp hr
  · refine ⟨hm, Shape.refl _, rfl, fun _ => rfl, fun _ _ => le_rfl, ?_⟩
    have := (hin p hp).1
    unfold maxFileDataLen at this
    omega

/-- What `resize_file_helper` leaves when the new length fits 32 bits: the other files have moved
down at most, and the file has the new length. -/
theorem resizeFileHelper_mirror (hw : w ≤ nameLen) (hm : Mirror w s) (hin : InRange s)
    (hp : p ∈ s.live) (hlen : length < 2 ^ 32)
    (hr : resizeFileHelper p length copy s = .ok (ho, s')) :
    Mirror w s' ∧ Shape s s' ∧ s'.live = s.live ∧
      (∀ q, q ≠ p → (s'.heap q).length = (s.heap q).length ∧
        (s'.heap q).offset ≤ (s.heap q).offset) ∧
      (s'.heap p).length = length ∧ (s'.heap p).offset ≤ 2 ^ 48 ∧
      (length ≤ (s.heap p).length → (s'.heap p).offset = (s.heap p).offset) := by
  have h32 := (hin p hp).1
  rcases resizeFileHelper_post hr with ⟨rfl, rfl, -⟩ | ⟨hne, s₁, h1, hb, rfl⟩
  · refine ⟨hm, Shape.refl _, rfl, fun _ _ => ⟨rfl, le_rfl⟩, rfl, ?_, fun _ => rfl⟩
    unfold maxFileDataLen at h32
    omega
  · obtain ⟨hm₁, hroom, hoff⟩ : Mirror w s₁ ∧ RoomMade p s s₁ ∧
        (length ≤ (s.heap p).length → (s₁.heap p).offset = (s.heap p).offset) := by
      rcases h1 with ⟨-, rfl, -⟩ | ⟨hgt, hr⟩
      · refine ⟨hm, ⟨Shape.refl _, rfl, fun _ => rfl, fun _ _ => le_rfl, ?_⟩, fun _ => rfl⟩
        unfold maxFileDataLen at h32
        omega
      · obtain ⟨h1, h2⟩ := makeRoom_mirror hw hm hin hp hr
        exact ⟨h1, h2, fun hle => by omega⟩
    have hp₁ : p ∈ s₁.live := by rw [hroom.live]; exact hp
    have hm₂ := hm₁.setLength hw hp₁ hlen
    rw [hroom.length p] at hm₂
    have hsplice : (splice s₁.dir (metaLen * (s₁.heap p).index + (nameLen + offsetLen))
        (le32 (toU32 length))).length = s₁.dir.length := length_splice hb
    refine ⟨hm₂, hroom.shape.trans (setLength_kept _ hsplice).shape, hroom.live, fun q hq => ?_,
      ?_, ?_, fun hle => ?_⟩
    · simp only [setLength]
      rw [Heap.set_of_ne _ _ hq]
      exact ⟨hroom.length q, hroom.offset_le q hq⟩
    · simp only [setLength, Heap.set_self]
      exact toU32_of_lt hlen
    · simp only [setLength, Heap.set_self]
      exact hroom.offset_lt
    · simp only [setLength, Heap.set_self]
      exact hoff hle

theorem inRange_of (hin : InRange s) (hlive : s'.live = s.live)
    (hfile : s'.file.length = s.file.length)
    (hother : ∀ q, q ≠ p → (s'.heap q).length = (s.heap q).length ∧
      (s'.heap q).offset ≤ (s.heap q).offset)
    (hself : (s'.heap p).offset ≤ maxFileDataLen ∧
      (0 < (s'.heap p).length → (s'.heap p).offset + (s'.heap p).length ≤ s'.fileDataLen)) :
    InRange s' := by
  intro q hq
  by_cases hqp : q = p
  · rw [hqp]
    exact hself
  · rw [hlive] at hq
    obtain ⟨h1, h2⟩ := hin q hq
    obtain ⟨h3, h4⟩ := hother q hqp
    refine ⟨h4.trans h1, fun h0 => ?_⟩
    rw [h3] at h0 ⊢
    have := h2 h0
    unfold Filesys.fileDataLen at *
    rw [hfile]
    omega

theorem InRange.congr (hin : InRange s) (hlive : s'.live = s.live) (hheap : s'.heap = s.heap)
    (hfile : s'.file.length = s.file.length) : InRange s' := by
  intro q hq
  unfold Filesys.fileDataLen
  rw [hheap, hfile]
  exact hin q (hlive ▸ hq)

theorem writeNullFile_mirror {o c : ℤ} (hm : Mirror w s) (hr : writeNullFile o c s = .ok s') :
    Mirror w s' ∧ s'.heap = s.heap ∧ s'.used = s.used := by
  rcases writeNullFile_post hr with ⟨-, rfl⟩ | ⟨-, -, -, -, rfl⟩
  · exact ⟨hm, rfl, rfl⟩
  · exact ⟨hm.file _, rfl, rfl⟩

theorem HashFrame.inRange (hf : HashFrame s s') (hin : InRange s) : InRange s' :=
  hin.congr hf.kept.live hf.heap_file.1 hf.kept.shape.file

theorem resizeFileAt_mirror (hw : w ≤ nameLen) (hm : Mirror w s) (hin : InRange s)
    (hp : p ∈ s.live) (hfdl : s.fileDataLen ≤ 2 ^ 32) (hlen : length < 2 ^ 32)
    (hr : resizeFileAt p length s = .ok s') : Mirror w s' ∧ InRange s' := by
  obtain ⟨ho, s₁, h1, h2⟩ := resizeFileAt_post hr
  obtain ⟨hm₁, hsh, hlive, hother, hl, hoff, hsame⟩ :=
    resizeFileHelper_mirror hw hm hin hp hlen h1
  obtain ⟨hp1, hp2⟩ := hin p hp
  have hold := hm.counted.length_lt p hp
  rcases h2 with ⟨hle, rfl⟩ | ⟨hgt, s₂, h2, h3⟩
  · refine ⟨hm₁, inRange_of (p := p) hin hlive hsh.file hother ?_⟩
    rw [hsame hle, hl]
    refine ⟨hp1, fun h0 => ?_⟩
    have := hp2 (by omega)
    unfold Filesys.fileDataLen at *
    rw [hsh.file]
    omega
  · -- the null bytes reach to the end of the new extent
    have hb : (s₁.heap p).offset + length ≤ s₁.file.length := by
      rcases writeNullFile_post h2 with ⟨hc, -⟩ | ⟨-, -, -, hb, -⟩
      · rw [toI64_of_bounds (by omega) (by omega)] at hc
        omega
      · rw [toI64_of_bounds (by omega) (by omega), toI64_of_bounds (by omega) (by omega)] at hb
        omega
    obtain ⟨hm₂, hheap, -⟩ := writeNullFile_mirror hm₁ h2
    have hk := (writeNullFile_liveOk hm₁.liveOk h2).2
    have hin₁ : InRange s₁ := by
      refine inRange_of (p := p) hin hlive hsh.file hother ?_
      rw [hl]
      have := hsh.file
      unfold Filesys.fileDataLen maxFileDataLen at *
      exact ⟨by omega, fun _ => hb⟩
    have hin₂ := hin₁.congr hk.live hheap hk.shape.file
    have hframe := hashEither_frame h3
    exact ⟨hframe.mirror hm₂, hframe.inRange hin₂⟩

theorem writeFileAt_mirror {offset count : ℕ} {buf : List UInt8} (hw : w ≤ nameLen)
    (hm : Mirror w s) (hin : InRange s) (hp : p ∈ s.live) (hfdl : s.fileDataLen ≤ 2 ^ 32)
    (hfit : offset + count ≤ s.fileDataLen → offset + count < 2 ^ 32)
    (hr : writeFileAt p offset count buf s = .ok s') : Mirror w s' ∧ InRange s' := by
  obtain ⟨ho, s₁, h1, hcount, hb, h2⟩ := writeFileAt_post hr
  have hlen := length_splice_take buf hb
  obtain ⟨hm₁, hin₁⟩ : Mirror w s₁ ∧ InRange s₁ := by
    rcases h1 with ⟨-, -, rfl⟩ | ⟨hgt, h1⟩
    · exact ⟨hm, hin⟩
    -- the bytes written lie in the mapping, so the new length fits its field
    have hfile := (resizeFileHelper_liveOk hm.liveOk hp h1).2.shape.file
    have hsum : toU64 (offset + count) = offset + count := by
      unfold Filesys.fileDataLen at hfdl
      exact_mod_cast toU64_of_lt (n := offset + count) (by omega)
    rw [hsum] at h1 hgt
    obtain ⟨hm₁, hsh, hlive, hother, hl, hoff, -⟩ :=
      resizeFileHelper_mirror hw hm hin hp (hfit (by unfold Filesys.fileDataLen; omega)) h1
    refine ⟨hm₁, inRange_of (p := p) hin hlive hsh.file hother ?_⟩
    rw [hl]
    unfold Filesys.fileDataLen maxFileDataLen at *
    exact ⟨by omega, fun _ => by omega⟩
  have hin₂ : InRange { s₁ with
      file := splice s₁.file ((s₁.heap p).offset + offset) (buf.take count) } :=
    hin₁.congr rfl rfl hlen
  have hframe := hashEither_frame h2
  exact ⟨hframe.mirror (hm₁.file _), hframe.inRange hin₂⟩

theorem RepackFrame.inRange (hf : RepackFrame s s') (hin : InRange s) : InRange s' := by
  intro q hq
  rw [hf.kept.live] at hq
  obtain ⟨h1, h2⟩ := hin q hq
  have hle := hf.offset_le q
  refine ⟨hle.trans h1, fun h0 => ?_⟩
  rw [hf.offsetOnly.length] at h0 ⊢
  have := h2 h0
  unfold Filesys.fileDataLen at *
  rw [hf.file_length]
  omega

theorem repack_mirror (hw : w ≤ nameLen) (hm : Mirror w s) (hin : InRange s)
    (hr : repack s = .ok s') : Mirror w s' ∧ InRange s' := by
  obtain ⟨ho, s₁, h1, hframe⟩ := repack_frame hr
  have hm₁ := repackHelper_mirror hw hm h1
  have hin₁ := (repackHelper_frame h1).inRange hin
  exact ⟨hframe.mirror hm₁, hframe.inRange hin₁⟩

end Grow

end Vfs
