import VirtualFileSystem.Compact

/-!
# Contents of files that grow

A file that grows is left alone, put at the start of `file_data`, or put behind the others after a
repack.  In each case it gets room, its first bytes come with it, and the other files keep theirs.
-/

namespace Vfs

open FlatImage Extents

/-! ## Room for a file -/

/-- `p` can take `length` bytes at its offset, and the other files are apart and in range. -/
structure RoomAt (p : Ptr) (length : ℕ) (s : Filesys) : Prop where
  room : (s.heap p).offset + length ≤ s.fileDataLen
  clear : ∀ q ∈ s.live, q ≠ p → 0 < (s.heap q).length →
    (s.heap q).offset + (s.heap q).length ≤ (s.heap p).offset ∨
      (s.heap p).offset + length ≤ (s.heap q).offset
  apart : ∀ q ∈ s.live, ∀ r ∈ s.live, q ≠ p → r ≠ p → q ≠ r →
    (ext s.heap q).Apart (ext s.heap r)
  inside : ∀ q ∈ s.live, q ≠ p → 0 < (s.heap q).length →
    (s.heap q).offset + (s.heap q).length ≤ s.fileDataLen

/-- The other files keep their bytes, and the first `copy` bytes of `p` are at its offset. -/
structure Copied (p : Ptr) (copy : ℕ) (s s' : Filesys) : Prop where
  others : ∀ q ∈ s.live, q ≠ p → bytesOf s' q = bytesOf s q
  self : slice s'.file (s'.heap p).offset copy = slice s.file (s.heap p).offset copy

/-- A repack of the others leaves room for each, and in place no file with bytes reaches over an
empty `p`. -/
def GrowClear (p : Ptr) (length : ℕ) (s : Filesys) : Prop :=
  (Relocates p length s → Roomy 0 (exts s.heap (others p s))) ∧
  (¬ Relocates p length s → (s.heap p).offset < maxFileDataLen → (s.heap p).length = 0 →
    ∀ r ∈ others p s, 0 < (s.heap r).length → (s.heap r).offset ≤ (s.heap p).offset →
      (s.heap r).offset + (s.heap r).length ≤ (s.heap p).offset)

section Room

variable {w : ℕ} {s s₁ s₂ s' : Filesys} {p q : Ptr} {length copy o : ℕ} {ho : ℤ}

theorem RoomAt.congr (h : RoomAt p length s) (hlive : s'.live = s.live)
    (hfile : s'.file.length = s.file.length) (hoff : (s'.heap p).offset = (s.heap p).offset)
    (hh : ∀ q ∈ s.live, q ≠ p → ext s'.heap q = ext s.heap q) : RoomAt p length s' := by
  have hstart : ∀ q ∈ s.live, q ≠ p → (s'.heap q).offset = (s.heap q).offset :=
    fun q hq hqp => congrArg Extent.start (hh q hq hqp)
  have hlen : ∀ q ∈ s.live, q ≠ p → (s'.heap q).length = (s.heap q).length :=
    fun q hq hqp => congrArg Extent.len (hh q hq hqp)
  refine ⟨?_, fun q hq hqp => ?_, fun q hq r hr hqp hrp => ?_, fun q hq hqp => ?_⟩
  · rw [hoff]
    exact h.room.trans hfile.ge
  · rw [hlive] at hq
    rw [hstart q hq hqp, hlen q hq hqp, hoff]
    exact h.clear q hq hqp
  · rw [hlive] at hq hr
    rw [hh q hq hqp, hh r hr hrp]
    exact h.apart q hq r hr hqp hrp
  · rw [hlive] at hq
    rw [hstart q hq hqp, hlen q hq hqp]
    exact fun hpos => (h.inside q hq hqp hpos).trans hfile.ge

/-- A file placed where there is room has it. -/
theorem PlaceFree.roomAt (hf : PlaceFree p o length s) (hpl : Placed p o s s') :
    RoomAt p length s' := by
  have hoff : (s'.heap p).offset = o := hpl.same_self.2.1
  have hmem : ∀ q ∈ s.live, q ≠ p → q ∈ s.oList.list := fun q hq hqp =>
    (List.mem_cons.mp (hf.perm.mem_iff.mpr hq)).resolve_left hqp
  have hin : RoomAt p length { s with heap := s.heap.set p { s.heap p with offset := o } } := by
    have hne : ∀ q, q ≠ p → s.heap.set p { s.heap p with offset := o } q = s.heap q := fun q hq =>
      Heap.set_of_ne _ _ hq
    refine ⟨?_, fun q hq hqp hpos => ?_, fun q hq r hr hqp hrp hqr => ?_, fun q hq hqp hpos => ?_⟩
    · simp only [Heap.set_self]
      exact hf.room
    · simp only [Heap.set_self, hne q hqp] at hpos ⊢
      exact hf.free q (hmem q hq hqp) hpos
    · unfold ext
      simp only [hne q hqp, hne r hrp]
      exact hf.lined.apart (hmem q hq hqp) (hmem r hr hrp) hqr
    · simp only [hne q hqp] at hpos ⊢
      rcases hf.range q hq hqp with ⟨-, h0⟩ | h
      · omega
      · exact h
  refine hin.congr hpl.kept.live hpl.kept.shape.file ?_ fun q _ hqp => ?_
  · simp only [Heap.set_self]
    exact hoff
  · have := hpl.same q
    exact congrArg₂ Extent.mk this.2.1 this.2.2.1

theorem bytesOf_congr (hfile : s'.file = s.file) (hoff : (s'.heap q).offset = (s.heap q).offset)
    (hlen : (s'.heap q).length = (s.heap q).length) : bytesOf s' q = bytesOf s q := by
  unfold bytesOf
  rw [hfile, hoff, hlen]

theorem bytesOf_empty (h0 : (s.heap q).length = 0) : bytesOf s q = [] := by
  unfold bytesOf
  rw [h0, slice_zero]

theorem Placed.bytesOf (hpl : Placed p o s s') (hqp : q ≠ p) :
    Vfs.bytesOf s' q = Vfs.bytesOf s q :=
  bytesOf_congr hpl.file.1 (hpl.same_of_ne hqp).2.1 (hpl.same_of_ne hqp).2.2.1

theorem TakenOut.bytesOf (ht : TakenOut p s s') (q : Ptr) :
    Vfs.bytesOf s' q = Vfs.bytesOf s q :=
  bytesOf_congr ht.file.1 (ht.posOnly.offset q) (ht.posOnly.length q)

theorem TakenOut.mem (ht : TakenOut p s s₁) (hL : Layout s) (hq : q ∈ s.live) (hqp : q ≠ p) :
    q ∈ s₁.oList.list := by
  rw [ht.list]
  exact (List.mem_erase_of_ne hqp).mpr (hL.mem hq)

theorem TakenOut.roomy (ht : TakenOut p s s₁) (h : Roomy 0 (Vfs.exts s.heap (others p s))) :
    Roomy 0 (Vfs.exts s₁.heap s₁.oList.list) := by
  rw [ht.exts]
  exact h

/-- Behind the repacked others there is room, whether or not there was anything to move. -/
theorem TakenOut.repacked (ht : TakenOut p s s₁) (hm : Mirror w s) (hL : Layout s)
    (hfdl : s.fileDataLen ≤ 2 ^ 32) (hp : p ∈ s.live)
    (hroom : s.used + length ≤ s.fileDataLen + (s.heap p).length)
    (hroomy : Roomy 0 (Vfs.exts s.heap (others p s))) (hrep : repackHelper s₁ = .ok (ho, s₂)) :
    PlaceFree p (totalLength s.heap (others p s)) length s₂ ∧
      ∀ q ∈ s₁.oList.list, 0 < (s₂.heap q).length →
        (s₂.heap q).offset + (s₂.heap q).length ≤ totalLength s.heap (others p s) := by
  have htotal := hL.total_erase hm hp
  have hle := hL.used_le hm hfdl
  have hf := repackHelper_frame hrep
  have hsum : totalLength s₁.heap s₁.oList.list = totalLength s.heap (others p s) := ht.total
  rcases le_or_gt s.used 0 with hu | hu
  · -- every file is empty
    have hempty := ht.empty_of_used hL hm (by rw [ht.used]; exact hu)
    have hs₂ : s₂ = s₁ := by
      rcases repackHelper_slid ht.arrOk.nodup
        (ht.searchable hm hL hfdl).length_lt hrep with ⟨-, h, -⟩ | ⟨h, -⟩
      · exact h
      · rw [ht.used] at h
        omega
    subst hs₂
    refine ⟨ht.placeFree hL hp (fun q hq hpos => ?_) ?_, fun q hq hpos => ?_⟩
    · have := hempty q (ht.list ▸ hq)
      rw [ht.posOnly.length] at this
      omega
    · unfold others at *
      omega
    · exact absurd (hempty q hq) hpos.ne'
  · have hpk := ht.packedBy hm hL hfdl hp hle hroomy hu hrep
    refine ⟨hpk.placeFree hf ht hL hp hsum ?_, fun q hq hpos => ?_⟩
    · unfold others at *
      omega
    · rw [← hsum]
      exact hpk.stop_le q hq hpos

/-- Growing an empty file at the sentinel offset. -/
theorem growNewFile_roomAt (hm : Mirror w s) (hL : Layout s) (hfdl : s.fileDataLen ≤ 2 ^ 32)
    (hp : p ∈ s.live) (hge : (s.heap p).offset ≥ maxFileDataLen)
    (hcopy : copy ≤ (s.heap p).length)
    (hroom : s.used + length ≤ s.fileDataLen + (s.heap p).length)
    (hclear : GrowClear p length s) (hr : growNewFile p length s = .ok (ho, s')) :
    RoomAt p length s' ∧ Copied p copy s s' := by
  have hzero : (s.heap p).length = 0 := hL.sentinelEmpty hfdl p (hL.mem hp) hge
  have hself : ∀ t : Filesys, slice t.file (t.heap p).offset copy =
      slice s.file (s.heap p).offset copy := fun t => by
    rw [show copy = 0 by omega, slice_zero, slice_zero]
  obtain ⟨s₁, s₂, o, ht, hcase, hpl⟩ := growNewFile_steps hm.liveOk hp hr
  have hused := hL.total_eq hm
  have htotal := hL.total_erase hm hp
  have hsub := List.erase_sublist (a := p) (l := s.oList.list)
  rcases hcase with ⟨-, rfl, rfl, hnext⟩ | ⟨hrep, hf, ho', q, hq, hlt⟩
  · -- the file takes the start of `file_data`
    rw [findNext_takenOut ht] at hnext
    refine ⟨(ht.placeFree hL hp (fun r hr hpos => ?_) (by omega)).roomAt hpl, ?_, hself s'⟩
    · cases hfn : findNextNonzero s.heap (s.oList.list.erase p) with
      | none =>
        have h0 := findNextNonzero_eq_none (hL.lined.sublist hsub).sorted
          (fun q hq => hL.sentinelEmpty hfdl q (hsub.subset hq)) hfn
        exact absurd (h0 r hr) hpos.ne'
      | some q =>
        have h1 := hnext q hfn
        have h2 := findNextNonzero_le (hL.lined.sublist hsub) hfn r hr hpos
        rw [ht.posOnly.offset] at h1
        right
        omega
    · intro q hq hqp
      rw [hpl.bytesOf hqp, ht.bytesOf q]
  · -- the others are repacked in front of it
    rw [findNext_takenOut ht] at hq
    rw [ht.posOnly.offset] at hlt
    have hrel : Relocates p length s := by
      unfold Relocates others
      rw [if_pos hge, hq]
      exact hlt
    have hroomy := hclear.1 hrel
    have hle := hL.used_le hm hfdl
    have hplace := (ht.repacked hm hL hfdl hp hroom hroomy hrep).1
    have ho : o = totalLength s.heap (others p s) := by
      unfold others
      rw [ho', hf.used, ht.used, toU64_of_nonneg (by omega) (by omega)]
      omega
    rw [← ho] at hplace
    refine ⟨hplace.roomAt hpl, ?_, hself s'⟩
    intro q hq hqp
    rw [hpl.bytesOf hqp, repackHelper_bytesOf (ht.searchable hm hL hfdl).arranged (ht.roomy hroomy)
      hrep (ht.mem hL hq hqp), ht.bytesOf q]

/-- Relocating a file behind the others. -/
theorem relocateFile_roomAt (hm : Mirror w s) (hL : Layout s) (hfdl : s.fileDataLen ≤ 2 ^ 32)
    (hp : p ∈ s.live) (hroom : s.used + length ≤ s.fileDataLen + (s.heap p).length)
    (hroomy : Roomy 0 (exts s.heap (others p s)))
    (hr : relocateFile p copy s = .ok (ho, s')) : RoomAt p length s' ∧ Copied p copy s s' := by
  obtain ⟨s₁, s₂, temp, file, htemp, ht, hrep, hf, hwrite, hpl⟩ :=
    relocateFile_steps hm.liveOk hp hr
  have htotal := hL.total_erase hm hp
  have hle := hL.used_le hm hfdl
  have hlen : file.length = s₂.file.length := memWrite_length hwrite
  have hstart : s₂.used - (s.heap p).length = totalLength s.heap (others p s) := by
    rw [hf.used, ht.used]
    exact htotal.symm
  have harr := (ht.searchable hm hL hfdl).arranged
  obtain ⟨hplace, hstop⟩ := ht.repacked hm hL hfdl hp hroom hroomy hrep
  rw [hstart, toU64_of_lt (by unfold others; omega)] at hpl
  rw [hstart] at hwrite
  obtain ⟨hin, rfl⟩ := memWrite_eq_ok.mp hwrite
  obtain ⟨hread, rfl⟩ := memRead_eq_ok.mp htemp
  have hcopied : (slice s.file (s.heap p).offset copy).length = copy :=
    length_slice_of_le (by omega)
  have hin' : totalLength s.heap (others p s) + (slice s.file (s.heap p).offset copy).length ≤
      s₂.file.length := by exact_mod_cast hin.2
  refine ⟨(hplace.file hlen).roomAt hpl, fun q hq hqp => ?_, ?_⟩
  · -- the copied bytes lie behind every other file
    have hqm := ht.mem hL hq hqp
    rw [hpl.bytesOf hqp, ← ht.bytesOf q, ← repackHelper_bytesOf harr (ht.roomy hroomy) hrep hqm]
    rcases Nat.eq_zero_or_pos (s₂.heap q).length with h0 | h0
    · rw [bytesOf_empty h0]
      exact bytesOf_empty h0
    · exact slice_splice_of_disjoint hin' (Or.inl (hstop q hqm h0))
  · rw [hpl.file.1, hpl.same_self.2.1]
    have := slice_splice_self hin'
    rwa [hcopied] at this

/-- Growing in place. -/
theorem inPlace_roomAt (hm : Mirror w s) (hL : Layout s) (hfdl : s.fileDataLen ≤ 2 ^ 32)
    (hp : p ∈ s.live) (hlt : (s.heap p).offset < maxFileDataLen)
    (hreq : ¬ repackRequired p length s) (hclear : GrowClear p length s) :
    RoomAt p length s := by
  have hrelocates : ¬ Relocates p length s := by
    unfold Relocates
    rwa [if_neg hlt.not_ge]
  obtain ⟨A, B, hl⟩ := List.append_of_mem (hL.mem hp)
  obtain ⟨hroom, hbehind⟩ := inPlace_room hm hL hfdl hl hlt hreq
  have hrel := hL.lined.rel
  rw [hl] at hrel
  refine ⟨hroom, fun q hq hqp hpos => ?_, fun q hq r hr _ _ hqr => ?_, fun q hq _ hpos => ?_⟩
  · have hqm := hL.mem hq
    rw [hl, List.mem_append] at hqm
    rcases hqm with hqA | hqB
    · left
      have hbefore := (List.pairwise_append.mp hrel).2.2 q hqA p List.mem_cons_self
      rcases Nat.eq_zero_or_pos (s.heap p).length with h0 | h0
      · exact hclear.2 hrelocates hlt h0 q ((List.mem_erase_of_ne hqp).mpr (hL.mem hq)) hpos
          hbefore.1
      · exact hbefore.2 hpos h0
    · right
      exact hbehind q ((List.mem_cons.mp hqB).resolve_left hqp) hpos
  · exact hL.lined.apart (hL.mem hq) (hL.mem hr) hqr
  · rcases hL.range q hq with ⟨-, h0⟩ | h
    · omega
    · exact h

/-- Whatever way room is made, there is room and the bytes are kept. -/
theorem makeRoom_roomAt (hm : Mirror w s) (hL : Layout s) (hfdl : s.fileDataLen ≤ 2 ^ 32)
    (hp : p ∈ s.live) (hroom : s.used + length ≤ s.fileDataLen + (s.heap p).length)
    (hcopy : copy ≤ (s.heap p).length) (hclear : GrowClear p length s)
    (hr : makeRoom p length copy s = .ok (ho, s')) :
    RoomAt p length s' ∧ Copied p copy s s' := by
  rcases makeRoom_post hr with ⟨hge, hr⟩ | ⟨hlt, hreq, hr⟩ | ⟨hlt, hreq, -, rfl⟩
  · exact growNewFile_roomAt hm hL hfdl hp hge hcopy hroom hclear hr
  · have hrel : Relocates p length s := by
      unfold Relocates
      rwa [if_neg hlt.not_ge]
    exact relocateFile_roomAt hm hL hfdl hp hroom (hclear.1 hrel) hr
  · exact ⟨inPlace_roomAt hm hL hfdl hp hlt hreq hclear, fun _ _ _ => rfl, rfl⟩

end Room

/-! ## Stored bytes -/

/-- `p` holds `bytes`, and every other file keeps its length and its bytes. -/
structure Stored (p : Ptr) (bytes : List UInt8) (s s' : Filesys) : Prop where
  live : s'.live = s.live
  name : ∀ q, (s'.heap q).name = (s.heap q).name
  size : (s'.heap p).length = bytes.length
  self : bytesOf s' p = bytes
  length : ∀ q ∈ s.live, q ≠ p → (s'.heap q).length = (s.heap q).length
  others : ∀ q ∈ s.live, q ≠ p → bytesOf s' q = bytesOf s q

section Grow

variable {w : ℕ} {s s₁ s' : Filesys} {p : Ptr} {length copy a : ℕ} {ho : ℤ} {bs : List UInt8}

/-- Empty files at the sentinel offset are in nobody's way. -/
theorem WellFormed.growClear (hw : WellFormed s) (ha : Addressable s) (hp : p ∈ s.live)
    (length : ℕ) : GrowClear p length s := by
  constructor
  · intro _
    exact roomy_of_ranked _ _
      (List.pairwise_map.mpr ((hw.ranked ha).sublist List.erase_sublist))
  · intro _ hlt h0
    have := hw.sentinel p hp h0
    omega

/-- A file that may grow is clear of the others. -/
theorem GrowSafe.growClear (h : GrowSafe p length s) : GrowClear p length s := by
  simp only [GrowSafe] at h
  by_cases hge : (s.heap p).offset ≥ maxFileDataLen
  · rw [if_pos hge] at h
    refine ⟨fun hrel => ?_, fun _ hlt => absurd hlt hge.not_gt⟩
    unfold Relocates others at hrel
    rw [if_pos hge] at hrel
    cases hf : findNextNonzero s.heap (s.oList.list.erase p) with
    | none =>
      rw [hf] at hrel
      exact hrel.elim
    | some q =>
      rw [hf] at h
      exact h.2.1
  · rw [if_neg hge] at h
    have hrel : Relocates p length s ↔ repackRequired p length s := by
      unfold Relocates
      rw [if_neg hge]
    refine ⟨fun hr => ?_, fun hr _ h0 => ?_⟩
    · rw [if_pos (hrel.mp hr)] at h
      exact h.1
    · rw [if_neg fun h' => hr (hrel.mpr h')] at h
      exact h h0

theorem Layout.roomAt (hL : Layout s) (hfdl : s.fileDataLen ≤ 2 ^ 32) (hp : p ∈ s.live)
    (hpos : 0 < (s.heap p).length) (hle : length ≤ (s.heap p).length) : RoomAt p length s := by
  have hx := hL.extentsApart hfdl
  have hin := hx.inside p hp hpos
  refine ⟨by omega, fun q hq hqp h0 => ?_, fun q hq r hr _ _ hqr => ?_,
    fun q hq _ => hx.inside q hq⟩
  · have := hx.apart q hq p hp hqp h0 hpos
    omega
  · exact hx.apart q hq r hr hqr

theorem RoomAt.extentsApart (h : RoomAt p length s) (hlen : (s.heap p).length = length) :
    ExtentsApart s := by
  refine ⟨fun q hq h0 => ?_, fun q hq r hr hqr h0 h1 => ?_⟩
  · by_cases hqp : q = p
    · subst hqp
      rw [hlen]
      exact h.room
    · exact h.inside q hq hqp h0
  · by_cases hqp : q = p
    · subst hqp
      rw [hlen]
      exact (h.clear r hr (Ne.symm hqr) h1).symm
    · by_cases hrp : r = p
      · subst hrp
        rw [hlen]
        exact h.clear q hq hqp h0
      · exact h.apart q hq r hr hqp hrp hqr h0 h1

/-- What writing into the room of `p` leaves. -/
theorem RoomAt.write (h : RoomAt p length s) (hin : a + bs.length ≤ length)
    (hheap : s'.heap = s.heap) (hfile : s'.file = splice s.file ((s.heap p).offset + a) bs) :
    (∀ q ∈ s.live, q ≠ p → bytesOf s' q = bytesOf s q) ∧
      slice s'.file (s'.heap p).offset length =
        splice (slice s.file (s.heap p).offset length) a bs := by
  have hroom : (s.heap p).offset + length ≤ s.file.length := h.room
  have hle : (s.heap p).offset + a + bs.length ≤ s.file.length := by omega
  constructor
  · intro q hq hqp
    rcases Nat.eq_zero_or_pos (s.heap q).length with h0 | h0
    · rw [bytesOf_empty h0, bytesOf_empty (by rw [hheap]; exact h0)]
    · have := h.clear q hq hqp h0
      unfold bytesOf
      rw [hfile, hheap]
      exact slice_splice_of_disjoint hle (by omega)
  · rw [hfile, hheap]
    have := slice_splice_inside hle (Nat.le_add_right (s.heap p).offset a) (n := length) (by omega)
      hroom
    rwa [Nat.add_sub_cancel_left] at this

/-- Writing behind the bytes that came along. -/
theorem RoomAt.append (h : RoomAt p length s₁) (hc : Copied p copy s s₁)
    (hin : copy + bs.length = length) (hheap : s'.heap = s₁.heap)
    (hfile : s'.file = splice s₁.file ((s₁.heap p).offset + copy) bs) :
    slice s'.file (s'.heap p).offset length = slice s.file (s.heap p).offset copy ++ bs := by
  have hroom : (s₁.heap p).offset + length ≤ s₁.file.length := h.room
  have hlen : (slice s₁.file (s₁.heap p).offset length).length = copy + bs.length := by
    rw [length_slice_of_le hroom, hin]
  rw [(h.write hin.le hheap hfile).2]
  unfold splice
  rw [take_slice, Nat.min_eq_left (by omega), hc.self, ← hlen, List.drop_length, List.append_nil]

theorem setLength_self (hlen : length < 2 ^ 32) (old : ℕ) (dir : List UInt8) (s : Filesys) :
    (setLength p length old dir s).heap p = { s.heap p with length := length } := by
  show s.heap.set p { s.heap p with length := toU32 length } p = _
  rw [Heap.set_self, toU32_of_lt hlen]

theorem setLength_of_ne {q : Ptr} (hqp : q ≠ p) (old : ℕ) (dir : List UInt8) (s : Filesys) :
    (setLength p length old dir s).heap q = s.heap q := Heap.set_of_ne _ _ hqp

/-- `resize_file_helper` on a file that grows. -/
theorem resizeFileHelper_roomAt (hw : w ≤ nameLen) (hm : Mirror w s) (hL : Layout s)
    (hfdl : s.fileDataLen ≤ 2 ^ 32) (hp : p ∈ s.live) (hlen : length < 2 ^ 32)
    (hgrow : (s.heap p).length < length)
    (hroom : s.used + length ≤ s.fileDataLen + (s.heap p).length)
    (hcopy : copy ≤ (s.heap p).length) (hclear : GrowClear p length s)
    (hr : resizeFileHelper p length copy s = .ok (ho, s₁)) :
    RoomAt p length s₁ ∧ Copied p copy s s₁ ∧ (s₁.heap p).length = length ∧
      ∀ q, q ≠ p → (s₁.heap q).length = (s.heap q).length := by
  obtain ⟨-, -, -, hother, hl, -⟩ := resizeFileHelper_mirror hw hm (hL.inRange hfdl) hp hlen hr
  rcases resizeFileHelper_post hr with ⟨he, -⟩ | ⟨-, s₀, ⟨hlt, -⟩ | ⟨-, hmade⟩, -, rfl⟩
  · omega
  · omega
  obtain ⟨hat, hcopied⟩ := makeRoom_roomAt hm hL hfdl hp hroom hcopy hclear hmade
  have hlive := (makeRoom_liveOk hm.liveOk hp hmade).2.live
  refine ⟨hat.congr rfl rfl ?_ fun q _ hqp => ?_, ⟨fun q hq hqp => ?_, ?_⟩, hl,
    fun q hqp => (hother q hqp).1⟩
  · rw [setLength_self hlen]
  · unfold ext
    rw [setLength_of_ne hqp]
  · rw [← hcopied.others q hq hqp]
    unfold bytesOf
    rw [setLength_of_ne hqp]
    rfl
  · rw [setLength_self hlen]
    exact hcopied.self

/-! ## `resize_file` -/

theorem take_bytesOf (hle : length ≤ (s.heap p).length) :
    (bytesOf s p).take length = slice s.file (s.heap p).offset length := by
  unfold bytesOf
  rw [take_slice, Nat.min_eq_left hle]

theorem bytesOf_length (hx : ExtentsApart s) (hp : p ∈ s.live) :
    (bytesOf s p).length = (s.heap p).length := by
  rcases Nat.eq_zero_or_pos (s.heap p).length with h0 | h0
  · rw [bytesOf_empty h0, h0]
    rfl
  · exact length_slice_of_le (hx.inside p hp h0)

theorem stored_nothing (h : (bytesOf s p).length = (s.heap p).length) :
    Stored p (bytesOf s p) s s :=
  ⟨rfl, fun _ => rfl, h.symm, rfl, fun _ _ _ => rfl, fun _ _ _ => rfl⟩

/-- A file that shrinks keeps the front of its bytes. -/
theorem shrink_stored (hL : Layout s) (hfdl : s.fileDataLen ≤ 2 ^ 32) (hp : p ∈ s.live)
    (hlen : length < 2 ^ 32) (hlt : length < (s.heap p).length) {dir : List UInt8} {old : ℕ}
    (hdir : dir.length = s.dir.length) :
    Stored p ((bytesOf s p).take length) s (setLength p length old dir s) ∧
      ExtentsApart (setLength p length old dir s) := by
  have hkept : Kept s (setLength p length old dir s) := setLength_kept old hdir
  have hself := @setLength_self p length hlen old dir s
  have hin : (s.heap p).offset + (s.heap p).length ≤ s.file.length :=
    (hL.extentsApart hfdl).inside p hp (by omega)
  have hat : RoomAt p length (setLength p length old dir s) := by
    refine (hL.roomAt hfdl hp (by omega) hlt.le).congr rfl rfl ?_ fun q _ hqp => ?_
    · rw [hself]
    · unfold ext
      rw [setLength_of_ne hqp]
  have hbytes := take_bytesOf hlt.le
  refine ⟨⟨hkept.live, hkept.name, ?_, ?_, fun q _ hqp => ?_, fun q _ hqp => ?_⟩,
    hat.extentsApart (by rw [hself])⟩
  · rw [hself, hbytes, length_slice_of_le (by omega)]
  · unfold bytesOf at hbytes ⊢
    rw [hself, hbytes]
    rfl
  · rw [setLength_of_ne hqp]
  · unfold bytesOf
    rw [setLength_of_ne hqp]
    rfl

theorem writeNullFile_splice {b c : ℕ} (hb : b < 2 ^ 63) (hc : 0 < c) (hc' : c < 2 ^ 63)
    (hr : writeNullFile (toI64 b) (toI64 c) s = .ok s') :
    s' = { s with file := splice s.file b (zeros c) } := by
  rw [toI64_of_lt hb, toI64_of_lt hc'] at hr
  rcases writeNullFile_post hr with ⟨h0, -⟩ | ⟨-, -, -, -, h⟩
  · omega
  · exact h

/-- What a growing file holds once `bs` stands behind the `copy` bytes it kept. -/
theorem stored_append {s₂ : Filesys} (hx : ExtentsApart s) (hp : p ∈ s.live)
    (hcopy : copy ≤ (s.heap p).length) (hin : copy + bs.length = length) (hkept : Kept s s')
    (hat : RoomAt p length s₁) (hcopied : Copied p copy s s₁) (hl : (s₁.heap p).length = length)
    (hother : ∀ q, q ≠ p → (s₁.heap q).length = (s.heap q).length) (hlive : s₁.live = s.live)
    (hs₂ : s₂ = { s₁ with file := splice s₁.file ((s₁.heap p).offset + copy) bs })
    (hf : HashFrame s₂ s') :
    Stored p ((bytesOf s p).take copy ++ bs) s s' ∧ ExtentsApart s' := by
  subst hs₂
  obtain ⟨hheap, hfile⟩ := hf.heap_file
  have hbytes := take_bytesOf hcopy
  have hold : ((bytesOf s p).take copy).length = copy := by
    rw [List.length_take, bytesOf_length hx hp, Nat.min_eq_left hcopy]
  have hroom : (s₁.heap p).offset + length ≤ s₁.file.length := hat.room
  have hfile₁ : s'.file.length = s₁.file.length := by
    rw [hfile]
    exact length_splice (by omega)
  have hkept₁ : RoomAt p length s' := by
    refine hat.congr (hkept.live.trans hlive.symm) hfile₁ (by rw [hheap]) fun q _ _ => ?_
    unfold ext
    rw [hheap]
  refine ⟨⟨hkept.live, hkept.name, ?_, ?_, fun q hq hqp => ?_, fun q hq hqp => ?_⟩,
    hkept₁.extentsApart (by rw [hheap]; exact hl)⟩
  · rw [hheap, List.length_append, hold, hin]
    exact hl
  · rw [hbytes, ← hat.append hcopied hin hheap hfile]
    unfold bytesOf
    rw [hheap]
    exact congrArg _ hl
  · rw [hheap]
    exact hother q hqp
  · rw [(hat.write hin.le hheap hfile).1 q (hlive ▸ hq) hqp]
    exact hcopied.others q hq hqp

/-- A file that is given another length keeps the bytes that fit, and null bytes follow them. -/
theorem resizeFileAt_stored (hw : w ≤ nameLen) (hm : Mirror w s) (hL : Layout s)
    (hfdl : s.fileDataLen ≤ 2 ^ 32) (hp : p ∈ s.live) (hlen : length < 2 ^ 32)
    (hne : length ≠ (s.heap p).length)
    (hroom : s.used + length ≤ s.fileDataLen + (s.heap p).length)
    (hclear : (s.heap p).length < length → GrowClear p length s)
    (hr : resizeFileAt p length s = .ok s') :
    Stored p ((bytesOf s p).take length ++ zeros (length - (s.heap p).length)) s s' ∧
      ExtentsApart s' := by
  have hkept := (resizeFileAt_liveOk hm.liveOk hp hr).2
  obtain ⟨ho, s₁, h1, ⟨hle, rfl⟩ | ⟨hlt, s₂, h2, h3⟩⟩ := resizeFileAt_post hr
  · rcases resizeFileHelper_post h1 with ⟨he, -⟩ | ⟨-, s₀, ⟨hlt, rfl, -⟩ | ⟨hlt, -⟩, hdir, rfl⟩
    · exact absurd he hne
    · have hz : length - (s₀.heap p).length = 0 := by omega
      rw [hz, show zeros 0 = [] from rfl, List.append_nil]
      exact shrink_stored hL hfdl hp hlen hlt (length_splice hdir)
    · omega
  · obtain ⟨hat, hcopied, hl, hother⟩ := resizeFileHelper_roomAt hw hm hL hfdl hp hlen hlt
      hroom le_rfl (hclear hlt) h1
    obtain ⟨hs₁, hk₁⟩ := resizeFileHelper_liveOk hm.liveOk hp h1
    have hroom₁ : (s₁.heap p).offset + length ≤ s₁.file.length := hat.room
    have hfile₁ : s₁.file.length ≤ 2 ^ 32 := by
      rw [hk₁.shape.file]
      exact hfdl
    have hnull : s₂ = { s₁ with
        file := splice s₁.file ((s₁.heap p).offset + (s.heap p).length)
          (zeros (length - (s.heap p).length)) } := by
      apply writeNullFile_splice (by omega) (by omega) (by omega)
      push_cast [Nat.cast_sub hlt.le]
      exact h2
    have hframe : HashFrame s₂ s' := hashEither_frame h3
    have htake : (bytesOf s p).take length = (bytesOf s p).take (s.heap p).length := by
      unfold bytesOf
      rw [take_slice, take_slice, Nat.min_self, Nat.min_eq_right hlt.le]
    rw [htake]
    exact stored_append (hL.extentsApart hfdl) hp le_rfl (by rw [length_zeros]; omega) hkept
      hat hcopied hl hother hk₁.live hnull hframe

/-- **Resizing.**  A call that succeeds cuts the file or extends it with null bytes, leaves every
other file its name, length and bytes, and the extents apart and inside `file_data`. -/
theorem resizeFile_contents {name : CString} (hw : WellFormed s) (hfdl : s.fileDataLen ≤ 2 ^ 31)
    (hlen : length < 2 ^ 32) (hr : resizeFile name length s = .ok (0, s')) :
    ∃ p ∈ s.live, (s.heap p).name = name.toFileName ∧
      Stored p ((bytesOf s p).take length ++ zeros (length - (s.heap p).length)) s s' ∧
      ExtentsApart s' := by
  rcases resizeFile_post hr with ⟨h0, -⟩ | ⟨p, hl, ⟨h0, -⟩ | ⟨-, hadm, hcase⟩⟩
  · cases h0
  · cases h0
  obtain ⟨hp, hname⟩ := hw.mirror.liveOk.lookup hl
  refine ⟨p, hp, hname, ?_⟩
  rcases hcase with ⟨rfl, rfl⟩ | ⟨hne, hat⟩
  · have hx := hw.layout.extentsApart (show s'.fileDataLen ≤ 2 ^ 32 by omega)
    have hlen : (bytesOf s' p).length = (s'.heap p).length := bytesOf_length hx hp
    refine ⟨?_, hx⟩
    rw [Nat.sub_self, show zeros 0 = [] from rfl, List.append_nil, List.take_of_length_le hlen.le]
    exact stored_nothing hlen
  · have hroom := admitted_le hw.mirror hp (by omega) hadm
    exact resizeFileAt_stored (Nat.sub_le _ _) hw.mirror hw.layout (by omega) hp hlen hne hroom
      (fun _ => hw.growClear (hw.addressable (by omega)) hp length) hat

end Grow

set_option maxRecDepth 20000 in
/-- The empty file of `gapDir` grows past the gap, and the other file moves in front of it. -/
theorem resizeFile_contents_gap : ∃ s s', initFs (zeros 256) gapDir (zeros 16) = .ok s ∧
    resizeFile (.ofByte 98 (by decide)) 10 s = .ok (0, s') ∧
    ∃ p ∈ s.live, (s.heap p).name = (CString.ofByte 98 (by decide)).toFileName ∧
      Stored p ((bytesOf s p).take 10 ++ zeros (10 - (s.heap p).length)) s s' ∧
      ExtentsApart s' := by
  obtain ⟨s, hinit, hrun⟩ := Run.holds_iff.mp
    (show Run.Holds (initFs (zeros 256) gapDir (zeros 16)) (fun s => s.fileDataLen ≤ 2 ^ 31 ∧
      Run.Holds (resizeFile (.ofByte 98 (by decide)) 10 s) fun r => r.1 = 0) by decide +kernel)
  obtain ⟨hfdl, hrun⟩ := hrun
  obtain ⟨⟨r, s'⟩, hr, rfl⟩ := Run.holds_iff.mp hrun
  exact ⟨s, s', hinit, hr, resizeFile_contents (gapDir_wellFormed hinit) hfdl (by norm_num) hr⟩

end Vfs
