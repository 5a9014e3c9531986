import VirtualFileSystem.Filesystem
import VirtualFileSystem.Order

/-!
# What each step changes

One lemma per step of the calls: a completed step is an update of named fields, with the facts
about the new values.  The proofs about calls use these lemmas and never unfold the steps.
-/

namespace Vfs

open FlatImage

/-! ## Array updates -/

section SetArr

variable (t : ArrType) (a : Arr) (h : Heap) (s : Filesys)

@[simp] theorem setArr_heap : (s.setArr t a h).heap = h := by cases t <;> rfl
@[simp] theorem setArr_arr : (s.setArr t a h).arr t = a := by cases t <;> rfl
@[simp] theorem setArr_next : (s.setArr t a h).next = s.next := by cases t <;> rfl
@[simp] theorem setArr_live : (s.setArr t a h).live = s.live := by cases t <;> rfl
@[simp] theorem setArr_file : (s.setArr t a h).file = s.file := by cases t <;> rfl
@[simp] theorem setArr_dir : (s.setArr t a h).dir = s.dir := by cases t <;> rfl
@[simp] theorem setArr_hash : (s.setArr t a h).hash = s.hash := by cases t <;> rfl
@[simp] theorem setArr_used : (s.setArr t a h).used = s.used := by cases t <;> rfl
@[simp] theorem setArr_indexLen : (s.setArr t a h).indexLen = s.indexLen := by cases t <;> rfl
@[simp] theorem setArr_indexCount : (s.setArr t a h).indexCount = s.indexCount := by
  cases t <;> rfl
@[simp] theorem setArr_index : (s.setArr t a h).index = s.index := by cases t <;> rfl
@[simp] theorem setArr_treeLen : (s.setArr t a h).treeLen = s.treeLen := by cases t <;> rfl
@[simp] theorem setArr_leafOffset : (s.setArr t a h).leafOffset = s.leafOffset := by
  cases t <;> rfl
@[simp] theorem setArr_self : s.setArr t (s.arr t) s.heap = s := by cases t <;> rfl

@[simp] theorem arr_offset : s.arr .offset = s.oList := rfl
@[simp] theorem arr_name : s.arr .name = s.nList := rfl
@[simp] theorem setArr_offset_nList : (s.setArr .offset a h).nList = s.nList := rfl
@[simp] theorem setArr_offset_oList : (s.setArr .offset a h).oList = a := rfl
@[simp] theorem setArr_name_oList : (s.setArr .name a h).oList = s.oList := rfl
@[simp] theorem setArr_name_nList : (s.setArr .name a h).nList = a := rfl

theorem setArr_arr_of_ne {t' : ArrType} (ht : t' ≠ t) : (s.setArr t a h).arr t' = s.arr t' := by
  cases t <;> cases t' <;> first | rfl | exact absurd rfl ht

end SetArr

/-- An array of the filesystem with correct back-pointers. -/
structure ArrOk (t : ArrType) (s : Filesys) : Prop where
  type_eq : (s.arr t).type = t
  idxOk : IdxOk t s.heap (s.arr t).list
  mem_live : ∀ p ∈ (s.arr t).list, p ∈ s.live
  out : ∀ p ∈ s.live, p ∉ (s.arr t).list → (s.heap p).pos t = -1
  capacity : (s.arr t).capacity = s.indexLen

section ArrOk

variable {t : ArrType} {s s' : Filesys} {p : Ptr}

/-- `ArrOk` depends on the array, the live files and their positions only. -/
theorem ArrOk.congr (hs : ArrOk t s) (ha : s'.arr t = s.arr t) (hl : s'.live = s.live)
    (hp : ∀ p, (s'.heap p).pos t = (s.heap p).pos t) (hi : s'.indexLen = s.indexLen) :
    ArrOk t s' where
  type_eq := by rw [ha, hs.type_eq]
  idxOk := by rw [ha]; exact hs.idxOk.congr_pos fun p _ => hp p
  mem_live := by rw [ha, hl]; exact hs.mem_live
  out := by
    intro p hpl hpn
    rw [hp]
    exact hs.out p (hl ▸ hpl) (ha ▸ hpn)
  capacity := by rw [ha, hi, hs.capacity]

/-- Freeing a file that is not in the array. -/
theorem ArrOk.freed (hs : ArrOk t s) (hnd : s.live.Nodup) (hp : p ∉ (s.arr t).list) :
    ArrOk t (freeFile p s) where
  type_eq := hs.type_eq
  idxOk := hs.idxOk
  mem_live := by
    intro q hq
    exact hnd.mem_erase_iff.mpr ⟨fun he => hp (he ▸ hq), hs.mem_live q hq⟩
  out := fun q hq hqn => hs.out q (List.mem_of_mem_erase hq) hqn
  capacity := hs.capacity

theorem ArrOk.nodup (hs : ArrOk t s) : (s.arr t).list.Nodup := hs.idxOk.nodup

theorem ArrOk.length_le (hs : ArrOk t s) : (s.arr t).list.length ≤ s.live.length :=
  (hs.nodup.subperm hs.mem_live).length_le

/-- A live file that is not in the array leaves room for itself. -/
theorem ArrOk.length_lt (hs : ArrOk t s) (hp : p ∈ s.live) (hn : p ∉ (s.arr t).list) :
    (s.arr t).list.length < s.live.length := by
  have hsub : (p :: (s.arr t).list).Subperm s.live := by
    apply (List.nodup_cons.mpr ⟨hn, hs.nodup⟩).subperm
    intro q hq
    rcases List.mem_cons.mp hq with rfl | hq
    · exact hp
    · exact hs.mem_live q hq
  have := hsub.length_le
  rwa [List.length_cons] at this

/-- `sortedInsert` at the position the search returns. -/
theorem sortedInsert_of {i : ℕ} (hs : ArrOk t s) (hp : p ∉ (s.arr t).list)
    (hcap : (s.arr t).list.length < (s.arr t).capacity) (hi : i ≤ (s.arr t).list.length)
    (hget : arrGetIndex (s.heap p) (s.arr t) s.heap true = .ok (i : ℤ)) :
    ∃ arr h, sortedInsert t p s = .ok (s.setArr t arr h) ∧
      Inserted i p (s.arr t) s.heap arr h := by
  obtain ⟨arr, h, hr, hins⟩ := arrInsert_spec hi hcap
    (show IdxOk (s.arr t).type s.heap _ by rw [hs.type_eq]; exact hs.idxOk) hp
  refine ⟨arr, h, ?_, hins⟩
  unfold sortedInsert arrSortedInsert
  rw [Run.assert_of (show (s.arr t).size < (s.arr t).capacity from hcap), hget]
  simp only [Run.ok_bind, if_neg (show ¬ ((i : ℤ) < 0) by omega), hr, Run.pure_eq]

/-- A completed `sortedInsert` inserted the file, or changed nothing. -/
theorem sortedInsert_post (hs : ArrOk t s) (hp : p ∉ (s.arr t).list)
    (hr : sortedInsert t p s = .ok s') :
    (s.arr t).list.length < (s.arr t).capacity ∧
    ((s' = s ∧ arrGetIndex (s.heap p) (s.arr t) s.heap true = .ok (-1)) ∨
      ∃ i arr h, s' = s.setArr t arr h ∧ Inserted i p (s.arr t) s.heap arr h ∧
        arrGetIndex (s.heap p) (s.arr t) s.heap true = .ok (i : ℤ)) := by
  have hr' := hr
  unfold sortedInsert arrSortedInsert at hr'
  obtain ⟨⟨r, arr, h⟩, hr', he⟩ := Run.bind_eq_ok.mp hr'
  obtain ⟨_, hcap, hr'⟩ := Run.bind_eq_ok.mp hr'
  have hcap : (s.arr t).list.length < (s.arr t).capacity := Run.assert_eq_ok.mp hcap
  obtain ⟨idx, hget, hr'⟩ := Run.bind_eq_ok.mp hr'
  refine ⟨hcap, ?_⟩
  obtain ⟨r', hget', hb⟩ := @arrGetIndex_total (s.heap p) (s.arr t) s.heap true
  obtain rfl : idx = r' := by
    have := hget.symm.trans hget'
    exact Except.ok.inj this
  rcases hb with rfl | ⟨h0, hle, -⟩
  · left
    simp only [Int.reduceNeg, Int.neg_neg_iff_pos, zero_lt_one, if_true, Run.pure_eq,
      Except.ok.injEq, Prod.mk.injEq] at hr'
    obtain ⟨-, rfl, rfl⟩ := hr'
    simp only [setArr_self, Run.pure_eq, Except.ok.injEq] at he
    exact ⟨he.symm, hget⟩
  · right
    obtain ⟨i, rfl⟩ := Int.eq_ofNat_of_zero_le h0
    obtain ⟨arr', h', hr2, hins⟩ := sortedInsert_of hs hp hcap (by omega) hget
    exact ⟨i, arr', h', Except.ok.inj (hr.symm.trans hr2), hins, hget⟩

theorem sortedInsert_total (hs : ArrOk t s) (hp : p ∉ (s.arr t).list)
    (hcap : (s.arr t).list.length < (s.arr t).capacity) : ∃ s', sortedInsert t p s = .ok s' := by
  obtain ⟨r, hget, hb⟩ := @arrGetIndex_total (s.heap p) (s.arr t) s.heap true
  rcases hb with rfl | ⟨h0, hle, -⟩
  · refine ⟨s, ?_⟩
    unfold sortedInsert arrSortedInsert
    rw [Run.assert_of (show (s.arr t).size < (s.arr t).capacity from hcap), hget]
    simp
  · obtain ⟨i, rfl⟩ := Int.eq_ofNat_of_zero_le h0
    obtain ⟨arr, h, hr, -⟩ := sortedInsert_of hs hp hcap (by omega) hget
    exact ⟨_, hr⟩

/-- The insertion of a live file keeps both arrays' back-pointers. -/
theorem ArrOk.inserted (hs : ArrOk t s) {i : ℕ} {arr : Arr} {h : Heap}
    (hins : Inserted i p (s.arr t) s.heap arr h) (hp : p ∈ s.live) :
    ArrOk t (s.setArr t arr h) where
  type_eq := by rw [setArr_arr, hins.arr_eq, hs.type_eq]
  idxOk := by
    have := hins.idxOk
    rw [hs.type_eq] at this
    rwa [setArr_arr, setArr_heap]
  mem_live := by
    intro q hq
    rw [setArr_arr, hins.arr_eq] at hq
    rw [setArr_live]
    rcases mem_insertAt.mp hq with rfl | hq
    · exact hp
    · exact hs.mem_live q hq
  out := by
    intro q hq hqn
    rw [setArr_arr] at hqn
    rw [setArr_live] at hq
    rw [setArr_heap, hins.outside q hqn]
    refine hs.out q hq fun hmem => hqn ?_
    rw [hins.arr_eq]
    exact mem_insertAt.mpr (Or.inr hmem)
  capacity := by rw [setArr_arr, setArr_indexLen, hins.arr_eq]; exact hs.capacity

theorem ArrOk.of_posOnly (hs : ArrOk t s) {t' : ArrType} (ht : t ≠ t') {a : Arr} {h : Heap}
    (hpos : PosOnly t' s.heap h) : ArrOk t (s.setArr t' a h) :=
  hs.congr (setArr_arr_of_ne t' a h s ht) (setArr_live ..)
    (fun p => by rw [setArr_heap]; exact hpos.pos_of_ne ht p) (setArr_indexLen ..)

/-- A file whose stored position is used to remove it is in the array. -/
theorem removeAt_post (hs : ArrOk t s) (hp : p ∈ s.live)
    (hr : removeAt t ((s.heap p).pos t) s = .ok s') :
    ∃ arr h, s' = s.setArr t arr h ∧ Removed p (s.arr t) s.heap arr h := by
  have hmem : p ∈ (s.arr t).list := by
    by_contra hcon
    rw [hs.out p hp hcon] at hr
    unfold removeAt arrRemove at hr
    obtain ⟨_, hr, -⟩ := Run.bind_eq_ok.mp hr
    obtain ⟨_, hr, -⟩ := Run.bind_eq_ok.mp hr
    have := Run.assert_eq_ok.mp hr
    omega
  obtain ⟨i, hpos, hi⟩ := hs.idxOk.getElem?_pos hmem
  obtain ⟨arr, h, hr2, hrem⟩ := arrRemove_spec (h := s.heap)
    (by rw [hs.type_eq]; exact hs.idxOk) hi
  refine ⟨arr, h, ?_, hrem⟩
  unfold removeAt at hr
  rw [hpos, hr2] at hr
  simp only [Run.ok_bind, Run.pure_eq, Except.ok.injEq] at hr
  exact hr.symm

theorem removeAt_of (hs : ArrOk t s) (hp : p ∈ (s.arr t).list) :
    ∃ arr h, removeAt t ((s.heap p).pos t) s = .ok (s.setArr t arr h) ∧
      Removed p (s.arr t) s.heap arr h := by
  obtain ⟨i, hpos, hi⟩ := hs.idxOk.getElem?_pos hp
  obtain ⟨arr, h, hr2, hrem⟩ := arrRemove_spec (h := s.heap)
    (by rw [hs.type_eq]; exact hs.idxOk) hi
  refine ⟨arr, h, ?_, hrem⟩
  unfold removeAt
  rw [hpos, hr2]
  rfl

theorem ArrOk.removed (hs : ArrOk t s) {arr : Arr} {h : Heap}
    (hrem : Removed p (s.arr t) s.heap arr h) : ArrOk t (s.setArr t arr h) where
  type_eq := by rw [setArr_arr, hrem.arr_eq, hs.type_eq]
  idxOk := by
    have := hrem.idxOk
    rw [hs.type_eq] at this
    rwa [setArr_arr, setArr_heap]
  mem_live := by
    intro q hq
    rw [setArr_arr, hrem.arr_eq] at hq
    rw [setArr_live]
    exact hs.mem_live q (List.mem_of_mem_erase hq)
  out := by
    intro q hq hqn
    rw [setArr_arr, hrem.arr_eq] at hqn
    rw [setArr_live] at hq
    rw [setArr_heap]
    by_cases hqp : q = p
    · subst hqp
      have := hrem.pos_eq
      rwa [hs.type_eq] at this
    · have hqm : q ∉ (s.arr t).list := fun hm => hqn ((List.mem_erase_of_ne hqp).mpr hm)
      rw [hrem.outside q hqm]
      exact hs.out q hq hqm
  capacity := by rw [setArr_arr, setArr_indexLen, hrem.arr_eq]; exact hs.capacity

end ArrOk

/-! ## Writes to the directory -/

/-- The offset field `update_dir_offset` writes. -/
def dirOffsetBytes (o : ℕ) : List UInt8 :=
  if o ≥ maxFileDataLen then List.replicate 4 0 else le32 o

@[simp] theorem length_dirOffsetBytes (o : ℕ) : (dirOffsetBytes o).length = 4 := by
  unfold dirOffsetBytes; split_ifs <;> simp

theorem writeDir_eq_ok {f : FileT} {o : ℕ} {bs : List UInt8} {s s' : Filesys} :
    writeDir f o bs s = .ok s' ↔ metaLen * f.index + o + bs.length ≤ s.dir.length ∧
      s' = { s with dir := splice s.dir (metaLen * f.index + o) bs } := by
  unfold writeDir
  rw [Run.bind_eq_ok]
  simp only [memWrite_eq_ok, Run.pure_eq, Except.ok.injEq, Int.toNat_natCast]
  constructor
  · rintro ⟨_, ⟨⟨_, h2⟩, rfl⟩, rfl⟩
    exact ⟨by omega, rfl⟩
  · rintro ⟨h, rfl⟩
    exact ⟨_, ⟨⟨by omega, by omega⟩, rfl⟩, rfl⟩

theorem updateDirOffset_eq (f : FileT) (s : Filesys) :
    updateDirOffset f s = writeDir f nameLen (dirOffsetBytes f.offset) s := by
  unfold updateDirOffset dirOffsetBytes; split_ifs <;> rfl

/-! ## Repacking -/

/-- A completed `repack_move`. -/
theorem repackMove_post {p : Ptr} {new : ℕ} {s s' : Filesys} (hr : repackMove p new s = .ok s') :
    ∃ file, s' = { s with
        file := file
        heap := s.heap.set p { s.heap p with offset := toU32 new }
        dir := splice s.dir (metaLen * (s.heap p).index + nameLen) (le32 (toU32 new)) } ∧
      metaLen * (s.heap p).index + nameLen + 4 ≤ s.dir.length ∧
      ((s.heap p).length = 0 → file = s.file) ∧
      (0 < (s.heap p).length →
        ((s.heap p).offset + (s.heap p).length ≤ s.file.length ∧
          toU32 new + (s.heap p).length ≤ s.file.length) ∧
        file = splice s.file (toU32 new) (slice s.file (s.heap p).offset (s.heap p).length)) := by
  unfold repackMove at hr
  obtain ⟨file, hf, hr⟩ := Run.bind_eq_ok.mp hr
  have hlt : toU32 new < maxFileDataLen := toU32_lt _
  rw [updateDirOffset_eq, writeDir_eq_ok] at hr
  obtain ⟨hb, rfl⟩ := hr
  simp only [updateFileOffset, Heap.set_self, dirOffsetBytes, if_neg hlt.not_ge,
    length_le32] at hb ⊢
  refine ⟨file, rfl, hb, ?_, ?_⟩
  · intro h0
    rw [if_neg (by omega)] at hf
    exact (Except.ok.inj hf).symm
  · intro h0
    rw [if_pos h0] at hf
    obtain ⟨data, hd, hw⟩ := Run.bind_eq_ok.mp hf
    obtain ⟨hd1, rfl⟩ := memRead_eq_ok.mp hd
    obtain ⟨hw1, rfl⟩ := memWrite_eq_ok.mp hw
    have hlen := length_slice_of_le (l := s.file) (a := (s.heap p).offset)
      (n := (s.heap p).length) (by omega)
    simp only [Int.toNat_natCast] at hw1
    exact ⟨⟨by omega, by omega⟩, by simp only [Int.toNat_natCast]⟩

/-- What holds before a repack and survives every move to a lower offset holds after it. -/
theorem repackLoop_induct {I : Filesys → Prop} :
    ∀ (ps : List Ptr) (prev : Ptr) (ho ho' : ℤ) (s s' : Filesys), I s →
      (∀ s₁ p (new : ℕ) s₂, I s₁ → p ∈ ps → toU32 new < (s₁.heap p).offset →
        repackMove p new s₁ = .ok s₂ → I s₂) →
      repackLoop prev ps ho s = .ok (ho', s') → I s' := by
  intro ps
  induction ps with
  | nil =>
    intro prev ho ho' s s' hI _ hr
    simp only [repackLoop, Run.pure_eq, Except.ok.injEq, Prod.mk.injEq] at hr
    exact hr.2 ▸ hI
  | cons p ps ih =>
    intro prev ho ho' s s' hI hstep hr
    have hstep' : ∀ s₁ q (new : ℕ) s₂, I s₁ → q ∈ ps → toU32 new < (s₁.heap q).offset →
        repackMove q new s₁ = .ok s₂ → I s₂ :=
      fun s₁ q new s₂ h1 h2 => hstep s₁ q new s₂ h1 (List.mem_cons_of_mem _ h2)
    simp only [repackLoop] at hr
    split_ifs at hr with h1 h2
    · simp only [Run.pure_eq, Except.ok.injEq, Prod.mk.injEq] at hr
      exact hr.2 ▸ hI
    · obtain ⟨s₁, hm, hr⟩ := Run.bind_eq_ok.mp hr
      refine ih p _ ho' s₁ s' (hstep s _ _ s₁ hI (List.mem_cons_self) ?_ hm) hstep' hr
      refine lt_of_le_of_lt ?_ h2
      unfold toU32
      omega
    · exact ih p ho ho' s s' hI hstep' hr

theorem repackHelper_induct {I : Filesys → Prop} {s s' : Filesys} {ho : ℤ} (hI : I s)
    (hstep : ∀ s₁ p (new : ℕ) s₂, I s₁ → p ∈ s.oList.list → toU32 new < (s₁.heap p).offset →
      repackMove p new s₁ = .ok s₂ → I s₂)
    (hr : repackHelper s = .ok (ho, s')) : I s' := by
  unfold repackHelper at hr
  cases hl : s.oList.list with
  | nil =>
    rw [hl] at hr
    simp only [Run.pure_eq, Except.ok.injEq, Prod.mk.injEq] at hr
    exact hr.2 ▸ hI
  | cons p ps =>
    rw [hl] at hr hstep
    simp only at hr
    have htail : ∀ s₁ q (new : ℕ) s₂, I s₁ → q ∈ ps → toU32 new < (s₁.heap q).offset →
        repackMove q new s₁ = .ok s₂ → I s₂ :=
      fun s₁ q new s₂ h1 h2 => hstep s₁ q new s₂ h1 (List.mem_cons_of_mem _ h2)
    split_ifs at hr with h1 h2
    · simp only [Run.pure_eq, Except.ok.injEq, Prod.mk.injEq] at hr
      exact hr.2 ▸ hI
    · obtain ⟨s₁, hm, hr⟩ := Run.bind_eq_ok.mp hr
      have hI₁ := hstep s p 0 s₁ hI (List.mem_cons_self) (by simpa [toU32] using h2) hm
      exact repackLoop_induct ps p _ ho s₁ s' hI₁ htail hr
    · exact repackLoop_induct ps p _ ho s s' hI htail hr

/-- The heaps differ in nothing but offsets. -/
def OffsetOnly (h h' : Heap) : Prop := ∀ q, h' q = { h q with offset := (h' q).offset }

section OffsetOnly

variable {h h' h'' : Heap}

theorem OffsetOnly.refl (h : Heap) : OffsetOnly h h := fun _ => rfl

theorem OffsetOnly.trans (h1 : OffsetOnly h h') (h2 : OffsetOnly h' h'') : OffsetOnly h h'' := by
  intro q
  rw [h2 q, h1 q]

theorem OffsetOnly.name (ho : OffsetOnly h h') (q : Ptr) : (h' q).name = (h q).name := by
  rw [ho q]

theorem OffsetOnly.length (ho : OffsetOnly h h') (q : Ptr) : (h' q).length = (h q).length := by
  rw [ho q]

theorem OffsetOnly.index (ho : OffsetOnly h h') (q : Ptr) : (h' q).index = (h q).index := by
  rw [ho q]

theorem OffsetOnly.pos (ho : OffsetOnly h h') (t : ArrType) (q : Ptr) :
    (h' q).pos t = (h q).pos t := by
  rw [ho q]; cases t <;> rfl

theorem offsetOnly_set (h : Heap) (p : Ptr) (o : ℕ) :
    OffsetOnly h (h.set p { h p with offset := o }) := by
  intro q
  by_cases hq : q = p
  · subst hq; simp
  · rw [Heap.set_of_ne _ _ hq]

end OffsetOnly

/-- A repack rewrites offsets of files in the offset array, `file_data` and `dir_table`. -/
structure RepackFrame (s s' : Filesys) : Prop where
  eq : s' = { s with heap := s'.heap, file := s'.file, dir := s'.dir }
  offsetOnly : OffsetOnly s.heap s'.heap
  outside : ∀ q ∉ s.oList.list, s'.heap q = s.heap q
  offset_le : ∀ q, (s'.heap q).offset ≤ (s.heap q).offset
  file_length : s'.file.length = s.file.length
  dir_length : s'.dir.length = s.dir.length

theorem repackHelper_frame {s s' : Filesys} {ho : ℤ} (hr : repackHelper s = .ok (ho, s')) :
    RepackFrame s s' := by
  refine repackHelper_induct (I := RepackFrame s) ?_ ?_ hr
  · exact ⟨rfl, OffsetOnly.refl _, fun _ _ => rfl, fun _ => le_rfl, rfl, rfl⟩
  · intro s₁ p new s₂ hI hp hlt hm
    obtain ⟨file, rfl, hdir, h0, h1⟩ := repackMove_post hm
    have hfile : file.length = s₁.file.length := by
      rcases Nat.eq_zero_or_pos (s₁.heap p).length with hz | hz
      · rw [h0 hz]
      · obtain ⟨⟨hb1, hb2⟩, rfl⟩ := h1 hz
        exact length_splice (by rw [length_slice_of_le hb1]; exact hb2)
    refine ⟨?_, hI.offsetOnly.trans (offsetOnly_set _ _ _), ?_, ?_, ?_, ?_⟩
    · rw [hI.eq]
    · intro q hq
      show s₁.heap.set p _ q = _
      rw [Heap.set_of_ne _ _ (fun he => hq (by rw [he]; exact hp)), hI.outside q hq]
    · intro q
      show (s₁.heap.set p _ q).offset ≤ _
      by_cases hq : q = p
      · subst hq
        rw [Heap.set_self]
        exact hlt.le.trans (hI.offset_le q)
      · rw [Heap.set_of_ne _ _ hq]
        exact hI.offset_le q
    · exact hfile.trans hI.file_length
    · exact (length_splice (by simpa using hdir)).trans hI.dir_length

/-! ## Hashing -/

/-- Hashing rewrites `hash_data` only. -/
structure HashFrame (s s' : Filesys) : Prop where
  eq : s' = { s with hash := s'.hash }
  hash_length : s'.hash.length = s.hash.length

theorem HashFrame.refl (s : Filesys) : HashFrame s s := ⟨rfl, rfl⟩

theorem HashFrame.trans {s s' s'' : Filesys} (h1 : HashFrame s s') (h2 : HashFrame s' s'') :
    HashFrame s s'' :=
  ⟨by rw [h2.eq, h1.eq], h2.hash_length.trans h1.hash_length⟩

theorem HashFrame.heap_file {s s' : Filesys} (hf : HashFrame s s') :
    s'.heap = s.heap ∧ s'.file = s.file := by
  rw [hf.eq]
  exact ⟨rfl, rfl⟩

theorem writeNode_frame {n : ℤ} {h : List UInt8} {s s' : Filesys}
    (hr : writeNode n h s = .ok s') : HashFrame s s' := by
  unfold writeNode at hr
  obtain ⟨a, _, hr⟩ := Run.bind_eq_ok.mp hr
  obtain ⟨hash, hw, hr⟩ := Run.bind_eq_ok.mp hr
  obtain ⟨hb, rfl⟩ := memWrite_eq_ok.mp hw
  obtain rfl := Except.ok.inj hr
  exact ⟨rfl, length_splice (by omega)⟩

theorem climb_frame : ∀ (fuel : ℕ) (n : ℤ) (s s' : Filesys), climb fuel n s = .ok s' →
    HashFrame s s' := by
  intro fuel
  induction fuel with
  | zero => intro n s s' hr; cases hr
  | succ fuel ih =>
    intro n s s' hr
    simp only [climb] at hr
    split_ifs at hr with hn
    · obtain ⟨_, _, hr⟩ := Run.bind_eq_ok.mp hr
      obtain ⟨s₁, hw, hr⟩ := Run.bind_eq_ok.mp hr
      exact (writeNode_frame hw).trans (ih _ _ _ hr)
    · obtain rfl := Except.ok.inj hr
      exact HashFrame.refl s

theorem computeHashBlockHelper_frame {b : ℕ} {s s' : Filesys}
    (hr : computeHashBlockHelper b s = .ok s') : HashFrame s s' := by
  unfold computeHashBlockHelper at hr
  obtain ⟨_, _, hr⟩ := Run.bind_eq_ok.mp hr
  obtain ⟨s₁, hw, hr⟩ := Run.bind_eq_ok.mp hr
  exact (writeNode_frame hw).trans (climb_frame _ _ _ _ hr)

theorem hashBlocks_frame : ∀ (n : ℕ) (i : ℤ) (s s' : Filesys), hashBlocks i n s = .ok s' →
    HashFrame s s' := by
  intro n
  induction n with
  | zero =>
    intro i s s' hr
    obtain rfl := Except.ok.inj hr
    exact HashFrame.refl s
  | succ n ih =>
    intro i s s' hr
    obtain ⟨s₁, hb, hr⟩ := Run.bind_eq_ok.mp hr
    exact (computeHashBlockHelper_frame hb).trans (ih _ _ _ hr)

theorem computeHashBlockRange_frame {o l : ℤ} {s s' : Filesys}
    (hr : computeHashBlockRange o l s = .ok s') : HashFrame s s' := by
  unfold computeHashBlockRange at hr
  split_ifs at hr
  · obtain rfl := Except.ok.inj hr
    exact HashFrame.refl s
  · exact hashBlocks_frame _ _ _ _ hr

/-- Whichever of two ranges is hashed. -/
theorem hashEither_frame {P Q : Prop} {o l o' l' : ℤ} {s s' : Filesys}
    (h : P ∧ computeHashBlockRange o l s = .ok s' ∨ Q ∧ computeHashBlockRange o' l' s = .ok s') :
    HashFrame s s' := by
  rcases h with ⟨-, h⟩ | ⟨-, h⟩
  · exact computeHashBlockRange_frame h
  · exact computeHashBlockRange_frame h

/-! ## Allocation and null bytes -/

/-- A completed `new_file_offset` moved nothing, or ran a repack. -/
theorem newFileOffset_post {length o : ℕ} {ho ho' : ℤ} {s s' : Filesys}
    (hr : newFileOffset length ho s = .ok (o, ho', s')) :
    (length ≤ s.fileDataLen ∧ toU64 (s.used + length) ≤ s.fileDataLen) ∧
    ((s' = s ∧ ho' = ho ∧ ((length = 0 ∧ o = maxFileDataLen) ∨
        (0 < length ∧ findGap length s = .ok (some o)))) ∨
      (0 < length ∧ findGap length s = .ok none ∧ repackHelper s = .ok (ho', s') ∧
        o = toU64 s'.used)) := by
  unfold newFileOffset at hr
  obtain ⟨_, h1, hr⟩ := Run.bind_eq_ok.mp hr
  obtain ⟨_, h2, hr⟩ := Run.bind_eq_ok.mp hr
  refine ⟨⟨Run.assert_eq_ok.mp h1, Run.assert_eq_ok.mp h2⟩, ?_⟩
  split_ifs at hr with h0
  · simp only [Run.pure_eq, Except.ok.injEq, Prod.mk.injEq] at hr
    obtain ⟨rfl, rfl, rfl⟩ := hr
    exact Or.inl ⟨rfl, rfl, Or.inl ⟨h0, rfl⟩⟩
  · obtain ⟨g, hg, hr⟩ := Run.bind_eq_ok.mp hr
    cases g with
    | some o' =>
      simp only [Run.pure_eq, Except.ok.injEq, Prod.mk.injEq] at hr
      obtain ⟨rfl, rfl, rfl⟩ := hr
      exact Or.inl ⟨rfl, rfl, Or.inr ⟨by omega, hg⟩⟩
    | none =>
      obtain ⟨⟨ho₁, s₁⟩, hrep, hr⟩ := Run.bind_eq_ok.mp hr
      simp only [Run.pure_eq, Except.ok.injEq, Prod.mk.injEq] at hr
      obtain ⟨rfl, rfl, rfl⟩ := hr
      exact Or.inr ⟨by omega, hg, hrep, rfl⟩

theorem writeNullFile_post {o c : ℤ} {s s' : Filesys} (hr : writeNullFile o c s = .ok s') :
    (c ≤ 0 ∧ s' = s) ∨ (0 < c ∧ c < maxFileDataLen ∧ 0 ≤ o ∧ o + c ≤ s.file.length ∧
      s' = { s with file := splice s.file o.toNat (List.replicate c.toNat 0) }) := by
  unfold writeNullFile writeNullByte at hr
  obtain ⟨file, hf, hr⟩ := Run.bind_eq_ok.mp hr
  obtain rfl := Except.ok.inj hr
  split_ifs at hf with hc
  · obtain rfl := Except.ok.inj hf
    exact Or.inl ⟨hc, rfl⟩
  · obtain ⟨_, ha, hw⟩ := Run.bind_eq_ok.mp hf
    have ha := Run.assert_eq_ok.mp ha
    obtain ⟨hb, rfl⟩ := memWrite_eq_ok.mp hw
    rw [List.length_replicate] at hb
    exact Or.inr ⟨by omega, ha.1, ha.2.1, by omega, rfl⟩

end Vfs
